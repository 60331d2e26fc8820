import SqlTree.Proofs.Ensures
import SqlTree.Proofs.Parts
import SqlTree.Literal

/-!
Literals in which every semicolon stands between apostrophes.
-/

namespace SqlTree

namespace Text

/-- Reads on from inside or outside apostrophes: where the text ends, unless a semicolon stands
outside. -/
def quoteState (inside : Bool) : List Char → Option Bool
  | [] => some inside
  | c :: cs =>
    if c = '\'' then quoteState (!inside) cs
    else if c = ';' && !inside then none
    else quoteState inside cs

/-- Every semicolon of the text stands between apostrophes, all of which are closed. -/
def Sealed (t : String) : Prop := quoteState false t.toList = some false

instance (t : String) : Decidable (Sealed t) :=
  inferInstanceAs (Decidable (quoteState false t.toList = some false))

/-- Neither an apostrophe nor a semicolon. -/
def isBareChar (c : Char) : Bool := c != '\'' && c != ';'

def isBare (t : String) : Bool := t.toList.all isBareChar

variable {inside : Bool} {cs ds : List Char} {t u : String}

theorem quoteState_append :
    quoteState inside (cs ++ ds) = (quoteState inside cs).bind (quoteState · ds) := by
  induction cs generalizing inside with
  | nil => rfl
  | cons c cs ih =>
    simp only [List.cons_append, quoteState, ih]
    split
    · rfl
    · split <;> rfl

theorem quoteState_bare (h : ∀ c ∈ cs, isBareChar c = true) :
    quoteState inside cs = some inside := by
  induction cs with
  | nil => rfl
  | cons c cs ih =>
    have hc := h c (by simp)
    simp only [isBareChar, Bool.and_eq_true, bne_iff_ne, ne_eq] at hc
    rw [quoteState, if_neg hc.1, if_neg (by simp [hc.2]), ih fun d hd => h d (by simp [hd])]

theorem quoteState_doubleQuote (cs : List Char) :
    quoteState true (doubleQuote ['\''] cs) = some true := by
  induction cs with
  | nil => rfl
  | cons c cs ih =>
    by_cases hc : c = '\''
    · subst hc
      rw [doubleQuote_cons_self]
      simpa [quoteState] using ih
    · rw [doubleQuote_cons_of_ne hc, quoteState, if_neg hc]
      simpa using ih

theorem sealed_bare (h : isBare t = true) : Sealed t :=
  quoteState_bare (List.all_eq_true.mp h)

theorem Sealed.append (ht : Sealed t) (hu : Sealed u) : Sealed (t ++ u) := by
  rw [Sealed, String.toList_append, quoteState_append, ht]
  exact hu

theorem sealed_intercalate {sep : String} (hsep : Sealed sep) {ts : List String}
    (h : ∀ t ∈ ts, Sealed t) : Sealed (sep.intercalate ts) := by
  induction ts with
  | nil => simp [Sealed, quoteState]
  | cons t ts ih =>
    cases ts with
    | nil => simpa using h t (by simp)
    | cons u us =>
      rw [String.intercalate_cons_cons]
      exact ((h t (by simp)).append hsep).append (ih fun v hv => h v (by simp [hv]))

/-- Text in apostrophes. -/
theorem sealed_quoted {cs : List Char} (h : quoteState true cs = some true) :
    Sealed (String.ofList ('\'' :: cs ++ ['\''])) := by
  rw [Sealed, String.toList_ofList]
  simp [quoteState, quoteState_append, h]

end Text

open Text

section Numbers

theorem isBareChar_of_digit {c : Char} (h : c.isDigit = true) : isBareChar c = true := by
  rw [isBareChar, Bool.and_eq_true, bne_iff_ne, bne_iff_ne]
  constructor <;> rintro rfl <;> cases h

theorem bare_toDigits {n : Nat} {c : Char} (h : c ∈ Nat.toDigits 10 n) : isBareChar c = true :=
  isBareChar_of_digit (Nat.isDigit_of_mem_toDigits (by decide) (by decide) h)

theorem sealed_nat (n : Nat) : Sealed n.repr := by
  refine sealed_bare (List.all_eq_true.mpr fun c hc => ?_)
  rw [Nat.toList_repr] at hc
  exact bare_toDigits hc

theorem sealed_int (n : Int) : Sealed (toString n) := by
  cases n with
  | ofNat n => exact sealed_nat n
  | negSucc n => exact (sealed_bare (t := "-") (by decide)).append (sealed_nat (n + 1))

theorem bare_exponentText (e : Int) : ∀ c ∈ Number.exponentText e, isBareChar c = true := by
  intro c hc
  rw [Number.exponentText, List.mem_cons] at hc
  rcases hc with rfl | hc
  · split <;> decide
  · split at hc
    · rcases List.mem_cons.mp hc with rfl | hc
      · decide
      · exact bare_toDigits hc
    · exact bare_toDigits hc

theorem bare_layout (d : Number.Decimal) : ∀ c ∈ Number.layout d, isBareChar c = true := by
  have hdigits : ∀ c ∈ Nat.toDigits 10 d.digits, isBareChar c = true := fun c => bare_toDigits
  have hzeros : ∀ n, ∀ c ∈ List.replicate n '0', isBareChar c = true := fun n c hc => by
    rw [List.eq_of_mem_replicate hc]
    decide
  unfold Number.layout
  generalize Nat.toDigits 10 d.digits = digits at hdigits
  have htake : ∀ n, ∀ c ∈ digits.take n, isBareChar c = true := fun n c hc =>
    hdigits c (List.mem_of_mem_take hc)
  have hdrop : ∀ n, ∀ c ∈ digits.drop n, isBareChar c = true := fun n c hc =>
    hdigits c (List.mem_of_mem_drop hc)
  have htail : ∀ c ∈ digits.tail, isBareChar c = true := fun c hc =>
    hdigits c (List.mem_of_mem_tail hc)
  have hcons : ∀ {c : Char} {cs : List Char}, isBareChar c = true →
      (∀ d ∈ cs, isBareChar d = true) → ∀ d ∈ c :: cs, isBareChar d = true := fun hc hcs =>
    List.forall_mem_cons.mpr ⟨hc, hcs⟩
  have happend : ∀ {cs ds : List Char}, (∀ c ∈ cs, isBareChar c = true) →
      (∀ c ∈ ds, isBareChar c = true) → ∀ c ∈ cs ++ ds, isBareChar c = true := fun hcs hds =>
    List.forall_mem_append.mpr ⟨hcs, hds⟩
  dsimp only
  split
  · split
    · exact hcons rfl (hcons rfl (happend (hzeros _) hdigits))
    · refine happend (happend (htake _) (hzeros _)) (hcons rfl ?_)
      split
      · exact hcons rfl (by simp)
      · exact hdrop _
  · refine happend (happend (htake _) ?_) (hcons rfl (bare_exponentText _))
    split
    · simp
    · exact hcons rfl htail

theorem bare_real (x : Number.Binary64) : isBare x.text = true := by
  cases x with
  | nan => decide
  | infinite negative => cases negative <;> decide
  | finite negative m q =>
    rw [Number.Binary64.text, isBare, String.toList_ofList, List.all_eq_true]
    have hdigits : ∀ c ∈ if m = 0 then ['0', '.', '0'] else
        Number.layout (Number.Binary64.shortest m q), isBareChar c = true := by
      split
      · simp [isBareChar]
      · exact bare_layout _
    split
    · exact List.forall_mem_cons.mpr ⟨rfl, hdigits⟩
    · exact hdigits

theorem bare_hexDigits {n : Nat} (h : n < 256) :
    ∀ c ∈ hexDigits 2 n, isBareChar c.toUpper = true := by
  have hdigit : ∀ d < 16, isBareChar (Nat.digitChar d).toUpper = true := by decide +kernel
  intro c hc
  rw [hexDigits] at hc
  rcases Nat.lt_or_ge n 16 with hn | hn
  · rw [Nat.toDigits_of_lt_base hn] at hc
    obtain rfl | rfl : c = '0' ∨ c = Nat.digitChar n := by simpa using hc
    exacts [rfl, hdigit n hn]
  · rw [Nat.toDigits_of_base_le (by decide) hn, Nat.toDigits_of_lt_base (by omega)] at hc
    obtain rfl | rfl : c = Nat.digitChar (n / 16) ∨ c = Nat.digitChar (n % 16) := by
      simpa using hc
    exacts [hdigit _ (by omega), hdigit _ (by omega)]

theorem bare_upperHex (bs : List UInt8) :
    ∀ c ∈ (Dialect.upperHex bs).toList, isBareChar c = true := by
  intro c hc
  rw [Dialect.upperHex, String.toList_ofList, hexText, String.toList_ofList] at hc
  obtain ⟨d, hd, rfl⟩ := List.mem_map.mp hc
  obtain ⟨b, -, hb⟩ := List.mem_flatMap.mp hd
  exact bare_hexDigits b.toNat_lt d hb

end Numbers

namespace Dialect

theorem sealed_stringLiteral (d : Dialect) (t : String) : Sealed (d.stringLiteral t) :=
  sealed_quoted (quoteState_doubleQuote t.toList)

theorem sealed_bytesLiteral (d : Dialect) (bs : List UInt8) : Sealed (d.bytesLiteral bs) := by
  have hhex := bare_upperHex bs
  have hinside : quoteState true (upperHex bs).toList = some true := quoteState_bare hhex
  have hquoted : Sealed ("X'" ++ upperHex bs ++ "'") := by
    have h := sealed_quoted hinside
    have happend := (sealed_bare (t := "X") (by decide)).append h
    simpa [Sealed] using happend
  cases d
  case postgres =>
    have hmarked : quoteState true ('\\' :: 'x' :: (upperHex bs).toList) = some true := by
      simpa [quoteState] using hinside
    simpa [bytesLiteral, Sealed] using sealed_quoted hmarked
  case sqlserver =>
    exact (sealed_bare (t := "0x") (by decide)).append (sealed_bare (List.all_eq_true.mpr hhex))
  all_goals exact hquoted

end Dialect

def Value.isBareDecimal : Value → Bool
  | .decimal x => isBare x.text
  | _ => true

/-- The decimals in a value are written with neither apostrophes nor semicolons. -/
def Value.BareDecimals (v : Value) : Prop := v.every isBareDecimal = true

instance (v : Value) : Decidable v.BareDecimals :=
  inferInstanceAs (Decidable (v.every Value.isBareDecimal = true))

namespace Literal

theorem sealed_array {ts : List String} (h : ∀ t ∈ ts, Sealed t) :
    Sealed ("ARRAY[" ++ ", ".intercalate ts ++ "]") :=
  ((sealed_bare (t := "ARRAY[") (by decide)).append
    (sealed_intercalate (sealed_bare (by decide)) h)).append (sealed_bare (by decide))

variable (d : Dialect)

mutual

/-- The literal of a value is sealed, whatever the texts in the value are. -/
theorem sealed_render : ∀ v : Value, v.BareDecimals →
    Meets (fun _ => True) Sealed (render d v)
  | .null, _ => sealed_bare (t := "NULL") (by decide)
  | .bool true, _ => sealed_bare (t := "TRUE") (by decide)
  | .bool false, _ => sealed_bare (t := "FALSE") (by decide)
  | .int n, _ => sealed_int n
  | .real x, _ => sealed_bare (bare_real x)
  | .decimal _, h => sealed_bare h
  | .text t, _ => d.sealed_stringLiteral t
  | .bytes bs, _ => d.sealed_bytesLiteral bs
  | .buffer bs, _ => d.sealed_bytesLiteral bs
  | .datetime t, _ => d.sealed_stringLiteral _
  | .date t, _ => d.sealed_stringLiteral t
  | .time t, _ => d.sealed_stringLiteral t
  | .uuid t, _ => d.sealed_stringLiteral t
  | .list vs, h => .bind (sealed_renderItems vs (Value.everyItem_iff.mp h)) fun _ hts =>
    sealed_array hts
  | .tuple vs, h => .bind (sealed_renderItems vs (Value.everyItem_iff.mp h)) fun _ hts =>
    sealed_array hts
  | .map es, _ => by
    rw [render]
    split
    · exact d.sealed_stringLiteral _
    · trivial
  | .set xs, _ => trivial

theorem sealed_renderItems : ∀ vs : List Value, (∀ v ∈ vs, v.BareDecimals) →
    Meets (fun _ => True) (fun ts => ∀ t ∈ ts, Sealed t) (renderItems d vs)
  | [], _ => nofun
  | v :: vs, h =>
    .bind (sealed_render v (h v (by simp))) fun t ht =>
      .bind (sealed_renderItems vs fun w hw => h w (by simp [hw])) fun ts hts =>
        List.forall_mem_cons.mpr ⟨ht, hts⟩

end

end Literal

end SqlTree
