import SqlTree.Number.Text
import SqlTree.Proofs.Numbers.Rounding
import SqlTree.Proofs.RoundTrip.Spelling
import SqlTree.Syntax.Reading.Literal

/-!
The text of a floating-point number. It is one token, and the number is read from it.
-/

namespace SqlTree.Number

section Digits

/-- Decimal digits alone. -/
def AreDigits (cs : List Char) : Prop := ∀ c ∈ cs, c.isDigit = true

instance (cs : List Char) : Decidable (AreDigits cs) := List.decidableBAll _ cs

variable {cs ds rest : List Char}

theorem areDigits_toDigits (n : Nat) : AreDigits (Nat.toDigits 10 n) :=
  fun _ hc => Nat.isDigit_of_mem_toDigits (by decide) (by decide) hc

theorem areDigits_zeros (n : Nat) : AreDigits (List.replicate n '0') := by
  intro c hc
  rw [List.eq_of_mem_replicate hc]
  rfl

theorem AreDigits.append (h : AreDigits cs) (h' : AreDigits ds) : AreDigits (cs ++ ds) :=
  fun c hc => (List.mem_append.mp hc).elim (h c) (h' c)

theorem AreDigits.isDigit (h : AreDigits cs) : ∀ c ∈ cs, Text.isDigit c = true := by
  intro c hc
  simp [Text.isDigit, (Lexer.isDigit_classes (h c hc)).1]

theorem AreDigits.value (h : AreDigits cs) : Text.digitsValue cs = Nat.ofDigitChars 10 cs 0 :=
  Lexer.digitsValue_eq_ofDigitChars h

/-- No digit stands at the front. -/
def EndsDigits (rest : List Char) : Prop := ∀ c ∈ rest.head?, Text.isDigit c = false

theorem AreDigits.takeWhile (h : AreDigits cs) (hr : EndsDigits rest) :
    (cs ++ rest).takeWhile Text.isDigit = cs := by
  have hend : rest.takeWhile Text.isDigit = [] := by
    cases rest with
    | nil => rfl
    | cons c rest => exact List.takeWhile_cons_of_neg (by simp [hr c rfl])
  rw [List.takeWhile_append_of_pos h.isDigit, hend, List.append_nil]

theorem AreDigits.dropWhile (h : AreDigits cs) (hr : EndsDigits rest) :
    (cs ++ rest).dropWhile Text.isDigit = rest := by
  rw [List.dropWhile_append_of_pos h.isDigit]
  cases rest with
  | nil => rfl
  | cons c rest => exact List.dropWhile_cons_of_neg (by simp [hr c rfl])

end Digits

section Exponents

/-- The digits of an exponent, of which there are two at least. -/
def exponentDigits (e : Int) : List Char :=
  if (Nat.toDigits 10 e.natAbs).length < 2 then '0' :: Nat.toDigits 10 e.natAbs
  else Nat.toDigits 10 e.natAbs

theorem exponentText_eq (e : Int) :
    exponentText e = (if e < 0 then '-' else '+') :: exponentDigits e := rfl

theorem areDigits_exponent (e : Int) : AreDigits (exponentDigits e) := by
  unfold exponentDigits
  split
  · exact List.forall_mem_cons.mpr ⟨rfl, areDigits_toDigits _⟩
  · exact areDigits_toDigits _

theorem exponentDigits_ne_nil (e : Int) : exponentDigits e ≠ [] := by
  unfold exponentDigits
  split
  · exact List.cons_ne_nil _ _
  · exact Nat.toDigits_ne_nil

theorem exponentDigits_value (e : Int) : Text.digitsValue (exponentDigits e) = e.natAbs := by
  rw [(areDigits_exponent e).value]
  unfold exponentDigits
  split
  · rw [Nat.ofDigitChars_cons]
    exact Nat.ofDigitChars_ten_toDigits
  · exact Nat.ofDigitChars_ten_toDigits

theorem readExponent?_text (e : Int) : readExponent? ('e' :: exponentText e) = some e := by
  have hall : (exponentDigits e).all Text.isDigit = true :=
    List.all_eq_true.mpr (areDigits_exponent e).isDigit
  have hempty : (exponentDigits e).isEmpty = false := by
    rw [List.isEmpty_eq_false_iff]
    exact exponentDigits_ne_nil e
  rw [exponentText_eq]
  by_cases he : e < 0
  · simp [readExponent?, he, hall, hempty, exponentDigits_value, abs_of_neg he]
  · simp [readExponent?, he, hall, hempty, exponentDigits_value, abs_of_nonneg (not_lt.mp he)]

end Exponents

section Written

/-- An exponent behind a mantissa, if there is one. -/
def exponentPart : Option Int → List Char
  | none => []
  | some e => 'e' :: exponentText e

/-- The places behind the point, which is not written without them. -/
def placesPart (places : List Char) : List Char := if places = [] then [] else '.' :: places

def written (whole places : List Char) (e : Option Int) : List Char :=
  whole ++ (placesPart places ++ exponentPart e)

variable {whole places rest : List Char} {e : Option Int}

theorem endsDigits_exponentPart (e : Option Int) : EndsDigits (exponentPart e) := by
  cases e with
  | none => exact nofun
  | some e =>
    rintro _ ⟨⟩
    decide

theorem readExponent?_part (e : Option Int) : readExponent? (exponentPart e) = some (e.getD 0) := by
  cases e with
  | none => rfl
  | some e => exact readExponent?_text e

theorem readNumeral?_written (hne : whole ≠ []) (hw : AreDigits whole) (hp : AreDigits places) :
    readNumeral? (written whole places e) = some ⟨whole, places, e.getD 0⟩ := by
  have hempty : whole.isEmpty = false := List.isEmpty_eq_false_iff.mpr hne
  by_cases hplaces : places = []
  · subst hplaces
    have hend := endsDigits_exponentPart e
    rw [readNumeral?, written, placesPart, if_pos rfl, List.nil_append, hw.takeWhile hend,
      hw.dropWhile hend]
    cases e with
    | none => simp [exponentPart, readExponent?, hempty]
    | some e => simp [exponentPart, readExponent?_text, hempty]
  · have hend : EndsDigits ('.' :: places ++ exponentPart e) := by
      rintro _ ⟨⟩
      decide
    rw [readNumeral?, written, placesPart, if_neg hplaces, hw.takeWhile hend, hw.dropWhile hend]
    simp [hempty, readExponent?_part, hp.takeWhile (endsDigits_exponentPart e),
      hp.dropWhile (endsDigits_exponentPart e)]

theorem endsDigits_bounded (h : Lexer.Bounded rest) : EndsDigits rest := by
  intro c hc
  rcases h c hc with rfl | rfl | rfl <;> rfl

theorem digitRun_append (hw : AreDigits whole) (hr : EndsDigits rest) :
    Lexer.digitRun (whole ++ rest) = whole.length := by
  rw [Lexer.digitRun, hw.takeWhile hr]

theorem mantissaRun_whole (hw : AreDigits whole) (hr : EndsDigits rest) (hpoint : rest.head? ≠ some '.') :
    Lexer.mantissaRun (whole ++ rest) = whole.length := by
  rw [Lexer.mantissaRun, digitRun_append hw hr, List.drop_left]
  split
  · exact absurd rfl hpoint
  · rfl

theorem mantissaRun_places (hne : whole ≠ []) (hw : AreDigits whole) (hp : AreDigits places)
    (hr : EndsDigits rest) :
    Lexer.mantissaRun (whole ++ '.' :: (places ++ rest)) = (whole ++ '.' :: places).length := by
  have hend : EndsDigits ('.' :: (places ++ rest)) := by
    rintro _ ⟨⟩
    decide
  have hpos : whole.length ≠ 0 := by simpa using hne
  rw [Lexer.mantissaRun, digitRun_append hw hend, List.drop_left]
  simp only [digitRun_append hp hr, hpos, false_and, if_false]
  rw [List.length_append, List.length_cons]
  omega

theorem exponentRun_part (h : Lexer.Bounded rest) :
    Lexer.exponentRun (exponentPart e ++ rest) = (exponentPart e).length := by
  cases e with
  | none => obtain rfl | ⟨c, more, rfl, rfl | rfl | rfl⟩ := h.cases <;> rfl
  | some e =>
    have hrun := digitRun_append (areDigits_exponent e) (endsDigits_bounded h)
    have hpos : (exponentDigits e).length ≠ 0 := by simpa using exponentDigits_ne_nil e
    rw [exponentPart, exponentText_eq]
    by_cases he : e < 0
    · simp [Lexer.exponentRun, he, hrun, hpos]
      omega
    · simp [Lexer.exponentRun, he, hrun, hpos]
      omega

/-- The text is taken for one number, up to its end. -/
theorem number_written (hne : whole ≠ []) (hw : AreDigits whole) (hp : AreDigits places)
    (hr : Lexer.Bounded rest) :
    Lexer.number (written whole places e ++ rest) = some (written whole places e).length := by
  have hend : EndsDigits (exponentPart e ++ rest) ∧ (exponentPart e ++ rest).head? ≠ some '.' := by
    cases e with
    | none =>
      refine ⟨endsDigits_bounded hr, ?_⟩
      obtain rfl | ⟨c, more, rfl, rfl | rfl | rfl⟩ := hr.cases <;> simp [exponentPart]
    | some e =>
      refine ⟨?_, by simp [exponentPart]⟩
      rintro _ ⟨⟩
      decide
  have hmantissa : Lexer.mantissaRun (written whole places e ++ rest) =
      (whole ++ placesPart places).length := by
    by_cases hplaces : places = []
    · have hm := mantissaRun_whole hw hend.1 hend.2
      simpa [written, placesPart, hplaces] using hm
    · have hm := mantissaRun_places hne hw hp hend.1
      simpa [written, placesPart, hplaces] using hm
  have hpos : (whole ++ placesPart places).length ≠ 0 := by simp [hne]
  have hdrop : (written whole places e ++ rest).drop (whole ++ placesPart places).length =
      exponentPart e ++ rest := by
    rw [written, ← List.append_assoc whole, List.append_assoc, List.drop_left]
  simp only [Lexer.number, hmantissa, if_neg hpos, hdrop, exponentRun_part hr]
  simp only [written, List.length_append, Nat.add_assoc]

theorem spells_written (hne : whole ≠ []) (hw : AreDigits whole) (hp : AreDigits places) :
    Lexer.Spells (String.ofList (written whole places e))
      [.number (String.ofList (written whole places e))] := by
  refine Lexer.spells_of_firstMatch ?_ fun rest hb => ?_
  · obtain ⟨c, cs, rfl⟩ := List.exists_cons_of_ne_nil hne
    exact ⟨c, by simp [written], (Lexer.isDigit_classes (hw c (by simp))).2.1⟩
  · rw [String.toList_ofList]
    simp only [Lexer.firstMatch, Lexer.classes, List.findSome?_cons, number_written hne hw hp hb,
      Option.map_some]

end Written

section Layout

variable {d : Decimal} {whole places : List Char} {e : Option Int} {v : ℚ}

theorem decimal_value (hw : AreDigits whole) (hp : AreDigits places) (e : Int) :
    (Numeral.decimal ⟨whole, places, e⟩).value =
      Nat.ofDigitChars 10 (whole ++ places) 0 * (10 : ℚ) ^ (e - places.length) := by
  rw [Numeral.decimal, Decimal.value, (hw.append hp).value]

/-- A text is laid out as the digits of a value, and cannot be taken for an integer. -/
inductive LaidOut (v : ℚ) : List Char → Prop
  | mk {whole places : List Char} {e : Option Int} : whole ≠ [] → AreDigits whole →
      AreDigits places → (places ≠ [] ∨ e ≠ none) →
      (Numeral.decimal ⟨whole, places, e.getD 0⟩).value = v → LaidOut v (written whole places e)

variable {ds : List Char}

/-- Zeros between the point and the digits. -/
theorem laidOut_below (hds : AreDigits ds) (hne : ds ≠ []) {k : Nat} {exponent : Int}
    (hk : (ds.length : Int) + exponent = -k) :
    LaidOut (Nat.ofDigitChars 10 ds 0 * (10 : ℚ) ^ exponent)
      ('0' :: '.' :: List.replicate k '0' ++ ds) := by
  have hplaces : List.replicate k '0' ++ ds ≠ [] := by simp [hne]
  have hzero : AreDigits ['0'] := by decide
  have hall : AreDigits (List.replicate k '0' ++ ds) := (areDigits_zeros k).append hds
  have hlaid : written ['0'] (List.replicate k '0' ++ ds) none =
      '0' :: '.' :: List.replicate k '0' ++ ds := by
    simp [written, placesPart, hne, exponentPart]
  rw [← hlaid]
  refine .mk (List.cons_ne_nil _ _) hzero hall (.inl hplaces) ?_
  have hdigits : Nat.ofDigitChars 10 (['0'] ++ (List.replicate k '0' ++ ds)) 0 =
      Nat.ofDigitChars 10 ds 0 := by
    rw [Nat.ofDigitChars_append, Nat.ofDigitChars_append, Nat.ofDigitChars_cons,
      Nat.ofDigitChars_nil, Nat.ofDigitChars_replicate_zero]
    rfl
  have hexponent : (Option.none.getD 0 : Int) - (List.replicate k '0' ++ ds).length = exponent := by
    rw [List.length_append, List.length_replicate, Option.getD_none]
    omega
  rw [decimal_value hzero hall, hdigits, hexponent]

/-- The point within the digits. -/
theorem laidOut_within (hds : AreDigits ds) {p : Nat} (hp : 0 < p) (hlt : p < ds.length)
    {exponent : Int} (hpoint : (ds.length : Int) + exponent = p) :
    LaidOut (Nat.ofDigitChars 10 ds 0 * (10 : ℚ) ^ exponent) (ds.take p ++ '.' :: ds.drop p) := by
  have hwhole : AreDigits (ds.take p) := fun c hc => hds c (List.mem_of_mem_take hc)
  have hplaces : AreDigits (ds.drop p) := fun c hc => hds c (List.mem_of_mem_drop hc)
  have hne : ds.take p ≠ [] ∧ ds.drop p ≠ [] := by
    constructor <;> (rw [← List.length_pos_iff]; simp; omega)
  have hlaid : written (ds.take p) (ds.drop p) none = ds.take p ++ '.' :: ds.drop p := by
    simp [written, placesPart, hne.2, exponentPart]
  rw [← hlaid]
  refine .mk hne.1 hwhole hplaces (.inl hne.2) ?_
  have hexponent : (Option.none.getD 0 : Int) - (ds.drop p).length = exponent := by
    rw [List.length_drop, Option.getD_none]
    omega
  rw [decimal_value hwhole hplaces, List.take_append_drop, hexponent]

/-- Zeros between the digits and the point. -/
theorem laidOut_above (hds : AreDigits ds) (hne : ds ≠ []) (k : Nat) :
    LaidOut (Nat.ofDigitChars 10 ds 0 * (10 : ℚ) ^ (k : Int))
      (ds ++ List.replicate k '0' ++ ['.', '0']) := by
  have hzero : AreDigits ['0'] := by decide
  have hwhole : AreDigits (ds ++ List.replicate k '0') := hds.append (areDigits_zeros k)
  have hlaid : written (ds ++ List.replicate k '0') ['0'] none =
      ds ++ List.replicate k '0' ++ ['.', '0'] := by
    simp [written, placesPart, exponentPart]
  rw [← hlaid]
  refine .mk (by simp [hne]) hwhole hzero (.inl (List.cons_ne_nil _ _)) ?_
  have hdigits : Nat.ofDigitChars 10 (ds ++ List.replicate k '0' ++ ['0']) 0 =
      10 * (10 ^ k * Nat.ofDigitChars 10 ds 0) := by
    rw [Nat.ofDigitChars_append, Nat.ofDigitChars_append, Nat.ofDigitChars_replicate_zero,
      Nat.ofDigitChars_cons, Nat.ofDigitChars_nil]
    rfl
  rw [decimal_value hwhole hzero, hdigits]
  simp
  ring

/-- One digit in front of the point, and an exponent. -/
theorem laidOut_scientific (hds : AreDigits ds) (hne : ds ≠ []) {e exponent : Int}
    (he : (ds.length : Int) + exponent = e + 1) :
    LaidOut (Nat.ofDigitChars 10 ds 0 * (10 : ℚ) ^ exponent)
      (ds.take 1 ++ (placesPart ds.tail ++ 'e' :: exponentText e)) := by
  obtain ⟨c, cs, rfl⟩ := List.exists_cons_of_ne_nil hne
  obtain ⟨hc, hcs⟩ := List.forall_mem_cons.mp hds
  have hwhole : AreDigits [c] := List.forall_mem_singleton.mpr hc
  refine @LaidOut.mk _ [c] cs (some e) (List.cons_ne_nil _ _) hwhole hcs
    (.inr (Option.some_ne_none e)) ?_
  have hexponent : (some e).getD 0 - cs.length = exponent := by
    rw [List.length_cons] at he
    rw [Option.getD_some]
    omega
  rw [decimal_value hwhole hcs, hexponent]
  rfl

theorem laidOut_layout (d : Decimal) : LaidOut d.value (layout d) := by
  have hdigits : AreDigits (Nat.toDigits 10 d.digits) := areDigits_toDigits _
  have hne : Nat.toDigits 10 d.digits ≠ [] := Nat.toDigits_ne_nil
  have hvalue : d.value =
      Nat.ofDigitChars 10 (Nat.toDigits 10 d.digits) 0 * (10 : ℚ) ^ d.exponent := by
    rw [Nat.ofDigitChars_ten_toDigits]
    rfl
  rw [hvalue]
  unfold layout
  generalize Nat.toDigits 10 d.digits = ds at hdigits hne ⊢
  have hlen : 0 < ds.length := List.length_pos_iff.mpr hne
  dsimp only
  split
  · split
    · next hpoint =>
      exact laidOut_below hdigits hne (by omega)
    · next hpoint =>
      obtain ⟨p, hp⟩ : ∃ p : Nat, (ds.length : Int) + d.exponent = p :=
        ⟨((ds.length : Int) + d.exponent).toNat, by omega⟩
      rw [hp, Int.toNat_natCast]
      by_cases hlt : p < ds.length
      · have hdrop : (ds.drop p).isEmpty = false := by
          rw [List.isEmpty_eq_false_iff, ← List.length_pos_iff, List.length_drop]
          omega
        have hzeros : p - ds.length = 0 := by omega
        rw [hdrop, hzeros]
        simpa using laidOut_within hdigits (by omega) hlt hp
      · have hdrop : ds.drop p = [] := List.drop_eq_nil_of_le (by omega)
        have htake : ds.take p = ds := List.take_of_length_le (by omega)
        have hexponent : d.exponent = ((p - ds.length : Nat) : Int) := by omega
        rw [hdrop, htake, hexponent]
        simpa using laidOut_above hdigits hne (p - ds.length)
  · have hlaid := @laidOut_scientific ds hdigits hne ((ds.length : Int) + d.exponent - 1) d.exponent
      (by omega)
    rw [List.append_assoc]
    obtain ⟨c, cs, rfl⟩ := List.exists_cons_of_ne_nil hne
    cases cs <;> exact hlaid

end Layout

section Texts

variable {m : Nat} {q : Int} {whole places : List Char} {e : Option Int}

theorem ofText?_written (hne : whole ≠ []) (hw : AreDigits whole) (hp : AreDigits places) :
    Binary64.ofText? (String.ofList (written whole places e)) =
      some (Binary64.ofDecimal false (Numeral.decimal ⟨whole, places, e.getD 0⟩)) := by
  have hread := readNumeral?_written (e := e) hne hw hp
  have hfirst : ∀ cs : List Char, ∀ c ∈ cs.head?, c.isDigit = false →
      written whole places e ≠ cs := by
    rintro cs c hc hdigit rfl
    obtain ⟨d, ds, rfl⟩ := List.exists_cons_of_ne_nil hne
    obtain rfl : d = c := by simpa [written] using hc
    rw [hw d (by simp)] at hdigit
    cases hdigit
  unfold Binary64.ofText?
  split
  · next h => exact absurd (String.ofList_injective h) (hfirst _ 'n' rfl rfl)
  · next h => exact absurd (String.ofList_injective h) (hfirst _ 'i' rfl rfl)
  · next h => exact absurd (String.ofList_injective h) (hfirst _ '-' rfl rfl)
  · rw [String.toList_ofList]
    split
    next negative cs heq =>
    split at heq
    · next h => exact absurd h (hfirst _ '-' rfl rfl)
    · cases heq
      rw [hread]
      rfl

/-- The digits that a number is written as, without its sign. -/
def digitsOf (m : Nat) (q : Int) : List Char :=
  if m = 0 then ['0', '.', '0'] else layout (Binary64.shortest m q)

theorem text_finite (negative : Bool) (m : Nat) (q : Int) : (Binary64.finite negative m q).text =
    if negative then "-" ++ String.ofList (digitsOf m q) else String.ofList (digitsOf m q) := by
  cases negative with
  | false => rfl
  | true => exact String.toList_injective (by simp [Binary64.text, digitsOf])

/-- The digits of a number are laid out with a value that is rounded to it. -/
theorem exists_laidOut (h : Binary64.Rounded m q) : ∃ v : ℚ, LaidOut v (digitsOf m q) ∧
    ∀ d : Decimal, d.value = v → Binary64.ofDecimal false d = .finite false m q := by
  by_cases hm : m = 0
  · subst hm
    have hq : q = Binary64.smallestExponent := by
      by_contra hne
      have hlower := h.lower (lt_of_le_of_ne h.smallest (Ne.symm hne))
      omega
    subst hq
    have hzero : AreDigits ['0'] := by decide
    refine ⟨0, ?_, fun d hd => ?_⟩
    · refine @LaidOut.mk _ ['0'] ['0'] none (List.cons_ne_nil _ _) hzero hzero
        (.inl (List.cons_ne_nil _ _)) ?_
      rw [Decimal.value_eq_zero_iff]
      decide
    · rw [Binary64.ofDecimal_eq, if_pos (.inl (Decimal.value_eq_zero_iff.mp hd))]
  · refine ⟨(Binary64.shortest m q).value, ?_, fun d hd => ?_⟩
    · rw [digitsOf, if_neg hm]
      exact laidOut_layout _
    · rw [Binary64.ofDecimal_congr hd, Binary64.ofDecimal_shortest h hm]

/-- A number without a sign is read from its text. -/
theorem number_text (h : Binary64.Rounded m q) :
    Syntax.Literal.number (Binary64.text (.finite false m q)) = .ok (.real (.finite false m q)) := by
  obtain ⟨v, hlaid, hround⟩ := exists_laidOut h
  rw [text_finite, if_neg Bool.false_ne_true]
  generalize digitsOf m q = cs at hlaid
  cases hlaid with
  | @mk whole places e hne hw hp hreal hv =>
    have hmarked : (written whole places e).any (fun c => c = '.' || c = 'e' || c = 'E') = true := by
      rw [List.any_eq_true]
      rcases hreal with hplaces | he
      · exact ⟨'.', by simp [written, placesPart, hplaces], rfl⟩
      · obtain ⟨e, rfl⟩ := Option.ne_none_iff_exists'.mp he
        exact ⟨'e', by simp [written, exponentPart], rfl⟩
    rw [Syntax.Literal.number, String.toList_ofList, if_pos hmarked, ofText?_written hne hw hp,
      hround _ hv]
    rfl

theorem spells_text (h : Binary64.Rounded m q) :
    Lexer.Spells (Binary64.text (.finite false m q)) [.number (Binary64.text (.finite false m q))] := by
  obtain ⟨v, hlaid, -⟩ := exists_laidOut h
  rw [text_finite, if_neg Bool.false_ne_true]
  generalize digitsOf m q = cs at hlaid
  cases hlaid with
  | mk hne hw hp _ _ => exact spells_written hne hw hp

/-- The sign of a number is a token of its own. -/
theorem spells_negative (h : Binary64.Rounded m q) : Lexer.Spells (Binary64.text (.finite true m q))
    [.symbol "-", .number (Binary64.text (.finite false m q))] := by
  have hspells := spells_text h
  obtain ⟨v, hlaid, -⟩ := exists_laidOut h
  have hpositive : (Binary64.finite false m q).text = String.ofList (digitsOf m q) :=
    text_finite false m q
  have hnegative : (Binary64.finite true m q).text = "-" ++ String.ofList (digitsOf m q) :=
    text_finite true m q
  rw [hpositive] at hspells
  rw [hpositive, hnegative]
  generalize digitsOf m q = cs at hlaid hspells
  cases hlaid with
  | @mk whole _ _ hne hw _ _ _ =>
    obtain ⟨c, cs, rfl⟩ := List.exists_cons_of_ne_nil hne
    exact Lexer.spells_minus (String.toList_ofList ..) (hw c (by simp)) hspells

end Texts

end SqlTree.Number
