import SqlTree.Proofs.Grammar.Forms
import SqlTree.Proofs.RoundTrip.Parsing

/-!
Parsers that take exactly what a right side derives. Where a parser stops is told by the terminals
that must not come next; what it yields depends on nothing but the lexemes that it takes, and not on
what stands before the first of them.
-/

namespace SqlTree.Syntax.Parser

open Grammar

/-- None of the terminals is next. -/
def Avoids (A : List Terminal) (o : Option Token) : Prop := ∀ t ∈ o, ∀ c ∈ A, ¬ c.Matches t

section Next

variable {A B : List Terminal} {o : Option Token} {x : Rhs} {ts : List Token}

theorem Avoids.mono (h : Avoids B o) (hAB : A ⊆ B) : Avoids A o :=
  fun t ht c hc => h t ht c (hAB hc)

theorem Avoids.none : Avoids A none := nofun

/-- In front of what `x` derives and what avoids `B`, `A` is avoided. -/
def Fits (x : Rhs) (A B : List Terminal) : Prop :=
  (∀ c ∈ x.first, c ∉ A) ∧ (x.nullable = true → A ⊆ B)

instance : Decidable (Fits x A B) := inferInstanceAs (Decidable (_ ∧ _))

theorem Fits.ahead (h : Fits x A B) (hx : Derives x ts) (ho : Avoids B o) :
    Avoids A (ahead ts o) := by
  cases ts with
  | nil => exact ho.mono (h.2 (hx.nullable rfl))
  | cons t ts =>
    rintro _ ⟨⟩ c hc hmatch
    obtain ⟨d, hd, hmatch'⟩ := hx.first t rfl
    exact h.1 d hd (hmatch'.unique hmatch ▸ hc)

theorem signs_of_word {c : Terminal} (h : c.word? ≠ none) : c.signs = [] := by
  cases c <;> first | rfl | exact absurd rfl h

theorem isKeyword_iff {c : Terminal} {w : String} (hc : c.word? = some w) {t : Token} :
    isKeyword w (some t) = true ↔ c.Matches t := by
  cases t with
  | keyword v text => simp [isKeyword, Terminal.Matches, hc, eq_comm]
  | symbol v => simp [isKeyword, Terminal.Matches, signs_of_word (c := c) (by simp [hc])]
  | _ =>
    refine iff_of_false Bool.false_ne_true ?_
    rintro rfl
    cases hc

theorem isSymbol_iff {c : Terminal} {s : String} (hc : c.signs = [s]) {t : Token} :
    isSymbol s (some t) = true ↔ c.Matches t := by
  have hword : c.word? = none := by
    by_contra h
    rw [signs_of_word h] at hc
    cases hc
  cases t with
  | symbol v => simp [isSymbol, Terminal.Matches, hc]
  | keyword v text => simp [isSymbol, Terminal.Matches, hword]
  | _ =>
    refine iff_of_false Bool.false_ne_true ?_
    rintro rfl
    cases hc

theorem Avoids.isKeyword (h : Avoids A o) {c : Terminal} {w : String} (hc : c.word? = some w)
    (hA : c ∈ A) : isKeyword w o = false := by
  cases o with
  | none => rfl
  | some t => exact Bool.eq_false_iff.mpr fun ht => h t rfl c hA ((isKeyword_iff hc).mp ht)

theorem Avoids.isSymbol (h : Avoids A o) {c : Terminal} {s : String} (hc : c.signs = [s])
    (hA : c ∈ A) : isSymbol s o = false := by
  cases o with
  | none => rfl
  | some t => exact Bool.eq_false_iff.mpr fun ht => h t rfl c hA ((isSymbol_iff hc).mp ht)

end Next

section Lexemes

/-- The same lexemes, but for what stands before the first one. -/
def Alike (ls ls' : List Lexeme) : Prop :=
  ls.map Lexeme.token = ls'.map Lexeme.token ∧ ls.tail = ls'.tail

variable {ls ls' ms : List Lexeme}

theorem Alike.refl (ls : List Lexeme) : Alike ls ls := ⟨rfl, rfl⟩

theorem Alike.nil (h : Alike [] ls) : ls = [] := List.map_eq_nil_iff.mp h.1.symm

theorem Alike.cons {l : Lexeme} (h : Alike (l :: ls) ls') :
    ∃ l', ls' = l' :: ls ∧ l.token = l'.token := by
  obtain ⟨htokens, htail⟩ := h
  cases ls' with
  | nil => cases htokens
  | cons l' ls' =>
    obtain rfl : ls = ls' := htail
    exact ⟨l', rfl, (List.cons.inj htokens).1⟩

theorem Alike.append (h : Alike (ls ++ ms) ls') :
    ∃ us vs, ls' = us ++ vs ∧ Alike ls us ∧ Alike ms vs := by
  cases ls with
  | nil => exact ⟨[], ls', rfl, .refl _, h⟩
  | cons l ls =>
    obtain ⟨l', rfl, hl⟩ := Alike.cons h
    exact ⟨l' :: ls, ms, rfl, ⟨by simp [hl], rfl⟩, .refl _⟩

theorem Alike.length (h : Alike ls ls') : ls.length = ls'.length := by
  simpa using congrArg List.length h.1

theorem Alike.next_append (h : Alike ls ls') (rest : List Lexeme) :
    next (ls' ++ rest) = ahead (ls.map Lexeme.token) (next rest) :=
  Parser.next_append h.1.symm rest

/-- A text does not show what stood before its first token. -/
theorem Alike.span (h : Alike ls ls') : Lexeme.span ls = Lexeme.span ls' := by
  cases ls with
  | nil => rw [h.nil]
  | cons l ls =>
    obtain ⟨l', rfl, hl⟩ := h.cons
    rw [Lexeme.span, Lexeme.span, hl]

end Lexemes

section Accepting

variable {α β : Type} {m b : Nat} {p : Nat → Parser α} {f : α → Nat → Parser β} {a : α}
  {ls ms : List Lexeme} {F F' : List Lexeme → Prop}

/-- With enough fuel the parser takes the lexemes and yields `a`, if `F` holds of what follows. -/
def Accepts (m : Nat) (p : Nat → Parser α) (ls : List Lexeme) (F : List Lexeme → Prop) (a : α) :
    Prop :=
  ∀ n ls' rest, m ≤ n → Alike ls ls' → F rest → p n (ls' ++ rest) = .ok (a, rest)

/-- None of the terminals follows. -/
def Clear (A : List Terminal) (rest : List Lexeme) : Prop := Avoids A (next rest)

theorem Accepts.mono (h : Accepts m p ls F a) (hF : ∀ rest, F' rest → F rest) : Accepts m p ls F' a :=
  fun n ls' rest hn hls hr => h n ls' rest hn hls (hF _ hr)

theorem Accepts.pure : Accepts m (fun _ => pure a) [] F a := by
  intro n ls' rest _ hls _
  rw [hls.nil]
  rfl

theorem Accepts.bind {c : β} (h : Accepts m p ls F a) (hf : Accepts m (f a) ms F' c)
    (hF : ∀ vs rest, Alike ms vs → F' rest → F (vs ++ rest)) :
    Accepts m (fun n => p n >>= fun a => f a n) (ls ++ ms) F' c := by
  intro n ls' rest hn hls hr
  obtain ⟨us, vs, rfl, hus, hvs⟩ := hls.append
  rw [List.append_assoc]
  exact (bind_run (h n us (vs ++ rest) hn hus (hF vs rest hvs hr))).trans (hf n vs rest hn hvs hr)

theorem Accepts.map {g : α → β} (h : Accepts m p ls F a) :
    Accepts m (fun n => do return g (← p n)) ls F (g a) :=
  fun n ls' rest hn hls hr => bind_run (h n ls' rest hn hls hr)

theorem bind_ok {q : Parser α} {g : α → Parser β} {c : β} {rest : List Lexeme}
    (h : (q >>= g) ls = .ok (c, rest)) :
    ∃ a ms, q ls = .ok (a, ms) ∧ g a ms = .ok (c, rest) := by
  change (q ls).bind (fun r => g r.1 r.2) = .ok (c, rest) at h
  cases hq : q ls with
  | error e =>
    rw [hq] at h
    cases h
  | ok r =>
    rw [hq] at h
    exact ⟨r.1, r.2, rfl, h⟩

end Accepting

section Testing

variable {α : Type} {s : Parser Bool} {c : Terminal} {g : Bool → Parser α} {l : Lexeme}
  {ls : List Lexeme}

/-- The parser takes one terminal, if it is next, and tells whether it did. -/
structure Tests (s : Parser Bool) (c : Terminal) : Prop where
  yes : ∀ l ls, c.Matches l.token → s (l :: ls) = .ok (true, ls)
  no : ∀ ls, Avoids [c] (next ls) → s ls = .ok (false, ls)

theorem tests_of_run {test : Option Token → Bool} (hnone : test none = false)
    (htest : ∀ t, test (some t) = true ↔ c.Matches t)
    (hs : ∀ ls, s ls = .ok (test (next ls), if test (next ls) then ls.drop 1 else ls)) :
    Tests s c where
  yes l ls hl := by simp [hs, (htest _).mpr hl]
  no ls hls := by
    have hno : test (next ls) = false := by
      cases ho : next ls with
      | none => exact hnone
      | some t =>
        exact Bool.eq_false_iff.mpr fun ht => hls t ho c List.mem_cons_self ((htest t).mp ht)
    simp [hs, hno]

theorem tests_keyword {w : String} (hc : c.word? = some w) : Tests (takeKeyword w) c :=
  tests_of_run rfl (fun _ => isKeyword_iff hc) (takeKeyword_run w)

theorem tests_symbol {w : String} (hc : c.signs = [w]) : Tests (takeSymbol w) c :=
  tests_of_run rfl (fun _ => isSymbol_iff hc) (takeSymbol_run w)

theorem Tests.run_yes (hs : Tests s c) (hl : c.Matches l.token) : (s >>= g) (l :: ls) = g true ls :=
  bind_run (hs.yes l ls hl)

theorem Tests.run_no (hs : Tests s c) (h : Avoids [c] (next ls)) : (s >>= g) ls = g false ls :=
  bind_run (hs.no ls h)

theorem matches_or_avoids (c : Terminal) (ls : List Lexeme) :
    (∃ l us, ls = l :: us ∧ c.Matches l.token) ∨ Avoids [c] (next ls) := by
  cases ls with
  | nil => exact .inr .none
  | cons l us =>
    by_cases hl : c.Matches l.token
    · exact .inl ⟨l, us, rfl, hl⟩
    · refine .inr ?_
      rintro _ ⟨⟩ d hd
      rwa [List.mem_singleton.mp hd]

theorem Accepts.cons {m : Nat} {f : Bool → Nat → Parser α} {F : List Lexeme → Prop} {a : α}
    (h : Accepts m (f true) ls F a) (hs : Tests s c) (hl : c.Matches l.token) :
    Accepts m (fun n => s >>= fun t => f t n) (l :: ls) F a := by
  intro n ls' rest hn hls hr
  obtain ⟨l', rfl, htoken⟩ := hls.cons
  exact (hs.run_yes (htoken ▸ hl)).trans (h n ls rest hn (.refl _) hr)

theorem Accepts.test {m : Nat} {f : Bool → Nat → Parser α} {F : List Lexeme → Prop} {a : α}
    (h : Accepts m (f false) ls F a) (hs : Tests s c)
    (hno : ∀ ls' rest, Alike ls ls' → F rest → Clear [c] (ls' ++ rest)) :
    Accepts m (fun n => s >>= fun t => f t n) ls F a :=
  fun n ls' rest hn hls hr => (hs.run_no (hno ls' rest hls hr)).trans (h n ls' rest hn hls hr)

/-- A parser of one token. -/
def single {α : Type} (g : Token → Option α) : Parser α := fun ls =>
  ((next ls).bind g).elim (.error ls) fun a => .ok (a, ls.drop 1)

/-- The test tells whether one of the terminals is next. -/
def Spots (test : Option Token → Bool) (cs : List Terminal) : Prop :=
  ∀ o, test o = true ↔ ∃ t ∈ o, ∃ c ∈ cs, c.Matches t

theorem Spots.eq_false {test : Option Token → Bool} {cs : List Terminal} (h : Spots test cs)
    {o : Option Token} (ho : Avoids cs o) : test o = false := by
  refine Bool.eq_false_iff.mpr fun ht => ?_
  obtain ⟨t, ht, c, hc, hmatch⟩ := (h o).mp ht
  exact ho t ht c hc hmatch

theorem spots_keyword {c : Terminal} {w : String} (hc : c.word? = some w) :
    Spots (isKeyword w) [c] := by
  rintro (_ | t)
  · simp [isKeyword]
  · simp [isKeyword_iff hc]

theorem spots_symbol {c : Terminal} {w : String} (hc : c.signs = [w]) : Spots (isSymbol w) [c] := by
  rintro (_ | t)
  · simp [isSymbol]
  · simp [isSymbol_iff hc]

theorem Spots.or {f g : Option Token → Bool} {cs ds : List Terminal} (hf : Spots f cs)
    (hg : Spots g ds) : Spots (fun o => f o || g o) (cs ++ ds) := by
  intro o
  simp only [Bool.or_eq_true, hf o, hg o, List.mem_append, or_and_right, exists_or, and_or_left]

end Testing

/-- With fuel `m` the parser takes what `x` derives, and it takes all of that which is shorter than
`b` if none of the terminals follows. -/
structure Parses {α : Type} (m b : Nat) (p : Nat → Parser α) (x : Rhs) (A : List Terminal) :
    Prop where
  sound : ∀ ls a rest, p m ls = .ok (a, rest) →
    ∃ us, ls = us ++ rest ∧ Derives x (us.map Lexeme.token)
  complete : ∀ ls, ls.length < b → Derives x (ls.map Lexeme.token) →
    ∃ a, Accepts m p ls (Clear A) a

/-- In front of what is derived and what is clear of `B`, `A` is avoided. -/
theorem Fits.clear {x : Rhs} {A B : List Terminal} (h : Fits x A B) {ls ls' rest : List Lexeme}
    (hx : Derives x (ls.map Lexeme.token)) (hls : Alike ls ls') (hr : Clear B rest) :
    Clear A (ls' ++ rest) := by
  rw [Clear, hls.next_append]
  exact h.ahead hx hr

namespace Parses

variable {α β γ : Type} {m b b' : Nat} {p : Nat → Parser α} {q : Nat → Parser β}
  {f : α → Nat → Parser β} {x y z : Rhs} {A B : List Terminal} {c : Terminal} {w : String}

theorem shorter (h : Parses m b p x A) (hb : b' ≤ b) : Parses m b' p x A :=
  ⟨h.sound, fun ls hls => h.complete ls (Nat.lt_of_lt_of_le hls hb)⟩

theorem before (h : Parses m b p x A) (hAB : A ⊆ B) : Parses m b p x B :=
  ⟨h.sound, fun ls hls hx =>
    let ⟨a, ha⟩ := h.complete ls hls hx
    ⟨a, ha.mono fun _ hr => hr.mono hAB⟩⟩

theorem congr {p' : Nat → Parser α} (h : Parses m b p x A) (hp : ∀ n, p' n = p n) :
    Parses m b p' x A := by
  obtain rfl : p' = p := funext hp
  exact h

theorem of_lang (h : Parses m b p x A) (hxy : lang x = lang y) : Parses m b p y A where
  sound ls a rest hp := by
    obtain ⟨us, rfl, hus⟩ := h.sound ls a rest hp
    exact ⟨us, rfl, hxy.le hus⟩
  complete ls hls hy := h.complete ls hls (hxy.ge hy)

theorem rule {r : Rule} (h : Parses m b p (rhs r) A) : Parses m b p (.rule r) A :=
  h.of_lang (lang_rule r).symm

theorem pure {a : α} : Parses m b (fun _ => pure a) .empty A where
  sound ls c rest hp := by
    cases hp
    exact ⟨[], rfl, .empty⟩
  complete ls _ hx := by
    generalize hts : ls.map Lexeme.token = ts at hx
    cases hx
    rw [List.map_eq_nil_iff.mp hts]
    exact ⟨a, .pure⟩

theorem unexpected : Parses m b (fun _ => (unexpected : Parser α)) .void A where
  sound ls a rest hp := by cases hp
  complete ls _ hx := by
    generalize ls.map Lexeme.token = ts at hx
    cases hx

theorem seq (h : Parses m b p x A) (hf : ∀ a, Parses m b (f a) y B) (hfit : Fits y A B) :
    Parses m b (fun n => p n >>= fun a => f a n) (.seq x y) B where
  sound ls c rest hp := by
    obtain ⟨a, ms, ha, hc⟩ := bind_ok hp
    obtain ⟨us, rfl, hus⟩ := h.sound ls a ms ha
    obtain ⟨vs, rfl, hvs⟩ := (hf a).sound ms c rest hc
    exact ⟨us ++ vs, by simp, by simpa using Derives.seq hus hvs⟩
  complete ls hls hxy := by
    generalize hts : ls.map Lexeme.token = ts at hxy
    cases hxy with
    | seq hx hy =>
      obtain ⟨us, vs, rfl, rfl, rfl⟩ := List.map_eq_append_iff.mp hts
      rw [List.length_append] at hls
      obtain ⟨a, ha⟩ := h.complete us (by omega) hx
      obtain ⟨d, hd⟩ := (hf a).complete vs (by omega) hy
      exact ⟨d, ha.bind hd fun vs rest hvs hr => hfit.clear hy hvs hr⟩

theorem map {g : α → β} (h : Parses m b p x A) :
    Parses m b (fun n => do return g (← p n)) x A :=
  (h.seq (fun _ => .pure) ⟨nofun, fun _ => List.Subset.refl A⟩).of_lang (by simp)

section Tokens

theorem single {g : Token → Option α} (hx : ∀ ts, Derives x ts ↔ ∃ t, ts = [t] ∧ (g t).isSome) :
    Parses m b (fun _ => single g) x A where
  sound ls a rest hp := by
    rw [Parser.single] at hp
    cases ls with
    | nil => cases hp
    | cons l ls =>
      rw [next_cons, Option.bind_some] at hp
      cases hg : g l.token with
      | none =>
        rw [hg] at hp
        cases hp
      | some a' =>
        rw [hg] at hp
        cases hp
        exact ⟨[l], rfl, (hx _).mpr ⟨l.token, rfl, by simp [hg]⟩⟩
  complete ls _ hls := by
    obtain ⟨t, hts, ht⟩ := (hx _).mp hls
    obtain ⟨l, rfl, rfl⟩ := List.map_eq_singleton_iff.mp hts
    obtain ⟨a, ha⟩ := Option.isSome_iff_exists.mp ht
    refine ⟨a, fun n ls' rest _ hls _ => ?_⟩
    obtain ⟨l', rfl, hl⟩ := hls.cons
    simp [Parser.single, ← hl, ha]

theorem derives_token_iff {ts : List Token} :
    Derives (.token c) ts ↔ ∃ t, ts = [t] ∧ c.Matches t := by
  constructor
  · intro h
    cases h with
    | token ht => exact ⟨_, rfl, ht⟩
  · rintro ⟨t, rfl, ht⟩
    exact .token ht

theorem single_of {g : Token → Option α} (hg : ∀ t, (g t).isSome ↔ c.Matches t) :
    Parses m b (fun _ => Parser.single g) (.token c) A :=
  single fun ts => by simp only [hg, derives_token_iff]

theorem cons_of_token {ls : List Lexeme} (h : Derives (.seq (.token c) x) (ls.map Lexeme.token)) :
    ∃ l us, ls = l :: us ∧ c.Matches l.token ∧ Derives x (us.map Lexeme.token) := by
  generalize hts : ls.map Lexeme.token = ts at h
  cases h with
  | seq hc hx =>
    cases hc with
    | token hc =>
      obtain ⟨l, us, rfl, rfl, rfl⟩ := List.map_eq_cons_iff.mp hts
      exact ⟨l, us, rfl, hc, hx⟩

/-- A token decides between two ways to go on. What may start with it without being meant is gone on
with as well. -/
theorem branch_of {s : Parser Bool} (hb : b ≤ b' + 1) (hs : Tests s c) {f : Bool → Nat → Parser α}
    (hyes : Parses m b' (f true) y B) (hno : Parses m b (f false) z B)
    (hstart : ∀ t ts, c.Matches t → Derives z (t :: ts) → Derives y ts)
    (hnil : z.nullable = true → c ∈ B) :
    Parses m b (fun n => s >>= fun t => f t n) (.alt (.seq (.token c) y) z) B where
  sound ls a rest hp := by
    rcases matches_or_avoids c ls with ⟨l, us, rfl, hl⟩ | hnext
    · rw [hs.run_yes hl] at hp
      obtain ⟨us, rfl, hus⟩ := hyes.sound _ a rest hp
      exact ⟨l :: us, rfl, .left (.seq (.token hl) hus)⟩
    · rw [hs.run_no hnext] at hp
      obtain ⟨us, rfl, hus⟩ := hno.sound _ a rest hp
      exact ⟨us, rfl, .right hus⟩
  complete ls hls hx := by
    have taken (l : Lexeme) (us : List Lexeme) (hls : (l :: us).length < b)
        (hl : c.Matches l.token) (hus : Derives y (us.map Lexeme.token)) :
        ∃ a, Accepts m (fun n => s >>= fun t => f t n) (l :: us) (Clear B) a := by
      rw [List.length_cons] at hls
      obtain ⟨a, ha⟩ := hyes.complete us (by omega) hus
      exact ⟨a, ha.cons hs hl⟩
    generalize hts : ls.map Lexeme.token = ts at hx
    cases hx with
    | left hx =>
      subst hts
      obtain ⟨l, us, rfl, hl, hus⟩ := cons_of_token hx
      exact taken l us hls hl hus
    | right hx =>
      subst hts
      cases ls with
      | nil =>
        obtain ⟨a, ha⟩ := hno.complete [] hls hx
        refine ⟨a, ha.test hs fun ls' rest hls hr => ?_⟩
        rw [hls.nil]
        exact hr.mono (by simpa using hnil (hx.nullable rfl))
      | cons l us =>
        by_cases hl : c.Matches l.token
        · exact taken l us hls hl (hstart _ _ hl hx)
        · obtain ⟨a, ha⟩ := hno.complete (l :: us) hls hx
          refine ⟨a, ha.test hs fun ls' rest hls hr => ?_⟩
          obtain ⟨l', rfl, hl'⟩ := hls.cons
          rintro _ ⟨⟩ d hd
          rwa [List.mem_singleton.mp hd, ← hl']

theorem branch {s : Parser Bool} (hb : b ≤ b' + 1) (hs : Tests s c) {f : Bool → Nat → Parser α}
    (hyes : Parses m b' (f true) y B) (hno : Parses m b (f false) z B) (hfit : Fits z [c] B) :
    Parses m b (fun n => s >>= fun t => f t n) (.alt (.seq (.token c) y) z) B :=
  branch_of hb hs hyes hno
    (fun _ _ hc hz => absurd List.mem_cons_self (hfit.1 c (hz.mem_first hc)))
    fun hnil => hfit.2 hnil List.mem_cons_self

theorem ifWord {P Q : Nat → Parser α} (hb : b ≤ b' + 1) (hc : c.word? = some w)
    (hyes : Parses m b' P y B) (hno : Parses m b Q z B) (hfit : Fits z [c] B) :
    Parses m b (fun n => do if ← takeKeyword w then P n else Q n) (.alt (.seq (.token c) y) z) B :=
  branch (f := fun t n => if t = true then P n else Q n) hb (tests_keyword hc) hyes hno hfit

theorem unlessWord {P Q : Nat → Parser α} (hb : b ≤ b' + 1) (hc : c.word? = some w)
    (hyes : Parses m b' P y B) (hno : Parses m b Q z B) (hfit : Fits z [c] B) :
    Parses m b (fun n => do if !(← takeKeyword w) then Q n else P n)
      (.alt (.seq (.token c) y) z) B :=
  branch (f := fun t n => if (!t) = true then Q n else P n) hb (tests_keyword hc) hyes hno hfit

theorem ifSign {P Q : Nat → Parser α} (hb : b ≤ b' + 1) (hc : c.signs = [w])
    (hyes : Parses m b' P y B) (hno : Parses m b Q z B) (hfit : Fits z [c] B) :
    Parses m b (fun n => do if ← takeSymbol w then P n else Q n) (.alt (.seq (.token c) y) z) B :=
  branch (f := fun t n => if t = true then P n else Q n) hb (tests_symbol hc) hyes hno hfit

theorem alt_void (h : Parses m b p (.alt x .void) A) : Parses m b p x A := h.of_lang (by simp)

theorem keyword {P : Nat → Parser α} (hb : b ≤ b' + 1) (hc : c.word? = some w)
    (h : Parses m b' P y B) :
    Parses m b (fun n => do
      keyword w
      P n) (.seq (.token c) y) B := by
  have hbranch := branch
    (f := fun t n => (if !t then Parser.unexpected else Pure.pure ()) >>= fun _ => P n) hb
    (tests_keyword hc) h
    (unexpected : Parses m b (fun _ => (Parser.unexpected : Parser α)) .void B) ⟨nofun, nofun⟩
  exact (alt_void hbranch).congr fun n => by rw [Parser.keyword, bind_assoc]

theorem symbol {P : Nat → Parser α} (hb : b ≤ b' + 1) (hc : c.signs = [w])
    (h : Parses m b' P y B) :
    Parses m b (fun n => do
      symbol w
      P n) (.seq (.token c) y) B := by
  have hbranch := branch
    (f := fun t n => (if !t then Parser.unexpected else Pure.pure ()) >>= fun _ => P n) hb
    (tests_symbol hc) h
    (unexpected : Parses m b (fun _ => (Parser.unexpected : Parser α)) .void B) ⟨nofun, nofun⟩
  exact (alt_void hbranch).congr fun n => by rw [Parser.symbol, bind_assoc]

theorem lastKeyword (hc : c.word? = some w) :
    Parses m b (fun _ => Parser.keyword w) (.token c) A := by
  have h := keyword (P := fun _ => (Pure.pure () : Parser Unit)) (Nat.le_succ b) hc
    (.pure : Parses m b _ .empty A)
  exact (h.of_lang (by simp)).congr fun n => (bind_pure _).symm

/-- A keyword that may be missing and decides nothing. -/
theorem maybeKeyword {f : Bool → Nat → Parser α} (hc : c.word? = some w)
    (hf : ∀ t, Parses m b (f t) y B) (hfit : Fits y [c] B) :
    Parses m b (fun n => do f (← takeKeyword w) n) (.seq (.opt (.token c)) y) B :=
  (branch (Nat.le_succ b) (tests_keyword hc) (hf true)
    (hf false) hfit).of_lang (by simp [add_mul])

theorem optional (hb : b ≤ b' + 1) (hc : c.word? = some w) (h : Parses m b' p y A) (hA : c ∈ A) :
    Parses m b (fun n => optional w (p n)) (.opt (.seq (.token c) y)) A :=
  ifWord hb hc h.map .pure ⟨nofun, fun _ => by simpa using hA⟩

/-- The next token decides between two ways to go on, and is left to them. -/
theorem ifNext_of {f : Option Token → Bool} {cs : List Terminal} {P Q : Nat → Parser α}
    (hf : Spots f cs) (hyes : Parses m b P y B) (hno : Parses m b Q z B)
    (hy : y.nullable = false) (hcs : y.first ⊆ cs)
    (hstart : ∀ c ∈ cs, ∀ t ts, c.Matches t → Derives z (t :: ts) → Derives y (t :: ts))
    (hnil : z.nullable = true → cs ⊆ B) :
    Parses m b (fun n => do if f (← peek) then P n else Q n) (.alt y z) B where
  sound ls a rest hp := by
    change (if f (next ls) = true then P m else Q m) ls = _ at hp
    split at hp
    · obtain ⟨us, rfl, hus⟩ := hyes.sound _ a rest hp
      exact ⟨us, rfl, .left hus⟩
    · obtain ⟨us, rfl, hus⟩ := hno.sound _ a rest hp
      exact ⟨us, rfl, .right hus⟩
  complete ls hls hx := by
    have taken (hx : Derives y (ls.map Lexeme.token)) : ∃ a, Accepts m
        (fun n => do if f (← peek) then P n else Q n) ls (Clear B) a := by
      obtain ⟨a, ha⟩ := hyes.complete ls hls hx
      refine ⟨a, fun n ls' rest hn hls hr => ?_⟩
      have hnext : f (next (ls' ++ rest)) = true := by
        rw [hf, hls.next_append]
        cases ls with
        | nil => exact absurd (hx.nullable rfl) (by simp [hy])
        | cons l ls =>
          obtain ⟨c, hc, hmatch⟩ := hx.first l.token rfl
          exact ⟨l.token, rfl, c, hcs hc, hmatch⟩
      change (if f (next (ls' ++ rest)) = true then P n else Q n) (ls' ++ rest) = _
      rw [if_pos hnext]
      exact ha n ls' rest hn hls hr
    generalize hts : ls.map Lexeme.token = ts at hx
    cases hx with
    | left hx => exact taken (hts ▸ hx)
    | right hx =>
      subst hts
      by_cases hnext : f (next ls) = true
      · obtain ⟨t, ht, c, hc, hmatch⟩ := (hf _).mp hnext
        cases ls with
        | nil => cases ht
        | cons l us =>
          cases ht
          exact taken (hstart c hc _ _ hmatch hx)
      · obtain ⟨a, ha⟩ := hno.complete ls hls hx
        refine ⟨a, fun n ls' rest hn hls hr => ?_⟩
        have hnext' : f (next (ls' ++ rest)) = false := by
          cases ls with
          | nil =>
            rw [hls.nil]
            exact hf.eq_false (hr.mono (hnil (hx.nullable rfl)))
          | cons l us =>
            obtain ⟨l', rfl, hl⟩ := hls.cons
            simpa [hl] using hnext
        change (if f (next (ls' ++ rest)) = true then P n else Q n) (ls' ++ rest) = _
        rw [hnext']
        exact ha n ls' rest hn hls hr

theorem ifNext {f : Option Token → Bool} {cs : List Terminal} {P Q : Nat → Parser α}
    (hf : Spots f cs) (hyes : Parses m b P y B) (hno : Parses m b Q z B)
    (hy : y.nullable = false) (hcs : y.first ⊆ cs) (hfit : Fits z cs B) :
    Parses m b (fun n => do if f (← peek) then P n else Q n) (.alt y z) B :=
  ifNext_of hf hyes hno hy hcs (fun c hc _ _ hmatch hz => absurd hc (hfit.1 c (hz.mem_first hmatch)))
    hfit.2

end Tokens

section Sequences

theorem last (h : Parses m b p x A) : Parses m b p (.seq x .empty) A := h.of_lang (by simp)

theorem parens (hb : b ≤ b' + 1) (h : Parses m b' p x A) (hA : .RPAR ∉ A) :
    Parses m b (fun n => parens (p n)) (.seqs [.token .LPAR, x, .token .RPAR]) B :=
  symbol hb rfl <| h.seq (fun _ => symbol (Nat.le_succ b') rfl .pure)
    ⟨by simpa [Rhs.first, Rhs.nullable] using hA, nofun⟩

theorem spanned_ok {q : Parser α} {ls rest : List Lexeme} {a : α} (hq : q ls = .ok (a, rest)) :
    Parser.spanned q ls =
      .ok ((a, Lexeme.span (ls.take (ls.length - rest.length))), rest) := by
  simp only [Parser.spanned, hq]

/-- The text does not tell what stood before its first token. -/
theorem spanned (h : Parses m b p x A) : Parses m b (fun n => Parser.spanned (p n)) x A where
  sound ls r rest hp := by
    cases hq : p m ls with
    | error e =>
      simp only [Parser.spanned, hq] at hp
      cases hp
    | ok s =>
      rw [spanned_ok hq] at hp
      cases hp
      exact h.sound _ _ _ hq
  complete ls hls hx := by
    obtain ⟨a, ha⟩ := h.complete ls hls hx
    refine ⟨(a, Lexeme.span ls), fun n ls' rest hn hls hr => ?_⟩
    refine (spanned_ok (ha n ls' rest hn hls hr)).trans ?_
    simp [hls.span]

end Sequences

section Repetition

variable {F G : List Lexeme → Prop}

/-- A step that takes what `x` derives, if `F` holds of what follows, or yields nothing. -/
structure Step {α : Type} (m b : Nat) (p : Nat → Parser (Option α)) (x : Rhs)
    (F : List Lexeme → Prop) : Prop where
  sound : ∀ ls o rest, p m ls = .ok (o, rest) → (o = none ∧ rest = ls) ∨
    ∃ a us, o = some a ∧ ls = us ++ rest ∧ Derives x (us.map Lexeme.token)
  complete : ∀ ls, ls.length < b → Derives x (ls.map Lexeme.token) →
    ∃ a, Accepts m p ls F (some a)

variable {step : α → Nat → Parser (Option α)}

theorem iterateOver_sound (h : ∀ a, Step m b (step a) x F) {fuel : List Lexeme} {a a' : α}
    {ls rest : List Lexeme} (hrun : iterateOver (fun a => step a m) fuel a ls = .ok (a', rest)) :
    ∃ us, ls = us ++ rest ∧ Derives (.star x) (us.map Lexeme.token) := by
  induction fuel generalizing a ls with
  | nil =>
    cases hrun
    exact ⟨[], rfl, .stop⟩
  | cons l fuel ih =>
    obtain ⟨o, ms, ho, hrest⟩ := bind_ok hrun
    rcases (h a).sound ls o ms ho with ⟨rfl, rfl⟩ | ⟨a'', us, rfl, rfl, hus⟩
    · cases hrest
      exact ⟨[], rfl, .stop⟩
    · obtain ⟨vs, rfl, hvs⟩ := ih hrest
      exact ⟨us ++ vs, by simp, by simpa using Derives.more hus hvs⟩

/-- Steps are made as long as there is something to take. -/
theorem exists_iterateOver (h : ∀ a, Step m b (step a) x F) (hx : x.nullable = false)
    (hstop : ∀ a n ls, m ≤ n → G ls → step a n ls = .ok (none, ls))
    (hfollow : ∀ vs rest, Derives (.star x) (vs.map Lexeme.token) → G rest → F (vs ++ rest))
    {us : List Lexeme} (hus : us.length < b) {tss : List (List Token)}
    (htss : us.map Lexeme.token = tss.flatten) (hall : ∀ ts ∈ tss, Derives x ts) (a : α) :
    ∃ a', ∀ n fuel us' rest, m ≤ n → us.length ≤ fuel.length → Alike us us' → G rest →
      iterateOver (fun a => step a n) fuel a (us' ++ rest) = .ok (a', rest) := by
  induction tss generalizing us a with
  | nil =>
    obtain rfl := List.map_eq_nil_iff.mp htss
    refine ⟨a, fun n fuel us' rest hn _ hls hr => ?_⟩
    rw [hls.nil]
    cases fuel with
    | nil => rfl
    | cons l fuel => exact bind_run (hstop a n rest hn hr)
  | cons ts tss ih =>
    rw [List.flatten_cons] at htss
    obtain ⟨us, vs, rfl, rfl, hvs⟩ := List.map_eq_append_iff.mp htss
    have hts := hall _ List.mem_cons_self
    have hrest : ∀ ts ∈ tss, Derives x ts := fun ts hts => hall ts (by simp [hts])
    have hpos : 0 < us.length := by
      rw [List.length_pos_iff]
      rintro rfl
      rw [hts.nullable rfl] at hx
      cases hx
    rw [List.length_append] at hus
    obtain ⟨a₁, ha₁⟩ := (h a).complete us (by omega) hts
    obtain ⟨a', ha'⟩ := ih (by omega : vs.length < b) hvs hrest a₁
    refine ⟨a', fun n fuel us' rest hn hfuel hls hr => ?_⟩
    rw [List.length_append] at hfuel
    obtain ⟨us', vs', rfl, hus', hvs'⟩ := hls.append
    have hstar : vs'.map Lexeme.token ∈ lang (.star x) := by
      rw [lang_star, Language.mem_kstar]
      exact ⟨tss, hvs'.1.symm.trans hvs, hrest⟩
    cases fuel with
    | nil =>
      rw [List.length_nil] at hfuel
      omega
    | cons l fuel =>
      rw [List.append_assoc]
      refine (bind_run (ha₁ n us' (vs' ++ rest) hn hus' (hfollow vs' rest hstar hr))).trans ?_
      refine ha' n fuel vs' rest hn ?_ hvs' hr
      rw [List.length_cons] at hfuel
      omega

theorem exists_iterate (h : ∀ a, Step m b (step a) x F) (hx : x.nullable = false)
    (hstop : ∀ a n ls, m ≤ n → G ls → step a n ls = .ok (none, ls))
    (hfollow : ∀ vs rest, Derives (.star x) (vs.map Lexeme.token) → G rest → F (vs ++ rest))
    {ls : List Lexeme} (hls : ls.length < b) (hstar : Derives (.star x) (ls.map Lexeme.token))
    (a : α) : ∃ a', Accepts m (fun n => iterate (fun a => step a n) a) ls G a' := by
  have hmem : ls.map Lexeme.token ∈ lang (.star x) := hstar
  rw [lang_star, Language.mem_kstar] at hmem
  obtain ⟨tss, htss, hall⟩ := hmem
  obtain ⟨a', ha'⟩ := exists_iterateOver h hx hstop hfollow hls htss hall a
  refine ⟨a', fun n ls' rest hn hls hr => ha' n _ ls' rest hn ?_ hls hr⟩
  rw [hls.length, List.length_append]
  omega

/-- Nothing is taken in front of what `x` does not start with. -/
def Stops {α : Type} (m : Nat) (p : Nat → Parser (Option α)) (x : Rhs) : Prop :=
  ∀ n ls, m ≤ n → Clear x.first ls → p n ls = .ok (none, ls)

theorem iterate (h : ∀ a, Step m b (step a) x (Clear A)) (hstop : ∀ a, Stops m (step a) x)
    (hx : x.nullable = false) (hfit : Fits (.star x) A B) (hB : x.first ⊆ B) (a : α) :
    Parses m b (fun n => iterate (fun a => step a n) a) (.star x) B where
  sound ls a' rest hrun := iterateOver_sound h hrun
  complete ls hls hstar := by
    refine exists_iterate h hx (fun a n ls hn hr => hstop a n ls hn (hr.mono hB)) ?_ hls hstar a
    exact fun vs rest hvs hr => hfit.clear hvs (.refl vs) hr

/-- Whatever the parser yields is something. -/
def Certain {α : Type} (p : Parser (Option α)) : Prop :=
  ∀ ls o rest, p ls = .ok (o, rest) → o.isSome

theorem Certain.some {a : α} : Certain (Pure.pure (Option.some a)) := by
  rintro ls o rest ⟨⟩
  rfl

theorem Certain.bind {q : Parser β} {g : β → Parser (Option α)} (h : ∀ r, Certain (g r)) :
    Certain (q >>= g) := by
  intro ls o rest hq
  obtain ⟨r, ms, -, hg⟩ := bind_ok hq
  exact h r ms o rest hg

/-- A step, and where it takes nothing. -/
structure Try {α : Type} (m b : Nat) (p : Nat → Parser (Option α)) (x : Rhs)
    (F : List Lexeme → Prop) : Prop extends Step m b p x F where
  stop : Stops m p x

namespace Try

variable {P Q : Nat → Parser (Option α)}

theorem none : Try m b (fun _ => (Pure.pure Option.none : Parser (Option α))) .void F where
  sound ls o rest hp := by
    cases hp
    exact .inl ⟨rfl, rfl⟩
  complete ls _ hx := by
    generalize ls.map Lexeme.token = ts at hx
    cases hx
  stop _ _ _ _ := rfl

theorem congr (h : Try m b P x F) (hp : ∀ n, Q n = P n) : Try m b Q x F := by
  obtain rfl : Q = P := funext hp
  exact h

theorem of_lang (h : Try m b P x F) (hxy : lang x = lang y) (hfirst : x.first ⊆ y.first) :
    Try m b P y F where
  sound ls o rest hp := by
    rcases h.sound ls o rest hp with hnone | ⟨a, us, ho, hls, hus⟩
    · exact .inl hnone
    · exact .inr ⟨a, us, ho, hls, hxy.le hus⟩
  complete ls hls hy := h.complete ls hls (hxy.ge hy)
  stop n ls hn hnext := h.stop n ls hn (hnext.mono hfirst)

/-- A parser that always yields something is tried where its terminal is next. -/
theorem branch {s : Parser Bool} (hb : b ≤ b' + 1) (hs : Tests s c)
    (hyes : ∀ ls a rest, P m ls = .ok (a, rest) →
      ∃ r us, a = some r ∧ ls = us ++ rest ∧ Derives y (us.map Lexeme.token))
    (hall : ∀ ls, ls.length < b' → Derives y (ls.map Lexeme.token) → ∃ a, Accepts m P ls F (some a))
    (hno : Try m b Q z F) (hfit : Fits z [c] []) :
    Try m b (fun n => s >>= fun t => if t = true then P n else Q n)
      (.alt (.seq (.token c) y) z) F where
  sound ls o rest hp := by
    rcases matches_or_avoids c ls with ⟨l, us, rfl, hl⟩ | hnext
    · rw [hs.run_yes hl] at hp
      obtain ⟨a, us, rfl, rfl, hus⟩ := hyes _ o rest hp
      exact .inr ⟨a, l :: us, rfl, rfl, .left (.seq (.token hl) hus)⟩
    · rw [hs.run_no hnext] at hp
      rcases hno.sound ls o rest hp with hnone | ⟨a, us, ho, hls, hus⟩
      · exact .inl hnone
      · exact .inr ⟨a, us, ho, hls, .right hus⟩
  complete ls hls hx := by
    generalize hts : ls.map Lexeme.token = ts at hx
    cases hx with
    | left hx =>
      subst hts
      obtain ⟨l, us, rfl, hl, hus⟩ := cons_of_token hx
      rw [List.length_cons] at hls
      obtain ⟨a, ha⟩ := hall us (by omega) hus
      exact ⟨a, ha.cons (f := fun t n => if t = true then P n else Q n) hs hl⟩
    | right hx =>
      subst hts
      obtain ⟨a, ha⟩ := hno.complete ls hls hx
      refine ⟨a, ha.test (f := fun t n => if t = true then P n else Q n) hs ?_⟩
      exact fun ls' rest hls hr => hfit.clear (B := []) hx hls nofun
  stop n ls hn hnext := by
    have hc : Clear [c] ls := hnext.mono (by simp [Rhs.first])
    exact (hs.run_no hc).trans (hno.stop n ls hn (hnext.mono (by simp [Rhs.first])))

theorem certain (h : Parses m b P y A) (hsome : Certain (P m)) :
    (∀ ls a rest, P m ls = .ok (a, rest) →
      ∃ r us, a = some r ∧ ls = us ++ rest ∧ Derives y (us.map Lexeme.token)) ∧
    ∀ ls, ls.length < b → Derives y (ls.map Lexeme.token) →
      ∃ a, Accepts m P ls (Clear A) (some a) := by
  constructor
  · intro ls o rest hp
    obtain ⟨us, rfl, hus⟩ := h.sound ls o rest hp
    obtain ⟨a, rfl⟩ := Option.isSome_iff_exists.mp (hsome _ _ _ hp)
    exact ⟨a, us, rfl, rfl, hus⟩
  · intro ls hls hy
    obtain ⟨o, ho⟩ := h.complete ls hls hy
    have hrun := ho m ls [] (Nat.le_refl m) (.refl ls) .none
    obtain ⟨a, rfl⟩ := Option.isSome_iff_exists.mp (hsome _ _ _ hrun)
    exact ⟨a, ho⟩

theorem ifWord (hb : b ≤ b' + 1) (hc : c.word? = some w) (hyes : Parses m b' P y A)
    (hsome : Certain (P m)) (hno : Try m b Q z (Clear A)) (hfit : Fits z [c] []) :
    Try m b (fun n => do if ← takeKeyword w then P n else Q n) (.alt (.seq (.token c) y) z)
      (Clear A) :=
  branch hb (tests_keyword hc) (certain hyes hsome).1 (certain hyes hsome).2 hno hfit

theorem ifSign (hb : b ≤ b' + 1) (hc : c.signs = [w]) (hyes : Parses m b' P y A)
    (hsome : Certain (P m)) (hno : Try m b Q z (Clear A)) (hfit : Fits z [c] []) :
    Try m b (fun n => do if ← takeSymbol w then P n else Q n) (.alt (.seq (.token c) y) z)
      (Clear A) :=
  branch hb (tests_symbol hc) (certain hyes hsome).1 (certain hyes hsome).2 hno hfit

end Try

theorem repeated (h : ∀ a, Try m b (step a) x (Clear A)) (hx : x.nullable = false)
    (hfit : Fits (.star x) A B) (hB : x.first ⊆ B) (a : α) :
    Parses m b (fun n => Parser.iterate (fun a => step a n) a) (.star x) B :=
  iterate (fun a => (h a).toStep) (fun a => (h a).stop) hx hfit hB a

theorem more (hc : c.signs = [w]) (h : Parses m b p x A) (hA : c ∉ A) (hB : c :: A ⊆ B)
    (first : List α) :
    Parses m b (fun n => more w (p n) first) (.star (.seqs [.token c, x])) B := by
  obtain ⟨hcB, hAB⟩ := List.cons_subset.mp hB
  refine repeated (A := A) (fun done => ?_) rfl ⟨?_, fun _ => hAB⟩ ?_ first
  · refine (Try.ifSign (Nat.le_succ b) hc ((h.map (g := fun a => some (done ++ [a])))) ?_ .none
      ⟨nofun, nofun⟩).of_lang (by simp) ?_
    · exact .bind fun _ => .some
    · simp [Rhs.seqs, Rhs.first, Rhs.nullable]
  · simpa [Rhs.seqs, Rhs.first, Rhs.nullable] using hA
  · simpa [Rhs.seqs, Rhs.first, Rhs.nullable] using hcB

theorem commas (h : Parses m b p x A) (hA : .COMMA ∉ A) (hB : .COMMA :: A ⊆ B) :
    Parses m b (fun n => commas (p n)) (.list x) B := by
  refine (h.seq (fun a => more rfl h hA hB [a]) ⟨?_, fun _ => (List.cons_subset.mp hB).2⟩).of_lang ?_
  · simpa [Rhs.seqs, Rhs.first, Rhs.nullable] using hA
  · simp [Rhs.list]

end Repetition

end Parses

end SqlTree.Syntax.Parser
