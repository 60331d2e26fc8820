import SqlTree.Syntax.Text

/-!
What parsers yield. The tokens that are left are followed as well, so that what holds of every
token of a text reaches the trees.
-/

namespace SqlTree.Syntax

/-- A type in front of a literal is one word, and no keyword but `time`. -/
def isLiteralType (type : String) : Bool :=
  (type = "time" || !Token.keywords.contains type) && !type.toList.contains '-'

namespace Parser

/-- The tokens that the lexer makes, of a text in which the test holds of all numerals. -/
structure Sound (N : String → Bool) (t : Token) : Prop where
  operator : ∀ sign, t = .operator sign → sign ∈ Lexer.operators
  number : ∀ digits, t = .number digits → N digits
  typeWord : ∀ word, typeWord? t = some word → isLiteralType (Text.lower word) = true

def AllSound (N : String → Bool) (ls : List Lexeme) : Prop := ∀ l ∈ ls, Sound N l.token

/-- On sound tokens the parser yields what `P` holds of, and leaves sound tokens. -/
def Yields {α : Type} (N : String → Bool) (p : Parser α) (P : α → Prop) : Prop :=
  ∀ ls a rest, AllSound N ls → p ls = .ok (a, rest) → P a ∧ AllSound N rest

/-- Whatever the parser yields. -/
abbrev Passes {α : Type} (N : String → Bool) (p : Parser α) : Prop := Yields N p fun _ => True

variable {N : String → Bool}

variable {α β : Type} {p q : Parser α} {P Q : α → Prop} {R : β → Prop}

namespace Yields

theorem mono (h : Yields N p P) (hPQ : ∀ a, P a → Q a) : Yields N p Q := fun ls a rest hls ha =>
  let ⟨hP, hrest⟩ := h ls a rest hls ha
  ⟨hPQ a hP, hrest⟩

theorem passes (h : Yields N p P) : Passes N p := h.mono fun _ _ => trivial

theorem and (hP : Yields N p P) (hQ : Yields N p Q) : Yields N p fun a => P a ∧ Q a :=
  fun ls a rest hls ha => ⟨⟨(hP ls a rest hls ha).1, (hQ ls a rest hls ha).1⟩, (hP ls a rest hls ha).2⟩

theorem pure {a : α} (h : P a) : Yields N (pure a) P := by
  rintro ls b rest hls ⟨⟩
  exact ⟨h, hls⟩

theorem pureSome {a : α} (h : P a) : Yields N (Pure.pure (some a)) fun o => ∀ b ∈ o, P b :=
  pure fun _ hb => Option.mem_some.mp hb ▸ h

theorem pureMore {done : List α} {a : α} (hdone : ∀ a ∈ done, P a) (h : P a) :
    Yields N (Pure.pure (some (done ++ [a]))) fun o => ∀ as ∈ o, ∀ a ∈ as, P a :=
  pureSome (List.forall_mem_append.mpr ⟨hdone, by simpa using h⟩)

theorem bind {f : α → Parser β} (h : Yields N p P) (hf : ∀ a, P a → Yields N (f a) R) :
    Yields N (p >>= f) R := by
  intro ls b rest hls hb
  change (p ls).bind (fun r => f r.1 r.2) = .ok (b, rest) at hb
  cases hp : p ls with
  | error e =>
    rw [hp] at hb
    cases hb
  | ok r =>
    rw [hp] at hb
    obtain ⟨ha, hrest⟩ := h ls r.1 r.2 hls hp
    exact hf r.1 ha r.2 b rest hrest hb

/-- Whatever is yielded first. -/
theorem andThen {f : α → Parser β} (h : Passes N p) (hf : ∀ a, Yields N (f a) R) :
    Yields N (p >>= f) R :=
  h.bind fun a _ => hf a

theorem ite {c : Prop} [Decidable c] (hp : Yields N p P) (hq : Yields N q P) :
    Yields N (if c then p else q) P := by
  split
  · exact hp
  · exact hq

theorem unexpected : Yields N unexpected P := by
  rintro ls a rest hls ⟨⟩

theorem peek : Yields N peek fun t => ∀ u ∈ t, Sound N u := by
  rintro ls t rest hls ⟨⟩
  refine ⟨fun u hu => ?_, hls⟩
  obtain ⟨l, hl, rfl⟩ := Option.map_eq_some_iff.mp hu
  exact hls l (List.mem_of_mem_head? hl)

theorem peekSecond : Passes N peekSecond := by
  rintro ls t rest hls ⟨⟩
  exact ⟨trivial, hls⟩

theorem get : Passes N (get : Parser (List Lexeme)) := by
  rintro ls t rest hls ⟨⟩
  exact ⟨trivial, hls⟩

theorem skip : Passes N skip := by
  intro ls a rest hls h
  cases ls with
  | nil => cases h
  | cons l ls =>
    cases h
    exact ⟨trivial, fun l hl => hls l (by simp [hl])⟩

theorem atKeyword (word : String) : Passes N (atKeyword word) :=
  andThen peek.passes fun _ => pure trivial

theorem atSymbol (sign : String) : Passes N (atSymbol sign) :=
  andThen peek.passes fun _ => pure trivial

theorem takeKeyword (word : String) : Passes N (takeKeyword word) :=
  andThen (atKeyword word) fun _ => ite (andThen skip fun _ => pure trivial) (pure trivial)

theorem takeSymbol (sign : String) : Passes N (takeSymbol sign) :=
  andThen (atSymbol sign) fun _ => ite (andThen skip fun _ => pure trivial) (pure trivial)

theorem keyword (word : String) : Passes N (keyword word) :=
  andThen (takeKeyword word) fun _ => ite unexpected (pure trivial)

theorem symbol (sign : String) : Passes N (symbol sign) :=
  andThen (takeSymbol sign) fun _ => ite unexpected (pure trivial)

theorem keywords (words : List String) : Passes N (keywords words) := by
  induction words with
  | nil => exact pure trivial
  | cons word words ih => exact andThen (keyword word) fun _ => ih

theorem iterate {step : α → Parser (Option α)} {a : α}
    (hstep : ∀ a, P a → Yields N (step a) fun o => ∀ b ∈ o, P b) (h : P a) :
    Yields N (iterate step a) P := by
  have hover : ∀ ls a, P a → Yields N (iterateOver step ls a) P := by
    intro ls
    induction ls with
    | nil => exact fun a ha => pure ha
    | cons l ls ih =>
      intro a ha
      refine bind (hstep a ha) fun o ho => ?_
      split
      · exact pure ha
      · exact ih _ (ho _ rfl)
  exact fun ls => hover ls a h ls

theorem more (sign : String) (hp : Yields N p P) {first : List α} (h : ∀ a ∈ first, P a) :
    Yields N (more sign p first) fun as => ∀ a ∈ as, P a := by
  exact iterate (fun _ hdone => andThen (takeSymbol sign) fun _ =>
    ite (bind hp fun _ ha => pureMore hdone ha) (pure nofun)) h

theorem commas (hp : Yields N p P) : Yields N (commas p) fun as => ∀ a ∈ as, P a :=
  bind hp fun _ ha => more "," hp (by simpa using ha)

theorem commas_ne_nil (hp : Passes N p) : Yields N (Parser.commas p) (· ≠ []) :=
  andThen hp fun _ => iterate (fun _ _ => andThen (takeSymbol ",") fun _ =>
    ite (andThen hp fun _ => pureSome (by simp)) (pure nofun)) (by simp)

theorem parens (hp : Yields N p P) : Yields N (parens p) P :=
  andThen (symbol "(") fun _ => bind hp fun _ ha => andThen (symbol ")") fun _ => pure ha

theorem optional (word : String) (hp : Yields N p P) :
    Yields N (optional word p) fun o => ∀ a ∈ o, P a :=
  andThen (takeKeyword word) fun _ =>
    ite (bind hp fun _ ha => pureSome ha) (pure nofun)

theorem spanned (hp : Yields N p P) : Yields N (spanned p) fun r => P r.1 := by
  intro ls r rest hls h
  unfold Parser.spanned at h
  cases hr : p ls with
  | error e =>
    rw [hr] at h
    cases h
  | ok s =>
    rw [hr] at h
    cases h
    exact hp ls _ _ hls hr

section Names

theorem name : Passes N name := by
  refine andThen peek.passes fun t => ?_
  split
  · exact andThen skip fun _ => pure trivial
  · exact unexpected

theorem path : Passes N path :=
  andThen name fun _ => (more "." name fun _ _ => trivial).passes

theorem nameList : Passes N nameList := (commas name).passes.parens

theorem aliasName : Passes N aliasName := by
  refine andThen (takeKeyword "as") fun _ => ite (andThen name fun _ => pure trivial) ?_
  refine andThen peek.passes fun _ => ite (andThen name fun _ => pure trivial) (pure trivial)

theorem plainName : Passes N plainName := by
  refine andThen peek.passes fun t => ?_
  split
  · exact andThen skip fun _ => pure trivial
  · exact unexpected

theorem timeZone : Passes N timeZone := keywords _

theorem typeBase : Passes N typeBase := by
  refine andThen peek.passes fun t => ?_
  split
  · split
    · exact unexpected
    · refine andThen skip fun _ => andThen (takeSymbol ".") fun _ =>
        ite (andThen plainName fun _ => pure trivial) ?_
      refine ite (andThen (takeKeyword "precision") fun _ => ite (pure trivial) <|
        andThen (takeKeyword "varying") fun _ => ite (pure trivial) ?_) ?_
      all_goals
        exact andThen (takeKeyword "with") fun _ => ite (andThen timeZone fun _ => pure trivial) <|
          andThen (takeKeyword "without") fun _ =>
            ite (andThen timeZone fun _ => pure trivial) (pure trivial)
  · exact unexpected

theorem numeral : Passes N numeral := by
  refine andThen peek.passes fun t => ?_
  split
  · exact andThen skip fun _ => pure trivial
  · exact unexpected

theorem typeModifiers : Passes N typeModifiers :=
  andThen (takeSymbol "(") fun _ => ite
    (andThen (commas numeral).passes fun _ => andThen (symbol ")") fun _ => pure trivial)
    (pure trivial)

theorem brackets (mayIndex : Bool) : Passes N (brackets mayIndex) := by
  refine iterate (fun n _ => ?_) trivial
  refine andThen (atSymbol "[") fun _ => ite (pure nofun) ?_
  refine andThen peekSecond fun _ => ite (pure nofun) ?_
  exact andThen (symbol "[") fun _ => andThen (symbol "]") fun _ => pure fun _ _ => trivial

theorem typeName (mayIndex : Bool) : Passes N (typeName mayIndex) :=
  andThen typeBase fun _ => andThen typeModifiers fun _ => andThen (brackets mayIndex) fun _ =>
    pure trivial

end Names

end Yields

end Parser

end SqlTree.Syntax
