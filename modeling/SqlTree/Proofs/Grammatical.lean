import SqlTree.Proofs.Grammar.Commands
import SqlTree.Proofs.Lexing
import SqlTree.Proofs.RoundTrip.Spelling
import SqlTree.Proofs.Settled

/-!
A text is parsed if the lexer cuts it into tokens that the grammar derives, and refused for its
text if not. What it is parsed as are the maps of its statements.
-/

namespace SqlTree

open Grammar Syntax Syntax.Parser

/-- The text is cut into lexemes that the grammar derives from its start. -/
def Grammatical (s : String) : Prop :=
  ∃ ls, Lexer.Cuts [] s.toList ls ∧ Derives Rule.start (ls.map Lexeme.token)

/-- Lexemes of one statement that are parsed as a command, whatever follows them, and the clause map
that this command is read as, unless it is too deep. -/
def Means (us : List Lexeme) (v : Value) : Prop :=
  Derives Rule.stmt (us.map Lexeme.token) ∧
    ∃ c, Commands us c ∧ Settles (Value.map <$> c.read) (.ok v)

variable {s : String} {ls : List Lexeme} {cs : List Command} {e : Fault}

section Commands

theorem kind_of_commandsOf_error (h : commandsOf s = .error e) : e.kind = .unreadable := by
  unfold commandsOf at h
  split at h
  split at h <;> cases h <;> rfl

theorem exists_cuts_of_commandsOf (h : commandsOf s = .ok cs) :
    ∃ ls, Lexer.Cuts [] s.toList ls ∧ Derives Rule.start (ls.map Lexeme.token) := by
  unfold commandsOf at h
  split at h
  next ls stuck hlex =>
  split at h
  · next ds rest hcommands =>
    obtain ⟨-, hstart⟩ := commands_sound hcommands
    exact ⟨ls, Lexer.cuts_iff_lex.mpr hlex, hstart⟩
  all_goals cases h

theorem exists_commandsOf (hcuts : Lexer.Cuts [] s.toList ls)
    (hstart : Derives Rule.start (ls.map Lexeme.token)) :
    ∃ cs, List.Forall₂ Commands (segments ls) cs ∧ commandsOf s = .ok cs := by
  obtain ⟨hsome, hall⟩ := statements_of_start hstart
  obtain ⟨cs, hcs, hruns⟩ := exists_commandsRun hsome hall
  refine ⟨cs, hcs, ?_⟩
  rw [commandsOf, Lexer.cuts_iff_lex.mp hcuts]
  simp only [hruns ls.length (Nat.le_refl _)]

theorem grammatical_iff : Grammatical s ↔ ∃ cs, commandsOf s = .ok cs := by
  constructor
  · rintro ⟨ls, hcuts, hstart⟩
    obtain ⟨cs, -, hcs⟩ := exists_commandsOf hcuts hstart
    exact ⟨cs, hcs⟩
  · rintro ⟨cs, hcs⟩
    exact exists_cuts_of_commandsOf hcs

end Commands

theorem parseAll_of_not_blank (hs : isBlankText s = false) (d : Int) :
    parseAll d s = (commandsOf s).bind (readAll d) := by
  rw [parseAll, if_neg (Bool.eq_false_iff.mp hs)]
  rfl

/-- A text is refused for its text if and only if it is not grammatical. -/
theorem unreadable_iff (hs : isBlankText s = false) (d : Int) :
    (∃ e, parseAll d s = .error e ∧ e.kind = .unreadable) ↔ ¬ Grammatical s := by
  rw [parseAll_of_not_blank hs, grammatical_iff]
  cases hcs : commandsOf s with
  | error e => exact iff_of_true ⟨e, rfl, kind_of_commandsOf_error hcs⟩ nofun
  | ok cs =>
    refine iff_of_false ?_ fun h => h ⟨cs, rfl⟩
    rintro ⟨e, herror, hkind⟩
    have hregular := regular_of_commandsOf (N := fun _ => true) hcs fun _ _ _ _ => rfl
    rcases eq_of_readAll_error hregular herror with rfl | ⟨n, rfl⟩ <;> cases hkind

theorem forall₂_means {uss : List (List Lexeme)} {vs : List Value}
    (hall : ∀ us ∈ uss, Derives Rule.stmt (us.map Lexeme.token)) (hcs : List.Forall₂ Commands uss cs)
    (hvs : List.Forall₂ (fun c v => Settles (Value.map <$> Command.read c) (.ok v)) cs vs) :
    List.Forall₂ Means uss vs := by
  induction hcs generalizing vs with
  | nil =>
    cases hvs
    exact .nil
  | cons hc _ ih =>
    obtain ⟨hstmt, hall⟩ := List.forall_mem_cons.mp hall
    cases hvs with
    | cons hv hvs => exact .cons ⟨hstmt, _, hc, hv⟩ (ih hall hvs)

/-- A grammatical text has one map for each of its statements, in their order. -/
theorem exists_parseAll (hs : isBlankText s = false) (hcuts : Lexer.Cuts [] s.toList ls)
    (hstart : Derives Rule.start (ls.map Lexeme.token))
    (hdigits : ∀ l ∈ ls, ∀ digits, l.token = .number digits → Literal.isReadable digits = true) :
    ∃ vs, vs ≠ [] ∧ List.Forall₂ Means (segments ls) vs ∧ ∃ need : Nat, ∀ d : Int,
      parseAll d s = .ok vs ∨ d < need ∧ ∃ e, parseAll d s = .error e ∧ e.kind = .tooDeep := by
  obtain ⟨hsome, hall⟩ := statements_of_start hstart
  obtain ⟨cs, hcs, hcommands⟩ := exists_commandsOf hcuts hstart
  have hregular := regular_of_commandsOf hcommands fun l hl => hdigits l (by
    rwa [Lexer.cuts_iff_lex.mp hcuts] at hl)
  obtain ⟨vs, hvs, need, hread⟩ := exists_readAll hregular
  have hmeans := forall₂_means hall hcs hvs
  refine ⟨vs, ?_, hmeans, need, fun d => ?_⟩
  · rintro rfl
    exact hsome (List.forall₂_nil_right_iff.mp hmeans)
  · rw [parseAll_of_not_blank hs, hcommands]
    rcases hread d with hok | ⟨hdeep, n, herror⟩
    · exact .inl hok
    · exact .inr ⟨hdeep, _, herror, rfl⟩

section LongNumerals

/-- The command that selects one numeral. -/
def selectNumber (digits : String) : Command :=
  .statement (.queryStatement (.query .absent
    (.selectBody (.select .absent (.cons (.item (.number digits)) .nil) .nil .absent .nil .absent))
    .nil .nil none))

theorem commands_selectNumber (digits : String) (gap gap' : List Char) :
    Parser.commands (nested 2)
      [⟨gap, .keyword "select" "SELECT"⟩, ⟨gap', .number digits⟩] =
        .ok ([selectNumber digits], []) := rfl

theorem commandsOf_selectNat (n : Nat) :
    commandsOf ("SELECT " ++ n.repr) = .ok [selectNumber n.repr] := by
  have hselect : Lexer.Spells "SELECT" [.keyword "select" "SELECT"] := Lexer.spells_word rfl
  obtain ⟨ls, hlex, htokens⟩ := (hselect.space (Lexer.spells_nat n)).lex
  obtain ⟨⟨gap, token⟩, ls, rfl, rfl, hrest⟩ := List.map_eq_cons_iff.mp htokens
  obtain ⟨⟨gap', token'⟩, ls, rfl, rfl, hnil⟩ := List.map_eq_cons_iff.mp hrest
  obtain rfl := List.map_eq_nil_iff.mp hnil
  have hs : ("SELECT " ++ n.repr).toList = ("SELECT" ++ " " ++ n.repr).toList := by simp
  have hrun := commands_selectNumber n.repr gap gap'
  rw [commandsOf, hs, hlex]
  simp only [List.length_cons, List.length_nil, Nat.reduceAdd, hrun]

theorem number_of_le {n : Nat} (h : 10 ^ Literal.digitLimit ≤ n) :
    Literal.number n.repr = .error .longNumeral := by
  have hdigit : ∀ c ∈ n.repr.toList, c.isDigit = true := by
    rw [Nat.toList_repr]
    exact fun c hc => Nat.isDigit_of_mem_toDigits (by decide) (by decide) hc
  have hwhole : ¬ (n.repr.toList.any fun c => c = '.' || c = 'e' || c = 'E') = true := by
    rw [List.any_eq_true]
    rintro ⟨c, hc, hmark⟩
    have hc := hdigit c hc
    simp only [Bool.or_eq_true, decide_eq_true_eq] at hmark
    rcases hmark with (rfl | rfl) | rfl <;> cases hc
  have hlong : Literal.digitLimit < n.repr.toList.length := by
    rw [Nat.toList_repr, ← Nat.not_le, Nat.length_toDigits_le_iff (by decide) (by decide)]
    exact Nat.not_lt.mpr h
  unfold Literal.number
  dsimp only
  rw [if_neg hwhole, if_pos hlong]

theorem settles_selectNumber {digits : String}
    (h : Literal.number digits = .error .longNumeral) :
    Settles (selectNumber digits).read (.error .longNumeral) := by
  have hvalue : Settles (Operand.leafOr (Literal.number digits |>.map untyped)).value
      (.error .longNumeral) := by
    rw [h]
    exact Settles.visit ⟨0, fun _ => .inl rfl⟩
  have hitem : Settles (Tree.item (.number digits)).read (.error .longNumeral) := hvalue.visit
  have hselect : Settles (Reading.select none [(Tree.item (.number digits)).read] [] none [] none)
      (.error .longNumeral) :=
    (Settles.pure.bind hitem.visitAll_error.bind_error).visit
  exact (Settles.pure.bind hselect.bind_error).visit

/-- A statement with an integer that is too long is not read, however deep a reading may go. -/
theorem parseAll_selectNat {n : Nat} (h : 10 ^ Literal.digitLimit ≤ n) (d : Int) :
    parseAll d ("SELECT " ++ n.repr) = .error .longNumeral ∨
      ∃ k, parseAll d ("SELECT " ++ n.repr) = .error (.textTooDeep k d) := by
  have hblank : isBlankText ("SELECT " ++ n.repr) = false := by simp [isBlankText]
  have hread : Settles (Value.map <$> (selectNumber n.repr).read) (.error .longNumeral) :=
    (settles_selectNumber (number_of_le h)).bind_error
  obtain ⟨need, hall⟩ := hread.visitAll_error
  rw [parseAll_of_not_blank hblank, commandsOf_selectNat]
  exact (hall ⟨d, 0⟩).imp_right And.right

/-- The integer is one digit longer than integers may be. -/
theorem longNumeral_unread : Grammatical ("SELECT " ++ (10 ^ Literal.digitLimit).repr) ∧
    ∀ d vs, parseAll d ("SELECT " ++ (10 ^ Literal.digitLimit).repr) ≠ .ok vs := by
  refine ⟨grammatical_iff.mpr ⟨_, commandsOf_selectNat _⟩, fun d vs hok => ?_⟩
  rcases parseAll_selectNat (Nat.le_refl _) d with herror | ⟨k, herror⟩ <;>
    cases hok.symm.trans herror

end LongNumerals

/-- The parser accepts its grammar and nothing else. A text that is not blank is refused for its
text, whatever the depth, if and only if it is not grammatical; without integers that are too long
it otherwise has one clause map for each of its statements, in their order, and a depth that does
not suffice for them is all that may keep them from being read. -/
theorem parseAll_accepts_grammar (hs : isBlankText s = false) :
    (∀ d, (∃ e, parseAll d s = .error e ∧ e.kind = .unreadable) ↔ ¬ Grammatical s) ∧
    ∀ ls, Lexer.Cuts [] s.toList ls → Derives Rule.start (ls.map Lexeme.token) →
      (∀ l ∈ ls, ∀ digits, l.token = .number digits → Literal.isReadable digits = true) →
      ∃ vs, vs ≠ [] ∧ List.Forall₂ Means (segments ls) vs ∧ ∃ need : Nat, ∀ d : Int,
        parseAll d s = .ok vs ∨ d < need ∧ ∃ e, parseAll d s = .error e ∧ e.kind = .tooDeep :=
  ⟨unreadable_iff hs, fun _ => exists_parseAll hs⟩

theorem parseAll_accepts_grammar_semicolons :
    isBlankText "SELECT 1; SELECT 'a;b'" = false ∧ Grammatical "SELECT 1; SELECT 'a;b'" ∧
      (∀ d e, parseAll d "SELECT 1; SELECT 'a;b'" = .error e → e.kind ≠ .unreadable) ∧
      ∃ vs : List Value, vs.length = 2 ∧ ∃ need : Nat, ∀ d : Int, need ≤ d →
        parseAll d "SELECT 1; SELECT 'a;b'" = .ok vs := by
  let select : Lexeme := ⟨[' '], .keyword "select" "SELECT"⟩
  let ls : List Lexeme := [{ select with gap := [] }, ⟨[' '], .number "1"⟩, ⟨[], .symbol ";"⟩, select,
    ⟨[' '], .string "'a;b'"⟩]
  have hblank : isBlankText "SELECT 1; SELECT 'a;b'" = false := by decide +kernel
  have hlex : Lexer.lex "SELECT 1; SELECT 'a;b'".toList = (ls, []) := by decide +kernel
  have hcuts := Lexer.cuts_iff_lex.mpr hlex
  have hstart : Derives Rule.start (ls.map Lexeme.token) := (commands_sound (m := 5) rfl).2
  obtain ⟨hunreadable, hread⟩ := parseAll_accepts_grammar hblank
  obtain ⟨vs, -, hvs, need, hall⟩ := hread ls hcuts hstart (by simp [ls, select]; decide)
  refine ⟨hblank, ⟨ls, hcuts, hstart⟩, fun d e he hkind => ?_, vs, hvs.length_eq.symm, need, ?_⟩
  · exact (hunreadable d).mp ⟨e, he, hkind⟩ ⟨ls, hcuts, hstart⟩
  · exact fun d hd => (hall d).resolve_right fun h => absurd h.1 (by omega)

end SqlTree
