import SqlTree.Proofs.Grammatical
import SqlTree.Proofs.Sequences.Lexing

/-!
Texts behind one another, with a semicolon between them, have the statements of the one and then
those of the other.
-/

namespace SqlTree.Grammar

open Terminal Rule Rhs Lexer

section Signs

namespace Rhs

def isSlash : Rhs → Bool
  | token c => c = SLASH
  | _ => false

/-- A slash stands only before what is not empty and does not start with a star. -/
def isApart : Rhs → Bool
  | void | empty | rule _ => true
  | token c => c ≠ SLASH
  | seq x y =>
    (if x.isSlash then !y.nullable && !y.first.contains STAR else x.isApart) && y.isApart
  | alt x y => x.isApart && y.isApart
  | star x => x.isApart

end Rhs

theorem isApart_rhs (r : Rule) : (rhs r).isApart = true := by
  cases r <;> decide +kernel

theorem not_apart {t u : Token} (h : ¬ Apart t u) : SLASH.Matches t ∧ STAR.Matches u := by
  obtain ⟨rfl, rfl⟩ := not_not.mp h
  exact ⟨List.mem_singleton_self _, List.mem_singleton_self _⟩

/-- No slash is followed by a star, and none is the last token. -/
def AllApart (ts : List Token) : Prop :=
  ts.IsChain Apart ∧ ∀ t ∈ ts.getLast?, ¬ SLASH.Matches t

theorem AllApart.append {ts us : List Token} (ht : AllApart ts) (hu : AllApart us) :
    AllApart (ts ++ us) := by
  refine ⟨List.isChain_append.mpr ⟨ht.1, hu.1, fun t hlast u _ => ?_⟩, fun t hlast => ?_⟩
  · by_contra hapart
    exact ht.2 t hlast (not_apart hapart).1
  · rw [List.getLast?_append, Option.mem_def, Option.or_eq_some_iff] at hlast
    exact hlast.elim (hu.2 t) fun h => ht.2 t h.2

theorem AllApart.cons {t u : Token} {us : List Token} (h : AllApart (u :: us))
    (hu : ¬ STAR.Matches u) : AllApart (t :: u :: us) := by
  refine ⟨List.isChain_cons_cons.mpr ⟨?_, h.1⟩, by simpa using h.2⟩
  by_contra hapart
  exact hu (not_apart hapart).2

theorem Derives.allApart {x : Rhs} {ts : List Token} (h : Derives x ts) (hx : x.isApart = true) :
    AllApart ts := by
  induction h with
  | empty | stop => exact ⟨.nil, nofun⟩
  | @token c t hc =>
    refine ⟨.singleton t, ?_⟩
    rintro _ ⟨⟩ hslash
    exact of_decide_eq_true hx (hc.unique hslash)
  | @rule r _ _ ih => exact ih (isApart_rhs r)
  | @seq x y ts us hts hus ihx ihy =>
    obtain ⟨hx, hy⟩ := Bool.and_eq_true_iff.mp hx
    by_cases hslash : x.isSlash = true
    · obtain ⟨t, rfl⟩ : ∃ t, ts = [t] := by
        cases hts with
        | token => exact ⟨_, rfl⟩
        | _ => cases hslash
      rw [if_pos hslash, Bool.and_eq_true, Bool.not_eq_true', Bool.not_eq_true'] at hx
      cases us with
      | nil => exact absurd ((hus.nullable rfl).symm.trans hx.1) nofun
      | cons u us =>
        refine (ihy hy).cons fun hstar => ?_
        exact absurd ((List.contains_iff_mem.mpr (hus.mem_first hstar)).symm.trans hx.2) nofun
    · rw [if_neg hslash] at hx
      exact (ihx hx).append (ihy hy)
  | left _ ih => exact ih (Bool.and_eq_true_iff.mp hx).1
  | right _ ih => exact ih (Bool.and_eq_true_iff.mp hx).2
  | more _ _ ihx ihxs => exact (ihx hx).append (ihxs hx)

end Signs

end SqlTree.Grammar

namespace SqlTree

open Grammar Syntax Syntax.Parser

/-- Lexemes of one statement and the clause map that they are read as, if no syntax tree may be
deeper than `d`. -/
def ReadTo (d : Int) (us : List Lexeme) (v : Value) : Prop :=
  Derives Rule.stmt (us.map Lexeme.token) ∧
    ∃ c, Commands us c ∧ (Value.map <$> c.read) ⟨d, 1⟩ = .ok v

variable {d : Int} {s : String} {ls us : List Lexeme} {vs : List Value} {cs : List Command}

section Statements

theorem ReadTo.alike {us us' : List Lexeme} {v : Value} (h : ReadTo d us v) (halike : Alike us us') :
    ReadTo d us' v := by
  obtain ⟨hstmt, c, hc, hread⟩ := h
  refine ⟨halike.1 ▸ hstmt, c, fun n ls' rest hn hls => ?_, hread⟩
  exact hc n ls' rest (halike.length ▸ hn) ⟨halike.1.trans hls.1, halike.2.trans hls.2⟩

theorem commands_unique {c c' : Command} (h : Commands us c) (h' : Commands us c') : c = c' := by
  have hrun := h us.length us [] (Nat.le_refl _) (.refl us) .none
  have hrun' := h' us.length us [] (Nat.le_refl _) (.refl us) .none
  exact (Prod.mk.inj (Except.ok.inj (hrun.symm.trans hrun'))).1

theorem readAll_eq_ok_iff : readAll d cs = .ok vs ↔
    1 ≤ d ∧ List.Forall₂ (fun c v => (Value.map <$> c.read) ⟨d, 1⟩ = .ok v) cs vs := by
  rw [readAll, visitAll, visit]
  split
  case isTrue hdeep =>
    refine iff_of_false (fun h => by cases h) fun h => ?_
    dsimp only at hdeep
    omega
  case isFalse hdeep =>
    dsimp only at hdeep ⊢
    rw [mapM_eq_ok_iff, List.forall₂_map_left_iff]
    exact ⟨fun h => ⟨by omega, h⟩, And.right⟩

/-- Commands and what they are read as, out of the statements and what they are read as. -/
theorem forall₂_readTo_iff {uss : List (List Lexeme)} (hcs : List.Forall₂ Commands uss cs)
    (hall : ∀ us ∈ uss, Derives Rule.stmt (us.map Lexeme.token)) :
    List.Forall₂ (ReadTo d) uss vs ↔
      List.Forall₂ (fun c v => (Value.map <$> Command.read c) ⟨d, 1⟩ = .ok v) cs vs := by
  induction hcs generalizing vs with
  | nil => rw [List.forall₂_nil_left_iff, List.forall₂_nil_left_iff]
  | @cons us c uss cs hc hcs ih =>
    obtain ⟨hstmt, hall⟩ := List.forall_mem_cons.mp hall
    cases vs with
    | nil => exact iff_of_false nofun nofun
    | cons v vs =>
      rw [List.forall₂_cons, List.forall₂_cons, ih hall]
      refine and_congr_left fun _ => ⟨?_, fun hread => ⟨hstmt, c, hc, hread⟩⟩
      rintro ⟨-, c', hc', hread⟩
      exact commands_unique hc hc' ▸ hread

end Statements

section Blank

variable {cs gap : List Char}

theorem cuts_of_blank (h : ∀ c ∈ cs, c ∈ [' ', '\t', '\r', '\n', ';']) :
    ∃ ls, Lexer.Cuts gap cs ls ∧ ∀ l ∈ ls, isSemicolon l = true := by
  induction hlength : cs.length using Nat.strong_induction_on generalizing cs gap with
  | _ n ih =>
    subst hlength
    cases cs with
    | nil => exact ⟨[], .done, nofun⟩
    | cons c cs =>
      obtain ⟨hc, hcs⟩ := List.forall_mem_cons.mp h
      by_cases hsemi : c = ';'
      · subst hsemi
        have hmatch : Lexer.firstMatch (';' :: cs) = some (1, some .symbol) := rfl
        obtain ⟨ls, hls, hall⟩ := ih _ (Nat.lt_succ_self _) hcs rfl
        exact ⟨_, .take hmatch hls, List.forall_mem_cons.mpr ⟨rfl, hall⟩⟩
      · have hspace : Lexer.isSpace c = true := by
          simp only [List.mem_cons, List.not_mem_nil, or_false] at hc
          rcases hc with rfl | rfl | rfl | rfl | rfl <;> first | rfl | exact absurd rfl hsemi
        have hmatch := Lexer.firstMatch_spaces hspace cs
        have hless : ((c :: cs).drop (1 + (cs.takeWhile Lexer.isSpace).length)).length <
            (c :: cs).length := by
          rw [List.length_drop, List.length_cons]
          omega
        obtain ⟨ls, hls, hall⟩ := ih _ hless (fun d hd => h d (List.mem_of_mem_drop hd)) rfl
        exact ⟨ls, .skip hmatch hls, hall⟩

theorem exists_cuts_of_isBlankText (h : isBlankText s = true) :
    ∃ ls, Lexer.Cuts [] s.toList ls ∧ ∀ l ∈ ls, isSemicolon l = true :=
  cuts_of_blank fun c hc => List.contains_iff_mem.mp (List.all_eq_true.mp h c hc)

theorem segments_of_semicolons (h : ∀ l ∈ ls, isSemicolon l = true) : segments ls = [] := by
  simpa using segments_semicolons h []

end Blank

/-- How a text is read: it is cut into lexemes, and what stands between semicolons is read one by
one. -/
theorem exists_readTo_of_parseAll (h : parseAll d s = .ok vs) : ∃ ls, Lexer.Cuts [] s.toList ls ∧
    (ls.map Lexeme.token).IsChain Lexer.Apart ∧ List.Forall₂ (ReadTo d) (segments ls) vs ∧
      (isBlankText s = true ∨ segments ls ≠ [] ∧ 1 ≤ d) := by
  by_cases hs : isBlankText s = true
  · obtain ⟨ls, hcuts, hsemi⟩ := exists_cuts_of_isBlankText hs
    rw [parseAll, if_pos hs] at h
    cases h
    refine ⟨ls, hcuts, ((derives_semicolons hsemi).allApart rfl).1, ?_, .inl hs⟩
    rw [segments_of_semicolons hsemi]
    exact .nil
  · rw [parseAll_of_not_blank (Bool.not_eq_true _ ▸ hs)] at h
    cases hcs : commandsOf s with
    | error e => simp [hcs, Except.bind] at h
    | ok cs =>
      rw [hcs] at h
      obtain ⟨ls, hcuts, hstart⟩ := exists_cuts_of_commandsOf hcs
      obtain ⟨hsome, hall⟩ := statements_of_start hstart
      obtain ⟨cs', hcommands, hcs'⟩ := exists_commandsOf hcuts hstart
      obtain rfl := Except.ok.inj (hcs.symm.trans hcs')
      obtain ⟨hd, hread⟩ := readAll_eq_ok_iff.mp h
      exact ⟨ls, hcuts, (hstart.allApart rfl).1, (forall₂_readTo_iff hcommands hall).mpr hread,
        .inr ⟨hsome, hd⟩⟩

theorem parseAll_of_readTo (hcuts : Lexer.Cuts [] s.toList ls)
    (hread : List.Forall₂ (ReadTo d) (segments ls) vs)
    (hend : isBlankText s = true ∨ segments ls ≠ [] ∧ 1 ≤ d) : parseAll d s = .ok vs := by
  by_cases hs : isBlankText s = true
  · obtain ⟨ms, hms, hsemi⟩ := exists_cuts_of_isBlankText hs
    obtain rfl := hcuts.unique hms
    rw [segments_of_semicolons hsemi, List.forall₂_nil_left_iff] at hread
    rw [parseAll, if_pos hs, hread]
  · obtain ⟨hsome, hd⟩ := hend.resolve_left hs
    have hall : ∀ us ∈ segments ls, Derives Rule.stmt (us.map Lexeme.token) :=
      ((List.forall₂_and_left _ _).mp hread).1
    obtain ⟨cs, hcs, hruns⟩ := exists_commandsRun hsome hall
    have hcommands : commandsOf s = .ok cs := by
      rw [commandsOf, Lexer.cuts_iff_lex.mp hcuts]
      simp only [hruns ls.length (Nat.le_refl _)]
    rw [parseAll_of_not_blank (Bool.not_eq_true _ ▸ hs), hcommands]
    exact readAll_eq_ok_iff.mpr ⟨hd, (forall₂_readTo_iff hcs hall).mp hread⟩

theorem forall₂_segments {ms : List Lexeme} (h : Alike ls ms) :
    List.Forall₂ Alike (segments ls) (segments ms) := by
  have hrefl (uss : List (List Lexeme)) : List.Forall₂ Alike uss uss :=
    List.forall₂_same.mpr fun us _ => .refl us
  cases ls with
  | nil =>
    rw [h.nil]
    exact .nil
  | cons l ls =>
    obtain ⟨l', rfl, hl⟩ := Alike.cons h
    have hsame : isSemicolon l' = isSemicolon l := by rw [isSemicolon, isSemicolon, hl]
    by_cases hsemi : isSemicolon l = true
    · rw [segments_cons hsemi, segments_cons (hsame.trans hsemi)]
      exact hrefl _
    · obtain ⟨us, ks, rfl, hus, hks⟩ := exists_beginning (!isSemicolon ·) ls
      have hus' : ∀ l ∈ us, isSemicolon l = false := by simpa using hus
      have hks' : ∀ l ∈ ks.head?, isSemicolon l = true := by simpa using hks
      have hplain : isSemicolon l = false := Bool.not_eq_true _ ▸ hsemi
      rw [← List.cons_append, ← List.cons_append,
        segments_statement (List.forall_mem_cons.mpr ⟨hplain, hus'⟩) nofun hks',
        segments_statement (List.forall_mem_cons.mpr ⟨hsame.trans hplain, hus'⟩) nofun hks']
      exact .cons ⟨by simp [hl], rfl⟩ (hrefl _)

theorem ReadTo.forall₂_alike {uss uss' : List (List Lexeme)} (halike : List.Forall₂ Alike uss uss')
    (h : List.Forall₂ (ReadTo d) uss vs) : List.Forall₂ (ReadTo d) uss' vs := by
  induction halike generalizing vs with
  | nil => exact h
  | cons hus _ ih =>
    cases h with
    | cons hread h => exact .cons (hread.alike hus) (ih h)

theorem isBlankText_sequence (s₁ s₂ : String) :
    isBlankText (s₁ ++ "\n;\n" ++ s₂) = (isBlankText s₁ && isBlankText s₂) := by
  simp [isBlankText]

/-- Texts behind one another are read as the statements of the one and then those of the other,
blank texts and all. -/
theorem parseAll_sequence {s₁ s₂ : String} {vs₁ vs₂ : List Value} (h₁ : parseAll d s₁ = .ok vs₁)
    (h₂ : parseAll d s₂ = .ok vs₂) :
    parseAll d (s₁ ++ "\n;\n" ++ s₂) = .ok (vs₁ ++ vs₂) ∧
      ∀ v ∈ (vs₁ ++ vs₂).head?, parse d (s₁ ++ "\n;\n" ++ s₂) = .ok v := by
  obtain ⟨ls₁, hcuts₁, hapart, hread₁, hend₁⟩ := exists_readTo_of_parseAll h₁
  obtain ⟨ls₂, hcuts₂, -, hread₂, hend₂⟩ := exists_readTo_of_parseAll h₂
  obtain ⟨ms, hms, halike⟩ := hcuts₂.exists_break
  obtain ⟨gap, hcuts⟩ := hcuts₁.exists_append hapart hms
  have htext : (s₁ ++ "\n;\n" ++ s₂).toList = s₁.toList ++ '\n' :: ';' :: '\n' :: s₂.toList := by simp
  have hsegments : segments (ls₁ ++ ⟨gap, .symbol ";"⟩ :: ms) = segments ls₁ ++ segments ms :=
    segments_append rfl _ _
  have hstatements := forall₂_segments halike
  have hend : isBlankText (s₁ ++ "\n;\n" ++ s₂) = true ∨
      segments (ls₁ ++ ⟨gap, .symbol ";"⟩ :: ms) ≠ [] ∧ 1 ≤ d := by
    rw [isBlankText_sequence, hsegments]
    rcases hend₁, hend₂ with ⟨hblank₁ | ⟨hsome₁, hd⟩, hblank₂ | ⟨hsome₂, hd'⟩⟩
    · exact .inl (by rw [hblank₁, hblank₂]; rfl)
    · refine .inr ⟨fun hnil => hsome₂ ?_, hd'⟩
      rw [(List.append_eq_nil_iff.mp hnil).2] at hstatements
      exact List.forall₂_nil_right_iff.mp hstatements
    all_goals exact .inr ⟨List.append_ne_nil_of_left_ne_nil hsome₁ _, hd⟩
  have hall : parseAll d (s₁ ++ "\n;\n" ++ s₂) = .ok (vs₁ ++ vs₂) :=
    parseAll_of_readTo (htext ▸ hcuts)
      (hsegments ▸ List.rel_append hread₁ (ReadTo.forall₂_alike hstatements hread₂)) hend
  refine ⟨hall, fun v hv => ?_⟩
  obtain ⟨vs, hvs⟩ := List.head?_eq_some_iff.mp hv
  rw [parse, hall, hvs]
  rfl

theorem exists_of_length {α : Type} {x : Except Fault (List α)} {n : Nat}
    (h : x.toOption.map List.length = some n) : ∃ as, x = .ok as ∧ as.length = n := by
  cases x with
  | error => cases h
  | ok as => exact ⟨as, rfl, Option.some.inj h⟩

theorem parseAll_sequence_marks : ∃ vs₁ vs₂ : List Value, vs₁.length = 1 ∧ vs₂.length = 2 ∧
    parseAll 150 "SELECT 'it''s;' AS \"a;\"\"b\" -- 'c;" = .ok vs₁ ∧
    parseAll 150 ";SELECT 1 /* ;' */; SELECT 2;" = .ok vs₂ ∧
    parseAll 150 ("SELECT 'it''s;' AS \"a;\"\"b\" -- 'c;" ++ "\n;\n" ++
      ";SELECT 1 /* ;' */; SELECT 2;") = .ok (vs₁ ++ vs₂) := by
  have hfirst : (parseAll 150 "SELECT 'it''s;' AS \"a;\"\"b\" -- 'c;").toOption.map List.length =
      some 1 := by decide +kernel
  have hsecond : (parseAll 150 ";SELECT 1 /* ;' */; SELECT 2;").toOption.map List.length = some 2 := by
    decide +kernel
  obtain ⟨vs₁, h₁, hlength₁⟩ := exists_of_length hfirst
  obtain ⟨vs₂, h₂, hlength₂⟩ := exists_of_length hsecond
  exact ⟨vs₁, vs₂, hlength₁, hlength₂, h₁, h₂, (parseAll_sequence h₁ h₂).1⟩

end SqlTree
