import Mathlib.Data.List.Forall2
import SqlTree.Proofs.Grammar.Statements

/-!
The parser of texts takes what the grammar derives from its start, and yields one command for each
of the statements between the semicolons.
-/

namespace SqlTree.Grammar

open Terminal Rule Rhs

/-- There is no semicolon in the right side. -/
def Rhs.isPlain : Rhs → Bool
  | void | empty => true
  | token c => c ≠ SEMI
  | rule r => r ≠ start
  | seq x y | alt x y => x.isPlain && y.isPlain
  | star x => x.isPlain

theorem isPlain_rhs (r : Rule) (h : r ≠ start) : (rhs r).isPlain = true := by
  cases r <;> first | rfl | exact absurd rfl h

theorem Derives.ne_semicolon {x : Rhs} {ts : List Token} (h : Derives x ts)
    (hx : x.isPlain = true) : ∀ t ∈ ts, ¬ SEMI.Matches t := by
  induction h with
  | empty | stop => nofun
  | @token c t hc =>
    intro u hu hsemi
    rw [List.mem_singleton.mp hu] at hsemi
    exact of_decide_eq_true hx (hc.unique hsemi)
  | @rule r _ _ ih => exact ih (isPlain_rhs r (of_decide_eq_true hx))
  | seq _ _ ihx ihy =>
    obtain ⟨hx, hy⟩ := Bool.and_eq_true_iff.mp hx
    exact List.forall_mem_append.mpr ⟨ihx hx, ihy hy⟩
  | left _ ih => exact ih (Bool.and_eq_true_iff.mp hx).1
  | right _ ih => exact ih (Bool.and_eq_true_iff.mp hx).2
  | more _ _ ihx ihxs => exact List.forall_mem_append.mpr ⟨ihx hx, ihxs hx⟩

end SqlTree.Grammar

namespace SqlTree.Syntax.Parser

open Grammar Terminal Rule Rhs

section Segments

def isSemicolon (l : Lexeme) : Bool := isSymbol ";" (some l.token)

theorem isSemicolon_iff {l : Lexeme} : isSemicolon l = true ↔ SEMI.Matches l.token :=
  isSymbol_iff rfl

/-- What stands between semicolons, unless that is nothing. -/
def segments (ls : List Lexeme) : List (List Lexeme) :=
  (ls.splitOnP isSemicolon).filter (!·.isEmpty)

variable {l : Lexeme} {ls ms us : List Lexeme}

@[simp] theorem segments_nil : segments [] = [] := rfl

theorem segments_append (hl : isSemicolon l = true) (ls ms : List Lexeme) :
    segments (ls ++ l :: ms) = segments ls ++ segments ms := by
  simp [segments, List.splitOnP_append_cons _ _ hl]

theorem segments_cons (hl : isSemicolon l = true) (ls : List Lexeme) :
    segments (l :: ls) = segments ls :=
  (segments_append hl [] ls).trans (by simp [segments])

theorem segments_semicolons (h : ∀ l ∈ ls, isSemicolon l = true) (ms : List Lexeme) :
    segments (ls ++ ms) = segments ms := by
  induction ls with
  | nil => rfl
  | cons l ls ih =>
    rw [List.cons_append, segments_cons (h l (by simp)), ih fun l hl => h l (by simp [hl])]

theorem segments_statement (h : ∀ l ∈ us, isSemicolon l = false) (hne : us ≠ [])
    (hls : ∀ l ∈ ls.head?, isSemicolon l = true) : segments (us ++ ls) = us :: segments ls := by
  have hus : segments us = [us] := by simp [segments, List.splitOnP_eq_singleton h, hne]
  cases ls with
  | nil => simpa [segments] using hus
  | cons l ls =>
    have hl := hls l rfl
    rw [segments_append hl, hus, segments_cons hl]
    rfl

/-- The longest beginning of which a test holds. -/
theorem exists_beginning (p : Lexeme → Bool) (ls : List Lexeme) : ∃ us ms, ls = us ++ ms ∧
    (∀ l ∈ us, p l = true) ∧ ∀ l ∈ ms.head?, p l = false := by
  refine ⟨ls.takeWhile p, ls.dropWhile p, List.takeWhile_append_dropWhile.symm,
    fun l hl => List.mem_takeWhile_imp hl, fun l hl => ?_⟩
  simpa [Option.mem_def.mp hl] using List.head?_dropWhile_not p ls

/-- A text is cut at its first statement, if there is one. -/
theorem segments_cases (ls : List Lexeme) :
    ((∀ l ∈ ls, isSemicolon l = true) ∧ segments ls = []) ∨
      ∃ ss us ms, ls = ss ++ (us ++ ms) ∧ (∀ l ∈ ss, isSemicolon l = true) ∧
        (∀ l ∈ us, isSemicolon l = false) ∧ us ≠ [] ∧ (∀ l ∈ ms.head?, isSemicolon l = true) ∧
        segments ls = us :: segments ms := by
  obtain ⟨ss, ks, rfl, hss, hks⟩ := exists_beginning isSemicolon ls
  obtain ⟨us, ms, rfl, hus, hms⟩ := exists_beginning (!isSemicolon ·) ks
  have hus' : ∀ l ∈ us, isSemicolon l = false := by simpa using hus
  have hms' : ∀ l ∈ ms.head?, isSemicolon l = true := by simpa using hms
  cases us with
  | nil =>
    cases ms with
    | nil => exact .inl ⟨by simpa using hss, segments_semicolons hss []⟩
    | cons l ms => exact absurd ((hms' l rfl).symm.trans (hks l rfl)) nofun
  | cons u us =>
    refine .inr ⟨ss, u :: us, ms, rfl, hss, hus', nofun, hms', ?_⟩
    rw [segments_semicolons hss, segments_statement hus' nofun hms']

theorem derives_semicolons (h : ∀ l ∈ ls, isSemicolon l = true) :
    Derives (star SEMI) (ls.map Lexeme.token) := by
  induction ls with
  | nil => exact .stop
  | cons l ls ih =>
    obtain ⟨hl, hls⟩ := List.forall_mem_cons.mp h
    exact Derives.more (.token (isSemicolon_iff.mp hl)) (ih hls)

theorem derives_plus_semicolons (h : ∀ l ∈ ls, isSemicolon l = true) (hne : ls ≠ []) :
    Derives (plus SEMI) (ls.map Lexeme.token) := by
  cases ls with
  | nil => exact absurd rfl hne
  | cons l ls =>
    obtain ⟨hl, hls⟩ := List.forall_mem_cons.mp h
    have hsign : Derives SEMI [l.token] := .token (isSemicolon_iff.mp hl)
    exact hsign.seq (derives_semicolons hls)

theorem semicolons_of_derives (h : Derives (star SEMI) (ls.map Lexeme.token)) :
    ∀ l ∈ ls, isSemicolon l = true := by
  obtain ⟨tss, htss, hall⟩ := exists_of_star h rfl
  intro l hl
  have hmem : l.token ∈ tss.flatten := htss ▸ List.mem_map_of_mem hl
  obtain ⟨ts, hts, ht⟩ := List.mem_flatten.mp hmem
  obtain ⟨t, rfl, hsemi⟩ := Parses.derives_token_iff.mp (hall ts hts)
  exact isSemicolon_iff.mpr (List.mem_singleton.mp ht ▸ hsemi)

theorem not_semicolon_of_stmt (h : Derives stmt (us.map Lexeme.token)) :
    us ≠ [] ∧ ∀ l ∈ us, isSemicolon l = false := by
  refine ⟨?_, fun l hl => ?_⟩
  · rintro rfl
    exact absurd (h.nullable rfl) (by decide)
  · rw [← Bool.not_eq_true, isSemicolon_iff]
    exact h.ne_semicolon rfl _ (List.mem_map_of_mem hl)

/-- A further statement and the semicolons before it. -/
def block : Rhs := seq (plus SEMI) stmt

theorem lang_start : lang start =
    lang (seq (star SEMI) (seq stmt (seq (star block) (star SEMI)))) := by
  simp [lang_rule start, rhs, block, mul_assoc]

theorem statements_of_blocks {ks ss : List Lexeme} (hks : Derives (star block) (ks.map Lexeme.token))
    (hss : ∀ l ∈ ss, isSemicolon l = true) : (∀ l ∈ (ks ++ ss).head?, isSemicolon l = true) ∧
      ∀ us ∈ segments (ks ++ ss), Derives stmt (us.map Lexeme.token) := by
  induction hlength : ks.length using Nat.strong_induction_on generalizing ks with
  | _ n ih =>
    subst hlength
    cases ks with
    | nil =>
      have hnone : segments ss = [] := by simpa using segments_semicolons hss []
      exact ⟨fun l hl => hss l (List.mem_of_mem_head? hl), by simp [hnone]⟩
    | cons k ks =>
      have hmore : Derives (seq block (star block)) ((k :: ks).map Lexeme.token) := hks.of_star_cons
      obtain ⟨bs, ks', hsplit, hblock, hrest⟩ := hmore.split
      obtain ⟨ps, us, rfl, hps, hus⟩ := hblock.split
      obtain ⟨p, ps, rfl, hp, hstar⟩ := Parses.cons_of_token hps
      obtain ⟨hne, hplain⟩ := not_semicolon_of_stmt hus
      have hp' : ∀ l ∈ p :: ps, isSemicolon l = true :=
        List.forall_mem_cons.mpr ⟨isSemicolon_iff.mpr hp, semicolons_of_derives hstar⟩
      have hless : ks'.length < (k :: ks).length := by
        rw [hsplit]
        simp only [List.length_append, List.length_cons]
        omega
      obtain ⟨hhead, hall⟩ := ih _ hless hrest rfl
      rw [hsplit, List.append_assoc, List.append_assoc]
      refine ⟨fun l hl => hp' l (by simp_all), ?_⟩
      rw [segments_semicolons hp', segments_statement hplain hne hhead]
      exact List.forall_mem_cons.mpr ⟨hus, hall⟩

/-- The statements are those that the grammar derives the text from. -/
theorem statements_of_start (h : Derives start (ls.map Lexeme.token)) :
    segments ls ≠ [] ∧ ∀ us ∈ segments ls, Derives stmt (us.map Lexeme.token) := by
  have hstart : Derives (seq (star SEMI) (seq stmt (seq (star block) (star SEMI))))
      (ls.map Lexeme.token) := lang_start.le h
  obtain ⟨ss, ks, rfl, hss, hks⟩ := hstart.split
  obtain ⟨us, ks, rfl, hus, hks⟩ := hks.split
  obtain ⟨ks, rs, rfl, hks, hrs⟩ := hks.split
  obtain ⟨hne, hplain⟩ := not_semicolon_of_stmt hus
  obtain ⟨hhead, hall⟩ := statements_of_blocks hks (semicolons_of_derives hrs)
  rw [segments_semicolons (semicolons_of_derives hss), segments_statement hplain hne hhead]
  exact ⟨nofun, List.forall_mem_cons.mpr ⟨hus, hall⟩⟩

end Segments

section Runs

variable {m b : Nat} {ls ms : List Lexeme}

theorem avoids_semicolon (h : ∀ l ∈ ls.head?, isSemicolon l = false) : Clear [SEMI] ls := by
  cases ls with
  | nil => exact .none
  | cons l ls =>
    rintro _ ⟨⟩ c hc hmatch
    rw [List.mem_singleton.mp hc, ← isSemicolon_iff, h l rfl] at hmatch
    cases hmatch

theorem semicolons_run {ss : List Lexeme} (hss : ∀ l ∈ ss, isSemicolon l = true)
    (hls : ∀ l ∈ ls.head?, isSemicolon l = false) :
    semicolons (ss ++ ls) = .ok (!ss.isEmpty, ls) := by
  have hover (fuel : List Lexeme) (b : Bool) (hfuel : ss.length ≤ fuel.length) :
      iterateOver (fun _ => do
        if ← takeSymbol ";" then return some true
        return none) fuel b (ss ++ ls) = .ok (b || !ss.isEmpty, ls) := by
    induction ss generalizing fuel b with
    | nil =>
      rw [List.isEmpty_nil, Bool.not_true, Bool.or_false]
      cases fuel with
      | nil => rfl
      | cons l fuel =>
        have hstop := (tests_symbol (c := .SEMI) rfl).run_no (avoids_semicolon hls)
          (g := fun t => if t = true then pure (some true) else pure none)
        exact bind_run hstop
    | cons l ss ih =>
      cases fuel with
      | nil => cases hfuel
      | cons k fuel =>
        obtain ⟨hl, hss⟩ := List.forall_mem_cons.mp hss
        have htake : (takeSymbol ";" >>= fun t => if t = true then pure (some true) else pure none)
            (l :: (ss ++ ls)) = .ok (some true, ss ++ ls) :=
          (tests_symbol (c := .SEMI) rfl).run_yes (isSemicolon_iff.mp hl)
        refine (bind_run htake).trans ((ih hss fuel true (Nat.le_of_succ_le_succ hfuel)).trans ?_)
        simp
  exact (hover (ss ++ ls) false (by simp)).trans (by simp)

/-- What is done after a command. -/
def commandStep (p : Nested) (done : List Command) : Parser (Option (List Command)) := do
  if !(← semicolons) || (← atEnd) then return none
  return some (done ++ [← command p])

theorem commandStep_run {p : Nested} {done : List Command} {ss : List Lexeme}
    (hss : ∀ l ∈ ss, isSemicolon l = true) (hls : ∀ l ∈ ls.head?, isSemicolon l = false) :
    commandStep p done (ss ++ ls) =
      if ss.isEmpty || ls.isEmpty then .ok (none, ls)
      else (do return some (done ++ [← command p])) ls := by
  refine (bind_run (semicolons_run hss hls)).trans ?_
  have hend : atEnd ls = .ok (ls.isEmpty, ls) := rfl
  refine (bind_run hend).trans ?_
  rw [Bool.not_not]
  split <;> rfl

theorem commands_eq (p : Nested) : commands p = (do
    let _ ← semicolons
    let first ← command p
    let all ← iterate (commandStep p) [first]
    if !(← atEnd) then unexpected
    return all) := rfl

def commandFollow : List Terminal := .DOT :: columnFollow ++ statementFollow

theorem parses_command (m : Nat) :
    Parses m (m + 1) (fun n => command (nested n)) stmt commandFollow := by
  have hcommand : Parses m (m + 1) (fun n => command (nested n)) (alt (seq CREATE _)
      (alt (seq DROP _) (alt (seq TRUNCATE _) (alt (seq ALTER _) cteBody)))) commandFollow :=
    .ifWord (Nat.le_succ _) rfl (parses_createTable.before (by decide))
      (.ifWord (Nat.le_succ _) rfl (parses_dropTable.before (by decide))
        (.ifWord (Nat.le_succ _) rfl (parses_truncate.before (by decide))
          (.ifWord (Nat.le_succ _) rfl (parses_alterTable.before (by decide))
            ((parses_statement (inner m)).map.before (by decide)) (by decide)) (by decide))
          (by decide)) (by decide)
  refine (hcommand.of_lang ?_).rule
  simp [rhs, lang_rule cteBody, lang_rule createTableStmt, lang_rule dropTableStmt,
    lang_rule truncateStmt, lang_rule alterTableStmt]
  ac_rfl

/-- The command that a statement is, with enough fuel. -/
def Commands (us : List Lexeme) (c : Command) : Prop :=
  Accepts us.length (fun n => command (nested n)) us (Clear commandFollow) c

theorem exists_commands {us : List Lexeme} (h : Derives stmt (us.map Lexeme.token)) :
    ∃ c, Commands us c :=
  (parses_command us.length).complete us (Nat.lt_succ_self _) h

theorem Commands.run {us : List Lexeme} {c : Command} (h : Commands us c) {n : Nat}
    (hn : us.length ≤ n) (hls : ∀ l ∈ ls.head?, isSemicolon l = true) :
    command (nested n) (us ++ ls) = .ok (c, ls) := by
  refine h n us ls hn (.refl us) ?_
  cases ls with
  | nil => exact .none
  | cons l ls =>
    rintro _ ⟨⟩ d hd hmatch
    have hsemi := isSemicolon_iff.mp (hls l rfl)
    exact absurd (hsemi.unique hmatch ▸ hd) (by decide)

/-- One command after the other is read, up to the end. -/
theorem exists_commandSteps {ls : List Lexeme} (hhead : ∀ l ∈ ls.head?, isSemicolon l = true)
    (hall : ∀ us ∈ segments ls, Derives stmt (us.map Lexeme.token)) :
    ∃ cs, List.Forall₂ Commands (segments ls) cs ∧ ∀ n fuel done, ls.length ≤ n →
      ls.length ≤ fuel.length →
        iterateOver (commandStep (nested n)) fuel done ls = .ok (done ++ cs, []) := by
  induction hlength : ls.length using Nat.strong_induction_on generalizing ls with
  | _ k ih =>
    subst hlength
    rcases segments_cases ls with ⟨hss, hnone⟩ | ⟨ss, us, ms, rfl, hss, hplain, hne, hms, hsegments⟩
    · refine ⟨[], hnone ▸ .nil, fun n fuel done hn hfuel => ?_⟩
      rw [List.append_nil]
      cases fuel with
      | nil =>
        obtain rfl := List.length_eq_zero_iff.mp (Nat.le_zero.mp hfuel)
        rfl
      | cons l fuel =>
        have hnil : ∀ l ∈ ([] : List Lexeme).head?, isSemicolon l = false := nofun
        have hstop : commandStep (nested n) done (ls ++ []) = _ := commandStep_run hss hnil
        rw [List.append_nil, if_pos (by simp)] at hstop
        exact bind_run hstop
    · rw [hsegments] at hall ⊢
      obtain ⟨hstmt, hrest⟩ := List.forall_mem_cons.mp hall
      obtain ⟨c, hc⟩ := exists_commands hstmt
      have hfirst : ∀ l ∈ (us ++ ms).head?, isSemicolon l = false := by
        cases us with
        | nil => exact absurd rfl hne
        | cons u us =>
          rintro _ ⟨⟩
          exact hplain _ List.mem_cons_self
      have hss' : ss ≠ [] := by
        rintro rfl
        obtain ⟨u, us, rfl⟩ := List.exists_cons_of_ne_nil hne
        exact absurd ((hhead u rfl).symm.trans (hfirst u rfl)) nofun
      simp only [List.length_append] at ih ⊢
      have hpos := List.length_pos_iff.mpr hss'
      obtain ⟨cs, hcs, hruns⟩ := ih ms.length (by omega) hms hrest rfl
      refine ⟨c :: cs, .cons hc hcs, fun n fuel done hn hfuel => ?_⟩
      cases fuel with
      | nil =>
        rw [List.length_nil] at hfuel
        omega
      | cons l fuel =>
        rw [List.length_cons] at hfuel
        have hstep : commandStep (nested n) done (ss ++ (us ++ ms)) = .ok (some (done ++ [c]), ms) := by
          rw [commandStep_run hss hfirst, if_neg (by simp [hss', hne])]
          exact bind_run (hc.run (by omega) hms)
        refine (bind_run hstep).trans ((hruns n fuel _ (by omega) (by omega)).trans ?_)
        rw [List.append_assoc, List.singleton_append]

/-- A text with statements is read as the commands that they are. -/
theorem exists_commandsRun {ls : List Lexeme} (hsome : segments ls ≠ [])
    (hall : ∀ us ∈ segments ls, Derives stmt (us.map Lexeme.token)) :
    ∃ cs, List.Forall₂ Commands (segments ls) cs ∧
      ∀ n, ls.length ≤ n → commands (nested n) ls = .ok (cs, []) := by
  rcases segments_cases ls with ⟨-, hnone⟩ | ⟨ss, us, ms, rfl, hss, hplain, hne, hms, hsegments⟩
  · exact absurd hnone hsome
  · rw [hsegments] at hall ⊢
    obtain ⟨hstmt, hrest⟩ := List.forall_mem_cons.mp hall
    obtain ⟨c, hc⟩ := exists_commands hstmt
    obtain ⟨cs, hcs, hruns⟩ := exists_commandSteps hms hrest
    refine ⟨c :: cs, .cons hc hcs, fun n hn => ?_⟩
    simp only [List.length_append] at hn
    have hfirst : ∀ l ∈ (us ++ ms).head?, isSemicolon l = false := by
      obtain ⟨u, us, rfl⟩ := List.exists_cons_of_ne_nil hne
      rintro _ ⟨⟩
      exact hplain _ List.mem_cons_self
    rw [commands_eq]
    refine (bind_run (semicolons_run hss hfirst)).trans ?_
    refine (bind_run (hc.run (by omega) hms)).trans ?_
    have hiterate : iterate (commandStep (nested n)) [c] ms = .ok (c :: cs, []) :=
      hruns n ms [c] (by omega) (Nat.le_refl _)
    exact bind_run hiterate

theorem commandSteps_sound {fuel : List Lexeme} {done all : List Command} {ls rest : List Lexeme}
    (hrun : iterateOver (commandStep (nested m)) fuel done ls = .ok (all, rest)) :
    ∃ us, ls = us ++ rest ∧ Derives (seq (star block) (star SEMI)) (us.map Lexeme.token) := by
  induction fuel generalizing done ls with
  | nil =>
    cases hrun
    exact ⟨[], rfl, Derives.seq .stop .stop⟩
  | cons l fuel ih =>
    obtain ⟨ss, ks, rfl, hss, hks⟩ := exists_beginning isSemicolon ls
    obtain ⟨o, ms, hstep, hrest⟩ := bind_ok hrun
    rw [commandStep_run hss hks] at hstep
    split at hstep
    case isTrue =>
      cases hstep
      cases hrest
      exact ⟨ss, rfl, Derives.seq .stop (derives_semicolons hss)⟩
    case isFalse hsome =>
      obtain ⟨c, ms', hc, ⟨⟩⟩ := bind_ok hstep
      obtain ⟨us, rfl, hus⟩ := (parses_command m).sound _ _ _ hc
      obtain ⟨vs, rfl, hvs⟩ := ih hrest
      obtain ⟨bs, rs, rfl, hbs, hrs⟩ := hvs.split
      have hss' : ss ≠ [] := by
        rintro rfl
        exact hsome rfl
      have hblock := (derives_plus_semicolons hss hss').append hus
      have htokens : (ss ++ us ++ bs ++ rs).map Lexeme.token =
          (ss ++ us).map Lexeme.token ++ bs.map Lexeme.token ++ rs.map Lexeme.token := by simp
      refine ⟨ss ++ us ++ bs ++ rs, by simp, ?_⟩
      rw [htokens]
      exact (Derives.more hblock hbs).seq hrs

theorem commands_sound {cs : List Command} {ls rest : List Lexeme}
    (hrun : commands (nested m) ls = .ok (cs, rest)) :
    rest = [] ∧ Derives start (ls.map Lexeme.token) := by
  obtain ⟨ss, ks, rfl, hss, hks⟩ := exists_beginning isSemicolon ls
  rw [commands_eq] at hrun
  obtain ⟨c, ms, hc, hmore⟩ := bind_ok ((bind_run (semicolons_run hss hks)).symm.trans hrun)
  obtain ⟨us, rfl, hus⟩ := (parses_command m).sound _ _ _ hc
  obtain ⟨all, rs, hall, hend⟩ := bind_ok hmore
  obtain ⟨vs, rfl, hvs⟩ := commandSteps_sound hall
  cases rs with
  | cons r rs => cases hend
  | nil =>
    cases hend
    have hstart : Derives (seq (star SEMI) (seq stmt (seq (star block) (star SEMI))))
        ((ss ++ (us ++ (vs ++ []))).map Lexeme.token) :=
      (derives_semicolons hss).append (hus.append (by simpa using hvs))
    exact ⟨rfl, lang_start.ge hstart⟩

end Runs

end SqlTree.Syntax.Parser
