import SqlTree.Proofs.Conditions.Selection
import SqlTree.Proofs.Ensures
import SqlTree.Proofs.Grammar.Names
import SqlTree.Proofs.Identifiers.Parts
import SqlTree.Proofs.Lexing

/-!
Identifiers that are written and read again: the text of an identifier is a column, and its names
are the parts of the identifier, unless a line break ends the last one.
-/

namespace SqlTree

open Grammar (Derives Rule Rhs Terminal)
open Lexer (Lexed Spells nameToken)
open Render (namePart nameText)
open Syntax (Name Path Reads Tree)
open Syntax.Parser

section Names

/-- The parts that the names of an identifier are given by. -/
def identParts (name : String) : List String := Text.parts Render.isPathSeparator name

/-- A line break ends the last part, behind a word and not behind a star. -/
def endsInBreak (name : String) : Bool :=
  (Text.splitAt Render.isPathSeparator name.toList).getLast?.any fun cs =>
    cs.getLast? = some '\n' && cs != ['*', '\n']

/-- The names that a column is read as. -/
def columnNames? : Value → Option (List String)
  | .text t => some (Text.parts (· = '.') t)
  | .list [.text "entity", .text t] => some (Text.parts (· = '.') t)
  | _ => none

/-- The text is a column for the lexer and the grammar, and a selection reads its names. -/
def ReadAs (text : String) (names : List String) : Prop :=
  ∃ ls p, Lexer.Cuts [] text.toList ls ∧ PathSpelled p (ls.map Lexeme.token) ∧
    Derives Rule.columnRef (ls.map Lexeme.token) ∧ p.map Name.content = names ∧
    parse defaultParseDepth ("SELECT " ++ text ++ " FROM t") =
      .ok (.map [(.text "select", .list [p.value]), (.text "from", .text "t")]) ∧
    columnNames? p.value = some names

variable {s : Settings} {name text : String}

theorem isPath_not_hyphen {b : Bool} {cs : List Char} (h : Identifier.isPath b cs = true) :
    '-' ∉ cs := by
  induction cs generalizing b with
  | nil => exact List.not_mem_nil
  | cons c cs ih =>
    rw [List.mem_cons, not_or]
    cases b with
    | true =>
      rw [Identifier.isPath, Bool.and_eq_true] at h
      refine ⟨?_, ih h.2⟩
      rintro rfl
      exact absurd h.1 (by decide)
    | false =>
      rw [Identifier.isPath.eq_def] at h
      dsimp only at h
      split at h
      · next hc =>
        refine ⟨?_, ih h⟩
        rintro rfl
        exact absurd hc (by decide)
      split at h
      · next hslash => exact ⟨by rintro rfl; exact absurd hslash (by decide), ih h⟩
      split at h
      · next hdot =>
        refine ⟨by rintro rfl; exact absurd hdot (by decide), ?_⟩
        split at h
        · rw [Identifier.atEnd, Bool.or_eq_true, List.isEmpty_iff, beq_iff_eq] at h
          rcases h with rfl | rfl <;> decide
        · exact ih h
      · rw [Bool.and_eq_true, decide_eq_true_eq, List.isEmpty_iff] at h
        obtain ⟨rfl, rfl⟩ := h
        decide

theorem snakeCase_ident (hident : Identifier.isIdentText name = true)
    (hpercent : Render.startsWithPercent name = false) : Identifier.snakeCase name = name := by
  have hnot : '-' ∉ name.toList := by
    unfold Identifier.isIdentText at hident
    split at hident
    · next hstar =>
      rw [hstar]
      decide
    · next hcall => simp [Render.startsWithPercent, hcall] at hpercent
    · exact isPath_not_hyphen hident
  have hmap : (name.toList.map fun c => if c = '-' then '_' else c) = name.toList := by
    refine (List.map_congr_left fun c hc => if_neg ?_).trans (List.map_id' _)
    rintro rfl
    exact hnot hc
  rw [Identifier.snakeCase, hmap, String.ofList_toList]

theorem exists_written (hident : Identifier.isIdentText name = true)
    (hpercent : Render.startsWithPercent name = false) (h : nameText s name = .ok text) :
    ∃ ws, List.Forall₂ (fun q w => namePart s q = .ok w) (identParts name) ws ∧ text = dotted ws := by
  rw [nameText, snakeCase_ident hident hpercent, ite_self] at h
  cases hws : (identParts name).mapM (namePart s) with
  | error e =>
    rw [← identParts, hws] at h
    cases h
  | ok ws =>
    have hall : Meets (fun _ => True) (List.Forall₂ (fun q w => namePart s q = .ok w)
        (identParts name)) ((identParts name).mapM (namePart s)) :=
      .mapM fun q _ => .of_forall (fun _ h => h) fun _ _ => trivial
    rw [← identParts, hws] at h
    exact ⟨ws, hall.of_ok hws, (Except.ok.inj h).symm⟩

end Names

section Tokens

variable {ws qs : List String}

theorem exists_names (hws : List.Forall₂ PartRead ws qs) :
    ∃ us ns, List.Forall₂ NameSpells ws us ∧ List.Forall₂ (fun n u => nameOf? u = some n) ns us ∧
      ns.map Name.content = qs := by
  induction hws with
  | nil => exact ⟨[], [], .nil, .nil, rfl⟩
  | cons h _ ih =>
    obtain ⟨u, m, hu, hm, rfl⟩ := h
    obtain ⟨us, ns, hus, hns, rfl⟩ := ih
    exact ⟨u :: us, m :: ns, .cons hu hus, .cons hm hns, rfl⟩

/-- Texts that are names by themselves are one path. -/
theorem exists_pathSpelled {w q : String} (h : PartRead w q) (hws : List.Forall₂ PartRead ws qs) :
    ∃ p ts, Spells (dotted (w :: ws)) ts ∧ PathSpelled p ts ∧ p.map Name.content = q :: qs := by
  obtain ⟨t, n, hs, hn, rfl⟩ := h
  obtain ⟨us, ns, hus, hns, rfl⟩ := exists_names hws
  exact ⟨n :: ns, _, spells_namePath hs hus, .mk hn hns, rfl⟩

theorem derives_columnRef {p : Path} {ts : List Token} (h : PathSpelled p ts) :
    Derives Rule.columnRef ts := by
  have hname : ∀ {t : Token} {n : Name}, nameOf? t = some n → Derives Rule.ident [t] :=
    fun ht => derives_ident_iff.mpr ⟨_, rfl, by rw [ht]; rfl⟩
  cases h with
  | @mk n ns t us ht hus =>
    have htail : Derives (.star (.seqs [Terminal.DOT, Rule.ident]))
        ((us.map ([·])).flatMap (.symbol "." :: ·)) := by
      induction hus with
      | nil => exact .stop
      | cons hu _ ih =>
        have hdot : Derives Terminal.DOT [Token.symbol "."] :=
          .token (by simp [Terminal.Matches, Terminal.signs])
        exact .more (.seq hdot (.seq (hname hu) .empty)) ih
    refine .rule ?_
    have hall := Derives.seq (hname ht) (.seq htail .empty)
    simpa [Grammar.rhs, Rhs.seqs] using hall

theorem starless_spelled {p : Path} {ts : List Token} (h : PathSpelled p ts) : Starless ts := by
  cases h with
  | @mk n ns t us ht hus =>
    intro ls rest hls hr
    induction hus generalizing n t ls with
    | nil =>
      obtain ⟨l, rfl, -⟩ := List.map_eq_singleton_iff.mp hls
      refine startsStar_of_not_dot fun hdot => ?_
      exact absurd (hr _ hdot) (Nat.lt_irrefl 0)
    | @cons m u ms us hu _ ih =>
      obtain ⟨⟨_, _⟩, ms, rfl, rfl, hms⟩ := List.map_eq_cons_iff.mp hls
      obtain ⟨⟨_, _⟩, ns, rfl, rfl, hns⟩ := List.map_eq_cons_iff.mp hms
      have htail := ih hu ns hns
      obtain ⟨⟨_, v⟩, ks, rfl, rfl, -⟩ := List.map_eq_cons_iff.mp hns
      rw [List.cons_append] at htail
      have hstar : (v == Token.symbol "*") = false := by
        cases v <;> first | rfl | cases hu
      rw [List.cons_append, List.cons_append, List.cons_append, startsStar, htail, hstar,
        Bool.or_false, Bool.and_false]

end Tokens

section Selection

variable {p : Path} {ts : List Token} {n : Nat}

/-- The syntax tree of a selection of one column. -/
def columnSelect (p : Path) : Tree .select :=
  .select .absent (.ofList [.item (.column p)])
    (.ofList [.source (.relation [⟨"t", false⟩] none) .nil]) .absent .nil .absent

theorem columnItem_takes (h : PathSpelled p ts) (hn : ts.length ≤ n) :
    Takes (selectItem (nested n)) ts (OrSign "," (Closes 0)) (.item (.column p) = ·) := by
  have hexpr : Takes (expression (nested n)) ts (Ends 10) (· = .column p) :=
    (Condition.Written.whole (.term (.factor (.column h)))).takes n hn
  have hstar : ∀ o, isSymbol "*" (ahead ts o) = false := by
    cases h with
    | @mk _ _ t _ ht _ =>
      intro o
      cases t <;> first | rfl | cases ht
  rw [← List.append_nil ts]
  refine selectItem_takes hstar (starless_spelled h) (fun _ ho => ho.mono (Nat.zero_le _))
    (fun o ho => ho.ends) hexpr ?_
  rintro _ rfl
  refine (aliasName_absent fun o ho => ⟨ho.isName, ho.isKeyword (by decide)⟩).andThen ?_
    fun o ho => ho
  rintro _ rfl
  exact .pure rfl

theorem columnSelect_takes (h : PathSpelled p ts) (hn : ts.length ≤ n) :
    Takes (select (nested n)) (ts ++ [nameToken "FROM", nameToken "t"]) (Closes 5)
      (· = columnSelect p) := by
  have hstarts : ∀ o, ∀ w ∈ otherStarts,
      isKeyword w (ahead (ts ++ [nameToken "FROM", nameToken "t"]) o) = false := by
    have hfree : ∀ w ∈ otherStarts, w ∉ Token.unreserved := by decide
    intro o w hw
    cases h with
    | @mk _ _ t _ ht _ =>
      cases t with
      | keyword v text =>
        have hv : v ∈ Token.unreserved := by
          by_contra hv
          simp [nameOf?, hv] at ht
        exact decide_eq_false fun hvw => hfree w hw (hvw ▸ hv)
      | _ => rfl
  refine (distinct_takes false).nothing_bind ?_ fun o _ => hstarts o
  rintro _ rfl
  have hitems : Takes (selectItems (nested n)) ts (Closes 0)
      (List.Forall₂ Eq [.item (.column p)]) :=
    commas_takes (fun o (ho : Closes 0 o) => ho.isSymbol (by decide)) (List.cons_ne_nil _ [])
      (.cons (columnItem_takes h hn) .nil)
  have hclose : ∀ o, Closes 5 o → Closes 0 (ahead [nameToken "FROM", nameToken "t"] o) := by
    rintro o _ _ ⟨⟩
    decide
  refine hitems.bind ?_ hclose
  rintro _ (_ | ⟨rfl, _ | _⟩)
  refine fromLone_takes.andThen ?_ fun _ ho => ho.mono (by decide)
  rintro _ rfl
  refine (optional_none fun o (ho : Closes 5 o) => ho.isKeyword (by decide)).andThen ?_ fun _ ho => ho
  rintro _ rfl
  refine (optional_none fun o (ho : Closes 5 o) => ho.isKeyword (by decide)).andThen ?_ fun _ ho => ho
  rintro _ rfl
  refine (optional_none fun o (ho : Closes 5 o) => ho.isKeyword (by decide)).map ?_
  rintro _ rfl
  rfl

/-- The statement of a selection of one column. -/
def columnStatement (p : Path) : Syntax.Statement :=
  .queryStatement (.query .absent (.selectBody (columnSelect p)) .nil .nil none)

theorem columnStatement_read (p : Path) :
    Syntax.readAll defaultParseDepth [.statement (columnStatement p)] =
      .ok [.map [(.text "select", .list [p.value]), (.text "from", .text "t")]] := rfl

theorem parse_selection {w : String} (hw : Spells w ts) (h : PathSpelled p ts) :
    parse defaultParseDepth ("SELECT " ++ w ++ " FROM t") =
      .ok (.map [(.text "select", .list [p.value]), (.text "from", .text "t")]) := by
  have hspells : Spells ("SELECT " ++ w ++ " FROM t")
      (nameToken "SELECT" :: (ts ++ [nameToken "FROM", nameToken "t"])) := by
    have hall := (((Lexer.spells_word (t := "SELECT") rfl).space hw).space
      (Lexer.spells_word (t := "FROM") rfl)).space (Lexer.spells_word (t := "t") rfl)
    simpa [String.append_assoc] using hall
  have hblank : isBlankText ("SELECT " ++ w ++ " FROM t") = false := by simp [isBlankText]
  obtain ⟨ls, hls, htokens⟩ := hspells.lex
  have hlen : ts.length ≤ ls.length := by
    have hlength := congrArg List.length htokens
    simp only [List.length_map, List.length_cons, List.length_append, List.length_nil] at hlength
    omega
  have htake := commands_of_command (fun _ => rfl) (command_takes_select (columnSelect_takes h hlen))
  obtain ⟨_, hcs, _, rfl, _, rfl, rfl⟩ := htake ls [] htokens rfl
  rw [List.append_nil] at hcs
  have hcommands : Syntax.commandsOf ("SELECT " ++ w ++ " FROM t") =
      .ok [.statement (columnStatement p)] := commandsOf_of_lex hls hcs
  rw [parse, parseAll, hblank, if_neg Bool.false_ne_true, hcommands]
  rfl

/-- Names without points are the parts of the column's text. -/
theorem columnNames_value {n : Name} {ns : Path}
    (h : ∀ k ∈ n :: ns, '.' ∉ k.content.toList) :
    columnNames? (Path.value (n :: ns)) = some ((n :: ns).map Name.content) := by
  have hparts : Text.parts (· = '.') (Path.text (n :: ns)) = (n :: ns).map Name.content := by
    refine parts_intercalate rfl fun q hq c hc => ?_
    rw [← List.map_cons] at hq
    obtain ⟨k, hk, rfl⟩ := List.mem_map.mp hq
    rw [decide_eq_false_iff_not]
    rintro rfl
    exact h k hk hc
  rw [← hparts]
  unfold Path.value
  split <;> rfl

end Selection

section Breaks

theorem content_of_nameToken {w : String} {n : Name} (h : nameOf? (nameToken w) = some n) :
    n.content = w := by
  unfold nameToken at h
  dsimp only at h
  split at h
  · obtain ⟨-, hn⟩ := Option.ite_none_right_eq_some.mp h
    rw [← Option.some.inj hn]
    rfl
  · cases h
    rfl

theorem forall₂_of_pathSpelled {p : Path} {t : Token} {us : List Token}
    (h : PathSpelled p (t :: (us.map ([·])).flatMap (.symbol "." :: ·))) :
    List.Forall₂ (fun n u => nameOf? u = some n) p (t :: us) := by
  generalize hts : t :: (us.map ([·])).flatMap (.symbol "." :: ·) = ts at h
  cases h with
  | @mk n ns t' us' ht hus =>
    obtain ⟨rfl, htail⟩ := List.cons.inj hts
    refine .cons ht ?_
    have heq : us = us' := by
      clear hts hus
      induction us generalizing us' with
      | nil =>
        cases us' with
        | nil => rfl
        | cons => cases htail
      | cons u us ih =>
        cases us' with
        | nil => cases htail
        | cons v vs =>
          simp only [List.map_cons, List.flatMap_cons, List.cons_append, List.nil_append,
            List.cons.injEq, true_and] at htail
          rw [htail.1, ih htail.2]
    exact heq ▸ hus

theorem lexed_break : Lexed ['\n'] [] := by
  intro gap n hn
  obtain ⟨n, rfl⟩ : ∃ k, n = k + 1 := ⟨n - 1, by simp at hn; omega⟩
  refine ⟨[], ?_, rfl⟩
  rw [Lexer.lexUpTo_cons_skip (Lexer.firstMatch_spaces rfl [])]
  cases n <;> rfl

theorem toList_dotted_broken (ws : List String) (cs : List Char) :
    (dotted (ws ++ [brokenPart cs])).toList =
      (dotted (ws ++ [String.ofList cs])).toList ++ ['\n'] := by
  induction ws with
  | nil => simp [dotted, brokenPart]
  | cons w ws ih =>
    rcases ws with - | ⟨v, vs⟩
    · simp [dotted, brokenPart]
    · have htail : (dotted (v :: (vs ++ [brokenPart cs]))).toList =
          (dotted (v :: (vs ++ [String.ofList cs]))).toList ++ ['\n'] := ih
      simp only [List.cons_append, toList_dotted_cons_cons, htail, List.append_assoc]

/-- A text whose last name has a line break behind it names something else. -/
theorem not_readAs_broken {ws qs : List String} {cs : List Char} (hws : List.Forall₂ PartRead ws qs)
    (hcs : IsPart true cs) :
    ¬ ReadAs (dotted (ws ++ [brokenPart cs])) (qs ++ [brokenPart cs]) := by
  rintro ⟨ls, p, hcuts, hspelled, -, hcontents, -⟩
  have hword : IsPlainWord (String.ofList cs) := IsPart.plainWord (by simpa using hcs)
  obtain ⟨ts, -, hts, -, -⟩ := exists_names hws
  have hall : List.Forall₂ NameSpells (ws ++ [String.ofList cs])
      (ts ++ [nameToken (String.ofList cs)]) :=
    List.rel_append hts (.cons hword.nameSpells .nil)
  -- the break is skipped, so the last token is the word alone
  have hnames : List.Forall₂ (fun n u => nameOf? u = some n) p
      (ts ++ [nameToken (String.ofList cs)]) := by
    have hlexed : ∃ t us, ts ++ [nameToken (String.ofList cs)] = t :: us ∧
        Lexed (dotted (ws ++ [brokenPart cs])).toList
          (t :: (us.map ([·])).flatMap (.symbol "." :: ·)) := by
      rw [toList_dotted_broken]
      obtain ⟨x, xs, hxs⟩ := List.exists_cons_of_ne_nil (l := ws ++ [String.ofList cs]) (by simp)
      rw [hxs] at hall ⊢
      generalize ts ++ [nameToken (String.ofList cs)] = vs at hall ⊢
      cases hall with
      | cons hx hxs =>
        refine ⟨_, _, rfl, ?_⟩
        have hlexed := lexed_namePath hx hxs (by simp; decide) lexed_break
        rwa [List.append_nil] at hlexed
    obtain ⟨t, us, htokens, hlexed⟩ := hlexed
    obtain ⟨ls', hls', hmap⟩ := hlexed.lex
    rw [Lexer.cuts_iff_lex, hls', Prod.mk.injEq] at hcuts
    obtain ⟨rfl, -⟩ := hcuts
    rw [hmap] at hspelled
    exact htokens ▸ forall₂_of_pathSpelled hspelled
  rw [← List.forall₂_reverse_iff, List.reverse_append, List.reverse_singleton,
    List.singleton_append] at hnames
  have hlast := congrArg List.reverse hcontents
  rw [← List.map_reverse, List.reverse_append, List.reverse_singleton,
    List.singleton_append] at hlast
  generalize p.reverse = ns at hnames hlast
  cases hnames with
  | cons hn _ =>
    have hcontent := (content_of_nameToken hn).symm.trans (List.cons.inj hlast).1
    have hlength := congrArg String.length hcontent
    simp [brokenPart] at hlength

end Breaks

section Identifiers

variable {s : Settings} {name text : String}

theorem endsInBreak_eq_false
    (h : ∀ cs ∈ Text.splitAt Render.isPathSeparator name.toList, IsPart true cs ∨ cs = ['*', '\n']) :
    endsInBreak name = false := by
  rw [endsInBreak]
  cases hlast : (Text.splitAt Render.isPathSeparator name.toList).getLast? with
  | none => rfl
  | some cs =>
    rcases h cs (List.mem_of_getLast? hlast) with hcs | rfl
    · have hbreak : cs.getLast? ≠ some '\n' := fun heq =>
        absurd (hcs.1 _ (List.mem_of_getLast? heq)) (by decide)
      simp [hbreak]
    · rfl

theorem endsInBreak_eq_true {ws : List (List Char)} {w : List Char}
    (h : Text.splitAt Render.isPathSeparator name.toList = ws ++ [w ++ ['\n']])
    (hw : IsPart true w) : endsInBreak name = true := by
  have hstar : w ++ ['\n'] ≠ ['*', '\n'] := by
    intro heq
    obtain rfl : w = ['*'] := (List.append_left_inj _).mp heq
    exact absurd (hw.1 '*' (by simp)) (by decide)
  simp [endsInBreak, h, hstar]

/-- The names of a path that is written are its parts. -/
theorem readAs_of_partRead {ws qs : List String} (hws : List.Forall₂ PartRead ws qs)
    (hne : qs ≠ []) (hdot : ∀ q ∈ qs, '.' ∉ q.toList) : ReadAs (dotted ws) qs := by
  cases hws with
  | nil => exact absurd rfl hne
  | cons hw hws =>
    obtain ⟨p, ts, hspells, hp, hcontents⟩ := exists_pathSpelled hw hws
    obtain ⟨n, ns, rfl⟩ : ∃ n ns, p = n :: ns := by
      cases hp
      exact ⟨_, _, rfl⟩
    rw [← hcontents] at hdot ⊢
    have hnames := columnNames_value fun k hk => hdot _ (List.mem_map_of_mem hk)
    obtain ⟨ls, hls, rfl⟩ := hspells.lex
    exact ⟨ls, _, Lexer.cuts_iff_lex.mpr hls, hp, derives_columnRef hp, rfl,
      parse_selection hspells hp, hnames⟩

theorem forall₂_partRead {ws qs : List String}
    (hws : List.Forall₂ (fun q w => namePart s q = .ok w) qs ws)
    (h : ∀ q ∈ qs, ∀ w, namePart s q = .ok w → PartRead w q) : List.Forall₂ PartRead ws qs :=
  (((List.forall₂_and_left _ _).mpr ⟨h, hws⟩).imp fun _ w hq => hq.1 w hq.2).flip

/-- The text of an identifier names its parts, unless its last part is a word with a line break
behind it and nothing is put in quotes that need not be. -/
theorem readAs_of_nameText_iff (hs : s.dialect = .postgres)
    (hident : Identifier.isIdentText name = true)
    (hpercent : Render.startsWithPercent name = false) (hstar : name ≠ "*")
    (hend : ¬ ['.', '*'] <:+ name.toList) (h : nameText s name = .ok text) :
    ReadAs text (identParts name) ↔ s.quoted = true ∨ endsInBreak name = false := by
  obtain ⟨ws, hws, rfl⟩ := exists_written hident hpercent h
  have hparts := identParts_of_isPath (Identifier.isIdentText_eq_isPath hpercent hstar ▸ hident) hend
  have hne : identParts name ≠ [] := by
    intro hnil
    rw [identParts, Text.parts, List.map_eq_nil_iff] at hnil
    rw [hnil] at hparts
    cases hparts
  have hdot : ∀ q ∈ identParts name, '.' ∉ q.toList := by
    intro q hq
    obtain ⟨cs, hcs, rfl⟩ := List.mem_map.mp hq
    intro hmem
    rw [String.toList_ofList] at hmem
    exact absurd (Text.not_separator_of_mem hcs _ hmem) (by decide)
  rcases hparts.cases rfl with hall | ⟨us, w, hsplit, hus, hw⟩
  · refine iff_of_true (readAs_of_partRead (forall₂_partRead hws fun q hq u hu => ?_) hne hdot)
      (.inr (endsInBreak_eq_false hall))
    obtain ⟨cs, hcs, rfl⟩ := List.mem_map.mp hq
    rcases hall cs hcs with hpart | rfl
    · exact (IsPart.plainWord (by simpa using hpart)).partRead hs hu
    · exact partRead_brokenStar hs hu
  have hsplit' : identParts name = us.map String.ofList ++ [brokenPart w] := by
    rw [identParts, Text.parts, hsplit, List.map_append]
    rfl
  rw [endsInBreak_eq_true hsplit hw]
  have hwords : ∀ q ∈ us.map String.ofList, IsPlainWord q := by
    intro q hq
    obtain ⟨cs, hcs, rfl⟩ := List.mem_map.mp hq
    exact IsPart.plainWord (by simpa using hus cs hcs)
  by_cases hquoted : s.quoted = true
  · refine iff_of_true (readAs_of_partRead (forall₂_partRead hws fun q hq u hu => ?_) hne hdot)
      (.inl hquoted)
    refine partRead_of_quoted hs hquoted ?_ hu
    rw [hsplit'] at hq
    rcases List.mem_append.mp hq with hq | hq
    · exact (hwords q hq).ne_star
    · rw [List.mem_singleton.mp hq]
      intro hstar
      have hbreak : '\n' ∈ (brokenPart w).toList := by simp [brokenPart]
      rw [hstar] at hbreak
      exact absurd hbreak (by decide)
  · refine iff_of_false ?_ (by simp [hquoted])
    rw [hsplit'] at hws ⊢
    obtain ⟨vs, hvs, u, hu, rfl⟩ : ∃ vs, List.Forall₂ (fun q w => namePart s q = .ok w)
        (us.map String.ofList) vs ∧ ∃ u, namePart s (brokenPart w) = .ok u ∧ ws = vs ++ [u] := by
      obtain ⟨vs, _, rfl, hvs, hlast⟩ := forall₂_append_left hws
      obtain ⟨u, _, hu, hnil, rfl⟩ := List.forall₂_cons_left_iff.mp hlast
      rw [List.forall₂_nil_left_iff.mp hnil]
      exact ⟨vs, hvs, u, hu, rfl⟩
    obtain rfl := namePart_broken hw hs (Bool.eq_false_iff.mpr hquoted) hu
    exact not_readAs_broken (forall₂_partRead hvs fun q hq _ => (hwords q hq).partRead hs) hw

theorem readAs_reserved : ReadAs "a.\"order\".b" (identParts "a.order/b") ↔
    (false = true ∨ endsInBreak "a.order/b" = false) :=
  @readAs_of_nameText_iff (.inlining 10 0 []) "a.order/b" _ rfl rfl rfl (by decide) (by decide) rfl

/-- The break behind a reserved word keeps it out of quotes. -/
theorem broken_name_unread :
    Identifier.isIdentText "order\n" = true ∧
      (nameText (.inlining 10 0 []) "order\n").toOption = some "order\n" ∧
      (parse defaultParseDepth ("SELECT " ++ "order\n" ++ " FROM t")).toOption.isSome = false := by
  decide +kernel

end Identifiers

end SqlTree
