import SqlTree.Proofs.RoundTrip.Blocks
import SqlTree.Proofs.Placeholders
import SqlTree.Parse

/-! Canonical queries come back from their text as they were written. -/

namespace SqlTree

open Syntax (Reads headed untyped)
open Lexer (Spells)
open Render (Gives)

namespace Syntax.Parser

variable {es : Entries} {ts : List Token} {s : String}

theorem atEnd_takes : Takes atEnd [] (· = none) (· = true) := by
  intro ls rest hls hr
  obtain rfl := List.map_eq_nil_iff.mp hls
  cases rest with
  | nil => exact ⟨true, rfl, rfl⟩
  | cons => cases hr

theorem takes_end {p : Nested} {cs : List Command} : Takes (do
      if !(← semicolons) || (← atEnd) then return none
      return some (cs ++ [← command p])) [] (· = none) (· = none) := by
  have hsemicolons : Takes semicolons [] (· = none) (· = false) :=
    Iterates.takes (.stop (.noSymbol (by rintro _ rfl; rfl) (.pure rfl)) rfl)
  refine hsemicolons.andThen ?_ fun _ ho => ho
  rintro _ rfl
  refine atEnd_takes.andThen ?_ fun _ ho => ho
  rintro _ rfl
  exact .pure rfl

/-- What a text holds that is one command. -/
theorem commands_of_command {p : Nested} {post : Command → Prop}
    (hsemicolon : ∀ o, isSymbol ";" (ahead ts o) = false)
    (h : Takes (command p) ts (· = none) post) :
    Takes (commands p) ts (· = none) fun cs => ∃ c, cs = [c] ∧ post c := by
  have hnone : Takes semicolons [] (isSymbol ";" · = false) (· = false) :=
    Iterates.takes (.stop (.noSymbol (fun _ ho => ho) (.pure rfl)) rfl)
  refine hnone.nothing_bind (fun _ _ => ?_) fun o _ => hsemicolon o
  refine h.andThen (fun c hc => ?_) fun _ ho => ho
  have hall : Takes (iterate (fun done => do
      if !(← semicolons) || (← atEnd) then return none
      return some (done ++ [← command p])) [c]) [] (· = none) (· = [c]) :=
    Iterates.takes (.stop takes_end rfl)
  refine hall.andThen ?_ fun _ ho => ho
  rintro _ rfl
  refine atEnd_takes.andThen ?_ fun _ ho => ho
  rintro _ rfl
  exact .pure ⟨c, rfl, hc⟩

theorem QueryStart.not_semicolon {o : Option Token} (h : QueryStart o) : isSymbol ";" o = false := by
  rcases h with hwith | hbody
  · match o with
    | some (.keyword _ _) => rfl
  · exact hbody.isSymbol (by decide)

/-- A clause map is rendered to these tokens, and read from them as the one command of a text. -/
structure Commanded (es : Entries) (ts : List Token) : Prop where
  form : Form.ofEntries Registry.standard.clauseOrder es = .clause
  writes : ∃ f, Gives (Value.map es).height (fun r s => Render.statement r s false es) f ∧
    Spells f.inlineSql ts
  command : ∀ n, ts.length ≤ n → Takes (command (nested n)) ts (· = none)
    fun c => ∃ q, c = .statement q ∧ AgreesMap q.read es
  starts : ∀ o, isSymbol ";" (ahead ts o) = false

/-- A statement that starts with none of the words of other commands is a command. -/
theorem command_of_statement {p : Nested} {post : Statement → Prop}
    (hkeyword : ∀ w ∈ ["create", "drop", "truncate", "alter"], ∀ o,
      isKeyword w (ahead ts o) = false)
    (h : Takes (statement p) ts (· = none) post) :
    Takes (command p) ts (· = none) fun c => ∃ q, c = .statement q ∧ post q := by
  refine .noKeyword (fun o _ => hkeyword "create" (by decide) o) ?_
  refine .noKeyword (fun o _ => hkeyword "drop" (by decide) o) ?_
  refine .noKeyword (fun o _ => hkeyword "truncate" (by decide) o) ?_
  refine .noKeyword (fun o _ => hkeyword "alter" (by decide) o) ?_
  exact h.map fun q hq => ⟨q, rfl, hq⟩

theorem Queried.commanded (h : Queried es ts) : Commanded es ts where
  form := h.form
  writes := h.writes false
  command n hn := by
    refine command_of_statement (fun w hw o => ?_) ((h.statement n hn).before ?_)
    · have hquery : ∀ w ∈ ["create", "drop", "truncate", "alter"], w ≠ "select" ∧ w ≠ "with" := by
        decide
      exact (h.starts o).isKeyword (hquery w hw).1 (hquery w hw).2
    · rintro _ rfl _ ⟨⟩
  starts o := (h.starts o).not_semicolon

theorem lex_semicolon (cs : List Char) : next (Lexer.lex (';' :: cs)).1 = some (.symbol ";") := by
  have hm : Lexer.firstMatch (';' :: cs) = some (1, some .symbol) := rfl
  simp [Lexer.lex, Lexer.lexUpTo, hm]

theorem not_blank_of_spells (hfirst : isSymbol ";" (ahead ts none) = false) (hs : Spells s ts) :
    isBlankText s = false := by
  obtain ⟨c, cs, hc, hspace⟩ := hs.exists_cons
  obtain ⟨ls, hls, htokens⟩ := hs.lex
  have hsemicolon : c ≠ ';' := by
    rintro rfl
    have hnext := lex_semicolon cs
    have hahead : next (ls ++ []) = ahead ts none := next_append htokens []
    rw [← hc, hls] at hnext
    rw [List.append_nil, hnext] at hahead
    rw [← hahead] at hfirst
    cases hfirst
  simp only [Lexer.isSpace, Bool.or_eq_false_iff, decide_eq_false_iff_not] at hspace
  rw [isBlankText, hc, List.all_cons]
  simp [hspace, hsemicolon]

theorem Commanded.not_blank (h : Commanded es ts) (hs : Spells s ts) : isBlankText s = false :=
  not_blank_of_spells (h.starts none) hs

theorem commandsOf_of_lex {ls : List Lexeme} {c : Command} (hlex : Lexer.lex s.toList = (ls, []))
    (hcommands : commands (nested ls.length) ls = .ok ([c], [])) :
    Syntax.commandsOf s = .ok [c] := by
  simp only [Syntax.commandsOf, hlex, hcommands]

/-- The text of a command is read as one. -/
theorem Commanded.commandsOf (h : Commanded es ts) (hs : Spells s ts) :
    ∃ q : Statement, commandsOf s = .ok [.statement q] ∧ AgreesMap q.read es := by
  obtain ⟨ls, hls, htokens⟩ := hs.lex
  have hlen : ts.length = ls.length := by rw [← htokens, List.length_map]
  have htake := commands_of_command h.starts (h.command _ (Nat.le_of_eq hlen))
  obtain ⟨_, hcs, _, rfl, q, rfl, hq⟩ := htake ls [] htokens rfl
  rw [List.append_nil] at hcs
  exact ⟨q, commandsOf_of_lex hls hcs, hq⟩

end Syntax.Parser

open Syntax.Parser

/-- The text of one command is parsed as what the command is read as, where the limit on the depth
is high enough. -/
theorem parse_of_reads {s : String} {q : Syntax.Statement} {es : Entries} (hblank : isBlankText s = false)
    (hcommands : Syntax.commandsOf s = .ok [.statement q]) (h : Reads q.read es) :
    ∃ levels : Nat, ∀ maxDepth : Int, levels ≤ maxDepth → parse maxDepth s = .ok (.map es) := by
  obtain ⟨levels, hlevels⟩ := Reads.visitAll (.cons h.toMap .nil)
  refine ⟨levels, fun maxDepth hdepth => ?_⟩
  have hread : Syntax.readAll maxDepth [.statement q] = .ok [.map es] :=
    hlevels ⟨maxDepth, 0⟩ (by simpa using hdepth)
  have hparse : parseAll maxDepth s = .ok [.map es] := by
    rw [parseAll, hblank, if_neg (by decide), hcommands]
    exact hread
  rw [SqlTree.parse, hparse]
  rfl

theorem Syntax.Parser.Commanded.parse {es : Entries} {ts : List Token} {s : String}
    (h : Commanded es ts) (hs : Spells s ts) : ∃ levels : Nat, ∀ maxDepth : Int, levels ≤ maxDepth →
      ∃ w, parse maxDepth s = .ok w ∧ w.same (.map es) = true := by
  obtain ⟨q, hcommands, fs, hq, hsame⟩ := h.commandsOf hs
  obtain ⟨levels, hlevels⟩ := parse_of_reads (h.not_blank hs) hcommands hq
  exact ⟨levels, fun maxDepth hdepth => ⟨_, hlevels maxDepth hdepth, hsame.same⟩⟩

theorem isStatement_of_clause {clauses : List String} {es : Entries}
    (h : Form.ofEntries clauses es = .clause) : isStatement es = true := by
  unfold Form.ofEntries at h
  split at h
  · cases h
  split at h
  · cases h
  split at h
  · cases h
  split at h
  · cases h
  split at h
  · cases h
  next hraw hparam hlift hliteral htyped =>
  have hwrap : Form.wrapperKeys.any (Entries.hasField es ·) = false := by
    simp [Form.wrapperKeys, hraw, hparam, hlift, hliteral]
  unfold isStatement
  rw [hwrap]
  split
  · next key _ =>
    have hkey : key ≠ Form.valueKey := by
      rintro rfl
      exact htyped rfl
    simp [hkey]
  · rfl

/-- A clause map is formatted as its statement is rendered, where the limit on the depth is high
enough. -/
theorem format_of_gives {es : Entries} {f : Fragment}
    (hform : Form.ofEntries Registry.standard.clauseOrder es = .clause)
    (h : Gives (Value.map es).height (fun r s => Render.statement r s false es) f) :
    ∃ levels : Nat, ∀ maxDepth : Int, levels ≤ maxDepth →
      format .standard { inline := true, maxDepth := some maxDepth } (.map es) =
        .ok ⟨f.inlineSql, f.values⟩ := by
  obtain ⟨levels, hlevels⟩ := h.stated
  refine ⟨levels, fun maxDepth hdepth => ?_⟩
  refine format_eq_ok_iff.mpr ⟨.inlining maxDepth 0 [], f, 0, rfl, ?_, rfl⟩
  have hstatement := isStatement_of_clause hform
  rw [fragment, fragmentBy, if_pos hstatement]
  exact hlevels _ (Nat.le_refl _) maxDepth 0 [] (by omega) 0

theorem Syntax.Parser.Commanded.parse_written {es : Entries} {ts : List Token}
    (h : Commanded es ts) :
    ∃ levels : Nat, ∀ renderDepth parseDepth : Int, levels ≤ renderDepth → levels ≤ parseDepth →
      ∃ out w, format .standard { inline := true, maxDepth := some renderDepth } (.map es) = .ok out ∧
        SqlTree.parse parseDepth out.sql = .ok w ∧ w.same (.map es) = true := by
  obtain ⟨f, hf, hs⟩ := h.writes
  obtain ⟨j, hj⟩ := format_of_gives h.form hf
  obtain ⟨k, hk⟩ := h.parse hs
  refine ⟨max j k, fun renderDepth parseDepth hrender hparse => ?_⟩
  obtain ⟨w, hw, hsame⟩ := hk parseDepth (by omega)
  exact ⟨_, w, hj renderDepth (by omega), hw, hsame⟩

section Queries

/-- A canonical query comes back from its text. -/
theorem Canonical.parse_format {q : Value} (h : Canonical .query q) :
    ∃ levels : Nat, ∀ renderDepth parseDepth : Int, levels ≤ renderDepth → levels ≤ parseDepth →
      ∃ out w, format .standard { inline := true, maxDepth := some renderDepth } q = .ok out ∧
        parse parseDepth out.sql = .ok w ∧ w.same q = true := by
  obtain ⟨es, ts, rfl, hq⟩ := h.hasTokens
  exact hq.commanded.parse_written

theorem shape_selection (d : Bool) : QueryShape [.select d, .tables] where
  nodup := by cases d <;> decide
  ctes := by cases d <;> decide
  body := .inl ⟨⟨d, by simp, by cases d <;> decide⟩, by simp, by simp⟩

theorem canonical_selection (d : Bool) {v : Value} {t : String} (hv : SelectItem v)
    (ht : DottedName t) :
    Canonical .query (.map (blockEntries [(.select d, .list [v]), (.tables, .text t)])) := by
  refine .query (shape_selection d) (List.forall_mem_cons.mpr ⟨?_, ?_⟩)
  · exact .select d (by simp) (by simpa using hv)
  · simpa using Canonical.oneTable ht

theorem plainName_letter {t : String} (h : t ∈ ["a", "b", "c", "t", "u"]) : PlainName t := by
  have hall : ∀ t ∈ ["a", "b", "c", "t", "u"], PlainName t := by decide
  exact hall t h

/-- `SELECT a FROM t UNION SELECT DISTINCT b AS c FROM u ORDER BY a DESC` -/
def unionSample : List (QueryClause × Value) :=
  [(.order, .list [.list [.text "a", .text "desc"]]),
   (.operation .union, .list
     [.map (blockEntries [(.select false, .list [.text "a"]), (.tables, .text "t")]),
      .map (blockEntries [(.select true, .list [.list [.text "b", .text "c"]]),
        (.tables, .text "u")])])]

theorem canonical_unionSample : Canonical .query (.map (blockEntries unionSample)) := by
  have ha := (plainName_letter (t := "a") (by decide)).dotted
  have hleft := canonical_selection false (.expression ha.expressible)
    (plainName_letter (t := "t") (by decide)).dotted
  have hc : PlainName "c" := plainName_letter (by decide)
  have hright := canonical_selection true
    (.aliased (plainName_letter (t := "b") (by decide)).dotted hc)
    (plainName_letter (t := "u") (by decide)).dotted
  refine .query ?_ ?_
  · exact { nodup := by decide, ctes := by decide, body := .inr ⟨.union, by decide, by decide⟩ }
  · have horder : OrderItem (.list [.text "a", .text "desc"]) := .mk true none ha.expressible
    refine List.forall_mem_cons.mpr ⟨.order (by simp) (by simpa using horder), ?_⟩
    refine List.forall_mem_cons.mpr ⟨.operation .union ?_ hleft hright (by simp), by simp⟩
    simp [blockEntries]

theorem parse_format_unionSample :
    ∃ levels : Nat, ∀ renderDepth parseDepth : Int, levels ≤ renderDepth → levels ≤ parseDepth →
      ∃ out w, format .standard { inline := true, maxDepth := some renderDepth }
          (.map (blockEntries unionSample)) = .ok out ∧
        parse parseDepth out.sql = .ok w ∧ w.same (.map (blockEntries unionSample)) = true :=
  canonical_unionSample.parse_format

end Queries

section Expressions

/-- A query that selects one value and nothing else. -/
def selecting (v : Value) : Value := .map [(.text "select", .list [v])]

theorem shape_selecting : QueryShape [.select false] where
  nodup := by decide
  ctes := by decide
  body := .inl ⟨⟨false, by decide, by decide⟩, by simp, by simp⟩

theorem canonical_selecting {v : Value} (h : Expressible v) : Canonical .query (selecting v) := by
  have hselect : Canonical (.clause (.select false)) (.list [v]) :=
    .select false (by simp) (by simpa using SelectItem.expression h)
  have hquery : Canonical .query (.map (blockEntries [(.select false, .list [v])])) :=
    .query shape_selecting (by simpa using hselect)
  exact hquery

/-- An expression comes back from the text of a query that selects it. -/
theorem Expressible.parse_format_selecting {v : Value} (h : Expressible v) :
    ∃ levels : Nat, ∀ renderDepth parseDepth : Int, levels ≤ renderDepth → levels ≤ parseDepth →
      ∃ out w, format .standard { inline := true, maxDepth := some renderDepth } (selecting v) =
          .ok out ∧ parse parseDepth out.sql = .ok w ∧ w.same (selecting v) = true := by
  obtain ⟨es, ts, hes, hq⟩ := (canonical_selecting h).hasTokens
  rw [hes]
  exact hq.commanded.parse_written

/-- `a = -1 AND (b.c IN ('it''s'))` -/
def expressionSample : Value :=
  headed "and" [headed "=" [.text "a", untyped (.int (-1))],
    headed "in" [.text "b.c", .list [untyped (.text "it's")]]]

theorem expressible_expressionSample : Expressible expressionSample := by
  have ha : Expressible (.text (dotted ["a"])) :=
    .column (plainName_letter (by decide)).toPlainPart (by simp)
  have hc : PlainName "c" := plainName_letter (by decide)
  have hbc : Expressible (.text (dotted ["b", "c"])) :=
    .column (plainName_letter (by decide)).toPlainPart (by simpa using hc.toPlainPart)
  have hone : (-1 : Int).natAbs.repr.length ≤ Syntax.Literal.digitLimit := by decide
  have heq : Expressible (headed "=" [.text "a", untyped (.int (-1))]) :=
    .comparison (by decide) ha (.int hone)
  have hin : Expressible (headed "in" [.text "b.c", .list [untyped (.text "it's")]]) :=
    .inValues false hbc rfl (.string "it's") (by simp)
  exact .chain .and heq hin (by simp)

theorem parse_format_expressionSample :
    ∃ levels : Nat, ∀ renderDepth parseDepth : Int, levels ≤ renderDepth → levels ≤ parseDepth →
      ∃ out w, format .standard { inline := true, maxDepth := some renderDepth }
          (selecting expressionSample) = .ok out ∧
        parse parseDepth out.sql = .ok w ∧ w.same (selecting expressionSample) = true :=
  expressible_expressionSample.parse_format_selecting

/-- The remainder is rendered without its operator, and what is left is read as an alias. -/
theorem remainder_not_parsed_back :
    (format .standard { inline := true } (selecting (headed "%" [.text "a", .text "b"]))).toOption.map
        Formatted.sql = some "SELECT a  b" ∧
      (parse defaultParseDepth "SELECT a  b").toOption.map
          (·.same (selecting (.list [.text "a", .text "b"]))) = some true ∧
      (parse defaultParseDepth "SELECT a  b").toOption.map
          (·.same (selecting (headed "%" [.text "a", .text "b"]))) = some false := by
  decide +kernel

/-- A NOT is rendered without parentheses wherever it stands, and what follows becomes its own
operand. -/
theorem not_operand_regrouped :
    (parse defaultParseDepth "SELECT (NOT a) = b").toOption.map
        (·.same (selecting (headed "=" [headed "not" [.text "a"], .text "b"]))) = some true ∧
      (format .standard { inline := true }
        (selecting (headed "=" [headed "not" [.text "a"], .text "b"]))).toOption.map Formatted.sql =
          some "SELECT NOT a = b" ∧
      (parse defaultParseDepth "SELECT NOT a = b").toOption.map
          (·.same (selecting (headed "not" [headed "=" [.text "a", .text "b"]]))) = some true ∧
      (parse defaultParseDepth "SELECT NOT a = b").toOption.map
          (·.same (selecting (headed "=" [headed "not" [.text "a"], .text "b"]))) = some false := by
  decide +kernel

end Expressions

end SqlTree
