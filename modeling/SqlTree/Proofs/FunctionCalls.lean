import SqlTree.Proofs.Conditions.Selection
import SqlTree.Proofs.FunctionCalls.Literals
import SqlTree.Proofs.FunctionCalls.Text

/-!
Calls of functions that are selected, parsed and formatted again. The name, the mark of the
arguments and the arguments come back, if the name does not end like the mark and the arguments are
not one query alone.
-/

namespace SqlTree

open Syntax (Reads Expr headed)
open Lexer (Spells nameToken)
open Render (Writes)
open Syntax.Parser

namespace FunctionCall

variable {c d : FunctionCall} {xs : List (Expr × Value)} {tss : List (List Token)}

section Reading

/-- The statement that selects a call alone. -/
def statement (c : FunctionCall) : Syntax.Statement :=
  .queryStatement (.query .absent
    (.selectBody (.select .absent (.ofList [.item c.tree]) .nil .absent .nil .absent)) .nil .nil none)

/-- The clauses of the statement. -/
def clauses (v : Value) : List (QueryClause × Value) := [(.select false, .list [v])]

theorem statement_reads {vs : List Value} (h : List.Forall₂ Syntax.Means c.items vs) :
    Reads c.statement.read (blockEntries (clauses (valueOf c.head c.marks vs))) := by
  have hitems : Reads (Syntax.visitAll [Syntax.visit c.tree.read.value])
      [valueOf c.head c.marks vs] := .visitAll (.cons (means h).visit .nil)
  have hnone : ∀ {α : Type} (a : α), Reads (pure a : Syntax.Read α) a := fun a => .pure a
  have hselect : Reads (Syntax.Reading.select none [Syntax.visit c.tree.read.value] [] none [] none)
      (blockEntries (clauses (valueOf c.head c.marks vs))) :=
    ((hnone ("select", [])).bind (hitems.bind ((hnone []).bind ((hnone []).bind
      ((hnone []).bind (hnone []).map))))).visit
  exact ((hnone []).bind (hselect.bind ((hnone []).bind ((Reads.mapM .nil).bind (hnone []).map)))).visit

theorem exists_same (h : List.Forall₂ (fun x => Returned x.1 x.2) xs d.items) :
    ∃ ws, List.Forall₂ Syntax.Means d.items ws ∧
      List.Forall₂ (fun w v => w.same v = true) ws (xs.map Prod.snd) := by
  generalize d.items = es at h
  induction h with
  | nil => exact ⟨[], .nil, .nil⟩
  | cons hx _ ih =>
    obtain ⟨w, hw, hsame⟩ := hx.agrees
    obtain ⟨ws, hws, hall⟩ := ih
    exact ⟨w :: ws, .cons hw hws, .cons hsame hall⟩

theorem same_valueOf (head : List String) (marks : Syntax.Arguments) {vs ws : List Value}
    (h : List.Forall₂ (fun w v => w.same v = true) ws vs) :
    (valueOf head marks ws).same (valueOf head marks vs) = true := by
  unfold valueOf
  split
  · exact same_headed (.cons (Value.same_text_self _) .nil)
  · exact same_headed h

theorem same_clauses {v w : Value} (h : w.same v = true) :
    (Value.map (blockEntries (clauses w))).same (.map (blockEntries (clauses v))) = true := by
  refine Value.same_map rfl fun e he => ⟨_, List.mem_singleton.mpr rfl, ?_⟩
  obtain rfl := List.mem_singleton.mp he
  exact ⟨Value.same_text_self _, Value.same_list (.cons h .nil)⟩

end Reading

/-- A call with the values and the tokens of its arguments. -/
structure Written (c : FunctionCall) (xs : List (Expr × Value)) (tss : List (List Token)) : Prop where
  head : IsFunctionName c.head
  items : xs.map Prod.fst = c.items
  argued : List.Forall₂ (fun x ts => Argued x.1 x.2 ts) xs tss

theorem exists_written (hhead : IsFunctionName c.head) (hitems : ∀ e ∈ c.items, IsArgument e) :
    ∃ xs tss, c.Written xs tss := by
  have hall : ∀ es : List Expr, (∀ e ∈ es, IsArgument e) → ∃ xs tss, xs.map Prod.fst = es ∧
      List.Forall₂ (fun x ts => Argued x.1 x.2 ts) xs tss := by
    intro es hes
    induction es with
    | nil => exact ⟨[], [], rfl, .nil⟩
    | cons e es ih =>
      obtain ⟨he, hes⟩ := List.forall_mem_cons.mp hes
      obtain ⟨v, ts, hts⟩ := he.exists_argued
      obtain ⟨xs, tss, rfl, hxs⟩ := ih hes
      exact ⟨(e, v) :: xs, ts :: tss, rfl, .cons hts hxs⟩
  obtain ⟨xs, tss, hxs, htss⟩ := hall c.items hitems
  exact ⟨xs, tss, hhead, hxs, htss⟩

theorem Written.means (h : c.Written xs tss) : ∀ x ∈ xs, Syntax.Means x.1 x.2 := by
  have hall := h.argued
  clear h
  induction hall with
  | nil => exact nofun
  | cons hx _ ih => exact List.forall_mem_cons.mpr ⟨hx.means, ih⟩

theorem Written.reads (h : c.Written xs tss) : Reads c.statement.read
    (blockEntries (clauses (valueOf c.head c.marks (xs.map Prod.snd)))) := by
  refine statement_reads ?_
  rw [← h.items, List.forall₂_map_left_iff, List.forall₂_map_right_iff, List.forall₂_same]
  exact h.means

section Parsing

variable {n : Nat}

theorem starless_tokens {head : List String} (h : IsFunctionName head) (marks : Syntax.Arguments) :
    Starless (tokens head marks tss) := by
  have hopen : ∀ (l : Lexeme) (ls rest : List Lexeme) (us : List Token),
      ls.map Lexeme.token = .symbol "(" :: us → startsStar (l :: (ls ++ rest)) = false := by
    intro l ls rest us hls
    obtain ⟨⟨_, _⟩, ms, rfl, rfl, -⟩ := List.map_eq_cons_iff.mp hls
    exact startsStar_of_not_dot (by simp [next])
  intro ls rest hls _
  cases h with
  | plain =>
    obtain ⟨l, ms, rfl, -, hms⟩ := List.map_eq_cons_iff.mp hls
    exact hopen l ms rest _ hms
  | @qualified q r _ hr _ hfree =>
    obtain ⟨k, hk, -⟩ := exists_name hr hfree
    have htokens : tokens [q, r] marks tss = nameToken (Text.upper q) :: .symbol "." ::
        nameToken (Text.upper r) :: .symbol "(" :: (argumentTokens marks tss ++ [.symbol ")"]) := rfl
    rw [htokens] at hls
    generalize nameToken (Text.upper r) = t at hk hls
    obtain ⟨⟨_, _⟩, ms, rfl, -, hms⟩ := List.map_eq_cons_iff.mp hls
    obtain ⟨⟨_, _⟩, ns, rfl, rfl, hns⟩ := List.map_eq_cons_iff.mp hms
    obtain ⟨⟨gap, t⟩, os, rfl, rfl, hos⟩ := List.map_eq_cons_iff.mp hns
    have hstar : (t == Token.symbol "*") = false := by
      cases t <;> first | rfl | cases hk
    have htail := hopen ⟨gap, t⟩ os rest _ hos
    rw [List.cons_append, List.cons_append, List.cons_append, startsStar, htail, hstar,
      Bool.or_false, Bool.and_false]

/-- A call that is read where one with these arguments was written. -/
def IsRead (c : FunctionCall) (xs : List (Expr × Value)) (d : FunctionCall) : Prop :=
  d.head = c.head ∧ d.marks = c.marks ∧ List.Forall₂ (fun x => Returned x.1 x.2) xs d.items

/-- The first token of a call stands for its name. -/
theorem starts_tokens {head : List String} (h : IsFunctionName head) (marks : Syntax.Arguments)
    (o : Option Token) : isSymbol "*" (ahead (tokens head marks tss) o) = false ∧
      ∀ w ∈ otherStarts, isKeyword w (ahead (tokens head marks tss) o) = false := by
  obtain ⟨t, ts, m, hts, hm⟩ := exists_headTokens h
  rw [tokens, hts, List.cons_append, ahead_cons]
  rcases callName?_cases hm with ⟨text, rfl | rfl⟩ | ⟨v, text, rfl, hv⟩
  · exact ⟨rfl, fun _ _ => rfl⟩
  · exact ⟨rfl, fun _ _ => rfl⟩
  · have hwords : ∀ v ∈ "left" :: "right" :: Token.unreserved, ∀ w ∈ otherStarts, v ≠ w := by decide
    exact ⟨rfl, fun w hw => decide_eq_false (hwords v hv w hw)⟩

theorem Written.length_argument (h : c.Written xs tss) {ts : List Token} (hts : ts ∈ tss) :
    ts.length < (tokens c.head c.marks tss).length := by
  have harguments : ts.length ≤ (argumentTokens c.marks tss).length := by
    have hlist := length_le_commaTokens hts
    cases hmarks : c.marks with
    | all => exact hlist
    | distinct => exact Nat.le_succ_of_le hlist
    | star =>
      have hxs := h.items
      rw [c.starred hmarks, List.map_eq_nil_iff] at hxs
      have hargued := h.argued
      rw [hxs] at hargued
      cases hargued
      cases hts
  simp only [tokens, List.length_append, List.length_cons]
  omega

theorem Written.item_takes (h : c.Written xs tss) (hn : (tokens c.head c.marks tss).length ≤ n) :
    Takes (selectItem (nested n)) (tokens c.head c.marks tss) (OrSign "," (Closes 0)) fun i =>
      ∃ d : FunctionCall, i = .item d.tree ∧ c.IsRead xs d := by
  obtain ⟨m, rfl⟩ : ∃ m, n = m + 1 := ⟨n - 1, by simp [tokens] at hn; omega⟩
  have hlen : ∀ ts ∈ tss, ts.length ≤ m := fun ts hts =>
    Nat.le_of_lt_succ (Nat.lt_of_lt_of_le (h.length_argument hts) hn)
  have hfollow : ∀ o, OrSign "," (Closes 0) o →
      isKeyword "filter" o = false ∧ isKeyword "over" o = false := fun o ho =>
    ⟨ho.isKeyword (by decide), ho.isKeyword (by decide)⟩
  have hcall := expression_takes_call h.head h.items h.argued hlen (fun o ho => ho.ends) hfollow
  rw [← List.append_nil (tokens c.head c.marks tss)]
  refine selectItem_takes (fun o => (starts_tokens h.head c.marks o).1)
    (starless_tokens h.head c.marks) (fun o ho => ho.ends.mono (Nat.zero_le _)) (fun o ho => ho)
    hcall ?_
  rintro _ ⟨d, rfl, hd⟩
  refine (aliasName_absent fun o ho => ⟨ho.isName, ho.isKeyword (by decide)⟩).andThen ?_
    fun o ho => ho
  rintro _ rfl
  exact .pure ⟨d, rfl, hd⟩

theorem Written.select_takes (h : c.Written xs tss) (hn : (tokens c.head c.marks tss).length ≤ n) :
    Takes (select (nested n)) (tokens c.head c.marks tss) (Closes 5) fun s =>
      ∃ d : FunctionCall, s = .select .absent (.ofList [.item d.tree]) .nil .absent .nil .absent ∧
        c.IsRead xs d := by
  refine (distinct_takes false).nothing_bind ?_ fun o _ => (starts_tokens h.head c.marks o).2
  rintro _ rfl
  have hitems : Takes (selectItems (nested n)) (tokens c.head c.marks tss) (Closes 0)
      (List.Forall₂ (fun _ i => ∃ d : FunctionCall, i = .item d.tree ∧ c.IsRead xs d) [()]) :=
    commas_takes (fun o (ho : Closes 0 o) => ho.isSymbol (by decide)) (List.cons_ne_nil _ [])
      (.cons (h.item_takes hn) .nil)
  refine hitems.andThen ?_ fun o ho => ho.mono (by decide)
  rintro _ (_ | ⟨⟨d, rfl, hd⟩, _ | _⟩)
  refine (optional_none fun o (ho : Closes 5 o) => ho.isKeyword (by decide)).andThen ?_ fun _ ho => ho
  rintro _ rfl
  refine (optional_none fun o (ho : Closes 5 o) => ho.isKeyword (by decide)).andThen ?_ fun _ ho => ho
  rintro _ rfl
  refine (optional_none fun o (ho : Closes 5 o) => ho.isKeyword (by decide)).andThen ?_ fun _ ho => ho
  rintro _ rfl
  refine (optional_none fun o (ho : Closes 5 o) => ho.isKeyword (by decide)).map ?_
  rintro _ rfl
  exact ⟨d, rfl, hd⟩

/-- The selection of a call is the one command of its text. -/
theorem Written.commandsOf (h : c.Written xs tss) {s : String}
    (hs : Spells s (nameToken "SELECT" :: tokens c.head c.marks tss)) :
    ∃ d : FunctionCall, Syntax.commandsOf s = .ok [.statement d.statement] ∧ c.IsRead xs d := by
  obtain ⟨ls, hls, htokens⟩ := hs.lex
  have hlen : (tokens c.head c.marks tss).length ≤ ls.length := by
    have hlength := congrArg List.length htokens
    rw [List.length_map, List.length_cons] at hlength
    omega
  have htake := commands_of_command (fun _ => rfl) (command_takes_select (h.select_takes hlen))
  obtain ⟨_, hcs, _, rfl, _, ⟨d, rfl, hd⟩, rfl⟩ := htake ls [] htokens rfl
  rw [List.append_nil] at hcs
  exact ⟨d, commandsOf_of_lex hls hcs, hd⟩

/-- A call with the same arguments has the same value. -/
theorem IsRead.agrees (h : c.IsRead xs d) :
    Agrees d.tree.read.value (valueOf c.head c.marks (xs.map Prod.snd)) := by
  obtain ⟨hhead, hmarks, hitems⟩ := h
  obtain ⟨ws, hws, hsame⟩ := exists_same hitems
  refine ⟨valueOf d.head d.marks ws, means hws, ?_⟩
  rw [hhead, hmarks]
  exact same_valueOf _ _ hsame

end Parsing

section Rendering

/-- A call is not taken for something with an alias. -/
theorem item_call (head : List String) (marks : Syntax.Arguments) (args : List Value) (r : Renderer)
    (s : Settings) : Render.item r s false (headed (Syntax.Reading.callHead head marks) args) =
      r.expr s false (headed (Syntax.Reading.callHead head marks) args) := by
  have hpercent : Render.startsWithPercent (Syntax.Reading.callHead head marks) = true := by
    rw [Render.startsWithPercent, callHead_eq]
    rfl
  have hpair : Render.aliasPair? s (headed (Syntax.Reading.callHead head marks) args) = none := by
    rcases args with _ | ⟨v, _ | ⟨w, vs⟩⟩
    · rfl
    · cases v <;> simp [Render.aliasPair?, headed, Value.items?, hpercent]
    · cases v <;> rfl
  rw [headed] at hpair ⊢
  simp only [Render.item, hpair]

/-- The arguments are written in parentheses of the call, so a query alone would have none. -/
theorem Written.writes (h : c.Written xs tss) (hmark : TellsMark c.head c.marks)
    (hlone : ∀ q, c.items ≠ [.subquery q]) (nested : Bool) :
    Writes nested (valueOf c.head c.marks (xs.map Prod.snd)) (tokens c.head c.marks tss) := by
  obtain ⟨hne, hparts⟩ := h.head.parts
  refine FunctionCall.writes hmark hparts hne ?_ ?_ ?_ nested
  · exact List.forall₂_map_left_iff.mpr (h.argued.imp fun _ _ hx => hx.writes)
  · intro hdistinct hnil
    refine c.distinct hdistinct ?_
    rw [← h.items, List.map_eq_nil_iff.mp hnil]
    rfl
  · intro es hes
    obtain ⟨x, hx, hmap⟩ := List.map_eq_singleton_iff.mp hes
    obtain ⟨hitems, hargued⟩ := And.intro h.items h.argued
    subst hx
    cases hargued with
    | cons hx _ =>
      refine hx.bare (fun q hq => hlone q ?_) es hmap
      rw [← hitems, List.map_singleton, hq]

/-- The tokens of the clauses of the selection. -/
def clauseTokens (ts : List Token) : QueryClause → List Token
  | .select false => nameToken "SELECT" :: ts
  | _ => []

theorem Written.selection_writes (h : c.Written xs tss) (hmark : TellsMark c.head c.marks)
    (hlone : ∀ q, c.items ≠ [.subquery q]) :
    ∃ f, Render.Gives (Value.map (blockEntries
        (clauses (valueOf c.head c.marks (xs.map Prod.snd))))).height
      (fun r s => Render.statement r s false
        (blockEntries (clauses (valueOf c.head c.marks (xs.map Prod.snd))))) f ∧
      Spells f.inlineSql (nameToken "SELECT" :: tokens c.head c.marks tss) := by
  have hselected : Selected (valueOf c.head c.marks (xs.map Prod.snd))
      (tokens c.head c.marks tss) := {
    writes := by
      obtain ⟨f, hf, hs⟩ := h.writes hmark hlone false
      exact ⟨f, hf.congr fun r m d st => item_call .., hs⟩
    takes := fun n hn => (h.item_takes hn).mono (fun _ => id) (by
      rintro _ ⟨d, rfl, hd⟩
      exact hd.agrees.visit)
    starts := fun o => (starts_tokens h.head c.marks o).2 }
  have hstated : Stated (.select false) (.list [valueOf c.head c.marks (xs.map Prod.snd)]) _ :=
    .select false (List.cons_ne_nil _ _) (.cons hselected .nil)
  have hplaced : ∀ k, Placed k (blockValue (clauses (valueOf c.head c.marks (xs.map Prod.snd))) k)
      (clauseTokens (tokens c.head c.marks tss) k) := by
    intro k
    cases k with
    | select d =>
      cases d with
      | false => exact (Stands.present hstated).placed
      | true => exact .absent
    | _ => exact .absent
  have hall := statement_writes hplaced (List.cons_ne_nil _ _) false
  have htokens : QueryClause.all.flatMap (clauseTokens (tokens c.head c.marks tss)) =
      nameToken "SELECT" :: tokens c.head c.marks tss := by
    change nameToken "SELECT" :: (tokens c.head c.marks tss ++ []) = _
    rw [List.append_nil]
  rwa [htokens] at hall

end Rendering

section RoundTrip

variable {w : String}

/-- The arguments that are read again are the same ones. -/
theorem IsRead.same_items (h : c.Written xs tss) (hd : c.IsRead xs d) :
    List.Forall₂ SameArgument c.items d.items := by
  obtain ⟨-, -, hitems⟩ := hd
  rw [← h.items, List.forall₂_map_left_iff]
  exact (forall₂_mem hitems.flip).flip.imp fun x e he => ⟨x.2, h.means x he.2, he.1⟩

/-- A call that is selected is formatted as a call of the same function on the same arguments, with
`DISTINCT` in front of them if and only if it stood there, and that is parsed as the same map. -/
theorem parse_format_call (hcommands : Syntax.commandsOf ("SELECT " ++ w) = .ok [.statement c.statement])
    (hhead : IsFunctionName c.head) (hmark : TellsMark c.head c.marks)
    (hitems : ∀ e ∈ c.items, IsArgument e) (hlone : ∀ q, c.items ≠ [.subquery q]) :
    ∃ levels : Nat, ∀ renderDepth parseDepth : Int, levels ≤ renderDepth → levels ≤ parseDepth →
      ∃ v out v', ∃ d : FunctionCall, parse parseDepth ("SELECT " ++ w) = .ok v ∧
        format .standard { inline := true, maxDepth := some renderDepth } v = .ok out ∧
        Syntax.commandsOf out.sql = .ok [.statement d.statement] ∧
        d.head = c.head ∧ d.marks = c.marks ∧ List.Forall₂ SameArgument c.items d.items ∧
        parse parseDepth out.sql = .ok v' ∧ v'.same v = true := by
  obtain ⟨xs, tss, h⟩ := exists_written hhead hitems
  obtain ⟨f, hf, hs⟩ := h.selection_writes hmark hlone
  obtain ⟨d, hd, hread⟩ := h.commandsOf hs
  obtain ⟨ws, hws, hsame⟩ := exists_same hread.2.2
  have hblank : isBlankText ("SELECT " ++ w) = false := by simp [isBlankText]
  obtain ⟨i, hi⟩ := parse_of_reads hblank hcommands h.reads
  obtain ⟨j, hj⟩ := format_of_gives (form_of_known (fun _ hk => hk) block_known) hf
  obtain ⟨k, hk⟩ := parse_of_reads (not_blank_of_spells rfl hs) hd (statement_reads hws)
  refine ⟨max i (max j k), fun renderDepth parseDepth hrender hparse => ⟨_, _, _, d,
    hi parseDepth (by omega), hj renderDepth (by omega), hd, hread.1, hread.2.1, hread.same_items h,
    hk parseDepth (by omega), same_clauses ?_⟩⟩
  rw [hread.1, hread.2.1]
  exact same_valueOf _ _ hsame

/-- `count(DISTINCT a, 'x')` -/
def sample : FunctionCall where
  head := ["count"]
  marks := .distinct
  items := [.column [⟨"a", false⟩], .string "'x'"]
  starred := nofun
  distinct _ := List.cons_ne_nil _ _

set_option maxRecDepth 10000 in
theorem commandsOf_sample : Syntax.commandsOf ("SELECT " ++ "count(DISTINCT a, 'x')") =
    .ok [.statement sample.statement] := by
  have hlex : Lexer.lex ("SELECT " ++ "count(DISTINCT a, 'x')").toList =
      ([⟨[], .keyword "select" "SELECT"⟩, ⟨[' '], .name "count"⟩, ⟨[], .symbol "("⟩,
        ⟨[], .keyword "distinct" "DISTINCT"⟩, ⟨[' '], .name "a"⟩, ⟨[], .symbol ","⟩,
        ⟨[' '], .string "'x'"⟩, ⟨[], .symbol ")"⟩], []) := by
    decide +kernel
  exact commandsOf_of_lex hlex rfl

theorem isFunctionName_sample : IsFunctionName sample.head := by
  refine .plain ⟨'c', "ount".toList, by decide, by decide, Text.forall_mem_of_all (by decide)⟩ ?_
  decide

theorem tellsMark_sample : TellsMark sample.head sample.marks where
  fits := by decide
  marked := by decide
  unmarked := by decide

theorem isArgument_sample : ∀ e ∈ sample.items, IsArgument e := by
  have hpart : IsPathPart "a" := by
    constructor <;> decide
  have hlower : Text.lower "a" = "a" := by decide
  have hcolumn : Syntax.Path.IsStable [⟨"a", false⟩] :=
    ⟨List.cons_ne_nil _ _, List.forall_mem_singleton.mpr hpart,
      List.forall_mem_singleton.mpr fun _ => .inl hlower⟩
  intro e he
  rcases List.mem_cons.mp he with rfl | he
  · exact .column hcolumn
  · obtain rfl := List.mem_singleton.mp he
    exact .expression (Reads.pure _).visit (.string "x") nofun

theorem parse_format_call_sample :
    ∃ levels : Nat, ∀ renderDepth parseDepth : Int, levels ≤ renderDepth → levels ≤ parseDepth →
      ∃ v out v', ∃ d : FunctionCall, parse parseDepth ("SELECT " ++ "count(DISTINCT a, 'x')") = .ok v ∧
        format .standard { inline := true, maxDepth := some renderDepth } v = .ok out ∧
        Syntax.commandsOf out.sql = .ok [.statement d.statement] ∧
        d.head = sample.head ∧ d.marks = sample.marks ∧
        List.Forall₂ SameArgument sample.items d.items ∧
        parse parseDepth out.sql = .ok v' ∧ v'.same v = true :=
  parse_format_call commandsOf_sample isFunctionName_sample tellsMark_sample isArgument_sample nofun

/-- The end of a name is taken for the mark of its arguments. -/
theorem distinctName_lost :
    ((parse defaultParseDepth "SELECT count_distinct(a)").bind
      (format .standard { inline := true })).toOption.map Formatted.sql =
        some "SELECT COUNT(DISTINCT a)" ∧
    ((parse defaultParseDepth "SELECT count_distinct(a)").toOption.map
      (Value.same (.map [(.text "select", .list [.list [.text "%count_distinct", .text "a"]])]))) =
        some true ∧
    ((parse defaultParseDepth "SELECT COUNT(DISTINCT a)").toOption.map
      (Value.same (.map [(.text "select", .list [.list [.text "%count_distinct", .text "a"]])]))) =
        some false := by
  decide +kernel

-- a query that is the only argument loses its parentheses
example :
    ((parse defaultParseDepth "SELECT f((SELECT 1))").bind
      (format .standard { inline := true })).toOption.map Formatted.sql =
        some "SELECT F(SELECT 1)" ∧
    (parse defaultParseDepth "SELECT F(SELECT 1)").toOption.isNone = true := by
  decide +kernel

end RoundTrip

end FunctionCall

end SqlTree
