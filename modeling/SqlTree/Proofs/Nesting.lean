import SqlTree.Proofs.Nesting.Text

/-! Texts of queries in parentheses that have tails: the rows of the clause maps that they are parsed
as, and the texts that these are formatted as. -/

namespace SqlTree.Nesting

open Syntax (Query Command)
open Syntax.Parser (commandsOf_of_lex)

variable {s : String} {maxDepth : Int} {q : Query} {cs : List Command} {v : Value}

/-- The layers of a query in parentheses become one clause map. It has the rows of the layers if each
of them is kept apart from what it surrounds or takes effect behind it, and a layer around aligned
ones that are one block needs that. With canonical clauses the map comes back from its text, unless
common table expressions stand beside a nested query. -/
theorem parse_layers (hcommands : Syntax.commandsOf s = .ok (.statement (.queryStatement q) :: cs))
    (hparse : parse maxDepth s = .ok v) :
    ∃ body ls, Layered ⟨maxDepth, 1⟩ q body ls ∧ v = .map (mapOf body ls) ∧
      (Aligned body ls → ∀ (R : Type) (db : Database R) (scope : Entries),
        blockRows db scope (mapOf body ls) = layerRows db scope body ls) ∧
      (∀ inner l outer, ls = inner ++ l :: outer → Aligned body inner →
        Entries.hasField (mapOf body inner) "nest" = false →
        ((∀ (R : Type) (db : Database R) (scope : Entries),
            blockRows db scope (mapOf body (inner ++ [l])) =
              layerRows db scope body (inner ++ [l])) ↔
          clashes (mapOf body inner) l = true ∨ Behind (mapOf body inner) l)) ∧
      (Canonical .query (.map body) → (∀ l ∈ ls, l.IsCanonical) → Unmixed body ls →
        ∃ levels : Nat, ∀ renderDepth parseDepth : Int, levels ≤ renderDepth → levels ≤ parseDepth →
          ∃ out w, format .standard { inline := true, maxDepth := some renderDepth } v = .ok out ∧
            parse parseDepth out.sql = .ok w ∧ w.same v = true) := by
  obtain ⟨c, cs', es, hfirst, hes, rfl⟩ := Syntax.exists_read_of_parse hparse
  rw [hcommands] at hfirst
  cases hfirst
  obtain ⟨body, ls, hlayered, rfl⟩ := exists_layered q hes
  obtain ⟨hbody, hls⟩ := hlayered.keys
  refine ⟨body, ls, hlayered, rfl, ?_, ?_, ?_⟩
  · intro haligned R db scope
    exact haligned.blockRows_eq db hbody hls scope
  · rintro inner l outer rfl haligned hnest
    have hinner : ∀ m ∈ inner, IsLayer m := fun m hm => hls m (List.mem_append_left _ hm)
    have hl : IsLayer l := hls l (List.mem_append_right _ List.mem_cons_self)
    apply haligned.blockRows_eq_iff hbody hinner hl
    intro es hes
    rw [Entries.hasField, hes] at hnest
    cases hnest
  · intro hcanonical hlayers hunmixed
    have htailed : Tailed body := by
      cases hcanonical with
      | query hshape hclauses => exact .block hshape hclauses
    obtain ⟨ts, hts⟩ := (htailed.mapOf hlayers hunmixed).exists_queried
    exact hts.commanded.parse_written

section Samples

def column (name : String) : Syntax.Expr := .column [⟨name, false⟩]

/-- `SELECT a FROM t` with a tail, in parentheses that have a tail. -/
def wrapped (order order' : Syntax.Tree (.list .orderItem)) (limits limits' : Syntax.Tree (.list .limit)) :
    Query :=
  .query .absent (.nested (.query .absent (.selectBody (.select .absent (.cons (.item (column "a")) .nil)
    (.cons (.source (.relation [⟨"t", false⟩] none) .nil) .nil) .absent .nil .absent))
    order limits none)) order' limits' none

def orderByA : Syntax.Tree (.list .orderItem) := .cons (.orderItem (column "a") false none) .nil

def limitOne : Syntax.Tree (.list .limit) := .cons (.limit (.number "1")) .nil

def sampleBody : Entries := blockEntries [(.select false, .list [.text "a"]), (.tables, .text "t")]

def ordered : List (QueryClause × Value) := [(.order, .list [.list [.text "a", .text "asc"]])]

def limited : List (QueryClause × Value) := [(.limit, Syntax.untyped (.int 1))]

theorem commandsOf_ordered_limited : Syntax.commandsOf "(SELECT a FROM t ORDER BY a) LIMIT 1" =
    .ok [.statement (.queryStatement (wrapped orderByA .nil .nil limitOne))] := by
  have hlex : Lexer.lex "(SELECT a FROM t ORDER BY a) LIMIT 1".toList =
      ([⟨[], .symbol "("⟩, ⟨[], .keyword "select" "SELECT"⟩, ⟨[' '], .name "a"⟩,
        ⟨[' '], .keyword "from" "FROM"⟩, ⟨[' '], .name "t"⟩, ⟨[' '], .keyword "order" "ORDER"⟩,
        ⟨[' '], .keyword "by" "BY"⟩, ⟨[' '], .name "a"⟩, ⟨[], .symbol ")"⟩,
        ⟨[' '], .keyword "limit" "LIMIT"⟩, ⟨[' '], .number "1"⟩], []) := by
    decide +kernel
  exact commandsOf_of_lex hlex rfl

theorem commandsOf_limited_ordered : Syntax.commandsOf "(SELECT a FROM t LIMIT 1) ORDER BY a" =
    .ok [.statement (.queryStatement (wrapped .nil orderByA limitOne .nil))] := by
  have hlex : Lexer.lex "(SELECT a FROM t LIMIT 1) ORDER BY a".toList =
      ([⟨[], .symbol "("⟩, ⟨[], .keyword "select" "SELECT"⟩, ⟨[' '], .name "a"⟩,
        ⟨[' '], .keyword "from" "FROM"⟩, ⟨[' '], .name "t"⟩, ⟨[' '], .keyword "limit" "LIMIT"⟩,
        ⟨[' '], .number "1"⟩, ⟨[], .symbol ")"⟩, ⟨[' '], .keyword "order" "ORDER"⟩,
        ⟨[' '], .keyword "by" "BY"⟩, ⟨[' '], .name "a"⟩], []) := by
    decide +kernel
  exact commandsOf_of_lex hlex rfl

theorem layered_wrapped {order order' : Syntax.Tree (.list .orderItem)}
    {limits limits' : Syntax.Tree (.list .limit)} {l m : Layer} {body : Entries} {ls : List Layer}
    (h : Layered ⟨defaultParseDepth, 1⟩ (wrapped order order' limits limits') body ls)
    (hinner : readLayer .absent order limits none ⟨defaultParseDepth, 3⟩ = .ok l)
    (houter : readLayer .absent order' limits' none ⟨defaultParseDepth, 2⟩ = .ok m) :
    body = sampleBody ∧ ls = [l, m] := by
  cases h with
  | body hbody => exact absurd rfl (hbody _)
  | nested h hm =>
    cases h with
    | body _ hes hl =>
      rw [hinner] at hl
      rw [houter] at hm
      cases hl
      cases hm
      cases hes
      exact ⟨rfl, rfl⟩

theorem parse_of_commands {c : Command} {es : Entries} (hblank : isBlankText s = false)
    (hcommands : Syntax.commandsOf s = .ok [c])
    (hread : Command.read c ⟨defaultParseDepth, 1⟩ = .ok es) :
    parse defaultParseDepth s = .ok (.map es) := by
  have hall : Syntax.readAll defaultParseDepth [c] = .ok [.map es] := by
    change Except.bind (Except.bind (Command.read c ⟨defaultParseDepth, 1⟩) _) _ = _
    rw [hread]
    rfl
  have hparse : parseAll defaultParseDepth s = .ok [.map es] := by
    rw [parseAll, hblank, if_neg (by decide), hcommands]
    exact hall
  rw [parse, hparse]
  rfl

theorem eq_or_eq_of_append {α : Type} {x y z : α} {xs ys : List α} (h : [x, y] = xs ++ z :: ys) :
    xs = [] ∧ z = x ∨ xs = [x] ∧ z = y := by
  match xs, h with
  | [], h =>
    cases h
    exact .inl ⟨rfl, rfl⟩
  | [_], h =>
    cases h
    exact .inr ⟨rfl, rfl⟩
  | _ :: _ :: xs, h => simp at h

theorem aligned_ordered_limited :
    Aligned sampleBody [⟨[], blockEntries ordered⟩, ⟨[], blockEntries limited⟩] := by
  intro inner l outer heq
  right
  unfold Behind
  rcases eq_or_eq_of_append heq with ⟨rfl, rfl⟩ | ⟨rfl, rfl⟩ <;> decide

theorem isTail_ordered : IsTail ordered where
  nodup := by decide
  mem := by decide
  canonical := by
    have ha : Expressible (.text "a") := (plainName_letter (by decide)).dotted.expressible
    have horder : OrderItem (.list [.text "a", .text "asc"]) := .mk false none ha
    exact List.forall_mem_singleton.mpr (.order (List.cons_ne_nil _ _)
      (List.forall_mem_singleton.mpr horder))

theorem isTail_limited : IsTail limited where
  nodup := by decide
  mem := by decide
  canonical := List.forall_mem_singleton.mpr (.limit (.int (by decide)))

theorem isCanonical_of_isTail {t : List (QueryClause × Value)} (h : IsTail t) :
    Layer.IsCanonical ⟨[], blockEntries t⟩ :=
  .mk (w := []) (Nat.zero_le 1) nofun nofun h

theorem unmixed_ordered_limited :
    Unmixed sampleBody [⟨[], blockEntries ordered⟩, ⟨[], blockEntries limited⟩] := by
  intro inner outer heq
  have hnest : ∀ k ≤ 2, Entries.hasField (mapOf sampleBody
      ([⟨[], blockEntries ordered⟩, ⟨[], blockEntries limited⟩].take k)) "nest" = false := by
    decide
  have htake : inner = [⟨[], blockEntries ordered⟩, ⟨[], blockEntries limited⟩].take inner.length := by
    rw [heq, List.take_left]
  have hlen : inner.length ≤ 2 := by
    have hlen := congrArg List.length heq
    simp only [List.length_append, List.length_cons, List.length_nil] at hlen
    omega
  rintro ⟨hmixed, -⟩
  rw [htake, hnest _ hlen] at hmixed
  cases hmixed

/-- In `(SELECT a FROM t ORDER BY a) LIMIT 1` the limit takes effect behind the order. -/
theorem parse_layers_ordered_limited :
    ∃ v, parse defaultParseDepth "(SELECT a FROM t ORDER BY a) LIMIT 1" = .ok v ∧
      v = .map (sampleBody ++ blockEntries ordered ++ blockEntries limited) ∧
      (∀ (R : Type) (db : Database R) (scope : Entries),
        blockRows db scope (sampleBody ++ blockEntries ordered ++ blockEntries limited) =
          db.tail (blockEntries limited) (db.tail (blockEntries ordered) (db.rows scope sampleBody))) ∧
      ∃ levels : Nat, ∀ renderDepth parseDepth : Int, levels ≤ renderDepth → levels ≤ parseDepth →
        ∃ out w, format .standard { inline := true, maxDepth := some renderDepth } v = .ok out ∧
          parse parseDepth out.sql = .ok w ∧ w.same v = true := by
  have hparse : parse defaultParseDepth "(SELECT a FROM t ORDER BY a) LIMIT 1" =
      .ok (.map (sampleBody ++ blockEntries ordered ++ blockEntries limited)) :=
    parse_of_commands (by decide +kernel) commandsOf_ordered_limited rfl
  obtain ⟨body, ls, hlayered, hmap, hrows, -, htext⟩ := parse_layers commandsOf_ordered_limited hparse
  obtain ⟨rfl, rfl⟩ := layered_wrapped (l := ⟨[], blockEntries ordered⟩)
    (m := ⟨[], blockEntries limited⟩) hlayered rfl rfl
  refine ⟨_, hparse, rfl, ?_, ?_⟩
  · intro R db scope
    have h := hrows aligned_ordered_limited R db scope
    rw [Value.map.injEq] at hmap
    rw [hmap, h]
    simp [layerRows]
  · have hbody : Canonical .query (.map sampleBody) := canonical_selection false
      (.expression (plainName_letter (by decide)).dotted.expressible) (plainName_letter (by decide)).dotted
    refine htext hbody (fun l hl => ?_) unmixed_ordered_limited
    rcases List.mem_pair.mp hl with rfl | rfl
    · exact isCanonical_of_isTail isTail_ordered
    · exact isCanonical_of_isTail isTail_limited

/-- A limit in the parentheses is taken into a block in which the order outside comes first. A nested
query is written in front of the common table expressions around it. -/
theorem limit_taken_behind_order :
    parse defaultParseDepth "(SELECT a FROM t LIMIT 1) ORDER BY a" =
      .ok (.map (sampleBody ++ blockEntries limited ++ blockEntries ordered)) ∧
    Layered ⟨defaultParseDepth, 1⟩ (wrapped .nil orderByA limitOne .nil) sampleBody
      [⟨[], blockEntries limited⟩, ⟨[], blockEntries ordered⟩] ∧
    blockRows twoRows [] (sampleBody ++ blockEntries limited ++ blockEntries ordered) = [1] ∧
    layerRows twoRows [] sampleBody [⟨[], blockEntries limited⟩, ⟨[], blockEntries ordered⟩] = [2] ∧
    ((parse defaultParseDepth "WITH c AS (SELECT 1) (SELECT a FROM t LIMIT 1) LIMIT 2").bind
      (format .standard { inline := true })).toOption.map Formatted.sql =
        some "(SELECT a FROM t LIMIT 1) WITH c AS (SELECT 1) LIMIT 2" ∧
    (parse defaultParseDepth "(SELECT a FROM t LIMIT 1) WITH c AS (SELECT 1) LIMIT 2").toOption.isNone := by
  refine ⟨parse_of_commands (by decide +kernel) commandsOf_limited_ordered rfl, ?_, ?_, by decide, ?_, ?_⟩
  · change Layered _ _ _ ([⟨[], blockEntries limited⟩] ++ [⟨[], blockEntries ordered⟩])
    exact .nested (.body nofun rfl rfl) rfl
  · have hnone : Entries.field? (sampleBody ++ blockEntries limited ++ blockEntries ordered) "nest" =
        none := rfl
    rw [blockRows_of_body _ (by rw [hnone]; nofun)]
    decide
  · decide +kernel
  · decide +kernel

end Samples

end SqlTree.Nesting
