import SqlTree.Proofs.Scopes.Statements

/-!
The alias scopes of what is read from SQL text. They cover the blocks in common table expressions,
set operations and the clauses `from`, `where`, `select` and `having`; a walk also comes to blocks
in other clauses, such as joins.
-/

namespace SqlTree

open Syntax
open QueryBlock AliasScope

/-- There is one scope for every block in a searched clause, below that of the block around it. A
walk comes to at least as many blocks as there are scopes, and to as many if and only if no block
that it comes to holds others in a clause that is left out. -/
theorem scopes_cover_searched {text : String} {maxDepth : Int} {v : Value}
    (h : parse maxDepth text = .ok v) :
    ∃ es scope visited, v = .map es ∧
      ofStatement "root" v = .ok scope ∧ Covers es scope ∧
      (Walk.walk Clause.order Walk.recorded v).run [] = .ok (v, visited) ∧
      scope.count ≤ visited.length ∧
      (scope.count = visited.length ↔ ∀ block ∈ visited, Closed block) := by
  obtain ⟨c, cs, es, hcommands, hread, rfl⟩ := exists_read_of_parse h
  have hregular := regular_of_commandsOf (N := fun _ => true) hcommands fun _ _ _ _ => rfl
  have hblock : NeatBlock es := neat_command (hregular c List.mem_cons_self) _ _ hread
  have hneat : ∀ e ∈ es, ∀ w ∈ bodies (Walk.reach? e.1) e.2, Neat w :=
    fun e he => (hblock.entries e he).neat
  obtain ⟨scope, visited, hscope, hvisits, hsurveyed⟩ :=
    exists_surveyed_block "root" hblock.nodup (fun e he => (hblock.entries e he).framed) hneat
      fun e he w hw => exists_survey (hneat e he w hw)
  have hcount : countAll [scope] = scope.count := Nat.add_zero _
  refine ⟨es, scope, visited, rfl, hscope, ?_, hvisits [], ?_, ?_⟩
  · cases hsurveyed.covers with
    | cons hcovers _ => exact hcovers
  · exact hcount ▸ hsurveyed.le
  · exact hcount ▸ hsurveyed.eq_iff

/-- How many scopes a statement has, and to how many blocks a walk comes in it. -/
def scopeCounts (v : Value) : Except Fault (Nat × Nat) := do
  let scope ← ofStatement "root" v
  let (_, visited) ← (Walk.walk Clause.order Walk.recorded v).run []
  return (scope.count, visited.length)

/-- A common table expression, the query that uses it, and a query in its condition. -/
theorem scopes_cover_searched_with :
    ∃ v scope visited,
      parse defaultParseDepth
        "WITH c AS (SELECT x FROM t) SELECT * FROM c WHERE y IN (SELECT z FROM u)" = .ok v ∧
      ofStatement "root" v = .ok scope ∧ scope.count = 3 ∧
      (Walk.walk Clause.order Walk.recorded v).run [] = .ok (v, visited) ∧
      ∀ block ∈ visited, Closed block := by
  have hcounts : ((parse defaultParseDepth
      "WITH c AS (SELECT x FROM t) SELECT * FROM c WHERE y IN (SELECT z FROM u)").bind
        scopeCounts).toOption = some (3, 3) := by decide +kernel
  generalize hparse : parse defaultParseDepth _ = parsed at hcounts
  cases parsed with
  | error e => cases hcounts
  | ok v =>
    obtain ⟨es, scope, visited, -, hscope, -, hvisits, -, hiff⟩ := scopes_cover_searched hparse
    simp only [Except.bind, scopeCounts, hscope, bind, hvisits, pure, Except.pure, Except.toOption,
      Option.some.injEq, Prod.mk.injEq] at hcounts
    exact ⟨v, scope, visited, rfl, hscope, hcounts.1, hvisits,
      hiff.mp (hcounts.1.trans hcounts.2.symm)⟩

/-- The query that is joined has no scope. -/
theorem joined_query_unscoped :
    ((parse defaultParseDepth "SELECT * FROM a JOIN (SELECT b FROM u) x ON a.i = x.i").bind
      scopeCounts).toOption = some (1, 2) := by
  decide +kernel

end SqlTree
