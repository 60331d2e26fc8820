import SqlTree.Proofs.Same
import SqlTree.Proofs.Scopes.Blocks

/-!
Values whose clauses are shaped as the searches expect. Below each of their blocks there is a scope
for every block that a searched clause holds, and a walk comes to these blocks and to no others but
those in the clauses that are left out.
-/

namespace SqlTree

open Walk (isLeaf isNull reach? search recorded)
open QueryBlock AliasScope

/-- The clauses whose values are searched in a way of their own. -/
def QueryBlock.shapedKeys : List String :=
  Clause.tableExpressions ++ Clause.setOperations ++ Clause.joins

/-- The value of a clause is shaped as the searches expect. -/
inductive Framed : Value × Value → Prop
  | tableExpressions {key : String} {ps : List Value} : key ∈ Clause.tableExpressions →
      (∀ p ∈ ps, ∃ name body t, p = .list [name, .map body] ∧ label name = .ok t) →
      Framed (.text key, .list ps)
  | branches {key : String} {vs : List Value} : key ∈ Clause.setOperations →
      (∀ v ∈ vs, ∃ body, v = .map body) → Framed (.text key, .list vs)
  | join {key : String} {vs : List Value} : key ∈ Clause.joins → Framed (.text key, .list vs)
  | other {key : String} {v : Value} : key ∉ shapedKeys → Framed (.text key, v)

/-- A value without tuples, in which the clause maps that are searched have shaped clauses. -/
inductive Neat : Value → Prop
  | leaf {v : Value} : isLeaf v = true → Neat v
  | list {vs : List Value} : (∀ v ∈ vs, Neat v) → Neat (.list vs)
  | map {es : Entries} : es ≠ [] → (searchedKeys es).Nodup → (∀ e ∈ es, Framed e) →
      (∀ e ∈ es, ∀ w ∈ bodies (reach? e.1) e.2, Neat w) → Neat (.map es)

section Fallible

variable {α β : Type}

theorem mapM_eq_ok {f : α → Except Fault β} {g : α → β} {as : List α}
    (h : ∀ a ∈ as, f a = .ok (g a)) : as.mapM f = .ok (as.map g) := by
  induction as with
  | nil => rfl
  | cons a as ih =>
    obtain ⟨ha, has⟩ := List.forall_mem_cons.mp h
    rw [List.mapM_cons, ha, ih has]
    rfl

theorem exists_of_bind_eq_ok {x : Except Fault α} {f : α → Except Fault β} {b : β}
    (h : x >>= f = .ok b) : ∃ a, x = .ok a ∧ f a = .ok b := by
  cases x with
  | error e => cases h
  | ok a => exact ⟨a, rfl, h⟩

end Fallible

namespace AliasScope

section Blocks

variable {es : Entries} {aliases : List (String × String)}

theorem exists_tableAliases (h : ∀ e ∈ es, Framed e) :
    ∃ aliases, tableAliases es = .ok aliases := by
  have hitems : ∀ key ∈ Clause.joins, ∃ vs, itemsOf es key = .ok vs := by
    intro key hkey
    unfold itemsOf
    split
    · exact ⟨[], rfl⟩
    · next v hv =>
      obtain ⟨vs, rfl⟩ : ∃ vs, v = .list vs := by
        have hframed := h _ (Entries.mem_of_field? hv)
        cases hframed with
        | tableExpressions => exact ⟨_, rfl⟩
        | branches => exact ⟨_, rfl⟩
        | join => exact ⟨_, rfl⟩
        | other hother => exact absurd (List.mem_append_right _ hkey) hother
      split
      · exact ⟨vs, rfl⟩
      · exact ⟨[], rfl⟩
  choose! items hitems using hitems
  rw [tableAliases, tableItems, mapM_eq_ok hitems]
  exact ⟨_, rfl⟩

theorem found_inEntries {key : String} (hkey : key ∈ searched) :
    found (inEntries es) key = (clauseAt es key).elim (.ok []) fun e => inValue key e.2 := by
  induction es with
  | nil => rfl
  | cons e es ih =>
    obtain ⟨k, v⟩ := e
    by_cases hk : k = .text key
    · subst hk
      have hcontains : searched.contains key = true := by simpa using hkey
      rw [inEntries, if_pos hcontains]
      simp [found, clauseAt, Value.text?]
    · have htext : ¬k.text? = some key := by
        cases k <;> simp_all [Value.text?]
      have hentry : clauseAt ((k, v) :: es) key = clauseAt es key :=
        List.find?_cons_of_neg (by simpa using htext)
      have hcons : ∀ x, found ((k, x) :: inEntries es) key = found (inEntries es) key := fun x => by
        rw [found, found, List.find?_cons_of_neg (by simpa using htext)]
      rw [hentry, ← ih]
      cases k
      case text t =>
        rw [inEntries]
        split
        · exact hcons _
        · rfl
      all_goals
        rw [inEntries]
        simp

/-- Where the clauses of a block hold blocks with scopes, the block has one scope above these. -/
theorem surveyed_block {scopes : Value × Value → List AliasScope}
    {visited : Value × Value → List Entries} (location : String)
    (hnodup : (searchedKeys es).Nodup) (hframed : ∀ e ∈ es, Framed e)
    (hfound : ∀ e ∈ es, ∀ key ∈ searched, e.1 = .text key → inValue key e.2 = .ok (scopes e))
    (hsurveyed : ∀ e ∈ es, Surveyed (ofEntry e) (scopes e) (visited e)) :
    ∃ scope, block location es (inEntries es) = .ok scope ∧
      Surveyed [es] [scope] (es.flatMap visited ++ [es]) := by
  obtain ⟨aliases, haliases⟩ := exists_tableAliases hframed
  have hkeys : ∀ key ∈ searched, found (inEntries es) key =
      .ok ((clauseAt es key).toList.flatMap scopes) := by
    intro key hkey
    rw [found_inEntries hkey]
    cases he : clauseAt es key with
    | none => rfl
    | some e =>
      obtain ⟨hmem, htext⟩ := clauseAt_eq_some he
      simpa using hfound e hmem key hkey htext
  have hlists : (searched.map fun key => (clauseAt es key).toList.flatMap scopes).flatten =
      (searchedEntries es).flatMap scopes := by
    rw [searchedEntries, List.filterMap_eq_flatMap_toList, List.flatMap_assoc, List.flatMap_def]
  have hmem : ∀ e ∈ searchedEntries es, e ∈ es := fun e he =>
    List.mem_of_mem_filter ((searchedEntries_perm hnodup).subset he)
  have hall := Surveyed.flatMap hsurveyed
  have hchildren : List.Forall₂ Covers ((searchedEntries es).flatMap ofEntry)
      ((searchedEntries es).flatMap scopes) :=
    (Surveyed.flatMap fun e he => hsurveyed e (hmem e he)).covers
  -- of the scopes for all clauses, those for the searched ones are below the block
  have hcount : countAll [⟨location, aliases, (searchedEntries es).flatMap scopes⟩] =
      countAll ((es.filter isSearched).flatMap scopes) + 1 := by
    rw [countAll, count, countAll, countAll_perm (searchedEntries_perm hnodup)]
    omega
  obtain ⟨hle, heq⟩ := countAll_filter scopes isSearched es
  have hclosed : Closed es ↔ ∀ e ∈ es, isSearched e = true ∨ scopes e = [] := by
    refine forall₂_congr fun e he => or_congr_right ?_
    have hlength := (hsurveyed e he).covers.length_eq
    rw [← List.length_eq_zero_iff, ← List.length_eq_zero_iff, hlength]
  refine ⟨⟨location, aliases, (searchedEntries es).flatMap scopes⟩, ?_, ?_, ?_, ?_⟩
  · rw [block, haliases]
    simp only [bind, Except.bind, mapM_eq_ok hkeys, hlists]
    rfl
  · exact .cons (.block haliases hchildren) .nil
  · rw [hcount, List.length_append, List.length_singleton]
    have hbound := hall.le
    omega
  · rw [hcount, List.length_append, List.length_singleton, List.forall_mem_append,
      List.forall_mem_singleton, ← hall.eq_iff, hclosed, ← heq]
    have hbound := hall.le
    omega

end Blocks

section Places

variable {es : Entries} {vs ps : List Value} {scopes : List AliasScope}

theorem block_alike {location : String} {parts : List (Value × Except Fault (List AliasScope))}
    {scope : AliasScope} (h : block location es parts = .ok scope) (location' : String) :
    ∃ scope', block location' es parts = .ok scope' ∧ Alike scope scope' := by
  unfold block at h ⊢
  obtain ⟨aliases, haliases, h⟩ := exists_of_bind_eq_ok h
  obtain ⟨children, hchildren, h⟩ := exists_of_bind_eq_ok h
  cases h
  rw [haliases]
  simp only [bind, Except.bind, hchildren]
  exact ⟨_, rfl, rfl, rfl⟩

theorem exists_block_of_inExpr (hform : Form.ofEntries Clause.order es = .clause)
    (h : inExpr (.map es) = .ok scopes) (location : String) :
    ∃ scope, block location es (inEntries es) = .ok scope ∧ List.Forall₂ Alike scopes [scope] := by
  rw [inExpr, if_pos hform] at h
  obtain ⟨scope, hscope, h⟩ := exists_of_bind_eq_ok h
  cases h
  obtain ⟨scope', hscope', halike⟩ := block_alike hscope location
  exact ⟨scope', hscope', .cons halike .nil⟩

theorem inClause_alike (h : inExpr (.map es) = .ok scopes) (location : String) :
    ∃ scopes', inClause location (.map es) = .ok scopes' ∧ List.Forall₂ Alike scopes scopes' := by
  rw [inClause]
  by_cases hform : Form.ofEntries Clause.order es = .clause
  · obtain ⟨scope, hscope, halike⟩ := exists_block_of_inExpr hform h location
    rw [if_pos hform, hscope]
    exact ⟨_, rfl, halike⟩
  · rw [inExpr, if_neg hform] at h
    cases h
    rw [if_neg hform]
    exact ⟨[], rfl, .nil⟩

theorem inBranches_alike (hvs : ∀ v ∈ vs, ∃ body, v = .map body) (h : inExprs vs = .ok scopes)
    (key : String) (index : Nat) :
    ∃ scopes', inBranches key index vs = .ok scopes' ∧ List.Forall₂ Alike scopes scopes' := by
  induction vs generalizing scopes index with
  | nil =>
    rw [inExprs] at h
    cases h
    exact ⟨[], by rw [inBranches], .nil⟩
  | cons v vs ih =>
    obtain ⟨⟨body, rfl⟩, hrest⟩ := List.forall_mem_cons.mp hvs
    rw [inExprs] at h
    obtain ⟨scopes₁, h₁, h⟩ := exists_of_bind_eq_ok h
    obtain ⟨scopes₂, h₂, h⟩ := exists_of_bind_eq_ok h
    cases h
    obtain ⟨scopes₁', h₁', halike₁⟩ := inClause_alike h₁ (key ++ "[" ++ toString index ++ "]")
    obtain ⟨scopes₂', h₂', halike₂⟩ := ih hrest h₂ (index + 1)
    refine ⟨scopes₁' ++ scopes₂', ?_, List.rel_append halike₁ halike₂⟩
    rw [inBranches, h₁']
    simp only [bind, Except.bind, h₂']
    rfl

theorem inPairs_alike
    (hps : ∀ p ∈ ps, ∃ name body t, p = .list [name, .map body] ∧ label name = .ok t)
    (h : inExprs (ps.filterMap query?) = .ok scopes) (key : String) :
    ∃ scopes', inPairs key ps = .ok scopes' ∧ List.Forall₂ Alike scopes scopes' := by
  induction ps generalizing scopes with
  | nil =>
    rw [List.filterMap_nil, inExprs] at h
    cases h
    exact ⟨[], by rw [inPairs], .nil⟩
  | cons p ps ih =>
    obtain ⟨⟨name, body, t, rfl, hname⟩, hrest⟩ := List.forall_mem_cons.mp hps
    rw [List.filterMap_cons, query?, inExprs] at h
    obtain ⟨scopes₁, h₁, h⟩ := exists_of_bind_eq_ok h
    obtain ⟨scopes₂, h₂, h⟩ := exists_of_bind_eq_ok h
    cases h
    obtain ⟨scopes₁', h₁', halike₁⟩ := inClause_alike h₁ (key ++ ":" ++ t)
    obtain ⟨scopes₂', h₂', halike₂⟩ := ih hrest h₂
    refine ⟨scopes₁' ++ scopes₂', ?_, List.rel_append halike₁ halike₂⟩
    rw [inPairs, inPair, hname]
    simp only [bind, Except.bind, h₁', h₂']
    rfl

theorem inExpr_leaf {v : Value} (h : isLeaf v = true) : inExpr v = .ok [] := by
  cases v <;> first | rfl | contradiction

/-- In clauses without a shape of their own the scopes are those of the expression. -/
theorem inValue_alike {key : String} {v : Value} (hv : Neat v)
    (htables : key ∉ Clause.tableExpressions) (hsets : key ∉ Clause.setOperations)
    (h : inExpr v = .ok scopes) :
    ∃ scopes', inValue key v = .ok scopes' ∧ List.Forall₂ Alike scopes scopes' := by
  cases hv with
  | leaf hv =>
    rw [inExpr_leaf hv] at h
    cases h
    exact ⟨[], by cases v <;> first | contradiction | simp [inValue, htables, hsets], .nil⟩
  | list =>
    rw [inExpr] at h
    refine ⟨numbered key scopes, ?_, alike_numbered key scopes⟩
    simp [inValue, htables, hsets, h, bind, Except.bind, pure, Except.pure]
  | @map es hne =>
    have hempty : es.isEmpty = false := by simpa using hne
    by_cases hform : Form.ofEntries Clause.order es = .clause
    · obtain ⟨scope, hscope, halike⟩ := exists_block_of_inExpr hform h key
      refine ⟨[scope], ?_, halike⟩
      simp [inValue, htables, hsets, hempty, hform, hscope, bind, Except.bind, pure, Except.pure]
    · rw [inExpr, if_neg hform] at h
      cases h
      exact ⟨[], by simp [inValue, htables, hsets, hempty, hform], .nil⟩

end Places

end AliasScope

/-- The value has these scopes, and a walk that leaves it as it is comes to these blocks in it. -/
structure Survey (v : Value) (scopes : List AliasScope) (visited : List Entries) : Prop where
  found : inExpr v = .ok scopes
  visits : Visits (Walk.expr Clause.order recorded v) v visited
  surveyed : Surveyed (within v) scopes visited

section Surveys

theorem survey_leaf {v : Value} (h : isLeaf v = true) : Survey v [] [] where
  found := inExpr_leaf h
  visits := by
    rw [Walk.expr_of_isLeaf h]
    exact .pure v
  surveyed := by
    have hwithin : within v = [] := by cases v <;> first | rfl | contradiction
    rw [hwithin]
    exact .nil

variable {vs ps : List Value} {scopes : Value → List AliasScope} {visited : Value → List Entries}

theorem inExprs_eq_ok (h : ∀ v ∈ vs, Survey v (scopes v) (visited v)) :
    inExprs vs = .ok (vs.flatMap scopes) := by
  induction vs with
  | nil => rw [inExprs, List.flatMap_nil]
  | cons v vs ih =>
    obtain ⟨hv, hvs⟩ := List.forall_mem_cons.mp h
    rw [inExprs, hv.found, ih hvs]
    rfl

theorem surveyed_all (h : ∀ v ∈ vs, Survey v (scopes v) (visited v)) :
    Surveyed (withinAll vs) (vs.flatMap scopes) (vs.flatMap visited) := by
  induction vs with
  | nil =>
    rw [withinAll]
    exact .nil
  | cons v vs ih =>
    obtain ⟨hv, hvs⟩ := List.forall_mem_cons.mp h
    rw [withinAll]
    exact hv.surveyed.append (ih hvs)

theorem visits_exprs (h : ∀ v ∈ vs, Survey v (scopes v) (visited v)) :
    Visits (Walk.exprs Clause.order recorded vs) vs (vs.flatMap visited) := by
  induction vs with
  | nil =>
    rw [Walk.exprs]
    exact .pure []
  | cons v vs ih =>
    obtain ⟨hv, hvs⟩ := List.forall_mem_cons.mp h
    rw [Walk.exprs]
    exact hv.visits.bind (ih hvs).map

/-- Of pairs a walk searches the queries. -/
theorem visits_pairs
    (hps : ∀ p ∈ ps, ∃ name body t, p = .list [name, .map body] ∧ label name = .ok t)
    (h : ∀ v ∈ ps.filterMap query?, Survey v (scopes v) (visited v)) :
    Visits (Walk.pairs Clause.order recorded ps) ps ((ps.filterMap query?).flatMap visited) := by
  induction ps with
  | nil =>
    rw [Walk.pairs]
    exact .pure []
  | cons p ps ih =>
    obtain ⟨⟨name, body, t, rfl, -⟩, hshapes⟩ := List.forall_mem_cons.mp hps
    obtain ⟨hbody, hrest⟩ := List.forall_mem_cons.mp h
    rw [Walk.pairs]
    refine .bind ?_ (ih hshapes hrest).map
    rw [Walk.pair]
    exact hbody.visits.map

theorem exists_surveyed_plain {key : String} {v : Value} (htables : key ∉ Clause.tableExpressions)
    (hsets : key ∉ Clause.setOperations) (hneat : ∀ w ∈ bodies (reach? (.text key)) v, Neat w)
    (h : ∀ w ∈ bodies (reach? (.text key)) v, Survey w (scopes w) (visited w)) :
    ∃ found listed, (key ∈ searched → inValue key v = .ok found) ∧
      Visits (visitEntry (.text key, v)) v listed ∧
      Surveyed (ofEntry (.text key, v)) found listed := by
  by_cases hexpr : key ∈ Walk.expressionClauses
  · have hreach : reach? (.text key) = some .expression := by
      simp [reach?, htables, hsets, hexpr]
    rw [hreach] at hneat h
    have hv := h v (List.mem_singleton_self v)
    obtain ⟨found, hfound, halike⟩ :=
      inValue_alike (hneat v (List.mem_singleton_self v)) htables hsets hv.found
    refine ⟨found, visited v, fun _ => hfound, ?_, ?_⟩
    · unfold visitEntry
      split
      · next hnull =>
        have hleaf : isLeaf v = true := by cases v <;> first | rfl | cases hnull
        rw [← Walk.expr_of_isLeaf hleaf]
        exact hv.visits
      · rw [hreach]
        exact hv.visits
    · rw [ofEntry, hreach, bodies, withinAll, withinAll, List.append_nil]
      exact hv.surveyed.alike halike
  · have hreach : reach? (.text key) = none := by simp [reach?, htables, hsets, hexpr]
    have hsearched : ∀ key ∈ searched, key ∈ Clause.tableExpressions ∨ key ∈ Clause.setOperations ∨
        key ∈ Walk.expressionClauses := by decide
    refine ⟨[], [], fun hkey => ?_, ?_, ?_⟩
    · rcases hsearched key hkey with hmem | hmem | hmem
      · exact absurd hmem htables
      · exact absurd hmem hsets
      · exact absurd hmem hexpr
    · rw [visitEntry, hreach, search, ite_self]
      exact .pure v
    · rw [ofEntry, hreach, bodies, withinAll]
      · exact .nil
      all_goals simp

/-- Each clause is searched in its own way, but the scopes and the blocks found are those of the
expressions in it. -/
theorem exists_surveyed_entry {e : Value × Value} (hframed : Framed e)
    (hneat : ∀ v ∈ bodies (reach? e.1) e.2, Neat v)
    (h : ∀ v ∈ bodies (reach? e.1) e.2, Survey v (scopes v) (visited v)) :
    ∃ found listed, (∀ key ∈ searched, e.1 = .text key → inValue key e.2 = .ok found) ∧
      Visits (visitEntry e) e.2 listed ∧ Surveyed (ofEntry e) found listed := by
  have hall := surveyed_all h
  have hexprs := inExprs_eq_ok h
  have hplain : ∀ key v, e = (.text key, v) → key ∉ Clause.tableExpressions →
      key ∉ Clause.setOperations → ∃ found listed,
        (∀ key ∈ searched, e.1 = .text key → inValue key e.2 = .ok found) ∧
          Visits (visitEntry e) e.2 listed ∧ Surveyed (ofEntry e) found listed := by
    rintro key v rfl htables hsets
    obtain ⟨found, listed, hfound, hvisits, hsurveyed⟩ :=
      exists_surveyed_plain htables hsets hneat h
    refine ⟨found, listed, fun key' hmem heq => ?_, hvisits, hsurveyed⟩
    cases heq
    exact hfound hmem
  cases hframed with
  | @tableExpressions key ps hkey hps =>
    have hreach : reach? (.text key) = some .tableExpressions := by simp [reach?, hkey]
    rw [hreach] at h hexprs
    obtain ⟨found, hfound, halike⟩ := inPairs_alike hps hexprs key
    refine ⟨found, _, fun key' _ heq => ?_, ?_, hall.alike (hreach ▸ halike)⟩
    · cases heq
      simp [inValue, hkey, hfound]
    · simp only [visitEntry, hreach]
      exact (visits_pairs hps h).map
  | @branches key vs hkey hvs =>
    have hapart : ∀ key ∈ Clause.setOperations, key ∉ Clause.tableExpressions := by decide
    have hreach : reach? (.text key) = some .branches := by simp [reach?, hkey, hapart key hkey]
    rw [hreach] at h hexprs
    obtain ⟨found, hfound, halike⟩ := inBranches_alike hvs hexprs key 0
    refine ⟨found, _, fun key' _ heq => ?_, ?_, hall.alike (hreach ▸ halike)⟩
    · cases heq
      simp [inValue, hkey, hapart key hkey, hfound]
    · simp only [visitEntry, hreach]
      exact (visits_exprs h).map
  | @join key vs hkey =>
    have hapart : ∀ key ∈ Clause.joins,
        key ∉ Clause.tableExpressions ∧ key ∉ Clause.setOperations := by decide
    exact hplain key _ rfl (hapart key hkey).1 (hapart key hkey).2
  | @other key v hkey =>
    simp only [shapedKeys, List.mem_append, not_or] at hkey
    exact hplain key v rfl hkey.1.1 hkey.1.2

variable {es : Entries}

theorem exists_surveyed_block (location : String) (hnodup : (searchedKeys es).Nodup)
    (hframed : ∀ e ∈ es, Framed e) (hneat : ∀ e ∈ es, ∀ w ∈ bodies (reach? e.1) e.2, Neat w)
    (h : ∀ e ∈ es, ∀ w ∈ bodies (reach? e.1) e.2, ∃ scopes visited, Survey w scopes visited) :
    ∃ scope visited, block location es (inEntries es) = .ok scope ∧
      Visits (Walk.walk Clause.order recorded (.map es)) (.map es) visited ∧
      Surveyed [es] [scope] visited := by
  have hentry : ∀ e ∈ es, ∃ found listed,
      (∀ key ∈ searched, e.1 = .text key → inValue key e.2 = .ok found) ∧
        Visits (visitEntry e) e.2 listed ∧ Surveyed (ofEntry e) found listed := by
    intro e he
    choose! scopes visited hsurvey using h e he
    exact exists_surveyed_entry (hframed e he) (hneat e he) hsurvey
  choose! found listed hfound hvisits hsurveyed using hentry
  obtain ⟨scope, hscope, hblock⟩ := surveyed_block location hnodup hframed hfound hsurveyed
  exact ⟨scope, _, hscope, (Visits.entries hvisits).bind (Visits.recorded es).map, hblock⟩

/-- The induction over the value. -/
theorem exists_survey {v : Value} (hv : Neat v) : ∃ scopes visited, Survey v scopes visited := by
  induction hv with
  | leaf h => exact ⟨[], [], survey_leaf h⟩
  | @list vs _ ih =>
    choose! scopes visited h using ih
    refine ⟨vs.flatMap scopes, vs.flatMap visited, ?_, ?_, ?_⟩
    · rw [inExpr]
      exact inExprs_eq_ok h
    · rw [Walk.expr]
      exact (visits_exprs h).map
    · rw [within]
      exact surveyed_all h
  | @map es _ hnodup hframed hneat ih =>
    by_cases hform : Form.ofEntries Clause.order es = .clause
    · obtain ⟨scope, visited, hscope, hvisits, hsurveyed⟩ :=
        exists_surveyed_block "" hnodup hframed hneat ih
      refine ⟨[scope], visited, ?_, ?_, ?_⟩
      · rw [inExpr, if_pos hform, hscope]
        rfl
      · rw [Walk.expr_eq_walk hform]
        exact hvisits
      · rw [within, if_pos hform]
        exact hsurveyed
    · refine ⟨[], [], ?_, ?_, ?_⟩
      · rw [inExpr, if_neg hform]
      · rw [Walk.expr, if_neg hform]
        exact .pure _
      · rw [within, if_neg hform]
        exact .nil

end Surveys

end SqlTree
