import SqlTree.Dialect
import SqlTree.Registry
import Mathlib.Data.List.Nodup
import Mathlib.Data.List.Perm.Basic

/-!
What calls make of registries. Whatever is registered, and in whatever order, the clauses that have
a form are those that have a place in the order, and each of them has one place.
-/

namespace SqlTree

/-- A call that changes one registry, if it does not fail. -/
inductive Registration where
  | operator (name : String) (ignoreNil unary : Bool)
  | form (name : String) (f : Handover SpecialForm)
  | clause (name : String) (f : Handover ClauseForm) (anchor : Option String)

def Registration.apply (r : Registry) : Registration → Except Fault Registry
  | .operator name ignoreNil unary => r.registerOperator name ignoreNil unary
  | .form name f => r.registerForm name f
  | .clause name f anchor => r.registerClause name f anchor

/-- Registries are counted in the order in which they were made. -/
inductive Call where
  | register (i : Nat) (change : Registration)
  | copy (i : Nat)

/-- A call that fails leaves all registries as they are. -/
def Call.step (rs : List Registry) : Call → List Registry
  | .register i change =>
    match rs[i]? with
    | none => rs
    | some r =>
      match change.apply r with
      | .ok r' => rs.set i r'
      | .error _ => rs
  | .copy i => rs ++ rs[i]?.toList

/-- The registries after some calls. There is one to begin with. -/
def registries (calls : List Call) : List Registry := calls.foldl Call.step [.base]

section Induction

variable {P : Registry → Prop}
  (keeps : ∀ {r r' : Registry} {change : Registration}, P r → change.apply r = .ok r' → P r')

include keeps

theorem Call.step_keeps {rs : List Registry} (h : ∀ r ∈ rs, P r) (call : Call) :
    ∀ r ∈ call.step rs, P r := by
  intro r hr
  cases call with
  | register i change =>
    simp only [Call.step] at hr
    split at hr
    · exact h r hr
    · next old hold =>
      split at hr
      · next new hnew =>
        rcases List.mem_or_eq_of_mem_set hr with hr | rfl
        · exact h r hr
        · exact keeps (h old (List.mem_of_getElem? hold)) hnew
      · exact h r hr
  | copy i =>
    rcases List.mem_append.mp hr with hr | hr
    · exact h r hr
    · exact h r (List.mem_of_getElem? (Option.mem_toList.mp hr))

/-- What holds at the beginning, and is kept by each registration, holds of all registries. -/
theorem registries_induction {calls : List Call} {r : Registry} (base : P .base)
    (hr : r ∈ registries calls) : P r := by
  have hrun : ∀ rs, (∀ r ∈ rs, P r) → ∀ r ∈ calls.foldl Call.step rs, P r := by
    clear hr
    induction calls with
    | nil => exact fun _ h => h
    | cons call calls ih => exact fun rs h => ih _ (Call.step_keeps keeps h call)
  exact hrun [.base] (by simpa using base) r hr

end Induction

/-- Each clause with a form has one place in the order, and nothing else has. -/
structure Registry.IsSound (r : Registry) : Prop where
  nodup : r.clauseOrder.Nodup
  mem_keys : ∀ key, key ∈ r.clauseOrder ↔ key ∈ r.clauseKeys

theorem Registry.clause?_eq_none_iff {r : Registry} {key : String} :
    r.clause? key = none ↔ key ∉ r.clauseKeys := by
  unfold Registry.clause? Registry.clauseKeys
  rw [List.lookup_eq_none_iff, List.mem_map, not_exists]
  simp only [bne_iff_ne, not_and]
  exact forall₂_congr fun e _ => ne_comm

namespace Clause

theorem insertBefore_perm {key anchor : String} {l : List String} (h : anchor ∈ l) :
    (insertBefore key anchor l).Perm (key :: l) := by
  induction l with
  | nil => cases h
  | cons k ks ih =>
    by_cases hk : k = anchor
    · rw [insertBefore, if_pos hk]
    · have hmem : anchor ∈ ks := (List.mem_cons.mp h).resolve_left (Ne.symm hk)
      rw [insertBefore, if_neg hk]
      exact ((ih hmem).cons k).trans (.swap key k ks)

/-- Moving a clause does not lose any. -/
theorem insertBefore_filter_perm {key anchor : String} {l : List String} (hl : l.Nodup)
    (hkey : key ∈ l) (hanchor : anchor ∈ l) (hne : anchor ≠ key) :
    (insertBefore key anchor (l.filter (· != key))).Perm l := by
  have hmem : anchor ∈ l.filter (· != key) := by simp [hanchor, hne]
  have herase : l.filter (· != key) = l.erase key := (hl.erase_eq_filter key).symm
  have hperm := @insertBefore_perm key _ _ hmem
  rw [herase] at hperm ⊢
  exact hperm.trans (List.perm_cons_erase hkey).symm

end Clause

theorem Dialect.clauseOrder_perm (d : Dialect) {order : List String} (h : order.Nodup) :
    (d.clauseOrder order).Perm order := by
  cases d with
  | mysql =>
    unfold Dialect.clauseOrder
    dsimp only
    split
    · next hboth =>
      simp only [Bool.and_eq_true, List.contains_iff_mem] at hboth
      exact Clause.insertBefore_filter_perm h hboth.1 hboth.2 (by decide)
    · exact .refl _
  | _ => exact .refl _

namespace Registry.IsSound

theorem base : Registry.base.IsSound where
  nodup := by decide
  mem_keys _ := Iff.rfl

variable {r r' : Registry}

theorem congr (h : r.IsSound) (hclauses : r'.clauses = r.clauses) (horder : r'.order = r.order) :
    r'.IsSound where
  nodup := by
    rw [Registry.clauseOrder, horder]
    exact h.nodup
  mem_keys key := by
    rw [Registry.clauseOrder, Registry.clauseKeys, horder, hclauses]
    exact h.mem_keys key

/-- The clause has a place of its own among the others. -/
theorem placed (h : r.IsSound) {name : String} {f : ClauseForm} {order : List String}
    (horder : order.Perm (name :: r.order.filter (· != name))) :
    ({ r with clauses := r.clauses.filter (·.1 != name) ++ [(name, f)], order } : Registry).IsSound where
  nodup := by
    have hfilter : (name :: r.order.filter (· != name)).Nodup := by
      refine List.nodup_cons.mpr ⟨by simp, ?_⟩
      exact List.Nodup.filter _ h.nodup
    exact horder.nodup_iff.mpr hfilter
  mem_keys key := by
    have hkeys : key ∈ r.order ↔ key ∈ r.clauses.map (·.1) := h.mem_keys key
    have hothers : key ∈ (r.clauses.filter (·.1 != name)).map (·.1) ↔
        key ∈ r.clauses.map (·.1) ∧ key ≠ name := by
      simp only [List.mem_map, List.mem_filter, bne_iff_ne]
      constructor
      · rintro ⟨e, ⟨he, hne⟩, rfl⟩
        exact ⟨⟨e, he, rfl⟩, hne⟩
      · rintro ⟨⟨e, he, rfl⟩, hne⟩
        exact ⟨e, ⟨he, hne⟩, rfl⟩
    change key ∈ order ↔ key ∈ (r.clauses.filter (·.1 != name) ++ [(name, f)]).map (·.1)
    rw [horder.mem_iff, List.map_append, List.mem_append, hothers, ← hkeys]
    by_cases hname : key = name
    · simp [hname]
    · simp [hname]

theorem registerClause {name : String} {f : Handover ClauseForm} {anchor : Option String}
    (h : r.IsSound) (hr : r.registerClause name f anchor = .ok r') : r'.IsSound := by
  cases f with
  | other v => cases hr
  | form f =>
    cases anchor with
    | none =>
      cases hr
      exact h.placed (List.perm_append_singleton name _)
    | some key =>
      simp only [Registry.registerClause] at hr
      split at hr
      · cases hr
      · next hknown =>
        split at hr
        · cases hr
        · next hname =>
          cases hr
          refine h.placed (Clause.insertBefore_perm ?_)
          have hkey : key ∈ r.order := by simpa using hknown
          simp [hkey, hname]

/-- One call. -/
theorem apply {change : Registration} (h : r.IsSound) (hr : change.apply r = .ok r') :
    r'.IsSound := by
  cases change with
  | operator name ignoreNil unary =>
    simp only [Registration.apply, Registry.registerOperator] at hr
    split at hr
    · cases hr
    · cases hr
      exact h.congr rfl rfl
  | form name f =>
    cases f with
    | other v => cases hr
    | form f =>
      cases hr
      exact h.congr rfl rfl
  | clause name f anchor => exact h.registerClause hr

theorem of_registries {calls : List Call} (hr : r ∈ registries calls) : r.IsSound :=
  registries_induction (fun h => h.apply) base hr

end Registry.IsSound

end SqlTree
