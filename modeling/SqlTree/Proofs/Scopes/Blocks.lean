import Mathlib.Data.List.Forall2
import Mathlib.Data.List.Nodup
import SqlTree.Proofs.Walked
import SqlTree.Scope

/-!
The query blocks that lie in one, the scopes that are laid out for them, and the blocks that a walk
comes to. Of the clauses that a walk searches, the scopes leave some out.
-/

namespace SqlTree

open Walk (Reach reach? isNull)

namespace QueryBlock

mutual

/-- The clause maps of an expression that lie in no other one. -/
def within : Value → List Entries
  | .map es => if Form.ofEntries Clause.order es = .clause then [es] else []
  | .list vs => withinAll vs
  | _ => []

def withinAll : List Value → List Entries
  | [] => []
  | v :: vs => within v ++ withinAll vs

end

/-- The query of a table expression. -/
def query? : Value → Option Value
  | .list [_, query] => some query
  | _ => none

/-- The expressions that are searched in a clause. -/
def bodies (reach : Option Reach) (v : Value) : List Value :=
  match reach, v with
  | some .tableExpressions, .list ps => ps.filterMap query?
  | some .branches, .list vs => vs
  | some .expression, v => [v]
  | _, _ => []

/-- The blocks that a walk finds in a clause. -/
def ofEntry (e : Value × Value) : List Entries := withinAll (bodies (reach? e.1) e.2)

/-- The clause has scopes of its own. -/
def isSearched (e : Value × Value) : Bool := e.1.text?.any AliasScope.searched.contains

def clauseAt (es : Entries) (key : String) : Option (Value × Value) :=
  es.find? fun e => e.1.text? = some key

/-- The clauses of a block that have scopes, in the order of these. -/
def searchedEntries (es : Entries) : Entries := AliasScope.searched.filterMap (clauseAt es)

/-- No clause that is left out holds a block. -/
def Closed (es : Entries) : Prop := ∀ e ∈ es, isSearched e = true ∨ ofEntry e = []

/-- The scope has the aliases of the block, and below it there is one scope for each block in a
searched clause. -/
inductive Covers : Entries → AliasScope → Prop
  | block {es : Entries} {scope : AliasScope} :
      AliasScope.tableAliases es = .ok scope.aliases →
      List.Forall₂ Covers ((searchedEntries es).flatMap ofEntry) scope.children →
      Covers es scope

end QueryBlock

open QueryBlock

namespace AliasScope

mutual

/-- The scope and all scopes below it. -/
def count : AliasScope → Nat
  | ⟨_, _, children⟩ => 1 + countAll children

def countAll : List AliasScope → Nat
  | [] => 0
  | scope :: scopes => count scope + countAll scopes

end

section Counts

theorem count_pos (scope : AliasScope) : 0 < scope.count := by
  cases scope
  rw [count]
  omega

theorem countAll_append (as bs : List AliasScope) :
    countAll (as ++ bs) = countAll as + countAll bs := by
  induction as with
  | nil => simp [countAll]
  | cons a as ih => rw [List.cons_append, countAll, countAll, ih, Nat.add_assoc]

theorem countAll_eq_zero_iff {scopes : List AliasScope} : countAll scopes = 0 ↔ scopes = [] := by
  cases scopes with
  | nil => simp [countAll]
  | cons a as => simp [countAll, Nat.ne_of_gt (count_pos a)]

theorem countAll_perm {α : Type} {f : α → List AliasScope} {as bs : List α} (h : as.Perm bs) :
    countAll (as.flatMap f) = countAll (bs.flatMap f) := by
  induction h with
  | nil => rfl
  | cons a _ ih => rw [List.flatMap_cons, List.flatMap_cons, countAll_append, countAll_append, ih]
  | swap a b as =>
    simp only [List.flatMap_cons, countAll_append]
    omega
  | trans _ _ ih ih' => exact ih.trans ih'

/-- Leaving out some of the lists leaves out scopes, unless these are empty. -/
theorem countAll_filter {α : Type} (f : α → List AliasScope) (p : α → Bool) (as : List α) :
    countAll ((as.filter p).flatMap f) ≤ countAll (as.flatMap f) ∧
      (countAll ((as.filter p).flatMap f) = countAll (as.flatMap f) ↔
        ∀ a ∈ as, p a = true ∨ f a = []) := by
  induction as with
  | nil => simp
  | cons a as ih =>
    rw [List.filter_cons, List.forall_mem_cons, ← ih.2, List.flatMap_cons, countAll_append]
    by_cases ha : p a = true
    · rw [if_pos ha, List.flatMap_cons, countAll_append]
      simp only [ha, true_or, true_and]
      omega
    · rw [if_neg ha, ← countAll_eq_zero_iff]
      simp only [ha, false_or, Bool.false_eq_true]
      omega

end Counts

/-- The scopes differ in nothing but their places. -/
structure Alike (a b : AliasScope) : Prop where
  aliases : b.aliases = a.aliases
  children : b.children = a.children

section Places

variable {blocks : List Entries} {scopes scopes' : List AliasScope}

theorem Alike.count {a b : AliasScope} (h : Alike a b) : b.count = a.count := by
  cases a
  cases b
  rw [AliasScope.count, AliasScope.count]
  exact congrArg (1 + countAll ·) h.children

theorem countAll_alike (h : List.Forall₂ Alike scopes scopes') :
    countAll scopes' = countAll scopes := by
  induction h with
  | nil => rfl
  | cons h _ ih => rw [countAll, countAll, h.count, ih]

theorem Alike.covers {es : Entries} {a b : AliasScope} (h : Alike a b) (hes : Covers es a) :
    Covers es b := by
  cases hes with
  | block haliases hchildren =>
    exact .block (by rw [h.aliases, haliases]) (by rw [h.children]; exact hchildren)

theorem covers_alike (hcovers : List.Forall₂ Covers blocks scopes)
    (h : List.Forall₂ Alike scopes scopes') : List.Forall₂ Covers blocks scopes' := by
  induction hcovers generalizing scopes' with
  | nil =>
    cases h
    exact .nil
  | cons hes _ ih =>
    cases h with
    | cons ha has => exact .cons (ha.covers hes) (ih has)

theorem alike_numbered (base : String) (scopes : List AliasScope) :
    List.Forall₂ Alike scopes (numbered base scopes) := by
  have hplaced : ∀ place : Nat → String, List.Forall₂ Alike scopes
      (scopes.mapIdx fun i scope => { scope with location := place i }) := by
    induction scopes with
    | nil => exact fun _ => .nil
    | cons a as ih =>
      intro place
      rw [List.mapIdx_cons]
      exact .cons ⟨rfl, rfl⟩ (ih fun i => place (i + 1))
  exact hplaced _

end Places

end AliasScope

open AliasScope

section Visits

variable {α β : Type}

/-- The walk that changes nothing and writes down the blocks that it comes to. -/
def Walk.recorded (es : Entries) : Walk (List Entries) Entries := do
  modify (· ++ [es])
  return es

/-- The walk of an entry's value. A null is passed over. -/
def visitEntry (e : Value × Value) : Walk (List Entries) Value :=
  if isNull e.2 then pure e.2 else Walk.search Clause.order Walk.recorded (reach? e.1) e.2

/-- Of a walk that writes down the blocks: it comes to the result and to these blocks. -/
def Visits (x : Walk (List Entries) α) (a : α) (visited : List Entries) : Prop :=
  ∀ before, x before = .ok (a, before ++ visited)

namespace Visits

theorem pure (a : α) : Visits (pure a) a [] := fun before => by
  rw [List.append_nil]
  rfl

theorem bind {x : Walk (List Entries) α} {f : α → Walk (List Entries) β} {a : α} {b : β}
    {visited visited' : List Entries} (h : Visits x a visited) (hf : Visits (f a) b visited') :
    Visits (x >>= f) b (visited ++ visited') := fun before => by
  change (x before).bind (fun r => f r.1 r.2) = _
  rw [h before, ← List.append_assoc]
  exact hf (before ++ visited)

theorem map {x : Walk (List Entries) α} {f : α → β} {a : α} {visited : List Entries}
    (h : Visits x a visited) : Visits (do return f (← x)) (f a) visited := by
  have hmap : Visits (x >>= fun a => Pure.pure (f a)) (f a) (visited ++ []) := h.bind (pure (f a))
  rwa [List.append_nil] at hmap

theorem recorded (es : Entries) : Visits (Walk.recorded es) es [es] := fun _ => rfl

theorem entries {es : Entries} {visited : Value × Value → List Entries}
    (h : ∀ e ∈ es, Visits (visitEntry e) e.2 (visited e)) :
    Visits (Walk.entries Clause.order Walk.recorded es) es (es.flatMap visited) := by
  induction es with
  | nil =>
    rw [Walk.entries]
    exact pure []
  | cons e es ih =>
    obtain ⟨he, hes⟩ := List.forall_mem_cons.mp h
    rw [Walk.entries]
    exact he.bind (ih hes).map

end Visits

end Visits

/-- The scopes and the blocks that a walk comes to below the same blocks. -/
structure Surveyed (blocks : List Entries) (scopes : List AliasScope) (visited : List Entries) :
    Prop where
  covers : List.Forall₂ Covers blocks scopes
  le : countAll scopes ≤ visited.length
  eq_iff : countAll scopes = visited.length ↔ ∀ es ∈ visited, Closed es

namespace Surveyed

variable {blocks blocks' visited visited' : List Entries} {scopes scopes' : List AliasScope}

theorem nil : Surveyed [] [] [] := ⟨.nil, Nat.le_refl 0, iff_of_true rfl nofun⟩

theorem append (h : Surveyed blocks scopes visited) (h' : Surveyed blocks' scopes' visited') :
    Surveyed (blocks ++ blocks') (scopes ++ scopes') (visited ++ visited') where
  covers := List.rel_append h.covers h'.covers
  le := by
    rw [countAll_append, List.length_append]
    exact Nat.add_le_add h.le h'.le
  eq_iff := by
    rw [countAll_append, List.length_append, List.forall_mem_append, ← h.eq_iff, ← h'.eq_iff]
    have hle := h.le
    have hle' := h'.le
    omega

theorem alike (h : Surveyed blocks scopes visited) (halike : List.Forall₂ Alike scopes scopes') :
    Surveyed blocks scopes' visited where
  covers := covers_alike h.covers halike
  le := by
    rw [countAll_alike halike]
    exact h.le
  eq_iff := by
    rw [countAll_alike halike]
    exact h.eq_iff

theorem flatMap {es : Entries} {scopes : Value × Value → List AliasScope}
    {visited : Value × Value → List Entries}
    (h : ∀ e ∈ es, Surveyed (ofEntry e) (scopes e) (visited e)) :
    Surveyed (es.flatMap ofEntry) (es.flatMap scopes) (es.flatMap visited) := by
  induction es with
  | nil => exact nil
  | cons e es ih =>
    obtain ⟨he, hes⟩ := List.forall_mem_cons.mp h
    exact he.append (ih hes)

end Surveyed

section Searched

variable {es : Entries} {key : String}

theorem clauseAt_eq_some {e : Value × Value} (h : clauseAt es key = some e) :
    e ∈ es ∧ e.1 = .text key := by
  have hkey := List.find?_some h
  refine ⟨List.mem_of_find?_eq_some h, ?_⟩
  cases hk : e.1 <;> simp [hk, Value.text?] at hkey
  rw [hkey]

theorem isSearched_iff {e : Value × Value} :
    isSearched e = true ↔ ∃ key ∈ searched, e.1 = .text key := by
  unfold isSearched
  cases e.1 <;> simp [Value.text?]

/-- The keys of the clauses that have scopes. -/
def searchedKeys (es : Entries) : List Value := (es.filter isSearched).map (·.1)

theorem searchedKeys_append (es fs : Entries) :
    searchedKeys (es ++ fs) = searchedKeys es ++ searchedKeys fs := by
  rw [searchedKeys, List.filter_append, List.map_append]
  rfl

/-- A clause that is searched comes at most once, so its entry is the one that is found. -/
theorem clauseAt_of_mem {e : Value × Value} (hnodup : (searchedKeys es).Nodup) (he : e ∈ es)
    (hkey : e.1 = .text key) (hmem : key ∈ searched) : clauseAt es key = some e := by
  have hfound : (clauseAt es key).isSome = true := by
    rw [clauseAt, List.find?_isSome]
    exact ⟨e, he, by simp [hkey, Value.text?]⟩
  obtain ⟨f, hf⟩ := Option.isSome_iff_exists.mp hfound
  obtain ⟨hfmem, hfkey⟩ := clauseAt_eq_some hf
  have hfs : f ∈ es.filter isSearched :=
    List.mem_filter.mpr ⟨hfmem, isSearched_iff.mpr ⟨key, hmem, hfkey⟩⟩
  have hes : e ∈ es.filter isSearched :=
    List.mem_filter.mpr ⟨he, isSearched_iff.mpr ⟨key, hmem, hkey⟩⟩
  rw [hf, List.inj_on_of_nodup_map hnodup hfs hes (hfkey.trans hkey.symm)]

theorem nodup_searched : searched.Nodup := by decide

theorem nodup_searchedEntries : (searchedEntries es).Nodup :=
  List.Nodup.filterMap (fun _ _ _ h h' =>
    Value.text.inj ((clauseAt_eq_some h).2.symm.trans (clauseAt_eq_some h').2)) nodup_searched

theorem searchedEntries_perm (hnodup : (searchedKeys es).Nodup) :
    (searchedEntries es).Perm (es.filter isSearched) := by
  have hfilter : (es.filter isSearched).Nodup := List.Nodup.of_map _ hnodup
  refine (List.perm_ext_iff_of_nodup nodup_searchedEntries hfilter).mpr fun e => ?_
  rw [List.mem_filter, isSearched_iff]
  constructor
  · intro he
    obtain ⟨key, hkey, he⟩ := List.mem_filterMap.mp he
    exact ⟨(clauseAt_eq_some he).1, key, hkey, (clauseAt_eq_some he).2⟩
  · rintro ⟨he, key, hmem, hkey⟩
    exact List.mem_filterMap.mpr ⟨key, hmem, clauseAt_of_mem hnodup he hkey hmem⟩

end Searched

end SqlTree
