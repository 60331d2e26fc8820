import SqlTree.Proofs.Parts
import SqlTree.Walk.Basic

/-!
What a walk leaves of a tree. Every clause map of the result is one that the walk has rebuilt, or
lies in a value that the walk has passed over.
-/

namespace SqlTree

namespace Walk

open Value (Occurs)

section Yields

variable {σ α β : Type}

/-- The walk can come to this result, whatever its state is before and after. -/
def Yields (x : Walk σ α) (a : α) : Prop := ∃ s s', x s = .ok (a, s')

theorem Yields.bind {x : Walk σ α} {f : α → Walk σ β} {b : β} (h : Yields (x >>= f) b) :
    ∃ a, Yields x a ∧ Yields (f a) b := by
  obtain ⟨s, s', h⟩ := h
  simp only [Bind.bind, StateT.bind, Except.bind] at h
  split at h
  · cases h
  · next r hr => exact ⟨r.1, ⟨s, r.2, hr⟩, r.2, s', h⟩

theorem Yields.pure {a b : α} (h : Yields (pure a : Walk σ α) b) : b = a := by
  obtain ⟨s, s', h⟩ := h
  cases h
  rfl

theorem Yields.not_reject {f : Fault} {a : α} : ¬ Yields (reject f : Walk σ α) a :=
  fun ⟨_, _, h⟩ => by cases h

end Yields

section

variable {σ : Type} (clauses : List String) (transform : Entries → Walk σ Entries)

/-- The walk of a value in a place that is searched as `reach` says. -/
def search (reach : Option Reach) (v : Value) : Walk σ Value :=
  match reach with
  | some .tableExpressions => tableExpressions clauses transform v
  | some .branches => branches clauses transform v
  | some .expression => expr clauses transform v
  | none => pure v

/-- `u` is a part of `v` that the walk leaves as it is, where `v` is searched as the index says. -/
inductive PassedOver (u : Value) : Option Reach → Value → Prop
  | whole : PassedOver u none u
  | other : u.items? = none →
      (∀ es, u = .map es → Form.ofEntries clauses es ≠ .clause) →
      PassedOver u (some .expression) u
  | item {v w : Value} {vs : List Value} : v.items? = some vs → w ∈ vs →
      PassedOver u (some .expression) w → PassedOver u (some .expression) v
  | key {es : Entries} {e : Value × Value} : Form.ofEntries clauses es = .clause → e ∈ es →
      u = e.1 → PassedOver u (some .expression) (.map es)
  | entry {es : Entries} {e : Value × Value} : Form.ofEntries clauses es = .clause → e ∈ es →
      PassedOver u (reach? e.1) e.2 → PassedOver u (some .expression) (.map es)
  | branch {v w : Value} {vs : List Value} : v.elements? = some vs → w ∈ vs →
      PassedOver u (some .expression) w → PassedOver u (some .branches) v
  | name {v p query : Value} {ps : List Value} : v.elements? = some ps → p ∈ ps →
      p.elements? = some [u, query] → PassedOver u (some .tableExpressions) v
  | query {v p name query : Value} {ps : List Value} : v.elements? = some ps → p ∈ ps →
      p.elements? = some [name, query] → PassedOver u (some .expression) query →
      PassedOver u (some .tableExpressions) v

section Results

variable {clauses transform}

theorem exprs_yields {vs ws : List Value} (h : Yields (exprs clauses transform vs) ws) :
    ∀ w ∈ ws, ∃ v ∈ vs, Yields (expr clauses transform v) w := by
  induction vs generalizing ws with
  | nil =>
    rw [exprs] at h
    simp [h.pure]
  | cons v vs ih =>
    rw [exprs] at h
    obtain ⟨w, hw, h⟩ := h.bind
    obtain ⟨us, hus, h⟩ := h.bind
    obtain rfl := h.pure
    intro x hx
    rcases List.mem_cons.mp hx with rfl | hx
    · exact ⟨v, by simp, hw⟩
    · obtain ⟨y, hy, hyx⟩ := ih hus x hx
      exact ⟨y, by simp [hy], hyx⟩

theorem keys_eq_exprs (es : Entries) :
    keys clauses transform es = exprs clauses transform (es.map (·.1)) := by
  induction es with
  | nil => rw [keys, List.map_nil, exprs]
  | cons e es ih => rw [keys, List.map_cons, exprs, ih]

theorem keyPairs_eq_pairs (es : Entries) :
    keyPairs clauses transform es = pairs clauses transform (es.map (·.1)) := by
  induction es with
  | nil => rw [keyPairs, List.map_nil, pairs]
  | cons e es ih => rw [keyPairs, List.map_cons, pairs, ih]

theorem pairs_yields {ps ws : List Value} (h : Yields (pairs clauses transform ps) ws) :
    ∀ w ∈ ws, ∃ p ∈ ps, Yields (pair clauses transform p) w := by
  induction ps generalizing ws with
  | nil =>
    rw [pairs] at h
    simp [h.pure]
  | cons p ps ih =>
    rw [pairs] at h
    obtain ⟨w, hw, h⟩ := h.bind
    obtain ⟨us, hus, h⟩ := h.bind
    obtain rfl := h.pure
    intro x hx
    rcases List.mem_cons.mp hx with rfl | hx
    · exact ⟨p, by simp, hw⟩
    · obtain ⟨q, hq, hqx⟩ := ih hus x hx
      exact ⟨q, by simp [hq], hqx⟩

theorem eq_null_of_isNull {v : Value} (h : isNull v = true) : v = .null := by
  cases v <;> first | rfl | cases h

theorem entries_yields {es es' : Entries} (h : Yields (entries clauses transform es) es') :
    ∀ f ∈ es', ∃ e ∈ es, f.1 = e.1 ∧
      (f.2 = .null ∨ Yields (search clauses transform (reach? e.1) e.2) f.2) := by
  induction es generalizing es' with
  | nil =>
    rw [entries] at h
    simp [h.pure]
  | cons e es ih =>
    rw [entries] at h
    obtain ⟨w, hw, h⟩ := h.bind
    obtain ⟨us, hus, h⟩ := h.bind
    obtain rfl := h.pure
    intro x hx
    rcases List.mem_cons.mp hx with rfl | hx
    · refine ⟨e, by simp, rfl, ?_⟩
      split at hw
      · next hnull =>
        rw [hw.pure]
        exact .inl (eq_null_of_isNull hnull)
      · exact .inr hw
    · obtain ⟨y, hy, hyx⟩ := ih hus x hx
      exact ⟨y, by simp [hy], hyx⟩

/-- A value that holds no others, unless as a text holds its characters. -/
def isLeaf : Value → Bool
  | .list _ | .tuple _ | .set _ | .map _ => false
  | _ => true

theorem expr_of_isLeaf {v : Value} (h : isLeaf v = true) :
    expr clauses transform v = pure v := by
  cases v <;> first | rfl | contradiction

theorem isLeaf_of_element {v w : Value} {vs : List Value} (h : isLeaf v = true)
    (hv : v.elements? = some vs) (hw : w ∈ vs) : isLeaf w = true := by
  cases v <;> simp only [Value.elements?, reduceCtorEq, Option.some.injEq] at hv <;> subst hv
  case text =>
    obtain ⟨c, -, rfl⟩ := List.mem_map.mp hw
    rfl
  case bytes =>
    obtain ⟨c, -, rfl⟩ := List.mem_map.mp hw
    rfl
  case buffer =>
    obtain ⟨c, -, rfl⟩ := List.mem_map.mp hw
    rfl
  all_goals contradiction

theorem Yields.expr_leaf {α : Type} {x : Walk σ α} {a : α} (h : Yields x a) {v : Value}
    (hv : isLeaf v = true) : Yields (expr clauses transform v) v := by
  obtain ⟨s, -, -⟩ := h
  exact ⟨s, s, by rw [expr_of_isLeaf hv]; rfl⟩

theorem isLeaf_of_ne {v : Value} (hl : ∀ vs, v = .list vs → False)
    (ht : ∀ vs, v = .tuple vs → False) (hs : ∀ vs, v = .set vs → False)
    (hm : ∀ es, v = .map es → False) : isLeaf v = true := by
  cases v with
  | list vs => exact (hl vs rfl).elim
  | tuple vs => exact (ht vs rfl).elim
  | set vs => exact (hs vs rfl).elim
  | map es => exact (hm es rfl).elim
  | _ => rfl

theorem branches_yields {v w : Value} (h : Yields (branches clauses transform v) w) :
    ∃ vs ws, v.elements? = some vs ∧ w = .list ws ∧
      ∀ x ∈ ws, ∃ y ∈ vs, Yields (expr clauses transform y) x := by
  have hwalk : ∀ vs, v.elements? = some vs →
      Yields (do return .list (← exprs clauses transform vs)) w →
      ∃ vs ws, v.elements? = some vs ∧ w = .list ws ∧
        ∀ x ∈ ws, ∃ y ∈ vs, Yields (expr clauses transform y) x := by
    intro vs hv h
    obtain ⟨ws, hws, h⟩ := h.bind
    exact ⟨vs, ws, hv, h.pure, exprs_yields hws⟩
  unfold branches at h
  split at h
  · exact hwalk _ rfl h
  · exact hwalk _ rfl h
  · exact hwalk _ rfl h
  · exact hwalk _ rfl (keys_eq_exprs _ ▸ h)
  · next hl ht hs hm =>
    split at h
    · next vs hvs =>
      refine ⟨vs, vs, hvs, h.pure, fun x hx => ⟨x, hx, h.expr_leaf ?_⟩⟩
      exact isLeaf_of_element (isLeaf_of_ne hl ht hs hm) hvs hx
    · exact h.not_reject.elim

theorem pair_yields {v w : Value} (h : Yields (pair clauses transform v) w) :
    ∃ name query q, v.elements? = some [name, query] ∧ w = .list [name, q] ∧
      Yields (expr clauses transform query) q := by
  have hwalk : ∀ name query, v.elements? = some [name, query] →
      Yields (do return .list [name, ← expr clauses transform query]) w →
      ∃ name query q, v.elements? = some [name, query] ∧ w = .list [name, q] ∧
        Yields (expr clauses transform query) q := by
    intro name query hv h
    obtain ⟨q, hq, h⟩ := h.bind
    exact ⟨name, query, q, hv, h.pure, hq⟩
  unfold pair at h
  split at h
  · exact hwalk _ _ rfl h
  · exact hwalk _ _ rfl h
  · exact hwalk _ _ rfl h
  · exact hwalk _ _ rfl h
  · split at h
    · exact h.not_reject.elim
    · exact h.not_reject.elim
    · exact h.not_reject.elim
    · exact h.not_reject.elim
    · next name query hl ht hs hm _ _ _ _ hv =>
      have hleaf := isLeaf_of_element (isLeaf_of_ne hl ht hs hm) hv (w := query) (by simp)
      exact ⟨name, query, query, hv, h.pure, h.expr_leaf hleaf⟩
    · exact h.not_reject.elim

theorem tableExpressions_yields {v w : Value}
    (h : Yields (tableExpressions clauses transform v) w) :
    ∃ ps ws, v.elements? = some ps ∧ w = .list ws ∧
      ∀ x ∈ ws, ∃ p ∈ ps, Yields (pair clauses transform p) x := by
  have hwalk : ∀ ps, v.elements? = some ps →
      Yields (do return .list (← pairs clauses transform ps)) w →
      ∃ ps ws, v.elements? = some ps ∧ w = .list ws ∧
        ∀ x ∈ ws, ∃ p ∈ ps, Yields (pair clauses transform p) x := by
    intro ps hv h
    obtain ⟨ws, hws, h⟩ := h.bind
    exact ⟨ps, ws, hv, h.pure, pairs_yields hws⟩
  unfold tableExpressions at h
  split at h
  · exact hwalk _ rfl h
  · exact hwalk _ rfl h
  · exact hwalk _ rfl h
  · exact hwalk _ rfl (keyPairs_eq_pairs _ ▸ h)
  · split at h
    · next hv => exact ⟨[], [], hv, h.pure, by simp⟩
    · exact h.not_reject.elim
    · exact h.not_reject.elim

end Results

/-- All clause maps in a value are of a kind. -/
def AllClauses (G : Entries → Prop) (v : Value) : Prop :=
  ∀ es, Occurs (.map es) v → Form.ofEntries clauses es = .clause → G es

section Kinds

variable {clauses transform} {G : Entries → Prop}

theorem AllClauses.of_occurs {u v : Value} (h : AllClauses clauses G v) (hu : Occurs u v) :
    AllClauses clauses G u :=
  fun es hes => h es (hes.trans hu)

theorem isLeaf_of_occurs {u v : Value} (h : Occurs u v) (hv : isLeaf v = true) :
    isLeaf u = true := by
  induction h with
  | here => exact hv
  | element he hw _ ih => exact ih (isLeaf_of_element hv he hw)
  | entry => contradiction

theorem AllClauses.leaf {v : Value} (h : isLeaf v = true) : AllClauses clauses G v := by
  intro es hes
  have := isLeaf_of_occurs hes h
  contradiction

theorem AllClauses.list {vs : List Value} (h : ∀ v ∈ vs, AllClauses clauses G v) :
    AllClauses clauses G (.list vs) := by
  intro es hes
  cases hes with
  | element he hw hes =>
    cases he
    exact h _ hw es hes

theorem AllClauses.map {es : Entries} (hes : Form.ofEntries clauses es = .clause → G es)
    (h : ∀ e ∈ es, AllClauses clauses G e.1 ∧ AllClauses clauses G e.2) :
    AllClauses clauses G (.map es) := by
  intro fs hfs
  cases hfs with
  | here => exact hes
  | element he hw hfs =>
    cases he
    obtain ⟨e, he, rfl⟩ := List.mem_map.mp hw
    exact (h e he).1 fs hfs
  | entry he hfs => exact (h _ he).2 fs hfs

/-- What a transformation has to keep: given entries whose parts are all of the kind, it makes a
clause map of the kind and brings in no others. -/
structure Keeps (clauses : List String) (transform : Entries → Walk σ Entries)
    (G : Entries → Prop) (v : Value) : Prop where
  built : ∀ {es es₁ es₂}, Occurs (.map es) v → Yields (entries clauses transform es) es₁ →
    Yields (transform es₁) es₂ → G es₂
  parts : ∀ {es₁ es₂}, Yields (transform es₁) es₂ →
    (∀ e ∈ es₁, AllClauses clauses G e.1 ∧ AllClauses clauses G e.2) →
    ∀ e ∈ es₂, AllClauses clauses G e.1 ∧ AllClauses clauses G e.2

theorem Keeps.of_occurs {u v : Value} (h : Keeps clauses transform G v) (hu : Occurs u v) :
    Keeps clauses transform G u where
  built hes := h.built (hes.trans hu)
  parts := h.parts

/-- What a walk of `v` as an expression comes to. -/
def ExprSound (clauses : List String) (transform : Entries → Walk σ Entries)
    (G : Entries → Prop) (v : Value) : Prop :=
  ∀ w, Yields (expr clauses transform v) w → Keeps clauses transform G v →
    (∀ u, PassedOver clauses u (some .expression) v → AllClauses clauses G u) →
    AllClauses clauses G w

theorem search_allClauses_of {reach : Option Reach} {v w : Value}
    (hexpr : ∀ y, Occurs y v → ExprSound clauses transform G y)
    (h : Yields (search clauses transform reach v) w) (hk : Keeps clauses transform G v)
    (hover : ∀ u, PassedOver clauses u reach v → AllClauses clauses G u) :
    AllClauses clauses G w := by
  match reach with
  | none => exact h.pure ▸ hover v .whole
  | some .expression => exact hexpr v .here w h hk hover
  | some .branches =>
    obtain ⟨vs, ws, hvs, rfl, hws⟩ := branches_yields h
    refine .list fun x hx => ?_
    obtain ⟨y, hy, hyx⟩ := hws x hx
    have hyv : Occurs y v := .element hvs hy .here
    exact hexpr y hyv x hyx (hk.of_occurs hyv) fun u hu => hover u (.branch hvs hy hu)
  | some .tableExpressions =>
    obtain ⟨ps, ws, hps, rfl, hws⟩ := tableExpressions_yields h
    refine .list fun x hx => ?_
    obtain ⟨p, hp, hpx⟩ := hws x hx
    obtain ⟨name, query, q, hpair, rfl, hq⟩ := pair_yields hpx
    have hqv : Occurs query v := .element hps hp (.element hpair (by simp) .here)
    refine .list fun y hy => ?_
    simp only [List.mem_cons, List.not_mem_nil, or_false] at hy
    rcases hy with rfl | rfl
    · exact hover _ (.name hps hp hpair)
    · exact hexpr query hqv _ hq (hk.of_occurs hqv) fun u hu => hover u (.query hps hp hpair hu)

theorem entries_allClauses {es es₁ : Entries}
    (hexpr : ∀ e ∈ es, ∀ y, Occurs y e.2 → ExprSound clauses transform G y)
    (hform : Form.ofEntries clauses es = .clause)
    (h : Yields (entries clauses transform es) es₁) (hk : Keeps clauses transform G (.map es))
    (hover : ∀ u, PassedOver clauses u (some .expression) (.map es) → AllClauses clauses G u) :
    ∀ e ∈ es₁, AllClauses clauses G e.1 ∧ AllClauses clauses G e.2 := by
  intro f hf
  obtain ⟨e, he, hkey, hvalue⟩ := entries_yields h f hf
  refine ⟨hkey ▸ hover _ (.key hform he rfl), ?_⟩
  rcases hvalue with hnull | hvalue
  · exact hnull ▸ .leaf rfl
  · exact search_allClauses_of (hexpr e he) hvalue (hk.of_occurs (.entry he .here))
      fun u hu => hover u (.entry hform he hu)

theorem exprSound_array {v : Value} {vs ws : List Value} (hv : v.items? = some vs)
    (hexpr : ∀ y ∈ vs, ExprSound clauses transform G y)
    (hws : Yields (exprs clauses transform vs) ws) (hk : Keeps clauses transform G v)
    (hover : ∀ u, PassedOver clauses u (some .expression) v → AllClauses clauses G u) :
    AllClauses clauses G (.list ws) := by
  refine .list fun x hx => ?_
  obtain ⟨y, hy, hyx⟩ := exprs_yields hws x hx
  have hyv : Occurs y v := .element (Value.elements_of_items hv) hy .here
  exact hexpr y hy x hyx (hk.of_occurs hyv) fun u hu => hover u (.item hv hy hu)

theorem items_eq_none {v : Value} (hl : ∀ vs, v = .list vs → False)
    (ht : ∀ vs, v = .tuple vs → False) : v.items? = none := by
  cases v with
  | list vs => exact (hl vs rfl).elim
  | tuple vs => exact (ht vs rfl).elim
  | _ => rfl

/-- The induction over the tree. -/
theorem exprSound (v : Value) : ExprSound clauses transform G v := by
  induction hn : v.height using Nat.strongRecOn generalizing v with
  | _ n ih =>
    subst hn
    intro w h hk hover
    unfold expr at h
    split at h
    · next es =>
      split at h
      · next hform =>
        obtain ⟨es₁, hes₁, h⟩ := h.bind
        obtain ⟨es₂, hes₂, h⟩ := h.bind
        rw [h.pure]
        refine .map (fun _ => hk.built .here hes₁ hes₂) (hk.parts hes₂ ?_)
        refine entries_allClauses (fun e he y hy => ih _ ?_ y rfl) hform hes₁ hk hover
        exact Nat.lt_of_le_of_lt hy.height_le (Value.height_lt_of_entry he)
      · next hform =>
        rw [h.pure]
        refine hover _ (.other rfl fun fs hfs => ?_)
        cases hfs
        exact hform
    · next vs =>
      obtain ⟨ws, hws, h⟩ := h.bind
      rw [h.pure]
      exact exprSound_array rfl (fun y hy => ih _ (Value.height_lt_of_items rfl hy) y rfl) hws hk
        hover
    · next vs =>
      obtain ⟨ws, hws, h⟩ := h.bind
      rw [h.pure]
      exact exprSound_array rfl (fun y hy => ih _ (Value.height_lt_of_items rfl hy) y rfl) hws hk
        hover
    · next hm hl ht =>
      rw [h.pure]
      refine hover _ (.other ?_ fun es hes => (hm es hes).elim)
      exact items_eq_none hl ht

theorem expr_eq_walk {es : Entries} (h : Form.ofEntries clauses es = .clause) :
    expr clauses transform (.map es) = walk clauses transform (.map es) := by
  rw [expr, walk, if_pos h]

theorem yields_of_walkPure {pureTransform : Entries → Entries} {v w : Value}
    (h : walkPure clauses pureTransform v = .ok w) :
    Yields (walk clauses (fun es => (pure (pureTransform es) : Walk Unit Entries)) v) w := by
  unfold walkPure at h
  simp only [StateT.run', Functor.map, Except.map] at h
  split at h
  · cases h
  · next r hr =>
    cases h
    exact ⟨(), (), hr⟩

end Kinds

end

end Walk

end SqlTree
