import SqlTree.Proofs.Injection

/-!
Two walks one after the other are a single walk with both transformations, where the walk of what
the first one builds comes to the same as building from what has been walked.
-/

namespace SqlTree

open Value (Occurs)

namespace Walk

section Shapes

variable {σ : Type} {clauses : List String} {transform : Entries → Walk σ Entries}

theorem exprs_of_isLeaf {vs : List Value} (h : ∀ v ∈ vs, isLeaf v = true) :
    exprs clauses transform vs = pure vs := by
  induction vs with
  | nil => rw [exprs]
  | cons v vs ih =>
    rw [exprs, expr_of_isLeaf (h v (by simp)), ih fun w hw => h w (by simp [hw])]
    rfl

theorem branches_of_isLeaf {v : Value} (h : isLeaf v = true) :
    branches clauses transform v = v.elements?.elim (reject .wrongType) fun vs => pure (.list vs) := by
  cases v <;> first | rfl | contradiction

theorem branches_eq (v : Value) :
    branches clauses transform v =
      v.elements?.elim (reject .wrongType) fun vs => do
        return .list (← exprs clauses transform vs) := by
  by_cases hleaf : isLeaf v = true
  · rw [branches_of_isLeaf hleaf]
    cases hv : v.elements? with
    | none => rfl
    | some vs => simp [exprs_of_isLeaf fun w hw => isLeaf_of_element hleaf hv hw]
  · cases v with
    | map es =>
      rw [branches, keys_eq_exprs]
      rfl
    | list vs => rw [branches]; rfl
    | tuple vs => rw [branches]; rfl
    | set vs => rw [branches]; rfl
    | _ => simp [isLeaf] at hleaf

theorem pair_of_isLeaf {v : Value} (h : isLeaf v = true) :
    pair clauses transform v =
      match v.elements? with
      | some [name, query] => pure (.list [name, query])
      | _ => reject (notPair v) := by
  cases v <;> first | contradiction | simp only [pair]
  all_goals generalize Value.elements? _ = o
  all_goals rcases o with _ | _ | ⟨_, _ | ⟨_, _ | _⟩⟩ <;> rfl

theorem pair_eq (v : Value) :
    pair clauses transform v =
      match v.elements? with
      | some [name, query] => do return .list [name, ← expr clauses transform query]
      | _ => reject (notPair v) := by
  by_cases hleaf : isLeaf v = true
  · rw [pair_of_isLeaf hleaf]
    split
    · next name query hv =>
      rw [expr_of_isLeaf (isLeaf_of_element hleaf hv (by simp))]
      rfl
    · rfl
  · cases v with
    | map es => rcases es with _ | ⟨_, _ | ⟨_, _ | _⟩⟩ <;> rfl
    | list vs => rcases vs with _ | ⟨_, _ | ⟨_, _ | _⟩⟩ <;> rfl
    | tuple vs => rcases vs with _ | ⟨_, _ | ⟨_, _ | _⟩⟩ <;> rfl
    | set vs => rcases vs with _ | ⟨_, _ | ⟨_, _ | _⟩⟩ <;> rfl
    | _ => simp [isLeaf] at hleaf

theorem tableExpressions_of_isLeaf {v : Value} (h : isLeaf v = true) :
    tableExpressions clauses transform v =
      match v.elements? with
      | some [] => pure (.list [])
      | some (w :: _) => reject (notPair w)
      | none => reject .wrongType := by
  cases v <;> first | rfl | contradiction

/-- The items of a leaf are no pairs: a character is one text, a byte a number. -/
theorem elements_ne_pair {v w : Value} {vs : List Value} (h : isLeaf v = true)
    (hv : v.elements? = some vs) (hw : w ∈ vs) (name query : Value) :
    w.elements? ≠ some [name, query] := by
  cases v <;> simp only [Value.elements?, reduceCtorEq, Option.some.injEq] at hv <;> subst hv
  case text =>
    obtain ⟨c, -, rfl⟩ := List.mem_map.mp hw
    simp [Value.elements?]
  case bytes =>
    obtain ⟨c, -, rfl⟩ := List.mem_map.mp hw
    simp [Value.elements?]
  case buffer =>
    obtain ⟨c, -, rfl⟩ := List.mem_map.mp hw
    simp [Value.elements?]
  all_goals contradiction

theorem tableExpressions_eq (v : Value) :
    tableExpressions clauses transform v =
      v.elements?.elim (reject .wrongType) fun vs => do
        return .list (← pairs clauses transform vs) := by
  by_cases hleaf : isLeaf v = true
  · rw [tableExpressions_of_isLeaf hleaf]
    rcases hv : v.elements? with _ | _ | ⟨w, vs⟩
    · rfl
    · simp [pairs]
    · have hpair : pair clauses transform w = reject (notPair w) := by
        rw [pair_eq]
        split
        · next hw => exact (elements_ne_pair hleaf hv (by simp) _ _ hw).elim
        · rfl
      simp only [Option.elim_some, pairs, hpair]
      rfl
  · cases v with
    | map es =>
      rw [tableExpressions, keyPairs_eq_pairs]
      rfl
    | list vs => rw [tableExpressions]; rfl
    | tuple vs => rw [tableExpressions]; rfl
    | set vs => rw [tableExpressions]; rfl
    | _ => simp [isLeaf] at hleaf

theorem length_of_exprs {vs ws : List Value} (h : Yields (exprs clauses transform vs) ws) :
    ws.length = vs.length := by
  induction vs generalizing ws with
  | nil =>
    rw [exprs] at h
    rw [h.pure]
  | cons v vs ih =>
    rw [exprs] at h
    obtain ⟨w, -, h⟩ := h.bind
    obtain ⟨us, hus, h⟩ := h.bind
    rw [h.pure, List.length_cons, List.length_cons, ih hus]

/-- A walk replaces values, never keys. -/
theorem keys_of_entries {es es' : Entries} (h : Yields (entries clauses transform es) es') :
    es'.map (·.1) = es.map (·.1) := by
  induction es generalizing es' with
  | nil =>
    rw [entries] at h
    rw [h.pure]
  | cons e es ih =>
    rw [entries] at h
    obtain ⟨w, -, h⟩ := h.bind
    obtain ⟨us, hus, h⟩ := h.bind
    rw [h.pure, List.map_cons, List.map_cons, ih hus]

theorem isEmpty_congr {α β : Type} {xs : List α} {ys : List β} (h : xs.length = ys.length) :
    xs.isEmpty = ys.isEmpty := by
  cases xs <;> cases ys <;> simp_all

/-- What is missing stays missing and what is given stays given, where the transformation neither
fills nor empties a clause map. -/
theorem given_of_expr {v w : Value}
    (hempty : ∀ {es es'}, Yields (transform es) es' → es'.isEmpty = es.isEmpty)
    (h : Yields (expr clauses transform v) w) : w.given = v.given := by
  unfold expr at h
  split at h
  · next es =>
    split at h
    · obtain ⟨es₁, hes₁, h⟩ := h.bind
      obtain ⟨es₂, hes₂, h⟩ := h.bind
      have hlength : es₁.length = es.length := by
        simpa using congrArg List.length (keys_of_entries hes₁)
      rw [h.pure, Value.given, Value.given, hempty hes₂, isEmpty_congr hlength]
    · rw [h.pure]
  · next vs =>
    obtain ⟨ws, hws, h⟩ := h.bind
    rw [h.pure, Value.given, Value.given, isEmpty_congr (length_of_exprs hws)]
  · next vs =>
    obtain ⟨ws, hws, h⟩ := h.bind
    rw [h.pure, Value.given, Value.given, isEmpty_congr (length_of_exprs hws)]
  · rw [h.pure]

theorem isNull_of_expr {v w : Value} (h : Yields (expr clauses transform v) w) :
    isNull w = isNull v := by
  unfold expr at h
  split at h
  · split at h
    · obtain ⟨es₁, -, h⟩ := h.bind
      obtain ⟨es₂, -, h⟩ := h.bind
      rw [h.pure, isNull, isNull] <;> simp
    · rw [h.pure]
  · obtain ⟨ws, -, h⟩ := h.bind
    rw [h.pure, isNull, isNull] <;> simp
  · obtain ⟨ws, -, h⟩ := h.bind
    rw [h.pure, isNull, isNull] <;> simp
  · rw [h.pure]

theorem isNull_of_search {reach : Option Reach} {v w : Value}
    (h : Yields (search clauses transform reach v) w) (hv : isNull v = false) :
    isNull w = false := by
  match reach with
  | none => rwa [h.pure]
  | some .expression => exact (isNull_of_expr h).trans hv
  | some .branches =>
    obtain ⟨-, ws, -, rfl, -⟩ := branches_yields h
    rfl
  | some .tableExpressions =>
    obtain ⟨-, ws, -, rfl, -⟩ := tableExpressions_yields h
    rfl

end Shapes

section Fused

variable {α β γ δ : Type}

/-- The transformation as a step of a walk: it keeps no state and cannot fail. -/
abbrev purely (f : Entries → Entries) (es : Entries) : Walk Unit Entries := pure (f es)

/-- Both `x` and `z` fail alike, or both succeed and `k` takes the result of the one to the other. -/
def Fused (x : Walk Unit α) (k : α → Walk Unit β) (z : Walk Unit β) : Prop :=
  (∃ e, x = reject e ∧ z = reject e) ∨ ∃ a b, x = pure a ∧ k a = pure b ∧ z = pure b

theorem Fused.bind_eq {x : Walk Unit α} {k : α → Walk Unit β} {z : Walk Unit β}
    (h : Fused x k z) : x >>= k = z := by
  obtain ⟨e, rfl, rfl⟩ | ⟨a, b, rfl, hk, rfl⟩ := h
  · rfl
  · exact hk

theorem Fused.reject (e : Fault) (k : α → Walk Unit β) :
    Fused (Walk.reject e) k (Walk.reject e) :=
  .inl ⟨e, rfl, rfl⟩

theorem Fused.pure {a : α} {b : β} {k : α → Walk Unit β} (h : k a = pure b) :
    Fused (pure a) k (pure b) :=
  .inr ⟨a, b, rfl, h, rfl⟩

theorem Fused.bind {x : Walk Unit α} {k : α → Walk Unit β} {z : Walk Unit β}
    {y : α → Walk Unit γ} {l : γ → Walk Unit δ} {w : β → Walk Unit δ} (h : Fused x k z)
    (hy : ∀ a b, x = Pure.pure a → k a = Pure.pure b → Fused (y a) l (w b)) :
    Fused (x >>= y) l (z >>= w) := by
  obtain ⟨e, rfl, rfl⟩ | ⟨a, b, rfl, hk, rfl⟩ := h
  · exact .reject e l
  · exact hy a b rfl hk

variable {clauses : List String} {f g : Entries → Entries}

/-- What is built from walked entries is a clause map as before, and walking it comes to the same
as building from what has been walked. -/
structure Commutes (clauses : List String) (f g : Entries → Entries) : Prop where
  form : ∀ {es}, Form.ofEntries clauses es = .clause → Form.ofEntries clauses (f es) = .clause
  walked : ∀ {es es'}, entries clauses (purely g) es = pure es' →
    entries clauses (purely g) (f es) = pure (f es')

/-- The two walks of the value as an expression are one. -/
def ExprFused (clauses : List String) (f g : Entries → Entries) (v : Value) : Prop :=
  Fused (expr clauses (purely f) v) (expr clauses (purely g)) (expr clauses (purely (g ∘ f)) v)

theorem exprFused_of_isLeaf {v : Value} (h : isLeaf v = true) : ExprFused clauses f g v := by
  rw [ExprFused, expr_of_isLeaf h, expr_of_isLeaf h]
  exact .pure (expr_of_isLeaf h)

theorem fused_exprs {vs : List Value} (h : ∀ v ∈ vs, ExprFused clauses f g v) :
    Fused (exprs clauses (purely f) vs) (exprs clauses (purely g))
      (exprs clauses (purely (g ∘ f)) vs) := by
  induction vs with
  | nil =>
    simp only [exprs]
    exact .pure (by rw [exprs])
  | cons v vs ih =>
    simp only [exprs]
    refine (h v (by simp)).bind fun w w' _ hw => ?_
    refine (ih fun u hu => h u (by simp [hu])).bind fun ws ws' _ hws => .pure ?_
    rw [exprs, hw, hws]
    rfl

theorem fused_list {vs : List Value} (h : ∀ v ∈ vs, ExprFused clauses f g v) :
    Fused (do return .list (← exprs clauses (purely f) vs)) (expr clauses (purely g))
      (do return .list (← exprs clauses (purely (g ∘ f)) vs)) := by
  refine (fused_exprs h).bind fun ws ws' _ hws => .pure ?_
  rw [expr, hws]
  rfl

theorem fused_branches {v : Value} (h : ∀ w, Occurs w v → ExprFused clauses f g w) :
    Fused (branches clauses (purely f) v) (branches clauses (purely g))
      (branches clauses (purely (g ∘ f)) v) := by
  rw [branches_eq, branches_eq]
  cases hv : v.elements? with
  | none => exact .reject _ _
  | some vs =>
    refine (fused_exprs fun w hw => h w (.element hv hw .here)).bind fun ws ws' _ hws => .pure ?_
    rw [branches, hws]
    rfl

theorem fused_pair {v : Value} (h : ∀ w, Occurs w v → ExprFused clauses f g w) :
    Fused (pair clauses (purely f) v) (pair clauses (purely g))
      (pair clauses (purely (g ∘ f)) v) := by
  rw [pair_eq, pair_eq]
  split
  · next name query hv =>
    refine (h query (.element hv (by simp) .here)).bind fun q q' _ hq => .pure ?_
    rw [pair, hq]
    rfl
  · exact .reject _ _

theorem fused_pairs {vs : List Value} (h : ∀ v ∈ vs, ∀ w, Occurs w v → ExprFused clauses f g w) :
    Fused (pairs clauses (purely f) vs) (pairs clauses (purely g))
      (pairs clauses (purely (g ∘ f)) vs) := by
  induction vs with
  | nil =>
    simp only [pairs]
    exact .pure (by rw [pairs])
  | cons v vs ih =>
    simp only [pairs]
    refine (fused_pair (h v (by simp))).bind fun w w' _ hw => ?_
    refine (ih fun u hu => h u (by simp [hu])).bind fun ws ws' _ hws => .pure ?_
    rw [pairs, hw, hws]
    rfl

theorem fused_tableExpressions {v : Value} (h : ∀ w, Occurs w v → ExprFused clauses f g w) :
    Fused (tableExpressions clauses (purely f) v) (tableExpressions clauses (purely g))
      (tableExpressions clauses (purely (g ∘ f)) v) := by
  rw [tableExpressions_eq, tableExpressions_eq]
  cases hv : v.elements? with
  | none => exact .reject _ _
  | some vs =>
    refine (fused_pairs fun u hu w hw => h w (.element hv hu hw)).bind fun ws ws' _ hws => .pure ?_
    rw [tableExpressions, hws]
    rfl

/-- The walk of an entry's value, which passes over null. -/
def field (clauses : List String) (f : Entries → Entries) (reach : Option Reach) (v : Value) :
    Walk Unit Value :=
  if isNull v then pure v else search clauses (purely f) reach v

theorem entries_nil : entries clauses (purely f) [] = pure [] := by rw [entries]

theorem entries_cons (k v : Value) (es : Entries) :
    entries clauses (purely f) ((k, v) :: es) = (do
      let w ← field clauses f (reach? k) v
      return (k, w) :: (← entries clauses (purely f) es)) := by
  rw [entries]
  rfl

theorem yields_of_eq {x : Walk Unit α} {a : α} (h : x = pure a) : Yields x a :=
  ⟨(), (), by rw [h]; rfl⟩

theorem Fused.congr {x : Walk Unit α} {k k' : α → Walk Unit β} {z : Walk Unit β}
    (h : Fused x k z) (hk : ∀ a, x = Pure.pure a → k' a = k a) : Fused x k' z := by
  obtain ⟨e, hx, hz⟩ | ⟨a, b, hx, ha, hz⟩ := h
  · exact .inl ⟨e, hx, hz⟩
  · exact .inr ⟨a, b, hx, (hk a hx).trans ha, hz⟩

theorem fused_field {reach : Option Reach} {v : Value}
    (h : ∀ w, Occurs w v → ExprFused clauses f g w) :
    Fused (field clauses f reach v) (field clauses g reach) (field clauses (g ∘ f) reach v) := by
  cases hnull : isNull v with
  | true =>
    have hpass (f : Entries → Entries) : field clauses f reach v = pure v := if_pos hnull
    rw [hpass, hpass]
    exact .pure (hpass g)
  | false =>
    have hsearch (f : Entries → Entries) {w : Value} (hw : isNull w = false) :
        field clauses f reach w = search clauses (purely f) reach w := if_neg (by simp [hw])
    rw [hsearch f hnull, hsearch _ hnull]
    refine Fused.congr (k := search clauses (purely g) reach) ?_ fun w hw =>
      hsearch g (isNull_of_search (yields_of_eq hw) hnull)
    match reach with
    | none => exact .pure rfl
    | some .expression => exact h v .here
    | some .branches => exact fused_branches h
    | some .tableExpressions => exact fused_tableExpressions h

theorem fused_entries {es : Entries} (h : ∀ e ∈ es, ∀ w, Occurs w e.2 → ExprFused clauses f g w) :
    Fused (entries clauses (purely f) es) (entries clauses (purely g))
      (entries clauses (purely (g ∘ f)) es) := by
  induction es with
  | nil =>
    rw [entries_nil, entries_nil]
    exact .pure entries_nil
  | cons e es ih =>
    rw [entries_cons, entries_cons]
    refine (fused_field (h e (by simp))).bind fun w w' _ hw => ?_
    refine (ih fun e he => h e (by simp [he])).bind fun ws ws' _ hws => .pure ?_
    rw [entries_cons, hw, hws]
    rfl

theorem hasField_of_keys {es es' : Entries} (h : es'.map (·.1) = es.map (·.1)) (key : String) :
    Entries.hasField es' key = Entries.hasField es key := by
  have hany (es : Entries) :
      Entries.hasField es key = (es.map (·.1)).any fun k => k.same (.text key) := by
    rw [Entries.hasField, Entries.field?, Entries.valueAt?, Option.isSome_map, List.any_map,
      List.isSome_find?]
    rfl
  rw [hany, hany, h]

theorem isTypedEntries_of_keys {es es' : Entries} (h : es'.map (·.1) = es.map (·.1)) :
    Form.isTypedEntries clauses es' = Form.isTypedEntries clauses es := by
  match es, es' with
  | [], [] => rfl
  | [(k, v)], [(k', v')] =>
    obtain rfl : k' = k := by simpa using h
    cases k' <;> rfl
  | _ :: _ :: _, _ :: _ :: _ => simp [Form.isTypedEntries]
  | [], _ :: _ => simp at h
  | _ :: _, [] => simp at h
  | [_], _ :: _ :: _ => simp at h
  | _ :: _ :: _, [_] => simp at h

theorem form_of_keys {es es' : Entries} (h : es'.map (·.1) = es.map (·.1)) :
    Form.ofEntries clauses es' = Form.ofEntries clauses es := by
  simp only [Form.ofEntries, hasField_of_keys h, isTypedEntries_of_keys h]

/-- The induction over the tree. -/
theorem exprFused (hc : Commutes clauses f g) (v : Value) : ExprFused clauses f g v := by
  induction hn : v.height using Nat.strongRecOn generalizing v with
  | _ n ih =>
    subst hn
    match v with
    | .map es =>
      by_cases hform : Form.ofEntries clauses es = .clause
      · have hparts : ∀ e ∈ es, ∀ w, Occurs w e.2 → ExprFused clauses f g w := fun e he w hw =>
          ih _ (Nat.lt_of_le_of_lt hw.height_le (Value.height_lt_of_entry he)) w rfl
        rw [ExprFused, expr, expr, if_pos hform, if_pos hform]
        refine (fused_entries hparts).bind fun es₁ es₂ h₁ h₂ => .pure ?_
        have hform₁ : Form.ofEntries clauses es₁ = .clause :=
          (form_of_keys (keys_of_entries (yields_of_eq h₁))).trans hform
        rw [expr, if_pos (hc.form hform₁), hc.walked h₂]
        rfl
      · rw [ExprFused, expr, expr, if_neg hform, if_neg hform]
        exact .pure (by rw [expr, if_neg hform])
    | .list vs =>
      rw [ExprFused, expr, expr]
      exact fused_list fun w hw => ih _ (Value.height_lt_of_items rfl hw) w rfl
    | .tuple vs =>
      rw [ExprFused, expr, expr]
      exact fused_list fun w hw => ih _ (Value.height_lt_of_items rfl hw) w rfl
    | .set _ | .null | .bool _ | .int _ | .real _ | .decimal _ | .text _ | .bytes _ | .buffer _
    | .date _ | .time _ | .datetime _ | .uuid _ => exact .pure rfl

theorem fused_walk (hc : Commutes clauses f g) (v : Value) :
    Fused (walk clauses (purely f) v) (walk clauses (purely g))
      (walk clauses (purely (g ∘ f)) v) := by
  match v with
  | .map es =>
    refine (fused_entries fun e _ w _ => exprFused hc w).bind fun es₁ es₂ h₁ h₂ => .pure ?_
    rw [walk, hc.walked h₂]
    rfl
  | .list _ | .tuple _ | .set _ | .null | .bool _ | .int _ | .real _ | .decimal _ | .text _
  | .bytes _ | .buffer _ | .date _ | .time _ | .datetime _ | .uuid _ => exact .reject _ _

/-- Walking with `f` and then with `g` is walking once, applying `g` to what `f` has made. -/
theorem walkPure_bind (hc : Commutes clauses f g) (v : Value) :
    (walkPure clauses f v >>= walkPure clauses g) = walkPure clauses (g ∘ f) v := by
  have hrun := congrFun (fused_walk hc v).bind_eq ()
  change _ = (walk clauses (purely (g ∘ f)) v).run' ()
  rw [StateT.run', ← hrun]
  change ((walk clauses (purely f) v).run' () >>= fun w =>
    (walk clauses (purely g) w).run' ()) = _
  rw [StateT.run']
  change Except.bind (Except.map _ (walk clauses (purely f) v ())) _ = Except.map _
    (Except.bind (walk clauses (purely f) v ()) fun r => walk clauses (purely g) r.1 r.2)
  cases walk clauses (purely f) v () <;> rfl

end Fused

end Walk

open Walk (Commutes Yields entries expr exprs entries_cons entries_nil purely)

/-- The value has no tuple and no clause map in it, at whatever depth. -/
def Settled (clauses : List String) (v : Value) : Prop :=
  ∀ u, Occurs u v →
    (∀ vs, u ≠ .tuple vs) ∧ ∀ es, u = .map es → Form.ofEntries clauses es ≠ .clause

section Conditions

variable {clauses : List String} {A B : Value}

theorem Settled.exprs {σ : Type} {transform : Entries → Walk σ Entries} {vs : List Value}
    (h : ∀ v ∈ vs, expr clauses transform v = pure v) :
    Walk.exprs clauses transform vs = pure vs := by
  induction vs with
  | nil => rw [Walk.exprs]
  | cons v vs ih =>
    rw [Walk.exprs, h v (by simp), ih fun w hw => h w (by simp [hw])]
    rfl

theorem Settled.expr {σ : Type} {transform : Entries → Walk σ Entries} {v : Value}
    (h : Settled clauses v) : Walk.expr clauses transform v = pure v := by
  induction hn : v.height using Nat.strongRecOn generalizing v with
  | _ n ih =>
    subst hn
    match v with
    | .map es => rw [Walk.expr, if_neg ((h _ .here).2 es rfl)]
    | .list vs =>
      rw [Walk.expr, Settled.exprs fun w hw => ih _ (Value.height_lt_of_items rfl hw)
        (fun u hu => h u (.element rfl hw hu)) rfl]
      rfl
    | .tuple vs => exact ((h _ .here).1 vs rfl).elim
    | .set _ | .null | .bool _ | .int _ | .real _ | .decimal _ | .text _ | .bytes _ | .buffer _
    | .date _ | .time _ | .datetime _ | .uuid _ => rfl

theorem isEmpty_put (es : Entries) (k v : Value) : (Entries.put es k v).isEmpty = false := by
  cases es with
  | nil => rfl
  | cons e es =>
    rw [Entries.put]
    split <;> rfl

theorem ne_nil_of_isFiltered {es : Entries} (h : isFiltered es = true) : es ≠ [] := by
  rintro rfl
  cases h

theorem isEmpty_addCondition (es : Entries) : (addCondition A es).isEmpty = es.isEmpty := by
  unfold addCondition
  split
  · next h =>
    rw [Entries.putField, isEmpty_put]
    exact (List.isEmpty_eq_false_iff.mpr (ne_nil_of_isFiltered h)).symm
  · rfl

theorem hasField_addCondition {key : String} (h : key ≠ "where") (es : Entries) :
    Entries.hasField (addCondition A es) key = Entries.hasField es key := by
  unfold addCondition
  split
  · rw [Entries.hasField, Entries.field_putField_of_ne h.symm, Entries.hasField]
  · rfl

/-- A filtered clause map has an entry besides its condition, so with one it is no typed value. -/
theorem isTypedEntries_addCondition {es : Entries} (h : isFiltered es = true) :
    Form.isTypedEntries clauses (addCondition A es) = false := by
  rw [addCondition, if_pos h, Entries.putField]
  rcases es with _ | ⟨⟨k, v⟩, _ | ⟨e, es⟩⟩
  · cases h
  · by_cases hk : k.same (.text "where") = true
    · obtain rfl := Value.same_text_iff.mp hk
      cases h
    · simp [Entries.put, hk, Form.isTypedEntries]
  · by_cases hk : k.same (.text "where") = true
    · simp [Entries.put, hk, Form.isTypedEntries]
    · rw [Entries.put, if_neg hk]
      cases hput : Entries.put (e :: es) (.text "where") _ with
      | nil => exact absurd (congrArg List.isEmpty hput) (by simp [isEmpty_put])
      | cons => simp [Form.isTypedEntries]

theorem form_addCondition {es : Entries} (h : Form.ofEntries clauses es = .clause) :
    Form.ofEntries clauses (addCondition A es) = .clause := by
  by_cases hf : isFiltered es = true
  · have hkey {key : String} (hkey : key ∈ Form.wrapperKeys) :
        Entries.hasField (addCondition A es) key = Entries.hasField es key :=
      hasField_addCondition (by rintro rfl; revert hkey; decide) es
    unfold Form.ofEntries at h ⊢
    rw [hkey (by decide), hkey (by decide), hkey (by decide), hkey (by decide),
      isTypedEntries_addCondition hf]
    split_ifs at h ⊢ <;> simp_all
  · rwa [addCondition, if_neg hf]

theorem given_of_field {reach : Option Walk.Reach} {v w : Value}
    (hreach : reach = some .expression ∨ reach = none)
    (h : Walk.field clauses (addCondition B) reach v = pure w) : w.given = v.given := by
  have hyields := Walk.yields_of_eq h
  unfold Walk.field at hyields
  split at hyields
  · rw [hyields.pure]
  · rcases hreach with rfl | rfl
    · refine Walk.given_of_expr (fun hes => ?_) hyields
      rw [hes.pure, isEmpty_addCondition]
    · rw [Walk.Yields.pure hyields]

theorem field_settled (h : Settled clauses A) :
    Walk.field clauses (addCondition B) (some .expression) A = pure A := by
  unfold Walk.field
  split
  · rfl
  · exact h.expr

/-- The walk of a condition that has been extended is the extension of the condition's walk. -/
theorem field_conjoined (hA : Settled clauses A) {v w : Value}
    (h : Walk.field clauses (addCondition B) (some .expression) v = pure w) :
    Walk.field clauses (addCondition B) (some .expression) (conjoined v A) =
      pure (conjoined w A) := by
  have hgiven := given_of_field (.inl rfl) h
  unfold conjoined
  rw [hgiven]
  split
  · next hv =>
    have hexpr : expr clauses (purely (addCondition B)) v = pure w := by
      rw [← h, Walk.field, if_neg]
      · rfl
      · intro hnull
        rw [Walk.eq_null_of_isNull hnull] at hv
        cases hv
    change expr clauses (purely (addCondition B)) (.list _) = _
    rw [expr, exprs, exprs, exprs, exprs, hexpr, hA.expr]
    rfl
  · exact field_settled hA

theorem exists_of_bind_eq_pure {α β : Type} {x : Walk Unit α} {k : α → Walk Unit β} {b : β}
    (h : x >>= k = pure b) : ∃ a, x = pure a ∧ k a = pure b := by
  have hrun := congrFun h ()
  change (x ()).bind (fun r => k r.1 r.2) = _ at hrun
  cases hx : x () with
  | error e =>
    rw [hx] at hrun
    cases hrun
  | ok r =>
    rw [hx] at hrun
    exact ⟨r.1, funext fun _ => hx, funext fun _ => hrun⟩

theorem entries_cons_eq_pure {f : Entries → Entries} {k v : Value} {es es' : Entries}
    (h : entries clauses (purely f) ((k, v) :: es) = pure es') :
    ∃ w ws, Walk.field clauses f (Walk.reach? k) v = pure w ∧
      entries clauses (purely f) es = pure ws ∧ es' = (k, w) :: ws := by
  rw [entries_cons] at h
  obtain ⟨w, hw, h⟩ := exists_of_bind_eq_pure h
  obtain ⟨ws, hws, h⟩ := exists_of_bind_eq_pure h
  exact ⟨w, ws, hw, hws, (Walk.yields_of_eq h).pure ▸ rfl⟩

theorem field_cons_self (v : Value) (es : Entries) (key : String) :
    Entries.field? ((.text key, v) :: es) key = some v := by
  simp [Entries.field?, Entries.valueAt?, Value.same_text_self]

theorem field_cons_of_ne {k : Value} {key : String} (h : k ≠ .text key) (v : Value)
    (es : Entries) : Entries.field? ((k, v) :: es) key = Entries.field? es key := by
  have hk : k.same (.text key) = false := by
    rw [Bool.eq_false_iff, ne_eq, Value.same_text_iff]
    exact h
  simp [Entries.field?, Entries.valueAt?, hk]

theorem putField_cons_self (v w : Value) (es : Entries) (key : String) :
    Entries.putField ((.text key, v) :: es) key w = (.text key, w) :: es :=
  if_pos (Value.same_text_self key)

theorem putField_cons_of_ne {k : Value} {key : String} (h : k ≠ .text key) (v w : Value)
    (es : Entries) : Entries.putField ((k, v) :: es) key w = (k, v) :: Entries.putField es key w := by
  have hk : ¬ k.same (.text key) = true := by
    rw [Value.same_text_iff]
    exact h
  exact if_neg hk

/-- The condition of the map is extended, or is added where the map has none. -/
def extended (A : Value) (es : Entries) : Entries :=
  Entries.putField es "where" (conjoined ((Entries.field? es "where").getD .null) A)

theorem entries_extended (hA : Settled clauses A) {es es' : Entries}
    (h : entries clauses (purely (addCondition B)) es = pure es') :
    entries clauses (purely (addCondition B)) (extended A es) = pure (extended A es') := by
  induction es generalizing es' with
  | nil =>
    obtain rfl : es' = [] := (Walk.yields_of_eq (entries_nil ▸ h)).pure ▸ rfl
    change entries clauses _ [(.text "where", A)] = _
    rw [entries_cons, entries_nil]
    change (Walk.field clauses _ (some .expression) A >>= _) = _
    rw [field_settled hA]
    rfl
  | cons e es ih =>
    obtain ⟨k, v⟩ := e
    obtain ⟨w, ws, hw, hws, rfl⟩ := entries_cons_eq_pure h
    unfold extended at ih ⊢
    by_cases hk : k = .text "where"
    · subst hk
      rw [field_cons_self, field_cons_self, putField_cons_self, putField_cons_self, entries_cons,
        hws]
      change (Walk.field clauses _ (some .expression) _ >>= _) = _
      rw [Option.getD_some, field_conjoined hA hw]
      rfl
    · rw [field_cons_of_ne hk, field_cons_of_ne hk, putField_cons_of_ne hk,
        putField_cons_of_ne hk, entries_cons, hw, ih hws]
      rfl

theorem given_of_entries {key : String}
    (hkey : Walk.reach? (.text key) = some .expression ∨ Walk.reach? (.text key) = none)
    {es es' : Entries} (h : entries clauses (purely (addCondition B)) es = pure es') :
    (Entries.field? es' key).any Value.given = (Entries.field? es key).any Value.given := by
  induction es generalizing es' with
  | nil =>
    obtain rfl : es' = [] := (Walk.yields_of_eq (entries_nil ▸ h)).pure ▸ rfl
    rfl
  | cons e es ih =>
    obtain ⟨k, v⟩ := e
    obtain ⟨w, ws, hw, hws, rfl⟩ := entries_cons_eq_pure h
    by_cases hk : k = .text key
    · subst hk
      rw [field_cons_self, field_cons_self, Option.any_some, Option.any_some,
        given_of_field hkey hw]
    · rw [field_cons_of_ne hk, field_cons_of_ne hk, ih hws]

theorem isFiltered_of_entries {es es' : Entries}
    (h : entries clauses (purely (addCondition B)) es = pure es') :
    isFiltered es' = isFiltered es := by
  have hreach : ∀ key ∈ filteredClauses,
      Walk.reach? (.text key) = some .expression ∨ Walk.reach? (.text key) = none := by decide
  unfold isFiltered
  rw [Bool.eq_iff_iff, List.any_eq_true, List.any_eq_true]
  refine exists_congr fun key => and_congr_right fun hkey => ?_
  rw [given_of_entries (hreach key hkey) h]

theorem commutes_addCondition (hA : Settled clauses A) :
    Commutes clauses (addCondition A) (addCondition B) where
  form := form_addCondition
  walked {es es'} h := by
    unfold addCondition
    rw [isFiltered_of_entries h]
    split
    · exact entries_extended hA h
    · exact h

/-- Both conditions added to a clause map, the second after the first. -/
def addBoth (A B : Value) (es : Entries) : Entries := addCondition B (addCondition A es)

theorem field_where_addBoth (es : Entries) :
    Entries.field? (addBoth A B es) "where" =
      if isFiltered es then
        some (conjoined (conjoined ((Entries.field? es "where").getD .null) A) B)
      else Entries.field? es "where" := by
  unfold addBoth
  split
  · next h =>
    rw [field_where_addCondition ((isFiltered_addCondition).trans h), field_where_addCondition h,
      Option.getD_some]
  · next h => rw [addCondition, isFiltered_addCondition, if_neg h, addCondition, if_neg h]

/-- The walk has rebuilt `es` from a clause map of the statement: it has rebuilt the parts, to those
of `es₁`, and then added both conditions. -/
def RebuiltTwice (clauses : List String) (A B : Value) (statement es : Entries) : Prop :=
  ∃ es₀ es₁, Occurs (.map es₀) (.map statement) ∧
    entries clauses (purely (addBoth A B)) es₀ = pure es₁ ∧ es = addBoth A B es₁

theorem addBoth_allClauses {statement : Entries} {w : Value} (hA : Settled clauses A)
    (hstatement : Form.ofEntries clauses statement = .clause)
    (h : Walk.walkPure clauses (addBoth A B) (.map statement) = .ok w) :
    Walk.AllClauses clauses
      (fun es => RebuiltTwice clauses A B statement es ∨ Untouched clauses statement es ∨
        Occurs (.map es) B) w := by
  have hyields := Walk.yields_of_walkPure h
  rw [← Walk.expr_eq_walk hstatement] at hyields
  refine Walk.exprSound _ _ hyields ⟨?_, ?_⟩ ?_
  · intro es es₁ es₂ hes ⟨s, s', hes₁⟩ hes₂
    exact .inl ⟨es, es₁, hes, funext fun _ => hes₁, hes₂.pure⟩
  · intro es₁ es₂ hes₂ hparts
    rw [hes₂.pure]
    refine addCondition_allClauses (fun es hes _ => .inr (.inr hes)) ?_
    exact addCondition_allClauses (fun es hes hform => ((hA _ hes).2 es rfl hform).elim) hparts
  · exact fun u hu es hes _ => .inr (.inl ⟨u, hu, hes⟩)

/-- Adding one condition throughout a tree and then another is a single walk that adds both to each
clause map, once and after its parts are done. -/
theorem injectWhere_twice (hA : Settled clauses A) (v : Value) :
    (injectWhere clauses A v >>= injectWhere clauses B) =
        Walk.walkPure clauses (addBoth A B) v ∧
      (∀ es, Entries.field? (addBoth A B es) "where" =
        if isFiltered es then
          some (conjoined (conjoined ((Entries.field? es "where").getD .null) A) B)
        else Entries.field? es "where") ∧
      ∀ statement w, v = .map statement → Form.ofEntries clauses statement = .clause →
        Walk.walkPure clauses (addBoth A B) v = .ok w →
        Walk.AllClauses clauses
          (fun es => RebuiltTwice clauses A B statement es ∨ Untouched clauses statement es ∨
            Occurs (.map es) B) w := by
  refine ⟨Walk.walkPure_bind (commutes_addCondition hA) v, field_where_addBoth, ?_⟩
  rintro statement w rfl hform h
  exact addBoth_allClauses hA hform h

end Conditions

section Settled

variable {clauses : List String}

theorem settled_leaf {v : Value} (h : Walk.isLeaf v = true) : Settled clauses v := by
  intro u hu
  have hleaf := Walk.isLeaf_of_occurs hu h
  constructor
  · rintro vs rfl
    cases hleaf
  · rintro es rfl
    cases hleaf

theorem settled_list {vs : List Value} (h : ∀ v ∈ vs, Settled clauses v) :
    Settled clauses (.list vs) := by
  intro u hu
  cases hu with
  | here => simp
  | element he hw hu =>
    cases he
    exact h _ hw u hu

end Settled

theorem settled_tenantIsOne (clauses : List String) : Settled clauses tenantIsOne := by
  refine settled_list fun v hv => settled_leaf ?_
  simp only [List.mem_cons, List.not_mem_nil, or_false] at hv
  obtain rfl | rfl | rfl := hv <;> rfl

/-- `SELECT a FROM t` -/
def selectFromTable : Entries := [(.text "select", .list [.text "a"]), (.text "from", .text "t")]

theorem injectWhere_twice_tenant :
    Settled Registry.standard.clauseOrder tenantIsOne ∧
      (injectWhere Registry.standard.clauseOrder tenantIsOne (.map selectFromTable) >>=
          injectWhere Registry.standard.clauseOrder (.text "active")) =
        .ok (.map (selectFromTable ++
          [(.text "where", .list [.text "and", tenantIsOne, .text "active"])])) :=
  ⟨settled_tenantIsOne _, (injectWhere_twice (settled_tenantIsOne _) _).1⟩

/-- A condition that is false is rendered as any other, but the next one takes its place. -/
theorem injectWhere_after_false :
    injectWhere Registry.standard.clauseOrder (.bool false) (.map selectFromTable) =
        .ok (.map (selectFromTable ++ [(.text "where", .bool false)])) ∧
      format .standard {} (.map (selectFromTable ++ [(.text "where", .bool false)])) =
        .ok ⟨"SELECT a FROM t WHERE FALSE", []⟩ ∧
      (injectWhere Registry.standard.clauseOrder (.bool false) (.map selectFromTable) >>=
          injectWhere Registry.standard.clauseOrder tenantIsOne) =
        .ok (.map (selectFromTable ++ [(.text "where", tenantIsOne)])) ∧
      tenantIsOne ≠ .list [.text "and", .bool false, tenantIsOne] :=
  ⟨rfl, rfl, rfl, by simp [tenantIsOne]⟩

/-- `SELECT a FROM t WHERE FALSE` -/
def selectNothing : Entries := selectFromTable ++ [(.text "where", .bool false)]

set_option maxRecDepth 10000 in
/-- An existing WHERE that is written as FALSE gives way to the condition, and the statement has
rows again. -/
theorem false_where_replaced :
    format .standard {} (.map selectNothing) = .ok ⟨"SELECT a FROM t WHERE FALSE", []⟩ ∧
      injectWhere Registry.standard.clauseOrder tenantIsOne (.map selectNothing) =
        .ok (.map (selectFromTable ++ [(.text "where", tenantIsOne)])) ∧
      format .standard {} (.map (selectFromTable ++ [(.text "where", tenantIsOne)])) =
        .ok ⟨"SELECT a FROM t WHERE tenant = $1", [.int 1]⟩ ∧
      format .standard {} (.map (selectFromTable ++
          [(.text "where", .list [.text "and", .bool false, tenantIsOne])])) =
        .ok ⟨"SELECT a FROM t WHERE FALSE AND (tenant = $1)", [.int 1]⟩ :=
  ⟨rfl, rfl, rfl, rfl⟩

end SqlTree
