import SqlTree.Proofs.Regular
import SqlTree.Proofs.SetOperations.Values

/-!
The clause maps of combinations: which ones the parser makes, and that their value is that of the
tree.
-/

namespace SqlTree.SetOperations

open Syntax (Always Depth Kind Query Read Regular SetOperator Tree visit)
open Syntax.Reading (combine entry orderClause surround)
open Nesting (KeysIn Keyed Layer bodyOf readLayer selectKeys withsOf)

variable {R : Type} (I : Interpretation R)

section Shapes

/-- A combination of `SELECT`s. What stands around a body stands around no query in parentheses. -/
inductive Combination : {k : Kind} → Tree k → Prop
  | select (s : Tree .select) : Combination (.selectBody s)
  | nested {q : Query} : Combination q → Combination (.nested q)
  | operation {op : SetOperator} {left right : Tree .body} : Combination left →
      Combination right → Combination (.operation op left right)
  | plain {body : Tree .body} : Combination body → Combination (.query .absent body .nil .nil none)
  | query {ctes : Tree (.option .ctes)} {body : Tree .body} {order : Tree (.list .orderItem)}
      {limits : Tree (.list .limit)} : (∀ q, body ≠ .nested q) → Combination body →
      Combination (.query ctes body order limits none)

/-- The clauses around a body. -/
structure Around (ws ts : Entries) : Prop where
  withs : ws = [] ∨ ∃ key ∈ Clause.tableExpressions, ∃ vs, ws = entry key (.list vs)
  tail : KeysIn (Ending.all.map Ending.key) ts
  order : ∀ v, Entries.field? ts "order-by" = some v → ∃ item items, v = .list (item :: items)

structure IsSelect (es : Entries) : Prop where
  keys : KeysIn selectKeys es
  items : ∃ key ∈ Clause.selections, ∃ item items,
    Entries.field? es key = some (.list (item :: items))

/-- The clause map of a set operation. -/
def operated (op : SetOperator) (branches : List (Entries × R)) : Entries :=
  entry op.clause (.list (branches.map fun b => .map b.1))

/-- Clause maps of combinations, with the values that the branches have from the left. -/
inductive Combined : Entries → R → Prop
  | select {withs es tail : Entries} : Around withs tail → IsSelect es →
      Combined (withs ++ es ++ tail) (I.bound withs (I.tailed (.ofEntries tail) (I.select es)))
  | operation {withs tail : Entries} (op : SetOperator) {a b : Entries × R}
      {bs : List (Entries × R)} : Around withs tail → (∀ c ∈ a :: b :: bs, Combined c.1 c.2) →
      Combined (withs ++ operated op (a :: b :: bs) ++ tail) (I.bound withs <|
        I.tailed (.ofEntries tail) ((b :: bs).foldl (fun x c => I.operation op x c.2) a.2))

/-- The part of a clause map that nothing stands around. -/
inductive Body : Entries → R → Prop
  | select {es : Entries} : IsSelect es → Body es (I.select es)
  | operation (op : SetOperator) {a b : Entries × R} {bs : List (Entries × R)} :
      (∀ c ∈ a :: b :: bs, Combined I c.1 c.2) →
      Body (operated op (a :: b :: bs)) ((b :: bs).foldl (fun x c => I.operation op x c.2) a.2)

end Shapes

section Readings

variable {I} {withs tail es : Entries} {x : R}

theorem Around.nil : Around [] [] where
  withs := .inl rfl
  tail := by simp [KeysIn]
  order := by simp [Entries.field?, Entries.valueAt?]

theorem tailed_nil (x : R) : I.tailed (.ofEntries []) x = x := rfl

theorem Body.around (h : Body I es x) (haround : Around withs tail) :
    Combined I (withs ++ es ++ tail) (I.bound withs (I.tailed (.ofEntries tail) x)) := by
  cases h with
  | select hes => exact .select haround hes
  | operation op hbs => exact .operation op haround hbs

theorem Body.combined (h : Body I es x) : Combined I es x := by
  have hall := h.around .nil
  rwa [List.nil_append, List.append_nil] at hall

theorem foldl_pointwise {p : Interpretation R → Prop} (op : SetOperator)
    (bs : List (Entries × ({ I // p I } → R))) (x : { I // p I } → R) (J : { I // p I }) :
    bs.foldl (fun x c => (Interpretation.pointwise p).operation op x c.2) x J =
      (bs.map fun c => (c.1, c.2 J)).foldl (fun x c => J.1.operation op x c.2) (x J) := by
  induction bs generalizing x with
  | nil => rfl
  | cons b bs ih => exact ih _

/-- The value in all interpretations is that in each of them. -/
theorem Combined.at {p : Interpretation R → Prop} {x : { I // p I } → R}
    (h : Combined (.pointwise p) es x) (J : { I // p I }) : Combined J.1 es (x J) := by
  induction h with
  | select haround hes =>
    rw [Interpretation.bound_pointwise, Interpretation.tailed_pointwise]
    exact .select haround hes
  | @operation withs tail op a b bs haround _ ih =>
    have hbranches : ∀ c ∈ (a :: b :: bs).map (fun c => (c.1, c.2 J)), Combined J.1 c.1 c.2 :=
      List.forall_mem_map.mpr ih
    have hmaps : operated op (a :: b :: bs) =
        operated op ((a :: b :: bs).map fun c => (c.1, c.2 J)) := by
      rw [operated, operated, List.map_map]
      rfl
    rw [Interpretation.bound_pointwise, Interpretation.tailed_pointwise, foldl_pointwise, hmaps]
    exact .operation op haround hbranches

theorem combine_cases (key : String) (l r : Entries) :
    (∃ vs, l = entry key (.list vs) ∧ combine key l r = entry key (.list (vs ++ [.map r]))) ∨
      combine key l r = entry key (.list [.map l, .map r]) := by
  unfold combine
  split
  · next k vs =>
    split
    · next hk =>
      subst hk
      exact .inl ⟨vs, rfl, rfl⟩
    · exact .inr rfl
  · exact .inr rfl

theorem clause_inj {op op' : SetOperator} (h : op.clause = op'.clause) : op = op' := by
  revert h
  cases op <;> cases op' <;> decide

theorem clause_not_mem_selections (op : SetOperator) : op.clause ∉ Clause.selections := by
  cases op <;> decide

/-- A clause map of nothing but a set operation. -/
theorem Combined.of_entry {op : SetOperator} {vs : List Value}
    (h : Combined I (entry op.clause (.list vs)) x) : ∃ (a b : Entries × R) (bs : List (Entries × R)),
      (∀ c ∈ a :: b :: bs, Combined I c.1 c.2) ∧ vs = (a :: b :: bs).map (fun c => .map c.1) ∧
        x = (b :: bs).foldl (fun x c => I.operation op x c.2) a.2 := by
  generalize hes : entry op.clause (.list vs) = es at h
  cases h with
  | @select withs fs tail _ hfs =>
    obtain ⟨key, hkey, item, items, hfield⟩ := hfs.items
    have hmem : (.text key, .list (item :: items)) ∈ entry op.clause (.list vs) := by
      rw [hes]
      exact List.mem_append_left _ (List.mem_append_right _ (Entries.mem_of_field? hfield))
    obtain ⟨hkey', -⟩ := Prod.mk.inj (List.mem_singleton.mp hmem)
    rw [Value.text.injEq] at hkey'
    exact absurd (hkey' ▸ hkey) (clause_not_mem_selections op)
  | @operation withs tail op' a b bs haround hbs =>
    have hlength := congrArg List.length hes
    simp only [entry, operated, List.length_append, List.length_cons, List.length_nil] at hlength
    obtain rfl : withs = [] := List.length_eq_zero_iff.mp (by omega)
    obtain rfl : tail = [] := List.length_eq_zero_iff.mp (by omega)
    rw [List.nil_append, List.append_nil] at hes
    obtain ⟨hop, hvs⟩ := Prod.mk.inj (List.head_eq_of_cons_eq hes)
    rw [Value.text.injEq] at hop
    obtain rfl := clause_inj hop
    exact ⟨a, b, bs, hbs, Value.list.inj hvs, rfl⟩

/-- Branches are put together from the left, whether or not the operation goes on. -/
theorem Combined.combine {op : SetOperator} {l r : Entries} {x y : R} (hl : Combined I l x)
    (hr : Combined I r y) : Body I (combine op.clause l r) (I.operation op x y) := by
  rcases combine_cases op.clause l r with ⟨vs, rfl, hcombine⟩ | hcombine
  · obtain ⟨a, b, bs, hbs, rfl, rfl⟩ := hl.of_entry
    have hall : ∀ c ∈ a :: b :: (bs ++ [(r, y)]), Combined I c.1 c.2 := by
      rw [← List.cons_append, ← List.cons_append]
      exact List.forall_mem_append.mpr ⟨hbs, by simpa using hr⟩
    have hbody := Body.operation op hall
    rw [← List.cons_append, List.foldl_append] at hbody
    rw [hcombine]
    simpa [operated] using hbody
  · rw [hcombine]
    have hall : ∀ c ∈ [(l, x), (r, y)], Combined I c.1 c.2 := by
      simpa using ⟨hl, hr⟩
    exact Body.operation op hall

end Readings

section Layers

theorem ctes_shape : (ctes : Tree (.option .ctes)) →
    Always (Option.getD (α := Read Entries) ctes.read (pure [])) fun ws =>
      ws = [] ∨ ∃ key ∈ Clause.tableExpressions, ∃ vs, ws = entry key (.list vs)
  | .absent => .pure (.inl rfl)
  | .present (.ctes recursively items) => by
    refine .visit (.mapAny fun vs => .inr ⟨_, ?_, vs, rfl⟩)
    cases recursively <;> decide

theorem limit_keys (t : Tree .limit) :
    Keyed ["limit", "offset"] (t.read : Read Entries) := by
  cases t with
  | limitAll => exact .pure (by simp [KeysIn])
  | limit e => exact .mapAny fun v => .entry (by decide) v
  | offset e => exact .mapAny fun v => .entry (by decide) v
  | fetch e => exact .mapAny fun v => .entry (by decide) v

theorem order_shape (order : Tree (.list .orderItem)) :
    Always (orderClause order.read) fun es =>
      es = [] ∨ ∃ item items, es = entry "order-by" (.list (item :: items)) := by
  cases order with
  | nil => exact .pure (.inl rfl)
  | cons item items =>
    intro d es hes
    obtain ⟨v, hv, hes⟩ := Syntax.bind_eq_ok hes
    obtain ⟨vs, hvs, hv⟩ := Syntax.bind_eq_ok hv
    cases hes
    cases hv
    obtain ⟨w, ws, -, rfl⟩ := Syntax.exists_of_visitAll hvs
    exact .inr ⟨w, ws, rfl⟩

/-- What a query without a lock has around its body. -/
theorem readLayer_around {ctes : Tree (.option .ctes)} {order : Tree (.list .orderItem)}
    {limits : Tree (.list .limit)} :
    Always (readLayer ctes order limits none) fun l => Around l.withs l.tail := by
  refine (ctes_shape ctes).bind fun ws hws => (order_shape order).bind fun os hos => ?_
  have hlimits : Always (List.mapM (β := Entries) id limits.read) fun ls =>
      ∀ es ∈ ls, KeysIn ["limit", "offset"] es :=
    .mapM fun r hr => by
      obtain ⟨t, rfl⟩ := Nesting.mem_read limits r hr
      exact limit_keys t
  refine hlimits.bind fun ls hls => .pure ?_
  have hflat : KeysIn ["limit", "offset"] ls.flatten := .flatten hls
  have hnone : Entries.field? ls.flatten "order-by" = none := hflat.field?_eq_none (by decide)
  have htail : KeysIn (Ending.all.map Ending.key) ls.flatten := hflat.mono (by decide)
  rw [List.append_nil]
  rcases hos with rfl | ⟨item, items, rfl⟩
  · exact ⟨hws, htail, by simp [hnone]⟩
  · refine ⟨hws, .append (.entry (by decide) _) htail, fun v hv => ⟨item, items, ?_⟩⟩
    rw [Nesting.field?_append, hnone, Option.or_none] at hv
    cases hv
    rfl

theorem select_shape {N : String → Bool} (s : Tree .select) (hs : Regular N s) :
    Always (s.read : Read Entries) IsSelect := by
  intro d es hes
  refine ⟨Nesting.select_keyed s d es hes, ?_⟩
  match s, hs, hes with
  | .select mark (.cons item items) sources condition groups having, _, hes =>
    have hread := Syntax.read_of_visit hes
    obtain ⟨⟨key, front⟩, hmark, hread⟩ := Syntax.bind_eq_ok hread
    obtain ⟨vs, hvs, hread⟩ := Syntax.bind_eq_ok hread
    obtain ⟨fs, -, hread⟩ := Syntax.bind_eq_ok hread
    obtain ⟨ws, -, hread⟩ := Syntax.bind_eq_ok hread
    obtain ⟨gs, -, hread⟩ := Syntax.bind_eq_ok hread
    obtain ⟨hs, -, hread⟩ := Syntax.bind_eq_ok hread
    cases hread
    obtain ⟨w, ws', -, rfl⟩ := Syntax.exists_of_visitAll hvs
    obtain ⟨v, vs, hne⟩ : ∃ v vs, front ++ w :: ws' = v :: vs := by
      cases front <;> exact ⟨_, _, rfl⟩
    refine ⟨key, Nesting.mark_keyed mark _ _ hmark, v, vs, ?_⟩
    rw [← hne]
    simp [entry, Entries.field?, Entries.valueAt?, Value.same_text_self]

end Layers

section Trees

theorem visit_of_ok {α β : Type} {r : Read α} {d : Depth} {a : α} (h : visit r d = .ok a)
    (r' : Read β) : visit r' d = r' ⟨d.limit, d.reached + 1⟩ := by
  simp only [visit] at h ⊢
  split at h
  · cases h
  · next hdepth => rw [if_neg hdepth]

theorem surround_of_body {es : Entries} {l : Layer} (hl : Nesting.IsLayer l) (hes : Nesting.IsBody es) :
    surround l.withs es l.tail = l.withs ++ es ++ l.tail := by
  have hnone : ∀ {keys : List String} {fs : Entries}, KeysIn keys fs →
      (∀ k ∈ keys, k ∉ Nesting.bodyKeys) → ∀ e ∈ fs, Entries.valueAt? es e.1 = none := by
    intro keys fs hfs hkeys e he
    obtain ⟨k, hk, hek⟩ := hfs e he
    rw [hek]
    exact hes.field?_eq_none (hkeys k hk)
  have hwiths : Syntax.Reading.hasTableExpressions es = false := by
    refine List.any_eq_false.mpr fun k hk => ?_
    have hother : ∀ k ∈ Clause.tableExpressions, k ∉ Nesting.bodyKeys := by decide
    simp [Entries.hasField, hes.field?_eq_none (hother k hk)]
  refine Nesting.surround_of_apart (Bool.or_eq_false_iff.mpr ⟨?_, by rw [hwiths, Bool.and_false]⟩)
  exact List.any_eq_false.mpr fun e he => by simp [hnone hl.tail (by decide) e he]

theorem of_node {a b : Bool} (h : (a && b) = true) : a = true ∧ b = true := Bool.and_eq_true_iff.mp h

variable {N : String → Bool}

theorem exists_of_query {ctes : Tree (.option .ctes)} {body : Tree .body}
    {order : Tree (.list .orderItem)} {limits : Tree (.list .limit)} {lock : Option Syntax.Lock}
    {d : Depth} {es : Entries}
    (hbody : ∀ {d es}, Combination body → (body.read : Read Entries) d = .ok es →
      ∃ x, I.value body d = .ok x ∧ Combined I es x ∧ ((∀ q, body ≠ .nested q) → Body I es x))
    (h : Combination (.query ctes body order limits lock))
    (hes : ((Tree.query ctes body order limits lock).read : Read Entries) d = .ok es) :
    ∃ x, I.value (.query ctes body order limits lock) d = .ok x ∧ Combined I es x := by
  obtain ⟨fs, l, hfs, hl, hmap⟩ := Nesting.query_eq_ok hes
  have hvalue : I.value (.query ctes body order limits lock) d = _ := visit_of_ok hes _
  cases h with
  | plain h =>
    obtain ⟨x, hx, hcombined, -⟩ := hbody h hfs
    cases hl
    rw [Syntax.bind_of_ok hx] at hvalue
    refine ⟨x, hvalue, ?_⟩
    have hempty : surround [] fs [] = fs := by simp [surround]
    exact (hmap.trans hempty) ▸ hcombined
  | query hne h =>
    obtain ⟨x, hx, -, hmain⟩ := hbody h hfs
    rw [Syntax.bind_of_ok hx, Syntax.bind_of_ok hl] at hvalue
    refine ⟨_, hvalue, ?_⟩
    rw [hmap, surround_of_body (Nesting.readLayer_isLayer _ _ hl) (Nesting.body_isBody body hne _ _ hfs)]
    exact (hmain hne).around (readLayer_around _ _ hl)

/-- The clause map of a combination has the value of the tree. -/
theorem exists_of_body (b : Tree .body) (h : Combination b) (hb : Regular N b)
    {d : Depth} {es : Entries} (hes : (b.read : Read Entries) d = .ok es) :
    ∃ x, I.value b d = .ok x ∧ Combined I es x ∧ ((∀ q, b ≠ .nested q) → Body I es x) := by
  match b, h, hb, hes with
  | .selectBody s, _, hb, hes =>
    have hbody : Body I es (I.select es) := .select (select_shape s (of_node hb).2 _ _ hes)
    exact ⟨_, Syntax.bind_of_ok hes, hbody.combined, fun _ => hbody⟩
  | .nested (.query ctes body order limits lock), .nested h, hb, hes =>
    obtain ⟨x, hx, hcombined⟩ := exists_of_query (I := I)
      (fun h hes => exists_of_body body h (of_node (of_node (of_node (of_node hb).2).1).1).2 hes) h hes
    exact ⟨x, hx, hcombined, fun hne => absurd rfl (hne _)⟩
  | .operation op left right, .operation hl hr, hb, hes =>
    have hread := Syntax.read_of_visit hes
    obtain ⟨l, hleft, hread⟩ := Syntax.bind_eq_ok hread
    obtain ⟨r, hright, hread⟩ := Syntax.bind_eq_ok hread
    cases hread
    obtain ⟨x, hx, hl, -⟩ := exists_of_body left hl (of_node (of_node hb).1).2 hleft
    obtain ⟨y, hy, hr, -⟩ := exists_of_body right hr (of_node hb).2 hright
    have hbody : Body I (combine op.clause l r) (I.operation op x y) := hl.combine hr
    refine ⟨I.operation op x y, ?_, hbody.combined, fun _ => hbody⟩
    have hvalue : I.value (.operation op left right) d = _ := visit_of_ok hes _
    rw [hvalue, Syntax.bind_of_ok hx, Syntax.bind_of_ok hy]
    rfl
termination_by sizeOf b
decreasing_by
  all_goals
    simp only [Tree.nested.sizeOf_spec, Tree.query.sizeOf_spec, Tree.operation.sizeOf_spec]
    omega

end Trees

section Maps

variable {I} {ws ts es fs : Entries} {x : R}

/-- The keys that a combination may have besides those around its body. -/
def coreKeys : List String := Clause.setOperations ++ selectKeys

theorem IsSelect.coreKeys (h : IsSelect es) : KeysIn coreKeys es := h.keys.mono (by decide)

theorem operated_keys (op : SetOperator) (bs : List (Entries × R)) : KeysIn coreKeys (operated op bs) := by
  have hop : op.clause ∈ coreKeys := by cases op <;> decide
  exact .entry hop _

theorem Around.isLayer (h : Around ws ts) : Nesting.IsLayer ⟨ws, ts⟩ where
  withs := by
    rcases h.withs with rfl | ⟨key, hkey, vs, rfl⟩
    · simp [KeysIn]
    · exact .entry hkey _
  tail := h.tail.mono (by decide)

theorem operation?_append (h : ∀ e ∈ es, Interpretation.operator? e.1 = none) :
    I.operation? (es ++ fs) = I.operation? fs := by
  induction es with
  | nil => rfl
  | cons e es ih =>
    obtain ⟨he, hes⟩ := List.forall_mem_cons.mp h
    rw [List.cons_append, Interpretation.operation?, he]
    exact ih hes

theorem operation?_append_right (h : ∀ e ∈ fs, Interpretation.operator? e.1 = none) :
    I.operation? (es ++ fs) = I.operation? es := by
  induction es with
  | nil =>
    have hnil : I.operation? (fs ++ []) = I.operation? [] := operation?_append h
    rwa [List.append_nil] at hnil
  | cons e es ih =>
    rw [List.cons_append, Interpretation.operation?, Interpretation.operation?, ih]

theorem operator?_eq_none {keys : List String} (h : KeysIn keys es)
    (hkeys : ∀ k ∈ keys, Interpretation.operator? (.text k) = none) :
    ∀ e ∈ es, Interpretation.operator? e.1 = none := by
  intro e he
  obtain ⟨k, hk, hek⟩ := h e he
  rw [hek]
  exact hkeys k hk

theorem ofMap_around (h : Around ws ts) (hes : KeysIn coreKeys es) :
    I.ofMap (.map (ws ++ es ++ ts)) = some (I.bound ws (I.tailed (.ofEntries ts)
      ((I.operation? es).getD (I.select es)))) := by
  have hwiths : withsOf (ws ++ es ++ ts) = ws := by
    rw [Nesting.withs_append h.isLayer, withsOf, hes.filter_hasKey_nil (by decide), List.append_nil]
  have hbody : bodyOf (ws ++ es ++ ts) = es := by
    rw [Nesting.body_append h.isLayer]
    refine List.filter_eq_self.mpr fun e he => ?_
    obtain ⟨k, hk, hek⟩ := hes e he
    have hother : ∀ k ∈ coreKeys, k ∉ Clause.tableExpressions ++ Nesting.tailKeys := by decide
    simpa [Nesting.hasKey, hek, Value.text?] using hother k hk
  have htail : Tail.ofEntries (ws ++ es ++ ts) = Tail.ofEntries ts := by
    funext e
    have hws : Entries.field? ws e.key = none := h.isLayer.withs.field?_eq_none (by cases e <;> decide)
    have hnone : Entries.field? es e.key = none := hes.field?_eq_none (by cases e <;> decide)
    rw [Tail.ofEntries, Tail.ofEntries, Nesting.field?_append, Nesting.field?_append, hws, hnone]
    rfl
  have hoperation : I.operation? (ws ++ es ++ ts) = I.operation? es := by
    rw [List.append_assoc, operation?_append (operator?_eq_none h.isLayer.withs (by decide)),
      operation?_append_right (operator?_eq_none h.isLayer.tail (by decide))]
  rw [Interpretation.ofMap, hwiths, hbody, htail, hoperation]

/-- The value of a combination's clause map. -/
theorem ofMap_of_combined (h : Combined I es x) : I.ofMap (.map es) = some x := by
  induction h with
  | @select ws es ts haround hes =>
    have hnone : I.operation? es = none := by
      rw [← List.append_nil es]
      exact operation?_append (operator?_eq_none hes.keys (by decide))
    rw [ofMap_around haround hes.coreKeys, hnone]
    rfl
  | @operation ws ts op a b bs haround _ ih =>
    have hvalues : ∀ cs : List (Entries × R), (∀ c ∈ cs, I.ofMap (.map c.1) = some c.2) →
        I.branchValues (cs.map fun c => .map c.1) = cs.map (·.2) := by
      intro cs hcs
      induction cs with
      | nil => rfl
      | cons c cs ih =>
        obtain ⟨hc, hcs⟩ := List.forall_mem_cons.mp hcs
        rw [List.map_cons, Interpretation.branchValues, hc, ih hcs]
        rfl
    have hoperation : I.operation? (operated op (a :: b :: bs)) =
        some ((b :: bs).foldl (fun x c => I.operation op x c.2) a.2) := by
      have hop : Interpretation.operator? (.text op.clause) = some op := by
        cases op <;> rfl
      rw [operated, entry, Interpretation.operation?, hop]
      dsimp only
      rw [Interpretation.branches, hvalues _ ih, List.map_cons, Interpretation.folded, List.foldl_map]
    rw [ofMap_around haround (operated_keys op _), hoperation]
    rfl

end Maps

end SqlTree.SetOperations
