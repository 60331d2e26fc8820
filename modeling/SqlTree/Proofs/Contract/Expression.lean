import SqlTree.Proofs.Contract.Values

/-!
Operators, membership tests, calls and ordered items under a contract.
-/

namespace SqlTree.Contract.Kept

open Render
open Fragment (ofText joined commas between parens parensIf after)

variable {M : Contract} {K : Value → Prop} {r : Renderer} {s : Settings} (hr : M.Kept K r)
  (hs : M.settings s)

include hr hs

theorem each (nested : Bool) {vs : List Value} (hvs : ∀ v ∈ vs, K v) :
    M.HoldsAll (each r s nested vs) :=
  .mapM_all fun v hv => hr.expr nested hs (hvs v hv)

theorem list {vs : List Value} (hvs : ∀ v ∈ vs, K v) : M.Holds (list r s vs) :=
  .bind (hr.each hs false hvs) fun _ h => .pure (good_commas h)

theorem subquery (nested : Bool) {v : Value} (hv : K v) : M.Holds (subquery r s nested v) := by
  unfold Render.subquery
  split
  · split
    · next h => exact hr.statement true hs hv h
    · exact hr.expr nested hs hv
  · exact hr.expr nested hs hv

theorem nest {v : Value} (hv : K v) : M.Holds (nest r s v) := by
  have inner : M.Holds (do return parens (← r.expr s false v)) :=
    .bind (hr.expr false hs hv) fun _ h => .pure (good_parens h)
  unfold Render.nest
  split
  · split
    · next h => exact hr.statement true hs hv h
    · exact inner
  · exact inner

/-- A statement without parentheses, or an expression. -/
theorem bareQuery {v : Value} (hv : K v) : M.Holds (bareQuery r s v) := by
  unfold Render.bareQuery
  split
  · split
    · next h => exact hr.statement false hs hv h
    · exact hr.expr false hs hv
  · exact hr.expr false hs hv

section Operators

variable (nested : Bool)

theorem equality {op : String} (hop : op ∈ Operator.equality) {args : List Value}
    (hargs : ∀ v ∈ args, K v) : M.Holds (equality r s nested op args) := by
  unfold Render.equality comparison
  split
  · next left right =>
    refine .bind (P := M.good) ?_ fun _ h => .pure (good_parensIf h)
    have hleft := hr.expr true hs (hargs left (by simp))
    have hright := hr.expr true hs (hargs right (by simp))
    have hnull : M.word .bound .bound (nullTest op) := by
      unfold nullTest
      split
      · exact M.phrase (by decide)
      · exact M.phrase (by decide)
    split
    · exact .bind hright fun _ h => .pure (good_before h hnull)
    · exact .bind hleft fun _ h => .pure (good_before h hnull)
    · exact .bind hleft fun _ hl => .bind hright fun _ h => .pure (good_linked hl (M.equality_ok op hop) h)
  · exact holds_fail rfl

theorem infixed {op : String} (hop : M.registry.isBinary op = true) {args : List Value}
    (hargs : ∀ v ∈ args, K v) : M.Holds (infixed r s nested op args) := by
  unfold Render.infixed
  generalize hkept : (if s.registry.ignoresNil op then args.filter (!isNull ·) else args) = kept
  have hkept : ∀ v ∈ kept, K v := by
    subst hkept
    intro v hv
    split at hv
    · exact hargs v (List.mem_of_mem_filter hv)
    · exact hargs v hv
  dsimp only
  split
  · split
    · next t ht =>
      refine holds_phrase ?_
      unfold Operator.unit? at ht
      split at ht <;> cases ht <;> decide
    · exact holds_fail rfl
  · split
    · next hunary =>
      rw [M.registry_eq hs] at hunary
      exact .bind (hr.expr true hs (hkept _ (by simp))) fun _ h =>
        .pure (good_parensIf (good_after (M.unary_ok op hop hunary) h))
    · exact hr.expr nested hs (hkept _ (by simp))
  · exact .bind (hr.each hs true hkept) fun _ h =>
      .pure (good_parensIf (good_joined (M.infix_ok op hop) h))

omit hr hs in
theorem emptySide (keyword : String) (left : Fragment) : M.Holds (emptySide s keyword left) := by
  unfold Render.emptySide
  split
  · exact holds_fail rfl
  · exact holds_phrase (by decide)

omit hr in
theorem paramItems (v : Value) :
    Meets M.fault (fun o => ∀ vs, o = some vs → ∀ w ∈ vs, M.value w) (paramItems? s v) := by
  unfold paramItems?
  split
  · split
    · exact .bind (meets_param hs _) fun w hw => hw.2
    · exact fun vs h => absurd h (by simp)
  · exact fun vs h => absurd h (by simp)

/-- The right side of a membership test: the values of a parameter, a list of values, or an
expression. -/
theorem membershipSide (keyword : String) (left : Fragment) {right : Value} (hright : K right)
    (hitems : ∀ vs, right.items? = some vs → ∀ v ∈ vs, K v) :
    M.Holds (membershipSide r s keyword left right) := by
  unfold Render.membershipSide
  refine .bind_lift (paramItems hs right) fun o ho => ?_
  split
  · exact emptySide keyword left
  · next values _ =>
    exact .bind (.mapM_all fun w hw => holds_bind hs (ho _ rfl w hw)) fun _ h =>
      .pure (good_parens (good_commas h))
  · split
    · exact emptySide keyword left
    · next hvs =>
      split
      · exact .bind (hr.list hs (hitems _ hvs)) fun _ h => .pure (good_parens h)
      · exact hr.expr true hs hright
    · exact hr.expr true hs hright

theorem membership {op : String} (hop : op ∈ Operator.membership) {args : List Value}
    (hargs : ∀ v ∈ args, K v)
    (hitems : ∀ v ∈ args.tail, ∀ vs, v.items? = some vs → ∀ w ∈ vs, K w) :
    M.Holds (membership r s nested op args) := by
  have hword : M.word .bound .free (" " ++ Keyword.render op ++ " ") := by
    simp only [Operator.membership, List.mem_cons, List.not_mem_nil, or_false] at hop
    rcases hop with rfl | rfl <;> exact M.phrase (by decide)
  unfold Render.membership
  dsimp only
  split
  · next left right =>
    exact .bind (hr.expr true hs (hargs left (by simp))) fun l hl =>
      .bind (hr.membershipSide hs _ l (hargs right (by simp)) (hitems right (by simp))) fun _ h =>
        .pure (good_parensIf (good_linked hl hword h))
  · exact holds_fail rfl

end Operators

/-- A call marks its arguments as distinct. -/
def isMarkedCall (name : String) : Bool :=
  distinctSuffix.isSuffixOf (Keyword.function name).toList

/-- What is written in front of the arguments of a call. -/
def callHead (name : String) : String :=
  let full := (Keyword.function name).toList
  String.ofList (if isMarkedCall name then full.take (full.length - distinctSuffix.length) else full)

/-- The words around the arguments of a call. -/
def CallWords (M : Contract) (name : String) : Prop :=
  M.word .free .bound (callHead name ++ "()") ∧
    M.word .free .free (callHead name ++ "(" ++ if isMarkedCall name then "DISTINCT " else "")

theorem call {name : String} (hname : Meets M.fault (fun _ => CallWords M name) (checkHead s name))
    {args : List Value} (hargs : ∀ v ∈ args, K v) : M.Holds (call r s name args) := by
  unfold Render.call
  refine .bind_lift hname fun _ hwords => ?_
  have hclose : M.word .bound .bound ")" := M.phrase (by decide)
  dsimp only
  split
  · exact .pure hwords.1
  · split
    · next h =>
      exact .bind (hr.statement false hs (hargs _ (by simp)) h) fun _ h =>
        .pure (good_between hwords.2 hclose h)
    · exact .bind (hr.list hs hargs) fun _ h => .pure (good_between hwords.2 hclose h)
  · exact .bind (hr.list hs hargs) fun _ h => .pure (good_between hwords.2 hclose h)

/-- The words behind an ordered item. -/
def OrderWords (M : Contract) (item : Value) : Prop :=
  ∀ m ∈ (orderItem item).2, M.word .bound .bound (orderSuffix m)

omit hr hs in
theorem good_suffixed {f : Fragment} (hf : M.good f) {ts : List String}
    (hts : ∀ t ∈ ts, M.word .bound .bound t) : M.good (f ++ ts.map .text) := by
  induction ts generalizing f with
  | nil => simpa using hf
  | cons t ts ih =>
    have hcons := ih (good_before hf (hts t (by simp))) fun u hu => hts u (by simp [hu])
    simpa using hcons

theorem ordered {item : Value} (hitem : K (orderItem item).1) (hwords : OrderWords M item) :
    M.Holds (ordered r s item) := by
  refine .bind (hr.expr false hs hitem) fun f hf => .pure ?_
  have hts : ∀ t ∈ (orderItem item).2.map orderSuffix, M.word .bound .bound t := by
    intro t ht
    obtain ⟨m, hm, rfl⟩ := List.mem_map.mp ht
    exact hwords m hm
  have hsuffixed := good_suffixed hf hts
  rw [List.map_map] at hsuffixed
  exact hsuffixed

theorem orderItems {v : Value} (h : ∀ item ∈ v.asItems, K (orderItem item).1 ∧ OrderWords M item) :
    M.HoldsAll (orderItems r s v) :=
  .mapM_all fun item hi => hr.ordered hs (h item hi).1 (h item hi).2

end SqlTree.Contract.Kept
