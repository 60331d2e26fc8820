import Mathlib.Data.List.Forall2
import SqlTree.Proofs.Regular
import SqlTree.Proofs.Readings

/-!
What a tree is read as does not depend on how deep a reading may go, if it may go deep enough.
-/

namespace SqlTree.Syntax

variable {α β : Type} {r : Read α} {x : Except Fault α} {a : α}

theorem mapM_eq_ok_iff {rs : List (Read α)} {as : List α} {depth : Depth} :
    (rs.mapM id) depth = .ok as ↔ List.Forall₂ (fun r a => r depth = .ok a) rs as := by
  induction rs generalizing as with
  | nil =>
    rw [List.mapM_nil, List.forall₂_nil_left_iff]
    exact ⟨fun h => (Except.ok.inj h).symm, fun h => congrArg Except.ok h.symm⟩
  | cons r rs ih =>
    rw [List.mapM_cons]
    change (r depth).bind (fun a => ((rs.mapM id) depth).bind fun as => .ok (a :: as)) = _ ↔ _
    constructor
    · intro h
      cases hr : r depth with
      | error e => simp [hr, Except.bind] at h
      | ok a =>
        cases hrs : (rs.mapM id) depth with
        | error e => simp [hr, hrs, Except.bind] at h
        | ok as' =>
          rw [hr, hrs] at h
          cases h
          exact .cons hr (ih.mp hrs)
    · intro h
      cases h with
      | cons hr hrs =>
        rw [hr, ih.mpr hrs]
        rfl

/-- The reading comes to `x` wherever it may go deep enough, and elsewhere it comes to that or fails
for its depth. -/
def Settles (r : Read α) (x : Except Fault α) : Prop :=
  ∃ need : Nat, ∀ d : Depth, r d = x ∨
    d.limit < d.reached + need ∧ ∃ n, r d = .error (.textTooDeep n d.limit)

namespace Settles

theorem pure : Settles (pure a) (.ok a) := ⟨0, fun _ => .inl rfl⟩

theorem bind {f : α → Read β} {y : Except Fault β} (h : Settles r (.ok a)) (hf : Settles (f a) y) :
    Settles (r >>= f) y := by
  obtain ⟨need, h⟩ := h
  obtain ⟨need', hf⟩ := hf
  refine ⟨max need need', fun d => ?_⟩
  change (r d).bind (fun a => f a d) = _ ∨ _ ∧ ∃ n, (r d).bind (fun a => f a d) = _
  rcases h d with ha | ⟨hdeep, n, ha⟩
  · rw [ha]
    rcases hf d with hb | ⟨hdeep, hb⟩
    · exact .inl hb
    · exact .inr ⟨by omega, hb⟩
  · rw [ha]
    exact .inr ⟨by omega, n, rfl⟩

theorem bind_error {f : α → Read β} {e : Fault} (h : Settles r (.error e)) :
    Settles (r >>= f) (.error e) := by
  obtain ⟨need, h⟩ := h
  refine ⟨need, fun d => ?_⟩
  change (r d).bind (fun a => f a d) = _ ∨ _ ∧ ∃ n, (r d).bind (fun a => f a d) = _
  rcases h d with ha | ⟨hdeep, n, ha⟩
  · rw [ha]
    exact .inl rfl
  · rw [ha]
    exact .inr ⟨hdeep, n, rfl⟩

theorem visit (h : Settles r x) : Settles (visit r) x := by
  obtain ⟨need, h⟩ := h
  refine ⟨need + 1, fun d => ?_⟩
  rw [Syntax.visit]
  split
  case isTrue hdeep => exact .inr ⟨by dsimp only at hdeep; omega, _, rfl⟩
  case isFalse =>
    rcases h ⟨d.limit, d.reached + 1⟩ with ha | ⟨hdeep, hfail⟩
    · exact .inl ha
    · exact .inr ⟨by dsimp only at hdeep; omega, hfail⟩

theorem mapM {rs : List (Read α)} {as : List α}
    (h : List.Forall₂ (fun r a => Settles r (.ok a)) rs as) : Settles (rs.mapM id) (.ok as) := by
  induction h with
  | nil => exact pure
  | cons h _ ih =>
    rw [List.mapM_cons]
    exact h.bind (ih.bind pure)

theorem visitAll_error {rs : List (Read α)} {e : Fault} (h : Settles r (.error e)) :
    Settles (visitAll (r :: rs)) (.error e) := by
  rw [visitAll, List.mapM_cons]
  exact h.bind_error.visit

end Settles

/-- A value stays as it is where the limit is raised. -/
def Deepens (r : Read α) : Prop :=
  ∀ (d : Depth) (limit : Int) (a : α), d.limit ≤ limit → r d = .ok a → r ⟨limit, d.reached⟩ = .ok a

namespace Deepens

theorem pure (a : α) : Deepens (pure a) := fun _ _ _ _ h => h

theorem bind {f : α → Read β} (h : Deepens r) (hf : ∀ a, Deepens (f a)) : Deepens (r >>= f) := by
  intro d limit b hlimit hb
  obtain ⟨a, ha, hb⟩ := bind_eq_ok hb
  rw [bind_of_ok (h d limit a hlimit ha)]
  exact hf a d limit b hlimit hb

theorem visit (h : Deepens r) : Deepens (visit r) := by
  intro d limit a hlimit ha
  rw [Syntax.visit] at ha ⊢
  split at ha
  · cases ha
  next hreached =>
    rw [if_neg fun hdeep => hreached (Int.lt_of_le_of_lt hlimit hdeep)]
    exact h ⟨d.limit, d.reached + 1⟩ limit a hlimit ha

end Deepens

/-- The reading comes to something that does not depend on the depth: to a value, or to a numeral
that is too long, if there may be one. -/
structure Settled (lax : Bool) (r : Read α) : Prop where
  exists_settles : ∃ x, Settles r x ∧ ∀ e, x = .error e → lax = true ∧ e = .longNumeral
  deepens : Deepens r

namespace Settled

variable {lax : Bool} {f : α → Read β}

theorem pure (a : α) : Settled lax (pure a) := ⟨⟨_, .pure, nofun⟩, .pure a⟩

theorem bind (h : Settled lax r) (hf : ∀ a, Settled lax (f a)) : Settled lax (r >>= f) where
  exists_settles := by
    obtain ⟨x, hx, hlong⟩ := h.exists_settles
    cases x with
    | error e =>
      refine ⟨_, hx.bind_error, ?_⟩
      rintro _ ⟨⟩
      exact hlong e rfl
    | ok a =>
      obtain ⟨y, hy, hlong⟩ := (hf a).exists_settles
      exact ⟨y, hx.bind hy, hlong⟩
  deepens := h.deepens.bind fun a => (hf a).deepens

theorem map {g : α → β} (h : Settled lax r) : Settled lax (do return g (← r)) :=
  h.bind fun _ => .pure _

theorem visit (h : Settled lax r) : Settled lax (visit r) where
  exists_settles := by
    obtain ⟨x, hx, hlong⟩ := h.exists_settles
    exact ⟨x, hx.visit, hlong⟩
  deepens := h.deepens.visit

theorem ite {c : Prop} [Decidable c] {s : Read α} (hr : Settled lax r) (hs : Settled lax s) :
    Settled lax (if c then r else s) := by
  split
  · exact hr
  · exact hs

/-- Without numerals that are too long there is a value. -/
theorem exists_ok (h : Settled false r) : ∃ a, Settles r (.ok a) := by
  obtain ⟨x, hx, hlong⟩ := h.exists_settles
  cases x with
  | error e => cases (hlong e rfl).1
  | ok a => exact ⟨a, hx⟩

theorem exists_forall₂ {rs : List (Read α)} (h : ∀ r ∈ rs, Settled false r) :
    ∃ as, List.Forall₂ (fun r a => Settles r (.ok a)) rs as := by
  induction rs with
  | nil => exact ⟨[], .nil⟩
  | cons r rs ih =>
    obtain ⟨hr, hrs⟩ := List.forall_mem_cons.mp h
    obtain ⟨a, ha⟩ := hr.exists_ok
    obtain ⟨as, has⟩ := ih hrs
    exact ⟨a :: as, .cons ha has⟩

theorem mapM {rs : List (Read α)} (h : ∀ r ∈ rs, Settled lax r) : Settled lax (rs.mapM id) := by
  induction rs with
  | nil => exact .pure []
  | cons r rs ih =>
    obtain ⟨hr, hrs⟩ := List.forall_mem_cons.mp h
    rw [List.mapM_cons]
    exact hr.bind fun _ => (ih hrs).map

theorem visitAll {rs : List (Read α)} (h : ∀ r ∈ rs, Settled lax r) : Settled lax (visitAll rs) :=
  (mapM h).visit

theorem mapM_of {γ : Type} {g : γ → Read α} {cs : List γ} (h : ∀ c ∈ cs, Settled lax (g c)) :
    Settled lax (cs.mapM g) := by
  have hmap : cs.mapM g = (cs.map g).mapM id := by rw [List.mapM_map]; rfl
  rw [hmap]
  exact mapM (by simpa using h)

theorem optionMapM {o : Option (Read α)} (h : ∀ r ∈ o, Settled lax r) : Settled lax (o.mapM id) := by
  cases o with
  | none => exact .pure none
  | some r => exact (h r rfl).map

theorem getD {o : Option (Read α)} (h : ∀ r ∈ o, Settled lax r) (hr : Settled lax r) :
    Settled lax (o.getD r) := by
  cases o with
  | none => exact hr
  | some r => exact h r rfl

end Settled

/-- The readings of an operand, alone and on a chain. -/
structure Operand.Settled (lax : Bool) (o : Operand) : Prop where
  value : Syntax.Settled lax o.value
  operands : ∀ op, Syntax.Settled lax (o.operands op)

variable {lax : Bool}

section Operands

variable {r : Read Value} {o left right e : Operand} {parts items : List Operand}

theorem settled_single (h : Settled lax r) : (Operand.single r).Settled lax :=
  ⟨h, fun _ => h.map⟩

theorem settled_node (h : Settled lax r) : (Operand.node r).Settled lax := settled_single h.visit

theorem settled_leaf (v : Value) : (Operand.leaf v).Settled lax := settled_node (.pure v)

theorem settled_values (h : ∀ o ∈ parts, o.Settled lax) : Settled lax (Operand.values parts) :=
  .visitAll (by simpa using fun o ho => (h o ho).value)

theorem settled_form (head : String) (h : ∀ o ∈ parts, o.Settled lax) :
    (Operand.form head parts).Settled lax :=
  settled_node (Settled.mapM_of fun o ho => (h o ho).value).map

theorem settled_unary (head : String) (h : e.Settled lax) : (Operand.form head [e]).Settled lax :=
  settled_form head (by simpa using h)

theorem settled_binary (head : String) (hl : left.Settled lax) (hr : right.Settled lax) :
    (Operand.form head [left, right]).Settled lax :=
  settled_form head (by simpa using ⟨hl, hr⟩)

theorem settled_ternary (head : String) (h : e.Settled lax) (hl : left.Settled lax) (hr : right.Settled lax) :
    (Operand.form head [e, left, right]).Settled lax :=
  settled_form head (by simpa using ⟨h, hl, hr⟩)

theorem settled_mapM_value {o : Option Operand} (h : ∀ e ∈ o, e.Settled lax) :
    Settled lax (o.mapM Operand.value) := by
  cases o with
  | none => exact .pure none
  | some e => exact (h e rfl).value.map

theorem settled_chain (op : Connective) (hl : left.Settled lax) (hr : right.Settled lax) :
    Settled lax (Reading.chainOperands op left right) :=
  (hl.operands op).bind fun _ => hr.value.map

theorem settled_connected (op : Connective) (hl : left.Settled lax) (hr : right.Settled lax) :
    (Reading.connected op left right).Settled lax := by
  have hwhole : Settled lax (visit do return headed op.word (← Reading.chainOperands op left right)) :=
    (settled_chain op hl hr).map.visit
  exact ⟨hwhole, fun op' => .ite (settled_chain op hl hr) hwhole.map⟩

/-- The values of a list, which is no node if it is empty. -/
theorem settled_listed {β : Type} {f : List Value → Read β} (h : ∀ o ∈ items, o.Settled lax)
    (hf : ∀ vs, Settled lax (f vs)) :
    Settled lax (if items.isEmpty then pure [] >>= f else Operand.values items >>= f) :=
  .ite (hf []) ((settled_values h).bind hf)

theorem settled_branches {bs : List (Read (List Value))} {otherwise : Option Operand}
    (hbs : ∀ b ∈ bs, Settled lax b) (h : ∀ e ∈ otherwise, e.Settled lax) :
    Settled lax (Reading.branches bs otherwise) := by
  refine (Settled.mapM hbs).bind fun vs => ?_
  cases otherwise with
  | none => exact .pure _
  | some e => exact (h e rfl).value.map

theorem settled_call (head : List String) (args : Arguments) {filter : Option Operand}
    {window : Option (Read (Option Value))} (h : ∀ o ∈ items, o.Settled lax)
    (hfilter : ∀ o ∈ filter, o.Settled lax) (hwindow : ∀ r ∈ window, Settled lax r) :
    (Reading.call head args items filter window).Settled lax := by
  have hitems : Settled lax (Reading.callItems args items) :=
    .ite (.pure _) (.ite (.pure _) (settled_values h))
  exact settled_node <| hitems.bind fun _ => (settled_mapM_value hfilter).bind fun _ =>
    (Settled.optionMapM hwindow).map

theorem settled_row {first : Option Operand} (hfirst : ∀ o ∈ first, o.Settled lax)
    (h : ∀ o ∈ items, o.Settled lax) : (Reading.row first items).Settled lax := by
  have hfirsts : Settled lax (first.toList.mapM Operand.value) :=
    .mapM_of fun o ho => (hfirst o (by simpa using ho)).value
  exact settled_node <| hfirsts.bind fun _ => settled_listed h fun _ => .pure _

theorem settled_caseOf {bs : List (Read (List Value))} {otherwise : Option Operand}
    (hsubject : e.Settled lax) (hbs : ∀ b ∈ bs, Settled lax b) (h : ∀ e ∈ otherwise, e.Settled lax) :
    (Reading.caseOf e bs otherwise).Settled lax :=
  settled_node <| hsubject.value.bind fun _ => (settled_branches hbs h).map

theorem settled_type (t : TypeName) : Settled lax t.read := (Settled.pure _).visit.visit

theorem settled_inList (negated : Bool) (he : e.Settled lax) (h : ∀ o ∈ items, o.Settled lax) :
    (Reading.inList negated e items).Settled lax :=
  settled_node <| he.value.bind fun _ => (settled_values h).visit.map

theorem settled_inQuery (negated : Bool) {q : Read Entries} (he : e.Settled lax) (hq : Settled lax q) :
    (Reading.inQuery negated e q).Settled lax :=
  settled_node <| he.value.bind fun _ => hq.visit.map

theorem settled_windowSpec {order : List (Read Value)} (frame : Option String)
    (h : ∀ o ∈ parts, o.Settled lax) (horder : ∀ r ∈ order, Settled lax r) :
    Settled lax (Reading.windowSpec parts order frame) := by
  refine Settled.visit ?_
  refine .ite ?_ ((settled_values h).bind fun _ => ?_)
  all_goals exact .ite (.pure _) ((Settled.visitAll horder).bind fun _ => .pure _)

theorem settled_orderItem (descending : Bool) (nulls : Option NullsOrder) (h : e.Settled lax) :
    Settled lax (Reading.orderItem e descending nulls) :=
  h.value.map.visit

end Operands

section Queries

variable {e : Operand} {parts items : List Operand} {sources : List (Read FromItem)}
  {whereTest : Option Operand} {order : List (Read Value)} {withs : Option (Read Entries)}

theorem settled_optionalEntry (key : String) {v : Option (Read Value)} (h : ∀ r ∈ v, Settled lax r) :
    Settled lax (Reading.optionalEntry key v) := by
  cases v with
  | none => exact .pure _
  | some r => exact (h r rfl).map

/-- The entry of a list that may be missing. -/
theorem settled_listEntry {γ : Type} (key : String) {cs : List γ} {v : Read Value}
    (h : Settled lax v) :
    Settled lax (Reading.optionalEntry key (if cs.isEmpty then none else some v)) := by
  refine settled_optionalEntry key fun r hr => ?_
  split at hr
  · cases hr
  · exact Option.some.inj hr ▸ h

theorem settled_nameList (names : List Name) : Settled lax (Reading.nameList names) :=
  (Settled.pure _).visit

theorem settled_aliased {v : Read Value} (h : Settled lax v) (name : Option Name) :
    Settled lax (Reading.aliased v name) := by
  refine (h.bind fun v => ?_).visit
  cases name with
  | none => exact .pure _
  | some n => exact (Settled.pure _).visit.map

theorem settled_join (kind : JoinKind) {table : Read Value} {test : Option (Read Value)}
    (ht : Settled lax table) (h : ∀ r ∈ test, Settled lax r) :
    Settled lax (Reading.join kind table test) := by
  refine ht.bind fun t => ?_
  cases test with
  | none => exact .pure _
  | some r => exact (h r rfl).map

theorem settled_source {table : Read Value} {joins : List (Read Joined)} (ht : Settled lax table)
    (h : ∀ r ∈ joins, Settled lax r) : Settled lax (Reading.source table joins) :=
  ht.bind fun _ => (Settled.mapM h).map

theorem settled_fromClause (h : ∀ r ∈ sources, Settled lax r) :
    Settled lax (Reading.fromClause sources) :=
  .ite (.pure _) (Settled.mapM h).map.visit

theorem settled_condition (key : String) (h : ∀ e ∈ whereTest, e.Settled lax) :
    Settled lax (Reading.condition key whereTest) :=
  settled_optionalEntry key fun r hr => by
    obtain ⟨e, he, rfl⟩ := Option.map_eq_some_iff.mp hr
    exact (h e he).value.visit

theorem settled_groupClause (h : ∀ o ∈ items, o.Settled lax) :
    Settled lax (Reading.groupClause items) :=
  settled_listEntry "group-by" (settled_values h).map.visit

theorem settled_select {distinct : Option (Read (String × List Value))} {having : Option Operand}
    (hdistinct : ∀ r ∈ distinct, Settled lax r) (horder : ∀ r ∈ order, Settled lax r)
    (hsources : ∀ r ∈ sources, Settled lax r) (hwhere : ∀ e ∈ whereTest, e.Settled lax)
    (hitems : ∀ o ∈ items, o.Settled lax) (hhaving : ∀ e ∈ having, e.Settled lax) :
    Settled lax (Reading.select distinct order sources whereTest items having) :=
  Settled.visit <| (Settled.getD hdistinct (.pure _)).bind fun _ =>
    (Settled.visitAll horder).bind fun _ => (settled_fromClause hsources).bind fun _ =>
      (settled_condition "where" hwhere).bind fun _ => (settled_groupClause hitems).bind fun _ =>
        (settled_condition "having" hhaving).map

theorem settled_operation (op : SetOperator) {left right : Read Entries} (hl : Settled lax left)
    (hr : Settled lax right) : Settled lax (Reading.operation op left right) :=
  (hl.bind fun _ => hr.map).visit

theorem settled_cte (name : Name) (columns : List Name) {body : Read Entries} (h : Settled lax body) :
    Settled lax (Reading.cte name columns body) :=
  Settled.visit <| .ite h.map ((settled_nameList columns).bind fun _ => h.map)

theorem settled_query {body : Read Entries} {limits : List (Read Entries)} (lock : Option Lock)
    (hwiths : ∀ r ∈ withs, Settled lax r) (hbody : Settled lax body) (horder : ∀ r ∈ order, Settled lax r)
    (hlimits : ∀ r ∈ limits, Settled lax r) :
    Settled lax (Reading.query withs body order limits lock) := by
  have hlock : Settled lax (Reading.lockClause lock) := settled_optionalEntry "for" fun r hr => by
    obtain ⟨l, -, rfl⟩ := Option.map_eq_some_iff.mp hr
    exact (Settled.pure _).visit
  exact Settled.visit <| (Settled.getD hwiths (.pure _)).bind fun _ => hbody.bind fun _ =>
    (settled_listEntry "order-by" (Settled.visitAll horder).map).bind fun _ =>
      (Settled.mapM hlimits).bind fun _ => hlock.map

theorem settled_fetch {e : Option Operand} (h : ∀ o ∈ e, o.Settled lax) :
    Settled lax (Reading.fetch e) := by
  refine (Settled.getD (fun r hr => ?_) (.pure _)).map
  obtain ⟨o, ho, rfl⟩ := Option.map_eq_some_iff.mp hr
  exact (h o ho).value

end Queries

section Changes

variable {items : List (Read Value)} {sources : List (Read FromItem)}
  {fields : List (Read (Value × Value))} {whereTest : Option Operand}
  {withs : Option (Read Entries)}

theorem settled_target (path : Path) : Settled lax (Reading.target path) := (Settled.pure _).visit

theorem settled_assignments (h : ∀ r ∈ fields, Settled lax r) :
    Settled lax (Reading.assignments fields) :=
  (Settled.mapM h).map.visit

theorem settled_returning (h : ∀ r ∈ items, Settled lax r) : Settled lax (Reading.returning items) :=
  settled_listEntry "returning" (Settled.visitAll h).map

theorem settled_insert (path : Path) (name : Option Name) (columns : List Name)
    {inserted : Read Inserted} {conflict : Option (Read Entries)} (hwiths : ∀ r ∈ withs, Settled lax r)
    (hinserted : Settled lax inserted) (hconflict : ∀ r ∈ conflict, Settled lax r)
    (hitems : ∀ r ∈ items, Settled lax r) :
    Settled lax (Reading.insert withs path name columns inserted conflict items) := by
  refine Settled.visit <| (Settled.getD hwiths (.pure _)).bind fun _ =>
    (settled_target path).bind fun _ => ?_
  have hrest : ∀ (table : Value) (cs : Option (List Value)) (ctes : Entries), Settled lax (do
      let source ← inserted
      let conflict ← conflict.getD (pure [])
      let items ← Reading.returning items
      return ctes ++ conflict ++ items ++ Reading.insertion table cs source) := fun _ _ _ =>
    hinserted.bind fun _ => (Settled.getD hconflict (.pure _)).bind fun _ =>
      (settled_returning hitems).map
  exact .ite (hrest _ none _) ((settled_nameList columns).map.bind fun _ => hrest _ _ _)

theorem settled_doUpdate (hfields : ∀ r ∈ fields, Settled lax r)
    (hwhere : ∀ e ∈ whereTest, e.Settled lax) : Settled lax (Reading.doUpdate fields whereTest) := by
  refine (settled_assignments hfields).bind fun _ =>
    (settled_condition "where" hwhere).bind fun tests => ?_
  cases tests <;> exact .pure _

theorem settled_conflict {target : Option (Read Entries)} {action : Read Entries}
    (htarget : ∀ r ∈ target, Settled lax r) (haction : Settled lax action) :
    Settled lax (Reading.conflict target action) :=
  ((Settled.getD htarget (.pure _)).bind fun _ => haction.map).visit

theorem settled_changed (path : Path) (name : Option Name) :
    Settled lax (Reading.changed path name) := by
  refine (settled_target path).bind fun _ => ?_
  cases name with
  | none => exact .pure _
  | some n => exact (Settled.pure _).visit.map

theorem settled_update (path : Path) (name : Option Name) (hwiths : ∀ r ∈ withs, Settled lax r)
    (hfields : ∀ r ∈ fields, Settled lax r) (hsources : ∀ r ∈ sources, Settled lax r)
    (hwhere : ∀ e ∈ whereTest, e.Settled lax) (hitems : ∀ r ∈ items, Settled lax r) :
    Settled lax (Reading.update withs path name fields sources whereTest items) :=
  Settled.visit <| (Settled.getD hwiths (.pure _)).bind fun _ =>
    (settled_changed path name).bind fun _ => (settled_assignments hfields).bind fun _ =>
      (settled_fromClause hsources).bind fun _ => (settled_condition "where" hwhere).bind fun _ =>
        (settled_returning hitems).map

theorem settled_delete (path : Path) (name : Option Name) {tables : List (Read Value)}
    (hwiths : ∀ r ∈ withs, Settled lax r) (htables : ∀ r ∈ tables, Settled lax r)
    (hwhere : ∀ e ∈ whereTest, e.Settled lax) (hitems : ∀ r ∈ items, Settled lax r) :
    Settled lax (Reading.delete withs path name tables whereTest items) :=
  Settled.visit <| (Settled.getD hwiths (.pure _)).bind fun _ =>
    (settled_changed path name).bind fun _ =>
      (settled_listEntry "using" (Settled.visitAll htables).map).bind fun _ =>
        (settled_condition "where" hwhere).bind fun _ => (settled_returning hitems).map

end Changes

section Definitions

theorem settled_columnDef (c : ColumnDef) : Settled lax (Reading.columnDef c) :=
  (settled_type c.type).map.visit

theorem settled_createTable (ifNotExists : Bool) (path : Path) (columns : List ColumnDef) :
    Settled lax (Reading.createTable ifNotExists path columns) :=
  Settled.visit <| (settled_target path).bind fun _ =>
    (Settled.mapM_of fun c _ => settled_columnDef c).map

theorem settled_targets (paths : List Path) : Settled lax (paths.mapM Reading.target) :=
  .mapM_of fun path _ => settled_target path

theorem settled_alterAction (a : AlterAction) : Settled lax (Reading.alterAction a) := by
  cases a with
  | add c => exact (settled_columnDef c).map.visit
  | drop c => exact (Settled.pure _).visit

theorem settled_alterTable (path : Path) (actions : List AlterAction) :
    Settled lax (Reading.alterTable path actions) := by
  refine Settled.visit <| (settled_target path).bind fun _ =>
    (Settled.mapM_of fun a _ => settled_alterAction a).bind fun changes => ?_
  rcases changes with _ | ⟨change, _ | _⟩ <;> exact .pure _

end Definitions

section Trees

/-- What a tree of the kind is read as does not depend on the depth. -/
def Stable (lax : Bool) : (k : Kind) → Meaning k → Prop
  | .expr, o => Operand.Settled lax o
  | .branch, r => Settled lax r
  | .window, r => Settled lax r
  | .orderItem, r => Settled lax r
  | .limit, r => Settled lax r
  | .query, r => Settled lax r
  | .ctes, r => Settled lax r
  | .cte, r => Settled lax r
  | .body, r => Settled lax r
  | .distinct, r => Settled lax r
  | .select, r => Settled lax r
  | .selectItem, r => Settled lax r
  | .source, r => Settled lax r
  | .table, r => Settled lax r
  | .join, r => Settled lax r
  | .joinTest, r => Settled lax r
  | .assignment, r => Settled lax r
  | .row, r => Settled lax r
  | .insertSource, r => Settled lax r
  | .conflictTarget, r => Settled lax r
  | .conflictAction, r => Settled lax r
  | .conflict, r => Settled lax r
  | .statement, r => Settled lax r
  | .list k, ms => ∀ m ∈ (show List (Meaning k) from ms), Stable lax k m
  | .option k, m => ∀ n ∈ (show Option (Meaning k) from m), Stable lax k n

/-- A numeral that can be read: a real number, or an integer that is not too long. -/
def Literal.isReadable (digits : String) : Bool :=
  digits.toList.any (fun c => c = '.' || c = 'e' || c = 'E') || digits.toList.length ≤ digitLimit

theorem Literal.number_cases (digits : String) :
    (∃ v, Literal.number digits = .ok v) ∨
      Literal.isReadable digits = false ∧ Literal.number digits = .error .longNumeral := by
  unfold Literal.number Literal.isReadable
  dsimp only
  split
  case isTrue => exact .inl ⟨_, rfl⟩
  case isFalse hwhole =>
    split
    case isTrue hlong => exact .inr ⟨by simpa [hwhole] using hlong, rfl⟩
    case isFalse => exact .inl ⟨_, rfl⟩

theorem settled_number {digits : String} (h : (lax || Literal.isReadable digits) = true) :
    (Operand.leafOr (Literal.number digits |>.map untyped)).Settled lax := by
  rcases Literal.number_cases digits with ⟨v, hv⟩ | ⟨hlong, herror⟩
  · rw [hv]
    exact settled_leaf _
  · rw [hlong, Bool.or_false] at h
    rw [herror]
    refine settled_node ⟨⟨_, ⟨0, fun _ => .inl rfl⟩, ?_⟩, fun _ _ _ _ ha => ha⟩
    rintro _ ⟨⟩
    exact ⟨h, rfl⟩

/-- What a tree comes to does not depend on the depth. -/
theorem stable_read {k : Kind} {t : Tree k} {p : (k : Kind) → Tree k → Bool}
    (hp : ∀ digits, p .expr (.number digits) = true → (lax || Literal.isReadable digits) = true)
    (h : t.every p = true) : Stable lax k t.read := by
  induction t
  all_goals simp only [Tree.every, Bool.and_eq_true] at h
  case nil => exact List.forall_mem_nil _
  case cons ih ihs => exact List.forall_mem_cons.mpr ⟨ih h.1, ihs h.2⟩
  case absent =>
    intro _ hm
    cases hm
  case present ih => exact fun _ hm => Option.mem_some.mp hm ▸ ih h
  case number => exact settled_number (hp _ h)
  case string => exact settled_leaf _
  case boolean => exact settled_leaf _
  case null => exact settled_leaf _
  case typed => exact settled_leaf _
  case verbatim => exact settled_leaf _
  case column => exact settled_leaf _
  case param => exact settled_leaf _
  case call ih₁ ih₂ ih₃ =>
    obtain ⟨⟨⟨-, h₁⟩, h₂⟩, h₃⟩ := h
    exact settled_call _ _ (ih₁ h₁) (ih₂ h₂) (ih₃ h₃)
  case cases ih₁ ih₂ => exact settled_node (settled_branches (ih₁ h.1.2) (ih₂ h.2)).map
  case caseOf ih₁ ih₂ ih₃ =>
    obtain ⟨⟨⟨-, h₁⟩, h₂⟩, h₃⟩ := h
    exact settled_caseOf (ih₁ h₁) (ih₂ h₂) (ih₃ h₃)
  case paren ih => exact settled_node (ih h.2).value
  case field ih => exact settled_node (ih h.2).value.map
  case rowOf ih₁ ih₂ => exact settled_row (ih₁ h.1.2) (ih₂ h.2)
  case subquery ih => exact settled_node (ih h.2).map
  case «exists» ih => exact settled_node (ih h.2).map
  case array ih => exact settled_node (settled_listed (ih h.2) fun _ => .pure _)
  case arrayOf ih => exact settled_node (ih h.2).map
  case cast ih => exact settled_node ((ih h.2).value.bind fun _ => (settled_type _).map)
  case typecast ih => exact settled_node ((ih h.2).value.bind fun _ => (settled_type _).map)
  case extract ih => exact settled_node (ih h.2).value.map
  case quantified ih => exact settled_unary _ (ih h.2)
  case quantifiedQuery ih => exact settled_node (ih h.2).map
  case default => exact settled_leaf _
  case connected ih₁ ih₂ => exact settled_connected _ (ih₁ h.1.2) (ih₂ h.2)
  case not ih => exact settled_unary _ (ih h.2)
  case test ih => exact settled_node (ih h.2).value.map
  case predicate ih₁ ih₂ => exact settled_binary _ (ih₁ h.1.2) (ih₂ h.2)
  case comparison ih₁ ih₂ => exact settled_binary _ (ih₁ h.1.2) (ih₂ h.2)
  case binary ih₁ ih₂ => exact settled_binary _ (ih₁ h.1.2) (ih₂ h.2)
  case between ih₁ ih₂ ih₃ =>
    obtain ⟨⟨⟨-, h₁⟩, h₂⟩, h₃⟩ := h
    exact settled_ternary _ (ih₁ h₁) (ih₂ h₂) (ih₃ h₃)
  case inList ih₁ ih₂ => exact settled_inList _ (ih₁ h.1.2) (ih₂ h.2)
  case inQuery ih₁ ih₂ => exact settled_inQuery _ (ih₁ h.1.2) (ih₂ h.2)
  case atTimeZone ih₁ ih₂ => exact settled_binary _ (ih₁ h.1.2) (ih₂ h.2)
  case negate ih => exact settled_node (ih h.2).value.map
  case plus ih => exact settled_unary _ (ih h.2)
  case subscript ih₁ ih₂ => exact settled_binary _ (ih₁ h.1.2) (ih₂ h.2)
  case branch ih₁ ih₂ =>
    exact Settled.mapM_of <| List.forall_mem_cons.mpr
      ⟨(ih₁ h.1.2).value, List.forall_mem_singleton.mpr (ih₂ h.2).value⟩
  case windowNamed => exact .pure _
  case windowSpec ih₁ ih₂ => exact settled_windowSpec _ (ih₁ h.1.2) (ih₂ h.2)
  case orderItem ih => exact settled_orderItem _ _ (ih h.2)
  case limit ih => exact (ih h.2).value.map
  case limitAll => exact .pure _
  case offset ih => exact (ih h.2).value.map
  case fetch ih => exact settled_fetch (ih h.2)
  case query ih₁ ih₂ ih₃ ih₄ =>
    obtain ⟨⟨⟨⟨-, h₁⟩, h₂⟩, h₃⟩, h₄⟩ := h
    exact settled_query _ (ih₁ h₁) (ih₂ h₂) (ih₃ h₃) (ih₄ h₄)
  case ctes ih => exact (Settled.mapM (ih h.2)).map.visit
  case cte ih => exact settled_cte _ _ (ih h.2)
  case selectBody ih => exact ih h.2
  case nested ih => exact ih h.2
  case operation ih₁ ih₂ => exact settled_operation _ (ih₁ h.1.2) (ih₂ h.2)
  case distinctAll => exact .pure _
  case distinctOn ih => exact (settled_values (ih h.2)).map
  case select ih₁ ih₂ ih₃ ih₄ ih₅ ih₆ =>
    obtain ⟨⟨⟨⟨⟨⟨-, h₁⟩, h₂⟩, h₃⟩, h₄⟩, h₅⟩, h₆⟩ := h
    exact settled_select (ih₁ h₁) (ih₂ h₂) (ih₃ h₃) (ih₄ h₄) (ih₅ h₅) (ih₆ h₆)
  case star => exact (Settled.pure _).visit
  case tableStar => exact ((Settled.pure _).visit.map).visit
  case item ih => exact (ih h.2).value.visit
  case aliased ih => exact (ih h.2).value.map.visit
  case source ih₁ ih₂ => exact settled_source (ih₁ h.1.2) (ih₂ h.2)
  case relation => exact settled_aliased (Settled.pure _).visit _
  case derived ih => exact settled_aliased (ih h.2).map _
  case lateral ih => exact settled_aliased (ih h.2).map.map _
  case lateralCall ih => exact settled_aliased (ih h.2).value.map _
  case tableCall ih => exact settled_aliased (ih h.2).value _
  case join ih₁ ih₂ => exact settled_join _ (ih₁ h.1.2) (ih₂ h.2)
  case joinOn ih => exact (ih h.2).value.visit
  case joinUsing => exact (settled_nameList _).map.visit
  case assignment ih => exact (ih h.2).value.map.visit
  case row ih => exact (settled_values (ih h.2)).map
  case rows ih => exact (Settled.mapM (ih h.2)).map
  case insertQuery ih => exact (ih h.2).map
  case defaults => exact .pure _
  case conflictColumns ih => exact (settled_values (ih h.2)).map
  case conflictConstraint => exact .pure _
  case doNothing => exact .pure _
  case doUpdate ih₁ ih₂ => exact settled_doUpdate (ih₁ h.1.2) (ih₂ h.2)
  case conflict ih₁ ih₂ => exact settled_conflict (ih₁ h.1.2) (ih₂ h.2)
  case queryStatement ih => exact ih h.2
  case insert ih₁ ih₂ ih₃ ih₄ =>
    obtain ⟨⟨⟨⟨-, h₁⟩, h₂⟩, h₃⟩, h₄⟩ := h
    exact settled_insert _ _ _ (ih₁ h₁) (ih₂ h₂) (ih₃ h₃) (ih₄ h₄)
  case update ih₁ ih₂ ih₃ ih₄ ih₅ =>
    obtain ⟨⟨⟨⟨⟨-, h₁⟩, h₂⟩, h₃⟩, h₄⟩, h₅⟩ := h
    exact settled_update _ _ (ih₁ h₁) (ih₂ h₂) (ih₃ h₃) (ih₄ h₄) (ih₅ h₅)
  case delete ih₁ ih₂ ih₃ ih₄ =>
    obtain ⟨⟨⟨⟨-, h₁⟩, h₂⟩, h₃⟩, h₄⟩ := h
    exact settled_delete _ _ (ih₁ h₁) (ih₂ h₂) (ih₃ h₃) (ih₄ h₄)

end Trees

section Commands

theorem settled_command {c : Command}
    (h : c.Regular fun digits => lax || Literal.isReadable digits) : Settled lax c.read := by
  cases c with
  | statement s => exact stable_read (fun _ hdigits => hdigits) h
  | createTable ifNotExists table columns => exact settled_createTable ifNotExists table columns
  | dropTable ifExists tables => exact (settled_targets tables).map.visit
  | truncate tables => exact (settled_targets tables).map.visit
  | alterTable table actions => exact settled_alterTable table actions

/-- Commands without numerals that are too long are read as one map each, or the reading stops at
the limit of its depth. -/
theorem exists_readAll {cs : List Command} (h : ∀ c ∈ cs, c.Regular Literal.isReadable) :
    ∃ vs : List Value,
      List.Forall₂ (fun c v => Settles (Value.map <$> Command.read c) (.ok v)) cs vs ∧
      ∃ need : Nat, ∀ limit : Int, readAll limit cs = .ok vs ∨
        limit < need ∧ ∃ n, readAll limit cs = .error (.textTooDeep n limit) := by
  have hcommand : ∀ c ∈ cs, Settled false c.read := fun c hc => settled_command (h c hc)
  have hread : ∀ r ∈ cs.map fun c => Value.map <$> c.read, Settled false r := by
    simpa using fun c hc => (hcommand c hc).map
  obtain ⟨vs, hvs⟩ := Settled.exists_forall₂ hread
  obtain ⟨need, hall⟩ := (Settles.mapM hvs).visit
  rw [List.forall₂_map_left_iff] at hvs
  exact ⟨vs, hvs, need, fun limit => by simpa [readAll, visitAll] using hall ⟨limit, 0⟩⟩

/-- A numeral that is too long is all that is refused when commands are read, but for their
depth. -/
theorem eq_of_readAll_error {cs : List Command} (h : ∀ c ∈ cs, c.Regular fun _ => true)
    {limit : Int} {e : Fault} (herror : readAll limit cs = .error e) :
    e = .longNumeral ∨ ∃ n, e = .textTooDeep n limit := by
  have hcommand : ∀ c ∈ cs, Settled true c.read := fun c hc => settled_command (h c hc)
  have hread : ∀ r ∈ cs.map fun c => Value.map <$> c.read, Settled true r := by
    simpa using fun c hc => (hcommand c hc).map
  obtain ⟨x, ⟨need, hall⟩, hlong⟩ := (Settled.visitAll hread).exists_settles
  rcases hall ⟨limit, 0⟩ with heq | ⟨-, n, heq⟩
  · exact .inl (hlong e (heq.symm.trans herror)).2
  · exact .inr ⟨n, Except.error.inj (herror.symm.trans heq)⟩

end Commands

end SqlTree.Syntax
