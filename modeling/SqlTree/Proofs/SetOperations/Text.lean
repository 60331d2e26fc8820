import SqlTree.Proofs.ClauseOrder
import SqlTree.Proofs.FromList
import SqlTree.Proofs.SetOperations.Clauses

/-!
The text of a combination: what each mark of it is written as, and which clauses of it are written at
all.
-/

namespace SqlTree.SetOperations

open Fragment (joined ofText)
open FromList (Visible isBlank_after joined_cons visible_pure)
open Render (clauseOf setBranch upTo)

variable {R : Type} (I : Interpretation R) (s : Settings)

section Marks

/-- What a clause of the entries is written as, whatever statement it stands in. -/
def Writes (es : Entries) (key : String) (o : Option Fragment) : Prop :=
  ∃ m statement n n', clauseOf (upTo m) (s.within statement) es key n = .ok (o, n')

/-- The clauses of the entries are written as the fragment. -/
def WrittenAs (es : Entries) (f : Fragment) : Prop :=
  ∃ os, List.Forall₂ (Writes s es) s.clauseOrder os ∧ f = joined " " os.reduceOption

/-- What a mark is written as. -/
def Mark.Written : Mark → Fragment → Prop
  | .opening, f => f = ofText "("
  | .closing, f => f = ofText ")"
  | .sign op, f => f = ofText (" " ++ Keyword.render op.clause ++ " ")
  | .select es, f => IsSelect es ∧ WrittenAs s es f
  | .withs es, f => ∃ g, WrittenAs s es g ∧ f = g ++ ofText " "
  | .tail e v, f => ∃ g, Writes s [(.text e.key, v)] e.key (some g) ∧ f = .text " " :: g

/-- The marks are written as the fragment. -/
def TextOf (ms : List Mark) (f : Fragment) : Prop :=
  ∃ fs, List.Forall₂ (Mark.Written s) ms fs ∧ f = fs.flatten

/-- Where nothing is written for a limit or an offset, it does nothing. -/
def Interpretation.Ignores : Prop :=
  ∀ (t : Tail) (e : Ending) (v : Value), e ≠ .order → t e = some v →
    Writes s [(.text e.key, v)] e.key none → I.tailed t = I.tailed (Function.update t e none)

variable {s} {ms ns : List Mark} {f g : Fragment}

theorem Interpretation.ignores_pointwise :
    (Interpretation.pointwise fun I : Interpretation R => I.Ignores s).Ignores s := by
  intro t e v he hv hnone
  funext x J
  rw [tailed_pointwise, tailed_pointwise, J.2 t e v he hv hnone]

theorem TextOf.nil : TextOf s [] [] := ⟨[], .nil, rfl⟩

theorem TextOf.single {m : Mark} (h : m.Written s f) : TextOf s [m] f :=
  ⟨[f], .cons h .nil, by simp⟩

theorem TextOf.append (h : TextOf s ms f) (h' : TextOf s ns g) : TextOf s (ms ++ ns) (f ++ g) := by
  obtain ⟨fs, hfs, rfl⟩ := h
  obtain ⟨gs, hgs, rfl⟩ := h'
  exact ⟨fs ++ gs, List.rel_append hfs hgs, List.flatten_append.symm⟩

end Marks

section Outcomes

variable {s} {es fs : Entries} {key : String} {o : Option Fragment} {keys : List String}
  {os : List (Option Fragment)}

/-- Fragments with a space before each of them. -/
def spaced (os : List (Option Fragment)) : Fragment := os.reduceOption.flatMap (.text " " :: ·)

theorem spaced_append (os os' : List (Option Fragment)) : spaced (os ++ os') = spaced os ++ spaced os' := by
  simp [spaced, List.reduceOption_append]

theorem joined_eq_tail_spaced (os : List (Option Fragment)) :
    joined " " os.reduceOption = (spaced os).tail := by
  rw [spaced]
  cases os.reduceOption with
  | nil => rfl
  | cons f fs => rw [joined_cons]; rfl

theorem clauseOf_congr (h : Entries.field? es key = Entries.field? fs key) (r : Renderer) :
    clauseOf r s es key = clauseOf r s fs key := by
  unfold clauseOf
  rw [h]

theorem Writes.congr (h : Writes s es key o) (hkey : Entries.field? es key = Entries.field? fs key) :
    Writes s fs key o := by
  obtain ⟨m, statement, n, n', hrun⟩ := h
  exact ⟨m, statement, n, n', (clauseOf_congr hkey _) ▸ hrun⟩

theorem Writes.eq_none (h : Writes s es key o) (hkey : Entries.field? es key = none) : o = none := by
  obtain ⟨m, statement, n, n', hrun⟩ := h
  rw [clauseOf, hkey] at hrun
  cases hrun
  rfl

theorem writes_none (hkey : Entries.field? es key = none) : Writes s es key none := by
  refine ⟨0, [], 0, 0, ?_⟩
  rw [clauseOf, hkey]
  rfl

theorem writes_congr (h : List.Forall₂ (Writes s es) keys os)
    (hkeys : ∀ k ∈ keys, Entries.field? es k = Entries.field? fs k) :
    List.Forall₂ (Writes s fs) keys os := by
  induction h with
  | nil => exact .nil
  | cons h _ ih =>
    obtain ⟨hkey, hkeys⟩ := List.forall_mem_cons.mp hkeys
    exact .cons (h.congr hkey) (ih hkeys)

theorem spaced_cons (o : Option Fragment) (os : List (Option Fragment)) :
    spaced (o :: os) = spaced [o] ++ spaced os := spaced_append [o] os

/-- Clauses that the entries do not have are written as nothing. -/
theorem writes_sublist {order : List String} (hsub : keys.Sublist order) (hnodup : order.Nodup)
    (hnone : ∀ k ∈ order, k ∉ keys → Entries.field? es k = none) {f : Fragment} :
    (∃ os, List.Forall₂ (Writes s es) order os ∧ spaced os = f) ↔
      ∃ os, List.Forall₂ (Writes s es) keys os ∧ spaced os = f := by
  induction hsub generalizing f with
  | slnil => rfl
  | @cons keys order k hsub ih =>
    obtain ⟨hk, hnodup⟩ := List.nodup_cons.mp hnodup
    have hkey := hnone k (by simp) fun hmem => hk (hsub.subset hmem)
    rw [← ih hnodup fun l hl => hnone l (by simp [hl])]
    constructor
    · rintro ⟨_, _ | ⟨ho, hos⟩, hf⟩
      obtain rfl := ho.eq_none hkey
      exact ⟨_, hos, hf⟩
    · rintro ⟨os, hos, hf⟩
      exact ⟨none :: os, .cons (writes_none hkey) hos, hf⟩
  | @cons_cons keys order k hsub ih =>
    obtain ⟨hk, hnodup⟩ := List.nodup_cons.mp hnodup
    have hrest := @ih hnodup fun l hl hmem => hnone l (by simp [hl]) fun hmem' =>
      (List.mem_cons.mp hmem').elim (fun heq => hk (heq ▸ hl)) hmem
    constructor
    · rintro ⟨_, _ | ⟨ho, hos⟩, hf⟩
      obtain ⟨os', hos', hspaced⟩ := hrest.mp ⟨_, hos, rfl⟩
      exact ⟨_, .cons ho hos', by rw [← hf, spaced_cons, hspaced, ← spaced_cons]⟩
    · rintro ⟨_, _ | ⟨ho, hos⟩, hf⟩
      obtain ⟨os', hos', hspaced⟩ := hrest.mpr ⟨_, hos, rfl⟩
      exact ⟨_, .cons ho hos', by rw [← hf, spaced_cons, hspaced, ← spaced_cons]⟩

/-- A clause of a form that is never blank is written. -/
theorem Writes.exists_some {form : ClauseForm} {v : Value} (h : Writes s es key o)
    (hfield : Entries.field? es key = some v) (hne : v ≠ .null)
    (hform : s.registry.clause? key = some form)
    (hvisible : ∀ (r : Renderer) (s : Settings), Visible (Render.clause r s form key v)) :
    ∃ m statement n n' f, o = some f ∧
      Render.clause (upTo m) (s.within statement) form key v n = .ok (f, n') := by
  obtain ⟨m, statement, n, n', hrun⟩ := h
  have hpresent : present? (s.within statement).registry es key = some ⟨key, form, v⟩ :=
    present?_eq_some_iff.mpr ⟨rfl, hfield, hne, hform⟩
  rw [clauseOf_eq_present, hpresent] at hrun
  dsimp only [Present.text] at hrun
  rw [(hvisible _ _).kept] at hrun
  cases hclause : Render.clause (upTo m) (s.within statement) form key v n with
  | error e =>
    simp only [Functor.map, StateT.map, hclause, Bind.bind, Except.bind] at hrun
    cases hrun
  | ok p =>
    simp only [Functor.map, StateT.map, hclause, Bind.bind, Except.bind] at hrun
    cases hrun
    exact ⟨m, statement, n, p.2, p.1, rfl, hclause⟩

end Outcomes

section Visible

variable (r : Renderer) (s : Settings)

theorem visible_list {α : Type} {g : List Fragment → Fragment} {f : α → Render Fragment} {a : α}
    {as : List α} (h : ∀ b bs, (g (b :: bs)).isBlank = false) :
    Visible (do return g (← (a :: as).mapM f)) := by
  simp only [List.mapM_cons, bind_assoc, pure_bind]
  exact .bind fun b => .bind fun bs => visible_pure (h b bs)

theorem visible_selection (key : String) (item : Value) (items : List Value) :
    Visible (Render.selection r s key (.list (item :: items))) := by
  have hword : (Keyword.render key ++ " ").isEmpty = false := by simp
  exact visible_list fun b bs => isBlank_after hword _

theorem visible_distinctOn (item : Value) (items : List Value) :
    Visible (Render.distinctOn r s (.list (item :: items))) := by
  refine .bind fun f => .bind fun fs => visible_pure ?_
  simp [Fragment.isBlank, Fragment.between, Piece.isBlank]

theorem visible_tableExpressions (key : String) (v : Value) :
    Visible (Render.tableExpressions r s key v) :=
  .bind fun fs => visible_pure (isBlank_after (by simp) _)

theorem visible_ordering (item : Value) (items : List Value) :
    Visible (do return Render.headed "ORDER BY" (← Render.orderItems r s (.list (item :: items)))) :=
  visible_list fun b bs => isBlank_after (by simp) _

theorem visible_setOperation (key : String) (a b : Value) (vs : List Value) :
    Visible (Render.setOperation r s key (.list (a :: b :: vs))) := by
  change Visible (do return joined _ (← (a :: b :: vs).mapM (setBranch r s)))
  simp only [List.mapM_cons, bind_assoc, pure_bind]
  refine .bind fun f => .bind fun g => .bind fun fs => visible_pure ?_
  simp [joined_cons, Fragment.isBlank, Piece.isBlank]

variable {s} {es : Entries} {key : String} {o : Option Fragment}

theorem Writes.select_some (h : Writes s es key o) (hregistry : s.registry = .standard)
    (hkey : key ∈ Clause.selections) {item : Value} {items : List Value}
    (hfield : Entries.field? es key = some (.list (item :: items))) : ∃ f, o = some f := by
  have hform : ∃ form, s.registry.clause? key = some form ∧ ∀ (r : Renderer) (s : Settings),
      Visible (Render.clause r s form key (.list (item :: items))) := by
    rw [hregistry]
    simp only [Clause.selections, List.mem_cons, List.not_mem_nil, or_false] at hkey
    rcases hkey with rfl | rfl | rfl
    · exact ⟨.selection, rfl, fun r s => visible_selection r s _ item items⟩
    · exact ⟨.selection, rfl, fun r s => visible_selection r s _ item items⟩
    · exact ⟨.distinctOn, rfl, fun r s => visible_distinctOn r s item items⟩
  obtain ⟨form, hform, hvisible⟩ := hform
  obtain ⟨_, _, _, _, f, hf, -⟩ := h.exists_some hfield (by simp) hform hvisible
  exact ⟨f, hf⟩

theorem Writes.withs_some (h : Writes s es key o) (hregistry : s.registry = .standard)
    (hkey : key ∈ Clause.tableExpressions) {vs : List Value}
    (hfield : Entries.field? es key = some (.list vs)) : ∃ f, o = some f := by
  have hform : s.registry.clause? key = some .tableExpressions := by
    rw [hregistry]
    simp only [Clause.tableExpressions, List.mem_cons, List.not_mem_nil, or_false] at hkey
    rcases hkey with rfl | rfl <;> rfl
  obtain ⟨_, _, _, _, f, hf, -⟩ := h.exists_some hfield (by simp) hform fun r s =>
    visible_tableExpressions r s key _
  exact ⟨f, hf⟩

theorem Writes.order_some (h : Writes s es "order-by" o) (hregistry : s.registry = .standard)
    {item : Value} {items : List Value}
    (hfield : Entries.field? es "order-by" = some (.list (item :: items))) : ∃ f, o = some f := by
  have hform : s.registry.clause? "order-by" = some .ordering := by
    rw [hregistry]
    rfl
  obtain ⟨_, _, _, _, f, hf, -⟩ := h.exists_some hfield (by simp) hform fun r s =>
    visible_ordering r s item items
  exact ⟨f, hf⟩

end Visible

end SqlTree.SetOperations
