import Mathlib.Data.List.ReduceOption
import SqlTree.Proofs.Contract.Clauses
import SqlTree.Format

/-!
Statements and expressions under a contract.
-/

namespace SqlTree

theorem Form.exists_of_typed {clauses : List String} {es : Entries}
    (h : Form.ofEntries clauses es = .typed) : ∃ type v, es = [(.text type, v)] := by
  have htyped : isTypedEntries clauses es = true := by
    by_contra hnot
    simp only [ofEntries, hnot] at h
    split at h <;> [cases h; skip]
    split at h <;> [cases h; skip]
    split at h <;> [cases h; skip]
    split at h <;> cases h
  unfold isTypedEntries at htyped
  split at htyped
  · exact ⟨_, _, rfl⟩
  · cases htyped

/-- A map that is no wrapper is a typed value or a statement. -/
theorem Form.ofEntries_cases (clauses : List String) (es : Entries) :
    ofEntries clauses es ∈ [Form.raw, .param, .lift, .literal, .typed, .clause] := by
  unfold ofEntries
  split <;> [simp; skip]
  split <;> [simp; skip]
  split <;> [simp; skip]
  split <;> [simp; skip]
  split <;> simp

namespace Contract.Kept

open Render
open Fragment (ofText joined commas parens parensIf after)

variable {M : Contract} {K : Value → Prop} {r : Renderer} {s : Settings} (hr : M.Kept K r)
  (hs : M.settings s)

section Statements

theorem clauseOf {es : Entries} {key : String}
    (h : ∀ form v, Entries.field? es key = some v → v ≠ .null →
      s.registry.clause? key = some form → M.Holds (clause r s form key v)) :
    Ensures M.fault (fun o => ∀ f ∈ o, M.good f) (clauseOf r s es key) := by
  unfold Render.clauseOf
  split
  · exact .pure nofun
  · exact .pure nofun
  · exact .pure nofun
  · next v form hnull hv hform =>
    refine .bind (h form v hv (fun h => hnull h) hform) fun f hf => .pure ?_
    intro g hg
    split at hg
    · cases hg
    · cases hg
      exact hf

/-- A statement, all of whose keys are known. -/
theorem statement_holds (nested : Bool) {es : Entries}
    (hkeys : Meets M.fault (fun _ => True) (checkKeys s es))
    (h : ∀ key form v, Entries.field? es key = some v → v ≠ .null →
      s.registry.clause? key = some form → M.Holds (clause r (s.within es) form key v)) :
    M.Holds (Render.statement r s nested es) := by
  refine .bind_lift hkeys fun _ _ => ?_
  refine .bind (.mapM_all fun key _ => clauseOf (s := s.within es) (h key)) fun fs hfs => .pure ?_
  refine good_parensIf (good_spaced fun f hf => ?_)
  exact hfs (some f) (List.reduceOption_mem_iff.mp hf) f rfl

end Statements

include hr hs

section Operations

/-- The heads that are none of an operation, a membership test and a special form. -/
def isCall (registry : Registry) (head : String) : Bool :=
  let op := Registry.normalize head
  !registry.isBinary op && !Operator.membership.contains op && (registry.form? op).isNone

theorem operation (nested : Bool) {head : String} {args : List Value}
    (hknown : isCall M.registry head = true → Identifier.isIdentText head = false →
      Identifier.isCallHead head = false → M.fault (.unknownOperator head))
    (hargs : M.registry.isBinary (Registry.normalize head) = true ∨
      Registry.normalize head ∈ Operator.membership ∨ isCall M.registry head = true →
        ∀ v ∈ args, K v)
    (hitems : Registry.normalize head ∈ Operator.membership →
      ∀ v ∈ args.tail, ∀ vs, v.items? = some vs → ∀ w ∈ vs, K w)
    (hcall : isCall M.registry head = true →
      Meets M.fault (fun _ => CallWords M head) (checkHead s head))
    (hform : ∀ form, M.registry.isBinary (Registry.normalize head) = false →
      M.registry.form? (Registry.normalize head) = some form →
      M.Holds (special r s form (Registry.normalize head) args)) :
    M.Holds (operation r s nested head args) := by
  unfold Render.operation
  rw [M.registry_eq hs]
  dsimp only
  split
  · next h =>
    obtain ⟨hequality, hbinary⟩ := Bool.and_eq_true_iff.mp h
    exact hr.equality hs nested (List.contains_iff_mem.mp hequality) (hargs (.inl hbinary))
  · split
    · next hbinary => exact hr.infixed hs nested hbinary (hargs (.inl hbinary))
    · next hbinary =>
      split
      · next hmember =>
        have hmember := List.contains_iff_mem.mp hmember
        exact hr.membership hs nested hmember (hargs (.inr (.inl hmember))) (hitems hmember)
      · next hmember =>
        split
        · next form h => exact hform form (Bool.eq_false_iff.mpr hbinary) h
        · next h =>
          have hcalled : isCall M.registry head = true := by
            simp only [isCall, hbinary, h, Option.isNone_none, Bool.and_true, Bool.not_false,
              Bool.true_and, Bool.not_eq_true']
            exact Bool.eq_false_iff.mpr hmember
          split
          · exact hr.call hs (hcall hcalled) (hargs (.inr (.inr hcalled)))
          · next hunknown =>
            rw [Bool.or_eq_true, not_or, Bool.not_eq_true, Bool.not_eq_true] at hunknown
            exact .fail (hknown hcalled hunknown.1 hunknown.2)

theorem arrayOf (nested : Bool) {vs : List Value}
    (hoperation : ∀ head args, vs = .text head :: args →
      M.Holds (Render.operation r s nested head args))
    (hrow : (∀ head args, vs ≠ .text head :: args) → ∀ v ∈ vs, K v) :
    M.Holds (arrayOf r s nested vs) := by
  unfold Render.arrayOf
  split
  · exact holds_phrase (by decide)
  · exact hoperation _ _ rfl
  · next htext =>
    exact .bind (hr.list hs (hrow fun head args h => htext head args h)) fun _ hf =>
      .pure (good_parens hf)

end Operations

section Expressions

variable {stated : Settings → Entries → Render Fragment}

omit hr in
/-- A map: raw text, a wrapped value, a typed value, or a statement. -/
theorem mapOf {es : Entries}
    (hraw : Form.ofEntries M.registry.clauseKeys es = .raw →
      M.Holds (splice r s ((Entries.field? es Form.rawKey).getD .null)))
    (hwrapped : ∀ key ∈ [Form.liftKey, Form.literalKey], M.value ((Entries.field? es key).getD .null))
    (htyped : ∀ type v, es = [(.text type, v)] →
      Form.ofEntries M.registry.clauseKeys es = .typed →
      M.value v ∧ M.Spelled .free .bound (Identifier.typeName type))
    (hstated : Form.ofEntries M.registry.clauseKeys es = .clause → M.Holds (stated s es)) :
    M.Holds (mapOf r s stated es) := by
  unfold Render.mapOf
  dsimp only
  rw [M.registry_eq hs]
  split
  · next h => exact hraw h
  · exact holds_boundParam hs _
  · exact holds_bind hs (hwrapped _ (by simp))
  · exact holds_literal hs (hwrapped _ (by simp))
  · next h =>
    split
    · obtain ⟨hv, htype⟩ := htyped _ _ rfl h
      exact holds_typed hs htype hv
    · next hsingle =>
      obtain ⟨type, v, hes⟩ := Form.exists_of_typed h
      exact absurd hes (hsingle type v)
  · next hraw hparam hlift hliteral htyped =>
    refine hstated ?_
    have hcases := Form.ofEntries_cases M.registry.clauseKeys es
    simp only [List.mem_cons, List.not_mem_nil, or_false] at hcases
    rcases hcases with h | h | h | h | h | h
    · exact (hraw h).elim
    · exact (hparam h).elim
    · exact (hlift h).elim
    · exact (hliteral h).elim
    · exact (htyped h).elim
    · exact h

omit hr in
theorem expression (nested : Bool) {v : Value} (hvalue : M.value v)
    (hident : ∀ t, v = .text t → Identifier.isIdentText t = true →
      M.Spelled .free .bound (ident s t))
    (hmap : ∀ es, v = .map es → M.Holds (Render.mapOf r s stated es))
    (harray : ∀ vs, v.items? = some vs → M.Holds (Render.arrayOf r s nested vs)) :
    M.Holds (Render.expression r s stated nested v) := by
  unfold Render.expression
  split
  · split
    · next h => exact holds_words (hident _ rfl h)
    · exact holds_bind hs hvalue
  · exact hmap _ rfl
  · exact harray _ rfl
  · exact harray _ rfl
  · exact holds_plain hs hvalue

omit hr hs in
theorem deeper (nested : Bool) {v : Value}
    (h : M.Holds (Render.expression r s.inner stated nested v)) :
    M.Holds (deeper r s stated nested v) := by
  refine .bind (P := fun _ => True) ?_ fun _ _ => h
  unfold checkDepth
  split
  · exact .fail (M.fault_of_known (e := .expressionTooDeep _ _) rfl)
  · exact .pure trivial

end Expressions

end Contract.Kept

end SqlTree
