import Mathlib.Data.List.Forall2
import SqlTree.Render.Value

/-!
Two renderings of the same data, step by step beside each other. A coupling says what may differ
between them; the rules below carry it from the parts of a rendering to the whole, together with
the numbering of the places for values.
-/

namespace SqlTree

/-- The place of a bound value: its number, and the value. -/
abbrev Slot := Nat × Value

def Piece.slots : Piece → List Slot
  | .slot index v => [(index, v)]
  | _ => []

namespace Render

/-- Data that may hold pieces, with the places in it and the relation it inherits from pieces. -/
class Traced (α : Type) where
  slots : α → List Slot
  rel : (Piece → Piece → Prop) → α → α → Prop
  exists_rel : ∀ {R : Piece → Piece → Prop}, (∀ p, ∃ q, R p q) → ∀ a, ∃ b, rel R a b

namespace Traced

instance : Traced Piece := ⟨Piece.slots, fun R => R, fun h => h⟩

instance {α : Type} [Traced α] : Traced (List α) where
  slots as := as.flatMap slots
  rel R := List.Forall₂ (rel R)
  exists_rel h as := by
    induction as with
    | nil => exact ⟨[], .nil⟩
    | cons a as ih =>
      obtain ⟨b, hb⟩ := exists_rel h a
      obtain ⟨bs, hbs⟩ := ih
      exact ⟨b :: bs, .cons hb hbs⟩

instance {α : Type} [Traced α] : Traced (Option α) where
  slots a := a.elim [] slots
  rel R := Option.Rel (rel R)
  exists_rel h a := by
    cases a with
    | none => exact ⟨none, .none⟩
    | some a =>
      obtain ⟨b, hb⟩ := exists_rel h a
      exact ⟨some b, .some hb⟩

instance {α β : Type} [Traced α] [Traced β] : Traced (α × β) where
  slots a := slots a.1 ++ slots a.2
  rel R a b := rel R a.1 b.1 ∧ rel R a.2 b.2
  exists_rel h a := by
    obtain ⟨b, hb⟩ := exists_rel h a.1
    obtain ⟨c, hc⟩ := exists_rel h a.2
    exact ⟨(b, c), hb, hc⟩

/-- Data without pieces, which both renderings share. -/
@[reducible]
def plain (α : Type) : Traced α := ⟨fun _ => [], fun _ => Eq, fun _ a => ⟨a, rfl⟩⟩

instance : Traced Unit := plain Unit
instance : Traced Value := plain Value
instance : Traced String := plain String

end Traced

open Traced (slots rel)

/-- What two renderings may differ in. -/
structure Coupling where
  /-- A piece of the one and what stands for it in the other. -/
  piece : Piece → Piece → Prop
  /-- A value of the one and the value that the other binds in its place. -/
  value : Value → Value → Prop
  /-- How many values the two have bound so far. -/
  count : Nat → Nat → Prop
  /-- The second rendering may fail where the first, having these places, does not. -/
  excused : Fault → List Slot → Prop
  fault : Fault → Fault → Prop
  piece_text : ∀ t, piece (.text t) (.text t)
  piece_literal : ∀ t, piece (.literal t) (.literal t)
  piece_isBlank : ∀ {p q}, piece p q → p.isBlank = q.isBlank
  exists_piece : ∀ p, ∃ q, piece p q
  value_refl : ∀ v, value v v
  exists_count : ∀ n, ∃ m, count n m
  excused_mono : ∀ {e ss ts}, excused e ss → ss ⊆ ts → excused e ts
  fault_refl : ∀ e, fault e e
  fault_of_excused : ∀ {e ss}, excused e ss → ∀ e', fault e' e

/-- The places of `a` are those of `before` and then new ones, numbered on from `n` to `n'`. -/
def Extends {α : Type} [Traced α] (before : List Slot) (n : Nat) (a : α) (n' : Nat) : Prop :=
  ∃ new : List Slot, slots a = before ++ new ∧ new.map (·.1) = List.range' (n + 1) new.length ∧
    n' = n + new.length

theorem Extends.refl {α : Type} [Traced α] {before : List Slot} {a : α} (h : slots a = before)
    (n : Nat) : Extends before n a n :=
  ⟨[], by simp [h]⟩

theorem Extends.trans {α β : Type} [Traced α] [Traced β] {before : List Slot} {a : α} {b : β}
    {n n' n'' : Nat} (ha : Extends [] n a n') (hb : Extends (before ++ slots a) n' b n'') :
    Extends before n b n'' := by
  obtain ⟨new, hs, hi, rfl⟩ := ha
  obtain ⟨more, ht, hj, rfl⟩ := hb
  refine ⟨new ++ more, by simp [ht, hs], ?_, by simp [Nat.add_assoc]⟩
  rw [List.map_append, hi, hj, List.length_append, ← List.range'_append_1]
  simp [Nat.add_right_comm]

theorem Extends.subset {α β : Type} [Traced α] [Traced β] {before : List Slot} {a : α} {b : β}
    {n n' : Nat} (h : Extends (before ++ slots a) n b n') : slots a ⊆ slots b := by
  obtain ⟨new, hs, -⟩ := h
  intro p hp
  simp [hs, hp]

section Run

variable {α β : Type} {x : Render α} {k : α → Render β} {n : Nat}

theorem bind_of_ok {a : α} {n' : Nat} (h : x n = .ok (a, n')) : (x >>= k) n = k a n' := by
  simp [Bind.bind, StateT.bind, Except.bind, h]

theorem bind_of_error {e : Fault} (h : x n = .error e) : (x >>= k) n = .error e := by
  simp [Bind.bind, StateT.bind, Except.bind, h]

theorem lift_ok_bind {δ : Type} (d : δ) (k : δ → Render β) :
    (liftM (Except.ok d : Except Fault δ) : Render δ) >>= k = k d := rfl

theorem lift_error_bind {δ : Type} (e : Fault) (k : δ → Render β) :
    (liftM (Except.error e : Except Fault δ) : Render δ) >>= k = fail e := rfl

end Run

/-- What two runs may come to: both fail, or both succeed with related results, or the second one
alone fails and is excused. The places of the first result go on from `before`. -/
def Coupling.Outcome {α : Type} [Traced α] (C : Coupling) (before : List Slot) (n : Nat) :
    Except Fault (α × Nat) → Except Fault (α × Nat) → Prop
  | .ok (a, n'), .ok (b, m') => Extends before n a n' ∧ rel C.piece a b ∧ C.count n' m'
  | .ok (a, n'), .error e => Extends before n a n' ∧ C.excused e (slots a)
  | .error _, .ok _ => False
  | .error e, .error e' => C.fault e e'

section Outcome

variable {α β : Type} [Traced α] [Traced β] {C : Coupling} {before : List Slot} {n n' : Nat}

theorem Coupling.Outcome.grows {r : Except Fault (α × Nat)} {a : α}
    {r' : Except Fault (α × Nat)} (h : C.Outcome before n r r') (hr : r = .ok (a, n')) :
    Extends before n a n' := by
  subst hr
  rcases r' with e | b
  · exact h.1
  · exact h.1

theorem Coupling.Outcome.of_extends {a : α} {r r' : Except Fault (β × Nat)}
    (h : C.Outcome (before ++ slots a) n' r r') (ha : Extends [] n a n') :
    C.Outcome before n r r' := by
  rcases r with e | ⟨c, n''⟩ <;> rcases r' with e' | ⟨d, m''⟩
  · exact h
  · exact h
  · exact ⟨ha.trans h.1, h.2⟩
  · exact ⟨ha.trans h.1, h.2⟩

end Outcome

/-- Two renderings that come to the like, whatever was bound before. -/
structure Parallel {α : Type} [Traced α] (C : Coupling) (before : List Slot) (x y : Render α) :
    Prop where
  run : ∀ n m, C.count n m → C.Outcome before n (x n) (y m)

namespace Parallel

variable {α β : Type} [Traced α] [Traced β] {C : Coupling} {before : List Slot}

theorem pure {a b : α} (hs : slots a = before) (h : rel C.piece a b) :
    Parallel C before (pure a) (pure b) :=
  ⟨fun n _ hc => ⟨.refl hs n, h, hc⟩⟩

theorem fail (f : Fault) : Parallel (α := α) C before (fail f) (fail f) :=
  ⟨fun _ _ _ => C.fault_refl f⟩

theorem refusal {refused : Prop} [Decidable refused] {f f' : Fault} {x y : Render α}
    (hf : C.fault f f') (h : Parallel C before x y) :
    Parallel C before (if refused then Render.fail f else x)
      (if refused then Render.fail f' else y) := by
  split
  · exact ⟨fun _ _ _ => hf⟩
  · exact h

/-- The continuation of a result is compared even where the second run has none: there any data
that is related to the result will do. -/
theorem bind {x y : Render α} {k l : α → Render β} (h : Parallel C [] x y)
    (hk : ∀ a b, rel C.piece a b → Parallel C (before ++ slots a) (k a) (l b)) :
    Parallel C before (x >>= k) (y >>= l) := by
  refine ⟨fun n m hc => ?_⟩
  have hxy := h.run n m hc
  rcases hx : x n with e | ⟨a, n'⟩ <;> rcases hy : y m with e' | ⟨b, m'⟩ <;>
    simp only [hx, hy, Coupling.Outcome] at hxy
  · rw [bind_of_error hx, bind_of_error hy]
    exact hxy
  · obtain ⟨hext, hex⟩ := hxy
    obtain ⟨b, hab⟩ := Traced.exists_rel C.exists_piece a
    obtain ⟨m', hc'⟩ := C.exists_count n'
    have hkl := (hk a b hab).run n' m' hc'
    rw [bind_of_ok hx, bind_of_error hy]
    rcases hkn : k a n' with e | ⟨c, n''⟩
    · exact C.fault_of_excused hex e
    · have hgrow := hkl.grows hkn
      exact ⟨hext.trans hgrow, C.excused_mono hex hgrow.subset⟩
  · obtain ⟨hext, hab, hc'⟩ := hxy
    rw [bind_of_ok hx, bind_of_ok hy]
    exact ((hk a b hab).run n' m' hc').of_extends hext

/-- Both renderings do the same with what a computation without pieces yields. -/
theorem bind_lift {δ : Type} {e : Except Fault δ} {k l : δ → Render β}
    (hk : ∀ d, e = .ok d → Parallel C before (k d) (l d)) :
    Parallel C before (liftM e >>= k) (liftM e >>= l) := by
  rcases e with f | d
  · exact fail f
  · exact hk d rfl

theorem mapM {δ : Type} {f g : δ → Render α} {ds es : List δ}
    (h : List.Forall₂ (fun d e => Parallel C [] (f d) (g e)) ds es) :
    Parallel C [] (ds.mapM f) (es.mapM g) := by
  induction h with
  | nil => exact .pure rfl .nil
  | cons h _ ih =>
    rw [List.mapM_cons, List.mapM_cons]
    refine .bind h fun a b hab => .bind ih fun as bs hs => .pure ?_ (.cons hab hs)
    rfl

theorem mapM_same {δ : Type} {f g : δ → Render α} {ds : List δ}
    (h : ∀ d ∈ ds, Parallel C [] (f d) (g d)) : Parallel C [] (ds.mapM f) (ds.mapM g) :=
  mapM (List.forall₂_same.mpr h)

end Parallel

end Render

end SqlTree
