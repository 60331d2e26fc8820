import SqlTree.Proofs.Coupling.Basic

/-!
The places in fragments, and fragments related piece by piece: what the ways of putting fragments
together do to both.
-/

namespace SqlTree.Render

open Fragment (ofText joined commas between parens parensIf after)

namespace Traced

section Slots

variable {α : Type} [Traced α]

@[simp] theorem slots_unit (u : Unit) : slots u = [] := rfl

@[simp] theorem slots_nil : slots ([] : List α) = [] := rfl

@[simp] theorem slots_cons (a : α) (as : List α) : slots (a :: as) = slots a ++ slots as := rfl

@[simp] theorem slots_append (as bs : List α) : slots (as ++ bs) = slots as ++ slots bs :=
  List.flatMap_append

@[simp] theorem slots_text (t : String) : slots (Piece.text t) = [] := rfl

@[simp] theorem slots_literal (t : String) : slots (Piece.literal t) = [] := rfl

@[simp] theorem slots_slot (i : Nat) (v : Value) : slots (Piece.slot i v) = [(i, v)] := rfl

@[simp] theorem slots_none : slots (none : Option α) = [] := rfl

@[simp] theorem slots_some (a : α) : slots (some a) = slots a := rfl

@[simp] theorem slots_flatten (as : List (List α)) : slots as.flatten = slots as := by
  induction as with
  | nil => rfl
  | cons a as ih => simp [ih]

@[simp] theorem slots_reduceOption (as : List (Option α)) : slots as.reduceOption = slots as := by
  induction as with
  | nil => rfl
  | cons a as ih =>
    cases a with
    | none => exact ih
    | some b =>
      have hcons : (some b :: as).reduceOption = b :: as.reduceOption := rfl
      rw [hcons, slots_cons, slots_cons, slots_some, ih]

@[simp] theorem slots_map_text {β : Type} (f : β → String) (as : List β) :
    slots (as.map fun a => Piece.text (f a)) = [] := by
  induction as with
  | nil => rfl
  | cons a as ih => simpa using ih

@[simp] theorem slots_texts (ts : List String) : slots (ts.map Piece.text) = [] :=
  slots_map_text id ts

@[simp] theorem slots_ofText (t : String) : slots (ofText t) = [] := rfl

@[simp] theorem slots_joined (sep : String) (fs : List Fragment) :
    slots (joined sep fs) = slots fs := by
  induction fs with
  | nil => rfl
  | cons f fs ih => cases fs <;> simp_all [joined]

@[simp] theorem slots_commas (fs : List Fragment) : slots (commas fs) = slots fs :=
  slots_joined _ _

@[simp] theorem slots_between (opening closing : String) (f : Fragment) :
    slots (between opening closing f) = slots f := by
  simp [between]

@[simp] theorem slots_parens (f : Fragment) : slots (parens f) = slots f := slots_between _ _ f

@[simp] theorem slots_parensIf (nested : Bool) (f : Fragment) :
    slots (parensIf nested f) = slots f := by
  cases nested <;> simp [parensIf]

@[simp] theorem slots_after (t : String) (f : Fragment) : slots (after t f) = slots f := rfl

theorem extends_slot (n : Nat) (v : Value) :
    Extends [] n ([.slot (n + 1) v] : Fragment) (n + 1) :=
  ⟨[(n + 1, v)], rfl, rfl, rfl⟩

/-- A place is never blank. -/
theorem slots_of_isBlank {f : Fragment} (h : f.isBlank = true) : slots f = [] := by
  induction f with
  | nil => rfl
  | cons p f ih =>
    simp only [Fragment.isBlank, List.all_cons, Bool.and_eq_true] at h
    cases p <;> simp_all [Piece.isBlank, Fragment.isBlank]

end Slots

section Rel

variable {C : Coupling} {f g f' g' : Fragment} {fs gs : List Fragment}

theorem rel.nil {α : Type} [Traced α] : rel C.piece ([] : List α) [] := List.Forall₂.nil

theorem rel.text (t : String) (h : rel C.piece f f') :
    rel C.piece (Piece.text t :: f) (Piece.text t :: f') := List.Forall₂.cons (C.piece_text t) h

theorem rel.append (h : rel C.piece f f') (hg : rel C.piece g g') :
    rel C.piece (f ++ g) (f' ++ g') := List.rel_append h hg

theorem rel.ofText (t : String) : rel C.piece (Fragment.ofText t) (Fragment.ofText t) :=
  rel.text t rel.nil

theorem rel.texts {β : Type} (t : β → String) (bs : List β) :
    rel C.piece (bs.map fun b => Piece.text (t b)) (bs.map fun b => Piece.text (t b)) := by
  induction bs with
  | nil => exact List.Forall₂.nil
  | cons b bs ih => exact rel.text (t b) ih

theorem rel.joined (sep : String) (h : rel C.piece fs gs) :
    rel C.piece (Fragment.joined sep fs) (Fragment.joined sep gs) := by
  induction h with
  | nil => exact List.Forall₂.nil
  | @cons f g fs gs h hs ih =>
    cases hs with
    | nil => exact h
    | cons h' hs => exact rel.append h (rel.text sep ih)

theorem rel.commas (h : rel C.piece fs gs) :
    rel C.piece (Fragment.commas fs) (Fragment.commas gs) := rel.joined ", " h

theorem rel.after (t : String) (h : rel C.piece f f') :
    rel C.piece (Fragment.after t f) (Fragment.after t f') := rel.text t h

theorem rel.between (opening closing : String) (h : rel C.piece f f') :
    rel C.piece (Fragment.between opening closing f) (Fragment.between opening closing f') :=
  rel.text opening (h.append (rel.text closing rel.nil))

theorem rel.parens (h : rel C.piece f f') :
    rel C.piece (Fragment.parens f) (Fragment.parens f') := h.between "(" ")"

theorem rel.parensIf (nested : Bool) (h : rel C.piece f f') :
    rel C.piece (Fragment.parensIf nested f) (Fragment.parensIf nested f') := by
  cases nested
  · exact h
  · exact h.parens

theorem rel.flatten (h : rel C.piece fs gs) :
    rel C.piece (fs.flatten : Fragment) (gs.flatten : Fragment) := by
  induction h with
  | nil => exact List.Forall₂.nil
  | cons h _ ih => exact rel.append h ih

theorem rel.reduceOption {as bs : List (Option Fragment)} (h : rel C.piece as bs) :
    rel C.piece as.reduceOption bs.reduceOption := by
  induction h with
  | nil => exact List.Forall₂.nil
  | cons h _ ih =>
    cases h with
    | none => exact ih
    | some h => exact List.Forall₂.cons h ih

theorem rel.isBlank_eq (h : rel C.piece f f') : f.isBlank = f'.isBlank := by
  induction h with
  | nil => rfl
  | cons h _ ih => simp_all [Fragment.isBlank, C.piece_isBlank h]

theorem rel.isEmpty_eq (h : rel C.piece fs gs) : fs.isEmpty = gs.isEmpty := by
  cases h <;> rfl

end Rel

end Traced

end SqlTree.Render
