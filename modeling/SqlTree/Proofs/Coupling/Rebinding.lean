import SqlTree.Proofs.Coupling.Fragment
import SqlTree.Proofs.Placeholders

/-!
Two renderings that fail alike, and write the same text with related values in the same places.
-/

namespace SqlTree

open Render Render.Traced

variable {R : Value → Value → Prop}

/-- The same piece, or the same place for values that `R` relates. -/
inductive Rebound (R : Value → Value → Prop) : Piece → Piece → Prop
  | text (t : String) : Rebound R (.text t) (.text t)
  | literal (t : String) : Rebound R (.literal t) (.literal t)
  | slot (i : Nat) {v w : Value} (h : R v w) : Rebound R (.slot i v) (.slot i w)

namespace Rebound

theorem sql_eq (d : Dialect) (numbered : Bool) {p q : Piece} (h : Rebound R p q) :
    p.sql d numbered = q.sql d numbered := by
  cases h <;> rfl

theorem fragment_sql_eq (d : Dialect) (numbered : Bool) {f g : Fragment}
    (h : List.Forall₂ (Rebound R) f g) : f.sql d numbered = g.sql d numbered := by
  induction h with
  | nil => rfl
  | cons hpq _ ih => rw [Fragment.sql_cons, Fragment.sql_cons, ih, hpq.sql_eq]

theorem fragment_values {f g : Fragment} (h : List.Forall₂ (Rebound R) f g) :
    List.Forall₂ R f.values g.values := by
  induction h with
  | nil => exact .nil
  | cons hpq _ ih =>
    cases hpq with
    | text => exact ih
    | literal => exact ih
    | slot _ hv => exact .cons hv ih

theorem isBlank_eq {p q : Piece} (h : Rebound R p q) : p.isBlank = q.isBlank := by
  cases h <;> rfl

theorem exists_of_refl (hR : ∀ v, R v v) (p : Piece) : ∃ q, Rebound R p q := by
  cases p with
  | text t => exact ⟨_, .text t⟩
  | literal t => exact ⟨_, .literal t⟩
  | slot i v => exact ⟨_, .slot i (hR v)⟩

end Rebound

/-- Two renderings that differ in the values they bind and in nothing else. -/
def Render.Coupling.rebinding (R : Value → Value → Prop) (hR : ∀ v, R v v) : Coupling where
  piece := Rebound R
  value := R
  count := Eq
  excused _ _ := False
  fault := Eq
  piece_text := .text
  piece_literal := .literal
  piece_isBlank h := h.isBlank_eq
  exists_piece := Rebound.exists_of_refl hR
  value_refl := hR
  exists_count := @exists_eq' Nat
  excused_mono h _ := h
  fault_refl _ := rfl
  fault_of_excused h := h.elim

end SqlTree
