import SqlTree.Proofs.Coupling.Statement

/-!
Two renderings of the same pieces, under settings that differ at most in how placeholders are
written.
-/

namespace SqlTree

namespace Render

open Traced

/-- Pieces, values and counts are the same in both renderings. Messages may differ, and where
`partly` holds the second one may fail. -/
def Coupling.same (partly : Prop) : Coupling where
  piece := Eq
  value := Eq
  count := Eq
  excused _ _ := partly
  fault _ _ := True
  piece_text _ := rfl
  piece_literal _ := rfl
  piece_isBlank h := h ▸ rfl
  exists_piece p := ⟨p, rfl⟩
  value_refl _ := rfl
  exists_count := @exists_eq' Nat
  excused_mono h _ := h
  fault_refl _ := trivial
  fault_of_excused _ _ := trivial

/-- A property of data that all parts of the data inherit. -/
structure Hereditary (D : Value → Prop) : Prop where
  null : D .null
  element : ∀ {v vs w}, D v → v.elements? = some vs → w ∈ vs → D w
  entry : ∀ {es e}, D (.map es) → e ∈ es → D e.2

theorem Hereditary.all : Hereditary fun _ => True where
  null := trivial
  element _ _ _ := trivial
  entry _ _ := trivial

/-- Settings that differ at most in how placeholders are written. -/
def Renumbered (s s' : Settings) : Prop := ∃ numbered, s' = { s with numbered }

theorem Renumbered.refl (s : Settings) : Renumbered s s := ⟨s.numbered, rfl⟩

theorem Renumbered.bind (partly : Prop) (s : Settings) (numbered : Bool) (v : Value) :
    Parallel (.same partly) [] (bind s v) (bind { s with numbered } v) := by
  unfold Render.bind
  split
  · exact .literal rfl v
  · refine ⟨fun n m h => ?_⟩
    subst h
    exact ⟨extends_slot n v, List.forall₂_same.mpr fun _ _ => rfl, rfl⟩

theorem Renumbered.simulation (partly : Prop) {D : Value → Prop} (hD : Hereditary D) :
    Simulation (.same partly) Renumbered D where
  alike := by
    rintro s _ ⟨numbered, rfl⟩
    refine .of_modes (fun _ _ => trivial) ?_
    rintro v _ rfl
    exact Renumbered.bind partly s numbered v
  within := by
    rintro s _ es ⟨numbered, rfl⟩
    exact ⟨numbered, rfl⟩
  inner := by
    rintro s _ ⟨numbered, rfl⟩
    exact ⟨numbered, rfl⟩
  inlined := by
    rintro s _ _ _ _ _ ⟨numbered, rfl⟩ - - - -
    exact ⟨numbered, rfl⟩
  operators := by
    rintro s _ v head args ⟨numbered, rfl⟩ - -
    exact .refl _ _
  null := hD.null
  element := hD.element
  entry := hD.entry

theorem eq_of_rel_same {partly : Prop} {f g : Fragment}
    (h : rel (Coupling.same partly).piece f g) : f = g :=
  (congrFun₂ List.forall₂_eq_eq_eq f g).mp h

end Render

end SqlTree
