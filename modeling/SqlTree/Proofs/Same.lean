import SqlTree.Value.Same
import Mathlib.Data.List.Forall2
import Mathlib.Data.List.Perm.Lattice

/-! When texts, arrays and maps are the same. -/

namespace SqlTree

namespace Value

attribute [local simp] same sameItems sameEntries sameScalar number? ScaledNumber.same

theorem same_text_iff {k : Value} {t : String} : k.same (.text t) = true ↔ k = .text t := by
  cases k
  case real x => cases x <;> simp
  case decimal d =>
    simp only [Value.same, Value.sameScalar, reduceCtorEq, iff_false]
    cases (Value.decimal d).number? <;> simp
  all_goals simp

theorem text_same_iff {k : Value} {t : String} : (Value.text t).same k = true ↔ k = .text t := by
  cases k
  case text u => simpa using (eq_comm : t = u ↔ u = t)
  case real x => cases x <;> simp
  case decimal d =>
    simp only [Value.same, Value.sameScalar, reduceCtorEq, iff_false]
    cases (Value.decimal d).number? <;> simp
  all_goals simp

theorem same_text_self (t : String) : (Value.text t).same (.text t) = true :=
  Value.same_text_iff.mpr rfl

theorem same_bool_self (b : Bool) : (Value.bool b).same (.bool b) = true := by
  simp

theorem same_int_self (n : Int) : (Value.int n).same (.int n) = true := by
  simp

theorem same_list {vs ws : List Value} (h : List.Forall₂ (fun v w => v.same w = true) vs ws) :
    (Value.list vs).same (.list ws) = true := by
  rw [same]
  induction h with
  | nil => rfl
  | cons hv _ ih => rw [sameItems, hv, Bool.true_and, ih]

theorem same_map {es fs : Entries} (hlen : es.length = fs.length)
    (h : ∀ e ∈ es, ∃ f ∈ fs, e.1.same f.1 = true ∧ e.2.same f.2 = true) :
    (Value.map es).same (.map fs) = true := by
  have hentries : sameEntries es fs = true := by
    clear hlen
    induction es with
    | nil => rfl
    | cons e es ih =>
      obtain ⟨f, hf, hk, hv⟩ := h e (by simp)
      have hany : (fs.any fun f => e.1.same f.1 && e.2.same f.2) = true :=
        List.any_eq_true.mpr ⟨f, hf, by rw [hk, hv, Bool.and_self]⟩
      rw [sameEntries, hany, Bool.true_and]
      exact ih fun g hg => h g (by simp [hg])
  rw [same]
  simp [hlen, hentries]

/-- A map that is the same as one with a single text key has that key alone. -/
theorem eq_of_same_map {k : String} {v : Value} {fs : Entries}
    (h : (Value.map [(.text k, v)]).same (.map fs) = true) : ∃ w, fs = [(.text k, w)] := by
  rw [same, Bool.and_eq_true, beq_iff_eq] at h
  obtain ⟨f, rfl⟩ := List.length_eq_one_iff.mp h.1.symm
  have hentries := h.2
  rw [sameEntries] at hentries
  simp only [List.any_cons, List.any_nil, Bool.or_false, Bool.and_eq_true] at hentries
  have hkey : f.1 = .text k := text_same_iff.mp hentries.1.1
  exact ⟨f.2, by rw [← hkey]⟩

end Value

theorem Entries.hasField_iff {es : Entries} {k : String} :
    Entries.hasField es k = true ↔ ∃ e ∈ es, e.1 = .text k := by
  simp only [Entries.hasField, Entries.field?, Entries.valueAt?, Option.isSome_map, List.find?_isSome,
    Value.same_text_iff]

theorem Entries.mem_of_field? {es : Entries} {k : String} {v : Value}
    (h : Entries.field? es k = some v) : (.text k, v) ∈ es := by
  obtain ⟨e, he, rfl⟩ := Option.map_eq_some_iff.mp h
  have hkey : e.1 = .text k := Value.same_text_iff.mp (by simpa using List.find?_some he)
  exact hkey ▸ List.mem_of_find?_eq_some he

end SqlTree
