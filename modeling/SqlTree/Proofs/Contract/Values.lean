import SqlTree.Proofs.Contract.Basic

/-!
The leaves of a rendering under a contract: names, types, and values.
-/

namespace SqlTree.Contract

open Render Fragment

variable {M : Contract} {s : Settings}

theorem holds_fail {e : Fault} (h : e.isUnknown = false) : M.Holds (fail e) :=
  .fail (M.fault_of_known h)

theorem holds_words {t : Except Fault String} (h : M.Spelled .free .bound t) : M.Holds (words t) :=
  .bind_lift h fun _ ht => .pure ht

theorem holds_phrase {t : String} (h : isPhrase .free .bound t = true) :
    M.Holds (pure (ofText t)) :=
  .pure (M.phrase h)

theorem meets_error {α : Type} {P : α → Prop} {e : Fault} (h : e.isUnknown = false) :
    Meets M.fault P (.error e) :=
  M.fault_of_known h

section Names

variable (hs : M.settings s)

include hs

theorem spelled_name (v : Value) : M.Spelled .free .bound (name s v) := by
  unfold Render.name
  split
  · split
    · exact M.nameText_ok hs _
    · split
      · exact meets_error rfl
      · exact meets_error rfl
  · exact meets_error rfl

theorem spelled_names (vs : List Value) : M.Spelled .free .bound (names s vs) := by
  exact .bind (.mapM_all fun v _ => spelled_name hs v) fun ts hts =>
    words_joined (M.phrase (by decide)) hts

omit hs in
/-- Column names in parentheses. -/
theorem spelled_inParens {t : Except Fault String} (h : M.Spelled .free .bound t) :
    M.Spelled .free .bound (do return "(" ++ (← t) ++ ")") :=
  .bind h fun _ ht => word_appendBound (word_append (M.phrase (by decide)) ht) (M.phrase (by decide))

end Names

section Literals

variable (hs : M.settings s) {v : Value}

include hs

theorem holds_literal (hv : M.value v) : M.Holds (literal s v) :=
  .bind_lift (M.literal_ok hs hv) fun _ ht => .pure ht

theorem holds_bind (hv : M.value v) : M.Holds (Render.bind s v) := by
  unfold Render.bind
  split
  · exact holds_literal hs hv
  · exact ⟨fun n => M.slot (n + 1) v⟩

theorem holds_plain (hv : M.value v) : M.Holds (plain s v) := by
  unfold plain
  split
  · exact holds_literal hs hv
  · exact holds_literal hs hv
  · exact holds_bind hs hv

theorem meets_param (name : Value) :
    Meets M.fault (fun v => M.value v ∧ ∀ vs, v.items? = some vs → ∀ w ∈ vs, M.value w)
      (param s name) := by
  refine .of_forall (fun v hv => M.param_ok hs hv) fun e he => ?_
  unfold param at he
  split at he <;> cases he
  exact M.fault_of_known (e := .missingParameter _ _) rfl

theorem holds_boundParam (name : Value) : M.Holds (boundParam s name) :=
  .bind_lift (meets_param hs name) fun _ hv => holds_bind hs hv.1

omit hs in
theorem value_jsonValue (type : String) (hv : M.value v) :
    Meets M.fault M.value (jsonValue type v) := by
  unfold jsonValue
  split
  · split
    · split
      · exact M.value_text _
      · exact M.fault_of_known (e := .wrongType) rfl
    · split
      · exact M.value_text _
      · exact M.fault_of_known (e := .wrongType) rfl
    · exact hv
  · exact hv

theorem holds_typed {type : String} (htype : M.Spelled .free .bound (Identifier.typeName type))
    (hv : M.value v) : M.Holds (typed s type v) := by
  unfold typed
  split
  · exact holds_plain hs hv
  · refine .bind_lift (value_jsonValue type hv) fun w hw => ?_
    refine .bind (holds_plain hs hw) fun f hf => .bind_lift htype fun t ht => .pure ?_
    exact good_linked hf M.typeMark ht

end Literals

end SqlTree.Contract
