import SqlTree.Proofs.Vocabulary.Query

/-!
Statements that are read from SQL text hold nothing that the standard registry does not know, if
their queries hold nothing of the kind.
-/

namespace SqlTree.Vocabulary

open Render Syntax
open Contract (known)
open Contract.Kept

variable {v : Value} {vs : List Value} {es fs : Entries} {key : String}

/-- A clause that only writes names and words. -/
theorem spoken_words (form : ClauseForm) (hform : Registry.standard.clause? key = some form)
    (hkey : key ∉ Clause.setOperations)
    (h : ∀ n {s}, known.settings s → ∃ t, clause (upTo n) s form key v = words t ∧ Known t) :
    Spoken (Reading.entry key v) :=
  spoken_entry form hform hkey fun n _ hs => by
    obtain ⟨t, ht, hknown⟩ := h n hs
    rw [ht]
    exact Contract.holds_words hknown

section Targets

/-- A table, perhaps with an alias, may stand for a list too. -/
structure TargetSpoken (v : Value) : Prop where
  item : Itemised v
  first : ∀ t ∈ v.asItems.head?, Itemised t
  rest : ∀ w ∈ v.asItems.tail, Renders w

theorem targetSpoken_value (path : Path) : TargetSpoken path.value := by
  have hspeaks : Speaks path.value := always_value path ⟨1, 0⟩ _ rfl
  refine ⟨hspeaks.item, fun t ht => ?_, fun w hw => ?_⟩
  · unfold Path.value at ht
    split at ht <;> cases ht <;> exact (speaks_leaf rfl).item
  · unfold Path.value at hw
    split at hw
    · cases hw
    · rw [List.mem_singleton.mp hw]
      exact renders_text _

theorem targetSpoken_aliased (path : Path) (name : Name) :
    TargetSpoken (.list [path.value, name.asAlias]) := by
  obtain ⟨t, ht, halias⟩ := isAliasText_asAlias name
  rw [ht]
  have hspeaks : Speaks path.value := always_value path ⟨1, 0⟩ _ rfl
  refine ⟨itemised_pair hspeaks.renders halias, fun w hw => ?_, fun w hw => ?_⟩
  · cases hw
    exact hspeaks.item
  · rw [List.mem_singleton.mp hw]
    exact renders_text t

theorem target (path : Path) : Always (Reading.target path) TargetSpoken :=
  .visit (.pure (targetSpoken_value path))

theorem changed (path : Path) (name : Option Name) :
    Always (Reading.changed path name) Itemised := by
  refine .bind (P := fun v => v = path.value) (.visit (.pure rfl)) fun v hv => ?_
  subst hv
  cases name with
  | none => exact .pure (targetSpoken_value path).item
  | some n =>
    refine .map (P := fun a => a = n.asAlias) (.visit (.pure rfl)) fun a ha => ?_
    subst ha
    exact (targetSpoken_aliased path n).item

end Targets

section Assignments

variable {fields : List (Read (Value × Value))} {P : Value × Value → Prop}

theorem mem_put {e : Value × Value} {key : String} (h : e ∈ Entries.put es (.text key) v) :
    e ∈ es ∨ e = (.text key, v) := by
  induction es with
  | nil => exact .inr (List.mem_singleton.mp h)
  | cons f es ih =>
    unfold Entries.put at h
    split at h
    · next hsame =>
      rw [Value.same_text_iff.mp hsame] at h
      rcases List.mem_cons.mp h with rfl | h
      · exact .inr rfl
      · exact .inl (List.mem_cons_of_mem _ h)
    · rcases List.mem_cons.mp h with rfl | h
      · exact .inl (List.mem_cons_self ..)
      · exact (ih h).imp_left (List.mem_cons_of_mem _)

theorem forall_mem_updated (hes : ∀ e ∈ es, P e)
    (hfs : ∀ f ∈ fs, (∃ t, f.1 = .text t) ∧ P f) : ∀ e ∈ Entries.updated es fs, P e := by
  induction fs generalizing es with
  | nil => exact hes
  | cons f fs ih =>
    obtain ⟨⟨⟨t, ht⟩, hf⟩, hfs⟩ := List.forall_mem_cons.mp hfs
    refine ih (fun e he => ?_) hfs
    have hput : e ∈ es.put (.text t) f.2 := ht ▸ (show e ∈ es.put f.1 f.2 from he)
    rcases mem_put hput with he | rfl
    · exact hes e he
    · exact (show (.text t, f.2) = f from Prod.ext ht.symm rfl) ▸ hf

/-- What assignments are read as: the value of a column. -/
def AssignmentSpoken (e : Value × Value) : Prop := (∃ t, e.1 = .text t) ∧ Renders e.2

theorem assignment (column : Name) {e : Operand} (he : OperandSpeaks e) :
    Always (Reading.assignment column e) AssignmentSpoken :=
  .visit <| he.value.map fun _ hv => ⟨⟨_, rfl⟩, hv.renders⟩

theorem always_assignments (h : ∀ r ∈ fields, Always r fun e => (∃ t, e.1 = .text t) ∧ P e) :
    Always (Reading.assignments fields) fun v => ∃ es, v = .map es ∧ ∀ e ∈ es, P e :=
  .visit <| (Always.mapM h).map fun _ hfs => ⟨_, rfl, forall_mem_updated nofun hfs⟩

/-- The values of the map may be rendered on their own. -/
def ValuesRender (v : Value) : Prop := ∀ es, v = .map es → ∀ e ∈ es, Renders e.2

theorem assignments (h : ∀ r ∈ fields, Always r AssignmentSpoken) :
    Always (Reading.assignments fields) ValuesRender :=
  (always_assignments h).mono fun _ hv es hes => by
    obtain ⟨fs, rfl, hfs⟩ := hv
    cases hes
    exact hfs

theorem spoken_set (h : ValuesRender v) : Spoken (Reading.entry "set" v) :=
  spoken_entry .assignments rfl (by decide) fun n _ hs =>
    .bind ((kept n).assignments hs "set" h) fun _ _ => .pure trivial

end Assignments

section Insertions

/-- Rows are lists of values. -/
def RowsSpoken (v : Value) : Prop :=
  ∀ row ∈ v.asItems, row.isMap = false ∧ ∀ w ∈ row.asItems, Renders w

inductive InsertedSpoken : Inserted → Prop
  | query {es : Entries} : Spoken es → InsertedSpoken (.query (.map es))
  | values {v : Value} : RowsSpoken v → InsertedSpoken (.values v)

def RowSpoken (row : Value) : Prop := ∃ vs, row = .list vs ∧ ∀ v ∈ vs, Renders v

theorem insertedRow {items : List Operand} (h : ∀ p ∈ items, OperandSpeaks p) :
    Always (.list <$> Operand.values items) RowSpoken :=
  always_fmap (always_values h) fun _ hvs => ⟨_, rfl, hvs⟩

theorem insertedRows {rs : List (Read Value)} (h : ∀ r ∈ rs, Always r RowSpoken) :
    Always (Reading.rows rs) InsertedSpoken :=
  (Always.mapM h).map fun _ hrows => .values fun row hrow => by
    obtain ⟨vs, rfl, hvs⟩ := hrows row hrow
    exact ⟨rfl, hvs⟩

theorem insertedQuery {q : Read Entries} (hq : Always q Spoken) :
    Always (Reading.insertedQuery q) InsertedSpoken :=
  hq.map fun _ hes => .query hes

theorem inserted_default : InsertedSpoken (.values (.text "default")) :=
  .values fun row hrow => by
    rw [List.mem_singleton.mp hrow]
    exact ⟨rfl, by simpa [Value.asItems, Value.items?] using renders_text _⟩

theorem spoken_insertInto (htarget : TargetSpoken v) : Spoken (Reading.entry "insert-into" v) :=
  spoken_entry .insertInto rfl (by decide) fun n _ hs =>
    (kept n).insertInto hs trivial (fun _ => htarget.item hs) (fun t ht => htarget.first t ht hs)
      (fun w hw _ => htarget.rest w (List.mem_of_mem_head? hw))
      fun w hw => htarget.rest w (List.mem_of_mem_tail hw)

theorem spoken_insertQuery (hv : TargetSpoken v) (columns : Option (List Value)) (hes : Spoken es) :
    Spoken (Reading.entry "insert-into"
      (.list (v :: (columns.map Value.list).toList ++ [.map es]))) := by
  refine spoken_entry .insertInto rfl (by decide) fun n s hs => ?_
  have hnone : aliasPair? s (.list (v :: (columns.map Value.list).toList ++ [.map es])) = none := by
    cases columns <;> rfl
  refine (kept n).insertInto hs trivial (fun hpair => ?_) (fun t ht => ?_) (fun w hw hi => ?_)
    fun w hw => ?_
  · rw [hnone] at hpair
    cases hpair
  · cases ht
    exact hv.item hs
  · cases columns with
    | none =>
      cases hw
      exact hes.renders
    | some cs =>
      cases hw
      cases hi
  · cases columns with
    | none => cases hw
    | some cs =>
      rw [List.mem_singleton.mp hw]
      exact hes.renders

theorem spoken_values (h : RowsSpoken v) : Spoken (Reading.entry "values" v) :=
  spoken_entry .rows rfl (by decide) fun n _ hs => by
    refine (kept n).rows hs (fun row hrow es hes => ?_) (fun row hrow _ => (h row hrow).2)
      fun _ row hrow hmap => ?_
    · subst hes
      cases (h _ hrow).1
    · rw [(h row hrow).1] at hmap
      cases hmap

theorem spoken_insertion (hv : TargetSpoken v) (columns : Option (List Value)) {i : Inserted}
    (hi : InsertedSpoken i) : Spoken (Reading.insertion v columns i) := by
  cases hi with
  | query hes => exact spoken_insertQuery hv columns hes
  | values hvs =>
    refine ((spoken_insertInto hv).append ?_).append (spoken_values hvs)
    cases columns with
    | none => exact spoken_nil
    | some cs =>
      exact spoken_words .columnList rfl (by decide) fun n s hs =>
        ⟨_, rfl, Contract.Kept.columnList hs _⟩

end Insertions

end SqlTree.Vocabulary
