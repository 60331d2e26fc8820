import SqlTree.Proofs.Guard.Blank
import SqlTree.Proofs.Watched

/-!
The guard of updates and deletions, which looks at the value of the condition, against what is
written for the condition.
-/

namespace SqlTree

open Render

/-- The keys of a statement's clauses in their order, each with what is written for it. -/
abbrev WrittenClauses := List (String × Option Fragment)

namespace Render

/-- A statement that is refused unless its clauses, as they are written, pass a check. -/
def inspected (check : Entries → WrittenClauses → Bool) (r : Renderer) (s : Settings)
    (nested : Bool) (es : Entries) : Render Fragment := do
  checkKeys s es
  let fs ← s.clauseOrder.mapM (clauseOf r (s.within es) es)
  if check es (s.clauseOrder.zip fs) then
    return Fragment.parensIf nested (Fragment.joined " " fs.reduceOption)
  else fail .unsupported

/-- The renderer of values that are at most `n` levels high, all of whose statements are
inspected. -/
def inspecting (check : Entries → WrittenClauses → Bool) : Nat → Renderer
  | 0 => ⟨fun _ _ _ => fail .unsupported, fun _ _ _ => fail .unsupported⟩
  | n + 1 => ⟨fun s => deeper (inspecting check n) s (inspected check (inspecting check n) · true),
      inspected check (inspecting check n)⟩

section Inspected

variable {check : Entries → WrittenClauses → Bool} {r : Renderer} {s : Settings} {nested : Bool}
  {es : Entries}

theorem inspected_eq (h : Ensures anyFault (fun fs => check es (s.clauseOrder.zip fs) = true)
    (s.clauseOrder.mapM (clauseOf r (s.within es) es))) :
    inspected check r s nested es = statement r s nested es := by
  unfold inspected statement
  congr 1
  funext _
  funext n
  rcases hfs : s.clauseOrder.mapM (clauseOf r (s.within es) es) n with e | ⟨fs, m⟩
  · rw [bind_of_error hfs, bind_of_error hfs]
  · rw [bind_of_ok hfs, bind_of_ok hfs, if_pos (h.of_ok hfs)]

theorem inspected_fails (nested : Bool) (h : Ensures anyFault (fun fs => check es (s.clauseOrder.zip fs) = false)
    (s.clauseOrder.mapM (clauseOf r (s.within es) es))) (n : Nat) :
    ∃ e, inspected check r s nested es n = .error e := by
  unfold inspected
  rcases hkeys : checkKeys s es with e | u
  · exact ⟨e, rfl⟩
  · rw [lift_ok_bind]
    rcases hfs : s.clauseOrder.mapM (clauseOf r (s.within es) es) n with e | ⟨fs, m⟩
    · exact ⟨e, bind_of_error hfs⟩
    · rw [bind_of_ok hfs, if_neg (by rw [h.of_ok hfs]; nofun)]
      exact ⟨_, rfl⟩

theorem statement_visible : Ensures anyFault Visible (statement r s true es) :=
  .liftAny fun _ _ => .bindAny fun _ => .pure Fragment.isBlank_parens

theorem inspected_visible : Ensures anyFault Visible (inspected check r s true es) := by
  refine .liftAny fun _ _ => .bindAny fun _ => ?_
  split
  · exact .pure Fragment.isBlank_parens
  · exact .fail trivial

theorem Blanks.inspecting (registry : Registry) (check : Entries → WrittenClauses → Bool) (n : Nat) :
    Blanks registry (inspecting check n) := by
  induction n with
  | zero => exact ⟨fun _ _ _ => .fail trivial, fun _ _ => .fail trivial⟩
  | succ n ih =>
    exact ⟨fun nested v hs => ih.deeper hs (fun _ _ _ => inspected_visible) nested v,
      fun _ _ => inspected_visible⟩

theorem inspecting_true (n : Nat) : inspecting (fun _ _ => true) n = upTo n := by
  induction n with
  | zero => rfl
  | succ n ih =>
    have hst : inspected (fun _ _ => true) (upTo n) = statement (upTo n) := by
      funext s nested es
      exact inspected_eq ((Ensures.any _).mono fun _ _ => rfl)
    rw [Render.inspecting, upTo, ih, hst]

end Inspected

end Render

/-- `format` succeeds, and the clauses of every statement it renders, at whatever depth, pass the
check in the form in which they are written. -/
def WritesOnly (registry : Registry) (o : Options) (data : Value)
    (check : Entries → WrittenClauses → Bool) : Prop :=
  ∃ s r, Settings.ofOptions registry o = .ok s ∧
    fragmentBy (inspecting check (data.height + 1)) s data 0 = .ok r

theorem writesOnly_true_iff {registry : Registry} {o : Options} {data : Value} :
    WritesOnly registry o data (fun _ _ => true) ↔ ∃ out, format registry o data = .ok out := by
  constructor
  · rintro ⟨s, r, hs, hr⟩
    rw [inspecting_true] at hr
    exact ⟨_, format_eq_ok_iff.mpr ⟨s, r.1, r.2, hs, hr, rfl⟩⟩
  · rintro ⟨out, h⟩
    obtain ⟨s, f, n, hs, hf, -⟩ := format_eq_ok_iff.mp h
    refine ⟨s, (f, n), hs, ?_⟩
    rw [inspecting_true]
    exact hf

section Conditions

/-- Clauses that change or delete rows of a table. -/
def rowChanges : List String := ["update", "delete-from", "delete"]

def changesRows (es : Entries) : Bool :=
  rowChanges.any fun key => (Entries.field? es key).any (!isNull ·)

/-- A statement that changes or deletes rows is written with a condition. -/
def keepsCondition (es : Entries) (written : WrittenClauses) : Bool :=
  !changesRows es || written.any fun w => w.1 = "where" && w.2.isSome

/-- The statement has a condition for which nothing is written. -/
def ConditionVanishes (registry : Registry) (es : Entries) : Prop :=
  ∃ v, Entries.field? es "where" = some v ∧ Vanishes registry false v

/-- The registry knows the clauses that change rows and the condition under their own forms. -/
structure Registry.Guards (registry : Registry) : Prop where
  update : registry.clause? "update" = some .updateTable
  delete : registry.clause? "delete" = some .deleteTables
  deleteFrom : registry.clause? "delete-from" = some .deleteFrom
  condition : registry.clause? "where" = some .condition
  ordered : ∀ key ∈ "where" :: rowChanges, key ∈ registry.clauseOrder

theorem Registry.standard_guards : Registry.standard.Guards where
  update := by decide
  delete := by decide
  deleteFrom := by decide
  condition := by decide
  ordered := by decide

/-- Settings under which the guard is on. -/
structure Settings.Guarding (registry : Registry) (s : Settings) : Prop where
  registry_eq : s.registry = registry
  checks : s.checks = true
  ordered : ∀ key ∈ "where" :: rowChanges, key ∈ s.clauseOrder

namespace Settings.Guarding

variable {registry : Registry} {s : Settings} (h : s.Guarding registry)

include h

theorem within (es : Entries) : (s.within es).Guarding registry := ⟨h.registry_eq, h.checks, h.ordered⟩

theorem inner : s.inner.Guarding registry := ⟨h.registry_eq, h.checks, h.ordered⟩

theorem inlined : s.inlined.Guarding registry := ⟨h.registry_eq, h.checks, h.ordered⟩

end Settings.Guarding

namespace Render

variable {registry : Registry} (hregistry : registry.Guards) {r : Renderer} {s : Settings}
  {es : Entries}

theorem clauseOf_eq {key : String} {form : ClauseForm} {v : Value}
    (hform : s.registry.clause? key = some form) (hv : Entries.field? es key = some v)
    (hnull : v ≠ .null) :
    clauseOf r s es key = do
      let f ← clause r s form key v
      return if f.isBlank then none else some f := by
  unfold clauseOf
  rw [hv, hform]
  cases v
  case null => exact absurd rfl hnull
  all_goals rfl

theorem condition_eq {key : String} {v : Value} (hnull : v ≠ .null)
    (hempty : isEmptyArray v = false) :
    condition r s key v = do
      let f ← r.expr s false v
      return if f.isBlank then [] else Fragment.after (Keyword.render key ++ " ") f := by
  unfold condition
  split
  · exact absurd rfl hnull
  · rw [hempty]
    rfl

theorem guarded_hasCondition (hs : s.checks = true) (verb : String) (table : Fragment) :
    Ensures anyFault (fun _ => hasCondition s.statement = true) (guarded s verb table) := by
  unfold guarded guard
  by_cases h : hasCondition s.statement = true
  · exact .bindAny fun _ => .pure h
  · rw [if_pos (by simp [hs, h])]
    exact .bind (.fail (P := fun _ => False) trivial) nofun

theorem isEmptyContainer_of_isEmptyArray {v : Value} (h : isEmptyArray v = true) :
    isEmptyContainer v = true := by
  unfold isEmptyArray at h
  cases v <;> simp_all [Value.items?, isEmptyContainer]

theorem exists_condition (h : hasCondition es = true) :
    ∃ v, Entries.field? es "where" = some v ∧ v ≠ .null ∧ isEmptyArray v = false := by
  unfold hasCondition at h
  split at h
  · cases h
  · cases h
  · next v hnull hv =>
    refine ⟨v, hv, fun hv => hnull hv, ?_⟩
    by_contra hempty
    rw [Bool.not_eq_false] at hempty
    simp [isEmptyContainer_of_isEmptyArray hempty] at h

include hregistry

theorem clauseOf_hasCondition (hs : s.Guarding registry) {key : String} (hkey : key ∈ rowChanges)
    {v : Value} (hv : Entries.field? es key = some v) (hnull : v ≠ .null) :
    Ensures anyFault (fun _ => hasCondition es = true) (clauseOf r (s.within es) es key) := by
  have hguard : ∀ verb table, Ensures anyFault (fun _ => hasCondition es = true)
      (guarded (s.within es) verb table) := guarded_hasCondition (s := s.within es) hs.checks
  have hform : ∀ {form}, registry.clause? key = some form →
      Ensures anyFault (fun _ => hasCondition es = true) (clause r (s.within es) form key v) →
      Ensures anyFault (fun _ => hasCondition es = true) (clauseOf r (s.within es) es key) := by
    intro form hform hclause
    rw [clauseOf_eq (s := s.within es) (hs.registry_eq ▸ hform) hv hnull]
    exact .bind hclause fun f hf => .pure hf
  simp only [rowChanges, List.mem_cons, List.not_mem_nil, or_false] at hkey
  rcases hkey with rfl | rfl | rfl
  · exact hform hregistry.update (.bindAny fun _ => hguard _ _)
  · exact hform hregistry.deleteFrom (.bindAny fun _ => hguard _ _)
  · exact hform hregistry.delete (.bindAny fun _ => hguard _ _)

theorem clauseOf_condition (hr : Blanks registry r) (hs : s.Guarding registry)
    (hes : hasCondition es = true) :
    Ensures anyFault (fun o => o.isSome = true ↔ ¬ ConditionVanishes registry es)
      (clauseOf r (s.within es) es "where") := by
  obtain ⟨v, hv, hnull, hempty⟩ := exists_condition hes
  have hvanishes : ConditionVanishes registry es ↔ Vanishes registry false v := by
    simp [ConditionVanishes, hv]
  rw [clauseOf_eq (s := s.within es) (hs.registry_eq ▸ hregistry.condition) hv hnull, hvanishes]
  change Ensures _ _ ((condition r (s.within es) "where" v) >>= _)
  rw [condition_eq hnull hempty]
  refine .bind (P := fun f => Fragment.isBlank f = true ↔ Vanishes registry false v) ?_
    fun f hf => .pure ?_
  · refine .bind (hr.expr (s := s.within es) false v hs.registry_eq) fun f hf => .pure ?_
    split
    · next hblank => simpa [hblank] using hf
    · next hblank => simpa [Fragment.isBlank_after, hblank] using hf
  · rw [← hf]
    cases f.isBlank <;> simp

/-- What a clause says about the condition of its statement once it has been written. -/
def TellsCondition (registry : Registry) (es : Entries) (key : String) (o : Option Fragment) :
    Prop :=
  ((key ∈ rowChanges ∧ ∃ v, Entries.field? es key = some v ∧ v ≠ .null) → hasCondition es = true) ∧
    ((key = "where" ∧ hasCondition es = true) →
      (o.isSome = true ↔ ¬ ConditionVanishes registry es))

theorem clauseOf_tellsCondition (hr : Blanks registry r) (hs : s.Guarding registry) (key : String) :
    Ensures anyFault (TellsCondition registry es key) (clauseOf r (s.within es) es key) := by
  refine .and ?_ ?_
  · by_cases h : key ∈ rowChanges ∧ ∃ v, Entries.field? es key = some v ∧ v ≠ .null
    · obtain ⟨hkey, v, hv, hnull⟩ := h
      exact (clauseOf_hasCondition hregistry hs hkey hv hnull).mono fun _ hes _ => hes
    · exact (Ensures.any _).mono fun _ _ h' => absurd h' h
  · by_cases h : key = "where" ∧ hasCondition es = true
    · obtain ⟨rfl, hes⟩ := h
      exact (clauseOf_condition hregistry hr hs hes).mono fun _ ho _ => ho
    · exact (Ensures.any _).mono fun _ _ h' => absurd h' h

omit hregistry in
theorem exists_mem_zip {P : String → Option Fragment → Prop} {keys : List String}
    {fs : List (Option Fragment)} (h : List.Forall₂ P keys fs) {key : String} (hkey : key ∈ keys) :
    ∃ o, (key, o) ∈ keys.zip fs ∧ P key o := by
  induction h with
  | nil => cases hkey
  | cons ho _ ih =>
    rcases List.mem_cons.mp hkey with rfl | hkey
    · exact ⟨_, by simp, ho⟩
    · obtain ⟨o, hmem, ho⟩ := ih hkey
      exact ⟨o, by simp [hmem], ho⟩

omit hregistry in
theorem exists_rowChange (h : changesRows es = true) :
    ∃ key ∈ rowChanges, ∃ v, Entries.field? es key = some v ∧ v ≠ .null := by
  obtain ⟨key, hkey, hfield⟩ := List.any_eq_true.mp h
  cases hv : Entries.field? es key with
  | none => simp [hv] at hfield
  | some v =>
    refine ⟨key, hkey, v, hv, ?_⟩
    rintro rfl
    simp [hv, isNull] at hfield

/-- Once the guard has let a statement pass, its condition is written unless it vanishes. -/
theorem clauses_keepsCondition (hr : Blanks registry r) (hs : s.Guarding registry)
    (es : Entries) :
    Ensures anyFault
      (fun fs => keepsCondition es (s.clauseOrder.zip fs) = true ↔
        (changesRows es = true → ¬ ConditionVanishes registry es))
      (s.clauseOrder.mapM (clauseOf r (s.within es) es)) := by
  refine (Ensures.mapM fun key _ => clauseOf_tellsCondition hregistry hr hs key).mono fun fs hfs => ?_
  by_cases hchanges : changesRows es = true
  · obtain ⟨key, hkey, hv⟩ := exists_rowChange hchanges
    obtain ⟨-, -, hguard, -⟩ := exists_mem_zip hfs (hs.ordered key (by simp [hkey]))
    have hes := hguard ⟨hkey, hv⟩
    obtain ⟨o, hmem, -, ho⟩ := exists_mem_zip hfs (hs.ordered "where" (by simp))
    have ho := ho ⟨rfl, hes⟩
    simp only [keepsCondition, hchanges, Bool.not_true, Bool.false_or, List.any_eq_true,
      Bool.and_eq_true, decide_eq_true_eq, forall_const]
    constructor
    · rintro ⟨⟨_, o'⟩, hmem', rfl, ho'⟩
      have htells := (List.forall₂_iff_zip.mp hfs).2 hmem'
      exact (htells.2 ⟨rfl, hes⟩).mp ho'
    · intro h
      exact ⟨("where", o), hmem, rfl, ho.mpr h⟩
  · simp [keepsCondition, hchanges]

section Watched

/-- The statements that the guard is for have no vanishing condition. -/
def Unvanished (registry : Registry) (es : Entries) : Prop :=
  changesRows es = true → ¬ ConditionVanishes registry es

/-- Settings that differ at most in how placeholders are written, with the guard on. -/
def BothGuarding (registry : Registry) (s s' : Settings) : Prop :=
  Renumbered s s' ∧ s.Guarding registry

omit hregistry in
theorem BothGuarding.simulation {D : Value → Prop} (hD : Hereditary D) :
    Simulation (.same False) (BothGuarding registry) D := by
  have sim := Renumbered.simulation False hD
  exact { sim with
    alike := fun h => sim.alike h.1
    operators := fun h => sim.operators h.1
    within := fun es h => ⟨sim.within es h.1, h.2.within es⟩
    inner := fun h => ⟨sim.inner h.1, h.2.inner⟩
    inlined := fun h hv hi hf hin => ⟨sim.inlined h.1 hv hi hf hin, h.2.inlined⟩ }

variable {D : Value → Prop} {accepts : Entries → Bool}
  (haccepts : ∀ es, accepts es = true ↔ Unvanished registry es)

include haccepts

theorem parallel_inspected {r' : Renderer} {s' : Settings}
    (hrr : Renderers (.same False) (BothGuarding registry) D r r') (hr : Blanks registry r)
    (hs : BothGuarding registry s s') (nested : Bool) (hes : D (.map es)) :
    Parallel (.same False) [] (inspected keepsCondition r s nested es)
      (refusing accepts es (statement r' s' nested es)) := by
  have hkeeps := clauses_keepsCondition hregistry hr hs.2 es
  unfold refusing
  by_cases h : Unvanished registry es
  · rw [if_pos ((haccepts es).mpr h), inspected_eq (hkeeps.mono fun fs hfs => hfs.mpr h)]
    exact hrr.clauses hs nested hes
  · rw [if_neg (by rwa [haccepts])]
    refine ⟨fun n m _ => ?_⟩
    have hfails := hkeeps.mono fun fs hfs => Bool.eq_false_iff.mpr fun hkept => h (hfs.mp hkept)
    obtain ⟨e, he⟩ := inspected_fails nested hfails n
    rw [he]
    trivial

/-- Inspecting what is written for a condition comes to the same as refusing the statements whose
condition vanishes. -/
theorem Renderers.inspecting (hD : Hereditary D) (n : Nat) :
    Renderers (.same False) (BothGuarding registry) D (Render.inspecting keepsCondition n)
      (Render.watched accepts n) := by
  have sim : Simulation (.same False) (BothGuarding registry) D := BothGuarding.simulation hD
  induction n with
  | zero => exact { sim with
      expr := fun _ _ _ => .fail _
      statement := fun _ _ _ => .fail _ }
  | succ n ih =>
    have hst : ∀ {s s' es}, BothGuarding registry s s' → D (.map es) → Parallel (.same False) []
        (inspected keepsCondition (Render.inspecting keepsCondition n) s true es)
        (refusing accepts es (Render.statement (Render.watched accepts n) s' true es)) :=
      fun hs hes =>
        parallel_inspected hregistry haccepts ih (.inspecting registry _ n) hs true hes
    rw [Render.inspecting, Render.watched]
    constructor
    · exact sim
    · intro s s' v nested hs hv
      exact ih.deeper hs hst nested hv
    · intro s s' es nested hs hes
      exact parallel_inspected hregistry haccepts ih (.inspecting registry _ n) hs nested hes

end Watched

end Render

theorem Clause.mem_insertBefore {key anchor k : String} {keys : List String} (h : k ∈ keys) :
    k ∈ Clause.insertBefore key anchor keys := by
  induction keys with
  | nil => cases h
  | cons l keys ih =>
    rw [Clause.insertBefore]
    split
    · exact List.mem_cons_of_mem _ h
    · rcases List.mem_cons.mp h with rfl | h
      · exact List.mem_cons_self
      · exact List.mem_cons_of_mem _ (ih h)

theorem Clause.self_mem_insertBefore {key anchor : String} {keys : List String}
    (h : anchor ∈ keys) : key ∈ Clause.insertBefore key anchor keys := by
  induction keys with
  | nil => cases h
  | cons l keys ih =>
    rw [Clause.insertBefore]
    split
    · exact List.mem_cons_self
    · next hne => exact List.mem_cons_of_mem _ (ih ((List.mem_cons.mp h).resolve_left (Ne.symm hne)))

/-- A dialect leaves no clause out. -/
theorem Dialect.mem_clauseOrder (d : Dialect) {order : List String} {key : String}
    (h : key ∈ order) : key ∈ d.clauseOrder order := by
  unfold Dialect.clauseOrder
  split
  · split
    · next hboth =>
      obtain ⟨-, hwhere⟩ := Bool.and_eq_true_iff.mp hboth
      by_cases hkey : key = "set"
      · subst hkey
        refine Clause.self_mem_insertBefore (List.mem_filter.mpr ⟨?_, by decide⟩)
        simpa using hwhere
      · exact Clause.mem_insertBefore (List.mem_filter.mpr ⟨h, by simpa using hkey⟩)
    · exact h
  · exact h

theorem Settings.guarding_of_options {registry : Registry} (hregistry : registry.Guards)
    {o : Options} (ho : o.checking ≠ "none") {s : Settings}
    (hs : Settings.ofOptions registry o = .ok s) : s.Guarding registry := by
  obtain ⟨hkeeps, -, horder⟩ := Settings.ofOptions_keeps hs
  refine ⟨hkeeps, ?_, fun key hkey => ?_⟩
  · unfold Settings.ofOptions at hs
    cases hd : Dialect.ofName (o.dialect.getD "postgres") <;>
      cases hc : Checking.ofName o.checking <;> rw [hd, hc] at hs <;> cases hs
    unfold Checking.ofName at hc
    split at hc <;> cases hc
    · next h => exact absurd h ho
    · rfl
    · rfl
  · rw [horder]
    exact s.dialect.mem_clauseOrder (hregistry.ordered key hkey)

/-- With the guard on, every statement that changes or deletes rows is written with a condition, if
and only if no such statement has a condition for which nothing is written. -/
theorem keepsCondition_iff {registry : Registry} (hregistry : registry.Guards) {o : Options}
    (ho : o.checking ≠ "none") (data : Value) :
    WritesOnly registry o data keepsCondition ↔
      RendersOnly registry o data fun es =>
        changesRows es = true → ¬ ConditionVanishes registry es := by
  classical
  let accepts : Entries → Bool := fun es => decide (Unvanished registry es)
  have haccepts : ∀ es, accepts es = true ↔ Unvanished registry es := fun es => decide_eq_true_iff
  have hrun : ∀ {s}, Settings.ofOptions registry o = .ok s →
      Coupling.Outcome (.same False) [] 0
        (fragmentBy (inspecting keepsCondition (data.height + 1)) s data 0)
        (fragmentBy (watched accepts (data.height + 1)) s data 0) := fun hs =>
    ((Renderers.inspecting hregistry haccepts .all (data.height + 1)).fragmentBy
      ⟨.refl _, Settings.guarding_of_options hregistry ho hs⟩ trivial).run 0 0 rfl
  constructor
  · rintro ⟨s, r, hs, hr⟩
    have hrun := hrun hs
    rw [hr] at hrun
    rcases hw : fragmentBy (watched accepts (data.height + 1)) s data 0 with e | r'
    · rw [hw] at hrun
      exact hrun.2.elim
    · exact ⟨accepts, fun es => (haccepts es).mp, s, r', hs, hw⟩
  · intro h
    obtain ⟨s, r, hs, hr⟩ := h.passes fun es => (haccepts es).mpr
    have hrun := hrun hs
    rw [hr] at hrun
    rcases hi : fragmentBy (inspecting keepsCondition (data.height + 1)) s data 0 with e | r'
    · rw [hi] at hrun
      exact hrun.elim
    · exact ⟨s, r', hs, hi⟩

section Samples

/-- `UPDATE t SET a = 1` under a condition. -/
def updateWhere (condition : Value) : Value :=
  .map [(.text "update", .text "t"), (.text "set", .map [(.text "a", .int 1)]),
    (.text "where", condition)]

set_option maxRecDepth 10000 in
theorem updateWhere_equality_rendersOnly :
    RendersOnly .standard { checking := "basic" }
      (updateWhere (.list [.text "=", .text "id", .int 2])) fun es =>
        changesRows es = true → ¬ ConditionVanishes .standard es :=
  (keepsCondition_iff Registry.standard_guards (by decide) _).mp ⟨_, _, rfl, rfl⟩

set_option maxRecDepth 10000 in
/-- The guard takes an empty raw text for a condition. -/
theorem updateWhere_noText_unguarded :
    format .standard { checking := "basic" } (updateWhere (.raw (.text ""))) =
        .ok ⟨"UPDATE t SET a = $1", [.int 1]⟩ ∧
      ¬ WritesOnly .standard { checking := "basic" } (updateWhere (.raw (.text "")))
        keepsCondition := by
  refine ⟨rfl, ?_⟩
  rintro ⟨s, r, hs, hr⟩
  cases hs
  cases hr

end Samples

end Conditions

end SqlTree
