import Mathlib.Data.Nat.Find
import SqlTree.Proofs.Placeholders

/-!
Checks and the depth limit in a rendering. They only ever refuse: a rendering that passes them is
the one without them, and the depth from which it passes is a property of the data.
-/

namespace SqlTree

open Render Render.Traced

/-- The faults of the depth limit, and those of the checks where these are `checked`. -/
def Fault.Refuses (checked : Prop) : Fault → Prop
  | expressionTooDeep .. => True
  | unguarded .. | emptyMembership .. => checked
  | _ => False

/-- Settings of which the second refuse all that the first refuse. A limit below the depth that is
reached already is as strict as that depth. -/
structure Stricter (checked : Prop) (s s' : Settings) : Prop where
  settings : s' = { s with checking := s'.checking, maxDepth := s'.maxDepth }
  checks : s.checks = true → s'.checks = true
  checked : s'.checks = true → s.checks = false → checked
  limit : s'.maxDepth ≤ max s.depth s.maxDepth

namespace Render

/-- The same rendering, which in its second run may be refused. -/
def Coupling.refusing (checked : Prop) : Coupling where
  piece := Eq
  value := Eq
  count := Eq
  excused e _ := e.Refuses checked
  fault _ _ := True
  piece_text := (same checked).piece_text
  piece_literal := (same checked).piece_literal
  piece_isBlank := (same checked).piece_isBlank
  exists_piece := (same checked).exists_piece
  value_refl _ := rfl
  exists_count := @exists_eq' Nat
  excused_mono h _ := h
  fault_refl _ := trivial
  fault_of_excused _ _ := trivial

variable {checked : Prop} {α : Type} [Traced α]

theorem rel_refusing_refl (f : Fragment) : rel (Coupling.refusing checked).piece f f :=
  List.forall₂_same.mpr fun _ _ => rfl

theorem eq_of_rel_refusing {f g : Fragment} (h : rel (Coupling.refusing checked).piece f g) :
    f = g :=
  (congrFun₂ List.forall₂_eq_eq_eq f g).mp h

/-- A refusal that may come in the second run alone. -/
theorem Parallel.refused {refused refused' : Prop} [Decidable refused] [Decidable refused']
    {f f' : Fault} {x y : Render α} (himp : refused → refused')
    (hf : refused' → ¬refused → f'.Refuses checked)
    (h : Parallel (.refusing checked) [] x y)
    (hx : ∀ n, ∃ a n', x n = .ok (a, n')) :
    Parallel (.refusing checked) [] (if refused then Render.fail f else x)
      (if refused' then Render.fail f' else y) := by
  by_cases hr : refused
  · rw [if_pos hr, if_pos (himp hr)]
    exact ⟨fun _ _ _ => trivial⟩
  · rw [if_neg hr]
    by_cases hr' : refused'
    · rw [if_pos hr']
      refine ⟨fun n m hc => ?_⟩
      obtain ⟨a, n', ha⟩ := hx n
      have hrun := h.run n m hc
      rw [ha] at hrun ⊢
      exact ⟨hrun.grows rfl, hf hr' hr⟩
    · rw [if_neg hr']
      exact h

end Render

namespace Stricter

variable {checked : Prop} {s s' : Settings} (h : Stricter checked s s')

include h

theorem within (es : Entries) : Stricter checked (s.within es) (s'.within es) :=
  ⟨by rw [h.settings]; rfl, h.checks, h.checked, h.limit⟩

theorem inlined : Stricter checked s.inlined s'.inlined :=
  ⟨by rw [h.settings]; rfl, h.checks, h.checked, h.limit⟩

theorem depth_eq : s'.depth = s.depth := by rw [h.settings]

theorem inner : Stricter checked s.inner s'.inner where
  settings := by rw [h.settings]; rfl
  checks := h.checks
  checked := h.checked
  limit := by
    have hlimit := h.limit
    simp only [Settings.inner]
    omega

theorem checkDepth :
    Parallel (.refusing checked) [] (checkDepth s.inner) (checkDepth s'.inner) := by
  have hlimit := h.limit
  have hdepth := h.depth_eq
  refine .refused (fun hr => ?_) (fun _ _ => trivial) (.pure rfl rfl) fun n => ⟨(), n, rfl⟩
  simp only [Settings.inner] at hr ⊢
  omega

theorem refuses_of_checks {p : Bool} (h' : (s'.checks && p) = true) (hnot : ¬(s.checks && p) = true) :
    checked := by
  obtain ⟨hc, hp⟩ := Bool.and_eq_true_iff.mp h'
  refine h.checked hc (Bool.eq_false_iff.mpr fun hs => hnot ?_)
  rw [hs, hp]
  rfl

theorem checks_and {p : Bool} (h' : (s.checks && p) = true) : (s'.checks && p) = true := by
  obtain ⟨hc, hp⟩ := Bool.and_eq_true_iff.mp h'
  rw [h.checks hc, hp]
  rfl

theorem emptySide (keyword : String) (f : Fragment) :
    Parallel (.refusing checked) [] (emptySide s keyword f) (emptySide s' keyword f) := by
  unfold Render.emptySide
  refine .refused h.checks (fun hc hnot => ?_) (.pure rfl (rel_refusing_refl _))
    fun n => ⟨_, n, rfl⟩
  exact h.checked hc (Bool.eq_false_iff.mpr hnot)

theorem guard (verb : String) (f : Fragment) :
    Parallel (.refusing checked) [] (guard s verb f) (guard s' verb f) := by
  have hstatement : s'.statement = s.statement := by rw [h.settings]
  unfold Render.guard
  rw [hstatement]
  exact .refused h.checks_and (fun hc hnot => h.refuses_of_checks hc hnot) (.pure rfl rfl)
    fun n => ⟨(), n, rfl⟩

theorem bind (v : Value) :
    Parallel (.refusing checked) [] (Render.bind s v) (Render.bind s' v) := by
  unfold Render.bind
  rw [h.settings]
  split
  · exact .literal rfl v
  · refine ⟨fun n m hc => ?_⟩
    subst hc
    exact ⟨extends_slot n v, rel_refusing_refl _, rfl⟩

theorem alike : Alike (.refusing checked) s s' where
  dialect := by rw [h.settings]
  clauses := by rw [h.settings]
  clauseOrder := by rw [h.settings]
  quoted := by rw [h.settings]
  quotedSnake := by rw [h.settings]
  nullTests := by rw [h.settings]
  bind := by
    rintro v _ rfl
    exact h.bind v
  param key := by
    have hparam : Render.param s' = Render.param s := by
      rw [h.settings]
      rfl
    rw [hparam]
    exact .refl _ _
  checkDepth := h.checkDepth
  emptySide keyword f f' hf := by
    obtain rfl := eq_of_rel_refusing hf
    exact h.emptySide keyword f
  guard verb f f' hf := by
    obtain rfl := eq_of_rel_refusing hf
    exact h.guard verb f

end Stricter

theorem Stricter.simulation (checked : Prop) :
    Simulation (.refusing checked) (Stricter checked) fun _ => True where
  alike h := h.alike
  operators h _ _ := by
    rw [h.settings]
    exact .refl _ _
  within es h := h.within es
  inner h := h.inner
  inlined h _ _ _ _ := h.inlined
  null := trivial
  element _ _ _ := trivial
  entry _ _ := trivial

section Fragment

variable {checked : Prop} {s s' : Settings} (h : Stricter checked s s') {data : Value}
  {r : Fragment × Nat}

include h

theorem Stricter.parallel (data : Value) :
    Parallel (.refusing checked) [] (fragment s data) (fragment s' data) :=
  ((Stricter.simulation checked).upTo _).fragmentBy h trivial

/-- Under stricter settings the rendering is the same or it is refused. -/
theorem Stricter.fragment (hr : fragment s data 0 = .ok r) :
    fragment s' data 0 = .ok r ∨ ∃ e, fragment s' data 0 = .error e ∧ e.Refuses checked := by
  have hrun := (h.parallel data).run 0 0 rfl
  rw [hr] at hrun
  rcases hg : SqlTree.fragment s' data 0 with e | ⟨g, m⟩ <;> rw [hg] at hrun
  · exact .inr ⟨e, rfl, hrun.2⟩
  · obtain ⟨-, hfg, hm⟩ := hrun
    obtain rfl : r = (g, m) := Prod.ext (eq_of_rel_refusing hfg) hm
    exact .inl rfl

/-- What passes strict settings passes all that are less strict. -/
theorem Stricter.fragment_of_ok (hr : SqlTree.fragment s' data 0 = .ok r) :
    SqlTree.fragment s data 0 = .ok r := by
  cases hf : SqlTree.fragment s data 0 with
  | ok r' =>
    obtain hr' | ⟨e, he, -⟩ := h.fragment hf
    · rw [← hr', hr]
    · rw [hr] at he
      cases he
  | error e =>
    have hrun := (h.parallel data).run 0 0 rfl
    rw [hf, hr] at hrun
    exact hrun.elim

end Fragment

namespace Options

/-- Options with these checks and this depth limit; without one the library's own holds. -/
def guarded (o : Options) (checking : Checking) (maxDepth : Option Int) : Options :=
  { o with checking := checking.word, maxDepth }

/-- The limit that an option of the caller stands for. -/
def limit (maxDepth : Option Int) : Int := maxDepth.getD Settings.defaultMaxDepth

end Options

theorem Checking.ofName_word (c : Checking) : Checking.ofName c.word = .ok c := by
  cases c <;> rfl

section Format

variable {registry : Registry} {o : Options} {data : Value} {out : Formatted} {c c' : Checking}
  {m m' : Option Int} {checked : Prop}

/-- The settings that options stand for, whatever their checks and their limit. -/
structure Grounds (registry : Registry) (o : Options) (s : Settings) : Prop where
  depth : s.depth = 0
  settings : ∀ c m, Settings.ofOptions registry (o.guarded c m) =
    .ok { s with checking := c, maxDepth := Options.limit m }

theorem Grounds.exists_of_ok (h : format registry (o.guarded c m) data = .ok out) :
    ∃ s, Grounds registry o s := by
  obtain ⟨s, -, -, hs, -⟩ := format_eq_ok_iff.mp h
  have hname := Checking.ofName_word
  unfold Settings.ofOptions at hs
  simp only [Options.guarded, hname] at hs
  cases hd : Dialect.ofName (o.dialect.getD "postgres") with
  | error e =>
    rw [hd] at hs
    cases hs
  | ok d =>
    rw [hd] at hs
    have hs := Except.ok.inj hs
    refine ⟨s, ⟨by rw [← hs], fun c m => ?_⟩⟩
    unfold Settings.ofOptions
    simp only [Options.guarded, hname, hd, ← hs]
    rfl

section Grounds

variable {s : Settings} (h : Grounds registry o s)

include h

theorem Grounds.format_eq_ok_iff : format registry (o.guarded c m) data = .ok out ↔
    ∃ r : Fragment × Nat,
      fragment { s with checking := c, maxDepth := Options.limit m } data 0 = .ok r ∧
        out = ⟨r.1.sql s.dialect s.numbered, r.1.values⟩ := by
  rw [SqlTree.format_eq_ok_iff, h.settings]
  constructor
  · rintro ⟨_, f, n, hs, hf, rfl⟩
    cases hs
    exact ⟨(f, n), hf, rfl⟩
  · rintro ⟨⟨f, n⟩, hf, rfl⟩
    exact ⟨_, f, n, rfl, hf, rfl⟩

theorem Grounds.format_eq_error {e : Fault}
    (he : fragment { s with checking := c, maxDepth := Options.limit m } data 0 = .error e) :
    format registry (o.guarded c m) data = .error e := by
  unfold format
  rw [h.settings]
  simp only [Bind.bind, Except.bind, StateT.run', he]
  rfl

end Grounds

/-- The second of two formattings of the same data refuses all that the first refuses. -/
structure StricterOptions (checked : Prop) (c c' : Checking) (m m' : Option Int) : Prop where
  checks : c ≠ .none → c' ≠ .none
  checked : c' ≠ .none → c = .none → checked
  limit : Options.limit m' ≤ max 0 (Options.limit m)

theorem Grounds.stricter {s : Settings} (h : Grounds registry o s)
    (ho : StricterOptions checked c c' m m') :
    Stricter checked { s with checking := c, maxDepth := Options.limit m }
      { s with checking := c', maxDepth := Options.limit m' } where
  settings := rfl
  checks := by simpa [Settings.checks] using ho.checks
  checked := by simpa [Settings.checks] using ho.checked
  limit := by simpa [h.depth] using ho.limit

theorem StricterOptions.format (ho : StricterOptions checked c c' m m')
    (h : format registry (o.guarded c m) data = .ok out) :
    SqlTree.format registry (o.guarded c' m') data = .ok out ∨
      ∃ e, SqlTree.format registry (o.guarded c' m') data = .error e ∧ e.Refuses checked := by
  obtain ⟨s, hs⟩ := Grounds.exists_of_ok h
  obtain ⟨r, hr, hout⟩ := hs.format_eq_ok_iff.mp h
  rcases (hs.stricter ho).fragment hr with hr' | ⟨e, he, hrefuses⟩
  · exact .inl (hs.format_eq_ok_iff.mpr ⟨r, hr', hout⟩)
  · exact .inr ⟨e, hs.format_eq_error he, hrefuses⟩

theorem StricterOptions.format_of_ok (ho : StricterOptions checked c c' m m')
    (h : SqlTree.format registry (o.guarded c' m') data = .ok out) :
    SqlTree.format registry (o.guarded c m) data = .ok out := by
  obtain ⟨s, hs⟩ := Grounds.exists_of_ok h
  obtain ⟨r, hr, hout⟩ := hs.format_eq_ok_iff.mp h
  exact hs.format_eq_ok_iff.mpr ⟨r, (hs.stricter ho).fragment_of_ok hr, hout⟩

theorem StricterOptions.smaller (h : Options.limit m' ≤ max 0 (Options.limit m)) :
    StricterOptions False .none .none m m' :=
  ⟨id, fun h => absurd rfl h, h⟩

theorem Fault.Refuses.tooDeep {e : Fault} (h : e.Refuses False) : e.kind = .tooDeep := by
  cases e <;> first | rfl | exact h.elim

/-- A formatting without checks that succeeds does so from some limit on, and below that the data
are too deep for the limit. A negative limit counts as zero. -/
theorem exists_threshold (h : format registry (o.guarded .none m) data = .ok out) :
    ∃ depth : Nat, ∀ m',
      (depth ≤ (Options.limit m').toNat →
        format registry (o.guarded .none m') data = .ok out) ∧
      ((Options.limit m').toNat < depth →
        ∃ e, format registry (o.guarded .none m') data = .error e ∧ e.kind = .tooDeep) := by
  classical
  have hlimit : ∀ n : Nat, Options.limit (some (n : Int)) = n := fun _ => rfl
  have hexists : ∃ n : Nat, format registry (o.guarded .none (some (n : Int))) data = .ok out :=
    ⟨(Options.limit m).toNat, (StricterOptions.smaller (by rw [hlimit]; omega)).format_of_ok h⟩
  refine ⟨Nat.find hexists, fun m' => ⟨fun hm => ?_, fun hm => ?_⟩⟩
  · exact (StricterOptions.smaller (by rw [hlimit]; omega)).format_of_ok (Nat.find_spec hexists)
  · have hsmaller : StricterOptions False .none .none (some (Nat.find hexists : Int)) m' :=
      .smaller (by rw [hlimit]; omega)
    rcases hsmaller.format (Nat.find_spec hexists) with hm' | ⟨e, he, hrefuses⟩
    · have hfloor := (StricterOptions.smaller (m := some ((Options.limit m').toNat : Int))
        (by rw [hlimit]; omega)).format_of_ok hm'
      exact absurd hfloor (Nat.find_min hexists hm)
    · exact ⟨e, he, hrefuses.tooDeep⟩

/-- Checks and limits only refuse. What passes them is formatted as it is without checks and under
any larger limit; what is formatted without checks is formatted in the same way under all checks
and limits that do not refuse it; and without checks there is one depth that decides. -/
theorem format_guarded (registry : Registry) (o : Options) (data : Value) :
    (∀ c m out, format registry (o.guarded c m) data = .ok out →
      ∀ m', Options.limit m ≤ Options.limit m' →
        format registry (o.guarded .none m') data = .ok out) ∧
    ∀ m out, format registry (o.guarded .none m) data = .ok out →
      (∀ c m', format registry (o.guarded c m') data = .ok out ∨
        ∃ e, format registry (o.guarded c m') data = .error e ∧ e.Refuses (c ≠ .none)) ∧
      ∃ depth : Nat, ∀ m',
        (depth ≤ (Options.limit m').toNat →
          format registry (o.guarded .none m') data = .ok out) ∧
        ((Options.limit m').toNat < depth →
          ∃ e, format registry (o.guarded .none m') data = .error e ∧ e.kind = .tooDeep) := by
  have hfree : ∀ {c m m' out}, format registry (o.guarded c m) data = .ok out →
      Options.limit m ≤ Options.limit m' →
        format registry (o.guarded .none m') data = .ok out := by
    intro c m m' out h hle
    have hstricter : StricterOptions True .none c m' m :=
      ⟨fun h => absurd rfl h, fun _ _ => trivial, by omega⟩
    exact hstricter.format_of_ok h
  refine ⟨fun c m out h m' => hfree h, fun m out h => ⟨fun c m' => ?_, exists_threshold h⟩⟩
  have hstricter : ∀ {n}, Options.limit m' ≤ Options.limit n →
      StricterOptions (c ≠ .none) .none c n m' :=
    fun hle => ⟨fun h => absurd rfl h, fun hc _ => hc, by omega⟩
  rcases Int.le_total (Options.limit m') (Options.limit m) with hle | hle
  · exact (hstricter hle).format h
  · exact (hstricter (Int.le_refl _)).format (hfree h hle)

section Samples

/-- A deletion under a condition that no value meets. -/
def emptyDeletion : Value :=
  .record [("delete-from", .text "t"), ("where", .list [.text "in", .text "a", .list []])]

def emptyDeletionText : Formatted := ⟨"DELETE FROM t WHERE a IN ()", []⟩

set_option maxRecDepth 10000 in
theorem guarded_emptyDeletion :
    format .standard (Options.guarded {} .none (some 2)) emptyDeletion = .ok emptyDeletionText ∧
      format .standard (Options.guarded {} .none none) emptyDeletion = .ok emptyDeletionText ∧
      (format .standard (Options.guarded {} .strict none) emptyDeletion = .ok emptyDeletionText ∨
        ∃ e, format .standard (Options.guarded {} .strict none) emptyDeletion = .error e ∧
          e.Refuses (Checking.strict ≠ .none)) ∧
      ∃ depth : Nat, 1 < depth ∧
        ∃ e, format .standard (Options.guarded {} .none (some 1)) emptyDeletion = .error e ∧
          e.kind = .tooDeep := by
  have h : format .standard (Options.guarded {} .none (some 2)) emptyDeletion =
      .ok emptyDeletionText := rfl
  have hguarded := format_guarded .standard {} emptyDeletion
  obtain ⟨hall, depth, hdepth⟩ := hguarded.2 _ _ h
  refine ⟨h, hguarded.1 _ _ _ h none (by decide), hall .strict none, depth, ?_⟩
  have hdeep : 1 < depth := by
    by_contra hle
    cases (hdepth (some 1)).1 (Nat.not_lt.mp hle)
  exact ⟨hdeep, (hdepth (some 1)).2 hdeep⟩

end Samples

end Format

end SqlTree
