import SqlTree.Proofs.Placeholders

/-!
Which statements a rendering goes through. A watched renderer refuses the statements that a check
turns down; that it comes to an end says that every statement on its way passes the check.
-/

namespace SqlTree

namespace Render

def refusing (check : Entries → Bool) (es : Entries) (x : Render Fragment) : Render Fragment :=
  if check es then x else fail .unsupported

/-- The renderer of values that are at most `n` levels high, for statements that pass `check`. -/
def watched (check : Entries → Bool) : Nat → Renderer
  | 0 => ⟨fun _ _ _ => fail .unsupported, fun _ _ _ => fail .unsupported⟩
  | n + 1 => ⟨fun s => deeper (watched check n) s fun s es =>
        refusing check es (statement (watched check n) s true es),
      fun s nested es => refusing check es (statement (watched check n) s nested es)⟩

theorem watched_true (n : Nat) : watched (fun _ => true) n = upTo n := by
  induction n with
  | zero => rfl
  | succ n ih =>
    rw [watched, upTo, ih]
    rfl

theorem Parallel.right_fails {x y : Render Fragment} (h : Parallel (.same True) [] x y)
    (f : Fault) : Parallel (.same True) [] x (Render.fail f) := by
  refine ⟨fun n m hc => ?_⟩
  have hrun := h.run n m hc
  rcases hx : x n with e | ⟨a, n'⟩
  · trivial
  · exact ⟨hrun.grows hx, trivial⟩

section Checks

variable {check strict : Entries → Bool} {D : Value → Prop} (hD : Hereditary D)
  (hcheck : ∀ es, D (.map es) → strict es = true → check es = true)

include hcheck in
theorem Parallel.refusing {es : Entries} (hes : D (.map es)) {x y : Render Fragment}
    (h : Parallel (.same True) [] x y) :
    Parallel (.same True) [] (refusing check es x) (refusing strict es y) := by
  unfold Render.refusing
  by_cases hs : strict es = true
  · rw [if_pos hs, if_pos (hcheck es hes hs)]
    exact h
  · rw [if_neg hs]
    split
    · exact h.right_fails _
    · exact .fail _

include hD hcheck in
/-- A check that lets more pass, if only on the data at hand, comes to no other result. -/
theorem Renderers.watched (n : Nat) :
    Renderers (.same True) Renumbered D (watched check n) (watched strict n) := by
  have sim := Renumbered.simulation True hD
  induction n with
  | zero =>
    exact { sim with
      expr := fun _ _ _ => .fail _
      statement := fun _ _ _ => .fail _ }
  | succ n ih =>
    have hst : ∀ {s s' es}, Renumbered s s' → D (.map es) → Parallel (.same True) []
        (Render.refusing check es (Render.statement (Render.watched check n) s true es))
        (Render.refusing strict es (Render.statement (Render.watched strict n) s' true es)) :=
      fun hs hes => .refusing hcheck hes (ih.clauses hs true hes)
    rw [Render.watched, Render.watched]
    constructor
    · exact sim
    · intro s s' v nested hs hv
      exact ih.deeper hs hst nested hv
    · intro s s' es nested hs hes
      exact .refusing hcheck hes (ih.clauses hs nested hes)

include hD hcheck in
theorem fragmentBy_watched {n : Nat} {s : Settings} {data : Value} {r : Fragment × Nat}
    (hdata : D data) (h : fragmentBy (watched strict n) s data 0 = .ok r) :
    fragmentBy (watched check n) s data 0 = .ok r := by
  have hrun := ((Renderers.watched hD hcheck n).fragmentBy (Renumbered.refl s) hdata).run 0 0 rfl
  rw [h] at hrun
  rcases hf : fragmentBy (watched check n) s data 0 with e | ⟨f, m⟩ <;> rw [hf] at hrun
  · exact hrun.elim
  · obtain ⟨-, hfg, hm⟩ := hrun
    obtain rfl : (f, m) = r := Prod.ext (eq_of_rel_same hfg) hm
    rfl

end Checks

end Render

open Render

/-- Every clause map that `format` renders as a statement, at whatever depth, is accepted: the
rendering succeeds although statements are refused unless a sound check lets them pass. -/
def RendersOnly (registry : Registry) (o : Options) (data : Value) (accepts : Entries → Prop) :
    Prop :=
  ∃ check : Entries → Bool, (∀ es, check es = true → accepts es) ∧
    ∃ s r, Settings.ofOptions registry o = .ok s ∧
      fragmentBy (watched check (data.height + 1)) s data 0 = .ok r

section

variable {registry : Registry} {o : Options} {data : Value} {accepts accepts' : Entries → Prop}

/-- On data whose parts are all of a kind, what is accepted matters only for that kind. -/
theorem RendersOnly.mono_on {D : Value → Prop} (hD : Hereditary D) (hdata : D data)
    (haccepts : ∀ es, D (.map es) → accepts es → accepts' es)
    (h : RendersOnly registry o data accepts) : RendersOnly registry o data accepts' := by
  classical
  obtain ⟨check, hsound, s, r, hs, hr⟩ := h
  refine ⟨fun es => decide (accepts' es), fun es => of_decide_eq_true, s, r, hs, ?_⟩
  exact fragmentBy_watched hD (fun es hes hc => decide_eq_true (haccepts es hes (hsound es hc)))
    hdata hr

theorem RendersOnly.mono (haccepts : ∀ es, accepts es → accepts' es)
    (h : RendersOnly registry o data accepts) : RendersOnly registry o data accepts' :=
  h.mono_on .all trivial fun es _ => haccepts es

/-- A check that lets all accepted statements pass stops nothing. -/
theorem RendersOnly.passes {check : Entries → Bool} (hcheck : ∀ es, accepts es → check es = true)
    (h : RendersOnly registry o data accepts) :
    ∃ s r, Settings.ofOptions registry o = .ok s ∧
      fragmentBy (watched check (data.height + 1)) s data 0 = .ok r := by
  obtain ⟨strict, hsound, s, r, hs, hr⟩ := h
  exact ⟨s, r, hs, fragmentBy_watched .all (fun es _ hes => hcheck es (hsound es hes)) trivial hr⟩

theorem rendersOnly_true_iff :
    RendersOnly registry o data (fun _ => True) ↔ ∃ out, format registry o data = .ok out := by
  constructor
  · intro h
    obtain ⟨s, r, hs, hr⟩ := @RendersOnly.passes _ _ _ _ (fun _ => true) (fun _ _ => rfl) h
    rw [watched_true] at hr
    exact ⟨_, format_eq_ok_iff.mpr ⟨s, r.1, r.2, hs, hr, rfl⟩⟩
  · rintro ⟨out, h⟩
    obtain ⟨s, f, n, hs, hf, -⟩ := format_eq_ok_iff.mp h
    refine ⟨fun _ => true, fun _ _ => trivial, s, (f, n), hs, ?_⟩
    rw [watched_true]
    exact hf

end

end SqlTree
