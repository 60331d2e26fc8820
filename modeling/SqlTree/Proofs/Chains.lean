import SqlTree.Proofs.ClauseOrder
import SqlTree.Proofs.Parts
import SqlTree.Proofs.Refusals

/-!
Statements inside statements. The depth limit counts expressions, so it bounds how many statements
of a chain stand in the place of an expression; a clause that renders a statement itself, such as
`nest`, adds to the chain and not to the depth.
-/

namespace SqlTree

namespace Render

/-- How a rendering comes to a statement: through an expression, or from a clause, a call or the top
itself. -/
inductive Entry where
  | expression
  | directly
deriving DecidableEq

/-- The rendering of a statement, if the statements around it and the way into each are accepted.
The innermost comes first. -/
def entering (accepts : List Entry → Bool) (trail : List Entry) (x : Render Fragment) :
    Render Fragment :=
  if accepts trail then x else fail .unsupported

/-- The renderer of values that are at most `n` levels high inside the statements of `trail`. -/
def chained (accepts : List Entry → Bool) : Nat → List Entry → Renderer
  | 0, _ => ⟨fun _ _ _ => fail .unsupported, fun _ _ _ => fail .unsupported⟩
  | n + 1, trail => ⟨fun s => deeper (chained accepts n trail) s fun s es =>
        entering accepts (.expression :: trail)
          (statement (chained accepts n (.expression :: trail)) s true es),
      fun s nested es => entering accepts (.directly :: trail)
        (statement (chained accepts n (.directly :: trail)) s nested es)⟩

/-- Such a chain is no longer than the limit and those of its statements that are entered
directly. -/
def withinLimit (limit : Nat) (trail : List Entry) : Bool :=
  trail.length ≤ limit + trail.count .directly

theorem withinLimit_iff {limit : Nat} {trail : List Entry} :
    withinLimit limit trail = true ↔ trail.count .expression ≤ limit := by
  have hlength : trail.length = trail.count .expression + trail.count .directly := by
    induction trail with
    | nil => rfl
    | cons e trail ih =>
      rw [List.length_cons, List.count_cons, List.count_cons]
      cases e <;> simp only [BEq.rfl, beq_iff_eq, reduceCtorEq, if_true, if_false] <;> omega
  rw [withinLimit, decide_eq_true_eq, hlength]
  omega

/-- The settings of a rendering under a limit, inside statements of which `k` stand in the place of
an expression. -/
structure Reached (limit : Int) (k : Nat) (s s' : Settings) : Prop where
  settings : s' = s
  maxDepth : s.maxDepth = limit
  depth : k ≤ s.depth
  within : k ≤ limit.toNat

namespace Reached

variable {limit : Int} {k : Nat} {s s' : Settings} (h : Reached limit k s s')

include h

theorem inner : Reached limit k s.inner s'.inner where
  settings := by rw [h.settings]
  maxDepth := h.maxDepth
  depth := by
    have := h.depth
    simp only [Settings.inner]
    omega
  within := h.within

/-- An expression that passes the check is inside no more expressions than the limit allows. -/
theorem expression (hpass : ¬ s.inner.depth > s.inner.maxDepth) :
    Reached limit (k + 1) s.inner s'.inner where
  settings := h.inner.settings
  maxDepth := h.maxDepth
  depth := by
    have := h.depth
    simp only [Settings.inner]
    omega
  within := by
    have hdepth := h.depth
    have hlimit := h.maxDepth
    simp only [Settings.inner] at hpass
    omega

end Reached

theorem Reached.simulation (limit : Int) (k : Nat) :
    Simulation (.same False) (Reached limit k) fun _ => True where
  alike {s s'} h := by
    rw [h.settings]
    exact (Renumbered.simulation False .all).alike (.refl s)
  operators h _ _ := by
    rw [h.settings]
    exact .refl _ _
  within {s s'} es h := by
    obtain ⟨rfl, hm, hd, hw⟩ := h
    exact ⟨rfl, hm, hd, hw⟩
  inner h := h.inner
  inlined {s s' v head args form} h _ _ _ _ := by
    obtain ⟨rfl, hm, hd, hw⟩ := h
    exact ⟨rfl, hm, hd, hw⟩
  null := trivial
  element _ _ _ := trivial
  entry _ _ := trivial

theorem entering_of_accepts {accepts : List Entry → Bool} {trail : List Entry}
    (h : accepts trail = true) (x : Render Fragment) : entering accepts trail x = x :=
  if_pos h

theorem Parallel.deeper_of_pass {r r' : Renderer} {s : Settings}
    {stated stated' : Settings → Entries → Render Fragment} {nested : Bool} {v : Value}
    (h : ¬ s.inner.depth > s.inner.maxDepth →
      Parallel (.same False) [] (expression r s.inner stated nested v)
        (expression r' s.inner stated' nested v)) :
    Parallel (.same False) [] (deeper r s stated nested v) (deeper r' s stated' nested v) := by
  unfold deeper checkDepth
  by_cases hpass : s.inner.depth > s.inner.maxDepth
  · rw [if_pos hpass]
    exact .fail _
  · rw [if_neg hpass]
    exact h hpass

/-- The induction over the height of values: under a limit no chain is refused. -/
theorem Renderers.chained (limit : Int) (n : Nat) (trail : List Entry) :
    Renderers (.same False) (Reached limit (trail.count .expression)) (fun _ => True) (upTo n)
      (chained (withinLimit limit.toNat) n trail) := by
  induction n generalizing trail with
  | zero =>
    exact { Reached.simulation limit (trail.count .expression) with
      expr := fun _ _ _ => .fail _
      statement := fun _ _ _ => .fail _ }
  | succ n ih =>
    rw [upTo, Render.chained]
    refine ⟨Reached.simulation limit _, ?_, ?_⟩
    · intro s s' v nested hs _
      obtain rfl := hs.settings
      refine .deeper_of_pass fun hpass => ?_
      have hnext := hs.expression hpass
      have hcount : (Entry.expression :: trail).count .expression =
          trail.count .expression + 1 := List.count_cons_self
      refine (ih trail).expression hs.inner (fun es _ => ?_) nested trivial
      rw [entering_of_accepts (withinLimit_iff.mpr (hcount ▸ hnext.within))]
      exact (ih (.expression :: trail)).clauses (hcount ▸ hnext) true trivial
    · intro s s' es nested hs _
      have hcount : (Entry.directly :: trail).count .expression = trail.count .expression :=
        List.count_cons_of_ne (by decide)
      dsimp only
      rw [entering_of_accepts (withinLimit_iff.mpr (hcount ▸ hs.within))]
      exact (ih (.directly :: trail)).clauses (hcount ▸ hs) nested trivial

end Render

open Render

/-- All chains of statements that `format` renders one inside another are accepted: the rendering
succeeds although it refuses every statement at whose entry the chain is not. -/
def ChainsOnly (registry : Registry) (o : Options) (data : Value) (accepts : List Entry → Bool) :
    Prop :=
  ∃ s r, Settings.ofOptions registry o = .ok s ∧
    fragmentBy (chained accepts (data.height + 1) []) s data 0 = .ok r

theorem Settings.limit_of_ofOptions {registry : Registry} {o : Options} {s : Settings}
    (h : Settings.ofOptions registry o = .ok s) :
    s.depth = 0 ∧ s.maxDepth = Options.limit o.maxDepth := by
  unfold Settings.ofOptions at h
  cases hd : Dialect.ofName (o.dialect.getD "postgres") with
  | error e =>
    rw [hd] at h
    cases h
  | ok d =>
    cases hc : Checking.ofName o.checking with
    | error e =>
      rw [hd, hc] at h
      cases h
    | ok c =>
      rw [hd, hc] at h
      cases h
      exact ⟨rfl, rfl⟩

theorem chainsOnly_withinLimit {registry : Registry} {o : Options} {data : Value}
    {out : Formatted} (h : format registry o data = .ok out) :
    ChainsOnly registry o data (withinLimit (Options.limit o.maxDepth).toNat) := by
  obtain ⟨s, f, n, hs, hf, -⟩ := format_eq_ok_iff.mp h
  obtain ⟨hdepth, hmax⟩ := Settings.limit_of_ofOptions hs
  have hreached : Reached (Options.limit o.maxDepth) 0 s s :=
    ⟨rfl, hmax, by simp [hdepth], Nat.zero_le _⟩
  have hparallel : Parallel (.same False) [] (fragmentBy (upTo (data.height + 1)) s data)
      (fragmentBy (chained (withinLimit (Options.limit o.maxDepth).toNat) (data.height + 1) []) s
        data) :=
    (Renderers.chained (Options.limit o.maxDepth) (data.height + 1) []).fragmentBy hreached trivial
  have hrun := hparallel.run 0 0 rfl
  change fragmentBy (upTo (data.height + 1)) s data 0 = _ at hf
  rw [hf] at hrun
  rcases hg : fragmentBy (chained (withinLimit (Options.limit o.maxDepth).toNat) (data.height + 1) [])
      s data 0 with e | r <;> rw [hg] at hrun
  · exact hrun.2.elim
  · exact ⟨s, r, hs, hg⟩

section Nests

/-- A statement in `n` pairs of parentheses. -/
def nestedIn : Nat → Entries
  | 0 => [(.text "raw", .text "SELECT 1")]
  | n + 1 => [(.text "nest", .map (nestedIn n))]

variable {r : Renderer} {s : Settings} (hr : s.registry = .standard)
  (ho : s.clauseOrder = Clause.order)

include hr

theorem isClause_nestedIn (n : Nat) : s.isClause (.map (nestedIn n)) = true := by
  rw [Settings.isClause, hr]
  cases n <;> rfl

theorem checkKeys_nestedIn (n : Nat) : checkKeys s (nestedIn n) = .ok () := by
  rw [checkKeys, hr]
  cases n <;> rfl

include ho

theorem statement_nestedIn_zero (nested : Bool) :
    statement r s nested (nestedIn 0) =
      pure (Fragment.parensIf nested (Fragment.ofText "SELECT 1")) := by
  rw [statement_eq_present (checkKeys_nestedIn hr 0), hr, ho]
  rfl

theorem statement_nestedIn_succ (nested : Bool) (n : Nat) :
    statement r s nested (nestedIn (n + 1)) = do
      let f ← r.statement (s.within (nestedIn (n + 1))) true (nestedIn n)
      return Fragment.parensIf nested
        (Fragment.joined " " ([f].filter fun f => !f.isBlank)) := by
  have hpresent : present .standard Clause.order (nestedIn (n + 1)) =
      [⟨"nest", .nested, .map (nestedIn n)⟩] := rfl
  have hclause : clause r (s.within (nestedIn (n + 1))) .nested "nest" (.map (nestedIn n)) =
      r.statement (s.within (nestedIn (n + 1))) true (nestedIn n) := by
    change (if Settings.isClause _ _ then _ else _) = _
    exact if_pos (isClause_nestedIn hr n)
  rw [statement_eq_present (checkKeys_nestedIn hr (n + 1)), hr, ho, hpresent, List.mapM_cons]
  rw [Present.text, hclause]
  simp only [List.mapM_nil, bind_assoc, pure_bind]

theorem statement_nestedIn (nested : Bool) {n k : Nat} (hn : n ≤ k) :
    ∃ f, statement (upTo k) s nested (nestedIn n) = pure f := by
  induction n generalizing s nested k with
  | zero => exact ⟨_, statement_nestedIn_zero hr ho nested⟩
  | succ n ih =>
    obtain ⟨k, rfl⟩ := Nat.exists_eq_add_of_le' (Nat.one_le_of_lt hn)
    obtain ⟨f, hf⟩ := ih (s := s.within (nestedIn (n + 1))) hr ho true (Nat.le_of_succ_le_succ hn)
    rw [statement_nestedIn_succ hr ho]
    change ∃ g, (statement (upTo k) _ true (nestedIn n) >>= _) = _
    rw [hf, pure_bind]
    exact ⟨_, rfl⟩

/-- The chain of the `n + 1` statements is refused where the length of a chain is bounded. -/
theorem chained_nestedIn (nested : Bool) (trail : List Entry) {bound n k : Nat}
    (hn : bound ≤ trail.length + n) (c : Nat) :
    ∃ e, (chained (fun t => t.length ≤ bound) k trail).statement s nested (nestedIn n) c =
      .error e := by
  induction n generalizing s nested k trail with
  | zero =>
    cases k with
    | zero => exact ⟨_, rfl⟩
    | succ k =>
      refine ⟨.unsupported, ?_⟩
      rw [chained]
      exact congrFun (if_neg (by simp; omega)) c
  | succ n ih =>
    cases k with
    | zero => exact ⟨_, rfl⟩
    | succ k =>
      obtain ⟨e, he⟩ := ih (s := s.within (nestedIn (n + 1))) hr ho true
        (.directly :: trail) (k := k) (by rw [List.length_cons]; omega)
      rw [chained]
      dsimp only [entering]
      split
      · rw [statement_nestedIn_succ hr ho]
        exact ⟨e, bind_of_error he⟩
      · exact ⟨_, rfl⟩

omit hr ho

theorem le_height_nestedIn (n : Nat) : n ≤ (Value.map (nestedIn n)).height := by
  induction n with
  | zero => exact Nat.zero_le _
  | succ n ih =>
    have hlt : (Value.map (nestedIn n)).height < (Value.map (nestedIn (n + 1))).height :=
      Value.height_lt_of_entry (e := (.text "nest", .map (nestedIn n))) (by simp [nestedIn])
    omega

theorem isStatement_nestedIn (n : Nat) : isStatement (nestedIn n) = true := by
  cases n <;> rfl

theorem fragmentBy_nestedIn (r : Renderer) (s : Settings) (n : Nat) :
    fragmentBy r s (.map (nestedIn n)) = r.statement s false (nestedIn n) :=
  if_pos (isStatement_nestedIn n)

/-- The options under which no expression may stand inside another one. -/
def flat : Options := { maxDepth := some 0 }

theorem flat_settings :
    ∃ s, Settings.ofOptions .standard flat = .ok s ∧ s.registry = .standard ∧
      s.clauseOrder = Clause.order :=
  ⟨_, rfl, rfl, rfl⟩

theorem exists_format_nestedIn (n : Nat) :
    ∃ out, format .standard flat (.map (nestedIn n)) = .ok out := by
  obtain ⟨s, hs, hr, ho⟩ := flat_settings
  obtain ⟨f, hf⟩ := statement_nestedIn hr ho false (le_height_nestedIn n)
  refine ⟨_, format_eq_ok_iff.mpr ⟨s, f, 0, hs, ?_, rfl⟩⟩
  rw [fragment, fragmentBy_nestedIn]
  exact congrFun hf 0

theorem not_chainsOnly_nestedIn {n bound : Nat} (h : bound ≤ n) :
    ¬ ChainsOnly .standard flat (.map (nestedIn n)) fun trail => trail.length ≤ bound := by
  rintro ⟨s', r, hs', hrun⟩
  obtain ⟨s, hs, hr, ho⟩ := flat_settings
  obtain rfl : s = s' := Except.ok.inj (hs.symm.trans hs')
  obtain ⟨e, he⟩ := chained_nestedIn hr ho false [] (n := n) (by simpa using h) 0
  rw [fragmentBy_nestedIn, he] at hrun
  cases hrun

/-- Under a limit a chain of statements is no longer than the limit and its directly entered
statements together, the outermost included; these alone no limit bounds. -/
theorem chains_bounded {registry : Registry} {o : Options} {data : Value} {out : Formatted}
    (h : format registry o data = .ok out) (n : Nat) :
    ChainsOnly registry o data (withinLimit (Options.limit o.maxDepth).toNat) ∧
    (∃ out, format .standard flat (.map (nestedIn n)) = .ok out) ∧
      ¬ ChainsOnly .standard flat (.map (nestedIn n)) fun trail => trail.length ≤ n :=
  ⟨chainsOnly_withinLimit h, exists_format_nestedIn n, not_chainsOnly_nestedIn (Nat.le_refl n)⟩

/-- `SELECT (SELECT a)` -/
def selectInSelect : Value :=
  .map [(.text "select", .list [.map [(.text "select", .list [.text "a"])]])]

set_option maxRecDepth 10000 in
theorem chains_bounded_selectInSelect :
    format .standard { maxDepth := some 2 } selectInSelect = .ok ⟨"SELECT (SELECT a)", []⟩ ∧
      ChainsOnly .standard { maxDepth := some 2 } selectInSelect (withinLimit 2) :=
  ⟨rfl, (chains_bounded (rfl :
    format .standard { maxDepth := some 2 } selectInSelect = .ok ⟨"SELECT (SELECT a)", []⟩) 0).1⟩

set_option maxRecDepth 10000 in
/-- Four statements, one inside another, where the limit is for a chain of one. -/
theorem nest_exceeds_limit :
    format .standard flat (.map (nestedIn 3)) = .ok ⟨"(((SELECT 1)))", []⟩ ∧
      ¬ ChainsOnly .standard flat (.map (nestedIn 3)) fun trail => trail.length ≤ 0 + 1 :=
  ⟨rfl, not_chainsOnly_nestedIn (by decide)⟩

end Nests

end SqlTree
