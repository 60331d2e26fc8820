import SqlTree.Proofs.Coupling.Same

/-!
The places of values in rendered SQL. The stretches of text between them do not depend on how a
place is written, and the places are numbered from one in the order of the text.
-/

namespace SqlTree

open Render Render.Traced

/-- A text, and then by turns one of `ps` and one of `ts`. -/
def woven (t : String) (ts ps : List String) : String :=
  t ++ String.join (List.zipWith (· ++ ·) ps ts)

theorem woven_append (t u : String) (us ps : List String) :
    woven (t ++ u) us ps = t ++ woven u us ps := by
  simp [woven, String.append_assoc]

theorem woven_cons (t u p : String) (us ps : List String) :
    woven t (u :: us) (p :: ps) = t ++ (p ++ woven u us ps) := by
  simp [woven, String.append_assoc]

namespace Fragment

theorem sql_cons (d : Dialect) (numbered : Bool) (p : Piece) (f : Fragment) :
    sql d numbered (p :: f) = p.sql d numbered ++ sql d numbered f := by
  simp [sql]

/-- What is written in front of the places of a fragment, and behind each of them. -/
def stretches : Fragment → String × List String
  | [] => ("", [])
  | .text t :: f => (t ++ (stretches f).1, (stretches f).2)
  | .literal t :: f => (t ++ (stretches f).1, (stretches f).2)
  | .slot _ _ :: f => ("", (stretches f).1 :: (stretches f).2)

theorem length_stretches (f : Fragment) : (stretches f).2.length = (slots f).length := by
  fun_induction stretches f <;> simp_all

theorem values_eq_slots (f : Fragment) : f.values = (slots f).map (·.2) := by
  induction f with
  | nil => rfl
  | cons p f ih =>
    cases p with
    | slot _ v => exact congrArg (v :: ·) ih
    | _ => exact ih

theorem sql_eq_woven (d : Dialect) (numbered : Bool) (f : Fragment) :
    f.sql d numbered =
      woven (stretches f).1 (stretches f).2
        ((slots f).map fun p => d.placeholder p.1 numbered) := by
  fun_induction stretches f with
  | case1 => rfl
  | case2 t f ih => rw [sql_cons, woven_append, ih]; rfl
  | case3 t f ih => rw [sql_cons, woven_append, ih]; rfl
  | case4 i v f ih =>
    rw [slots_cons, slots_slot, List.singleton_append, List.map_cons, woven_cons, sql_cons, ih,
      String.empty_append]
    rfl

end Fragment

namespace Render

theorem fragment_renumbered (s : Settings) (numbered : Bool) (data : Value) :
    Parallel (.same False) [] (fragment s data) (fragment { s with numbered } data) :=
  ((Renumbered.simulation False .all).upTo _).fragmentBy ⟨numbered, rfl⟩ trivial

/-- The places of a rendering are numbered from one in the order of the text. -/
theorem fragment_slots {s : Settings} {data : Value} {f : Fragment} {n : Nat}
    (h : fragment s data 0 = .ok (f, n)) :
    (slots f).map (·.1) = List.range' 1 (slots f).length ∧ n = (slots f).length := by
  have hrun := (fragment_renumbered s s.numbered data).run 0 0 rfl
  obtain ⟨new, hs, hi, hn⟩ := hrun.grows h
  simp only [List.nil_append, Nat.zero_add] at hs hi hn
  exact ⟨hs ▸ hi, hs ▸ hn⟩

theorem fragment_eq_of_renumbered {s : Settings} {data : Value} {r : Fragment × Nat}
    (h : fragment s data 0 = .ok r) (numbered : Bool) :
    fragment { s with numbered } data 0 = .ok r := by
  have hrun := (fragment_renumbered s numbered data).run 0 0 rfl
  rw [h] at hrun
  rcases hg : fragment { s with numbered } data 0 with e | ⟨g, m⟩ <;> rw [hg] at hrun
  · exact hrun.2.elim
  · obtain ⟨-, hfg, hm⟩ := hrun
    obtain rfl : r = (g, m) := Prod.ext (eq_of_rel_same hfg) hm
    rfl

end Render

theorem Settings.ofOptions_keeps {registry : Registry} {o : Options} {s : Settings}
    (h : Settings.ofOptions registry o = .ok s) :
    s.registry = registry ∧ s.inline = o.inline ∧
      s.clauseOrder = s.dialect.clauseOrder registry.clauseOrder := by
  unfold Settings.ofOptions at h
  cases hd : Dialect.ofName (o.dialect.getD "postgres") <;>
    cases hc : Checking.ofName o.checking <;> rw [hd, hc] at h <;> cases h
  exact ⟨rfl, rfl, rfl⟩

theorem Settings.ofOptions_numbered (registry : Registry) (o : Options) (numbered : Bool) :
    Settings.ofOptions registry { o with numbered := some numbered } =
      (Settings.ofOptions registry o).map ({ · with numbered }) := by
  unfold Settings.ofOptions
  cases Dialect.ofName (o.dialect.getD "postgres") with
  | error e => rfl
  | ok d => cases Checking.ofName o.checking <;> rfl

theorem format_eq_ok_iff {registry : Registry} {o : Options} {data : Value} {out : Formatted} :
    format registry o data = .ok out ↔
      ∃ s f n, Settings.ofOptions registry o = .ok s ∧ fragment s data 0 = .ok (f, n) ∧
        out = ⟨f.sql s.dialect s.numbered, f.values⟩ := by
  unfold format
  cases Settings.ofOptions registry o with
  | error e => simp [Bind.bind, Except.bind]
  | ok s =>
    cases hf : fragment s data 0 with
    | error e => simp [Bind.bind, Except.bind, StateT.run', hf, Functor.map, Except.map]
    | ok r =>
      obtain ⟨f, n⟩ := r
      simp [Bind.bind, Except.bind, StateT.run', hf, Functor.map, Except.map, Pure.pure,
        Except.pure, eq_comm]

/-- Numbered and positional placeholders stand in the same gaps of the same text, and are for the
same values. -/
theorem format_positional_of_numbered {registry : Registry} {o : Options} {data : Value}
    {out : Formatted} (h : format registry { o with numbered := some true } data = .ok out) :
    ∃ t ts, ts.length = out.params.length ∧
      out.sql = woven t ts
        ((List.range' 1 out.params.length).map fun k => "$" ++ toString k) ∧
      format registry { o with numbered := some false } data =
        .ok ⟨woven t ts (List.replicate out.params.length "?"), out.params⟩ := by
  obtain ⟨s', f, n, hs', hf, rfl⟩ := format_eq_ok_iff.mp h
  rw [Settings.ofOptions_numbered] at hs'
  obtain ⟨s, hs, rfl⟩ : ∃ s, Settings.ofOptions registry o = .ok s ∧
      { s with numbered := true } = s' := by
    cases hs : Settings.ofOptions registry o <;> simp_all [Except.map]
  have hlength : f.values.length = (Traced.slots f).length := by simp [Fragment.values_eq_slots]
  refine ⟨f.stretches.1, f.stretches.2, ?_, ?_, ?_⟩
  · rw [hlength, f.length_stretches]
  · have hnumbers := (fragment_slots hf).1
    rw [hlength, ← hnumbers, List.map_map]
    exact f.sql_eq_woven s.dialect true
  · have hg := fragment_eq_of_renumbered hf false
    refine format_eq_ok_iff.mpr ⟨{ s with numbered := false }, f, n, ?_, hg, ?_⟩
    · rw [Settings.ofOptions_numbered, hs]
      rfl
    · rw [hlength, ← List.map_const']
      exact congrArg (Formatted.mk · f.values) (f.sql_eq_woven s.dialect false).symm

theorem positional_of_numbered_equality :
    format .base { numbered := some true } (.list [.text "=", .text "a", .int 1]) =
        .ok ⟨"a = $1", [.int 1]⟩ ∧
      ∃ t ts, ts.length = 1 ∧ "a = $1" = woven t ts ["$1"] ∧
        format .base { numbered := some false } (.list [.text "=", .text "a", .int 1]) =
          .ok ⟨woven t ts ["?"], [.int 1]⟩ := by
  have h : format .base { numbered := some true } (.list [.text "=", .text "a", .int 1]) =
      .ok ⟨"a = $1", [.int 1]⟩ := rfl
  exact ⟨h, @format_positional_of_numbered .base {} _ _ h⟩

end SqlTree
