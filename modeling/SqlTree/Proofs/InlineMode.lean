import SqlTree.Proofs.Placeholders

/-!
Rendering without placeholders. Wherever a value would be bound its literal is written, and nothing
else changes; a literal is never blank, so no clause is left out that would stand with a
placeholder.
-/

namespace SqlTree

open Render Render.Traced

section Literals

theorem Number.layout_ne_nil (d : Number.Decimal) : Number.layout d ≠ [] := by
  unfold Number.layout
  dsimp only
  split
  · split <;> simp
  · simp

theorem Number.Binary64.text_ne_empty (x : Number.Binary64) : x.text ≠ "" := by
  cases x with
  | nan => simp [Number.Binary64.text]
  | infinite negative => cases negative <;> simp [Number.Binary64.text]
  | finite negative m q =>
    cases negative <;> by_cases hm : m = 0 <;>
      simp [Number.Binary64.text, hm, Number.layout_ne_nil]

theorem Dialect.stringLiteral_ne_empty (d : Dialect) (s : String) : d.stringLiteral s ≠ "" := by
  simp [Dialect.stringLiteral, Text.enclosed]

theorem Dialect.bytesLiteral_ne_empty (d : Dialect) (bs : List UInt8) : d.bytesLiteral bs ≠ "" := by
  cases d <;> simp [Dialect.bytesLiteral]

theorem Literal.arrayText_ne_empty {e : Except Fault (List String)} {t : String}
    (h : (do return "ARRAY[" ++ ", ".intercalate (← e) ++ "]" : Except Fault String) = .ok t) :
    t ≠ "" := by
  cases e with
  | error f => cases h
  | ok ts =>
    cases h
    simp

theorem Literal.render_ne_empty {d : Dialect} {v : Value} {t : String}
    (h : Literal.render d v = .ok t) : t ≠ "" := by
  cases v <;> simp only [Literal.render] at h
  case list => exact Literal.arrayText_ne_empty h
  case tuple => exact Literal.arrayText_ne_empty h
  case map =>
    split at h
    · cases h
      exact d.stringLiteral_ne_empty _
    · cases h
  all_goals cases h
  case bool.refl b => cases b <;> simp
  case int.refl n => cases n <;> simp [toString, Int.repr, Nat.repr_ne_empty]
  case real.refl x => exact x.text_ne_empty
  case decimal.refl x => exact x.nonempty
  case null.refl => simp
  case bytes.refl bs => exact d.bytesLiteral_ne_empty bs
  case buffer.refl bs => exact d.bytesLiteral_ne_empty bs
  all_goals exact d.stringLiteral_ne_empty _

end Literals

namespace Render

variable {d : Dialect}

/-- A place against the literal of its value. A value without a literal keeps its place, which no
rendering of literals has. -/
inductive Inlined (d : Dialect) : Piece → Piece → Prop
  | text (t : String) : Inlined d (.text t) (.text t)
  | literal (t : String) : Inlined d (.literal t) (.literal t)
  | written {i : Nat} {v : Value} {t : String} :
      Literal.render d v = .ok t → Inlined d (.slot i v) (.literal t)
  | stuck {i : Nat} {v : Value} :
      (∀ t, Literal.render d v ≠ .ok t) → Inlined d (.slot i v) (.slot i v)

theorem Inlined.isBlank_eq {p q : Piece} (h : Inlined d p q) : p.isBlank = q.isBlank := by
  cases h with
  | written ht => simpa [Piece.isBlank] using (Literal.render_ne_empty ht).symm
  | _ => rfl

theorem Inlined.exists (d : Dialect) (p : Piece) : ∃ q, Inlined d p q := by
  cases p with
  | text t => exact ⟨_, .text t⟩
  | literal t => exact ⟨_, .literal t⟩
  | slot i v =>
    by_cases h : ∃ t, Literal.render d v = .ok t
    · exact ⟨_, .written h.choose_spec⟩
    · exact ⟨_, .stuck fun t ht => h ⟨t, ht⟩⟩

/-- The second rendering writes literals and binds nothing; it may fail on a value without one. -/
def Coupling.inlining (d : Dialect) : Coupling where
  piece := Inlined d
  value := Eq
  count _ m := m = 0
  excused _ ss := ∃ p ∈ ss, ∀ t, Literal.render d p.2 ≠ .ok t
  fault _ _ := True
  piece_text := .text
  piece_literal := .literal
  piece_isBlank := Inlined.isBlank_eq
  exists_piece := Inlined.exists d
  value_refl _ := rfl
  exists_count _ := ⟨0, rfl⟩
  excused_mono := fun ⟨p, hp, h⟩ hs => ⟨p, hs hp, h⟩
  fault_refl _ := trivial
  fault_of_excused _ _ := trivial

theorem literal_of_ok {s : Settings} {v : Value} {t : String}
    (h : Literal.render s.dialect v = .ok t) : literal s v = pure [.literal t] := by
  unfold literal
  rw [h]
  rfl

theorem literal_of_error {s : Settings} {v : Value} {e : Fault}
    (h : Literal.render s.dialect v = .error e) : literal s v = fail e := by
  unfold literal
  rw [h]
  rfl

theorem Inlined.bind (s : Settings) (v : Value) :
    Parallel (.inlining s.dialect) [] (bind s v) (bind s.inlined v) := by
  by_cases hs : s.inline = true
  · have hinlined : s.inlined = s := by
      cases s
      simp_all [Settings.inlined]
    rw [hinlined]
    unfold Render.bind
    rw [if_pos hs]
    exact .literal rfl v
  · refine ⟨fun n m hm => ?_⟩
    have hslot : Render.bind s v n = .ok ([.slot (n + 1) v], n + 1) := by
      simp only [Render.bind, hs]
      rfl
    have hliteral : Render.bind s.inlined v = Render.literal s v := rfl
    rw [hslot, hliteral]
    cases ht : Literal.render s.dialect v with
    | error e =>
      rw [literal_of_error ht]
      exact ⟨extends_slot n v, (n + 1, v), by simp, by simp [ht]⟩
    | ok t =>
      rw [literal_of_ok ht]
      exact ⟨extends_slot n v, .cons (.written ht) .nil, hm⟩

theorem Inlined.simulation (d : Dialect) :
    Simulation (.inlining d) (fun s s' => s.dialect = d ∧ s' = s.inlined) fun _ => True where
  alike := by
    rintro s _ ⟨rfl, rfl⟩
    refine .of_modes (fun _ _ => trivial) ?_
    rintro v _ rfl
    exact Inlined.bind s v
  operators := by
    rintro s _ v head args ⟨rfl, rfl⟩ - -
    exact .refl _ _
  within := by
    rintro s _ es ⟨rfl, rfl⟩
    exact ⟨rfl, rfl⟩
  inner := by
    rintro s _ ⟨rfl, rfl⟩
    exact ⟨rfl, rfl⟩
  inlined := by
    rintro s _ _ _ _ _ ⟨rfl, rfl⟩ - - - -
    exact ⟨rfl, rfl⟩
  null := trivial
  element _ _ _ := trivial
  entry _ _ := trivial

theorem fragment_inlined (s : Settings) (data : Value) :
    Parallel (.inlining s.dialect) [] (fragment s data) (fragment s.inlined data) :=
  ((Inlined.simulation s.dialect).upTo _).fragmentBy ⟨rfl, rfl⟩ trivial

/-- A rendering of literals has no places. -/
theorem slots_of_inlined {s : Settings} {data : Value} {g : Fragment} {m : Nat}
    (h : fragment s.inlined data 0 = .ok (g, m)) : slots g = [] := by
  have hrun := (fragment_inlined s.inlined data).run 0 0 rfl
  rw [show s.inlined.inlined = s.inlined from rfl, h] at hrun
  obtain ⟨⟨new, hnew, -, hm⟩, -, hzero⟩ := hrun
  have hlength : new.length = 0 := by
    have : m = 0 := hzero
    omega
  rw [hnew, List.length_eq_zero_iff.mp hlength]
  rfl

theorem Inlined.woven_literals {f g : Fragment} (h : rel (Inlined d) f g) (hg : slots g = []) :
    ∃ ls, f.values.mapM (Literal.render d) = .ok ls ∧
      ∀ numbered, g.sql d numbered = woven f.stretches.1 f.stretches.2 ls := by
  induction h with
  | nil => exact ⟨[], rfl, fun _ => rfl⟩
  | @cons p q f g hpq hfg ih =>
    simp only [slots_cons, List.append_eq_nil_iff] at hg
    obtain ⟨ls, hls, hsql⟩ := ih hg.2
    simp only [Fragment.sql_cons, hsql]
    cases hpq with
    | text t => exact ⟨ls, hls, fun _ => (woven_append t _ _ ls).symm⟩
    | literal t => exact ⟨ls, hls, fun _ => (woven_append t _ _ ls).symm⟩
    | @written i v t ht =>
      refine ⟨t :: ls, ?_, fun numbered => ?_⟩
      · have hvalues : Fragment.values (.slot i v :: f) = v :: Fragment.values f := rfl
        rw [hvalues, List.mapM_cons, ht, hls]
        rfl
      · rw [Fragment.stretches, woven_cons, String.empty_append]
        rfl
    | stuck => simp at hg

theorem renders_of_mapM {vs : List Value} {ls : List String}
    (h : vs.mapM (Literal.render d) = .ok ls) :
    ∀ v ∈ vs, ∃ l, Literal.render d v = .ok l := by
  induction vs generalizing ls with
  | nil => simp
  | cons v vs ih =>
    rw [List.mapM_cons] at h
    cases hv : Literal.render d v with
    | error e => simp [hv, Bind.bind, Except.bind] at h
    | ok l =>
      cases hvs : vs.mapM (Literal.render d) with
      | error e => simp [hv, hvs, Bind.bind, Except.bind] at h
      | ok ls => simpa [hv] using ih hvs

end Render

theorem Settings.ofOptions_inline (registry : Registry) (o : Options) (inline : Bool) :
    Settings.ofOptions registry { o with inline } =
      (Settings.ofOptions registry o).map ({ · with inline }) := by
  unfold Settings.ofOptions
  cases Dialect.ofName (o.dialect.getD "postgres") with
  | error e => rfl
  | ok d => cases Checking.ofName o.checking <;> rfl

theorem Settings.of_ofOptions {registry : Registry} {o : Options} {s : Settings}
    (h : Settings.ofOptions registry o = .ok s) :
    Dialect.ofName (o.dialect.getD "postgres") = .ok s.dialect ∧
      s.numbered = o.numbered.getD s.dialect.numberedByDefault := by
  unfold Settings.ofOptions at h
  cases hd : Dialect.ofName (o.dialect.getD "postgres") with
  | error e => simp [hd, Bind.bind, Except.bind] at h
  | ok d =>
    cases hc : Checking.ofName o.checking with
    | error e => simp [hd, hc, Bind.bind, Except.bind] at h
    | ok c =>
      simp only [hd, hc, Bind.bind, Except.bind, Pure.pure, Except.pure, Except.ok.injEq] at h
      subst h
      exact ⟨rfl, rfl⟩

theorem format_inline_eq_ok_iff {registry : Registry} {o : Options} {s : Settings} {data : Value}
    {w : Formatted} (hs : Settings.ofOptions registry o = .ok s) :
    format registry { o with inline := true } data = .ok w ↔
      ∃ g m, fragment s.inlined data 0 = .ok (g, m) ∧
        w = ⟨g.sql s.dialect s.numbered, g.values⟩ := by
  rw [format_eq_ok_iff, Settings.ofOptions_inline, hs]
  constructor
  · rintro ⟨_, g, m, hi, hg, rfl⟩
    cases hi
    exact ⟨g, m, hg, rfl⟩
  · rintro ⟨g, m, hg, rfl⟩
    exact ⟨_, g, m, rfl, hg, rfl⟩

/-- What the rendering with literals comes to beside one with places. -/
theorem Render.fragment_inlined_cases {s : Settings} {data : Value} {f : Fragment} {n : Nat}
    (h : fragment s data 0 = .ok (f, n)) :
    (∃ e, fragment s.inlined data 0 = .error e ∧
        ∃ v ∈ f.values, ∀ t, Literal.render s.dialect v ≠ .ok t) ∨
      ∃ g ls, fragment s.inlined data 0 = .ok (g, 0) ∧ g.values = [] ∧
        f.values.mapM (Literal.render s.dialect) = .ok ls ∧
        ∀ numbered, g.sql s.dialect numbered = woven f.stretches.1 f.stretches.2 ls := by
  have hrun := (fragment_inlined s data).run 0 0 rfl
  rw [h] at hrun
  rcases hg : fragment s.inlined data 0 with e | ⟨g, m⟩ <;> rw [hg] at hrun
  · obtain ⟨-, p, hp, hstuck⟩ := hrun
    refine .inl ⟨e, rfl, p.2, ?_, hstuck⟩
    rw [f.values_eq_slots]
    exact List.mem_map_of_mem hp
  · obtain ⟨-, hfg, rfl⟩ := hrun
    have hslots := slots_of_inlined hg
    obtain ⟨ls, hls, hsql⟩ := Inlined.woven_literals hfg hslots
    exact .inr ⟨g, ls, rfl, by rw [g.values_eq_slots, hslots]; rfl, hls, hsql⟩

theorem Render.fragment_of_inlined {s : Settings} {data : Value} {r : Fragment × Nat}
    (h : fragment s.inlined data 0 = .ok r) : ∃ r', fragment s data 0 = .ok r' := by
  have hrun := (fragment_inlined s data).run 0 0 rfl
  rw [h] at hrun
  cases hf : fragment s data 0 with
  | error e =>
    rw [hf] at hrun
    exact hrun.elim
  | ok r' => exact ⟨r', rfl⟩

/-- Rendering with literals is rendering with placeholders, each of which is then replaced by the
literal of its value. -/
theorem format_inline (registry : Registry) (o : Options) (data : Value) :
    (∀ out, format registry { o with inline := false } data = .ok out →
      ∃ d t ts, Dialect.ofName (o.dialect.getD "postgres") = .ok d ∧
        ts.length = out.params.length ∧
        out.sql = woven t ts ((List.range' 1 out.params.length).map fun k : Nat =>
          d.placeholder k (o.numbered.getD d.numberedByDefault)) ∧
        ((∃ w, format registry { o with inline := true } data = .ok w) ↔
          ∀ v ∈ out.params, ∃ l, Literal.render d v = .ok l) ∧
        ∀ w, format registry { o with inline := true } data = .ok w →
          ∃ ls, out.params.mapM (Literal.render d) = .ok ls ∧ w = ⟨woven t ts ls, []⟩) ∧
    ∀ w, format registry { o with inline := true } data = .ok w →
      ∃ out, format registry { o with inline := false } data = .ok out := by
  refine ⟨fun out h => ?_, fun w h => ?_⟩
  · obtain ⟨s, f, n, hs, hf, rfl⟩ := format_eq_ok_iff.mp h
    obtain ⟨hdialect, hnumbered⟩ := Settings.of_ofOptions hs
    have hlength : f.values.length = (slots f).length := by simp [Fragment.values_eq_slots]
    refine ⟨s.dialect, f.stretches.1, f.stretches.2, hdialect, ?_, ?_, ?_⟩
    · rw [hlength, f.length_stretches]
    · rw [hlength, ← (fragment_slots hf).1, List.map_map, ← hnumbered]
      exact f.sql_eq_woven s.dialect s.numbered
    · have hinline : ∀ w, format registry { o with inline := true } data = .ok w ↔
          ∃ g m, fragment s.inlined data 0 = .ok (g, m) ∧
            w = ⟨g.sql s.dialect s.numbered, g.values⟩ :=
        fun _ => @format_inline_eq_ok_iff registry { o with inline := false } s data _ hs
      simp only [hinline]
      obtain ⟨e, he, v, hv, hstuck⟩ | ⟨g, ls, hg, hvalues, hls, hsql⟩ := fragment_inlined_cases hf
      · simp only [he, reduceCtorEq, false_and, exists_false, false_iff, not_forall, false_implies,
          implies_true, and_true]
        exact ⟨v, hv, fun ⟨t, ht⟩ => hstuck t ht⟩
      · refine ⟨iff_of_true ⟨_, g, 0, hg, rfl⟩ (renders_of_mapM hls), ?_⟩
        rintro _ ⟨g', m, hg', rfl⟩
        rw [hg] at hg'
        cases hg'
        exact ⟨ls, hls, by rw [hsql, hvalues]⟩
  · obtain ⟨s', g, m, hs', hg, rfl⟩ := format_eq_ok_iff.mp h
    rw [Settings.ofOptions_inline] at hs'
    cases hs : Settings.ofOptions registry o with
    | error e => simp [hs, Except.map] at hs'
    | ok s =>
      rw [hs] at hs'
      cases hs'
      have hinlined : fragment (Settings.inlined { s with inline := false }) data 0 = .ok (g, m) := hg
      obtain ⟨⟨f, n⟩, hf⟩ := fragment_of_inlined hinlined
      refine ⟨_, format_eq_ok_iff.mpr ⟨{ s with inline := false }, f, n, ?_, hf, rfl⟩⟩
      rw [Settings.ofOptions_inline, hs]
      rfl

theorem inline_of_equality :
    format .base {} (.list [.text "=", .text "a", .int 1]) = .ok ⟨"a = $1", [.int 1]⟩ ∧
      ∃ t ts ls, "a = $1" = woven t ts ["$1"] ∧
        format .base { inline := true } (.list [.text "=", .text "a", .int 1]) =
          .ok ⟨woven t ts ls, []⟩ := by
  have h : format .base {} (.list [.text "=", .text "a", .int 1]) = .ok ⟨"a = $1", [.int 1]⟩ := rfl
  obtain ⟨d, t, ts, hd, -, hsql, hiff, hinline⟩ :=
    (format_inline .base {} (.list [.text "=", .text "a", .int 1])).1 _ h
  cases hd
  obtain ⟨w, hw⟩ := hiff.mpr (by simp [Literal.render])
  obtain ⟨ls, -, rfl⟩ := hinline w hw
  exact ⟨h, t, ts, ls, hsql, hw⟩

end SqlTree
