import SqlTree.Proofs.Grammar.Parses

/-!
Choices by the next token: of the way to go on, and of whether to take anything.
-/

namespace SqlTree.Grammar

theorem Derives.append {x y : Rhs} {us vs : List Lexeme} (hx : Derives x (us.map Lexeme.token))
    (hy : Derives y (vs.map Lexeme.token)) :
    Derives (.seq x y) ((us ++ vs).map Lexeme.token) := by
  rw [List.map_append]
  exact hx.seq hy

theorem Derives.split {x y : Rhs} {ls : List Lexeme} (h : Derives (.seq x y) (ls.map Lexeme.token)) :
    ∃ us vs, ls = us ++ vs ∧ Derives x (us.map Lexeme.token) ∧ Derives y (vs.map Lexeme.token) := by
  generalize hts : ls.map Lexeme.token = ts at h
  cases h with
  | seq hx hy =>
    obtain ⟨us, vs, rfl, rfl, rfl⟩ := List.map_eq_append_iff.mp hts
    exact ⟨us, vs, rfl, hx, hy⟩

theorem Derives.of_star_cons {x : Rhs} {t : Token} {ts : List Token}
    (h : Derives (.star x) (t :: ts)) : Derives (.seq x (.star x)) (t :: ts) := by
  have hmem : t :: ts ∈ lang (.star x) := h
  rw [lang_star, ← Language.one_add_self_mul_kstar_eq_kstar] at hmem
  rcases (Language.mem_add _ _ _).mp hmem with hnil | hmore
  · cases (Language.mem_one _).mp hnil
  · exact lang_seq.ge (by rwa [lang_star])

end SqlTree.Grammar

namespace SqlTree.Syntax.Parser.Parses

open Grammar

variable {α β : Type} {m b b' : Nat} {p r : Nat → Parser α} {x y z : Rhs} {A B : List Terminal}

/-- Between parentheses something may be missing. -/
theorem maybeParens {a : α} (hb : b ≤ b' + 1) (h : Parses m b' p x A) (hx : x.nullable = false)
    (hfirst : .RPAR ∉ x.first) (hA : .RPAR ∉ A) :
    Parses m b (fun n => Parser.parens do
      if ← atSymbol ")" then return a
      p n) (.seqs [.token .LPAR, .opt x, .token .RPAR]) B := by
  have hend : Fits (.seq (.token .RPAR) .empty) A B := ⟨by simpa [Rhs.first, Rhs.nullable], nofun⟩
  have hopen : Fits (.seq x (.seq (.token .RPAR) .empty)) [.RPAR] B := by
    refine ⟨fun c hc => ?_, by simp [Rhs.nullable, hx]⟩
    rw [Rhs.first, hx, if_neg Bool.false_ne_true, List.append_nil] at hc
    rw [List.mem_singleton]
    rintro rfl
    exact hfirst hc
  have hclosed := ifNext (spots_symbol (c := .RPAR) rfl)
    (symbol (Nat.le_succ b') (c := .RPAR) rfl (pure (a := a)))
    (h.seq (fun a => symbol (Nat.le_succ b') (c := .RPAR) rfl (pure (a := a))) hend) rfl
    (by simp [Rhs.first, Rhs.nullable]) hopen
  refine ((symbol hb (c := .LPAR) rfl hclosed).of_lang ?_).congr fun n => ?_
  · simp [add_mul, add_comm]
  · simp only [Parser.parens, atSymbol, bind_assoc, pure_bind]
    refine bind_congr fun _ => bind_congr fun t => ?_
    split <;> simp

/-- A look at what is ahead decides between two ways to go on. -/
theorem choose {f : List Lexeme → Bool} {P Q : Nat → Parser α} (hyes : Parses m b P y B)
    (hno : Parses m b Q z B) (hrun : ∀ n ls, p n ls = if f ls = true then P n ls else Q n ls)
    (hy : ∀ ls ls' rest, Derives y (ls.map Lexeme.token) → Alike ls ls' → Clear B rest →
      f (ls' ++ rest) = true)
    (hz : ∀ ls ls' rest, Derives z (ls.map Lexeme.token) → Alike ls ls' → Clear B rest →
      f (ls' ++ rest) = false) : Parses m b p (.alt y z) B where
  sound ls a rest hp := by
    rw [hrun] at hp
    split at hp
    · obtain ⟨us, rfl, hus⟩ := hyes.sound ls a rest hp
      exact ⟨us, rfl, .left hus⟩
    · obtain ⟨us, rfl, hus⟩ := hno.sound ls a rest hp
      exact ⟨us, rfl, .right hus⟩
  complete ls hls hx := by
    generalize hts : ls.map Lexeme.token = ts at hx
    cases hx with
    | left hx =>
      subst hts
      obtain ⟨a, ha⟩ := hyes.complete ls hls hx
      refine ⟨a, fun n ls' rest hn hls hr => ?_⟩
      rw [hrun, if_pos (hy ls ls' rest hx hls hr)]
      exact ha n ls' rest hn hls hr
    | right hx =>
      subst hts
      obtain ⟨a, ha⟩ := hno.complete ls hls hx
      refine ⟨a, fun n ls' rest hn hls hr => ?_⟩
      rw [hrun, hz ls ls' rest hx hls hr]
      exact ha n ls' rest hn hls hr

/-- The next token picks what goes on behind it, unless it is left to the rest. -/
theorem dispatch (heads : List (Terminal × Rhs)) {f : Token → Nat → Parser α} (hb : b ≤ b' + 1)
    (hheads : ∀ h ∈ heads, ∀ t, h.1.Matches t → Parses m b' (f t) h.2 B)
    (hrest : Parses m b r z B) (hfit : Fits z (heads.map Prod.fst) B)
    (htake : ∀ n l ls, (∃ h ∈ heads, h.1.Matches l.token) → p n (l :: ls) = f l.token n ls)
    (hleave : ∀ n ls, Avoids (heads.map Prod.fst) (next ls) → p n ls = r n ls) :
    Parses m b p (.alt (.alts (heads.map fun h => .seq (.token h.1) h.2)) z) B where
  sound ls a rest hp := by
    by_cases hnext : Avoids (heads.map Prod.fst) (next ls)
    · rw [hleave m ls hnext] at hp
      obtain ⟨us, rfl, hus⟩ := hrest.sound ls a rest hp
      exact ⟨us, rfl, .right hus⟩
    · cases ls with
      | nil => exact absurd .none hnext
      | cons l us =>
        obtain ⟨h, hh, hl⟩ : ∃ h ∈ heads, h.1.Matches l.token := by
          by_contra hno
          refine hnext ?_
          rintro _ ⟨⟩ c hc hl
          obtain ⟨h, hh, rfl⟩ := List.mem_map.mp hc
          exact hno ⟨h, hh, hl⟩
        rw [htake m l us ⟨h, hh, hl⟩] at hp
        obtain ⟨vs, rfl, hvs⟩ := (hheads h hh _ hl).sound us a rest hp
        refine ⟨l :: vs, rfl, .left (derives_alts.mpr ⟨_, List.mem_map_of_mem hh, ?_⟩)⟩
        exact .seq (.token hl) hvs
  complete ls hls hx := by
    generalize hts : ls.map Lexeme.token = ts at hx
    cases hx with
    | left hx =>
      obtain ⟨_, hmem, hx⟩ := derives_alts.mp hx
      obtain ⟨h, hh, rfl⟩ := List.mem_map.mp hmem
      obtain ⟨l, us, rfl, hl, hus⟩ := cons_of_token (hts ▸ hx)
      rw [List.length_cons] at hls
      obtain ⟨a, ha⟩ := (hheads h hh _ hl).complete us (by omega) hus
      refine ⟨a, fun n ls' rest hn hls hr => ?_⟩
      obtain ⟨l', rfl, hl'⟩ := hls.cons
      rw [List.cons_append, htake n l' _ ⟨h, hh, hl' ▸ hl⟩, ← hl']
      exact ha n us rest hn (.refl us) hr
    | right hx =>
      subst hts
      obtain ⟨a, ha⟩ := hrest.complete ls hls hx
      refine ⟨a, fun n ls' rest hn hls hr => ?_⟩
      rw [hleave n _ (hfit.clear hx hls hr)]
      exact ha n ls' rest hn hls hr

theorem Certain.ite {c : Prop} [Decidable c] {q₁ q₂ : Parser (Option α)} (h₁ : Certain q₁)
    (h₂ : Certain q₂) : Certain (if c then q₁ else q₂) := by
  split
  · exact h₁
  · exact h₂

/-- Takes the next token if something can be made of it. -/
def option (g : Token → Option α) : Parser (Option α) := fun ls =>
  .ok ((next ls).bind g, if ((next ls).bind g).isSome then ls.drop 1 else ls)

namespace Try

variable {P : Nat → Parser (Option α)} {cs : List Terminal}

theorem option {g : Token → Option α} (hg : ∀ t, (g t).isSome ↔ ∃ c ∈ cs, c.Matches t)
    {F : List Lexeme → Prop} : Try m b (fun _ => Parses.option g) (.alts (cs.map .token)) F where
  sound ls o rest hp := by
    rw [Parses.option] at hp
    cases ls with
    | nil =>
      cases hp
      exact .inl ⟨rfl, rfl⟩
    | cons l us =>
      rw [next_cons, Option.bind_some] at hp
      cases hgl : g l.token with
      | none =>
        rw [hgl] at hp
        cases hp
        exact .inl ⟨rfl, rfl⟩
      | some a =>
        rw [hgl] at hp
        cases hp
        refine .inr ⟨a, [l], rfl, rfl, derives_alts_iff.mpr ⟨l.token, rfl, ?_⟩⟩
        exact (hg _).mp (by simp [hgl])
  complete ls _ hx := by
    obtain ⟨t, hts, ht⟩ := derives_alts_iff.mp hx
    obtain ⟨l, rfl, rfl⟩ := List.map_eq_singleton_iff.mp hts
    obtain ⟨a, ha⟩ := Option.isSome_iff_exists.mp ((hg _).mpr ht)
    refine ⟨a, fun n ls' rest _ hls _ => ?_⟩
    obtain ⟨l', rfl, hl⟩ := hls.cons
    simp [Parses.option, ← hl, ha]
  stop n ls _ hnext := by
    cases ls with
    | nil => rfl
    | cons l us =>
      have hnone : g l.token = Option.none := by
        rw [← Option.not_isSome_iff_eq_none, hg]
        rintro ⟨c, hc, hmatch⟩
        have hmem : Derives (.alts (cs.map .token)) [l.token] :=
          derives_alts_iff.mpr ⟨_, rfl, c, hc, hmatch⟩
        exact hnext l.token rfl c (hmem.mem_first hmatch) hmatch
      simp [Parses.option, hnone]

/-- A step that is made where the next token is one of its first. -/
theorem ifNext {f : Option Token → Bool} {cs : List Terminal} (hf : Spots f cs)
    (h : Parses m b P x A) (hsome : Certain (P m)) (hx : x.nullable = false) (hcs : x.first ⊆ cs)
    (hsc : cs ⊆ x.first) :
    Try m b (fun n => do if f (← peek) then P n else return Option.none) x (Clear A) where
  sound ls o rest hp := by
    change (if f (next ls) = true then P m else Pure.pure Option.none) ls = _ at hp
    split at hp
    · exact .inr ((certain h hsome).1 ls o rest hp)
    · cases hp
      exact .inl ⟨rfl, rfl⟩
  complete ls hls hx' := by
    obtain ⟨a, ha⟩ := (certain h hsome).2 ls hls hx'
    refine ⟨a, fun n ls' rest hn hls' hr => ?_⟩
    have hnext : f (next (ls' ++ rest)) = true := by
      rw [hf, hls'.next_append]
      cases ls with
      | nil => exact absurd (hx'.nullable rfl) (by simp [hx])
      | cons l ls =>
        obtain ⟨c, hc, hmatch⟩ := hx'.first l.token rfl
        exact ⟨l.token, rfl, c, hcs hc, hmatch⟩
    change (if f (next (ls' ++ rest)) = true then P n else Pure.pure Option.none) (ls' ++ rest) = _
    rw [if_pos hnext]
    exact ha n ls' rest hn hls' hr
  stop n ls _ hnext := by
    have hno : f (next ls) = false := hf.eq_false (hnext.mono hsc)
    change (if f (next ls) = true then P n else Pure.pure Option.none) ls = _
    rw [hno]
    rfl

theorem mono {F F' : List Lexeme → Prop} (h : Try m b P x F) (hF : ∀ rest, F' rest → F rest) :
    Try m b P x F' :=
  ⟨⟨h.sound, fun ls hls hx =>
    let ⟨a, ha⟩ := h.complete ls hls hx
    ⟨a, ha.mono hF⟩⟩, h.stop⟩

theorem option_run {g : Token → Option α} {k : α → Parser (Option β)} {ls : List Lexeme} :
    (Parses.option g >>= fun o => o.elim (Pure.pure Option.none) k) ls =
      ((next ls).bind g).elim (.ok (Option.none, ls)) fun a => k a (ls.drop 1) := by
  change Option.elim ((next ls).bind g) (Pure.pure Option.none) k _ = _
  cases (next ls).bind g <;> rfl

/-- Where something is taken, more follows. -/
theorem andThen {f : α → Nat → Parser β} (h : Try m b P x (Clear A))
    (hf : ∀ a, Parses m b (f a) y B) (hfit : Fits y A B) :
    Try m b (fun n => P n >>= fun o => o.elim (Pure.pure Option.none) fun a => do
      return some (← f a n)) (.seq x y) (Clear B) where
  sound ls o rest hp := by
    obtain ⟨o', ms, ha, hrest⟩ := bind_ok hp
    rcases h.sound ls o' ms ha with ⟨rfl, rfl⟩ | ⟨a, us, rfl, rfl, hus⟩
    · cases hrest
      exact .inl ⟨rfl, rfl⟩
    · obtain ⟨c, ms', hc, ⟨⟩⟩ := bind_ok hrest
      obtain ⟨vs, rfl, hvs⟩ := (hf a).sound ms c rest hc
      exact .inr ⟨c, us ++ vs, rfl, by simp, by simpa using Derives.seq hus hvs⟩
  complete ls hls hxy := by
    obtain ⟨us, vs, rfl, hx, hy⟩ := hxy.split
    rw [List.length_append] at hls
    obtain ⟨a, ha⟩ := h.complete us (by omega) hx
    obtain ⟨c, hc⟩ := (hf a).complete vs (by omega) hy
    refine ⟨c, ha.bind (f := fun o n => o.elim (Pure.pure Option.none) fun a => do
      return some (← f a n)) (hc.map (g := some)) ?_⟩
    exact fun vs rest hvs hr => hfit.clear hy hvs hr
  stop n ls hn hnext :=
    bind_run (h.stop n ls hn (hnext.mono (by simp [Rhs.first])))

/-- What one step after the other takes is collected. -/
theorem collect (h : Try m b P x (Clear A)) (hx : x.nullable = false)
    (hfit : Fits (.star x) A B) (hB : x.first ⊆ B)
    {step : Nat → List α → Parser (Option (List α))} (hstep : ∀ n done, step n done =
      P n >>= fun o => o.elim (Pure.pure Option.none) fun a => Pure.pure (some (done ++ [a]))) :
    Parses m b (fun n => Parser.iterate (step n) []) (.star x) B := by
  refine repeated (A := A) (fun done => ?_) hx hfit hB []
  have hmore := h.andThen (fun a => (pure (a := done ++ [a]) : Parses m b _ .empty A))
    ⟨nofun, fun _ => List.Subset.refl A⟩
  refine (hmore.of_lang (by simp) (by simp [Rhs.first, hx])).congr fun n => ?_
  simp only [hstep, pure_bind]

/-- Something or nothing is taken. -/
theorem whether {g : Option α → β} (h : Try m b P x (Clear A)) (hB : A ++ x.first ⊆ B) :
    Parses m b (fun n => do return g (← P n)) (.opt x) B where
  sound ls c rest hp := by
    obtain ⟨o, ms, ho, ⟨⟩⟩ := bind_ok hp
    rcases h.sound ls o _ ho with ⟨-, rfl⟩ | ⟨-, us, -, rfl, hus⟩
    · exact ⟨[], rfl, derives_opt_nil⟩
    · exact ⟨us, rfl, .left hus⟩
  complete ls hls hx := by
    generalize hts : ls.map Lexeme.token = ts at hx
    obtain ⟨hA, hfirst⟩ := List.append_subset.mp hB
    cases hx with
    | left hx =>
      obtain ⟨a, ha⟩ := h.complete ls hls (hts ▸ hx)
      exact ⟨g (some a), (ha.map (g := g)).mono fun rest hr => hr.mono hA⟩
    | right hx =>
      cases hx
      obtain rfl := List.map_eq_nil_iff.mp hts
      refine ⟨g Option.none, fun n ls' rest hn hls hr => ?_⟩
      rw [hls.nil]
      exact bind_run (h.stop n rest hn (hr.mono hfirst))

/-- Something has to be taken. -/
theorem required (h : Try m b P x (Clear A)) :
    Parses m b (fun n => P n >>= fun o => o.elim Parser.unexpected Pure.pure) x A where
  sound ls a rest hp := by
    obtain ⟨o, ms, ho, hrest⟩ := bind_ok hp
    rcases h.sound ls o ms ho with ⟨rfl, rfl⟩ | ⟨a', us, rfl, rfl, hus⟩
    · cases hrest
    · cases hrest
      exact ⟨us, rfl, hus⟩
  complete ls hls hx := by
    obtain ⟨a, ha⟩ := h.complete ls hls hx
    exact ⟨a, fun n ls' rest hn hls hr => bind_run (ha n ls' rest hn hls hr)⟩

end Try

end SqlTree.Syntax.Parser.Parses
