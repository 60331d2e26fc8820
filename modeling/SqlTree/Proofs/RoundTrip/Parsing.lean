import SqlTree.Syntax.Parser.Basic
import Mathlib.Data.List.Forall2

/-!
What a parser takes: the tokens that it takes from the front of a text whatever their gaps are,
what has to follow them, and what it yields.
-/

namespace SqlTree.Syntax.Parser

/-- The next token. -/
def next (ls : List Lexeme) : Option Token := ls.head?.map Lexeme.token

@[simp] theorem next_nil : next [] = none := rfl

@[simp] theorem next_cons (l : Lexeme) (ls : List Lexeme) : next (l :: ls) = some l.token := rfl

theorem bind_run {α β : Type} {x : Parser α} {f : α → Parser β} {a : α} {ls ms : List Lexeme}
    (h : x ls = .ok (a, ms)) : (x >>= f) ls = f a ms := by
  change (x ls).bind _ = _
  rw [h]
  rfl

/-- In front of what `follow` allows, the parser takes just these tokens and yields what `post`
holds of. -/
def Takes {α : Type} (p : Parser α) (ts : List Token) (follow : Option Token → Prop)
    (post : α → Prop) : Prop :=
  ∀ ls rest, ls.map Lexeme.token = ts → follow (next rest) →
    ∃ a, p (ls ++ rest) = .ok (a, rest) ∧ post a

/-- What comes next when `ts` are written before `o`. -/
def ahead (ts : List Token) (o : Option Token) : Option Token := ts.head?.or o

@[simp] theorem ahead_nil (o : Option Token) : ahead [] o = o := rfl

@[simp] theorem ahead_cons (t : Token) (ts : List Token) (o : Option Token) :
    ahead (t :: ts) o = some t := rfl

theorem next_append {ls : List Lexeme} {ts : List Token} (h : ls.map Lexeme.token = ts)
    (rest : List Lexeme) : next (ls ++ rest) = ahead ts (next rest) := by
  subst h
  cases ls <;> rfl

section Rules

variable {α β : Type} {p : Parser α} {ts us : List Token} {t : Token}
  {follow follow' : Option Token → Prop} {post : α → Prop} {post' : β → Prop}

theorem Takes.mono (h : Takes p ts follow post) (hf : ∀ o, follow' o → follow o)
    {post' : α → Prop} (hp : ∀ a, post a → post' a) : Takes p ts follow' post' := by
  intro ls rest hls hr
  obtain ⟨a, ha, hpost⟩ := h ls rest hls (hf _ hr)
  exact ⟨a, ha, hp a hpost⟩

theorem Takes.before (h : Takes p ts follow post) (hf : ∀ o, follow' o → follow o) :
    Takes p ts follow' post :=
  h.mono hf fun _ => id

theorem Takes.pure {a : α} (h : post a) : Takes (pure a) [] follow post := by
  intro ls rest hls _
  obtain rfl := List.map_eq_nil_iff.mp hls
  exact ⟨a, rfl, h⟩

theorem Takes.bind {f : α → Parser β} (h : Takes p ts follow post)
    (hf : ∀ a, post a → Takes (f a) us follow' post') (hs : ∀ o, follow' o → follow (ahead us o)) :
    Takes (p >>= f) (ts ++ us) follow' post' := by
  intro ls rest hls hr
  obtain ⟨ls, ms, rfl, hts, hus⟩ := List.map_eq_append_iff.mp hls
  obtain ⟨a, ha, hpost⟩ := h ls (ms ++ rest) hts (next_append hus rest ▸ hs _ hr)
  obtain ⟨b, hb, hpost'⟩ := hf a hpost ms rest hus hr
  refine ⟨b, ?_, hpost'⟩
  rw [List.append_assoc]
  change (p (ls ++ (ms ++ rest))).bind _ = _
  rw [ha]
  exact hb

/-- Whatever follows. -/
theorem Takes.bindAny {f : α → Parser β} (h : Takes p ts (fun _ => True) post)
    (hf : ∀ a, post a → Takes (f a) us follow' post') : Takes (p >>= f) (ts ++ us) follow' post' :=
  h.bind hf fun _ _ => trivial

/-- What comes before takes nothing. -/
theorem Takes.nothing_bind {f : α → Parser β} (h : Takes p [] follow post)
    (hf : ∀ a, post a → Takes (f a) us follow' post') (hs : ∀ o, follow' o → follow (ahead us o)) :
    Takes (p >>= f) us follow' post' :=
  h.bind hf hs

/-- What comes after takes nothing more. -/
theorem Takes.andThen {f : α → Parser β} (h : Takes p ts follow post)
    (hf : ∀ a, post a → Takes (f a) [] follow' post') (hs : ∀ o, follow' o → follow o) :
    Takes (p >>= f) ts follow' post' := by
  have hb := h.bind hf hs
  rwa [List.append_nil] at hb

theorem Takes.map {f : α → β} (h : Takes p ts follow post) (hf : ∀ a, post a → post' (f a)) :
    Takes (do return f (← p)) ts follow post' :=
  h.andThen (fun a ha => .pure (hf a ha)) fun _ ho => ho

/-- Two parsers that agree on the tokens take the same. -/
theorem Takes.congr {q : Parser α} (h : Takes p ts follow post)
    (heq : ∀ ls rest, ls.map Lexeme.token = ts → follow (next rest) →
      q (ls ++ rest) = p (ls ++ rest)) : Takes q ts follow post := by
  intro ls rest hls hr
  rw [heq ls rest hls hr]
  exact h ls rest hls hr

theorem Takes.peek {f : Option Token → Parser β}
    (h : ∀ o, follow o → Takes (f (ahead ts o)) ts (· = o) post') :
    Takes (peek >>= f) ts follow post' := by
  intro ls rest hls hr
  have hp := h _ hr ls rest hls rfl
  rw [← next_append hls] at hp
  exact hp

theorem Takes.peek_cons {f : Option Token → Parser β}
    (h : Takes (f (some t)) (t :: ts) follow post') :
    Takes (Parser.peek >>= f) (t :: ts) follow post' :=
  .peek fun _ ho => h.before fun _ he => he ▸ ho

theorem Takes.peekSecond {f : Option Token → Parser β}
    (h : ∀ o, follow o → Takes (f (ahead ts o)) (t :: ts) (· = o) post') :
    Takes (Parser.peekSecond >>= f) (t :: ts) follow post' := by
  intro ls rest hls hr
  cases ls with
  | nil => cases hls
  | cons l ls =>
    have hp := h _ hr (l :: ls) rest hls rfl
    rw [← next_append (List.cons.inj hls).2] at hp
    exact hp

/-- Whatever the second token is. -/
theorem Takes.peekSecondAny {f : Option Token → Parser β}
    (h : ∀ o, Takes (f o) ts follow post') : Takes (Parser.peekSecond >>= f) ts follow post' := by
  intro ls rest hls hr
  exact h _ ls rest hls hr

theorem Takes.get {f : List Lexeme → Parser β} (h : ∀ ls, Takes (f ls) ts follow post') :
    Takes (MonadState.get >>= f) ts follow post' :=
  fun ls rest hls hr => h (ls ++ rest) ls rest hls hr

/-- What is left to read may be looked at as a whole. -/
theorem Takes.lexemes {f : List Lexeme → Parser β}
    (h : ∀ ls rest, ls.map Lexeme.token = ts → follow (next rest) →
      Takes (f (ls ++ rest)) ts follow post') : Takes (MonadState.get >>= f) ts follow post' :=
  fun ls rest hls hr => h ls rest hls hr ls rest hls hr

theorem Takes.spanned (h : Takes p ts follow post) :
    Takes (spanned p) ts follow fun a => post a.1 := by
  intro ls rest hls hr
  obtain ⟨a, ha, hpost⟩ := h ls rest hls hr
  rw [Parser.spanned, ha]
  exact ⟨_, rfl, hpost⟩

theorem Takes.skip {f : Unit → Parser β} (h : Takes (f ()) ts follow post') :
    Takes (skip >>= f) (t :: ts) follow post' := by
  intro ls rest hls hr
  cases ls with
  | nil => cases hls
  | cons l ls => exact h ls rest (List.cons.inj hls).2 hr

section Words

variable {f : Bool → Parser β} {w : String}

theorem takeKeyword_run (w : String) (ls : List Lexeme) :
    takeKeyword w ls = .ok (isKeyword w (next ls), if isKeyword w (next ls) then ls.drop 1 else ls) := by
  cases ls with
  | nil => rfl
  | cons l ls =>
    change (if isKeyword w (next (l :: ls)) then skip >>= fun _ => pure true else pure false :
      Parser Bool) (l :: ls) = _
    cases isKeyword w (next (l :: ls)) <;> rfl

theorem takeSymbol_run (w : String) (ls : List Lexeme) :
    takeSymbol w ls = .ok (isSymbol w (next ls), if isSymbol w (next ls) then ls.drop 1 else ls) := by
  cases ls with
  | nil => rfl
  | cons l ls =>
    change (if isSymbol w (next (l :: ls)) then skip >>= fun _ => pure true else pure false :
      Parser Bool) (l :: ls) = _
    cases isSymbol w (next (l :: ls)) <;> rfl

theorem takeKeyword_yes (h : isKeyword w (some t) = true) :
    Takes (takeKeyword w) [t] follow (· = true) := by
  intro ls rest hls _
  obtain ⟨l, rfl, hl⟩ := List.map_eq_singleton_iff.mp hls
  exact ⟨true, by simp [takeKeyword_run, hl, h], rfl⟩

theorem takeKeyword_no : Takes (takeKeyword w) [] (isKeyword w · = false) (· = false) := by
  intro ls rest hls hr
  obtain rfl := List.map_eq_nil_iff.mp hls
  exact ⟨false, by simp [takeKeyword_run, hr], rfl⟩

theorem takeSymbol_yes (h : isSymbol w (some t) = true) :
    Takes (takeSymbol w) [t] follow (· = true) := by
  intro ls rest hls _
  obtain ⟨l, rfl, hl⟩ := List.map_eq_singleton_iff.mp hls
  exact ⟨true, by simp [takeSymbol_run, hl, h], rfl⟩

theorem takeSymbol_no : Takes (takeSymbol w) [] (isSymbol w · = false) (· = false) := by
  intro ls rest hls hr
  obtain rfl := List.map_eq_nil_iff.mp hls
  exact ⟨false, by simp [takeSymbol_run, hr], rfl⟩

/-- The keyword is next. -/
theorem Takes.withKeyword (hw : isKeyword w (some t) = true)
    (h : Takes (f true) ts follow post') : Takes (takeKeyword w >>= f) (t :: ts) follow post' :=
  (takeKeyword_yes hw).bindAny (by rintro _ rfl; exact h)

/-- The keyword is not next. -/
theorem Takes.noKeyword (hw : ∀ o, follow o → isKeyword w (ahead ts o) = false)
    (h : Takes (f false) ts follow post') : Takes (takeKeyword w >>= f) ts follow post' :=
  takeKeyword_no.nothing_bind (by rintro _ rfl; exact h) hw

theorem Takes.withSymbol (hw : isSymbol w (some t) = true)
    (h : Takes (f true) ts follow post') : Takes (takeSymbol w >>= f) (t :: ts) follow post' :=
  (takeSymbol_yes hw).bindAny (by rintro _ rfl; exact h)

theorem Takes.noSymbol (hw : ∀ o, follow o → isSymbol w (ahead ts o) = false)
    (h : Takes (f false) ts follow post') : Takes (takeSymbol w >>= f) ts follow post' :=
  takeSymbol_no.nothing_bind (by rintro _ rfl; exact h) hw

theorem Takes.keyword {f : Unit → Parser β} (hw : isKeyword w (some t) = true)
    (h : Takes (f ()) ts follow post') : Takes (keyword w >>= f) (t :: ts) follow post' := by
  refine (Takes.withKeyword (f := fun b => (if !b then unexpected else Pure.pure ()) >>= f)
    hw ?_).congr fun _ _ _ _ => ?_
  · exact h
  · simp [Parser.keyword]

theorem Takes.keywords {f : Unit → Parser β} {ws : List String} {ks : List Token}
    (hw : List.Forall₂ (fun w t => isKeyword w (some t) = true) ws ks)
    (h : Takes (f ()) ts follow post') :
    Takes (Parser.keywords ws >>= f) (ks ++ ts) follow post' := by
  induction hw with
  | nil => exact h
  | @cons w t ws ks hwt _ ih =>
    change Takes ((Parser.keyword w >>= fun _ => Parser.keywords ws) >>= f) (t :: (ks ++ ts)) _ _
    rw [bind_assoc]
    exact .keyword hwt ih

theorem Takes.symbol {f : Unit → Parser β} (hw : isSymbol w (some t) = true)
    (h : Takes (f ()) ts follow post') : Takes (symbol w >>= f) (t :: ts) follow post' := by
  refine (Takes.withSymbol (f := fun b => (if !b then unexpected else Pure.pure ()) >>= f)
    hw ?_).congr fun _ _ _ _ => ?_
  · exact h
  · simp [Parser.symbol]

theorem Takes.isAtSymbol (hw : isSymbol w (some t) = true)
    (h : Takes (f true) (t :: ts) follow post') :
    Takes (atSymbol w >>= f) (t :: ts) follow post' := by
  refine Takes.peek_cons (f := fun o => f (isSymbol w o)) ?_
  rwa [hw]

theorem Takes.notAtSymbol (hw : ∀ o, follow o → isSymbol w (ahead ts o) = false)
    (h : Takes (f false) ts follow post') : Takes (atSymbol w >>= f) ts follow post' := by
  refine Takes.peek (f := fun o => f (isSymbol w o)) fun o ho => ?_
  rw [hw o ho]
  exact h.before fun _ he => he ▸ ho

theorem Takes.isAtKeyword (hw : isKeyword w (some t) = true)
    (h : Takes (f true) (t :: ts) follow post') :
    Takes (atKeyword w >>= f) (t :: ts) follow post' := by
  refine Takes.peek_cons (f := fun o => f (isKeyword w o)) ?_
  rwa [hw]

theorem Takes.notAtKeyword (hw : ∀ o, follow o → isKeyword w (ahead ts o) = false)
    (h : Takes (f false) ts follow post') : Takes (atKeyword w >>= f) ts follow post' := by
  refine Takes.peek (f := fun o => f (isKeyword w o)) fun o ho => ?_
  rw [hw o ho]
  exact h.before fun _ he => he ▸ ho

end Words

end Rules

section Iteration

variable {α : Type} {step : α → Parser (Option α)} {a : α} {ts us : List Token}
  {follow follow' : Option Token → Prop} {post mid : α → Prop}

/-- What an iteration takes from `a` on, as long as it may make a step for each lexeme taken. -/
def Iterates (step : α → Parser (Option α)) (a : α) (ts : List Token)
    (follow : Option Token → Prop) (post : α → Prop) : Prop :=
  ∀ fuel ls rest, ls.map Lexeme.token = ts → follow (next rest) → ls.length ≤ fuel.length →
    ∃ b, iterateOver step fuel a (ls ++ rest) = .ok (b, rest) ∧ post b

theorem Iterates.mono (h : Iterates step a ts follow mid) (hp : ∀ b, mid b → post b) :
    Iterates step a ts follow post := by
  intro fuel ls rest hls hr hlen
  obtain ⟨b, hb, hmid⟩ := h fuel ls rest hls hr hlen
  exact ⟨b, hb, hp b hmid⟩

theorem Iterates.stop (h : Takes (step a) [] follow (· = none)) (ha : post a) :
    Iterates step a [] follow post := by
  intro fuel ls rest hls hr _
  obtain rfl := List.map_eq_nil_iff.mp hls
  obtain ⟨_, hstep, rfl⟩ := h [] rest rfl hr
  refine ⟨a, ?_, ha⟩
  cases fuel with
  | nil => rfl
  | cons l fuel =>
    rw [iterateOver]
    change (step a ([] ++ rest)).bind _ = _
    rw [hstep]
    rfl

/-- The last step takes tokens as well. -/
theorem Iterates.finish (hne : ts ≠ []) (h : Takes (step a) ts follow (· = none)) (ha : post a) :
    Iterates step a ts follow post := by
  intro fuel ls rest hls hr hlen
  obtain ⟨_, hstep, rfl⟩ := h ls rest hls hr
  refine ⟨a, ?_, ha⟩
  cases fuel with
  | nil =>
    have : ls = [] := List.length_eq_zero_iff.mp (Nat.le_zero.mp hlen)
    subst this
    exact absurd hls.symm hne
  | cons l fuel =>
    rw [iterateOver]
    change (step a (ls ++ rest)).bind _ = _
    rw [hstep]
    rfl

theorem Iterates.again (follow : Option Token → Prop) (mid : α → Prop) (hne : ts ≠ [])
    (h : Takes (step a) ts follow fun o => ∃ b, o = some b ∧ mid b)
    (hmid : ∀ b, mid b → Iterates step b us follow' post)
    (hs : ∀ o, follow' o → follow (ahead us o)) : Iterates step a (ts ++ us) follow' post := by
  intro fuel ls rest hls hr hlen
  obtain ⟨ls, ms, rfl, hts, hus⟩ := List.map_eq_append_iff.mp hls
  obtain ⟨_, hstep, b, rfl, hb⟩ := h ls (ms ++ rest) hts (next_append hus rest ▸ hs _ hr)
  have hpos : 0 < ls.length := by
    rw [← List.length_map (f := Lexeme.token), hts]
    exact List.length_pos_of_ne_nil hne
  cases fuel with
  | nil =>
    simp only [List.length_append, List.length_nil] at hlen
    omega
  | cons l fuel =>
    simp only [List.length_append, List.length_cons] at hlen
    obtain ⟨c, hc, hpost⟩ := hmid b hb fuel ms rest hus hr (by omega)
    refine ⟨c, ?_, hpost⟩
    rw [iterateOver, List.append_assoc]
    change (step a (ls ++ (ms ++ rest))).bind _ = _
    rw [hstep]
    exact hc

theorem Iterates.takes (h : Iterates step a ts follow post) :
    Takes (iterate step a) ts follow post := by
  intro ls rest hls hr
  exact h _ ls rest hls hr (by simp)

end Iteration

section Sequences

variable {α ι : Type} {item : Parser α} {follow : Option Token → Prop} {holds : ι → α → Prop}

/-- The tokens of items with commas between them. -/
def commaTokens : List (List Token) → List Token
  | [] => []
  | [ts] => ts
  | ts :: tss => ts ++ .symbol "," :: commaTokens tss

theorem commaTokens_cons (ts : List Token) (tss : List (List Token)) :
    commaTokens (ts :: tss) = ts ++ tss.flatMap (.symbol "," :: ·) := by
  induction tss generalizing ts with
  | nil => simp [commaTokens]
  | cons us tss ih => simp [commaTokens, ih]

/-- What may follow an item: the sign between items, or what may follow the last one. -/
def OrSign (sign : String) (follow : Option Token → Prop) (o : Option Token) : Prop :=
  o = some (.symbol sign) ∨ follow o

theorem OrSign.ahead {sign : String} {o : Option Token} (h : follow o) (tss : List (List Token)) :
    OrSign sign follow (ahead (tss.flatMap (.symbol sign :: ·)) o) := by
  cases tss with
  | nil => exact .inr h
  | cons => exact .inl rfl

theorem more_takes {sign : String} (hsign : ∀ o, follow o → isSymbol sign o = false) {xs : List ι}
    {tss : List (List Token)}
    (h : List.Forall₂ (fun x ts => Takes item ts (OrSign sign follow) (holds x)) xs tss)
    {ys : List ι} {done : List α} (hdone : List.Forall₂ holds ys done) :
    Takes (more sign item done) (tss.flatMap (.symbol sign :: ·)) follow
      (List.Forall₂ holds (ys ++ xs)) := by
  refine Iterates.takes ?_
  induction h generalizing ys done with
  | nil =>
    refine .stop (.noSymbol (by simpa using hsign) (.pure rfl)) ?_
    rwa [List.append_nil]
  | @cons x ts xs tss hx _ ih =>
    rw [List.flatMap_cons]
    refine Iterates.again (OrSign sign follow) (List.Forall₂ holds (ys ++ [x])) (by simp) ?_ ?_
      fun _ ho => .ahead ho tss
    · refine .withSymbol (by simp [isSymbol]) ?_
      exact hx.map fun a ha => ⟨done ++ [a], rfl, List.rel_append hdone (.cons ha .nil)⟩
    · intro done hdone
      simpa using ih hdone

theorem commas_takes (hcomma : ∀ o, follow o → isSymbol "," o = false) {xs : List ι}
    {tss : List (List Token)} (hne : xs ≠ [])
    (h : List.Forall₂ (fun x ts => Takes item ts (OrSign "," follow) (holds x)) xs tss) :
    Takes (commas item) (commaTokens tss) follow (List.Forall₂ holds xs) := by
  cases h with
  | nil => contradiction
  | @cons x ts xs tss hx h =>
    rw [commaTokens_cons]
    exact hx.bind (fun a ha => more_takes hcomma h (.cons ha .nil)) fun _ ho => .ahead ho tss

theorem parens_takes {p : Parser α} {ts : List Token} {post : α → Prop}
    (h : Takes p ts (· = some (.symbol ")")) post) :
    Takes (parens p) (.symbol "(" :: ts ++ [.symbol ")"]) follow post := by
  refine .symbol rfl (h.bind (fun a ha => ?_) fun _ _ => rfl)
  exact .symbol rfl (.pure ha)

theorem optional_takes {w : String} {t : Token} {p : Parser α} {ts : List Token}
    {post : Option α → Prop} (hw : isKeyword w (some t) = true)
    (h : Takes p ts follow fun a => post (some a)) :
    Takes (optional w p) (t :: ts) follow post :=
  .withKeyword hw (h.map fun _ => id)

theorem optional_absent {w : String} {p : Parser α} {post : Option α → Prop}
    (hw : ∀ o, follow o → isKeyword w o = false) (h : post none) :
    Takes (optional w p) [] follow post :=
  .noKeyword hw (.pure h)

theorem optional_none {w : String} {p : Parser α} (hw : ∀ o, follow o → isKeyword w o = false) :
    Takes (optional w p) [] follow (· = none) := optional_absent hw rfl

end Sequences

end SqlTree.Syntax.Parser
