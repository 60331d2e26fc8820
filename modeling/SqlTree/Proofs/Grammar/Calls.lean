import Mathlib.Tactic.Abel
import SqlTree.Proofs.Grammar.Primary
import SqlTree.Proofs.Grammar.Choices

/-!
The parsers of calls take what the grammar says. A call is told from a path by what follows it, and
its text may be kept, so where it starts is remembered.
-/

namespace SqlTree.Syntax.Parser

open Grammar Terminal Rule Rhs

variable {α : Type} {m b : Nat} {A B : List Terminal}

section Paths

theorem single_length {g : Token → Option α} {ls rest : List Lexeme} {a : α}
    (h : single g ls = .ok (a, rest)) : ls.length = rest.length + 1 := by
  cases ls with
  | nil => cases h
  | cons l ls =>
    rw [single, next_cons, Option.bind_some] at h
    cases hg : g l.token with
    | none =>
      rw [hg] at h
      cases h
    | some a' =>
      rw [hg] at h
      cases h
      rfl

/-- What every step leaves alone is the same when the steps are over. -/
theorem iterateOver_measure {step : α → Parser (Option α)} {μ : α → List Lexeme → Nat}
    (hstep : ∀ a ls o ms, step a ls = .ok (o, ms) → μ (o.getD a) ms = μ a ls)
    {fuel ls rest : List Lexeme} {a a' : α} (h : iterateOver step fuel a ls = .ok (a', rest)) :
    μ a' rest = μ a ls := by
  induction fuel generalizing a ls with
  | nil =>
    cases h
    rfl
  | cons l fuel ih =>
    obtain ⟨o, ms, ho, hrest⟩ := bind_ok h
    rw [← hstep a ls o ms ho]
    cases o with
    | none =>
      cases hrest
      rfl
    | some c => exact ih hrest

theorem takeSymbol_length {w : String} {ls ms : List Lexeme} {t : Bool}
    (h : takeSymbol w ls = .ok (t, ms)) : ls.length = ms.length + t.toNat := by
  rw [takeSymbol_run] at h
  cases ls with
  | nil =>
    cases h
    rfl
  | cons l ls =>
    cases hl : isSymbol w (some l.token) <;>
      · simp only [next_cons, hl, if_true, List.drop_one, List.tail_cons] at h
        cases h
        rfl

/-- A path has one token for each of its names, and one between any two. -/
theorem path_length {ls rest : List Lexeme} {head : Path} (h : path ls = .ok (head, rest)) :
    ls.length + 1 = rest.length + 2 * head.length := by
  obtain ⟨first, ms, hfirst, hrest⟩ := bind_ok h
  rw [name_eq] at hfirst
  have hmore := iterateOver_measure (μ := fun done ls => ls.length + 2 * done.length) ?_ hrest
  · have hone := single_length hfirst
    simp only [List.length_singleton] at hmore
    omega
  · intro done ls o ms ho
    obtain ⟨t, us, ht, hitem⟩ := bind_ok ho
    have hsign := takeSymbol_length ht
    cases t with
    | false =>
      cases hitem
      simpa using hsign.symm
    | true =>
      obtain ⟨n, vs, hn, ⟨⟩⟩ := bind_ok hitem
      rw [name_eq] at hn
      have hone := single_length hn
      simp only [Option.getD_some, List.length_append, List.length_singleton, Bool.toNat_true]
        at hsign ⊢
      omega

theorem length_ident {ts : List Token} (h : Derives Rule.ident ts) : ts.length = 1 := by
  obtain ⟨t, rfl, -⟩ := derives_ident_iff.mp h
  rfl

theorem length_dotted {ts : List Token} (h : Derives (seqs [DOT, Rule.ident]) ts) :
    ts.length = 2 := by
  cases h with
  | seq hdot hrest =>
    cases hdot with
    | token =>
      cases hrest with
      | seq hname hnil =>
        cases hnil
        simp [length_ident hname]

theorem lang_columnRef : lang columnRef = lang qualifiedName := by
  simp [lang_rule, rhs]

/-- What may stand in front of the arguments of a call. -/
def shortPath : Rhs := seq Rule.ident (opt (seqs [DOT, Rule.ident]))

theorem derives_shortPath_iff {ts : List Token} :
    Derives shortPath ts ↔ Derives qualifiedName ts ∧ ts.length ≤ 3 := by
  have hlang : lang qualifiedName = lang (seq Rule.ident (star (seqs [DOT, Rule.ident]))) := by
    simp [lang_rule, rhs]
  constructor
  · intro h
    cases h with
    | @seq _ _ us vs hfirst hrest =>
      have hone := length_ident hfirst
      cases hrest with
      | left hsecond =>
        have htwo := length_dotted hsecond
        refine ⟨hlang.ge (Derives.seq hfirst ?_ : Derives (seq _ _) _), ?_⟩
        · simpa using Derives.more hsecond .stop
        · simp [hone, htwo]
      | right hnil =>
        cases hnil
        exact ⟨hlang.ge (Derives.seq hfirst .stop : Derives (seq _ _) _), by simp [hone]⟩
  · rintro ⟨h, hlength⟩
    have hpath : Derives (seq Rule.ident (star (seqs [DOT, Rule.ident]))) ts := hlang.le h
    cases hpath with
    | @seq _ _ us vs hfirst hrest =>
      refine .seq hfirst ?_
      have hone := length_ident hfirst
      cases hrest with
      | stop => exact derives_opt_nil
      | @more _ vs ws hsecond hmore =>
        have htwo := length_dotted hsecond
        cases hmore with
        | stop => exact .left (by simpa using hsecond)
        | more hthird =>
          have hthree := length_dotted hthird
          simp only [List.length_append] at hlength
          omega

/-- A path of two names at most. -/
theorem exists_shortPath {ls : List Lexeme} (h : Derives shortPath (ls.map Lexeme.token)) :
    ∃ head, Accepts m (fun _ => path) ls (Clear [.DOT]) head ∧ head.length ≤ 2 := by
  obtain ⟨hpath, hlength⟩ := derives_shortPath_iff.mp h
  obtain ⟨head, hhead⟩ := (parses_path (m := m)).complete ls (Nat.lt_succ_self _) hpath
  refine ⟨head, hhead, ?_⟩
  have hrun := path_length (hhead m ls [] (Nat.le_refl m) (.refl ls) .none)
  simp only [List.length_map, List.append_nil, List.length_nil] at hlength hrun
  omega

theorem shortPath_sound {ls rest : List Lexeme} {head : Path} (h : path ls = .ok (head, rest))
    (hhead : head.length ≤ 2) :
    ∃ us, ls = us ++ rest ∧ Derives shortPath (us.map Lexeme.token) := by
  obtain ⟨us, rfl, hus⟩ := (parses_path (m := 0) (b := 0)).sound _ _ _ h
  have hlength := path_length h
  simp only [List.length_append] at hlength
  exact ⟨us, rfl, derives_shortPath_iff.mpr ⟨hus, by simp only [List.length_map]; omega⟩⟩

end Paths

section Calls

def callTail : Rhs := seqs [LPAR, opt funcArgs, RPAR, opt filterClause, opt overClause]

theorem lang_funcCall : lang funcCall = lang (seq funcName callTail) := by
  simp [lang_rule funcCall, rhs, callTail]

theorem spots_isCallWord : Spots isCallWord [LEFT, RIGHT] :=
  .or (spots_keyword rfl) (spots_keyword rfl)

/-- The name in front of a call. -/
def callName? (t : Token) : Option Name :=
  if isCallWord (some t) then some ⟨t.text, false⟩ else nameOf? t

theorem isCallWord_of_name {t : Token} (h : (nameOf? t).isSome = true) :
    isCallWord (some t) = false := by
  have hdisjoint : ∀ c ∈ [LEFT, RIGHT], c ∉ identStarts := by decide
  refine spots_isCallWord.eq_false ?_
  rintro _ ⟨⟩ c hc hmatch
  obtain ⟨d, hd, hmatch'⟩ := isSome_nameOf?.mp h
  exact hdisjoint c hc (hmatch.unique hmatch' ▸ hd)

theorem callWord_eq : callWord = single callName? := by
  funext ls
  rcases ls with _ | ⟨⟨gap, t⟩, ls⟩
  · rfl
  cases t with
  | keyword w text =>
    by_cases hw : w = "left" ∨ w = "right"
    · obtain rfl | rfl := hw <;> rfl
    · have hcall : isCallWord (some (.keyword w text)) = false := by
        simpa [isCallWord, isKeyword, not_or] using hw
      have hname : callWord (⟨gap, .keyword w text⟩ :: ls) =
          name (⟨gap, .keyword w text⟩ :: ls) :=
        congrFun (if_neg (by simpa using hw)) _
      rw [hname, name_eq, single, single, next_cons, Option.bind_some, Option.bind_some, callName?,
        hcall]
      rfl
  | _ => rfl

theorem derives_callWord_iff {ts : List Token} :
    Derives (alts [Rule.ident, LEFT, RIGHT]) ts ↔
      ∃ t, ts = [t] ∧ (callName? t).isSome = true := by
  have hword (t : Token) : (callName? t).isSome = true ↔
      (nameOf? t).isSome = true ∨ LEFT.Matches t ∨ RIGHT.Matches t := by
    have hspots : isCallWord (some t) = true ↔ LEFT.Matches t ∨ RIGHT.Matches t := by
      simp [spots_isCallWord (some t)]
    rw [callName?, ← hspots]
    split <;> simp_all
  simp only [derives_alts, List.mem_cons, List.not_mem_nil, or_false, exists_eq_or_imp,
    exists_eq_left, derives_ident_iff, Parses.derives_token_iff, ← exists_or, ← and_or_left, hword]

theorem parses_callWord : Parses m b (fun _ => callWord) (alts [Rule.ident, LEFT, RIGHT]) [] := by
  rw [callWord_eq]
  exact .single fun _ => derives_callWord_iff

theorem lang_funcName :
    lang funcName = lang shortPath + lang (seq (alts [LEFT, RIGHT]) (opt (seqs [DOT, Rule.ident]))) := by
  simp [lang_rule funcName, rhs, shortPath, add_mul]

theorem derives_shortPath {t : Token} {ts : List Token} (h : Derives funcName (t :: ts))
    (ht : isCallWord (some t) = false) : Derives shortPath (t :: ts) := by
  rcases (Language.mem_add _ _ _).mp (lang_funcName.le h) with hpath | hword
  · exact hpath
  · have hcall : isCallWord (some t) = true := by
      have hword : Derives (seq (alts [LEFT, RIGHT]) (opt (seqs [DOT, Rule.ident]))) (t :: ts) := hword
      obtain ⟨c, hc, hmatch⟩ := hword.first t rfl
      exact (spots_isCallWord _).mpr ⟨t, rfl, c, hc, hmatch⟩
    rw [ht] at hcall
    cases hcall

theorem parses_callHead : Parses m b (fun _ => callHead) funcName [.DOT] := by
  have hhead : Parses m b (fun _ => callHead)
      (seq (alts [Rule.ident, LEFT, RIGHT]) (alt (seq DOT Rule.ident) empty)) [.DOT] :=
    .seq parses_callWord (fun _ => .ifSign (Nat.le_succ b) rfl
      (parses_name.map.before (by decide)) .pure (by decide)) (by decide)
  exact (hhead.of_lang (by simp [rhs])).rule

theorem lang_argumentForms : lang argumentForms = lang funcArgs := by
  simp [lang_rule funcArgs, rhs, lang_rule Rule.exprList, Rhs.list, argumentForms, argumentsTail,
    mul_assoc]
  abel

variable (h : Inner m)

include h

theorem parses_arguments : Parses m (m + 1) (fun n => parens (arguments (nested n)))
    (seqs [LPAR, opt funcArgs, RPAR]) [] := by
  have harguments : Parses m (m + 1) (fun n => parens (arguments (nested n)))
      (seqs [LPAR, opt argumentForms, RPAR]) [] :=
    .maybeParens (Nat.le_refl _) (parses_argumentForms h) (by decide) (by decide) (by decide)
  exact harguments.of_lang (by simp [lang_argumentForms])

theorem parses_callRest (head : Path) :
    Parses m (m + 1) (fun n => callRest (nested n) head) callTail callFollow := by
  have hfilter : Parses m (m + 1) (fun n => optional "filter" (filter (nested n)))
      (opt (seq FILTER (seqs [LPAR, seq WHERE Rule.expr, RPAR]))) [.FILTER] :=
    .optional (Nat.le_succ _) rfl ((parses_filter h).before (by decide)) (by decide)
  have hwindow : Parses m (m + 1) (fun n => optional "over" (window (nested n)))
      (opt (seq OVER (alt (seqs [LPAR, Rule.windowSpec, RPAR]) Rule.ident))) [.OVER] :=
    .optional (Nat.le_succ _) rfl ((parses_window h).before (by decide)) (by decide)
  have hcall : Parses m (m + 1) (fun n => callRest (nested n) head) (seq _ (seq _ _)) callFollow :=
    .seq (parses_arguments h) (fun _ => .seq hfilter (fun _ => hwindow.map.before (by decide))
      (by decide)) (by decide)
  refine hcall.of_lang ?_
  simp [callTail, lang_rule filterClause, lang_rule overClause, rhs, mul_add, mul_assoc]

omit h in
theorem callFrom_run {p : Nested} {start ls rest : List Lexeme} {head : Path} {args : CallArguments}
    {e : Expr} (hrest : callRest p head ls = .ok ((args, e), rest)) :
    callFrom p start head ls = .ok (if args.ordered then
      .verbatim (Lexeme.span (start.take (start.length - rest.length))) else e, rest) := by
  refine (bind_run hrest).trans ?_
  cases hargs : args.ordered <;> simp only [hargs, if_true] <;> rfl

theorem callFrom_sound {start ls rest : List Lexeme} {head : Path} {e : Expr}
    (hrun : callFrom (nested m) start head ls = .ok (e, rest)) :
    ∃ us, ls = us ++ rest ∧ Derives callTail (us.map Lexeme.token) := by
  obtain ⟨⟨args, e'⟩, ms, hrest, -⟩ := bind_ok hrun
  rw [callFrom_run hrest] at hrun
  cases hrun
  exact (parses_callRest h head).sound _ _ _ hrest

/-- The call does not tell what stood before its first token. -/
theorem exists_callFrom (hs : List Lexeme) {ks : List Lexeme} (head : Path) (hks : ks.length < m + 1)
    (htail : Derives callTail (ks.map Lexeme.token)) :
    ∃ e, ∀ n hs' ks' rest, m ≤ n → Alike (hs ++ ks) (hs' ++ ks') → Alike ks ks' →
      Clear callFollow rest →
      callFrom (nested n) (hs' ++ (ks' ++ rest)) head (ks' ++ rest) = .ok (e, rest) := by
  obtain ⟨⟨args, e⟩, hcall⟩ := (parses_callRest h head).complete ks hks htail
  refine ⟨if args.ordered then .verbatim (Lexeme.span (hs ++ ks)) else e, ?_⟩
  intro n hs' ks' rest hn hall hls hr
  rw [callFrom_run (hcall n ks' rest hn hls hr), hall.span, ← List.append_assoc,
    List.length_append, Nat.add_sub_cancel, List.take_left]

theorem parses_call : Parses m (m + 1) (fun n => call (nested n)) funcCall callFollow where
  sound ls e rest hp := by
    change (do let head ← callHead; callFrom (nested m) ls head : Parser Expr) ls = _ at hp
    obtain ⟨head, ms, hhead, hcall⟩ := bind_ok hp
    obtain ⟨us, rfl, hus⟩ := (parses_callHead (m := m) (b := m)).sound _ _ _ hhead
    obtain ⟨vs, rfl, hvs⟩ := callFrom_sound h hcall
    exact ⟨us ++ vs, by simp, lang_funcCall.ge (hus.append hvs)⟩
  complete ls hls hx := by
    have hsplit : Derives (seq funcName callTail) _ := lang_funcCall.le hx
    obtain ⟨hs, ks, rfl, hname, htail⟩ := hsplit.split
    rw [List.length_append] at hls
    obtain ⟨head, hhead⟩ := (parses_callHead (m := m)).complete hs (Nat.lt_succ_self _) hname
    obtain ⟨e, he⟩ := exists_callFrom h hs head (by omega) htail
    refine ⟨e, fun n ls' rest hn hls' hr => ?_⟩
    obtain ⟨hs', ks', rfl, hhs, hks⟩ := hls'.append
    have hfit : Fits callTail [.DOT] callFollow := by decide
    rw [List.append_assoc]
    refine (bind_run (hhead n hs' _ hn hhs (hfit.clear htail hks hr))).trans ?_
    exact he n hs' ks' rest hn hls' hks hr

omit h in
theorem callOrPath_run {p : Nested} {called : Expr → Parser α} {other : Path → Parser α}
    (ls : List Lexeme) :
    callOrPath p called other ls =
      if isCallWord (next ls) = true then (call p >>= called) ls
      else (path >>= fun head => fun ms =>
        if (decide (head.length ≤ 2) && isSymbol "(" (next ms)) = true then
          (callFrom p ls head >>= called) ms
        else other head ms) ls := by
  change (if isCallWord (next ls) = true then _ else _ : Parser α) ls = _
  split
  · rfl
  · change (path >>= fun head => atSymbol "(" >>= fun t =>
      if (decide (head.length ≤ 2) && t) = true then callFrom p ls head >>= called
      else other head) ls = _
    refine congrFun (bind_congr fun head => funext fun ms => ?_) ls
    change (if (decide (head.length ≤ 2) && isSymbol "(" (next ms)) = true then
      callFrom p ls head >>= called else other head) ms = _
    split <;> rfl

/-- A call without a word in front of it is found by its path and the parenthesis. -/
theorem exists_called {cs : List Lexeme} (hcs : cs.length < m + 1)
    (hcall : Derives funcCall (cs.map Lexeme.token)) :
    ∃ e, ∀ n cs' rest (called : Expr → Parser α) other, m ≤ n → Alike cs cs' →
      Clear callFollow rest →
      callOrPath (nested n) called other (cs' ++ rest) = called e rest := by
  cases cs with
  | nil => exact absurd (hcall.nullable rfl) (by decide)
  | cons l cs =>
    cases hword : isCallWord (some l.token) with
    | true =>
      obtain ⟨e, he⟩ := (parses_call h).complete (l :: cs) hcs hcall
      refine ⟨e, fun n cs' rest called other hn hls hr => ?_⟩
      have hnext : next (cs' ++ rest) = some l.token := hls.next_append rest
      rw [callOrPath_run, hnext, if_pos hword]
      exact bind_run (he n cs' rest hn hls hr)
    | false =>
      have hsplit : Derives (seq funcName callTail) _ := lang_funcCall.le hcall
      obtain ⟨hs, ks, hlks, hname, htail⟩ := hsplit.split
      cases hs with
      | nil => exact absurd (hname.nullable rfl) (by decide)
      | cons l₁ hs =>
        obtain ⟨rfl, rfl⟩ : l = l₁ ∧ cs = hs ++ ks := List.cons.inj hlks
        rw [List.length_cons, List.length_append] at hcs
        have hpath : Derives shortPath ((l :: hs).map Lexeme.token) := derives_shortPath hname hword
        obtain ⟨head, hhead, hlength⟩ := exists_shortPath (m := m) hpath
        obtain ⟨e, he⟩ := exists_callFrom h (l :: hs) head (by omega) htail
        refine ⟨e, fun n cs' rest called other hn hls hr => ?_⟩
        have hnext : next (cs' ++ rest) = some l.token := hls.next_append rest
        rw [← List.cons_append] at hls
        obtain ⟨hs', ks', rfl, hhs, hks⟩ := hls.append
        have hfit : Fits callTail [.DOT] callFollow := by decide
        obtain ⟨t, ht, c, hc, hmatch⟩ : Meets [LPAR] (ks' ++ rest) :=
          (by decide : Starts [LPAR] callTail).meets htail hks
        have hparen : isSymbol "(" (next (ks' ++ rest)) = true :=
          (spots_symbol (c := .LPAR) rfl _).mpr ⟨t, ht, c, hc, hmatch⟩
        rw [callOrPath_run, hnext, hword, if_neg Bool.false_ne_true, List.append_assoc]
        refine (bind_run (hhead n hs' _ hn hhs (hfit.clear htail hks hr))).trans ?_
        rw [if_pos (by simp [hlength, hparen])]
        exact bind_run (he n hs' ks' rest hn hls hks hr)

omit h in
theorem exists_uncalled {cs : List Lexeme} (hcolumn : Derives columnRef (cs.map Lexeme.token)) :
    ∃ head, ∀ n cs' rest (called : Expr → Parser α) other, Alike cs cs' →
      Clear [.DOT, .LPAR] rest →
      callOrPath (nested n) called other (cs' ++ rest) = other head rest := by
  have hpath : Derives qualifiedName (cs.map Lexeme.token) := lang_columnRef.le hcolumn
  obtain ⟨head, hhead⟩ := (parses_path (m := 0)).complete cs (Nat.lt_succ_self _) hpath
  refine ⟨head, fun n cs' rest called other hls hr => ?_⟩
  have hword : isCallWord (next (cs' ++ rest)) = false := by
    have hfit : Fits columnRef [LEFT, RIGHT] [] := by decide
    exact spots_isCallWord.eq_false (hfit.clear hcolumn hls (B := []) nofun)
  have hparen : isSymbol "(" (next rest) = false := hr.isSymbol (c := .LPAR) rfl (by decide)
  rw [callOrPath_run, hword, if_neg Bool.false_ne_true]
  refine (bind_run (hhead 0 cs' rest (Nat.le_refl 0) hls (hr.mono (by decide)))).trans ?_
  simp [hparen]

/-- A call or a path, and what becomes of it. -/
theorem parses_callOrPath {called : Expr → Nat → Parser α} {other : Path → Nat → Parser α}
    {y z : Rhs} (hcalled : ∀ e, Parses m (m + 1) (called e) y B)
    (hother : ∀ path, Parses m (m + 1) (other path) z B) (hy : Fits y callFollow B)
    (hz : Fits z [.DOT, .LPAR] B) :
    Parses m (m + 1) (fun n => callOrPath (nested n) (fun e => called e n) fun path => other path n)
      (alt (seq funcCall y) (seq columnRef z)) B where
  sound ls a rest hp := by
    rw [callOrPath_run] at hp
    split at hp
    · obtain ⟨e, ms, he, ha⟩ := bind_ok hp
      obtain ⟨us, rfl, hus⟩ := (parses_call h).sound _ _ _ he
      obtain ⟨vs, rfl, hvs⟩ := (hcalled e).sound _ _ _ ha
      exact ⟨us ++ vs, by simp, .left (hus.append hvs)⟩
    · obtain ⟨head, ms, hhead, hrest⟩ := bind_ok hp
      split at hrest
      case isTrue hcond =>
        rw [Bool.and_eq_true, decide_eq_true_eq] at hcond
        obtain ⟨us, rfl, hus⟩ := shortPath_sound hhead hcond.1
        obtain ⟨e, ks, he, ha⟩ := bind_ok hrest
        obtain ⟨vs, rfl, hvs⟩ := callFrom_sound h he
        obtain ⟨ws, rfl, hws⟩ := (hcalled e).sound _ _ _ ha
        have hname : Derives funcName (us.map Lexeme.token) :=
          lang_funcName.ge ((Language.mem_add _ _ _).mpr (.inl hus))
        have hcall : Derives funcCall ((us ++ vs).map Lexeme.token) :=
          lang_funcCall.ge (hname.append hvs)
        exact ⟨us ++ vs ++ ws, by simp, .left (hcall.append hws)⟩
      case isFalse =>
        obtain ⟨us, rfl, hus⟩ := (parses_path (m := m) (b := m)).sound _ _ _ hhead
        obtain ⟨vs, rfl, hvs⟩ := (hother head).sound _ _ _ hrest
        have hcolumn : Derives columnRef (us.map Lexeme.token) :=
          lang_columnRef.ge hus
        exact ⟨us ++ vs, by simp, .right (hcolumn.append hvs)⟩
  complete ls hls hx := by
    generalize hts : ls.map Lexeme.token = ts at hx
    cases hx with
    | left hx =>
      subst hts
      obtain ⟨cs, vs, rfl, hcall, hrest⟩ := hx.split
      rw [List.length_append] at hls
      obtain ⟨e, he⟩ := exists_called (α := α) h (by omega) hcall
      obtain ⟨a, ha⟩ := (hcalled e).complete vs (by omega) hrest
      refine ⟨a, fun n ls' rest hn hls' hr => ?_⟩
      obtain ⟨cs', vs', rfl, hcs, hvs⟩ := hls'.append
      rw [List.append_assoc]
      exact (he n cs' _ _ _ hn hcs (hy.clear hrest hvs hr)).trans (ha n vs' rest hn hvs hr)
    | right hx =>
      subst hts
      obtain ⟨cs, vs, rfl, hcolumn, hrest⟩ := hx.split
      rw [List.length_append] at hls
      obtain ⟨head, hhead⟩ := exists_uncalled (α := α) hcolumn
      obtain ⟨a, ha⟩ := (hother head).complete vs (by omega) hrest
      refine ⟨a, fun n ls' rest hn hls' hr => ?_⟩
      obtain ⟨cs', vs', rfl, hcs, hvs⟩ := hls'.append
      rw [List.append_assoc]
      exact (hhead n cs' _ _ _ hcs (hz.clear hrest hvs hr)).trans (ha n vs' rest hn hvs hr)

end Calls

end SqlTree.Syntax.Parser
