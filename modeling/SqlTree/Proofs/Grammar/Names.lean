import SqlTree.Proofs.Grammar.Parses
import SqlTree.Syntax.Parser.Name

/-!
The parsers of names, paths, aliases and type names take what the grammar says.
-/

namespace SqlTree.Syntax.Parser

open Grammar Terminal Rule Rhs

variable {m b : Nat} {A : List Terminal}

section Names

theorem unreserved_eq : identStarts.filterMap Terminal.word? = Token.unreserved := by decide

theorem isSome_nameOf? {t : Token} :
    (nameOf? t).isSome = true ↔ ∃ c ∈ identStarts, c.Matches t := by
  cases t with
  | keyword w text => simp [nameOf?, Terminal.Matches, ← unreserved_eq]
  | symbol s => simp [nameOf?, Terminal.Matches, identStarts, Terminal.signs]
  | _ => simp [nameOf?, Terminal.Matches, identStarts]

theorem spots_isName : Spots isName identStarts := by
  intro o
  cases o with
  | none => simp [isName]
  | some t => simp [isName, isSome_nameOf?]

theorem derives_ident_iff {ts : List Token} :
    Derives ident ts ↔ ∃ t, ts = [t] ∧ (nameOf? t).isSome = true := by
  have hlang : lang ident = lang (alts (identStarts.map token)) := by
    simp [lang_rule, rhs, identStarts]
  simp only [isSome_nameOf?, ← derives_alts_iff, ← mem_lang, hlang]

theorem name_eq : name = single nameOf? := by
  funext ls
  have hpeek : peek ls = .ok (next ls, ls) := rfl
  rw [name, bind_run hpeek, single]
  cases ls with
  | nil => rfl
  | cons l ls =>
    rw [next_cons, Option.bind_some]
    cases nameOf? l.token <;> rfl

theorem parses_name : Parses m b (fun _ => name) ident [] := by
  rw [name_eq]
  exact .single fun _ => derives_ident_iff

theorem parses_pathFrom (first : Name) :
    Parses m b (fun _ => pathFrom first) (star (seqs [DOT, ident])) [.DOT] :=
  .more rfl parses_name (by decide) (by decide) [first]

theorem parses_path : Parses m b (fun _ => path) qualifiedName [.DOT] :=
  .rule (.seq parses_name (fun first => .last (parses_pathFrom first)) (by decide))

theorem parses_names : Parses m b (fun _ => names) identList [.COMMA] :=
  .rule (.commas parses_name (by decide) (by decide))

theorem parses_nameList : Parses m b (fun _ => nameList) (seqs [LPAR, identList, RPAR]) [] :=
  .parens (Nat.le_succ b) parses_names (by decide)

theorem parses_aliasName : Parses m b (fun _ => aliasName) (opt aliasClause) (.AS :: identStarts) := by
  have hname {A : List Terminal} : Parses m b (fun _ => return some (← name)) ident A :=
    (parses_name.map).before (by simp)
  have halias : Parses m b (fun _ => aliasName) (alt (seq AS ident) (alt ident empty))
      (.AS :: identStarts) :=
    .ifWord (Nat.le_succ b) rfl hname
      (.ifNext spots_isName hname .pure rfl (by decide) (by decide)) (by decide)
  exact halias.of_lang (by simp [lang_rule aliasClause, rhs, add_mul, add_assoc])

end Names

section Types

def plainName? : Token → Option String
  | .name t => some t
  | _ => none

theorem isSome_plainName? (t : Token) : (plainName? t).isSome = true ↔ NAME.Matches t := by
  cases t <;> first | exact iff_of_true rfl rfl | exact iff_of_false nofun nofun

theorem plainName_eq : plainName = single plainName? := by
  funext ls
  rcases ls with _ | ⟨⟨_, _ | _⟩, ls⟩ <;> rfl

theorem parses_plainName : Parses m b (fun _ => plainName) NAME [] := by
  rw [plainName_eq]
  exact .single_of isSome_plainName?

def numeral? : Token → Option String
  | .number t => some t
  | _ => none

theorem isSome_numeral? (t : Token) : (numeral? t).isSome = true ↔ NUMBER.Matches t := by
  cases t <;> first | exact iff_of_true rfl rfl | exact iff_of_false nofun nofun

theorem numeral_eq : numeral = single numeral? := by
  funext ls
  rcases ls with _ | ⟨⟨_, _ | _⟩, ls⟩ <;> rfl

theorem parses_numeral : Parses m b (fun _ => numeral) NUMBER [] := by
  rw [numeral_eq]
  exact .single_of isSome_numeral?

theorem parses_typeModifiers :
    Parses m b (fun _ => typeModifiers) (opt typeModifier) [.LPAR] := by
  have h : Parses m b (fun _ => typeModifiers)
      (alt (seq LPAR (seqs [Rhs.list NUMBER, RPAR])) empty) [.LPAR] :=
    .ifSign (Nat.le_succ b) rfl
      (.seq (.commas parses_numeral (by decide) (List.Subset.refl _))
        (fun ts => .symbol (Nat.le_succ b) rfl .pure) (by decide))
      .pure (by decide)
  exact h.of_lang (by simp [lang_rule typeModifier, rhs])

/-- The keyword that is a type as well. -/
def timeWord? : Token → Option String
  | .keyword w t => if w = "time" then some t else none
  | _ => none

theorem isSome_timeWord? (t : Token) : (timeWord? t).isSome = true ↔ TIME.Matches t := by
  cases t with
  | keyword w text =>
    have htime : TIME.word? = some "time" := rfl
    rw [Terminal.Matches, htime, timeWord?]
    split
    case isTrue hw => exact iff_of_true rfl (congrArg some hw.symm)
    case isFalse hw => exact iff_of_false (by simp) fun h => hw (Option.some.inj h).symm
  | symbol s => simp [timeWord?, Terminal.Matches, Terminal.signs]
  | _ => simp [timeWord?, Terminal.Matches]

theorem parses_timeWord : Parses m b (fun _ => single timeWord?) TIME [] :=
  .single_of isSome_timeWord?

/-- What follows the first word of a type, which is a plain name or a keyword. -/
def typeRest (simple : Bool) (word : String) : Parser TypeBase := do
  if ← takeSymbol "." then return .plain [word, ← plainName]
  if simple then
    if ← takeKeyword "precision" then return .precision word
    if ← takeKeyword "varying" then return .varying word
  if ← takeKeyword "with" then
    timeZone
    return .withTimeZone word
  if ← takeKeyword "without" then
    timeZone
    return .withoutTimeZone word
  return .plain [word]

theorem parses_timeZone : Parses m b (fun _ => timeZone) (seqs [TIME, ZONE]) [] :=
  .keyword (Nat.le_succ b) rfl (.keyword (Nat.le_succ b) rfl .pure)

/-- What the keyword may be followed by in a type. -/
def timeTail : Rhs := alts [
  seqs [DOT, NAME], seqs [WITH, TIME, ZONE], seqs [WITHOUT, TIME, ZONE], empty]

def timeTailFollow : List Terminal := [.DOT, .WITH, .WITHOUT]

theorem parses_typeRest_false (word : String) :
    Parses m b (fun _ => typeRest false word) timeTail timeTailFollow := by
  have hzone (base : TypeBase) {A : List Terminal} :
      Parses m b (fun _ => do timeZone; return base) (seqs [TIME, ZONE]) A :=
    (parses_timeZone.map (g := fun _ => base)).before (by simp)
  have h : Parses m b (fun _ => typeRest false word)
      (alt (seq DOT NAME) (alt (seq WITH (seqs [TIME, ZONE])) (alt (seq WITHOUT (seqs [TIME, ZONE]))
        empty))) timeTailFollow :=
    .ifSign (Nat.le_succ b) rfl (parses_plainName.map.before (by simp))
      (.ifWord (Nat.le_succ b) rfl (hzone _)
        (.ifWord (Nat.le_succ b) rfl (hzone _) .pure (by decide)) (by decide)) (by decide)
  exact h.of_lang (by simp [timeTail])

/-- What a plain name may be followed by in a type. -/
def plainTail : Rhs := alts [
  seqs [DOT, NAME], PRECISION, VARYING, seqs [WITH, TIME, ZONE], seqs [WITHOUT, TIME, ZONE], empty]

def plainTailFollow : List Terminal := [.DOT, .PRECISION, .VARYING, .WITH, .WITHOUT]

theorem parses_typeRest_true (word : String) :
    Parses m b (fun _ => typeRest true word) plainTail plainTailFollow := by
  have hzone (base : TypeBase) {A : List Terminal} :
      Parses m b (fun _ => do timeZone; return base) (seqs [TIME, ZONE]) A :=
    (parses_timeZone.map (g := fun _ => base)).before (by simp)
  have h : Parses m b (fun _ => typeRest true word)
      (alt (seq DOT NAME) (alt (seq PRECISION empty) (alt (seq VARYING empty)
        (alt (seq WITH (seqs [TIME, ZONE])) (alt (seq WITHOUT (seqs [TIME, ZONE])) empty)))))
      plainTailFollow :=
    .ifSign (Nat.le_succ b) rfl (parses_plainName.map.before (by simp))
      (.ifWord (Nat.le_succ b) rfl .pure (.ifWord (Nat.le_succ b) rfl .pure
        (.ifWord (Nat.le_succ b) rfl (hzone _)
          (.ifWord (Nat.le_succ b) rfl (hzone _) .pure (by decide)) (by decide)) (by decide))
          (by decide)) (by decide)
  exact h.of_lang (by simp [plainTail])

def isPlain (o : Option Token) : Bool := (o.bind plainName?).isSome

theorem spots_isPlain : Spots isPlain [NAME] := by
  intro o
  cases o with
  | none => simp [isPlain]
  | some t => simp [isPlain, isSome_plainName?]

theorem typeBase_eq : typeBase = (do
    if isPlain (← peek) then typeRest true (← plainName)
    else typeRest false (← single timeWord?) : Parser TypeBase) := by
  funext ls
  rcases ls with _ | ⟨⟨gap, _ | _ | _ | _ | _ | ⟨w, text⟩ | _ | _⟩, ls⟩
  case cons.keyword =>
    by_cases hw : w = "time"
    · subst hw
      rfl
    · have hword : typeWord? (.keyword w text) = none := if_neg hw
      have hpeek : peek (⟨gap, .keyword w text⟩ :: ls) =
          .ok (some (.keyword w text), ⟨gap, .keyword w text⟩ :: ls) := rfl
      have htime : single timeWord? (⟨gap, .keyword w text⟩ :: ls) =
          .error (⟨gap, .keyword w text⟩ :: ls) := by
        rw [single, next_cons, Option.bind_some, timeWord?, if_neg hw]
        rfl
      rw [typeBase, bind_run hpeek]
      simp only [hword]
      change _ = (single timeWord? _).bind _
      rw [htime]
      rfl
  all_goals rfl

theorem parses_typeBase : Parses m b (fun _ => typeBase) Rule.typeBase plainTailFollow := by
  have hplain := parses_plainName.seq (m := m) (b := b) parses_typeRest_true (by decide)
  have htime := parses_timeWord.seq (m := m) (b := b) parses_typeRest_false (by decide)
  rw [typeBase_eq]
  refine Parses.of_lang (.ifNext spots_isPlain hplain (htime.before ?_) rfl ?_ ?_) ?_
  · decide
  · decide
  · decide
  · simp [lang_rule Rule.typeBase, rhs, plainTail, timeTail, mul_add, add_mul]
    ac_rfl

/-- Brackets with nothing in them are not next. -/
def Unbounded (ls : List Lexeme) : Prop :=
  isSymbol "[" (next ls) = true → isSymbol "]" (next (ls.drop 1)) = false

/-- What is passed over in a step of `brackets`. -/
def bound (n : Nat) : Parser (Option Nat) := do
  symbol "["
  symbol "]"
  return some (n + 1)

def boundStep (mayIndex : Bool) (n : Nat) : Parser (Option Nat) := do
  if !(← atSymbol "[") then return none
  if mayIndex && !isSymbol "]" (← peekSecond) then return none
  bound n

theorem brackets_eq (mayIndex : Bool) : brackets mayIndex = iterate (boundStep mayIndex) 0 := rfl

theorem boundStep_run (mayIndex : Bool) (n : Nat) (ls : List Lexeme) :
    boundStep mayIndex n ls =
      if !isSymbol "[" (next ls) || mayIndex && !isSymbol "]" (next (ls.drop 1))
      then .ok (none, ls) else bound n ls := by
  have hrun : boundStep mayIndex n ls = (if (!isSymbol "[" (next ls)) = true then pure none
    else (do
      if mayIndex && !isSymbol "]" (← peekSecond) then return none
      bound n)) ls := rfl
  rw [hrun]
  cases isSymbol "[" (next ls) with
  | false => rfl
  | true =>
    change (if (mayIndex && !isSymbol "]" (next (ls.drop 1))) = true then pure none else bound n)
      ls = _
    cases mayIndex && !isSymbol "]" (next (ls.drop 1)) <;> rfl

theorem parses_bound (n : Nat) : Parses m b (fun _ => bound n) arrayBounds [] :=
  .rule (.symbol (Nat.le_succ b) rfl (.symbol (Nat.le_succ b) rfl .pure))

theorem certain_bound (n : Nat) : Parses.Certain (bound n) := .bind fun _ => .bind fun _ => .some

theorem boundStep_stop {mayIndex : Bool} {n : Nat} {ls : List Lexeme}
    (h : isSymbol "[" (next ls) = false) : boundStep mayIndex n ls = .ok (none, ls) := by
  rw [boundStep_run, h]
  rfl

theorem step_bound (mayIndex : Bool) (n : Nat) {F : List Lexeme → Prop} :
    Parses.Step m b (fun _ => boundStep mayIndex n) arrayBounds F where
  sound ls o rest hrun := by
    rw [boundStep_run] at hrun
    split at hrun
    · cases hrun
      exact .inl ⟨rfl, rfl⟩
    · obtain ⟨us, rfl, hus⟩ := (parses_bound (m := 0) (b := 0) n).sound ls o rest hrun
      obtain ⟨a, rfl⟩ := Option.isSome_iff_exists.mp (certain_bound n _ _ _ hrun)
      exact .inr ⟨a, us, rfl, rfl, hus⟩
  complete ls hls hbounds := by
    obtain ⟨o, ho⟩ := (parses_bound (m := m) n).complete ls hls hbounds
    obtain ⟨a, rfl⟩ := Option.isSome_iff_exists.mp
      (certain_bound n _ _ _ (ho m ls [] (Nat.le_refl m) (.refl ls) .none))
    refine ⟨a, fun k ls' rest hk hls' _ => ?_⟩
    obtain ⟨l, us, rfl, hl, hus⟩ := Parses.cons_of_token ((lang_rule arrayBounds).le hbounds)
    obtain ⟨l₂, vs, rfl, hl₂, -⟩ := Parses.cons_of_token hus
    have hrest := ho k ls' rest hk hls' nofun
    obtain ⟨l', rfl, htoken⟩ := hls'.cons
    have hopen : isSymbol "[" (some l'.token) = true := (isSymbol_iff rfl).mpr (htoken ▸ hl)
    have hclose : isSymbol "]" (some l₂.token) = true := (isSymbol_iff rfl).mpr hl₂
    change boundStep mayIndex n _ = _
    rw [boundStep_run]
    simpa [hopen, hclose] using hrest

theorem exists_brackets {ls : List Lexeme} (h : Derives (star arrayBounds) (ls.map Lexeme.token)) :
    ∃ n, Accepts m (fun _ => brackets true) ls Unbounded n := by
  rw [brackets_eq]
  refine Parses.exists_iterate (F := fun _ => True) (b := ls.length + 1)
    (fun n => step_bound true n) rfl ?_ (fun _ _ _ _ => trivial) (Nat.lt_succ_self _) h 0
  intro n _ ls _ hls
  rw [boundStep_run]
  cases ho : isSymbol "[" (next ls) with
  | false => rfl
  | true =>
    rw [hls ho]
    rfl

theorem parses_brackets : Parses m b (fun _ => brackets false) (star arrayBounds) [.LSQB] := by
  rw [brackets_eq]
  exact .iterate (A := []) (fun n => step_bound false n)
    (fun _ _ _ _ hnext => boundStep_stop (hnext.isSymbol rfl List.mem_cons_self)) rfl
    ⟨nofun, nofun⟩ (List.Subset.refl _) 0

/-- What must not follow a type so that all of it is taken. -/
def typeFollow : List Terminal := .LPAR :: plainTailFollow

theorem parses_typeName :
    Parses m b (fun _ => typeName false) Rule.typeName (.LSQB :: typeFollow) :=
  .rule (.seq parses_typeBase (fun _ => .seq parses_typeModifiers
    (fun _ => .last (parses_brackets.map.before (by decide))) (by decide)) (by decide))

theorem lang_typeName : lang Rule.typeName =
    lang Rule.typeBase * (lang (opt typeModifier) * lang (star arrayBounds)) := by
  simp [lang_rule Rule.typeName, rhs]

/-- The type of a cast, which an index may follow. -/
theorem typecast_sound {ls rest : List Lexeme} {type : TypeName}
    (h : typeName true ls = .ok (type, rest)) :
    ∃ us, ls = us ++ rest ∧ Derives Rule.typeName (us.map Lexeme.token) := by
  obtain ⟨base, ls₁, hbase, h⟩ := bind_ok h
  obtain ⟨modifiers, ls₂, hmodifiers, h⟩ := bind_ok h
  obtain ⟨n, ls₃, hn, ⟨⟩⟩ := bind_ok h
  obtain ⟨us, rfl, hus⟩ := (parses_typeBase (m := 0) (b := 0)).sound _ _ _ hbase
  obtain ⟨vs, rfl, hvs⟩ := (parses_typeModifiers (m := 0) (b := 0)).sound _ _ _ hmodifiers
  rw [brackets_eq] at hn
  obtain ⟨ws, rfl, hws⟩ := Parses.iterateOver_sound (m := 0) (b := 0)
    (fun n => step_bound true n (F := fun _ => True)) hn
  refine ⟨us ++ (vs ++ ws), by simp, lang_typeName.ge ?_⟩
  exact ⟨_, hus, _, ⟨_, hvs, _, hws, rfl⟩, by simp⟩

theorem exists_typecast {ls : List Lexeme} (h : Derives Rule.typeName (ls.map Lexeme.token)) :
    ∃ type, Accepts m (fun _ => typeName true) ls
      (fun rest => Clear typeFollow rest ∧ Unbounded rest) type := by
  obtain ⟨_, hbase, _, ⟨_, hmodifiers, _, hbounds, rfl⟩, hts⟩ := lang_typeName.le h
  obtain ⟨us, ms, rfl, rfl, hms⟩ := List.map_eq_append_iff.mp hts.symm
  obtain ⟨vs, ws, rfl, rfl, rfl⟩ := List.map_eq_append_iff.mp hms
  obtain ⟨base, hus⟩ := (parses_typeBase (m := m)).complete us (Nat.lt_succ_self _) hbase
  obtain ⟨modifiers, hvs⟩ :=
    (parses_typeModifiers (m := m)).complete vs (Nat.lt_succ_self _) hmodifiers
  obtain ⟨n, hws⟩ := exists_brackets (m := m) hbounds
  have hfit : Fits (star arrayBounds) [.LPAR] typeFollow := by decide
  have hfit' : Fits (seq (opt typeModifier) (star arrayBounds)) plainTailFollow typeFollow := by
    decide
  refine ⟨⟨base, modifiers, n⟩, hus.bind (hvs.bind (hws.map.mono fun _ hr => hr.2) ?_) ?_⟩
  · exact fun _ _ hzs hr => hfit.clear hbounds hzs hr.1
  · exact fun _ _ hzs hr => hfit'.clear (List.map_append ▸ hmodifiers.seq hbounds) hzs hr.1

end Types

end SqlTree.Syntax.Parser
