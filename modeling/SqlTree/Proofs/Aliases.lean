import SqlTree.Proofs.Conditions.Columns
import SqlTree.Proofs.RoundTrip.Items
import SqlTree.Proofs.Vocabulary.Query
import SqlTree.Format

/-!
Pairs of a value and its alias. The parser builds them without a look at the operators, so a pair
whose value is a column or table that has the name of an operator is read as an operation.
-/

namespace SqlTree

open Syntax (Always Expr Name Operand Path Read Tree headed visit)

section Operators

variable {t : String}

theorem isSome_lookup_iff {α : Type} {es : List (String × α)} :
    (es.lookup t).isSome = true ↔ t ∈ es.map (·.1) := by
  refine ⟨fun h => ?_, fun h => ?_⟩
  · obtain ⟨a, ha⟩ := Option.isSome_iff_exists.mp h
    obtain ⟨l₁, l₂, hl, -⟩ := List.lookup_eq_some_iff.mp ha
    exact List.mem_map.mpr ⟨(t, a), by simp [hl], rfl⟩
  · obtain ⟨e, he, rfl⟩ := List.mem_map.mp h
    rw [← Option.not_isNone, Bool.not_eq_true', ← Bool.not_eq_true, Option.isNone_iff_eq_none,
      List.lookup_eq_none_iff]
    exact fun hnone => by simpa using hnone e he

/-- Every name under which an operator is looked up is the name of one. -/
theorem isOperator_iff : Registry.standard.isOperator t = true ↔ Text.lower t ∈ operatorNames := by
  have haliases : ∀ a ∈ Operator.aliases, a.2 ∈ Registry.standard.binary := by decide
  cases hlookup : Operator.aliases.lookup (Text.lower t) with
  | some op =>
    have hmem := isSome_lookup_iff.mp (Option.isSome_iff_exists.mpr ⟨op, hlookup⟩)
    obtain ⟨l₁, l₂, hl, -⟩ := List.lookup_eq_some_iff.mp hlookup
    have hbinary : Registry.standard.isBinary op = true :=
      List.contains_iff_mem.mpr (haliases (Text.lower t, op) (by simp [hl]))
    have hname : Text.lower t ∈ operatorNames := List.mem_append_right _ hmem
    simp [Registry.isOperator, Registry.normalize, hlookup, hbinary, hname]
  | none =>
    have hnot : Text.lower t ∉ Operator.aliases.map (·.1) := by
      rw [← isSome_lookup_iff, hlookup]
      exact Bool.false_ne_true
    simp only [Registry.isOperator, Registry.normalize, hlookup, Option.getD_none, operatorNames,
      Bool.or_eq_true, List.mem_append, hnot, or_false, Registry.isBinary, List.contains_iff_mem,
      Registry.form?, isSome_lookup_iff]

end Operators

section Values

/-- A bare text is a path of names that are written without quotes. -/
def NamesPath (v : Value) : Prop :=
  ∀ t, v = .text t → ∃ p : Path, p.all Name.isPlain = true ∧ t = p.text

theorem namesPath_of_isText {v : Value} (h : v.isText = false) : NamesPath v := by
  rintro t rfl
  cases h

theorem namesPath_value (p : Path) : NamesPath p.value := by
  intro t ht
  unfold Path.value at ht
  split at ht
  · next hplain => exact ⟨p, hplain, (Value.text.inj ht).symm⟩
  · cases ht

theorem namesPath_cast (v : Value) (type : String) : NamesPath (Syntax.Literal.cast v type) := by
  unfold Syntax.Literal.cast
  split
  · split <;> exact namesPath_of_isText rfl
  · exact namesPath_of_isText rfl

theorem namesPath_negated (v : Value) : NamesPath (Syntax.Literal.negated v) := by
  unfold Syntax.Literal.negated
  split <;> exact namesPath_of_isText rfl

theorem namesPath_typed (type quoted : String) : NamesPath (Syntax.Literal.typed type quoted) := by
  unfold Syntax.Literal.typed
  dsimp only
  split
  · exact namesPath_of_isText rfl
  · split <;> exact namesPath_of_isText rfl

theorem namesPath_windowed {call : Value} (h : NamesPath call) (w : Option (Option Value)) :
    NamesPath (Syntax.Reading.windowed call w) := by
  cases w with
  | none => exact h
  | some w => cases w <;> exact namesPath_of_isText rfl

theorem namesPath_filtered {call : Value} (h : NamesPath call) (f : Option Value) :
    NamesPath (Syntax.Reading.filtered call f) := by
  unfold Syntax.Reading.filtered
  split
  · exact h
  · exact h
  · exact namesPath_of_isText rfl

/-- Only a column, perhaps in parentheses, is read as a bare text. -/
theorem Syntax.Tree.always_namesPath (e : Expr) : Always e.read.value NamesPath := by
  cases e with
  | paren e => exact (always_namesPath e).visit
  | column p => exact .visit (.pure (namesPath_value p))
  | number digits =>
    change Always (visit fun _ => (Syntax.Literal.number digits).map Syntax.untyped) NamesPath
    refine .visit fun _ v hv => ?_
    cases hn : Syntax.Literal.number digits with
    | error f => simp [hn, Except.map] at hv
    | ok n =>
      obtain rfl : Syntax.untyped n = v := by simpa [hn, Except.map] using hv
      exact namesPath_of_isText rfl
  | string quoted => exact .visit (.pure (namesPath_of_isText rfl))
  | boolean b => exact .visit (.pure (namesPath_of_isText rfl))
  | null => exact .visit (.pure (namesPath_of_isText rfl))
  | typed type quoted => exact .visit (.pure (namesPath_typed type quoted))
  | verbatim sql => exact .visit (.pure (namesPath_of_isText rfl))
  | param sign => exact .visit (.pure (namesPath_of_isText rfl))
  | default => exact .visit (.pure (namesPath_of_isText rfl))
  | call head args items filter window =>
    exact .visit <| .bindAny fun vs => .bindAny fun f => .mapAny fun w =>
      namesPath_windowed (namesPath_filtered (namesPath_of_isText rfl) f) w
  | caseOf subject branches otherwise =>
    exact .visit (.bindAny fun _ => .mapAny fun _ => namesPath_of_isText rfl)
  | inList negated e items => exact .visit (.bindAny fun _ => .bindAny fun _ => .pure (namesPath_of_isText rfl))
  | inQuery negated e q => exact .visit (.bindAny fun _ => .bindAny fun _ => .pure (namesPath_of_isText rfl))
  | cast e type => exact .visit (.bindAny fun _ => .mapAny fun _ => namesPath_of_isText rfl)
  | typecast e type => exact .visit (.bindAny fun v => .mapAny fun t => namesPath_cast v t)
  | negate e => exact .visit (.mapAny namesPath_negated)
  | rowOf first rest =>
    refine .visit (.bindAny fun _ => ?_)
    dsimp only
    split <;> exact .bindAny fun _ => .pure (namesPath_of_isText rfl)
  | array items =>
    refine .visit ?_
    split <;> exact .bindAny fun _ => .pure (namesPath_of_isText rfl)
  | _ => exact .visit (.mapAny fun _ => namesPath_of_isText rfl)

end Values

section Pairs

/-- The value is a column or a table that has the name of an operator. -/
def namesOperator : Value → Bool
  | .text t => Registry.standard.isOperator t
  | _ => false

theorem exists_toList_plain {n : Name} (h : n.isPlain = true) :
    ∃ c cs, n.content.toList = c :: cs ∧ Identifier.isNameStart c = true := by
  unfold Name.isPlain Identifier.isLowerPlain Identifier.isPlain Identifier.isWord at h
  split at h
  · split at h
    · cases h
    · next c cs hcs =>
      have hlow := (Bool.and_eq_true_iff.mp h).1
      exact ⟨c, cs, hcs, Vocabulary.isNameStart_of_isLowerStart hlow⟩
  · split at h
    · cases h
    · next c cs hcs => exact ⟨c, cs, hcs, (Bool.and_eq_true_iff.mp h).1⟩

/-- A path of plain names is no call. -/
theorem not_percent_of_isPlain {p : Path} (h : p.all Name.isPlain = true) :
    Render.startsWithPercent p.text = false := by
  have hall := List.all_eq_true.mp h
  have hhead : p.text.toList.head? ≠ some '%' := by
    rcases p with - | ⟨n, - | ⟨m, ms⟩⟩
    · simp [Path.text]
    all_goals
      obtain ⟨c, cs, hcs, hc⟩ := exists_toList_plain (hall n (by simp))
      have hpercent := (isNameStart_classes hc).2.2.2.2.2.2
    · simpa [Path.text, hcs] using hpercent
    · have hlist := toList_dotted_cons_cons n.content m.content (ms.map Name.content)
      rw [hcs] at hlist
      have htext : Path.text (n :: m :: ms) = dotted (n.content :: m.content :: ms.map Name.content) := rfl
      simpa [htext, hlist] using hpercent
  simpa [Render.startsWithPercent] using hhead

theorem aliasPair_asAlias {s : Settings} (hs : s.registry = .standard) {v : Value}
    (hv : NamesPath v) {n : Name} {t : String} (ht : n.asAlias = .text t) :
    Render.aliasPair? s (.list [v, .text t]) = if namesOperator v then none else some (v, t) := by
  obtain ⟨u, hu, halias⟩ := Vocabulary.isAliasText_asAlias n
  obtain rfl : t = u := Value.text.inj (ht.symm.trans hu)
  cases v with
  | text w =>
    obtain ⟨p, hplain, rfl⟩ := hv w rfl
    simp only [Render.aliasPair?, Value.items?, namesOperator, halias, hs,
      not_percent_of_isPlain hplain, Bool.false_or, Bool.true_and]
    by_cases hop : Registry.standard.isOperator p.text = true <;> simp [hop]
  | _ => simp [Render.aliasPair?, Value.items?, namesOperator, halias]

/-- Readings of things with a name behind them, each with the reading of the thing alone. -/
inductive Aliasing : Read Value → Read Value → Name → Prop
  | item (e : Expr) (n : Name) : Aliasing (Tree.aliased e n).read e.read.value n
  | relation (p : Path) (n : Name) :
    Aliasing (Tree.relation p (some n)).read (Syntax.Reading.target p) n
  | derived (q : Syntax.Query) (n : Name) :
    Aliasing (Tree.derived q (some n)).read (.map <$> q.read) n
  | tableCall (e : Expr) (n : Name) :
    Aliasing (Tree.tableCall e (some n)).read e.read.value n
  | lateral (q : Syntax.Query) (n : Name) :
    Aliasing (Tree.lateral q (some n)).read
      (do return headed "lateral" [← Value.map <$> q.read]) n
  | lateralCall (e : Expr) (n : Name) :
    Aliasing (Tree.lateralCall e (some n)).read (do return headed "lateral" [← e.read.value]) n
  | changed (p : Path) (n : Name) :
    Aliasing (Syntax.Reading.changed p (some n)) (Syntax.Reading.target p) n
  | inserted (p : Path) (n : Name) :
    Aliasing (do return .list [← Syntax.Reading.target p, n.asAlias]) (Syntax.Reading.target p) n

namespace Aliasing

variable {read thing : Read Value} {n : Name}

theorem namesPath (h : Aliasing read thing n) : Always thing NamesPath := by
  cases h with
  | item e n => exact e.always_namesPath
  | relation p n => exact .visit (.pure (namesPath_value p))
  | derived q n => exact .mapAny fun _ => namesPath_of_isText rfl
  | tableCall e n => exact e.always_namesPath
  | lateral q n => exact .mapAny fun _ => namesPath_of_isText rfl
  | lateralCall e n => exact .mapAny fun _ => namesPath_of_isText rfl
  | changed p n => exact .visit (.pure (namesPath_value p))
  | inserted p n => exact .visit (.pure (namesPath_value p))

theorem exists_of_aliased {r : Read Value} {d : Syntax.Depth} {pair : Value}
    (h : Syntax.Reading.aliased r (some n) d = .ok pair) :
    ∃ d' v, r d' = .ok v ∧ pair = .list [v, n.asAlias] := by
  obtain ⟨v, hv, h⟩ := Syntax.bind_eq_ok (Syntax.read_of_visit h)
  obtain ⟨a, ha, h⟩ := Syntax.bind_eq_ok h
  obtain rfl := Syntax.eq_of_visit_pure ha
  exact ⟨_, v, hv, (Except.ok.inj h).symm⟩

theorem exists_pair (h : Aliasing read thing n) {d : Syntax.Depth} {pair : Value}
    (hd : read d = .ok pair) : ∃ d' v, thing d' = .ok v ∧ pair = .list [v, n.asAlias] := by
  cases h with
  | item e n =>
    obtain ⟨v, hv, h⟩ := Syntax.bind_eq_ok (Syntax.read_of_visit hd)
    exact ⟨_, v, hv, (Except.ok.inj h).symm⟩
  | changed p n =>
    obtain ⟨v, hv, h⟩ := Syntax.bind_eq_ok hd
    obtain ⟨a, ha, h⟩ := Syntax.bind_eq_ok h
    obtain rfl := Syntax.eq_of_visit_pure ha
    exact ⟨d, v, hv, (Except.ok.inj h).symm⟩
  | inserted p n =>
    obtain ⟨v, hv, h⟩ := Syntax.bind_eq_ok hd
    exact ⟨d, v, hv, (Except.ok.inj h).symm⟩
  | _ => exact exists_of_aliased hd

end Aliasing

theorem item_of_aliasPair {s : Settings} {v : Value} {t : String}
    (h : Render.aliasPair? s (.list [v, .text t]) = if namesOperator v then none else some (v, t))
    (r : Renderer) (table : Bool) :
    Render.item r s table (.list [v, .text t]) =
      if namesOperator v then r.expr s false (.list [v, .text t])
      else do
        let f ← Render.aliased r s table v
        return f ++ [.text (Render.aliasSeparator s table), .text (← Render.aliasText s t)] := by
  unfold Render.item
  rw [h]
  cases namesOperator v <;> rfl

/-- What the parser pairs with an alias is written with that alias behind it, unless it is a column
or table with the name of an operator: then the pair is written as an operation. -/
theorem item_of_aliasing {s : Settings} (hs : s.registry = .standard)
    {read thing : Read Value} {n : Name} (h : Aliasing read thing n) {d : Syntax.Depth}
    {pair : Value} (hd : read d = .ok pair) :
    ∃ d' v t, thing d' = .ok v ∧ n.asAlias = .text t ∧
      Render.aliasPair? s pair = (if namesOperator v then none else some (v, t)) ∧
      ∀ r table, Render.item r s table pair =
        if namesOperator v then r.expr s false pair
        else do
          let f ← Render.aliased r s table v
          return f ++ [.text (Render.aliasSeparator s table), .text (← Render.aliasText s t)] := by
  obtain ⟨d', v, hv, rfl⟩ := h.exists_pair hd
  obtain ⟨t, ht, -⟩ := Vocabulary.isAliasText_asAlias n
  have hpair := aliasPair_asAlias hs (h.namesPath d' v hv) ht
  rw [ht]
  exact ⟨d', v, t, hv, rfl, hpair, item_of_aliasPair hpair⟩

theorem item_of_aliasing_orders : ∃ d' v t,
    Syntax.Reading.target [⟨"Orders", false⟩] d' = .ok v ∧
      Name.asAlias ⟨"\"order\"", true⟩ = .text t ∧
      Render.aliasPair? (.inlining 10 0 []) (.list [.text "Orders", .text "order"]) =
        (if namesOperator v then none else some (v, t)) ∧
      ∀ r table, Render.item r (.inlining 10 0 []) table (.list [.text "Orders", .text "order"]) =
        if namesOperator v then
          r.expr (.inlining 10 0 []) false (.list [.text "Orders", .text "order"])
        else do
          let f ← Render.aliased r (.inlining 10 0 []) table v
          return f ++ [.text (Render.aliasSeparator (.inlining 10 0 []) table),
            .text (← Render.aliasText (.inlining 10 0 []) t)] :=
  item_of_aliasing rfl (.changed [⟨"Orders", false⟩] ⟨"\"order\"", true⟩) (d := ⟨9, 0⟩) rfl

/-- A column with the name of an operator takes its alias for an operand. -/
theorem operator_name_misread :
    ((parse defaultParseDepth "SELECT lift AS x FROM t").bind
      (format .standard { inline := true })).toOption.map Formatted.sql =
        some "SELECT 'x' FROM t" := by
  decide +kernel

end Pairs

section Words

/-- A name that a text may hold without quotes. -/
structure IsPlainIdentifier (n : Name) : Prop where
  unquoted : n.quoted = false
  word : IsPlainWord n.text
  free : Syntax.Parser.nameOf? (Lexer.nameToken n.text) = some n

/-- The names of operators that are identifiers too. -/
def operationWords : List String :=
  ["xor", "regexp", "regex", "composite", "nest", "raw", "inline", "param", "lift", "interval",
   "entity", "alias"]

theorem mem_operatorNames_of_mem : ∀ w ∈ operationWords, w ∈ operatorNames := by decide

variable {n : Name} {p : Path}

/-- A keyword that may be a name is one of the unreserved words. -/
theorem IsPlainIdentifier.unreserved (h : IsPlainIdentifier n)
    (hkey : Text.lower n.text ∈ Token.keywords) : Text.lower n.text ∈ Token.unreserved := by
  have hfree := h.free
  by_contra hnot
  rw [Lexer.nameToken, ← h.word.lower_eq] at hfree
  simp [hkey, Syntax.Parser.nameOf?, hnot] at hfree

theorem IsPlainIdentifier.isOperator_iff (h : IsPlainIdentifier n) :
    Registry.standard.isOperator n.text = true ↔ Text.lower n.text ∈ operationWords := by
  have hwords : ∀ op ∈ operatorNames, op.toList.all Identifier.isNameChar = true →
      (op ∈ Token.keywords → op ∈ Token.unreserved) → op ∈ operationWords := by
    decide +kernel
  rw [SqlTree.isOperator_iff]
  refine ⟨fun hop => hwords _ hop ?_ h.unreserved, mem_operatorNames_of_mem _⟩
  have hchars : ∀ c, Identifier.isNameChar c = true →
      Identifier.isNameChar (Lexer.foldLetter c) = true := by
    intro c hc
    exact Text.of_ascii (P := fun c => Identifier.isNameChar c = true →
      Identifier.isNameChar (Lexer.foldLetter c) = true) (by decide) (isNameChar_lt hc) hc
  rw [h.word.lower_eq, String.toList_ofList, List.all_map, List.all_eq_true]
  exact fun c hc => hchars c (h.word.isNameChar_of_mem hc)

theorem IsPlainIdentifier.content_eq (h : IsPlainIdentifier n) : n.content = n.text := by
  rw [Name.content, h.unquoted]
  rfl

theorem IsPlainIdentifier.isPlain (h : IsPlainIdentifier n) : n.isPlain = true := by
  simp [Name.isPlain, h.unquoted, h.content_eq, h.word.isPlain]

theorem mem_dotted {c : Char} {ts : List String} (h : c ∈ (dotted ts).toList) :
    c = '.' ∨ ∃ t ∈ ts, c ∈ t.toList := by
  induction ts with
  | nil => cases h
  | cons t ts ih =>
    cases ts with
    | nil => exact .inr ⟨t, by simp, by simpa [dotted] using h⟩
    | cons u us =>
      rw [toList_dotted_cons_cons] at h
      rcases List.mem_append.mp h with h | h
      · exact .inr ⟨t, by simp, h⟩
      · rcases List.mem_cons.mp h with rfl | h
        · exact .inl rfl
        · rcases ih h with hc | ⟨x, hx, hc⟩
          · exact .inl hc
          · exact .inr ⟨x, List.mem_cons_of_mem _ hx, hc⟩

/-- The points of a path stay in its lower case, and no operator has a point and more. -/
theorem isOperator_dotted {n m : Name} {ms : Path} (h : ∀ k ∈ n :: m :: ms, IsPlainIdentifier k) :
    Registry.standard.isOperator (Path.text (n :: m :: ms)) = false := by
  have hlower : Text.lower (Path.text (n :: m :: ms)) =
      String.ofList ((Path.text (n :: m :: ms)).toList.map Lexer.foldLetter) := by
    refine Text.lower_eq_map fun c hc => ?_
    rcases mem_dotted hc with rfl | ⟨t, ht, hc⟩
    · decide
    · obtain ⟨k, hk, rfl⟩ := List.mem_map.mp ht
      rw [(h k hk).content_eq] at hc
      exact (isNameChar_classes ((h k hk).word.isNameChar_of_mem hc)).1.2
  obtain ⟨c, cs, hcs, -⟩ := exists_toList_plain (h n (by simp)).isPlain
  have hlist : (Path.text (n :: m :: ms)).toList = _ :=
    toList_dotted_cons_cons n.content m.content (ms.map Name.content)
  rw [hlist, hcs] at hlower
  by_contra hop
  have hmem := isOperator_iff.mp (Bool.not_eq_false _ ▸ hop)
  have hpoint : '.' ∈ (Text.lower (Path.text (n :: m :: ms))).toList := by
    rw [hlower, String.toList_ofList]
    exact List.mem_map.mpr ⟨'.', by simp, by decide⟩
  have hlen := congrArg String.length (operatorNames_dot _ hmem hpoint)
  have hone : ".".length = 1 := by decide
  rw [hlower, hone] at hlen
  simp at hlen

/-- A column or table has the name of an operator only if it is one of a few lone words. -/
theorem namesOperator_value_iff (h : ∀ n ∈ p, IsPlainIdentifier n) :
    namesOperator p.value = true ↔ ∃ n, p = [n] ∧ Text.lower n.text ∈ operationWords := by
  have hplain : p.all Name.isPlain = true := List.all_eq_true.mpr fun n hn => (h n hn).isPlain
  rw [Path.value, if_pos hplain, namesOperator]
  rcases p with - | ⟨n, - | ⟨m, ms⟩⟩
  · have hnone : Registry.standard.isOperator "" = false := by decide +kernel
    simp [show Path.text [] = "" from rfl, hnone]
  · have hn := h n (by simp)
    have htext : Path.text [n] = n.text := by
      simp [Path.text, hn.content_eq]
    rw [htext, hn.isOperator_iff]
    simp
  · simpa using isOperator_dotted h

end Words

end SqlTree
