import SqlTree.Proofs.Vocabulary.Expression

/-!
The clauses of queries that are read from SQL text hold nothing that the standard registry does not
know.
-/

namespace SqlTree.Vocabulary

open Render Syntax
open Contract (known)
open Contract.Kept

variable {v : Value} {vs : List Value} {es fs : Entries} {key : String}

section Entries

theorem spoken_nil : Spoken [] := nofun

theorem Spoken.append (h : Spoken es) (h' : Spoken fs) : Spoken (es ++ fs) :=
  List.forall_mem_append.mpr ⟨h, h'⟩

theorem spoken_entry (form : ClauseForm) (hform : Registry.standard.clause? key = some form)
    (hkey : key ∉ Clause.setOperations)
    (h : ∀ n {s}, known.settings s → known.Holds (clause (upTo n) s form key v)) :
    Spoken (Reading.entry key v) := by
  intro e he
  rw [List.mem_singleton.mp he]
  refine ⟨⟨key, form, rfl, hform, h⟩, fun key' hset heq => ?_⟩
  cases heq
  exact absurd hset hkey

theorem spoken_selection (hform : Registry.standard.clause? key = some .selection)
    (hkey : key ∉ Clause.setOperations) (h : ∀ w ∈ v.asItems, Itemised w) :
    Spoken (Reading.entry key v) :=
  spoken_entry _ hform hkey fun n _ hs => (kept n).selection hs trivial fun w hw => h w hw hs

theorem spoken_condition (hform : Registry.standard.clause? key = some .condition)
    (hkey : key ∉ Clause.setOperations) (h : Renders v) : Spoken (Reading.entry key v) :=
  spoken_entry _ hform hkey fun n _ hs => (kept n).condition hs trivial h

theorem spoken_setOperation (hform : Registry.standard.clause? key = some .setOperation)
    (h : ∀ w ∈ vs, Renders w) : Spoken (Reading.entry key (.list vs)) := by
  intro e he
  rw [List.mem_singleton.mp he]
  exact ⟨⟨key, _, rfl, hform, fun n _ hs => (kept n).setOperation hs trivial h⟩, fun _ _ _ => h⟩

theorem always_optionalEntry {P : Value → Prop} {o : Option (Read Value)}
    (h : ∀ r ∈ o, Always r P) (hentry : ∀ v, P v → Spoken (Reading.entry key v)) :
    Always (Reading.optionalEntry key o) Spoken := by
  cases o with
  | none => exact .pure spoken_nil
  | some r => exact (h r rfl).map hentry

theorem always_getD {o : Option (Read Entries)} (h : ∀ r ∈ o, Always r Spoken) :
    Always (o.getD (pure [])) Spoken := Always.getD h (.pure spoken_nil)

end Entries

section Names

theorem isPath_of_atEnd {next : Char → Bool}
    (hnext : ∀ c, next c = true → Identifier.isNameChar c = true) {cs : List Char}
    (h : Identifier.atEnd (cs.dropWhile next) = true) : Identifier.isPath false cs = true := by
  induction cs with
  | nil => rfl
  | cons c cs ih =>
    rw [List.dropWhile_cons] at h
    split at h
    · next hc => rw [Identifier.isPath.eq_def]; simp [hnext c hc, ih h]
    · obtain ⟨rfl, rfl⟩ : c = '\n' ∧ cs = [] := by simpa [Identifier.atEnd] using h
      rfl

theorem isNameStart_of_isLowerStart {c : Char} (h : Identifier.isLowerStart c = true) :
    Identifier.isNameStart c = true := by
  unfold Identifier.isLowerStart at h
  rcases Bool.or_eq_true_iff.mp h with h | h
  · simp [Identifier.isNameStart, Text.isAsciiLetter, h]
  · simp [Identifier.isNameStart, h]

/-- A name that is written without quotes may follow an expression as its alias. -/
theorem isAliasText_of_isWord {start next : Char → Bool} {t : String}
    (hstart : ∀ c, start c = true → Identifier.isNameStart c = true)
    (hnext : ∀ c, next c = true → Identifier.isNameChar c = true)
    (h : Identifier.isWord start next t = true) : isAliasText t = true := by
  unfold Identifier.isWord at h
  split at h
  · cases h
  · next c cs hcs =>
    obtain ⟨hc, hend⟩ := Bool.and_eq_true_iff.mp h
    have hc := hstart c hc
    have hstar : c ≠ '*' := by rintro rfl; cases hc
    have hpercent : c ≠ '%' := by rintro rfl; cases hc
    have hident : Identifier.isIdentText t = true := by
      rw [Identifier.isIdentText, hcs]
      split
      · next heq => exact absurd (List.cons.inj heq).1 hstar
      · next heq => exact absurd (List.cons.inj heq).1 hpercent
      · rw [Identifier.isPath.eq_def]
        simp [hc, isPath_of_atEnd hnext hend]
    have hne : t ≠ "*" := by
      rintro rfl
      exact hstar (List.cons.inj hcs).1.symm
    simp [isAliasText, hident, hne, startsWithPercent, hcs, hpercent]

theorem isAliasText_asAlias (n : Name) : ∃ t, n.asAlias = .text t ∧ isAliasText t = true := by
  refine ⟨_, rfl, ?_⟩
  split
  · next hplain =>
    unfold Name.isPlain at hplain
    split at hplain
    · refine isAliasText_of_isWord (fun c => isNameStart_of_isLowerStart) (fun c hc => ?_) hplain
      rcases Bool.or_eq_true_iff.mp hc with hlower | hdigit
      · have hstart := isNameStart_of_isLowerStart hlower
        rcases Bool.or_eq_true_iff.mp hstart with h | h <;> simp [Identifier.isNameChar, h]
      · simp [Identifier.isNameChar, hdigit]
    · exact isAliasText_of_isWord (fun _ h => h) (fun _ h => h) hplain
  · have hfirst : (Text.enclosed "'\"" n.content "\"").toList.head? = some '\'' := by
      simp [Text.enclosed]
    have hne : Text.enclosed "'\"" n.content "\"" ≠ "*" := by
      intro h
      rw [h] at hfirst
      cases hfirst
    simp [isAliasText, startsWithPercent, hfirst, hne]

end Names

section Tables

variable {r : Read Value} {q : Read Entries}

theorem always_fmap {α β : Type} {r : Read α} {f : α → β} {P : α → Prop} {R : β → Prop}
    (h : Always r P) (hf : ∀ a, P a → R (f a)) : Always (f <$> r) R :=
  h.map hf

theorem always_aliased (h : Always r Speaks) (name : Option Name) :
    Always (Reading.aliased r name) Itemised := by
  refine .visit (h.bind fun v hv => ?_)
  split
  · exact .pure hv.item
  · next n =>
    obtain ⟨t, ht, halias⟩ := isAliasText_asAlias n
    have hname : Always (visit (pure n.asAlias)) fun a => a = .text t := .visit (.pure ht)
    exact hname.map fun a ha => ha ▸ itemised_pair hv.renders halias

theorem always_value (path : Path) : Always (visit (pure path.value)) Speaks := by
  refine .visit (.pure ?_)
  unfold Path.value
  split
  · exact speaks_leaf rfl
  · exact speaks_headed <| renders_special (f := .entity) (by decide) fun _ _ _ hs _ =>
      Contract.holds_words (known.quotedEntity_ok hs _)

theorem always_relation (path : Path) (name : Option Name) :
    Always (Reading.relation path name) Itemised := always_aliased (always_value path) name

theorem always_derived (hq : Always q Spoken) (name : Option Name) :
    Always (Reading.aliased (.map <$> q) name) Itemised :=
  always_aliased (always_fmap hq fun _ hes => hes.speaks) name

theorem always_lateral (h : Always r Speaks) (name : Option Name) :
    Always (Reading.lateral r name) Itemised :=
  always_aliased (h.map fun _ hv => speaks_headed <| renders_special (f := .lateral) (by decide)
    fun n _ op hs _ => (kept n).lateral hs op hv.renders) name

end Tables

section Joins

/-- What joins are read as: a cross join as a table, any other join as a table and a condition. -/
structure JoinSpoken (j : Joined) : Prop where
  kind : ∃ k : JoinKind, j.1 = k.clause
  cross : j.1 = "cross-join" → Itemised j.2
  other : j.1 ≠ "cross-join" → ∀ {s}, known.settings s → JoinParts known Renders s j.2

/-- A condition of a join: columns or an expression. -/
def ConditionSpoken (v : Value) : Prop := usingColumns? v = none → Renders v

theorem joinSpoken_cross (h : Itemised v) : JoinSpoken ("cross-join", v) where
  kind := ⟨.cross, rfl⟩
  cross _ := h
  other hne := absurd rfl hne

theorem joinOn {e : Operand} (he : OperandSpeaks e) : Always (Reading.joinOn e) ConditionSpoken :=
  .visit <| he.value.mono fun _ hv _ => hv.renders

theorem joinUsing (columns : List Name) : Always (Reading.joinUsing columns) ConditionSpoken :=
  .visit <| .mapAny fun _ h => by
    simp [usingColumns?, Syntax.headed, Value.items?] at h

/-- All joins but cross joins have a condition. -/
theorem join {kind : JoinKind} {table : Read Value} {test : Option (Read Value)}
    (htable : Always table Itemised) (htest : ∀ r ∈ test, Always r ConditionSpoken)
    (hregular : test.isSome = (kind != .cross)) :
    Always (Reading.join kind table test) JoinSpoken := by
  refine htable.bind fun t ht => ?_
  cases test with
  | none =>
    obtain rfl : kind = .cross := by simpa using hregular.symm
    exact .pure (joinSpoken_cross ht)
  | some test =>
    have hkind : kind.clause ≠ "cross-join" := by
      cases kind <;> first | decide | cases hregular
    refine (htest test rfl).map fun c hc => ⟨⟨kind, rfl⟩, fun h => absurd h hkind, fun _ _ hs => ?_⟩
    refine ⟨fun _ h => by simp [Value.items?] at h, fun _ _ h => ?_, fun _ _ h => ?_⟩
    · cases h
      exact ht hs
    · cases h
      exact hc

/-- What an item of a `FROM` list is read as. -/
structure SourceSpoken (i : FromItem) : Prop where
  table : Itemised i.table
  joins : ∀ j ∈ i.joins, JoinSpoken j

theorem source {table : Read Value} {joins : List (Read Joined)} (htable : Always table Itemised)
    (hjoins : ∀ r ∈ joins, Always r JoinSpoken) :
    Always (Reading.source table joins) SourceSpoken :=
  htable.bind fun _ ht => (Always.mapM hjoins).map fun _ hjs => ⟨ht, hjs⟩

theorem spoken_group {g : String × List Value} (hne : g.2 ≠ [])
    (h : ∀ v ∈ g.2, JoinSpoken (g.1, v)) : Spoken (Reading.entry g.1 (.list g.2)) := by
  obtain ⟨w, ws, hg⟩ := List.exists_cons_of_ne_nil hne
  obtain ⟨kind, hkind⟩ := (h w (hg ▸ List.mem_cons_self)).kind
  have hkey : g.1 ∉ Clause.setOperations := by
    rw [hkind]
    cases kind <;> decide
  by_cases hcross : g.1 = "cross-join"
  · refine spoken_entry .crossJoin (by rw [hcross]; rfl) hkey fun n _ hs => ?_
    exact (kept n).crossJoin hs fun v hv => (h v hv).cross hcross hs
  · refine spoken_entry .join ?_ hkey fun n _ hs =>
      (kept n).join hs trivial (fun v hv => (h v hv).other hcross hs) (renders_leaf rfl)
    rw [hkind] at hcross ⊢
    cases kind <;> first | rfl | exact absurd rfl hcross

theorem joinKey_clause (kind : JoinKind) : joinKey (.text kind.clause) = kind.clause := by
  have hall : ∀ key ∈ ["join", "left-join", "right-join", "full-join", "cross-join"],
      joinKey (.text key) = key := by decide +kernel
  exact hall _ (by cases kind <;> decide)

theorem joinSteps_flatMap {joins : List Joined} (hjoins : ∀ j ∈ joins, JoinSpoken j) {s : Settings}
    (hs : known.settings s) :
    JoinSteps known Renders s (joins.flatMap fun j => [.text j.1, j.2]) := by
  induction joins with
  | nil => exact .nil
  | cons j joins ih =>
    obtain ⟨hj, hjoins⟩ := List.forall_mem_cons.mp hjoins
    obtain ⟨kind, hkind⟩ := hj.kind
    have hkey : joinKey (.text j.1) = j.1 := by rw [hkind, joinKey_clause]
    refine .step trivial (fun h => ?_) (fun h => ?_) (ih hjoins)
    · exact hj.cross (hkey ▸ h) hs
    · exact hj.other (hkey ▸ h) hs

theorem spoken_joins {joins : List Joined} (hjoins : ∀ j ∈ joins, JoinSpoken j) :
    Spoken (Joined.entries joins) := by
  unfold Joined.entries
  split
  · exact spoken_nil
  · split
    · intro e he
      obtain ⟨g, hg, rfl⟩ := List.mem_map.mp he
      obtain ⟨hne, hspoken⟩ := forall_mem_groups hjoins g hg
      exact spoken_group hne hspoken _ (List.mem_singleton_self _)
    · exact spoken_entry .joinBy rfl (by decide) fun n _ hs =>
        (kept n).joinBy hs (joinSteps_flatMap hjoins hs) (renders_leaf rfl)

theorem asItems_tableValue (ts : List Value) : (FromItem.tableValue ts).asItems = ts := by
  unfold FromItem.tableValue
  split <;> rfl

theorem spoken_sources {items : List FromItem} (h : ∀ i ∈ items, SourceSpoken i) :
    Spoken (FromItem.entries items) := by
  change Spoken (Reading.entry "from" _ ++ _)
  refine (spoken_selection rfl (by decide) fun w hw => ?_).append (spoken_joins ?_)
  · rw [asItems_tableValue] at hw
    exact forall_mem_tables (P := Itemised) (fun i hi => (h i hi).table) w hw
  · exact forall_mem_joined (fun i hi => joinSpoken_cross (h i hi).table) fun i hi => (h i hi).joins

theorem fromClause {sources : List (Read FromItem)} (h : ∀ r ∈ sources, Always r SourceSpoken) :
    Always (Reading.fromClause sources) Spoken :=
  .ite (.pure spoken_nil) (.visit ((Always.mapM h).map fun _ his => spoken_sources his))

end Joins

section Select

variable {e : Operand} {groups : List Operand}

theorem condition {o : Option Operand} (hform : Registry.standard.clause? key = some .condition)
    (hkey : key ∉ Clause.setOperations) (ho : ∀ p ∈ o, OperandSpeaks p) :
    Always (Reading.condition key o) Spoken := by
  refine always_optionalEntry (P := Renders) (fun r hr => ?_) fun _ hv =>
    spoken_condition hform hkey hv
  obtain ⟨p, hp, rfl⟩ := Option.map_eq_some_iff.mp hr
  exact .visit <| (ho p hp).value.mono fun _ hv => hv.renders

theorem tableStar (path : Path) (sql : String) :
    Always (Reading.tableStar path sql) Itemised := by
  have hstar : ∀ v ∈ path.star?, Itemised v := by
    intro v hv
    unfold Path.star? at hv
    split at hv
    · cases hv
      exact (speaks_leaf rfl).item
    · cases hv
  refine .visit <| .map (P := fun o => o = path.star?) (.visit (.pure rfl)) fun o ho => ?_
  subst ho
  cases hv : path.star? with
  | none => exact (speaks_raw sql).item
  | some v => exact hstar v hv

theorem aliasedItem (he : OperandSpeaks e) (name : Name) :
    Always (Reading.aliasedItem e name) Itemised := by
  obtain ⟨t, ht, halias⟩ := isAliasText_asAlias name
  refine .visit <| he.value.map fun _ hv => ?_
  rw [ht]
  exact itemised_pair hv.renders halias

/-- An entry for a list that may be empty. -/
theorem always_listEntry {α : Type} {as : List α} {r : Read Value} {P : Value → Prop}
    (h : Always r P) (hentry : ∀ v, P v → Spoken (Reading.entry key v)) :
    Always (Reading.optionalEntry key (if as.isEmpty then none else some r)) Spoken := by
  refine always_optionalEntry (fun s hs => ?_) hentry
  obtain rfl : r = s := by simpa using (Option.ite_none_left_eq_some.mp hs).2
  exact h

theorem groupClause (h : ∀ p ∈ groups, OperandSpeaks p) :
    Always (Reading.groupClause groups) Spoken :=
  always_listEntry (P := fun v => ∀ w ∈ v.asItems, Renders w)
    (.visit <| (always_values h).map fun _ hvs => hvs) fun _ hv =>
      spoken_entry .grouping rfl (by decide) fun n _ hs => (kept n).grouping hs hv _

/-- The clause of a selection and what stands before its items: the expressions whose values are to
be distinct. -/
inductive MarkSpoken : String × List Value → Prop
  | plain {key : String} : key ∈ ["select", "select-distinct"] → MarkSpoken (key, [])
  | on {vs : List Value} : (∀ v ∈ vs, Renders v) → MarkSpoken ("select-distinct-on", [.list vs])

theorem spoken_selected {mark : String × List Value} (hmark : MarkSpoken mark)
    (hvs : ∀ v ∈ vs, Itemised v) : Spoken (Reading.entry mark.1 (.list (mark.2 ++ vs))) := by
  cases hmark with
  | @plain key hkey =>
    have hall : ∀ key ∈ ["select", "select-distinct"],
        Registry.standard.clause? key = some .selection ∧ key ∉ Clause.setOperations := by decide
    exact spoken_selection (hall key hkey).1 (hall key hkey).2 hvs
  | on hon =>
    refine spoken_entry .distinctOn rfl (show "select-distinct-on" ∉ _ by decide)
      fun n _ hs => ?_
    refine (kept n).distinctOn (v := .list (_ :: vs)) hs (fun on hmem => ?_) fun w hw => hvs w hw hs
    cases hmem
    exact hon

theorem distinctOn (h : ∀ p ∈ groups, OperandSpeaks p) :
    Always (Reading.distinctOn groups) MarkSpoken :=
  (always_values h).map fun _ hvs => .on hvs

theorem select {mark : Option (Read (String × List Value))} {items : List (Read Value)}
    {sources : List (Read FromItem)} {test having : Option Operand}
    (hmark : ∀ r ∈ mark, Always r MarkSpoken) (hitems : ∀ r ∈ items, Always r Itemised)
    (hsources : ∀ r ∈ sources, Always r SourceSpoken) (htest : ∀ p ∈ test, OperandSpeaks p)
    (hgroups : ∀ p ∈ groups, OperandSpeaks p) (hhaving : ∀ p ∈ having, OperandSpeaks p) :
    Always (Reading.select mark items sources test groups having) Spoken := by
  have hfirst : Always (mark.getD (pure ("select", []))) MarkSpoken := by
    cases mark with
    | none => exact .pure (.plain (by decide))
    | some r => exact hmark r rfl
  refine .visit <| hfirst.bind fun mark hmark => ?_
  refine (Always.visitAll hitems).bind fun vs hvs => (fromClause hsources).bind fun es hes => ?_
  refine (condition rfl (by decide) htest).bind fun ts hts => ?_
  refine (groupClause hgroups).bind fun gs hgs => ?_
  refine (condition rfl (by decide) hhaving).map fun hs hhs => ?_
  exact ((((spoken_selected hmark hvs).append hes).append hts).append hgs).append hhs

end Select

section Queries

variable {withs : Option (Read Entries)} {body : Read Entries}

theorem mem_setOperations (hform : Registry.standard.clause? key = some .setOperation) :
    key ∈ Clause.setOperations := by
  have hall : ∀ c ∈ Registry.standard.clauses,
      c.2 = .setOperation → c.1 ∈ Clause.setOperations := by decide
  obtain ⟨l₁, l₂, hl, -⟩ := List.lookup_eq_some_iff.mp hform
  exact hall (key, .setOperation) (by simp [hl]) rfl

theorem spoken_combine {left right : Entries}
    (hform : Registry.standard.clause? key = some .setOperation)
    (hleft : Spoken left) (hright : Spoken right) :
    Spoken (Reading.combine key left right) := by
  have hpair : Spoken (Reading.entry key (.list [.map left, .map right])) :=
    spoken_setOperation hform (by simpa using ⟨hleft.renders, hright.renders⟩)
  unfold Reading.combine
  split
  · next k branches =>
    split
    · next hkey =>
      subst hkey
      have hkey : k ∈ Clause.setOperations := mem_setOperations hform
      have hbranches := (hleft _ (List.mem_singleton_self _)).branches k hkey rfl
      exact spoken_setOperation hform
        (List.forall_mem_append.mpr ⟨hbranches, by simpa using hright.renders⟩)
    · exact hpair
  · exact hpair

theorem operation (op : SetOperator) {left right : Read Entries} (hleft : Always left Spoken)
    (hright : Always right Spoken) : Always (Reading.operation op left right) Spoken :=
  .visit <| hleft.bind fun _ hl => hright.map fun _ hr =>
    spoken_combine (by cases op <;> rfl) hl hr

/-- A common table expression: its label and a query. -/
def CteSpoken (v : Value) : Prop :=
  ∀ label query, v.items? = some [label, query] → Renders query

theorem cte (name : Name) (columns : List Name) (hbody : Always body Spoken) :
    Always (Reading.cte name columns body) CteSpoken := by
  have hpair : ∀ {label : Value} {es : Entries}, Spoken es → CteSpoken (.list [label, .map es]) :=
    fun hes _ _ h => by
      cases h
      exact hes.renders
  refine .visit <| .ite (hbody.map fun _ hes => hpair hes) ?_
  exact .bindAny fun _ => hbody.map fun _ hes => hpair hes

theorem ctes (recursively : Bool) {items : List (Read Value)}
    (hitems : ∀ r ∈ items, Always r CteSpoken) :
    Always (Reading.ctes recursively items) Spoken := by
  refine .visit <| (Always.mapM hitems).map fun vs hvs => ?_
  refine spoken_entry .tableExpressions ?_ ?_ fun n _ hs =>
    (kept n).tableExpressions hs trivial hvs
  all_goals cases recursively <;> first | rfl | decide

theorem spoken_surround {ws body tail : Entries} (hws : Spoken ws) (hbody : Spoken body)
    (htail : Spoken tail) : Spoken (Reading.surround ws body tail) := by
  unfold Reading.surround
  dsimp only
  split
  · refine (hws.append (spoken_entry .nested rfl (by decide) fun n _ hs => ?_)).append htail
    exact (kept n).nest hs hbody.renders
  · exact (hws.append hbody).append htail

theorem orderClause {order : List (Read Value)} (h : ∀ r ∈ order, Always r OrderRenders) :
    Always (Reading.orderClause order) Spoken :=
  always_listEntry (P := fun v => ∀ w ∈ v.asItems, OrderRenders w)
    ((Always.visitAll h).map fun _ hvs => hvs) fun _ hv =>
      spoken_entry .ordering rfl (by decide) fun n _ hs =>
        (kept n).ordering hs (fun w hw => ⟨hv w hw, fun _ _ => trivial⟩) _

theorem lockClause (lock : Option Lock) : Always (Reading.lockClause lock) Spoken := by
  refine always_optionalEntry (P := fun _ => True) (fun _ _ => fun _ _ _ => trivial) fun v _ => ?_
  exact spoken_entry .lock rfl (by decide) fun _ _ _ =>
    Contract.holds_words (Contract.Kept.lock trivial fun w _ => known_lockWord _ w)

theorem query {order : List (Read Value)} {limits : List (Read Entries)} (lock : Option Lock)
    (hwiths : ∀ r ∈ withs, Always r Spoken) (hbody : Always body Spoken)
    (horder : ∀ r ∈ order, Always r OrderRenders) (hlimits : ∀ r ∈ limits, Always r Spoken) :
    Always (Reading.query withs body order limits lock) Spoken := by
  refine .visit <| (always_getD hwiths).bind fun ws hws => hbody.bind fun es hes => ?_
  refine (orderClause horder).bind fun os hos => (Always.mapM hlimits).bind fun ls hls => ?_
  refine (lockClause lock).map fun ks hks => spoken_surround hws hes ?_
  refine (hos.append fun e he => ?_).append hks
  obtain ⟨l, hl, he⟩ := List.mem_flatten.mp he
  exact hls l hl e he

theorem limit {e : Operand} (hform : Registry.standard.clause? key = some .condition)
    (hkey : key ∉ Clause.setOperations) (he : OperandSpeaks e) :
    Always (Reading.limit key e) Spoken :=
  he.value.map fun _ hv => spoken_condition hform hkey hv.renders

theorem fetch {e : Option Operand} (he : ∀ p ∈ e, OperandSpeaks p) :
    Always (Reading.fetch e) Spoken := by
  refine Always.map (P := Renders) ?_ fun _ hv => spoken_condition rfl (by decide) hv
  cases e with
  | none => exact .pure (renders_untyped _)
  | some p => exact (he p rfl).value.mono fun _ hv => hv.renders

end Queries

end SqlTree.Vocabulary
