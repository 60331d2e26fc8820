import SqlTree.Proofs.Regular
import SqlTree.Proofs.Scopes.Expressions

/-!
What is read from SQL text is neat: its clause maps hold no clause with scopes twice, and their
clauses are shaped as the searches expect.
-/

namespace SqlTree

open Syntax
open Walk (isLeaf reach?)
open QueryBlock

variable {v : Value} {vs : List Value} {es fs : Entries} {key : String} {keys : List String}

section Tables

theorem neat_asAlias (n : Name) : Neat n.asAlias := .leaf rfl

theorem neat_aliased {r : Read Value} (h : Always r Neat) (name : Option Name) :
    Always (Reading.aliased r name) Neat := by
  refine .visit (h.bind fun v hv => ?_)
  cases name with
  | none => exact .pure hv
  | some n =>
    have hname : Always (visit (pure n.asAlias)) Neat := .visit (.pure (neat_asAlias n))
    exact hname.map fun _ ha => neat_pair hv ha

theorem neat_lateral {r : Read Value} (h : Always r Neat) (name : Option Name) :
    Always (Reading.lateral r name) Neat :=
  neat_aliased (h.map fun _ hv => neat_headed (by simpa using hv)) name

theorem neat_query {q : Read Entries} (hq : Always q NeatBlock) : Always (.map <$> q) Neat :=
  hq.map fun _ hes => hes.neat

theorem neat_tableStar (path : Path) (sql : String) : Always (Reading.tableStar path sql) Neat := by
  have hstar : ∀ v ∈ path.star?, Neat v := by
    intro v hv
    unfold Path.star? at hv
    split at hv
    · cases hv
      exact .leaf rfl
    · cases hv
  refine .visit <| .map (P := fun o => ∀ v ∈ o, Neat v) (.visit (.pure hstar)) fun o ho => ?_
  cases o with
  | none => exact neat_raw sql
  | some v => exact ho v rfl

/-- What joins are read as. -/
structure JoinNeat (j : Joined) : Prop where
  kind : ∃ k : JoinKind, j.1 = k.clause
  neat : Neat j.2

theorem neat_join (kind : JoinKind) {table : Read Value} {test : Option (Read Value)}
    (htable : Always table Neat) (htest : ∀ r ∈ test, Always r Neat) :
    Always (Reading.join kind table test) JoinNeat := by
  refine htable.bind fun t ht => ?_
  cases test with
  | none => exact .pure ⟨⟨kind, rfl⟩, ht⟩
  | some test => exact (htest test rfl).map fun _ hc => ⟨⟨kind, rfl⟩, neat_pair ht hc⟩

theorem neat_nameList (names : List Name) :
    Always (Reading.nameList names) fun vs => ∀ v ∈ vs, Neat v :=
  .visit <| .pure fun v hv => by
    obtain ⟨n, -, rfl⟩ := List.mem_map.mp hv
    exact .leaf rfl

theorem neat_joinUsing (columns : List Name) : Always (Reading.joinUsing columns) Neat :=
  .visit ((neat_nameList columns).map fun _ hvs => neat_headed hvs)

theorem neat_group {g : String × List Value} (hne : g.2 ≠ []) (h : ∀ v ∈ g.2, JoinNeat (g.1, v)) :
    NeatEntries [] (Reading.entry g.1 (.list g.2)) := by
  obtain ⟨w, ws, hg⟩ := List.exists_cons_of_ne_nil hne
  obtain ⟨kind, hkind⟩ := (h w (hg ▸ List.mem_cons_self)).kind
  have hvs : ∀ v ∈ g.2, Neat v := fun v hv => (h v hv).neat
  have hkey : g.1 ∈ Clause.joins ∨ g.1 = "cross-join" := by
    rw [hkind]
    cases kind <;> decide
  rcases hkey with hkey | hkey
  · have hsearched : ∀ key ∈ Clause.joins, key ∉ AliasScope.searched := by decide
    exact .other (neatEntry_join hkey hvs) (hsearched g.1 hkey)
  · rw [hkey]
    exact .plain (by decide) (by decide) (.list hvs)

theorem neat_joins {joins : List Joined} (h : ∀ j ∈ joins, JoinNeat j) :
    NeatEntries [] (Joined.entries joins) := by
  unfold Joined.entries
  split
  · exact .nil
  · split
    · rw [List.map_eq_flatMap, List.flatMap_def]
      refine .flatten fun es hes => ?_
      obtain ⟨g, hg, rfl⟩ := List.mem_map.mp hes
      obtain ⟨hne, hneat⟩ := forall_mem_groups h g hg
      exact neat_group hne hneat
    · refine .plain (by decide) (by decide) (.list fun v hv => ?_)
      obtain ⟨j, hj, hv⟩ := List.mem_flatMap.mp hv
      rcases List.mem_cons.mp hv with rfl | hv
      · exact .leaf rfl
      · rw [List.mem_singleton.mp hv]
        exact (h j hj).neat

/-- What an item of a `FROM` list is read as. -/
structure SourceNeat (i : FromItem) : Prop where
  table : Neat i.table
  joins : ∀ j ∈ i.joins, JoinNeat j

theorem neat_source {table : Read Value} {joins : List (Read Joined)} (htable : Always table Neat)
    (hjoins : ∀ r ∈ joins, Always r JoinNeat) : Always (Reading.source table joins) SourceNeat :=
  htable.bind fun _ ht => (Always.mapM hjoins).map fun _ hjs => ⟨ht, hjs⟩

theorem neat_sources {items : List FromItem} (h : ∀ i ∈ items, SourceNeat i) :
    NeatEntries ["from"] (FromItem.entries items) := by
  have htables : ∀ t ∈ FromItem.tables items, Neat t := forall_mem_tables fun i hi => (h i hi).table
  have hvalue : Neat (FromItem.tableValue (FromItem.tables items)) := by
    unfold FromItem.tableValue
    split
    · exact .leaf rfl
    · exact .list htables
  refine (NeatEntries.searched (neatEntry_plain (by decide) hvalue)).append (neat_joins ?_)
  exact forall_mem_joined (fun i hi => ⟨⟨.cross, rfl⟩, (h i hi).table⟩) fun i hi => (h i hi).joins

theorem neat_fromClause {sources : List (Read FromItem)}
    (h : ∀ r ∈ sources, Always r SourceNeat) :
    Always (Reading.fromClause sources) (NeatEntries ["from"]) :=
  .ite (.pure .nil) (.visit ((Always.mapM h).map fun _ his => neat_sources his))

end Tables

section Queries

variable {e : Operand} {groups items : List Operand} {withs : Option (Read Entries)}
  {body q : Read Entries}

theorem neat_optionalEntry {P : Value → Prop} {o : Option (Read Value)}
    (h : ∀ r ∈ o, Always r P) (hentry : ∀ v, P v → NeatEntries keys (Reading.entry key v)) :
    Always (Reading.optionalEntry key o) (NeatEntries keys) := by
  cases o with
  | none => exact .pure .nil
  | some r => exact (h r rfl).map hentry

/-- The entry of a list that may be missing. -/
theorem neat_listEntry {γ : Type} {cs : List γ} {r : Read Value} {P : Value → Prop}
    (h : Always r P) (hentry : ∀ v, P v → NeatEntries keys (Reading.entry key v)) :
    Always (Reading.optionalEntry key (if cs.isEmpty then none else some r)) (NeatEntries keys) := by
  refine neat_optionalEntry (fun s hs => ?_) hentry
  split at hs
  · cases hs
  · exact Option.some.inj hs ▸ h

/-- The entry of a list that is not searched. -/
theorem neat_unwalkedList {γ : Type} {cs : List γ} {r : Read Value}
    (hkey : reach? (.text key) = none) :
    Always (Reading.optionalEntry key (if cs.isEmpty then none else some r)) (NeatEntries []) :=
  neat_listEntry (P := fun _ => True) (fun _ _ _ => trivial) fun _ _ => .unwalked hkey

theorem neat_condition (key : String) {o : Option Operand} (hkey : key ∉ shapedKeys)
    (ho : ∀ p ∈ o, OperandNeat p) : Always (Reading.condition key o) (NeatEntries [key]) := by
  refine neat_optionalEntry (P := Neat) (fun r hr => ?_) fun v hv =>
    .searched (neatEntry_plain hkey hv)
  obtain ⟨p, hp, rfl⟩ := Option.map_eq_some_iff.mp hr
  exact (ho p hp).value.visit

/-- The kind of a selection and what stands before its items. -/
structure MarkNeat (m : String × List Value) : Prop where
  key : m.1 ∈ Clause.selections
  front : ∀ v ∈ m.2, Neat v

theorem neat_selected {m : String × List Value} (hm : MarkNeat m) (hvs : ∀ v ∈ vs, Neat v) :
    NeatEntries ["select"] (Reading.entry m.1 (.list (m.2 ++ vs))) := by
  have hkeys : ∀ key ∈ Clause.selections,
      key ∉ shapedKeys ∧ (key = "select" ∨ key ∉ AliasScope.searched) := by decide
  obtain ⟨hshaped, hkey⟩ := hkeys m.1 hm.key
  have hentry := neatEntry_plain hshaped (.list (List.forall_mem_append.mpr ⟨hm.front, hvs⟩))
  rcases hkey with hkey | hkey
  · exact hkey ▸ .searched hentry
  · have hother := NeatEntries.other hentry hkey
    exact ⟨hother.entries, hother.keys.trans (List.nil_sublist _)⟩

theorem neat_select {mark : Option (Read (String × List Value))} {items : List (Read Value)}
    {sources : List (Read FromItem)} {test having : Option Operand}
    (hmark : ∀ r ∈ mark, Always r MarkNeat) (hitems : ∀ r ∈ items, Always r Neat)
    (hsources : ∀ r ∈ sources, Always r SourceNeat) (htest : ∀ p ∈ test, OperandNeat p)
    (hhaving : ∀ p ∈ having, OperandNeat p) :
    Always (Reading.select mark items sources test groups having) NeatBlock := by
  have hfirst : Always (mark.getD (pure ("select", []))) MarkNeat :=
    Always.getD hmark (.pure ⟨by decide, nofun⟩)
  refine .visit <| hfirst.bind fun m hm => (Always.visitAll hitems).bind fun vs hvs =>
    (neat_fromClause hsources).bind fun es hes =>
      (neat_condition "where" (by decide) htest).bind fun ts hts =>
        (neat_unwalkedList rfl).bind fun gs hgs =>
          (neat_condition "having" (by decide) hhaving).map fun hs hhs => ?_
  have hall := ((((neat_selected hm hvs).append hes).append hts).append hgs).append hhs
  exact hall.block (by decide) (by simp [Reading.entry])

theorem neat_distinctOn (h : ∀ p ∈ groups, OperandNeat p) :
    Always (Reading.distinctOn groups) MarkNeat :=
  (neat_values h).map fun _ hvs =>
    ⟨show "select-distinct-on" ∈ Clause.selections by decide, by simpa using Neat.list hvs⟩

theorem neat_combine {left right : Entries} (hkey : key ∈ Clause.setOperations)
    (hleft : NeatBlock left) (hright : NeatBlock right) :
    NeatBlock (Reading.combine key left right) := by
  have hblock : ∀ vs : List Value, (∀ v ∈ vs, (∃ body, v = .map body) ∧ Neat v) →
      NeatBlock (Reading.entry key (.list vs)) := fun vs hvs =>
    (NeatEntries.searched (neatEntry_branches hkey hvs)).block (List.nodup_singleton _) nofun
  have hpair := hblock [.map left, .map right] (by simpa using ⟨hleft.neat, hright.neat⟩)
  unfold Reading.combine
  split
  · next k branches =>
    split
    · next hk =>
      subst hk
      have hbranches := (hleft.entries _ (List.mem_singleton_self _)).branches hkey
      exact hblock _ (List.forall_mem_append.mpr ⟨hbranches, by simpa using hright.neat⟩)
    · exact hpair
  · exact hpair

theorem neat_operation (op : SetOperator) {left right : Read Entries}
    (hleft : Always left NeatBlock) (hright : Always right NeatBlock) :
    Always (Reading.operation op left right) NeatBlock :=
  .visit <| hleft.bind fun _ hl => hright.map fun _ hr =>
    neat_combine (by cases op <;> decide) hl hr

theorem neat_cte (name : Name) (columns : List Name) (hbody : Always body NeatBlock) :
    Always (Reading.cte name columns body) PairNeat := by
  refine .visit <| .ite ?_ <| .bindAny fun _ => ?_
  · exact hbody.map fun es hes => ⟨name.value, es, _, rfl, rfl, hes.neat⟩
  · exact hbody.map fun es hes => ⟨_, es, _, rfl, rfl, hes.neat⟩

/-- Common table expressions are one clause, or missing. -/
def WithsNeat (es : Entries) : Prop := ∃ key ∈ Clause.tableExpressions, NeatEntries [key] es

theorem withsNeat_nil : WithsNeat [] := ⟨"with", by decide, .nil⟩

theorem neat_ctes (recursively : Bool) {items : List (Read Value)}
    (hitems : ∀ r ∈ items, Always r PairNeat) :
    Always (Reading.ctes recursively items) WithsNeat := by
  refine .visit <| (Always.mapM hitems).map fun vs hvs => ?_
  have hkey : (if recursively then "with-recursive" else "with") ∈ Clause.tableExpressions := by
    cases recursively <;> decide
  exact ⟨_, hkey, .searched (neatEntry_pairs hkey hvs)⟩

theorem neat_surround {ws body tail : Entries} (hws : WithsNeat ws) (hbody : NeatBlock body)
    (htail : NeatEntries [] tail) : NeatBlock (Reading.surround ws body tail) := by
  obtain ⟨key, hkey, hws⟩ := hws
  unfold Reading.surround
  dsimp only
  split
  · have hnest : NeatEntries [] (Reading.entry "nest" (.map body)) :=
      .plain (by decide) (by decide) hbody.neat
    have hall := (hws.append hnest).append htail
    exact hall.block (List.nodup_singleton key) (by simp [Reading.entry])
  · next hapart =>
    have hnone : ws ≠ [] → ∀ e ∈ body, e.1 ≠ .text key := by
      intro hne e he heq
      have hmissing : (!ws.isEmpty) = true := by simpa using hne
      refine hapart (Bool.or_eq_true_iff.mpr (.inr (Bool.and_eq_true_iff.mpr ⟨hmissing, ?_⟩)))
      exact List.any_eq_true.mpr ⟨key, hkey, Entries.hasField_iff.mpr ⟨e, he, heq⟩⟩
    have htails : searchedKeys tail = [] := List.sublist_nil.mp htail.keys
    refine ⟨by simp [hbody.ne_nil], ?_, ?_⟩
    · rw [searchedKeys_append, searchedKeys_append, htails, List.append_nil, List.nodup_append]
      refine ⟨hws.keys.nodup (List.nodup_singleton _), hbody.nodup, fun k hk k' hk' heq => ?_⟩
      obtain ⟨e, he, rfl⟩ := List.mem_map.mp hk'
      refine hnone ?_ e (List.mem_of_mem_filter he) ?_
      · rintro rfl
        cases hk
      · exact heq.symm.trans (List.mem_singleton.mp (hws.keys.subset hk))
    · exact List.forall_mem_append.mpr
        ⟨List.forall_mem_append.mpr ⟨hws.entries, hbody.entries⟩, htail.entries⟩

theorem neat_queryOf {order : List (Read Value)} {limits : List (Read Entries)}
    (lock : Option Lock) (hlimits : ∀ r ∈ limits, Always r (NeatEntries []))
    (hwiths : ∀ r ∈ withs, Always r WithsNeat) (hbody : Always body NeatBlock) :
    Always (Reading.query withs body order limits lock) NeatBlock := by
  refine .visit <| (Always.getD hwiths (.pure withsNeat_nil)).bind fun ws hws =>
    hbody.bind fun es hes => (neat_unwalkedList rfl).bind fun os hos =>
      (Always.mapM hlimits).bind fun ls hls => ?_
  have hlock : Always (Reading.lockClause lock) (NeatEntries []) :=
    neat_optionalEntry (P := fun _ => True) (fun _ _ _ _ _ => trivial) fun _ _ => .unwalked rfl
  exact hlock.map fun ks hks => neat_surround hws hes ((hos.append (.flatten hls)).append hks)

theorem neat_limit (key : String) (hkey : reach? (.text key) = none) (e : Operand) :
    Always (Reading.limit key e) (NeatEntries []) := .mapAny fun _ => .unwalked hkey

theorem neat_fetch (e : Option Operand) : Always (Reading.fetch e) (NeatEntries []) :=
  .mapAny fun _ => .unwalked rfl

end Queries

section Changes

variable {whereTest : Option Operand} {items : List (Read Value)} {withs : Option (Read Entries)}

theorem neat_target (path : Path) : Always (Reading.target path) Neat :=
  .visit (.pure (neat_path path))

theorem neat_returning (h : ∀ r ∈ items, Always r Neat) :
    Always (Reading.returning items) (NeatEntries []) :=
  neat_listEntry ((Always.visitAll h).map fun _ hvs => Neat.list hvs) fun _ hv =>
    .plain (by decide) (by decide) hv

/-- What an insertion puts in; rows are not searched. -/
inductive InsertedNeat : Inserted → Prop
  | query {v : Value} : Neat v → InsertedNeat (.query v)
  | values {v : Value} : InsertedNeat (.values v)

theorem neat_insertion (hv : Neat v) {columns : Option (List Value)}
    (hcolumns : ∀ vs ∈ columns, ∀ v ∈ vs, Neat v) {i : Inserted} (hi : InsertedNeat i) :
    NeatEntries [] (Reading.insertion v columns i) := by
  cases hi with
  | @query q hq =>
    refine .plain (by decide) (by decide) (.list (List.forall_mem_cons.mpr ⟨hv, ?_⟩))
    refine List.forall_mem_append.mpr ⟨?_, by simpa using hq⟩
    cases columns with
    | none => nofun
    | some cs => simpa using Neat.list (hcolumns cs rfl)
  | values =>
    have htable : NeatEntries [] (Reading.entry "insert-into" v) :=
      .plain (by decide) (by decide) hv
    have hcolumns : NeatEntries []
        (columns.elim [] fun cs => Reading.entry "columns" (.list cs)) := by
      cases columns with
      | none => exact .nil
      | some cs => exact .unwalked rfl
    exact (htable.append hcolumns).append (.unwalked rfl)

theorem neat_insert (path : Path) (name : Option Name) (columns : List Name)
    {inserted : Read Inserted} {conflict : Option (Read Entries)}
    (hwiths : ∀ r ∈ withs, Always r WithsNeat) (hinserted : Always inserted InsertedNeat)
    (hconflict : ∀ r ∈ conflict, Always r (NeatEntries [])) (hitems : ∀ r ∈ items, Always r Neat) :
    Always (Reading.insert withs path name columns inserted conflict items) NeatBlock := by
  refine .visit <| (Always.getD hwiths (.pure withsNeat_nil)).bind fun ws hws =>
    (neat_target path).bind fun t ht => ?_
  have hrest : ∀ (table : Value) (cs : Option (List Value)), Neat table →
      (∀ vs ∈ cs, ∀ v ∈ vs, Neat v) → Always (do
        let source ← inserted
        let conflict ← conflict.getD (pure [])
        let items ← Reading.returning items
        return ws ++ conflict ++ items ++ Reading.insertion table cs source) NeatBlock := by
    intro table cs htable hcs
    refine hinserted.bind fun i hi => (Always.getD hconflict (.pure .nil)).bind fun es hes =>
      (neat_returning hitems).map fun rs hrs => ?_
    obtain ⟨key, hkey, hws⟩ := hws
    refine (((hws.append hes).append hrs).append (neat_insertion htable hcs hi)).block
      (List.nodup_singleton key) ?_
    cases hi <;> simp [Reading.insertion, Reading.entry]
  have htable : Neat (name.elim t fun n => .list [t, n.asAlias]) := by
    cases name with
    | none => exact ht
    | some n => exact neat_pair ht (neat_asAlias n)
  have hnames : Always (some <$> Reading.nameList columns) fun o => ∀ vs ∈ o, ∀ v ∈ vs, Neat v :=
    (neat_nameList columns).map fun vs hvs ws hws => Option.mem_some.mp hws ▸ hvs
  have hmissing : ∀ vs ∈ (none : Option (List Value)), ∀ v ∈ vs, Neat v := by simp
  exact .ite (hrest _ none htable hmissing) (hnames.bind fun cs hcs => hrest _ cs htable hcs)

theorem neat_conflict {target : Option (Read Entries)} {action : Read Entries}
    (htarget : ∀ r ∈ target, Always r (NeatEntries [])) (haction : Always action (NeatEntries [])) :
    Always (Reading.conflict target action) (NeatEntries []) :=
  .visit <| (Always.getD htarget (.pure (.unwalked rfl))).bind fun _ ht =>
    haction.map fun _ ha => ht.append ha

theorem neat_doUpdate (fields : List (Read (Value × Value))) (whereTest : Option Operand) :
    Always (Reading.doUpdate fields whereTest) (NeatEntries []) := by
  refine .bindAny fun _ => .bindAny fun tests => ?_
  cases tests <;> exact .pure (.unwalked rfl)

theorem neat_update (path : Path) (name : Option Name) (fields : List (Read (Value × Value)))
    {sources : List (Read FromItem)} (hwiths : ∀ r ∈ withs, Always r WithsNeat)
    (hsources : ∀ r ∈ sources, Always r SourceNeat) (hwhere : ∀ p ∈ whereTest, OperandNeat p)
    (hitems : ∀ r ∈ items, Always r Neat) :
    Always (Reading.update withs path name fields sources whereTest items) NeatBlock := by
  refine .visit <| (Always.getD hwiths (.pure withsNeat_nil)).bind fun ws hws =>
    .bindAny fun table => .bindAny fun fields => (neat_fromClause hsources).bind fun es hes =>
      (neat_condition "where" (by decide) hwhere).bind fun ts hts =>
        (neat_returning hitems).map fun rs hrs => ?_
  obtain ⟨key, hkey, hws⟩ := hws
  have hchanged : NeatEntries [] (Reading.entry "update" table ++ Reading.entry "set" fields) :=
    NeatEntries.append (.unwalked rfl) (.unwalked rfl)
  have hall := (((hws.append hchanged).append hes).append hts).append hrs
  rw [← List.append_assoc ws] at hall
  have hnodup : ∀ key ∈ Clause.tableExpressions, [key, "from", "where"].Nodup := by decide
  exact hall.block (hnodup key hkey) (by simp [Reading.entry])

theorem neat_delete (path : Path) (name : Option Name) {tables : List (Read Value)}
    (hwiths : ∀ r ∈ withs, Always r WithsNeat) (htables : ∀ r ∈ tables, Always r Neat)
    (hwhere : ∀ p ∈ whereTest, OperandNeat p) (hitems : ∀ r ∈ items, Always r Neat) :
    Always (Reading.delete withs path name tables whereTest items) NeatBlock := by
  have hlist : Always (do return .list (← visitAll tables)) Neat :=
    (Always.visitAll htables).map fun _ hvs => Neat.list hvs
  have hentry : ∀ v, Neat v → NeatEntries [] (Reading.entry "using" v) :=
    fun _ hv => .plain (by decide) (by decide) hv
  refine .visit <| (Always.getD hwiths (.pure withsNeat_nil)).bind fun ws hws =>
    .bindAny fun table => (neat_listEntry hlist hentry).bind fun es hes =>
      (neat_condition "where" (by decide) hwhere).bind fun ts hts =>
        (neat_returning hitems).map fun rs hrs => ?_
  obtain ⟨key, hkey, hws⟩ := hws
  have hchanged : NeatEntries [] (Reading.entry "delete-from" table) := .unwalked rfl
  have hall := (((hws.append hchanged).append hes).append hts).append hrs
  have hnodup : ∀ key ∈ Clause.tableExpressions, [key, "where"].Nodup := by decide
  exact hall.block (hnodup key hkey) (by simp [Reading.entry])

end Changes

section Trees

/-- What a tree of the kind is read as is neat, where it is searched. -/
def Neatly : (k : Kind) → Meaning k → Prop
  | .expr, o => OperandNeat o
  | .branch, r => Always r fun vs => ∀ v ∈ vs, Neat v
  | .window, r => Always r fun o => ∀ v ∈ o, Neat v
  | .orderItem, _ => True
  | .limit, r => Always r (NeatEntries [])
  | .query, r => Always r NeatBlock
  | .ctes, r => Always r WithsNeat
  | .cte, r => Always r PairNeat
  | .body, r => Always r NeatBlock
  | .distinct, r => Always r MarkNeat
  | .select, r => Always r NeatBlock
  | .selectItem, r => Always r Neat
  | .source, r => Always r SourceNeat
  | .table, r => Always r Neat
  | .join, r => Always r JoinNeat
  | .joinTest, r => Always r Neat
  | .assignment, _ => True
  | .row, _ => True
  | .insertSource, r => Always r InsertedNeat
  | .conflictTarget, r => Always r (NeatEntries [])
  | .conflictAction, r => Always r (NeatEntries [])
  | .conflict, r => Always r (NeatEntries [])
  | .statement, r => Always r NeatBlock
  | .list k, ms => ∀ m ∈ (show List (Meaning k) from ms), Neatly k m
  | .option k, m => ∀ n ∈ (show Option (Meaning k) from m), Neatly k n

variable {N : String → Bool}

theorem neat_number (digits : String) :
    OperandNeat (Operand.leafOr (Literal.number digits |>.map untyped)) := by
  have hleaf : ∀ n, Literal.number digits = .ok n → isLeaf n = true := by
    intro n hn
    unfold Literal.number at hn
    dsimp only at hn
    split at hn
    · cases hn
      rfl
    · split at hn
      · cases hn
      · cases hn
        rfl
  refine operandNeat_node fun _ v hv => ?_
  cases hn : Literal.number digits with
  | error e =>
    rw [hn] at hv
    cases hv
  | ok n =>
    rw [hn] at hv
    cases hv
    exact neat_untyped (hleaf n hn)

/-- The induction over the tree. -/
theorem neatly_read {k : Kind} {t : Tree k} (h : Regular N t) : Neatly k t.read := by
  unfold Regular at h
  induction t
  all_goals simp only [Tree.every, Bool.and_eq_true] at h
  case nil => exact List.forall_mem_nil _
  case cons ih ihs => exact List.forall_mem_cons.mpr ⟨ih h.1, ihs h.2⟩
  case absent =>
    intro _ hm
    cases hm
  case present ih => exact fun _ hm => Option.mem_some.mp hm ▸ ih h
  case number digits => exact neat_number digits
  case string => exact operandNeat_leaf (neat_untyped rfl)
  case boolean => exact operandNeat_leaf (neat_untyped rfl)
  case null => exact operandNeat_leaf (.leaf rfl)
  case typed quoted => exact operandNeat_leaf (neat_literal h quoted)
  case verbatim sql => exact operandNeat_leaf (neat_raw sql)
  case column path => exact operandNeat_leaf (neat_path path)
  case param => exact operandNeat_leaf (neat_headed (by simpa using .leaf rfl))
  case call ih₁ ih₂ ih₃ =>
    obtain ⟨⟨⟨-, h₁⟩, h₂⟩, h₃⟩ := h
    exact neat_call _ _ (ih₁ h₁) (ih₂ h₂) (ih₃ h₃)
  case cases ih₁ ih₂ =>
    exact operandNeat_node ((neat_branches (ih₁ h.1.2) (ih₂ h.2)).map fun _ hvs => neat_headed hvs)
  case caseOf ih₁ ih₂ ih₃ =>
    obtain ⟨⟨⟨-, h₁⟩, h₂⟩, h₃⟩ := h
    exact operandNeat_node <| (ih₁ h₁).value.bind fun _ hv =>
      (neat_branches (ih₂ h₂) (ih₃ h₃)).map fun _ hvs =>
        neat_headed (List.forall_mem_cons.mpr ⟨hv, hvs⟩)
  case paren ih => exact operandNeat_node (ih h.2).value
  case field ih => exact neat_unary (ih h.2) fun _ hv => by simpa using ⟨hv, .leaf rfl⟩
  case rowOf ih₁ ih₂ => exact neat_row (ih₁ h.1.2) (ih₂ h.2)
  case subquery ih => exact operandNeat_node ((ih h.2).map fun _ hes => NeatBlock.neat hes)
  case «exists» ih => exact neat_ofQuery (ih h.2)
  case array ih =>
    exact operandNeat_node <| neat_listed (ih h.2) fun _ hvs =>
      .pure (neat_headed (by simpa using Neat.list hvs))
  case arrayOf ih => exact neat_ofQuery (ih h.2)
  case cast ih =>
    exact operandNeat_node <| (ih h.2).value.bind fun _ hv => .mapAny fun _ =>
      neat_headed (by simpa using ⟨hv, .leaf rfl⟩)
  case typecast ih =>
    exact operandNeat_node <| (ih h.2).value.bind fun _ hv => .mapAny fun type => neat_cast hv type
  case extract ih => exact neat_unary (ih h.2) fun _ hv => by simpa using ⟨.leaf rfl, hv⟩
  case quantified ih => exact neat_form_one _ (ih h.2)
  case quantifiedQuery ih => exact neat_ofQuery (ih h.2)
  case default => exact operandNeat_leaf (neat_headed (List.forall_mem_nil _))
  case connected ih₁ ih₂ => exact neat_connected _ (ih₁ h.1.2) (ih₂ h.2)
  case not ih => exact neat_form_one _ (ih h.2)
  case test t _ ih =>
    have ht : isLeaf t.operand = true := by cases t <;> rfl
    exact neat_unary (ih h.2) fun _ hv => by simpa using ⟨hv, .leaf ht⟩
  case predicate ih₁ ih₂ => exact neat_form_two _ (ih₁ h.1.2) (ih₂ h.2)
  case comparison ih₁ ih₂ => exact neat_form_two _ (ih₁ h.1.2) (ih₂ h.2)
  case binary ih₁ ih₂ => exact neat_form_two _ (ih₁ h.1.2) (ih₂ h.2)
  case between ih₁ ih₂ ih₃ =>
    obtain ⟨⟨⟨-, h₁⟩, h₂⟩, h₃⟩ := h
    exact neat_form_three _ (ih₁ h₁) (ih₂ h₂) (ih₃ h₃)
  case inList ih₁ ih₂ => exact neat_inList _ (ih₁ h.1.2) (ih₂ h.2)
  case inQuery ih₁ ih₂ => exact neat_inQuery _ (ih₁ h.1.2) (ih₂ h.2)
  case atTimeZone ih₁ ih₂ => exact neat_form_two _ (ih₁ h.1.2) (ih₂ h.2)
  case negate ih => exact operandNeat_node ((ih h.2).value.map fun _ hv => neat_negated hv)
  case plus ih => exact neat_form_one _ (ih h.2)
  case subscript ih₁ ih₂ => exact neat_form_two _ (ih₁ h.1.2) (ih₂ h.2)
  case branch ih₁ ih₂ =>
    exact Always.mapM_of <| List.forall_mem_cons.mpr
      ⟨(ih₁ h.1.2).value, List.forall_mem_singleton.mpr (ih₂ h.2).value⟩
  case windowNamed => exact Always.pure fun _ hv => Option.mem_some.mp hv ▸ .leaf rfl
  case windowSpec => exact neat_windowSpec _ _ _
  case orderItem => exact trivial
  case limit => exact neat_limit _ rfl _
  case limitAll => exact Always.pure .nil
  case offset => exact neat_limit _ rfl _
  case fetch => exact neat_fetch _
  case query ih₁ ih₂ _ ih₄ =>
    obtain ⟨⟨⟨⟨-, h₁⟩, h₂⟩, -⟩, h₄⟩ := h
    exact neat_queryOf _ (ih₄ h₄) (ih₁ h₁) (ih₂ h₂)
  case ctes ih => exact neat_ctes _ (ih h.2)
  case cte ih => exact neat_cte _ _ (ih h.2)
  case selectBody ih => exact ih h.2
  case nested ih => exact ih h.2
  case operation ih₁ ih₂ => exact neat_operation _ (ih₁ h.1.2) (ih₂ h.2)
  case distinctAll =>
    exact Always.pure ⟨show "select-distinct" ∈ Clause.selections by decide, List.forall_mem_nil _⟩
  case distinctOn ih => exact neat_distinctOn (ih h.2)
  case select ih₁ ih₂ ih₃ ih₄ _ ih₆ =>
    obtain ⟨⟨⟨⟨⟨⟨-, h₁⟩, h₂⟩, h₃⟩, h₄⟩, -⟩, h₆⟩ := h
    exact neat_select (ih₁ h₁) (ih₂ h₂) (ih₃ h₃) (ih₄ h₄) (ih₆ h₆)
  case star => exact Always.visit (.pure (.leaf rfl))
  case tableStar => exact neat_tableStar _ _
  case item ih => exact (ih h.2).value.visit
  case aliased ih =>
    exact Always.visit ((ih h.2).value.map fun _ hv => neat_pair hv (neat_asAlias _))
  case source ih₁ ih₂ => exact neat_source (ih₁ h.1.2) (ih₂ h.2)
  case relation path name => exact neat_aliased (.visit (.pure (neat_path path))) name
  case derived ih => exact neat_aliased (neat_query (ih h.2)) _
  case lateral ih => exact neat_lateral (neat_query (ih h.2)) _
  case lateralCall ih => exact neat_lateral (ih h.2).value _
  case tableCall ih => exact neat_aliased (ih h.2).value _
  case join ih₁ ih₂ => exact neat_join _ (ih₁ h.1.2) (ih₂ h.2)
  case joinOn ih => exact (ih h.2).value.visit
  case joinUsing => exact neat_joinUsing _
  case assignment => exact trivial
  case row => exact trivial
  case rows => exact Always.mapAny fun _ => .values
  case insertQuery ih => exact Always.map (ih h.2) fun _ hes => .query (NeatBlock.neat hes)
  case defaults => exact Always.pure .values
  case conflictColumns => exact Always.mapAny fun _ => .unwalked rfl
  case conflictConstraint =>
    exact Always.pure (NeatEntries.append (.unwalked rfl) (.unwalked rfl))
  case doNothing => exact Always.pure (.unwalked rfl)
  case doUpdate => exact neat_doUpdate _ _
  case conflict ih₁ ih₂ => exact neat_conflict (ih₁ h.1.2) (ih₂ h.2)
  case queryStatement ih => exact ih h.2
  case insert ih₁ ih₂ ih₃ ih₄ =>
    obtain ⟨⟨⟨⟨-, h₁⟩, h₂⟩, h₃⟩, h₄⟩ := h
    exact neat_insert _ _ _ (ih₁ h₁) (ih₂ h₂) (ih₃ h₃) (ih₄ h₄)
  case update ih₁ _ ih₃ ih₄ ih₅ =>
    obtain ⟨⟨⟨⟨⟨-, h₁⟩, -⟩, h₃⟩, h₄⟩, h₅⟩ := h
    exact neat_update _ _ _ (ih₁ h₁) (ih₃ h₃) (ih₄ h₄) (ih₅ h₅)
  case delete ih₁ ih₂ ih₃ ih₄ =>
    obtain ⟨⟨⟨⟨-, h₁⟩, h₂⟩, h₃⟩, h₄⟩ := h
    exact neat_delete _ _ (ih₁ h₁) (ih₂ h₂) (ih₃ h₃) (ih₄ h₄)

end Trees

section Commands

theorem NeatEntries.unwalkedBlock (h : NeatEntries [] es) (hne : es ≠ []) : NeatBlock es :=
  h.block List.nodup_nil hne

theorem neat_alterAction (a : AlterAction) : Always (Reading.alterAction a) (NeatEntries []) := by
  cases a with
  | add c => exact .visit (.mapAny fun _ => .unwalked rfl)
  | drop c => exact .visit (.pure (.unwalked rfl))

/-- The clauses that define tables are not searched. -/
theorem neat_command {N : String → Bool} {c : Command} (h : c.Regular N) :
    Always c.read NeatBlock := by
  cases c with
  | statement s => exact neatly_read h
  | createTable =>
    exact .visit <| .bindAny fun _ => .mapAny fun _ =>
      (NeatEntries.append (.unwalked rfl) (.unwalked rfl)).unwalkedBlock nofun
  | dropTable => exact .visit <| .mapAny fun _ => (NeatEntries.unwalked rfl).unwalkedBlock nofun
  | truncate => exact .visit <| .mapAny fun _ => (NeatEntries.unwalked rfl).unwalkedBlock nofun
  | alterTable path actions =>
    refine .visit <| .bindAny fun _ =>
      (Always.mapM_of fun a _ => neat_alterAction a).bind fun changes hchanges => ?_
    have htable : ∀ v, NeatEntries [] (Reading.entry "alter-table" v) := fun _ => .unwalked rfl
    rcases changes with _ | ⟨change, _ | _⟩
    · exact .pure ((htable _).unwalkedBlock nofun)
    · exact .pure (((htable _).append (hchanges change (by simp))).unwalkedBlock nofun)
    · exact .pure ((htable _).unwalkedBlock nofun)

end Commands

end SqlTree
