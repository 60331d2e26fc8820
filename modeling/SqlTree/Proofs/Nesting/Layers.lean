import SqlTree.Proofs.Nesting.Rows
import SqlTree.Proofs.Readings

/-! The layers of a query: what is read of each pair of parentheses, and that the clause map of the
query is made of them. -/

namespace SqlTree.Nesting

open Syntax (Always Depth Tree Query Read Lock Kind JoinKind Joined FromItem)
open Syntax.Reading

/-- What is read of the common table expressions and of the tail of a query. -/
def readLayer (ctes : Tree (.option .ctes)) (order : Tree (.list .orderItem))
    (limits : Tree (.list .limit)) (lock : Option Lock) : Read Layer := do
  let withs ← Option.getD (α := Read Entries) ctes.read (pure [])
  let order ← orderClause order.read
  let limits ← List.mapM (β := Entries) id limits.read
  return ⟨withs, order ++ limits.flatten ++ (← lockClause lock)⟩

/-- The layers of a query that is read at a depth, the inmost first, around the body that is no query
in parentheses. -/
inductive Layered : Depth → Query → Entries → List Layer → Prop
  | body {d : Depth} {ctes : Tree (.option .ctes)} {body : Tree .body}
      {order : Tree (.list .orderItem)} {limits : Tree (.list .limit)} {lock : Option Lock}
      {es : Entries} {l : Layer} : (∀ q, body ≠ .nested q) →
      (body.read : Read Entries) ⟨d.limit, d.reached + 1⟩ = .ok es →
      readLayer ctes order limits lock ⟨d.limit, d.reached + 1⟩ = .ok l →
      Layered d (.query ctes body order limits lock) es [l]
  | nested {d : Depth} {ctes : Tree (.option .ctes)} {q : Query} {order : Tree (.list .orderItem)}
      {limits : Tree (.list .limit)} {lock : Option Lock} {es : Entries} {ls : List Layer}
      {l : Layer} : Layered ⟨d.limit, d.reached + 1⟩ q es ls →
      readLayer ctes order limits lock ⟨d.limit, d.reached + 1⟩ = .ok l →
      Layered d (.query ctes (.nested q) order limits lock) es (ls ++ [l])

variable {ctes : Tree (.option .ctes)} {body : Tree .body} {order : Tree (.list .orderItem)}
  {limits : Tree (.list .limit)} {lock : Option Lock} {d : Depth}

theorem query_eq_ok {es : Entries}
    (h : ((Tree.query ctes body order limits lock).read : Read Entries) d = .ok es) :
    ∃ b l, (body.read : Read Entries) ⟨d.limit, d.reached + 1⟩ = .ok b ∧
      readLayer ctes order limits lock ⟨d.limit, d.reached + 1⟩ = .ok l ∧
      es = surround l.withs b l.tail := by
  have hquery := Syntax.read_of_visit h
  obtain ⟨w, hw, hquery⟩ := Syntax.bind_eq_ok hquery
  obtain ⟨b, hb, hquery⟩ := Syntax.bind_eq_ok hquery
  obtain ⟨o, ho, hquery⟩ := Syntax.bind_eq_ok hquery
  obtain ⟨n, hn, hquery⟩ := Syntax.bind_eq_ok hquery
  obtain ⟨k, hk, hquery⟩ := Syntax.bind_eq_ok hquery
  refine ⟨b, ⟨w, o ++ n.flatten ++ k⟩, hb, ?_, (Except.ok.inj hquery).symm⟩
  rw [readLayer, Syntax.bind_of_ok hw, Syntax.bind_of_ok ho, Syntax.bind_of_ok hn,
    Syntax.bind_of_ok hk]
  rfl

/-- The clause map of a query is that of its layers. -/
theorem exists_layered (q : Query) {d : Depth} {es : Entries}
    (h : (q.read : Read Entries) d = .ok es) :
    ∃ body ls, Layered d q body ls ∧ es = mapOf body ls := by
  match q, h with
  | .query ctes (.nested q) order limits lock, h =>
    obtain ⟨fs, l, hb, hl, rfl⟩ := query_eq_ok h
    obtain ⟨body, ls, hq, rfl⟩ := exists_layered q hb
    exact ⟨body, ls ++ [l], .nested hq hl, (mapOf_append body ls l).symm⟩
  | .query ctes (.selectBody s) order limits lock, h =>
    obtain ⟨fs, l, hb, hl, rfl⟩ := query_eq_ok h
    exact ⟨fs, [l], .body nofun hb hl, rfl⟩
  | .query ctes (.operation op left right) order limits lock, h =>
    obtain ⟨fs, l, hb, hl, rfl⟩ := query_eq_ok h
    exact ⟨fs, [l], .body nofun hb hl, rfl⟩
termination_by sizeOf q
decreasing_by
  simp only [Tree.query.sizeOf_spec, Tree.nested.sizeOf_spec]
  omega

section Keys

theorem KeysIn.mono {keys others : List String} {es : Entries} (h : KeysIn keys es)
    (hsub : keys ⊆ others) : KeysIn others es := by
  intro e he
  obtain ⟨k, hk, hek⟩ := h e he
  exact ⟨k, hsub hk, hek⟩

theorem KeysIn.append {keys : List String} {es fs : Entries} (h : KeysIn keys es)
    (h' : KeysIn keys fs) : KeysIn keys (es ++ fs) :=
  fun e he => (List.mem_append.mp he).elim (h e) (h' e)

theorem KeysIn.entry {keys : List String} {k : String} (h : k ∈ keys) (v : Value) :
    KeysIn keys (Syntax.Reading.entry k v) := by
  intro e he
  rw [List.mem_singleton.mp he]
  exact ⟨k, h, rfl⟩

theorem KeysIn.flatten {keys : List String} {ess : List Entries} (h : ∀ es ∈ ess, KeysIn keys es) :
    KeysIn keys ess.flatten := by
  intro e he
  obtain ⟨es, hes, he⟩ := List.mem_flatten.mp he
  exact h es hes e he

/-- What a reading yields has these keys only. -/
abbrev Keyed (keys : List String) (r : Read Entries) : Prop := Always r (KeysIn keys)

theorem Keyed.optionalEntry {keys : List String} {k : String} (h : k ∈ keys)
    (r : Option (Read Value)) : Keyed keys (optionalEntry k r) := by
  cases r with
  | none => exact .pure nofun
  | some r => exact .mapAny fun v => .entry h v

end Keys

section Layers

theorem withs_keyed : (ctes : Tree (.option .ctes)) →
    Keyed Clause.tableExpressions (Option.getD (α := Read Entries) ctes.read (pure []))
  | .absent => .pure nofun
  | .present (.ctes recursively items) => by
    refine Always.visit (.mapAny fun vs => .entry ?_ _)
    cases recursively <;> decide

theorem limit_keyed (t : Tree .limit) : Keyed tailKeys (t.read : Read Entries) := by
  cases t with
  | limitAll => exact .pure nofun
  | limit e => exact .mapAny fun v => .entry (by decide) v
  | offset e => exact .mapAny fun v => .entry (by decide) v
  | fetch e => exact .mapAny fun v => .entry (by decide) v

theorem mem_read {k : Kind} (ts : Tree (.list k)) (r : Syntax.Meaning k)
    (h : List.Mem r ts.read) : ∃ t : Tree k, r = t.read := by
  match ts with
  | .nil => cases h
  | .cons t ts =>
    rcases List.mem_cons.mp h with rfl | h
    · exact ⟨t, rfl⟩
    · exact mem_read ts r h

theorem readLayer_isLayer : Always (readLayer ctes order limits lock) IsLayer := by
  refine (withs_keyed ctes).bind fun w hw => ?_
  have horder : Keyed tailKeys (orderClause order.read) := .optionalEntry (by decide) _
  refine horder.bind fun o ho => ?_
  have hlimits : Always (List.mapM (β := Entries) id limits.read) fun n => ∀ es ∈ n, KeysIn tailKeys es :=
    .mapM fun r hr => by
      obtain ⟨t, rfl⟩ := mem_read limits r hr
      exact limit_keyed t
  refine hlimits.bind fun n hn => ?_
  have hlock : Keyed tailKeys (lockClause lock) := .optionalEntry (by decide) _
  exact hlock.map fun k hk => ⟨hw, (ho.append (.flatten hn)).append hk⟩

end Layers

section Bodies

theorem insert_keys {keys : List String} {groups : List (String × List Value)} {j : Joined}
    (hj : j.1 ∈ keys) (h : ∀ g ∈ groups, g.1 ∈ keys) : ∀ g ∈ Joined.insert groups j, g.1 ∈ keys := by
  induction groups with
  | nil => simpa [Joined.insert] using hj
  | cons g gs ih =>
    obtain ⟨hg, hgs⟩ := List.forall_mem_cons.mp h
    rw [Joined.insert]
    split
    · exact List.forall_mem_cons.mpr ⟨hg, hgs⟩
    · exact List.forall_mem_cons.mpr ⟨hg, ih hgs⟩

theorem joined_keys {keys : List String} (hby : "join-by" ∈ keys) {js : List Joined}
    (h : ∀ j ∈ js, j.1 ∈ keys) : KeysIn keys (Joined.entries js) := by
  have hgroups : ∀ groups : List (String × List Value), (∀ g ∈ groups, g.1 ∈ keys) →
      ∀ g ∈ js.foldl Joined.insert groups, g.1 ∈ keys := by
    induction js with
    | nil => exact fun _ hg => hg
    | cons j js ih =>
      intro groups hg
      obtain ⟨hj, hjs⟩ := List.forall_mem_cons.mp h
      exact ih hjs _ (insert_keys hj hg)
  rw [Joined.entries]
  split
  · exact nofun
  · split
    · intro e he
      obtain ⟨g, hg, rfl⟩ := List.mem_map.mp he
      exact ⟨g.1, hgroups [] nofun g hg, rfl⟩
    · exact .entry hby _

def joinKeys : List String := ["join", "left-join", "right-join", "full-join", "cross-join"]

/-- The clauses of a `SELECT`. -/
def selectKeys : List String :=
  Clause.selections ++ ["from", "join-by"] ++ joinKeys ++ ["where", "group-by", "having"]

theorem chain_keys {items : List FromItem} (h : ∀ i ∈ items, ∀ j ∈ i.joins, j.1 ∈ joinKeys) :
    ∀ j ∈ FromItem.chain items, j.1 ∈ joinKeys := by
  induction items with
  | nil => exact nofun
  | cons i items ih =>
    obtain ⟨hi, hitems⟩ := List.forall_mem_cons.mp h
    intro j hj
    rcases List.mem_append.mp hj with hj | hj
    · rcases List.mem_cons.mp hj with rfl | hj
      · exact (by decide : "cross-join" ∈ joinKeys)
      · exact hi j hj
    · exact ih hitems j hj

theorem items_keys {items : List FromItem} (h : ∀ i ∈ items, ∀ j ∈ i.joins, j.1 ∈ joinKeys) :
    KeysIn selectKeys (FromItem.entries items) := by
  have hjoined : ∀ j ∈ FromItem.joined items, j.1 ∈ joinKeys := by
    intro j hj
    rw [FromItem.joined] at hj
    split at hj
    · exact chain_keys h j (List.mem_of_mem_drop hj)
    · obtain ⟨i, hi, hj⟩ := List.mem_flatMap.mp hj
      exact h i hi j hj
  have hsub : ∀ k ∈ joinKeys, k ∈ selectKeys := by decide
  rw [FromItem.entries]
  intro e he
  rcases List.mem_cons.mp he with rfl | he
  · exact ⟨"from", by decide, rfl⟩
  · exact joined_keys (by decide) (fun j hj => hsub _ (hjoined j hj)) e he

theorem join_keys (t : Tree .join) : Always (t.read : Read Joined) fun j => j.1 ∈ joinKeys := by
  have hkind : ∀ kind : JoinKind, kind.clause ∈ joinKeys := fun kind => by cases kind <;> decide
  match t with
  | .join kind table .absent =>
    exact .mapAny fun _ => hkind kind
  | .join kind table (.present test) =>
    exact .bindAny fun v => .mapAny fun _ => hkind kind

theorem source_keys (t : Tree .source) :
    Always (t.read : Read FromItem) fun i => ∀ j ∈ i.joins, j.1 ∈ joinKeys := by
  match t with
  | .source table joins =>
    refine .bindAny fun v => Always.map (Always.mapM fun r hr => ?_) fun js hjs => hjs
    obtain ⟨t, rfl⟩ := mem_read joins r hr
    exact join_keys t

theorem fromClause_keyed (sources : Tree (.list .source)) :
    Keyed selectKeys (fromClause sources.read) := by
  suffices h : ∀ rs : List (Read FromItem),
      (∀ r ∈ rs, Always r fun i => ∀ j ∈ i.joins, j.1 ∈ joinKeys) → Keyed selectKeys (fromClause rs) by
    refine h _ fun r hr => ?_
    obtain ⟨t, rfl⟩ := mem_read sources r hr
    exact source_keys t
  intro rs hrs
  rw [fromClause]
  split
  · exact .pure nofun
  · exact (Always.map (.mapM hrs) fun items => items_keys).visit

theorem mark_keyed (mark : Tree (.option .distinct)) : Always
    (Option.getD (α := Read (String × List Value)) mark.read (pure ("select", [])))
      fun m => m.1 ∈ Clause.selections := by
  match mark with
  | .absent => exact .pure (by decide)
  | .present .distinctAll => exact .pure (by decide)
  | .present (.distinctOn items) =>
    exact .mapAny fun _ => (by decide : "select-distinct-on" ∈ Clause.selections)

theorem select_keyed (s : Tree .select) : Keyed selectKeys (s.read : Read Entries) := by
  match s with
  | .select mark items sources condition groups having =>
    refine Always.visit ((mark_keyed mark).bind fun m hm => ?_)
    refine .bindAny fun vs => ?_
    refine (fromClause_keyed sources).bind fun es hes => ?_
    have hwhere : Keyed selectKeys (Syntax.Reading.condition "where" condition.read) :=
      .optionalEntry (by decide) _
    have hgroups : Keyed selectKeys (groupClause groups.read) := .optionalEntry (by decide) _
    have hhaving : Keyed selectKeys (Syntax.Reading.condition "having" having.read) :=
      .optionalEntry (by decide) _
    have hkey : m.1 ∈ selectKeys := by simp [selectKeys, hm]
    refine hwhere.bind fun ws hws => hgroups.bind fun gs hgs => hhaving.map fun hs hhs => ?_
    exact ((((KeysIn.entry hkey _).append hes).append hws).append hgs).append hhs

/-- A body that is no query in parentheses has clauses of bodies only. -/
theorem body_isBody (b : Tree .body) (h : ∀ q, b ≠ .nested q) : Always (b.read : Read Entries) IsBody := by
  match b with
  | .nested q => exact absurd rfl (h q)
  | .operation op left right =>
    have hop : op.clause ∈ bodyKeys := by cases op <;> decide
    refine Always.visit (.bindAny fun l => .mapAny fun r => ?_)
    unfold combine
    split
    · split <;> exact .entry hop _
    · exact .entry hop _
  | .selectBody s => exact (select_keyed s).mono fun _ hes => hes.mono (by decide)

end Bodies

/-- The layers and the body of a query have no clauses of each other. -/
theorem Layered.keys {q : Query} {es : Entries} {ls : List Layer} (h : Layered d q es ls) :
    IsBody es ∧ ∀ l ∈ ls, IsLayer l := by
  induction h with
  | body hbody hes hl =>
    exact ⟨body_isBody _ hbody _ _ hes, List.forall_mem_singleton.mpr (readLayer_isLayer _ _ hl)⟩
  | nested _ hl ih =>
    refine ⟨ih.1, List.forall_mem_append.mpr ⟨ih.2, ?_⟩⟩
    exact List.forall_mem_singleton.mpr (readLayer_isLayer _ _ hl)

end SqlTree.Nesting
