import SqlTree.Proofs.FromList.Text
import SqlTree.Proofs.RoundTrip.Blocks
import Mathlib.Data.List.ReduceOption

/-! The clauses that a `FROM` list is read as. Rendered one after the other they are the list. -/

namespace SqlTree.FromList

open Syntax (JoinKind Joined FromItem)
open Syntax.Parser (joinKinds joinKinds_pairwise)
open Render (item)
open Fragment (commas after)

section Clauses

/-- A clause for some of the joins. -/
structure JoinClause where
  key : String
  value : Value
  joins : List JoinPart

def JoinClause.entry (c : JoinClause) : Value × Value := (.text c.key, c.value)

/-- The clause is rendered as its joins. -/
structure JoinClause.Writes (c : JoinClause) : Prop where
  joins : c.joins ≠ []
  value : c.value ≠ .null
  clause : ∃ form, Registry.standard.clause? c.key = some form ∧ ∀ r s,
    Render.clause r s form c.key c.value = Fragment.joined " " <$> c.joins.mapM (joinPhrase r s)

/-- Joins have the conditions that their kinds need. -/
def JoinPart.IsWhole (j : JoinPart) : Prop := j.kind ≠ .cross → j.condition ≠ .null

theorem conditionText_eq {c : Value} (hc : c ≠ .null) (r : Renderer) (s : Settings) :
    Render.joinCondition r s c = conditionText r s c := by
  unfold Render.joinCondition conditionText
  generalize Render.usingColumns? c = columns
  cases columns <;> cases c <;> first | rfl | exact absurd rfl hc

/-- A join that has the condition that its kind needs is written with it. -/
theorem joinPhrase_eq {j : JoinPart} (hj : j.IsWhole) (r : Renderer) (s : Settings) :
    joinPhrase r s j = joinText r s j := by
  unfold joinPhrase joinText
  congr 1
  funext t
  cases h : j.kind with
  | cross => rfl
  | _ => simp only [conditionText_eq (hj (by simp [h]))]

theorem crossJoinTable_eq {j : JoinPart} (hkind : j.kind = .cross) (r : Renderer) (s : Settings) :
    Render.crossJoinTable r s j.entry = joinPhrase r s j := by
  simp only [JoinPart.entry, joinPhrase, hkind]
  rfl

theorem joinEntry_eq {j : JoinPart} (hkind : j.kind ≠ .cross) (r : Renderer) (s : Settings) :
    Render.joinEntry r s (Render.joinKeyword j.kind.clause) j.entry = joinPhrase r s j := by
  have hwords : ∀ kind : JoinKind, kind ≠ .cross →
      Render.joinKeyword kind.clause ++ " " = joinWords kind := by
    intro kind hkind
    cases kind with
    | cross => exact absurd rfl hkind
    | _ => decide
  have hentry : j.entry = .list [j.table, j.condition] := by
    cases h : j.kind with
    | cross => exact absurd h hkind
    | _ => simp only [JoinPart.entry, h]
  have hphrase : joinPhrase r s j = do
      let t ← item r s true j.table
      return after (joinWords j.kind) t ++ (← Render.joinCondition r s j.condition) := by
    cases h : j.kind with
    | cross => exact absurd h hkind
    | _ => simp only [joinPhrase, h]
  rw [hentry, hphrase, ← hwords j.kind hkind]
  rfl

theorem joinStep_eq (j : JoinPart) (r : Renderer) (s : Settings) :
    Render.joinStep r s j.kind.clause j.entry = joinPhrase r s j := by
  have hclause : ∀ kind : JoinKind, kind.clause = "cross-join" ↔ kind = .cross := by
    intro kind
    cases kind <;> decide
  rw [Render.joinStep]
  by_cases hkind : j.kind = .cross
  · rw [if_pos ((hclause _).mpr hkind), crossJoinTable_eq hkind]
  · rw [if_neg (mt (hclause _).mp hkind), joinEntry_eq hkind]

theorem joinBy_writes {js : List JoinPart} (hne : js ≠ []) :
    JoinClause.Writes ⟨"join-by", .list (js.flatMap fun j => [.text j.kind.clause, j.entry]), js⟩ := by
  have hform : Registry.standard.clause? "join-by" = some .joinBy := by decide
  refine ⟨hne, by simp, .joinBy, hform, fun r s => ?_⟩
  clear hne
  have hkey : ∀ kind : JoinKind, Render.joinKey (.text kind.clause) = kind.clause := by
    intro kind
    cases kind <;> decide
  have hsteps : Render.joinSteps r s (js.flatMap fun j : JoinPart => [.text j.kind.clause, j.entry]) =
      js.mapM (joinPhrase r s) := by
    induction js with
    | nil => rfl
    | cons j js ih =>
      rw [List.flatMap_cons, List.cons_append, List.cons_append, List.nil_append, Render.joinSteps,
        hkey, joinStep_eq, ih, List.mapM_cons]
  have heven : ¬ (js.flatMap fun j : JoinPart => [.text j.kind.clause, j.entry] : List Value).length % 2 = 1 := by
    simp [List.length_flatMap]
  change Render.joinBy r s _ = _
  rw [Render.joinBy]
  refine (if_neg heven).trans ?_
  change (do return Fragment.joined " " (← Render.joinSteps r s
    (js.flatMap fun j : JoinPart => [.text j.kind.clause, j.entry]))) = _
  rw [hsteps, map_eq_pure_bind]

theorem join_writes {kind : JoinKind} {js : List JoinPart} (hne : js ≠ [])
    (hkind : ∀ j ∈ js, j.kind = kind) :
    JoinClause.Writes ⟨kind.clause, .list (js.map JoinPart.entry), js⟩ := by
  refine ⟨hne, by simp, ?_⟩
  by_cases hcross : kind = .cross
  · subst hcross
    have hform : Registry.standard.clause? JoinKind.cross.clause = some .crossJoin := by decide
    refine ⟨.crossJoin, hform, fun r s => ?_⟩
    have htexts : (js.map JoinPart.entry).mapM (Render.crossJoinTable r s) =
        js.mapM (joinPhrase r s) := by
      rw [List.mapM_map]
      exact mapM_congr fun j hj => crossJoinTable_eq (hkind j hj) r s
    change (do return Fragment.joined " " (← (js.map JoinPart.entry).mapM _)) = _
    rw [htexts, map_eq_pure_bind]
  · have hform : ∀ kind : JoinKind, kind ≠ .cross →
        Registry.standard.clause? kind.clause = some .join := by
      intro kind hkind
      cases kind with
      | cross => exact absurd rfl hkind
      | _ => decide
    refine ⟨.join, hform kind hcross, fun r s => ?_⟩
    have htexts : (js.map JoinPart.entry).mapM
        (Render.joinEntry r s (Render.joinKeyword kind.clause)) = js.mapM (joinPhrase r s) := by
      rw [List.mapM_map]
      refine mapM_congr fun j hj => ?_
      have hj' := hkind j hj
      subst hj'
      exact joinEntry_eq hcross r s
    change (do return Fragment.joined " " (← (js.map JoinPart.entry).mapM _)) = _
    rw [htexts, map_eq_pure_bind]

theorem filter_append_of_pairwise {k : JoinKind} {js : List JoinPart} {rank : JoinKind → Nat}
    (hjs : (js.map (rank ·.kind)).Pairwise (· ≤ ·))
    (hk : ∀ j ∈ js, j.kind ≠ k → rank k < rank j.kind) :
    js.filter (·.kind = k) ++ js.filter (·.kind ≠ k) = js := by
  induction js with
  | nil => rfl
  | cons j js ih =>
    rw [List.map_cons, List.pairwise_cons] at hjs
    by_cases hj : j.kind = k
    · have htail := ih hjs.2 fun i hi => hk i (by simp [hi])
      simpa [List.filter_cons, hj] using htail
    · have hlater : ∀ i ∈ j :: js, i.kind ≠ k := by
        intro i hi hik
        rcases List.mem_cons.mp hi with rfl | hi
        · exact hj hik
        · have hle := hjs.1 _ (List.mem_map_of_mem hi)
          have hlt := hk j (by simp) hj
          rw [hik] at hle
          omega
      have hnone : (j :: js).filter (·.kind = k) = [] :=
        List.filter_eq_nil_iff.mpr fun i hi => by simpa using hlater i hi
      have hall : (j :: js).filter (·.kind ≠ k) = j :: js :=
        List.filter_eq_self.mpr fun i hi => by simpa using hlater i hi
      rw [hnone, hall, List.nil_append]

/-- A sequence in the order of some keys is the sequence of what has each key. -/
theorem flatMap_filter_of_pairwise {ks : List JoinKind} {js : List JoinPart} {rank : JoinKind → Nat}
    (hks : (ks.map rank).Pairwise (· < ·)) (hjs : (js.map (rank ·.kind)).Pairwise (· ≤ ·))
    (hmem : ∀ j ∈ js, j.kind ∈ ks) : ks.flatMap (fun k => js.filter (·.kind = k)) = js := by
  induction ks generalizing js with
  | nil =>
    cases js with
    | nil => rfl
    | cons j js => exact absurd (hmem j (by simp)) (by simp)
  | cons k ks ih =>
    obtain ⟨hk, hks⟩ := List.pairwise_cons.mp hks
    have hrank : ∀ j ∈ js, j.kind ≠ k → rank k < rank j.kind := by
      intro j hj hne
      have hmem' : j.kind ∈ ks := (List.mem_cons.mp (hmem j hj)).resolve_left hne
      exact hk _ (List.mem_map_of_mem hmem')
    have hrest : ks.flatMap (fun k => js.filter (·.kind = k)) = js.filter (·.kind ≠ k) := by
      have hfilter : ks.flatMap (fun l => (js.filter (·.kind ≠ k)).filter (·.kind = l)) =
          js.filter (·.kind ≠ k) := by
        refine ih hks (hjs.sublist (List.filter_sublist.map _)) fun j hj => ?_
        obtain ⟨hj, hne⟩ := List.mem_filter.mp hj
        exact (List.mem_cons.mp (hmem j hj)).resolve_left (by simpa using hne)
      rw [← hfilter]
      refine List.flatMap_congr fun l hl => ?_
      rw [List.filter_filter]
      refine List.filter_congr fun j _ => ?_
      have hne : l ≠ k := by
        rintro rfl
        exact Nat.lt_irrefl _ (hk _ (List.mem_map_of_mem hl))
      by_cases hj : j.kind = l <;> simp [hj, hne]
    rw [List.flatMap_cons, hrest]
    exact filter_append_of_pairwise hjs hrank

theorem pairwise_of_inOrder {l : List Nat} (h : Joined.inOrder l = true) : l.Pairwise (· ≤ ·) := by
  induction l with
  | nil => exact .nil
  | cons a l ih =>
    cases l with
    | nil => simp
    | cons b l =>
      rw [Joined.inOrder, Bool.and_eq_true, decide_eq_true_eq] at h
      have hl := ih h.2
      refine List.pairwise_cons.mpr ⟨fun c hc => ?_, hl⟩
      rcases List.mem_cons.mp hc with rfl | hc
      · exact h.1
      · exact Nat.le_trans h.1 ((List.pairwise_cons.mp hl).1 c hc)

/-- Joins in the order of their clauses are read as one clause for each kind. -/
theorem exists_groups {js : List JoinPart}
    (horder : (js.map fun j => Clause.order.idxOf j.kind.clause).Pairwise (· ≤ ·)) :
    ∃ cs : List JoinClause, Joined.entries (js.map JoinPart.joined) = cs.map JoinClause.entry ∧
      (∀ c ∈ cs, c.Writes) ∧ cs.flatMap JoinClause.joins = js ∧
      (cs.map JoinClause.key).Sublist (joinKinds.map JoinKind.clause) := by
  let group : JoinKind → List JoinPart := fun k => js.filter (·.kind = k)
  have hkind : ∀ k, ∀ j ∈ group k, j.kind = k := by
    intro k j hj
    simpa using (List.mem_filter.mp hj).2
  have hgroups : joinKinds.flatMap group = js := by
    refine flatMap_filter_of_pairwise joinKinds_pairwise horder fun j _ => ?_
    cases j.kind <;> decide
  let kinds := joinKinds.filter fun k => !(group k).isEmpty
  have hkinds : kinds.flatMap group = js := by
    have hfilter : ∀ ks : List JoinKind,
        (ks.filter fun k => !(group k).isEmpty).flatMap group = ks.flatMap group := by
      intro ks
      induction ks with
      | nil => rfl
      | cons k ks ih =>
        rw [List.filter_cons, List.flatMap_cons, ← ih]
        cases h : group k <;> simp [h]
    rw [hfilter, hgroups]
  have hjoined : js.map JoinPart.joined = (joinKinds.map fun k =>
      (k.clause, (group k).map JoinPart.entry)).flatMap fun g => g.2.map (g.1, ·) := by
    conv_lhs => rw [← hgroups]
    rw [List.map_flatMap, List.flatMap_map]
    refine List.flatMap_congr fun k _ => ?_
    rw [List.map_map]
    refine List.map_congr_left fun j hj => ?_
    simp [JoinPart.joined, hkind k j hj]
  refine ⟨kinds.map fun k => ⟨k.clause, .list ((group k).map JoinPart.entry), group k⟩,
    ?_, ?_, ?_, ?_⟩
  · rw [hjoined, Syntax.entries_groups (by rw [List.map_map]; exact joinKinds_pairwise)]
    simp [kinds, List.filter_map, Function.comp_def, JoinClause.entry]
  · intro c hc
    obtain ⟨k, hk, rfl⟩ := List.mem_map.mp hc
    have hne : group k ≠ [] := by simpa [kinds] using (List.mem_filter.mp hk).2
    exact join_writes hne (hkind k)
  · rw [List.flatMap_map]
    exact hkinds
  · rw [List.map_map]
    exact List.filter_sublist.map _

/-- Joins are read as clauses that are rendered as these joins in their order. -/
theorem exists_clauses (js : List JoinPart) :
    ∃ cs : List JoinClause, Joined.entries (js.map JoinPart.joined) = cs.map JoinClause.entry ∧
      (∀ c ∈ cs, c.Writes) ∧ cs.flatMap JoinClause.joins = js ∧
      (cs.map JoinClause.key).Sublist ("join-by" :: joinKinds.map JoinKind.clause) := by
  by_cases hempty : js = []
  · subst hempty
    exact ⟨[], rfl, by simp, rfl, by simp⟩
  have hranks : (js.map JoinPart.joined).map (fun j => Clause.order.idxOf j.1) =
      js.map fun j => Clause.order.idxOf j.kind.clause := List.map_map
  by_cases horder : Joined.inOrder (js.map fun j => Clause.order.idxOf j.kind.clause) = true
  · obtain ⟨cs, hentries, hwrites, hjoins, hkeys⟩ := exists_groups (pairwise_of_inOrder horder)
    exact ⟨cs, hentries, hwrites, hjoins, hkeys.cons _⟩
  · refine ⟨[⟨"join-by", .list (js.flatMap fun j => [.text j.kind.clause, j.entry]), js⟩],
      ?_, ?_, ?_, ?_⟩
    · have hne : (js.map JoinPart.joined).isEmpty = false := by simpa using hempty
      rw [Joined.entries, hne, if_neg (by decide), hranks, if_neg horder, List.flatMap_map]
      rfl
    · simpa using joinBy_writes hempty
    · simp
    · simp

end Clauses

section Parts

variable {f : String → Render (Option Fragment)} {r : Renderer} {s : Settings}

/-- A clause of a statement with what is rendered for it. -/
structure Part where
  key : String
  value : Value
  text : Render Fragment

def Part.entry (p : Part) : Value × Value := (.text p.key, p.value)

structure Part.Rendered (r : Renderer) (s : Settings) (p : Part) : Prop where
  value : p.value ≠ .null
  clause : ∃ form, s.registry.clause? p.key = some form ∧
    Render.clause r s form p.key p.value = p.text
  visible : Visible p.text

/-- Of the keys in their order, those that are present have fragments. -/
theorem reduceOption_mapM {parts : List Part} {ks : List String}
    (hsub : (parts.map Part.key).Sublist ks) (hks : ks.Nodup)
    (hsome : ∀ p ∈ parts, f p.key = some <$> p.text)
    (hnone : ∀ k ∈ ks, k ∉ parts.map Part.key → f k = pure none) :
    List.reduceOption <$> ks.mapM f = parts.mapM Part.text := by
  induction ks generalizing parts with
  | nil =>
    obtain rfl : parts = [] := by simpa using hsub
    simp only [List.mapM_nil, map_pure, List.reduceOption_nil]
  | cons k ks ih =>
    have hk : k ∉ ks := (List.nodup_cons.mp hks).1
    have hnodup : ks.Nodup := (List.nodup_cons.mp hks).2
    rcases List.sublist_cons_iff.mp hsub with hsub | ⟨rest, hparts, hsub⟩
    · have habsent : k ∉ parts.map Part.key := fun hmem => hk (hsub.subset hmem)
      have htail := ih hsub hnodup hsome fun k hk => hnone k (by simp [hk])
      rw [List.mapM_cons, hnone k (by simp) habsent, pure_bind, map_bind, ← htail, map_eq_pure_bind]
      simp only [map_pure, List.reduceOption_cons_of_none]
    · obtain ⟨p, parts, rfl, rfl, rfl⟩ := List.map_eq_cons_iff.mp hparts
      have htail := ih hsub hnodup (fun q hq => hsome q (by simp [hq])) fun l hl hmem => by
        refine hnone l (by simp [hl]) ?_
        rw [List.map_cons, List.mem_cons, not_or]
        exact ⟨fun h => hk (h ▸ hl), hmem⟩
      rw [List.mapM_cons, List.mapM_cons, hsome p (by simp), ← htail]
      simp only [map_bind, map_pure, bind_map_left, List.reduceOption_cons_of_some]

theorem field?_parts {parts : List Part} (hkeys : (parts.map Part.key).Nodup) {p : Part}
    (hp : p ∈ parts) : Entries.field? (parts.map Part.entry) p.key = some p.value := by
  induction parts with
  | nil => cases hp
  | cons q parts ih =>
    obtain ⟨hq, hkeys⟩ := List.nodup_cons.mp hkeys
    rw [Entries.field?, Entries.valueAt?, List.map_cons, List.find?_cons]
    rcases List.mem_cons.mp hp with rfl | hp
    · rw [Part.entry, Value.same_text_self]
      rfl
    · have hne : (Value.text q.key).same (.text p.key) = false := by
        rw [Bool.eq_false_iff, Ne, Value.same_text_iff]
        intro h
        have h' : q.key = p.key := by simpa using h
        exact hq (h' ▸ List.mem_map_of_mem hp)
      rw [Part.entry, hne]
      exact ih hkeys hp

theorem field?_absent {parts : List Part} {k : String} (hk : k ∉ parts.map Part.key) :
    Entries.field? (parts.map Part.entry) k = none := by
  rw [Entries.field?, Entries.valueAt?, Option.map_eq_none_iff, List.find?_eq_none]
  intro e he
  obtain ⟨p, hp, rfl⟩ := List.mem_map.mp he
  rw [Part.entry, Value.same_text_iff]
  intro h
  have h' : p.key = k := by simpa using h
  exact hk (h' ▸ List.mem_map_of_mem hp)

theorem mem_clauseKeys {R : Registry} {key : String} {form : ClauseForm}
    (h : R.clause? key = some form) : R.clauseKeys.contains key = true := by
  obtain ⟨before, after, hclauses, -⟩ := List.lookup_eq_some_iff.mp h
  simp [Registry.clauseKeys, hclauses]

theorem checkKeys_parts {parts : List Part}
    (h : ∀ p ∈ parts, ∃ form, s.registry.clause? p.key = some form) :
    Render.checkKeys s (parts.map Part.entry) = .ok () := by
  have hknown : Render.unknownKeys s.registry.clauseKeys (parts.map Part.entry) = [] := by
    rw [Render.unknownKeys, List.map_eq_nil_iff, List.filter_eq_nil_iff]
    intro e he
    obtain ⟨p, hp, rfl⟩ := List.mem_map.mp he
    obtain ⟨form, hform⟩ := h p hp
    have hmem := mem_clauseKeys hform
    simpa [Part.entry, Value.text?] using hmem
  rw [Render.checkKeys, hknown]
  rfl

/-- A statement is its parts with spaces between them. -/
theorem statement_parts {parts : List Part} (hkeys : (parts.map Part.key).Sublist s.clauseOrder)
    (hnodup : s.clauseOrder.Nodup)
    (h : ∀ p ∈ parts, p.Rendered r (s.within (parts.map Part.entry))) :
    Render.statement r s false (parts.map Part.entry) =
      Fragment.joined " " <$> parts.mapM Part.text := by
  let es := parts.map Part.entry
  have hsome : ∀ p ∈ parts, Render.clauseOf r (s.within es) es p.key = some <$> p.text := by
    intro p hp
    obtain ⟨form, hform, htext⟩ := (h p hp).clause
    rw [clauseOf_eq r _ (field?_parts (hkeys.nodup hnodup) hp) hform (h p hp).value, htext,
      (h p hp).visible.kept]
  have hnone : ∀ k ∈ s.clauseOrder, k ∉ parts.map Part.key →
      Render.clauseOf r (s.within es) es k = pure none := by
    intro k _ hk
    rw [Render.clauseOf, field?_absent hk]
  have hclauses := reduceOption_mapM hkeys hnodup hsome hnone
  have hcheck : Render.checkKeys s es = .ok () := by
    refine checkKeys_parts fun p hp => ?_
    obtain ⟨form, hform, -⟩ := (h p hp).clause
    exact ⟨form, hform⟩
  rw [Render.statement, hcheck, ← hclauses, Functor.map_map, map_eq_pure_bind]
  rfl

end Parts

section Statement

variable {r : Renderer} {s : Settings}

/-- Clauses for joins stand one after the other, and so do the joins in a clause. -/
theorem spaced_clauses {cs : List JoinClause} (hcs : ∀ c ∈ cs, c.joins ≠ [])
    {t : JoinPart → Render Fragment} :
    List.flatMap (.text " " :: ·) <$> cs.mapM (fun c => Fragment.joined " " <$> c.joins.mapM t) =
      List.flatMap (.text " " :: ·) <$> (cs.flatMap JoinClause.joins).mapM t := by
  have hclause : ∀ js : List JoinPart, js ≠ [] →
      (Piece.text " " :: ·) <$> Fragment.joined " " <$> js.mapM t =
        List.flatMap (Piece.text " " :: ·) <$> js.mapM t := by
    intro js hjs
    cases js with
    | nil => exact absurd rfl hjs
    | cons j js => simp [joined_cons]
  induction cs with
  | nil => rfl
  | cons c cs ih =>
    have htail := ih fun d hd => hcs d (by simp [hd])
    have hhead := hclause c.joins (hcs c (by simp))
    calc List.flatMap (.text " " :: ·) <$>
          (c :: cs).mapM (fun c => Fragment.joined " " <$> c.joins.mapM t)
      _ = do
          let f ← (Piece.text " " :: ·) <$> Fragment.joined " " <$> c.joins.mapM t
          let g ← List.flatMap (.text " " :: ·) <$>
            cs.mapM fun c => Fragment.joined " " <$> c.joins.mapM t
          return f ++ g := by simp
      _ = do
          let f ← List.flatMap (Piece.text " " :: ·) <$> c.joins.mapM t
          let g ← List.flatMap (.text " " :: ·) <$> (cs.flatMap JoinClause.joins).mapM t
          return f ++ g := by rw [hhead, htail]
      _ = List.flatMap (.text " " :: ·) <$> ((c :: cs).flatMap JoinClause.joins).mapM t := by
          simp [List.mapM_append]

theorem asItems_tableValue (ts : List Value) : (FromItem.tableValue ts).asItems = ts := by
  unfold FromItem.tableValue
  split <;> rfl

/-- A list of tables that are not all missing is written behind a keyword. -/
theorem selection_tables {ts : List Value} (hts : ts ≠ []) (r : Renderer) (s : Settings) :
    Render.clause r s .selection "from" (FromItem.tableValue ts) = do
      return after "FROM " (commas (← ts.mapM (item r s true))) := by
  have hwords : Keyword.render "from" ++ " " = "FROM " := by decide
  have hheaded : (do return Render.headed (Keyword.render "from") (← ts.mapM (item r s true))) = do
      return after "FROM " (commas (← ts.mapM (item r s true))) := by
    cases ts with
    | nil => exact absurd rfl hts
    | cons t ts => simp [Render.headed, hwords]
  rw [← hheaded]
  conv_rhs => rw [← asItems_tableValue ts]
  rfl

theorem isWhole_rewritten {items : List CommaItem} (h : ∀ i ∈ items, ∀ j ∈ i.joins, j.IsWhole) :
    ∀ j ∈ (rewritten items).flatMap CommaItem.joins, j.IsWhole := by
  have hlinked : ∀ rest ⊆ items, ∀ j ∈ linked rest, j.IsWhole := by
    intro rest hrest j hj
    obtain ⟨i, hi, hj⟩ := List.mem_flatMap.mp hj
    rcases List.mem_cons.mp hj with rfl | hj
    · exact fun hkind => absurd rfl hkind
    · exact h i (hrest hi) j hj
  unfold rewritten
  split
  · cases items with
    | nil => simp
    | cons i rest =>
      intro j hj
      rw [List.flatMap_singleton, List.mem_append] at hj
      rcases hj with hj | hj
      · exact h i (by simp) j hj
      · exact hlinked rest (List.subset_cons_self i rest) j hj
  · intro j hj
    obtain ⟨i, hi, hj⟩ := List.mem_flatMap.mp hj
    exact h i hi j hj

/-- The keys of a list, in the order of their clauses. -/
def keys : List String := "from" :: "join-by" :: joinKinds.map JoinKind.clause

/-- The table clause and the join clauses of a list. -/
def listParts (r : Renderer) (s : Settings) (ts : List Value) (cs : List JoinClause) : List Part :=
  ⟨"from", FromItem.tableValue ts, do return after "FROM " (commas (← ts.mapM (item r s true)))⟩ ::
    cs.map fun c => ⟨c.key, c.value, Fragment.joined " " <$> c.joins.mapM (joinPhrase r s)⟩

theorem listParts_rendered (hregistry : s.registry = .standard) {ts : List Value} (hts : ts ≠ [])
    {cs : List JoinClause} (hcs : ∀ c ∈ cs, c.Writes) : ∀ p ∈ listParts r s ts cs, p.Rendered r s := by
  intro p hp
  rcases List.mem_cons.mp hp with rfl | hp
  · have hform : Registry.standard.clause? "from" = some .selection := by decide
    refine ⟨?_, ⟨.selection, hregistry ▸ hform, selection_tables hts r s⟩, ?_⟩
    · change FromItem.tableValue ts ≠ .null
      unfold FromItem.tableValue
      split <;> simp
    · exact .bind fun fs => visible_pure (isBlank_after (by decide) _)
  · obtain ⟨c, hc, rfl⟩ := List.mem_map.mp hp
    obtain ⟨form, hform, htext⟩ := (hcs c hc).clause
    exact ⟨(hcs c hc).value, ⟨form, hregistry ▸ hform, htext r s⟩, joins_visible r s (hcs c hc).joins⟩

/-- A list that is read as clauses is written again where these clauses come in their order. -/
theorem statement_entries (hregistry : s.registry = .standard) (horder : keys.Sublist s.clauseOrder)
    (hnodup : s.clauseOrder.Nodup) {items : List CommaItem} (hne : items ≠ [])
    (hwhole : ∀ i ∈ items, ∀ j ∈ i.joins, j.IsWhole) :
    Render.statement r s false (entries items) =
      text r (s.within (entries items)) (rewritten items) := by
  obtain ⟨cs, hcs, hwrites, hjoins, hkeys⟩ := exists_clauses ((rewritten items).flatMap CommaItem.joins)
  obtain ⟨front, last, hsplit, hfront⟩ := rewritten_split hne
  let es := entries items
  let ts := (rewritten items).map CommaItem.table
  have hts : ts ≠ [] := by simp [ts, hsplit]
  let parts := listParts r (s.within es) ts cs
  have hpartKeys : (parts.map Part.key).Sublist s.clauseOrder := by
    have hmap : parts.map Part.key = "from" :: cs.map JoinClause.key := by simp [parts, listParts]
    rw [hmap]
    exact (hkeys.cons_cons "from").trans horder
  have hentries : es = parts.map Part.entry := by
    have hmap : cs.map JoinClause.entry = cs.map fun c => (.text c.key, c.value) := rfl
    simp [es, entries_eq, hcs, hmap, parts, listParts, ts, Part.entry, Function.comp_def]
  have hrendered : ∀ p ∈ parts, p.Rendered r (s.within es) :=
    listParts_rendered (s := s.within es) hregistry hts hwrites
  have hspaced := spaced_clauses (fun c hc => (hwrites c hc).joins) (t := joinPhrase r (s.within es))
  have hphrases : ((rewritten items).flatMap CommaItem.joins).mapM (joinPhrase r (s.within es)) =
      ((rewritten items).flatMap CommaItem.joins).mapM (joinText r (s.within es)) :=
    mapM_congr fun j hj => joinPhrase_eq (isWhole_rewritten hwhole j hj) r _
  have hstatement := statement_parts hpartKeys hnodup (hentries ▸ hrendered)
  rw [← hentries] at hstatement
  calc Render.statement r s false es
    _ = Fragment.joined " " <$> parts.mapM Part.text := hstatement
    _ = do
        let fs ← ts.mapM (item r (s.within es) true)
        let g ← List.flatMap (.text " " :: ·) <$>
          cs.mapM fun c => Fragment.joined " " <$> c.joins.mapM (joinPhrase r (s.within es))
        return after "FROM " (commas fs) ++ g := by
      simp [parts, listParts, joined_cons, Function.comp_def]
    _ = text r (s.within es) (rewritten items) := by
      rw [hspaced, hjoins, hphrases, hsplit, text_eq hfront, ← hsplit]
      simp [ts]

end Statement

end SqlTree.FromList
