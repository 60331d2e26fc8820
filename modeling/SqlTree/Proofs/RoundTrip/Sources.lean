import SqlTree.Proofs.Ensures
import SqlTree.Proofs.RoundTrip.Clauses

/-! The tables of a query with their joins. Joins that come in the order of their clauses are read
back into these clauses. -/

namespace SqlTree

open Syntax (JoinKind Joined FromItem Reads)
open Lexer (nameToken)

namespace Syntax

section Groups

variable {k : String} {vs : List Value} {done : List (String × List Value)}

theorem insert_new (hk : k ∉ done.map (·.1)) (v : Value) :
    Joined.insert done (k, v) = done ++ [(k, [v])] := by
  induction done with
  | nil => rfl
  | cons g gs ih =>
    simp only [List.map_cons, List.mem_cons, not_or] at hk
    rw [Joined.insert, if_neg (Ne.symm hk.1), ih hk.2, List.cons_append]

theorem insert_last (hk : k ∉ done.map (·.1)) (v : Value) :
    Joined.insert (done ++ [(k, vs)]) (k, v) = done ++ [(k, vs ++ [v])] := by
  induction done with
  | nil => simp [Joined.insert]
  | cons g gs ih =>
    simp only [List.map_cons, List.mem_cons, not_or] at hk
    rw [List.cons_append, Joined.insert, if_neg (Ne.symm hk.1), ih hk.2, List.cons_append]

/-- Entries of one clause go into one group. -/
theorem foldl_insert_last (hk : k ∉ done.map (·.1)) (ws : List Value) :
    (ws.map (k, ·)).foldl Joined.insert (done ++ [(k, vs)]) = done ++ [(k, vs ++ ws)] := by
  induction ws generalizing vs with
  | nil => simp
  | cons w ws ih => rw [List.map_cons, List.foldl_cons, insert_last hk, ih, List.append_assoc]; rfl

theorem foldl_insert_group (hk : k ∉ done.map (·.1)) (ws : List Value) :
    (ws.map (k, ·)).foldl Joined.insert done =
      done ++ if ws.isEmpty then [] else [(k, ws)] := by
  cases ws with
  | nil => simp
  | cons w ws => rw [List.map_cons, List.foldl_cons, insert_new hk, foldl_insert_last hk]; rfl

theorem foldl_insert_groups (done : List (String × List Value)) {gs : List (String × List Value)}
    (hgs : ((done ++ gs).map (·.1)).Nodup) :
    (gs.flatMap fun g => g.2.map (g.1, ·)).foldl Joined.insert done =
      done ++ gs.filter fun g => !g.2.isEmpty := by
  induction gs generalizing done with
  | nil => simp
  | cons g gs ih =>
    obtain ⟨k, ws⟩ := g
    have hk : k ∉ done.map (·.1) := by
      rw [List.map_append, List.nodup_append] at hgs
      exact fun hk => hgs.2.2 k hk k (by simp) rfl
    rw [List.flatMap_cons, List.foldl_append, foldl_insert_group hk, List.filter_cons]
    cases hws : ws.isEmpty with
    | true =>
      have hnodup : ((done ++ gs).map (·.1)).Nodup :=
        hgs.sublist (((List.sublist_cons_self _ gs).append_left done).map _)
      simpa [hws] using ih _ hnodup
    | false =>
      have hnodup : ((done ++ [(k, ws)] ++ gs).map (·.1)).Nodup := by simpa using hgs
      simpa [hws] using ih _ hnodup

theorem inOrder_of_pairwise {l : List Nat} (h : l.Pairwise (· ≤ ·)) : Joined.inOrder l = true := by
  induction l with
  | nil => rfl
  | cons a l ih =>
    cases l with
    | nil => rfl
    | cons b l =>
      obtain ⟨ha, hl⟩ := List.pairwise_cons.mp h
      rw [Joined.inOrder, ih hl, decide_eq_true (ha b (by simp))]
      rfl

/-- Joins in the order of their clauses. -/
theorem entries_groups {gs : List (String × List Value)}
    (hgs : (gs.map fun g => Clause.order.idxOf g.1).Pairwise (· < ·)) :
    Joined.entries (gs.flatMap fun g => g.2.map (g.1, ·)) =
      (gs.filter fun g => !g.2.isEmpty).map fun g => (.text g.1, .list g.2) := by
  have hnodup : (gs.map (·.1)).Nodup := by
    have hidx : ((gs.map (·.1)).map Clause.order.idxOf).Nodup := by
      rw [List.map_map]
      exact hgs.imp Nat.ne_of_lt
    exact hidx.of_map
  have hfold := foldl_insert_groups [] hnodup
  rw [List.nil_append] at hfold
  have horder : Joined.inOrder ((gs.flatMap fun g => g.2.map (g.1, ·)).map fun j =>
      Clause.order.idxOf j.1) = true := by
    refine inOrder_of_pairwise ?_
    rw [List.map_flatMap, List.pairwise_flatMap]
    refine ⟨fun g _ => ?_, ?_⟩
    · simp [List.pairwise_iff_getElem]
    · refine (List.pairwise_map.mp hgs).imp fun {g h} hlt x hx y hy => ?_
      simp only [List.mem_map, exists_exists_and_eq_and] at hx hy
      obtain ⟨_, _, rfl⟩ := hx
      obtain ⟨_, _, rfl⟩ := hy
      exact Nat.le_of_lt hlt
  by_cases hempty : (gs.flatMap fun g => g.2.map (g.1, ·)).isEmpty = true
  · rw [Joined.entries, if_pos hempty, ← hfold, List.isEmpty_iff.mp hempty]
    rfl
  · rw [Joined.entries, if_neg hempty, if_pos horder, hfold]

end Groups

end Syntax

namespace Syntax.Parser

/-- One entry of a join clause with its tokens. -/
structure JoinEntry where
  kind : JoinKind
  value : Value
  tokens : List Token

namespace JoinEntry

/-- The tree is read as the entry. -/
def ReadFrom (e : JoinEntry) (t : Tree .join) : Prop :=
  ∃ w, Reads t.read (e.kind.clause, w) ∧ w.same e.value = true

end JoinEntry

variable {n : Nat} {js : List JoinEntry} {val : QueryClause → Option Value}

theorem ahead_joins {o : Option Token} (h : OrSign "," (Closes 2) o) :
    OrSign "," (Closes 1) (ahead (js.flatMap fun j => joinTokens j.kind ++ j.tokens) o) := by
  cases js with
  | nil => exact h.imp id fun h => h.mono (by decide)
  | cons j js =>
    refine .inr ?_
    rintro _ ⟨⟩
    cases j.kind <;> decide

/-- Joins follow a table one by one. -/
theorem joins_take (hjs : ∀ j ∈ js, JoinedBy j.kind j.value j.tokens ∧ j.tokens.length < n) :
    Takes (iterate (fun done => do
        match ← join (nested n) with
        | some j => return some (done ++ [j])
        | none => return none) [])
      (js.flatMap fun j => joinTokens j.kind ++ j.tokens) (OrSign "," (Closes 2))
      (List.Forall₂ JoinEntry.ReadFrom js) := by
  refine Iterates.takes ?_
  suffices h : ∀ (before : List JoinEntry) done, List.Forall₂ JoinEntry.ReadFrom before done →
      Iterates _ done (js.flatMap fun j => joinTokens j.kind ++ j.tokens) (OrSign "," (Closes 2))
        (List.Forall₂ JoinEntry.ReadFrom (before ++ js)) from h [] [] .nil
  intro before done hdone
  induction js generalizing before done with
  | nil =>
    refine .stop (join_absent.andThen ?_ fun _ ho => ho) ?_
    · rintro _ rfl
      exact .pure rfl
    · rwa [List.append_nil]
  | cons j js ih =>
    obtain ⟨hj, hlen⟩ := hjs j (by simp)
    rw [List.flatMap_cons]
    refine .again (OrSign "," (Closes 1)) (List.Forall₂ JoinEntry.ReadFrom (before ++ [j]))
      (by simp [joinTokens]) ?_ ?_ fun _ => ahead_joins
    · refine (hj.takes n hlen).andThen ?_ fun _ ho => ho
      rintro _ ⟨t, w, rfl, hw, hs⟩
      exact .pure ⟨_, rfl, List.rel_append hdone (.cons ⟨w, hw, hs⟩ .nil)⟩
    · intro done hdone
      have h := ih (fun j hj => hjs j (by simp [hj])) (before ++ [j]) done hdone
      rwa [List.append_assoc] at h

/-- A table with the joins behind it. -/
def SourceRead (x : Value × List JoinEntry) (s : Tree .source) : Prop :=
  ∃ t js, Agrees t.read x.1 ∧ List.Forall₂ JoinEntry.ReadFrom x.2 js ∧ s = .source t (.ofList js)

theorem source_takes (js : List JoinEntry) {v : Value} {ts : List Token} (h : Tabled v ts)
    (hn : ts.length ≤ n)
    (hjs : ∀ j ∈ js, JoinedBy j.kind j.value j.tokens ∧ j.tokens.length < n) :
    Takes (source (nested n)) (ts ++ js.flatMap fun j => joinTokens j.kind ++ j.tokens)
      (OrSign "," (Closes 2)) (SourceRead (v, js)) := by
  refine (h.takes n hn).bind (fun t ht => ?_) fun _ ho => (ahead_joins ho).tableEnd
  exact (joins_take hjs).map fun js' hjs' => ⟨t, js', ht, hjs', rfl⟩

theorem commaTokens_append (tss : List (List Token)) (ts us : List Token) :
    commaTokens (tss ++ [ts]) ++ us = commaTokens (tss ++ [ts ++ us]) := by
  cases tss with
  | nil => rfl
  | cons xs tss => simp [commaTokens_cons]

/-- The joins follow the last one of the tables. -/
theorem fromClause_takes (js : List JoinEntry) {vs : List Value} {tss : List (List Token)}
    {v : Value} {ts : List Token} (hvs : List.Forall₂ Tabled vs tss) (hv : Tabled v ts)
    (hn : ∀ us ∈ tss ++ [ts], us.length ≤ n)
    (hjs : ∀ j ∈ js, JoinedBy j.kind j.value j.tokens ∧ j.tokens.length < n) :
    Takes (fromClause (nested n)) (nameToken "FROM" :: (commaTokens (tss ++ [ts]) ++
        js.flatMap fun j => joinTokens j.kind ++ j.tokens)) (Closes 2)
      fun o => ∃ ss, o = some ss ∧ List.Forall₂ SourceRead (vs.map (·, []) ++ [(v, js)]) ss := by
  have hplain : List.Forall₂ (fun x ts => Takes (source (nested n)) ts (OrSign "," (Closes 2))
      (SourceRead x)) (vs.map (·, [])) tss := by
    refine List.forall₂_map_left_iff.mpr ((forall₂_mem hvs).imp fun x us ⟨hx, hus⟩ => ?_)
    have h := source_takes [] hx (hn us (by simp [hus])) (by simp)
    rwa [List.flatMap_nil, List.append_nil] at h
  rw [commaTokens_append]
  refine optional_takes rfl ((commas_takes (fun o ho => ho.isSymbol (by decide)) (by simp)
    (List.rel_append hplain (.cons (source_takes js hv (hn ts (by simp)) hjs) .nil))).mono
    (fun _ => id) fun ss hss => ⟨ss, rfl, hss⟩)

section Reading

def JoinEntry.EntryRead (e : JoinEntry) (j : Joined) : Prop :=
  j.1 = e.kind.clause ∧ j.2.same e.value = true

/-- A table with its joins as they are read. -/
def ItemRead (x : Value × List JoinEntry) (i : FromItem) : Prop :=
  i.table.same x.1 = true ∧ List.Forall₂ JoinEntry.EntryRead x.2 i.joins

theorem SourceRead.reads {x : Value × List JoinEntry} {s : Tree .source} (h : SourceRead x s) :
    ∃ i, Reads s.read i ∧ ItemRead x i := by
  obtain ⟨t, js, ⟨w, hw, hs⟩, hjs, rfl⟩ := h
  have hreads : List.Forall₂ (fun e r => ∃ j, Reads r j ∧ JoinEntry.EntryRead e j) x.2
      (js.map Tree.read) :=
    List.forall₂_map_right_iff.mpr (hjs.imp fun e t ⟨w, hw, hs⟩ => ⟨_, hw, rfl, hs⟩)
  obtain ⟨ms, hms, hmss⟩ := exists_reads_mapM hreads
  refine ⟨⟨w, ms⟩, ?_, hs, hmss⟩
  rw [Tree.read, read_ofList]
  exact hw.bind (hms.map (f := fun ms => (⟨w, ms⟩ : FromItem)))

theorem fromClause_of_items {rs : List (Read FromItem)} {items : List FromItem} (hne : rs ≠ [])
    (h : Reads (rs.mapM id) items) : Reads (Reading.fromClause rs) (FromItem.entries items) := by
  have hempty : ¬ rs.isEmpty = true := by simpa using hne
  rw [Reading.fromClause, if_neg hempty]
  exact h.map.visit

theorem fromClause_reads {xs : List (Value × List JoinEntry)} {ss : List (Tree .source)}
    (hne : xs ≠ []) (h : List.Forall₂ SourceRead xs ss) :
    ∃ items, Reads (Reading.fromClause (ss.map Tree.read)) (FromItem.entries items) ∧
      List.Forall₂ ItemRead xs items := by
  obtain ⟨items, hitems, hread⟩ := exists_reads_mapM (R := ItemRead)
    (List.forall₂_map_right_iff.mpr (h.imp fun _ _ h => h.reads))
  refine ⟨items, fromClause_of_items ?_ hitems, hread⟩
  rintro hnil
  obtain rfl := List.map_eq_nil_iff.mp hnil
  cases h
  exact hne rfl

theorem forall_right {α β : Type} {R : α → β → Prop} {P : β → Prop} {xs : List α} {ys : List β}
    (h : List.Forall₂ R xs ys) (hP : ∀ x y, R x y → P y) : ∀ y ∈ ys, P y := by
  induction h with
  | nil => simp
  | cons hxy _ ih => exact List.forall_mem_cons.mpr ⟨hP _ _ hxy, ih⟩

/-- Only the last table has joins, so they come after all tables. -/
theorem entries_last {vs : List Value} {v : Value} {items : List FromItem}
    (h : List.Forall₂ ItemRead (vs.map (·, []) ++ [(v, js)]) items) :
    ∃ ws ms, FromItem.entries items = (.text "from", FromItem.tableValue ws) :: Joined.entries ms ∧
      List.Forall₂ (fun w v => w.same v = true) ws (vs ++ [v]) ∧
      List.Forall₂ JoinEntry.EntryRead js ms := by
  obtain ⟨is, ls, rfl, his, hls⟩ := forall₂_append_left h
  obtain ⟨i, _, ⟨hv, hms⟩, hnil, rfl⟩ := List.forall₂_cons_left_iff.mp hls
  obtain rfl := List.forall₂_nil_left_iff.mp hnil
  have his := List.forall₂_map_left_iff.mp his
  have hjoins : ∀ i ∈ is, i.joins = [] :=
    forall_right his fun _ _ h => List.forall₂_nil_left_iff.mp h.2
  have hchained : FromItem.isChained (is ++ [i]) = false := by
    rw [FromItem.isChained, List.dropLast_concat, List.any_eq_false]
    intro i hi
    simp [hjoins i hi]
  have hnone : is.flatMap FromItem.joins = [] := List.flatMap_eq_nil_iff.mpr hjoins
  refine ⟨(is ++ [i]).map FromItem.table, i.joins, ?_, ?_, hms⟩
  · simp [FromItem.entries, FromItem.tables, FromItem.joined, hchained, hnone]
  · rw [List.map_append]
    exact List.rel_append (List.forall₂_map_left_iff.mpr (his.flip.imp fun _ _ h => h.1)) (.cons hv .nil)

theorem tableValue_same {ws vs : List Value}
    (h : List.Forall₂ (fun w v => w.same v = true) ws vs) :
    (FromItem.tableValue ws).same (FromItem.tableValue vs) = true := by
  have hlist := Value.same_list h
  rw [FromItem.tableValue.eq_def ws, FromItem.tableValue.eq_def vs]
  split
  · next t =>
    obtain ⟨v, _, hv, hnil, rfl⟩ := List.forall₂_cons_left_iff.mp h
    obtain rfl := List.forall₂_nil_left_iff.mp hnil
    obtain rfl := Value.text_same_iff.mp hv
    exact hv
  · next hws =>
    split
    · next t =>
      obtain ⟨w, _, hw, hnil, rfl⟩ := List.forall₂_cons_right_iff.mp h
      obtain rfl := List.forall₂_nil_right_iff.mp hnil
      obtain rfl := Value.same_text_iff.mp hw
      exact absurd rfl (hws t)
    · exact hlist

end Reading

section Clauses

theorem length_le_flatMap_of_mem {α : Type} {xs : List α} {x : α} (h : x ∈ xs)
    (f : α → List Token) : (f x).length ≤ (xs.flatMap f).length :=
  (List.sublist_flatten_of_mem (List.mem_map_of_mem h)).length_le

/-- The kinds of joins in the order of their clauses. -/
def joinKinds : List JoinKind := [.inner, .left, .right, .full, .cross]

theorem joinKinds_pairwise :
    (joinKinds.map fun k => Clause.order.idxOf k.clause).Pairwise (· < ·) := by
  decide

theorem exists_joinEntries {kind : JoinKind} {v : Option Value} {ts : List Token}
    (h : Stands (.join kind) v ts) :
    ∃ es : List JoinEntry, (∀ e ∈ es, e.kind = kind ∧ JoinedBy e.kind e.value e.tokens) ∧
      ts = es.flatMap (fun e => joinTokens e.kind ++ e.tokens) ∧
      v = if es.isEmpty then none else some (.list (es.map JoinEntry.value)) := by
  cases h with
  | absent => exact ⟨[], by simp, rfl, rfl⟩
  | present h =>
    cases h with
    | @join _ vs tss hne hvs =>
      suffices hall : ∃ es : List JoinEntry,
          (∀ e ∈ es, e.kind = kind ∧ JoinedBy e.kind e.value e.tokens) ∧
          tss.flatMap (joinTokens kind ++ ·) = es.flatMap (fun e => joinTokens e.kind ++ e.tokens) ∧
          es.map JoinEntry.value = vs by
        obtain ⟨es, hes, htokens, hvalues⟩ := hall
        refine ⟨es, hes, htokens, ?_⟩
        cases es with
        | nil => exact absurd hvalues.symm hne
        | cons => rw [hvalues]; rfl
      clear hne
      induction hvs with
      | nil => exact ⟨[], by simp, rfl, rfl⟩
      | @cons v ts vs tss hv _ ih =>
        obtain ⟨es, hes, htokens, hvalues⟩ := ih
        refine ⟨⟨kind, v, ts⟩ :: es, List.forall_mem_cons.mpr ⟨⟨rfl, hv⟩, hes⟩, ?_, ?_⟩
        · rw [List.flatMap_cons, List.flatMap_cons, htokens]
        · rw [List.map_cons, hvalues]

theorem map_clause {k : JoinKind} {es : List JoinEntry} (hes : ∀ e ∈ es, e.kind = k)
    {ms : List Joined} (h : List.Forall₂ JoinEntry.EntryRead es ms) :
    ms = (ms.map (·.2)).map (k.clause, ·) := by
  induction h with
  | nil => rfl
  | @cons e m es ms hm _ ih =>
    obtain ⟨hkey, -⟩ := hm
    rw [hes e (by simp)] at hkey
    rw [List.map_cons, List.map_cons, ← ih fun e he => hes e (by simp [he]), ← hkey]

/-- The entries of joins that come in the order of their kinds. -/
theorem exists_groups {ks : List JoinKind} {G : JoinKind → List JoinEntry}
    (hG : ∀ k, ∀ e ∈ G k, e.kind = k) {ms : List Joined}
    (h : List.Forall₂ JoinEntry.EntryRead (ks.flatMap G) ms) :
    ∃ gs : List (String × List Value), ms = gs.flatMap (fun g => g.2.map (g.1, ·)) ∧
      List.Forall₂ (fun k g => g.1 = k.clause ∧
        List.Forall₂ (fun w v => w.same v = true) g.2 ((G k).map JoinEntry.value)) ks gs := by
  induction ks generalizing ms with
  | nil =>
    obtain rfl := List.forall₂_nil_left_iff.mp h
    exact ⟨[], rfl, .nil⟩
  | cons k ks ih =>
    rw [List.flatMap_cons] at h
    obtain ⟨us, vs, rfl, hus, hvs⟩ := forall₂_append_left h
    obtain ⟨gs, rfl, hgs⟩ := ih hvs
    have hk := map_clause (hG k) hus
    refine ⟨(k.clause, us.map (·.2)) :: gs, ?_, .cons ⟨rfl, ?_⟩ hgs⟩
    · rw [List.flatMap_cons, ← hk]
    · exact List.forall₂_map_left_iff.mpr (List.forall₂_map_right_iff.mpr (hus.flip.imp fun _ _ h => h.2))

theorem entriesOf_groups {ks : List JoinKind} {G : JoinKind → List JoinEntry}
    (hval : ∀ k, val (.join k) =
      if (G k).isEmpty then none else some (.list ((G k).map JoinEntry.value)))
    {gs : List (String × List Value)}
    (h : List.Forall₂ (fun k g => g.1 = k.clause ∧
      List.Forall₂ (fun w v => w.same v = true) g.2 ((G k).map JoinEntry.value)) ks gs) :
    EntriesOf val (ks.map .join)
      ((gs.filter fun g => !g.2.isEmpty).map fun g => (.text g.1, .list g.2)) := by
  induction h with
  | nil => exact ⟨[], .nil, rfl⟩
  | @cons k g ks gs hg _ ih =>
    obtain ⟨key, ws⟩ := g
    obtain ⟨rfl, hws⟩ := hg
    have hentry : EntryOf (.join k) (val (.join k))
        (if ws.isEmpty then [] else [(.text k.clause, .list ws)]) := by
      rw [hval]
      generalize G k = es at hws
      cases es with
      | nil =>
        obtain rfl := List.forall₂_nil_right_iff.mp hws
        rfl
      | cons e es =>
        obtain ⟨w, ws, _, _, rfl⟩ := List.forall₂_cons_right_iff.mp hws
        exact ⟨.list (w :: ws), rfl, Value.same_list hws⟩
    have hall := (EntriesOf.single hentry).append ih
    rw [List.map_cons]
    refine Eq.mp (congrArg (EntriesOf val _) ?_) hall
    cases hempty : ws.isEmpty <;> simp [hempty]

/-- The tables of a query with their joins are read back into their clauses. -/
theorem fromClause_parses {T : QueryClause → List Token} (hT : ∀ c, Stands c (val c) (T c))
    (hjoin : val .tables = none → ∀ kind, val (.join kind) = none)
    (hn : (T .tables ++ (joinKinds.map .join).flatMap T).length ≤ n) :
    Takes (fromClause (nested n)) (T .tables ++ (joinKinds.map .join).flatMap T) (Closes 2)
      fun o => AgreesOn val (.tables :: joinKinds.map .join)
        (Reading.fromClause ((o.getD []).map Tree.read)) := by
  have htables := hT .tables
  generalize hv : val .tables = v at htables hjoin
  generalize T .tables = ts at htables hn ⊢
  cases htables with
  | absent =>
    have hnone : ∀ c ∈ joinKinds.map QueryClause.join, val c = none := by
      intro c hc
      obtain ⟨k, -, rfl⟩ := List.mem_map.mp hc
      exact hjoin rfl k
    have htokens : (joinKinds.map QueryClause.join).flatMap T = [] := by
      refine List.flatMap_eq_nil_iff.mpr fun c hc => ?_
      have hc' := hT c
      rw [hnone c hc] at hc'
      exact hc'.eq_nil
    rw [htokens]
    refine optional_absent (fun o ho => ho.isKeyword (by decide)) (.absent ?_)
    exact List.forall_mem_cons.mpr ⟨hv, hnone⟩
  | present h =>
    cases h with
    | @tables vs tss hne hvs =>
      obtain rfl | ⟨vs, w, rfl⟩ := List.eq_nil_or_concat' vs
      · exact absurd rfl hne
      obtain ⟨tss, uss, rfl, hinit, huss⟩ := forall₂_append_left hvs
      obtain ⟨us, _, hw, hnil, rfl⟩ := List.forall₂_cons_left_iff.mp huss
      obtain rfl := List.forall₂_nil_left_iff.mp hnil
      choose G hG hGT hGv using fun k => exists_joinEntries (hT (.join k))
      have hjoins : (joinKinds.map QueryClause.join).flatMap T =
          (joinKinds.flatMap G).flatMap fun e => joinTokens e.kind ++ e.tokens := by
        rw [List.flatMap_map, List.flatMap_assoc]
        exact List.flatMap_congr fun k _ => hGT k
      rw [hjoins] at hn ⊢
      have htake := fromClause_takes (n := n) (joinKinds.flatMap G) hinit hw ?_ ?_
      · refine htake.mono (fun _ ho => ho) ?_
        rintro _ ⟨ss, rfl, hss⟩
        obtain ⟨items, hreads, hitems⟩ := fromClause_reads (by simp) hss
        obtain ⟨ws, ms, hentries, hws, hms⟩ := entries_last hitems
        obtain ⟨gs, rfl, hgs⟩ := exists_groups (fun k e he => (hG k e he).1) hms
        refine ⟨_, hreads, ?_⟩
        have hkeys : gs.map (·.1) = joinKinds.map JoinKind.clause := by
          rw [← List.forall₂_eq_eq_eq]
          refine List.forall₂_map_left_iff.mpr (List.forall₂_map_right_iff.mpr ?_)
          exact hgs.flip.imp fun _ _ h => h.1
        have hpairwise : (gs.map fun g => Clause.order.idxOf g.1).Pairwise (· < ·) := by
          have hmap : gs.map (fun g => Clause.order.idxOf g.1) =
              joinKinds.map fun k => Clause.order.idxOf k.clause := by
            have := congrArg (List.map Clause.order.idxOf) hkeys
            rwa [List.map_map, List.map_map] at this
          rw [hmap]
          exact joinKinds_pairwise
        rw [hentries, entries_groups hpairwise]
        have hfrom : EntryOf .tables (val .tables) [(.text "from", FromItem.tableValue ws)] := by
          rw [hv]
          exact ⟨_, rfl, tableValue_same hws⟩
        exact (EntriesOf.single hfrom).append (entriesOf_groups hGv hgs)
      · intro xs hxs
        have := length_le_commaTokens hxs
        simp only [List.length_append, List.length_cons] at hn
        omega
      · intro j hj
        obtain ⟨k, -, hjk⟩ := List.mem_flatMap.mp hj
        refine ⟨(hG k j hjk).2, ?_⟩
        have hle := length_le_flatMap_of_mem hj fun e => joinTokens e.kind ++ e.tokens
        simp only [List.length_append, List.length_cons] at hn hle
        omega

end Clauses

end Syntax.Parser

end SqlTree
