import SqlTree.Proofs.RoundTrip.Tables

/-! The clauses of a query: the tokens of each from those of its parts, and what a statement is
rendered to when its clauses are. -/

namespace SqlTree

open Syntax (SetOperator JoinKind FromItem)
open Lexer (Spells nameToken)
open Render (Gives Writes)
open Syntax.Parser (Defined Branched Selected Tabled JoinedBy Expressed Ordered commaTokens
  joinTokens spells_joinKeyword)

namespace QueryClause

def form : QueryClause → ClauseForm
  | ctes _ => .tableExpressions
  | operation _ => .setOperation
  | select _ | tables => .selection
  | join .cross => .crossJoin
  | join _ => .join
  | filter | having | limit | offset => .condition
  | groups => .grouping
  | order => .ordering

/-- The place of a clause behind the items of a selection. -/
def rank : QueryClause → Nat
  | ctes _ | operation _ | select _ => 0
  | tables => 1
  | join _ => 2
  | filter => 3
  | groups => 4
  | having => 5
  | order => 8
  | limit => 9
  | offset => 10

theorem clause?_key (c : QueryClause) : Registry.standard.clause? c.key = some c.form := by
  cases c with
  | ctes r => cases r <;> decide
  | operation op => cases op <;> decide
  | select d => cases d <;> decide
  | join kind => cases kind <;> decide
  | _ => decide

end QueryClause

namespace Syntax.Parser

/-- The words between the branches of a set operation. -/
def operatorTokens : SetOperator → List Token
  | .union => [nameToken "UNION"]
  | .unionAll => [nameToken "UNION", nameToken "ALL"]
  | .intersect => [nameToken "INTERSECT"]
  | .except => [nameToken "EXCEPT"]
  | .exceptAll => [nameToken "EXCEPT", nameToken "ALL"]

/-- The tokens of a clause, made of those of its parts. -/
inductive Stated : QueryClause → Value → List Token → Prop
  | ctes (recursively : Bool) {vs : List Value} {tss : List (List Token)} : vs ≠ [] →
      List.Forall₂ Defined vs tss → Stated (.ctes recursively) (.list vs)
        (nameToken "WITH" :: ((if recursively then [nameToken "RECURSIVE"] else []) ++
          commaTokens tss))
  | operation (op : SetOperator) {v w : Value} {vs : List Value} {ts us : List Token}
      {tss : List (List Token)} : (∀ u, v ≠ .map [(.text op.clause, u)]) → Branched v ts →
      Branched w us → List.Forall₂ Branched vs tss →
      Stated (.operation op) (.list (v :: w :: vs))
        (ts ++ (us :: tss).flatMap (operatorTokens op ++ ·))
  | select (distinct : Bool) {vs : List Value} {tss : List (List Token)} : vs ≠ [] →
      List.Forall₂ Selected vs tss → Stated (.select distinct) (.list vs)
        (nameToken "SELECT" :: ((if distinct then [nameToken "DISTINCT"] else []) ++
          commaTokens tss))
  | tables {vs : List Value} {tss : List (List Token)} : vs ≠ [] → List.Forall₂ Tabled vs tss →
      Stated .tables (FromItem.tableValue vs) (nameToken "FROM" :: commaTokens tss)
  | join (kind : JoinKind) {vs : List Value} {tss : List (List Token)} : vs ≠ [] →
      List.Forall₂ (JoinedBy kind) vs tss →
      Stated (.join kind) (.list vs) (tss.flatMap (joinTokens kind ++ ·))
  | filter {v : Value} {ts : List Token} : Expressible v → Expressed v ts →
      Stated .filter v (nameToken "WHERE" :: ts)
  | groups {vs : List Value} {tss : List (List Token)} : vs ≠ [] → (∀ v ∈ vs, Expressible v) →
      List.Forall₂ Expressed vs tss →
      Stated .groups (.list vs) (nameToken "GROUP" :: nameToken "BY" :: commaTokens tss)
  | having {v : Value} {ts : List Token} : Expressible v → Expressed v ts →
      Stated .having v (nameToken "HAVING" :: ts)
  | order {vs : List Value} {tss : List (List Token)} : vs ≠ [] → List.Forall₂ Ordered vs tss →
      Stated .order (.list vs) (nameToken "ORDER" :: nameToken "BY" :: commaTokens tss)
  | limit {v : Value} {ts : List Token} : Expressible v → Expressed v ts →
      Stated .limit v (nameToken "LIMIT" :: ts)
  | offset {v : Value} {ts : List Token} : Expressible v → Expressed v ts →
      Stated .offset v (nameToken "OFFSET" :: ts)

section Writing

/-- The fragments of all items of a list. -/
theorem exists_gives {m : Renderer → Settings → Value → Render Fragment} {n : Nat}
    {vs : List Value} {tss : List (List Token)}
    (h : List.Forall₂ (fun v ts => ∃ f, Gives (v.height + 1) (fun r s => m r s v) f ∧
      Spells f.inlineSql ts) vs tss) (hn : ∀ v ∈ vs, v.height + 1 ≤ n) :
    ∃ fs, Gives n (fun r s => vs.mapM (m r s)) fs ∧
      List.Forall₂ (fun f ts => Spells (Fragment.inlineSql f) ts) fs tss ∧ (vs ≠ [] → fs ≠ []) := by
  suffices hall : ∃ fs, List.Forall₂ (fun v f => Gives n (fun r s => m r s v) f) vs fs ∧
      List.Forall₂ (fun f ts => Spells (Fragment.inlineSql f) ts) fs tss by
    obtain ⟨fs, hfs, hs⟩ := hall
    refine ⟨fs, .mapM hfs, hs, ?_⟩
    rintro hne rfl
    cases hfs
    exact hne rfl
  induction h with
  | nil => exact ⟨[], .nil, .nil⟩
  | @cons v ts vs tss hv _ ih =>
    obtain ⟨f, hf, hs⟩ := hv
    obtain ⟨fs, hfs, hss⟩ := ih fun w hw => hn w (by simp [hw])
    exact ⟨f :: fs, .cons (hf.mono (hn v (by simp))) hfs, .cons hs hss⟩

theorem spells_headed {keyword : String} {ks : List Token} (hk : Spells keyword ks)
    {fs : List Fragment} {tss : List (List Token)} (hne : fs ≠ [])
    (h : List.Forall₂ (fun f ts => Spells (Fragment.inlineSql f) ts) fs tss) :
    Spells (Render.headed keyword fs).inlineSql (ks ++ commaTokens tss) := by
  have hempty : ¬ fs.isEmpty = true := by simpa using hne
  rw [Render.headed, if_neg hempty, Fragment.inlineSql_after]
  exact hk.space (Fragment.spells_commas hne h)

theorem spells_keyword {key : String} (w : String) (ws : List String)
    (h : Keyword.render key = " ".intercalate (w :: ws))
    (hw : ∀ x ∈ w :: ws, Lexer.isWord x = true) :
    Spells (Keyword.render key) ((w :: ws).map nameToken) := by
  rw [h]
  exact Lexer.spells_words _ _ (hw w (by simp)) fun x hx => hw x (by simp [hx])

variable {v : Value} {ts : List Token}

theorem not_emptyArray (h : Expressible v) : Render.isEmptyArray v = false := by
  cases h <;> rfl

theorem condition_writes (key : String) (hne : v ≠ .null) (hempty : Render.isEmptyArray v = false)
    (h : Writes false v ts) {ks : List Token} (hk : Spells (Keyword.render key) ks) :
    ∃ f, Gives (v.height + 1) (fun r s => Render.condition r s key v) f ∧
      Spells f.inlineSql (ks ++ ts) := by
  obtain ⟨f, hf, hs⟩ := h
  refine ⟨Fragment.after (Keyword.render key ++ " ") f, ?_, ?_⟩
  · have hmap := hf.map (f := fun f => if f.isBlank then [] else
      Fragment.after (Keyword.render key ++ " ") f)
    rw [Fragment.isBlank_eq_false hs, if_neg (by decide)] at hmap
    refine hmap.congr fun r m d st => ?_
    rw [Render.condition]
    · rw [hempty, if_neg (by decide)]
    · exact hne
  · rw [Fragment.inlineSql_after]
    exact hk.space hs

theorem operation_spells (op : SetOperator) :
    Spells (Keyword.render op.clause) (operatorTokens op) := by
  cases op with
  | union => exact spells_keyword "UNION" [] (by decide) (by decide)
  | unionAll => exact spells_keyword "UNION" ["ALL"] (by decide) (by decide)
  | intersect => exact spells_keyword "INTERSECT" [] (by decide) (by decide)
  | except => exact spells_keyword "EXCEPT" [] (by decide) (by decide)
  | exceptAll => exact spells_keyword "EXCEPT" ["ALL"] (by decide) (by decide)

theorem ctes_spells (recursively : Bool) : Spells (Keyword.render (QueryClause.ctes recursively).key)
    (nameToken "WITH" :: if recursively then [nameToken "RECURSIVE"] else []) := by
  cases recursively with
  | false => exact spells_keyword "WITH" [] (by decide) (by decide)
  | true => exact spells_keyword "WITH" ["RECURSIVE"] (by decide) (by decide)

theorem select_spells (distinct : Bool) : Spells (Keyword.render (QueryClause.select distinct).key)
    (nameToken "SELECT" :: if distinct then [nameToken "DISTINCT"] else []) := by
  cases distinct with
  | false => exact spells_keyword "SELECT" [] (by decide) (by decide)
  | true => exact spells_keyword "SELECT" ["DISTINCT"] (by decide) (by decide)

theorem tableValue_items (vs : List Value) : (FromItem.tableValue vs).asItems = vs ∧
    ∀ v ∈ vs, v.height + 1 ≤ (FromItem.tableValue vs).height + 1 := by
  rw [FromItem.tableValue.eq_def]
  split
  · exact ⟨rfl, fun v hv => by rw [List.mem_singleton.mp hv]⟩
  · exact ⟨rfl, fun v hv => Nat.le_succ_of_le (Render.height_le_of_mem _ hv)⟩

/-- Each clause is rendered to its tokens. -/
theorem Stated.writes {c : QueryClause} (h : Stated c v ts) :
    ∃ f, Gives (v.height + 1) (fun r s => Render.clause r s c.form c.key v) f ∧
      Spells f.inlineSql ts := by
  have hitems : ∀ vs : List Value, ∀ v ∈ vs, v.height + 1 ≤ (Value.list vs).height + 1 :=
    fun vs v hv => Nat.le_succ_of_le (Render.height_le_of_mem _ hv)
  cases h with
  | @ctes recursively vs tss hne hvs =>
    obtain ⟨fs, hfs, hs, hfs_ne⟩ := exists_gives
      (m := fun r s => Render.tableExpression r s (QueryClause.ctes recursively).key)
      (hvs.imp fun _ _ h => h.writes _) (hitems vs)
    refine ⟨_, hfs.map (f := fun fs =>
      Fragment.after (Keyword.render (QueryClause.ctes recursively).key ++ " ") (Fragment.commas fs)), ?_⟩
    rw [Fragment.inlineSql_after]
    exact (ctes_spells recursively).space (Fragment.spells_commas (hfs_ne hne) hs)
  | @operation op v w vs ts us tss _ hv hw hvs =>
    obtain ⟨fs, hfs, hs, -⟩ := exists_gives (m := fun r s => Render.setBranch r s)
      ((List.Forall₂.cons hv (.cons hw hvs)).imp fun _ _ h => h.writes) (hitems _)
    refine ⟨_, hfs.map (f := Fragment.joined (" " ++ Keyword.render op.clause ++ " ")), ?_⟩
    cases hs with
    | cons hf hs =>
      exact Fragment.spells_joined _ _ (fun _ _ _ _ => Render.spells_infix (operation_spells op)) hs hf
  | @select distinct vs tss hne hvs =>
    obtain ⟨fs, hfs, hs, hfs_ne⟩ := exists_gives (m := fun r s => Render.item r s false)
      (hvs.imp fun _ _ h => h.writes) (hitems vs)
    refine ⟨_, hfs.map (f := Render.headed (Keyword.render (QueryClause.select distinct).key)) |>.congr
      fun r m d st => ?_, ?_⟩
    · cases distinct <;> rfl
    · exact spells_headed (select_spells distinct)
        (hfs_ne hne) hs
  | @tables vs tss hne hvs =>
    obtain ⟨hitems, hheight⟩ := tableValue_items vs
    obtain ⟨fs, hfs, hs, hfs_ne⟩ := exists_gives (m := fun r s => Render.item r s true)
      (hvs.imp fun _ _ h => h.writes) hheight
    refine ⟨_, hfs.map (f := Render.headed (Keyword.render "from")) |>.congr fun r m d st => ?_, ?_⟩
    · change Render.selection r _ "from" (FromItem.tableValue vs) = _
      have htable : Clause.ofTables.contains "from" = true := by decide
      rw [Render.selection, Render.items, hitems, htable]
    · have hfrom : Spells (Keyword.render "from") [nameToken "FROM"] :=
        spells_keyword "FROM" [] (by decide) (by decide)
      exact spells_headed hfrom (hfs_ne hne) hs
  | @join kind vs tss hne hvs =>
    have hsteps : List.Forall₂ (fun v ts => ∃ f, Gives (v.height + 1)
        (fun r s => Render.joinStep r s kind.clause v) f ∧ Spells f.inlineSql ts) vs
        (tss.map (joinTokens kind ++ ·)) :=
      List.forall₂_map_right_iff.mpr (hvs.imp fun _ _ h => h.writes)
    obtain ⟨fs, hfs, hs, hfs_ne⟩ := exists_gives (m := fun r s => Render.joinStep r s kind.clause)
      hsteps (hitems vs)
    refine ⟨_, hfs.map (f := Fragment.joined " ") |>.congr fun r m d st => ?_, ?_⟩
    · cases kind <;> rfl
    · have hall := Fragment.spells_spaced (hfs_ne hne) hs
      rwa [← List.flatMap_def] at hall
  | filter hv h =>
    exact condition_writes "where" hv.ne_null (not_emptyArray hv) h.writes
      (spells_keyword "WHERE" [] (by decide) (by decide))
  | @groups vs tss hne _ hvs =>
    obtain ⟨fs, hfs, hs, hfs_ne⟩ := exists_gives (m := fun r s => r.expr s false)
      (hvs.imp fun _ _ h => h.writes) (hitems vs)
    refine ⟨_, hfs.map (f := Render.headed "GROUP BY"), ?_⟩
    have hwords : Spells "GROUP BY" [nameToken "GROUP", nameToken "BY"] :=
      Lexer.spells_words "GROUP" ["BY"] rfl (by decide)
    exact spells_headed hwords (hfs_ne hne) hs
  | having hv h =>
    exact condition_writes "having" hv.ne_null (not_emptyArray hv) h.writes
      (spells_keyword "HAVING" [] (by decide) (by decide))
  | @order vs tss hne hvs =>
    obtain ⟨fs, hfs, hs, hfs_ne⟩ := exists_gives (m := fun r s => Render.ordered r s)
      (hvs.imp fun _ _ h => h.writes) (hitems vs)
    refine ⟨_, hfs.map (f := Render.headed "ORDER BY"), ?_⟩
    have hwords : Spells "ORDER BY" [nameToken "ORDER", nameToken "BY"] :=
      Lexer.spells_words "ORDER" ["BY"] rfl (by decide)
    exact spells_headed hwords (hfs_ne hne) hs
  | limit hv h =>
    exact condition_writes "limit" hv.ne_null (not_emptyArray hv) h.writes
      (spells_keyword "LIMIT" [] (by decide) (by decide))
  | offset hv h =>
    exact condition_writes "offset" hv.ne_null (not_emptyArray hv) h.writes
      (spells_keyword "OFFSET" [] (by decide) (by decide))

end Writing

/-- A clause that may be missing, and its tokens. -/
inductive Stands (c : QueryClause) : Option Value → List Token → Prop
  | absent : Stands c none []
  | present {v : Value} {ts : List Token} : Stated c v ts → Stands c (some v) ts

section Order

variable {v : Option Value} {ts : List Token} {T : QueryClause → List Token}

theorem Stands.eq_nil {c : QueryClause} (h : Stands c none ts) : ts = [] := by
  cases h
  rfl

theorem Stated.head_rank {c : QueryClause} {v : Value} (h : Stated c v ts) (hc : 0 < c.rank) :
    ∃ t us, ts = t :: us ∧ t.rank = c.rank := by
  cases h with
  | ctes => cases hc
  | operation => cases hc
  | select => cases hc
  | join kind hne hvs =>
    cases hvs with
    | nil => exact absurd rfl hne
    | cons => exact ⟨_, _, rfl, by cases kind <;> decide⟩
  | _ => exact ⟨_, _, rfl, by decide⟩

/-- Clauses behind the `k`-th start with a token that ends it. -/
theorem closes_ahead {val : QueryClause → Option Value} (hT : ∀ c, Stands c (val c) (T c)) {k : Nat}
    {cs : List QueryClause} (hcs : ∀ c ∈ cs, k < c.rank) {o : Option Token} (ho : Closes k o) :
    Closes k (ahead (cs.flatMap T) o) := by
  induction cs with
  | nil => exact ho
  | cons c cs ih =>
    rw [List.flatMap_cons, ahead_append]
    refine (ih fun d hd => hcs d (by simp [hd])).ahead fun t ht => ?_
    have hc := hcs c (by simp)
    have hs := hT c
    generalize val c = v at hs
    generalize T c = ts at hs ht
    cases hs with
    | absent => cases ht
    | present h =>
      obtain ⟨u, us, rfl, hu⟩ := h.head_rank (Nat.lt_of_le_of_lt (Nat.zero_le k) hc)
      cases ht
      rwa [hu]

end Order

end Syntax.Parser

end SqlTree
