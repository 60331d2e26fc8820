import SqlTree.Proofs.RoundTrip.ChangeReadings

/-! Whole statements that change rows: the tokens that each is rendered to and read from. -/

namespace SqlTree

open Syntax (Read Reads)
open Lexer (nameToken)
open Syntax.Parser

namespace Change

/-- Clauses are rendered to these tokens, one after the other. -/
def Phrases (cs : List (String × Value)) (ts : List Token) : Prop :=
  ∃ tss, List.Forall₂ Phrase cs tss ∧ tss.flatten = ts

namespace Phrases

variable {cs ds : List (String × Value)} {ts us : List Token}

theorem nil : Phrases [] [] := ⟨[], .nil, rfl⟩

theorem single {e : String × Value} (h : Phrase e ts) : Phrases [e] ts :=
  ⟨[ts], .cons h .nil, by simp⟩

theorem append (h : Phrases cs ts) (h' : Phrases ds us) : Phrases (cs ++ ds) (ts ++ us) := by
  obtain ⟨tss, htss, rfl⟩ := h
  obtain ⟨uss, huss, rfl⟩ := h'
  exact ⟨tss ++ uss, List.rel_append htss huss, List.flatten_append⟩

theorem cons {e : String × Value} (h : Phrase e ts) (h' : Phrases cs us) :
    Phrases (e :: cs) (ts ++ us) :=
  (single h).append h'

end Phrases

/-- The tokens that the clauses of a statement are rendered to and read from. -/
structure Stating (cs : List (String × Value)) (ts : List Token) : Prop where
  order : (cs.map Prod.fst).Sublist Clause.order
  phrases : Phrases cs ts
  takes : ∀ n, ts.length ≤ n → Takes (statement (nested n)) ts (· = none)
    fun q => AgreesMap q.read (entriesOf cs)
  starts : ∃ w ∈ ["INSERT", "UPDATE", "DELETE"], ∃ us, ts = nameToken w :: us

section Parts

theorem optionalClause_keys (key : String) (v : Option Value) :
    ((optionalClause key v).map Prod.fst).Sublist [key] := by
  cases v with
  | none => exact List.nil_sublist _
  | some v => exact .refl _

theorem stands_phrases (key : String) {c : QueryClause} {v : Option Value} {ts : List Token}
    (h : Stands c v ts) (hkey : c.key = key) : Phrases (optionalClause key v) ts := by
  subst hkey
  cases h with
  | absent => exact .nil
  | present h => exact .single (stated_phrase h)

theorem columnTokens_phrases (c : Option Columns) :
    Phrases (optionalClause "columns" (c.map Columns.value)) (columnTokens c) := by
  cases c with
  | none => exact .nil
  | some c => exact .single c.phrase

theorem ConflictWritten.phrases {c : Option Conflict} {ts : List Token}
    (h : ConflictWritten c ts) : Phrases (c.elim [] Conflict.clauses) ts := by
  cases h with
  | absent => exact .nil
  | @present c ts h =>
    have htarget : Phrases c.target.clauses
        (nameToken "ON" :: nameToken "CONFLICT" :: c.target.tokens) := by
      cases c.target with
      | columns c => exact .single c.conflict_phrase
      | any => exact .single any_phrase
      | constraint name hname => exact .cons any_phrase (.single (constraint_phrase hname))
    exact htarget.append (.single h.phrase)

theorem Conflict.exists_written (c : Option Conflict) : ∃ ts, ConflictWritten c ts := by
  cases c with
  | none => exact ⟨_, .absent⟩
  | some c =>
    obtain ⟨ts, hts⟩ := c.action.exists_written
    exact ⟨_, .present hts⟩

theorem Conflict.clauses_keys (c : Conflict) : (c.clauses.map Prod.fst).Sublist
    ["on-conflict", "on-constraint", "do-nothing", "do-update-set"] := by
  have htarget : (c.target.clauses.map Prod.fst).Sublist ["on-conflict", "on-constraint"] := by
    cases c.target <;> simp [ConflictTarget.clauses]
  have haction : ([c.action.clause].map Prod.fst).Sublist ["do-nothing", "do-update-set"] := by
    cases c.action <;> simp [ConflictAction.clause]
  rw [Conflict.clauses, List.map_append]
  exact htarget.append haction

theorem ReturningWritten.phrases {r : Option Returned} {ts : List Token}
    (h : ReturningWritten r ts) : Phrases (returningClause r) ts := by
  cases h with
  | absent => exact .nil
  | @present r tss h => exact .single (r.phrase h)

theorem Returned.exists_written (r : Option Returned) : ∃ ts, ReturningWritten r ts := by
  cases r with
  | none => exact ⟨_, .absent⟩
  | some r =>
    obtain ⟨tss, htss⟩ := r.exists_tokens
    exact ⟨_, .present htss⟩

/-- All other clauses are finished in front of what is returned. -/
theorem ReturningWritten.closes {r : Option Returned} {ts : List Token}
    (h : ReturningWritten r ts) {o : Option Token} (ho : o = none) : Closes 10 (ahead ts o) := by
  subst ho
  cases h with
  | absent => rintro _ ⟨⟩
  | present =>
    rintro _ ⟨⟩
    decide

theorem ReturningWritten.entries {r : Option Returned} :
    entriesOf (returningClause r) = r.toList.map fun r => (.text "returning", .list r.items) := by
  cases r <;> rfl

/-- The rows of an insertion are finished in front of what follows them. -/
theorem ConflictWritten.not_comma {c : Option Conflict} {r : Option Returned} {ts us : List Token}
    (h : ConflictWritten c ts) (hr : ReturningWritten r us) {o : Option Token} (ho : o = none) :
    isSymbol "," (ahead (ts ++ us) o) = false := by
  cases h with
  | absent => exact (hr.closes ho).isSymbol (by decide)
  | present => rfl

/-- What is finished in front of a clause is finished in front of one that may be missing. -/
theorem stands_closes {c : QueryClause} {v : Option Value} {ts : List Token} (h : Stands c v ts)
    {k : Nat} (hc : k < c.rank) {o : Option Token} (ho : Closes k o) : Closes k (ahead ts o) := by
  cases h with
  | absent => exact ho
  | present h =>
    obtain ⟨t, us, rfl, hrank⟩ := h.head_rank (by omega)
    rintro _ ⟨⟩
    rwa [hrank]

/-- The tables of a change are finished in front of its condition. -/
theorem condition_closes {v : Option Value} {ts us : List Token} {r : Option Returned}
    (h : Stands .filter v ts) (hr : ReturningWritten r us) {o : Option Token} (ho : o = none) :
    Closes 2 (ahead (ts ++ us) o) := by
  rw [ahead_append]
  exact stands_closes h (by decide) ((hr.closes ho).mono (by decide))

end Parts

section Insertions

theorem Insertion.clauses_keys (i : Insertion) : (i.clauses.map Prod.fst).Sublist
    ["insert-into", "columns", "values", "on-conflict", "on-constraint", "do-nothing",
      "do-update-set", "returning"] := by
  have hconflict : ((i.conflict.elim [] Conflict.clauses).map Prod.fst).Sublist
      ["on-conflict", "on-constraint", "do-nothing", "do-update-set"] := by
    cases i.conflict with
    | none => exact List.nil_sublist _
    | some c => exact c.clauses_keys
  rw [Insertion.clauses, List.map_append, List.map_append, List.map_cons, List.map_cons]
  exact (((optionalClause_keys _ _).cons_cons _).append (hconflict.cons_cons _)).append
    (optionalClause_keys _ _)

theorem Source.Written.ahead {s : Source} {ts : List Token} (h : s.Written ts) (us : List Token)
    (o : Option Token) : ahead (ts ++ us) o = some (nameToken "VALUES") ∨
      ahead (ts ++ us) o = some (nameToken "DEFAULT") := by
  cases h with
  | defaults => exact .inr rfl
  | rows => exact .inl rfl

/-- Columns are read where there are any. -/
theorem columns_bind (c : Option Columns) {α : Type} {f : Option (List Value) → Read α} {a : α}
    (hf : Reads (f (c.map fun c => c.names.map Value.text)) a) :
    Reads (if ((c.elim [] Columns.names).map bare).isEmpty then pure none >>= f else
      some <$> Syntax.Reading.nameList ((c.elim [] Columns.names).map bare) >>= f) a := by
  cases c with
  | none => exact (Reads.pure none).bind hf
  | some c =>
    have hempty : ¬ (c.names.map bare).isEmpty = true := by simpa using c.ne_nil
    have hvalues : (c.names.map bare).map Syntax.Name.value = c.names.map Value.text := by
      rw [List.map_map]
      rfl
    have hnames : Reads (Syntax.Reading.nameList (c.names.map bare)) (c.names.map .text) := by
      rw [Syntax.Reading.nameList, hvalues]
      exact (Reads.pure _).visit
    rw [Option.elim_some, if_neg hempty, map_eq_pure_bind]
    exact hnames.map.bind hf

theorem Insertion.agrees (i : Insertion) {source : Read Syntax.Inserted}
    {conflict : Option (Read Entries)} {items : List (Read Value)}
    (hsource : Reads source (.values i.source.value))
    (hconflict : AgreesMap (conflict.getD (pure []))
      (entriesOf (i.conflict.elim [] Conflict.clauses)))
    (hitems : AgreesMap (Syntax.Reading.returning items)
      (entriesOf (returningClause i.returning))) :
    AgreesMap (Syntax.Reading.insert none [bare i.target.table] (i.target.name.map bare)
      ((i.columns.elim [] Columns.names).map bare) source conflict items)
      (entriesOf i.clauses) := by
  obtain ⟨cs, hcs, hcsame⟩ := hconflict
  obtain ⟨rs, hrs, hrsame⟩ := hitems
  have hctes : Reads (pure [] : Read Entries) [] := .pure []
  refine ⟨_, (hctes.bind (i.target.table_reads.bind (columns_bind i.columns
    (hsource.bind (hcs.bind hrs.map))))).visit, ?_⟩
  rw [← i.target.value_eq]
  have htable := echoes_single (k := "insert-into") i.target.same_self
  have hcolumns : Entries.Echoes ((i.columns.map fun c => c.names.map Value.text).elim []
      fun cs => Syntax.Reading.entry "columns" (.list cs))
        (entriesOf (optionalClause "columns" (i.columns.map Columns.value))) := by
    cases i.columns with
    | none => exact echoes_nil
    | some c => exact echoes_single c.same_self
  have hvalues := echoes_single (k := "values") i.source.same_self
  refine echoes_perm (((Entries.Echoes.append echoes_nil hcsame).append hrsame).append
    ((htable.append hcolumns).append hvalues)) ?_
  -- the insertion is read behind what follows it in the text
  refine List.perm_append_comm.trans (.of_eq ?_)
  simp [Insertion.clauses, entriesOf]

theorem Insertion.rest_takes (i : Insertion) {ts us vs : List Token} (hsource : i.source.Written ts)
    (hconflict : ConflictWritten i.conflict us) (hreturning : ReturningWritten i.returning vs)
    {n : Nat} (hn : (ts ++ (us ++ vs)).length ≤ n) :
    Takes (insertRest (nested n) none) (nameToken "INTO" :: (i.target.tokens ++
      (columnTokens i.columns ++ (ts ++ (us ++ vs))))) (· = none)
      fun q => AgreesMap q.read (entriesOf i.clauses) := by
  simp only [List.length_append] at hn
  have hname : ∀ o, isKeyword "as" (ahead (columnTokens i.columns ++ (ts ++ (us ++ vs))) o) =
      false ∧ isSymbol "." (ahead (columnTokens i.columns ++ (ts ++ (us ++ vs))) o) = false := by
    intro o
    cases i.columns with
    | none =>
      rw [columnTokens, Option.elim_none, List.nil_append]
      rcases hsource.ahead (us ++ vs) o with h | h <;> rw [h] <;> exact ⟨rfl, rfl⟩
    | some c => exact ⟨rfl, rfl⟩
  refine .keyword rfl ?_
  change Takes _ ([.name i.target.table] ++
    (aliasTokens i.target.name ++ (columnTokens i.columns ++ (ts ++ (us ++ vs))))) _ _
  refine (i.target.path_takes fun o (ho : isSymbol "." o = false) => ho).bind ?_ ?_
  · rintro _ rfl
    refine (optionalName_takes i.target.name fun o (ho : isKeyword "as" o = false) => ho).bind
      ?_ fun o _ => (hname o).1
    rintro _ rfl
    refine (insertColumns_take i.columns fun o (ho : isSymbol "(" o = false) => ho).bind ?_ ?_
    · rintro _ rfl
      refine (hsource.takes (n := n) (by omega) fun o (ho : isSymbol "," o = false) => ho).bind
        (fun s hs => ?_) fun o ho => ?_
      · refine (conflict_takes hconflict (n := n) (by omega)).bind (fun c hc => ?_)
          fun o ho => hreturning.closes ho
        refine (returning_takes hreturning (n := n) (by omega)).map fun r hr => ?_
        rw [Syntax.Tree.read, read_ofOption, read_ofOption]
        exact i.agrees hs hc (ReturningWritten.entries ▸ hr)
      · exact hconflict.not_comma hreturning ho
    · intro o _
      rcases hsource.ahead (us ++ vs) o with h | h <;> rw [h] <;> rfl
  · intro o _
    cases i.target.name with
    | none => exact (hname o).2
    | some a => rfl

theorem Insertion.exists_stating (i : Insertion) : ∃ ts, Stating i.clauses ts := by
  obtain ⟨ts, hsource⟩ := i.source.exists_written
  obtain ⟨us, hconflict⟩ := Conflict.exists_written i.conflict
  obtain ⟨vs, hreturning⟩ := Returned.exists_written i.returning
  refine ⟨nameToken "INSERT" :: nameToken "INTO" :: (i.target.tokens ++
    (columnTokens i.columns ++ (ts ++ (us ++ vs)))), ?_⟩
  refine { order := ?_, phrases := ?_, takes := fun n hn => ?_, starts := ⟨_, by simp, _, rfl⟩ }
  · exact i.clauses_keys.trans (by decide)
  · have h := ((Phrases.cons i.target.insertInto_phrase (columnTokens_phrases i.columns)).append
      (.cons hsource.phrase hconflict.phrases)).append hreturning.phrases
    simpa [Insertion.clauses] using h
  · simp only [List.length_append, List.length_cons] at hn
    refine (optional_absent (fun o ho => ho) rfl : Takes (ctes (nested n)) []
      (isKeyword "with" · = false) (· = none)).nothing_bind ?_ fun _ _ => rfl
    rintro _ rfl
    refine .withKeyword rfl (i.rest_takes hsource hconflict hreturning ?_)
    simp only [List.length_append]
    omega

end Insertions

section Updates

theorem Update.agrees (u : Update) {fields : List (Read (Value × Value))}
    {sources : List (Read Syntax.FromItem)} {condition : Option Syntax.Operand}
    {items : List (Read Value)}
    (hfields : Reads (Syntax.Reading.assignments fields) u.fields.value)
    (hsources : AgreesMap (Syntax.Reading.fromClause sources)
      (entriesOf (optionalClause "from" u.tables)))
    (hcondition : AgreesMap (Syntax.Reading.condition "where" condition)
      (entriesOf (optionalClause "where" u.condition)))
    (hitems : AgreesMap (Syntax.Reading.returning items)
      (entriesOf (returningClause u.returning))) :
    AgreesMap (Syntax.Reading.update none [bare u.target.table] (u.target.name.map bare) fields
      sources condition items) (entriesOf u.clauses) := by
  obtain ⟨ss, hss, hssame⟩ := hsources
  obtain ⟨cs, hcs, hcsame⟩ := hcondition
  obtain ⟨rs, hrs, hrsame⟩ := hitems
  have hctes : Reads (pure [] : Read Entries) [] := .pure []
  refine ⟨_, (hctes.bind (u.target.changed_reads.bind (hfields.bind
    (hss.bind (hcs.bind hrs.map))))).visit, ?_⟩
  have htable := echoes_single (k := "update") u.target.same_self
  have hset := echoes_single (k := "set") u.fields.same_self
  have h := ((((Entries.Echoes.append echoes_nil htable).append hset).append hssame).append
    hcsame).append hrsame
  have hclauses : entriesOf u.clauses = [] ++ [(.text "update", u.target.value)] ++
      [(.text "set", u.fields.value)] ++ entriesOf (optionalClause "from" u.tables) ++
      entriesOf (optionalClause "where" u.condition) ++
      entriesOf (returningClause u.returning) := by
    simp [Update.clauses, entriesOf]
  rw [hclauses]
  exact h

theorem Update.clauses_keys (u : Update) :
    (u.clauses.map Prod.fst).Sublist ["update", "set", "from", "where", "returning"] := by
  rw [Update.clauses, List.map_append, List.map_append, List.map_cons, List.map_cons]
  exact ((((optionalClause_keys _ _).cons_cons _).cons_cons _).append
    (optionalClause_keys _ _)).append (optionalClause_keys _ _)

theorem entriesOf_optionalClause (key : String) (v : Option Value) :
    entriesOf (optionalClause key v) = v.toList.map (.text key, ·) := by
  cases v <;> rfl

theorem Update.rest_takes (u : Update) {tss : List (List Token)} {ts us vs : List Token}
    (hfields : List.Forall₂ Assigned u.fields.items tss) (htables : Stands .tables u.tables ts)
    (hcondition : Stands .filter u.condition us) (hreturning : ReturningWritten u.returning vs)
    {n : Nat} (hn : (commaTokens tss ++ (ts ++ (us ++ vs))).length ≤ n) :
    Takes (updateRest (nested n) none) (u.target.tokens ++ nameToken "SET" ::
      (commaTokens tss ++ (ts ++ (us ++ vs)))) (· = none)
      fun q => AgreesMap q.read (entriesOf u.clauses) := by
  simp only [List.length_append] at hn
  change Takes _ ([.name u.target.table] ++ (aliasTokens u.target.name ++
    nameToken "SET" :: (commaTokens tss ++ (ts ++ (us ++ vs))))) _ _
  refine (u.target.path_takes fun o (ho : isSymbol "." o = false) => ho).bind ?_ ?_
  · rintro _ rfl
    refine (aliasName_takes_tokens u.target.name fun o (ho : isName o = false ∧
      isKeyword "as" o = false) => ho).bind ?_ fun _ _ => ⟨rfl, rfl⟩
    rintro _ rfl
    refine .keyword rfl ?_
    refine (u.fields.takes hfields (n := n) (by omega)).bind (fun fs hfs => ?_) fun o ho => ?_
    · refine (from_takes htables (n := n) (by omega)).bind (fun ss hss => ?_)
        fun o ho => condition_closes hcondition hreturning ho
      refine (where_takes hcondition (n := n) (by omega)).bind (fun c hc => ?_)
        fun o ho => (hreturning.closes ho).mono (by decide)
      refine (returning_takes hreturning (n := n) (by omega)).map fun r hr => ?_
      rw [Syntax.Tree.read, read_ofOption, read_ofOption, read_ofList]
      exact u.agrees hfs (entriesOf_optionalClause _ _ ▸ hss) (entriesOf_optionalClause _ _ ▸ hc)
        (ReturningWritten.entries ▸ hr)
    · rw [ahead_append]
      exact stands_closes htables (by decide)
        ((condition_closes hcondition hreturning ho).mono (by decide))
  · intro o _
    cases u.target.name <;> rfl

theorem exists_stands_of {c : QueryClause} {v : Option Value}
    (h : ∀ w ∈ v, ∃ ts, Stated c w ts) : ∃ ts, Stands c v ts := by
  cases v with
  | none => exact ⟨_, .absent⟩
  | some v =>
    obtain ⟨ts, hts⟩ := h v rfl
    exact ⟨ts, .present hts⟩

theorem exists_condition {v : Option Value} (h : ∀ w ∈ v, Expressible w) :
    ∃ ts, Stands .filter v ts := by
  refine exists_stands_of fun w hw => ?_
  obtain ⟨⟨ts, hts⟩, -⟩ := (h w hw).exists_tokens
  exact ⟨_, .filter (h w hw) hts⟩

theorem Update.exists_stating (u : Update) : ∃ ts, Stating u.clauses ts := by
  obtain ⟨tss, hfields⟩ := u.fields.exists_tokens
  obtain ⟨ts, htables⟩ := exists_stands_of fun v hv => (u.tables_canonical v hv).hasTokens
  obtain ⟨us, hcondition⟩ := exists_condition u.expressible
  obtain ⟨vs, hreturning⟩ := Returned.exists_written u.returning
  refine ⟨nameToken "UPDATE" :: (u.target.tokens ++ nameToken "SET" ::
    (commaTokens tss ++ (ts ++ (us ++ vs)))), ?_⟩
  refine { order := ?_, phrases := ?_, takes := fun n hn => ?_, starts := ⟨_, by simp, _, rfl⟩ }
  · exact u.clauses_keys.trans (by decide)
  · have h := (((Phrases.cons u.target.update_phrase (.cons (u.fields.set_phrase hfields)
      (stands_phrases "from" htables rfl))).append
      (stands_phrases "where" hcondition rfl))).append hreturning.phrases
    simpa [Update.clauses] using h
  · simp only [List.length_append, List.length_cons] at hn
    refine (optional_absent (fun o ho => ho) rfl : Takes (ctes (nested n)) []
      (isKeyword "with" · = false) (· = none)).nothing_bind ?_ fun _ _ => rfl
    rintro _ rfl
    refine .noKeyword (fun _ _ => rfl) (.withKeyword rfl
      (u.rest_takes hfields htables hcondition hreturning ?_))
    simp only [List.length_append]
    omega

end Updates

section Deletions

theorem Deletion.agrees (d : Deletion) {tables : List (Read Value)}
    {condition : Option Syntax.Operand} {items : List (Read Value)}
    (htables : AgreesMap (Syntax.Reading.optionalEntry "using" (if tables.isEmpty then none else
      some do return .list (← Syntax.visitAll tables)))
      (entriesOf (optionalClause "using" (d.tables.map .list))))
    (hcondition : AgreesMap (Syntax.Reading.condition "where" condition)
      (entriesOf (optionalClause "where" d.condition)))
    (hitems : AgreesMap (Syntax.Reading.returning items)
      (entriesOf (returningClause d.returning))) :
    AgreesMap (Syntax.Reading.delete none [bare d.target.table] (d.target.name.map bare) tables
      condition items) (entriesOf d.clauses) := by
  obtain ⟨ss, hss, hssame⟩ := htables
  obtain ⟨cs, hcs, hcsame⟩ := hcondition
  obtain ⟨rs, hrs, hrsame⟩ := hitems
  have hctes : Reads (pure [] : Read Entries) [] := .pure []
  refine ⟨_, (hctes.bind (d.target.changed_reads.bind
    (hss.bind (hcs.bind hrs.map)))).visit, ?_⟩
  have htable := echoes_single (k := "delete-from") d.target.same_self
  have h := (((Entries.Echoes.append echoes_nil htable).append hssame).append hcsame).append hrsame
  have hclauses : entriesOf d.clauses = [] ++ [(.text "delete-from", d.target.value)] ++
      entriesOf (optionalClause "using" (d.tables.map .list)) ++
      entriesOf (optionalClause "where" d.condition) ++
      entriesOf (returningClause d.returning) := by
    simp [Deletion.clauses, entriesOf]
  rw [hclauses]
  exact h

theorem Deletion.clauses_keys (d : Deletion) :
    (d.clauses.map Prod.fst).Sublist ["delete-from", "using", "where", "returning"] := by
  rw [Deletion.clauses, List.map_append, List.map_append, List.map_cons]
  exact (((optionalClause_keys _ _).cons_cons _).append (optionalClause_keys _ _)).append
    (optionalClause_keys _ _)

theorem UsingWritten.phrases {vs : Option (List Value)} {ts : List Token} (h : UsingWritten vs ts) :
    Phrases (optionalClause "using" (vs.map .list)) ts := by
  cases h with
  | absent => exact .nil
  | present hne h => exact .single (using_phrase hne h)

theorem Deletion.exists_using (d : Deletion) : ∃ ts, UsingWritten d.tables ts := by
  obtain ⟨target, tables, htables, condition, hcondition, returning⟩ := d
  cases tables with
  | none => exact ⟨_, .absent⟩
  | some vs =>
    obtain ⟨hne, hvs⟩ := htables vs rfl
    obtain ⟨tss, htss⟩ := exists_forall₂ fun v hv => (hvs v hv).hasTokens
    exact ⟨_, .present hne htss⟩

theorem Deletion.rest_takes (d : Deletion) {ts us vs : List Token}
    (htables : UsingWritten d.tables ts)
    (hcondition : Stands .filter d.condition us) (hreturning : ReturningWritten d.returning vs)
    {n : Nat} (hn : (ts ++ (us ++ vs)).length ≤ n) :
    Takes (deleteRest (nested n) none) (nameToken "FROM" :: (d.target.tokens ++
      (ts ++ (us ++ vs)))) (· = none) fun q => AgreesMap q.read (entriesOf d.clauses) := by
  simp only [List.length_append] at hn
  have hclose : ∀ o, o = none → isName (ahead (ts ++ (us ++ vs)) o) = false ∧
      isKeyword "as" (ahead (ts ++ (us ++ vs)) o) = false ∧
        isSymbol "." (ahead (ts ++ (us ++ vs)) o) = false := by
    intro o ho
    have hcloses := condition_closes hcondition hreturning ho
    generalize d.tables = tables at htables
    cases htables with
    | absent => exact ⟨hcloses.isName, hcloses.isKeyword (by decide), hcloses.isSymbol (by decide)⟩
    | present => exact ⟨rfl, rfl, rfl⟩
  refine .keyword rfl ?_
  change Takes _ ([.name d.target.table] ++
    (aliasTokens d.target.name ++ (ts ++ (us ++ vs)))) _ _
  refine (d.target.path_takes fun o (ho : isSymbol "." o = false) => ho).bind ?_ ?_
  · rintro _ rfl
    refine (aliasName_takes_tokens d.target.name fun o (ho : isName o = false ∧
      isKeyword "as" o = false) => ho).bind ?_ fun o ho => ⟨(hclose o ho).1, (hclose o ho).2.1⟩
    rintro _ rfl
    refine (using_takes htables (n := n) (by omega)).bind (fun ss hss => ?_)
      fun o ho => condition_closes hcondition hreturning ho
    refine (where_takes hcondition (n := n) (by omega)).bind (fun c hc => ?_)
      fun o ho => (hreturning.closes ho).mono (by decide)
    refine (returning_takes hreturning (n := n) (by omega)).map fun r hr => ?_
    rw [Syntax.Tree.read, read_ofOption, read_ofOption, read_ofList]
    refine d.agrees ?_ (entriesOf_optionalClause _ _ ▸ hc) (ReturningWritten.entries ▸ hr)
    rw [entriesOf_optionalClause, Option.toList_map, List.map_map]
    exact hss
  · intro o ho
    cases d.target.name with
    | none => exact (hclose o ho).2.2
    | some a => rfl

theorem Deletion.exists_stating (d : Deletion) : ∃ ts, Stating d.clauses ts := by
  obtain ⟨ts, htables⟩ := d.exists_using
  obtain ⟨us, hcondition⟩ := exists_condition d.expressible
  obtain ⟨vs, hreturning⟩ := Returned.exists_written d.returning
  refine ⟨nameToken "DELETE" :: nameToken "FROM" :: (d.target.tokens ++ (ts ++ (us ++ vs))), ?_⟩
  refine { order := ?_, phrases := ?_, takes := fun n hn => ?_, starts := ⟨_, by simp, _, rfl⟩ }
  · exact d.clauses_keys.trans (by decide)
  · have h := ((Phrases.cons d.target.delete_phrase htables.phrases).append
      (stands_phrases "where" hcondition rfl)).append hreturning.phrases
    simpa [Deletion.clauses] using h
  · simp only [List.length_append, List.length_cons] at hn
    refine (optional_absent (fun o ho => ho) rfl : Takes (ctes (nested n)) []
      (isKeyword "with" · = false) (· = none)).nothing_bind ?_ fun _ _ => rfl
    rintro _ rfl
    refine .noKeyword (fun _ _ => rfl) (.noKeyword (fun _ _ => rfl) (.withKeyword rfl
      (d.rest_takes htables hcondition hreturning ?_)))
    simp only [List.length_append]
    omega

end Deletions

theorem exists_stating (c : Change) : ∃ ts, Stating c.clauses ts := by
  cases c with
  | insert i => exact i.exists_stating
  | update u => exact u.exists_stating
  | delete d => exact d.exists_stating

end Change

end SqlTree
