import SqlTree.Proofs.RoundTrip.ChangeClauses

/-! The clauses of changes are read from their tokens. -/

namespace SqlTree

open Syntax (Means Read Reads headed)
open Lexer (nameToken)
open Syntax.Parser

namespace Change

section Values

theorem Cell.same_self {v : Value} (h : Cell v) : v.same v = true := by
  cases h with
  | expression hv => exact hv.same_self
  | null => rfl
  | default => exact Value.same_list (.cons (Value.same_text_self _) .nil)

theorem Source.same_self (s : Source) : s.value.same s.value = true := by
  cases s with
  | defaults => exact Value.same_text_self _
  | rows rs _ hcells =>
    refine Value.same_list (List.forall₂_same.mpr fun v hv => ?_)
    obtain ⟨r, hr, rfl⟩ := List.mem_map.mp hv
    exact Value.same_list (List.forall₂_same.mpr fun v hv => ((hcells r hr).2 v hv).same_self)

theorem Columns.same_self (c : Columns) : c.value.same c.value = true := by
  refine Value.same_list (List.forall₂_same.mpr fun v hv => ?_)
  obtain ⟨n, -, rfl⟩ := List.mem_map.mp hv
  exact Value.same_text_self n

theorem Target.same_self (t : Target) : t.value.same t.value = true := by
  rw [Target.value]
  split
  · exact Value.same_text_self _
  · exact Value.same_list (.cons (Value.same_text_self _) (.cons (Value.same_text_self _) .nil))

theorem Assignments.same_self (a : Assignments) : a.value.same a.value = true := by
  refine Value.same_map rfl fun e he => ⟨e, he, ?_⟩
  obtain ⟨c, hc, rfl⟩ := List.mem_map.mp he
  exact ⟨Value.same_text_self _, (a.expressible c hc).same_self⟩

/-- One entry whose value is read back. -/
theorem echoes_single {k : String} {v w : Value} (h : w.same v = true) :
    Entries.Echoes [(.text k, w)] [(.text k, v)] where
  length := rfl
  entry e he := by
    obtain rfl := List.mem_singleton.mp he
    exact ⟨_, List.mem_singleton_self _, Value.same_text_self k, h⟩
  keys e he := by
    obtain rfl := List.mem_singleton.mp he
    exact ⟨_, List.mem_singleton_self _, rfl⟩

theorem echoes_nil : Entries.Echoes [] [] := ⟨rfl, nofun, nofun⟩

theorem echoes_perm {es es' fs : Entries} (h : fs.Echoes es) (hes : es.Perm es') :
    fs.Echoes es' where
  length := h.length.trans hes.length_eq
  entry f hf := by
    obtain ⟨e, he, hsame⟩ := h.entry f hf
    exact ⟨e, hes.mem_iff.mp he, hsame⟩
  keys e he := h.keys e (hes.mem_iff.mpr he)

end Values

section Targets

variable {follow : Option Token → Prop}

theorem Target.path_takes (t : Target) (hdot : ∀ o, follow o → isSymbol "." o = false) :
    Takes path [.name t.table] follow (· = [bare t.table]) :=
  Syntax.Parser.path_takes t.table [] hdot

/-- An alias behind its keyword. -/
theorem optionalName_takes (name : Option String) (has : ∀ o, follow o → isKeyword "as" o = false) :
    Takes (optional "as" Syntax.Parser.name) (aliasTokens name) follow (· = name.map bare) := by
  cases name with
  | none => exact optional_none has
  | some a =>
    exact optional_takes rfl ((name_takes a).mono (fun _ _ => trivial) (by rintro _ rfl; rfl))

theorem aliasName_takes_tokens (name : Option String)
    (h : ∀ o, follow o → isName o = false ∧ isKeyword "as" o = false) :
    Takes aliasName (aliasTokens name) follow (· = name.map bare) := by
  cases name with
  | none => exact aliasName_absent h
  | some a => exact aliasName_takes a

theorem Target.value_eq (t : Target) : t.value =
    (t.name.map bare).elim (.text t.table) fun n => .list [.text t.table, n.asAlias] := by
  obtain ⟨table, -, name, hname⟩ := t
  cases name with
  | none => rfl
  | some a =>
    rw [Option.map_some, Option.elim_some, asAlias_bare (hname a rfl)]
    rfl

theorem Target.table_reads (t : Target) :
    Reads (Syntax.Reading.target [bare t.table]) (.text t.table) := by
  have h : Syntax.Path.value [bare t.table] = .text t.table := by
    have hvalue := Syntax.Reading.pathValue_bare t.plain.toPlainPart (List.forall_mem_nil PlainPart)
    rwa [dotted, String.intercalate_singleton] at hvalue
  rw [Syntax.Reading.target, h]
  exact (Reads.pure _).visit

theorem Target.changed_reads (t : Target) :
    Reads (Syntax.Reading.changed [bare t.table] (t.name.map bare)) t.value := by
  rw [t.value_eq]
  refine t.table_reads.bind ?_
  cases t.name with
  | none => exact .pure _
  | some a => exact Reads.map (f := fun n => Value.list [.text t.table, n]) (Reads.pure _).visit

end Targets

section Lists

variable {n : Nat} {follow : Option Token → Prop}

/-- An expression inside something else. -/
theorem nested_takes {v : Value} {us : List Token} (h : Expressed v us) (hn : us.length < n) :
    Takes (Syntax.Parser.nested n).expr us (Ends 10) (Means · v) := by
  obtain ⟨m, rfl⟩ : ∃ m, n = m + 1 := ⟨n - 1, by omega⟩
  exact h.takes m (by omega)

/-- Expressions in parentheses. -/
theorem parenExprs_take {vs : List Value} {tss : List (List Token)} (hne : vs ≠ [])
    (h : List.Forall₂ Expressed vs tss) (hn : (commaTokens tss).length < n) :
    Takes (parens (exprs (nested n))) (.symbol "(" :: commaTokens tss ++ [.symbol ")"]) follow
      (List.Forall₂ (fun v e => Means e v) vs) := by
  refine parens_takes (commas_takes (by rintro _ rfl; rfl) hne ((forall₂_mem h).imp ?_))
  rintro v us ⟨hv, hus⟩
  refine (nested_takes hv (Nat.lt_of_le_of_lt (length_le_commaTokens hus) hn)).before ?_
  rintro _ (rfl | rfl) _ ⟨⟩ <;> decide

theorem values_reads_of {vs : List Value} {es : List Syntax.Expr}
    (h : List.Forall₂ (fun v e => Means e v) vs es) :
    Reads (Syntax.Operand.values (Syntax.Tree.ofList es).read) vs :=
  Syntax.Reading.values_reads h.flip

theorem Rowed.takes {vs : List Value} {ts : List Token} (h : Rowed vs ts) (hn : ts.length ≤ n) :
    Takes (row (nested n)) ts follow fun t => Reads t.read (.list vs) := by
  obtain ⟨tss, hne, hvs, rfl⟩ := h
  simp only [List.length_append, List.length_cons, List.length_nil] at hn
  refine (parenExprs_take hne hvs (by omega)).map fun es hes => ?_
  have hreads : Reads (Value.list <$> Syntax.Operand.values (Syntax.Tree.ofList es).read)
      (.list vs) := by
    rw [map_eq_pure_bind]
    exact (values_reads_of hes).map
  exact hreads

def columnTokens (c : Option Columns) : List Token := c.elim [] Columns.tokens

theorem insertColumns_take (c : Option Columns) (hf : ∀ o, follow o → isSymbol "(" o = false) :
    Takes insertColumns (columnTokens c) follow
      (· = (c.elim [] Columns.names).map bare) := by
  cases c with
  | none =>
    refine .notAtSymbol hf (.peekSecondAny fun o => ?_)
    exact .pure rfl
  | some c =>
    refine .isAtSymbol rfl (.peekSecond fun o ho => ?_)
    have hname : isName (ahead (commaTokens (c.names.map fun n => [Token.name n]) ++
        [.symbol ")"]) o) = true := by
      obtain ⟨x, xs, hxs⟩ := List.exists_cons_of_ne_nil c.ne_nil
      rw [hxs, List.map_cons, commaTokens_cons]
      rfl
    have hboth : (true && isName (ahead (commaTokens (c.names.map fun n => [Token.name n]) ++
        [.symbol ")"]) o)) = true := hname
    refine (nameList_takes c.ne_nil).congr fun ls rest _ _ => ?_
    exact if_pos hboth ▸ rfl

theorem Source.Written.takes {s : Source} {ts : List Token} (h : s.Written ts)
    {n : Nat} (hn : ts.length ≤ n) (hf : ∀ o, follow o → isSymbol "," o = false) :
    Takes (insertSource (nested n)) ts follow fun t => Reads t.read (.values s.value) := by
  cases h with
  | defaults =>
    exact .noKeyword (fun _ _ => rfl) (.withKeyword rfl (.keyword rfl (.pure (Reads.pure _))))
  | @rows rs hne hcells tss h =>
    rw [List.length_cons] at hn
    have hrows : List.Forall₂ (fun vs ts => Takes (row (nested n)) ts (OrSign "," follow)
        fun t => Reads t.read (.list vs)) rs tss := by
      refine (forall₂_mem h).imp fun vs us ⟨hvs, hus⟩ => hvs.takes ?_
      have := length_le_commaTokens hus
      omega
    refine .withKeyword rfl ((commas_takes hf hne hrows).map fun ts hts => ?_)
    have hall : List.Forall₂ Reads (ts.map Syntax.Tree.read) (rs.map Value.list) :=
      List.forall₂_map_left_iff.mpr (List.forall₂_map_right_iff.mpr hts.flip)
    rw [Syntax.Tree.read, read_ofList]
    exact (Reads.mapM hall).map (f := fun vs => Syntax.Inserted.values (.list vs))

end Lists

section Assignments

variable {n : Nat}

theorem put_new {es : Entries} {k : String} (hk : ∀ e ∈ es, e.1 ≠ .text k) (v : Value) :
    Entries.put es (.text k) v = es ++ [(.text k, v)] := by
  induction es with
  | nil => rfl
  | cons e es ih =>
    have hne : e.1.same (.text k) = false := by
      rw [← Bool.not_eq_true, Value.same_text_iff]
      exact hk e (by simp)
    rw [Entries.put, hne, if_neg (by decide), ih fun x hx => hk x (by simp [hx])]
    rfl

/-- Distinct columns keep their order. -/
theorem updated_append {items : List (String × Value)} {es : Entries}
    (hnodup : (items.map Prod.fst).Nodup)
    (hes : ∀ e ∈ es, ∀ c ∈ items, e.1 ≠ .text c.1) :
    Entries.updated es (items.map fun e => (.text e.1, e.2)) =
      es ++ items.map fun e => (.text e.1, e.2) := by
  induction items generalizing es with
  | nil => simp [Entries.updated]
  | cons c items ih =>
    obtain ⟨hc, hrest⟩ := List.nodup_cons.mp hnodup
    have hput := put_new (k := c.1) (fun e he => hes e he c (by simp)) c.2
    have hnext := ih hrest (?_ : ∀ e ∈ es ++ [(.text c.1, c.2)], _)
    · rw [List.append_assoc] at hnext
      rw [← hput] at hnext
      exact hnext
    · intro e he d hd
      rcases List.mem_append.mp he with he | he
      · exact hes e he d (by simp [hd])
      · obtain rfl := List.mem_singleton.mp he
        rintro heq
        have hkey : c.1 = d.1 := by simpa using heq
        exact hc (hkey ▸ List.mem_map_of_mem hd)

theorem assignment_takes {e : String × Value} {ts : List Token} (h : Assigned e ts)
    (hn : ts.length ≤ n) :
    Takes (assignment (nested n)) ts (Ends 10) fun t => Reads t.read (.text e.1, e.2) := by
  obtain ⟨us, hus, rfl⟩ := h
  simp only [List.length_cons] at hn
  refine Takes.bindAny (name_takes e.1 : Takes name [.name e.1] _ _) ?_
  rintro _ rfl
  refine .symbol rfl ((nested_takes hus (by omega)).map fun f hf => ?_)
  exact .visit (hf.map (f := fun v => (Value.text e.1, v)))

theorem Assignments.takes (a : Assignments) {tss : List (List Token)}
    (h : List.Forall₂ Assigned a.items tss) (hn : (commaTokens tss).length ≤ n) :
    Takes (assignments (nested n)) (commaTokens tss) (Closes 0)
      fun t => Reads (Syntax.Reading.assignments t.read) a.value := by
  have hitems : List.Forall₂ (fun e ts => Takes (assignment (nested n)) ts
      (OrSign "," (Closes 0)) fun t => Reads t.read (Value.text e.1, e.2)) a.items tss := by
    refine (forall₂_mem h).imp fun e us ⟨he, hus⟩ => ?_
    exact (assignment_takes he (Nat.le_trans (length_le_commaTokens hus) hn)).before
      fun _ ho => ho.ends
  refine (commas_takes (fun _ ho => ho.isSymbol (by decide)) a.ne_nil hitems).map fun ts hts => ?_
  have hall : List.Forall₂ Reads (ts.map Syntax.Tree.read)
      (a.items.map fun e => (Value.text e.1, e.2)) :=
    List.forall₂_map_left_iff.mpr (List.forall₂_map_right_iff.mpr hts.flip)
  have hupdated := updated_append a.nodup (List.forall_mem_nil _)
  rw [List.nil_append] at hupdated
  rw [read_ofList]
  have hreads := (Reads.mapM hall).map (f := fun fs => Value.map (Entries.updated [] fs))
  rw [hupdated] at hreads
  exact hreads.visit

end Assignments

section Conditions

variable {n : Nat} {v : Option Value} {ts : List Token}

/-- The entries of the clauses that are there. -/
theorem EntriesOf.echoes_all {val : QueryClause → Option Value} {cs : List QueryClause}
    {es : Entries} (h : EntriesOf val cs es) :
    es.Echoes (cs.flatMap fun c => (val c).toList.map (.text c.key, ·)) := by
  obtain ⟨ess, hess, rfl⟩ := h
  induction hess with
  | nil => exact echoes_nil
  | @cons c es cs ess hc _ ih =>
    rw [List.flatten_cons, List.flatMap_cons]
    refine Entries.Echoes.append ?_ ih
    cases hv : val c with
    | none =>
      rw [hv] at hc
      obtain rfl : es = [] := hc
      exact echoes_nil
    | some v =>
      rw [hv] at hc
      obtain ⟨w, rfl, hw⟩ := hc
      exact echoes_single hw

theorem where_takes (h : Stands .filter v ts) (hn : ts.length ≤ n) :
    Takes (whereClause (nested n)) ts (Closes 3) fun o =>
      AgreesMap (Syntax.Reading.condition "where" (o.map Syntax.Tree.read))
        (v.toList.map (.text "where", ·)) := by
  refine (@where_parses n (fun _ => v) (fun _ => ts) h hn).mono (fun _ => id) ?_
  rintro o ⟨es, hes, he⟩
  have hechoes := EntriesOf.echoes_all he
  rw [List.flatMap_singleton] at hechoes
  exact ⟨es, hes, hechoes⟩

theorem from_takes (h : Stands .tables v ts) (hn : ts.length ≤ n) :
    Takes (fromClause (nested n)) ts (Closes 2) fun o =>
      AgreesMap (Syntax.Reading.fromClause ((o.getD []).map Syntax.Tree.read))
        (v.toList.map (.text "from", ·)) := by
  -- the tables stand alone, without joins
  let val : QueryClause → Option Value := fun c => if c = .tables then v else none
  let T : QueryClause → List Token := fun c => if c = .tables then ts else []
  have hT : ∀ c, Stands c (val c) (T c) := by
    intro c
    by_cases hc : c = .tables
    · subst hc
      exact h
    · simp only [val, T, if_neg hc]
      exact .absent
  have htokens : T .tables ++ (joinKinds.map .join).flatMap T = ts := by
    simp [T, List.flatMap_map]
  have htake := fromClause_parses (n := n) hT (fun _ _ => rfl) (by rwa [htokens])
  rw [htokens] at htake
  refine htake.mono (fun _ => id) ?_
  rintro o ⟨es, hes, he⟩
  have hechoes := EntriesOf.echoes_all he
  have hclauses : (QueryClause.tables :: joinKinds.map .join).flatMap
      (fun c => (val c).toList.map (Value.text c.key, ·)) = v.toList.map (.text "from", ·) := by
    simp [val, joinKinds, QueryClause.key]
  rw [hclauses] at hechoes
  exact ⟨es, hes, hechoes⟩

/-- The tokens of the tables of a deletion. -/
inductive UsingWritten : Option (List Value) → List Token → Prop
  | absent : UsingWritten none []
  | present {vs : List Value} {tss : List (List Token)} : vs ≠ [] → List.Forall₂ Tabled vs tss →
      UsingWritten (some vs) (nameToken "USING" :: commaTokens tss)

/-- The clause of a list that is read item by item. -/
theorem items_agree {rs : List (Read Value)} {vs : List Value} (key : String) (hne : vs ≠ [])
    (h : List.Forall₂ Agrees rs vs) :
    AgreesMap (Syntax.Reading.optionalEntry key (if rs.isEmpty then none else
      some do return .list (← Syntax.visitAll rs))) [(.text key, .list vs)] := by
  have hempty : ¬ rs.isEmpty = true := by
    rw [List.isEmpty_iff]
    rintro rfl
    cases h
    exact hne rfl
  obtain ⟨ws, hws, hsame⟩ := Agrees.visitAll h
  rw [if_neg hempty]
  exact ⟨_, (hws.map (f := Value.list)).map, echoes_single (Value.same_list hsame)⟩

theorem using_takes {vs : Option (List Value)} {ts : List Token} (h : UsingWritten vs ts)
    (hn : ts.length ≤ n) :
    Takes (optional "using" (commas (table (nested n)))) ts (Closes 2) fun o =>
      AgreesMap (Syntax.Reading.optionalEntry "using" (if ((o.getD []).map Syntax.Tree.read).isEmpty
        then none else some do return .list (← Syntax.visitAll ((o.getD []).map Syntax.Tree.read))))
        (vs.toList.map (.text "using", .list ·)) := by
  cases h with
  | absent =>
    exact optional_absent (fun o ho => ho.isKeyword (by decide)) ⟨[], .pure [], echoes_nil⟩
  | @present vs tss hne h =>
    simp only [List.length_cons] at hn
    have hitems : List.Forall₂ (fun v ts => Takes (table (nested n)) ts (OrSign "," (Closes 2))
        fun t => Agrees t.read v) vs tss := by
      refine (forall₂_mem h).imp fun v us ⟨hv, hus⟩ => ?_
      have := length_le_commaTokens hus
      exact (hv.takes n (by omega)).before fun _ ho => ho.tableEnd
    refine optional_takes rfl ((commas_takes (fun _ ho => ho.isSymbol (by decide)) hne hitems).mono
      (fun _ => id) fun ts hts => ?_)
    exact items_agree "using" hne (List.forall₂_map_left_iff.mpr hts.flip)

/-- The tokens of what is returned. -/
inductive ReturningWritten : Option Returned → List Token → Prop
  | absent : ReturningWritten none []
  | present {r : Returned} {tss : List (List Token)} : List.Forall₂ Selected r.items tss →
      ReturningWritten (some r) (nameToken "RETURNING" :: commaTokens tss)

theorem returning_takes {r : Option Returned} {ts : List Token} (h : ReturningWritten r ts)
    (hn : ts.length ≤ n) :
    Takes (returning (nested n)) ts (· = none) fun t =>
      AgreesMap (Syntax.Reading.returning t.read)
        (r.toList.map fun r => (.text "returning", .list r.items)) := by
  cases h with
  | absent =>
    refine (optional_none (p := selectItems (nested n)) ?_).map ?_
    · rintro _ rfl
      rfl
    · rintro _ rfl
      exact ⟨[], .pure [], echoes_nil⟩
  | @present r tss h =>
    simp only [List.length_cons] at hn
    have hend : ∀ o : Option Token, o = none → Closes 0 o := by
      rintro _ rfl _ ⟨⟩
    have hitems := (selectItems_take r.ne_nil h (n := n) (by omega)).before hend
    have hoptional : Takes (optional "returning" (selectItems (nested n)))
        (nameToken "RETURNING" :: commaTokens tss) (· = none)
        fun o => ∃ is, o = some is ∧ List.Forall₂ (fun v i => Agrees i.read v) r.items is :=
      optional_takes rfl (hitems.mono (fun _ => id) fun is his => ⟨is, rfl, his⟩)
    refine hoptional.map ?_
    rintro _ ⟨is, rfl, his⟩
    rw [Option.getD_some, read_ofList]
    exact items_agree "returning" r.ne_nil (List.forall₂_map_left_iff.mpr his.flip)

end Conditions

section Conflicts

variable {n : Nat}

def entriesOf (cs : List (String × Value)) : Entries := cs.map fun e => (.text e.1, e.2)

theorem ConflictTarget.takes (t : ConflictTarget) (hn : t.tokens.length ≤ n) :
    Takes (conflictTarget (nested n)) t.tokens (· = some (nameToken "DO")) fun o =>
      Reads ((o.map Syntax.Tree.read).getD (pure Syntax.Reading.anyConflict))
        (entriesOf t.clauses) := by
  cases t with
  | columns c =>
    simp only [tokens, Columns.tokens, List.length_append, List.length_cons, List.length_nil] at hn
    refine .isAtSymbol rfl ((parenExprs_take (by simpa using c.ne_nil) c.expressed (by omega)).map
      fun es hes => ?_)
    exact (values_reads_of hes).map (f := fun vs => Syntax.Reading.entry "on-conflict" (.list vs))
  | any =>
    refine .notAtSymbol (by rintro _ rfl; rfl) (.noKeyword (by rintro _ rfl; rfl) (.pure ?_))
    exact .pure _
  | constraint name hname =>
    refine .notAtSymbol (fun _ _ => rfl)
      (.withKeyword rfl (.keyword rfl ((name_takes name).map ?_)))
    rintro _ rfl
    exact .pure _

theorem ConflictTarget.echoes_self (t : ConflictTarget) :
    (entriesOf t.clauses).Echoes (entriesOf t.clauses) := by
  have hempty : (Value.list []).same (.list []) = true := rfl
  cases t with
  | columns c => exact echoes_single c.same_self
  | any => exact echoes_single hempty
  | constraint name =>
    exact (echoes_single hempty).append (echoes_single (Value.same_text_self name))

theorem ConflictAction.Written.takes {a : ConflictAction} {ts : List Token} (h : a.Written ts)
    (hn : ts.length ≤ n) :
    Takes (conflictAction (nested n)) (nameToken "DO" :: ts) (Closes 10) fun t =>
      AgreesMap t.read (entriesOf [a.clause]) := by
  cases h with
  | nothing =>
    exact .keyword rfl (.withKeyword rfl
      (.pure ⟨_, .pure _, echoes_single (Value.same_bool_self true)⟩))
  | @set a _ tss h =>
    simp only [List.length_cons] at hn
    refine .keyword rfl (.noKeyword (fun _ _ => rfl) ?_)
    refine Takes.keywords (.cons (rfl : isKeyword "update" (some (nameToken "UPDATE")) = true)
      (.cons (rfl : isKeyword "set" (some (nameToken "SET")) = true) .nil)) ?_
    refine (a.takes h (by omega)).andThen (fun fs hfs => ?_) fun _ ho => ho.mono (by decide)
    refine (optional_none fun o ho => ho.isKeyword (by decide)).map ?_
    rintro _ rfl
    exact ⟨_, hfs.map (f := Syntax.Reading.entry "do-update-set"), echoes_single a.same_self⟩
  | @setWhere a v hv es hes tss us h hus =>
    simp only [List.length_cons, List.length_append] at hn
    refine .keyword rfl (.noKeyword (fun _ _ => rfl) ?_)
    refine Takes.keywords (.cons (rfl : isKeyword "update" (some (nameToken "UPDATE")) = true)
      (.cons (rfl : isKeyword "set" (some (nameToken "SET")) = true) .nil)) ?_
    refine (a.takes h (by omega)).bind (fun fs hfs => ?_) ?_
    · have hwhere : Takes (whereClause (nested n)) (nameToken "WHERE" :: us) (Closes 10)
          fun o => ∃ e, o = some e ∧ Means e v :=
        optional_takes rfl (((nested_takes hus (by omega)).mono (fun _ ho => ho.ends)
          fun e he => ⟨e, rfl, he⟩))
      refine hwhere.map ?_
      rintro _ ⟨e, rfl, he⟩
      have hcondition : Reads (Syntax.Reading.condition "where" (some e.read))
          [(.text "where", v)] := he.visit.map (f := Syntax.Reading.entry "where")
      refine ⟨_, hfs.bind (hcondition.bind (.pure _)), echoes_single ?_⟩
      refine (echoes_perm ?_ hes.symm).same
      exact (echoes_single a.same_self).append (echoes_single hv.same_self)
    · rintro _ _ _ ⟨⟩
      decide

/-- The tokens of what an insertion does in a conflict. -/
inductive ConflictWritten : Option Conflict → List Token → Prop
  | absent : ConflictWritten none []
  | present {c : Conflict} {ts : List Token} : c.action.Written ts →
      ConflictWritten (some c)
        (nameToken "ON" :: nameToken "CONFLICT" :: (c.target.tokens ++ nameToken "DO" :: ts))

theorem conflict_takes {c : Option Conflict} {ts : List Token} (h : ConflictWritten c ts)
    (hn : ts.length ≤ n) :
    Takes (conflict (nested n)) ts (Closes 10) fun o =>
      AgreesMap ((o.map Syntax.Tree.read).getD (pure []))
        (entriesOf (c.elim [] Conflict.clauses)) := by
  cases h with
  | absent =>
    exact optional_absent (fun o ho => ho.isKeyword (by decide)) ⟨[], .pure [], echoes_nil⟩
  | @present c ts h =>
    simp only [List.length_cons, List.length_append] at hn
    refine optional_takes rfl (.keyword rfl ?_)
    refine (c.target.takes (by omega)).bind (fun t ht => ?_) fun _ _ => rfl
    refine (h.takes (by omega)).map fun a ha => ?_
    obtain ⟨fs, hfs, hsame⟩ := ha
    have htarget : Reads ((Syntax.Tree.ofOption t).read.getD (pure Syntax.Reading.anyConflict))
        (entriesOf c.target.clauses) := by
      rw [read_ofOption]
      exact ht
    refine ⟨entriesOf c.target.clauses ++ fs, ?_, ?_⟩
    · exact (htarget.bind (hfs.map (f := fun fs => entriesOf c.target.clauses ++ fs))).visit
    · have hclauses : entriesOf (Conflict.clauses c) =
          entriesOf c.target.clauses ++ entriesOf [c.action.clause] := List.map_append
      rw [Option.elim_some, hclauses]
      exact Entries.Echoes.append c.target.echoes_self hsame

end Conflicts

end Change

end SqlTree
