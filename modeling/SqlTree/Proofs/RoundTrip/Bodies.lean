import SqlTree.Proofs.RoundTrip.Sources

/-! The bodies of queries: selections and set operations. -/

namespace SqlTree

open Syntax (SetOperator Reads)
open Lexer (nameToken)

namespace Syntax.Parser

variable {n : Nat} {val : QueryClause → Option Value} {T : QueryClause → List Token}

section Conditions

variable {c : QueryClause} {v : Value} {us : List Token} {follow : Option Token → Prop}

theorem condition_present (hc : val c = some v) (hv : Expressible v) (h : Expressed v us)
    (hn : us.length < n) (hf : ∀ o, follow o → Ends 10 o) :
    Takes (nested n).expr us follow
      fun e => AgreesOn val [c] (Reading.condition c.key (some e.read)) := by
  obtain ⟨m, rfl⟩ : ∃ m, n = m + 1 := ⟨n - 1, by omega⟩
  have he : Takes (nested (m + 1)).expr us (Ends 10) (Means · v) := h.takes m (by omega)
  refine he.mono hf fun e he => ?_
  exact .present hc (.visit (.of_reads he hv.same_self))

theorem where_parses (h : Stands .filter (val .filter) (T .filter)) (hn : (T .filter).length ≤ n) :
    Takes (whereClause (nested n)) (T .filter) (Closes 3)
      fun o => AgreesOn val [.filter] (Reading.condition "where" (o.map Tree.read)) := by
  generalize hv : val .filter = v at h
  generalize T .filter = ts at h hn
  cases h with
  | absent => exact optional_absent (fun o ho => ho.isKeyword (by decide)) (.absent (by simpa))
  | present h =>
    cases h with
    | filter he hts =>
      exact optional_takes rfl (condition_present hv he hts hn fun _ ho => ho.ends)

theorem having_parses (h : Stands .having (val .having) (T .having)) (hn : (T .having).length ≤ n) :
    Takes (optional "having" (nested n).expr) (T .having) (Closes 5)
      fun o => AgreesOn val [.having] (Reading.condition "having" (o.map Tree.read)) := by
  generalize hv : val .having = v at h
  generalize T .having = ts at h hn
  cases h with
  | absent => exact optional_absent (fun o ho => ho.isKeyword (by decide)) (.absent (by simpa))
  | present h =>
    cases h with
    | having he hts =>
      exact optional_takes rfl (condition_present hv he hts hn fun _ ho => ho.ends)

theorem groupClause_present {rs : List Operand} {vs : List Value} (hne : rs ≠ [])
    (hval : val .groups = some (.list vs)) (hvs : ∀ v ∈ vs, v.same v = true)
    (h : Reads (Operand.values rs) vs) : AgreesOn val [.groups] (Reading.groupClause rs) := by
  have hempty : ¬ rs.isEmpty = true := by simpa using hne
  rw [Reading.groupClause, if_neg hempty]
  exact .present hval (.of_reads h.map.visit (Value.same_list (List.forall₂_same.mpr hvs)))

theorem groupClause_agrees {vs : List Value} {es : List Expr} (hne : vs ≠ [])
    (hvs : ∀ v ∈ vs, Expressible v) (hval : val .groups = some (.list vs))
    (h : List.Forall₂ (fun v e => Means e v) vs es) :
    AgreesOn val [.groups] (Reading.groupClause (es.map Tree.read)) := by
  have hvalues : Reads (Operand.values (es.map Tree.read)) vs := by
    have h := Reading.values_reads h.flip
    rwa [read_ofList] at h
  refine groupClause_present ?_ hval (fun v hv => (hvs v hv).same_self) hvalues
  rintro hnil
  obtain rfl := List.map_eq_nil_iff.mp hnil
  cases h
  exact hne rfl

theorem groups_parse (h : Stands .groups (val .groups) (T .groups)) (hn : (T .groups).length ≤ n) :
    Takes (optional "group" (keyword "by" >>= fun _ => exprs (nested n))) (T .groups) (Closes 4)
      fun o => AgreesOn val [.groups] (Reading.groupClause ((o.getD []).map Tree.read)) := by
  generalize hv : val .groups = v at h
  generalize T .groups = ts at h hn
  cases h with
  | absent => exact optional_absent (fun o ho => ho.isKeyword (by decide)) (.absent (by simpa))
  | present h =>
    cases h with
    | @groups vs tss hne hvs htss =>
      simp only [List.length_cons] at hn
      obtain ⟨m, rfl⟩ : ∃ m, n = m + 1 := ⟨n - 1, by omega⟩
      have hitems : List.Forall₂ (fun v ts => Takes (nested (m + 1)).expr ts
          (OrSign "," (Closes 4)) (Means · v)) vs tss := by
        refine (forall₂_mem htss).imp fun v us ⟨hv, hus⟩ => ?_
        have := length_le_commaTokens hus
        exact Takes.before (hv.takes m (by omega)) fun _ ho => ho.ends
      refine optional_takes rfl (.keyword rfl ?_)
      refine (commas_takes (fun o ho => ho.isSymbol (by decide)) hne
        hitems).mono (fun _ => id) fun es hes => ?_
      exact groupClause_agrees hne hvs hv hes

end Conditions

section Selection

theorem distinct_takes {p : Nested} (d : Bool) :
    Takes (distinct p) (if d then [nameToken "DISTINCT"] else [])
      (fun o => ∀ w ∈ otherStarts, isKeyword w o = false)
      (· = if d then some Tree.distinctAll else none) := by
  cases d with
  | true => exact .withKeyword rfl (.noKeyword (fun _ ho => ho "on" (by decide)) (.pure rfl))
  | false =>
    refine .noKeyword (fun _ ho => ho "distinct" (by decide)) ?_
    exact .noKeyword (fun _ ho => ho "all" (by decide)) (.pure rfl)

theorem selected_starts {vs : List Value} {tss : List (List Token)} (hne : vs ≠ [])
    (h : List.Forall₂ Selected vs tss) (o : Option Token) (w : String) (hw : w ∈ otherStarts) :
    isKeyword w (ahead (commaTokens tss) o) = false := by
  cases h with
  | nil => contradiction
  | cons hv =>
    rw [commaTokens_cons, ahead_append]
    exact hv.starts _ w hw

theorem selectItems_take {vs : List Value} {tss : List (List Token)} (hne : vs ≠ [])
    (h : List.Forall₂ Selected vs tss) (hn : (commaTokens tss).length ≤ n) :
    Takes (selectItems (nested n)) (commaTokens tss) (Closes 0)
      (List.Forall₂ (fun v i => Agrees i.read v) vs) := by
  refine commas_takes (fun o ho => ho.isSymbol (by decide)) hne ((forall₂_mem h).imp ?_)
  rintro v us ⟨hv, hus⟩
  exact hv.takes n (Nat.le_trans (length_le_commaTokens hus) hn)

/-- The clauses of a selection behind its items. -/
def selectionTail : List QueryClause :=
  .tables :: joinKinds.map .join ++ [.filter, .groups, .having]

theorem select_reads {d : Bool} {vs : List Value} (hval : val (.select d) = some (.list vs))
    {mark : Option (Read (String × List Value))} {items : List (Read Value)}
    {sources : List (Read FromItem)} {test having : Option Operand} {groups : List Operand}
    (hmark : Reads (mark.getD (pure ("select", []))) ((QueryClause.select d).key, []))
    (hitems : List.Forall₂ Agrees items vs)
    (hsources : AgreesOn val (.tables :: joinKinds.map .join) (Reading.fromClause sources))
    (htest : AgreesOn val [.filter] (Reading.condition "where" test))
    (hgroups : AgreesOn val [.groups] (Reading.groupClause groups))
    (hhaving : AgreesOn val [.having] (Reading.condition "having" having)) :
    AgreesOn val (.select d :: selectionTail)
      (Reading.select mark items sources test groups having) := by
  obtain ⟨ws, hws, hs⟩ := Agrees.visitAll hitems
  obtain ⟨es₁, hes₁, h₁⟩ := hsources
  obtain ⟨es₂, hes₂, h₂⟩ := htest
  obtain ⟨es₃, hes₃, h₃⟩ := hgroups
  obtain ⟨es₄, hes₄, h₄⟩ := hhaving
  refine ⟨_, (hmark.bind (hws.bind (hes₁.bind (hes₂.bind (hes₃.bind hes₄.map))))).visit, ?_⟩
  have hselect : EntriesOf val [.select d]
      (Reading.entry (QueryClause.select d).key (.list ([] ++ ws))) := by
    refine .single ?_
    rw [hval]
    exact ⟨_, rfl, Value.same_list hs⟩
  have hall := (((hselect.append h₁).append h₂).append h₃).append h₄
  exact hall

/-- A selection is read from its tokens, behind its keyword. -/
theorem select_takes (hT : ∀ c, Stands c (val c) (T c))
    (hjoin : val .tables = none → ∀ kind, val (.join kind) = none) {d : Bool} {vs : List Value}
    {tss : List (List Token)} (hval : val (.select d) = some (.list vs)) (hne : vs ≠ [])
    (hvs : List.Forall₂ Selected vs tss)
    (hn : (commaTokens tss ++ selectionTail.flatMap T).length ≤ n) :
    Takes (select (nested n)) ((if d then [nameToken "DISTINCT"] else []) ++
        (commaTokens tss ++ selectionTail.flatMap T)) (Closes 5)
      fun s => AgreesOn val (.select d :: selectionTail) s.read := by
  have htail : selectionTail.flatMap T = (T .tables ++ (joinKinds.map .join).flatMap T) ++
      (T .filter ++ (T .groups ++ T .having)) := by
    simp [selectionTail]
  have hclose : ∀ (k : Nat) (cs : List QueryClause) o, k ≤ 5 → (∀ c ∈ cs, k < c.rank) → Closes 5 o →
      Closes k (ahead (cs.flatMap T) o) :=
    fun k cs o hk hcs ho => closes_ahead hT hcs (ho.mono hk)
  simp only [htail, List.length_append] at hn
  refine (distinct_takes d).bind (fun mark hmark => ?_) fun o _ => ?_
  · refine (selectItems_take hne hvs (by omega)).bind (fun items hitems => ?_) fun o ho =>
      hclose 0 selectionTail o (by decide) (by decide) ho
    rw [htail]
    refine (fromClause_parses hT hjoin (by simp only [List.length_append]; omega)).bind
      (fun sources hsources => ?_) fun o ho => ?_
    · refine (where_parses (hT _) (by omega)).bind (fun test htest => ?_) fun o ho => ?_
      · refine (groups_parse (hT _) (by omega)).bind (fun groups hgroups => ?_) fun o ho => ?_
        · refine (having_parses (hT _) (by omega)).map fun having hhaving => ?_
          have hfirst : Reads ((mark.map Tree.read).getD (pure ("select", [])))
              ((QueryClause.select d).key, []) := by
            subst hmark
            cases d <;> exact Reads.pure _
          have hreads : List.Forall₂ Agrees (items.map Tree.read) vs :=
            List.forall₂_map_left_iff.mpr hitems.flip
          have h := select_reads hval hfirst hreads hsources htest hgroups hhaving
          rw [Tree.read]
          simp only [read_ofList, read_ofOption]
          exact h
        · have h := hclose 4 [.having] o (by decide) (by decide) ho
          simpa using h
      · have h := hclose 3 [.groups, .having] o (by decide) (by decide) ho
        simpa using h
    · have h := hclose 2 [.filter, .groups, .having] o (by decide) (by decide) ho
      simpa using h
  · intro w hw
    rw [ahead_append]
    exact selected_starts hne hvs _ w hw

end Selection

section Operations

/-- The tree is read as the same map, entry by entry. -/
def BranchRead (v : Value) (b : Tree .body) : Prop := ∃ es, v = .map es ∧ AgreesMap b.read es

/-- What the tree of a chain of branches is read as: one branch, or one operation on all of them. -/
inductive ChainRead (op : SetOperator) : List Value → Tree .body → Prop
  | branch {v : Value} {b : Tree .body} : (∀ u, v ≠ .map [(.text op.clause, u)]) →
      BranchRead v b → ChainRead op [v] b
  | operation {vs ws : List Value} {b : Tree .body} :
      Reads b.read (Reading.entry op.clause (.list ws)) →
      List.Forall₂ (fun w v => w.same v = true) ws vs → 2 ≤ vs.length → ChainRead op vs b

/-- On the left, an operation of the same kind takes the next branch in. -/
theorem ChainRead.more {op : SetOperator} {vs : List Value} {w : Value} {b c : Tree .body}
    (hb : ChainRead op vs b) (hc : BranchRead w c) :
    ChainRead op (vs ++ [w]) (.operation op b c) := by
  obtain ⟨fs, rfl, ys, hys, hfs⟩ := hc
  suffices h : ∃ xs ws, Reads b.read xs ∧
      Reading.combine op.clause xs ys = Reading.entry op.clause (.list (ws ++ [.map ys])) ∧
      List.Forall₂ (fun w v => w.same v = true) ws vs ∧ 1 ≤ vs.length by
    obtain ⟨xs, ws, hxs, hcombine, hs, hlen⟩ := h
    suffices hread : Reads (Tree.read (.operation op b c))
        (Reading.entry op.clause (.list (ws ++ [.map ys]))) from
      .operation hread (List.rel_append hs (.cons hfs.same .nil)) (by simpa)
    rw [← hcombine]
    exact (hxs.bind (f := fun l => do return Reading.combine op.clause l (← c.read)) hys.map).visit
  cases hb with
  | @branch _ _ halone hb =>
    obtain ⟨es, rfl, xs, hxs, hes⟩ := hb
    refine ⟨xs, [.map xs], hxs, ?_, .cons hes.same .nil, Nat.le_refl 1⟩
    rw [Reading.combine.eq_def]
    split
    · next k branches =>
      have hk : k ≠ op.clause := by
        rintro rfl
        obtain ⟨u, rfl⟩ := Value.eq_of_same_map hes.same
        exact halone u rfl
      rw [if_neg hk]
      rfl
    · rfl
  | operation hws hs hlen =>
    exact ⟨_, _, hws, by simp [Reading.combine, Reading.entry], hs, Nat.le_of_succ_le hlen⟩

theorem setOperator_takes {op : SetOperator} (hop : op ≠ .intersect) :
    Takes setOperator (operatorTokens op) BodyStart (· = some op) := by
  cases op with
  | intersect => contradiction
  | union =>
    refine .withKeyword rfl (.noKeyword (fun _ ho => ho.isKeyword (by decide)) ?_)
    exact .noKeyword (fun _ ho => ho.isKeyword (by decide)) (.pure rfl)
  | unionAll => exact .withKeyword rfl (.withKeyword rfl (.pure rfl))
  | except =>
    refine .noKeyword (fun _ _ => rfl) (.withKeyword rfl ?_)
    exact .noKeyword (fun _ ho => ho.isKeyword (by decide)) (.pure rfl)
  | exceptAll =>
    exact .noKeyword (fun _ _ => rfl) (.withKeyword rfl (.withKeyword rfl (.pure rfl)))

theorem setOperator_absent : Takes setOperator [] (Closes 7) (· = none) := by
  refine .noKeyword (fun _ ho => ho.isKeyword (by decide)) ?_
  exact .noKeyword (fun _ ho => ho.isKeyword (by decide)) (.pure rfl)

theorem intersectionFrom_absent {p : Nested} {post : Tree .body → Prop} {b : Tree .body}
    (hb : post b) : Takes (intersectionFrom p b) [] (Closes 6) post :=
  Iterates.takes (.stop (.noKeyword (fun _ ho => ho.isKeyword (by decide)) (.pure rfl)) hb)

theorem operatorTokens_rank (op : SetOperator) (us : List Token) {k : Nat}
    (hk : k < if op = .intersect then 6 else 7) (o : Option Token) :
    Closes k (ahead (operatorTokens op ++ us) o) := by
  cases op <;>
  · rintro _ ⟨⟩
    exact hk

/-- Branches follow what was read so far one by one. -/
theorem branches_take {op : SetOperator} {step : Tree .body → Parser (Option (Tree .body))} {k : Nat}
    (hk : k < if op = .intersect then 6 else 7) {vs done : List Value} {tss : List (List Token)}
    {b : Tree .body} (hnone : ∀ b, Takes (step b) [] (Closes 7) (· = none))
    (hsome : List.Forall₂ (fun v ts => ∀ b, Takes (step b) (operatorTokens op ++ ts) (Closes k)
      fun o => ∃ c, o = some (.operation op b c) ∧ BranchRead v c) vs tss)
    (hb : ChainRead op done b) :
    Takes (iterate step b) (tss.flatMap (operatorTokens op ++ ·)) (Closes 7)
      (ChainRead op (done ++ vs)) := by
  refine Iterates.takes ?_
  induction hsome generalizing done b with
  | nil =>
    refine .stop (hnone b) ?_
    rwa [List.append_nil]
  | @cons v ts vs tss hv _ ih =>
    rw [List.flatMap_cons]
    refine .again (Closes k) (ChainRead op (done ++ [v])) (by cases op <;> simp [operatorTokens])
      ((hv b).mono (fun _ => id) ?_) ?_ fun o ho => ?_
    · rintro _ ⟨c, rfl, hc⟩
      exact ⟨_, rfl, hb.more hc⟩
    · intro c hc
      have h := ih hc
      rwa [List.append_assoc] at h
    · cases tss with
      | nil => exact ho.mono (by split at hk <;> omega)
      | cons us tss =>
        rw [List.flatMap_cons, List.append_assoc]
        exact operatorTokens_rank op _ hk o

theorem unions_absent (p : Nested) (b : Tree .body) : Takes (do
    match ← setOperator with
    | some op => return some (Tree.operation op b (← bodyTerm p))
    | none => return none) [] (Closes 7) (· = none) :=
  setOperator_absent.andThen (by rintro _ rfl; exact .pure rfl) fun _ ho => ho

/-- A set operation is read from its branches. -/
theorem operation_takes {op : SetOperator} {v w : Value} {vs : List Value} {ts us : List Token}
    {tss : List (List Token)} (halone : ∀ u, v ≠ .map [(.text op.clause, u)]) (hv : Branched v ts)
    (hw : Branched w us) (hvs : List.Forall₂ Branched vs tss)
    (hn : (ts ++ (us :: tss).flatMap (operatorTokens op ++ ·)).length ≤ n) :
    Takes (bodyPrimary (nested n) >>= bodyFrom (nested n))
      (ts ++ (us :: tss).flatMap (operatorTokens op ++ ·)) (Closes 7)
      (ChainRead op (v :: w :: vs)) := by
  have hlen : ∀ xs ∈ us :: tss, xs.length ≤ n := by
    intro xs hxs
    have := length_le_flatMap hxs (operatorTokens op)
    rw [List.length_append] at hn
    omega
  have hbranches : List.Forall₂ (fun v ts => Branched v ts ∧ ts.length ≤ n) (w :: vs) (us :: tss) :=
    (forall₂_mem (.cons hw hvs)).imp fun _ _ ⟨h, hmem⟩ => ⟨h, hlen _ hmem⟩
  refine (hv.takes (by rw [List.length_append] at hn; omega)).bind (fun b hb => ?_) fun o ho => ?_
  · have hone : ChainRead op [v] b := .branch halone hb
    by_cases hop : op = .intersect
    · subst hop
      refine (branches_take (k := 5) (by decide) (fun b => ?_) (hbranches.imp ?_) hone).andThen
        (fun c hc => ?_) fun _ ho => ho
      · exact .noKeyword (fun _ ho => ho.isKeyword (by decide)) (.pure rfl)
      · rintro x xs ⟨hx, hxs⟩ b
        exact .withKeyword rfl ((hx.takes hxs).map fun c hc => ⟨c, rfl, hc⟩)
      · exact Iterates.takes (.stop (unions_absent _ c) hc)
    · refine (intersectionFrom_absent hone).nothing_bind (fun c hc => ?_) fun o ho => ?_
      · refine branches_take (k := 6) (by rw [if_neg hop]; decide) (fun b => unions_absent _ b)
          (hbranches.imp ?_) hc
        rintro x xs ⟨hx, hxs⟩ b
        refine (setOperator_takes hop).bind ?_ fun o _ => hx.starts o
        rintro _ rfl
        have hterm : Takes (bodyTerm (nested n)) xs (Closes 6) (BranchRead x) :=
          (hx.takes hxs).andThen (fun c hc => intersectionFrom_absent hc) fun o ho =>
            ho.mono (by decide)
        exact hterm.map fun c hc => ⟨c, rfl, hc⟩
      · rw [List.flatMap_cons, List.append_assoc]
        exact operatorTokens_rank op _ (by rw [if_neg hop]; decide) o
  · rw [List.flatMap_cons, List.append_assoc]
    exact operatorTokens_rank op _ (by split <;> decide) o

end Operations

end Syntax.Parser

end SqlTree
