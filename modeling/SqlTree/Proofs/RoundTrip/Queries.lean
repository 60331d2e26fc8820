import SqlTree.Proofs.RoundTrip.Tails

/-! Whole queries. Their clauses are written in one fixed order and read back from it. -/

namespace SqlTree

open Syntax (Read Reads)
open Lexer (Spells nameToken)
open Render (Gives parenTokens)
open Syntax.Parser

namespace QueryClause

/-- The clauses in front of the body, in it, and behind it, in the order in which they are
written. -/
def withs : List QueryClause := [.ctes false, .ctes true]

def operations : List QueryClause :=
  [.operation .intersect, .operation .union, .operation .unionAll, .operation .except,
   .operation .exceptAll]

def bodies : List QueryClause := operations ++ (.select false :: .select true :: selectionTail)

def tails : List QueryClause := [.order, .limit, .offset]

def all : List QueryClause := withs ++ (bodies ++ tails)

theorem mem_all (c : QueryClause) : c ∈ all := by
  cases c with
  | ctes r => cases r <;> decide
  | operation op => cases op <;> decide
  | select d => cases d <;> decide
  | join kind => cases kind <;> decide
  | _ => decide

theorem key_injective {c d : QueryClause} (h : c.key = d.key) : c = d := by
  have hall : ∀ c ∈ all, ∀ d ∈ all, c.key = d.key → c = d := by decide
  exact hall c (mem_all c) d (mem_all d) h

theorem key_mem_order (c : QueryClause) : c.key ∈ Clause.order := by
  have hall : ∀ c ∈ all, c.key ∈ Clause.order := by decide
  exact hall c (mem_all c)

/-- The clause of a query with this key. -/
def ofKey? (k : String) : Option QueryClause := all.find? (·.key = k)

theorem key_of_ofKey? {k : String} {c : QueryClause} (h : ofKey? k = some c) : c.key = k := by
  simpa using List.find?_some h

theorem ofKey?_key (c : QueryClause) : ofKey? c.key = some c := by
  have hall : ∀ c ∈ all, ofKey? c.key = some c := by decide
  exact hall c (mem_all c)

theorem filterMap_ofKey? : Clause.order.filterMap ofKey? = all := by
  decide

end QueryClause

open QueryClause

/-- The clauses that stand in one query, with their tokens. -/
structure Laid (val : QueryClause → Option Value) (T : QueryClause → List Token) : Prop where
  stands : ∀ c, Stands c (val c) (T c)
  ctes : ∀ recursively, val (.ctes recursively) = none ∨ val (.ctes !recursively) = none
  body : (∃ d, (val (.select d)).isSome ∧ val (.select !d) = none ∧
      (∀ op, val (.operation op) = none) ∧
      (val .tables = none → ∀ kind, val (.join kind) = none)) ∨
    ∃ op, (val (.operation op)).isSome ∧ ∀ c, c ≠ .operation op → c.isAround = false → val c = none

section Presence

variable {val : QueryClause → Option Value} {T : QueryClause → List Token}

/-- Missing clauses have no tokens. -/
theorem flatMap_present (hT : ∀ c, Stands c (val c) (T c)) (cs : List QueryClause) :
    (cs.filter fun c => (val c).isSome).flatMap T = cs.flatMap T := by
  induction cs with
  | nil => rfl
  | cons c cs ih =>
    cases hc : val c with
    | none =>
      have hnil : T c = [] := by
        have h := hT c
        rw [hc] at h
        exact h.eq_nil
      rw [List.filter_cons_of_neg (by simp [hc]), List.flatMap_cons, hnil, ih]
      rfl
    | some v =>
      rw [List.filter_cons_of_pos (by simp [hc]), List.flatMap_cons, List.flatMap_cons, ih]

theorem EntriesOf.of_filter {cs : List QueryClause} {es : Entries}
    (h : EntriesOf val (cs.filter fun c => (val c).isSome) es) : EntriesOf val cs es := by
  induction cs generalizing es with
  | nil => exact h
  | cons c cs ih =>
    cases hc : val c with
    | none =>
      rw [List.filter_cons_of_neg (by simp [hc])] at h
      have hnone : EntriesOf val [c] [] := .absent (by simpa)
      exact hnone.append (ih h)
    | some v =>
      rw [List.filter_cons_of_pos (by simp [hc])] at h
      obtain ⟨_, hess, rfl⟩ := h
      cases hess with
      | cons he hess => exact (EntriesOf.single he).append (ih ⟨_, hess, rfl⟩)

theorem EntriesOf.filter {cs : List QueryClause} {es : Entries} (h : EntriesOf val cs es) :
    EntriesOf val (cs.filter fun c => (val c).isSome) es := by
  obtain ⟨_, hess, rfl⟩ := h
  induction hess with
  | nil => exact ⟨[], .nil, rfl⟩
  | @cons c es cs ess he _ ih =>
    cases hc : val c with
    | none =>
      rw [hc] at he
      obtain rfl : es = [] := he
      rwa [List.filter_cons_of_neg (by simp [hc])]
    | some v =>
      rw [List.filter_cons_of_pos (by simp [hc])]
      exact (EntriesOf.single he).append ih

/-- Only the clauses that are present matter. -/
theorem AgreesOn.of_present {cs ds : List QueryClause} {r : Read Entries}
    (heq : (cs.filter fun c => (val c).isSome) = ds.filter fun c => (val c).isSome)
    (h : AgreesOn val cs r) : AgreesOn val ds r := by
  obtain ⟨es, hes, he⟩ := h
  refine ⟨es, hes, .of_filter ?_⟩
  rw [← heq]
  exact he.filter

theorem flatMap_of_present (hT : ∀ c, Stands c (val c) (T c)) {cs ds : List QueryClause}
    (heq : (cs.filter fun c => (val c).isSome) = ds.filter fun c => (val c).isSome) :
    cs.flatMap T = ds.flatMap T := by
  rw [← flatMap_present hT cs, heq, flatMap_present hT ds]

theorem present_selection {d : Bool} (hother : val (.select !d) = none)
    (hop : ∀ op, val (.operation op) = none) :
    ((.select d :: selectionTail).filter fun c => (val c).isSome) =
      bodies.filter fun c => (val c).isSome := by
  have hnil : (operations.filter fun c => (val c).isSome) = [] := by simp [operations, hop]
  rw [bodies, List.filter_append, hnil, List.nil_append]
  cases d with
  | false =>
    have hother : val (.select true) = none := hother
    simp [List.filter_cons, hother]
  | true =>
    have hother : val (.select false) = none := hother
    simp [List.filter_cons, hother]

theorem present_operation {op : Syntax.SetOperator} (hop : (val (.operation op)).isSome)
    (hother : ∀ c, c ≠ .operation op → c.isAround = false → val c = none) :
    ([.operation op].filter fun c => (val c).isSome) = bodies.filter fun c => (val c).isSome := by
  have haround : ∀ c ∈ bodies, c.isAround = false := by decide
  have hsame : (bodies.filter fun c => (val c).isSome) = bodies.filter (· = .operation op) := by
    refine List.filter_congr fun c hc => ?_
    by_cases hcop : c = .operation op
    · subst hcop
      simp [hop]
    · simp [hcop, hother c hcop (haround c hc)]
  rw [hsame, List.filter_cons_of_pos (by simpa using hop), List.filter_nil]
  cases op <;> decide

end Presence

section Keys

variable {val : QueryClause → Option Value} {cs : List QueryClause} {es : Entries}

theorem EntriesOf.mem_key (h : EntriesOf val cs es) {e : Value × Value} (he : e ∈ es) :
    ∃ c ∈ cs, ∃ v w, val c = some v ∧ e = (.text c.key, w) ∧ w.same v = true := by
  obtain ⟨ess, hess, rfl⟩ := h
  induction hess with
  | nil => cases he
  | @cons c es cs ess hc _ ih =>
    rw [List.flatten_cons] at he
    rcases List.mem_append.mp he with he | he
    · cases hv : val c with
      | none =>
        rw [hv] at hc
        obtain rfl : es = [] := hc
        cases he
      | some v =>
        rw [hv] at hc
        obtain ⟨w, rfl, hw⟩ := hc
        exact ⟨c, by simp, v, w, hv, List.mem_singleton.mp he, hw⟩
    · obtain ⟨d, hd, hrest⟩ := ih he
      exact ⟨d, by simp [hd], hrest⟩

theorem EntriesOf.exists_entry (h : EntriesOf val cs es) {c : QueryClause} (hc : c ∈ cs) {v : Value}
    (hv : val c = some v) : ∃ w, (Value.text c.key, w) ∈ es := by
  obtain ⟨ess, hess, rfl⟩ := h
  induction hess with
  | nil => cases hc
  | @cons d es cs ess hd _ ih =>
    rw [List.flatten_cons]
    rcases List.mem_cons.mp hc with rfl | hc
    · rw [hv] at hd
      obtain ⟨w, rfl, -⟩ := hd
      exact ⟨w, List.mem_append_left _ (List.mem_singleton.mpr rfl)⟩
    · obtain ⟨w, hw⟩ := ih hc
      exact ⟨w, List.mem_append_right _ hw⟩

theorem EntriesOf.length_eq (h : EntriesOf val cs es) :
    es.length = (cs.filter fun c => (val c).isSome).length := by
  obtain ⟨ess, hess, rfl⟩ := h
  induction hess with
  | nil => rfl
  | @cons c es cs ess hc _ ih =>
    rw [List.flatten_cons, List.length_append, ih]
    cases hv : val c with
    | none =>
      rw [hv] at hc
      obtain rfl : es = [] := hc
      rw [List.filter_cons_of_neg (by simp [hv]), List.length_nil, Nat.zero_add]
    | some v =>
      rw [hv] at hc
      obtain ⟨w, rfl, -⟩ := hc
      rw [List.filter_cons_of_pos (by simp [hv]), List.length_singleton, List.length_cons,
        Nat.add_comm]

theorem EntriesOf.no_key (h : EntriesOf val cs es) {k : String} (hk : ∀ c ∈ cs, c.key ≠ k) :
    Entries.valueAt? es (.text k) = none := by
  rw [Entries.valueAt?, Option.map_eq_none_iff, List.find?_eq_none]
  intro e he hsame
  obtain ⟨c, hc, _, _, -, rfl, -⟩ := h.mem_key he
  exact hk c hc (by simpa using Value.same_text_iff.mp hsame)

end Keys

namespace Syntax.Parser

variable {n : Nat} {val : QueryClause → Option Value} {T : QueryClause → List Token}

section Bodies

theorem bodyFrom_absent {p : Nested} {b : Tree .body} {post : Tree .body → Prop} (hb : post b) :
    Takes (bodyFrom p b) [] (Closes 7) post :=
  (intersectionFrom_absent hb).andThen
    (fun c hc => Iterates.takes (.stop (unions_absent p c) hc)) fun _ ho => ho.mono (by decide)

/-- A selection without anything around it. -/
theorem selection_takes (hT : ∀ c, Stands c (val c) (T c)) {d : Bool}
    (hd : (val (.select d)).isSome) (hother : val (.select !d) = none)
    (hop : ∀ op, val (.operation op) = none)
    (hjoin : val .tables = none → ∀ kind, val (.join kind) = none)
    (hn : (bodies.flatMap T).length ≤ n) :
    Takes (bodyPrimary (nested n)) (bodies.flatMap T) (Closes 5)
      fun b => AgreesOn val bodies b.read := by
  have hpresent := present_selection hother hop
  rw [← flatMap_of_present hT hpresent, List.flatMap_cons] at hn ⊢
  obtain ⟨v, hv⟩ := Option.isSome_iff_exists.mp hd
  have hselect := hT (.select d)
  rw [hv] at hselect
  generalize T (.select d) = ts at hselect hn ⊢
  cases hselect with
  | present h =>
    cases h with
    | @select _ vs tss hne hvs =>
      simp only [List.length_append, List.length_cons] at hn
      rw [List.cons_append, List.append_assoc]
      refine .withKeyword rfl ((select_takes hT hjoin hv hne hvs ?_).map fun s hs => ?_)
      · rw [List.length_append]
        omega
      · exact AgreesOn.of_present hpresent hs

theorem bodies_take (h : Laid val T) (hn : (bodies.flatMap T).length ≤ n) :
    Takes (bodyPrimary (nested n) >>= bodyFrom (nested n)) (bodies.flatMap T) (Closes 7)
      fun b => AgreesOn val bodies b.read := by
  rcases h.body with ⟨d, hd, hother, hop, hjoin⟩ | ⟨op, hop, hother⟩
  · exact (selection_takes h.stands hd hother hop hjoin hn).andThen
      (fun b hb => bodyFrom_absent hb) fun _ ho => ho.mono (by decide)
  · have hpresent := present_operation hop hother
    rw [← flatMap_of_present h.stands hpresent, List.flatMap_singleton] at hn ⊢
    obtain ⟨v, hv⟩ := Option.isSome_iff_exists.mp hop
    have hoperation := h.stands (.operation op)
    rw [hv] at hoperation
    generalize T (.operation op) = ts at hoperation hn ⊢
    cases hoperation with
    | present hstated =>
      cases hstated with
      | operation _ halone hx hy hvs =>
        refine (operation_takes halone hx hy hvs hn).mono (fun _ => id) fun b hb => ?_
        refine AgreesOn.of_present hpresent ?_
        cases hb with
        | operation hws hs _ =>
          refine ⟨_, hws, .single ?_⟩
          rw [hv]
          exact ⟨_, rfl, Value.same_list hs⟩

theorem bodies_start (h : Laid val T) (o : Option Token) :
    BodyStart (ahead (bodies.flatMap T) o) := by
  rcases h.body with ⟨d, hd, hother, hop, -⟩ | ⟨op, hop, hother⟩
  · rw [← flatMap_of_present h.stands (present_selection hother hop), List.flatMap_cons]
    obtain ⟨v, hv⟩ := Option.isSome_iff_exists.mp hd
    have hselect := h.stands (.select d)
    rw [hv] at hselect
    cases hselect with
    | present h =>
      generalize T (.select d) = ts at h
      cases h
      exact .inl rfl
  · rw [← flatMap_of_present h.stands (present_operation hop hother), List.flatMap_singleton]
    obtain ⟨v, hv⟩ := Option.isSome_iff_exists.mp hop
    have hoperation := h.stands (.operation op)
    rw [hv] at hoperation
    cases hoperation with
    | present h =>
      generalize T (.operation op) = ts at h
      cases h with
      | operation _ _ hx =>
        rw [ahead_append]
        exact hx.starts _

end Bodies

section Queries

/-- The clauses around a body are none that it has itself. -/
theorem surround_eq {ctes body tail : Entries} (hbody : EntriesOf val bodies body)
    (htail : EntriesOf val tails tail) :
    Reading.surround ctes body tail = ctes ++ body ++ tail := by
  have htails : ∀ c ∈ bodies, ∀ d ∈ tails, c.key ≠ d.key := by decide
  have hwiths : ∀ k ∈ Clause.tableExpressions, ∀ c ∈ bodies, c.key ≠ k := by decide
  have hclash : (tail.any fun e => (Entries.valueAt? body e.1).isSome) = false := by
    rw [List.any_eq_false]
    intro e he
    obtain ⟨d, hd, _, _, -, rfl, -⟩ := htail.mem_key he
    simp [hbody.no_key fun c hc => htails c hc d hd]
  have hnested : Reading.hasTableExpressions body = false := by
    rw [Reading.hasTableExpressions, List.any_eq_false]
    intro k hk
    simp [Entries.hasField, Entries.field?, hbody.no_key (hwiths k hk)]
  rw [Reading.surround, hclash, hnested]
  simp

theorem query_reads {ctes : Option (Read Entries)} {body : Read Entries} {order : List (Read Value)}
    {limits : List (Read Entries)} (hctes : AgreesOn val withs (ctes.getD (pure [])))
    (hbody : AgreesOn val bodies body) (horder : AgreesOn val [.order] (Reading.orderClause order))
    (hlimits : LimitsRead val [.limit, .offset] limits) :
    AgreesOn val all (Reading.query ctes body order limits none) := by
  obtain ⟨xs, hxs, hx⟩ := hctes
  obtain ⟨ys, hys, hy⟩ := hbody
  obtain ⟨zs, hzs, hz⟩ := horder
  obtain ⟨ess, hess, he⟩ := hlimits
  have hlock : Reads (Reading.lockClause none) [] := .pure []
  refine ⟨_, (hxs.bind (hys.bind (hzs.bind (hess.bind hlock.map)))).visit, ?_⟩
  have htail : EntriesOf val tails (zs ++ ess.flatten ++ []) := by
    rw [List.append_nil]
    exact hz.append he
  rw [surround_eq hy htail, List.append_assoc]
  exact hx.append (hy.append htail)

/-- What was read behind the common table expressions of a query. -/
def RestRead (val : QueryClause → Option Value) (ctes : Option (Tree .ctes)) (q : Query) : Prop :=
  ∃ body order limits,
    q = .query (.ofOption ctes) body (.ofList order) (.ofList limits) none ∧
    AgreesOn val bodies body.read ∧
    AgreesOn val [.order] (Reading.orderClause (order.map Tree.read)) ∧
    LimitsRead val [.limit, .offset] (limits.map Tree.read)

theorem RestRead.agrees {ctes : Option (Tree .ctes)} {q : Query} (h : RestRead val ctes q)
    (hctes : AgreesOn val withs ((ctes.map Tree.read).getD (pure []))) :
    AgreesOn val all q.read := by
  obtain ⟨body, order, limits, rfl, hbody, horder, hlimits⟩ := h
  rw [Tree.read]
  simp only [read_ofList, read_ofOption]
  exact query_reads hctes hbody horder hlimits

/-- What stands behind the body of a query is read from its tokens. -/
theorem tails_take (hT : ∀ c, Stands c (val c) (T c)) (ctes : Option (Tree .ctes)) (body : Tree .body)
    (hn : (tails.flatMap T).length ≤ n) :
    Takes (do
        let order ← orderClause (nested n)
        let limits ← limits (nested n)
        return Tree.query (.ofOption ctes) body (.ofList (order.getD [])) (.ofList limits) (← lock))
      (tails.flatMap T) (Closes 10)
      fun q => ∃ order limits,
        q = Tree.query (.ofOption ctes) body (.ofList order) (.ofList limits) none ∧
        AgreesOn val [.order] (Reading.orderClause (order.map Tree.read)) ∧
        LimitsRead val [.limit, .offset] (limits.map Tree.read) := by
  have htail : tails.flatMap T = T .order ++ (T .limit ++ T .offset) := by simp [tails]
  rw [htail] at hn ⊢
  simp only [List.length_append] at hn
  refine (order_parses (hT _) (by omega)).bind (fun order horder => ?_) fun o ho => ?_
  · refine (limits_parse hT (by rw [List.length_append]; omega)).andThen
      (fun limits hlimits => ?_) fun _ ho => ho
    have hlock : Takes lock [] (Closes 10) (· = none) :=
      optional_absent (fun o ho => ho.isKeyword (by decide)) rfl
    refine hlock.map ?_
    rintro _ rfl
    exact ⟨order.getD [], limits, rfl, horder, hlimits⟩
  · have h : Closes 8 (ahead ([QueryClause.limit, .offset].flatMap T) o) :=
      closes_ahead hT (by decide) (ho.mono (by decide))
    simpa using h

theorem queryRest_eq (p : Nested) (ctes : Option (Tree .ctes)) :
    queryRest p ctes = (bodyPrimary p >>= bodyFrom p) >>= fun body => do
      let order ← orderClause p
      let limits ← limits p
      return .query (.ofOption ctes) body (.ofList (order.getD [])) (.ofList limits) (← lock) := by
  rw [bind_assoc]
  rfl

theorem rest_takes (h : Laid val T) (ctes : Option (Tree .ctes))
    (hn : ((bodies ++ tails).flatMap T).length ≤ n) :
    Takes (queryRest (nested n) ctes) ((bodies ++ tails).flatMap T) (Closes 10)
      (RestRead val ctes) := by
  rw [List.flatMap_append] at hn ⊢
  rw [List.length_append] at hn
  rw [queryRest_eq]
  refine (bodies_take h (by omega)).bind (fun body hbody => ?_) fun o ho =>
    closes_ahead h.stands (by decide) (ho.mono (by decide))
  refine (tails_take h.stands ctes body (by omega)).mono (fun _ => id) ?_
  rintro _ ⟨order, limits, rfl, horder, hlimits⟩
  exact ⟨body, order, limits, rfl, hbody, horder, hlimits⟩

theorem ctes_parse (h : Laid val T) (hn : (withs.flatMap T).length ≤ n) :
    Takes (ctes (nested n)) (withs.flatMap T) BodyStart
      fun o => AgreesOn val withs ((o.map Tree.read).getD (pure [])) := by
  by_cases hnone : ∀ recursively, val (.ctes recursively) = none
  · have hnil : withs.flatMap T = [] := by
      have hwiths : ∀ r, T (.ctes r) = [] := by
        intro r
        have hr := h.stands (.ctes r)
        rw [hnone] at hr
        exact hr.eq_nil
      simp [withs, hwiths]
    rw [hnil]
    refine ctes_absent.mono (fun _ => id) ?_
    rintro _ rfl
    exact .absent (by simp [withs, hnone])
  · obtain ⟨r, hr⟩ := not_forall.mp hnone
    obtain ⟨v, hv⟩ := Option.ne_none_iff_exists'.mp hr
    have hother : val (.ctes !r) = none := (h.ctes r).resolve_left hr
    have hpresent : ([.ctes r].filter fun c => (val c).isSome) =
        withs.filter fun c => (val c).isSome := by
      cases r with
      | false =>
        have hother : val (.ctes true) = none := hother
        simp [withs, List.filter_cons, hother]
      | true =>
        have hother : val (.ctes false) = none := hother
        simp [withs, List.filter_cons, hother]
    rw [← flatMap_of_present h.stands hpresent, List.flatMap_singleton] at hn ⊢
    have hctes := h.stands (.ctes r)
    rw [hv] at hctes
    generalize T (.ctes r) = ts at hctes hn ⊢
    cases hctes with
    | present hstated =>
      cases hstated with
      | ctes _ hne hvs =>
        simp only [List.length_cons, List.length_append] at hn
        refine (ctes_take hne hv hvs (by omega)).mono (fun _ => id) ?_
        rintro _ ⟨c, rfl, hc⟩
        exact AgreesOn.of_present hpresent hc

theorem rest_start (h : Laid val T) (o : Option Token) :
    BodyStart (ahead ((bodies ++ tails).flatMap T) o) := by
  rw [List.flatMap_append, ahead_append]
  exact bodies_start h _

theorem query_takes (h : Laid val T) (hn : (all.flatMap T).length ≤ n) :
    Takes (query (nested n)) (all.flatMap T) (Closes 10) fun q => AgreesOn val all q.read := by
  rw [all, List.flatMap_append] at hn ⊢
  rw [List.length_append] at hn
  refine (ctes_parse h (by omega)).bind (fun ctes hctes => ?_) fun o _ => rest_start h o
  exact (rest_takes h ctes (by omega)).mono (fun _ => id) fun q hq => hq.agrees hctes

theorem statement_takes (h : Laid val T) (hn : (all.flatMap T).length ≤ n) :
    Takes (statement (nested n)) (all.flatMap T) (Closes 10) fun q => AgreesOn val all q.read := by
  rw [all, List.flatMap_append] at hn ⊢
  rw [List.length_append] at hn
  have hstart := rest_start h
  refine (ctes_parse h (by omega)).bind (fun ctes hctes => ?_) fun o _ => hstart o
  refine .noKeyword (fun o _ => (hstart o).isKeyword (by decide)) ?_
  refine .noKeyword (fun o _ => (hstart o).isKeyword (by decide)) ?_
  refine .noKeyword (fun o _ => (hstart o).isKeyword (by decide)) ?_
  exact (rest_takes h ctes (by omega)).map fun q hq => hq.agrees hctes

/-- A query starts with the word of its common table expressions, or without any as its body. -/
theorem with_or_rest (h : Laid val T) (o : Option Token) :
    isKeyword "with" (ahead (all.flatMap T) o) = true ∨
      ahead (all.flatMap T) o = ahead ((bodies ++ tails).flatMap T) o := by
  have hwith : ∀ r o, T (.ctes r) = [] ∨ isKeyword "with" (ahead (T (.ctes r)) o) = true := by
    intro r o
    have hr := h.stands (.ctes r)
    generalize val (.ctes r) = v at hr
    generalize T (.ctes r) = ts at hr ⊢
    cases hr with
    | absent => exact .inl rfl
    | present hstated =>
      cases hstated with
      | ctes => exact .inr rfl
  have htokens : all.flatMap T =
      T (.ctes false) ++ (T (.ctes true) ++ (bodies ++ tails).flatMap T) := by
    simp [all, withs]
  rw [htokens, ahead_append]
  rcases hwith false (ahead (T (.ctes true) ++ (bodies ++ tails).flatMap T) o) with hfalse | hfalse
  · rw [hfalse, ahead_nil, ahead_append]
    rcases hwith true (ahead ((bodies ++ tails).flatMap T) o) with htrue | htrue
    · rw [htrue, ahead_nil]
      exact .inr rfl
    · exact .inl htrue
  · exact .inl hfalse

theorem all_start (h : Laid val T) (o : Option Token) : QueryStart (ahead (all.flatMap T) o) := by
  rcases with_or_rest h o with hwith | hrest
  · exact .inl hwith
  · rw [hrest]
    exact .inr (rest_start h o)

end Queries

end Syntax.Parser

end SqlTree
