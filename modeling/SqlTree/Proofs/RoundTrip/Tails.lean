import SqlTree.Proofs.RoundTrip.Bodies

/-! What stands around the body of a query: common table expressions in front of it, the ordering
and the limits behind it. -/

namespace SqlTree

open Syntax (Read Reads)
open Lexer (nameToken)

namespace Syntax.Parser

variable {n : Nat} {val : QueryClause → Option Value} {T : QueryClause → List Token}

section Expressions

theorem ctes_present {recursively : Bool} {rs : List (Read Value)} {vs : List Value}
    (hval : val (.ctes recursively) = some (.list vs)) (h : List.Forall₂ Agrees rs vs) :
    AgreesOn val [.ctes recursively] (Reading.ctes recursively rs) := by
  obtain ⟨ws, hws, hs⟩ := Agrees.mapM h
  refine ⟨_, (hws.map (f := fun ws => Reading.entry (QueryClause.ctes recursively).key
    (.list ws))).visit, .single ?_⟩
  rw [hval]
  exact ⟨.list ws, rfl, Value.same_list hs⟩

theorem ctes_agrees {recursively : Bool} {vs : List Value} {cs : List (Tree .cte)}
    (hval : val (.ctes recursively) = some (.list vs))
    (h : List.Forall₂ (fun v c => Agrees c.read v) vs cs) :
    AgreesOn val [.ctes recursively] (Tree.ctes recursively (.ofList cs)).read := by
  rw [Tree.read, read_ofList]
  exact ctes_present hval (List.forall₂_map_left_iff.mpr h.flip)

theorem definitions_take {vs : List Value} {tss : List (List Token)} (hne : vs ≠ [])
    (h : List.Forall₂ Defined vs tss) (hn : (commaTokens tss).length ≤ n) :
    Takes (commas (cte (nested n))) (commaTokens tss) BodyStart
      (List.Forall₂ (fun v c => Agrees c.read v) vs) := by
  refine commas_takes (fun o ho => ho.isSymbol (by decide)) hne ((forall₂_mem h).imp ?_)
  rintro v us ⟨hv, hus⟩
  exact (hv.takes n (Nat.le_trans (length_le_commaTokens hus) hn)).before fun _ _ => trivial

theorem definitions_named {vs : List Value} {tss : List (List Token)} (hne : vs ≠ [])
    (h : List.Forall₂ Defined vs tss) (w : String) (o : Option Token) :
    isKeyword w (ahead (commaTokens tss) o) = false := by
  cases h with
  | nil => contradiction
  | cons hv =>
    obtain ⟨t, us, rfl⟩ := hv.named
    rw [commaTokens_cons]
    rfl

theorem ctes_absent {p : Nested} : Takes (ctes p) [] BodyStart (· = none) :=
  optional_absent (fun o ho => ho.isKeyword (by decide)) rfl

theorem ctes_take {recursively : Bool} {vs : List Value} {tss : List (List Token)} (hne : vs ≠ [])
    (hval : val (.ctes recursively) = some (.list vs)) (h : List.Forall₂ Defined vs tss)
    (hn : (commaTokens tss).length ≤ n) :
    Takes (ctes (nested n)) (nameToken "WITH" :: ((if recursively then [nameToken "RECURSIVE"]
        else []) ++ commaTokens tss)) BodyStart
      fun o => ∃ c, o = some c ∧ AgreesOn val [.ctes recursively] c.read := by
  have hitems : Takes (do return Tree.ctes recursively (.ofList (← commas (cte (nested n)))))
      (commaTokens tss) BodyStart
      fun c => ∃ d, some c = some d ∧ AgreesOn val [.ctes recursively] d.read :=
    (definitions_take hne h hn).map fun cs hcs => ⟨_, rfl, ctes_agrees hval hcs⟩
  cases recursively with
  | false => exact optional_takes rfl (.noKeyword (fun o _ => definitions_named hne h _ o) hitems)
  | true => exact optional_takes rfl (.withKeyword rfl hitems)

end Expressions

section Orderings

theorem orderClause_present {rs : List (Read Value)} {vs : List Value} (hne : rs ≠ [])
    (hval : val .order = some (.list vs)) (h : List.Forall₂ Agrees rs vs) :
    AgreesOn val [.order] (Reading.orderClause rs) := by
  have hempty : ¬ rs.isEmpty = true := by simpa using hne
  obtain ⟨ws, hws, hs⟩ := Agrees.visitAll h
  rw [Reading.orderClause, if_neg hempty]
  exact .present hval ⟨.list ws, hws.map, Value.same_list hs⟩

theorem orderClause_agrees {vs : List Value} {is : List (Tree .orderItem)} (hne : vs ≠ [])
    (hval : val .order = some (.list vs)) (h : List.Forall₂ (fun v i => Agrees i.read v) vs is) :
    AgreesOn val [.order] (Reading.orderClause (is.map Tree.read)) := by
  refine orderClause_present ?_ hval (List.forall₂_map_left_iff.mpr h.flip)
  rintro hnil
  obtain rfl := List.map_eq_nil_iff.mp hnil
  cases h
  exact hne rfl

theorem order_parses (h : Stands .order (val .order) (T .order)) (hn : (T .order).length ≤ n) :
    Takes (orderClause (nested n)) (T .order) (Closes 8)
      fun o => AgreesOn val [.order] (Reading.orderClause ((o.getD []).map Tree.read)) := by
  generalize hv : val .order = v at h
  generalize T .order = ts at h hn
  cases h with
  | absent => exact optional_absent (fun o ho => ho.isKeyword (by decide)) (.absent (by simpa))
  | present h =>
    cases h with
    | @order vs tss hne hvs =>
      simp only [List.length_cons] at hn
      have hitems : List.Forall₂ (fun v ts => Takes (orderItem (nested n)) ts
          (OrSign "," (Closes 8)) fun i => Agrees i.read v) vs tss := by
        refine (forall₂_mem hvs).imp fun v us ⟨hv, hus⟩ => ?_
        have := length_le_commaTokens hus
        exact hv.takes n (by omega)
      refine optional_takes rfl (.keyword rfl ?_)
      refine (commas_takes (fun o ho => ho.isSymbol (by decide)) hne
        hitems).mono (fun _ => id) fun is his => ?_
      exact orderClause_agrees hne hv his

end Orderings

section Limits

variable {v : Value} {us : List Token}

theorem limit_present {follow : Option Token → Prop} (hv : Expressible v) (h : Expressed v us)
    (hn : us.length < n) (hf : ∀ o, follow o → Ends 10 o) :
    Takes (nested n).expr us follow fun e => Agrees e.read.value v := by
  obtain ⟨m, rfl⟩ : ∃ m, n = m + 1 := ⟨n - 1, by omega⟩
  have he : Takes (nested (m + 1)).expr us (Ends 10) (Means · v) := h.takes m (by omega)
  exact he.mono hf fun e he => .of_reads he hv.same_self

theorem limitRest_takes (hv : Expressible v) (h : Expressed v us) (hn : us.length < n) :
    Takes (limitRest (nested n)) us (Closes 9) fun l => ∃ e, Agrees e.read.value v ∧ l = .limit e := by
  refine .notAtKeyword (fun o _ => (h.opens us.length (Nat.le_refl _)).isKeyword (by decide) o) ?_
  exact .peekSecondAny fun _ => (limit_present hv h hn fun _ ho => ho.ends).map fun e he => ⟨e, he, rfl⟩

theorem offsetRest_takes (hv : Expressible v) (h : Expressed v us) (hn : us.length < n) :
    Takes (offsetRest (nested n)) us (Closes 10)
      fun l => ∃ e, Agrees e.read.value v ∧ l = .offset e := by
  refine (limit_present hv h hn fun o (ho : Closes 10 o) => ho.ends).andThen (fun e he => ?_)
    fun _ ho => ho
  refine .noKeyword (fun _ ho => ho.isKeyword (by decide)) ?_
  exact .noKeyword (fun _ ho => ho.isKeyword (by decide)) (.pure ⟨e, he, rfl⟩)

/-- The readings of limits yield the entries of some clauses. -/
def LimitsRead (val : QueryClause → Option Value) (cs : List QueryClause)
    (rs : List (Read Entries)) : Prop :=
  ∃ ess, Reads (rs.mapM id) ess ∧ EntriesOf val cs ess.flatten

theorem LimitsRead.nil {cs : List QueryClause} (h : ∀ c ∈ cs, val c = none) :
    LimitsRead val cs [] :=
  ⟨[], .pure [], .absent h⟩

theorem LimitsRead.cons {c : QueryClause} {cs : List QueryClause} {r : Read Entries}
    {rs : List (Read Entries)} (h : AgreesOn val [c] r) (hs : LimitsRead val cs rs) :
    LimitsRead val (c :: cs) (r :: rs) := by
  obtain ⟨es, hes, he⟩ := h
  obtain ⟨ess, hess, hf⟩ := hs
  refine ⟨es :: ess, ?_, he.append hf⟩
  rw [List.mapM_cons]
  exact hes.bind hess.map

theorem LimitsRead.absent_cons {c : QueryClause} {cs : List QueryClause} {rs : List (Read Entries)}
    (hc : val c = none) (h : LimitsRead val cs rs) : LimitsRead val (c :: cs) rs := by
  obtain ⟨ess, hess, he⟩ := h
  have hnone : EntriesOf val [c] [] := .absent (by simpa)
  exact ⟨ess, hess, hnone.append he⟩

theorem limit_agrees {e : Expr} {v : Value} (hval : val .limit = some v)
    (h : Agrees e.read.value v) : AgreesOn val [.limit] (Tree.limit e).read := .present hval h

theorem offset_agrees {e : Expr} {v : Value} (hval : val .offset = some v)
    (h : Agrees e.read.value v) : AgreesOn val [.offset] (Tree.offset e).read := .present hval h

theorem fetch_absent {p : Nested} :
    Takes (optional "fetch" (fetchRest p)) [] (Closes 10) (· = none) :=
  optional_none fun o ho => ho.isKeyword (by decide)

theorem offset_parses (h : Stands .offset (val .offset) (T .offset))
    (hn : (T .offset).length ≤ n) :
    Takes (optional "offset" (offsetRest (nested n))) (T .offset) (Closes 10)
      fun o => LimitsRead val [.offset] (o.toList.map Tree.read) := by
  generalize hv : val .offset = v at h
  generalize T .offset = ts at h hn
  cases h with
  | absent => exact optional_absent (fun o ho => ho.isKeyword (by decide)) (.nil (by simpa))
  | present h =>
    cases h with
    | offset he hts =>
      refine optional_takes rfl ((offsetRest_takes he hts hn).mono (fun _ => id) ?_)
      rintro _ ⟨e, he, rfl⟩
      exact .cons (offset_agrees hv he) (.nil (by simp))

theorem limits_parse (hT : ∀ c, Stands c (val c) (T c)) (hn : (T .limit ++ T .offset).length ≤ n) :
    Takes (limits (nested n)) (T .limit ++ T .offset) (Closes 10)
      fun ls => LimitsRead val [.limit, .offset] (ls.map Tree.read) := by
  have hlimit := hT .limit
  have hoffset := hT .offset
  have hbehind : ∀ o, Closes 10 o → Closes 9 (ahead (T .offset) o) := by
    intro o ho
    have h : Closes 9 (ahead ([.offset].flatMap T) o) :=
      closes_ahead hT (by decide) (ho.mono (by decide))
    rwa [List.flatMap_singleton] at h
  rw [List.length_append] at hn
  generalize hv : val .limit = v at hlimit
  generalize T .limit = ts at hlimit hn ⊢
  cases hlimit with
  | present h =>
    cases h with
    | limit he hts =>
      rw [List.length_cons] at hn
      refine .withKeyword rfl ((limitRest_takes he hts (by omega)).bind ?_ hbehind)
      rintro _ ⟨e, he, rfl⟩
      exact (offset_parses hoffset (by omega)).map fun o ho => .cons (limit_agrees hv he) ho
  | absent =>
    rw [List.nil_append]
    refine .noKeyword (fun o ho => (hbehind o ho).isKeyword (by decide)) ?_
    clear hbehind
    generalize hw : val .offset = w at hoffset
    generalize T .offset = us at hoffset hn ⊢
    cases hoffset with
    | absent =>
      refine .noKeyword (fun o ho => ho.isKeyword (by decide)) (fetch_absent.map ?_)
      rintro _ rfl
      exact .nil (by simp [hv, hw])
    | present h =>
      cases h with
      | offset he hts =>
        simp only [List.length_cons, List.length_nil] at hn
        refine .withKeyword rfl ((offsetRest_takes he hts (by omega)).andThen ?_ fun _ ho => ho)
        rintro _ ⟨e, he, rfl⟩
        refine .noKeyword (fun o ho => ho.isKeyword (by decide)) (fetch_absent.map ?_)
        rintro _ rfl
        exact .absent_cons hv (.cons (offset_agrees hw he) (.nil (by simp)))

end Limits

end Syntax.Parser

end SqlTree
