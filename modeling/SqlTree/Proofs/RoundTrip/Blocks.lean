import SqlTree.Proofs.RoundTrip.Queries

/-! Canonical queries as blocks of clauses: each is rendered to tokens from which it is read. -/

namespace SqlTree

open Syntax (Read Reads)
open Lexer (Spells nameToken)
open Render (Gives parenTokens)
open Syntax.Parser
open QueryClause

/-- The value of a clause in a query. -/
def blockValue (es : List (QueryClause × Value)) (c : QueryClause) : Option Value :=
  (es.find? (·.1 = c)).map (·.2)

section Entries

variable {es : List (QueryClause × Value)}

theorem blockValue_mem {c : QueryClause} {v : Value} (h : blockValue es c = some v) :
    (c, v) ∈ es := by
  obtain ⟨e, he, rfl⟩ := Option.map_eq_some_iff.mp h
  obtain rfl : e.1 = c := by simpa using List.find?_some he
  exact List.mem_of_find?_eq_some he

theorem blockValue_isSome (c : QueryClause) :
    (blockValue es c).isSome = true ↔ c ∈ es.map Prod.fst := by
  rw [blockValue, Option.isSome_map, List.find?_isSome]
  simp

theorem block_mem {c : QueryClause} {v : Value} (h : blockValue es c = some v) :
    (.text c.key, v) ∈ blockEntries es :=
  List.mem_map_of_mem (f := fun e : QueryClause × Value => (Value.text e.1.key, e.2))
    (blockValue_mem h)

theorem field?_block (k : String) :
    Entries.field? (blockEntries es) k = (ofKey? k).bind (blockValue es) := by
  have hkey : ∀ e : QueryClause × Value,
      (Value.text e.1.key).same (.text k) = decide (ofKey? k = some e.1) := by
    intro e
    rw [Bool.eq_iff_iff, decide_eq_true_eq, Value.same_text_iff]
    refine ⟨fun h => ?_, fun h => ?_⟩
    · obtain rfl : e.1.key = k := by simpa using h
      exact ofKey?_key e.1
    · rw [key_of_ofKey? h]
  rw [Entries.field?, Entries.valueAt?, blockEntries, List.find?_map]
  have hpred : ((fun e : Value × Value => e.1.same (.text k)) ∘
      fun e : QueryClause × Value => (Value.text e.1.key, e.2)) =
        fun e => decide (ofKey? k = some e.1) := funext hkey
  rw [hpred]
  cases hk : ofKey? k with
  | none => simp
  | some c =>
    simp only [Option.some.injEq, Option.bind_some, blockValue, Option.map_map]
    have hsym : (fun e : QueryClause × Value => decide (c = e.1)) = fun e => decide (e.1 = c) :=
      funext fun e => decide_eq_decide.mpr eq_comm
    rw [hsym]
    rfl

/-- The entries of all clauses that are present make up the block. -/
theorem EntriesOf.echoes {cs : List QueryClause} {fs : Entries} (h : EntriesOf (blockValue es) cs fs)
    (hnodup : (es.map Prod.fst).Nodup) (hcs : cs.Nodup) (hmem : ∀ e ∈ es, e.1 ∈ cs) :
    fs.Echoes (blockEntries es) where
  length := by
    have hperm : (es.map Prod.fst).Perm (cs.filter fun c => (blockValue es c).isSome) := by
      refine (List.perm_ext_iff_of_nodup hnodup (hcs.filter _)).mpr fun c => ?_
      rw [List.mem_filter, blockValue_isSome]
      refine ⟨fun hc => ⟨?_, hc⟩, fun hc => hc.2⟩
      obtain ⟨e, he, rfl⟩ := List.mem_map.mp hc
      exact hmem e he
    rw [h.length_eq, ← hperm.length_eq, List.length_map, blockEntries, List.length_map]
  entry f hf := by
    obtain ⟨c, -, v, w, hv, rfl, hw⟩ := h.mem_key hf
    exact ⟨_, block_mem hv, Value.same_text_self _, hw⟩
  keys e he := by
    obtain ⟨x, hx, rfl⟩ := List.mem_map.mp he
    have hsome := (blockValue_isSome x.1).mpr (List.mem_map_of_mem hx)
    obtain ⟨v, hv⟩ := Option.isSome_iff_exists.mp hsome
    obtain ⟨w, hw⟩ := h.exists_entry (hmem x hx) hv
    exact ⟨_, hw, rfl⟩

theorem agreesMap_block (hnodup : (es.map Prod.fst).Nodup) {r : Read Entries}
    (h : AgreesOn (blockValue es) all r) : AgreesMap r (blockEntries es) := by
  obtain ⟨fs, hfs, hall⟩ := h
  exact ⟨fs, hfs, hall.echoes hnodup (by decide) fun e _ => mem_all e.1⟩

end Entries

section Writing

variable {es : List (QueryClause × Value)} {T : QueryClause → List Token}

theorem Syntax.Parser.Stated.ne_null {c : QueryClause} {v : Value} {ts : List Token} (h : Stated c v ts) :
    v ≠ .null := by
  cases h with
  | filter hv | having hv | limit hv | offset hv => exact hv.ne_null
  | tables =>
    rw [Syntax.FromItem.tableValue.eq_def]
    split <;> simp
  | _ => simp

theorem hasField_block (k : String) :
    Entries.hasField (blockEntries es) k = ((ofKey? k).bind (blockValue es)).isSome := by
  rw [Entries.hasField, field?_block]

/-- A map of clauses that are known is a clause map. -/
theorem form_of_known {clauses : List String} (hclauses : ∀ k ∈ Clause.order, k ∈ clauses)
    {fields : Entries} (h : ∀ e ∈ fields, ∃ k ∈ Clause.order, e.1 = .text k) :
    Form.ofEntries clauses fields = .clause := by
  have hother : ∀ k ∈ Clause.order, k ≠ Form.valueKey ∧ k ∉ Form.wrapperKeys := by decide
  have hwrap : ∀ k ∈ Form.wrapperKeys, Entries.hasField fields k = false := by
    intro k hk
    rw [← Bool.not_eq_true, Entries.hasField_iff]
    rintro ⟨e, he, heq⟩
    obtain ⟨l, hl, hel⟩ := h e he
    obtain rfl := Value.text.inj (heq.symm.trans hel)
    exact (hother k hl).2 hk
  have htyped : Form.isTypedEntries clauses fields = false := by
    unfold Form.isTypedEntries
    split
    · next key v =>
      obtain ⟨k, hk, hkey⟩ := h (.text key, v) (by simp)
      obtain rfl := Value.text.inj hkey
      simp [(hother key hk).1, hclauses key hk]
    · rfl
  have hraw := hwrap Form.rawKey (by decide)
  have hparam := hwrap Form.paramKey (by decide)
  have hlift := hwrap Form.liftKey (by decide)
  have hliteral := hwrap Form.literalKey (by decide)
  simp [Form.ofEntries, hraw, hparam, hlift, hliteral, htyped]

theorem checkKeys_known {fields : Entries} (h : ∀ e ∈ fields, ∃ k ∈ Clause.order, e.1 = .text k)
    (maxDepth depth : Int) (st : Entries) :
    Render.checkKeys (.inlining maxDepth depth st) fields = .ok () := by
  have hknown : Render.unknownKeys (Settings.inlining maxDepth depth st).registry.clauseKeys
      fields = [] := by
    have hmem : ∀ k ∈ Clause.order, Registry.standard.clauseOrder.contains k = true := by decide
    rw [Render.unknownKeys, List.map_eq_nil_iff, List.filter_eq_nil_iff]
    intro e he
    obtain ⟨k, hk, hkey⟩ := h e he
    have hk : ((Settings.inlining maxDepth depth st).registry.clauseKeys.contains k) = true :=
      hmem k hk
    simpa [hkey, Value.text?] using hk
  rw [Render.checkKeys, hknown]
  rfl

theorem block_known : ∀ e ∈ blockEntries es, ∃ k ∈ Clause.order, e.1 = .text k := by
  intro e he
  obtain ⟨x, -, rfl⟩ := List.mem_map.mp he
  exact ⟨x.1.key, key_mem_order x.1, rfl⟩

theorem Render.Gives.within {α : Type} {h : Nat}
    {m : Renderer → Settings → Render α} {a : α} (hm : Gives h m a) (st : Entries) :
    Gives h (fun r s => m r (s.within st)) a := by
  obtain ⟨k, hk⟩ := hm
  exact ⟨k, fun n hn maxDepth depth _ hd c => hk n hn maxDepth depth st hd c⟩

/-- The tokens of the clause with this key. -/
def keyTokens (T : QueryClause → List Token) (k : String) : List Token :=
  ((ofKey? k).map T).getD []

/-- A clause that is rendered to these tokens, to none where it is missing or null. -/
inductive Placed (c : QueryClause) : Option Value → List Token → Prop
  | absent : Placed c none []
  | null : Placed c (some .null) []
  | written {v : Value} {f : Fragment} {ts : List Token} : v ≠ .null →
      Gives (v.height + 1) (fun r s => Render.clause r s c.form c.key v) f →
      Spells f.inlineSql ts → Placed c (some v) ts

theorem Syntax.Parser.Stands.placed {c : QueryClause} {v : Option Value} {ts : List Token}
    (h : Stands c v ts) : Placed c v ts := by
  cases h with
  | absent => exact .absent
  | present h =>
    obtain ⟨f, hf, hs⟩ := h.writes
    exact .written h.ne_null hf hs

/-- A fragment that may be absent has these tokens, none where it is absent. -/
def MaySpell : Option Fragment → List Token → Prop
  | none, ts => ts = []
  | some f, ts => Spells f.inlineSql ts

theorem clauseOf_eq {fields : Entries} {v : Value} {key : String} {form : ClauseForm} (r : Renderer)
    (s : Settings) (hfield : Entries.field? fields key = some v)
    (hform : s.registry.clause? key = some form) (hne : v ≠ .null) :
    Render.clauseOf r s fields key = do
      let f ← Render.clause r s form key v
      return if f.isBlank then none else some f := by
  rw [Render.clauseOf, hfield, hform]
  cases v <;> first | rfl | contradiction

section Clauses

variable {fields : Entries} {k : String}

theorem clauseOf_absent (hfield : Entries.field? fields k = none ∨ Entries.field? fields k = some .null) :
    ∃ o, Gives (Value.map fields).height
        (fun r s => Render.clauseOf r (s.within fields) fields k) o ∧ MaySpell o [] := by
  refine ⟨none, .congr (.pure none) fun r m d st => ?_, rfl⟩
  rcases hfield with hfield | hfield <;> simp [Render.clauseOf, hfield]

theorem clauseOf_written {form : ClauseForm} {v : Value} {f : Fragment} {ts : List Token}
    (hfield : Entries.field? fields k = some v) (hform : Registry.standard.clause? k = some form)
    (hne : v ≠ .null) (hf : Gives (v.height + 1) (fun r s => Render.clause r s form k v) f)
    (hs : Spells f.inlineSql ts) :
    ∃ o, Gives (Value.map fields).height
        (fun r s => Render.clauseOf r (s.within fields) fields k) o ∧ MaySpell o ts := by
  refine ⟨some f, ?_, hs⟩
  obtain ⟨e, he, rfl⟩ := Option.map_eq_some_iff.mp hfield
  have hheight : e.2.height + 1 ≤ (Value.map fields).height :=
    Value.height_lt_of_entry (List.mem_of_find?_eq_some he)
  have hmap := (hf.mono hheight).within fields |>.map
    (f := fun f => if f.isBlank then none else some f)
  rw [Fragment.isBlank_eq_false hs, if_neg (by decide)] at hmap
  refine hmap.congr fun r m d st => ?_
  have hstandard : (Settings.inlining m d st).registry.clause? k = some form := hform
  exact clauseOf_eq r _ hfield hstandard hne

theorem clauseOf_gives (hT : ∀ c, Placed c (blockValue es c) (T c))
    (hfield : Entries.field? fields k = (ofKey? k).bind (blockValue es)) :
    ∃ o, Gives (Value.map fields).height
        (fun r s => Render.clauseOf r (s.within fields) fields k) o ∧
      MaySpell o (keyTokens T k) := by
  cases hk : ofKey? k with
  | none =>
    rw [hk] at hfield
    have htokens : keyTokens T k = [] := by simp [keyTokens, hk]
    rw [htokens]
    exact clauseOf_absent (.inl hfield)
  | some c =>
    obtain rfl := key_of_ofKey? hk
    rw [hk, Option.bind_some] at hfield
    have hc := hT c
    have htokens : keyTokens T c.key = T c := by simp [keyTokens, hk]
    rw [htokens]
    generalize blockValue es c = o at hfield hc
    generalize T c = ts at hc
    cases hc with
    | absent => exact clauseOf_absent (.inl hfield)
    | null => exact clauseOf_absent (.inr hfield)
    | written hne hf hs => exact clauseOf_written hfield c.clause?_key hne hf hs

end Clauses

/-- The fragments of clauses that are present have the tokens of all clauses. -/
theorem spells_present {U : String → List Token} {ks : List String} {os : List (Option Fragment)}
    (h : List.Forall₂ (fun k o => MaySpell o (U k)) ks os) :
    ∃ tss, List.Forall₂ (fun f ts => Spells (Fragment.inlineSql f) ts) os.reduceOption tss ∧
      tss.flatten = ks.flatMap U := by
  induction h with
  | nil => exact ⟨[], .nil, rfl⟩
  | @cons k o ks os ho _ ih =>
    obtain ⟨tss, htss, htokens⟩ := ih
    rw [List.flatMap_cons]
    cases o with
    | none =>
      have ho : U k = [] := ho
      exact ⟨tss, htss, by rw [ho, htokens, List.nil_append]⟩
    | some f => exact ⟨_, .cons ho htss, by rw [List.flatten_cons, htokens]⟩

/-- The statement is rendered to the tokens of its clauses in their order. -/
theorem statement_gives {fields : Entries} {U : String → List Token}
    (hkeys : ∀ maxDepth depth st,
      Render.checkKeys (.inlining maxDepth depth st) fields = .ok ())
    (hU : ∀ k ∈ Clause.order, ∃ o, Gives (Value.map fields).height
      (fun r s => Render.clauseOf r (s.within fields) fields k) o ∧ MaySpell o (U k))
    (hne : Clause.order.flatMap U ≠ []) (nested : Bool) :
    ∃ f, Gives (Value.map fields).height (fun r s => Render.statement r s nested fields) f ∧
      Spells f.inlineSql (parenTokens nested (Clause.order.flatMap U)) := by
  obtain ⟨os, hos⟩ := exists_forall₂ hU
  obtain ⟨tss, hspells, htokens⟩ := spells_present (hos.imp fun _ _ h => h.2)
  have hfragments : os.reduceOption ≠ [] := by
    intro hnil
    rw [hnil] at hspells
    cases hspells
    exact hne htokens.symm
  have hall := Fragment.spells_spaced hfragments hspells
  rw [htokens] at hall
  refine ⟨Fragment.parensIf nested (Fragment.joined " " os.reduceOption), ?_,
    Render.spells_parensIf hall nested⟩
  have hmap := (Gives.mapM (hos.imp fun _ _ h => h.1)).map
    (f := fun os => Fragment.parensIf nested (Fragment.joined " " os.reduceOption))
  refine hmap.congr fun r m d st => ?_
  simp only [Render.statement, hkeys]
  rfl

theorem flatMap_keyTokens (ks : List String) :
    ks.flatMap (keyTokens T) = (ks.filterMap ofKey?).flatMap T := by
  induction ks with
  | nil => rfl
  | cons k ks ih =>
    rw [List.flatMap_cons, ih]
    cases hk : ofKey? k <;> simp [keyTokens, hk]

theorem statement_writes (hT : ∀ c, Placed c (blockValue es c) (T c)) (hne : all.flatMap T ≠ [])
    (nested : Bool) :
    ∃ f, Gives (Value.map (blockEntries es)).height
        (fun r s => Render.statement r s nested (blockEntries es)) f ∧
      Spells f.inlineSql (parenTokens nested (all.flatMap T)) := by
  have htokens : Clause.order.flatMap (keyTokens T) = all.flatMap T := by
    rw [flatMap_keyTokens, filterMap_ofKey?]
  rw [← htokens] at hne ⊢
  exact statement_gives (checkKeys_known block_known)
    (fun k _ => clauseOf_gives hT (field?_block k)) hne nested

end Writing

section Queries

variable {es : List (QueryClause × Value)} {T : QueryClause → List Token}

theorem blockValue_eq_none {c : QueryClause} (h : c ∉ es.map Prod.fst) : blockValue es c = none := by
  rwa [← blockValue_isSome, Option.not_isSome_iff_eq_none] at h

theorem QueryShape.laid (h : QueryShape (es.map Prod.fst))
    (hT : ∀ c, Stands c (blockValue es c) (T c)) : Laid (blockValue es) T where
  stands := hT
  ctes r := by
    rcases h.ctes with hnone | hnone
    · cases r
      · exact .inl (blockValue_eq_none hnone)
      · exact .inr (blockValue_eq_none hnone)
    · cases r
      · exact .inr (blockValue_eq_none hnone)
      · exact .inl (blockValue_eq_none hnone)
  body := by
    rcases h.body with ⟨⟨d, hd, hother⟩, hjoin, hop⟩ | ⟨op, hop, hother⟩
    · refine .inl ⟨d, (blockValue_isSome _).mpr hd, blockValue_eq_none hother,
        fun op => blockValue_eq_none (hop op), fun hnone kind => ?_⟩
      refine blockValue_eq_none fun hmem => ?_
      have htables := (blockValue_isSome _).mpr (hjoin kind hmem)
      rw [hnone] at htables
      cases htables
    · refine .inr ⟨op, (blockValue_isSome _).mpr hop, fun c hc haround => ?_⟩
      refine blockValue_eq_none fun hmem => ?_
      rcases hother c hmem with rfl | h
      · exact hc rfl
      · rw [haround] at h
        cases h

/-- Without clauses that need parentheses there is nothing around the body. -/
theorem present_alone (h : ∀ c : QueryClause, c.key ∈ Clause.parenthesised →
    blockValue es c = none) :
    (bodies.filter fun c => (blockValue es c).isSome) =
      all.filter fun c => (blockValue es c).isSome := by
  have hnone : ∀ cs : List QueryClause, (∀ c ∈ cs, c.key ∈ Clause.parenthesised) →
      (cs.filter fun c => (blockValue es c).isSome) = [] := by
    intro cs hcs
    rw [List.filter_eq_nil_iff]
    intro c hc
    simp [h c (hcs c hc)]
  rw [all, List.filter_append, List.filter_append, hnone withs (by decide),
    hnone tails (by decide), List.nil_append, List.append_nil]

theorem Laid.queried (h : Laid (blockValue es) T) (hnodup : (es.map Prod.fst).Nodup) :
    Queried (blockEntries es) (all.flatMap T) where
  form := form_of_known (fun _ hk => hk) block_known
  writes := by
    refine statement_writes (fun c => (h.stands c).placed) fun hnil => ?_
    have hstart := all_start h none
    rw [hnil] at hstart
    rcases hstart with hstart | hstart | hstart <;> cases hstart
  query n hn := (query_takes h hn).mono (fun _ => id) fun _ hq => agreesMap_block hnodup hq
  statement n hn := (statement_takes h hn).mono (fun _ => id) fun _ hq => agreesMap_block hnodup hq
  branch hparens := by
    have hnone : ∀ c : QueryClause, c.key ∈ Clause.parenthesised → blockValue es c = none := by
      intro c hc
      have hfield := List.any_eq_false.mp hparens c.key hc
      simpa [hasField_block, ofKey?_key] using hfield
    have hpresent := present_alone hnone
    rw [← flatMap_of_present h.stands hpresent]
    refine ⟨bodies_start h, fun n hn => ?_⟩
    rcases h.body with ⟨d, hd, hother, hop, hjoin⟩ | ⟨op, hop, -⟩
    · refine (selection_takes h.stands hd hother hop hjoin hn).mono (fun _ => id) fun b hb => ?_
      exact agreesMap_block hnodup (.of_present hpresent hb)
    · rw [hnone _ (by cases op <;> decide)] at hop
      cases hop
  starts := all_start h

theorem exists_stands (hes : ∀ e ∈ es, ∃ ts, Stated e.1 e.2 ts) :
    ∃ T : QueryClause → List Token, ∀ c, Stands c (blockValue es c) (T c) := by
  have hstands : ∀ c, ∃ ts, Stands c (blockValue es c) ts := by
    intro c
    cases hv : blockValue es c with
    | none => exact ⟨[], .absent⟩
    | some v =>
      obtain ⟨ts, hts⟩ := hes _ (blockValue_mem hv)
      exact ⟨ts, .present hts⟩
  choose T hT using hstands
  exact ⟨T, hT⟩

/-- A query whose clauses are rendered and read. -/
theorem QueryShape.exists_queried (h : QueryShape (es.map Prod.fst))
    (hes : ∀ e ∈ es, ∃ ts, Stated e.1 e.2 ts) : ∃ ts, Queried (blockEntries es) ts := by
  obtain ⟨T, hT⟩ := exists_stands hes
  exact ⟨_, (h.laid hT).queried h.nodup⟩

end Queries

section Canonical

/-- The tokens of a part of a query, by what the part is. -/
def HasTokens : Role → Value → Prop
  | .query, v => ∃ es ts, v = .map es ∧ Queried es ts
  | .table, v => ∃ ts, Tabled v ts
  | .joined, v => ∀ kind ≠ Syntax.JoinKind.cross, ∃ ts, JoinedBy kind v ts
  | .cte, v => ∃ ts, Defined v ts
  | .clause c, v => ∃ ts, Stated c v ts

theorem HasTokens.branched {v : Value} (h : HasTokens .query v) : ∃ ts, Branched v ts := by
  obtain ⟨es, ts, rfl, hq⟩ := h
  exact ⟨_, .mk hq⟩

/-- Every part of a canonical query is rendered to tokens from which it is read. -/
theorem Canonical.hasTokens {role : Role} {v : Value} (h : Canonical role v) : HasTokens role v := by
  induction h with
  | table ht => exact exists_tabled_name ht
  | aliased ht ha => exact exists_tabled_aliased ht ha
  | derived _ ha ih =>
    obtain ⟨es, ts, rfl, hq⟩ := ih
    exact hq.exists_tabled ha
  | joined _ hv ih =>
    obtain ⟨ts, ht⟩ := ih
    exact fun kind hkind => ht.exists_joinedBy hkind hv
  | cte ht _ ih =>
    obtain ⟨es, ts, rfl, hq⟩ := ih
    exact hq.exists_defined ht
  | cteColumns ht hne hcs _ ih =>
    obtain ⟨es, ts, rfl, hq⟩ := ih
    exact hq.exists_defined_columns ht hne hcs
  | ctes r hne _ ih =>
    obtain ⟨tss, htss⟩ := exists_forall₂ ih
    exact ⟨_, .ctes r hne htss⟩
  | operation op halone _ _ _ ihv ihw ihvs =>
    obtain ⟨ts, hts⟩ := ihv.branched
    obtain ⟨us, hus⟩ := ihw.branched
    obtain ⟨tss, htss⟩ := exists_forall₂ fun v hv => (ihvs v hv).branched
    exact ⟨_, .operation op halone hts hus htss⟩
  | select d hne hvs =>
    obtain ⟨tss, htss⟩ := exists_forall₂ fun v hv => exists_selected (hvs v hv)
    exact ⟨_, .select d hne htss⟩
  | @oneTable t ht =>
    obtain ⟨ts, hts⟩ := exists_tabled_name ht
    have hstated : Stated .tables (Syntax.FromItem.tableValue [.text t]) _ :=
      .tables (List.cons_ne_nil _ _) (.cons hts .nil)
    exact ⟨_, hstated⟩
  | @tables vs hne hname _ ih =>
    obtain ⟨tss, htss⟩ := exists_forall₂ ih
    have hvalue : Syntax.FromItem.tableValue vs = .list vs := by
      rw [Syntax.FromItem.tableValue.eq_def]
      split
      · exact absurd rfl (hname _)
      · rfl
    rw [← hvalue]
    exact ⟨_, .tables hne htss⟩
  | @join kind vs hkind hne _ ih =>
    obtain ⟨tss, htss⟩ := exists_forall₂ fun v hv => ih v hv kind hkind
    exact ⟨_, .join kind hne htss⟩
  | crossJoin hne _ ih =>
    have hjoined : ∀ v ∈ _, ∃ ts, JoinedBy .cross v ts := fun v hv => by
      obtain ⟨ts, hts⟩ := ih v hv
      exact hts.exists_crossJoined
    obtain ⟨tss, htss⟩ := exists_forall₂ hjoined
    exact ⟨_, .join .cross hne htss⟩
  | filter hv =>
    obtain ⟨⟨ts, hts⟩, -⟩ := hv.exists_tokens
    exact ⟨_, .filter hv hts⟩
  | groups hne hvs =>
    obtain ⟨tss, htss⟩ := exists_forall₂ fun v hv => (hvs v hv).exists_tokens.1
    exact ⟨_, .groups hne hvs htss⟩
  | having hv =>
    obtain ⟨⟨ts, hts⟩, -⟩ := hv.exists_tokens
    exact ⟨_, .having hv hts⟩
  | order hne hvs =>
    obtain ⟨tss, htss⟩ := exists_forall₂ fun v hv => exists_ordered (hvs v hv)
    exact ⟨_, .order hne htss⟩
  | limit hv =>
    obtain ⟨⟨ts, hts⟩, -⟩ := hv.exists_tokens
    exact ⟨_, .limit hv hts⟩
  | offset hv =>
    obtain ⟨⟨ts, hts⟩, -⟩ := hv.exists_tokens
    exact ⟨_, .offset hv hts⟩
  | query hshape _ ih =>
    obtain ⟨ts, hts⟩ := hshape.exists_queried fun e he => ih e he
    exact ⟨_, ts, rfl, hts⟩

end Canonical

end SqlTree
