import SqlTree.Proofs.Nesting.Layers
import SqlTree.Proofs.RoundTrip

/-! The text of a query in layers of parentheses: what is written for a nested query is read as the
nested query again. -/

namespace SqlTree.Nesting

open Syntax (Query Tree)
open Syntax.Parser
open Render (Gives)
open QueryClause

/-- Canonical clauses that stand behind a body. -/
structure IsTail (t : List (QueryClause × Value)) : Prop where
  nodup : (t.map Prod.fst).Nodup
  mem : ∀ e ∈ t, e.1 ∈ tails
  canonical : ∀ e ∈ t, Canonical (.clause e.1) e.2

/-- A canonical query, or one in parentheses that has a tail. -/
inductive Tailed : Entries → Prop
  | block {es : List (QueryClause × Value)} : QueryShape (es.map Prod.fst) →
      (∀ e ∈ es, Canonical (.clause e.1) e.2) → Tailed (blockEntries es)
  -- a tail that has nothing in common with the query would be taken in when it is read
  | nest {es : Entries} {t : List (QueryClause × Value)} : Tailed es → IsTail t →
      (∃ e ∈ t, Entries.hasField es e.1.key) →
      Tailed (Syntax.Reading.entry "nest" (.map es) ++ blockEntries t)

section Parentheses

variable {es : Entries} {t : List (QueryClause × Value)} {ts : List Token}
  {T : QueryClause → List Token}

theorem field?_nest (v : Value) {k : String} (hk : k ≠ "nest") :
    Entries.field? (Syntax.Reading.entry "nest" v ++ blockEntries t) k =
      Entries.field? (blockEntries t) k := by
  have hnone : Entries.field? (Syntax.Reading.entry "nest" v) k = none := by
    apply field?_eq_none
    intro e he
    rw [List.mem_singleton.mp he, ne_eq, Value.text.injEq]
    exact hk.symm
  rw [field?_append, hnone, Option.none_or]

theorem nest_known (v : Value) : ∀ e ∈ Syntax.Reading.entry "nest" v ++ blockEntries t,
    ∃ k ∈ Clause.order, e.1 = .text k := by
  intro e he
  rcases List.mem_append.mp he with he | he
  · rw [List.mem_singleton.mp he]
    exact ⟨"nest", by decide, rfl⟩
  · exact block_known e he

/-- The tokens of a nested query and of what stands behind it, by their keys. -/
def nestTokens (ts : List Token) (T : QueryClause → List Token) (k : String) : List Token :=
  if k = "nest" then .symbol "(" :: ts ++ [.symbol ")"] else keyTokens T k

theorem flatMap_nestTokens (hT : ∀ c, Stands c (blockValue t c) (T c)) (hmem : ∀ e ∈ t, e.1 ∈ tails) :
    Clause.order.flatMap (nestTokens ts T) = .symbol "(" :: ts ++ [.symbol ")"] ++ tails.flatMap T := by
  have hsplit : Clause.order = Clause.order.takeWhile (· ≠ "nest") ++
      "nest" :: (Clause.order.dropWhile (· ≠ "nest")).tail := by decide
  have hbefore : (Clause.order.takeWhile (· ≠ "nest")).filterMap ofKey? = [] := by decide
  have hafter : (Clause.order.dropWhile (· ≠ "nest")).tail.filterMap ofKey? = all := by decide
  have hother : ∀ ks : List String, "nest" ∉ ks → ks.flatMap (nestTokens ts T) =
      (ks.filterMap ofKey?).flatMap T := by
    intro ks hks
    rw [← flatMap_keyTokens]
    refine List.flatMap_congr fun k hk => if_neg ?_
    rintro rfl
    exact hks hk
  have htails : all.flatMap T = tails.flatMap T := by
    apply flatMap_of_present hT
    have hrest : ∀ c ∈ withs ++ bodies, (blockValue t c).isSome = false := by
      intro c hc
      rw [Option.isSome_eq_false_iff, Option.isNone_iff_eq_none]
      apply blockValue_eq_none
      intro hct
      obtain ⟨e, he, rfl⟩ := List.mem_map.mp hct
      have hdisjoint : ∀ c ∈ withs ++ bodies, c ∉ tails := by decide
      exact hdisjoint e.1 hc (hmem e he)
    have hnil : (withs ++ bodies).filter (fun c => (blockValue t c).isSome) = [] :=
      List.filter_eq_nil_iff.mpr fun c hc => by simp [hrest c hc]
    rw [all, ← List.append_assoc, List.filter_append, hnil, List.nil_append]
  rw [hsplit, List.flatMap_append, List.flatMap_cons, hother _ (by decide), hother _ (by decide),
    hbefore, hafter, htails]
  rfl

/-- A query in parentheses is written in front of what stands behind it. -/
theorem nest_writes (h : Queried es ts) (hT : ∀ c, Stands c (blockValue t c) (T c))
    (hmem : ∀ e ∈ t, e.1 ∈ tails) (nested : Bool) :
    ∃ f, Gives (Value.map (Syntax.Reading.entry "nest" (.map es) ++ blockEntries t)).height
        (fun r s => Render.statement r s nested
          (Syntax.Reading.entry "nest" (.map es) ++ blockEntries t)) f ∧
      Lexer.Spells f.inlineSql (Render.parenTokens nested
        (.symbol "(" :: ts ++ [.symbol ")"] ++ tails.flatMap T)) := by
  rw [← flatMap_nestTokens hT hmem]
  refine statement_gives (checkKeys_known (nest_known _)) (fun k _ => ?_) ?_ nested
  · by_cases hk : k = "nest"
    · subst hk
      obtain ⟨f, hf, hs⟩ := h.writes true
      have hnest : Gives ((Value.map es).height + 1)
          (fun r s => Render.clause r s .nested "nest" (.map es)) f := by
        refine hf.stated.congr fun r m d st => ?_
        simp only [Render.clause, Render.nest, h.isClause, if_true]
      have htokens : nestTokens ts T "nest" = .symbol "(" :: ts ++ [.symbol ")"] := if_pos rfl
      rw [htokens]
      exact clauseOf_written rfl (by decide) (by simp) hnest hs
    · have htokens : nestTokens ts T k = keyTokens T k := if_neg hk
      rw [htokens]
      refine clauseOf_gives (fun c => (hT c).placed) ?_
      rw [field?_nest _ hk, field?_block]
  · rw [flatMap_nestTokens hT hmem]
    simp

/-- The tail has a clause of the query, so the query is nested when both are read. -/
theorem nest_agrees {q : Query} {order : List (Tree .orderItem)} {limits : List (Tree .limit)}
    (ht : IsTail t) (hclash : ∃ e ∈ t, Entries.hasField es e.1.key) (hq : AgreesMap q.read es)
    (horder : AgreesOn (blockValue t) [.order] (Syntax.Reading.orderClause (order.map Tree.read)))
    (hlimits : LimitsRead (blockValue t) [.limit, .offset] (limits.map Tree.read)) :
    AgreesMap (Tree.query (.ofOption none) (.nested q) (.ofList order) (.ofList limits) none).read
      (Syntax.Reading.entry "nest" (.map es) ++ blockEntries t) := by
  obtain ⟨fs, hfs, hecho⟩ := hq
  obtain ⟨zs, hzs, hz⟩ := horder
  obtain ⟨ess, hess, he⟩ := hlimits
  have htail : EntriesOf (blockValue t) tails (zs ++ ess.flatten ++ []) := by
    rw [List.append_nil]
    exact hz.append he
  have hsurround : Syntax.Reading.surround [] fs (zs ++ ess.flatten ++ []) =
      Syntax.Reading.entry "nest" (.map fs) ++ (zs ++ ess.flatten ++ []) := by
    refine surround_of_clashes (l := ⟨[], _⟩) (Bool.or_eq_true_iff.mpr (.inl ?_))
    obtain ⟨e, het, hfield⟩ := hclash
    obtain ⟨v, hv⟩ := Option.isSome_iff_exists.mp
      ((blockValue_isSome e.1).mpr (List.mem_map_of_mem het))
    obtain ⟨w, hw⟩ := htail.exists_entry (ht.mem e het) hv
    obtain ⟨x, hx, hkey⟩ := Entries.hasField_iff.mp hfield
    obtain ⟨y, hy, hyx⟩ := hecho.keys x hx
    exact List.any_eq_true.mpr ⟨_, hw, Entries.hasField_iff.mpr ⟨y, hy, hyx.trans hkey⟩⟩
  refine ⟨Syntax.Reading.entry "nest" (.map fs) ++ (zs ++ ess.flatten ++ []), ?_, ?_⟩
  · rw [← hsurround, Tree.read]
    simp only [read_ofList, read_ofOption]
    have hctes : Syntax.Reads (pure [] : Syntax.Read Entries) [] := .pure []
    have hlock : Syntax.Reads (Syntax.Reading.lockClause none) [] := .pure []
    exact (hctes.bind (hfs.bind (hzs.bind (hess.bind hlock.map)))).visit
  · have hnest : Entries.Echoes (Syntax.Reading.entry "nest" (.map fs))
        (Syntax.Reading.entry "nest" (.map es)) :=
      { length := rfl
        entry := fun f hf => by
          rw [List.mem_singleton.mp hf]
          exact ⟨_, List.mem_singleton.mpr rfl, Value.same_text_self _, hecho.same⟩
        keys := fun e he => by
          rw [List.mem_singleton.mp he]
          exact ⟨_, List.mem_singleton.mpr rfl, rfl⟩ }
    exact hnest.append (htail.echoes ht.nodup (by decide) ht.mem)

/-- A query in parentheses is read from its tokens and those of what stands behind it. -/
theorem nest_takes (h : Queried es ts) (ht : IsTail t) (hT : ∀ c, Stands c (blockValue t c) (T c))
    (hclash : ∃ e ∈ t, Entries.hasField es e.1.key) {n : Nat}
    (hn : (Token.symbol "(" :: ts ++ [Token.symbol ")"] ++ tails.flatMap T).length ≤ n) :
    Takes (queryRest (nested n) none) (.symbol "(" :: ts ++ [.symbol ")"] ++ tails.flatMap T)
      (Closes 10) fun q => AgreesMap q.read (Syntax.Reading.entry "nest" (.map es) ++ blockEntries t) := by
  simp only [List.length_append, List.length_cons, List.length_nil] at hn
  obtain ⟨n, rfl⟩ : ∃ m, n = m + 1 := ⟨n - 1, by omega⟩
  have hparens : Takes (parenQuery (nested (n + 1))) (.symbol "(" :: ts ++ [.symbol ")"]) (Closes 7)
      fun q => AgreesMap q.read es :=
    parens_takes ((h.query n (by omega)).before (by rintro _ rfl; exact .close))
  have hprimary : Takes (bodyPrimary (nested (n + 1))) (.symbol "(" :: ts ++ [.symbol ")"]) (Closes 7)
      fun b => ∃ q, AgreesMap q.read es ∧ b = .nested q :=
    .noKeyword (fun _ _ => rfl) (hparens.map fun q hq => ⟨q, hq, rfl⟩)
  have hbody : Takes (bodyPrimary (nested (n + 1)) >>= bodyFrom (nested (n + 1)))
      (.symbol "(" :: ts ++ [.symbol ")"]) (Closes 7) fun b => ∃ q, AgreesMap q.read es ∧ b = .nested q :=
    hprimary.andThen (fun b hb => bodyFrom_absent hb) fun _ ho => ho
  rw [queryRest_eq]
  refine hbody.bind (fun b hb => ?_) fun o ho => closes_ahead hT (by decide) (ho.mono (by decide))
  obtain ⟨q, hq, rfl⟩ := hb
  refine (tails_take hT none (.nested q) (by omega)).mono (fun _ => id) ?_
  rintro _ ⟨order, limits, rfl, horder, hlimits⟩
  exact nest_agrees ht hclash hq horder hlimits

/-- A query in parentheses that has a tail is rendered to tokens from which it is read. -/
theorem nest_queried (h : Queried es ts) (ht : IsTail t) (hT : ∀ c, Stands c (blockValue t c) (T c))
    (hclash : ∃ e ∈ t, Entries.hasField es e.1.key) :
    Queried (Syntax.Reading.entry "nest" (.map es) ++ blockEntries t)
      (.symbol "(" :: ts ++ [.symbol ")"] ++ tails.flatMap T) where
  form := form_of_known (fun _ hk => hk) (nest_known _)
  writes := nest_writes h hT ht.mem
  query n hn := ctes_absent.nothing_bind (fun _ hctes => hctes ▸ nest_takes h ht hT hclash hn)
    fun _ _ => .inr rfl
  statement n hn := by
    refine ctes_absent.nothing_bind (fun _ hctes => ?_) fun _ _ => .inr rfl
    subst hctes
    refine .noKeyword (fun _ _ => rfl) (.noKeyword (fun _ _ => rfl) (.noKeyword (fun _ _ => rfl) ?_))
    exact (nest_takes h ht hT hclash hn).map fun _ hq => hq
  branch hparens := by
    obtain ⟨e, he, -⟩ := hclash
    have hkeys : ∀ c ∈ tails, c.key ∈ Clause.parenthesised := by decide
    have hfield : Entries.hasField (Syntax.Reading.entry "nest" (.map es) ++ blockEntries t)
        e.1.key = true :=
      Entries.hasField_iff.mpr ⟨(.text e.1.key, e.2), List.mem_append_right _ (List.mem_map_of_mem
        (f := fun e : QueryClause × Value => (Value.text e.1.key, e.2)) he), rfl⟩
    exact absurd hfield (List.any_eq_false.mp hparens _ (hkeys _ (ht.mem e he)))
  starts _ := .inr (.inr rfl)

end Parentheses

theorem Tailed.exists_queried {es : Entries} (h : Tailed es) : ∃ ts, Queried es ts := by
  induction h with
  | block hshape hes =>
    apply hshape.exists_queried
    intro e he
    exact (hes e he).hasTokens
  | nest _ ht hclash ih =>
    obtain ⟨ts, hts⟩ := ih
    obtain ⟨T, hT⟩ := exists_stands fun e he => (ht.canonical e he).hasTokens
    exact ⟨_, nest_queried hts ht hT hclash⟩

section Layers

/-- The clauses of the layer are canonical. -/
inductive Layer.IsCanonical : Layer → Prop
  | mk {w t : List (QueryClause × Value)} : w.length ≤ 1 →
      (∀ e ∈ w, e.1 ∈ QueryClause.withs) → (∀ e ∈ w, Canonical (.clause e.1) e.2) → IsTail t →
      IsCanonical ⟨blockEntries w, blockEntries t⟩

/-- A nested query beside common table expressions, which are written behind it. -/
def Mixed (es : Entries) : Prop :=
  Entries.hasField es "nest" ∧ Syntax.Reading.hasTableExpressions es

/-- No layer has common table expressions in front of a nested query. -/
def Unmixed (body : Entries) (ls : List Layer) : Prop :=
  ∀ inner outer, ls = inner ++ outer → ¬ Mixed (mapOf body inner)

variable {es : Entries} {cs w t : List (QueryClause × Value)} {l : Layer}

theorem hasField_key {c : QueryClause} :
    Entries.hasField (blockEntries cs) c.key = true ↔ c ∈ cs.map Prod.fst := by
  rw [hasField_block, ofKey?_key, Option.bind_some, blockValue_isSome]

theorem blockEntries_append : blockEntries (cs ++ t) = blockEntries cs ++ blockEntries t :=
  List.map_append

theorem hasTableExpressions_of_mem {c : QueryClause} (hc : c ∈ withs)
    (h : Entries.hasField es c.key = true) : Syntax.Reading.hasTableExpressions es = true := by
  have hkeys : ∀ c ∈ withs, c.key ∈ Clause.tableExpressions := by decide
  exact List.any_eq_true.mpr ⟨_, hkeys c hc, h⟩

theorem eq_nil_of_unmixed (hw : ∀ e ∈ w, e.1 ∈ withs) (hnest : Entries.hasField es "nest" = true)
    (h : ¬ Mixed (blockEntries w ++ es)) : w = [] := by
  by_contra hne
  obtain ⟨e, he⟩ := List.exists_mem_of_ne_nil w hne
  obtain ⟨x, hx, hkey⟩ := Entries.hasField_iff.mp hnest
  apply h
  constructor
  · exact Entries.hasField_iff.mpr ⟨x, List.mem_append_right _ hx, hkey⟩
  · apply hasTableExpressions_of_mem (hw e he)
    obtain ⟨y, hy, hkey⟩ := Entries.hasField_iff.mp (hasField_key.mpr (List.mem_map_of_mem he))
    exact Entries.hasField_iff.mpr ⟨y, List.mem_append_left _ hy, hkey⟩

/-- What stands around a query leaves its body as it is. -/
theorem shape_surround {as bs cs : List QueryClause} (h : QueryShape cs)
    (has : ∀ c ∈ as, c.isAround = true) (hbs : ∀ c ∈ bs, c.isAround = true)
    (hnodup : (as ++ cs ++ bs).Nodup)
    (hctes : .ctes false ∉ as ++ cs ++ bs ∨ .ctes true ∉ as ++ cs ++ bs) :
    QueryShape (as ++ cs ++ bs) := by
  have hmem : ∀ c ∈ cs, c ∈ as ++ cs ++ bs := fun c hc =>
    List.mem_append_left _ (List.mem_append_right _ hc)
  have hbody : ∀ c ∈ as ++ cs ++ bs, c.isAround = false → c ∈ cs := by
    intro c hc hbody
    rcases List.mem_append.mp hc with hc | hc
    · rcases List.mem_append.mp hc with hc | hc
      · rw [has c hc] at hbody
        cases hbody
      · exact hc
    · rw [hbs c hc] at hbody
      cases hbody
  refine ⟨hnodup, hctes, ?_⟩
  rcases h.body with ⟨⟨d, hd, hother⟩, hjoin, hop⟩ | ⟨op, hop, hother⟩
  · refine .inl ⟨⟨d, hmem _ hd, fun hc => hother (hbody _ hc rfl)⟩, ?_, ?_⟩
    · exact fun kind hc => hmem _ (hjoin kind (hbody _ hc rfl))
    · exact fun op hc => hop op (hbody _ hc rfl)
  · refine .inr ⟨op, hmem _ hop, fun c hc => ?_⟩
    cases haround : c.isAround with
    | true => exact .inr rfl
    | false =>
      have hc := hother c (hbody c hc haround)
      rwa [haround] at hc

theorem not_mem_of_apart (hapart : clashes es ⟨blockEntries w, blockEntries t⟩ = false)
    {e : QueryClause × Value} (he : e ∈ t) : Entries.hasField es e.1.key = false := by
  rw [← Bool.not_eq_true]
  intro hes
  exact not_both_of_apart hapart e.1.key ⟨hes, hasField_key.mpr (List.mem_map_of_mem he)⟩

theorem no_withs_of_apart (hapart : clashes es ⟨blockEntries w, blockEntries t⟩ = false)
    (hne : w ≠ []) {c : QueryClause} (hc : c ∈ withs) : Entries.hasField es c.key = false := by
  have hempty : (blockEntries w).isEmpty = false := by simpa [blockEntries] using hne
  have hnone := (Bool.or_eq_false_iff.mp hapart).2
  rw [hempty, Bool.not_false, Bool.true_and] at hnone
  rw [← Bool.not_eq_true]
  intro hes
  rw [hasTableExpressions_of_mem hc hes] at hnone
  cases hnone

/-- A canonical query takes canonical clauses in. -/
theorem shape_merged (h : QueryShape (cs.map Prod.fst)) (hlen : w.length ≤ 1)
    (hw : ∀ e ∈ w, e.1 ∈ withs) (ht : IsTail t)
    (hapart : clashes (blockEntries cs) ⟨blockEntries w, blockEntries t⟩ = false) :
    QueryShape ((w ++ cs ++ t).map Prod.fst) := by
  have hwith : ∀ c ∈ w.map Prod.fst, c ∈ withs := fun c hc => by
    obtain ⟨e, he, rfl⟩ := List.mem_map.mp hc
    exact hw e he
  have htail : ∀ c ∈ t.map Prod.fst, c ∈ tails ∧ c ∉ cs.map Prod.fst := fun c hc => by
    obtain ⟨e, he, rfl⟩ := List.mem_map.mp hc
    refine ⟨ht.mem e he, fun hcs => ?_⟩
    rw [← hasField_key, not_mem_of_apart hapart he] at hcs
    cases hcs
  have hbehind : ∀ c ∈ withs, c ∉ tails := by decide
  have hwiths : w = [] ∨ ∀ c ∈ cs.map Prod.fst, c ∉ withs := by
    by_cases hne : w = []
    · exact .inl hne
    · refine .inr fun c hc hcw => ?_
      rw [← hasField_key, no_withs_of_apart hapart hne hcw] at hc
      cases hc
  rw [List.map_append, List.map_append]
  apply shape_surround h
  · intro c hc
    have haround : ∀ c ∈ withs, c.isAround = true := by decide
    exact haround c (hwith c hc)
  · intro c hc
    have haround : ∀ c ∈ tails, c.isAround = true := by decide
    exact haround c (htail c hc).1
  · have hone : (w.map Prod.fst).Nodup := by
      match w, hlen with
      | [], _ => exact List.nodup_nil
      | [e], _ => exact List.nodup_singleton _
    refine (hone.append h.nodup fun c hc hcs => ?_).append ht.nodup fun c hc hct => ?_
    · rcases hwiths with rfl | hnone
      · cases hc
      · exact hnone c hcs (hwith c hc)
    · rcases List.mem_append.mp hc with hc | hc
      · exact hbehind c (hwith c hc) (htail c hct).1
      · exact (htail c hct).2 hc
  · have hnone : ∀ r, QueryClause.ctes r ∉ t.map Prod.fst := fun r hc => by
      have htails : ∀ r, QueryClause.ctes r ∉ tails := by decide
      exact htails r (htail _ hc).1
    match w, hlen, hwiths with
    | [], _, _ => simpa [hnone] using h.ctes
    | [e], _, .inr hcs =>
      have hall : ∀ r, QueryClause.ctes r ∉ cs.map Prod.fst := fun r hc => by
        have hmem : ∀ r, QueryClause.ctes r ∈ withs := by decide
        exact hcs _ hc (hmem r)
      rw [List.map_singleton, List.singleton_append]
      by_cases hfirst : e.1 = .ctes false
      · right
        simp [hall, hnone, hfirst]
      · left
        simp [hall, hnone, Ne.symm hfirst]

theorem isTail_append (hs : IsTail cs) (ht : IsTail t)
    (hapart : ∀ e ∈ t, e.1 ∉ cs.map Prod.fst) : IsTail (cs ++ t) where
  nodup := by
    rw [List.map_append]
    refine hs.nodup.append ht.nodup fun c hc hct => ?_
    obtain ⟨e, he, rfl⟩ := List.mem_map.mp hct
    exact hapart e he hc
  mem e he := (List.mem_append.mp he).elim (hs.mem e) (ht.mem e)
  canonical e he := (List.mem_append.mp he).elim (hs.canonical e) (ht.canonical e)

/-- One more layer, be it kept apart or taken in. -/
theorem Tailed.surround (h : Tailed es) (hl : l.IsCanonical)
    (hunmixed : ¬ Mixed (Syntax.Reading.surround l.withs es l.tail)) :
    Tailed (Syntax.Reading.surround l.withs es l.tail) := by
  cases hl with
  | @mk w t hlen hw hcanonical ht =>
  cases hclash : clashes es ⟨blockEntries w, blockEntries t⟩ with
  | true =>
    rw [surround_of_clashes hclash] at hunmixed ⊢
    rw [List.append_assoc] at hunmixed
    obtain rfl := eq_nil_of_unmixed hw (Entries.hasField_iff.mpr
      ⟨_, List.mem_append_left _ (List.mem_singleton.mpr rfl), rfl⟩) hunmixed
    refine .nest h ht ?_
    have hany : ((blockEntries t).any fun e => (Entries.valueAt? es e.1).isSome) = true := by
      simpa [clashes, blockEntries] using hclash
    obtain ⟨x, hx, hsome⟩ := List.any_eq_true.mp hany
    obtain ⟨e, he, rfl⟩ := List.mem_map.mp hx
    exact ⟨e, he, hsome⟩
  | false =>
    rw [surround_of_apart hclash] at hunmixed ⊢
    cases h with
    | @block cs hshape hcs =>
      change Tailed (blockEntries w ++ blockEntries cs ++ blockEntries t)
      rw [← blockEntries_append, ← blockEntries_append]
      refine .block (shape_merged hshape hlen hw ht hclash) fun e he => ?_
      rcases List.mem_append.mp he with he | he
      · exact (List.mem_append.mp he).elim (hcanonical e) (hcs e)
      · exact ht.canonical e he
    | @nest es cs hes hcs hfield =>
      rw [List.append_assoc] at hunmixed
      obtain rfl := eq_nil_of_unmixed hw (Entries.hasField_iff.mpr
        ⟨_, List.mem_append_left _ (List.mem_append_left _ (List.mem_singleton.mpr rfl)), rfl⟩) hunmixed
      change Tailed (Syntax.Reading.entry "nest" (.map es) ++ blockEntries cs ++ blockEntries t)
      rw [List.append_assoc, ← blockEntries_append]
      refine .nest hes (isTail_append hcs ht fun e he hmem => ?_) ?_
      · have hfields := not_mem_of_apart hclash he
        obtain ⟨x, hx, hkey⟩ := Entries.hasField_iff.mp (hasField_key.mpr hmem)
        rw [Entries.hasField_iff.mpr ⟨x, List.mem_append_right _ hx, hkey⟩] at hfields
        cases hfields
      · obtain ⟨e, he, hfield⟩ := hfield
        exact ⟨e, List.mem_append_left _ he, hfield⟩

/-- The clause map of canonical layers, if none has common table expressions in front of a nested
query. -/
theorem Tailed.mapOf {body : Entries} {ls : List Layer} (hbody : Tailed body)
    (hls : ∀ l ∈ ls, l.IsCanonical) (h : Unmixed body ls) : Tailed (mapOf body ls) := by
  induction ls using List.reverseRecOn with
  | nil => exact hbody
  | append_singleton ls l ih =>
    have hinner : Tailed (Nesting.mapOf body ls) := by
      refine ih (fun m hm => hls m (List.mem_append_left _ hm)) fun inner outer heq => ?_
      exact h inner (outer ++ [l]) (by rw [heq, List.append_assoc])
    have hmixed := h (ls ++ [l]) [] (List.append_nil _).symm
    rw [mapOf_append] at hmixed ⊢
    exact hinner.surround (hls l (List.mem_append_right _ (List.mem_singleton.mpr rfl))) hmixed

end Layers

end SqlTree.Nesting
