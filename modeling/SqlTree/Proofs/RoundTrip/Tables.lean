import SqlTree.Proofs.RoundTrip.Subqueries

/-! Tables and joins. -/

namespace SqlTree

open Syntax (Means Reads Joined FromItem)
open Lexer (Spells nameToken)
open Render (Gives Writes parenTokens)

theorem joinCondition_operation {op : String} (hop : op ≠ "using") (vs : List Value)
    (r : Renderer) (s : Settings) : Render.joinCondition r s (Syntax.headed op vs) =
      do return Fragment.after " ON " (← r.expr s false (Syntax.headed op vs)) := by
  simp [Render.joinCondition, Render.usingColumns?, Syntax.headed, Value.items?, hop]

theorem Expressible.joinCondition_eq {v : Value} (h : Expressible v) (r : Renderer)
    (s : Settings) :
    Render.joinCondition r s v = do return Fragment.after " ON " (← r.expr s false v) := by
  have hops : ∀ op ∈ plainOperators ++ comparisons, op ≠ "using" := by decide
  cases h with
  | column => rfl
  | int => rfl
  | string => rfl
  | bool => rfl
  | binary hop => exact joinCondition_operation (hops _ (by simp [hop])) _ r s
  | comparison hop => exact joinCondition_operation (hops _ (by simp [hop])) _ r s
  | predicate negated p =>
    exact joinCondition_operation (by cases negated <;> cases p <;> decide) _ r s
  | test negated => exact joinCondition_operation (by cases negated <;> decide) _ r s
  | chain op => exact joinCondition_operation (by cases op <;> decide) _ r s
  | inValues negated => exact joinCondition_operation (by cases negated <;> decide) _ r s
  | inRow negated => exact joinCondition_operation (by cases negated <;> decide) _ r s

namespace Syntax.Parser

/-- What may follow a table. -/
structure TableEnd (o : Option Token) : Prop where
  name : isName o = false
  keyword : isKeyword "as" o = false
  dot : isSymbol "." o = false
  paren : isSymbol "(" o = false

theorem OrSign.tableEnd {k : Nat} {o : Option Token} (h : OrSign "," (Closes k) o) : TableEnd o :=
  ⟨h.isName, h.isKeyword (Nat.zero_le k), h.isSymbol (by decide) (by decide),
    h.isSymbol (by decide) (by decide)⟩

/-- The tokens that a table is rendered to and read from. -/
structure Tabled (v : Value) (ts : List Token) : Prop where
  writes : ∃ f, Gives (v.height + 1) (fun r s => Render.item r s true v) f ∧ Spells f.inlineSql ts
  takes : ∀ n, ts.length ≤ n → Takes (table (nested n)) ts TableEnd fun t => Agrees t.read v

variable {v : Value} {ts : List Token} {t a : String}

theorem gives_name (ht : DottedName t) (h : Nat) :
    Gives h (fun _ s => Render.words (Render.name s (.text t))) (.ofText t) :=
  .words (t := fun s => Render.name s (.text t)) (name_inlining ht)

theorem namedTable_takes {p : Nested} {q : String} {qs : List String} {us : List Token}
    {follow : Option Token → Prop} {post : Tree .table → Prop}
    (hend : ∀ o, follow o → isSymbol "." (ahead us o) = false ∧ isSymbol "(" (ahead us o) = false)
    (h : Takes (aliasName >>= fun name => pure (Tree.relation ((q :: qs).map bare) name)) us
      follow post) :
    Takes (table p) (pathTokens (q :: qs) ++ us) follow post := by
  refine .notAtSymbol (fun _ _ => rfl) (.noKeyword (fun _ _ => rfl) ?_)
  exact callOrPath_takes p q qs
    (fun o (ho : isSymbol "." o = false ∧ isSymbol "(" o = false) => ho.1) (fun _ ho => ho.2) h hend

theorem relation_agrees {q : String} {qs : List String} (hq : ∀ x ∈ q :: qs, PlainPart x) :
    Agrees (visit (pure (Path.value ((q :: qs).map bare)))) (.text (dotted (q :: qs))) := by
  obtain ⟨hhead, htail⟩ := List.forall_mem_cons.mp hq
  rw [Reading.pathValue_bare hhead htail]
  exact (Agrees.of_reads (.pure _) (Value.same_text_self _)).visit

theorem asAlias_bare (ha : PlainName a) : (bare a).asAlias = .text a := by
  have hplain : (bare a).isPlain = true := ha.toPlainPart.isPlain
  rw [Name.asAlias, if_pos hplain]
  rfl

theorem unaliased_agrees {r : Read Value} (h : Agrees r v) :
    Agrees (Reading.aliased r none) v := by
  obtain ⟨w, hw, hs⟩ := h
  exact ⟨w, (hw.map (f := id)).visit, hs⟩

theorem aliased_agrees {r : Read Value} (h : Agrees r v) (ha : PlainName a) :
    Agrees (Reading.aliased r (some (bare a))) (.list [v, .text a]) := by
  obtain ⟨w, hw, hs⟩ := h
  have halias : Reads (visit (pure (bare a).asAlias)) (.text a) := by
    rw [asAlias_bare ha]
    exact (Reads.pure _).visit
  refine ⟨.list [w, .text a], .visit (hw.bind (halias.map (f := fun n => Value.list [w, n]))), ?_⟩
  exact Value.same_list (.cons hs (.cons (Value.same_text_self a) .nil))

theorem tabled_name {q : String} {qs : List String} (hqs : ∀ x ∈ q :: qs, PlainName x) :
    Tabled (.text (dotted (q :: qs))) (pathTokens (q :: qs)) := by
  have hplain : ∀ x ∈ q :: qs, PlainPart x := fun x hx => (hqs x hx).toPlainPart
  obtain ⟨hhead, htail⟩ := List.forall_mem_cons.mp hplain
  refine ⟨⟨.ofText (dotted (q :: qs)), ?_, ?_⟩, fun n _ => ?_⟩
  · exact (gives_name ⟨q, qs, hqs, rfl⟩ _).congr fun r m d st => by
      simp [Render.item, Render.aliasPair?, Value.items?]
  · rw [Fragment.inlineSql_ofText]
    exact spells_dotted hhead htail
  · rw [← List.append_nil (pathTokens _)]
    refine namedTable_takes (fun o ho => ⟨ho.dot, ho.paren⟩) ?_
    refine (aliasName_absent fun o ho => ⟨ho.name, ho.keyword⟩).map ?_
    rintro _ rfl
    exact unaliased_agrees (relation_agrees hplain)

theorem exists_tabled_name (ht : DottedName t) : ∃ ts, Tabled (.text t) ts := by
  obtain ⟨q, qs, hqs, rfl⟩ := ht
  exact ⟨_, tabled_name hqs⟩

theorem exists_tabled_aliased (ht : DottedName t) (ha : PlainName a) :
    ∃ ts, Tabled (.list [.text t, .text a]) ts := by
  obtain ⟨q, qs, hqs, rfl⟩ := id ht
  have hplain : ∀ x ∈ q :: qs, PlainPart x := fun x hx => (hqs x hx).toPlainPart
  obtain ⟨hhead, htail⟩ := List.forall_mem_cons.mp hplain
  refine ⟨pathTokens (q :: qs) ++ [nameToken "AS", .name a],
    ⟨Fragment.ofText (dotted (q :: qs)) ++ [.text " AS ", .text a], ?_, ?_⟩, fun n _ => ?_⟩
  · refine Render.gives_aliased (fun u hu => ?_) ha (gives_name ht _)
    cases hu
    exact ht
  · refine Render.spells_aliased ha ?_
    rw [Fragment.inlineSql_ofText]
    exact spells_dotted hhead htail
  · refine namedTable_takes (fun _ _ => ⟨rfl, rfl⟩) ((aliasName_takes a).map ?_)
    rintro _ rfl
    exact aliased_agrees (relation_agrees hplain) ha

theorem Queried.exists_tabled {es : Entries} (h : Queried es ts) (ha : PlainName a) :
    ∃ ts, Tabled (.list [.map es, .text a]) ts := by
  refine ⟨.symbol "(" :: ts ++ [.symbol ")"] ++ [nameToken "AS", .name a], ?_, fun n hn => ?_⟩
  · obtain ⟨f, hf, hs⟩ := h.writes true
    have hexpr : Gives ((Value.map es).height + 1) (fun r s => r.expr s false (.map es)) f := by
      refine .deeper (hf.congr fun r m d st => ?_)
      have hform : Form.ofEntries (Settings.inlining m d st).registry.clauseKeys es = .clause := h.form
      simp only [Render.expression, Render.mapOf, hform]
    refine ⟨_, Render.gives_aliased (fun u hu => by cases hu) ha (hexpr.mono ?_),
      Render.spells_aliased ha hs⟩
    have := Render.height_le_of_mem (v := .map es) [.map es, .text a] (by simp)
    omega
  · obtain ⟨n, rfl⟩ : ∃ m, n = m + 1 := ⟨n - 1, by simp at hn; omega⟩
    have hts : ts.length ≤ n := by
      simp at hn
      omega
    refine .isAtSymbol rfl ?_
    have hq : Takes (parenQuery (nested (n + 1))) (.symbol "(" :: ts ++ [.symbol ")"])
        (fun _ => True) fun q => AgreesMap q.read es :=
      parens_takes ((h.query n hts).before (by rintro _ rfl; exact .close))
    refine hq.bind (fun q hq => (aliasName_takes a).map ?_) fun _ _ => trivial
    rintro _ rfl
    exact aliased_agrees hq.agrees ha

section Joins

def joinWord : JoinKind → String
  | .inner => "INNER"
  | .left => "LEFT"
  | .right => "RIGHT"
  | .full => "FULL"
  | .cross => "CROSS"

/-- The words in front of a joined table. -/
def joinTokens (kind : JoinKind) : List Token := [nameToken (joinWord kind), nameToken "JOIN"]

theorem spells_joinKeyword (kind : JoinKind) :
    Spells (Render.joinKeyword kind.clause) (joinTokens kind) := by
  have hword : Lexer.isWord (joinWord kind) = true := by cases kind <;> rfl
  have h := Lexer.spells_words _ ["JOIN"] hword (by decide)
  cases kind <;> exact h

/-- The tokens that an entry of a join clause is rendered to and read from. -/
structure JoinedBy (kind : JoinKind) (v : Value) (ts : List Token) : Prop where
  writes : ∃ f, Gives (v.height + 1) (fun r s => Render.joinStep r s kind.clause v) f ∧
    Spells f.inlineSql (joinTokens kind ++ ts)
  takes : ∀ n, ts.length < n → Takes (join (nested n)) (joinTokens kind ++ ts)
    (OrSign "," (Closes 1)) fun o => ∃ j w, o = some j ∧ Reads j.read (kind.clause, w) ∧ w.same v = true

theorem join_takes {p : Nested} {kind : JoinKind} (hkind : kind ≠ .cross) {us vs : List Token}
    {follow : Option Token → Prop} {left : Tree .table → Prop} {right : Expr → Prop}
    (ht : Takes (table p) us TableEnd left) (he : Takes p.expr vs follow right) :
    Takes (join p) (joinTokens kind ++ (us ++ nameToken "ON" :: vs)) follow
      fun o => ∃ t e, left t ∧ right e ∧ o = some (.join kind t (.present (.joinOn e))) := by
  have hrest : Takes (do
      let t ← table p
      return Tree.join kind t (.present (← joinTest p))) (us ++ nameToken "ON" :: vs) follow
      fun j => ∃ t e, left t ∧ right e ∧ j = .join kind t (.present (.joinOn e)) := by
    refine ht.bind (fun t ht => ?_) fun _ _ => ⟨rfl, rfl, rfl, rfl⟩
    have hon : Takes (joinTest p) (nameToken "ON" :: vs) follow fun j =>
        ∃ e, right e ∧ j = .joinOn e := .withKeyword rfl (he.map fun e h => ⟨e, h, rfl⟩)
    refine hon.map ?_
    rintro _ ⟨e, he, rfl⟩
    exact ⟨t, e, ht, he, rfl⟩
  have houter : Takes (outerJoin p kind) (nameToken "JOIN" :: (us ++ nameToken "ON" :: vs)) follow
      fun j => ∃ t e, left t ∧ right e ∧ j = .join kind t (.present (.joinOn e)) :=
    .noKeyword (fun _ _ => rfl) (.keyword rfl hrest)
  have hsome : ∀ {j : Tree .join},
      (∃ t e, left t ∧ right e ∧ j = .join kind t (.present (.joinOn e))) →
      ∃ t e, left t ∧ right e ∧ some j = some (.join kind t (.present (.joinOn e))) := by
    rintro _ ⟨t, e, ht, he, rfl⟩
    exact ⟨t, e, ht, he, rfl⟩
  cases kind with
  | cross => contradiction
  | left => exact .withKeyword rfl (houter.map fun _ => hsome)
  | right => exact .noKeyword (fun _ _ => rfl) (.withKeyword rfl (houter.map fun _ => hsome))
  | full =>
    refine .noKeyword (fun _ _ => rfl) (.noKeyword (fun _ _ => rfl) ?_)
    exact .withKeyword rfl (houter.map fun _ => hsome)
  | inner =>
    refine .noKeyword (fun _ _ => rfl) (.noKeyword (fun _ _ => rfl) ?_)
    refine .noKeyword (fun _ _ => rfl) (.noKeyword (fun _ _ => rfl) ?_)
    refine .withKeyword rfl (.isAtKeyword rfl (.keyword rfl ?_))
    have hmap : Takes ((do
          let t ← table p
          return Tree.join .inner t (.present (← joinTest p))) >>= fun j => pure (some j))
        (us ++ nameToken "ON" :: vs) follow
        fun o => ∃ t e, left t ∧ right e ∧ o = some (.join .inner t (.present (.joinOn e))) :=
      hrest.map fun _ => hsome
    simp only [bind_assoc, pure_bind] at hmap
    exact hmap

theorem crossJoin_takes {p : Nested} {us : List Token} {left : Tree .table → Prop}
    (ht : Takes (table p) us TableEnd left) :
    Takes (join p) (joinTokens .cross ++ us) TableEnd
      fun o => ∃ t, left t ∧ o = some (.join .cross t .absent) := by
  refine .noKeyword (fun _ _ => rfl) (.noKeyword (fun _ _ => rfl) ?_)
  refine .noKeyword (fun _ _ => rfl) (.withKeyword rfl (.keyword rfl ?_))
  exact ht.map fun t ht => ⟨t, ht, rfl⟩

theorem join_absent {p : Nested} : Takes (join p) [] (OrSign "," (Closes 2)) (· = none) := by
  refine .noKeyword (fun _ ho => ho.isKeyword (by decide)) ?_
  refine .noKeyword (fun _ ho => ho.isKeyword (by decide)) ?_
  refine .noKeyword (fun _ ho => ho.isKeyword (by decide)) ?_
  refine .noKeyword (fun _ ho => ho.isKeyword (by decide)) ?_
  refine .noKeyword (fun _ ho => ho.isKeyword (by decide)) ?_
  exact .notAtKeyword (fun _ ho => ho.isKeyword (by decide)) (.pure rfl)

theorem Tabled.exists_joinedBy {kind : JoinKind} (hkind : kind ≠ .cross) {t v : Value}
    {us : List Token} (ht : Tabled t us) (hv : Expressible v) :
    ∃ ts, JoinedBy kind (.list [t, v]) ts := by
  obtain ⟨⟨vs, hvs⟩, -⟩ := hv.exists_tokens
  refine ⟨us ++ nameToken "ON" :: vs, ?_, fun n hn => ?_⟩
  · obtain ⟨f, hf, hfs⟩ := ht.writes
    obtain ⟨g, hg, hgs⟩ := hvs.writes
    refine ⟨Fragment.after (Render.joinKeyword kind.clause ++ " ") f ++ Fragment.after " ON " g,
      ?_, ?_⟩
    · have hti := hf.mono (Render.height_le_of_mem [t, v] (by simp))
      have hvi := hg.mono (Render.height_le_of_mem [t, v] (by simp))
      have hboth := hti.bind (f := fun f r s => do
        return Fragment.after (Render.joinKeyword kind.clause ++ " ") f ++
          Fragment.after " ON " (← r.expr s false v)) hvi.map
      refine (hboth.mono (Nat.le_succ _)).congr fun r m d st => ?_
      have hne : kind.clause ≠ "cross-join" := by cases kind <;> first | contradiction | decide
      rw [Render.joinStep, if_neg hne]
      change Render.joinTable r _ _ t v = _
      simp only [Render.joinTable, hv.joinCondition_eq, bind_assoc, pure_bind]
    · have hon : Spells "ON" [nameToken "ON"] := Lexer.spells_word rfl
      have h := (((spells_joinKeyword kind).space hfs).space hon).space hgs
      simpa [Fragment.inlineSql_after, String.append_assoc, List.append_assoc] using h
  · rw [List.length_append, List.length_cons] at hn
    obtain ⟨n, rfl⟩ : ∃ m, n = m + 1 := ⟨n - 1, by omega⟩
    have he : Takes (nested (n + 1)).expr vs (Ends 10) (Means · v) := hvs.takes n (by omega)
    refine (join_takes hkind (ht.takes _ (by omega)) he).mono (fun _ ho => ho.ends) ?_
    rintro _ ⟨t', e, ⟨w, hw, hs⟩, he, rfl⟩
    have hon : Reads (Reading.joinOn e.read) v := he.visit
    refine ⟨_, .list [w, v], rfl, ?_, ?_⟩
    · exact hw.bind (hon.map (f := fun v => (kind.clause, Value.list [w, v])))
    · exact Value.same_list (.cons hs (.cons hv.same_self .nil))

theorem Tabled.exists_crossJoined {t : Value} {us : List Token} (ht : Tabled t us) :
    ∃ ts, JoinedBy .cross t ts := by
  refine ⟨us, ?_, fun n hn => ?_⟩
  · obtain ⟨f, hf, hs⟩ := ht.writes
    refine ⟨Fragment.after "CROSS JOIN " f, hf.map, ?_⟩
    have h := (spells_joinKeyword .cross).space hs
    have hword : Render.joinKeyword JoinKind.cross.clause ++ " " = "CROSS JOIN " := by decide
    rwa [hword, ← Fragment.inlineSql_after] at h
  · refine (crossJoin_takes (ht.takes n (by omega))).mono (fun _ ho => ho.tableEnd) ?_
    · rintro _ ⟨t', ⟨w, hw, hs⟩, rfl⟩
      exact ⟨_, w, rfl, hw.map (f := fun w => (JoinKind.cross.clause, w)), hs⟩

end Joins

end Syntax.Parser

end SqlTree
