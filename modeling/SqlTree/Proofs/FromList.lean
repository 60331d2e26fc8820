import SqlTree.Proofs.FromList.Clauses
import SqlTree.Proofs.Readings
import SqlTree.Proofs.Placeholders
import SqlTree.Parse
import Mathlib.Data.List.Forall2

/-! A `FROM` list that is read as clauses and formatted again. Where it is written as one chain it
has the same rows unless an outer join behind a comma keeps what stands on its right. -/

namespace SqlTree.FromList

open Syntax (Tree Depth Read JoinKind Joined FromItem bind_eq_ok)

section Reading

variable {d : Depth}

/-- A join and what its parts are read as. A cross join has no test, and every other join has one. -/
inductive JoinReads (d : Depth) : Tree .join → JoinPart → Prop
  | cross {t : Tree .table} {v : Value} (ht : (t.read : Read Value) d = .ok v) :
    JoinReads d (.join .cross t .absent) ⟨.cross, v, .null⟩
  | tested {kind : JoinKind} (hkind : kind ≠ .cross) {t : Tree .table} {test : Tree .joinTest}
    {v c : Value} (ht : (t.read : Read Value) d = .ok v)
    (hc : (test.read : Read Value) d = .ok c) :
    JoinReads d (.join kind t (.present test)) ⟨kind, v, c⟩

/-- A table with the joins behind it, and what these are read as. -/
inductive SourceReads (d : Depth) : Tree .source → CommaItem → Prop
  | mk {t : Tree .table} {v : Value} {joins : List (Tree .join)} {parts : List JoinPart}
    (ht : (t.read : Read Value) d = .ok v) (hjoins : List.Forall₂ (JoinReads d) joins parts) :
    SourceReads d (.source t (.ofList joins)) ⟨v, parts⟩

/-- The grammar gives every join but a cross join a test. -/
inductive IsTested : Tree .join → Prop
  | cross (t : Tree .table) : IsTested (.join .cross t .absent)
  | tested {kind : JoinKind} (hkind : kind ≠ .cross) (t : Tree .table) (test : Tree .joinTest) :
    IsTested (.join kind t (.present test))

inductive IsSource : Tree .source → Prop
  | mk (t : Tree .table) {joins : List (Tree .join)} (h : ∀ j ∈ joins, IsTested j) :
    IsSource (.source t (.ofList joins))

/-- Where each tree is read as what stands for a part, the trees are read as what stands for their
parts. -/
theorem exists_parts {α β γ : Type} {ts : List α} (read : α → Read β) {reads : α → γ → Prop}
    {as : γ → β} (h : ∀ t ∈ ts, ∀ b, read t d = .ok b → ∃ c, reads t c ∧ as c = b) {bs : List β}
    (hbs : (ts.map read).mapM id d = .ok bs) :
    ∃ cs, List.Forall₂ reads ts cs ∧ cs.map as = bs := by
  induction ts generalizing bs with
  | nil =>
    cases hbs
    exact ⟨[], .nil, rfl⟩
  | cons t ts ih =>
    rw [List.map_cons, List.mapM_cons] at hbs
    obtain ⟨b, hb, hbs⟩ := bind_eq_ok hbs
    obtain ⟨bs, htail, hbs⟩ := bind_eq_ok hbs
    cases hbs
    obtain ⟨c, hc, rfl⟩ := h t (by simp) b hb
    obtain ⟨cs, hcs, rfl⟩ := ih (fun t ht => h t (by simp [ht])) htail
    exact ⟨c :: cs, .cons hc hcs, rfl⟩

theorem exists_joinReads {t : Tree .join} (h : IsTested t) {j : Joined}
    (hj : (t.read : Read Joined) d = .ok j) : ∃ p, JoinReads d t p ∧ p.joined = j := by
  cases h with
  | cross t =>
    obtain ⟨v, hv, h⟩ := bind_eq_ok hj
    cases h
    exact ⟨_, .cross hv, rfl⟩
  | @tested kind hkind t test =>
    obtain ⟨v, hv, h⟩ := bind_eq_ok hj
    obtain ⟨c, hc, h⟩ := bind_eq_ok h
    cases h
    refine ⟨⟨kind, v, c⟩, .tested hkind hv hc, ?_⟩
    cases kind with
    | cross => exact absurd rfl hkind
    | _ => rfl

theorem exists_sourceReads {t : Tree .source} (h : IsSource t) {i : FromItem}
    (hi : (t.read : Read FromItem) d = .ok i) : ∃ c, SourceReads d t c ∧ c.fromItem = i := by
  cases h with
  | @mk t joins h =>
    obtain ⟨v, hv, hi⟩ := bind_eq_ok hi
    obtain ⟨js, hjs, hi⟩ := bind_eq_ok hi
    cases hi
    rw [read_ofList] at hjs
    obtain ⟨parts, hparts, rfl⟩ := exists_parts Tree.read
      (fun j hj _ => exists_joinReads (h j hj)) hjs
    exact ⟨⟨v, parts⟩, .mk hv hparts, rfl⟩

/-- The trees of a `FROM` list are read as the clauses of a list of items. -/
theorem exists_items {sources : List (Tree .source)} (h : ∀ t ∈ sources, IsSource t)
    (hne : sources ≠ []) {es : Entries}
    (hes : Syntax.Reading.fromClause (sources.map Tree.read) d = .ok es) :
    ∃ items, List.Forall₂ (SourceReads ⟨d.limit, d.reached + 1⟩) sources items ∧
      es = entries items := by
  have hvisit : Syntax.visit (do return FromItem.entries (← (sources.map Tree.read).mapM id)) d =
      .ok es := by
    cases sources with
    | nil => exact absurd rfl hne
    | cons t ts => exact hes
  unfold Syntax.visit at hvisit
  dsimp only at hvisit
  split at hvisit
  · cases hvisit
  · obtain ⟨is, his, hes⟩ := bind_eq_ok hvisit
    cases hes
    obtain ⟨items, hitems, rfl⟩ := exists_parts Tree.read
      (fun t ht _ => exists_sourceReads (h t ht)) his
    exact ⟨items, hitems, rfl⟩

end Reading

section Writing

theorem keys_sublist (d : Dialect) : keys.Sublist (d.clauseOrder Registry.standard.clauseOrder) := by
  cases d <;> decide

theorem nodup_clauseOrder (d : Dialect) : (d.clauseOrder Registry.standard.clauseOrder).Nodup := by
  cases d <;> decide

theorem keys_entries (items : List CommaItem) :
    ∀ e ∈ entries items, ∃ key ∈ keys, e.1 = .text key := by
  obtain ⟨cs, hcs, -, -, hkeys⟩ := exists_clauses ((rewritten items).flatMap CommaItem.joins)
  intro e he
  rw [entries_eq, hcs] at he
  rcases List.mem_cons.mp he with rfl | he
  · exact ⟨"from", List.mem_cons_self, rfl⟩
  · obtain ⟨c, hc, rfl⟩ := List.mem_map.mp he
    exact ⟨c.key, List.mem_cons_of_mem _ (hkeys.subset (List.mem_map_of_mem hc)), rfl⟩

theorem isStatement_entries (items : List CommaItem) : isStatement (entries items) = true := by
  have hwrapper : ∀ key ∈ Form.wrapperKeys, Entries.hasField (entries items) key = false := by
    intro key hkey
    rw [Entries.hasField, Option.isSome_eq_false_iff, Option.isNone_iff_eq_none, Entries.field?,
      Entries.valueAt?, Option.map_eq_none_iff, List.find?_eq_none]
    intro e he
    obtain ⟨k, hk, hek⟩ := keys_entries items e he
    rw [hek, Value.same_text_iff, Value.text.injEq]
    rintro rfl
    have hdisjoint : ∀ k ∈ keys, k ∉ Form.wrapperKeys := by decide
    exact hdisjoint k hk hkey
  have hnone : Form.wrapperKeys.any (Entries.hasField (entries items) ·) = false := by
    rw [List.any_eq_false]
    exact fun key hkey => Bool.eq_false_iff.mp (hwrapper key hkey)
  unfold isStatement
  rw [hnone]
  split
  · next key v h =>
    have hkey : Value.text "from" = .text key := by
      rw [entries_eq, List.cons_eq_cons, Prod.mk.injEq] at h
      exact h.1.1
    cases hkey
    rfl
  · rfl

/-- With any options, the clauses that a list is read as are formatted as the list that is written
out again. -/
theorem fragment_entries {o : Options} {s : Settings} (hs : Settings.ofOptions .standard o = .ok s)
    {items : List CommaItem} (hne : items ≠ []) (hwhole : ∀ i ∈ items, ∀ j ∈ i.joins, j.IsWhole) :
    fragment s (.map (entries items)) =
      text (Render.upTo (Value.map (entries items)).height) (s.within (entries items))
        (rewritten items) := by
  obtain ⟨hregistry, -, horder⟩ := Settings.ofOptions_keeps hs
  have hkeys : keys.Sublist s.clauseOrder := horder ▸ keys_sublist s.dialect
  have hnodup : s.clauseOrder.Nodup := horder ▸ nodup_clauseOrder s.dialect
  have htop : fragment s (.map (entries items)) =
      Render.statement (Render.upTo (Value.map (entries items)).height) s false (entries items) :=
    if_pos (isStatement_entries items)
  rw [htop]
  exact statement_entries hregistry hkeys hnodup hne hwhole

end Writing

/-- A `FROM` list is read as the clauses of its items. These are formatted as a list of the same
tables and joins in the same order, in one chain if an item that is not the last has joins. Whatever
the tables hold and the conditions say, it has the rows of the list as it was written, if and only if
no chain was made of it or no item behind the first keeps tuples of a joined table that match
nothing. -/
theorem rows_of_formatted_iff {sources : List (Tree .source)} (h : ∀ t ∈ sources, IsSource t)
    (hne : sources ≠ []) (d : Depth) :
    (∀ es, Syntax.Reading.fromClause (sources.map Tree.read) d = .ok es →
      ∃ items, List.Forall₂ (SourceReads ⟨d.limit, d.reached + 1⟩) sources items ∧
        es = entries items) ∧
    ∀ items, List.Forall₂ (SourceReads ⟨d.limit, d.reached + 1⟩) sources items →
      ((∀ i ∈ items, ∀ j ∈ i.joins, j.IsWhole) → ∀ o s, Settings.ofOptions .standard o = .ok s →
        fragment s (.map (entries items)) =
          text (Render.upTo (Value.map (entries items)).height) (s.within (entries items))
            (rewritten items)) ∧
      ((items.flatMap CommaItem.tables).Nodup →
        ((∀ (α : Type) (db : Database α), Local db items →
            rows db (rewritten items) = rows db items) ↔
          (isChained items = true → ∀ i ∈ items.tail, ∀ j ∈ i.joins, j.isLeftward = true))) := by
  refine ⟨fun es hes => exists_items h hne hes, fun items hitems => ⟨?_, rows_rewritten_iff⟩⟩
  intro hwhole o s hs
  have hnonempty : items ≠ [] := by
    rintro rfl
    cases hitems
    exact hne rfl
  exact fragment_entries hs hnonempty hwhole

section Samples

/-- The relation of a letter. -/
def relationTree (letter : String) : Tree .table := .relation [⟨letter, false⟩] none

/-- The test for equal columns of two tables. -/
def equalTree (left right : List String) : Tree .joinTest :=
  .joinOn (.comparison "=" (.column (left.map (⟨·, false⟩))) (.column (right.map (⟨·, false⟩))))

def equalColumns (left right : String) : Value := .list [.text "=", .text left, .text right]

/-- `a JOIN b ON a.x = b.x, c kind JOIN d ON c.y = d.y` -/
def pairTrees (kind : JoinKind) : List (Tree .source) :=
  [.source (relationTree "a") (.ofList [.join .inner (relationTree "b")
      (.present (equalTree ["a", "x"] ["b", "x"]))]),
   .source (relationTree "c") (.ofList [.join kind (relationTree "d")
      (.present (equalTree ["c", "y"] ["d", "y"]))])]

def pairItems (kind : JoinKind) : List CommaItem :=
  [⟨.text "a", [⟨.inner, .text "b", equalColumns "a.x" "b.x"⟩]⟩,
   ⟨.text "c", [⟨kind, .text "d", equalColumns "c.y" "d.y"⟩]⟩]

theorem nodup_pairItems (kind : JoinKind) : ((pairItems kind).flatMap CommaItem.tables).Nodup := by
  simp [pairItems, CommaItem.tables]

theorem isSource_pairTrees {kind : JoinKind} (hkind : kind ≠ .cross) :
    ∀ t ∈ pairTrees kind, IsSource t := by
  intro t ht
  simp only [pairTrees, List.mem_cons, List.not_mem_nil, or_false] at ht
  rcases ht with rfl | rfl
  · refine .mk _ fun j hj => ?_
    rw [List.mem_singleton] at hj
    exact hj ▸ .tested (by decide) _ _
  · refine .mk _ fun j hj => ?_
    rw [List.mem_singleton] at hj
    exact hj ▸ .tested hkind _ _

theorem pairTrees_read {kind : JoinKind} (hkind : kind ≠ .cross) :
    List.Forall₂ (SourceReads ⟨defaultParseDepth, 3⟩) (pairTrees kind) (pairItems kind) := by
  refine .cons (.mk rfl (.cons (.tested (by decide) rfl rfl) .nil)) (.cons (.mk rfl ?_) .nil)
  exact .cons (.tested hkind rfl rfl) .nil

theorem leftJoin_after_comma_keeps_rows :
    (∀ t ∈ pairTrees .left, IsSource t) ∧ pairTrees .left ≠ [] ∧
      ∀ (α : Type) (db : Database α), Local db (pairItems .left) →
        rows db (rewritten (pairItems .left)) = rows db (pairItems .left) := by
  have hkind : JoinKind.left ≠ .cross := by decide
  have hsources := isSource_pairTrees hkind
  have hnonempty : pairTrees .left ≠ [] := List.cons_ne_nil _ _
  have hread := pairTrees_read hkind
  have hiff := ((rows_of_formatted_iff hsources hnonempty ⟨defaultParseDepth, 2⟩).2 _ hread).2
    (nodup_pairItems .left)
  refine ⟨hsources, hnonempty, hiff.mpr fun _ i hi j hj => ?_⟩
  simp only [pairItems, List.tail_cons, List.mem_singleton] at hi
  subst hi
  rw [List.mem_singleton] at hj
  subst hj
  rfl

/-- Behind a comma a right join is applied to the whole chain, and keeps what the product of the
items has not. -/
theorem rightJoin_after_comma_changes_rows :
    (parse defaultParseDepth "SELECT * FROM a JOIN b ON a.x = b.x, c RIGHT JOIN d ON c.y = d.y"
      ).toOption.map (·.same (.map ((.text "select", .list [.text "*"]) ::
        entries (pairItems .right)))) = some true ∧
      (format .standard {} (.map ((.text "select", .list [.text "*"]) ::
        entries (pairItems .right)))).toOption.map Formatted.sql =
        some "SELECT * FROM a INNER JOIN b ON a.x = b.x CROSS JOIN c RIGHT JOIN d ON c.y = d.y" ∧
      ∃ db : Database Unit, Local db (pairItems .right) ∧
        rows db (rewritten (pairItems .right)) ≠ rows db (pairItems .right) := by
  refine ⟨by decide +kernel, by decide +kernel, ?_⟩
  exact rows_ne_of_not_leftward (nodup_pairItems .right) rfl (List.mem_singleton_self _)
    (List.mem_singleton_self _) rfl

end Samples

end SqlTree.FromList
