import SqlTree.Syntax.Reading.Query
import Mathlib.Data.Multiset.Bind

/-! The rows of a `FROM` list: the product of its items, in each of which the joins are applied from
left to right. One chain of all items has the same rows unless an outer join keeps what stands on
its right. -/

namespace SqlTree.FromList

open Syntax (JoinKind)

/-- A join as it is written. A cross join has no condition. -/
structure JoinPart where
  kind : JoinKind
  table : Value
  condition : Value

structure CommaItem where
  table : Value
  joins : List JoinPart

def CommaItem.tables (i : CommaItem) : List Value := i.table :: i.joins.map JoinPart.table

/-- A tuple for each table, and none where the row is extended by nulls. -/
abbrev Row (α : Type) := Value → Option α

/-- What the tables hold, and which rows meet a condition. -/
structure Database (α : Type) where
  content : Value → Multiset α
  meets : Value → Row α → Bool

section Meaning

variable {α : Type} (db : Database α)

open scoped Classical in
noncomputable def Row.extend (r : Row α) (t : Value) (a : α) : Row α :=
  Function.update r t (some a)

def emptyRow : Row α := fun _ => none

noncomputable def scan (t : Value) : Multiset (Row α) := (db.content t).map (emptyRow.extend t)

/-- The rows that one row makes with the tuples of a table. -/
noncomputable def extensions (t : Value) (r : Row α) : Multiset (Row α) :=
  (db.content t).map (r.extend t)

noncomputable def matching (j : JoinPart) (r : Row α) : Multiset (Row α) :=
  (extensions db j.table r).filter (db.meets j.condition ·)

/-- A row without a match is kept as it is. -/
noncomputable def kept (j : JoinPart) (r : Row α) : Multiset (Row α) :=
  if (matching db j r).card = 0 then {r} else matching db j r

/-- The tuples of the joined table that match no row. -/
noncomputable def unmatched (j : JoinPart) (rows : Multiset (Row α)) : Multiset (Row α) :=
  ((db.content j.table).filter fun a =>
    ∀ r ∈ rows, db.meets j.condition (r.extend j.table a) = false).map (emptyRow.extend j.table)

noncomputable def join (rows : Multiset (Row α)) (j : JoinPart) : Multiset (Row α) :=
  match j.kind with
  | .inner => rows.bind (matching db j)
  | .left => rows.bind (kept db j)
  | .right => rows.bind (matching db j) + unmatched db j rows
  | .full => rows.bind (kept db j) + unmatched db j rows
  | .cross => rows.bind (extensions db j.table)

noncomputable def joined (rows : Multiset (Row α)) (js : List JoinPart) : Multiset (Row α) :=
  js.foldl (join db) rows

noncomputable def CommaItem.rows (i : CommaItem) : Multiset (Row α) :=
  joined db (scan db i.table) i.joins

def merge (r s : Row α) : Row α := fun t => (s t).or (r t)

def product (rows others : Multiset (Row α)) : Multiset (Row α) :=
  rows.bind fun r => others.map (merge r)

noncomputable def rows (items : List CommaItem) : Multiset (Row α) :=
  items.foldl (fun rows i => product rows (i.rows db)) {emptyRow}

/-- A condition depends on the tables of its own item only. -/
def Local (items : List CommaItem) : Prop :=
  ∀ i ∈ items, ∀ j ∈ i.joins, ∀ r s : Row α, (∀ t ∈ i.tables, r t = s t) →
    db.meets j.condition r = db.meets j.condition s

end Meaning

section Chain

/-- Some item that is not the last has joins. -/
def isChained (items : List CommaItem) : Bool := items.dropLast.any fun i => !i.joins.isEmpty

/-- The items behind the first as joins. -/
def linked (items : List CommaItem) : List JoinPart :=
  items.flatMap fun i => ⟨.cross, i.table, .null⟩ :: i.joins

/-- The list as it is written out again. -/
def rewritten (items : List CommaItem) : List CommaItem :=
  if isChained items then
    match items with
    | [] => []
    | i :: rest => [⟨i.table, i.joins ++ linked rest⟩]
  else items

/-- The join keeps no tuples of its table that match nothing. -/
def JoinPart.isLeftward (j : JoinPart) : Bool :=
  match j.kind with
  | .right | .full => false
  | _ => true

end Chain

section Rows

variable {α : Type} {db : Database α} {j : JoinPart} {R S : Multiset (Row α)} {r s : Row α}

theorem merge_extend (r s : Row α) (t : Value) (a : α) :
    merge r (s.extend t a) = (merge r s).extend t a := by
  funext u
  by_cases h : u = t
  · subst h
    simp [merge, Row.extend]
  · simp [merge, Row.extend, h]

theorem merge_empty (r : Row α) : merge r emptyRow = r := by
  funext t
  simp [merge, emptyRow]

theorem empty_merge (r : Row α) : merge emptyRow r = r := by
  funext t
  simp [merge, emptyRow]

theorem product_empty (S : Multiset (Row α)) : product {emptyRow} S = S := by
  have hmerge : merge (emptyRow : Row α) = id := funext empty_merge
  rw [product, Multiset.singleton_bind, hmerge, Multiset.map_id]

theorem extensions_merge (r s : Row α) (t : Value) :
    extensions db t (merge r s) = (extensions db t s).map (merge r) := by
  rw [extensions, extensions, Multiset.map_map]
  exact Multiset.map_congr rfl fun a _ => (merge_extend r s t a).symm

theorem matching_merge (h : ∀ s, db.meets j.condition (merge r s) = db.meets j.condition s)
    (s : Row α) : matching db j (merge r s) = (matching db j s).map (merge r) := by
  rw [matching, matching, extensions_merge, Multiset.filter_map]
  congr 2
  funext x
  simp [h]

theorem kept_merge (h : ∀ s, db.meets j.condition (merge r s) = db.meets j.condition s)
    (s : Row α) : kept db j (merge r s) = (kept db j s).map (merge r) := by
  rw [kept, kept, matching_merge h, Multiset.card_map]
  split
  · rw [Multiset.map_singleton]
  · rfl

/-- What each row becomes may be done before the rows are multiplied. -/
theorem bind_product {f : Row α → Multiset (Row α)}
    (h : ∀ r ∈ R, ∀ s, f (merge r s) = (f s).map (merge r)) :
    (product R S).bind f = product R (S.bind f) := by
  rw [product, product, Multiset.bind_assoc]
  refine Multiset.bind_congr fun r hr => ?_
  rw [Multiset.bind_map, Multiset.map_bind]
  exact Multiset.bind_congr fun s _ => h r hr s

theorem join_product (hj : j.isLeftward = true)
    (h : ∀ r ∈ R, ∀ s, db.meets j.condition (merge r s) = db.meets j.condition s) :
    join db (product R S) j = product R (join db S j) := by
  cases hkind : j.kind with
  | inner =>
    simp only [join, hkind]
    exact bind_product fun r hr => matching_merge (h r hr)
  | left =>
    simp only [join, hkind]
    exact bind_product fun r hr => kept_merge (h r hr)
  | cross =>
    simp only [join, hkind]
    exact bind_product fun r _ s => extensions_merge r s j.table
  | right => simp [JoinPart.isLeftward, hkind] at hj
  | full => simp [JoinPart.isLeftward, hkind] at hj

theorem joined_product {js : List JoinPart} (hjs : ∀ j ∈ js, j.isLeftward = true)
    (h : ∀ j ∈ js, ∀ r ∈ R, ∀ s, db.meets j.condition (merge r s) = db.meets j.condition s) :
    joined db (product R S) js = product R (joined db S js) := by
  induction js generalizing S with
  | nil => rfl
  | cons j js ih =>
    have hstep := join_product (S := S) (hjs j (by simp)) (h j (by simp))
    rw [joined, List.foldl_cons, hstep]
    exact ih (fun i hi => hjs i (by simp [hi])) fun i hi => h i (by simp [hi])

/-- A cross join is a product. -/
theorem join_cross (R : Multiset (Row α)) (t c : Value) :
    join db R ⟨.cross, t, c⟩ = product R (scan db t) := by
  change R.bind (extensions db t) = product R (scan db t)
  refine Multiset.bind_congr fun r _ => ?_
  have h : extensions db t (merge r emptyRow) = (extensions db t emptyRow).map (merge r) :=
    extensions_merge r emptyRow t
  rwa [merge_empty] at h

end Rows

section Support

variable {α : Type} {db : Database α} {R S : Multiset (Row α)} {ts us : List Value}

/-- The rows have tuples of these tables only. -/
def Within (ts : List Value) (R : Multiset (Row α)) : Prop := ∀ r ∈ R, ∀ t ∉ ts, r t = none

theorem extend_of_ne {r : Row α} {t u : Value} (h : u ≠ t) (a : α) : r.extend t a u = r u := by
  simp [Row.extend, h]

theorem within_scan (t : Value) : Within [t] (scan db t) := by
  intro r hr u hu
  obtain ⟨a, -, rfl⟩ := Multiset.mem_map.mp hr
  exact extend_of_ne (by simpa using hu) a

theorem mem_join {j : JoinPart} {r : Row α} (h : r ∈ join db R j) :
    r ∈ R ∨ (∃ s ∈ R, ∃ a, r = s.extend j.table a) ∨ ∃ a, r = emptyRow.extend j.table a := by
  have hextended : ∀ s ∈ R, r ∈ extensions db j.table s → ∃ s ∈ R, ∃ a, r = s.extend j.table a := by
    intro s hs hr
    obtain ⟨a, -, rfl⟩ := Multiset.mem_map.mp hr
    exact ⟨s, hs, a, rfl⟩
  have hmatching : r ∈ R.bind (matching db j) → ∃ s ∈ R, ∃ a, r = s.extend j.table a := by
    intro hr
    obtain ⟨s, hs, hr⟩ := Multiset.mem_bind.mp hr
    exact hextended s hs (Multiset.mem_of_mem_filter hr)
  have hkept : r ∈ R.bind (kept db j) → r ∈ R ∨ ∃ s ∈ R, ∃ a, r = s.extend j.table a := by
    intro hr
    obtain ⟨s, hs, hr⟩ := Multiset.mem_bind.mp hr
    unfold kept at hr
    split at hr
    · rw [Multiset.mem_singleton] at hr
      exact .inl (hr ▸ hs)
    · exact .inr (hextended s hs (Multiset.mem_of_mem_filter hr))
  have hunmatched : r ∈ unmatched db j R → ∃ a, r = emptyRow.extend j.table a := by
    intro hr
    obtain ⟨a, -, rfl⟩ := Multiset.mem_map.mp hr
    exact ⟨a, rfl⟩
  unfold join at h
  split at h
  · exact .inr (.inl (hmatching h))
  · exact (hkept h).imp_right .inl
  · exact .inr ((Multiset.mem_add.mp h).imp hmatching hunmatched)
  · exact (Multiset.mem_add.mp h).elim (fun h => (hkept h).imp_right .inl)
      fun h => .inr (.inr (hunmatched h))
  · obtain ⟨s, hs, hr⟩ := Multiset.mem_bind.mp h
    exact .inr (.inl (hextended s hs hr))

theorem Within.join {j : JoinPart} (h : Within ts R) : Within (ts ++ [j.table]) (join db R j) := by
  intro r hr u hu
  simp only [List.mem_append, List.mem_singleton, not_or] at hu
  rcases mem_join hr with hr | ⟨s, hs, a, rfl⟩ | ⟨a, rfl⟩
  · exact h r hr u hu.1
  · rw [extend_of_ne hu.2]
    exact h s hs u hu.1
  · exact extend_of_ne hu.2 a

theorem Within.joined {js : List JoinPart} (h : Within ts R) :
    Within (ts ++ js.map JoinPart.table) (joined db R js) := by
  induction js generalizing ts R with
  | nil => simpa [FromList.joined] using h
  | cons j js ih =>
    have hjoin : Within (ts ++ [j.table]) (FromList.join db R j) := h.join
    simpa [FromList.joined] using ih hjoin

theorem CommaItem.within (i : CommaItem) : Within i.tables (i.rows db) :=
  (within_scan i.table).joined

theorem Within.product (hR : Within ts R) (hS : Within us S) :
    Within (ts ++ us) (product R S) := by
  intro r hr u hu
  simp only [List.mem_append, not_or] at hu
  obtain ⟨x, hx, hr⟩ := Multiset.mem_bind.mp hr
  obtain ⟨y, hy, rfl⟩ := Multiset.mem_map.mp hr
  simp [merge, hR x hx u hu.1, hS y hy u hu.2]

end Support

section Rewriting

variable {α : Type} {db : Database α} {items : List CommaItem} {ts : List Value}

/-- A condition that depends on tables of its own only is met by a row if it is met by what the row
is merged with. -/
theorem Local.meets_merge (h : Local db items) {i : CommaItem} (hi : i ∈ items) {j : JoinPart}
    (hj : j ∈ i.joins) {R : Multiset (Row α)} (hR : Within ts R) (hdisjoint : List.Disjoint ts i.tables)
    {r : Row α} (hr : r ∈ R) (s : Row α) :
    db.meets j.condition (merge r s) = db.meets j.condition s := by
  refine h i hi j hj _ _ fun t ht => ?_
  have hnone : r t = none := hR r hr t fun hmem => hdisjoint hmem ht
  simp [merge, hnone]

/-- Behind earlier items, the joins of an item may be applied to the product. -/
theorem joined_linked (hlocal : Local db items) {rest : List CommaItem} (hrest : rest ⊆ items)
    (hleftward : ∀ i ∈ rest, ∀ j ∈ i.joins, j.isLeftward = true) {R : Multiset (Row α)}
    (hR : Within ts R) (hnodup : (ts ++ rest.flatMap CommaItem.tables).Nodup) :
    joined db R (linked rest) = rest.foldl (fun rows i => product rows (i.rows db)) R := by
  induction rest generalizing R ts with
  | nil => rfl
  | cons i rest ih =>
    rw [List.flatMap_cons, ← List.append_assoc] at hnodup
    have hdisjoint : List.Disjoint ts i.tables := (List.nodup_append'.mp
      (List.nodup_append'.mp hnodup).1).2.2
    have hitem : joined db (join db R ⟨.cross, i.table, .null⟩) i.joins = product R (i.rows db) := by
      rw [join_cross]
      refine joined_product (hleftward i (by simp)) fun j hj r hr s => ?_
      exact hlocal.meets_merge (hrest (by simp)) hj hR hdisjoint hr s
    have hlinked : joined db R (linked (i :: rest)) =
        joined db (joined db (join db R ⟨.cross, i.table, .null⟩) i.joins) (linked rest) := by
      simp [joined, linked, List.foldl_append]
    rw [hlinked, hitem, List.foldl_cons]
    exact ih (fun x hx => hrest (by simp [hx])) (fun x hx => hleftward x (by simp [hx]))
      (hR.product i.within) hnodup

theorem rows_rewritten (hlocal : Local db items) (hnodup : (items.flatMap CommaItem.tables).Nodup)
    (h : isChained items = true → ∀ i ∈ items.tail, ∀ j ∈ i.joins, j.isLeftward = true) :
    rows db (rewritten items) = rows db items := by
  unfold rewritten
  split
  · next hchained =>
    cases items with
    | nil => rfl
    | cons i rest =>
      have hchain : joined db (scan db i.table) (i.joins ++ linked rest) =
          joined db (i.rows db) (linked rest) := by
        simp [joined, CommaItem.rows, List.foldl_append]
      have hwithin : Within i.tables (i.rows db) := i.within
      have hrest := joined_linked hlocal (List.subset_cons_self i rest) (h hchained) hwithin
        (by simpa using hnodup)
      simp only [rows, List.foldl_cons, List.foldl_nil, product_empty]
      rw [← hrest, ← hchain]
      rfl
  · rfl

end Rewriting

section Outer

/-- A table of an item behind the first that is joined by an outer join that keeps it. -/
theorem split_of_not_leftward {items : List CommaItem} {i : CommaItem} (hi : i ∈ items.tail)
    {j : JoinPart} (hj : j ∈ i.joins) :
    ∃ first rest before after, items = first :: rest ∧ linked rest = before ++ j :: after := by
  cases items with
  | nil => cases hi
  | cons first rest =>
    have hmem : j ∈ linked rest :=
      List.mem_flatMap.mpr ⟨i, hi, List.mem_cons_of_mem _ hj⟩
    obtain ⟨before, after, hsplit⟩ := List.append_of_mem hmem
    exact ⟨first, rest, before, after, rfl, hsplit⟩

/-- The tables in the list are empty, all others hold one tuple; all conditions are met. -/
noncomputable def emptyAt (ts : List Value) : Database Unit where
  content t := open scoped Classical in if t ∈ ts then 0 else {()}
  meets _ _ := true

variable {ts : List Value}

theorem joined_empty {js : List JoinPart} (h : ∀ j ∈ js, j.table ∈ ts) :
    joined (emptyAt ts) 0 js = 0 := by
  induction js with
  | nil => rfl
  | cons j js ih =>
    have hcontent : (emptyAt ts).content j.table = 0 := if_pos (h j (by simp))
    have hjoin : join (emptyAt ts) 0 j = 0 := by
      cases hkind : j.kind <;> simp [join, hkind, unmatched, hcontent]
    rw [joined, List.foldl_cons, hjoin]
    exact ih fun i hi => h i (by simp [hi])

/-- Rows stay rows where every table has a tuple and every condition is met. -/
theorem join_ne_empty {j : JoinPart} (h : j.table ∉ ts) {R : Multiset (Row Unit)} (hR : R ≠ 0) :
    join (emptyAt ts) R j ≠ 0 := by
  have hcontent : (emptyAt ts).content j.table = {()} := if_neg h
  obtain ⟨r, hr⟩ := Multiset.exists_mem_of_ne_zero hR
  have hextension : r.extend j.table () ∈ extensions (emptyAt ts) j.table r := by
    simp [extensions, hcontent]
  have hmatching : r.extend j.table () ∈ matching (emptyAt ts) j r :=
    Multiset.mem_filter.mpr ⟨hextension, rfl⟩
  have hkept : r.extend j.table () ∈ kept (emptyAt ts) j r := by
    have hcard : (matching (emptyAt ts) j r).card ≠ 0 := by
      rw [Ne, Multiset.card_eq_zero]
      exact fun hzero => Multiset.notMem_zero _ (hzero ▸ hmatching)
    rw [kept, if_neg hcard]
    exact hmatching
  have hmem : r.extend j.table () ∈ join (emptyAt ts) R j := by
    unfold join
    split
    · exact Multiset.mem_bind.mpr ⟨r, hr, hmatching⟩
    · exact Multiset.mem_bind.mpr ⟨r, hr, hkept⟩
    · exact Multiset.mem_add.mpr (.inl (Multiset.mem_bind.mpr ⟨r, hr, hmatching⟩))
    · exact Multiset.mem_add.mpr (.inl (Multiset.mem_bind.mpr ⟨r, hr, hkept⟩))
    · exact Multiset.mem_bind.mpr ⟨r, hr, hextension⟩
  exact fun hzero => Multiset.notMem_zero _ (hzero ▸ hmem)

theorem joined_ne_empty {js : List JoinPart} (h : ∀ j ∈ js, j.table ∉ ts) {R : Multiset (Row Unit)}
    (hR : R ≠ 0) : joined (emptyAt ts) R js ≠ 0 := by
  induction js generalizing R with
  | nil => exact hR
  | cons j js ih => exact ih (fun i hi => h i (by simp [hi])) (join_ne_empty (h j (by simp)) hR)

/-- The tables in front of an outer join are empty. It keeps its tuple in the chain, and in the
product the empty first item leaves nothing. -/
theorem rows_ne_of_not_leftward {items : List CommaItem}
    (hnodup : (items.flatMap CommaItem.tables).Nodup) (hchained : isChained items = true)
    {i : CommaItem} (hi : i ∈ items.tail) {j : JoinPart} (hj : j ∈ i.joins)
    (hleftward : j.isLeftward = false) :
    ∃ db : Database Unit, Local db items ∧ rows db (rewritten items) ≠ rows db items := by
  obtain ⟨first, rest, before, after, rfl, hsplit⟩ := split_of_not_leftward hi hj
  let ts := first.tables ++ before.map JoinPart.table
  have htables : (first :: rest).flatMap CommaItem.tables =
      ts ++ j.table :: after.map JoinPart.table := by
    have hlinked : ∀ is : List CommaItem, is.flatMap CommaItem.tables =
        (linked is).map JoinPart.table := by
      intro is
      rw [linked, List.map_flatMap]
      rfl
    rw [List.flatMap_cons, hlinked, hsplit]
    simp [ts]
  rw [htables] at hnodup
  have hfresh : ∀ t ∈ j.table :: after.map JoinPart.table, t ∉ ts := by
    intro t ht hmem
    exact (List.nodup_append'.mp hnodup).2.2 hmem ht
  have hfirst : first.rows (emptyAt ts) = 0 := by
    have hscan : scan (emptyAt ts) first.table = 0 := by
      have hcontent : (emptyAt ts).content first.table = 0 :=
        if_pos (by simp [ts, CommaItem.tables])
      rw [scan, hcontent, Multiset.map_zero]
    rw [CommaItem.rows, hscan]
    refine joined_empty fun x hx => ?_
    simp only [ts, CommaItem.tables, List.mem_append, List.mem_cons, List.mem_map]
    exact .inl (.inr ⟨x, hx, rfl⟩)
  refine ⟨emptyAt ts, fun _ _ _ _ _ _ _ => rfl, ?_⟩
  have hproduct : rows (emptyAt ts) (first :: rest) = 0 := by
    have hzero : ∀ is : List CommaItem,
        is.foldl (fun rows i => product rows (i.rows (emptyAt ts))) 0 = 0 := by
      intro is
      induction is with
      | nil => rfl
      | cons i is ih => exact ih
    rw [rows, List.foldl_cons, hfirst, product_empty]
    exact hzero rest
  have hchain : rows (emptyAt ts) (rewritten (first :: rest)) =
      joined (emptyAt ts) (join (emptyAt ts) (joined (emptyAt ts) 0 before) j) after := by
    have hrewritten : rewritten (first :: rest) =
        [⟨first.table, first.joins ++ linked rest⟩] := if_pos hchained
    have hrow : joined (emptyAt ts) (scan (emptyAt ts) first.table) first.joins = 0 := hfirst
    rw [hrewritten, hsplit, rows, List.foldl_cons, List.foldl_nil, product_empty, CommaItem.rows]
    simp only [joined, List.foldl_append, List.foldl_cons] at hrow ⊢
    rw [hrow]
  have hbefore : joined (emptyAt ts) 0 before = 0 := by
    refine joined_empty fun x hx => ?_
    simp only [ts, List.mem_append, List.mem_map]
    exact .inr ⟨x, hx, rfl⟩
  have houter : join (emptyAt ts) 0 j ≠ 0 := by
    have hcontent : (emptyAt ts).content j.table = {()} := if_neg (hfresh j.table (by simp))
    have hunmatched : unmatched (emptyAt ts) j 0 ≠ 0 := by
      simp [unmatched, hcontent]
    cases hkind : j.kind with
    | right => simpa [join, hkind] using hunmatched
    | full => simpa [join, hkind] using hunmatched
    | inner => simp [JoinPart.isLeftward, hkind] at hleftward
    | left => simp [JoinPart.isLeftward, hkind] at hleftward
    | cross => simp [JoinPart.isLeftward, hkind] at hleftward
  rw [hproduct, hchain, hbefore]
  exact joined_ne_empty (fun x hx => hfresh x.table (by simp [List.mem_map_of_mem hx])) houter

end Outer

/-- A list has the same rows when it is written out again, whatever the tables hold and the
conditions say, if and only if no chain has to be made of it or no item behind the first keeps
tuples of a joined table that match nothing. -/
theorem rows_rewritten_iff {items : List CommaItem}
    (hnodup : (items.flatMap CommaItem.tables).Nodup) :
    (∀ (α : Type) (db : Database α), Local db items → rows db (rewritten items) = rows db items) ↔
      (isChained items = true → ∀ i ∈ items.tail, ∀ j ∈ i.joins, j.isLeftward = true) := by
  constructor
  · intro h hchained i hi j hj
    by_contra hleftward
    obtain ⟨db, hlocal, hne⟩ := rows_ne_of_not_leftward hnodup hchained hi hj
      (Bool.eq_false_iff.mpr hleftward)
    exact hne (h Unit db hlocal)
  · exact fun h α db hlocal => rows_rewritten hlocal hnodup h

end SqlTree.FromList
