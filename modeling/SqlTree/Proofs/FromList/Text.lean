import SqlTree.Proofs.FromList.Rows
import SqlTree.Render.Clauses

/-! The text of a `FROM` list. What is read as a clause map is written as a list again, in the order
in which it was read. -/

namespace SqlTree.FromList

open Syntax (JoinKind Joined FromItem)
open Render (item)
open Fragment (commas after)

section Layout

def joinWords : JoinKind → String
  | .inner => "INNER JOIN "
  | .left => "LEFT JOIN "
  | .right => "RIGHT JOIN "
  | .full => "FULL JOIN "
  | .cross => "CROSS JOIN "

variable (r : Renderer) (s : Settings)

def conditionText (c : Value) : Render Fragment :=
  match Render.usingColumns? c with
  | some columns => do return [.text (" USING (" ++ (← Render.names s columns) ++ ")")]
  | none => do return after " ON " (← r.expr s false c)

def joinText (j : JoinPart) : Render Fragment := do
  let t ← item r s true j.table
  match j.kind with
  | .cross => return after (joinWords j.kind) t
  | _ => return after (joinWords j.kind) t ++ (← conditionText r s j.condition)

/-- A join with whatever condition it has. Nothing is written for a condition that is null. -/
def joinPhrase (j : JoinPart) : Render Fragment := do
  let t ← item r s true j.table
  match j.kind with
  | .cross => return after (joinWords j.kind) t
  | _ => return after (joinWords j.kind) t ++ (← Render.joinCondition r s j.condition)

def itemText (i : CommaItem) : Render Fragment := do
  let t ← item r s true i.table
  return Fragment.joined " " (t :: (← i.joins.mapM (joinText r s)))

/-- Items with commas between them, each a table with its joins behind it. -/
def text (items : List CommaItem) : Render Fragment := do
  return after "FROM " (commas (← items.mapM (itemText r s)))

end Layout

section Entries

def JoinPart.entry (j : JoinPart) : Value :=
  match j.kind with
  | .cross => j.table
  | _ => .list [j.table, j.condition]

def JoinPart.joined (j : JoinPart) : Joined := (j.kind.clause, j.entry)

def CommaItem.fromItem (i : CommaItem) : FromItem := ⟨i.table, i.joins.map JoinPart.joined⟩

/-- The clauses that a list is read as. -/
def entries (items : List CommaItem) : Entries := FromItem.entries (items.map CommaItem.fromItem)

theorem isChained_fromItem (items : List CommaItem) :
    FromItem.isChained (items.map CommaItem.fromItem) = isChained items := by
  rw [FromItem.isChained, isChained, ← List.map_dropLast, List.any_map]
  congr 1
  funext i
  simp [CommaItem.fromItem]

theorem chain_fromItem (items : List CommaItem) :
    FromItem.chain (items.map CommaItem.fromItem) = (linked items).map JoinPart.joined := by
  induction items with
  | nil => rfl
  | cons i items ih =>
    rw [List.map_cons, FromItem.chain, ih]
    simp [linked, CommaItem.fromItem, JoinPart.joined, JoinPart.entry, JoinKind.clause]

theorem entries_eq (items : List CommaItem) :
    entries items = (.text "from", FromItem.tableValue ((rewritten items).map CommaItem.table)) ::
      Joined.entries (((rewritten items).flatMap CommaItem.joins).map JoinPart.joined) := by
  rw [entries, FromItem.entries, FromItem.tables, FromItem.joined, isChained_fromItem]
  unfold rewritten
  split
  · cases items with
    | nil => rfl
    | cons i rest =>
      rw [chain_fromItem]
      simp [linked, CommaItem.fromItem]
  · simp [List.map_flatMap, List.flatMap_map, Function.comp_def, CommaItem.fromItem]

/-- Only the last item of a list that is written out again has joins. -/
theorem rewritten_split {items : List CommaItem} (hne : items ≠ []) :
    ∃ front last, rewritten items = front ++ [last] ∧ ∀ i ∈ front, i.joins = [] := by
  unfold rewritten
  split
  · cases items with
    | nil => exact absurd rfl hne
    | cons i rest => exact ⟨[], _, rfl, by simp⟩
  · next hchained =>
    refine ⟨items.dropLast, items.getLast hne, (List.dropLast_append_getLast hne).symm, fun i hi => ?_⟩
    by_contra hjoins
    refine hchained (List.any_eq_true.mpr ⟨i, hi, ?_⟩)
    simpa using hjoins

end Entries

section Spaces

theorem joined_cons (separator : String) (f : Fragment) (fs : List Fragment) :
    Fragment.joined separator (f :: fs) = f ++ fs.flatMap (.text separator :: ·) := by
  induction fs generalizing f with
  | nil => simp [Fragment.joined]
  | cons g gs ih => simp [Fragment.joined, ih g]

theorem joined_concat (separator : String) (fs : List Fragment) (f g : Fragment) :
    Fragment.joined separator (fs ++ [f ++ g]) = Fragment.joined separator (fs ++ [f]) ++ g := by
  cases fs with
  | nil => rfl
  | cons => simp [joined_cons]

end Spaces

section Text

variable {r : Renderer} {s : Settings}

theorem mapM_congr {α β : Type} {l : List α} {f g : α → Render β} (h : ∀ a ∈ l, f a = g a) :
    l.mapM f = l.mapM g := by
  induction l with
  | nil => rfl
  | cons a l ih =>
    rw [List.mapM_cons, List.mapM_cons, h a (by simp), ih fun b hb => h b (by simp [hb])]

/-- Tables first, then the joins of the last one. -/
theorem text_eq {front : List CommaItem} {last : CommaItem} (hfront : ∀ i ∈ front, i.joins = []) :
    text r s (front ++ [last]) = do
      let ts ← ((front ++ [last]).map CommaItem.table).mapM (item r s true)
      let js ← ((front ++ [last]).flatMap CommaItem.joins).mapM (joinText r s)
      return after "FROM " (commas ts) ++ js.flatMap (.text " " :: ·) := by
  have hitem : ∀ i ∈ front, itemText r s i = item r s true i.table := by
    intro i hi
    simp [itemText, hfront i hi, Fragment.joined]
  have hitems : front.mapM (itemText r s) = (front.map CommaItem.table).mapM (item r s true) := by
    rw [List.mapM_map]
    exact mapM_congr hitem
  have hjoins : (front ++ [last]).flatMap CommaItem.joins = last.joins := by
    rw [List.flatMap_append, List.flatMap_eq_nil_iff.mpr hfront, List.nil_append,
      List.flatMap_singleton]
  rw [hjoins, text, List.map_append, List.mapM_append, List.mapM_append, hitems]
  simp only [List.mapM_cons, List.mapM_nil, itemText, List.map_cons, List.map_nil, bind_assoc,
    pure_bind, joined_cons, commas, after, joined_concat, List.cons_append]

end Text

section Visible

/-- Whatever is rendered, it is not blank. -/
def Visible (m : Render Fragment) : Prop := ∀ n f k, m n = .ok (f, k) → f.isBlank = false

variable {m : Render Fragment}

theorem Visible.kept (h : Visible m) :
    (do let f ← m; return if f.isBlank then none else some f : Render (Option Fragment)) =
      some <$> m := by
  funext n
  cases hm : m n with
  | error => simp only [Bind.bind, StateT.bind, Functor.map, StateT.map, Except.bind, hm]
  | ok p =>
    simp only [Bind.bind, StateT.bind, Functor.map, StateT.map, Except.bind, hm]
    rw [if_neg (Bool.eq_false_iff.mp (h n p.1 p.2 hm))]
    rfl

theorem Visible.bind {α : Type} {m : Render α} {g : α → Render Fragment}
    (h : ∀ a, Visible (g a)) : Visible (m >>= g) := by
  intro n f k hrun
  simp only [Bind.bind, StateT.bind, Except.bind] at hrun
  split at hrun
  · cases hrun
  · exact h _ _ _ _ hrun

theorem visible_pure {f : Fragment} (h : f.isBlank = false) : Visible (pure f) := by
  intro n g k hrun
  cases hrun
  exact h

/-- Words in front make a fragment visible. -/
theorem isBlank_after {t : String} (ht : t.isEmpty = false) (f : Fragment) :
    (after t f).isBlank = false := by
  change (t.isEmpty && _) = false
  rw [ht, Bool.false_and]

theorem joinPhrase_visible (r : Renderer) (s : Settings) (j : JoinPart) :
    Visible (joinPhrase r s j) := by
  refine .bind fun t => ?_
  have hwords : ∀ kind, (joinWords kind).isEmpty = false := by
    intro kind
    cases kind <;> rfl
  split
  · exact visible_pure (isBlank_after (hwords _) t)
  · exact .bind fun c => visible_pure (by rw [Fragment.isBlank_append, isBlank_after (hwords _) t]; rfl)

theorem isBlank_joined {separator : String} {f : Fragment} (h : f.isBlank = false)
    (fs : List Fragment) : (Fragment.joined separator (f :: fs)).isBlank = false := by
  rw [joined_cons, Fragment.isBlank_append, h, Bool.false_and]

theorem joins_visible (r : Renderer) (s : Settings) {js : List JoinPart} (hne : js ≠ []) :
    Visible (Fragment.joined " " <$> js.mapM (joinPhrase r s)) := by
  cases js with
  | nil => exact absurd rfl hne
  | cons j js =>
    rw [List.mapM_cons, map_bind]
    intro n f k h
    simp only [Bind.bind, StateT.bind, Except.bind] at h
    split at h
    · cases h
    · next p hp =>
      have hvisible : p.1.isBlank = false := joinPhrase_visible r s j n p.1 p.2 hp
      have hrest : Visible (Fragment.joined " " <$> do
          let fs ← js.mapM (joinPhrase r s)
          return p.1 :: fs) := by
        rw [map_bind]
        exact .bind fun fs => visible_pure (isBlank_joined hvisible fs)
      exact hrest _ _ _ h

end Visible

end SqlTree.FromList
