import SqlTree.Proofs.ClauseOrder
import SqlTree.Proofs.Ensures

/-!
Rows that are given as maps. The keys of all rows, in the order in which they are met, head the
rows, and under each of them a row has its value or a null.
-/

namespace SqlTree

namespace Render

section InTurn

variable {α β : Type} {step : α → β → Nat → Nat → Prop} {as : List α} {bs : List β} {n m : Nat}

/-- Every step goes on from the count at which the one before it ends. -/
inductive InTurn (step : α → β → Nat → Nat → Prop) : List α → List β → Nat → Nat → Prop
  | nil {n : Nat} : InTurn step [] [] n n
  | cons {a : α} {b : β} {as : List α} {bs : List β} {n m k : Nat} (head : step a b n m)
      (tail : InTurn step as bs m k) : InTurn step (a :: as) (b :: bs) n k

theorem InTurn.length_eq (h : InTurn step as bs n m) : bs.length = as.length := by
  induction h with
  | nil => rfl
  | cons _ _ ih => rw [List.length_cons, List.length_cons, ih]

theorem InTurn.forall_mem {P : β → Prop} (hP : ∀ {a b n m}, step a b n m → P b)
    (h : InTurn step as bs n m) : ∀ b ∈ bs, P b := by
  induction h with
  | nil => simp
  | cons head _ ih => exact List.forall_mem_cons.mpr ⟨hP head, ih⟩

theorem exists_of_bind {x : Render α} {k : α → Render β} {b : β} (h : (x >>= k) n = .ok (b, m)) :
    ∃ a n', x n = .ok (a, n') ∧ k a n' = .ok (b, m) := by
  cases hx : x n with
  | error e =>
    rw [bind_of_error hx] at h
    cases h
  | ok r =>
    rw [bind_of_ok hx] at h
    exact ⟨r.1, r.2, rfl, h⟩

theorem exists_of_bind_lift {e : Except Fault α} {k : α → Render β} {b : β}
    (h : (liftM e >>= k) n = .ok (b, m)) : ∃ a, e = .ok a ∧ k a n = .ok (b, m) := by
  cases e with
  | error f => cases h
  | ok a => exact ⟨a, rfl, h⟩

theorem InTurn.of_mapM {f : α → Render β}
    (hstep : ∀ a ∈ as, ∀ b n m, f a n = .ok (b, m) → step a b n m)
    (h : as.mapM f n = .ok (bs, m)) : InTurn step as bs n m := by
  induction as generalizing bs n with
  | nil =>
    cases h
    exact .nil
  | cons a as ih =>
    rw [List.mapM_cons] at h
    obtain ⟨b, n', hb, h⟩ := exists_of_bind h
    obtain ⟨cs, n'', hcs, h⟩ := exists_of_bind h
    cases h
    exact .cons (hstep a (by simp) b n n' hb) (ih (fun a ha => hstep a (by simp [ha])) hcs)

end InTurn

section Columns

/-- A row as a caller gives it: values under names. -/
abbrev Record := List (String × Value)

/-- The names in all rows, each where it is met first. -/
def keysOf (records : List Record) : List String := (records.flatMap (·.map Prod.fst)).eraseDups

variable {records : List Record}

theorem eraseDups_append_singleton (ks : List String) (k : String) :
    (ks ++ [k]).eraseDups = if k ∈ ks then ks.eraseDups else ks.eraseDups ++ [k] := by
  rw [List.eraseDups_append]
  by_cases h : k ∈ ks <;> simp [h, List.removeAll, List.eraseDups_cons]

/-- Columns that hold the names met so far go on holding them behind one more row. -/
theorem addColumns_texts (ks more : List String) :
    addColumns (ks.eraseDups.map Value.text) (more.map Value.text) =
      (ks ++ more).eraseDups.map Value.text := by
  induction more generalizing ks with
  | nil => simp [addColumns]
  | cons k more ih =>
    have hmem : ((ks.eraseDups.map Value.text).any (·.same (.text k))) = decide (k ∈ ks) := by
      rw [Bool.eq_iff_iff]
      simp [Value.same_text_iff]
    have hstep : addColumns (ks.eraseDups.map Value.text) ((k :: more).map Value.text) =
        addColumns ((ks ++ [k]).eraseDups.map Value.text) (more.map Value.text) := by
      rw [eraseDups_append_singleton, List.map_cons, addColumns, addColumns, List.foldl_cons, hmem]
      by_cases hk : k ∈ ks <;> simp [hk]
    rw [hstep, ih, List.append_assoc, List.singleton_append]

/-- The columns of one more row. -/
def rowAdded (columns : List Value) (row : Value) : Except Fault (List Value) :=
  match row.elements? with
  | some cs => .ok (addColumns columns cs)
  | none => .error .wrongType

theorem rowColumns_records (records : List Record) :
    rowColumns (records.map Value.record) = .ok ((keysOf records).map .text) := by
  suffices h : ∀ ks : List String,
      (records.map Value.record).foldlM rowAdded (ks.eraseDups.map Value.text) =
        .ok ((ks ++ records.flatMap (·.map Prod.fst)).eraseDups.map .text) from h []
  induction records with
  | nil => simp [pure, Except.pure]
  | cons row records ih =>
    intro ks
    have hkeys : (Value.record row).elements? = some ((row.map Prod.fst).map .text) := by
      simp [Value.record, Value.elements?]
    rw [List.map_cons, List.foldlM_cons, rowAdded, hkeys]
    change (records.map Value.record).foldlM _ (addColumns _ _) = _
    rw [addColumns_texts, ih, List.flatMap_cons, List.append_assoc]

theorem valueAt?_record (row : Record) (key : String) :
    Entries.valueAt? (row.map fun f => (Value.text f.1, f.2)) (.text key) = row.lookup key := by
  induction row with
  | nil => rfl
  | cons f row ih =>
    rw [Entries.valueAt?] at ih ⊢
    rw [List.map_cons, List.find?_cons, List.lookup_cons]
    by_cases hkey : f.1 = key
    · simp [hkey, Value.same_text_self]
    · have hsame : (Value.text f.1).same (.text key) = false := by
        rw [Bool.eq_false_iff, ne_eq, Value.same_text_iff]
        simpa using hkey
      rw [hsame, ih, beq_false_of_ne (Ne.symm hkey)]

theorem rowValues_record (ks : List String) (row : Record) :
    rowValues (ks.map .text) (.record row) = .ok (ks.map fun k => (row.lookup k).getD .null) := by
  cases ks with
  | nil => rfl
  | cons k ks => simp [rowValues, Value.record, Value.isKey, valueAt?_record, Function.comp_def]

end Columns

section Rows

variable {s : Settings} {f : Fragment} {k n m : Nat}

/-- What a row has under a name: its value as it is rendered, or a null. -/
def CellRendered (r : Renderer) (s : Settings) (row : Record) (key : String) (cell : Fragment)
    (n m : Nat) : Prop :=
  match row.lookup key with
  | some v => r.expr s false v n = .ok (cell, m)
  | none => cell = [.literal "NULL"] ∧ m = n

theorem upTo_null (h : (upTo k).expr s false .null n = .ok (f, m)) :
    f = [.literal "NULL"] ∧ m = n := by
  cases k with
  | zero => cases h
  | succ k =>
    have hrun : deeper (upTo k) s (statement (upTo k) · true) false .null n = .ok (f, m) := h
    rw [deeper] at hrun
    obtain ⟨_, n', hdepth, hexpr⟩ := exists_of_bind hrun
    have hcount : n' = n := by
      unfold checkDepth at hdepth
      split at hdepth
      · cases hdepth
      · cases hdepth
        rfl
    subst hcount
    cases hexpr
    exact ⟨rfl, rfl⟩

theorem CellRendered.of_lookup {row : Record} {key : String} {cell : Fragment}
    (h : (upTo k).expr s false ((row.lookup key).getD .null) n = .ok (cell, m)) :
    CellRendered (upTo k) s row key cell n m := by
  unfold CellRendered
  cases hv : row.lookup key with
  | none =>
    rw [hv] at h
    exact upTo_null h
  | some v =>
    rw [hv] at h
    exact h

/-- One row: a cell under each name, in parentheses. -/
theorem row_rendered {ks : List String} {record : Record}
    (h : row (upTo k) s (ks.map fun key => (record.lookup key).getD .null) n = .ok (f, m)) :
    ∃ cells, f = Fragment.parens (Fragment.commas cells) ∧
      InTurn (CellRendered (upTo k) s record) ks cells n m := by
  obtain ⟨g, n', hg, h⟩ := exists_of_bind h
  obtain ⟨cells, n'', hcells, hg⟩ := exists_of_bind hg
  cases hg
  cases h
  rw [each, List.mapM_map] at hcells
  exact ⟨cells, rfl, .of_mapM (fun _ _ _ _ _ hcell => .of_lookup hcell) hcells⟩

theorem exists_cells {records : List Record} {ks : List String} {rows : List Fragment}
    (h : InTurn (fun record f n m => ∃ cells, f = Fragment.parens (Fragment.commas cells) ∧
      InTurn (CellRendered (upTo k) s record) ks cells n m) records rows n m) :
    ∃ cells, rows = cells.map (fun fs => Fragment.parens (Fragment.commas fs)) ∧
      InTurn (fun record => InTurn (CellRendered (upTo k) s record) ks) records cells n m := by
  induction h with
  | nil => exact ⟨[], rfl, .nil⟩
  | cons head _ ih =>
    obtain ⟨fs, rfl, hfs⟩ := head
    obtain ⟨cells, rfl, hcells⟩ := ih
    exact ⟨fs :: cells, rfl, .cons hfs hcells⟩

theorem exists_names {ks : List String} {text : String} (h : names s (ks.map .text) = .ok text) :
    ∃ ts, List.Forall₂ (fun key t => name s (.text key) = .ok t) ks ts ∧
      text = ", ".intercalate ts := by
  rw [names, List.mapM_map] at h
  cases hts : ks.mapM (name s ∘ Value.text) with
  | error e =>
    rw [hts] at h
    cases h
  | ok ts =>
    rw [hts] at h
    cases h
    have hall : Meets (fun _ => True) (List.Forall₂ (fun key t => name s (.text key) = .ok t) ks)
        (ks.mapM (name s ∘ Value.text)) :=
      .mapM fun _ _ => .of_forall (fun _ h => h) fun _ _ => trivial
    exact ⟨ts, hall.of_ok hts, rfl⟩

theorem sql_tuples (d : Dialect) (numbered : Bool) (cells : List (List Fragment)) :
    (Fragment.commas (cells.map fun fs => Fragment.parens (Fragment.commas fs))).sql d numbered =
      ", ".intercalate (cells.map fun fs =>
        "(" ++ ", ".intercalate (fs.map (Fragment.sql d numbered)) ++ ")") := by
  have hparens : ∀ f : Fragment,
      (Fragment.parens f).sql d numbered = "(" ++ f.sql d numbered ++ ")" := fun f => by
    rw [Fragment.parens, Fragment.between, List.cons_append, Fragment.sql_cons, Fragment.sql_append,
      ← String.append_assoc]
    rfl
  simp [Fragment.commas, Fragment.sql_joined, hparens, Function.comp_def]

theorem values_tuples (cells : List (List Fragment)) :
    (Fragment.commas (cells.map fun fs => Fragment.parens (Fragment.commas fs))).values =
      cells.flatMap fun fs => fs.flatMap Fragment.values := by
  have hparens : ∀ f : Fragment, (Fragment.parens f).values = f.values := fun f =>
    (Fragment.values_append f [.text ")"]).trans (List.append_nil _)
  simp [Fragment.commas, Fragment.values_joined, List.flatMap_map, hparens]

/-- Row maps lose nothing and shift nothing. The names in all rows stand in front, each once and in
the order in which they are met; each row has one cell under each of them, in the same order, which
is its own value or a null; and the values are bound row by row. -/
theorem rows_of_records {v : Value} {records : List Record} (hne : records ≠ [])
    (hv : v.asItems = records.map Value.record) (h : rows (upTo k) s v n = .ok (f, m)) :
    ∃ names cells,
      List.Forall₂ (fun key t => name s (.text key) = .ok t) (keysOf records) names ∧
      InTurn (fun record => InTurn (CellRendered (upTo k) s record) (keysOf records))
        records cells n m ∧
      cells.length = records.length ∧ (∀ fs ∈ cells, fs.length = (keysOf records).length) ∧
      (∀ d numbered, f.sql d numbered =
        "(" ++ ", ".intercalate names ++ ") VALUES " ++ ", ".intercalate (cells.map fun fs =>
          "(" ++ ", ".intercalate (fs.map (Fragment.sql d numbered)) ++ ")")) ∧
      f.values = cells.flatMap fun fs => fs.flatMap Fragment.values := by
  obtain ⟨first, rest, rfl⟩ := List.exists_cons_of_ne_nil hne
  have hrun : rows (upTo k) s v = do
      let columns ← rowColumns ((first :: rest).map Value.record)
      let fs ← ((first :: rest).map Value.record).mapM fun v => do
        row (upTo k) s (← rowValues columns v)
      return Fragment.after ("(" ++ (← names s columns) ++ ") VALUES ") (Fragment.commas fs) := by
    unfold rows
    split
    · cases hv
    · rw [hv]
      rfl
  rw [hrun, rowColumns_records] at h
  obtain ⟨_, hcolumns, h⟩ := exists_of_bind_lift h
  cases hcolumns
  obtain ⟨rows, n', hrows, h⟩ := exists_of_bind h
  obtain ⟨text, htext, h⟩ := exists_of_bind_lift h
  cases h
  rw [List.mapM_map] at hrows
  obtain ⟨names, hnames, rfl⟩ := exists_names htext
  have hturn : InTurn (fun record f n m => ∃ cells, f = Fragment.parens (Fragment.commas cells) ∧
      InTurn (CellRendered (upTo k) s record) (keysOf (first :: rest)) cells n m)
      (first :: rest) rows n m := by
    refine .of_mapM (fun record _ _ _ _ hrow => ?_) hrows
    rw [Function.comp_apply, rowValues_record] at hrow
    exact row_rendered hrow
  obtain ⟨cells, rfl, hcells⟩ := exists_cells hturn
  refine ⟨names, cells, hnames, hcells, hcells.length_eq, hcells.forall_mem fun h => h.length_eq,
    fun d numbered => ?_, ?_⟩
  · rw [Fragment.after, Fragment.sql_cons, sql_tuples]
    rfl
  · exact values_tuples cells

/-- Two rows, of which the first lacks a name that the second one begins with. -/
def raggedRows : List Record := [[("b", .int 1)], [("a", .int 2), ("b", .int 3)]]

def raggedSettings : Settings where
  dialect := .postgres
  registry := .standard
  clauseOrder := []
  quoted := false
  quotedSnake := false
  inline := false
  numbered := true
  params := []
  checking := .none
  nullTests := true
  maxDepth := 100
  depth := 0
  statement := []

theorem rows_of_records_ragged :
    ∃ (f : Fragment) (cells : List (List Fragment)),
      rows (upTo 1) raggedSettings (.list (raggedRows.map .record)) 0 = .ok (f, 3) ∧
      f.sql .postgres true = "(b, a) VALUES ($1, NULL), ($2, $3)" ∧
      keysOf raggedRows = ["b", "a"] ∧ cells.length = 2 ∧ (∀ fs ∈ cells, fs.length = 2) ∧
      f.values = cells.flatMap fun fs => fs.flatMap Fragment.values := by
  have hrun : rows (upTo 1) raggedSettings (.list (raggedRows.map .record)) 0 =
      .ok (.text "(b, a) VALUES " :: [.text "(", .slot 1 (.int 1), .text ", ", .literal "NULL",
        .text ")", .text ", ", .text "(", .slot 2 (.int 3), .text ", ", .slot 3 (.int 2),
        .text ")"], 3) := by
    rfl
  obtain ⟨-, cells, -, -, hrows, hcells, -, hvalues⟩ := rows_of_records (by decide) rfl hrun
  exact ⟨_, cells, hrun, by decide, by decide, hrows, hcells, hvalues⟩

end Rows

end Render

end SqlTree
