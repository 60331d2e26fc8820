import SqlTree.Proofs.Readings
import SqlTree.Proofs.Yields
import SqlTree.Proofs.Scopes.Survey

/-!
Expressions that are read from SQL text are neat, where the queries in them are.
-/

namespace SqlTree

open Syntax
open Walk (isLeaf reach?)
open QueryBlock

variable {v : Value} {vs : List Value} {es fs : Entries} {key : String} {keys keys' : List String}

/-- An entry that is shaped as the searches expect, with a neat value where it is searched. -/
structure NeatEntry (e : Value × Value) : Prop where
  framed : Framed e
  neat : ∀ w ∈ bodies (reach? e.1) e.2, Neat w

/-- Neat entries whose clauses with scopes are some of these, in this order. -/
structure NeatEntries (keys : List String) (es : Entries) : Prop where
  entries : ∀ e ∈ es, NeatEntry e
  keys : (searchedKeys es).Sublist (keys.map .text)

/-- The entries of a clause map as a reading makes it. -/
structure NeatBlock (es : Entries) : Prop where
  ne_nil : es ≠ []
  nodup : (searchedKeys es).Nodup
  entries : ∀ e ∈ es, NeatEntry e

section Entries

theorem mem_bodies_of_plain (hkey : key ∉ shapedKeys) {w : Value}
    (hw : w ∈ bodies (reach? (.text key)) v) : w = v := by
  simp only [shapedKeys, List.mem_append, not_or] at hkey
  obtain ⟨⟨htables, hsets⟩, -⟩ := hkey
  by_cases hexpr : key ∈ Walk.expressionClauses
  · have hreach : reach? (.text key) = some .expression := by simp [reach?, htables, hsets, hexpr]
    rw [hreach] at hw
    exact List.mem_singleton.mp hw
  · have hreach : reach? (.text key) = none := by simp [reach?, htables, hsets, hexpr]
    rw [hreach] at hw
    simp [bodies] at hw

theorem neatEntry_plain (hkey : key ∉ shapedKeys) (hv : Neat v) : NeatEntry (.text key, v) :=
  ⟨.other hkey, fun _ hw => mem_bodies_of_plain hkey hw ▸ hv⟩

theorem reach_of_mem : ∀ key ∈ shapedKeys ++ AliasScope.searched, reach? (.text key) ≠ none := by
  decide

/-- The value of a clause that is not searched may be anything. -/
theorem neatEntry_unwalked (h : reach? (.text key) = none) : NeatEntry (.text key, v) where
  framed := .other fun hmem => reach_of_mem key (List.mem_append_left _ hmem) h
  neat w hw := by
    dsimp only at hw
    rw [h] at hw
    simp [bodies] at hw

theorem isSearched_eq_false (h : key ∉ AliasScope.searched) :
    isSearched (.text key, v) = false := by
  rw [Bool.eq_false_iff, ne_eq, isSearched_iff]
  rintro ⟨key', hmem, heq⟩
  cases heq
  exact h hmem

theorem not_searched_of_unwalked (h : reach? (.text key) = none) : key ∉ AliasScope.searched :=
  fun hmem => reach_of_mem key (List.mem_append_right _ hmem) h

theorem neatEntry_join (hkey : key ∈ Clause.joins) (hvs : ∀ v ∈ vs, Neat v) :
    NeatEntry (.text key, .list vs) where
  framed := .join hkey
  neat w hw := by
    have hreach : ∀ key ∈ Clause.joins, reach? (.text key) = some .expression := by decide
    dsimp only at hw
    rw [hreach key hkey] at hw
    rw [List.mem_singleton.mp hw]
    exact .list hvs

theorem neatEntry_branches (hkey : key ∈ Clause.setOperations)
    (hvs : ∀ v ∈ vs, (∃ body, v = .map body) ∧ Neat v) : NeatEntry (.text key, .list vs) where
  framed := .branches hkey fun v hv => (hvs v hv).1
  neat w hw := by
    have hreach : ∀ key ∈ Clause.setOperations, reach? (.text key) = some .branches := by decide
    dsimp only at hw
    rw [hreach key hkey] at hw
    exact (hvs w hw).2

theorem NeatEntry.branches (hkey : key ∈ Clause.setOperations)
    (h : NeatEntry (.text key, .list vs)) : ∀ v ∈ vs, (∃ body, v = .map body) ∧ Neat v := by
  have hapart : ∀ key ∈ Clause.setOperations, key ∉ Clause.tableExpressions ∧
      key ∉ Clause.joins ∧ key ∈ shapedKeys ∧ reach? (.text key) = some .branches := by decide
  obtain ⟨htables, hjoins, hshaped, hreach⟩ := hapart key hkey
  obtain ⟨hframed, hneat⟩ := h
  dsimp only at hneat
  rw [hreach] at hneat
  intro v hv
  refine ⟨?_, hneat v hv⟩
  cases hframed with
  | tableExpressions hmem => exact absurd hmem htables
  | branches _ hvs => exact hvs v hv
  | join hmem => exact absurd hmem hjoins
  | other hmem => exact absurd hshaped hmem

/-- A common table expression: a name and a query. -/
def PairNeat (v : Value) : Prop :=
  ∃ name body t, v = .list [name, .map body] ∧ AliasScope.label name = .ok t ∧ Neat (.map body)

theorem neatEntry_pairs (hkey : key ∈ Clause.tableExpressions) (hvs : ∀ v ∈ vs, PairNeat v) :
    NeatEntry (.text key, .list vs) where
  framed := by
    refine .tableExpressions hkey fun v hv => ?_
    obtain ⟨name, body, t, hpair, hname, -⟩ := hvs v hv
    exact ⟨name, body, t, hpair, hname⟩
  neat w hw := by
    have hreach : ∀ key ∈ Clause.tableExpressions,
        reach? (.text key) = some .tableExpressions := by decide
    dsimp only at hw
    rw [hreach key hkey] at hw
    obtain ⟨p, hp, hquery⟩ := List.mem_filterMap.mp hw
    obtain ⟨name, body, t, rfl, -, hbody⟩ := hvs p hp
    cases hquery
    exact hbody

namespace NeatEntries

theorem nil : NeatEntries keys [] := ⟨nofun, List.nil_sublist _⟩

theorem append (h : NeatEntries keys es) (h' : NeatEntries keys' fs) :
    NeatEntries (keys ++ keys') (es ++ fs) where
  entries := List.forall_mem_append.mpr ⟨h.entries, h'.entries⟩
  keys := by
    rw [searchedKeys_append, List.map_append]
    exact h.keys.append h'.keys

theorem flatten {ess : List Entries} (h : ∀ es ∈ ess, NeatEntries [] es) :
    NeatEntries [] ess.flatten := by
  induction ess with
  | nil => exact nil
  | cons es ess ih =>
    obtain ⟨hes, hess⟩ := List.forall_mem_cons.mp h
    exact hes.append (ih hess)

theorem searched (h : NeatEntry (.text key, v)) : NeatEntries [key] (Reading.entry key v) where
  entries := by simpa [Reading.entry] using h
  keys := List.filter_sublist.map _

theorem of_unsearched (h : ∀ e ∈ es, NeatEntry e) (hkeys : ∀ e ∈ es, isSearched e = false) :
    NeatEntries [] es where
  entries := h
  keys := by
    have hfilter : es.filter isSearched = [] := by simpa using hkeys
    rw [searchedKeys, hfilter]
    exact List.nil_sublist _

theorem other (h : NeatEntry (.text key, v)) (hkey : key ∉ AliasScope.searched) :
    NeatEntries [] (Reading.entry key v) :=
  of_unsearched (by simpa [Reading.entry] using h)
    (by simpa [Reading.entry] using isSearched_eq_false hkey)

theorem unwalked (h : reach? (.text key) = none) : NeatEntries [] (Reading.entry key v) :=
  other (neatEntry_unwalked h) (not_searched_of_unwalked h)

theorem plain (hkey : key ∉ shapedKeys) (hsearched : key ∉ AliasScope.searched) (hv : Neat v) :
    NeatEntries [] (Reading.entry key v) := other (neatEntry_plain hkey hv) hsearched

theorem block (h : NeatEntries keys es) (hnodup : keys.Nodup) (hne : es ≠ []) : NeatBlock es where
  ne_nil := hne
  nodup := h.keys.nodup (hnodup.map fun _ _ heq => Value.text.inj heq)
  entries := h.entries

end NeatEntries

theorem NeatBlock.neat (h : NeatBlock es) : Neat (.map es) :=
  .map h.ne_nil h.nodup (fun e he => (h.entries e he).framed) fun e he => (h.entries e he).neat

end Entries

section Values

theorem neat_headed {head : String} (h : ∀ v ∈ vs, Neat v) : Neat (headed head vs) :=
  .list (List.forall_mem_cons.mpr ⟨.leaf rfl, h⟩)

theorem neat_typed (hkey : key ∉ shapedKeys) (hv : Neat v) : Neat (.typed v key) :=
  ((NeatEntries.searched (neatEntry_plain hkey hv)).block (List.nodup_singleton _) nofun).neat

theorem neat_untyped (h : isLeaf v = true) : Neat (untyped v) := neat_typed (by decide) (.leaf h)

theorem neat_raw (sql : String) : Neat (.raw (.text sql)) := neat_typed (by decide) (.leaf rfl)

theorem neat_path (path : Path) : Neat path.value := by
  unfold Path.value
  split
  · exact .leaf rfl
  · exact neat_headed (by simpa using .leaf rfl)

theorem neat_pair {w : Value} (hv : Neat v) (hw : Neat w) : Neat (.list [v, w]) :=
  .list (by simpa using ⟨hv, hw⟩)

/-- The clauses with a shape of their own are spelled by keywords or with a hyphen. -/
theorem not_shaped_of_isLiteralType {type : String} (h : isLiteralType type = true) :
    type ∉ shapedKeys := by
  have hnone : ∀ key ∈ shapedKeys, isLiteralType key = false := by decide
  intro hmem
  rw [hnone type hmem] at h
  cases h

theorem neat_literal {type : String} (h : isLiteralType type = true) (quoted : String) :
    Neat (Literal.typed type quoted) := by
  unfold Literal.typed
  dsimp only
  split
  · exact neat_untyped rfl
  · split
    · exact neat_headed (by simpa using .leaf rfl)
    · exact neat_typed (not_shaped_of_isLiteralType h) (.leaf rfl)

theorem neat_cast (hv : Neat v) (type : String) : Neat (Literal.cast v type) := by
  have hheaded : Neat (headed "cast" [v, .text type]) :=
    neat_headed (by simpa using ⟨hv, .leaf rfl⟩)
  have hclauses : ∀ key ∈ shapedKeys, key ∈ Clause.order := by decide
  unfold Literal.cast
  split
  · split
    · exact hheaded
    · next hclause =>
      refine neat_typed (fun hmem => hclause ?_) (.leaf rfl)
      simpa using hclauses type hmem
  · exact hheaded

theorem neat_negated (hv : Neat v) : Neat (Literal.negated v) := by
  unfold Literal.negated
  split
  · exact neat_untyped rfl
  · exact neat_untyped rfl
  · exact neat_untyped rfl
  · exact neat_headed (by simpa using hv)

theorem neat_members (h : ∀ v ∈ vs, Neat v) : Neat (Reading.members vs) := by
  unfold Reading.members
  split
  · exact neat_headed h
  · exact neat_headed h
  · exact .list h

end Values

/-- What an operand is read as is neat. -/
structure OperandNeat (o : Operand) : Prop where
  value : Always o.value Neat
  operands : ∀ op, Always (o.operands op) fun vs => ∀ v ∈ vs, Neat v

section Operands

variable {r : Read Value} {o left right e : Operand} {parts items : List Operand}
  {head : String} {q : Read Entries}

theorem operandNeat_node (h : Always r Neat) : OperandNeat (.node r) where
  value := h.visit
  operands _ := h.visit.map fun _ hv => by simpa using hv

theorem operandNeat_leaf (h : Neat v) : OperandNeat (.leaf v) := operandNeat_node (.pure h)

theorem neat_values (h : ∀ p ∈ parts, OperandNeat p) :
    Always (Operand.values parts) fun vs => ∀ v ∈ vs, Neat v :=
  .visitAll (by simpa using fun p hp => (h p hp).value)

/-- The values of a list, which is no node if it is empty. -/
theorem neat_listed {β : Type} {f : List Value → Read β} {P : β → Prop}
    (h : ∀ p ∈ parts, OperandNeat p) (hf : ∀ vs, (∀ v ∈ vs, Neat v) → Always (f vs) P) :
    Always (if parts.isEmpty then pure [] >>= f else Operand.values parts >>= f) P :=
  .ite (hf [] nofun) ((neat_values h).bind hf)

theorem neat_form (head : String) (h : ∀ p ∈ parts, OperandNeat p) :
    OperandNeat (.form head parts) :=
  operandNeat_node <| (Always.mapM_of fun p hp => (h p hp).value).map fun _ hvs => neat_headed hvs

theorem neat_form_one (head : String) (he : OperandNeat e) : OperandNeat (.form head [e]) :=
  neat_form head (by simpa using he)

theorem neat_form_two (head : String) (hl : OperandNeat left) (hr : OperandNeat right) :
    OperandNeat (.form head [left, right]) :=
  neat_form head (by simpa using ⟨hl, hr⟩)

theorem neat_form_three (head : String) (he : OperandNeat e) (hl : OperandNeat left)
    (hr : OperandNeat right) : OperandNeat (.form head [e, left, right]) :=
  neat_form head (by simpa using ⟨he, hl, hr⟩)

theorem neat_connected (op : Connective) (hl : OperandNeat left) (hr : OperandNeat right) :
    OperandNeat (Reading.connected op left right) := by
  have hchain : Always (Reading.chainOperands op left right) fun vs => ∀ v ∈ vs, Neat v :=
    (hl.operands op).bind fun vs hvs => hr.value.map fun v hv =>
      List.forall_mem_append.mpr ⟨hvs, by simpa using hv⟩
  have hwhole : Always (visit do return headed op.word (← Reading.chainOperands op left right))
      Neat := .visit (hchain.map fun _ hvs => neat_headed hvs)
  exact ⟨hwhole, fun op' => .ite hchain (hwhole.map fun _ hv => by simpa using hv)⟩

/-- An operand with something behind it, under a head. -/
theorem neat_unary (he : OperandNeat e) {f : Value → List Value}
    (hf : ∀ v, Neat v → ∀ w ∈ f v, Neat w) :
    OperandNeat (.node do return headed head (f (← e.value))) :=
  operandNeat_node (he.value.map fun v hv => neat_headed (hf v hv))

theorem neat_inList (negated : Bool) (he : OperandNeat e) (h : ∀ p ∈ items, OperandNeat p) :
    OperandNeat (Reading.inList negated e items) :=
  operandNeat_node <| he.value.bind fun _ hv => (neat_values h).visit.map fun _ hvs =>
    neat_headed (by simpa using ⟨hv, neat_members hvs⟩)

theorem neat_inQuery (negated : Bool) (he : OperandNeat e) (hq : Always q NeatBlock) :
    OperandNeat (Reading.inQuery negated e q) :=
  operandNeat_node <| he.value.bind fun _ hv => hq.visit.map fun _ hes =>
    neat_headed (by simpa using ⟨hv, hes.neat⟩)

theorem neat_ofQuery (hq : Always q NeatBlock) : OperandNeat (Reading.ofQuery head q) :=
  operandNeat_node (hq.map fun _ hes => neat_headed (by simpa using hes.neat))

theorem neat_branches {bs : List (Read (List Value))} {otherwise : Option Operand}
    (hbs : ∀ b ∈ bs, Always b fun vs => ∀ v ∈ vs, Neat v) (ho : ∀ p ∈ otherwise, OperandNeat p) :
    Always (Reading.branches bs otherwise) fun vs => ∀ v ∈ vs, Neat v := by
  refine (Always.mapM hbs).bind fun vss hvss => ?_
  have hflat : ∀ v ∈ vss.flatten, Neat v := fun v hv => by
    obtain ⟨vs, hvs, hmem⟩ := List.mem_flatten.mp hv
    exact hvss vs hvs v hmem
  cases otherwise with
  | none => exact .pure hflat
  | some e =>
    refine (ho e rfl).value.map fun v hv => List.forall_mem_append.mpr ⟨hflat, ?_⟩
    simpa using ⟨.leaf rfl, hv⟩

theorem neat_row {first : Option Operand} (hfirst : ∀ p ∈ first, OperandNeat p)
    (h : ∀ p ∈ items, OperandNeat p) : OperandNeat (Reading.row first items) := by
  have hfirsts : Always (first.toList.mapM Operand.value) fun vs => ∀ v ∈ vs, Neat v :=
    .mapM_of fun p hp => (hfirst p (by simpa using hp)).value
  exact operandNeat_node <| hfirsts.bind fun _ hvs => neat_listed h fun _ hws =>
    .pure (neat_headed (List.forall_mem_append.mpr ⟨hvs, hws⟩))

theorem neat_filtered {call : Value} (hcall : Neat call) {filter : Option Value}
    (h : ∀ v ∈ filter, Neat v) : Neat (Reading.filtered call filter) := by
  unfold Reading.filtered
  split
  · exact hcall
  · exact hcall
  · exact neat_headed (by simpa using ⟨hcall, h _ rfl⟩)

theorem neat_windowed {call : Value} (hcall : Neat call) {window : Option (Option Value)}
    (h : ∀ w ∈ window, ∀ v ∈ w, Neat v) : Neat (Reading.windowed call window) := by
  unfold Reading.windowed
  split
  · exact hcall
  · exact neat_headed (by simpa using hcall)
  · exact neat_headed (by simpa using ⟨hcall, h _ rfl _ rfl⟩)

theorem neat_call (head : List String) (args : Arguments) {filter : Option Operand}
    {window : Option (Read (Option Value))} (h : ∀ p ∈ items, OperandNeat p)
    (hfilter : ∀ p ∈ filter, OperandNeat p)
    (hwindow : ∀ r ∈ window, Always r fun o => ∀ v ∈ o, Neat v) :
    OperandNeat (Reading.call head args items filter window) := by
  have hitems : Always (Reading.callItems args items) fun vs => ∀ v ∈ vs, Neat v :=
    .ite (.pure (by simpa using .leaf rfl)) (.ite (.pure nofun) (neat_values h))
  exact operandNeat_node <| hitems.bind fun _ hvs =>
    (Always.optionMapM fun p hp => (hfilter p hp).value).bind fun _ hf =>
      (Always.optionMapM hwindow).map fun _ hw =>
        neat_windowed (neat_filtered (neat_headed hvs) hf) hw

/-- Fields that are not searched. -/
def Unwalked (fields : List (String × Value)) : Prop := ∀ f ∈ fields, reach? (.text f.1) = none

theorem unwalked_field (h : reach? (.text key) = none) : Unwalked [(key, v)] :=
  List.forall_mem_singleton.mpr h

theorem neat_record {fields : List (String × Value)} (h : Unwalked fields) (hne : fields ≠ []) :
    Neat (.record fields) := by
  have hentries : NeatEntries [] (fields.map fun f => (Value.text f.1, f.2)) := by
    refine .of_unsearched (fun e he => ?_) fun e he => ?_
    · obtain ⟨f, hf, rfl⟩ := List.mem_map.mp he
      exact neatEntry_unwalked (h f hf)
    · obtain ⟨f, hf, rfl⟩ := List.mem_map.mp he
      exact isSearched_eq_false (not_searched_of_unwalked (h f hf))
  exact (hentries.block List.nodup_nil (by simpa using hne)).neat

/-- A field of a list that may be missing. -/
theorem unwalked_listed {β : Type} {c : Bool} {r : Read (List Value)} {P : β → Prop}
    {f : List (String × Value) → Read β} (hkey : reach? (.text key) = none)
    (hf : ∀ fields, Unwalked fields → Always (f fields) P) :
    Always (if c then pure [] >>= f else r >>= fun vs => pure [(key, .list vs)] >>= f) P :=
  .ite (hf [] (List.forall_mem_nil _)) (.bindAny fun _ => hf _ (unwalked_field hkey))

theorem neat_windowSpec (parts : List Operand) (order : List (Read Value)) (frame : Option String) :
    Always (Reading.windowSpec parts order frame) fun o => ∀ v ∈ o, Neat v := by
  have hframe : Unwalked (frame.toList.map fun sql => ("frame", .raw (.text sql))) := by
    cases frame with
    | none => exact List.forall_mem_nil _
    | some sql => exact unwalked_field rfl
  refine .visit <| unwalked_listed rfl fun ps hps => unwalked_listed rfl fun os hos => .pure ?_
  have hall := List.forall_mem_append.mpr ⟨List.forall_mem_append.mpr ⟨hps, hos⟩, hframe⟩
  split
  · exact fun _ hv => by cases hv
  · next hne =>
    intro v hv
    cases hv
    exact neat_record hall (by simpa using hne)

end Operands

end SqlTree
