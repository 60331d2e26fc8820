import SqlTree.Proofs.RoundTrip.Writing

/-!
What operations are rendered to: their operands with the operator between them, in parentheses
where the operation is an operand itself.
-/

namespace SqlTree.Render

open Lexer (Spells nameToken)
open Syntax.Parser (commaTokens commaTokens_cons)

/-- The tokens in parentheses, if they are an operand's. -/
def parenTokens (nested : Bool) (ts : List Token) : List Token :=
  if nested then .symbol "(" :: (ts ++ [.symbol ")"]) else ts

theorem spells_parensIf {f : Fragment} {ts : List Token} (h : Spells f.inlineSql ts)
    (nested : Bool) : Spells (Fragment.parensIf nested f).inlineSql (parenTokens nested ts) := by
  cases nested with
  | false => exact h
  | true =>
    have hp := h.parens
    rw [← Fragment.inlineSql_parens] at hp
    exact hp

section Heights

theorem heightAll_lt (vs : List Value) : Value.heightAll vs < (Value.list vs).height := by
  rw [Value.height]
  omega

theorem height_le_of_mem {v : Value} (vs : List Value) (h : v ∈ vs) :
    v.height + 1 ≤ (Value.list vs).height :=
  Value.height_lt_of_items rfl h

/-- What all items of a list are rendered to, with the fuel that the list has. -/
theorem gives_each {nested : Bool} (vs : List Value) {ws : List Value} (hws : ∀ w ∈ ws, w ∈ vs)
    {fs : List Fragment} (h : List.Forall₂ (fun w f =>
      Gives (w.height + 1) (fun r s => r.expr s nested w) f) ws fs) :
    Gives (Value.list vs).height (fun r s => each r s nested ws) fs := by
  refine Gives.mapM (m := fun r s => r.expr s nested) ?_
  induction h with
  | nil => exact .nil
  | cons hw _ ih =>
    exact .cons (hw.mono (height_le_of_mem _ (hws _ (by simp)))) (ih fun w hw => hws w (by simp [hw]))

/-- The fragments that values of known tokens are rendered to. -/
theorem exists_fragments {nested : Bool} {vs : List Value} {tss : List (List Token)}
    (h : List.Forall₂ (Writes nested) vs tss) :
    ∃ fs, List.Forall₂ (fun v f => Gives (v.height + 1) (fun r s => r.expr s nested v) f) vs fs ∧
      List.Forall₂ (fun f ts => Spells (Fragment.inlineSql f) ts) fs tss := by
  induction h with
  | nil => exact ⟨[], .nil, .nil⟩
  | cons hv _ ih =>
    obtain ⟨f, hf, hs⟩ := hv
    obtain ⟨fs, hfs, hss⟩ := ih
    exact ⟨f :: fs, .cons hf hfs, .cons hs hss⟩

end Heights

section Infixes

/-- What is between the operands of an operator. -/
theorem spells_infix {op s t : String} {os ts us : List Token} (hop : Spells op os)
    (hs : Spells s ts) (ht : Spells t us) :
    Spells (s ++ (" " ++ op ++ " ") ++ t) (ts ++ (os ++ us)) := by
  have h := (hs.space hop).space ht
  simpa [String.append_assoc, List.append_assoc] using h

/-- An operator that is rendered as its keyword between its operands. -/
def IsInfix (op : String) : Prop :=
  Registry.normalize op = op ∧ op ∉ Operator.equality ∧ Registry.standard.isBinary op = true

instance (op : String) : Decidable (IsInfix op) := inferInstanceAs (Decidable (_ ∧ _ ∧ _))

/-- The operands that an operator keeps. -/
def keptOperands (op : String) (args : List Value) : List Value :=
  if Registry.standard.ignoresNil op then args.filter (!isNull ·) else args

theorem keptOperands_subset (op : String) (args : List Value) : keptOperands op args ⊆ args := by
  rw [keptOperands]
  split
  · exact List.filter_subset_self _
  · exact List.Subset.refl _

/-- An operator is rendered by its kept operands. -/
theorem infixed_eq {op : String} (hop : IsInfix op) (args : List Value) (r : Renderer) (nested : Bool)
    (m d : Int) (st : Entries) :
    expression r (.inlining m d st) (statement r · true) nested (.list (.text op :: args)) =
      infixed r (.inlining m d st) nested op args := by
  obtain ⟨hnorm, heq, hbin⟩ := hop
  have hcontains : Operator.equality.contains op = false := by simpa using heq
  change operation r _ nested op args = _
  rw [operation, hnorm, hcontains]
  change (if Registry.standard.isBinary op then _ else _) = _
  rw [if_pos hbin]

/-- The kept operands with the operator between them. -/
theorem writes_kept {op word : String} (hop : IsInfix op) (hword : Keyword.render op = word)
    {os : List Token} (hos : Spells word os) {args : List Value} {v w : Value} {vs : List Value}
    (hkept : keptOperands op args = v :: w :: vs) {ts us : List Token} {tss : List (List Token)}
    (hv : Writes true v ts) (hw : Writes true w us) (hvs : List.Forall₂ (Writes true) vs tss)
    (nested : Bool) :
    Writes nested (.list (.text op :: args))
      (parenTokens nested (ts ++ (us :: tss).flatMap (os ++ ·))) := by
  subst hword
  obtain ⟨_, hgives, hspells⟩ := exists_fragments (.cons hv (.cons hw hvs))
  cases hspells with
  | @cons f _ fs _ hf hspells =>
  refine ⟨Fragment.parensIf nested (Fragment.joined (" " ++ Keyword.render op ++ " ") (f :: fs)),
    .deeper ?_, spells_parensIf (Fragment.spells_joined _ _ (fun _ _ _ _ => spells_infix hos) hspells hf) _⟩
  have hmem : ∀ x ∈ v :: w :: vs, x ∈ .text op :: args := fun x hx =>
    List.mem_cons_of_mem _ (keptOperands_subset op args (hkept ▸ hx))
  have hmap := Gives.map
    (f := fun fs => Fragment.parensIf nested (Fragment.joined (" " ++ Keyword.render op ++ " ") fs))
    (gives_each (.text op :: args) hmem hgives)
  refine hmap.congr fun r m d st => ?_
  have hfilter : (if Registry.standard.ignoresNil op then args.filter (!isNull ·) else args) =
      v :: w :: vs := hkept
  rw [infixed_eq hop, infixed]
  erw [hfilter]
  rfl

theorem writes_infix {op word : String} (hop : IsInfix op) (hword : Keyword.render op = word)
    {os : List Token} (hos : Spells word os) {v w : Value} {vs : List Value}
    (hnull : Registry.standard.ignoresNil op = true → ∀ x ∈ v :: w :: vs, x ≠ .null) {ts us : List Token} {tss : List (List Token)}
    (hv : Writes true v ts) (hw : Writes true w us) (hvs : List.Forall₂ (Writes true) vs tss)
    (nested : Bool) :
    Writes nested (.list (.text op :: v :: w :: vs))
      (parenTokens nested (ts ++ (us :: tss).flatMap (os ++ ·))) := by
  refine writes_kept hop hword hos ?_ hv hw hvs nested
  rw [keptOperands]
  split
  · next hnil =>
    refine List.filter_eq_self.mpr fun x hx => ?_
    have := hnull hnil x hx
    cases x <;> first | rfl | contradiction
  · rfl

theorem spells_between {op : String} {os ts us : List Token} (hop : Spells op os) {f g : Fragment}
    (hf : Spells f.inlineSql ts) (hg : Spells g.inlineSql us) :
    Spells (Fragment.inlineSql (f ++ .text (" " ++ op ++ " ") :: g)) (ts ++ (os ++ us)) := by
  rw [Fragment.inlineSql_append, Fragment.inlineSql_text, ← String.append_assoc]
  exact spells_infix hop hf hg

theorem comparison_eq {v w : Value} (hv : v ≠ .null) (hw : w ≠ .null) (r : Renderer) (s : Settings)
    (op : String) : comparison r s op v w = do
      let l ← r.expr s true v
      let f ← r.expr s true w
      return l ++ .text (" " ++ op ++ " ") :: f := by
  rw [comparison]
  · exact fun _ h => hv h
  · exact fun _ h => hw h

theorem equality_lookup : ∀ op ∈ Operator.equality, Registry.normalize op = op ∧
    Operator.equality.contains op = true ∧ Registry.standard.isBinary op = true := by
  decide

theorem writes_equality {op : String} (hop : op ∈ Operator.equality) {os : List Token}
    (hos : Spells op os) {v w : Value} (hnv : v ≠ .null) (hnw : w ≠ .null) {ts us : List Token}
    (hv : Writes true v ts) (hw : Writes true w us) (nested : Bool) :
    Writes nested (.list [.text op, v, w]) (parenTokens nested (ts ++ (os ++ us))) := by
  obtain ⟨f, hf, hfs⟩ := hv
  obtain ⟨g, hg, hgs⟩ := hw
  refine ⟨Fragment.parensIf nested (f ++ .text (" " ++ op ++ " ") :: g), .deeper ?_,
    spells_parensIf (spells_between hos hfs hgs) _⟩
  have hv := hf.mono (height_le_of_mem [.text op, v, w] (by simp))
  have hw := hg.mono (height_le_of_mem [.text op, v, w] (by simp))
  have hboth := hv.bind (f := fun f r s => do
    return Fragment.parensIf nested (f ++ .text (" " ++ op ++ " ") :: (← r.expr s true w))) hw.map
  refine hboth.congr fun r m d st => ?_
  have hnorm := equality_lookup op hop
  change operation r _ nested op [v, w] = _
  rw [operation, hnorm.1, hnorm.2.1]
  change (if Registry.standard.isBinary op then _ else _) = _
  rw [if_pos hnorm.2.2, equality, comparison_eq hnv hnw]
  simp only [bind_assoc, pure_bind]

end Infixes

section Memberships

/-- A list in parentheses. -/
def listTokens (tss : List (List Token)) : List Token :=
  .symbol "(" :: (commaTokens tss ++ [.symbol ")"])

theorem spells_list {fs : List Fragment} {tss : List (List Token)} (hne : fs ≠ [])
    (h : List.Forall₂ (fun f ts => Spells (Fragment.inlineSql f) ts) fs tss) :
    Spells (Fragment.parens (Fragment.commas fs)).inlineSql (listTokens tss) := by
  rw [Fragment.inlineSql_parens]
  exact (Fragment.spells_commas hne h).parens

theorem membership_lookup : ∀ op ∈ Operator.membership, Registry.normalize op = op ∧
    Operator.equality.contains op = false ∧ Registry.standard.isBinary op = false ∧
    Operator.membership.contains op = true := by
  decide

/-- A membership test whose right side is rendered to `g`. -/
theorem writes_membership {op : String} (hop : op ∈ Operator.membership) {os : List Token}
    (hos : Spells (Keyword.render op) os) {v w : Value} {ws : List Value} {ts us : List Token}
    {g : Fragment} (hv : Writes true v ts) (hg : Spells g.inlineSql us)
    (hside : ∀ l, Gives (Value.list [.text op, v, .list (w :: ws)]).height
      (fun r s => membershipSide r s (Keyword.render op) l (.list (w :: ws))) g) (nested : Bool) :
    Writes nested (.list [.text op, v, .list (w :: ws)]) (parenTokens nested (ts ++ (os ++ us))) := by
  obtain ⟨f, hf, hfs⟩ := hv
  refine ⟨Fragment.parensIf nested (f ++ .text (" " ++ Keyword.render op ++ " ") :: g), .deeper ?_,
    spells_parensIf (spells_between hos hfs hg) _⟩
  have hv := hf.mono (height_le_of_mem [.text op, v, .list (w :: ws)] (by simp))
  have hboth := hv.bind (f := fun f r s => do
    let g ← membershipSide r s (Keyword.render op) f (.list (w :: ws))
    return Fragment.parensIf nested (f ++ .text (" " ++ Keyword.render op ++ " ") :: g)) (hside f).map
  refine hboth.congr fun r m d st => ?_
  obtain ⟨hnorm, heq, hbin, hmem⟩ := membership_lookup op hop
  change operation r _ nested op [v, .list (w :: ws)] = _
  rw [operation, hnorm, heq, hmem]
  change (if Registry.standard.isBinary op then _ else _) = _
  rw [hbin]
  change membership r _ nested op [v, .list (w :: ws)] = _
  simp only [membership]

theorem writes_inValues {op : String} (hop : op ∈ Operator.membership) {os : List Token}
    (hos : Spells (Keyword.render op) os) {v w : Value} {ws : List Value} {ts : List Token}
    {tss : List (List Token)} (hv : Writes true v ts) (hw : isValueList w = true)
    (hws : List.Forall₂ (Writes false) (w :: ws) tss) (nested : Bool) :
    Writes nested (.list [.text op, v, .list (w :: ws)])
      (parenTokens nested (ts ++ (os ++ listTokens tss))) := by
  obtain ⟨fs, hfs, hspells⟩ := exists_fragments hws
  have hne : fs ≠ [] := by
    rintro rfl
    cases hfs
  refine writes_membership hop hos hv (spells_list hne hspells) (fun l => ?_) nested
  have hlist := Gives.map (f := fun fs => Fragment.parens (Fragment.commas fs))
    (gives_each (w :: ws) (fun _ h => h) hfs)
  refine (hlist.mono (Nat.le_of_lt (height_le_of_mem _ (by simp)))).congr fun r m d st => ?_
  change (if isValueList w then _ else _) = _
  rw [if_pos hw]
  simp only [list, bind_assoc, pure_bind]

/-- A row of expressions. -/
theorem writes_composite {vs : List Value} {tss : List (List Token)} (hne : vs ≠ [])
    (hvs : List.Forall₂ (Writes false) vs tss) (nested : Bool) :
    Writes nested (.list (.text "composite" :: vs)) (listTokens tss) := by
  obtain ⟨fs, hfs, hspells⟩ := exists_fragments hvs
  have hne : fs ≠ [] := by
    rintro rfl
    cases hfs
    contradiction
  refine ⟨_, .deeper ?_, spells_list hne hspells⟩
  have hlist := gives_each (.text "composite" :: vs) (fun x h => by simp [h]) hfs
  refine (Gives.map (f := fun fs => Fragment.parens (Fragment.commas fs)) hlist).congr
    fun r m d st => ?_
  change special r _ .composite "composite" vs = _
  simp only [special, list, bind_assoc, pure_bind]

theorem writes_inRow {op : String} (hop : op ∈ Operator.membership) {os : List Token}
    (hos : Spells (Keyword.render op) os) {v : Value} {ws : List Value} {ts : List Token}
    {tss : List (List Token)} (hv : Writes true v ts) (hne : ws ≠ [])
    (hws : List.Forall₂ (Writes false) ws tss) (nested : Bool) :
    Writes nested (.list [.text op, v, .list (.text "composite" :: ws)])
      (parenTokens nested (ts ++ (os ++ listTokens tss))) := by
  obtain ⟨g, hg, hgs⟩ := writes_composite hne hws true
  refine writes_membership hop hos hv hgs (fun l => ?_) nested
  exact (hg.mono (height_le_of_mem _ (by simp))).congr fun _ _ _ _ => rfl

end Memberships

end SqlTree.Render
