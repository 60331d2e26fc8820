import SqlTree.Proofs.SetOperations.Readings
import SqlTree.Proofs.SetOperations.Text

/-!
The text of a combination is read with the value that its clause map has.
-/

namespace SqlTree.SetOperations

open Fragment (joined ofText)
open FromList (joined_cons)
open Grammar (Rule)
open Nesting (KeysIn)
open Render (Ensures setBranch upTo)
open Syntax (SetOperator)
open Syntax.Reading (entry)

variable {R : Type} {I : Interpretation R} {s : Settings}

section Branches

/-- What a branch of a set operation is written as, whatever statement it stands in. -/
def BranchWrites (s : Settings) (es : Entries) (f : Fragment) : Prop :=
  ∃ m statement n n', setBranch (upTo m) (s.within statement) (.map es) n = .ok (f, n')

theorem ensures_run {α : Type} (x : Render α) :
    Ensures (fun _ => True) (fun a => ∃ n n', x n = .ok (a, n')) x :=
  ⟨fun n => .of_forall (fun p hp => ⟨n, p.2, hp⟩) fun _ _ => trivial⟩

/-- The clause of a set operation is made of its branches. -/
theorem Writes.operation_some {op : SetOperator} {es : Entries} {a b : Entries × R}
    {bs : List (Entries × R)} {o : Option Fragment} (h : Writes s es op.clause o)
    (hregistry : s.registry = .standard)
    (hfield : Entries.field? es op.clause = some (.list ((a :: b :: bs).map fun c => .map c.1))) :
    ∃ fs, List.Forall₂ (fun c => BranchWrites s c.1) (a :: b :: bs) fs ∧
      o = some (joined (" " ++ Keyword.render op.clause ++ " ") fs) := by
  have hform : s.registry.clause? op.clause = some .setOperation := by
    rw [hregistry]
    cases op <;> rfl
  obtain ⟨m, statement, n, n', f, rfl, hrun⟩ := h.exists_some hfield (by simp) hform fun r s =>
    visible_setOperation r s _ _ _ _
  have hensures : Ensures (fun _ => True) (fun f => ∃ fs,
      List.Forall₂ (fun c => BranchWrites s c.1) (a :: b :: bs) fs ∧
        f = joined (" " ++ Keyword.render op.clause ++ " ") fs)
      (Render.setOperation (upTo m) (s.within statement) op.clause
        (.list ((a :: b :: bs).map fun c => .map c.1))) := by
    refine (Ensures.mapM fun v _ => ensures_run _).bind fun fs hfs => .pure ⟨fs, ?_, rfl⟩
    refine (List.forall₂_map_left_iff.mp hfs).imp fun c f hrun => ?_
    obtain ⟨n, n', hrun⟩ := hrun
    exact ⟨m, statement, n, n', hrun⟩
  obtain ⟨fs, hfs, rfl⟩ := hensures.of_ok hrun
  exact ⟨fs, hfs, rfl⟩

/-- A statement is made of its clauses. -/
theorem writtenAs_of_statement {m : Nat} {nested : Bool} {st es : Entries} {f : Fragment} {n n' : Nat}
    (h : Render.statement (upTo m) (s.within st) nested es n = .ok (f, n')) :
    ∃ g, WrittenAs s es g ∧ f = Fragment.parensIf nested g := by
  have hensures : Ensures (fun _ => True)
      (fun f => ∃ g, WrittenAs s es g ∧ f = Fragment.parensIf nested g)
      (Render.statement (upTo m) (s.within st) nested es) := by
    refine .bind_lift (S := fun _ => True) (.of_forall (fun _ _ => trivial) fun _ _ => trivial) fun _ _ => ?_
    refine (Ensures.mapM fun key _ => ensures_run _).bind fun os hos => .pure ⟨_, ⟨os, ?_, rfl⟩, rfl⟩
    refine hos.imp fun key o hrun => ?_
    obtain ⟨n, n', hrun⟩ := hrun
    exact ⟨m, es, n, n', hrun⟩
  exact hensures.of_ok h

section Forms

variable {es : Entries} {x : R}

/-- The keys that a combination may have. -/
def allKeys : List String := Clause.tableExpressions ++ coreKeys ++ Ending.all.map Ending.key

theorem Around.keys {ws ts : Entries} (h : Around ws ts) (hes : KeysIn coreKeys es) :
    KeysIn allKeys (ws ++ es ++ ts) :=
  ((h.isLayer.withs.mono (by decide)).append (hes.mono (by decide))).append (h.tail.mono (by decide))

theorem Combined.keys (h : Combined I es x) : KeysIn allKeys es := by
  cases h with
  | select haround hes => exact haround.keys hes.coreKeys
  | operation op haround _ => exact haround.keys (operated_keys op _)

theorem Combined.form (h : Combined I es x) :
    Form.ofEntries Registry.standard.clauseKeys es = .clause :=
  form_of_known (by decide) (h.keys.mono (by decide))

/-- A branch without parentheses is a `SELECT`. -/
theorem Combined.select_of_bare (h : Combined I es x)
    (hbare : Clause.parenthesised.any (Entries.hasField es ·) = false) :
    IsSelect es ∧ x = I.select es := by
  have hnot : ∀ {fs : Entries} {keys : List String}, fs ⊆ es → KeysIn keys fs →
      (∀ k ∈ keys, k ∈ Clause.parenthesised) → fs = [] := by
    intro fs keys hfs hkeys hsub
    refine List.eq_nil_iff_forall_not_mem.mpr fun e he => ?_
    obtain ⟨k, hk, hek⟩ := hkeys e he
    rw [List.any_eq_false] at hbare
    exact hbare k (hsub k hk) (Entries.hasField_iff.mpr ⟨e, hfs he, hek⟩)
  cases h with
  | @select ws es ts haround hes =>
    obtain rfl := hnot (fun e he => by simp [he]) haround.isLayer.withs (by decide)
    obtain rfl := hnot (fun e he => by simp [he]) haround.tail (by decide)
    rw [List.nil_append, List.append_nil]
    exact ⟨hes, rfl⟩
  | @operation ws ts op a b bs haround _ =>
    have hop : KeysIn Clause.setOperations (operated op (a :: b :: bs)) := by
      have hmem : op.clause ∈ Clause.setOperations := by cases op <;> decide
      exact .entry hmem _
    have hnil := hnot (fun e he => by simp [he]) hop (by decide)
    cases hnil

end Forms

section Marks

variable {es : Entries} {x : R} {f : Fragment}

/-- The marks of a branch, given those of the query that it may be in parentheses. -/
theorem marks_of_branch (h : Combined I es x) (hregistry : s.registry = .standard)
    (hquery : ∀ {g}, WrittenAs s es g → ∃ ms, TextOf s ms g ∧ Reads I .query ms x)
    (hf : BranchWrites s es f) : ∃ ms, TextOf s ms f ∧ Reads I .setPrimary ms x := by
  obtain ⟨m, st, n, n', hrun⟩ := hf
  have hclause : (s.within st).isClause (.map es) = true := by
    change decide (Form.ofEntries s.registry.clauseKeys es = .clause) = true
    rw [hregistry, h.form]
    rfl
  unfold setBranch at hrun
  dsimp only at hrun
  rw [if_pos hclause] at hrun
  cases m with
  | zero => cases hrun
  | succ m =>
    obtain ⟨g, hg, rfl⟩ := writtenAs_of_statement hrun
    cases hparens : Clause.parenthesised.any (Entries.hasField es ·) with
    | true =>
      obtain ⟨ms, hms, hreads⟩ := hquery hg
      refine ⟨.opening :: ms ++ [.closing], ?_, .parens hreads⟩
      exact ((TextOf.single (m := .opening) rfl).append hms).append (TextOf.single (m := .closing) rfl)
    | false =>
      obtain ⟨hes, rfl⟩ := h.select_of_bare hparens
      exact ⟨[.select es], .single ⟨hes, hg⟩, .select es⟩

/-- The rule by which operands of an operation are read. -/
def levelOf (op : SetOperator) : Rule := if op = .intersect then .setTerm else .setExpr

/-- Branches with an operation between them, read from the left. -/
theorem marks_of_branches {op : SetOperator} {bs : List (Entries × R)} {fs : List Fragment}
    (h : List.Forall₂ (fun c f => ∃ ms, TextOf s ms f ∧ Reads I .setPrimary ms c.2) bs fs)
    {ls : List Mark} (hls : TextOf s ls f) (hx : Reads I (levelOf op) ls x) :
    ∃ ms, TextOf s ms (f ++ fs.flatMap (.text (" " ++ Keyword.render op.clause ++ " ") :: ·)) ∧
      Reads I (levelOf op) ms (bs.foldl (fun x c => I.operation op x c.2) x) := by
  induction h generalizing ls f x with
  | nil => exact ⟨ls, by simpa using hls, hx⟩
  | @cons c g bs fs hc _ ih =>
    obtain ⟨ms, hms, hc⟩ := hc
    have hsign : TextOf s (.sign op :: ms) (.text (" " ++ Keyword.render op.clause ++ " ") :: g) :=
      (TextOf.single (m := .sign op) rfl).append hms
    have hstep : Reads I (levelOf op) (ls ++ .sign op :: ms) (I.operation op x c.2) := by
      unfold levelOf at hx ⊢
      split at hx
      · next hop =>
        subst hop
        exact .intersect hx hc
      · next hop =>
        rw [if_neg hop]
        exact .operation hop hx (.primary hc)
    obtain ⟨ns, hns, hreads⟩ := ih (hls.append hsign) hstep
    exact ⟨ns, by simpa using hns, hreads⟩

end Marks

end Branches

section Queries

variable {ws es ts : Entries} {x : R} {f : Fragment} (hregistry : s.registry = .standard)
  (horder : s.clauseOrder = s.dialect.clauseOrder Registry.standard.clauseOrder)

/-- The clauses of a body in their order. -/
def coreOrder : List String := Clause.order.filter coreKeys.contains

theorem order_sublist (d : Dialect) :
    (Clause.tableExpressions ++ coreOrder ++ Ending.all.map Ending.key).Sublist
      (d.clauseOrder Registry.standard.clauseOrder) := by
  cases d <;> decide

theorem exists_spaced {keys : List String} {key : String} {os : List (Option Fragment)}
    (h : List.Forall₂ (Writes s es) keys os) (hkey : key ∈ keys)
    (hsome : ∀ o, Writes s es key o → ∃ f, o = some f) : ∃ g, spaced os = .text " " :: g := by
  induction h with
  | nil => cases hkey
  | @cons k o keys os ho _ ih =>
    rw [spaced_cons]
    rcases List.mem_cons.mp hkey with rfl | hkey
    · obtain ⟨f, rfl⟩ := hsome o ho
      exact ⟨f ++ spaced os, by simp [spaced]⟩
    · obtain ⟨g, hg⟩ := ih hkey
      cases o with
      | none => exact ⟨g, hg⟩
      | some f => exact ⟨f ++ spaced os, by simp [spaced]⟩

include horder in
theorem writtenAs_of_sublist {keys : List String} {os : List (Option Fragment)}
    (hsub : keys.Sublist s.clauseOrder)
    (hes : ∀ k ∈ s.clauseOrder, k ∉ keys → Entries.field? es k = none)
    (h : List.Forall₂ (Writes s es) keys os) : WrittenAs s es (spaced os).tail := by
  have hnodup : s.clauseOrder.Nodup := horder ▸ FromList.nodup_clauseOrder s.dialect
  obtain ⟨os', hos', hspaced⟩ := (writes_sublist hsub hnodup hes).mpr ⟨os, h, rfl⟩
  exact ⟨os', hos', by rw [joined_eq_tail_spaced, hspaced]⟩

/-- What a body is written as, behind a space. -/
def BodyText (I : Interpretation R) (s : Settings) (es : Entries) (x : R) : Prop :=
  ∀ os, List.Forall₂ (Writes s es) coreOrder os →
    ∃ g ms, spaced os = .text " " :: g ∧ TextOf s ms g ∧ Reads I .setExpr ms x

include hregistry horder in
theorem bodyText_select (hes : IsSelect es) : BodyText I s es (I.select es) := by
  intro os hos
  obtain ⟨key, hkey, item, items, hfield⟩ := hes.items
  have hmem : key ∈ coreOrder := (by decide : ∀ k ∈ Clause.selections, k ∈ coreOrder) key hkey
  obtain ⟨g, hg⟩ := exists_spaced hos hmem fun o ho => ho.select_some hregistry hkey hfield
  have hsub : coreOrder.Sublist s.clauseOrder :=
    horder ▸ ((List.sublist_append_right _ _).trans (List.sublist_append_left _ _)).trans
      (order_sublist s.dialect)
  have hwritten : WrittenAs s es (spaced os).tail := by
    refine writtenAs_of_sublist horder hsub (fun k _ hk => hes.coreKeys.field?_eq_none fun hcore => hk ?_) hos
    exact (by decide : ∀ k ∈ coreKeys, k ∈ coreOrder) k hcore
  rw [hg] at hwritten
  exact ⟨g, [.select es], hg, .single ⟨hes, hwritten⟩, .term (.primary (.select es))⟩

include hregistry in
theorem bodyText_operation (op : SetOperator) {a b : Entries × R} {bs : List (Entries × R)}
    (h : ∀ c ∈ a :: b :: bs, ∀ f, BranchWrites s c.1 f →
      ∃ ms, TextOf s ms f ∧ Reads I .setPrimary ms c.2) :
    BodyText I s (operated op (a :: b :: bs))
      ((b :: bs).foldl (fun x c => I.operation op x c.2) a.2) := by
  intro os hos
  have hmem : op.clause ∈ coreOrder := by cases op <;> decide
  have hnone : ∀ k ∈ coreOrder, k ∉ [op.clause] →
      Entries.field? (operated op (a :: b :: bs)) k = none := by
    refine fun k _ hk => Nesting.field?_eq_none fun e he heq => hk ?_
    obtain rfl := List.mem_singleton.mp he
    rw [Value.text.inj heq, List.mem_singleton]
  obtain ⟨os', hos', hspaced⟩ := (writes_sublist (List.singleton_sublist.mpr hmem) (by decide)
    hnone).mp ⟨os, hos, rfl⟩
  obtain _ | ⟨ho, _ | _⟩ := hos'
  have hfield : Entries.field? (operated op (a :: b :: bs)) op.clause =
      some (.list ((a :: b :: bs).map fun c => .map c.1)) := by
    simp [operated, entry, Entries.field?, Entries.valueAt?, Value.same_text_self]
  obtain ⟨fs, hfs, rfl⟩ := ho.operation_some hregistry hfield
  have hmarks : List.Forall₂ (fun c f => ∃ ms, TextOf s ms f ∧ Reads I .setPrimary ms c.2)
      (a :: b :: bs) fs :=
    ((List.forall₂_and_left _ _).mpr ⟨h, hfs⟩).imp fun c f hc => hc.1 f hc.2
  obtain _ | ⟨ha, hbs⟩ := hmarks
  obtain ⟨ls, hls, ha⟩ := ha
  have hlevel : Reads I (levelOf op) ls a.2 := by
    unfold levelOf
    split
    · exact .primary ha
    · exact .term (.primary ha)
  obtain ⟨ms, hms, hreads⟩ := marks_of_branches hbs hls hlevel
  refine ⟨_, ms, ?_, hms, ?_⟩
  · rw [← hspaced, ← joined_cons]
    simp [spaced]
  · unfold levelOf at hreads
    split at hreads
    · exact .term hreads
    · exact hreads

include hregistry in
/-- What is written behind a body is as good as all that stands there. -/
theorem marks_of_tail (haround : Around ws ts) (hI : I.Ignores s) {os : List (Option Fragment)}
    (hos : List.Forall₂ (Writes s ts) (Ending.all.map Ending.key) os) :
    ∃ t : Tail, TextOf s t.marks (spaced os) ∧ I.tailed (.ofEntries ts) = I.tailed t := by
  obtain ⟨out, rfl, h⟩ : ∃ out : Ending → Option Fragment,
      os = Ending.all.map out ∧ ∀ e, Writes s ts e.key (out e) := by
    obtain _ | ⟨ho, _ | ⟨hl, _ | ⟨hf, _ | _⟩⟩⟩ := hos
    exact ⟨fun e => e.casesOn _ _ _, rfl, fun e => by cases e <;> assumption⟩
  let t : Tail := fun e => if (out e).isSome then Tail.ofEntries ts e else none
  have hsingle : ∀ {e : Ending} {v : Value}, Tail.ofEntries ts e = some v →
      Writes s [(.text e.key, v)] e.key (out e) := by
    intro e v hv
    refine (h e).congr (Eq.trans hv ?_)
    simp [Entries.field?, Entries.valueAt?, Value.same_text_self]
  refine ⟨t, ?_, ?_⟩
  · have hmarks : ∀ es : List Ending,
        TextOf s (es.flatMap fun e => (t.mark? e).toList) (spaced (es.map out)) := by
      intro es
      induction es with
      | nil => exact .nil
      | cons e es ih =>
        rw [List.flatMap_cons, List.map_cons, spaced_cons]
        refine .append ?_ ih
        cases ho : out e with
        | none =>
          have hmark : t.mark? e = none := by simp [Tail.mark?, t, ho]
          rw [hmark]
          exact .nil
        | some g =>
          cases hv : Tail.ofEntries ts e with
          | none => exact absurd ((h e).eq_none hv) (by simp [ho])
          | some v =>
            have hmark : t.mark? e = some (.tail e v) := by simp [Tail.mark?, t, ho, hv]
            rw [hmark]
            exact .single ⟨g, ho ▸ hsingle hv, by simp [spaced]⟩
    exact hmarks _
  · have hstep : ∀ (u : Tail) (e : Ending), e ≠ .order → u e = Tail.ofEntries ts e →
        I.tailed u = I.tailed (Function.update u e (t e)) := by
      intro u e he hu
      cases ho : out e with
      | some g =>
        have ht : t e = u e := by simp [t, ho, hu]
        rw [ht, Function.update_eq_self]
      | none =>
        have ht : t e = none := by simp [t, ho]
        cases hv : u e with
        | none => rw [ht, ← hv, Function.update_eq_self]
        | some v =>
          rw [ht]
          exact hI u e v he hv (ho ▸ hsingle (hu.symm.trans hv))
    have hsame : t .order = Tail.ofEntries ts .order := by
      cases hv : Tail.ofEntries ts .order with
      | none => simp [t, hv]
      | some v =>
        obtain ⟨item, items, rfl⟩ := haround.order v hv
        obtain ⟨g, hg⟩ := (h .order).order_some hregistry hv
        simp [t, hg, hv]
    rw [hstep (.ofEntries ts) .limit (by decide) rfl,
      hstep (Function.update (Tail.ofEntries ts) .limit (t .limit)) .offset (by decide) rfl]
    congr 1
    funext e
    cases e with
    | order => exact hsame.symm
    | limit => rfl
    | offset => rfl

theorem writes_layers {os : List (Option Fragment)} (haround : Around ws ts) (hes : KeysIn coreKeys es)
    (h : List.Forall₂ (Writes s (ws ++ es ++ ts))
      (Clause.tableExpressions ++ coreOrder ++ Ending.all.map Ending.key) os) :
    ∃ ow oc ot, spaced os = spaced ow ++ spaced oc ++ spaced ot ∧
      List.Forall₂ (Writes s ws) Clause.tableExpressions ow ∧
      List.Forall₂ (Writes s es) coreOrder oc ∧
      List.Forall₂ (Writes s ts) (Ending.all.map Ending.key) ot := by
  obtain ⟨oc, ot, rfl, hoc, hot⟩ := forall₂_append_left h
  obtain ⟨ow, oc, rfl, how, hoc⟩ := forall₂_append_left hoc
  have hws := haround.isLayer.withs
  have hts := haround.tail
  refine ⟨ow, oc, ot, by rw [spaced_append, spaced_append], writes_congr how fun k hk => ?_,
    writes_congr hoc fun k hk => ?_, writes_congr hot fun k hk => ?_⟩
  all_goals rw [Nesting.field?_append, Nesting.field?_append]
  · have hcore : k ∉ coreKeys := (by decide : ∀ k ∈ Clause.tableExpressions, k ∉ coreKeys) k hk
    have htail : k ∉ Ending.all.map Ending.key :=
      (by decide : ∀ k ∈ Clause.tableExpressions, k ∉ Ending.all.map Ending.key) k hk
    rw [hes.field?_eq_none hcore, hts.field?_eq_none htail, Option.or_none, Option.or_none]
  · have hwith : k ∉ Clause.tableExpressions :=
      (by decide : ∀ k ∈ coreOrder, k ∉ Clause.tableExpressions) k hk
    have htail : k ∉ Ending.all.map Ending.key :=
      (by decide : ∀ k ∈ coreOrder, k ∉ Ending.all.map Ending.key) k hk
    rw [hws.field?_eq_none hwith, hts.field?_eq_none htail, Option.none_or, Option.or_none]
  · have hwith : k ∉ Clause.tableExpressions :=
      (by decide : ∀ k ∈ Ending.all.map Ending.key, k ∉ Clause.tableExpressions) k hk
    have hcore : k ∉ coreKeys := (by decide : ∀ k ∈ Ending.all.map Ending.key, k ∉ coreKeys) k hk
    rw [hws.field?_eq_none hwith, hes.field?_eq_none hcore, Option.none_or, Option.none_or]

include hregistry horder in
/-- What stands around a body is written around its text. -/
theorem marks_around (haround : Around ws ts) (hes : KeysIn coreKeys es) (hI : I.Ignores s)
    (hbody : BodyText I s es x) (h : WrittenAs s (ws ++ es ++ ts) f) :
    ∃ ms, TextOf s ms f ∧ Reads I .query ms (I.bound ws (I.tailed (.ofEntries ts) x)) := by
  obtain ⟨os, hos, rfl⟩ := h
  have hkeys : KeysIn allKeys (ws ++ es ++ ts) := haround.keys hes
  have hall : ∀ k ∈ allKeys, k ∈ Clause.tableExpressions ++ coreOrder ++ Ending.all.map Ending.key := by
    decide
  have hnone : ∀ k ∈ s.clauseOrder,
      k ∉ Clause.tableExpressions ++ coreOrder ++ Ending.all.map Ending.key →
        Entries.field? (ws ++ es ++ ts) k = none :=
    fun k _ hk => hkeys.field?_eq_none fun hmem => hk (hall k hmem)
  have hsub := horder ▸ order_sublist s.dialect
  obtain ⟨os', hos', hspaced⟩ := (writes_sublist hsub (horder ▸ FromList.nodup_clauseOrder s.dialect)
    hnone).mp ⟨os, hos, rfl⟩
  obtain ⟨ow, oc, ot, hsplit, how, hoc, hot⟩ := writes_layers haround hes hos'
  obtain ⟨g, ms, hg, hms, hreads⟩ := hbody oc hoc
  obtain ⟨t, ht, htail⟩ := marks_of_tail hregistry haround hI hot
  rw [joined_eq_tail_spaced, ← hspaced, hsplit, hg, htail]
  refine ⟨(withMark? ws).toList ++ ms ++ t.marks, ?_, .query ws t hreads⟩
  cases ws with
  | nil =>
    have hnil : spaced ow = [] := by
      obtain ⟨_, ⟨⟩, hnil⟩ := (writes_sublist (List.nil_sublist _) (by decide) fun _ _ _ => rfl).mp
        ⟨ow, how, rfl⟩
      exact hnil.symm
    rw [hnil]
    exact hms.append ht
  | cons e es =>
    obtain ⟨key, hkey, vs, hws⟩ := haround.withs.resolve_left (List.cons_ne_nil _ _)
    have hfield : Entries.field? (e :: es) key = some (.list vs) := by
      simp [hws, entry, Entries.field?, Entries.valueAt?, Value.same_text_self]
    obtain ⟨gw, hgw⟩ := exists_spaced how hkey fun o ho => ho.withs_some hregistry hkey hfield
    have hfront : Clause.tableExpressions.Sublist s.clauseOrder :=
      ((List.sublist_append_left _ _).trans (List.sublist_append_left _ _)).trans hsub
    have hwritten := writtenAs_of_sublist horder hfront (fun k _ hk =>
      haround.isLayer.withs.field?_eq_none hk) how
    rw [hgw] at hwritten ⊢
    have hmark : TextOf s [.withs (e :: es)] (gw ++ ofText " ") := .single ⟨gw, hwritten, rfl⟩
    have htext := (hmark.append hms).append ht
    simpa [ofText, withMark?] using htext

include hregistry horder in
/-- The text of a combination has its value. -/
theorem marks_of_query (hI : I.Ignores s) (h : Combined I es x) (hf : WrittenAs s es f) :
    ∃ ms, TextOf s ms f ∧ Reads I .query ms x := by
  induction h generalizing f with
  | select haround hes =>
    exact marks_around hregistry horder haround hes.coreKeys hI (bodyText_select hregistry horder hes) hf
  | operation op haround h ih =>
    refine marks_around hregistry horder haround (operated_keys op _) hI ?_ hf
    exact bodyText_operation hregistry op fun c hc f hf =>
      marks_of_branch (h c hc) hregistry (fun hg => ih c hc hg) hf

end Queries

end SqlTree.SetOperations
