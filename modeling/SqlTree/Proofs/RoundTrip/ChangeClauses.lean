import SqlTree.Proofs.RoundTrip.Changes

/-! The clauses of changes: the tokens that each is rendered to and read from. -/

namespace SqlTree

open Syntax (Means Reads headed)
open Lexer (Spells nameToken)
open Render (Gives parenTokens)
open Syntax.Parser

namespace Change

/-- A clause with this key and value is rendered to these tokens. -/
def Phrase (e : String × Value) (ts : List Token) : Prop :=
  e.2 ≠ .null ∧ ∃ form f, Registry.standard.clause? e.1 = some form ∧
    Gives (e.2.height + 1) (fun r s => Render.clause r s form e.1 e.2) f ∧ Spells f.inlineSql ts

section Statements

variable {cs : List (String × Value)} {tss : List (List Token)} {es : Entries}

theorem field?_of_perm (hes : es.Perm (cs.map fun e => (.text e.1, e.2)))
    (hnodup : (cs.map Prod.fst).Nodup) (k : String) : Entries.field? es k = cs.lookup k := by
  have hentry : ∀ e ∈ es, ∃ c ∈ cs, e = (.text c.1, c.2) := by
    intro e he
    obtain ⟨c, hc, rfl⟩ := List.mem_map.mp (hes.mem_iff.mp he)
    exact ⟨c, hc, rfl⟩
  cases hk : cs.lookup k with
  | none =>
    rw [List.lookup_eq_none_iff] at hk
    rw [Entries.field?, Entries.valueAt?, Option.map_eq_none_iff, List.find?_eq_none]
    intro e he hsame
    obtain ⟨c, hc, rfl⟩ := hentry e he
    obtain rfl : c.1 = k := by simpa using Value.same_text_iff.mp hsame
    simpa using hk c hc
  | some v =>
    obtain ⟨ds, ds', hcs, -⟩ := List.lookup_eq_some_iff.mp hk
    have hmem : (k, v) ∈ cs := by simp [hcs]
    have hfield : Entries.hasField es k = true := Entries.hasField_iff.mpr
      ⟨_, hes.mem_iff.mpr (List.mem_map_of_mem hmem), rfl⟩
    obtain ⟨w, hw⟩ := Option.isSome_iff_exists.mp hfield
    obtain ⟨c, hc, heq⟩ := hentry _ (Entries.mem_of_field? hw)
    obtain ⟨hkey, rfl⟩ := Prod.mk.inj heq
    obtain rfl : (k, v) = c := List.inj_on_of_nodup_map hnodup hmem hc (by simpa using hkey)
    exact hw

theorem flatMap_lookup {order : List String} (horder : order.Nodup) {T : List (String × List Token)}
    (h : (T.map Prod.fst).Sublist order) :
    (order.flatMap fun k => (T.lookup k).getD []) = T.flatMap Prod.snd := by
  induction order generalizing T with
  | nil =>
    obtain rfl : T = [] := by simpa using List.sublist_nil.mp h
    rfl
  | cons k order ih =>
    obtain ⟨hk, hrest⟩ := List.nodup_cons.mp horder
    rcases List.sublist_cons_iff.mp h with hsub | ⟨ks, hks, hsub⟩
    · have hnone : T.lookup k = none := by
        rw [List.lookup_eq_none_iff]
        intro e he
        rw [bne_iff_ne]
        rintro rfl
        exact hk (hsub.subset (List.mem_map_of_mem he))
      rw [List.flatMap_cons, hnone, ih hrest hsub]
      rfl
    · obtain ⟨⟨j, ts⟩, T, rfl, rfl, rfl⟩ := List.map_eq_cons_iff.mp hks
      rw [List.flatMap_cons, List.flatMap_cons, List.lookup_cons_self, ← ih hrest hsub]
      congr 1
      refine List.flatMap_congr fun l hl => ?_
      have hne : (l == j) = false := by
        rw [beq_eq_false_iff_ne]
        rintro rfl
        exact hk hl
      simp [List.lookup_cons, hne]

theorem order_nodup : Clause.order.Nodup := by decide

/-- The values of clauses and their tokens are found under the same keys. -/
theorem lookup_phrases (h : List.Forall₂ Phrase cs tss) (k : String) :
    (cs.lookup k = none ∧ ((cs.map Prod.fst).zip tss).lookup k = none) ∨
      ∃ v ts, cs.lookup k = some v ∧ ((cs.map Prod.fst).zip tss).lookup k = some ts ∧
        Phrase (k, v) ts := by
  induction h with
  | nil => exact .inl ⟨rfl, rfl⟩
  | @cons c ts cs tss hc _ ih =>
    obtain ⟨l, v⟩ := c
    by_cases hk : k = l
    · subst hk
      exact .inr ⟨v, ts, by simp, by simp, hc⟩
    · have hne : (k == l) = false := by simpa using hk
      simpa [List.lookup_cons, hne] using ih

theorem form_of_perm (hes : es.Perm (cs.map fun e => (.text e.1, e.2)))
    (horder : (cs.map Prod.fst).Sublist Clause.order) :
    Form.ofEntries Registry.standard.clauseOrder es = .clause := by
  refine form_of_known (fun _ hk => hk) fun e he => ?_
  obtain ⟨c, hc, rfl⟩ := List.mem_map.mp (hes.mem_iff.mp he)
  exact ⟨c.1, horder.subset (List.mem_map_of_mem hc), rfl⟩

/-- The clauses of a statement are rendered to their tokens in the order of the clauses. -/
theorem phrases_write (h : List.Forall₂ Phrase cs tss)
    (horder : (cs.map Prod.fst).Sublist Clause.order)
    (hes : es.Perm (cs.map fun e => (.text e.1, e.2))) (hne : tss.flatten ≠ []) (nested : Bool) :
    ∃ f, Gives (Value.map es).height (fun r s => Render.statement r s nested es) f ∧
      Spells f.inlineSql (parenTokens nested tss.flatten) := by
  have hlen : cs.length = tss.length := h.length_eq
  have hkeys : ((cs.map Prod.fst).zip tss).map Prod.fst = cs.map Prod.fst :=
    List.map_fst_zip (by simp [hlen])
  have htokens := flatMap_lookup order_nodup (T := (cs.map Prod.fst).zip tss) (by rwa [hkeys])
  rw [List.flatMap_def (f := Prod.snd), List.map_snd_zip (by simp [hlen])] at htokens
  rw [← htokens] at hne ⊢
  refine statement_gives (checkKeys_known fun e he => ?_) (fun k _ => ?_) hne nested
  · obtain ⟨c, hc, rfl⟩ := List.mem_map.mp (hes.mem_iff.mp he)
    exact ⟨c.1, horder.subset (List.mem_map_of_mem hc), rfl⟩
  · have hfield := field?_of_perm hes (order_nodup.sublist horder) k
    rcases lookup_phrases h k with ⟨hv, hts⟩ | ⟨v, ts, hv, hts, hnull, form, f, hform, hf, hs⟩
    · rw [hts]
      exact clauseOf_absent (.inl (hfield.trans hv))
    · rw [hts]
      exact clauseOf_written (hfield.trans hv) hform hnull hf hs

end Statements

section Writing

theorem Phrase.of (form : ClauseForm) {key : String} {v : Value} {f : Fragment} {ts : List Token}
    (hform : Registry.standard.clause? key = some form) (hne : v ≠ .null)
    (hf : Gives (v.height + 1) (fun r s => Render.clause r s form key v) f)
    (hs : Spells f.inlineSql ts) : Phrase (key, v) ts :=
  ⟨hne, form, f, hform, hf, hs⟩

/-- Words in front of a fragment. -/
theorem spells_after (w : String) (ws : List String) (hw : ∀ x ∈ w :: ws, Lexer.isWord x = true)
    {f : Fragment} {ts : List Token} (hs : Spells f.inlineSql ts) :
    Spells (Fragment.after (" ".intercalate (w :: ws) ++ " ") f).inlineSql
      ((w :: ws).map nameToken ++ ts) := by
  rw [Fragment.inlineSql_after]
  exact (Lexer.spells_words w ws (hw w (by simp)) fun x hx => hw x (by simp [hx])).space hs

/-- Fragments of the same height with commas between them. -/
theorem commas_write {ι : Type} {m : Renderer → Settings → ι → Render Fragment} {n : Nat}
    {xs : List ι} {tss : List (List Token)} (hne : xs ≠ [])
    (h : List.Forall₂ (fun x ts => ∃ f, Gives n (fun r s => m r s x) f ∧ Spells f.inlineSql ts)
      xs tss) :
    ∃ f, Gives n (fun r s => do return Fragment.commas (← xs.mapM (m r s))) f ∧
      Spells f.inlineSql (commaTokens tss) := by
  have hall : ∃ fs, List.Forall₂ (fun x f => Gives n (fun r s => m r s x) f) xs fs ∧
      List.Forall₂ (fun f ts => Spells (Fragment.inlineSql f) ts) fs tss := by
    clear hne
    induction h with
    | nil => exact ⟨[], .nil, .nil⟩
    | cons hx _ ih =>
      obtain ⟨f, hf, hs⟩ := hx
      obtain ⟨fs, hfs, hss⟩ := ih
      exact ⟨f :: fs, .cons hf hfs, .cons hs hss⟩
  obtain ⟨fs, hfs, hs⟩ := hall
  refine ⟨_, (Gives.mapM hfs).map, Fragment.spells_commas ?_ hs⟩
  rintro rfl
  cases hfs
  exact hne rfl

end Writing

section Targets

/-- The tokens of an alias. -/
def aliasTokens : Option String → List Token
  | none => []
  | some a => [nameToken "AS", .name a]

def Target.tokens (t : Target) : List Token := .name t.table :: aliasTokens t.name

theorem Target.item_writes (t : Target) :
    ∃ f, Gives (t.value.height + 1) (fun r s => Render.item r s true t.value) f ∧
      Spells f.inlineSql t.tokens := by
  obtain ⟨table, hplain, name, hname⟩ := t
  cases name with
  | none =>
    have h : Tabled (.text (dotted [table])) (pathTokens [table]) := tabled_name (by simpa)
    rw [dotted, String.intercalate_singleton] at h
    exact h.writes
  | some a =>
    have ha := hname a rfl
    have hspells : Spells (Fragment.ofText table).inlineSql [.name table] := by
      rw [Fragment.inlineSql_ofText]
      exact hplain.toPlainPart.spells
    refine ⟨_, Render.gives_aliased (fun u hu => ?_) ha (gives_name hplain.dotted _),
      (Render.spells_aliased ha hspells :)⟩
    cases hu
    exact hplain.dotted

theorem Target.value_ne_null (t : Target) : t.value ≠ .null := by
  rw [Target.value]
  split <;> nofun

theorem Target.insertInto_eq (t : Target) (r : Renderer) (maxDepth depth : Int) (st : Entries) :
    Render.insertInto r (.inlining maxDepth depth st) "insert-into" t.value = do
      return Fragment.after "INSERT INTO "
        (← Render.item r (.inlining maxDepth depth st) true t.value) := by
  have hkeyword : Keyword.render "insert-into" ++ " " = "INSERT INTO " := by decide
  obtain ⟨table, hplain, name, hname⟩ := t
  cases name with
  | none =>
    simp [Target.value, Render.insertInto, Render.aliasPair?, Value.items?, Value.asItems,
      Render.insertSource, hkeyword, Fragment.joined]
  | some a =>
    have hpair := Render.aliasPair_of (v := .text table)
      (fun u hu => by cases hu; exact hplain.dotted) (hname a rfl) maxDepth depth st
    simp only [Target.value, Render.insertInto, hpair, hkeyword]

theorem Target.insertInto_phrase (t : Target) :
    Phrase ("insert-into", t.value) (nameToken "INSERT" :: nameToken "INTO" :: t.tokens) := by
  obtain ⟨f, hf, hs⟩ := t.item_writes
  refine .of .insertInto (by decide) t.value_ne_null ?_
    (spells_after "INSERT" ["INTO"] (by decide) hs)
  exact hf.map.congr fun r m d st => t.insertInto_eq r m d st

theorem Target.update_phrase (t : Target) :
    Phrase ("update", t.value) (nameToken "UPDATE" :: t.tokens) := by
  obtain ⟨f, hf, hs⟩ := t.item_writes
  refine .of .updateTable (by decide) t.value_ne_null ?_
    (spells_after "UPDATE" [] (by decide) hs)
  exact hf.map.congr fun r m d st => rfl

theorem Target.delete_phrase (t : Target) :
    Phrase ("delete-from", t.value) (nameToken "DELETE" :: nameToken "FROM" :: t.tokens) := by
  obtain ⟨f, hf, hs⟩ := t.item_writes
  refine .of .deleteFrom (by decide) t.value_ne_null ?_
    (spells_after "DELETE" ["FROM"] (by decide) hs)
  exact hf.map.congr fun r m d st => rfl

end Targets

section Lists

def Columns.tokens (c : Columns) : List Token :=
  .symbol "(" :: commaTokens (c.names.map fun n => [.name n]) ++ [.symbol ")"]

theorem Columns.phrase (c : Columns) : Phrase ("columns", c.value) c.tokens := by
  have hitems : (c.names.map Value.text).isEmpty = false := by simpa using c.ne_nil
  refine .of .columnList (f := .ofText ("(" ++ ", ".intercalate c.names ++ ")"))
    (by decide) nofun (.words fun m d st => ?_) ?_
  · simp only [Columns.value, Render.columnList, Value.asItems, Value.items?, Option.getD_some,
      hitems, names_inlining c.plain]
    rfl
  · rw [Fragment.inlineSql_ofText]
    exact (spells_names c.ne_nil c.plain).parens

/-- A clause of items, of tables or of expressions. -/
theorem selection_phrase {key w : String} {vs : List Value} {tss : List (List Token)}
    (hform : Registry.standard.clause? key = some .selection) (hkey : Keyword.render key = w)
    (hw : Lexer.isWord w = true) (hne : vs ≠ [])
    (h : List.Forall₂ (fun v ts => ∃ f, Gives (v.height + 1)
      (fun r s => Render.item r s (Clause.ofTables.contains key) v) f ∧ Spells f.inlineSql ts)
      vs tss) :
    Phrase (key, .list vs) (nameToken w :: commaTokens tss) := by
  obtain ⟨fs, hfs, hs, hfs_ne⟩ := exists_gives
    (m := fun r s => Render.item r s (Clause.ofTables.contains key)) h fun v hv =>
      Nat.le_succ_of_le (Render.height_le_of_mem _ hv)
  refine .of _ hform nofun (hfs.map (f := Render.headed w) |>.congr fun r m d st => ?_)
    (spells_headed (Lexer.spells_word hw) (hfs_ne hne) hs)
  rw [← hkey]
  rfl

theorem Returned.exists_tokens (r : Returned) : ∃ tss, List.Forall₂ Selected r.items tss :=
  exists_forall₂ fun v hv => exists_selected (r.selected v hv)

theorem Returned.phrase (r : Returned) {tss : List (List Token)}
    (h : List.Forall₂ Selected r.items tss) :
    Phrase ("returning", .list r.items) (nameToken "RETURNING" :: commaTokens tss) :=
  selection_phrase (by decide) (by decide) (by decide) r.ne_nil (h.imp fun _ _ h => h.writes)

theorem using_phrase {vs : List Value} {tss : List (List Token)} (hne : vs ≠ [])
    (h : List.Forall₂ Tabled vs tss) :
    Phrase ("using", .list vs) (nameToken "USING" :: commaTokens tss) :=
  selection_phrase (by decide) (by decide) (by decide) hne (h.imp fun _ _ h => h.writes)

theorem stated_phrase {c : QueryClause} {v : Value} {ts : List Token} (h : Stated c v ts) :
    Phrase (c.key, v) ts := by
  obtain ⟨f, hf, hs⟩ := h.writes
  exact .of c.form c.clause?_key h.ne_null hf hs

end Lists

section Assignments

/-- The tokens of an assignment. -/
def Assigned (e : String × Value) (ts : List Token) : Prop :=
  ∃ us, Expressed e.2 us ∧ ts = .name e.1 :: .symbol "=" :: us

theorem Assignments.exists_tokens (a : Assignments) : ∃ tss, List.Forall₂ Assigned a.items tss := by
  refine exists_forall₂ fun e he => ?_
  obtain ⟨⟨us, hus⟩, -⟩ := (a.expressible e he).exists_tokens
  exact ⟨_, us, hus, rfl⟩

theorem assignment_writes {c : String} {v : Value} {ts : List Token} (hc : PlainName c)
    (h : Assigned (c, v) ts) :
    ∃ f, Gives (v.height + 1) (fun r s => Render.assignment r s (.text c, v)) f ∧
      Spells f.inlineSql ts := by
  obtain ⟨us, ⟨⟨f, hf, hs⟩, -, -, -⟩, rfl⟩ := h
  refine ⟨Fragment.after (c ++ " = ") f, ?_, ?_⟩
  · refine (hf.map (f := Fragment.after (c ++ " = "))).congr fun r m d st => ?_
    simp only [Render.assignment, name_inlining hc.dotted]
    rfl
  · have hsign : Spells "=" [.symbol "="] := Lexer.spells_sign (by decide)
    have hall := (hc.toPlainPart.spells.space hsign).space hs
    rw [Fragment.inlineSql_after]
    simpa [String.append_assoc] using hall

theorem record_writes {items : List (String × Value)} {tss : List (List Token)} (hne : items ≠ [])
    (hplain : ∀ e ∈ items, PlainName e.1) (h : List.Forall₂ Assigned items tss) (key : String) :
    ∃ f, Gives (Value.record items).height
        (fun r s => Render.assignments r s key (.record items)) f ∧
      Spells f.inlineSql (commaTokens tss) := by
  have hwrites : List.Forall₂ (fun e ts => ∃ f, Gives (Value.record items).height
      (fun r s => Render.assignment r s e) f ∧ Spells f.inlineSql ts)
      (items.map fun e => (Value.text e.1, e.2)) tss := by
    have hmem := (List.forall₂_and_left items tss).mpr ⟨fun e he => he, h⟩
    refine List.forall₂_map_left_iff.mpr (hmem.imp ?_)
    rintro e ts ⟨he, hts⟩
    obtain ⟨f, hf, hs⟩ := assignment_writes (hplain e he) hts
    have hentry : (Value.text e.1, e.2) ∈ items.map fun e => (Value.text e.1, e.2) :=
      List.mem_map_of_mem he
    exact ⟨f, hf.mono (Value.height_lt_of_entry hentry), hs⟩
  obtain ⟨f, hf, hs⟩ := commas_write (by simpa using hne) hwrites
  refine ⟨f, hf.congr fun r m d st => ?_, hs⟩
  cases items with
  | nil => contradiction
  | cons => rfl

theorem Assignments.writes (a : Assignments) {tss : List (List Token)}
    (h : List.Forall₂ Assigned a.items tss) (key : String) :
    ∃ f, Gives a.value.height (fun r s => Render.assignments r s key a.value) f ∧
      Spells f.inlineSql (commaTokens tss) :=
  record_writes a.ne_nil a.plain h key

theorem Assignments.set_phrase (a : Assignments) {tss : List (List Token)}
    (h : List.Forall₂ Assigned a.items tss) :
    Phrase ("set", a.value) (nameToken "SET" :: commaTokens tss) := by
  obtain ⟨f, hf, hs⟩ := a.writes h "set"
  exact .of .assignments (by decide) nofun (hf.mono (Nat.le_succ _)).map
    (spells_after "SET" [] (by decide) hs)

end Assignments

section Conflicts

theorem Columns.expressed (c : Columns) :
    List.Forall₂ Expressed (c.names.map .text) (c.names.map fun n => [Token.name n]) := by
  refine List.forall₂_map_left_iff.mpr (List.forall₂_map_right_iff.mpr ?_)
  refine List.forall₂_same.mpr fun n hn => ?_
  have hplain := (c.plain n hn).toPlainPart
  have h := (operated_column hplain (List.forall_mem_nil PlainPart)).expressed
    (Render.writes_column hplain (by simp) false)
  rwa [dotted, String.intercalate_singleton] at h

def ConflictTarget.tokens : ConflictTarget → List Token
  | columns c => c.tokens
  | any => []
  | constraint name _ => [nameToken "ON", nameToken "CONSTRAINT", .name name]

theorem spells_onConflict : Spells "ON CONFLICT" [nameToken "ON", nameToken "CONFLICT"] :=
  Lexer.spells_words "ON" ["CONFLICT"] rfl (by decide)

theorem any_phrase : Phrase ("on-conflict", .list []) [nameToken "ON", nameToken "CONFLICT"] := by
  refine .of .onConflict (f := .ofText "ON CONFLICT") (by decide) nofun
    ((Gives.pure _).congr fun r m d st => ?_) ?_
  · rfl
  · rw [Fragment.inlineSql_ofText]
    exact spells_onConflict

theorem isClause_text (t : String) (maxDepth depth : Int) (st : Entries) :
    (Settings.inlining maxDepth depth st).isClause (.text t) = false := by
  simp only [Settings.isClause, Form.isClause, Form.of]
  split <;> decide

theorem Columns.onConflict_eq (c : Columns) (r : Renderer) (maxDepth depth : Int) (st : Entries) :
    Render.onConflict r (.inlining maxDepth depth st) c.value = do
      let fs ← (c.names.map Value.text).mapM (r.expr (.inlining maxDepth depth st) false)
      return Fragment.joined " " (Fragment.ofText "ON CONFLICT" ::
        if fs.isEmpty then [] else [Fragment.parens (Fragment.commas fs)]) := by
  have htargets : (c.names.map Value.text).filter
      (!(Settings.inlining maxDepth depth st).isClause ·) = c.names.map Value.text := by
    rw [List.filter_eq_self]
    intro v hv
    obtain ⟨n, -, rfl⟩ := List.mem_map.mp hv
    rw [isClause_text]
    rfl
  have hactions : (c.names.map Value.text).filter
      (Settings.inlining maxDepth depth st).isClause = [] := by
    rw [List.filter_eq_nil_iff]
    intro v hv
    obtain ⟨n, -, rfl⟩ := List.mem_map.mp hv
    rw [isClause_text]
    decide
  simp [Render.onConflict, Columns.value, Render.isTrue, Value.asItems, Value.items?, htargets,
    hactions, Render.each]

theorem Columns.conflict_phrase (c : Columns) :
    Phrase ("on-conflict", c.value) (nameToken "ON" :: nameToken "CONFLICT" :: c.tokens) := by
  obtain ⟨fs, hfs, hs, hfs_ne⟩ := exists_gives (m := fun r s => r.expr s false)
    (c.expressed.imp fun _ _ h => h.writes) fun v hv =>
      Nat.le_succ_of_le (Render.height_le_of_mem _ hv)
  have hne : fs ≠ [] := hfs_ne (by simpa using c.ne_nil)
  have hempty : fs.isEmpty = false := by simpa using hne
  have hparens : Spells (Fragment.parens (Fragment.commas fs)).inlineSql c.tokens := by
    rw [Fragment.inlineSql_parens]
    exact (Fragment.spells_commas hne hs).parens
  have hmap := hfs.map (f := fun fs => Fragment.joined " " (Fragment.ofText "ON CONFLICT" ::
    if fs.isEmpty then [] else [Fragment.parens (Fragment.commas fs)]))
  rw [hempty, if_neg (by decide)] at hmap
  refine .of .onConflict (by decide) nofun
    (hmap.congr fun r m d st => c.onConflict_eq r m d st) ?_
  have hall := spells_onConflict.space hparens
  rw [String.append_assoc] at hall
  simpa only [Fragment.joined, Fragment.inlineSql_append, Fragment.inlineSql_ofText,
    Fragment.inlineSql_text, List.cons_append, List.nil_append] using hall

theorem constraint_phrase {name : String} (hname : PlainName name) :
    Phrase ("on-constraint", .text name) [nameToken "ON", nameToken "CONSTRAINT", .name name] := by
  refine .of .onConstraint (f := .ofText ("ON CONSTRAINT " ++ name)) (by decide) nofun
    (.words fun m d st => ?_) ?_
  · rw [name_inlining hname.dotted]
    rfl
  · rw [Fragment.inlineSql_ofText]
    have hwords : Spells "ON CONSTRAINT" [nameToken "ON", nameToken "CONSTRAINT"] :=
      Lexer.spells_words "ON" ["CONSTRAINT"] rfl (by decide)
    exact hwords.space hname.toPlainPart.spells

theorem doNothing_phrase :
    Phrase ("do-nothing", .bool true) [nameToken "DO", nameToken "NOTHING"] := by
  refine .of .doNothing (f := .ofText "DO NOTHING") (by decide) nofun (.pure _) ?_
  rw [Fragment.inlineSql_ofText]
  exact Lexer.spells_words "DO" ["NOTHING"] rfl (by decide)

theorem doUpdate_phrase {v fields condition : Value} {f g : Fragment} {ts us : List Token}
    (hparts : Render.updateParts v = (fields, condition)) (hne : v ≠ .null)
    (hf : Gives (v.height + 1) (fun r s => Render.updateFields r s "do-update-set" fields) f)
    (hs : Spells f.inlineSql ts)
    (hg : Gives (v.height + 1) (fun r s => Render.condition r s "where" condition) g)
    (hgs : Spells g.inlineSql us ∨ g = [] ∧ us = []) :
    Phrase ("do-update-set", v)
      (nameToken "DO" :: nameToken "UPDATE" :: nameToken "SET" :: (ts ++ us)) := by
  have hmap := hf.bind (f := fun f r s => do
    let w ← Render.condition r s "where" condition
    return Fragment.after "DO UPDATE SET " (if w.isBlank then f else f ++ .text " " :: w)) hg.map
  refine .of .doUpdate (by decide) hne (hmap.congr fun r m d st => ?_) ?_
  · change Render.doUpdate r _ _ v = _
    rw [Render.doUpdate, hparts]
  · rcases hgs with hgs | ⟨rfl, rfl⟩
    · rw [Fragment.isBlank_eq_false hgs, if_neg (by decide)]
      refine spells_after "DO" ["UPDATE", "SET"] (by decide) ?_
      have hall := hs.space hgs
      simpa [String.append_assoc] using hall
    · rw [List.append_nil]
      exact spells_after "DO" ["UPDATE", "SET"] (by decide) hs

/-- The tokens of what is done in a conflict, made of those of its parts. -/
inductive ConflictAction.Written : ConflictAction → List Token → Prop
  | nothing : Written nothing [nameToken "NOTHING"]
  | set {a : Assignments} {h : "fields" ∉ a.items.map Prod.fst} {tss : List (List Token)} :
      List.Forall₂ Assigned a.items tss →
      Written (.set a h) (nameToken "UPDATE" :: nameToken "SET" :: commaTokens tss)
  | setWhere {a : Assignments} {v : Value} {h : Expressible v} {es : Entries}
      {hes : es.Perm [(.text "fields", a.value), (.text "where", v)]} {tss : List (List Token)}
      {us : List Token} : List.Forall₂ Assigned a.items tss → Expressed v us →
      Written (.setWhere a v h es hes)
        (nameToken "UPDATE" :: nameToken "SET" :: (commaTokens tss ++ nameToken "WHERE" :: us))

theorem ConflictAction.exists_written (a : ConflictAction) : ∃ ts, a.Written ts := by
  cases a with
  | nothing => exact ⟨_, .nothing⟩
  | set a =>
    obtain ⟨tss, htss⟩ := a.exists_tokens
    exact ⟨_, .set htss⟩
  | setWhere a v hv =>
    obtain ⟨tss, htss⟩ := a.exists_tokens
    obtain ⟨⟨us, hus⟩, -⟩ := hv.exists_tokens
    exact ⟨_, .setWhere htss hus⟩

theorem Assignments.updateFields_writes (a : Assignments) {tss : List (List Token)}
    (h : List.Forall₂ Assigned a.items tss) {n : Nat} (hn : a.value.height ≤ n) :
    ∃ f, Gives n (fun r s => Render.updateFields r s "do-update-set" a.value) f ∧
      Spells f.inlineSql (commaTokens tss) := by
  obtain ⟨f, hf, hs⟩ := a.writes h "do-update-set"
  exact ⟨f, (hf.mono hn).congr fun r m d st => rfl, hs⟩

theorem ConflictAction.Written.phrase {a : ConflictAction} {ts : List Token} (h : a.Written ts) :
    Phrase a.clause (nameToken "DO" :: ts) := by
  cases h with
  | nothing => exact doNothing_phrase
  | @set a hfields tss h =>
    obtain ⟨f, hf, hs⟩ := a.updateFields_writes h (Nat.le_succ _)
    have hparts : Render.updateParts a.value = (a.value, .null) := by
      have hnone : Entries.field? (a.items.map fun e => (.text e.1, e.2)) "fields" = none := by
        rw [field?_of_perm (.refl _) a.nodup, List.lookup_eq_none_iff]
        intro e he
        rw [bne_iff_ne]
        rintro heq
        exact hfields (heq ▸ List.mem_map_of_mem he)
      simp only [Assignments.value, Value.record, Render.updateParts, hnone]
    have h := doUpdate_phrase hparts (by simp [Assignments.value, Value.record]) hf hs
      ((Gives.pure []).congr fun r m d st => rfl) (.inr ⟨rfl, (rfl : ([] : List Token) = [])⟩)
    rwa [List.append_nil] at h
  | @setWhere a v hv es hes tss us h hus =>
    have hnodup : ([("fields", a.value), ("where", v)].map Prod.fst).Nodup := by simp
    have hfield := field?_of_perm hes hnodup
    have hparts : Render.updateParts (.map es) = (a.value, v) := by
      simp [Render.updateParts, hfield, List.lookup_cons]
    have hheight : ∀ e ∈ [(Value.text "fields", a.value), (.text "where", v)],
        e.2.height < (Value.map es).height :=
      fun e he => Value.height_lt_of_entry (hes.mem_iff.mpr he)
    have hfields : a.value.height < (Value.map es).height :=
      hheight (.text "fields", a.value) (by simp)
    have hcondition : v.height < (Value.map es).height := hheight (.text "where", v) (by simp)
    obtain ⟨f, hf, hs⟩ := a.updateFields_writes h (n := (Value.map es).height + 1) (by omega)
    obtain ⟨g, hg, hgs⟩ := condition_writes "where" hv.ne_null (not_emptyArray hv) hus.writes
      (spells_keyword "WHERE" [] (by decide) (by decide))
    exact doUpdate_phrase hparts (by simp) hf hs (hg.mono (by omega)) (.inl hgs)

end Conflicts

section Rows

theorem null_takes (p : Syntax.Nested) : Takes (unary p) [nameToken "NULL"] (Ends 0) (· = .null) :=
  unary_takes p rfl (.peek_cons (.skip (.pure rfl)))

theorem default_takes (p : Syntax.Nested) :
    Takes (unary p) [nameToken "DEFAULT"] (Ends 0) (· = .default) :=
  unary_takes p rfl (.peek_cons (.skip (.pure rfl)))

theorem operated_null : Operated .null [nameToken "NULL"] := by
  refine operated_atom (Render.writes_null true) (by decide) (by decide)
    (starless_of_not_name rfl _) fun p => (null_takes p).mono (fun _ => id) ?_
  rintro _ rfl
  exact ⟨(Reads.pure _).visit, fun _ => rfl⟩

theorem writes_default (nested : Bool) :
    Render.Writes nested (headed "default" []) [nameToken "DEFAULT"] := by
  refine ⟨.ofText "DEFAULT", .deeper ((Gives.pure _).congr fun r m d st => ?_), ?_⟩
  · rfl
  · rw [Fragment.inlineSql_ofText]
    exact Lexer.spells_word rfl

theorem operated_default : Operated (headed "default" []) [nameToken "DEFAULT"] := by
  refine operated_atom (writes_default true) (by decide) (by decide) (starless_of_not_name rfl _)
    fun p => (default_takes p).mono (fun _ => id) ?_
  rintro _ rfl
  exact ⟨(Reads.pure _).visit, fun _ => rfl⟩

theorem Cell.exists_expressed {v : Value} (h : Cell v) : ∃ ts, Expressed v ts := by
  cases h with
  | expression hv => exact hv.exists_tokens.1
  | null => exact ⟨_, operated_null.expressed (Render.writes_null false)⟩
  | default => exact ⟨_, operated_default.expressed (writes_default false)⟩

/-- The tokens of a row, made of those of its cells. -/
def Rowed (vs : List Value) (ts : List Token) : Prop :=
  ∃ tss, vs ≠ [] ∧ List.Forall₂ Expressed vs tss ∧
    ts = .symbol "(" :: commaTokens tss ++ [.symbol ")"]

theorem Rowed.writes {vs : List Value} {ts : List Token} (h : Rowed vs ts) :
    ∃ f, Gives (Value.list vs).height (fun r s => Render.row r s vs) f ∧ Spells f.inlineSql ts := by
  obtain ⟨tss, hne, hvs, rfl⟩ := h
  have hcells : List.Forall₂ (fun v ts => ∃ f, Gives (Value.list vs).height
      (fun r s => r.expr s false v) f ∧ Spells f.inlineSql ts) vs tss := by
    refine ((List.forall₂_and_left vs tss).mpr ⟨fun v hv => hv, hvs⟩).imp fun v ts ⟨hv, h⟩ => ?_
    obtain ⟨f, hf, hs⟩ := h.writes
    exact ⟨f, hf.mono (Render.height_le_of_mem _ hv), hs⟩
  obtain ⟨f, hf, hs⟩ := commas_write (m := fun r s => r.expr s false) hne hcells
  refine ⟨Fragment.parens f, hf.map.congr fun r m d st => ?_, ?_⟩
  · rfl
  · rw [Fragment.inlineSql_parens]
    exact hs.parens

/-- The tokens of what is inserted, made of those of its rows. -/
inductive Source.Written : Source → List Token → Prop
  | defaults : Written defaults [nameToken "DEFAULT", nameToken "VALUES"]
  | rows {rs : List (List Value)} {hne : rs ≠ []} {hcells : ∀ r ∈ rs, r ≠ [] ∧ ∀ v ∈ r, Cell v}
      {tss : List (List Token)} : List.Forall₂ Rowed rs tss →
      Written (.rows rs hne hcells) (nameToken "VALUES" :: commaTokens tss)

theorem Source.exists_written (s : Source) : ∃ ts, s.Written ts := by
  cases s with
  | defaults => exact ⟨_, .defaults⟩
  | rows rs hne hcells =>
    have hrowed : ∀ r ∈ rs, ∃ ts, Rowed r ts := fun r hr => by
      obtain ⟨hrow, hr⟩ := hcells r hr
      obtain ⟨tss, htss⟩ := exists_forall₂ fun v hv => (hr v hv).exists_expressed
      exact ⟨_, tss, hrow, htss, rfl⟩
    obtain ⟨tss, htss⟩ := exists_forall₂ hrowed
    exact ⟨_, .rows htss⟩

theorem Source.Written.phrase {s : Source} {ts : List Token} (h : s.Written ts) :
    Phrase ("values", s.value) ts := by
  cases h with
  | defaults =>
    refine .of .rows (f := .ofText "DEFAULT VALUES") (by decide) nofun (.pure _) ?_
    rw [Fragment.inlineSql_ofText]
    exact Lexer.spells_words "DEFAULT" ["VALUES"] rfl (by decide)
  | @rows rs hne hcells tss h =>
    have hrows : List.Forall₂ (fun v ts => ∃ f, Gives ((Value.list (rs.map .list)).height + 1)
        (fun r s => Render.row r s v) f ∧ Spells f.inlineSql ts) rs tss := by
      refine ((List.forall₂_and_left rs tss).mpr ⟨fun v hv => hv, h⟩).imp fun v ts ⟨hv, h⟩ => ?_
      obtain ⟨f, hf, hs⟩ := h.writes
      have hle := Render.height_le_of_mem (v := .list v) (rs.map .list) (List.mem_map_of_mem hv)
      exact ⟨f, hf.mono (by omega), hs⟩
    obtain ⟨f, hf, hs⟩ := commas_write (m := Render.row) hne hrows
    refine .of .rows (by decide) nofun (hf.map.congr fun r m d st => ?_)
      (spells_after "VALUES" [] (by decide) hs)
    cases rs with
    | nil => contradiction
    | cons first rest =>
      have hmap : ((first :: rest).map Value.list).mapM
          (fun v => Render.row r (.inlining m d st) v.asItems) =
            (first :: rest).mapM (Render.row r (.inlining m d st)) := by
        rw [List.mapM_map]
        rfl
      change (do return Fragment.after "VALUES " (Fragment.commas
        (← ((first :: rest).map Value.list).mapM
          fun v : Value => Render.row r (.inlining m d st) v.asItems))) = _
      rw [hmap]
      simp only [bind_assoc, pure_bind]
      rfl

end Rows

end Change

end SqlTree
