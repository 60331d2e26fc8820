import SqlTree.Proofs.RoundTrip.Items

/-! Queries inside others: common table expressions and the branches of set operations. What is
known of the inner query is a hypothesis here. -/

namespace SqlTree

open Syntax (Means Reads)
open Lexer (Spells nameToken)
open Render (Gives Writes parenTokens)

/-- Entries of the same keys with the same values, in any order. -/
structure Entries.Echoes (fs es : Entries) : Prop where
  length : fs.length = es.length
  entry : ∀ f ∈ fs, ∃ e ∈ es, f.1.same e.1 = true ∧ f.2.same e.2 = true
  keys : ∀ e ∈ es, ∃ f ∈ fs, f.1 = e.1

namespace Entries.Echoes

variable {es fs es' fs' : Entries}

theorem same (h : fs.Echoes es) : (Value.map fs).same (.map es) = true :=
  Value.same_map h.length h.entry

theorem append (h : fs.Echoes es) (h' : fs'.Echoes es') : Echoes (fs ++ fs') (es ++ es') where
  length := by rw [List.length_append, List.length_append, h.length, h'.length]
  entry f hf := by
    rcases List.mem_append.mp hf with hf | hf
    · obtain ⟨e, he, hsame⟩ := h.entry f hf
      exact ⟨e, List.mem_append_left _ he, hsame⟩
    · obtain ⟨e, he, hsame⟩ := h'.entry f hf
      exact ⟨e, List.mem_append_right _ he, hsame⟩
  keys e he := by
    rcases List.mem_append.mp he with he | he
    · obtain ⟨f, hf, hkey⟩ := h.keys e he
      exact ⟨f, List.mem_append_left _ hf, hkey⟩
    · obtain ⟨f, hf, hkey⟩ := h'.keys e he
      exact ⟨f, List.mem_append_right _ hf, hkey⟩

end Entries.Echoes

/-- The reading yields entries that make up the same map. -/
def AgreesMap (r : Syntax.Read Entries) (es : Entries) : Prop := ∃ fs, Reads r fs ∧ fs.Echoes es

theorem Syntax.Reads.toMap {r : Syntax.Read Entries} {es : Entries} (h : Reads r es) :
    Reads (Value.map <$> r) (.map es) := by
  have hmap := Reads.map (f := Value.map) h
  rwa [bind_pure_comp] at hmap

theorem AgreesMap.agrees {r : Syntax.Read Entries} {es : Entries} (h : AgreesMap r es) :
    Agrees (Value.map <$> r) (.map es) := by
  obtain ⟨fs, hfs, hs⟩ := h
  exact ⟨.map fs, hfs.toMap, hs.same⟩

/-- A statement is rendered one level deeper. -/
theorem Render.Gives.stated {h : Nat} {nested : Bool} {es : Entries} {f : Fragment}
    (hm : Gives h (fun r s => Render.statement r s nested es) f) :
    Gives (h + 1) (fun r s => r.statement s nested es) f := by
  obtain ⟨k, hk⟩ := hm
  refine ⟨k, fun n hn maxDepth depth st hd c => ?_⟩
  obtain ⟨n, rfl⟩ : ∃ m, n = m + 1 := ⟨n - 1, by omega⟩
  exact hk n (by omega) maxDepth depth st hd c

namespace Syntax.Parser

/-- What the body of a query starts with. -/
def BodyStart (o : Option Token) : Prop := isKeyword "select" o = true ∨ isSymbol "(" o = true

/-- What a query starts with. -/
def QueryStart (o : Option Token) : Prop := isKeyword "with" o = true ∨ BodyStart o

theorem QueryStart.isKeyword {o : Option Token} {w : String} (h : QueryStart o)
    (hselect : w ≠ "select") (hwith : w ≠ "with") : isKeyword w o = false := by
  cases o with
  | none => rfl
  | some t =>
    cases t with
    | keyword v text =>
      have hv : v = "with" ∨ v = "select" := by
        simpa [QueryStart, BodyStart, Parser.isKeyword, isSymbol] using h
      rcases hv with rfl | rfl
      · simpa [Parser.isKeyword] using hwith.symm
      · simpa [Parser.isKeyword] using hselect.symm
    | _ => rfl

theorem BodyStart.isKeyword {o : Option Token} {w : String} (h : BodyStart o) (hw : w ≠ "select") :
    isKeyword w o = false := by
  by_cases hwith : w = "with"
  · subst hwith
    cases o with
    | none => rfl
    | some t =>
      cases t with
      | keyword v text =>
        obtain rfl : v = "select" := by simpa [BodyStart, Parser.isKeyword, isSymbol] using h
        rfl
      | _ => rfl
  · exact QueryStart.isKeyword (.inr h) hw hwith

theorem BodyStart.isSymbol {o : Option Token} {s : String} (h : BodyStart o) (hs : s ≠ "(") :
    isSymbol s o = false := by
  cases o with
  | none => rfl
  | some t =>
    cases t with
    | symbol v =>
      obtain rfl : v = "(" := by simpa [BodyStart, Parser.isKeyword, Parser.isSymbol] using h
      simpa [Parser.isSymbol] using hs.symm
    | _ => rfl

/-- The tokens that a query is rendered to and read from. -/
structure Queried (es : Entries) (ts : List Token) : Prop where
  form : Form.ofEntries Registry.standard.clauseOrder es = .clause
  writes : ∀ nested, ∃ f, Gives (Value.map es).height (fun r s => Render.statement r s nested es) f ∧
    Spells f.inlineSql (parenTokens nested ts)
  query : ∀ n, ts.length ≤ n → Takes (query (nested n)) ts (Closes 10) fun q => AgreesMap q.read es
  statement : ∀ n, ts.length ≤ n →
    Takes (statement (nested n)) ts (Closes 10) fun q => AgreesMap q.read es
  -- a selection alone is a branch of a set operation without parentheses
  branch : (Clause.parenthesised.any (Entries.hasField es ·)) = false →
    (∀ o, BodyStart (ahead ts o)) ∧ ∀ n, ts.length ≤ n →
      Takes (bodyPrimary (nested n)) ts (Closes 5) fun b => AgreesMap b.read es
  starts : ∀ o, QueryStart (ahead ts o)

variable {es : Entries} {ts : List Token}

theorem Queried.isClause (h : Queried es ts) (maxDepth depth : Int) (st : Entries) :
    (Settings.inlining maxDepth depth st).isClause (.map es) = true := by
  have hform : Form.of Registry.standard.clauseOrder (.map es) = .clause := h.form
  change decide (Form.of Registry.standard.clauseOrder (.map es) = .clause) = true
  rw [hform]
  rfl

section Expressions

variable {v : Value} {t : String} {cs : List String}

/-- The tokens that a common table expression is rendered to and read from. -/
structure Defined (v : Value) (ts : List Token) : Prop where
  writes : ∀ key, ∃ f, Gives (v.height + 1) (fun r s => Render.tableExpression r s key v) f ∧
    Spells f.inlineSql ts
  named : ∃ t us, ts = .name t :: us
  takes : ∀ n, ts.length ≤ n → Takes (cte (nested n)) ts (fun _ => True) fun c => Agrees c.read v

theorem name_inlining (ht : DottedName t) (maxDepth depth : Int) (st : Entries) :
    Render.name (.inlining maxDepth depth st) (.text t) = .ok t := by
  rw [Render.name, if_pos ht.isIdentText]
  obtain ⟨p, ps, hps, rfl⟩ := ht
  exact Render.nameText_plain (fun q hq => (hps q hq).toPlainPart) maxDepth depth st

theorem names_inlining (hcs : ∀ c ∈ cs, PlainName c) (maxDepth depth : Int) (st : Entries) :
    Render.names (.inlining maxDepth depth st) (cs.map .text) = .ok (", ".intercalate cs) := by
  have hmap : (cs.map Value.text).mapM (Render.name (.inlining maxDepth depth st)) = .ok cs := by
    induction cs with
    | nil => rfl
    | cons c cs ih =>
      rw [List.map_cons, List.mapM_cons, name_inlining (hcs c (by simp)).dotted,
        ih fun d hd => hcs d (by simp [hd])]
      rfl
  rw [Render.names, hmap]
  rfl

theorem spells_names (hne : cs ≠ []) (hcs : ∀ c ∈ cs, PlainName c) :
    Spells (", ".intercalate cs) (commaTokens (cs.map fun c => [.name c])) := by
  induction cs with
  | nil => contradiction
  | cons c cs ih =>
    have hc := (hcs c (by simp)).toPlainPart.spells
    cases cs with
    | nil => rwa [String.intercalate_singleton]
    | cons d cs =>
      rw [String.intercalate_cons_cons]
      exact hc.comma (ih (by simp) fun x hx => hcs x (by simp [hx]))

/-- A label in front of a query in parentheses. -/
theorem Queried.gives_labelled (h : Queried es ts) (label : Value) {u : String} {us : List Token}
    (hlabel : ∀ maxDepth depth st,
      Render.tableExpressionName (.inlining maxDepth depth st) label = .ok u)
    (hu : Spells u us) (key : String) :
    ∃ f, Gives ((Value.list [label, .map es]).height + 1)
        (fun r s => Render.tableExpression r s key (.list [label, .map es])) f ∧
      Spells f.inlineSql (us ++ nameToken "AS" :: (.symbol "(" :: (ts ++ [.symbol ")"]))) := by
  obtain ⟨f, hf, hs⟩ := h.writes true
  refine ⟨Fragment.after (u ++ " AS ") f, ?_, ?_⟩
  · have hle := Render.height_le_of_mem (v := .map es) [label, .map es] (by simp)
    refine ((hf.stated.map (f := Fragment.after (u ++ " AS "))).mono (by omega)).congr
      fun r m d st => ?_
    simp only [Render.tableExpression, Value.items?, hlabel, Render.nest, h.isClause, if_true]
    rfl
  · have has : Spells "AS" [nameToken "AS"] := Lexer.spells_word rfl
    have hall := (hu.space has).space hs
    simpa [Fragment.inlineSql_after, parenTokens, String.append_assoc, List.append_assoc] using hall

theorem body_takes {p : Nested} (t : String) (columns : List Name) (follow : Option Token → Prop)
    {post : Tree .statement → Prop} (hq : Takes p.statement ts (Closes 10) post) :
    Takes (keyword "as" >>= fun _ => parens p.statement >>= fun q => pure (Tree.cte (bare t) columns q))
      (nameToken "AS" :: (.symbol "(" :: (ts ++ [.symbol ")"]))) follow
      fun c => ∃ q, post q ∧ c = Tree.cte (bare t) columns q := by
  have hbody : Takes (parens p.statement) (.symbol "(" :: ts ++ [.symbol ")"]) follow post :=
    parens_takes (hq.before (by rintro _ rfl; exact .close))
  exact .keyword rfl (hbody.map fun q hq => ⟨q, hq, rfl⟩)

theorem cte_agrees {q : Tree .statement} (hq : AgreesMap q.read es) :
    Agrees (Tree.cte (bare t) [] q).read (.list [.text t, .map es]) := by
  obtain ⟨fs, hfs, hs⟩ := hq
  refine ⟨.list [.text t, .map fs], (hfs.map (f := fun fs => Value.list [.text t, .map fs])).visit, ?_⟩
  exact Value.same_list (.cons (Value.same_text_self t) (.cons hs.same .nil))

theorem cteColumns_agrees (hne : cs ≠ []) {q : Tree .statement} (hq : AgreesMap q.read es) :
    Agrees (Tree.cte (bare t) (cs.map bare) q).read
      (.list [.list [.text t, .list (cs.map .text)], .map es]) := by
  obtain ⟨fs, hfs, hs⟩ := hq
  have hempty : (cs.map bare).isEmpty = false := by simpa using hne
  have hnames : Reads (Reading.nameList (cs.map bare)) (cs.map .text) := by
    have hvalues : (cs.map bare).map Name.value = cs.map Value.text := by
      rw [List.map_map]
      rfl
    rw [Reading.nameList, hvalues]
    exact (Reads.pure _).visit
  refine ⟨.list [.list [.text t, .list (cs.map .text)], .map fs], ?_, ?_⟩
  · rw [Tree.read]
    simp only [Reading.cte, hempty]
    refine .visit (hnames.bind ?_)
    exact hfs.map (f := fun fs => Value.list [.list [.text t, .list (cs.map .text)], .map fs])
  · have hcs : List.Forall₂ (fun v w => Value.same v w = true) (cs.map .text) (cs.map .text) := by
      refine List.forall₂_same.mpr fun x hx => ?_
      obtain ⟨c, -, rfl⟩ := List.mem_map.mp hx
      exact Value.same_text_self c
    refine Value.same_list (.cons (Value.same_list (.cons (Value.same_text_self t) ?_))
      (.cons hs.same .nil))
    exact .cons (Value.same_list hcs) .nil

theorem nameList_takes (hne : cs ≠ []) {follow : Option Token → Prop} :
    Takes nameList (.symbol "(" :: commaTokens (cs.map fun c => [.name c]) ++ [.symbol ")"]) follow
      (· = cs.map bare) := by
  have hcs : List.Forall₂ (fun c ts => Takes name ts (OrSign "," (· = some (.symbol ")"))) (· = bare c))
      cs (cs.map fun c => [.name c]) :=
    List.forall₂_map_right_iff.mpr (List.forall₂_same.mpr fun c _ => name_takes c)
  refine parens_takes ((commas_takes (by rintro _ rfl; rfl) hne hcs).mono (fun _ => id) ?_)
  intro ns hns
  rw [← List.forall₂_eq_eq_eq]
  exact List.forall₂_map_right_iff.mpr hns.flip

theorem Queried.exists_defined (h : Queried es ts) (ht : PlainName t) :
    ∃ ts, Defined (.list [.text t, .map es]) ts := by
  refine ⟨_, fun key => h.gives_labelled (.text t) (name_inlining ht.dotted)
    ht.toPlainPart.spells key, ⟨t, _, rfl⟩, fun n hn => ?_⟩
  simp only [List.length_append, List.length_cons, List.length_nil] at hn
  obtain ⟨n, rfl⟩ : ∃ m, n = m + 1 := ⟨n - 1, by omega⟩
  have hbody := body_takes t [] (fun _ => True) (p := nested (n + 1))
    (h.statement n (by omega))
  refine Takes.bindAny (name_takes t) ?_
  rintro _ rfl
  refine .notAtSymbol (fun _ _ => rfl) (hbody.mono (fun _ => id) ?_)
  rintro _ ⟨q, hq, rfl⟩
  exact cte_agrees hq

theorem Queried.exists_defined_columns (h : Queried es ts) (ht : PlainName t) (hne : cs ≠ [])
    (hcs : ∀ c ∈ cs, PlainName c) :
    ∃ ts, Defined (.list [.list [.text t, .list (cs.map .text)], .map es]) ts := by
  have hlabel : ∀ maxDepth depth st, Render.tableExpressionName (.inlining maxDepth depth st)
      (.list [.text t, .list (cs.map .text)]) =
      .ok (t ++ " (" ++ ", ".intercalate cs ++ ")") := by
    intro m d st
    simp only [Render.tableExpressionName, Value.items?, name_inlining ht.dotted, Value.elements?,
      names_inlining hcs]
    simp [bind, Except.bind, pure, Except.pure, String.append_assoc]
  have hspells : Spells (t ++ " (" ++ ", ".intercalate cs ++ ")")
      ([.name t] ++ (.symbol "(" :: commaTokens (cs.map fun c => [.name c]) ++ [.symbol ")"])) := by
    have h := ht.toPlainPart.spells.space (spells_names hne hcs).parens
    rw [show (" (" : String) = " " ++ "(" from rfl]
    simpa only [String.append_assoc] using h
  refine ⟨_, fun key => h.gives_labelled _ hlabel hspells key, ⟨t, _, rfl⟩, fun n hn => ?_⟩
  simp only [List.length_append, List.length_cons, List.length_nil] at hn
  obtain ⟨n, rfl⟩ : ∃ m, n = m + 1 := ⟨n - 1, by omega⟩
  have hbody := body_takes t (cs.map bare) (fun _ => True) (p := nested (n + 1)) (h.statement n (by omega))
  rw [List.append_assoc]
  refine Takes.bindAny (name_takes t) ?_
  rintro _ rfl
  refine .isAtSymbol rfl (Takes.bindAny (nameList_takes hne) ?_)
  rintro _ rfl
  refine hbody.mono (fun _ => id) ?_
  rintro _ ⟨q, hq, rfl⟩
  exact cteColumns_agrees hne hq

end Expressions

section Branches

/-- The tokens of a branch of a set operation, in parentheses where it needs them. -/
inductive Branched : Value → List Token → Prop
  | mk {es : Entries} {ts : List Token} : Queried es ts →
      Branched (.map es) (parenTokens (Clause.parenthesised.any (Entries.hasField es ·)) ts)

variable {v : Value}

theorem Branched.exists_entries (h : Branched v ts) : ∃ es, v = .map es := by
  cases h
  exact ⟨_, rfl⟩

theorem Branched.writes (h : Branched v ts) :
    ∃ f, Gives (v.height + 1) (fun r s => Render.setBranch r s v) f ∧ Spells f.inlineSql ts := by
  cases h with
  | @mk es ts h =>
    obtain ⟨f, hf, hs⟩ := h.writes (Clause.parenthesised.any (Entries.hasField es ·))
    refine ⟨f, hf.stated.congr fun r m d st => ?_, hs⟩
    simp only [Render.setBranch, h.isClause, if_true]

theorem Branched.takes (h : Branched v ts) {n : Nat} (hn : ts.length ≤ n) :
    Takes (bodyPrimary (nested n)) ts (Closes 5) fun b => ∃ es, v = .map es ∧ AgreesMap b.read es := by
  cases h with
  | @mk es ts h =>
    by_cases hp : (Clause.parenthesised.any (Entries.hasField es ·)) = true
    · rw [hp] at hn ⊢
      obtain ⟨n, rfl⟩ : ∃ m, n = m + 1 := ⟨n - 1, by simp [parenTokens] at hn; omega⟩
      have hts : ts.length ≤ n := by
        simp [parenTokens] at hn
        omega
      have hq : Takes (parenQuery (nested (n + 1))) (.symbol "(" :: ts ++ [.symbol ")"])
          (Closes 5) fun q => AgreesMap q.read es :=
        parens_takes ((h.query n hts).before (by rintro _ rfl; exact .close))
      exact .noKeyword (fun _ _ => rfl) (hq.map fun q hq => ⟨es, rfl, hq⟩)
    · rw [Bool.not_eq_true] at hp
      rw [hp] at hn ⊢
      exact ((h.branch hp).2 n hn).mono (fun _ => id) fun b hb => ⟨es, rfl, hb⟩

theorem Branched.starts (h : Branched v ts) (o : Option Token) : BodyStart (ahead ts o) := by
  cases h with
  | @mk es ts h =>
    cases hp : Clause.parenthesised.any (Entries.hasField es ·) with
    | false => exact (h.branch hp).1 o
    | true => exact .inr rfl

end Branches

end Syntax.Parser

end SqlTree
