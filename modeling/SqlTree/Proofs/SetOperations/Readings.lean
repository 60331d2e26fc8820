import SqlTree.Proofs.Ensures
import SqlTree.Proofs.SetOperations.Values

/-!
The reading of a text of set operations: it follows the grammar, and there is only one. A scan of the
marks from the left, with the queries that are open on a stack, finds its value.
-/

namespace SqlTree.SetOperations

open Grammar (Derives Rhs Rule Terminal)
open Syntax (SetOperator)

variable {R : Type} {I : Interpretation R}

section Derivations

/-- The words of a set operation as it is written. -/
def signWords : SetOperator → List Terminal
  | .union => [.UNION]
  | .unionAll => [.UNION, .ALL]
  | .intersect => [.INTERSECT]
  | .except => [.EXCEPT]
  | .exceptAll => [.EXCEPT, .ALL]

def Ending.rule : Ending → Rule
  | order => .orderClause
  | limit => .limitPart
  | offset => .offsetPart

/-- What a mark is in the grammar. -/
def Mark.rhs : Mark → Rhs
  | .opening => Terminal.LPAR
  | .closing => Terminal.RPAR
  | .sign op => .seqs ((signWords op).map .token)
  | .select _ => Rule.selectCore
  | .withs _ => Rule.withClause
  | .tail e _ => e.rule

/-- The marks stand for these tokens. -/
abbrev Spelled (ms : List Mark) (tss : List (List Token)) : Prop :=
  List.Forall₂ (fun m ts => Derives m.rhs ts) ms tss

theorem spelled_toList {m : Option Mark} {tss : List (List Token)} (h : Spelled m.toList tss) :
    ∃ ts : Option (List Token), tss = ts.toList ∧ ∀ us ∈ ts, ∃ n ∈ m, Derives n.rhs us := by
  cases m with
  | none =>
    cases h
    exact ⟨none, rfl, by simp⟩
  | some m =>
    cases h with
    | @cons _ us _ _ hm h =>
      cases h
      exact ⟨some us, rfl, by simpa using hm⟩

theorem derives_seqs_append {xs ys : List Rhs} {ts us : List Token} (h : Derives (.seqs xs) ts)
    (h' : Derives (.seqs ys) us) : Derives (.seqs (xs ++ ys)) (ts ++ us) := by
  induction xs generalizing ts with
  | nil =>
    cases h
    exact h'
  | cons x xs ih =>
    cases h with
    | seq hx h =>
      rw [List.append_assoc]
      exact .seq hx (ih h)

theorem derives_single {x : Rhs} {ts : List Token} (h : Derives x ts) : Derives (.seqs [x]) ts := by
  rw [← List.append_nil ts]
  exact .seq h .empty

theorem derives_opt {x : Rhs} {ts : Option (List Token)} (h : ∀ us ∈ ts, Derives x us) :
    Derives (.opt x) ts.toList.flatten := by
  cases ts with
  | none => exact .right .empty
  | some us => exact .left (by simpa using h us rfl)

theorem derives_limitOffset {limit offset : Option (List Token)}
    (hlimit : ∀ ts ∈ limit, Derives Rule.limitPart ts)
    (hoffset : ∀ ts ∈ offset, Derives Rule.offsetPart ts) :
    Derives (.opt Rule.limitOffset) (limit.toList ++ offset.toList).flatten := by
  cases limit with
  | none =>
    cases offset with
    | none => exact .right .empty
    | some ts =>
      refine .left (.rule (.right (.left ?_)))
      rw [Option.toList_none, List.nil_append]
      exact .seq (hoffset ts rfl) (.seq (.right .empty) .empty)
  | some us =>
    have hfront : Derives (.seqs [Rule.limitPart]) [us].flatten := .seq (hlimit us rfl) .empty
    refine .left (.rule (.left ?_))
    rw [List.flatten_append]
    exact derives_seqs_append hfront (derives_single (derives_opt hoffset))

theorem Tail.marks_eq (t : Tail) : t.marks =
    (t.mark? .order).toList ++ ((t.mark? .limit).toList ++ (t.mark? .offset).toList) := by
  simp [Tail.marks, Ending.all]

/-- The clauses behind a body follow the grammar. -/
theorem derives_tail {t : Tail} {tss : List (List Token)} (h : Spelled t.marks tss) :
    Derives (.seqs [.opt Rule.orderClause, .opt Rule.limitOffset]) tss.flatten := by
  have hrule : ∀ {e : Ending} {ts : Option (List Token)},
      (∀ us ∈ ts, ∃ n ∈ t.mark? e, Derives n.rhs us) → ∀ us ∈ ts, Derives e.rule us := by
    intro e ts h us hus
    obtain ⟨n, hn, hderives⟩ := h us hus
    obtain ⟨v, -, rfl⟩ := Option.map_eq_some_iff.mp hn
    exact hderives
  rw [t.marks_eq] at h
  obtain ⟨_, _, rfl, horder, hrest⟩ := forall₂_append_left h
  obtain ⟨_, _, rfl, hlimit, hoffset⟩ := forall₂_append_left hrest
  obtain ⟨os, rfl, hos⟩ := spelled_toList horder
  obtain ⟨ls, rfl, hls⟩ := spelled_toList hlimit
  obtain ⟨fs, rfl, hfs⟩ := spelled_toList hoffset
  rw [List.flatten_append]
  exact .seq (derives_opt (hrule hos)) (derives_single (derives_limitOffset (hrule hls) (hrule hfs)))

/-- An operation and its operands follow a rule of the grammar. -/
theorem derives_operation {x y : Rhs} {op : SetOperator} {ls ms rs : List Token}
    (hl : Derives x ls) (hm : Derives (.seqs ((signWords op).map .token)) ms) (hr : Derives y rs) :
    Derives (.seqs (x :: (signWords op).map .token ++ [y])) (ls ++ (ms ++ rs)) := by
  rw [← List.append_assoc]
  exact derives_seqs_append (.seq hl hm) (derives_single hr)

theorem derives_setExpr {op : SetOperator} (hop : op ≠ .intersect) {ts : List Token}
    (h : Derives (.seqs (.rule .setExpr :: (signWords op).map .token ++ [.rule .setTerm])) ts) :
    Derives Rule.setExpr ts := by
  cases op with
  | union => exact .rule (.right (.left h))
  | unionAll => exact .rule (.right (.right (.right (.left h))))
  | intersect => exact absurd rfl hop
  | except => exact .rule (.right (.right (.right (.right (.left h)))))
  | exceptAll => exact .rule (.right (.right (.right (.right (.right (.left h))))))

/-- A text is read by the rules of the grammar. -/
theorem Reads.derives {r : Rule} {ms : List Mark} {x : R} (h : Reads I r ms x)
    {tss : List (List Token)} (hts : Spelled ms tss) : Derives r tss.flatten := by
  induction h generalizing tss with
  | select es =>
    cases hts with
    | cons hts h =>
      cases h
      rw [List.flatten_cons, List.flatten_nil, List.append_nil]
      exact .rule (.left hts)
  | parens _ ih =>
    rw [List.cons_append] at hts
    cases hts with
    | cons hopen hts =>
      obtain ⟨us, vs, rfl, hus, hvs⟩ := forall₂_append_left hts
      cases hvs with
      | cons hclose h =>
        cases h
        rw [List.flatten_cons, List.flatten_append]
        exact .rule (.right (.left (.seq hopen (.seq (ih hus) (.seq hclose .empty)))))
  | primary _ ih => exact .rule (.left (ih hts))
  | intersect _ _ ihl ihr =>
    obtain ⟨us, vs, rfl, hus, hvs⟩ := forall₂_append_left hts
    cases hvs with
    | cons hsign hvs =>
      rw [List.flatten_append, List.flatten_cons]
      exact .rule (.right (.left (derives_operation (ihl hus) hsign (ihr hvs))))
  | term _ ih => exact .rule (.left (ih hts))
  | operation hop _ _ ihl ihr =>
    obtain ⟨us, vs, rfl, hus, hvs⟩ := forall₂_append_left hts
    cases hvs with
    | cons hsign hvs =>
      rw [List.flatten_append, List.flatten_cons]
      exact derives_setExpr hop (derives_operation (ihl hus) hsign (ihr hvs))
  | query withs t _ ih =>
    obtain ⟨us, vs, rfl, hus, hvs⟩ := forall₂_append_left hts
    obtain ⟨_, bs, rfl, hfront, hbs⟩ := forall₂_append_left hus
    obtain ⟨ws, rfl, hws⟩ := spelled_toList hfront
    have hwith : ∀ us ∈ ws, Derives Rule.withClause us := by
      intro us hus
      obtain ⟨n, hn, hderives⟩ := hws us hus
      obtain ⟨-, hmark⟩ := Option.ite_none_left_eq_some.mp hn
      obtain rfl := Option.some.inj hmark
      exact hderives
    rw [List.flatten_append, List.flatten_append, List.append_assoc]
    refine .rule (.seq (derives_opt hwith) (.seq (ih hbs) ?_))
    have htail := derives_seqs_append (derives_tail hvs)
      (derives_single (x := .opt Rule.forClause) (.right .empty))
    rwa [List.append_nil] at htail

end Derivations

section Scans

/-- What has been read of a query that is still open: the left side of a union or difference, that of
an intersection, and the last operand. -/
structure Frame (R : Type) where
  withs : Entries
  sum : Option (R × SetOperator)
  product : Option R
  last : Option R
  tail : Tail

namespace Frame

variable (I)

def opened (withs : Entries) : Frame R := ⟨withs, none, none, none, fun _ => none⟩

def operand (f : Frame R) (x : R) : Frame R :=
  { f with last := some ((f.product.map (I.operation .intersect · x)).getD x), product := none }

/-- The result of all operands so far. -/
def total? (f : Frame R) : Option R :=
  f.last.map fun x => (f.sum.map fun (y, op) => I.operation op y x).getD x

def sign (f : Frame R) (op : SetOperator) : Frame R :=
  if op = .intersect then { f with product := f.last, last := none }
  else { f with sum := (f.total? I).map (·, op), last := none }

def value? (f : Frame R) : Option R := (f.total? I).map fun x => I.bound f.withs (I.tailed f.tail x)

end Frame

variable (I)

/-- Reads one mark more, the innermost of the open queries being the first. -/
def scan (fs : List (Frame R)) : Mark → List (Frame R)
  | .opening => .opened [] :: fs
  | .closing =>
    match fs with
    | f :: g :: gs => ((f.value? I).map (g.operand I)).toList ++ gs
    | fs => fs
  | .sign op => fs.modifyHead (·.sign I op)
  | .select es => fs.modifyHead (·.operand I (I.select es))
  | .withs es => fs.modifyHead fun f => { f with withs := es }
  | .tail e v => fs.modifyHead fun f => { f with tail := Function.update f.tail e (some v) }

variable {I}

/-- What the scan of a text does that has the value by the rule. -/
def Scanned (I : Interpretation R) (r : Rule) (ms : List Mark) (x : R) : Prop :=
  ∀ (f : Frame R) (fs : List (Frame R)),
    match r with
    | .setPrimary => ms.foldl (scan I) (f :: fs) = f.operand I x :: fs
    | .setTerm => f.product = none →
      ms.foldl (scan I) (f :: fs) = { f with last := some x } :: fs
    | .setExpr => f.product = none → f.sum = none → ∃ sum y,
      ms.foldl (scan I) (f :: fs) = { f with sum, last := some y } :: fs ∧
        ({ f with sum, last := some y } : Frame R).total? I = some x
    | .query => ∃ g, ms.foldl (scan I) (.opened [] :: fs) = g :: fs ∧ g.value? I = some x
    | _ => True

theorem scan_mark? (t : Tail) {e : Ending} {f : Frame R} (fs : List (Frame R)) (hf : f.tail e = none) :
    (t.mark? e).toList.foldl (scan I) (f :: fs) =
      { f with tail := Function.update f.tail e (t e) } :: fs := by
  unfold Tail.mark?
  cases t e with
  | none => rw [← hf, Function.update_eq_self, hf]; rfl
  | some v => rfl

theorem scan_marks (t : Tail) {f : Frame R} (fs : List (Frame R)) (hf : f.tail = fun _ => none) :
    t.marks.foldl (scan I) (f :: fs) = { f with tail := t } :: fs := by
  have htail : Function.update (Function.update (Function.update f.tail .order (t .order)) .limit
      (t .limit)) .offset (t .offset) = t := by
    funext e
    cases e <;> rfl
  rw [t.marks_eq, List.foldl_append, List.foldl_append, scan_mark? t fs (by rw [hf]),
    scan_mark? t fs (by simp [hf]), scan_mark? t fs (by simp [hf]), htail]

theorem Reads.scanned {r : Rule} {ms : List Mark} {x : R} (h : Reads I r ms x) : Scanned I r ms x := by
  induction h with
  | select es => exact fun f fs => rfl
  | @parens ms x _ ih =>
    intro f fs
    obtain ⟨g, hg, hvalue⟩ := ih f (f :: fs)
    simp only [List.cons_append, List.foldl_cons, List.foldl_append, scan, hg, hvalue]
    rfl
  | primary _ ih =>
    intro f fs hf
    rw [ih f fs]
    simp [Frame.operand, hf]
  | intersect _ _ ihl ihr =>
    intro f fs hf
    rw [List.foldl_append, ihl f fs hf, List.foldl_cons]
    refine (ihr _ fs).trans ?_
    simp [Frame.operand, Frame.sign, hf]
  | term _ ih =>
    intro f fs hf hsum
    exact ⟨f.sum, _, ih f fs hf, by simp [Frame.total?, hsum]⟩
  | @operation op ls rs x y hop _ _ ihl ihr =>
    intro f fs hf hsum
    obtain ⟨sum, z, hl, htotal⟩ := ihl f fs hf hsum
    rw [List.foldl_append, hl, List.foldl_cons]
    have hsign : scan I ({ f with sum, last := some z } :: fs) (.sign op) =
        { f with sum := some (x, op), last := none } :: fs := by
      simp only [scan, List.modifyHead_cons, Frame.sign, if_neg hop, htotal, Option.map_some]
    rw [hsign]
    exact ⟨some (x, op), y, ihr _ fs hf, rfl⟩
  | query withs t _ ih =>
    intro _ fs
    have hwith : (withMark? withs).toList.foldl (scan I) (.opened [] :: fs) =
        .opened withs :: fs := by
      cases withs <;> rfl
    obtain ⟨sum, y, hbody, htotal⟩ := ih (.opened withs) fs rfl rfl
    refine ⟨{ Frame.opened withs with sum, last := some y, tail := t }, ?_, ?_⟩
    · rw [List.foldl_append, List.foldl_append, hwith, hbody, scan_marks t fs rfl]
    · exact congrArg (Option.map _) htotal

end Scans

/-- A text has one value. -/
theorem Reads.unique {ms : List Mark} {x y : R} (h : Reads I .query ms x) (h' : Reads I .query ms y) :
    x = y := by
  obtain ⟨f, hf, hx⟩ := h.scanned (.opened []) []
  obtain ⟨g, hg, hy⟩ := h'.scanned (.opened []) []
  obtain ⟨rfl, -⟩ := List.cons.inj (hf.symm.trans hg)
  exact Option.some.inj (hx.symm.trans hy)

end SqlTree.SetOperations
