import SqlTree.Proofs.Conditions.Columns
import SqlTree.Proofs.RoundTrip.Expression

/-! Conditions, their three truth values, and how they are written. The parser reads a text as the
one condition that is written in it. -/

namespace SqlTree

open Syntax (Expr Tree Connective Path Name Parser Nested)
open Syntax.Parser

section Truth

/-- A truth value. None is the value of a condition that is neither true nor false. -/
abbrev Truth := Option Bool

namespace Syntax.Connective

def apply : Connective → Truth → Truth → Truth
  | and, some false, _ | and, _, some false => some false
  | and, some true, t | and, t, some true => t
  | or, some true, _ | or, _, some true => some true
  | or, some false, t | or, t, some false => t
  | _, none, none => none

/-- What a connective does not change. -/
def unit : Connective → Bool
  | and => true
  | or => false

theorem apply_unit (op : Connective) (t : Truth) : op.apply t (some op.unit) = t := by
  obtain _ | _ | _ := t <;> cases op <;> rfl

theorem unit_apply (op : Connective) (t : Truth) : op.apply (some op.unit) t = t := by
  obtain _ | _ | _ := t <;> cases op <;> rfl

end Syntax.Connective

end Truth

/-- A condition as it is grouped in a text. -/
inductive Condition where
  | column (path : Path)
  | truth (b : Bool)
  | null
  | paren (c : Condition)
  | not (c : Condition)
  | connected (op : Connective) (left right : Condition)
deriving DecidableEq

namespace Condition

/-- The truth value of a condition for the values of the columns. -/
def eval (ρ : List String → Truth) : Condition → Truth
  | column path => ρ (path.map Name.folded)
  | truth b => some b
  | null => none
  | paren c => c.eval ρ
  | not c => (c.eval ρ).map (!·)
  | connected op c d => op.apply (c.eval ρ) (d.eval ρ)

/-- The syntax tree of a condition. -/
def tree : Condition → Expr
  | column path => .column path
  | truth b => .boolean b
  | null => .null
  | paren c => .paren c.tree
  | not c => .not c.tree
  | connected op c d => .connected op c.tree d.tree

theorem tree_injective {c d : Condition} (h : c.tree = d.tree) : c = d := by
  induction c generalizing d with
  | column | truth | null => cases d <;> simp_all [tree]
  | paren c ih | not c ih =>
    cases d <;> simp only [tree, Tree.paren.injEq, Tree.not.injEq, reduceCtorEq] at h
    exact congrArg _ (ih h)
  | connected op c₁ c₂ ih₁ ih₂ =>
    cases d with
    | connected op' d₁ d₂ =>
      simp only [tree, Tree.connected.injEq] at h
      rw [h.1, ih₁ h.2.1, ih₂ h.2.2]
    | _ => cases h

/-- How strongly a condition binds: operands, then `NOT`, then `AND`, then `OR`. -/
inductive Rank where
  | operand
  | factor
  | term
  | whole

/-- The tokens that a condition may be written with. -/
inductive Written : Rank → Condition → List Token → Prop
  | column {p : Path} {ts : List Token} : PathSpelled p ts → Written .operand (.column p) ts
  | truth {b : Bool} {t : Token} : isKeyword (if b then "true" else "false") (some t) = true →
      Written .operand (.truth b) [t]
  | null {t : Token} : isKeyword "null" (some t) = true → Written .operand .null [t]
  | paren {c : Condition} {ts : List Token} : Written .whole c ts →
      Written .operand (.paren c) (.symbol "(" :: (ts ++ [.symbol ")"]))
  | factor {c : Condition} {ts : List Token} : Written .operand c ts → Written .factor c ts
  | not {c : Condition} {t : Token} {ts : List Token} : isKeyword "not" (some t) = true →
      Written .factor c ts → Written .factor (.not c) (t :: ts)
  | term {c : Condition} {ts : List Token} : Written .factor c ts → Written .term c ts
  | and {c d : Condition} {t : Token} {ts us : List Token} : Written .term c ts →
      isKeyword "and" (some t) = true → Written .factor d us →
      Written .term (.connected .and c d) (ts ++ t :: us)
  | whole {c : Condition} {ts : List Token} : Written .term c ts → Written .whole c ts
  | or {c d : Condition} {t : Token} {ts us : List Token} : Written .whole c ts →
      isKeyword "or" (some t) = true → Written .term d us →
      Written .whole (.connected .or c d) (ts ++ t :: us)

section Parsing

/-- Where a parser takes the tokens of a condition. -/
def TakenBy (p : Nested → Parser Expr) (k : Nat) (c : Condition) (ts : List Token) : Prop :=
  ∀ n, ts.length ≤ n → Takes (p (nested n)) ts (Ends k) (· = c.tree)

/-- An operand is taken, and starts with no negation. -/
structure Operand (c : Condition) (ts : List Token) : Prop where
  begins : Begins ts
  taken : TakenBy testLevel 8 c ts

/-- Negations in front of an operand. -/
inductive Negated : Condition → List Token → Prop
  | operand {c : Condition} {ts : List Token} : Operand c ts → Negated c ts
  | not {c : Condition} {t : Token} {ts : List Token} : isKeyword "not" (some t) = true →
      Negated c ts → Negated (.not c) (t :: ts)

/-- Conditions of one kind with a connective between them, grouped to the left. -/
def Chained (op : Connective) (part : Condition → List Token → Prop) (c : Condition)
    (ts : List Token) : Prop :=
  ∃ x us xs uss, part x us ∧
    List.Forall₂ (fun y vs => ∃ t ws, vs = t :: ws ∧ isKeyword op.word (some t) = true ∧
      part y ws) xs uss ∧ c = xs.foldl (.connected op) x ∧ ts = us ++ uss.flatten

variable {c d : Condition} {op : Connective} {part : Condition → List Token → Prop}
  {t : Token} {ts us : List Token}

theorem Chained.single (h : part c ts) : Chained op part c ts :=
  ⟨c, ts, [], [], h, .nil, rfl, by simp⟩

theorem Chained.snoc (h : Chained op part c ts) (ht : isKeyword op.word (some t) = true)
    (hd : part d us) : Chained op part (.connected op c d) (ts ++ t :: us) := by
  obtain ⟨x, vs, xs, uss, hx, hxs, rfl, rfl⟩ := h
  refine ⟨x, vs, xs ++ [d], uss ++ [t :: us], hx, ?_, ?_, ?_⟩
  · exact List.rel_append hxs (.cons ⟨t, us, rfl, ht, hd⟩ .nil)
  · rw [List.foldl_append]
    rfl
  · simp

theorem tree_foldl (xs : List Condition) :
    (xs.foldl (.connected op) c).tree = (xs.map tree).foldl (.connected op) c.tree := by
  induction xs generalizing c with
  | nil => rfl
  | cons x xs ih => exact ih

theorem Chained.taken {p q : Nested → Parser Expr} {j k : Nat} (h : Chained op (TakenBy p j) c ts)
    (hq : ∀ n, q n = p n >>= connectedFrom op.word op (p n))
    (hj : j < (wordLevels.lookup op.word).getD 11) (hk : (wordLevels.lookup op.word).getD 11 ≤ k)
    (hjk : j ≤ k) : TakenBy q k c ts := by
  obtain ⟨x, us, xs, uss, hx, hxs, rfl, rfl⟩ := h
  intro n hn
  rw [hq]
  rw [List.length_append] at hn
  have hrest : List.Forall₂ (fun y vs => ∃ t ws, vs = t :: ws ∧ isKeyword op.word (some t) = true ∧
      Takes (p (nested n)) ws (Ends j) (· = y.tree)) xs uss := by
    refine List.Forall₂.imp (fun y vs ⟨⟨t, ws, hvs, ht, hy⟩, hmem⟩ => ?_) (forall₂_mem hxs)
    subst hvs
    refine ⟨t, ws, rfl, ht, hy n ?_⟩
    have hle := (List.sublist_flatten_of_mem hmem).length_le
    rw [List.length_cons] at hle
    omega
  refine (connectedLevel_takes_words hj hk hjk (hx n (by omega)) hrest).mono (fun _ => id) ?_
  rintro _ ⟨a, as, has, rfl⟩
  obtain _ | ⟨rfl, has⟩ := has
  rw [tree_foldl]
  congr 1
  rw [← List.forall₂_eq_eq_eq]
  exact List.forall₂_map_right_iff.mpr has.flip

theorem exists_negations (h : Negated c ts) : ∃ ns us x, Operand x us ∧
    (∀ t ∈ ns, isKeyword "not" (some t) = true) ∧ c = Nat.repeat .not ns.length x ∧
      ts = ns ++ us := by
  induction h with
  | operand h => exact ⟨[], _, _, h, by simp, rfl, rfl⟩
  | @not c t ts ht _ ih =>
    obtain ⟨ns, us, x, hx, hns, rfl, rfl⟩ := ih
    exact ⟨t :: ns, us, x, hx, List.forall_mem_cons.mpr ⟨ht, hns⟩, rfl, rfl⟩

theorem tree_repeat (n : Nat) : (Nat.repeat Condition.not n c).tree = Nat.repeat Tree.not n c.tree := by
  induction n with
  | zero => rfl
  | succ n ih => exact congrArg Tree.not ih

theorem negations_takes {ns : List Token} (hns : ∀ t ∈ ns, isKeyword "not" (some t) = true) :
    Takes negations ns (isKeyword "not" · = false) (· = ns.length) := by
  have hfrom : ∀ k, Iterates (fun n => do
      if ← takeKeyword "not" then return some (n + 1)
      return none) k ns (isKeyword "not" · = false) (· = k + ns.length) := by
    induction ns with
    | nil => exact fun k => .stop (.noKeyword (fun _ ho => ho) (.pure rfl)) rfl
    | cons t ns ih =>
      intro k
      refine .again (fun _ => True) (· = k + 1) (List.cons_ne_nil t [])
        (.withKeyword (hns t (by simp)) (.pure ⟨k + 1, rfl, rfl⟩)) ?_ fun _ _ => trivial
      rintro _ rfl
      have hlen : k + (t :: ns).length = k + 1 + ns.length := by
        rw [List.length_cons]
        omega
      rw [hlen]
      exact ih (fun t ht => hns t (by simp [ht])) (k + 1)
  have h := (hfrom 0).takes
  rwa [Nat.zero_add] at h

theorem Negated.taken (h : Negated c ts) : TakenBy notLevel 8 c ts := by
  obtain ⟨ns, us, x, hx, hns, rfl, rfl⟩ := exists_negations h
  intro n hn
  obtain ⟨t, us, rfl, ht⟩ := hx.begins
  rw [List.length_append] at hn
  refine (negations_takes hns).bind ?_ fun _ _ => ht
  rintro _ rfl
  refine (hx.taken n (by omega)).map ?_
  rintro _ rfl
  exact (tree_repeat _).symm

/-- How the tokens of a condition of a rank are taken. -/
def Taken : Rank → Condition → List Token → Prop
  | .operand => Operand
  | .factor => Negated
  | .term => Chained .and (TakenBy notLevel 8)
  | .whole => Chained .or (TakenBy andLevel 9)

theorem takenBy_andLevel (h : Taken .term c ts) : TakenBy andLevel 9 c ts :=
  Chained.taken h (fun _ => rfl) (by decide) (by decide) (by decide)

theorem takenBy_expression (h : Taken .whole c ts) : TakenBy expression 10 c ts :=
  Chained.taken h (fun _ => rfl) (by decide) (by decide) (by decide)

theorem operand_of_unary (hbegins : Begins ts)
    (h : ∀ n, ts.length ≤ n → Takes (unary (nested n)) ts (Ends 0) (· = c.tree)) : Operand c ts where
  begins := hbegins
  taken n hn := by
    refine testLevel_takes _ (comparisonLevel_takes _ (predicateLevel_takes _ ?_))
    refine otherLevel_takes _ (sumLevel_takes _ (productLevel_takes _ ?_))
    exact powerLevel_takes _ (zoneLevel_takes _ (h n hn))

theorem begins_of_name {n : Name} (h : nameOf? t = some n) (ts : List Token) : Begins (t :: ts) := by
  refine ⟨t, ts, rfl, ?_⟩
  cases t with
  | keyword w text =>
    have hfree : w ∈ Token.unreserved := by
      by_contra hw
      simp [nameOf?, hw] at h
    have hall : ∀ w ∈ Token.unreserved, decide (w = "not") = false := by decide
    exact hall w hfree
  | _ => rfl

theorem opensGroup_of_name {n : Name} (h : nameOf? t = some n) (p : Nested) (ts : List Token) :
    OpensGroup p (t :: ts) := by
  cases t with
  | keyword w text =>
    have hfree : w ∈ Token.unreserved := by
      by_contra hw
      simp [nameOf?, hw] at h
    have hall : ∀ w ∈ Token.unreserved, ∀ v ∈ ["select", "with"], decide (w = v) = false := by decide
    exact .word (hall w hfree) rfl
  | name _ | quotedName _ => exact .word (fun _ _ => rfl) rfl
  | _ => cases h

theorem opensGroup_of_keyword {w : String} (hw : ∀ v ∈ ["select", "with"], w ≠ v)
    (h : isKeyword w (some t) = true) (p : Nested) (ts : List Token) : OpensGroup p (t :: ts) := by
  cases t with
  | keyword v text =>
    obtain rfl : v = w := by simpa [isKeyword] using h
    exact .word (fun u hu => decide_eq_false (hw u hu)) rfl
  | _ => cases h

theorem taken_constant {w : String} (hw : exprWords.contains w = true) (hnot : w ≠ "not")
    (h : isKeyword w (some t) = true)
    (hword : ∀ p, worded p w = pure c.tree) : Operand c [t] := by
  cases t with
  | keyword v text =>
    obtain rfl : v = w := by simpa [isKeyword] using h
    refine operand_of_unary ⟨_, [], rfl, decide_eq_false hnot⟩ fun n _ => unary_takes _ rfl ?_
    refine .peek_cons ?_
    simp only [hw, if_true]
    rw [hword]
    exact .skip (.pure rfl)
  | _ => cases h

theorem Written.taken {rank : Rank} (h : Written rank c ts) :
    Taken rank c ts ∧ ∀ n, ts.length ≤ n → OpensGroup (nested n) ts := by
  induction h with
  | @column path ts h =>
    have htaken : ∀ n, Takes (unary (nested n)) ts (Ends 0) (· = .column path) :=
      fun n => column_takes_spelled h
    cases h with
    | mk ht _ =>
    exact ⟨operand_of_unary (begins_of_name ht _) fun n _ => htaken n,
      fun n _ => opensGroup_of_name ht _ _⟩
  | @truth b t ht =>
    cases b with
    | false => exact ⟨taken_constant (by decide) (by decide) ht fun _ => rfl,
        fun n _ => opensGroup_of_keyword (by decide) ht _ _⟩
    | true => exact ⟨taken_constant (by decide) (by decide) ht fun _ => rfl,
        fun n _ => opensGroup_of_keyword (by decide) ht _ _⟩
  | null ht => exact ⟨taken_constant (by decide) (by decide) ht fun _ => rfl,
      fun n _ => opensGroup_of_keyword (by decide) ht _ _⟩
  | @paren c ts _ ih =>
    obtain ⟨htaken, hopens⟩ := ih
    have hgroup : ∀ m, ts.length ≤ m → Takes (group (nested m)) ts (· = some (.symbol ")"))
        fun g => ∃ a, g = .expr a ∧ a = c.tree := by
      intro m hm
      refine ((hopens m hm).takes (takenBy_expression htaken m hm)).before ?_
      rintro _ rfl _ ⟨⟩
      decide
    have hlen : ∀ n, (Token.symbol "(" :: (ts ++ [.symbol ")"])).length ≤ n →
        ∃ m, n = m + 1 ∧ ts.length ≤ m := by
      intro n hn
      simp only [List.length_cons, List.length_append, List.length_nil] at hn
      exact ⟨n - 1, by omega, by omega⟩
    refine ⟨operand_of_unary ⟨_, _, rfl, rfl⟩ fun n hn => ?_, fun n hn => ?_⟩
    · obtain ⟨m, rfl, hm⟩ := hlen n hn
      refine (paren_takes (nested (m + 1)) (hgroup m hm)).mono (fun _ => id) ?_
      rintro _ ⟨_, rfl, rfl⟩
      rfl
    · obtain ⟨m, rfl, hm⟩ := hlen n hn
      exact .paren [] ((hgroup m hm).mono (fun _ => id) fun g ⟨a, hg, _⟩ => ⟨a, hg⟩)
  | factor _ ih => exact ⟨.operand ih.1, ih.2⟩
  | not ht _ ih =>
    exact ⟨.not ht ih.1, fun n _ => opensGroup_of_keyword (by decide) ht _ _⟩
  | term _ ih => exact ⟨.single ih.1.taken, ih.2⟩
  | @and c d t ts us _ ht _ ihc ihd =>
    exact ⟨ihc.1.snoc ht ihd.1.taken, fun n hn => (ihc.2 n (by
      rw [List.length_append] at hn
      omega)).append _⟩
  | whole _ ih => exact ⟨.single (takenBy_andLevel ih.1), ih.2⟩
  | @or c d t ts us _ ht _ ihc ihd =>
    exact ⟨ihc.1.snoc ht (takenBy_andLevel ihd.1), fun n hn => (ihc.2 n (by
      rw [List.length_append] at hn
      omega)).append _⟩

/-- A written condition is taken as a whole. -/
theorem Written.takes (h : Written .whole c ts) : TakenBy expression 10 c ts :=
  takenBy_expression h.taken.1

/-- The tokens of a condition are those of no other one. -/
theorem Written.unique (hc : Written .whole c ts) (hd : Written .whole d ts) : c = d := by
  have hmap : (ts.map fun t => (⟨[], t⟩ : Lexeme)).map Lexeme.token = ts := by
    rw [List.map_map]
    exact List.map_id' ts
  have hend : Ends 10 (next []) := by rintro _ ⟨⟩
  obtain ⟨a, ha, rfl⟩ := hc.takes _ (Nat.le_refl _) _ [] hmap hend
  obtain ⟨b, hb, rfl⟩ := hd.takes _ (Nat.le_refl _) _ [] hmap hend
  rw [ha, Except.ok.injEq, Prod.mk.injEq] at hb
  exact tree_injective hb.1

end Parsing

end Condition

end SqlTree
