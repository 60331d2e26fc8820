import Mathlib.Data.List.Chain
import Mathlib.Data.List.Nodup
import SqlTree.Proofs.Grammar

/-!
The terminals that the tokens derived from a right side may start with. They are given by a table
that the rules respect, so what may stand next to what is decided by the table.
-/

namespace SqlTree.Grammar

namespace Terminal

variable {c d : Terminal} {t : Token}

theorem word?_eq (c : Terminal) : c.word? = Token.keywords[c.ctorIdx]? := by
  cases c <;> rfl

theorem keywords_nodup : Token.keywords.Nodup := by
  have hsorted : Token.keywords.IsChain (· < ·) := by decide +kernel
  exact hsorted.pairwise.imp String.ne_of_lt

theorem word?_inj {w : String} (hc : c.word? = some w) (hd : d.word? = some w) : c = d := by
  rw [word?_eq] at hc hd
  obtain ⟨hi, hc⟩ := List.getElem?_eq_some_iff.mp hc
  obtain ⟨hj, hd⟩ := List.getElem?_eq_some_iff.mp hd
  have hidx : c.ctorIdx = d.ctorIdx := (List.Nodup.getElem_inj_iff keywords_nodup).mp (hc.trans hd.symm)
  rw [← ofNat_ctorIdx c, hidx, ofNat_ctorIdx]

theorem signs_inj {s : String} (hc : s ∈ c.signs) (hd : s ∈ d.signs) : c = d := by
  have hfind : ∀ c : Terminal, ∀ s ∈ c.signs, [SEMI, COMMA, DOT, LPAR, RPAR, LSQB, RSQB, TYPECAST,
      EQ, NEQ, LTE, GTE, LT, GT, PLUS, MINUS, STAR, SLASH, PERCENT, CARET].find?
        (s ∈ ·.signs) = some c := by
    intro c
    cases c <;> decide
  exact Option.some.inj ((hfind c s hc).symm.trans (hfind d s hd))

/-- A token is of one terminal at most. -/
theorem Matches.unique (hc : c.Matches t) (hd : d.Matches t) : c = d := by
  cases t with
  | keyword w text => exact word?_inj hc hd
  | symbol s => exact signs_inj hc hd
  | _ => exact Eq.trans hc (Eq.symm hd)

end Terminal

section Table

open Terminal

def identStarts : List Terminal :=
  [NAME, QUOTED_NAME, KEY, TIME, ZONE, FIRST, LAST, NULLS, ROWS, NEXT, ONLY, CONFLICT, NOTHING, DO]

def literalStarts : List Terminal := [NUMBER, STRING, TRUE, FALSE, NULL, NAME, TIME]

def primaryStarts : List Terminal :=
  [LPAR, PARAM, NUMBER, STRING, TRUE, FALSE, NULL, CASE, ROW, EXISTS, ARRAY, CAST, EXTRACT, ALL,
    ANY, DEFAULT, LEFT, RIGHT] ++ identStarts

def unaryStarts : List Terminal := MINUS :: PLUS :: primaryStarts

def exprStarts : List Terminal := NOT :: unaryStarts

def queryStarts : List Terminal := [SELECT, LPAR, WITH]

/-- What a rule may start with. -/
def starts : Rule → List Terminal
  | .start => [SEMI, SELECT, LPAR, WITH, INSERT, UPDATE, DELETE, CREATE, DROP, TRUNCATE, ALTER]
  | .stmt => [SELECT, LPAR, WITH, INSERT, UPDATE, DELETE, CREATE, DROP, TRUNCATE, ALTER]
  | .query => queryStarts
  | .limitOffset => [LIMIT, OFFSET, FETCH]
  | .setExpr | .setTerm | .setPrimary => [SELECT, LPAR]
  | .selectCore => [SELECT]
  | .distinctSpec => [DISTINCT, ALL]
  | .selectList | .selectItem => STAR :: exprStarts
  | .withClause => [WITH]
  | .cteBody => [SELECT, LPAR, WITH, INSERT, UPDATE, DELETE]
  | .fromClause => [FROM]
  | .fromItem | .tableRef => LPAR :: LATERAL :: LEFT :: RIGHT :: identStarts
  | .subqueryRef => [LPAR]
  | .lateralRef => [LATERAL]
  | .functionRef | .funcCall | .funcName => LEFT :: RIGHT :: identStarts
  | .aliasClause => AS :: identStarts
  | .joinPart => [INNER, JOIN, LEFT, RIGHT, FULL, CROSS]
  | .joinCondition => [ON, USING]
  | .whereClause => [WHERE]
  | .groupClause => [GROUP]
  | .havingClause => [HAVING]
  | .orderClause | .aggOrder => [ORDER]
  | .orderDirection => [ASC, DESC]
  | .nullsOrder => [NULLS]
  | .limitPart => [LIMIT]
  | .offsetPart => [OFFSET]
  | .fetchPart => [FETCH]
  | .forClause => [FOR]
  | .lockStrength => [UPDATE, NO, SHARE, KEY]
  | .lockWait => [NOWAIT, SKIP]
  | .insertStmt => [WITH, INSERT]
  | .insertAlias => [AS]
  | .cteColumns | .insertColumns | .valuesRow | .typeModifier | .inSource => [LPAR]
  | .insertSource => [VALUES, SELECT, LPAR, WITH, DEFAULT]
  | .onConflict => [ON]
  | .conflictTarget => [LPAR, ON]
  | .conflictAction => [DO]
  | .returningClause => [RETURNING]
  | .updateStmt => [WITH, UPDATE]
  | .deleteStmt => [WITH, DELETE]
  | .usingClause => [USING]
  | .createTableStmt => [CREATE]
  | .ifNotExists | .ifExists => [IF]
  | .columnConstraint => [PRIMARY, NOT, NULL, UNIQUE]
  | .dropTableStmt => [DROP]
  | .truncateStmt => [TRUNCATE]
  | .alterTableStmt => [ALTER]
  | .alterAction => [ADD, DROP]
  | .expr | .orExpr | .andExpr | .notExpr | .orderItem | .exprList => exprStarts
  | .isExpr | .cmpExpr | .predExpr | .otherExpr | .addExpr | .mulExpr | .expExpr | .atExpr
  | .unaryExpr => unaryStarts
  | .compOp => [EQ, NEQ, LTE, GTE, LT, GT]
  | .postfixExpr | .primary => primaryStarts
  | .literal => literalStarts
  | .cte | .relationRef | .setList | .setItem | .columnDef | .columnRef | .identList
  | .qualifiedName | .ident => identStarts
  | .funcArgs => STAR :: DISTINCT :: exprStarts
  | .filterClause => [FILTER]
  | .overClause => [OVER]
  | .windowSpec => [PARTITION, ORDER, ROWS, RANGE]
  | .partitionClause => [PARTITION]
  | .frameClause => [ROWS, RANGE]
  | .frameBound => UNBOUNDED :: CURRENT :: exprStarts
  | .frameExtent => BETWEEN :: UNBOUNDED :: CURRENT :: exprStarts
  | .caseExpr => [CASE]
  | .whenClause => [WHEN]
  | .elseClause => [ELSE]
  | .typeName | .typeBase => [NAME, TIME]
  | .arrayBounds => [LSQB]
  | .unreservedKeyword =>
    [KEY, TIME, ZONE, FIRST, LAST, NULLS, ROWS, NEXT, ONLY, CONFLICT, NOTHING, DO]

end Table

namespace Rhs

/-- Derives no tokens, perhaps. Of the rules only that of a window's specification does. -/
def nullable : Rhs → Bool
  | empty | star _ => true
  | void | token _ => false
  | rule r => r = .windowSpec
  | seq x y => x.nullable && y.nullable
  | alt x y => x.nullable || y.nullable

def first : Rhs → List Terminal
  | void | empty => []
  | token c => [c]
  | rule r => starts r
  | seq x y => x.first ++ if x.nullable then y.first else []
  | alt x y => x.first ++ y.first
  | star x => x.first

end Rhs

theorem first_rhs (r : Rule) : (rhs r).first ⊆ starts r := by
  cases r <;> decide +kernel

theorem nullable_rhs (r : Rule) (h : (rhs r).nullable = true) : r = .windowSpec := by
  cases r <;> first | rfl | cases h

variable {x : Rhs} {ts : List Token}

theorem Derives.nullable (h : Derives x ts) (hts : ts = []) : x.nullable = true := by
  induction h with
  | empty | stop | more => rfl
  | token => cases hts
  | @rule r _ _ ih => simpa [Rhs.nullable] using nullable_rhs r (ih hts)
  | seq _ _ ihx ihy =>
    obtain ⟨hx, hy⟩ := List.append_eq_nil_iff.mp hts
    simp [Rhs.nullable, ihx hx, ihy hy]
  | left _ ih => simp [Rhs.nullable, ih hts]
  | right _ ih => simp [Rhs.nullable, ih hts]

/-- Derived tokens start as the table says. -/
theorem Derives.first (h : Derives x ts) : ∀ t ∈ ts.head?, ∃ c ∈ x.first, c.Matches t := by
  induction h with
  | empty | stop => nofun
  | token hc =>
    rintro _ ⟨⟩
    exact ⟨_, List.mem_singleton_self _, hc⟩
  | @rule r _ _ ih =>
    intro t ht
    obtain ⟨c, hc, hmatch⟩ := ih t ht
    exact ⟨c, first_rhs r hc, hmatch⟩
  | @seq x y ts us hx _ ihx ihy =>
    intro t ht
    cases ts with
    | nil =>
      obtain ⟨c, hc, hmatch⟩ := ihy t ht
      exact ⟨c, by simp [Rhs.first, hx.nullable rfl, hc], hmatch⟩
    | cons u ts =>
      obtain ⟨c, hc, hmatch⟩ := ihx t ht
      exact ⟨c, List.mem_append_left _ hc, hmatch⟩
  | left _ ih =>
    intro t ht
    obtain ⟨c, hc, hmatch⟩ := ih t ht
    exact ⟨c, List.mem_append_left _ hc, hmatch⟩
  | right _ ih =>
    intro t ht
    obtain ⟨c, hc, hmatch⟩ := ih t ht
    exact ⟨c, List.mem_append_right _ hc, hmatch⟩
  | @more x ts us _ _ ihx ihxs =>
    intro t ht
    cases ts with
    | nil => exact ihxs t ht
    | cons u ts => exact ihx t ht

theorem Derives.mem_first {t : Token} {c : Terminal} (h : Derives x (t :: ts)) (hc : c.Matches t) :
    c ∈ x.first := by
  obtain ⟨d, hd, hmatch⟩ := h.first t rfl
  exact hmatch.unique hc ▸ hd

end SqlTree.Grammar
