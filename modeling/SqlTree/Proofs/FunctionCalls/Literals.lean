import SqlTree.Proofs.FunctionCalls.Arguments
import SqlTree.Proofs.FunctionCalls.Names
import SqlTree.Proofs.Numbers.Text
import SqlTree.Proofs.StringLiterals

/-!
Literals as arguments of functions: numbers with a point or an exponent, texts with a type, and
intervals. With columns and with queries in parentheses they are the arguments that come back.
-/

namespace SqlTree

open Syntax (Reads Expr untyped headed TypeName Nested)
open Lexer (Spells nameToken)
open Number (Binary64)
open Syntax.Parser

/-- A literal with a text that is read as a literal of the same value. -/
theorem argued_literal {e e' : Expr} {v : Value} {t : Token} {ts : List Token} (he : Syntax.Means e v)
    (hcolumn : ∀ p, e ≠ .column p) (hw : Render.Writes false v (t :: ts))
    (hunary : ∀ n, Takes (unary (nested n)) (t :: ts) ArgumentEnd (· = e')) (he' : Syntax.Means e' v)
    (hv : v.same v = true) (hnot : isKeyword "not" (some t) = false) (hstart : StartsArgument t)
    (hform : ∀ es, v = .map es → Form.ofEntries Registry.standard.clauseOrder es ≠ .clause) :
    Argued e v (t :: ts) where
  means := he
  writes := hw
  takes n _ := by
    refine (expression_of_unary ⟨t, ts, rfl, hnot⟩ (fun _ ho => ho.ends) (hunary n)).mono
      (fun _ => id) ?_
    rintro _ rfl
    exact ⟨.of_reads he' hv, fun p hp => absurd hp (hcolumn p)⟩
  starts := ⟨t, ts, rfl, hstart⟩
  bare _ := hform

section Reals

variable {m : Nat} {q : Int} {e : Expr}

theorem same_real (negative : Bool) (m : Nat) (q : Int) :
    (Value.real (.finite negative m q)).same (.real (.finite negative m q)) = true := by
  simp [Value.same, Value.sameScalar, Value.number?, ScaledNumber.same]

theorem real_means (h : Binary64.Rounded m q) : Syntax.Means
    (.number (Binary64.text (.finite false m q))) (untyped (.real (.finite false m q))) := by
  have hread := Number.number_text h
  rw [Syntax.Means, Syntax.Tree.read, hread]
  exact Reads.visit (Reads.pure (untyped (.real (.finite false m q))))

theorem negative_real_means (h : Binary64.Rounded m q) : Syntax.Means
    (.negate (.number (Binary64.text (.finite false m q)))) (untyped (.real (.finite true m q))) := by
  rw [Syntax.Means, Syntax.Tree.read]
  exact .visit (real_means h).map

/-- A number with a point or an exponent. -/
theorem exists_argued_real (h : Binary64.Rounded m q) {negative : Bool}
    (he : Syntax.Means e (untyped (.real (.finite negative m q)))) (hcolumn : ∀ p, e ≠ .column p) :
    ∃ ts, Argued e (untyped (.real (.finite negative m q))) ts := by
  have hform : ∀ es, untyped (.real (.finite negative m q)) = .map es →
      Form.ofEntries Registry.standard.clauseOrder es ≠ .clause := by
    rintro _ ⟨⟩ hclause
    cases hclause
  have hsame := same_untyped (same_real negative m q)
  cases negative with
  | false =>
    have hwrites := Render.writes_untyped (v := .real (.finite false m q)) rfl
      (Number.spells_text h) false
    exact ⟨_, argued_literal he hcolumn hwrites
      (fun n => (number_takes (nested n) _).before fun _ ho => ho.ends.mono (Nat.zero_le _))
      (real_means h) hsame rfl ⟨rfl, rfl, rfl, rfl⟩ hform⟩
  | true =>
    have hwrites := Render.writes_untyped (v := .real (.finite true m q)) rfl
      (Number.spells_negative h) false
    exact ⟨_, argued_literal he hcolumn hwrites
      (fun n => (negative_takes (nested n) _).before fun _ ho => ho.ends.mono (Nat.zero_le _))
      (negative_real_means h) hsame rfl ⟨rfl, rfl, rfl, rfl⟩ hform⟩

end Reals

section Types

variable {type text : String} {e : Expr}

/-- The name of a type that a literal has: a word that is neither reserved nor the key of a clause. -/
structure IsTypeWord (type : String) : Prop where
  part : IsFunctionPart type
  free : type ∈ Token.keywords → type = "time"
  unreserved : ¬ "__".toList <+: type.toList
  noClause : type ∉ Clause.order

/-- A text with its type behind it. -/
def castTokens (text type : String) : List Token :=
  [.string (Text.enclosed "'" text "'"), .symbol "::", nameToken (Text.upper type)]

theorem spells_cast (h : IsFunctionPart type) (text : String) :
    Spells (Text.enclosed "'" text "'" ++ "::" ++ Text.upper type) (castTokens text type) where
  starts := by
    rw [String.append_assoc]
    exact (Lexer.spells_string text).starts_append _
  lexed rest ts hb hl := by
    have hbound : ∀ c ∈ rest.head?, Lexer.isNameChar c = false ∧ c ≠ '"' := by
      intro c hc
      rcases hb c hc with rfl | rfl | rfl <;> decide
    have htype := h.nameSpells.lexed rest ts hbound hl
    have hmark : Lexer.Lexed ("::".toList ++ ((Text.upper type).toList ++ rest))
        (.symbol "::" :: nameToken (Text.upper type) :: ts) := htype.token (by simp) rfl
    have hquoted : Lexer.Lexed ((Text.enclosed "'" text "'").toList ++ _) (.string _ :: _) :=
      hmark.token (by simp [Text.enclosed]) (Lexer.firstMatch_string text (by simp))
    simpa [castTokens, String.ofList_toList] using hquoted

theorem typeName_word (h : IsFunctionPart type) : Identifier.typeName type = .ok (Text.upper type) := by
  have hchars : ∀ c ∈ type.toList, (c ≠ '-' ∧ c ≠ '%') ∧ c ≠ ';' ∧ c ≠ '\x00' := by
    intro c hc
    have hchar := h.isFunctionChar_of_mem hc
    exact ⟨(isHeadChar_classes (isHeadChar_of_isFunctionChar hchar)).1.2.2,
      (isFunctionChar_classes hchar).2.2.1.2⟩
  have hhyphen : '-' ∉ type.toList := fun hc => (hchars _ hc).1.1 rfl
  have hcomment : ∀ cs : List Char, '-' ∉ cs → Identifier.hasComment cs = false := by
    intro cs hcs
    induction cs with
    | nil => rfl
    | cons c cs ih =>
      rw [List.mem_cons, not_or] at hcs
      simp [Identifier.hasComment, Ne.symm hcs.1, ih hcs.2]
  have hspaced : Keyword.spaceHyphens none type.toList = type.toList := by
    have hsplit := Keyword.spaceHyphens_append hhyphen none []
    rwa [List.append_nil, Keyword.spaceHyphens, List.append_nil] at hsplit
  have hrender : Keyword.render type = Text.upper type := by
    obtain ⟨c, cs, htype, hstart, -⟩ := h.form
    have hquote : c ≠ '\'' := by
      rintro rfl
      cases hstart
    have hpercent : Keyword.dropPercent type.toList = type.toList := by
      unfold Keyword.dropPercent
      split
      · next hlist => exact absurd rfl (hchars '%' (by simp [hlist])).1.2
      · rfl
    rw [Keyword.render]
    split
    · next hlist =>
      rw [htype] at hlist
      exact absurd (List.cons.inj hlist).1 hquote
    · rw [hpercent, hspaced]
      rfl
  have hsemicolon : ';' ∉ type.toList := fun hc => (hchars _ hc).2.1 rfl
  have hnull : '\x00' ∉ type.toList := fun hc => (hchars _ hc).2.2 rfl
  simp [Identifier.typeName, hsemicolon, hcomment _ hhyphen, Identifier.checkNullBytes, hnull, hrender,
    bind, Except.bind, pure, Except.pure]

theorem form_of_typeWord (h : IsTypeWord type) (v : Value) :
    Form.of Registry.standard.clauseOrder (.typed v type) = .typed :=
  (form_typed type v).trans (keyForm_of_not_reserved
    (Bool.eq_false_iff.mpr fun hu => h.unreserved (List.isPrefixOf_iff_prefix.mp hu))
    (Bool.eq_false_iff.mpr fun hc => h.noClause (List.contains_iff_mem.mp hc)))

theorem writes_typed (h : IsTypeWord type) (text : String) :
    Render.Writes false (.typed (.text text) type) (castTokens text type) := by
  have hjson : Render.jsonValue type (.text text) = .ok (.text text) := by
    unfold Render.jsonValue
    split <;> rfl
  have hkey : type ≠ Form.valueKey := by
    rintro rfl
    obtain ⟨c, cs, hlist, hstart, -⟩ := h.part.form
    cases hlist
    cases hstart
  have hform : ∀ m d st, Form.ofEntries (Settings.inlining m d st).registry.clauseKeys
      [(.text type, .text text)] = .typed := fun _ _ _ => form_of_typeWord h (.text text)
  have hmap : Value.typed (.text text) type = .map [(.text type, .text text)] := rfl
  refine ⟨[.literal (Text.enclosed "'" text "'")] ++ [.text "::", .text (Text.upper type)],
    .deeper ⟨0, fun n _ m d st _ c => ?_⟩, ?_⟩
  · simp only [hmap, Render.expression, Render.mapOf, hform, Render.typed, if_neg hkey, hjson,
      typeName_word h.part]
    rfl
  · rw [Fragment.inlineSql_append, Fragment.inlineSql_literal, Fragment.inlineSql_text,
      Fragment.inlineSql_text, Fragment.inlineSql_nil, String.append_empty, ← String.append_assoc]
    exact spells_cast h.part text

/-- The type of a literal as the parser has it. -/
def typeNamed (type : String) : TypeName := ⟨.plain [Text.upper type], [], 0⟩

theorem typeBase_takes (h : IsTypeWord type) :
    Takes typeBase [nameToken (Text.upper type)] ArgumentEnd (· = .plain [Text.upper type]) := by
  have hend : ∀ o, ArgumentEnd o → (∀ w, isKeyword w o = false) ∧ isSymbol "." o = false := by
    rintro _ (rfl | rfl) <;> exact ⟨fun _ => rfl, rfl⟩
  have hrest : Takes (do
      if ← takeKeyword "with" then
        timeZone
        return .withTimeZone (Text.upper type)
      if ← takeKeyword "without" then
        timeZone
        return .withoutTimeZone (Text.upper type)
      return Syntax.TypeBase.plain [Text.upper type]) [] ArgumentEnd
      (· = .plain [Text.upper type]) :=
    .noKeyword (fun o ho => (hend o ho).1 _) (.noKeyword (fun o ho => (hend o ho).1 _) (.pure rfl))
  rw [h.part.nameToken_upper]
  split
  · next hkeyword =>
    obtain rfl := h.free (List.contains_iff_mem.mp hkeyword)
    exact .peek_cons (.skip (.noSymbol (fun o ho => (hend o ho).2) hrest))
  · refine .peek_cons (.skip (.noSymbol (fun o ho => (hend o ho).2) ?_))
    exact .noKeyword (fun o ho => (hend o ho).1 _) (.noKeyword (fun o ho => (hend o ho).1 _) hrest)

theorem typeName_takes (h : IsTypeWord type) :
    Takes (typeName true) [nameToken (Text.upper type)] ArgumentEnd (· = typeNamed type) := by
  refine (typeBase_takes h).andThen ?_ fun _ ho => ho
  rintro _ rfl
  have hopen : Takes typeModifiers [] ArgumentEnd (· = []) :=
    .noSymbol (by rintro _ (rfl | rfl) <;> rfl) (.pure rfl)
  refine hopen.andThen ?_ fun _ ho => ho
  rintro _ rfl
  have hbrackets : Takes (brackets true) [] ArgumentEnd (· = 0) :=
    Iterates.takes (.stop (.notAtSymbol (by rintro _ (rfl | rfl) <;> rfl) (.pure rfl)) rfl)
  exact hbrackets.map fun n hn => hn ▸ rfl

theorem cast_takes (p : Nested) (h : IsTypeWord type) (text : String) :
    Takes (unary p) (castTokens text type) ArgumentEnd
      (· = .typecast (.string (Text.enclosed "'" text "'")) (typeNamed type)) := by
  have hs : Takes signs [] (· = some (.string (Text.enclosed "'" text "'"))) (· = []) :=
    Iterates.takes (.stop (.peek (by rintro _ rfl; exact .pure rfl)) rfl)
  refine hs.nothing_bind ?_ fun _ _ => rfl
  rintro _ rfl
  have hprimary : Takes (primary p) [.string (Text.enclosed "'" text "'")] (fun _ => True)
      (· = .string (Text.enclosed "'" text "'")) := .peek_cons (.skip (.pure rfl))
  refine Takes.bind hprimary ?_ fun _ _ => trivial
  rintro _ rfl
  have hpostfix : Takes (postfixFrom p (.string (Text.enclosed "'" text "'")))
      ([.symbol "::", nameToken (Text.upper type)] ++ []) ArgumentEnd
      (· = .typecast (.string (Text.enclosed "'" text "'")) (typeNamed type)) := by
    refine Iterates.takes (.again ArgumentEnd
      (· = .typecast (.string (Text.enclosed "'" text "'")) (typeNamed type)) (by simp) ?_ ?_ ?_)
    · refine .withSymbol rfl ((typeName_takes h).map ?_)
      rintro _ rfl
      exact ⟨_, rfl, rfl⟩
    · rintro _ rfl
      refine .stop (.noSymbol ?_ (.noSymbol ?_ (.pure rfl))) rfl <;>
        (rintro _ (rfl | rfl) <;> rfl)
    · exact fun _ ho => ho
  exact hpostfix.map fun _ => id

theorem cast_means (h : IsTypeWord type) (text : String) :
    Syntax.Means (.typecast (.string (Text.enclosed "'" text "'")) (typeNamed type))
      (.typed (.text text) type) := by
  have htype : Reads (typeNamed type).read type := by
    have htext : (typeNamed type).text = type := by
      simp [typeNamed, TypeName.text, Syntax.TypeBase.text, h.part.lower_upper]
    rw [TypeName.read, htext]
    exact (Reads.pure _).visit.visit
  have hcast : Syntax.Literal.cast (untyped (.text text)) type = .typed (.text text) type := by
    rw [cast_untyped, if_neg]
    exact fun hc => h.noClause (List.contains_iff_mem.mp hc)
  rw [Syntax.Means, Syntax.Tree.read, ← hcast]
  exact Reads.visit ((Syntax.Reading.string_means text).means.bind htype.map)

theorem argued_typed (h : IsTypeWord type) {e : Expr} (he : Syntax.Means e (.typed (.text text) type))
    (hcolumn : ∀ p, e ≠ .column p) : Argued e (.typed (.text text) type) (castTokens text type) := by
  refine argued_literal he hcolumn (writes_typed h text) (fun n => cast_takes (nested n) h text)
    (cast_means h text) ?_ rfl ⟨rfl, rfl, rfl, rfl⟩ ?_
  · exact same_typed (Value.same_text_self text) type
  · rintro es ⟨⟩ hclause
    exact absurd ((form_of_typeWord h (.text text)).symm.trans hclause) (by decide)

end Types

section Intervals

theorem writes_interval (text : String) : Render.Writes false (headed "interval" [.text text])
    [nameToken "INTERVAL", .string (Text.enclosed "'" text "'")] := by
  refine ⟨.text "INTERVAL " :: ([.literal (Text.enclosed "'" text "'")] ++ []), .deeper ?_, ?_⟩
  · exact ⟨0, fun n _ m d st _ c => rfl⟩
  · have hword : Spells "INTERVAL" [nameToken "INTERVAL"] := Lexer.spells_word rfl
    rw [List.append_nil, Fragment.inlineSql_text, Fragment.inlineSql_literal]
    exact hword.space (Lexer.spells_string text)

theorem interval_means (text : String) :
    Syntax.Means (.typed "interval" (Text.enclosed "'" text "'")) (headed "interval" [.text text]) := by
  have hread : Syntax.Literal.typed "interval" (Text.enclosed "'" text "'") =
      headed "interval" [.text text] := by
    have hcontent : Syntax.Literal.unquoted (Text.enclosed "'" text "'") = text :=
      Text.unquoted_enclosed '\'' text
    simp [Syntax.Literal.typed, hcontent]
  rw [Syntax.Means, Syntax.Tree.read, hread]
  exact (Reads.pure _).visit

theorem typedLiteral_takes_interval (text : String) (follow : Option Token → Prop) :
    Takes (typedLiteral "INTERVAL" (Text.enclosed "'" text "'"))
      [nameToken "INTERVAL", .string (Text.enclosed "'" text "'")] follow
      (· = .typed "interval" (Text.enclosed "'" text "'")) := by
  have hskips : Takes (do
      skip
      skip) [nameToken "INTERVAL", .string (Text.enclosed "'" text "'")] follow fun _ => True := by
    intro ls rest hls _
    obtain ⟨_, ls, rfl, -, hls⟩ := List.map_eq_cons_iff.mp hls
    obtain ⟨_, ls, rfl, -, hls⟩ := List.map_eq_cons_iff.mp hls
    obtain rfl := List.map_eq_nil_iff.mp hls
    exact ⟨(), rfl, trivial⟩
  have hlower : Text.lower "INTERVAL" = "interval" := by decide
  refine hskips.spanned.map fun _ _ => ?_
  rw [hlower]
  rfl

theorem interval_takes (p : Nested) (text : String) {follow : Option Token → Prop} :
    Takes (primary p) [nameToken "INTERVAL", .string (Text.enclosed "'" text "'")] follow
      (· = .typed "interval" (Text.enclosed "'" text "'")) := by
  have hliteral : Takes typedLiteral? [nameToken "INTERVAL", .string (Text.enclosed "'" text "'")]
      follow (· = some (.typed "interval" (Text.enclosed "'" text "'"))) := by
    refine .peek_cons (.peekSecond fun o _ => ?_)
    refine (typedLiteral_takes_interval text (· = o)).map ?_
    rintro _ rfl
    rfl
  refine .peek_cons (hliteral.andThen ?_ fun _ ho => ho)
  rintro _ rfl
  exact .pure rfl

theorem argued_interval {text : String} {e : Expr} (he : Syntax.Means e (headed "interval" [.text text]))
    (hcolumn : ∀ p, e ≠ .column p) : Argued e (headed "interval" [.text text])
      [nameToken "INTERVAL", .string (Text.enclosed "'" text "'")] := by
  refine argued_literal he hcolumn (writes_interval text) (fun n => ?_) (interval_means text)
    (same_headed (.cons (Value.same_text_self _) .nil)) rfl ⟨rfl, rfl, rfl, rfl⟩ nofun
  exact unary_of_primary rfl (fun _ ho => ho.ends.mono (Nat.zero_le _)) (interval_takes _ text)

end Intervals

section Arguments

variable {e : Expr}

/-- Columns, literals, and selections in parentheses. -/
inductive IsArgument : Expr → Prop
  | column {p : Syntax.Path} : p.IsStable → IsArgument (.column p)
  | expression {e : Expr} {v : Value} : Syntax.Means e v → Expressible v → (∀ p, e ≠ .column p) →
      IsArgument e
  | null : IsArgument .null
  | real {e : Expr} {negative : Bool} {m : Nat} {q : Int} : Binary64.Rounded m q →
      Syntax.Means e (untyped (.real (.finite negative m q))) → (∀ p, e ≠ .column p) → IsArgument e
  | typed {e : Expr} {type text : String} : IsTypeWord type → Syntax.Means e (.typed (.text text) type) →
      (∀ p, e ≠ .column p) → IsArgument e
  | interval {e : Expr} {text : String} : Syntax.Means e (headed "interval" [.text text]) →
      (∀ p, e ≠ .column p) → IsArgument e
  | subquery {q : Syntax.Query} {d : Bool} {cs : List (QueryClause × Value)} :
      Reads q.read (blockEntries cs) → QueryShape (cs.map Prod.fst) →
      (∀ c ∈ cs, Canonical (.clause c.1) c.2) → .select d ∈ cs.map Prod.fst →
      IsArgument (.subquery q)

theorem IsArgument.exists_argued (h : IsArgument e) : ∃ v ts, Argued e v ts := by
  cases h with
  | column hp => exact ⟨_, hp.exists_argued⟩
  | expression hmeans hv hcolumn => exact ⟨_, hv.exists_argued hmeans hcolumn⟩
  | null => exact ⟨_, _, argued_null⟩
  | real hrounded hmeans hcolumn => exact ⟨_, exists_argued_real hrounded hmeans hcolumn⟩
  | typed htype hmeans hcolumn => exact ⟨_, _, argued_typed htype hmeans hcolumn⟩
  | interval hmeans hcolumn => exact ⟨_, _, argued_interval hmeans hcolumn⟩
  | subquery hq hshape hcs hselect =>
    obtain ⟨T, hT⟩ := exists_stands fun c hc => (hcs c hc).hasTokens
    have hlaid := hshape.laid hT
    exact ⟨_, _, (hlaid.queried hshape.nodup).argued hq
      (selection_start hlaid ((blockValue_isSome _).mpr hselect))⟩

end Arguments

end SqlTree
