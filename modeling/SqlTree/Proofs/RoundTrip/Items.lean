import SqlTree.Proofs.RoundTrip.Agreement
import SqlTree.Proofs.RoundTrip.Closing

/-! The items of a selection and of an ordering. -/

namespace SqlTree

open Syntax (Means Reads)
open Lexer (Spells nameToken)
open Render (Gives Writes)

section Operators

/-- All names that are looked up as operators. -/
def operatorNames : List String :=
  Registry.standard.binary ++ Registry.standard.forms.map (·.1) ++ Operator.membership ++
    Operator.aliases.map (·.1)

theorem operatorNames_dot : ∀ op ∈ operatorNames, '.' ∈ op.toList → op = "." := by
  decide

theorem lookup_eq_none {α : Type} {t : String} {es : List (String × α)} (h : t ∉ es.map (·.1)) :
    es.lookup t = none := by
  rw [List.lookup_eq_none_iff]
  intro e he
  rw [bne_iff_ne]
  rintro rfl
  exact h (List.mem_map_of_mem he)

theorem isOperator_eq_false {t : String} (hlower : Text.lower t = t) (h : t ∉ operatorNames) :
    Registry.standard.isOperator t = false := by
  simp only [operatorNames, List.mem_append, not_or] at h
  obtain ⟨⟨⟨hbinary, hforms⟩, hmember⟩, haliases⟩ := h
  have hnorm : Registry.normalize t = t := by
    rw [Registry.normalize, hlower, lookup_eq_none haliases]
    rfl
  simp [Registry.isOperator, hnorm, Registry.isBinary, Registry.form?, hbinary,
    lookup_eq_none hforms, hmember]

theorem mem_toList_dotted {p : String} {ps : List String} (h : ∀ q ∈ p :: ps, PlainPart q)
    {c : Char} (hc : c ∈ (dotted (p :: ps)).toList) : isPlainChar c = true ∨ c = '.' := by
  induction ps generalizing p with
  | nil =>
    rw [dotted, String.intercalate_singleton] at hc
    exact .inl ((h p (by simp)).isPlainChar_of_mem hc)
  | cons q ps ih =>
    rw [toList_dotted_cons_cons] at hc
    rcases List.mem_append.mp hc with hc | hc
    · exact .inl ((h p (by simp)).isPlainChar_of_mem hc)
    · rcases List.mem_cons.mp hc with rfl | hc
      · exact .inr rfl
      · exact ih (fun x hx => h x (List.mem_cons_of_mem p hx)) hc

theorem lower_dotted {p : String} {ps : List String} (h : ∀ q ∈ p :: ps, PlainPart q) :
    Text.lower (dotted (p :: ps)) = dotted (p :: ps) := by
  refine Text.lower_eq_self fun c hc => ?_
  rcases mem_toList_dotted h hc with hc | rfl
  · exact (isPlainChar_classes hc).2.2.2
  · decide

/-- A name with points in it is no operator, whatever its parts are. -/
theorem DottedName.not_operator {t : String} (h : DottedName t) :
    Registry.standard.isOperator t = false := by
  obtain ⟨p, ps, hps, rfl⟩ := h
  cases ps with
  | nil =>
    rw [dotted, String.intercalate_singleton]
    exact (hps p (by simp)).not_operator
  | cons q ps =>
    have hplain : ∀ x ∈ p :: q :: ps, PlainPart x := fun x hx => (hps x hx).toPlainPart
    refine isOperator_eq_false (lower_dotted hplain) fun hmem => ?_
    have hdot := operatorNames_dot _ hmem (by rw [toList_dotted_cons_cons]; simp)
    obtain ⟨c, cs, hc, hlow⟩ := exists_toList_dotted (q :: ps) (hplain p (by simp))
    rw [hdot] at hc
    exact (isLowerStart_classes hlow).2.2.2.2.2 (List.cons.inj hc).1.symm

end Operators

section Aliases

theorem PlainName.dotted {a : String} (h : PlainName a) : DottedName a :=
  ⟨a, [], by simpa using h, (String.intercalate_singleton).symm⟩

namespace DottedName

variable {t : String}

theorem exists_toList (h : DottedName t) :
    ∃ c cs, t.toList = c :: cs ∧ Identifier.isLowerStart c = true := by
  obtain ⟨p, ps, hps, rfl⟩ := h
  exact exists_toList_dotted ps (hps p (by simp)).toPlainPart

theorem isIdentText (h : DottedName t) : Identifier.isIdentText t = true := by
  obtain ⟨p, ps, hps, rfl⟩ := h
  exact isIdentText_dotted (hps p (by simp)).toPlainPart
    fun q hq => (hps q (by simp [hq])).toPlainPart

theorem not_percent (h : DottedName t) : Render.startsWithPercent t = false := by
  obtain ⟨c, cs, hc, hlow⟩ := h.exists_toList
  simp [Render.startsWithPercent, hc, (isLowerStart_classes hlow).2.2.2.1]

theorem expressible (h : DottedName t) : Expressible (.text t) := by
  obtain ⟨p, ps, hps, rfl⟩ := h
  exact .column (hps p (by simp)).toPlainPart fun q hq => (hps q (by simp [hq])).toPlainPart

end DottedName

namespace Render

variable {a : String}

theorem isAliasText_plain (h : PlainName a) : isAliasText a = true := by
  simp [isAliasText, h.toPlainPart.ne_star, h.dotted.not_percent, h.dotted.isIdentText]

theorem aliasText_plain (h : PlainName a) (maxDepth depth : Int) (st : Entries) :
    aliasText (.inlining maxDepth depth st) a = .ok a := by
  obtain ⟨c, cs, hc, hlow⟩ := h.dotted.exists_toList
  rw [aliasText]
  split
  · next heq =>
    exact absurd (List.cons.inj (hc.symm.trans heq)).1 (isLowerStart_classes hlow).2.2.2.2.1
  · exact namePart_inlining h.toPlainPart maxDepth depth st

/-- An alias behind what is neither the name of an operator nor of a function. -/
theorem aliasPair_of {v : Value} (hv : ∀ t, v = .text t → DottedName t) (ha : PlainName a)
    (maxDepth depth : Int) (st : Entries) :
    aliasPair? (.inlining maxDepth depth st) (.list [v, .text a]) = some (v, a) := by
  cases v with
  | text t =>
    have ht := hv t rfl
    change (if isAliasText a && !(startsWithPercent t || Registry.standard.isOperator t) then
      some (Value.text t, a) else none) = _
    rw [isAliasText_plain ha, ht.not_percent, ht.not_operator]
    rfl
  | _ =>
    change (if isAliasText a && !false then some _ else none) = _
    rw [isAliasText_plain ha]
    rfl

theorem gives_aliased {h : Nat} {table : Bool} {v : Value} {f : Fragment}
    (hv : ∀ t, v = .text t → DottedName t) (ha : PlainName a)
    (hf : Gives h (fun r s => aliased r s table v) f) :
    Gives h (fun r s => item r s table (.list [v, .text a])) (f ++ [.text " AS ", .text a]) := by
  have hall := hf.bind (f := fun f _ s => do
    return f ++ [.text (aliasSeparator s table), .text (← aliasText s a)])
    (b := f ++ [.text " AS ", .text a]) (.congr (.pure _) fun r m d st => ?_)
  · refine hall.congr fun r m d st => ?_
    simp only [item, aliasPair_of hv ha]
  · have hsep : aliasSeparator (.inlining m d st) table = " AS " := by cases table <;> rfl
    rw [aliasText_plain ha, hsep]
    rfl

theorem spells_aliased {f : Fragment} {ts : List Token} (ha : PlainName a)
    (hf : Spells f.inlineSql ts) :
    Spells (Fragment.inlineSql (f ++ [.text " AS ", .text a])) (ts ++ [nameToken "AS", .name a]) := by
  have has : Spells "AS" [nameToken "AS"] := Lexer.spells_word rfl
  have h := (hf.space has).space ha.toPlainPart.spells
  simpa [String.append_assoc, List.append_assoc] using h

end Render

namespace Syntax.Parser

variable {follow : Option Token → Prop}

theorem aliasName_takes (a : String) :
    Takes aliasName [nameToken "AS", .name a] follow (· = some (bare a)) := by
  refine .withKeyword rfl ((name_takes a).map ?_)
  rintro _ rfl
  rfl

theorem aliasName_absent (h : ∀ o, follow o → isName o = false ∧ isKeyword "as" o = false) :
    Takes aliasName [] follow (· = none) := by
  refine .noKeyword (fun o ho => (h o ho).2) (.peek fun o ho => ?_)
  rw [ahead_nil, (h o ho).1]
  exact .pure rfl

end Syntax.Parser

end Aliases

section Selections

open Syntax.Parser

/-- An operation has too many items to be something with an alias. -/
theorem item_operation (op : String) (v w : Value) (vs : List Value) (r : Renderer)
    (s : Settings) : Render.item r s false (.list (.text op :: v :: w :: vs)) =
      r.expr s false (.list (.text op :: v :: w :: vs)) := by
  have hpair : Render.aliasPair? s (.list (.text op :: v :: w :: vs)) = none := by
    cases v <;> rfl
  simp only [Render.item, hpair]

theorem Expressible.item_eq {v : Value} (h : Expressible v) (r : Renderer) (s : Settings) :
    Render.item r s false v = r.expr s false v := by
  cases h with
  | column hp hps => simp [Render.item, Render.aliasPair?, Value.items?, isIdentText_dotted hp hps]
  | int => rfl
  | string => rfl
  | bool => rfl
  | _ => exact item_operation ..

theorem writes_item {v : Value} {f : Fragment} (h : Expressible v) {n : Nat}
    (hf : Gives n (fun r s => r.expr s false v) f) :
    Gives n (fun r s => Render.item r s false v) f :=
  hf.congr fun r _ _ _ => h.item_eq r _

namespace Syntax.Parser

/-- The tokens that an item of a selection is rendered to and read from. -/
structure Selected (v : Value) (ts : List Token) : Prop where
  writes : ∃ f, Gives (v.height + 1) (fun r s => Render.item r s false v) f ∧ Spells f.inlineSql ts
  takes : ∀ n, ts.length ≤ n → Takes (selectItem (nested n)) ts (OrSign "," (Closes 0))
    fun i => Agrees i.read v
  starts : ∀ o, ∀ w ∈ otherStarts, isKeyword w (ahead ts o) = false

variable {v : Value} {ts : List Token}

/-- An expression that is neither a star nor ends in one. -/
theorem selectItem_takes {p : Nested} {us : List Token} {mid follow : Option Token → Prop}
    {left : Expr → Prop} {post : Tree .selectItem → Prop} (hstar : ∀ o, isSymbol "*" (ahead ts o) = false)
    (hless : Starless ts) (hmid : ∀ o, mid o → Ends 0 o) (hus : ∀ o, follow o → mid (ahead us o))
    (h : Takes (expression p) ts mid left)
    (ha : ∀ e, left e → Takes (aliasName >>= fun name => match name with
      | some name => pure (Tree.aliased e name)
      | none => pure (Tree.item e)) us follow post) :
    Takes (selectItem p) (ts ++ us) follow post := by
  refine .noSymbol (fun o _ => by rw [ahead_append]; exact hstar _) (.lexemes fun ls rest hls hr => ?_)
  obtain ⟨ls, ms, rfl, hts, hms⟩ := List.map_eq_append_iff.mp hls
  have hend : Ends 0 (next (ms ++ rest)) := by
    rw [next_append hms]
    exact hmid _ (hus _ hr)
  have hless : startsStar (ls ++ ms ++ rest) = false := by
    rw [List.append_assoc]
    exact hless _ _ hts hend
  rw [hless]
  exact h.bind ha hus

theorem Expressed.selected (hv : Expressible v) (h : Expressed v ts) : Selected v ts where
  writes := by
    obtain ⟨f, hf, hs⟩ := h.writes
    exact ⟨f, writes_item hv hf, hs⟩
  takes n hn := by
    have ho := h.opens n hn
    rw [← List.append_nil ts]
    refine selectItem_takes ho.not_star h.starless (fun _ ho => ho.mono (Nat.zero_le _))
      (fun o ho => ho.ends) (h.takes n hn) fun e he => ?_
    refine (aliasName_absent fun o ho => ⟨ho.isName, ho.isKeyword (by decide)⟩).andThen ?_
      fun o ho => ho
    rintro _ rfl
    exact .pure (.visit (.of_reads he hv.same_self))
  starts o w hw := (h.opens ts.length (Nat.le_refl _)).isKeyword hw o

theorem starredPath_takes (q : String) (qs : List String) {follow : Option Token → Prop} :
    Takes starredPath (pathTokens (q :: qs) ++ [.symbol ".", .symbol "*"]) follow
      (· = (q :: qs).map bare) := by
  rw [pathTokens, List.cons_append]
  refine Takes.bindAny (name_takes q) ?_
  rintro _ rfl
  refine Iterates.takes ?_
  suffices h : ∀ done : List Name, Iterates _ done
      ((qs.map fun q => [Token.name q]).flatMap (.symbol "." :: ·) ++ [.symbol ".", .symbol "*"])
      follow (· = done ++ qs.map bare) from h [bare q]
  intro done
  induction qs generalizing done with
  | nil =>
    refine .finish (by simp) (.symbol rfl (.withSymbol rfl (.pure rfl))) ?_
    simp
  | cons r rs ih =>
    have hne : [Token.symbol ".", .name r] ≠ [] := List.cons_ne_nil _ _
    rw [List.map_cons, List.flatMap_cons, List.append_assoc]
    refine Iterates.again (fun _ => True) (· = done ++ [bare r]) hne ?_ ?_ fun _ _ => trivial
    · refine .symbol rfl (.noSymbol (fun _ _ => rfl) ((name_takes r).map ?_))
      rintro _ rfl
      exact ⟨_, rfl, rfl⟩
    · rintro _ rfl
      have h := ih (done ++ [bare r])
      rwa [List.append_assoc] at h

theorem startsStar_starred (q : String) (qs : List String) {ls : List Lexeme}
    (h : ls.map Lexeme.token = pathTokens (q :: qs) ++ [.symbol ".", .symbol "*"])
    (rest : List Lexeme) : startsStar (ls ++ rest) = true := by
  induction qs generalizing q ls with
  | nil =>
    obtain ⟨⟨_, _⟩, ms, rfl, rfl, hms⟩ := List.map_eq_cons_iff.mp h
    obtain ⟨⟨_, _⟩, ns, rfl, rfl, hns⟩ := List.map_eq_cons_iff.mp hms
    obtain ⟨⟨_, _⟩, ks, rfl, rfl, -⟩ := List.map_eq_cons_iff.mp hns
    rfl
  | cons r rs ih =>
    rw [pathTokens_cons_cons] at h
    obtain ⟨⟨_, _⟩, ms, rfl, rfl, hms⟩ := List.map_eq_cons_iff.mp h
    obtain ⟨⟨_, _⟩, ns, rfl, rfl, hns⟩ := List.map_eq_cons_iff.mp hms
    have htail := ih r hns
    obtain ⟨⟨_, _⟩, ks, rfl, rfl, -⟩ := List.map_eq_cons_iff.mp hns
    rw [List.cons_append] at htail
    rw [List.cons_append, List.cons_append, List.cons_append, startsStar, htail]
    rfl

theorem selected_star : Selected (.text "*") [.symbol "*"] where
  writes := by
    obtain ⟨f, hf, hs⟩ := Render.writes_star false
    exact ⟨f, hf.congr fun _ _ _ _ => rfl, hs⟩
  takes _ _ := .withSymbol rfl (.pure ((Agrees.of_reads (.pure _) (Value.same_text_self _)).visit))
  starts _ _ _ := rfl

theorem selected_tableStar {q : String} {qs : List String} (hq : ∀ x ∈ q :: qs, PlainPart x) :
    Selected (.text (dotted (q :: qs) ++ ".*"))
      (pathTokens (q :: qs) ++ [.symbol ".", .symbol "*"]) where
  writes := by
    obtain ⟨hhead, htail⟩ := List.forall_mem_cons.mp hq
    have hid := isIdentText_dotted_star hhead htail
    obtain ⟨f, hf, hs⟩ := Render.writes_columnStar hhead htail false
    refine ⟨f, hf.congr fun r m d st => ?_, hs⟩
    simp [Render.item, Render.aliasPair?, Value.items?, hid]
  takes n _ := by
    refine .noSymbol (fun _ _ => rfl) (.lexemes fun ls rest hls _ => ?_)
    rw [startsStar_starred q qs hls]
    refine (starredPath_takes q qs).spanned.map ?_
    rintro ⟨_, sql⟩ rfl
    have hall : ((q :: qs).map bare).all Name.isPlain = true := by
      rw [List.all_eq_true]
      intro x hx
      obtain ⟨y, hy, rfl⟩ := List.mem_map.mp hx
      exact (hq y hy).isPlain
    have hcontent : ((q :: qs).map bare).map Name.content = q :: qs := by
      rw [List.map_map]
      exact List.map_id' _
    have hstar : Path.star? ((q :: qs).map bare) = some (.text (dotted (q :: qs) ++ ".*")) := by
      rw [Path.star?, if_pos hall, Path.text, hcontent]
      rfl
    refine .of_reads (.visit ?_) (Value.same_text_self _)
    rw [hstar]
    exact (Reads.pure (some (Value.text (dotted (q :: qs) ++ ".*")))).visit.map
      (f := fun star => star.getD (Value.raw (.text sql)))
  starts _ _ _ := rfl

theorem Expressed.selected_aliased {t a : String} (ht : DottedName t) (ha : PlainName a)
    (h : Expressed (.text t) ts) :
    Selected (.list [.text t, .text a]) (ts ++ [nameToken "AS", .name a]) where
  writes := by
    obtain ⟨f, hf, hs⟩ := h.writes
    have hle : (Value.text t).height + 1 ≤ (Value.list [.text t, .text a]).height + 1 := by
      simp [Value.height]
    have hall : Gives _ (fun r s => Render.item r s false (.list [.text t, .text a])) _ :=
      Render.gives_aliased (by rintro u ⟨⟩; exact ht) ha (hf.mono hle)
    exact ⟨_, hall, Render.spells_aliased ha hs⟩
  takes n hn := by
    rw [List.length_append] at hn
    have ho := h.opens n (by omega)
    refine selectItem_takes ho.not_star h.starless (fun _ ho => ho.mono (Nat.zero_le _)) ?_
      (h.takes n (by omega)) fun e he => ?_
    · rintro _ _ _ ⟨⟩
      decide
    · refine (aliasName_takes a).andThen ?_ fun _ ho => ho
      rintro _ rfl
      have halias : (bare a).asAlias = .text a := by
        have hplain : (bare a).isPlain = true := ha.toPlainPart.isPlain
        rw [Name.asAlias, if_pos hplain]
        rfl
      refine .pure (.of_reads (v := .list [.text t, .text a]) ?_ ?_)
      · rw [← halias]
        exact (he.map (f := fun v => Value.list [v, (bare a).asAlias])).visit
      · exact Value.same_list (.cons (Value.same_text_self t) (.cons (Value.same_text_self a) .nil))
  starts o w hw := by
    rw [ahead_append]
    exact (h.opens ts.length (Nat.le_refl _)).isKeyword hw _

theorem exists_selected (h : SelectItem v) : ∃ ts, Selected v ts := by
  cases h with
  | expression hv =>
    obtain ⟨⟨ts, hts⟩, -⟩ := hv.exists_tokens
    exact ⟨ts, hts.selected hv⟩
  | star => exact ⟨_, selected_star⟩
  | tableStar ht =>
    obtain ⟨p, ps, hps, rfl⟩ := ht
    exact ⟨_, selected_tableStar fun q hq => (hps q hq).toPlainPart⟩
  | aliased ht ha =>
    obtain ⟨⟨ts, hts⟩, -⟩ := ht.expressible.exists_tokens
    exact ⟨_, hts.selected_aliased ht ha⟩

end Syntax.Parser

end Selections

section Orderings

namespace Syntax.Parser

/-- The tokens that an item of an ordering is rendered to and read from. -/
structure Ordered (v : Value) (ts : List Token) : Prop where
  writes : ∃ f, Gives (v.height + 1) (fun r s => Render.ordered r s v) f ∧ Spells f.inlineSql ts
  takes : ∀ n, ts.length < n → Takes (orderItem (nested n)) ts (OrSign "," (Closes 8))
    fun i => Agrees i.read v

/-- The words behind an expression that is ordered by; ascending order is not written. -/
def orderTokens (descending : Bool) (nulls : Option NullsOrder) : List Token :=
  (if descending then [nameToken "DESC"] else []) ++
    match nulls with
    | none => []
    | some .first => [nameToken "NULLS", nameToken "FIRST"]
    | some .last => [nameToken "NULLS", nameToken "LAST"]

variable {v : Value} {ts : List Token}

theorem spells_ordered {f : Fragment} (h : Spells f.inlineSql ts) (descending : Bool)
    (nulls : Option NullsOrder) :
    Spells (Fragment.inlineSql (f ++ ((if descending then "desc" else "asc") ::
      nulls.toList.map nullsWord).map fun m => .text (Render.orderSuffix m)))
      (ts ++ orderTokens descending nulls) := by
  have hdesc : Spells "DESC" [nameToken "DESC"] := Lexer.spells_word rfl
  have hfirst : Spells "NULLS FIRST" [nameToken "NULLS", nameToken "FIRST"] :=
    Lexer.spells_words "NULLS" ["FIRST"] rfl (by decide)
  have hlast : Spells "NULLS LAST" [nameToken "NULLS", nameToken "LAST"] :=
    Lexer.spells_words "NULLS" ["LAST"] rfl (by decide)
  have hsuffix : Render.orderSuffix "asc" = "" ∧ Render.orderSuffix "desc" = " " ++ "DESC" ∧
      Render.orderSuffix "nulls-first" = " " ++ "NULLS FIRST" ∧
      Render.orderSuffix "nulls-last" = " " ++ "NULLS LAST" := by decide
  obtain ⟨hasc, hd, hf, hl⟩ := hsuffix
  have hdir : Spells (f.inlineSql ++ Render.orderSuffix (if descending then "desc" else "asc"))
      (ts ++ if descending then [nameToken "DESC"] else []) := by
    cases descending with
    | false => simpa [hasc] using h
    | true => simpa [hd, String.append_assoc] using h.space hdesc
  cases nulls with
  | none => simpa [orderTokens] using hdir
  | some n =>
    cases n with
    | first => simpa [orderTokens, nullsWord, hf, String.append_assoc] using hdir.space hfirst
    | last => simpa [orderTokens, nullsWord, hl, String.append_assoc] using hdir.space hlast

theorem ordered_writes (hv : Writes false v ts) (descending : Bool) (nulls : Option NullsOrder) :
    ∃ f, Gives ((Value.list (v :: .text (if descending then "desc" else "asc") ::
        nulls.toList.map fun n => .text (nullsWord n))).height + 1)
      (fun r s => Render.ordered r s (.list (v :: .text (if descending then "desc" else "asc") ::
        nulls.toList.map fun n => .text (nullsWord n)))) f ∧
      Spells f.inlineSql (ts ++ orderTokens descending nulls) := by
  obtain ⟨f, hf, hs⟩ := hv
  refine ⟨_, Gives.congr (Gives.map (f := fun f => f ++ ((if descending then "desc" else "asc") ::
    nulls.toList.map nullsWord).map fun m => .text (Render.orderSuffix m))
    (hf.mono ?_)) fun r m d st => ?_, spells_ordered hs descending nulls⟩
  · have := Render.height_le_of_mem (v := v) (v :: .text (if descending then "desc" else "asc") ::
        nulls.toList.map fun n => .text (nullsWord n)) (by simp)
    omega
  · have hlower : Text.lower "asc" = "asc" ∧ Text.lower "desc" = "desc" ∧
        Text.lower "nulls-first" = "nulls-first" ∧ Text.lower "nulls-last" = "nulls-last" := by
      decide
    obtain ⟨ha, hd, hf, hl⟩ := hlower
    rw [Render.ordered]
    cases descending <;> cases nulls with
    | none => simp [Render.orderItem, Value.items?, Render.orderWords, ha, hd]
    | some n =>
      cases n <;> simp [Render.orderItem, Value.items?, Render.orderWords, nullsWord, ha, hd, hf, hl]

theorem orderItem_takes {p : Nested} (descending : Bool) (nulls : Option NullsOrder)
    (h : Takes p.expr ts (Ends 10) (Means · v)) :
    Takes (orderItem p) (ts ++ orderTokens descending nulls) (OrSign "," (Closes 8))
      fun i => ∃ e, Means e v ∧ i = .orderItem e descending nulls := by
  have hnulls : ∀ e, Means e v → Takes (takeKeyword "nulls" >>= fun b => if b then
        takeKeyword "first" >>= fun b => if b then pure (Tree.orderItem e descending (some .first))
          else keyword "last" >>= fun _ => pure (Tree.orderItem e descending (some .last))
        else pure (Tree.orderItem e descending none))
      (match nulls with
        | none => []
        | some .first => [nameToken "NULLS", nameToken "FIRST"]
        | some .last => [nameToken "NULLS", nameToken "LAST"]) (OrSign "," (Closes 8))
      fun i => ∃ e, Means e v ∧ i = .orderItem e descending nulls := by
    intro e he
    cases nulls with
    | none => exact .noKeyword (fun _ ho => ho.isKeyword (by decide)) (.pure ⟨e, he, rfl⟩)
    | some n =>
      cases n with
      | first => exact .withKeyword rfl (.withKeyword rfl (.pure ⟨e, he, rfl⟩))
      | last => exact .withKeyword rfl (.noKeyword (fun _ _ => rfl) (.keyword rfl (.pure ⟨e, he, rfl⟩)))
  refine h.bind (fun e he => ?_) fun o ho => ?_
  · cases descending with
    | true => exact .withKeyword rfl (hnulls e he)
    | false =>
      refine .noKeyword (fun o ho => ?_) (.noKeyword (fun o ho => ?_) (hnulls e he))
      all_goals
        cases nulls with
        | none => exact ho.isKeyword (by decide)
        | some n => cases n <;> rfl
  · cases descending with
    | true =>
      rintro _ ⟨⟩
      decide
    | false =>
      cases nulls with
      | none => exact ho.ends
      | some n =>
        cases n <;>
        · rintro _ ⟨⟩
          decide

theorem orderItem_reads {e : Expr} (he : Means e v) (descending : Bool)
    (nulls : Option NullsOrder) :
    Reads (Tree.orderItem e descending nulls).read
      (.list (v :: .text (if descending then "desc" else "asc") ::
        nulls.toList.map fun n => .text (nullsWord n))) := by
  have h := Reads.visit (Reads.map (f := fun v => Value.list (v ::
    .text (if descending then "desc" else "asc") :: nulls.toList.map fun n => .text (nullsWord n))) he)
  cases nulls with
  | none => exact h
  | some n => cases n <;> exact h

theorem exists_ordered (h : OrderItem v) : ∃ ts, Ordered v ts := by
  cases h with
  | @mk v descending nulls hv =>
    obtain ⟨⟨ts, hts⟩, -⟩ := hv.exists_tokens
    refine ⟨_, ordered_writes hts.writes descending nulls, fun n hn => ?_⟩
    rw [List.length_append] at hn
    obtain ⟨n, rfl⟩ : ∃ m, n = m + 1 := ⟨n - 1, by omega⟩
    refine (orderItem_takes (p := nested (n + 1)) descending nulls
      (hts.takes n (by omega))).mono (fun _ => id) ?_
    rintro _ ⟨e, he, rfl⟩
    refine .of_reads (orderItem_reads he descending nulls) ?_
    · refine Value.same_list (.cons hv.same_self (.cons (Value.same_text_self _) ?_))
      exact List.forall₂_same.mpr fun x hx => by
        obtain ⟨n, -, rfl⟩ := List.mem_map.mp hx
        exact Value.same_text_self _

end Syntax.Parser

end Orderings

end SqlTree
