import SqlTree.Proofs.Conditions.Columns
import SqlTree.Proofs.Contract.Expression
import SqlTree.Syntax.Reading.Expression

/-!
The names of functions. A head is made of the name and of a mark for distinct arguments, and is
written in upper case as a name in front of which the mark was taken off again. Both come out as
they went in, unless the name ends like the mark.
-/

namespace SqlTree

open Lexer (Lexed nameToken)
open Syntax (Arguments Name)
open Contract.Kept (isMarkedCall)

section Chars

/-- What the name of a function holds behind its first character, in lower case. -/
def isFunctionChar (c : Char) : Bool := isPlainChar c || c = '$'

/-- The upper case of a character that has one. -/
def upperOf (c : Char) : Char := (Text.upperChar c).headD c

/-- What a head holds in front of the mark: the parts of a name and points. -/
def isHeadChar (c : Char) : Bool := isFunctionChar c || c = '.'

theorem toNat_lt_of_isHeadChar {c : Char} (h : isHeadChar c = true) : c.toNat < 128 := by
  simp only [isHeadChar, isFunctionChar, Bool.or_eq_true, decide_eq_true_eq] at h
  rcases h with (h | rfl) | rfl
  · exact toNat_lt_of_isPlainChar h
  · decide
  · decide

theorem isHeadChar_classes {c : Char} (h : isHeadChar c = true) :
    (Text.upperChar c = [upperOf c] ∧ upperOf c ≠ ' ' ∧ c ≠ '-' ∧ c ≠ '%') ∧
      ∀ d ∈ "_distinct".toList, upperOf c = upperOf d → c = d := by
  have hclasses := Text.of_ascii (P := fun c => isHeadChar c = true →
    (Text.upperChar c = [upperOf c] ∧ upperOf c ≠ ' ' ∧ c ≠ '-' ∧ c ≠ '%') ∧
      ("_distinct".toList.all fun d => decide (upperOf c = upperOf d → c = d)) = true)
    (by decide) (toNat_lt_of_isHeadChar h) h
  exact ⟨hclasses.1, Text.forall_mem_of_all hclasses.2⟩

theorem isHeadChar_lower {c : Char} (h : isHeadChar c = true) :
    c ≠ 'Σ' ∧ Text.lowerChar c = [c] :=
  Text.of_ascii (P := fun c => isHeadChar c = true → c ≠ 'Σ' ∧ Text.lowerChar c = [c])
    (by decide) (toNat_lt_of_isHeadChar h) h

theorem isHeadChar_of_isFunctionChar {c : Char} (h : isFunctionChar c = true) :
    isHeadChar c = true := by
  simp [isHeadChar, h]

theorem isFunctionChar_classes {c : Char} (h : isFunctionChar c = true) :
    (Lexer.foldLetter (upperOf c) = c ∧ Lexer.isNameChar (upperOf c) = true) ∧
      (upperOf c ≠ 'Σ' ∧ Text.lowerChar (upperOf c) = [Lexer.foldLetter (upperOf c)]) ∧
      (c ≠ '.' ∧ c ≠ ';' ∧ c ≠ '\x00') ∧ (Text.isWordChar c = true ↔ c ≠ '$') :=
  Text.of_ascii (P := fun c => isFunctionChar c = true →
    (Lexer.foldLetter (upperOf c) = c ∧ Lexer.isNameChar (upperOf c) = true) ∧
      (upperOf c ≠ 'Σ' ∧ Text.lowerChar (upperOf c) = [Lexer.foldLetter (upperOf c)]) ∧
      (c ≠ '.' ∧ c ≠ ';' ∧ c ≠ '\x00') ∧ (Text.isWordChar c = true ↔ c ≠ '$'))
    (by decide) (toNat_lt_of_isHeadChar (isHeadChar_of_isFunctionChar h)) h

theorem upperOf_start {c : Char} (h : Identifier.isLowerStart c = true) :
    Lexer.isNameStart (upperOf c) = true ∧ Text.isDigit (upperOf c) = false ∧
      Lexer.isSpace (upperOf c) = false ∧ upperOf c ≠ '.' :=
  Text.of_ascii (P := fun c => Identifier.isLowerStart c = true →
    Lexer.isNameStart (upperOf c) = true ∧ Text.isDigit (upperOf c) = false ∧
      Lexer.isSpace (upperOf c) = false ∧ upperOf c ≠ '.')
    (by decide) (toNat_lt_of_isPlainChar (isPlainChar_of_isLowerStart h)) h

end Chars

section Words

/-- A part of the name of a function, without quotes and in lower case. -/
structure IsFunctionPart (p : String) : Prop where
  form : ∃ c cs, p.toList = c :: cs ∧ Identifier.isLowerStart c = true ∧
    ∀ d ∈ cs, isFunctionChar d = true

/-- Names of functions: one part or two, none of which is a keyword that is no name there. -/
inductive IsFunctionName : List String → Prop
  | plain {p : String} : IsFunctionPart p →
      (p ∈ Token.keywords → p ∈ "left" :: "right" :: Token.unreserved) → IsFunctionName [p]
  | qualified {p q : String} : IsFunctionPart p → IsFunctionPart q →
      (p ∈ Token.keywords → p ∈ "left" :: "right" :: Token.unreserved) →
      (q ∈ Token.keywords → q ∈ Token.unreserved) → IsFunctionName [p, q]

namespace IsFunctionPart

variable {p : String}

theorem isFunctionChar_of_mem (h : IsFunctionPart p) {c : Char} (hc : c ∈ p.toList) :
    isFunctionChar c = true := by
  obtain ⟨d, ds, hp, hd, hds⟩ := h.form
  rw [hp] at hc
  rcases List.mem_cons.mp hc with rfl | hc
  · simp [isFunctionChar, isPlainChar_of_isLowerStart hd]
  · exact hds c hc

theorem toList_upper (h : IsFunctionPart p) : (Text.upper p).toList = p.toList.map upperOf := by
  rw [Text.upper, String.toList_ofList]
  have hchars : ∀ cs : List Char, (∀ c ∈ cs, isFunctionChar c = true) →
      cs.flatMap Text.upperChar = cs.map upperOf := by
    intro cs hcs
    rw [List.map_eq_flatMap]
    refine List.flatMap_congr fun c hc => ?_
    exact (isHeadChar_classes (isHeadChar_of_isFunctionChar (hcs c hc))).1.1
  exact hchars _ fun c hc => h.isFunctionChar_of_mem hc

theorem map_foldLetter (h : IsFunctionPart p) :
    (Text.upper p).toList.map Lexer.foldLetter = p.toList := by
  rw [h.toList_upper, List.map_map]
  refine (List.map_congr_left fun c hc => ?_).trans (List.map_id' _)
  exact (isFunctionChar_classes (h.isFunctionChar_of_mem hc)).1.1

theorem lower_upper (h : IsFunctionPart p) : Text.lower (Text.upper p) = p := by
  have hlower : Text.lower (Text.upper p) =
      String.ofList ((Text.upper p).toList.map Lexer.foldLetter) := by
    refine Text.lower_eq_map fun c hc => ?_
    rw [h.toList_upper] at hc
    obtain ⟨d, hd, rfl⟩ := List.mem_map.mp hc
    exact (isFunctionChar_classes (h.isFunctionChar_of_mem hd)).2.1
  rw [hlower, h.map_foldLetter, String.ofList_toList]

theorem nameToken_upper (h : IsFunctionPart p) : nameToken (Text.upper p) =
    if Token.keywords.contains p then .keyword p (Text.upper p) else .name (Text.upper p) := by
  have hword : String.ofList ((Text.upper p).toList.map Lexer.foldLetter) = p := by
    rw [h.map_foldLetter, String.ofList_toList]
  simp only [nameToken, hword]

/-- A part in upper case is one token. -/
theorem nameSpells (h : IsFunctionPart p) :
    NameSpells (Text.upper p) (nameToken (Text.upper p)) := by
  obtain ⟨c, cs, hp, hc, hcs⟩ := h.form
  obtain ⟨hname, hdigit, hspace, hdot⟩ := upperOf_start hc
  have hupper : (Text.upper p).toList = upperOf c :: cs.map upperOf := by
    rw [h.toList_upper, hp, List.map_cons]
  have hall : (cs.map upperOf).all Lexer.isNameChar = true := by
    rw [List.all_map, List.all_eq_true]
    exact fun d hd => (isFunctionChar_classes (hcs d hd)).1.2
  have hword : Lexer.isWord (Text.upper p) = true := by
    simp [Lexer.isWord, hupper, hname, hdigit, hspace, hdot, hall]
  exact ⟨⟨_, _, hupper, hdigit, hspace⟩, fun _ _ hr hl => hl.word hword fun c hc => (hr c hc).1⟩

theorem no_dot (h : IsFunctionPart p) : ∀ c ∈ p.toList, decide (c = '.') = false := fun _ hc =>
  decide_eq_false (isFunctionChar_classes (h.isFunctionChar_of_mem hc)).2.2.1.1

end IsFunctionPart

theorem IsFunctionName.parts {head : List String} (h : IsFunctionName head) :
    head ≠ [] ∧ ∀ p ∈ head, IsFunctionPart p := by
  cases h with
  | plain hp => exact ⟨List.cons_ne_nil _ _, by simpa using hp⟩
  | qualified hp hq => exact ⟨List.cons_ne_nil _ _, by simpa using ⟨hp, hq⟩⟩

theorem IsFunctionName.length_le {head : List String} (h : IsFunctionName head) :
    head.length ≤ 2 := by
  cases h <;> simp

/-- The tokens of a name in upper case. -/
def headTokens : List String → List Token
  | [] => []
  | p :: ps => nameToken (Text.upper p) ::
      ((ps.map fun q => nameToken (Text.upper q)).map ([·])).flatMap (.symbol "." :: ·)

theorem lexed_head {head : List String} {rest : List Char} {us : List Token}
    (h : ∀ p ∈ head, IsFunctionPart p) (hne : head ≠ [])
    (hr : ∀ c ∈ rest.head?, Lexer.isNameChar c = false ∧ c ≠ '"') (hl : Lexed rest us) :
    Lexed ((dotted (head.map Text.upper)).toList ++ rest) (headTokens head ++ us) := by
  obtain ⟨p, ps, rfl⟩ := List.exists_cons_of_ne_nil hne
  obtain ⟨hp, hps⟩ := List.forall_mem_cons.mp h
  have hrest : List.Forall₂ NameSpells (ps.map Text.upper)
      (ps.map fun q => nameToken (Text.upper q)) := by
    rw [List.forall₂_map_left_iff, List.forall₂_map_right_iff, List.forall₂_same]
    exact fun q hq => (hps q hq).nameSpells
  exact lexed_namePath hp.nameSpells hrest hr hl

end Words

section Hyphens

variable {cs : List Char}

theorem Keyword.spaceHyphens_append (h : '-' ∉ cs) (before : Option Char) (ds : List Char) :
    Keyword.spaceHyphens before (cs ++ ds) =
      cs ++ Keyword.spaceHyphens (cs.getLast?.or before) ds := by
  induction cs generalizing before with
  | nil => rfl
  | cons c cs ih =>
    rw [List.mem_cons, not_or] at h
    have hlast : (c :: cs).getLast?.or before = cs.getLast?.or (some c) := by
      cases hcs : cs.getLast? <;> simp [List.getLast?_cons, hcs]
    rw [List.cons_append, Keyword.spaceHyphens, ih h.2, hlast]
    simp [Ne.symm h.1]

theorem Keyword.spaceHyphens_distinct (before : Option Char) :
    Keyword.spaceHyphens before "-distinct".toList =
      (if before.any Text.isWordChar then ' ' else '-') :: "distinct".toList := by
  have hrest : ∀ b, Keyword.spaceHyphens b "distinct".toList = "distinct".toList := by
    intro b
    rw [← List.append_nil "distinct".toList, Keyword.spaceHyphens_append (by decide)]
    rfl
  have hmark : "-distinct".toList = '-' :: "distinct".toList := rfl
  rw [hmark, Keyword.spaceHyphens, hrest]
  have hnext : Text.isWordChar 'd' = true := by decide
  cases before.any Text.isWordChar <;> simp [hnext]

theorem Keyword.render_percent {name : String} (h : name.toList = '%' :: cs) :
    Keyword.render name =
      String.ofList ((Keyword.spaceHyphens none cs).flatMap Text.upperChar) := by
  simp [Keyword.render, h, Keyword.dropPercent]

end Hyphens

section Marks

variable {head : List String} {marks : Arguments}

/-- What is put behind the name of a function for its arguments. -/
def markText (marks : Arguments) : String := if marks = .distinct then "-distinct" else ""

/-- Parts with a text behind the last one. -/
def suffixed (t : String) : List String → List String
  | [] => []
  | [p] => [p ++ t]
  | p :: ps => p :: suffixed t ps

theorem dotted_suffixed (t : String) (hne : head ≠ []) : dotted (suffixed t head) = dotted head ++ t := by
  induction head with
  | nil => contradiction
  | cons p ps ih =>
    cases ps with
    | nil => simp [suffixed, dotted]
    | cons q qs =>
      have hrest := ih (List.cons_ne_nil _ _)
      have hcons : suffixed t (p :: q :: qs) = p :: suffixed t (q :: qs) := rfl
      obtain ⟨r, rs, hr⟩ : ∃ r rs, suffixed t (q :: qs) = r :: rs := by
        cases qs <;> exact ⟨_, _, rfl⟩
      rw [hcons, hr, dotted_cons_cons, ← hr, hrest, dotted_cons_cons]
      simp only [String.append_assoc]

theorem forall_mem_suffixed {P Q : String → Prop} {t : String} (h : ∀ p ∈ head, P p)
    (hmark : ∀ p, P p → Q (p ++ t)) (hPQ : ∀ p, P p → Q p) : ∀ p ∈ suffixed t head, Q p := by
  induction head with
  | nil => exact nofun
  | cons p ps ih =>
    obtain ⟨hp, hps⟩ := List.forall_mem_cons.mp h
    cases ps with
    | nil => exact List.forall_mem_singleton.mpr (hmark p hp)
    | cons q qs => exact List.forall_mem_cons.mpr ⟨hPQ p hp, ih hps⟩

theorem callHead_eq (head : List String) (marks : Arguments) :
    (Syntax.Reading.callHead head marks).toList =
      '%' :: ((dotted head).toList ++ (markText marks).toList) := by
  simp [Syntax.Reading.callHead, dotted, markText]

theorem isHeadChar_of_mem (h : ∀ p ∈ head, IsFunctionPart p) {c : Char}
    (hc : c ∈ (dotted head).toList) : isHeadChar c = true := by
  induction head with
  | nil => cases hc
  | cons p ps ih =>
    obtain ⟨hp, hps⟩ := List.forall_mem_cons.mp h
    have hfirst : ∀ d ∈ p.toList, isHeadChar d = true := fun d hd =>
      isHeadChar_of_isFunctionChar (hp.isFunctionChar_of_mem hd)
    cases ps with
    | nil =>
      rw [dotted, String.intercalate_singleton] at hc
      exact hfirst c hc
    | cons q qs =>
      rw [toList_dotted_cons_cons] at hc
      rcases List.mem_append.mp hc with hc | hc
      · exact hfirst c hc
      · rcases List.mem_cons.mp hc with rfl | hc
        · rfl
        · exact ih hps hc

theorem exists_last (h : ∀ p ∈ head, IsFunctionPart p) (hne : head ≠ []) :
    ∃ c, (dotted head).toList.getLast? = some c ∧ isFunctionChar c = true := by
  induction head with
  | nil => contradiction
  | cons p ps ih =>
    obtain ⟨hp, hps⟩ := List.forall_mem_cons.mp h
    cases ps with
    | nil =>
      obtain ⟨d, ds, hd, -⟩ := hp.form
      have hlast : p.toList ≠ [] := by simp [hd]
      refine ⟨p.toList.getLast hlast, ?_, hp.isFunctionChar_of_mem (List.getLast_mem hlast)⟩
      rw [dotted, String.intercalate_singleton, List.getLast?_eq_some_getLast hlast]
    | cons q qs =>
      obtain ⟨c, hc, hchar⟩ := ih hps (List.cons_ne_nil _ _)
      refine ⟨c, ?_, hchar⟩
      rw [toList_dotted_cons_cons, List.getLast?_append, List.getLast?_cons, hc]
      rfl

theorem lower_callHead (h : ∀ p ∈ head, IsFunctionPart p) :
    Text.lower (Syntax.Reading.callHead head marks) = Syntax.Reading.callHead head marks := by
  refine Text.lower_eq_self fun c hc => ?_
  have hmark : ∀ c ∈ (markText marks).toList, c ≠ 'Σ' ∧ Text.lowerChar c = [c] := by
    cases marks <;> exact Text.forall_mem_of_all (by decide)
  rw [callHead_eq] at hc
  rcases List.mem_cons.mp hc with rfl | hc
  · decide
  · exact (List.mem_append.mp hc).elim (fun hc => isHeadChar_lower (isHeadChar_of_mem h hc)) (hmark c)

theorem exists_callHead (h : ∀ p ∈ head, IsFunctionPart p) (hne : head ≠ []) :
    ∃ c cs, (Syntax.Reading.callHead head marks).toList = '%' :: c :: cs := by
  obtain ⟨c, hc, -⟩ := exists_last h hne
  obtain ⟨d, ds, hd⟩ := List.exists_cons_of_ne_nil (l := (dotted head).toList) (by
    intro hnil
    rw [hnil] at hc
    cases hc)
  exact ⟨d, _, by rw [callHead_eq, hd]; rfl⟩

theorem toList_upper_dotted (h : ∀ p ∈ head, IsFunctionPart p) :
    (dotted (head.map Text.upper)).toList = (dotted head).toList.map upperOf := by
  induction head with
  | nil => rfl
  | cons p ps ih =>
    obtain ⟨hp, hps⟩ := List.forall_mem_cons.mp h
    cases ps with
    | nil => simp [dotted, hp.toList_upper]
    | cons q qs =>
      have hdot : upperOf '.' = '.' := by decide
      rw [List.map_cons, List.map_cons, toList_dotted_cons_cons, toList_dotted_cons_cons,
        ← List.map_cons, ih hps, hp.toList_upper, List.map_append, List.map_cons, hdot]

/-- What a head is written as: the name in upper case, and behind it the mark. -/
theorem toList_function (h : ∀ p ∈ head, IsFunctionPart p) (hne : head ≠ []) :
    (Keyword.function (Syntax.Reading.callHead head marks)).toList =
      (dotted (head.map Text.upper)).toList ++
        if marks = .distinct then
          (if (dotted head).toList.getLast? = some '$' then '-' else '_') :: "DISTINCT".toList
        else [] := by
  have hchars : ∀ c ∈ (dotted head).toList, isHeadChar c = true := fun c hc => isHeadChar_of_mem h hc
  have hhyphen : '-' ∉ (dotted head).toList := fun hc =>
    (isHeadChar_classes (hchars _ hc)).1.2.2.1 rfl
  obtain ⟨c, hc, hchar⟩ := exists_last h hne
  have hword : Text.isWordChar c = decide (c ≠ '$') := by
    rw [Bool.eq_iff_iff, decide_eq_true_eq]
    exact (isFunctionChar_classes hchar).2.2.2
  have hspaced : Keyword.spaceHyphens none ((dotted head).toList ++ (markText marks).toList) =
      (dotted head).toList ++ if marks = .distinct then
        (if c = '$' then '-' else ' ') :: "distinct".toList else [] := by
    rw [Keyword.spaceHyphens_append hhyphen, hc, Option.some_or]
    by_cases hd : marks = .distinct
    · rw [markText, if_pos hd, if_pos hd, Keyword.spaceHyphens_distinct, Option.any_some, hword]
      by_cases hdollar : c = '$' <;> simp [hdollar]
    · rw [markText, if_neg hd, if_neg hd]
      rfl
  have hrender : Keyword.render (Syntax.Reading.callHead head marks) =
      String.ofList (((dotted head).toList ++ if marks = .distinct then
        (if c = '$' then '-' else ' ') :: "distinct".toList else []).flatMap Text.upperChar) := by
    rw [Keyword.render_percent (callHead_eq head marks), hspaced]
  have hupper : (dotted head).toList.flatMap Text.upperChar = (dotted head).toList.map upperOf := by
    rw [List.map_eq_flatMap]
    exact List.flatMap_congr fun c hc => (isHeadChar_classes (hchars c hc)).1.1
  have hsame : ((dotted head).toList.map upperOf).map (fun c => if c = ' ' then '_' else c) =
      (dotted head).toList.map upperOf := by
    rw [List.map_map]
    exact List.map_congr_left fun c hc => if_neg (isHeadChar_classes (hchars c hc)).1.2.1
  rw [Keyword.function, hrender, String.toList_ofList, String.toList_ofList, List.flatMap_append,
    List.map_append, hupper, hsame, toList_upper_dotted h, hc]
  congr 1
  by_cases hd : marks = .distinct
  · by_cases hdollar : c = '$'
    · simp only [hd, hdollar, if_true]
      decide
    · simp only [hd, hdollar, if_true, if_false, Option.some.injEq]
      decide
  · simp [hd]

theorem eq_of_map_eq {f : Char → Char} {cs ds : List Char}
    (h : ∀ c ∈ cs, ∀ d ∈ ds, f c = f d → c = d) (hmap : cs.map f = ds.map f) : cs = ds := by
  induction cs generalizing ds with
  | nil => exact (List.map_eq_nil_iff.mp hmap.symm).symm
  | cons c cs ih =>
    cases ds with
    | nil => cases hmap
    | cons d ds =>
      obtain ⟨hhead, htail⟩ := List.cons.inj hmap
      rw [h c (by simp) d (by simp) hhead,
        ih (fun x hx y hy => h x (by simp [hx]) y (by simp [hy])) htail]

/-- The arguments are taken for distinct if the mark is a word of its own behind the name, or if the
name itself ends like it. -/
theorem isMarkedCall_callHead (h : ∀ p ∈ head, IsFunctionPart p) (hne : head ≠ []) :
    isMarkedCall (Syntax.Reading.callHead head marks) = true ↔
      if marks = .distinct then (dotted head).toList.getLast? ≠ some '$'
      else "_distinct".toList <:+ (dotted head).toList := by
  rw [isMarkedCall, List.isSuffixOf_iff_suffix, toList_function h hne]
  by_cases hd : marks = .distinct
  · rw [if_pos hd, if_pos hd]
    by_cases hlast : (dotted head).toList.getLast? = some '$'
    · rw [if_pos hlast]
      refine iff_of_false ?_ (not_not.mpr hlast)
      rintro ⟨front, hfront⟩
      have hmark := (List.append_inj' hfront rfl).2
      cases hmark
    · rw [if_neg hlast]
      exact iff_of_true (List.suffix_append _ _) hlast
  · rw [if_neg hd, if_neg hd, List.append_nil, toList_upper_dotted h]
    have hmark : Render.distinctSuffix = "_distinct".toList.map upperOf := by decide
    rw [hmark]
    constructor
    · rintro ⟨front, hfront⟩
      obtain ⟨us, vs, hsplit, -, hvs⟩ := List.map_eq_append_iff.mp hfront.symm
      refine ⟨us, ?_⟩
      rw [hsplit, eq_of_map_eq (fun c hc d hd => ?_) hvs]
      exact (isHeadChar_classes (isHeadChar_of_mem h (by simp [hsplit, hc]))).2 d hd
    · exact fun hsuffix => hsuffix.map upperOf

/-- Names from which the mark of the arguments is told, and that are not too long with it. -/
structure TellsMark (head : List String) (marks : Arguments) : Prop where
  fits : ∀ p ∈ suffixed (markText marks) head, p.length ≤ 63
  marked : marks = .distinct → (dotted head).toList.getLast? ≠ some '$'
  unmarked : marks ≠ .distinct → ¬ "_distinct".toList <:+ (dotted head).toList

namespace TellsMark

variable (h : TellsMark head marks)

include h

theorem isMarkedCall_iff (hhead : ∀ p ∈ head, IsFunctionPart p) (hne : head ≠ []) :
    isMarkedCall (Syntax.Reading.callHead head marks) = true ↔ marks = .distinct := by
  rw [isMarkedCall_callHead hhead hne]
  by_cases hd : marks = .distinct
  · rw [if_pos hd]
    exact iff_of_true (h.marked hd) hd
  · rw [if_neg hd]
    exact iff_of_false (h.unmarked hd) hd

/-- What is written in front of the arguments is the name. -/
theorem written_eq (hhead : ∀ p ∈ head, IsFunctionPart p) (hne : head ≠ []) :
    Contract.Kept.callHead (Syntax.Reading.callHead head marks) = dotted (head.map Text.upper) := by
  have hiff := h.isMarkedCall_iff hhead hne
  rw [← String.toList_inj, Contract.Kept.callHead, String.toList_ofList, toList_function hhead hne]
  by_cases hd : marks = .distinct
  · rw [if_pos (hiff.mpr hd), if_pos hd]
    refine List.take_left' ?_
    rw [List.length_append, List.length_cons]
    exact (Nat.add_sub_cancel _ 9).symm
  · rw [if_neg (mt hiff.mp hd), if_neg hd, List.append_nil]

theorem checkHead_ok (hhead : ∀ p ∈ head, IsFunctionPart p) (hne : head ≠ []) (maxDepth depth : Int)
    (st : Entries) : Render.checkHead (.inlining maxDepth depth st)
      (Syntax.Reading.callHead head marks) = .ok () := by
  have hchars : ∀ p ∈ suffixed (markText marks) head, p ≠ "" ∧
      ∀ c ∈ p.toList, c ≠ '.' ∧ c ≠ ';' ∧ c ≠ '\x00' := by
    have hpart : ∀ p, IsFunctionPart p → p ≠ "" ∧
        ∀ c ∈ p.toList, c ≠ '.' ∧ c ≠ ';' ∧ c ≠ '\x00' := by
      intro p hp
      refine ⟨?_, fun c hc => (isFunctionChar_classes (hp.isFunctionChar_of_mem hc)).2.2.1⟩
      rintro rfl
      obtain ⟨_, _, hnil, -⟩ := hp.form
      cases hnil
    have hmark : ∀ c ∈ (markText marks).toList, c ≠ '.' ∧ c ≠ ';' ∧ c ≠ '\x00' := by
      cases marks <;> exact Text.forall_mem_of_all (by decide)
    refine forall_mem_suffixed hhead (fun p hp => ?_) hpart
    obtain ⟨hempty, hall⟩ := hpart p hp
    refine ⟨fun hnil => hempty ?_, fun c hc => ?_⟩
    · rw [← String.toList_eq_nil_iff] at hnil ⊢
      rw [String.toList_append, List.append_eq_nil_iff] at hnil
      exact hnil.1
    · rw [String.toList_append] at hc
      exact (List.mem_append.mp hc).elim (hall c) (hmark c)
  have hparts : Text.parts (· = '.') (String.ofList (Keyword.dropPercent
      (Syntax.Reading.callHead head marks).toList)) = suffixed (markText marks) head := by
    have htext : String.ofList (Keyword.dropPercent (Syntax.Reading.callHead head marks).toList) =
        dotted (suffixed (markText marks) head) := by
      rw [dotted_suffixed _ hne, callHead_eq, Keyword.dropPercent, ← String.toList_append,
        String.ofList_toList]
    obtain ⟨p, ps, hsplit⟩ : ∃ p ps, suffixed (markText marks) head = p :: ps := by
      match head, hne with
      | [p], _ => exact ⟨_, _, rfl⟩
      | p :: q :: qs, _ => exact ⟨_, _, rfl⟩
    rw [htext, hsplit]
    refine parts_intercalate rfl fun q hq c hc => decide_eq_false ?_
    exact ((hchars q (hsplit ▸ hq)).2 c hc).1
  have hall : ∀ ps : List String, (∀ p ∈ ps, p ≠ "" ∧ (∀ c ∈ p.toList, c ≠ '.' ∧ c ≠ ';' ∧ c ≠ '\x00') ∧
      p.length ≤ 63) → ps.forM (m := Except Fault) (fun p => Identifier.check p 63) = .ok () := by
    intro ps hps
    induction ps with
    | nil => rfl
    | cons p ps ih =>
      obtain ⟨⟨hempty, hcs, hlen⟩, hrest⟩ := List.forall_mem_cons.mp hps
      have hsemicolon : ';' ∉ p.toList := fun hc => (hcs _ hc).2.1 rfl
      have hnull : '\x00' ∉ p.toList := fun hc => (hcs _ hc).2.2 rfl
      have hlimit : ¬ ((p.length : Int) > 63) := by omega
      have hcheck : Identifier.check p 63 = .ok () := by
        simp [Identifier.check, Identifier.checkNullBytes, hempty, hsemicolon, hnull, hlimit, bind,
          Except.bind, pure, Except.pure]
      change (Identifier.check p 63 >>= fun _ => ps.forM fun p => Identifier.check p 63) = _
      rw [hcheck]
      exact ih hrest
  rw [Render.checkHead, hparts]
  exact hall _ fun p hp => ⟨(hchars p hp).1, (hchars p hp).2, h.fits p hp⟩

end TellsMark

end Marks

end SqlTree
