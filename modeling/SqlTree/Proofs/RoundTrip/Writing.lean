import SqlTree.Proofs.RoundTrip.PlainName
import SqlTree.Proofs.RoundTrip.Parsing
import SqlTree.Syntax.Reading.Basic
import SqlTree.Proofs.Parts
import SqlTree.Format

/-!
What values are rendered to with their literals in place, under the settings that hold unless a
caller asks for others, when no limit on the depth is in the way.
-/

namespace SqlTree

open Lexer (Spells nameToken)

def Settings.inlining (maxDepth depth : Int) (statement : Entries) : Settings where
  dialect := .postgres
  registry := .standard
  clauseOrder := Clause.order
  quoted := false
  quotedSnake := false
  inline := true
  numbered := true
  params := []
  checking := .none
  nullTests := true
  maxDepth
  depth
  statement

namespace Fragment

/-- The text of a fragment that holds no places. -/
def inlineSql (f : Fragment) : String := f.sql .postgres true

@[simp] theorem inlineSql_nil : inlineSql [] = "" := rfl

@[simp] theorem inlineSql_append (f g : Fragment) : (f ++ g).inlineSql = f.inlineSql ++ g.inlineSql :=
  sql_append _ _ f g

@[simp] theorem inlineSql_text (s : String) (f : Fragment) :
    inlineSql (.text s :: f) = s ++ f.inlineSql :=
  inlineSql_append [.text s] f |>.trans (by simp [inlineSql, sql, Piece.sql])

@[simp] theorem inlineSql_literal (s : String) : inlineSql [.literal s] = s := by
  simp [inlineSql, sql, Piece.sql]

@[simp] theorem inlineSql_ofText (s : String) : (ofText s).inlineSql = s := by
  simp [ofText]

theorem inlineSql_parens (f : Fragment) : (parens f).inlineSql = "(" ++ f.inlineSql ++ ")" := by
  simp [parens, between, String.append_assoc]

theorem inlineSql_after (s : String) (f : Fragment) : (after s f).inlineSql = s ++ f.inlineSql := by
  simp [after]

theorem isBlank_eq_false {f : Fragment} {ts : List Token} (h : Spells f.inlineSql ts) :
    f.isBlank = false := by
  rw [Bool.eq_false_iff]
  intro hblank
  refine h.ne_empty ?_
  have hp : ∀ p ∈ f, p.sql .postgres true = "" := by
    intro p hp
    have := List.all_eq_true.mp hblank p hp
    cases p <;> simp_all [Piece.isBlank, Piece.sql]
  clear h hblank
  induction f with
  | nil => rfl
  | cons p f ih =>
    have hcons : inlineSql (p :: f) = p.sql .postgres true ++ inlineSql f := by
      simp [inlineSql, sql]
    rw [hcons, hp p (by simp), ih fun q hq => hp q (by simp [hq])]
    rfl

/-- Fragments with the same text between them. -/
theorem spells_joined (separator : String) (ms : List Token)
    (hsep : ∀ s t ts us, Spells s ts → Spells t us → Spells (s ++ separator ++ t) (ts ++ (ms ++ us)))
    {fs : List Fragment} {tss : List (List Token)}
    (h : List.Forall₂ (fun f ts => Spells (inlineSql f) ts) fs tss) {f : Fragment} {ts : List Token}
    (hf : Spells f.inlineSql ts) :
    Spells (joined separator (f :: fs)).inlineSql (ts ++ tss.flatMap (ms ++ ·)) := by
  induction h generalizing f ts with
  | nil => simpa [joined] using hf
  | cons hg _ ih =>
    have hall := hsep _ _ _ _ hf (ih hg)
    simpa [joined, String.append_assoc] using hall

theorem spells_spaced {fs : List Fragment} {tss : List (List Token)} (hne : fs ≠ [])
    (h : List.Forall₂ (fun f ts => Spells (inlineSql f) ts) fs tss) :
    Spells (joined " " fs).inlineSql tss.flatten := by
  cases h with
  | nil => contradiction
  | cons hf h =>
    have hall := spells_joined " " [] (fun _ _ _ _ hs ht => hs.space ht) h hf
    simpa [List.flatMap_def] using hall

theorem spells_commas {fs : List Fragment} {tss : List (List Token)} (hne : fs ≠ [])
    (h : List.Forall₂ (fun f ts => Spells (inlineSql f) ts) fs tss) :
    Spells (commas fs).inlineSql (Syntax.Parser.commaTokens tss) := by
  cases h with
  | nil => contradiction
  | cons hf h =>
    rw [Syntax.Parser.commaTokens_cons]
    exact spells_joined ", " [.symbol ","] (fun _ _ _ _ hs ht => hs.comma ht) h hf

end Fragment

namespace Render

/-- With at least `h` levels of fuel and enough levels below the limit, the rendering yields `a`. -/
def Gives {α : Type} (h : Nat) (m : Renderer → Settings → Render α) (a : α) : Prop :=
  ∃ levels : Nat, ∀ n, h ≤ n → ∀ (maxDepth depth : Int) statement, depth + levels ≤ maxDepth →
    ∀ c, m (upTo n) (.inlining maxDepth depth statement) c = .ok (a, c)

namespace Gives

variable {α β : Type} {h h' : Nat} {m : Renderer → Settings → Render α} {a : α}

theorem mono (hm : Gives h m a) (hle : h ≤ h') : Gives h' m a := by
  obtain ⟨k, hk⟩ := hm
  exact ⟨k, fun n hn => hk n (Nat.le_trans hle hn)⟩

theorem pure (a : α) : Gives h (fun _ _ => pure a) a := ⟨0, fun _ _ _ _ _ _ _ => rfl⟩

theorem bind {f : α → Renderer → Settings → Render β} {b : β} (hm : Gives h m a)
    (hf : Gives h (f a) b) : Gives h (fun r s => m r s >>= fun a => f a r s) b := by
  obtain ⟨j, hj⟩ := hm
  obtain ⟨k, hk⟩ := hf
  refine ⟨max j k, fun n hn maxDepth depth st hd c => ?_⟩
  change (m (upTo n) (.inlining maxDepth depth st) c).bind _ = _
  rw [hj n hn maxDepth depth st (by omega) c]
  exact hk n hn maxDepth depth st (by omega) c

theorem map {f : α → β} (hm : Gives h m a) : Gives h (fun r s => do return f (← m r s)) (f a) :=
  hm.bind (.pure _)

theorem congr {m' : Renderer → Settings → Render α} (hm : Gives h m a)
    (heq : ∀ r maxDepth depth statement, m' r (.inlining maxDepth depth statement) =
      m r (.inlining maxDepth depth statement)) : Gives h m' a := by
  obtain ⟨k, hk⟩ := hm
  refine ⟨k, fun n hn maxDepth depth st hd c => ?_⟩
  rw [heq]
  exact hk n hn maxDepth depth st hd c

theorem mapM {ι : Type} {m : Renderer → Settings → ι → Render α} {xs : List ι} {as : List α}
    (hm : List.Forall₂ (fun x a => Gives h (fun r s => m r s x) a) xs as) :
    Gives h (fun r s => xs.mapM (m r s)) as := by
  induction hm with
  | nil => exact .pure []
  | cons hx _ ih =>
    simp only [List.mapM_cons]
    exact hx.bind ih.map

theorem words {t : Settings → Except Fault String} {u : String}
    (ht : ∀ maxDepth depth statement, t (.inlining maxDepth depth statement) = .ok u) :
    Gives h (fun _ s => words (t s)) (.ofText u) := by
  refine ⟨0, fun n _ maxDepth depth st _ c => ?_⟩
  change Render.words (t _) c = _
  rw [ht]
  rfl

/-- An expression is rendered one level deeper. -/
theorem deeper {nested : Bool} {v : Value} {f : Fragment}
    (hm : Gives h (fun r s => expression r s (statement r · true) nested v) f) :
    Gives (h + 1) (fun r s => r.expr s nested v) f := by
  obtain ⟨k, hk⟩ := hm
  refine ⟨k + 1, fun n hn maxDepth depth st hd c => ?_⟩
  obtain ⟨n, rfl⟩ : ∃ m, n = m + 1 := ⟨n - 1, by omega⟩
  have hin : ¬ depth + 1 > maxDepth := by omega
  have hcheck : checkDepth (.inlining maxDepth (depth + 1) st) = Pure.pure () := if_neg hin
  change (checkDepth (.inlining maxDepth (depth + 1) st) >>= fun _ =>
    expression (upTo n) (.inlining maxDepth (depth + 1) st) (statement (upTo n) · true) nested v) c = _
  rw [hcheck]
  exact hk n (by omega) maxDepth (depth + 1) st (by omega) c

end Gives

/-- The value is rendered to a text of these tokens. -/
def Writes (nested : Bool) (v : Value) (ts : List Token) : Prop :=
  ∃ f, Gives (v.height + 1) (fun r s => r.expr s nested v) f ∧ Spells f.inlineSql ts

theorem namePart_inlining {t : String} (h : PlainPart t) (maxDepth depth : Int) (st : Entries) :
    namePart (.inlining maxDepth depth st) t = .ok t := by
  have hcheck : Identifier.check t (Settings.inlining maxDepth depth st).dialect.maxIdentifierLength =
      .ok () := h.check_ok
  have hq : ((Settings.inlining maxDepth depth st).quoted || Identifier.needsQuoting t) = false := by
    rw [h.needsQuoting_eq_false]
    rfl
  rw [namePart, if_neg h.ne_star, hcheck, hq]
  rfl

theorem star_not_separator : ∀ c ∈ "*".toList, isPathSeparator c = false := by
  simp [isPathSeparator]

/-- The parts of a name are rendered one by one. -/
theorem nameText_parts {p w : String} {ps ws : List String} {maxDepth depth : Int} {st : Entries}
    (hsep : ∀ q ∈ p :: ps, ∀ c ∈ q.toList, isPathSeparator c = false)
    (h : List.Forall₂ (fun q w => namePart (.inlining maxDepth depth st) q = .ok w) (p :: ps)
      (w :: ws)) :
    nameText (.inlining maxDepth depth st) (dotted (p :: ps)) = .ok (dotted (w :: ws)) := by
  have hparts : ∀ qs us : List String,
      List.Forall₂ (fun q w => namePart (.inlining maxDepth depth st) q = .ok w) qs us →
      qs.mapM (namePart (.inlining maxDepth depth st)) = .ok us := by
    intro qs us hus
    induction hus with
    | nil => rfl
    | cons hq _ ih =>
      rw [List.mapM_cons, hq, ih]
      rfl
  change (do return ".".intercalate (← (Text.parts isPathSeparator (dotted (p :: ps))).mapM
    (namePart (.inlining maxDepth depth st)))) = _
  rw [parts_intercalate rfl hsep, hparts _ _ h]
  rfl

theorem nameText_dotted {p : String} (ps : List String) (maxDepth depth : Int) (st : Entries)
    (hsep : ∀ q ∈ p :: ps, ∀ c ∈ q.toList, isPathSeparator c = false)
    (h : ∀ q ∈ p :: ps, namePart (.inlining maxDepth depth st) q = .ok q) :
    nameText (.inlining maxDepth depth st) (dotted (p :: ps)) = .ok (dotted (p :: ps)) :=
  nameText_parts hsep (List.forall₂_same.mpr h)

theorem nameText_plain {p : String} {ps : List String} (h : ∀ q ∈ p :: ps, PlainPart q)
    (maxDepth depth : Int) (st : Entries) :
    nameText (.inlining maxDepth depth st) (dotted (p :: ps)) = .ok (dotted (p :: ps)) :=
  nameText_dotted _ maxDepth depth st (fun q hq _ => (h q hq).not_separator)
    fun q hq => namePart_inlining (h q hq) maxDepth depth st

theorem nameText_star {p : String} {ps : List String} (h : ∀ q ∈ p :: ps, PlainPart q)
    (maxDepth depth : Int) (st : Entries) :
    nameText (.inlining maxDepth depth st) (dotted (p :: ps) ++ ".*") =
      .ok (dotted (p :: ps) ++ ".*") := by
  have hstar : ∀ q ∈ p :: (ps ++ ["*"]), PlainPart q ∨ q = "*" := by
    intro q hq
    simp only [List.mem_cons, List.mem_append, List.not_mem_nil, or_false] at hq
    rcases hq with rfl | hq | rfl
    · exact .inl (h q (by simp))
    · exact .inl (h q (by simp [hq]))
    · exact .inr rfl
  rw [← dotted_star]
  refine nameText_dotted _ maxDepth depth st (fun q hq => ?_) fun q hq => ?_
  · rcases hstar q hq with hq | rfl
    · exact fun _ => hq.not_separator
    · exact star_not_separator
  · rcases hstar q hq with hq | rfl
    · exact namePart_inlining hq maxDepth depth st
    · rfl

theorem ident_of_not_percent {t : String} (ht : ∀ rest, t.toList ≠ '%' :: rest) (s : Settings) :
    ident s t = nameText s t := by
  rw [ident]
  split
  · next h => exact absurd h (ht _)
  · rfl

theorem not_percent {p : String} (ps : List String) (t : String) (hp : PlainPart p) (rest : List Char) :
    (dotted (p :: ps) ++ t).toList ≠ '%' :: rest := by
  obtain ⟨c, cs, hc, hlow⟩ := exists_toList_dotted ps hp
  rw [String.toList_append, hc]
  exact fun h => absurd (List.cons.inj h).1 (isLowerStart_classes hlow).2.2.2.1

theorem writes_ident {t u : String} {ts : List Token} (hid : Identifier.isIdentText t = true)
    (hu : ∀ maxDepth depth st, ident (.inlining maxDepth depth st) t = .ok u) (hs : Spells u ts)
    (nested : Bool) : Writes nested (.text t) ts := by
  refine ⟨.ofText u, .deeper (.congr (.words (t := (ident · t)) hu) fun r m d st => ?_), ?_⟩
  · rw [expression, if_pos hid]
  · rwa [Fragment.inlineSql_ofText]

theorem writes_column {p : String} {ps : List String} (hp : PlainPart p)
    (hps : ∀ q ∈ ps, PlainPart q) (nested : Bool) :
    Writes nested (.text (dotted (p :: ps))) (pathTokens (p :: ps)) := by
  refine writes_ident (isIdentText_dotted hp hps) (fun m d st => ?_) (spells_dotted hp hps) nested
  have hpercent := not_percent ps "" hp
  rw [String.append_empty] at hpercent
  rw [ident_of_not_percent hpercent]
  exact nameText_plain (List.forall_mem_cons.mpr ⟨hp, hps⟩) m d st

theorem writes_columnStar {p : String} {ps : List String} (hp : PlainPart p)
    (hps : ∀ q ∈ ps, PlainPart q) (nested : Bool) :
    Writes nested (.text (dotted (p :: ps) ++ ".*"))
      (pathTokens (p :: ps) ++ [.symbol ".", .symbol "*"]) := by
  refine writes_ident (isIdentText_dotted_star hp hps) (fun m d st => ?_)
    (spells_dotted_star hp hps) nested
  rw [ident_of_not_percent (not_percent ps ".*" hp)]
  exact nameText_star (List.forall_mem_cons.mpr ⟨hp, hps⟩) m d st

theorem writes_star (nested : Bool) : Writes nested (.text "*") [.symbol "*"] := by
  refine writes_ident rfl (fun m d st => ?_) (Lexer.spells_sign (by decide)) nested
  have hsep : ∀ q ∈ ["*"], ∀ c ∈ q.toList, isPathSeparator c = false := by
    rw [List.forall_mem_singleton]
    exact star_not_separator
  have h := nameText_dotted [] m d st hsep (by simp [namePart]; rfl)
  rwa [dotted, String.intercalate_singleton] at h

section Literals

theorem gives_literal {v : Value} {t : String} (ht : Literal.render .postgres v = .ok t) (h : Nat) :
    Gives h (fun _ s => literal s v) [.literal t] := by
  refine ⟨0, fun n _ m d st _ c => ?_⟩
  change (do return [Piece.literal (← (Literal.render .postgres v : Except Fault String))] :
    Render Fragment) c = _
  rw [ht]
  rfl

theorem writes_untyped {v : Value} {t : String} {ts : List Token}
    (ht : Literal.render .postgres v = .ok t) (hs : Spells t ts) (nested : Bool) :
    Writes nested (Syntax.untyped v) ts := by
  refine ⟨[.literal t], .deeper ((gives_literal ht _).congr fun r m d st => ?_), ?_⟩
  · cases v <;> rfl
  · rwa [Fragment.inlineSql_literal]

theorem writes_int {n : Int} (nested : Bool) :
    Writes nested (Syntax.untyped (.int n))
      (if n < 0 then [.symbol "-", .number n.natAbs.repr] else [.number n.natAbs.repr]) := by
  refine writes_untyped (t := n.repr) rfl ?_ nested
  rw [Int.repr_eq_if]
  split
  · rw [if_neg (by omega), show n.natAbs = n.toNat by omega]
    exact Lexer.spells_nat _
  · rw [if_pos (by omega), show n.natAbs = (-n).toNat by omega]
    exact Lexer.spells_neg _

theorem writes_string (s : String) (nested : Bool) :
    Writes nested (Syntax.untyped (.text s)) [.string (Text.enclosed "'" s "'")] :=
  writes_untyped rfl (Lexer.spells_string s) nested

/-- The word for a truth value. -/
def truthToken (b : Bool) : Token := if b then nameToken "TRUE" else nameToken "FALSE"

theorem spells_truth (b : Bool) : Spells (if b then "TRUE" else "FALSE") [truthToken b] := by
  cases b <;> exact Lexer.spells_word rfl

theorem writes_bool (b : Bool) (nested : Bool) :
    Writes nested (Syntax.untyped (.bool b)) [truthToken b] :=
  writes_untyped rfl (spells_truth b) nested

theorem writes_null (nested : Bool) : Writes nested .null [nameToken "NULL"] := by
  refine ⟨[.literal "NULL"], .deeper ((gives_literal rfl _).congr fun r m d st => rfl), ?_⟩
  rw [Fragment.inlineSql_literal]
  exact Lexer.spells_word rfl

theorem writes_truth (b nested : Bool) : Writes nested (.bool b) [truthToken b] := by
  refine ⟨[.literal (if b then "TRUE" else "FALSE")],
    .deeper ((gives_literal rfl _).congr fun r m d st => rfl), ?_⟩
  rw [Fragment.inlineSql_literal]
  exact spells_truth b

end Literals

end Render

end SqlTree
