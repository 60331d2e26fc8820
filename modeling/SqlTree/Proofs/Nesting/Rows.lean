import SqlTree.Proofs.Parts
import SqlTree.Proofs.Same
import SqlTree.Syntax.Reading.Query
import Mathlib.Data.List.Induction
import Mathlib.Data.List.Sort

/-! Queries in parentheses that have tails: the rows of each query, from the inside out, and the
rows of the one clause map that they become. -/

namespace SqlTree.Nesting

open Syntax (Reading.surround Reading.hasTableExpressions Reading.entry)

section Blocks

/-- What is left open here: how rows are compared, how many a value counts, and which rows a body
has behind common table expressions. -/
structure Database (R : Type) where
  le : Value → R → R → Bool
  amount : Value → Option Nat
  rows : Entries → Entries → List R

variable {R : Type} (db : Database R)

namespace Database

def sort (order : Option Value) (rs : List R) : List R :=
  match order with
  | none => rs
  | some v => rs.insertionSort fun a b => db.le v a b = true

def drop (offset : Option Value) (rs : List R) : List R :=
  match offset.bind db.amount with
  | none => rs
  | some n => rs.drop n

def take (limit : Option Value) (rs : List R) : List R :=
  match limit.bind db.amount with
  | none => rs
  | some n => rs.take n

/-- The clauses behind a body, in the order in which they take effect in one block. -/
def tail (es : Entries) (rs : List R) : List R :=
  db.take (Entries.field? es "limit") (db.drop (Entries.field? es "offset")
    (db.sort (Entries.field? es "order-by") rs))

end Database

def tailKeys : List String := ["order-by", "limit", "offset", "for"]

/-- The keys of all entries are among these. -/
def KeysIn (keys : List String) (es : Entries) : Prop := ∀ e ∈ es, ∃ k ∈ keys, e.1 = .text k

def hasKey (keys : List String) (e : Value × Value) : Bool := e.1.text?.any keys.contains

/-- The common table expressions of a block. -/
def withsOf (es : Entries) : Entries := es.filter (hasKey Clause.tableExpressions)

def bodyOf (es : Entries) : Entries :=
  es.filter fun e => !hasKey (Clause.tableExpressions ++ tailKeys) e

/-- The rows of a clause map as one block. A nested query comes first. -/
def blockRows (scope es : Entries) : List R :=
  db.tail es <|
    match _h : Entries.field? es "nest" with
    | some (.map inner) => blockRows (scope ++ withsOf es) inner
    | _ => db.rows (scope ++ withsOf es) (bodyOf es)
termination_by (Value.map es).height
decreasing_by
  obtain ⟨e, he, hv⟩ := Option.map_eq_some_iff.mp _h
  have hlt := Value.height_lt_of_entry (List.mem_of_find?_eq_some he)
  rwa [hv] at hlt

end Blocks

/-- What stands around a query in parentheses. -/
structure Layer where
  withs : Entries
  tail : Entries

section Layers

/-- The clause map of a body in layers of parentheses, the inmost first. -/
def mapOf (body : Entries) (ls : List Layer) : Entries :=
  ls.foldl (fun es l => Reading.surround l.withs es l.tail) body

/-- The rows of a body in layers of parentheses, where each tail is applied in its turn. -/
def layerRows {R : Type} (db : Database R) (scope body : Entries) (ls : List Layer) : List R :=
  ls.foldl (fun rs l => db.tail l.tail rs)
    (db.rows (scope ++ ls.reverse.flatMap Layer.withs) body)

/-- A clause of the new layer is in the block already. -/
def clashes (es : Entries) (l : Layer) : Bool :=
  (l.tail.any fun e => (Entries.valueAt? es e.1).isSome) ||
    !l.withs.isEmpty && Reading.hasTableExpressions es

def stages : List String := ["order-by", "offset", "limit"]

/-- Nothing in the block takes effect after what the new layer has. -/
def Behind (es : Entries) (l : Layer) : Prop :=
  stages.Pairwise fun early late => ¬ (Entries.hasField es late ∧ Entries.hasField l.tail early)

/-- Every layer is kept apart from what it surrounds, or takes effect behind it. -/
def Aligned (body : Entries) (ls : List Layer) : Prop :=
  ∀ inner l outer, ls = inner ++ l :: outer →
    clashes (mapOf body inner) l = true ∨ Behind (mapOf body inner) l

/-- Layers have clauses of their own only, and bodies have none of these. -/
structure IsLayer (l : Layer) : Prop where
  withs : KeysIn Clause.tableExpressions l.withs
  tail : KeysIn tailKeys l.tail

def bodyKeys : List String :=
  Clause.order.filter fun k => !("nest" :: Clause.tableExpressions ++ tailKeys).contains k

def IsBody (es : Entries) : Prop := KeysIn bodyKeys es

end Layers

section Fields

variable {es fs : Entries} {keys : List String}

theorem field?_append (k : String) :
    Entries.field? (es ++ fs) k = (Entries.field? es k).or (Entries.field? fs k) := by
  simp only [Entries.field?, Entries.valueAt?, List.find?_append]
  cases es.find? fun e => e.1.same (.text k) <;> rfl

theorem field?_eq_none (h : ∀ e ∈ es, e.1 ≠ .text k) : Entries.field? es k = none := by
  rw [Entries.field?, Entries.valueAt?, Option.map_eq_none_iff, List.find?_eq_none]
  exact fun e he hsame => h e he (Value.same_text_iff.mp hsame)

theorem KeysIn.field?_eq_none {k : String} (h : KeysIn keys es) (hk : k ∉ keys) :
    Entries.field? es k = none := by
  refine Nesting.field?_eq_none fun e he hkey => ?_
  obtain ⟨j, hj, hej⟩ := h e he
  rw [hej, Value.text.injEq] at hkey
  exact hk (hkey ▸ hj)

theorem KeysIn.filter_hasKey (h : KeysIn keys es) {others : List String}
    (hsub : ∀ k ∈ keys, k ∈ others) : es.filter (hasKey others) = es := by
  refine List.filter_eq_self.mpr fun e he => ?_
  obtain ⟨k, hk, hek⟩ := h e he
  simpa [hasKey, hek, Value.text?] using hsub k hk

theorem KeysIn.filter_hasKey_nil (h : KeysIn keys es) {others : List String}
    (hsub : ∀ k ∈ keys, k ∉ others) : es.filter (hasKey others) = [] := by
  refine List.filter_eq_nil_iff.mpr fun e he => ?_
  obtain ⟨k, hk, hek⟩ := h e he
  simpa [hasKey, hek, Value.text?] using hsub k hk

end Fields

section Rows

variable {R : Type} (db : Database R) {es body : Entries} {l : Layer} {ls : List Layer}

theorem blockRows_of_nest {inner : Entries} (h : Entries.field? es "nest" = some (.map inner))
    (scope : Entries) :
    blockRows db scope es = db.tail es (blockRows db (scope ++ withsOf es) inner) := by
  rw [blockRows]
  split
  · next heq =>
    rw [h, Option.some.injEq, Value.map.injEq] at heq
    rw [heq]
  · next heq => exact absurd h (heq inner)

theorem blockRows_of_body (h : ∀ inner, Entries.field? es "nest" ≠ some (.map inner))
    (scope : Entries) :
    blockRows db scope es = db.tail es (db.rows (scope ++ withsOf es) (bodyOf es)) := by
  rw [blockRows]
  split
  · next heq => exact absurd heq (h _)
  · rfl

theorem tail_congr {fs : Entries} (h : ∀ k ∈ stages, Entries.field? fs k = Entries.field? es k)
    (rs : List R) : db.tail fs rs = db.tail es rs := by
  have horder := h "order-by" (by decide)
  have hoffset := h "offset" (by decide)
  have hlimit := h "limit" (by decide)
  simp only [Database.tail, horder, hoffset, hlimit]

/-- Two tails have the effect of one if nothing of the second one comes before something of the
first one. -/
theorem tail_append {fs t : Entries}
    (hfield : ∀ k ∈ stages, Entries.field? fs k = (Entries.field? es k).or (Entries.field? t k))
    (hapart : ∀ k ∈ stages, ¬ (Entries.hasField es k ∧ Entries.hasField t k))
    (hbehind : stages.Pairwise fun early late =>
      ¬ (Entries.hasField es late ∧ Entries.hasField t early)) (rs : List R) :
    db.tail fs rs = db.tail t (db.tail es rs) := by
  have horder := hfield "order-by" (by decide)
  have hoffset := hfield "offset" (by decide)
  have hlimit := hfield "limit" (by decide)
  have hone := hapart "order-by" (by decide)
  have htwo := hapart "offset" (by decide)
  have hthree := hapart "limit" (by decide)
  simp only [stages, List.pairwise_cons, List.mem_cons, List.not_mem_nil, or_false, forall_eq_or_imp,
    forall_eq, Entries.hasField] at hbehind hone htwo hthree
  simp only [Database.tail, horder, hoffset, hlimit]
  cases ho : Entries.field? es "order-by" <;> cases hf : Entries.field? es "offset" <;>
    cases hl : Entries.field? es "limit" <;>
    simp_all [Database.sort, Database.drop, Database.take]

theorem withs_append (h : IsLayer l) (es : Entries) :
    withsOf (l.withs ++ es ++ l.tail) = l.withs ++ withsOf es := by
  have hwiths : withsOf l.withs = l.withs := h.withs.filter_hasKey fun _ hk => hk
  have htail : withsOf l.tail = [] := h.tail.filter_hasKey_nil (by decide)
  rw [withsOf, List.filter_append, List.filter_append, ← withsOf, ← withsOf, ← withsOf, hwiths,
    htail, List.append_nil]

theorem body_append (h : IsLayer l) (es : Entries) :
    bodyOf (l.withs ++ es ++ l.tail) = bodyOf es := by
  have hnil : ∀ keys ⊆ Clause.tableExpressions ++ tailKeys, ∀ fs : Entries, KeysIn keys fs →
      bodyOf fs = [] := by
    intro keys hsub fs hfs
    rw [bodyOf, List.filter_eq_nil_iff]
    intro e he
    obtain ⟨k, hk, hek⟩ := hfs e he
    simpa [hasKey, hek, Value.text?, or_iff_not_imp_left] using hsub hk
  rw [bodyOf, List.filter_append, List.filter_append, ← bodyOf, ← bodyOf, ← bodyOf,
    hnil _ (List.subset_append_left _ _) _ h.withs,
    hnil _ (List.subset_append_right _ _) _ h.tail, List.nil_append, List.append_nil]

theorem field?_layer (h : IsLayer l) (es : Entries) {k : String}
    (hk : k ∉ Clause.tableExpressions) : Entries.field? (l.withs ++ es ++ l.tail) k =
      (Entries.field? es k).or (Entries.field? l.tail k) := by
  rw [field?_append, field?_append, h.withs.field?_eq_none hk, Option.none_or]

theorem surround_of_clashes (h : clashes es l = true) : Reading.surround l.withs es l.tail =
    l.withs ++ Reading.entry "nest" (.map es) ++ l.tail := if_pos h

theorem surround_of_apart (h : clashes es l = false) :
    Reading.surround l.withs es l.tail = l.withs ++ es ++ l.tail :=
  if_neg (Bool.eq_false_iff.mp h)

/-- A layer around a nested query takes effect behind it. -/
theorem blockRows_nested (h : IsLayer l) (scope : Entries) :
    blockRows db scope (l.withs ++ Reading.entry "nest" (.map es) ++ l.tail) =
      db.tail l.tail (blockRows db (scope ++ l.withs) es) := by
  have hnest : Entries.field? (l.withs ++ Reading.entry "nest" (.map es) ++ l.tail) "nest" =
      some (.map es) := by
    rw [field?_layer h _ (by decide)]
    rfl
  have hwiths : withsOf (l.withs ++ Reading.entry "nest" (.map es) ++ l.tail) = l.withs := by
    rw [withs_append h]
    exact List.append_nil _
  have htail : ∀ k ∈ stages, Entries.field? (l.withs ++ Reading.entry "nest" (.map es) ++ l.tail) k =
      Entries.field? l.tail k := by
    intro k hk
    have hwith : ∀ k ∈ stages, k ∉ Clause.tableExpressions := by decide
    have hother : ∀ k ∈ stages, k ≠ "nest" := by decide
    have hnone : Entries.field? (Reading.entry "nest" (.map es)) k = none :=
      field?_eq_none fun e he => by
        rw [List.mem_singleton.mp he, ne_eq, Value.text.injEq]
        exact (hother k hk).symm
    rw [field?_layer h _ (hwith k hk), hnone, Option.none_or]
  rw [blockRows_of_nest db hnest, hwiths, tail_congr db htail]

theorem not_both_of_apart (h : clashes es l = false) (k : String) :
    ¬ (Entries.hasField es k ∧ Entries.hasField l.tail k) := by
  rintro ⟨hes, htail⟩
  have hany := (Bool.or_eq_false_iff.mp h).1
  rw [List.any_eq_false] at hany
  obtain ⟨v, hv⟩ := Option.isSome_iff_exists.mp htail
  obtain ⟨e, he, -⟩ := Option.map_eq_some_iff.mp hv
  have hsame := List.find?_some he
  have hkey : e.1 = .text k := Value.same_text_iff.mp hsame
  have hclash := hany e (List.mem_of_find?_eq_some he)
  rw [hkey] at hclash
  exact hclash hes

/-- A layer that is taken into a block takes effect behind it if it has nothing that comes before
something of the block. -/
theorem blockRows_merged (h : IsLayer l) (hapart : clashes es l = false) (hbehind : Behind es l)
    (scope : Entries) : blockRows db scope (l.withs ++ es ++ l.tail) =
      db.tail l.tail (blockRows db (scope ++ l.withs) es) := by
  have hwith : ∀ k ∈ stages, k ∉ Clause.tableExpressions := by decide
  have hfield : ∀ k ∈ stages, Entries.field? (l.withs ++ es ++ l.tail) k =
      (Entries.field? es k).or (Entries.field? l.tail k) :=
    fun k hk => field?_layer h es (hwith k hk)
  have htail := tail_append db hfield (fun k _ => not_both_of_apart hapart k) hbehind
  have hnest : Entries.field? (l.withs ++ es ++ l.tail) "nest" = Entries.field? es "nest" := by
    rw [field?_layer h es (by decide), h.tail.field?_eq_none (by decide), Option.or_none]
  by_cases hinner : ∃ inner, Entries.field? es "nest" = some (.map inner)
  · obtain ⟨inner, hinner⟩ := hinner
    rw [blockRows_of_nest db (hnest.trans hinner), blockRows_of_nest db hinner, htail,
      withs_append h, List.append_assoc]
  · have hbody := not_exists.mp hinner
    rw [blockRows_of_body db fun inner heq => hbody inner (hnest.symm.trans heq),
      blockRows_of_body db hbody, htail, withs_append h, body_append h, List.append_assoc]

/-- A body alone has its own rows. -/
theorem blockRows_body (h : IsBody body) (scope : Entries) :
    blockRows db scope body = db.rows scope body := by
  have hwiths : withsOf body = [] := h.filter_hasKey_nil (by decide)
  have hnone : body.filter (hasKey (Clause.tableExpressions ++ tailKeys)) = [] :=
    h.filter_hasKey_nil (by decide)
  have hbody : bodyOf body = body := by
    refine List.filter_eq_self.mpr fun e he => ?_
    simpa using List.filter_eq_nil_iff.mp hnone e he
  have htail : ∀ k ∈ stages, Entries.field? body k = Entries.field? ([] : Entries) k := by
    intro k hk
    have hother : ∀ k ∈ stages, k ∉ bodyKeys := by decide
    exact h.field?_eq_none (hother k hk)
  have hnest : ∀ inner, Entries.field? body "nest" ≠ some (.map inner) := by
    rw [h.field?_eq_none (by decide)]
    exact nofun
  rw [blockRows_of_body db hnest, hwiths, hbody, List.append_nil, tail_congr db htail]
  rfl

theorem mapOf_append (body : Entries) (ls : List Layer) (l : Layer) :
    mapOf body (ls ++ [l]) = Reading.surround l.withs (mapOf body ls) l.tail := by
  rw [mapOf, List.foldl_append]
  rfl

theorem layerRows_append (scope body : Entries) (ls : List Layer) (l : Layer) :
    layerRows db scope body (ls ++ [l]) = db.tail l.tail (layerRows db (scope ++ l.withs) body ls) := by
  simp [layerRows]

/-- What one more layer does to the rows of the clause map. -/
theorem blockRows_surround (h : IsLayer l)
    (hkept : clashes es l = true ∨ Behind es l) (scope : Entries) :
    blockRows db scope (Reading.surround l.withs es l.tail) =
      db.tail l.tail (blockRows db (scope ++ l.withs) es) := by
  cases hclash : clashes es l with
  | true =>
    rw [surround_of_clashes hclash]
    exact blockRows_nested db h scope
  | false =>
    have hbehind := hkept.resolve_left (by rw [hclash]; decide)
    rw [surround_of_apart hclash]
    exact blockRows_merged db h hclash hbehind scope

/-- Aligned layers become a clause map with the rows that they have. -/
theorem Aligned.blockRows_eq (hbody : IsBody body) (hls : ∀ l ∈ ls, IsLayer l)
    (h : Aligned body ls) (scope : Entries) :
    blockRows db scope (mapOf body ls) = layerRows db scope body ls := by
  induction ls using List.reverseRecOn generalizing scope with
  | nil =>
    rw [layerRows]
    simpa [mapOf] using blockRows_body db hbody scope
  | append_singleton ls l ih =>
    have hinner : Aligned body ls := fun inner m outer heq =>
      h inner m (outer ++ [l]) (by rw [heq, List.append_assoc, List.cons_append])
    have hrows := ih (fun m hm => hls m (List.mem_append_left _ hm)) hinner (scope ++ l.withs)
    rw [mapOf_append, layerRows_append, ← hrows]
    exact blockRows_surround db (hls l (by simp)) (h ls l [] rfl) scope

end Rows

section Exactness

variable {es body : Entries} {l : Layer} {ls : List Layer}

/-- Two rows in descending order, of which every tail takes or drops one. -/
def twoRows : Database Nat := ⟨fun _ a b => a ≤ b, fun _ => some 1, fun _ _ => [2, 1]⟩

def twoRowsTail (order offset limit : Bool) (rs : List Nat) : List Nat :=
  let sorted := if order then rs.insertionSort (· ≤ ·) else rs
  let rest := if offset then sorted.drop 1 else sorted
  if limit then rest.take 1 else rest

theorem twoRows_tail (es : Entries) (rs : List Nat) : twoRows.tail es rs =
    twoRowsTail (Entries.hasField es "order-by") (Entries.hasField es "offset")
      (Entries.hasField es "limit") rs := by
  have hsort : ∀ o rs, twoRows.sort o rs =
      if o.isSome then rs.insertionSort (· ≤ ·) else rs := fun o rs => by
    cases o <;> simp [Database.sort, twoRows]
  have hdrop : ∀ o rs, twoRows.drop o rs = if o.isSome then rs.drop 1 else rs := fun o rs => by
    cases o <;> rfl
  have htake : ∀ o rs, twoRows.take o rs = if o.isSome then rs.take 1 else rs := fun o rs => by
    cases o <;> rfl
  rw [Database.tail, hsort, hdrop, htake]
  rfl

theorem hasField_layer (h : IsLayer l) (es : Entries) {k : String}
    (hk : k ∉ Clause.tableExpressions) : Entries.hasField (l.withs ++ es ++ l.tail) k =
      (Entries.hasField es k || Entries.hasField l.tail k) := by
  rw [Entries.hasField, field?_layer h es hk, Option.isSome_or]
  rfl

/-- What is taken into a block without a nested query has to come behind the block. -/
theorem behind_of_tail_eq (h : IsLayer l) (hapart : clashes es l = false)
    (heq : twoRows.tail (l.withs ++ es ++ l.tail) [2, 1] =
      twoRows.tail l.tail (twoRows.tail es [2, 1])) : Behind es l := by
  have horder := not_both_of_apart hapart "order-by"
  have hoffset := not_both_of_apart hapart "offset"
  have hlimit := not_both_of_apart hapart "limit"
  rw [twoRows_tail, twoRows_tail, twoRows_tail, hasField_layer h es (by decide),
    hasField_layer h es (by decide), hasField_layer h es (by decide)] at heq
  have hall : ∀ o f n o' f' n' : Bool, ¬ (o ∧ o') → ¬ (f ∧ f') → ¬ (n ∧ n') →
      twoRowsTail (o || o') (f || f') (n || n') [2, 1] =
        twoRowsTail o' f' n' (twoRowsTail o f n [2, 1]) →
      ¬ (f ∧ o') ∧ ¬ (n ∧ o') ∧ ¬ (n ∧ f') := by
    intro o f n o' f' n'
    cases o <;> cases f <;> cases n <;> cases o' <;> cases f' <;> cases n' <;> decide
  obtain ⟨hfirst, hsecond, hthird⟩ := hall _ _ _ _ _ _ horder hoffset hlimit heq
  simp only [Behind, stages, List.pairwise_cons, List.mem_cons, List.not_mem_nil, or_false,
    forall_eq_or_imp, forall_eq]
  exact ⟨⟨hfirst, hsecond⟩, hthird, nofun, .nil⟩

/-- One more layer keeps the rows of aligned layers that are a block exactly if it is kept apart or
comes behind the block. -/
theorem Aligned.blockRows_eq_iff (hbody : IsBody body) (hls : ∀ l ∈ ls, IsLayer l)
    (h : Aligned body ls) (hl : IsLayer l)
    (hblock : ∀ inner, Entries.field? (mapOf body ls) "nest" ≠ some (.map inner)) :
    (∀ (R : Type) (db : Database R) (scope : Entries),
      blockRows db scope (mapOf body (ls ++ [l])) = layerRows db scope body (ls ++ [l])) ↔
    clashes (mapOf body ls) l = true ∨ Behind (mapOf body ls) l := by
  constructor
  · intro heq
    cases hclash : clashes (mapOf body ls) l with
    | true => exact .inl rfl
    | false =>
      refine .inr (behind_of_tail_eq hl hclash ?_)
      have hrows := heq Nat twoRows []
      have hnest : ∀ inner, Entries.field? (l.withs ++ mapOf body ls ++ l.tail) "nest" ≠
          some (.map inner) := by
        rw [field?_layer hl _ (by decide), hl.tail.field?_eq_none (by decide), Option.or_none]
        exact hblock
      rw [mapOf_append, surround_of_apart hclash, layerRows_append, ← h.blockRows_eq _ hbody hls,
        blockRows_of_body _ hnest, blockRows_of_body _ hblock] at hrows
      exact hrows
  · intro hkept R db scope
    rw [mapOf_append, layerRows_append, ← h.blockRows_eq db hbody hls]
    exact blockRows_surround db hl hkept scope

end Exactness

end SqlTree.Nesting
