import SqlTree.Proofs.RoundTrip.Canonical
import SqlTree.Proofs.Same

/-! What the parts of a query are read as: values that are the same as those that were written,
though the entries of maps may have changed places. -/

namespace SqlTree

open Syntax (Read Reads headed untyped)

theorem same_headed {head : String} {vs ws : List Value}
    (h : List.Forall₂ (fun v w => v.same w = true) vs ws) :
    (headed head vs).same (headed head ws) = true :=
  Value.same_list (.cons (Value.same_text_self head) h)

theorem same_typed {v : Value} (h : v.same v = true) (type : String) :
    (Value.typed v type).same (.typed v type) = true := by
  refine Value.same_map rfl fun e he => ⟨e, he, ?_⟩
  obtain rfl := List.mem_singleton.mp he
  exact ⟨Value.same_text_self _, h⟩

theorem same_untyped {v : Value} (h : v.same v = true) : (untyped v).same (untyped v) = true :=
  same_typed h Form.valueKey

theorem Expressible.same_self {v : Value} (h : Expressible v) : v.same v = true := by
  have hall : ∀ vs : List Value, (∀ x ∈ vs, x.same x = true) →
      List.Forall₂ (fun v w => v.same w = true) vs vs := fun vs h => List.forall₂_same.mpr h
  induction h with
  | column => exact Value.same_text_self _
  | int => exact same_untyped (Value.same_int_self _)
  | string s => exact same_untyped (Value.same_text_self s)
  | bool b => exact same_untyped (Value.same_bool_self b)
  | binary _ _ _ ihv ihw => exact same_headed (.cons ihv (.cons ihw .nil))
  | comparison _ _ _ ihv ihw => exact same_headed (.cons ihv (.cons ihw .nil))
  | predicate _ _ _ _ ihv ihw => exact same_headed (.cons ihv (.cons ihw .nil))
  | test _ t _ ihv =>
    have ht : t.operand.same t.operand = true := by
      cases t
      · rfl
      · exact Value.same_bool_self true
      · exact Value.same_bool_self false
    exact same_headed (.cons ihv (.cons ht .nil))
  | chain _ _ _ _ ihv ihw ihvs => exact same_headed (.cons ihv (.cons ihw (hall _ ihvs)))
  | inValues _ _ _ _ _ ihv ihw ihws =>
    exact same_headed (.cons ihv (.cons (Value.same_list (.cons ihw (hall _ ihws))) .nil))
  | inRow _ _ _ _ _ ihv ihw ihws =>
    exact same_headed (.cons ihv (.cons (same_headed (.cons ihw (hall _ ihws))) .nil))

/-- Readings of which each yields something are made one after the other. -/
theorem exists_reads_mapM {ι α : Type} {R : ι → α → Prop} {xs : List ι} {rs : List (Read α)}
    (h : List.Forall₂ (fun x r => ∃ a, Reads r a ∧ R x a) xs rs) :
    ∃ as, Reads (rs.mapM id) as ∧ List.Forall₂ R xs as := by
  induction h with
  | nil => exact ⟨[], .pure [], .nil⟩
  | cons hr _ ih =>
    obtain ⟨a, ha, hx⟩ := hr
    obtain ⟨as, has, hxs⟩ := ih
    refine ⟨a :: as, ?_, .cons hx hxs⟩
    rw [List.mapM_cons]
    exact ha.bind has.map

/-- The reading yields a value that is the same as `v`. -/
def Agrees (r : Read Value) (v : Value) : Prop := ∃ w, Reads r w ∧ w.same v = true

namespace Agrees

variable {r : Read Value} {v : Value}

theorem of_reads (h : Reads r v) (hv : v.same v = true) : Agrees r v := ⟨v, h, hv⟩

theorem visit (h : Agrees r v) : Agrees (Syntax.visit r) v := by
  obtain ⟨w, hw, hs⟩ := h
  exact ⟨w, hw.visit, hs⟩

theorem mapM {rs : List (Read Value)} {vs : List Value} (h : List.Forall₂ Agrees rs vs) :
    ∃ ws, Reads (rs.mapM id) ws ∧ List.Forall₂ (fun w v => w.same v = true) ws vs := by
  obtain ⟨ws, hws, hss⟩ := exists_reads_mapM (R := fun (v w : Value) => w.same v = true) h.flip
  exact ⟨ws, hws, hss.flip⟩

theorem visitAll {rs : List (Read Value)} {vs : List Value} (h : List.Forall₂ Agrees rs vs) :
    ∃ ws, Reads (Syntax.visitAll rs) ws ∧ List.Forall₂ (fun w v => w.same v = true) ws vs := by
  obtain ⟨ws, hws, hss⟩ := mapM h
  exact ⟨ws, hws.visit, hss⟩

end Agrees

/-- The entry of a clause, or none if the clause is missing. -/
def EntryOf (c : QueryClause) (v : Option Value) (es : Entries) : Prop :=
  match v with
  | none => es = []
  | some v => ∃ w, es = [(.text c.key, w)] ∧ w.same v = true

/-- The entries of some clauses, in their order. -/
def EntriesOf (val : QueryClause → Option Value) (cs : List QueryClause) (es : Entries) : Prop :=
  ∃ ess, List.Forall₂ (fun c es => EntryOf c (val c) es) cs ess ∧ es = ess.flatten

namespace EntriesOf

variable {val : QueryClause → Option Value} {c : QueryClause} {cs ds : List QueryClause}
  {es fs : Entries}

theorem single (h : EntryOf c (val c) es) : EntriesOf val [c] es :=
  ⟨[es], .cons h .nil, by simp⟩

theorem append (h : EntriesOf val cs es) (h' : EntriesOf val ds fs) :
    EntriesOf val (cs ++ ds) (es ++ fs) := by
  obtain ⟨ess, hess, rfl⟩ := h
  obtain ⟨fss, hfss, rfl⟩ := h'
  exact ⟨ess ++ fss, List.rel_append hess hfss, by simp⟩

theorem absent (h : ∀ c ∈ cs, val c = none) : EntriesOf val cs [] := by
  induction cs with
  | nil => exact ⟨[], .nil, rfl⟩
  | cons c cs ih =>
    have hc : EntryOf c (val c) [] := by
      rw [h c (by simp)]
      rfl
    exact (single hc).append (ih fun d hd => h d (by simp [hd]))

end EntriesOf

/-- The reading yields the entries of some clauses. -/
def AgreesOn (val : QueryClause → Option Value) (cs : List QueryClause) (r : Read Entries) : Prop :=
  ∃ es, Reads r es ∧ EntriesOf val cs es

namespace AgreesOn

variable {val : QueryClause → Option Value} {c : QueryClause} {cs : List QueryClause}
  {r : Read Entries}

theorem absent (h : ∀ c ∈ cs, val c = none) : AgreesOn val cs (pure []) := ⟨[], .pure [], .absent h⟩

theorem present {r : Read Value} {v : Value} (hc : val c = some v) (h : Agrees r v) :
    AgreesOn val [c] (do return Syntax.Reading.entry c.key (← r)) := by
  obtain ⟨w, hw, hs⟩ := h
  refine ⟨_, hw.map, .single ?_⟩
  rw [hc]
  exact ⟨w, rfl, hs⟩

theorem visit (h : AgreesOn val cs r) : AgreesOn val cs (Syntax.visit r) := by
  obtain ⟨es, hes, he⟩ := h
  exact ⟨es, hes.visit, he⟩

end AgreesOn

section Trees

variable {k : Syntax.Kind}

theorem read_ofList (ts : List (Syntax.Tree k)) :
    (Syntax.Tree.ofList ts).read = ts.map Syntax.Tree.read := by
  induction ts with
  | nil => rfl
  | cons t ts ih =>
    rw [Syntax.Tree.ofList, Syntax.Tree.read, ih]
    rfl

theorem read_ofOption (t : Option (Syntax.Tree k)) :
    (Syntax.Tree.ofOption t).read = t.map Syntax.Tree.read := by
  cases t <;> rfl

end Trees

end SqlTree
