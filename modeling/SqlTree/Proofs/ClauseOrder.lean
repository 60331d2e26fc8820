import SqlTree.Proofs.Registrations
import SqlTree.Proofs.Coupling.Rebinding
import SqlTree.Proofs.Coupling.Statement
import SqlTree.Proofs.Same
import Mathlib.Data.List.ReduceOption

/-!
Which clauses a statement is rendered from. Each entry of a statement map whose value is not null is
rendered once, in the order of the dialect, wherever it stands in the map.
-/

namespace SqlTree

open Render Render.Traced

namespace Entries

/-- No two keys are the same, as in every map. -/
def Distinct (es : Entries) : Prop := es.Pairwise fun e f => e.1.same f.1 = false

variable {es : Entries}

theorem field?_eq_some_iff (h : Distinct es) {key : String} {v : Value} :
    field? es key = some v ↔ (.text key, v) ∈ es := by
  induction es with
  | nil => simp [field?, valueAt?]
  | cons e es ih =>
    obtain ⟨hhead, htail⟩ := List.pairwise_cons.mp h
    have hrest := ih htail
    unfold field? valueAt? at hrest ⊢
    rw [List.find?_cons]
    by_cases hkey : e.1.same (.text key) = true
    · have hfst : e.1 = .text key := Value.same_text_iff.mp hkey
      rw [hkey, Option.map_some, Option.some.injEq, List.mem_cons]
      constructor
      · rintro rfl
        exact .inl (by rw [← hfst])
      · rintro (rfl | hmem)
        · rfl
        · have hne := hhead _ hmem
          rw [hfst, Value.same_text_self] at hne
          cases hne
    · rw [Bool.eq_false_iff.mpr hkey, List.mem_cons]
      refine hrest.trans ⟨.inr, fun hmem => hmem.resolve_left ?_⟩
      rintro rfl
      exact hkey (Value.same_text_self key)

/-- Where an entry stands in a map does not matter. -/
theorem field?_eq_of_perm {fs : Entries} (h : Distinct es) (hfs : Distinct fs) (hperm : fs.Perm es)
    (key : String) : field? fs key = field? es key := by
  ext v
  rw [field?_eq_some_iff h, field?_eq_some_iff hfs, hperm.mem_iff]

end Entries

namespace Fragment

theorem sql_joined (d : Dialect) (numbered : Bool) (separator : String) (fs : List Fragment) :
    (joined separator fs).sql d numbered = separator.intercalate (fs.map (sql d numbered)) := by
  induction fs with
  | nil => rfl
  | cons f fs ih =>
    cases fs with
    | nil => simp [joined]
    | cons g gs =>
      have hstep : (joined separator (f :: g :: gs)).sql d numbered =
          f.sql d numbered ++ (separator ++ (joined separator (g :: gs)).sql d numbered) := by
        change sql d numbered (f ++ .text separator :: joined separator (g :: gs)) = _
        rw [sql_append, sql_cons]
        rfl
      rw [hstep, ih]
      simp [String.append_assoc]

theorem values_joined (separator : String) (fs : List Fragment) :
    (joined separator fs).values = fs.flatMap values := by
  simp only [values_eq_slots, slots_joined]
  induction fs with
  | nil => rfl
  | cons f fs ih => simp [ih, values_eq_slots]

theorem piece_sql_eq_empty_iff (d : Dialect) (numbered : Bool) (p : Piece) :
    p.sql d numbered = "" ↔ p.isBlank = true := by
  cases p with
  | text t => simp [Piece.sql, Piece.isBlank]
  | literal t => simp [Piece.sql, Piece.isBlank]
  | slot i v => cases numbered <;> simp [Piece.sql, Piece.isBlank, Dialect.placeholder]

/-- A fragment is blank if and only if its text is empty. -/
theorem sql_eq_empty_iff (d : Dialect) (numbered : Bool) (f : Fragment) :
    f.sql d numbered = "" ↔ f.isBlank = true := by
  induction f with
  | nil => simp [sql, isBlank]
  | cons p f ih =>
    have hblank : isBlank (p :: f) = (p.isBlank && isBlank f) := rfl
    rw [sql_cons, String.append_eq_empty_iff, piece_sql_eq_empty_iff, ih, hblank, Bool.and_eq_true]

end Fragment

/-- A clause that a statement has, with the form that is registered for it. -/
structure Present where
  key : String
  form : ClauseForm
  value : Value

namespace Present

def entry (p : Present) : Value × Value := (.text p.key, p.value)

def text (r : Renderer) (s : Settings) (p : Present) : Render Fragment :=
  clause r s p.form p.key p.value

end Present

/-- The clause `key` of a statement, unless it is missing or null. -/
def present? (registry : Registry) (es : Entries) (key : String) : Option Present :=
  match Entries.field? es key, registry.clause? key with
  | none, _ => none
  | some .null, _ => none
  | some _, none => none
  | some v, some form => some ⟨key, form, v⟩

section Statement

variable {r : Renderer} {s : Settings} {es : Entries}

theorem clauseOf_eq_present (key : String) :
    clauseOf r s es key = match present? s.registry es key with
      | none => pure none
      | some p => do
        let f ← p.text r s
        return if f.isBlank then none else some f := by
  unfold clauseOf present?
  generalize Entries.field? es key = v
  generalize s.registry.clause? key = form
  cases v with
  | none => rfl
  | some v => cases v <;> cases form <;> rfl

/-- The clauses in an order, those left out that are missing, null or blank. -/
theorem reduceOption_clauses (keys : List String) :
    List.reduceOption <$> keys.mapM (clauseOf r s es) =
      List.filter (fun f => !f.isBlank) <$>
        (keys.filterMap (present? s.registry es)).mapM (Present.text r s) := by
  induction keys with
  | nil => rfl
  | cons key keys ih =>
    rw [List.mapM_cons, clauseOf_eq_present, List.filterMap_cons]
    cases present? s.registry es key with
    | none =>
      rw [← ih, pure_bind, map_bind, map_eq_pure_bind]
      simp only [map_pure, List.reduceOption_cons_of_none]
    | some p =>
      rw [List.mapM_cons]
      simp only [bind_assoc, pure_bind, map_bind, map_pure]
      congr 1
      funext f
      -- a blank fragment is left out on both sides, any other one is kept
      by_cases hf : f.isBlank = true
      · have hkept : ∀ fs, (f :: fs : List Fragment).filter (fun f => !f.isBlank) =
            fs.filter fun f => !f.isBlank := fun fs => by simp [hf]
        simp only [hf, if_true, List.reduceOption_cons_of_none, hkept]
        rw [← map_eq_pure_bind, ← map_eq_pure_bind, ih]
      · have hkept : ∀ fs, (f :: fs : List Fragment).filter (fun f => !f.isBlank) =
            f :: fs.filter fun f => !f.isBlank := fun fs => by simp [hf]
        have htail := congrArg (List.cons f <$> ·) ih
        simpa only [if_neg hf, List.reduceOption_cons_of_some, hkept, map_eq_pure_bind, bind_assoc,
          pure_bind] using htail

/-- The clauses of a statement in an order. -/
def present (registry : Registry) (order : List String) (es : Entries) : List Present :=
  order.filterMap (present? registry es)

theorem statement_eq_present (h : checkKeys s es = .ok ()) (nested : Bool) :
    statement r s nested es = do
      let fs ← (present s.registry s.clauseOrder es).mapM (Present.text r (s.within es))
      return Fragment.parensIf nested (Fragment.joined " " (fs.filter fun f => !f.isBlank)) := by
  have hclauses : List.reduceOption <$> s.clauseOrder.mapM (clauseOf r (s.within es) es) =
      List.filter (fun f => !f.isBlank) <$>
        (present s.registry s.clauseOrder es).mapM (Present.text r (s.within es)) :=
    reduceOption_clauses s.clauseOrder
  let finish : List Fragment → Fragment := fun fs => Fragment.parensIf nested (Fragment.joined " " fs)
  have hstatement : statement r s nested es =
      finish <$> List.reduceOption <$> s.clauseOrder.mapM (clauseOf r (s.within es) es) := by
    unfold statement
    rw [h, lift_ok_bind, Functor.map_map, map_eq_pure_bind]
  rw [hstatement, hclauses, Functor.map_map, map_eq_pure_bind]

end Statement

section Present

variable {registry : Registry} {order : List String} {es : Entries} {p : Present} {key : String}

theorem present?_eq_some_iff : present? registry es key = some p ↔
    p.key = key ∧ Entries.field? es key = some p.value ∧ p.value ≠ .null ∧
      registry.clause? key = some p.form := by
  obtain ⟨k, form, v⟩ := p
  unfold present?
  split
  · next h => simp [h]
  · next h =>
    simp only [reduceCtorEq, h, Option.some.injEq, false_iff]
    rintro ⟨-, rfl, hne, -⟩
    exact hne rfl
  · next h => simp [h]
  · next w form' hne hw hform =>
    simp only [hw, hform, Option.some.injEq, Present.mk.injEq]
    constructor
    · rintro ⟨rfl, rfl, rfl⟩
      exact ⟨rfl, rfl, hne, rfl⟩
    · rintro ⟨rfl, rfl, -, rfl⟩
      exact ⟨rfl, rfl, rfl⟩

theorem mem_present : p ∈ present registry order es ↔
    p.key ∈ order ∧ Entries.field? es p.key = some p.value ∧ p.value ≠ .null ∧
      registry.clause? p.key = some p.form := by
  unfold present
  rw [List.mem_filterMap]
  constructor
  · rintro ⟨key, hkey, hp⟩
    obtain ⟨rfl, hrest⟩ := present?_eq_some_iff.mp hp
    exact ⟨hkey, hrest⟩
  · rintro ⟨hkey, hrest⟩
    exact ⟨p.key, hkey, present?_eq_some_iff.mpr ⟨rfl, hrest⟩⟩

theorem present_keys_sublist : ((present registry order es).map Present.key).Sublist order := by
  unfold present
  induction order with
  | nil => exact .slnil
  | cons key order ih =>
    rw [List.filterMap_cons]
    cases h : present? registry es key with
    | none => exact ih.cons key
    | some p =>
      obtain ⟨rfl, -⟩ := present?_eq_some_iff.mp h
      exact ih.cons_cons p.key

/-- The key has a form in the registry. -/
def Registry.Knows (registry : Registry) (key : Value) : Prop :=
  ∃ t, key = .text t ∧ (registry.clause? t).isSome

theorem isNull_eq_false_iff {v : Value} : isNull v = false ↔ v ≠ .null := by
  cases v <;> simp [isNull]

theorem distinct_iff_nodup (hes : ∀ e ∈ es, registry.Knows e.1) :
    Entries.Distinct es ↔ (es.map (·.1)).Nodup := by
  unfold Entries.Distinct List.Nodup
  rw [List.pairwise_map]
  refine List.Pairwise.iff_of_mem fun {e f} he _ => ?_
  obtain ⟨t, ht, -⟩ := hes e he
  rw [ht, Bool.eq_false_iff, Ne, Value.text_same_iff, eq_comm]

/-- The entries of a statement that have a value are its clauses, each of them once. -/
theorem present_perm (hsound : registry.IsSound) (horder : order.Perm registry.clauseOrder)
    (hes : Entries.Distinct es) (hknown : ∀ e ∈ es, registry.Knows e.1) :
    ((present registry order es).map Present.entry).Perm (es.filter fun e => !isNull e.2) := by
  have hkeys : ((present registry order es).map Present.key).Nodup :=
    present_keys_sublist.nodup (horder.nodup_iff.mpr hsound.nodup)
  have hentries : ((present registry order es).map Present.entry).Nodup := by
    refine List.Nodup.of_map Prod.fst ?_
    rw [List.map_map]
    have hfst : Prod.fst ∘ Present.entry = Value.text ∘ Present.key := rfl
    rw [hfst, ← List.map_map]
    exact hkeys.map fun _ _ h => by simpa using h
  have hnodup : es.Nodup := .of_map _ ((distinct_iff_nodup hknown).mp hes)
  refine (List.perm_ext_iff_of_nodup hentries (hnodup.filter _)).mpr fun e => ?_
  rw [List.mem_map, List.mem_filter]
  constructor
  · rintro ⟨p, hp, rfl⟩
    obtain ⟨-, hvalue, hne, -⟩ := mem_present.mp hp
    refine ⟨(Entries.field?_eq_some_iff hes).mp hvalue, ?_⟩
    rw [Present.entry, isNull_eq_false_iff.mpr hne]
    rfl
  · rintro ⟨he, hne⟩
    obtain ⟨t, ht, hform⟩ := hknown e he
    obtain ⟨form, hform⟩ := Option.isSome_iff_exists.mp hform
    refine ⟨⟨t, form, e.2⟩, mem_present.mpr ⟨?_, ?_, ?_, hform⟩, ?_⟩
    · refine horder.mem_iff.mpr ((hsound.mem_keys t).mpr ?_)
      by_contra hkey
      rw [Registry.clause?_eq_none_iff.mpr hkey] at hform
      cases hform
    · refine (Entries.field?_eq_some_iff hes).mpr ?_
      rwa [← ht]
    · exact isNull_eq_false_iff.mp (by simpa using hne)
    · rw [Present.entry, ← ht]

variable {s : Settings}

theorem knows_iff {key : Value} :
    registry.Knows key ↔ key.text?.any registry.clauseKeys.contains = true := by
  unfold Registry.Knows
  cases key with
  | text t =>
    have hsome : (registry.clause? t).isSome = true ↔ t ∈ registry.clauseKeys := by
      rw [Option.isSome_iff_ne_none, Ne, Registry.clause?_eq_none_iff, not_not]
    simp [Value.text?, hsome]
  | _ => simp [Value.text?]

theorem unknownKeys_eq_nil_iff :
    unknownKeys registry.clauseKeys es = [] ↔ ∀ e ∈ es, registry.Knows e.1 := by
  unfold unknownKeys
  rw [List.map_eq_nil_iff, List.filter_eq_nil_iff]
  simp only [knows_iff, Bool.not_eq_true', Bool.not_eq_false]

theorem checkKeys_eq_ok (h : ∀ e ∈ es, s.registry.Knows e.1) : checkKeys s es = .ok () := by
  have hunknown : unknownKeys s.registry.clauseKeys es = [] := unknownKeys_eq_nil_iff.mpr h
  simp only [checkKeys, hunknown, List.isEmpty_nil, if_true]

theorem checkKeys_eq_error (h : ¬ ∀ e ∈ es, s.registry.Knows e.1) :
    checkKeys s es = .error (.unknownClause (unknownKeys s.registry.clauseKeys es)
      (sortedTexts s.registry.clauseKeys)) := by
  have hunknown : ¬ (unknownKeys s.registry.clauseKeys es).isEmpty = true := by
    rwa [List.isEmpty_iff, unknownKeys_eq_nil_iff]
  exact if_neg hunknown

end Present

section Reordering

/-- The settings are for two statements that have a condition both or neither. -/
def Restated (s s' : Settings) : Prop :=
  ∃ statement, hasCondition s.statement = hasCondition statement ∧ s' = { s with statement }

theorem Alike.self (s : Settings) : Alike (.rebinding Eq fun _ => rfl) s s := by
  constructor
  case bind =>
    rintro v _ rfl
    unfold Render.bind
    split
    · exact .literal rfl v
    · refine ⟨fun n m hn => ?_⟩
      subst hn
      exact ⟨extends_slot n v, .cons (.slot _ rfl) .nil, rfl⟩
  case param => exact fun key => .refl _ _
  case checkDepth => exact .refusal rfl (.pure rfl rfl)
  case emptySide =>
    intro keyword f g hfg
    exact .refusal (congrArg (Fault.emptyMembership · keyword _) (Rebound.fragment_sql_eq _ _ hfg))
      (.pure rfl (.ofText _))
  case guard =>
    intro verb f g hfg
    exact .refusal (congrArg (Fault.unguarded verb · _) (Rebound.fragment_sql_eq _ _ hfg))
      (.pure rfl rfl)
  all_goals rfl

theorem Restated.alike {s s' : Settings} (h : Restated s s') :
    Alike (.rebinding Eq fun _ => rfl) s s' := by
  obtain ⟨statement, hcondition, rfl⟩ := h
  have hguard : ∀ verb f, Render.guard { s with statement } verb f = Render.guard s verb f := by
    intro verb f
    unfold Render.guard
    dsimp only [Settings.checks]
    rw [← hcondition]
    rfl
  refine { Alike.self s with guard := fun verb f g hfg => ?_ }
  rw [hguard]
  exact (Alike.self s).guard verb hfg

theorem Restated.simulation :
    Simulation (.rebinding Eq fun _ => rfl) Restated fun _ => True where
  alike := Restated.alike
  operators := by
    rintro s _ v head args ⟨statement, -, rfl⟩ - -
    exact .refl _ _
  within := by
    rintro s _ es ⟨statement, -, rfl⟩
    exact ⟨es, rfl, rfl⟩
  inner := by
    rintro s _ ⟨statement, hcondition, rfl⟩
    exact ⟨statement, hcondition, rfl⟩
  inlined := by
    rintro s _ _ _ _ _ ⟨statement, hcondition, rfl⟩ - - - -
    exact ⟨statement, hcondition, rfl⟩
  null := trivial
  element _ _ _ := trivial
  entry _ _ := trivial

theorem Rebound.eq {f g : Fragment} (h : List.Forall₂ (Rebound Eq) f g) : f = g := by
  induction h with
  | nil => rfl
  | cons h _ ih =>
    subst ih
    cases h with
    | slot i hv => rw [hv]
    | _ => rfl

theorem eq_of_rebinding {x y : Render Fragment}
    (h : Parallel (.rebinding Eq fun _ => rfl) [] x y) : x = y := by
  funext n
  have hrun := h.run n n rfl
  rcases hx : x n with e | ⟨f, m⟩ <;> rcases hy : y n with e' | ⟨g, m'⟩ <;> rw [hx, hy] at hrun
  · exact congrArg Except.error hrun
  · exact hrun.elim
  · exact hrun.2.elim
  · obtain ⟨-, hfg, rfl⟩ := hrun
    rw [Rebound.eq hfg]

variable {es fs : Entries}

theorem restated_of_perm (s : Settings) (hes : Entries.Distinct es) (hfs : Entries.Distinct fs)
    (hperm : fs.Perm es) : Restated (s.within es) (s.within fs) := by
  refine ⟨fs, ?_, rfl⟩
  change hasCondition es = hasCondition fs
  unfold hasCondition
  rw [Entries.field?_eq_of_perm hes hfs hperm]

theorem statement_of_perm (n : Nat) (s : Settings) (nested : Bool) (hes : Entries.Distinct es)
    (hfs : Entries.Distinct fs) (hperm : fs.Perm es) (hknown : checkKeys s es = .ok ())
    (hknown' : checkKeys s fs = .ok ()) :
    statement (upTo n) s nested fs = statement (upTo n) s nested es := by
  have hr := Restated.simulation.upTo n
  have hsettings := restated_of_perm s hes hfs hperm
  refine (eq_of_rebinding ?_).symm
  unfold statement
  rw [hknown, hknown', lift_ok_bind, lift_ok_bind]
  refine .bind (.mapM_same fun key _ => ?_) fun _ _ h =>
    .pure (by simp) ((h.reduceOption.joined _).parensIf nested)
  have hclause : clauseOf (upTo n) (s.within fs) fs key = clauseOf (upTo n) (s.within fs) es key := by
    unfold clauseOf
    rw [Entries.field?_eq_of_perm hes hfs hperm]
  rw [hclause]
  exact hr.clauseOf hsettings trivial key

end Reordering

section Layout

variable {r : Renderer} {s : Settings} {es : Entries}

/-- Fragments with spaces between those that are not blank, and all their values in their order. -/
theorem spaced_fragments (d : Dialect) (numbered : Bool) (fs : List Fragment) :
    (Fragment.joined " " (fs.filter fun f => !f.isBlank)).sql d numbered =
        " ".intercalate ((fs.map (·.sql d numbered)).filter (· ≠ "")) ∧
      (Fragment.joined " " (fs.filter fun f => !f.isBlank)).values = fs.flatMap Fragment.values := by
  rw [Fragment.sql_joined, Fragment.values_joined]
  constructor
  · rw [List.filter_map]
    congr 3
    funext f
    have hiff := Fragment.sql_eq_empty_iff d numbered f
    cases hf : f.isBlank <;> simp_all
  · induction fs with
    | nil => rfl
    | cons f fs ih =>
      by_cases hf : f.isBlank = true
      · have hvalues : f.values = [] := by
          rw [Fragment.values_eq_slots, slots_of_isBlank hf]
          rfl
        simp [hf, ih, hvalues]
      · simp [hf, ih]

theorem parensIf_sql (d : Dialect) (numbered nested : Bool) (f : Fragment) :
    (Fragment.parensIf nested f).sql d numbered =
      if nested then "(" ++ f.sql d numbered ++ ")" else f.sql d numbered := by
  cases nested with
  | false => rfl
  | true =>
    change Fragment.sql d numbered (.text "(" :: f ++ [.text ")"]) = _
    rw [List.cons_append, Fragment.sql_cons, Fragment.sql_append, if_pos rfl, String.append_assoc]
    rfl

theorem parensIf_values (nested : Bool) (f : Fragment) :
    (Fragment.parensIf nested f).values = f.values := by
  rw [Fragment.values_eq_slots, Fragment.values_eq_slots, slots_parensIf]

/-- What a statement comes to is what its clauses come to, one after the other. -/
theorem statement_eq_ok (h : checkKeys s es = .ok ()) {nested : Bool} {k m : Nat} {f : Fragment}
    (hf : statement r s nested es k = .ok (f, m)) :
    ∃ fs, (present s.registry s.clauseOrder es).mapM (Present.text r (s.within es)) k = .ok (fs, m) ∧
      f = Fragment.parensIf nested (Fragment.joined " " (fs.filter fun f => !f.isBlank)) := by
  rw [statement_eq_present h] at hf
  simp only [Bind.bind, StateT.bind, Except.bind] at hf
  split at hf
  · cases hf
  · next r hr =>
    cases hf
    exact ⟨r.1, hr, rfl⟩

end Layout

/-- Whatever was registered, every clause with a form has one place in the order of every dialect. So
a statement with an unknown key is refused, and any other one is rendered from each of its entries
that is not null, once, in the order of the dialect, wherever the entries stand in the map. -/
theorem statement_of_registries (calls : List Call) {registry : Registry}
    (hregistry : registry ∈ registries calls) :
    (registry.clauseOrder.Nodup ∧ (∀ key, key ∈ registry.clauseOrder ↔ key ∈ registry.clauseKeys) ∧
      ∀ d : Dialect, (d.clauseOrder registry.clauseOrder).Perm registry.clauseOrder) ∧
    ∀ s : Settings, s.registry = registry →
      s.clauseOrder = s.dialect.clauseOrder registry.clauseOrder →
      ∀ (n : Nat) (nested : Bool) (es : Entries), es.Distinct →
        ((¬ ∀ e ∈ es, registry.Knows e.1) →
          statement (upTo n) s nested es = fail (.unknownClause
            (unknownKeys registry.clauseKeys es) (sortedTexts registry.clauseKeys))) ∧
        ((∀ e ∈ es, registry.Knows e.1) →
          (∃ parts : List Present,
            (parts.map Present.entry).Perm (es.filter fun e => !isNull e.2) ∧
            (parts.map Present.key).Sublist s.clauseOrder ∧
            (∀ p ∈ parts, registry.clause? p.key = some p.form) ∧
            ∀ k f m, statement (upTo n) s nested es k = .ok (f, m) →
              ∃ fs, parts.mapM (Present.text (upTo n) (s.within es)) k = .ok (fs, m) ∧
                (∀ d numbered, f.sql d numbered =
                  let t := " ".intercalate ((fs.map (·.sql d numbered)).filter (· ≠ ""))
                  if nested then "(" ++ t ++ ")" else t) ∧
                f.values = fs.flatMap Fragment.values) ∧
          ∀ es', es'.Perm es →
            statement (upTo n) s nested es' = statement (upTo n) s nested es) := by
  have hsound := Registry.IsSound.of_registries hregistry
  refine ⟨⟨hsound.nodup, hsound.mem_keys, fun d => d.clauseOrder_perm hsound.nodup⟩, ?_⟩
  rintro s rfl horder n nested es hes
  have hperm : s.clauseOrder.Perm s.registry.clauseOrder :=
    horder ▸ s.dialect.clauseOrder_perm hsound.nodup
  constructor
  · intro hunknown
    unfold statement
    rw [checkKeys_eq_error hunknown]
    rfl
  · intro hknown
    have hcheck := checkKeys_eq_ok hknown
    constructor
    · refine ⟨present s.registry s.clauseOrder es, present_perm hsound hperm hes hknown,
        present_keys_sublist, fun p hp => (mem_present.mp hp).2.2.2, fun k f m hf => ?_⟩
      obtain ⟨fs, hfs, rfl⟩ := statement_eq_ok hcheck hf
      refine ⟨fs, hfs, fun d numbered => ?_, ?_⟩
      · rw [parensIf_sql, (spaced_fragments d numbered fs).1]
      · rw [parensIf_values, (spaced_fragments s.dialect s.numbered fs).2]
    · intro es' hes'
      have hknown' : ∀ e ∈ es', s.registry.Knows e.1 := fun e he => hknown e (hes'.mem_iff.mp he)
      have hdistinct : es'.Distinct := by
        rw [distinct_iff_nodup hknown', (hes'.map _).nodup_iff]
        exact (distinct_iff_nodup hknown).mp hes
      exact statement_of_perm n s nested hes hdistinct hes' hcheck (checkKeys_eq_ok hknown')

section Samples

/-- A copy of the first registry with one clause more; registering it anew fails. -/
def qualifyCalls : List Call :=
  [.copy 0, .register 1 (.clause "qualify" (.form .condition) (some "order-by")),
   .register 1 (.clause "qualify" (.other .null) none)]

def qualifyRegistry : Registry := (registries qualifyCalls).getD 1 .base

def qualifySettings : Settings :=
  (Settings.ofOptions qualifyRegistry { dialect := some "mysql" }).toOption.getD default

/-- A statement whose entries stand in no order of clauses. -/
def qualifying : Entries :=
  [(.text "order-by", .text "b"), (.text "qualify", .text "c"), (.text "where", .null),
   (.text "select", .text "a"), (.text "from", .text "t")]

theorem statement_of_qualify :
    qualifyRegistry ∈ registries qualifyCalls ∧ qualifying.Distinct ∧
      (∀ e ∈ qualifying, qualifyRegistry.Knows e.1) ∧ qualifying.reverse.Perm qualifying ∧
      statement (upTo 2) qualifySettings false qualifying.reverse =
        statement (upTo 2) qualifySettings false qualifying ∧
      (statement (upTo 2) qualifySettings false qualifying 0).toOption.map
        (fun r => r.1.sql .mysql false) = some "SELECT a FROM t QUALIFY c ORDER BY b" := by
  have hregistry : qualifyRegistry ∈ registries qualifyCalls := by
    refine List.mem_of_getElem? (i := 1) ?_
    rfl
  have hdistinct : qualifying.Distinct := by
    unfold Entries.Distinct
    decide
  have hknown : ∀ e ∈ qualifying, qualifyRegistry.Knows e.1 := by
    intro e he
    rw [knows_iff]
    revert e
    decide
  have hreverse : qualifying.reverse.Perm qualifying := List.reverse_perm _
  have hstatement := (statement_of_registries qualifyCalls hregistry).2 qualifySettings rfl rfl 2
    false qualifying hdistinct
  refine ⟨hregistry, hdistinct, hknown, hreverse, (hstatement.2 hknown).2 _ hreverse, ?_⟩
  decide +kernel

end Samples

end SqlTree
