import Mathlib.Data.List.Sort
import Mathlib.Data.String.Basic
import SqlTree.Proofs.Coupling.Rebinding

/-!
Parameters in a rendering. Where no array writes its arguments as literals, the text is the same
whatever the parameters hold, so long as an array stands for an array of the same length.
-/

namespace SqlTree

open Render Render.Traced

namespace Value

/-- An array with one of the names as its head, in any case. -/
def isHeaded (heads : List String) (v : Value) : Bool :=
  match v.items? with
  | some (.text head :: _) => heads.contains (Text.lower head)
  | _ => false

mutual

/-- No array in the value, at any depth, is headed by one of the names. -/
def lacks (heads : List String) : Value → Bool
  | .list vs => !isHeaded heads (.list vs) && allLack heads vs
  | .tuple vs => !isHeaded heads (.tuple vs) && allLack heads vs
  | .set vs => allLack heads vs
  | .map es => entriesLack heads es
  | _ => true

def allLack (heads : List String) : List Value → Bool
  | [] => true
  | v :: vs => lacks heads v && allLack heads vs

def entriesLack (heads : List String) : List (Value × Value) → Bool
  | [] => true
  | (k, v) :: es => lacks heads k && lacks heads v && entriesLack heads es

end

variable {heads : List String}

theorem allLack_iff {vs : List Value} : allLack heads vs ↔ ∀ v ∈ vs, lacks heads v := by
  induction vs with
  | nil => simp [allLack]
  | cons v vs ih => simp [allLack, ih]

theorem entriesLack_iff {es : Entries} :
    entriesLack heads es ↔ ∀ e ∈ es, lacks heads e.1 ∧ lacks heads e.2 := by
  induction es with
  | nil => simp [entriesLack]
  | cons e es ih => simp [entriesLack, ih]

theorem not_isHeaded {v : Value} (h : lacks heads v) : isHeaded heads v = false := by
  cases v with
  | list vs => simp_all [lacks]
  | tuple vs => simp_all [lacks]
  | _ => rfl

theorem lacks_element {v w : Value} {vs : List Value} (h : lacks heads v)
    (hvs : v.elements? = some vs) (hw : w ∈ vs) : lacks heads w := by
  cases v <;> simp only [elements?, reduceCtorEq, Option.some.injEq] at hvs <;> subst hvs
  case list vs =>
    rw [lacks, Bool.and_eq_true] at h
    exact allLack_iff.mp h.2 w hw
  case tuple vs =>
    rw [lacks, Bool.and_eq_true] at h
    exact allLack_iff.mp h.2 w hw
  case set vs =>
    rw [lacks] at h
    exact allLack_iff.mp h w hw
  case map es =>
    rw [lacks] at h
    obtain ⟨e, he, rfl⟩ := List.mem_map.mp hw
    exact (entriesLack_iff.mp h e he).1
  all_goals
    obtain ⟨c, -, rfl⟩ := List.mem_map.mp hw
    rfl

theorem hereditary_lacks (heads : List String) : Hereditary fun v => lacks heads v where
  null := rfl
  element := lacks_element
  entry := by
    intro es e h he
    rw [lacks] at h
    exact (entriesLack_iff.mp h e he).2

end Value

theorem Render.sortedTexts_eq_of_perm {ts us : List String} (h : ts.Perm us) :
    sortedTexts ts = sortedTexts us := by
  have hperm : (sortedTexts ts).Perm (sortedTexts us) :=
    (List.mergeSort_perm ts _).trans (h.trans (List.mergeSort_perm us _).symm)
  exact hperm.eq_of_sortedLE List.sortedLE_mergeSort List.sortedLE_mergeSort

/-- The names of the forms that write literals whatever the settings. -/
def literalHeads : List String := ["inline", "interval", "at-time-zone"]

theorem Registry.standard_inlines {op : String} {form : SpecialForm}
    (h : Registry.standard.form? op = some form) (hform : form.inlines = true) :
    op ∈ literalHeads := by
  have hall : ∀ e ∈ Registry.standard.forms, e.2.inlines = true → e.1 ∈ literalHeads := by decide
  obtain ⟨l₁, l₂, hl, -⟩ := List.lookup_eq_some_iff.mp h
  exact hall (op, form) (by simp [hl]) hform

/-- No other spelling of an operator is a name of such a form. -/
theorem Registry.normalize_mem_literalHeads {head : String}
    (h : Registry.normalize head ∈ literalHeads) : Text.lower head ∈ literalHeads := by
  have hall : ∀ e ∈ Operator.aliases, e.2 ∉ literalHeads := by decide
  change (Operator.aliases.lookup (Text.lower head)).getD (Text.lower head) ∈ literalHeads at h
  cases hop : Operator.aliases.lookup (Text.lower head) with
  | none => simpa [hop] using h
  | some op =>
    obtain ⟨l₁, l₂, hl, -⟩ := List.lookup_eq_some_iff.mp hop
    rw [hop] at h
    exact absurd h (hall (Text.lower head, op) (by simp [hl]))

section Parameters

variable {p q : List (String × Value)}

/-- Both values are no array, or both are arrays of one length. -/
def Value.SameShape (v w : Value) : Prop := Option.Rel (·.length = ·.length) v.items? w.items?

/-- Parameters with the same keys, and for each key values of the same shape. -/
structure SameShapes (p q : List (String × Value)) : Prop where
  keys : (p.map (·.1)).Perm (q.map (·.1))
  values : ∀ key v w, p.lookup key = some v → q.lookup key = some w → v.SameShape w

/-- The same value, or what the two give for one key, or for one place in the array of a key. -/
inductive Corresponding (p q : List (String × Value)) : Value → Value → Prop
  | same (v : Value) : Corresponding p q v v
  | value {key : String} {v w : Value} (hp : p.lookup key = some v) (hq : q.lookup key = some w) :
    Corresponding p q v w
  | item {key : String} {v w : Value} {vs ws : List Value} (hp : p.lookup key = some v)
    (hq : q.lookup key = some w) (hvs : v.items? = some vs) (hws : w.items? = some ws) {i : Nat}
    (hv : i < vs.length) (hw : i < ws.length) : Corresponding p q vs[i] ws[i]

namespace SameShapes

variable (h : SameShapes p q)

include h

theorem lookup_eq_none_iff {key : String} : p.lookup key = none ↔ q.lookup key = none := by
  have hmem : ∀ r : List (String × Value), r.lookup key = none ↔ key ∉ r.map (·.1) := by
    intro r
    rw [List.lookup_eq_none_iff, List.mem_map, not_exists]
    simp only [bne_iff_ne, not_and]
    exact forall₂_congr fun e _ => ne_comm
  rw [hmem, hmem, h.keys.mem_iff]

theorem items {key : String} {v w : Value} (hp : p.lookup key = some v)
    (hq : q.lookup key = some w) :
    Option.Rel (List.Forall₂ (Corresponding p q)) v.items? w.items? := by
  have hshape := h.values key v w hp hq
  unfold Value.SameShape at hshape
  cases hvs : v.items? <;> cases hws : w.items? <;> rw [hvs, hws] at hshape <;> cases hshape
  · exact .none
  · next hlength =>
    refine .some (List.forall₂_iff_get.mpr ⟨hlength, fun i hv hw => ?_⟩)
    exact .item hp hq hvs hws hv hw

theorem param_alike (s : Settings) (key : Value) :
    ParamAlike (.rebinding (Corresponding p q) .same) (param { s with params := p } key)
      (param { s with params := q } key) := by
  unfold param
  dsimp only
  cases hp : p.lookup key.shown with
  | none =>
    rw [h.lookup_eq_none_iff.mp hp, sortedTexts_eq_of_perm h.keys]
    exact .error rfl
  | some v =>
    cases hq : q.lookup key.shown with
    | none =>
      rw [h.lookup_eq_none_iff.mpr hq] at hp
      cases hp
    | some w => exact .ok (.value hp hq) (h.items hp hq)

end SameShapes

/-- The settings bind values, and `q` holds in them for `p`. -/
def Reparameterized (p q : List (String × Value)) (s s' : Settings) : Prop :=
  s.registry = .standard ∧ s.inline = false ∧ s.params = p ∧ s' = { s with params := q }

theorem Render.bind_eq_slot {s : Settings} (hs : s.inline = false) (v : Value) (n : Nat) :
    bind s v n = .ok ([.slot (n + 1) v], n + 1) := by
  unfold bind
  rw [hs]
  rfl

theorem Reparameterized.alike (h : SameShapes p q) {s s' : Settings}
    (hs : Reparameterized p q s s') : Alike (.rebinding (Corresponding p q) .same) s s' := by
  obtain ⟨-, hinline, rfl, rfl⟩ := hs
  constructor
  case bind =>
    intro v w hvw
    refine ⟨fun n _ hn => ?_⟩
    subst hn
    rw [bind_eq_slot hinline, bind_eq_slot (s := { s with params := q }) hinline]
    exact ⟨extends_slot n v, .cons (.slot _ hvw) .nil, rfl⟩
  case param => exact h.param_alike s
  case checkDepth => exact .refusal rfl (.pure rfl rfl)
  case emptySide =>
    intro keyword f g hfg
    exact .refusal (congrArg (Fault.emptyMembership · keyword _) (Rebound.fragment_sql_eq _ _ hfg))
      (.pure rfl (.ofText _))
  case guard =>
    intro verb f g hfg
    exact .refusal (congrArg (Fault.unguarded verb · _) (Rebound.fragment_sql_eq _ _ hfg))
      (.pure rfl rfl)
  all_goals rfl

theorem Reparameterized.simulation (h : SameShapes p q) :
    Simulation (.rebinding (Corresponding p q) .same) (Reparameterized p q)
      fun v => v.lacks literalHeads where
  alike := Reparameterized.alike h
  operators := by
    rintro s _ v head args ⟨-, -, -, rfl⟩ - -
    exact .refl _ _
  within := by
    rintro s _ es ⟨hregistry, hinline, hp, rfl⟩
    exact ⟨hregistry, hinline, hp, rfl⟩
  inner := by
    rintro s _ ⟨hregistry, hinline, hp, rfl⟩
    exact ⟨hregistry, hinline, hp, rfl⟩
  inlined := by
    rintro s _ v head args form ⟨hregistry, -⟩ hv hitems hform hinlines
    rw [hregistry] at hform
    have hhead := Registry.normalize_mem_literalHeads (Registry.standard_inlines hform hinlines)
    have hheaded : v.isHeaded literalHeads = true := by
      simpa [Value.isHeaded, hitems] using hhead
    rw [Value.not_isHeaded hv] at hheaded
    cases hheaded
  null := (Value.hereditary_lacks literalHeads).null
  element := (Value.hereditary_lacks literalHeads).element
  entry := (Value.hereditary_lacks literalHeads).entry

theorem Settings.ofOptions_params (registry : Registry) (o : Options)
    (params : List (String × Value)) :
    Settings.ofOptions registry { o with params } =
      (Settings.ofOptions registry o).map ({ · with params }) := by
  unfold Settings.ofOptions
  cases Dialect.ofName (o.dialect.getD "postgres") with
  | error e => rfl
  | ok d => cases Checking.ofName o.checking <;> rfl

/-- What formatting makes of a rendering. -/
def Settings.formatted (s : Settings) (r : Except Fault (Fragment × Nat)) : Except Fault Formatted :=
  r.map fun a => ⟨a.1.sql s.dialect s.numbered, a.1.values⟩

theorem format_with_params {registry : Registry} {o : Options} {s : Settings}
    (hs : Settings.ofOptions registry o = .ok s) (params : List (String × Value)) (data : Value) :
    format registry { o with params } data = s.formatted (fragment { s with params } data 0) := by
  unfold format
  rw [Settings.ofOptions_params, hs]
  change ((fragment { s with params } data).run' 0 >>= _) = _
  unfold StateT.run' Settings.formatted
  change ((Prod.fst <$> fragment { s with params } data 0) >>= _) = _
  cases fragment { s with params } data 0 <;> rfl

/-- Renderings whose places hold related values. -/
theorem Settings.formatted_cases {s : Settings} {R : Value → Value → Prop} {hR : ∀ v, R v v}
    {r r' : Except Fault (Fragment × Nat)}
    (h : (Coupling.rebinding R hR).Outcome [] 0 r r') :
    (∃ e, s.formatted r = .error e ∧ s.formatted r' = .error e) ∨
      ∃ sql vs ws, s.formatted r = .ok ⟨sql, vs⟩ ∧ s.formatted r' = .ok ⟨sql, ws⟩ ∧
        List.Forall₂ R vs ws := by
  rcases r with e | ⟨f, n⟩ <;> rcases r' with e' | ⟨g, m⟩
  · obtain rfl : e = e' := h
    exact .inl ⟨e, rfl, rfl⟩
  · exact h.elim
  · exact h.2.elim
  · obtain ⟨-, hfg, -⟩ := h
    refine .inr ⟨f.sql s.dialect s.numbered, f.values, g.values, rfl, ?_, ?_⟩
    · rw [Rebound.fragment_sql_eq s.dialect s.numbered hfg]
      rfl
    · exact Rebound.fragment_values hfg

/-- The values of parameters do not influence the text, nor whether and how a rendering fails. Each
bound value is the same for both, or what both have for one parameter. -/
theorem format_params_irrelevant (o : Options) {data : Value} (hdata : data.lacks literalHeads)
    (h : SameShapes p q) :
    (∃ e, format .standard { o with inline := false, params := p } data = .error e ∧
        format .standard { o with inline := false, params := q } data = .error e) ∨
      ∃ sql vs ws, format .standard { o with inline := false, params := p } data = .ok ⟨sql, vs⟩ ∧
        format .standard { o with inline := false, params := q } data = .ok ⟨sql, ws⟩ ∧
        List.Forall₂ (Corresponding p q) vs ws := by
  cases hs : Settings.ofOptions .standard { o with inline := false } with
  | error e =>
    have hfails : ∀ params, format .standard { o with inline := false, params } data = .error e := by
      intro params
      rw [format, Settings.ofOptions_params .standard { o with inline := false }, hs]
      rfl
    exact .inl ⟨e, hfails p, hfails q⟩
  | ok s =>
    obtain ⟨hregistry, hinline, -⟩ := Settings.ofOptions_keeps hs
    have hsettings : Reparameterized p q { s with params := p } { s with params := q } :=
      ⟨hregistry, hinline, rfl, rfl⟩
    have hrun := (((Reparameterized.simulation h).upTo (data.height + 1)).fragmentBy
      hsettings hdata).run 0 0 rfl
    rw [format_with_params hs p, format_with_params hs q]
    exact Settings.formatted_cases hrun

section Membership

/-- A membership test and a comparison with parameters on their right sides. -/
def idsAndName : Value :=
  .list [.text "and", .list [.text "in", .text "a", .param (.text "ids")],
    .list [.text "=", .text "b", .param (.text "name")]]

def plainParams : List (String × Value) :=
  [("ids", .list [.int 1, .int 2]), ("name", .text "x")]

/-- Values that look like SQL text, a name and an operation. -/
def disguisedParams : List (String × Value) :=
  [("name", .raw (.text "1 OR 1 = 1")), ("ids", .tuple [.text "b", .list [.text "inline"]])]

theorem sameShapes_disguised : SameShapes plainParams disguisedParams where
  keys := .swap _ _ _
  values key v w hp hq := by
    by_cases hids : key = "ids"
    · subst hids
      cases hp
      cases hq
      exact .some rfl
    · by_cases hname : key = "name"
      · subst hname
        cases hp
        cases hq
        exact .none
      · have hnone : plainParams.lookup key = none := by
          rw [List.lookup_eq_none_iff]
          simp [plainParams, hids, hname]
        rw [hnone] at hp
        cases hp

theorem params_irrelevant_for_membership :
    idsAndName.lacks literalHeads ∧ SameShapes plainParams disguisedParams ∧ ∃ vs ws,
      format .standard { params := plainParams } idsAndName =
        .ok ⟨"(a IN ($1, $2)) AND (b = $3)", vs⟩ ∧
      format .standard { params := disguisedParams } idsAndName =
        .ok ⟨"(a IN ($1, $2)) AND (b = $3)", ws⟩ ∧
      List.Forall₂ (Corresponding plainParams disguisedParams) vs ws := by
  have hdata : idsAndName.lacks literalHeads := by decide
  have hformat : format .standard { params := plainParams } idsAndName =
      .ok ⟨"(a IN ($1, $2)) AND (b = $3)", [.int 1, .int 2, .text "x"]⟩ := rfl
  refine ⟨hdata, sameShapes_disguised, ?_⟩
  obtain ⟨e, he, -⟩ | ⟨sql, vs, ws, hvs, hws, hall⟩ :=
    format_params_irrelevant {} hdata sameShapes_disguised
  · rw [hformat] at he
    cases he
  · rw [hformat] at hvs
    cases hvs
    exact ⟨_, ws, hformat, hws, hall⟩

end Membership

end Parameters

end SqlTree
