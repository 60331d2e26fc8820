import SqlTree.Proofs.Contract.Faults
import SqlTree.Render.Statement

/-!
What a rendering is held to: which faults it may come to, and which fragments it may yield. The
fragments are told apart by what they may stand beside, since words that touch become one word.
-/

namespace SqlTree

/-- What may stand beside one end of a fragment: anything, or only what bounds a word. At the front
`bound` says that the fragment starts with such a character itself. -/
inductive Edge where
  | free
  | bound
deriving DecidableEq, Repr

/-- The characters that end whatever word stands before them. -/
def isBound (c : Char) : Bool :=
  c = ' ' || c = ')' || c = ',' || c = ':' || c = '[' || c = ']'

def isMark (c : Char) : Bool :=
  c = ' ' || c = '(' || c = ')' || c = ',' || c = '[' || c = ']' || c = '='

/-- Texts of ASCII letters and marks, which start and end as the edges ask. -/
def isPhrase (front back : Edge) (t : String) : Bool :=
  t.toList.all (fun c => Text.isAsciiLetter c || isMark c) &&
    (front = .free || t.toList.head?.any isBound) &&
    (back = .bound || t.toList.getLast?.any isMark)

/-- What the renderings of one kind of settings are held to, and the words that may be relied on. -/
structure Contract where
  settings : Settings → Prop
  registry : Registry
  /-- The values that may be bound or written as literals. -/
  value : Value → Prop
  fault : Fault → Prop
  /-- The fragments that may be yielded, by what may stand beside their ends. -/
  ok : Edge → Edge → Fragment → Prop
  registry_eq : ∀ {s}, settings s → s.registry = registry
  within : ∀ {s} es, settings s → settings (s.within es)
  inner : ∀ {s}, settings s → settings s.inner
  inlined : ∀ {s}, settings s → settings s.inlined
  fault_of_known : ∀ {e : Fault}, e.isUnknown = false → fault e
  value_text : ∀ t, value (.text t)
  value_null : value .null
  param_ok : ∀ {s name v}, settings s → Render.param s name = .ok v →
    value v ∧ ∀ vs, v.items? = some vs → ∀ w ∈ vs, value w
  nil : ok .bound .bound []
  freeFront : ∀ {back f}, ok .bound back f → ok .free back f
  boundBack : ∀ {front f}, ok front .free f → ok front .bound f
  append : ∀ {front back' f g}, ok front .free f → ok .free back' g → ok front back' (f ++ g)
  appendBound : ∀ {front back' f g}, ok front .bound f → ok .bound back' g → ok front back' (f ++ g)
  /-- Two texts may be written as one. -/
  merge : ∀ {front back t u}, ok front back [.text t, .text u] → ok front back [.text (t ++ u)]
  phrase : ∀ {front back t}, isPhrase front back t = true → ok front back [.text t]
  blank : ok .bound .bound [.text ""]
  typeMark : ok .bound .free [.text "::"]
  slot : ∀ i v, ok .free .bound [.slot i v]
  literal_ok : ∀ {s v}, settings s → value v →
    Meets fault (fun t => ok .free .bound [.literal t]) (Literal.render s.dialect v)
  nameText_ok : ∀ {s}, settings s → ∀ t,
    Meets fault (fun w => ok .free .bound [.text w]) (Render.nameText s t)
  quotedEntity_ok : ∀ {s}, settings s → ∀ v,
    Meets fault (fun w => ok .free .bound [.text w]) (Render.quotedEntity s v)
  excluded_ok : ∀ {s}, settings s → ∀ v,
    Meets fault (fun w => ok .free .bound [.text w]) (Render.excluded s v)
  fieldPath_ok : ∀ {s f}, settings s → ok .free .bound f → ∀ fields,
    Meets fault (fun w => ok .free .bound (Fragment.parens f ++ [.text w])) (Render.fieldPath s fields)
  equality_ok : ∀ op ∈ Operator.equality, ok .bound .free [.text (" " ++ op ++ " ")]
  infix_ok : ∀ op, registry.isBinary op = true →
    ok .bound .free [.text (" " ++ Keyword.render op ++ " ")]
  unary_ok : ∀ op, registry.isBinary op = true → registry.isUnary op = true →
    ok .free .free [.text (Keyword.render op ++ " ")]
  between_ok : ∀ op, registry.form? op = some .between →
    ok .bound .free [.text (" " ++ Keyword.render op ++ " ")]
  clause_ok : ∀ key form, registry.clause? key = some form →
    ok .free .bound [.text (Keyword.render key)]

namespace Contract

variable (M : Contract)

/-- A fragment that may stand between any two others with bounds around it. -/
abbrev good (f : Fragment) : Prop := M.ok .free .bound f

abbrev word (front back : Edge) (t : String) : Prop := M.ok front back [.text t]

section Words

variable {M} {front back back' : Edge} {t u : String}

theorem word_append (ht : M.word front .free t) (hu : M.word .free back u) :
    M.word front back (t ++ u) :=
  M.merge (M.append ht hu)

theorem word_appendBound (ht : M.word front .bound t) (hu : M.word .bound back u) :
    M.word front back (t ++ u) :=
  M.merge (M.appendBound ht hu)

theorem words_joined {sep : String} (hsep : M.word .bound .free sep) {ts : List String}
    (h : ∀ t ∈ ts, M.word .free .bound t) : M.word .free .bound (sep.intercalate ts) := by
  induction ts with
  | nil => exact M.freeFront M.blank
  | cons t ts ih =>
    cases ts with
    | nil => simpa using h t (by simp)
    | cons u us =>
      rw [String.intercalate_cons_cons]
      exact word_append (word_appendBound (h t (by simp)) hsep) (ih fun v hv => h v (by simp [hv]))

end Words

section Fragments

variable {M} {f g : Fragment} {fs : List Fragment} {t sep opening closing : String}

open Fragment (ofText joined commas between parens parensIf after)

theorem good_nil : M.good [] := M.freeFront M.nil

theorem good_after (ht : M.word .free .free t) (hf : M.good f) : M.good (after t f) :=
  M.append ht hf

theorem good_before (hf : M.good f) (ht : M.word .bound .bound t) : M.good (f ++ [.text t]) :=
  M.appendBound hf ht

theorem good_linked (hf : M.good f) (ht : M.word .bound .free t) (hg : M.good g) :
    M.good (f ++ .text t :: g) :=
  M.appendBound hf (M.append ht hg)

theorem good_between (ho : M.word .free .free opening) (hc : M.word .bound .bound closing)
    (hf : M.good f) : M.good (between opening closing f) :=
  good_after ho (good_before hf hc)

theorem good_parens (hf : M.good f) : M.good (parens f) :=
  good_between (M.phrase (by decide)) (M.phrase (by decide)) hf

theorem good_parensIf {nested : Bool} (hf : M.good f) : M.good (parensIf nested f) := by
  cases nested
  · exact hf
  · exact good_parens hf

theorem good_joined (hsep : M.word .bound .free sep) (h : ∀ f ∈ fs, M.good f) :
    M.good (joined sep fs) := by
  induction fs with
  | nil => exact good_nil
  | cons f fs ih =>
    cases fs with
    | nil => exact h f (by simp)
    | cons g gs => exact good_linked (h f (by simp)) hsep (ih fun f' hf' => h f' (by simp [hf']))

theorem good_commas (h : ∀ f ∈ fs, M.good f) : M.good (commas fs) :=
  good_joined (M.phrase (by decide)) h

theorem good_spaced (h : ∀ f ∈ fs, M.good f) : M.good (joined " " fs) :=
  good_joined (M.phrase (by decide)) h

end Fragments

/-- The rendering keeps to the contract. -/
abbrev Holds (x : Render Fragment) : Prop := Render.Ensures M.fault M.good x

abbrev HoldsAll (x : Render (List Fragment)) : Prop :=
  Render.Ensures M.fault (fun fs => ∀ f ∈ fs, M.good f) x

/-- A text that is computed is a word with these edges. -/
abbrev Spelled (front back : Edge) (t : Except Fault String) : Prop :=
  Meets M.fault (M.word front back) t

/-- The renderer keeps to the contract on the values `K`. -/
structure Kept (K : Value → Prop) (r : Renderer) : Prop where
  expr : ∀ {s : Settings} {v : Value} (nested : Bool), M.settings s → K v → M.Holds (r.expr s nested v)
  statement : ∀ {s : Settings} {es : Entries} (nested : Bool), M.settings s → K (.map es) → s.isClause (.map es) = true →
    M.Holds (r.statement s nested es)

end Contract

end SqlTree
