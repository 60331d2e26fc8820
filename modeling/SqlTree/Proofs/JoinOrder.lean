import SqlTree.Proofs.ClauseOrder
import SqlTree.Proofs.Ensures
import SqlTree.Proofs.FromList

/-!
Joins in a statement with other clauses. However they are put into clauses, they are written one by
one in the order in which they were read.
-/

namespace SqlTree.FromList

open Syntax (JoinKind Joined)
open Syntax.Parser (joinKinds)
open Render (Ensures)

/-- What a statement is written as: its clauses, where each join counts for itself. -/
inductive Step where
  | clause (p : Present)
  | join (j : JoinPart)

namespace Step

def clause? : Step → Option Present
  | clause p => some p
  | join _ => none

def join? : Step → Option JoinPart
  | clause _ => none
  | join j => some j

def text (r : Renderer) (s : Settings) : Step → Render Fragment
  | clause p => p.text r s
  | join j => joinPhrase r s j

/-- A statement that is written as these steps, those left out for which nothing is written. -/
def statement (r : Renderer) (s : Settings) (nested : Bool) (es : Entries) (steps : List Step) :
    Render Fragment := do
  Render.checkKeys s es
  let fs ← steps.mapM (Step.text r (s.within es))
  return Fragment.parensIf nested (Fragment.joined " " (fs.filter fun f => !f.isBlank))

end Step

section Spaces

/-- Fragments that are not blank, with a space before each of them. -/
def led (fs : List Fragment) : Fragment :=
  (fs.filter fun f => !f.isBlank).flatMap (.text " " :: ·)

theorem led_append (fs gs : List Fragment) : led (fs ++ gs) = led fs ++ led gs := by
  simp [led]

theorem joined_eq_tail_led (fs : List Fragment) :
    Fragment.joined " " (fs.filter fun f => !f.isBlank) = (led fs).tail := by
  rw [led]
  cases fs.filter fun f => !f.isBlank with
  | nil => rfl
  | cons f fs => rw [joined_cons]; rfl

theorem led_joined {fs : List Fragment} (hne : fs ≠ []) (h : ∀ f ∈ fs, f.isBlank = false) :
    led [Fragment.joined " " fs] = led fs := by
  have hall : (fs.filter fun f => !f.isBlank) = fs :=
    List.filter_eq_self.mpr fun f hf => by simp [h f hf]
  cases fs with
  | nil => exact absurd rfl hne
  | cons f fs =>
    have hjoined : (Fragment.joined " " (f :: fs)).isBlank = false := isBlank_joined (h f (by simp)) fs
    have hone : [Fragment.joined " " (f :: fs)].filter (fun f => !f.isBlank) =
        [Fragment.joined " " (f :: fs)] := by simp [hjoined]
    rw [led, led, hall, hone, joined_cons]
    simp

theorem map_congr_of_ensures {α β : Type} {P : α → Prop} {x : Render α} {f g : α → β}
    (h : Ensures (fun _ => True) P x) (hfg : ∀ a, P a → f a = g a) : f <$> x = g <$> x := by
  funext n
  have hrun := h.run n
  cases hx : x n with
  | error e => simp only [Functor.map, StateT.map, Bind.bind, Except.bind, hx]
  | ok p =>
    rw [hx] at hrun
    simp only [Functor.map, StateT.map, Bind.bind, Except.bind, hx, hfg p.1 hrun]

end Spaces

section Steps

variable {cs : List JoinClause} {r : Renderer} {s : Settings}

/-- What a clause is written as: the joins that were put into it, or the clause. -/
def stepsOf (cs : List JoinClause) (p : Present) : List Step :=
  match cs.find? (·.key = p.key) with
  | some c => c.joins.map .join
  | none => [.clause p]

theorem joins_ensure (js : List JoinPart) :
    Ensures (fun _ => True) (fun fs => fs.length = js.length ∧ ∀ f ∈ fs, f.isBlank = false)
      (js.mapM (joinPhrase r s)) := by
  have hphrase : ∀ j ∈ js, Ensures (fun _ => True) (fun f => f.isBlank = false) (joinPhrase r s j) :=
    fun j _ => ⟨fun n => .of_forall (fun p hp => joinPhrase_visible r s j n p.1 p.2 hp) fun _ _ => trivial⟩
  exact (Ensures.mapM hphrase).mono fun fs hfs =>
    ⟨hfs.length_eq.symm, fun f hf => forall_of_forall₂ hfs hf⟩

theorem led_joins {js : List JoinPart} (hne : js ≠ []) :
    (fun f => led [f]) <$> Fragment.joined " " <$> js.mapM (joinPhrase r s) =
      led <$> js.mapM (joinPhrase r s) := by
  rw [Functor.map_map]
  refine map_congr_of_ensures (joins_ensure js) fun fs ⟨hlength, hvisible⟩ => led_joined ?_ hvisible
  rintro rfl
  exact hne (List.length_eq_zero_iff.mp hlength.symm)

theorem map_led_mapM_append {ι : Type} {t : ι → Render Fragment} (xs ys : List ι) :
    led <$> (xs ++ ys).mapM t = do
      let f ← led <$> xs.mapM t
      let g ← led <$> ys.mapM t
      return f ++ g := by
  rw [List.mapM_append]
  simp only [map_bind, map_pure, led_append, bind_map_left]

theorem map_led_singleton {ι : Type} {t : ι → Render Fragment} (x : ι) :
    led <$> [x].mapM t = (fun f => led [f]) <$> t x := by
  rw [List.mapM_cons]
  simp only [List.mapM_nil, pure_bind, map_bind, map_pure]
  rw [map_eq_pure_bind]

/-- The clause is rendered as the joins that were put into it. -/
def Groups (r : Renderer) (s : Settings) (c : JoinClause) (p : Present) : Prop :=
  c.joins ≠ [] ∧ p.text r s = Fragment.joined " " <$> c.joins.mapM (joinPhrase r s)

theorem led_stepsOf {p : Present} (h : ∀ c ∈ cs.find? (·.key = p.key), Groups r s c p) :
    (fun f => led [f]) <$> p.text r s = led <$> (stepsOf cs p).mapM (Step.text r s) := by
  unfold stepsOf
  cases hc : cs.find? (·.key = p.key) with
  | none =>
    exact (map_led_singleton _).symm
  | some c =>
    obtain ⟨hne, htext⟩ := h c hc
    rw [htext, led_joins hne, List.mapM_map]
    rfl

/-- Clause by clause or join by join, the same is written. -/
theorem led_steps {ps : List Present}
    (h : ∀ p ∈ ps, ∀ c ∈ cs.find? (·.key = p.key), Groups r s c p) :
    led <$> ps.mapM (Present.text r s) = led <$> (ps.flatMap (stepsOf cs)).mapM (Step.text r s) := by
  induction ps with
  | nil => rfl
  | cons p ps ih =>
    obtain ⟨hp, hps⟩ := List.forall_mem_cons.mp h
    rw [List.flatMap_cons, map_led_mapM_append, ← led_stepsOf hp, ← ih hps, ← map_led_singleton,
      ← map_led_mapM_append, List.singleton_append]

end Steps

section Order

variable {cs : List JoinClause}

/-- Keys that are not in a part of an order add nothing. -/
theorem flatMap_of_sublist {β : Type} {keys order : List String} (h : keys.Sublist order)
    (hnodup : order.Nodup) {f : String → List β} (hnone : ∀ k ∈ order, k ∉ keys → f k = []) :
    order.flatMap f = keys.flatMap f := by
  induction h with
  | slnil => rfl
  | @cons keys order k h ih =>
    obtain ⟨hk, hnodup⟩ := List.nodup_cons.mp hnodup
    rw [List.flatMap_cons, hnone k (by simp) fun hmem => hk (h.subset hmem), List.nil_append]
    exact ih hnodup fun l hl => hnone l (by simp [hl])
  | @cons_cons keys order k h ih =>
    obtain ⟨hk, hnodup⟩ := List.nodup_cons.mp hnodup
    rw [List.flatMap_cons, List.flatMap_cons]
    refine congrArg _ (ih hnodup fun l hl hmem => hnone l (by simp [hl]) ?_)
    rw [List.mem_cons, not_or]
    exact ⟨fun heq => hk (heq ▸ hl), hmem⟩

theorem find?_key (hkeys : (cs.map JoinClause.key).Nodup) {c : JoinClause} (hc : c ∈ cs) :
    cs.find? (·.key = c.key) = some c := by
  induction cs with
  | nil => cases hc
  | cons d cs ih =>
    obtain ⟨hd, hkeys⟩ := List.nodup_cons.mp hkeys
    rcases List.mem_cons.mp hc with rfl | hc
    · simp
    · have hne : d.key ≠ c.key := fun heq => hd (heq ▸ List.mem_map_of_mem hc)
      rw [List.find?_cons_of_neg (by simpa using hne), ih hkeys hc]

theorem find?_key_isSome (key : String) :
    (cs.find? (·.key = key)).isSome = Entries.hasField (cs.map JoinClause.entry) key := by
  rw [Entries.hasField, Entries.field?, Entries.valueAt?, List.find?_map, Option.isSome_map,
    Option.isSome_map]
  rfl

/-- The joins that were put into the clause `key`. -/
def joinsAt (cs : List JoinClause) (key : String) : List JoinPart :=
  ((cs.find? (·.key = key)).map JoinClause.joins).getD []

theorem filterMap_join?_stepsOf (p : Present) :
    (stepsOf cs p).filterMap Step.join? = joinsAt cs p.key := by
  unfold stepsOf joinsAt
  cases cs.find? (·.key = p.key) with
  | none => rfl
  | some c => simp [List.filterMap_map, Function.comp_def, Step.join?]

theorem filterMap_clause?_stepsOf (p : Present) : (stepsOf cs p).filterMap Step.clause? =
    [p].filter fun p => !Entries.hasField (cs.map JoinClause.entry) p.key := by
  rw [List.filter_singleton, ← find?_key_isSome]
  unfold stepsOf
  cases cs.find? (·.key = p.key) with
  | none => rfl
  | some c => simp [List.filterMap_map, Function.comp_def, Step.clause?]

theorem filterMap_clause?_steps (ps : List Present) : (ps.flatMap (stepsOf cs)).filterMap Step.clause? =
    ps.filter fun p => !Entries.hasField (cs.map JoinClause.entry) p.key := by
  induction ps with
  | nil => rfl
  | cons p ps ih =>
    rw [List.flatMap_cons, List.filterMap_append, filterMap_clause?_stepsOf, ih, ← List.filter_append,
      List.singleton_append]

theorem flatMap_present {β : Type} {registry : Registry} {es : Entries} (order : List String)
    (f : Present → List β) : (present registry order es).flatMap f =
      order.flatMap fun key => ((present? registry es key).map f).getD [] := by
  induction order with
  | nil => rfl
  | cons key order ih =>
    rw [present, List.filterMap_cons, List.flatMap_cons, ← ih]
    cases present? registry es key <;> rfl

end Order

section Statement

variable {cs : List JoinClause} {s : Settings} {es : Entries} {js : List JoinPart}

/-- The clauses that joins are put into, and those that are joins by other names. -/
def joinClauses : List String := "join-by" :: Clause.joins ++ ["cross-join"]

/-- In every dialect the clauses of joins stand together. -/
theorem exists_clauseOrder (d : Dialect) : ∃ before after,
    d.clauseOrder Registry.standard.clauseOrder = before ++ joinClauses ++ after := by
  let order := d.clauseOrder Registry.standard.clauseOrder
  refine ⟨order.takeWhile (· != "join-by"), (order.dropWhile (· != "cross-join")).tail, ?_⟩
  cases d <;> decide

/-- What the clauses of a statement say about the joins that are among them. -/
structure Holds (es : Entries) (cs : List JoinClause) (js : List JoinPart) : Prop where
  writes : ∀ c ∈ cs, c.Writes
  joins : cs.flatMap JoinClause.joins = js
  sublist : (cs.map JoinClause.key).Sublist ("join-by" :: joinKinds.map JoinKind.clause)
  field : ∀ c ∈ cs, Entries.field? es c.key = some c.value

theorem Holds.nodup (h : Holds es cs js) : (cs.map JoinClause.key).Nodup :=
  h.sublist.nodup (by decide)

theorem Holds.groups (h : Holds es cs js) (order : List String) (r : Renderer) (s : Settings) :
    ∀ p ∈ present .standard order es, ∀ c ∈ cs.find? (·.key = p.key), Groups r s c p := by
  intro p hp c hc
  have hkey : c.key = p.key := by simpa using List.find?_some hc
  have hmem := List.mem_of_find?_eq_some hc
  obtain ⟨-, hfield, -, hform⟩ := mem_present.mp hp
  obtain ⟨form, hform', htext⟩ := (h.writes c hmem).clause
  have hvalue : p.value = c.value := by
    have := h.field c hmem
    rw [hkey, hfield] at this
    exact Option.some.inj this
  rw [hkey, hform] at hform'
  obtain rfl := Option.some.inj hform'
  refine ⟨(h.writes c hmem).joins, ?_⟩
  rw [← htext r s, hkey, ← hvalue]
  rfl

theorem joinsAt_of_mem (hkeys : (cs.map JoinClause.key).Nodup) {c : JoinClause} (hc : c ∈ cs) :
    joinsAt cs c.key = c.joins := by
  rw [joinsAt, find?_key hkeys hc]
  rfl

theorem joinsAt_of_not_mem {key : String} (hkey : key ∉ cs.map JoinClause.key) :
    joinsAt cs key = [] := by
  have hnone : cs.find? (·.key = key) = none := by
    rw [List.find?_eq_none]
    rintro c hc hck
    exact hkey (List.mem_map.mpr ⟨c, hc, by simpa using hck⟩)
  rw [joinsAt, hnone]
  rfl

theorem joinsAt_present? {registry : Registry} (key : String) :
    ((present? registry es key).map fun p => joinsAt cs p.key).getD [] =
      if (present? registry es key).isSome then joinsAt cs key else [] := by
  cases hp : present? registry es key with
  | none => rfl
  | some p =>
    obtain ⟨rfl, -⟩ := present?_eq_some_iff.mp hp
    rfl

theorem Holds.present?_isSome (h : Holds es cs js) {c : JoinClause} (hc : c ∈ cs) :
    (present? .standard es c.key).isSome := by
  obtain ⟨form, hform, -⟩ := (h.writes c hc).clause
  exact Option.isSome_iff_exists.mpr ⟨⟨c.key, form, c.value⟩,
    present?_eq_some_iff.mpr ⟨rfl, h.field c hc, (h.writes c hc).value, hform⟩⟩

theorem Holds.filterMap_join? (h : Holds es cs js) {order : List String}
    (hsub : (cs.map JoinClause.key).Sublist order) (hnodup : order.Nodup) :
    ((present .standard order es).flatMap (stepsOf cs)).filterMap Step.join? = js := by
  have hnone : ∀ key, key ∉ cs.map JoinClause.key →
      ((present? .standard es key).map fun p => joinsAt cs p.key).getD [] = [] := by
    intro key hkey
    rw [joinsAt_present?, joinsAt_of_not_mem hkey, ite_self]
  have hsome : ∀ c ∈ cs,
      ((present? .standard es c.key).map fun p => joinsAt cs p.key).getD [] = c.joins := by
    intro c hc
    rw [joinsAt_present?, if_pos (h.present?_isSome hc), joinsAt_of_mem h.nodup hc]
  calc ((present .standard order es).flatMap (stepsOf cs)).filterMap Step.join?
    _ = (present .standard order es).flatMap fun p => joinsAt cs p.key := by
      rw [List.filterMap_flatMap]
      exact List.flatMap_congr fun p _ => filterMap_join?_stepsOf p
    _ = order.flatMap fun key => ((present? .standard es key).map fun p => joinsAt cs p.key).getD [] :=
      flatMap_present order _
    _ = (cs.map JoinClause.key).flatMap fun key =>
        ((present? .standard es key).map fun p => joinsAt cs p.key).getD [] :=
      flatMap_of_sublist hsub hnodup fun key _ => hnone key
    _ = js := by
      rw [List.flatMap_map, ← h.joins]
      exact List.flatMap_congr hsome

theorem steps_of_not_mem {ps : List Present} (h : ∀ p ∈ ps, p.key ∉ cs.map JoinClause.key) :
    ps.flatMap (stepsOf cs) = ps.map .clause := by
  rw [← List.flatMap_pure_eq_map]
  refine List.flatMap_congr fun p hp => ?_
  have hnone : cs.find? (·.key = p.key) = none := by
    rw [List.find?_eq_none]
    rintro c hc hck
    exact h p hp (List.mem_map.mpr ⟨c, hc, by simpa using hck⟩)
  rw [stepsOf, hnone]
  rfl

theorem steps_of_mem {ps : List Present}
    (h : ∀ p ∈ ps, Entries.hasField (cs.map JoinClause.entry) p.key = true) :
    ps.flatMap (stepsOf cs) = (ps.flatMap fun p => joinsAt cs p.key).map .join := by
  rw [List.map_flatMap]
  refine List.flatMap_congr fun p hp => ?_
  obtain ⟨c, hc⟩ := Option.isSome_iff_exists.mp ((find?_key_isSome p.key).trans (h p hp))
  rw [stepsOf, joinsAt, hc]
  rfl

theorem filterMap_join?_clauses (ps : List Present) :
    (ps.map Step.clause).filterMap Step.join? = [] := by
  simp [List.filterMap_map, Function.comp_def, Step.join?]

theorem filterMap_join?_joins (js : List JoinPart) :
    (js.map Step.join).filterMap Step.join? = js := by
  simp [List.filterMap_map, Function.comp_def, Step.join?]

/-- Where no other joins are in the statement, the joins stand together. -/
theorem Holds.exists_split (h : Holds es cs js) {before after : List String}
    (hnodup : (before ++ joinClauses ++ after).Nodup)
    (honly : ∀ key ∈ joinClauses, Entries.hasField es key = true →
      Entries.hasField (cs.map JoinClause.entry) key = true) :
    ∃ ps qs : List Present, (present .standard (before ++ joinClauses ++ after) es).flatMap (stepsOf cs) =
      ps.map .clause ++ js.map .join ++ qs.map .clause := by
  have hkeys : ("join-by" :: joinKinds.map JoinKind.clause).Sublist joinClauses := by decide
  have hsub : (cs.map JoinClause.key).Sublist joinClauses := h.sublist.trans hkeys
  have hwhole : (cs.map JoinClause.key).Sublist (before ++ joinClauses ++ after) :=
    hsub.trans ((List.sublist_append_right _ _).trans (List.sublist_append_left _ _))
  obtain ⟨hfront, -, hback⟩ := List.nodup_append.mp hnodup
  obtain ⟨-, -, hfront⟩ := List.nodup_append.mp hfront
  have hbefore : ∀ p ∈ present .standard before es, p.key ∉ cs.map JoinClause.key := fun p hp hmem =>
    hfront _ (mem_present.mp hp).1 _ (hsub.subset hmem) rfl
  have hafter : ∀ p ∈ present .standard after es, p.key ∉ cs.map JoinClause.key := fun p hp hmem =>
    hback _ (List.mem_append_right _ (hsub.subset hmem)) _ (mem_present.mp hp).1 rfl
  have hbetween : ∀ p ∈ present .standard joinClauses es,
      Entries.hasField (cs.map JoinClause.entry) p.key = true := by
    intro p hp
    obtain ⟨hkey, hfield, -⟩ := mem_present.mp hp
    exact honly p.key hkey (Option.isSome_iff_exists.mpr ⟨_, hfield⟩)
  have hpresent : present .standard (before ++ joinClauses ++ after) es =
      present .standard before es ++ present .standard joinClauses es ++ present .standard after es := by
    rw [present, List.filterMap_append, List.filterMap_append]
    rfl
  have hjoins := h.filterMap_join? hwhole hnodup
  rw [hpresent, List.flatMap_append, List.flatMap_append, steps_of_not_mem hbefore,
    steps_of_mem hbetween, steps_of_not_mem hafter] at hjoins ⊢
  rw [List.filterMap_append, List.filterMap_append, filterMap_join?_clauses, filterMap_join?_clauses,
    filterMap_join?_joins, List.nil_append, List.append_nil] at hjoins
  exact ⟨_, _, by rw [hjoins]⟩

theorem statement_steps (r : Renderer) (hregistry : s.registry = .standard)
    (h : Holds es cs js) (nested : Bool) :
    Render.statement r s nested es = Step.statement r s nested es
      ((present .standard s.clauseOrder es).flatMap (stepsOf cs)) := by
  unfold Step.statement
  cases hcheck : Render.checkKeys s es with
  | error e =>
    unfold Render.statement
    rw [hcheck]
    rfl
  | ok =>
    have hled := led_steps (h.groups s.clauseOrder r (s.within es))
    have hfinish := congrArg ((fun g => Fragment.parensIf nested g.tail) <$> ·) hled
    simp only [Functor.map_map, ← joined_eq_tail_led] at hfinish
    rw [statement_eq_present hcheck, hregistry, ← map_eq_pure_bind, hfinish, map_eq_pure_bind]
    rfl

end Statement

/-- Joins that a statement holds as clauses are written one by one, in the order in which they were
read, among the other clauses, which keep theirs; and they stand together if the statement has no
other joins. -/
theorem statement_joins {s : Settings} (hregistry : s.registry = .standard)
    (horder : s.clauseOrder = s.dialect.clauseOrder Registry.standard.clauseOrder)
    {js : List JoinPart} {es : Entries} (hes : es.Distinct)
    (hjs : Joined.entries (js.map JoinPart.joined) ⊆ es) :
    ∃ steps : List Step, steps.filterMap Step.join? = js ∧
      steps.filterMap Step.clause? = (present .standard s.clauseOrder es).filter (fun p =>
        !Entries.hasField (Joined.entries (js.map JoinPart.joined)) p.key) ∧
      ((∀ key ∈ joinClauses, Entries.hasField es key = true →
          Entries.hasField (Joined.entries (js.map JoinPart.joined)) key = true) →
        ∃ ps qs : List Present, steps = ps.map .clause ++ js.map .join ++ qs.map .clause) ∧
      (∀ r nested, Render.statement r s nested es = Step.statement r s nested es steps) ∧
      (isStatement es = true → fragment s (.map es) =
        Step.statement (Render.upTo (Value.map es).height) s false es steps) := by
  obtain ⟨cs, hentries, hwrites, hjoins, hkeys⟩ := exists_clauses js
  have hholds : Holds es cs js := by
    refine ⟨hwrites, hjoins, hkeys, fun c hc => (Entries.field?_eq_some_iff hes).mpr (hjs ?_)⟩
    rw [hentries]
    exact List.mem_map_of_mem hc
  have hnodup : s.clauseOrder.Nodup := horder ▸ nodup_clauseOrder s.dialect
  have hsub : (cs.map JoinClause.key).Sublist s.clauseOrder :=
    hkeys.trans ((List.sublist_cons_self "from" _).trans (horder ▸ keys_sublist s.dialect))
  have hstatement : ∀ r nested, Render.statement r s nested es = Step.statement r s nested es
      ((present .standard s.clauseOrder es).flatMap (stepsOf cs)) :=
    fun r nested => statement_steps r hregistry hholds nested
  refine ⟨_, hholds.filterMap_join? hsub hnodup, ?_, ?_, hstatement, fun htop => ?_⟩
  · rw [filterMap_clause?_steps, hentries]
  · obtain ⟨before, after, hsplit⟩ := exists_clauseOrder s.dialect
    rw [hentries, horder, hsplit]
    exact hholds.exists_split (hsplit ▸ nodup_clauseOrder s.dialect)
  · exact (if_pos htop).trans (hstatement _ false)

section Samples

/-- Joins in no order of clauses. -/
def mixedJoins : List JoinPart :=
  [⟨.left, .text "b", .list [.text "=", .text "a.x", .text "b.x"]⟩,
   ⟨.inner, .list [.text "c", .text "k"], .list [.text "using", .text "y"]⟩,
   ⟨.cross, .text "d", .null⟩, ⟨.left, .text "e", .bool true⟩]

/-- A statement that holds them, with its other clauses on both sides. -/
def mixedStatement : Entries :=
  (.text "where", .list [.text "=", .text "d.z", .list [.text "lift", .int 7]]) ::
    Joined.entries (mixedJoins.map JoinPart.joined) ++
      [(.text "from", .text "a"), (.text "select", .list [.text "*"])]

def mixedSettings : Settings :=
  (Settings.ofOptions .standard { dialect := some "oracle" }).toOption.getD default

theorem statement_of_mixedJoins : mixedStatement.Distinct ∧
    Joined.entries (mixedJoins.map JoinPart.joined) ⊆ mixedStatement ∧
    (∃ steps : List Step, steps.filterMap Step.join? = mixedJoins ∧
      Render.statement (Render.upTo 4) mixedSettings false mixedStatement =
        Step.statement (Render.upTo 4) mixedSettings false mixedStatement steps) ∧
    (Render.statement (Render.upTo 4) mixedSettings false mixedStatement 0).toOption.map
      (fun r => r.1.sql .oracle true) = some ("SELECT * FROM a LEFT JOIN b ON a.x = b.x " ++
        "INNER JOIN c k USING (y) CROSS JOIN d LEFT JOIN e ON TRUE WHERE d.z = $1") := by
  have hdistinct : mixedStatement.Distinct := by
    unfold Entries.Distinct
    decide
  have hjs : Joined.entries (mixedJoins.map JoinPart.joined) ⊆ mixedStatement := fun e he =>
    List.mem_cons_of_mem _ (List.mem_append_left _ he)
  obtain ⟨steps, hjoins, -, -, hstatement, -⟩ :=
    statement_joins (s := mixedSettings) rfl rfl hdistinct hjs
  exact ⟨hdistinct, hjs, ⟨steps, hjoins, hstatement _ _⟩, by decide +kernel⟩

end Samples

end SqlTree.FromList
