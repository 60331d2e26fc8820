import SqlTree.Proofs.Registrations

/-!
What the registration of a clause comes to: the clause stands in its new place among the others,
which keep their forms and their order, or all registries stay as they are.
-/

namespace SqlTree

section Lookup

variable {α : Type} {name key : String}

theorem lookup_filter_ne (h : key ≠ name) (es : List (String × α)) :
    (es.filter (·.1 != name)).lookup key = es.lookup key := by
  induction es with
  | nil => rfl
  | cons e es ih =>
    by_cases hname : e.1 = name
    · have hkey : (key == e.1) = false := by simpa [hname] using h
      rw [List.filter_cons_of_neg (by simp [hname]), ih, List.lookup_cons, hkey]
    · rw [List.filter_cons_of_pos (by simp [hname]), List.lookup_cons, List.lookup_cons, ih]

theorem lookup_filter_self (name : String) (es : List (String × α)) :
    (es.filter (·.1 != name)).lookup name = none := by
  refine List.lookup_eq_none_iff.mpr fun e he => ?_
  have hne := (List.mem_filter.mp he).2
  rw [bne_iff_ne] at hne ⊢
  exact hne.symm

/-- An entry that replaces all those of its name. -/
theorem lookup_replaced (name key : String) (a : α) (es : List (String × α)) :
    (es.filter (·.1 != name) ++ [(name, a)]).lookup key =
      if key = name then some a else es.lookup key := by
  rw [List.lookup_append]
  by_cases h : key = name
  · subst h
    rw [lookup_filter_self, if_pos rfl, Option.none_or]
    simp
  · have hkey : (key == name) = false := by simpa using h
    rw [lookup_filter_ne h, if_neg h, List.lookup_cons, hkey, List.lookup_nil, Option.or_none]

end Lookup

/-- A clause that is put in front of an anchor has all before it that stood before the anchor. -/
theorem Clause.exists_insertBefore {key anchor : String} {l : List String} (h : anchor ∈ l) :
    ∃ before after, insertBefore key anchor l = before ++ key :: anchor :: after ∧
      before ++ anchor :: after = l := by
  induction l with
  | nil => cases h
  | cons k ks ih =>
    by_cases hk : k = anchor
    · exact ⟨[], ks, by rw [insertBefore, if_pos hk, hk]; rfl, by rw [hk]; rfl⟩
    · have hmem : anchor ∈ ks := (List.mem_cons.mp h).resolve_left (Ne.symm hk)
      obtain ⟨before, after, hinsert, hsplit⟩ := ih hmem
      refine ⟨k :: before, after, ?_, ?_⟩
      · rw [insertBefore, if_neg hk, hinsert, List.cons_append]
      · rw [List.cons_append, hsplit]

namespace Registry

variable {r r' : Registry} {name : String} {form : Handover ClauseForm} {anchor : Option String}

/-- No clause can be made of what is handed over, or the anchor is no clause. -/
def RefusesClause (r : Registry) (form : Handover ClauseForm) (anchor : Option String) : Prop :=
  (∃ v, form = .other v) ∨ ∃ key, anchor = some key ∧ key ∉ r.clauseOrder

/-- The clause has its form, and a place in front of its anchor, or at the end without one. -/
structure PlacesClause (r r' : Registry) (name : String) (f : ClauseForm)
    (anchor : Option String) : Prop where
  form : r'.clause? name = some f
  forms : ∀ key, key ≠ name → r'.clause? key = r.clause? key
  order : ∃ before after, r'.clauseOrder = before ++ name :: after ∧ after.head? = anchor ∧
    before ++ after = r.clauseOrder.filter (· != name)
  -- no table of operators and forms has changed
  operators : r'.binary = r.binary ∧ r'.unary = r.unary ∧ r'.nilIgnoring = r.nilIgnoring ∧
    r'.forms = r.forms

theorem registerClause_refused (h : r.RefusesClause form anchor) :
    ∃ e, r.registerClause name form anchor = .error e ∧ e.kind = .registration := by
  rcases h with ⟨v, rfl⟩ | ⟨key, rfl, hkey⟩
  · exact ⟨_, rfl, rfl⟩
  · cases form with
    | other v => exact ⟨_, rfl, rfl⟩
    | form f =>
      have hunknown : (!r.clauseOrder.contains key) = true := by simpa using hkey
      rw [clauseOrder] at hunknown
      exact ⟨.unknownAnchor name key, by simp only [registerClause, hunknown, if_true], rfl⟩

theorem registerClause_ownAnchor (f : ClauseForm) (h : name ∈ r.clauseOrder) :
    r.registerClause name (.form f) (some name) = .error .ownAnchor := by
  have hknown : (!r.clauseOrder.contains name) = false := by simpa using h
  rw [clauseOrder] at hknown
  simp only [registerClause, hknown, if_true, Bool.false_eq_true, if_false]

theorem registerClause_placed (f : ClauseForm) (h : ¬ r.RefusesClause (.form f) anchor)
    (hne : anchor ≠ some name) :
    ∃ r', r.registerClause name (.form f) anchor = .ok r' ∧ r.PlacesClause r' name f anchor := by
  have hforms : ∀ key, (r.clauses.filter (·.1 != name) ++ [(name, f)]).lookup key =
      if key = name then some f else r.clauses.lookup key := fun key => lookup_replaced ..
  cases anchor with
  | none =>
    refine ⟨_, rfl, ?_, fun key hkey => ?_, ⟨_, [], rfl, rfl, List.append_nil _⟩, rfl, rfl, rfl, rfl⟩
    · exact (hforms name).trans (if_pos rfl)
    · exact (hforms key).trans (if_neg hkey)
  | some key =>
    have hmem : key ∈ r.order := by
      by_contra hkey
      exact h (.inr ⟨key, rfl, hkey⟩)
    have hknown : (!r.order.contains key) = false := by simpa using hmem
    have hother : key ≠ name := fun heq => hne (congrArg some heq)
    have hanchor : key ∈ r.order.filter (· != name) :=
      List.mem_filter.mpr ⟨hmem, bne_iff_ne.mpr hother⟩
    obtain ⟨before, after, hinsert, hsplit⟩ : ∃ before after,
        Clause.insertBefore name key (r.order.filter (· != name)) =
            before ++ name :: key :: after ∧
          before ++ key :: after = r.order.filter (· != name) :=
      Clause.exists_insertBefore hanchor
    refine ⟨{ r with
      clauses := r.clauses.filter (·.1 != name) ++ [(name, f)]
      order := Clause.insertBefore name key (r.order.filter (· != name)) }, ?_, ?_, ?_, ?_, ?_⟩
    · simp only [registerClause, hknown, Bool.false_eq_true, if_false, if_neg hother]
    · exact (hforms name).trans (if_pos rfl)
    · exact fun k hk => (hforms k).trans (if_neg hk)
    · exact ⟨before, key :: after, hinsert, rfl, hsplit⟩
    · exact ⟨rfl, rfl, rfl, rfl⟩

theorem registerClause_operators (h : r.registerClause name form anchor = .ok r') :
    r'.binary = r.binary ∧ r'.forms = r.forms := by
  cases form with
  | other v => cases h
  | form f =>
    cases anchor with
    | none =>
      cases h
      exact ⟨rfl, rfl⟩
    | some key =>
      simp only [registerClause] at h
      split at h
      · cases h
      · split at h
        · cases h
        · cases h
          exact ⟨rfl, rfl⟩

end Registry

/-- A call makes no difference where it fails, and else for one registry only. -/
theorem registries_append {calls : List Call} {i : Nat} {r : Registry}
    (hr : (registries calls)[i]? = some r) (change : Registration) :
    registries (calls ++ [.register i change]) =
      match change.apply r with
      | .ok r' => (registries calls).set i r'
      | .error _ => registries calls := by
  rw [registries, List.foldl_append]
  change Call.step (registries calls) (.register i change) = _
  cases hchange : change.apply r <;> simp only [Call.step, hr, hchange]

/-- Whatever was registered before, a clause is refused if it has no form or an anchor that is no
clause, and then every registry is as it was. Any other clause gets its place, unless it is to stand
before itself: this too leaves every registry as it was, but it is not reported as a refusal. -/
theorem registerClause_exact {calls : List Call} {i : Nat} {r : Registry}
    (hr : (registries calls)[i]? = some r) (name : String) (form : Handover ClauseForm)
    (anchor : Option String) :
    let run := registries (calls ++ [.register i (.clause name form anchor)])
    (r.RefusesClause form anchor ↔
      ∃ e, r.registerClause name form anchor = .error e ∧ e.kind = .registration) ∧
    (∀ e, r.registerClause name form anchor = .error e → run = registries calls ∧
      (e.kind ≠ .registration ↔ e = .ownAnchor)) ∧
    (r.registerClause name form anchor = .error .ownAnchor ↔
      anchor = some name ∧ ¬ r.RefusesClause form anchor) ∧
    ∀ f, form = .form f → ¬ r.RefusesClause form anchor → anchor ≠ some name →
      ∃ r', r.registerClause name form anchor = .ok r' ∧ r.PlacesClause r' name f anchor ∧
        run = (registries calls).set i r' ∧ r'.IsSound := by
  have hrun := registries_append hr (.clause name form anchor)
  have hsound := Registry.IsSound.of_registries (List.mem_of_getElem? hr)
  intro run
  -- how the call ends: it is refused, has itself for its anchor, or places the clause
  by_cases hrefused : r.RefusesClause form anchor
  · obtain ⟨e, he, hkind⟩ : ∃ e, r.registerClause name form anchor = .error e ∧
        e.kind = .registration := Registry.registerClause_refused hrefused
    have hown : e ≠ .ownAnchor := by
      rintro rfl
      cases hkind
    refine ⟨iff_of_true hrefused ⟨e, he, hkind⟩, fun e' he' => ?_, ?_, fun _ _ h => absurd hrefused h⟩
    · obtain rfl : e = e' := Except.error.inj (he.symm.trans he')
      exact ⟨by rwa [Registration.apply, he] at hrun, iff_of_false (not_not.mpr hkind) hown⟩
    · refine iff_of_false (fun h => hown ?_) fun h => h.2 hrefused
      exact Except.error.inj (he.symm.trans h)
  obtain ⟨f, rfl⟩ : ∃ f, form = .form f := by
    cases form with
    | form f => exact ⟨f, rfl⟩
    | other v => exact absurd (.inl ⟨v, rfl⟩) hrefused
  by_cases hself : anchor = some name
  · subst hself
    have hmem : name ∈ r.clauseOrder := by
      by_contra h
      exact hrefused (.inr ⟨name, rfl, h⟩)
    have he := Registry.registerClause_ownAnchor f hmem
    refine ⟨iff_of_false hrefused ?_, fun e' he' => ?_, iff_of_true he ⟨rfl, hrefused⟩,
      fun _ _ _ h => absurd rfl h⟩
    · rintro ⟨e', he', hkind⟩
      obtain rfl : .ownAnchor = e' := Except.error.inj (he.symm.trans he')
      cases hkind
    · obtain rfl : .ownAnchor = e' := Except.error.inj (he.symm.trans he')
      exact ⟨by rwa [Registration.apply, he] at hrun, iff_of_true (by decide) rfl⟩
  · obtain ⟨r', hok, hplaces⟩ := Registry.registerClause_placed f hrefused hself
    rw [Registration.apply, hok] at hrun
    refine ⟨iff_of_false hrefused ?_, ?_, iff_of_false ?_ fun h => hself h.1, ?_⟩
    · rintro ⟨e, he, -⟩
      cases hok.symm.trans he
    · intro e he
      cases hok.symm.trans he
    · intro he
      cases hok.symm.trans he
    · rintro g hg - -
      obtain rfl := Handover.form.inj hg
      exact ⟨r', hok, hplaces, hrun, hsound.registerClause hok⟩

/-- A clause that is registered anew, in another place of a copy. -/
theorem registerClause_exact_moved :
    ∃ r', Registry.base.registerClause "limit" (.form .condition) (some "where") = .ok r' ∧
      Registry.base.PlacesClause r' "limit" .condition (some "where") ∧
      registries ([.copy 0] ++ [.register 1 (.clause "limit" (.form .condition) (some "where"))]) =
        (registries [.copy 0]).set 1 r' ∧ r'.IsSound := by
  have hr : (registries [.copy 0])[1]? = some Registry.base := rfl
  have hwhere : "where" ∈ Registry.base.clauseOrder := by decide
  refine (registerClause_exact hr "limit" (.form .condition) (some "where")).2.2.2 .condition rfl ?_
    (by decide)
  rintro (⟨v, ⟨⟩⟩ | ⟨key, ⟨⟩, hkey⟩)
  exact hkey hwhere

/-- A clause that is in the order cannot be registered anew in front of itself, and no refusal says
so. -/
theorem ownAnchor_not_reported :
    Registry.base ∈ registries [] ∧ "where" ∈ Registry.base.clauseOrder ∧
      Registry.base.registerClause "where" (.form .condition) (some "where") = .error .ownAnchor ∧
      Fault.ownAnchor.kind ≠ .registration := by
  refine ⟨List.mem_singleton_self _, by decide, ?_, by decide⟩
  exact Registry.registerClause_ownAnchor .condition (by decide)

end SqlTree
