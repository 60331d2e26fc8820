import SqlTree.Parse

/-! What holds of everything that a reading may yield. -/

namespace SqlTree.Syntax

variable {α β : Type} {r : Read α} {d : Depth} {P Q : α → Prop}

theorem bind_eq_ok {f : α → Read β} {b : β} (h : (r >>= f) d = .ok b) :
    ∃ a, r d = .ok a ∧ f a d = .ok b := by
  change (r d).bind (fun a => f a d) = .ok b at h
  cases hr : r d with
  | error e =>
    rw [hr] at h
    cases h
  | ok a =>
    rw [hr] at h
    exact ⟨a, rfl, h⟩

theorem bind_of_ok {f : α → Read β} {a : α} (h : r d = .ok a) : (r >>= f) d = f a d := by
  change (r d).bind (fun a => f a d) = _
  rw [h]
  rfl

theorem read_of_visit {b : α} (h : visit r d = .ok b) : r ⟨d.limit, d.reached + 1⟩ = .ok b := by
  simp only [visit] at h
  split at h
  · cases h
  · exact h

theorem eq_of_visit_pure {a b : α} (h : visit (pure a) d = .ok b) : b = a := by
  have hpure := read_of_visit h
  cases hpure
  rfl

/-- Whatever the reading yields at some depth, `P` holds of it. -/
def Always (r : Read α) (P : α → Prop) : Prop := ∀ d a, r d = .ok a → P a

namespace Always

theorem mono (h : Always r P) (hPQ : ∀ a, P a → Q a) : Always r Q :=
  fun d a ha => hPQ a (h d a ha)

theorem pure {a : α} (h : P a) : Always (pure a : Read α) P := by
  rintro d b ⟨⟩
  exact h

theorem bind {f : α → Read β} {S : β → Prop} (h : Always r P) (hf : ∀ a, P a → Always (f a) S) :
    Always (r >>= f) S := by
  intro d b hb
  obtain ⟨a, ha, hb⟩ := bind_eq_ok hb
  exact hf a (h d a ha) d b hb

/-- Whatever is read first. -/
theorem bindAny {f : α → Read β} {S : β → Prop} (hf : ∀ a, Always (f a) S) : Always (r >>= f) S :=
  Always.bind (P := fun _ => True) (fun _ _ _ => trivial) fun a _ => hf a

theorem mapAny {f : α → β} {S : β → Prop} (hf : ∀ a, S (f a)) : Always (do return f (← r)) S :=
  bindAny fun a => .pure (hf a)

theorem map {f : α → β} {S : β → Prop} (h : Always r P) (hf : ∀ a, P a → S (f a)) :
    Always (do return f (← r)) S :=
  h.bind fun a ha => .pure (hf a ha)

theorem ite {c : Prop} [Decidable c] {s : Read α} (hr : Always r P) (hs : Always s P) :
    Always (if c then r else s) P := by
  split
  · exact hr
  · exact hs

theorem visit (h : Always r P) : Always (visit r) P :=
  fun _ _ ha => h _ _ (read_of_visit ha)

theorem mapM {rs : List (Read α)} (h : ∀ r ∈ rs, Always r P) :
    Always (rs.mapM id) fun as => ∀ a ∈ as, P a := by
  induction rs with
  | nil => exact .pure nofun
  | cons r rs ih =>
    rw [List.mapM_cons]
    refine (h r (by simp)).bind fun a ha => ?_
    refine (ih fun s hs => h s (by simp [hs])).bind fun as has => ?_
    exact .pure (List.forall_mem_cons.mpr ⟨ha, has⟩)

theorem mapM_of {γ : Type} {g : γ → Read α} {cs : List γ} (h : ∀ c ∈ cs, Always (g c) P) :
    Always (cs.mapM g) fun as => ∀ a ∈ as, P a := by
  have hmap : cs.mapM g = (cs.map g).mapM id := by rw [List.mapM_map]; rfl
  rw [hmap]
  exact mapM (by simpa using h)

theorem visitAll {rs : List (Read α)} (h : ∀ r ∈ rs, Always r P) :
    Always (visitAll rs) fun as => ∀ a ∈ as, P a :=
  (mapM h).visit

theorem optionMapM {γ : Type} {g : γ → Read α} {o : Option γ} (h : ∀ c ∈ o, Always (g c) P) :
    Always (o.mapM g) fun o => ∀ a ∈ o, P a := by
  cases o with
  | none => exact .pure nofun
  | some c => exact (h c rfl).map fun _ ha => by simpa using ha

theorem getD {o : Option (Read α)} (h : ∀ r ∈ o, Always r P) {r : Read α} (hr : Always r P) :
    Always (o.getD r) P := by
  cases o with
  | none => exact hr
  | some s => exact h s rfl

end Always

section Joins

theorem forall_mem_insert {P : Joined → Prop} {groups : List (String × List Value)} {j : Joined}
    (hj : P j) (h : ∀ g ∈ groups, g.2 ≠ [] ∧ ∀ v ∈ g.2, P (g.1, v)) :
    ∀ g ∈ Joined.insert groups j, g.2 ≠ [] ∧ ∀ v ∈ g.2, P (g.1, v) := by
  induction groups with
  | nil => simpa [Joined.insert] using hj
  | cons g groups ih =>
    obtain ⟨hg, hgroups⟩ := List.forall_mem_cons.mp h
    unfold Joined.insert
    split
    · next hkey =>
      refine List.forall_mem_cons.mpr ⟨⟨by simp, List.forall_mem_append.mpr ⟨hg.2, ?_⟩⟩, hgroups⟩
      simpa [hkey] using hj
    · exact List.forall_mem_cons.mpr ⟨hg, ih hgroups⟩

/-- No group is empty, and what holds of all joins holds of those in the groups. -/
theorem forall_mem_groups {P : Joined → Prop} {joins : List Joined} (h : ∀ j ∈ joins, P j) :
    ∀ g ∈ joins.foldl Joined.insert [], g.2 ≠ [] ∧ ∀ v ∈ g.2, P (g.1, v) := by
  suffices hfold : ∀ groups : List (String × List Value),
      (∀ g ∈ groups, g.2 ≠ [] ∧ ∀ v ∈ g.2, P (g.1, v)) →
        ∀ g ∈ joins.foldl Joined.insert groups, g.2 ≠ [] ∧ ∀ v ∈ g.2, P (g.1, v) from
    hfold [] nofun
  induction joins with
  | nil => exact fun _ hgroups => hgroups
  | cons j joins ih =>
    intro groups hgroups
    obtain ⟨hj, hjoins⟩ := List.forall_mem_cons.mp h
    exact ih hjoins _ (forall_mem_insert hj hgroups)

variable {items : List FromItem}

theorem forall_mem_tables {P : Value → Prop} (h : ∀ i ∈ items, P i.table) :
    ∀ t ∈ FromItem.tables items, P t := by
  intro t ht
  obtain ⟨i, hi, rfl⟩ := List.mem_map.mp ht
  refine h i ?_
  split at hi
  · exact List.mem_of_mem_take hi
  · exact hi

theorem forall_mem_chain {P : Joined → Prop} (htable : ∀ i ∈ items, P ("cross-join", i.table))
    (hjoins : ∀ i ∈ items, ∀ j ∈ i.joins, P j) : ∀ j ∈ FromItem.chain items, P j := by
  induction items with
  | nil => nofun
  | cons i items ih =>
    obtain ⟨hi, hitems⟩ := List.forall_mem_cons.mp htable
    obtain ⟨his, hrest⟩ := List.forall_mem_cons.mp hjoins
    exact List.forall_mem_cons.mpr ⟨hi, List.forall_mem_append.mpr ⟨his, ih hitems hrest⟩⟩

theorem forall_mem_joined {P : Joined → Prop} (htable : ∀ i ∈ items, P ("cross-join", i.table))
    (hjoins : ∀ i ∈ items, ∀ j ∈ i.joins, P j) : ∀ j ∈ FromItem.joined items, P j := by
  intro j hj
  unfold FromItem.joined at hj
  split at hj
  · exact forall_mem_chain htable hjoins j (List.mem_of_mem_drop hj)
  · obtain ⟨i, hi, hj⟩ := List.mem_flatMap.mp hj
    exact hjoins i hi j hj

end Joins

section Texts

theorem exists_of_visitAll {rs : List (Read α)} {as : List α} (h : visitAll (r :: rs) d = .ok as) :
    ∃ a bs, r ⟨d.limit, d.reached + 1⟩ = .ok a ∧ as = a :: bs := by
  have hall := read_of_visit h
  rw [List.mapM_cons] at hall
  obtain ⟨a, ha, hall⟩ := bind_eq_ok hall
  obtain ⟨bs, -, hall⟩ := bind_eq_ok hall
  exact ⟨a, bs, ha, (Except.ok.inj hall).symm⟩

/-- A text is parsed as what its first command is read as. -/
theorem exists_read_of_parse {s : String} {maxDepth : Int} {v : Value}
    (h : parse maxDepth s = .ok v) :
    ∃ c cs es, commandsOf s = .ok (c :: cs) ∧ Command.read c ⟨maxDepth, 1⟩ = .ok es ∧
      v = .map es := by
  unfold parse parseAll at h
  split at h
  · cases h
  · cases hcs : commandsOf s with
    | error e =>
      rw [hcs] at h
      cases h
    | ok cs =>
      rw [hcs] at h
      cases hvs : readAll maxDepth cs with
      | error e =>
        simp only [bind, Except.bind, hvs] at h
        cases h
      | ok vs =>
        simp only [bind, Except.bind, hvs] at h
        cases cs with
        | nil =>
          have hnil : visit (pure []) ⟨maxDepth, 0⟩ = .ok vs := hvs
          obtain rfl := eq_of_visit_pure hnil
          cases h
        | cons c cs =>
          obtain ⟨w, ws, hw, rfl⟩ := exists_of_visitAll hvs
          have hread : (c.read >>= fun es => pure (Value.map es)) ⟨maxDepth, 1⟩ = .ok w := hw
          obtain ⟨es, hes, hpure⟩ := bind_eq_ok hread
          cases hpure
          cases h
          exact ⟨c, cs, es, rfl, hes, rfl⟩

end Texts

end SqlTree.Syntax
