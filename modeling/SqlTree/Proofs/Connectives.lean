import SqlTree.Proofs.Grammatical
import Mathlib.Data.List.Induction

/-!
Chains of one connective are read flat: as one level, however long they are, with their operands on
the next one. And where the limit of the depth is raised, whatever was read before is read as it
was.
-/

namespace SqlTree.Syntax

section Chains

/-- Operands that a connective joins from the left. -/
def Connective.chain (op : Connective) (first : Expr) (rest : List Expr) : Expr :=
  rest.foldl (.connected op) first

variable {op : Connective} {first e : Expr} {rest es : List Expr} {limit : Int} {k : Nat}

/-- An operand that is no chain of the connective itself counts as one. -/
theorem operands_of_ne (h : ∀ left right, e ≠ .connected op left right) :
    e.read.operands op = do return [← e.read.value] := by
  cases e
  case connected op' left right =>
    have hop : op ≠ op' := by
      rintro rfl
      exact h left right rfl
    exact if_neg hop
  all_goals rfl

theorem chain_append (op : Connective) (first : Expr) (rest : List Expr) (e : Expr) :
    op.chain first (rest ++ [e]) = .connected op (op.chain first rest) e := by
  rw [Connective.chain, List.foldl_append]
  rfl

theorem operands_connected (op : Connective) (left right : Expr) :
    (Tree.connected op left right).read.operands op =
      Reading.chainOperands op left.read right.read :=
  if_pos rfl

/-- Going down the left side comes to all operands, in their order. -/
theorem operands_chain (hfirst : ∀ left right, first ≠ .connected op left right)
    (rest : List Expr) : (op.chain first rest).read.operands op =
      ((first :: rest).map (·.read.value)).mapM id := by
  induction rest using List.reverseRecOn with
  | nil =>
    rw [Connective.chain, List.foldl_nil, operands_of_ne hfirst, List.map_cons, List.mapM_cons]
    rfl
  | append_singleton rest e ih =>
    rw [chain_append, operands_connected, ← List.cons_append, List.map_append, List.mapM_append,
      ← ih]
    simp [Reading.chainOperands]

theorem value_chain (hfirst : ∀ left right, first ≠ .connected op left right) (hrest : rest ≠ []) :
    (op.chain first rest).read.value =
      visit do return headed op.word (← ((first :: rest).map (·.read.value)).mapM id) := by
  rw [← operands_chain hfirst]
  obtain rfl | ⟨rest, e, rfl⟩ := List.eq_nil_or_concat' rest
  · contradiction
  · rw [chain_append, operands_connected]
    rfl

end Chains

section Outcomes

variable {α : Type} {op : Connective} {first e : Expr} {rest : List Expr} {limit : Int} {k : Nat}

/-- Readings in a row fail as the first one that fails. -/
theorem mapM_eq_error_iff {rs : List (Read α)} {d : Depth} {f : Fault} :
    (rs.mapM id) d = .error f ↔ ∃ before r after, rs = before ++ r :: after ∧
      (∀ b ∈ before, ∃ a, b d = .ok a) ∧ r d = .error f := by
  induction rs with
  | nil => simp [pure, ReaderT.pure, Except.pure]
  | cons r rs ih =>
    rw [List.mapM_cons]
    change (r d).bind (fun a => ((rs.mapM id) d).bind fun as => .ok (a :: as)) = _ ↔ _
    constructor
    · intro h
      cases hr : r d with
      | error e =>
        rw [hr] at h
        cases h
        exact ⟨[], r, rs, rfl, nofun, hr⟩
      | ok a =>
        cases hrs : (rs.mapM id) d with
        | ok as =>
          rw [hr, hrs] at h
          cases h
        | error e =>
          rw [hr, hrs] at h
          cases h
          obtain ⟨before, r', after, rfl, hbefore, hr'⟩ := ih.mp hrs
          exact ⟨r :: before, r', after, rfl, List.forall_mem_cons.mpr ⟨⟨a, hr⟩, hbefore⟩, hr'⟩
    · rintro ⟨before, r', after, heq, hbefore, hr'⟩
      cases before with
      | nil =>
        obtain ⟨rfl, rfl⟩ := List.cons.inj heq
        rw [hr']
        rfl
      | cons b before =>
        obtain ⟨rfl, rfl⟩ := List.cons.inj heq
        obtain ⟨⟨a, ha⟩, hbefore⟩ := List.forall_mem_cons.mp hbefore
        rw [ha, ih.mpr ⟨before, r', after, rfl, hbefore, hr'⟩]
        rfl

theorem exists_ok_of_mem {d : Depth} {es : List Expr} {vs : List Value}
    (h : List.Forall₂ (fun e v => e.read.value d = .ok v) es vs) (he : e ∈ es) :
    ∃ v, e.read.value d = .ok v := by
  induction h with
  | nil => cases he
  | cons hv _ ih =>
    rcases List.mem_cons.mp he with rfl | he
    · exact ⟨_, hv⟩
    · exact ih he

/-- A numeral in the tree is not too long; nodes of other kinds are left alone. -/
def isLegible : (k : Kind) → Tree k → Bool
  | _, .number digits => Literal.isReadable digits
  | _, _ => true

theorem settled_of_isLegible (h : e.every isLegible = true) : Settled false e.read.value := by
  have hstable : Stable false .expr e.read :=
    stable_read (fun _ hdigits => (Bool.false_or _).trans hdigits) h
  exact hstable.value

/-- Where all numerals can be read, an operand fails for its depth only. -/
theorem exists_textTooDeep (h : e.every isLegible = true) {d : Depth} {f : Fault}
    (hf : e.read.value d = .error f) : ∃ n, f = .textTooDeep n d.limit := by
  obtain ⟨v, need, hv⟩ := (settled_of_isLegible h).exists_ok
  rcases hv d with hok | ⟨-, n, hdeep⟩
  · cases hf.symm.trans hok
  · exact ⟨n, Except.error.inj (hf.symm.trans hdeep)⟩

end Outcomes

section Limits

theorem every_true {k : Kind} (t : Tree k) : t.every (fun _ _ => true) = true := by
  induction t <;> simp_all [Tree.every]

/-- What a tree of the kind is read as stays as it is where the limit is raised. -/
def Steady : (k : Kind) → Meaning k → Prop
  | .expr, o => Deepens o.value ∧ ∀ op, Deepens (o.operands op)
  | .branch, r => Deepens r
  | .window, r => Deepens r
  | .orderItem, r => Deepens r
  | .limit, r => Deepens r
  | .query, r => Deepens r
  | .ctes, r => Deepens r
  | .cte, r => Deepens r
  | .body, r => Deepens r
  | .distinct, r => Deepens r
  | .select, r => Deepens r
  | .selectItem, r => Deepens r
  | .source, r => Deepens r
  | .table, r => Deepens r
  | .join, r => Deepens r
  | .joinTest, r => Deepens r
  | .assignment, r => Deepens r
  | .row, r => Deepens r
  | .insertSource, r => Deepens r
  | .conflictTarget, r => Deepens r
  | .conflictAction, r => Deepens r
  | .conflict, r => Deepens r
  | .statement, r => Deepens r
  | .list k, ms => ∀ m ∈ (show List (Meaning k) from ms), Steady k m
  | .option k, m => ∀ n ∈ (show Option (Meaning k) from m), Steady k n

theorem steady_of_stable {k : Kind} {m : Meaning k} (h : Stable true k m) : Steady k m := by
  induction k with
  | expr => exact ⟨h.value.deepens, fun op => (h.operands op).deepens⟩
  | list k ih => exact fun m hm => ih (h m hm)
  | option k ih => exact fun n hn => ih (h n hn)
  | _ => exact h.deepens

/-- A larger limit changes nothing about what has been read. -/
theorem steady_read {k : Kind} (t : Tree k) : Steady k t.read :=
  steady_of_stable (stable_read (fun _ _ => rfl) (every_true t))

end Limits

section Flat

variable {op : Connective} {first e : Expr} {rest : List Expr} {limit : Int} {k : Nat}
  (hfirst : ∀ left right, first ≠ .connected op left right) (hrest : rest ≠ [])

include hfirst hrest

theorem chain_tooDeep (h : limit < k + 1) :
    (op.chain first rest).read.value ⟨limit, k⟩ = .error (.textTooDeep (k + 1) limit) := by
  rw [value_chain hfirst hrest]
  exact if_pos h

theorem chain_of_le (h : k + 1 ≤ limit) :
    (op.chain first rest).read.value ⟨limit, k⟩ =
      (((first :: rest).map (·.read.value)).mapM id ⟨limit, k + 1⟩).map (headed op.word) := by
  rw [value_chain hfirst hrest]
  refine (if_neg (Int.not_lt.mpr h)).trans ?_
  change (Except.bind _ fun vs => .ok (headed op.word vs)) = _
  cases ((first :: rest).map (·.read.value)).mapM id ⟨limit, k + 1⟩ <;> rfl

theorem chain_eq_ok_iff (v : Value) :
    (op.chain first rest).read.value ⟨limit, k⟩ = .ok v ↔ k + 1 ≤ limit ∧
      ∃ vs, List.Forall₂ (fun e v => e.read.value ⟨limit, k + 1⟩ = .ok v) (first :: rest) vs ∧
        v = headed op.word vs := by
  rcases Int.lt_or_le limit (k + 1) with hdeep | hle
  · rw [chain_tooDeep hfirst hrest hdeep]
    exact iff_of_false nofun fun h => Int.not_lt.mpr h.1 hdeep
  · rw [chain_of_le hfirst hrest hle]
    constructor
    · intro h
      cases hvs : ((first :: rest).map (·.read.value)).mapM id ⟨limit, k + 1⟩ with
      | error f =>
        rw [hvs] at h
        cases h
      | ok vs =>
        rw [hvs] at h
        cases h
        rw [mapM_eq_ok_iff, List.forall₂_map_left_iff] at hvs
        exact ⟨hle, vs, hvs, rfl⟩
    · rintro ⟨-, vs, hvs, rfl⟩
      rw [mapM_eq_ok_iff.mpr (List.forall₂_map_left_iff.mpr hvs)]
      rfl

theorem chain_eq_error_iff (f : Fault) :
    (op.chain first rest).read.value ⟨limit, k⟩ = .error f ↔
      limit < k + 1 ∧ f = .textTooDeep (k + 1) limit ∨ k + 1 ≤ limit ∧
        ∃ before e after, first :: rest = before ++ e :: after ∧
          (∀ b ∈ before, ∃ v, b.read.value ⟨limit, k + 1⟩ = .ok v) ∧
          e.read.value ⟨limit, k + 1⟩ = .error f := by
  rcases Int.lt_or_le limit (k + 1) with hdeep | hle
  · rw [chain_tooDeep hfirst hrest hdeep]
    constructor
    · rintro ⟨⟩
      exact .inl ⟨hdeep, rfl⟩
    · rintro (⟨-, rfl⟩ | ⟨hle, -⟩)
      · rfl
      · exact absurd hdeep (Int.not_lt.mpr hle)
  · have hmap : (op.chain first rest).read.value ⟨limit, k⟩ = .error f ↔
        ((first :: rest).map (·.read.value)).mapM id ⟨limit, k + 1⟩ = .error f := by
      rw [chain_of_le hfirst hrest hle]
      cases ((first :: rest).map (·.read.value)).mapM id ⟨limit, k + 1⟩ with
      | ok vs => exact iff_of_false nofun nofun
      | error g => exact Iff.of_eq (by rw [Except.map, Except.error.injEq, Except.error.injEq])
    rw [hmap, mapM_eq_error_iff]
    constructor
    · rintro ⟨before, r, after, heq, hbefore, hr⟩
      obtain ⟨es, tail, heq', rfl, htail⟩ := List.map_eq_append_iff.mp heq
      obtain ⟨e, es', rfl, rfl, rfl⟩ := List.map_eq_cons_iff.mp htail
      have hbefore' : ∀ b ∈ es, ∃ v, b.read.value ⟨limit, k + 1⟩ = .ok v := fun b hb =>
        hbefore _ (List.mem_map_of_mem hb)
      exact .inr ⟨hle, es, e, es', heq', hbefore', hr⟩
    · rintro (⟨hdeep, -⟩ | ⟨-, before, e, after, heq, hbefore, he⟩)
      · exact absurd hdeep (Int.not_lt.mpr hle)
      · refine ⟨before.map (·.read.value), _, _, by rw [heq, List.map_append, List.map_cons], ?_, he⟩
        exact List.forall_mem_map.mpr hbefore

theorem chain_tooDeep_iff (hlegible : ∀ e ∈ first :: rest, e.every isLegible = true) :
    (∃ n, (op.chain first rest).read.value ⟨limit, k⟩ = .error (.textTooDeep n limit)) ↔
      limit < k + 1 ∨ ∃ e ∈ first :: rest, ∃ f, e.read.value ⟨limit, k + 1⟩ = .error f := by
  constructor
  · rintro ⟨n, hn⟩
    rcases (chain_eq_error_iff hfirst hrest _).mp hn with ⟨hdeep, -⟩ | ⟨-, _, e, _, heq, -, he⟩
    · exact .inl hdeep
    · exact .inr ⟨e, by simp [heq], _, he⟩
  · rintro (hdeep | ⟨e, he, f, hf⟩)
    · exact ⟨_, chain_tooDeep hfirst hrest hdeep⟩
    cases hwhole : (op.chain first rest).read.value ⟨limit, k⟩ with
    | ok v =>
      obtain ⟨-, vs, hvs, -⟩ := (chain_eq_ok_iff hfirst hrest v).mp hwhole
      obtain ⟨w, hw⟩ := exists_ok_of_mem hvs he
      cases hw.symm.trans hf
    | error g =>
      rcases (chain_eq_error_iff hfirst hrest g).mp hwhole with
        ⟨-, rfl⟩ | ⟨-, _, e', _, heq, -, he'⟩
      · exact ⟨_, rfl⟩
      · obtain ⟨n, rfl⟩ := exists_textTooDeep (hlegible e' (by simp [heq])) he'
        exact ⟨n, rfl⟩

end Flat

section Reading

/-- A chain of any length is one array of what its operands are read as, in their order, one level
below it. It fails for its own depth or as its first operand that fails; where all numerals can be
read, it fails for its depth if and only if it stands too deep itself or some operand fails alone.
And no tree is read as anything else where the limit is raised. -/
theorem chain_read_flat (op : Connective) {first : Expr} {rest : List Expr}
    (hfirst : ∀ left right, first ≠ .connected op left right) (hrest : rest ≠ [])
    (limit : Int) (k : Nat) :
    (∀ v, (op.chain first rest).read.value ⟨limit, k⟩ = .ok v ↔ k + 1 ≤ limit ∧
      ∃ vs, List.Forall₂ (fun e v => e.read.value ⟨limit, k + 1⟩ = .ok v) (first :: rest) vs ∧
        v = headed op.word vs) ∧
    (∀ f, (op.chain first rest).read.value ⟨limit, k⟩ = .error f ↔
      limit < k + 1 ∧ f = .textTooDeep (k + 1) limit ∨ k + 1 ≤ limit ∧
        ∃ before e after, first :: rest = before ++ e :: after ∧
          (∀ b ∈ before, ∃ v, b.read.value ⟨limit, k + 1⟩ = .ok v) ∧
          e.read.value ⟨limit, k + 1⟩ = .error f) ∧
    ((∀ e ∈ first :: rest, e.every isLegible = true) →
      ((∃ n, (op.chain first rest).read.value ⟨limit, k⟩ = .error (.textTooDeep n limit)) ↔
        limit < k + 1 ∨ ∃ e ∈ first :: rest, ∃ f, e.read.value ⟨limit, k + 1⟩ = .error f)) ∧
    ∀ (kind : Kind) (t : Tree kind), Steady kind t.read :=
  ⟨chain_eq_ok_iff hfirst hrest, chain_eq_error_iff hfirst hrest, chain_tooDeep_iff hfirst hrest,
    fun _ => steady_read⟩

/-- `a OR (b OR c) OR d` -/
theorem chain_read_flat_paren :
    let column := fun name => Tree.column [⟨name, false⟩]
    let group := Tree.paren (.connected .or (column "b") (column "c"))
    (Connective.or.chain (column "a") [group, column "d"]).read.value ⟨4, 0⟩ =
        .ok (headed "or" [.text "a", headed "or" [.text "b", .text "c"], .text "d"]) ∧
      ∃ n, (Connective.or.chain (column "a") [group, column "d"]).read.value ⟨3, 0⟩ =
        .error (.textTooDeep n 3) := by
  intro column group
  have hfirst : ∀ left right, column "a" ≠ .connected .or left right := nofun
  have hrest : [group, column "d"] ≠ [] := by simp
  refine ⟨((chain_read_flat .or hfirst hrest 4 0).1 _).mpr ⟨by decide, _, ?_, rfl⟩, ?_⟩
  · exact .cons (by rfl) (.cons (by rfl) (.cons (by rfl) .nil))
  · refine ((chain_read_flat .or hfirst hrest 3 0).2.2.1 (by decide)).mpr ?_
    exact .inr ⟨group, by simp, _, by rfl⟩

theorem number_unread {n k : Nat} {limit : Int} (h : 10 ^ Literal.digitLimit ≤ n)
    (hk : k + 1 ≤ limit) : (Tree.number n.repr).read.value ⟨limit, k⟩ = .error .longNumeral := by
  change visit (fun _ => (Literal.number n.repr).map untyped) ⟨limit, k⟩ = _
  rw [number_of_le h]
  exact if_neg (Int.not_lt.mpr hk)

/-- An integer that is too long is met before an operand that stands too deep. -/
theorem chain_longNumeral :
    (Tree.paren (.column [⟨"a", false⟩])).read.value ⟨2, 1⟩ = .error (.textTooDeep 3 2) ∧
      (Connective.or.chain (.number (10 ^ Literal.digitLimit).repr)
        [.paren (.column [⟨"a", false⟩])]).read.value ⟨2, 0⟩ = .error .longNumeral := by
  have hfirst : ∀ left right,
      Tree.number (10 ^ Literal.digitLimit).repr ≠ .connected .or left right := nofun
  refine ⟨by rfl, (chain_eq_error_iff hfirst (by simp) _).mpr (.inr ⟨by decide, ?_⟩)⟩
  exact ⟨[], _, _, rfl, nofun, number_unread (Nat.le_refl _) (by decide)⟩

end Reading

end SqlTree.Syntax
