import Mathlib.Data.List.Forall2
import SqlTree.Proofs.Coupling.Basic

/-!
What holds after a rendering: a property of its result, and one of the fault where it fails. The
rules carry both from the parts of a rendering to the whole.
-/

namespace SqlTree

/-- A result with the property `P`, or a fault with the property `E`. -/
def Meets {α : Type} (E : Fault → Prop) (P : α → Prop) : Except Fault α → Prop
  | .ok a => P a
  | .error e => E e

theorem forall_of_forall₂ {α β : Type} {R : β → Prop} {as : List α} {bs : List β}
    (h : List.Forall₂ (fun _ => R) as bs) {b : β} (hb : b ∈ bs) : R b := by
  induction h with
  | nil => cases hb
  | cons h _ ih =>
    rcases List.mem_cons.mp hb with rfl | hb
    · exact h
    · exact ih hb

theorem forall₂_append_left {α β : Type} {R : α → β → Prop} {xs ys : List α} {zs : List β}
    (h : List.Forall₂ R (xs ++ ys) zs) :
    ∃ us vs, zs = us ++ vs ∧ List.Forall₂ R xs us ∧ List.Forall₂ R ys vs :=
  ⟨_, _, (List.take_append_drop xs.length zs).symm, (List.forall₂_take_append _ _ _ h.flip).flip,
    (List.forall₂_drop_append _ _ _ h.flip).flip⟩

namespace Meets

variable {α β : Type} {E : Fault → Prop} {P Q : α → Prop} {R : β → Prop}

theorem mono {x : Except Fault α} (h : Meets E P x) (hPQ : ∀ a, P a → Q a) : Meets E Q x := by
  cases x with
  | error e => exact h
  | ok a => exact hPQ a h

theorem and {x : Except Fault α} (hP : Meets E P x) (hQ : Meets E Q x) :
    Meets E (fun a => P a ∧ Q a) x := by
  cases x with
  | error e => exact hP
  | ok a => exact ⟨hP, hQ⟩

theorem of_ok {x : Except Fault α} {a : α} (h : Meets E P x) (hx : x = .ok a) : P a := by
  subst hx
  exact h

theorem of_forall {x : Except Fault α} (hok : ∀ a, x = .ok a → P a)
    (herror : ∀ e, x = .error e → E e) : Meets E P x := by
  cases x with
  | error e => exact herror e rfl
  | ok a => exact hok a rfl

theorem bind {x : Except Fault α} {k : α → Except Fault β} (h : Meets E P x)
    (hk : ∀ a, P a → Meets E R (k a)) : Meets E R (x >>= k) := by
  cases x with
  | error e => exact h
  | ok a => exact hk a h

theorem mapM {P : α → β → Prop} {f : α → Except Fault β} {as : List α}
    (h : ∀ a ∈ as, Meets E (P a) (f a)) : Meets E (List.Forall₂ P as) (as.mapM f) := by
  induction as with
  | nil => exact .nil
  | cons a as ih =>
    rw [List.mapM_cons]
    refine .bind (h a (by simp)) fun b hb => ?_
    exact .bind (ih fun a ha => h a (by simp [ha])) fun bs hbs => List.Forall₂.cons hb hbs

theorem mapM_all {f : α → Except Fault β} {as : List α} (h : ∀ a ∈ as, Meets E R (f a)) :
    Meets E (fun bs => ∀ b ∈ bs, R b) (as.mapM f) :=
  (mapM h).mono fun _ hbs _ hb => forall_of_forall₂ hbs hb

end Meets

namespace Render

/-- However many values are bound before, the rendering comes to a result with the property `P`, or
to a fault with the property `E`. -/
structure Ensures {α : Type} (E : Fault → Prop) (P : α → Prop) (x : Render α) : Prop where
  run : ∀ n, Meets E (fun r => P r.1) (x n)

namespace Ensures

variable {α β δ : Type} {E : Fault → Prop} {P Q : α → Prop} {R : β → Prop}

theorem of_ok {x : Render α} {n n' : Nat} {a : α} (h : Ensures E P x) (hx : x n = .ok (a, n')) :
    P a :=
  (h.run n).of_ok hx

theorem pure {a : α} (h : P a) : Ensures E P (pure a) := ⟨fun _ => h⟩

theorem fail {e : Fault} (h : E e) : Ensures E P (fail e) := ⟨fun _ => h⟩

theorem mono {x : Render α} (h : Ensures E P x) (hPQ : ∀ a, P a → Q a) : Ensures E Q x :=
  ⟨fun n => (h.run n).mono fun r => hPQ r.1⟩

theorem and {x : Render α} (hP : Ensures E P x) (hQ : Ensures E Q x) :
    Ensures E (fun a => P a ∧ Q a) x :=
  ⟨fun n => (hP.run n).and (hQ.run n)⟩

theorem bind {x : Render α} {k : α → Render β} (h : Ensures E P x)
    (hk : ∀ a, P a → Ensures E R (k a)) : Ensures E R (x >>= k) :=
  ⟨fun n => Meets.bind (h.run n) fun r hr => (hk r.1 hr).run r.2⟩

theorem bind_lift {e : Except Fault δ} {S : δ → Prop} {k : δ → Render β} (h : Meets E S e)
    (hk : ∀ d, S d → Ensures E R (k d)) : Ensures E R (liftM e >>= k) := by
  cases e with
  | error f => exact fail h
  | ok d => exact hk d h

theorem mapM {P : δ → α → Prop} {f : δ → Render α} {ds : List δ}
    (h : ∀ d ∈ ds, Ensures E (P d) (f d)) : Ensures E (List.Forall₂ P ds) (ds.mapM f) := by
  induction ds with
  | nil => exact pure .nil
  | cons d ds ih =>
    rw [List.mapM_cons]
    refine bind (h d (by simp)) fun a ha => ?_
    exact bind (ih fun d hd => h d (by simp [hd])) fun as has => pure (.cons ha has)

theorem mapM_all {f : δ → Render α} {ds : List δ} (h : ∀ d ∈ ds, Ensures E P (f d)) :
    Ensures E (fun as => ∀ a ∈ as, P a) (ds.mapM f) :=
  (mapM h).mono fun _ has _ ha => forall_of_forall₂ has ha

end Ensures

end Render

end SqlTree
