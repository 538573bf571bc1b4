import Ucore.Errors
import Ucore.Panic

namespace Ucore.KernelRoutine

open Ucore.Errors
open Ucore.Panic

/-- Kernel code over a state: it aborts, or it returns a value or an error code
together with the state it leaves. -/
def Routine (σ α : Type) : Type :=
  σ → Kernel (Except Errno α × σ)

variable {σ α β : Type}

def Routine.andThen (x : Routine σ α) (f : α → Routine σ β) : Routine σ β := fun s =>
  match x s with
  | .error abort => .error abort
  | .ok (.error e, s') => .ok (.error e, s')
  | .ok (.ok a, s') => f a s'

instance : Monad (Routine σ) where
  pure a := fun s => .ok (.ok a, s)
  bind := Routine.andThen

def getState : Routine σ σ :=
  fun s => .ok (.ok s, s)

def modifyState (f : σ → σ) : Routine σ Unit :=
  fun s => .ok (.ok (), f s)

def fail (e : Errno) : Routine σ α :=
  fun s => .ok (.error e, s)

/-- The kernel's `assert`. -/
def ensure (p : Prop) [Decidable p] : Routine σ Unit :=
  fun s => if p then .ok (.ok (), s) else .error .panic

def abort (a : Abort) : Routine σ α :=
  fun _ => .error a

def lift (x : Kernel α) : Routine σ α := fun s =>
  match x with
  | .error abort => .error abort
  | .ok a => .ok (.ok a, s)

/-- Run `x` and hand its error code, if any, to the code that follows. -/
def attempt (x : Routine σ α) : Routine σ (Except Errno α) := fun s =>
  match x s with
  | .error abort => .error abort
  | .ok (r, s') => .ok (.ok r, s')

/-- Run `x` on a part of the state. -/
def onPart {τ : Type} (get : σ → τ) (put : τ → σ → σ) (x : Routine τ α) : Routine σ α := fun s =>
  match x (get s) with
  | .error abort => .error abort
  | .ok (r, t) => .ok (r, put t s)

theorem onPart_of {τ : Type} {get : σ → τ} {put : τ → σ → σ} {x : Routine τ α} {s : σ} {t : τ}
    {r : Except Errno α} (h : x (get s) = .ok (r, t)) :
    onPart get put x s = .ok (r, put t s) := by
  simp only [onPart, h]

theorem onPart_eq_ok {τ : Type} {get : σ → τ} {put : τ → σ → σ} {x : Routine τ α} {s s' : σ}
    {r : Except Errno α} (h : onPart get put x s = .ok (r, s')) :
    ∃ t, x (get s) = .ok (r, t) ∧ s' = put t s := by
  rw [onPart] at h
  cases hx : x (get s) with
  | error a =>
      rw [hx] at h
      cases h
  | ok out =>
      rw [hx] at h
      cases h
      exact ⟨out.2, rfl, rfl⟩

theorem pure_apply (a : α) (s : σ) : (pure a : Routine σ α) s = .ok (.ok a, s) := rfl

theorem fail_apply (e : Errno) (s : σ) : (fail e : Routine σ α) s = .ok (.error e, s) := rfl

theorem bind_of_ok {x : Routine σ α} {f : α → Routine σ β} {s s' : σ} {a : α}
    (h : x s = .ok (.ok a, s')) : (x >>= f) s = f a s' := by
  simp only [bind, Routine.andThen, h]

theorem bind_of_error {x : Routine σ α} {f : α → Routine σ β} {s s' : σ} {e : Errno}
    (h : x s = .ok (.error e, s')) : (x >>= f) s = .ok (.error e, s') := by
  simp only [bind, Routine.andThen, h]

theorem bind_of_abort {x : Routine σ α} {f : α → Routine σ β} {s : σ} {a : Abort}
    (h : x s = .error a) : (x >>= f) s = .error a := by
  simp only [bind, Routine.andThen, h]

theorem routine_bind_assoc {γ : Type} (x : Routine σ α) (f : α → Routine σ β)
    (g : β → Routine σ γ) : x >>= f >>= g = x >>= fun a => f a >>= g := by
  funext s
  cases hx : x s with
  | error a =>
      rw [bind_of_abort hx, bind_of_abort (bind_of_abort hx)]
  | ok p =>
      obtain ⟨r, t⟩ := p
      cases r with
      | error e => rw [bind_of_error hx, bind_of_error (bind_of_error hx)]
      | ok a =>
          have hleft : (x >>= f) s = f a t := bind_of_ok hx
          rw [bind_of_ok hx]
          simp only [bind, Routine.andThen] at hleft ⊢
          rw [hleft]

theorem bind_apply_congr {x y : Routine σ α} {s : σ} (h : x s = y s) (f : α → Routine σ β) :
    (x >>= f) s = (y >>= f) s := by
  simp only [bind, Routine.andThen, h]

/-- A sequence that returned ran its first part to a value or to an error. -/
theorem bind_eq_ok_iff {x : Routine σ α} {f : α → Routine σ β} {s t : σ} {r : Except Errno β} :
    (x >>= f) s = .ok (r, t) ↔
      (∃ a s', x s = .ok (.ok a, s') ∧ f a s' = .ok (r, t)) ∨
        ∃ e, x s = .ok (.error e, t) ∧ r = .error e := by
  cases hx : x s with
  | error a =>
      rw [bind_of_abort hx]
      simp
  | ok p =>
      obtain ⟨r', s'⟩ := p
      cases r' with
      | error e =>
          rw [bind_of_error hx]
          simp only [Except.ok.injEq, Prod.mk.injEq, reduceCtorEq, false_and, exists_false,
            false_or, Except.error.injEq]
          constructor
          · rintro ⟨rfl, rfl⟩
            exact ⟨e, ⟨rfl, rfl⟩, rfl⟩
          · rintro ⟨e', ⟨rfl, rfl⟩, rfl⟩
            exact ⟨rfl, rfl⟩
      | ok a =>
          rw [bind_of_ok hx]
          simp only [Except.ok.injEq, Prod.mk.injEq, reduceCtorEq, false_and, exists_false,
            or_false]
          constructor
          · intro h
            exact ⟨a, s', ⟨rfl, rfl⟩, h⟩
          · rintro ⟨a', s'', ⟨rfl, rfl⟩, h⟩
            exact h

@[simp] theorem getState_bind (f : σ → Routine σ β) (s : σ) :
    (getState >>= f) s = f s s := rfl

@[simp] theorem modifyState_bind (g : σ → σ) (f : Unit → Routine σ β) (s : σ) :
    (modifyState g >>= f) s = f () (g s) := rfl

@[simp] theorem pure_bind_apply (a : α) (f : α → Routine σ β) (s : σ) :
    (pure a >>= f) s = f a s := rfl

theorem ensure_bind_of {p : Prop} [Decidable p] (h : p) (f : Unit → Routine σ β) (s : σ) :
    (ensure p >>= f) s = f () s := by
  apply bind_of_ok
  exact if_pos h

theorem ensure_bind_of_not {p : Prop} [Decidable p] (h : ¬p) (f : Unit → Routine σ β) (s : σ) :
    (ensure p >>= f) s = .error .panic := by
  apply bind_of_abort
  exact if_neg h

/-- An assertion that was passed held. -/
theorem ensure_bind_passed {p : Prop} [Decidable p] {f : Unit → Routine σ α} {s t : σ}
    {r : Except Errno α} (h : (ensure p >>= f) s = .ok (r, t)) : p ∧ f () s = .ok (r, t) := by
  rcases Decidable.em p with hp | hnot
  · rw [ensure_bind_of hp] at h
    exact ⟨hp, h⟩
  · rw [ensure_bind_of_not hnot] at h
    cases h

theorem ensure_of {p : Prop} [Decidable p] (h : p) (s : σ) :
    (ensure p : Routine σ Unit) s = .ok (.ok (), s) :=
  if_pos h

theorem ensure_same {p : Prop} [Decidable p] {s s' : σ} {r : Except Errno Unit}
    (h : ensure p s = .ok (r, s')) : s' = s := by
  rw [ensure] at h
  split at h
  · cases h
    rfl
  · cases h

theorem lift_bind_of_ok {x : Kernel α} {a : α} (h : x = .ok a) (f : α → Routine σ β) (s : σ) :
    (lift x >>= f) s = f a s := by
  apply bind_of_ok
  simp only [lift, h]

theorem attempt_bind_of_ok {x : Routine σ α} {r : Except Errno α} {s s' : σ}
    (h : x s = .ok (r, s')) (f : Except Errno α → Routine σ β) :
    (attempt x >>= f) s = f r s' := by
  apply bind_of_ok
  simp only [attempt, h]

theorem attempt_bind_abort {x : Routine σ α} {f : Except Errno α → Routine σ β} {s : σ} {a : Abort}
    (h : x s = .error a) : (attempt x >>= f) s = .error a := by
  apply bind_of_abort
  rw [attempt, h]

/-- An error that is handed on. -/
theorem attempt_bind_rethrow (x : Routine σ α) {g : Except Errno α → Routine σ β}
    {f : α → Routine σ β} (herror : ∀ e, g (.error e) = fail e) (hok : ∀ a, g (.ok a) = f a) :
    (attempt x >>= g) = (x >>= f) := by
  funext s
  cases hx : x s with
  | error a =>
      have hattempt : attempt x s = .error a := by
        rw [attempt, hx]
      rw [bind_of_abort hattempt, bind_of_abort hx]
  | ok out =>
      obtain ⟨r, t⟩ := out
      rw [attempt_bind_of_ok hx]
      cases r with
      | error e =>
          rw [bind_of_error hx, herror]
          rfl
      | ok a => rw [bind_of_ok hx, hok]

theorem attempt_bind_eq_ok_iff {x : Routine σ α} {f : Except Errno α → Routine σ β} {s t : σ}
    {r : Except Errno β} :
    (attempt x >>= f) s = .ok (r, t) ↔ ∃ r' s', x s = .ok (r', s') ∧ f r' s' = .ok (r, t) := by
  cases hx : x s with
  | error a =>
      have habort : attempt x s = .error a := by
        rw [attempt, hx]
      rw [bind_of_abort habort]
      simp
  | ok p =>
      rw [attempt_bind_of_ok hx]
      constructor
      · intro h
        exact ⟨p.1, p.2, rfl, h⟩
      · rintro ⟨r', s', heq, h⟩
        cases heq
        exact h

section Preserving

variable {inv : σ → Prop}

/-- Whenever the routine returns, the invariant still holds. -/
def Preserves (inv : σ → Prop) (x : Routine σ α) : Prop :=
  ∀ s r s', inv s → x s = .ok (r, s') → inv s'

theorem Preserves.bind {x : Routine σ α} {f : α → Routine σ β} (hx : Preserves inv x)
    (hf : ∀ a, Preserves inv (f a)) : Preserves inv (x >>= f) := by
  intro s r s' hs heq
  rcases bind_eq_ok_iff.mp heq with ⟨a, t, hrun, hrest⟩ | ⟨e, hrun, _⟩
  · exact hf a t r s' (hx s _ t hs hrun) hrest
  · exact hx s _ s' hs hrun

theorem Preserves.pure (a : α) : Preserves inv (pure a : Routine σ α) := by
  intro s r s' hs heq
  cases heq
  exact hs

theorem Preserves.fail (e : Errno) : Preserves inv (fail e : Routine σ α) := by
  intro s r s' hs heq
  cases heq
  exact hs

theorem Preserves.ensure {p : Prop} [Decidable p] :
    Preserves inv (ensure p : Routine σ Unit) := by
  intro s r s' hs heq
  rw [KernelRoutine.ensure] at heq
  split at heq
  · cases heq
    exact hs
  · cases heq

theorem Preserves.ensure_bind {p : Prop} [Decidable p] {f : Unit → Routine σ β}
    (hf : Preserves inv (f ())) : Preserves inv (KernelRoutine.ensure p >>= f) := by
  apply Preserves.bind
  · exact Preserves.ensure
  · intro _
    exact hf

/-- A routine that starts by reading the state may use what is known of it. -/
theorem Preserves.getState_apply {f : σ → Routine σ β}
    (hf : ∀ s, inv s → ∀ r s', f s s = .ok (r, s') → inv s') :
    Preserves inv (getState >>= f) :=
  fun s r s' hs heq => hf s hs r s' heq

theorem Preserves.getState {f : σ → Routine σ β} (hf : ∀ s, Preserves inv (f s)) :
    Preserves inv (getState >>= f) :=
  fun s r s' hs heq => hf s s r s' hs heq

theorem Preserves.modifyState {g : σ → σ} (hg : ∀ s, inv s → inv (g s)) :
    Preserves inv (modifyState g) := by
  intro s r s' hs heq
  cases heq
  exact hg s hs

theorem Preserves.abort (a : Abort) : Preserves inv (abort a : Routine σ α) := by
  intro s r s' _ heq
  cases heq

theorem Preserves.lift (x : Kernel α) : Preserves inv (lift x : Routine σ α) := by
  intro s r s' hs heq
  cases x with
  | error a => cases heq
  | ok a =>
      cases heq
      exact hs

theorem Preserves.attempt_bind {x : Routine σ α} {f : Except Errno α → Routine σ β}
    (hx : Preserves inv x) (hf : ∀ r, Preserves inv (f r)) : Preserves inv (attempt x >>= f) := by
  intro s r s' hs heq
  obtain ⟨r', t, hrun, hrest⟩ := attempt_bind_eq_ok_iff.mp heq
  exact hf r' t r s' (hx s r' t hs hrun) hrest

theorem Preserves.ite {p : Prop} [Decidable p] {x y : Routine σ α} (hx : Preserves inv x)
    (hy : Preserves inv y) : Preserves inv (if p then x else y) := by
  split
  · exact hx
  · exact hy

end Preserving

end Ucore.KernelRoutine
