import Ucore.Triples

/-! Routines that do not abort. -/

namespace Ucore.SafeRoutines

open Ucore.Errors
open Ucore.KernelRoutine
open Ucore.Triples

variable {σ α β : Type} {P P' : σ → Prop} {Q : α → σ → Prop} {E : σ → Prop}

/-- Started in a state with `P`, the routine returns. -/
def Safe (P : σ → Prop) (x : Routine σ α) : Prop :=
  ∀ s, P s → ∃ r, x s = .ok r

theorem Safe.pure (a : α) : Safe P (pure a) :=
  fun s _ => ⟨(.ok a, s), rfl⟩

theorem Safe.modifyState (f : σ → σ) : Safe P (modifyState f) :=
  fun s _ => ⟨(.ok (), f s), rfl⟩

theorem Safe.getState {f : σ → Routine σ α} (hf : ∀ s, P s → Safe (fun t => t = s) (f s)) :
    Safe P (getState >>= f) :=
  fun s hs => hf s hs s rfl

theorem Safe.ite {p : Prop} [Decidable p] {x y : Routine σ α} (hx : p → Safe P x)
    (hy : ¬p → Safe P y) : Safe P (if p then x else y) := by
  split
  · next hp => exact hx hp
  · next hp => exact hy hp

theorem Safe.conseq {x : Routine σ α} (hx : Safe P' x) (h : ∀ s, P s → P' s) : Safe P x :=
  fun s hs => hx s (h s hs)

theorem Safe.bind {x : Routine σ α} {f : α → Routine σ β} (hx : Safe P x) (hQ : Triple P x Q E)
    (hf : ∀ a, Safe (Q a) (f a)) : Safe P (x >>= f) := by
  intro s hs
  obtain ⟨⟨r, t⟩, hrun⟩ := hx s hs
  have hpost := hQ s (r, t) hs hrun
  cases r with
  | error e => exact ⟨(.error e, t), bind_of_error hrun⟩
  | ok a =>
      rw [bind_of_ok hrun]
      exact hf a t hpost

/-- The code after an attempt sees the value or the error code. -/
theorem Safe.attempt_bind {x : Routine σ α} {f : Except Errno α → Routine σ β} (hx : Safe P x)
    (hQ : Triple P x Q E) (hok : ∀ a, Safe (Q a) (f (.ok a))) (herror : ∀ e, Safe E (f (.error e))) :
    Safe P (attempt x >>= f) := by
  intro s hs
  obtain ⟨⟨r, t⟩, hrun⟩ := hx s hs
  have hpost := hQ s (r, t) hs hrun
  rw [attempt_bind_of_ok hrun]
  cases r with
  | error e => exact herror e t hpost
  | ok a => exact hok a t hpost

/-- A routine that returns, and never with an error code, returns a value. -/
theorem Safe.value {x : Routine σ α} (hx : Safe P x) (hQ : Triple P x Q fun _ => False) {s : σ}
    (hs : P s) : ∃ a t, x s = .ok (.ok a, t) ∧ Q a t := by
  obtain ⟨⟨r, t⟩, hrun⟩ := hx s hs
  have hpost := hQ s (r, t) hs hrun
  cases r with
  | error e => exact hpost.elim
  | ok a => exact ⟨a, t, hrun, hpost⟩

end Ucore.SafeRoutines
