import Ucore.KernelRoutine

/-! Pre- and postconditions of routines. -/

namespace Ucore.Triples

open Ucore.Errors
open Ucore.Panic
open Ucore.KernelRoutine

variable {σ α β : Type}

/-- What holds after a routine has returned: `Q` of its value, or `E` after an
error. -/
def Post (Q : α → σ → Prop) (E : σ → Prop) : Except Errno α × σ → Prop
  | (.ok a, s) => Q a s
  | (.error _, s) => E s

/-- Started in a state with `P`, the routine leaves one with `Q` or `E`, if it
returns. -/
def Triple (P : σ → Prop) (x : Routine σ α) (Q : α → σ → Prop) (E : σ → Prop) : Prop :=
  ∀ s r, P s → x s = .ok r → Post Q E r

variable {P P' : σ → Prop} {Q Q' : α → σ → Prop} {R : β → σ → Prop} {E E' : σ → Prop}

theorem Triple.bind {x : Routine σ α} {f : α → Routine σ β} (hx : Triple P x Q E)
    (hf : ∀ a, Triple (Q a) (f a) R E) : Triple P (x >>= f) R E := by
  rintro s ⟨r, t⟩ hs heq
  rcases bind_eq_ok_iff.mp heq with ⟨a, s', hrun, hrest⟩ | ⟨e, hrun, rfl⟩
  · exact hf a s' (r, t) (hx s (.ok a, s') hs hrun) hrest
  · exact hx s (.error e, t) hs hrun

theorem Triple.pure {a : α} (h : ∀ s, P s → Q a s) : Triple P (pure a) Q E := by
  intro s r hs heq
  cases heq
  exact h s hs

theorem Triple.fail {e : Errno} (h : ∀ s, P s → E s) : Triple P (fail e) Q E := by
  intro s r hs heq
  cases heq
  exact h s hs

theorem Triple.abort (a : Abort) : Triple P (abort a) Q E := by
  intro s r _ heq
  cases heq

theorem Triple.ensure_bind {p : Prop} [Decidable p] {f : Unit → Routine σ β}
    (hf : p → Triple P (f ()) R E) : Triple P (ensure p >>= f) R E := by
  intro s r hs heq
  rcases Decidable.em p with hp | hp
  · rw [KernelRoutine.ensure_bind_of hp] at heq
    exact hf hp s r hs heq
  · rw [KernelRoutine.ensure_bind_of_not hp] at heq
    cases heq

theorem Triple.ensure {p : Prop} [Decidable p] {Q : Unit → σ → Prop} (h : ∀ s, P s → Q () s) :
    Triple P (ensure p) Q E := by
  intro s r hs heq
  rw [KernelRoutine.ensure] at heq
  split at heq
  · cases heq
    exact h s hs
  · cases heq

/-- A routine that reads the state goes on with what is known of it. -/
theorem Triple.getState {f : σ → Routine σ β}
    (hf : ∀ s, P s → Triple (fun t => t = s) (f s) R E) : Triple P (getState >>= f) R E :=
  fun s r hs heq => hf s hs s r rfl heq

theorem Triple.modifyState {g : σ → σ} {Q : Unit → σ → Prop} (h : ∀ s, P s → Q () (g s)) :
    Triple P (modifyState g) Q E := by
  intro s r hs heq
  cases heq
  exact h s hs

/-- The code after an attempt sees the value or the error code. -/
theorem Triple.attempt_bind {x : Routine σ α} {f : Except Errno α → Routine σ β}
    (hx : Triple P x Q P') (hok : ∀ a, Triple (Q a) (f (.ok a)) R E)
    (herror : ∀ e, Triple P' (f (.error e)) R E) : Triple P (attempt x >>= f) R E := by
  rintro s ⟨r, t⟩ hs heq
  obtain ⟨r', s', hrun, hrest⟩ := attempt_bind_eq_ok_iff.mp heq
  cases r' with
  | ok a => exact hok a s' (r, t) (hx s (.ok a, s') hs hrun) hrest
  | error e => exact herror e s' (r, t) (hx s (.error e, s') hs hrun) hrest

theorem Triple.ite {p : Prop} [Decidable p] {x y : Routine σ α} (hx : p → Triple P x Q E)
    (hy : ¬p → Triple P y Q E) : Triple P (if p then x else y) Q E := by
  split
  · next hp => exact hx hp
  · next hp => exact hy hp

theorem Triple.conseq {x : Routine σ α} (hx : Triple P' x Q' E') (hP : ∀ s, P s → P' s)
    (hQ : ∀ a s, Q' a s → Q a s) (hE : ∀ s, E' s → E s) : Triple P x Q E := by
  rintro s ⟨r, t⟩ hs heq
  have hpost := hx s (r, t) (hP s hs) heq
  cases r with
  | ok a => exact hQ a t hpost
  | error e => exact hE t hpost

/-- A precondition may be used for each state that meets it. -/
theorem Triple.of_pre {x : Routine σ α} (h : ∀ s, P s → Triple (fun t => t = s) x Q E) :
    Triple P x Q E :=
  fun s r hs heq => h s hs s r rfl heq

theorem Triple.of_eq {x : Routine σ α} {s : σ} (hs : P s) (hx : Triple P x Q E) :
    Triple (fun t => t = s) x Q E := by
  rintro t r rfl heq
  exact hx t r hs heq

/-- A routine that does not change the state, whatever it returns. -/
theorem Triple.of_same {x : Routine σ α} (h : ∀ s r s', P s → x s = .ok (r, s') → s' = s) :
    Triple P x (fun _ => P) P := by
  rintro s ⟨r, s'⟩ hs heq
  have hsame := h s r s' hs heq
  subst hsame
  cases r with
  | ok a => exact hs
  | error e => exact hs

end Ucore.Triples
