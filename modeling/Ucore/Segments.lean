import Ucore.Interleaving
import Ucore.KernelRoutine

/-! Calls of threads that share a state, cut where a thread may be suspended. -/

namespace Ucore.Segments

open Ucore.Errors
open Ucore.KernelRoutine
open Ucore.Interleaving

variable {ι σ π α : Type}

/-- Where a thread is after a piece of code. A call that fails is over. -/
def after (idle : π) : Except Errno π → π
  | .ok x => x
  | .error _ => idle

variable [DecidableEq ι]

/-- The piece of code returns, and the invariant holds where it leaves the thread. -/
def Goes (inv : Threads ι σ π → Prop) (idle : π) (s : Threads ι σ π) (i : ι)
    (x : Routine σ π) : Prop :=
  ∃ r t, x s.shared = .ok (r, t) ∧
    inv { shared := t, pc := Function.update s.pc i (after idle r) }

variable {inv : Threads ι σ π → Prop} {idle : π} {s : Threads ι σ π} {i : ι}

theorem goes_pure {x : π} (h : inv { shared := s.shared, pc := Function.update s.pc i x }) :
    Goes inv idle s i (pure x) :=
  ⟨.ok x, s.shared, rfl, h⟩

theorem goes_fail (h : inv { shared := s.shared, pc := Function.update s.pc i idle }) (e : Errno) :
    Goes inv idle s i (fail e) :=
  ⟨.error e, s.shared, rfl, h⟩

/-- Between two pieces of the code the thread may be seen at any place. -/
theorem goes_bind {x : Routine σ α} {f : α → Routine σ π} {a : α} {t : σ} (y : π)
    (hrun : x s.shared = .ok (.ok a, t))
    (hgo : Goes inv idle { shared := t, pc := Function.update s.pc i y } i (f a)) :
    Goes inv idle s i (x >>= f) := by
  obtain ⟨r, t', hrest, hinv⟩ := hgo
  refine ⟨r, t', ?_, ?_⟩
  · rw [bind_of_ok hrun]
    exact hrest
  · rwa [Function.update_idem] at hinv

/-- The thread stays where it is seen. -/
theorem goes_bind_same {x : Routine σ α} {f : α → Routine σ π} {a : α} {t : σ}
    (hrun : x s.shared = .ok (.ok a, t))
    (hgo : Goes inv idle { shared := t, pc := s.pc } i (f a)) : Goes inv idle s i (x >>= f) := by
  apply goes_bind (s.pc i) hrun
  rwa [Function.update_eq_self]

theorem goes_getState {f : σ → Routine σ π} (hgo : Goes inv idle s i (f s.shared)) :
    Goes inv idle s i (getState >>= f) :=
  hgo

theorem goes_ensure {p : Prop} [Decidable p] {f : Unit → Routine σ π} (hp : p)
    (hgo : Goes inv idle s i (f ())) : Goes inv idle s i (ensure p >>= f) := by
  apply goes_bind_same (ensure_of hp s.shared)
  exact hgo

/-- A piece of code that returned came to where the invariant holds. -/
theorem Goes.inv_of_eq {x : Routine σ π} {r : Except Errno π} {t : σ}
    (h : Goes inv idle s i x) (hrun : x s.shared = .ok (r, t)) :
    inv { shared := t, pc := Function.update s.pc i (after idle r) } := by
  obtain ⟨r', t', hrun', hinv⟩ := h
  cases hrun.symm.trans hrun'
  exact hinv

end Ucore.Segments
