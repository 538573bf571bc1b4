import Mathlib.Order.Lattice
import Ucore.KernelRoutine

/-! Code whose loops get a number of turns: it returns when it does so with enough of them. -/

namespace Ucore.Returning

open Ucore.KernelRoutine

variable {σ α β : Type} {s s' s'' : σ} {a : α} {b : β}

/-- With enough turns the code returns `a` and leaves `s'`. -/
def Returns (x : Nat → Routine σ α) (s : σ) (a : α) (s' : σ) : Prop :=
  ∃ n, ∀ fuel, n ≤ fuel → x fuel s = .ok (.ok a, s')

variable {x y : Nat → Routine σ α}

theorem Returns.of_eq (h : ∀ fuel, x fuel s = .ok (.ok a, s')) : Returns x s a s' :=
  ⟨0, fun fuel _ => h fuel⟩

/-- More turns change nothing. -/
theorem Returns.unique {a' : α} (h : Returns x s a s') (h' : Returns x s a' s'') :
    a = a' ∧ s' = s'' := by
  obtain ⟨n, hn⟩ := h
  obtain ⟨m, hm⟩ := h'
  have heq := (hn (max n m) (le_max_left n m)).symm.trans (hm (max n m) (le_max_right n m))
  cases heq
  exact ⟨rfl, rfl⟩

theorem Returns.congr (h : ∀ fuel, x fuel s = y fuel s') (hy : Returns y s' a s'') :
    Returns x s a s'' := by
  obtain ⟨n, hn⟩ := hy
  exact ⟨n, fun fuel hfuel => (h fuel).trans (hn fuel hfuel)⟩

/-- One turn of a loop, and then the rest. -/
theorem Returns.turn (h : ∀ fuel, x (fuel + 1) s = y fuel s') (hy : Returns y s' a s'') :
    Returns x s a s'' := by
  obtain ⟨n, hn⟩ := hy
  refine ⟨n + 1, fun fuel hfuel => ?_⟩
  obtain ⟨m, rfl⟩ : ∃ m, fuel = m + 1 := ⟨fuel - 1, by omega⟩
  rw [h m]
  exact hn m (by omega)

theorem Returns.bind {f : Nat → α → Routine σ β} (hx : Returns x s a s')
    (hf : Returns (fun fuel => f fuel a) s' b s'') :
    Returns (fun fuel => x fuel >>= f fuel) s b s'' := by
  obtain ⟨n, hn⟩ := hx
  obtain ⟨m, hm⟩ := hf
  refine ⟨max n m, fun fuel hfuel => ?_⟩
  have hfirst := hn fuel (le_trans (le_max_left n m) hfuel)
  exact (bind_of_ok hfirst).trans (hm fuel (le_trans (le_max_right n m) hfuel))

end Ucore.Returning
