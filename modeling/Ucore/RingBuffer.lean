import Mathlib.Data.List.Basic
import Mathlib.Logic.Function.Basic

/-! Queues in a circular array with free-running positions. -/

namespace Ucore.RingBuffer

variable {α : Type*} {cap r n : Nat} {buf : Nat → α} {c : α}

/-- The `n` elements from position `r` on. -/
def window (cap : Nat) (buf : Nat → α) (r n : Nat) : List α :=
  (List.range n).map fun k => buf ((r + k) % cap)

@[simp] theorem window_length : (window cap buf r n).length = n := by
  simp [window]

/-- The oldest element is taken out. -/
theorem window_succ : window cap buf r (n + 1) = buf (r % cap) :: window cap buf (r + 1) n := by
  rw [window, List.range_succ_eq_map, List.map_cons, List.map_map]
  refine congrArg (buf (r % cap) :: ·) (List.map_congr_left fun k _ => ?_)
  simp only [Function.comp_apply, Nat.succ_eq_add_one]
  rw [Nat.add_assoc r 1 k, Nat.add_comm 1 k]

theorem window_concat : window cap buf r (n + 1) =
    window cap buf r n ++ [buf ((r + n) % cap)] := by
  simp [window, List.range_succ]

/-- Positions less than `cap` apart have different places. -/
theorem place_ne {i j : Nat} (hi : r ≤ i) (hij : i < j) (hj : j < r + cap) :
    i % cap ≠ j % cap := by
  intro heq
  have hdvd : cap ∣ j - i := Nat.dvd_of_mod_eq_zero (Nat.sub_mod_eq_zero_of_mod_eq heq.symm)
  have hle := Nat.le_of_dvd (by omega) hdvd
  omega

/-- An element is put behind the others where there is room. -/
theorem window_push (hroom : n < cap) :
    window cap (Function.update buf ((r + n) % cap) c) r (n + 1) = window cap buf r n ++ [c] := by
  rw [window_concat, Function.update_self]
  refine congrArg (· ++ [c]) (List.map_congr_left fun k hk => ?_)
  rw [List.mem_range] at hk
  exact Function.update_of_ne (@place_ne cap r (r + k) (r + n) (by omega) (by omega) (by omega)) _ _

/-- Where there is no room, an element takes the place of the oldest one. -/
theorem window_overwrite (hcap : 0 < cap) :
    window cap (Function.update buf ((r + cap) % cap) c) r cap =
      c :: (window cap buf r cap).tail := by
  obtain ⟨m, rfl⟩ : ∃ m, cap = m + 1 := ⟨cap - 1, by omega⟩
  rw [window_succ, window_succ, List.tail_cons, Nat.add_mod_right, Function.update_self]
  refine congrArg (c :: ·) (List.map_congr_left fun k hk => ?_)
  rw [List.mem_range] at hk
  refine Function.update_of_ne ?_ _ _
  exact (@place_ne (m + 1) r r (r + 1 + k) (Nat.le_refl r) (by omega) (by omega)).symm

end Ucore.RingBuffer
