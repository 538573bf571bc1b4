import Mathlib.Data.List.Basic
import Mathlib.Data.Nat.Basic

namespace Ucore.Splice

variable {α : Type*}

/-- `c` with the items from `off` on replaced by `d`, and longer if needed. -/
def splice (c : List α) (off : Nat) (d : List α) : List α :=
  c.take off ++ d ++ c.drop (off + d.length)

/-- The items of `c` in a window. -/
def window (c : List α) (off len : Nat) : List α :=
  (c.drop off).take len

/-- The list of the first `n` values of a function. -/
def tabulate (n : Nat) (g : Nat → α) : List α :=
  (List.range n).map g

@[simp] theorem length_tabulate (n : Nat) (g : Nat → α) : (tabulate n g).length = n := by
  simp [tabulate]

theorem tabulate_congr {n : Nat} {g h : Nat → α} (heq : ∀ k, k < n → g k = h k) :
    tabulate n g = tabulate n h := by
  apply List.map_congr_left
  intro k hk
  exact heq k (List.mem_range.mp hk)

theorem splice_tabulate {n off m : Nat} (g h : Nat → α) (hoff : off ≤ n) :
    splice (tabulate n g) off (tabulate m h) =
      tabulate (max n (off + m)) fun k =>
        if off ≤ k ∧ k < off + m then h (k - off) else g k := by
  have hlen : (splice (tabulate n g) off (tabulate m h)).length = max n (off + m) := by
    simp only [splice, List.length_append, List.length_take, List.length_drop, length_tabulate]
    omega
  apply List.ext_getElem
  · rw [hlen, length_tabulate]
  · intro k hk hk'
    simp only [splice, tabulate, List.getElem_append, List.getElem_take, List.getElem_drop,
      List.getElem_map, List.getElem_range, List.length_append, List.length_take, List.length_map,
      List.length_range]
    rcases lt_or_ge k off with hbefore | hfrom
    · rw [dif_pos (by omega), dif_pos (by omega), if_neg (by omega)]
    · rcases lt_or_ge k (off + m) with hin | hafter
      · rw [dif_pos (by omega), dif_neg (by omega), if_pos ⟨hfrom, hin⟩]
        congr 1
        omega
      · rw [dif_neg (by omega), if_neg (by omega)]
        congr 1
        omega

theorem window_tabulate {n off len : Nat} (g : Nat → α) :
    window (tabulate n g) off len = tabulate (min len (n - off)) fun k => g (off + k) := by
  apply List.ext_getElem
  · simp [window]
  · intro k hk hk'
    simp [window, tabulate]

end Ucore.Splice
