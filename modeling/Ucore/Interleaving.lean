import Mathlib.Algebra.BigOperators.Ring.Finset
import Mathlib.Algebra.Order.BigOperators.Group.Finset
import Mathlib.Logic.Relation

/-! Threads that run one after another on a shared state, and how many of them
are at a place in their code. -/

namespace Ucore.Interleaving

open Relation

/-- A shared state, and where each thread will go on. -/
structure Threads (ι σ π : Type*) where
  shared : σ
  pc : ι → π

variable {ι σ π : Type*}

/-- What every step preserves holds in every state that is reached. -/
theorem holds_of_reaches {step : σ → σ → Prop} {inv : σ → Prop} {s t : σ}
    (hstep : ∀ {s t}, inv s → step s t → inv t) (hs : inv s) (hrun : ReflTransGen step s t) :
    inv t := by
  induction hrun with
  | refl => exact hs
  | tail _ hlast ih => exact hstep ih hlast

section Tally

variable [Fintype ι]

/-- Number of threads at a place with `p`. -/
def tally (p : π → Bool) (pc : ι → π) : Nat :=
  ∑ i, if p (pc i) then 1 else 0

theorem tally_eq_zero {p : π → Bool} {pc : ι → π} (h : ∀ i, p (pc i) = false) :
    tally p pc = 0 := by
  apply Finset.sum_eq_zero
  intro i _
  rw [h i]
  rfl

theorem exists_of_tally_pos {p : π → Bool} {pc : ι → π} (h : 0 < tally p pc) :
    ∃ i, p (pc i) = true := by
  by_contra hnone
  push Not at hnone
  have hzero : tally p pc = 0 := tally_eq_zero fun i => by simpa using hnone i
  omega

variable [DecidableEq ι]

theorem tally_split (p : π → Bool) (pc : ι → π) (i : ι) :
    tally p pc = (if p (pc i) then 1 else 0) +
      ∑ j ∈ Finset.univ.erase i, if p (pc j) then 1 else 0 := by
  exact (Finset.add_sum_erase _ _ (Finset.mem_univ i)).symm

/-- One thread moves. -/
theorem tally_update (p : π → Bool) (pc : ι → π) (i : ι) (x : π) :
    tally p (Function.update pc i x) + (if p (pc i) then 1 else 0) =
      tally p pc + if p x then 1 else 0 := by
  have hrest : (∑ j ∈ Finset.univ.erase i, if p (Function.update pc i x j) then 1 else 0) =
      ∑ j ∈ Finset.univ.erase i, if p (pc j) then 1 else 0 := by
    apply Finset.sum_congr rfl
    intro j hj
    rw [Function.update_of_ne (Finset.ne_of_mem_erase hj)]
  rw [tally_split p _ i, tally_split p pc i, hrest, Function.update_self]
  omega

theorem tally_update_same {p : π → Bool} {pc : ι → π} {i : ι} {x : π} (h : p x = p (pc i)) :
    tally p (Function.update pc i x) = tally p pc := by
  have hmove := tally_update p pc i x
  rw [h] at hmove
  exact Nat.add_right_cancel hmove

theorem tally_pos {p : π → Bool} {pc : ι → π} {i : ι} (h : p (pc i) = true) : 0 < tally p pc := by
  rw [tally_split p pc i, if_pos h]
  omega

/-- Two threads at such places. -/
theorem two_le_tally {p : π → Bool} {pc : ι → π} {i j : ι} (hi : p (pc i) = true)
    (hj : p (pc j) = true) (hne : j ≠ i) : 2 ≤ tally p pc := by
  have hrest : (if p (pc j) then 1 else 0) ≤
      ∑ k ∈ Finset.univ.erase i, if p (pc k) then 1 else 0 := by
    apply Finset.single_le_sum (f := fun k => if p (pc k) then 1 else 0)
    · exact fun _ _ => Nat.zero_le _
    · exact Finset.mem_erase.mpr ⟨hne, Finset.mem_univ j⟩
  rw [if_pos hj] at hrest
  rw [tally_split p pc i, if_pos hi]
  omega

end Tally

end Ucore.Interleaving
