import Mathlib.Logic.Function.Basic

/-!
The table of the dining philosophers of `check_sync.c`, of any size: who sits next to
whom, and what the philosophers may do.
-/

namespace Ucore.Philosophers

/-- `state_sema` and `state_condvar` of a philosopher. -/
inductive Mood where
  | thinking
  | hungry
  | eating
  deriving DecidableEq

variable {N : Nat}

section Ring

/-- `LEFT` -/
def left (i : Fin N) : Fin N :=
  ⟨(i.val + N - 1) % N, Nat.mod_lt _ i.pos⟩

/-- `RIGHT` -/
def right (i : Fin N) : Fin N :=
  ⟨(i.val + 1) % N, Nat.mod_lt _ i.pos⟩

theorem right_left (i : Fin N) : right (left i) = i := by
  have hpos := i.pos
  have hlt := i.isLt
  apply Fin.ext
  show ((i.val + N - 1) % N + 1) % N = i.val
  rw [Nat.mod_add_mod, Nat.sub_add_cancel (by omega), Nat.add_mod_right, Nat.mod_eq_of_lt hlt]

theorem left_right (i : Fin N) : left (right i) = i := by
  have hpos := i.pos
  have hlt := i.isLt
  apply Fin.ext
  show ((i.val + 1) % N + N - 1) % N = i.val
  rcases Nat.lt_or_ge (i.val + 1) N with hless | hlast
  · rw [Nat.mod_eq_of_lt hless, Nat.add_right_comm, Nat.add_sub_cancel, Nat.add_mod_right,
      Nat.mod_eq_of_lt hlt]
  · have hwrap : i.val + 1 = N := by omega
    rw [hwrap, Nat.mod_self, Nat.zero_add, Nat.mod_eq_of_lt (by omega)]
    omega

theorem right_ne (hN : 2 ≤ N) (i : Fin N) : right i ≠ i := by
  have hlt := i.isLt
  intro heq
  have hval : (i.val + 1) % N = i.val := congrArg Fin.val heq
  rcases Nat.lt_or_ge (i.val + 1) N with hless | hlast
  · rw [Nat.mod_eq_of_lt hless] at hval
    omega
  · have hwrap : i.val + 1 = N := by omega
    rw [hwrap, Nat.mod_self] at hval
    omega

theorem left_ne (hN : 2 ≤ N) (i : Fin N) : left i ≠ i := by
  intro heq
  have hright := right_left i
  rw [heq] at hright
  exact right_ne hN i hright

end Ring

section Moods

/-- The condition of `phi_test_sema` and of `phi_test_condvar`. -/
def mayEat (state : Fin N → Mood) (i : Fin N) : Prop :=
  state i = .hungry ∧ state (left i) ≠ .eating ∧ state (right i) ≠ .eating

instance (state : Fin N → Mood) (i : Fin N) : Decidable (mayEat state i) :=
  inferInstanceAs (Decidable (_ ∧ _ ∧ _))

/-- No two neighbours eat. -/
def Exclusive (state : Fin N → Mood) : Prop :=
  ∀ i, state i = .eating → state (right i) ≠ .eating

variable {state : Fin N → Mood} {i j : Fin N}

theorem Exclusive.left_ne (h : Exclusive state) (hi : state i = .eating) :
    state (left i) ≠ .eating := by
  intro hleft
  have hright := h (left i) hleft
  rw [right_left] at hright
  exact hright hi

theorem exclusive_update (h : Exclusive state) {mood : Mood} (hmood : mood ≠ .eating) :
    Exclusive (Function.update state i mood) := by
  have hold : ∀ k, Function.update state i mood k = .eating → state k = .eating := by
    intro k hk
    rcases eq_or_ne k i with rfl | hne
    · rw [Function.update_self] at hk
      exact absurd hk hmood
    · rwa [Function.update_of_ne hne] at hk
  intro k hk hright
  exact h k (hold k hk) (hold _ hright)

theorem exclusive_eating (hN : 2 ≤ N) (h : Exclusive state) (hmay : mayEat state i) :
    Exclusive (Function.update state i .eating) := by
  obtain ⟨_, hleft, hright⟩ := hmay
  intro k hk
  rcases eq_or_ne k i with rfl | hne
  · rw [Function.update_of_ne (right_ne hN k)]
    exact hright
  · rw [Function.update_of_ne hne] at hk
    rcases eq_or_ne (right k) i with rfl | hother
    · rw [left_right] at hleft
      exact absurd hk hleft
    · rw [Function.update_of_ne hother]
      exact h k hk

theorem mayEat_eating (h : mayEat (Function.update state i .eating) j) :
    mayEat state j ∧ j ≠ i := by
  obtain ⟨hhungry, hleft, hright⟩ := h
  have hne : ∀ {k}, Function.update state i .eating k ≠ .eating → k ≠ i := by
    rintro k hk rfl
    exact hk (Function.update_self _ _ _)
  have hji : j ≠ i := hne (by simp [hhungry])
  rw [Function.update_of_ne hji] at hhungry
  rw [Function.update_of_ne (hne hleft)] at hleft
  rw [Function.update_of_ne (hne hright)] at hright
  exact ⟨⟨hhungry, hleft, hright⟩, hji⟩

/-- Nobody is kept from eating by one that is hungry and was not eating. -/
theorem mayEat_hungry (hnot : state i ≠ .eating)
    (h : mayEat (Function.update state i .hungry) j) : mayEat state j ∨ j = i := by
  rcases eq_or_ne j i with rfl | hne
  · exact Or.inr rfl
  · obtain ⟨hhungry, hleft, hright⟩ := h
    have hold : ∀ {k}, Function.update state i .hungry k ≠ .eating → state k ≠ .eating := by
      intro k hk
      rcases eq_or_ne k i with rfl | hother
      · exact hnot
      · rwa [Function.update_of_ne hother] at hk
    rw [Function.update_of_ne hne] at hhungry
    exact Or.inl ⟨hhungry, hold hleft, hold hright⟩

/-- One that stops eating lets its two neighbours eat at most. -/
theorem mayEat_thinking (h : mayEat (Function.update state i .thinking) j) :
    mayEat state j ∨ j = left i ∨ j = right i := by
  obtain ⟨hhungry, hleft, hright⟩ := h
  rcases eq_or_ne (left j) i with rfl | hl
  · exact Or.inr (Or.inr (right_left j).symm)
  · rcases eq_or_ne (right j) i with rfl | hr
    · exact Or.inr (Or.inl (left_right j).symm)
    · have hji : j ≠ i := by
        rintro rfl
        rw [Function.update_self] at hhungry
        cases hhungry
      rw [Function.update_of_ne hji] at hhungry
      rw [Function.update_of_ne hl] at hleft
      rw [Function.update_of_ne hr] at hright
      exact Or.inl ⟨hhungry, hleft, hright⟩

end Moods

section Tests

/-- Whom a philosopher tests: itself when it is hungry, its neighbours when it is done. -/
inductive Which where
  | own
  | left
  | right
  deriving DecidableEq

def Which.target : Which → Fin N → Fin N
  | .own => id
  | .left => Philosophers.left
  | .right => Philosophers.right

/-- Whom the philosopher `i` still has to test, from this test on. -/
def Which.Pending : Which → Fin N → Fin N → Prop
  | .own, i, j => j = i
  | .left, i, j => j = Philosophers.left i ∨ j = Philosophers.right i
  | .right, i, j => j = Philosophers.right i

/-- Whom it has to test after this test. -/
def Which.Later : Which → Fin N → Fin N → Prop
  | .left, i, j => j = Philosophers.right i
  | _, _, _ => False

theorem Which.target_ne (hN : 2 ≤ N) {w : Which} (hw : w ≠ .own) (i : Fin N) :
    w.target i ≠ i := by
  cases w with
  | own => exact absurd rfl hw
  | left => exact left_ne hN i
  | right => exact right_ne hN i

theorem Which.later_of_pending {w : Which} {i j : Fin N} (h : w.Pending i j)
    (hne : j ≠ w.target i) : w.Later i j := by
  cases w with
  | own => exact absurd h hne
  | left => exact h.resolve_left hne
  | right => exact absurd h hne

end Tests

end Ucore.Philosophers
