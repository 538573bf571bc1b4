import Mathlib.Data.Finset.Card
import Mathlib.Data.Nat.Count

namespace Ucore.Ownership

variable {ο κ : Type*}

/-- Every cell in use is held by exactly one owner, and no other cell is held. -/
structure Owns (holds : ο → κ → Prop) (used : κ → Prop) : Prop where
  inj : ∀ {o o' k}, holds o k → holds o' k → o = o'
  used_of_holds : ∀ {o k}, holds o k → used k
  owned : ∀ {k}, used k → ∃ o, holds o k

variable {holds holds' : ο → κ → Prop} {used used' : κ → Prop}

theorem Owns.congr (h : Owns holds used) (hholds : ∀ o k, holds' o k ↔ holds o k)
    (hused : ∀ k, used' k ↔ used k) : Owns holds' used' where
  inj ho ho' := h.inj ((hholds _ _).mp ho) ((hholds _ _).mp ho')
  used_of_holds ho := (hused _).mpr (h.used_of_holds ((hholds _ _).mp ho))
  owned hk :=
    let ⟨o, ho⟩ := h.owned ((hused _).mp hk)
    ⟨o, (hholds _ _).mpr ho⟩

/-- A free cell given to one more owner. -/
theorem Owns.take (h : Owns holds used) {o₀ : ο} {k₀ : κ} (hfree : ¬used k₀)
    (hholds : ∀ o k, holds' o k ↔ holds o k ∨ o = o₀ ∧ k = k₀)
    (hused : ∀ k, used' k ↔ used k ∨ k = k₀) : Owns holds' used' where
  inj := by
    intro o o' k ho ho'
    rcases (hholds o k).mp ho with ho | ⟨rfl, rfl⟩
    · rcases (hholds o' k).mp ho' with ho' | ⟨rfl, rfl⟩
      · exact h.inj ho ho'
      · exact absurd (h.used_of_holds ho) hfree
    · rcases (hholds o' k).mp ho' with ho' | ⟨rfl, _⟩
      · exact absurd (h.used_of_holds ho') hfree
      · rfl
  used_of_holds := by
    intro o k ho
    rw [hused]
    exact ((hholds o k).mp ho).imp h.used_of_holds And.right
  owned := by
    intro k hk
    rcases (hused k).mp hk with hk | rfl
    · obtain ⟨o, ho⟩ := h.owned hk
      exact ⟨o, (hholds o k).mpr (Or.inl ho)⟩
    · exact ⟨o₀, (hholds o₀ k).mpr (Or.inr ⟨rfl, rfl⟩)⟩

/-- A cell taken back from its owner. -/
theorem Owns.release (h : Owns holds used) {o₀ : ο} {k₀ : κ} (ho₀ : holds o₀ k₀)
    (hholds : ∀ o k, holds' o k ↔ holds o k ∧ o ≠ o₀)
    (hused : ∀ k, used' k ↔ used k ∧ k ≠ k₀)
    (hfunctional : ∀ k, holds o₀ k → k = k₀) : Owns holds' used' where
  inj ho ho' := h.inj ((hholds _ _).mp ho).1 ((hholds _ _).mp ho').1
  used_of_holds := by
    intro o k ho
    obtain ⟨ho, hne⟩ := (hholds o k).mp ho
    refine (hused k).mpr ⟨h.used_of_holds ho, ?_⟩
    rintro rfl
    exact hne (h.inj ho ho₀)
  owned := by
    intro k hk
    obtain ⟨hk, hne⟩ := (hused k).mp hk
    obtain ⟨o, ho⟩ := h.owned hk
    refine ⟨o, (hholds o k).mpr ⟨ho, ?_⟩⟩
    rintro rfl
    exact hne (hfunctional k ho)

/-- A cell passed on from one owner to another. -/
theorem Owns.pass (h : Owns holds used) {o₁ o₂ : ο} {k₀ : κ} (ho₁ : holds o₁ k₀)
    (hholds : ∀ o k, holds' o k ↔ holds o k ∧ o ≠ o₁ ∨ o = o₂ ∧ k = k₀)
    (hfunctional : ∀ k, holds o₁ k → k = k₀) : Owns holds' used where
  inj := by
    intro o o' k ho ho'
    rcases (hholds o k).mp ho with ⟨ho, hne⟩ | ⟨rfl, rfl⟩
    · rcases (hholds o' k).mp ho' with ⟨ho', _⟩ | ⟨_, rfl⟩
      · exact h.inj ho ho'
      · exact absurd (h.inj ho ho₁) hne
    · rcases (hholds o' k).mp ho' with ⟨ho', hne⟩ | ⟨rfl, _⟩
      · exact absurd (h.inj ho' ho₁) hne
      · rfl
  used_of_holds := by
    intro o k ho
    rcases (hholds o k).mp ho with ⟨ho, _⟩ | ⟨_, rfl⟩
    · exact h.used_of_holds ho
    · exact h.used_of_holds ho₁
  owned := by
    intro k hk
    obtain ⟨o, ho⟩ := h.owned hk
    by_cases hfirst : o = o₁
    · subst hfirst
      exact ⟨o₂, (hholds o₂ k).mpr (Or.inr ⟨rfl, hfunctional k ho⟩)⟩
    · exact ⟨o, (hholds o k).mpr (Or.inl ⟨ho, hfirst⟩)⟩

/-- The owners under other names, each of which stands for one owner. -/
theorem Owns.rename {ο' : Type*} {holds' : ο' → κ → Prop} (h : Owns holds used)
    {names : ο → ο' → Prop} (hone : ∀ {o o₁ o₂ k}, holds o k → names o o₁ → names o o₂ → o₁ = o₂)
    (hnamed : ∀ {o k}, holds o k → ∃ o', names o o')
    (hholds : ∀ o' k, holds' o' k ↔ ∃ o, names o o' ∧ holds o k) : Owns holds' used where
  inj := by
    intro o₁ o₂ k ho₁ ho₂
    obtain ⟨o, hname, ho⟩ := (hholds o₁ k).mp ho₁
    obtain ⟨p, hname', hp⟩ := (hholds o₂ k).mp ho₂
    obtain rfl := h.inj ho hp
    exact hone ho hname hname'
  used_of_holds := by
    intro o' k ho'
    obtain ⟨o, _, ho⟩ := (hholds o' k).mp ho'
    exact h.used_of_holds ho
  owned := by
    intro k hk
    obtain ⟨o, ho⟩ := h.owned hk
    obtain ⟨o', hname⟩ := hnamed ho
    exact ⟨o', (hholds o' k).mpr ⟨o, hname, ho⟩⟩

/-- Removing one number from a decidable set of numbers below `n`. -/
theorem count_remove {p q : Nat → Prop} [DecidablePred p] [DecidablePred q] {k n : Nat}
    (hk : k < n) (hp : p k) (hq : ∀ j, q j ↔ p j ∧ j ≠ k) :
    Nat.count q n + 1 = Nat.count p n := by
  rw [Nat.count_eq_card_filter_range, Nat.count_eq_card_filter_range]
  have herase : (Finset.range n).filter q = ((Finset.range n).filter p).erase k := by
    ext j
    simp only [Finset.mem_filter, Finset.mem_range, Finset.mem_erase, hq]
    tauto
  have hmem : k ∈ (Finset.range n).filter p := by
    rw [Finset.mem_filter, Finset.mem_range]
    exact ⟨hk, hp⟩
  rw [herase]
  exact Finset.card_erase_add_one hmem

theorem count_congr {p q : Nat → Prop} [DecidablePred p] [DecidablePred q] {n : Nat}
    (h : ∀ j, j < n → (p j ↔ q j)) : Nat.count p n = Nat.count q n := by
  rw [Nat.count_eq_card_filter_range, Nat.count_eq_card_filter_range]
  congr 1
  apply Finset.filter_congr
  intro j hj
  exact h j (Finset.mem_range.mp hj)

theorem count_pos {p : Nat → Prop} [DecidablePred p] {k n : Nat} (hk : k < n) (hp : p k) :
    0 < Nat.count p n := by
  rw [Nat.count_eq_card_filter_range]
  apply Finset.card_pos.mpr
  exact ⟨k, Finset.mem_filter.mpr ⟨Finset.mem_range.mpr hk, hp⟩⟩

end Ucore.Ownership
