import Mathlib.Algebra.GroupWithZero.Nat
import Mathlib.Data.List.Pairwise
import Mathlib.Algebra.BigOperators.Group.List.Basic
import Mathlib.Algebra.Order.BigOperators.Group.List

namespace Ucore.Extents

/-- The interval of the `size` numbers from `base` on. -/
structure Extent where
  base : Nat
  size : Nat
  deriving DecidableEq, Repr

def Covers (e : Extent) (p : Nat) : Prop :=
  e.base ≤ p ∧ p < e.base + e.size

def Before (a b : Extent) : Prop :=
  a.base + a.size ≤ b.base

def Apart (a b : Extent) : Prop :=
  Before a b ∨ Before b a

theorem Apart.symm {a b : Extent} (h : Apart a b) : Apart b a :=
  Or.symm h

instance : Std.Symm Apart := ⟨fun _ _ h => h.symm⟩

theorem Apart.not_covers {a b : Extent} {p : Nat} (h : Apart a b)
    (ha : Covers a p) : ¬Covers b p := by
  rintro ⟨hb₁, hb₂⟩
  obtain ⟨ha₁, ha₂⟩ := ha
  rcases h with h | h
  · unfold Before at h
    omega
  · unfold Before at h
    omega

/-- Non-empty extents that share no number lie apart. -/
theorem apart_of_not_covers {a b : Extent} (ha : 0 < a.size) (hb : 0 < b.size)
    (h : ∀ p, Covers a p → ¬Covers b p) : Apart a b := by
  by_contra hnot
  simp only [Apart, Before, not_or, not_le] at hnot
  refine h (max a.base b.base) ⟨by omega, by omega⟩ ⟨by omega, by omega⟩

theorem covers_base {e : Extent} (h : 0 < e.size) : Covers e e.base :=
  ⟨le_rfl, by omega⟩

theorem Before.base_lt {a b : Extent} (h : Before a b) (ha : 0 < a.size) :
    a.base < b.base := by
  unfold Before at h
  omega

/-- The extents that an extent is apart from are the ones that both halves of
it are apart from. -/
theorem apart_split_iff {e f : Extent} {n : Nat} (hn : 0 < n) (hlt : n < e.size)
    (hf : 0 < f.size) :
    Apart e f ↔ Apart ⟨e.base, n⟩ f ∧ Apart ⟨e.base + n, e.size - n⟩ f := by
  simp only [Apart, Before]
  omega

/-- Ordered extents below `bound` have together at most `bound` numbers. -/
theorem sum_size_le {es : List Extent} {bound : Nat}
    (hord : es.Pairwise Before) (hbound : ∀ e ∈ es, e.base + e.size ≤ bound) :
    (es.map Extent.size).sum ≤ bound := by
  suffices h : ∀ (es : List Extent) (low : Nat), es.Pairwise Before →
      (∀ e ∈ es, low ≤ e.base ∧ e.base + e.size ≤ bound) → low ≤ bound →
        low + (es.map Extent.size).sum ≤ bound by
    simpa using h es 0 hord (fun e he => ⟨by omega, hbound e he⟩) (by omega)
  intro es
  induction es with
  | nil =>
      intro low _ _ hlow
      simpa using hlow
  | cons e es ih =>
      intro low hord hes _
      rw [List.pairwise_cons] at hord
      have he := hes e (by simp)
      have htail := ih (e.base + e.size) hord.2
        (fun f hf => ⟨hord.1 f hf, (hes f (by simp [hf])).2⟩) he.2
      simp only [List.map_cons, List.sum_cons]
      omega

theorem length_le_sum_size {es : List Extent} (h : ∀ e ∈ es, 0 < e.size) :
    es.length ≤ (es.map Extent.size).sum := by
  induction es with
  | nil => simp
  | cons e es ih =>
      have he := h e (by simp)
      have hes := ih fun f hf => h f (by simp [hf])
      simp only [List.length_cons, List.map_cons, List.sum_cons]
      omega

end Ucore.Extents
