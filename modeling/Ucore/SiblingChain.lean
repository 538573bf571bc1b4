import Mathlib.Data.List.Nodup
import Mathlib.Logic.Function.Basic

/-! Chains of entries that point to the next and to the one before, from a first
entry that points back to nothing to a last one that is followed by nothing. -/

namespace Ucore.SiblingChain

variable {α : Type*}

/-- Following `next` from `head` meets exactly the entries of the list. -/
def Follows (next : α → Option α) : Option α → List α → Prop
  | head, [] => head = none
  | head, a :: xs => head = some a ∧ Follows next (next a) xs

/-- Each entry of the list points back to the one before, the first to `before`. -/
def PointsBack (prev : α → Option α) : Option α → List α → Prop
  | _, [] => True
  | before, a :: xs => prev a = before ∧ PointsBack prev (some a) xs

variable {next next' prev prev' : α → Option α} {head before : Option α} {xs : List α} {x : α}

theorem Follows.congr (h : Follows next head xs) (hsame : ∀ a ∈ xs, next' a = next a) :
    Follows next' head xs := by
  induction xs generalizing head with
  | nil => exact h
  | cons a xs ih =>
      refine ⟨h.1, ?_⟩
      rw [hsame a List.mem_cons_self]
      exact ih h.2 fun b hb => hsame b (List.mem_cons_of_mem a hb)

theorem PointsBack.congr (h : PointsBack prev before xs) (hsame : ∀ a ∈ xs, prev' a = prev a) :
    PointsBack prev' before xs := by
  induction xs generalizing before with
  | nil => exact h
  | cons a xs ih =>
      refine ⟨?_, ih h.2 fun b hb => hsame b (List.mem_cons_of_mem a hb)⟩
      rw [hsame a List.mem_cons_self]
      exact h.1

/-- The entry that follows a member is a member of the rest of the list. -/
theorem Follows.next_mem (h : Follows next head xs) (hx : x ∈ xs) {b : α} (hb : next x = some b) :
    b ∈ xs := by
  induction xs generalizing head with
  | nil => exact absurd hx List.not_mem_nil
  | cons a xs ih =>
      rcases List.mem_cons.mp hx with rfl | hx
      · cases xs with
        | nil =>
            have hnone : next x = none := h.2
            rw [hnone] at hb
            cases hb
        | cons c xs =>
            have hc : next x = some c := h.2.1
            rw [hb, Option.some.injEq] at hc
            rw [hc]
            exact List.mem_cons_of_mem _ List.mem_cons_self
      · exact List.mem_cons_of_mem a (ih h.2 hx)

/-- No entry follows itself. -/
theorem Follows.next_ne (h : Follows next head xs) (hnodup : xs.Nodup) (hx : x ∈ xs) :
    next x ≠ some x := by
  induction xs generalizing head with
  | nil => exact absurd hx List.not_mem_nil
  | cons a xs ih =>
      obtain ⟨ha, hnodup'⟩ := List.nodup_cons.mp hnodup
      rcases List.mem_cons.mp hx with rfl | hx
      · intro heq
        cases xs with
        | nil =>
            have hnone : next x = none := h.2
            rw [hnone] at heq
            cases heq
        | cons b xs =>
            have hb : next x = some b := h.2.1
            rw [heq, Option.some.injEq] at hb
            rw [hb] at ha
            exact ha List.mem_cons_self
      · exact ih h.2 hnodup' hx

/-- The entry before a member is a member, or is what the first one points back to. -/
theorem PointsBack.prev_mem (h : PointsBack prev before xs) (hx : x ∈ xs) :
    prev x = before ∨ ∃ a ∈ xs, prev x = some a := by
  induction xs generalizing before with
  | nil => exact absurd hx List.not_mem_nil
  | cons a xs ih =>
      rcases List.mem_cons.mp hx with rfl | hx
      · exact Or.inl h.1
      · rcases ih h.2 hx with hfirst | ⟨b, hb, hprev⟩
        · exact Or.inr ⟨a, List.mem_cons_self, hfirst⟩
        · exact Or.inr ⟨b, List.mem_cons_of_mem a hb, hprev⟩

section Push

variable [DecidableEq α]

theorem Follows.push (h : Follows next head xs) (hx : x ∉ xs) :
    Follows (Function.update next x head) (some x) (x :: xs) := by
  refine ⟨rfl, ?_⟩
  rw [Function.update_self]
  apply h.congr
  intro a ha
  apply Function.update_of_ne
  rintro rfl
  exact hx ha

omit [DecidableEq α] in
/-- The old first entry points back to the new one. -/
theorem PointsBack.push (hfollows : Follows next head xs) (h : PointsBack prev none xs)
    (hx : x ∉ xs) (hnodup : xs.Nodup) (hself : prev' x = none)
    (hhead : ∀ a, head = some a → prev' a = some x)
    (hsame : ∀ a, a ≠ x → head ≠ some a → prev' a = prev a) :
    PointsBack prev' none (x :: xs) := by
  refine ⟨hself, ?_⟩
  cases xs with
  | nil => exact trivial
  | cons a xs =>
      refine ⟨hhead a hfollows.1, ?_⟩
      apply h.2.congr
      intro b hb
      have hne : b ≠ x := fun heq => hx (heq ▸ List.mem_cons_of_mem a hb)
      apply hsame b hne
      rw [hfollows.1]
      rintro heq
      obtain rfl := Option.some.inj heq
      exact (List.nodup_cons.mp hnodup).1 hb

end Push

section Unlink

variable [DecidableEq α]

/-- What pointed to an entry points to the one that follows it. -/
theorem Follows.erase (h : Follows next head xs) (hback : PointsBack prev before xs)
    (hnodup : xs.Nodup) (hbefore : ∀ b, before = some b → b ∉ xs) (hx : x ∈ xs)
    (hprev : ∀ a, prev x = some a → next' a = next x)
    (hsame : ∀ a ∈ xs, prev x ≠ some a → next' a = next a) :
    Follows next' (if prev x = before then next x else head) (xs.erase x) := by
  induction xs generalizing head before with
  | nil => exact absurd hx List.not_mem_nil
  | cons a xs ih =>
      obtain ⟨ha, hnodup'⟩ := List.nodup_cons.mp hnodup
      rcases eq_or_ne a x with rfl | hne
      · rw [List.erase_cons_head, if_pos hback.1]
        apply h.2.congr
        intro b hb
        apply hsame b (List.mem_cons_of_mem a hb)
        rw [hback.1]
        intro heq
        exact hbefore b heq (List.mem_cons_of_mem a hb)
      · have hmem : x ∈ xs := (List.mem_cons.mp hx).resolve_left hne.symm
        have hinner : prev x ≠ before := by
          intro heq
          rcases hback.2.prev_mem hmem with hfirst | ⟨b, hb, hprevb⟩
          · exact hbefore a (heq.symm.trans hfirst) List.mem_cons_self
          · exact hbefore b (heq.symm.trans hprevb) (List.mem_cons_of_mem a hb)
        have hrest := ih h.2 hback.2 hnodup' (fun b hb => (Option.some.inj hb) ▸ ha) hmem
          fun b hb => hsame b (List.mem_cons_of_mem a hb)
        rw [if_neg hinner, List.erase_cons_tail (by simpa using hne)]
        refine ⟨h.1, ?_⟩
        rcases Decidable.em (prev x = some a) with hpred | hother
        · rw [if_pos hpred] at hrest
          rw [hprev a hpred]
          exact hrest
        · rw [if_neg hother] at hrest
          rw [hsame a List.mem_cons_self hother]
          exact hrest

/-- The entry that follows points back to the one before. -/
theorem PointsBack.erase (h : PointsBack prev before xs) (hfollows : Follows next head xs)
    (hnodup : xs.Nodup) (hx : x ∈ xs) (hnext : ∀ a, next x = some a → prev' a = prev x)
    (hsame : ∀ a ∈ xs, next x ≠ some a → prev' a = prev a) :
    PointsBack prev' before (xs.erase x) := by
  induction xs generalizing head before with
  | nil => exact absurd hx List.not_mem_nil
  | cons a xs ih =>
      obtain ⟨ha, hnodup'⟩ := List.nodup_cons.mp hnodup
      rcases eq_or_ne a x with rfl | hne
      · rw [List.erase_cons_head]
        cases xs with
        | nil => exact trivial
        | cons b xs =>
            have hb : next a = some b := hfollows.2.1
            refine ⟨(hnext b hb).trans h.1, ?_⟩
            apply h.2.2.congr
            intro c hc
            apply hsame c (List.mem_cons_of_mem a (List.mem_cons_of_mem b hc))
            rw [hb]
            intro heq
            obtain rfl := Option.some.inj heq
            exact (List.nodup_cons.mp hnodup').1 hc
      · have hmem : x ∈ xs := (List.mem_cons.mp hx).resolve_left hne.symm
        rw [List.erase_cons_tail (by simpa using hne)]
        refine ⟨?_, ih h.2 hfollows.2 hnodup' hmem fun b hb =>
          hsame b (List.mem_cons_of_mem a hb)⟩
        rw [hsame a List.mem_cons_self]
        · exact h.1
        · intro heq
          exact ha (hfollows.2.next_mem hmem heq)

end Unlink

end Ucore.SiblingChain
