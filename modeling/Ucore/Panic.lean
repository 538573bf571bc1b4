import Mathlib.Tactic.Basic

namespace Ucore.Panic

/-- Why kernel code did not return: an assertion or `panic`, or a loop that
was still running when its bound was used up. -/
inductive Abort where
  | panic
  | loop
  deriving DecidableEq, Repr

/-- Kernel code that may abort. -/
abbrev Kernel (α : Type) := Except Abort α

/-- The kernel's `assert`. -/
def kassert (p : Prop) [Decidable p] : Kernel Unit :=
  if p then .ok () else .error .panic

@[simp] theorem kassert_of {p : Prop} [Decidable p] (h : p) :
    kassert p = .ok () :=
  if_pos h

@[simp] theorem kassert_of_not {p : Prop} [Decidable p] (h : ¬p) :
    kassert p = .error .panic :=
  if_neg h

theorem kassert_eq_ok_iff {p : Prop} [Decidable p] {u : Unit} :
    kassert p = .ok u ↔ p := by
  by_cases h : p
  · simp [h]
  · simp [h]

@[simp] theorem ok_bind {α β : Type} (a : α) (f : α → Kernel β) :
    ((.ok a : Kernel α) >>= f) = f a := rfl

@[simp] theorem error_bind {α β : Type} (e : Abort) (f : α → Kernel β) :
    ((.error e : Kernel α) >>= f) = .error e := rfl

/-- A sequence that returned did so through a value of its first part. -/
theorem bind_eq_ok_iff {α β : Type} {x : Kernel α} {f : α → Kernel β} {b : β} :
    (x >>= f) = .ok b ↔ ∃ a, x = .ok a ∧ f a = .ok b := by
  cases x with
  | error e => simp
  | ok a => simp

end Ucore.Panic
