import Ucore.KernelRoutine

/-! Programs of threads that sleep between their sections. -/

namespace Ucore.Programs

open Ucore.Errors
open Ucore.Panic
open Ucore.KernelRoutine

/-- What a thread still has to do. Other threads run while it sleeps. -/
inductive Program (σ α : Type) : Type 1 where
  | done (r : Except Errno α)
  | sleep (rest : Program σ α)
  | act {β : Type} (x : Routine σ β) (rest : Except Errno β → Program σ α)

namespace Program

variable {σ α β : Type}

def andThen : Program σ α → (Except Errno α → Program σ β) → Program σ β
  | done r, f => f r
  | sleep rest, f => sleep (rest.andThen f)
  | act x rest, f => act x fun r => (rest r).andThen f

/-- The whole program, with nothing in between. -/
def run : Program σ α → Routine σ α
  | done r => fun s => .ok (r, s)
  | sleep rest => rest.run
  | act x rest => attempt x >>= fun r => (rest r).run

/-- The sections up to the next sleep: the result, or what is left to do. -/
def turn : Program σ α → σ → Except Abort ((Except Errno α ⊕ Program σ α) × σ)
  | done r, s => .ok (.inl r, s)
  | sleep rest, s => .ok (.inr rest, s)
  | act x rest, s =>
      match x s with
      | .error a => .error a
      | .ok (r, t) => (rest r).turn t

/-- The predicate holds whenever the program sleeps. -/
def Parked (P : σ → Prop) : Program σ α → σ → Prop
  | done _, _ => True
  | sleep rest, s => P s ∧ rest.Parked P s
  | act x rest, s => ∀ r t, x s = .ok (r, t) → (rest r).Parked P t

/-- The second program sleeps, and then goes on with the first. -/
def Later (q p : Program σ α) : Prop :=
  ∃ s t, p.turn s = .ok (.inr q, t)

section Turns

variable {p q : Program σ α} {s t : σ} {P : σ → Prop}

theorem run_act (x : Routine σ β) (rest : Except Errno β → Program σ α) {r : Except Errno β}
    (h : x s = .ok (r, t)) : (act x rest).run s = (rest r).run t :=
  attempt_bind_of_ok h fun r => (rest r).run

theorem turn_act (x : Routine σ β) (rest : Except Errno β → Program σ α) {r : Except Errno β}
    (h : x s = .ok (r, t)) : (act x rest).turn s = (rest r).turn t := by
  rw [turn, h]

/-- Sleeping does not change what a program does. -/
theorem run_of_turn (p : Program σ α) : ∀ {s : σ}, p.run s =
    match p.turn s with
    | .error a => .error a
    | .ok (.inl r, t) => .ok (r, t)
    | .ok (.inr q, t) => q.run t := by
  induction p with
  | done r =>
      intro s
      rfl
  | sleep rest ih =>
      intro s
      rfl
  | act x rest ih =>
      intro s
      cases hx : x s with
      | error a =>
          have hattempt : attempt x s = .error a := by
            rw [attempt, hx]
          rw [turn, hx]
          exact bind_of_abort hattempt
      | ok out =>
          obtain ⟨r, t⟩ := out
          rw [run_act x rest hx, turn_act x rest hx]
          exact ih r

theorem parked_of_turn : ∀ {s : σ}, p.Parked P s → p.turn s = .ok (.inr q, t) →
    P t ∧ q.Parked P t := by
  induction p with
  | done r =>
      intro s _ h
      cases h
  | sleep rest ih =>
      intro s hparked h
      cases h
      exact hparked
  | act x rest ih =>
      intro s hparked h
      cases hx : x s with
      | error a =>
          rw [turn, hx] at h
          cases h
      | ok out =>
          obtain ⟨r, u⟩ := out
          rw [turn_act x rest hx] at h
          exact ih r (hparked r u hx) h

theorem later_wellFounded : WellFounded (Later : Program σ α → Program σ α → Prop) := by
  constructor
  intro p
  induction p with
  | done r =>
      constructor
      rintro q ⟨s, t, h⟩
      cases h
  | sleep rest ih =>
      constructor
      rintro q ⟨s, t, h⟩
      cases h
      exact ih
  | act x rest ih =>
      constructor
      rintro q ⟨s, t, h⟩
      cases hx : x s with
      | error a =>
          rw [turn, hx] at h
          cases h
      | ok out =>
          obtain ⟨r, u⟩ := out
          rw [turn_act x rest hx] at h
          exact (ih r).inv ⟨u, t, h⟩

theorem run_andThen (p : Program σ α) (f : Except Errno α → Program σ β) :
    (p.andThen f).run = attempt p.run >>= fun r => (f r).run := by
  induction p with
  | done r => rfl
  | sleep rest ih => exact ih
  | act x rest ih =>
      have hrest : (fun r => ((rest r).andThen f).run) =
          fun r => attempt (rest r).run >>= fun r' => (f r').run := funext ih
      show (attempt x >>= fun r => ((rest r).andThen f).run) = _
      rw [hrest]
      funext s
      cases hx : x s with
      | error a =>
          have hattempt : attempt x s = .error a := by
            rw [attempt, hx]
          have hrun : attempt (act x rest).run s = .error a := by
            rw [attempt, run, bind_of_abort hattempt]
          rw [bind_of_abort hattempt, bind_of_abort hrun]
      | ok out =>
          obtain ⟨r, t⟩ := out
          rw [attempt_bind_of_ok hx]
          apply bind_apply_congr
          rw [attempt, attempt, run_act x rest hx]

theorem parked_andThen {f : Except Errno α → Program σ β} :
    ∀ {s : σ}, p.Parked P s → (∀ r t, p.run s = .ok (r, t) → (f r).Parked P t) →
      (p.andThen f).Parked P s := by
  induction p with
  | done r =>
      intro s _ hf
      exact hf r s rfl
  | sleep rest ih =>
      intro s hparked hf
      exact ⟨hparked.1, ih hparked.2 hf⟩
  | act x rest ih =>
      intro s hparked hf r t hx
      apply ih r (hparked r t hx)
      intro r' u hrun
      apply hf r' u
      rw [run_act x rest hx]
      exact hrun

/-- The program sleeps only where `P` holds, and returns with `Q`. -/
def Behaves (P : σ → Prop) (Q : Except Errno α → σ → Prop) (p : Program σ α) (s : σ) : Prop :=
  p.Parked P s ∧ ∃ r t, p.run s = .ok (r, t) ∧ Q r t

variable {Q : Except Errno α → σ → Prop}

theorem Behaves.done {r : Except Errno α} (h : Q r s) : Behaves P Q (done r) s :=
  ⟨trivial, r, s, rfl, h⟩

theorem Behaves.sleep (hs : P s) (h : Behaves P Q p s) : Behaves P Q (sleep p) s :=
  ⟨⟨hs, h.1⟩, h.2⟩

theorem Behaves.act {x : Routine σ β} {rest : Except Errno β → Program σ α} {r : Except Errno β}
    (hx : x s = .ok (r, t)) (h : Behaves P Q (rest r) t) : Behaves P Q (act x rest) s := by
  obtain ⟨hparked, hrun⟩ := h
  constructor
  · intro r' t' hx'
    rw [hx] at hx'
    cases hx'
    exact hparked
  · rw [run_act x rest hx]
    exact hrun

theorem Behaves.andThen {f : Except Errno α → Program σ β} {Q' : Except Errno β → σ → Prop}
    (h : Behaves P Q p s) (hf : ∀ r t, Q r t → Behaves P Q' (f r) t) :
    Behaves P Q' (p.andThen f) s := by
  obtain ⟨hparked, r, t, hrun, hq⟩ := h
  obtain ⟨hrest, r', u, hrun', hq'⟩ := hf r t hq
  constructor
  · apply parked_andThen hparked
    intro r₁ t₁ hrun₁
    rw [hrun] at hrun₁
    cases hrun₁
    exact hrest
  · refine ⟨r', u, ?_, hq'⟩
    rw [run_andThen, attempt_bind_of_ok hrun]
    exact hrun'

end Turns

end Program

theorem run_act_done {σ α : Type} (x : Routine σ α) : (Program.act x .done).run = x := by
  funext s
  cases hx : x s with
  | error a =>
      apply bind_of_abort
      rw [attempt, hx]
  | ok out => exact attempt_bind_of_ok hx _

end Ucore.Programs
