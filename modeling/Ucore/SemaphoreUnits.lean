import Ucore.Semaphores

/-! The units of a semaphore: those in `value`, and those that were handed to processes
that have not gone on. -/

namespace Ucore.SemaphoreUnits

open Ucore.Interleaving
open Ucore.WaitQueues
open Ucore.Semaphores

variable {ι κ : Type} [DecidableEq κ]

/-- The process sleeps in `down` of this semaphore. -/
def sleepsIn (k : κ) : Pc κ → Bool
  | .down l => decide (l = k)
  | _ => false

theorem sleepsIn_iff {k : κ} {x : Pc κ} : sleepsIn k x = true ↔ x = .down k := by
  cases x with
  | down l => simp [sleepsIn]
  | running | sleeping | reading | waiting | exited | unborn => simp [sleepsIn]

theorem sleepsIn_self (k : κ) : sleepsIn k (.down k : Pc κ) = true :=
  sleepsIn_iff.mpr rfl

theorem sleepsIn_of_ne {k : κ} {x : Pc κ} (h : x ≠ .down k) : sleepsIn k x = false := by
  rw [← Bool.not_eq_true, sleepsIn_iff]
  exact h

theorem sleepsIn_running (k : κ) : sleepsIn k (.running : Pc κ) = false := rfl

variable [Fintype ι]

/-- The units of a semaphore, with those that were handed to a process that sleeps. -/
def units (kernel : Kernel ι κ) (pc : ι → Pc κ) (k : κ) : Int :=
  kernel.value k + tally (sleepsIn k) pc - (kernel.queue (.sem k)).length

variable {kernel kernel' : Kernel ι κ} {pc : ι → Pc κ} {i : ι} {k : κ}

omit [DecidableEq κ] in
theorem tally_eq_card (p : Pc κ → Bool) (pc : ι → Pc κ) :
    tally p pc = (Finset.univ.filter fun i => p (pc i) = true).card := by
  rw [tally, Finset.card_filter]

theorem units_released (h : Released kernel kernel' k) :
    units kernel' pc = Function.update (units kernel pc) k (units kernel pc k + 1) := by
  funext l
  cases h with
  | kept hempty hvalue hqueue =>
      rcases eq_or_ne l k with rfl | hne
      · rw [Function.update_self, units, units, hvalue, hqueue, Function.update_self]
        omega
      · rw [Function.update_of_ne hne, units, units, hvalue, hqueue,
          Function.update_of_ne (by simpa using hne)]
  | handed w rest hfirst hvalue hqueue =>
      rcases eq_or_ne l k with rfl | hne
      · rw [Function.update_self, units, units, hvalue, hqueue, Function.update_self, hfirst,
          List.length_cons]
        push_cast
        omega
      · rw [Function.update_of_ne hne, units, units, hvalue, hqueue,
          Function.update_of_ne (by simpa using hne)]

theorem units_taken (h : Acquired kernel kernel' i k false) :
    units kernel' pc = Function.update (units kernel pc) k (units kernel pc k - 1) := by
  cases h with
  | taken _ hvalue hqueue =>
      funext l
      rcases eq_or_ne l k with rfl | hne
      · rw [Function.update_self, units, units, hvalue, hqueue, Function.update_self]
        omega
      · rw [Function.update_of_ne hne, units, units, hvalue, hqueue,
          Function.update_of_ne (by simpa using hne)]

variable [DecidableEq ι]

theorem queue_subset (h : Placed kernel pc) (k : κ) :
    (kernel.queue (.sem k)).toFinset ⊆
      Finset.univ.filter fun i => sleepsIn k (pc i) = true := by
  intro j hj
  have hplace := h.place j _ (List.mem_toFinset.mp hj)
  simp only [Finset.mem_filter, Finset.mem_univ, true_and, sleepsIn_iff]
  exact hplace

/-- Those in the queue of a semaphore are some of those that sleep in `down`. -/
theorem value_le_units (h : Placed kernel pc) (k : κ) :
    kernel.value k ≤ units kernel pc k := by
  have hcard := Finset.card_le_card (queue_subset h k)
  rw [List.toFinset_card_of_nodup (h.nodup _)] at hcard
  rw [units, tally_eq_card]
  omega

/-- A process that was taken out of the queue has a unit. -/
theorem value_lt_units (h : Placed kernel pc) (hplace : pc i = .down k)
    (hout : i ∉ kernel.queue (.sem k)) : kernel.value k < units kernel pc k := by
  have hssub : (kernel.queue (.sem k)).toFinset ⊂
      Finset.univ.filter fun i => sleepsIn k (pc i) = true := by
    refine ⟨queue_subset h k, ?_⟩
    intro hsub
    have hi : i ∈ Finset.univ.filter fun i => sleepsIn k (pc i) = true := by
      simp only [Finset.mem_filter, Finset.mem_univ, true_and, sleepsIn_iff]
      exact hplace
    exact hout (List.mem_toFinset.mp (hsub hi))
  have hcard := Finset.card_lt_card hssub
  rw [List.toFinset_card_of_nodup (h.nodup _)] at hcard
  rw [units, tally_eq_card]
  omega

/-- Where all that sleep in `down` are in the queue, there is no unit but in `value`. -/
theorem exists_granted (h : Placed kernel pc) (hlt : kernel.value k < units kernel pc k) :
    ∃ i, pc i = .down k ∧ i ∉ kernel.queue (.sem k) := by
  by_contra hnone
  push Not at hnone
  have hsub : (Finset.univ.filter fun i => sleepsIn k (pc i) = true) ⊆
      (kernel.queue (.sem k)).toFinset := by
    intro j hj
    simp only [Finset.mem_filter, Finset.mem_univ, true_and, sleepsIn_iff] at hj
    exact List.mem_toFinset.mpr (hnone j hj)
  have hcard := Finset.card_le_card hsub
  rw [List.toFinset_card_of_nodup (h.nodup _)] at hcard
  rw [units, tally_eq_card] at hlt
  omega

theorem units_queued (h : Acquired kernel kernel' i k true) (hrun : pc i = .running) :
    units kernel' (Function.update pc i (.down k)) = units kernel pc := by
  cases h with
  | queued _ hvalue hqueue =>
      funext l
      have hmove := tally_update (sleepsIn l) pc i (.down k)
      rw [hrun, sleepsIn_running] at hmove
      rcases eq_or_ne l k with rfl | hne
      · simp only [sleepsIn_self, Bool.false_eq_true, if_false, if_true, Nat.add_zero] at hmove
        rw [units, units, hvalue, hqueue, Function.update_self, List.length_append,
          List.length_singleton, hmove]
        push_cast
        omega
      · have hother := sleepsIn_of_ne (show Pc.down k ≠ Pc.down l by simpa using hne.symm)
        simp only [hother, Bool.false_eq_true, if_false, Nat.add_zero] at hmove
        rw [units, units, hvalue, hqueue, Function.update_of_ne (by simpa using hne), hmove]

theorem units_back (hplace : pc i = .down k) :
    units kernel (Function.update pc i .running) =
      Function.update (units kernel pc) k (units kernel pc k - 1) := by
  funext l
  have hmove := tally_update (sleepsIn l) pc i .running
  rw [hplace, sleepsIn_running] at hmove
  rcases eq_or_ne l k with rfl | hne
  · simp only [sleepsIn_self, Bool.false_eq_true, if_false, if_true, Nat.add_zero] at hmove
    rw [Function.update_self, units, units]
    omega
  · have hother := sleepsIn_of_ne (show Pc.down k ≠ Pc.down l by simpa using hne.symm)
    simp only [hother, Bool.false_eq_true, if_false, Nat.add_zero] at hmove
    rw [Function.update_of_ne hne, units, units]
    omega

/-- A step in which the semaphore has no part. -/
theorem units_apart (hvalue : kernel'.value k = kernel.value k)
    (hqueue : kernel'.queue (.sem k) = kernel.queue (.sem k)) {x : Pc κ} (hold : pc i ≠ .down k)
    (hnew : x ≠ .down k) : units kernel' (Function.update pc i x) k = units kernel pc k := by
  have hsame : tally (sleepsIn k) (Function.update pc i x) = tally (sleepsIn k) pc := by
    apply tally_update_same
    rw [sleepsIn_of_ne hnew, sleepsIn_of_ne hold]
  rw [units, units, hvalue, hqueue, hsame]

omit [DecidableEq ι] in
theorem units_same (h : Same kernel kernel') : units kernel' pc = units kernel pc := by
  funext k
  rw [units, units, h.value, h.queue]

omit [Fintype ι] [DecidableEq κ] in
/-- A process that runs goes on to run. -/
theorem update_running {f : ι → Pc κ} (h : f i = .running) :
    Function.update f i .running = f := by
  rw [← h, Function.update_eq_self]

end Ucore.SemaphoreUnits
