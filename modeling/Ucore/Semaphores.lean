import Ucore.WaitQueues

/-! Semaphores, while the processes that wait for them are killed or wait for something else. -/

namespace Ucore.Semaphores

open Relation
open Ucore.Errors
open Ucore.Panic
open Ucore.KernelRoutine
open Ucore.Interleaving
open Ucore.Segments
open Ucore.Processes (ProcState WT_INTERRUPTED WT_CHILD)
open Ucore.WaitQueues

variable {ι κ : Type}

section Invariant

/-- The place of the processes in a wait queue. -/
def placeAt : Queue κ → Pc κ
  | .sem k => .down k
  | .keyboard => .reading

/-- The process sleeps in such a wait, or has been woken. -/
def Waits (s : Kernel ι κ) (i : ι) (waitState : Nat) : Prop :=
  s.state i = .sleeping ∧ s.waitState i = waitState ∨ s.state i = .runnable ∧ s.waitState i = 0

/-- `state` and `wait_state` of a process at this place. -/
def Rests (s : Kernel ι κ) (i : ι) : Pc κ → Prop
  | .running => s.state i = .runnable ∧ s.waitState i = 0
  | .down _ => Waits s i WT_KSEM
  | .sleeping => Waits s i WT_TIMER
  | .reading => Waits s i WT_KBD
  | .waiting => Waits s i WT_CHILD
  | .exited => s.state i = .zombie ∧ s.waitState i = 0
  | .unborn => s.state i = .uninit ∧ s.waitState i = 0

/-- The wait queues hold the processes whose `wait_t` is linked. One that waits for a
semaphore sleeps as long as it is in the queue, and no longer. -/
structure Placed (s : Kernel ι κ) (pc : ι → Pc κ) : Prop where
  link : ∀ i q, i ∈ s.queue q ↔ (s.wait i).linked = true ∧ (s.wait i).waitQueue = q
  nodup : ∀ q, (s.queue q).Nodup
  place : ∀ i q, i ∈ s.queue q → pc i = placeAt q
  timers : ∀ timer ∈ s.timerList, pc timer.proc = .sleeping
  timersOnce : (s.timerList.map Timer.proc).Nodup
  rests : ∀ i, Rests s i (pc i)
  asleep : ∀ i k, i ∈ s.queue (.sem k) → s.state i = .sleeping
  granted : ∀ i k, pc i = .down k → i ∉ s.queue (.sem k) →
    s.state i = .runnable ∧ (s.wait i).wakeupFlags = WT_KSEM

/-- A unit of a semaphore is in `value`, or was taken or handed over. -/
structure Counted (values : κ → Int) (s : Kernel ι κ) : Prop where
  nonneg : ∀ k, 0 ≤ s.value k
  empty : ∀ k, 0 < s.value k → s.queue (.sem k) = []
  account : ∀ k, s.taken k + (s.handed k).length + s.value k = values k + s.ups k
  fifo : ∀ k, s.queued k = s.handed k ++ s.queue (.sem k)

structure Sound (values : κ → Int) (s : Kernel ι κ) (pc : ι → Pc κ) : Prop where
  placed : Placed s pc
  counted : Counted values s

variable {values : κ → Int} {s t : Kernel ι κ} {pc : ι → Pc κ} {i : ι} {k : κ}

theorem Placed.linked_of_mem (h : Placed s pc) {q : Queue κ} (hi : i ∈ s.queue q) :
    (s.wait i).linked = true ∧ (s.wait i).waitQueue = q :=
  (h.link i q).mp hi

/-- A process is in one queue at most. -/
theorem Placed.queue_unique (h : Placed s pc) {q q' : Queue κ} (hi : i ∈ s.queue q)
    (hi' : i ∈ s.queue q') : q = q' :=
  (h.linked_of_mem hi).2.symm.trans (h.linked_of_mem hi').2

/-- A process that runs is in no queue, and has no timer. -/
theorem Placed.alone (h : Placed s pc) (hrun : pc i = .running) :
    (∀ q, i ∉ s.queue q) ∧ ∀ timer ∈ s.timerList, timer.proc ≠ i := by
  constructor
  · intro q hi
    have hplace := h.place i q hi
    rw [hrun] at hplace
    cases q with
    | sem k => cases hplace
    | keyboard => cases hplace
  · rintro timer htimer rfl
    have hplace := h.timers timer htimer
    rw [hrun] at hplace
    cases hplace

theorem Waits.not_zombie {w : Nat} (h : Waits s i w) : s.state i ≠ .zombie := by
  rcases h with ⟨hstate, _⟩ | ⟨hstate, _⟩
  · rw [hstate]
    simp
  · rw [hstate]
    simp

/-- `state` and `wait_state` are all that `Rests` is about. -/
theorem rests_congr {place : Pc κ} (h : Rests s i place) (hstate : t.state i = s.state i)
    (hwait : t.waitState i = s.waitState i) : Rests t i place := by
  cases place with
  | running | exited | unborn =>
      exact ⟨hstate.trans h.1, hwait.trans h.2⟩
  | down | sleeping | reading | waiting =>
      simp only [Rests, Waits, hstate, hwait] at h ⊢
      exact h

theorem Rests.waitState_of_runnable {place : Pc κ} (h : Rests s i place)
    (hrun : s.state i = .runnable) : s.waitState i = 0 := by
  have hwaits : ∀ {w}, Waits s i w → s.waitState i = 0 := by
    rintro w (⟨hsleeps, _⟩ | ⟨_, hzero⟩)
    · rw [hrun] at hsleeps
      cases hsleeps
    · exact hzero
  cases place with
  | running | exited | unborn => exact h.2
  | down | sleeping | reading | waiting => exact hwaits h

/-- Whom an interrupt or a signal may wake. -/
def Interruptible : Pc κ → Prop
  | .sleeping => True
  | .reading => True
  | .waiting => True
  | _ => False

theorem Interruptible.not_zombie (hpc : Interruptible (pc i)) (h : Rests s i (pc i)) :
    s.state i ≠ .zombie := by
  cases hplace : pc i with
  | sleeping =>
      rw [hplace] at h
      exact Waits.not_zombie h
  | reading =>
      rw [hplace] at h
      exact Waits.not_zombie h
  | waiting =>
      rw [hplace] at h
      exact Waits.not_zombie h
  | running | down | exited | unborn =>
      rw [hplace] at hpc
      exact absurd hpc id

/-- Only a wait that may be interrupted has the flag for it. -/
theorem Placed.interruptible (h : Placed s pc)
    (hflag : s.waitState i &&& WT_INTERRUPTED ≠ 0) : Interruptible (pc i) := by
  have hksem : WT_KSEM &&& WT_INTERRUPTED = 0 := by decide
  have hrests := h.rests i
  cases hplace : pc i with
  | sleeping | reading | waiting => trivial
  | running | exited | unborn =>
      rw [hplace] at hrests
      rw [hrests.2, Nat.zero_and] at hflag
      exact absurd rfl hflag
  | down k =>
      rw [hplace] at hrests
      rcases hrests with ⟨_, hwait⟩ | ⟨_, hwait⟩
      · rw [hwait] at hflag
        exact absurd hksem hflag
      · rw [hwait, Nat.zero_and] at hflag
        exact absurd rfl hflag

end Invariant

variable [DecidableEq ι] {values : κ → Int} {s t : Kernel ι κ} {pc : ι → Pc κ} {i : ι} {k : κ}

section Wakeups

/-- The state after `wakeup_proc`. -/
def woken (s : Kernel ι κ) (p : ι) : Kernel ι κ :=
  if s.state p = .runnable then s else { s with
    state := Function.update s.state p .runnable
    waitState := Function.update s.waitState p 0 }

theorem wakeupProc_of (h : s.state i ≠ .zombie) : wakeupProc i s = .ok (.ok (), woken s i) := by
  rw [wakeupProc, getState_bind, ensure_bind_of h, woken]
  rcases eq_or_ne (s.state i) .runnable with hrun | hnot
  · rw [if_pos hrun, if_neg (not_not_intro hrun)]
    rfl
  · rw [if_neg hnot, if_pos hnot]
    rfl

theorem woken_eq (s : Kernel ι κ) (p : ι) : woken s p = { s with
    state := (woken s p).state
    waitState := (woken s p).waitState } := by
  rw [woken]
  split
  · rfl
  · rfl

theorem woken_state_self (s : Kernel ι κ) (p : ι) : (woken s p).state p = .runnable := by
  rw [woken]
  split
  · assumption
  · exact Function.update_self _ _ _

theorem woken_state_of_ne {j : ι} (s : Kernel ι κ) {p : ι} (hne : j ≠ p) :
    (woken s p).state j = s.state j := by
  rw [woken]
  split
  · rfl
  · exact Function.update_of_ne hne _ _

theorem woken_waitState_of_ne {j : ι} (s : Kernel ι κ) {p : ι} (hne : j ≠ p) :
    (woken s p).waitState j = s.waitState j := by
  rw [woken]
  split
  · rfl
  · exact Function.update_of_ne hne _ _

theorem woken_waitState_self {w : Nat} {p : ι} (h : Waits s p w) :
    (woken s p).waitState p = 0 := by
  rw [woken]
  split
  · rename_i hrun
    rcases h with ⟨hsleeps, _⟩ | ⟨_, hzero⟩
    · rw [hrun] at hsleeps
      cases hsleeps
    · exact hzero
  · exact Function.update_self _ _ _

theorem waits_woken {w : Nat} {p : ι} (h : Waits s p w) : Waits (woken s p) p w :=
  Or.inr ⟨woken_state_self s p, woken_waitState_self h⟩

theorem Placed.woken (h : Placed s pc) (hpc : Interruptible (pc i)) :
    Placed (woken s i) pc := by
  have hnotDown : ∀ k, pc i ≠ .down k := by
    intro k heq
    rw [heq] at hpc
    exact hpc
  rw [woken_eq]
  refine { h with rests := ?_, asleep := ?_, granted := ?_ }
  · intro j
    rcases eq_or_ne j i with rfl | hne
    · have hrests := h.rests j
      cases hplace : pc j with
      | sleeping | reading | waiting =>
          rw [hplace] at hrests
          exact waits_woken hrests
      | running | down | exited | unborn =>
          rw [hplace] at hpc
          exact absurd hpc id
    · exact rests_congr (h.rests j) (woken_state_of_ne s hne) (woken_waitState_of_ne s hne)
  · intro j k hj
    have hne : j ≠ i := by
      rintro rfl
      exact hnotDown k (h.place j (.sem k) hj)
    exact (woken_state_of_ne s hne).trans (h.asleep j k hj)
  · intro j k hplace hj
    have hne : j ≠ i := by
      rintro rfl
      exact hnotDown k hplace
    obtain ⟨hrun, hflags⟩ := h.granted j k hplace hj
    exact ⟨(woken_state_of_ne s hne).trans hrun, hflags⟩

theorem Placed.wakeupProc (h : Placed s pc) (hpc : Interruptible (pc i)) :
    wakeupProc i s = .ok (.ok (), Semaphores.woken s i) :=
  wakeupProc_of (hpc.not_zombie (h.rests i))

/-- A process that was woken goes on. -/
theorem Placed.back (h : Placed s pc) (hrun : s.state i = .runnable) (hqueues : ∀ q, i ∉ s.queue q)
    (htimers : ∀ timer ∈ s.timerList, timer.proc ≠ i) :
    Placed s (Function.update pc i .running) := by
  have hpc : ∀ j, j ≠ i → Function.update pc i .running j = pc j :=
    fun j hne => Function.update_of_ne hne _ _
  refine { h with place := ?_, timers := ?_, rests := ?_, granted := ?_ }
  · intro j q hj
    have hne : j ≠ i := by
      rintro rfl
      exact hqueues q hj
    rw [hpc j hne]
    exact h.place j q hj
  · intro timer htimer
    rw [hpc timer.proc (htimers timer htimer)]
    exact h.timers timer htimer
  · intro j
    rcases eq_or_ne j i with rfl | hne
    · rw [Function.update_self]
      exact ⟨hrun, (h.rests j).waitState_of_runnable hrun⟩
    · rw [hpc j hne]
      exact h.rests j
  · intro j k hdown hj
    have hne : j ≠ i := by
      rintro rfl
      rw [Function.update_self] at hdown
      cases hdown
    rw [hpc j hne] at hdown
    exact h.granted j k hdown hj

end Wakeups

section Queues

variable [DecidableEq κ]

/-- The state after `wait_queue_del`. -/
def unlinked (s : Kernel ι κ) (q : Queue κ) (i : ι) : Kernel ι κ :=
  { s with
    wait := Function.update s.wait i { s.wait i with linked := false }
    queue := Function.update s.queue q ((s.queue q).erase i) }

theorem waitQueueDel_of {q : Queue κ} (hlink : (s.wait i).linked = true)
    (hqueue : (s.wait i).waitQueue = q) :
    waitQueueDel q i s = .ok (.ok (), unlinked s q i) := by
  rw [waitQueueDel, getState_bind, ensure_bind_of ⟨hlink, hqueue⟩]
  rfl

/-- The state after `wakeup_wait` has taken the process out of the queue. -/
def notified (s : Kernel ι κ) (q : Queue κ) (i : ι) (flags : Nat) : Kernel ι κ :=
  woken { s with
    wait := Function.update s.wait i { s.wait i with linked := false, wakeupFlags := flags }
    queue := Function.update s.queue q ((s.queue q).erase i) } i

theorem wakeupWait_of {q : Queue κ} (flags : Nat) (hlink : (s.wait i).linked = true)
    (hqueue : (s.wait i).waitQueue = q) (hstate : s.state i ≠ .zombie) :
    wakeupWait q i flags true s = .ok (.ok (), notified s q i flags) := by
  rw [wakeupWait, if_pos rfl, bind_of_ok (waitQueueDel_of hlink hqueue)]
  have hsame : { unlinked s q i with
      wait := Function.update (unlinked s q i).wait i
        { (unlinked s q i).wait i with wakeupFlags := flags } } =
      ({ s with
        wait := Function.update s.wait i { s.wait i with linked := false, wakeupFlags := flags }
        queue := Function.update s.queue q ((s.queue q).erase i) } : Kernel ι κ) := by
    simp [unlinked]
  show (modifyState _ >>= fun _ => wakeupProc i) (unlinked s q i) = _
  rw [modifyState_bind, hsame]
  exact wakeupProc_of hstate

/-- What a queue holds after the process has been taken out. -/
theorem Placed.mem_erased (h : Placed s pc) {q : Queue κ} (hi : i ∈ s.queue q) (j : ι)
    (q' : Queue κ) : j ∈ Function.update s.queue q ((s.queue q).erase i) q' ↔
      j ∈ s.queue q' ∧ j ≠ i := by
  rcases eq_or_ne q' q with rfl | hne
  · rw [Function.update_self, (h.nodup q').mem_erase_iff, and_comm]
  · rw [Function.update_of_ne hne]
    constructor
    · intro hj
      refine ⟨hj, ?_⟩
      rintro rfl
      exact hne (h.queue_unique hj hi)
    · exact And.left

theorem nodup_erased (h : ∀ q, (s.queue q).Nodup) (q q' : Queue κ) :
    (Function.update s.queue q ((s.queue q).erase i) q').Nodup := by
  rcases eq_or_ne q' q with rfl | hne
  · rw [Function.update_self]
    exact (h q').erase i
  · rw [Function.update_of_ne hne]
    exact h q'

/-- One process leaves its queue, and is told what a semaphore tells it. -/
theorem Placed.notified (h : Placed s pc) {q : Queue κ} (hi : i ∈ s.queue q) {flags : Nat}
    (hflags : ∀ k, q = .sem k → flags = WT_KSEM) : Placed (Semaphores.notified s q i flags) pc := by
  have hplace := h.place i q hi
  have hrests := h.rests i
  have hwaits : ∃ w, Waits s i w ∧ ∀ t : Kernel ι κ, Waits t i w → Rests t i (pc i) := by
    rw [hplace] at hrests ⊢
    cases q with
    | sem k => exact ⟨_, hrests, fun _ ht => ht⟩
    | keyboard => exact ⟨_, hrests, fun _ ht => ht⟩
  obtain ⟨w, hw, hrest⟩ := hwaits
  let u : Kernel ι κ := { s with
    wait := Function.update s.wait i { s.wait i with linked := false, wakeupFlags := flags }
    queue := Function.update s.queue q ((s.queue q).erase i) }
  have hother : ∀ j, j ≠ i → u.wait j = s.wait j := fun j hne => Function.update_of_ne hne _ _
  have hself : u.wait i = { s.wait i with linked := false, wakeupFlags := flags } :=
    Function.update_self _ _ _
  show Placed (Semaphores.woken u i) pc
  rw [woken_eq]
  constructor
  · intro j q'
    change j ∈ u.queue q' ↔ (u.wait j).linked = true ∧ (u.wait j).waitQueue = q'
    rw [h.mem_erased hi, h.link]
    rcases eq_or_ne j i with rfl | hne
    · rw [hself]
      simp
    · rw [hother j hne]
      simp [hne]
  · exact nodup_erased h.nodup q
  · intro j q' hj
    exact h.place j q' ((h.mem_erased hi j q').mp hj).1
  · exact h.timers
  · exact h.timersOnce
  · intro j
    rcases eq_or_ne j i with rfl | hne
    · exact hrest _ (waits_woken (s := u) hw)
    · exact rests_congr (h.rests j) (woken_state_of_ne u hne) (woken_waitState_of_ne u hne)
  · intro j k hj
    obtain ⟨hold, hne⟩ := (h.mem_erased hi j (.sem k)).mp hj
    exact (woken_state_of_ne u hne).trans (h.asleep j k hold)
  · intro j k hdown hj
    change (Semaphores.woken u i).state j = .runnable ∧ (u.wait j).wakeupFlags = WT_KSEM
    rcases eq_or_ne j i with rfl | hne
    · refine ⟨woken_state_self u j, ?_⟩
      rw [hself]
      apply hflags k
      rw [hplace] at hdown
      cases q with
      | sem k' =>
          cases hdown
          rfl
      | keyboard => cases hdown
    · have hold : j ∉ s.queue (.sem k) := fun hmem =>
        hj ((h.mem_erased hi j (.sem k)).mpr ⟨hmem, hne⟩)
      obtain ⟨hrun, hflag⟩ := h.granted j k hdown hold
      rw [hother j hne]
      exact ⟨(woken_state_of_ne u hne).trans hrun, hflag⟩

/-- The `wait_state` that goes with a wait queue. -/
def waitStateAt : Queue κ → Nat
  | .sem _ => WT_KSEM
  | .keyboard => WT_KBD

/-- The state after `wait_current_set`. -/
def parked (s : Kernel ι κ) (q : Queue κ) (i : ι) : Kernel ι κ :=
  { s with
    wait := Function.update s.wait i ⟨WT_INTERRUPTED, q, true⟩
    state := Function.update s.state i .sleeping
    waitState := Function.update s.waitState i (waitStateAt q)
    queue := Function.update s.queue q (s.queue q ++ [i]) }

theorem waitCurrentSet_of (s : Kernel ι κ) (q : Queue κ) (i : ι) :
    waitCurrentSet q i (waitStateAt q) s = .ok (.ok (), parked s q i) := by
  let u : Kernel ι κ := { s with
    wait := Function.update s.wait i { s.wait i with
      wakeupFlags := WT_INTERRUPTED
      linked := false }
    state := Function.update s.state i .sleeping
    waitState := Function.update s.waitState i (waitStateAt q) }
  have hfresh : (u.wait i).linked = false := by
    change (Function.update s.wait i _ i).linked = false
    rw [Function.update_self]
  have hbegin : waitCurrentSet q i (waitStateAt q) s = waitQueueAdd q i u := rfl
  have hdone : ({ u with
      wait := Function.update u.wait i { u.wait i with waitQueue := q, linked := true }
      queue := Function.update u.queue q (u.queue q ++ [i]) } : Kernel ι κ) = parked s q i := by
    simp [u, parked]
  rw [hbegin, waitQueueAdd, getState_bind, ensure_bind_of hfresh, ← hdone]
  rfl

theorem Placed.parked (h : Placed s pc) (hrun : pc i = .running) (q : Queue κ) :
    Placed (parked s q i) (Function.update pc i (placeAt q)) := by
  obtain ⟨hqueues, htimers⟩ := h.alone hrun
  have hpc : ∀ j, j ≠ i → Function.update pc i (placeAt q) j = pc j :=
    fun j hne => Function.update_of_ne hne _ _
  have hmem : ∀ j q', j ∈ (Semaphores.parked s q i).queue q' ↔
      j ∈ s.queue q' ∨ j = i ∧ q' = q := by
    intro j q'
    change j ∈ Function.update s.queue q (s.queue q ++ [i]) q' ↔ _
    rcases eq_or_ne q' q with rfl | hne
    · rw [Function.update_self, List.mem_append, List.mem_singleton]
      simp
    · rw [Function.update_of_ne hne]
      simp [hne]
  have hother : ∀ j, j ≠ i → (Semaphores.parked s q i).wait j = s.wait j :=
    fun j hne => Function.update_of_ne hne _ _
  have hself : (Semaphores.parked s q i).wait i = ⟨WT_INTERRUPTED, q, true⟩ :=
    Function.update_self _ _ _
  have hstate : ∀ j, j ≠ i → (Semaphores.parked s q i).state j = s.state j :=
    fun j hne => Function.update_of_ne hne _ _
  constructor
  · intro j q'
    rw [hmem]
    rcases eq_or_ne j i with rfl | hne
    · rw [hself]
      have hnot := hqueues q'
      simp only [hnot, false_or, true_and]
      exact eq_comm
    · rw [hother j hne, ← h.link]
      simp [hne]
  · intro q'
    rcases eq_or_ne q' q with rfl | hne
    · change (Function.update s.queue q' (s.queue q' ++ [i]) q').Nodup
      rw [Function.update_self]
      exact (h.nodup q').append (List.nodup_singleton i)
        (List.disjoint_singleton.mpr (hqueues q'))
    · change (Function.update s.queue q _ q').Nodup
      rw [Function.update_of_ne hne]
      exact h.nodup q'
  · intro j q' hj
    rcases (hmem j q').mp hj with hold | ⟨rfl, rfl⟩
    · have hne : j ≠ i := by
        rintro rfl
        exact hqueues q' hold
      rw [hpc j hne]
      exact h.place j q' hold
    · exact Function.update_self _ _ _
  · intro timer htimer
    rw [hpc timer.proc (htimers timer htimer)]
    exact h.timers timer htimer
  · exact h.timersOnce
  · intro j
    rcases eq_or_ne j i with rfl | hne
    · rw [Function.update_self]
      have hsleeps : Waits (Semaphores.parked s q j) j (waitStateAt q) :=
        Or.inl ⟨Function.update_self _ _ _, Function.update_self _ _ _⟩
      cases q with
      | sem k => exact hsleeps
      | keyboard => exact hsleeps
    · rw [hpc j hne]
      exact rests_congr (h.rests j) (hstate j hne) (Function.update_of_ne hne _ _)
  · intro j k hj
    rcases (hmem j _).mp hj with hold | ⟨rfl, _⟩
    · have hne : j ≠ i := by
        rintro rfl
        exact hqueues _ hold
      exact (hstate j hne).trans (h.asleep j k hold)
    · exact Function.update_self _ _ _
  · intro j k hdown hj
    have hnot : ¬(j = i ∧ Queue.sem k = q) := fun hin => hj ((hmem j _).mpr (Or.inr hin))
    have hne : j ≠ i := by
      rintro rfl
      rw [Function.update_self] at hdown
      cases q with
      | sem k' =>
          cases hdown
          exact hnot ⟨rfl, rfl⟩
      | keyboard => cases hdown
    rw [hpc j hne] at hdown
    rw [hother j hne, hstate j hne]
    exact h.granted j k hdown fun hold => hj ((hmem j _).mpr (Or.inl hold))

end Queues

section Semaphores

variable [DecidableEq κ]

/-- What `up` does: `value` grows, or the first process leaves the queue. -/
inductive Released (s t : Kernel ι κ) (k : κ) : Prop
  | kept : s.queue (.sem k) = [] → t.value = Function.update s.value k (s.value k + 1) →
      t.queue = s.queue → Released s t k
  | handed (w : ι) (rest : List ι) : s.queue (.sem k) = w :: rest → t.value = s.value →
      t.queue = Function.update s.queue (.sem k) rest → Released s t k

theorem up_of (h : Sound values s pc) (k : κ) :
    ∃ t, up k s = .ok (.ok (), t) ∧ Sound values t pc ∧ Released s t k := by
  obtain ⟨hplaced, hcounted⟩ := h
  let u : Kernel ι κ := { s with ups := Function.update s.ups k (s.ups k + 1) }
  have hups : ∀ k', k' ≠ k → Function.update s.ups k (s.ups k + 1) k' = s.ups k' :=
    fun k' hne => Function.update_of_ne hne _ _
  cases hqueue : s.queue (.sem k) with
  | nil =>
      refine ⟨{ u with value := Function.update s.value k (s.value k + 1) }, ?_, ⟨?_, ?_⟩, ?_⟩
      · rw [up, modifyState_bind, getState_bind, hqueue]
        rfl
      · exact ⟨hplaced.link, hplaced.nodup, hplaced.place, hplaced.timers, hplaced.timersOnce,
          hplaced.rests, hplaced.asleep, hplaced.granted⟩
      · constructor
        · intro k'
          change 0 ≤ Function.update s.value k (s.value k + 1) k'
          have hnonneg := hcounted.nonneg k'
          rcases eq_or_ne k' k with rfl | hne
          · rw [Function.update_self]
            omega
          · rwa [Function.update_of_ne hne]
        · intro k' hpos
          rcases eq_or_ne k' k with rfl | hne
          · exact hqueue
          · change 0 < Function.update s.value k (s.value k + 1) k' at hpos
            rw [Function.update_of_ne hne] at hpos
            exact hcounted.empty k' hpos
        · intro k'
          change s.taken k' + (s.handed k').length + Function.update s.value k _ k' =
            values k' + (Function.update s.ups k _ k' : Nat)
          have haccount := hcounted.account k'
          rcases eq_or_ne k' k with rfl | hne
          · rw [Function.update_self, Function.update_self]
            omega
          · rwa [Function.update_of_ne hne, hups k' hne]
        · exact hcounted.fifo
      · exact .kept hqueue rfl rfl
  | cons w rest =>
      have hw : w ∈ s.queue (.sem k) := by
        rw [hqueue]
        exact List.mem_cons_self
      have hsleeps := hplaced.asleep w k hw
      have hwait : s.waitState w = WT_KSEM := by
        have hrests := hplaced.rests w
        rw [hplaced.place w _ hw] at hrests
        rcases hrests with ⟨_, hwait⟩ | ⟨hrun, _⟩
        · exact hwait
        · rw [hsleeps] at hrun
          cases hrun
      obtain ⟨hlink, hwaitQueue⟩ := hplaced.linked_of_mem hw
      let v : Kernel ι κ := { u with
        handed := Function.update s.handed k (s.handed k ++ [w]) }
      have hvPlaced : Placed v pc :=
        ⟨hplaced.link, hplaced.nodup, hplaced.place, hplaced.timers, hplaced.timersOnce,
          hplaced.rests, hplaced.asleep, hplaced.granted⟩
      have herase : (s.queue (.sem k)).erase w = rest := by
        rw [hqueue]
        exact List.erase_cons_head w rest
      have hstate : v.state w ≠ .zombie := by
        change s.state w ≠ .zombie
        simp [hsleeps]
      have hqueues : (notified v (.sem k) w WT_KSEM).queue =
          Function.update s.queue (.sem k) rest := by
        rw [notified, woken_eq, ← herase]
      refine ⟨notified v (.sem k) w WT_KSEM, ?_, ⟨?_, ?_⟩, ?_⟩
      · rw [up, modifyState_bind, getState_bind, hqueue]
        exact (ensure_bind_of hwait _ u).trans (wakeupWait_of WT_KSEM hlink hwaitQueue hstate)
      · exact hvPlaced.notified hw fun _ _ => rfl
      · have hzero : s.value k = 0 := by
          by_contra hne
          have hnonneg := hcounted.nonneg k
          have hempty := hcounted.empty k (by omega)
          rw [hqueue] at hempty
          cases hempty
        rw [notified, woken_eq]
        constructor
        · exact hcounted.nonneg
        · intro k' hpos
          have hne : k' ≠ k := by
            rintro rfl
            exact absurd hpos (by rw [show v.value k' = 0 from hzero]; simp)
          change Function.update s.queue (.sem k) _ (.sem k') = []
          rw [Function.update_of_ne (by simpa using hne)]
          exact hcounted.empty k' hpos
        · intro k'
          change s.taken k' + (Function.update s.handed k _ k').length + s.value k' =
            values k' + (Function.update s.ups k _ k' : Nat)
          have haccount := hcounted.account k'
          rcases eq_or_ne k' k with rfl | hne
          · rw [Function.update_self, Function.update_self, List.length_append,
              List.length_singleton]
            omega
          · rwa [Function.update_of_ne hne, hups k' hne]
        · intro k'
          change s.queued k' = Function.update s.handed k _ k' ++
            Function.update s.queue (.sem k) ((s.queue (.sem k)).erase w) (.sem k')
          rcases eq_or_ne k' k with rfl | hne
          · rw [Function.update_self, Function.update_self, herase, List.append_assoc,
              hcounted.fifo k', hqueue]
            rfl
          · rw [Function.update_of_ne hne, Function.update_of_ne (by simpa using hne)]
            exact hcounted.fifo k'
      · refine .handed w rest hqueue ?_ hqueues
        rw [notified, woken_eq]

omit [DecidableEq ι] in
theorem take_of (h : Sound values s pc) {k : κ} (hpos : 0 < s.value k) :
    ∃ t, take k s = .ok (.ok (), t) ∧ Sound values t pc ∧
      t.value = Function.update s.value k (s.value k - 1) ∧ t.queue = s.queue := by
  obtain ⟨hplaced, hcounted⟩ := h
  refine ⟨_, rfl, ⟨?_, ?_⟩, rfl, rfl⟩
  · exact ⟨hplaced.link, hplaced.nodup, hplaced.place, hplaced.timers, hplaced.timersOnce,
      hplaced.rests, hplaced.asleep, hplaced.granted⟩
  · constructor
    · intro k'
      change 0 ≤ Function.update s.value k (s.value k - 1) k'
      have hnonneg := hcounted.nonneg k'
      rcases eq_or_ne k' k with rfl | hne
      · rw [Function.update_self]
        omega
      · rwa [Function.update_of_ne hne]
    · intro k' hpos'
      rcases eq_or_ne k' k with rfl | hne
      · exact hcounted.empty k' hpos
      · change 0 < Function.update s.value k (s.value k - 1) k' at hpos'
        rw [Function.update_of_ne hne] at hpos'
        exact hcounted.empty k' hpos'
    · intro k'
      change (Function.update s.taken k _ k' : Nat) + (s.handed k').length +
        Function.update s.value k _ k' = values k' + s.ups k'
      have haccount := hcounted.account k'
      rcases eq_or_ne k' k with rfl | hne
      · rw [Function.update_self, Function.update_self]
        omega
      · rwa [Function.update_of_ne hne, Function.update_of_ne hne]
    · exact hcounted.fifo

/-- What `down` does before `schedule`: a unit is taken, or the process is the last in
the queue. -/
inductive Acquired (s t : Kernel ι κ) (i : ι) (k : κ) : Bool → Prop
  | taken : 0 < s.value k → t.value = Function.update s.value k (s.value k - 1) →
      t.queue = s.queue → Acquired s t i k false
  | queued : s.value k = 0 → t.value = s.value →
      t.queue = Function.update s.queue (.sem k) (s.queue (.sem k) ++ [i]) → Acquired s t i k true

theorem down_of (h : Sound values s pc) (hrun : pc i = .running) (k : κ) :
    ∃ waits t, down i k s = .ok (.ok waits, t) ∧
      Sound values t (Function.update pc i (if waits then .down k else .running)) ∧
        Acquired s t i k waits := by
  rcases Decidable.em (0 < s.value k) with hpos | hnot
  · obtain ⟨t, htake, hsound, hvalue, hqueue⟩ := take_of h hpos
    refine ⟨false, t, ?_, ?_, .taken hpos hvalue hqueue⟩
    · rw [down, getState_bind, if_pos hpos, bind_of_ok htake]
      rfl
    · have hsame : Function.update pc i .running = pc := by
        rw [← hrun, Function.update_eq_self]
      simp only [Bool.false_eq_true, if_false, hsame]
      exact hsound
  · obtain ⟨hplaced, hcounted⟩ := h
    have hzero : s.value k = 0 := by
      have hnonneg := hcounted.nonneg k
      omega
    let t : Kernel ι κ := { parked s (.sem k) i with
      queued := Function.update s.queued k (s.queued k ++ [i]) }
    have hpark := hplaced.parked hrun (.sem k)
    refine ⟨true, t, ?_, ⟨?_, ?_⟩, .queued hzero rfl rfl⟩
    · rw [down, getState_bind, if_neg hnot]
      exact bind_of_ok (waitCurrentSet_of s (.sem k) i)
    · exact ⟨hpark.link, hpark.nodup, hpark.place, hpark.timers, hpark.timersOnce, hpark.rests,
        hpark.asleep, hpark.granted⟩
    · constructor
      · exact hcounted.nonneg
      · intro k' hpos
        have hne : k' ≠ k := by
          rintro rfl
          exact hnot hpos
        change Function.update s.queue (.sem k) _ (.sem k') = []
        rw [Function.update_of_ne (by simpa using hne)]
        exact hcounted.empty k' hpos
      · exact hcounted.account
      · intro k'
        change Function.update s.queued k _ k' = s.handed k' ++
          Function.update s.queue (.sem k) (s.queue (.sem k) ++ [i]) (.sem k')
        rcases eq_or_ne k' k with rfl | hne
        · rw [Function.update_self, Function.update_self, hcounted.fifo k', List.append_assoc]
        · rw [Function.update_of_ne hne, Function.update_of_ne (by simpa using hne)]
          exact hcounted.fifo k'

/-- A process that goes on in `down` was given its unit and taken out of the queue. -/
theorem downed_of (h : Sound values s pc) (hplace : pc i = .down k)
    (hrun : s.state i = .runnable) : downed i k s = .ok (.ok (), s) ∧ (∀ q, i ∉ s.queue q) ∧
      Sound values s (Function.update pc i .running) := by
  obtain ⟨hplaced, hcounted⟩ := h
  have hout : ∀ q, i ∉ s.queue q := by
    intro q hi
    have hat := (hplaced.place i q hi).symm.trans hplace
    cases q with
    | sem k' =>
        have hsleeps := hplaced.asleep i k' hi
        rw [hrun] at hsleeps
        cases hsleeps
    | keyboard => cases hat
  have hunlinked : ¬(s.wait i).linked = true := fun hlink =>
    hout _ ((hplaced.link i (s.wait i).waitQueue).mpr ⟨hlink, rfl⟩)
  have hflags := (hplaced.granted i k hplace (hout _)).2
  have hdel : waitCurrentDel (.sem k) i s = .ok (.ok (), s) := by
    rw [waitCurrentDel, getState_bind, if_neg hunlinked]
    rfl
  refine ⟨?_, hout, hplaced.back hrun hout ?_, hcounted⟩
  · rw [downed, bind_of_ok hdel, getState_bind, hflags]
    rfl
  · rintro timer htimer rfl
    have hsleeping := hplaced.timers timer htimer
    rw [hplace] at hsleeping
    cases hsleeping

omit [DecidableEq ι] in
theorem tryDown_of (h : Sound values s pc) (k : κ) :
    ∃ b t, tryDown k s = .ok (.ok b, t) ∧ Sound values t pc ∧ t.queue = s.queue ∧
      ∀ k', k' ≠ k → t.value k' = s.value k' := by
  rcases Decidable.em (0 < s.value k) with hpos | hnot
  · obtain ⟨t, htake, hsound, hvalue, hqueue⟩ := take_of h hpos
    refine ⟨true, t, ?_, hsound, hqueue, ?_⟩
    · rw [tryDown, getState_bind, if_pos hpos, bind_of_ok htake]
      rfl
    · intro k' hne
      rw [hvalue, Function.update_of_ne hne]
  · refine ⟨false, s, ?_, h, rfl, fun _ _ => rfl⟩
    rw [tryDown, getState_bind, if_neg hnot]
    rfl

end Semaphores

section Timers

omit [DecidableEq ι] in
theorem insertTimer_procs (timer : Timer ι) (l : List (Timer ι)) :
    ((insertTimer timer l).map Timer.proc).Perm (timer.proc :: l.map Timer.proc) := by
  induction l generalizing timer with
  | nil => exact List.Perm.refl _
  | cons next rest ih =>
      rw [insertTimer]
      split
      · exact List.Perm.refl _
      · exact ((ih { timer with expires := timer.expires - next.expires }).cons next.proc).trans
          (List.Perm.swap _ _ _)

theorem removeTimer_procs (proc : ι) (l : List (Timer ι)) :
    (removeTimer proc l).map Timer.proc = (l.map Timer.proc).erase proc := by
  fun_induction removeTimer proc l with
  | case1 => rfl
  | case2 timer hsame => simp [hsame]
  | case3 timer hother =>
      rw [List.map_singleton, List.erase_of_not_mem]
      simpa using Ne.symm hother
  | case4 timer next rest hsame =>
      show _ = (timer.proc :: next.proc :: rest.map Timer.proc).erase proc
      rw [hsame, List.erase_cons_head]
      rfl
  | case5 timer next rest hother ih =>
      show timer.proc :: (removeTimer proc (next :: rest)).map Timer.proc =
        (timer.proc :: (next :: rest).map Timer.proc).erase proc
      rw [ih, List.erase_cons_tail (by simpa using hother)]

/-- The queues and the values of the semaphores are the same. -/
structure Same (s t : Kernel ι κ) : Prop where
  value : t.value = s.value
  queue : ∀ k, t.queue (.sem k) = s.queue (.sem k)

omit [DecidableEq ι] in
theorem Same.refl (s : Kernel ι κ) : Same s s :=
  ⟨rfl, fun _ => rfl⟩

omit [DecidableEq ι] in
theorem Same.trans {u : Kernel ι κ} (h : Same s t) (h' : Same t u) : Same s u :=
  ⟨h'.value.trans h.value, fun k => (h'.queue k).trans (h.queue k)⟩

theorem same_woken (s : Kernel ι κ) (i : ι) : Same s (woken s i) := by
  rw [woken_eq]
  exact ⟨rfl, fun _ => rfl⟩

omit [DecidableEq ι] in
theorem Counted.congr (h : Counted values s) (hsame : Same s t) (htaken : t.taken = s.taken)
    (hhanded : t.handed = s.handed) (hups : t.ups = s.ups) (hqueued : t.queued = s.queued) :
    Counted values t := by
  constructor
  · rw [hsame.value]
    exact h.nonneg
  · intro k
    rw [hsame.value, hsame.queue]
    exact h.empty k
  · rw [hsame.value, htaken, hhanded, hups]
    exact h.account
  · intro k
    rw [hqueued, hhanded, hsame.queue]
    exact h.fifo k

theorem Counted.woken (h : Counted values s) (i : ι) : Counted values (woken s i) := by
  rw [woken_eq]
  exact ⟨h.nonneg, h.empty, h.account, h.fifo⟩

theorem Sound.woken (h : Sound values s pc) (hpc : Interruptible (pc i)) :
    Sound values (Semaphores.woken s i) pc :=
  ⟨h.placed.woken hpc, h.counted.woken i⟩

/-- Without the timer of a process there is none of that process. -/
theorem Placed.removeTimer (h : Placed s pc) (i : ι) :
    Placed { s with timerList := removeTimer i s.timerList } pc ∧
      ∀ timer ∈ removeTimer i s.timerList, timer.proc ≠ i := by
  have hprocs := removeTimer_procs i s.timerList
  have hmem : ∀ timer ∈ WaitQueues.removeTimer i s.timerList,
      timer.proc ∈ (s.timerList.map Timer.proc).erase i := by
    intro timer htimer
    rw [← hprocs]
    exact List.mem_map_of_mem htimer
  refine ⟨{ h with timers := ?_, timersOnce := ?_ }, ?_⟩
  · intro timer htimer
    obtain ⟨old, hold, hproc⟩ := List.mem_map.mp (List.mem_of_mem_erase (hmem timer htimer))
    rw [← hproc]
    exact h.timers old hold
  · change ((WaitQueues.removeTimer i s.timerList).map Timer.proc).Nodup
    rw [hprocs]
    exact h.timersOnce.erase i
  · intro timer htimer
    exact (h.timersOnce.mem_erase_iff.mp (hmem timer htimer)).1

theorem expire_of (l : List (Timer ι)) (h : Sound values s pc)
    (hl : ∀ timer ∈ l, pc timer.proc = .sleeping) :
    ∃ t, expire l s = .ok (.ok (), t) ∧ Sound values t pc ∧ Same s t := by
  induction l generalizing s with
  | nil => exact ⟨s, rfl, h, Same.refl s⟩
  | cons timer rest ih =>
      rw [expire]
      split
      · have hsleeping := hl timer List.mem_cons_self
        have hpc : Interruptible (pc timer.proc) := by
          rw [hsleeping]
          trivial
        have hflag : s.waitState timer.proc ≠ 0 →
            s.waitState timer.proc &&& WT_INTERRUPTED ≠ 0 := by
          intro hnonzero
          have hrests := h.placed.rests timer.proc
          rw [hsleeping] at hrests
          rcases hrests with ⟨_, hwait⟩ | ⟨_, hzero⟩
          · rw [hwait]
            decide
          · exact absurd hzero hnonzero
        have hwoken := h.woken hpc
        let u : Kernel ι κ := { woken s timer.proc with
          timerList := removeTimer timer.proc (woken s timer.proc).timerList }
        have hu : Sound values u pc :=
          ⟨(hwoken.placed.removeTimer timer.proc).1, ⟨hwoken.counted.nonneg,
            hwoken.counted.empty, hwoken.counted.account, hwoken.counted.fifo⟩⟩
        have hsu : Same s u :=
          ⟨(same_woken s timer.proc).value, (same_woken s timer.proc).queue⟩
        obtain ⟨t, hrun, ht, hsame⟩ := ih hu fun next hnext =>
          hl next (List.mem_cons_of_mem timer hnext)
        refine ⟨t, ?_, ht, hsu.trans hsame⟩
        rw [getState_bind, ensure_bind_of hflag, bind_of_ok (h.placed.wakeupProc hpc), ← hrun]
        rfl
      · exact ⟨s, rfl, h, Same.refl s⟩

theorem runTimerList_of (h : Sound values s pc) {r : Except Errno Unit}
    (hrun : runTimerList s = .ok (r, t)) : Sound values t pc ∧ Same s t := by
  rw [runTimerList, getState_bind] at hrun
  cases htimers : s.timerList with
  | nil =>
      rw [htimers] at hrun
      cases hrun
      exact ⟨h, Same.refl s⟩
  | cons timer rest =>
      rw [htimers] at hrun
      obtain ⟨hplaced, hcounted⟩ := h
      let ticked : Timer ι := { timer with expires := timer.expires - 1 }
      let u : Kernel ι κ := { s with timerList := ticked :: rest }
      have hprocs : u.timerList.map Timer.proc = s.timerList.map Timer.proc := by
        rw [htimers]
        rfl
      have hsleeping : ∀ next ∈ u.timerList, pc next.proc = .sleeping := by
        intro next hnext
        have hmem : next.proc ∈ s.timerList.map Timer.proc := by
          rw [← hprocs]
          exact List.mem_map_of_mem hnext
        obtain ⟨old, hold, hproc⟩ := List.mem_map.mp hmem
        rw [← hproc]
        exact hplaced.timers old hold
      have hu : Sound values u pc := by
        refine ⟨{ hplaced with timers := hsleeping, timersOnce := ?_ }, ?_⟩
        · rw [hprocs]
          exact hplaced.timersOnce
        · exact ⟨hcounted.nonneg, hcounted.empty, hcounted.account, hcounted.fifo⟩
      obtain ⟨v, hexpire, hv, hsame⟩ := expire_of (ticked :: rest) hu hsleeping
      rcases Decidable.em (timer.expires ≠ 0) with hleft | hnone
      · have hdone : runTimerList s = .ok (.ok (), v) := by
          rw [runTimerList, getState_bind, htimers]
          exact (ensure_bind_of hleft _ s).trans hexpire
        rw [runTimerList, getState_bind, htimers] at hdone
        cases hdone.symm.trans hrun
        exact ⟨hv, hsame.value, hsame.queue⟩
      · have hpanic := ensure_bind_of_not hnone
          (fun _ => do
            modifyState fun s => { s with timerList := ticked :: rest }
            expire (ticked :: rest)) s
        cases hpanic.symm.trans hrun

end Timers

section Events

variable [DecidableEq κ]

omit [DecidableEq ι] in
theorem sem_of_keyboard (f : Queue κ → List ι) (l : List ι) (k : κ) :
    Function.update f .keyboard l (.sem k) = f (.sem k) :=
  Function.update_of_ne (by simp) _ _

theorem wakeupAll_of (l : List ι) (h : Sound values s pc) (hl : ∀ j ∈ l, j ∈ s.queue .keyboard)
    (hnodup : l.Nodup) (flags : Nat) :
    ∃ t, wakeupAll .keyboard flags l s = .ok (.ok (), t) ∧ Sound values t pc ∧ Same s t := by
  induction l generalizing s with
  | nil => exact ⟨s, rfl, h, Same.refl s⟩
  | cons i rest ih =>
      obtain ⟨hplaced, hcounted⟩ := h
      have hi := hl i List.mem_cons_self
      obtain ⟨hlink, hqueue⟩ := hplaced.linked_of_mem hi
      have hstate : s.state i ≠ .zombie := by
        have hrests := hplaced.rests i
        rw [hplaced.place i _ hi] at hrests
        exact Waits.not_zombie hrests
      have hsame : Same s (notified s .keyboard i flags) := by
        rw [notified, woken_eq]
        exact ⟨rfl, fun k => sem_of_keyboard s.queue ((s.queue .keyboard).erase i) k⟩
      have hnotified : Sound values (notified s .keyboard i flags) pc := by
        refine ⟨hplaced.notified hi (by simp), hcounted.congr hsame ?_ ?_ ?_ ?_⟩
        · rw [notified, woken_eq]
        · rw [notified, woken_eq]
        · rw [notified, woken_eq]
        · rw [notified, woken_eq]
      have hrest : ∀ j ∈ rest, j ∈ (notified s .keyboard i flags).queue .keyboard := by
        intro j hj
        have hne : j ≠ i := by
          rintro rfl
          exact (List.nodup_cons.mp hnodup).1 hj
        rw [notified, woken_eq]
        exact (hplaced.mem_erased hi j .keyboard).mpr ⟨hl j (List.mem_cons_of_mem i hj), hne⟩
      obtain ⟨t, hrun, ht, hsame'⟩ := ih hnotified hrest (List.nodup_cons.mp hnodup).2
      refine ⟨t, ?_, ht, hsame.trans hsame'⟩
      rw [wakeupAll, bind_of_ok (wakeupWait_of flags hlink hqueue hstate)]
      exact hrun

omit [DecidableEq κ] in
theorem wakeParents_of (l : List ι) (h : Sound values s pc) :
    ∃ t, wakeParents l s = .ok (.ok (), t) ∧ Sound values t pc ∧ Same s t := by
  induction l generalizing s with
  | nil => exact ⟨s, rfl, h, Same.refl s⟩
  | cons p rest ih =>
      rcases eq_or_ne (s.waitState p) WT_CHILD with hchild | hother
      · have hpc : Interruptible (pc p) := by
          apply h.placed.interruptible
          rw [hchild]
          decide
        obtain ⟨t, hrun, ht, hsame⟩ := ih (h.woken hpc)
        refine ⟨t, ?_, ht, (same_woken s p).trans hsame⟩
        rw [wakeParents, getState_bind, if_pos hchild, bind_of_ok (h.placed.wakeupProc hpc)]
        exact hrun
      · obtain ⟨t, hrun, ht, hsame⟩ := ih h
        refine ⟨t, ?_, ht, hsame⟩
        rw [wakeParents, getState_bind, if_neg hother]
        exact hrun

omit [DecidableEq κ] in
theorem doKill_of (h : Sound values s pc) (i : ι) :
    ∃ r t, doKill i s = .ok (r, t) ∧ Sound values t pc ∧ Same s t := by
  rw [doKill]
  simp only [getState_bind]
  split
  · exact ⟨.error .eKilled, s, rfl, h, Same.refl s⟩
  · let u : Kernel ι κ := { s with exiting := Function.update s.exiting i true }
    have hu : Sound values u pc :=
      ⟨⟨h.placed.link, h.placed.nodup, h.placed.place, h.placed.timers, h.placed.timersOnce,
        h.placed.rests, h.placed.asleep, h.placed.granted⟩, h.counted.nonneg, h.counted.empty,
        h.counted.account, h.counted.fifo⟩
    split
    · rename_i hflag
      have hpc : Interruptible (pc i) := h.placed.interruptible hflag
      refine ⟨.ok (), woken u i, ?_, hu.woken hpc, ?_⟩
      · exact hu.placed.wakeupProc hpc
      · exact ⟨(same_woken u i).value, (same_woken u i).queue⟩
    · exact ⟨.ok (), u, rfl, hu, rfl, fun _ => rfl⟩

theorem occur_of (h : Sound values s pc) {event : Event ι} {r : Except Errno Unit}
    (hrun : occur event s = .ok (r, t)) : Sound values t pc ∧ Same s t := by
  cases event with
  | kill i =>
      obtain ⟨r', t', hkill, hresult⟩ := doKill_of h i
      cases hkill.symm.trans hrun
      exact hresult
  | timer => exact runTimerList_of h hrun
  | key =>
      obtain ⟨t', hwake, hresult⟩ := wakeupAll_of (s.queue .keyboard) h (fun _ hj => hj)
        (h.placed.nodup _) WT_KBD
      cases hwake.symm.trans hrun
      exact hresult

end Events

section Calls

variable [DecidableEq κ]

/-- The calls that no semaphore has a part in. -/
def Apart : Call ι κ → Prop
  | .up _ => False
  | .down _ => False
  | .tryDown _ => False
  | _ => True

omit [DecidableEq κ] in
theorem Placed.leave (h : Placed s pc) (hrun : pc i = .running) {place : Pc κ} {state : ProcState}
    {waitState : Nat} (hrests : ∀ t : Kernel ι κ, t.state i = state → t.waitState i = waitState →
      Rests t i place) (hnotDown : ∀ k, place ≠ .down k) :
    Placed { s with
      state := Function.update s.state i state
      waitState := Function.update s.waitState i waitState } (Function.update pc i place) := by
  obtain ⟨hqueues, htimers⟩ := h.alone hrun
  have hpc : ∀ j, j ≠ i → Function.update pc i place j = pc j :=
    fun j hne => Function.update_of_ne hne _ _
  refine { h with place := ?_, timers := ?_, rests := ?_, asleep := ?_, granted := ?_ }
  · intro j q hj
    have hne : j ≠ i := by
      rintro rfl
      exact hqueues q hj
    rw [hpc j hne]
    exact h.place j q hj
  · intro timer htimer
    rw [hpc timer.proc (htimers timer htimer)]
    exact h.timers timer htimer
  · intro j
    rcases eq_or_ne j i with rfl | hne
    · rw [Function.update_self]
      exact hrests _ (Function.update_self _ _ _) (Function.update_self _ _ _)
    · rw [hpc j hne]
      exact rests_congr (h.rests j) (Function.update_of_ne hne _ _)
        (Function.update_of_ne hne _ _)
  · intro j k hj
    have hne : j ≠ i := by
      rintro rfl
      exact hqueues _ hj
    exact (Function.update_of_ne hne _ _).trans (h.asleep j k hj)
  · intro j k hdown hj
    have hne : j ≠ i := by
      rintro rfl
      rw [Function.update_self] at hdown
      exact hnotDown k hdown
    rw [hpc j hne] at hdown
    obtain ⟨hrunnable, hflags⟩ := h.granted j k hdown hj
    exact ⟨(Function.update_of_ne hne _ _).trans hrunnable, hflags⟩

omit [DecidableEq κ] in
theorem doSleep_of (h : Sound values s pc) (hrun : pc i = .running) (time : Nat) :
    ∃ place t, doSleep i time s = .ok (.ok place, t) ∧
      Sound values t (Function.update pc i place) ∧ Same s t ∧ ∀ k, place ≠ .down k := by
  have hstay : Function.update pc i .running = pc := by
    rw [← hrun, Function.update_eq_self]
  rcases Decidable.em (time = 0) with hzero | hpos
  · refine ⟨.running, s, ?_, ?_, Same.refl s, by simp⟩
    · rw [doSleep, if_pos hzero]
      rfl
    · rwa [hstay]
  · obtain ⟨hplaced, hcounted⟩ := h
    let u : Kernel ι κ := { s with
      state := Function.update s.state i .sleeping
      waitState := Function.update s.waitState i WT_TIMER }
    let t : Kernel ι κ := { u with timerList := insertTimer ⟨time, i⟩ s.timerList }
    have hu : Placed u (Function.update pc i .sleeping) :=
      hplaced.leave hrun (fun t hstate hwait => Or.inl ⟨hstate, hwait⟩) (by simp)
    have hprocs := insertTimer_procs ⟨time, i⟩ s.timerList
    have htimers := (hplaced.alone hrun).2
    refine ⟨.sleeping, t, ?_, ⟨{ hu with timers := ?_, timersOnce := ?_ }, ?_⟩,
      ⟨rfl, fun _ => rfl⟩, by simp⟩
    · rw [doSleep, if_neg hpos]
      show (addTimer ⟨time, i⟩ >>= fun _ => pure Pc.sleeping) u = _
      rw [addTimer, routine_bind_assoc, ensure_bind_of (Nat.pos_of_ne_zero hpos)]
      rfl
    · intro timer htimer
      have hmem : timer.proc ∈ i :: s.timerList.map Timer.proc :=
        hprocs.mem_iff.mp (List.mem_map_of_mem htimer)
      rcases List.mem_cons.mp hmem with hself | hold
      · rw [hself, Function.update_self]
      · obtain ⟨old, hold, hproc⟩ := List.mem_map.mp hold
        rw [← hproc]
        exact hu.timers old hold
    · refine hprocs.nodup_iff.mpr (List.nodup_cons.mpr ⟨?_, hplaced.timersOnce⟩)
      intro hmem
      obtain ⟨old, hold, hproc⟩ := List.mem_map.mp hmem
      exact htimers old hold hproc
    · exact ⟨hcounted.nonneg, hcounted.empty, hcounted.account, hcounted.fifo⟩

/-- A call that no semaphore has a part in returns, and leaves the semaphores alone. -/
theorem start_of_apart (h : Sound values s pc) (hrun : pc i = .running) {call : Call ι κ}
    (hcall : Apart call) : ∃ place t, start i call s = .ok (.ok place, t) ∧
      Sound values t (Function.update pc i place) ∧ Same s t ∧ ∀ k, place ≠ .down k := by
  cases call with
  | up | down | tryDown => exact absurd hcall id
  | sleep time => exact doSleep_of h hrun time
  | read =>
      have hpark := h.placed.parked hrun .keyboard
      have hsame : Same s (parked s .keyboard i) :=
        ⟨rfl, fun k => sem_of_keyboard s.queue (s.queue .keyboard ++ [i]) k⟩
      refine ⟨.reading, _, bind_of_ok (waitCurrentSet_of s .keyboard i), ⟨hpark, ?_⟩, hsame, ?_⟩
      · exact h.counted.congr hsame rfl rfl rfl rfl
      · simp
  | wait =>
      refine ⟨.waiting, _, rfl, ⟨?_, ?_⟩, ⟨rfl, fun _ => rfl⟩, by simp⟩
      · exact h.placed.leave hrun (fun t hstate hwait => Or.inl ⟨hstate, hwait⟩) (by simp)
      · exact ⟨h.counted.nonneg, h.counted.empty, h.counted.account, h.counted.fifo⟩
  | exit parents =>
      let u : Kernel ι κ := { s with state := Function.update s.state i .zombie }
      have hzero : s.waitState i = 0 := by
        have hrests := h.placed.rests i
        rw [hrun] at hrests
        exact hrests.2
      have hwait : Function.update s.waitState i 0 = s.waitState := by
        rw [← hzero, Function.update_eq_self]
      have hplaced : Placed u (Function.update pc i .exited) := by
        have hrests : ∀ t : Kernel ι κ, t.state i = .zombie → t.waitState i = 0 →
            Rests t i .exited := fun t hstate hwait => ⟨hstate, hwait⟩
        have hleave := h.placed.leave hrun hrests (by simp)
        rwa [hwait] at hleave
      have hu : Sound values u (Function.update pc i .exited) :=
        ⟨hplaced, h.counted.nonneg, h.counted.empty, h.counted.account, h.counted.fifo⟩
      obtain ⟨t, hwake, ht, hsame⟩ := wakeParents_of parents hu
      refine ⟨.exited, t, ?_, ht, ⟨hsame.value, hsame.queue⟩, by simp⟩
      show (wakeParents parents >>= fun _ => pure Pc.exited) u = _
      rw [bind_of_ok hwake]
      rfl

/-- A process that goes on outside of `down`. -/
theorem resume_of_apart (h : Sound values s pc) (hrun : s.state i = .runnable)
    (hplace : ∀ k, pc i ≠ .down k) : ∃ place t, resume i (pc i) s = .ok (.ok place, t) ∧
      Sound values t (Function.update pc i place) ∧ Same s t ∧ ∀ k, place ≠ .down k := by
  have hnoTimer : pc i ≠ .sleeping → ∀ timer ∈ s.timerList, timer.proc ≠ i := by
    rintro hnot timer htimer rfl
    exact hnot (h.placed.timers timer htimer)
  have hnoQueue : pc i ≠ .reading → ∀ q, i ∉ s.queue q := by
    intro hnot q hi
    have hat := h.placed.place i q hi
    cases q with
    | sem k => exact hplace k hat
    | keyboard => exact hnot hat
  cases hpc : pc i with
  | running | exited | unborn =>
      refine ⟨_, s, rfl, ?_, Same.refl s, by simp⟩
      rw [← hpc, Function.update_eq_self]
      exact h
  | down k => exact absurd hpc (hplace k)
  | waiting =>
      refine ⟨.running, s, rfl, ⟨?_, h.counted⟩, Same.refl s, by simp⟩
      exact h.placed.back hrun (hnoQueue (by simp [hpc])) (hnoTimer (by simp [hpc]))
  | sleeping =>
      obtain ⟨hplaced, hnone⟩ := h.placed.removeTimer i
      refine ⟨.running, _, rfl, ⟨hplaced.back hrun (hnoQueue (by simp [hpc])) hnone, ?_⟩,
        ⟨rfl, fun _ => rfl⟩, by simp⟩
      exact ⟨h.counted.nonneg, h.counted.empty, h.counted.account, h.counted.fifo⟩
  | reading =>
      rcases Decidable.em ((s.wait i).linked = true) with hlink | hnot
      · -- it was killed, and is still in the queue
        let t := unlinked s .keyboard i
        have hmem : i ∈ s.queue (s.wait i).waitQueue := (h.placed.link i _).mpr ⟨hlink, rfl⟩
        have hqueue : (s.wait i).waitQueue = .keyboard := by
          have hat := (h.placed.place i _ hmem).symm.trans hpc
          cases hq : (s.wait i).waitQueue with
          | sem k =>
              rw [hq] at hat
              cases hat
          | keyboard => rfl
        rw [hqueue] at hmem
        have hsame : Same s t :=
          ⟨rfl, fun k => sem_of_keyboard s.queue ((s.queue .keyboard).erase i) k⟩
        have hwait : ∀ j, j ≠ i → t.wait j = s.wait j := fun j hne => Function.update_of_ne hne _ _
        have hself : t.wait i = { s.wait i with linked := false } := Function.update_self _ _ _
        have ht : Placed t pc := by
          refine { h.placed with
            link := ?_
            nodup := nodup_erased h.placed.nodup .keyboard
            place := ?_
            asleep := ?_
            granted := ?_ }
          · intro j q
            refine (h.placed.mem_erased hmem j q).trans ?_
            rw [h.placed.link]
            rcases eq_or_ne j i with rfl | hne
            · rw [hself]
              simp
            · rw [hwait j hne]
              simp [hne]
          · intro j q hj
            exact h.placed.place j q ((h.placed.mem_erased hmem j q).mp hj).1
          · intro j k hj
            exact h.placed.asleep j k ((h.placed.mem_erased hmem j (.sem k)).mp hj).1
          · intro j k hdown hj
            have hne : j ≠ i := by
              rintro rfl
              exact hplace k hdown
            rw [hwait j hne]
            apply h.placed.granted j k hdown
            rw [← hsame.queue k]
            exact hj
        have hout : ∀ q, i ∉ t.queue q := fun q hi =>
          ((h.placed.mem_erased hmem i q).mp hi).2 rfl
        refine ⟨.running, t, ?_, ⟨ht.back hrun hout (hnoTimer (by simp [hpc])), ?_⟩, hsame, by simp⟩
        · have hdel : waitCurrentDel .keyboard i s = .ok (.ok (), t) := by
            rw [waitCurrentDel, getState_bind, if_pos hlink]
            exact waitQueueDel_of hlink hqueue
          rw [resume, bind_of_ok hdel]
          rfl
        · exact h.counted.congr hsame rfl rfl rfl rfl
      · have hout : ∀ q, i ∉ s.queue q := fun q hi => hnot (h.placed.linked_of_mem hi).1
        refine ⟨.running, s, ?_, ⟨h.placed.back hrun hout (hnoTimer (by simp [hpc])), h.counted⟩,
          Same.refl s, by simp⟩
        have hdel : waitCurrentDel .keyboard i s = .ok (.ok (), s) := by
          rw [waitCurrentDel, getState_bind, if_neg hnot]
          rfl
        rw [resume, bind_of_ok hdel]
        rfl

omit [DecidableEq κ] in
/-- `do_fork` wakes a process that has not run yet. -/
theorem born_of (h : Sound values s pc) (hplace : pc i = .unborn) :
    wakeupProc i s = .ok (.ok (), woken s i) ∧
      Sound values (woken s i) (Function.update pc i .running) := by
  obtain ⟨hplaced, hcounted⟩ := h
  have hrests := hplaced.rests i
  rw [hplace] at hrests
  have hqueues : ∀ q, i ∉ s.queue q := by
    intro q hi
    have hat := (hplaced.place i q hi).symm.trans hplace
    cases q with
    | sem k => cases hat
    | keyboard => cases hat
  have htimers : ∀ timer ∈ s.timerList, timer.proc ≠ i := by
    rintro timer htimer rfl
    have hsleeping := hplaced.timers timer htimer
    rw [hplace] at hsleeping
    cases hsleeping
  have hpc : ∀ j, j ≠ i → Function.update pc i .running j = pc j :=
    fun j hne => Function.update_of_ne hne _ _
  refine ⟨wakeupProc_of (by simp [hrests.1]), ?_, hcounted.woken i⟩
  rw [woken_eq]
  refine { hplaced with place := ?_, timers := ?_, rests := ?_, asleep := ?_, granted := ?_ }
  · intro j q hj
    have hne : j ≠ i := by
      rintro rfl
      exact hqueues q hj
    rw [hpc j hne]
    exact hplaced.place j q hj
  · intro timer htimer
    rw [hpc timer.proc (htimers timer htimer)]
    exact hplaced.timers timer htimer
  · intro j
    rcases eq_or_ne j i with rfl | hne
    · rw [Function.update_self]
      refine ⟨woken_state_self s j, ?_⟩
      have hnot : s.state j ≠ .runnable := by simp [hrests.1]
      change (woken s j).waitState j = 0
      rw [woken, if_neg hnot]
      exact Function.update_self _ _ _
    · rw [hpc j hne]
      exact rests_congr (hplaced.rests j) (woken_state_of_ne s hne) (woken_waitState_of_ne s hne)
  · intro j k hj
    have hne : j ≠ i := by
      rintro rfl
      exact hqueues _ hj
    exact (woken_state_of_ne s hne).trans (hplaced.asleep j k hj)
  · intro j k hdown hj
    have hne : j ≠ i := by
      rintro rfl
      rw [Function.update_self] at hdown
      cases hdown
    rw [hpc j hne] at hdown
    obtain ⟨hrun, hflags⟩ := hplaced.granted j k hdown hj
    exact ⟨(woken_state_of_ne s hne).trans hrun, hflags⟩

end Calls

section Runs

variable [DecidableEq κ] {sys sys' : System ι κ}

theorem sound_start (h : Sound values sys.shared sys.pc) (hrun : sys.pc i = .running)
    {call : Call ι κ} {r : Except Errno (Pc κ)} {t : Kernel ι κ}
    (hstart : start i call sys.shared = .ok (r, t)) :
    Sound values t (Function.update sys.pc i (after .running r)) := by
  have hstay : Function.update sys.pc i .running = sys.pc := by
    rw [← hrun, Function.update_eq_self]
  cases call with
  | up k =>
      obtain ⟨u, hup, hu, _⟩ := up_of h k
      rw [start, bind_of_ok hup] at hstart
      cases hstart
      show Sound values t (Function.update sys.pc i .running)
      rwa [hstay]
  | down k =>
      obtain ⟨waits, u, hdown, hu, _⟩ := down_of h hrun k
      rw [start, bind_of_ok hdown] at hstart
      cases hstart
      exact hu
  | tryDown k =>
      obtain ⟨b, u, htry, hu, _⟩ := tryDown_of h k
      rw [start, bind_of_ok htry] at hstart
      cases hstart
      show Sound values t (Function.update sys.pc i .running)
      rwa [hstay]
  | sleep time =>
      obtain ⟨place, u, hcall, hu, _⟩ := start_of_apart h hrun (show Apart (.sleep time) from trivial)
      cases hcall.symm.trans hstart
      exact hu
  | read =>
      obtain ⟨place, u, hcall, hu, _⟩ := start_of_apart h hrun (show Apart .read from trivial)
      cases hcall.symm.trans hstart
      exact hu
  | wait =>
      obtain ⟨place, u, hcall, hu, _⟩ := start_of_apart h hrun (show Apart .wait from trivial)
      cases hcall.symm.trans hstart
      exact hu
  | exit parents =>
      obtain ⟨place, u, hcall, hu, _⟩ := start_of_apart h hrun (show Apart (.exit parents) from trivial)
      cases hcall.symm.trans hstart
      exact hu

theorem sound_step (h : Sound values sys.shared sys.pc) (hstep : Step sys sys') :
    Sound values sys'.shared sys'.pc := by
  cases hstep with
  | start hplace _ hstart => exact sound_start h hplace hstart
  | @resume i r t hrun hresume =>
      rcases Classical.em (∃ k, sys.pc i = .down k) with ⟨k, hdown⟩ | hnot
      · obtain ⟨hdowned, _, hsound⟩ := downed_of h hdown hrun
        rw [hdown, resume, bind_of_ok hdowned] at hresume
        cases hresume
        exact hsound
      · push Not at hnot
        obtain ⟨place, u, hcall, hu, _⟩ := resume_of_apart h hrun hnot
        cases hcall.symm.trans hresume
        exact hu
  | born hplace hwake =>
      obtain ⟨hwoken, hsound⟩ := born_of h hplace
      cases hwoken.symm.trans hwake
      exact hsound
  | occur hoccur => exact (occur_of h hoccur).1

omit [DecidableEq ι] [DecidableEq κ] in
theorem sound_starts (hvalues : ∀ k, 0 ≤ values k) (h : Starts values sys) :
    Sound values sys.shared sys.pc := by
  have hnone : ∀ j q, j ∉ sys.shared.queue q := by
    intro j q
    rw [h.queue q]
    exact List.not_mem_nil
  refine ⟨⟨?_, ?_, ?_, ?_, ?_, ?_, ?_, ?_⟩, ⟨?_, ?_, ?_, ?_⟩⟩
  · intro j q
    rw [h.wait j]
    simpa using hnone j q
  · intro q
    rw [h.queue q]
    exact List.nodup_nil
  · exact fun j q hj => absurd hj (hnone j q)
  · rw [h.timerList]
    exact fun timer htimer => absurd htimer List.not_mem_nil
  · rw [h.timerList]
    exact List.nodup_nil
  · intro j
    rcases h.pc j with ⟨hpc, hstate⟩ | ⟨hpc, hstate⟩
    · rw [hpc]
      exact ⟨hstate, h.waitState j⟩
    · rw [hpc]
      exact ⟨hstate, h.waitState j⟩
  · exact fun j k hj => absurd hj (hnone j _)
  · intro j k hdown
    rcases h.pc j with ⟨hpc, _⟩ | ⟨hpc, _⟩
    · cases hpc.symm.trans hdown
    · cases hpc.symm.trans hdown
  · rw [h.value]
    exact hvalues
  · exact fun k _ => h.queue _
  · intro k
    rw [h.taken, h.handed, h.ups, h.value]
    simp
  · intro k
    rw [h.queued, h.handed, h.queue]
    rfl

/-- Two processes, and one semaphore with one unit. -/
def oneUnit : System Bool Unit where
  shared := {
    state := fun _ => .runnable
    waitState := fun _ => 0
    exiting := fun _ => false
    wait := fun _ => ⟨0, .keyboard, false⟩
    queue := fun _ => []
    value := fun _ => 1
    timerList := []
    ups := fun _ => 0
    taken := fun _ => 0
    queued := fun _ => []
    handed := fun _ => [] }
  pc := fun _ => .running

end Runs

end Ucore.Semaphores
