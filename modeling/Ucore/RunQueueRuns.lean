import Mathlib.Logic.Relation
import Ucore.RunQueue

/-! Who is in the run queue, over all runs. -/

namespace Ucore.RunQueueRuns

open Relation
open Ucore.Errors
open Ucore.Panic
open Ucore.KernelRoutine
open Ucore.Processes (WT_INTERRUPTED WT_CHILD)
open Ucore.SkewHeap
open Ucore.WaitQueues (Kernel Queue Timer WT_KSEM WT_KBD)
open Ucore.RunQueue

variable {ι κ α : Type}

section Queue

variable [DecidableEq ι]

/-- The queue is a heap of these processes. -/
structure Holds (s : Sched ι κ) (nodes : Finset ι) : Prop where
  rooted : Rooted s.entry s.rq.pool nodes
  procNum : s.rq.procNum = nodes.card

/-- The queue holds the runnable processes but `idleproc`, and but those that are `out`. -/
def Queued (s : Sched ι κ) (out : ι → Prop) : Prop :=
  ∃ nodes, Holds s nodes ∧
    ∀ p, p ∈ nodes ↔ s.waits.state p = .runnable ∧ p ≠ s.idleproc ∧ ¬out p

/-- What holds while interrupts are enabled. -/
def InOrder (s : Sched ι κ) : Prop :=
  Queued s fun p => p = s.current

/-- Only the queue was changed. -/
structure Still (s s' : Sched ι κ) : Prop where
  waits : s'.waits = s.waits
  current : s'.current = s.current
  idleproc : s'.idleproc = s.idleproc

variable {s s' s'' : Sched ι κ} {nodes : Finset ι} {p q : ι} {out out' : ι → Prop}

theorem Holds.congr (h : Holds s nodes) (hentry : s'.entry = s.entry) (hrq : s'.rq = s.rq) :
    Holds s' nodes := by
  refine ⟨?_, ?_⟩
  · rw [hentry, hrq]
    exact h.rooted
  · rw [hrq]
    exact h.procNum

/-- Nobody that counts became runnable, or stopped being it. -/
theorem Queued.congr (h : Queued s out) (hentry : s'.entry = s.entry) (hrq : s'.rq = s.rq)
    (hmem : ∀ p, (s'.waits.state p = .runnable ∧ p ≠ s'.idleproc ∧ ¬out' p) ↔
      s.waits.state p = .runnable ∧ p ≠ s.idleproc ∧ ¬out p) : Queued s' out' := by
  obtain ⟨nodes, hholds, hnodes⟩ := h
  refine ⟨nodes, hholds.congr hentry hrq, fun p => ?_⟩
  rw [hnodes p, hmem p]

theorem InOrder.congr (h : InOrder s) (hentry : s'.entry = s.entry) (hrq : s'.rq = s.rq)
    (hidle : s'.idleproc = s.idleproc) (hcurrent : s'.current = s.current)
    (hstate : ∀ p, p ≠ s.current → s'.waits.state p = s.waits.state p) : InOrder s' := by
  refine Queued.congr h hentry hrq fun p => ?_
  rw [hidle, hcurrent]
  rcases eq_or_ne p s.current with rfl | hne
  · simp
  · rw [hstate p hne]

theorem strideEnqueue_of (h : Holds s nodes) (hp : p ∉ nodes) :
    ∃ s', strideEnqueue p s = .ok (.ok (), s') ∧ Holds s' (insert p nodes) ∧ Still s s' := by
  obtain ⟨root, e, hrun, hrooted⟩ :=
    skewHeapInsert_of (procStrideCompF s.stride) h.rooted hp (Nat.lt_succ_self _)
  rw [← h.procNum] at hrun
  have hinsert : onEntries (skewHeapInsert (procStrideCompF s.stride) (s.rq.procNum + 2)
      s.rq.pool p) s = .ok (.ok root, { s with entry := e }) := onPart_of hrun
  have hcard : s.rq.procNum + 1 = (insert p nodes).card := by
    rw [Finset.card_insert_of_notMem hp, h.procNum]
  rw [strideEnqueue, getState_bind, bind_of_ok hinsert]
  split
  · exact ⟨_, rfl, ⟨hrooted, hcard⟩, ⟨rfl, rfl, rfl⟩⟩
  · exact ⟨_, rfl, ⟨hrooted, hcard⟩, ⟨rfl, rfl, rfl⟩⟩

theorem strideDequeue_of (h : Holds s nodes) (hp : s.rq.pool = some p) :
    ∃ s', strideDequeue p s = .ok (.ok (), s') ∧ Holds s' (nodes.erase p) ∧ Still s s' := by
  have hrooted := h.rooted
  rw [hp] at hrooted
  obtain ⟨root, e, hrun, hrooted'⟩ :=
    skewHeapRemove_of (procStrideCompF s.stride) hrooted (Nat.lt_succ_self _)
  rw [← h.procNum, ← hp] at hrun
  have hremove : onEntries (skewHeapRemove (procStrideCompF s.stride) (s.rq.procNum + 1)
      s.rq.pool p) s = .ok (.ok root, { s with entry := e }) := onPart_of hrun
  have hcard : s.rq.procNum - 1 = (nodes.erase p).card := by
    rw [Finset.card_erase_of_mem hrooted.heap.root_mem, h.procNum]
  rw [strideDequeue, getState_bind, bind_of_ok hremove]
  exact ⟨_, rfl, ⟨hrooted', hcard⟩, ⟨rfl, rfl, rfl⟩⟩

/-- A runnable process that is out of the queue is put into it. -/
theorem schedClassEnqueue_of (h : Queued s out') (hp : s.waits.state p = .runnable)
    (hout : ∀ q, out' q ↔ q = p ∨ out q) (hnot : ¬out p) :
    ∃ s', schedClassEnqueue p s = .ok (.ok (), s') ∧ Queued s' out ∧ Still s s' := by
  rw [schedClassEnqueue, getState_bind]
  rcases eq_or_ne p s.idleproc with hidle | hidle
  · rw [if_neg (not_not.mpr hidle)]
    refine ⟨s, rfl, Queued.congr h rfl rfl fun q => ?_, ⟨rfl, rfl, rfl⟩⟩
    rw [hout q, hidle]
    tauto
  · rw [if_pos hidle]
    obtain ⟨nodes, hholds, hmem⟩ := h
    have hin : p ∉ nodes := fun hin => ((hmem p).mp hin).2.2 ((hout p).mpr (Or.inl rfl))
    obtain ⟨s', hrun, hholds', hstill⟩ := strideEnqueue_of hholds hin
    refine ⟨s', hrun, ⟨_, hholds', fun q => ?_⟩, hstill⟩
    rw [hstill.waits, hstill.idleproc, Finset.mem_insert, hmem q, hout q]
    rcases eq_or_ne q p with rfl | hother
    · simp [hp, hidle, hnot]
    · simp [hother]

end Queue

section Scheduling

variable [DecidableEq ι] {s s' : Sched ι κ} {nodes : Finset ι} {p q : ι}

theorem wakeupProc_of (h : InOrder s) (hp : s.waits.state p ≠ .zombie) :
    ∃ s', wakeupProc p s = .ok (.ok (), s') ∧ InOrder s' := by
  rw [wakeupProc, getState_bind, ensure_bind_of hp]
  split
  · next hasleep =>
      let s₁ : Sched ι κ := { s with waits := { s.waits with
        state := Function.update s.waits.state p .runnable
        waitState := Function.update s.waits.waitState p 0 } }
      have hstate : ∀ q, q ≠ p → s₁.waits.state q = s.waits.state q :=
        fun q hq => Function.update_of_ne hq _ _
      have hself : s₁.waits.state p = .runnable := Function.update_self _ _ _
      change ∃ s', (if p ≠ s.current then schedClassEnqueue p else pure ()) s₁ = _ ∧ _
      rcases eq_or_ne p s.current with rfl | hne
      · rw [if_neg (by simp)]
        exact ⟨s₁, rfl, h.congr rfl rfl rfl rfl hstate⟩
      · rw [if_pos hne]
        have hqueued : Queued s₁ fun q => q = p ∨ q = s₁.current := by
          refine Queued.congr h rfl rfl fun q => ?_
          rcases eq_or_ne q p with rfl | hother
          · simp [hasleep]
          · rw [hstate q hother]
            simp only [hother, false_or]
            rfl
        obtain ⟨s', hrun, hqueued', hstill⟩ :=
          schedClassEnqueue_of hqueued hself (fun q => Iff.rfl) hne
        refine ⟨s', hrun, ?_⟩
        rw [InOrder, hstill.current]
        exact hqueued'
  · exact ⟨s, rfl, h⟩

/-- The current process is in the queue now, if it is runnable. -/
theorem enqueueCurrent_of (h : InOrder s) :
    ∃ s', enqueueCurrent s = .ok (.ok (), s') ∧ Queued s' (fun _ => False) ∧ Still s s' := by
  rw [enqueueCurrent, getState_bind]
  split
  · next hrunnable =>
      exact schedClassEnqueue_of h hrunnable (fun q => by simp) id
  · next hnot =>
      refine ⟨s, rfl, Queued.congr h rfl rfl fun q => ?_, ⟨rfl, rfl, rfl⟩⟩
      rcases eq_or_ne q s.current with rfl | hne
      · simp [hnot]
      · simp [hne]

/-- The next process is out of the queue now. -/
theorem dequeueNext_of (h : Queued s fun _ => False) :
    ∃ picked s₁ s', stridePickNext s = .ok (.ok picked, s₁) ∧
      dequeueNext picked s₁ = .ok (.ok (), s') ∧
      Queued s' (fun q => q = picked.getD s.idleproc) ∧ Still s s' := by
  obtain ⟨nodes, hholds, hmem⟩ := h
  rw [stridePickNext, getState_bind]
  cases hpool : s.rq.pool with
  | none =>
      refine ⟨none, s, s, rfl, rfl, ⟨nodes, hholds, fun q => ?_⟩, ⟨rfl, rfl, rfl⟩⟩
      rw [hmem q]
      show _ ∧ q ≠ s.idleproc ∧ ¬False ↔ _ ∧ q ≠ s.idleproc ∧ ¬q = s.idleproc
      tauto
  | some p =>
      let s₁ : Sched ι κ := { s with
        stride := Function.update s.stride p (s.stride p +
          if s.priority p = 0 then BIG_STRIDE else BIG_STRIDE / s.priority p) }
      have hholds₁ : Holds s₁ nodes := hholds.congr rfl rfl
      obtain ⟨s', hrun, hholds', hstill⟩ := strideDequeue_of hholds₁ hpool
      refine ⟨some p, s₁, s', rfl, hrun, ⟨_, hholds', fun q => ?_⟩,
        ⟨hstill.waits, hstill.current, hstill.idleproc⟩⟩
      rw [hstill.waits, hstill.idleproc, Finset.mem_erase, hmem q]
      show q ≠ p ∧ _ ∧ _ ∧ ¬False ↔ _ ∧ _ ∧ ¬q = p
      tauto

theorem schedule_of (h : InOrder s) : ∃ s', schedule s = .ok (.ok (), s') ∧ InOrder s' := by
  let s₀ : Sched ι κ := { s with needResched := Function.update s.needResched s.current false }
  have h₀ : InOrder s₀ := h.congr rfl rfl rfl rfl fun _ _ => rfl
  obtain ⟨s₁, henqueue, hqueued₁, hstill₁⟩ := enqueueCurrent_of h₀
  obtain ⟨picked, s₂, s₃, hpick, hdequeue, hqueued₃, hstill₃⟩ := dequeueNext_of hqueued₁
  have hidle : s₁.idleproc = s.idleproc := hstill₁.idleproc
  have hcurrent : s₃.current = s.current := hstill₃.current.trans hstill₁.current
  rw [hidle] at hqueued₃
  rw [schedule, getState_bind, modifyState_bind, bind_of_ok henqueue, bind_of_ok hpick,
    bind_of_ok hdequeue, modifyState_bind]
  split
  · refine ⟨_, rfl, ?_⟩
    exact Queued.congr hqueued₃ rfl rfl fun q => Iff.rfl
  · next hsame =>
      refine ⟨_, rfl, Queued.congr hqueued₃ rfl rfl fun q => ?_⟩
      show _ ∧ _ ∧ ¬q = s₃.current ↔ _
      rw [hcurrent, not_not.mp hsame]

end Scheduling

section Waits

variable {c : ι}

/-- The routine changes the state of this process only. -/
def Local (c : ι) (x : Routine (Kernel ι κ) α) : Prop :=
  ∀ f : ι → Processes.ProcState,
    Preserves (fun w : Kernel ι κ => ∀ p, p ≠ c → w.state p = f p) x

theorem local_modifyState {g : Kernel ι κ → Kernel ι κ}
    (hg : ∀ w, ∀ p, p ≠ c → (g w).state p = w.state p) : Local c (modifyState g) := by
  intro f
  refine Preserves.modifyState fun w hw p hp => ?_
  rw [hg w p hp, hw p hp]

theorem Local.bind {β : Type} {x : Routine (Kernel ι κ) α} {g : α → Routine (Kernel ι κ) β}
    (hx : Local c x) (hg : ∀ a, Local c (g a)) : Local c (x >>= g) :=
  fun f => (hx f).bind fun a => hg a f

theorem local_pure (a : α) : Local c (pure a : Routine (Kernel ι κ) α) :=
  fun _ => Preserves.pure a

theorem local_getState {g : Kernel ι κ → Routine (Kernel ι κ) α} (hg : ∀ w, Local c (g w)) :
    Local c (getState >>= g) :=
  fun f => Preserves.getState fun w => hg w f

theorem local_ensure {p : Prop} [Decidable p] :
    Local c (ensure p : Routine (Kernel ι κ) Unit) :=
  fun _ => Preserves.ensure

variable [DecidableEq ι]

theorem local_setState (v : Processes.ProcState) :
    Local c (WaitQueues.setState c v : Routine (Kernel ι κ) Unit) := by
  apply local_modifyState
  intro w p hp
  exact Function.update_of_ne hp _ _

theorem local_setWaitState (p : ι) (v : Nat) :
    Local c (WaitQueues.setWaitState p v : Routine (Kernel ι κ) Unit) := by
  apply local_modifyState
  intro w q _
  rfl

theorem local_doSleep (time : Nat) :
    Local c (WaitQueues.doSleep c time : Routine (Kernel ι κ) (WaitQueues.Pc κ)) := by
  rw [WaitQueues.doSleep]
  split
  · exact local_pure _
  · refine (local_setState _).bind fun _ => (local_setWaitState c _).bind fun _ => ?_
    refine Local.bind (local_ensure.bind fun _ => ?_) fun _ => local_pure _
    apply local_modifyState
    intro w p _
    rfl

theorem local_delTimer (p : ι) :
    Local c (WaitQueues.delTimer p : Routine (Kernel ι κ) Unit) := by
  apply local_modifyState
  intro w q _
  rfl

end Waits

section Queues

variable [DecidableEq κ] {queue : Queue κ} {sem : κ} {c : ι}

theorem local_take : Local c (WaitQueues.take sem : Routine (Kernel ι κ) Unit) := by
  apply local_modifyState
  intro w p _
  rfl

theorem local_tryDown : Local c (WaitQueues.tryDown sem : Routine (Kernel ι κ) Bool) := by
  refine local_getState fun w => ?_
  split
  · exact local_take.bind fun _ => local_pure true
  · exact local_pure false

variable [DecidableEq ι]

theorem local_waitQueueDel (p : ι) : Local c (WaitQueues.waitQueueDel queue p) := by
  refine local_getState fun w => local_ensure.bind fun _ => ?_
  apply local_modifyState
  intro w q _
  rfl

theorem local_waitCurrentSet (v : Nat) : Local c (WaitQueues.waitCurrentSet queue c v) := by
  refine Local.bind ?_ fun _ => (local_setState _).bind fun _ =>
    (local_setWaitState c v).bind fun _ => local_getState fun _ => local_ensure.bind fun _ => ?_
  · apply local_modifyState
    intro w p _
    rfl
  · apply local_modifyState
    intro w p _
    rfl

theorem local_waitCurrentDel (p : ι) : Local c (WaitQueues.waitCurrentDel queue p) := by
  refine local_getState fun w => ?_
  split
  · exact local_waitQueueDel p
  · exact local_pure ()

theorem local_down : Local c (WaitQueues.down c sem) := by
  refine local_getState fun w => ?_
  split
  · exact local_take.bind fun _ => local_pure false
  · refine (local_waitCurrentSet WT_KSEM).bind fun _ => Local.bind ?_ fun _ => local_pure true
    apply local_modifyState
    intro w p _
    rfl

theorem local_resume (pc : WaitQueues.Pc κ) : Local c (WaitQueues.resume c pc) := by
  cases pc with
  | down sem =>
      refine Local.bind ?_ fun _ => local_pure _
      exact (local_waitCurrentDel c).bind fun _ => local_getState fun _ => local_ensure
  | sleeping => exact (local_delTimer c).bind fun _ => local_pure _
  | reading => exact (local_waitCurrentDel c).bind fun _ => local_pure _
  | waiting | running | exited | unborn => exact local_pure _

end Queues

section Keeping

variable [DecidableEq ι] {s : Sched ι κ}

/-- What changes the state of the current process only leaves the queue in order. -/
theorem preserves_onWaits {x : Routine (Kernel ι κ) α} (hx : ∀ c, Local c x) :
    Preserves InOrder (onWaits x) := by
  intro s r s' h hrun
  obtain ⟨w, hw, rfl⟩ := onPart_eq_ok hrun
  exact h.congr rfl rfl rfl rfl (hx s.current s.waits.state s.waits r w (fun _ _ => rfl) hw)

/-- The same at the beginning of a call, which knows who is current. -/
theorem inOrder_onWaits {β : Type} {x : Routine (Kernel ι κ) α} {f : α → Routine (Sched ι κ) β}
    (h : InOrder s) (hx : Local s.current x) (hf : ∀ a, Preserves InOrder (f a))
    {r : Except Errno β} {s' : Sched ι κ} (hrun : (onWaits x >>= f) s = .ok (r, s')) :
    InOrder s' := by
  have hkept : ∀ {r : Except Errno α} {t}, onWaits x s = .ok (r, t) → InOrder t := by
    intro r t ht
    obtain ⟨w, hw, rfl⟩ := onPart_eq_ok ht
    exact h.congr rfl rfl rfl rfl (hx s.waits.state s.waits r w (fun _ _ => rfl) hw)
  rcases bind_eq_ok_iff.mp hrun with ⟨a, t, ht, hrest⟩ | ⟨e, ht, _⟩
  · exact hf a t r s' (hkept ht) hrest
  · exact hkept ht

theorem preserves_wakeupProc (p : ι) : Preserves InOrder (wakeupProc p : Routine (Sched ι κ) Unit) := by
  intro s r s' h hrun
  rcases Decidable.em (s.waits.state p ≠ .zombie) with hp | hzombie
  · obtain ⟨t, ht, hinOrder⟩ := wakeupProc_of h hp
    cases ht.symm.trans hrun
    exact hinOrder
  · rw [wakeupProc, getState_bind, ensure_bind_of_not hzombie] at hrun
    cases hrun

theorem preserves_schedule : Preserves InOrder (schedule : Routine (Sched ι κ) Unit) := by
  intro s r s' h hrun
  obtain ⟨t, ht, hinOrder⟩ := schedule_of h
  cases ht.symm.trans hrun
  exact hinOrder

theorem preserves_modifyState {g : Sched ι κ → Sched ι κ}
    (hg : ∀ s, (g s).waits = s.waits ∧ (g s).entry = s.entry ∧ (g s).rq = s.rq ∧
      (g s).idleproc = s.idleproc ∧ (g s).current = s.current) :
    Preserves InOrder (modifyState g) := by
  refine Preserves.modifyState fun s h => ?_
  obtain ⟨hwaits, hentry, hrq, hidle, hcurrent⟩ := hg s
  exact h.congr hentry hrq hidle hcurrent fun p _ => by rw [hwaits]

theorem preserves_schedClassProcTick (p : ι) :
    Preserves InOrder (schedClassProcTick p : Routine (Sched ι κ) Unit) := by
  refine Preserves.getState fun s => ?_
  split
  · refine Preserves.bind (preserves_modifyState fun s => ⟨rfl, rfl, rfl, rfl, rfl⟩) fun _ => ?_
    exact preserves_modifyState fun s => ⟨rfl, rfl, rfl, rfl, rfl⟩
  · exact preserves_modifyState fun s => ⟨rfl, rfl, rfl, rfl, rfl⟩

theorem preserves_expire (timers : List (Timer ι)) :
    Preserves InOrder (expire timers : Routine (Sched ι κ) Unit) := by
  induction timers with
  | nil => exact Preserves.pure ()
  | cons timer rest ih =>
      rw [expire]
      split
      · refine Preserves.getState fun s => Preserves.ensure_bind ?_
        refine (preserves_wakeupProc timer.proc).bind fun _ => Preserves.bind ?_ fun _ => ih
        exact preserves_onWaits fun c => local_delTimer timer.proc
      · exact Preserves.pure ()

theorem preserves_runTimers : Preserves InOrder (runTimers : Routine (Sched ι κ) Unit) := by
  refine Preserves.getState fun s => ?_
  split
  · exact Preserves.pure ()
  · refine Preserves.ensure_bind (Preserves.bind ?_ fun _ => preserves_expire _)
    refine preserves_onWaits fun c => local_modifyState ?_
    intro w p _
    rfl

theorem preserves_runTimerList :
    Preserves InOrder (runTimerList : Routine (Sched ι κ) Unit) :=
  preserves_runTimers.bind fun _ =>
    Preserves.getState fun s => preserves_schedClassProcTick s.current

theorem preserves_wakeParents (parents : List ι) :
    Preserves InOrder (wakeParents parents : Routine (Sched ι κ) Unit) := by
  induction parents with
  | nil => exact Preserves.pure ()
  | cons p rest ih =>
      refine Preserves.getState fun s => ?_
      split
      · exact (preserves_wakeupProc p).bind fun _ => ih
      · exact ih

variable [DecidableEq κ]

theorem preserves_wakeupWait (queue : Queue κ) (p : ι) (flags : Nat) (del : Bool) :
    Preserves InOrder (wakeupWait queue p flags del) := by
  have hrest : Preserves InOrder (onWaits (modifyState fun w : Kernel ι κ => { w with
      wait := Function.update w.wait p { w.wait p with wakeupFlags := flags } }) >>=
        fun _ => wakeupProc p) := by
    refine Preserves.bind (preserves_onWaits fun c => local_modifyState ?_) fun _ =>
      preserves_wakeupProc p
    intro w q _
    rfl
  rw [wakeupWait]
  split
  · exact (preserves_onWaits fun c => local_waitQueueDel p).bind fun _ => hrest
  · exact hrest

theorem preserves_wakeupAll (queue : Queue κ) (flags : Nat) (waits : List ι) :
    Preserves InOrder (wakeupAll queue flags waits) := by
  induction waits with
  | nil => exact Preserves.pure ()
  | cons p rest ih => exact (preserves_wakeupWait queue p flags true).bind fun _ => ih

theorem preserves_up (sem : κ) : Preserves InOrder (up sem : Routine (Sched ι κ) Unit) := by
  refine Preserves.bind (preserves_onWaits fun c => local_modifyState ?_) fun _ =>
    Preserves.getState fun s => ?_
  · intro w p _
    rfl
  · split
    · refine preserves_onWaits fun c => local_modifyState ?_
      intro w p _
      rfl
    · refine Preserves.ensure_bind (Preserves.bind ?_ fun _ => preserves_wakeupWait _ _ _ _)
      refine preserves_onWaits fun c => local_modifyState ?_
      intro w p _
      rfl

theorem preserves_interruptHandler (interrupt : Interrupt) :
    Preserves InOrder (interruptHandler interrupt : Routine (Sched ι κ) Unit) := by
  cases interrupt with
  | timer => exact preserves_runTimerList
  | key => exact Preserves.getState fun s => preserves_wakeupAll _ _ _

/-- Every call leaves the queue in order where it is cut. -/
theorem preserves_start (call : Call ι κ) : Preserves InOrder (start call) := by
  cases call with
  | up sem => exact (preserves_up sem).bind fun _ => Preserves.pure _
  | down sem =>
      refine Preserves.getState_apply fun s h r s' hrun => ?_
      exact inOrder_onWaits h local_down (fun _ => Preserves.pure _) hrun
  | tryDown sem =>
      exact (preserves_onWaits fun c => local_tryDown).bind fun _ => Preserves.pure _
  | sleep time =>
      refine Preserves.getState_apply fun s h r s' hrun => ?_
      exact inOrder_onWaits h (local_doSleep time) (fun _ => Preserves.pure _) hrun
  | read =>
      refine Preserves.getState_apply fun s h r s' hrun => ?_
      exact inOrder_onWaits h (local_waitCurrentSet WT_KBD) (fun _ => Preserves.pure _) hrun
  | wait =>
      refine Preserves.getState_apply fun s h r s' hrun => ?_
      exact inOrder_onWaits h (local_setState _) (fun _ => Preserves.pure _) hrun
  | exit parents =>
      refine Preserves.getState_apply fun s h r s' hrun => ?_
      rcases bind_eq_ok_iff.mp hrun with ⟨u, t, hensure, hrest⟩ | ⟨e, hensure, _⟩
      · cases ensure_same hensure
        exact inOrder_onWaits h (local_setState _) (fun _ => Preserves.pure _) hrest
      · cases ensure_same hensure
        exact h
  | kill p =>
      refine Preserves.getState fun s => Preserves.ite (Preserves.fail _) ?_
      refine Preserves.bind (preserves_onWaits fun c => local_modifyState ?_) fun _ =>
        Preserves.ite (Preserves.pure _) (Preserves.pure _)
      intro w q _
      rfl
  | yield =>
      refine Preserves.bind ?_ fun _ => Preserves.pure _
      exact preserves_modifyState fun s => ⟨rfl, rfl, rfl, rfl, rfl⟩
  | resched => exact Preserves.pure _

theorem preserves_goOn (pc : Pc ι κ) : Preserves InOrder (goOn pc) := by
  cases pc with
  | leaving at' => exact preserves_schedule.bind fun _ => Preserves.pure _
  | away at' =>
      refine Preserves.getState_apply fun s h r s' hrun => ?_
      exact inOrder_onWaits h (local_resume at') (fun _ => Preserves.pure _) hrun
  | storing =>
      refine Preserves.getState fun s => Preserves.bind ?_ fun _ => Preserves.pure _
      exact preserves_onWaits fun c => local_setWaitState s.current WT_CHILD
  | exiting parents => exact (preserves_wakeParents parents).bind fun _ => Preserves.pure _
  | killing p => exact (preserves_wakeupProc p).bind fun _ => Preserves.pure _
  | running | unborn | embryo | freed => exact Preserves.pure _

end Keeping

section Runs

variable [DecidableEq ι] {s s' : System ι κ}

theorem inOrder_starts (h : Starts s) : InOrder s.shared := by
  refine ⟨∅, ⟨⟨?_, ?_⟩, ?_⟩, fun p => ?_⟩
  · rw [h.pool]
    exact .empty
  · rw [h.pool]
    exact nofun
  · rw [h.procNum, Finset.card_empty]
  · rw [h.current]
    rcases eq_or_ne p s.shared.idleproc with rfl | hne
    · simp
    · simp [(h.unborn p hne).2]

/-- The nodes are the runnable processes, each one once, and they are counted. -/
structure RunQueueOk (s : Sched ι κ) : Prop where
  node : ∀ p, (∃ path, walk s.entry path s.rq.pool = some p) ↔
    s.waits.state p = .runnable ∧ p ≠ s.current ∧ p ≠ s.idleproc
  once : ∀ p path path', walk s.entry path s.rq.pool = some p →
    walk s.entry path' s.rq.pool = some p → path' = path
  procNum : ∃ nodes : Finset ι, s.rq.procNum = nodes.card ∧
    ∀ p, p ∈ nodes ↔ ∃ path, walk s.entry path s.rq.pool = some p

theorem runQueueOk_of_inOrder {s : Sched ι κ} (h : InOrder s) : RunQueueOk s := by
  obtain ⟨nodes, hholds, hmem⟩ := h
  have hheap := hholds.rooted.heap
  refine ⟨fun p => ?_, fun p path path' => hheap.path_unique, nodes, hholds.procNum, fun p =>
    hheap.mem_iff⟩
  rw [← hheap.mem_iff, hmem p]
  exact and_congr_right fun _ => And.comm

variable [DecidableEq κ]

theorem inOrder_step (h : InOrder s.shared) (hstep : Step s s') : InOrder s'.shared := by
  cases hstep with
  | start _ hrun => exact preserves_start _ _ _ _ h hrun
  | goOn hrun => exact preserves_goOn _ _ _ _ h hrun
  | born _ _ hrun => exact preserves_wakeupProc _ _ _ _ h hrun
  | interrupt hrun => exact preserves_interruptHandler _ _ _ _ h hrun
  | alloc | abandon | reap => exact h

/-- In every state of every run the queue holds the processes that it should. -/
theorem runQueueOk_of_reaches (hstarts : Starts s) (hrun : ReflTransGen Step s s') :
    RunQueueOk s'.shared := by
  have hinOrder : InOrder s'.shared := by
    induction hrun with
    | refl => exact inOrder_starts hstarts
    | tail _ hlast ih => exact inOrder_step ih hlast
  exact runQueueOk_of_inOrder hinOrder

/-- `idleproc` is process 0, and there is one semaphore. -/
def idleOnly : System Nat Unit where
  shared := {
    waits := {
      state := fun p => if p = 0 then .runnable else .uninit
      waitState := fun _ => 0
      exiting := fun _ => false
      wait := fun _ => ⟨0, .keyboard, false⟩
      queue := fun _ => []
      value := fun _ => 0
      timerList := []
      ups := fun _ => 0
      taken := fun _ => 0
      queued := fun _ => []
      handed := fun _ => [] }
    current := 0
    idleproc := 0
    rq := { pool := none, procNum := 0, maxTimeSlice := 5 }
    entry := fun _ => ⟨none, none, none⟩
    stride := fun _ => 0
    priority := fun _ => 0
    timeSlice := fun _ => 0
    needResched := fun _ => false
    runs := fun _ => 0 }
  pc := fun p => if p = 0 then .running else .unborn

/-- Two processes are set up, and the one that is picked is about to wait for the semaphore. -/
theorem runQueueOk_of_reaches_waiting : ∃ s, ReflTransGen Step idleOnly s ∧
    s.shared.current = 2 ∧ s.shared.rq.pool = some 1 ∧ RunQueueOk s.shared := by
  have hrun : ReflTransGen Step idleOnly _ :=
    .single (@Step.alloc Nat Unit _ _ idleOnly 1 rfl rfl)
  replace hrun := hrun.tail (@Step.born Nat Unit _ _ _ 1 _ _ rfl rfl rfl)
  replace hrun := hrun.tail (@Step.alloc Nat Unit _ _ _ 2 rfl rfl)
  replace hrun := hrun.tail (@Step.born Nat Unit _ _ _ 2 _ _ rfl rfl rfl)
  replace hrun := hrun.tail (@Step.start Nat Unit _ _ _ .resched _ _ rfl rfl)
  replace hrun := hrun.tail (@Step.goOn Nat Unit _ _ _ _ _ rfl)
  replace hrun := hrun.tail (@Step.start Nat Unit _ _ _ (.down ()) _ _ rfl rfl)
  refine ⟨_, hrun, rfl, rfl, ?_⟩
  have hstarts : Starts idleOnly := by
    refine ⟨rfl, ⟨rfl, rfl⟩, fun p hp => ⟨?_, ?_⟩, rfl, rfl⟩
    · exact if_neg hp
    · exact if_neg hp
  exact runQueueOk_of_reaches hstarts hrun

end Runs

end Ucore.RunQueueRuns
