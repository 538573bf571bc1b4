import Ucore.StrideQueue

/-!
The order of the run queue while processes are created, sleep, wake, exit and change their
priority.
-/

namespace Ucore.StrideOrder

open Relation
open Ucore.Errors
open Ucore.Panic
open Ucore.KernelRoutine
open Ucore.SkewHeap
open Ucore.RunQueue
open Ucore.RunQueueRuns (Holds Still)
open Ucore.StrideQueue

variable {ι κ : Type} [DecidableEq ι]

section Operations

/-- `lab6_set_priority` -/
def lab6SetPriority (priority : BitVec 32) : Routine (Sched ι κ) Unit :=
  modifyState fun s => { s with
    priority := Function.update s.priority s.current (if priority = 0 then 1 else priority) }

/-- `alloc_proc`, as far as the scheduler is concerned. -/
def allocProc (proc : ι) : Routine (Sched ι κ) Unit :=
  modifyState fun s => { s with
    waits := { s.waits with
      state := Function.update s.waits.state proc .uninit
      waitState := Function.update s.waits.waitState proc 0 }
    entry := Function.update s.entry proc ⟨none, none, none⟩
    stride := Function.update s.stride proc 0
    priority := Function.update s.priority proc 0
    timeSlice := Function.update s.timeSlice proc 0
    needResched := Function.update s.needResched proc false
    runs := Function.update s.runs proc 0 }

/-- `schedule` up to where it picks the next process. -/
def putBack : Routine (Sched ι κ) Unit := do
  modifyState fun s => { s with needResched := Function.update s.needResched s.current false }
  enqueueCurrent

/-- `schedule` from there on. It returns what was picked. -/
def chooseNext : Routine (Sched ι κ) (Option ι) := do
  let s ← getState
  let picked ← stridePickNext
  dequeueNext picked
  let next := picked.getD s.idleproc
  modifyState fun s => { s with runs := Function.update s.runs next (s.runs next + 1) }
  if next ≠ s.current then
    procRun next
    return picked
  else
    return picked

end Operations

/-- The scheduler, the sum of the passes of each process since its creation, and whether
`schedule` is about to pick a process. -/
structure Tracked (ι κ : Type) where
  sched : Sched ι κ
  sum : ι → Nat
  choosing : Bool

inductive Event (ι : Type) where
  | create (p : ι)
  | wakeup (p : ι)
  | other
  | setPriority (priority : BitVec 32)
  | putBack
  | choose

/-- A process is created in a structure that is not in use; a process is woken; the current
process goes to sleep, exits or does anything else to the state of itself; or it changes its
priority, or calls `schedule`. -/
inductive Step : Tracked ι κ → Event ι → Tracked ι κ → Prop
  | create {s : Tracked ι κ} {p : ι} {r : Except Errno Unit} {t : Sched ι κ} :
      s.choosing = false → s.sched.waits.state p ≠ .runnable → p ≠ s.sched.current →
      allocProc p s.sched = .ok (r, t) →
        Step s (.create p) { s with sched := t, sum := Function.update s.sum p 0 }
  | wakeup {s : Tracked ι κ} {p : ι} {r : Except Errno Unit} {t : Sched ι κ} :
      s.choosing = false → wakeupProc p s.sched = .ok (r, t) →
        Step s (.wakeup p) { s with sched := t }
  | other {s : Tracked ι κ} {waits : WaitQueues.Kernel ι κ} :
      s.choosing = false →
      (∀ p, p ≠ s.sched.current → waits.state p = s.sched.waits.state p) →
        Step s .other { s with sched := { s.sched with waits := waits } }
  | setPriority {s : Tracked ι κ} {v : BitVec 32} {r : Except Errno Unit} {t : Sched ι κ} :
      s.choosing = false → lab6SetPriority v s.sched = .ok (r, t) →
        Step s (.setPriority v) { s with sched := t }
  | putBack {s : Tracked ι κ} {r : Except Errno Unit} {t : Sched ι κ} :
      s.choosing = false → putBack s.sched = .ok (r, t) →
        Step s .putBack { s with sched := t, choosing := true }
  | choose {s : Tracked ι κ} {next : Option ι} {t : Sched ι κ} :
      s.choosing = true → chooseNext s.sched = .ok (.ok next, t) →
        Step s .choose
          { sched := t, sum := next.elim s.sum (picked s.sched s.sum), choosing := false }

/-- `idleproc` runs, and the queue is empty. -/
structure Starts (s : Tracked ι κ) : Prop where
  choosing : s.choosing = false
  current : s.sched.current = s.sched.idleproc
  pool : s.sched.rq.pool = none
  procNum : s.sched.rq.procNum = 0
  states : ∀ p, p ≠ s.sched.idleproc → s.sched.waits.state p ≠ .runnable
  stride : ∀ p, s.sched.stride p = 0
  sum : ∀ p, s.sum p = 0

omit [DecidableEq ι] in
def Enqueued (s : Sched ι κ) (p : ι) : Prop :=
  ∃ path, walk s.entry path s.rq.pool = some p

/-- The sum of the process is close to those of the processes in the queue. -/
def Close (s : Tracked ι κ) (p : ι) : Prop :=
  ∀ q, Enqueued s.sched q → s.sum p ≤ s.sum q + bigStride ∧ s.sum q ≤ s.sum p + bigStride

/-- A process that is put into the queue is close to those in the queue. -/
def Meets (s : Tracked ι κ) : Event ι → Prop
  | .wakeup p =>
      s.sched.waits.state p ≠ .runnable → p ≠ s.sched.current → p ≠ s.sched.idleproc → Close s p
  | .putBack =>
      s.sched.waits.state s.sched.current = .runnable → s.sched.current ≠ s.sched.idleproc →
        Close s s.sched.current
  | _ => True

/-- The comparison agrees with the sums, and the next process has the least one. -/
structure StrideOk (s : Tracked ι κ) : Prop where
  stride : ∀ p, s.sched.stride p = BitVec.ofNat 32 (s.sum p)
  agrees : ∀ p q, Enqueued s.sched p → Enqueued s.sched q →
    procStrideCompF s.sched.stride p q = ((s.sum p : Int) - s.sum q).sign
  minimal : ∀ p t, stridePickNext s.sched = .ok (.ok (some p), t) →
    Enqueued s.sched p ∧ ∀ q, Enqueued s.sched q → s.sum p ≤ s.sum q

section Pieces

variable {s s' : Sched ι κ} {p : ι}

/-- `enqueueCurrent` leaves the current process and `idleproc` alone. -/
theorem enqueueCurrent_keeps {r : Except Errno Unit} (hrun : enqueueCurrent s = .ok (r, s')) :
    s'.current = s.current ∧ s'.idleproc = s.idleproc := by
  have hkeeps : ∀ c d, Preserves (fun s : Sched ι κ => s.current = c ∧ s.idleproc = d)
      enqueueCurrent := by
    intro c d
    refine Preserves.getState fun s₀ => Preserves.ite ?_ (Preserves.pure ())
    refine Preserves.getState fun s₁ => Preserves.ite ?_ (Preserves.pure ())
    refine Preserves.getState fun s₂ => Preserves.bind ?_ fun root => ?_
    · intro s r s' hs heq
      obtain ⟨e, _, rfl⟩ := onPart_eq_ok heq
      exact hs
    · split
      · exact Preserves.bind (Preserves.modifyState fun _ h => h) fun _ =>
          Preserves.modifyState fun _ h => h
      · exact Preserves.modifyState fun _ h => h
  exact hkeeps s.current s.idleproc s r s' ⟨rfl, rfl⟩ hrun

/-- The two pieces are `schedule`. -/
theorem schedule_eq : (schedule : Routine (Sched ι κ) Unit) s =
    (putBack >>= fun _ => chooseNext >>= fun _ => pure ()) s := by
  let s₀ : Sched ι κ := { s with needResched := Function.update s.needResched s.current false }
  have hput : putBack s = enqueueCurrent s₀ := rfl
  rw [schedule, getState_bind, modifyState_bind]
  cases hrun : enqueueCurrent s₀ with
  | error a => rw [bind_of_abort hrun, bind_of_abort (hput.trans hrun)]
  | ok out =>
  obtain ⟨r, s₁⟩ := out
  cases r with
  | error e => rw [bind_of_error hrun, bind_of_error (hput.trans hrun)]
  | ok u =>
  obtain ⟨hcurrent, hidle⟩ := enqueueCurrent_keeps hrun
  rw [bind_of_ok hrun, bind_of_ok (hput.trans hrun), chooseNext, routine_bind_assoc, getState_bind,
    routine_bind_assoc]
  cases hpick : stridePickNext s₁ with
  | error a => rw [bind_of_abort hpick, bind_of_abort hpick]
  | ok out =>
  obtain ⟨r, s₂⟩ := out
  cases r with
  | error e => rw [bind_of_error hpick, bind_of_error hpick]
  | ok next =>
  rw [bind_of_ok hpick, bind_of_ok hpick, routine_bind_assoc]
  cases hdequeue : dequeueNext next s₂ with
  | error a => rw [bind_of_abort hdequeue, bind_of_abort hdequeue]
  | ok out =>
  obtain ⟨r, s₃⟩ := out
  cases r with
  | error e => rw [bind_of_error hdequeue, bind_of_error hdequeue]
  | ok u =>
  rw [bind_of_ok hdequeue, bind_of_ok hdequeue, routine_bind_assoc, modifyState_bind,
    modifyState_bind, hcurrent, hidle]
  split
  · rfl
  · rfl

end Pieces

section Keeping

/-- The queue is in the order of the sums, and holds the runnable processes but `idleproc`, and
but those that are `out`. -/
def QueueOk (s : Sched ι κ) (sum : ι → Nat) (out : ι → Prop) : Prop :=
  ∃ nodes, Sorted s sum nodes ∧
    ∀ p, p ∈ nodes ↔ s.waits.state p = .runnable ∧ p ≠ s.idleproc ∧ ¬out p

/-- The current process is out of the queue but while the next one is chosen. -/
def Inv (s : Tracked ι κ) : Prop :=
  QueueOk s.sched s.sum fun p => s.choosing = false ∧ p = s.sched.current

variable {s s' : Sched ι κ} {sum sum' : ι → Nat} {nodes : Finset ι} {p q : ι} {out out' : ι → Prop}

theorem sorted_congr (h : Sorted s sum nodes) (hentry : ∀ x ∈ nodes, s'.entry x = s.entry x)
    (hrq : s'.rq = s.rq) (hsum : ∀ x ∈ nodes, sum' x = sum x) (hwraps : Wraps s' sum') :
    Sorted s' sum' nodes := by
  refine ⟨⟨⟨?_, fun c hc => ?_⟩, ?_⟩, hwraps, fun x hx y hy => ?_, fun x hx c hchild => ?_⟩
  · rw [hrq]
    exact h.holds.rooted.heap.congr (fun x hx => by rw [hentry x hx]; exact ⟨rfl, rfl⟩)
      fun x hx _ => by rw [hentry x hx]
  · rw [hrq] at hc
    rw [hentry c (Sorted.root_mem h hc)]
    exact h.holds.rooted.top c hc
  · rw [hrq]
    exact h.holds.procNum
  · rw [hsum x hx, hsum y hy]
    exact h.spread x hx y hy
  · rw [SkewHeapOrder.Child, hentry x hx] at hchild
    have hc := SkewHeapOrder.Heap.child_mem h.holds.rooted.heap hx hchild
    show sum' x ≤ sum' c
    rw [hsum x hx, hsum c hc]
    exact h.ordered x hx c hchild

theorem enqueued_iff (h : Sorted s sum nodes) : Enqueued s p ↔ p ∈ nodes :=
  h.holds.rooted.heap.mem_iff.symm

/-- A runnable process that is out of the queue is put into it. -/
theorem schedClassEnqueue_sorted (h : QueueOk s sum out') (hp : s.waits.state p = .runnable)
    (hout : ∀ q, out' q ↔ q = p ∨ out q) (hnot : ¬out p)
    (hclose : p ≠ s.idleproc → ∀ q, Enqueued s q →
      sum p ≤ sum q + bigStride ∧ sum q ≤ sum p + bigStride) :
    ∃ s', schedClassEnqueue p s = .ok (.ok (), s') ∧ QueueOk s' sum out ∧ Still s s' := by
  obtain ⟨nodes, hsorted, hmem⟩ := h
  rw [schedClassEnqueue, getState_bind]
  rcases eq_or_ne p s.idleproc with hidle | hidle
  · rw [if_neg (not_not.mpr hidle)]
    refine ⟨s, rfl, ⟨nodes, hsorted, fun q => ?_⟩, ⟨rfl, rfl, rfl⟩⟩
    rw [hmem q, hout q, hidle]
    tauto
  · rw [if_pos hidle]
    have hin : p ∉ nodes := fun hin => ((hmem p).mp hin).2.2 ((hout p).mpr (Or.inl rfl))
    have hspread : Spread sum (insert p nodes) := hsorted.spread.insert fun q hq =>
      hclose hidle q ((enqueued_iff hsorted).mpr hq)
    obtain ⟨s', hrun, hsorted', hrequeued⟩ := strideEnqueue_sorted hsorted hin hspread
    refine ⟨s', hrun, ⟨_, hsorted', fun q => ?_⟩, hrequeued.toStill⟩
    rw [hrequeued.waits, hrequeued.idleproc, Finset.mem_insert, hmem q, hout q]
    rcases eq_or_ne q p with rfl | hother
    · simp [hp, hidle, hnot]
    · simp [hother]

theorem wakeupProc_sorted (h : QueueOk s sum fun p => p = s.current)
    (hclose : s.waits.state p ≠ .runnable → p ≠ s.current → p ≠ s.idleproc → ∀ q, Enqueued s q →
      sum p ≤ sum q + bigStride ∧ sum q ≤ sum p + bigStride)
    {r : Except Errno Unit} (hrun : wakeupProc p s = .ok (r, s')) :
    QueueOk s' sum fun p => p = s'.current := by
  have hzombie : s.waits.state p ≠ .zombie := by
    intro heq
    rw [wakeupProc, getState_bind, ensure_bind_of_not (not_not.mpr heq)] at hrun
    cases hrun
  rw [wakeupProc, getState_bind, ensure_bind_of hzombie] at hrun
  split at hrun
  · next hasleep =>
      let s₁ : Sched ι κ := { s with waits := { s.waits with
        state := Function.update s.waits.state p .runnable
        waitState := Function.update s.waits.waitState p 0 } }
      have hstate : ∀ q, q ≠ p → s₁.waits.state q = s.waits.state q :=
        fun q hq => Function.update_of_ne hq _ _
      have hself : s₁.waits.state p = .runnable := Function.update_self _ _ _
      change (if p ≠ s.current then schedClassEnqueue p else pure ()) s₁ = _ at hrun
      obtain ⟨nodes, hsorted, hmem⟩ := h
      have hsorted₁ : Sorted s₁ sum nodes :=
        sorted_congr hsorted (fun _ _ => rfl) rfl (fun _ _ => rfl) hsorted.wraps
      rcases eq_or_ne p s.current with rfl | hne
      · rw [if_neg (by simp)] at hrun
        have heq : s' = s₁ := (Prod.mk.inj (Except.ok.inj hrun)).2.symm
        subst heq
        refine ⟨nodes, hsorted₁, fun q => ?_⟩
        rw [hmem q]
        rcases eq_or_ne q s.current with rfl | hother
        · show _ ∧ _ ∧ ¬_ ↔ _ ∧ _ ∧ ¬s.current = s.current
          simp
        · rw [hstate q hother]
      · rw [if_pos hne] at hrun
        have hqueued : QueueOk s₁ sum fun q => q = p ∨ q = s₁.current := by
          refine ⟨nodes, hsorted₁, fun q => ?_⟩
          rw [hmem q]
          rcases eq_or_ne q p with rfl | hother
          · simp [hasleep]
          · rw [hstate q hother]
            simp only [hother, false_or]
            rfl
        obtain ⟨t, hrun', hqueued', hstill⟩ := schedClassEnqueue_sorted hqueued hself
          (fun q => Iff.rfl) hne fun hidle => hclose hasleep hne hidle
        cases hrun.symm.trans hrun'
        rw [hstill.current]
        exact hqueued'
  · cases hrun
    exact h

theorem putBack_sorted (h : QueueOk s sum fun p => p = s.current)
    (hclose : s.waits.state s.current = .runnable → s.current ≠ s.idleproc → ∀ q, Enqueued s q →
      sum s.current ≤ sum q + bigStride ∧ sum q ≤ sum s.current + bigStride)
    {r : Except Errno Unit} (hrun : putBack s = .ok (r, s')) :
    QueueOk s' sum fun _ => False := by
  obtain ⟨nodes, hsorted, hmem⟩ := h
  let s₀ : Sched ι κ := { s with needResched := Function.update s.needResched s.current false }
  have hsorted₀ : Sorted s₀ sum nodes :=
    sorted_congr hsorted (fun _ _ => rfl) rfl (fun _ _ => rfl) hsorted.wraps
  change enqueueCurrent s₀ = _ at hrun
  rw [enqueueCurrent, getState_bind] at hrun
  split at hrun
  · next hrunnable =>
      have hqueued₀ : QueueOk s₀ sum fun p => p = s.current := ⟨nodes, hsorted₀, hmem⟩
      obtain ⟨t, hrun', hqueued, _⟩ := @schedClassEnqueue_sorted ι κ _ s₀ sum s₀.current
        (fun _ => False) _ hqueued₀ hrunnable (fun q => by simp; rfl) id fun hidle =>
          hclose hrunnable hidle
      cases hrun.symm.trans hrun'
      exact hqueued
  · next hnot =>
      have heq : s' = s₀ := (Prod.mk.inj (Except.ok.inj hrun)).2.symm
      subst heq
      refine ⟨nodes, hsorted₀, fun q => ?_⟩
      rw [hmem q]
      rcases eq_or_ne q s.current with rfl | hne
      · show _ ∧ _ ∧ ¬_ ↔ s.waits.state s.current = _ ∧ _
        simp [show s.waits.state s.current ≠ .runnable from hnot]
      · show s.waits.state q = _ ∧ _ ∧ ¬_ ↔ s.waits.state q = _ ∧ _ ∧ ¬False
        simp only [hne, not_false_eq_true, and_true]
        rfl

/-- What follows after the next process was taken out of the queue. -/
theorem chooseNext_of {t u : Sched ι κ} {next : Option ι}
    (hpick : stridePickNext s = .ok (.ok next, t)) (hdequeue : dequeueNext next t = .ok (.ok (), u))
    (hcurrent : u.current = s.current) :
    ∃ s', chooseNext s = .ok (.ok next, s') ∧ s'.waits = u.waits ∧ s'.idleproc = u.idleproc ∧
      s'.current = next.getD s.idleproc ∧ s'.entry = u.entry ∧ s'.rq = u.rq ∧
      s'.stride = u.stride := by
  rw [chooseNext, getState_bind, bind_of_ok hpick, bind_of_ok hdequeue, modifyState_bind]
  split
  · exact ⟨_, rfl, rfl, rfl, rfl, rfl, rfl, rfl⟩
  · next hsame =>
      refine ⟨_, rfl, rfl, rfl, ?_, rfl, rfl, rfl⟩
      show u.current = _
      rw [hcurrent, not_not.mp hsame]

theorem chooseNext_sorted (h : QueueOk s sum fun _ => False) {next : Option ι}
    (hrun : chooseNext s = .ok (.ok next, s')) :
    QueueOk s' (next.elim sum (picked s sum)) fun p => p = s'.current := by
  obtain ⟨nodes, hsorted, hmem⟩ := h
  cases hroot : s.rq.pool with
  | none =>
      obtain ⟨t, hrun', hwaits, hidle, hcurrent, hentry, hrq, hstride⟩ :=
        chooseNext_of (stridePickNext_empty hroot) rfl rfl
      cases hrun.symm.trans hrun'
      have hwraps : Wraps s' sum := fun p => by rw [hstride, hsorted.wraps p]
      refine ⟨nodes, sorted_congr hsorted (fun _ _ => by rw [hentry]) hrq (fun _ _ => rfl) hwraps,
        fun q => ?_⟩
      rw [hmem q, hwaits, hidle, hcurrent]
      show _ ∧ q ≠ s.idleproc ∧ ¬False ↔ _ ∧ q ≠ s.idleproc ∧ ¬q = s.idleproc
      tauto
  | some p =>
      obtain ⟨t, hpick, hpicked⟩ := stridePickNext_sorted hsorted hroot
      obtain ⟨u, hdequeue, hsorted', hrequeued⟩ := strideDequeue_picked hpicked
      obtain ⟨s'', hrun', hwaits, hidle, hcurrent, hentry, hrq, hstride⟩ :=
        chooseNext_of hpick hdequeue (hrequeued.current.trans hpicked.still.current)
      cases hrun.symm.trans hrun'
      have hwraps : Wraps s' (picked s sum p) := fun q => by rw [hstride, hsorted'.wraps q]
      refine ⟨nodes.erase p, sorted_congr hsorted' (fun _ _ => by rw [hentry]) hrq (fun _ _ => rfl)
        hwraps, fun q => ?_⟩
      rw [Finset.mem_erase, hmem q, hwaits, hidle, hcurrent, hrequeued.waits, hrequeued.idleproc,
        hpicked.still.waits, hpicked.still.idleproc]
      show q ≠ p ∧ _ ∧ _ ∧ ¬False ↔ _ ∧ _ ∧ ¬q = p
      tauto

theorem allocProc_sorted (h : QueueOk s sum fun p => p = s.current)
    (hp : s.waits.state p ≠ .runnable) {r : Except Errno Unit}
    (hrun : allocProc p s = .ok (r, s')) :
    QueueOk s' (Function.update sum p 0) fun p => p = s'.current := by
  obtain ⟨nodes, hsorted, hmem⟩ := h
  have hout : ∀ x ∈ nodes, x ≠ p := by
    rintro x hx rfl
    exact hp ((hmem x).mp hx).1
  cases hrun
  refine ⟨nodes, sorted_congr hsorted (fun x hx => ?_) rfl (fun x hx => ?_) fun x => ?_,
    fun q => ?_⟩
  · exact Function.update_of_ne (hout x hx) _ _
  · exact Function.update_of_ne (hout x hx) _ _
  · show Function.update s.stride p 0 x = BitVec.ofNat 32 (Function.update sum p 0 x)
    rcases eq_or_ne x p with rfl | hne
    · rw [Function.update_self, Function.update_self]
      rfl
    · rw [Function.update_of_ne hne, Function.update_of_ne hne, hsorted.wraps x]
  · rw [hmem q]
    show _ ↔ Function.update s.waits.state p .uninit q = _ ∧ _
    rcases eq_or_ne q p with rfl | hne
    · rw [Function.update_self]
      simp [hp]
    · rw [Function.update_of_ne hne]

end Keeping

section Runs

variable {s s' : Tracked ι κ} {ev : Event ι}

theorem Inv.queueOk (h : Inv s) (hchoosing : s.choosing = false) :
    QueueOk s.sched s.sum fun p => p = s.sched.current := by
  obtain ⟨nodes, hsorted, hmem⟩ := h
  refine ⟨nodes, hsorted, fun p => ?_⟩
  rw [hmem p, hchoosing]
  simp only [true_and]

theorem inv_of_queueOk (h : QueueOk s.sched s.sum fun p => p = s.sched.current)
    (hchoosing : s.choosing = false) : Inv s := by
  obtain ⟨nodes, hsorted, hmem⟩ := h
  refine ⟨nodes, hsorted, fun p => ?_⟩
  rw [hmem p, hchoosing]
  simp only [true_and]

theorem inv_step (h : Inv s) (hmeets : Meets s ev) (hstep : Step s ev s') : Inv s' := by
  cases hstep with
  | create hchoosing hp _ hrun =>
      exact inv_of_queueOk (allocProc_sorted (h.queueOk hchoosing) hp hrun) hchoosing
  | wakeup hchoosing hrun =>
      exact inv_of_queueOk (wakeupProc_sorted (h.queueOk hchoosing) hmeets hrun) hchoosing
  | other hchoosing hwaits =>
      obtain ⟨nodes, hsorted, hmem⟩ := h.queueOk hchoosing
      refine inv_of_queueOk ⟨nodes, sorted_congr hsorted (fun _ _ => rfl) rfl (fun _ _ => rfl)
        hsorted.wraps, fun p => ?_⟩ hchoosing
      rw [hmem p]
      rcases eq_or_ne p s.sched.current with rfl | hne
      · simp
      · show _ ∧ _ ∧ ¬_ ↔ _ ∧ _ ∧ ¬_
        rw [hwaits p hne]
  | setPriority hchoosing hrun =>
      cases hrun
      obtain ⟨nodes, hsorted, hmem⟩ := h.queueOk hchoosing
      exact inv_of_queueOk ⟨nodes, sorted_congr hsorted (fun _ _ => rfl) rfl (fun _ _ => rfl)
        hsorted.wraps, hmem⟩ hchoosing
  | putBack hchoosing hrun =>
      obtain ⟨nodes, hsorted, hmem⟩ := putBack_sorted (h.queueOk hchoosing) hmeets hrun
      refine ⟨nodes, hsorted, fun p => ?_⟩
      rw [hmem p]
      simp
  | choose hchoosing hrun =>
      refine inv_of_queueOk (chooseNext_sorted ?_ hrun) rfl
      obtain ⟨nodes, hsorted, hmem⟩ := h
      refine ⟨nodes, hsorted, fun p => ?_⟩
      rw [hmem p, hchoosing]
      simp

theorem inv_starts (h : Starts s) : Inv s := by
  have hnone : ∀ x : ι, x ∉ (∅ : Finset ι) := Finset.notMem_empty
  refine inv_of_queueOk ⟨∅, ⟨⟨⟨?_, ?_⟩, ?_⟩, fun p => ?_, ?_, ?_⟩, fun p => ?_⟩ h.choosing
  · rw [h.pool]
    exact .empty
  · rw [h.pool]
    exact nofun
  · rw [h.procNum, Finset.card_empty]
  · rw [h.stride p, h.sum p]
    rfl
  · exact fun x hx => absurd hx (hnone x)
  · exact fun x hx => absurd hx (hnone x)
  · rw [h.current]
    rcases eq_or_ne p s.sched.idleproc with rfl | hne
    · simp
    · simp [h.states p hne]

theorem Inv.strideOk (h : Inv s) : StrideOk s := by
  obtain ⟨nodes, hsorted, _⟩ := h
  refine ⟨hsorted.wraps, fun p q hp hq => ?_, fun p t hrun => ?_⟩
  · rw [enqueued_iff hsorted] at hp hq
    exact procStrideCompF_eq_sign (hsorted.wraps p) (hsorted.wraps q) (hsorted.spread p hp q hq)
      (hsorted.spread q hq p hp)
  · cases hroot : s.sched.rq.pool with
    | none => cases hrun.symm.trans (stridePickNext_empty hroot)
    | some root =>
        obtain ⟨t', hrun', _⟩ := stridePickNext_sorted hsorted hroot
        cases hrun.symm.trans hrun'
        refine ⟨(enqueued_iff hsorted).mpr (Sorted.root_mem hsorted hroot), fun q hq => ?_⟩
        exact Sorted.root_le hsorted hroot ((enqueued_iff hsorted).mp hq)

/-- In every run in which processes enter the queue with sums close to those in it. -/
theorem strideOk_of_reaches (hstarts : Starts s)
    (hrun : ReflTransGen (fun s s' => ∃ ev, Meets s ev ∧ Step s ev s') s s') : StrideOk s' := by
  have hinv : Inv s' := by
    induction hrun with
    | refl => exact inv_starts hstarts
    | tail _ hlast ih =>
        obtain ⟨ev, hmeets, hstep⟩ := hlast
        exact inv_step ih hmeets hstep
  exact hinv.strideOk

omit [DecidableEq ι] in
theorem not_enqueued {s : Sched ι κ} (hpool : s.rq.pool = none) (p : ι) : ¬Enqueued s p := by
  rintro ⟨path, hwalk⟩
  rw [hpool, walk_none] at hwalk
  cases hwalk

/-- `idleproc` is process 0. -/
def idleOnly : Tracked Nat Unit where
  sched := RunQueueRuns.idleOnly.shared
  sum := fun _ => 0
  choosing := false

theorem starts_idleOnly : Starts idleOnly :=
  { choosing := rfl
    current := rfl
    pool := rfl
    procNum := rfl
    states := fun p hp => by
      have huninit : idleOnly.sched.waits.state p = .uninit := if_neg hp
      rw [huninit]
      decide
    stride := fun _ => rfl
    sum := fun _ => rfl }

/-- Process 1 runs, and process 2 is in the queue. -/
theorem strideOk_of_reaches_two : ∃ s, ReflTransGen (fun s s' => ∃ ev, Meets s ev ∧ Step s ev s')
    idleOnly s ∧ s.sched.current = 1 ∧ s.sched.rq.pool = some 2 ∧ StrideOk s := by
  have hempty : ∀ (s : Tracked Nat Unit) (p : Nat), s.sched.rq.pool = none → Close s p :=
    fun s p hpool q hq => absurd hq (not_enqueued hpool q)
  have hrun : ReflTransGen (fun s s' => ∃ ev, Meets s ev ∧ Step s ev s') idleOnly _ :=
    .single ⟨.wakeup 1, fun _ _ _ => hempty _ _ rfl, @Step.wakeup Nat Unit _ idleOnly 1 _ _ rfl rfl⟩
  replace hrun := hrun.tail
    ⟨.putBack, fun _ hidle => absurd rfl hidle, @Step.putBack Nat Unit _ _ _ _ rfl rfl⟩
  replace hrun := hrun.tail ⟨.choose, trivial, @Step.choose Nat Unit _ _ (some 1) _ rfl rfl⟩
  replace hrun := hrun.tail
    ⟨.wakeup 2, fun _ _ _ => hempty _ _ rfl, @Step.wakeup Nat Unit _ _ 2 _ _ rfl rfl⟩
  exact ⟨_, hrun, rfl, rfl, strideOk_of_reaches starts_idleOnly hrun⟩

/-- Process 1 was picked once, and runs. -/
def oneRuns : Tracked Nat Unit where
  sched := { idleOnly.sched with
    waits := { idleOnly.sched.waits with
      state := Function.update idleOnly.sched.waits.state 1 .runnable
      waitState := Function.update idleOnly.sched.waits.waitState 1 0 }
    current := 1
    entry := Function.update idleOnly.sched.entry 1 ⟨none, none, none⟩
    stride := Function.update idleOnly.sched.stride 1 BIG_STRIDE
    timeSlice := Function.update idleOnly.sched.timeSlice 1 5
    needResched := Function.update idleOnly.sched.needResched 0 false
    runs := Function.update idleOnly.sched.runs 1 1 }
  sum := Function.update idleOnly.sum 1 bigStride
  choosing := false

theorem reaches_oneRuns : ReflTransGen (fun s s' => ∃ ev, Step s ev s') idleOnly oneRuns := by
  have hrun : ReflTransGen (fun s s' => ∃ ev, Step s ev s') idleOnly _ :=
    .single ⟨.wakeup 1, @Step.wakeup Nat Unit _ idleOnly 1 _ _ rfl rfl⟩
  replace hrun := hrun.tail ⟨.putBack, @Step.putBack Nat Unit _ _ _ _ rfl rfl⟩
  exact hrun.tail ⟨.choose, @Step.choose Nat Unit _ _ (some 1) _ rfl rfl⟩

/-- Process 1 has run alone twice when process 2 wakes for the first time. -/
theorem not_strideOk_of_reaches : ∃ s, ReflTransGen (fun s s' => ∃ ev, Step s ev s') idleOnly s ∧
    ¬StrideOk s := by
  have hrun := reaches_oneRuns
  replace hrun := hrun.tail ⟨.putBack, @Step.putBack Nat Unit _ _ _ _ rfl rfl⟩
  replace hrun := hrun.tail ⟨.choose, @Step.choose Nat Unit _ _ (some 1) _ rfl rfl⟩
  replace hrun := hrun.tail ⟨.wakeup 2, @Step.wakeup Nat Unit _ _ 2 _ _ rfl rfl⟩
  replace hrun := hrun.tail ⟨.putBack, @Step.putBack Nat Unit _ _ _ _ rfl rfl⟩
  refine ⟨_, hrun, fun hok => ?_⟩
  have hagrees := hok.agrees 1 2 ⟨[], rfl⟩ ⟨[false], rfl⟩
  revert hagrees
  decide

end Runs

end Ucore.StrideOrder
