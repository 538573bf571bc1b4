import Ucore.SkewHeap
import Ucore.WaitQueues

/-!
The run queue: `sched.c` with the stride scheduler of `default_sched_stride.c`, and the
code that wakes a process or lets it sleep. Only the current process runs. An interrupt may
come wherever interrupts are enabled, so the stores of `do_wait` and `do_exit` to the state
of the process are pieces of their own.
-/

namespace Ucore.RunQueue

open Ucore.Errors
open Ucore.Panic
open Ucore.KernelRoutine
open Ucore.Interleaving
open Ucore.Segments
open Ucore.Processes (ProcState WT_INTERRUPTED WT_CHILD)
open Ucore.SkewHeap
open Ucore.WaitQueues (Kernel Queue Timer WT_KSEM WT_KBD)

def BIG_STRIDE : BitVec 32 := 0x7FFFFFFF

/-- `struct run_queue`; the list is not used. -/
structure Rq (ι : Type) where
  pool : Option ι
  procNum : Nat
  maxTimeSlice : Int

/-- What the scheduler works on, beside what the processes wait for. -/
structure Sched (ι κ : Type) where
  waits : Kernel ι κ
  current : ι
  idleproc : ι
  rq : Rq ι
  entry : ι → Entry ι
  stride : ι → BitVec 32
  priority : ι → BitVec 32
  timeSlice : ι → Int
  needResched : ι → Bool
  runs : ι → Int

variable {ι κ : Type} [DecidableEq ι] [DecidableEq κ]

def onWaits {α : Type} : Routine (Kernel ι κ) α → Routine (Sched ι κ) α :=
  onPart Sched.waits fun waits s => { s with waits := waits }

def onEntries {α : Type} : Routine (ι → Entry ι) α → Routine (Sched ι κ) α :=
  onPart Sched.entry fun entry s => { s with entry := entry }

section Stride

/-- `proc_stride_comp_f`: strides are compared by the sign of their difference. -/
def procStrideCompF (stride : ι → BitVec 32) (p q : ι) : Int :=
  if (stride p - stride q).toInt > 0 then 1
  else if (stride p - stride q).toInt = 0 then 0
  else -1

def setPool (pool : Option ι) (procNum : Nat) : Routine (Sched ι κ) Unit :=
  modifyState fun s => { s with rq := { s.rq with pool := pool, procNum := procNum } }

def strideEnqueue (proc : ι) : Routine (Sched ι κ) Unit := do
  let s ← getState
  let pool ← onEntries
    (skewHeapInsert (procStrideCompF s.stride) (s.rq.procNum + 2) s.rq.pool proc)
  if s.timeSlice proc = 0 ∨ s.timeSlice proc > s.rq.maxTimeSlice then
    modifyState fun s => { s with
      timeSlice := Function.update s.timeSlice proc s.rq.maxTimeSlice }
  setPool pool (s.rq.procNum + 1)

def strideDequeue (proc : ι) : Routine (Sched ι κ) Unit := do
  let s ← getState
  let pool ← onEntries
    (skewHeapRemove (procStrideCompF s.stride) (s.rq.procNum + 1) s.rq.pool proc)
  setPool pool (s.rq.procNum - 1)

def stridePickNext : Routine (Sched ι κ) (Option ι) := do
  let s ← getState
  match s.rq.pool with
  | none => return none
  | some p =>
      let pass := if s.priority p = 0 then BIG_STRIDE else BIG_STRIDE / s.priority p
      modifyState fun s => { s with stride := Function.update s.stride p (s.stride p + pass) }
      return some p

def strideProcTick (proc : ι) : Routine (Sched ι κ) Unit := do
  modifyState fun s => { s with
    timeSlice := Function.update s.timeSlice proc
      (if s.timeSlice proc > 0 then s.timeSlice proc - 1 else s.timeSlice proc) }
  modifyState fun s => { s with
    needResched := Function.update s.needResched proc
      (if s.timeSlice proc = 0 then true else s.needResched proc) }

end Stride

section Scheduling

def schedClassEnqueue (proc : ι) : Routine (Sched ι κ) Unit := do
  let s ← getState
  if proc ≠ s.idleproc then strideEnqueue proc

def schedClassProcTick (proc : ι) : Routine (Sched ι κ) Unit := do
  let s ← getState
  if proc ≠ s.idleproc then
    strideProcTick proc
  else
    modifyState fun s => { s with needResched := Function.update s.needResched proc true }

def wakeupProc (proc : ι) : Routine (Sched ι κ) Unit := do
  let s ← getState
  ensure (s.waits.state proc ≠ .zombie)
  if s.waits.state proc ≠ .runnable then
    onWaits (WaitQueues.setState proc .runnable)
    onWaits (WaitQueues.setWaitState proc 0)
    if proc ≠ s.current then schedClassEnqueue proc

/-- `proc_run`, as far as it is about the process. -/
def procRun (proc : ι) : Routine (Sched ι κ) Unit :=
  modifyState fun s => { s with current := proc }

/-- `schedule` where it puts the current process back into the queue. -/
def enqueueCurrent : Routine (Sched ι κ) Unit := do
  let s ← getState
  if s.waits.state s.current = .runnable then schedClassEnqueue s.current

/-- `schedule` where it takes the next process out of the queue. -/
def dequeueNext : Option ι → Routine (Sched ι κ) Unit
  | some next => strideDequeue next
  | none => return ()

def schedule : Routine (Sched ι κ) Unit := do
  let s ← getState
  modifyState fun s => { s with needResched := Function.update s.needResched s.current false }
  enqueueCurrent
  let picked ← stridePickNext
  dequeueNext picked
  let next := picked.getD s.idleproc
  modifyState fun s => { s with runs := Function.update s.runs next (s.runs next + 1) }
  if next ≠ s.current then procRun next

end Scheduling

section Wakeups

def wakeupWait (queue : Queue κ) (wait : ι) (wakeupFlags : Nat) (del : Bool) :
    Routine (Sched ι κ) Unit := do
  if del then
    onWaits (WaitQueues.waitQueueDel queue wait)
  onWaits (modifyState fun w => { w with
    wait := Function.update w.wait wait { w.wait wait with wakeupFlags := wakeupFlags } })
  wakeupProc wait

/-- The loop of `wakeup_queue` that takes the processes out, on those in the queue. -/
def wakeupAll (queue : Queue κ) (wakeupFlags : Nat) : List ι → Routine (Sched ι κ) Unit
  | [] => return ()
  | wait :: rest => do
      wakeupWait queue wait wakeupFlags true
      wakeupAll queue wakeupFlags rest

def up (sem : κ) : Routine (Sched ι κ) Unit := do
  onWaits (modifyState fun w => { w with ups := Function.update w.ups sem (w.ups sem + 1) })
  let s ← getState
  match s.waits.queue (.sem sem) with
  | [] => onWaits (modifyState fun w => { w with
      value := Function.update w.value sem (w.value sem + 1) })
  | wait :: _ =>
      ensure (s.waits.waitState wait = WT_KSEM)
      onWaits (modifyState fun w => { w with
        handed := Function.update w.handed sem (w.handed sem ++ [wait]) })
      wakeupWait (.sem sem) wait WT_KSEM true

/-- The loop of `run_timer_list`, on the list from a timer on. -/
def expire : List (Timer ι) → Routine (Sched ι κ) Unit
  | [] => return ()
  | timer :: rest =>
      if timer.expires = 0 then do
        let s ← getState
        ensure (s.waits.waitState timer.proc ≠ 0 →
          s.waits.waitState timer.proc &&& WT_INTERRUPTED ≠ 0)
        wakeupProc timer.proc
        onWaits (WaitQueues.delTimer timer.proc)
        expire rest
      else
        return ()

/-- `run_timer_list` where it is about the timers. -/
def runTimers : Routine (Sched ι κ) Unit := do
  let s ← getState
  match s.waits.timerList with
  | [] => return ()
  | timer :: rest =>
      ensure (timer.expires ≠ 0)
      let ticked := { timer with expires := timer.expires - 1 }
      onWaits (modifyState fun w => { w with timerList := ticked :: rest })
      expire (ticked :: rest)

def runTimerList : Routine (Sched ι κ) Unit := do
  runTimers
  let s ← getState
  schedClassProcTick s.current

/-- `do_exit` where it wakes the parent, and `init` for each child that is a zombie. -/
def wakeParents : List ι → Routine (Sched ι κ) Unit
  | [] => return ()
  | proc :: rest => do
      let s ← getState
      if s.waits.waitState proc = WT_CHILD then
        wakeupProc proc
      wakeParents rest

/-- `dev_stdin_write` where it wakes the processes that read. -/
def devStdinWrite : Routine (Sched ι κ) Unit := do
  let s ← getState
  wakeupAll .keyboard WT_KBD (s.waits.queue .keyboard)

end Wakeups

/-- Where a process is: in none of the calls, before the `schedule` of a call or in it,
between the stores of `do_wait`, in `do_exit` as a zombie, or in `do_kill` where it is about
to wake the process. A process structure is unborn, then `do_fork` sets it up, and in the
end `do_wait` frees it. -/
inductive Pc (ι κ : Type) where
  | running
  | leaving (at' : WaitQueues.Pc κ)
  | away (at' : WaitQueues.Pc κ)
  | storing
  | exiting (parents : List ι)
  | killing (proc : ι)
  | unborn
  | embryo
  | freed
  deriving DecidableEq

/-- What a process does. `exit` names the processes whose wait for a child it may end;
`resched` is a call of `schedule` by a process that is runnable. -/
inductive Call (ι κ : Type) where
  | up (k : κ)
  | down (k : κ)
  | tryDown (k : κ)
  | sleep (time : Nat)
  | read
  | wait
  | exit (parents : List ι)
  | kill (proc : ι)
  | yield
  | resched

section Calls

def doKill (proc : ι) : Routine (Sched ι κ) (Pc ι κ) := do
  let s ← getState
  if s.waits.exiting proc then
    fail .eKilled
  else
    onWaits (modifyState fun w => { w with exiting := Function.update w.exiting proc true })
    if s.waits.waitState proc &&& WT_INTERRUPTED ≠ 0 then
      return .killing proc
    else
      return .running

def start : Call ι κ → Routine (Sched ι κ) (Pc ι κ)
  | .up sem => do
      up sem
      return .running
  | .down sem => do
      let s ← getState
      let waits ← onWaits (WaitQueues.down s.current sem)
      return if waits then .leaving (.down sem) else .running
  | .tryDown sem => do
      let _ ← onWaits (WaitQueues.tryDown sem)
      return .running
  | .sleep time => do
      let s ← getState
      let pc ← onWaits (WaitQueues.doSleep s.current time)
      return if pc = .sleeping then .leaving .sleeping else .running
  | .read => do
      let s ← getState
      onWaits (WaitQueues.waitCurrentSet .keyboard s.current WT_KBD)
      return .leaving .reading
  | .wait => do
      let s ← getState
      onWaits (WaitQueues.setState s.current .sleeping)
      return .storing
  | .exit parents => do
      let s ← getState
      ensure (s.current ≠ s.idleproc)
      onWaits (WaitQueues.setState s.current .zombie)
      return .exiting parents
  | .kill proc => doKill proc
  | .yield => do
      modifyState fun s => { s with needResched := Function.update s.needResched s.current true }
      return .running
  | .resched => return .leaving .running

/-- What comes next where a process is. -/
def goOn : Pc ι κ → Routine (Sched ι κ) (Pc ι κ)
  | .leaving at' => do
      schedule
      return .away at'
  | .away at' => do
      let s ← getState
      let pc ← onWaits (WaitQueues.resume s.current at')
      return if pc = .exited then .away .exited else .running
  | .storing => do
      let s ← getState
      onWaits (WaitQueues.setWaitState s.current WT_CHILD)
      return .leaving .waiting
  | .exiting parents => do
      wakeParents parents
      return .leaving .exited
  | .killing proc => do
      wakeupProc proc
      return .running
  | pc => return pc

end Calls

section Steps

abbrev System (ι κ : Type) := Threads ι (Sched ι κ) (Pc ι κ)

/-- What an interrupt does. -/
inductive Interrupt where
  | timer
  | key

def interruptHandler : Interrupt → Routine (Sched ι κ) Unit
  | .timer => runTimerList
  | .key => devStdinWrite

/-- The current process begins a call or goes on with it; in `do_fork` it sets up a
process structure, which it wakes or gives up, and in `do_wait` it frees the structure of a
zombie; or there is an interrupt. -/
inductive Step : System ι κ → System ι κ → Prop
  | start {s : System ι κ} {call : Call ι κ} {r : Except Errno (Pc ι κ)} {t : Sched ι κ} :
      s.pc s.shared.current = .running → start call s.shared = .ok (r, t) →
        Step s { shared := t, pc := Function.update s.pc s.shared.current (after .running r) }
  | goOn {s : System ι κ} {r : Except Errno (Pc ι κ)} {t : Sched ι κ} :
      goOn (s.pc s.shared.current) s.shared = .ok (r, t) →
        Step s { shared := t, pc := Function.update s.pc s.shared.current (after .running r) }
  | alloc {s : System ι κ} {child : ι} :
      s.pc s.shared.current = .running → s.pc child = .unborn →
        Step s { s with pc := Function.update s.pc child .embryo }
  | born {s : System ι κ} {child : ι} {r : Except Errno Unit} {t : Sched ι κ} :
      s.pc s.shared.current = .running → s.pc child = .embryo →
      wakeupProc child s.shared = .ok (r, t) →
        Step s { shared := t, pc := Function.update s.pc child .running }
  | abandon {s : System ι κ} {child : ι} :
      s.pc s.shared.current = .running → s.pc child = .embryo →
        Step s { s with pc := Function.update s.pc child .freed }
  | reap {s : System ι κ} {child : ι} :
      s.pc s.shared.current = .running → s.shared.waits.state child = .zombie →
        Step s { s with pc := Function.update s.pc child .freed }
  | interrupt {s : System ι κ} {interrupt : Interrupt} {r : Except Errno Unit}
      {t : Sched ι κ} :
      interruptHandler interrupt s.shared = .ok (r, t) → Step s { s with shared := t }

/-- `idleproc` runs and is runnable, `sched_init` has made the queue empty, and no other
process has been set up. -/
structure Starts (s : System ι κ) : Prop where
  current : s.shared.current = s.shared.idleproc
  idle : s.pc s.shared.idleproc = .running ∧ s.shared.waits.state s.shared.idleproc = .runnable
  unborn : ∀ i, i ≠ s.shared.idleproc → s.pc i = .unborn ∧ s.shared.waits.state i = .uninit
  pool : s.shared.rq.pool = none
  procNum : s.shared.rq.procNum = 0

end Steps

end Ucore.RunQueue
