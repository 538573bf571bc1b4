import Ucore.Processes

/-!
Waiting in the kernel: `wait.c`, `sem.c`, the timers of `sched.c`, `dev_stdin.c` and
`do_kill`. An interrupt does not come between the two ends of a `local_intr_save`, so
these sections are the pieces that run without interruption. Between any two of
them another process may go on: this is more than the kernel lets happen.
-/

namespace Ucore.WaitQueues

open Ucore.Errors
open Ucore.Panic
open Ucore.KernelRoutine
open Ucore.Interleaving
open Ucore.Segments
open Ucore.Processes (ProcState WT_INTERRUPTED WT_CHILD)

def WT_KSEM : Nat := 0x00000100

def WT_TIMER : Nat := 0x00000002 ||| WT_INTERRUPTED

def WT_KBD : Nat := 0x00000004 ||| WT_INTERRUPTED

/-- The wait queue of a semaphore, or the one of `dev_stdin.c`. -/
inductive Queue (κ : Type) where
  | sem (k : κ)
  | keyboard
  deriving DecidableEq

/-- The `wait_t` on the stack of a process; `linked` says that its link is not empty. -/
structure Wait (κ : Type) where
  wakeupFlags : Nat
  waitQueue : Queue κ
  linked : Bool

/-- The `timer_t` on the stack of a process. -/
structure Timer (ι : Type) where
  expires : Nat
  proc : ι

/-- The processes `ι` and the semaphores `κ`. A process is in the wait queues by the
`wait_t` on its stack. What happened to the semaphores is kept too: `ups` made so far,
units that were `taken` at once, who `queued` and to whom a unit was `handed`. -/
structure Kernel (ι κ : Type) where
  state : ι → ProcState
  waitState : ι → Nat
  exiting : ι → Bool
  wait : ι → Wait κ
  queue : Queue κ → List ι
  value : κ → Int
  timerList : List (Timer ι)
  ups : κ → Nat
  taken : κ → Nat
  queued : κ → List ι
  handed : κ → List ι

/-- Where a process is: in the `schedule` of `__down`, `do_sleep`, `dev_stdin_read`,
`do_wait` or `do_exit`, not started yet, or in none of these. -/
inductive Pc (κ : Type) where
  | running
  | down (k : κ)
  | sleeping
  | reading
  | waiting
  | exited
  | unborn
  deriving DecidableEq

/-- What a process does. `exit` names the processes whose wait for a child it may end. -/
inductive Call (ι κ : Type) where
  | up (k : κ)
  | down (k : κ)
  | tryDown (k : κ)
  | sleep (time : Nat)
  | read
  | wait
  | exit (parents : List ι)

variable {ι κ : Type} [DecidableEq ι] [DecidableEq κ]

section Queues

def setState (p : ι) (v : ProcState) : Routine (Kernel ι κ) Unit :=
  modifyState fun s => { s with state := Function.update s.state p v }

def setWaitState (p : ι) (v : Nat) : Routine (Kernel ι κ) Unit :=
  modifyState fun s => { s with waitState := Function.update s.waitState p v }

def wakeupProc (proc : ι) : Routine (Kernel ι κ) Unit := do
  let s ← getState
  ensure (s.state proc ≠ .zombie)
  if s.state proc ≠ .runnable then
    setState proc .runnable
    setWaitState proc 0
  else
    return ()

def waitInit (proc : ι) : Routine (Kernel ι κ) Unit :=
  modifyState fun s => { s with
    wait := Function.update s.wait proc { s.wait proc with
      wakeupFlags := WT_INTERRUPTED
      linked := false } }

def waitQueueAdd (queue : Queue κ) (wait : ι) : Routine (Kernel ι κ) Unit := do
  let s ← getState
  ensure ((s.wait wait).linked = false)
  modifyState fun s => { s with
    wait := Function.update s.wait wait { s.wait wait with
      waitQueue := queue
      linked := true }
    queue := Function.update s.queue queue (s.queue queue ++ [wait]) }

def waitQueueDel (queue : Queue κ) (wait : ι) : Routine (Kernel ι κ) Unit := do
  let s ← getState
  ensure ((s.wait wait).linked = true ∧ (s.wait wait).waitQueue = queue)
  modifyState fun s => { s with
    wait := Function.update s.wait wait { s.wait wait with linked := false }
    queue := Function.update s.queue queue ((s.queue queue).erase wait) }

def wakeupWait (queue : Queue κ) (wait : ι) (wakeupFlags : Nat) (del : Bool) :
    Routine (Kernel ι κ) Unit := do
  if del then
    waitQueueDel queue wait
  modifyState fun s => { s with
    wait := Function.update s.wait wait { s.wait wait with wakeupFlags := wakeupFlags } }
  wakeupProc wait

/-- The loop of `wakeup_queue` that takes the processes out, on those in the queue. -/
def wakeupAll (queue : Queue κ) (wakeupFlags : Nat) : List ι → Routine (Kernel ι κ) Unit
  | [] => return ()
  | wait :: rest => do
      wakeupWait queue wait wakeupFlags true
      wakeupAll queue wakeupFlags rest

def waitCurrentSet (queue : Queue κ) (current : ι) (waitState : Nat) :
    Routine (Kernel ι κ) Unit := do
  waitInit current
  setState current .sleeping
  setWaitState current waitState
  waitQueueAdd queue current

def waitCurrentDel (queue : Queue κ) (current : ι) : Routine (Kernel ι κ) Unit := do
  let s ← getState
  if (s.wait current).linked then
    waitQueueDel queue current
  else
    return ()

end Queues

section Semaphores

def up (sem : κ) : Routine (Kernel ι κ) Unit := do
  modifyState fun s => { s with ups := Function.update s.ups sem (s.ups sem + 1) }
  let s ← getState
  match s.queue (.sem sem) with
  | [] => modifyState fun s => { s with value := Function.update s.value sem (s.value sem + 1) }
  | wait :: _ =>
      ensure (s.waitState wait = WT_KSEM)
      modifyState fun s => { s with
        handed := Function.update s.handed sem (s.handed sem ++ [wait]) }
      wakeupWait (.sem sem) wait WT_KSEM true

/-- `value` is positive, so that one unit is taken at once. -/
def take (sem : κ) : Routine (Kernel ι κ) Unit :=
  modifyState fun s => { s with
    value := Function.update s.value sem (s.value sem - 1)
    taken := Function.update s.taken sem (s.taken sem + 1) }

/-- `down` up to `schedule`: whether the process has to wait. -/
def down (current : ι) (sem : κ) : Routine (Kernel ι κ) Bool := do
  let s ← getState
  if s.value sem > 0 then
    take sem
    return false
  else
    waitCurrentSet (.sem sem) current WT_KSEM
    modifyState fun s => { s with
      queued := Function.update s.queued sem (s.queued sem ++ [current]) }
    return true

/-- `down` after `schedule`. -/
def downed (current : ι) (sem : κ) : Routine (Kernel ι κ) Unit := do
  waitCurrentDel (.sem sem) current
  let s ← getState
  let flags := if (s.wait current).wakeupFlags ≠ WT_KSEM then (s.wait current).wakeupFlags else 0
  ensure (flags = 0)

def tryDown (sem : κ) : Routine (Kernel ι κ) Bool := do
  let s ← getState
  if s.value sem > 0 then
    take sem
    return true
  else
    return false

end Semaphores

section Timers

/-- The list with one more timer, whose time is counted from the one before. -/
def insertTimer (timer : Timer ι) : List (Timer ι) → List (Timer ι)
  | [] => [timer]
  | next :: rest =>
      if timer.expires < next.expires then
        timer :: { next with expires := next.expires - timer.expires } :: rest
      else
        next :: insertTimer { timer with expires := timer.expires - next.expires } rest

def addTimer (timer : Timer ι) : Routine (Kernel ι κ) Unit := do
  ensure (timer.expires > 0)
  modifyState fun s => { s with timerList := insertTimer timer s.timerList }

/-- The list without the timer of a process, if it is in the list. -/
def removeTimer (proc : ι) : List (Timer ι) → List (Timer ι)
  | [] => []
  | [timer] => if timer.proc = proc then [] else [timer]
  | timer :: next :: rest =>
      if timer.proc = proc then
        { next with expires := next.expires + timer.expires } :: rest
      else
        timer :: removeTimer proc (next :: rest)

def delTimer (proc : ι) : Routine (Kernel ι κ) Unit :=
  modifyState fun s => { s with timerList := removeTimer proc s.timerList }

/-- The loop of `run_timer_list`, on the list from a timer on. -/
def expire : List (Timer ι) → Routine (Kernel ι κ) Unit
  | [] => return ()
  | timer :: rest =>
      if timer.expires = 0 then do
        let s ← getState
        ensure (s.waitState timer.proc ≠ 0 → s.waitState timer.proc &&& WT_INTERRUPTED ≠ 0)
        wakeupProc timer.proc
        delTimer timer.proc
        expire rest
      else
        return ()

def runTimerList : Routine (Kernel ι κ) Unit := do
  let s ← getState
  match s.timerList with
  | [] => return ()
  | timer :: rest =>
      ensure (timer.expires ≠ 0)
      let ticked := { timer with expires := timer.expires - 1 }
      modifyState fun s => { s with timerList := ticked :: rest }
      expire (ticked :: rest)

end Timers

section Calls

def doSleep (current : ι) (time : Nat) : Routine (Kernel ι κ) (Pc κ) := do
  if time = 0 then
    return .running
  else
    setState current .sleeping
    setWaitState current WT_TIMER
    addTimer ⟨time, current⟩
    return .sleeping

/-- `do_exit` where it wakes the parent, and `init` for each child that is a zombie. -/
def wakeParents : List ι → Routine (Kernel ι κ) Unit
  | [] => return ()
  | proc :: rest => do
      let s ← getState
      if s.waitState proc = WT_CHILD then
        wakeupProc proc
      wakeParents rest

def doKill (proc : ι) : Routine (Kernel ι κ) Unit := do
  let s ← getState
  if s.exiting proc then
    fail .eKilled
  else
    modifyState fun s => { s with exiting := Function.update s.exiting proc true }
    if s.waitState proc &&& WT_INTERRUPTED ≠ 0 then
      wakeupProc proc
    else
      return ()

/-- `dev_stdin_write` where it wakes the processes that read. -/
def devStdinWrite : Routine (Kernel ι κ) Unit := do
  let s ← getState
  wakeupAll .keyboard WT_KBD (s.queue .keyboard)

def start (current : ι) : Call ι κ → Routine (Kernel ι κ) (Pc κ)
  | .up sem => do
      up sem
      return .running
  | .down sem => do
      let waits ← down current sem
      return if waits then .down sem else .running
  | .tryDown sem => do
      let _ ← tryDown sem
      return .running
  | .sleep time => doSleep current time
  | .read => do
      waitCurrentSet .keyboard current WT_KBD
      return .reading
  | .wait => do
      setState current .sleeping
      setWaitState current WT_CHILD
      return .waiting
  | .exit parents => do
      setState current .zombie
      wakeParents parents
      return .exited

/-- What comes after `schedule`. -/
def resume (current : ι) : Pc κ → Routine (Kernel ι κ) (Pc κ)
  | .down sem => do
      downed current sem
      return .running
  | .sleeping => do
      delTimer current
      return .running
  | .reading => do
      waitCurrentDel .keyboard current
      return .running
  | .waiting => return .running
  | pc => return pc

end Calls

section Steps

abbrev System (ι κ : Type) := Threads ι (Kernel ι κ) (Pc κ)

/-- What an interrupt or another process does to the processes that wait. -/
inductive Event (ι : Type) where
  | kill (proc : ι)
  | timer
  | key

def occur : Event ι → Routine (Kernel ι κ) Unit
  | .kill proc => doKill proc
  | .timer => runTimerList
  | .key => devStdinWrite

/-- A process that is runnable begins a call or goes on with it, `do_fork` wakes a
new process, or something else happens. -/
inductive Step : System ι κ → System ι κ → Prop
  | start {s : System ι κ} {i : ι} {call : Call ι κ} {r : Except Errno (Pc κ)} {t : Kernel ι κ} :
      s.pc i = .running → s.shared.state i = .runnable → start i call s.shared = .ok (r, t) →
        Step s { shared := t, pc := Function.update s.pc i (after .running r) }
  | resume {s : System ι κ} {i : ι} {r : Except Errno (Pc κ)} {t : Kernel ι κ} :
      s.shared.state i = .runnable → resume i (s.pc i) s.shared = .ok (r, t) →
        Step s { shared := t, pc := Function.update s.pc i (after .running r) }
  | born {s : System ι κ} {i : ι} {r : Except Errno Unit} {t : Kernel ι κ} :
      s.pc i = .unborn → wakeupProc i s.shared = .ok (r, t) →
        Step s { shared := t, pc := Function.update s.pc i .running }
  | occur {s : System ι κ} {event : Event ι} {r : Except Errno Unit} {t : Kernel ι κ} :
      occur event s.shared = .ok (r, t) → Step s { s with shared := t }

/-- The semaphores have been initialised with `values`, and each process runs or has
not been started. -/
structure Starts (values : κ → Int) (s : System ι κ) : Prop where
  pc : ∀ i, s.pc i = .running ∧ s.shared.state i = .runnable ∨
    s.pc i = .unborn ∧ s.shared.state i = .uninit
  waitState : ∀ i, s.shared.waitState i = 0
  queue : ∀ q, s.shared.queue q = []
  wait : ∀ i, (s.shared.wait i).linked = false
  value : s.shared.value = values
  timerList : s.shared.timerList = []
  ups : ∀ k, s.shared.ups k = 0
  taken : ∀ k, s.shared.taken k = 0
  queued : ∀ k, s.shared.queued k = []
  handed : ∀ k, s.shared.handed k = []

end Steps

end Ucore.WaitQueues
