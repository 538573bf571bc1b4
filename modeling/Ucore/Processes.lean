import Ucore.Hash
import Ucore.Segments

/-!
The processes of `kern/process/proc.c`. The kernel switches to another process
only in `schedule`, so a call is cut there into pieces that run without
interruption. Process structures are addresses, and each field of the structure
is a function of the address.
-/

namespace Ucore.Processes

open Ucore.Errors
open Ucore.Hash
open Ucore.KernelRoutine
open Ucore.Interleaving
open Ucore.Segments

inductive ProcState where
  | uninit
  | sleeping
  | runnable
  | zombie
  deriving DecidableEq

def MAX_PROCESS : Nat := 4096

def MAX_PID : Int := 8192

def HASH_SHIFT : Nat := 10

def WT_INTERRUPTED : Nat := 0x80000000

def WT_CHILD : Nat := 0x00000001 ||| WT_INTERRUPTED

def pidHashfn (pid : Int) : Nat := hash32 pid.toNat HASH_SHIFT

/-- A `do_wait` that freed a child: the parent that the child had then, the
process that waited, and the code that it got. -/
structure Reap where
  child : Nat
  parent : Option Nat
  reaper : Nat
  code : Int

/-- The process structures and the variables of `proc.c`. Addresses are given out
one after another, `exits` lists who called `do_exit` with which code. -/
structure Table where
  live : Nat → Bool
  state : Nat → ProcState
  pid : Nat → Int
  waitState : Nat → Nat
  exiting : Nat → Bool
  exitCode : Nat → Int
  parent : Nat → Option Nat
  cptr : Nat → Option Nat
  yptr : Nat → Option Nat
  optr : Nat → Option Nat
  created : Nat
  procList : List Nat
  hashList : Nat → List Nat
  nrProcess : Nat
  lastPid : Int
  nextSafe : Int
  idleproc : Nat
  initproc : Option Nat
  current : Nat
  exits : List (Nat × Int)
  reaps : List Reap

/-- What a process does when it calls the kernel. -/
inductive Call where
  | fork (memory : Bool)
  | exit (code : Int)
  | wait (pid : Int) (valid : Bool)
  | kill (pid : Int)

/-- Where a process is: in none of the calls, in `do_fork` with the structure of
the child, in `do_exit` before it is a zombie, in the `schedule` of `do_wait`, or
in that of `do_exit`. -/
inductive Pc where
  | user
  | forking (child : Nat)
  | exiting (code : Int)
  | waiting (pid : Int)
  | exited
  deriving DecidableEq

section Links

/-- The structure that a pointer points to. -/
def deref (p : Option Nat) : Routine Table Nat := fun s =>
  match p with
  | none => .error .panic
  | some a => if s.live a then .ok (.ok a, s) else .error .panic

def setState (p : Nat) (v : ProcState) : Routine Table Unit :=
  modifyState fun s => { s with state := Function.update s.state p v }

def setWaitState (p : Nat) (v : Nat) : Routine Table Unit :=
  modifyState fun s => { s with waitState := Function.update s.waitState p v }

def setParent (p : Nat) (v : Option Nat) : Routine Table Unit :=
  modifyState fun s => { s with parent := Function.update s.parent p v }

def setCptr (p : Nat) (v : Option Nat) : Routine Table Unit :=
  modifyState fun s => { s with cptr := Function.update s.cptr p v }

def setYptr (p : Nat) (v : Option Nat) : Routine Table Unit :=
  modifyState fun s => { s with yptr := Function.update s.yptr p v }

def setOptr (p : Nat) (v : Option Nat) : Routine Table Unit :=
  modifyState fun s => { s with optr := Function.update s.optr p v }

/-- A store to the `yptr` field behind a pointer, if it is not `NULL`. -/
def setYptrAt (p : Option Nat) (v : Option Nat) : Routine Table Unit := do
  match p with
  | none => return ()
  | some _ =>
      let a ← deref p
      setYptr a v

def setLinks (proc : Nat) : Routine Table Unit := do
  modifyState fun s => { s with procList := proc :: s.procList }
  setYptr proc none
  let s ← getState
  let parent ← deref (s.parent proc)
  setOptr proc (s.cptr parent)
  setYptrAt (s.cptr parent) (some proc)
  setCptr parent (some proc)
  modifyState fun s => { s with nrProcess := s.nrProcess + 1 }

def removeLinks (proc : Nat) : Routine Table Unit := do
  modifyState fun s => { s with procList := s.procList.erase proc }
  let s ← getState
  setYptrAt (s.optr proc) (s.yptr proc)
  let s ← getState
  match s.yptr proc with
  | some _ =>
      let elder ← deref (s.yptr proc)
      setOptr elder (s.optr proc)
  | none =>
      let parent ← deref (s.parent proc)
      setCptr parent (s.optr proc)
  modifyState fun s => { s with nrProcess := s.nrProcess - 1 }

def hashProc (proc : Nat) : Routine Table Unit :=
  modifyState fun s => { s with
    hashList := Function.update s.hashList (pidHashfn (s.pid proc))
      (proc :: s.hashList (pidHashfn (s.pid proc))) }

def unhashProc (proc : Nat) : Routine Table Unit :=
  modifyState fun s => { s with
    hashList := Function.update s.hashList (pidHashfn (s.pid proc))
      ((s.hashList (pidHashfn (s.pid proc))).erase proc) }

/-- The loop of `find_proc`, on the rest of the hash chain. -/
def findFrom (pid : Int) : List Nat → Routine Table (Option Nat)
  | [] => return none
  | p :: rest => do
      let proc ← deref (some p)
      let s ← getState
      if s.pid proc = pid then
        return some proc
      else
        findFrom pid rest

def findProc (pid : Int) : Routine Table (Option Nat) := do
  if 0 < pid ∧ pid < MAX_PID then
    let s ← getState
    findFrom pid (s.hashList (pidHashfn pid))
  else
    return none

/-- One pass of `get_pid` over the process list: `last_pid`, and `next_safe` unless
the pass has to be repeated. -/
def scanPids (pid : Nat → Int) : List Nat → Int → Int → Int × Option Int
  | [], lastPid, nextSafe => (lastPid, some nextSafe)
  | proc :: rest, lastPid, nextSafe =>
      if pid proc = lastPid then
        if lastPid + 1 ≥ nextSafe then
          (if lastPid + 1 ≥ MAX_PID then 1 else lastPid + 1, none)
        else
          scanPids pid rest (lastPid + 1) nextSafe
      else if pid proc > lastPid ∧ nextSafe > pid proc then
        scanPids pid rest lastPid (pid proc)
      else
        scanPids pid rest lastPid nextSafe

/-- `get_pid` from `repeat` on. After as many passes as there are pids, twice over,
there is none that is free. -/
def repeatScan : Nat → Int → Routine Table Int
  | 0, _ => abort .loop
  | fuel + 1, lastPid => do
      let s ← getState
      match scanPids s.pid s.procList lastPid MAX_PID with
      | (lastPid, none) => repeatScan fuel lastPid
      | (lastPid, some nextSafe) =>
          modifyState fun s => { s with lastPid := lastPid, nextSafe := nextSafe }
          return lastPid

def getPid : Routine Table Int := do
  let s ← getState
  if s.lastPid + 1 ≥ MAX_PID then
    repeatScan (2 * MAX_PID.toNat) 1
  else if s.lastPid + 1 ≥ s.nextSafe then
    repeatScan (2 * MAX_PID.toNat) (s.lastPid + 1)
  else
    modifyState fun s => { s with lastPid := s.lastPid + 1 }
    return s.lastPid + 1

def wakeupProc (proc : Nat) : Routine Table Unit := do
  let s ← getState
  ensure (s.state proc ≠ .zombie)
  if s.state proc ≠ .runnable then
    setState proc .runnable
    setWaitState proc 0
  else
    return ()

end Links

section Calls

/-- `alloc_proc` when there is memory for the structure. -/
def allocProc : Routine Table Nat := do
  let s ← getState
  let proc := s.created
  modifyState fun s => { s with
    live := Function.update s.live proc true
    state := Function.update s.state proc .uninit
    pid := Function.update s.pid proc (-1)
    waitState := Function.update s.waitState proc 0
    exiting := Function.update s.exiting proc false
    parent := Function.update s.parent proc none
    cptr := Function.update s.cptr proc none
    yptr := Function.update s.yptr proc none
    optr := Function.update s.optr proc none
    created := proc + 1 }
  return proc

def kfreeProc (proc : Nat) : Routine Table Unit :=
  modifyState fun s => { s with live := Function.update s.live proc false }

/-- `do_fork` up to `setup_kstack`. -/
def doFork (memory : Bool) : Routine Table Pc := do
  let s ← getState
  if s.nrProcess ≥ MAX_PROCESS then
    fail .eNoFreeProc
  else if memory then
    let proc ← allocProc
    setParent proc (some s.current)
    ensure (s.waitState s.current = 0)
    return .forking proc
  else
    fail .eNoMem

/-- `do_fork` once the stack, the files and the memory of the child are set up, or
could not be. -/
def doForked (proc : Nat) (ret : Except Errno Unit) : Routine Table Pc := do
  match ret with
  | .error e =>
      kfreeProc proc
      fail e
  | .ok _ =>
      let pid ← getPid
      modifyState fun s => { s with pid := Function.update s.pid proc pid }
      setLinks proc
      hashProc proc
      wakeupProc proc
      return .user

/-- `do_exit` up to where the memory and the files are given back. -/
def doExit (code : Int) : Routine Table Pc := do
  let s ← getState
  ensure (s.current ≠ s.idleproc)
  ensure (some s.current ≠ s.initproc)
  return .exiting code

/-- The loop of `do_exit` that gives the children to `init`. -/
def reparent : Nat → Routine Table Unit
  | 0 => abort .loop
  | fuel + 1 => do
      let s ← getState
      match s.cptr s.current with
      | none => return ()
      | some _ =>
          let proc ← deref (s.cptr s.current)
          setCptr s.current (s.optr proc)
          setYptr proc none
          let s ← getState
          let init ← deref s.initproc
          setOptr proc (s.cptr init)
          setYptrAt (s.cptr init) (some proc)
          setParent proc (some init)
          setCptr init (some proc)
          if s.state proc = .zombie ∧ s.waitState init = WT_CHILD then
            wakeupProc init
          reparent fuel

/-- `do_exit` from where the process becomes a zombie. -/
def doExited (code : Int) : Routine Table Pc := do
  let s ← getState
  setState s.current .zombie
  modifyState fun s => { s with
    exitCode := Function.update s.exitCode s.current code
    exits := (s.current, code) :: s.exits }
  let parent ← deref (s.parent s.current)
  if s.waitState parent = WT_CHILD then
    wakeupProc parent
  reparent (s.created + 1)
  return .exited

/-- The loop of `do_wait` over the children, from one of them on: whether there are
any, and the first zombie. -/
def findZombie : Nat → Option Nat → Bool → Routine Table (Bool × Option Nat)
  | 0, _, _ => abort .loop
  | _ + 1, none, haskid => return (haskid, none)
  | fuel + 1, some p, _ => do
      let proc ← deref (some p)
      let s ← getState
      if s.state proc = .zombie then
        return (true, some proc)
      else
        findZombie fuel (s.optr proc) true

/-- What `do_wait` looks for: whether the process has such a child, and one that is a
zombie. -/
def findChild (pid : Int) : Routine Table (Bool × Option Nat) := do
  let s ← getState
  if pid ≠ 0 then
    let proc ← findProc pid
    match proc with
    | none => return (false, none)
    | some proc =>
        if s.parent proc = some s.current then
          return (true, if s.state proc = .zombie then some proc else none)
        else
          return (false, none)
  else
    findZombie (s.created + 1) (s.cptr s.current) false

/-- `do_wait` from `found` on. -/
def reap (proc : Nat) : Routine Table Unit := do
  let s ← getState
  ensure (proc ≠ s.idleproc ∧ some proc ≠ s.initproc)
  unhashProc proc
  removeLinks proc
  kfreeProc proc
  modifyState fun s => { s with
    reaps := ⟨proc, s.parent proc, s.current, s.exitCode proc⟩ :: s.reaps }

/-- `do_wait` from `repeat` on. -/
def doWait (pid : Int) : Routine Table Pc := do
  let (haskid, found) ← findChild pid
  match found with
  | some proc =>
      reap proc
      return .user
  | none =>
      if haskid then
        let s ← getState
        setState s.current .sleeping
        setWaitState s.current WT_CHILD
        return .waiting pid
      else
        fail .eBadProc

/-- `do_wait` after `schedule`. -/
def doWaited (pid : Int) : Routine Table Pc := do
  let s ← getState
  if s.exiting s.current then
    doExit (-9)
  else
    doWait pid

def doKill (pid : Int) : Routine Table Unit := do
  let proc ← findProc pid
  match proc with
  | none => fail .eInval
  | some proc =>
      let s ← getState
      if s.exiting proc then
        fail .eKilled
      else
        modifyState fun s => { s with exiting := Function.update s.exiting proc true }
        if s.waitState proc &&& WT_INTERRUPTED ≠ 0 then
          wakeupProc proc

def start : Call → Routine Table Pc
  | .fork memory => doFork memory
  | .exit code => doExit code
  | .wait pid valid => if valid then doWait pid else fail .eInval
  | .kill pid => do
      doKill pid
      return .user

def resume (ret : Except Errno Unit) : Pc → Routine Table Pc
  | .forking child => doForked child ret
  | .exiting code => doExited code
  | .waiting pid => doWaited pid
  | pc => return pc

end Calls

section Steps

abbrev System := Threads Nat Table Pc

/-- The current process begins a call or goes on with it, some other code of the
kernel makes it sleep or wakes a process that sleeps there, or `schedule` picks the
next process. -/
inductive Step : System → System → Prop
  | start {s : System} {call : Call} {r : Except Errno Pc} {t : Table} :
      s.shared.current ≠ s.shared.idleproc → s.shared.state s.shared.current = .runnable →
      s.pc s.shared.current = .user → start call s.shared = .ok (r, t) →
        Step s { shared := t, pc := Function.update s.pc s.shared.current (after .user r) }
  | resume {s : System} {ret : Except Errno Unit} {r : Except Errno Pc} {t : Table} :
      s.shared.state s.shared.current = .runnable →
      resume ret (s.pc s.shared.current) s.shared = .ok (r, t) →
        Step s { shared := t, pc := Function.update s.pc s.shared.current (after .user r) }
  | sleep {s : System} {waitState : Nat} :
      s.shared.current ≠ s.shared.idleproc → s.shared.state s.shared.current = .runnable →
      (∀ pid, s.pc s.shared.current ≠ .waiting pid) → waitState ≠ WT_CHILD →
        Step s { s with shared := { s.shared with
          state := Function.update s.shared.state s.shared.current .sleeping
          waitState := Function.update s.shared.waitState s.shared.current waitState } }
  | wakeup {s : System} {proc : Nat} {r : Except Errno Unit} {t : Table} :
      s.shared.live proc = true → s.shared.state proc = .sleeping →
      s.shared.waitState proc ≠ WT_CHILD → wakeupProc proc s.shared = .ok (r, t) →
        Step s { s with shared := t }
  | schedule {s : System} {next : Nat} :
      next = s.shared.idleproc ∨ s.shared.live next = true ∧ s.shared.state next = .runnable →
        Step s { s with shared := { s.shared with current := next } }

/-- No process structure yet. -/
def noProcess : Table where
  live := fun _ => false
  state := fun _ => .uninit
  pid := fun _ => -1
  waitState := fun _ => 0
  exiting := fun _ => false
  exitCode := fun _ => 0
  parent := fun _ => none
  cptr := fun _ => none
  yptr := fun _ => none
  optr := fun _ => none
  created := 0
  procList := []
  hashList := fun _ => []
  nrProcess := 0
  lastPid := MAX_PID
  nextSafe := MAX_PID
  idleproc := 0
  initproc := none
  current := 0
  exits := []
  reaps := []

def procInit : Routine Table Unit := do
  let idleproc ← allocProc
  modifyState fun s => { s with
    pid := Function.update s.pid idleproc 0
    state := Function.update s.state idleproc .runnable
    nrProcess := s.nrProcess + 1
    idleproc := idleproc
    current := idleproc }
  let pc ← doFork true
  match pc with
  | .forking child =>
      let _ ← doForked child (.ok ())
      let s ← getState
      let initproc ← findProc (s.pid child)
      modifyState fun s => { s with initproc := initproc }
  | _ => abort .panic

/-- The system after `proc_init`: each process is in none of the calls. -/
def Boots (s : System) : Prop :=
  procInit noProcess = .ok (.ok (), s.shared) ∧ s.pc = fun _ => .user

end Steps

end Ucore.Processes
