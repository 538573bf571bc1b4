import Ucore.Deadlines
import Ucore.KernelRoutine
import Ucore.ListHeader
import Ucore.Processes

/-! The timer list of `sched.c`, with its links and the differences that the timers store. -/

namespace Ucore.TimerList

open Ucore.KernelRoutine
open Ucore.LinkRing
open Ucore.ListHeader
open Ucore.Deadlines
open Ucore.Processes (ProcState WT_INTERRUPTED)

/-- The `timer_t` structures and the processes. The list entry `none` is `timer_list`. -/
structure Timers (τ ι : Type) where
  links : Links (Option τ)
  expires : τ → BitVec 32
  proc : τ → Option ι
  state : ι → ProcState
  waitState : ι → Nat

variable {τ ι : Type} [DecidableEq τ] [DecidableEq ι]

section Operations

def setLinks (f : Links (Option τ) → Links (Option τ)) : Routine (Timers τ ι) Unit :=
  modifyState fun s => { s with links := f s.links }

def setExpires (timer : τ) (v : BitVec 32) : Routine (Timers τ ι) Unit :=
  modifyState fun s => { s with expires := Function.update s.expires timer v }

def listDelInit (l : Links (Option τ)) (listelm : Option τ) : Links (Option τ) :=
  listInit (listDel l listelm) listelm

def timerInit (timer : τ) (proc : ι) (expires : BitVec 32) : Routine (Timers τ ι) Unit :=
  modifyState fun s => { s with
    expires := Function.update s.expires timer expires
    proc := Function.update s.proc timer (some proc)
    links := listInit s.links (some timer) }

/-- The loop of `add_timer`, which finds the entry to add the timer before. -/
def findPlace (timer : τ) : Nat → Option τ → Routine (Timers τ ι) (Option τ)
  | 0, _ => abort .loop
  | _ + 1, none => return none
  | fuel + 1, some next => do
      let s ← getState
      if s.expires timer < s.expires next then
        setExpires next (s.expires next - s.expires timer)
        return some next
      else
        setExpires timer (s.expires timer - s.expires next)
        findPlace timer fuel (listNext s.links (some next))

def addTimer (fuel : Nat) (timer : τ) : Routine (Timers τ ι) Unit := do
  let s ← getState
  ensure (s.expires timer > 0 ∧ (s.proc timer).isSome = true)
  ensure (listEmpty s.links (some timer) = true)
  let le ← findPlace timer fuel (listNext s.links none)
  setLinks fun l => listAddBefore l le (some timer)

/-- `del_timer` where it gives the time of the timer to the next one. -/
def passOn (timer : τ) : Routine (Timers τ ι) Unit := do
  let s ← getState
  if s.expires timer ≠ 0 then
    match listNext s.links (some timer) with
    | none => return ()
    | some next => setExpires next (s.expires next + s.expires timer)
  else
    return ()

def delTimer (timer : τ) : Routine (Timers τ ι) Unit := do
  let s ← getState
  if listEmpty s.links (some timer) = true then
    return ()
  else
    passOn timer
    setLinks fun l => listDelInit l (some timer)

/-- `wakeup_proc`, without the run queue. -/
def wakeupProc (proc : ι) : Routine (Timers τ ι) Unit := do
  let s ← getState
  ensure (s.state proc ≠ .zombie)
  if s.state proc ≠ .runnable then
    modifyState fun s => { s with
      state := Function.update s.state proc .runnable
      waitState := Function.update s.waitState proc 0 }
  else
    return ()

/-- `run_timer_list` where it wakes the process of a timer. -/
def wakeTimer (timer : τ) : Routine (Timers τ ι) Unit := do
  let s ← getState
  match s.proc timer with
  | none => abort .panic
  | some proc =>
      ensure (s.waitState proc ≠ 0 → s.waitState proc &&& WT_INTERRUPTED ≠ 0)
      wakeupProc proc

/-- The loop of `run_timer_list`. It returns the timers of the processes it wakes. -/
def expire : Nat → τ → Routine (Timers τ ι) (List τ)
  | 0, _ => abort .loop
  | fuel + 1, timer => do
      let s ← getState
      if s.expires timer = 0 then
        let le := listNext s.links (some timer)
        wakeTimer timer
        delTimer timer
        match le with
        | none => return [timer]
        | some next => do
            let fired ← expire fuel next
            return timer :: fired
      else
        return []

/-- `run_timer_list` where it is about the timers. -/
def runTimerList (fuel : Nat) : Routine (Timers τ ι) (List τ) := do
  let s ← getState
  match listNext s.links none with
  | none => return []
  | some timer =>
      ensure (s.expires timer ≠ 0)
      setExpires timer (s.expires timer - 1)
      expire fuel timer

end Operations

section Runs

/-- A timer is set up and added, or deleted; a tick; or anything happens to the processes. -/
inductive Op (τ ι : Type) where
  | add (timer : τ) (proc : ι) (expires : BitVec 32)
  | del (timer : τ)
  | tick
  | processes (state : ι → ProcState) (waitState : ι → Nat)

/-- An operation returns the timers that fired in each tick. -/
def perform (fuel : Nat) : Op τ ι → Routine (Timers τ ι) (List (List τ))
  | .add timer proc expires => do
      timerInit timer proc expires
      addTimer fuel timer
      return []
  | .del timer => do
      delTimer timer
      return []
  | .tick => do
      let fired ← runTimerList fuel
      return [fired]
  | .processes state waitState => do
      modifyState fun s => { s with state := state, waitState := waitState }
      return []

def performAll (fuel : Nat) : List (Op τ ι) → Routine (Timers τ ι) (List (List τ))
  | [] => return []
  | op :: ops => do
      let fired ← perform fuel op
      let rest ← performAll fuel ops
      return fired ++ rest

/-- What the operation means for the alarms. -/
def meaning (a : Alarms τ) : Op τ ι → Alarms τ
  | .add timer _ expires => a.set timer expires.toNat
  | .del timer => a.cancel timer
  | .tick => a.tick
  | .processes _ _ => a

def fires (a : Alarms τ) : Op τ ι → List (List τ)
  | .tick => [a.due]
  | _ => []

def allFires (a : Alarms τ) : List (Op τ ι) → List (List τ)
  | [] => []
  | op :: ops => fires a op ++ allFires (meaning a op) ops

/-- A timer is added for at least one tick, and only when it is not in the list; what is
deleted was added before. -/
def Allowed (a : Alarms τ) (known : τ → Prop) : Op τ ι → Prop
  | .add timer _ expires => 0 < expires ∧ timer ∉ a.pending.map Prod.fst
  | .del timer => known timer
  | _ => True

def learn (known : τ → Prop) : Op τ ι → τ → Prop
  | .add timer _ _ => fun x => x = timer ∨ known x
  | _ => known

def AllAllowed (a : Alarms τ) (known : τ → Prop) : List (Op τ ι) → Prop
  | [] => True
  | op :: ops => Allowed a known op ∧ AllAllowed (meaning a op) (learn known op) ops

end Runs

end Ucore.TimerList
