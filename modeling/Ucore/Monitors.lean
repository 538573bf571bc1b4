import Ucore.MonitorTokens
import Ucore.SemaphoreUnits

/-!
The monitors of `monitor.c`, used by any number of processes whose procedures begin
with `down(mutex)` and end by waking a process that has signalled, or else with
`up(mutex)`. A process may be preempted between any two calls of `up` and `down`.
-/

namespace Ucore.Monitors

open Relation
open Ucore.Errors
open Ucore.Panic
open Ucore.KernelRoutine
open Ucore.Interleaving
open Ucore.Processes (ProcState)
open Ucore.WaitQueues
open Ucore.Semaphores
open Ucore.SemaphoreUnits
open Ucore.MonitorTokens

/-- The semaphores of the monitor, and all others. -/
abbrev Sem (γ ο : Type) := Key γ ⊕ ο

/-- A `monitor_t`; `count` is the one of each of its condition variables. -/
structure Monitor (ι γ ο : Type) where
  kernel : Kernel ι (Sem γ ο)
  nextCount : Int
  count : γ → Int

/-- Where a process is in the monitor, and where it sleeps. -/
abbrev At (γ ο : Type) := Place γ × Pc (Sem γ ο)

/-- What a process calls, from outside or from inside of the monitor. -/
inductive Procedure (γ : Type) where
  | enter
  | leave
  | wait (cvp : γ)
  | signal (cvp : γ)

variable {ι γ ο α : Type} [DecidableEq ι] [DecidableEq γ] [DecidableEq ο]

section Procedures

def onKernel : Routine (Kernel ι (Sem γ ο)) α → Routine (Monitor ι γ ο) α :=
  onPart Monitor.kernel fun kernel s => { s with kernel := kernel }

def addNextCount (d : Int) : Routine (Monitor ι γ ο) Unit :=
  modifyState fun s => { s with nextCount := s.nextCount + d }

def addCount (cvp : γ) (d : Int) : Routine (Monitor ι γ ο) Unit :=
  modifyState fun s => { s with count := Function.update s.count cvp (s.count cvp + d) }

def enter (current : ι) : Routine (Monitor ι γ ο) (At γ ο) := do
  let waits ← onKernel (down current (.inl .mutex))
  return if waits then (.entering, .down (.inl .mutex)) else (.active, .running)

/-- What the procedures of a monitor end with, and what `cond_wait` begins with. -/
def release : Routine (Monitor ι γ ο) Unit := do
  let s ← getState
  if s.nextCount > 0 then
    onKernel (up (.inl .next))
  else
    onKernel (up (.inl .mutex))

def leave : Routine (Monitor ι γ ο) (At γ ο) := do
  release
  return (.outside, .running)

/-- `cond_wait` up to `down`. -/
def condWait (cvp : γ) : Routine (Monitor ι γ ο) (At γ ο) := do
  addCount cvp 1
  release
  return (.released cvp, .running)

/-- `cond_wait` after `down`. -/
def condWaited (cvp : γ) : Routine (Monitor ι γ ο) (At γ ο) := do
  addCount cvp (-1)
  return (.active, .running)

def condWaitDown (current : ι) (cvp : γ) : Routine (Monitor ι γ ο) (At γ ο) := do
  let waits ← onKernel (down current (.inl (.cv cvp)))
  if waits then
    return (.waiting cvp, .down (.inl (.cv cvp)))
  else
    condWaited cvp

/-- `cond_signal` up to `down`. -/
def condSignal (cvp : γ) : Routine (Monitor ι γ ο) (At γ ο) := do
  let s ← getState
  if s.count cvp > 0 then
    addNextCount 1
    onKernel (up (.inl (.cv cvp)))
    return (.signalled cvp, .running)
  else
    return (.active, .running)

/-- `cond_signal` after `down`. -/
def condSignalled : Routine (Monitor ι γ ο) (At γ ο) := do
  addNextCount (-1)
  return (.active, .running)

def condSignalDown (current : ι) (cvp : γ) : Routine (Monitor ι γ ο) (At γ ο) := do
  let waits ← onKernel (down current (.inl .next))
  if waits then
    return (.signalling cvp, .down (.inl .next))
  else
    condSignalled

def call (current : ι) : Procedure γ → Routine (Monitor ι γ ο) (At γ ο)
  | .enter => enter current
  | .leave => leave
  | .wait cvp => condWait cvp
  | .signal cvp => condSignal cvp

/-- A procedure goes on, after it was preempted or has slept. -/
def proceed (current : ι) : Place γ → Routine (Monitor ι γ ο) (At γ ο)
  | .entering => do
      onKernel (downed current (.inl .mutex))
      return (.active, .running)
  | .released cvp => condWaitDown current cvp
  | .waiting cvp => do
      onKernel (downed current (.inl (.cv cvp)))
      condWaited cvp
  | .signalled cvp => condSignalDown current cvp
  | .signalling _ => do
      onKernel (downed current (.inl .next))
      condSignalled
  | place => return (place, .running)

/-- Where a process is after it has called a procedure. -/
def Procedure.To : Procedure γ → Place γ → Prop
  | .enter, place => place = .entering ∨ place = .active
  | .leave, place => place = .outside
  | .wait cvp, place => place = .released cvp
  | .signal cvp, place => place = .signalled cvp ∨ place = .active

theorem call_to {i : ι} {procedure : Procedure γ} {s t : Monitor ι γ ο} {x : At γ ο}
    (h : call i procedure s = .ok (.ok x, t)) : procedure.To x.1 := by
  cases procedure with
  | enter =>
      rw [call, enter] at h
      rcases bind_eq_ok_iff.mp h with ⟨waits, u, _, hrest⟩ | ⟨e, _, herror⟩
      · cases waits with
        | false =>
            cases hrest
            exact Or.inr rfl
        | true =>
            cases hrest
            exact Or.inl rfl
      · cases herror
  | leave =>
      rw [call, leave] at h
      rcases bind_eq_ok_iff.mp h with ⟨_, u, _, hrest⟩ | ⟨e, _, herror⟩
      · cases hrest
        rfl
      · cases herror
  | wait c =>
      have h' : (release >>= fun _ => pure (Place.released c, Pc.running))
          { s with count := Function.update s.count c (s.count c + 1) } = .ok (.ok x, t) := h
      rcases bind_eq_ok_iff.mp h' with ⟨_, u, _, hrest⟩ | ⟨e, _, herror⟩
      · cases hrest
        rfl
      · cases herror
  | signal c =>
      rw [call, condSignal, getState_bind] at h
      split at h
      · have h' : (onKernel (up (.inl (.cv c))) >>= fun _ =>
            pure (Place.signalled c, Pc.running))
            { s with nextCount := s.nextCount + 1 } = .ok (.ok x, t) := h
        rcases bind_eq_ok_iff.mp h' with ⟨_, u, _, hrest⟩ | ⟨e, _, herror⟩
        · cases hrest
          exact Or.inl rfl
        · cases herror
      · cases h
        exact Or.inr rfl

end Procedures

section Steps

abbrev System (ι γ ο : Type) := Threads ι (Monitor ι γ ο) (At γ ο)

/-- The place that a procedure is called from. -/
def Procedure.from : Procedure γ → Place γ
  | .enter => .outside
  | _ => .active

/-- The process is in none of the procedures: it may do something else. -/
def Place.free : Place γ → Bool
  | .outside => true
  | .active => true
  | _ => false

/-- What a process may do otherwise; it does not exit inside of the monitor. -/
def Permitted (place : Place γ) : WaitQueues.Call ι (Sem γ ο) → Prop
  | .up (.inr _) => True
  | .down (.inr _) => True
  | .tryDown (.inr _) => True
  | .exit _ => place = .outside
  | call => Apart call

inductive Step : System ι γ ο → System ι γ ο → Prop
  | call {s : System ι γ ο} {i : ι} {procedure : Procedure γ} {x : At γ ο} {t : Monitor ι γ ο} :
      s.pc i = (procedure.from, .running) → s.shared.kernel.state i = .runnable →
      call i procedure s.shared = .ok (.ok x, t) →
        Step s { shared := t, pc := Function.update s.pc i x }
  | proceed {s : System ι γ ο} {i : ι} {x : At γ ο} {t : Monitor ι γ ο} :
      Place.free (s.pc i).1 = false → s.shared.kernel.state i = .runnable →
      proceed i (s.pc i).1 s.shared = .ok (.ok x, t) →
        Step s { shared := t, pc := Function.update s.pc i x }
  | start {s : System ι γ ο} {i : ι} {place : Place γ} {call : WaitQueues.Call ι (Sem γ ο)}
      {pc : Pc (Sem γ ο)} {t : Monitor ι γ ο} :
      s.pc i = (place, .running) → Place.free place = true → Permitted place call →
      s.shared.kernel.state i = .runnable → onKernel (start i call) s.shared = .ok (.ok pc, t) →
        Step s { shared := t, pc := Function.update s.pc i (place, pc) }
  | resume {s : System ι γ ο} {i : ι} {place : Place γ} {pc pc' : Pc (Sem γ ο)}
      {t : Monitor ι γ ο} :
      s.pc i = (place, pc) → Place.free place = true → s.shared.kernel.state i = .runnable →
      onKernel (resume i pc) s.shared = .ok (.ok pc', t) →
        Step s { shared := t, pc := Function.update s.pc i (place, pc') }
  | born {s : System ι γ ο} {i : ι} {t : Monitor ι γ ο} :
      s.pc i = (.outside, .unborn) → onKernel (wakeupProc i) s.shared = .ok (.ok (), t) →
        Step s { shared := t, pc := Function.update s.pc i (.outside, .running) }
  | occur {s : System ι γ ο} {event : Event ι} {r : Except Errno Unit} {t : Monitor ι γ ο} :
      onKernel (occur event) s.shared = .ok (r, t) → Step s { s with shared := t }

/-- `monitor_init`: the monitor is open, and nobody waits. -/
def initial (others : ο → Int) : Sem γ ο → Int
  | .inl .mutex => 1
  | .inl _ => 0
  | .inr k => others k

/-- What the kernel knows of the processes. -/
def System.threads (s : System ι γ ο) : WaitQueues.System ι (Sem γ ο) where
  shared := s.shared.kernel
  pc := fun i => (s.pc i).2

structure Starts (others : ο → Int) (s : System ι γ ο) : Prop where
  threads : WaitQueues.Starts (initial others) s.threads
  place : ∀ i, (s.pc i).1 = .outside
  nextCount : s.shared.nextCount = 0
  count : ∀ c, s.shared.count c = 0

end Steps

section Units

omit [DecidableEq γ] [DecidableEq ο] [DecidableEq ι] in
theorem onKernel_of {x : Routine (Kernel ι (Sem γ ο)) α} {s : Monitor ι γ ο}
    {r : Except Errno α} {k : Kernel ι (Sem γ ο)} (h : x s.kernel = .ok (r, k)) :
    onKernel x s = .ok (r, { s with kernel := k }) :=
  onPart_of h

variable [Fintype ι]

/-- The units of the semaphores of the monitor. -/
def keyUnits (kernel : Kernel ι (Sem γ ο)) (pc : ι → Pc (Sem γ ο)) (k : Key γ) : Int :=
  units kernel pc (.inl k)

variable {kernel kernel' : Kernel ι (Sem γ ο)} {pc pc' : ι → Pc (Sem γ ο)} {k : Key γ}

omit [DecidableEq ι] in
theorem keyUnits_update {v : Int}
    (h : units kernel' pc' = Function.update (units kernel pc) (.inl k) v) :
    keyUnits kernel' pc' = Function.update (keyUnits kernel pc) k v := by
  funext l
  rw [keyUnits, h]
  rcases eq_or_ne l k with rfl | hne
  · rw [Function.update_self, Function.update_self]
  · rw [Function.update_of_ne hne, Function.update_of_ne (by simpa using hne)]
    rfl

omit [DecidableEq ι] in
theorem keyUnits_congr (h : units kernel' pc' = units kernel pc) :
    keyUnits kernel' pc' = keyUnits kernel pc := by
  funext l
  rw [keyUnits, h]
  rfl

end Units

section Refinement

variable [Fintype ι]

/-- The place that goes with where the process sleeps. -/
def Agrees : At γ ο → Prop
  | (.outside, pc) => ∀ k, pc ≠ .down (.inl k)
  | (.active, pc) => ∀ k, pc ≠ .down (.inl k)
  | (.entering, pc) => pc = .down (.inl .mutex)
  | (.released _, pc) => pc = .running
  | (.waiting c, pc) => pc = .down (.inl (.cv c))
  | (.signalled _, pc) => pc = .running
  | (.signalling _, pc) => pc = .down (.inl .next)

/-- The units of the monitor, and who may take them. -/
def System.tokens (s : System ι γ ο) : Tokens ι γ where
  place := fun i => (s.pc i).1
  units := keyUnits s.shared.kernel fun i => (s.pc i).2
  nextCount := s.shared.nextCount
  count := s.shared.count

/-- The kernel keeps its part, and the monitor makes the move that it may. -/
structure Refines (others : ο → Int) (s : System ι γ ο) (i : ι) (s' : System ι γ ο) : Prop where
  threads : Semaphores.Sound (initial others) s'.shared.kernel fun i => (s'.pc i).2
  agrees : ∀ i, Agrees (s'.pc i)
  passes : Pass s.tokens i s'.tokens ∨ s'.tokens = s.tokens

variable {others : ο → Int} {s s' : System ι γ ο} {i : ι} {k : Key γ} {t : Monitor ι γ ο}

omit [DecidableEq γ] [DecidableEq ο] [Fintype ι] in
theorem places_update (f : ι → At γ ο) (i : ι) (x : At γ ο) :
    (fun j => (Function.update f i x j).1) = Function.update (fun j => (f j).1) i x.1 := by
  funext j
  rcases eq_or_ne j i with rfl | hne
  · rw [Function.update_self, Function.update_self]
  · rw [Function.update_of_ne hne, Function.update_of_ne hne]

omit [DecidableEq γ] [DecidableEq ο] [Fintype ι] in
theorem pcs_update (f : ι → At γ ο) (i : ι) (x : At γ ο) :
    (fun j => (Function.update f i x j).2) = Function.update (fun j => (f j).2) i x.2 := by
  funext j
  rcases eq_or_ne j i with rfl | hne
  · rw [Function.update_self, Function.update_self]
  · rw [Function.update_of_ne hne, Function.update_of_ne hne]

omit [DecidableEq γ] [DecidableEq ο] [Fintype ι] in
theorem agrees_update (h : ∀ j, Agrees (s.pc j)) {x : At γ ο} (hx : Agrees x) (j : ι) :
    Agrees (Function.update s.pc i x j) := by
  rcases eq_or_ne j i with rfl | hne
  · rwa [Function.update_self]
  · rw [Function.update_of_ne hne]
    exact h j

/-- What is to be shown of a step of one process. -/
theorem refines_of {x : At γ ο} (hagrees : ∀ j, Agrees (s.pc j)) (hx : Agrees x)
    (hthreads : Semaphores.Sound (initial others) t.kernel
      (Function.update (fun j => (s.pc j).2) i x.2)) {u : Key γ → Int}
    (hunits : keyUnits t.kernel (Function.update (fun j => (s.pc j).2) i x.2) = u)
    (hpass : Pass s.tokens i ⟨Function.update s.tokens.place i x.1, u, t.nextCount, t.count⟩ ∨
      ⟨Function.update s.tokens.place i x.1, u, t.nextCount, t.count⟩ = s.tokens) :
    Refines others s i { shared := t, pc := Function.update s.pc i x } := by
  refine ⟨?_, agrees_update hagrees hx, ?_⟩
  · show Semaphores.Sound (initial others) t.kernel fun j => (Function.update s.pc i x j).2
    rwa [pcs_update]
  · have htokens : System.tokens { shared := t, pc := Function.update s.pc i x } =
        ⟨Function.update s.tokens.place i x.1, u, t.nextCount, t.count⟩ := by
      rw [System.tokens, places_update, pcs_update, hunits]
      rfl
    rw [htokens]
    exact hpass

theorem release_of (hthreads : Semaphores.Sound (initial others) s.shared.kernel fun i => (s.pc i).2)
    {m : Monitor ι γ ο} (hkernel : m.kernel = s.shared.kernel)
    (hnext : m.nextCount = s.shared.nextCount) :
    ∃ kernel, release m = .ok (.ok (), { m with kernel := kernel }) ∧
      Semaphores.Sound (initial others) kernel (fun i => (s.pc i).2) ∧
      keyUnits kernel (fun i => (s.pc i).2) = s.tokens.give s.tokens.exit := by
  rcases Decidable.em (m.nextCount > 0) with hpos | hnone
  · obtain ⟨kernel, hup, hsound, hreleased⟩ := up_of hthreads (.inl .next)
    refine ⟨kernel, ?_, hsound, ?_⟩
    · rw [release, getState_bind, if_pos hpos]
      rw [← hkernel] at hup
      exact onKernel_of hup
    · have hexit : s.tokens.exit = .next := by
        rw [Tokens.exit, if_pos]
        rwa [hnext] at hpos
      rw [hexit]
      exact keyUnits_update (units_released hreleased)
  · obtain ⟨kernel, hup, hsound, hreleased⟩ := up_of hthreads (.inl .mutex)
    refine ⟨kernel, ?_, hsound, ?_⟩
    · rw [release, getState_bind, if_neg hnone]
      rw [← hkernel] at hup
      exact onKernel_of hup
    · have hexit : s.tokens.exit = .mutex := by
        rw [Tokens.exit, if_neg]
        rwa [hnext] at hnone
      rw [hexit]
      exact keyUnits_update (units_released hreleased)

/-- A signal for which there is one who waits. -/
theorem condSignal_of
    (hthreads : Semaphores.Sound (initial others) s.shared.kernel fun i => (s.pc i).2)
    {c : γ} (hpos : 0 < s.shared.count c) :
    ∃ kernel, condSignal c s.shared = .ok (.ok (.signalled c, .running), { s.shared with
        kernel := kernel
        nextCount := s.shared.nextCount + 1 }) ∧
      Semaphores.Sound (initial others) kernel (fun i => (s.pc i).2) ∧
      keyUnits kernel (fun i => (s.pc i).2) = s.tokens.give (.cv c) := by
  obtain ⟨kernel, hup, hsound, hreleased⟩ := up_of hthreads (.inl (.cv c))
  refine ⟨kernel, ?_, hsound, keyUnits_update (units_released hreleased)⟩
  let m : Monitor ι γ ο := { s.shared with nextCount := s.shared.nextCount + 1 }
  have hrest : condSignal c s.shared =
      (onKernel (up (.inl (.cv c))) >>= fun _ => pure (Place.signalled c, Pc.running)) m := by
    rw [condSignal, getState_bind, if_pos hpos]
    rfl
  rw [hrest, bind_of_ok (onKernel_of (s := m) hup)]
  rfl

theorem refines_call (hthreads : Semaphores.Sound (initial others) s.shared.kernel fun i => (s.pc i).2)
    (hagrees : ∀ j, Agrees (s.pc j)) {procedure : Procedure γ} {x : At γ ο}
    (hpc : s.pc i = (procedure.from, .running))
    (hcall : call i procedure s.shared = .ok (.ok x, t)) :
    Refines others s i { shared := t, pc := Function.update s.pc i x } := by
  have hrun : (fun j => (s.pc j).2) i = .running := by
    show (s.pc i).2 = _
    rw [hpc]
  have hplace : s.tokens.place i = procedure.from := by
    show (s.pc i).1 = _
    rw [hpc]
  have hnotDown : ∀ k : Key γ, (Pc.running : Pc (Sem γ ο)) ≠ .down (.inl k) := by simp
  have hstay := update_running (f := fun j => (s.pc j).2) hrun
  cases procedure with
  | enter =>
      obtain ⟨waits, kernel, hdown, hsound, hacquired⟩ := down_of hthreads hrun (.inl .mutex)
      rw [call, enter, bind_of_ok (onKernel_of hdown)] at hcall
      cases hcall
      cases waits with
      | false =>
          have hunits : keyUnits kernel (Function.update (fun j => (s.pc j).2) i .running) =
              s.tokens.take .mutex := by
            rw [hstay]
            exact keyUnits_update (units_taken hacquired)
          have hpos : 0 < s.tokens.units .mutex := by
            cases hacquired with
            | taken hpos _ _ => exact lt_of_lt_of_le hpos (value_le_units hthreads.placed _)
          show Refines others s i ⟨_, Function.update s.pc i (.active, .running)⟩
          exact refines_of hagrees hnotDown hsound hunits (Or.inl (Pass.enter (Or.inl hplace) hpos))
      | true =>
          show Refines others s i ⟨_, Function.update s.pc i (.entering, .down (.inl .mutex))⟩
          refine refines_of hagrees rfl hsound (keyUnits_congr (units_queued hacquired hrun)) (Or.inl ?_)
          exact Pass.ask hplace
  | leave =>
      obtain ⟨kernel, hrelease, hsound, hunits⟩ := release_of (m := s.shared) hthreads rfl rfl
      rw [call, leave, bind_of_ok hrelease] at hcall
      cases hcall
      refine refines_of hagrees hnotDown ?_ ?_ (Or.inl (Pass.leave hplace))
      · show Semaphores.Sound _ kernel (Function.update _ i .running)
        rwa [hstay]
      · show keyUnits kernel (Function.update _ i .running) = _
        rw [hstay]
        exact hunits
  | wait c =>
      let m : Monitor ι γ ο := { s.shared with
        count := Function.update s.shared.count c (s.shared.count c + 1) }
      obtain ⟨kernel, hrelease, hsound, hunits⟩ := release_of (m := m) hthreads rfl rfl
      have hrest : call i (.wait c) s.shared =
          (release >>= fun _ => pure (Place.released c, Pc.running)) m := rfl
      rw [hrest, bind_of_ok hrelease] at hcall
      cases hcall
      refine refines_of hagrees rfl ?_ ?_ (Or.inl (Pass.wait hplace))
      · show Semaphores.Sound _ kernel (Function.update _ i .running)
        rwa [hstay]
      · show keyUnits kernel (Function.update _ i .running) = _
        rw [hstay]
        exact hunits
  | signal c =>
      rcases Decidable.em (s.shared.count c > 0) with hpos | hnone
      · obtain ⟨kernel, hsignal, hsound, hunits⟩ := condSignal_of hthreads hpos
        cases hsignal.symm.trans hcall
        refine refines_of hagrees rfl ?_ ?_ (Or.inl (Pass.signal hplace hpos))
        · show Semaphores.Sound _ kernel (Function.update _ i .running)
          rwa [hstay]
        · show keyUnits kernel (Function.update _ i .running) = _
          rw [hstay]
          exact hunits
      · rw [call, condSignal, getState_bind, if_neg hnone] at hcall
        cases hcall
        refine refines_of hagrees hnotDown ?_ rfl (Or.inr ?_)
        · show Semaphores.Sound _ s.shared.kernel (Function.update _ i .running)
          rwa [hstay]
        · have hinside : Function.update s.tokens.place i .active = s.tokens.place := by
            have hactive : s.tokens.place i = .active := hplace
            rw [← hactive, Function.update_eq_self]
          rw [hinside, hstay]
          rfl

/-- The two ways on from `down`: at once, and later. -/
theorem downed_refines
    (hthreads : Semaphores.Sound (initial others) s.shared.kernel fun i => (s.pc i).2)
    (hplace : (s.pc i).2 = .down (.inl k)) (hrun : s.shared.kernel.state i = .runnable) :
    onKernel (downed i (.inl k)) s.shared = .ok (.ok (), s.shared) ∧
      Semaphores.Sound (initial others) s.shared.kernel
        (Function.update (fun j => (s.pc j).2) i .running) ∧
      keyUnits s.shared.kernel (Function.update (fun j => (s.pc j).2) i .running) =
        s.tokens.take k ∧ 0 < s.tokens.units k := by
  have hplace' : (fun j => (s.pc j).2) i = .down (.inl k) := hplace
  obtain ⟨hdowned, hout, hsound⟩ := downed_of hthreads hplace' hrun
  refine ⟨onKernel_of hdowned, hsound, keyUnits_update (units_back hplace'), ?_⟩
  exact lt_of_le_of_lt (hthreads.counted.nonneg _) (value_lt_units hthreads.placed hplace' (hout _))

theorem refines_proceed
    (hthreads : Semaphores.Sound (initial others) s.shared.kernel fun i => (s.pc i).2)
    (hagrees : ∀ j, Agrees (s.pc j)) {x : At γ ο} (hfree : Place.free (s.pc i).1 = false)
    (hrun : s.shared.kernel.state i = .runnable)
    (hproceed : proceed i (s.pc i).1 s.shared = .ok (.ok x, t)) :
    Refines others s i { shared := t, pc := Function.update s.pc i x } := by
  have hnotDown : ∀ k : Key γ, (Pc.running : Pc (Sem γ ο)) ≠ .down (.inl k) := by simp
  have hat := hagrees i
  rcases hpc : s.pc i with ⟨place, pc⟩
  rw [hpc] at hat hfree hproceed
  have hplace : s.tokens.place i = place := by
    show (s.pc i).1 = _
    rw [hpc]
  have hsnd : (s.pc i).2 = pc := by
    rw [hpc]
  cases place with
  | outside | active => cases hfree
  | entering =>
      have hdown : pc = .down (.inl .mutex) := hat
      obtain ⟨hdowned, hsound, hunits, hpos⟩ := downed_refines hthreads (hsnd.trans hdown) hrun
      rw [proceed, bind_of_ok hdowned] at hproceed
      cases hproceed
      exact refines_of hagrees hnotDown hsound hunits (Or.inl (Pass.enter (Or.inr hplace) hpos))
  | waiting c =>
      have hdown : pc = .down (.inl (.cv c)) := hat
      obtain ⟨hdowned, hsound, hunits, hpos⟩ := downed_refines hthreads (hsnd.trans hdown) hrun
      rw [proceed, bind_of_ok hdowned] at hproceed
      cases hproceed
      exact refines_of hagrees hnotDown hsound hunits (Or.inl (Pass.waited (Or.inr hplace) hpos))
  | signalling c =>
      have hdown : pc = .down (.inl .next) := hat
      obtain ⟨hdowned, hsound, hunits, hpos⟩ := downed_refines hthreads (hsnd.trans hdown) hrun
      rw [proceed, bind_of_ok hdowned] at hproceed
      cases hproceed
      exact refines_of hagrees hnotDown hsound hunits (Or.inl (Pass.resume (Or.inr hplace) hpos))
  | released c =>
      have hrunning : (fun j => (s.pc j).2) i = .running := hsnd.trans hat
      have hstay := update_running (f := fun j => (s.pc j).2) hrunning
      obtain ⟨waits, kernel, hdown, hsound, hacquired⟩ :=
        down_of hthreads hrunning (.inl (.cv c))
      rw [proceed, condWaitDown, bind_of_ok (onKernel_of hdown)] at hproceed
      cases waits with
      | false =>
          cases hproceed
          have hunits : keyUnits kernel (Function.update (fun j => (s.pc j).2) i .running) =
              s.tokens.take (.cv c) := by
            rw [hstay]
            exact keyUnits_update (units_taken hacquired)
          have hpos : 0 < s.tokens.units (.cv c) := by
            cases hacquired with
            | taken hpos _ _ => exact lt_of_lt_of_le hpos (value_le_units hthreads.placed _)
          exact refines_of hagrees hnotDown hsound hunits
            (Or.inl (Pass.waited (Or.inl hplace) hpos))
      | true =>
          cases hproceed
          exact refines_of hagrees rfl hsound (keyUnits_congr (units_queued hacquired hrunning))
            (Or.inl (Pass.sleep hplace))
  | signalled c =>
      have hrunning : (fun j => (s.pc j).2) i = .running := hsnd.trans hat
      have hstay := update_running (f := fun j => (s.pc j).2) hrunning
      obtain ⟨waits, kernel, hdown, hsound, hacquired⟩ := down_of hthreads hrunning (.inl .next)
      rw [proceed, condSignalDown, bind_of_ok (onKernel_of hdown)] at hproceed
      cases waits with
      | false =>
          cases hproceed
          have hunits : keyUnits kernel (Function.update (fun j => (s.pc j).2) i .running) =
              s.tokens.take .next := by
            rw [hstay]
            exact keyUnits_update (units_taken hacquired)
          have hpos : 0 < s.tokens.units .next := by
            cases hacquired with
            | taken hpos _ _ => exact lt_of_lt_of_le hpos (value_le_units hthreads.placed _)
          exact refines_of hagrees hnotDown hsound hunits
            (Or.inl (Pass.resume (Or.inl hplace) hpos))
      | true =>
          cases hproceed
          exact refines_of hagrees rfl hsound (keyUnits_congr (units_queued hacquired hrunning))
            (Or.inl (Pass.suspend hplace))

/-- A process that is in none of the procedures does something else. -/
theorem refines_apart
    (hagrees : ∀ j, Agrees (s.pc j)) {place : Place γ} {pc pc' : Pc (Sem γ ο)}
    {kernel : Kernel ι (Sem γ ο)} (hpc : s.pc i = (place, pc)) (hfree : Place.free place = true)
    (hthreads : Semaphores.Sound (initial others) kernel
      (Function.update (fun j => (s.pc j).2) i pc'))
    (hvalue : ∀ k, kernel.value (.inl k) = s.shared.kernel.value (.inl k))
    (hqueue : ∀ k, kernel.queue (.sem (.inl k)) = s.shared.kernel.queue (.sem (.inl k)))
    (hnew : ∀ k, pc' ≠ .down (.inl k)) :
    Refines others s i ⟨{ s.shared with kernel := kernel }, Function.update s.pc i (place, pc')⟩ := by
  have hat := hagrees i
  rw [hpc] at hat
  have hold : ∀ k, (fun j => (s.pc j).2) i ≠ .down (.inl k) := by
    intro k
    show (s.pc i).2 ≠ _
    rw [hpc]
    cases place with
    | outside | active => exact hat k
    | entering | released | waiting | signalled | signalling => cases hfree
  have hx : Agrees (place, pc') := by
    cases place with
    | outside | active => exact hnew
    | entering | released | waiting | signalled | signalling => cases hfree
  have hunits : keyUnits kernel (Function.update (fun j => (s.pc j).2) i pc') =
      keyUnits s.shared.kernel fun j => (s.pc j).2 := by
    funext k
    exact units_apart (hvalue k) (hqueue k) (hold k) (hnew k)
  refine refines_of hagrees hx hthreads hunits (Or.inr ?_)
  have hstay : Function.update s.tokens.place i place = s.tokens.place := by
    have hplace : s.tokens.place i = place := by
      show (s.pc i).1 = _
      rw [hpc]
    rw [← hplace, Function.update_eq_self]
  show (⟨Function.update s.tokens.place i place, _, _, _⟩ : Tokens ι γ) = _
  rw [hstay]
  rfl

omit [DecidableEq γ] [DecidableEq ο] [Fintype ι] [DecidableEq ι] in
/-- What a step of the kernel leaves in the monitor. -/
theorem onKernel_eq_ok {x : Routine (Kernel ι (Sem γ ο)) α} {m m' : Monitor ι γ ο}
    {r : Except Errno α} (h : onKernel x m = .ok (r, m')) :
    ∃ kernel, x m.kernel = .ok (r, kernel) ∧ m' = { m with kernel := kernel } :=
  onPart_eq_ok h

theorem refines_start
    (hthreads : Semaphores.Sound (initial others) s.shared.kernel fun i => (s.pc i).2)
    (hagrees : ∀ j, Agrees (s.pc j)) {place : Place γ} {call : WaitQueues.Call ι (Sem γ ο)}
    {pc : Pc (Sem γ ο)} (hpc : s.pc i = (place, .running)) (hfree : Place.free place = true)
    (hcall : Permitted place call) (hstart : onKernel (start i call) s.shared = .ok (.ok pc, t)) :
    Refines others s i { shared := t, pc := Function.update s.pc i (place, pc) } := by
  obtain ⟨kernel, hkernel, rfl⟩ := onKernel_eq_ok hstart
  have hrun : (fun j => (s.pc j).2) i = .running := by
    show (s.pc i).2 = _
    rw [hpc]
  have hstay := update_running (f := fun j => (s.pc j).2) hrun
  have hapart : Apart call → Refines others s i
      ⟨{ s.shared with kernel := kernel }, Function.update s.pc i (place, pc)⟩ := by
    intro hcall
    obtain ⟨pc', kernel', hstart', hsound, hsame, hnew⟩ := start_of_apart hthreads hrun hcall
    cases hstart'.symm.trans hkernel
    exact refines_apart hagrees hpc hfree hsound (fun k => by rw [hsame.value])
      (fun k => hsame.queue _) fun k => hnew _
  cases call with
  | sleep | read | wait | exit => exact hapart trivial
  | up sem =>
      cases sem with
      | inl k => exact absurd hcall id
      | inr o =>
          obtain ⟨kernel', hup, hsound, hreleased⟩ := up_of hthreads (.inr o)
          rw [start, bind_of_ok hup] at hkernel
          cases hkernel
          have hsound' : Semaphores.Sound (initial others) kernel
              (Function.update (fun j => (s.pc j).2) i .running) := by
            rwa [hstay]
          refine refines_apart hagrees hpc hfree hsound' ?_ ?_ (by simp)
          · intro k
            cases hreleased with
            | kept _ hvalue _ => rw [hvalue, Function.update_of_ne (by simp)]
            | handed _ _ _ hvalue _ => rw [hvalue]
          · intro k
            cases hreleased with
            | kept _ _ hqueue => rw [hqueue]
            | handed _ _ _ _ hqueue => rw [hqueue, Function.update_of_ne (by simp)]
  | down sem =>
      cases sem with
      | inl k => exact absurd hcall id
      | inr o =>
          obtain ⟨waits, kernel', hdown, hsound, hacquired⟩ := down_of hthreads hrun (.inr o)
          rw [start, bind_of_ok hdown] at hkernel
          cases hkernel
          refine refines_apart hagrees hpc hfree hsound ?_ ?_ ?_
          · intro k
            cases hacquired with
            | taken _ hvalue _ => rw [hvalue, Function.update_of_ne (by simp)]
            | queued _ hvalue _ => rw [hvalue]
          · intro k
            cases hacquired with
            | taken _ _ hqueue => rw [hqueue]
            | queued _ _ hqueue => rw [hqueue, Function.update_of_ne (by simp)]
          · intro k
            cases waits with
            | false => simp
            | true => simp
  | tryDown sem =>
      cases sem with
      | inl k => exact absurd hcall id
      | inr o =>
          obtain ⟨b, kernel', htry, hsound, hqueue, hvalue⟩ := tryDown_of hthreads (.inr o)
          rw [start, bind_of_ok htry] at hkernel
          cases hkernel
          have hsound' : Semaphores.Sound (initial others) kernel
              (Function.update (fun j => (s.pc j).2) i .running) := by
            rwa [hstay]
          exact refines_apart hagrees hpc hfree hsound' (fun k => hvalue _ (by simp))
            (fun k => by rw [hqueue]) (by simp)

theorem refines_resume
    (hthreads : Semaphores.Sound (initial others) s.shared.kernel fun i => (s.pc i).2)
    (hagrees : ∀ j, Agrees (s.pc j)) {place : Place γ} {pc pc' : Pc (Sem γ ο)}
    (hpc : s.pc i = (place, pc)) (hfree : Place.free place = true)
    (hrun : s.shared.kernel.state i = .runnable)
    (hresume : onKernel (resume i pc) s.shared = .ok (.ok pc', t)) :
    Refines others s i { shared := t, pc := Function.update s.pc i (place, pc') } := by
  obtain ⟨kernel, hkernel, rfl⟩ := onKernel_eq_ok hresume
  have hsnd : (fun j => (s.pc j).2) i = pc := by
    show (s.pc i).2 = _
    rw [hpc]
  rcases Classical.em (∃ sem, pc = .down sem) with ⟨sem, rfl⟩ | hnot
  · obtain ⟨hdowned, _, hsound⟩ := downed_of hthreads hsnd hrun
    rw [resume, bind_of_ok hdowned] at hkernel
    cases hkernel
    exact refines_apart hagrees hpc hfree hsound (fun _ => rfl) (fun _ => rfl) (by simp)
  · push Not at hnot
    have hnotDown : ∀ sem, (fun j => (s.pc j).2) i ≠ .down sem := by
      rw [hsnd]
      exact hnot
    obtain ⟨pc'', kernel', hresume', hsound, hsame, hnew⟩ := resume_of_apart hthreads hrun hnotDown
    rw [show (s.pc i).2 = pc from hsnd] at hresume'
    cases hresume'.symm.trans hkernel
    exact refines_apart hagrees hpc hfree hsound (fun k => by rw [hsame.value])
      (fun k => hsame.queue _) fun k => hnew _

/-- What any step does is a move of the unit, or nothing to it. -/
structure Moves (others : ο → Int) (s s' : System ι γ ο) : Prop where
  threads : Semaphores.Sound (initial others) s'.shared.kernel fun i => (s'.pc i).2
  agrees : ∀ i, Agrees (s'.pc i)
  passes : (∃ i, Pass s.tokens i s'.tokens) ∨ s'.tokens = s.tokens

theorem Refines.moves (h : Refines others s i s') : Moves others s s' :=
  ⟨h.threads, h.agrees, h.passes.imp (fun hpass => ⟨i, hpass⟩) id⟩

/-- Whatever happens to those that wait, the unit stays where it is. -/
theorem tokens_occur
    (hthreads : Semaphores.Sound (initial others) s.shared.kernel fun i => (s.pc i).2)
    {event : Event ι} {r : Except Errno Unit} (hoccur : onKernel (occur event) s.shared = .ok (r, t)) :
    (Semaphores.Sound (initial others) t.kernel fun i => (s.pc i).2) ∧
      System.tokens { s with shared := t } = s.tokens := by
  obtain ⟨kernel, hkernel, rfl⟩ := onKernel_eq_ok hoccur
  obtain ⟨hsound, hsame⟩ := occur_of hthreads hkernel
  refine ⟨hsound, ?_⟩
  have hunits : keyUnits kernel (fun i => (s.pc i).2) =
      keyUnits s.shared.kernel fun i => (s.pc i).2 :=
    keyUnits_congr (units_same hsame)
  show (⟨_, keyUnits kernel fun i => (s.pc i).2, _, _⟩ : Tokens ι γ) = _
  rw [hunits]
  rfl

theorem moves_occur
    (hthreads : Semaphores.Sound (initial others) s.shared.kernel fun i => (s.pc i).2)
    (hagrees : ∀ j, Agrees (s.pc j)) {event : Event ι} {r : Except Errno Unit}
    (hoccur : onKernel (occur event) s.shared = .ok (r, t)) :
    Moves others s { s with shared := t } := by
  obtain ⟨hsound, hsame⟩ := tokens_occur hthreads hoccur
  exact ⟨hsound, hagrees, Or.inr hsame⟩

theorem moves_step
    (hthreads : Semaphores.Sound (initial others) s.shared.kernel fun i => (s.pc i).2)
    (hagrees : ∀ j, Agrees (s.pc j)) (hstep : Step s s') : Moves others s s' := by
  cases hstep with
  | call hpc _ hcall => exact (refines_call hthreads hagrees hpc hcall).moves
  | proceed hfree hrun hproceed => exact (refines_proceed hthreads hagrees hfree hrun hproceed).moves
  | start hpc hfree hcall _ hstart =>
      exact (refines_start hthreads hagrees hpc hfree hcall hstart).moves
  | resume hpc hfree hrun hresume =>
      exact (refines_resume hthreads hagrees hpc hfree hrun hresume).moves
  | @born i t hpc hwake =>
      obtain ⟨kernel, hkernel, rfl⟩ := onKernel_eq_ok hwake
      have hunborn : (fun j => (s.pc j).2) i = .unborn := by
        show (s.pc i).2 = _
        rw [hpc]
      obtain ⟨hwoken, hsound⟩ := born_of hthreads hunborn
      cases hwoken.symm.trans hkernel
      have hsame := same_woken s.shared.kernel i
      exact (refines_apart hagrees hpc rfl hsound (fun k => by rw [hsame.value])
        (fun k => hsame.queue _) (by simp)).moves
  | occur hoccur => exact moves_occur hthreads hagrees hoccur

end Refinement

section Claims

variable [Fintype ι] [Fintype γ] {others : ο → Int} {s s' : System ι γ ο}

structure Sound (others : ο → Int) (s : System ι γ ο) : Prop where
  threads : Semaphores.Sound (initial others) s.shared.kernel fun i => (s.pc i).2
  agrees : ∀ i, Agrees (s.pc i)
  kept : Kept s.tokens

theorem sound_of_moves (h : Sound others s) (hmoves : Moves others s s') : Sound others s' := by
  obtain ⟨hthreads, hagrees, hpasses⟩ := hmoves
  refine ⟨hthreads, hagrees, ?_⟩
  rcases hpasses with ⟨i, hpass⟩ | hsame
  · exact kept_pass h.kept hpass
  · rw [hsame]
    exact h.kept

theorem sound_step (h : Sound others s) (hstep : Step s s') : Sound others s' :=
  sound_of_moves h (moves_step h.threads h.agrees hstep)

omit [DecidableEq ι] in
theorem sound_starts (hothers : ∀ k, 0 ≤ others k) (h : Starts others s) : Sound others s := by
  have hvalues : ∀ k, 0 ≤ initial others (k : Sem γ ο) := by
    intro k
    cases k with
    | inl k =>
        cases k with
        | mutex => exact Int.one_nonneg
        | next | cv => exact le_rfl
    | inr o => exact hothers o
  have hplaces : (fun i => (s.pc i).1) = fun _ => Place.outside := funext h.place
  have hnotDown : ∀ i sem, (s.pc i).2 ≠ .down sem := by
    intro i sem hdown
    rcases h.threads.pc i with ⟨hpc, _⟩ | ⟨hpc, _⟩
    · cases hdown.symm.trans hpc
    · cases hdown.symm.trans hpc
  have hunits : ∀ k, s.tokens.units k = initial others (.inl k : Sem γ ο) := by
    intro k
    have hvalue : s.shared.kernel.value = initial others := h.threads.value
    have hqueue : s.shared.kernel.queue (.sem (.inl k)) = [] := h.threads.queue _
    have hnone : tally (sleepsIn (.inl k)) (fun i => (s.pc i).2) = 0 :=
      tally_eq_zero fun i => sleepsIn_of_ne (hnotDown i _)
    show keyUnits s.shared.kernel (fun i => (s.pc i).2) k = _
    rw [keyUnits, units, hvalue, hqueue, hnone]
    simp
  have htally : ∀ p : Place γ → Bool, p .outside = false → tally p s.tokens.place = 0 := by
    intro p hp
    apply tally_eq_zero
    intro i
    rw [show s.tokens.place i = .outside from h.place i]
    exact hp
  refine ⟨Semaphores.sound_starts hvalues h.threads, ?_, ⟨?_, ?_, ?_, ?_, ?_, ?_⟩⟩
  · intro i
    rcases hpc : s.pc i with ⟨place, pc⟩
    have hplace : place = .outside := by
      have hsame := h.place i
      rwa [hpc] at hsame
    subst hplace
    intro k hdown
    apply hnotDown i (.inl k)
    rw [hpc]
    exact hdown
  · intro k
    rw [hunits]
    exact hvalues _
  · have hcvs : (∑ c, s.tokens.units (.cv c)) = 0 := Finset.sum_eq_zero fun c _ => hunits (.cv c)
    rw [htally isActive rfl, total, hunits, hunits, hcvs]
    rfl
  · rw [htally isSignaller rfl]
    exact h.nextCount
  · intro c
    rw [htally (isWaiter c) rfl]
    exact h.count c
  · rw [hunits]
    exact h.nextCount.ge
  · intro c
    rw [hunits]
    exact (h.count c).ge

/-- The process runs inside of the monitor. -/
def Inside (s : System ι γ ο) (i : ι) : Prop :=
  (s.pc i).1 = .active

/-- The process is in `cond_wait`. -/
def Waiter (s : System ι γ ο) (c : γ) (i : ι) : Prop :=
  (s.pc i).1 = .released c ∨ (s.pc i).1 = .waiting c

/-- A unit is there for the process: it was woken, or need not go to sleep. -/
def Handed (s : System ι γ ο) (i : ι) : Prop :=
  match (s.pc i).1 with
  | .entering => i ∉ s.shared.kernel.queue (.sem (.inl .mutex))
  | .released c => 0 < s.shared.kernel.value (.inl (.cv c))
  | .waiting c => i ∉ s.shared.kernel.queue (.sem (.inl (.cv c)))
  | .signalled _ => 0 < s.shared.kernel.value (.inl .next)
  | .signalling _ => i ∉ s.shared.kernel.queue (.sem (.inl .next))
  | _ => False

/-- One who waits for the condition may go on. -/
def InTransit (s : System ι γ ο) (c : γ) : Prop :=
  ∃ i, Waiter s c i ∧ Handed s i

/-- Where a process goes on from what it was handed. -/
def source : Place γ → Option (Key γ)
  | .entering => some .mutex
  | .released c => some (.cv c)
  | .waiting c => some (.cv c)
  | .signalled _ => some .next
  | .signalling _ => some .next
  | _ => none

theorem Sound.value_le_units (h : Sound others s) (k : Key γ) :
    s.shared.kernel.value (.inl k) ≤ s.tokens.units k :=
  SemaphoreUnits.value_le_units h.threads.placed _

/-- A process that was woken was handed a unit that is not in `value`. -/
theorem Sound.value_lt_units (h : Sound others s) {i : ι} {k : Key γ}
    (hdown : (s.pc i).2 = .down (.inl k)) (hout : i ∉ s.shared.kernel.queue (.sem (.inl k))) :
    s.shared.kernel.value (.inl k) < s.tokens.units k :=
  SemaphoreUnits.value_lt_units h.threads.placed hdown hout

omit [DecidableEq ι] in
theorem Sound.agrees_of (h : Sound others s) {i : ι} {place : Place γ}
    (hplace : (s.pc i).1 = place) : Agrees (place, (s.pc i).2) := by
  rw [← hplace]
  exact h.agrees i

theorem Sound.units_of_handed (h : Sound others s) {i : ι} (hi : Handed s i) :
    ∃ k, source (s.pc i).1 = some k ∧ 0 < s.tokens.units k ∧
      (k = .mutex → s.shared.kernel.value (.inl k) < s.tokens.units k) := by
  have hnonneg := h.threads.counted.nonneg
  cases hplace : (s.pc i).1 with
  | outside | active =>
      rw [Handed, hplace] at hi
      exact absurd hi id
  | entering =>
      rw [Handed, hplace] at hi
      have hlt := h.value_lt_units (h.agrees_of hplace) hi
      exact ⟨_, rfl, lt_of_le_of_lt (hnonneg _) hlt, fun _ => hlt⟩
  | released c =>
      rw [Handed, hplace] at hi
      exact ⟨_, rfl, lt_of_lt_of_le hi (h.value_le_units _), by simp⟩
  | waiting c =>
      rw [Handed, hplace] at hi
      have hlt := h.value_lt_units (h.agrees_of hplace) hi
      exact ⟨_, rfl, lt_of_le_of_lt (hnonneg _) hlt, by simp⟩
  | signalled c =>
      rw [Handed, hplace] at hi
      exact ⟨_, rfl, lt_of_lt_of_le hi (h.value_le_units _), by simp⟩
  | signalling c =>
      rw [Handed, hplace] at hi
      have hlt := h.value_lt_units (h.agrees_of hplace) hi
      exact ⟨_, rfl, lt_of_le_of_lt (hnonneg _) hlt, by simp⟩

omit [DecidableEq ι] in
/-- Where all that wait may be woken, a process that is not in the queue was. -/
theorem Sound.not_mem_queue (h : Sound others s) {k : Key γ}
    (hpos : 0 < s.shared.kernel.value (.inl k)) (i : ι) :
    i ∉ s.shared.kernel.queue (.sem (.inl k)) := by
  rw [h.threads.counted.empty _ hpos]
  exact List.not_mem_nil

theorem Sound.granted (h : Sound others s) {k : Key γ}
    (hlt : s.shared.kernel.value (.inl k) < s.tokens.units k) :
    ∃ i, (s.pc i).2 = .down (.inl k) ∧ i ∉ s.shared.kernel.queue (.sem (.inl k)) :=
  exists_granted h.threads.placed hlt

omit [DecidableEq ι] in
theorem Sound.place_of_down (h : Sound others s) {i : ι} {k : Key γ}
    (hdown : (s.pc i).2 = .down (.inl k)) :
    (k = .mutex ∧ (s.pc i).1 = .entering) ∨ (∃ c, k = .cv c ∧ (s.pc i).1 = .waiting c) ∨
      ∃ c, k = .next ∧ (s.pc i).1 = .signalling c := by
  cases hplace : (s.pc i).1 with
  | outside | active => exact absurd hdown (h.agrees_of hplace k)
  | released c | signalled c =>
      have hrun : (s.pc i).2 = .running := h.agrees_of hplace
      cases hrun.symm.trans hdown
  | entering =>
      have hat : (s.pc i).2 = .down (.inl .mutex) := h.agrees_of hplace
      cases hat.symm.trans hdown
      exact Or.inl ⟨rfl, rfl⟩
  | waiting c =>
      have hat : (s.pc i).2 = .down (.inl (.cv c)) := h.agrees_of hplace
      cases hat.symm.trans hdown
      exact Or.inr (Or.inl ⟨c, rfl, rfl⟩)
  | signalling c =>
      have hat : (s.pc i).2 = .down (.inl .next) := h.agrees_of hplace
      cases hat.symm.trans hdown
      exact Or.inr (Or.inr ⟨c, rfl, rfl⟩)

theorem Sound.inTransit_iff (h : Sound others s) (c : γ) :
    InTransit s c ↔ 0 < s.tokens.units (.cv c) := by
  constructor
  · rintro ⟨i, hwaiter, hhanded⟩
    obtain ⟨k, hk, hpos, _⟩ := h.units_of_handed hhanded
    rcases hwaiter with hplace | hplace
    · rw [hplace] at hk
      cases hk
      exact hpos
    · rw [hplace] at hk
      cases hk
      exact hpos
  · intro hpos
    rcases Decidable.em (0 < s.shared.kernel.value (.inl (.cv c))) with hvalue | hzero
    · have hcount := h.kept.count c
      have hle := h.kept.cv c
      obtain ⟨i, hi⟩ := exists_of_tally_pos (show 0 < tally (isWaiter c) s.tokens.place by omega)
      have hi' : isWaiter c (s.pc i).1 = true := hi
      refine ⟨i, ?_⟩
      cases hplace : (s.pc i).1 with
      | outside | active | entering | signalled | signalling =>
          rw [hplace] at hi'
          cases hi'
      | released d =>
          rw [hplace] at hi'
          have hsame : d = c := of_decide_eq_true hi'
          subst hsame
          refine ⟨Or.inl hplace, ?_⟩
          rw [Handed, hplace]
          exact hvalue
      | waiting d =>
          rw [hplace] at hi'
          have hsame : d = c := of_decide_eq_true hi'
          subst hsame
          refine ⟨Or.inr hplace, ?_⟩
          rw [Handed, hplace]
          exact h.not_mem_queue hvalue i
    · have hlt : s.shared.kernel.value (.inl (.cv c)) < s.tokens.units (.cv c) := by omega
      obtain ⟨i, hdown, hout⟩ := h.granted hlt
      rcases h.place_of_down hdown with ⟨hk, _⟩ | ⟨d, hk, hplace⟩ | ⟨d, hk, _⟩
      · cases hk
      · cases hk
        refine ⟨i, Or.inr hplace, ?_⟩
        rw [Handed, hplace]
        exact hout
      · cases hk

theorem Sound.handed_next (h : Sound others s) (hpos : 0 < s.tokens.units .next) :
    ∃ i, Handed s i := by
  rcases Decidable.em (0 < s.shared.kernel.value (.inl .next)) with hvalue | hzero
  · have hcount := h.kept.nextCount
    have hle := h.kept.next
    obtain ⟨i, hi⟩ := exists_of_tally_pos (show 0 < tally isSignaller s.tokens.place by omega)
    have hi' : isSignaller (s.pc i).1 = true := hi
    refine ⟨i, ?_⟩
    cases hplace : (s.pc i).1 with
    | outside | active | entering | released | waiting =>
        rw [hplace] at hi'
        cases hi'
    | signalled d =>
        rw [Handed, hplace]
        exact hvalue
    | signalling d =>
        rw [Handed, hplace]
        exact h.not_mem_queue hvalue i
  · have hlt : s.shared.kernel.value (.inl .next) < s.tokens.units .next := by omega
    obtain ⟨i, hdown, hout⟩ := h.granted hlt
    rcases h.place_of_down hdown with ⟨hk, _⟩ | ⟨d, hk, _⟩ | ⟨d, _, hplace⟩
    · cases hk
    · cases hk
    · refine ⟨i, ?_⟩
      rw [Handed, hplace]
      exact hout

/-- The monitor is open, or it is with one process. -/
theorem Sound.owned (h : Sound others s) :
    Xor (s.shared.kernel.value (.inl .mutex) = 1) (∃ i, Inside s i ∨ Handed s i) := by
  have hone := h.kept.one
  have hnonneg := h.kept.nonneg
  have hmutex := h.value_le_units .mutex
  have htotal := units_le_total hnonneg .mutex
  rcases eq_or_ne (s.shared.kernel.value (.inl .mutex)) 1 with hopen | htaken
  · refine Or.inl ⟨hopen, ?_⟩
    rintro ⟨i, hinside | hhanded⟩
    · have hzero := h.kept.units_of_active hinside .mutex
      omega
    · obtain ⟨k, _, hpos, hlt⟩ := h.units_of_handed hhanded
      rcases eq_or_ne k .mutex with rfl | hne
      · have hlt' := hlt rfl
        omega
      · have hboth := units_add_le_total hnonneg hne
        omega
  · refine Or.inr ⟨?_, htaken⟩
    rcases Nat.eq_zero_or_pos (tally isActive s.tokens.place) with hnobody | hinside
    · rcases Decidable.em (0 < s.tokens.units .mutex) with hpos | hnone
      · have hvalue := h.threads.counted.nonneg (.inl .mutex)
        have hlt : s.shared.kernel.value (.inl .mutex) < s.tokens.units .mutex := by
          have hle : s.tokens.units .mutex ≤ 1 := by omega
          omega
        obtain ⟨i, hdown, hout⟩ := h.granted hlt
        rcases h.place_of_down hdown with ⟨_, hplace⟩ | ⟨d, hk, _⟩ | ⟨d, hk, _⟩
        · refine ⟨i, Or.inr ?_⟩
          rw [Handed, hplace]
          exact hout
        · cases hk
        · cases hk
      · rcases Decidable.em (0 < s.tokens.units .next) with hpos | hnone'
        · obtain ⟨i, hi⟩ := h.handed_next hpos
          exact ⟨i, Or.inr hi⟩
        · have hcvs : (∑ c, s.tokens.units (.cv c)) ≠ 0 := by
            have hmutex' := hnonneg .mutex
            have hnext' := hnonneg .next
            rw [total] at hone
            omega
          obtain ⟨c, _, hne⟩ := Finset.exists_ne_zero_of_sum_ne_zero hcvs
          have hpos : 0 < s.tokens.units (.cv c) := lt_of_le_of_ne (hnonneg _) hne.symm
          obtain ⟨i, _, hi⟩ := (h.inTransit_iff c).mpr hpos
          exact ⟨i, Or.inr hi⟩
    · obtain ⟨i, hi⟩ := exists_of_tally_pos hinside
      have hi' : isActive (s.pc i).1 = true := hi
      refine ⟨i, Or.inl ?_⟩
      rw [Inside]
      cases hplace : (s.pc i).1 with
      | active => rfl
      | outside | entering | released | waiting | signalled | signalling =>
          rw [hplace] at hi'
          cases hi'

/-- One process at most is inside, a signal passes the monitor on to one who waits, the
counters count, and the monitor is never lost. -/
structure MonitorOk (s : System ι γ ο) : Prop where
  one : ∀ i j, Inside s i → Inside s j → i = j
  signals : ∀ i c x t, s.pc i = (.active, .running) → 0 < s.shared.count c →
    condSignal c s.shared = .ok (.ok x, t) →
      InTransit { shared := t, pc := Function.update s.pc i x } c
  transfers : ∀ c, InTransit s c → (∀ i, ¬Inside s i) ∧
    ∀ s', Step s s' → InTransit s' c ∨ ∃ i, Waiter s c i ∧ Inside s' i
  nextCount : s.shared.nextCount = tally isSignaller fun i => (s.pc i).1
  count : ∀ c, s.shared.count c = tally (isWaiter c) fun i => (s.pc i).1
  owned : Xor (s.shared.kernel.value (.inl .mutex) = 1) (∃ i, Inside s i ∨ Handed s i)

theorem Sound.monitorOk (h : Sound others s) : MonitorOk s := by
  refine ⟨?_, ?_, ?_, h.kept.nextCount, h.kept.count, h.owned⟩
  · intro i j hi hj
    by_contra hne
    have hactive : ∀ p : ι, Inside s p → isActive (s.tokens.place p) = true := by
      intro p hp
      rw [show s.tokens.place p = .active from hp]
      rfl
    have htwo := two_le_tally (hactive i hi) (hactive j hj) (Ne.symm hne)
    have htotal := units_le_total h.kept.nonneg .mutex
    have hnonneg := h.kept.nonneg .mutex
    have hone := h.kept.one
    omega
  · intro i c x t hpc hpos hsignal
    obtain ⟨kernel, hrun, _, hunits⟩ := condSignal_of h.threads hpos
    cases hrun.symm.trans hsignal
    have hcall : call i (.signal c) s.shared = .ok (.ok (.signalled c, .running), _) := hsignal
    have hrefines := refines_call h.threads h.agrees hpc hcall
    have hafter := sound_of_moves h hrefines.moves
    refine (hafter.inTransit_iff c).mpr ?_
    have hstay : (fun j => (Function.update s.pc i (.signalled c, .running) j).2) =
        fun j => (s.pc j).2 := by
      rw [pcs_update]
      apply update_running
      show (s.pc i).2 = _
      rw [hpc]
    show 0 < keyUnits kernel (fun j => (Function.update s.pc i (.signalled c, .running) j).2) (.cv c)
    rw [hstay, hunits, give_self]
    have hnonneg := h.kept.nonneg (.cv c)
    omega
  · intro c htransit
    have hpos := (h.inTransit_iff c).mp htransit
    refine ⟨(h.kept.inTransit hpos).1, ?_⟩
    intro s' hstep
    have hs' := sound_step h hstep
    rcases (moves_step h.threads h.agrees hstep).passes with ⟨i, hpass⟩ | hsame
    · rcases pass_inTransit h.kept hpass hpos with hstill | ⟨hwaiter, hinside⟩
      · exact Or.inl ((hs'.inTransit_iff c).mpr hstill)
      · exact Or.inr ⟨i, hwaiter, hinside⟩
    · refine Or.inl ((hs'.inTransit_iff c).mpr ?_)
      rw [hsame]
      exact hpos

theorem monitorOk_of_reaches (hothers : ∀ k, 0 ≤ others k) (hstarts : Starts others s)
    (hrun : ReflTransGen Step s s') : MonitorOk s' := by
  have hsound : Sound others s' :=
    holds_of_reaches (fun h hstep => sound_step h hstep) (sound_starts hothers hstarts) hrun
  exact hsound.monitorOk

/-- Two processes, and a monitor with one condition variable. -/
def opened : System Bool Unit Empty where
  shared := {
    kernel := {
      state := fun _ => .runnable
      waitState := fun _ => 0
      exiting := fun _ => false
      wait := fun _ => ⟨0, .keyboard, false⟩
      queue := fun _ => []
      value := initial nofun
      timerList := []
      ups := fun _ => 0
      taken := fun _ => 0
      queued := fun _ => []
      handed := fun _ => [] }
    nextCount := 0
    count := fun _ => 0 }
  pc := fun _ => (.outside, .running)

/-- One process waits for the condition, and the other one signals it. -/
theorem monitorOk_of_reaches_signal : ∃ s : System Bool Unit Empty,
    ReflTransGen Step opened s ∧ s.shared.nextCount = 1 ∧ InTransit s () ∧ MonitorOk s := by
  have hin : ReflTransGen Step opened _ :=
    .single (@Step.call _ _ _ _ _ _ opened false .enter _ _ rfl rfl rfl)
  have hwait := hin.tail (@Step.call _ _ _ _ _ _ _ false (.wait ()) _ _ rfl rfl rfl)
  have hsleep := hwait.tail (@Step.proceed _ _ _ _ _ _ _ false _ _ rfl rfl rfl)
  have hother := hsleep.tail (@Step.call _ _ _ _ _ _ _ true .enter _ _ rfl rfl rfl)
  have hsignal := hother.tail (@Step.call _ _ _ _ _ _ _ true (.signal ()) _ _ rfl rfl rfl)
  have hsuspend := hsignal.tail (@Step.proceed _ _ _ _ _ _ _ true _ _ rfl rfl rfl)
  refine ⟨_, hsuspend, rfl, ⟨false, Or.inr rfl, ?_⟩, ?_⟩
  · exact List.not_mem_nil
  · have hstarts : Starts nofun opened := by
      refine ⟨⟨?_, ?_, ?_, ?_, ?_, ?_, ?_, ?_, ?_, ?_⟩, ?_, ?_, ?_⟩
      · exact fun _ => Or.inl ⟨rfl, rfl⟩
      · exact fun _ => rfl
      · exact fun _ => rfl
      · exact fun _ => rfl
      · rfl
      · rfl
      · exact fun _ => rfl
      · exact fun _ => rfl
      · exact fun _ => rfl
      · exact fun _ => rfl
      · exact fun _ => rfl
      · rfl
      · exact fun _ => rfl
    exact monitorOk_of_reaches (fun k => k.elim) hstarts hsuspend

end Claims

end Ucore.Monitors
