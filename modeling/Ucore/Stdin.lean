import Ucore.RingBuffer
import Ucore.Semaphores

/-! The keyboard input of `dev_stdin.c`: the interrupt that stores a character, and any number of
processes that read. -/

namespace Ucore.Stdin

open Relation
open Ucore.Errors
open Ucore.KernelRoutine
open Ucore.Interleaving
open Ucore.Segments
open Ucore.WaitQueues

def STDIN_BUFSIZE : Nat := 4096

/-- `kernel` is what `wait.c` works on. `handed` are the characters that `*buf ++` has stored,
with the process that reads, and `accepted` those that arrived when fewer than `STDIN_BUFSIZE`
were unread. -/
structure Input (ι κ : Type) where
  kernel : Kernel ι κ
  stdinBuffer : Nat → UInt8
  pRpos : Nat
  pWpos : Nat
  handed : List (ι × UInt8)
  accepted : List UInt8

/-- What `dev_stdin_read` has come to: it returns `ret`, or waits after `ret` characters. -/
inductive Reading where
  | done (ret : Nat)
  | asleep (ret : Nat)

variable {ι κ α : Type} [DecidableEq ι] [DecidableEq κ]

def onKernel : Routine (Kernel ι κ) α → Routine (Input ι κ) α :=
  onPart Input.kernel fun kernel s => { s with kernel := kernel }

section Device

/-- `dev_stdin_write` where it stores the character. -/
def store (c : UInt8) (s : Input ι κ) : Input ι κ :=
  let s := { s with
    stdinBuffer := Function.update s.stdinBuffer (s.pWpos % STDIN_BUFSIZE) c }
  if s.pWpos - s.pRpos < STDIN_BUFSIZE then { s with pWpos := s.pWpos + 1 } else s

def devStdinWrite (c : UInt8) : Routine (Input ι κ) Unit :=
  if c ≠ 0 then do
    modifyState (store c)
    onKernel WaitQueues.devStdinWrite
  else
    return ()

/-- `*buf ++ = stdin_buffer[p_rpos % STDIN_BUFSIZE]` and `p_rpos ++`. -/
def fetch (current : ι) (s : Input ι κ) : Input ι κ :=
  { s with
    handed := s.handed ++ [(current, s.stdinBuffer (s.pRpos % STDIN_BUFSIZE))]
    pRpos := s.pRpos + 1 }

/-- The loop of `dev_stdin_read` up to `schedule`, with `ret` characters read and `left` to go. -/
def readLoop (current : ι) (ret : Nat) : Nat → Routine (Input ι κ) Reading
  | 0 => return .done ret
  | left + 1 => do
      let s ← getState
      if s.pRpos < s.pWpos then do
        modifyState (fetch current)
        readLoop current (ret + 1) left
      else do
        onKernel (waitCurrentSet .keyboard current WT_KBD)
        return .asleep ret

def devStdinRead (current : ι) (len : Nat) : Routine (Input ι κ) Reading :=
  readLoop current 0 len

/-- `dev_stdin_read` after `schedule`. -/
def awoken (current : ι) (len ret : Nat) : Routine (Input ι κ) Reading := do
  onKernel (waitCurrentDel .keyboard current)
  let s ← getState
  if (s.kernel.wait current).wakeupFlags = WT_KBD then
    readLoop current ret (len - ret)
  else
    return .done ret

end Device

section Steps

/-- Where a process is: in the `schedule` of `dev_stdin_read` with `ret` of `len` characters, or
outside of that function. -/
inductive Place (κ : Type) where
  | reading (len ret : Nat)
  | outside (pc : Pc κ)

def Reading.place (len : Nat) : Reading → Place κ
  | .done _ => .outside .running
  | .asleep ret => .reading len ret

abbrev System (ι κ : Type) := Threads ι (Input ι κ) (Place κ)

/-- The character has been noted as accepted. -/
def note (c : UInt8) (s t : Input ι κ) : Input ι κ :=
  if c ≠ 0 ∧ s.pWpos - s.pRpos < STDIN_BUFSIZE then
    { t with accepted := t.accepted ++ [c] }
  else t

/-- A process begins to read or goes on with it, a character arrives, or the processes do
something else; a step with a label is the arrival of that character. -/
inductive Step : System ι κ → Option UInt8 → System ι κ → Prop
  | read {s : System ι κ} {i : ι} {len : Nat} {r : Reading} {t : Input ι κ} :
      s.pc i = .outside .running → s.shared.kernel.state i = .runnable →
        devStdinRead i len s.shared = .ok (.ok r, t) →
          Step s none { shared := t, pc := Function.update s.pc i (r.place len) }
  | awoken {s : System ι κ} {i : ι} {len ret : Nat} {r : Reading} {t : Input ι κ} :
      s.pc i = .reading len ret → s.shared.kernel.state i = .runnable →
        awoken i len ret s.shared = .ok (.ok r, t) →
          Step s none { shared := t, pc := Function.update s.pc i (r.place len) }
  | arrive {s : System ι κ} {c : UInt8} {r : Except Errno Unit} {t : Input ι κ} :
      devStdinWrite c s.shared = .ok (r, t) →
        Step s (some c) { s with shared := note c s.shared t }
  | start {s : System ι κ} {i : ι} {call : Call ι κ} {r : Except Errno (Pc κ)} {t : Input ι κ} :
      s.pc i = .outside .running → s.shared.kernel.state i = .runnable → call ≠ .read →
        onKernel (start i call) s.shared = .ok (r, t) →
          Step s none { shared := t, pc := Function.update s.pc i (.outside (after .running r)) }
  | resume {s : System ι κ} {i : ι} {pc : Pc κ} {r : Except Errno (Pc κ)} {t : Input ι κ} :
      s.pc i = .outside pc → s.shared.kernel.state i = .runnable →
        onKernel (resume i pc) s.shared = .ok (r, t) →
          Step s none { shared := t, pc := Function.update s.pc i (.outside (after .running r)) }
  | born {s : System ι κ} {i : ι} {r : Except Errno Unit} {t : Input ι κ} :
      s.pc i = .outside .unborn → onKernel (wakeupProc i) s.shared = .ok (r, t) →
        Step s none { shared := t, pc := Function.update s.pc i (.outside .running) }
  | occur {s : System ι κ} {event : Event ι} {r : Except Errno Unit} {t : Input ι κ} :
      event ≠ .key → onKernel (occur event) s.shared = .ok (r, t) →
        Step s none { s with shared := t }

/-- Runs in which each character arrives in a state that meets `guard`. -/
inductive Run (guard : Input ι κ → UInt8 → Prop) (s₀ : System ι κ) : System ι κ → Prop
  | refl : Run guard s₀ s₀
  | step {s t : System ι κ} {label : Option UInt8} : Run guard s₀ s → Step s label t →
      (∀ c, label = some c → guard s.shared c) → Run guard s₀ t

/-- `stdin_device_init`, where the processes are as at the start of `WaitQueues`. -/
structure Starts (values : κ → Int) (s : System ι κ) : Prop where
  kernel : WaitQueues.Starts values ⟨s.shared.kernel, fun i => match s.pc i with
    | .reading _ _ => .reading
    | .outside pc => pc⟩
  outside : ∀ i, ∃ pc, s.pc i = .outside pc
  rpos : s.shared.pRpos = 0
  wpos : s.shared.pWpos = 0
  handed : s.shared.handed = []
  accepted : s.shared.accepted = []

end Steps

end Ucore.Stdin
