import Ucore.ExitMmap
import Ucore.LoadIcodeImage

/-! How `do_execve` takes the arguments out of the caller's memory, and what the new program finds
in its registers. -/

namespace Ucore.Exec

open Ucore.Errors
open Ucore.KernelRoutine
open Ucore.DefaultPmm (PGSIZE)
open Ucore.PageTables
open Ucore.PageOwners (next pte)
open Ucore.PageBytes
open Ucore.AddressSpaces (Vma roundDown)
open Ucore.Swap
open Ucore.UserImages
open Ucore.LoadIcode
open Ucore.LoadIcodeImage
open Ucore.ExitMmap

def KERNBASE : Nat := 0xFFFFFFFFC0200000
def KMEMSIZE : Nat := 0x7E00000
def KERNTOP : Nat := KERNBASE + KMEMSIZE

def PROC_NAME_LEN : Nat := 15
def FS_MAX_FPATH_LEN : Nat := 4095

theorem a2_lt : 12 < 32 := by decide

theorem a3_lt : 13 < 32 := by decide

def a2 : Fin 32 := ⟨12, a2_lt⟩
def a3 : Fin 32 := ⟨13, a3_lt⟩

/-- What `do_execve` works on. `kernelByte` is what the kernel has at an address of its own, and
the name of a process is `none` where it is `"<null>"` with its pid. -/
structure Executing where
  loading : Loading
  kernelByte : Nat → BitVec 8
  mmCount : Nat → Nat
  procName : Option (List (BitVec 8))

variable {α : Type}

def onLoading : Routine Loading α → Routine Executing α :=
  onPart Executing.loading fun loading s => { s with loading := loading }

section Copying

/-- The loop of `user_mem_check`, which goes from one VMA to the next. -/
def checkVmas (s : Swapping) (mm stop : Nat) (write : Bool) : Nat → Nat → Bool
  | 0, _ => true
  | fuel + 1, start =>
      if start < stop then
        match findVma s mm start with
        | none => false
        | some vma =>
            if vma.vmFlags &&& (if write then VM_WRITE else VM_READ) = 0 then
              false
            else if write ∧ vma.vmFlags &&& VM_STACK ≠ 0 ∧ start < vma.vmStart + PGSIZE then
              false
            else
              checkVmas s mm stop write fuel vma.vmEnd
      else
        true

def userMemCheck (s : Swapping) (mm : Option Nat) (addr len : Nat) (write : Bool) : Bool :=
  match mm with
  | some mm =>
      decide (USERBASE ≤ addr ∧ addr < word (addr + len) ∧ word (addr + len) ≤ USERTOP) &&
        checkVmas s mm (word (addr + len)) write len addr
  | none => decide (KERNBASE ≤ addr ∧ addr < word (addr + len) ∧ word (addr + len) ≤ KERNTOP)

/-- The page may be loaded from. -/
def Readable (w : Word) : Prop := Valid w ∧ w &&& 0x2 ≠ 0

instance (w : Word) : Decidable (Readable w) := inferInstanceAs (Decidable (_ ∧ _))

/-- The processor loads a byte through the page tables, and tries again after a page fault. -/
def loadUser (mm la : Nat) : Routine Loading (BitVec 8) := do
  let s ← getState
  if Readable (pte s.swapping.memory mm la) then
    return byteAt (s.swapping.memory.words (frameOf (pte s.swapping.memory mm la))) la
  else
    pageFault mm la
    let s ← getState
    if Readable (pte s.swapping.memory mm la) then
      return byteAt (s.swapping.memory.words (frameOf (pte s.swapping.memory mm la))) la
    else
      abort .loop

/-- A byte of the caller's; a kernel thread has no `mm`. -/
def readByte (mm : Option Nat) (la : Nat) : Routine Executing (BitVec 8) :=
  match mm with
  | some mm => onLoading (loadUser mm la)
  | none => do
      let s ← getState
      return s.kernelByte la

/-- The number in these bytes, of which the first is the lowest. -/
def readLE (mm : Option Nat) : Nat → Nat → Routine Executing Nat
  | _, 0 => return 0
  | la, n + 1 => do
      let b ← readByte mm la
      let high ← readLE mm (la + 1) n
      return b.toNat + 256 * high

/-- The characters that `strnlen` counts. -/
def strnlen (mm : Option Nat) : Nat → Nat → Routine Executing (List (BitVec 8))
  | _, 0 => return []
  | la, n + 1 => do
      let b ← readByte mm la
      if b = 0 then
        return []
      else
        let rest ← strnlen mm (la + 1) n
        return b :: rest

/-- The loop of `copy_string`, which is `none` where `copy_string` returns 0. -/
def copyStringLoop (mm : Option Nat) : Nat → Nat → Nat → Nat → List (BitVec 8) →
    Routine Executing (Option (List (BitVec 8)))
  | 0, _, _, _, _ => abort .loop
  | fuel + 1, src, part, maxn, copied => do
      let part := min part maxn
      let s ← getState
      if userMemCheck s.loading.swapping mm src part false then
        let chars ← strnlen mm src part
        if chars.length < part then
          return some (copied ++ chars)
        else if part = maxn then
          return none
        else
          copyStringLoop mm fuel (word (src + part)) PGSIZE (maxn - part) (copied ++ chars)
      else
        return none

def copyString (mm : Option Nat) (src maxn : Nat) : Routine Executing (Option (List (BitVec 8))) :=
  copyStringLoop mm (maxn + 1) src
    (word (roundDown (word (src + PGSIZE)) PGSIZE + 2 ^ 64 - src)) maxn []

/-- The string that is in a buffer of `EXEC_MAX_ARG_LEN + 1` bytes after these were copied to it. -/
def bufferArg (chars : List (BitVec 8)) : Arg where
  bytes := (chars.takeWhile (· ≠ 0)).take EXEC_MAX_ARG_LEN
  bound := List.length_take_le _ _
  noNul := by
    intro h
    have hall := List.all_eq_true.mp List.all_takeWhile _ (List.mem_of_mem_take h)
    simp at hall

/-- The loop of `copy_kargv` for the arguments that are left. -/
def copyArgs (mm : Option Nat) (argv : Nat) : Nat → Nat → List Arg → Routine Executing (List Arg)
  | _, 0, kargv => return kargv
  | i, left + 1, kargv => do
      if ← onLoading kmalloc then
        let src ← readLE mm (word (argv + 8 * i)) 8
        match ← copyString mm src (EXEC_MAX_ARG_LEN + 1) with
        | none => fail .eInval
        | some chars => copyArgs mm argv (i + 1) left (kargv ++ [bufferArg chars])
      else
        fail .eNoMem

def copyKargv (mm : Option Nat) (argc argv : Nat) : Routine Executing (List Arg) := do
  let s ← getState
  if userMemCheck s.loading.swapping mm argv (8 * argc) false then
    copyArgs mm argv 0 argc []
  else
    fail .eInval

/-- `local_name` -/
def copyName (mm : Option Nat) (name : Nat) : Routine Executing (Option (List (BitVec 8))) := do
  if name = 0 then
    return none
  else
    match ← copyString mm name (PROC_NAME_LEN + 1) with
    | none => fail .eInval
    | some chars => return some chars

end Copying

section Execve

/-- `sysfile_open`; `fileOpen` is what `file_open` makes of a path. -/
def sysfileOpen (fileOpen : List (BitVec 8) → Except Errno File) (mm : Option Nat) (path : Nat) :
    Routine Executing File := do
  if ← onLoading kmalloc then
    match ← copyString mm path (FS_MAX_FPATH_LEN + 1) with
    | none => fail .eInval
    | some chars =>
        match fileOpen chars with
        | .error e => fail e
        | .ok file => return file
  else
    fail .eNoMem

/-- What `do_execve` does with the address space of the caller. -/
def dropMm (mm : Option Nat) : Routine Executing Unit :=
  match mm with
  | none => return ()
  | some mm => do
      modifyState fun s => { s with mmCount := Function.update s.mmCount mm (s.mmCount mm - 1) }
      let s ← getState
      if s.mmCount mm = 0 then
        onLoading (onFrames (exitMmap mm (s.loading.swapping.mmapList mm)))
        onLoading (onFrames (freePage mm))
      modifyState fun s => { s with loading := { s.loading with currentMm := none } }

/-- `do_execve` returns 0, or it ends in `do_exit`. -/
inductive Ending where
  | returned
  | exited (e : Errno)

def doExecve (fileOpen : List (BitVec 8) → Except Errno File) (boot fuel name : Nat) (argc : Int)
    (argv : Nat) : Routine Executing Ending := do
  if ¬(1 ≤ argc ∧ argc ≤ EXEC_MAX_ARG_NUM) then
    fail .eInval
  else
    let s ← getState
    let mm := s.loading.currentMm
    let localName ← copyName mm name
    let kargv ← copyKargv mm argc.toNat argv
    let path ← readLE mm argv 8
    match ← attempt (sysfileOpen fileOpen mm path) with
    | .error e => return .exited e
    | .ok file =>
        dropMm mm
        match ← attempt (onLoading (loadIcode file boot fuel kargv)) with
        | .error e => return .exited e
        | .ok () =>
            modifyState fun s => { s with procName := localName }
            return .returned

def setA0 (v : Word) : Routine Executing Unit :=
  modifyState fun s => { s with loading := { s.loading with
    tf := { s.loading.tf with gpr := Function.update s.loading.tf.gpr a0 v } } }

/-- The number of an error code. -/
def errnoCode (e : Errno) : Nat := e.ctorIdx + 1

/-- `argc`, which is an `int`. -/
def argcOf (s : Executing) : Int := ((s.loading.tf.gpr a2).setWidth 32).toInt

def argvOf (s : Executing) : Nat := (s.loading.tf.gpr a3).toNat

/-- `syscall` where the number is that of `sys_exec`. -/
def syscallExec (fileOpen : List (BitVec 8) → Except Errno File) (boot fuel : Nat) :
    Routine Executing Ending := do
  let s ← getState
  let name := (s.loading.tf.gpr a1).toNat
  match ← attempt (doExecve fileOpen boot fuel name (argcOf s) (argvOf s)) with
  | .error e =>
      setA0 (BitVec.ofInt 64 (-errnoCode e))
      fail e
  | .ok .returned =>
      setA0 0
      return .returned
  | .ok (.exited e) => return .exited e

end Execve

section Arguments

variable {dirs : Finset Nat} {s s' : Executing} {args : List Arg}

/-- These bytes are at the address. -/
def BytesAt (byte : Nat → Option (BitVec 8)) (a : Nat) (bs : List (BitVec 8)) : Prop :=
  ∀ k (h : k < bs.length), byte (a + k) = some bs[k]

/-- An array of pointers to these arguments. -/
def ArgsAt (byte : Nat → Option (BitVec 8)) (argv : Nat) (ptrs : Nat → Nat) (args : List Arg) :
    Prop :=
  ∀ i (h : i < args.length), BytesAt byte (argv + 8 * i) (leBytes 8 (ptrs i)) ∧
    BytesAt byte (ptrs i) (args[i].bytes ++ [0])

/-- What the caller has at an address. -/
def callerByte (s : Executing) (a : Nat) : Option (BitVec 8) :=
  match s.loading.currentMm with
  | some mm => userByte s.loading.swapping.memory mm a
  | none => some (s.kernelByte a)

/-- The caller asks for these arguments. -/
structure Asked (s : Executing) (args : List Arg) : Prop where
  argc : argcOf s = args.length
  argv : ∃ ptrs, ArgsAt (callerByte s) (argvOf s) ptrs args

/-- What the new program has at an address. -/
def programByte (s : Executing) (a : Nat) : Option (BitVec 8) :=
  s.loading.currentMm.bind fun mm => userByte s.loading.swapping.memory mm a

/-- `umain` is called with `a0` and `a1` as they are when `_start` is entered, and finds these
arguments there, which the stack cannot grow into. -/
structure ArgsPassed (s : Executing) (args : List Arg) : Prop where
  argc : s.loading.tf.gpr a0 = BitVec.ofNat 64 args.length
  argv : ∃ ptrs, ArgsAt (programByte s) (s.loading.tf.gpr a1).toNat ptrs args ∧
    ∀ i < args.length, (s.loading.tf.gpr sp).toNat ≤ ptrs i
  array : (s.loading.tf.gpr sp).toNat ≤ (s.loading.tf.gpr a1).toNat

variable {fileOpen : List (BitVec 8) → Except Errno File} {boot fuel name argv : Nat} {argc : Int}

theorem argc_of_doExecve {r : Ending}
    (hrun : doExecve fileOpen boot fuel name argc argv s = .ok (.ok r, s')) :
    1 ≤ argc ∧ argc ≤ 32 := by
  rw [doExecve] at hrun
  split at hrun
  · cases hrun
  · next hargc => exact not_not.mp hargc

/-- What `syscall` leaves in `a0` when `do_execve` returns 0. -/
theorem a0_of_syscallExec (hrun : syscallExec fileOpen boot fuel s = .ok (.ok .returned, s')) :
    s'.loading.tf.gpr a0 = 0 ∧ 1 ≤ argcOf s ∧ argcOf s ≤ 32 := by
  rw [syscallExec, getState_bind] at hrun
  obtain ⟨r, s₁, hexec, hrest⟩ := attempt_bind_eq_ok_iff.mp hrun
  match r, hrest with
  | .error e, hrest => cases hrest
  | .ok (.exited e), hrest => cases hrest
  | .ok .returned, hrest =>
      cases hrest
      have hself : Function.update s₁.loading.tf.gpr a0 0 a0 = 0 := Function.update_self _ _ _
      exact ⟨hself, argc_of_doExecve hexec⟩

theorem syscallExec_of {t : Executing} (hexec : doExecve fileOpen boot fuel
      (s.loading.tf.gpr a1).toNat (argcOf s) (argvOf s) s = .ok (.ok .returned, t)) :
    ∃ s', syscallExec fileOpen boot fuel s = .ok (.ok .returned, s') := by
  refine ⟨{ t with loading := { t.loading with
    tf := { t.loading.tf with gpr := Function.update t.loading.tf.gpr a0 0 } } }, ?_⟩
  rw [syscallExec, getState_bind, attempt_bind_of_ok hexec]
  rfl

/-- The new program never finds its arguments. -/
theorem not_argsPassed (hasked : Asked s args)
    (hrun : syscallExec fileOpen boot fuel s = .ok (.ok .returned, s')) : ¬ArgsPassed s' args := by
  intro hpassed
  obtain ⟨hzero, hlow, hhigh⟩ := a0_of_syscallExec hrun
  rw [hasked.argc] at hlow hhigh
  have hargc := hzero.symm.trans hpassed.argc
  have hnat : (BitVec.ofNat 64 args.length).toNat = 0 := by
    rw [← hargc]
    rfl
  rw [BitVec.toNat_ofNat] at hnat
  omega

/-- A kernel thread that starts a program, and passes one character to it. -/
def kernelThread : Executing where
  loading := { booted with
    mallocs := [true, true, true, true, true]
    tf := { TrapFrame.zero with gpr := fun r =>
      if r = a1 then BitVec.ofNat 64 (KERNBASE + 8) else if r = a2 then 1
      else if r = a3 then BitVec.ofNat 64 KERNBASE else 0 } }
  kernelByte := fun a =>
    if a = KERNBASE then 0x08 else if a = KERNBASE + 2 then 0x20 else if a = KERNBASE + 3 then 0xC0
    else if KERNBASE + 4 ≤ a ∧ a < KERNBASE + 8 then 0xFF else if a = KERNBASE + 8 then 0x61 else 0
  mmCount := fun _ => 0
  procName := none

def oneChar : Arg := ⟨[0x61], by decide, by decide⟩

theorem asked_kernelThread : Asked kernelThread [oneChar] := by
  refine ⟨by decide, fun _ => KERNBASE + 8, fun i h => ?_⟩
  have hi : i = 0 := by simpa using h
  subst hi
  constructor
  · intro k hk
    have hall : ∀ j < 8, some (kernelThread.kernelByte (KERNBASE + j)) =
        (leBytes 8 (KERNBASE + 8))[j]? := by decide
    rw [← List.getElem?_eq_getElem hk, ← hall k hk]
    rfl
  · intro k hk
    have hall : ∀ j < 2, some (kernelThread.kernelByte (KERNBASE + 8 + j)) =
        [(0x61 : BitVec 8), 0][j]? := by decide
    exact (hall k hk).trans (List.getElem?_eq_getElem hk)

/-- The kernel thread when this many blocks of memory have been asked for. -/
def mallocked (n : Nat) : Executing :=
  { kernelThread with loading := { kernelThread.loading with
    mallocs := kernelThread.loading.mallocs.drop n } }

theorem copyName_kernelThread :
    copyName none (KERNBASE + 8) kernelThread = .ok (.ok (some [0x61]), kernelThread) := rfl

theorem copyKargv_kernelThread :
    copyKargv none 1 KERNBASE kernelThread = .ok (.ok [oneChar], mallocked 1) := rfl

theorem readLE_kernelThread :
    readLE none KERNBASE 8 (mallocked 1) = .ok (.ok (KERNBASE + 8), mallocked 1) := rfl

theorem sysfileOpen_kernelThread : sysfileOpen (fun _ => .ok twoBytes) none (KERNBASE + 8)
    (mallocked 1) = .ok (.ok twoBytes, mallocked 2) := rfl

theorem loadIcode_kernelThread : ∃ t, loadIcode twoBytes 1 3 [oneChar] (mallocked 2).loading =
    .ok (.ok (), t) := by
  have hready : Ready ∅ 1 (mallocked 2).loading :=
    ⟨⟨ready_booted.quiet.paged, rfl⟩, ready_booted.boot⟩
  have hload : ∃ d t, loadSegments twoBytes 1 3 (mallocked 2).loading = .ok (.ok d, t) :=
    eq_ok_of_returned (by decide +kernel)
  obtain ⟨d, t, hload⟩ := hload
  exact loadIcode_returns hready validImage_twoBytes (by decide) rfl (by decide) hload

theorem syscallExec_kernelThread : ∃ s, syscallExec (fun _ => .ok twoBytes) 1 3 kernelThread =
    .ok (.ok .returned, s) := by
  obtain ⟨t, hload⟩ := loadIcode_kernelThread
  have hloaded : onLoading (loadIcode twoBytes 1 3 [oneChar]) (mallocked 2) =
      .ok (.ok (), { mallocked 2 with loading := t }) := onPart_of hload
  have hexec : doExecve (fun _ => .ok twoBytes) 1 3 (KERNBASE + 8) 1 KERNBASE kernelThread =
      .ok (.ok .returned, { mallocked 2 with
        loading := t
        procName := some [0x61] }) := by
    have hmm : kernelThread.loading.currentMm = none := rfl
    have hargs : Int.toNat 1 = 1 := rfl
    have hdrop : dropMm none (mallocked 2) = .ok (.ok (), mallocked 2) := rfl
    rw [doExecve, if_neg (by decide), getState_bind, hmm, bind_of_ok copyName_kernelThread, hargs,
      bind_of_ok copyKargv_kernelThread, bind_of_ok readLE_kernelThread,
      attempt_bind_of_ok sysfileOpen_kernelThread]
    dsimp only
    rw [bind_of_ok hdrop, attempt_bind_of_ok hloaded]
    rfl
  have hname : (kernelThread.loading.tf.gpr a1).toNat = KERNBASE + 8 := by decide
  have hargc : argcOf kernelThread = 1 := by decide
  have hargv : argvOf kernelThread = KERNBASE := by decide
  rw [← hname, ← hargc, ← hargv] at hexec
  exact syscallExec_of hexec

theorem not_argsPassed_kernelThread : ∃ s, syscallExec (fun _ => .ok twoBytes) 1 3 kernelThread =
    .ok (.ok .returned, s) ∧ ¬ArgsPassed s [oneChar] := by
  obtain ⟨s, hrun⟩ := syscallExec_kernelThread
  exact ⟨s, hrun, not_argsPassed asked_kernelThread hrun⟩

/-- Programs do not get the arguments that they are started with. -/
theorem exists_not_argsPassed : ¬∀ (fileOpen : List (BitVec 8) → Except Errno File) (boot fuel : Nat)
    (s s' : Executing) (args : List Arg), Ready ∅ boot s.loading → Asked s args →
    syscallExec fileOpen boot fuel s = .ok (.ok .returned, s') → ArgsPassed s' args := by
  intro hall
  obtain ⟨s, hrun⟩ := syscallExec_kernelThread
  have hready : Ready ∅ 1 kernelThread.loading :=
    ⟨⟨ready_booted.quiet.paged, rfl⟩, ready_booted.boot⟩
  obtain ⟨hzero, _⟩ := a0_of_syscallExec hrun
  have hargc := (hall _ 1 3 kernelThread s [oneChar] hready asked_kernelThread hrun).argc
  rw [hzero] at hargc
  exact absurd hargc (by decide)

end Arguments

end Ucore.Exec
