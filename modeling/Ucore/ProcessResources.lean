import Ucore.FdTable

/-!
What `do_fork`, `do_execve` and `do_exit` of `kern/process/proc.c` do with the address spaces and
the open files of processes. The code is cut where a process may be suspended: in `lock_mm`, in
`vop_ref_dec`, and in the calls that work on files.
-/

namespace Ucore.ProcessResources

open Ucore.Errors
open Ucore.KernelRoutine
open Ucore.Interleaving
open Ucore.VfsFiles (FILES_STRUCT_NENTRY O_RDONLY LSEEK_SET)
open Ucore.FdTable (FdState Reply fdArrayClose newSession setSession fdArrayOpen)

/-- A process structure is free, built by `do_fork`, that of a child that `do_fork` gives up, that
of a process, that of one that has given back its `files_struct`, or that of a zombie. -/
inductive Stage where
  | free
  | made
  | undone
  | alive
  | leaving
  | zombie
  deriving DecidableEq

/-- A `cr3` that is none is `boot_cr3`. -/
structure Proc where
  stage : Stage
  mm : Option Nat
  cr3 : Option Nat
  filesp : Option Nat

/-- A `mm_struct` with the page of its `pgdir`. -/
structure MmStruct where
  live : Bool
  mmCount : Int
  pgdir : Nat

/-- `kept` is the number of processes that have exited without giving it back. -/
structure FilesStruct where
  live : Bool
  filesCount : Int
  table : FdState
  kept : Nat

/-- `pages` gives the pages that are page directories, and `cr3` is the register. -/
structure Machine (ι : Type) where
  proc : ι → Proc
  mm : Nat → MmStruct
  files : Nat → FilesStruct
  pages : Nat → Bool
  current : ι
  cr3 : Option Nat
  idleproc : ι
  initproc : ι

/-- What the end of `put_files` comes back to: `do_exit`, or `do_fork` on its way out. -/
inductive Next (ι : Type) where
  | exit
  | undo (child : ι)
  deriving DecidableEq

/-- `load_icode` goes on, waits for a seek or a read, or has seen one fail. -/
inductive Loading where
  | ready
  | seeking
  | reading
  | failed
  deriving DecidableEq

/-- Where a process is: outside the functions of this file, in `copy_mm`, in `files_destroy` with
some entries left, in `do_execve` before and in `files_closeall`, before and after its
`sysfile_open`, in `load_icode` before and after its `sysfile_close`. -/
inductive Place (ι : Type) where
  | outside
  | forking (child : ι) (mm : Nat)
  | destroying (f : Nat) (rest : List Nat) (next : Next ι)
  | execArgs
  | execClosing (rest : List Nat)
  | execOpening
  | execOpened (fd : Nat) (opened : Bool)
  | execLoading (fd mm : Nat) (loading : Loading)
  | execMapping (mm : Nat)
  deriving DecidableEq

/-- A process may be suspended in a call on a descriptor. -/
structure Pc (ι : Type) where
  place : Place ι
  call : FdTable.Pc
  deriving DecidableEq

variable {ι : Type} [DecidableEq ι]

section State

def Machine.setProc (s : Machine ι) (p : ι) (v : Proc) : Machine ι :=
  { s with proc := Function.update s.proc p v }

def Machine.setMm (s : Machine ι) (m : Nat) (v : MmStruct) : Machine ι :=
  { s with mm := Function.update s.mm m v }

def Machine.setFiles (s : Machine ι) (f : Nat) (v : FilesStruct) : Machine ι :=
  { s with files := Function.update s.files f v }

def Machine.setPage (s : Machine ι) (page : Nat) (v : Bool) : Machine ι :=
  { s with pages := Function.update s.pages page v }

def modifyProc (p : ι) (g : Proc → Proc) : Routine (Machine ι) Unit :=
  modifyState fun s => s.setProc p (g (s.proc p))

def modifyMm (m : Nat) (g : MmStruct → MmStruct) : Routine (Machine ι) Unit :=
  modifyState fun s => s.setMm m (g (s.mm m))

def modifyFiles (f : Nat) (g : FilesStruct → FilesStruct) : Routine (Machine ι) Unit :=
  modifyState fun s => s.setFiles f (g (s.files f))

def setStage (p : ι) (stage : Stage) : Routine (Machine ι) Unit :=
  modifyProc p fun proc => { proc with stage := stage }

def lcr3 (v : Option Nat) : Routine (Machine ι) Unit :=
  modifyState fun s => { s with cr3 := v }

/-- Code that works on the descriptors of a `files_struct`. -/
def onTable {α : Type} (f : Nat) (x : Routine FdState α) : Routine (Machine ι) α :=
  onPart (fun s => (s.files f).table) (fun t s => s.setFiles f { s.files f with table := t }) x

def stay (place : Place ι) : Routine (Machine ι) (Pc ι) :=
  return { place := place, call := .idle }

end State

section AddressSpaces

/-- `mm_create` and `setup_pgdir`, with what `kmalloc` and `alloc_page` return. What is in use is
returned by neither. -/
def newMm : Option Nat → Option Nat → Routine (Machine ι) Nat
  | some m, some page => do
      let s ← getState
      if (s.mm m).live = true ∨ s.pages page = true then
        fail .eNoMem
      else
        modifyState fun s => s.setPage page true
        modifyMm m fun _ => { live := true, mmCount := 0, pgdir := page }
        return m
  | _, _ => fail .eNoMem

/-- `exit_mmap`, `put_pgdir` and `mm_destroy`. -/
def mmDestroy (m : Nat) : Routine (Machine ι) Unit := do
  modifyState fun s => s.setPage (s.mm m).pgdir false
  let s ← getState
  ensure ((s.mm m).mmCount = 0)
  modifyMm m fun mm => { mm with live := false }

/-- `mm_count_dec` and what follows it. -/
def putMm (m : Nat) : Routine (Machine ι) Unit := do
  modifyMm m fun mm => { mm with mmCount := mm.mmCount - 1 }
  let s ← getState
  if (s.mm m).mmCount = 0 then
    mmDestroy m
  else
    return ()

/-- `mm_count_inc`, and the address space becomes that of the process. -/
def giveMm (p : ι) (m : Nat) : Routine (Machine ι) Unit := do
  modifyMm m fun mm => { mm with mmCount := mm.mmCount + 1 }
  let s ← getState
  modifyProc p fun proc => { proc with mm := some m, cr3 := some (s.mm m).pgdir }

/-- The current process gives up its address space, if it has one. -/
def dropMm (i : ι) : Routine (Machine ι) Unit := do
  let s ← getState
  match (s.proc i).mm with
  | none => return ()
  | some m =>
      lcr3 none
      putMm m
      modifyProc i fun proc => { proc with mm := none }

end AddressSpaces

section Files

/-- `files_create`, with what `kmalloc` returns. -/
def filesCreate : Option Nat → Routine (Machine ι) Nat
  | none => fail .eNoMem
  | some f => do
      let s ← getState
      if (s.files f).live = true then
        fail .eNoMem
      else
        modifyFiles f fun _ =>
          { live := true, filesCount := 0, table := (FdTable.initial ι).shared, kept := 0 }
        return f

/-- `fd_array_dup` to an entry of a new table, with the number of the new open. -/
def dupEntry (fd : Nat) (file : VfsFiles.File) : Routine FdState Unit := do
  FdTable.modifyFile fd fun file' => { file' with status := .fdInit }
  let session ← newSession
  setSession fd session
  FdTable.modifyFile fd fun file' => { file' with
    pos := file.pos
    readable := file.readable
    writable := file.writable
    node := file.node }
  fdArrayOpen fd

/-- The loop of `dup_files`. -/
def dupEntries (from' : Nat → VfsFiles.File) : List Nat → Routine FdState Unit
  | [] => return ()
  | fd :: fds => do
      if (from' fd).status = .fdOpened then
        dupEntry fd (from' fd)
        dupEntries from' fds
      else
        dupEntries from' fds

def dupFiles (to' from' : Nat) : Routine (Machine ι) Unit := do
  let s ← getState
  ensure ((s.files to').filesCount = 0 ∧ 0 < (s.files from').filesCount)
  onTable to' (dupEntries (s.files from').table.fdArray (List.range FILES_STRUCT_NENTRY))

/-- `files_count_inc`, and the `files_struct` becomes that of the process. -/
def giveFiles (p : ι) (f : Nat) : Routine (Machine ι) Unit := do
  modifyFiles f fun files => { files with filesCount := files.filesCount + 1 }
  modifyProc p fun proc => { proc with filesp := some f }

/-- `current->filesp`, which the code goes through. -/
def filesOf (i : ι) : Routine (Machine ι) Nat := do
  let s ← getState
  match (s.proc i).filesp with
  | none => abort .panic
  | some f => return f

def copyFiles (i child : ι) (cloneFs : Bool) (f : Option Nat) : Routine (Machine ι) Unit := do
  let old ← filesOf i
  if cloneFs = true then
    giveFiles child old
  else
    let new ← filesCreate f
    dupFiles new old
    giveFiles child new

/-- `files_destroy` up to the first `vfs_close` that it comes to. -/
def destroyEntries : List Nat → Routine FdState (FdTable.Pc × List Nat)
  | [] => return (.idle, [])
  | fd :: fds => do
      let t ← getState
      if (t.fdArray fd).status = .fdOpened then
        let call ← fdArrayClose fd
        if call = .idle then
          let t ← getState
          ensure ((t.fdArray fd).status = .fdNone)
          destroyEntries fds
        else
          return (call, fd :: fds)
      else
        ensure ((t.fdArray fd).status = .fdNone)
        destroyEntries fds

/-- `files_closeall` up to the first entry that it closes. -/
def closeallEntries : List Nat → Routine FdState (FdTable.Pc × List Nat)
  | [] => return (.idle, [])
  | fd :: fds => do
      let t ← getState
      if (t.fdArray fd).status = .fdOpened then
        let call ← fdArrayClose fd
        return (call, fds)
      else
        closeallEntries fds

/-- The stage of the process whose `files_struct` was given back. -/
def Next.stage : Next ι → Stage
  | .exit => .leaving
  | .undo _ => .undone

/-- What is left of `do_exit` or of `do_fork` after `put_files`. -/
def finish (i : ι) : Next ι → Routine (Machine ι) (Pc ι)
  | .exit => do
      setStage i .zombie
      stay .outside
  | .undo child => do
      setStage child .free
      stay .outside

/-- `files_destroy`, with the entries that are left. -/
def filesDestroy (i : ι) (f : Nat) (rest : List Nat) (next : Next ι) :
    Routine (Machine ι) (Pc ι) := do
  let (call, rest) ← onTable f (destroyEntries rest)
  if rest = [] then
    modifyFiles f fun files => { files with live := false }
    finish i next
  else
    return { place := .destroying f rest next, call := call }

/-- `put_files`, up to `vop_ref_dec` in `files_destroy`. -/
def putFiles (i p : ι) (next : Next ι) : Routine (Machine ι) (Pc ι) := do
  let s ← getState
  match (s.proc p).filesp with
  | none => finish i next
  | some f =>
      setStage p next.stage
      modifyFiles f fun files => { files with filesCount := files.filesCount - 1 }
      let s ← getState
      if (s.files f).filesCount = 0 then
        stay (.destroying f (List.range FILES_STRUCT_NENTRY) next)
      else
        finish i next

end Files

section Fork

/-- The end of `do_fork`. -/
def forkDone (child : ι) : Routine (Machine ι) (Pc ι) := do
  setStage child .alive
  stay .outside

/-- `copy_mm`, up to `lock_mm` in it. -/
def copyMm (i child : ι) (cloneVm : Bool) (m page : Option Nat) : Routine (Machine ι) (Pc ι) := do
  let s ← getState
  match (s.proc i).mm with
  | none => forkDone child
  | some old =>
      if cloneVm = true then
        giveMm child old
        forkDone child
      else
        let new ← newMm m page
        stay (.forking child new)

/-- `do_fork` with the structure that `alloc_proc` returns. -/
def doFork (i child : ι) (cloneFs cloneVm : Bool) (f m page : Option Nat) :
    Routine (Machine ι) (Pc ι) := do
  let s ← getState
  if (s.proc child).stage ≠ .free then
    stay .outside
  else
    modifyProc child fun _ => { stage := .made, mm := none, cr3 := none, filesp := none }
    match ← attempt (copyFiles i child cloneFs f) with
    | .error _ => finish i (.undo child)
    | .ok _ =>
        match ← attempt (copyMm i child cloneVm m page) with
        | .error _ => putFiles i child (.undo child)
        | .ok pc => return pc

/-- `copy_mm` after `dup_mmap`. -/
def forkCopied (i child : ι) (m : Nat) (copied : Bool) : Routine (Machine ι) (Pc ι) := do
  if copied = true then
    giveMm child m
    forkDone child
  else
    mmDestroy m
    putFiles i child (.undo child)

end Fork

section ExitExec

/-- A process exits with its `files_struct`. -/
def keepFiles (i : ι) : Routine (Machine ι) Unit := do
  let s ← getState
  match (s.proc i).filesp with
  | none => return ()
  | some f => modifyFiles f fun files => { files with kept := files.kept + 1 }

def doExit (i : ι) : Routine (Machine ι) (Pc ι) := do
  let s ← getState
  ensure (i ≠ s.idleproc)
  ensure (i ≠ s.initproc)
  match (s.proc i).mm with
  | none =>
      keepFiles i
      finish i .exit
  | some _ =>
      dropMm i
      putFiles i i .exit

/-- A call on the descriptors of a process. -/
def startCall (i : ι) (place failed : Place ι) (call : FdTable.Call) :
    Routine (Machine ι) (Pc ι) := do
  let f ← filesOf i
  match ← attempt (onTable f (FdTable.start call)) with
  | .error _ => stay failed
  | .ok call => return { place := place, call := call }

/-- `do_execve` after the arguments are copied. -/
def execCopied (i : ι) : Routine (Machine ι) (Pc ι) := do
  let f ← filesOf i
  let s ← getState
  ensure (0 < (s.files f).filesCount)
  stay (.execClosing ((List.range FILES_STRUCT_NENTRY).drop 2))

/-- `files_closeall`, with the entries that are left. -/
def execClose (i : ι) (rest : List Nat) : Routine (Machine ι) (Pc ι) := do
  let f ← filesOf i
  let (call, rest) ← onTable f (closeallEntries rest)
  if rest = [] then
    return { place := .execOpening, call := call }
  else
    return { place := .execClosing rest, call := call }

/-- `sysfile_open`, with what `copy_path` returns. -/
def execOpen (i : ι) (copied : Bool) : Routine (Machine ι) (Pc ι) :=
  if copied = true then
    startCall i .execOpening (.execOpened 0 false) (.open O_RDONLY)
  else
    doExit i

/-- `do_execve` after `sysfile_open`, up to the reads of `load_icode`. -/
def execOpened (i : ι) (fd : Nat) (opened : Bool) (m page : Option Nat) :
    Routine (Machine ι) (Pc ι) := do
  if opened = false then
    doExit i
  else
    dropMm i
    match ← attempt (newMm m page) with
    | .error _ => doExit i
    | .ok new => stay (.execLoading fd new .ready)

/-- `load_icode` gives up. -/
def loadFailed (i : ι) (m : Nat) : Routine (Machine ι) (Pc ι) := do
  mmDestroy m
  doExit i

/-- `load_icode` goes on: it reads at an offset, is done with the file, or gives up. -/
def execLoad (i : ι) (fd m : Nat) (ok : Bool) (offset : Option Int) :
    Loading → Routine (Machine ι) (Pc ι)
  | .ready =>
      match offset with
      | some offset =>
          startCall i (.execLoading fd m .seeking) (.execLoading fd m .failed)
            (.seek fd offset LSEEK_SET)
      | none =>
          if ok = true then
            startCall i (.execMapping m) (.execMapping m) (.close fd)
          else
            loadFailed i m
  | .seeking =>
      startCall i (.execLoading fd m .reading) (.execLoading fd m .failed) (.read fd)
  | .reading => if ok = true then stay (.execLoading fd m .ready) else loadFailed i m
  | .failed => loadFailed i m

/-- `load_icode` after `sysfile_close`. -/
def execMapped (i : ι) (m : Nat) (mapped : Bool) : Routine (Machine ι) (Pc ι) := do
  if mapped = true then
    giveMm i m
    let s ← getState
    lcr3 (s.proc i).cr3
    stay .outside
  else
    loadFailed i m

end ExitExec

section Steps

/-- What a process outside these functions does next. -/
inductive Syscall (ι : Type) where
  | call (call : FdTable.Call)
  | fork (child : ι) (cloneFs cloneVm : Bool) (f m page : Option Nat)
  | exec
  | exit
  | reap (child : ι)

/-- What the code that a process was suspended in returns: the reply of a call on an inode,
whether the code succeeded, what the allocators give, and the offset of the next read. -/
structure Answer where
  reply : Reply
  ok : Bool
  mm : Option Nat
  page : Option Nat
  offset : Option Int

/-- The end of `do_wait` for a zombie. -/
def reap (child : ι) : Routine (Machine ι) (Pc ι) := do
  let s ← getState
  if (s.proc child).stage = .zombie then
    setStage child .free
    stay .outside
  else
    stay .outside

def start (i : ι) : Syscall ι → Routine (Machine ι) (Pc ι)
  | .call call => startCall i .outside .outside call
  | .fork child cloneFs cloneVm f m page => doFork i child cloneFs cloneVm f m page
  | .exec => stay .execArgs
  | .exit => doExit i
  | .reap child => reap child

/-- The table that the calls of a process at a place are about. -/
def Place.table (proc : Proc) : Place ι → Option Nat
  | .destroying f _ _ => some f
  | _ => proc.filesp

/-- The place of a process after a part of its call has returned. -/
def Place.answered (call : FdTable.Pc) (reply : Reply) : Place ι → Place ι
  | .execOpening =>
      match call with
      | .opening fd _ => .execOpened fd (reply.ret = .ok ())
      | _ => .execOpening
  | .execLoading fd m loading =>
      if reply.ret = .ok () then .execLoading fd m loading else .execLoading fd m .failed
  | place => place

/-- A call on a descriptor goes on. -/
def resumeCall (i : ι) (a : Answer) (pc : Pc ι) : Routine (Machine ι) (Pc ι) := do
  let s ← getState
  match pc.place.table (s.proc i) with
  | none => abort .panic
  | some f =>
      let r ← attempt (onTable f (FdTable.resume a.reply pc.call))
      return { place := pc.place.answered pc.call a.reply, call := FdTable.after r }

/-- The code at a place goes on, when no call on a descriptor is left to do. -/
def resumePlace (i : ι) (a : Answer) : Place ι → Routine (Machine ι) (Pc ι)
  | .outside => stay .outside
  | .forking child m => forkCopied i child m a.ok
  | .destroying f rest next => filesDestroy i f rest next
  | .execArgs => if a.ok = true then execCopied i else stay .outside
  | .execClosing rest => execClose i rest
  | .execOpening => execOpen i a.ok
  | .execOpened fd opened => execOpened i fd opened a.mm a.page
  | .execLoading fd m loading => execLoad i fd m a.ok a.offset loading
  | .execMapping m => execMapped i m a.ok

def resume (i : ι) (a : Answer) (pc : Pc ι) : Routine (Machine ι) (Pc ι) :=
  if pc.call = .idle then resumePlace i a pc.place else resumeCall i a pc

/-- `proc_run`. -/
def procRun (next : ι) (s : Machine ι) : Machine ι :=
  { s with current := next, cr3 := (s.proc next).cr3 }

abbrev System (ι : Type) := Threads ι (Machine ι) (Pc ι)

/-- A process that the scheduler may pick. -/
def Runnable (s : System ι) (i : ι) : Prop :=
  (s.shared.proc i).stage = .alive ∨ (s.shared.proc i).stage = .leaving

/-- A process that is in none of these functions and in no call. -/
def ready : Pc ι where
  place := .outside
  call := .idle

/-- The scheduler picks another process, or the current one goes on. -/
inductive Step : System ι → System ι → Prop
  | run {s : System ι} {next : ι} :
      Runnable s next → next ≠ s.shared.current →
        Step s { s with shared := procRun next s.shared }
  | start {s : System ι} {i : ι} {syscall : Syscall ι} {pc : Pc ι} {t : Machine ι} :
      i = s.shared.current → Runnable s i → s.pc i = ready →
        start i syscall s.shared = .ok (.ok pc, t) →
          Step s { shared := t, pc := Function.update s.pc i pc }
  | resume {s : System ι} {i : ι} {a : Answer} {pc : Pc ι} {t : Machine ι} :
      i = s.shared.current → Runnable s i → s.pc i ≠ ready →
        (s.pc i).call.Expects a.reply → resume i a (s.pc i) s.shared = .ok (.ok pc, t) →
          Step s { shared := t, pc := Function.update s.pc i pc }

/-- Who the scheduler picks, what the current process calls, or what its call gets back. -/
inductive Move (ι : Type) where
  | run (next : ι)
  | start (syscall : Syscall ι)
  | resume (a : Answer)

instance (s : System ι) (i : ι) : Decidable (Runnable s i) :=
  inferInstanceAs (Decidable (_ ∨ _))

instance (reply : Reply) (pc : FdTable.Pc) : Decidable (pc.Expects reply) :=
  match pc with
  | .opening _ _ => inferInstanceAs (Decidable (reply.ret = .ok () → reply.value ≠ 0))
  | .idle | .openFstat _ _ _ _ | .openFailed _ | .transferring _ | .seekFstat _ _ | .seeking _ _
  | .using _ | .freeing _ => isTrue trivial

/-- The current process is suspended again. -/
def suspend (s : System ι) : Except Panic.Abort (Except Errno (Pc ι) × Machine ι) → Option (System ι)
  | .ok (.ok pc, t) => some { shared := t, pc := Function.update s.pc s.shared.current pc }
  | _ => none

/-- The step for a move, if it is possible. -/
def move (s : System ι) : Move ι → Option (System ι)
  | .run next =>
      if Runnable s next ∧ next ≠ s.shared.current then
        some { s with shared := procRun next s.shared }
      else
        none
  | .start syscall =>
      if Runnable s s.shared.current ∧ s.pc s.shared.current = ready then
        suspend s (start s.shared.current syscall s.shared)
      else
        none
  | .resume a =>
      if Runnable s s.shared.current ∧ s.pc s.shared.current ≠ ready ∧
          (s.pc s.shared.current).call.Expects a.reply then
        suspend s (resume s.shared.current a (s.pc s.shared.current) s.shared)
      else
        none

def play : List (Move ι) → System ι → Option (System ι)
  | [], s => some s
  | m :: moves, s => (move s m).bind (play moves)

/-- A `files_struct` that one process has. -/
def firstFiles (ι : Type) (live : Bool) : FilesStruct where
  live := live
  filesCount := if live = true then 1 else 0
  table := (FdTable.initial ι).shared
  kept := 0

/-- After `proc_init`. -/
def initial (idleproc initproc : ι) : System ι where
  shared :=
    { proc := fun p =>
        if p = idleproc then { stage := .alive, mm := none, cr3 := none, filesp := some 0 }
        else if p = initproc then { stage := .alive, mm := none, cr3 := none, filesp := some 1 }
        else { stage := .free, mm := none, cr3 := none, filesp := none }
      mm := fun _ => { live := false, mmCount := 0, pgdir := 0 }
      files := fun f => firstFiles ι (f < 2)
      pages := fun _ => false
      current := idleproc
      cr3 := none
      idleproc := idleproc
      initproc := initproc }
  pc := fun _ => ready

end Steps

end Ucore.ProcessResources
