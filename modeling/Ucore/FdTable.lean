import Ucore.Interleaving
import Ucore.VfsFiles

/-!
The descriptor table of `kern/fs/file.c` when threads share it. A thread may be
suspended in each call of a `vop_*` or `vfs_*` function, so a call on a
descriptor is cut there into pieces that run without interruption.
-/

namespace Ucore.FdTable

open Ucore.Errors
open Ucore.KernelRoutine
open Ucore.Interleaving
open Ucore.VfsFiles

/-- The table. Every successful `vfs_open` or `file_dup` gets a number, `session`
is that of the entry, and `closed` lists those that `vfs_close` was called for. -/
structure FdState where
  fdArray : Nat → File
  session : Nat → Nat
  opens : Nat
  closed : List Nat

def FdState.setFile (s : FdState) (fd : Nat) (v : File) : FdState :=
  { s with fdArray := Function.update s.fdArray fd v }

inductive Call where
  | open (openFlags : Nat)
  | close (fd : Int)
  | read (fd : Int)
  | write (fd : Int)
  | seek (fd pos whence : Int)
  | fstat (fd : Int)
  | fsync (fd : Int)
  | getdirentry (fd : Int)
  | dup (fd1 fd2 : Int)

/-- Where a thread is suspended: in `vfs_open`, in `vop_fstat` of `file_open`, in
its `vfs_close`, in the operation on the inode of an open file, in `vop_fstat`
of `file_seek`, or in `vfs_close` of `fd_array_free`. -/
inductive Pc where
  | idle
  | opening (fd openFlags : Nat)
  | openFstat (fd openFlags node session : Nat)
  | openFailed (fd : Nat)
  | transferring (fd : Nat)
  | seekFstat (fd : Nat) (pos : Int)
  | seeking (fd : Nat) (pos : Int)
  | using (fd : Nat)
  | freeing (fd : Nat)
  deriving DecidableEq

/-- What the call that a thread was suspended in returns: a code, and the inode,
the size or the number of bytes that it hands back. -/
structure Reply where
  ret : Except Errno Unit
  value : Nat

section Entries

def modifyFile (fd : Nat) (f : File → File) : Routine FdState Unit :=
  modifyState fun s => s.setFile fd (f (s.fdArray fd))

def newSession : Routine FdState Nat := fun s =>
  .ok (.ok s.opens, { s with opens := s.opens + 1 })

def setSession (fd session : Nat) : Routine FdState Unit :=
  modifyState fun s => { s with session := Function.update s.session fd session }

/-- `vfs_close` is called for the session. -/
def callVfsClose (session : Nat) : Routine FdState Unit :=
  modifyState fun s => { s with closed := session :: s.closed }

/-- `fd_array_alloc` from `found` on. -/
def fdArrayReserve (fd : Nat) : Routine FdState Nat := do
  let s ← getState
  ensure ((s.fdArray fd).openCount = 0)
  modifyFile fd fun file => { file with status := .fdInit, node := 0 }
  return fd

def fdArrayAlloc (fd : Int) : Routine FdState Nat := do
  let s ← getState
  if fd = NO_FD then
    match (List.range FILES_STRUCT_NENTRY).find? fun fd => (s.fdArray fd).status = .fdNone with
    | none => fail .eMaxOpen
    | some fd => fdArrayReserve fd
  else if testfd fd = true then
    if (s.fdArray fd.toNat).status = .fdNone then
      fdArrayReserve fd.toNat
    else
      fail .eBusy
  else
    fail .eInval

/-- `fd_array_free` up to its `vfs_close`, if it gets there. -/
def fdArrayFree (fd : Nat) : Routine FdState Pc := do
  let s ← getState
  let file := s.fdArray fd
  ensure (file.status = .fdInit ∨ file.status = .fdClosed)
  ensure (file.openCount = 0)
  if file.status = .fdClosed then
    callVfsClose (s.session fd)
    return .freeing fd
  else
    modifyFile fd fun file => { file with status := .fdNone }
    return .idle

def fdArrayAcquire (fd : Nat) : Routine FdState Unit := do
  let s ← getState
  ensure ((s.fdArray fd).status = .fdOpened)
  modifyFile fd fun file => { file with openCount := file.openCount + 1 }

def fdArrayRelease (fd : Nat) : Routine FdState Pc := do
  let s ← getState
  let file := s.fdArray fd
  ensure (file.status = .fdOpened ∨ file.status = .fdClosed)
  ensure (0 < file.openCount)
  modifyFile fd fun file => { file with openCount := file.openCount - 1 }
  if file.openCount - 1 = 0 then
    fdArrayFree fd
  else
    return .idle

def fdArrayOpen (fd : Nat) : Routine FdState Unit := do
  let s ← getState
  ensure ((s.fdArray fd).status = .fdInit ∧ (s.fdArray fd).node ≠ 0)
  modifyFile fd fun file => { file with status := .fdOpened, openCount := file.openCount + 1 }

def fdArrayClose (fd : Nat) : Routine FdState Pc := do
  let s ← getState
  let file := s.fdArray fd
  ensure (file.status = .fdOpened)
  ensure (0 < file.openCount)
  modifyFile fd fun file => { file with status := .fdClosed, openCount := file.openCount - 1 }
  if file.openCount - 1 = 0 then
    fdArrayFree fd
  else
    return .idle

def fdArrayDup (toFd fromFd : Nat) : Routine FdState Unit := do
  let s ← getState
  let file := s.fdArray fromFd
  ensure ((s.fdArray toFd).status = .fdInit ∧ file.status = .fdOpened)
  modifyFile toFd fun file' => { file' with
    pos := file.pos
    readable := file.readable
    writable := file.writable
    node := file.node }
  fdArrayOpen toFd

def fd2file (fd : Int) : Routine FdState Nat := do
  let s ← getState
  if testfd fd = true ∧ (s.fdArray fd.toNat).status = .fdOpened ∧
      ((s.fdArray fd.toNat).fd : Int) = fd then
    return fd.toNat
  else
    fail .eInval

end Entries

section Calls

/-- The end of `file_open`. -/
def fileOpened (fd openFlags node session : Nat) (pos : Int) : Routine FdState Pc := do
  let mode := openFlags &&& O_ACCMODE
  modifyFile fd fun file => { file with
    pos := pos
    node := node
    readable := mode ≠ O_WRONLY
    writable := mode ≠ O_RDONLY }
  setSession fd session
  fdArrayOpen fd
  return .idle

def fileOpen (openFlags : Nat) : Routine FdState Pc := do
  let mode := openFlags &&& O_ACCMODE
  if mode ≠ O_RDONLY ∧ mode ≠ O_WRONLY ∧ mode ≠ O_RDWR then
    fail .eInval
  else
    let fd ← fdArrayAlloc NO_FD
    return .opening fd openFlags

/-- `file_open` after `vfs_open`. -/
def fileOpenNode (fd openFlags : Nat) (reply : Reply) : Routine FdState Pc := do
  match reply.ret with
  | .error _ => fdArrayFree fd
  | .ok _ =>
      let session ← newSession
      if openFlags &&& O_APPEND ≠ 0 then
        return .openFstat fd openFlags reply.value session
      else
        fileOpened fd openFlags reply.value session 0

/-- `file_open` after `vop_fstat`. -/
def fileOpenPos (fd openFlags node session : Nat) (reply : Reply) : Routine FdState Pc := do
  match reply.ret with
  | .error _ =>
      callVfsClose session
      return .openFailed fd
  | .ok _ => fileOpened fd openFlags node session reply.value

def fileClose (fd : Int) : Routine FdState Pc := do
  let file ← fd2file fd
  fdArrayClose file

/-- `file_read` and `file_write` up to the operation on the inode. -/
def fileTransfer (permitted : File → Bool) (fd : Int) : Routine FdState Pc := do
  let file ← fd2file fd
  let s ← getState
  if permitted (s.fdArray file) = false then
    fail .eInval
  else
    fdArrayAcquire file
    return .transferring file

def fileRead (fd : Int) : Routine FdState Pc :=
  fileTransfer (fun file => file.readable) fd

def fileWrite (fd : Int) : Routine FdState Pc :=
  fileTransfer (fun file => file.writable) fd

/-- `file_read` and `file_write` after the operation on the inode. -/
def fileTransferred (fd : Nat) (reply : Reply) : Routine FdState Pc := do
  modifyFile fd fun file =>
    if file.status = .fdOpened then { file with pos := file.pos + reply.value } else file
  fdArrayRelease fd

def fileSeek (fd pos whence : Int) : Routine FdState Pc := do
  let file ← fd2file fd
  fdArrayAcquire file
  let s ← getState
  if whence = LSEEK_SET then
    return .seeking file pos
  else if whence = LSEEK_CUR then
    return .seeking file (Int.bmod (pos + (s.fdArray file).pos) (2 ^ 64))
  else if whence = LSEEK_END then
    return .seekFstat file pos
  else
    fdArrayRelease file

/-- `file_seek` after `vop_fstat`. -/
def fileSeekEnd (fd : Nat) (pos : Int) (reply : Reply) : Routine FdState Pc := do
  match reply.ret with
  | .error _ => fdArrayRelease fd
  | .ok _ => return .seeking fd (Int.bmod (pos + reply.value) (2 ^ 64))

/-- `file_seek` after `vop_tryseek`. -/
def fileSought (fd : Nat) (pos : Int) (reply : Reply) : Routine FdState Pc := do
  match reply.ret with
  | .error _ => fdArrayRelease fd
  | .ok _ =>
      modifyFile fd fun file => { file with pos := pos }
      fdArrayRelease fd

/-- The calls that make one operation on the inode and leave the entry alone. -/
def fileUse (fd : Int) : Routine FdState Pc := do
  let file ← fd2file fd
  fdArrayAcquire file
  return .using file

def fileFstat (fd : Int) : Routine FdState Pc := fileUse fd

def fileFsync (fd : Int) : Routine FdState Pc := fileUse fd

def fileGetdirentry (fd : Int) : Routine FdState Pc := fileUse fd

def fileDup (fd1 fd2 : Int) : Routine FdState Pc := do
  let file1 ← fd2file fd1
  let file2 ← fdArrayAlloc fd2
  let session ← newSession
  setSession file2 session
  fdArrayDup file2 file1
  return .idle

/-- `fd_array_free` after `vfs_close`, and `file_open` after its `vfs_close`. -/
def fdArrayFreed (fd : Nat) : Routine FdState Pc := do
  modifyFile fd fun file => { file with status := .fdNone }
  return .idle

def start : Call → Routine FdState Pc
  | .open openFlags => fileOpen openFlags
  | .close fd => fileClose fd
  | .read fd => fileRead fd
  | .write fd => fileWrite fd
  | .seek fd pos whence => fileSeek fd pos whence
  | .fstat fd => fileFstat fd
  | .fsync fd => fileFsync fd
  | .getdirentry fd => fileGetdirentry fd
  | .dup fd1 fd2 => fileDup fd1 fd2

def resume (reply : Reply) : Pc → Routine FdState Pc
  | .idle => return .idle
  | .opening fd openFlags => fileOpenNode fd openFlags reply
  | .openFstat fd openFlags node session => fileOpenPos fd openFlags node session reply
  | .openFailed fd => fdArrayFree fd
  | .transferring fd => fileTransferred fd reply
  | .seekFstat fd pos => fileSeekEnd fd pos reply
  | .seeking fd pos => fileSought fd pos reply
  | .using fd => fdArrayRelease fd
  | .freeing fd => fdArrayFreed fd

/-- `vfs_open` returns an inode or an error. -/
def Pc.Expects (reply : Reply) : Pc → Prop
  | .opening _ _ => reply.ret = .ok () → reply.value ≠ 0
  | _ => True

/-- A call that fails is over. -/
def after : Except Errno Pc → Pc
  | .ok pc => pc
  | .error _ => .idle

end Calls

section Steps

variable {ι : Type} [DecidableEq ι]

abbrev System (ι : Type) := Threads ι FdState Pc

/-- A thread begins a call, or goes on with the one it is in. -/
inductive Step : System ι → System ι → Prop
  | start {s : System ι} {i : ι} {call : Call} {r : Except Errno Pc} {t : FdState} :
      s.pc i = .idle → start call s.shared = .ok (r, t) →
        Step s { shared := t, pc := Function.update s.pc i (after r) }
  | resume {s : System ι} {i : ι} {reply : Reply} {r : Except Errno Pc} {t : FdState} :
      s.pc i ≠ .idle → (s.pc i).Expects reply → resume reply (s.pc i) s.shared = .ok (r, t) →
        Step s { shared := t, pc := Function.update s.pc i (after r) }

/-- `fd_array_init`. -/
def fdArrayInit (fd : Nat) : File where
  status := .fdNone
  readable := false
  writable := false
  fd := fd
  pos := 0
  node := 0
  openCount := 0

/-- A new table, and threads that are in no call. -/
def initial (ι : Type) : System ι where
  shared := { fdArray := fdArrayInit, session := fun _ => 0, opens := 0, closed := [] }
  pc := fun _ => .idle

end Steps

end Ucore.FdTable
