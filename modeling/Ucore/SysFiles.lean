import Ucore.VfsFiles

/-!
Writing to open files, and the calls of `kern/fs/sysfile.c` that read and write. The user
memory of a call is what `copy_from_user` and `copy_to_user` find from its `base` on.
-/

namespace Ucore.SysFiles

open Ucore.Errors
open Ucore.KernelRoutine
open Ucore.ByteBuffer
open Ucore.SfsDisk
open Ucore.SfsIo
open Ucore.VfsFiles

def IOBUF_SIZE : Nat := 4096

section Files

/-- `sfs_write`; directories have no `vop_write`. -/
def vopWrite (node : Nat) (iob : Iobuf) : Routine VfsState (Except Errno Unit × Iobuf) := do
  let s ← getState
  ensure ((s.sfs.inode node).din.type = SFS_TYPE_FILE)
  inodeCheck node
  onSfs (sfsIo node iob true)

/-- The code of `file_write` after the checks; returns the code of `vop_write` and
`*copied_store`. -/
def writeFile (file : Nat) (base : Bytes) (len : Nat) :
    Routine VfsState (Except Errno Unit × Nat) := do
  fdArrayAcquire file
  let s ← getState
  let (r, iob) ← vopWrite (s.fdArray file).node (iobufInit base len (s.fdArray file).pos)
  let copied := iobufUsed iob
  modifyFile file fun file =>
    if file.status = .fdOpened then { file with pos := file.pos + copied } else file
  fdArrayRelease file
  return (r, copied)

def fileWrite (fd : Int) (base : Bytes) (len : Nat) :
    Routine VfsState (Except Errno Unit × Nat) := do
  let file ← fd2file fd
  let s ← getState
  if (s.fdArray file).writable = false then
    fail .eInval
  else
    writeFile file base len

def fileTestfd (fd : Int) (readable writable : Bool) : Routine VfsState Bool := do
  match ← attempt (fd2file fd) with
  | .error _ => return false
  | .ok file =>
      let s ← getState
      if readable = true ∧ (s.fdArray file).readable = false then
        return false
      else if writable = true ∧ (s.fdArray file).writable = false then
        return false
      else
        return true

end Files

section Calls

/-- `sysfile_open`, with what `copy_path` returns. -/
def sysfileOpen (path : Except Errno Path) (openFlags : Nat) (kmalloced : Option Bytes) :
    Routine VfsState Nat :=
  match path with
  | .error e => fail e
  | .ok path => fileOpen path openFlags kmalloced

def sysfileSeek (fd pos whence : Int) : Routine VfsState Unit :=
  fileSeek fd pos whence

/-- The loop of `sysfile_read`. Every round but the last one copies some bytes. -/
def readChunks (fd : Int) (copyToUser : Nat → Nat → Bool) :
    Nat → Nat → Nat → Bytes → Bytes → Routine VfsState (Except Errno Unit × Nat × Bytes)
  | 0, _, copied, _, user => return (.ok (), copied, user)
  | fuel + 1, len, copied, buffer, user => do
      if len = 0 then
        return (.ok (), copied, user)
      else
        match ← attempt (fileRead fd buffer (min IOBUF_SIZE len)) with
        | .error e => return (.error e, copied, user)
        | .ok (r, alen, buffer) =>
            if alen = 0 then
              return (r, copied, user)
            else if copyToUser copied alen = true then
              ensure (alen ≤ len)
              let user := copyBytes user copied buffer 0 alen
              match r with
              | .error e => return (.error e, copied + alen, user)
              | .ok _ => readChunks fd copyToUser fuel (len - alen) (copied + alen) buffer user
            else
              match r with
              | .error e => return (.error e, copied, user)
              | .ok _ => return (.error .eInval, copied, user)

/-- The loop of `sysfile_write`. Every round but the last one writes some bytes. -/
def writeChunks (fd : Int) (copyFromUser : Nat → Nat → Option Bytes) :
    Nat → Nat → Nat → Routine VfsState (Except Errno Unit × Nat)
  | 0, _, copied => return (.ok (), copied)
  | fuel + 1, len, copied => do
      if len = 0 then
        return (.ok (), copied)
      else
        match copyFromUser copied (min IOBUF_SIZE len) with
        | none => return (.error .eInval, copied)
        | some buffer =>
            match ← attempt (fileWrite fd buffer (min IOBUF_SIZE len)) with
            | .error e => return (.error e, copied)
            | .ok (r, alen) =>
                if alen = 0 then
                  return (r, copied)
                else
                  ensure (alen ≤ len)
                  match r with
                  | .error e => return (.error e, copied + alen)
                  | .ok _ => writeChunks fd copyFromUser fuel (len - alen) (copied + alen)

/-- The bytes that have been copied, or the code. -/
def copiedOr {α : Type} (r : Except Errno Unit) (copied : Nat) (a : α) : Routine VfsState α :=
  if copied ≠ 0 then
    return a
  else
    match r with
    | .error e => fail e
    | .ok _ => return a

/-- Returns the number of bytes, and the user memory. -/
def sysfileRead (fd : Int) (user : Bytes) (len : Nat) (kmalloced : Option Bytes)
    (copyToUser : Nat → Nat → Bool) : Routine VfsState (Nat × Bytes) := do
  if len = 0 then
    return (0, user)
  else
    let readable ← fileTestfd fd true false
    if readable = false then
      fail .eInval
    else
      match kmalloced with
      | none => fail .eNoMem
      | some buffer =>
          let (r, copied, user) ← readChunks fd copyToUser len len 0 buffer user
          copiedOr r copied (copied, user)

def sysfileWrite (fd : Int) (len : Nat) (kmalloced : Bool)
    (copyFromUser : Nat → Nat → Option Bytes) : Routine VfsState Nat := do
  if len = 0 then
    return 0
  else
    let writable ← fileTestfd fd false true
    if writable = false then
      fail .eInval
    else if kmalloced = false then
      fail .eNoMem
    else
      let (r, copied) ← writeChunks fd copyFromUser len len 0
      copiedOr r copied copied

end Calls

end Ucore.SysFiles
