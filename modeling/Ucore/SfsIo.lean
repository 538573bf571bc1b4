import Ucore.SfsBlockMap

/-!
Reading, writing and resizing a file, from `kern/fs/sfs/sfs_inode.c`. An
`off_t` is an integer, a `size_t` a natural number below `2 ^ 64`.
-/

namespace Ucore.SfsIo

open Ucore.Errors
open Ucore.KernelRoutine
open Ucore.ByteBuffer
open Ucore.SfsDisk
open Ucore.SfsBlockMap

/-- The caller's buffer, and `alen`, which is also how far `buf` has moved. -/
structure Transfer where
  buf : Bytes
  alen : Nat

def sfsBufOp (write : Bool) (buf : Bytes) (pos len blkno offset : Nat) : Routine SfsFs Bytes :=
  if write then sfsWbuf buf pos len blkno offset else sfsRbuf buf pos len blkno offset

def sfsBlockOp (write : Bool) (buf : Bytes) (pos blkno nblks : Nat) : Routine SfsFs Bytes :=
  if write then sfsWblock buf pos blkno nblks else sfsRblock buf pos blkno nblks

/-- Look up the block `blkno` of the file and transfer `size` bytes of it with
`op`. A failure goes to `out` with what has been transferred before. -/
def ioStep (sin blkno size : Nat) (op : Bytes → Nat → Nat → Routine SfsFs Bytes) (io : Transfer) :
    Routine SfsFs (Except Errno Unit × Transfer) := do
  match ← attempt (sfsBmapLoadNolock sin blkno) with
  | .error e => return (.error e, io)
  | .ok ino =>
      match ← attempt (op io.buf io.alen ino) with
      | .error e => return (.error e, io)
      | .ok buf => return (.ok (), { buf := buf, alen := io.alen + size })

/-- A part of the first or of the last block. -/
def ioPart (sin blkno blkoff size : Nat) (write : Bool) (io : Transfer) :
    Routine SfsFs (Except Errno Unit × Transfer) :=
  ioStep sin blkno size (fun buf pos ino => sfsBufOp write buf pos size ino blkoff) io

/-- The loop over the aligned blocks. -/
def ioBlocks (sin : Nat) (write : Bool) :
    Nat → Nat → Transfer → Routine SfsFs (Except Errno Unit × Transfer)
  | 0, _, io => return (.ok (), io)
  | nblks + 1, blkno, io => do
      match ← ioStep sin blkno SFS_BLKSIZE
        (fun buf pos ino => sfsBlockOp write buf pos ino 1) io with
      | (.error e, io) => return (.error e, io)
      | (.ok _, io) => ioBlocks sin write nblks (blkno + 1) io

/-- The aligned blocks and the part of the last block. -/
def ioAligned (sin blkno nblks endpos : Nat) (write : Bool) (io : Transfer) :
    Routine SfsFs (Except Errno Unit × Transfer) := do
  match ← ioBlocks sin write nblks blkno io with
  | (.error e, io) => return (.error e, io)
  | (.ok _, io) =>
      if endpos % SFS_BLKSIZE ≠ 0 then
        ioPart sin (blkno + nblks) 0 (endpos % SFS_BLKSIZE) write io
      else
        return (.ok (), io)

/-- `sfs_io_nolock` from the computation of `blkno` to `out`. -/
def ioPhases (sin offset endpos : Nat) (write : Bool) (io : Transfer) :
    Routine SfsFs (Except Errno Unit × Transfer) := do
  let blkno := offset / SFS_BLKSIZE
  let nblks := endpos / SFS_BLKSIZE - blkno
  let blkoff := offset % SFS_BLKSIZE
  if blkoff ≠ 0 then
    let size := if nblks ≠ 0 then SFS_BLKSIZE - blkoff else endpos - offset
    match ← ioPart sin blkno blkoff size write io with
    | (.error e, io) => return (.error e, io)
    | (.ok _, io) =>
        if nblks = 0 then
          return (.ok (), io)
        else
          ioAligned sin (blkno + 1) (nblks - 1) endpos write io
  else
    ioAligned sin blkno nblks endpos write io

/-- The code after `out`. -/
def ioFinish (sin offset alen : Nat) : Routine SfsFs Unit := do
  let sfs ← getState
  if (sfs.inode sin).din.size < offset + alen then
    modifyInode sin fun si => { si with
      din := { si.din with size := (offset + alen) % 2 ^ 32 }
      dirty := true }
  else
    return ()

/-- Returns the error code, `*alenp` and the buffer. -/
def sfsIoNolock (sin : Nat) (buf : Bytes) (offset : Int) (alen : Nat) (write : Bool) :
    Routine SfsFs (Except Errno Unit × Transfer) := do
  let sfs ← getState
  let din := (sfs.inode sin).din
  ensure (din.type ≠ SFS_TYPE_DIR)
  let endpos := Int.bmod (offset + alen) (2 ^ 64)
  let io : Transfer := { buf := buf, alen := 0 }
  if offset < 0 ∨ (SFS_MAX_FILE_SIZE : Int) ≤ offset ∨ endpos < offset then
    return (.error .eInval, io)
  else if offset = endpos then
    return (.ok (), io)
  else
    let endpos := if (SFS_MAX_FILE_SIZE : Int) < endpos then SFS_MAX_FILE_SIZE else endpos.toNat
    if write = false ∧ din.size ≤ offset.toNat then
      return (.ok (), io)
    else
      let endpos := if write = false ∧ din.size < endpos then din.size else endpos
      let (r, io) ← ioPhases sin offset.toNat endpos write io
      ioFinish sin offset.toNat io.alen
      return (r, io)

/-- `struct iobuf`; `io_base` has moved by what `iobuf_used` gives. -/
structure Iobuf where
  buf : Bytes
  offset : Int
  len : Nat
  resid : Nat

def iobufInit (buf : Bytes) (len : Nat) (offset : Int) : Iobuf :=
  { buf := buf, offset := offset, len := len, resid := len }

def iobufUsed (iob : Iobuf) : Nat :=
  iob.len - iob.resid

def iobufSkip (iob : Iobuf) (n : Nat) : Routine SfsFs Iobuf := do
  ensure (n ≤ iob.resid)
  return { iob with offset := iob.offset + n, resid := iob.resid - n }

def sfsIo (sin : Nat) (iob : Iobuf) (write : Bool) : Routine SfsFs (Except Errno Unit × Iobuf) := do
  let base := iobufUsed iob
  let (r, io) ← sfsIoNolock sin (fun k => iob.buf (base + k)) iob.offset iob.resid write
  let iob := { iob with buf := fun k => if k < base then iob.buf k else io.buf (k - base) }
  if io.alen ≠ 0 then
    let iob ← iobufSkip iob io.alen
    return (r, iob)
  else
    return (r, iob)

/-- The loop of `sfs_truncfile` that enlarges the file, over `tblks - nblks`. -/
def truncGrow (sin : Nat) : Nat → Nat → Routine SfsFs Unit
  | 0, _ => return ()
  | n + 1, nblks => do
      let _ ← sfsBmapLoadNolock sin nblks
      truncGrow sin n (nblks + 1)

/-- The loop of `sfs_truncfile` that reduces the file, over `nblks - tblks`. -/
def truncShrink (sin : Nat) : Nat → Routine SfsFs Unit
  | 0 => return ()
  | n + 1 => do
      sfsBmapTruncateNolock sin
      truncShrink sin n

/-- The part of `sfs_truncfile` that makes the file `tblks` blocks long. -/
def truncResize (sin tblks : Nat) : Routine SfsFs Unit := do
  let sfs ← getState
  let nblks := (sfs.inode sin).din.blocks
  if nblks < tblks then
    truncGrow sin (tblks - nblks) nblks
  else
    truncShrink sin (nblks - tblks)

def sfsTruncfile (sin : Nat) (len : Int) : Routine SfsFs Unit := do
  if len < 0 ∨ (SFS_MAX_FILE_SIZE : Int) < len then
    fail .eInval
  else
    let tblks := (len.toNat + SFS_BLKSIZE - 1) / SFS_BLKSIZE
    let sfs ← getState
    let din := (sfs.inode sin).din
    if din.size = len.toNat then
      ensure (tblks = din.blocks)
    else
      truncResize sin tblks
      let sfs ← getState
      ensure ((sfs.inode sin).din.blocks = tblks)
      modifyInode sin fun si => { din := { si.din with size := len.toNat }, dirty := true }

def sfsFsync (sin : Nat) : Routine SfsFs Unit := do
  let sfs ← getState
  if (sfs.inode sin).dirty then
    modifyInode sin fun si => { si with dirty := false }
    match ← attempt (sfsWbuf (diskInodeBytes (sfs.inode sin).din) 0 diskInodeSize sin 0) with
    | .error e =>
        modifyInode sin fun si => { si with dirty := true }
        fail e
    | .ok _ => return ()
  else
    return ()

/-- `sfs_load_inode` with enough memory; the inode is then found under `ino`. -/
def sfsLoadInode (ino : Nat) : Routine SfsFs Unit := do
  let sfs ← getState
  if ino ∈ sfs.inodeList then
    return ()
  else
    ensureInuse ino
    let b ← sfsRbuf zeros 0 diskInodeSize ino 0
    let din := loadDiskInode b
    ensure (din.nlinks ≠ 0)
    modifyState fun sfs => { sfs.setInode ino { din := din, dirty := false } with
      inodeList := ino :: sfs.inodeList }

end Ucore.SfsIo
