import Ucore.SfsDisk

/-!
Block allocation and the block map of `kern/fs/sfs/sfs_inode.c`. A pointer to a
`struct sfs_inode` is the number it is stored under.
-/

namespace Ucore.SfsBlockMap

open Ucore.Errors
open Ucore.KernelRoutine
open Ucore.ByteBuffer
open Ucore.BlockBitmap
open Ucore.SfsDisk

def sfsBlockInuse (ino : Nat) : Routine SfsFs Bool := do
  let sfs ← getState
  if ino ≠ 0 ∧ ino < sfs.super.blocks then
    let free ← lift (bitmapTest sfs.freemap ino)
    return !free
  else
    abort .panic

/-- `assert(sfs_block_inuse(sfs, ino))`. -/
def ensureInuse (ino : Nat) : Routine SfsFs Unit := do
  let inuse ← sfsBlockInuse ino
  ensure (inuse = true)

/-- `bitmap_alloc` on the freemap of the file system. -/
def freemapAlloc : Routine SfsFs Nat := fun sfs =>
  match bitmapAlloc sfs.freemap with
  | .error abort => .error abort
  | .ok (r, freemap) => .ok (r, { sfs with freemap := freemap })

def sfsBlockAlloc : Routine SfsFs Nat := do
  let ino ← freemapAlloc
  let sfs ← getState
  ensure (0 < sfs.super.unusedBlocks)
  modifyState fun sfs => { sfs with
    super := { sfs.super with unusedBlocks := sfs.super.unusedBlocks - 1 }
    superDirty := true }
  ensureInuse ino
  sfsClearBlock ino 1
  return ino

def sfsBlockFree (ino : Nat) : Routine SfsFs Unit := do
  ensureInuse ino
  let sfs ← getState
  let freemap ← lift (bitmapFree sfs.freemap ino)
  modifyState fun sfs => { sfs with
    freemap := freemap
    super := { sfs.super with unusedBlocks := sfs.super.unusedBlocks + 1 }
    superDirty := true }

/-- The bytes of a `uint32_t`. -/
def wordBytes (v : Nat) : Bytes :=
  putLE zeros 0 4 v

/-- The `failed_cleanup` part of `sfs_bmap_get_sub_nolock`. -/
def freeNewEntry (entp ent : Nat) (e : Errno) : Routine SfsFs (Nat × Nat) := do
  if ent ≠ entp then
    sfsBlockFree ent
    fail e
  else
    fail e

/-- The part of `sfs_bmap_get_sub_nolock` that makes a new data block. -/
def addSubBlock (entp ent offset : Nat) : Routine SfsFs (Nat × Nat) := do
  match ← attempt sfsBlockAlloc with
  | .error e => freeNewEntry entp ent e
  | .ok ino =>
      match ← attempt (sfsWbuf (wordBytes ino) 0 4 ent offset) with
      | .error e =>
          sfsBlockFree ino
          freeNewEntry entp ent e
      | .ok _ => return (ent, ino)

/-- Returns the new value behind `entp` and the block. -/
def sfsBmapGetSubNolock (entp index : Nat) (create : Bool) : Routine SfsFs (Nat × Nat) := do
  ensure (index < SFS_BLK_NENTRY)
  if entp ≠ 0 then
    let b ← sfsRbuf zeros 0 4 entp (index * 4)
    if getLE b 0 4 ≠ 0 ∨ create = false then
      return (entp, getLE b 0 4)
    else
      addSubBlock entp entp (index * 4)
  else if create = false then
    return (entp, 0)
  else
    let ent ← sfsBlockAlloc
    addSubBlock entp ent (index * 4)

def modifyInode (sin : Nat) (f : SfsInode → SfsInode) : Routine SfsFs Unit :=
  modifyState fun sfs => sfs.setInode sin (f (sfs.inode sin))

/-- The branch of `sfs_bmap_get_nolock` for the direct blocks. -/
def bmapGetDirect (sin index : Nat) (create : Bool) : Routine SfsFs Nat := do
  let sfs ← getState
  let ino := (sfs.inode sin).din.direct index
  if ino = 0 ∧ create = true then
    let ino ← sfsBlockAlloc
    modifyInode sin fun si => { si with
      din := { si.din with direct := Function.update si.din.direct index ino }
      dirty := true }
    return ino
  else
    return ino

/-- The branch of `sfs_bmap_get_nolock` for the blocks of the indirect table. -/
def bmapGetIndirect (sin index : Nat) (create : Bool) : Routine SfsFs Nat := do
  let sfs ← getState
  let indirect := (sfs.inode sin).din.indirect
  let (ent, ino) ← sfsBmapGetSubNolock indirect index create
  if ent ≠ indirect then
    ensure (indirect = 0)
    modifyInode sin fun si => { si with din := { si.din with indirect := ent }, dirty := true }
    return ino
  else
    return ino

/-- `sfs_bmap_get_nolock` up to its label `out`. -/
def bmapGet (sin index : Nat) (create : Bool) : Routine SfsFs Nat :=
  if index < SFS_NDIRECT then
    bmapGetDirect sin index create
  else if index - SFS_NDIRECT < SFS_BLK_NENTRY then
    bmapGetIndirect sin (index - SFS_NDIRECT) create
  else
    abort .panic

def sfsBmapGetNolock (sin index : Nat) (create : Bool) : Routine SfsFs Nat := do
  let ino ← bmapGet sin index create
  if ino = 0 then
    return ino
  else
    ensureInuse ino
    return ino

def sfsBmapFreeSubNolock (ent index : Nat) : Routine SfsFs Unit := do
  ensureInuse ent
  ensure (index < SFS_BLK_NENTRY)
  let b ← sfsRbuf zeros 0 4 ent (index * 4)
  if getLE b 0 4 ≠ 0 then
    let _ ← sfsWbuf (wordBytes 0) 0 4 ent (index * 4)
    sfsBlockFree (getLE b 0 4)
  else
    return ()

def sfsBmapFreeNolock (sin index : Nat) : Routine SfsFs Unit := do
  let sfs ← getState
  let din := (sfs.inode sin).din
  if index < SFS_NDIRECT then
    if din.direct index ≠ 0 then
      sfsBlockFree (din.direct index)
      modifyInode sin fun si => { si with
        din := { si.din with direct := Function.update si.din.direct index 0 }
        dirty := true }
    else
      return ()
  else if index - SFS_NDIRECT < SFS_BLK_NENTRY then
    if din.indirect ≠ 0 then
      sfsBmapFreeSubNolock din.indirect (index - SFS_NDIRECT)
    else
      return ()
  else
    return ()

def sfsBmapLoadNolock (sin index : Nat) : Routine SfsFs Nat := do
  let sfs ← getState
  let blocks := (sfs.inode sin).din.blocks
  ensure (index ≤ blocks)
  let ino ← sfsBmapGetNolock sin index (decide (index = blocks))
  ensureInuse ino
  if index = blocks then
    modifyInode sin fun si => { si with
      din := { si.din with blocks := (si.din.blocks + 1) % 2 ^ 32 } }
    return ino
  else
    return ino

def sfsBmapTruncateNolock (sin : Nat) : Routine SfsFs Unit := do
  let sfs ← getState
  ensure ((sfs.inode sin).din.blocks ≠ 0)
  sfsBmapFreeNolock sin ((sfs.inode sin).din.blocks - 1)
  modifyInode sin fun si => { si with
    din := { si.din with blocks := si.din.blocks - 1 }
    dirty := true }

section Basic

variable {sfs : SfsFs} {ino : Nat}

theorem ensureInuse_apply (hne : ino ≠ 0) (hlt : ino < sfs.super.blocks)
    (hbits : sfs.super.blocks ≤ sfs.freemap.nbits) (hbit : sfs.freemap.bit ino = false) :
    ensureInuse ino sfs = .ok (.ok (), sfs) := by
  have hinuse : sfsBlockInuse ino sfs = .ok (.ok true, sfs) := by
    rw [sfsBlockInuse, getState_bind, if_pos ⟨hne, hlt⟩,
      lift_bind_of_ok (bitmapTest_of_lt (lt_of_lt_of_le hlt hbits)), hbit]
    rfl
  rw [ensureInuse, bind_of_ok hinuse]
  exact ensure_of rfl sfs

/-- The file system after a block has been marked in use. -/
def allocated (sfs : SfsFs) (ino : Nat) : SfsFs :=
  { sfs with
    freemap := sfs.freemap.setBit ino false
    super := { sfs.super with unusedBlocks := sfs.super.unusedBlocks - 1 }
    superDirty := true }

/-- The file system after a block has been marked free. -/
def freed (sfs : SfsFs) (ino : Nat) : SfsFs :=
  { sfs with
    freemap := sfs.freemap.setBit ino true
    super := { sfs.super with unusedBlocks := sfs.super.unusedBlocks + 1 }
    superDirty := true }

/-- Contents of a block after `sfs_clear_block`. -/
def clearedBlock (sfs : SfsFs) (ino : Nat) : Bytes :=
  copyBytes (sfs.dev.block ino) 0 zeros 0 SFS_BLKSIZE

theorem copyBytes_wordBytes (b : Bytes) (index v : Nat) :
    copyBytes b (index * 4) (wordBytes v) 0 4 = putWord b index v := by
  have hoff : 4 * index = index * 4 := Nat.mul_comm 4 index
  funext k
  rw [putWord, putLE, hoff]
  split
  · next hin =>
    have hword : 0 + (k - index * 4) < 4 := by omega
    rw [copyBytes_of_mem hin.1 hin.2, wordBytes, putLE, if_pos ⟨Nat.zero_le _, by omega⟩]
    congr 3
    omega
  · next hout => exact copyBytes_of_not_mem hout

theorem getLE_copyBytes_word (b : Bytes) (index : Nat) :
    getLE (copyBytes zeros 0 b (index * 4) 4) 0 4 = getWord b index := by
  apply getLE_shift
  intro k hk
  rw [copyBytes_of_mem (Nat.zero_le _) (by omega)]
  congr 1
  omega

theorem sfsBlockFree_apply (hne : ino ≠ 0) (hlt : ino < sfs.super.blocks)
    (hbits : sfs.super.blocks ≤ sfs.freemap.nbits) (hbit : sfs.freemap.bit ino = false) :
    sfsBlockFree ino sfs = .ok (.ok (), freed sfs ino) := by
  rw [sfsBlockFree, bind_of_ok (ensureInuse_apply hne hlt hbits hbit), getState_bind,
    lift_bind_of_ok (bitmapFree_of_clear (lt_of_lt_of_le hlt hbits) hbit)]
  rfl

end Basic

end Ucore.SfsBlockMap
