import Ucore.BlockBitmap
import Ucore.ByteBuffer
import Ucore.KernelRoutine

/-!
The on-disk format of `kern/fs/sfs/sfs.h`, the block device under it, and the
block transfers of `kern/fs/sfs/sfs_io.c`.
-/

namespace Ucore.SfsDisk

open Ucore.Errors
open Ucore.KernelRoutine
open Ucore.ByteBuffer
open Ucore.BlockBitmap

def SFS_MAGIC : Nat := 0x2f8dbe2a
def SFS_BLKSIZE : Nat := 4096
def SFS_NDIRECT : Nat := 12
def SFS_MAX_INFO_LEN : Nat := 31
def SFS_MAX_FNAME_LEN : Nat := 255
def SFS_MAX_FILE_SIZE : Nat := 1024 * 1024 * 128
def SFS_BLKN_SUPER : Nat := 0
def SFS_BLKN_ROOT : Nat := 1
def SFS_BLKN_FREEMAP : Nat := 2
def SFS_BLKBITS : Nat := SFS_BLKSIZE * 8
def SFS_BLK_NENTRY : Nat := SFS_BLKSIZE / 4
def SFS_TYPE_FILE : Nat := 1
def SFS_TYPE_DIR : Nat := 2
def SFS_TYPE_LINK : Nat := 3

/-- `struct device` with the contents of its blocks. `faults n` is the error
code of its `n`-th transfer from now on. The size of a disk in bytes is an
`unsigned int`, so it has at most `2 ^ 20` blocks. -/
structure Device where
  dBlocks : Nat
  dBlocks_le : dBlocks ≤ 2 ^ 20
  block : Nat → Bytes
  faults : Nat → Option Errno

/-- `dop_io` on an `iobuf` of one block at `buf + pos`; returns the buffer. -/
def dopIo (buf : Bytes) (pos offset : Nat) (write : Bool) : Routine Device Bytes := fun dev =>
  let blkno := offset / SFS_BLKSIZE
  if offset % SFS_BLKSIZE ≠ 0 then
    .ok (.error .eInval, dev)
  else if dev.dBlocks < blkno + 1 then
    .ok (.error .eInval, dev)
  else
    let dev' := { dev with faults := fun n => dev.faults (n + 1) }
    match dev.faults 0 with
    | some e => .ok (.error e, dev')
    | none =>
        if write then
          let data := copyBytes (dev.block blkno) 0 buf pos SFS_BLKSIZE
          .ok (.ok buf, { dev' with block := Function.update dev.block blkno data })
        else
          .ok (.ok (copyBytes buf pos (dev.block blkno) 0 SFS_BLKSIZE), dev')

structure SfsSuper where
  magic : Nat
  blocks : Nat
  unusedBlocks : Nat
  info : Nat → UInt8

structure SfsDiskInode where
  size : Nat
  type : Nat
  nlinks : Nat
  blocks : Nat
  direct : Nat → Nat
  indirect : Nat

def diskInodeSize : Nat := 64

/-- `struct sfs_disk_inode` at the start of a buffer. -/
def loadDiskInode (b : Bytes) : SfsDiskInode where
  size := getLE b 0 4
  type := getLE b 4 2
  nlinks := getLE b 6 2
  blocks := getLE b 8 4
  direct := fun i => if i < SFS_NDIRECT then getLE b (12 + 4 * i) 4 else 0
  indirect := getLE b 60 4

/-- The bytes of a `struct sfs_disk_inode`. -/
def diskInodeBytes (din : SfsDiskInode) : Bytes :=
  let b := putLE (putLE (putLE (putLE zeros 0 4 din.size) 4 2 din.type) 6 2 din.nlinks)
    8 4 din.blocks
  putLE (putWords b 12 SFS_NDIRECT din.direct) 60 4 din.indirect

/-- `struct sfs_inode`; its `ino` is the address it is stored under. -/
structure SfsInode where
  din : SfsDiskInode
  dirty : Bool

/-- `struct sfs_fs` with its device and the in-memory inodes. -/
structure SfsFs where
  super : SfsSuper
  dev : Device
  freemap : Bitmap
  superDirty : Bool
  inode : Nat → SfsInode
  inodeList : List Nat

def SfsFs.setBlock (sfs : SfsFs) (blkno : Nat) (b : Bytes) : SfsFs :=
  { sfs with dev := { sfs.dev with block := Function.update sfs.dev.block blkno b } }

def SfsFs.setInode (sfs : SfsFs) (sin : Nat) (v : SfsInode) : SfsFs :=
  { sfs with inode := Function.update sfs.inode sin v }

def onDevice {α : Type} (x : Routine Device α) : Routine SfsFs α := fun sfs =>
  match x sfs.dev with
  | .error abort => .error abort
  | .ok (r, dev) => .ok (r, { sfs with dev := dev })

def sfsRwblockNolock (buf : Bytes) (pos blkno : Nat) (write check : Bool) :
    Routine SfsFs Bytes := do
  let sfs ← getState
  ensure ((blkno ≠ 0 ∨ check = false) ∧ blkno < sfs.super.blocks)
  onDevice (dopIo buf pos (blkno * SFS_BLKSIZE % 2 ^ 32) write)

def sfsRwblock (buf : Bytes) (pos blkno : Nat) : Nat → Bool → Routine SfsFs Bytes
  | 0, _ => pure buf
  | nblks + 1, write => do
      let buf ← sfsRwblockNolock buf pos blkno write true
      sfsRwblock buf (pos + SFS_BLKSIZE) (blkno + 1) nblks write

def sfsRblock (buf : Bytes) (pos blkno nblks : Nat) : Routine SfsFs Bytes :=
  sfsRwblock buf pos blkno nblks false

def sfsWblock (buf : Bytes) (pos blkno nblks : Nat) : Routine SfsFs Bytes :=
  sfsRwblock buf pos blkno nblks true

/-- `sfs_buffer` is filled before it is used, so it starts as zeros here. -/
def sfsRbuf (buf : Bytes) (pos len blkno offset : Nat) : Routine SfsFs Bytes := do
  ensure (offset < SFS_BLKSIZE ∧ offset + len ≤ SFS_BLKSIZE)
  let sfsBuffer ← sfsRwblockNolock zeros 0 blkno false true
  return copyBytes buf pos sfsBuffer offset len

def sfsWbuf (buf : Bytes) (pos len blkno offset : Nat) : Routine SfsFs Bytes := do
  ensure (offset < SFS_BLKSIZE ∧ offset + len ≤ SFS_BLKSIZE)
  let sfsBuffer ← sfsRwblockNolock zeros 0 blkno false true
  let _ ← sfsRwblockNolock (copyBytes sfsBuffer offset buf pos len) 0 blkno true true
  return buf

def sfsClearBlock (blkno : Nat) : Nat → Routine SfsFs Unit
  | 0 => pure ()
  | nblks + 1 => do
      let _ ← sfsRwblockNolock zeros 0 blkno true true
      sfsClearBlock (blkno + 1) nblks

section Codec

theorem loadDiskInode_congr {b b' : Bytes} (h : ∀ k, k < diskInodeSize → b k = b' k) :
    loadDiskInode b = loadDiskInode b' := by
  unfold diskInodeSize at h
  have hget : ∀ off n, off + n ≤ 64 → getLE b off n = getLE b' off n := by
    intro off n hle
    apply getLE_congr
    intro k _ hk
    exact h k (by omega)
  have hdirect : (fun i => if i < SFS_NDIRECT then getLE b (12 + 4 * i) 4 else 0) =
      fun i => if i < SFS_NDIRECT then getLE b' (12 + 4 * i) 4 else 0 := by
    funext i
    split
    · next hi => exact hget _ _ (by unfold SFS_NDIRECT at hi; omega)
    · rfl
  simp only [loadDiskInode, hdirect, hget 0 4 (by omega), hget 4 2 (by omega),
    hget 6 2 (by omega), hget 8 4 (by omega), hget 60 4 (by omega)]

/-- A disk inode whose fields fit is read back from its bytes. -/
theorem loadDiskInode_diskInodeBytes {din : SfsDiskInode} (hsize : din.size < 2 ^ 32)
    (htype : din.type < 2 ^ 16) (hnlinks : din.nlinks < 2 ^ 16) (hblocks : din.blocks < 2 ^ 32)
    (hdirect : ∀ i, i < SFS_NDIRECT → din.direct i < 2 ^ 32)
    (hrest : ∀ i, SFS_NDIRECT ≤ i → din.direct i = 0) (hindirect : din.indirect < 2 ^ 32) :
    loadDiskInode (diskInodeBytes din) = din := by
  have htwelve : SFS_NDIRECT = 12 := rfl
  have hwords : (fun i => if i < SFS_NDIRECT then getLE (diskInodeBytes din) (12 + 4 * i) 4 else 0) =
      din.direct := by
    funext i
    split
    · next hi =>
      rw [diskInodeBytes, getLE_putLE_of_disjoint (by omega), getLE_putWords hi]
      exact Nat.mod_eq_of_lt (hdirect i hi)
    · next hi => exact (hrest i (not_lt.mp hi)).symm
  cases din with
  | mk size type nlinks blocks direct indirect =>
      simp only [loadDiskInode, SfsDiskInode.mk.injEq]
      refine ⟨?_, ?_, ?_, ?_, hwords, ?_⟩
      · rw [diskInodeBytes, getLE_putLE_of_disjoint (by omega),
          getLE_putWords_of_disjoint (by omega), getLE_putLE_of_disjoint (by omega),
          getLE_putLE_of_disjoint (by omega), getLE_putLE_of_disjoint (by omega), getLE_putLE_self]
        exact Nat.mod_eq_of_lt hsize
      · rw [diskInodeBytes, getLE_putLE_of_disjoint (by omega),
          getLE_putWords_of_disjoint (by omega), getLE_putLE_of_disjoint (by omega),
          getLE_putLE_of_disjoint (by omega), getLE_putLE_self]
        exact Nat.mod_eq_of_lt htype
      · rw [diskInodeBytes, getLE_putLE_of_disjoint (by omega),
          getLE_putWords_of_disjoint (by omega), getLE_putLE_of_disjoint (by omega),
          getLE_putLE_self]
        exact Nat.mod_eq_of_lt hnlinks
      · rw [diskInodeBytes, getLE_putLE_of_disjoint (by omega),
          getLE_putWords_of_disjoint (by omega), getLE_putLE_self]
        exact Nat.mod_eq_of_lt hblocks
      · rw [diskInodeBytes, getLE_putLE_self]
        exact Nat.mod_eq_of_lt hindirect

end Codec

section Transfers

/-- The device behind a mounted file system, when no transfer fails. -/
structure Steady (sfs : SfsFs) : Prop where
  faults : ∀ n, sfs.dev.faults n = none
  blocks_le : sfs.super.blocks ≤ sfs.dev.dBlocks

variable {sfs : SfsFs} {blkno : Nat}

@[simp] theorem setBlock_super (b : Bytes) : (sfs.setBlock blkno b).super = sfs.super := rfl

@[simp] theorem setBlock_freemap (b : Bytes) :
    (sfs.setBlock blkno b).freemap = sfs.freemap := rfl

@[simp] theorem setBlock_inode (b : Bytes) : (sfs.setBlock blkno b).inode = sfs.inode := rfl

@[simp] theorem setBlock_inodeList (b : Bytes) :
    (sfs.setBlock blkno b).inodeList = sfs.inodeList := rfl

@[simp] theorem setBlock_block_self (b : Bytes) :
    (sfs.setBlock blkno b).dev.block blkno = b := by
  simp [SfsFs.setBlock]

@[simp] theorem setInode_inode_self (sin : Nat) (v : SfsInode) :
    (sfs.setInode sin v).inode sin = v := by
  simp [SfsFs.setInode]

theorem setInode_inode_ne {n sin : Nat} (h : n ≠ sin) (v : SfsInode) :
    (sfs.setInode sin v).inode n = sfs.inode n := by
  simp [SfsFs.setInode, h]

@[simp] theorem setInode_setInode (sin : Nat) (v w : SfsInode) :
    (sfs.setInode sin v).setInode sin w = sfs.setInode sin w := by
  simp [SfsFs.setInode]

theorem setBlock_block_ne {n : Nat} (h : n ≠ blkno) (b : Bytes) :
    (sfs.setBlock blkno b).dev.block n = sfs.dev.block n := by
  simp [SfsFs.setBlock, h]

theorem steady_setBlock (h : Steady sfs) (b : Bytes) : Steady (sfs.setBlock blkno b) :=
  ⟨h.faults, h.blocks_le⟩

theorem sfsRwblockNolock_eq (h : Steady sfs) {check : Bool} (buf : Bytes) (pos : Nat)
    (hcheck : blkno ≠ 0 ∨ check = false) (hlt : blkno < sfs.super.blocks) (write : Bool) :
    sfsRwblockNolock buf pos blkno write check sfs =
      if write then .ok (.ok buf, sfs.setBlock blkno
        (copyBytes (sfs.dev.block blkno) 0 buf pos SFS_BLKSIZE))
      else .ok (.ok (copyBytes buf pos (sfs.dev.block blkno) 0 SFS_BLKSIZE), sfs) := by
  have hbound : blkno < sfs.dev.dBlocks := lt_of_lt_of_le hlt h.blocks_le
  have hwrap : blkno * SFS_BLKSIZE % 2 ^ 32 = blkno * SFS_BLKSIZE := by
    have := sfs.dev.dBlocks_le
    apply Nat.mod_eq_of_lt
    unfold SFS_BLKSIZE
    omega
  have hmod : ¬blkno * SFS_BLKSIZE % SFS_BLKSIZE ≠ 0 := by
    simp
  have hdiv : blkno * SFS_BLKSIZE / SFS_BLKSIZE = blkno :=
    Nat.mul_div_cancel blkno (by decide)
  have hfault : (fun n => sfs.dev.faults (n + 1)) = sfs.dev.faults := by
    funext n
    rw [h.faults, h.faults]
  have hin : ¬sfs.dev.dBlocks < blkno + 1 := by omega
  rw [sfsRwblockNolock, getState_bind, ensure_bind_of ⟨hcheck, hlt⟩]
  simp only [onDevice, dopIo, hwrap, if_neg hmod, hdiv, if_neg hin, h.faults 0, hfault]
  cases write with
  | true => rfl
  | false => rfl

theorem sfsRbuf_eq (h : Steady sfs) (buf : Bytes) (pos : Nat) {len offset : Nat}
    (hne : blkno ≠ 0) (hlt : blkno < sfs.super.blocks)
    (hoff : offset < SFS_BLKSIZE) (hlen : offset + len ≤ SFS_BLKSIZE) :
    sfsRbuf buf pos len blkno offset sfs =
      .ok (.ok (copyBytes buf pos (sfs.dev.block blkno) offset len), sfs) := by
  rw [sfsRbuf, ensure_bind_of ⟨hoff, hlen⟩]
  rw [bind_of_ok (sfsRwblockNolock_eq h zeros 0 (Or.inl hne) hlt false), pure_apply]
  have hbytes : copyBytes buf pos (copyBytes zeros 0 (sfs.dev.block blkno) 0 SFS_BLKSIZE)
      offset len = copyBytes buf pos (sfs.dev.block blkno) offset len := by
    funext k
    rcases Decidable.em (pos ≤ k ∧ k < pos + len) with hin | hout
    · rw [copyBytes_of_mem hin.1 hin.2, copyBytes_of_mem hin.1 hin.2]
      rw [copyBytes_of_mem (by omega) (by omega)]
      congr 1
      omega
    · rw [copyBytes_of_not_mem hout, copyBytes_of_not_mem hout]
  rw [hbytes]

theorem sfsWbuf_eq (h : Steady sfs) (buf : Bytes) (pos : Nat) {len offset : Nat}
    (hne : blkno ≠ 0) (hlt : blkno < sfs.super.blocks)
    (hoff : offset < SFS_BLKSIZE) (hlen : offset + len ≤ SFS_BLKSIZE) :
    sfsWbuf buf pos len blkno offset sfs =
      .ok (.ok buf, sfs.setBlock blkno
        (copyBytes (sfs.dev.block blkno) offset buf pos len)) := by
  rw [sfsWbuf, ensure_bind_of ⟨hoff, hlen⟩]
  rw [bind_of_ok (sfsRwblockNolock_eq h zeros 0 (Or.inl hne) hlt false)]
  rw [bind_of_ok (sfsRwblockNolock_eq h _ 0 (Or.inl hne) hlt true), pure_apply]
  have hbytes : copyBytes (sfs.dev.block blkno) 0
      (copyBytes (copyBytes zeros 0 (sfs.dev.block blkno) 0 SFS_BLKSIZE) offset buf pos len)
      0 SFS_BLKSIZE = copyBytes (sfs.dev.block blkno) offset buf pos len := by
    funext k
    rcases lt_or_ge k SFS_BLKSIZE with hk | hk
    · rw [copyBytes_of_mem (by omega) (by omega)]
      have hzero : 0 + (k - 0) = k := by omega
      rw [hzero]
      rcases Decidable.em (offset ≤ k ∧ k < offset + len) with hin | hout
      · rw [copyBytes_of_mem hin.1 hin.2, copyBytes_of_mem hin.1 hin.2]
      · rw [copyBytes_of_not_mem hout, copyBytes_of_not_mem hout]
        rw [copyBytes_of_mem (by omega) (by omega), hzero]
    · rw [copyBytes_of_not_mem (by omega), copyBytes_of_not_mem (by omega)]
  rw [hbytes]

theorem sfsClearBlock_eq (h : Steady sfs) (hne : blkno ≠ 0) (hlt : blkno < sfs.super.blocks) :
    sfsClearBlock blkno 1 sfs = .ok (.ok (), sfs.setBlock blkno
      (copyBytes (sfs.dev.block blkno) 0 zeros 0 SFS_BLKSIZE)) := by
  rw [sfsClearBlock, bind_of_ok (sfsRwblockNolock_eq h zeros 0 (Or.inl hne) hlt true)]
  rfl

theorem sfsRblock_eq (h : Steady sfs) (buf : Bytes) (pos : Nat) (hne : blkno ≠ 0)
    (hlt : blkno < sfs.super.blocks) :
    sfsRblock buf pos blkno 1 sfs =
      .ok (.ok (copyBytes buf pos (sfs.dev.block blkno) 0 SFS_BLKSIZE), sfs) := by
  rw [sfsRblock, sfsRwblock]
  rw [bind_of_ok (sfsRwblockNolock_eq h buf pos (Or.inl hne) hlt false)]
  rfl

theorem sfsWblock_eq (h : Steady sfs) (buf : Bytes) (pos : Nat) (hne : blkno ≠ 0)
    (hlt : blkno < sfs.super.blocks) :
    sfsWblock buf pos blkno 1 sfs = .ok (.ok buf, sfs.setBlock blkno
      (copyBytes (sfs.dev.block blkno) 0 buf pos SFS_BLKSIZE)) := by
  rw [sfsWblock, sfsRwblock]
  rw [bind_of_ok (sfsRwblockNolock_eq h buf pos (Or.inl hne) hlt true)]
  rfl

end Transfers

end Ucore.SfsDisk
