import Ucore.MksfsFreemap
import Ucore.SfsSettled

/-! `sfs_sync` of `kern/fs/sfs/sfs_fs.c`, and what it leaves on the disk. -/

namespace Ucore.SfsSync

open Ucore.KernelRoutine
open Ucore.ByteBuffer
open Ucore.BlockBitmap
open Ucore.SfsDisk
open Ucore.SfsMount
open Ucore.SfsOwnership
open Ucore.SfsIo
open Ucore.SfsIoRefinement
open Ucore.SfsSettled
open Ucore.Mksfs (superBytes superSize)
open Ucore.MksfsFreemap (getLE_superBytes)

/-- The bytes of the words of a bitmap. -/
def bitmapGetdata (b : Bitmap) : Bytes :=
  putWords zeros 0 b.nwords fun i => (b.map i).toNat

def sfsSyncSuper : Routine SfsFs Unit := do
  let sfs ← getState
  let _ ← sfsRwblockNolock (superBytes sfs.super) 0 SFS_BLKN_SUPER true false
  return ()

def sfsSyncFreemap : Routine SfsFs Unit := do
  let sfs ← getState
  let _ ← sfsWblock (bitmapGetdata sfs.freemap) 0 SFS_BLKN_FREEMAP (sfsFreemapBlocks sfs.super)
  return ()

/-- The loop of `sfs_sync`, which does not look at what `vop_fsync` returns. -/
def syncInodes : List Nat → Routine SfsFs Unit
  | [] => return ()
  | sin :: rest => do
      let _ ← attempt (sfsFsync sin)
      syncInodes rest

def setSuperDirty (dirty : Bool) : Routine SfsFs Unit :=
  modifyState fun sfs => { sfs with superDirty := dirty }

/-- The part of `sfs_sync` that writes the superblock and the freemap. -/
def syncSuper : Routine SfsFs Unit := do
  setSuperDirty false
  match ← attempt sfsSyncSuper with
  | .error e =>
      setSuperDirty true
      fail e
  | .ok _ =>
      match ← attempt sfsSyncFreemap with
      | .error e =>
          setSuperDirty true
          fail e
      | .ok _ => return ()

def sfsSync : Routine SfsFs Unit := do
  let sfs ← getState
  syncInodes sfs.inodeList
  let sfs ← getState
  if sfs.superDirty then
    syncSuper
  else
    return ()

variable {usage : Usage} {sfs sfs' : SfsFs}

section Inodes

/-- Every inode in memory that is not marked as dirty is the one on disk. -/
def CleanOnDisk (sfs : SfsFs) : Prop :=
  ∀ f, f ∈ sfs.inodeList → (sfs.inode f).dirty = false →
    loadDiskInode (sfs.dev.block f) = (sfs.inode f).din

/-- What writing back the inodes in a list does. -/
structure Flushed (usage : Usage) (l : List Nat) (sfs sfs' : SfsFs) : Prop where
  wf : WellFormed sfs' usage
  kept : AllKept usage sfs sfs'
  clean : CleanOnDisk sfs'
  flushed : ∀ f, f ∈ l ∨ (sfs.inode f).dirty = false → (sfs'.inode f).dirty = false
  din : ∀ f, (sfs'.inode f).din = (sfs.inode f).din
  block : ∀ b, b ∉ sfs.inodeList → sfs'.dev.block b = sfs.dev.block b
  loaded : sfs'.inodeList = sfs.inodeList
  super : sfs'.super = sfs.super
  freemap : sfs'.freemap = sfs.freemap
  superDirty : sfs'.superDirty = sfs.superDirty
  dBlocks : sfs'.dev.dBlocks = sfs.dev.dBlocks

theorem Flushed.refl (h : WellFormed sfs usage) (hclean : CleanOnDisk sfs) :
    Flushed usage [] sfs sfs where
  wf := h
  kept := AllKept.refl usage sfs
  clean := hclean
  flushed f hf := by
    rcases hf with hnil | hdirty
    · cases hnil
    · exact hdirty
  din _ := rfl
  block _ _ := rfl
  loaded := rfl
  super := rfl
  freemap := rfl
  superDirty := rfl
  dBlocks := rfl

/-- One inode is written back, if it is dirty. -/
theorem flushed_fsync {n : Nat} (h : WellFormed sfs usage) (hclean : CleanOnDisk sfs)
    (hin : n ∈ sfs.inodeList) (hfits : Fits (sfs.inode n).din) :
    Flushed usage [n] sfs (if (sfs.inode n).dirty = true then writtenBack sfs n else sfs) := by
  split
  · next hdirty =>
    have hinode : ∀ f, f ≠ n → (writtenBack sfs n).inode f = sfs.inode f := by
      intro f hne
      rw [writtenBack, setBlock_inode, setInode_inode_ne hne]
    have hself : (writtenBack sfs n).inode n = { sfs.inode n with dirty := false } := by
      rw [writtenBack, setBlock_inode, setInode_inode_self]
    constructor
    · exact wellFormed_writtenBack h hin
    · exact kept_writtenBack h hin
    · intro f hf hnot
      exact clean_writtenBack hfits hclean hf hnot
    · intro f hf
      rcases eq_or_ne f n with rfl | hne
      · rw [hself]
      · rw [hinode f hne]
        rcases hf with hmem | hnot
        · exact absurd (List.mem_singleton.mp hmem) hne
        · exact hnot
    · intro f
      rcases eq_or_ne f n with rfl | hne
      · rw [hself]
      · rw [hinode f hne]
    · intro b hb
      have hne : b ≠ n := by
        rintro rfl
        exact hb hin
      rw [writtenBack, setBlock_block_ne hne]
      rfl
    · rfl
    · rfl
    · rfl
    · rfl
    · rfl
  · next hnot =>
    have hrefl := Flushed.refl h hclean
    refine { hrefl with flushed := ?_ }
    rintro f (hmem | hdirty)
    · rw [List.mem_singleton.mp hmem]
      simpa using hnot
    · exact hdirty

theorem Flushed.trans {sfs'' : SfsFs} {n : Nat} {l : List Nat} (hwf : WellFormed sfs usage)
    (h : Flushed usage [n] sfs sfs') (h' : Flushed usage l sfs' sfs'') :
    Flushed usage (n :: l) sfs sfs'' where
  wf := h'.wf
  kept := h.kept.trans h'.kept hwf
  clean := h'.clean
  flushed f hf := by
    rcases hf with hmem | hdirty
    · rcases List.mem_cons.mp hmem with rfl | hrest
      · exact h'.flushed f (Or.inr (h.flushed f (Or.inl List.mem_cons_self)))
      · exact h'.flushed f (Or.inl hrest)
    · exact h'.flushed f (Or.inr (h.flushed f (Or.inr hdirty)))
  din f := (h'.din f).trans (h.din f)
  block b hb := by
    rw [h'.block b (by rwa [h.loaded]), h.block b hb]
  loaded := h'.loaded.trans h.loaded
  super := h'.super.trans h.super
  freemap := h'.freemap.trans h.freemap
  superDirty := h'.superDirty.trans h.superDirty
  dBlocks := h'.dBlocks.trans h.dBlocks

theorem syncInodes_eq {l : List Nat} : ∀ {sfs : SfsFs}, WellFormed sfs usage → CleanOnDisk sfs →
    (∀ f, f ∈ sfs.inodeList → Fits (sfs.inode f).din) → (∀ f, f ∈ l → f ∈ sfs.inodeList) →
      ∃ sfs', syncInodes l sfs = .ok (.ok (), sfs') ∧ Flushed usage l sfs sfs' := by
  induction l with
  | nil =>
      intro sfs hwf hclean _ _
      exact ⟨sfs, rfl, Flushed.refl hwf hclean⟩
  | cons n rest ih =>
      intro sfs hwf hclean hfits hmem
      have hn : n ∈ sfs.inodeList := hmem n List.mem_cons_self
      have hfirst := flushed_fsync hwf hclean hn (hfits n hn)
      have hrun := sfsFsync_eq hwf hn
      generalize (if (sfs.inode n).dirty = true then writtenBack sfs n else sfs) = t at hfirst hrun
      obtain ⟨t', hrest, hflushed⟩ := @ih t hfirst.wf hfirst.clean
        (by
          intro f hf
          rw [hfirst.loaded] at hf
          rw [hfirst.din f]
          exact hfits f hf)
        (by
          intro f hf
          rw [hfirst.loaded]
          exact hmem f (List.mem_cons_of_mem n hf))
      refine ⟨t', ?_, hfirst.trans hwf hflushed⟩
      rw [syncInodes, attempt_bind_of_ok hrun]
      exact hrest

/-- Clean inodes are not written. -/
theorem syncInodes_clean {l : List Nat} (h : ∀ f, f ∈ l → (sfs.inode f).dirty = false) :
    syncInodes l sfs = .ok (.ok (), sfs) := by
  induction l with
  | nil => rfl
  | cons n rest ih =>
      have hn : ¬(sfs.inode n).dirty = true := by
        rw [h n List.mem_cons_self]
        decide
      have hfsync : sfsFsync n sfs = .ok (.ok (), sfs) := by
        rw [sfsFsync, getState_bind, if_neg hn]
        rfl
      rw [syncInodes, attempt_bind_of_ok hfsync]
      exact ih fun f hf => h f (List.mem_cons_of_mem n hf)

end Inodes

section Super

/-- The superblock and the freemap in memory are those on disk. -/
structure SuperOnDisk (sfs : SfsFs) : Prop where
  magic : (loadSuper (sfs.dev.block SFS_BLKN_SUPER)).magic = sfs.super.magic
  blocks : (loadSuper (sfs.dev.block SFS_BLKN_SUPER)).blocks = sfs.super.blocks
  unused : (loadSuper (sfs.dev.block SFS_BLKN_SUPER)).unusedBlocks = sfs.super.unusedBlocks
  info : ∀ k, k ≤ SFS_MAX_INFO_LEN →
    (loadSuper (sfs.dev.block SFS_BLKN_SUPER)).info k = sfs.super.info k
  freemap : ∀ k, k < sfs.freemap.nbits → diskBit sfs.dev.block k = sfs.freemap.bit k

theorem loadSuper_congr {b b' : Bytes} (h : ∀ k, k < superSize → b k = b' k) :
    (loadSuper b).magic = (loadSuper b').magic ∧ (loadSuper b).blocks = (loadSuper b').blocks ∧
      (loadSuper b).unusedBlocks = (loadSuper b').unusedBlocks ∧
      ∀ k, k ≤ SFS_MAX_INFO_LEN → (loadSuper b).info k = (loadSuper b').info k := by
  unfold superSize at h
  have hget : ∀ off, off + 4 ≤ 44 → getLE b off 4 = getLE b' off 4 := by
    intro off hoff
    apply getLE_congr
    intro k _ hk
    exact h k (by omega)
  refine ⟨hget 0 (by decide), hget 4 (by decide), hget 8 (by decide), ?_⟩
  intro k hk
  unfold SFS_MAX_INFO_LEN at hk
  exact h (12 + k) (by omega)

theorem loadSuper_superBytes {super : SfsSuper} (hmagic : super.magic < 2 ^ 32)
    (hblocks : super.blocks < 2 ^ 32) (hunused : super.unusedBlocks < 2 ^ 32) :
    (loadSuper (superBytes super)).magic = super.magic ∧
      (loadSuper (superBytes super)).blocks = super.blocks ∧
      (loadSuper (superBytes super)).unusedBlocks = super.unusedBlocks ∧
      ∀ k, k ≤ SFS_MAX_INFO_LEN → (loadSuper (superBytes super)).info k = super.info k := by
  obtain ⟨hm, hb, hu⟩ := getLE_superBytes hmagic hblocks hunused
  refine ⟨hm, hb, hu, ?_⟩
  intro k hk
  show superBytes super (12 + k) = super.info k
  rw [superBytes, copyBytes_of_mem (by omega) (by omega)]
  congr 1
  omega

/-- The blocks of a disk after those from `blkno` on have been written from a buffer. -/
def fillBlocks (block : Nat → Bytes) (buf : Bytes) (pos blkno nblks : Nat) : Nat → Bytes := fun b =>
  if blkno ≤ b ∧ b < blkno + nblks then
    copyBytes (block b) 0 buf (pos + (b - blkno) * SFS_BLKSIZE) SFS_BLKSIZE
  else block b

def filled (sfs : SfsFs) (buf : Bytes) (pos blkno nblks : Nat) : SfsFs :=
  { sfs with dev := { sfs.dev with block := fillBlocks sfs.dev.block buf pos blkno nblks } }

theorem filled_succ (sfs : SfsFs) (buf : Bytes) (pos blkno nblks : Nat) :
    filled (sfs.setBlock blkno (copyBytes (sfs.dev.block blkno) 0 buf pos SFS_BLKSIZE)) buf
      (pos + SFS_BLKSIZE) (blkno + 1) nblks = filled sfs buf pos blkno (nblks + 1) := by
  have hblock : fillBlocks (sfs.setBlock blkno (copyBytes (sfs.dev.block blkno) 0 buf pos
      SFS_BLKSIZE)).dev.block buf (pos + SFS_BLKSIZE) (blkno + 1) nblks =
      fillBlocks sfs.dev.block buf pos blkno (nblks + 1) := by
    funext b
    unfold fillBlocks
    rcases eq_or_ne b blkno with rfl | hne
    · rw [if_neg (by omega), if_pos (by omega), setBlock_block_self, Nat.sub_self, Nat.zero_mul,
        Nat.add_zero]
    · rw [setBlock_block_ne hne]
      rcases Decidable.em (blkno + 1 ≤ b ∧ b < blkno + 1 + nblks) with hin | hout
      · have hpos : pos + SFS_BLKSIZE + (b - (blkno + 1)) * SFS_BLKSIZE =
            pos + (b - blkno) * SFS_BLKSIZE := by
          have hstep : b - blkno = b - (blkno + 1) + 1 := by omega
          rw [hstep, Nat.add_mul]
          omega
        rw [if_pos hin, if_pos (by omega), hpos]
      · rw [if_neg hout, if_neg (by omega)]
  rw [filled, hblock]
  rfl

theorem sfsWblock_filled (buf : Bytes) {nblks : Nat} : ∀ {sfs : SfsFs} {pos blkno : Nat},
    Steady sfs → blkno ≠ 0 → blkno + nblks ≤ sfs.super.blocks →
      sfsWblock buf pos blkno nblks sfs = .ok (.ok buf, filled sfs buf pos blkno nblks) := by
  induction nblks with
  | zero =>
      intro sfs pos blkno _ _ _
      have hsame : filled sfs buf pos blkno 0 = sfs := by
        have hblock : fillBlocks sfs.dev.block buf pos blkno 0 = sfs.dev.block := by
          funext b
          apply if_neg
          omega
        rw [filled, hblock]
      rw [hsame]
      rfl
  | succ nblks ih =>
      intro sfs pos blkno hsteady hne hle
      have hrest := @ih (sfs.setBlock blkno (copyBytes (sfs.dev.block blkno) 0 buf pos SFS_BLKSIZE))
        (pos + SFS_BLKSIZE) (blkno + 1) (steady_setBlock hsteady _) (by omega)
        (by rw [setBlock_super]; omega)
      rw [sfsWblock, sfsRwblock,
        bind_of_ok (sfsRwblockNolock_eq hsteady buf pos (Or.inl hne) (by omega) true)]
      rw [filled_succ] at hrest
      exact hrest

/-- The freemap on disk after it has been written. -/
theorem diskBit_filled {nblks k : Nat} (hwords : sfs.freemap.nwords = nblks * SFS_BLK_NENTRY)
    (hk : k < sfs.freemap.nwords * WORD_BITS) :
    diskBit (filled sfs (bitmapGetdata sfs.freemap) 0 SFS_BLKN_FREEMAP nblks).dev.block k =
      sfs.freemap.bit k := by
  have hblock : SFS_BLKN_FREEMAP ≤ SFS_BLKN_FREEMAP + k / SFS_BLKBITS ∧
      SFS_BLKN_FREEMAP + k / SFS_BLKBITS < SFS_BLKN_FREEMAP + nblks := by
    unfold SFS_BLK_NENTRY SFS_BLKSIZE at hwords
    unfold WORD_BITS at hk
    unfold SFS_BLKBITS SFS_BLKSIZE
    omega
  have hword : getWord (copyBytes (sfs.dev.block (SFS_BLKN_FREEMAP + k / SFS_BLKBITS)) 0
      (bitmapGetdata sfs.freemap) (0 + (SFS_BLKN_FREEMAP + k / SFS_BLKBITS - SFS_BLKN_FREEMAP) *
        SFS_BLKSIZE) SFS_BLKSIZE) (k % SFS_BLKBITS / WORD_BITS) =
      (sfs.freemap.map (k / WORD_BITS)).toNat := by
    have hindex : k / WORD_BITS < sfs.freemap.nwords := by
      unfold WORD_BITS at hk ⊢
      omega
    have hget : getLE (bitmapGetdata sfs.freemap) (0 + 4 * (k / WORD_BITS)) 4 =
        (sfs.freemap.map (k / WORD_BITS)).toNat % 2 ^ 32 := by
      rw [bitmapGetdata, getLE_putWords hindex]
    rw [getWord]
    refine Eq.trans (getLE_shift ?_) (hget.trans (Nat.mod_eq_of_lt (BitVec.isLt _)))
    intro j hj
    have hin : 4 * (k % SFS_BLKBITS / WORD_BITS) + j < 0 + SFS_BLKSIZE := by
      unfold SFS_BLKBITS SFS_BLKSIZE WORD_BITS
      omega
    rw [copyBytes_of_mem (Nat.zero_le _) hin]
    congr 1
    unfold SFS_BLKBITS SFS_BLKSIZE WORD_BITS
    omega
  rw [diskBit, filled]
  simp only [fillBlocks]
  rw [if_pos hblock, hword, Bitmap.bit]
  rfl

/-- The file system after `sfs_sync` has written the superblock and the freemap. -/
def superSynced (sfs : SfsFs) : SfsFs :=
  filled (({ sfs with superDirty := false } : SfsFs).setBlock SFS_BLKN_SUPER
    (copyBytes (sfs.dev.block SFS_BLKN_SUPER) 0 (superBytes sfs.super) 0 SFS_BLKSIZE))
    (bitmapGetdata sfs.freemap) 0 SFS_BLKN_FREEMAP (sfsFreemapBlocks sfs.super)

theorem sfsSyncSuper_eq (hsteady : Steady sfs) (hpos : 0 < sfs.super.blocks) :
    sfsSyncSuper sfs = .ok (.ok (), sfs.setBlock SFS_BLKN_SUPER
      (copyBytes (sfs.dev.block SFS_BLKN_SUPER) 0 (superBytes sfs.super) 0 SFS_BLKSIZE)) := by
  have hlt : SFS_BLKN_SUPER < sfs.super.blocks := hpos
  rw [sfsSyncSuper, getState_bind,
    bind_of_ok (sfsRwblockNolock_eq hsteady (superBytes sfs.super) 0 (Or.inr rfl) hlt true)]
  rfl

theorem sfsSyncFreemap_eq (hsteady : Steady sfs)
    (hmap : SFS_BLKN_FREEMAP + sfsFreemapBlocks sfs.super ≤ sfs.super.blocks) :
    sfsSyncFreemap sfs = .ok (.ok (), filled sfs (bitmapGetdata sfs.freemap) 0 SFS_BLKN_FREEMAP
      (sfsFreemapBlocks sfs.super)) := by
  rw [sfsSyncFreemap, getState_bind,
    bind_of_ok (sfsWblock_filled (bitmapGetdata sfs.freemap) hsteady (by decide) hmap)]
  rfl

theorem syncSuper_eq (hsteady : Steady sfs)
    (hmap : SFS_BLKN_FREEMAP + sfsFreemapBlocks sfs.super ≤ sfs.super.blocks) :
    syncSuper sfs = .ok (.ok (), superSynced sfs) := by
  have hpos : 0 < sfs.super.blocks := by
    unfold SFS_BLKN_FREEMAP at hmap
    omega
  have ht : Steady { sfs with superDirty := false } := ⟨hsteady.faults, hsteady.blocks_le⟩
  rw [syncSuper, setSuperDirty, modifyState_bind, attempt_bind_of_ok (sfsSyncSuper_eq ht hpos)]
  simp only
  rw [attempt_bind_of_ok (sfsSyncFreemap_eq (steady_setBlock ht _) hmap)]
  rfl

/-- Only the superblock and the freemap are written. -/
theorem superSynced_block {b : Nat} (hzero : b ≠ SFS_BLKN_SUPER)
    (hout : ¬(SFS_BLKN_FREEMAP ≤ b ∧ b < SFS_BLKN_FREEMAP + sfsFreemapBlocks sfs.super)) :
    (superSynced sfs).dev.block b = sfs.dev.block b := by
  simp only [superSynced, filled, fillBlocks]
  rw [if_neg hout, setBlock_block_ne hzero]

theorem superOnDisk_superSynced (hmagic : sfs.super.magic < 2 ^ 32)
    (hblocks : sfs.super.blocks < 2 ^ 32) (hunused : sfs.super.unusedBlocks < 2 ^ 32)
    (hnbits : sfs.freemap.nbits = sfs.freemap.nwords * WORD_BITS)
    (hwords : sfs.freemap.nwords = sfsFreemapBlocks sfs.super * SFS_BLK_NENTRY) :
    SuperOnDisk (superSynced sfs) := by
  have hzero : (superSynced sfs).dev.block SFS_BLKN_SUPER =
      copyBytes (sfs.dev.block SFS_BLKN_SUPER) 0 (superBytes sfs.super) 0 SFS_BLKSIZE := by
    have hfirst : ¬(SFS_BLKN_FREEMAP ≤ SFS_BLKN_SUPER ∧
        SFS_BLKN_SUPER < SFS_BLKN_FREEMAP + sfsFreemapBlocks sfs.super) := by
      unfold SFS_BLKN_FREEMAP SFS_BLKN_SUPER
      omega
    simp only [superSynced, filled, fillBlocks]
    rw [if_neg hfirst, setBlock_block_self]
  have hbytes : ∀ k, k < superSize →
      (superSynced sfs).dev.block SFS_BLKN_SUPER k = superBytes sfs.super k := by
    intro k hk
    have hlt : k < 0 + SFS_BLKSIZE := lt_trans hk (by decide)
    rw [hzero, copyBytes_of_mem (Nat.zero_le k) hlt]
    congr 1
    omega
  obtain ⟨hm, hb, hu, hi⟩ := loadSuper_congr hbytes
  obtain ⟨hm', hb', hu', hi'⟩ := loadSuper_superBytes hmagic hblocks hunused
  refine ⟨hm.trans hm', hb.trans hb', hu.trans hu', fun k hk => (hi k hk).trans (hi' k hk), ?_⟩
  intro k hk
  have hk' : k < sfs.freemap.nwords * WORD_BITS := by
    rw [← hnbits]
    exact hk
  exact @diskBit_filled (({ sfs with superDirty := false } : SfsFs).setBlock SFS_BLKN_SUPER _) _ _
    hwords hk'

end Super

section Files

/-- The files do not depend on the reserved blocks. -/
theorem kept_of_reserved (h : WellFormed sfs usage)
    (hblock : ∀ b, ¬usage.reserved b → sfs'.dev.block b = sfs.dev.block b)
    (hinode : sfs'.inode = sfs.inode) (hlist : sfs'.inodeList = sfs.inodeList) :
    AllKept usage sfs sfs' := by
  have hfree : ∀ {o : Owner} {b : Nat}, Holds sfs usage o b → (∀ k, o ≠ .reserved k) →
      sfs'.dev.block b = sfs.dev.block b := by
    intro o b ho hother
    apply hblock
    intro hreserved
    have hholds : Holds sfs usage (.reserved b) b := ⟨hreserved, rfl⟩
    exact hother b (h.owns.inj ho hholds)
  intro f hf
  have hdin : dinOf sfs' f = dinOf sfs f := by
    unfold dinOf
    rw [hlist, hinode, hfree (o := .inode f) ⟨hf, rfl⟩ (by simp)]
  constructor
  · exact hdin
  · intro i hi
    rw [fileBlock, hdin, fileBlock]
    apply blockAt_congr hi
    intro hne k _
    rw [hfree (o := .indirect f) ⟨hf, hne, rfl⟩ (by simp)]
  · intro i hi
    exact hfree (o := .data f i) ⟨hf, hi, rfl⟩ (by simp)

/-- Without inodes in memory, the files are those on disk. -/
theorem kept_of_disk (hclean : CleanOnDisk sfs) (hdirty : ∀ f, f ∈ sfs.inodeList →
    (sfs.inode f).dirty = false) (hblock : sfs'.dev.block = sfs.dev.block)
    (hlist : sfs'.inodeList = []) : AllKept usage sfs sfs' := by
  intro f _
  have hdin : dinOf sfs' f = dinOf sfs f := by
    rw [dinOf, if_neg (by simp [hlist]), hblock, dinOf]
    split
    · next hin => exact hclean f hin (hdirty f hin)
    · rfl
  constructor
  · exact hdin
  · intro i _
    rw [fileBlock, hdin, hblock]
    rfl
  · intro i _
    rw [hblock]

/-- What `sfs_sync` does to a file system. -/
structure Synced (usage : Usage) (sfs sfs' : SfsFs) : Prop where
  kept : AllKept usage sfs sfs'
  clean : CleanOnDisk sfs'
  flushed : ∀ f, f ∈ sfs'.inodeList → (sfs'.inode f).dirty = false
  superDirty : sfs'.superDirty = false
  onDisk : SuperOnDisk sfs'
  super : sfs'.super = sfs.super
  freemap : sfs'.freemap = sfs.freemap
  dBlocks : sfs'.dev.dBlocks = sfs.dev.dBlocks
  faults : ∀ n, sfs'.dev.faults n = none

/-- The freemap is in reserved blocks of the file system. -/
theorem freemap_le {files : Nat → Prop} (h : WellFormed sfs (imageUsage sfs.super files))
    (hpos : 0 < sfs.super.blocks) :
    SFS_BLKN_FREEMAP + sfsFreemapBlocks sfs.super ≤ sfs.super.blocks := by
  have hblocks : 0 < sfsFreemapBlocks sfs.super := by
    unfold sfsFreemapBlocks SFS_BLKBITS SFS_BLKSIZE
    omega
  have hlast : (imageUsage sfs.super files).reserved
      (SFS_BLKN_FREEMAP + (sfsFreemapBlocks sfs.super - 1)) :=
    Or.inr ⟨Nat.le_add_right _ _, by omega⟩
  have huse := (h.owns.used_of_holds (o := .reserved _) ⟨hlast, rfl⟩).1
  omega

/-- The superblock and the freemap on disk are in reserved blocks. -/
theorem SuperOnDisk.congr {files : Nat → Prop} (h : SuperOnDisk sfs)
    (hsuper : sfs'.super = sfs.super) (hfreemap : sfs'.freemap = sfs.freemap)
    (hbits : sfs.freemap.nbits ≤ sfsFreemapBits sfs.super)
    (hdisk : ∀ b, (imageUsage sfs.super files).reserved b → sfs'.dev.block b = sfs.dev.block b) :
    SuperOnDisk sfs' := by
  have hzero : sfs'.dev.block SFS_BLKN_SUPER = sfs.dev.block SFS_BLKN_SUPER := hdisk _ (Or.inl rfl)
  constructor
  · rw [hzero, hsuper]
    exact h.magic
  · rw [hzero, hsuper]
    exact h.blocks
  · rw [hzero, hsuper]
    exact h.unused
  · rw [hzero, hsuper]
    exact h.info
  · intro k hk
    rw [hfreemap] at hk ⊢
    have hin : k / SFS_BLKBITS < sfsFreemapBlocks sfs.super :=
      Nat.div_lt_of_lt_mul (by
        rw [Nat.mul_comm]
        exact lt_of_lt_of_le hk hbits)
    have hblock : sfs'.dev.block (SFS_BLKN_FREEMAP + k / SFS_BLKBITS) =
        sfs.dev.block (SFS_BLKN_FREEMAP + k / SFS_BLKBITS) :=
      hdisk _ (Or.inr ⟨Nat.le_add_right _ _, by omega⟩)
    rw [← h.freemap k hk, diskBit, hblock]
    rfl

/-- Writing the superblock and the freemap changes neither files nor inodes. -/
theorem synced_superSynced {files : Nat → Prop} {t : SfsFs}
    (h : WellFormed t (imageUsage t.super files)) (hclean : CleanOnDisk t)
    (hflushed : ∀ f, f ∈ t.inodeList → (t.inode f).dirty = false)
    (hmagic : t.super.magic < 2 ^ 32)
    (hwords : t.freemap.nwords = sfsFreemapBlocks t.super * SFS_BLK_NENTRY) :
    Synced (imageUsage t.super files) t (superSynced t) := by
  have hblocks : t.super.blocks ≤ 2 ^ 20 :=
    le_trans h.freemap.steady.blocks_le t.dev.dBlocks_le
  have hnbits := h.freemap.nbits
  have hsmall : t.freemap.nbits < 2 ^ 32 := by
    rw [hnbits, hwords]
    unfold sfsFreemapBlocks SFS_BLK_NENTRY SFS_BLKBITS SFS_BLKSIZE WORD_BITS
    omega
  have hunused : t.super.unusedBlocks ≤ t.freemap.nbits := by
    rw [h.freemap.unused, freeCount]
    exact Nat.count_le _
  have hother : ∀ b, ¬(imageUsage t.super files).reserved b →
      (superSynced t).dev.block b = t.dev.block b := by
    intro b hb
    exact superSynced_block (fun heq => hb (Or.inl heq)) fun hin => hb (Or.inr hin)
  constructor
  · exact kept_of_reserved h hother rfl rfl
  · intro f hf hdirty
    have hreserved : ¬(imageUsage t.super files).reserved f := by
      intro hb
      have hholds : Holds t (imageUsage t.super files) (.reserved f) f := ⟨hb, rfl⟩
      cases h.owns.inj (o := .inode f) ⟨h.loaded f hf, rfl⟩ hholds
    rw [hother f hreserved]
    exact hclean f hf hdirty
  · exact hflushed
  · rfl
  · exact superOnDisk_superSynced hmagic (by omega) (by omega) hnbits hwords
  · rfl
  · rfl
  · rfl
  · exact h.freemap.steady.faults

theorem sfsSync_synced {files : Nat → Prop} (h : WellFormed sfs (imageUsage sfs.super files))
    (hclean : CleanOnDisk sfs) (hsuper : sfs.superDirty = false → SuperOnDisk sfs)
    (hfits : ∀ f, f ∈ sfs.inodeList → Fits (sfs.inode f).din) (hpos : 0 < sfs.super.blocks)
    (hmagic : sfs.super.magic < 2 ^ 32)
    (hwords : sfs.freemap.nwords = sfsFreemapBlocks sfs.super * SFS_BLK_NENTRY)
    (hbits : sfs.freemap.nbits ≤ sfsFreemapBits sfs.super) :
    ∃ sfs', sfsSync sfs = .ok (.ok (), sfs') ∧ Synced (imageUsage sfs.super files) sfs sfs' := by
  obtain ⟨t, hinodes, hflushed⟩ := syncInodes_eq h hclean hfits fun f hf => hf
  have hflush : ∀ f, f ∈ t.inodeList → (t.inode f).dirty = false := by
    intro f hf
    rw [hflushed.loaded] at hf
    exact hflushed.flushed f (Or.inl hf)
  have hsync : sfsSync sfs = if t.superDirty = true then syncSuper t else .ok (.ok (), t) := by
    rw [sfsSync, getState_bind, bind_of_ok hinodes, getState_bind]
    split
    · rfl
    · rfl
  rw [hsync]
  rcases Bool.eq_false_or_eq_true t.superDirty with hdirty | hnot
  · have hwf : WellFormed t (imageUsage t.super files) := by
      rw [hflushed.super]
      exact hflushed.wf
    have hrest := synced_superSynced hwf hflushed.clean hflush
      (by rw [hflushed.super]; exact hmagic) (by rw [hflushed.freemap, hflushed.super]; exact hwords)
    rw [hflushed.super] at hrest
    rw [if_pos hdirty, syncSuper_eq hwf.freemap.steady
      (by rw [hflushed.super]; exact freemap_le h hpos)]
    exact ⟨superSynced t, rfl, hflushed.kept.trans hrest.kept h, hrest.clean, hrest.flushed,
      hrest.superDirty, hrest.onDisk, hrest.super.trans hflushed.super,
      hrest.freemap.trans hflushed.freemap, hrest.dBlocks.trans hflushed.dBlocks, hrest.faults⟩
  · rw [if_neg (by simp [hnot])]
    have hdisk : ∀ b, (imageUsage sfs.super files).reserved b →
        t.dev.block b = sfs.dev.block b := by
      intro b hb
      apply hflushed.block
      intro hin
      have hholds : Holds sfs (imageUsage sfs.super files) (.reserved b) b := ⟨hb, rfl⟩
      cases h.owns.inj (o := .inode b) ⟨h.loaded b hin, rfl⟩ hholds
    have honDisk : SuperOnDisk t := by
      apply SuperOnDisk.congr (hsuper ?_) hflushed.super hflushed.freemap hbits hdisk
      rw [← hflushed.superDirty]
      exact hnot
    exact ⟨t, rfl, hflushed.kept, hflushed.clean, hflush, hnot, honDisk, hflushed.super,
      hflushed.freemap, hflushed.dBlocks, hflushed.wf.freemap.steady.faults⟩

/-- A second `sfs_sync` finds nothing to write. -/
theorem sfsSync_again (h : Synced usage sfs sfs') : sfsSync sfs' = .ok (.ok (), sfs') := by
  have hnot : ¬sfs'.superDirty = true := by
    rw [h.superDirty]
    decide
  rw [sfsSync, getState_bind, bind_of_ok (syncInodes_clean h.flushed), getState_bind, if_neg hnot]
  rfl

/-- The same superblock, the same freemap, and for each inode the same fields and
contents. -/
structure SameFs (usage : Usage) (sfs sfs' : SfsFs) : Prop where
  magic : sfs'.super.magic = sfs.super.magic
  blocks : sfs'.super.blocks = sfs.super.blocks
  unused : sfs'.super.unusedBlocks = sfs.super.unusedBlocks
  info : ∀ k, k ≤ SFS_MAX_INFO_LEN → sfs'.super.info k = sfs.super.info k
  nbits : sfs'.freemap.nbits = sfs.freemap.nbits
  freemap : ∀ k, k < sfs.freemap.nbits → sfs'.freemap.bit k = sfs.freemap.bit k
  inodes : ∀ f, usage.inode f → dinOf sfs' f = dinOf sfs f
  bytes : ∀ f k, usage.inode f → k / SFS_BLKSIZE < (dinOf sfs f).blocks →
    byteAt sfs' f k = byteAt sfs f k
  contents : ∀ f, usage.inode f → (dinOf sfs f).size ≤ (dinOf sfs f).blocks * SFS_BLKSIZE →
    contents sfs' f = contents sfs f

theorem WellFormed.nbits_eq (h : WellFormed sfs usage)
    (hwords : sfs.freemap.nwords = sfsFreemapBlocks sfs.super * SFS_BLK_NENTRY) :
    sfs.freemap.nbits = sfsFreemapBits sfs.super := by
  rw [h.freemap.nbits, hwords]
  unfold sfsFreemapBlocks sfsFreemapBits SFS_BLK_NENTRY SFS_BLKBITS SFS_BLKSIZE WORD_BITS
  omega

/-- The file system that `sfs_do_mount` finds after `sfs_sync`. -/
theorem sfsDoMount_synced {files : Nat → Prop} (h : WellFormed sfs (imageUsage sfs.super files))
    (hsync : Synced (imageUsage sfs.super files) sfs sfs') (hpos : 0 < sfs.super.blocks)
    (hmagic : sfs.super.magic = SFS_MAGIC) (hinfo : sfs.super.info SFS_MAX_INFO_LEN = 0)
    (hwords : sfs.freemap.nwords = sfsFreemapBlocks sfs.super * SFS_BLK_NENTRY)
    {kmalloc : Nat → Bool} (hmalloc : ∀ n, kmalloc n = true) :
    ∃ sfs'', sfsDoMount kmalloc sfs'.dev = .ok (.ok sfs'', sfs'.dev) ∧
      SameFs (imageUsage sfs.super files) sfs sfs'' := by
  have hdisk := hsync.onDisk
  obtain ⟨hm, hb, hu, hi⟩ := @loadSuper_congr
    (copyBytes zeros 0 (sfs'.dev.block SFS_BLKN_SUPER) 0 SFS_BLKSIZE)
    (sfs'.dev.block SFS_BLKN_SUPER) (by
      intro k hk
      have hlt : k < 0 + SFS_BLKSIZE := lt_trans hk (by decide)
      rw [copyBytes_of_mem (Nat.zero_le k) hlt]
      congr 1
      omega)
  rw [hdisk.magic, hsync.super] at hm
  rw [hdisk.blocks, hsync.super] at hb
  rw [hdisk.unused, hsync.super] at hu
  have hnbits := WellFormed.nbits_eq h hwords
  have hsteady := h.freemap.steady
  have hfirst := freemap_le h hpos
  generalize hloaded : loadSuper (copyBytes zeros 0 (sfs'.dev.block SFS_BLKN_SUPER) 0
    SFS_BLKSIZE) = super at hm hb hu hi
  have hbits : sfsFreemapBits super = sfs.freemap.nbits := by
    rw [hnbits, sfsFreemapBits, hb]
    rfl
  have hnblks : sfsFreemapBlocks super = sfsFreemapBlocks sfs.super := by
    rw [sfsFreemapBlocks, hb]
    rfl
  have hbit : ∀ k, k < sfs.freemap.nbits → diskBit sfs'.dev.block k = sfs.freemap.bit k := by
    intro k hk
    have hsame := hdisk.freemap k
    rw [hsync.freemap] at hsame
    exact hsame hk
  have hcount : super.unusedBlocks =
      Nat.count (fun k => diskBit sfs'.dev.block k = true) (sfsFreemapBits super) := by
    rw [hu, h.freemap.unused, freeCount, hbits, Nat.count_eq_card_filter_range,
      Nat.count_eq_card_filter_range]
    congr 1
    apply Finset.filter_congr
    intro k hk
    rw [hbit k (Finset.mem_range.mp hk)]
  obtain ⟨freemap, hrun, hfbits, _, hfbit⟩ := sfsDoMount_mounted hsync.faults hmalloc hloaded
    (hm.trans hmagic) (by rw [hb]; exact hpos)
    (by rw [hb, hsync.dBlocks]; exact hsteady.blocks_le)
    (by rw [hnblks, hsync.dBlocks]; exact le_trans hfirst hsteady.blocks_le) hcount
  have hkept : AllKept (imageUsage sfs.super files) sfs (mounted super sfs'.dev freemap) :=
    hsync.kept.trans (kept_of_disk hsync.clean hsync.flushed rfl rfl) h
  refine ⟨mounted super sfs'.dev freemap, hrun, ?_⟩
  constructor
  · exact hm
  · exact hb
  · exact hu
  · intro k hk
    show Function.update super.info SFS_MAX_INFO_LEN 0 k = _
    rcases eq_or_ne k SFS_MAX_INFO_LEN with rfl | hne
    · rw [Function.update_self, hinfo]
    · rw [Function.update_of_ne hne, hi k hk, hdisk.info k hk, hsync.super]
  · exact hfbits.trans hbits
  · intro k hk
    rw [← hbit k hk]
    exact hfbit k (by rwa [hbits])
  · intro f hf
    exact (hkept f hf).din
  · intro f k hf hk
    exact byteAt_kept (hkept f hf) (h.blocks_max f hf) hk
  · intro f hf hsize
    exact contents_kept (hkept f hf) (h.blocks_max f hf) (blocksFor_le hsize)

end Files

end Ucore.SfsSync
