import Ucore.SfsOwnership

namespace Ucore.SfsFileViews

open Ucore.KernelRoutine
open Ucore.ByteBuffer
open Ucore.BlockBitmap
open Ucore.SfsDisk
open Ucore.SfsBlockMap
open Ucore.SfsOwnership

section Lookup

variable {sfs : SfsFs} {ino index : Nat}

theorem ensureInuse_of_inUse (hok : FreemapOk sfs) {b : Nat} (hne : b ≠ 0) (huse : InUse sfs b) :
    ensureInuse b sfs = .ok (.ok (), sfs) :=
  ensureInuse_apply hne huse.1 hok.blocks_le huse.2

theorem word_in_block (hindex : index < SFS_BLK_NENTRY) :
    index * 4 < SFS_BLKSIZE ∧ index * 4 + 4 ≤ SFS_BLKSIZE := by
  unfold SFS_BLK_NENTRY SFS_BLKSIZE at hindex
  unfold SFS_BLKSIZE
  omega

/-- A stored entry of an indirect block is returned as it is. -/
theorem sfsBmapGetSubNolock_stored (hok : FreemapOk sfs) {entp : Nat} (create : Bool)
    (hindex : index < SFS_BLK_NENTRY) (hentp : entp ≠ 0) (huse : InUse sfs entp)
    (hne : getWord (sfs.dev.block entp) index ≠ 0) :
    sfsBmapGetSubNolock entp index create sfs =
      .ok (.ok (entp, getWord (sfs.dev.block entp) index), sfs) := by
  obtain ⟨hstart, hstop⟩ := word_in_block hindex
  have hread := sfsRbuf_eq hok.steady zeros 0 hentp huse.1 hstart hstop
  rw [sfsBmapGetSubNolock, ensure_bind_of hindex, if_pos hentp, bind_of_ok hread,
    getLE_copyBytes_word, if_pos (Or.inl hne)]
  rfl

/-- A stored block number is returned as it is. -/
theorem sfsBmapGetNolock_stored (hok : FreemapOk sfs) (create : Bool) (hindex : index < maxBlocks)
    (hindirect : SFS_NDIRECT ≤ index → InUse sfs (sfs.inode ino).din.indirect)
    (hne : blockAt sfs.dev.block (sfs.inode ino).din index ≠ 0)
    (huse : InUse sfs (blockAt sfs.dev.block (sfs.inode ino).din index)) :
    sfsBmapGetNolock ino index create sfs =
      .ok (.ok (blockAt sfs.dev.block (sfs.inode ino).din index), sfs) := by
  have hfind : bmapGet ino index create sfs =
      .ok (.ok (blockAt sfs.dev.block (sfs.inode ino).din index), sfs) := by
    rcases lt_or_ge index SFS_NDIRECT with hdirect | hfar
    · have hval : blockAt sfs.dev.block (sfs.inode ino).din index =
          (sfs.inode ino).din.direct index := if_pos hdirect
      rw [hval] at hne ⊢
      rw [bmapGet, if_pos hdirect, bmapGetDirect, getState_bind, if_neg (fun h => hne h.1)]
      rfl
    · have hnot : ¬index < SFS_NDIRECT := not_lt.mpr hfar
      have hsub : index - SFS_NDIRECT < SFS_BLK_NENTRY := by
        unfold maxBlocks at hindex
        omega
      rcases eq_or_ne (sfs.inode ino).din.indirect 0 with hzero | hentp
      · rw [blockAt, if_neg hnot, if_pos hzero] at hne
        exact absurd rfl hne
      · have hval : blockAt sfs.dev.block (sfs.inode ino).din index =
            getWord (sfs.dev.block (sfs.inode ino).din.indirect) (index - SFS_NDIRECT) := by
          rw [blockAt, if_neg hnot, if_neg hentp]
        rw [hval] at hne ⊢
        have hget := sfsBmapGetSubNolock_stored hok create hsub hentp (hindirect hfar) hne
        rw [bmapGet, if_neg hnot, if_pos hsub, bmapGetIndirect, getState_bind, bind_of_ok hget]
        simp only [ne_eq, not_true_eq_false, if_false]
        rfl
  rw [sfsBmapGetNolock, bind_of_ok hfind, if_neg hne,
    bind_of_ok (ensureInuse_of_inUse hok hne huse)]
  rfl

theorem sfsBmapGetNolock_panic (hindex : maxBlocks ≤ index) (create : Bool) :
    sfsBmapGetNolock ino index create sfs = .error .panic := by
  have hnear : ¬index < SFS_NDIRECT := by
    unfold maxBlocks at hindex
    omega
  have hsub : ¬index - SFS_NDIRECT < SFS_BLK_NENTRY := by
    unfold maxBlocks at hindex
    omega
  rw [sfsBmapGetNolock, bmapGet, if_neg hnear, if_neg hsub]
  exact bind_of_abort rfl

/-- A block below the block count is loaded as the block map has it. -/
theorem sfsBmapLoadNolock_stored (hbits : sfs.super.blocks ≤ sfs.freemap.nbits) {b : Nat}
    (hindex : index < (sfs.inode ino).din.blocks)
    (hget : sfsBmapGetNolock ino index false sfs = .ok (.ok b, sfs)) (hne : b ≠ 0)
    (huse : InUse sfs b) : sfsBmapLoadNolock ino index sfs = .ok (.ok b, sfs) := by
  have hlast : decide (index = (sfs.inode ino).din.blocks) = false :=
    decide_eq_false (Nat.ne_of_lt hindex)
  rw [sfsBmapLoadNolock, getState_bind, ensure_bind_of (Nat.le_of_lt hindex), hlast, bind_of_ok hget,
    bind_of_ok (ensureInuse_apply hne huse.1 hbits huse.2), if_neg (Nat.ne_of_lt hindex)]
  rfl

variable {usage : Usage}

theorem indirect_ne_zero (h : WellFormed sfs usage) (hfile : usage.inode ino)
    (hfar : SFS_NDIRECT < (dinOf sfs ino).blocks) : (dinOf sfs ino).indirect ≠ 0 := by
  intro hzero
  have hmax : SFS_NDIRECT < maxBlocks := by decide
  have hmapped := (h.mapped ino SFS_NDIRECT hfile hmax).mpr hfar
  rw [fileBlock, blockAt, if_neg (lt_irrefl _), if_pos hzero] at hmapped
  exact hmapped rfl

/-- The block map answers for every block below the block count. -/
theorem sfsBmapGetNolock_of_lt (h : WellFormed sfs usage) (hin : ino ∈ sfs.inodeList)
    (hindex : index < (dinOf sfs ino).blocks) (create : Bool) :
    sfsBmapGetNolock ino index create sfs = .ok (.ok (fileBlock sfs ino index), sfs) := by
  have hfile := h.loaded ino hin
  obtain ⟨hne, huse⟩ := inUse_data h hfile hindex
  have hmax := lt_of_lt_of_le hindex (h.blocks_max ino hfile)
  rw [fileBlock, dinOf_loaded hin] at hne huse ⊢
  apply sfsBmapGetNolock_stored h.freemap create hmax ?_ hne huse
  intro hfar
  rw [← dinOf_loaded hin]
  exact inUse_indirect h hfile (indirect_ne_zero h hfile (by omega))

theorem sfsBmapLoadNolock_of_lt (h : WellFormed sfs usage) (hin : ino ∈ sfs.inodeList)
    (hindex : index < (dinOf sfs ino).blocks) :
    sfsBmapLoadNolock ino index sfs = .ok (.ok (fileBlock sfs ino index), sfs) := by
  obtain ⟨hne, huse⟩ := inUse_data h (h.loaded ino hin) hindex
  have hget := sfsBmapGetNolock_of_lt h hin hindex false
  rw [dinOf_loaded hin] at hindex
  exact sfsBmapLoadNolock_stored h.freemap.blocks_le hindex hget hne huse

end Lookup

section Views

variable {sfs sfs' : SfsFs} {usage : Usage} {ino : Nat}

/-- The file `f` is the same in both states, with the contents of its blocks. -/
structure Kept (sfs sfs' : SfsFs) (f : Nat) : Prop where
  din : dinOf sfs' f = dinOf sfs f
  block : ∀ i, i < maxBlocks → fileBlock sfs' f i = fileBlock sfs f i
  data : ∀ i, i < (dinOf sfs f).blocks →
    sfs'.dev.block (fileBlock sfs f i) = sfs.dev.block (fileBlock sfs f i)

theorem Kept.refl (sfs : SfsFs) (f : Nat) : Kept sfs sfs f :=
  ⟨rfl, fun _ _ => rfl, fun _ _ => rfl⟩

theorem Kept.trans {sfs'' : SfsFs} {f : Nat} (h : Kept sfs sfs' f) (h' : Kept sfs' sfs'' f)
    (hmax : (dinOf sfs f).blocks ≤ maxBlocks) : Kept sfs sfs'' f where
  din := h'.din.trans h.din
  block i hi := (h'.block i hi).trans (h.block i hi)
  data i hi := by
    have hstep := h'.data i (by rwa [h.din])
    rw [h.block i (lt_of_lt_of_le hi hmax)] at hstep
    exact hstep.trans (h.data i hi)

/-- The file `f` has the same blocks in both states. -/
structure SameMap (sfs sfs' : SfsFs) (f : Nat) : Prop where
  blocks : (dinOf sfs' f).blocks = (dinOf sfs f).blocks
  indirect : (dinOf sfs' f).indirect = (dinOf sfs f).indirect
  block : ∀ i, i < maxBlocks → fileBlock sfs' f i = fileBlock sfs f i

theorem Kept.sameMap {f : Nat} (h : Kept sfs sfs' f) : SameMap sfs sfs' f where
  blocks := by rw [h.din]
  indirect := by rw [h.din]
  block := h.block

theorem dinOf_setInode (hin : ino ∈ sfs.inodeList) (v : SfsInode) :
    dinOf (sfs.setInode ino v) ino = v.din := by
  have hin' : ino ∈ (sfs.setInode ino v).inodeList := hin
  rw [dinOf_loaded hin', setInode_inode_self]

theorem dinOf_setInode_ne {f : Nat} (hne : f ≠ ino) (v : SfsInode) :
    dinOf (sfs.setInode ino v) f = dinOf sfs f := by
  unfold dinOf
  rw [setInode_inode_ne hne]
  rfl

theorem fileBlock_setInode (hin : ino ∈ sfs.inodeList) (v : SfsInode) (i : Nat) :
    fileBlock (sfs.setInode ino v) ino i = blockAt sfs.dev.block v.din i := by
  rw [fileBlock, dinOf_setInode hin]
  rfl

theorem kept_setInode {f : Nat} (hne : f ≠ ino) (v : SfsInode) :
    Kept sfs (sfs.setInode ino v) f where
  din := dinOf_setInode_ne hne v
  block i _ := by
    rw [fileBlock, dinOf_setInode_ne hne]
    rfl
  data _ _ := rfl

/-- No byte of the file `f` or of its block map is in the block `b`. -/
structure Avoids (sfs : SfsFs) (f b : Nat) : Prop where
  inode : f ≠ b
  indirect : (dinOf sfs f).indirect ≠ 0 → (dinOf sfs f).indirect ≠ b
  data : ∀ i, i < (dinOf sfs f).blocks → fileBlock sfs f i ≠ b

theorem avoids_of_free (h : WellFormed sfs usage) {f b : Nat} (hfile : usage.inode f)
    (hfree : sfs.freemap.bit b = true) : Avoids sfs f b := by
  have hnot : ∀ {k : Nat}, InUse sfs k → k ≠ b := by
    rintro k huse rfl
    have hused := huse.2
    rw [hfree] at hused
    cases hused
  constructor
  · exact hnot (inUse_inode h hfile).2
  · intro hne
    exact hnot (inUse_indirect h hfile hne)
  · intro i hi
    exact hnot (inUse_data h hfile hi).2

theorem avoids_indirect (h : WellFormed sfs usage) {f : Nat} (hfile : usage.inode f)
    (hfile' : usage.inode ino) (hne : (dinOf sfs ino).indirect ≠ 0) (hother : f ≠ ino) :
    Avoids sfs f (dinOf sfs ino).indirect := by
  have hholds : Holds sfs usage (.indirect ino) (dinOf sfs ino).indirect := ⟨hfile', hne, rfl⟩
  constructor
  · intro heq
    cases h.owns.inj (o := .inode f) ⟨hfile, heq.symm⟩ hholds
  · intro hne' heq
    cases h.owns.inj (o := .indirect f) ⟨hfile, hne', heq.symm⟩ hholds
    exact hother rfl
  · intro i hi heq
    cases h.owns.inj (o := .data f i) ⟨hfile, hi, heq.symm⟩ hholds

theorem data_ne_indirect (h : WellFormed sfs usage) {i : Nat} (hfile : usage.inode ino)
    (hi : i < (dinOf sfs ino).blocks) (hne : (dinOf sfs ino).indirect ≠ 0) :
    fileBlock sfs ino i ≠ (dinOf sfs ino).indirect := by
  intro heq
  have hholds : Holds sfs usage (.indirect ino) (fileBlock sfs ino i) := ⟨hfile, hne, heq⟩
  cases h.owns.inj (o := .data ino i) ⟨hfile, hi, rfl⟩ hholds

theorem avoids_data (h : WellFormed sfs usage) {f i : Nat} (hfile : usage.inode f)
    (hfile' : usage.inode ino) (hi : i < (dinOf sfs ino).blocks) (hother : f ≠ ino) :
    Avoids sfs f (fileBlock sfs ino i) := by
  have hholds : Holds sfs usage (.data ino i) (fileBlock sfs ino i) := ⟨hfile', hi, rfl⟩
  constructor
  · intro heq
    cases h.owns.inj (o := .inode f) ⟨hfile, heq.symm⟩ hholds
  · intro hne' heq
    cases h.owns.inj (o := .indirect f) ⟨hfile, hne', heq.symm⟩ hholds
  · intro j hj heq
    cases h.owns.inj (o := .data f j) ⟨hfile, hj, heq.symm⟩ hholds
    exact hother rfl

theorem Avoids.of_kept {f b : Nat} (h : Avoids sfs f b) (hkept : Kept sfs sfs' f)
    (hmax : (dinOf sfs f).blocks ≤ maxBlocks) : Avoids sfs' f b where
  inode := h.inode
  indirect := by
    rw [hkept.din]
    exact h.indirect
  data i hi := by
    rw [hkept.din] at hi
    rw [hkept.block i (lt_of_lt_of_le hi hmax)]
    exact h.data i hi

theorem Avoids.kept_setBlock {f b : Nat} (h : Avoids sfs f b) (data : Bytes) :
    Kept sfs (sfs.setBlock b data) f where
  din := by
    unfold dinOf
    rw [setBlock_block_ne h.inode]
    rfl
  block i hi := by
    have hdin : dinOf (sfs.setBlock b data) f = dinOf sfs f := by
      unfold dinOf
      rw [setBlock_block_ne h.inode]
      rfl
    rw [fileBlock, hdin, fileBlock]
    apply blockAt_congr hi
    intro hne k _
    rw [setBlock_block_ne (h.indirect hne)]
  data i hi := setBlock_block_ne (h.data i hi) data

/-- The file system after `sfs_block_alloc` has returned `b`. -/
def granted (sfs : SfsFs) (b : Nat) : SfsFs :=
  (allocated sfs b).setBlock b (clearedBlock sfs b)

theorem granted_bit (sfs : SfsFs) (b k : Nat) :
    (granted sfs b).freemap.bit k = if k = b then false else sfs.freemap.bit k :=
  bit_setBit _ _ _ _

theorem granted_cleared (sfs : SfsFs) (b : Nat) {k : Nat} (hk : k < SFS_BLKSIZE) :
    (granted sfs b).dev.block b k = 0 := by
  rw [granted, setBlock_block_self, clearedBlock, copyBytes_of_mem (Nat.zero_le k) (by omega)]
  rfl

theorem granted_block_ne {b n : Nat} (h : n ≠ b) :
    (granted sfs b).dev.block n = sfs.dev.block n :=
  setBlock_block_ne h _

theorem kept_granted (h : WellFormed sfs usage) {f b : Nat} (hfile : usage.inode f)
    (hfree : sfs.freemap.bit b = true) : Kept sfs (granted sfs b) f := by
  have havoid := avoids_of_free h hfile hfree
  have hkept : Kept (allocated sfs b) (granted sfs b) f :=
    @Avoids.kept_setBlock (allocated sfs b) f b ⟨havoid.inode, havoid.indirect, havoid.data⟩ _
  exact ⟨hkept.din, hkept.block, hkept.data⟩

theorem freemapOk_granted (h : FreemapOk sfs) {b : Nat} (hlt : b < sfs.super.blocks)
    (hfree : sfs.freemap.bit b = true) : FreemapOk (granted sfs b) :=
  freemapOk_setBlock (freemapOk_allocated h (lt_of_lt_of_le hlt h.blocks_le) hfree) b _

theorem freeCount_granted (h : FreemapOk sfs) {b : Nat} (hlt : b < sfs.super.blocks)
    (hfree : sfs.freemap.bit b = true) : freeCount (granted sfs b) + 1 = freeCount sfs :=
  freeCount_allocated (lt_of_lt_of_le hlt h.blocks_le) hfree

end Views

end Ucore.SfsFileViews
