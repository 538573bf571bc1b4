import Ucore.Ownership
import Ucore.SfsBlockMap
import Ucore.SfsMount

namespace Ucore.SfsOwnership

open Ucore.KernelRoutine
open Ucore.ByteBuffer
open Ucore.BlockBitmap
open Ucore.Ownership
open Ucore.SfsDisk
open Ucore.SfsMount
open Ucore.SfsBlockMap

/-- Number of blocks that a block map reaches. -/
def maxBlocks : Nat := SFS_NDIRECT + SFS_BLK_NENTRY

/-- The inode of a file: the one in memory if there is one, else the one on disk. -/
def dinOf (sfs : SfsFs) (ino : Nat) : SfsDiskInode :=
  if ino ∈ sfs.inodeList then (sfs.inode ino).din else loadDiskInode (sfs.dev.block ino)

/-- The block that a block map stores at a logical index. -/
def blockAt (block : Nat → Bytes) (din : SfsDiskInode) (index : Nat) : Nat :=
  if index < SFS_NDIRECT then din.direct index
  else if din.indirect = 0 then 0
  else getWord (block din.indirect) (index - SFS_NDIRECT)

/-- Block `index` of the file `ino`. -/
def fileBlock (sfs : SfsFs) (ino index : Nat) : Nat :=
  blockAt sfs.dev.block (dinOf sfs ino) index

/-- The numbers of the inodes, and the blocks that are in use for something
other than files. -/
structure Usage where
  inode : Nat → Prop
  reserved : Nat → Prop

/-- The blocks of a mounted image that belong to no file. -/
def imageUsage (super : SfsSuper) (files : Nat → Prop) : Usage where
  inode := files
  reserved k := k = SFS_BLKN_SUPER ∨
    SFS_BLKN_FREEMAP ≤ k ∧ k < SFS_BLKN_FREEMAP + sfsFreemapBlocks super

/-- What a block can be used for. -/
inductive Owner where
  | reserved (blkno : Nat)
  | inode (ino : Nat)
  | indirect (ino : Nat)
  | data (ino index : Nat)

/-- The owner holds the block. -/
def Holds (sfs : SfsFs) (usage : Usage) : Owner → Nat → Prop
  | .reserved k, b => usage.reserved k ∧ b = k
  | .inode ino, b => usage.inode ino ∧ b = ino
  | .indirect ino, b =>
      usage.inode ino ∧ (dinOf sfs ino).indirect ≠ 0 ∧ b = (dinOf sfs ino).indirect
  | .data ino index, b =>
      usage.inode ino ∧ index < (dinOf sfs ino).blocks ∧ b = fileBlock sfs ino index

def InUse (sfs : SfsFs) (b : Nat) : Prop :=
  b < sfs.super.blocks ∧ sfs.freemap.bit b = false

def freeCount (sfs : SfsFs) : Nat :=
  Nat.count (fun b => sfs.freemap.bit b = true) sfs.freemap.nbits

/-- The freemap counts the free blocks and covers the file system. -/
structure FreemapOk (sfs : SfsFs) : Prop where
  steady : Steady sfs
  nbits : sfs.freemap.nbits = sfs.freemap.nwords * WORD_BITS
  blocks_le : sfs.super.blocks ≤ sfs.freemap.nbits
  free_lt : ∀ b, b < sfs.freemap.nbits → sfs.freemap.bit b = true → b < sfs.super.blocks
  super_used : sfs.freemap.bit SFS_BLKN_SUPER = false
  unused : sfs.super.unusedBlocks = freeCount sfs

/-- Every block in use has one owner, and every file has exactly the blocks
below its block count. -/
structure WellFormed (sfs : SfsFs) (usage : Usage) : Prop where
  freemap : FreemapOk sfs
  owns : Owns (Holds sfs usage) (InUse sfs)
  super_reserved : usage.reserved SFS_BLKN_SUPER
  blocks_max : ∀ ino, usage.inode ino → (dinOf sfs ino).blocks ≤ maxBlocks
  mapped : ∀ ino index, usage.inode ino → index < maxBlocks →
    (fileBlock sfs ino index ≠ 0 ↔ index < (dinOf sfs ino).blocks)
  loaded : ∀ ino, ino ∈ sfs.inodeList → usage.inode ino

section Views

variable {sfs : SfsFs} {usage : Usage}

theorem blockAt_near {index : Nat} (hnear : index < SFS_NDIRECT) (block : Nat → Bytes)
    (din : SfsDiskInode) : blockAt block din index = din.direct index :=
  if_pos hnear

theorem blockAt_far {index : Nat} (hfar : SFS_NDIRECT ≤ index) (block : Nat → Bytes)
    (din : SfsDiskInode) : blockAt block din index =
      if din.indirect = 0 then 0 else getWord (block din.indirect) (index - SFS_NDIRECT) :=
  if_neg (not_lt.mpr hfar)

theorem blockAt_congr {block block' : Nat → Bytes} {din : SfsDiskInode} {index : Nat}
    (hindex : index < maxBlocks) (h : din.indirect ≠ 0 →
      ∀ k, k < SFS_BLKSIZE → block' din.indirect k = block din.indirect k) :
    blockAt block' din index = blockAt block din index := by
  unfold blockAt
  split
  · rfl
  split
  · rfl
  · next hne =>
    apply @getWord_congr _ _ _ SFS_BLKSIZE
    · unfold maxBlocks SFS_NDIRECT SFS_BLK_NENTRY SFS_BLKSIZE at hindex
      unfold SFS_NDIRECT SFS_BLKSIZE
      omega
    · exact h hne

/-- The block that an owner other than the superblock holds is not block 0. -/
theorem ne_zero_of_holds (h : WellFormed sfs usage) {o : Owner} {b : Nat}
    (ho : Holds sfs usage o b) (hne : o ≠ .reserved SFS_BLKN_SUPER) : b ≠ 0 := by
  rintro rfl
  have hsuper : Holds sfs usage (.reserved SFS_BLKN_SUPER) SFS_BLKN_SUPER :=
    ⟨h.super_reserved, rfl⟩
  exact hne (h.owns.inj ho hsuper)

theorem inUse_inode (h : WellFormed sfs usage) {ino : Nat} (hfile : usage.inode ino) :
    ino ≠ 0 ∧ InUse sfs ino := by
  have hholds : Holds sfs usage (.inode ino) ino := ⟨hfile, rfl⟩
  exact ⟨ne_zero_of_holds h hholds (by simp), h.owns.used_of_holds hholds⟩

theorem inUse_indirect (h : WellFormed sfs usage) {ino : Nat} (hfile : usage.inode ino)
    (hne : (dinOf sfs ino).indirect ≠ 0) : InUse sfs (dinOf sfs ino).indirect :=
  h.owns.used_of_holds (o := .indirect ino) ⟨hfile, hne, rfl⟩

theorem inUse_data (h : WellFormed sfs usage) {ino index : Nat} (hfile : usage.inode ino)
    (hindex : index < (dinOf sfs ino).blocks) :
    fileBlock sfs ino index ≠ 0 ∧ InUse sfs (fileBlock sfs ino index) := by
  have hholds : Holds sfs usage (.data ino index) (fileBlock sfs ino index) :=
    ⟨hfile, hindex, rfl⟩
  exact ⟨ne_zero_of_holds h hholds (by simp), h.owns.used_of_holds hholds⟩

/-- The block is neither the inode of a file that is only on disk nor an
indirect block, so no block map depends on what it holds. -/
structure Plain (sfs : SfsFs) (usage : Usage) (b : Nat) : Prop where
  inode : ∀ ino, usage.inode ino → ino ∉ sfs.inodeList → ino ≠ b
  indirect : ∀ ino, usage.inode ino → (dinOf sfs ino).indirect ≠ 0 → (dinOf sfs ino).indirect ≠ b

theorem plain_of_free (h : WellFormed sfs usage) {b : Nat} (hfree : sfs.freemap.bit b = true) :
    Plain sfs usage b where
  inode ino hfile _ := by
    rintro rfl
    have hused := (inUse_inode h hfile).2.2
    rw [hfree] at hused
    cases hused
  indirect ino hfile hne := by
    intro heq
    have hused := (inUse_indirect h hfile hne).2
    rw [heq, hfree] at hused
    cases hused

theorem plain_of_data (h : WellFormed sfs usage) {ino index : Nat} (hfile : usage.inode ino)
    (hindex : index < (dinOf sfs ino).blocks) :
    Plain sfs usage (fileBlock sfs ino index) where
  inode ino' hfile' _ := by
    intro heq
    have hown : Owner.inode ino' = .data ino index :=
      h.owns.inj (k := ino') ⟨hfile', rfl⟩ ⟨hfile, hindex, heq⟩
    cases hown
  indirect ino' hfile' hne := by
    intro heq
    have hown : Owner.indirect ino' = .data ino index :=
      h.owns.inj (k := (dinOf sfs ino').indirect) ⟨hfile', hne, rfl⟩ ⟨hfile, hindex, heq⟩
    cases hown

theorem plain_of_loaded (h : WellFormed sfs usage) {ino : Nat} (hloaded : ino ∈ sfs.inodeList) :
    Plain sfs usage ino where
  inode ino' _ hout := by
    rintro rfl
    exact hout hloaded
  indirect ino' hfile' hne := by
    intro heq
    have hown : Owner.indirect ino' = .inode ino :=
      h.owns.inj (k := (dinOf sfs ino').indirect) ⟨hfile', hne, rfl⟩ ⟨h.loaded ino hloaded, heq⟩
    cases hown

theorem dinOf_loaded {ino : Nat} (hloaded : ino ∈ sfs.inodeList) :
    dinOf sfs ino = (sfs.inode ino).din :=
  if_pos hloaded

theorem not_directory {ino : Nat} (hloaded : ino ∈ sfs.inodeList)
    (hregular : (dinOf sfs ino).type = SFS_TYPE_FILE) :
    (sfs.inode ino).din.type ≠ SFS_TYPE_DIR := by
  rw [← dinOf_loaded hloaded, hregular]
  decide

theorem dinOf_setBlock {b : Nat} (hplain : Plain sfs usage b) {ino : Nat} (hfile : usage.inode ino)
    (data : Bytes) : dinOf (sfs.setBlock b data) ino = dinOf sfs ino := by
  unfold dinOf
  split
  · next hin =>
    rw [if_pos (by simpa using hin)]
    rfl
  · next hout =>
    have hout' : ino ∉ sfs.inodeList := by simpa using hout
    rw [if_neg hout', setBlock_block_ne (hplain.inode ino hfile hout')]

theorem fileBlock_setBlock {b : Nat} (hplain : Plain sfs usage b) {ino index : Nat}
    (hfile : usage.inode ino) (hindex : index < maxBlocks) (data : Bytes) :
    fileBlock (sfs.setBlock b data) ino index = fileBlock sfs ino index := by
  rw [fileBlock, dinOf_setBlock hplain hfile, fileBlock]
  apply blockAt_congr hindex
  intro hne k _
  rw [setBlock_block_ne (hplain.indirect ino hfile hne)]

theorem freemapOk_setBlock (h : FreemapOk sfs) (b : Nat) (data : Bytes) :
    FreemapOk (sfs.setBlock b data) :=
  ⟨steady_setBlock h.steady data, h.nbits, h.blocks_le, h.free_lt, h.super_used, h.unused⟩

theorem holds_setBlock (h : WellFormed sfs usage) {b : Nat} (hplain : Plain sfs usage b)
    (data : Bytes) (o : Owner) (k : Nat) :
    Holds (sfs.setBlock b data) usage o k ↔ Holds sfs usage o k := by
  cases o with
  | reserved blkno => exact Iff.rfl
  | inode ino => exact Iff.rfl
  | indirect ino =>
      simp only [Holds]
      constructor
      · rintro ⟨hfile, hne, heq⟩
        rw [dinOf_setBlock hplain hfile] at hne heq
        exact ⟨hfile, hne, heq⟩
      · rintro ⟨hfile, hne, heq⟩
        rw [dinOf_setBlock hplain hfile]
        exact ⟨hfile, hne, heq⟩
  | data ino index =>
      simp only [Holds]
      constructor
      · rintro ⟨hfile, hlt, heq⟩
        rw [dinOf_setBlock hplain hfile] at hlt
        rw [fileBlock_setBlock hplain hfile
          (lt_of_lt_of_le hlt (h.blocks_max ino hfile))] at heq
        exact ⟨hfile, hlt, heq⟩
      · rintro ⟨hfile, hlt, heq⟩
        rw [dinOf_setBlock hplain hfile, fileBlock_setBlock hplain hfile
          (lt_of_lt_of_le hlt (h.blocks_max ino hfile))]
        exact ⟨hfile, hlt, heq⟩

/-- Writing a block that no block map depends on changes no ownership. -/
theorem wellFormed_setBlock (h : WellFormed sfs usage) {b : Nat} (hplain : Plain sfs usage b)
    (data : Bytes) : WellFormed (sfs.setBlock b data) usage where
  freemap := freemapOk_setBlock h.freemap b data
  owns := h.owns.congr (holds_setBlock h hplain data) fun _ => Iff.rfl
  super_reserved := h.super_reserved
  blocks_max ino hfile := by
    rw [dinOf_setBlock hplain hfile]
    exact h.blocks_max ino hfile
  mapped ino index hfile hindex := by
    rw [dinOf_setBlock hplain hfile, fileBlock_setBlock hplain hfile hindex]
    exact h.mapped ino index hfile hindex
  loaded := h.loaded

end Views

section Allocation

variable {sfs : SfsFs}

theorem free_block (h : FreemapOk sfs) {b : Nat} (hb : b < sfs.freemap.nwords * WORD_BITS)
    (hfree : sfs.freemap.bit b = true) : b ≠ 0 ∧ b < sfs.super.blocks := by
  rw [← h.nbits] at hb
  refine ⟨?_, h.free_lt b hb hfree⟩
  rintro rfl
  have hused := h.super_used
  rw [SFS_BLKN_SUPER, hfree] at hused
  cases hused

theorem freeCount_allocated {b : Nat} (hb : b < sfs.freemap.nbits)
    (hfree : sfs.freemap.bit b = true) : freeCount (allocated sfs b) + 1 = freeCount sfs := by
  apply count_remove hb hfree
  intro j
  change (sfs.freemap.setBit b false).bit j = true ↔ _
  rw [bit_setBit]
  split
  · next heq => simp [heq]
  · next hne => simp [hne]

theorem freeCount_freed {b : Nat} (hb : b < sfs.freemap.nbits)
    (hused : sfs.freemap.bit b = false) : freeCount (freed sfs b) = freeCount sfs + 1 := by
  symm
  apply count_remove hb
  · change (sfs.freemap.setBit b true).bit b = true
    rw [bit_setBit, if_pos rfl]
  · intro j
    change sfs.freemap.bit j = true ↔ (sfs.freemap.setBit b true).bit j = true ∧ _
    rw [bit_setBit]
    split
    · next heq => simp [heq, hused]
    · next hne => simp [hne]

theorem freemapOk_allocated (h : FreemapOk sfs) {b : Nat} (hb : b < sfs.freemap.nbits)
    (hfree : sfs.freemap.bit b = true) : FreemapOk (allocated sfs b) where
  steady := ⟨h.steady.faults, h.steady.blocks_le⟩
  nbits := h.nbits
  blocks_le := h.blocks_le
  free_lt := by
    intro j hj hset
    change (sfs.freemap.setBit b false).bit j = true at hset
    rw [bit_setBit] at hset
    split at hset
    · cases hset
    · exact h.free_lt j hj hset
  super_used := by
    change (sfs.freemap.setBit b false).bit SFS_BLKN_SUPER = false
    rw [bit_setBit]
    split
    · rfl
    · exact h.super_used
  unused := by
    have hcount := freeCount_allocated hb hfree
    change sfs.super.unusedBlocks - 1 = _
    rw [h.unused]
    omega

theorem freemapOk_freed (h : FreemapOk sfs) {b : Nat} (hb : b < sfs.super.blocks)
    (hne : b ≠ 0) (hused : sfs.freemap.bit b = false) : FreemapOk (freed sfs b) where
  steady := ⟨h.steady.faults, h.steady.blocks_le⟩
  nbits := h.nbits
  blocks_le := h.blocks_le
  free_lt := by
    intro j hj hset
    change (sfs.freemap.setBit b true).bit j = true at hset
    rw [bit_setBit] at hset
    split at hset
    · next heq => exact heq ▸ hb
    · exact h.free_lt j hj hset
  super_used := by
    change (sfs.freemap.setBit b true).bit SFS_BLKN_SUPER = false
    rw [bit_setBit, if_neg (by unfold SFS_BLKN_SUPER; omega)]
    exact h.super_used
  unused := by
    have hcount := freeCount_freed (lt_of_lt_of_le hb h.blocks_le) hused
    change sfs.super.unusedBlocks + 1 = _
    rw [h.unused, hcount]

/-- `sfs_block_alloc` marks the lowest free block in use and clears it. What the
device does then plays no part in the choice of the block. -/
theorem sfsBlockAlloc_start {t : SfsFs} (h : FreemapOk t) (hsuper : sfs.super = t.super)
    (hmap : sfs.freemap = t.freemap) :
    (sfsBlockAlloc sfs = .ok (.error .eNoMem, sfs) ∧ freeCount sfs = 0) ∨
      ∃ b, sfs.freemap.bit b = true ∧ b ≠ 0 ∧ b < sfs.super.blocks ∧
        sfsBlockAlloc sfs = (sfsClearBlock b 1 >>= fun _ => pure b) (allocated sfs b) := by
  have hnwords : sfs.freemap.nbits = sfs.freemap.nwords * WORD_BITS := by
    rw [hmap]
    exact h.nbits
  rcases bitmapAlloc_spec sfs.freemap with ⟨heq, hall⟩ | ⟨b, hb, hfree, _, heq⟩
  · left
    constructor
    · apply bind_of_error
      rw [freemapAlloc, heq]
    · rw [freeCount, Nat.count_eq_card_filter_range, Finset.card_eq_zero]
      apply Finset.filter_eq_empty_iff.mpr
      intro j hj
      rw [Finset.mem_range, hnwords] at hj
      rw [hall j hj]
      decide
  · right
    have hblock : b ≠ 0 ∧ b < sfs.super.blocks := by
      rw [hmap] at hb hfree
      rw [hsuper]
      exact free_block h hb hfree
    have hnbits : b < sfs.freemap.nbits := by rwa [hnwords]
    have hbits : sfs.super.blocks ≤ sfs.freemap.nbits := by
      rw [hsuper, hmap]
      exact h.blocks_le
    have hpos : 0 < sfs.super.unusedBlocks := by
      have hcount := h.unused
      rw [freeCount, ← hmap] at hcount
      rw [hsuper, hcount]
      exact count_pos hnbits hfree
    have halloc : freemapAlloc sfs =
        .ok (.ok b, { sfs with freemap := sfs.freemap.setBit b false }) := by
      rw [freemapAlloc, heq]
    have hbit : (allocated sfs b).freemap.bit b = false := by
      change (sfs.freemap.setBit b false).bit b = false
      rw [bit_setBit, if_pos rfl]
    refine ⟨b, hfree, hblock.1, hblock.2, ?_⟩
    rw [sfsBlockAlloc, bind_of_ok halloc, getState_bind, ensure_bind_of hpos, modifyState_bind]
    change (ensureInuse b >>= fun _ => _) (allocated sfs b) = _
    rw [bind_of_ok (@ensureInuse_apply (allocated sfs b) b hblock.1 hblock.2 hbits hbit)]

theorem sfsBlockAlloc_spec (h : FreemapOk sfs) :
    (sfsBlockAlloc sfs = .ok (.error .eNoMem, sfs) ∧ freeCount sfs = 0) ∨
      ∃ b, sfs.freemap.bit b = true ∧ b ≠ 0 ∧ b < sfs.super.blocks ∧
        sfsBlockAlloc sfs =
          .ok (.ok b, (allocated sfs b).setBlock b (clearedBlock sfs b)) := by
  rcases sfsBlockAlloc_start h rfl rfl with hnone | ⟨b, hfree, hne, hlt, hrun⟩
  · exact Or.inl hnone
  · have hok := freemapOk_allocated h (lt_of_lt_of_le hlt h.blocks_le) hfree
    refine Or.inr ⟨b, hfree, hne, hlt, ?_⟩
    rw [hrun, bind_of_ok (sfsClearBlock_eq hok.steady hne hlt)]
    rfl

end Allocation

section SmallFs

/-- A root directory with one entry, in block 5. -/
def smallRoot : SfsDiskInode where
  size := 256
  type := SFS_TYPE_DIR
  nlinks := 1
  blocks := 1
  direct := fun i => if i = 0 then 5 else 0
  indirect := 0

def smallFile : SfsDiskInode where
  size := 100
  type := SFS_TYPE_FILE
  nlinks := 1
  blocks := 1
  direct := fun i => if i = 0 then 4 else 0
  indirect := 0

/-- The directory entry of the inode 3 under the name `a`. -/
def smallEntry : Bytes :=
  Function.update (putLE zeros 0 4 3) 4 97

/-- Eight blocks: the superblock, the root on disk, the freemap, the inode 3 of
a file of 100 bytes in memory with its block 4, the block 5 of the root, and two
free blocks. -/
def smallFs : SfsFs where
  super := { magic := SFS_MAGIC, blocks := 8, unusedBlocks := 2, info := fun _ => 0 }
  dev :=
    { dBlocks := 8
      dBlocks_le := by decide
      block := fun n =>
        if n = SFS_BLKN_ROOT then diskInodeBytes smallRoot
        else if n = 3 then diskInodeBytes smallFile
        else if n = 5 then smallEntry
        else zeros
      faults := fun _ => none }
  freemap := { nbits := 32, nwords := 1, map := fun _ => 0xC0#32 }
  superDirty := false
  inode := fun _ => { din := smallFile, dirty := false }
  inodeList := [3]

def smallUsage : Usage :=
  imageUsage smallFs.super fun f => f = SFS_BLKN_ROOT ∨ f = 3

theorem dinOf_smallFs_root : dinOf smallFs SFS_BLKN_ROOT = smallRoot := by
  have hout : SFS_BLKN_ROOT ∉ smallFs.inodeList := by decide
  rw [dinOf, if_neg hout]
  apply loadDiskInode_diskInodeBytes (by decide) (by decide) (by decide) (by decide)
  · intro i _
    change (if i = 0 then 5 else 0) < _
    split
    · decide
    · decide
  · intro i hi
    have hne : i ≠ 0 := Nat.ne_of_gt (lt_of_lt_of_le (by decide) hi)
    exact if_neg hne
  · decide

theorem dinOf_smallFs : dinOf smallFs 3 = smallFile :=
  dinOf_loaded (by decide)

/-- A file with one direct block. -/
theorem fileBlock_of_single {sfs : SfsFs} {f b : Nat}
    (hdirect : (dinOf sfs f).direct = fun i => if i = 0 then b else 0)
    (hindirect : (dinOf sfs f).indirect = 0) (i : Nat) :
    fileBlock sfs f i = if i = 0 then b else 0 := by
  rw [fileBlock]
  rcases lt_or_ge i SFS_NDIRECT with hnear | hfar
  · rw [blockAt_near hnear, hdirect]
  · have hne : i ≠ 0 := Nat.ne_of_gt (lt_of_lt_of_le (by decide) hfar)
    rw [blockAt_far hfar, if_pos hindirect, if_neg hne]

theorem fileBlock_smallFs_root (i : Nat) :
    fileBlock smallFs SFS_BLKN_ROOT i = if i = 0 then 5 else 0 := by
  apply fileBlock_of_single
  · rw [dinOf_smallFs_root]
    rfl
  · rw [dinOf_smallFs_root]
    rfl

theorem fileBlock_smallFs (i : Nat) : fileBlock smallFs 3 i = if i = 0 then 4 else 0 := by
  apply fileBlock_of_single
  · rw [dinOf_smallFs]
    rfl
  · rw [dinOf_smallFs]
    rfl

theorem reserved_smallUsage (k : Nat) : smallUsage.reserved k ↔ k = 0 ∨ k = 2 := by
  change k = 0 ∨ 2 ≤ k ∧ k < 3 ↔ _
  omega

theorem bit_smallFs : ∀ b, b < 32 → (smallFs.freemap.bit b = false ↔ b < 6 ∨ 8 ≤ b) := by
  decide

theorem freemapOk_smallFs : FreemapOk smallFs where
  steady := ⟨fun _ => rfl, le_rfl⟩
  nbits := rfl
  blocks_le := by decide
  free_lt := by decide
  super_used := by decide
  unused := by decide

theorem holds_smallFs (o : Owner) (b : Nat) : Holds smallFs smallUsage o b ↔
    o = .reserved b ∧ (b = 0 ∨ b = 2) ∨ o = .inode b ∧ (b = 1 ∨ b = 3) ∨
      o = .data 1 0 ∧ b = 5 ∨ o = .data 3 0 ∧ b = 4 := by
  cases o with
  | reserved k =>
      simp only [Holds, reserved_smallUsage, Owner.reserved.injEq, reduceCtorEq, false_and, or_false]
      omega
  | inode f =>
      change (f = 1 ∨ f = 3) ∧ b = f ↔ _
      simp only [Owner.inode.injEq, reduceCtorEq, false_and, or_false, false_or]
      omega
  | indirect f =>
      simp only [Holds, reduceCtorEq, false_and, or_self, iff_false]
      rintro ⟨rfl | rfl, hne, _⟩
      · rw [dinOf_smallFs_root] at hne
        exact hne rfl
      · rw [dinOf_smallFs] at hne
        exact hne rfl
  | data f i =>
      simp only [Holds, Owner.data.injEq, reduceCtorEq, false_and, false_or]
      constructor
      · rintro ⟨rfl | rfl, hi, heq⟩
        · rw [dinOf_smallFs_root] at hi
          have hzero : i = 0 := Nat.lt_one_iff.mp hi
          rw [fileBlock_smallFs_root, if_pos hzero] at heq
          exact Or.inl ⟨⟨rfl, hzero⟩, heq⟩
        · rw [dinOf_smallFs] at hi
          have hzero : i = 0 := Nat.lt_one_iff.mp hi
          rw [fileBlock_smallFs, if_pos hzero] at heq
          exact Or.inr ⟨⟨rfl, hzero⟩, heq⟩
      · rintro (⟨⟨rfl, rfl⟩, rfl⟩ | ⟨⟨rfl, rfl⟩, rfl⟩)
        · have hroot : dinOf smallFs 1 = smallRoot := dinOf_smallFs_root
          rw [hroot]
          exact ⟨Or.inl rfl, Nat.one_pos, (fileBlock_smallFs_root 0).symm⟩
        · rw [dinOf_smallFs, fileBlock_smallFs]
          exact ⟨Or.inr rfl, Nat.one_pos, rfl⟩

theorem owns_smallFs : Owns (Holds smallFs smallUsage) (InUse smallFs) where
  inj := by
    intro o o' k ho ho'
    rw [holds_smallFs] at ho ho'
    rcases ho with ⟨rfl, hk⟩ | ⟨rfl, hk⟩ | ⟨rfl, hk⟩ | ⟨rfl, hk⟩ <;>
      rcases ho' with ⟨rfl, hk'⟩ | ⟨rfl, hk'⟩ | ⟨rfl, hk'⟩ | ⟨rfl, hk'⟩ <;> first | rfl | omega
  used_of_holds := by
    intro o k ho
    rw [holds_smallFs] at ho
    have hk : k < 6 := by omega
    exact ⟨by change k < 8; omega, (bit_smallFs k (by omega)).mpr (Or.inl hk)⟩
  owned := by
    rintro k ⟨hlt, hused⟩
    have hlt' : k < 8 := hlt
    have hk := (bit_smallFs k (by omega)).mp hused
    have hcases : (k = 0 ∨ k = 2) ∨ (k = 1 ∨ k = 3) ∨ k = 5 ∨ k = 4 := by omega
    rcases hcases with hmeta | hinode | hentry | hdata
    · exact ⟨.reserved k, (holds_smallFs _ k).mpr (Or.inl ⟨rfl, hmeta⟩)⟩
    · exact ⟨.inode k, (holds_smallFs _ k).mpr (Or.inr (Or.inl ⟨rfl, hinode⟩))⟩
    · exact ⟨.data 1 0, (holds_smallFs _ k).mpr (Or.inr (Or.inr (Or.inl ⟨rfl, hentry⟩)))⟩
    · exact ⟨.data 3 0, (holds_smallFs _ k).mpr (Or.inr (Or.inr (Or.inr ⟨rfl, hdata⟩)))⟩

theorem wellFormed_smallFs : WellFormed smallFs smallUsage where
  freemap := freemapOk_smallFs
  owns := owns_smallFs
  super_reserved := Or.inl rfl
  blocks_max := by
    rintro f (rfl | rfl)
    · rw [dinOf_smallFs_root]
      decide
    · rw [dinOf_smallFs]
      decide
  mapped := by
    rintro f i (rfl | rfl) _
    · rw [fileBlock_smallFs_root, dinOf_smallFs_root]
      change _ ↔ i < 1
      split
      · next heq => simp [heq]
      · next hne => simp [hne]
    · rw [fileBlock_smallFs, dinOf_smallFs]
      change _ ↔ i < 1
      split
      · next heq => simp [heq]
      · next hne => simp [hne]
  loaded := by
    intro f hf
    exact Or.inr (List.mem_singleton.mp hf)

end SmallFs

end Ucore.SfsOwnership
