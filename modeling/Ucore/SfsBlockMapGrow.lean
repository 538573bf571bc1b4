import Ucore.SfsFileViews

namespace Ucore.SfsBlockMapGrow

open Ucore.Errors
open Ucore.KernelRoutine
open Ucore.ByteBuffer
open Ucore.BlockBitmap
open Ucore.SfsDisk
open Ucore.SfsBlockMap
open Ucore.SfsOwnership
open Ucore.SfsFileViews

section Growing

variable {sfs sfs' : SfsFs} {usage : Usage} {ino b : Nat}

/-- Blocks that one more block of a file takes. -/
def growCost (din : SfsDiskInode) : Nat :=
  if SFS_NDIRECT ≤ din.blocks ∧ din.indirect = 0 then 2 else 1

/-- The file `ino` has the new block `b` at its end, and nothing else differs. -/
structure Grown (sfs sfs' : SfsFs) (usage : Usage) (ino b : Nat) : Prop where
  wf : WellFormed sfs' usage
  loaded : sfs'.inodeList = sfs.inodeList
  others : ∀ f, usage.inode f → f ≠ ino → Kept sfs sfs' f
  size : (dinOf sfs' ino).size = (dinOf sfs ino).size
  type : (dinOf sfs' ino).type = (dinOf sfs ino).type
  nlinks : (dinOf sfs' ino).nlinks = (dinOf sfs ino).nlinks
  blocks : (dinOf sfs' ino).blocks = (dinOf sfs ino).blocks + 1
  indirect : (dinOf sfs' ino).indirect = 0 ↔
    (dinOf sfs ino).indirect = 0 ∧ (dinOf sfs ino).blocks < SFS_NDIRECT
  block : ∀ i, i < maxBlocks →
    fileBlock sfs' ino i = if i = (dinOf sfs ino).blocks then b else fileBlock sfs ino i
  data : ∀ i, i < (dinOf sfs ino).blocks →
    sfs'.dev.block (fileBlock sfs ino i) = sfs.dev.block (fileBlock sfs ino i)
  cleared : ∀ k, k < SFS_BLKSIZE → sfs'.dev.block b k = 0
  count : freeCount sfs' + growCost (dinOf sfs ino) = freeCount sfs

theorem holds_indirect_congr {f : Nat} (hmap : usage.inode f → SameMap sfs sfs' f) (k : Nat) :
    Holds sfs' usage (.indirect f) k ↔ Holds sfs usage (.indirect f) k := by
  simp only [Holds]
  constructor
  · rintro ⟨hf, hrest⟩
    rw [(hmap hf).indirect] at hrest
    exact ⟨hf, hrest⟩
  · rintro ⟨hf, hrest⟩
    rw [(hmap hf).indirect]
    exact ⟨hf, hrest⟩

theorem holds_data_congr (h : WellFormed sfs usage) {f : Nat}
    (hmap : usage.inode f → SameMap sfs sfs' f) (i k : Nat) :
    Holds sfs' usage (.data f i) k ↔ Holds sfs usage (.data f i) k := by
  simp only [Holds]
  constructor
  · rintro ⟨hf, hi, heq⟩
    rw [(hmap hf).blocks] at hi
    rw [(hmap hf).block i (lt_of_lt_of_le hi (h.blocks_max f hf))] at heq
    exact ⟨hf, hi, heq⟩
  · rintro ⟨hf, hi, heq⟩
    rw [(hmap hf).blocks, (hmap hf).block i (lt_of_lt_of_le hi (h.blocks_max f hf))]
    exact ⟨hf, hi, heq⟩

/-- The block `b` goes from the free blocks to the owner `o₀`. -/
theorem wellFormed_take (h : WellFormed sfs usage) (hok : FreemapOk sfs')
    (hsuper : sfs'.super.blocks = sfs.super.blocks) (hlist : sfs'.inodeList = sfs.inodeList)
    (hlt : b < sfs.super.blocks) (hfree : sfs.freemap.bit b = true)
    (hbit : ∀ k, sfs'.freemap.bit k = if k = b then false else sfs.freemap.bit k) {o₀ : Owner}
    (hholds : ∀ o k, Holds sfs' usage o k ↔ Holds sfs usage o k ∨ o = o₀ ∧ k = b)
    (hmax : ∀ f, usage.inode f → (dinOf sfs' f).blocks ≤ maxBlocks)
    (hmapped : ∀ f i, usage.inode f → i < maxBlocks →
      (fileBlock sfs' f i ≠ 0 ↔ i < (dinOf sfs' f).blocks)) : WellFormed sfs' usage where
  freemap := hok
  owns := by
    apply h.owns.take ?_ hholds
    · intro k
      rw [InUse, InUse, hsuper, hbit]
      split
      · next heq => simp [heq, hlt]
      · next hne => simp [hne]
    · rintro ⟨_, hused⟩
      rw [hfree] at hused
      cases hused
  super_reserved := h.super_reserved
  blocks_max := hmax
  mapped := hmapped
  loaded f hf := h.loaded f (by rwa [hlist] at hf)

/-- Growing a file by the free block `b`, seen through the block maps. -/
theorem wellFormed_grow (h : WellFormed sfs usage) (hfile : usage.inode ino) (hok : FreemapOk sfs')
    (hsuper : sfs'.super.blocks = sfs.super.blocks) (hlist : sfs'.inodeList = sfs.inodeList)
    (hne : b ≠ 0) (hlt : b < sfs.super.blocks) (hfree : sfs.freemap.bit b = true)
    (hbit : ∀ k, sfs'.freemap.bit k = if k = b then false else sfs.freemap.bit k)
    (hmax : (dinOf sfs ino).blocks < maxBlocks)
    (hothers : ∀ f, usage.inode f → f ≠ ino → Kept sfs sfs' f)
    (hblocks : (dinOf sfs' ino).blocks = (dinOf sfs ino).blocks + 1)
    (hindirect : (dinOf sfs' ino).indirect = (dinOf sfs ino).indirect)
    (hblock : ∀ i, i < maxBlocks →
      fileBlock sfs' ino i = if i = (dinOf sfs ino).blocks then b else fileBlock sfs ino i) :
    WellFormed sfs' usage := by
  have hmax' : ∀ f, usage.inode f → (dinOf sfs' f).blocks ≤ maxBlocks := by
    intro f hf
    rcases eq_or_ne f ino with rfl | hother
    · omega
    · rw [(hothers f hf hother).din]
      exact h.blocks_max f hf
  refine @wellFormed_take sfs sfs' usage b h hok hsuper hlist hlt hfree hbit
    (.data ino (dinOf sfs ino).blocks) ?_ hmax' ?_
  · intro o k
    cases o with
    | reserved blkno =>
        simp [Holds]
    | inode f => simp [Holds]
    | indirect f =>
        rcases eq_or_ne f ino with rfl | hother
        · simp [Holds, hindirect]
        · simp only [reduceCtorEq, false_and, or_false]
          exact holds_indirect_congr (fun hf => (hothers f hf hother).sameMap) k
    | data f i =>
        rcases eq_or_ne f ino with rfl | hother
        · simp only [Holds, Owner.data.injEq, hblocks]
          constructor
          · rintro ⟨hf, hi, heq⟩
            rw [hblock i (by omega)] at heq
            split at heq
            · next hlast => exact Or.inr ⟨⟨trivial, hlast⟩, heq⟩
            · next hlast => exact Or.inl ⟨hf, by omega, heq⟩
          · rintro (⟨hf, hi, heq⟩ | ⟨⟨_, rfl⟩, rfl⟩)
            · rw [hblock i (by omega), if_neg (by omega)]
              exact ⟨hf, by omega, heq⟩
            · rw [hblock _ hmax, if_pos rfl]
              exact ⟨hfile, by omega, rfl⟩
        · simp only [Owner.data.injEq, hother, false_and, or_false]
          exact holds_data_congr h (fun hf => (hothers f hf hother).sameMap) i k
  · intro f i hf hi
    rcases eq_or_ne f ino with rfl | hother
    · rw [hblock i hi, hblocks]
      split
      · next hlast => simp [hne, hlast]
      · next hlast =>
        rw [h.mapped f i hf hi]
        omega
    · rw [(hothers f hf hother).din, (hothers f hf hother).block i hi]
      exact h.mapped f i hf hi

/-- The block `b` becomes the empty indirect block of a file that has none. -/
theorem wellFormed_attach (h : WellFormed sfs usage) (hfile : usage.inode ino) (hok : FreemapOk sfs')
    (hsuper : sfs'.super.blocks = sfs.super.blocks) (hlist : sfs'.inodeList = sfs.inodeList)
    (hne : b ≠ 0) (hlt : b < sfs.super.blocks) (hfree : sfs.freemap.bit b = true)
    (hbit : ∀ k, sfs'.freemap.bit k = if k = b then false else sfs.freemap.bit k)
    (hothers : ∀ f, usage.inode f → f ≠ ino → Kept sfs sfs' f)
    (hblocks : (dinOf sfs' ino).blocks = (dinOf sfs ino).blocks)
    (hnone : (dinOf sfs ino).indirect = 0) (hindirect : (dinOf sfs' ino).indirect = b)
    (hblock : ∀ i, i < maxBlocks → fileBlock sfs' ino i = fileBlock sfs ino i) :
    WellFormed sfs' usage := by
  refine @wellFormed_take sfs sfs' usage b h hok hsuper hlist hlt hfree hbit
    (.indirect ino) ?_ ?_ ?_
  · intro o k
    cases o with
    | reserved blkno =>
        simp [Holds]
    | inode f => simp [Holds]
    | indirect f =>
        rcases eq_or_ne f ino with rfl | hother
        · simp [Holds, hindirect, hnone, hne, hfile]
        · simp only [Owner.indirect.injEq, hother, false_and, or_false]
          exact holds_indirect_congr (fun hf => (hothers f hf hother).sameMap) k
    | data f i =>
        simp only [reduceCtorEq, false_and, or_false]
        rcases eq_or_ne f ino with rfl | hother
        · have hmax := h.blocks_max f hfile
          simp only [Holds, hblocks]
          constructor
          · rintro ⟨hf, hi, heq⟩
            rw [hblock i (by omega)] at heq
            exact ⟨hf, hi, heq⟩
          · rintro ⟨hf, hi, heq⟩
            rw [hblock i (by omega)]
            exact ⟨hf, hi, heq⟩
        · exact holds_data_congr h (fun hf => (hothers f hf hother).sameMap) i k
  · intro f hf
    rcases eq_or_ne f ino with rfl | hother
    · rw [hblocks]
      exact h.blocks_max f hf
    · rw [(hothers f hf hother).din]
      exact h.blocks_max f hf
  · intro f i hf hi
    rcases eq_or_ne f ino with rfl | hother
    · rw [hblock i hi, hblocks]
      exact h.mapped f i hf hi
    · rw [(hothers f hf hother).din, (hothers f hf hother).block i hi]
      exact h.mapped f i hf hi

theorem freemapOk_setInode (hok : FreemapOk sfs) (v : SfsInode) :
    FreemapOk (sfs.setInode ino v) :=
  ⟨⟨hok.steady.faults, hok.steady.blocks_le⟩, hok.nbits, hok.blocks_le, hok.free_lt,
    hok.super_used, hok.unused⟩

/-- A file whose inode is replaced by one that has the free block `b` at its end. -/
theorem grown_setInode (h : WellFormed sfs usage) (hin : ino ∈ sfs.inodeList)
    (hmax : (dinOf sfs ino).blocks < maxBlocks)
    (hfar : SFS_NDIRECT ≤ (dinOf sfs ino).blocks → (dinOf sfs ino).indirect ≠ 0)
    (hne : b ≠ 0) (hlt : b < sfs.super.blocks) (hfree : sfs.freemap.bit b = true)
    {t : SfsFs} {v : SfsInode} (hok : FreemapOk t) (hsuper : t.super.blocks = sfs.super.blocks)
    (hlist : t.inodeList = sfs.inodeList)
    (hbit : ∀ k, t.freemap.bit k = if k = b then false else sfs.freemap.bit k)
    (hcount : freeCount t + 1 = freeCount sfs)
    (hothers : ∀ f, usage.inode f → f ≠ ino → Kept sfs t f)
    (hdata : ∀ i, i < (dinOf sfs ino).blocks →
      t.dev.block (fileBlock sfs ino i) = sfs.dev.block (fileBlock sfs ino i))
    (hcleared : ∀ k, k < SFS_BLKSIZE → t.dev.block b k = 0)
    (hsize : v.din.size = (dinOf sfs ino).size) (htype : v.din.type = (dinOf sfs ino).type)
    (hnlinks : v.din.nlinks = (dinOf sfs ino).nlinks)
    (hblocks : v.din.blocks = (dinOf sfs ino).blocks + 1)
    (hindirect : v.din.indirect = (dinOf sfs ino).indirect)
    (hblock : ∀ i, i < maxBlocks → blockAt t.dev.block v.din i =
      if i = (dinOf sfs ino).blocks then b else fileBlock sfs ino i) :
    Grown sfs (t.setInode ino v) usage ino b := by
  have hfile := h.loaded ino hin
  have hin' : ino ∈ t.inodeList := by rwa [hlist]
  have hdin : dinOf (t.setInode ino v) ino = v.din := dinOf_setInode hin' v
  have hkept : ∀ f, usage.inode f → f ≠ ino → Kept sfs (t.setInode ino v) f := by
    intro f hf hother
    exact (hothers f hf hother).trans (kept_setInode hother v) (h.blocks_max f hf)
  have hblock' : ∀ i, i < maxBlocks → fileBlock (t.setInode ino v) ino i =
      if i = (dinOf sfs ino).blocks then b else fileBlock sfs ino i := by
    intro i hi
    rw [fileBlock_setInode hin', hblock i hi]
  rw [← hdin] at hsize htype hnlinks hblocks hindirect
  constructor
  case wf =>
    exact wellFormed_grow h hfile (freemapOk_setInode hok v) hsuper hlist hne hlt hfree hbit hmax
      hkept hblocks hindirect hblock'
  case loaded => exact hlist
  case others => exact hkept
  case size => exact hsize
  case type => exact htype
  case nlinks => exact hnlinks
  case blocks => exact hblocks
  case indirect =>
    rw [hindirect]
    constructor
    · intro hzero
      exact ⟨hzero, not_le.mp fun hle => hfar hle hzero⟩
    · exact And.left
  case block => exact hblock'
  case data => exact hdata
  case cleared => exact hcleared
  case count =>
    rw [growCost, if_neg fun hboth => hfar hboth.1 hboth.2]
    exact hcount

/-- The new block goes into the inode. -/
theorem grown_direct (h : WellFormed sfs usage) (hin : ino ∈ sfs.inodeList)
    (hnear : (dinOf sfs ino).blocks < SFS_NDIRECT)
    (hne : b ≠ 0) (hlt : b < sfs.super.blocks) (hfree : sfs.freemap.bit b = true) (dirty : Bool) :
    Grown sfs ((granted sfs b).setInode ino
      { din := { dinOf sfs ino with
          direct := Function.update (dinOf sfs ino).direct (dinOf sfs ino).blocks b
          blocks := (dinOf sfs ino).blocks + 1 }
        dirty := dirty }) usage ino b := by
  have hfile := h.loaded ino hin
  have hmax : (dinOf sfs ino).blocks < maxBlocks := by
    unfold maxBlocks
    omega
  apply grown_setInode h hin hmax (fun hle => absurd hle (by omega)) hne hlt hfree
    (freemapOk_granted h.freemap hlt hfree) rfl rfl (granted_bit sfs b)
    (freeCount_granted h.freemap hlt hfree)
    (fun f hf _ => kept_granted h hf hfree)
    (fun i hi => (kept_granted h hfile hfree).data i hi)
    (fun k hk => granted_cleared sfs b hk) rfl rfl rfl rfl rfl
  intro i hi
  have hkept := (kept_granted h hfile hfree).block i hi
  rcases lt_or_ge i SFS_NDIRECT with hdirect | hindirect
  · rw [blockAt, if_pos hdirect, fileBlock, blockAt, if_pos hdirect]
    split
    · next heq => simp only [heq, Function.update_self]
    · next hother => simp only [ne_eq, hother, not_false_eq_true, Function.update_of_ne]
  · rw [if_neg (by omega), ← hkept, fileBlock, (kept_granted h hfile hfree).din]
    have hnot : ¬i < SFS_NDIRECT := not_lt.mpr hindirect
    rw [blockAt, blockAt, if_neg hnot, if_neg hnot]

theorem lt_word (hok : FreemapOk sfs) (hlt : b < sfs.super.blocks) : b < 2 ^ 32 := by
  have hdev := hok.steady.blocks_le
  have hmax := sfs.dev.dBlocks_le
  omega

/-- The file system after a block of `ino` has been entered in its indirect block. -/
def entered (sfs : SfsFs) (ent index b : Nat) : SfsFs :=
  sfs.setBlock ent (putWord (sfs.dev.block ent) index b)

/-- The new block goes into the indirect block that the file has. -/
theorem grown_indirect (h : WellFormed sfs usage) (hin : ino ∈ sfs.inodeList)
    (hfar : SFS_NDIRECT ≤ (dinOf sfs ino).blocks) (hmax : (dinOf sfs ino).blocks < maxBlocks)
    (hsome : (dinOf sfs ino).indirect ≠ 0)
    (hne : b ≠ 0) (hlt : b < sfs.super.blocks) (hfree : sfs.freemap.bit b = true) (dirty : Bool) :
    Grown sfs ((entered (granted sfs b) (dinOf sfs ino).indirect
        ((dinOf sfs ino).blocks - SFS_NDIRECT) b).setInode ino
      { din := { dinOf sfs ino with blocks := (dinOf sfs ino).blocks + 1 }
        dirty := dirty }) usage ino b := by
  have hfile := h.loaded ino hin
  have havoid := avoids_of_free h hfile hfree
  have hother : b ≠ (dinOf sfs ino).indirect := fun heq => havoid.indirect hsome heq.symm
  have hkept : ∀ f, usage.inode f → f ≠ ino →
      Kept sfs (entered (granted sfs b) (dinOf sfs ino).indirect
        ((dinOf sfs ino).blocks - SFS_NDIRECT) b) f := by
    intro f hf hne'
    have hgranted := kept_granted h hf hfree
    have havoid' := (avoids_indirect h hf hfile hsome hne').of_kept hgranted (h.blocks_max f hf)
    exact hgranted.trans (havoid'.kept_setBlock _) (h.blocks_max f hf)
  apply grown_setInode h hin hmax (fun _ => hsome) hne hlt hfree
    (freemapOk_setBlock (freemapOk_granted h.freemap hlt hfree) _ _) rfl rfl (granted_bit sfs b)
    (freeCount_granted h.freemap hlt hfree) hkept ?_ ?_ rfl rfl rfl rfl rfl ?_
  · intro i hi
    rw [setBlock_block_ne (data_ne_indirect h hfile hi hsome)]
    exact (kept_granted h hfile hfree).data i hi
  · intro k hk
    rw [setBlock_block_ne hother]
    exact granted_cleared sfs b hk
  · intro i hi
    rw [fileBlock]
    rcases lt_or_ge i SFS_NDIRECT with hdirect | hindirect
    · rw [if_neg (by omega), blockAt, blockAt, if_pos hdirect, if_pos hdirect]
    · have hnot : ¬i < SFS_NDIRECT := not_lt.mpr hindirect
      rw [blockAt, blockAt, if_neg hnot, if_neg hnot, if_neg hsome, if_neg hsome,
        setBlock_block_self, getWord_putWord _ _ _ (lt_word h.freemap hlt),
        granted_block_ne hother.symm]
      rcases eq_or_ne i (dinOf sfs ino).blocks with heq | hdiff
      · rw [if_pos (by omega), if_pos heq]
      · rw [if_neg (by omega), if_neg hdiff]

/-- An empty indirect block for a file that needs its first one. -/
def attached (sfs : SfsFs) (ino ent : Nat) : SfsFs :=
  (granted sfs ent).setInode ino
    { din := { dinOf sfs ino with indirect := ent }, dirty := true }

theorem wellFormed_attached (h : WellFormed sfs usage) (hin : ino ∈ sfs.inodeList)
    (hnone : (dinOf sfs ino).indirect = 0)
    (hne : b ≠ 0) (hlt : b < sfs.super.blocks) (hfree : sfs.freemap.bit b = true) :
    WellFormed (attached sfs ino b) usage ∧
      (∀ f, usage.inode f → f ≠ ino → Kept sfs (attached sfs ino b) f) ∧
      ∀ i, i < maxBlocks → fileBlock (attached sfs ino b) ino i = fileBlock sfs ino i := by
  have hfile := h.loaded ino hin
  have hin' : ino ∈ (granted sfs b).inodeList := hin
  have hkept : ∀ f, usage.inode f → f ≠ ino → Kept sfs (attached sfs ino b) f := by
    intro f hf hother
    exact (kept_granted h hf hfree).trans (kept_setInode hother _) (h.blocks_max f hf)
  have hdin : dinOf (attached sfs ino b) ino = { dinOf sfs ino with indirect := b } :=
    dinOf_setInode hin' _
  have hblocks : (dinOf (attached sfs ino b) ino).blocks = (dinOf sfs ino).blocks := by
    rw [hdin]
  have hindirect : (dinOf (attached sfs ino b) ino).indirect = b := by
    rw [hdin]
  have hblock : ∀ i, i < maxBlocks →
      fileBlock (attached sfs ino b) ino i = fileBlock sfs ino i := by
    intro i hi
    rw [attached, fileBlock_setInode hin', fileBlock]
    rcases lt_or_ge i SFS_NDIRECT with hdirect | hindirect
    · rw [blockAt, blockAt, if_pos hdirect, if_pos hdirect]
    · have hnot : ¬i < SFS_NDIRECT := not_lt.mpr hindirect
      rw [blockAt, blockAt, if_neg hnot, if_neg hnot, if_neg hne, if_pos hnone]
      have hzeros : getWord ((granted sfs b).dev.block b) (i - SFS_NDIRECT) =
          getWord zeros (i - SFS_NDIRECT) := by
        apply @getWord_congr _ _ _ SFS_BLKSIZE
        · unfold maxBlocks SFS_NDIRECT SFS_BLK_NENTRY SFS_BLKSIZE at *
          omega
        · intro k hk
          exact granted_cleared sfs b hk
      rw [hzeros, getWord_zeros]
  refine ⟨?_, hkept, hblock⟩
  apply wellFormed_attach h hfile (freemapOk_setInode (freemapOk_granted h.freemap hlt hfree) _)
    rfl rfl hne hlt hfree (granted_bit sfs b) hkept
  · exact hblocks
  · exact hnone
  · exact hindirect
  · exact hblock

/-- A file that got its indirect block and then one more block. -/
theorem Grown.of_attached {ent : Nat} (h : WellFormed sfs usage) (hin : ino ∈ sfs.inodeList)
    (hfar : SFS_NDIRECT ≤ (dinOf sfs ino).blocks) (hnone : (dinOf sfs ino).indirect = 0)
    (hne : ent ≠ 0) (hlt : ent < sfs.super.blocks) (hfree : sfs.freemap.bit ent = true)
    (hgrown : Grown (attached sfs ino ent) sfs' usage ino b) : Grown sfs sfs' usage ino b := by
  obtain ⟨_, hkept, hblock⟩ := wellFormed_attached h hin hnone hne hlt hfree
  have hfile := h.loaded ino hin
  have hin' : ino ∈ (granted sfs ent).inodeList := hin
  have hdin : dinOf (attached sfs ino ent) ino = { dinOf sfs ino with indirect := ent } :=
    dinOf_setInode hin' _
  constructor
  case wf => exact hgrown.wf
  case loaded => exact hgrown.loaded
  case others =>
    intro f hf hother
    exact (hkept f hf hother).trans (hgrown.others f hf hother) (h.blocks_max f hf)
  case size => rw [hgrown.size, hdin]
  case type => rw [hgrown.type, hdin]
  case nlinks => rw [hgrown.nlinks, hdin]
  case blocks => rw [hgrown.blocks, hdin]
  case indirect =>
    rw [hgrown.indirect, hdin]
    constructor
    · rintro ⟨hzero, _⟩
      exact absurd hzero hne
    · rintro ⟨_, hnear⟩
      exact absurd hnear (not_lt.mpr hfar)
  case block =>
    intro i hi
    rw [hgrown.block i hi, hblock i hi, hdin]
  case data =>
    intro i hi
    have hmax := h.blocks_max ino hfile
    have hstep := hgrown.data i (by rwa [hdin])
    rw [hblock i (by omega)] at hstep
    exact hstep.trans ((kept_granted h hfile hfree).data i hi)
  case cleared => exact hgrown.cleared
  case count =>
    have hcount := hgrown.count
    have hfirst := freeCount_granted h.freemap hlt hfree
    have hsame : freeCount (attached sfs ino ent) = freeCount (granted sfs ent) := rfl
    rw [hdin, growCost, if_neg fun hboth => hne hboth.2, hsame] at hcount
    rw [growCost, if_pos ⟨hfar, hnone⟩]
    omega

theorem grown_attached {ent : Nat} (h : WellFormed sfs usage) (hin : ino ∈ sfs.inodeList)
    (hfar : SFS_NDIRECT ≤ (dinOf sfs ino).blocks) (hmax : (dinOf sfs ino).blocks < maxBlocks)
    (hnone : (dinOf sfs ino).indirect = 0)
    (hne : ent ≠ 0) (hlt : ent < sfs.super.blocks) (hfree : sfs.freemap.bit ent = true)
    (hb : b ≠ 0) (hblt : b < sfs.super.blocks) (hbfree : (granted sfs ent).freemap.bit b = true) :
    Grown sfs ((entered (granted (granted sfs ent) b) ent
        ((dinOf sfs ino).blocks - SFS_NDIRECT) b).setInode ino
      { din := { dinOf sfs ino with indirect := ent, blocks := (dinOf sfs ino).blocks + 1 }
        dirty := true }) usage ino b := by
  obtain ⟨hwf, _, _⟩ := wellFormed_attached h hin hnone hne hlt hfree
  have hin' : ino ∈ (attached sfs ino ent).inodeList := hin
  have hdin : dinOf (attached sfs ino ent) ino = { dinOf sfs ino with indirect := ent } :=
    @dinOf_setInode (granted sfs ent) ino hin _
  have hblocks : (dinOf (attached sfs ino ent) ino).blocks = (dinOf sfs ino).blocks := by
    rw [hdin]
  have hindirect : (dinOf (attached sfs ino ent) ino).indirect = ent := by
    rw [hdin]
  have hgrown := grown_indirect hwf hin' (by rwa [hblocks]) (by rwa [hblocks])
    (by rwa [hindirect]) hb hblt hbfree true
  rw [hdin] at hgrown
  have hcommute : entered (granted (attached sfs ino ent) b) ent
      ((dinOf sfs ino).blocks - SFS_NDIRECT) b =
      (entered (granted (granted sfs ent) b) ent ((dinOf sfs ino).blocks - SFS_NDIRECT) b).setInode
        ino { din := { dinOf sfs ino with indirect := ent }, dirty := true } := rfl
  have hstate := hgrown.of_attached h hin hfar hnone hne hlt hfree
  rw [hcommute, setInode_setInode] at hstate
  exact hstate

/-- Every file is as it was, although free blocks may have been written. -/
structure Untouched (sfs sfs' : SfsFs) (usage : Usage) : Prop where
  wf : WellFormed sfs' usage
  loaded : sfs'.inodeList = sfs.inodeList
  kept : ∀ f, usage.inode f → Kept sfs sfs' f
  count : freeCount sfs' = freeCount sfs

theorem Untouched.refl (h : WellFormed sfs usage) : Untouched sfs sfs usage :=
  ⟨h, rfl, fun f _ => Kept.refl sfs f, rfl⟩

theorem wellFormed_congr (h : WellFormed sfs usage) (hok : FreemapOk sfs')
    (hsuper : sfs'.super.blocks = sfs.super.blocks)
    (hloaded : ∀ f, f ∈ sfs'.inodeList → usage.inode f)
    (hbit : ∀ k, sfs'.freemap.bit k = sfs.freemap.bit k)
    (hmap : ∀ f, usage.inode f → SameMap sfs sfs' f) : WellFormed sfs' usage where
  freemap := hok
  owns := by
    apply h.owns.congr
    · intro o k
      cases o with
      | reserved blkno => exact Iff.rfl
      | inode f => exact Iff.rfl
      | indirect f => exact holds_indirect_congr (hmap f) k
      | data f i => exact holds_data_congr h (hmap f) i k
    · intro k
      rw [InUse, InUse, hsuper, hbit]
  super_reserved := h.super_reserved
  blocks_max f hf := by
    rw [(hmap f hf).blocks]
    exact h.blocks_max f hf
  mapped f i hf hi := by
    rw [(hmap f hf).blocks, (hmap f hf).block i hi]
    exact h.mapped f i hf hi
  loaded := hloaded

/-- Replacing an inode by one with the same blocks. -/
theorem wellFormed_setInode (h : WellFormed sfs usage) (hin : ino ∈ sfs.inodeList) {v : SfsInode}
    (hblocks : v.din.blocks = (dinOf sfs ino).blocks)
    (hindirect : v.din.indirect = (dinOf sfs ino).indirect)
    (hdirect : v.din.direct = (dinOf sfs ino).direct) : WellFormed (sfs.setInode ino v) usage := by
  apply wellFormed_congr h (freemapOk_setInode h.freemap v) rfl h.loaded fun _ => rfl
  intro f _
  rcases eq_or_ne f ino with rfl | hother
  · constructor
    · rw [dinOf_setInode hin, hblocks]
    · rw [dinOf_setInode hin, hindirect]
    · intro i _
      rw [fileBlock_setInode hin, fileBlock, blockAt, blockAt, hindirect, hdirect]
  · exact (kept_setInode hother v).sameMap

/-- A block that was granted and given back at once. -/
theorem untouched_freed_granted (h : WellFormed sfs usage) (hne : b ≠ 0)
    (hlt : b < sfs.super.blocks) (hfree : sfs.freemap.bit b = true) :
    Untouched sfs (freed (granted sfs b) b) usage := by
  have hgranted := freemapOk_granted h.freemap hlt hfree
  have hused : (granted sfs b).freemap.bit b = false := by
    rw [granted_bit, if_pos rfl]
  have hok : FreemapOk (freed (granted sfs b) b) := freemapOk_freed hgranted hlt hne hused
  have hbit : ∀ k, (freed (granted sfs b) b).freemap.bit k = sfs.freemap.bit k := by
    intro k
    change ((granted sfs b).freemap.setBit b true).bit k = _
    rw [bit_setBit, granted_bit]
    split
    · next heq => rw [heq, hfree]
    · rfl
  have hkept : ∀ f, usage.inode f → Kept sfs (freed (granted sfs b) b) f := by
    intro f hf
    have hstep := kept_granted h hf hfree
    exact ⟨hstep.din, hstep.block, hstep.data⟩
  have hcount : freeCount (freed (granted sfs b) b) = freeCount sfs := by
    have hnbits : b < (granted sfs b).freemap.nbits := lt_of_lt_of_le hlt h.freemap.blocks_le
    rw [freeCount_freed hnbits hused]
    exact freeCount_granted h.freemap hlt hfree
  have hwf := wellFormed_congr h hok rfl h.loaded hbit fun f hf => (hkept f hf).sameMap
  exact ⟨hwf, rfl, hkept, hcount⟩

end Growing

section Loading

variable {sfs : SfsFs} {usage : Usage} {ino : Nat}

theorem sfsBlockAlloc_granted (hok : FreemapOk sfs) :
    (sfsBlockAlloc sfs = .ok (.error .eNoMem, sfs) ∧ freeCount sfs = 0) ∨
      ∃ b, sfs.freemap.bit b = true ∧ b ≠ 0 ∧ b < sfs.super.blocks ∧
        sfsBlockAlloc sfs = .ok (.ok b, granted sfs b) :=
  sfsBlockAlloc_spec hok

theorem addSubBlock_spec (hok : FreemapOk sfs) {ent index : Nat} (entp : Nat) (hne : ent ≠ 0)
    (hlt : ent < sfs.super.blocks) (hindex : index < SFS_BLK_NENTRY) :
    (freeCount sfs = 0 ∧
        addSubBlock entp ent (index * 4) sfs = freeNewEntry entp ent .eNoMem sfs) ∨
      ∃ b, sfs.freemap.bit b = true ∧ b ≠ 0 ∧ b < sfs.super.blocks ∧
        addSubBlock entp ent (index * 4) sfs =
          .ok (.ok (ent, b), entered (granted sfs b) ent index b) := by
  rcases sfsBlockAlloc_granted hok with ⟨heq, hzero⟩ | ⟨b, hfree, hb, hblt, heq⟩
  · left
    refine ⟨hzero, ?_⟩
    rw [addSubBlock, attempt_bind_of_ok heq]
  · right
    refine ⟨b, hfree, hb, hblt, ?_⟩
    obtain ⟨hstart, hstop⟩ := word_in_block hindex
    have hwrite := @sfsWbuf_eq (granted sfs b) ent (freemapOk_granted hok hblt hfree).steady
      (wordBytes b) 0 4 (index * 4) hne hlt hstart hstop
    rw [copyBytes_wordBytes] at hwrite
    rw [addSubBlock, attempt_bind_of_ok heq]
    change (attempt (sfsWbuf (wordBytes b) 0 4 ent (index * 4)) >>= fun _ => _) (granted sfs b) = _
    rw [attempt_bind_of_ok hwrite]
    rfl

/-- `sfs_bmap_load_nolock` at the end of the file, once the block map has made a block. -/
theorem sfsBmapLoadNolock_of_get {b : Nat} {t : SfsFs}
    (hmax : (sfs.inode ino).din.blocks < maxBlocks)
    (hget : bmapGet ino (sfs.inode ino).din.blocks true sfs = .ok (.ok b, t))
    (hbits : t.super.blocks ≤ t.freemap.nbits) (hne : b ≠ 0) (huse : InUse t b)
    (hblocks : (t.inode ino).din.blocks = (sfs.inode ino).din.blocks) :
    sfsBmapLoadNolock ino (sfs.inode ino).din.blocks sfs =
      .ok (.ok b, t.setInode ino { t.inode ino with
        din := { (t.inode ino).din with blocks := (sfs.inode ino).din.blocks + 1 } }) := by
  have hwrap : ((sfs.inode ino).din.blocks + 1) % 2 ^ 32 = (sfs.inode ino).din.blocks + 1 := by
    apply Nat.mod_eq_of_lt
    unfold maxBlocks SFS_NDIRECT SFS_BLK_NENTRY SFS_BLKSIZE at hmax
    omega
  have hinuse := ensureInuse_apply hne huse.1 hbits huse.2
  have hgot : sfsBmapGetNolock ino (sfs.inode ino).din.blocks
      (decide ((sfs.inode ino).din.blocks = (sfs.inode ino).din.blocks)) sfs =
      .ok (.ok b, t) := by
    rw [decide_eq_true rfl, sfsBmapGetNolock, bind_of_ok hget, if_neg hne, bind_of_ok hinuse]
    rfl
  rw [sfsBmapLoadNolock, getState_bind, ensure_bind_of le_rfl, bind_of_ok hgot,
    bind_of_ok hinuse, if_pos rfl]
  change Except.ok (Except.ok b, t.setInode ino { t.inode ino with
    din := { (t.inode ino).din with blocks := ((t.inode ino).din.blocks + 1) % 2 ^ 32 } }) = _
  rw [hblocks, hwrap]

theorem sfsBmapLoadNolock_of_get_error {e : Errno} {t : SfsFs}
    (hget : bmapGet ino (sfs.inode ino).din.blocks true sfs = .ok (.error e, t)) :
    sfsBmapLoadNolock ino (sfs.inode ino).din.blocks sfs = .ok (.error e, t) := by
  have hgot : sfsBmapGetNolock ino (sfs.inode ino).din.blocks
      (decide ((sfs.inode ino).din.blocks = (sfs.inode ino).din.blocks)) sfs =
      .ok (.error e, t) := by
    rw [decide_eq_true rfl, sfsBmapGetNolock, bind_of_error hget]
  rw [sfsBmapLoadNolock, getState_bind, ensure_bind_of le_rfl, bind_of_error hgot]

theorem inUse_granted {b : Nat} (hlt : b < sfs.super.blocks) : InUse (granted sfs b) b :=
  ⟨hlt, by rw [granted_bit, if_pos rfl]⟩

/-- `sfs_bmap_load_nolock` at the end of the file runs out of space and leaves
every file as it was, or adds one cleared block. -/
def LoadsNew (sfs : SfsFs) (usage : Usage) (ino : Nat) : Prop :=
  (∃ sfs', sfsBmapLoadNolock ino (dinOf sfs ino).blocks sfs = .ok (.error .eNoMem, sfs') ∧
      Untouched sfs sfs' usage ∧ freeCount sfs < growCost (dinOf sfs ino)) ∨
    ∃ b sfs', sfsBmapLoadNolock ino (dinOf sfs ino).blocks sfs = .ok (.ok b, sfs') ∧
      Grown sfs sfs' usage ino b

theorem growCost_pos (din : SfsDiskInode) : 0 < growCost din := by
  unfold growCost
  split
  · decide
  · decide

theorem blockAt_end (h : WellFormed sfs usage) (hfile : usage.inode ino)
    (hmax : (dinOf sfs ino).blocks < maxBlocks) :
    blockAt sfs.dev.block (dinOf sfs ino) (dinOf sfs ino).blocks = 0 := by
  have hmapped := h.mapped ino (dinOf sfs ino).blocks hfile hmax
  exact not_not.mp fun hne => lt_irrefl _ (hmapped.mp hne)

theorem loadsNew_direct (h : WellFormed sfs usage) (hin : ino ∈ sfs.inodeList)
    (hnear : (dinOf sfs ino).blocks < SFS_NDIRECT) : LoadsNew sfs usage ino := by
  have hmax : (dinOf sfs ino).blocks < maxBlocks := by
    unfold maxBlocks
    omega
  have hdin := @dinOf_loaded sfs ino hin
  have hend := blockAt_end h (h.loaded ino hin) hmax
  rw [blockAt, if_pos hnear, hdin] at hend
  have hstart : bmapGet ino (dinOf sfs ino).blocks true sfs =
      (do
        let b ← sfsBlockAlloc
        modifyInode ino fun si => { si with
          din := { si.din with
            direct := Function.update si.din.direct (dinOf sfs ino).blocks b }
          dirty := true }
        return b : Routine SfsFs Nat) sfs := by
    rw [bmapGet, if_pos hnear, bmapGetDirect, getState_bind, hdin, if_pos ⟨hend, rfl⟩]
  rw [LoadsNew, hdin]
  rw [hdin] at hstart hmax
  rcases sfsBlockAlloc_granted h.freemap with ⟨heq, hzero⟩ | ⟨b, hfree, hne, hlt, heq⟩
  · left
    refine ⟨sfs, ?_, Untouched.refl h, ?_⟩
    · apply sfsBmapLoadNolock_of_get_error
      rw [hstart, bind_of_error heq]
    · rw [hzero]
      exact growCost_pos _
  · right
    rw [bind_of_ok heq] at hstart
    have hgrown := grown_direct h hin hnear hne hlt hfree true
    rw [hdin] at hgrown
    refine ⟨b, _, ?_, hgrown⟩
    rw [sfsBmapLoadNolock_of_get hmax hstart
      (freemapOk_setInode (freemapOk_granted h.freemap hlt hfree) _).blocks_le hne (inUse_granted hlt)]
    · congr 2
      simp
      rfl
    · simp
      rfl

theorem sub_lt_nentry {index : Nat} (hmax : index < maxBlocks) (hfar : SFS_NDIRECT ≤ index) :
    index - SFS_NDIRECT < SFS_BLK_NENTRY := by
  unfold maxBlocks at hmax
  omega

theorem bmapGet_far {index : Nat} (hfar : SFS_NDIRECT ≤ index) (hmax : index < maxBlocks)
    (create : Bool) :
    bmapGet ino index create = bmapGetIndirect ino (index - SFS_NDIRECT) create := by
  rw [bmapGet, if_neg (not_lt.mpr hfar), if_pos (sub_lt_nentry hmax hfar)]

theorem loadsNew_indirect (h : WellFormed sfs usage) (hin : ino ∈ sfs.inodeList)
    (hfar : SFS_NDIRECT ≤ (dinOf sfs ino).blocks) (hmax : (dinOf sfs ino).blocks < maxBlocks)
    (hsome : (dinOf sfs ino).indirect ≠ 0) : LoadsNew sfs usage ino := by
  have hdin := @dinOf_loaded sfs ino hin
  have hsub := sub_lt_nentry hmax hfar
  have hend := blockAt_end h (h.loaded ino hin) hmax
  rw [blockAt, if_neg (not_lt.mpr hfar), if_neg hsome] at hend
  have huse := inUse_indirect h (h.loaded ino hin) hsome
  obtain ⟨hstart, hstop⟩ := word_in_block hsub
  have hread := sfsRbuf_eq h.freemap.steady zeros 0 hsome huse.1 hstart hstop
  have hadd : sfsBmapGetSubNolock (dinOf sfs ino).indirect
      ((dinOf sfs ino).blocks - SFS_NDIRECT) true sfs =
      addSubBlock (dinOf sfs ino).indirect (dinOf sfs ino).indirect
        (((dinOf sfs ino).blocks - SFS_NDIRECT) * 4) sfs := by
    rw [sfsBmapGetSubNolock, ensure_bind_of hsub, if_pos hsome, bind_of_ok hread,
      getLE_copyBytes_word, hend, if_neg (by simp)]
  have hget : bmapGet ino (dinOf sfs ino).blocks true sfs =
      bmapGetIndirect ino ((dinOf sfs ino).blocks - SFS_NDIRECT) true sfs := by
    rw [bmapGet_far hfar hmax]
  rw [bmapGetIndirect, getState_bind, ← hdin] at hget
  rcases addSubBlock_spec h.freemap (dinOf sfs ino).indirect hsome huse.1 hsub with
    ⟨hzero, heq⟩ | ⟨b, hfree, hne, hlt, heq⟩
  · left
    rw [freeNewEntry, if_neg (not_not.mpr rfl), fail_apply] at heq
    rw [bind_of_error (hadd.trans heq), hdin] at hget
    refine ⟨sfs, ?_, Untouched.refl h, ?_⟩
    · rw [hdin]
      exact sfsBmapLoadNolock_of_get_error hget
    · rw [hzero]
      exact growCost_pos _
  · right
    have hgrown := grown_indirect h hin hfar hmax hsome hne hlt hfree (sfs.inode ino).dirty
    have hokt : FreemapOk (entered (granted sfs b) (dinOf sfs ino).indirect
        ((dinOf sfs ino).blocks - SFS_NDIRECT) b) :=
      freemapOk_setBlock (freemapOk_granted h.freemap hlt hfree) _ _
    rw [bind_of_ok (hadd.trans heq)] at hget
    simp only [ne_eq, not_true_eq_false, if_false, pure_apply] at hget
    refine ⟨b, _, ?_, hgrown⟩
    rw [hdin] at hget hmax hokt ⊢
    rw [sfsBmapLoadNolock_of_get hmax hget hokt.blocks_le hne (inUse_granted hlt) rfl]
    rfl

/-- The first block past the direct ones takes an indirect block as well. -/
theorem loadsNew_attach (h : WellFormed sfs usage) (hin : ino ∈ sfs.inodeList)
    (hfar : SFS_NDIRECT ≤ (dinOf sfs ino).blocks) (hmax : (dinOf sfs ino).blocks < maxBlocks)
    (hnone : (dinOf sfs ino).indirect = 0) : LoadsNew sfs usage ino := by
  have hdin := @dinOf_loaded sfs ino hin
  have hsub := sub_lt_nentry hmax hfar
  have hcost : growCost (dinOf sfs ino) = 2 := if_pos ⟨hfar, hnone⟩
  have hget : bmapGet ino (dinOf sfs ino).blocks true sfs =
      bmapGetIndirect ino ((dinOf sfs ino).blocks - SFS_NDIRECT) true sfs := by
    rw [bmapGet_far hfar hmax]
  have hadd : sfsBmapGetSubNolock (dinOf sfs ino).indirect
      ((dinOf sfs ino).blocks - SFS_NDIRECT) true sfs =
      (sfsBlockAlloc >>= fun ent =>
        addSubBlock 0 ent (((dinOf sfs ino).blocks - SFS_NDIRECT) * 4)) sfs := by
    rw [sfsBmapGetSubNolock, ensure_bind_of hsub, hnone]
    rfl
  rw [bmapGetIndirect, getState_bind, ← hdin] at hget
  rcases sfsBlockAlloc_granted h.freemap with ⟨halloc, hzero⟩ | ⟨ent, hfree, hne, hlt, halloc⟩
  · left
    rw [bind_of_error halloc] at hadd
    rw [bind_of_error hadd, hdin] at hget
    refine ⟨sfs, ?_, Untouched.refl h, by omega⟩
    rw [hdin]
    exact sfsBmapLoadNolock_of_get_error hget
  · have hok := freemapOk_granted h.freemap hlt hfree
    have hcount := freeCount_granted h.freemap hlt hfree
    rw [bind_of_ok halloc] at hadd
    rcases addSubBlock_spec hok 0 hne hlt hsub with ⟨hzero, heq⟩ | ⟨b, hbfree, hb, hblt, heq⟩
    · left
      have huse := @inUse_granted sfs ent hlt
      have hfreed := @sfsBlockFree_apply (granted sfs ent) ent hne hlt hok.blocks_le huse.2
      rw [freeNewEntry, if_pos hne, bind_of_ok hfreed, fail_apply] at heq
      rw [bind_of_error (hadd.trans heq), hdin] at hget
      refine ⟨_, ?_, untouched_freed_granted h hne hlt hfree, by omega⟩
      rw [hdin]
      exact sfsBmapLoadNolock_of_get_error hget
    · right
      have huse := @inUse_granted (granted sfs ent) b hblt
      have hgrown := grown_attached h hin hfar hmax hnone hne hlt hfree hb hblt hbfree
      have hokt : FreemapOk (entered (granted (granted sfs ent) b) ent
          ((dinOf sfs ino).blocks - SFS_NDIRECT) b) :=
        freemapOk_setBlock (freemapOk_granted hok hblt hbfree) _ _
      rw [bind_of_ok (hadd.trans heq), hnone] at hget
      simp only [ne_eq, hne, not_false_eq_true, if_true] at hget
      rw [ensure_bind_of rfl] at hget
      refine ⟨b, _, ?_, hgrown⟩
      rw [hdin] at hget hmax hokt ⊢
      rw [sfsBmapLoadNolock_of_get hmax hget hokt.blocks_le hb huse]
      · congr 2
        simp
        rfl
      · simp
        rfl

/-- `sfs_bmap_load_nolock` at the end of a file that has room for one more block. -/
theorem sfsBmapLoadNolock_end (h : WellFormed sfs usage) (hin : ino ∈ sfs.inodeList)
    (hmax : (dinOf sfs ino).blocks < maxBlocks) : LoadsNew sfs usage ino := by
  rcases lt_or_ge (dinOf sfs ino).blocks SFS_NDIRECT with hnear | hfar
  · exact loadsNew_direct h hin hnear
  · rcases eq_or_ne (dinOf sfs ino).indirect 0 with hnone | hsome
    · exact loadsNew_attach h hin hfar hmax hnone
    · exact loadsNew_indirect h hin hfar hmax hsome

end Loading

end Ucore.SfsBlockMapGrow
