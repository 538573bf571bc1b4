import Ucore.MksfsAppend
import Ucore.MksfsFreemap
import Ucore.SfsFileViews

namespace Ucore.MksfsBlockMap

open Ucore.Panic
open Ucore.ByteBuffer
open Ucore.Ownership
open Ucore.SfsDisk
open Ucore.SfsMount
open Ucore.SfsBlockMap
open Ucore.SfsOwnership
open Ucore.SfsFileViews
open Ucore.Mksfs
open Ucore.MksfsLayout
open Ucore.MksfsTables
open Ucore.MksfsAppend
open Ucore.MksfsImage
open Ucore.MksfsFreemap

/-- The kernel's memory with the inode `ino` as it is on the disk. -/
def withInode (m : SfsFs) (ino : Nat) : SfsFs :=
  m.setInode ino { din := loadDiskInode (m.dev.block ino), dirty := false }

/-- The kernel finds the numbers `written` in the block map of an inode. -/
def MapsAgree (sfs : SfsFs) (ino : Nat) (written : List Nat) : Prop :=
  ∀ i, i < (sfs.inode ino).din.blocks →
    ∃ b, written[i]? = some b ∧ sfsBmapGetNolock ino i false sfs = .ok (.ok b, sfs)

section Flushed

variable {sfs : ImageFs} {w : History} {tbl : TableMap}

/-- The kernel reads `struct inode` of the builder as its `struct sfs_disk_inode`. -/
theorem loadDiskInode_flushed (inode : Inode) :
    (loadDiskInode (padded (inodeBytes inode) inodeSize)).blocks = inode.blocks % 2 ^ 32 ∧
      (∀ i, i < SFS_NDIRECT → (loadDiskInode (padded (inodeBytes inode) inodeSize)).direct i =
        inode.direct i % 2 ^ 32) ∧
      (loadDiskInode (padded (inodeBytes inode) inodeSize)).indirect =
        inode.indirect % 2 ^ 32 := by
  have hget : ∀ off n, off + n ≤ inodeSize →
      getLE (padded (inodeBytes inode) inodeSize) off n = getLE (inodeBytes inode) off n := by
    intro off n hle
    apply getLE_congr
    intro k _ hk
    rw [padded, copyBytes_of_mem (Nat.zero_le k) (by omega)]
    congr 1
    omega
  have htwelve : SFS_NDIRECT = 12 := rfl
  have hsize : inodeSize = 68 := rfl
  refine ⟨?_, ?_, ?_⟩
  · change getLE _ 8 4 = _
    rw [hget 8 4 (by decide), inodeBytes, getLE_putLE_of_disjoint (by decide),
      getLE_putLE_of_disjoint (by decide), getLE_putWords_of_disjoint (by decide),
      getLE_putLE_self]
    rfl
  · intro i hi
    change (if i < SFS_NDIRECT then getLE _ (12 + 4 * i) 4 else 0) = _
    rw [if_pos hi, hget _ 4 (by omega), inodeBytes, getLE_putLE_of_disjoint (by omega),
      getLE_putLE_of_disjoint (by omega), getLE_putWords hi]
  · change getLE _ 60 4 = _
    rw [hget 60 4 (by decide), inodeBytes, getLE_putLE_of_disjoint (by decide), getLE_putLE_self]
    rfl

theorem number_lt (hl : Layout sfs) (h : Tables sfs w tbl) {f b : Nat} (hb : b ∈ w f) :
    b ≠ 0 ∧ b < sfs.nextIno ∧ b < 2 ^ 32 := by
  have hnum := h.numbers f b hb
  have hroot := firstIno_gt sfs.ninos
  have hmax : sfs.nextIno ≤ 1024 * 512 := le_trans hl.next_le hl.ninos_le
  omega

/-- In the blocks of a closed image the kernel finds the history of a file. -/
theorem blockAt_closed (hl : Layout sfs) (h : Tables sfs w tbl) {f : Nat} (hf : f < sfs.inodeCount)
    {i b : Nat} (hi : i < maxBlocks) (hb : (w f)[i]? = some b) :
    blockAt (closed sfs).image (loadDiskInode ((closed sfs).image (sfs.inode f).ino)) i = b ∧
      (SFS_NDIRECT ≤ i → ∃ cb, tbl f (.data 0) = some cb ∧
        (loadDiskInode ((closed sfs).image (sfs.inode f).ino)).indirect = (sfs.block cb).ino) := by
  have hmapped := h.mapped f hf
  have hlt : i < (w f).length := (List.getElem?_eq_some_iff.mp hb).1
  have hgetD : (w f).getD i 0 = b := by
    rw [List.getD_eq_getElem?_getD, hb]
    rfl
  have hnum := number_lt hl h (List.mem_of_getElem? hb)
  obtain ⟨_, hdirect, hindirect⟩ := loadDiskInode_flushed (sfs.inode f).inode
  rw [closed, image_inode hl hf]
  rcases lt_or_ge i SFS_NDIRECT with hnear | hfar
  · refine ⟨?_, fun hge => absurd hnear (not_lt.mpr hge)⟩
    rw [blockAt_near hnear, hdirect i hnear, hmapped.direct i hnear, hgetD]
    exact Nat.mod_eq_of_lt hnum.2.2
  · obtain ⟨cb, hcb⟩ : ∃ cb, tbl f (.data 0) = some cb := by
      rw [← Option.ne_none_iff_exists']
      intro hnone
      have hshort := ((h.opened f hf).data_none 0).mp hnone
      have hstart : tableStart 0 = SFS_NDIRECT := rfl
      omega
    obtain ⟨hcbfirst, hcblast⟩ := hl.block_ino cb (h.placed.table_lt f _ cb hcb).2
    have hroot := firstIno_gt sfs.ninos
    have hmax : sfs.nextIno ≤ 1024 * 512 := le_trans hl.next_le hl.ninos_le
    have hentp : (loadDiskInode (padded (inodeBytes (sfs.inode f).inode) inodeSize)).indirect =
        (sfs.block cb).ino := by
      rw [hindirect, hmapped.indirect, hcb, inoOf]
      exact Nat.mod_eq_of_lt (by omega)
    refine ⟨?_, fun _ => ⟨cb, hcb, hentp⟩⟩
    have hword : i - SFS_NDIRECT < SFS_BLK_NENTRY := by
      unfold maxBlocks at hi
      omega
    have hne : (sfs.block cb).ino ≠ 0 := by omega
    rw [blockAt_far hfar, hentp, if_neg hne]
    have himage := image_block hl (h.placed.table_lt f _ cb hcb).2
    rw [himage, getWord_padded hword, hmapped.data 0 cb hcb _ hword]
    have hindex : tableStart 0 + (i - SFS_NDIRECT) = i := by
      have hstart : tableStart 0 = SFS_NDIRECT := rfl
      omega
    rw [hindex, hgetD]

end Flushed

section Mounted

variable {sfs : ImageFs} {w : History} {tbl : TableMap}

/-- What the kernel knows after mounting the image of the builder. -/
structure Mounted (sfs : ImageFs) (dev : Device) (m : SfsFs) : Prop where
  freemap : FreemapOk m
  dev : m.dev = dev
  used : ∀ b, b < sfs.nextIno → InUse m b

theorem mounted_closed (hl : Layout sfs) {dev : Device} (hdev : dev.block = (closed sfs).image)
    (hfaults : ∀ n, dev.faults n = none) (hblocks : sfs.ninos ≤ dev.dBlocks)
    {kmalloc : Nat → Bool} (hmalloc : ∀ n, kmalloc n = true) :
    ∃ m, sfsDoMount kmalloc dev = .ok (.ok m, dev) ∧ Mounted sfs dev m := by
  obtain ⟨m, hmount, hsuper, hunused, hmdev, hnbits, hwords, hbit⟩ :=
    sfsDoMount_closed hl hdev hfaults hblocks hmalloc
  have hcover : sfs.ninos ≤ freemapBlocks sfs.ninos * SFS_BLKBITS := by
    unfold freemapBlocks SFS_BLKBITS SFS_BLKSIZE
    omega
  have hnext := hl.next_le
  have hclear : ∀ b, b < sfs.nextIno → m.freemap.bit b = false := by
    intro b hb
    rw [← Bool.not_eq_true, hbit b (by omega)]
    omega
  refine ⟨m, hmount, ⟨?_, hmdev, ?_⟩⟩
  · refine ⟨⟨?_, ?_⟩, ?_, ?_, ?_, ?_, ?_⟩
    · rw [hmdev]
      exact hfaults
    · rw [hmdev, hsuper]
      exact hblocks
    · rw [hnbits, hwords]
    · rw [hsuper, hnbits]
      exact hcover
    · intro b hb hset
      rw [hnbits] at hb
      rw [hsuper]
      exact ((hbit b hb).mp hset).2
    · apply hclear
      have hroot := firstIno_gt sfs.ninos
      have hfirst := hl.first_le
      unfold SFS_BLKN_SUPER
      omega
    · rw [hunused, freeCount, hnbits, ← count_interval hcover]
      apply count_congr
      intro k hk
      exact (hbit k hk).symm
  · intro b hb
    refine ⟨?_, hclear b hb⟩
    rw [hsuper]
    exact lt_of_lt_of_le hb hnext

/-- Below the limit of the kernel's block map every number is found. -/
theorem sfsBmapGetNolock_closed (hl : Layout sfs) (h : Tables sfs w tbl) {f : Nat}
    (hf : f < sfs.inodeCount) {dev : Device} (hdev : dev.block = (closed sfs).image) {m : SfsFs}
    (hm : Mounted sfs dev m) {i b : Nat} (hi : i < maxBlocks) (hb : (w f)[i]? = some b) :
    sfsBmapGetNolock (sfs.inode f).ino i false (withInode m (sfs.inode f).ino) =
      .ok (.ok b, withInode m (sfs.inode f).ino) := by
  obtain ⟨hblock, htable⟩ := blockAt_closed hl h hf hi hb
  have hnum := number_lt hl h (List.mem_of_getElem? hb)
  have hdin : ((withInode m (sfs.inode f).ino).inode (sfs.inode f).ino).din =
      loadDiskInode ((closed sfs).image (sfs.inode f).ino) := by
    rw [withInode, setInode_inode_self, hm.dev, hdev]
  have hdisk : (withInode m (sfs.inode f).ino).dev.block = (closed sfs).image := by
    change m.dev.block = _
    rw [hm.dev, hdev]
  have hval : blockAt (withInode m (sfs.inode f).ino).dev.block
      ((withInode m (sfs.inode f).ino).inode (sfs.inode f).ino).din i = b := by
    rw [hdin, hdisk, hblock]
  have hok : FreemapOk (withInode m (sfs.inode f).ino) := by
    have hfreemap := hm.freemap
    exact ⟨⟨hfreemap.steady.faults, hfreemap.steady.blocks_le⟩, hfreemap.nbits,
      hfreemap.blocks_le, hfreemap.free_lt, hfreemap.super_used, hfreemap.unused⟩
  have hstored := @sfsBmapGetNolock_stored _ (sfs.inode f).ino i hok false hi
    (by
      intro hfar
      obtain ⟨cb, hcb, hentp⟩ := htable hfar
      rw [hdin, hentp]
      exact hm.used _ (hl.block_ino cb (h.placed.table_lt f _ cb hcb).2).2)
    (by rw [hval]; exact hnum.1)
    (by rw [hval]; exact hm.used b hnum.2.1)
  rwa [hval] at hstored

theorem blocks_withInode (hl : Layout sfs) (h : Tables sfs w tbl) {f : Nat}
    (hf : f < sfs.inodeCount) {dev : Device} (hdev : dev.block = (closed sfs).image) {m : SfsFs}
    (hm : Mounted sfs dev m) :
    ((withInode m (sfs.inode f).ino).inode (sfs.inode f).ino).din.blocks = (w f).length := by
  have hmax : SFS_LN_NBLKS < 2 ^ 32 := by decide
  rw [withInode, setInode_inode_self, hm.dev, hdev, closed, image_inode hl hf,
    (loadDiskInode_flushed _).1, h.blocks f hf]
  exact Nat.mod_eq_of_lt (lt_of_le_of_lt (h.length_le f) hmax)

theorem mapsAgree_iff (hl : Layout sfs) (h : Tables sfs w tbl) {f : Nat}
    (hf : f < sfs.inodeCount) {dev : Device} (hdev : dev.block = (closed sfs).image) {m : SfsFs}
    (hm : Mounted sfs dev m) :
    MapsAgree (withInode m (sfs.inode f).ino) (sfs.inode f).ino (w f) ↔
      (w f).length ≤ maxBlocks := by
  have hblocks := blocks_withInode hl h hf hdev hm
  constructor
  · intro hagree
    rcases le_or_gt (w f).length maxBlocks with hle | hgt
    · exact hle
    · obtain ⟨b, _, hget⟩ := hagree maxBlocks (lt_of_lt_of_eq hgt hblocks.symm)
      rw [sfsBmapGetNolock_panic le_rfl] at hget
      cases hget
  · intro hle i hi
    rw [hblocks] at hi
    exact ⟨(w f)[i], List.getElem?_eq_getElem hi,
      sfsBmapGetNolock_closed hl h hf hdev hm (lt_of_lt_of_le hi hle)
        (List.getElem?_eq_getElem hi)⟩

end Mounted

section BigFile

/-- An empty image of 8192 blocks on which one regular file gets `n` blocks. -/
def bigFile : Nat → Kernel ImageFs
  | 0 => do
      let sfs ← createSfs (8192 * SFS_BLKSIZE) (fun _ => zeros) zeros
      perform sfs (.addInode 7 SFS_TYPE_FILE)
  | n + 1 => do
      let sfs ← bigFile n
      perform sfs (.storeBlock 1 zeros SFS_BLKSIZE)

theorem bigFile_zero :
    ∃ sfs, bigFile 0 = .ok sfs ∧ sfs.nextIno = 4 ∧ sfs.ninos = 8192 ∧ sfs.inodeCount = 2 ∧
      Built (8192 * SFS_BLKSIZE) (fun _ => zeros) sfs fun _ => [] := by
  have hcreate : createSfs (8192 * SFS_BLKSIZE) (fun _ => zeros) zeros =
      .ok (rootFs 8192 (fun _ => zeros) zeros) :=
    createSfs_eq_ok_iff.mpr ⟨by decide, rfl⟩
  have halloc : perform (rootFs 8192 (fun _ => zeros) zeros) (.addInode 7 SFS_TYPE_FILE) =
      .ok (pushInode (rootFs 8192 (fun _ => zeros) zeros) 7 SFS_TYPE_FILE) := rfl
  refine ⟨pushInode (rootFs 8192 (fun _ => zeros) zeros) 7 SFS_TYPE_FILE, ?_, rfl, rfl, rfl, ?_⟩
  · rw [bigFile, hcreate, ok_bind, halloc]
  · have hvalid : Valid (rootFs 8192 (fun _ => zeros) zeros) (.addInode 7 SFS_TYPE_FILE) := trivial
    exact Built.step (Built.create hcreate) hvalid halloc

theorem bigFile_returns {n : Nat} (hn : n ≤ 2000) :
    ∃ sfs w, bigFile n = .ok sfs ∧ sfs.nextIno ≤ 4 + 3 * n ∧ sfs.ninos = 8192 ∧
      sfs.inodeCount = 2 ∧ (w 1).length = n ∧
        Built (8192 * SFS_BLKSIZE) (fun _ => zeros) sfs w := by
  induction n with
  | zero =>
      obtain ⟨sfs, heq, hnext, hninos, hcount, hbuilt⟩ := bigFile_zero
      exact ⟨sfs, _, heq, le_of_eq hnext, hninos, hcount, rfl, hbuilt⟩
  | succ n ih =>
      obtain ⟨sfs, w, heq, hnext, hninos, hcount, hlen, hbuilt⟩ := ih (Nat.le_of_succ_le hn)
      obtain ⟨tbl, htables⟩ := tables_built hbuilt
      have hfile : 1 < sfs.inodeCount := by
        rw [hcount]
        decide
      have hsmall : (w 1).length < SFS_LN_NBLKS := by
        have hmax : 2000 < SFS_LN_NBLKS := by decide
        omega
      obtain ⟨s, hstore, hnext'⟩ := storeBlock_returns (layout_built hbuilt) htables hfile hsmall
        (by omega) zeros le_rfl
      obtain ⟨hninos', hcount'⟩ := storeBlock_ninos hstore
      refine ⟨s, w.push 1 sfs.nextIno, ?_, ?_, ?_, ?_, ?_, ?_⟩
      · rw [bigFile, heq, ok_bind]
        exact hstore
      · omega
      · rw [hninos', hninos]
      · rw [hcount', hcount]
      · rw [length_push, hlen]
      · have hvalid : Valid sfs (.storeBlock 1 zeros SFS_BLKSIZE) := hfile
        exact Built.step hbuilt hvalid hstore

end BigFile

/-- The kernel finds every block of a file that the builder has stored, and does
not panic, if and only if its inode and one indirect block hold them all. -/
theorem maps_agree {stSize : Nat} {image : Nat → Bytes} {sfs : ImageFs} {w : History}
    (h : Built stSize image sfs w) {f : Nat} (hf : f < sfs.inodeCount) :
    ∃ img, closeSfs sfs = .ok img ∧
      ∀ (dev : Device) (kmalloc : Nat → Bool), dev.block = img.image →
        (∀ n, dev.faults n = none) → sfs.ninos ≤ dev.dBlocks → (∀ n, kmalloc n = true) →
          ∃ m, sfsDoMount kmalloc dev = .ok (.ok m, dev) ∧
            ((withInode m (sfs.inode f).ino).inode (sfs.inode f).ino).din.blocks = (w f).length ∧
            (MapsAgree (withInode m (sfs.inode f).ino) (sfs.inode f).ino (w f) ↔
              (w f).length ≤ maxBlocks) := by
  have hl := layout_built h
  obtain ⟨tbl, htables⟩ := tables_built h
  refine ⟨closed sfs, closeSfs_eq hl, ?_⟩
  intro dev kmalloc hdev hfaults hblocks hmalloc
  obtain ⟨m, hmount, hm⟩ := mounted_closed hl hdev hfaults hblocks hmalloc
  exact ⟨m, hmount, blocks_withInode hl htables hf hdev hm, mapsAgree_iff hl htables hf hdev hm⟩

/-- The disk that holds an image of the builder. -/
def imageDevice (img : ImageFs) : Device where
  dBlocks := 8192
  dBlocks_le := by decide
  block := img.image
  faults := fun _ => none

/-- A file of 1036 blocks uses the whole indirect block. -/
theorem maps_agree_1036_blocks :
    ∃ (sfs : ImageFs) (w : History) (img : ImageFs) (m : SfsFs), bigFile 1036 = .ok sfs ∧
      Built (8192 * SFS_BLKSIZE) (fun _ => zeros) sfs w ∧ (w 1).length = 1036 ∧
      closeSfs sfs = .ok img ∧
      sfsDoMount (fun _ => true) (imageDevice img) = .ok (.ok m, imageDevice img) ∧
        MapsAgree (withInode m (sfs.inode 1).ino) (sfs.inode 1).ino (w 1) := by
  obtain ⟨sfs, w, heq, _, hninos, hcount, hlen, hbuilt⟩ := bigFile_returns (by decide : 1036 ≤ 2000)
  obtain ⟨img, hclose, hmounts⟩ := maps_agree hbuilt (f := 1) (by rw [hcount]; decide)
  obtain ⟨m, hmount, _, hagree⟩ := hmounts (imageDevice img) (fun _ => true) rfl (fun _ => rfl)
    (le_of_eq hninos) (fun _ => rfl)
  refine ⟨sfs, w, img, m, heq, hbuilt, hlen, hclose, hmount, hagree.mpr ?_⟩
  rw [hlen]
  decide

/-- One block more, and the kernel panics on the last one. -/
theorem maps_disagree_1037_blocks :
    ∃ (sfs : ImageFs) (w : History) (img : ImageFs) (m : SfsFs), bigFile 1037 = .ok sfs ∧
      Built (8192 * SFS_BLKSIZE) (fun _ => zeros) sfs w ∧ (w 1).length = 1037 ∧
      closeSfs sfs = .ok img ∧
      sfsDoMount (fun _ => true) (imageDevice img) = .ok (.ok m, imageDevice img) ∧
        ¬MapsAgree (withInode m (sfs.inode 1).ino) (sfs.inode 1).ino (w 1) ∧
          sfsBmapGetNolock (sfs.inode 1).ino 1036 false (withInode m (sfs.inode 1).ino) =
            .error .panic := by
  obtain ⟨sfs, w, heq, _, hninos, hcount, hlen, hbuilt⟩ := bigFile_returns (by decide : 1037 ≤ 2000)
  have hl := layout_built hbuilt
  obtain ⟨tbl, htables⟩ := tables_built hbuilt
  obtain ⟨m, hmount, hm⟩ := @mounted_closed sfs hl (imageDevice (closed sfs)) rfl (fun _ => rfl)
    (le_of_eq hninos) (fun _ => true) (fun _ => rfl)
  refine ⟨sfs, w, closed sfs, m, heq, hbuilt, hlen, closeSfs_eq hl, hmount, ?_, ?_⟩
  · have hfile : 1 < sfs.inodeCount := by
      rw [hcount]
      decide
    rw [mapsAgree_iff hl htables hfile rfl hm, hlen]
    decide
  · exact sfsBmapGetNolock_panic (by decide) false

end Ucore.MksfsBlockMap
