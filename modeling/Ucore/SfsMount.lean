import Mathlib.Data.Nat.Count
import Ucore.SfsDisk

namespace Ucore.SfsMount

open Ucore.Panic
open Ucore.KernelRoutine
open Ucore.ByteBuffer
open Ucore.BlockBitmap
open Ucore.SfsDisk

def loadSuper (b : Bytes) : SfsSuper where
  magic := getLE b 0 4
  blocks := getLE b 4 4
  unusedBlocks := getLE b 8 4
  info := fun k => b (12 + k)

def sfsFreemapBlocks (super : SfsSuper) : Nat :=
  (super.blocks + SFS_BLKBITS - 1) / SFS_BLKBITS

def sfsFreemapBits (super : SfsSuper) : Nat :=
  (super.blocks + SFS_BLKBITS - 1) / SFS_BLKBITS * SFS_BLKBITS

def sfsInitRead (blkno : Nat) : Routine Device Bytes :=
  dopIo zeros 0 (blkno * SFS_BLKSIZE % 2 ^ 32) false

/-- The words of the bitmap from `word` on, overwritten by a block. -/
def loadWords (b : Bytes) (word : Nat) (map : Nat → BitVec 32) : Nat → BitVec 32 := fun ix =>
  if word ≤ ix ∧ ix < word + SFS_BLK_NENTRY then BitVec.ofNat 32 (getWord b (ix - word))
  else map ix

/-- The loop of `sfs_init_freemap`; `word` is where `data` points to. -/
def readFreemap (freemap : Bitmap) (blkno word : Nat) : Nat → Routine Device Bitmap
  | 0 => pure freemap
  | nblks + 1 => do
      let b ← sfsInitRead blkno
      readFreemap { freemap with map := loadWords b word freemap.map } (blkno + 1)
        (word + SFS_BLK_NENTRY) nblks

def sfsInitFreemap (freemap : Bitmap) (blkno nblks : Nat) : Routine Device Bitmap := do
  ensure (4 * freemap.nwords = nblks * SFS_BLKSIZE)
  readFreemap freemap blkno 0 nblks

/-- The loop of `sfs_do_mount` that counts the free blocks. -/
def countUnused (freemap : Bitmap) (i unused : Nat) : Nat → Kernel Nat
  | 0 => .ok unused
  | n + 1 => do
      let free ← bitmapTest freemap i
      countUnused freemap (i + 1) (if free then unused + 1 else unused) n

/-- The part of `sfs_do_mount` that loads and checks the freemap. -/
def mountFreemap (kmalloc : Nat → Bool) (super : SfsSuper) : Routine Device SfsFs := do
  let created ← lift (bitmapCreate kmalloc (sfsFreemapBits super))
  match created with
  | none => fail .eNoMem
  | some freemap =>
      let freemap ← sfsInitFreemap freemap SFS_BLKN_FREEMAP (sfsFreemapBlocks super)
      let unused ← lift (countUnused freemap 0 0 (sfsFreemapBits super))
      ensure (unused = super.unusedBlocks)
      let dev ← getState
      return {
        super := { super with info := Function.update super.info SFS_MAX_INFO_LEN 0 }
        dev := dev
        freemap := freemap
        superDirty := false
        inode := fun _ => ⟨⟨0, 0, 0, 0, fun _ => 0, 0⟩, false⟩
        inodeList := [] }

/-- `kmalloc` tells which of the allocations succeed. -/
def sfsDoMount (kmalloc : Nat → Bool) : Routine Device SfsFs := do
  if !kmalloc 0 || !kmalloc 1 then
    fail .eNoMem
  else
    let b ← sfsInitRead SFS_BLKN_SUPER
    let dev ← getState
    if (loadSuper b).magic ≠ SFS_MAGIC then
      fail .eInval
    else if dev.dBlocks < (loadSuper b).blocks then
      fail .eInval
    else if !kmalloc 2 then
      fail .eNoMem
    else
      mountFreemap (fun i => kmalloc (i + 3)) (loadSuper b)

/-- Bit `k` of the freemap on a disk. -/
def diskBit (block : Nat → Bytes) (k : Nat) : Bool :=
  (getWord (block (SFS_BLKN_FREEMAP + k / SFS_BLKBITS)) (k % SFS_BLKBITS / WORD_BITS)).testBit
    (k % WORD_BITS)

theorem sfsInitRead_eq {dev : Device} {blkno : Nat} (hfaults : ∀ n, dev.faults n = none)
    (hlt : blkno < dev.dBlocks) :
    sfsInitRead blkno dev =
      .ok (.ok (copyBytes zeros 0 (dev.block blkno) 0 SFS_BLKSIZE), dev) := by
  have hwrap : blkno * SFS_BLKSIZE % 2 ^ 32 = blkno * SFS_BLKSIZE := by
    have := dev.dBlocks_le
    apply Nat.mod_eq_of_lt
    unfold SFS_BLKSIZE
    omega
  have hmod : ¬blkno * SFS_BLKSIZE % SFS_BLKSIZE ≠ 0 := by
    simp
  have hdiv : blkno * SFS_BLKSIZE / SFS_BLKSIZE = blkno :=
    Nat.mul_div_cancel blkno (by decide)
  have hfault : (fun n => dev.faults (n + 1)) = dev.faults := by
    funext n
    rw [hfaults, hfaults]
  have hin : ¬dev.dBlocks < blkno + 1 := by omega
  simp only [sfsInitRead, dopIo, hwrap, if_neg hmod, hdiv, if_neg hin, hfaults 0, hfault]
  rfl

theorem getWord_copyBlock {b : Bytes} {i : Nat} (hi : i < SFS_BLK_NENTRY) :
    getWord (copyBytes zeros 0 b 0 SFS_BLKSIZE) i = getWord b i := by
  unfold SFS_BLK_NENTRY SFS_BLKSIZE at hi
  apply getWord_congr (n := SFS_BLKSIZE)
  · unfold SFS_BLKSIZE
    omega
  · intro k hk
    rw [copyBytes_of_mem (by omega) (by omega)]
    congr 1
    omega

theorem readFreemap_eq {dev : Device} (hfaults : ∀ n, dev.faults n = none) {nblks : Nat} :
    ∀ {freemap : Bitmap} {blkno word : Nat}, blkno + nblks ≤ dev.dBlocks →
      ∃ map, readFreemap freemap blkno word nblks dev =
          .ok (.ok { freemap with map := map }, dev) ∧
        (∀ ix, word ≤ ix → ix < word + nblks * SFS_BLK_NENTRY →
          map ix = BitVec.ofNat 32 (getWord (dev.block (blkno + (ix - word) / SFS_BLK_NENTRY))
            ((ix - word) % SFS_BLK_NENTRY))) ∧
        ∀ ix, ix < word → map ix = freemap.map ix := by
  induction nblks with
  | zero =>
      intro freemap blkno word _
      refine ⟨freemap.map, rfl, ?_, fun _ _ => rfl⟩
      intro ix hix₁ hix₂
      omega
  | succ nblks ih =>
      intro freemap blkno word hle
      rw [readFreemap, bind_of_ok (sfsInitRead_eq hfaults (by omega))]
      obtain ⟨map, heq, hin, hlow⟩ :=
        @ih { freemap with
          map := loadWords (copyBytes zeros 0 (dev.block blkno) 0 SFS_BLKSIZE) word freemap.map }
          (blkno + 1) (word + SFS_BLK_NENTRY) (by omega)
      refine ⟨map, heq, ?_, ?_⟩
      · intro ix hix₁ hix₂
        rcases lt_or_ge ix (word + SFS_BLK_NENTRY) with hlt | hge
        · have hoff : ix - word < SFS_BLK_NENTRY := by omega
          rw [hlow ix hlt]
          simp only [loadWords]
          rw [if_pos ⟨hix₁, hlt⟩, getWord_copyBlock hoff, Nat.div_eq_of_lt hoff,
            Nat.mod_eq_of_lt hoff, Nat.add_zero]
        · have hstep : ix - word = ix - (word + SFS_BLK_NENTRY) + SFS_BLK_NENTRY := by omega
          have hpos : 0 < SFS_BLK_NENTRY := by decide
          have hbound : ix < word + SFS_BLK_NENTRY + nblks * SFS_BLK_NENTRY := by
            rw [Nat.add_mul] at hix₂
            omega
          rw [hin ix hge hbound, hstep, Nat.add_div_right _ hpos, Nat.add_mod_right]
          rw [Nat.add_right_comm, Nat.add_assoc blkno]
      · intro ix hix
        rw [hlow ix (by omega)]
        simp only [loadWords]
        apply if_neg
        omega

theorem countUnused_eq {freemap : Bitmap} {n : Nat} :
    ∀ {i unused : Nat}, i + n ≤ freemap.nbits →
      countUnused freemap i unused n =
        .ok (unused + Nat.count (fun k => freemap.bit (i + k) = true) n) := by
  induction n with
  | zero =>
      intro i unused _
      rw [countUnused, Nat.count_zero, Nat.add_zero]
  | succ n ih =>
      intro i unused hle
      rw [countUnused, bitmapTest_of_lt (by omega), ok_bind, ih (by omega)]
      rw [Nat.count_succ']
      have hshift : (fun k => freemap.bit (i + 1 + k) = true) =
          fun k => freemap.bit (i + (k + 1)) = true := by
        funext k
        rw [Nat.add_right_comm, Nat.add_assoc]
      simp only [hshift, Nat.add_zero]
      split
      · congr 1
        omega
      · rfl

theorem bitmapCreate_eq {kmalloc : Nat → Bool} {n : Nat} (hn : 0 < n) :
    bitmapCreate kmalloc (n * WORD_BITS) =
      .ok (if kmalloc 0 && kmalloc 1 then
        some ⟨n * WORD_BITS, n, fun _ => BitVec.allOnes 32⟩ else none) := by
  have hwords : (n * WORD_BITS + WORD_BITS - 1) / WORD_BITS = n := by
    unfold WORD_BITS
    omega
  have hassert : n * WORD_BITS ≠ 0 ∧ n * WORD_BITS < n * WORD_BITS + WORD_BITS := by
    unfold WORD_BITS
    omega
  simp only [bitmapCreate, hwords, kassert_of hassert, ok_bind, ne_eq, not_true_eq_false,
    if_false]
  cases kmalloc 0 with
  | false => rfl
  | true =>
      cases kmalloc 1 with
      | false => rfl
      | true => rfl

/-- The bitmap that `sfs_init_freemap` fills. -/
theorem sfsInitFreemap_eq {dev : Device} (hfaults : ∀ n, dev.faults n = none) {super : SfsSuper}
    (hmap : SFS_BLKN_FREEMAP + sfsFreemapBlocks super ≤ dev.dBlocks) (map₀ : Nat → BitVec 32) :
    ∃ freemap, sfsInitFreemap
        ⟨sfsFreemapBits super, sfsFreemapBlocks super * SFS_BLK_NENTRY, map₀⟩
        SFS_BLKN_FREEMAP (sfsFreemapBlocks super) dev = .ok (.ok freemap, dev) ∧
      freemap.nbits = sfsFreemapBits super ∧
      freemap.nwords = sfsFreemapBlocks super * SFS_BLK_NENTRY ∧
      ∀ k, k < sfsFreemapBits super → freemap.bit k = diskBit dev.block k := by
  have hlen : 4 * (sfsFreemapBlocks super * SFS_BLK_NENTRY) =
      sfsFreemapBlocks super * SFS_BLKSIZE := by
    unfold SFS_BLK_NENTRY SFS_BLKSIZE
    omega
  obtain ⟨map, hread, hin, _⟩ := @readFreemap_eq dev hfaults (sfsFreemapBlocks super)
    ⟨sfsFreemapBits super, sfsFreemapBlocks super * SFS_BLK_NENTRY, map₀⟩
    SFS_BLKN_FREEMAP 0 hmap
  refine ⟨⟨sfsFreemapBits super, sfsFreemapBlocks super * SFS_BLK_NENTRY, map⟩,
    ?_, rfl, rfl, ?_⟩
  · rw [sfsInitFreemap, ensure_bind_of hlen, hread]
  · intro k hk
    have hix : k / WORD_BITS < 0 + sfsFreemapBlocks super * SFS_BLK_NENTRY := by
      unfold sfsFreemapBits SFS_BLKBITS SFS_BLKSIZE at hk
      unfold sfsFreemapBlocks WORD_BITS SFS_BLKBITS SFS_BLK_NENTRY SFS_BLKSIZE
      omega
    have hdiv : k / WORD_BITS / SFS_BLK_NENTRY = k / SFS_BLKBITS := by
      rw [Nat.div_div_eq_div_mul]
      rfl
    have hmod : k / WORD_BITS % SFS_BLK_NENTRY = k % SFS_BLKBITS / WORD_BITS := by
      unfold WORD_BITS SFS_BLK_NENTRY SFS_BLKBITS SFS_BLKSIZE
      omega
    have hoff : k % WORD_BITS < 32 := Nat.mod_lt _ (by decide)
    rw [Bitmap.bit]
    simp only
    rw [hin _ (Nat.zero_le _) hix, Nat.sub_zero, hdiv, hmod, diskBit, BitVec.getLsbD_ofNat]
    simp [hoff]

/-- `struct sfs_fs` as `sfs_do_mount` fills it. -/
def mounted (super : SfsSuper) (dev : Device) (freemap : Bitmap) : SfsFs where
  super := { super with info := Function.update super.info SFS_MAX_INFO_LEN 0 }
  dev := dev
  freemap := freemap
  superDirty := false
  inode := fun _ => ⟨⟨0, 0, 0, 0, fun _ => 0, 0⟩, false⟩
  inodeList := []

/-- A disk whose superblock counts the bits of its freemap can be mounted. -/
theorem sfsDoMount_mounted {dev : Device} (hfaults : ∀ n, dev.faults n = none)
    {kmalloc : Nat → Bool} (hmalloc : ∀ n, kmalloc n = true) {super : SfsSuper}
    (hsuper : loadSuper (copyBytes zeros 0 (dev.block SFS_BLKN_SUPER) 0 SFS_BLKSIZE) = super)
    (hmagic : super.magic = SFS_MAGIC) (hpos : 0 < super.blocks)
    (hblocks : super.blocks ≤ dev.dBlocks)
    (hmap : SFS_BLKN_FREEMAP + sfsFreemapBlocks super ≤ dev.dBlocks)
    (hcount : super.unusedBlocks =
      Nat.count (fun k => diskBit dev.block k = true) (sfsFreemapBits super)) :
    ∃ freemap, sfsDoMount kmalloc dev = .ok (.ok (mounted super dev freemap), dev) ∧
      freemap.nbits = sfsFreemapBits super ∧
      freemap.nwords = sfsFreemapBlocks super * SFS_BLK_NENTRY ∧
      ∀ k, k < sfsFreemapBits super → freemap.bit k = diskBit dev.block k := by
  have hn : 0 < sfsFreemapBlocks super * SFS_BLK_NENTRY := by
    unfold sfsFreemapBlocks SFS_BLKBITS SFS_BLK_NENTRY SFS_BLKSIZE
    omega
  have hbits : sfsFreemapBits super = sfsFreemapBlocks super * SFS_BLK_NENTRY * WORD_BITS := by
    unfold sfsFreemapBits sfsFreemapBlocks SFS_BLKBITS SFS_BLK_NENTRY SFS_BLKSIZE WORD_BITS
    omega
  have hcreate : bitmapCreate (fun i => kmalloc (i + 3)) (sfsFreemapBits super) =
      .ok (some ⟨sfsFreemapBits super, sfsFreemapBlocks super * SFS_BLK_NENTRY,
        fun _ => BitVec.allOnes 32⟩) := by
    rw [hbits, bitmapCreate_eq hn]
    simp [hmalloc]
  obtain ⟨freemap, hinit, hnbits, hnwords, hbit⟩ :=
    sfsInitFreemap_eq hfaults hmap fun _ => BitVec.allOnes 32
  have hunused : countUnused freemap 0 0 (sfsFreemapBits super) = .ok super.unusedBlocks := by
    rw [countUnused_eq (by rw [hnbits, Nat.zero_add]), Nat.zero_add, hcount]
    congr 1
    rw [Nat.count_eq_card_filter_range, Nat.count_eq_card_filter_range]
    congr 1
    apply Finset.filter_congr
    intro k hk
    rw [Nat.zero_add, hbit k (Finset.mem_range.mp hk)]
  have hsmall : ¬dev.dBlocks < super.blocks := by omega
  refine ⟨freemap, ?_, hnbits, hnwords, hbit⟩
  have hmalloc₀ : ¬(!kmalloc 0 || !kmalloc 1) = true := by
    rw [hmalloc, hmalloc]
    decide
  have hmalloc₂ : ¬(!kmalloc 2) = true := by
    rw [hmalloc]
    decide
  rw [sfsDoMount, if_neg hmalloc₀]
  rw [bind_of_ok (sfsInitRead_eq hfaults (by unfold SFS_BLKN_SUPER; omega)), hsuper,
    getState_bind]
  rw [if_neg (not_not_intro hmagic), if_neg hsmall, if_neg hmalloc₂]
  rw [mountFreemap, lift_bind_of_ok hcreate]
  simp only
  rw [bind_of_ok hinit, lift_bind_of_ok hunused, ensure_bind_of rfl, getState_bind, pure_apply]
  rfl

theorem sfsDoMount_eq {dev : Device} (hfaults : ∀ n, dev.faults n = none)
    {kmalloc : Nat → Bool} (hmalloc : ∀ n, kmalloc n = true) {super : SfsSuper}
    (hsuper : loadSuper (copyBytes zeros 0 (dev.block SFS_BLKN_SUPER) 0 SFS_BLKSIZE) = super)
    (hmagic : super.magic = SFS_MAGIC) (hpos : 0 < super.blocks)
    (hblocks : super.blocks ≤ dev.dBlocks)
    (hmap : SFS_BLKN_FREEMAP + sfsFreemapBlocks super ≤ dev.dBlocks)
    (hcount : super.unusedBlocks =
      Nat.count (fun k => diskBit dev.block k = true) (sfsFreemapBits super)) :
    ∃ sfs, sfsDoMount kmalloc dev = .ok (.ok sfs, dev) ∧
      sfs.super.blocks = super.blocks ∧ sfs.super.unusedBlocks = super.unusedBlocks ∧
      sfs.dev = dev ∧ sfs.freemap.nbits = sfsFreemapBits super ∧
      sfs.freemap.nwords = sfsFreemapBlocks super * SFS_BLK_NENTRY ∧
      ∀ k, k < sfsFreemapBits super → sfs.freemap.bit k = diskBit dev.block k := by
  obtain ⟨freemap, hrun, hnbits, hnwords, hbit⟩ :=
    sfsDoMount_mounted hfaults hmalloc hsuper hmagic hpos hblocks hmap hcount
  exact ⟨mounted super dev freemap, hrun, rfl, rfl, rfl, hnbits, hnwords, hbit⟩

end Ucore.SfsMount
