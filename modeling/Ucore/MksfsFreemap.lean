import Mathlib.Order.Interval.Finset.Nat
import Ucore.MksfsImage
import Ucore.SfsMount

namespace Ucore.MksfsFreemap

open Ucore.Panic
open Ucore.KernelRoutine
open Ucore.ByteBuffer
open Ucore.BlockBitmap
open Ucore.SfsDisk
open Ucore.SfsMount
open Ucore.Mksfs
open Ucore.MksfsLayout
open Ucore.MksfsImage

/-- Bit `k` of a buffer of words. -/
def wordBit (b : Bytes) (k : Nat) : Bool :=
  (getWord b (k / 32)).testBit (k % 32)

section Bits

theorem or_bit_lt {w j : Nat} (hw : w < 2 ^ 32) : w ||| 1 <<< (j % 32) < 2 ^ 32 := by
  apply Nat.or_lt_two_pow hw
  rw [Nat.one_shiftLeft]
  exact Nat.pow_lt_pow_right (by decide) (Nat.mod_lt j (by decide))

theorem wordBit_putWord_or (b : Bytes) (j k : Nat) :
    wordBit (putWord b (j / 32) (getWord b (j / 32) ||| 1 <<< (j % 32))) k =
      (wordBit b k || decide (k = j)) := by
  have hlt := @or_bit_lt _ j (getWord_lt b (j / 32))
  rw [wordBit, getWord_putWord b _ _ hlt]
  split
  · next hword =>
    rw [Nat.testBit_or, Nat.one_shiftLeft, Nat.testBit_two_pow, wordBit, hword]
    congr 1
    rw [decide_eq_decide]
    omega
  · next hword =>
    have hne : ¬k = j := by
      rintro rfl
      exact hword rfl
    rw [wordBit, decide_eq_false hne, Bool.or_false]

theorem wordBit_setBits {n : Nat} :
    ∀ {b : Bytes} {j : Nat} (k : Nat), wordBit (setBits b j n) k = true ↔
      wordBit b k = true ∨ j ≤ k ∧ k < j + n := by
  induction n with
  | zero =>
      intro b j k
      rw [setBits]
      constructor
      · exact Or.inl
      · rintro (h | h)
        · exact h
        · omega
  | succ n ih =>
      intro b j k
      rw [setBits, ih, wordBit_putWord_or, Bool.or_eq_true, decide_eq_true_eq]
      constructor
      · rintro ((h | rfl) | h)
        · exact Or.inl h
        · right
          omega
        · right
          omega
      · rintro (h | h)
        · exact Or.inl (Or.inl h)
        · rcases Nat.eq_or_lt_of_le h.1 with heq | hlt
          · exact Or.inl (Or.inr heq.symm)
          · right
            omega

theorem wordBit_zeros (k : Nat) : wordBit zeros k = false := by
  rw [wordBit, getWord_zeros, Nat.zero_testBit]

/-- The window that `close_sfs` computes for one freemap block. -/
theorem wordBit_freemapBlock {ninos nextIno i k : Nat} (hnext : nextIno ≤ ninos)
    (hk : k < SFS_BLKBITS) :
    wordBit (freemapBlock ninos nextIno i) k = true ↔
      nextIno ≤ i + k ∧ i + k < ninos := by
  unfold freemapBlock
  split
  · next hsome =>
    rw [wordBit_setBits, wordBit_zeros]
    simp only [Bool.false_eq_true, false_or]
    constructor
    · rintro ⟨hstart, hstop⟩
      constructor
      · split at hstart
        · omega
        · omega
      · split at hstop
        · split at hstop
          · omega
          · omega
        · split at hstop
          · omega
          · omega
    · rintro ⟨hlow, hhigh⟩
      constructor
      · split
        · omega
        · omega
      · split
        · split
          · omega
          · omega
        · split
          · omega
          · omega
  · next hnone =>
    rw [wordBit_zeros]
    constructor
    · intro h
      exact absurd h (by decide)
    · rintro ⟨hlow, _⟩
      omega

theorem getWord_padded {b : Bytes} {i : Nat} (hi : i < SFS_BLK_NENTRY) :
    getWord (padded b SFS_BLKSIZE) i = getWord b i :=
  getWord_copyBlock hi

end Bits

section Image

variable {sfs : ImageFs}

/-- The image that `close_sfs` leaves. -/
def closed (sfs : ImageFs) : ImageFs :=
  putLog sfs (closeLog sfs)

/-- The freemap on the image has exactly the unused blocks set. -/
theorem diskBit_closed (h : Layout sfs) {k : Nat}
    (hk : k < freemapBlocks sfs.ninos * SFS_BLKBITS) :
    diskBit (closed sfs).image k = true ↔ sfs.nextIno ≤ k ∧ k < sfs.ninos := by
  have hpos : 0 < SFS_BLKBITS := by decide
  have hblock : k / SFS_BLKBITS < freemapBlocks sfs.ninos :=
    (Nat.div_lt_iff_lt_mul hpos).mpr hk
  have hoff : k % SFS_BLKBITS < SFS_BLKBITS := Nat.mod_lt k hpos
  have hword : k % SFS_BLKBITS / WORD_BITS < SFS_BLK_NENTRY := by
    unfold SFS_BLKBITS SFS_BLKSIZE at hoff ⊢
    unfold WORD_BITS SFS_BLK_NENTRY SFS_BLKSIZE
    omega
  have hmod : k % WORD_BITS = k % SFS_BLKBITS % 32 := by
    unfold WORD_BITS SFS_BLKBITS SFS_BLKSIZE
    omega
  have hsplit : k / SFS_BLKBITS * SFS_BLKBITS + k % SFS_BLKBITS = k :=
    Nat.div_add_mod' k SFS_BLKBITS
  have hwindow := @wordBit_freemapBlock sfs.ninos sfs.nextIno (k / SFS_BLKBITS * SFS_BLKBITS)
    (k % SFS_BLKBITS) h.next_le hoff
  rw [hsplit] at hwindow
  rw [← hwindow, diskBit, closed, image_freemap h hblock, getWord_padded hword, hmod]
  rfl

theorem count_interval {lo hi n : Nat} (hn : hi ≤ n) :
    Nat.count (fun k => lo ≤ k ∧ k < hi) n = hi - lo := by
  rw [Nat.count_eq_card_filter_range]
  have hfilter : (Finset.range n).filter (fun k => lo ≤ k ∧ k < hi) = Finset.Ico lo hi := by
    ext k
    simp only [Finset.mem_filter, Finset.mem_range, Finset.mem_Ico]
    constructor
    · exact fun hk => hk.2
    · intro hk
      exact ⟨lt_of_lt_of_le hk.2 hn, hk⟩
  rw [hfilter, Nat.card_Ico]

theorem count_diskBit_closed (h : Layout sfs) :
    Nat.count (fun k => diskBit (closed sfs).image k = true)
      (freemapBlocks sfs.ninos * SFS_BLKBITS) = sfs.super.unusedBlocks := by
  have hcover : sfs.ninos ≤ freemapBlocks sfs.ninos * SFS_BLKBITS := by
    unfold freemapBlocks SFS_BLKBITS SFS_BLKSIZE
    omega
  rw [h.unused, ← count_interval hcover]
  rw [Nat.count_eq_card_filter_range, Nat.count_eq_card_filter_range]
  congr 1
  apply Finset.filter_congr
  intro k hk
  exact diskBit_closed h (Finset.mem_range.mp hk)

theorem getLE_superBytes {super : SfsSuper} (hmagic : super.magic < 2 ^ 32)
    (hblocks : super.blocks < 2 ^ 32) (hunused : super.unusedBlocks < 2 ^ 32) :
    getLE (superBytes super) 0 4 = super.magic ∧ getLE (superBytes super) 4 4 = super.blocks ∧
      getLE (superBytes super) 8 4 = super.unusedBlocks := by
  have hcopy : ∀ off, off + 4 ≤ 12 → getLE (superBytes super) off 4 =
      getLE (putLE (putLE (putLE zeros 0 4 super.magic) 4 4 super.blocks) 8 4
        super.unusedBlocks) off 4 := by
    intro off hoff
    apply getLE_congr
    intro k _ hk
    apply copyBytes_of_not_mem
    omega
  refine ⟨?_, ?_, ?_⟩
  · rw [hcopy 0 (by decide), getLE_putLE_of_disjoint (by decide),
      getLE_putLE_of_disjoint (by decide), getLE_putLE_self]
    exact Nat.mod_eq_of_lt hmagic
  · rw [hcopy 4 (by decide), getLE_putLE_of_disjoint (by decide), getLE_putLE_self]
    exact Nat.mod_eq_of_lt hblocks
  · rw [hcopy 8 (by decide), getLE_putLE_self]
    exact Nat.mod_eq_of_lt hunused

/-- The superblock that the kernel loads from the image. -/
theorem loadSuper_closed (h : Layout sfs) {b : Bytes}
    (hb : ∀ k, k < superSize → b k = (closed sfs).image SFS_BLKN_SUPER k) :
    (loadSuper b).magic = SFS_MAGIC ∧ (loadSuper b).blocks = sfs.ninos ∧
      (loadSuper b).unusedBlocks = sfs.super.unusedBlocks := by
  have hmax : SFS_MAX_NBLKS < 2 ^ 32 := by decide
  have hninos := h.ninos_le
  have hfields := @getLE_superBytes sfs.super (by rw [h.magic]; decide)
    (by rw [h.blocks]; omega) (by rw [h.unused]; omega)
  have hget : ∀ off, off + 4 ≤ superSize → getLE b off 4 =
      getLE (superBytes sfs.super) off 4 := by
    intro off hoff
    apply getLE_congr
    intro k _ hk
    rw [hb k (by omega), closed, image_super h, padded, copyBytes_of_mem (by omega) (by omega)]
    congr 1
    omega
  refine ⟨?_, ?_, ?_⟩
  · change getLE b 0 4 = _
    rw [hget 0 (by decide), hfields.1, h.magic]
  · change getLE b 4 4 = _
    rw [hget 4 (by decide), hfields.2.1, h.blocks]
  · change getLE b 8 4 = _
    rw [hget 8 (by decide), hfields.2.2]

/-- The kernel mounts the image, with the freemap that is on it. -/
theorem sfsDoMount_closed (h : Layout sfs) {dev : Device}
    (hdev : dev.block = (closed sfs).image) (hfaults : ∀ n, dev.faults n = none)
    (hblocks : sfs.ninos ≤ dev.dBlocks) {kmalloc : Nat → Bool}
    (hmalloc : ∀ n, kmalloc n = true) :
    ∃ m, sfsDoMount kmalloc dev = .ok (.ok m, dev) ∧ m.super.blocks = sfs.ninos ∧
      m.super.unusedBlocks = sfs.ninos - sfs.nextIno ∧ m.dev = dev ∧ m.freemap.nbits = freemapBlocks sfs.ninos * SFS_BLKBITS ∧
      m.freemap.nwords * WORD_BITS = freemapBlocks sfs.ninos * SFS_BLKBITS ∧
      ∀ k, k < freemapBlocks sfs.ninos * SFS_BLKBITS →
        (m.freemap.bit k = true ↔ sfs.nextIno ≤ k ∧ k < sfs.ninos) := by
  have hfirst : SFS_BLKN_FREEMAP + freemapBlocks sfs.ninos ≤ sfs.ninos :=
    le_trans h.first_le h.next_le
  obtain ⟨hmagic, hsuper, hunused⟩ := loadSuper_closed h
    (b := copyBytes zeros 0 (dev.block SFS_BLKN_SUPER) 0 SFS_BLKSIZE) (by
      intro k hk
      rw [copyBytes_of_mem (Nat.zero_le k) (lt_trans hk (by decide)), hdev]
      congr 1
      omega)
  have hfree : sfsFreemapBits (loadSuper
      (copyBytes zeros 0 (dev.block SFS_BLKN_SUPER) 0 SFS_BLKSIZE)) =
        freemapBlocks sfs.ninos * SFS_BLKBITS := by
    rw [sfsFreemapBits, hsuper]
    rfl
  have hfreeBlocks : sfsFreemapBlocks (loadSuper
      (copyBytes zeros 0 (dev.block SFS_BLKN_SUPER) 0 SFS_BLKSIZE)) =
        freemapBlocks sfs.ninos := by
    rw [sfsFreemapBlocks, hsuper]
    rfl
  obtain ⟨m, heq, hmblocks, hmunused, hmdev, hnbits, hnwords, hbit⟩ :=
    sfsDoMount_eq hfaults hmalloc rfl hmagic
      (by rw [hsuper]; unfold SFS_BLKN_FREEMAP at hfirst; omega)
      (by rw [hsuper]; exact hblocks)
      (by rw [hfreeBlocks]; exact le_trans hfirst hblocks)
      (by rw [hunused, hfree, hdev]; exact (count_diskBit_closed h).symm)
  rw [hfree] at hbit hnbits
  rw [hfreeBlocks] at hnwords
  refine ⟨m, heq, hmblocks.trans hsuper, (hmunused.trans hunused).trans h.unused, hmdev, hnbits,
    ?_, ?_⟩
  · rw [hnwords]
    unfold SFS_BLK_NENTRY WORD_BITS SFS_BLKBITS SFS_BLKSIZE
    omega
  · intro k hk
    rw [hbit k hk, hdev, diskBit_closed h hk]

end Image

/-- Blocks that `bitmap_alloc` has handed out and `bitmap_free` not yet taken
back, starting from the bitmap `b₀`. -/
inductive Handout (b₀ : Bitmap) : Bitmap → List Nat → Prop
  | start : Handout b₀ b₀ []
  | alloc {b b' : Bitmap} {out : List Nat} {k : Nat} : Handout b₀ b out →
      bitmapAlloc b = .ok (.ok k, b') → Handout b₀ b' (k :: out)
  | free {b b' : Bitmap} {out : List Nat} {k : Nat} : Handout b₀ b out → k ∈ out →
      bitmapFree b k = .ok b' → Handout b₀ b' (out.erase k)

theorem handout_bit {b₀ b : Bitmap} {out : List Nat} (h : Handout b₀ b out) :
    b.nwords = b₀.nwords ∧ (∀ k, b.bit k = true → b₀.bit k = true) ∧
      ∀ k, k ∈ out → k < b₀.nwords * WORD_BITS ∧ b₀.bit k = true := by
  induction h with
  | start =>
      refine ⟨rfl, fun _ hk => hk, ?_⟩
      intro k hk
      cases hk
  | @alloc b b' out k _ heq ih =>
      obtain ⟨hwords, hbit, hout⟩ := ih
      rcases bitmapAlloc_spec b with ⟨hnone, _⟩ | ⟨i, hi, hset, _, hsome⟩
      · rw [hnone] at heq
        cases heq
      · rw [hsome] at heq
        cases heq
        refine ⟨hwords, ?_, ?_⟩
        · intro j hj
          rw [bit_setBit] at hj
          split at hj
          · cases hj
          · exact hbit j hj
        · intro j hj
          rcases List.mem_cons.mp hj with rfl | hj
          · exact ⟨hwords ▸ hi, hbit _ hset⟩
          · exact hout j hj
  | @free b b' out k _ hmem heq ih =>
      obtain ⟨hwords, hbit, hout⟩ := ih
      have hout' : ∀ j, j ∈ out.erase k → j < b₀.nwords * WORD_BITS ∧ b₀.bit j = true :=
        fun j hj => hout j (List.mem_of_mem_erase hj)
      have hfreed : b' = b.setBit k true := by
        simp only [bitmapFree, bitmapTranslate] at heq
        obtain ⟨⟨word, m⟩, htrans, hrest⟩ := bind_eq_ok_iff.mp heq
        obtain ⟨_, _, hpure⟩ := bind_eq_ok_iff.mp htrans
        cases hpure
        obtain ⟨_, _, hret⟩ := bind_eq_ok_iff.mp hrest
        cases hret
        rfl
      subst hfreed
      refine ⟨hwords, ?_, hout'⟩
      intro j hj
      rw [bit_setBit] at hj
      split at hj
      · next hjk => exact hjk ▸ (hout k hmem).2
      · exact hbit j hj

/-- The freemap of an image covers the unused blocks and no others, its
superblock counts them, the kernel accepts it, and every block the kernel then
hands out is inside the file system and was not written by the builder. -/
theorem freemap_accepted {stSize : Nat} {image : Nat → Bytes} {sfs : ImageFs} {w : History}
    (h : Built stSize image sfs w) :
    ∃ img, closeSfs sfs = .ok img ∧
      (∀ k, k < freemapBlocks sfs.ninos * SFS_BLKBITS →
        (diskBit img.image k = true ↔ sfs.nextIno ≤ k ∧ k < sfs.ninos)) ∧
      (loadSuper (img.image SFS_BLKN_SUPER)).unusedBlocks =
        Nat.count (fun k => diskBit img.image k = true)
          (freemapBlocks sfs.ninos * SFS_BLKBITS) ∧
      ∀ (dev : Device) (kmalloc : Nat → Bool), dev.block = img.image →
        (∀ n, dev.faults n = none) → sfs.ninos ≤ dev.dBlocks → (∀ n, kmalloc n = true) →
          ∃ m, sfsDoMount kmalloc dev = .ok (.ok m, dev) ∧
            ∀ b out, Handout m.freemap b out →
              ∀ k, k ∈ out → k ∉ img.written ∧ k < m.super.blocks := by
  have hlayout := layout_built h
  refine ⟨closed sfs, closeSfs_eq hlayout, fun k hk => diskBit_closed hlayout hk, ?_, ?_⟩
  · rw [(loadSuper_closed hlayout fun _ _ => rfl).2.2, count_diskBit_closed hlayout]
  · intro dev kmalloc hdev hfaults hblocks hmalloc
    obtain ⟨m, heq, hmblocks, _, _, _, hwords, hbit⟩ :=
      sfsDoMount_closed hlayout hdev hfaults hblocks hmalloc
    refine ⟨m, heq, ?_⟩
    intro b out hhand k hk
    obtain ⟨_, _, hout⟩ := handout_bit hhand
    obtain ⟨hlt, hset⟩ := hout k hk
    rw [hwords] at hlt
    obtain ⟨hlow, hhigh⟩ := (hbit k hlt).mp hset
    constructor
    · intro hwritten
      have := written_lt_nextIno hlayout hwritten
      omega
    · rw [hmblocks]
      exact hhigh

/-- An image of eight blocks: the block behind the freemap is free, the last
freemap block is not. -/
theorem freemap_accepted_eight_blocks :
    ∃ sfs img, createSfs (8 * SFS_BLKSIZE) (fun _ => zeros) zeros = .ok sfs ∧
      closeSfs sfs = .ok img ∧ diskBit img.image 3 = true ∧ ¬diskBit img.image 2 = true := by
  have hcreate := createSfs_eq_ok_iff.mpr
    ⟨(by decide : firstIno (imageBlocks (8 * SFS_BLKSIZE)) < imageBlocks (8 * SFS_BLKSIZE)),
      (rfl : rootFs _ (fun _ => zeros) zeros = _)⟩
  obtain ⟨img, hclose, hbits, _⟩ := freemap_accepted (Built.create hcreate)
  refine ⟨_, img, hcreate, hclose, ?_, ?_⟩
  · exact (hbits 3 (by decide)).mpr (by decide)
  · intro hset
    exact absurd ((hbits 2 (by decide)).mp hset) (by decide)

end Ucore.MksfsFreemap
