import Ucore.SfsBlockMapShrink
import Ucore.SfsIoPhases
import Ucore.Splice

namespace Ucore.SfsIoRefinement

open Ucore.Errors
open Ucore.KernelRoutine
open Ucore.ByteBuffer
open Ucore.Splice
open Ucore.SfsDisk
open Ucore.SfsBlockMap
open Ucore.SfsOwnership
open Ucore.SfsFileViews
open Ucore.SfsBlockMapGrow
open Ucore.SfsIo
open Ucore.SfsIoPhases

/-- Byte `k` of the file `f`, counted over its blocks. -/
def byteAt (sfs : SfsFs) (f k : Nat) : UInt8 :=
  sfs.dev.block (fileBlock sfs f (k / SFS_BLKSIZE)) (k % SFS_BLKSIZE)

/-- The file as a byte array. -/
def contents (sfs : SfsFs) (f : Nat) : List UInt8 :=
  tabulate (dinOf sfs f).size (byteAt sfs f)

/-- Number of blocks that hold `n` bytes. -/
def blocksFor (n : Nat) : Nat :=
  (n + SFS_BLKSIZE - 1) / SFS_BLKSIZE

/-- Blocks that a file takes from the free blocks to get `n` blocks. -/
def blocksNeeded (din : SfsDiskInode) (n : Nat) : Nat :=
  (n - din.blocks) + if din.indirect = 0 ∧ SFS_NDIRECT < n then 1 else 0

section Bytes

variable {sfs sfs' : SfsFs} {usage : Usage} {ino : Nat}

theorem lt_blocksFor {n k : Nat} (hk : k < n) : k / SFS_BLKSIZE < blocksFor n := by
  unfold blocksFor SFS_BLKSIZE
  omega

theorem le_blocksFor (n : Nat) : n ≤ blocksFor n * SFS_BLKSIZE := by
  unfold blocksFor SFS_BLKSIZE
  omega

theorem blocksFor_le {n m : Nat} (h : n ≤ m * SFS_BLKSIZE) : blocksFor n ≤ m := by
  unfold SFS_BLKSIZE at h
  unfold blocksFor SFS_BLKSIZE
  omega

theorem blocksFor_mono {n m : Nat} (h : n ≤ m) : blocksFor n ≤ blocksFor m := by
  unfold blocksFor SFS_BLKSIZE
  omega

theorem byteAt_kept {f : Nat} (h : Kept sfs sfs' f) (hmax : (dinOf sfs f).blocks ≤ maxBlocks)
    {k : Nat} (hk : k / SFS_BLKSIZE < (dinOf sfs f).blocks) :
    byteAt sfs' f k = byteAt sfs f k := by
  rw [byteAt, h.block _ (lt_of_lt_of_le hk hmax), h.data _ hk]
  rfl

/-- A file that is kept has the same contents. -/
theorem contents_kept {f : Nat} (h : Kept sfs sfs' f) (hmax : (dinOf sfs f).blocks ≤ maxBlocks)
    (hsize : blocksFor (dinOf sfs f).size ≤ (dinOf sfs f).blocks) :
    contents sfs' f = contents sfs f := by
  rw [contents, contents, h.din]
  apply tabulate_congr
  intro k hk
  exact byteAt_kept h hmax (lt_of_lt_of_le (lt_blocksFor hk) hsize)

theorem blocksNeeded_of_grown {b n : Nat} (h : Grown sfs sfs' usage ino b)
    (hn : (dinOf sfs ino).blocks < n) :
    blocksNeeded (dinOf sfs ino) n = blocksNeeded (dinOf sfs' ino) n + growCost (dinOf sfs ino) := by
  unfold blocksNeeded growCost
  simp only [h.blocks, h.indirect]
  rcases eq_or_ne (dinOf sfs ino).indirect 0 with hnone | hsome
  · rcases lt_or_ge (dinOf sfs ino).blocks SFS_NDIRECT with hnear | hfar
    · simp only [hnone, hnear, true_and, not_le.mpr hnear, false_and, if_false]
      omega
    · have hlarge : SFS_NDIRECT < n := lt_of_le_of_lt hfar hn
      simp only [hnone, hfar, hlarge, not_lt.mpr hfar, and_self, and_false, false_and,
        if_true, if_false]
      omega
  · simp only [hsome, false_and, and_false, if_false]
    omega

theorem growCost_le_blocksNeeded {n : Nat} (hn : (dinOf sfs ino).blocks < n) :
    growCost (dinOf sfs ino) ≤ blocksNeeded (dinOf sfs ino) n := by
  unfold blocksNeeded growCost
  rcases Decidable.em (SFS_NDIRECT ≤ (dinOf sfs ino).blocks ∧ (dinOf sfs ino).indirect = 0) with
    hboth | hnot
  · rw [if_pos hboth, if_pos ⟨hboth.2, by omega⟩]
    omega
  · rw [if_neg hnot]
    omega

end Bytes

section Locating

variable {sfs sfs' : SfsFs} {usage : Usage} {ino i b : Nat}

/-- After the block `i` of the file `ino` has been looked up, and made if the
file ends there: it is the block `b`. -/
structure Located (sfs sfs' : SfsFs) (usage : Usage) (ino i b : Nat) : Prop where
  wf : WellFormed sfs' usage
  loaded : sfs'.inodeList = sfs.inodeList
  others : ∀ f, usage.inode f → f ≠ ino → Kept sfs sfs' f
  size : (dinOf sfs' ino).size = (dinOf sfs ino).size
  type : (dinOf sfs' ino).type = (dinOf sfs ino).type
  nlinks : (dinOf sfs' ino).nlinks = (dinOf sfs ino).nlinks
  blocks : (dinOf sfs' ino).blocks = max (dinOf sfs ino).blocks (i + 1)
  here : fileBlock sfs' ino i = b
  bytes : ∀ k, k / SFS_BLKSIZE < (dinOf sfs' ino).blocks → byteAt sfs' ino k =
    if k / SFS_BLKSIZE < (dinOf sfs ino).blocks then byteAt sfs ino k else 0
  count : ∀ n, (dinOf sfs' ino).blocks ≤ n →
    freeCount sfs' + blocksNeeded (dinOf sfs ino) n =
      freeCount sfs + blocksNeeded (dinOf sfs' ino) n

theorem located_of_lt (h : WellFormed sfs usage) (hi : i < (dinOf sfs ino).blocks) :
    Located sfs sfs usage ino i (fileBlock sfs ino i) where
  wf := h
  loaded := rfl
  others f _ _ := Kept.refl sfs f
  size := rfl
  type := rfl
  nlinks := rfl
  blocks := (max_eq_left hi).symm
  here := rfl
  bytes _ hk := (if_pos hk).symm
  count _ _ := rfl

theorem located_of_grown (h : Grown sfs sfs' usage ino b) (hin : ino ∈ sfs.inodeList) :
    Located sfs sfs' usage ino (dinOf sfs ino).blocks b := by
  have hmax : (dinOf sfs' ino).blocks ≤ maxBlocks := by
    apply h.wf.blocks_max
    apply h.wf.loaded
    rwa [h.loaded]
  have hblocks := h.blocks
  constructor
  case wf => exact h.wf
  case loaded => exact h.loaded
  case others => exact h.others
  case size => exact h.size
  case type => exact h.type
  case nlinks => exact h.nlinks
  case blocks => omega
  case here => rw [h.block _ (by omega), if_pos rfl]
  case bytes =>
    intro k hk
    rw [byteAt, h.block _ (by omega)]
    rcases eq_or_ne (k / SFS_BLKSIZE) (dinOf sfs ino).blocks with hlast | hbefore
    · rw [if_pos hlast, if_neg (by omega)]
      exact h.cleared _ (Nat.mod_lt _ (by decide))
    · rw [if_neg hbefore, if_pos (by omega), h.data _ (by omega)]
      rfl
  case count =>
    intro n hn
    have hcount := h.count
    have hneeded := @blocksNeeded_of_grown sfs sfs' usage ino b n h (by omega)
    omega

/-- `sfs_bmap_load_nolock` finds or makes the block, unless space runs out. -/
theorem sfsBmapLoadNolock_spec (h : WellFormed sfs usage) (hin : ino ∈ sfs.inodeList)
    (hi : i ≤ (dinOf sfs ino).blocks) (hmax : i < maxBlocks) :
    (∃ b sfs', sfsBmapLoadNolock ino i sfs = .ok (.ok b, sfs') ∧
        Located sfs sfs' usage ino i b) ∨
      ∃ sfs', sfsBmapLoadNolock ino i sfs = .ok (.error .eNoMem, sfs') ∧
        Untouched sfs sfs' usage ∧ i = (dinOf sfs ino).blocks ∧
        freeCount sfs < growCost (dinOf sfs ino) := by
  rcases Nat.lt_or_eq_of_le hi with hlt | rfl
  · left
    exact ⟨_, sfs, sfsBmapLoadNolock_of_lt h hin hlt, located_of_lt h hlt⟩
  · rcases sfsBmapLoadNolock_end h hin hmax with ⟨sfs', heq, hkept, hcount⟩ | ⟨b, sfs', heq, hgrown⟩
    · right
      exact ⟨sfs', heq, hkept, rfl, hcount⟩
    · left
      exact ⟨b, sfs', heq, located_of_grown hgrown hin⟩

end Locating

section Filling

variable {sfs : SfsFs} {usage : Usage} {ino i : Nat}

/-- Bytes of the block `i` of the file `ino` replaced by bytes of a buffer. -/
def fillBlock (sfs : SfsFs) (ino i off : Nat) (buf : Bytes) (pos len : Nat) : SfsFs :=
  sfs.setBlock (fileBlock sfs ino i)
    (copyBytes (sfs.dev.block (fileBlock sfs ino i)) off buf pos len)

theorem fileBlock_inj (h : WellFormed sfs usage) (hfile : usage.inode ino) {j : Nat}
    (hi : i < (dinOf sfs ino).blocks) (hj : j < (dinOf sfs ino).blocks)
    (heq : fileBlock sfs ino j = fileBlock sfs ino i) : j = i := by
  have hholds : Holds sfs usage (.data ino i) (fileBlock sfs ino j) := ⟨hfile, hi, heq⟩
  cases h.owns.inj (o := .data ino j) ⟨hfile, hj, rfl⟩ hholds
  rfl

theorem wellFormed_fillBlock (h : WellFormed sfs usage) (hfile : usage.inode ino)
    (hi : i < (dinOf sfs ino).blocks) (off : Nat) (buf : Bytes) (pos len : Nat) :
    WellFormed (fillBlock sfs ino i off buf pos len) usage :=
  wellFormed_setBlock h (plain_of_data h hfile hi) _

theorem dinOf_fillBlock (h : WellFormed sfs usage) (hfile : usage.inode ino)
    (hi : i < (dinOf sfs ino).blocks) (off : Nat) (buf : Bytes) (pos len : Nat) :
    dinOf (fillBlock sfs ino i off buf pos len) ino = dinOf sfs ino :=
  dinOf_setBlock (plain_of_data h hfile hi) hfile _

theorem kept_fillBlock (h : WellFormed sfs usage) (hfile : usage.inode ino)
    (hi : i < (dinOf sfs ino).blocks) (off : Nat) (buf : Bytes) (pos len : Nat) {f : Nat}
    (hf : usage.inode f) (hother : f ≠ ino) : Kept sfs (fillBlock sfs ino i off buf pos len) f :=
  (avoids_data h hf hfile hi hother).kept_setBlock _

theorem byteAt_fillBlock (h : WellFormed sfs usage) (hfile : usage.inode ino)
    (hi : i < (dinOf sfs ino).blocks) {off : Nat} (buf : Bytes) (pos : Nat) {len k : Nat}
    (hk : k / SFS_BLKSIZE < (dinOf sfs ino).blocks) (hin : off + len ≤ SFS_BLKSIZE) :
    byteAt (fillBlock sfs ino i off buf pos len) ino k =
      if i * SFS_BLKSIZE + off ≤ k ∧ k < i * SFS_BLKSIZE + off + len then
        buf (pos + (k - (i * SFS_BLKSIZE + off)))
      else byteAt sfs ino k := by
  have hmax := h.blocks_max ino hfile
  have hblock : fileBlock (fillBlock sfs ino i off buf pos len) ino (k / SFS_BLKSIZE) =
      fileBlock sfs ino (k / SFS_BLKSIZE) :=
    fileBlock_setBlock (plain_of_data h hfile hi) hfile (by omega) _
  have hsplit := Nat.div_add_mod k SFS_BLKSIZE
  have hmod : k % SFS_BLKSIZE < SFS_BLKSIZE := Nat.mod_lt _ (by decide)
  rw [Nat.mul_comm] at hsplit
  rw [byteAt, hblock, byteAt, fillBlock]
  rcases eq_or_ne (k / SFS_BLKSIZE) i with rfl | hother
  · rw [setBlock_block_self]
    rcases Decidable.em (off ≤ k % SFS_BLKSIZE ∧ k % SFS_BLKSIZE < off + len) with hwin | hout
    · rw [copyBytes_of_mem hwin.1 hwin.2, if_pos (by omega)]
      congr 1
      omega
    · rw [copyBytes_of_not_mem hout, if_neg (by omega)]
  · rw [setBlock_block_ne fun heq => hother (fileBlock_inj h hfile hi hk heq)]
    rw [if_neg]
    rintro ⟨hstart, hstop⟩
    apply hother
    apply Nat.div_eq_of_lt_le
    · omega
    · rw [Nat.succ_mul]
      omega

end Filling

section Writing

variable {sfs sfs' : SfsFs} {usage : Usage} {ino : Nat} {buf : Bytes} {offset alen : Nat}

/-- After `alen` bytes of `buf` have been written to `ino` from `offset` on.
The size of the file is only set at the end. -/
structure Wrote (sfs sfs' : SfsFs) (usage : Usage) (ino : Nat) (buf : Bytes) (offset alen : Nat) :
    Prop where
  wf : WellFormed sfs' usage
  loaded : sfs'.inodeList = sfs.inodeList
  others : ∀ f, usage.inode f → f ≠ ino → Kept sfs sfs' f
  size : (dinOf sfs' ino).size = (dinOf sfs ino).size
  type : (dinOf sfs' ino).type = (dinOf sfs ino).type
  nlinks : (dinOf sfs' ino).nlinks = (dinOf sfs ino).nlinks
  blocks : (dinOf sfs' ino).blocks = max (dinOf sfs ino).blocks (blocksFor (offset + alen))
  bytes : ∀ k, k / SFS_BLKSIZE < (dinOf sfs' ino).blocks → byteAt sfs' ino k =
    if offset ≤ k ∧ k < offset + alen then buf (k - offset)
    else if k / SFS_BLKSIZE < (dinOf sfs ino).blocks then byteAt sfs ino k else 0
  count : ∀ n, (dinOf sfs' ino).blocks ≤ n →
    freeCount sfs' + blocksNeeded (dinOf sfs ino) n =
      freeCount sfs + blocksNeeded (dinOf sfs' ino) n

theorem Wrote.start (h : WellFormed sfs usage) (buf : Bytes)
    (hoffset : blocksFor offset ≤ (dinOf sfs ino).blocks) :
    Wrote sfs sfs usage ino buf offset 0 where
  wf := h
  loaded := rfl
  others f _ _ := Kept.refl sfs f
  size := rfl
  type := rfl
  nlinks := rfl
  blocks := (max_eq_left hoffset).symm
  bytes k hk := by
    rw [if_neg (by omega), if_pos hk]
  count _ _ := rfl

theorem Wrote.of_untouched {sfs'' : SfsFs} (h : Wrote sfs sfs' usage ino buf offset alen)
    (hin : ino ∈ sfs.inodeList) (hun : Untouched sfs' sfs'' usage) :
    Wrote sfs sfs'' usage ino buf offset alen := by
  have hfile : usage.inode ino := h.wf.loaded ino (by rwa [h.loaded])
  have hkept := hun.kept ino hfile
  constructor
  case wf => exact hun.wf
  case loaded => exact hun.loaded.trans h.loaded
  case others =>
    intro f hf hother
    refine (h.others f hf hother).trans (hun.kept f hf) ?_
    rw [← (h.others f hf hother).din]
    exact h.wf.blocks_max f hf
  case size => rw [hkept.din, h.size]
  case type => rw [hkept.din, h.type]
  case nlinks => rw [hkept.din, h.nlinks]
  case blocks => rw [hkept.din, h.blocks]
  case bytes =>
    intro k hk
    rw [hkept.din] at hk
    rw [byteAt_kept hkept (h.wf.blocks_max ino hfile) hk, h.bytes k hk]
  case count =>
    intro n hn
    rw [hkept.din] at hn ⊢
    rw [hun.count]
    exact h.count n hn

/-- The next `size` bytes go to the block that has been located for them. -/
theorem Wrote.advance {sfs'' : SfsFs} {i b off size : Nat}
    (h : Wrote sfs sfs' usage ino buf offset alen) (hin : ino ∈ sfs.inodeList)
    (hpos : offset + alen = i * SFS_BLKSIZE + off) (hsize : 0 < size)
    (hroom : off + size ≤ SFS_BLKSIZE) (hlocated : Located sfs' sfs'' usage ino i b) :
    Wrote sfs (fillBlock sfs'' ino i off buf alen size) usage ino buf offset (alen + size) := by
  have hfile : usage.inode ino := h.wf.loaded ino (by rwa [h.loaded])
  have hi : i < (dinOf sfs'' ino).blocks := by
    rw [hlocated.blocks]
    omega
  have hdin := dinOf_fillBlock hlocated.wf hfile hi off buf alen size
  have hlow : i ≤ blocksFor (offset + alen) := by
    rw [hpos]
    unfold blocksFor SFS_BLKSIZE
    omega
  have hhigh : blocksFor (offset + alen) ≤ i + 1 := by
    apply blocksFor_le
    rw [Nat.succ_mul]
    omega
  have hnext : blocksFor (offset + (alen + size)) = i + 1 := by
    apply le_antisymm
    · apply blocksFor_le
      rw [Nat.succ_mul]
      omega
    · rw [← Nat.add_assoc, hpos]
      unfold blocksFor SFS_BLKSIZE
      omega
  have hblocks := h.blocks
  have hblocks' := hlocated.blocks
  constructor
  case wf => exact wellFormed_fillBlock hlocated.wf hfile hi off buf alen size
  case loaded => exact hlocated.loaded.trans h.loaded
  case others =>
    intro f hf hother
    have hmax : (dinOf sfs f).blocks ≤ maxBlocks := by
      rw [← (h.others f hf hother).din]
      exact h.wf.blocks_max f hf
    have hstep := (h.others f hf hother).trans (hlocated.others f hf hother) hmax
    exact hstep.trans (kept_fillBlock hlocated.wf hfile hi off buf alen size hf hother) hmax
  case size => rw [hdin, hlocated.size, h.size]
  case type => rw [hdin, hlocated.type, h.type]
  case nlinks => rw [hdin, hlocated.nlinks, h.nlinks]
  case blocks =>
    rw [hdin, hnext]
    omega
  case bytes =>
    intro k hk
    rw [hdin] at hk
    rw [byteAt_fillBlock hlocated.wf hfile hi buf alen hk hroom, ← hpos]
    rcases Decidable.em (offset + alen ≤ k ∧ k < offset + alen + size) with hnew | hold
    · rw [if_pos hnew, if_pos (by omega)]
      congr 1
      omega
    · rw [if_neg hold, hlocated.bytes k hk]
      rcases lt_or_ge (k / SFS_BLKSIZE) (dinOf sfs' ino).blocks with hwas | hfresh
      · rw [if_pos hwas, h.bytes k hwas]
        rcases Decidable.em (offset ≤ k ∧ k < offset + alen) with hwritten | hnot
        · rw [if_pos hwritten, if_pos (by omega)]
        · have hout : ¬(offset ≤ k ∧ k < offset + (alen + size)) := by omega
          rw [if_neg hnot, if_neg hout]
      · have hpast : offset + alen ≤ k := by
          by_contra hbefore
          have := lt_blocksFor (not_le.mp hbefore)
          omega
        rw [if_neg (by omega), if_neg (by omega), if_neg (by omega)]
  case count =>
    intro n hn
    rw [hdin] at hn ⊢
    have hcount := hlocated.count n hn
    have hcount' := h.count n (by omega)
    have hsame : freeCount (fillBlock sfs'' ino i off buf alen size) = freeCount sfs'' := rfl
    rw [hsame]
    omega

/-- What holds of a write that is under way. -/
def Writing (sfs : SfsFs) (usage : Usage) (ino : Nat) (buf : Bytes) (offset : Nat)
    (io : Transfer) (sfs' : SfsFs) : Prop :=
  Wrote sfs sfs' usage ino buf offset io.alen ∧ io.buf = buf

/-- What holds of a write that ran out of space. -/
def OutOfSpace (sfs : SfsFs) (usage : Usage) (ino : Nat) (buf : Bytes) (offset endpos : Nat)
    (io : Transfer) (sfs' : SfsFs) : Prop :=
  Writing sfs usage ino buf offset io sfs' ∧ offset + io.alen < endpos ∧
    freeCount sfs < blocksNeeded (dinOf sfs ino) (blocksFor endpos)

theorem ioStep_writes {endpos i off size : Nat} {io : Transfer}
    {op : Bytes → Nat → Nat → Routine SfsFs Bytes} (hin : ino ∈ sfs.inodeList)
    (hend : endpos ≤ maxBlocks * SFS_BLKSIZE)
    (hop : ∀ b t, Steady t → b ≠ 0 → b < t.super.blocks → op io.buf io.alen b t =
      .ok (.ok io.buf, t.setBlock b (copyBytes (t.dev.block b) off io.buf io.alen size)))
    (h : Writing sfs usage ino buf offset io sfs')
    (hpos : offset + io.alen = i * SFS_BLKSIZE + off) (hsize : 0 < size)
    (hroom : off + size ≤ SFS_BLKSIZE) (hstop : offset + io.alen + size ≤ endpos) :
    Finishes (ioStep ino i size op io) sfs'
      (fun io' t => Writing sfs usage ino buf offset io' t ∧ io'.alen = io.alen + size)
      (OutOfSpace sfs usage ino buf offset endpos) := by
  obtain ⟨hwrote, rfl⟩ := h
  have hin' : ino ∈ sfs'.inodeList := by rwa [hwrote.loaded]
  have hmax : i < maxBlocks := by
    apply Nat.lt_of_mul_lt_mul_right (a := SFS_BLKSIZE)
    omega
  have hlow : i ≤ (dinOf sfs' ino).blocks := by
    have hfor : i ≤ blocksFor (offset + io.alen) := by
      rw [hpos]
      unfold blocksFor SFS_BLKSIZE
      omega
    rw [hwrote.blocks]
    omega
  rcases sfsBmapLoadNolock_spec hwrote.wf hin' hlow hmax with
    ⟨b, t, heq, hlocated⟩ | ⟨t, heq, hkept, hlast, hcount⟩
  · left
    have hfile := hlocated.wf.loaded ino (by rwa [hlocated.loaded])
    have hi : i < (dinOf t ino).blocks := by
      rw [hlocated.blocks]
      omega
    obtain ⟨hne, huse⟩ := inUse_data hlocated.wf hfile hi
    have hwrite := hop _ t hlocated.wf.freemap.steady hne huse.1
    refine ⟨{ buf := io.buf, alen := io.alen + size }, _, ?_,
      ⟨hwrote.advance hin hpos hsize hroom hlocated, rfl⟩, rfl⟩
    rw [ioStep, attempt_bind_of_ok heq, ← hlocated.here]
    change (attempt (op io.buf io.alen (fileBlock t ino i)) >>= fun _ => _) t = _
    rw [attempt_bind_of_ok hwrite]
    rfl
  · right
    have hmore : i < blocksFor endpos := by
      apply lt_of_lt_of_le _ (blocksFor_mono hstop)
      rw [hpos]
      unfold blocksFor SFS_BLKSIZE
      omega
    have hneeded := @growCost_le_blocksNeeded sfs' ino (blocksFor endpos) (by omega)
    have hbalance := hwrote.count (blocksFor endpos) (by omega)
    refine ⟨io, t, ?_, ⟨hwrote.of_untouched hin hkept, rfl⟩, by omega, by omega⟩
    rw [ioStep, attempt_bind_of_ok heq]
    rfl

theorem pieces_write {endpos : Nat} (hin : ino ∈ sfs.inodeList)
    (hend : endpos ≤ maxBlocks * SFS_BLKSIZE) :
    Pieces ino offset endpos true (Writing sfs usage ino buf offset)
      (OutOfSpace sfs usage ino buf offset endpos) where
  part io sfs' blkno blkoff size h hpos hsize hroom hstop := by
    apply ioStep_writes hin hend ?_ h hpos hsize hroom hstop
    intro b t hsteady hne hlt
    exact sfsWbuf_eq hsteady io.buf io.alen hne hlt (by omega) hroom
  block io sfs' blkno h hpos hstop := by
    have hpos' : offset + io.alen = blkno * SFS_BLKSIZE + 0 := by omega
    have hsize : 0 < SFS_BLKSIZE := by decide
    have hroom : 0 + SFS_BLKSIZE ≤ SFS_BLKSIZE := by omega
    refine @ioStep_writes sfs sfs' usage ino buf offset endpos blkno 0 SFS_BLKSIZE io _ hin hend ?_
      h hpos' hsize hroom hstop
    intro b t hsteady hne hlt
    exact sfsWblock_eq hsteady io.buf io.alen hne hlt

end Writing

section Finishing

variable {sfs sfs' : SfsFs} {usage : Usage} {ino offset alen : Nat}

/-- The state after `out`: only the size of the file can have changed. -/
structure Finished (sfs sfs' : SfsFs) (usage : Usage) (ino size : Nat) : Prop where
  wf : WellFormed sfs' usage
  loaded : sfs'.inodeList = sfs.inodeList
  others : ∀ f, usage.inode f → f ≠ ino → Kept sfs sfs' f
  din : dinOf sfs' ino = { dinOf sfs ino with size := size }
  bytes : ∀ k, byteAt sfs' ino k = byteAt sfs ino k
  count : freeCount sfs' = freeCount sfs

theorem finished_setInode (h : WellFormed sfs usage) (hin : ino ∈ sfs.inodeList) (size : Nat)
    (dirty : Bool) :
    Finished sfs (sfs.setInode ino { din := { dinOf sfs ino with size := size }, dirty := dirty })
      usage ino size where
  wf := wellFormed_setInode h hin rfl rfl rfl
  loaded := rfl
  others f _ hother := kept_setInode hother _
  din := dinOf_setInode hin _
  bytes k := by
    rw [byteAt, fileBlock_setInode hin]
    rfl
  count := rfl

theorem ioFinish_of_le (hin : ino ∈ sfs.inodeList) (hfits : offset + alen ≤ (dinOf sfs ino).size) :
    ioFinish ino offset alen sfs = .ok (.ok (), sfs) := by
  rw [dinOf_loaded hin] at hfits
  rw [ioFinish, getState_bind, if_neg (not_lt.mpr hfits)]
  rfl

theorem ioFinish_spec (h : WellFormed sfs usage) (hin : ino ∈ sfs.inodeList)
    (hsmall : offset + alen < 2 ^ 32) :
    ∃ sfs', ioFinish ino offset alen sfs = .ok (.ok (), sfs') ∧
      Finished sfs sfs' usage ino (max (dinOf sfs ino).size (offset + alen)) := by
  have hdin := @dinOf_loaded sfs ino hin
  rcases lt_or_ge (dinOf sfs ino).size (offset + alen) with hgrows | hfits
  · have hmax : max (dinOf sfs ino).size (offset + alen) = offset + alen := by omega
    refine ⟨_, ?_, finished_setInode h hin _ true⟩
    rw [ioFinish, getState_bind, ← hdin, if_pos hgrows, Nat.mod_eq_of_lt hsmall, hmax, hdin]
    rfl
  · have hmax : max (dinOf sfs ino).size (offset + alen) = (dinOf sfs ino).size := by omega
    refine ⟨sfs, ?_, ?_⟩
    · exact ioFinish_of_le hin hfits
    · rw [hmax]
      exact ⟨h, rfl, fun f _ _ => Kept.refl sfs f, rfl, fun _ => rfl, rfl⟩

end Finishing

section Refinement

variable {sfs : SfsFs} {usage : Usage} {ino offset len : Nat}

/-- Every regular file has the blocks that its size asks for. -/
def Sized (sfs : SfsFs) (usage : Usage) : Prop :=
  ∀ f, usage.inode f → (dinOf sfs f).type = SFS_TYPE_FILE →
    (dinOf sfs f).blocks = blocksFor (dinOf sfs f).size

/-- A range within the first blocks of a file passes the checks on entry. -/
theorem endpos_of_range (hlen : offset + len ≤ maxBlocks * SFS_BLKSIZE) :
    offset + len < SFS_MAX_FILE_SIZE ∧
      Int.bmod ((offset : Int) + len) (2 ^ 64) = ((offset + len : Nat) : Int) := by
  have hsmall : offset + len < SFS_MAX_FILE_SIZE := by
    apply lt_of_le_of_lt hlen
    decide
  refine ⟨hsmall, ?_⟩
  unfold SFS_MAX_FILE_SIZE at hsmall
  rw [Int.bmod_eq_of_le]
  · push_cast
    rfl
  · omega
  · omega

theorem Wrote.contents_eq {sfs' sfs'' : SfsFs} {buf : Bytes} {alen : Nat}
    (h : Wrote sfs sfs' usage ino buf offset alen) (hoffset : offset ≤ (dinOf sfs ino).size)
    (hblocks : (dinOf sfs ino).blocks = blocksFor (dinOf sfs ino).size)
    (hfinished : Finished sfs' sfs'' usage ino (max (dinOf sfs ino).size (offset + alen))) :
    contents sfs'' ino = splice (contents sfs ino) offset (tabulate alen buf) := by
  rw [contents, contents, splice_tabulate _ _ hoffset, hfinished.din]
  apply tabulate_congr
  intro k hk
  have hmapped : k / SFS_BLKSIZE < (dinOf sfs' ino).blocks := by
    rw [h.blocks, hblocks]
    rcases lt_or_ge k (dinOf sfs ino).size with hold | hpast
    · have := lt_blocksFor hold
      omega
    · have := @lt_blocksFor (offset + alen) k (by simp only at hk; omega)
      omega
  rw [hfinished.bytes, h.bytes k hmapped]
  rcases Decidable.em (offset ≤ k ∧ k < offset + alen) with hwritten | hnot
  · rw [if_pos hwritten, if_pos hwritten]
  · have hold : k < (dinOf sfs ino).size := by
      simp only at hk
      omega
    have hwas : k / SFS_BLKSIZE < (dinOf sfs ino).blocks := by
      rw [hblocks]
      exact lt_blocksFor hold
    rw [if_neg hnot, if_neg hnot, if_pos hwas]

/-- A write puts the first `alen` bytes of the buffer at `offset`. It stops
before `len` only when there are not enough free blocks. -/
def WritesBytes (sfs : SfsFs) (usage : Usage) (ino : Nat) (buf : Bytes) (offset len : Nat) : Prop :=
  ∃ r alen sfs', sfsIoNolock ino buf offset len true sfs =
      .ok (.ok (r, { buf := buf, alen := alen }), sfs') ∧
    alen ≤ len ∧
    contents sfs' ino = splice (contents sfs ino) offset (tabulate alen buf) ∧
    (dinOf sfs' ino).size = max (dinOf sfs ino).size (offset + alen) ∧
    (r = .ok () ∧ alen = len ∨ r = .error .eNoMem ∧ alen < len ∧
      freeCount sfs < blocksNeeded (dinOf sfs ino) (blocksFor (offset + len))) ∧
    (∀ f, usage.inode f → f ≠ ino → Kept sfs sfs' f ∧
      ((dinOf sfs f).type = SFS_TYPE_FILE → contents sfs' f = contents sfs f)) ∧
    sfs'.inodeList = sfs.inodeList ∧ WellFormed sfs' usage ∧ Sized sfs' usage

/-- A read fills the buffer with the bytes from `offset` to the end of the
range or of the file, and leaves the file system as it is. -/
def ReadsBytes (sfs : SfsFs) (ino : Nat) (buf : Bytes) (offset len : Nat) : Prop :=
  ∃ io, sfsIoNolock ino buf offset len false sfs = .ok (.ok (.ok (), io), sfs) ∧
    tabulate io.alen io.buf = window (contents sfs ino) offset len ∧
    ∀ k, io.alen ≤ k → io.buf k = buf k

theorem Wrote.sized {sfs' sfs'' : SfsFs} {buf : Bytes} {alen : Nat} (hsized : Sized sfs usage)
    (h : Wrote sfs sfs' usage ino buf offset alen)
    (hfinished : Finished sfs' sfs'' usage ino (max (dinOf sfs ino).size (offset + alen)))
    (htype : (dinOf sfs ino).type = SFS_TYPE_FILE) (hfile : usage.inode ino) :
    Sized sfs'' usage := by
  intro f hf hregular
  rcases eq_or_ne f ino with rfl | hother
  · have hblocks := hsized f hfile htype
    have hleft := @blocksFor_mono (dinOf sfs f).size (max (dinOf sfs f).size (offset + alen))
      (le_max_left _ _)
    have hright := @blocksFor_mono (offset + alen) (max (dinOf sfs f).size (offset + alen))
      (le_max_right _ _)
    rw [hfinished.din]
    simp only
    rw [h.blocks, hblocks]
    rcases le_total (dinOf sfs f).size (offset + alen) with hle | hle
    · rw [max_eq_right hle, max_eq_right (blocksFor_mono hle)]
    · rw [max_eq_left hle, max_eq_left (blocksFor_mono hle)]
  · rw [(hfinished.others f hf hother).din, (h.others f hf hother).din] at hregular ⊢
    exact hsized f hf hregular

/-- The part of `sfs_io_nolock` after its checks. -/
def ioBody (ino offset endpos : Nat) (write : Bool) (buf : Bytes) :
    Routine SfsFs (Except Errno Unit × Transfer) := do
  let (r, io) ← ioPhases ino offset endpos write { buf := buf, alen := 0 }
  ioFinish ino offset io.alen
  return (r, io)

theorem ioBody_eq {endpos : Nat} {write : Bool} {buf : Bytes} {r : Except Errno Unit}
    {io : Transfer} {t t' : SfsFs}
    (hphases : ioPhases ino offset endpos write { buf := buf, alen := 0 } sfs =
      .ok (.ok (r, io), t))
    (hfinish : ioFinish ino offset io.alen t = .ok (.ok (), t')) :
    ioBody ino offset endpos write buf sfs = .ok (.ok (r, io), t') := by
  rw [ioBody, bind_of_ok hphases]
  simp only
  rw [bind_of_ok hfinish]
  rfl

theorem sfsIoNolock_empty (hin : ino ∈ sfs.inodeList)
    (htype : (dinOf sfs ino).type = SFS_TYPE_FILE) (buf : Bytes) (write : Bool)
    (hlen : offset ≤ maxBlocks * SFS_BLKSIZE) :
    sfsIoNolock ino buf offset 0 write sfs =
      .ok (.ok (.ok (), { buf := buf, alen := 0 }), sfs) := by
  have hnotDir : (sfs.inode ino).din.type ≠ SFS_TYPE_DIR :=
    not_directory hin htype
  obtain ⟨hsmall, hendpos⟩ := @endpos_of_range offset 0 hlen
  rw [sfsIoNolock, getState_bind, ensure_bind_of hnotDir, hendpos, if_neg (by omega),
    if_pos (by simp)]
  rfl

theorem sfsIoNolock_of_range (hin : ino ∈ sfs.inodeList)
    (htype : (dinOf sfs ino).type = SFS_TYPE_FILE) (buf : Bytes) (write : Bool)
    (hlen : offset + len ≤ maxBlocks * SFS_BLKSIZE) (hpos : 0 < len)
    (hread : write = false → offset < (dinOf sfs ino).size) :
    sfsIoNolock ino buf offset len write sfs =
      ioBody ino offset
        (if write = false ∧ (dinOf sfs ino).size < offset + len then (dinOf sfs ino).size
          else offset + len) write buf sfs := by
  have hdin := @dinOf_loaded sfs ino hin
  have hnotDir : (sfs.inode ino).din.type ≠ SFS_TYPE_DIR :=
    not_directory hin htype
  obtain ⟨hsmall, hendpos⟩ := endpos_of_range hlen
  have hclamp : ¬(SFS_MAX_FILE_SIZE : Int) < ((offset + len : Nat) : Int) := by omega
  have hmove : ¬(offset : Int) = ((offset + len : Nat) : Int) := by omega
  have hmore : ¬(write = false ∧ (dinOf sfs ino).size ≤ offset) := by
    rintro ⟨hwrite, hle⟩
    have := hread hwrite
    omega
  rw [sfsIoNolock, getState_bind, ensure_bind_of hnotDir, hendpos, if_neg (by omega),
    if_neg hmove]
  simp only [if_neg hclamp, Int.toNat_natCast, ← hdin, if_neg hmore]
  rfl

theorem writesBytes (h : WellFormed sfs usage) (hsized : Sized sfs usage)
    (hin : ino ∈ sfs.inodeList) (htype : (dinOf sfs ino).type = SFS_TYPE_FILE) (buf : Bytes)
    (hoffset : offset ≤ (dinOf sfs ino).size) (hlen : offset + len ≤ maxBlocks * SFS_BLKSIZE) :
    WritesBytes sfs usage ino buf offset len := by
  have hfile := h.loaded ino hin
  rcases Nat.eq_zero_or_pos len with rfl | hpos
  · have hrun := sfsIoNolock_empty hin htype buf true (by omega : offset ≤ maxBlocks * SFS_BLKSIZE)
    refine ⟨.ok (), 0, sfs, hrun, le_rfl, ?_, by omega, Or.inl ⟨rfl, rfl⟩,
      fun f _ _ => ⟨Kept.refl sfs f, fun _ => rfl⟩, rfl, h, hsized⟩
    simp [splice, tabulate]
  · have hrun := sfsIoNolock_of_range hin htype buf true hlen hpos (by simp)
    rw [if_neg (by simp)] at hrun
    have hstart : Wrote sfs sfs usage ino buf offset 0 := by
      apply Wrote.start h buf
      rw [hsized ino hfile htype]
      exact blocksFor_mono hoffset
    have hsmall := (endpos_of_range hlen).1
    unfold SFS_MAX_FILE_SIZE at hsmall
    have hclose : ∀ r (io : Transfer) t,
        ioPhases ino offset (offset + len) true { buf := buf, alen := 0 } sfs =
          .ok (.ok (r, io), t) → Writing sfs usage ino buf offset io t → io.alen ≤ len →
        (r = .ok () ∧ io.alen = len ∨ r = .error .eNoMem ∧ io.alen < len ∧
          freeCount sfs < blocksNeeded (dinOf sfs ino) (blocksFor (offset + len))) →
        WritesBytes sfs usage ino buf offset len := by
      rintro r io t heq ⟨hwrote, hbuf⟩ hle hresult
      have hin' : ino ∈ t.inodeList := by rwa [hwrote.loaded]
      obtain ⟨t', heq', hfinished⟩ := @ioFinish_spec t usage ino offset io.alen hwrote.wf hin'
        (by omega)
      rw [hwrote.size] at hfinished
      refine ⟨r, io.alen, t', ?_, hle, hwrote.contents_eq hoffset (hsized ino hfile htype) hfinished,
        by rw [hfinished.din], hresult, ?_, hfinished.loaded.trans hwrote.loaded, hfinished.wf,
        hwrote.sized hsized hfinished htype hfile⟩
      · rw [hrun, ioBody_eq heq heq', ← hbuf]
      · intro f hf hother
        have hmax := h.blocks_max f hf
        have hkept := (hwrote.others f hf hother).trans (hfinished.others f hf hother) hmax
        refine ⟨hkept, fun hregular => contents_kept hkept hmax ?_⟩
        rw [hsized f hf hregular]
    have hpieces := @pieces_write sfs usage ino buf offset (offset + len) hin hlen
    have hlt : offset < offset + len := by omega
    have hwriting : Writing sfs usage ino buf offset { buf := buf, alen := 0 } sfs := ⟨hstart, rfl⟩
    rcases ioPhases_finishes hpieces hwriting rfl hlt with
      ⟨io, t, heq, hwriting, hdone⟩ | ⟨io, t, heq, hwriting, hshort, hfree⟩
    · exact hclose _ io t heq hwriting (by omega) (Or.inl ⟨rfl, by omega⟩)
    · exact hclose _ io t heq hwriting (by omega) (Or.inr ⟨rfl, by omega, hfree⟩)

/-- What holds of a read that is under way. -/
structure Reading (sfs : SfsFs) (ino : Nat) (buf : Bytes) (offset : Nat) (io : Transfer)
    (sfs' : SfsFs) : Prop where
  same : sfs' = sfs
  filled : ∀ k, k < io.alen → io.buf k = byteAt sfs ino (offset + k)
  rest : ∀ k, io.alen ≤ k → io.buf k = buf k

theorem ioStep_reads {sfs' : SfsFs} {buf : Bytes} {i off size : Nat} {io : Transfer}
    {op : Bytes → Nat → Nat → Routine SfsFs Bytes} {short : Transfer → SfsFs → Prop}
    (h : WellFormed sfs usage) (hin : ino ∈ sfs.inodeList)
    (hop : ∀ b, b ≠ 0 → b < sfs.super.blocks → op io.buf io.alen b sfs =
      .ok (.ok (copyBytes io.buf io.alen (sfs.dev.block b) off size), sfs))
    (hreading : Reading sfs ino buf offset io sfs')
    (hpos : offset + io.alen = i * SFS_BLKSIZE + off) (hroom : off + size ≤ SFS_BLKSIZE)
    (hi : i < (dinOf sfs ino).blocks) :
    Finishes (ioStep ino i size op io) sfs'
      (fun io' t => Reading sfs ino buf offset io' t ∧ io'.alen = io.alen + size) short := by
  obtain ⟨rfl, hfilled, hrest⟩ := hreading
  obtain ⟨hne, huse⟩ := inUse_data h (h.loaded ino hin) hi
  have hread := hop _ hne huse.1
  left
  refine ⟨⟨copyBytes io.buf io.alen (sfs'.dev.block (fileBlock sfs' ino i)) off size,
    io.alen + size⟩, sfs', ?_, ⟨rfl, ?_, ?_⟩, rfl⟩
  · rw [ioStep, attempt_bind_of_ok (sfsBmapLoadNolock_of_lt h hin hi)]
    change (attempt (op io.buf io.alen (fileBlock sfs' ino i)) >>= fun _ => _) sfs' = _
    rw [attempt_bind_of_ok hread]
    rfl
  · intro k hk
    change copyBytes io.buf io.alen (sfs'.dev.block (fileBlock sfs' ino i)) off size k = _
    change k < io.alen + size at hk
    rcases lt_or_ge k io.alen with hold | hnew
    · have hout : ¬(io.alen ≤ k ∧ k < io.alen + size) := by omega
      rw [copyBytes_of_not_mem hout]
      exact hfilled k hold
    · have hoff : offset + k = off + (k - io.alen) + SFS_BLKSIZE * i := by
        rw [Nat.mul_comm SFS_BLKSIZE i]
        omega
      have hlt : off + (k - io.alen) < SFS_BLKSIZE := by omega
      rw [copyBytes_of_mem hnew hk, byteAt, hoff, Nat.add_mul_div_left _ _ (by decide),
        Nat.add_mul_mod_self_left, Nat.mod_eq_of_lt hlt, Nat.div_eq_of_lt hlt, Nat.zero_add]
  · intro k hk
    change copyBytes io.buf io.alen (sfs'.dev.block (fileBlock sfs' ino i)) off size k = _
    change io.alen + size ≤ k at hk
    have hout : ¬(io.alen ≤ k ∧ k < io.alen + size) := by omega
    rw [copyBytes_of_not_mem hout]
    exact hrest k (by omega)

theorem pieces_read {buf : Bytes} {endpos : Nat} {short : Transfer → SfsFs → Prop}
    (h : WellFormed sfs usage) (hin : ino ∈ sfs.inodeList)
    (hend : endpos ≤ (dinOf sfs ino).blocks * SFS_BLKSIZE) :
    Pieces ino offset endpos false (Reading sfs ino buf offset) short where
  part io sfs' blkno blkoff size hreading hpos hsize hroom hstop := by
    have hi : blkno < (dinOf sfs ino).blocks := by
      apply Nat.lt_of_mul_lt_mul_right (a := SFS_BLKSIZE)
      omega
    apply ioStep_reads h hin ?_ hreading hpos hroom hi
    intro b hne hlt
    exact sfsRbuf_eq h.freemap.steady io.buf io.alen hne hlt (by omega) hroom
  block io sfs' blkno hreading hpos hstop := by
    have hsize : 0 < SFS_BLKSIZE := by decide
    have hpos' : offset + io.alen = blkno * SFS_BLKSIZE + 0 := by omega
    have hroom : 0 + SFS_BLKSIZE ≤ SFS_BLKSIZE := by omega
    have hi : blkno < (dinOf sfs ino).blocks := by
      apply Nat.lt_of_mul_lt_mul_right (a := SFS_BLKSIZE)
      omega
    refine @ioStep_reads sfs usage ino offset sfs' buf blkno 0 SFS_BLKSIZE io _ short h hin ?_
      hreading hpos' hroom hi
    intro b hne hlt
    exact sfsRblock_eq h.freemap.steady io.buf io.alen hne hlt

theorem sfsIoNolock_past_end (hin : ino ∈ sfs.inodeList)
    (htype : (dinOf sfs ino).type = SFS_TYPE_FILE) (buf : Bytes)
    (hlen : offset + len ≤ maxBlocks * SFS_BLKSIZE) (hpast : (dinOf sfs ino).size ≤ offset) :
    sfsIoNolock ino buf offset len false sfs =
      .ok (.ok (.ok (), { buf := buf, alen := 0 }), sfs) := by
  rcases Nat.eq_zero_or_pos len with rfl | hpos
  · exact sfsIoNolock_empty hin htype buf false (by omega)
  have hdin := @dinOf_loaded sfs ino hin
  have hnotDir : (sfs.inode ino).din.type ≠ SFS_TYPE_DIR :=
    not_directory hin htype
  obtain ⟨hsmall, hendpos⟩ := endpos_of_range hlen
  have hmove : ¬(offset : Int) = ((offset + len : Nat) : Int) := by omega
  rw [sfsIoNolock, getState_bind, ensure_bind_of hnotDir, hendpos, if_neg (by omega), if_neg hmove]
  simp only [Int.toNat_natCast, ← hdin, hpast, and_self, if_true]
  rfl

theorem readsBytes (h : WellFormed sfs usage) (hsized : Sized sfs usage)
    (hin : ino ∈ sfs.inodeList) (htype : (dinOf sfs ino).type = SFS_TYPE_FILE) (buf : Bytes)
    (hlen : offset + len ≤ maxBlocks * SFS_BLKSIZE) : ReadsBytes sfs ino buf offset len := by
  rcases Decidable.em (0 < len ∧ offset < (dinOf sfs ino).size) with ⟨hpos, hinside⟩ | hnone
  · have hrun := sfsIoNolock_of_range hin htype buf false hlen hpos fun _ => hinside
    have hclamp : (if false = false ∧ (dinOf sfs ino).size < offset + len then (dinOf sfs ino).size
        else offset + len) = min (dinOf sfs ino).size (offset + len) := by
      simp only [true_and]
      split
      · omega
      · omega
    rw [hclamp] at hrun
    have hblocks := hsized ino (h.loaded ino hin) htype
    have hend := le_blocksFor (dinOf sfs ino).size
    rw [← hblocks] at hend
    have hpieces := @pieces_read sfs usage ino offset buf
      (min (dinOf sfs ino).size (offset + len)) (fun _ _ => False) h hin (by omega)
    have hreading : Reading sfs ino buf offset { buf := buf, alen := 0 } sfs :=
      ⟨rfl, fun k hk => absurd hk (Nat.not_lt_zero k), fun _ _ => rfl⟩
    rcases ioPhases_finishes hpieces hreading rfl (by omega) with
      ⟨io, t, heq, ⟨rfl, hfilled, hrest⟩, hdone⟩ | ⟨io, t, heq, hfalse⟩
    · refine ⟨io, ?_, ?_, hrest⟩
      · rw [hrun, ioBody_eq heq (ioFinish_of_le hin (by omega))]
      · have halen : io.alen = min len ((dinOf t ino).size - offset) := by omega
        rw [contents, window_tabulate, ← halen]
        exact tabulate_congr hfilled
    · exact hfalse.elim
  · have hrun : sfsIoNolock ino buf offset len false sfs =
        .ok (.ok (.ok (), { buf := buf, alen := 0 }), sfs) := by
      rcases Nat.eq_zero_or_pos len with rfl | hpos
      · exact sfsIoNolock_empty hin htype buf false (by omega)
      · exact sfsIoNolock_past_end hin htype buf hlen (by omega)
    refine ⟨_, hrun, ?_, fun _ _ => rfl⟩
    have hnone' : min len ((dinOf sfs ino).size - offset) = 0 := by omega
    rw [contents, window_tabulate, hnone']
    rfl

/-- `sfs_io_nolock` is reading and writing of a byte array. -/
theorem sfsIoNolock_refines (h : WellFormed sfs usage) (hsized : Sized sfs usage)
    (hin : ino ∈ sfs.inodeList) (htype : (dinOf sfs ino).type = SFS_TYPE_FILE) (buf : Bytes)
    (hoffset : offset ≤ (dinOf sfs ino).size) (hlen : offset + len ≤ maxBlocks * SFS_BLKSIZE) :
    WritesBytes sfs usage ino buf offset len ∧ ReadsBytes sfs ino buf offset len :=
  ⟨writesBytes h hsized hin htype buf hoffset hlen, readsBytes h hsized hin htype buf hlen⟩

theorem sized_smallFs : Sized smallFs smallUsage := by
  rintro f (rfl | rfl) hregular
  · rw [dinOf_smallFs_root] at hregular
    cases hregular
  · rw [dinOf_smallFs]
    decide

/-- A write over the last byte of the small file into a new block, and a read
that is cut at the end of the file. -/
theorem sfsIoNolock_refines_smallFs :
    WritesBytes smallFs smallUsage 3 (fun _ => 7) 99 5000 ∧ ReadsBytes smallFs 3 zeros 99 5000 :=
  ⟨(sfsIoNolock_refines wellFormed_smallFs sized_smallFs (by decide) (by rw [dinOf_smallFs]; rfl)
      (fun _ => 7) (by rw [dinOf_smallFs]; decide) (by decide)).1,
    (sfsIoNolock_refines wellFormed_smallFs sized_smallFs (by decide) (by rw [dinOf_smallFs]; rfl)
      zeros (by rw [dinOf_smallFs]; decide) (by decide)).2⟩

end Refinement

end Ucore.SfsIoRefinement
