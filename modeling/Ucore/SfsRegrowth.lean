import Ucore.SfsTransfers

/-! Bytes of a regular file that have been past its end, in runs of writes and truncations. -/

namespace Ucore.SfsRegrowth

open Ucore.Errors
open Ucore.KernelRoutine
open Ucore.ByteBuffer
open Ucore.SfsDisk
open Ucore.SfsOwnership
open Ucore.SfsIo
open Ucore.SfsIoPhases
open Ucore.SfsIoRange
open Ucore.SfsIoRefinement
open Ucore.SfsFaults
open Ucore.SfsDirtyInode
open Ucore.SfsRuns
open Ucore.SfsCapacity
open Ucore.SfsGaps
open Ucore.SfsTransfers

/-- The byte at `k` in the blocks of the file; 0 where it has no block. -/
def heldByte (sfs : SfsFs) (ino k : Nat) : UInt8 :=
  if k / SFS_BLKSIZE < (dinOf sfs ino).blocks then byteAt sfs ino k else 0

variable {usage : Usage} {ino : Nat} {sfs sfs' t t' : SfsFs} {buf : Bytes}

theorem held_of_opened (h : Opened usage ino sfs) : Held ino sfs := by
  refine ⟨⟨usage, ?_⟩, h.2⟩
  rw [calm_of_steady h.1.freemap.steady]
  exact h.1

theorem heldByte_finished {n : Nat} (h : Finished t t' usage ino n) (k : Nat) :
    heldByte t' ino k = heldByte t ino k := by
  rw [heldByte, heldByte, h.din, h.bytes k]

section Pieces

variable {offset endpos alen : Nat}

/-- New blocks hold zeros, so that what has been put into the file is all that changes. -/
theorem heldByte_put (h : Put sfs t ino buf offset alen) {k : Nat}
    (hout : ¬(offset ≤ k ∧ k < offset + alen)) : heldByte t ino k = heldByte sfs ino k := by
  rw [heldByte]
  by_cases hmapped : k / SFS_BLKSIZE < (dinOf t ino).blocks
  · rw [if_pos hmapped, h.bytes k hmapped, if_neg hout]
    rfl
  · have hwas : ¬k / SFS_BLKSIZE < (dinOf sfs ino).blocks :=
      fun hlt => hmapped (lt_of_lt_of_le hlt h.blocks)
    rw [if_neg hmapped, heldByte, if_neg hwas]

/-- What holds of a read that is under way; it may have added blocks. -/
structure Gathered (sfs : SfsFs) (ino offset : Nat) (io : Transfer) (t : SfsFs) : Prop where
  put : Put sfs t ino zeros offset 0
  filled : ∀ k, k < io.alen → io.buf k = heldByte sfs ino (offset + k)

theorem ioPiece_gathers (hlt : offset < endpos) {j : Nat} (hj : offset / SFS_BLKSIZE ≤ j)
    (hend : j < blocksFor endpos) {io : Transfer} (h : Gathered sfs ino offset io t)
    (halen : io.alen = bytesBelow offset endpos j) {r : Except Errno Unit} {io' : Transfer}
    (heq : ioPiece ino offset endpos false j io t = .ok (.ok (r, io'), t')) :
    Gathered sfs ino offset io' t' ∧
      (r = .ok () ∧ io'.alen = bytesBelow offset endpos (j + 1) ∨
        ∃ e, r = .error e ∧ io'.alen = io.alen) := by
  have hplace := offset_add_bytesBelow hlt hend
  have hnext := bytesBelow_succ hj hlt
  obtain ⟨_, hroom⟩ := @pieceStart_room offset endpos j hj
  rw [← halen] at hplace hnext
  rw [ioPiece_eq, ioStep] at heq
  obtain ⟨r₀, t₀, hload, hrest⟩ := attempt_bind_eq_ok_iff.mp heq
  obtain ⟨hput, hblock⟩ := sfsBmapLoadNolock_puts h.put hload
  rcases r₀ with e | b
  · cases hrest
    exact ⟨⟨hput, h.filled⟩, .inr ⟨e, rfl, rfl⟩⟩
  obtain ⟨hreach, rfl⟩ := hblock b rfl
  obtain ⟨usage, hwf⟩ := hput.wf
  obtain ⟨hne, huse⟩ : fileBlock t₀ ino j ≠ 0 ∧ InUse t₀ (fileBlock t₀ ino j) :=
    @inUse_data (calm t₀) usage hwf ino j (hwf.loaded ino hput.loaded) hreach
  change (attempt (pieceOp offset endpos false j io.buf io.alen (fileBlock t₀ ino j)) >>= fun _ => _)
    t₀ = _ at hrest
  obtain ⟨r₁, t₁, hread, hlast⟩ := attempt_bind_eq_ok_iff.mp hrest
  have hfit : Fitting t₀ := hwf.freemap.steady.blocks_le
  rcases @pieceOp_read_tries _ offset endpos j hj hfit io.buf io.alen _ hne huse.1 with
    ⟨_, hrun⟩ | ⟨n, e, _, _, _, hrun⟩
  · rw [hrun] at hread
    cases hread
    cases hlast
    refine ⟨⟨hput.passed _, fun i hi => ?_⟩, .inl ⟨rfl, hnext.symm⟩⟩
    rcases lt_or_ge i io.alen with hold | hnew
    · have hout : ¬(io.alen ≤ i ∧ i < io.alen + pieceSize offset endpos j) := by omega
      rw [← h.filled i hold]
      exact copyBytes_of_not_mem hout
    · have hoff : offset + i = pieceStart offset j + (i - io.alen) + SFS_BLKSIZE * j := by
        rw [Nat.mul_comm SFS_BLKSIZE j]
        omega
      have hin : pieceStart offset j + (i - io.alen) < SFS_BLKSIZE := by
        have hi' : i < io.alen + pieceSize offset endpos j := hi
        omega
      have hhere : (offset + i) / SFS_BLKSIZE = j := by
        rw [hoff, Nat.add_mul_div_left _ _ (by decide), Nat.div_eq_of_lt hin, Nat.zero_add]
      have hbyte : byteAt t₀ ino (offset + i) =
          t₀.dev.block (fileBlock t₀ ino j) (pieceStart offset j + (i - io.alen)) := by
        rw [byteAt, hhere, hoff, Nat.add_mul_mod_self_left, Nat.mod_eq_of_lt hin]
      have hsame := hput.bytes (offset + i) (by rw [hhere]; exact hreach)
      rw [if_neg (by omega), hbyte] at hsame
      exact (copyBytes_of_mem hnew hi).trans hsame
  · rw [hrun] at hread
    cases hread
    cases hlast
    exact ⟨⟨hput.passed _, h.filled⟩, .inr ⟨e, rfl, rfl⟩⟩

theorem ioRange_gathers (hlt : offset < endpos) (n : Nat) :
    ∀ j t (io : Transfer) (r : Except Errno Unit) (io' : Transfer) t', offset / SFS_BLKSIZE ≤ j →
      j + n ≤ blocksFor endpos → Gathered sfs ino offset io t →
      io.alen = bytesBelow offset endpos j →
      ioRange ino offset endpos false n j io t = .ok (.ok (r, io'), t') →
      Gathered sfs ino offset io' t' ∧ io'.alen ≤ endpos - offset := by
  induction n with
  | zero =>
      intro j t io r io' t' _ _ h halen heq
      cases heq
      refine ⟨h, ?_⟩
      rw [halen]
      exact bytesBelow_le hlt j
  | succ n ih =>
      intro j t io r io' t' hj hend h halen heq
      rw [ioRange, andContinue] at heq
      rcases bind_eq_ok_iff.mp heq with ⟨⟨r₀, io₀⟩, t₀, hpiece, hrest⟩ | ⟨e, _, hr⟩
      · obtain ⟨hgathered, hresult⟩ := ioPiece_gathers hlt hj (by omega) h halen hpiece
        rcases hresult with ⟨rfl, halen₀⟩ | ⟨e, rfl, halen₀⟩
        · exact ih (j + 1) t₀ io₀ r io' t' (by omega) (by omega) hgathered halen₀ hrest
        · cases hrest
          refine ⟨hgathered, ?_⟩
          rw [halen₀, halen]
          exact bytesBelow_le hlt j
      · cases hr

/-- The bytes that a read gives. -/
theorem ioBody_gathers (h : Held ino sfs) (hlt : offset < endpos) {r : Except Errno Unit}
    {io : Transfer} (heq : ioBody ino offset endpos false buf sfs = .ok (.ok (r, io), sfs')) :
    io.alen ≤ endpos - offset ∧
      ∀ k, k < io.alen → io.buf k = heldByte sfs ino (offset + k) := by
  obtain ⟨_, _, _, t, hres, hrange, _⟩ := ioBody_returned h hlt heq
  cases hres
  have hstart : ({ buf := buf, alen := 0 } : Transfer).alen =
      bytesBelow offset endpos (offset / SFS_BLKSIZE) := (bytesBelow_first offset endpos).symm
  have hgathered : Gathered sfs ino offset { buf := buf, alen := 0 } sfs :=
    ⟨Put.start h zeros offset, fun k hk => absurd hk (Nat.not_lt_zero k)⟩
  have hsum : offset / SFS_BLKSIZE + (blocksFor endpos - offset / SFS_BLKSIZE) =
      blocksFor endpos := Nat.add_sub_cancel' (le_of_lt (lt_blocksFor hlt))
  obtain ⟨hdone, hle⟩ := ioRange_gathers hlt _ _ _ _ _ _ _ le_rfl (le_of_eq hsum) hgathered hstart
    hrange
  exact ⟨hle, hdone.filled⟩

end Pieces

section Transfers

variable {pos : Int} {len : Nat} {write : Bool} {r : Except Errno Unit} {iob : Iobuf}

theorem ioExtent_range {din : SfsDiskInode} {offset endpos : Nat}
    (h : ioExtent din pos len write = some (offset, endpos)) :
    0 ≤ pos ∧ offset = pos.toNat ∧ endpos ≤ SFS_MAX_FILE_SIZE ∧ endpos ≤ offset + len := by
  simp only [ioExtent] at h
  split at h
  · cases h
  next hrange =>
  split at h
  · cases h
  next hne =>
  split at h
  · cases h
  simp only [not_or, not_lt, not_le] at hrange
  obtain ⟨hpos, hmax, hforward⟩ := hrange
  obtain ⟨offset, rfl⟩ := Int.eq_ofNat_of_zero_le hpos
  simp only [Option.some.injEq, Prod.mk.injEq, Int.toNat_natCast] at h
  obtain ⟨rfl, rfl⟩ := h
  obtain ⟨_, hclip⟩ := ioEnd_eq_clip (Int.ofNat_lt.mp hmax) (lt_of_le_of_ne hforward hne)
  have hend := ioEnd_le offset len
  have hlast : ioEnd offset len ≤ SFS_MAX_FILE_SIZE := by
    unfold ioEnd
    generalize SFS_MAX_FILE_SIZE = m
    omega
  rw [hclip]
  refine ⟨Int.natCast_nonneg offset, rfl, ?_, ?_⟩
  · split
    · next hshort => exact le_trans (le_of_lt hshort.2) hlast
    · exact hlast
  · split
    · next hshort => exact le_trans (le_of_lt hshort.2) hend
    · exact hend

/-- A call of `sfs_io` that returns moves nothing, or goes through its body. -/
theorem sfsIo_cases (hfile : (sfs.inode ino).din.type ≠ SFS_TYPE_DIR)
    (hle : ∀ offset endpos r io t, endpos ≤ offset + len → offset < endpos →
      ioBody ino offset endpos write buf sfs = .ok (.ok (r, io), t) → io.alen ≤ endpos - offset)
    (heq : sfsIo ino (iobufInit buf len pos) write sfs = .ok (.ok (r, iob), sfs')) :
    (sfs' = sfs ∧ iobufUsed iob = 0) ∨
      ∃ endpos io, 0 ≤ pos ∧ pos.toNat < endpos ∧ endpos ≤ SFS_MAX_FILE_SIZE ∧
        ioBody ino pos.toNat endpos write buf sfs = .ok (.ok (r, io), sfs') ∧
        iobufUsed iob = io.alen ∧ iob.buf = io.buf := by
  have hnolock := @sfsIoNolock_eq sfs ino buf pos len hfile write
  cases hextent : ioExtent (sfs.inode ino).din pos len write with
  | none =>
      rw [hextent] at hnolock
      obtain ⟨iob₀, hrun, hused, _⟩ := sfsIo_of_nolock hnolock (Nat.zero_le _)
      rw [hrun] at heq
      cases heq
      exact .inl ⟨rfl, hused⟩
  | some range =>
      obtain ⟨offset, endpos⟩ := range
      have hlt := ioExtent_lt hextent
      obtain ⟨hpos, rfl, hmax, hend⟩ := ioExtent_range hextent
      rw [hextent] at hnolock
      have hnolock : sfsIoNolock ino buf pos len write sfs =
          ioBody ino pos.toNat endpos write buf sfs := hnolock
      cases hbody : ioBody ino pos.toNat endpos write buf sfs with
      | error a =>
          rw [sfsIo_of_nolock_abort (hnolock.trans hbody)] at heq
          cases heq
      | ok out =>
          obtain ⟨res, t⟩ := out
          rcases res with e | ⟨r₀, io⟩
          · rw [hbody, ← iobufInit_bytes buf len pos] at hnolock
            have hfails : sfsIo ino (iobufInit buf len pos) write sfs = .ok (.error e, t) :=
              bind_of_error hnolock
            rw [hfails] at heq
            cases heq
          · have hbound := hle _ _ _ _ _ hend hlt hbody
            obtain ⟨iob₀, hrun, hused, hsame⟩ := sfsIo_of_nolock (hnolock.trans hbody) (by omega)
            rw [hrun] at heq
            cases heq
            exact .inr ⟨endpos, io, hpos, hlt, hmax, hbody, hused, hsame⟩

/-- A read gives the bytes that the blocks of the file hold. -/
theorem sfsIo_gathers (h : Held ino sfs) (hregular : (dinOf sfs ino).type = SFS_TYPE_FILE)
    (heq : sfsIo ino (iobufInit buf len pos) false sfs = .ok (.ok (r, iob), sfs')) {k : Nat}
    (hk : k < iobufUsed iob) : iob.buf k = heldByte sfs ino (pos.toNat + k) := by
  rcases sfsIo_cases (not_directory h.loaded hregular)
      (fun _ _ _ _ _ _ hlt hbody => (ioBody_gathers h hlt hbody).1) heq with
    ⟨_, hnone⟩ | ⟨endpos, io, _, hlt, _, hbody, hused, hsame⟩
  · omega
  · rw [hsame]
    exact (ioBody_gathers h hlt hbody).2 k (by omega)

/-- What a write leaves of the file. -/
structure Overwritten (sfs sfs' : SfsFs) (ino offset alen : Nat) : Prop where
  type : (dinOf sfs' ino).type = (dinOf sfs ino).type
  size : (dinOf sfs ino).size ≤ (dinOf sfs' ino).size
  reached : alen ≠ 0 → offset + alen ≤ (dinOf sfs' ino).size
  held : ∀ k, ¬(offset ≤ k ∧ k < offset + alen) → heldByte sfs' ino k = heldByte sfs ino k

theorem sfsIo_overwrites (h : Opened usage ino sfs)
    (hregular : (dinOf sfs ino).type = SFS_TYPE_FILE)
    (heq : sfsIo ino (iobufInit buf len pos) true sfs = .ok (.ok (r, iob), sfs')) :
    Overwritten sfs sfs' ino pos.toNat (iobufUsed iob) := by
  have hheld := held_of_opened h
  have hle : ∀ offset endpos r io t, offset < endpos →
      ioBody ino offset endpos true buf sfs = .ok (.ok (r, io), t) →
      io.alen ≤ endpos - offset := by
    intro offset endpos r io t hlt hbody
    obtain ⟨_, _, _, _, hres, hrange, _⟩ := ioBody_returned hheld hlt hbody
    cases hres
    exact (ioRange_puts_all hheld hlt hrange).2.1
  rcases sfsIo_cases (not_directory hheld.loaded hregular)
      (fun offset endpos r io t _ hlt hbody => hle offset endpos r io t hlt hbody) heq with
    ⟨rfl, hnone⟩ | ⟨endpos, io, _, hlt, hmax, hbody, hused, _⟩
  · exact ⟨rfl, le_rfl, fun hsome => absurd hnone hsome, fun _ _ => rfl⟩
  · rw [hused]
    have hbound := hle _ _ _ _ _ hlt hbody
    obtain ⟨_, _, _, t, hres, hrange, hfinish⟩ := ioBody_returned hheld hlt hbody
    cases hres
    obtain ⟨hput, _, _⟩ := ioRange_puts_all hheld hlt hrange
    obtain ⟨usage, hwf⟩ := hput.wf
    have hword : pos.toNat + io.alen < 2 ^ 32 := by
      unfold SFS_MAX_FILE_SIZE at hmax
      omega
    obtain ⟨t', hrun, hfinished⟩ := ioFinish_held hwf hput.loaded hword
    rw [hrun] at hfinish
    cases hfinish
    have hdin : dinOf sfs' ino =
        { dinOf t ino with size := max (dinOf t ino).size (pos.toNat + io.alen) } := hfinished.din
    constructor
    case type =>
      rw [hdin]
      exact hput.type
    case size =>
      rw [hdin, ← hput.size]
      exact le_max_left _ _
    case reached =>
      intro _
      rw [hdin]
      exact le_max_right _ _
    case held =>
      intro k hout
      have hsame : heldByte sfs' ino k = heldByte t ino k := heldByte_finished hfinished k
      rw [hsame, heldByte_put hput hout]

end Transfers

section Truncation

variable {len : Int} {r : Except Errno Unit}

/-- What `sfs_truncfile` leaves of the file. -/
structure Truncated (sfs sfs' : SfsFs) (ino : Nat) (len : Int) : Prop where
  type : (dinOf sfs' ino).type = (dinOf sfs ino).type
  held : ∀ k, heldByte sfs' ino k =
    if k / SFS_BLKSIZE < (dinOf sfs' ino).blocks then heldByte sfs ino k else 0
  size : (dinOf sfs' ino).size = (dinOf sfs ino).size ∨
    (dinOf sfs' ino).size = len.toNat ∧ (dinOf sfs' ino).blocks = blocksFor len.toNat

theorem Truncated.refl (sfs : SfsFs) (ino : Nat) (len : Int) : Truncated sfs sfs ino len where
  type := rfl
  held k := by
    split
    · rfl
    · next hmapped => exact if_neg hmapped
  size := .inl rfl

/-- The loop of `sfs_truncfile` that enlarges a file. -/
theorem truncGrow_puts {offset : Nat} (n : Nat) : ∀ nblks t (r : Except Errno Unit) t',
    Put sfs t ino buf offset 0 → truncGrow ino n nblks t = .ok (r, t') →
      Put sfs t' ino buf offset 0 := by
  induction n with
  | zero =>
      intro nblks t r t' h heq
      cases heq
      exact h
  | succ n ih =>
      intro nblks t r t' h heq
      rw [truncGrow] at heq
      rcases bind_eq_ok_iff.mp heq with ⟨b, t₁, hload, hrest⟩ | ⟨e, hload, _⟩
      · exact ih (nblks + 1) t₁ r t' (sfsBmapLoadNolock_puts h hload).1 hrest
      · exact (sfsBmapLoadNolock_puts h hload).1

/-- The blocks that `sfs_truncfile` adds hold zeros, and those that it keeps are as they were. -/
structure Resized (sfs t : SfsFs) (ino : Nat) : Prop where
  type : (dinOf t ino).type = (dinOf sfs ino).type
  size : (dinOf t ino).size = (dinOf sfs ino).size
  held : ∀ k, heldByte t ino k =
    if k / SFS_BLKSIZE < (dinOf t ino).blocks then heldByte sfs ino k else 0

theorem resized_of_put {offset : Nat} (h : Put sfs t ino buf offset 0) : Resized sfs t ino where
  type := h.type
  size := h.size
  held k := by
    have hsame : heldByte t ino k = heldByte sfs ino k := heldByte_put h (by omega)
    split
    · exact hsame
    · next hout => exact if_neg hout

theorem resized_of_cut {n : Nat} (hn : n ≤ (dinOf sfs ino).blocks) (h : CutTo usage ino n sfs t) :
    Resized sfs t ino where
  type := h.type
  size := h.size
  held k := by
    rw [heldByte]
    split
    · next hkept =>
        rw [h.blocks] at hkept
        rw [h.bytes k hkept, heldByte, if_pos (lt_of_lt_of_le hkept hn)]
    · rfl

theorem truncResize_resizes {tblks : Nat} (h : Opened usage ino sfs)
    (heq : truncResize ino tblks sfs = .ok (r, t)) : Resized sfs t ino := by
  have hdin : dinOf sfs ino = (sfs.inode ino).din := dinOf_loaded h.2
  rw [truncResize, getState_bind, ← hdin] at heq
  rcases Nat.lt_or_ge (dinOf sfs ino).blocks tblks with hgrow | hshrink
  · simp only [if_pos hgrow] at heq
    exact resized_of_put (truncGrow_puts _ _ _ _ _ (Put.start (held_of_opened h) zeros 0) heq)
  · simp only [if_neg (not_lt.mpr hshrink)] at heq
    obtain ⟨t₁, hrun, hcut⟩ := truncShrink_cuts ((dinOf sfs ino).blocks - tblks) sfs h.1 h.2
      (Nat.sub_le _ _)
    rw [hrun] at heq
    cases heq
    exact resized_of_cut (Nat.sub_le _ _) hcut

theorem sfsTruncfile_truncates (h : Opened usage ino sfs)
    (heq : sfsTruncfile ino len sfs = .ok (r, sfs')) : Truncated sfs sfs' ino len := by
  rw [sfsTruncfile] at heq
  split at heq
  · cases heq
    exact Truncated.refl sfs ino len
  rw [getState_bind] at heq
  split at heq
  · rw [KernelRoutine.ensure] at heq
    split at heq
    · cases heq
      exact Truncated.refl sfs ino len
    · cases heq
  rcases bind_eq_ok_iff.mp heq with ⟨_, t, hrun, hrest⟩ | ⟨e, hrun, rfl⟩
  · have hresized := truncResize_resizes h hrun
    have ht : Opened usage ino t := preserves_truncResize _ _ _ _ h hrun
    have hdin : dinOf t ino = (t.inode ino).din := dinOf_loaded ht.2
    rw [getState_bind, ← hdin] at hrest
    by_cases hblocks : (dinOf t ino).blocks = (len.toNat + SFS_BLKSIZE - 1) / SFS_BLKSIZE
    · rw [ensure_bind_of hblocks] at hrest
      have hfinished := finished_setInode ht.1 ht.2 len.toNat true
      rw [hdin] at hfinished
      cases hrest
      have hdin' := hfinished.din
      constructor
      case type =>
        rw [hdin']
        exact hresized.type
      case held =>
        intro k
        rw [heldByte_finished hfinished k, hresized.held k, hdin']
      case size =>
        rw [hdin']
        exact .inr ⟨rfl, hblocks⟩
    · rw [ensure_bind_of_not hblocks] at hrest
      cases hrest
  · have hresized := truncResize_resizes h hrun
    exact ⟨hresized.type, hresized.held, .inl hresized.size⟩

end Truncation

section Runs

/-- The positions past the end of the file. -/
def beyond (sfs : SfsFs) (ino : Nat) : Set Nat :=
  {k | (dinOf sfs ino).size ≤ k}

/-- The positions of `n` bytes from `pos` on. -/
def written (pos : Int) (n : Nat) : Set Nat :=
  {k | pos.toNat ≤ k ∧ k < pos.toNat + n}

inductive Call where
  | write (buf : Bytes) (len : Nat) (pos : Int)
  | truncfile (len : Int)

/-- The file system, and the positions that have been past the end of the file and have not
been written since. -/
structure Moment where
  sfs : SfsFs
  pending : Set Nat

def Moment.start (sfs : SfsFs) (ino : Nat) : Moment where
  sfs := sfs
  pending := beyond sfs ino

inductive Step (ino : Nat) (m : Moment) : Call → Moment → Prop
  | write {buf : Bytes} {len : Nat} {pos : Int} {r : Except Errno Unit} {iob : Iobuf} {sfs : SfsFs}
      (heq : sfsIo ino (iobufInit buf len pos) true m.sfs = .ok (.ok (r, iob), sfs)) :
      Step ino m (.write buf len pos)
        ⟨sfs, m.pending \ written pos (iobufUsed iob) ∪ beyond sfs ino⟩
  | truncfile {len : Int} {r : Except Errno Unit} {sfs : SfsFs}
      (heq : sfsTruncfile ino len m.sfs = .ok (r, sfs)) :
      Step ino m (.truncfile len) ⟨sfs, m.pending ∪ beyond sfs ino⟩

/-- Calls on the file that return, each one allowed where it is made. -/
inductive Run (ino : Nat) (allowed : SfsFs → Call → Prop) : Moment → List Call → Moment → Prop
  | nil (m : Moment) : Run ino allowed m [] m
  | cons {m m' m'' : Moment} {call : Call} {calls : List Call} (hallowed : allowed m.sfs call)
      (hstep : Step ino m call m') (hrest : Run ino allowed m' calls m'') :
      Run ino allowed m (call :: calls) m''

/-- Where the call cuts the file, it finds zeros in the block that stays. -/
def Call.Clears (ino : Nat) (sfs : SfsFs) : Call → Prop
  | .write _ _ _ => True
  | .truncfile len => ∀ k, len.toNat ≤ k → k < (dinOf sfs ino).size →
      k / SFS_BLKSIZE < blocksFor len.toNat → heldByte sfs ino k = 0

/-- Every read that gives the byte at `k` gives 0. -/
def ReadsZero (ino k : Nat) (sfs : SfsFs) : Prop :=
  ∀ (buf : Bytes) len (pos : Int) r iob sfs' i,
    sfsIo ino (iobufInit buf len pos) false sfs = .ok (.ok (r, iob), sfs') →
      i < iobufUsed iob → pos.toNat + i = k → iob.buf i = 0

/-- Cutting the file between two blocks is fine. -/
theorem clears_of_dvd {len : Int} (h : SFS_BLKSIZE ∣ len.toNat) :
    (Call.truncfile len).Clears ino sfs := by
  intro k hk _ hblock
  obtain ⟨n, hn⟩ := h
  rw [hn] at hk hblock
  have hkept : blocksFor (SFS_BLKSIZE * n) ≤ n :=
    blocksFor_le (le_of_eq (Nat.mul_comm SFS_BLKSIZE n))
  have hafter : n ≤ k / SFS_BLKSIZE := (Nat.le_div_iff_mul_le (by decide)).mpr (by
    rw [Nat.mul_comm]
    exact hk)
  omega

/-- What holds at every moment of such a run. -/
structure Clean (usage : Usage) (ino : Nat) (m : Moment) : Prop where
  opened : Opened usage ino m.sfs
  regular : (dinOf m.sfs ino).type = SFS_TYPE_FILE
  zeros : ∀ k ∈ m.pending, heldByte m.sfs ino k = 0
  past : ∀ k ∈ beyond m.sfs ino, k ∈ m.pending

variable {m m' : Moment}

theorem clean_of_step {call : Call} (h : Clean usage ino m) (hclears : call.Clears ino m.sfs)
    (hstep : Step ino m call m') : Clean usage ino m' := by
  cases hstep with
  | @write buf len pos r iob sfs heq =>
      have hwrite := sfsIo_overwrites h.opened h.regular heq
      constructor
      case opened => exact preserves_sfsIo _ _ _ _ _ h.opened heq
      case regular => exact hwrite.type.trans h.regular
      case zeros =>
        rintro k (⟨hk, hout⟩ | hpast)
        · rw [hwrite.held k hout]
          exact h.zeros k hk
        · have hwas : (dinOf m.sfs ino).size ≤ k := le_trans hwrite.size hpast
          have hout : ¬(pos.toNat ≤ k ∧ k < pos.toNat + iobufUsed iob) := by
            rintro ⟨hfrom, hbelow⟩
            have hreached := hwrite.reached (by omega)
            have hpast' : (dinOf sfs ino).size ≤ k := hpast
            omega
          rw [hwrite.held k hout]
          exact h.zeros k (h.past k hwas)
      case past => exact fun k hk => .inr hk
  | @truncfile len r sfs heq =>
      have htrunc := sfsTruncfile_truncates h.opened heq
      have hkept : ∀ k, heldByte m.sfs ino k = 0 → heldByte sfs ino k = 0 := by
        intro k hzero
        rw [htrunc.held k]
        split
        · exact hzero
        · rfl
      constructor
      case opened => exact preserves_sfsTruncfile _ _ _ _ h.opened heq
      case regular => exact htrunc.type.trans h.regular
      case zeros =>
        rintro k (hk | hpast)
        · exact hkept k (h.zeros k hk)
        · have hpast : (dinOf sfs ino).size ≤ k := hpast
          rcases Nat.lt_or_ge k (dinOf m.sfs ino).size with hcut | hwas
          · rcases htrunc.size with hsame | ⟨hsize, hblocks⟩
            · omega
            · by_cases hstays : k / SFS_BLKSIZE < blocksFor len.toNat
              · exact hkept k (hclears k (by omega) hcut hstays)
              · rw [htrunc.held k, hblocks, if_neg hstays]
          · exact hkept k (h.zeros k (h.past k hwas))
      case past => exact fun k hk => .inr hk

theorem clean_of_run {calls : List Call} (h : Clean usage ino m)
    (hrun : Run ino (fun sfs call => call.Clears ino sfs) m calls m') : Clean usage ino m' := by
  induction hrun with
  | nil m => exact h
  | cons hclears hstep _ ih => exact ih (clean_of_step h hclears hstep)

/-- Growing the file shows only zeros, if it starts with zeros past its end and every
truncation leaves zeros there. -/
theorem readsZero_of_run {calls : List Call} (h : Opened usage ino sfs)
    (hregular : (dinOf sfs ino).type = SFS_TYPE_FILE)
    (hzeros : ∀ k ∈ beyond sfs ino, heldByte sfs ino k = 0)
    (hrun : Run ino (fun sfs call => call.Clears ino sfs) (.start sfs ino) calls m) :
    ∀ k ∈ m.pending, ReadsZero ino k m.sfs := by
  intro k hk buf len pos r iob sfs' i heq hi hindex
  have hclean : Clean usage ino m :=
    clean_of_run (m := .start sfs ino) ⟨h, hregular, hzeros, fun _ hpast => hpast⟩ hrun
  rw [sfsIo_gathers (held_of_opened hclean.opened) hclean.regular heq hi, hindex]
  exact hclean.zeros k hk

/-- Cutting a file that has the blocks for the new length. -/
theorem sfsTruncfile_fits (h : Opened usage ino sfs) {len : Nat} (hne : (dinOf sfs ino).size ≠ len)
    (hmax : len ≤ SFS_MAX_FILE_SIZE) (hfit : blocksFor len ≤ (dinOf sfs ino).blocks) :
    ∃ t, sfsTruncfile ino len sfs = .ok (.ok (), t) ∧ (dinOf t ino).size = len ∧
      (dinOf t ino).blocks = blocksFor len ∧ (dinOf t ino).type = (dinOf sfs ino).type ∧
      ∀ k, k / SFS_BLKSIZE < blocksFor len → heldByte t ino k = heldByte sfs ino k := by
  have hdin : dinOf sfs ino = (sfs.inode ino).din := dinOf_loaded h.2
  obtain ⟨t, hrun, hcut⟩ := truncShrink_cuts ((dinOf sfs ino).blocks - blocksFor len) sfs h.1 h.2
    (Nat.sub_le _ _)
  have hresize : truncResize ino ((len + SFS_BLKSIZE - 1) / SFS_BLKSIZE) sfs = .ok (.ok (), t) := by
    rw [truncResize, getState_bind, ← hdin]
    exact (congrFun (if_neg (not_lt.mpr hfit)) sfs).trans hrun
  have hin : ino ∈ t.inodeList := by
    rw [hcut.loaded]
    exact h.2
  have hdin' : dinOf t ino = (t.inode ino).din := dinOf_loaded hin
  have hblocks : (t.inode ino).din.blocks = (len + SFS_BLKSIZE - 1) / SFS_BLKSIZE := by
    rw [← hdin', hcut.blocks]
    exact Nat.sub_sub_self hfit
  have hrange : ¬((len : Int) < 0 ∨ (SFS_MAX_FILE_SIZE : Int) < len) := by
    generalize SFS_MAX_FILE_SIZE = m at hmax
    omega
  have heq : sfsTruncfile ino len sfs = .ok (.ok (),
      t.setInode ino { din := { (t.inode ino).din with size := len }, dirty := true }) := by
    rw [sfsTruncfile, if_neg hrange, getState_bind, Int.toNat_natCast, ← hdin]
    refine (congrFun (if_neg hne) sfs).trans ((bind_of_ok hresize).trans ?_)
    rw [getState_bind, ensure_bind_of hblocks]
    rfl
  have htrunc := sfsTruncfile_truncates h heq
  have hfinished := finished_setInode hcut.wf hin len true
  rw [hdin'] at hfinished
  have hsize := congrArg SfsDiskInode.size hfinished.din
  have hkept := congrArg SfsDiskInode.blocks hfinished.din
  rw [hcut.blocks, Nat.sub_sub_self hfit] at hkept
  refine ⟨_, heq, hsize, hkept, htrunc.type, fun k hk => ?_⟩
  rw [htrunc.held k, hkept, if_pos hk]

/-- Where a truncation does not leave zeros, the next one shows what it left. -/
theorem exposed_of_cut (h : Opened usage ino sfs) (hregular : (dinOf sfs ino).type = SFS_TYPE_FILE)
    (hcovered : (dinOf sfs ino).size ≤ (dinOf sfs ino).blocks * SFS_BLKSIZE) {len : Nat}
    (hnot : ¬(Call.truncfile len).Clears ino sfs) :
    ∃ k t t', sfsTruncfile ino len sfs = .ok (.ok (), t) ∧ k ∈ beyond t ino ∧
      sfsTruncfile ino (k + 1) t = .ok (.ok (), t') ∧ ¬ReadsZero ino k t' := by
  simp only [Call.Clears, not_forall, Int.toNat_natCast] at hnot
  obtain ⟨k, hk, hinside, hstays, hbyte⟩ := hnot
  have hbound : (dinOf sfs ino).size ≤ SFS_MAX_FILE_SIZE := by
    have hmax := h.1.blocks_max ino (h.1.loaded ino h.2)
    exact le_trans hcovered (le_trans (Nat.mul_le_mul_right _ hmax) (by decide))
  have hfit : blocksFor len ≤ (dinOf sfs ino).blocks :=
    blocksFor_le (le_trans (le_of_lt (lt_of_le_of_lt hk hinside)) hcovered)
  obtain ⟨t, hcut, hsize, hblocks, htype, hheld⟩ := sfsTruncfile_fits h (by omega) (by omega) hfit
  have ht : Opened usage ino t := preserves_sfsTruncfile _ _ _ _ h hcut
  have hagain : blocksFor (k + 1) = blocksFor len := by
    unfold blocksFor SFS_BLKSIZE at *
    omega
  obtain ⟨t', hgrow, hsize', hblocks', htype', hheld'⟩ := @sfsTruncfile_fits usage ino t ht (k + 1)
    (by omega) (by omega) (le_of_eq (hagain.trans hblocks.symm))
  have ht' : Opened usage ino t' := preserves_sfsTruncfile _ _ _ _ ht hgrow
  have hfile : RegularFile ino t' := by
    refine ⟨held_of_opened ht', (htype'.trans htype).trans hregular, ?_⟩
    rw [hsize', hblocks']
    exact le_blocksFor (k + 1)
  have hlast : k / SFS_BLKSIZE < (dinOf t' ino).blocks := by
    rw [hblocks', hagain]
    exact hstays
  refine ⟨k, t, t', hcut, ?_, by exact_mod_cast hgrow, fun hreads => hbyte ?_⟩
  · change (dinOf t ino).size ≤ k
    omega
  · obtain ⟨r, iob, s, hread, _, _, hbytes, hall⟩ := @sfsIo_gets t' ino 1 hfile (by decide) zeros k
    have hused := (hall ht'.1.freemap.steady).2
    have havailable : available t' ino k 1 = 1 := by
      rw [available, if_neg (by omega), hsize', Int.toNat_natCast]
      omega
    rw [havailable] at hused
    have hzero := hreads zeros 1 k r iob s 0 hread (by omega) (by simp)
    rw [hbytes 0 (by omega), Int.toNat_natCast, Nat.add_zero] at hzero
    rw [← hheld k hstays, ← hheld' k (by rw [hagain]; exact hstays), heldByte, if_pos hlast]
    exact hzero

/-- A byte is written at 50, the file is cut to `len`, and then grows to 51. -/
def regrown (len : Int) : List Call :=
  [.write (fun _ => 1) 1 50, .truncfile len, .truncfile 51]

/-- The states after the three calls on `smallFs`. -/
def regrownStates (len : Int) : Option (SfsFs × SfsFs × SfsFs) :=
  match sfsIo 3 (iobufInit (fun _ => 1) 1 50) true smallFs with
  | .ok (.ok _, s₁) =>
      match sfsTruncfile 3 len s₁ with
      | .ok (_, s₂) =>
          match sfsTruncfile 3 51 s₂ with
          | .ok (_, s₃) => some (s₁, s₂, s₃)
          | .error _ => none
      | .error _ => none
  | _ => none

theorem run_regrown {len : Int} {s₁ s₂ s₃ : SfsFs} (h : regrownStates len = some (s₁, s₂, s₃))
    {allowed : SfsFs → Call → Prop} (hwrite : allowed smallFs (.write (fun _ => 1) 1 50))
    (hcut : allowed s₁ (.truncfile len)) (hgrow : allowed s₂ (.truncfile 51)) {k : Nat}
    (hpast : (dinOf s₂ 3).size ≤ k) :
    ∃ m, Run 3 allowed (.start smallFs 3) (regrown len) m ∧ m.sfs = s₃ ∧ k ∈ m.pending := by
  rw [regrownStates] at h
  split at h
  · next r₁ t₁ hrun₁ =>
    obtain ⟨r₁, iob⟩ := r₁
    split at h
    · next r₂ t₂ hrun₂ =>
      split at h
      · next r₃ t₃ hrun₃ =>
        cases h
        exact ⟨_, .cons hwrite (.write hrun₁) (.cons hcut (.truncfile hrun₂)
          (.cons hgrow (.truncfile hrun₃) (.nil _))), rfl, .inl (.inr hpast)⟩
      · cases h
    · cases h
  · cases h

theorem regular_smallFs : (dinOf smallFs 3).type = SFS_TYPE_FILE := by
  rw [dinOf_smallFs]
  rfl

theorem heldByte_smallFs (k : Nat) : heldByte smallFs 3 k = 0 := by
  rw [heldByte, dinOf_smallFs]
  split
  · next hblock =>
      have hfirst : k / SFS_BLKSIZE = 0 := Nat.lt_one_iff.mp hblock
      rw [byteAt, hfirst, fileBlock_smallFs, if_pos rfl]
      rfl
  · rfl

theorem readsZero_regrown : ∃ m, Run 3 (fun sfs call => call.Clears 3 sfs) (.start smallFs 3)
    (regrown 0) m ∧ 50 ∈ m.pending ∧ ∀ k ∈ m.pending, ReadsZero 3 k m.sfs := by
  have hsome : ((regrownStates 0).map fun states => (dinOf states.2.1 3).size) = some 0 := by
    decide +kernel
  obtain ⟨⟨s₁, s₂, s₃⟩, hstates, hsize⟩ := Option.map_eq_some_iff.mp hsome
  have hsize : (dinOf s₂ 3).size = 0 := hsize
  have hgrow : (Call.truncfile 51).Clears 3 s₂ := by
    intro k _ hinside
    rw [hsize] at hinside
    exact absurd hinside (Nat.not_lt_zero k)
  obtain ⟨m, hrun, _, hpending⟩ := @run_regrown 0 s₁ s₂ s₃ hstates
    (fun sfs call => call.Clears 3 sfs) trivial (clears_of_dvd (dvd_zero _)) hgrow 50 (by omega)
  exact ⟨m, hrun, hpending,
    readsZero_of_run opened_smallFs regular_smallFs (fun k _ => heldByte_smallFs k) hrun⟩

/-- Whether the byte 50 is read, as 1. -/
def readsOne (sfs : SfsFs) : Bool :=
  match sfsIo 3 (iobufInit zeros 1 50) false sfs with
  | .ok (.ok (_, iob), _) => decide (iobufUsed iob = 1 ∧ iob.buf 0 = 1)
  | _ => false

/-- The byte at 50 is past the end of the file when it has been cut to ten bytes, and is read
as it was written when the file has grown again. -/
theorem exposed_regrown : Opened smallUsage 3 smallFs ∧
    (∀ k ∈ beyond smallFs 3, heldByte smallFs 3 k = 0) ∧
    ∃ m, Run 3 (fun _ _ => True) (.start smallFs 3) (regrown 10) m ∧ 50 ∈ m.pending ∧
      ¬ReadsZero 3 50 m.sfs := by
  have hsome : ((regrownStates 10).map fun states =>
      decide ((dinOf states.2.1 3).size = 10) && readsOne states.2.2) = some true := by
    decide +kernel
  obtain ⟨⟨s₁, s₂, s₃⟩, hstates, hboth⟩ := Option.map_eq_some_iff.mp hsome
  obtain ⟨hsize, hread⟩ := Bool.and_eq_true_iff.mp hboth
  have hsize : (dinOf s₂ 3).size = 10 := of_decide_eq_true hsize
  obtain ⟨m, hrun, rfl, hpending⟩ := @run_regrown 10 s₁ s₂ s₃ hstates (fun _ _ => True) trivial
    trivial trivial 50 (by omega)
  refine ⟨opened_smallFs, fun k _ => heldByte_smallFs k, m, hrun, hpending, fun hreads => ?_⟩
  rw [readsOne] at hread
  split at hread
  · next r iob s heq =>
    obtain ⟨hused, hbyte⟩ := of_decide_eq_true hread
    have hzero := hreads zeros 1 50 r iob s 0 heq (by omega) rfl
    rw [hzero] at hbyte
    exact absurd hbyte (by decide)
  · cases hread

end Runs

end Ucore.SfsRegrowth
