import Ucore.SfsCapacity
import Ucore.SfsRuns

/-! Writes and seeks past the end of a file, on a device that makes its transfers. -/

namespace Ucore.SfsGaps

open Ucore.Errors
open Ucore.Panic
open Ucore.KernelRoutine
open Ucore.ByteBuffer
open Ucore.Splice
open Ucore.SfsDisk
open Ucore.SfsBlockMap
open Ucore.SfsOwnership
open Ucore.SfsFileViews
open Ucore.SfsBlockMapGrow
open Ucore.SfsBlockMapShrink
open Ucore.SfsIo
open Ucore.SfsIoPhases
open Ucore.SfsIoRange
open Ucore.SfsIoRefinement
open Ucore.SfsDirtyInode
open Ucore.SfsRuns
open Ucore.SfsCapacity

/-- A regular file in memory. Its blocks cover its size, and hold nothing past it. -/
structure Whole (usage : Usage) (ino : Nat) (sfs : SfsFs) : Prop where
  wf : WellFormed sfs usage
  loaded : ino ∈ sfs.inodeList
  regular : (dinOf sfs ino).type = SFS_TYPE_FILE
  covered : (dinOf sfs ino).size ≤ (dinOf sfs ino).blocks * SFS_BLKSIZE
  tail : ∀ k, (dinOf sfs ino).size ≤ k → k / SFS_BLKSIZE < (dinOf sfs ino).blocks →
    byteAt sfs ino k = 0

variable {usage : Usage} {ino : Nat} {sfs sfs' t t' : SfsFs}

theorem Whole.opened (h : Whole usage ino sfs) : Opened usage ino sfs :=
  ⟨h.wf, h.loaded⟩

theorem Whole.blocks_max (h : Whole usage ino sfs) : (dinOf sfs ino).blocks ≤ maxBlocks :=
  h.wf.blocks_max ino (h.wf.loaded ino h.loaded)

theorem Whole.calm (h : Whole usage ino sfs) : WellFormed (SfsFaults.calm sfs) usage := by
  rw [calm_of_steady h.wf.freemap.steady]
  exact h.wf

theorem Whole.of_located {i b : Nat} (h : Whole usage ino sfs)
    (hlocated : Located sfs sfs' usage ino i b) : Whole usage ino sfs' where
  wf := hlocated.wf
  loaded := (h.opened.of_located hlocated).2
  regular := hlocated.type.trans h.regular
  covered := by
    rw [hlocated.size, hlocated.blocks]
    exact le_trans h.covered (Nat.mul_le_mul_right _ (le_max_left _ _))
  tail k hk hblock := by
    rw [hlocated.size] at hk
    rw [hlocated.bytes k hblock]
    split
    · next hwas => exact h.tail k hk hwas
    · rfl

theorem Whole.of_untouched (h : Whole usage ino sfs) (huntouched : Untouched sfs sfs' usage) :
    Whole usage ino sfs' := by
  have hkept := huntouched.kept ino (h.wf.loaded ino h.loaded)
  constructor
  case wf => exact huntouched.wf
  case loaded => exact (h.opened.of_untouched huntouched).2
  case regular =>
    rw [hkept.din]
    exact h.regular
  case covered =>
    rw [hkept.din]
    exact h.covered
  case tail =>
    intro k hk hblock
    rw [hkept.din] at hk hblock
    rw [byteAt_kept hkept h.blocks_max hblock]
    exact h.tail k hk hblock

section Resizing

/-- The loop of `sfs_truncfile` that enlarges a file. -/
theorem whole_truncGrow (n : Nat) : ∀ nblks t (r : Except Errno Unit) t', Whole usage ino t →
    truncGrow ino n nblks t = .ok (r, t') →
      Whole usage ino t' ∧ (dinOf t' ino).size = (dinOf t ino).size := by
  induction n with
  | zero =>
      intro nblks t r t' h heq
      rw [truncGrow] at heq
      cases heq
      exact ⟨h, rfl⟩
  | succ n ih =>
      intro nblks t r t' h heq
      rw [truncGrow] at heq
      rcases bind_eq_ok_iff.mp heq with ⟨b, t₁, hload, hrest⟩ | ⟨e, hload, rfl⟩
      · rcases sfsBmapLoadNolock_returns h.opened hload with ⟨_, _, hlocated⟩ | ⟨e, hr, _⟩
        · obtain ⟨hwhole, hsize⟩ := ih (nblks + 1) t₁ r t' (h.of_located hlocated) hrest
          exact ⟨hwhole, hsize.trans hlocated.size⟩
        · cases hr
      · rcases sfsBmapLoadNolock_returns h.opened hload with ⟨_, hr, _⟩ | ⟨_, _, huntouched⟩
        · cases hr
        · have hkept := huntouched.kept ino (h.wf.loaded ino h.loaded)
          exact ⟨h.of_untouched huntouched, by rw [hkept.din]⟩

/-- A file that has lost the blocks from `n` on. -/
structure CutTo (usage : Usage) (ino n : Nat) (sfs sfs' : SfsFs) : Prop where
  wf : WellFormed sfs' usage
  loaded : sfs'.inodeList = sfs.inodeList
  size : (dinOf sfs' ino).size = (dinOf sfs ino).size
  type : (dinOf sfs' ino).type = (dinOf sfs ino).type
  blocks : (dinOf sfs' ino).blocks = n
  bytes : ∀ k, k / SFS_BLKSIZE < n → byteAt sfs' ino k = byteAt sfs ino k

/-- The loop of `sfs_truncfile` that reduces a file. -/
theorem truncShrink_cuts (n : Nat) : ∀ t, WellFormed t usage → ino ∈ t.inodeList →
    n ≤ (dinOf t ino).blocks →
      ∃ t', truncShrink ino n t = .ok (.ok (), t') ∧
        CutTo usage ino ((dinOf t ino).blocks - n) t t' := by
  induction n with
  | zero =>
      intro t h _ _
      exact ⟨t, rfl, h, rfl, rfl, rfl, rfl, fun _ _ => rfl⟩
  | succ n ih =>
      intro t h hin hn
      have hmax := h.blocks_max ino (h.loaded ino hin)
      have hsucc : (dinOf t ino).blocks - 1 + 1 = (dinOf t ino).blocks := by omega
      obtain ⟨t₁, hrun, hshrunk⟩ := sfsBmapTruncateNolock_spec h hin hsucc
      have hblocks := hshrunk.blocks
      have hin₁ : ino ∈ t₁.inodeList := by
        rw [hshrunk.loaded]
        exact hin
      obtain ⟨t', heq, hcut⟩ := ih t₁ hshrunk.wf hin₁ (by omega)
      have hleft : (dinOf t₁ ino).blocks - n = (dinOf t ino).blocks - (n + 1) := by omega
      rw [hleft] at hcut
      refine ⟨t', (bind_of_ok hrun).trans heq, hcut.wf, hcut.loaded.trans hshrunk.loaded,
        hcut.size.trans hshrunk.size, hcut.type.trans hshrunk.type, hcut.blocks, ?_⟩
      intro k hk
      have hlt : k / SFS_BLKSIZE < (dinOf t₁ ino).blocks := by omega
      have hblock := hshrunk.block (k / SFS_BLKSIZE) (by omega)
      rw [if_neg (Nat.ne_of_lt hlt)] at hblock
      rw [hcut.bytes k hk, byteAt, hblock, hshrunk.data _ hlt]
      rfl

/-- The size is set at the end of `sfs_truncfile`. -/
theorem whole_setSize {n : Nat} (h : WellFormed t usage) (hin : ino ∈ t.inodeList)
    (htype : (dinOf t ino).type = SFS_TYPE_FILE) (hn : n ≤ (dinOf t ino).blocks * SFS_BLKSIZE)
    (htail : ∀ k, n ≤ k → k / SFS_BLKSIZE < (dinOf t ino).blocks → byteAt t ino k = 0)
    (dirty : Bool) :
    Whole usage ino (t.setInode ino { din := { dinOf t ino with size := n }, dirty := dirty }) := by
  have hfinished := finished_setInode h hin n dirty
  constructor
  case wf => exact hfinished.wf
  case loaded => exact hin
  case regular =>
    rw [hfinished.din]
    exact htype
  case covered =>
    rw [hfinished.din]
    exact hn
  case tail =>
    intro k hk hblock
    rw [hfinished.din] at hk hblock
    rw [hfinished.bytes k]
    exact htail k hk hblock

/-- The end of `sfs_truncfile`. -/
theorem whole_truncFinish {len : Nat} {r : Except Errno Unit} (h : WellFormed t usage)
    (hin : ino ∈ t.inodeList) (htype : (dinOf t ino).type = SFS_TYPE_FILE)
    (htail : ∀ k, len ≤ k → k / SFS_BLKSIZE < (dinOf t ino).blocks → byteAt t ino k = 0)
    (heq : (do
      let s ← getState
      ensure ((s.inode ino).din.blocks = (len + SFS_BLKSIZE - 1) / SFS_BLKSIZE)
      modifyInode ino fun si => { din := { si.din with size := len }, dirty := true } :
      Routine SfsFs Unit) t = .ok (r, t')) : Whole usage ino t' ∧ r = .ok () := by
  have hdin := @dinOf_loaded t ino hin
  rw [getState_bind] at heq
  by_cases hblocks : (t.inode ino).din.blocks = (len + SFS_BLKSIZE - 1) / SFS_BLKSIZE
  · rw [ensure_bind_of hblocks] at heq
    cases heq
    rw [← hdin] at hblocks
    have hlen : len ≤ (dinOf t ino).blocks * SFS_BLKSIZE := by
      rw [hblocks]
      exact le_blocksFor len
    have hwhole := whole_setSize h hin htype hlen htail true
    rw [hdin] at hwhole
    exact ⟨hwhole, rfl⟩
  · rw [ensure_bind_of_not hblocks] at heq
    cases heq

/-- A file that is emptied or enlarged stays whole; emptying it does not fail. -/
theorem whole_sfsTruncfile (h : Whole usage ino sfs) {len : Int} {r : Except Errno Unit}
    (hlen : len = 0 ∨ ((dinOf sfs ino).size : Int) < len)
    (heq : sfsTruncfile ino len sfs = .ok (r, sfs')) :
    Whole usage ino sfs' ∧ (len = 0 → r = .ok ()) := by
  have hdin := @dinOf_loaded sfs ino h.loaded
  rw [sfsTruncfile] at heq
  split at heq
  · next hrange =>
      cases heq
      refine ⟨h, fun hzero => ?_⟩
      rw [hzero] at hrange
      exact absurd hrange (by decide)
  next hrange =>
  rw [getState_bind] at heq
  split at heq
  · rw [KernelRoutine.ensure] at heq
    split at heq
    · cases heq
      exact ⟨h, fun _ => rfl⟩
    · cases heq
  rcases Nat.lt_or_ge (sfs.inode ino).din.blocks (blocksFor len.toNat) with hgrow | hshrink
  · have hlonger : (dinOf sfs ino).size ≤ len.toNat := by
      rcases hlen with rfl | hlt
      · exact absurd hgrow (Nat.not_lt_zero _)
      · omega
    have hresize : truncResize ino ((len.toNat + SFS_BLKSIZE - 1) / SFS_BLKSIZE) sfs =
        truncGrow ino (blocksFor len.toNat - (sfs.inode ino).din.blocks)
          (sfs.inode ino).din.blocks sfs := by
      rw [truncResize, getState_bind]
      exact congrFun (if_pos hgrow) sfs
    have hgrown := fun r t => @whole_truncGrow usage ino
      (blocksFor len.toNat - (sfs.inode ino).din.blocks) (sfs.inode ino).din.blocks sfs r t h
    have hpositive : len = 0 → False := by
      rintro rfl
      exact absurd hgrow (Nat.not_lt_zero _)
    rcases bind_eq_ok_iff.mp heq with ⟨_, t, hrun, hrest⟩ | ⟨e, hrun, rfl⟩
    · rw [hresize] at hrun
      obtain ⟨hwhole, hsize⟩ := hgrown _ _ hrun
      have hfinish := whole_truncFinish hwhole.wf hwhole.loaded hwhole.regular
        (fun k hk hblock => hwhole.tail k (by omega) hblock) hrest
      exact ⟨hfinish.1, fun hzero => (hpositive hzero).elim⟩
    · rw [hresize] at hrun
      exact ⟨(hgrown _ _ hrun).1, fun hzero => (hpositive hzero).elim⟩
  · have hresize : truncResize ino ((len.toNat + SFS_BLKSIZE - 1) / SFS_BLKSIZE) sfs =
        truncShrink ino ((sfs.inode ino).din.blocks - blocksFor len.toNat) sfs := by
      rw [truncResize, getState_bind]
      exact congrFun (if_neg (not_lt.mpr hshrink)) sfs
    obtain ⟨t, hrun, hcut⟩ := truncShrink_cuts ((dinOf sfs ino).blocks - blocksFor len.toNat) sfs
      h.wf h.loaded (Nat.sub_le _ _)
    rw [hdin] at hrun
    rw [← hresize] at hrun
    have hblocks : (dinOf t ino).blocks ≤ blocksFor len.toNat := by
      rw [hcut.blocks]
      omega
    have hrest := (bind_of_ok hrun).symm.trans heq
    have hin : ino ∈ t.inodeList := by
      rw [hcut.loaded]
      exact h.loaded
    have hfinish := whole_truncFinish hcut.wf hin (hcut.type.trans h.regular) (fun k hk hblock => ?_)
      hrest
    · exact ⟨hfinish.1, fun _ => hfinish.2⟩
    · rcases hlen with rfl | hlt
      · exact absurd (lt_of_lt_of_le hblock hblocks) (Nat.not_lt_zero _)
      · rw [hcut.blocks] at hblock
        rw [hcut.bytes k hblock]
        exact h.tail k (by omega) (by omega)

end Resizing

section Writing

variable {buf : Bytes} {offset endpos : Nat}

/-- The piece of the range in the block `j` is written, or there is no space for it. -/
theorem ioPiece_writes (hin : ino ∈ sfs.inodeList) (hlt : offset < endpos) {j : Nat}
    (hj : offset / SFS_BLKSIZE ≤ j) (hend : j < blocksFor endpos) (hmax : j < maxBlocks)
    {io : Transfer} (h : Writing sfs usage ino buf offset io t)
    (halen : io.alen = bytesBelow offset endpos j) :
    Finishes (ioPiece ino offset endpos true j io) t
      (fun io' t' => Writing sfs usage ino buf offset io' t' ∧
        io'.alen = bytesBelow offset endpos (j + 1))
      (OutOfSpace sfs usage ino buf offset (min endpos ((j + 1) * SFS_BLKSIZE))) := by
  have hstop : min endpos ((j + 1) * SFS_BLKSIZE) ≤ maxBlocks * SFS_BLKSIZE :=
    le_trans (min_le_right _ _) (Nat.mul_le_mul_right _ hmax)
  have hpieces := @pieces_write sfs usage ino buf offset _ hin hstop
  have hstart := Nat.div_add_mod offset SFS_BLKSIZE
  have hmod : offset % SFS_BLKSIZE < SFS_BLKSIZE := Nat.mod_lt _ (by decide)
  have hnext := bytesBelow_succ hj hlt
  rw [← halen] at hnext
  have hbefore : j * SFS_BLKSIZE < endpos := by
    unfold blocksFor SFS_BLKSIZE at *
    omega
  have hreach : offset < (j + 1) * SFS_BLKSIZE := by
    unfold SFS_BLKSIZE at *
    omega
  rw [hnext, ioPiece]
  unfold bytesBelow at halen
  by_cases hfull : pieceSize offset endpos j = SFS_BLKSIZE
  · have hcopy := hfull
    rw [if_pos hfull, hfull]
    unfold pieceSize at hcopy
    rw [Nat.succ_mul] at hcopy hreach
    apply hpieces.block io t j h
    · omega
    · rw [Nat.succ_mul]
      omega
  · rw [if_neg hfull]
    unfold pieceSize at hfull
    rw [Nat.succ_mul] at hfull hreach
    apply hpieces.part io t j _ _ h
    · unfold pieceStart
      omega
    · unfold pieceSize
      rw [Nat.succ_mul]
      omega
    · unfold pieceStart pieceSize
      rw [Nat.succ_mul]
      omega
    · unfold pieceSize
      rw [Nat.succ_mul]
      omega

theorem ioStep_error {j size : Nat} {op : Bytes → Nat → Nat → Routine SfsFs Bytes}
    {io io' : Transfer} {e : Errno} (heq : ioStep ino j size op io t = .ok (.ok (.error e, io'), t')) :
    io' = io := by
  rw [ioStep] at heq
  obtain ⟨r₀, t₀, _, hrest⟩ := attempt_bind_eq_ok_iff.mp heq
  rcases r₀ with e₀ | b
  · cases hrest
    rfl
  · change (attempt (op io.buf io.alen b) >>= fun _ => _) t₀ = _ at hrest
    obtain ⟨r₁, t₁, _, hlast⟩ := attempt_bind_eq_ok_iff.mp hrest
    rcases r₁ with e₁ | buf
    · cases hlast
      rfl
    · cases hlast

theorem blocksNeeded_mono (din : SfsDiskInode) {n m : Nat} (h : n ≤ m) :
    blocksNeeded din n ≤ blocksNeeded din m := by
  unfold blocksNeeded
  have hsub : n - din.blocks ≤ m - din.blocks := by omega
  split
  · next hboth =>
      rw [if_pos ⟨hboth.1, lt_of_lt_of_le hboth.2 h⟩]
      omega
  · omega

theorem blocksNeeded_of_le (h : WellFormed sfs usage) (hfile : usage.inode ino) {n : Nat}
    (hn : n ≤ (dinOf sfs ino).blocks) : blocksNeeded (dinOf sfs ino) n = 0 := by
  have hpresent : ¬((dinOf sfs ino).indirect = 0 ∧ SFS_NDIRECT < n) := by
    rintro ⟨hnone, hlarge⟩
    exact indirect_ne_zero h hfile (lt_of_lt_of_le hlarge hn) hnone
  rw [blocksNeeded, if_neg hpresent, Nat.sub_eq_zero_of_le hn]

/-- A file whose block map is full when the write has come so far could be filled. -/
theorem fills_of_wrote {alen : Nat} (h : Wrote sfs t usage ino buf offset alen)
    (hin : ino ∈ sfs.inodeList) (hfull : (dinOf t ino).blocks = maxBlocks) : Fills sfs ino := by
  have hin' : ino ∈ t.inodeList := by
    rw [h.loaded]
    exact hin
  have hcount := h.count maxBlocks (le_of_eq hfull)
  have hneeded := blocksNeeded_of_le h.wf (h.wf.loaded ino hin') (le_of_eq hfull.symm)
  rw [hneeded, Nat.add_zero] at hcount
  rw [Fills]
  omega

theorem ioRange_writes (hin : ino ∈ sfs.inodeList) (hlt : offset < endpos) (n : Nat) :
    ∀ j t (io : Transfer), offset / SFS_BLKSIZE ≤ j → j + n ≤ blocksFor endpos →
      Writing sfs usage ino buf offset io t → io.alen = bytesBelow offset endpos j →
      j ≤ (dinOf t ino).blocks → ¬(maxBlocks < j + n ∧ Fills sfs ino) →
      ∃ r io' t', ioRange ino offset endpos true n j io t = .ok (.ok (r, io'), t') ∧
        Writing sfs usage ino buf offset io' t' ∧
        io.alen ≤ io'.alen ∧ io'.alen ≤ endpos - offset ∧
        (r = .ok () ∧ io'.alen = bytesBelow offset endpos (j + n) ∨
          r = .error .eNoMem ∧ ¬Fills sfs ino) := by
  induction n with
  | zero =>
      intro j t io _ _ hwriting halen _ _
      refine ⟨.ok (), io, t, rfl, hwriting, le_rfl, ?_, .inl ⟨rfl, halen⟩⟩
      rw [halen]
      exact bytesBelow_le hlt j
  | succ n ih =>
      intro j t io hj hend hwriting halen hblocks hgood
      have hin' : ino ∈ t.inodeList := by
        rw [hwriting.1.loaded]
        exact hin
      have hmax := hwriting.1.wf.blocks_max ino (hwriting.1.wf.loaded ino hin')
      rcases Nat.lt_or_ge j maxBlocks with hroom | hfull
      · rcases ioPiece_writes hin hlt hj (by omega) hroom hwriting halen with
          ⟨io₁, t₁, hrun, hwriting₁, halen₁⟩ | ⟨io₁, t₁, hrun, hwriting₁, _, hfree⟩
        · have hstep := bytesBelow_succ hj hlt
          have hblocks₁ : j + 1 ≤ (dinOf t₁ ino).blocks := by
            rw [hwriting₁.1.blocks, halen₁]
            apply le_trans _ (le_max_right _ _)
            unfold bytesBelow
            unfold blocksFor SFS_BLKSIZE at *
            omega
          obtain ⟨r, io', t', heq, hwriting', hle, hend', hresult⟩ := ih (j + 1) t₁ io₁ (by omega)
            (by omega) hwriting₁ halen₁ hblocks₁
            (by rwa [Nat.add_right_comm, Nat.add_assoc j n 1])
          rw [Nat.add_right_comm, Nat.add_assoc j n 1] at hresult
          refine ⟨r, io', t', ?_, hwriting', by omega, hend', hresult⟩
          rw [ioRange, andContinue, bind_of_ok hrun]
          exact heq
        · have hlast : blocksFor (min endpos ((j + 1) * SFS_BLKSIZE)) ≤ maxBlocks :=
            blocksFor_le (le_trans (min_le_right _ _) (Nat.mul_le_mul_right _ hroom))
          have hneeded := blocksNeeded_mono (dinOf sfs ino) hlast
          have hsame : io₁ = io := by
            rw [ioPiece_eq] at hrun
            exact ioStep_error hrun
          refine ⟨_, io₁, t₁, ?_, hwriting₁, by rw [hsame], ?_, .inr ⟨rfl, ?_⟩⟩
          · rw [ioRange, andContinue, bind_of_ok hrun]
            rfl
          · rw [hsame, halen]
            exact bytesBelow_le hlt j
          · rw [Fills]
            omega
      · exact absurd ⟨by omega, fills_of_wrote hwriting.1 hin (by omega)⟩ hgood

/-- A block that has been looked up is found again. -/
theorem ioPiece_located {j b : Nat} (hin : ino ∈ sfs.inodeList)
    (hload : sfsBmapLoadNolock ino j sfs = .ok (.ok b, t)) (hlocated : Located sfs t usage ino j b)
    (write : Bool) (io : Transfer) :
    ioPiece ino offset endpos write j io sfs = ioPiece ino offset endpos write j io t := by
  have hin' : ino ∈ t.inodeList := by
    rw [hlocated.loaded]
    exact hin
  have hreach : j < (dinOf t ino).blocks := by
    rw [hlocated.blocks]
    omega
  have hagain := sfsBmapLoadNolock_of_lt hlocated.wf hin' hreach
  rw [hlocated.here] at hagain
  rw [ioPiece_eq, ioStep, attempt_bind_of_ok hload, attempt_bind_of_ok hagain]

/-- Writing finds the file as if its first block had been looked up before. -/
theorem ioBody_located {b : Nat} (hin : ino ∈ sfs.inodeList) (hlt : offset < endpos)
    (hload : sfsBmapLoadNolock ino (offset / SFS_BLKSIZE) sfs = .ok (.ok b, t))
    (hlocated : Located sfs t usage ino (offset / SFS_BLKSIZE) b) (buf : Bytes) :
    ioBody ino offset endpos true buf sfs = ioBody ino offset endpos true buf t := by
  have hsucc : blocksFor endpos - offset / SFS_BLKSIZE =
      (blocksFor endpos - (offset / SFS_BLKSIZE + 1)) + 1 := by
    have hle : offset / SFS_BLKSIZE < blocksFor endpos := lt_blocksFor hlt
    omega
  have hphases : ioPhases ino offset endpos true { buf := buf, alen := 0 } sfs =
      ioPhases ino offset endpos true { buf := buf, alen := 0 } t := by
    rw [ioPhases_eq _ hlt, hsucc, ioRange, andContinue]
    simp only [bind, Routine.andThen, ioPiece_located hin hload hlocated]
  simp only [ioBody, bind, Routine.andThen, hphases]

theorem fills_located {j b : Nat} (h : Located sfs t usage ino j b) (hin : ino ∈ sfs.inodeList) :
    Fills t ino ↔ Fills sfs ino := by
  have hin' : ino ∈ t.inodeList := by
    rw [h.loaded]
    exact hin
  have hcount := h.count maxBlocks (h.wf.blocks_max ino (h.wf.loaded ino hin'))
  simp only [Fills]
  omega

/-- `alen` bytes of `buf` are in the file from `offset` on, and zeros before them. -/
structure Stored (usage : Usage) (ino : Nat) (buf : Bytes) (offset alen : Nat)
    (sfs sfs' : SfsFs) : Prop where
  whole : Whole usage ino sfs'
  size : (dinOf sfs' ino).size = max (dinOf sfs ino).size (offset + alen)
  bytes : ∀ k, k < (dinOf sfs' ino).size → byteAt sfs' ino k =
    if offset ≤ k ∧ k < offset + alen then buf (k - offset)
    else if k < (dinOf sfs ino).size then byteAt sfs ino k else 0
  fills : Fills sfs' ino ↔ Fills sfs ino

theorem stored_of_wrote {alen : Nat} (h : Whole usage ino sfs) (hwrote : Wrote sfs t usage ino buf offset alen)
    (hfinished : Finished t t' usage ino (max (dinOf sfs ino).size (offset + alen))) :
    Stored usage ino buf offset alen sfs t' := by
  have hin : ino ∈ t.inodeList := by
    rw [hwrote.loaded]
    exact h.loaded
  have hblocks := hwrote.blocks
  have hbytes : ∀ k, k / SFS_BLKSIZE < (dinOf t ino).blocks → byteAt t' ino k =
      if offset ≤ k ∧ k < offset + alen then buf (k - offset)
      else if k < (dinOf sfs ino).size then byteAt sfs ino k else 0 := by
    intro k hk
    rw [hfinished.bytes, hwrote.bytes k hk]
    split
    · rfl
    split
    · next hwas =>
        split
        · rfl
        · next hpast => exact h.tail k (by omega) hwas
    · next hnew =>
        have hpast : ¬k < (dinOf sfs ino).size := by
          intro hlt
          have := lt_of_lt_of_le (lt_blocksFor hlt) (blocksFor_le h.covered)
          exact hnew this
        rw [if_neg hpast]
  have hcovered : max (dinOf sfs ino).size (offset + alen) ≤
      (dinOf t ino).blocks * SFS_BLKSIZE := by
    rw [hblocks]
    apply max_le
    · exact le_trans h.covered (Nat.mul_le_mul_right _ (le_max_left _ _))
    · exact le_trans (le_blocksFor _) (Nat.mul_le_mul_right _ (le_max_right _ _))
  constructor
  case whole =>
    constructor
    case wf => exact hfinished.wf
    case loaded =>
      rw [hfinished.loaded]
      exact hin
    case regular =>
      rw [hfinished.din]
      exact hwrote.type.trans h.regular
    case covered =>
      rw [hfinished.din]
      exact hcovered
    case tail =>
      intro k hk hblock
      rw [hfinished.din] at hk hblock
      rw [hbytes k hblock, if_neg (by simp only at hk; omega), if_neg (by simp only at hk; omega)]
  case size => rw [hfinished.din]
  case bytes =>
    intro k hk
    rw [hfinished.din] at hk
    apply hbytes
    have hle := blocksFor_le hcovered
    exact lt_of_lt_of_le (lt_blocksFor hk) hle
  case fills =>
    have hmax := hwrote.wf.blocks_max ino (hwrote.wf.loaded ino hin)
    have hcount := hwrote.count maxBlocks hmax
    simp only [Fills, hfinished.din, hfinished.count]
    simp only [blocksNeeded] at hcount ⊢
    omega

theorem tabulate_add {α : Type} (n m : Nat) (g : Nat → α) :
    tabulate (n + m) g = tabulate n g ++ tabulate m fun k => g (n + k) := by
  simp only [tabulate, List.range_add, List.map_append, List.map_map]
  rfl

/-- Data that is stored past the end of a file comes after zeros. -/
theorem Stored.contents_eq {alen : Nat} (h : Stored usage ino buf offset alen sfs sfs')
    (hpast : (dinOf sfs ino).size ≤ offset) :
    contents sfs' ino = contents sfs ino ++
      List.replicate (offset - (dinOf sfs ino).size) 0 ++ tabulate alen buf := by
  have hsize : (dinOf sfs' ino).size =
      (dinOf sfs ino).size + (offset - (dinOf sfs ino).size) + alen := by
    rw [h.size]
    omega
  have hzeros : List.replicate (offset - (dinOf sfs ino).size) (0 : UInt8) =
      tabulate (offset - (dinOf sfs ino).size) fun _ => 0 := by
    simp [tabulate]
  rw [contents, hsize, tabulate_add, tabulate_add, contents, hzeros]
  congr 1
  · congr 1
    · apply tabulate_congr
      intro k hk
      rw [h.bytes k (by omega), if_neg (by omega), if_pos hk]
    · apply tabulate_congr
      intro k hk
      rw [h.bytes _ (by omega), if_neg (by omega), if_neg (by omega)]
  · apply tabulate_congr
    intro k hk
    rw [h.bytes _ (by omega), if_pos (by omega)]
    congr 1
    omega

/-- The block in which a write begins is there, or can be added. -/
def Reaches (sfs : SfsFs) (ino offset : Nat) : Prop :=
  offset / SFS_BLKSIZE < (dinOf sfs ino).blocks ∨
    offset / SFS_BLKSIZE = (dinOf sfs ino).blocks ∧ growCost (dinOf sfs ino) ≤ freeCount sfs

/-- A write into a block that is found. -/
theorem ioBody_stores (h : Whole usage ino sfs) (hlt : offset < endpos)
    (hsmall : endpos ≤ SFS_MAX_FILE_SIZE)
    (hfirst : offset / SFS_BLKSIZE < (dinOf sfs ino).blocks) (hgood : ¬Overruns sfs ino endpos)
    (buf : Bytes) :
    ∃ r alen sfs', ioBody ino offset endpos true buf sfs =
        .ok (.ok (r, { buf := buf, alen := alen }), sfs') ∧
      0 < alen ∧ offset + alen ≤ endpos ∧ Stored usage ino buf offset alen sfs sfs' ∧
      (r = .ok () ∧ offset + alen = endpos ∨ r = .error .eNoMem ∧ ¬Fills sfs ino) := by
  have hfile := h.wf.loaded ino h.loaded
  have hcount : blocksFor endpos - offset / SFS_BLKSIZE =
      (blocksFor endpos - (offset / SFS_BLKSIZE + 1)) + 1 := by
    have hle : offset / SFS_BLKSIZE < blocksFor endpos := lt_blocksFor hlt
    omega
  have hstart : Wrote sfs sfs usage ino buf offset 0 := by
    apply Wrote.start h.wf buf
    apply le_trans _ hfirst
    unfold blocksFor SFS_BLKSIZE
    omega
  have hzero : ({ buf := buf, alen := 0 } : Transfer).alen =
      bytesBelow offset endpos (offset / SFS_BLKSIZE) := (bytesBelow_first offset endpos).symm
  have hlast := bytesBelow_last hlt
  have hend : offset / SFS_BLKSIZE < blocksFor endpos := lt_blocksFor hlt
  rcases ioPiece_writes h.loaded hlt le_rfl hend (lt_of_lt_of_le hfirst h.blocks_max)
    ⟨hstart, rfl⟩ hzero with
    ⟨io₁, t₁, hrun, hwriting, halen⟩ | ⟨io₁, t₁, _, _, _, hfree⟩
  · have hstep := bytesBelow_succ (j := offset / SFS_BLKSIZE) le_rfl hlt
    have hpiece : 0 < pieceSize offset endpos (offset / SFS_BLKSIZE) := by
      unfold pieceSize
      unfold blocksFor SFS_BLKSIZE at *
      omega
    have hblocks : offset / SFS_BLKSIZE + 1 ≤ (dinOf t₁ ino).blocks := by
      rw [hwriting.1.blocks]
      exact le_trans hfirst (le_max_left _ _)
    have hsum : offset / SFS_BLKSIZE + 1 + (blocksFor endpos - (offset / SFS_BLKSIZE + 1)) =
        blocksFor endpos := Nat.add_sub_cancel' hend
    obtain ⟨r, io, t, heq, ⟨hwrote, hbuf⟩, hle, hbound, hresult⟩ := ioRange_writes h.loaded hlt
      (blocksFor endpos - (offset / SFS_BLKSIZE + 1)) (offset / SFS_BLKSIZE + 1) t₁ io₁ (by omega)
      (le_of_eq hsum) hwriting halen hblocks (by rwa [hsum])
    rw [hsum, hlast] at hresult
    have hin : ino ∈ t.inodeList := by
      rw [hwrote.loaded]
      exact h.loaded
    have hword : offset + io.alen < 2 ^ 32 := by
      unfold SFS_MAX_FILE_SIZE at hsmall
      omega
    obtain ⟨t', hfinish, hfinished⟩ := ioFinish_spec hwrote.wf hin hword
    rw [hwrote.size] at hfinished
    have hphases : ioPhases ino offset endpos true { buf := buf, alen := 0 } sfs =
        .ok (.ok (r, io), t) := by
      rw [ioPhases_eq _ hlt, hcount, ioRange, andContinue, bind_of_ok hrun]
      exact heq
    refine ⟨r, io.alen, t', ?_, by omega, by omega, stored_of_wrote h hwrote hfinished, ?_⟩
    · have hsame : io.buf = buf := hbuf
      rw [ioBody_eq hphases hfinish, ← hsame]
    · rcases hresult with ⟨hok, hall⟩ | ⟨hfail, hnot⟩
      · exact .inl ⟨hok, by omega⟩
      · exact .inr ⟨hfail, hnot⟩
  · have hreach : blocksFor (min endpos ((offset / SFS_BLKSIZE + 1) * SFS_BLKSIZE)) ≤
        (dinOf sfs ino).blocks := le_trans (blocksFor_le (min_le_right _ _)) hfirst
    rw [blocksNeeded_of_le h.wf hfile hreach] at hfree
    exact absurd hfree (Nat.not_lt_zero _)

theorem Stored.of_located {j b alen : Nat} (hlocated : Located sfs t usage ino j b)
    (hin : ino ∈ sfs.inodeList) (h : Whole usage ino sfs)
    (hstored : Stored usage ino buf offset alen t t') :
    Stored usage ino buf offset alen sfs t' where
  whole := hstored.whole
  size := by rw [hstored.size, hlocated.size]
  bytes k hk := by
    have hwas : k < (dinOf sfs ino).size → k / SFS_BLKSIZE < (dinOf sfs ino).blocks :=
      fun hlt => lt_of_lt_of_le (lt_blocksFor hlt) (blocksFor_le h.covered)
    rw [hstored.bytes k hk, hlocated.size]
    split
    · rfl
    split
    · next hlt =>
        have hmapped : k / SFS_BLKSIZE < (dinOf t ino).blocks := by
          rw [hlocated.blocks]
          exact lt_of_lt_of_le (hwas hlt) (le_max_left _ _)
        rw [hlocated.bytes k hmapped, if_pos (hwas hlt)]
    · rfl
  fills := hstored.fills.trans (fills_located hlocated hin)

/-- The block map has room for the block in which the write begins. -/
theorem Whole.room (h : Whole usage ino sfs) (hlt : offset < endpos)
    (hlast : offset / SFS_BLKSIZE = (dinOf sfs ino).blocks) (hgood : ¬Overruns sfs ino endpos) :
    (dinOf sfs ino).blocks < maxBlocks := by
  rcases Nat.lt_or_eq_of_le h.blocks_max with hroom | hfull
  · exact hroom
  · refine absurd ⟨?_, fills_of_full h.calm h.loaded hfull⟩ hgood
    rw [← hfull, ← hlast]
    exact lt_blocksFor hlt

/-- The part of `sfs_io_nolock` after its checks, where the file reaches: the write
stores some bytes. -/
theorem ioBody_reaches (h : Whole usage ino sfs) (hlt : offset < endpos)
    (hsmall : endpos ≤ SFS_MAX_FILE_SIZE) (hreaches : Reaches sfs ino offset)
    (hgood : ¬Overruns sfs ino endpos) (buf : Bytes) :
    ∃ r alen sfs', ioBody ino offset endpos true buf sfs =
        .ok (.ok (r, { buf := buf, alen := alen }), sfs') ∧
      0 < alen ∧ offset + alen ≤ endpos ∧ Stored usage ino buf offset alen sfs sfs' ∧
      (r = .ok () ∧ offset + alen = endpos ∨ r = .error .eNoMem ∧ ¬Fills sfs ino) := by
  rcases hreaches with hfirst | ⟨hlast, hfree⟩
  · exact ioBody_stores h hlt hsmall hfirst hgood buf
  · have hroom := h.room hlt hlast hgood
    rcases sfsBmapLoadNolock_spec h.wf h.loaded (le_of_eq hlast) (hlast ▸ hroom) with
      ⟨b, t, hload, hlocated⟩ | ⟨t, _, _, _, hfew⟩
    · have hwhole := h.of_located hlocated
      have hfills := fills_located hlocated h.loaded
      have hfirst : offset / SFS_BLKSIZE < (dinOf t ino).blocks := by
        rw [hlocated.blocks]
        omega
      obtain ⟨r, alen, sfs', heq, hpos, hend, hstored, hresult⟩ := ioBody_stores hwhole hlt hsmall hfirst
        (fun hbad => hgood ⟨hbad.1, hfills.mp hbad.2⟩) buf
      rw [← ioBody_located h.loaded hlt hload hlocated] at heq
      rw [hfills] at hresult
      exact ⟨r, alen, sfs', heq, hpos, hend, hstored.of_located hlocated h.loaded h, hresult⟩
    · exact absurd hfree (not_le.mpr hfew)

/-- Where it does not, the write fails, and leaves a size that ends at its offset. -/
theorem ioBody_short (h : Whole usage ino sfs) (hlt : offset < endpos)
    (hsmall : endpos ≤ SFS_MAX_FILE_SIZE) (hlast : offset / SFS_BLKSIZE = (dinOf sfs ino).blocks)
    (hfew : freeCount sfs < growCost (dinOf sfs ino)) (hgood : ¬Overruns sfs ino endpos)
    (buf : Bytes) :
    ∃ sfs', ioBody ino offset endpos true buf sfs =
        .ok (.ok (.error .eNoMem, { buf := buf, alen := 0 }), sfs') ∧
      ((dinOf sfs ino).size < offset ∧ (dinOf sfs' ino).size = offset ∨
        offset ≤ (dinOf sfs ino).size ∧ Untouched sfs sfs' usage) := by
  have hroom := h.room hlt hlast hgood
  have hcount : blocksFor endpos - offset / SFS_BLKSIZE =
      (blocksFor endpos - (offset / SFS_BLKSIZE + 1)) + 1 := by
    have hle : offset / SFS_BLKSIZE < blocksFor endpos := lt_blocksFor hlt
    omega
  have hload := sfsBmapLoadNolock_end h.wf h.loaded hroom
  rw [LoadsNew, ← hlast] at hload
  rcases hload with ⟨t, hload, huntouched, _⟩ | ⟨b, t, _, hgrown⟩
  · have hpiece : ioPiece ino offset endpos true (offset / SFS_BLKSIZE) { buf := buf, alen := 0 }
        sfs = .ok (.ok (.error .eNoMem, { buf := buf, alen := 0 }), t) := by
      rw [ioPiece_eq, ioStep, attempt_bind_of_ok hload]
      rfl
    have hphases : ioPhases ino offset endpos true { buf := buf, alen := 0 } sfs =
        .ok (.ok (.error .eNoMem, { buf := buf, alen := 0 }), t) := by
      rw [ioPhases_eq _ hlt, hcount, ioRange, andContinue, bind_of_ok hpiece]
      rfl
    have hin : ino ∈ t.inodeList := by
      rw [huntouched.loaded]
      exact h.loaded
    have hkept := huntouched.kept ino (h.wf.loaded ino h.loaded)
    rcases Nat.lt_or_ge (dinOf sfs ino).size offset with hpast | hinside
    · have hword : offset + 0 < 2 ^ 32 := by
        unfold SFS_MAX_FILE_SIZE at hsmall
        omega
      obtain ⟨t', hfinish, hfinished⟩ := ioFinish_spec huntouched.wf hin hword
      refine ⟨t', ioBody_eq hphases hfinish, .inl ⟨hpast, ?_⟩⟩
      rw [hfinished.din, hkept.din]
      simp only
      omega
    · have hfinish : ioFinish ino offset 0 t = .ok (.ok (), t) := by
        apply ioFinish_of_le hin
        rw [hkept.din]
        exact hinside
      exact ⟨t, ioBody_eq hphases hfinish, .inr ⟨hinside, huntouched⟩⟩
  · have := hgrown.count
    omega

end Writing

section Transfers

variable {buf : Bytes} {offset len : Nat}

theorem sfsIoNolock_write_eq (h : Whole usage ino sfs) (hpos : 0 < len) (hlen : len ≤ SFS_BLKSIZE)
    (hoffset : offset < SFS_MAX_FILE_SIZE) :
    sfsIoNolock ino buf offset len true sfs =
      ioBody ino offset (min (offset + len) SFS_MAX_FILE_SIZE) true buf sfs := by
  have hnotDir : (sfs.inode ino).din.type ≠ SFS_TYPE_DIR :=
    not_directory h.loaded h.regular
  have hendpos : Int.bmod ((offset : Int) + len) (2 ^ 64) = ((offset + len : Nat) : Int) := by
    unfold SFS_MAX_FILE_SIZE at hoffset
    unfold SFS_BLKSIZE at hlen
    rw [Int.bmod_eq_of_le]
    · push_cast
      rfl
    · omega
    · omega
  have hclip : (if (SFS_MAX_FILE_SIZE : Int) < ((offset + len : Nat) : Int) then SFS_MAX_FILE_SIZE
      else offset + len) = min (offset + len) SFS_MAX_FILE_SIZE := by
    generalize SFS_MAX_FILE_SIZE = m
    split
    · omega
    · omega
  have hrange : ¬((offset : Int) < 0 ∨ (SFS_MAX_FILE_SIZE : Int) ≤ offset ∨
      ((offset + len : Nat) : Int) < offset) := by
    generalize SFS_MAX_FILE_SIZE = m at hoffset
    omega
  rw [sfsIoNolock, getState_bind, ensure_bind_of hnotDir, hendpos, if_neg hrange,
    if_neg (by omega)]
  simp only [Int.toNat_natCast, hclip, Bool.true_eq_false, false_and, if_false]
  rfl

section Calls

variable {pos : Int} {write : Bool}

theorem iobufInit_bytes (buf : Bytes) (len : Nat) (pos : Int) :
    (fun k => (iobufInit buf len pos).buf (iobufUsed (iobufInit buf len pos) + k)) = buf := by
  funext k
  change buf (len - len + k) = buf k
  rw [Nat.sub_self, Nat.zero_add]

/-- `sfs_io` with what `sfs_io_nolock` returns. -/
theorem sfsIo_of_nolock {r : Except Errno Unit} {io : Transfer}
    (hrun : sfsIoNolock ino buf pos len write sfs = .ok (.ok (r, io), sfs')) (hle : io.alen ≤ len) :
    ∃ iob, sfsIo ino (iobufInit buf len pos) write sfs = .ok (.ok (r, iob), sfs') ∧
      iobufUsed iob = io.alen ∧ iob.buf = io.buf := by
  have hback : (fun k => if k < iobufUsed (iobufInit buf len pos) then (iobufInit buf len pos).buf k
      else io.buf (k - iobufUsed (iobufInit buf len pos))) = io.buf := by
    have hused : iobufUsed (iobufInit buf len pos) = 0 := Nat.sub_self len
    funext k
    rw [hused, if_neg (Nat.not_lt_zero k), Nat.sub_zero]
  rw [← iobufInit_bytes buf len pos] at hrun
  change sfsIoNolock ino _ (iobufInit buf len pos).offset (iobufInit buf len pos).resid write
    sfs = _ at hrun
  rw [sfsIo, bind_of_ok hrun]
  simp only [hback]
  rcases Nat.eq_zero_or_pos io.alen with hzero | hsome
  · rw [if_neg (not_not.mpr hzero)]
    refine ⟨_, rfl, ?_, rfl⟩
    rw [hzero]
    exact Nat.sub_self len
  · rw [if_pos (Nat.ne_of_gt hsome)]
    exact ⟨_, bind_of_ok (iobufSkip_of hle), Nat.sub_sub_self hle, rfl⟩

theorem sfsIo_of_nolock_abort {a : Abort}
    (hrun : sfsIoNolock ino buf pos len write sfs = .error a) :
    sfsIo ino (iobufInit buf len pos) write sfs = .error a := by
  rw [← iobufInit_bytes buf len pos] at hrun
  exact bind_of_abort hrun

end Calls

/-- A write outside the sizes that are allowed is refused. -/
theorem sfsIo_refused (h : Whole usage ino sfs) {pos : Int}
    (hpos : pos < 0 ∨ (SFS_MAX_FILE_SIZE : Int) ≤ pos) :
    ∃ iob, sfsIo ino (iobufInit buf len pos) true sfs = .ok (.ok (.error .eInval, iob), sfs) ∧
      iobufUsed iob = 0 := by
  have hnotDir : (sfs.inode ino).din.type ≠ SFS_TYPE_DIR :=
    not_directory h.loaded h.regular
  have hnolock : sfsIoNolock ino buf pos len true sfs =
      .ok (.ok (.error .eInval, { buf := buf, alen := 0 }), sfs) := by
    have hrange : pos < 0 ∨ (SFS_MAX_FILE_SIZE : Int) ≤ pos ∨
        Int.bmod (pos + len) (2 ^ 64) < pos := hpos.imp_right .inl
    rw [sfsIoNolock, getState_bind, ensure_bind_of hnotDir]
    exact congrFun (if_pos hrange) sfs
  obtain ⟨iob, hrun, hused, _⟩ := sfsIo_of_nolock hnolock (Nat.zero_le _)
  exact ⟨iob, hrun, hused⟩

theorem sfsIo_of_ioBody {r : Except Errno Unit} {alen : Nat} (h : Whole usage ino sfs)
    (hpos : 0 < len) (hlen : len ≤ SFS_BLKSIZE) (hoffset : offset < SFS_MAX_FILE_SIZE)
    (halen : alen ≤ len)
    (heq : ioBody ino offset (min (offset + len) SFS_MAX_FILE_SIZE) true buf sfs =
      .ok (.ok (r, { buf := buf, alen := alen }), sfs')) :
    ∃ iob, sfsIo ino (iobufInit buf len offset) true sfs = .ok (.ok (r, iob), sfs') ∧
      iobufUsed iob = alen := by
  rw [← sfsIoNolock_write_eq h hpos hlen hoffset] at heq
  obtain ⟨iob, hrun, hused, _⟩ := sfsIo_of_nolock heq halen
  exact ⟨iob, hrun, hused⟩

theorem overruns_min (sfs : SfsFs) (ino n : Nat) :
    Overruns sfs ino (min n SFS_MAX_FILE_SIZE) ↔ Overruns sfs ino n := by
  have hmax : maxBlocks < blocksFor SFS_MAX_FILE_SIZE := by decide
  rcases le_total n SFS_MAX_FILE_SIZE with hle | hle
  · rw [min_eq_left hle]
  · have hn := blocksFor_mono hle
    rw [min_eq_right hle]
    simp only [Overruns, hmax, lt_of_lt_of_le hmax hn, true_and]

/-- A write at or past the end of the block map, or past the block after the last one. -/
theorem sfsIo_panics (h : Whole usage ino sfs) (hpos : 0 < len) (hlen : len ≤ SFS_BLKSIZE)
    (hoffset : offset < SFS_MAX_FILE_SIZE)
    (hbad : (dinOf sfs ino).blocks < offset / SFS_BLKSIZE ∨ Overruns sfs ino (offset + len)) :
    sfsIo ino (iobufInit buf len offset) true sfs = .error .panic := by
  have hlt : offset < min (offset + len) SFS_MAX_FILE_SIZE := by
    generalize SFS_MAX_FILE_SIZE = m at hoffset
    omega
  have hbody : ioBody ino offset (min (offset + len) SFS_MAX_FILE_SIZE) true buf sfs =
      .error .panic := by
    rcases Nat.lt_or_ge (dinOf sfs ino).blocks (offset / SFS_BLKSIZE) with hfar | hnear
    · have hcount : blocksFor (min (offset + len) SFS_MAX_FILE_SIZE) - offset / SFS_BLKSIZE =
          (blocksFor (min (offset + len) SFS_MAX_FILE_SIZE) - (offset / SFS_BLKSIZE + 1)) + 1 := by
        have hle := lt_blocksFor hlt
        omega
      have hload : sfsBmapLoadNolock ino (offset / SFS_BLKSIZE) sfs = .error .panic := by
        rw [dinOf_loaded h.loaded] at hfar
        rw [sfsBmapLoadNolock, getState_bind, ensure_bind_of_not (not_le.mpr hfar)]
      have hattempt : attempt (sfsBmapLoadNolock ino (offset / SFS_BLKSIZE)) sfs =
          .error .panic := by
        simp only [attempt, hload]
      have hpiece : ioPiece ino offset (min (offset + len) SFS_MAX_FILE_SIZE) true
          (offset / SFS_BLKSIZE) { buf := buf, alen := 0 } sfs = .error .panic := by
        rw [ioPiece_eq]
        exact bind_of_abort hattempt
      have hphases : ioPhases ino offset (min (offset + len) SFS_MAX_FILE_SIZE) true
          { buf := buf, alen := 0 } sfs = .error .panic := by
        rw [ioPhases_eq _ hlt, hcount, ioRange]
        exact bind_of_abort hpiece
      exact bind_of_abort hphases
    · have hover := hbad.resolve_left (not_lt.mpr hnear)
      rw [← overruns_min] at hover
      exact (ioBody_returnsUnless h.calm h.loaded hlt hnear buf).2 hover h.wf.freemap.steady
  rw [← sfsIoNolock_write_eq h hpos hlen hoffset] at hbody
  exact sfsIo_of_nolock_abort hbody

/-- A write in a block that the file reaches: some of it is stored. -/
theorem sfsIo_stores (h : Whole usage ino sfs) (hpos : 0 < len) (hlen : len ≤ SFS_BLKSIZE)
    (hoffset : offset < SFS_MAX_FILE_SIZE) (hreaches : Reaches sfs ino offset)
    (hgood : ¬Overruns sfs ino (offset + len)) :
    ∃ r alen iob sfs', sfsIo ino (iobufInit buf len offset) true sfs = .ok (.ok (r, iob), sfs') ∧
      iobufUsed iob = alen ∧ 0 < alen ∧ alen ≤ len ∧
      Stored usage ino buf offset alen sfs sfs' ∧
      (r = .ok () ∧ alen = len ∨ r = .error .eNoMem ∧ ¬Fills sfs ino) := by
  have hlt : offset < min (offset + len) SFS_MAX_FILE_SIZE := by
    generalize SFS_MAX_FILE_SIZE = m at hoffset
    omega
  obtain ⟨r, alen, sfs', heq, hsome, hend, hstored, hresult⟩ := ioBody_reaches h hlt
    (min_le_right _ _) hreaches (by rwa [overruns_min]) buf
  have halen : alen ≤ len := by
    have hle := le_trans hend (min_le_left _ _)
    omega
  obtain ⟨iob, hrun, hused⟩ := sfsIo_of_ioBody h hpos hlen hoffset halen heq
  refine ⟨r, alen, iob, sfs', hrun, hused, hsome, halen, hstored, ?_⟩
  rcases hresult with ⟨hok, hall⟩ | hfail
  · -- the block map ends below the largest size
    have hcovered := hstored.whole.covered
    have hblocks := Nat.mul_le_mul_right SFS_BLKSIZE hstored.whole.blocks_max
    have hmax : maxBlocks * SFS_BLKSIZE < SFS_MAX_FILE_SIZE := by decide
    have hsize : offset + alen ≤ (dinOf sfs' ino).size := by
      rw [hstored.size]
      exact le_max_right _ _
    generalize SFS_MAX_FILE_SIZE = m at *
    exact .inl ⟨hok, by omega⟩
  · exact .inr hfail

theorem sfsIo_short (h : Whole usage ino sfs) (hpos : 0 < len) (hlen : len ≤ SFS_BLKSIZE)
    (hoffset : offset < SFS_MAX_FILE_SIZE) (hlast : offset / SFS_BLKSIZE = (dinOf sfs ino).blocks)
    (hfew : freeCount sfs < growCost (dinOf sfs ino)) (hgood : ¬Overruns sfs ino (offset + len)) :
    ∃ iob sfs', sfsIo ino (iobufInit buf len offset) true sfs =
        .ok (.ok (.error .eNoMem, iob), sfs') ∧ iobufUsed iob = 0 ∧
      ((dinOf sfs ino).size < offset ∧ (dinOf sfs' ino).size = offset ∨
        offset ≤ (dinOf sfs ino).size ∧ Untouched sfs sfs' usage) := by
  have hlt : offset < min (offset + len) SFS_MAX_FILE_SIZE := by
    generalize SFS_MAX_FILE_SIZE = m at hoffset
    omega
  obtain ⟨sfs', heq, hresult⟩ := ioBody_short h hlt (min_le_right _ _) hlast hfew
    (by rwa [overruns_min]) buf
  obtain ⟨iob, hrun, hused⟩ := sfsIo_of_ioBody h hpos hlen hoffset (Nat.zero_le _) heq
  exact ⟨iob, sfs', hrun, hused, hresult⟩

end Transfers

end Ucore.SfsGaps
