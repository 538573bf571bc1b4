import Ucore.SfsDirtyInode

/-!
How far a file can grow. `SFS_MAX_FILE_SIZE` is what the entry points check, and the
block map ends at `maxBlocks` blocks.
-/

namespace Ucore.SfsCapacity

open Ucore.KernelRoutine
open Ucore.ByteBuffer
open Ucore.BlockBitmap
open Ucore.SfsDisk
open Ucore.SfsBlockMap
open Ucore.SfsOwnership
open Ucore.SfsFileViews
open Ucore.SfsBlockMapGrow
open Ucore.SfsIo
open Ucore.SfsIoPhases
open Ucore.SfsIoRange
open Ucore.SfsIoRefinement
open Ucore.SfsFaults
open Ucore.SfsBlockMapFaults
open Ucore.SfsDirtyInode

/-- `sfs_tryseek`, on a file that stays the same. -/
def sfsTryseek (sin : Nat) (pos : Int) : Routine SfsFs Unit := do
  if pos < 0 ∨ (SFS_MAX_FILE_SIZE : Int) ≤ pos then
    fail .eInval
  else
    let sfs ← getState
    if ((sfs.inode sin).din.size : Int) < pos then
      sfsTruncfile sin pos
    else
      return ()

/-- The free blocks suffice to fill the block map of the file. -/
def Fills (sfs : SfsFs) (ino : Nat) : Prop :=
  blocksNeeded (dinOf sfs ino) maxBlocks ≤ freeCount sfs

/-- `n` bytes take the file past the end of its block map before the free blocks
have run out. -/
def Overruns (sfs : SfsFs) (ino n : Nat) : Prop :=
  maxBlocks < blocksFor n ∧ Fills sfs ino

/-- `x` returns unless `bad` holds; then it panics, if no transfer fails before. -/
structure ReturnsUnless {α : Type} (bad : Prop) (x : Routine SfsFs α) (sfs : SfsFs) : Prop where
  returns : ¬bad → ∃ r sfs', x sfs = .ok (r, sfs')
  panics : bad → Steady sfs → x sfs = .error .panic

variable {sfs sfs' t t' : SfsFs} {usage : Usage} {ino : Nat}

theorem ReturnsUnless.of_run {α : Type} {bad bad' : Prop} {x y : Routine SfsFs α}
    (h : ReturnsUnless bad y sfs) (hrun : x sfs = y sfs) (hiff : bad' ↔ bad) :
    ReturnsUnless bad' x sfs where
  returns hgood := by
    rw [hrun]
    exact h.returns fun hbad => hgood (hiff.mpr hbad)
  panics hbad hs := by
    rw [hrun]
    exact h.panics (hiff.mp hbad) hs

section Loading

theorem calm_of_steady (h : Steady sfs) : calm sfs = sfs := by
  have hfaults : sfs.dev.faults = fun _ => none := funext h.faults
  rw [calm, ← hfaults]

theorem steady_passed (h : Steady sfs) (k : Nat) : Steady (passed sfs k) :=
  ⟨fun n => h.faults (n + k), h.blocks_le⟩

/-- The block `j` of the file has been looked up, whatever the device does. -/
structure Looked (t t' : SfsFs) (usage : Usage) (ino j : Nat) : Prop where
  wf : WellFormed (calm t') usage
  loaded : t'.inodeList = t.inodeList
  size : (dinOf t' ino).size = (dinOf t ino).size
  blocks : (dinOf t' ino).blocks = max (dinOf t ino).blocks (j + 1)
  fills : Fills t' ino ↔ Fills t ino
  steady : Steady t → Steady t'

theorem Looked.of_located {j b : Nat} (h : Located (calm t) (calm t') usage ino j b)
    (hin : ino ∈ t.inodeList) (hsteady : Steady t → Steady t') : Looked t t' usage ino j where
  wf := h.wf
  loaded := h.loaded
  size := h.size
  blocks := h.blocks
  fills := by
    have hin' : ino ∈ (calm t').inodeList := by
      rw [h.loaded]
      exact hin
    have hmax := h.wf.blocks_max ino (h.wf.loaded ino hin')
    have hcount : freeCount t' + blocksNeeded (dinOf t ino) maxBlocks =
        freeCount t + blocksNeeded (dinOf t' ino) maxBlocks := h.count maxBlocks hmax
    simp only [Fills]
    omega
  steady := hsteady

/-- A block that is looked up below the end of the block map is found or made, or the
device fails, or no block is free. -/
theorem sfsBmapLoadNolock_cases (h : WellFormed (calm t) usage) (hin : ino ∈ t.inodeList)
    {j : Nat} (hj : j ≤ (dinOf t ino).blocks) (hmax : j < maxBlocks) :
    (∃ b t', sfsBmapLoadNolock ino j t = .ok (.ok b, t') ∧
        Located (calm t) (calm t') usage ino j b ∧ (Steady t → Steady t')) ∨
      ∃ e t', sfsBmapLoadNolock ino j t = .ok (.error e, t') ∧
        (Steady t → j = (dinOf t ino).blocks ∧ freeCount t < growCost (dinOf t ino)) := by
  by_cases hsteady : Steady t
  · have hcalm := calm_of_steady hsteady
    rw [hcalm] at h ⊢
    rcases sfsBmapLoadNolock_spec h hin hj hmax with
      ⟨b, t', heq, hlocated⟩ | ⟨t', heq, _, hlast, hcount⟩
    · have hsteady' := hlocated.wf.freemap.steady
      refine .inl ⟨b, t', heq, ?_, fun _ => hsteady'⟩
      rw [calm_of_steady hsteady']
      exact hlocated
    · exact .inr ⟨_, t', heq, fun _ => ⟨hlast, hcount⟩⟩
  · rcases Nat.lt_or_eq_of_le hj with hlt | rfl
    · rcases sfsBmapLoadNolock_tries h hin hlt with ⟨_, heq⟩ | ⟨n, e, _, _, _, heq⟩
      · exact .inl ⟨_, _, heq, @located_of_lt (calm t) usage ino j h hlt,
          fun hs => absurd hs hsteady⟩
      · exact .inr ⟨e, _, heq, fun hs => absurd hs hsteady⟩
    · rcases sfsBmapLoadNolock_adds h hin hmax with
        ⟨b, t', heq, hgrown, _⟩ | ⟨e, t', _, heq, _⟩
      · exact .inl ⟨b, t', heq, located_of_grown hgrown hin, fun hs => absurd hs hsteady⟩
      · exact .inr ⟨e, t', heq, fun hs => absurd hs hsteady⟩

theorem fills_of_full (h : WellFormed (calm t) usage) (hin : ino ∈ t.inodeList)
    (hfull : (dinOf t ino).blocks = maxBlocks) : Fills t ino := by
  have hsome : (dinOf t ino).indirect ≠ 0 :=
    @indirect_ne_zero (calm t) ino usage h (h.loaded ino hin) (by
      have hlt : SFS_NDIRECT < maxBlocks := by decide
      exact lt_of_lt_of_eq hlt hfull.symm)
  have hneeded : blocksNeeded (dinOf t ino) maxBlocks = 0 := by
    rw [blocksNeeded, hfull, Nat.sub_self, if_neg fun hboth => hsome hboth.1]
  rw [Fills, hneeded]
  exact Nat.zero_le _

theorem sfsBmapLoadNolock_full (hin : ino ∈ t.inodeList)
    (hfull : (dinOf t ino).blocks = maxBlocks) :
    sfsBmapLoadNolock ino maxBlocks t = .error .panic := by
  rw [dinOf_loaded hin] at hfull
  rw [sfsBmapLoadNolock, getState_bind, ensure_bind_of (le_of_eq hfull.symm),
    bind_of_abort (sfsBmapGetNolock_panic le_rfl _)]

end Loading

section Transfers

variable {offset endpos : Nat} {write : Bool}

/-- One piece of a transfer below the end of the block map. -/
theorem ioStep_cases {op : Bytes → Nat → Nat → Routine SfsFs Bytes} {c : Nat} (hop : Moves op c)
    (h : WellFormed (calm t) usage) (hin : ino ∈ t.inodeList) {j : Nat}
    (hj : j ≤ (dinOf t ino).blocks) (hmax : j < maxBlocks) (size : Nat) (io : Transfer) :
    (∃ buf t', ioStep ino j size op io t =
        .ok (.ok (.ok (), { buf := buf, alen := io.alen + size }), t') ∧
        Looked t t' usage ino j) ∨
      ∃ e t', ioStep ino j size op io t = .ok (.ok (.error e, io), t') ∧
        (Steady t → j = (dinOf t ino).blocks ∧ freeCount t < growCost (dinOf t ino)) := by
  rcases sfsBmapLoadNolock_cases h hin hj hmax with
    ⟨b, t₁, hload, hlocated, hsteady⟩ | ⟨e, t₁, hload, hcause⟩
  · have hin₁ : ino ∈ (calm t₁).inodeList := by
      rw [hlocated.loaded]
      exact hin
    have hfile := hlocated.wf.loaded ino hin₁
    have hreach : j < (dinOf (calm t₁) ino).blocks := by
      rw [hlocated.blocks]
      omega
    obtain ⟨hne, huse⟩ := inUse_data hlocated.wf hfile hreach
    rw [hlocated.here] at hne huse
    have hplain := plain_of_data hlocated.wf hfile hreach
    rw [hlocated.here] at hplain
    obtain ⟨buf, t₂, hwritten, htries⟩ := hop t₁ io.buf io.alen b
      hlocated.wf.freemap.steady.blocks_le hne huse.1
    rcases htries with ⟨_, hrun⟩ | ⟨n, e, _, _, hfault, hrun⟩
    · left
      refine ⟨buf, passed t₂ c, ?_, ?_⟩
      · rw [ioStep, attempt_bind_of_ok hload]
        change (attempt (op io.buf io.alen b) >>= fun _ => _) t₁ = _
        rw [attempt_bind_of_ok hrun]
        rfl
      · have hlooked := Looked.of_located hlocated hin hsteady
        rcases hwritten with rfl | ⟨data, rfl⟩
        · exact ⟨hlooked.wf, hlooked.loaded, hlooked.size, hlooked.blocks, hlooked.fills,
            fun hs => steady_passed (hlooked.steady hs) c⟩
        · have hsame : dinOf (passed (t₁.setBlock b data) c) ino = dinOf t₁ ino :=
            dinOf_setBlock hplain hfile data
          refine ⟨wellFormed_setBlock hlocated.wf hplain data, hlooked.loaded, ?_, ?_, ?_, ?_⟩
          · rw [hsame]
            exact hlooked.size
          · rw [hsame]
            exact hlooked.blocks
          · rw [← hlooked.fills, Fills, hsame]
            rfl
          · intro hs
            have hs₁ := hlooked.steady hs
            exact @steady_passed (t₁.setBlock b data) ⟨hs₁.faults, hs₁.blocks_le⟩ c
    · right
      refine ⟨e, passed t₁ (n + 1), ?_, ?_⟩
      · rw [ioStep, attempt_bind_of_ok hload]
        change (attempt (op io.buf io.alen b) >>= fun _ => _) t₁ = _
        rw [attempt_bind_of_ok hrun]
        rfl
      · intro hs
        rw [(hsteady hs).faults n] at hfault
        cases hfault
  · right
    refine ⟨e, t₁, ?_, hcause⟩
    rw [ioStep, attempt_bind_of_ok hload]
    rfl

theorem ioStep_full {op : Bytes → Nat → Nat → Routine SfsFs Bytes} (hin : ino ∈ t.inodeList)
    (hfull : (dinOf t ino).blocks = maxBlocks) (size : Nat) (io : Transfer) :
    ioStep ino maxBlocks size op io t = .error .panic := by
  have hattempt : attempt (sfsBmapLoadNolock ino maxBlocks) t = .error .panic := by
    simp only [attempt, sfsBmapLoadNolock_full hin hfull]
  exact bind_of_abort hattempt

theorem bytesBelow_le (hlt : offset < endpos) (j : Nat) :
    bytesBelow offset endpos j ≤ endpos - offset := by
  unfold bytesBelow
  omega

/-- The pieces of a range from the block `j` on: they all end up below the end of the
block map, or one of them panics. -/
theorem ioRange_returnsUnless (hlt : offset < endpos) (n : Nat) :
    ∀ j t (io : Transfer), offset / SFS_BLKSIZE ≤ j → io.alen = bytesBelow offset endpos j →
      WellFormed (calm t) usage → ino ∈ t.inodeList → j ≤ (dinOf t ino).blocks →
      (¬(maxBlocks < j + n ∧ Fills t ino) →
        ∃ r io' t', ioRange ino offset endpos write n j io t = .ok (.ok (r, io'), t') ∧
          io'.alen ≤ endpos - offset) ∧
      (maxBlocks < j + n ∧ Fills t ino → Steady t →
        ioRange ino offset endpos write n j io t = .error .panic) := by
  induction n with
  | zero =>
      intro j t io _ halen hwf hin hj
      have hmax := hwf.blocks_max ino (hwf.loaded ino hin)
      have hmax' : (dinOf t ino).blocks ≤ maxBlocks := hmax
      refine ⟨fun _ => ⟨.ok (), io, t, rfl, ?_⟩, fun hbad => absurd hbad.1 (by omega)⟩
      rw [halen]
      exact bytesBelow_le hlt j
  | succ n ih =>
      intro j t io hstart halen hwf hin hj
      have hmax : (dinOf t ino).blocks ≤ maxBlocks := hwf.blocks_max ino (hwf.loaded ino hin)
      rw [ioRange, andContinue]
      rcases Nat.lt_or_eq_of_le (le_trans hj hmax) with hroom | rfl
      · have hcases := ioStep_cases (@moves_pieceOp offset endpos write j hstart) hwf
          hin hj hroom (pieceSize offset endpos j) io
        rw [← ioPiece_eq] at hcases
        rcases hcases with ⟨buf, t', hrun, hlooked⟩ | ⟨e, t', hrun, hcause⟩
        · have hnext := ih (j + 1) t' { buf := buf, alen := io.alen + pieceSize offset endpos j }
            (by omega) (by rw [bytesBelow_succ hstart hlt, halen]) hlooked.wf
            (by rw [hlooked.loaded]; exact hin) (by rw [hlooked.blocks]; omega)
          rw [hlooked.fills, Nat.add_right_comm, Nat.add_assoc j n 1] at hnext
          rw [bind_of_ok hrun]
          exact ⟨hnext.1, fun hbad hs => hnext.2 hbad (hlooked.steady hs)⟩
        · refine ⟨fun _ => ⟨.error e, io, t', bind_of_ok hrun, ?_⟩, fun hbad hs => ?_⟩
          · rw [halen]
            exact bytesBelow_le hlt j
          · obtain ⟨rfl, hfew⟩ := hcause hs
            have hcost := @growCost_le_blocksNeeded t ino maxBlocks hroom
            have hfills := hbad.2
            simp only [Fills] at hfills
            omega
      · have hfull : (dinOf t ino).blocks = maxBlocks := le_antisymm hmax hj
        have hpanic : ioPiece ino offset endpos write maxBlocks io t = .error .panic := by
          rw [ioPiece_eq]
          exact ioStep_full hin hfull _ io
        refine ⟨fun hgood => absurd ⟨by omega, fills_of_full hwf hin hfull⟩ hgood, fun _ _ => ?_⟩
        exact bind_of_abort hpanic

theorem ioFinish_returns (sin alen : Nat) (t : SfsFs) :
    ∃ t', ioFinish sin offset alen t = .ok (.ok (), t') := by
  rw [ioFinish, getState_bind]
  split
  · exact ⟨_, rfl⟩
  · exact ⟨t, rfl⟩

/-- The part of `sfs_io_nolock` after its checks. -/
theorem ioBody_returnsUnless (h : WellFormed (calm sfs) usage) (hin : ino ∈ sfs.inodeList)
    (hlt : offset < endpos) (hoffset : offset / SFS_BLKSIZE ≤ (dinOf sfs ino).blocks)
    (buf : Bytes) :
    (¬Overruns sfs ino endpos →
      ∃ r io sfs', ioBody ino offset endpos write buf sfs = .ok (.ok (r, io), sfs') ∧
        io.alen ≤ endpos - offset) ∧
    (Overruns sfs ino endpos → Steady sfs →
      ioBody ino offset endpos write buf sfs = .error .panic) := by
  have hcount : offset / SFS_BLKSIZE + (blocksFor endpos - offset / SFS_BLKSIZE) =
      blocksFor endpos := by
    have hle := blocksFor_mono (Nat.le_of_lt hlt)
    unfold blocksFor SFS_BLKSIZE at *
    omega
  have hstart : ({ buf := buf, alen := 0 } : Transfer).alen =
      bytesBelow offset endpos (offset / SFS_BLKSIZE) := (bytesBelow_first offset endpos).symm
  have hrange := @ioRange_returnsUnless usage ino offset endpos write hlt
    (blocksFor endpos - offset / SFS_BLKSIZE) (offset / SFS_BLKSIZE) sfs
    { buf := buf, alen := 0 } le_rfl hstart h hin hoffset
  rw [hcount, ← ioPhases_eq _ hlt] at hrange
  refine ⟨fun hgood => ?_, fun hbad hs => ?_⟩
  · obtain ⟨r, io, t, heq, halen⟩ := hrange.1 hgood
    obtain ⟨t', heq'⟩ := @ioFinish_returns offset ino io.alen t
    exact ⟨r, io, t', ioBody_eq heq heq', halen⟩
  · exact bind_of_abort (hrange.2 hbad hs)

/-- Where a transfer of `alen` bytes from `offset` on is to end. -/
def ioEnd (offset : Int) (alen : Nat) : Nat :=
  (min (Int.bmod (offset + alen) (2 ^ 64)) SFS_MAX_FILE_SIZE).toNat

theorem ioEnd_le (offset alen : Nat) : ioEnd offset alen ≤ offset + alen := by
  unfold ioEnd Int.bmod
  simp only
  split
  · omega
  · omega

theorem ioEnd_le_start {offset alen : Nat}
    (h : Int.bmod ((offset : Int) + alen) (2 ^ 64) ≤ offset) : ioEnd offset alen ≤ offset := by
  unfold ioEnd
  generalize Int.bmod ((offset : Int) + alen) (2 ^ 64) = e at h ⊢
  generalize SFS_MAX_FILE_SIZE = m
  omega

/-- A transfer that moves on ends where `sfs_io_nolock` clips it. -/
theorem ioEnd_eq_clip {offset alen : Nat} (hoffset : offset < SFS_MAX_FILE_SIZE)
    (h : (offset : Int) < Int.bmod ((offset : Int) + alen) (2 ^ 64)) :
    offset < ioEnd offset alen ∧
      (if (SFS_MAX_FILE_SIZE : Int) < Int.bmod ((offset : Int) + alen) (2 ^ 64) then
        SFS_MAX_FILE_SIZE else (Int.bmod ((offset : Int) + alen) (2 ^ 64)).toNat) =
          ioEnd offset alen := by
  unfold ioEnd
  generalize Int.bmod ((offset : Int) + alen) (2 ^ 64) = e at h ⊢
  generalize SFS_MAX_FILE_SIZE = m at hoffset ⊢
  refine ⟨by omega, ?_⟩
  split
  · omega
  · omega

theorem not_overruns_of_le {n : Nat} (h : WellFormed (calm sfs) usage)
    (hin : ino ∈ sfs.inodeList) (hblocks : (dinOf sfs ino).blocks = blocksFor (dinOf sfs ino).size)
    (hn : n ≤ (dinOf sfs ino).size) : ¬Overruns sfs ino n := by
  rintro ⟨hlt, _⟩
  have hmax : (dinOf sfs ino).blocks ≤ maxBlocks := h.blocks_max ino (h.loaded ino hin)
  have hle := blocksFor_mono hn
  omega

theorem sfsIoNolock_returnsUnless (h : WellFormed (calm sfs) usage) (hin : ino ∈ sfs.inodeList)
    (hblocks : (dinOf sfs ino).blocks = blocksFor (dinOf sfs ino).size)
    (htype : (dinOf sfs ino).type = SFS_TYPE_FILE) (hoffset : offset ≤ (dinOf sfs ino).size)
    (buf : Bytes) (alen : Nat) :
    (¬(write = true ∧ Overruns sfs ino (ioEnd offset alen)) →
      ∃ r io sfs', sfsIoNolock ino buf offset alen write sfs = .ok (.ok (r, io), sfs') ∧
        io.alen ≤ alen) ∧
    (write = true ∧ Overruns sfs ino (ioEnd offset alen) → Steady sfs →
      sfsIoNolock ino buf offset alen write sfs = .error .panic) := by
  have hdin := @dinOf_loaded sfs ino hin
  have hnotDir : (sfs.inode ino).din.type ≠ SFS_TYPE_DIR :=
    not_directory hin htype
  have hsmall : (dinOf sfs ino).size < SFS_MAX_FILE_SIZE := by
    have hmax : (dinOf sfs ino).blocks ≤ maxBlocks := h.blocks_max ino (h.loaded ino hin)
    have hsize := le_blocksFor (dinOf sfs ino).size
    rw [← hblocks] at hsize
    exact lt_of_le_of_lt (le_trans hsize (Nat.mul_le_mul_right _ hmax)) (by decide)
  have hfirst : offset / SFS_BLKSIZE ≤ (dinOf sfs ino).blocks := by
    rw [hblocks]
    have hle := blocksFor_mono hoffset
    unfold blocksFor SFS_BLKSIZE at *
    omega
  have hlast := ioEnd_le offset alen
  have hclip := @ioEnd_eq_clip offset alen (lt_of_le_of_lt hoffset hsmall)
  have hback := @ioEnd_le_start offset alen
  rw [sfsIoNolock, getState_bind, ensure_bind_of hnotDir]
  simp only [← hdin, Int.toNat_natCast]
  generalize Int.bmod ((offset : Int) + alen) (2 ^ 64) = e at hclip hback ⊢
  have hbound : ¬(SFS_MAX_FILE_SIZE : Int) ≤ offset := by
    generalize SFS_MAX_FILE_SIZE = m at hsmall
    omega
  by_cases hrange : (offset : Int) < 0 ∨ (SFS_MAX_FILE_SIZE : Int) ≤ offset ∨ e < offset
  · have hle : e ≤ offset := by
      rcases hrange with hneg | hmax | hlt
      · exact absurd (Int.natCast_nonneg offset) (not_le.mpr hneg)
      · exact absurd hmax hbound
      · exact le_of_lt hlt
    have hnot := not_overruns_of_le h hin hblocks (le_trans (hback hle) hoffset)
    rw [if_pos hrange]
    exact ⟨fun _ => ⟨_, _, sfs, rfl, Nat.zero_le _⟩, fun hbad => absurd hbad.2 hnot⟩
  · rw [if_neg hrange]
    by_cases hempty : (offset : Int) = e
    · have hnot := not_overruns_of_le h hin hblocks (le_trans (hback (le_of_eq hempty.symm)) hoffset)
      rw [if_pos hempty]
      exact ⟨fun _ => ⟨_, _, sfs, rfl, Nat.zero_le _⟩, fun hbad => absurd hbad.2 hnot⟩
    · obtain ⟨hmove, hclip⟩ := hclip (lt_of_le_of_ne
        (not_lt.mp fun hlt => hrange (.inr (.inr hlt))) hempty)
      rw [if_neg hempty, hclip]
      cases write with
      | true =>
          have hbody := @ioBody_returnsUnless sfs usage ino offset (ioEnd offset alen) true h hin
            hmove hfirst buf
          simp only [Bool.true_eq_false, false_and, if_false, true_and]
          refine ⟨fun hgood => ?_, fun hbad hs => hbody.2 hbad hs⟩
          obtain ⟨r, io, sfs', heq, halen⟩ := hbody.1 hgood
          exact ⟨r, io, sfs', heq, by omega⟩
      | false =>
          simp only [true_and, Bool.false_eq_true, false_and, not_false_eq_true, false_implies,
            and_true, forall_const]
          by_cases hpast : (dinOf sfs ino).size ≤ offset
          · rw [if_pos hpast]
            exact ⟨_, _, sfs, rfl, Nat.zero_le _⟩
          · rw [if_neg hpast]
            have hshort : (if (dinOf sfs ino).size < ioEnd offset alen then (dinOf sfs ino).size
                else ioEnd offset alen) = min (dinOf sfs ino).size (ioEnd offset alen) := by
              split
              · omega
              · omega
            rw [hshort]
            have hbody := @ioBody_returnsUnless sfs usage ino offset
              (min (dinOf sfs ino).size (ioEnd offset alen)) false h hin (by omega) hfirst buf
            obtain ⟨r, io, sfs', heq, halen⟩ :=
              hbody.1 (not_overruns_of_le h hin hblocks (by omega))
            exact ⟨r, io, sfs', heq, by omega⟩

theorem iobufSkip_of {iob : Iobuf} {n : Nat} (h : n ≤ iob.resid) : iobufSkip iob n t =
    .ok (.ok { iob with offset := iob.offset + n, resid := iob.resid - n }, t) := by
  rw [iobufSkip, ensure_bind_of h]
  rfl

theorem sfsIo_returnsUnless (h : WellFormed (calm sfs) usage) (hin : ino ∈ sfs.inodeList)
    (hblocks : (dinOf sfs ino).blocks = blocksFor (dinOf sfs ino).size)
    (htype : (dinOf sfs ino).type = SFS_TYPE_FILE) (iob : Iobuf) (hstart : 0 ≤ iob.offset)
    (hoffset : iob.offset ≤ (dinOf sfs ino).size) :
    ReturnsUnless (write = true ∧ Overruns sfs ino (ioEnd iob.offset iob.resid))
      (sfsIo ino iob write) sfs := by
  obtain ⟨offset, hnat⟩ := Int.eq_ofNat_of_zero_le hstart
  rw [hnat] at hoffset ⊢
  have hnolock := @sfsIoNolock_returnsUnless sfs usage ino offset write h hin hblocks htype
    (by omega) (fun k => iob.buf (iobufUsed iob + k)) iob.resid
  refine ⟨fun hgood => ?_, fun hbad hs => ?_⟩
  · obtain ⟨r, io, sfs', heq, halen⟩ := hnolock.1 hgood
    rw [← hnat] at heq
    rw [sfsIo, bind_of_ok heq]
    simp only
    split
    · exact ⟨_, _, bind_of_ok (iobufSkip_of halen)⟩
    · exact ⟨_, sfs', rfl⟩
  · have hpanic := hnolock.2 hbad hs
    rw [← hnat] at hpanic
    exact bind_of_abort hpanic

end Transfers

section Resizing

/-- The loop that enlarges a file. -/
theorem truncGrow_returnsUnless (n : Nat) :
    ∀ t, WellFormed (calm t) usage → ino ∈ t.inodeList →
      (¬(maxBlocks < (dinOf t ino).blocks + n ∧ Fills t ino) →
        ∃ r t', truncGrow ino n (dinOf t ino).blocks t = .ok (r, t') ∧
          (r = .ok () → ino ∈ t'.inodeList ∧
            (dinOf t' ino).blocks = (dinOf t ino).blocks + n)) ∧
      (maxBlocks < (dinOf t ino).blocks + n ∧ Fills t ino → Steady t →
        truncGrow ino n (dinOf t ino).blocks t = .error .panic) := by
  induction n with
  | zero =>
      intro t hwf hin
      have hmax : (dinOf t ino).blocks ≤ maxBlocks := hwf.blocks_max ino (hwf.loaded ino hin)
      exact ⟨fun _ => ⟨.ok (), t, rfl, fun _ => ⟨hin, rfl⟩⟩,
        fun hbad => absurd hbad.1 (by omega)⟩
  | succ n ih =>
      intro t hwf hin
      have hmax : (dinOf t ino).blocks ≤ maxBlocks := hwf.blocks_max ino (hwf.loaded ino hin)
      rw [truncGrow]
      rcases Nat.lt_or_eq_of_le hmax with hroom | hfull
      · rcases sfsBmapLoadNolock_cases hwf hin le_rfl hroom with
          ⟨b, t', hload, hlocated, hsteady⟩ | ⟨e, t', hload, hcause⟩
        · have hlooked := Looked.of_located hlocated hin hsteady
          have hin' : ino ∈ t'.inodeList := by
            rw [hlooked.loaded]
            exact hin
          have hblocks : (dinOf t' ino).blocks = (dinOf t ino).blocks + 1 := by
            rw [hlooked.blocks]
            omega
          have hnext := ih t' hlooked.wf hin'
          rw [hlooked.fills, hblocks, Nat.add_assoc, Nat.add_comm 1 n] at hnext
          rw [bind_of_ok hload]
          exact ⟨hnext.1, fun hbad hs => hnext.2 hbad (hlooked.steady hs)⟩
        · refine ⟨fun _ => ⟨.error e, t', bind_of_error hload, fun hr => by cases hr⟩,
            fun hbad hs => ?_⟩
          have hcost := @growCost_le_blocksNeeded t ino maxBlocks hroom
          have hfills := hbad.2
          have hfew := (hcause hs).2
          simp only [Fills] at hfills
          omega
      · have hpanic := sfsBmapLoadNolock_full hin hfull
        rw [← hfull] at hpanic
        exact ⟨fun hgood => absurd ⟨by omega, fills_of_full hwf hin hfull⟩ hgood,
          fun _ _ => bind_of_abort hpanic⟩

/-- The loop that reduces a file. -/
theorem truncShrink_returns (n : Nat) :
    ∀ t, WellFormed (calm t) usage → ino ∈ t.inodeList → n ≤ (dinOf t ino).blocks →
      ∃ r t', truncShrink ino n t = .ok (r, t') ∧
        (r = .ok () → ino ∈ t'.inodeList ∧
          (dinOf t' ino).blocks = (dinOf t ino).blocks - n) := by
  induction n with
  | zero =>
      intro t _ hin _
      exact ⟨.ok (), t, rfl, fun _ => ⟨hin, rfl⟩⟩
  | succ n ih =>
      intro t hwf hin hn
      have hdin := @dinOf_loaded t ino hin
      have hsucc : (t.inode ino).din.blocks = ((dinOf t ino).blocks - 1) + 1 := by
        rw [← hdin]
        omega
      rw [truncShrink]
      rcases sfsBmapTruncateNolock_outcome hwf hin hsucc with
        ⟨b, t', hrun, hshrunk, _⟩ | ⟨e, k, hrun⟩
      · have hin' : ino ∈ t'.inodeList := by
          have hloaded : t'.inodeList = t.inodeList := hshrunk.loaded
          rw [hloaded]
          exact hin
        have hblocks : (dinOf t' ino).blocks + 1 = (dinOf t ino).blocks := hshrunk.blocks
        obtain ⟨r, t'', heq, hdone⟩ := ih t' hshrunk.wf hin' (by omega)
        refine ⟨r, t'', (bind_of_ok hrun).trans heq, fun hr => ?_⟩
        obtain ⟨hin'', hblocks'⟩ := hdone hr
        exact ⟨hin'', by omega⟩
      · exact ⟨.error e, _, bind_of_error hrun, fun hr => by cases hr⟩

theorem truncResize_returnsUnless (h : WellFormed (calm sfs) usage) (hin : ino ∈ sfs.inodeList)
    (tblks : Nat) :
    (¬(maxBlocks < tblks ∧ Fills sfs ino) →
      ∃ r t, truncResize ino tblks sfs = .ok (r, t) ∧
        (r = .ok () → (t.inode ino).din.blocks = tblks)) ∧
    (maxBlocks < tblks ∧ Fills sfs ino → Steady sfs →
      truncResize ino tblks sfs = .error .panic) := by
  have hdin := @dinOf_loaded sfs ino hin
  have hmax : (dinOf sfs ino).blocks ≤ maxBlocks := h.blocks_max ino (h.loaded ino hin)
  rw [truncResize, getState_bind]
  simp only [← hdin]
  by_cases hlt : (dinOf sfs ino).blocks < tblks
  · have hgrow := @truncGrow_returnsUnless usage ino (tblks - (dinOf sfs ino).blocks) sfs h hin
    rw [Nat.add_sub_cancel' (le_of_lt hlt)] at hgrow
    rw [if_pos hlt]
    refine ⟨fun hgood => ?_, hgrow.2⟩
    obtain ⟨r, t, heq, hdone⟩ := hgrow.1 hgood
    refine ⟨r, t, heq, fun hr => ?_⟩
    rw [← dinOf_loaded (hdone hr).1]
    exact (hdone hr).2
  · rw [if_neg hlt]
    obtain ⟨r, t, heq, hdone⟩ := @truncShrink_returns usage ino ((dinOf sfs ino).blocks - tblks)
      sfs h hin (Nat.sub_le _ _)
    refine ⟨fun _ => ⟨r, t, heq, fun hr => ?_⟩, fun hbad => absurd hbad.1 (by omega)⟩
    rw [← dinOf_loaded (hdone hr).1, (hdone hr).2]
    omega

theorem sfsTruncfile_returnsUnless (h : WellFormed (calm sfs) usage) (hin : ino ∈ sfs.inodeList)
    (hblocks : (dinOf sfs ino).blocks = blocksFor (dinOf sfs ino).size) (len : Int) :
    ReturnsUnless (len ≤ SFS_MAX_FILE_SIZE ∧ Overruns sfs ino len.toNat)
      (sfsTruncfile ino len) sfs := by
  have hdin := @dinOf_loaded sfs ino hin
  have hresize := truncResize_returnsUnless h hin (blocksFor len.toNat)
  have hnegative : len < 0 → ¬Overruns sfs ino len.toNat := by
    intro hneg
    rw [Int.toNat_of_nonpos (le_of_lt hneg)]
    exact not_overruns_of_le h hin hblocks (Nat.zero_le _)
  rw [sfsTruncfile]
  by_cases hrange : len < 0 ∨ (SFS_MAX_FILE_SIZE : Int) < len
  · rw [if_pos hrange]
    refine ⟨fun _ => ⟨_, sfs, rfl⟩, fun hbad => ?_⟩
    rcases hrange with hneg | hlong
    · exact absurd hbad.2 (hnegative hneg)
    · exact absurd hbad.1 (not_le.mpr hlong)
  · rw [if_neg hrange]
    have hlen : len ≤ SFS_MAX_FILE_SIZE := not_lt.mp fun hlt => hrange (.inr hlt)
    by_cases hsame : (dinOf sfs ino).size = len.toNat
    · have htblks : (len.toNat + SFS_BLKSIZE - 1) / SFS_BLKSIZE = (sfs.inode ino).din.blocks := by
        rw [← hdin, hblocks, hsame, blocksFor]
      have hnot := not_overruns_of_le h hin hblocks (le_of_eq hsame.symm)
      rw [hdin] at hsame
      refine ⟨fun _ => ⟨.ok (), sfs, ?_⟩, fun hbad => absurd hbad.2 hnot⟩
      simp only [getState_bind]
      rw [if_pos hsame]
      exact if_pos htblks
    · rw [hdin] at hsame
      refine ⟨fun hgood => ?_, fun hbad hs => ?_⟩
      · obtain ⟨r, t, heq, hdone⟩ := hresize.1 fun hbad => hgood ⟨hlen, hbad⟩
        simp only [getState_bind]
        rw [if_neg hsame]
        rcases r with e | ⟨⟩
        · exact ⟨_, t, bind_of_error heq⟩
        · refine ⟨.ok (), t.setInode ino
            { din := { (t.inode ino).din with size := len.toNat }, dirty := true },
            (bind_of_ok heq).trans ?_⟩
          rw [getState_bind]
          exact ensure_bind_of (hdone rfl) _ t
      · simp only [getState_bind]
        rw [if_neg hsame]
        exact bind_of_abort (hresize.2 hbad.2 hs)

theorem sfsTryseek_returnsUnless (h : WellFormed (calm sfs) usage) (hin : ino ∈ sfs.inodeList)
    (hblocks : (dinOf sfs ino).blocks = blocksFor (dinOf sfs ino).size) (pos : Int) :
    ReturnsUnless (pos < SFS_MAX_FILE_SIZE ∧ Overruns sfs ino pos.toNat)
      (sfsTryseek ino pos) sfs := by
  have hdin := @dinOf_loaded sfs ino hin
  have htrunc := sfsTruncfile_returnsUnless h hin hblocks pos
  rw [sfsTryseek]
  by_cases hrange : pos < 0 ∨ (SFS_MAX_FILE_SIZE : Int) ≤ pos
  · rw [if_pos hrange]
    refine ⟨fun _ => ⟨_, sfs, rfl⟩, fun hbad => ?_⟩
    rcases hrange with hneg | hlong
    · have hzero : pos.toNat = 0 := Int.toNat_of_nonpos (le_of_lt hneg)
      have hnot := @not_overruns_of_le sfs usage ino pos.toNat h hin hblocks (by omega)
      exact absurd hbad.2 hnot
    · exact absurd hbad.1 (not_lt.mpr hlong)
  · rw [if_neg hrange]
    have hpos : pos < SFS_MAX_FILE_SIZE := not_le.mp fun hle => hrange (.inr hle)
    by_cases hlong : ((sfs.inode ino).din.size : Int) < pos
    · refine htrunc.of_run ?_ ?_
      · rw [getState_bind, if_pos hlong]
      · simp only [hpos, le_of_lt hpos, true_and]
    · rw [← hdin] at hlong
      have hnot := @not_overruns_of_le sfs usage ino pos.toNat h hin hblocks (by omega)
      rw [hdin] at hlong
      refine ⟨fun _ => ⟨.ok (), sfs, ?_⟩, fun hbad => absurd hbad.2 hnot⟩
      rw [getState_bind, if_neg hlong]
      rfl

end Resizing

section Limits

/-- A regular file can be read anywhere, and written, sought and truncated up to the
end of its block map; beyond it the kernel panics, unless the blocks run out before. -/
theorem fileCalls_returnUnless_overruns (h : WellFormed (calm sfs) usage)
    (hsized : Sized sfs usage) (hin : ino ∈ sfs.inodeList)
    (htype : (dinOf sfs ino).type = SFS_TYPE_FILE) :
    (∀ iob : Iobuf, 0 ≤ iob.offset → iob.offset ≤ (dinOf sfs ino).size →
      ReturnsUnless False (sfsIo ino iob false) sfs ∧
        ReturnsUnless (Overruns sfs ino (ioEnd iob.offset iob.resid)) (sfsIo ino iob true) sfs) ∧
    (∀ pos : Int, ReturnsUnless (pos < SFS_MAX_FILE_SIZE ∧ Overruns sfs ino pos.toNat)
      (sfsTryseek ino pos) sfs) ∧
    ∀ len : Int, ReturnsUnless (len ≤ SFS_MAX_FILE_SIZE ∧ Overruns sfs ino len.toNat)
      (sfsTruncfile ino len) sfs := by
  have hblocks := hsized ino (h.loaded ino hin) htype
  refine ⟨fun iob hstart hoffset => ⟨?_, ?_⟩, sfsTryseek_returnsUnless h hin hblocks,
    sfsTruncfile_returnsUnless h hin hblocks⟩
  · refine (sfsIo_returnsUnless h hin hblocks htype iob hstart hoffset).of_run rfl ?_
    simp only [Bool.false_eq_true, false_and]
  · refine (sfsIo_returnsUnless h hin hblocks htype iob hstart hoffset).of_run rfl ?_
    simp only [true_and]

/-- The small file can be extended by a few blocks: the disk is full before the block
map is. -/
theorem fileCalls_return_smallFs :
    (∃ r sfs', sfsIo 3 (iobufInit zeros 5000 99) true smallFs = .ok (r, sfs')) ∧
      ∃ r sfs', sfsTryseek 3 4243457 smallFs = .ok (r, sfs') := by
  have hfull : ¬Fills smallFs 3 := by
    rw [Fills, dinOf_smallFs]
    decide
  have hcalls := @fileCalls_returnUnless_overruns smallFs smallUsage 3 wellFormed_smallFs
    sized_smallFs (by decide) (by rw [dinOf_smallFs]; rfl)
  refine ⟨((hcalls.1 _ ?_ ?_).2).returns fun hbad => hfull hbad.2,
    (hcalls.2.1 _).returns fun hbad => hfull hbad.2.2⟩
  · decide
  · rw [dinOf_smallFs]
    decide

/-- The file system of `smallFs` on a disk of 2048 blocks. -/
def roomyFs : SfsFs :=
  { smallFs with
    super := { smallFs.super with blocks := 2048, unusedBlocks := 2042 }
    dev := { smallFs.dev with dBlocks := 2048, dBlocks_le := by decide }
    freemap :=
      { nbits := 2048, nwords := 64
        map := fun k => if k = 0 then 0xFFFFFFC0#32 else BitVec.allOnes 32 } }

theorem bit_roomyFs (b : Nat) : roomyFs.freemap.bit b = true ↔ 6 ≤ b := by
  have hsmall : ∀ b, b < 32 → ((0xFFFFFFC0#32).getLsbD b = true ↔ 6 ≤ b) := by decide
  rw [Bitmap.bit]
  change (if b / WORD_BITS = 0 then 0xFFFFFFC0#32 else BitVec.allOnes 32).getLsbD _ = true ↔ _
  unfold WORD_BITS
  split
  · next hzero =>
      have hlt : b < 32 := by omega
      rw [Nat.mod_eq_of_lt hlt]
      exact hsmall b hlt
  · next hne =>
      rw [BitVec.getLsbD_allOnes, decide_eq_true_eq]
      omega

theorem freeCount_roomyFs : freeCount roomyFs = 2042 := by
  have hcount : freeCount roomyFs = Nat.count (fun b => 6 ≤ b) (6 + 2042) := by
    simp only [freeCount, bit_roomyFs]
    rfl
  have hused : Nat.count (fun b => 6 ≤ b) 6 = 0 := by decide
  have hfree : Nat.count (fun k => 6 ≤ 6 + k) 2042 = 2042 := by
    rw [Nat.count_iff_forall]
    intro k _
    exact Nat.le_add_right 6 k
  rw [hcount, Nat.count_add, hused, hfree]

theorem freemapOk_roomyFs : FreemapOk roomyFs where
  steady := ⟨fun _ => rfl, le_rfl⟩
  nbits := rfl
  blocks_le := le_rfl
  free_lt := fun _ hlt _ => hlt
  super_used := by decide
  unused := freeCount_roomyFs.symm

theorem inUse_roomyFs : InUse roomyFs = InUse smallFs := by
  funext k
  have hroomy := bit_roomyFs k
  have hsmall := bit_smallFs k
  change (k < 2048 ∧ roomyFs.freemap.bit k = false) = (k < 8 ∧ smallFs.freemap.bit k = false)
  rw [← Bool.not_eq_true, hroomy, propext_iff]
  constructor
  · rintro ⟨_, hlt⟩
    exact ⟨by omega, (hsmall (by omega)).mpr (.inl (by omega))⟩
  · rintro ⟨hlt, hused⟩
    have hk := (hsmall (by omega)).mp hused
    omega

theorem wellFormed_roomyFs : WellFormed roomyFs smallUsage where
  freemap := freemapOk_roomyFs
  owns := by
    rw [inUse_roomyFs]
    exact owns_smallFs
  super_reserved := wellFormed_smallFs.super_reserved
  blocks_max := wellFormed_smallFs.blocks_max
  mapped := wellFormed_smallFs.mapped
  loaded := wellFormed_smallFs.loaded

/-- The small file cannot be extended past 4 MB on a disk of 8 MB. -/
theorem fileCalls_panic_roomyFs :
    WellFormed roomyFs smallUsage ∧ Sized roomyFs smallUsage ∧ 3 ∈ roomyFs.inodeList ∧
      (dinOf roomyFs 3).type = SFS_TYPE_FILE ∧ (4243457 : Int) < SFS_MAX_FILE_SIZE ∧
      sfsTryseek 3 4243457 roomyFs = .error .panic ∧
      sfsTruncfile 3 4243457 roomyFs = .error .panic ∧
      sfsIo 3 (iobufInit zeros 4243358 99) true roomyFs = .error .panic := by
  have hfills : Fills roomyFs 3 := by
    rw [Fills, freeCount_roomyFs]
    change blocksNeeded (dinOf smallFs 3) maxBlocks ≤ _
    rw [dinOf_smallFs]
    decide
  have hsteady : Steady roomyFs := freemapOk_roomyFs.steady
  have hwf : WellFormed (calm roomyFs) smallUsage := wellFormed_roomyFs
  have hin : 3 ∈ roomyFs.inodeList := by decide
  have hdin : dinOf roomyFs 3 = smallFile := dinOf_smallFs
  have hblocks : (dinOf roomyFs 3).blocks = blocksFor (dinOf roomyFs 3).size := by
    rw [hdin]
    decide
  have hlong : maxBlocks < blocksFor (4243457 : Int).toNat := by decide
  have hend : maxBlocks < blocksFor (ioEnd 99 4243358) := by decide
  refine ⟨wellFormed_roomyFs, sized_smallFs, hin, congrArg SfsDiskInode.type hdin, by decide,
    ?_, ?_, ?_⟩
  · exact (sfsTryseek_returnsUnless hwf hin hblocks 4243457).panics
      ⟨by decide, hlong, hfills⟩ hsteady
  · exact (sfsTruncfile_returnsUnless hwf hin hblocks 4243457).panics
      ⟨by decide, hlong, hfills⟩ hsteady
  · refine (sfsIo_returnsUnless hwf hin hblocks (congrArg SfsDiskInode.type hdin)
      (iobufInit zeros 4243358 99) (by decide) ?_).panics ⟨rfl, hend, hfills⟩ hsteady
    rw [hdin]
    decide

end Limits

end Ucore.SfsCapacity
