import Ucore.SfsGaps

/-! What a transfer of a regular file moves, whatever the device does. -/

namespace Ucore.SfsTransfers

open Ucore.Errors
open Ucore.KernelRoutine
open Ucore.ByteBuffer
open Ucore.SfsDisk
open Ucore.SfsBlockMap
open Ucore.SfsOwnership
open Ucore.SfsFileViews
open Ucore.SfsIo
open Ucore.SfsIoPhases
open Ucore.SfsIoRange
open Ucore.SfsIoRefinement
open Ucore.SfsFaults
open Ucore.SfsBlockMapFaults
open Ucore.SfsDirtyInode
open Ucore.SfsCapacity
open Ucore.SfsGaps

/-- A regular file in memory. Its blocks cover its size; the device may fail. -/
structure RegularFile (ino : Nat) (sfs : SfsFs) : Prop extends Held ino sfs where
  regular : (dinOf sfs ino).type = SFS_TYPE_FILE
  covered : (dinOf sfs ino).size ≤ (dinOf sfs ino).blocks * SFS_BLKSIZE

variable {sfs sfs' t t' : SfsFs} {usage : Usage} {ino : Nat}

theorem RegularFile.passed (h : RegularFile ino sfs) (k : Nat) :
    RegularFile ino (passed sfs k) :=
  ⟨⟨h.wf, h.loaded⟩, h.regular, h.covered⟩

theorem RegularFile.size_le (h : RegularFile ino sfs) :
    (dinOf sfs ino).size ≤ maxBlocks * SFS_BLKSIZE := by
  obtain ⟨usage, hwf⟩ := h.wf
  have hmax : (dinOf sfs ino).blocks ≤ maxBlocks := hwf.blocks_max ino (hwf.loaded ino h.loaded)
  exact le_trans h.covered (Nat.mul_le_mul_right _ hmax)

section Pieces

variable {offset endpos j : Nat}

theorem pieceStart_of_full (hfull : pieceSize offset endpos j = SFS_BLKSIZE) :
    pieceStart offset j = 0 := by
  unfold pieceSize at hfull
  unfold pieceStart SFS_BLKSIZE at *
  omega

theorem pieceStart_room (hj : offset / SFS_BLKSIZE ≤ j) :
    pieceStart offset j < SFS_BLKSIZE ∧
      pieceStart offset j + pieceSize offset endpos j ≤ SFS_BLKSIZE := by
  unfold pieceStart pieceSize SFS_BLKSIZE at *
  omega

/-- Reading the piece of the range in a block. -/
theorem pieceOp_read_tries (hj : offset / SFS_BLKSIZE ≤ j) (hfit : Fitting t) (buf : Bytes)
    (pos : Nat) {b : Nat} (hne : b ≠ 0) (hlt : b < t.super.blocks) :
    Tries (pieceOp offset endpos false j buf pos b) t 1
      (copyBytes buf pos (t.dev.block b) (pieceStart offset j) (pieceSize offset endpos j)) t := by
  obtain ⟨hstart, hroom⟩ := @pieceStart_room offset endpos j hj
  by_cases hfull : pieceSize offset endpos j = SFS_BLKSIZE
  · rw [pieceOp, if_pos hfull, pieceStart_of_full hfull, hfull]
    apply (sfsRwblockNolock_tries hfit buf pos hne hlt false).finish
    · intro hrun
      exact bind_of_ok hrun
    · intro e t₁ hrun
      exact bind_of_error hrun
  · rw [pieceOp, if_neg hfull]
    exact sfsRbuf_tries hfit buf pos hne hlt hstart hroom

/-- Writing it. -/
theorem pieceOp_write_tries (hj : offset / SFS_BLKSIZE ≤ j) (hfit : Fitting t) (buf : Bytes)
    (pos : Nat) {b : Nat} (hne : b ≠ 0) (hlt : b < t.super.blocks) :
    Tries (pieceOp offset endpos true j buf pos b) t (pieceCost offset endpos true j) buf
      (t.setBlock b (copyBytes (t.dev.block b) (pieceStart offset j) buf pos
        (pieceSize offset endpos j))) := by
  obtain ⟨hstart, hroom⟩ := @pieceStart_room offset endpos j hj
  by_cases hfull : pieceSize offset endpos j = SFS_BLKSIZE
  · rw [pieceOp, if_pos hfull, pieceCost, if_pos hfull, pieceStart_of_full hfull, hfull]
    apply (sfsRwblockNolock_tries hfit buf pos hne hlt true).finish
    · intro hrun
      exact bind_of_ok hrun
    · intro e t₁ hrun
      exact bind_of_error hrun
  · rw [pieceOp, if_neg hfull, pieceCost, if_neg hfull]
    exact sfsWbuf_tries hfit buf pos hne hlt hstart hroom

/-- Where the piece of the range in the block `j` begins. -/
theorem offset_add_bytesBelow (hlt : offset < endpos) (hend : j < blocksFor endpos) :
    offset + bytesBelow offset endpos j = j * SFS_BLKSIZE + pieceStart offset j := by
  unfold bytesBelow pieceStart
  unfold blocksFor SFS_BLKSIZE at *
  omega

end Pieces

section Reading

variable {offset endpos : Nat}

/-- What holds of a read that is under way. -/
structure Got (sfs : SfsFs) (ino offset : Nat) (io : Transfer) (t : SfsFs) : Prop where
  passed : ∃ k, t = passed sfs k
  filled : ∀ k, k < io.alen → io.buf k = byteAt sfs ino (offset + k)

/-- The piece of the range in the block `j` is read, or the device fails. -/
theorem ioPiece_gets (h : RegularFile ino sfs) (hlt : offset < endpos) {j : Nat}
    (hj : offset / SFS_BLKSIZE ≤ j) (hend : j < blocksFor endpos)
    (hblocks : j < (dinOf sfs ino).blocks) {io : Transfer} (hgot : Got sfs ino offset io t)
    (halen : io.alen = bytesBelow offset endpos j) :
    ∃ r io' t', ioPiece ino offset endpos false j io t = .ok (.ok (r, io'), t') ∧
      Got sfs ino offset io' t' ∧
      (r = .ok () ∧ io'.alen = bytesBelow offset endpos (j + 1) ∨
        ∃ e, r = .error e ∧ io' = io ∧ ¬Steady sfs) := by
  obtain ⟨⟨k, rfl⟩, hfilled⟩ := hgot
  obtain ⟨usage, hwf⟩ := h.wf
  have hfile := hwf.loaded ino h.loaded
  have hplace := offset_add_bytesBelow hlt hend
  have hnext := bytesBelow_succ hj hlt
  obtain ⟨_, hroom⟩ := @pieceStart_room offset endpos j hj
  rw [← halen] at hplace hnext
  rw [ioPiece_eq]
  have hwf' : WellFormed (calm (passed sfs k)) usage := hwf
  have hblocks' : j < (dinOf (passed sfs k) ino).blocks := hblocks
  rcases sfsBmapLoadNolock_tries hwf' h.loaded hblocks' with
    ⟨_, hload⟩ | ⟨n, e, _, _, hfault, hload⟩
  · obtain ⟨hne, huse⟩ := @inUse_data (calm sfs) usage hwf ino j hfile hblocks
    have hfit : Fitting (passed (passed sfs k) (lookupCost j)) := hwf.freemap.steady.blocks_le
    rcases @pieceOp_read_tries _ offset endpos j hj hfit io.buf io.alen _ hne huse.1 with
      ⟨_, hread⟩ | ⟨n, e, _, _, hfault, hread⟩
    · refine ⟨.ok (), ⟨copyBytes io.buf io.alen (sfs.dev.block (fileBlock sfs ino j))
          (pieceStart offset j) (pieceSize offset endpos j), io.alen + pieceSize offset endpos j⟩,
        passed (passed (passed sfs k) (lookupCost j)) 1, ?_, ⟨⟨k + lookupCost j + 1, by simp⟩, ?_⟩,
        .inl ⟨rfl, hnext.symm⟩⟩
      · rw [ioStep, attempt_bind_of_ok hload]
        exact attempt_bind_of_ok hread _
      · intro i hi
        rcases lt_or_ge i io.alen with hold | hnew
        · have hout : ¬(io.alen ≤ i ∧ i < io.alen + pieceSize offset endpos j) := by omega
          rw [← hfilled i hold]
          exact copyBytes_of_not_mem hout
        · have hoff : offset + i =
              pieceStart offset j + (i - io.alen) + SFS_BLKSIZE * j := by
            rw [Nat.mul_comm SFS_BLKSIZE j]
            omega
          have hin : pieceStart offset j + (i - io.alen) < SFS_BLKSIZE := by
            have hi' : i < io.alen + pieceSize offset endpos j := hi
            omega
          rw [byteAt, hoff, Nat.add_mul_div_left _ _ (by decide), Nat.add_mul_mod_self_left,
            Nat.mod_eq_of_lt hin, Nat.div_eq_of_lt hin, Nat.zero_add]
          exact copyBytes_of_mem hnew hi
    · refine ⟨.error e, io, passed (passed (passed sfs k) (lookupCost j)) (n + 1), ?_,
        ⟨⟨k + lookupCost j + (n + 1), by simp⟩, hfilled⟩, .inr ⟨e, rfl, rfl, fun hsteady => ?_⟩⟩
      · rw [ioStep, attempt_bind_of_ok hload]
        exact attempt_bind_of_ok hread _
      · simp only [passed_faults, hsteady.faults, reduceCtorEq] at hfault
  · refine ⟨.error e, io, passed (passed sfs k) (n + 1), ?_,
      ⟨⟨k + (n + 1), by simp⟩, hfilled⟩, .inr ⟨e, rfl, rfl, fun hsteady => ?_⟩⟩
    · rw [ioStep]
      exact attempt_bind_of_ok hload _
    · simp only [passed_faults, hsteady.faults, reduceCtorEq] at hfault

theorem ioRange_gets (h : RegularFile ino sfs) (hlt : offset < endpos)
    (hinside : blocksFor endpos ≤ (dinOf sfs ino).blocks) (n : Nat) :
    ∀ j t (io : Transfer), offset / SFS_BLKSIZE ≤ j → j + n ≤ blocksFor endpos →
      Got sfs ino offset io t → io.alen = bytesBelow offset endpos j →
      ∃ r io' t', ioRange ino offset endpos false n j io t = .ok (.ok (r, io'), t') ∧
        Got sfs ino offset io' t' ∧ io'.alen ≤ endpos - offset ∧
        (Steady sfs → r = .ok () ∧ io'.alen = bytesBelow offset endpos (j + n)) := by
  induction n with
  | zero =>
      intro j t io _ _ hgot halen
      refine ⟨.ok (), io, t, rfl, hgot, ?_, fun _ => ⟨rfl, halen⟩⟩
      rw [halen]
      exact bytesBelow_le hlt j
  | succ n ih =>
      intro j t io hj hend hgot halen
      have hhere : j < blocksFor endpos := by omega
      obtain ⟨r, io₁, t₁, hrun, hgot₁, hresult⟩ :=
        ioPiece_gets h hlt hj hhere (lt_of_lt_of_le hhere hinside) hgot halen
      rcases hresult with ⟨rfl, halen₁⟩ | ⟨e, rfl, rfl, hunsteady⟩
      · obtain ⟨r, io', t', heq, hgot', hle, hsteady⟩ :=
          ih (j + 1) t₁ io₁ (by omega) (by omega) hgot₁ halen₁
        rw [Nat.add_right_comm, Nat.add_assoc j n 1] at hsteady
        refine ⟨r, io', t', ?_, hgot', hle, hsteady⟩
        rw [ioRange, andContinue, bind_of_ok hrun]
        exact heq
      · refine ⟨.error e, io₁, t₁, ?_, hgot₁, ?_, fun hsteady => absurd hsteady hunsteady⟩
        · rw [ioRange, andContinue, bind_of_ok hrun]
          rfl
        · rw [halen]
          exact bytesBelow_le hlt j

/-- The part of `sfs_io_nolock` after its checks, within the file. -/
theorem ioBody_gets (h : RegularFile ino sfs) (hlt : offset < endpos)
    (hend : endpos ≤ (dinOf sfs ino).size) (buf : Bytes) :
    ∃ r io sfs', ioBody ino offset endpos false buf sfs = .ok (.ok (r, io), sfs') ∧
      Got sfs ino offset io sfs' ∧ io.alen ≤ endpos - offset ∧
      (Steady sfs → r = .ok () ∧ io.alen = endpos - offset) := by
  have hstart : ({ buf := buf, alen := 0 } : Transfer).alen =
      bytesBelow offset endpos (offset / SFS_BLKSIZE) := (bytesBelow_first offset endpos).symm
  have hlast := bytesBelow_last hlt
  have hsum : offset / SFS_BLKSIZE + (blocksFor endpos - offset / SFS_BLKSIZE) =
      blocksFor endpos := Nat.add_sub_cancel' (le_of_lt (lt_blocksFor hlt))
  have hgot : Got sfs ino offset { buf := buf, alen := 0 } sfs :=
    ⟨⟨0, (passed_zero sfs).symm⟩, fun k hk => absurd hk (Nat.not_lt_zero k)⟩
  obtain ⟨r, io, t, heq, hgot', hle, hsteady⟩ := ioRange_gets h hlt
    (blocksFor_le (le_trans hend h.covered)) (blocksFor endpos - offset / SFS_BLKSIZE)
    (offset / SFS_BLKSIZE) sfs { buf := buf, alen := 0 } le_rfl (le_of_eq hsum) hgot hstart
  rw [hsum, hlast] at hsteady
  refine ⟨r, io, t, ?_, hgot', hle, hsteady⟩
  obtain ⟨k, rfl⟩ := hgot'.passed
  have hinside : offset + io.alen ≤ (dinOf (passed sfs k) ino).size := by
    change offset + io.alen ≤ (dinOf sfs ino).size
    omega
  apply ioBody_eq
  · rw [ioPhases_eq _ hlt]
    exact heq
  · exact ioFinish_of_le h.loaded hinside

end Reading

section Writing

variable {buf : Bytes} {offset endpos alen : Nat}

/-- After `alen` bytes of `buf` have been put into the file from `offset` on. The file may
have got blocks that hold nothing yet. -/
structure Put (sfs t : SfsFs) (ino : Nat) (buf : Bytes) (offset alen : Nat) : Prop
    extends Held ino t where
  size : (dinOf t ino).size = (dinOf sfs ino).size
  type : (dinOf t ino).type = (dinOf sfs ino).type
  blocks : (dinOf sfs ino).blocks ≤ (dinOf t ino).blocks
  reached : alen ≠ 0 → offset + alen ≤ (dinOf t ino).blocks * SFS_BLKSIZE
  bytes : ∀ k, k / SFS_BLKSIZE < (dinOf t ino).blocks → byteAt t ino k =
    if offset ≤ k ∧ k < offset + alen then buf (k - offset)
    else if k / SFS_BLKSIZE < (dinOf sfs ino).blocks then byteAt sfs ino k else 0

theorem Put.start (h : Held ino sfs) (buf : Bytes) (offset : Nat) : Put sfs sfs ino buf offset 0 where
  wf := h.wf
  loaded := h.loaded
  size := rfl
  type := rfl
  blocks := le_rfl
  reached hne := absurd rfl hne
  bytes k hk := by
    rw [if_neg (by omega), if_pos hk]

theorem Put.passed (h : Put sfs t ino buf offset alen) (k : Nat) :
    Put sfs (passed t k) ino buf offset alen :=
  ⟨⟨h.wf, h.loaded⟩, h.size, h.type, h.blocks, h.reached, h.bytes⟩

theorem Put.of_kept (h : Put sfs t ino buf offset alen) (hheld : Held ino t')
    (hkept : Kept t t' ino) : Put sfs t' ino buf offset alen where
  wf := hheld.wf
  loaded := hheld.loaded
  size := by rw [hkept.din, h.size]
  type := by rw [hkept.din, h.type]
  blocks := by
    rw [hkept.din]
    exact h.blocks
  reached := by
    rw [hkept.din]
    exact h.reached
  bytes k hk := by
    obtain ⟨usage, hwf⟩ := h.wf
    have hmax : (dinOf t ino).blocks ≤ maxBlocks := hwf.blocks_max ino (hwf.loaded ino h.loaded)
    rw [hkept.din] at hk
    rw [byteAt_kept hkept hmax hk, h.bytes k hk]

/-- A block that has been looked up, or made. -/
theorem Put.of_located {j b : Nat} (h : Put sfs t ino buf offset alen)
    (hlocated : Located (calm t) (calm t') usage ino j b) : Put sfs t' ino buf offset alen where
  wf := ⟨usage, hlocated.wf⟩
  loaded := by
    have hloaded : t'.inodeList = t.inodeList := hlocated.loaded
    rw [hloaded]
    exact h.loaded
  size := (show (dinOf t' ino).size = (dinOf t ino).size from hlocated.size).trans h.size
  type := (show (dinOf t' ino).type = (dinOf t ino).type from hlocated.type).trans h.type
  blocks := by
    have hblocks : (dinOf t' ino).blocks = max (dinOf t ino).blocks (j + 1) := hlocated.blocks
    rw [hblocks]
    exact le_trans h.blocks (le_max_left _ _)
  reached hne := by
    have hblocks : (dinOf t' ino).blocks = max (dinOf t ino).blocks (j + 1) := hlocated.blocks
    rw [hblocks]
    exact le_trans (h.reached hne) (Nat.mul_le_mul_right _ (le_max_left _ _))
  bytes k hk := by
    have hbytes : byteAt t' ino k = if k / SFS_BLKSIZE < (dinOf t ino).blocks then byteAt t ino k
        else 0 := hlocated.bytes k hk
    rw [hbytes]
    by_cases hwas : k / SFS_BLKSIZE < (dinOf t ino).blocks
    · rw [if_pos hwas, h.bytes k hwas]
    · have hout : ¬(offset ≤ k ∧ k < offset + alen) := by
        rintro ⟨hle, hlt⟩
        apply hwas
        apply Nat.div_lt_of_lt_mul
        rw [Nat.mul_comm]
        exact lt_of_lt_of_le hlt (h.reached (by omega))
      have hnew : ¬k / SFS_BLKSIZE < (dinOf sfs ino).blocks :=
        fun hlt => hwas (lt_of_lt_of_le hlt h.blocks)
      rw [if_neg hwas, if_neg hout, if_neg hnew]

/-- The next `size` bytes go into a block that the file has. -/
theorem Put.filled {j start size : Nat} (h : Put sfs t ino buf offset alen)
    (hj : j < (dinOf t ino).blocks) (hplace : offset + alen = j * SFS_BLKSIZE + start)
    (hroom : start + size ≤ SFS_BLKSIZE) :
    Put sfs (fillBlock t ino j start buf alen size) ino buf offset (alen + size) := by
  obtain ⟨usage, hwf⟩ := h.wf
  have hfile := hwf.loaded ino h.loaded
  have hdin : dinOf (fillBlock t ino j start buf alen size) ino = dinOf t ino :=
    dinOf_fillBlock hwf hfile hj start buf alen size
  constructor
  case toHeld => exact ⟨⟨usage, wellFormed_fillBlock hwf hfile hj start buf alen size⟩, h.loaded⟩
  case size => rw [hdin, h.size]
  case type => rw [hdin, h.type]
  case blocks =>
    rw [hdin]
    exact h.blocks
  case reached =>
    intro _
    rw [hdin]
    have hblock := Nat.mul_le_mul_right SFS_BLKSIZE hj
    rw [Nat.succ_mul] at hblock
    omega
  case bytes =>
    intro k hk
    rw [hdin] at hk
    have hbytes : byteAt (fillBlock t ino j start buf alen size) ino k =
        if j * SFS_BLKSIZE + start ≤ k ∧ k < j * SFS_BLKSIZE + start + size then
          buf (alen + (k - (j * SFS_BLKSIZE + start)))
        else byteAt t ino k := byteAt_fillBlock hwf hfile hj buf alen hk hroom
    rw [hbytes, h.bytes k hk, ← hplace]
    by_cases hnew : offset + alen ≤ k ∧ k < offset + alen + size
    · rw [if_pos hnew, if_pos (by omega)]
      congr 1
      omega
    · rw [if_neg hnew]
      by_cases hold : offset ≤ k ∧ k < offset + alen
      · rw [if_pos hold, if_pos (by omega)]
      · have hout : ¬(offset ≤ k ∧ k < offset + (alen + size)) := by omega
        rw [if_neg hold, if_neg hout]

/-- `sfs_bmap_load_nolock` while a file is written, whatever the device does. -/
theorem sfsBmapLoadNolock_puts (h : Put sfs t ino buf offset alen) {j : Nat}
    {r : Except Errno Nat} (heq : sfsBmapLoadNolock ino j t = .ok (r, t')) :
    Put sfs t' ino buf offset alen ∧
      ∀ b, r = .ok b → j < (dinOf t' ino).blocks ∧ fileBlock t' ino j = b := by
  obtain ⟨usage, hwf⟩ := h.wf
  have hfile := hwf.loaded ino h.loaded
  obtain ⟨hle, hmax, _⟩ := sfsBmapLoadNolock_outcome h.toHeld heq
  rw [← dinOf_loaded h.loaded] at hle
  rcases Nat.lt_or_eq_of_le hle with hlt | rfl
  · rcases sfsBmapLoadNolock_tries hwf h.loaded hlt with ⟨_, hrun⟩ | ⟨n, e, _, _, _, hrun⟩
    · rw [hrun] at heq
      cases heq
      refine ⟨h.passed _, fun b hb => ?_⟩
      cases hb
      exact ⟨hlt, rfl⟩
    · rw [hrun] at heq
      cases heq
      exact ⟨h.passed _, fun b hb => by cases hb⟩
  · rcases sfsBmapLoadNolock_adds hwf h.loaded hmax with
      ⟨b, t₁, hrun, hgrown, _⟩ | ⟨e, t₁, usage', hrun, hspoiled, _⟩
    · have hlocated := located_of_grown hgrown h.loaded
      rw [hrun] at heq
      cases heq
      refine ⟨h.of_located hlocated, fun c hc => ?_⟩
      cases hc
      refine ⟨?_, hlocated.here⟩
      have hblocks : (dinOf t' ino).blocks = (dinOf t ino).blocks + 1 := hgrown.blocks
      omega
    · rw [hrun] at heq
      cases heq
      have hheld : Held ino t' := by
        refine ⟨⟨usage', hspoiled.wf⟩, ?_⟩
        rw [hspoiled.loaded]
        exact h.loaded
      exact ⟨h.of_kept hheld (hspoiled.kept hwf hfile), fun b hb => by cases hb⟩

/-- The piece of the range in the block `j` is written, or it fails. -/
theorem ioPiece_puts (hlt : offset < endpos) {j : Nat} (hj : offset / SFS_BLKSIZE ≤ j)
    (hend : j < blocksFor endpos) {io : Transfer} (h : Put sfs t ino io.buf offset io.alen)
    (halen : io.alen = bytesBelow offset endpos j) {r : Except Errno Unit} {io' : Transfer}
    (heq : ioPiece ino offset endpos true j io t = .ok (.ok (r, io'), t')) :
    Put sfs t' ino io.buf offset io'.alen ∧ io'.buf = io.buf ∧
      (r = .ok () ∧ io'.alen = bytesBelow offset endpos (j + 1) ∨
        ∃ e, r = .error e ∧ io'.alen = io.alen) := by
  have hplace := offset_add_bytesBelow hlt hend
  have hnext := bytesBelow_succ hj hlt
  obtain ⟨_, hroom⟩ := @pieceStart_room offset endpos j hj
  rw [← halen] at hplace hnext
  rw [ioPiece_eq, ioStep] at heq
  obtain ⟨r₀, t₀, hload, hrest⟩ := attempt_bind_eq_ok_iff.mp heq
  obtain ⟨hput, hblock⟩ := sfsBmapLoadNolock_puts h hload
  rcases r₀ with e | b
  · cases hrest
    exact ⟨hput, rfl, .inr ⟨e, rfl, rfl⟩⟩
  obtain ⟨hreach, rfl⟩ := hblock b rfl
  obtain ⟨usage, hwf⟩ := hput.wf
  obtain ⟨hne, huse⟩ : fileBlock t₀ ino j ≠ 0 ∧ InUse t₀ (fileBlock t₀ ino j) :=
    @inUse_data (calm t₀) usage hwf ino j (hwf.loaded ino hput.loaded) hreach
  change (attempt (pieceOp offset endpos true j io.buf io.alen (fileBlock t₀ ino j)) >>= fun _ => _)
    t₀ = _ at hrest
  obtain ⟨r₁, t₁, hwrite, hlast⟩ := attempt_bind_eq_ok_iff.mp hrest
  have hfit : Fitting t₀ := hwf.freemap.steady.blocks_le
  rcases @pieceOp_write_tries _ offset endpos j hj hfit io.buf io.alen _ hne huse.1 with
    ⟨_, hrun⟩ | ⟨n, e, _, _, _, hrun⟩
  · rw [hrun] at hwrite
    cases hwrite
    cases hlast
    exact ⟨(hput.filled hreach hplace hroom).passed _, rfl, .inl ⟨rfl, hnext.symm⟩⟩
  · rw [hrun] at hwrite
    cases hwrite
    cases hlast
    exact ⟨hput.passed _, rfl, .inr ⟨e, rfl, rfl⟩⟩

theorem ioRange_puts (hlt : offset < endpos) (n : Nat) :
    ∀ j t (io : Transfer) (r : Except Errno Unit) (io' : Transfer) t', offset / SFS_BLKSIZE ≤ j →
      j + n ≤ blocksFor endpos → Put sfs t ino io.buf offset io.alen →
      io.alen = bytesBelow offset endpos j →
      ioRange ino offset endpos true n j io t = .ok (.ok (r, io'), t') →
      Put sfs t' ino io.buf offset io'.alen ∧ io'.alen ≤ endpos - offset ∧
        (r = .ok () → io'.alen = bytesBelow offset endpos (j + n)) := by
  induction n with
  | zero =>
      intro j t io r io' t' _ _ h halen heq
      cases heq
      refine ⟨h, ?_, fun _ => halen⟩
      rw [halen]
      exact bytesBelow_le hlt j
  | succ n ih =>
      intro j t io r io' t' hj hend h halen heq
      rw [ioRange, andContinue] at heq
      rcases bind_eq_ok_iff.mp heq with ⟨⟨r₀, io₀⟩, t₀, hpiece, hrest⟩ | ⟨e, _, hr⟩
      · obtain ⟨hput, hbuf, hresult⟩ := ioPiece_puts hlt hj (by omega) h halen hpiece
        rcases hresult with ⟨rfl, halen₀⟩ | ⟨e, rfl, halen₀⟩
        · rw [← hbuf] at hput
          obtain ⟨hput', hle, hall⟩ := ih (j + 1) t₀ io₀ r io' t' (by omega) (by omega) hput halen₀
            hrest
          rw [hbuf] at hput'
          rw [Nat.add_right_comm, Nat.add_assoc j n 1] at hall
          exact ⟨hput', hle, hall⟩
        · cases hrest
          refine ⟨hput, ?_, fun hbad => by cases hbad⟩
          rw [halen₀, halen]
          exact bytesBelow_le hlt j
      · cases hr

end Writing

section Calls

variable {buf : Bytes} {pos : Int} {len : Nat}

/-- The code of a transfer that moves nothing. -/
def emptyCode (pos : Int) (len : Nat) : Except Errno Unit :=
  if pos < 0 ∨ (SFS_MAX_FILE_SIZE : Int) ≤ pos ∨ Int.bmod (pos + len) (2 ^ 64) < pos then
    .error .eInval
  else .ok ()

theorem sfsIoNolock_eq (hfile : (sfs.inode ino).din.type ≠ SFS_TYPE_DIR) (write : Bool) :
    sfsIoNolock ino buf pos len write sfs =
      match ioExtent (sfs.inode ino).din pos len write with
      | none => .ok (.ok (emptyCode pos len, { buf := buf, alen := 0 }), sfs)
      | some (offset, endpos) => ioBody ino offset endpos write buf sfs := by
  rw [sfsIoNolock, getState_bind, ensure_bind_of hfile]
  simp only [ioExtent, emptyCode]
  split
  · rfl
  split
  · rfl
  split
  · rfl
  · rfl

/-- Bytes of the file between a position and the end of a transfer. -/
def available (sfs : SfsFs) (ino : Nat) (pos : Int) (len : Nat) : Nat :=
  if pos < 0 then 0 else min len ((dinOf sfs ino).size - pos.toNat)

theorem available_le (sfs : SfsFs) (ino : Nat) (pos : Int) (len : Nat) :
    available sfs ino pos len ≤ len := by
  unfold available
  split
  · exact Nat.zero_le _
  · exact min_le_left _ _

theorem fits_of_length (hlen : len < 2 ^ 31) (hpos : ¬(pos < 0))
    (hmax : ¬(SFS_MAX_FILE_SIZE : Int) ≤ pos) : Int.bmod (pos + len) (2 ^ 64) = pos + len := by
  unfold SFS_MAX_FILE_SIZE at hmax
  rw [Int.bmod_eq_of_le]
  · omega
  · omega

/-- The range of a read within the file. -/
theorem ioExtent_read (hlen : len < 2 ^ 31) (hsize : (dinOf sfs ino).size ≤ SFS_MAX_FILE_SIZE) :
    ioExtent (dinOf sfs ino) pos len false =
      if available sfs ino pos len = 0 then none
      else some (pos.toNat, pos.toNat + available sfs ino pos len) := by
  have havail : available sfs ino pos len =
      if pos < 0 then 0 else min len ((dinOf sfs ino).size - pos.toNat) := rfl
  generalize available sfs ino pos len = n at havail ⊢
  simp only [ioExtent]
  by_cases hrange : pos < 0 ∨ (SFS_MAX_FILE_SIZE : Int) ≤ pos
  · have hnone : n = 0 := by
      generalize SFS_MAX_FILE_SIZE = m at hrange hsize
      split at havail
      · exact havail
      · omega
    rw [if_pos (by tauto), if_pos hnone]
  · have hneg : ¬pos < 0 := fun hneg => hrange (.inl hneg)
    have hmax : ¬(SFS_MAX_FILE_SIZE : Int) ≤ pos := fun hmax => hrange (.inr hmax)
    obtain ⟨offset, rfl⟩ := Int.eq_ofNat_of_zero_le (not_lt.mp hneg)
    rw [if_neg hneg] at havail
    rw [fits_of_length hlen hneg hmax, if_neg (by omega)]
    simp only [Int.toNat_natCast] at havail ⊢
    have hbelow : offset < SFS_MAX_FILE_SIZE := Int.ofNat_lt.mp (not_le.mp hmax)
    clear hrange hmax
    generalize SFS_MAX_FILE_SIZE = m at hbelow hsize ⊢
    generalize (dinOf sfs ino).size = size at havail hsize ⊢
    have hclip : (if (m : Int) < (offset : Int) + len then m else ((offset : Int) + len).toNat) =
        min m (offset + len) := by
      split
      · omega
      · omega
    rw [hclip]
    simp only [true_and]
    rcases Nat.eq_zero_or_pos len with rfl | hsome
    · have hzero : n = 0 := by omega
      rw [if_pos (by simp), if_pos hzero]
    · have hmove : ¬(offset : Int) = (offset : Int) + len := by omega
      rw [if_neg hmove]
      by_cases hpast : size ≤ offset
      · have hzero : n = 0 := by omega
        rw [if_pos hpast, if_pos hzero]
      · have hnonzero : n ≠ 0 := by omega
        rw [if_neg hpast, if_neg hnonzero]
        congr 2
        split
        · omega
        · omega

/-- The code of a read. -/
theorem emptyCode_read (hlen : len < 2 ^ 31) : emptyCode pos len =
    if pos < 0 ∨ (SFS_MAX_FILE_SIZE : Int) ≤ pos then .error .eInval else .ok () := by
  rw [emptyCode]
  by_cases hrange : pos < 0 ∨ (SFS_MAX_FILE_SIZE : Int) ≤ pos
  · rw [if_pos hrange, if_pos (by tauto)]
  · have hneg : ¬pos < 0 := fun hneg => hrange (.inl hneg)
    have hmax : ¬(SFS_MAX_FILE_SIZE : Int) ≤ pos := fun hmax => hrange (.inr hmax)
    rw [if_neg hrange, fits_of_length hlen hneg hmax, if_neg (by omega)]

/-- `alen` bytes of `buf` are in the file from `offset` on, and the bytes that it had
elsewhere. -/
structure Replaced (sfs sfs' : SfsFs) (ino : Nat) (buf : Bytes) (offset alen : Nat) : Prop where
  size : (dinOf sfs' ino).size =
    if alen = 0 then (dinOf sfs ino).size else max (dinOf sfs ino).size (offset + alen)
  bytes : ∀ k, k < (dinOf sfs ino).size ∨ offset ≤ k ∧ k < offset + alen → byteAt sfs' ino k =
    if offset ≤ k ∧ k < offset + alen then buf (k - offset) else byteAt sfs ino k

/-- The end of a transfer, on any device. -/
theorem ioFinish_held {alen offset : Nat} (hwf : WellFormed (calm t) usage)
    (hin : ino ∈ t.inodeList) (hword : offset + alen < 2 ^ 32) :
    ∃ t', ioFinish ino offset alen t = .ok (.ok (), t') ∧
      Finished (calm t) (calm t') usage ino (max (dinOf t ino).size (offset + alen)) := by
  rcases lt_or_ge (dinOf t ino).size (offset + alen) with hgrows | hfits
  · have hmax : max (dinOf t ino).size (offset + alen) = offset + alen := by omega
    have hdin : dinOf t ino = (t.inode ino).din := dinOf_loaded hin
    refine ⟨t.setInode ino
      { din := { dinOf t ino with size := max (dinOf t ino).size (offset + alen) }
        dirty := true }, ?_, @finished_setInode (calm t) usage ino hwf hin _ true⟩
    rw [ioFinish, getState_bind, ← hdin, if_pos hgrows, Nat.mod_eq_of_lt hword, hmax, hdin]
    rfl
  · have hmax : max (dinOf t ino).size (offset + alen) = (dinOf t ino).size := by omega
    refine ⟨t, ioFinish_of_le hin hfits, ?_⟩
    rw [hmax]
    exact ⟨hwf, rfl, fun f _ _ => Kept.refl _ f, rfl, fun _ => rfl, rfl⟩

/-- The end of a write that has put some bytes into the file, or began inside it. -/
theorem ioFinish_put {alen offset : Nat} (h : RegularFile ino sfs)
    (hput : Put sfs t ino buf offset alen) (hword : offset + alen < 2 ^ 32)
    (hplace : alen ≠ 0 ∨ offset ≤ (dinOf sfs ino).size)
    (heq : ioFinish ino offset alen t = .ok (.ok (), t')) :
    RegularFile ino t' ∧ Replaced sfs t' ino buf offset alen := by
  obtain ⟨usage, hwf⟩ := hput.wf
  obtain ⟨t₁, hrun, hfinished⟩ := ioFinish_held hwf hput.loaded hword
  rw [hrun] at heq
  cases heq
  have hdin : dinOf t' ino = { dinOf t ino with size := max (dinOf t ino).size (offset + alen) } :=
    hfinished.din
  have hbytes : ∀ k, byteAt t' ino k = byteAt t ino k := hfinished.bytes
  have hloaded : t'.inodeList = t.inodeList := hfinished.loaded
  have hcovered : (dinOf sfs ino).size ≤ (dinOf t ino).blocks * SFS_BLKSIZE :=
    le_trans h.covered (Nat.mul_le_mul_right _ hput.blocks)
  refine ⟨⟨⟨⟨usage, hfinished.wf⟩, ?_⟩, ?_, ?_⟩, ?_, ?_⟩
  · rw [hloaded]
    exact hput.loaded
  · rw [hdin]
    exact hput.type.trans h.regular
  · rw [hdin, hput.size]
    apply max_le hcovered
    rcases Nat.eq_zero_or_pos alen with rfl | hsome
    · exact le_trans (hplace.resolve_left (not_not.mpr rfl)) hcovered
    · exact hput.reached (Nat.ne_of_gt hsome)
  · rw [hdin, hput.size]
    split
    · next hzero => exact max_eq_left (by omega)
    · rfl
  · intro k hk
    have hmapped : k / SFS_BLKSIZE < (dinOf t ino).blocks := by
      apply Nat.div_lt_of_lt_mul
      rw [Nat.mul_comm]
      rcases hk with hold | ⟨hfrom, hnew⟩
      · exact lt_of_lt_of_le hold hcovered
      · exact lt_of_lt_of_le hnew (hput.reached (by omega))
    rw [hbytes, hput.bytes k hmapped]
    by_cases hin : offset ≤ k ∧ k < offset + alen
    · rw [if_pos hin, if_pos hin]
    · have hwas : k / SFS_BLKSIZE < (dinOf sfs ino).blocks :=
        lt_of_lt_of_le (lt_blocksFor (hk.resolve_right hin)) (blocksFor_le h.covered)
      rw [if_neg hin, if_neg hin, if_pos hwas]

/-- A read of a regular file returns, with bytes of the file; it gives all there are if
the device does not fail. -/
theorem sfsIo_gets (h : RegularFile ino sfs) (hlen : len < 2 ^ 31) (buf : Bytes) (pos : Int) :
    ∃ r iob sfs', sfsIo ino (iobufInit buf len pos) false sfs = .ok (.ok (r, iob), sfs') ∧
      (∃ k, sfs' = passed sfs k) ∧ iobufUsed iob ≤ available sfs ino pos len ∧
      (∀ k, k < iobufUsed iob → iob.buf k = byteAt sfs ino (pos.toNat + k)) ∧
      (Steady sfs → r = emptyCode pos len ∧ iobufUsed iob = available sfs ino pos len) := by
  have hdin : dinOf sfs ino = (sfs.inode ino).din := dinOf_loaded h.loaded
  have hnotDir : (sfs.inode ino).din.type ≠ SFS_TYPE_DIR :=
    not_directory h.loaded h.regular
  have hsize : (dinOf sfs ino).size ≤ SFS_MAX_FILE_SIZE :=
    le_trans h.size_le (by decide)
  have heq := @sfsIoNolock_eq sfs ino buf pos len hnotDir false
  rw [← hdin, ioExtent_read hlen hsize] at heq
  have hle := available_le sfs ino pos len
  by_cases hnone : available sfs ino pos len = 0
  · rw [if_pos hnone] at heq
    obtain ⟨iob, hrun, hused, _⟩ := sfsIo_of_nolock heq (Nat.zero_le _)
    simp only at hused
    refine ⟨_, iob, sfs, hrun, ⟨0, (passed_zero sfs).symm⟩, by omega, fun k hk => ?_,
      fun _ => ⟨rfl, by omega⟩⟩
    rw [hused] at hk
    exact absurd hk (Nat.not_lt_zero k)
  · have hpos : ¬pos < 0 := by
      intro hneg
      exact hnone (if_pos hneg)
    have hend : pos.toNat + available sfs ino pos len ≤ (dinOf sfs ino).size := by
      rw [available, if_neg hpos] at hnone ⊢
      omega
    rw [if_neg hnone] at heq
    obtain ⟨r, io, sfs', hbody, hgot, hbound, hsteady⟩ := ioBody_gets h
      (Nat.lt_add_of_pos_right (Nat.pos_of_ne_zero hnone)) hend buf
    rw [Nat.add_sub_cancel_left] at hbound hsteady
    obtain ⟨iob, hrun, hused, hbytes⟩ := sfsIo_of_nolock (heq.trans hbody) (le_trans hbound hle)
    refine ⟨r, iob, sfs', hrun, hgot.passed, by omega, fun k hk => ?_, fun hs => ?_⟩
    · rw [hbytes]
      rw [hused] at hk
      exact hgot.filled k hk
    · obtain ⟨hr, halen⟩ := hsteady hs
      refine ⟨?_, by omega⟩
      have hbelow : ¬(SFS_MAX_FILE_SIZE : Int) ≤ pos := by
        generalize SFS_MAX_FILE_SIZE = m at hsize
        omega
      rw [hr, emptyCode_read hlen, if_neg (by tauto)]

/-- The range of a write. -/
theorem ioExtent_write (hsome : 0 < len) (hlen : len < 2 ^ 31) (din : SfsDiskInode) :
    ioExtent din pos len true =
      if pos < 0 ∨ (SFS_MAX_FILE_SIZE : Int) ≤ pos then none
      else some (pos.toNat, min SFS_MAX_FILE_SIZE (pos.toNat + len)) := by
  simp only [ioExtent]
  by_cases hrange : pos < 0 ∨ (SFS_MAX_FILE_SIZE : Int) ≤ pos
  · rw [if_pos (by tauto), if_pos hrange]
  · have hneg : ¬pos < 0 := fun hneg => hrange (.inl hneg)
    have hmax : ¬(SFS_MAX_FILE_SIZE : Int) ≤ pos := fun hmax => hrange (.inr hmax)
    obtain ⟨offset, rfl⟩ := Int.eq_ofNat_of_zero_le (not_lt.mp hneg)
    have hclip : (if (SFS_MAX_FILE_SIZE : Int) < (offset : Int) + len then SFS_MAX_FILE_SIZE
        else ((offset : Int) + len).toNat) = min SFS_MAX_FILE_SIZE (offset + len) := by
      generalize SFS_MAX_FILE_SIZE = m
      split
      · omega
      · omega
    rw [if_neg hrange, fits_of_length hlen hneg hmax, if_neg (by omega), if_neg (by omega), hclip]
    simp only [Bool.true_eq_false, false_and, if_false, Int.toNat_natCast]

/-- A transfer that returns, by its pieces and its end. -/
theorem ioBody_returned {offset endpos : Nat} {write : Bool} (h : Held ino sfs)
    (hlt : offset < endpos) {res : Except Errno (Except Errno Unit × Transfer)}
    (heq : ioBody ino offset endpos write buf sfs = .ok (res, sfs')) :
    offset / SFS_BLKSIZE ≤ (dinOf sfs ino).blocks ∧
      ∃ r io t, res = .ok (r, io) ∧
        ioRange ino offset endpos write (blocksFor endpos - offset / SFS_BLKSIZE)
          (offset / SFS_BLKSIZE) { buf := buf, alen := 0 } sfs = .ok (.ok (r, io), t) ∧
        ioFinish ino offset io.alen t = .ok (.ok (), sfs') := by
  rw [ioBody] at heq
  rcases bind_eq_ok_iff.mp heq with ⟨⟨r, io⟩, t, hphases, hrest⟩ | ⟨e, hphases, _⟩
  · rw [ioPhases_eq _ hlt] at hphases
    have hcount : blocksFor endpos - offset / SFS_BLKSIZE =
        (blocksFor endpos - (offset / SFS_BLKSIZE + 1)) + 1 := by
      have hle := lt_blocksFor hlt
      omega
    have hfirst : offset / SFS_BLKSIZE ≤ (dinOf sfs ino).blocks := by
      rw [dinOf_loaded h.loaded]
      rw [hcount] at hphases
      exact ioRange_first h hphases
    simp only at hrest
    rcases bind_eq_ok_iff.mp hrest with ⟨_, t', hfinish, hpure⟩ | ⟨e, hfinish, _⟩
    · cases hpure
      exact ⟨hfirst, r, io, t, rfl, hphases, hfinish⟩
    · obtain ⟨t', hfinish'⟩ := @ioFinish_returns offset ino io.alen t
      rw [hfinish'] at hfinish
      cases hfinish
  · rw [ioPhases_eq _ hlt] at hphases
    obtain ⟨_, _, hbad⟩ := ioRange_returns _ _ _ _ _ _ hphases
    cases hbad

/-- The pieces of a write that returns. -/
theorem ioRange_puts_all {offset endpos : Nat} (h : Held ino sfs) (hlt : offset < endpos)
    {r : Except Errno Unit} {io : Transfer}
    (heq : ioRange ino offset endpos true (blocksFor endpos - offset / SFS_BLKSIZE)
      (offset / SFS_BLKSIZE) { buf := buf, alen := 0 } sfs = .ok (.ok (r, io), t)) :
    Put sfs t ino buf offset io.alen ∧ io.alen ≤ endpos - offset ∧
      (r = .ok () → io.alen = endpos - offset) := by
  have hstart : ({ buf := buf, alen := 0 } : Transfer).alen =
      bytesBelow offset endpos (offset / SFS_BLKSIZE) := (bytesBelow_first offset endpos).symm
  have hsum : offset / SFS_BLKSIZE + (blocksFor endpos - offset / SFS_BLKSIZE) =
      blocksFor endpos := Nat.add_sub_cancel' (le_of_lt (lt_blocksFor hlt))
  have hput : Put sfs sfs ino buf offset 0 := Put.start h buf offset
  have hputs := ioRange_puts hlt _ _ _ _ _ _ _ le_rfl (le_of_eq hsum) hput hstart heq
  rw [hsum, bytesBelow_last hlt] at hputs
  exact hputs

/-- A write that begins in the sizes that are allowed. -/
theorem ioBody_puts {offset endpos : Nat} (h : RegularFile ino sfs) (hlt : offset < endpos)
    (hend : endpos ≤ SFS_MAX_FILE_SIZE) {res : Except Errno (Except Errno Unit × Transfer)}
    (heq : ioBody ino offset endpos true buf sfs = .ok (res, sfs')) :
    offset / SFS_BLKSIZE ≤ (dinOf sfs ino).blocks ∧
      ∃ r io, res = .ok (r, io) ∧ io.alen ≤ endpos - offset ∧
        (io.alen ≠ 0 ∨ offset ≤ (dinOf sfs ino).size →
          RegularFile ino sfs' ∧ Replaced sfs sfs' ino buf offset io.alen) ∧
        (r = .ok () → io.alen = endpos - offset) := by
  obtain ⟨hfirst, r, io, t, rfl, hrange, hfinish⟩ := ioBody_returned h.toHeld hlt heq
  obtain ⟨hput, hle, hall⟩ := ioRange_puts_all h.toHeld hlt hrange
  refine ⟨hfirst, r, io, rfl, hle, fun hplace => ?_, hall⟩
  have hword : offset + io.alen < 2 ^ 32 := by
    unfold SFS_MAX_FILE_SIZE at hend
    omega
  exact ioFinish_put h hput hword hplace hfinish

theorem Replaced.refl (sfs : SfsFs) (ino : Nat) (buf : Bytes) (offset : Nat) :
    Replaced sfs sfs ino buf offset 0 where
  size := (if_pos rfl).symm
  bytes k _ := (if_neg (by omega)).symm

/-- A write outside the sizes that are allowed. -/
theorem sfsIo_refuses (h : RegularFile ino sfs) (hsome : 0 < len) (hlen : len < 2 ^ 31)
    (hrange : pos < 0 ∨ (SFS_MAX_FILE_SIZE : Int) ≤ pos) (buf : Bytes) :
    ∃ iob, sfsIo ino (iobufInit buf len pos) true sfs = .ok (.ok (.error .eInval, iob), sfs) ∧
      iobufUsed iob = 0 := by
  have hnotDir : (sfs.inode ino).din.type ≠ SFS_TYPE_DIR :=
    not_directory h.loaded h.regular
  have hcode : emptyCode pos len = .error .eInval := by
    rw [emptyCode, if_pos (by tauto)]
  have hnolock := @sfsIoNolock_eq sfs ino buf pos len hnotDir true
  rw [ioExtent_write hsome hlen, if_pos hrange, hcode] at hnolock
  obtain ⟨iob, hrun, hused, _⟩ := sfsIo_of_nolock hnolock (Nat.zero_le _)
  exact ⟨iob, hrun, hused⟩

/-- A write to a regular file that returns has replaced the bytes that it says. -/
theorem sfsIo_puts (h : RegularFile ino sfs) (hsome : 0 < len) (hlen : len < 2 ^ 31)
    {res : Except Errno (Except Errno Unit × Iobuf)}
    (heq : sfsIo ino (iobufInit buf len pos) true sfs = .ok (res, sfs')) :
    (¬(pos < 0 ∨ (SFS_MAX_FILE_SIZE : Int) ≤ pos) →
        pos.toNat / SFS_BLKSIZE ≤ (dinOf sfs ino).blocks) ∧
      ∃ r iob, res = .ok (r, iob) ∧ iobufUsed iob ≤ len ∧
        (iobufUsed iob ≠ 0 ∨ pos.toNat ≤ (dinOf sfs ino).size →
          RegularFile ino sfs' ∧ Replaced sfs sfs' ino buf pos.toNat (iobufUsed iob)) ∧
        (iobufUsed iob ≠ 0 → 0 ≤ pos) ∧ (r = .ok () → iobufUsed iob ≠ 0) := by
  have hnotDir : (sfs.inode ino).din.type ≠ SFS_TYPE_DIR :=
    not_directory h.loaded h.regular
  have hnolock := @sfsIoNolock_eq sfs ino buf pos len hnotDir true
  rw [ioExtent_write hsome hlen] at hnolock
  by_cases hrange : pos < 0 ∨ (SFS_MAX_FILE_SIZE : Int) ≤ pos
  · obtain ⟨iob, hrun, hused⟩ := sfsIo_refuses h hsome hlen hrange buf
    rw [hrun] at heq
    cases heq
    refine ⟨fun hnot => absurd hrange hnot, _, iob, rfl, by omega, fun _ => ?_,
      fun hne => absurd hused hne, fun hok => by cases hok⟩
    rw [hused]
    exact ⟨h, Replaced.refl sfs ino buf pos.toNat⟩
  · have hmax : ¬(SFS_MAX_FILE_SIZE : Int) ≤ pos := fun hmax => hrange (.inr hmax)
    have hneg : ¬pos < 0 := fun hneg => hrange (.inl hneg)
    have hlt : pos.toNat < min SFS_MAX_FILE_SIZE (pos.toNat + len) := by
      generalize SFS_MAX_FILE_SIZE = m at hmax
      omega
    have hbound : min SFS_MAX_FILE_SIZE (pos.toNat + len) - pos.toNat ≤ len := by omega
    rw [if_neg hrange] at hnolock
    have hnolock : sfsIoNolock ino buf pos len true sfs =
        ioBody ino pos.toNat (min SFS_MAX_FILE_SIZE (pos.toNat + len)) true buf sfs := hnolock
    cases hbody : ioBody ino pos.toNat (min SFS_MAX_FILE_SIZE (pos.toNat + len)) true buf sfs with
    | error a =>
        rw [sfsIo_of_nolock_abort (hnolock.trans hbody)] at heq
        cases heq
    | ok out =>
        obtain ⟨res₀, t⟩ := out
        obtain ⟨hfirst, r, io, rfl, hle, hdone, hall⟩ := ioBody_puts h hlt (min_le_left _ _) hbody
        obtain ⟨iob, hrun, hused, _⟩ := sfsIo_of_nolock (hnolock.trans hbody) (le_trans hle hbound)
        rw [hrun] at heq
        cases heq
        refine ⟨fun _ => hfirst, r, iob, rfl, by omega, ?_, fun _ => not_lt.mp hneg,
          fun hok => ?_⟩
        · rw [hused]
          exact hdone
        · have := hall hok
          omega

end Calls

section Space

variable {buf : Bytes} {offset endpos n : Nat}

/-- The file can get `n` blocks. -/
structure Affords (sfs : SfsFs) (ino n : Nat) : Prop where
  blocks : (dinOf sfs ino).blocks ≤ n
  max : n ≤ maxBlocks
  free : blocksNeeded (dinOf sfs ino) n ≤ freeCount sfs

/-- A write into a block that is found, where the blocks it needs are free. -/
theorem ioBody_found (h : WellFormed sfs usage) (hin : ino ∈ sfs.inodeList)
    (hafford : Affords sfs ino n) (hlt : offset < endpos) (hend : blocksFor endpos ≤ n)
    (hfirst : offset / SFS_BLKSIZE < (dinOf sfs ino).blocks) (buf : Bytes) :
    ∃ sfs', ioBody ino offset endpos true buf sfs =
        .ok (.ok (.ok (), { buf := buf, alen := endpos - offset }), sfs') ∧
      WellFormed sfs' usage ∧ Affords sfs' ino n ∧
      endpos ≤ (dinOf sfs' ino).blocks * SFS_BLKSIZE := by
  have hbound : endpos ≤ maxBlocks * SFS_BLKSIZE :=
    le_trans (le_blocksFor endpos) (Nat.mul_le_mul_right _ (le_trans hend hafford.max))
  have hstart : Wrote sfs sfs usage ino buf offset 0 := by
    apply Wrote.start h buf
    apply le_trans _ hfirst
    unfold blocksFor SFS_BLKSIZE
    omega
  have hwriting : Writing sfs usage ino buf offset { buf := buf, alen := 0 } sfs := ⟨hstart, rfl⟩
  rcases ioPhases_finishes (@pieces_write sfs usage ino buf offset endpos hin hbound)
      hwriting rfl hlt with
    ⟨io, t, heq, ⟨hwrote, hbuf⟩, hdone⟩ | ⟨io, t, _, _, _, hfew⟩
  · have hin' : ino ∈ t.inodeList := by
      rw [hwrote.loaded]
      exact hin
    have hword : offset + io.alen < 2 ^ 32 := by
      rw [hdone]
      exact lt_of_le_of_lt hbound (by decide)
    obtain ⟨t', hfinish, hfinished⟩ := ioFinish_spec hwrote.wf hin' hword
    have halen : io.alen = endpos - offset := by omega
    have hblocks := hwrote.blocks
    rw [hdone] at hblocks
    have hle : (dinOf t ino).blocks ≤ n := by
      rw [hblocks]
      exact max_le hafford.blocks hend
    refine ⟨t', ?_, hfinished.wf, ⟨?_, hafford.max, ?_⟩, ?_⟩
    · have hsame : io.buf = buf := hbuf
      rw [ioBody_eq heq hfinish, ← halen, ← hsame]
    · rw [hfinished.din]
      exact hle
    · have hcount := hwrote.count n hle
      have hfree := hafford.free
      rw [hfinished.din, hfinished.count]
      simp only [blocksNeeded] at hcount hfree ⊢
      omega
    · rw [hfinished.din]
      simp only [hblocks]
      exact le_trans (le_blocksFor endpos) (Nat.mul_le_mul_right _ (le_max_right _ _))
  · have hfree := hafford.free
    have hmono := SfsGaps.blocksNeeded_mono (dinOf sfs ino) hend
    omega

/-- A write that begins in the file or in the block after its last one. -/
theorem ioBody_affords (h : WellFormed sfs usage) (hin : ino ∈ sfs.inodeList)
    (hafford : Affords sfs ino n) (hlt : offset < endpos) (hend : blocksFor endpos ≤ n)
    (hfirst : offset / SFS_BLKSIZE ≤ (dinOf sfs ino).blocks) (buf : Bytes) :
    ∃ sfs', ioBody ino offset endpos true buf sfs =
        .ok (.ok (.ok (), { buf := buf, alen := endpos - offset }), sfs') ∧
      WellFormed sfs' usage ∧ Affords sfs' ino n ∧
      endpos ≤ (dinOf sfs' ino).blocks * SFS_BLKSIZE := by
  rcases Nat.lt_or_eq_of_le hfirst with hreach | hlast
  · exact ioBody_found h hin hafford hlt hend hreach buf
  · have hroom : (dinOf sfs ino).blocks < n := by
      rw [← hlast]
      exact lt_of_lt_of_le (lt_blocksFor hlt) hend
    rcases sfsBmapLoadNolock_spec h hin hfirst (by
        rw [hlast]
        exact lt_of_lt_of_le hroom hafford.max) with
      ⟨b, t, hload, hlocated⟩ | ⟨t, _, _, _, hfew⟩
    · have hin' : ino ∈ t.inodeList := by
        rw [hlocated.loaded]
        exact hin
      have hblocks := hlocated.blocks
      have hle : (dinOf t ino).blocks ≤ n := by omega
      have hcount := hlocated.count n hle
      have hfree := hafford.free
      have hafford' : Affords t ino n := ⟨hle, hafford.max, by omega⟩
      rw [SfsGaps.ioBody_located hin hlt hload hlocated]
      exact ioBody_found hlocated.wf hin' hafford' hlt hend (by omega) buf
    · have hfree := hafford.free
      have hcost := @growCost_le_blocksNeeded sfs ino n hroom
      omega

/-- A write for which there is space stores all its bytes. -/
theorem sfsIo_affords {len : Nat} (h : RegularFile ino sfs) (hsteady : Steady sfs)
    (hsome : 0 < len) (hlen : len < 2 ^ 31) (hafford : Affords sfs ino n)
    (hend : blocksFor (offset + len) ≤ n) (hfirst : offset / SFS_BLKSIZE ≤ (dinOf sfs ino).blocks)
    (buf : Bytes) :
    ∃ iob sfs', sfsIo ino (iobufInit buf len offset) true sfs = .ok (.ok (.ok (), iob), sfs') ∧
      iobufUsed iob = len ∧ Steady sfs' ∧ Affords sfs' ino n ∧
      offset + len ≤ (dinOf sfs' ino).blocks * SFS_BLKSIZE := by
  obtain ⟨usage, hwf⟩ := h.wf
  rw [calm_of_steady hsteady] at hwf
  have hnotDir : (sfs.inode ino).din.type ≠ SFS_TYPE_DIR :=
    not_directory h.loaded h.regular
  have hbound : offset + len ≤ maxBlocks * SFS_BLKSIZE :=
    le_trans (le_blocksFor _) (Nat.mul_le_mul_right _ (le_trans hend hafford.max))
  have hmax : offset + len < SFS_MAX_FILE_SIZE := (endpos_of_range hbound).1
  have hnolock := @sfsIoNolock_eq sfs ino buf offset len hnotDir true
  have hrange : ¬((offset : Int) < 0 ∨ (SFS_MAX_FILE_SIZE : Int) ≤ offset) := by
    generalize SFS_MAX_FILE_SIZE = m at hmax
    omega
  rw [ioExtent_write hsome hlen, if_neg hrange, Int.toNat_natCast,
    min_eq_right (le_of_lt hmax)] at hnolock
  obtain ⟨sfs', hbody, hwf', hafford', hreach⟩ := ioBody_affords hwf h.loaded hafford
    (Nat.lt_add_of_pos_right hsome) hend hfirst buf
  rw [Nat.add_sub_cancel_left] at hbody
  obtain ⟨iob, hrun, hused, _⟩ := sfsIo_of_nolock (hnolock.trans hbody) le_rfl
  exact ⟨iob, sfs', hrun, hused, hwf'.freemap.steady, hafford', hreach⟩

end Space

end Ucore.SfsTransfers
