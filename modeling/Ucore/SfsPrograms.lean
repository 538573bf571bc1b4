import Ucore.Programs
import Ucore.SfsDirtyInode

/-! `sfs_write` and `sfs_truncfile` with the places where they can sleep. -/

namespace Ucore.SfsPrograms

open Ucore.Errors
open Ucore.Panic
open Ucore.KernelRoutine
open Ucore.Programs
open Ucore.ByteBuffer
open Ucore.SfsDisk
open Ucore.SfsBlockMap
open Ucore.SfsIo
open Ucore.SfsIoPhases
open Ucore.SfsIoRange
open Ucore.SfsIoRefinement
open Ucore.SfsDirtyInode

/-- `ioStep`. `sfs_bmap_load_nolock` sleeps in its transfers, before it changes the
number of blocks; what it changes before, only the holder of the lock reads. -/
def stepProgram (sin blkno size : Nat) (op : Bytes → Nat → Nat → Routine SfsFs Bytes)
    (io : Transfer) : Program SfsFs (Except Errno Unit × Transfer) :=
  .sleep <| .act (sfsBmapLoadNolock sin blkno) fun r =>
    match r with
    | .error e => .done (.ok (.error e, io))
    | .ok ino => .sleep <| .act (op io.buf io.alen ino) fun r =>
      match r with
      | .error e => .done (.ok (.error e, io))
      | .ok buf => .done (.ok (.ok (), { buf := buf, alen := io.alen + size }))

/-- Writing the blocks of the range from `j` on. -/
def rangeProgram (sin offset endpos : Nat) :
    Nat → Nat → Transfer → Program SfsFs (Except Errno Unit × Transfer)
  | 0, _, io => .done (.ok (.ok (), io))
  | n + 1, j, io =>
      (stepProgram sin j (pieceSize offset endpos j) (pieceOp offset endpos true j) io).andThen fun
        | .error e => .done (.error e)
        | .ok (.error e, io) => .done (.ok (.error e, io))
        | .ok (.ok _, io) => rangeProgram sin offset endpos n (j + 1) io

/-- The checks of `sfs_io_nolock` on the range of a write: the end of the range, or
what is returned at once. -/
def writeEntry (offset : Int) (alen : Nat) : Except (Except Errno Unit) Nat :=
  let endpos := Int.bmod (offset + alen) (2 ^ 64)
  if offset < 0 ∨ (SFS_MAX_FILE_SIZE : Int) ≤ offset ∨ endpos < offset then
    .error (.error .eInval)
  else if offset = endpos then
    .error (.ok ())
  else
    .ok (if (SFS_MAX_FILE_SIZE : Int) < endpos then SFS_MAX_FILE_SIZE else endpos.toNat)

def checkType (sin : Nat) : Routine SfsFs Unit := do
  let sfs ← getState
  ensure ((sfs.inode sin).din.type ≠ SFS_TYPE_DIR)

/-- The end of `sfs_io`, after `sfs_io_nolock`. -/
def skipIo (iob : Iobuf) (r : Except Errno Unit) (io : Transfer) :
    Routine SfsFs (Except Errno Unit × Iobuf) := do
  let base := iobufUsed iob
  let iob := { iob with buf := fun k => if k < base then iob.buf k else io.buf (k - base) }
  if io.alen ≠ 0 then
    let iob ← iobufSkip iob io.alen
    return (r, iob)
  else
    return (r, iob)

def finishIo (sin : Nat) (iob : Iobuf) (r : Except Errno Unit) (io : Transfer) :
    Routine SfsFs (Except Errno Unit × Iobuf) := do
  ioFinish sin iob.offset.toNat io.alen
  skipIo iob r io

/-- `sfs_write` between `lock_sin` and `unlock_sin`. -/
def writeProgram (sin : Nat) (iob : Iobuf) : Program SfsFs (Except Errno Unit × Iobuf) :=
  .act (checkType sin) fun
    | .error e => .done (.error e)
    | .ok _ =>
        let offset := iob.offset.toNat
        let io : Transfer := { buf := fun k => iob.buf (iobufUsed iob + k), alen := 0 }
        match writeEntry iob.offset iob.resid with
        | .error r => .act (skipIo iob r io) .done
        | .ok endpos =>
            (rangeProgram sin offset endpos (blocksFor endpos - offset / SFS_BLKSIZE)
              (offset / SFS_BLKSIZE) io).andThen fun
              | .error e => .done (.error e)
              | .ok (r, io) => .act (finishIo sin iob r io) .done

def growProgram (sin : Nat) : Nat → Nat → Program SfsFs Unit
  | 0, _ => .done (.ok ())
  | n + 1, nblks => .sleep <| .act (sfsBmapLoadNolock sin nblks) fun
      | .error e => .done (.error e)
      | .ok _ => growProgram sin n (nblks + 1)

def shrinkProgram (sin : Nat) : Nat → Program SfsFs Unit
  | 0 => .done (.ok ())
  | n + 1 => .sleep <| .act (sfsBmapTruncateNolock sin) fun
      | .error e => .done (.error e)
      | .ok _ => shrinkProgram sin n

/-- The end of `sfs_truncfile`. -/
def setSize (sin tblks : Nat) (len : Int) : Routine SfsFs Unit := do
  let sfs ← getState
  ensure ((sfs.inode sin).din.blocks = tblks)
  modifyInode sin fun si => { din := { si.din with size := len.toNat }, dirty := true }

/-- `sfs_truncfile` between `lock_sin` and `unlock_sin`. -/
def truncProgram (sin : Nat) (len : Int) : Program SfsFs Unit :=
  .act getState fun
    | .error e => .done (.error e)
    | .ok sfs =>
        let tblks := blocksFor len.toNat
        let nblks := (sfs.inode sin).din.blocks
        (if nblks < tblks then growProgram sin (tblks - nblks) nblks
          else shrinkProgram sin (nblks - tblks)).andThen fun
          | .error e => .done (.error e)
          | .ok _ => .act (setSize sin tblks len) .done

/-- `sfs_truncfile` before `lock_sin`. -/
def truncLook (sin : Nat) (len : Int) (sfs : SfsFs) : Kernel (Option (Except Errno Unit)) :=
  let din := (sfs.inode sin).din
  if len < 0 ∨ (SFS_MAX_FILE_SIZE : Int) < len then
    .ok (some (.error .eInval))
  else if din.size = len.toNat then
    if blocksFor len.toNat = din.blocks then .ok (some (.ok ())) else .error .panic
  else
    .ok none

section Runs

variable {sin offset endpos : Nat}

theorem run_stepProgram (sin blkno size : Nat) (op : Bytes → Nat → Nat → Routine SfsFs Bytes)
    (io : Transfer) : (stepProgram sin blkno size op io).run = ioStep sin blkno size op io := by
  show (attempt (sfsBmapLoadNolock sin blkno) >>= _) = (attempt (sfsBmapLoadNolock sin blkno) >>= _)
  congr 1
  funext r
  cases r with
  | error e => rfl
  | ok ino =>
      show (attempt (op io.buf io.alen ino) >>= _) = (attempt (op io.buf io.alen ino) >>= _)
      congr 1
      funext r'
      cases r' with
      | error e => rfl
      | ok buf => rfl

theorem run_rangeProgram (n : Nat) : ∀ j io, (rangeProgram sin offset endpos n j io).run =
    ioRange sin offset endpos true n j io := by
  induction n with
  | zero =>
      intro j io
      rfl
  | succ n ih =>
      intro j io
      rw [rangeProgram, Program.run_andThen, run_stepProgram, ← ioPiece_eq, ioRange, andContinue]
      apply attempt_bind_rethrow
      · exact fun e => rfl
      · rintro ⟨e | ⟨⟩, io'⟩
        · rfl
        · exact ih (j + 1) io'

/-- What a write does after the check of the type. -/
theorem sfsIoNolock_write {sfs : SfsFs} (hfile : (sfs.inode sin).din.type ≠ SFS_TYPE_DIR)
    (buf : Bytes) (pos : Int) (alen : Nat) :
    sfsIoNolock sin buf pos alen true sfs =
      match writeEntry pos alen with
      | .error r => .ok (.ok (r, { buf := buf, alen := 0 }), sfs)
      | .ok endpos => ioBody sin pos.toNat endpos true buf sfs := by
  rw [sfsIoNolock, getState_bind, ensure_bind_of hfile, writeEntry]
  simp only
  rcases Decidable.em (pos < 0 ∨ (SFS_MAX_FILE_SIZE : Int) ≤ pos ∨
    Int.bmod (pos + alen) (2 ^ 64) < pos) with hrange | hrange
  · rw [if_pos hrange, if_pos hrange]
    rfl
  · rw [if_neg hrange, if_neg hrange]
    rcases Decidable.em (pos = Int.bmod (pos + alen) (2 ^ 64)) with hempty | hempty
    · rw [if_pos hempty, if_pos hempty]
      rfl
    · rw [if_neg hempty, if_neg hempty]
      have hread : ∀ p : Prop, ¬(true = false ∧ p) := fun p h => Bool.noConfusion h.1
      simp only [if_neg (hread _)]
      rfl

theorem writeEntry_lt {pos : Int} {alen : Nat} (h : writeEntry pos alen = .ok endpos) :
    pos.toNat < endpos := by
  simp only [writeEntry] at h
  split at h
  · cases h
  next hrange =>
    split at h
    · cases h
    next hne =>
      cases h
      simp only [not_or, not_lt] at hrange
      split
      · omega
      · omega

theorem writeEntry_le {pos : Int} {alen : Nat} (h : writeEntry pos alen = .ok endpos) :
    endpos ≤ pos.toNat + alen := by
  simp only [writeEntry] at h
  split at h
  · cases h
  next hrange =>
    split at h
    · cases h
    next hne =>
      cases h
      simp only [not_or, not_lt] at hrange
      have hmod : Int.bmod (pos + alen) (2 ^ 64) ≤ pos + alen := by
        rw [Int.bmod_def]
        split
        · omega
        · omega
      split
      · omega
      · omega

/-- A write that is cut where it can sleep. -/
theorem run_writeProgram (sin : Nat) (iob : Iobuf) :
    (writeProgram sin iob).run = sfsIo sin iob true := by
  funext s
  have hio : sfsIo sin iob true s = (sfsIoNolock sin (fun k => iob.buf (iobufUsed iob + k))
      iob.offset iob.resid true >>= fun p => skipIo iob p.1 p.2) s := rfl
  rw [hio]
  rcases Decidable.em ((s.inode sin).din.type ≠ SFS_TYPE_DIR) with hfile | hdir
  · have hcheck : checkType sin s = .ok (.ok (), s) := by
      rw [checkType, getState_bind]
      exact ensure_of hfile s
    have hnolock := sfsIoNolock_write hfile (fun k => iob.buf (iobufUsed iob + k)) iob.offset
      iob.resid
    rw [writeProgram, Program.run_act _ _ hcheck]
    simp only
    cases hentry : writeEntry iob.offset iob.resid with
    | error r =>
        rw [hentry] at hnolock
        rw [bind_of_ok hnolock]
        exact congrFun (run_act_done _) s
    | ok endpos =>
        rw [hentry] at hnolock
        simp only at hnolock ⊢
        rw [Program.run_andThen, run_rangeProgram, bind_apply_congr hnolock, ioBody,
          ioPhases_eq _ (writeEntry_lt hentry), routine_bind_assoc]
        apply congrFun
        apply attempt_bind_rethrow
        · exact fun e => rfl
        · rintro ⟨r, io⟩
          show (Program.act (finishIo sin iob r io) .done).run = _
          rw [run_act_done, finishIo, routine_bind_assoc]
          rfl
  · have hcheck : checkType sin s = .error .panic := by
      rw [checkType, getState_bind]
      exact if_neg hdir
    have hattempt : attempt (checkType sin) s = .error .panic := by
      rw [attempt, hcheck]
    have hnolock : sfsIoNolock sin (fun k => iob.buf (iobufUsed iob + k)) iob.offset iob.resid true
        s = .error .panic := by
      rw [sfsIoNolock, getState_bind, ensure_bind_of_not hdir]
    rw [bind_of_abort hnolock]
    exact bind_of_abort hattempt

theorem run_growProgram (n : Nat) : ∀ nblks, (growProgram sin n nblks).run =
    truncGrow sin n nblks := by
  induction n with
  | zero =>
      intro nblks
      rfl
  | succ n ih =>
      intro nblks
      apply attempt_bind_rethrow
      · exact fun e => rfl
      · exact fun _ => ih (nblks + 1)

theorem run_shrinkProgram (n : Nat) : (shrinkProgram sin n).run = truncShrink sin n := by
  induction n with
  | zero => rfl
  | succ n ih =>
      apply attempt_bind_rethrow
      · exact fun e => rfl
      · exact fun _ => ih

theorem run_truncProgram (sin : Nat) (len : Int) : (truncProgram sin len).run = (do
    truncResize sin (blocksFor len.toNat)
    setSize sin (blocksFor len.toNat) len) := by
  funext s
  have hget : (getState : Routine SfsFs SfsFs) s = .ok (.ok s, s) := rfl
  rw [truncProgram, Program.run_act _ _ hget, truncResize, routine_bind_assoc, getState_bind]
  simp only
  rw [Program.run_andThen]
  have hresize : (if (s.inode sin).din.blocks < blocksFor len.toNat then
        growProgram sin (blocksFor len.toNat - (s.inode sin).din.blocks) (s.inode sin).din.blocks
      else shrinkProgram sin ((s.inode sin).din.blocks - blocksFor len.toNat)).run =
      if (s.inode sin).din.blocks < blocksFor len.toNat then
        truncGrow sin (blocksFor len.toNat - (s.inode sin).din.blocks) (s.inode sin).din.blocks
      else truncShrink sin ((s.inode sin).din.blocks - blocksFor len.toNat) := by
    split
    · exact run_growProgram _ _
    · exact run_shrinkProgram _
  rw [hresize]
  refine congrFun (attempt_bind_rethrow _ ?_ ?_) s
  · exact fun e => rfl
  · exact fun _ => run_act_done _

/-- `sfs_truncfile` in its two parts. -/
theorem sfsTruncfile_eq (sin : Nat) (len : Int) (s : SfsFs) : sfsTruncfile sin len s =
    match truncLook sin len s with
    | .error a => .error a
    | .ok (some r) => .ok (r, s)
    | .ok none => (truncProgram sin len).run s := by
  rw [sfsTruncfile, truncLook]
  rcases Decidable.em (len < 0 ∨ (SFS_MAX_FILE_SIZE : Int) < len) with hrange | hrange
  · rw [if_pos hrange, if_pos hrange]
    rfl
  · rw [if_neg hrange, if_neg hrange, getState_bind]
    simp only
    rcases eq_or_ne (s.inode sin).din.size len.toNat with hsame | hother
    · rw [if_pos hsame, if_pos hsame]
      rcases eq_or_ne (blocksFor len.toNat) (s.inode sin).din.blocks with hblocks | hblocks
      · rw [if_pos hblocks]
        exact ensure_of hblocks s
      · rw [if_neg hblocks]
        exact if_neg hblocks
    · rw [if_neg hother, if_neg hother, run_truncProgram]
      rfl

end Runs

end Ucore.SfsPrograms
