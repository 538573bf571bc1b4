import Ucore.SfsIoPhases
import Ucore.SfsIoRefinement

/-! A transfer as one step for each block of its range. -/

namespace Ucore.SfsIoRange

open Ucore.Errors
open Ucore.KernelRoutine
open Ucore.SfsDisk
open Ucore.SfsIo
open Ucore.SfsIoPhases
open Ucore.SfsIoRefinement

/-- Where the range `[offset, endpos)` starts in the block `j`. -/
def pieceStart (offset j : Nat) : Nat :=
  offset - j * SFS_BLKSIZE

/-- Number of bytes of the range in the block `j`. -/
def pieceSize (offset endpos j : Nat) : Nat :=
  min endpos ((j + 1) * SFS_BLKSIZE) - max offset (j * SFS_BLKSIZE)

def ioPiece (sin offset endpos : Nat) (write : Bool) (j : Nat) (io : Transfer) :
    Routine SfsFs (Except Errno Unit × Transfer) :=
  if pieceSize offset endpos j = SFS_BLKSIZE then
    ioStep sin j SFS_BLKSIZE (fun buf pos ino => sfsBlockOp write buf pos ino 1) io
  else
    ioPart sin j (pieceStart offset j) (pieceSize offset endpos j) write io

/-- The blocks from `j` on, one after another. -/
def ioRange (sin offset endpos : Nat) (write : Bool) :
    Nat → Nat → Transfer → Routine SfsFs (Except Errno Unit × Transfer)
  | 0, _, io => return (.ok (), io)
  | n + 1, j, io =>
      andContinue (ioPiece sin offset endpos write j io) (ioRange sin offset endpos write n (j + 1))

variable {sin offset endpos : Nat} {write : Bool}

theorem andContinue_self (x : Routine SfsFs (Except Errno Unit × Transfer)) :
    (andContinue x fun io => return (.ok (), io)) = x := by
  funext s
  cases hx : x s with
  | error a => exact bind_of_abort hx
  | ok p =>
      rcases p with ⟨e | ⟨e | ⟨⟩, io⟩, t⟩
      · exact bind_of_error hx
      · exact bind_of_ok hx
      · exact bind_of_ok hx

theorem andContinue_assoc (x : Routine SfsFs (Except Errno Unit × Transfer))
    (f g : Transfer → Routine SfsFs (Except Errno Unit × Transfer)) :
    andContinue (andContinue x f) g = andContinue x fun io => andContinue (f io) g := by
  rw [andContinue, andContinue, routine_bind_assoc, andContinue]
  congr 1
  funext p
  rcases p with ⟨e | ⟨⟩, io⟩
  · rfl
  · rfl

theorem ioRange_add (n m : Nat) : ∀ j io, ioRange sin offset endpos write (n + m) j io =
    andContinue (ioRange sin offset endpos write n j io)
      (ioRange sin offset endpos write m (j + n)) := by
  induction n with
  | zero =>
      intro j io
      rw [Nat.zero_add]
      rfl
  | succ n ih =>
      intro j io
      have hsucc : n + 1 + m = (n + m) + 1 := by omega
      rw [hsucc, ioRange, ioRange, andContinue_assoc]
      congr 1
      funext io'
      rw [ih]
      congr 2
      omega

theorem pieceSize_full {j : Nat} (hstart : offset ≤ j * SFS_BLKSIZE)
    (hstop : (j + 1) * SFS_BLKSIZE ≤ endpos) : pieceSize offset endpos j = SFS_BLKSIZE := by
  rw [pieceSize, min_eq_right hstop, max_eq_right hstart, Nat.succ_mul]
  omega

theorem ioBlocks_eq (n : Nat) : ∀ j io, offset ≤ j * SFS_BLKSIZE →
    (j + n) * SFS_BLKSIZE ≤ endpos →
    ioBlocks sin write n j io = ioRange sin offset endpos write n j io := by
  induction n with
  | zero =>
      intro j io _ _
      rfl
  | succ n ih =>
      intro j io hstart hstop
      have hfull : pieceSize offset endpos j = SFS_BLKSIZE := by
        apply pieceSize_full hstart
        apply le_trans _ hstop
        exact Nat.mul_le_mul_right _ (by omega)
      have hnext : ∀ io', ioBlocks sin write n (j + 1) io' =
          ioRange sin offset endpos write n (j + 1) io' := by
        intro io'
        apply ih
        · rw [Nat.succ_mul]
          omega
        · rw [Nat.add_right_comm]
          exact hstop
      rw [ioRange, ioPiece, if_pos hfull]
      show andContinue _ (ioBlocks sin write n (j + 1)) = _
      rw [funext hnext]

theorem ioRange_one (j : Nat) (io : Transfer) : ioRange sin offset endpos write 1 j io =
    ioPiece sin offset endpos write j io :=
  andContinue_self _

theorem ioAligned_eq {j nblks : Nat} (io : Transfer) (hstart : offset ≤ j * SFS_BLKSIZE)
    (hstop : j + nblks = endpos / SFS_BLKSIZE) :
    ioAligned sin j nblks endpos write io =
      ioRange sin offset endpos write (blocksFor endpos - j) j io := by
  have hsplit := Nat.div_add_mod endpos SFS_BLKSIZE
  have hmod : endpos % SFS_BLKSIZE < SFS_BLKSIZE := Nat.mod_lt _ (by decide)
  rw [← hstop, Nat.mul_comm] at hsplit
  have hstart' : offset ≤ (j + nblks) * SFS_BLKSIZE :=
    le_trans hstart (Nat.mul_le_mul_right _ (by omega))
  show andContinue (ioBlocks sin write nblks j io) (fun io =>
    if endpos % SFS_BLKSIZE ≠ 0 then
      ioPart sin (j + nblks) 0 (endpos % SFS_BLKSIZE) write io
    else return (.ok (), io)) = _
  have hle : (j + nblks) * SFS_BLKSIZE ≤ endpos := by omega
  rw [ioBlocks_eq nblks j io hstart hle]
  rcases eq_or_ne (endpos % SFS_BLKSIZE) 0 with hzero | htail
  · have hcount : blocksFor endpos - j = nblks := by
      unfold blocksFor SFS_BLKSIZE at *
      omega
    simp only [hzero, ne_eq, not_true_eq_false, if_false]
    rw [andContinue_self, hcount]
  · have hcount : blocksFor endpos - j = nblks + 1 := by
      unfold blocksFor SFS_BLKSIZE at *
      omega
    have hsize : pieceSize offset endpos (j + nblks) = endpos % SFS_BLKSIZE := by
      rw [pieceSize, max_eq_right hstart', min_eq_left (by rw [Nat.succ_mul]; omega)]
      omega
    have hpos : pieceStart offset (j + nblks) = 0 := Nat.sub_eq_zero_of_le hstart'
    have hlast : ∀ io', ioPart sin (j + nblks) 0 (endpos % SFS_BLKSIZE) write io' =
        ioRange sin offset endpos write 1 (j + nblks) io' := by
      intro io'
      rw [ioRange_one, ioPiece, hsize, hpos, if_neg (Nat.ne_of_lt hmod)]
    simp only [htail, ne_eq, not_false_eq_true, if_true]
    rw [hcount, ioRange_add, funext hlast]

theorem ioPhases_eq (io : Transfer) (hlt : offset < endpos) :
    ioPhases sin offset endpos write io =
      ioRange sin offset endpos write (blocksFor endpos - offset / SFS_BLKSIZE)
        (offset / SFS_BLKSIZE) io := by
  have hstart := Nat.div_add_mod offset SFS_BLKSIZE
  have hmod : offset % SFS_BLKSIZE < SFS_BLKSIZE := Nat.mod_lt _ (by decide)
  have hle : offset / SFS_BLKSIZE ≤ endpos / SFS_BLKSIZE := Nat.div_le_div_right (le_of_lt hlt)
  rw [Nat.mul_comm] at hstart
  unfold ioPhases
  rcases eq_or_ne (offset % SFS_BLKSIZE) 0 with haligned | hhead
  · simp only [haligned, ne_eq, not_true_eq_false, if_false]
    apply ioAligned_eq
    · omega
    · omega
  · have hfirst : pieceStart offset (offset / SFS_BLKSIZE) = offset % SFS_BLKSIZE := by
      rw [pieceStart]
      omega
    have hmax : max offset (offset / SFS_BLKSIZE * SFS_BLKSIZE) = offset := max_eq_left (by omega)
    simp only [hhead, ne_eq, not_false_eq_true, if_true]
    rcases eq_or_ne (endpos / SFS_BLKSIZE - offset / SFS_BLKSIZE) 0 with hsame | hmore
    · have hdiv : endpos / SFS_BLKSIZE = offset / SFS_BLKSIZE := by omega
      have hend := Nat.div_add_mod endpos SFS_BLKSIZE
      have hendMod : endpos % SFS_BLKSIZE < SFS_BLKSIZE := Nat.mod_lt _ (by decide)
      rw [hdiv, Nat.mul_comm] at hend
      have hcount : blocksFor endpos - offset / SFS_BLKSIZE = 1 := by
        unfold blocksFor SFS_BLKSIZE at *
        omega
      have hsize : pieceSize offset endpos (offset / SFS_BLKSIZE) = endpos - offset := by
        rw [pieceSize, hmax, min_eq_left (by rw [Nat.succ_mul]; omega)]
      simp only [hsame, not_true_eq_false, if_false, if_true]
      rw [hcount, ioRange_one, ioPiece, hsize, hfirst, if_neg (by omega)]
      exact andContinue_self _
    · have hnext : (offset / SFS_BLKSIZE + 1) * SFS_BLKSIZE ≤ endpos := by
        calc (offset / SFS_BLKSIZE + 1) * SFS_BLKSIZE
            ≤ endpos / SFS_BLKSIZE * SFS_BLKSIZE := Nat.mul_le_mul_right _ (by omega)
          _ ≤ endpos := Nat.div_mul_le_self _ _
      have hsize : pieceSize offset endpos (offset / SFS_BLKSIZE) =
          SFS_BLKSIZE - offset % SFS_BLKSIZE := by
        rw [pieceSize, hmax, min_eq_right hnext, Nat.succ_mul]
        omega
      have hcount : blocksFor endpos - offset / SFS_BLKSIZE =
          (blocksFor endpos - (offset / SFS_BLKSIZE + 1)) + 1 := by
        unfold blocksFor SFS_BLKSIZE at *
        omega
      have hrest : ∀ io', ioAligned sin (offset / SFS_BLKSIZE + 1)
          (endpos / SFS_BLKSIZE - offset / SFS_BLKSIZE - 1) endpos write io' =
          ioRange sin offset endpos write (blocksFor endpos - (offset / SFS_BLKSIZE + 1))
            (offset / SFS_BLKSIZE + 1) io' := by
        intro io'
        apply ioAligned_eq
        · rw [Nat.succ_mul]
          omega
        · omega
      simp only [hmore, not_false_eq_true, if_true, if_false]
      rw [hcount, ioRange, ioPiece, hsize, hfirst, if_neg (by omega), ← funext hrest]
      rfl

end Ucore.SfsIoRange
