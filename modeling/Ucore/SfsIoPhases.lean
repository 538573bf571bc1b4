import Ucore.SfsIo

namespace Ucore.SfsIoPhases

open Ucore.Errors
open Ucore.KernelRoutine
open Ucore.SfsDisk
open Ucore.SfsIo

/-- A transfer that returns: either it is complete and `done` holds, or it is
out of space and `short` holds. -/
def Finishes (x : Routine SfsFs (Except Errno Unit × Transfer)) (sfs : SfsFs)
    (done short : Transfer → SfsFs → Prop) : Prop :=
  (∃ io sfs', x sfs = .ok (.ok (.ok (), io), sfs') ∧ done io sfs') ∨
    ∃ io sfs', x sfs = .ok (.ok (.error .eNoMem, io), sfs') ∧ short io sfs'

/-- Continue a transfer that has been complete so far. -/
def andContinue (x : Routine SfsFs (Except Errno Unit × Transfer))
    (f : Transfer → Routine SfsFs (Except Errno Unit × Transfer)) :
    Routine SfsFs (Except Errno Unit × Transfer) := do
  match ← x with
  | (.error e, io) => return (.error e, io)
  | (.ok _, io) => f io

variable {x : Routine SfsFs (Except Errno Unit × Transfer)} {sfs : SfsFs}
  {middle done short : Transfer → SfsFs → Prop}

theorem Finishes.andContinue {f : Transfer → Routine SfsFs (Except Errno Unit × Transfer)}
    (hx : Finishes x sfs middle short)
    (hf : ∀ io sfs', middle io sfs' → Finishes (f io) sfs' done short) :
    Finishes (andContinue x f) sfs done short := by
  rcases hx with ⟨io, sfs', heq, hmiddle⟩ | ⟨io, sfs', heq, hshort⟩
  · rcases hf io sfs' hmiddle with ⟨io', sfs'', heq', hdone⟩ | ⟨io', sfs'', heq', hshort⟩
    · left
      refine ⟨io', sfs'', ?_, hdone⟩
      rw [SfsIoPhases.andContinue, bind_of_ok heq]
      exact heq'
    · right
      refine ⟨io', sfs'', ?_, hshort⟩
      rw [SfsIoPhases.andContinue, bind_of_ok heq]
      exact heq'
  · right
    refine ⟨io, sfs', ?_, hshort⟩
    rw [SfsIoPhases.andContinue, bind_of_ok heq]
    rfl

theorem Finishes.of_return {io : Transfer} (h : done io sfs) :
    Finishes (return (.ok (), io)) sfs done short :=
  Or.inl ⟨io, sfs, rfl, h⟩

section Phases

variable {sin offset endpos : Nat} {write : Bool} {good short : Transfer → SfsFs → Prop}

/-- Every piece of the range, once all before it has been transferred, is
transferred by one block operation, or there is no space for it. -/
structure Pieces (sin offset endpos : Nat) (write : Bool) (good short : Transfer → SfsFs → Prop) :
    Prop where
  part : ∀ io sfs blkno blkoff size, good io sfs →
    offset + io.alen = blkno * SFS_BLKSIZE + blkoff → 0 < size → blkoff + size ≤ SFS_BLKSIZE →
    offset + io.alen + size ≤ endpos →
    Finishes (ioPart sin blkno blkoff size write io) sfs
      (fun io' sfs' => good io' sfs' ∧ io'.alen = io.alen + size) short
  block : ∀ io sfs blkno, good io sfs → offset + io.alen = blkno * SFS_BLKSIZE →
    offset + io.alen + SFS_BLKSIZE ≤ endpos →
    Finishes (ioStep sin blkno SFS_BLKSIZE (fun buf pos ino => sfsBlockOp write buf pos ino 1) io)
      sfs (fun io' sfs' => good io' sfs' ∧ io'.alen = io.alen + SFS_BLKSIZE) short

theorem ioBlocks_finishes (h : Pieces sin offset endpos write good short) :
    ∀ nblks blkno io sfs, good io sfs → offset + io.alen = blkno * SFS_BLKSIZE →
      offset + io.alen + nblks * SFS_BLKSIZE ≤ endpos →
      Finishes (ioBlocks sin write nblks blkno io) sfs
        (fun io' sfs' => good io' sfs' ∧ io'.alen = io.alen + nblks * SFS_BLKSIZE) short := by
  intro nblks
  induction nblks with
  | zero =>
      intro blkno io sfs hgood _ _
      apply Finishes.of_return
      exact ⟨hgood, by omega⟩
  | succ nblks ih =>
      intro blkno io sfs hgood hstart hstop
      have hsucc : (nblks + 1) * SFS_BLKSIZE = SFS_BLKSIZE + nblks * SFS_BLKSIZE := by
        rw [Nat.succ_mul, Nat.add_comm]
      rw [hsucc] at hstop ⊢
      apply Finishes.andContinue (h.block io sfs blkno hgood hstart (by omega))
      rintro io' sfs' ⟨hgood', halen⟩
      have hnext : offset + io'.alen = (blkno + 1) * SFS_BLKSIZE := by
        rw [Nat.succ_mul, halen]
        omega
      have hrest := ih (blkno + 1) io' sfs' hgood' hnext (by omega)
      rw [halen, Nat.add_assoc] at hrest
      exact hrest

theorem ioAligned_finishes (h : Pieces sin offset endpos write good short) {blkno nblks : Nat}
    {io : Transfer} (hgood : good io sfs) (hstart : offset + io.alen = blkno * SFS_BLKSIZE)
    (hstop : blkno + nblks = endpos / SFS_BLKSIZE) :
    Finishes (ioAligned sin blkno nblks endpos write io) sfs
      (fun io' sfs' => good io' sfs' ∧ offset + io'.alen = endpos) short := by
  have hsplit := Nat.div_add_mod endpos SFS_BLKSIZE
  rw [← hstop, Nat.mul_comm, Nat.add_mul] at hsplit
  apply Finishes.andContinue (ioBlocks_finishes h nblks blkno io sfs hgood hstart (by omega))
  rintro io' sfs' ⟨hgood', halen⟩
  rcases eq_or_ne (endpos % SFS_BLKSIZE) 0 with hzero | htail
  · rw [if_neg (not_not.mpr hzero)]
    apply Finishes.of_return
    exact ⟨hgood', by omega⟩
  · rw [if_pos htail]
    have hmod : endpos % SFS_BLKSIZE < SFS_BLKSIZE := Nat.mod_lt _ (by decide)
    have hpart := h.part io' sfs' (blkno + nblks) 0 (endpos % SFS_BLKSIZE) hgood'
      (by rw [Nat.add_mul]; omega) (by omega) (by omega) (by omega)
    rcases hpart with ⟨io'', sfs'', heq, hgood'', halen''⟩ | hshort
    · exact Or.inl ⟨io'', sfs'', heq, hgood'', by omega⟩
    · exact Or.inr hshort

theorem ioPhases_finishes (h : Pieces sin offset endpos write good short) {io : Transfer}
    (hgood : good io sfs) (hzero : io.alen = 0) (hlt : offset < endpos) :
    Finishes (ioPhases sin offset endpos write io) sfs
      (fun io' sfs' => good io' sfs' ∧ offset + io'.alen = endpos) short := by
  have hstart := Nat.div_add_mod offset SFS_BLKSIZE
  have hend := Nat.div_add_mod endpos SFS_BLKSIZE
  have hstartMod : offset % SFS_BLKSIZE < SFS_BLKSIZE := Nat.mod_lt _ (by decide)
  have hendMod : endpos % SFS_BLKSIZE < SFS_BLKSIZE := Nat.mod_lt _ (by decide)
  have hle : offset / SFS_BLKSIZE ≤ endpos / SFS_BLKSIZE := Nat.div_le_div_right (le_of_lt hlt)
  rw [Nat.mul_comm] at hstart hend
  unfold ioPhases
  rcases eq_or_ne (offset % SFS_BLKSIZE) 0 with haligned | hhead
  · simp only [haligned, ne_eq, not_true_eq_false, if_false]
    apply ioAligned_finishes h hgood
    · omega
    · omega
  · simp only [hhead, ne_eq, not_false_eq_true, if_true]
    rcases eq_or_ne (endpos / SFS_BLKSIZE - offset / SFS_BLKSIZE) 0 with hsame | hmore
    · have hdiv : endpos / SFS_BLKSIZE = offset / SFS_BLKSIZE := by omega
      rw [hdiv] at hend
      simp only [hsame, not_true_eq_false, if_false, if_true]
      apply Finishes.andContinue (h.part io sfs (offset / SFS_BLKSIZE) (offset % SFS_BLKSIZE)
        (endpos - offset) hgood (by omega) (by omega) (by omega) (by omega))
      rintro io' sfs' ⟨hgood', halen⟩
      apply Finishes.of_return
      exact ⟨hgood', by omega⟩
    · have hnext : (offset / SFS_BLKSIZE + 1) * SFS_BLKSIZE ≤
          endpos / SFS_BLKSIZE * SFS_BLKSIZE := Nat.mul_le_mul_right _ (by omega)
      rw [Nat.succ_mul] at hnext
      simp only [hmore, not_false_eq_true, if_true, if_false]
      apply Finishes.andContinue (h.part io sfs (offset / SFS_BLKSIZE) (offset % SFS_BLKSIZE)
        (SFS_BLKSIZE - offset % SFS_BLKSIZE) hgood (by omega) (by omega) (by omega) (by omega))
      rintro io' sfs' ⟨hgood', halen⟩
      apply ioAligned_finishes h hgood'
      · rw [Nat.succ_mul]
        omega
      · omega

end Phases

end Ucore.SfsIoPhases
