import Ucore.SfsAllocErrors
import Ucore.SfsGaps

/-! When `sfs_truncfile` does all of its work or none of it. -/

namespace Ucore.SfsTruncAtomic

open Ucore.Errors
open Ucore.KernelRoutine
open Ucore.SfsDisk
open Ucore.SfsBlockMap
open Ucore.SfsOwnership
open Ucore.SfsBlockMapGrow
open Ucore.SfsIo
open Ucore.SfsIoRefinement
open Ucore.SfsFaults
open Ucore.SfsCapacity
open Ucore.SfsGaps
open Ucore.SfsAllocErrors

variable {sfs t : SfsFs} {usage : Usage} {ino : Nat}

/-- The file has as many blocks as its size takes. -/
def Matched (ino : Nat) (sfs : SfsFs) : Prop :=
  (dinOf sfs ino).blocks = blocksFor (dinOf sfs ino).size

/-- A length within the block map. -/
def Mappable (len : Int) : Prop :=
  len ≤ maxBlocks * SFS_BLKSIZE

/-- `sfs_truncfile` sets the length or leaves all as before. The blocks match the size
afterwards, and no later call panics. -/
def Atomic (sfs : SfsFs) (ino : Nat) (len : Int) : Prop :=
  ∃ r t, sfsTruncfile ino len sfs = .ok (r, t) ∧
    (r = .ok () ∧ ((dinOf t ino).size : Int) = len ∨ (∃ e, r = .error e) ∧ Reverted sfs t) ∧
    Matched ino t ∧
    ∀ len', Mappable len' → ∃ r' t', sfsTruncfile ino len' t = .ok (r', t')

theorem Mappable.blocks_le {len : Int} (h : Mappable len) : blocksFor len.toNat ≤ maxBlocks := by
  apply blocksFor_le
  rw [Mappable] at h
  omega

theorem sfsTruncfile_returns_mappable (h : WellFormed (calm t) usage) (hin : ino ∈ t.inodeList)
    (hmatched : Matched ino t) {len : Int} (hlen : Mappable len) :
    ∃ r t', sfsTruncfile ino len t = .ok (r, t') := by
  apply (sfsTruncfile_returnsUnless h hin hmatched len).returns
  rintro ⟨_, hlong, _⟩
  exact absurd hlong (not_lt.mpr hlen.blocks_le)

/-- The loop that enlarges a file gets all of its blocks, or none of them, or some. -/
theorem truncGrow_outcome (n : Nat) : ∀ t, WellFormed t usage → ino ∈ t.inodeList →
    (dinOf t ino).blocks + n ≤ maxBlocks →
      ∃ r t', truncGrow ino n (dinOf t ino).blocks t = .ok (r, t') ∧
        (r = .ok () ∧ WellFormed t' usage ∧ ino ∈ t'.inodeList ∧
            (dinOf t' ino).blocks = (dinOf t ino).blocks + n ∧
            blocksNeeded (dinOf t ino) ((dinOf t ino).blocks + n) ≤ freeCount t ∨
          (∃ e, r = .error e) ∧
            freeCount t < blocksNeeded (dinOf t ino) ((dinOf t ino).blocks + n) ∧
            (freeCount t < growCost (dinOf t ino) ∧ Reverted t t' ∨
              growCost (dinOf t ino) ≤ freeCount t ∧
                (dinOf t ino).blocks < (dinOf t' ino).blocks)) := by
  induction n with
  | zero =>
      intro t h hin _
      have hneeded := blocksNeeded_of_le h (h.loaded ino hin) (le_refl (dinOf t ino).blocks)
      refine ⟨.ok (), t, rfl, Or.inl ⟨rfl, h, hin, rfl, ?_⟩⟩
      rw [Nat.add_zero, hneeded]
      exact Nat.zero_le _
  | succ n ih =>
      intro t h hin hmax
      have hcost := @growCost_le_blocksNeeded t ino ((dinOf t ino).blocks + (n + 1)) (by omega)
      have hsteady := h.freemap.steady
      have hcalm : WellFormed (calm t) usage := by
        rw [calm_of_steady hsteady]
        exact h
      rw [truncGrow]
      rcases sfsBmapLoadNolock_end h hin (by omega) with
        ⟨t₁, hload, _, hfew⟩ | ⟨b, t₁, hload, hgrown⟩
      · have hback := sfsBmapLoadNolock_reverts hcalm hsteady hin hload
        exact ⟨_, t₁, bind_of_error hload,
          Or.inr ⟨⟨_, rfl⟩, by omega, Or.inl ⟨hfew, hback⟩⟩⟩
      · have hblocks := hgrown.blocks
        have hcount := hgrown.count
        have hneeded := @blocksNeeded_of_grown t t₁ usage ino b
          ((dinOf t ino).blocks + (n + 1)) hgrown (by omega)
        have hin₁ : ino ∈ t₁.inodeList := by
          rw [hgrown.loaded]
          exact hin
        have hnext := ih t₁ hgrown.wf hin₁ (by omega)
        have hend : (dinOf t₁ ino).blocks + n = (dinOf t ino).blocks + (n + 1) := by omega
        rw [hend, hblocks] at hnext
        obtain ⟨r, t', hrun, hcases⟩ := hnext
        refine ⟨r, t', (bind_of_ok hload).trans hrun, ?_⟩
        rcases hcases with ⟨hr, hwf', hin', hblocks', hfree⟩ | ⟨hr, hfree, hcases⟩
        · exact Or.inl ⟨hr, hwf', hin', hblocks', by omega⟩
        · refine Or.inr ⟨hr, by omega, Or.inr ⟨by omega, ?_⟩⟩
          rcases hcases with ⟨_, hback⟩ | ⟨_, hmore⟩
          · have hsame := (hback.kept (by rw [calm_of_steady hgrown.wf.freemap.steady]
                                          exact hgrown.wf) (hgrown.wf.loaded ino hin₁)).din
            rw [hsame]
            omega
          · omega

/-- A call that leaves all as before. -/
theorem Atomic.of_reverted {len : Int} {e : Errno} (h : WellFormed (calm sfs) usage)
    (hin : ino ∈ sfs.inodeList) (hmatched : Matched ino sfs)
    (hrun : sfsTruncfile ino len sfs = .ok (.error e, t)) (hback : Reverted sfs t) :
    Atomic sfs ino len := by
  have hin' : ino ∈ t.inodeList := by
    rw [hback.loaded]
    exact hin
  have hmatched' : Matched ino t := by
    rw [Matched, (hback.kept h (h.loaded ino hin)).din]
    exact hmatched
  exact ⟨_, t, hrun, Or.inr ⟨⟨e, rfl⟩, hback⟩, hmatched', fun len' hlen' =>
    sfsTruncfile_returns_mappable (hback.wellFormed h) hin' hmatched' hlen'⟩

/-- A call that has given the file the blocks it is to have. -/
theorem Atomic.of_resized {len : Int} (hnonneg : 0 ≤ len) (h : WellFormed t usage)
    (hin : ino ∈ t.inodeList) (hblocks : (dinOf t ino).blocks = blocksFor len.toNat)
    {t' : SfsFs} (ht' : t' = t.setInode ino
      { din := { dinOf t ino with size := len.toNat }, dirty := true })
    (hrun : sfsTruncfile ino len sfs = .ok (.ok (), t')) : Atomic sfs ino len := by
  subst ht'
  have hfinished := finished_setInode h hin len.toNat true
  have hmatched : Matched ino (t.setInode ino
      { din := { dinOf t ino with size := len.toNat }, dirty := true }) := by
    rw [Matched, hfinished.din]
    exact hblocks
  have hcalm : WellFormed (calm (t.setInode ino
      { din := { dinOf t ino with size := len.toNat }, dirty := true })) usage := by
    rw [calm_of_steady hfinished.wf.freemap.steady]
    exact hfinished.wf
  refine ⟨_, _, hrun, Or.inl ⟨rfl, ?_⟩, hmatched, fun len' hlen' =>
    sfsTruncfile_returns_mappable hcalm hin hmatched hlen'⟩
  rw [hfinished.din]
  exact Int.toNat_of_nonneg hnonneg

theorem not_atomic_of_part {len : Int} {e : Errno}
    (hrun : sfsTruncfile ino len sfs = .ok (.error e, t)) (h : WellFormed (calm sfs) usage)
    (hin : ino ∈ sfs.inodeList) (hmore : (dinOf sfs ino).blocks < (dinOf t ino).blocks) :
    ¬Atomic sfs ino len := by
  rintro ⟨r, t', hrun', hcases, _⟩
  rw [hrun] at hrun'
  cases hrun'
  rcases hcases with ⟨hr, _⟩ | ⟨_, hback⟩
  · cases hr
  · rw [(hback.kept h (h.loaded ino hin)).din] at hmore
    exact lt_irrefl _ hmore

/-- `sfs_truncfile` after its checks, for a length that the file does not have. -/
theorem sfsTruncfile_resizes {len : Int}
    (hrange : ¬(len < 0 ∨ (SFS_MAX_FILE_SIZE : Int) < len))
    (hsize : (sfs.inode ino).din.size ≠ len.toNat) :
    sfsTruncfile ino len sfs = (truncResize ino (blocksFor len.toNat) >>= fun _ => do
      let s ← getState
      ensure ((s.inode ino).din.blocks = blocksFor len.toNat)
      modifyInode ino fun si => { din := { si.din with size := len.toNat }, dirty := true }) sfs := by
  rw [sfsTruncfile, if_neg hrange, getState_bind, if_neg hsize]
  rfl

theorem truncEnd_eq {len : Nat} (hin : ino ∈ t.inodeList)
    (hblocks : (dinOf t ino).blocks = blocksFor len) :
    (do
      let s ← getState
      ensure ((s.inode ino).din.blocks = blocksFor len)
      modifyInode ino fun si => { din := { si.din with size := len }, dirty := true } :
      Routine SfsFs Unit) t =
    .ok (.ok (), t.setInode ino { din := { dinOf t ino with size := len }, dirty := true }) := by
  rw [dinOf_loaded hin] at hblocks ⊢
  rw [getState_bind, ensure_bind_of hblocks]
  rfl

section Cases

variable (h : WellFormed sfs usage) (hin : ino ∈ sfs.inodeList)
include h hin

theorem atomic_same (hmatched : Matched ino sfs) {len : Int}
    (hrange : ¬(len < 0 ∨ (SFS_MAX_FILE_SIZE : Int) < len))
    (hsize : (dinOf sfs ino).size = len.toNat) : Atomic sfs ino len := by
  have hcalm : WellFormed (calm sfs) usage := by
    rw [calm_of_steady h.freemap.steady]
    exact h
  have hblocks : (len.toNat + SFS_BLKSIZE - 1) / SFS_BLKSIZE = (sfs.inode ino).din.blocks := by
    rw [← dinOf_loaded hin, hmatched, hsize]
    rfl
  refine ⟨.ok (), sfs, ?_, Or.inl ⟨rfl, by omega⟩, hmatched, fun len' hlen' =>
    sfsTruncfile_returns_mappable hcalm hin hmatched hlen'⟩
  rw [dinOf_loaded hin] at hsize
  rw [sfsTruncfile, if_neg hrange, getState_bind, if_pos hsize]
  exact ensure_of hblocks sfs

theorem atomic_shrink {len : Int} (hrange : ¬(len < 0 ∨ (SFS_MAX_FILE_SIZE : Int) < len))
    (hsize : (dinOf sfs ino).size ≠ len.toNat)
    (hshort : blocksFor len.toNat ≤ (dinOf sfs ino).blocks) : Atomic sfs ino len := by
  have hdin := @dinOf_loaded sfs ino hin
  obtain ⟨t, hrun, hcut⟩ := truncShrink_cuts ((dinOf sfs ino).blocks - blocksFor len.toNat) sfs
    h hin (Nat.sub_le _ _)
  have hin' : ino ∈ t.inodeList := by
    rw [hcut.loaded]
    exact hin
  have hblocks : (dinOf t ino).blocks = blocksFor len.toNat := by
    rw [hcut.blocks]
    omega
  have hresize : truncResize ino (blocksFor len.toNat) sfs = .ok (.ok (), t) := by
    rw [hdin] at hshort hrun
    rw [truncResize, getState_bind, ← hrun]
    exact congrFun (if_neg (not_lt.mpr hshort)) sfs
  refine Atomic.of_resized (by omega) hcut.wf hin' hblocks rfl ?_
  rw [hdin] at hsize
  rw [sfsTruncfile_resizes hrange hsize, bind_of_ok hresize]
  exact truncEnd_eq hin' hblocks

/-- A file that is to get more blocks. -/
theorem atomic_grow_iff (hmatched : Matched ino sfs) {len : Int} (hlen : Mappable len)
    (hrange : ¬(len < 0 ∨ (SFS_MAX_FILE_SIZE : Int) < len))
    (hlong : (dinOf sfs ino).blocks < blocksFor len.toNat) :
    Atomic sfs ino len ↔ blocksNeeded (dinOf sfs ino) (blocksFor len.toNat) ≤ freeCount sfs ∨
      freeCount sfs < growCost (dinOf sfs ino) := by
  have hdin := @dinOf_loaded sfs ino hin
  have hcalm : WellFormed (calm sfs) usage := by
    rw [calm_of_steady h.freemap.steady]
    exact h
  have hsize : (sfs.inode ino).din.size ≠ len.toNat := by
    intro heq
    rw [← hdin] at heq
    rw [hmatched, heq] at hlong
    exact lt_irrefl _ hlong
  have hend : (dinOf sfs ino).blocks + (blocksFor len.toNat - (dinOf sfs ino).blocks) =
      blocksFor len.toNat := by
    omega
  have hmax := hlen.blocks_le
  obtain ⟨r, t, hrun, hcases⟩ := truncGrow_outcome (blocksFor len.toNat - (dinOf sfs ino).blocks)
    sfs h hin (by omega)
  rw [hend] at hcases
  have hresize : truncResize ino (blocksFor len.toNat) sfs = .ok (r, t) := by
    rw [hdin] at hlong hrun
    rw [truncResize, getState_bind, ← hrun]
    exact congrFun (if_pos hlong) sfs
  have hstart := sfsTruncfile_resizes hrange hsize
  rcases hcases with ⟨rfl, hwf, hin', hblocks, hfree⟩ | ⟨⟨e, rfl⟩, hfew, hcases⟩
  · refine iff_of_true ?_ (Or.inl hfree)
    refine Atomic.of_resized (by omega) hwf hin' hblocks rfl ?_
    rw [hstart, bind_of_ok hresize]
    exact truncEnd_eq hin' hblocks
  · rw [bind_of_error hresize] at hstart
    rcases hcases with ⟨hnone, hback⟩ | ⟨hfirst, hmore⟩
    · exact iff_of_true (Atomic.of_reverted hcalm hin hmatched hstart hback) (Or.inr hnone)
    · apply iff_of_false (not_atomic_of_part hstart hcalm hin hmore)
      omega

end Cases

/-- `sfs_truncfile` is atomic unless the free blocks suffice for a part of the missing
blocks only. -/
theorem sfsTruncfile_atomic_iff (h : WellFormed sfs usage) (hin : ino ∈ sfs.inodeList)
    (hmatched : (dinOf sfs ino).blocks = blocksFor (dinOf sfs ino).size) {len : Int}
    (hlen : Mappable len) :
    Atomic sfs ino len ↔ blocksNeeded (dinOf sfs ino) (blocksFor len.toNat) ≤ freeCount sfs ∨
      freeCount sfs < growCost (dinOf sfs ino) := by
  rcases lt_or_ge (dinOf sfs ino).blocks (blocksFor len.toNat) with hlong | hshort
  · have hrange : ¬(len < 0 ∨ (SFS_MAX_FILE_SIZE : Int) < len) := by
      have hcapacity : ((maxBlocks * SFS_BLKSIZE : Nat) : Int) ≤ SFS_MAX_FILE_SIZE := by decide
      rw [Mappable] at hlen
      push_cast at hcapacity
      rintro (hneg | htoo)
      · rw [Int.toNat_of_nonpos (le_of_lt hneg)] at hlong
        exact absurd hlong (Nat.not_lt_zero _)
      · omega
    exact atomic_grow_iff h hin hmatched hlen hrange hlong
  · have hneeded := blocksNeeded_of_le h (h.loaded ino hin) hshort
    refine iff_of_true ?_ (Or.inl ?_)
    · by_cases hrange : len < 0 ∨ (SFS_MAX_FILE_SIZE : Int) < len
      · have hcalm : WellFormed (calm sfs) usage := by
          rw [calm_of_steady h.freemap.steady]
          exact h
        have hrun : sfsTruncfile ino len sfs = .ok (.error .eInval, sfs) := by
          rw [sfsTruncfile, if_pos hrange]
          rfl
        exact Atomic.of_reverted hcalm hin hmatched hrun (Reverted.refl sfs)
      · by_cases hsize : (dinOf sfs ino).size = len.toNat
        · exact atomic_same h hin hmatched hrange hsize
        · exact atomic_shrink h hin hrange hsize hshort
    · rw [hneeded]
      exact Nat.zero_le _

/-- Two more blocks for the small file, with two free. -/
theorem sfsTruncfile_atomic_iff_smallFs : Atomic smallFs 3 12288 ↔
    blocksNeeded (dinOf smallFs 3) (blocksFor 12288) ≤ freeCount smallFs ∨
      freeCount smallFs < growCost (dinOf smallFs 3) := by
  apply sfsTruncfile_atomic_iff wellFormed_smallFs (by decide)
  · rw [dinOf_smallFs]
    decide
  · rw [Mappable]
    decide

/-- Three more blocks for the small file, with two free: it keeps its size, gets two blocks,
and setting the size it has panics. -/
theorem not_atomic_smallFs : WellFormed smallFs smallUsage ∧ 3 ∈ smallFs.inodeList ∧
    (dinOf smallFs 3).type = SFS_TYPE_FILE ∧
      (dinOf smallFs 3).blocks = blocksFor (dinOf smallFs 3).size ∧ Mappable 16384 ∧
      ∃ e t, sfsTruncfile 3 16384 smallFs = .ok (.error e, t) ∧ (dinOf t 3).size = 100 ∧
        (dinOf t 3).blocks = 3 ∧ sfsTruncfile 3 100 t = .error .panic := by
  refine ⟨wellFormed_smallFs, by decide, ?_, ?_, ?_, .eNoMem, _, rfl, rfl, rfl, rfl⟩
  · rw [dinOf_smallFs]
    rfl
  · rw [dinOf_smallFs]
    decide
  · rw [Mappable]
    decide

end Ucore.SfsTruncAtomic
