import Mathlib.Algebra.BigOperators.Intervals
import Mathlib.Algebra.Order.BigOperators.Group.Finset
import Ucore.SfsBlockMapFaults
import Ucore.SfsIoRange

/-! When the inode in memory differs from its block on disk. -/

namespace Ucore.SfsDirtyInode

open Ucore.Errors
open Ucore.KernelRoutine
open Ucore.ByteBuffer
open Ucore.BlockBitmap
open Ucore.SfsDisk
open Ucore.SfsBlockMap
open Ucore.SfsOwnership
open Ucore.SfsFileViews
open Ucore.SfsBlockMapGrow
open Ucore.SfsBlockMapShrink
open Ucore.SfsIo
open Ucore.SfsIoPhases
open Ucore.SfsIoRange
open Ucore.SfsIoRefinement
open Ucore.SfsRuns
open Ucore.SfsSettled
open Ucore.SfsReachable
open Ucore.SfsFaults
open Ucore.SfsBlockMapFaults

variable {sfs sfs' sfs'' : SfsFs} {usage : Usage} {ino : Nat}

/-- The inode `ino` is in memory, in a file system that is well formed but for
what its device does. -/
structure Held (ino : Nat) (sfs : SfsFs) : Prop where
  wf : ∃ usage, WellFormed (calm sfs) usage
  loaded : ino ∈ sfs.inodeList

/-- An inode that differs from its block on disk is marked. -/
def Coherent (ino : Nat) (sfs : SfsFs) : Prop :=
  (sfs.inode ino).din ≠ loadDiskInode (sfs.dev.block ino) → (sfs.inode ino).dirty = true

/-- From one state to the other the block of the inode on disk is not written, and
the inode has not changed or is marked. -/
structure Marks (ino : Nat) (sfs sfs' : SfsFs) : Prop where
  held : Held ino sfs'
  disk : sfs'.dev.block ino = sfs.dev.block ino
  inode : sfs'.inode ino = sfs.inode ino ∨ (sfs'.inode ino).dirty = true

theorem Marks.refl (h : Held ino sfs) : Marks ino sfs sfs :=
  ⟨h, rfl, Or.inl rfl⟩

theorem Marks.trans (h : Marks ino sfs sfs') (h' : Marks ino sfs' sfs'') : Marks ino sfs sfs'' := by
  refine ⟨h'.held, h'.disk.trans h.disk, ?_⟩
  rcases h'.inode with hsame | hdirty
  · rw [hsame]
    exact h.inode
  · exact Or.inr hdirty

theorem Marks.coherent (h : Marks ino sfs sfs') (hc : Coherent ino sfs) : Coherent ino sfs' := by
  intro hne
  rcases h.inode with hsame | hdirty
  · rw [hsame] at hne ⊢
    rw [h.disk] at hne
    exact hc hne
  · exact hdirty

theorem inode_ne_indirect (hwf : WellFormed (calm sfs) usage) (hin : ino ∈ sfs.inodeList)
    (hsome : (sfs.inode ino).din.indirect ≠ 0) : ino ≠ (sfs.inode ino).din.indirect := by
  have hfile := hwf.loaded ino hin
  have hdin : dinOf (calm sfs) ino = (sfs.inode ino).din := @dinOf_loaded (calm sfs) ino hin
  intro heq
  have hholds : Holds (calm sfs) usage (.indirect ino) ino := by
    refine ⟨hfile, ?_, ?_⟩
    · rw [hdin]
      exact hsome
    · rw [hdin]
      exact heq
  cases hwf.owns.inj (o := .inode ino) ⟨hfile, rfl⟩ hholds

/-- Replacing the inode by one with the same blocks. -/
theorem Held.setInode {v : SfsInode} (h : Held ino sfs)
    (hblocks : v.din.blocks = (sfs.inode ino).din.blocks)
    (hindirect : v.din.indirect = (sfs.inode ino).din.indirect)
    (hdirect : v.din.direct = (sfs.inode ino).din.direct) : Held ino (sfs.setInode ino v) := by
  obtain ⟨⟨usage, hwf⟩, hin⟩ := h
  have hdin : dinOf (calm sfs) ino = (sfs.inode ino).din := @dinOf_loaded (calm sfs) ino hin
  refine ⟨⟨usage, @wellFormed_setInode (calm sfs) usage ino hwf hin v ?_ ?_ ?_⟩, hin⟩
  · rw [hdin]
    exact hblocks
  · rw [hdin]
    exact hindirect
  · rw [hdin]
    exact hdirect

section Shrink

theorem marks_of_shrunk {b : Nat} (hin : ino ∈ sfs.inodeList)
    (h : Shrunk (calm sfs) (calm sfs') usage ino b)
    (hdisk : sfs'.dev.block ino = sfs.dev.block ino) (hdirty : (sfs'.inode ino).dirty = true) :
    Marks ino sfs sfs' where
  held := by
    refine ⟨⟨usage, h.wf⟩, ?_⟩
    have hloaded : sfs'.inodeList = sfs.inodeList := h.loaded
    rw [hloaded]
    exact hin
  disk := hdisk
  inode := Or.inr hdirty

/-- `sfs_bmap_truncate_nolock` when the device may fail: it takes the last block from
the file and marks the inode, or changes nothing. -/
theorem sfsBmapTruncateNolock_outcome (hwf : WellFormed (calm sfs) usage)
    (hin : ino ∈ sfs.inodeList) {n : Nat} (hsucc : (sfs.inode ino).din.blocks = n + 1) :
    (∃ b t, sfsBmapTruncateNolock ino sfs = .ok (.ok (), t) ∧
        Shrunk (calm sfs) (calm t) usage ino b ∧ t.dev.block ino = sfs.dev.block ino ∧
        (t.inode ino).dirty = true) ∨
      ∃ e k, sfsBmapTruncateNolock ino sfs = .ok (.error e, passed sfs k) := by
  have hdin : dinOf (calm sfs) ino = (sfs.inode ino).din := @dinOf_loaded (calm sfs) ino hin
  have hfile := hwf.loaded ino hin
  have hbits := hwf.freemap.blocks_le
  have hmax := hwf.blocks_max ino hfile
  have hn : n + 1 = (dinOf (calm sfs) ino).blocks := by
    rw [hdin]
    exact hsucc.symm
  obtain ⟨hne, huse⟩ := @inUse_data (calm sfs) usage hwf ino n hfile (by omega)
  rcases lt_or_ge n SFS_NDIRECT with hnear | hfar
  · left
    have hshrunk := @shrunk_direct (calm sfs) usage ino hwf hin n hn hnear true
    have hblock : fileBlock (calm sfs) ino n = (sfs.inode ino).din.direct n := by
      rw [fileBlock, blockAt_near hnear, hdin]
    rw [hblock] at hne huse hshrunk
    rw [hdin] at hshrunk
    exact ⟨_, _, sfsBmapTruncateNolock_near hsucc hnear hne huse hbits, hshrunk, rfl,
      congrArg SfsInode.dirty (setInode_inode_self ino _)⟩
  · have hshrunk := @shrunk_indirect (calm sfs) usage ino hwf hin n hn hfar true
    have hsome := @indirect_ne_zero (calm sfs) ino usage hwf hfile (by omega)
    have huseIndirect := @inUse_indirect (calm sfs) usage hwf ino hfile hsome
    obtain ⟨hstart, hstop⟩ := word_in_block (@sub_lt_nentry n (by omega) hfar)
    have hword : getWord (sfs.dev.block (dinOf (calm sfs) ino).indirect) (n - SFS_NDIRECT) =
        fileBlock (calm sfs) ino n := by
      rw [fileBlock, blockAt_far hfar, if_neg hsome]
      rfl
    rw [sfsBmapTruncateNolock_far hsucc hfar (by omega) (congrArg _ hdin.symm) hsome huseIndirect
      hbits]
    have hfit : Fitting sfs := hwf.freemap.steady.blocks_le
    rcases sfsRbuf_tries hfit zeros 0 hsome huseIndirect.1 hstart hstop with
      ⟨_, hread⟩ | ⟨k, e, _, _, _, hread⟩
    · have hfit' : Fitting (passed sfs 1) := hfit
      rcases sfsWbuf_tries hfit' (wordBytes 0) 0 hsome huseIndirect.1 hstart hstop with
        ⟨_, hwrite⟩ | ⟨k, e, _, _, _, hwrite⟩
      · left
        rw [copyBytes_wordBytes] at hwrite
        have hfreed := @sfsBlockFree_apply
          (passed (entered sfs (dinOf (calm sfs) ino).indirect (n - SFS_NDIRECT) 0) (1 + 2))
          (fileBlock (calm sfs) ino n) hne huse.1 hbits huse.2
        have hcut : (do
            let b ← sfsRbuf zeros 0 4 (dinOf (calm sfs) ino).indirect ((n - SFS_NDIRECT) * 4)
            if getLE b 0 4 ≠ 0 then
              let _ ← sfsWbuf (wordBytes 0) 0 4 (dinOf (calm sfs) ino).indirect
                ((n - SFS_NDIRECT) * 4)
              sfsBlockFree (getLE b 0 4)
            else
              return () : Routine SfsFs Unit) sfs =
            .ok (.ok (), freed
              (passed (entered sfs (dinOf (calm sfs) ino).indirect (n - SFS_NDIRECT) 0) (1 + 2))
              (fileBlock (calm sfs) ino n)) := by
          rw [bind_of_ok hread, getLE_copyBytes_word, hword, if_pos hne, bind_of_ok hwrite,
            ← setBlock_passed, passed_passed]
          exact hfreed
        have hlast : (sfs.inode ino).din.blocks - 1 = n := by omega
        refine ⟨fileBlock (calm sfs) ino n, _, bind_of_ok hcut, ?_, ?_, congrArg SfsInode.dirty (setInode_inode_self ino _)⟩
        · change Shrunk (calm sfs) (calm ((freed (passed _ _) (fileBlock (calm sfs) ino n)).setInode
            ino { din := { (sfs.inode ino).din with blocks := (sfs.inode ino).din.blocks - 1 }
                  dirty := true })) usage ino _
          rw [hlast]
          rw [hdin] at hshrunk ⊢
          exact hshrunk
        · exact setBlock_block_ne (hdin ▸ inode_ne_indirect hwf hin (by rwa [← hdin])) _
      · right
        have hcut : (do
            let b ← sfsRbuf zeros 0 4 (dinOf (calm sfs) ino).indirect ((n - SFS_NDIRECT) * 4)
            if getLE b 0 4 ≠ 0 then
              let _ ← sfsWbuf (wordBytes 0) 0 4 (dinOf (calm sfs) ino).indirect
                ((n - SFS_NDIRECT) * 4)
              sfsBlockFree (getLE b 0 4)
            else
              return () : Routine SfsFs Unit) sfs =
            .ok (.error e, passed sfs (1 + (k + 1))) := by
          rw [bind_of_ok hread, getLE_copyBytes_word, hword, if_pos hne, bind_of_error hwrite,
            passed_passed]
        exact ⟨e, _, bind_of_error hcut⟩
    · right
      exact ⟨e, _, bind_of_error (bind_of_error hread)⟩

/-- `sfs_bmap_truncate_nolock` marks the inode it changes. -/
theorem sfsBmapTruncateNolock_marks (h : Held ino sfs) {r : Except Errno Unit}
    (heq : sfsBmapTruncateNolock ino sfs = .ok (r, sfs')) : Marks ino sfs sfs' := by
  obtain ⟨⟨usage, hwf⟩, hin⟩ := h
  rcases eq_or_ne (sfs.inode ino).din.blocks 0 with hzero | hpos
  · rw [sfsBmapTruncateNolock, getState_bind, ensure_bind_of_not (not_not.mpr hzero)] at heq
    cases heq
  · obtain ⟨n, hsucc⟩ := Nat.exists_eq_succ_of_ne_zero hpos
    rcases sfsBmapTruncateNolock_outcome hwf hin hsucc with
      ⟨b, t, hrun, hshrunk, hdisk, hdirty⟩ | ⟨e, k, hrun⟩
    · obtain rfl := (Prod.mk.inj (Except.ok.inj (heq.symm.trans hrun))).2
      exact marks_of_shrunk hin hshrunk hdisk hdirty
    · obtain rfl := (Prod.mk.inj (Except.ok.inj (heq.symm.trans hrun))).2
      exact ⟨⟨⟨usage, hwf⟩, hin⟩, rfl, Or.inl rfl⟩

end Shrink

section Load

variable {i b : Nat}

/-- The block `b` of the file `ino` has been looked up. -/
structure Reached (sfs sfs' : SfsFs) (ino b : Nat) : Prop where
  held : Held ino sfs'
  fill : ∀ data, Held ino (sfs'.setBlock b data)
  ne : b ≠ 0
  lt : b < sfs'.super.blocks
  apart : ino ≠ b
  disk : sfs'.dev.block ino = sfs.dev.block ino

theorem reached_of_data (hwf : WellFormed (calm sfs') usage) (hin : ino ∈ sfs'.inodeList)
    (hi : i < (dinOf (calm sfs') ino).blocks) (hdisk : sfs'.dev.block ino = sfs.dev.block ino) :
    Reached sfs sfs' ino (fileBlock (calm sfs') ino i) := by
  have hfile := hwf.loaded ino hin
  obtain ⟨hne, huse⟩ := @inUse_data (calm sfs') usage hwf ino i hfile hi
  refine ⟨⟨⟨usage, hwf⟩, hin⟩, ?_, hne, huse.1, ?_, hdisk⟩
  · intro data
    exact ⟨⟨usage, wellFormed_setBlock hwf (plain_of_data hwf hfile hi) data⟩, hin⟩
  · intro heq
    have hholds : Holds (calm sfs') usage (.data ino i) ino := ⟨hfile, hi, heq⟩
    cases hwf.owns.inj (o := .inode ino) ⟨hfile, rfl⟩ hholds

/-- Transfers that look the block `i` up, or make it through the indirect block. -/
def loadCost (din : SfsDiskInode) (i : Nat) : Nat :=
  if i < din.blocks then lookupCost i else 4

/-- `sfs_bmap_load_nolock` when the device may fail. -/
theorem sfsBmapLoadNolock_outcome (h : Held ino sfs) {r : Except Errno Nat}
    (heq : sfsBmapLoadNolock ino i sfs = .ok (r, sfs')) :
    i ≤ (sfs.inode ino).din.blocks ∧ i < maxBlocks ∧
      ((∃ b, r = .ok b ∧ Reached sfs sfs' ino b ∧
          ((i < (sfs.inode ino).din.blocks ∧ Quiet sfs (lookupCost i) ∧
              sfs' = passed sfs (lookupCost i)) ∨
            (i = (sfs.inode ino).din.blocks ∧ ((sfs'.inode ino).dirty = true ∨
              Unrecorded sfs sfs' ino ∧ freeCount sfs' + 1 = freeCount sfs)))) ∨
        ∃ e, r = .error e ∧ Held ino sfs' ∧ sfs'.dev.block ino = sfs.dev.block ino ∧
          sfs'.inode = sfs.inode ∧
          ((i < (sfs.inode ino).din.blocks ∧ ¬Quiet sfs (lookupCost i)) ∨
            (i = (sfs.inode ino).din.blocks ∧
              (freeCount sfs < growCost (sfs.inode ino).din ∨ ¬Quiet sfs 4)))) := by
  obtain ⟨⟨usage, hwf⟩, hin⟩ := h
  have hdin : dinOf (calm sfs) ino = (sfs.inode ino).din := @dinOf_loaded (calm sfs) ino hin
  have hused := used_inode hwf hin
  have hmax := hwf.blocks_max ino (hwf.loaded ino hin)
  rcases lt_trichotomy i (sfs.inode ino).din.blocks with hi | hi | hi
  · have hi' : i < (dinOf (calm sfs) ino).blocks := by rwa [hdin]
    refine ⟨le_of_lt hi, lt_of_lt_of_le hi' hmax, ?_⟩
    rcases sfsBmapLoadNolock_tries hwf hin hi' with ⟨hq, hrun⟩ | ⟨n, e, hn, hq, hfault, hrun⟩
    · left
      rw [hrun] at heq
      cases heq
      exact ⟨_, rfl, @reached_of_data sfs (passed sfs (lookupCost i)) usage ino i hwf hin hi' rfl,
        Or.inl ⟨hi, hq, rfl⟩⟩
    · right
      rw [hrun] at heq
      cases heq
      exact ⟨e, rfl, ⟨⟨usage, hwf⟩, hin⟩, rfl, rfl, Or.inl ⟨hi, not_quiet hn hfault⟩⟩
  · subst hi
    rcases lt_or_ge (sfs.inode ino).din.blocks maxBlocks with hroom | hfull
    · have hroom' : (dinOf sfs ino).blocks < maxBlocks := lt_of_eq_of_lt (congrArg _ hdin) hroom
      have hadds := sfsBmapLoadNolock_adds hwf hin hroom'
      rw [Adds, show dinOf sfs ino = (sfs.inode ino).din from hdin] at hadds
      refine ⟨le_rfl, hroom, ?_⟩
      rcases hadds with ⟨b, t, hrun, hgrown, hdisk, hstate⟩ | ⟨e, t, usage', hrun, hspoiled, hcause⟩
      · left
        rw [hrun] at heq
        cases heq
        have hin' : ino ∈ sfs'.inodeList := by
          have hloaded : sfs'.inodeList = sfs.inodeList := hgrown.loaded
          rwa [hloaded]
        have hblocks := hgrown.blocks
        rw [hdin] at hblocks
        have hhere := hgrown.block (dinOf (calm sfs) ino).blocks (by rwa [hdin])
        rw [if_pos rfl, hdin] at hhere
        have hreached := @reached_of_data sfs sfs' usage ino (sfs.inode ino).din.blocks hgrown.wf
          hin' (by omega) hdisk
        rw [hhere] at hreached
        refine ⟨b, rfl, hreached, Or.inr ⟨rfl, ?_⟩⟩
        rcases hstate with hdirty | hunrecorded
        · exact Or.inl hdirty
        · have hcount := hgrown.count
          rw [hdin, growCost, if_neg fun hboth => hunrecorded.indirect hboth.2] at hcount
          exact Or.inr ⟨hunrecorded, hcount⟩
      · right
        rw [hrun] at heq
        cases heq
        refine ⟨e, rfl, ⟨⟨usage', hspoiled.wf⟩, ?_⟩, hspoiled.block ino hused, hspoiled.inode,
          Or.inr ⟨rfl, hcause⟩⟩
        rw [hspoiled.loaded]
        exact hin
    · rw [sfsBmapLoadNolock, getState_bind, ensure_bind_of le_rfl,
        bind_of_abort (sfsBmapGetNolock_panic hfull _)] at heq
      cases heq
  · rw [sfsBmapLoadNolock, getState_bind, ensure_bind_of_not (not_le.mpr hi)] at heq
    cases heq

end Load

section Progress

variable {j cost : Nat}

/-- A block has been added to the file without a mark. -/
structure Leaks (sfs : SfsFs) (ino cost : Nat) : Prop where
  far : SFS_NDIRECT ≤ (sfs.inode ino).din.blocks
  room : (sfs.inode ino).din.blocks < maxBlocks
  indirect : (sfs.inode ino).din.indirect ≠ 0
  free : 0 < freeCount sfs
  quiet : Quiet sfs cost

/-- The inode has only got a new block count, for the blocks below `j`; that took
`k` transfers. -/
structure Unmarked (sfs : SfsFs) (ino cost k j : Nat) (sfs' : SfsFs) : Prop where
  inode : sfs'.inode ino = { sfs.inode ino with
    din := { (sfs.inode ino).din with blocks := max (sfs.inode ino).din.blocks j } }
  faults : sfs'.dev.faults = (passed sfs k).dev.faults
  quiet : Quiet sfs k
  count : freeCount sfs' + (j - (sfs.inode ino).din.blocks) = freeCount sfs
  leaks : (sfs.inode ino).din.blocks < j → Leaks sfs ino cost

/-- The blocks below `j` have been looked up. -/
structure Going (sfs : SfsFs) (ino cost k j : Nat) (sfs' : SfsFs) : Prop where
  held : Held ino sfs'
  disk : sfs'.dev.block ino = sfs.dev.block ino
  inode : (sfs'.inode ino).dirty = true ∨ Unmarked sfs ino cost k j sfs'

/-- It ended at the block `j`, for want of a block or of a transfer below `k`. -/
structure Broken (sfs : SfsFs) (ino cost k j : Nat) (sfs' : SfsFs) : Prop where
  held : Held ino sfs'
  disk : sfs'.dev.block ino = sfs.dev.block ino
  inode : (sfs'.inode ino).dirty = true ∨ ∃ m, sfs'.inode ino = { sfs.inode ino with
      din := { (sfs.inode ino).din with blocks := m } } ∧
    (m ≠ (sfs.inode ino).din.blocks → Leaks sfs ino cost ∧ (sfs.inode ino).din.blocks ≤ j ∧
      j < maxBlocks ∧ (freeCount sfs < j + 1 - (sfs.inode ino).din.blocks ∨ ¬Quiet sfs k))

theorem Broken.mono {k k' : Nat} (h : Broken sfs ino cost k j sfs') (hle : k ≤ k') :
    Broken sfs ino cost k' j sfs' := by
  refine ⟨h.held, h.disk, h.inode.imp_right ?_⟩
  rintro ⟨m, hinode, hleaks⟩
  refine ⟨m, hinode, fun hne => ?_⟩
  obtain ⟨hleak, hle', hroom, hcause⟩ := hleaks hne
  exact ⟨hleak, hle', hroom, hcause.imp_right fun hq hall => hq (hall.mono hle)⟩

theorem Going.refl (h : Held ino sfs) (hj : j ≤ (sfs.inode ino).din.blocks) :
    Going sfs ino cost 0 j sfs where
  held := h
  disk := rfl
  inode := by
    right
    refine ⟨?_, rfl, fun n hn => absurd hn (Nat.not_lt_zero n), ?_, fun hlt => absurd hlt (by omega)⟩
    · rw [max_eq_left hj]
    · rw [Nat.sub_eq_zero_of_le hj]
      rfl

theorem quiet_passed {t : SfsFs} {k l : Nat} (hfaults : t.dev.faults = (passed sfs k).dev.faults)
    (h : Quiet t l) : Quiet (passed sfs k) l := by
  intro n hn
  rw [← hfaults]
  exact h n hn

theorem quiet_of_going {t : SfsFs} {k l : Nat} (h : Unmarked sfs ino cost k j t) (hq : Quiet t l) :
    Quiet sfs (k + l) :=
  h.quiet.add (quiet_passed h.faults hq)

theorem not_quiet_of_going {t : SfsFs} {k l : Nat} (h : Unmarked sfs ino cost k j t)
    (hq : ¬Quiet t l) : ¬Quiet sfs (k + l) := by
  intro hall
  apply hq
  intro n hn
  rw [h.faults]
  exact hall.rest n hn

/-- Looking up the next block. -/
theorem going_load {t t' : SfsFs} {k : Nat} (h : Going sfs ino cost k j t)
    (hcost : j = (sfs.inode ino).din.blocks → cost ≤ k + 4) {r : Except Errno Nat}
    (heq : sfsBmapLoadNolock ino j t = .ok (r, t')) :
    (∃ b, r = .ok b ∧ Reached t t' ino b ∧
        Going sfs ino cost (k + loadCost (sfs.inode ino).din j) (j + 1) t') ∨
      ∃ e, r = .error e ∧ Broken sfs ino cost (k + loadCost (sfs.inode ino).din j) j t' := by
  obtain ⟨hle, hroom, houtcome⟩ := sfsBmapLoadNolock_outcome h.held heq
  rcases houtcome with ⟨b, rfl, hreached, hcase⟩ | ⟨e, rfl, hheld, hdisk, hinode, hcause⟩
  · left
    refine ⟨b, rfl, hreached, hreached.held, hreached.disk.trans h.disk, ?_⟩
    rcases h.inode with hdirty | hunmarked
    · left
      rcases hcase with ⟨_, _, rfl⟩ | ⟨_, hdirty' | ⟨hunrecorded, _⟩⟩
      · exact hdirty
      · exact hdirty'
      · rw [hunrecorded.inode]
        exact hdirty
    · have hblocks : (t.inode ino).din.blocks = max (sfs.inode ino).din.blocks j := by
        rw [hunmarked.inode]
      rcases hcase with ⟨hlt, hq, rfl⟩ | ⟨hlast, hdirty | ⟨hunrecorded, hcount⟩⟩
      · right
        have hlt' : j < (sfs.inode ino).din.blocks := by omega
        rw [loadCost, if_pos hlt']
        constructor
        case inode =>
          rw [passed_inode, hunmarked.inode, max_eq_left (le_of_lt hlt'), max_eq_left hlt']
        case faults =>
          show (passed t (lookupCost j)).dev.faults = _
          rw [← passed_passed]
          funext n
          rw [passed_faults, passed_faults, hunmarked.faults]
        case quiet => exact quiet_of_going hunmarked hq
        case count =>
          have hcount := hunmarked.count
          rw [Nat.sub_eq_zero_of_le (le_of_lt hlt')] at hcount
          rw [Nat.sub_eq_zero_of_le hlt']
          exact hcount
        case leaks =>
          intro hbeyond
          omega
      · exact Or.inl hdirty
      · right
        have hge : ¬j < (sfs.inode ino).din.blocks := by omega
        have hquiet := quiet_of_going hunmarked hunrecorded.quiet
        have hcountt := hunmarked.count
        rw [loadCost, if_neg hge]
        constructor
        case inode =>
          have hnext : max (sfs.inode ino).din.blocks j + 1 = max (sfs.inode ino).din.blocks (j + 1) := by
            omega
          rw [hunrecorded.inode, hunmarked.inode, hnext]
        case faults =>
          rw [hunrecorded.faults, ← passed_passed]
          funext n
          rw [passed_faults, passed_faults, hunmarked.faults]
        case quiet => exact hquiet
        case count => omega
        case leaks =>
          intro _
          rcases Nat.lt_or_ge (sfs.inode ino).din.blocks j with hbefore | hfirst
          · exact hunmarked.leaks hbefore
          · have hj : j = (sfs.inode ino).din.blocks := by omega
            have hfar := hunrecorded.far
            have hindirect := hunrecorded.indirect
            rw [hblocks] at hfar
            rw [hunmarked.inode] at hindirect
            exact ⟨by omega, by omega, hindirect, by omega, hquiet.mono (hcost hj)⟩
  · right
    refine ⟨e, rfl, hheld, hdisk.trans h.disk, ?_⟩
    rcases h.inode with hdirty | hunmarked
    · left
      rw [hinode]
      exact hdirty
    · right
      have hblocks : (t.inode ino).din.blocks = max (sfs.inode ino).din.blocks j := by
        rw [hunmarked.inode]
      refine ⟨max (sfs.inode ino).din.blocks j, ?_, ?_⟩
      · rw [hinode, hunmarked.inode]
      · intro hne
        have hleaks := hunmarked.leaks (by omega)
        refine ⟨hleaks, by omega, hroom, ?_⟩
        rcases hcause with ⟨hlt, hq⟩ | ⟨hlast, hshort | hq⟩
        · right
          rw [loadCost, if_pos (by omega)]
          exact not_quiet_of_going hunmarked hq
        · left
          have hindirect : (t.inode ino).din.indirect ≠ 0 := by
            rw [hunmarked.inode]
            exact hleaks.indirect
          rw [growCost, if_neg fun hboth => hindirect hboth.2] at hshort
          have hcount := hunmarked.count
          omega
        · right
          rw [loadCost, if_neg (by omega)]
          exact not_quiet_of_going hunmarked hq

end Progress

section Io

variable {offset endpos : Nat} {write : Bool}

/-- A block operation of `k` transfers that writes no other block. -/
def Moves (op : Bytes → Nat → Nat → Routine SfsFs Bytes) (k : Nat) : Prop :=
  ∀ sfs buf pos b, Fitting sfs → b ≠ 0 → b < sfs.super.blocks →
    ∃ buf' t, (t = sfs ∨ ∃ data, t = sfs.setBlock b data) ∧ Tries (op buf pos b) sfs k buf' t

theorem moves_bufOp {len off : Nat} (hoff : off < SFS_BLKSIZE) (hlen : off + len ≤ SFS_BLKSIZE) :
    Moves (fun buf pos b => sfsBufOp write buf pos len b off) (if write = true then 2 else 1) := by
  intro sfs buf pos b hfit hne hlt
  cases write with
  | true => exact ⟨_, _, Or.inr ⟨_, rfl⟩, sfsWbuf_tries hfit buf pos hne hlt hoff hlen⟩
  | false => exact ⟨_, _, Or.inl rfl, sfsRbuf_tries hfit buf pos hne hlt hoff hlen⟩

theorem moves_blockOp : Moves (fun buf pos b => sfsBlockOp write buf pos b 1) 1 := by
  intro sfs buf pos b hfit hne hlt
  have htries := sfsRwblockNolock_tries hfit buf pos hne hlt write
  refine ⟨if write = true then buf else copyBytes buf pos (sfs.dev.block b) 0 SFS_BLKSIZE, _, ?_,
    htries.finish ?_ ?_⟩
  · cases write with
    | true => exact Or.inr ⟨_, rfl⟩
    | false => exact Or.inl rfl
  · intro hrun
    cases write with
    | true => exact bind_of_ok hrun
    | false => exact bind_of_ok hrun
  · intro e t hrun
    cases write with
    | true => exact bind_of_error hrun
    | false => exact bind_of_error hrun

/-- Transfers that read or write the piece of the range in the block `j`. -/
def pieceCost (offset endpos : Nat) (write : Bool) (j : Nat) : Nat :=
  if pieceSize offset endpos j = SFS_BLKSIZE then 1 else if write = true then 2 else 1

/-- The block operation on the piece of the range in the block `j`. -/
def pieceOp (offset endpos : Nat) (write : Bool) (j : Nat) :
    Bytes → Nat → Nat → Routine SfsFs Bytes :=
  if pieceSize offset endpos j = SFS_BLKSIZE then fun buf pos b => sfsBlockOp write buf pos b 1
  else fun buf pos b =>
    sfsBufOp write buf pos (pieceSize offset endpos j) b (pieceStart offset j)

theorem ioPiece_eq (sin j : Nat) (io : Transfer) : ioPiece sin offset endpos write j io =
    ioStep sin j (pieceSize offset endpos j) (pieceOp offset endpos write j) io := by
  rcases eq_or_ne (pieceSize offset endpos j) SFS_BLKSIZE with hfull | hpart
  · rw [ioPiece, if_pos hfull, pieceOp, if_pos hfull, hfull]
  · rw [ioPiece, if_neg hpart, pieceOp, if_neg hpart]
    rfl

theorem moves_pieceOp {j : Nat} (hj : offset / SFS_BLKSIZE ≤ j) :
    Moves (pieceOp offset endpos write j) (pieceCost offset endpos write j) := by
  rcases eq_or_ne (pieceSize offset endpos j) SFS_BLKSIZE with hfull | hpart
  · rw [pieceOp, pieceCost, if_pos hfull, if_pos hfull]
    exact moves_blockOp
  · rw [pieceOp, pieceCost, if_neg hpart, if_neg hpart]
    apply moves_bufOp
    · unfold pieceStart SFS_BLKSIZE at *
      omega
    · unfold pieceStart pieceSize SFS_BLKSIZE at *
      omega

theorem held_passed {k : Nat} (h : Held ino sfs) : Held ino (passed sfs k) :=
  ⟨h.wf, h.loaded⟩

theorem passed_congr {t t' : SfsFs} {k c : Nat} (h : t.dev.faults = (passed sfs k).dev.faults)
    (h' : t'.dev.faults = t.dev.faults) :
    (passed t' c).dev.faults = (passed sfs (k + c)).dev.faults := by
  rw [← passed_passed]
  funext n
  rw [passed_faults, passed_faults, h', h]

/-- One piece of the range. -/
theorem going_piece {cost k j size c : Nat} {t t' : SfsFs} {op : Bytes → Nat → Nat → Routine SfsFs Bytes}
    (hop : Moves op c) (h : Going sfs ino cost k j t)
    (hcost : j = (sfs.inode ino).din.blocks → cost ≤ k + 4) {io io' : Transfer}
    {r : Except Errno Unit} (heq : ioStep ino j size op io t = .ok (.ok (r, io'), t')) :
    (r = .ok () ∧ io'.alen = io.alen + size ∧
        Going sfs ino cost (k + loadCost (sfs.inode ino).din j + c) (j + 1) t') ∨
      ∃ e, r = .error e ∧ io'.alen = io.alen ∧
        Broken sfs ino cost (k + loadCost (sfs.inode ino).din j + c) j t' := by
  rw [ioStep] at heq
  obtain ⟨r₀, t₀, hload, hrest⟩ := attempt_bind_eq_ok_iff.mp heq
  have hroom := (sfsBmapLoadNolock_outcome h.held hload).2.1
  rcases going_load h hcost hload with ⟨b, rfl, hreached, hgoing⟩ | ⟨e, rfl, hbroken⟩
  · obtain ⟨usage, hwf⟩ := hreached.held.wf
    have hfit : Fitting t₀ := hwf.freemap.steady.blocks_le
    obtain ⟨buf', t₁, hwritten, htries⟩ := hop t₀ io.buf io.alen b hfit hreached.ne hreached.lt
    rcases htries with ⟨hq, hrun⟩ | ⟨n, e, hn, _, hfault, hrun⟩
    · left
      have hkept : Held ino t₁ ∧ t₁.dev.block ino = t₀.dev.block ino ∧ t₁.inode = t₀.inode ∧
          t₁.dev.faults = t₀.dev.faults ∧ freeCount t₁ = freeCount t₀ := by
        rcases hwritten with rfl | ⟨data, rfl⟩
        · exact ⟨hreached.held, rfl, rfl, rfl, rfl⟩
        · exact ⟨hreached.fill data, setBlock_block_ne hreached.apart data, rfl, rfl, rfl⟩
      obtain ⟨hheld, hdisk, hinode, hfaults, hcount⟩ := hkept
      change (attempt (op io.buf io.alen b) >>= fun _ => _) t₀ = _ at hrest
      rw [attempt_bind_of_ok hrun] at hrest
      cases hrest
      refine ⟨rfl, rfl, held_passed hheld, hdisk.trans hgoing.disk, ?_⟩
      rw [passed_inode, hinode]
      rcases hgoing.inode with hdirty | hunmarked
      · exact Or.inl hdirty
      · right
        constructor
        case inode =>
          rw [passed_inode, hinode]
          exact hunmarked.inode
        case faults => exact passed_congr hunmarked.faults hfaults
        case quiet => exact quiet_of_going hunmarked hq
        case count => exact hcount ▸ hunmarked.count
        case leaks => exact hunmarked.leaks
    · right
      change (attempt (op io.buf io.alen b) >>= fun _ => _) t₀ = _ at hrest
      rw [attempt_bind_of_ok hrun] at hrest
      cases hrest
      refine ⟨e, rfl, rfl, held_passed hreached.held, hgoing.disk, ?_⟩
      rw [passed_inode]
      rcases hgoing.inode with hdirty | hunmarked
      · exact Or.inl hdirty
      · refine Or.inr ⟨_, hunmarked.inode, ?_⟩
        intro hne
        refine ⟨hunmarked.leaks (by omega), by omega, hroom, Or.inr ?_⟩
        exact not_quiet_of_going hunmarked (not_quiet hn hfault)
  · right
    cases hrest
    exact ⟨e, rfl, rfl, hbroken.mono (Nat.le_add_right _ _)⟩

/-- Transfers for the blocks of the range below `j`. -/
def transfersBelow (din : SfsDiskInode) (offset endpos : Nat) (write : Bool) (j : Nat) : Nat :=
  ∑ i ∈ Finset.Ico (offset / SFS_BLKSIZE) j, (loadCost din i + pieceCost offset endpos write i)

theorem transfersBelow_succ {din : SfsDiskInode} {j : Nat} (hj : offset / SFS_BLKSIZE ≤ j) :
    transfersBelow din offset endpos write (j + 1) = transfersBelow din offset endpos write j +
      loadCost din j + pieceCost offset endpos write j := by
  rw [transfersBelow, Finset.sum_Ico_succ_top hj, Nat.add_assoc]
  rfl

theorem transfersBelow_mono {din : SfsDiskInode} {j k : Nat} (h : j ≤ k) :
    transfersBelow din offset endpos write j ≤ transfersBelow din offset endpos write k :=
  Finset.sum_le_sum_of_subset (Finset.Ico_subset_Ico le_rfl h)

/-- Bytes of the range that lie below the block `j`. -/
def bytesBelow (offset endpos j : Nat) : Nat :=
  max offset (min endpos (j * SFS_BLKSIZE)) - offset

theorem bytesBelow_succ {j : Nat} (hj : offset / SFS_BLKSIZE ≤ j) (hlt : offset < endpos) :
    bytesBelow offset endpos (j + 1) = bytesBelow offset endpos j + pieceSize offset endpos j := by
  unfold bytesBelow pieceSize
  unfold SFS_BLKSIZE at *
  omega

theorem bytesBelow_first (offset endpos : Nat) :
    bytesBelow offset endpos (offset / SFS_BLKSIZE) = 0 := by
  have hle : min endpos (offset / SFS_BLKSIZE * SFS_BLKSIZE) ≤ offset :=
    le_trans (min_le_right _ _) (Nat.div_mul_le_self offset SFS_BLKSIZE)
  rw [bytesBelow, max_eq_left hle, Nat.sub_self]

theorem bytesBelow_last (hlt : offset < endpos) :
    bytesBelow offset endpos (blocksFor endpos) = endpos - offset := by
  have hle := le_blocksFor endpos
  rw [bytesBelow, min_eq_left hle, max_eq_right (le_of_lt hlt)]

/-- The pieces from the block `j` on. -/
theorem going_range {cost : Nat} (hlt : offset < endpos)
    (hcost : ∀ j, j = (sfs.inode ino).din.blocks →
      cost ≤ transfersBelow (sfs.inode ino).din offset endpos write j + 4) (n : Nat) :
    ∀ j t io r io' t', offset / SFS_BLKSIZE ≤ j → j + n ≤ blocksFor endpos →
      io.alen = bytesBelow offset endpos j →
      Going sfs ino cost (transfersBelow (sfs.inode ino).din offset endpos write j) j t →
      ioRange ino offset endpos write n j io t = .ok (.ok (r, io'), t') →
      (r = .ok () ∧ io'.alen = bytesBelow offset endpos (j + n) ∧
          Going sfs ino cost (transfersBelow (sfs.inode ino).din offset endpos write (j + n))
            (j + n) t') ∨
        ∃ e k, r = .error e ∧ k < j + n ∧ io'.alen = bytesBelow offset endpos k ∧
          Broken sfs ino cost (transfersBelow (sfs.inode ino).din offset endpos write (k + 1)) k t' := by
  induction n with
  | zero =>
      intro j t io r io' t' _ _ halen hgoing heq
      left
      cases heq
      exact ⟨rfl, halen, hgoing⟩
  | succ n ih =>
      intro j t io r io' t' hj hstop halen hgoing heq
      rw [ioRange, andContinue] at heq
      rcases bind_eq_ok_iff.mp heq with ⟨⟨r₀, io₀⟩, t₀, hpiece, hrest⟩ | ⟨e, _, hfail⟩
      · rw [ioPiece_eq] at hpiece
        have hbytes := @bytesBelow_succ offset endpos j hj hlt
        have htransfers := @transfersBelow_succ offset endpos write (sfs.inode ino).din j hj
        rcases going_piece (moves_pieceOp hj) hgoing (hcost j) hpiece with
          ⟨rfl, halen₀, hgoing₀⟩ | ⟨e, rfl, halen₀, hbroken⟩
        · rw [← htransfers] at hgoing₀
          have hnext := ih (j + 1) t₀ io₀ r io' t' (by omega) (by omega)
            (by rw [halen₀, halen, hbytes]) hgoing₀ hrest
          have hsum : j + 1 + n = j + (n + 1) := by omega
          rw [hsum] at hnext
          rcases hnext with hdone | ⟨e, k, hr, hk, halen', hbroken⟩
          · exact Or.inl hdone
          · exact Or.inr ⟨e, k, hr, by omega, halen', hbroken⟩
        · right
          cases hrest
          rw [← htransfers] at hbroken
          exact ⟨e, j, rfl, by omega, halen₀.trans halen, hbroken⟩
      · cases hfail

theorem ioStep_returns {sin j size : Nat} {op : Bytes → Nat → Nat → Routine SfsFs Bytes}
    {io : Transfer} {res : Except Errno (Except Errno Unit × Transfer)}
    (heq : ioStep sin j size op io sfs = .ok (res, sfs')) : ∃ r io', res = .ok (r, io') := by
  rw [ioStep] at heq
  obtain ⟨r₀, t₀, _, hrest⟩ := attempt_bind_eq_ok_iff.mp heq
  cases r₀ with
  | error e =>
      cases hrest
      exact ⟨_, _, rfl⟩
  | ok b =>
      change (attempt (op io.buf io.alen b) >>= fun _ => _) t₀ = _ at hrest
      obtain ⟨r₁, t₁, _, hlast⟩ := attempt_bind_eq_ok_iff.mp hrest
      cases r₁ with
      | error e =>
          cases hlast
          exact ⟨_, _, rfl⟩
      | ok buf =>
          cases hlast
          exact ⟨_, _, rfl⟩

/-- A transfer gives its error code as a part of what it returns. -/
theorem ioRange_returns {sin : Nat} (n : Nat) :
    ∀ j io t (res : Except Errno (Except Errno Unit × Transfer)) t',
      ioRange sin offset endpos write n j io t = .ok (res, t') → ∃ r io', res = .ok (r, io') := by
  induction n with
  | zero =>
      intro j io t res t' heq
      cases heq
      exact ⟨_, _, rfl⟩
  | succ n ih =>
      intro j io t res t' heq
      rw [ioRange, andContinue] at heq
      rcases bind_eq_ok_iff.mp heq with ⟨⟨r₀, io₀⟩, t₀, _, hrest⟩ | ⟨e, hpiece, _⟩
      · cases r₀ with
        | error e =>
            cases hrest
            exact ⟨_, _, rfl⟩
        | ok _ => exact ih (j + 1) io₀ t₀ res t' hrest
      · rw [ioPiece_eq] at hpiece
        obtain ⟨r, io', hres⟩ := ioStep_returns hpiece
        cases hres

/-- The first block of the range is not past the end of the file. -/
theorem ioRange_first (h : Held ino sfs) {n j : Nat} {io : Transfer}
    {res : Except Errno (Except Errno Unit × Transfer)}
    (heq : ioRange ino offset endpos write (n + 1) j io sfs = .ok (res, sfs')) :
    j ≤ (sfs.inode ino).din.blocks := by
  rw [ioRange, andContinue, ioPiece_eq] at heq
  have hstep : ∃ res₀ t₀, ioStep ino j (pieceSize offset endpos j)
      (pieceOp offset endpos write j) io sfs = .ok (res₀, t₀) := by
    rcases bind_eq_ok_iff.mp heq with ⟨a, t₀, hpiece, _⟩ | ⟨e, hpiece, _⟩
    · exact ⟨_, _, hpiece⟩
    · exact ⟨_, _, hpiece⟩
  obtain ⟨res₀, t₀, hpiece⟩ := hstep
  rw [ioStep] at hpiece
  obtain ⟨r, t, hload, _⟩ := attempt_bind_eq_ok_iff.mp hpiece
  exact (sfsBmapLoadNolock_outcome h hload).1

/-- The range that `sfs_io_nolock` transfers, if it does not return at once. -/
def ioExtent (din : SfsDiskInode) (offset : Int) (alen : Nat) (write : Bool) : Option (Nat × Nat) :=
  let endpos := Int.bmod (offset + alen) (2 ^ 64)
  if offset < 0 ∨ (SFS_MAX_FILE_SIZE : Int) ≤ offset ∨ endpos < offset then
    none
  else if offset = endpos then
    none
  else
    let endpos := if (SFS_MAX_FILE_SIZE : Int) < endpos then SFS_MAX_FILE_SIZE else endpos.toNat
    if write = false ∧ din.size ≤ offset.toNat then
      none
    else
      some (offset.toNat, if write = false ∧ din.size < endpos then din.size else endpos)

theorem ioExtent_lt {din : SfsDiskInode} {pos : Int} {alen : Nat}
    (h : ioExtent din pos alen write = some (offset, endpos)) : offset < endpos := by
  simp only [ioExtent] at h
  split at h
  · cases h
  next hrange =>
    split at h
    · cases h
    next hne =>
      split at h
      · cases h
      next hread =>
        simp only [not_or, not_lt] at hrange
        simp only [not_and] at hread
        simp only [Option.some.injEq, Prod.mk.injEq] at h
        obtain ⟨rfl, rfl⟩ := h
        have hclip : pos.toNat < if (SFS_MAX_FILE_SIZE : Int) < Int.bmod (pos + alen) (2 ^ 64) then
            SFS_MAX_FILE_SIZE else (Int.bmod (pos + alen) (2 ^ 64)).toNat := by
          split
          · omega
          · omega
        generalize (if (SFS_MAX_FILE_SIZE : Int) < Int.bmod (pos + alen) (2 ^ 64) then
          SFS_MAX_FILE_SIZE else (Int.bmod (pos + alen) (2 ^ 64)).toNat) = clip at hclip ⊢
        split
        next hshort => exact not_le.mp (hread hshort.1)
        next hlong => exact hclip

theorem sfsIoNolock_of_extent {buf : Bytes} {pos : Int} {alen : Nat}
    {res : Except Errno (Except Errno Unit × Transfer)}
    (heq : sfsIoNolock ino buf pos alen write sfs = .ok (res, sfs')) :
    match ioExtent (sfs.inode ino).din pos alen write with
    | none => sfs' = sfs
    | some (offset, endpos) =>
        (do
          let (r, io) ← ioPhases ino offset endpos write { buf := buf, alen := 0 }
          ioFinish ino offset io.alen
          return (r, io) : Routine SfsFs (Except Errno Unit × Transfer)) sfs = .ok (res, sfs') := by
  rw [sfsIoNolock, getState_bind] at heq
  rcases Decidable.em ((sfs.inode ino).din.type ≠ SFS_TYPE_DIR) with hfile | hdir
  · rw [ensure_bind_of hfile] at heq
    simp only [ioExtent]
    split at heq
    next hrange =>
      rw [if_pos hrange]
      cases heq
      rfl
    next hrange =>
      rw [if_neg hrange]
      split at heq
      next hempty =>
        rw [if_pos hempty]
        cases heq
        rfl
      next hempty =>
        rw [if_neg hempty]
        simp only at heq
        split at heq
        next hread =>
          rw [if_pos hread]
          cases heq
          rfl
        next hread =>
          rw [if_neg hread]
          exact heq
  · rw [ensure_bind_of_not hdir] at heq
    cases heq

/-- A range is transferred so far that a block is added to the file through the
indirect block it has, and then no further than its size. -/
structure LosesRange (ino offset endpos : Nat) (write : Bool) (sfs : SfsFs) : Prop where
  clean : (sfs.inode ino).dirty = false
  behind : offset ≤ (sfs.inode ino).din.size
  first : offset / SFS_BLKSIZE ≤ (sfs.inode ino).din.blocks
  last : (sfs.inode ino).din.blocks < blocksFor endpos
  leaks : Leaks sfs ino
    (transfersBelow (sfs.inode ino).din offset endpos write (sfs.inode ino).din.blocks + 4)
  short : endpos ≤ (sfs.inode ino).din.size ∧ blocksFor endpos ≤ maxBlocks ∨
    freeCount sfs < min ((sfs.inode ino).din.size / SFS_BLKSIZE + 1) maxBlocks -
      (sfs.inode ino).din.blocks ∨
    ¬Quiet sfs (transfersBelow (sfs.inode ino).din offset endpos write
      (min ((sfs.inode ino).din.size / SFS_BLKSIZE + 1) maxBlocks))

theorem ioFinish_marks {t t' : SfsFs} {alen : Nat} (hheld : Held ino t)
    (hdisk : t.dev.block ino = sfs.dev.block ino) {r : Except Errno Unit}
    (heq : ioFinish ino offset alen t = .ok (r, t')) :
    Held ino t' ∧ t'.dev.block ino = sfs.dev.block ino ∧
      ((t'.inode ino).dirty = true ∨ t' = t ∧ offset + alen ≤ (t.inode ino).din.size) := by
  rw [ioFinish, getState_bind] at heq
  split at heq
  next hlt =>
    cases heq
    refine ⟨hheld.setInode rfl rfl rfl, hdisk, Or.inl ?_⟩
    exact congrArg SfsInode.dirty (setInode_inode_self ino _)
  next hle =>
    cases heq
    exact ⟨hheld, hdisk, Or.inr ⟨rfl, not_lt.mp hle⟩⟩

theorem lost {m : Nat} {p : Prop} (hheld : Held ino sfs')
    (hdisk : sfs'.dev.block ino = sfs.dev.block ino)
    (hinode : sfs'.inode ino = { sfs.inode ino with
      din := { (sfs.inode ino).din with blocks := m } })
    (hp : (sfs.inode ino).dirty = false → p) : Marks ino sfs sfs' ∨ Held ino sfs' ∧ p := by
  cases hclean : (sfs.inode ino).dirty with
  | false => exact Or.inr ⟨hheld, hp hclean⟩
  | true =>
      left
      refine ⟨hheld, hdisk, Or.inr ?_⟩
      rw [hinode]
      exact hclean

theorem ioPhases_marks (h : Held ino sfs) (hlt : offset < endpos) {buf : Bytes}
    {res : Except Errno (Except Errno Unit × Transfer)}
    (heq : (do
      let (r, io) ← ioPhases ino offset endpos write { buf := buf, alen := 0 }
      ioFinish ino offset io.alen
      return (r, io) : Routine SfsFs (Except Errno Unit × Transfer)) sfs = .ok (res, sfs')) :
    Marks ino sfs sfs' ∨ Held ino sfs' ∧ LosesRange ino offset endpos write sfs := by
  have hspan : offset / SFS_BLKSIZE < blocksFor endpos := by
    unfold blocksFor SFS_BLKSIZE
    omega
  obtain ⟨n, hn⟩ : ∃ n, blocksFor endpos - offset / SFS_BLKSIZE = n + 1 :=
    Nat.exists_eq_succ_of_ne_zero (by omega)
  have hend : offset / SFS_BLKSIZE + (n + 1) = blocksFor endpos := by omega
  rw [ioPhases_eq _ hlt, hn] at heq
  have hphases : ∃ r io t, ioRange ino offset endpos write (n + 1) (offset / SFS_BLKSIZE)
      { buf := buf, alen := 0 } sfs = .ok (.ok (r, io), t) ∧
      ∃ r', ioFinish ino offset io.alen t = .ok (r', sfs') := by
    rcases bind_eq_ok_iff.mp heq with ⟨⟨r, io⟩, t, hrange, hrest⟩ | ⟨e, hrange, _⟩
    · refine ⟨r, io, t, hrange, ?_⟩
      rcases bind_eq_ok_iff.mp hrest with ⟨_, t', hfinish, hlast⟩ | ⟨e, hfinish, _⟩
      · cases hlast
        exact ⟨_, hfinish⟩
      · exact ⟨_, hfinish⟩
    · obtain ⟨r, io, hres⟩ := ioRange_returns _ _ _ _ _ _ hrange
      cases hres
  obtain ⟨r, io, t, hrange, r', hfinish⟩ := hphases
  have hfirst := ioRange_first h hrange
  have hzero := (bytesBelow_first offset endpos).symm
  have hstart : Going sfs ino
      (transfersBelow (sfs.inode ino).din offset endpos write (sfs.inode ino).din.blocks + 4)
      (transfersBelow (sfs.inode ino).din offset endpos write (offset / SFS_BLKSIZE))
      (offset / SFS_BLKSIZE) sfs := by
    rw [transfersBelow, transfersBelow, Finset.Ico_self, Finset.sum_empty]
    exact Going.refl h hfirst
  have hcost : ∀ j, j = (sfs.inode ino).din.blocks →
      transfersBelow (sfs.inode ino).din offset endpos write (sfs.inode ino).din.blocks + 4 ≤
        transfersBelow (sfs.inode ino).din offset endpos write j + 4 := by
    rintro j rfl
    exact le_rfl
  rcases going_range hlt hcost (n + 1) _ sfs _ r io t le_rfl (by omega) hzero hstart hrange with
    ⟨rfl, halen, hgoing⟩ | ⟨e, k, rfl, hk, halen, hbroken⟩
  · obtain ⟨hheld, hdisk, hdirty | ⟨rfl, hsize⟩⟩ := ioFinish_marks hgoing.held hgoing.disk hfinish
    · exact Or.inl ⟨hheld, hdisk, Or.inr hdirty⟩
    · rcases hgoing.inode with hdirty | hunmarked
      · exact Or.inl ⟨hheld, hdisk, Or.inr hdirty⟩
      · rw [hend] at hunmarked halen
        have hinode := hunmarked.inode
        rw [hinode] at hsize
        rcases Nat.lt_or_ge (sfs.inode ino).din.blocks (blocksFor endpos) with hgrown | hsame
        · have hbytes : offset + bytesBelow offset endpos (blocksFor endpos) = endpos := by
            unfold bytesBelow blocksFor SFS_BLKSIZE
            omega
          have hsize' : endpos ≤ (sfs.inode ino).din.size := by
            rw [halen, hbytes] at hsize
            exact hsize
          apply lost hheld hdisk hinode
          intro hclean
          refine ⟨hclean, by omega, hfirst, hgrown, hunmarked.leaks hgrown, Or.inl ⟨hsize', ?_⟩⟩
          obtain ⟨⟨usage, hwf⟩, hin⟩ := hheld
          have hmax := hwf.blocks_max ino (hwf.loaded ino hin)
          rw [show dinOf (calm sfs') ino = (sfs'.inode ino).din from @dinOf_loaded (calm sfs') ino hin,
            hinode] at hmax
          exact le_trans (le_max_right _ _) hmax
        · left
          refine ⟨hheld, hdisk, Or.inl ?_⟩
          rw [hinode, max_eq_left hsame]
  · obtain ⟨hheld, hdisk, hdirty | ⟨rfl, hsize⟩⟩ := ioFinish_marks hbroken.held hbroken.disk hfinish
    · exact Or.inl ⟨hheld, hdisk, Or.inr hdirty⟩
    · rcases hbroken.inode with hdirty | ⟨m, hinode, hleaks⟩
      · exact Or.inl ⟨hheld, hdisk, Or.inr hdirty⟩
      · rcases eq_or_ne m (sfs.inode ino).din.blocks with rfl | hne
        · exact Or.inl ⟨hheld, hdisk, Or.inl hinode⟩
        · obtain ⟨hleak, hle, hroom, hcause⟩ := hleaks hne
          rw [hinode, halen] at hsize
          have hsize' : offset + bytesBelow offset endpos k ≤ (sfs.inode ino).din.size := hsize
          have hk : k ≤ (sfs.inode ino).din.size / SFS_BLKSIZE := by
            unfold bytesBelow SFS_BLKSIZE at *
            unfold blocksFor SFS_BLKSIZE at hend
            omega
          have hstop : k + 1 ≤ min ((sfs.inode ino).din.size / SFS_BLKSIZE + 1) maxBlocks :=
            le_min (by omega) hroom
          apply lost hheld hdisk hinode
          intro hclean
          refine ⟨hclean, by omega, hfirst, by omega, hleak, Or.inr ?_⟩
          rcases hcause with hshort | hquiet
          · exact Or.inl (by omega)
          · exact Or.inr fun hall => hquiet (hall.mono (transfersBelow_mono hstop))

/-- An update of the inode is lost when its range is, see `LosesRange`. -/
def LosesIo (ino : Nat) (iob : Iobuf) (write : Bool) (sfs : SfsFs) : Prop :=
  ∃ offset endpos, ioExtent (sfs.inode ino).din iob.offset iob.resid write = some (offset, endpos) ∧
    LosesRange ino offset endpos write sfs

theorem iobufSkip_same {iob : Iobuf} {n : Nat} {res : Except Errno Iobuf}
    (heq : iobufSkip iob n sfs = .ok (res, sfs')) : sfs' = sfs := by
  have hpreserves : Preserves (fun t => t = sfs) (iobufSkip iob n) := by
    apply Preserves.ensure_bind
    exact Preserves.pure _
  exact hpreserves sfs res sfs' rfl heq

theorem sfsIo_marks (h : Held ino sfs) {iob : Iobuf} {res : Except Errno (Except Errno Unit × Iobuf)}
    (heq : sfsIo ino iob write sfs = .ok (res, sfs')) :
    Marks ino sfs sfs' ∨ Held ino sfs' ∧ LosesIo ino iob write sfs := by
  have hnolock : ∃ res₀, sfsIoNolock ino (fun k => iob.buf (iobufUsed iob + k)) iob.offset iob.resid
      write sfs = .ok (res₀, sfs') := by
    rw [sfsIo] at heq
    rcases bind_eq_ok_iff.mp heq with ⟨⟨r, io⟩, t, hrun, hrest⟩ | ⟨e, hrun, _⟩
    · have hsame : sfs' = t := by
        simp only at hrest
        split at hrest
        · rcases bind_eq_ok_iff.mp hrest with ⟨iob', u, hskip, hlast⟩ | ⟨e, hskip, _⟩
          · cases hlast
            exact iobufSkip_same hskip
          · exact iobufSkip_same hskip
        · cases hrest
          rfl
      rw [hsame]
      exact ⟨_, hrun⟩
    · exact ⟨_, hrun⟩
  obtain ⟨res₀, hrun⟩ := hnolock
  have hextent := sfsIoNolock_of_extent hrun
  cases hcase : ioExtent (sfs.inode ino).din iob.offset iob.resid write with
  | none =>
      rw [hcase] at hextent
      left
      rw [show sfs' = sfs from hextent]
      exact Marks.refl h
  | some range =>
      obtain ⟨offset, endpos⟩ := range
      rw [hcase] at hextent
      rcases ioPhases_marks h (ioExtent_lt hcase) hextent with hmarks | ⟨hheld, hloses⟩
      · exact Or.inl hmarks
      · exact Or.inr ⟨hheld, offset, endpos, hcase, hloses⟩

end Io

section Resize

/-- A file is enlarged through the indirect block it has, but not to the end. -/
structure LosesTrunc (ino : Nat) (len : Int) (sfs : SfsFs) : Prop where
  range : 0 ≤ len ∧ len ≤ (SFS_MAX_FILE_SIZE : Int)
  size : (sfs.inode ino).din.size ≠ len.toNat
  clean : (sfs.inode ino).dirty = false
  last : (sfs.inode ino).din.blocks < blocksFor len.toNat
  leaks : Leaks sfs ino 4
  short : freeCount sfs < min (blocksFor len.toNat) maxBlocks - (sfs.inode ino).din.blocks ∨
    ¬Quiet sfs (4 * (min (blocksFor len.toNat) maxBlocks - (sfs.inode ino).din.blocks))

theorem going_truncGrow (n : Nat) : ∀ j t (r : Except Errno Unit) t',
    (sfs.inode ino).din.blocks ≤ j →
    Going sfs ino 4 (4 * (j - (sfs.inode ino).din.blocks)) j t →
    truncGrow ino n j t = .ok (r, t') →
    (r = .ok () ∧ Held ino t' ∧ t'.dev.block ino = sfs.dev.block ino) ∨
      ∃ e k, r = .error e ∧ k < j + n ∧
        Broken sfs ino 4 (4 * (k + 1 - (sfs.inode ino).din.blocks)) k t' := by
  induction n with
  | zero =>
      intro j t r t' _ hgoing heq
      cases heq
      exact Or.inl ⟨rfl, hgoing.held, hgoing.disk⟩
  | succ n ih =>
      intro j t r t' hj hgoing heq
      have hcost : 4 * (j - (sfs.inode ino).din.blocks) + loadCost (sfs.inode ino).din j =
          4 * (j + 1 - (sfs.inode ino).din.blocks) := by
        rw [loadCost, if_neg (not_lt.mpr hj)]
        omega
      rw [truncGrow] at heq
      rcases bind_eq_ok_iff.mp heq with ⟨b, t₀, hload, hrest⟩ | ⟨e, hload, rfl⟩
      · rcases going_load hgoing (by omega) hload with ⟨b', hb, _, hgoing₀⟩ | ⟨e, he, _⟩
        · rw [hcost] at hgoing₀
          rcases ih (j + 1) t₀ r t' (by omega) hgoing₀ hrest with hdone | ⟨e, k, hr, hk, hbroken⟩
          · exact Or.inl hdone
          · exact Or.inr ⟨e, k, hr, by omega, hbroken⟩
        · cases he
      · rcases going_load hgoing (by omega) hload with ⟨b', hb, _, _⟩ | ⟨e', _, hbroken⟩
        · cases hb
        · rw [hcost] at hbroken
          exact Or.inr ⟨e, j, rfl, by omega, hbroken⟩

theorem truncShrink_marks (n : Nat) : ∀ t (r : Except Errno Unit) t', Held ino t →
    truncShrink ino n t = .ok (r, t') → Marks ino t t' := by
  induction n with
  | zero =>
      intro t r t' hheld heq
      cases heq
      exact Marks.refl hheld
  | succ n ih =>
      intro t r t' hheld heq
      rw [truncShrink] at heq
      rcases bind_eq_ok_iff.mp heq with ⟨_, t₀, hcut, hrest⟩ | ⟨e, hcut, _⟩
      · have hstep := sfsBmapTruncateNolock_marks hheld hcut
        exact hstep.trans (ih t₀ r t' hstep.held hrest)
      · exact sfsBmapTruncateNolock_marks hheld hcut

theorem sfsTruncfile_marks (h : Held ino sfs) {len : Int} {r : Except Errno Unit}
    (heq : sfsTruncfile ino len sfs = .ok (r, sfs')) :
    Marks ino sfs sfs' ∨ Held ino sfs' ∧ LosesTrunc ino len sfs := by
  rw [sfsTruncfile] at heq
  split at heq
  · cases heq
    exact Or.inl (Marks.refl h)
  next hrange =>
    rw [getState_bind] at heq
    split at heq
    · left
      rw [ensure_same heq]
      exact Marks.refl h
    next hsize =>
      have hfinish : ∀ {t : SfsFs}, Held ino t → t.dev.block ino = sfs.dev.block ino →
          (do
            let s ← getState
            ensure ((s.inode ino).din.blocks = (len.toNat + SFS_BLKSIZE - 1) / SFS_BLKSIZE)
            modifyInode ino fun si => { din := { si.din with size := len.toNat }, dirty := true } :
            Routine SfsFs Unit) t = .ok (r, sfs') → Marks ino sfs sfs' := by
        intro t hheld hdisk hlast
        rw [getState_bind] at hlast
        rcases Decidable.em ((t.inode ino).din.blocks =
          (len.toNat + SFS_BLKSIZE - 1) / SFS_BLKSIZE) with hblocks | hbad
        · rw [ensure_bind_of hblocks] at hlast
          cases hlast
          refine ⟨hheld.setInode rfl rfl rfl, hdisk, Or.inr ?_⟩
          exact congrArg SfsInode.dirty (setInode_inode_self ino _)
        · rw [ensure_bind_of_not hbad] at hlast
          cases hlast
      rcases Nat.lt_or_ge (sfs.inode ino).din.blocks (blocksFor len.toNat) with hgrow | hshrink
      · have hstart : Going sfs ino 4 0 (sfs.inode ino).din.blocks sfs := Going.refl h le_rfl
        have hresize : truncResize ino ((len.toNat + SFS_BLKSIZE - 1) / SFS_BLKSIZE) sfs =
            truncGrow ino (blocksFor len.toNat - (sfs.inode ino).din.blocks)
              (sfs.inode ino).din.blocks sfs := by
          rw [truncResize, getState_bind]
          exact congrFun (if_pos hgrow) sfs
        have hgoing := fun r t => going_truncGrow (blocksFor len.toNat - (sfs.inode ino).din.blocks)
          (sfs.inode ino).din.blocks sfs r t le_rfl (by rwa [Nat.sub_self])
        rcases bind_eq_ok_iff.mp heq with ⟨_, t, hgrown, hrest⟩ | ⟨e, hgrown, rfl⟩
        · rw [hresize] at hgrown
          rcases hgoing _ _ hgrown with ⟨_, hheld, hdisk⟩ | ⟨e, k, hr, _, _⟩
          · exact Or.inl (hfinish hheld hdisk hrest)
          · cases hr
        · rw [hresize] at hgrown
          rcases hgoing _ _ hgrown with ⟨hr, _, _⟩ | ⟨e, k, _, hk, hbroken⟩
          · cases hr
          · rcases hbroken.inode with hdirty | ⟨m, hinode, hleaks⟩
            · exact Or.inl ⟨hbroken.held, hbroken.disk, Or.inr hdirty⟩
            · rcases eq_or_ne m (sfs.inode ino).din.blocks with rfl | hne
              · exact Or.inl ⟨hbroken.held, hbroken.disk, Or.inl hinode⟩
              · obtain ⟨hleak, hle, hroom, hcause⟩ := hleaks hne
                have hstop : k + 1 ≤ min (blocksFor len.toNat) maxBlocks :=
                  le_min (by omega) hroom
                apply lost hbroken.held hbroken.disk hinode
                intro hclean
                refine ⟨by omega, hsize, hclean, hgrow, hleak, ?_⟩
                rcases hcause with hshort | hquiet
                · exact Or.inl (by omega)
                · exact Or.inr fun hall => hquiet (hall.mono (by omega))
      · left
        have hresize : truncResize ino ((len.toNat + SFS_BLKSIZE - 1) / SFS_BLKSIZE) sfs =
            truncShrink ino ((sfs.inode ino).din.blocks - blocksFor len.toNat) sfs := by
          rw [truncResize, getState_bind]
          exact congrFun (if_neg (not_lt.mpr hshrink)) sfs
        rcases bind_eq_ok_iff.mp heq with ⟨_, t, hcut, hrest⟩ | ⟨e, hcut, _⟩
        · rw [hresize] at hcut
          have hmarks := truncShrink_marks _ _ _ _ h hcut
          have hlast := hfinish hmarks.held hmarks.disk hrest
          exact hlast
        · rw [hresize] at hcut
          exact truncShrink_marks _ _ _ _ h hcut

end Resize

section Fsync

/-- `sfs_fsync` leaves the inode as it was, on disk or marked. -/
theorem sfsFsync_coherent (h : Held ino sfs) (hmounted : Mounted sfs) (hc : Coherent ino sfs)
    {r : Except Errno Unit} (heq : sfsFsync ino sfs = .ok (r, sfs')) :
    Held ino sfs' ∧ Coherent ino sfs' ∧
      (r = .ok () → loadDiskInode (sfs'.dev.block ino) = (sfs.inode ino).din) := by
  obtain ⟨⟨usage, hwf⟩, hin⟩ := h
  have hfits : Fits (sfs.inode ino).din := @fits_of_wellFormed (calm sfs) usage hwf
    ⟨hmounted.magic, hmounted.info, hmounted.pos, hmounted.nbits, hmounted.nwords, hmounted.inodes⟩
    ino hin
  rw [sfsFsync, getState_bind] at heq
  rcases Bool.eq_false_or_eq_true (sfs.inode ino).dirty with hdirty | hclean
  · rw [if_pos hdirty, modifyInode, modifyState_bind] at heq
    have hheld : Held ino (sfs.setInode ino { sfs.inode ino with dirty := false }) :=
      Held.setInode ⟨⟨usage, hwf⟩, hin⟩ rfl rfl rfl
    obtain ⟨⟨usage', hwf'⟩, hin'⟩ := hheld
    obtain ⟨hne, huse⟩ := inUse_inode hwf' (hwf'.loaded ino hin')
    have hfit : Fitting (sfs.setInode ino { sfs.inode ino with dirty := false }) :=
      hwf'.freemap.steady.blocks_le
    rcases @sfsWbuf_tries _ ino diskInodeSize 0 hfit (diskInodeBytes (sfs.inode ino).din) 0 hne
      huse.1 (by decide) (by decide) with ⟨_, hrun⟩ | ⟨n, e, _, _, _, hrun⟩
    · rw [attempt_bind_of_ok hrun] at heq
      cases heq
      have hdisk : loadDiskInode (((sfs.setInode ino { sfs.inode ino with dirty := false }).setBlock
          ino (copyBytes (sfs.dev.block ino) 0 (diskInodeBytes (sfs.inode ino).din) 0
            diskInodeSize)).dev.block ino) = (sfs.inode ino).din := by
        rw [setBlock_block_self]
        exact loadDiskInode_written hfits _
      refine ⟨⟨⟨usage', wellFormed_setBlock hwf' (plain_of_loaded hwf' hin') _⟩, hin'⟩, ?_, ?_⟩
      · intro hne
        rw [passed_inode, setBlock_inode, setInode_inode_self] at hne
        exact absurd hdisk.symm hne
      · intro _
        exact hdisk
    · rw [attempt_bind_of_ok hrun] at heq
      cases heq
      refine ⟨(held_passed ⟨⟨usage', hwf'⟩, hin'⟩).setInode rfl rfl rfl, ?_, ?_⟩
      · intro _
        exact congrArg SfsInode.dirty (setInode_inode_self ino _)
      · intro hr
        cases hr
  · rw [if_neg (by simp [hclean])] at heq
    cases heq
    refine ⟨⟨⟨usage, hwf⟩, hin⟩, hc, ?_⟩
    intro _
    by_contra hne
    rw [hc fun heq => hne heq.symm] at hclean
    cases hclean

end Fsync

section Runs

/-- `sfs_io`, `sfs_truncfile` or `sfs_fsync` of the inode `ino`. -/
inductive InodeOp where
  | io (iob : Iobuf) (write : Bool)
  | truncfile (len : Int)
  | fsync

def InodeOp.on (ino : Nat) : InodeOp → FileOp
  | .io iob write => .io ino iob write
  | .truncfile len => .truncfile ino len
  | .fsync => .fsync ino

/-- Operations one after another, whatever each returns. -/
inductive InodeRun (ino : Nat) (allowed : InodeOp → SfsFs → Prop) : SfsFs → SfsFs → Prop
  | refl (sfs : SfsFs) : InodeRun ino allowed sfs sfs
  | step {sfs sfs' sfs'' : SfsFs} {op : InodeOp} {r : Except Errno Unit} :
      InodeRun ino allowed sfs sfs' → allowed op sfs' →
        (op.on ino).routine sfs' = .ok (r, sfs'') → InodeRun ino allowed sfs sfs''

/-- The operation grows the file through the indirect block it has without
marking the inode, and does not get past the size of the file. -/
def LosesUpdate (ino : Nat) : InodeOp → SfsFs → Prop
  | .io iob write, sfs => LosesIo ino iob write sfs
  | .truncfile len, sfs => LosesTrunc ino len sfs
  | .fsync, _ => False

theorem coherent_of_step {op : InodeOp} {r : Except Errno Unit} (h : Held ino sfs)
    (hmounted : Mounted sfs) (hc : Coherent ino sfs) (hkeeps : ¬LosesUpdate ino op sfs)
    (heq : (op.on ino).routine sfs = .ok (r, sfs')) : Held ino sfs' ∧ Coherent ino sfs' := by
  cases op with
  | io iob write =>
      have hio : ∃ res, sfsIo ino iob write sfs = .ok (res, sfs') := by
        rcases bind_eq_ok_iff.mp heq with ⟨a, t, hrun, hrest⟩ | ⟨e, hrun, _⟩
        · cases hrest
          exact ⟨_, hrun⟩
        · exact ⟨_, hrun⟩
      obtain ⟨res, hrun⟩ := hio
      rcases sfsIo_marks h hrun with hmarks | ⟨_, hloses⟩
      · exact ⟨hmarks.held, hmarks.coherent hc⟩
      · exact absurd hloses hkeeps
  | truncfile len =>
      rcases sfsTruncfile_marks h heq with hmarks | ⟨_, hloses⟩
      · exact ⟨hmarks.held, hmarks.coherent hc⟩
      · exact absurd hloses hkeeps
  | fsync =>
      obtain ⟨hheld, hcoherent, _⟩ := sfsFsync_coherent h hmounted hc heq
      exact ⟨hheld, hcoherent⟩

/-- In a run without an operation that loses an update, the inode is marked
whenever it differs from its block, so that `sfs_fsync` writes it back. -/
theorem coherent_of_run (h : Held ino sfs) (hmounted : Mounted sfs) (hc : Coherent ino sfs)
    (hrun : InodeRun ino (fun op t => ¬LosesUpdate ino op t) sfs sfs') :
    Coherent ino sfs' ∧ ∀ sfs'', sfsFsync ino sfs' = .ok (.ok (), sfs'') →
      loadDiskInode (sfs''.dev.block ino) = (sfs'.inode ino).din := by
  have hall : Held ino sfs' ∧ Mounted sfs' ∧ Coherent ino sfs' := by
    induction hrun with
    | refl => exact ⟨h, hmounted, hc⟩
    | step _ hkeeps heq ih =>
        obtain ⟨hheld, hmounted', hcoherent⟩ := ih
        obtain ⟨hheld', hcoherent'⟩ := coherent_of_step hheld hmounted' hcoherent hkeeps heq
        exact ⟨hheld', mounted_routine _ _ _ _ hmounted' heq, hcoherent'⟩
  obtain ⟨hheld, hmounted', hcoherent⟩ := hall
  refine ⟨hcoherent, ?_⟩
  intro sfs'' heq
  exact (sfsFsync_coherent hheld hmounted' hcoherent heq).2.2 rfl

end Runs

section Failing

/-- A file of twelve blocks that has an empty indirect block. -/
def grownFile : SfsDiskInode where
  size := 49152
  type := SFS_TYPE_FILE
  nlinks := 1
  blocks := 12
  direct := fun i => if i < 12 then 4 + i else 0
  indirect := 16

/-- Twenty blocks: the superblock, an empty root, the freemap, the inode 3 with
its blocks, and three free blocks. -/
def grownFs : SfsFs where
  super := { magic := SFS_MAGIC, blocks := 20, unusedBlocks := 3, info := fun _ => 0 }
  dev :=
    { dBlocks := 20
      dBlocks_le := by decide
      block := fun n =>
        if n = SFS_BLKN_ROOT then diskInodeBytes tinyRoot
        else if n = 3 then diskInodeBytes grownFile
        else zeros
      faults := fun _ => none }
  freemap := { nbits := 32768, nwords := 1024, map := fun w => if w = 0 then 0xE0000#32 else 0#32 }
  superDirty := false
  inode := fun _ => { din := grownFile, dirty := false }
  inodeList := [3]

def grownUsage : Usage :=
  imageUsage grownFs.super fun f => f = SFS_BLKN_ROOT ∨ f = 3

theorem bit_grownFs (b : Nat) : grownFs.freemap.bit b = true ↔ 17 ≤ b ∧ b < 20 := by
  rcases Nat.lt_or_ge b 32 with hlt | hge
  · have hall : ∀ b, b < 32 → (grownFs.freemap.bit b = true ↔ 17 ≤ b ∧ b < 20) := by
      decide
    exact hall b hlt
  · have hword : b / WORD_BITS ≠ 0 := by
      unfold WORD_BITS
      omega
    have hbit : grownFs.freemap.bit b = false := by
      rw [Bitmap.bit]
      show (if b / WORD_BITS = 0 then 0xE0000#32 else 0#32).getLsbD _ = false
      rw [if_neg hword]
      exact BitVec.getLsbD_zero
    rw [hbit]
    simp only [Bool.false_eq_true, false_iff]
    omega

theorem freeCount_grownFs : freeCount grownFs = 3 := by
  rw [freeCount, Nat.count_eq_card_filter_range]
  have hfree : (Finset.range grownFs.freemap.nbits).filter
      (fun b => grownFs.freemap.bit b = true) = {17, 18, 19} := by
    ext b
    rw [Finset.mem_filter, Finset.mem_range, bit_grownFs]
    simp only [Finset.mem_insert, Finset.mem_singleton]
    show b < 32768 ∧ _ ↔ _
    omega
  rw [hfree]
  rfl

theorem dinOf_grownFs_root : dinOf grownFs SFS_BLKN_ROOT = tinyRoot := by
  have hout : SFS_BLKN_ROOT ∉ grownFs.inodeList := by decide
  rw [dinOf, if_neg hout]
  exact loadDiskInode_diskInodeBytes (by decide) (by decide) (by decide) (by decide)
    (fun _ _ => Nat.two_pow_pos 32) (fun _ _ => rfl) (by decide)

theorem loadDiskInode_grownFile : loadDiskInode (diskInodeBytes grownFile) = grownFile := by
  apply loadDiskInode_diskInodeBytes (by decide) (by decide) (by decide) (by decide)
  · intro i hi
    show (if i < 12 then 4 + i else 0) < _
    split
    · omega
    · exact Nat.two_pow_pos 32
  · intro i hi
    have hge : ¬i < 12 := not_lt.mpr hi
    exact if_neg hge
  · decide

theorem dinOf_grownFs : dinOf grownFs 3 = grownFile :=
  dinOf_loaded (by decide)

theorem fileBlock_grownFs (i : Nat) : fileBlock grownFs 3 i = if i < 12 then 4 + i else 0 := by
  rw [fileBlock, dinOf_grownFs]
  rcases lt_or_ge i SFS_NDIRECT with hnear | hfar
  · exact blockAt_near hnear _ _
  · have hge : ¬i < 12 := not_lt.mpr hfar
    rw [blockAt_far hfar, if_neg hge, if_neg (by decide)]
    exact getWord_zeros _

theorem reserved_grownUsage (k : Nat) : grownUsage.reserved k ↔ k = 0 ∨ k = 2 := by
  show k = 0 ∨ 2 ≤ k ∧ k < 3 ↔ _
  omega

theorem holds_grownFs (o : Owner) (b : Nat) : Holds grownFs grownUsage o b ↔
    o = .reserved b ∧ (b = 0 ∨ b = 2) ∨ o = .inode b ∧ (b = 1 ∨ b = 3) ∨
      o = .indirect 3 ∧ b = 16 ∨ o = .data 3 (b - 4) ∧ 4 ≤ b ∧ b < 16 := by
  cases o with
  | reserved k =>
      simp only [Holds, reserved_grownUsage, Owner.reserved.injEq, reduceCtorEq, false_and, or_false]
      omega
  | inode f =>
      show (f = 1 ∨ f = 3) ∧ b = f ↔ _
      simp only [Owner.inode.injEq, reduceCtorEq, false_and, or_false, false_or]
      omega
  | indirect f =>
      simp only [Holds, Owner.indirect.injEq, reduceCtorEq, false_and, or_false, false_or]
      constructor
      · rintro ⟨rfl | rfl, hne, heq⟩
        · rw [dinOf_grownFs_root] at hne
          exact absurd rfl hne
        · rw [dinOf_grownFs] at heq
          exact ⟨rfl, heq⟩
      · rintro ⟨rfl, rfl⟩
        rw [dinOf_grownFs]
        exact ⟨Or.inr rfl, by decide, rfl⟩
  | data f i =>
      simp only [Holds, Owner.data.injEq, reduceCtorEq, false_and, false_or]
      constructor
      · rintro ⟨rfl | rfl, hi, heq⟩
        · rw [dinOf_grownFs_root] at hi
          exact absurd hi (Nat.not_lt_zero i)
        · rw [dinOf_grownFs] at hi
          have hi' : i < 12 := hi
          rw [fileBlock_grownFs, if_pos hi'] at heq
          omega
      · rintro ⟨⟨rfl, rfl⟩, hle, hlt⟩
        have hi : b - 4 < 12 := by omega
        rw [dinOf_grownFs, fileBlock_grownFs, if_pos hi]
        exact ⟨Or.inr rfl, hi, by omega⟩

theorem inUse_grownFs (b : Nat) : InUse grownFs b ↔ b < 17 := by
  have hbit := bit_grownFs b
  show b < 20 ∧ _ ↔ _
  rw [← Bool.not_eq_true, hbit]
  omega

theorem wellFormed_grownFs : WellFormed grownFs grownUsage where
  freemap :=
    { steady := ⟨fun _ => rfl, le_rfl⟩
      nbits := by decide
      blocks_le := by decide
      free_lt := by
        intro b _ hfree
        exact ((bit_grownFs b).mp hfree).2
      super_used := ((inUse_grownFs SFS_BLKN_SUPER).mpr (by decide)).2
      unused := freeCount_grownFs.symm }
  owns := by
    constructor
    · intro o o' k ho ho'
      rw [holds_grownFs] at ho ho'
      rcases ho with ⟨rfl, hk⟩ | ⟨rfl, hk⟩ | ⟨rfl, hk⟩ | ⟨rfl, hk⟩ <;>
        rcases ho' with ⟨rfl, hk'⟩ | ⟨rfl, hk'⟩ | ⟨rfl, hk'⟩ | ⟨rfl, hk'⟩ <;> first | rfl | omega
    · intro o k ho
      rw [holds_grownFs] at ho
      exact (inUse_grownFs k).mpr (by omega)
    · intro k hk
      have hlt := (inUse_grownFs k).mp hk
      have hcases : (k = 0 ∨ k = 2) ∨ (k = 1 ∨ k = 3) ∨ k = 16 ∨ 4 ≤ k ∧ k < 16 := by omega
      rcases hcases with hmeta | hinode | hindirect | hdata
      · exact ⟨.reserved k, (holds_grownFs _ k).mpr (Or.inl ⟨rfl, hmeta⟩)⟩
      · exact ⟨.inode k, (holds_grownFs _ k).mpr (Or.inr (Or.inl ⟨rfl, hinode⟩))⟩
      · exact ⟨.indirect 3, (holds_grownFs _ k).mpr (Or.inr (Or.inr (Or.inl ⟨rfl, hindirect⟩)))⟩
      · exact ⟨.data 3 (k - 4), (holds_grownFs _ k).mpr (Or.inr (Or.inr (Or.inr ⟨rfl, hdata⟩)))⟩
  super_reserved := Or.inl rfl
  blocks_max := by
    rintro f (rfl | rfl)
    · rw [dinOf_grownFs_root]
      decide
    · rw [dinOf_grownFs]
      decide
  mapped := by
    rintro f i (rfl | rfl) _
    · have hzero : fileBlock grownFs SFS_BLKN_ROOT i = 0 := by
        rw [fileBlock, dinOf_grownFs_root, blockAt]
        split
        · rfl
        · rfl
      rw [hzero, dinOf_grownFs_root]
      show (0 : Nat) ≠ 0 ↔ i < 0
      simp
    · rw [fileBlock_grownFs, dinOf_grownFs]
      show _ ↔ i < 12
      split
      · next hlt => simp [hlt]
      · next hge => simp [hge]
  loaded := by
    intro f hf
    exact Or.inr (List.mem_singleton.mp hf)

theorem held_grownFs : Held 3 grownFs :=
  ⟨⟨grownUsage, wellFormed_grownFs⟩, by decide⟩

theorem mounted_grownFs : Mounted grownFs where
  magic := rfl
  info := rfl
  pos := by decide
  nbits := by decide
  nwords := by decide
  inodes _ := by
    show InodeFits grownFile
    refine ⟨by decide, by decide, by decide, ?_⟩
    intro i hi
    have hge : ¬i < 12 := not_lt.mpr hi
    exact if_neg hge

theorem coherent_grownFs : Coherent 3 grownFs := by
  intro hne
  exact absurd loadDiskInode_grownFile.symm hne

/-- The inode 3 has 15 blocks in memory and 12 on disk, and is not marked. -/
def showsLoss : Ucore.Panic.Kernel (Except Errno Unit × SfsFs) → Bool
  | .ok (_, sfs) => !(sfs.inode 3).dirty && (sfs.inode 3).din.blocks == 15 &&
      (loadDiskInode (sfs.dev.block 3)).blocks == 12
  | .error _ => false

/-- The file is enlarged to 16 blocks, and there are only three free ones. -/
theorem truncfile_loses_update : Held 3 grownFs ∧ Mounted grownFs ∧ Coherent 3 grownFs ∧
    ∃ sfs, InodeRun 3 (fun _ _ => True) grownFs sfs ∧ ¬Coherent 3 sfs := by
  refine ⟨held_grownFs, mounted_grownFs, coherent_grownFs, ?_⟩
  have hloss : showsLoss (((InodeOp.truncfile 65536).on 3).routine grownFs) = true := by
    decide +kernel
  cases hrun : ((InodeOp.truncfile 65536).on 3).routine grownFs with
  | error a =>
      rw [hrun] at hloss
      cases hloss
  | ok p =>
      obtain ⟨r, sfs⟩ := p
      rw [hrun] at hloss
      simp only [showsLoss, Bool.and_eq_true, Bool.not_eq_true', beq_iff_eq] at hloss
      obtain ⟨⟨hclean, hblocks⟩, hdisk⟩ := hloss
      refine ⟨sfs, .step (.refl grownFs) trivial hrun, ?_⟩
      intro hcoherent
      rw [hcoherent] at hclean
      · cases hclean
      · intro heq
        rw [heq, hdisk] at hblocks
        cases hblocks

/-- The inode 3 has 6 blocks in memory. -/
def showsCut : Ucore.Panic.Kernel (Except Errno Unit × SfsFs) → Bool
  | .ok (_, sfs) => (sfs.inode 3).din.blocks == 6
  | .error _ => false

/-- The file is cut to six blocks. -/
theorem coherent_of_run_grownFs : ∃ sfs, (sfs.inode 3).din.blocks = 6 ∧ Coherent 3 sfs ∧
    ∀ sfs'', sfsFsync 3 sfs = .ok (.ok (), sfs'') →
      loadDiskInode (sfs''.dev.block 3) = (sfs.inode 3).din := by
  have hcut : showsCut (((InodeOp.truncfile 24576).on 3).routine grownFs) = true := by
    decide +kernel
  have hkeeps : ¬LosesUpdate 3 (.truncfile 24576) grownFs := by
    intro hloses
    exact absurd hloses.last (by decide)
  cases hrun : ((InodeOp.truncfile 24576).on 3).routine grownFs with
  | error a =>
      rw [hrun] at hcut
      cases hcut
  | ok p =>
      obtain ⟨r, sfs⟩ := p
      rw [hrun] at hcut
      exact ⟨sfs, beq_iff_eq.mp hcut, coherent_of_run held_grownFs mounted_grownFs coherent_grownFs
        (.step (.refl grownFs) hkeeps hrun)⟩

end Failing

end Ucore.SfsDirtyInode
