import Ucore.LockedCalls
import Ucore.SfsPrograms

/-! Writing and truncating one file at the same time. -/

namespace Ucore.SfsConcurrentIo

open Relation
open Ucore.Errors
open Ucore.Panic
open Ucore.KernelRoutine
open Ucore.Programs
open Ucore.LockedCalls
open Ucore.ByteBuffer
open Ucore.SfsDisk
open Ucore.SfsBlockMap
open Ucore.SfsOwnership
open Ucore.SfsFileViews
open Ucore.SfsBlockMapGrow
open Ucore.SfsBlockMapShrink
open Ucore.SfsIo
open Ucore.SfsIoRange
open Ucore.SfsIoRefinement
open Ucore.SfsRuns
open Ucore.SfsFaults
open Ucore.SfsDirtyInode
open Ucore.SfsPrograms

variable {usage : Usage} {n : Nat} {s t u : SfsFs}

/-- What the holder of the lock keeps until its end. -/
structure Within (usage : Usage) (n : Nat) (s t : SfsFs) : Prop where
  opened : Opened usage n t
  type : (t.inode n).din.type = (s.inode n).din.type
  size : (t.inode n).din.size = (s.inode n).din.size
  dirty : (s.inode n).dirty = true → (t.inode n).dirty = true

theorem Within.refl (h : Opened usage n s) : Within usage n s s :=
  ⟨h, rfl, rfl, id⟩

theorem Within.trans (h : Within usage n s t) (h' : Within usage n t u) : Within usage n s u :=
  ⟨h'.opened, h'.type.trans h.type, h'.size.trans h.size, fun hd => h'.dirty (h.dirty hd)⟩

/-- The free blocks do not suffice to make the file as long as its block map allows. -/
def Crowded (sfs : SfsFs) (n : Nat) : Prop :=
  freeCount sfs < blocksNeeded (dinOf sfs n) maxBlocks

theorem calm_of_steady (h : Steady s) : calm s = s := by
  have hfaults : (fun _ => none) = s.dev.faults := funext fun k => (h.faults k).symm
  rw [calm, hfaults]

theorem held_of_opened (h : Opened usage n s) : Held n s := by
  refine ⟨⟨usage, ?_⟩, h.2⟩
  rw [calm_of_steady h.1.freemap.steady]
  exact h.1

/-- A file that is as long as its block map allows needs no more blocks. -/
theorem not_crowded_of_full (h : Opened usage n s) (hfull : (dinOf s n).blocks = maxBlocks) :
    ¬Crowded s n := by
  have hfile := h.1.loaded n h.2
  have hfar : SFS_NDIRECT < (dinOf s n).blocks := by
    rw [hfull]
    decide
  have hsome := indirect_ne_zero h.1 hfile hfar
  unfold Crowded blocksNeeded
  rw [hfull, if_neg (fun hboth => hsome hboth.1)]
  omega

section Sections

/-- `sfs_bmap_load_nolock` by the holder of the lock. -/
theorem load_within {i last : Nat} (h : Opened usage n s) (hi : i ≤ (dinOf s n).blocks)
    (hlast : i < last) (hroom : last ≤ maxBlocks ∨ Crowded s n) :
    (∃ b t, sfsBmapLoadNolock n i s = .ok (.ok b, t) ∧ Within usage n s t ∧
        fileBlock t n i = b ∧ (dinOf t n).blocks = max (dinOf s n).blocks (i + 1) ∧
        (last ≤ maxBlocks ∨ Crowded t n)) ∨
      ∃ e t, sfsBmapLoadNolock n i s = .ok (.error e, t) ∧ Within usage n s t := by
  have hheld := held_of_opened h
  obtain ⟨hwf, hin⟩ := h
  have hfile := hwf.loaded n hin
  have hdin : dinOf s n = (s.inode n).din := dinOf_loaded hin
  have hle := hwf.blocks_max n hfile
  have hmax : i < maxBlocks := by
    rcases hroom with hshort | hcrowded
    · exact lt_of_lt_of_le hlast hshort
    · by_contra hfull
      exact not_crowded_of_full ⟨hwf, hin⟩ (by omega) hcrowded
  rcases sfsBmapLoadNolock_spec hwf hin hi hmax with
    ⟨b, t, hrun, hlocated⟩ | ⟨t, hrun, huntouched, _, _⟩
  · left
    have hin' : n ∈ t.inodeList := by rwa [hlocated.loaded]
    have hdin' : dinOf t n = (t.inode n).din := dinOf_loaded hin'
    have hcount := hlocated.count maxBlocks (hlocated.wf.blocks_max n hfile)
    refine ⟨b, t, hrun, ⟨⟨hlocated.wf, hin'⟩, ?_, ?_, ?_⟩, hlocated.here,
      hlocated.blocks, ?_⟩
    · rw [← hdin', hlocated.type, hdin]
    · rw [← hdin', hlocated.size, hdin]
    · intro hdirty
      obtain ⟨_, _, ⟨b', _, _, hnew⟩ | ⟨e, he, _⟩⟩ := sfsBmapLoadNolock_outcome hheld hrun
      · rcases hnew with ⟨_, _, hsame⟩ | ⟨_, hmark | ⟨hsame, _⟩⟩
        · rw [hsame]
          exact hdirty
        · exact hmark
        · rw [hsame.inode]
          exact hdirty
      · cases he
    · rcases hroom with hshort | hcrowded
      · exact Or.inl hshort
      · right
        unfold Crowded at *
        omega
  · right
    have hin' : n ∈ t.inodeList := by rwa [huntouched.loaded]
    have hdin' : dinOf t n = (t.inode n).din := dinOf_loaded hin'
    have hsame := (huntouched.kept n hfile).din
    rw [hdin, hdin'] at hsame
    refine ⟨_, t, hrun, ⟨huntouched.wf, hin'⟩, by rw [hsame], by rw [hsame], ?_⟩
    intro hdirty
    obtain ⟨_, _, ⟨b', hb', _⟩ | ⟨e, _, _, _, hinode, _⟩⟩ := sfsBmapLoadNolock_outcome hheld hrun
    · cases hb'
    · rw [hinode]
      exact hdirty

/-- Writing a piece of a block of the file. -/
theorem piece_within {offset endpos i : Nat} (h : Opened usage n s) (hi : i < (dinOf s n).blocks)
    (hstart : offset / SFS_BLKSIZE ≤ i) (buf : Bytes) (pos : Nat) :
    ∃ t, pieceOp offset endpos true i buf pos (fileBlock s n i) s = .ok (.ok buf, t) ∧
      Within usage n s t ∧ (dinOf t n).blocks = (dinOf s n).blocks ∧
      (Crowded s n → Crowded t n) := by
  obtain ⟨hwf, hin⟩ := h
  have hfile := hwf.loaded n hin
  obtain ⟨hne, huse⟩ := inUse_data hwf hfile hi
  have hfilled : ∀ off len, Within usage n s (fillBlock s n i off buf pos len) ∧
      (dinOf (fillBlock s n i off buf pos len) n).blocks = (dinOf s n).blocks ∧
      (Crowded s n → Crowded (fillBlock s n i off buf pos len) n) := by
    intro off len
    have hwf' := wellFormed_fillBlock hwf hfile hi off buf pos len
    have hdin := dinOf_fillBlock hwf hfile hi off buf pos len
    refine ⟨⟨⟨hwf', hin⟩, rfl, rfl, id⟩, by rw [hdin], ?_⟩
    intro hcrowded
    unfold Crowded at *
    rw [hdin]
    exact hcrowded
  rcases eq_or_ne (pieceSize offset endpos i) SFS_BLKSIZE with hfull | hpart
  · refine ⟨_, ?_, hfilled 0 SFS_BLKSIZE⟩
    rw [pieceOp, if_pos hfull]
    exact sfsWblock_eq hwf.freemap.steady buf pos hne huse.1
  · refine ⟨_, ?_, hfilled (pieceStart offset i) (pieceSize offset endpos i)⟩
    rw [pieceOp, if_neg hpart]
    apply sfsWbuf_eq hwf.freemap.steady buf pos hne huse.1
    · unfold pieceStart SFS_BLKSIZE at *
      omega
    · unfold pieceStart pieceSize SFS_BLKSIZE at *
      omega

theorem truncate_within (h : Opened usage n s) (hblocks : (dinOf s n).blocks ≠ 0) :
    ∃ t, sfsBmapTruncateNolock n s = .ok (.ok (), t) ∧ Within usage n s t ∧
      (dinOf t n).blocks + 1 = (dinOf s n).blocks := by
  have hheld := held_of_opened h
  obtain ⟨hwf, hin⟩ := h
  have hdin : dinOf s n = (s.inode n).din := dinOf_loaded hin
  obtain ⟨t, hrun, hshrunk⟩ := sfsBmapTruncateNolock_spec hwf hin (Nat.succ_pred hblocks)
  have hin' : n ∈ t.inodeList := by rwa [hshrunk.loaded]
  have hdin' : dinOf t n = (t.inode n).din := dinOf_loaded hin'
  refine ⟨t, hrun, ⟨⟨hshrunk.wf, hin'⟩, ?_, ?_, ?_⟩, hshrunk.blocks⟩
  · rw [← hdin', hshrunk.type, hdin]
  · rw [← hdin', hshrunk.size, hdin]
  · intro hdirty
    rcases (sfsBmapTruncateNolock_marks hheld hrun).inode with hsame | hmark
    · rw [hsame]
      exact hdirty
    · exact hmark

end Sections

section Bodies

/-- One block of a write. -/
theorem stepProgram_behaves {offset endpos i last : Nat} {io : Transfer} (h : Within usage n s t)
    (hi : i ≤ (dinOf t n).blocks) (hlast : i < last) (hroom : last ≤ maxBlocks ∨ Crowded t n)
    (hstart : offset / SFS_BLKSIZE ≤ i) :
    (stepProgram n i (pieceSize offset endpos i) (pieceOp offset endpos true i) io).Behaves
      (Within usage n s) (fun r t' => Within usage n s t' ∧
        ((∃ e, r = .ok (.error e, io)) ∨
          ∃ io', r = .ok (.ok (), io') ∧ io'.alen = io.alen + pieceSize offset endpos i ∧
            i < (dinOf t' n).blocks ∧ (last ≤ maxBlocks ∨ Crowded t' n))) t := by
  apply Program.Behaves.sleep h
  rcases load_within h.opened hi hlast hroom with
    ⟨b, t₁, hload, hwithin, rfl, hblocks₁, hroom₁⟩ | ⟨e, t₁, hload, hwithin⟩
  · apply Program.Behaves.act hload
    have hi₁ : i < (dinOf t₁ n).blocks := by
      rw [hblocks₁]
      omega
    obtain ⟨t₂, hwrite, hwithin₂, hblocks, hcrowded⟩ :=
      @piece_within usage n t₁ offset endpos i hwithin.opened hi₁ hstart io.buf io.alen
    apply Program.Behaves.sleep (h.trans hwithin)
    apply Program.Behaves.act hwrite
    apply Program.Behaves.done
    refine ⟨(h.trans hwithin).trans hwithin₂, Or.inr ⟨_, rfl, rfl, ?_, hroom₁.imp_right hcrowded⟩⟩
    rw [hblocks]
    exact hi₁
  · apply Program.Behaves.act hload
    apply Program.Behaves.done
    exact ⟨h.trans hwithin, Or.inl ⟨e, rfl⟩⟩

theorem rangeProgram_behaves {offset endpos last : Nat} (hlt : offset < endpos) (m : Nat) :
    ∀ j io t, Within usage n s t → offset / SFS_BLKSIZE ≤ j → (m ≠ 0 → j ≤ (dinOf t n).blocks) →
      j + m = last → (last ≤ maxBlocks ∨ Crowded t n) → io.alen = bytesBelow offset endpos j →
      (rangeProgram n offset endpos m j io).Behaves (Within usage n s) (fun r t' =>
        Within usage n s t' ∧ ∃ e io', r = .ok (e, io') ∧ offset + io'.alen ≤ endpos) t := by
  have hbelow : ∀ j, offset + bytesBelow offset endpos j ≤ endpos := by
    intro j
    unfold bytesBelow
    omega
  induction m with
  | zero =>
      intro j io t h _ _ _ _ halen
      apply Program.Behaves.done
      refine ⟨h, _, io, rfl, ?_⟩
      rw [halen]
      exact hbelow j
  | succ m ih =>
      intro j io t h hstart hj hlast hroom halen
      have hnext := @bytesBelow_succ offset endpos j hstart hlt
      apply Program.Behaves.andThen (stepProgram_behaves h (hj (Nat.succ_ne_zero m)) (by omega)
        hroom hstart)
      rintro r t' ⟨h', ⟨e, rfl⟩ | ⟨io', rfl, halen', hj', hroom'⟩⟩
      · apply Program.Behaves.done
        refine ⟨h', _, io, rfl, ?_⟩
        rw [halen]
        exact hbelow j
      · apply ih (j + 1) io' t' h' (Nat.le_succ_of_le hstart) (fun _ => hj') (by omega) hroom'
        rw [halen', halen, hnext]

theorem growProgram_behaves {last : Nat} (m : Nat) :
    ∀ j t, Within usage n s t → j = (dinOf t n).blocks → j + m = last →
      (last ≤ maxBlocks ∨ Crowded t n) →
      (growProgram n m j).Behaves (Within usage n s) (fun r t' => Within usage n s t' ∧
        ((∃ e, r = .error e) ∨ r = .ok () ∧ (dinOf t' n).blocks = last)) t := by
  induction m with
  | zero =>
      intro j t h hj hlast _
      apply Program.Behaves.done
      exact ⟨h, Or.inr ⟨rfl, by omega⟩⟩
  | succ m ih =>
      intro j t h hj hlast hroom
      apply Program.Behaves.sleep h
      rcases load_within h.opened (le_of_eq hj) (by omega) hroom with
        ⟨b, t₁, hload, hwithin, _, hblocks, hroom₁⟩ | ⟨e, t₁, hload, hwithin⟩
      · apply Program.Behaves.act hload
        exact ih (j + 1) t₁ (h.trans hwithin) (by omega) (by omega) hroom₁
      · apply Program.Behaves.act hload
        apply Program.Behaves.done
        exact ⟨h.trans hwithin, Or.inl ⟨e, rfl⟩⟩

theorem shrinkProgram_behaves {last : Nat} (m : Nat) :
    ∀ t, Within usage n s t → last + m = (dinOf t n).blocks →
      (shrinkProgram n m).Behaves (Within usage n s) (fun r t' => Within usage n s t' ∧
        ((∃ e, r = .error e) ∨ r = .ok () ∧ (dinOf t' n).blocks = last)) t := by
  induction m with
  | zero =>
      intro t h hlast
      apply Program.Behaves.done
      exact ⟨h, Or.inr ⟨rfl, hlast.symm⟩⟩
  | succ m ih =>
      intro t h hlast
      apply Program.Behaves.sleep h
      obtain ⟨t₁, hcut, hwithin, hblocks⟩ := truncate_within h.opened (by omega)
      apply Program.Behaves.act hcut
      exact ih t₁ (h.trans hwithin) (by omega)

/-- What a call has done when it gives the lock back. -/
structure Leaves (usage : Usage) (n : Nat) (s t : SfsFs) : Prop where
  opened : Opened usage n t
  type : (t.inode n).din.type = (s.inode n).din.type
  size : (t.inode n).din.size = (s.inode n).din.size ∨ (t.inode n).dirty = true
  dirty : (s.inode n).dirty = true → (t.inode n).dirty = true

theorem Within.leaves (h : Within usage n s t) : Leaves usage n s t :=
  ⟨h.opened, h.type, Or.inl h.size, h.dirty⟩

/-- The size is set last, with the mark that the inode has changed. -/
theorem Within.setSize (h : Within usage n s t) (size : Nat) :
    Leaves usage n s (t.setInode n { din := { (t.inode n).din with size := size }, dirty := true }) := by
  obtain ⟨⟨hwf, hin⟩, htype, _, _⟩ := h
  have hdin : dinOf t n = (t.inode n).din := dinOf_loaded hin
  have hself := @setInode_inode_self t n
    { din := { (t.inode n).din with size := size }, dirty := true }
  refine ⟨⟨wellFormed_setInode hwf hin ?_ ?_ ?_, hin⟩, ?_, Or.inr ?_, fun _ => ?_⟩
  · rw [hdin]
  · rw [hdin]
  · rw [hdin]
  · rw [hself]
    exact htype
  · rw [hself]
  · rw [hself]

theorem finishIo_leaves {iob : Iobuf} {r : Except Errno Unit} {io : Transfer}
    (h : Within usage n s t) (halen : io.alen ≤ iob.resid) :
    ∃ res t', finishIo n iob r io t = .ok (res, t') ∧ Leaves usage n s t' := by
  have hskip : ∀ t', ∃ res, skipIo iob r io t' = .ok (res, t') := by
    intro t'
    rw [skipIo]
    rcases eq_or_ne io.alen 0 with hzero | hmoved
    · simp only [hzero, ne_eq, not_true_eq_false, if_false]
      exact ⟨_, rfl⟩
    · simp only [hmoved, ne_eq, not_false_eq_true, if_true]
      rw [iobufSkip, routine_bind_assoc, ensure_bind_of halen]
      exact ⟨_, rfl⟩
  rw [finishIo, ioFinish, routine_bind_assoc, getState_bind]
  rcases Decidable.em ((t.inode n).din.size < iob.offset.toNat + io.alen) with hgrows | hfits
  · rw [if_pos hgrows]
    obtain ⟨res, hres⟩ := hskip (t.setInode n { din := { (t.inode n).din with
      size := (iob.offset.toNat + io.alen) % 2 ^ 32 }, dirty := true })
    exact ⟨res, _, hres, h.setSize _⟩
  · rw [if_neg hfits]
    obtain ⟨res, hres⟩ := hskip t
    exact ⟨res, t, hres, h.leaves⟩

/-- The first block of the write is at most at the end of the file, and its last one
can be mapped, or space runs out before. -/
def WriteFits (n : Nat) (iob : Iobuf) (sfs : SfsFs) : Prop :=
  ∀ endpos, writeEntry iob.offset iob.resid = .ok endpos →
    iob.offset.toNat / SFS_BLKSIZE ≤ (dinOf sfs n).blocks ∧
      (blocksFor endpos ≤ maxBlocks ∨ Crowded sfs n)

theorem writeProgram_behaves {iob : Iobuf} (h : Opened usage n s)
    (htype : (s.inode n).din.type = SFS_TYPE_FILE) (hfits : WriteFits n iob s) :
    (writeProgram n iob).Behaves (Within usage n s) (fun _ t => Leaves usage n s t) s := by
  have hcheck : checkType n s = .ok (.ok (), s) := by
    rw [checkType, getState_bind]
    apply ensure_of
    rw [htype]
    decide
  apply Program.Behaves.act hcheck
  simp only
  cases hentry : writeEntry iob.offset iob.resid with
  | error r =>
      simp only
      have hskip : skipIo iob r { buf := fun k => iob.buf (iobufUsed iob + k), alen := 0 } s =
          .ok (.ok _, s) := rfl
      apply Program.Behaves.act hskip
      apply Program.Behaves.done
      exact (Within.refl h).leaves
  | ok endpos =>
      simp only
      obtain ⟨hfirst, hroom⟩ := hfits endpos hentry
      have hlt := writeEntry_lt hentry
      have hcount : iob.offset.toNat / SFS_BLKSIZE +
          (blocksFor endpos - iob.offset.toNat / SFS_BLKSIZE) = blocksFor endpos := by
        unfold blocksFor SFS_BLKSIZE
        omega
      have halen : 0 = bytesBelow iob.offset.toNat endpos (iob.offset.toNat / SFS_BLKSIZE) := by
        unfold bytesBelow SFS_BLKSIZE
        omega
      apply Program.Behaves.andThen (rangeProgram_behaves hlt _ _ _ s (Within.refl h) le_rfl
        (fun _ => hfirst) hcount hroom halen)
      rintro r t ⟨hwithin, e, io, rfl, hle⟩
      have hend := writeEntry_le hentry
      obtain ⟨res, t', hfinish, hleaves⟩ := @finishIo_leaves usage n s t iob e io hwithin (by omega)
      apply Program.Behaves.act hfinish
      apply Program.Behaves.done
      exact hleaves

/-- The blocks for the new size can be mapped, or space runs out before. -/
def TruncFits (n : Nat) (len : Int) (sfs : SfsFs) : Prop :=
  blocksFor len.toNat ≤ maxBlocks ∨ Crowded sfs n

theorem truncProgram_behaves {len : Int} (h : Opened usage n s) (hfits : TruncFits n len s) :
    (truncProgram n len).Behaves (Within usage n s) (fun _ t => Leaves usage n s t) s := by
  have hdin : dinOf s n = (s.inode n).din := dinOf_loaded h.2
  have hget : (getState : Routine SfsFs SfsFs) s = .ok (.ok s, s) := rfl
  apply Program.Behaves.act hget
  simp only
  have hresize : (if (s.inode n).din.blocks < blocksFor len.toNat then
        growProgram n (blocksFor len.toNat - (s.inode n).din.blocks) (s.inode n).din.blocks
      else shrinkProgram n ((s.inode n).din.blocks - blocksFor len.toNat)).Behaves
      (Within usage n s) (fun r t => Within usage n s t ∧
        ((∃ e, r = .error e) ∨ r = .ok () ∧ (dinOf t n).blocks = blocksFor len.toNat)) s := by
    split
    · next hgrow =>
      exact growProgram_behaves _ _ s (Within.refl h) (by rw [hdin]) (by omega) hfits
    · next hshrink =>
      exact shrinkProgram_behaves _ s (Within.refl h) (by rw [hdin]; omega)
  apply Program.Behaves.andThen hresize
  rintro r t ⟨hwithin, ⟨e, rfl⟩ | ⟨rfl, hblocks⟩⟩
  · apply Program.Behaves.done
    exact hwithin.leaves
  · have hset : setSize n (blocksFor len.toNat) len t = .ok (.ok (), t.setInode n
        { din := { (t.inode n).din with size := len.toNat }, dirty := true }) := by
      rw [dinOf_loaded hwithin.opened.2] at hblocks
      rw [setSize, getState_bind, ensure_bind_of hblocks]
      rfl
    apply Program.Behaves.act hset
    apply Program.Behaves.done
    exact hwithin.setSize len.toNat

end Bodies

inductive Call where
  | write (iob : Iobuf)
  | truncfile (len : Int)

/-- What a call returns: a write returns the code of `sfs_io` and the buffer. -/
abbrev Reply := Option (Except Errno Unit × Iobuf)

namespace Call

/-- The call on its own. -/
def routine (n : Nat) : Call → Routine SfsFs Reply
  | write iob => do
      let r ← sfsIo n iob true
      return some r
  | truncfile len => do
      sfsTruncfile n len
      return none

def look (n : Nat) : Call → SfsFs → Kernel (Option (Except Errno Reply))
  | write _, _ => .ok none
  | truncfile len, s => (truncLook n len s).map (Option.map (Except.map fun _ => none))

def body (n : Nat) : Call → Program SfsFs Reply
  | write iob => (writeProgram n iob).andThen fun r =>
      match r with
      | .error e => .done (.error e)
      | .ok r => .done (.ok (some r))
  | truncfile len => (truncProgram n len).andThen fun r =>
      match r with
      | .error e => .done (.error e)
      | .ok _ => .done (.ok none)

/-- A truncation that finds the size as it is to be finds the blocks for it, which
the holder of the lock has not changed since it took the lock in the state `s`. -/
def LookFits (n : Nat) (call : Call) (s t : SfsFs) : Prop :=
  match call with
  | write _ => True
  | truncfile len => ¬(len < 0 ∨ (SFS_MAX_FILE_SIZE : Int) < len) →
      (t.inode n).din.size = len.toNat → blocksFor len.toNat = (t.inode n).din.blocks ∧
        (t.inode n).din.blocks = (s.inode n).din.blocks

def TakeFits (n : Nat) (call : Call) (s : SfsFs) : Prop :=
  match call with
  | write iob => WriteFits n iob s
  | truncfile len => TruncFits n len s ∧
      ((s.inode n).din.size = len.toNat → blocksFor len.toNat = (s.inode n).din.blocks)

/-- A truncation that waits for the lock has seen another size. -/
def Waits (n : Nat) (call : Call) (s : SfsFs) : Prop :=
  match call with
  | write _ => True
  | truncfile len => ¬(len < 0 ∨ (SFS_MAX_FILE_SIZE : Int) < len) ∧
      ((s.inode n).din.size = len.toNat → (s.inode n).dirty = true)

end Call

variable {ι : Type}

/-- One call for each thread, all on the inode `n`. -/
def fileCalls (n : Nat) (call : ι → Call) : Calls ι SfsFs Reply where
  look i := (call i).look n
  body i := (call i).body n

def fileTerms (usage : Usage) (n : Nat) (call : ι → Call) : Terms ι SfsFs where
  inv s := Opened usage n s ∧ (s.inode n).din.type = SFS_TYPE_FILE
  okLook i := (call i).LookFits n
  okTake i := (call i).TakeFits n
  waits i := (call i).Waits n
  parks := Within usage n

section Serial

variable {call : ι → Call}

theorem run_body_truncfile (len : Int) (s : SfsFs) : ((Call.truncfile len).body n).run s =
    (do
      (truncProgram n len).run
      return none : Routine SfsFs Reply) s := by
  rw [Call.body, Program.run_andThen]
  refine congrFun (attempt_bind_rethrow _ ?_ ?_) s
  · exact fun e => rfl
  · exact fun _ => rfl

theorem whole_eq (n : Nat) (call : ι → Call) :
    (fileCalls n call).whole = fun i => (call i).routine n := by
  funext i s
  have hlook : (fileCalls n call).look i s = (call i).look n s := rfl
  have hbody : (fileCalls n call).body i = (call i).body n := rfl
  rw [Calls.whole, hlook, hbody]
  cases call i with
  | write iob =>
      show ((Call.write iob).body n).run s = _
      rw [Call.body, Program.run_andThen, run_writeProgram]
      refine congrFun (attempt_bind_rethrow _ ?_ ?_) s
      · exact fun e => rfl
      · exact fun _ => rfl
  | truncfile len =>
      have hparts := sfsTruncfile_eq n len s
      simp only [Call.look, Call.routine]
      cases hlook : truncLook n len s with
      | error a =>
          rw [hlook] at hparts
          exact (bind_of_abort hparts).symm
      | ok o =>
          rw [hlook] at hparts
          cases o with
          | none => 
              show ((Call.truncfile len).body n).run s = _
              rw [run_body_truncfile]
              exact bind_apply_congr hparts.symm _
          | some r =>
              cases r with
              | error e => exact (bind_of_error hparts).symm
              | ok _ =>
                  rw [bind_of_ok hparts]
                  rfl

/-- A truncation to the size that the file has by now does nothing. -/
theorem run_truncProgram_same {len : Int} (hsize : (s.inode n).din.size = len.toNat)
    (hblocks : blocksFor len.toNat = (s.inode n).din.blocks) (hdirty : (s.inode n).dirty = true) :
    (truncProgram n len).run s = .ok (.ok (), s) := by
  have hresize : truncResize n (blocksFor len.toNat) s = .ok (.ok (), s) := by
    rw [truncResize, getState_bind, if_neg (by omega), Nat.sub_eq_zero_of_le (le_of_eq hblocks.symm)]
    rfl
  have hsame : s.setInode n { din := { (s.inode n).din with size := len.toNat }, dirty := true } = s := by
    rw [← hsize, ← hdirty]
    show { s with inode := Function.update s.inode n (s.inode n) } = s
    rw [Function.update_eq_self]
  rw [run_truncProgram, bind_of_ok hresize, setSize, getState_bind, ensure_bind_of hblocks.symm]
  show Except.ok (Except.ok (), s.setInode n _) = _
  rw [hsame]

theorem run_body_eq_whole {i : ι} (hwaits : (call i).Waits n s) (htake : (call i).TakeFits n s) :
    (fileCalls n call).whole i s = ((fileCalls n call).body i).run s := by
  have hlook : (fileCalls n call).look i s = (call i).look n s := rfl
  have hbody : (fileCalls n call).body i = (call i).body n := rfl
  rw [Calls.whole, hlook, hbody]
  cases hcall : call i with
  | write iob => rfl
  | truncfile len =>
      rw [hcall] at hwaits htake
      obtain ⟨hrange, hmarked⟩ := hwaits
      rcases eq_or_ne (s.inode n).din.size len.toNat with hsize | hother
      · have hblocks := htake.2 hsize
        have hsame : truncLook n len s = .ok (some (.ok ())) := by
          rw [truncLook, if_neg hrange, if_pos hsize, if_pos hblocks]
        rw [run_body_truncfile, bind_of_ok (run_truncProgram_same hsize hblocks (hmarked hsize)),
          Call.look, hsame]
        rfl
      · have hgoes : truncLook n len s = .ok none := by
          rw [truncLook, if_neg hrange, if_neg hother]
        rw [Call.look, hgoes]
        rfl

theorem body_behaves {i : ι} (h : Opened usage n s) (htype : (s.inode n).din.type = SFS_TYPE_FILE)
    (htake : (call i).TakeFits n s) :
    ((fileCalls n call).body i).Behaves (Within usage n s) (fun _ t => Leaves usage n s t) s := by
  show ((call i).body n).Behaves _ _ s
  cases hcall : call i with
  | write iob =>
      rw [hcall] at htake
      apply Program.Behaves.andThen (writeProgram_behaves h htype htake)
      intro r t hleaves
      cases r with
      | error e => exact Program.Behaves.done hleaves
      | ok p => exact Program.Behaves.done hleaves
  | truncfile len =>
      rw [hcall] at htake
      apply Program.Behaves.andThen (truncProgram_behaves h htake.1)
      intro r t hleaves
      cases r with
      | error e => exact Program.Behaves.done hleaves
      | ok p => exact Program.Behaves.done hleaves

theorem waits_of_leaves {c : Call} (h : Leaves usage n s t) (hwaits : c.Waits n s) : c.Waits n t := by
  cases c with
  | write iob => trivial
  | truncfile len =>
      obtain ⟨hrange, hmarked⟩ := hwaits
      refine ⟨hrange, ?_⟩
      intro hsize
      rcases h.size with hsame | hdirty
      · rw [hsame] at hsize
        exact h.dirty (hmarked hsize)
      · exact hdirty

theorem look_sound {i : ι} (hwithin : Within usage n s t) (hfits : (call i).LookFits n s t) :
    ∃ o, (fileCalls n call).look i t = .ok o ∧
      (∀ r, o = some r → (fileCalls n call).whole i s = .ok (r, s)) ∧
      (o = none → (call i).Waits n s) := by
  have hlook : ∀ s, (fileCalls n call).look i s = (call i).look n s := fun _ => rfl
  rw [Calls.whole, hlook, hlook]
  cases hcall : call i with
  | write iob =>
      refine ⟨none, rfl, ?_, fun _ => trivial⟩
      intro r hr
      cases hr
  | truncfile len =>
      rw [hcall] at hfits
      simp only [Call.look]
      rcases Decidable.em (len < 0 ∨ (SFS_MAX_FILE_SIZE : Int) < len) with hrange | hrange
      · have hinval : ∀ s, truncLook n len s = .ok (some (.error .eInval)) := by
          intro s
          rw [truncLook, if_pos hrange]
        rw [hinval, hinval]
        refine ⟨some (.error .eInval), rfl, ?_, ?_⟩
        · intro r hr
          cases hr
          rfl
        · intro hnone
          cases hnone
      · rcases eq_or_ne (t.inode n).din.size len.toNat with hsize | hother
        · obtain ⟨hblocks, hbefore⟩ := hfits hrange hsize
          have hthen : truncLook n len t = .ok (some (.ok ())) := by
            rw [truncLook, if_neg hrange, if_pos hsize, if_pos hblocks]
          have hbase : truncLook n len s = .ok (some (.ok ())) := by
            rw [hwithin.size] at hsize
            rw [hbefore] at hblocks
            rw [truncLook, if_neg hrange, if_pos hsize, if_pos hblocks]
          rw [hthen, hbase]
          refine ⟨some (.ok none), rfl, ?_, ?_⟩
          · intro r hr
            cases hr
            rfl
          · intro hnone
            cases hnone
        · have hgoes : truncLook n len t = .ok none := by
            rw [truncLook, if_neg hrange, if_neg hother]
          rw [hgoes]
          refine ⟨none, rfl, ?_, ?_⟩
          · intro r hr
            cases hr
          · intro _
            refine ⟨hrange, ?_⟩
            intro hsize
            rw [← hwithin.size] at hsize
            exact absurd hsize hother

theorem fileTerms_sound (usage : Usage) (n : Nat) (call : ι → Call) :
    (fileTerms usage n call).Sound (fileCalls n call) where
  refl s h := Within.refl h.1
  looks i s t _ hwithin hfits := look_sound hwithin hfits
  runs i s h htake hwaits := by
    obtain ⟨hopened, htype⟩ := h
    obtain ⟨hparked, r, t, hrun, hleaves⟩ := body_behaves hopened htype htake
    refine ⟨hparked, r, t, hrun, ?_, ⟨hleaves.opened, hleaves.type.trans htype⟩, ?_⟩
    · rw [run_body_eq_whole hwaits htake]
      exact hrun
    · exact fun j hj => waits_of_leaves hleaves hj

/-- Calls that keep to the conditions complete without a failed assertion, and have
the effect of the same calls one after another. -/
theorem concurrent_io_serial [Fintype ι] [DecidableEq ι] {s₀ : SfsFs} (call : ι → Call)
    (h : Opened usage n s₀) (htype : (s₀.inode n).din.type = SFS_TYPE_FILE)
    {c : State ι SfsFs Reply}
    (hrun : ReflTransGen (Step (fileCalls n call) (fileTerms usage n call).Allowed) (start s₀) c) :
    (∀ m, (fileTerms usage n call).Allowed c m →
        ∀ a, next (fileCalls n call) c m ≠ some (.error a)) ∧
      (∀ i, (∀ r, c.pc i ≠ .finished r) → ∃ m, (next (fileCalls n call) c m).isSome = true) ∧
      Acc (fun c' c => Step (fileCalls n call) (fileTerms usage n call).Allowed c c') c ∧
      ((∀ i, ∃ r, c.pc i = .finished r) →
        ∃ order, Sequence (fun i => (call i).routine n) s₀ order c.shared ∧
          (order.map Prod.fst).Nodup ∧ ∀ i r, c.pc i = .finished r ↔ (i, r) ∈ order) := by
  have hsound := fileTerms_sound usage n call
  obtain ⟨order, hlinear⟩ := linear_of_run hsound (And.intro h htype) hrun
  refine ⟨?_, ?_, step_wellFounded.apply c, ?_⟩
  · intro m hallowed a hnext
    obtain ⟨c', heq, _⟩ := linear_next hsound hlinear hallowed hnext
    cases heq
  · intro i hplace
    exact exists_next hlinear hplace
  · intro hall
    have hsequence := sequence_of_finished hlinear hall
    rw [whole_eq] at hsequence
    exact ⟨order, hsequence⟩

end Serial

section SmallFs

/-- The state after moves that are possible and do not fail. -/
def follow {ι σ α : Type} [DecidableEq ι] (calls : Calls ι σ α) :
    List (Move ι) → State ι σ α → Option (State ι σ α)
  | [], c => some c
  | m :: ms, c =>
      match next calls c m with
      | some (.ok c') => follow calls ms c'
      | _ => none

theorem reaches_of_follow {ι σ α : Type} [DecidableEq ι] {calls : Calls ι σ α}
    {allowed : State ι σ α → Move ι → Prop} (ms : List (Move ι)) :
    ∀ c {c' : State ι σ α}, (∀ c m, m ∈ ms → allowed c m) → follow calls ms c = some c' →
      ReflTransGen (Step calls allowed) c c' := by
  induction ms with
  | nil =>
      intro c c' _ h
      cases h
      exact ReflTransGen.refl
  | cons m ms ih =>
      intro c c' hallowed h
      rw [follow] at h
      split at h
      · next c₁ hnext =>
        have hstep : Step calls allowed c c₁ := ⟨m, hallowed c m List.mem_cons_self, hnext⟩
        apply ReflTransGen.head hstep
        exact ih c₁ (fun c m' hm => hallowed c m' (List.mem_cons_of_mem m hm)) h
      · cases h

def fails {σ : Type*} : Option (Except Abort σ) → Bool
  | some (.error _) => true
  | _ => false

theorem eq_of_fails {σ : Type*} {out : Option (Except Abort σ)} (h : fails out = true) :
    ∃ a, out = some (.error a) := by
  cases out with
  | none => cases h
  | some x =>
      cases x with
      | error a => exact ⟨a, rfl⟩
      | ok _ => cases h

/-- A seek to the byte 8192, an open with `O_TRUNC`, and a write at the position
that the first file has kept. -/
def keptPosition : Fin 3 → Call
  | 0 => .truncfile 8192
  | 1 => .truncfile 0
  | 2 => .write (iobufInit zeros 1 8192)

/-- An open with `O_TRUNC` while the first byte of an empty file is written. -/
def duringWrite : Fin 3 → Call
  | 0 => .truncfile 0
  | 1 => .write (iobufInit zeros 1 0)
  | 2 => .truncfile 0

/-- Assertions that fail: one call after another, and one call during another. -/
theorem concurrent_io_fails : Opened smallUsage 3 smallFs ∧
    (smallFs.inode 3).din.type = SFS_TYPE_FILE ∧
    (∃ c a, ReflTransGen (Step (fileCalls 3 keptPosition) fun _ _ => True) (start smallFs) c ∧
      next (fileCalls 3 keptPosition) c .wake = some (.error a)) ∧
    ∃ c a, ReflTransGen (Step (fileCalls 3 duringWrite) fun _ _ => True) (start smallFs) c ∧
      next (fileCalls 3 duringWrite) c (.look 2) = some (.error a) := by
  have hkept : (follow (fileCalls 3 keptPosition) [.look 0, .take 0, .wake, .look 1, .take 1, .wake,
      .wake, .look 2, .take 2] (start smallFs)).any (fun c =>
        fails (next (fileCalls 3 keptPosition) c .wake)) = true := by
    decide +kernel
  have hduring : (follow (fileCalls 3 duringWrite) [.look 0, .take 0, .wake, .look 1, .take 1,
      .wake] (start smallFs)).any (fun c =>
        fails (next (fileCalls 3 duringWrite) c (.look 2))) = true := by
    decide +kernel
  obtain ⟨c, hc, hfails⟩ := (Option.any_eq_true _ _).mp hkept
  obtain ⟨c', hc', hfails'⟩ := (Option.any_eq_true _ _).mp hduring
  obtain ⟨a, ha⟩ := eq_of_fails hfails
  obtain ⟨a', ha'⟩ := eq_of_fails hfails'
  exact ⟨opened_smallFs, rfl,
    ⟨c, a, reaches_of_follow _ _ (fun _ _ _ => trivial) hc, ha⟩,
    ⟨c', a', reaches_of_follow _ _ (fun _ _ _ => trivial) hc', ha'⟩⟩

/-- Two writes, the second one of which waits for the first. -/
def twoWrites : Fin 2 → Call
  | 0 => .write (iobufInit (fun _ => 1) 60 0)
  | 1 => .write (iobufInit (fun _ => 2) 60 30)

theorem twoWrites_allowed (c : State (Fin 2) SfsFs Reply) (m : Move (Fin 2)) :
    (fileTerms smallUsage 3 twoWrites).Allowed c m := by
  have htake : ∀ i s, (twoWrites i).TakeFits 3 s := by
    intro i s
    match i with
    | 0 =>
        intro endpos hentry
        have hend : endpos = 60 := (Except.ok.inj hentry).symm
        subst hend
        exact ⟨Nat.zero_le _, Or.inl (by decide)⟩
    | 1 =>
        intro endpos hentry
        have hend : endpos = 90 := (Except.ok.inj hentry).symm
        subst hend
        exact ⟨Nat.zero_le _, Or.inl (by decide)⟩
  cases m with
  | look i =>
      show (twoWrites i).LookFits 3 c.base c.shared
      match i with
      | 0 => trivial
      | 1 => trivial
  | take i => exact htake i c.shared
  | wake => trivial

def returned {α : Type} : Place α → Bool
  | .finished _ => true
  | _ => false

/-- The second write looks and waits while the first one sleeps. -/
theorem concurrent_io_serial_twoWrites : ∃ c,
    ReflTransGen (Step (fileCalls 3 twoWrites) (fileTerms smallUsage 3 twoWrites).Allowed)
      (start smallFs) c ∧
    ∃ order, Sequence (fun i => (twoWrites i).routine 3) smallFs order c.shared ∧
      (order.map Prod.fst).Nodup ∧ ∀ i r, c.pc i = .finished r ↔ (i, r) ∈ order := by
  have hfollow : (follow (fileCalls 3 twoWrites) [.look 0, .take 0, .look 1, .wake, .wake, .take 1,
      .wake, .wake] (start smallFs)).any (fun c => returned (c.pc 0) && returned (c.pc 1)) = true := by
    decide +kernel
  obtain ⟨c, hc, hreturned⟩ := (Option.any_eq_true _ _).mp hfollow
  have hrun := @reaches_of_follow _ _ _ _ _ (fileTerms smallUsage 3 twoWrites).Allowed _ _ _
    (fun c m _ => twoWrites_allowed c m) hc
  obtain ⟨hfirst, hsecond⟩ := Bool.and_eq_true_iff.mp hreturned
  have hplace : ∀ place : Place Reply, returned place = true → ∃ r, place = .finished r := by
    intro place h
    cases place with
    | finished r => exact ⟨r, rfl⟩
    | ready => cases h
    | waiting => cases h
    | inside => cases h
  refine ⟨c, hrun, (concurrent_io_serial twoWrites opened_smallFs rfl hrun).2.2.2 ?_⟩
  intro i
  match i with
  | 0 => exact hplace _ hfirst
  | 1 => exact hplace _ hsecond

end SmallFs

end Ucore.SfsConcurrentIo
