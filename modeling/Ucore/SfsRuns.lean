import Ucore.SfsIoRefinement

namespace Ucore.SfsRuns

open Ucore.Errors
open Ucore.KernelRoutine
open Ucore.ByteBuffer
open Ucore.SfsDisk
open Ucore.SfsBlockMap
open Ucore.SfsOwnership
open Ucore.SfsFileViews
open Ucore.SfsBlockMapGrow
open Ucore.SfsBlockMapShrink
open Ucore.SfsIo
open Ucore.SfsIoRefinement

/-- The file system is well formed and the file `ino` is in memory. -/
def Opened (usage : Usage) (ino : Nat) (sfs : SfsFs) : Prop :=
  WellFormed sfs usage ∧ ino ∈ sfs.inodeList

variable {usage : Usage} {ino : Nat}

section Steps

variable {sfs sfs' : SfsFs}

theorem sfsBmapLoadNolock_returns (h : Opened usage ino sfs) {i : Nat} {r : Except Errno Nat}
    (heq : sfsBmapLoadNolock ino i sfs = .ok (r, sfs')) :
    (∃ b, r = .ok b ∧ Located sfs sfs' usage ino i b) ∨
      ∃ e, r = .error e ∧ Untouched sfs sfs' usage := by
  obtain ⟨hwf, hin⟩ := h
  have hdin := @dinOf_loaded sfs ino hin
  rcases lt_or_ge (dinOf sfs ino).blocks i with hbeyond | hi
  · rw [hdin] at hbeyond
    rw [sfsBmapLoadNolock, getState_bind, ensure_bind_of_not (not_le.mpr hbeyond)] at heq
    cases heq
  · rcases lt_or_ge i maxBlocks with hmax | hfull
    · rcases sfsBmapLoadNolock_spec hwf hin hi hmax with ⟨b, t, hrun, hlocated⟩ | ⟨t, hrun, hkept, _⟩
      · rw [hrun] at heq
        cases heq
        exact Or.inl ⟨b, rfl, hlocated⟩
      · rw [hrun] at heq
        cases heq
        exact Or.inr ⟨_, rfl, hkept⟩
    · -- past the last entry of the indirect block
      have hnear : ¬i < SFS_NDIRECT := by
        unfold maxBlocks at hfull
        omega
      have hfar : ¬i - SFS_NDIRECT < SFS_BLK_NENTRY := by
        unfold maxBlocks at hfull
        omega
      have hget : ∀ create, sfsBmapGetNolock ino i create sfs = .error .panic := by
        intro create
        rw [sfsBmapGetNolock, bmapGet, if_neg hnear, if_neg hfar]
        rfl
      rw [hdin] at hi
      rw [sfsBmapLoadNolock, getState_bind, ensure_bind_of hi, bind_of_abort (hget _)] at heq
      cases heq

theorem Opened.of_located {i b : Nat} (h : Opened usage ino sfs)
    (hlocated : Located sfs sfs' usage ino i b) : Opened usage ino sfs' :=
  ⟨hlocated.wf, by rw [hlocated.loaded]; exact h.2⟩

theorem Opened.of_untouched (h : Opened usage ino sfs) (hkept : Untouched sfs sfs' usage) :
    Opened usage ino sfs' :=
  ⟨hkept.wf, by rw [hkept.loaded]; exact h.2⟩

theorem preserves_load (i : Nat) : Preserves (Opened usage ino) (sfsBmapLoadNolock ino i) := by
  intro s r s' hs heq
  rcases sfsBmapLoadNolock_returns hs heq with ⟨b, _, hlocated⟩ | ⟨e, _, hkept⟩
  · exact hs.of_located hlocated
  · exact hs.of_untouched hkept

/-- A transfer to or from a block of the file leaves the file in memory and
the file system well formed. -/
theorem opened_of_bufOp (h : Opened usage ino sfs) {i : Nat} (hi : i < (dinOf sfs ino).blocks)
    {write : Bool} {buf : Bytes} {pos len off : Nat} {r : Except Errno Bytes}
    (heq : sfsBufOp write buf pos len (fileBlock sfs ino i) off sfs = .ok (r, sfs')) :
    Opened usage ino sfs' := by
  obtain ⟨hwf, hin⟩ := h
  have hfile := hwf.loaded ino hin
  obtain ⟨hne, huse⟩ := inUse_data hwf hfile hi
  rcases Decidable.em (off < SFS_BLKSIZE ∧ off + len ≤ SFS_BLKSIZE) with hbound | hbad
  · cases write with
    | true =>
        rw [sfsBufOp, if_pos rfl,
          sfsWbuf_eq hwf.freemap.steady buf pos hne huse.1 hbound.1 hbound.2] at heq
        cases heq
        exact ⟨wellFormed_fillBlock hwf hfile hi off buf pos len, hin⟩
    | false =>
        rw [sfsBufOp, if_neg Bool.false_ne_true,
          sfsRbuf_eq hwf.freemap.steady buf pos hne huse.1 hbound.1 hbound.2] at heq
        cases heq
        exact ⟨hwf, hin⟩
  · cases write with
    | true =>
        rw [sfsBufOp, if_pos rfl, sfsWbuf, ensure_bind_of_not hbad] at heq
        cases heq
    | false =>
        rw [sfsBufOp, if_neg Bool.false_ne_true, sfsRbuf, ensure_bind_of_not hbad] at heq
        cases heq

theorem opened_of_blockOp (h : Opened usage ino sfs) {i : Nat} (hi : i < (dinOf sfs ino).blocks)
    {write : Bool} {buf : Bytes} {pos : Nat} {r : Except Errno Bytes}
    (heq : sfsBlockOp write buf pos (fileBlock sfs ino i) 1 sfs = .ok (r, sfs')) :
    Opened usage ino sfs' := by
  obtain ⟨hwf, hin⟩ := h
  have hfile := hwf.loaded ino hin
  obtain ⟨hne, huse⟩ := inUse_data hwf hfile hi
  cases write with
  | true =>
      rw [sfsBlockOp, if_pos rfl, sfsWblock_eq hwf.freemap.steady buf pos hne huse.1] at heq
      cases heq
      exact ⟨wellFormed_fillBlock hwf hfile hi 0 buf pos SFS_BLKSIZE, hin⟩
  | false =>
      rw [sfsBlockOp, if_neg Bool.false_ne_true,
        sfsRblock_eq hwf.freemap.steady buf pos hne huse.1] at heq
      cases heq
      exact ⟨hwf, hin⟩

theorem preserves_ioStep {i size : Nat} {op : Bytes → Nat → Nat → Routine SfsFs Bytes}
    (hop : ∀ s buf pos r s', Opened usage ino s → i < (dinOf s ino).blocks →
      op buf pos (fileBlock s ino i) s = .ok (r, s') → Opened usage ino s') (io : Transfer) :
    Preserves (Opened usage ino) (ioStep ino i size op io) := by
  intro s r s' hs heq
  rw [ioStep] at heq
  obtain ⟨r₀, t, hload, hrest⟩ := attempt_bind_eq_ok_iff.mp heq
  rcases sfsBmapLoadNolock_returns hs hload with ⟨b, rfl, hlocated⟩ | ⟨e, rfl, hkept⟩
  · have ht := hs.of_located hlocated
    have hi : i < (dinOf t ino).blocks := by
      rw [hlocated.blocks]
      omega
    rw [← hlocated.here] at hrest
    obtain ⟨r₁, t', hrun, hlast⟩ := attempt_bind_eq_ok_iff.mp hrest
    have ht' := hop t _ _ _ _ ht hi hrun
    cases r₁ with
    | error e =>
        cases hlast
        exact ht'
    | ok buf =>
        cases hlast
        exact ht'
  · cases hrest
    exact hs.of_untouched hkept

theorem preserves_ioPart (i off size : Nat) (write : Bool) (io : Transfer) :
    Preserves (Opened usage ino) (ioPart ino i off size write io) := by
  apply preserves_ioStep
  intro s buf pos r s' hs hi heq
  exact opened_of_bufOp hs hi heq

theorem preserves_ioBlocks (write : Bool) (nblks : Nat) :
    ∀ i io, Preserves (Opened usage ino) (ioBlocks ino write nblks i io) := by
  induction nblks with
  | zero =>
      intro i io
      exact Preserves.pure _
  | succ nblks ih =>
      intro i io
      apply Preserves.bind
      · apply preserves_ioStep
        intro s buf pos r s' hs hi heq
        exact opened_of_blockOp hs hi heq
      · rintro ⟨r, io'⟩
        cases r with
        | error e => exact Preserves.pure _
        | ok _ => exact ih (i + 1) io'

theorem preserves_ioAligned (i nblks endpos : Nat) (write : Bool) (io : Transfer) :
    Preserves (Opened usage ino) (ioAligned ino i nblks endpos write io) := by
  apply Preserves.bind (preserves_ioBlocks write nblks i io)
  rintro ⟨r, io'⟩
  cases r with
  | error e => exact Preserves.pure _
  | ok _ =>
      apply Preserves.ite
      · exact preserves_ioPart _ _ _ write io'
      · exact Preserves.pure _

theorem preserves_ioPhases (offset endpos : Nat) (write : Bool) (io : Transfer) :
    Preserves (Opened usage ino) (ioPhases ino offset endpos write io) := by
  apply Preserves.ite
  · apply Preserves.bind (preserves_ioPart _ _ _ write io)
    rintro ⟨r, io'⟩
    cases r with
    | error e => exact Preserves.pure _
    | ok _ =>
        apply Preserves.ite
        · exact Preserves.pure _
        · exact preserves_ioAligned _ _ _ write io'
  · exact preserves_ioAligned _ _ _ write io

/-- Replacing the inode of the file by one with the same blocks. -/
theorem Opened.setInode (h : Opened usage ino sfs) {v : SfsInode}
    (hblocks : v.din.blocks = (sfs.inode ino).din.blocks)
    (hindirect : v.din.indirect = (sfs.inode ino).din.indirect)
    (hdirect : v.din.direct = (sfs.inode ino).din.direct) :
    Opened usage ino (sfs.setInode ino v) := by
  obtain ⟨hwf, hin⟩ := h
  rw [← dinOf_loaded hin] at hblocks hindirect hdirect
  exact ⟨wellFormed_setInode hwf hin hblocks hindirect hdirect, hin⟩

theorem preserves_ioFinish (offset alen : Nat) :
    Preserves (Opened usage ino) (ioFinish ino offset alen) := by
  apply Preserves.getState_apply
  intro s hs r s' heq
  split at heq
  · cases heq
    exact hs.setInode rfl rfl rfl
  · cases heq
    exact hs

theorem preserves_sfsIoNolock (buf : Bytes) (offset : Int) (alen : Nat) (write : Bool) :
    Preserves (Opened usage ino) (sfsIoNolock ino buf offset alen write) := by
  apply Preserves.getState
  intro s
  apply Preserves.ensure_bind
  apply Preserves.ite
  · exact Preserves.pure _
  apply Preserves.ite
  · exact Preserves.pure _
  apply Preserves.ite
  · exact Preserves.pure _
  apply Preserves.bind (preserves_ioPhases _ _ write _)
  rintro ⟨r, io⟩
  apply Preserves.bind (preserves_ioFinish _ _)
  intro _
  exact Preserves.pure _

theorem preserves_sfsIo (iob : Iobuf) (write : Bool) :
    Preserves (Opened usage ino) (sfsIo ino iob write) := by
  apply Preserves.bind (preserves_sfsIoNolock _ _ _ write)
  rintro ⟨r, io⟩
  apply Preserves.ite
  · apply Preserves.bind
    · apply Preserves.ensure_bind
      exact Preserves.pure _
    · intro iob'
      exact Preserves.pure _
  · exact Preserves.pure _

theorem preserves_truncGrow (n : Nat) :
    ∀ nblks, Preserves (Opened usage ino) (truncGrow ino n nblks) := by
  induction n with
  | zero =>
      intro nblks
      exact Preserves.pure _
  | succ n ih =>
      intro nblks
      apply Preserves.bind (preserves_load nblks)
      intro _
      exact ih (nblks + 1)

theorem preserves_truncate : Preserves (Opened usage ino) (sfsBmapTruncateNolock ino) := by
  rintro s r s' ⟨hwf, hin⟩ heq
  have hdin := @dinOf_loaded s ino hin
  rcases Nat.eq_zero_or_eq_succ_pred (dinOf s ino).blocks with hzero | hsucc
  · rw [hdin] at hzero
    rw [sfsBmapTruncateNolock, getState_bind, ensure_bind_of_not (not_not.mpr hzero)] at heq
    cases heq
  · obtain ⟨t, hrun, hshrunk⟩ := sfsBmapTruncateNolock_spec hwf hin hsucc.symm
    rw [hrun] at heq
    cases heq
    exact ⟨hshrunk.wf, by rwa [hshrunk.loaded]⟩

theorem preserves_truncShrink (n : Nat) :
    Preserves (Opened usage ino) (truncShrink ino n) := by
  induction n with
  | zero => exact Preserves.pure _
  | succ n ih =>
      apply Preserves.bind preserves_truncate
      intro _
      exact ih

theorem preserves_truncResize (tblks : Nat) :
    Preserves (Opened usage ino) (truncResize ino tblks) := by
  apply Preserves.getState
  intro t
  apply Preserves.ite
  · exact preserves_truncGrow _ _
  · exact preserves_truncShrink _

theorem preserves_sfsTruncfile (len : Int) :
    Preserves (Opened usage ino) (sfsTruncfile ino len) := by
  apply Preserves.ite
  · exact Preserves.fail _
  apply Preserves.getState
  intro s
  apply Preserves.ite
  · exact Preserves.ensure
  · apply Preserves.bind (preserves_truncResize _)
    intro _
    apply Preserves.getState
    intro t
    apply Preserves.ensure_bind
    apply Preserves.modifyState
    intro t' ht'
    exact ht'.setInode rfl rfl rfl

/-- Writing an inode back changes the block of a file that is in memory, which
no block map depends on. -/
theorem preserves_sfsFsync : Preserves (Opened usage ino) (sfsFsync ino) := by
  apply Preserves.getState
  intro s
  apply Preserves.ite
  · apply Preserves.bind
    · apply Preserves.modifyState
      intro t ht
      exact ht.setInode rfl rfl rfl
    · intro _ t r t' ht heq
      obtain ⟨hwf, hin⟩ := ht
      obtain ⟨hne, huse⟩ := inUse_inode hwf (hwf.loaded ino hin)
      have hwrite := sfsWbuf_eq hwf.freemap.steady (diskInodeBytes (s.inode ino).din) 0 hne huse.1
        (by decide : 0 < SFS_BLKSIZE) (by decide : 0 + diskInodeSize ≤ SFS_BLKSIZE)
      rw [attempt_bind_of_ok hwrite] at heq
      cases heq
      exact ⟨wellFormed_setBlock hwf (plain_of_loaded hwf hin) _, hin⟩
  · exact Preserves.pure _

/-- The file system with the inode `ino` in memory. -/
def withLoaded (sfs : SfsFs) (ino : Nat) : SfsFs :=
  { sfs.setInode ino { din := dinOf sfs ino, dirty := false } with
    inodeList := ino :: sfs.inodeList }

theorem dinOf_withLoaded (sfs : SfsFs) (ino f : Nat) :
    dinOf (withLoaded sfs ino) f = dinOf sfs f := by
  rcases eq_or_ne f ino with rfl | hother
  · have hin : f ∈ (withLoaded sfs f).inodeList := List.mem_cons_self
    rw [dinOf_loaded hin]
    exact congrArg SfsInode.din (setInode_inode_self f _)
  · have hinode : (withLoaded sfs ino).inode f = sfs.inode f := setInode_inode_ne hother _
    rcases Decidable.em (f ∈ sfs.inodeList) with hin | hout
    · have hin' : f ∈ (withLoaded sfs ino).inodeList := List.mem_cons_of_mem ino hin
      rw [dinOf_loaded hin', hinode, dinOf_loaded hin]
    · have hout' : f ∉ (withLoaded sfs ino).inodeList := by
        intro hin'
        rcases List.mem_cons.mp hin' with rfl | hin
        · exact hother rfl
        · exact hout hin
      rw [dinOf, dinOf, if_neg hout, if_neg hout']
      rfl

theorem wellFormed_withLoaded (h : WellFormed sfs usage) (hfile : usage.inode ino) :
    WellFormed (withLoaded sfs ino) usage := by
  have hok := @freemapOk_setInode sfs ino h.freemap { din := dinOf sfs ino, dirty := false }
  apply wellFormed_congr h
  · exact ⟨⟨hok.steady.faults, hok.steady.blocks_le⟩, hok.nbits, hok.blocks_le, hok.free_lt,
      hok.super_used, hok.unused⟩
  · rfl
  · intro f hf
    rcases List.mem_cons.mp hf with rfl | hin
    · exact hfile
    · exact h.loaded f hin
  · exact fun _ => rfl
  · intro f _
    constructor
    · rw [dinOf_withLoaded]
    · rw [dinOf_withLoaded]
    · intro i _
      rw [fileBlock, dinOf_withLoaded]
      rfl

/-- An inode that is not in memory is loaded as it is on disk. -/
theorem sfsLoadInode_eq (h : WellFormed sfs usage) (hfile : usage.inode ino)
    (hout : ino ∉ sfs.inodeList) :
    sfsLoadInode ino sfs =
      if (dinOf sfs ino).nlinks ≠ 0 then .ok (.ok (), withLoaded sfs ino) else .error .panic := by
  obtain ⟨hne, huse⟩ := inUse_inode h hfile
  have hread := sfsRbuf_eq h.freemap.steady zeros 0 hne huse.1
    (by decide : 0 < SFS_BLKSIZE) (by decide : 0 + diskInodeSize ≤ SFS_BLKSIZE)
  have hdin : loadDiskInode (copyBytes zeros 0 (sfs.dev.block ino) 0 diskInodeSize) =
      dinOf sfs ino := by
    rw [dinOf, if_neg hout]
    apply loadDiskInode_congr
    intro k hk
    rw [copyBytes_of_mem (Nat.zero_le k) (by omega)]
    congr 1
    omega
  rw [sfsLoadInode, getState_bind, if_neg hout,
    bind_of_ok (ensureInuse_of_inUse h.freemap hne huse), bind_of_ok hread, hdin]
  split
  · next hlinks =>
    rw [ensure_bind_of hlinks]
    rfl
  · next hlinks => rw [ensure_bind_of_not hlinks]

theorem sfsLoadInode_returns (h : WellFormed sfs usage) (hfile : usage.inode ino)
    (hout : ino ∉ sfs.inodeList) {r : Except Errno Unit}
    (heq : sfsLoadInode ino sfs = .ok (r, sfs')) :
    sfs' = withLoaded sfs ino ∧ (dinOf sfs ino).nlinks ≠ 0 := by
  rw [sfsLoadInode_eq h hfile hout] at heq
  split at heq
  · next hlinks =>
    cases heq
    exact ⟨rfl, hlinks⟩
  · cases heq

/-- Loading an inode into memory changes no block map. -/
theorem wellFormed_of_load (h : WellFormed sfs usage) (hfile : usage.inode ino)
    {r : Except Errno Unit} (heq : sfsLoadInode ino sfs = .ok (r, sfs')) :
    WellFormed sfs' usage := by
  rcases Decidable.em (ino ∈ sfs.inodeList) with hin | hout
  · rw [sfsLoadInode, getState_bind, if_pos hin] at heq
    cases heq
    exact h
  · obtain ⟨hstate, _⟩ := sfsLoadInode_returns h hfile hout heq
    rw [hstate]
    exact wellFormed_withLoaded h hfile

end Steps

/-- Operations of the kernel on files, with what they return left out. -/
inductive FileOp where
  | load (ino : Nat)
  | io (ino : Nat) (iob : Iobuf) (write : Bool)
  | truncfile (ino : Nat) (len : Int)
  | fsync (ino : Nat)

def FileOp.routine : FileOp → Routine SfsFs Unit
  | .load ino => sfsLoadInode ino
  | .io ino iob write => do
      let _ ← sfsIo ino iob write
      return ()
  | .truncfile ino len => sfsTruncfile ino len
  | .fsync ino => sfsFsync ino

/-- An inode number comes from a directory entry, and the other operations get
an inode that has been loaded. -/
def FileOp.Allowed (usage : Usage) (sfs : SfsFs) : FileOp → Prop
  | .load ino => usage.inode ino
  | .io ino _ _ => ino ∈ sfs.inodeList
  | .truncfile ino _ => ino ∈ sfs.inodeList
  | .fsync ino => ino ∈ sfs.inodeList

/-- Operations one after another, whatever value or error each returns. -/
inductive Run (usage : Usage) : SfsFs → List FileOp → SfsFs → Prop
  | nil (sfs : SfsFs) : Run usage sfs [] sfs
  | cons {sfs sfs' sfs'' : SfsFs} {op : FileOp} {ops : List FileOp} {r : Except Errno Unit} :
      op.Allowed usage sfs → op.routine sfs = .ok (r, sfs') → Run usage sfs' ops sfs'' →
        Run usage sfs (op :: ops) sfs''

theorem wellFormed_of_step {sfs sfs' : SfsFs} {op : FileOp} {r : Except Errno Unit}
    (h : WellFormed sfs usage) (hallowed : op.Allowed usage sfs)
    (heq : op.routine sfs = .ok (r, sfs')) : WellFormed sfs' usage := by
  cases op with
  | load ino => exact wellFormed_of_load h hallowed heq
  | io ino iob write =>
      have hpreserves : Preserves (Opened usage ino) (FileOp.io ino iob write).routine := by
        apply Preserves.bind (preserves_sfsIo iob write)
        intro _
        exact Preserves.pure ()
      exact (hpreserves sfs r sfs' ⟨h, hallowed⟩ heq).1
  | truncfile ino len => exact (preserves_sfsTruncfile len sfs r sfs' ⟨h, hallowed⟩ heq).1
  | fsync ino => exact (preserves_sfsFsync sfs r sfs' ⟨h, hallowed⟩ heq).1

theorem wellFormed_of_run {sfs sfs' : SfsFs} {ops : List FileOp} (h : WellFormed sfs usage)
    (hrun : Run usage sfs ops sfs') : WellFormed sfs' usage := by
  induction hrun with
  | nil sfs => exact h
  | cons hallowed heq _ ih => exact ih (wellFormed_of_step h hallowed heq)

/-- The blocks that the inode `f` refers to, its own block included. -/
def Refers (sfs : SfsFs) (f b : Nat) : Prop :=
  b = f ∨ ((dinOf sfs f).indirect ≠ 0 ∧ b = (dinOf sfs f).indirect) ∨
    ∃ i, i < (dinOf sfs f).blocks ∧ b = fileBlock sfs f i

/-- The accounting of blocks, for inodes that are in memory or on disk. -/
structure BlocksAccounted (sfs : SfsFs) (usage : Usage) : Prop where
  direct : ∀ f i, usage.inode f → i < SFS_NDIRECT →
    ((dinOf sfs f).direct i ≠ 0 ↔ i < (dinOf sfs f).blocks)
  entries : ∀ f j, usage.inode f → j < SFS_BLK_NENTRY →
    ((dinOf sfs f).indirect ≠ 0 ∧ getWord (sfs.dev.block (dinOf sfs f).indirect) j ≠ 0 ↔
      SFS_NDIRECT + j < (dinOf sfs f).blocks)
  blocks_max : ∀ f, usage.inode f → (dinOf sfs f).blocks ≤ maxBlocks
  valid : ∀ f b, usage.inode f → Refers sfs f b →
    b ≠ 0 ∧ b < sfs.super.blocks ∧ sfs.freemap.bit b = false ∧ ¬usage.reserved b
  distinct : ∀ f f' b, usage.inode f → usage.inode f' → Refers sfs f b → Refers sfs f' b → f = f'
  inner : ∀ f, usage.inode f → (dinOf sfs f).indirect ≠ f ∧
    ∀ i, i < (dinOf sfs f).blocks → fileBlock sfs f i ≠ f ∧
      ((dinOf sfs f).indirect ≠ 0 → fileBlock sfs f i ≠ (dinOf sfs f).indirect) ∧
      ∀ j, j < (dinOf sfs f).blocks → fileBlock sfs f i = fileBlock sfs f j → i = j
  unused : sfs.super.unusedBlocks = freeCount sfs
  owned : ∀ b, b < sfs.super.blocks → sfs.freemap.bit b = false →
    usage.reserved b ∨ ∃! f, usage.inode f ∧ Refers sfs f b

theorem holds_of_refers {sfs : SfsFs} {f b : Nat} (hfile : usage.inode f) (h : Refers sfs f b) :
    ∃ o, Holds sfs usage o b ∧ (o = .inode f ∨ o = .indirect f ∨ ∃ i, o = .data f i) := by
  rcases h with rfl | ⟨hne, rfl⟩ | ⟨i, hi, rfl⟩
  · exact ⟨.inode b, ⟨hfile, rfl⟩, Or.inl rfl⟩
  · exact ⟨.indirect f, ⟨hfile, hne, rfl⟩, Or.inr (Or.inl rfl)⟩
  · exact ⟨.data f i, ⟨hfile, hi, rfl⟩, Or.inr (Or.inr ⟨i, rfl⟩)⟩

theorem refers_inj {sfs : SfsFs} (h : WellFormed sfs usage) {f f' b : Nat} (hfile : usage.inode f)
    (hfile' : usage.inode f') (hrefers : Refers sfs f b) (hrefers' : Refers sfs f' b) :
    f = f' := by
  obtain ⟨o, ho, hkind⟩ := holds_of_refers hfile hrefers
  obtain ⟨o', ho', hkind'⟩ := holds_of_refers hfile' hrefers'
  have heq := h.owns.inj ho ho'
  rcases hkind with rfl | rfl | ⟨i, rfl⟩
  · rcases hkind' with rfl | rfl | ⟨j, rfl⟩
    · cases heq
      rfl
    · cases heq
    · cases heq
  · rcases hkind' with rfl | rfl | ⟨j, rfl⟩
    · cases heq
    · cases heq
      rfl
    · cases heq
  · rcases hkind' with rfl | rfl | ⟨j, rfl⟩
    · cases heq
    · cases heq
    · cases heq
      rfl

theorem blocksAccounted {sfs : SfsFs} (h : WellFormed sfs usage) : BlocksAccounted sfs usage where
  direct f i hfile hi := by
    have hmapped := h.mapped f i hfile (by unfold maxBlocks; omega)
    rwa [fileBlock, blockAt_near hi] at hmapped
  entries f j hfile hj := by
    have hmapped := h.mapped f (SFS_NDIRECT + j) hfile (by unfold maxBlocks; omega)
    rw [fileBlock, blockAt_far (Nat.le_add_right _ _), Nat.add_sub_cancel_left] at hmapped
    rw [← hmapped]
    split
    · next hnone => simp [hnone]
    · next hsome => simp [hsome]
  blocks_max := h.blocks_max
  valid f b hfile hrefers := by
    obtain ⟨o, ho, hkind⟩ := holds_of_refers hfile hrefers
    have hother : ∀ k, o ≠ .reserved k := by
      rintro k rfl
      rcases hkind with heq | heq | ⟨i, heq⟩ <;> cases heq
    obtain ⟨hlt, hused⟩ := h.owns.used_of_holds ho
    refine ⟨ne_zero_of_holds h ho (hother _), hlt, hused, ?_⟩
    intro hreserved
    have hholds : Holds sfs usage (.reserved b) b := ⟨hreserved, rfl⟩
    exact hother b (h.owns.inj ho hholds)
  distinct f f' b hfile hfile' := refers_inj h hfile hfile'
  inner f hfile := by
    have hself : Holds sfs usage (.inode f) f := ⟨hfile, rfl⟩
    constructor
    · intro heq
      have hne : (dinOf sfs f).indirect ≠ 0 := by
        rw [heq]
        exact (inUse_inode h hfile).1
      have hholds : Holds sfs usage (.indirect f) f := ⟨hfile, hne, heq.symm⟩
      cases h.owns.inj hself hholds
    · intro i hi
      refine ⟨?_, data_ne_indirect h hfile hi, ?_⟩
      · intro heq
        have hholds : Holds sfs usage (.data f i) f := ⟨hfile, hi, heq.symm⟩
        cases h.owns.inj hself hholds
      · intro j hj heq
        exact fileBlock_inj h hfile hj hi heq
  unused := h.freemap.unused
  owned b hlt hused := by
    obtain ⟨o, ho⟩ := h.owns.owned ⟨hlt, hused⟩
    cases o with
    | reserved k => exact Or.inl (ho.2 ▸ ho.1)
    | inode f =>
        have hrefers : Refers sfs f b := Or.inl ho.2
        exact Or.inr ⟨f, ⟨ho.1, hrefers⟩, fun g hg => refers_inj h hg.1 ho.1 hg.2 hrefers⟩
    | indirect f =>
        have hrefers : Refers sfs f b := Or.inr (Or.inl ho.2)
        exact Or.inr ⟨f, ⟨ho.1, hrefers⟩, fun g hg => refers_inj h hg.1 ho.1 hg.2 hrefers⟩
    | data f i =>
        have hrefers : Refers sfs f b := Or.inr (Or.inr ⟨i, ho.2⟩)
        exact Or.inr ⟨f, ⟨ho.1, hrefers⟩, fun g hg => refers_inj h hg.1 ho.1 hg.2 hrefers⟩

/-- From a well-formed mounted image, every run of file operations accounts
for every block in each state it reaches. -/
theorem blocksAccounted_of_run {sfs sfs' : SfsFs} {files : Nat → Prop} {ops : List FileOp}
    (h : WellFormed sfs (imageUsage sfs.super files))
    (hrun : Run (imageUsage sfs.super files) sfs ops sfs') :
    BlocksAccounted sfs' (imageUsage sfs.super files) :=
  blocksAccounted (wellFormed_of_run h hrun)

theorem opened_smallFs : Opened smallUsage 3 smallFs :=
  ⟨wellFormed_smallFs, by decide⟩

/-- A write past the end of the small file, which takes a new block. -/
theorem blocksAccounted_of_run_smallFs : ∃ sfs',
    Run smallUsage smallFs [.io 3 (iobufInit zeros 5000 90) true] sfs' ∧
      BlocksAccounted sfs' smallUsage := by
  have hin : (3 : Nat) ∈ [3] := by decide
  obtain ⟨sfs', hrun⟩ : ∃ sfs',
      Run smallUsage smallFs [.io 3 (iobufInit zeros 5000 90) true] sfs' :=
    ⟨_, Run.cons hin rfl (Run.nil _)⟩
  exact ⟨sfs', hrun, blocksAccounted_of_run wellFormed_smallFs hrun⟩

end Ucore.SfsRuns
