import Ucore.VfsPaths

/-! Runs of calls on descriptors that are opened for reading. -/

namespace Ucore.VfsReadOnly

open Ucore.Errors
open Ucore.KernelRoutine
open Ucore.Triples
open Ucore.ByteBuffer
open Ucore.Ownership
open Ucore.SfsDisk
open Ucore.SfsOwnership
open Ucore.SfsIo
open Ucore.SfsIoRefinement
open Ucore.SfsRuns
open Ucore.SfsSettled
open Ucore.VfsFiles
open Ucore.VfsReferences
open Ucore.VfsPaths

/-- The descriptor holds a reference to the inode `n`. -/
def RefersTo (file : File) (n : Nat) : Prop :=
  (file.status = .fdOpened ∨ file.status = .fdClosed) ∧ file.node = n

instance (file : File) (n : Nat) : Decidable (RefersTo file n) :=
  inferInstanceAs (Decidable (_ ∧ _))

/-- References to the inode `n` from descriptors and working directories. -/
def holders (t : VfsState) (n : Nat) : Nat :=
  Nat.count (fun fd => RefersTo (t.fdArray fd) n) FILES_STRUCT_NENTRY +
    (if t.pwd = some n then 1 else 0) + if t.bootfs = some n then 1 else 0

def holding (t : VfsState) : Nat → Int :=
  fun n => holders t n

/-- The files are those of `sfs₀`, and every reference is counted. -/
def Ready (usage : Usage) (sfs₀ : SfsFs) (s : VfsState) : Prop :=
  Calm usage sfs₀ s (holding s) s

variable {usage : Usage} {sfs₀ : SfsFs} {t s : VfsState} {need : Nat → Int} {fd : Nat}

section Holding

theorem setFile_fdArray_self (v : File) : (t.setFile fd v).fdArray fd = v := by
  simp [VfsState.setFile]

end Holding

section Descriptors

/-- What the routines on descriptors start from and leave. -/
abbrev Uses (usage : Usage) (sfs₀ : SfsFs) (fd : Nat) (s : VfsState) : Prop :=
  Ready usage sfs₀ s ∧ fd < FILES_STRUCT_NENTRY ∧ (s.fdArray fd).status = .fdOpened

/-- The state in which a descriptor is reserved. -/
def reserved (s : VfsState) (fd : Nat) : VfsState :=
  s.setFile fd { s.fdArray fd with status := .fdInit, node := 0 }

theorem triple_fdArrayAlloc {E : VfsState → Prop} (hE : E s) :
    Triple (fun s' => s' = s) fdArrayAlloc
      (fun fd s' => fd < FILES_STRUCT_NENTRY ∧ (s.fdArray fd).status = .fdNone ∧
        s' = reserved s fd) E := by
  apply Triple.getState
  intro s' heq
  rw [heq]
  cases hfind : (List.range FILES_STRUCT_NENTRY).find?
      fun fd => (s.fdArray fd).status = .fdNone with
  | none => exact Triple.fail fun _ heq => heq ▸ hE
  | some fd =>
      have hnone : (s.fdArray fd).status = .fdNone := by
        simpa using List.find?_some hfind
      have hfd : fd < FILES_STRUCT_NENTRY := List.mem_range.mp (List.mem_of_find?_eq_some hfind)
      apply Triple.ensure_bind
      intro _
      apply @Triple.bind _ _ _ _ (fun _ s' => s' = reserved s fd)
      · apply Triple.modifyState
        rintro _ rfl
        rfl
      · intro _
        exact Triple.pure fun _ h => ⟨hfd, hnone, h⟩

theorem triple_fd2file {P : VfsState → Prop} (fd : Int) :
    Triple P (fd2file fd)
      (fun file s => file = fd.toNat ∧ file < FILES_STRUCT_NENTRY ∧
        (s.fdArray file).status = .fdOpened ∧ testfd fd = true ∧ P s) P := by
  apply Triple.getState
  intro s hs
  apply Triple.of_eq (P := fun s' => s' = s ∧ P s') ⟨rfl, hs⟩
  apply Triple.ite
  · rintro ⟨htest, hopened, _⟩
    have hrange : 0 ≤ fd ∧ fd < FILES_STRUCT_NENTRY := by
      simpa [testfd] using htest
    apply Triple.pure
    rintro s' ⟨rfl, hs'⟩
    exact ⟨rfl, by omega, hopened, htest, hs'⟩
  · exact fun _ => Triple.fail fun _ h => h.2

theorem triple_sfsGettype {n : Nat} {P E : VfsState → Prop} :
    Triple P (sfsGettype n) (fun _ => P) E := by
  apply Triple.getState
  intro s hs
  apply Triple.of_eq hs
  apply Triple.ite
  · exact fun _ => Triple.pure fun _ h => h
  intro _
  apply Triple.ite
  · exact fun _ => Triple.pure fun _ h => h
  intro _
  apply Triple.ite
  · exact fun _ => Triple.pure fun _ h => h
  · exact fun _ => Triple.abort _

theorem triple_vopFstat {n : Nat} {P E : VfsState → Prop} :
    Triple P (vopFstat n) (fun stat s => P s ∧ stat.stSize = (s.sfs.inode n).din.size) E := by
  apply Triple.bind triple_inodeCheck
  intro _
  apply Triple.bind triple_sfsGettype
  intro _
  apply Triple.getState
  intro s hs
  apply Triple.pure
  rintro _ rfl
  exact ⟨hs, rfl⟩

/-- The state with one more operation on the descriptor. -/
def acquired (s : VfsState) (fd : Nat) : VfsState :=
  s.setFile fd { s.fdArray fd with openCount := (s.fdArray fd).openCount + 1 }

end Descriptors

section Calls

variable {sfs₀ : SfsFs}

/-- The position that is asked for is within the file, or refused. -/
def SeeksQuietly (s : VfsState) (fd pos whence : Int) : Prop :=
  let file := s.fdArray fd.toNat
  let size := (dinOf s.sfs file.node).size
  testfd fd = true → file.status = .fdOpened →
    whence = LSEEK_SET ∨ whence = LSEEK_CUR ∨ whence = LSEEK_END →
      seekTo file.pos size pos whence ≤ size ∨
        (SFS_MAX_FILE_SIZE : Int) ≤ seekTo file.pos size pos whence

end Calls

section Runs

inductive Call where
  | open (path : Path) (openFlags : Nat) (kmalloced : Option Bytes)
  | read (fd : Int) (base : Bytes) (len : Nat)
  | seek (fd pos whence : Int)
  | fstat (fd : Int)
  | close (fd : Int)

/-- The code of a call, with what it returns left out. -/
def Call.routine : Call → Routine VfsState Unit
  | .open path openFlags kmalloced => do
      let _ ← fileOpen path openFlags kmalloced
      return ()
  | .read fd base len => do
      let _ ← fileRead fd base len
      return ()
  | .seek fd pos whence => fileSeek fd pos whence
  | .fstat fd => do
      let _ ← fileFstat fd
      return ()
  | .close fd => fileClose fd

/-- The call does not reach `vop_truncate` with another size. -/
def Call.Quiet (s : VfsState) : Call → Prop
  | .open path openFlags _ => OpensQuietly s.sfs s path openFlags
  | .seek fd pos whence => SeeksQuietly s fd pos whence
  | .read _ _ _ | .fstat _ | .close _ => True

/-- Calls one after another, each with `allowed`, whatever it returns. -/
inductive Run (allowed : VfsState → Call → Prop) : VfsState → List Call → VfsState → Prop
  | nil (s : VfsState) : Run allowed s [] s
  | cons {s s' s'' : VfsState} {call : Call} {calls : List Call} {r : Except Errno Unit} :
      allowed s call → call.routine s = .ok (r, s') → Run allowed s' calls s'' →
        Run allowed s (call :: calls) s''

/-- A process at rest: every reference it holds is counted. -/
structure Balanced (usage : Usage) (s : VfsState) : Prop where
  settled : Settled usage s.sfs
  root : usage.inode SFS_BLKN_ROOT
  held : ∀ n, holders s n ≤ (s.counts n).refCount
  cached : ∀ n, 0 < (s.counts n).refCount → n ∈ s.sfs.inodeList

theorem Balanced.ready (h : Balanced usage s) : Ready usage s.sfs s where
  settled := h.settled
  kept := AllKept.refl usage s.sfs
  held n := Int.ofNat_le.mpr (h.held n)
  cached := h.cached
  fdArray := rfl
  pwd := rfl
  bootfs := rfl

/-- The same size, number of blocks, and contents. -/
structure Unaltered (sfs sfs' : SfsFs) (f : Nat) : Prop where
  size : (dinOf sfs' f).size = (dinOf sfs f).size
  blocks : (dinOf sfs' f).blocks = (dinOf sfs f).blocks
  contents : contents sfs' f = contents sfs f

end Runs

section SmallVfs

/-- The entry of the root in `smallFs` refers to a file. -/
theorem settled_smallFs : Settled smallUsage smallFs where
  wf := wellFormed_smallFs
  fits := by
    rintro f (rfl | rfl)
    · rw [dinOf_smallFs_root]
      refine ⟨by decide, by decide, by decide, by decide, by decide, ?_, by decide⟩
      intro i hi
      exact if_neg (Nat.ne_of_gt (lt_of_lt_of_le (by decide) hi))
    · rw [dinOf_smallFs]
      refine ⟨by decide, by decide, by decide, by decide, by decide, ?_, by decide⟩
      intro i hi
      exact if_neg (Nat.ne_of_gt (lt_of_lt_of_le (by decide) hi))
  covered := by
    rintro f (rfl | rfl) hregular
    · rw [dinOf_smallFs_root] at hregular
      cases hregular
    · rw [dinOf_smallFs]
      decide
  entries := by
    rintro d slot (rfl | rfl) htype hslot _
    · rw [dinOf_smallFs_root] at hslot
      have hzero : slot = 0 := Nat.lt_one_iff.mp hslot
      rw [slotBlock, fileBlock_smallFs_root, if_pos hzero]
      exact Or.inr (by decide +kernel)
    · rw [dinOf_smallFs] at htype
      cases htype
  clean := by
    intro f hf _
    have hfile : f = 3 := List.mem_singleton.mp hf
    rw [hfile]
    apply loadDiskInode_diskInodeBytes (by decide) (by decide) (by decide) (by decide)
      (by decide) ?_ (by decide)
    intro i hi
    exact if_neg (Nat.ne_of_gt (lt_of_lt_of_le (by decide) hi))
  linked := by
    intro f hf
    have hfile : f = 3 := List.mem_singleton.mp hf
    rw [hfile]
    decide

/-- `smallFs` with its root in memory, which is the working directory and the
boot file system; the file `a` is in use by someone else. -/
def smallVfs : VfsState where
  sfs := withLoaded smallFs SFS_BLKN_ROOT
  counts := fun n =>
    if n = SFS_BLKN_ROOT then { refCount := 2, openCount := 0, reclaimCount := 1 }
    else if n = 3 then { refCount := 1, openCount := 0, reclaimCount := 1 }
    else { refCount := 0, openCount := 0, reclaimCount := 0 }
  pwd := some SFS_BLKN_ROOT
  bootfs := some SFS_BLKN_ROOT
  fdArray := fun fd =>
    { status := .fdNone, readable := false, writable := false, fd := fd, pos := 0, node := 0,
      openCount := 0 }

def smallPath : Path where
  start := .curdir
  subpath := { chars := [97], nonzero := by simp }

theorem balanced_smallVfs : Balanced smallUsage smallVfs where
  settled := by
    apply settled_withLoaded settled_smallFs (Or.inl rfl) (by decide)
    rw [dinOf_smallFs_root]
    decide
  root := Or.inl rfl
  held n := by
    have hnone : Nat.count (fun fd => RefersTo (smallVfs.fdArray fd) n) FILES_STRUCT_NENTRY = 0 := by
      rw [Nat.count_eq_card_filter_range, Finset.card_eq_zero]
      apply Finset.filter_eq_empty_iff.mpr
      rintro fd _ ⟨hopened | hclosed, _⟩
      · cases hopened
      · cases hclosed
    rw [holders, hnone]
    change 0 + (if some SFS_BLKN_ROOT = some n then 1 else 0) +
      (if some SFS_BLKN_ROOT = some n then 1 else 0) ≤ _
    rcases eq_or_ne n SFS_BLKN_ROOT with rfl | hne
    · decide
    · rw [if_neg (by simpa using hne.symm)]
      omega
  cached n hn := by
    change n ∈ [SFS_BLKN_ROOT, 3]
    change 0 < (if n = SFS_BLKN_ROOT then _ else if n = 3 then _ else _ : InodeCounts).refCount at hn
    rcases eq_or_ne n SFS_BLKN_ROOT with rfl | hroot
    · decide
    · rcases eq_or_ne n 3 with rfl | hother
      · decide
      · rw [if_neg hroot, if_neg hother] at hn
        exact absurd hn (lt_irrefl 0)

/-- The state after a call that returns. -/
def Call.after (call : Call) (s : VfsState) : Option VfsState :=
  match call.routine s with
  | .error _ => none
  | .ok (_, s') => some s'

end SmallVfs

end Ucore.VfsReadOnly
