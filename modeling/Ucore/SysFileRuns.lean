import Ucore.SysFileWrites

/-! Processes that share a regular file, and a write past its end in a run of their calls. -/

namespace Ucore.SysFileRuns

open Ucore.Errors
open Ucore.Panic
open Ucore.KernelRoutine
open Ucore.Triples
open Ucore.ByteBuffer
open Ucore.SfsDisk
open Ucore.SfsOwnership
open Ucore.SfsBlockMapGrow
open Ucore.SfsGaps
open Ucore.VfsFiles
open Ucore.SfsDirent
open Ucore.SfsRuns
open Ucore.SfsSettled
open Ucore.SfsIoRefinement
open Ucore.VfsReadOnly (reserved smallVfs smallPath Unaltered setFile_fdArray_self balanced_smallVfs)
open Ucore.SysFiles
open Ucore.SysFileCalls
open Ucore.SysFileWrites

structure Process where
  pwd : Option Nat
  fdArray : Nat → File

structure System where
  sfs : SfsFs
  counts : Nat → InodeCounts
  bootfs : Option Nat
  process : Nat → Process

/-- What the calls of the process `p` work on. -/
def System.view (σ : System) (p : Nat) : VfsState where
  sfs := σ.sfs
  counts := σ.counts
  pwd := (σ.process p).pwd
  bootfs := σ.bootfs
  fdArray := (σ.process p).fdArray

def System.put (σ : System) (p : Nat) (s : VfsState) : System where
  sfs := s.sfs
  counts := s.counts
  bootfs := s.bootfs
  process := Function.update σ.process p { pwd := s.pwd, fdArray := s.fdArray }

inductive Call where
  | open (path : Except Errno Path) (openFlags : Nat) (kmalloced : Option Bytes)
  | read (fd : Int) (user : Bytes) (len : Nat) (kmalloced : Option Bytes)
      (copyToUser : Nat → Nat → Bool)
  | write (fd : Int) (len : Nat) (kmalloced : Bool) (copyFromUser : Nat → Nat → Option Bytes)
  | seek (fd pos whence : Int)

/-- The code of a call, with what it returns left out. -/
def Call.routine : Call → Routine VfsState Unit
  | .open path openFlags kmalloced => do
      let _ ← sysfileOpen path openFlags kmalloced
      return ()
  | .read fd user len kmalloced copyToUser => do
      let _ ← sysfileRead fd user len kmalloced copyToUser
      return ()
  | .write fd len kmalloced copyFromUser => do
      let _ ← sysfileWrite fd len kmalloced copyFromUser
      return ()
  | .seek fd pos whence => sysfileSeek fd pos whence

/-- The call is for the file `ino`. -/
def Call.On (ino : Nat) (s : VfsState) : Call → Prop
  | .open (.ok path) _ kmalloced => Finds path kmalloced ino s
  | .open (.error _) _ _ => True
  | .read fd _ _ _ _ | .write fd _ _ _ | .seek fd _ _ => Through ino fd.toNat s

/-- A write that begins past the end of the file is one that the file supports. -/
def Call.Supported (ino : Nat) (s : VfsState) : Call → Prop
  | .write fd len kmalloced copyFromUser =>
      PastEnd ino fd s → Supports ino fd (gathered len kmalloced copyFromUser) s
  | .open _ _ _ | .read _ _ _ _ _ | .seek _ _ _ => True

/-- Calls of the processes, one after another, each of which returns. -/
inductive Run (allowed : VfsState → Call → Prop) : System → List (Nat × Call) → System → Prop
  | nil (σ : System) : Run allowed σ [] σ
  | cons {σ σ' : System} {p : Nat} {call : Call} {calls : List (Nat × Call)} {s : VfsState}
      {r : Except Errno Unit} :
      allowed (σ.view p) call → call.routine (σ.view p) = .ok (r, s) →
        Run allowed (σ.put p s) calls σ' → Run allowed σ ((p, call) :: calls) σ'

/-- The file `ino` is whole, and every process may use it. -/
def Sound (usage : Usage) (ino : Nat) (σ : System) : Prop :=
  ∀ p, Shares usage ino (σ.view p)

variable {usage : Usage} {ino : Nat} {σ σ' : System} {s s' : VfsState}

section Runs

theorem view_put_self (σ : System) (p : Nat) (s : VfsState) : (σ.put p s).view p = s := by
  have hprocess : (σ.put p s).process p = { pwd := s.pwd, fdArray := s.fdArray } :=
    Function.update_self ..
  rw [System.view, hprocess]
  rfl

theorem process_put_of_ne {p q : Nat} (hne : q ≠ p) (s : VfsState) :
    (σ.put p s).process q = σ.process q :=
  Function.update_of_ne hne ..

theorem Sound.put (h : Sound usage ino σ) {p : Nat} (hs : Shares usage ino s) :
    Sound usage ino (σ.put p s) := by
  intro q
  rcases eq_or_ne q p with rfl | hne
  · rw [view_put_self]
    exact hs
  · refine ⟨hs.whole, ?_⟩
    have hcounted := (h q).counted
    rw [System.view] at hcounted ⊢
    rw [process_put_of_ne hne]
    exact hcounted

/-- A position past the end that the file supports is one where it can grow, or is refused. -/
theorem placed_of_supported {fd : Int} {n : Nat} (hw : Writable fd s)
    (h : PastEnd ino fd s → Supports ino fd n s) : n = 0 ∨ Placed ino s fd := by
  rcases le_or_gt (position s fd) (dinOf s.sfs ino).size with hinside | hpast
  · exact .inr (.inl hinside)
  · rcases h ⟨hw, hpast⟩ with hnone | ⟨_, hbeyond | ⟨hreaches, _⟩⟩
    · exact .inl hnone
    · exact .inr (.inr (.inl hbeyond))
    · exact .inr (.inr (.inr hreaches))

/-- A routine that is for the file, with what it returns left out. -/
theorem triple_discarded {α : Type} {fd : Nat} {x : Routine VfsState α}
    (hx : Triple (fun t => t = s) x (fun _ => SharesBy usage ino fd) (SharesBy usage ino fd)) :
    Triple (fun t => t = s) (do
      let _ ← x
      return () : Routine VfsState Unit) (fun _ => Shares usage ino) (Shares usage ino) := by
  apply Triple.bind
  · apply Triple.conseq hx
    · exact fun _ heq => heq
    · exact fun _ _ h' => h'
    · exact fun _ h' => h'.toShares
  intro _
  exact Triple.pure fun _ h' => h'.toShares

theorem shares_of_call {call : Call} {r : Except Errno Unit} (h : Shares usage ino s)
    (hon : call.On ino s) (hsupported : call.Supported ino s)
    (heq : call.routine s = .ok (r, s')) : Shares usage ino s' := by
  have hpost : Triple (fun t => t = s) call.routine (fun _ => Shares usage ino)
      (Shares usage ino) := by
    cases call with
    | «open» path openFlags kmalloced =>
        cases path with
        | error e =>
            apply Triple.bind (Triple.fail fun _ heq => heq ▸ h)
            intro _
            exact Triple.pure fun _ h' => h'
        | ok path =>
            apply Triple.bind (triple_fileOpen_shares h hon)
            intro _
            exact Triple.pure fun _ h' => h'
    | read fd user len kmalloced copyToUser =>
        have hby : SharesBy usage ino fd.toNat s := ⟨h, hon⟩
        exact triple_discarded ((triple_sysfileRead user len kmalloced copyToUser).of_eq hby)
    | write fd len kmalloced copyFromUser =>
        have hby : SharesBy usage ino fd.toNat s := ⟨h, hon⟩
        apply @triple_discarded usage ino s _ fd.toNat
        rintro _ ⟨r, t⟩ rfl hrun
        have hkept := shares_of_sysfileWrite hby
          (fun hw => placed_of_supported hw hsupported) hrun
        cases r with
        | ok _ => exact hkept
        | error _ => exact hkept
    | seek fd pos whence =>
        have hby : SharesBy usage ino fd.toNat s := ⟨h, hon⟩
        apply Triple.conseq ((triple_fileSeek_shares pos whence).of_eq hby)
        · exact fun _ heq => heq
        · exact fun _ _ h' => h'.toShares
        · exact fun _ h' => h'.toShares
  have hpost := hpost s (r, s') rfl heq
  cases r with
  | ok _ => exact hpost
  | error _ => exact hpost

theorem sound_of_run {calls : List (Nat × Call)} (h : Sound usage ino σ)
    (hrun : Run (fun s call => call.On ino s ∧ call.Supported ino s) σ calls σ') :
    Sound usage ino σ' := by
  induction hrun with
  | nil σ => exact h
  | @cons σ σ' p call calls s r hallowed heq _ ih =>
      exact ih (h.put (shares_of_call (h p) hallowed.1 hallowed.2 heq))

/-- In every state of a run in which the file supports every write past its end, a write of a
process past its end is safe exactly if the file supports it. -/
theorem writesSafely_iff_of_run {calls : List (Nat × Call)} (h : Sound usage ino σ)
    (hrun : Run (fun s call => call.On ino s ∧ call.Supported ino s) σ calls σ') {p : Nat} {fd : Int}
    {len : Nat} {kmalloced : Bool} {copyFromUser : Nat → Nat → Option Bytes}
    (hthrough : Through ino fd.toNat (σ'.view p)) (hpast : PastEnd ino fd (σ'.view p)) :
    WritesSafely ino fd len kmalloced copyFromUser (σ'.view p) ↔
      Supports ino fd (gathered len kmalloced copyFromUser) (σ'.view p) :=
  writesSafely_iff ⟨sound_of_run h hrun p, hthrough⟩ hpast

end Runs

section SmallSystem

theorem whole_smallVfs : Whole smallUsage 3 smallVfs.sfs := by
  have hdin : dinOf smallVfs.sfs 3 = smallFile := by
    rw [smallVfs, dinOf_withLoaded, dinOf_smallFs]
  constructor
  case wf => exact balanced_smallVfs.settled.wf
  case loaded => decide
  case regular =>
    rw [hdin]
    rfl
  case covered =>
    rw [hdin]
    decide
  case tail =>
    intro k _ hblock
    rw [hdin] at hblock
    have hzero : k / SFS_BLKSIZE = 0 := Nat.lt_one_iff.mp hblock
    have hmap : fileBlock smallVfs.sfs 3 0 = 4 := by
      rw [fileBlock, hdin]
      rfl
    rw [byteAt, hzero, hmap]
    rfl

/-- Processes without open files, on `smallFs`. -/
def smallSystem : System where
  sfs := smallVfs.sfs
  counts := smallVfs.counts
  bootfs := smallVfs.bootfs
  process := fun _ => { pwd := smallVfs.pwd, fdArray := smallVfs.fdArray }

theorem sound_smallSystem : Sound smallUsage 3 smallSystem :=
  fun _ => ⟨whole_smallVfs, fun _ hopened => by cases hopened⟩

/-- The system after calls that return. -/
def System.after : System → List (Nat × Call) → Option System
  | σ, [] => some σ
  | σ, (p, call) :: calls =>
      match call.routine (σ.view p) with
      | .error _ => none
      | .ok (_, s) => System.after (σ.put p s) calls

theorem run_of_after_one {allowed : VfsState → Call → Prop} {p : Nat} {call : Call}
    (hallowed : allowed (σ.view p) call) (h : σ.after [(p, call)] = some σ') :
    Run allowed σ [(p, call)] σ' := by
  rw [System.after] at h
  split at h
  · cases h
  · next r s heq =>
    cases h
    exact .cons hallowed heq (.nil _)

theorem run_of_after {calls : List (Nat × Call)} :
    ∀ σ, σ.after calls = some σ' → Run (fun _ _ => True) σ calls σ' := by
  induction calls with
  | nil =>
      intro σ h
      cases h
      exact .nil _
  | cons step calls ih =>
      obtain ⟨p, call⟩ := step
      intro σ h
      rw [System.after] at h
      split at h
      · cases h
      · next r s heq => exact .cons trivial heq (ih _ h)

/-- The first process opens the file and seeks to 5000; then the second one empties it. -/
def emptiedBehind : List (Nat × Call) :=
  [(0, .open (.ok smallPath) O_RDWR (some zeros)), (0, .seek 0 5000 LSEEK_SET),
    (1, .open (.ok smallPath) (O_RDWR ||| O_TRUNC) (some zeros))]

/-- The descriptor is open on the file 3 for writing, at `pos`. -/
def ServesAt (fd : Int) (pos : Int) (s : VfsState) : Prop :=
  testfd fd = true ∧ (s.fdArray fd.toNat).status = .fdOpened ∧
    ((s.fdArray fd.toNat).fd : Int) = fd ∧ (s.fdArray fd.toNat).writable = true ∧
    (s.fdArray fd.toNat).pos = pos ∧ (s.fdArray fd.toNat).node = 3

instance (fd pos : Int) (s : VfsState) : Decidable (ServesAt fd pos s) :=
  inferInstanceAs (Decidable (_ ∧ _))

theorem ServesAt.pastEnd {fd pos : Int} (h : ServesAt fd pos s)
    (hpast : ((dinOf s.sfs 3).size : Int) < pos) : Through 3 fd.toNat s ∧ PastEnd 3 fd s := by
  obtain ⟨htest, hopened, hnamed, hwritable, hpos, hnode⟩ := h
  refine ⟨fun _ => hnode, ⟨htest, hopened, hnamed, hwritable⟩, ?_⟩
  rw [position, hpos]
  exact hpast

def panics {α : Type} : Except Abort α → Bool
  | .error .panic => true
  | _ => false

theorem eq_of_panics {α : Type} {x : Except Abort α} (h : panics x = true) : x = .error .panic := by
  unfold panics at h
  split at h
  · rfl
  · cases h

theorem not_writesSafely_emptied : ∃ σ, Run (fun _ _ => True) smallSystem emptiedBehind σ ∧
    Sound smallUsage 3 smallSystem ∧ ServesAt 0 0 (σ.view 1) ∧ Through 3 0 (σ.view 0) ∧
    PastEnd 3 0 (σ.view 0) ∧
    (dinOf σ.sfs 3).blocks < (position (σ.view 0) 0).toNat / SFS_BLKSIZE ∧
    ¬WritesSafely 3 0 1 true (fun _ _ => some zeros) (σ.view 0) := by
  have hsome : ((smallSystem.after emptiedBehind).map fun σ => decide (ServesAt 0 5000 (σ.view 0) ∧
      ServesAt 0 0 (σ.view 1) ∧ (dinOf σ.sfs 3).size = 0 ∧ (dinOf σ.sfs 3).blocks = 0) &&
        panics (sysfileWrite 0 1 true (fun _ _ => some zeros) (σ.view 0))) = some true := by
    decide +kernel
  obtain ⟨σ, hrun, hboth⟩ := Option.map_eq_some_iff.mp hsome
  obtain ⟨hshows, hpanics⟩ := Bool.and_eq_true_iff.mp hboth
  obtain ⟨hserves, hother, hsize, hblocks⟩ := of_decide_eq_true hshows
  have hpanic := eq_of_panics hpanics
  obtain ⟨hthrough, hpast⟩ := hserves.pastEnd (by
    change ((dinOf σ.sfs 3).size : Int) < 5000
    rw [hsize]
    decide)
  refine ⟨σ, run_of_after _ hrun, sound_smallSystem, hother, hthrough, hpast, ?_, ?_⟩
  · have hpos : position (σ.view 0) 0 = 5000 := hserves.2.2.2.2.1
    rw [hpos, hblocks]
    decide
  · rintro (⟨e, s', heq, _⟩ | ⟨data, s', heq, _⟩)
    · rw [hpanic] at heq
      cases heq
    · rw [hpanic] at heq
      cases heq

/-- The first process has the file open, at the position 50. -/
def halfRead : System :=
  { smallSystem with
    process := Function.update smallSystem.process 0
      { pwd := smallVfs.pwd
        fdArray := Function.update smallVfs.fdArray 0
          { status := .fdOpened, readable := true, writable := true, fd := 0, pos := 50, node := 3,
            openCount := 1 } } }

theorem sound_halfRead : Sound smallUsage 3 halfRead := by
  intro p
  refine ⟨whole_smallVfs, ?_⟩
  rcases eq_or_ne p 0 with rfl | hne
  · apply Counted.update
    · exact fun _ hopened => by cases hopened
    · exact fun _ => Nat.one_pos
  · have hfresh : (halfRead.process p).fdArray = smallVfs.fdArray := by
      have hprocess : halfRead.process p = smallSystem.process p := Function.update_of_ne hne ..
      rw [hprocess]
      rfl
    rw [System.view, hfresh]
    exact fun _ hopened => by cases hopened

/-- The inode number that the root has under the name of `smallPath`. -/
def smallIno : Option Nat :=
  match sfsDirentSearchNolock SFS_BLKN_ROOT smallPath.subpath (some zeros) smallVfs.sfs with
  | .ok (.ok (.ok found, _), _) => some found.ino
  | _ => none

theorem lists_halfRead : Lists smallPath (some zeros) SFS_BLKN_ROOT 3 (halfRead.view 1) where
  start := .inl ⟨rfl, rfl⟩
  name := by decide
  directory := by decide +kernel
  held := by decide
  few := by decide
  opens := by decide
  other := by decide
  loaded := by decide
  found := by
    have hsome : smallIno = some 3 := by decide +kernel
    rw [smallIno] at hsome
    split at hsome
    · next found empty sfs heq =>
      have hdirectory : (smallVfs.sfs.inode SFS_BLKN_ROOT).din.type = SFS_TYPE_DIR := by
        decide +kernel
      obtain ⟨hsame, _⟩ := sfsDirentSearchNolock_returns balanced_smallVfs.settled (by decide)
        hdirectory heq
      cases hsame
      exact ⟨found, empty, heq, Option.some_inj.mp hsome⟩
    · cases hsome

/-- The second process empties the file, and the first one writes a byte at its position. -/
theorem writesSafely_halfRead : ∃ σ,
    Run (fun s call => call.On 3 s ∧ call.Supported 3 s) halfRead
        [(1, .open (.ok smallPath) (O_RDWR ||| O_TRUNC) (some zeros))] σ ∧
      PastEnd 3 0 (σ.view 0) ∧ WritesSafely 3 0 1 true (fun _ _ => some zeros) (σ.view 0) := by
  let call : Call := .open (.ok smallPath) (O_RDWR ||| O_TRUNC) (some zeros)
  have hsome : ((halfRead.after [(1, call)]).map fun σ => decide (ServesAt 0 50 (σ.view 0) ∧
      (dinOf σ.sfs 3).size = 0 ∧ (dinOf σ.sfs 3).blocks = 0 ∧
        growCost (dinOf σ.sfs 3) ≤ freeCount σ.sfs ∧ Checked (σ.view 0) 3)) = some true := by
    decide +kernel
  obtain ⟨σ, hrun, hshows⟩ := Option.map_eq_some_iff.mp hsome
  obtain ⟨hserves, hsize, hblocks, hfree, hchecked⟩ := of_decide_eq_true hshows
  obtain ⟨hthrough, hpast⟩ := hserves.pastEnd (by
    change ((dinOf σ.sfs 3).size : Int) < 50
    rw [hsize]
    decide)
  have hpos : position (σ.view 0) 0 = 50 := hserves.2.2.2.2.1
  have hfinds : Finds smallPath (some zeros) 3 (halfRead.view 1) := finds_of_lists lists_halfRead
  have hcalls : Run (fun s call => call.On 3 s ∧ call.Supported 3 s) halfRead [(1, call)] σ :=
    run_of_after_one ⟨hfinds, trivial⟩ hrun
  have hsupports : Supports 3 0 (gathered 1 true fun _ _ => some zeros) (σ.view 0) := by
    refine .inr ⟨hchecked, .inr ⟨.inr ⟨?_, hfree⟩, fun hover => ?_⟩⟩
    · change (position (σ.view 0) 0).toNat / SFS_BLKSIZE = (dinOf σ.sfs 3).blocks
      rw [hpos, hblocks]
      decide
    · rw [hpos] at hover
      exact absurd hover.1 (by decide)
  exact ⟨σ, hcalls, hpast,
    (writesSafely_iff_of_run sound_halfRead hcalls hthrough hpast).mpr hsupports⟩

end SmallSystem

end Ucore.SysFileRuns
