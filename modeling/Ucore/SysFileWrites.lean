import Ucore.SfsTransfers
import Ucore.SysFileCalls

/-! Writing through a descriptor of a regular file, at or past its end. -/

namespace Ucore.SysFileWrites

open Ucore.Errors
open Ucore.KernelRoutine
open Ucore.ByteBuffer
open Ucore.Splice
open Ucore.SfsDisk
open Ucore.SfsOwnership
open Ucore.SfsBlockMapGrow
open Ucore.SfsIo
open Ucore.SfsIoRefinement
open Ucore.SfsCapacity
open Ucore.SfsGaps
open Ucore.SfsTransfers
open Ucore.VfsFiles
open Ucore.VfsReadOnly
open Ucore.SysFiles
open Ucore.SysFileCalls

variable {usage : Usage} {ino fd : Nat} {s s' : VfsState} {sfs' : SfsFs}

section Writing

/-- The descriptor is open, and may be written to. -/
structure Writable (fd : Int) (s : VfsState) : Prop where
  test : testfd fd = true
  opened : (s.fdArray fd.toNat).status = .fdOpened
  named : ((s.fdArray fd.toNat).fd : Int) = fd
  writable : (s.fdArray fd.toNat).writable = true

/-- The counts of the inode pass `inode_check`. -/
def Checked (s : VfsState) (node : Nat) : Prop :=
  (s.counts node).openCount ≤ (s.counts node).refCount ∧
    (s.counts node).refCount < MAX_INODE_COUNT ∧ (s.counts node).openCount < MAX_INODE_COUNT

instance (s : VfsState) (node : Nat) : Decidable (Checked s node) :=
  inferInstanceAs (Decidable (_ ∧ _))

/-- After `n` bytes have been written through the descriptor. -/
def moved (s : VfsState) (fd : Nat) (sfs : SfsFs) (n : Nat) : VfsState :=
  { s with sfs := sfs }.setFile fd { s.fdArray fd with pos := (s.fdArray fd).pos + n }

theorem moved_zero (s : VfsState) (fd : Nat) : moved s fd s.sfs 0 = s := by
  have hpos : (s.fdArray fd).pos + ((0 : Nat) : Int) = (s.fdArray fd).pos := Int.add_zero _
  rw [moved, hpos]
  simp [VfsState.setFile]

theorem fdArray_moved_self (s : VfsState) (fd : Nat) (sfs : SfsFs) (n : Nat) :
    (moved s fd sfs n).fdArray fd = { s.fdArray fd with pos := (s.fdArray fd).pos + n } :=
  setFile_fdArray_self _

theorem shares_moved (h : SharesBy usage ino fd s) (hwhole : Whole usage ino sfs') (n : Nat) :
    SharesBy usage ino fd (moved s fd sfs' n) :=
  (h.withSfs hwhole).setFile fun hopened => ⟨h.through hopened, h.counted fd hopened⟩

theorem Writable.moved {fd : Int} (h : Writable fd s) (sfs : SfsFs) (n : Nat) :
    Writable fd (moved s fd.toNat sfs n) where
  test := h.test
  opened := by
    rw [fdArray_moved_self]
    exact h.opened
  named := by
    rw [fdArray_moved_self]
    exact h.named
  writable := by
    rw [fdArray_moved_self]
    exact h.writable

/-- The descriptor, if it is open, is for a regular file; the device may fail. -/
structure Uses (ino fd : Nat) (s : VfsState) : Prop where
  file : RegularFile ino s.sfs
  counted : Counted s.fdArray
  through : Through ino fd s

theorem regularFile_of_whole {sfs : SfsFs} (h : Whole usage ino sfs) : RegularFile ino sfs :=
  ⟨⟨⟨usage, h.calm⟩, h.loaded⟩, h.regular, h.covered⟩

theorem uses_of_shares (h : SharesBy usage ino fd s) : Uses ino fd s :=
  ⟨regularFile_of_whole h.whole, h.counted, h.through⟩

theorem Uses.moved (h : Uses ino fd s) (hfile : RegularFile ino sfs') (n : Nat) :
    Uses ino fd (moved s fd sfs' n) where
  file := hfile
  counted := h.counted.update fun hopened => h.counted fd hopened
  through := by
    unfold Through
    rw [fdArray_moved_self]
    exact h.through

theorem fd2file_of_opened {fd : Int} (htest : testfd fd = true)
    (hopened : (s.fdArray fd.toNat).status = .fdOpened)
    (hnamed : ((s.fdArray fd.toNat).fd : Int) = fd) : fd2file fd s = .ok (.ok fd.toNat, s) := by
  rw [fd2file, getState_bind, if_pos ⟨htest, hopened, hnamed⟩]
  rfl

theorem fd2file_of_writable {fd : Int} (h : Writable fd s) :
    fd2file fd s = .ok (.ok fd.toNat, s) :=
  fd2file_of_opened h.test h.opened h.named

theorem fdArrayAcquire_of_opened (h : (s.fdArray fd).status = .fdOpened) :
    fdArrayAcquire fd s = .ok (.ok (), acquired s fd) := by
  rw [fdArrayAcquire, getState_bind, ensure_bind_of h]
  rfl

theorem fdArrayRelease_of_opened (h : (s.fdArray fd).status = .fdOpened)
    (hmore : 1 < (s.fdArray fd).openCount) : fdArrayRelease fd s =
      .ok (.ok (), s.setFile fd { s.fdArray fd with
        openCount := (s.fdArray fd).openCount - 1 }) := by
  rw [fdArrayRelease, getState_bind, ensure_bind_of (.inl h), ensure_bind_of (by omega)]
  simp only [modifyFile, modifyState_bind]
  rw [if_neg (by omega)]
  rfl

theorem fdArray_acquired (s : VfsState) (fd : Nat) : (acquired s fd).fdArray fd =
    { s.fdArray fd with openCount := (s.fdArray fd).openCount + 1 } :=
  setFile_fdArray_self _

theorem inodeCheck_of_checked (h : Checked s ino) : inodeCheck ino s = .ok (.ok (), s) := by
  rw [inodeCheck, getState_bind]
  exact if_pos h

theorem inodeCheck_of_not (h : ¬Checked s ino) : inodeCheck ino s = .error .panic := by
  rw [inodeCheck, getState_bind]
  exact if_neg h

theorem vopWrite_of_checked {iob : Iobuf} (h : RegularFile ino s.sfs) (hchecked : Checked s ino) :
    vopWrite ino iob s = onSfs (sfsIo ino iob true) s := by
  have hregular := h.regular
  rw [dinOf_loaded h.loaded] at hregular
  rw [vopWrite, getState_bind, ensure_bind_of hregular,
    bind_of_ok (inodeCheck_of_checked hchecked)]

/-- The end of `file_read` and `file_write`, after the operation on the inode. -/
def afterTransfer (fd : Nat) (iob : Iobuf) : Routine VfsState Unit := do
  modifyFile fd fun file =>
    if file.status = .fdOpened then { file with pos := file.pos + iobufUsed iob } else file
  fdArrayRelease fd

/-- The position moves by what has been transferred. -/
theorem afterTransfer_of (hopened : (s.fdArray fd).status = .fdOpened)
    (hcount : 0 < (s.fdArray fd).openCount) (sfs' : SfsFs) (iob : Iobuf) :
    afterTransfer fd iob { acquired s fd with sfs := sfs' } =
      .ok (.ok (), moved s fd sfs' (iobufUsed iob)) := by
  have hacquired := fdArray_acquired s fd
  simp only [afterTransfer, modifyFile, modifyState_bind]
  have hopened' : ((acquired s fd).fdArray fd).status = .fdOpened := by
    rw [hacquired]
    exact hopened
  rw [if_pos hopened']
  have hentry : (({ acquired s fd with sfs := sfs' }.setFile fd
      { (acquired s fd).fdArray fd with
        pos := ((acquired s fd).fdArray fd).pos + (iobufUsed iob : Nat) }).fdArray fd) =
          { s.fdArray fd with
            pos := (s.fdArray fd).pos + (iobufUsed iob : Nat)
            openCount := (s.fdArray fd).openCount + 1 } := by
    rw [setFile_fdArray_self, hacquired]
  rw [fdArrayRelease_of_opened ?_ ?_]
  · rw [hentry]
    simp only [acquired, moved, VfsState.setFile, Function.update_idem, Nat.add_sub_cancel]
  · rw [hentry]
    exact hopened
  · rw [hentry]
    simp only
    omega

/-- The end of `file_write`, after `vop_write`. -/
def afterWrite (fd : Nat) (r : Except Errno Unit) (iob : Iobuf) :
    Routine VfsState (Except Errno Unit × Nat) := do
  modifyFile fd fun file =>
    if file.status = .fdOpened then { file with pos := file.pos + iobufUsed iob } else file
  fdArrayRelease fd
  return (r, iobufUsed iob)

theorem afterWrite_eq (fd : Nat) (r : Except Errno Unit) (iob : Iobuf) :
    afterWrite fd r iob = (afterTransfer fd iob >>= fun _ => pure (r, iobufUsed iob)) := by
  rw [afterWrite, afterTransfer, routine_bind_assoc]

theorem fileWrite_eq {fd : Int} (h : Uses ino fd.toNat s) (hw : Writable fd s)
    (base : Bytes) (len : Nat) :
    fileWrite fd base len s =
      (vopWrite ino (iobufInit base len (s.fdArray fd.toNat).pos) >>= fun p =>
        afterWrite fd.toNat p.1 p.2) (acquired s fd.toNat) := by
  have hnode := h.through hw.opened
  have hwritable : ¬(s.fdArray fd.toNat).writable = false := by
    rw [hw.writable]
    decide
  rw [fileWrite, bind_of_ok (fd2file_of_writable hw), getState_bind, if_neg hwritable, writeFile,
    bind_of_ok (fdArrayAcquire_of_opened hw.opened), getState_bind, fdArray_acquired]
  simp only [hnode]
  rfl

/-- `file_write` moves the position by what has been written. -/
theorem fileWrite_of_run {fd : Int} (h : Uses ino fd.toNat s) (hw : Writable fd s)
    (hchecked : Checked s ino) {base : Bytes} {len : Nat} {r : Except Errno Unit} {iob : Iobuf}
    (hrun : sfsIo ino (iobufInit base len (s.fdArray fd.toNat).pos) true s.sfs =
      .ok (.ok (r, iob), sfs')) :
    fileWrite fd base len s =
      .ok (.ok (r, iobufUsed iob), moved s fd.toNat sfs' (iobufUsed iob)) := by
  have hwrite : vopWrite ino (iobufInit base len (s.fdArray fd.toNat).pos)
      (acquired s fd.toNat) = .ok (.ok (r, iob), { acquired s fd.toNat with sfs := sfs' }) := by
    have hchecked' : Checked (acquired s fd.toNat) ino := hchecked
    have hfile : RegularFile ino (acquired s fd.toNat).sfs := h.file
    have hrun' : sfsIo ino (iobufInit base len (s.fdArray fd.toNat).pos) true
        (acquired s fd.toNat).sfs = .ok (.ok (r, iob), sfs') := hrun
    rw [vopWrite_of_checked hfile hchecked', onSfs, hrun']
  have hafter := afterTransfer_of hw.opened (h.counted _ hw.opened) sfs' iob
  rw [fileWrite_eq h hw, bind_of_ok hwrite]
  simp only [afterWrite_eq]
  exact bind_of_ok hafter

/-- `file_write` panics where `inode_check` or `sfs_io` does. -/
theorem fileWrite_of_panic {fd : Int} (h : Uses ino fd.toNat s) (hw : Writable fd s)
    {base : Bytes} {len : Nat} (hpanic : ¬Checked s ino ∨
      sfsIo ino (iobufInit base len (s.fdArray fd.toNat).pos) true s.sfs = .error .panic) :
    fileWrite fd base len s = .error .panic := by
  have hfile : RegularFile ino (acquired s fd.toNat).sfs := h.file
  have hwrite : vopWrite ino (iobufInit base len (s.fdArray fd.toNat).pos)
      (acquired s fd.toNat) = .error .panic := by
    by_cases hchecked : Checked (acquired s fd.toNat) ino
    · have hrun : sfsIo ino (iobufInit base len (s.fdArray fd.toNat).pos) true
          (acquired s fd.toNat).sfs = .error .panic := hpanic.resolve_left (not_not.mpr hchecked)
      rw [vopWrite_of_checked hfile hchecked, onSfs, hrun]
    · have hregular := hfile.regular
      rw [dinOf_loaded hfile.loaded] at hregular
      rw [vopWrite, getState_bind, ensure_bind_of hregular,
        bind_of_abort (inodeCheck_of_not hchecked)]
  rw [fileWrite_eq h hw]
  exact bind_of_abort hwrite

/-- The position of the descriptor. -/
abbrev position (s : VfsState) (fd : Int) : Int :=
  (s.fdArray fd.toNat).pos

/-- What one round of `sysfile_write` does, by where the position is. -/
inductive Round (usage : Usage) (ino : Nat) (fd : Int) (base : Bytes) (len : Nat) (s : VfsState) :
    Prop
  | panics (hwhy : ¬Checked s ino ∨ ∃ offset : Nat, position s fd = offset ∧
        offset < SFS_MAX_FILE_SIZE ∧ ((dinOf s.sfs ino).blocks < offset / SFS_BLKSIZE ∨
          Overruns s.sfs ino (offset + len)))
      (heq : fileWrite fd base len s = .error .panic)
  | refused (hchecked : Checked s ino)
      (hrange : position s fd < 0 ∨ (SFS_MAX_FILE_SIZE : Int) ≤ position s fd)
      (heq : fileWrite fd base len s = .ok (.ok (.error .eInval, 0), s))
  | stores (offset : Nat) (r : Except Errno Unit) (m : Nat) (sfs' : SfsFs)
      (hchecked : Checked s ino) (hoffset : position s fd = offset)
      (hmax : offset < SFS_MAX_FILE_SIZE) (hgood : ¬Overruns s.sfs ino (offset + len))
      (hreaches : Reaches s.sfs ino offset)
      (heq : fileWrite fd base len s = .ok (.ok (r, m), moved s fd.toNat sfs' m)) (hsome : 0 < m)
      (hle : m ≤ len) (hstored : Stored usage ino base offset m s.sfs sfs')
      (hresult : r = .ok () ∧ m = len ∨ r = .error .eNoMem ∧ ¬Fills s.sfs ino)
  | short (offset : Nat) (sfs' : SfsFs) (hchecked : Checked s ino)
      (hoffset : position s fd = offset)
      (hmax : offset < SFS_MAX_FILE_SIZE) (hgood : ¬Overruns s.sfs ino (offset + len))
      (hlast : offset / SFS_BLKSIZE = (dinOf s.sfs ino).blocks)
      (hfew : freeCount s.sfs < growCost (dinOf s.sfs ino))
      (heq : fileWrite fd base len s =
        .ok (.ok (.error .eNoMem, 0), moved s fd.toNat sfs' 0))
      (hresult : (dinOf s.sfs ino).size < offset ∧ (dinOf sfs' ino).size = offset ∨
        offset ≤ (dinOf s.sfs ino).size ∧ Untouched s.sfs sfs' usage)

theorem fileWrite_round {fd : Int} (h : SharesBy usage ino fd.toNat s) (hw : Writable fd s) (base : Bytes)
    {len : Nat} (hpos : 0 < len) (hlen : len ≤ IOBUF_SIZE) : Round usage ino fd base len s := by
  by_cases hchecked : Checked s ino
  swap
  · exact .panics (.inl hchecked) (fileWrite_of_panic (uses_of_shares h) hw (.inl hchecked))
  by_cases hrange : position s fd < 0 ∨ (SFS_MAX_FILE_SIZE : Int) ≤ position s fd
  · obtain ⟨iob, hrun, hused⟩ := @sfsIo_refused usage ino s.sfs base len h.whole _ hrange
    have hwrite := fileWrite_of_run (uses_of_shares h) hw hchecked hrun
    rw [hused, moved_zero] at hwrite
    exact .refused hchecked hrange hwrite
  obtain ⟨offset, hoffset⟩ := Int.eq_ofNat_of_zero_le
    (not_lt.mp fun hneg => hrange (.inl hneg))
  have hmax : offset < SFS_MAX_FILE_SIZE := by
    rw [hoffset] at hrange
    generalize SFS_MAX_FILE_SIZE = m at hrange ⊢
    omega
  by_cases hbad : (dinOf s.sfs ino).blocks < offset / SFS_BLKSIZE ∨
      Overruns s.sfs ino (offset + len)
  · have hpanic := @sfsIo_panics usage ino s.sfs base _ _ h.whole hpos hlen hmax hbad
    rw [← hoffset] at hpanic
    exact .panics (.inr ⟨offset, hoffset, hmax, hbad⟩) (fileWrite_of_panic (uses_of_shares h) hw (.inr hpanic))
  have hgood : ¬Overruns s.sfs ino (offset + len) := fun hover => hbad (.inr hover)
  by_cases hreaches : Reaches s.sfs ino offset
  · obtain ⟨r, m, iob, sfs', hrun, hused, hsome, hle, hstored, hresult⟩ :=
      @sfsIo_stores usage ino s.sfs base _ _ h.whole hpos hlen hmax hreaches hgood
    rw [← hoffset] at hrun
    have hwrite := fileWrite_of_run (uses_of_shares h) hw hchecked hrun
    rw [hused] at hwrite
    exact .stores offset r m sfs' hchecked hoffset hmax hgood hreaches hwrite hsome hle hstored
      hresult
  · have hlast : offset / SFS_BLKSIZE = (dinOf s.sfs ino).blocks := by
      have hnot : ¬offset / SFS_BLKSIZE < (dinOf s.sfs ino).blocks := fun hlt => hreaches (.inl hlt)
      have hle : ¬(dinOf s.sfs ino).blocks < offset / SFS_BLKSIZE := fun hlt => hbad (.inl hlt)
      omega
    have hfew : freeCount s.sfs < growCost (dinOf s.sfs ino) :=
      not_le.mp fun hle => hreaches (.inr ⟨hlast, hle⟩)
    obtain ⟨iob, sfs', hrun, hused, hresult⟩ :=
      @sfsIo_short usage ino s.sfs base _ _ h.whole hpos hlen hmax hlast hfew hgood
    rw [← hoffset] at hrun
    have hwrite := fileWrite_of_run (uses_of_shares h) hw hchecked hrun
    rw [hused] at hwrite
    exact .short offset sfs' hchecked hoffset hmax hgood hlast hfew hwrite hresult

theorem position_moved (s : VfsState) (fd : Int) (sfs : SfsFs) (n : Nat) :
    position (moved s fd.toNat sfs n) fd = position s fd + n := by
  rw [position, fdArray_moved_self]

/-- A round from the end of the file on, or past it, leaves the position at the new end. -/
theorem position_of_stored {fd : Int} {buf : Bytes} {offset m : Nat}
    (hoffset : position s fd = offset) (hinside : (dinOf s.sfs ino).size ≤ offset)
    (hstored : Stored usage ino buf offset m s.sfs sfs') :
    (dinOf sfs' ino).size = offset + m ∧
      position (moved s fd.toNat sfs' m) fd = ((dinOf sfs' ino).size : Int) := by
  have hsize : (dinOf sfs' ino).size = offset + m := by
    rw [hstored.size]
    omega
  refine ⟨hsize, ?_⟩
  rw [position_moved, hoffset, hsize]
  rfl

/-- A round that fails leaves the file whole, if it begins in the file or where it can grow. -/
theorem whole_of_untouched_or {offset : Nat} {sfs sfs' : SfsFs} (h : Whole usage ino sfs)
    (hlast : offset / SFS_BLKSIZE = (dinOf sfs ino).blocks)
    (hfew : freeCount sfs < growCost (dinOf sfs ino))
    (hplace : offset ≤ (dinOf sfs ino).size ∨ Reaches sfs ino offset)
    (hresult : (dinOf sfs ino).size < offset ∧ (dinOf sfs' ino).size = offset ∨
      offset ≤ (dinOf sfs ino).size ∧ Untouched sfs sfs' usage) : Whole usage ino sfs' := by
  rcases hresult with ⟨hpast, _⟩ | ⟨_, huntouched⟩
  · rcases hplace with hle | hlt | ⟨_, hfree⟩
    · exact absurd hpast (not_lt.mpr hle)
    · exact absurd hlast (Nat.ne_of_lt hlt)
    · exact absurd hfew (not_lt.mpr hfree)
  · exact h.of_untouched huntouched

/-- Where a write may begin: in the file, where the file can grow, or where it is refused. -/
def Placed (ino : Nat) (s : VfsState) (fd : Int) : Prop :=
  position s fd ≤ (dinOf s.sfs ino).size ∨ (SFS_MAX_FILE_SIZE : Int) ≤ position s fd ∨
    Reaches s.sfs ino (position s fd).toNat

/-- The bytes of user memory that the loop of `sysfile_write` finds, one buffer after another. -/
def supplied (copyFromUser : Nat → Nat → Option Bytes) : Nat → Nat → Nat → Nat
  | 0, _, _ => 0
  | fuel + 1, len, copied =>
      if len = 0 then 0
      else
        match copyFromUser copied (min IOBUF_SIZE len) with
        | none => 0
        | some _ => min IOBUF_SIZE len +
            supplied copyFromUser fuel (len - min IOBUF_SIZE len) (copied + min IOBUF_SIZE len)

section Rounds

variable {fd : Int} {copyFromUser : Nat → Nat → Option Bytes} {fuel len copied : Nat}
  {buffer : Bytes}

theorem writeChunks_panic (hpos : 0 < len)
    (hcopy : copyFromUser copied (min IOBUF_SIZE len) = some buffer)
    (hrun : fileWrite fd buffer (min IOBUF_SIZE len) s = .error .panic) :
    writeChunks fd copyFromUser (fuel + 1) len copied s = .error .panic := by
  have hattempt : attempt (fileWrite fd buffer (min IOBUF_SIZE len)) s = .error .panic := by
    simp only [attempt, hrun]
  rw [writeChunks, if_neg (Nat.ne_of_gt hpos), hcopy]
  exact bind_of_abort hattempt

theorem writeChunks_last (hpos : 0 < len)
    (hcopy : copyFromUser copied (min IOBUF_SIZE len) = some buffer) {r : Except Errno Unit}
    (hrun : fileWrite fd buffer (min IOBUF_SIZE len) s = .ok (.ok (r, 0), s')) :
    writeChunks fd copyFromUser (fuel + 1) len copied s = .ok (.ok (r, copied), s') := by
  rw [writeChunks, if_neg (Nat.ne_of_gt hpos), hcopy]
  exact attempt_bind_of_ok hrun _

theorem writeChunks_fails (hpos : 0 < len)
    (hcopy : copyFromUser copied (min IOBUF_SIZE len) = some buffer) {e : Errno} {m : Nat}
    (hsome : 0 < m) (hle : m ≤ len)
    (hrun : fileWrite fd buffer (min IOBUF_SIZE len) s = .ok (.ok (.error e, m), s')) :
    writeChunks fd copyFromUser (fuel + 1) len copied s =
      .ok (.ok (.error e, copied + m), s') := by
  rw [writeChunks, if_neg (Nat.ne_of_gt hpos), hcopy]
  refine (attempt_bind_of_ok hrun _).trans ?_
  simp only [if_neg (Nat.ne_of_gt hsome)]
  exact ensure_bind_of hle _ s'

theorem writeChunks_goes_on (hpos : 0 < len)
    (hcopy : copyFromUser copied (min IOBUF_SIZE len) = some buffer) {m : Nat}
    (hsome : 0 < m) (hle : m ≤ len)
    (hrun : fileWrite fd buffer (min IOBUF_SIZE len) s = .ok (.ok (.ok (), m), s')) :
    writeChunks fd copyFromUser (fuel + 1) len copied s =
      writeChunks fd copyFromUser fuel (len - m) (copied + m) s' := by
  rw [writeChunks, if_neg (Nat.ne_of_gt hpos), hcopy]
  refine (attempt_bind_of_ok hrun _).trans ?_
  simp only [if_neg (Nat.ne_of_gt hsome)]
  exact ensure_bind_of hle _ s'

end Rounds

theorem shares_of_writeChunks {fd : Int} {copyFromUser : Nat → Nat → Option Bytes} (fuel : Nat) :
    ∀ len copied s (r : Except Errno (Except Errno Unit × Nat)) s', SharesBy usage ino fd.toNat s →
      Writable fd s → (supplied copyFromUser fuel len copied = 0 ∨ Placed ino s fd) →
      writeChunks fd copyFromUser fuel len copied s = .ok (r, s') → SharesBy usage ino fd.toNat s' := by
  induction fuel with
  | zero =>
      intro len copied s r s' h _ _ heq
      cases heq
      exact h
  | succ fuel ih =>
      intro len copied s r s' h hw hplaced heq
      rw [supplied] at hplaced
      rcases Nat.eq_zero_or_pos len with rfl | hpos
      · cases heq
        exact h
      rw [if_neg (Nat.ne_of_gt hpos)] at hplaced
      match hcopy : copyFromUser copied (min IOBUF_SIZE len) with
      | none =>
          rw [writeChunks, if_neg (Nat.ne_of_gt hpos), hcopy] at heq
          cases heq
          exact h
      | some buffer =>
          rw [hcopy] at hplaced
          have hchunk : 0 < min IOBUF_SIZE len := lt_min (by decide) hpos
          have hplaced := hplaced.resolve_left (by simp only; omega)
          rcases fileWrite_round h hw buffer hchunk (min_le_left _ _) with
            ⟨_, hrun⟩ | ⟨_, _, hrun⟩ |
            ⟨offset, r₁, m, sfs₁, _, hoffset, _, _, _, hrun, hsome, hle, hstored, hresult⟩ |
            ⟨offset, sfs₁, _, hoffset, hmax, _, hlast, hfew, hrun, hresult⟩
          · rw [writeChunks_panic hpos hcopy hrun] at heq
            cases heq
          · rw [writeChunks_last hpos hcopy hrun] at heq
            cases heq
            exact h
          · have hmoved : SharesBy usage ino fd.toNat (moved s fd.toNat sfs₁ m) := shares_moved h hstored.whole m
            have hbound : m ≤ len := le_trans hle (min_le_right _ _)
            rcases hresult with ⟨rfl, _⟩ | ⟨rfl, _⟩
            · rw [writeChunks_goes_on hpos hcopy hsome hbound hrun] at heq
              refine ih _ _ _ r s' hmoved (hw.moved _ _) (.inr (.inl ?_)) heq
              have hsize : offset + m ≤ (dinOf sfs₁ ino).size := by
                rw [hstored.size]
                exact le_max_right _ _
              rw [position_moved, hoffset]
              exact Int.ofNat_le.mpr hsize
            · rw [writeChunks_fails hpos hcopy hsome hbound hrun] at heq
              cases heq
              exact hmoved
          · rw [writeChunks_last hpos hcopy hrun] at heq
            cases heq
            refine shares_moved h (whole_of_untouched_or h.whole hlast hfew ?_ hresult) 0
            rcases hplaced with hinside | hbeyond | hreaches
            · rw [hoffset] at hinside
              exact .inl (Int.ofNat_le.mp hinside)
            · rw [hoffset] at hbeyond
              exact absurd hmax (not_lt.mpr (Int.ofNat_le.mp hbeyond))
            · rw [hoffset] at hreaches
              exact .inr hreaches

/-- The data is put at `offset`, behind zeros from the end of the file on. -/
def Appends (sfs sfs' : SfsFs) (ino offset : Nat) (data : List UInt8) : Prop :=
  data = [] ∧ Unaltered sfs sfs' ino ∨
    data ≠ [] ∧ contents sfs' ino =
      contents sfs ino ++ List.replicate (offset - (dinOf sfs ino).size) 0 ++ data

theorem Appends.of_stored {buf : Bytes} {offset m : Nat} {sfs sfs' : SfsFs} (hsome : 0 < m)
    (hstored : Stored usage ino buf offset m sfs sfs') (hpast : (dinOf sfs ino).size ≤ offset) :
    Appends sfs sfs' ino offset (tabulate m buf) := by
  refine .inr ⟨?_, hstored.contents_eq hpast⟩
  rw [Ne, ← List.length_eq_zero_iff, length_tabulate]
  omega

/-- Data that is stored at the end of what has been appended. -/
theorem Appends.append {buf : Bytes} {offset m : Nat} {sfs sfs₁ sfs' : SfsFs} {data : List UInt8}
    (hsome : 0 < m) (hstored : Stored usage ino buf offset m sfs sfs₁)
    (hpast : (dinOf sfs ino).size ≤ offset) (h : Appends sfs₁ sfs' ino (offset + m) data) :
    Appends sfs sfs' ino offset (tabulate m buf ++ data) := by
  have hfirst := hstored.contents_eq hpast
  have hsize : (dinOf sfs₁ ino).size = offset + m := by
    rw [hstored.size]
    omega
  have hne : tabulate m buf ++ data ≠ [] := by
    rw [Ne, ← List.length_eq_zero_iff, List.length_append, length_tabulate]
    omega
  refine .inr ⟨hne, ?_⟩
  rcases h with ⟨rfl, hsame⟩ | ⟨_, hnext⟩
  · rw [hsame.contents, hfirst, List.append_nil]
  · rw [hnext, hsize, Nat.sub_self, List.replicate_zero, List.append_nil, hfirst,
      List.append_assoc]

theorem unaltered_of_untouched {sfs sfs' : SfsFs} (h : Whole usage ino sfs)
    (huntouched : Untouched sfs sfs' usage) : Unaltered sfs sfs' ino := by
  have hkept := huntouched.kept ino (h.wf.loaded ino h.loaded)
  constructor
  · rw [hkept.din]
  · rw [hkept.din]
  · exact contents_kept hkept h.blocks_max (blocksFor_le h.covered)

theorem overruns_mono {sfs : SfsFs} {n m : Nat} (h : Overruns sfs ino n) (hle : n ≤ m) :
    Overruns sfs ino m :=
  ⟨lt_of_lt_of_le h.1 (blocksFor_mono hle), h.2⟩

theorem below_of_whole {sfs : SfsFs} (h : Whole usage ino sfs) :
    (dinOf sfs ino).size / SFS_BLKSIZE ≤ (dinOf sfs ino).blocks := by
  apply Nat.div_le_of_le_mul
  rw [Nat.mul_comm]
  exact h.covered

/-- The block map ends below the largest size. -/
theorem size_lt_max {sfs : SfsFs} (h : Whole usage ino sfs) :
    (dinOf sfs ino).size < SFS_MAX_FILE_SIZE := by
  have hmax : maxBlocks * SFS_BLKSIZE < SFS_MAX_FILE_SIZE := by decide
  have hblocks : (dinOf sfs ino).blocks * SFS_BLKSIZE ≤ maxBlocks * SFS_BLKSIZE :=
    Nat.mul_le_mul_right _ h.blocks_max
  exact lt_of_le_of_lt (le_trans h.covered hblocks) hmax

/-- The loop of `sysfile_write` from the end of the file on, or past it where the file can
grow: what it writes is appended. -/
theorem writeChunks_appends {fd : Int} {copyFromUser : Nat → Nat → Option Bytes} (fuel : Nat) :
    ∀ len copied s, SharesBy usage ino fd.toNat s → Writable fd s → len ≤ fuel →
      ((dinOf s.sfs ino).size : Int) ≤ position s fd →
      (supplied copyFromUser fuel len copied = 0 ∨ Checked s ino ∧
        ((SFS_MAX_FILE_SIZE : Int) ≤ position s fd ∨
          (position s fd = (dinOf s.sfs ino).size ∨ Reaches s.sfs ino (position s fd).toNat) ∧
            ¬Overruns s.sfs ino ((position s fd).toNat +
              supplied copyFromUser fuel len copied))) →
      ∃ r data s', writeChunks fd copyFromUser fuel len copied s =
          .ok (.ok (r, copied + data.length), s') ∧
        Appends s.sfs s'.sfs ino (position s fd).toNat data ∧
        (0 < len → data = [] → ∃ e, r = .error e) := by
  induction fuel with
  | zero =>
      intro len copied s _ _ hlen _ _
      refine ⟨.ok (), [], s, rfl, .inl ⟨rfl, rfl, rfl, rfl⟩, fun hpos => ?_⟩
      omega
  | succ fuel ih =>
      intro len copied s h hw hlen hpast hplaced
      have hstay : Appends s.sfs s.sfs ino (position s fd).toNat [] := .inl ⟨rfl, rfl, rfl, rfl⟩
      rw [supplied] at hplaced
      rcases Nat.eq_zero_or_pos len with rfl | hpos
      · exact ⟨.ok (), [], s, rfl, hstay, fun hbad => absurd hbad (lt_irrefl 0)⟩
      rw [if_neg (Nat.ne_of_gt hpos)] at hplaced
      match hcopy : copyFromUser copied (min IOBUF_SIZE len) with
      | none =>
          refine ⟨.error .eInval, [], s, ?_, hstay, fun _ _ => ⟨_, rfl⟩⟩
          rw [writeChunks, if_neg (Nat.ne_of_gt hpos), hcopy]
          rfl
      | some buffer =>
          rw [hcopy] at hplaced
          simp only at hplaced
          have hchunk : 0 < min IOBUF_SIZE len := lt_min (by decide) hpos
          obtain ⟨hchecked, hplaced⟩ := hplaced.resolve_left (by omega)
          rcases fileWrite_round h hw buffer hchunk (min_le_left _ _) with
            ⟨hwhy, _⟩ | ⟨_, _, hrun⟩ |
            ⟨offset, r₁, m, sfs₁, _, hoffset, hmax, _, _, hrun, hsome, hle, hstored, hresult⟩ |
            ⟨offset, sfs₁, _, hoffset, hmax, _, hlast, hfew, hrun, hresult⟩
          · obtain ⟨offset, hoffset, hmax, hbad⟩ := hwhy.resolve_left (not_not.mpr hchecked)
            rw [hoffset] at hplaced
            obtain ⟨hplace, hgood⟩ := hplaced.resolve_left (by exact_mod_cast not_le.mpr hmax)
            rcases hbad with hfar | hover
            · rcases hplace with hsize | hnear | ⟨hnear, _⟩
              · have hbelow := below_of_whole h.whole
                rw [← Int.ofNat_inj.mp hsize] at hbelow
                exact absurd hfar (not_lt.mpr hbelow)
              · exact absurd hfar (Nat.lt_asymm hnear)
              · exact absurd hfar (not_lt.mpr (le_of_eq hnear))
            · exact absurd (overruns_mono hover (by simp only [Int.toNat_natCast]; omega)) hgood
          · exact ⟨_, [], s, writeChunks_last hpos hcopy hrun, hstay, fun _ _ => ⟨_, rfl⟩⟩
          · have hbound : m ≤ len := le_trans hle (min_le_right _ _)
            rw [hoffset] at hplaced hpast ⊢
            obtain ⟨_, hgood⟩ := hplaced.resolve_left (by exact_mod_cast not_le.mpr hmax)
            have hinside : (dinOf s.sfs ino).size ≤ offset := Int.ofNat_le.mp hpast
            obtain ⟨hsize, hend⟩ := position_of_stored hoffset hinside hstored
            rcases hresult with ⟨rfl, rfl⟩ | ⟨rfl, _⟩
            · have hfurther : ¬Overruns sfs₁ ino ((dinOf sfs₁ ino).size +
                  supplied copyFromUser fuel (len - min IOBUF_SIZE len)
                    (copied + min IOBUF_SIZE len)) := by
                rintro ⟨hover, hfills⟩
                rw [hsize, Nat.add_assoc] at hover
                exact hgood ⟨hover, hstored.fills.mp hfills⟩
              obtain ⟨r, data, s', heq, happends, _⟩ := ih (len - min IOBUF_SIZE len)
                (copied + min IOBUF_SIZE len) _ (shares_moved h hstored.whole _) (hw.moved _ _)
                (by omega) (le_of_eq hend.symm)
                (.inr ⟨hchecked, .inr ⟨.inl hend, by rw [hend]; exact hfurther⟩⟩)
              rw [hend, hsize] at happends
              refine ⟨r, tabulate (min IOBUF_SIZE len) buffer ++ data, s', ?_,
                Appends.append hsome hstored hinside happends, fun _ hnone => ?_⟩
              · rw [writeChunks_goes_on hpos hcopy hsome hbound hrun, heq, List.length_append,
                  length_tabulate, Nat.add_assoc]
              · have hlength := congrArg List.length hnone
                rw [List.length_append, length_tabulate] at hlength
                have hzero : min IOBUF_SIZE len = 0 := Nat.eq_zero_of_add_eq_zero_right hlength
                omega
            · have happended : Appends s.sfs sfs₁ ino offset (tabulate m buffer) :=
                Appends.of_stored hsome hstored hinside
              refine ⟨.error .eNoMem, tabulate m buffer, moved s fd.toNat sfs₁ m, ?_, ?_,
                fun _ _ => ⟨_, rfl⟩⟩
              · rw [writeChunks_fails hpos hcopy hsome hbound hrun, length_tabulate]
              · rw [Int.toNat_natCast]
                exact happended
          · refine ⟨_, [], _, writeChunks_last hpos hcopy hrun, .inl ⟨rfl, ?_⟩, fun _ _ => ⟨_, rfl⟩⟩
            rcases hresult with ⟨hbeyond, _⟩ | ⟨_, huntouched⟩
            · rw [hoffset] at hplaced
              obtain ⟨hplace, _⟩ := hplaced.resolve_left (by exact_mod_cast not_le.mpr hmax)
              rcases hplace with hsize | hnear | ⟨_, hfree⟩
              · exact absurd (Int.ofNat_inj.mp hsize) (Nat.ne_of_gt hbeyond)
              · exact absurd hlast (Nat.ne_of_lt hnear)
              · exact absurd hfew (not_lt.mpr hfree)
            · exact unaltered_of_untouched h.whole huntouched

/-- Where a loop from the end of the file on, or past it, panics: in its first round, or in the
round that is past the block map. -/
theorem writeChunks_panics {fd : Int} {copyFromUser : Nat → Nat → Option Bytes} (fuel : Nat) :
    ∀ len copied s, SharesBy usage ino fd.toNat s → Writable fd s → len ≤ fuel →
      ((dinOf s.sfs ino).size : Int) ≤ position s fd →
      0 < supplied copyFromUser fuel len copied →
      (¬Checked s ino ∨ position s fd < SFS_MAX_FILE_SIZE ∧
        Overruns s.sfs ino ((position s fd).toNat + supplied copyFromUser fuel len copied)) →
      writeChunks fd copyFromUser fuel len copied s = .error .panic := by
  induction fuel with
  | zero =>
      intro len copied s _ _ _ _ hsupplied _
      exact absurd hsupplied (lt_irrefl 0)
  | succ fuel ih =>
      intro len copied s h hw hlen hpast hsupplied hbad
      rw [supplied] at hsupplied hbad
      rcases Nat.eq_zero_or_pos len with rfl | hpos
      · exact absurd hsupplied (lt_irrefl 0)
      rw [if_neg (Nat.ne_of_gt hpos)] at hsupplied hbad
      match hcopy : copyFromUser copied (min IOBUF_SIZE len) with
      | none =>
          rw [hcopy] at hsupplied
          exact absurd hsupplied (lt_irrefl 0)
      | some buffer =>
          rw [hcopy] at hbad
          simp only at hbad
          have hchunk : 0 < min IOBUF_SIZE len := lt_min (by decide) hpos
          rcases fileWrite_round h hw buffer hchunk (min_le_left _ _) with
            ⟨_, hrun⟩ | ⟨hchecked, hrange, _⟩ |
            ⟨offset, r₁, m, sfs₁, hchecked, hoffset, hmax, hgood, _, hrun, hsome, hle, hstored,
              hresult⟩ |
            ⟨offset, sfs₁, hchecked, hoffset, hmax, hgood, hlast, hfew, _, _⟩
          · exact writeChunks_panic hpos hcopy hrun
          · have hbelow := (hbad.resolve_left (not_not.mpr hchecked)).1
            generalize SFS_MAX_FILE_SIZE = most at hbelow hrange
            omega
          · rw [hoffset, Int.toNat_natCast] at hbad
            have hover := (hbad.resolve_left (not_not.mpr hchecked)).2
            rcases hresult with ⟨rfl, rfl⟩ | ⟨_, hnot⟩
            · have hbound : min IOBUF_SIZE len ≤ len := min_le_right _ _
              rw [writeChunks_goes_on hpos hcopy hsome hbound hrun]
              have hinside : (dinOf s.sfs ino).size ≤ offset := by
                rw [hoffset] at hpast
                exact Int.ofNat_le.mp hpast
              obtain ⟨hsize, hend⟩ := position_of_stored hoffset hinside hstored
              have hmore : 0 < supplied copyFromUser fuel (len - min IOBUF_SIZE len)
                  (copied + min IOBUF_SIZE len) := by
                rcases Nat.eq_zero_or_pos (supplied copyFromUser fuel (len - min IOBUF_SIZE len)
                  (copied + min IOBUF_SIZE len)) with hnone | hmore
                · rw [hnone] at hover
                  exact absurd hover hgood
                · exact hmore
              have hfurther : Overruns sfs₁ ino ((dinOf sfs₁ ino).size +
                  supplied copyFromUser fuel (len - min IOBUF_SIZE len)
                    (copied + min IOBUF_SIZE len)) := by
                rw [hsize, Nat.add_assoc]
                exact ⟨hover.1, hstored.fills.mpr hover.2⟩
              apply ih _ _ _ (shares_moved h hstored.whole _) (hw.moved _ _) (by omega)
                (le_of_eq hend.symm) hmore
              rw [hend]
              exact .inr ⟨Int.ofNat_lt.mpr (size_lt_max hstored.whole), hfurther⟩
            · exact absurd hover.2 hnot
          · rw [hoffset, Int.toNat_natCast] at hbad
            have hover := (hbad.resolve_left (not_not.mpr hchecked)).2
            have hroom := h.whole.room (Nat.lt_add_of_pos_right hchunk) hlast hgood
            have hcost := @growCost_le_blocksNeeded s.sfs ino maxBlocks hroom
            have hfills : blocksNeeded (dinOf s.sfs ino) maxBlocks ≤ freeCount s.sfs := hover.2
            omega

/-- A loop from past the end of the file on, in a block that the file does not reach: it panics,
or fails in its first round and leaves a size that ends at the position. -/
theorem writeChunks_short {fd : Int} {copyFromUser : Nat → Nat → Option Bytes}
    {fuel len copied : Nat} (h : SharesBy usage ino fd.toNat s) (hw : Writable fd s)
    (hpast : ((dinOf s.sfs ino).size : Int) < position s fd)
    (hbelow : position s fd < SFS_MAX_FILE_SIZE)
    (hsupplied : 0 < supplied copyFromUser fuel len copied)
    (hreaches : ¬Reaches s.sfs ino (position s fd).toNat) :
    writeChunks fd copyFromUser fuel len copied s = .error .panic ∨
      ∃ s', writeChunks fd copyFromUser fuel len copied s =
          .ok (.ok (.error .eNoMem, copied), s') ∧
        (dinOf s'.sfs ino).size = (position s fd).toNat := by
  cases fuel with
  | zero => exact absurd hsupplied (lt_irrefl 0)
  | succ fuel =>
      rw [supplied] at hsupplied
      rcases Nat.eq_zero_or_pos len with rfl | hpos
      · exact absurd hsupplied (lt_irrefl 0)
      rw [if_neg (Nat.ne_of_gt hpos)] at hsupplied
      match hcopy : copyFromUser copied (min IOBUF_SIZE len) with
      | none =>
          rw [hcopy] at hsupplied
          exact absurd hsupplied (lt_irrefl 0)
      | some buffer =>
          have hchunk : 0 < min IOBUF_SIZE len := lt_min (by decide) hpos
          rcases fileWrite_round h hw buffer hchunk (min_le_left _ _) with
            ⟨_, hrun⟩ | ⟨_, hrange, _⟩ | ⟨offset, _, _, _, _, hoffset, _, _, hreaches', _⟩ |
            ⟨offset, sfs₁, _, hoffset, _, _, _, _, hrun, hresult⟩
          · exact .inl (writeChunks_panic hpos hcopy hrun)
          · generalize SFS_MAX_FILE_SIZE = most at hbelow hrange
            omega
          · rw [hoffset] at hreaches
            exact absurd hreaches' hreaches
          · refine .inr ⟨_, writeChunks_last hpos hcopy hrun, ?_⟩
            rw [hoffset] at hpast ⊢
            rcases hresult with ⟨_, hsize⟩ | ⟨hinside, _⟩
            · exact hsize
            · exact absurd (Int.ofNat_lt.mp hpast) (not_lt.mpr hinside)

end Writing

section Calls

variable {fd : Int} {len : Nat} {kmalloced : Bool} {copyFromUser : Nat → Nat → Option Bytes}

theorem fileTestfd_of_writable (h : Writable fd s) :
    fileTestfd fd false true s = .ok (.ok true, s) := by
  rw [fileTestfd]
  refine (attempt_bind_of_ok (fd2file_of_writable h) _).trans ?_
  simp only [getState_bind]
  rw [if_neg (by simp), if_neg (by simp [h.writable])]
  rfl

theorem fileTestfd_of_not (h : ¬Writable fd s) :
    fileTestfd fd false true s = .ok (.ok false, s) := by
  by_cases hfound : testfd fd = true ∧ (s.fdArray fd.toNat).status = .fdOpened ∧
      ((s.fdArray fd.toNat).fd : Int) = fd
  · have hfile : fd2file fd s = .ok (.ok fd.toNat, s) := by
      rw [fd2file, getState_bind, if_pos hfound]
      rfl
    have hreadOnly : (s.fdArray fd.toNat).writable = false := by
      rcases Bool.eq_false_or_eq_true (s.fdArray fd.toNat).writable with hwritable | hwritable
      · exact absurd ⟨hfound.1, hfound.2.1, hfound.2.2, hwritable⟩ h
      · exact hwritable
    rw [fileTestfd]
    refine (attempt_bind_of_ok hfile _).trans ?_
    simp only [getState_bind]
    rw [if_neg (by simp), if_pos ⟨trivial, hreadOnly⟩]
    rfl
  · have hfile : fd2file fd s = .ok (.error .eInval, s) := by
      rw [fd2file, getState_bind, if_neg hfound]
      rfl
    rw [fileTestfd]
    exact attempt_bind_of_ok hfile _

/-- The bytes that a call of `sysfile_write` finds in user memory. -/
def gathered (len : Nat) (kmalloced : Bool) (copyFromUser : Nat → Nat → Option Bytes) : Nat :=
  if kmalloced = true then supplied copyFromUser len len 0 else 0

/-- A call that writes nothing, or the loop and the end of `sysfile_write`. -/
theorem sysfileWrite_cases (fd : Int) (len : Nat) (kmalloced : Bool)
    (copyFromUser : Nat → Nat → Option Bytes) (s : VfsState) :
    (sysfileWrite fd len kmalloced copyFromUser s = .ok (.ok 0, s) ∧ len = 0) ∨
    (∃ e, sysfileWrite fd len kmalloced copyFromUser s = .ok (.error e, s)) ∧
      (¬Writable fd s ∨ gathered len kmalloced copyFromUser = 0) ∨
    0 < len ∧ Writable fd s ∧
      gathered len kmalloced copyFromUser = supplied copyFromUser len len 0 ∧
      sysfileWrite fd len kmalloced copyFromUser s = (do
        let (r, copied) ← writeChunks fd copyFromUser len len 0
        copiedOr r copied copied : Routine VfsState Nat) s := by
  rcases Nat.eq_zero_or_pos len with rfl | hpos
  · exact .inl ⟨rfl, rfl⟩
  have hlen : ¬len = 0 := Nat.ne_of_gt hpos
  by_cases hw : Writable fd s
  · cases kmalloced with
    | false =>
        refine .inr (.inl ⟨⟨.eNoMem, ?_⟩, .inr rfl⟩)
        rw [sysfileWrite, if_neg hlen, bind_of_ok (fileTestfd_of_writable hw)]
        rfl
    | true =>
        refine .inr (.inr ⟨hpos, hw, rfl, ?_⟩)
        rw [sysfileWrite, if_neg hlen, bind_of_ok (fileTestfd_of_writable hw)]
        rfl
  · refine .inr (.inl ⟨⟨.eInval, ?_⟩, .inl hw⟩)
    rw [sysfileWrite, if_neg hlen, bind_of_ok (fileTestfd_of_not hw)]
    rfl

theorem copiedOr_some {r : Except Errno Unit} {copied : Nat} (h : copied ≠ 0) :
    copiedOr r copied copied s = .ok (.ok copied, s) := by
  exact congrFun (if_pos h) s

theorem copiedOr_none (e : Errno) : copiedOr (.error e) 0 0 s = .ok (.error e, s) := rfl

theorem copiedOr_eq {r : Except Errno Unit} {copied : Nat} {r' : Except Errno Nat}
    (heq : copiedOr r copied copied s = .ok (r', s')) : s' = s := by
  unfold copiedOr at heq
  split at heq
  · cases heq
    rfl
  · match r with
    | .error _ =>
        cases heq
        rfl
    | .ok _ =>
        cases heq
        rfl

/-- A write keeps the file whole, if it begins in the file or where the file can grow. -/
theorem shares_of_sysfileWrite {r : Except Errno Nat} (h : SharesBy usage ino fd.toNat s)
    (hplaced : Writable fd s → gathered len kmalloced copyFromUser = 0 ∨ Placed ino s fd)
    (heq : sysfileWrite fd len kmalloced copyFromUser s = .ok (r, s')) :
    SharesBy usage ino fd.toNat s' := by
  rcases sysfileWrite_cases fd len kmalloced copyFromUser s with
    ⟨hrun, _⟩ | ⟨⟨e, hrun⟩, _⟩ | ⟨_, hw, hgathered, hrun⟩
  · rw [hrun] at heq
    cases heq
    exact h
  · rw [hrun] at heq
    cases heq
    exact h
  · have hplaced := hplaced hw
    rw [hgathered] at hplaced
    rw [hrun] at heq
    rcases bind_eq_ok_iff.mp heq with ⟨⟨r₁, copied⟩, s₁, hloop, hrest⟩ | ⟨e, hloop, rfl⟩
    · rw [copiedOr_eq hrest]
      exact shares_of_writeChunks len len 0 s _ s₁ h hw hplaced hloop
    · exact shares_of_writeChunks len len 0 s _ s' h hw hplaced hloop

/-- The write returns: an error and the file as it was, or the number of bytes that it has put
at the position, behind zeros from the end of the file on. -/
def WritesSafely (ino : Nat) (fd : Int) (len : Nat) (kmalloced : Bool)
    (copyFromUser : Nat → Nat → Option Bytes) (s : VfsState) : Prop :=
  (∃ e s', sysfileWrite fd len kmalloced copyFromUser s = .ok (.error e, s') ∧
    Unaltered s.sfs s'.sfs ino) ∨
  ∃ data s', sysfileWrite fd len kmalloced copyFromUser s = .ok (.ok data.length, s') ∧
    Appends s.sfs s'.sfs ino (position s fd).toNat data

/-- The file can take `n` bytes from the position on, or the write is refused. -/
def Supports (ino : Nat) (fd : Int) (n : Nat) (s : VfsState) : Prop :=
  n = 0 ∨ Checked s ino ∧ ((SFS_MAX_FILE_SIZE : Int) ≤ position s fd ∨
    Reaches s.sfs ino (position s fd).toNat ∧ ¬Overruns s.sfs ino ((position s fd).toNat + n))

/-- A write through the descriptor begins past the end of the file. -/
def PastEnd (ino : Nat) (fd : Int) (s : VfsState) : Prop :=
  Writable fd s ∧ ((dinOf s.sfs ino).size : Int) < position s fd

theorem writesSafely_of_supports (h : SharesBy usage ino fd.toNat s) (hpast : PastEnd ino fd s)
    (hsupports : Supports ino fd (gathered len kmalloced copyFromUser) s) :
    WritesSafely ino fd len kmalloced copyFromUser s := by
  rcases sysfileWrite_cases fd len kmalloced copyFromUser s with
    ⟨hrun, _⟩ | ⟨⟨e, hrun⟩, _⟩ | ⟨hlen, hw, hgathered, hrun⟩
  · exact .inr ⟨[], s, hrun, .inl ⟨rfl, rfl, rfl, rfl⟩⟩
  · exact .inl ⟨e, s, hrun, rfl, rfl, rfl⟩
  · rw [hgathered] at hsupports
    obtain ⟨r, data, s', hloop, happends, hnone⟩ := writeChunks_appends len len 0 s h hw
      (le_refl len) (le_of_lt hpast.2) (hsupports.imp_right fun hgood =>
        ⟨hgood.1, hgood.2.imp_right fun hroom => ⟨.inr hroom.1, hroom.2⟩⟩)
    rw [bind_of_ok hloop, Nat.zero_add] at hrun
    rcases List.eq_nil_or_concat data with hempty | ⟨front, last, hdata⟩
    · obtain ⟨e, rfl⟩ := hnone hlen hempty
      subst hempty
      refine .inl ⟨e, s', hrun.trans (copiedOr_none e), ?_⟩
      exact (happends.resolve_right fun hsome => hsome.1 rfl).2
    · have hsome : data.length ≠ 0 := by
        rw [hdata, List.length_concat]
        exact Nat.succ_ne_zero _
      exact .inr ⟨data, s', hrun.trans (copiedOr_some hsome), happends⟩

theorem not_writesSafely (h : SharesBy usage ino fd.toNat s) (hpast : PastEnd ino fd s)
    (hnot : ¬Supports ino fd (gathered len kmalloced copyFromUser) s) :
    ¬WritesSafely ino fd len kmalloced copyFromUser s := by
  have hsome : gathered len kmalloced copyFromUser ≠ 0 := fun hzero => hnot (.inl hzero)
  rcases sysfileWrite_cases fd len kmalloced copyFromUser s with
    ⟨_, rfl⟩ | ⟨_, hclosed | hnone⟩ | ⟨hlen, hw, hgathered, hrun⟩
  · refine absurd ?_ hsome
    rw [gathered]
    split
    · rfl
    · rfl
  · exact absurd hpast.1 hclosed
  · exact absurd hnone hsome
  rw [hgathered] at hsome hnot
  have hsupplied : 0 < supplied copyFromUser len len 0 := Nat.pos_of_ne_zero hsome
  have hpanic : writeChunks fd copyFromUser len len 0 s = .error .panic →
      ¬WritesSafely ino fd len kmalloced copyFromUser s := by
    intro hloop hsafe
    rw [bind_of_abort hloop] at hrun
    rcases hsafe with ⟨e, s', hok, _⟩ | ⟨data, s', hok, _⟩
    · rw [hrun] at hok
      cases hok
    · rw [hrun] at hok
      cases hok
  by_cases hchecked : Checked s ino
  swap
  · exact hpanic (writeChunks_panics len len 0 s h hw (le_refl len) (le_of_lt hpast.2) hsupplied
      (.inl hchecked))
  have hbelow : position s fd < SFS_MAX_FILE_SIZE :=
    not_le.mp fun hle => hnot (.inr ⟨hchecked, .inl hle⟩)
  by_cases hreaches : Reaches s.sfs ino (position s fd).toNat
  · have hover : Overruns s.sfs ino ((position s fd).toNat + supplied copyFromUser len len 0) :=
      not_not.mp fun hgood => hnot (.inr ⟨hchecked, .inr ⟨hreaches, hgood⟩⟩)
    exact hpanic (writeChunks_panics len len 0 s h hw (le_refl len) (le_of_lt hpast.2) hsupplied
      (.inr ⟨hbelow, hover⟩))
  · rcases writeChunks_short h hw hpast.2 hbelow hsupplied hreaches with hloop | ⟨s', hloop, hsize⟩
    · exact hpanic hloop
    · rw [bind_of_ok hloop] at hrun
      have hfails := hrun.trans (copiedOr_none _)
      rintro (⟨e, s₁, hok, hsame⟩ | ⟨data, s₁, hok, _⟩)
      · rw [hfails] at hok
        cases hok
        have hkept := hsame.size
        have hbeyond := hpast.2
        omega
      · rw [hfails] at hok
        cases hok

/-- A write that begins past the end of the file is safe exactly if the file supports it. -/
theorem writesSafely_iff (h : SharesBy usage ino fd.toNat s) (hpast : PastEnd ino fd s) :
    WritesSafely ino fd len kmalloced copyFromUser s ↔
      Supports ino fd (gathered len kmalloced copyFromUser) s := by
  constructor
  · intro hsafe
    by_contra hnot
    exact not_writesSafely h hpast hnot hsafe
  · exact writesSafely_of_supports h hpast

end Calls

end Ucore.SysFileWrites
