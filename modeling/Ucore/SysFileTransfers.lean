import Ucore.SysFileRuns

/-!
What `sysfile_read` and `sysfile_write` report, and what they have moved. The transfer goes
through a buffer of the kernel in rounds; the device may fail, and so may the copies from and to
user memory.
-/

namespace Ucore.SysFileTransfers

open Ucore.Errors
open Ucore.KernelRoutine
open Ucore.ByteBuffer
open Ucore.SfsDisk
open Ucore.SfsOwnership
open Ucore.SfsIo
open Ucore.SfsIoRefinement
open Ucore.SfsFaults
open Ucore.SfsCapacity
open Ucore.SfsTransfers
open Ucore.VfsFiles
open Ucore.VfsReadOnly
open Ucore.SysFiles
open Ucore.SysFileWrites
open Ucore.SysFileRuns

variable {ino : Nat} {fd : Int} {s s' : VfsState}

section Reading

/-- The descriptor is open, and may be read from. -/
structure Readable (fd : Int) (s : VfsState) : Prop where
  test : testfd fd = true
  opened : (s.fdArray fd.toNat).status = .fdOpened
  named : ((s.fdArray fd.toNat).fd : Int) = fd
  readable : (s.fdArray fd.toNat).readable = true

theorem Readable.moved (h : Readable fd s) (sfs : SfsFs) (n : Nat) :
    Readable fd (moved s fd.toNat sfs n) where
  test := h.test
  opened := by
    rw [fdArray_moved_self]
    exact h.opened
  named := by
    rw [fdArray_moved_self]
    exact h.named
  readable := by
    rw [fdArray_moved_self]
    exact h.readable

theorem fileTestfd_of_readable (h : Readable fd s) :
    fileTestfd fd true false s = .ok (.ok true, s) := by
  rw [fileTestfd]
  refine (attempt_bind_of_ok (fd2file_of_opened h.test h.opened h.named) _).trans ?_
  simp only [getState_bind]
  rw [if_neg (by simp [h.readable]), if_neg (by simp)]
  rfl

theorem fileTestfd_of_not_readable (h : ¬Readable fd s) :
    fileTestfd fd true false s = .ok (.ok false, s) := by
  by_cases hfound : testfd fd = true ∧ (s.fdArray fd.toNat).status = .fdOpened ∧
      ((s.fdArray fd.toNat).fd : Int) = fd
  · have hwriteOnly : (s.fdArray fd.toNat).readable = false := by
      rcases Bool.eq_false_or_eq_true (s.fdArray fd.toNat).readable with hreadable | hreadable
      · exact absurd ⟨hfound.1, hfound.2.1, hfound.2.2, hreadable⟩ h
      · exact hreadable
    rw [fileTestfd]
    refine (attempt_bind_of_ok (fd2file_of_opened hfound.1 hfound.2.1 hfound.2.2) _).trans ?_
    simp only [getState_bind]
    rw [if_pos ⟨trivial, hwriteOnly⟩]
    rfl
  · have hfile : fd2file fd s = .ok (.error .eInval, s) := by
      rw [fd2file, getState_bind, if_neg hfound]
      rfl
    rw [fileTestfd]
    exact attempt_bind_of_ok hfile _

theorem fileRead_eq (h : Uses ino fd.toNat s) (hr : Readable fd s) (base : Bytes) (len : Nat) :
    fileRead fd base len s =
      (vopRead ino (iobufInit base len (position s fd)) >>= fun p =>
        afterTransfer fd.toNat p.2 >>= fun _ => pure (p.1, iobufUsed p.2, p.2.buf))
          (acquired s fd.toNat) := by
  have hnode := h.through hr.opened
  have hreadable : ¬(s.fdArray fd.toNat).readable = false := by
    rw [hr.readable]
    decide
  rw [fileRead, bind_of_ok (fd2file_of_opened hr.test hr.opened hr.named), getState_bind,
    if_neg hreadable, readFile, bind_of_ok (fdArrayAcquire_of_opened hr.opened), getState_bind,
    fdArray_acquired]
  simp only [hnode]
  rfl

theorem vopRead_of_checked {iob : Iobuf} (h : RegularFile ino s.sfs) (hchecked : Checked s ino) :
    vopRead ino iob s = onSfs (sfsIo ino iob false) s := by
  have hregular := h.regular
  rw [dinOf_loaded h.loaded] at hregular
  rw [vopRead, getState_bind, ensure_bind_of hregular,
    bind_of_ok (inodeCheck_of_checked hchecked)]

/-- `file_read` panics where `inode_check` does. -/
theorem fileRead_of_not_checked (h : Uses ino fd.toNat s) (hr : Readable fd s)
    (hchecked : ¬Checked s ino) (base : Bytes) (len : Nat) :
    fileRead fd base len s = .error .panic := by
  have hfile : RegularFile ino (acquired s fd.toNat).sfs := h.file
  have hregular := hfile.regular
  rw [dinOf_loaded hfile.loaded] at hregular
  have hchecked' : ¬Checked (acquired s fd.toNat) ino := hchecked
  have hread : vopRead ino (iobufInit base len (position s fd)) (acquired s fd.toNat) =
      .error .panic := by
    rw [vopRead, getState_bind, ensure_bind_of hregular,
      bind_of_abort (inodeCheck_of_not hchecked')]
  rw [fileRead_eq h hr]
  exact bind_of_abort hread

/-- `file_read` gets bytes of the file at the position, and moves it by their number. -/
theorem fileRead_gets (h : Uses ino fd.toNat s) (hr : Readable fd s) (hchecked : Checked s ino)
    {len : Nat} (hlen : len < 2 ^ 31) (base : Bytes) :
    ∃ r m buf k, fileRead fd base len s =
        .ok (.ok (r, m, buf), moved s fd.toNat (passed s.sfs k) m) ∧
      m ≤ available s.sfs ino (position s fd) len ∧
      (∀ i, i < m → buf i = byteAt s.sfs ino ((position s fd).toNat + i)) ∧
      (Steady s.sfs → r = emptyCode (position s fd) len ∧
        m = available s.sfs ino (position s fd) len) := by
  obtain ⟨r, iob, sfs', hrun, ⟨k, rfl⟩, hle, hbytes, hsteady⟩ :=
    sfsIo_gets h.file hlen base (position s fd)
  refine ⟨r, iobufUsed iob, iob.buf, k, ?_, hle, hbytes, hsteady⟩
  have hread : vopRead ino (iobufInit base len (position s fd)) (acquired s fd.toNat) =
      .ok (.ok (r, iob), { acquired s fd.toNat with sfs := passed s.sfs k }) := by
    have hchecked' : Checked (acquired s fd.toNat) ino := hchecked
    have hfile : RegularFile ino (acquired s fd.toNat).sfs := h.file
    have hrun' : sfsIo ino (iobufInit base len (position s fd)) false
        (acquired s fd.toNat).sfs = .ok (.ok (r, iob), passed s.sfs k) := hrun
    rw [vopRead_of_checked hfile hchecked', onSfs, hrun']
  have hafter := afterTransfer_of hr.opened (h.counted _ hr.opened) (passed s.sfs k) iob
  rw [fileRead_eq h hr, bind_of_ok hread]
  exact bind_of_ok hafter

end Reading

section Rounds

/-- The copies to user memory succeed for `n` bytes from `start` on, in rounds. -/
def Accepted (copyToUser : Nat → Nat → Bool) (start n : Nat) : Prop :=
  ∀ i, i * IOBUF_SIZE < n →
    copyToUser (start + i * IOBUF_SIZE) (min IOBUF_SIZE (n - i * IOBUF_SIZE)) = true

theorem accepted_zero (copyToUser : Nat → Nat → Bool) (start : Nat) :
    Accepted copyToUser start 0 :=
  fun _ hi => absurd hi (Nat.not_lt_zero _)

theorem accepted_round {copyToUser : Nat → Nat → Bool} {start n : Nat} (hpos : 0 < n) :
    Accepted copyToUser start n ↔ copyToUser start (min IOBUF_SIZE n) = true ∧
      Accepted copyToUser (start + min IOBUF_SIZE n) (n - min IOBUF_SIZE n) := by
  constructor
  · intro h
    refine ⟨?_, fun i hi => ?_⟩
    · have hfirst := h 0 (by omega)
      rw [Nat.zero_mul, Nat.add_zero, Nat.sub_zero] at hfirst
      exact hfirst
    · have hmin : min IOBUF_SIZE n = IOBUF_SIZE := by omega
      rw [hmin] at hi ⊢
      have hnext := h (i + 1) (by rw [Nat.succ_mul]; omega)
      have hstart : start + (i + 1) * IOBUF_SIZE = start + IOBUF_SIZE + i * IOBUF_SIZE := by
        rw [Nat.succ_mul]
        omega
      have hrest : n - (i + 1) * IOBUF_SIZE = n - IOBUF_SIZE - i * IOBUF_SIZE := by
        rw [Nat.succ_mul]
        omega
      rw [hstart, hrest] at hnext
      exact hnext
  · rintro ⟨hfirst, hrest⟩ i hi
    cases i with
    | zero =>
        rw [Nat.zero_mul, Nat.add_zero, Nat.sub_zero]
        exact hfirst
    | succ i =>
        rw [Nat.succ_mul] at hi ⊢
        have hmin : min IOBUF_SIZE n = IOBUF_SIZE := by omega
        rw [hmin] at hrest
        have hnext := hrest i (by omega)
        have hstart : start + (i * IOBUF_SIZE + IOBUF_SIZE) =
            start + IOBUF_SIZE + i * IOBUF_SIZE := by omega
        have hleft : n - (i * IOBUF_SIZE + IOBUF_SIZE) =
            n - IOBUF_SIZE - i * IOBUF_SIZE := by omega
        rw [hstart, hleft]
        exact hnext

theorem available_round (sfs : SfsFs) (ino : Nat) (pos : Int) (len : Nat) :
    available sfs ino pos (min IOBUF_SIZE len) = min IOBUF_SIZE (available sfs ino pos len) := by
  unfold available
  split
  · omega
  · omega

theorem available_rest {sfs : SfsFs} {pos : Int} {len m : Nat}
    (hm : m ≤ available sfs ino pos len) (hsome : 0 < m) :
    available sfs ino (pos + m) (len - m) = available sfs ino pos len - m := by
  unfold available at hm ⊢
  split at hm
  · omega
  · next hneg =>
    have hneg' : ¬pos + m < 0 := by omega
    have hnat : (pos + m).toNat = pos.toNat + m := by omega
    rw [if_neg hneg', if_neg hneg, hnat]
    omega

/-- What the loop of `sysfile_read` leaves: `n` bytes have been copied, and the position has
moved by `lost` more. -/
structure Fetched (ino : Nat) (fd : Int) (copyToUser : Nat → Nat → Bool) (s : VfsState)
    (len copied : Nat) (user : Bytes) (r : Except Errno Unit) (n lost : Nat) (user' : Bytes)
    (s' : VfsState) : Prop where
  moves : position s' fd = position s fd + n + lost
  le : n ≤ available s.sfs ino (position s fd) len
  bytes : ∀ k, k < n → user' (copied + k) = byteAt s.sfs ino ((position s fd).toNat + k)
  before : ∀ k, k < copied → user' k = user k
  fails : lost ≠ 0 → n = 0 → ∃ e, r = .error e
  refused : lost ≠ 0 → ∃ m, 0 < m ∧ n + m ≤ len ∧ copyToUser (copied + n) m = false

/-- What it leaves when the device does not fail. -/
structure Complete (ino : Nat) (fd : Int) (copyToUser : Nat → Nat → Bool) (s : VfsState)
    (len copied : Nat) (r : Except Errno Unit) (n lost : Nat) : Prop where
  accepted : lost = 0 ↔ Accepted copyToUser copied (available s.sfs ino (position s fd) len)
  all : lost = 0 → n = available s.sfs ino (position s fd) len ∧
    (n = 0 → len ≠ 0 → r = emptyCode (position s fd) len)

/-- A read that gives some bytes succeeds. -/
theorem code_of_some {sfs : SfsFs} {pos : Int} {len m : Nat} (h : RegularFile ino sfs)
    (hlen : len < 2 ^ 31) (hsome : 0 < m) (hle : m ≤ available sfs ino pos len) (e : Errno) :
    emptyCode pos len ≠ .error e := by
  have hsize : (dinOf sfs ino).size < SFS_MAX_FILE_SIZE := lt_of_le_of_lt h.size_le (by decide)
  rw [available] at hle
  rw [emptyCode_read hlen]
  split
  · next hrange =>
      generalize SFS_MAX_FILE_SIZE = most at hrange hsize
      split at hle
      · omega
      · omega
  · exact fun hbad => by cases hbad

section Loops

variable {copyToUser : Nat → Nat → Bool} {len copied : Nat} {user : Bytes}

/-- Nothing more has been read. -/
theorem fetched_none (r : Except Errno Unit) (hmoved : position s' fd = position s fd) :
    Fetched ino fd copyToUser s len copied user r 0 0 user s' where
  moves := by
    rw [hmoved]
    omega
  le := Nat.zero_le _
  bytes k hk := absurd hk (Nat.not_lt_zero k)
  before _ _ := rfl
  fails hne := absurd rfl hne
  refused hne := absurd rfl hne

theorem complete_none {r : Except Errno Unit}
    (hnone : available s.sfs ino (position s fd) len = 0)
    (hcode : len ≠ 0 → r = emptyCode (position s fd) len) :
    Complete ino fd copyToUser s len copied r 0 0 where
  accepted := by
    rw [hnone]
    exact iff_of_true rfl (accepted_zero copyToUser copied)
  all _ := ⟨hnone.symm, fun _ hne => hcode hne⟩

/-- What has been read is not accepted. -/
theorem fetched_refused {r : Except Errno Unit} {m : Nat} (sfs : SfsFs) (hsome : 0 < m)
    (hle : m ≤ len) (hrefused : copyToUser copied m = false) (hfails : ∃ e, r = .error e) :
    Fetched ino fd copyToUser s len copied user r 0 m user (moved s fd.toNat sfs m) where
  moves := by
    rw [position_moved]
    omega
  le := Nat.zero_le _
  bytes k hk := absurd hk (Nat.not_lt_zero k)
  before _ _ := rfl
  fails _ _ := hfails
  refused _ := by
    refine ⟨m, hsome, ?_, hrefused⟩
    omega

theorem complete_refused {r : Except Errno Unit} {m : Nat} (hsome : 0 < m)
    (havail : m = available s.sfs ino (position s fd) (min IOBUF_SIZE len))
    (hrefused : copyToUser copied m = false) :
    Complete ino fd copyToUser s len copied r 0 m where
  accepted := by
    refine iff_of_false (Nat.ne_of_gt hsome) fun haccepted => ?_
    rw [available_round] at havail
    rw [accepted_round (by omega), ← havail, hrefused] at haccepted
    exact Bool.false_ne_true haccepted.1
  all hzero := absurd hzero (Nat.ne_of_gt hsome)

theorem available_moved {m k : Nat} (hsome : 0 < m)
    (hle : m ≤ available s.sfs ino (position s fd) len) :
    available (moved s fd.toNat (passed s.sfs k) m).sfs ino
      (position (moved s fd.toNat (passed s.sfs k) m) fd) (len - m) =
        available s.sfs ino (position s fd) len - m := by
  rw [position_moved]
  exact available_rest hle hsome

/-- What one round has read is in user memory, and the loop goes on. -/
theorem fetched_round {r : Except Errno Unit} {m k n lost : Nat} {buf user' : Bytes}
    (hsome : 0 < m) (hle : m ≤ available s.sfs ino (position s fd) len)
    (hbytes : ∀ i, i < m → buf i = byteAt s.sfs ino ((position s fd).toNat + i))
    (h : Fetched ino fd copyToUser (moved s fd.toNat (passed s.sfs k) m) (len - m) (copied + m)
      (copyBytes user copied buf 0 m) r n lost user' s') :
    Fetched ino fd copyToUser s len copied user r (m + n) lost user' s' := by
  have hpos : 0 ≤ position s fd := by
    by_contra hneg
    rw [available, if_pos (not_le.mp hneg)] at hle
    omega
  have hmoved := position_moved s fd (passed s.sfs k) m
  have havail := @available_moved ino fd s len m k hsome hle
  have hbound := available_le s.sfs ino (position s fd) len
  constructor
  case moves =>
    rw [h.moves, hmoved]
    push_cast
    omega
  case le =>
    have hn := h.le
    rw [havail] at hn
    omega
  case bytes =>
    intro i hi
    rcases Nat.lt_or_ge i m with hold | hnew
    · rw [h.before _ (by omega), copyBytes_of_mem (by omega) (by omega), ← hbytes i hold]
      congr 1
      omega
    · have hnext : user' (copied + m + (i - m)) = byteAt s.sfs ino
          ((position (moved s fd.toNat (passed s.sfs k) m) fd).toNat + (i - m)) :=
        h.bytes (i - m) (by omega)
      have hindex : copied + m + (i - m) = copied + i := by omega
      have hoffset : (position s fd + m).toNat + (i - m) = (position s fd).toNat + i := by omega
      rw [hmoved, hindex, hoffset] at hnext
      exact hnext
  case before =>
    intro i hi
    rw [h.before i (by omega), copyBytes_of_not_mem (by omega)]
  case fails =>
    intro hlost hzero
    omega
  case refused =>
    intro hlost
    obtain ⟨l, hl, hbelow, hfalse⟩ := h.refused hlost
    refine ⟨l, hl, by omega, ?_⟩
    rw [← Nat.add_assoc]
    exact hfalse

theorem complete_round {r : Except Errno Unit} {m k n lost : Nat} (hsome : 0 < m)
    (havail : m = available s.sfs ino (position s fd) (min IOBUF_SIZE len))
    (hcopied : copyToUser copied m = true)
    (h : Complete ino fd copyToUser (moved s fd.toNat (passed s.sfs k) m) (len - m) (copied + m)
      r n lost) : Complete ino fd copyToUser s len copied r (m + n) lost := by
  rw [available_round] at havail
  have hle : m ≤ available s.sfs ino (position s fd) len := by omega
  have hrest := @available_moved ino fd s len m k hsome hle
  have hround := @accepted_round copyToUser copied (available s.sfs ino (position s fd) len)
    (lt_of_lt_of_le hsome hle)
  constructor
  case accepted =>
    rw [h.accepted, hrest, hround, ← havail]
    simp only [hcopied, true_and]
  case all =>
    intro hlost
    obtain ⟨hn, _⟩ := h.all hlost
    rw [hrest] at hn
    exact ⟨by omega, fun hzero => by omega⟩

/-- The loop of `sysfile_read`. -/
theorem readChunks_fetches (fuel : Nat) : ∀ len copied (buffer user : Bytes) s,
    Uses ino fd.toNat s → Readable fd s → Checked s ino → len ≤ fuel → len < 2 ^ 31 →
      ∃ r n lost user' s', readChunks fd copyToUser fuel len copied buffer user s =
          .ok (.ok (r, copied + n, user'), s') ∧
        Fetched ino fd copyToUser s len copied user r n lost user' s' ∧
        (Steady s.sfs → Complete ino fd copyToUser s len copied r n lost) := by
  induction fuel with
  | zero =>
      intro len copied buffer user s _ _ _ hle _
      have hzero : len = 0 := Nat.le_zero.mp hle
      have hbound := available_le s.sfs ino (position s fd) len
      exact ⟨.ok (), 0, 0, user, s, rfl, fetched_none _ rfl,
        fun _ => complete_none (by omega) fun hne => absurd hzero hne⟩
  | succ fuel ih =>
      intro len copied buffer user s h hr hchecked hle hlen
      rcases Nat.eq_zero_or_pos len with rfl | hpos
      · exact ⟨.ok (), 0, 0, user, s, rfl, fetched_none _ rfl,
          fun _ => complete_none (Nat.le_zero.mp (available_le _ _ _ _))
            fun hne => absurd rfl hne⟩
      have hchunk : min IOBUF_SIZE len < 2 ^ 31 := by omega
      obtain ⟨r₁, m, buf, k, hrun, hm, hbytes, hsteady⟩ := fileRead_gets h hr hchecked hchunk buffer
      have hround := available_round s.sfs ino (position s fd) len
      have hall : m ≤ available s.sfs ino (position s fd) len := by omega
      have hbound : m ≤ len := le_trans hall (available_le _ _ _ _)
      rw [readChunks, if_neg (Nat.ne_of_gt hpos)]
      rw [(attempt_bind_of_ok hrun _ : _ = _)]
      simp only
      rcases Nat.eq_zero_or_pos m with rfl | hsome
      · rw [if_pos rfl]
        refine ⟨r₁, 0, 0, user, _, rfl, fetched_none _ (by rw [position_moved]; omega),
          fun hs => ?_⟩
        obtain ⟨hcode, havail⟩ := hsteady hs
        have hiob : 0 < IOBUF_SIZE := by decide
        refine complete_none (by omega) fun _ => ?_
        rw [hcode, emptyCode_read hchunk, emptyCode_read hlen]
      · rw [if_neg (Nat.ne_of_gt hsome)]
        rcases Bool.eq_false_or_eq_true (copyToUser copied m) with hcopied | hrefused
        · rw [if_pos hcopied, ensure_bind_of hbound]
          rcases r₁ with e | ⟨⟩
          · exact ⟨.error e, m, 0, _, _, rfl,
              fetched_round hsome hall hbytes (fetched_none _ rfl),
              fun hs => absurd (hsteady hs).1.symm (code_of_some h.file hchunk hsome hm e)⟩
          · obtain ⟨r, n, lost, user', s', heq, hfetched, hcomplete⟩ := ih (len - m) (copied + m) buf
              (copyBytes user copied buf 0 m) (moved s fd.toNat (passed s.sfs k) m)
              (h.moved (h.file.passed k) m) (hr.moved _ m) hchecked (by omega) (by omega)
            refine ⟨r, m + n, lost, user', s', ?_, fetched_round hsome hall hbytes hfetched,
              fun hs => complete_round hsome (hsteady hs).2 hcopied
                (hcomplete (steady_passed hs k))⟩
            rw [← Nat.add_assoc]
            exact heq
        · rw [if_neg (by simp [hrefused])]
          rcases r₁ with e | ⟨⟩
          · exact ⟨.error e, 0, m, user, _, rfl, fetched_refused _ hsome hbound hrefused ⟨e, rfl⟩,
              fun hs => complete_refused hsome (hsteady hs).2 hrefused⟩
          · exact ⟨.error .eInval, 0, m, user, _, rfl,
              fetched_refused _ hsome hbound hrefused ⟨_, rfl⟩,
              fun hs => complete_refused hsome (hsteady hs).2 hrefused⟩

end Loops

end Rounds

section Writing

/-- A `file_write` that returns has replaced the bytes that it says, and moved the position by
their number. -/
theorem fileWrite_puts (h : Uses ino fd.toNat s) (hw : Writable fd s) {base : Bytes} {len : Nat}
    (hsome : 0 < len) (hlen : len < 2 ^ 31) {res : Except Errno (Except Errno Unit × Nat)}
    (heq : fileWrite fd base len s = .ok (res, s')) :
    Checked s ino ∧
      (¬(position s fd < 0 ∨ (SFS_MAX_FILE_SIZE : Int) ≤ position s fd) →
        (position s fd).toNat / SFS_BLKSIZE ≤ (dinOf s.sfs ino).blocks) ∧
      ∃ r m sfs', res = .ok (r, m) ∧ s' = moved s fd.toNat sfs' m ∧ m ≤ len ∧
        (m ≠ 0 ∨ (position s fd).toNat ≤ (dinOf s.sfs ino).size →
          RegularFile ino sfs' ∧ Replaced s.sfs sfs' ino base (position s fd).toNat m) ∧
        (m ≠ 0 → 0 ≤ position s fd) ∧ (r = .ok () → m ≠ 0) := by
  by_cases hchecked : Checked s ino
  · cases hrun : sfsIo ino (iobufInit base len (position s fd)) true s.sfs with
    | error a =>
        have hchecked' : Checked (acquired s fd.toNat) ino := hchecked
        have hfile : RegularFile ino (acquired s fd.toNat).sfs := h.file
        have hrun' : sfsIo ino (iobufInit base len (position s fd)) true
            (acquired s fd.toNat).sfs = .error a := hrun
        have habort : vopWrite ino (iobufInit base len (position s fd)) (acquired s fd.toNat) =
            .error a := by
          rw [vopWrite_of_checked hfile hchecked', onSfs, hrun']
        rw [fileWrite_eq h hw, bind_of_abort habort] at heq
        cases heq
    | ok out =>
        obtain ⟨res₀, sfs'⟩ := out
        obtain ⟨hfirst, r, iob, rfl, hle, hdone, hpos, hok⟩ := sfsIo_puts h.file hsome hlen hrun
        rw [fileWrite_of_run h hw hchecked hrun] at heq
        cases heq
        exact ⟨hchecked, hfirst, r, iobufUsed iob, sfs', rfl, rfl, hle, hdone, hpos, hok⟩
  · rw [fileWrite_of_panic h hw (.inl hchecked)] at heq
    cases heq

/-- `copy_from_user` where it finds the bytes of user memory. -/
def copyFrom (user : Bytes) (readable : Nat → Nat → Bool) (start n : Nat) : Option Bytes :=
  if readable start n = true then some fun k => user (start + k) else none

theorem replaced_round {sfs sfs₁ sfs' : SfsFs} {user : Bytes} {copied offset m n : Nat}
    (hsome : m ≠ 0) (h : Replaced sfs sfs₁ ino (fun k => user (copied + k)) offset m)
    (h' : Replaced sfs₁ sfs' ino (fun k => user (copied + m + k)) (offset + m) n) :
    Replaced sfs sfs' ino (fun k => user (copied + k)) offset (m + n) := by
  have hsize := h.size
  rw [if_neg hsome] at hsize
  constructor
  case size =>
    have hsize' := h'.size
    rw [hsize] at hsize'
    have hmore : ¬m + n = 0 := by omega
    rw [hsize', if_neg hmore]
    split
    · next hzero => rw [hzero, Nat.add_zero]
    · omega
  case bytes =>
    intro k hk
    have hnext := h'.bytes k (by omega)
    rw [hnext]
    by_cases hlast : offset + m ≤ k ∧ k < offset + m + n
    · rw [if_pos hlast, if_pos (by omega)]
      congr 1
      omega
    · rw [if_neg hlast, h.bytes k (by omega)]
      by_cases hfirst : offset ≤ k ∧ k < offset + m
      · rw [if_pos hfirst, if_pos (by omega)]
      · have hout : ¬(offset ≤ k ∧ k < offset + (m + n)) := by omega
        rw [if_neg hfirst, if_neg hout]

/-- What the loop of `sysfile_write` leaves: `n` bytes of user memory are in the file. -/
structure Sent (ino : Nat) (fd : Int) (user : Bytes) (s : VfsState) (len copied : Nat)
    (r : Except Errno Unit) (n : Nat) (s' : VfsState) : Prop where
  moves : position s' fd = position s fd + n
  le : n ≤ len
  nonneg : n ≠ 0 → 0 ≤ position s fd
  replaced : n ≠ 0 ∨ (position s fd).toNat ≤ (dinOf s.sfs ino).size →
    Replaced s.sfs s'.sfs ino (fun k => user (copied + k)) (position s fd).toNat n
  fails : len ≠ 0 → n = 0 → ∃ e, r = .error e

theorem sent_none {user : Bytes} {len copied : Nat} {r : Except Errno Unit}
    (hcode : len ≠ 0 → ∃ e, r = .error e) : Sent ino fd user s len copied r 0 s where
  moves := (Int.add_zero _).symm
  le := Nat.zero_le _
  nonneg hne := absurd rfl hne
  replaced _ := Replaced.refl s.sfs ino _ _
  fails hne _ := hcode hne

/-- The loop of `sysfile_write`. -/
theorem writeChunks_sends {user : Bytes} {readable : Nat → Nat → Bool} (fuel : Nat) :
    ∀ len copied s (res : Except Errno (Except Errno Unit × Nat)) s', Uses ino fd.toNat s →
      Writable fd s → len ≤ fuel → len < 2 ^ 31 →
      writeChunks fd (copyFrom user readable) fuel len copied s = .ok (res, s') →
      ∃ r n, res = .ok (r, copied + n) ∧ Sent ino fd user s len copied r n s' := by
  induction fuel with
  | zero =>
      intro len copied s res s' _ _ hle _ heq
      cases heq
      exact ⟨.ok (), 0, rfl, sent_none fun hne => absurd (Nat.le_zero.mp hle) hne⟩
  | succ fuel ih =>
      intro len copied s res s' h hw hle hlen heq
      rcases Nat.eq_zero_or_pos len with rfl | hpos
      · cases heq
        exact ⟨.ok (), 0, rfl, sent_none fun hne => absurd rfl hne⟩
      by_cases hfound : readable copied (min IOBUF_SIZE len) = true
      swap
      · rw [writeChunks, if_neg (Nat.ne_of_gt hpos), copyFrom, if_neg hfound] at heq
        cases heq
        exact ⟨.error .eInval, 0, rfl, sent_none fun _ => ⟨_, rfl⟩⟩
      rw [writeChunks, if_neg (Nat.ne_of_gt hpos), copyFrom, if_pos hfound] at heq
      have hchunk : 0 < min IOBUF_SIZE len := lt_min (by decide) hpos
      obtain ⟨res₁, s₁, hrun, hrest⟩ := attempt_bind_eq_ok_iff.mp heq
      obtain ⟨_, _, r₁, m, sfs₁, rfl, rfl, hm, hdone, hnonneg, hcode⟩ :=
        fileWrite_puts h hw hchunk (by omega) hrun
      have hmoved := position_moved s fd sfs₁ m
      simp only at hrest
      rcases Nat.eq_zero_or_pos m with rfl | hsome
      · rw [if_pos rfl] at hrest
        cases hrest
        refine ⟨r₁, 0, rfl, ?_, Nat.zero_le _, fun hne => absurd rfl hne,
          fun hplace => (hdone hplace).2,
          fun _ _ => ?_⟩
        · exact hmoved
        · rcases r₁ with e | ⟨⟩
          · exact ⟨e, rfl⟩
          · exact absurd rfl (hcode rfl)
      · have hne : m ≠ 0 := Nat.ne_of_gt hsome
        have hbound : m ≤ len := le_trans hm (min_le_right _ _)
        obtain ⟨hfile, hreplaced⟩ := hdone (.inl hne)
        rw [if_neg hne, ensure_bind_of hbound] at hrest
        rcases r₁ with e | ⟨⟩
        · cases hrest
          exact ⟨.error e, m, rfl, hmoved, hbound, hnonneg, fun _ => hreplaced,
            fun _ hzero => absurd hzero hne⟩
        · obtain ⟨r, n, rfl, hsent⟩ := ih (len - m) (copied + m) _ res s' (h.moved hfile m)
            (hw.moved _ m) (by omega) (by omega) hrest
          have hoffset : (position (moved s fd.toNat sfs₁ m) fd).toNat =
              (position s fd).toNat + m := by
            have := hnonneg hne
            rw [hmoved]
            omega
          have hinside : (position s fd).toNat + m ≤ (dinOf sfs₁ ino).size := by
            rw [hreplaced.size, if_neg hne]
            exact le_max_right _ _
          have hnext := hsent.replaced (.inr (by rw [hoffset]; exact hinside))
          rw [hoffset] at hnext
          have hmore := hsent.le
          refine ⟨r, m + n, by rw [Nat.add_assoc], ?_, by omega, fun _ => hnonneg hne,
            fun _ => replaced_round hne hreplaced hnext, fun _ hzero => ?_⟩
          · rw [hsent.moves, hmoved]
            push_cast
            omega
          · exact absurd (Nat.eq_zero_of_add_eq_zero_right hzero) hne

/-- The loop of `sysfile_write` where there is space for all the bytes. -/
theorem writeChunks_affords {user : Bytes} {readable : Nat → Nat → Bool} {n : Nat} (fuel : Nat) :
    ∀ len copied s, Uses ino fd.toNat s → Writable fd s → Checked s ino → Steady s.sfs →
      len ≤ fuel → len < 2 ^ 31 → 0 ≤ position s fd → Affords s.sfs ino n →
      blocksFor ((position s fd).toNat + len) ≤ n →
      (position s fd).toNat / SFS_BLKSIZE ≤ (dinOf s.sfs ino).blocks →
      (∀ start m, start + m ≤ copied + len → readable start m = true) →
      ∃ s', writeChunks fd (copyFrom user readable) fuel len copied s =
        .ok (.ok (.ok (), copied + len), s') := by
  induction fuel with
  | zero =>
      intro len copied s _ _ _ _ hle _ _ _ _ _ _
      rw [Nat.le_zero.mp hle]
      exact ⟨s, rfl⟩
  | succ fuel ih =>
      intro len copied s h hw hchecked hsteady hle hlen hpos hafford hend hfirst hall
      rcases Nat.eq_zero_or_pos len with rfl | hsome
      · exact ⟨s, rfl⟩
      have hchunk : 0 < min IOBUF_SIZE len := lt_min (by decide) hsome
      have hless : min IOBUF_SIZE len < 2 ^ 31 := by omega
      obtain ⟨offset, hoffset⟩ := Int.eq_ofNat_of_zero_le hpos
      rw [hoffset, Int.toNat_natCast] at hend hfirst
      obtain ⟨iob, sfs₁, hrun, hused, hsteady₁, hafford₁, hreach⟩ := sfsIo_affords h.file hsteady
        hchunk hless hafford
        (le_trans (blocksFor_mono (Nat.add_le_add_left (min_le_right _ _) _)) hend)
        hfirst (fun k => user (copied + k))
      obtain ⟨_, _, _, hsame, _, hdone, _, _⟩ := sfsIo_puts h.file hchunk hless hrun
      cases hsame
      obtain ⟨hfile₁, _⟩ := hdone (.inl (by omega))
      rw [← hoffset] at hrun
      have hwrite := fileWrite_of_run h hw hchecked hrun
      rw [hused] at hwrite
      have hmoved := position_moved s fd sfs₁ (min IOBUF_SIZE len)
      have hnext : (position (moved s fd.toNat sfs₁ (min IOBUF_SIZE len)) fd).toNat =
          offset + min IOBUF_SIZE len := by
        rw [hmoved]
        omega
      obtain ⟨s', heq⟩ := ih (len - min IOBUF_SIZE len) (copied + min IOBUF_SIZE len)
        (moved s fd.toNat sfs₁ (min IOBUF_SIZE len)) (h.moved hfile₁ _) (hw.moved _ _) hchecked
        hsteady₁ (by omega) (by omega) (by omega) hafford₁
        (by
          rw [hnext, Nat.add_assoc, Nat.add_sub_cancel' (min_le_right _ _)]
          exact hend)
        (by
          rw [hnext]
          exact Nat.div_le_of_le_mul (by rw [Nat.mul_comm]; exact hreach))
        fun start m hm => hall start m (by omega)
      refine ⟨s', ?_⟩
      have hfound : copyFrom user readable copied (min IOBUF_SIZE len) =
          some fun k => user (copied + k) := if_pos (hall _ _ (by omega))
      have hsum : copied + min IOBUF_SIZE len + (len - min IOBUF_SIZE len) = copied + len := by
        omega
      rw [writeChunks_goes_on hsome hfound hchunk (min_le_right _ _) hwrite, heq, hsum]

end Writing

section Calls

variable {len : Nat} {user : Bytes}

/-- `sysfile_read` with one transfer in place of its loop. -/
def sysfileReadOnce (fd : Int) (len : Nat) (kmalloced : Option Bytes) : Routine VfsState Nat := do
  if len = 0 then
    return 0
  else
    let readable ← fileTestfd fd true false
    if readable = false then
      fail .eInval
    else
      match kmalloced with
      | none => fail .eNoMem
      | some buffer =>
          let (r, alen, _) ← fileRead fd buffer len
          copiedOr r alen alen

/-- `sysfile_write` with one transfer in place of its loop. -/
def sysfileWriteOnce (fd : Int) (user : Bytes) (len : Nat) (kmalloced : Bool) :
    Routine VfsState Nat := do
  if len = 0 then
    return 0
  else
    let writable ← fileTestfd fd false true
    if writable = false then
      fail .eInval
    else if kmalloced = false then
      fail .eNoMem
    else
      let (r, alen) ← fileWrite fd user len
      copiedOr r alen alen

/-- The bytes of a call of `sysfile_read`, the position after it, and its result. -/
structure ReadDelivers (ino : Nat) (fd : Int) (user : Bytes) (len : Nat) (kmalloced : Option Bytes)
    (copyToUser : Nat → Nat → Bool) (s : VfsState) : Prop where
  gives : ∀ n user' s', sysfileRead fd user len kmalloced copyToUser s =
      .ok (.ok (n, user'), s') →
    position s' fd = position s fd + n ∧ n ≤ available s.sfs ino (position s fd) len ∧
      ∀ k, k < n → user' k = byteAt s.sfs ino ((position s fd).toNat + k)
  fails : ∀ e s', sysfileRead fd user len kmalloced copyToUser s = .ok (.error e, s') →
    position s' fd = position s fd
  single : Steady s.sfs → (∀ start m, start + m ≤ len → copyToUser start m = true) →
    ∀ r s₁, sysfileReadOnce fd len kmalloced s = .ok (r, s₁) →
      ∃ user' s', sysfileRead fd user len kmalloced copyToUser s =
        .ok (r.map fun n => (n, user'), s')

/-- The file can take `len` bytes at the position, and the disk has the blocks for them. -/
def HasSpace (ino : Nat) (fd : Int) (len : Nat) (s : VfsState) : Prop :=
  blocksFor ((position s fd).toNat + len) ≤ maxBlocks ∧
    blocksNeeded (dinOf s.sfs ino) (blocksFor ((position s fd).toNat + len)) ≤ freeCount s.sfs

/-- The bytes of a call of `sysfile_write`, the position after it, and its result. -/
structure WriteDelivers (ino : Nat) (fd : Int) (user : Bytes) (len : Nat) (kmalloced : Bool)
    (readable : Nat → Nat → Bool) (s : VfsState) : Prop where
  gives : ∀ n s', sysfileWrite fd len kmalloced (copyFrom user readable) s = .ok (.ok n, s') →
    position s' fd = position s fd + n ∧ n ≤ len ∧ (n ≠ 0 → 0 ≤ position s fd) ∧
      Replaced s.sfs s'.sfs ino user (position s fd).toNat n
  fails : ∀ e s', sysfileWrite fd len kmalloced (copyFrom user readable) s = .ok (.error e, s') →
    position s' fd = position s fd
  single : Steady s.sfs → HasSpace ino fd len s →
    (∀ start m, start + m ≤ len → readable start m = true) →
    ∀ r s₁, sysfileWriteOnce fd user len kmalloced s = .ok (r, s₁) →
      ∃ s', sysfileWrite fd len kmalloced (copyFrom user readable) s = .ok (r, s')

theorem copiedOr_run {α : Type} (r : Except Errno Unit) (copied : Nat) (a : α) (s : VfsState) :
    copiedOr r copied a s = .ok ((if copied ≠ 0 then .ok a else r.map fun _ => a), s) := by
  unfold copiedOr
  split
  · rfl
  · match r with
    | .error _ => rfl
    | .ok _ => rfl

/-- A call that reads nothing, or the loop and the end of `sysfile_read`. -/
theorem sysfileRead_cases (fd : Int) (user : Bytes) (len : Nat) (kmalloced : Option Bytes)
    (copyToUser : Nat → Nat → Bool) (s : VfsState) :
    (∃ r, sysfileRead fd user len kmalloced copyToUser s =
        .ok (r.map fun n => (n, user), s) ∧
      sysfileReadOnce fd len kmalloced s = .ok (r, s) ∧ ∀ n, r = .ok n → n = 0) ∧
      ¬(len ≠ 0 ∧ Readable fd s ∧ kmalloced ≠ none) ∨
    ∃ buffer, kmalloced = some buffer ∧ 0 < len ∧ Readable fd s ∧
      sysfileRead fd user len kmalloced copyToUser s = (do
        let (r, copied, user) ← readChunks fd copyToUser len len 0 buffer user
        copiedOr r copied (copied, user) : Routine VfsState (Nat × Bytes)) s ∧
      sysfileReadOnce fd len kmalloced s = (do
        let (r, alen, _) ← fileRead fd buffer len
        copiedOr r alen alen : Routine VfsState Nat) s := by
  rcases Nat.eq_zero_or_pos len with rfl | hpos
  · refine .inl ⟨⟨.ok 0, rfl, rfl, fun n hn => ?_⟩, fun hnot => hnot.1 rfl⟩
    cases hn
    rfl
  have hlen : ¬len = 0 := Nat.ne_of_gt hpos
  by_cases hr : Readable fd s
  · match kmalloced with
    | none =>
        refine .inl ⟨⟨.error .eNoMem, ?_, ?_, fun n hn => by cases hn⟩, fun hnot => hnot.2.2 rfl⟩
        · unfold sysfileRead
          rw [if_neg hlen, bind_of_ok (fileTestfd_of_readable hr)]
          rfl
        · unfold sysfileReadOnce
          rw [if_neg hlen, bind_of_ok (fileTestfd_of_readable hr)]
          rfl
    | some buffer =>
        refine .inr ⟨buffer, rfl, hpos, hr, ?_, ?_⟩
        · unfold sysfileRead
          rw [if_neg hlen, bind_of_ok (fileTestfd_of_readable hr)]
          rfl
        · unfold sysfileReadOnce
          rw [if_neg hlen, bind_of_ok (fileTestfd_of_readable hr)]
          rfl
  · refine .inl ⟨⟨.error .eInval, ?_, ?_, fun n hn => by cases hn⟩, fun hnot => hr hnot.2.1⟩
    · unfold sysfileRead
      rw [if_neg hlen, bind_of_ok (fileTestfd_of_not_readable hr)]
      rfl
    · unfold sysfileReadOnce
      rw [if_neg hlen, bind_of_ok (fileTestfd_of_not_readable hr)]
      rfl

/-- The same for writing. -/
theorem sysfileWriteOnce_cases (fd : Int) (user : Bytes) (len : Nat) (kmalloced : Bool)
    (readable : Nat → Nat → Bool) (s : VfsState) :
    (∃ r, sysfileWrite fd len kmalloced (copyFrom user readable) s = .ok (r, s) ∧
      sysfileWriteOnce fd user len kmalloced s = .ok (r, s) ∧ ∀ n, r = .ok n → n = 0) ∨
    0 < len ∧ Writable fd s ∧
      sysfileWrite fd len kmalloced (copyFrom user readable) s = (do
        let (r, copied) ← writeChunks fd (copyFrom user readable) len len 0
        copiedOr r copied copied : Routine VfsState Nat) s ∧
      sysfileWriteOnce fd user len kmalloced s = (do
        let (r, alen) ← fileWrite fd user len
        copiedOr r alen alen : Routine VfsState Nat) s := by
  rcases Nat.eq_zero_or_pos len with rfl | hpos
  · refine .inl ⟨.ok 0, rfl, rfl, fun n hn => ?_⟩
    cases hn
    rfl
  have hlen : ¬len = 0 := Nat.ne_of_gt hpos
  by_cases hw : Writable fd s
  · match kmalloced with
    | false =>
        refine .inl ⟨.error .eNoMem, ?_, ?_, fun n hn => by cases hn⟩
        · rw [sysfileWrite, if_neg hlen, bind_of_ok (fileTestfd_of_writable hw)]
          rfl
        · rw [sysfileWriteOnce, if_neg hlen, bind_of_ok (fileTestfd_of_writable hw)]
          rfl
    | true =>
        refine .inr ⟨hpos, hw, ?_, ?_⟩
        · rw [sysfileWrite, if_neg hlen, bind_of_ok (fileTestfd_of_writable hw)]
          rfl
        · rw [sysfileWriteOnce, if_neg hlen, bind_of_ok (fileTestfd_of_writable hw)]
          rfl
  · refine .inl ⟨.error .eInval, ?_, ?_, fun n hn => by cases hn⟩
    · rw [sysfileWrite, if_neg hlen, bind_of_ok (fileTestfd_of_not hw)]
      rfl
    · rw [sysfileWriteOnce, if_neg hlen, bind_of_ok (fileTestfd_of_not hw)]
      rfl

variable {kmalloced : Option Bytes} {copyToUser : Nat → Nat → Bool}

/-- The call gets to its loop, and `inode_check` lets it read. -/
structure Reads (ino : Nat) (fd : Int) (len : Nat) (kmalloced : Option Bytes) (s : VfsState) :
    Prop where
  some : len ≠ 0
  readable : Readable fd s
  buffer : kmalloced ≠ none
  checked : Checked s ino

theorem readDelivers_of_not (h : Uses ino fd.toNat s) (hnot : ¬Reads ino fd len kmalloced s) :
    ReadDelivers ino fd user len kmalloced copyToUser s := by
  rcases sysfileRead_cases fd user len kmalloced copyToUser s with
    ⟨⟨r, hread, honce, hzero⟩, _⟩ | ⟨buffer, rfl, hpos, hr, hread, honce⟩
  · constructor
    case gives =>
      intro n user' s' heq
      rw [hread] at heq
      rcases r with e | m
      · cases heq
      · cases heq
        rw [hzero n rfl]
        exact ⟨(Int.add_zero _).symm, Nat.zero_le _, fun k hk => absurd hk (Nat.not_lt_zero k)⟩
    case fails =>
      intro e s' heq
      rw [hread] at heq
      cases (Prod.mk.inj (Except.ok.inj heq)).2
      rfl
    case single =>
      intro _ _ r₁ s₁ heq
      rw [honce] at heq
      cases heq
      exact ⟨user, s, hread⟩
  · have hchecked : ¬Checked s ino := fun hchecked =>
      hnot ⟨Nat.ne_of_gt hpos, hr, Option.some_ne_none buffer, hchecked⟩
    have hloop : readChunks fd copyToUser len len 0 buffer user s = .error .panic := by
      obtain ⟨fuel, rfl⟩ := Nat.exists_eq_succ_of_ne_zero (Nat.ne_of_gt hpos)
      rw [readChunks, if_neg (Nat.succ_ne_zero fuel)]
      exact attempt_bind_abort (fileRead_of_not_checked h hr hchecked buffer _)
    have hpanic := hread.trans (bind_of_abort hloop)
    have hpanic' := honce.trans (bind_of_abort (fileRead_of_not_checked h hr hchecked buffer len))
    constructor
    case gives =>
      intro n user' s' heq
      rw [hpanic] at heq
      cases heq
    case fails =>
      intro e s' heq
      rw [hpanic] at heq
      cases heq
    case single =>
      intro _ _ r₁ s₁ heq
      rw [hpanic'] at heq
      cases heq

/-- What a call gives that gets to its loop. -/
theorem sysfileRead_fetches (h : Uses ino fd.toNat s) (hlen : len < 2 ^ 31)
    (hreads : Reads ino fd len kmalloced s) :
    ∃ r n lost user' s', sysfileRead fd user len kmalloced copyToUser s =
        .ok ((if n ≠ 0 then .ok (n, user') else r.map fun _ => (n, user')), s') ∧
      Fetched ino fd copyToUser s len 0 user r n lost user' s' ∧
      (Steady s.sfs → Complete ino fd copyToUser s len 0 r n lost ∧
        ∃ s₁, sysfileReadOnce fd len kmalloced s =
          .ok ((if available s.sfs ino (position s fd) len ≠ 0
            then .ok (available s.sfs ino (position s fd) len)
            else (emptyCode (position s fd) len).map
              fun _ => available s.sfs ino (position s fd) len), s₁)) := by
  rcases sysfileRead_cases fd user len kmalloced copyToUser s with
    ⟨_, hnot⟩ | ⟨buffer, rfl, hpos, hr, hread, honce⟩
  · exact absurd ⟨hreads.some, hreads.readable, hreads.buffer⟩ hnot
  · obtain ⟨r, n, lost, user', s', hloop, hfetched, hcomplete⟩ := readChunks_fetches len len 0 buffer
      user s h hr hreads.checked le_rfl hlen
    obtain ⟨r₁, m, buf, k, hrun, _, _, hall⟩ := fileRead_gets h hr hreads.checked hlen buffer
    rw [Nat.zero_add] at hloop
    refine ⟨r, n, lost, user', s', ?_, hfetched, fun hsteady => ⟨hcomplete hsteady, ?_⟩⟩
    · exact hread.trans ((bind_of_ok hloop).trans (copiedOr_run r n (n, user') s'))
    · obtain ⟨rfl, rfl⟩ := hall hsteady
      exact ⟨_, honce.trans ((bind_of_ok hrun).trans (copiedOr_run _ _ _ _))⟩

/-- The position has moved by what the call says. -/
theorem readDelivers_of_kept (h : Uses ino fd.toNat s) (hlen : len < 2 ^ 31)
    (hreads : Reads ino fd len kmalloced s) {r : Except Errno Unit} {n : Nat} {user' : Bytes}
    (hread : sysfileRead fd user len kmalloced copyToUser s =
      .ok ((if n ≠ 0 then .ok (n, user') else r.map fun _ => (n, user')), s'))
    (hfetched : Fetched ino fd copyToUser s len 0 user r n 0 user' s')
    (hcomplete : Steady s.sfs → Complete ino fd copyToUser s len 0 r n 0) :
    ReadDelivers ino fd user len kmalloced copyToUser s := by
  have hmoves : position s' fd = position s fd + n := by
    rw [hfetched.moves]
    exact Int.add_zero _
  constructor
  case gives =>
    intro m user₁ s₁ heq
    have hsame : m = n ∧ user₁ = user' ∧ s₁ = s' := by
      rw [hread] at heq
      split at heq
      · cases heq
        exact ⟨rfl, rfl, rfl⟩
      · rcases r with e | ⟨⟩
        · cases heq
        · cases heq
          exact ⟨rfl, rfl, rfl⟩
    obtain ⟨rfl, rfl, rfl⟩ := hsame
    refine ⟨hmoves, hfetched.le, fun k hk => ?_⟩
    have hbyte := hfetched.bytes k hk
    rw [Nat.zero_add] at hbyte
    exact hbyte
  case fails =>
    intro e s₁ heq
    rw [hread] at heq
    split at heq
    · cases heq
    · next hzero =>
      cases (Prod.mk.inj (Except.ok.inj heq)).2
      omega
  case single =>
    intro hsteady _ r₁ s₁ heq
    obtain ⟨hn, hcode⟩ := (hcomplete hsteady).all rfl
    obtain ⟨_, _, _, _, _, _, _, hsingle⟩ :=
      @sysfileRead_fetches ino fd s len user kmalloced copyToUser h hlen hreads
    obtain ⟨_, s₂, honce⟩ := hsingle hsteady
    rw [honce] at heq
    cases heq
    refine ⟨user', s', ?_⟩
    rw [hread, ← hn]
    by_cases hzero : n = 0
    · rw [if_neg (not_not.mpr hzero), if_neg (not_not.mpr hzero), hcode hzero hreads.some]
      cases emptyCode (position s fd) len with
      | error e => rfl
      | ok => rfl
    · rw [if_pos hzero, if_pos hzero]
      rfl

theorem not_readDelivers {r : Except Errno Unit} {n lost : Nat} {user' : Bytes}
    (hread : sysfileRead fd user len kmalloced copyToUser s =
      .ok ((if n ≠ 0 then .ok (n, user') else r.map fun _ => (n, user')), s'))
    (hfetched : Fetched ino fd copyToUser s len 0 user r n lost user' s') (hlost : lost ≠ 0) :
    ¬ReadDelivers ino fd user len kmalloced copyToUser s := by
  intro hdelivers
  have hmoves := hfetched.moves
  by_cases hzero : n = 0
  · obtain ⟨e, rfl⟩ := hfetched.fails hlost hzero
    rw [if_neg (not_not.mpr hzero)] at hread
    have hstays := hdelivers.fails e s' hread
    omega
  · rw [if_pos hzero] at hread
    have hstays := (hdelivers.gives n user' s' hread).1
    omega

variable {allocated : Bool} {readable : Nat → Nat → Bool}

/-- What a call gives that gets to its loop. -/
theorem sysfileWrite_sends (h : Uses ino fd.toNat s) (hlen : len < 2 ^ 31) (hw : Writable fd s)
    {res : Except Errno Nat}
    (heq : (do
      let (r, copied) ← writeChunks fd (copyFrom user readable) len len 0
      copiedOr r copied copied : Routine VfsState Nat) s = .ok (res, s')) :
    ∃ r n, res = (if n ≠ 0 then .ok n else r.map fun _ => n) ∧
      Sent ino fd user s len 0 r n s' := by
  have hreturns : ∀ out s₁, writeChunks fd (copyFrom user readable) len len 0 s = .ok (out, s₁) →
      ∃ r n, out = .ok (r, n) ∧ Sent ino fd user s len 0 r n s₁ := by
    intro out s₁ hloop
    obtain ⟨r, n, hout, hsent⟩ := writeChunks_sends len len 0 s out s₁ h hw le_rfl hlen hloop
    rw [Nat.zero_add] at hout
    exact ⟨r, n, hout, hsent⟩
  rcases bind_eq_ok_iff.mp heq with ⟨⟨r, copied⟩, s₁, hloop, hrest⟩ | ⟨e, hloop, rfl⟩
  · obtain ⟨r, n, hout, hsent⟩ := hreturns _ s₁ hloop
    cases hout
    cases (copiedOr_run r copied copied s₁).symm.trans hrest
    exact ⟨r, copied, rfl, hsent⟩
  · obtain ⟨_, _, hout, _⟩ := hreturns _ s' hloop
    cases hout

theorem affords_of_hasSpace (h : RegularFile ino s.sfs) (hsteady : Steady s.sfs)
    (hspace : HasSpace ino fd len s) :
    Affords s.sfs ino
      (max (dinOf s.sfs ino).blocks (blocksFor ((position s fd).toNat + len))) := by
  obtain ⟨usage, hwf⟩ := h.wf
  rw [calm_of_steady hsteady] at hwf
  have hfile := hwf.loaded ino h.loaded
  refine ⟨le_max_left _ _, max_le (hwf.blocks_max ino hfile) hspace.1, ?_⟩
  rcases le_total (blocksFor ((position s fd).toNat + len)) (dinOf s.sfs ino).blocks with
    hle | hle
  · rw [max_eq_left hle, SfsGaps.blocksNeeded_of_le hwf hfile le_rfl]
    exact Nat.zero_le _
  · rw [max_eq_right hle]
    exact hspace.2

/-- With space, and with user memory that can be read, the loop gives what one transfer gives. -/
theorem writeChunks_single (h : Uses ino fd.toNat s) (hlen : len < 2 ^ 31) (hsome : 0 < len)
    (hw : Writable fd s) (hsteady : Steady s.sfs) (hspace : HasSpace ino fd len s)
    (hall : ∀ start m, start + m ≤ len → readable start m = true)
    {out : Except Errno (Except Errno Unit × Nat)} {s₁ : VfsState}
    (hrun : fileWrite fd user len s = .ok (out, s₁)) :
    ∃ r n s', out = .ok (r, n) ∧
      writeChunks fd (copyFrom user readable) len len 0 s = .ok (.ok (r, n), s') := by
  obtain ⟨hchecked, hfirst, _⟩ := fileWrite_puts h hw hsome hlen hrun
  have hbound : (position s fd).toNat + len < SFS_MAX_FILE_SIZE :=
    (endpos_of_range (le_trans (le_blocksFor _) (Nat.mul_le_mul_right _ hspace.1))).1
  rcases lt_or_ge (position s fd) 0 with hneg | hpos
  · have hchunk : 0 < min IOBUF_SIZE len := lt_min (by decide) hsome
    have hrefuses : ∀ (base : Bytes) n, 0 < n → n < 2 ^ 31 → ∃ s', fileWrite fd base n s =
        .ok (.ok (.error .eInval, 0), s') := by
      intro base n hn hless
      obtain ⟨iob, hio, hused⟩ := sfsIo_refuses h.file hn hless (.inl hneg) base
      have hwrite := fileWrite_of_run h hw hchecked hio
      rw [hused] at hwrite
      exact ⟨_, hwrite⟩
    obtain ⟨s₂, honce⟩ := hrefuses user len hsome hlen
    obtain ⟨s', hwrite⟩ := hrefuses (fun k => user (0 + k)) _ hchunk
      (lt_of_le_of_lt (min_le_right _ _) hlen)
    rw [honce] at hrun
    cases hrun
    have hfound : copyFrom user readable 0 (min IOBUF_SIZE len) = some fun k => user (0 + k) :=
      if_pos (hall _ _ (by omega))
    obtain ⟨fuel, hfuel⟩ := Nat.exists_eq_add_one_of_ne_zero (Nat.ne_of_gt hsome)
    have hlast : writeChunks fd (copyFrom user readable) (fuel + 1) len 0 s =
        .ok (.ok (.error .eInval, 0), s') := writeChunks_last hsome hfound hwrite
    rw [← hfuel] at hlast
    exact ⟨.error .eInval, 0, s', rfl, hlast⟩
  · have hafford := affords_of_hasSpace h.file hsteady hspace
    have hbelow : ¬(position s fd < 0 ∨ (SFS_MAX_FILE_SIZE : Int) ≤ position s fd) := by
      generalize SFS_MAX_FILE_SIZE = m at hbound
      omega
    obtain ⟨s', hloop⟩ := @writeChunks_affords ino fd user readable _ len len 0 s h hw
      hchecked hsteady le_rfl hlen hpos hafford (le_max_right _ _) (hfirst hbelow)
      (fun start m hm => hall start m (by omega))
    obtain ⟨offset, hoffset⟩ := Int.eq_ofNat_of_zero_le hpos
    have hend := le_max_right (dinOf s.sfs ino).blocks (blocksFor ((position s fd).toNat + len))
    have hreach := hfirst hbelow
    rw [hoffset, Int.toNat_natCast] at hafford hend hreach
    obtain ⟨iob, sfs₁, hio, hused, _⟩ := sfsIo_affords h.file hsteady hsome hlen hafford hend hreach
      user
    rw [← hoffset] at hio
    have hwrite := fileWrite_of_run h hw hchecked hio
    rw [hrun] at hwrite
    cases hwrite
    rw [hused]
    rw [Nat.zero_add] at hloop
    exact ⟨.ok (), len, s', rfl, hloop⟩

theorem writeDelivers (h : Uses ino fd.toNat s) (hlen : len < 2 ^ 31) :
    WriteDelivers ino fd user len allocated readable s := by
  rcases sysfileWriteOnce_cases fd user len allocated readable s with
    ⟨r, hwrite, honce, hzero⟩ | ⟨hpos, hw, hwrite, honce⟩
  · constructor
    case gives =>
      intro n s' heq
      rw [hwrite] at heq
      cases heq
      rw [hzero n rfl]
      exact ⟨(Int.add_zero _).symm, Nat.zero_le _, fun hne => absurd rfl hne,
        Replaced.refl s.sfs ino user _⟩
    case fails =>
      intro e s' heq
      rw [hwrite] at heq
      cases heq
      rfl
    case single =>
      intro _ _ _ r₁ s₁ heq
      rw [honce] at heq
      cases heq
      exact ⟨s, hwrite⟩
  · constructor
    case gives =>
      intro n s' heq
      rw [hwrite] at heq
      obtain ⟨r, m, hres, hsent⟩ := sysfileWrite_sends h hlen hw heq
      have hsome : m ≠ 0 := by
        intro hzero
        obtain ⟨e, rfl⟩ := hsent.fails (Nat.ne_of_gt hpos) hzero
        rw [if_neg (not_not.mpr hzero)] at hres
        cases hres
      rw [if_pos hsome] at hres
      cases hres
      have hreplaced := hsent.replaced (.inl hsome)
      simp only [Nat.zero_add] at hreplaced
      exact ⟨hsent.moves, hsent.le, hsent.nonneg, hreplaced⟩
    case fails =>
      intro e s' heq
      rw [hwrite] at heq
      obtain ⟨r, m, hres, hsent⟩ := sysfileWrite_sends h hlen hw heq
      have hmoves := hsent.moves
      split at hres
      · cases hres
      · omega
    case single =>
      intro hsteady hspace hall r₁ s₁ heq
      rw [honce] at heq
      have hreturns : ∀ out s₂, fileWrite fd user len s = .ok (out, s₂) → ∃ r n s',
          out = .ok (r, n) ∧
            writeChunks fd (copyFrom user readable) len len 0 s = .ok (.ok (r, n), s') :=
        fun out s₂ => writeChunks_single h hlen hpos hw hsteady hspace hall
      rcases bind_eq_ok_iff.mp heq with ⟨⟨r, n⟩, s₂, hrun, hrest⟩ | ⟨e, hrun, rfl⟩
      · obtain ⟨r, n, s', hout, hloop⟩ := hreturns _ s₂ hrun
        cases hout
        cases (copiedOr_run r n n s₂).symm.trans hrest
        exact ⟨s', hwrite.trans ((bind_of_ok hloop).trans (copiedOr_run r n n s'))⟩
      · obtain ⟨_, _, _, hout, _⟩ := hreturns _ s₁ hrun
        cases hout

/-- A write delivers what it says. A read does if user memory can be written; on a device that
does not fail, exactly if the rounds of what the file has at the position are accepted. -/
theorem delivers_iff (h : Uses ino fd.toNat s) (hlen : len < 2 ^ 31) :
    WriteDelivers ino fd user len allocated readable s ∧
    ((∀ start m, start + m ≤ len → copyToUser start m = true) →
      ReadDelivers ino fd user len kmalloced copyToUser s) ∧
    (Steady s.sfs → (ReadDelivers ino fd user len kmalloced copyToUser s ↔
      (Reads ino fd len kmalloced s →
        Accepted copyToUser 0 (available s.sfs ino (position s fd) len)))) := by
  refine ⟨writeDelivers h hlen, fun hall => ?_, fun hsteady => ?_⟩
  · by_cases hreads : Reads ino fd len kmalloced s
    · obtain ⟨r, n, lost, user', s', hread, hfetched, hcomplete⟩ :=
        @sysfileRead_fetches ino fd s len user kmalloced copyToUser h hlen hreads
      have hkept : lost = 0 := by
        by_contra hlost
        obtain ⟨m, _, hm, hrefused⟩ := hfetched.refused hlost
        rw [hall _ _ (by omega)] at hrefused
        cases hrefused
      subst hkept
      exact readDelivers_of_kept h hlen hreads hread hfetched fun hsteady => (hcomplete hsteady).1
    · exact readDelivers_of_not h hreads
  · by_cases hreads : Reads ino fd len kmalloced s
    · obtain ⟨r, n, lost, user', s', hread, hfetched, hcomplete⟩ :=
        @sysfileRead_fetches ino fd s len user kmalloced copyToUser h hlen hreads
      have haccepted := (hcomplete hsteady).1.accepted
      constructor
      · intro hdelivers _
        rw [← haccepted]
        by_contra hlost
        exact not_readDelivers hread hfetched hlost hdelivers
      · intro hcondition
        have hkept : lost = 0 := haccepted.mpr (hcondition hreads)
        subst hkept
        exact readDelivers_of_kept h hlen hreads hread hfetched fun hsteady =>
          (hcomplete hsteady).1
    · exact iff_of_true (readDelivers_of_not h hreads) fun hread => absurd hread hreads

theorem uses_halfRead : Uses 3 0 (halfRead.view 0) where
  file := regularFile_of_whole whole_smallVfs
  counted := (sound_halfRead 0).counted
  through _ := rfl

theorem delivers_halfRead :
    WriteDelivers 3 0 zeros 100 true (fun _ _ => true) (halfRead.view 0) ∧
      ReadDelivers 3 0 zeros 100 (some zeros) (fun _ _ => true) (halfRead.view 0) := by
  have hboth := @delivers_iff 3 0 (halfRead.view 0) 100 zeros (some zeros) (fun _ _ => true) true
    (fun _ _ => true) uses_halfRead (by decide)
  exact ⟨hboth.1, hboth.2.1 fun _ _ _ => rfl⟩

/-- Whether the read is refused behind its first part. -/
def refusedHalfway : Bool :=
  match sysfileRead 0 zeros 100 (some zeros) (fun _ _ => false) (halfRead.view 0) with
  | .ok (.error .eInval, s') => decide (position s' 0 = 100)
  | _ => false

/-- Fifty bytes are read and not accepted: the call fails, and the position has moved. -/
theorem not_readDelivers_halfRead : Uses 3 0 (halfRead.view 0) ∧
    ∃ s', sysfileRead 0 zeros 100 (some zeros) (fun _ _ => false) (halfRead.view 0) =
        .ok (.error .eInval, s') ∧
      position (halfRead.view 0) 0 = 50 ∧ position s' 0 = 100 ∧
      ¬ReadDelivers 3 0 zeros 100 (some zeros) (fun _ _ => false) (halfRead.view 0) := by
  have hsome : refusedHalfway = true := by decide +kernel
  rw [refusedHalfway] at hsome
  split at hsome
  · next s' heq =>
    have hmoved := of_decide_eq_true hsome
    refine ⟨uses_halfRead, s', heq, rfl, hmoved, fun hdelivers => ?_⟩
    have hstays := hdelivers.fails _ s' heq
    have hwas : position (halfRead.view 0) 0 = 50 := rfl
    omega
  · cases hsome

end Calls

end Ucore.SysFileTransfers
