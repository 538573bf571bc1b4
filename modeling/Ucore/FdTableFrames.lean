import Ucore.FdTableRuns
import Ucore.ProcessResources

/-! The entries that a call on a descriptor leaves alone, and tables whose entries are duplicates. -/

namespace Ucore.FdTableFrames

open Ucore.Errors
open Ucore.Panic
open Ucore.KernelRoutine
open Ucore.Interleaving
open Ucore.VfsFiles (File FILES_STRUCT_NENTRY NO_FD testfd)
open Ucore.FdTable
open Ucore.FdTableRuns

/-- Some entries of a table, as they are. -/
def Has (on : Nat → Prop) (file : Nat → File) (t : FdState) : Prop :=
  ∀ fd, on fd → t.fdArray fd = file fd

variable {on : Nat → Prop} {file : Nat → File} {α : Type} {fd : Nat}

/-- The routine leaves these entries alone. -/
def Leaves (on : Nat → Prop) (file : Nat → File) (x : Routine FdState α) : Prop :=
  Preserves (Has on file) x

section Entries

theorem leaves_modifyFile (h : ¬on fd) (g : File → File) : Leaves on file (modifyFile fd g) := by
  apply Preserves.modifyState
  intro t ht fd' hon
  have hne : fd' ≠ fd := by
    rintro rfl
    exact h hon
  change Function.update t.fdArray fd _ fd' = _
  rw [Function.update_of_ne hne]
  exact ht fd' hon

theorem leaves_newSession : Leaves on file newSession := by
  intro t r t' ht heq
  cases heq
  exact ht

theorem leaves_setSession (fd session : Nat) : Leaves on file (setSession fd session) :=
  Preserves.modifyState fun _ ht => ht

theorem leaves_callVfsClose (session : Nat) : Leaves on file (callVfsClose session) :=
  Preserves.modifyState fun _ ht => ht

theorem leaves_fdArrayFree (h : ¬on fd) : Leaves on file (fdArrayFree fd) := by
  apply Preserves.getState
  intro t
  apply Preserves.ensure_bind
  apply Preserves.ensure_bind
  apply Preserves.ite
  · exact (leaves_callVfsClose _).bind fun _ => Preserves.pure _
  · exact (leaves_modifyFile h _).bind fun _ => Preserves.pure _

theorem leaves_fdArrayAcquire (h : ¬on fd) : Leaves on file (fdArrayAcquire fd) := by
  apply Preserves.getState
  intro t
  apply Preserves.ensure_bind
  exact leaves_modifyFile h _

theorem leaves_fdArrayRelease (h : ¬on fd) : Leaves on file (fdArrayRelease fd) := by
  apply Preserves.getState
  intro t
  apply Preserves.ensure_bind
  apply Preserves.ensure_bind
  apply (leaves_modifyFile h _).bind
  intro _
  apply Preserves.ite
  · exact leaves_fdArrayFree h
  · exact Preserves.pure _

theorem leaves_fdArrayOpen (h : ¬on fd) : Leaves on file (fdArrayOpen fd) := by
  apply Preserves.getState
  intro t
  apply Preserves.ensure_bind
  exact leaves_modifyFile h _

theorem leaves_fdArrayClose (h : ¬on fd) : Leaves on file (fdArrayClose fd) := by
  apply Preserves.getState
  intro t
  apply Preserves.ensure_bind
  apply Preserves.ensure_bind
  apply (leaves_modifyFile h _).bind
  intro _
  apply Preserves.ite
  · exact leaves_fdArrayFree h
  · exact Preserves.pure _

theorem leaves_fdArrayDup (h : ¬on fd) (fromFd : Nat) : Leaves on file (fdArrayDup fd fromFd) := by
  apply Preserves.getState
  intro t
  apply Preserves.ensure_bind
  apply (leaves_modifyFile h _).bind
  intro _
  exact leaves_fdArrayOpen h

/-- The code goes on with an entry of the table. -/
theorem leaves_fd2file (fd : Int) {f : Nat → Routine FdState α}
    (hf : ∀ file', file' < FILES_STRUCT_NENTRY → Leaves on file (f file')) :
    Leaves on file (fd2file fd >>= f) := by
  intro t r t' ht heq
  rw [fd2file, routine_bind_assoc, getState_bind] at heq
  split at heq
  · next hfound =>
    have htest : 0 ≤ fd ∧ fd < FILES_STRUCT_NENTRY := of_decide_eq_true hfound.1
    exact hf fd.toNat (by omega) t r t' ht heq
  · cases heq
    exact ht

theorem leaves_fdArrayReserve (h : ¬on fd) : Leaves on file (fdArrayReserve fd) := by
  apply Preserves.getState
  intro t
  apply Preserves.ensure_bind
  exact (leaves_modifyFile h _).bind fun _ => Preserves.pure _

theorem fdArrayReserve_returns {t t' : FdState} {file' : Nat}
    (h : fdArrayReserve fd t = .ok (.ok file', t')) : file' = fd := by
  rw [fdArrayReserve, getState_bind] at h
  obtain ⟨_, h⟩ := ensure_bind_passed h
  cases h
  rfl

theorem fdArrayAlloc_lt {fd : Int} {t t' : FdState} {file' : Nat}
    (h : fdArrayAlloc fd t = .ok (.ok file', t')) : file' < FILES_STRUCT_NENTRY := by
  rw [fdArrayAlloc, getState_bind] at h
  split at h
  · cases hfind : (List.range FILES_STRUCT_NENTRY).find? fun fd =>
        (t.fdArray fd).status = .fdNone with
    | none =>
        rw [hfind] at h
        cases h
    | some found =>
        rw [hfind] at h
        rw [fdArrayReserve_returns h]
        exact List.mem_range.mp (List.mem_of_find?_eq_some hfind)
  · split at h
    · next htest =>
      have hrange : 0 ≤ fd ∧ fd < FILES_STRUCT_NENTRY := of_decide_eq_true htest
      split at h
      · rw [fdArrayReserve_returns h]
        omega
      · cases h
    · cases h

/-- The code goes on with a new entry of the table. -/
theorem leaves_fdArrayAlloc (hon : ∀ fd, fd < FILES_STRUCT_NENTRY → ¬on fd) (fd : Int)
    {f : Nat → Routine FdState α}
    (hf : ∀ file', file' < FILES_STRUCT_NENTRY → Leaves on file (f file')) :
    Leaves on file (fdArrayAlloc fd >>= f) := by
  have halloc : Leaves on file (fdArrayAlloc fd) := by
    apply Preserves.getState
    intro t
    apply Preserves.ite
    · cases hfind : (List.range FILES_STRUCT_NENTRY).find? fun fd =>
          (t.fdArray fd).status = .fdNone with
      | none => exact Preserves.fail _
      | some found =>
          apply leaves_fdArrayReserve
          exact hon found (List.mem_range.mp (List.mem_of_find?_eq_some hfind))
    · split
      · next htest =>
        have hrange : 0 ≤ fd ∧ fd < FILES_STRUCT_NENTRY := of_decide_eq_true htest
        apply Preserves.ite
        · apply leaves_fdArrayReserve
          exact hon fd.toNat (by omega)
        · exact Preserves.fail _
      · exact Preserves.fail _
  intro t r t' ht heq
  rcases bind_eq_ok_iff.mp heq with ⟨file', s, hrun, hrest⟩ | ⟨e, hrun, _⟩
  · exact hf file' (fdArrayAlloc_lt hrun) s r t' (halloc t _ s ht hrun) hrest
  · exact halloc t _ t' ht hrun

end Entries

section Calls

variable (hon : ∀ fd, fd < FILES_STRUCT_NENTRY → ¬on fd)
include hon

theorem leaves_fileTransfer (permitted : File → Bool) (fd : Int) :
    Leaves on file (fileTransfer permitted fd) := by
  apply leaves_fd2file
  intro file' hlt
  apply Preserves.getState
  intro t
  apply Preserves.ite
  · exact Preserves.fail _
  · exact (leaves_fdArrayAcquire (hon file' hlt)).bind fun _ => Preserves.pure _

theorem leaves_fileUse (fd : Int) : Leaves on file (fileUse fd) := by
  apply leaves_fd2file
  intro file' hlt
  exact (leaves_fdArrayAcquire (hon file' hlt)).bind fun _ => Preserves.pure _

theorem leaves_fileOpen (openFlags : Nat) : Leaves on file (fileOpen openFlags) := by
  rw [fileOpen]
  apply Preserves.ite
  · exact Preserves.fail _
  · exact leaves_fdArrayAlloc hon NO_FD fun file' _ => Preserves.pure _

theorem leaves_fileClose (fd : Int) : Leaves on file (fileClose fd) :=
  leaves_fd2file fd fun file' hlt => leaves_fdArrayClose (hon file' hlt)

theorem leaves_fileSeek (fd pos whence : Int) : Leaves on file (fileSeek fd pos whence) := by
  apply leaves_fd2file
  intro file' hlt
  apply (leaves_fdArrayAcquire (hon file' hlt)).bind
  intro _
  apply Preserves.getState
  intro t
  apply Preserves.ite
  · exact Preserves.pure _
  · apply Preserves.ite
    · exact Preserves.pure _
    · apply Preserves.ite
      · exact Preserves.pure _
      · exact leaves_fdArrayRelease (hon file' hlt)

theorem leaves_fileDup (fd1 fd2 : Int) : Leaves on file (fileDup fd1 fd2) := by
  apply leaves_fd2file
  intro file1 _
  apply leaves_fdArrayAlloc hon
  intro file2 hlt
  apply leaves_newSession.bind
  intro session
  apply (leaves_setSession file2 session).bind
  intro _
  exact (leaves_fdArrayDup (hon file2 hlt) file1).bind fun _ => Preserves.pure _

/-- A call changes entries of the table only. -/
theorem leaves_start (call : Call) : Leaves on file (start call) := by
  cases call with
  | «open» openFlags => exact leaves_fileOpen hon openFlags
  | close fd => exact leaves_fileClose hon fd
  | read fd => exact leaves_fileTransfer hon _ fd
  | write fd => exact leaves_fileTransfer hon _ fd
  | seek fd pos whence => exact leaves_fileSeek hon fd pos whence
  | fstat fd => exact leaves_fileUse hon fd
  | fsync fd => exact leaves_fileUse hon fd
  | getdirentry fd => exact leaves_fileUse hon fd
  | dup fd1 fd2 => exact leaves_fileDup hon fd1 fd2

end Calls

section Resumed

theorem leaves_fileOpened (h : ¬on fd) (openFlags node session : Nat) (pos : Int) :
    Leaves on file (fileOpened fd openFlags node session pos) := by
  apply (leaves_modifyFile h _).bind
  intro _
  apply (leaves_setSession fd session).bind
  intro _
  exact (leaves_fdArrayOpen h).bind fun _ => Preserves.pure _

theorem leaves_fileOpenNode (h : ¬on fd) (openFlags : Nat) (reply : Reply) :
    Leaves on file (fileOpenNode fd openFlags reply) := by
  rw [fileOpenNode]
  split
  · exact leaves_fdArrayFree h
  · apply leaves_newSession.bind
    intro session
    apply Preserves.ite
    · exact Preserves.pure _
    · exact leaves_fileOpened h _ _ _ _

theorem leaves_fileOpenPos (h : ¬on fd) (openFlags node session : Nat) (reply : Reply) :
    Leaves on file (fileOpenPos fd openFlags node session reply) := by
  rw [fileOpenPos]
  split
  · exact (leaves_callVfsClose session).bind fun _ => Preserves.pure _
  · exact leaves_fileOpened h _ _ _ _

theorem leaves_fileTransferred (h : ¬on fd) (reply : Reply) :
    Leaves on file (fileTransferred fd reply) :=
  (leaves_modifyFile h _).bind fun _ => leaves_fdArrayRelease h

theorem leaves_fileSeekEnd (h : ¬on fd) (pos : Int) (reply : Reply) :
    Leaves on file (fileSeekEnd fd pos reply) := by
  rw [fileSeekEnd]
  split
  · exact leaves_fdArrayRelease h
  · exact Preserves.pure _

theorem leaves_fileSought (h : ¬on fd) (pos : Int) (reply : Reply) :
    Leaves on file (fileSought fd pos reply) := by
  rw [fileSought]
  split
  · exact leaves_fdArrayRelease h
  · exact (leaves_modifyFile h _).bind fun _ => leaves_fdArrayRelease h

theorem leaves_fdArrayFreed (h : ¬on fd) : Leaves on file (fdArrayFreed fd) :=
  (leaves_modifyFile h _).bind fun _ => Preserves.pure _

/-- A suspended call changes its own entry only. -/
theorem leaves_resume {pc : Pc} (reply : Reply) (h : ∀ fd, on fd →
    role pc ≠ .reserves fd ∧ role pc ≠ .uses fd ∧ role pc ≠ .frees fd) :
    Leaves on file (resume reply pc) := by
  have hreserves : ∀ fd, role pc = .reserves fd → ¬on fd := fun fd hrole hon =>
    (h fd hon).1 hrole
  have huses : ∀ fd, role pc = .uses fd → ¬on fd := fun fd hrole hon => (h fd hon).2.1 hrole
  have hfrees : ∀ fd, role pc = .frees fd → ¬on fd := fun fd hrole hon => (h fd hon).2.2 hrole
  cases pc with
  | idle => exact Preserves.pure _
  | opening fd openFlags => exact leaves_fileOpenNode (hreserves fd rfl) openFlags reply
  | openFstat fd openFlags node session =>
      exact leaves_fileOpenPos (hreserves fd rfl) openFlags node session reply
  | openFailed fd => exact leaves_fdArrayFree (hreserves fd rfl)
  | transferring fd => exact leaves_fileTransferred (huses fd rfl) reply
  | seekFstat fd pos => exact leaves_fileSeekEnd (huses fd rfl) pos reply
  | seeking fd pos => exact leaves_fileSought (huses fd rfl) pos reply
  | «using» fd => exact leaves_fdArrayRelease (huses fd rfl)
  | freeing fd => exact leaves_fdArrayFreed (hfrees fd rfl)

end Resumed

section Sound

variable {ι : Type} [Fintype ι] [DecidableEq ι] {s : System ι} {i : ι}

/-- No suspended call is about a free entry. -/
theorem role_of_none (h : Sound s) (hnone : (s.shared.fdArray fd).status = .fdNone) :
    role (s.pc i) ≠ .reserves fd ∧ role (s.pc i) ≠ .uses fd ∧ role (s.pc i) ≠ .frees fd := by
  have hentry := h.entries fd
  simp only [EntryOk, hnone] at hentry
  obtain ⟨_, huses, hreserves, hfrees⟩ := hentry
  refine ⟨?_, ?_, ?_⟩
  · intro hrole
    have hpos : 0 < count (.reserves fd) s.pc := count_pos hrole
    omega
  · intro hrole
    have hpos : 0 < count (.uses fd) s.pc := count_pos hrole
    omega
  · intro hrole
    have hpos : 0 < count (.frees fd) s.pc := count_pos hrole
    omega

omit [DecidableEq ι] in
/-- Between calls an entry is free or open. -/
theorem status_between (h : Sound s) (hidle : ∀ p, s.pc p = .idle) (fd : Nat) :
    (s.shared.fdArray fd).status = .fdNone ∨
      (s.shared.fdArray fd).status = .fdOpened ∧ (s.shared.fdArray fd).openCount = 1 := by
  have hzero : ∀ r, r ≠ .none → count r s.pc = 0 := by
    intro r hr
    apply tally_eq_zero
    intro p
    rw [hidle p]
    exact decide_eq_false hr.symm
  have hentry := h.entries fd
  rw [hzero (.uses fd) (by simp), hzero (.reserves fd) (by simp), hzero (.frees fd) (by simp)]
    at hentry
  cases hstatus : (s.shared.fdArray fd).status with
  | fdNone => exact Or.inl rfl
  | fdOpened =>
      simp only [EntryOk, hstatus] at hentry
      exact Or.inr ⟨rfl, hentry.1⟩
  | fdInit =>
      simp only [EntryOk, hstatus] at hentry
      omega
  | fdClosed =>
      simp only [EntryOk, hstatus, if_true] at hentry
      omega

/-- The entry that `dup_files` fills in. -/
def duplicate (t : FdState) (fd : Nat) (file : File) : FdState :=
  { openedFor t fd t.opens (copied file { t.fdArray fd with status := .fdInit }) with
    opens := t.opens + 1 }

theorem dupEntry_of {t : FdState} {fd : Nat} {file : File} (hnode : file.node ≠ 0) :
    ProcessResources.dupEntry fd file t = .ok (.ok (), duplicate t fd file) := by
  let t' : FdState :=
    { t.setFile fd (copied file { t.fdArray fd with status := .fdInit }) with
      opens := t.opens + 1
      session := Function.update t.session fd t.opens }
  have hself : t'.fdArray fd = copied file { t.fdArray fd with status := .fdInit } :=
    setFile_self t fd _
  have hopen : fdArrayOpen fd t' = .ok (.ok (), t'.setFile fd (opened (t'.fdArray fd))) := by
    apply fdArrayOpen_of
    · rw [hself]
      rfl
    · rw [hself]
      exact hnode
  have hrun : ProcessResources.dupEntry fd file t = fdArrayOpen fd t' := by
    simp [ProcessResources.dupEntry, modifyFile, setSession, newSession, bind, Routine.andThen,
      modifyState, FdState.setFile, copied, t']
  rw [hrun, hopen, hself]
  simp [t', duplicate, openedFor, FdState.setFile]

theorem sound_duplicate (h : Sound s) (hidle : ∀ p, s.pc p = .idle) (i : ι) {file : File}
    (hnone : (s.shared.fdArray fd).status = .fdNone) (hnode : file.node ≠ 0) :
    Sound { shared := duplicate s.shared fd file, pc := s.pc } := by
  have hpc : Function.update s.pc i .idle = s.pc := by
    rw [← hidle i, Function.update_eq_self]
  have hrole : role (s.pc i) = .none := by rw [hidle, role_idle]
  have hentry := h.entries fd
  simp only [EntryOk, hnone] at hentry
  obtain ⟨hcount, huses, hreserves, hfrees⟩ := hentry
  have hdead : ¬Live (s.shared.fdArray fd) := by simp [Live, hnone]
  have hmoved : Sound { shared := duplicate s.shared fd file
                        pc := Function.update s.pc i .idle } := by
    refine h.move (duplicate s.shared fd file) .idle rfl (Or.inl hrole) (Or.inl rfl) ?_ ?_ h.nodup
      (by simp)
    · rw [hpc]
      change (s.shared.fdArray fd).openCount + 1 = _ + 1 ∧ _ ∧ _ ∧ _
      exact ⟨by omega, hreserves, hfrees, hnode⟩
    · apply owns_entry h (duplicate s.shared fd file) .idle rfl rfl rfl rfl hdead (Or.inl rfl)
      rw [hidle]
  rwa [hpc] at hmoved

theorem sound_dupEntries (i : ι) {from' : Nat → File}
    (hnode : ∀ fd, (from' fd).status = .fdOpened → (from' fd).node ≠ 0) {fds : List Nat}
    (hnodup : fds.Nodup) (h : Sound s) (hidle : ∀ p, s.pc p = .idle)
    (hnone : ∀ fd ∈ fds, (s.shared.fdArray fd).status = .fdNone) :
    ∃ t, ProcessResources.dupEntries from' fds s.shared = .ok (.ok (), t) ∧
      Sound { shared := t, pc := s.pc } ∧ ∀ fd, fd ∉ fds → t.fdArray fd = s.shared.fdArray fd := by
  induction fds generalizing s with
  | nil => exact ⟨s.shared, rfl, h, fun _ _ => rfl⟩
  | cons fd fds ih =>
      obtain ⟨hfd, hnodup⟩ := List.nodup_cons.mp hnodup
      rw [ProcessResources.dupEntries]
      rcases Decidable.em ((from' fd).status = .fdOpened) with hopened | hnot
      · have hfree := hnone fd (List.mem_cons_self ..)
        have hmade := sound_duplicate h hidle i hfree (hnode fd hopened)
        have hother : ∀ fd', fd' ≠ fd →
            (duplicate s.shared fd (from' fd)).fdArray fd' = s.shared.fdArray fd' := fun fd' hne =>
          Function.update_of_ne hne _ _
        have hrest : ∀ fd' ∈ fds,
            ((duplicate s.shared fd (from' fd)).fdArray fd').status = .fdNone := by
          intro fd' hmem
          rw [hother fd' (ne_of_mem_of_not_mem hmem hfd)]
          exact hnone fd' (List.mem_cons_of_mem _ hmem)
        obtain ⟨t, hrun, hsound, hsame⟩ := ih hnodup hmade hidle hrest
        refine ⟨t, ?_, hsound, ?_⟩
        · rw [if_pos hopened, bind_of_ok (dupEntry_of (hnode fd hopened))]
          exact hrun
        · intro fd' hnot
          obtain ⟨hne, hnot⟩ := not_or.mp (mt List.mem_cons.mpr hnot)
          exact (hsame fd' hnot).trans (hother fd' hne)
      · obtain ⟨t, hrun, hsound, hsame⟩ :=
          ih hnodup h hidle fun fd' hmem => hnone fd' (List.mem_cons_of_mem _ hmem)
        refine ⟨t, ?_, hsound, fun fd' hnot =>
          hsame fd' (mt (List.mem_cons_of_mem fd) hnot)⟩
        rw [if_neg hnot]
        exact hrun

/-- The last use of an entry ends in `vfs_close`. -/
theorem fdArrayClose_last {t : FdState} (hstatus : (t.fdArray fd).status = .fdOpened)
    (hcount : (t.fdArray fd).openCount = 1) :
    ∃ t', fdArrayClose fd t = .ok (.ok (.freeing fd), t') := by
  have hpos : 0 < (t.fdArray fd).openCount := by omega
  have hlast : (t.fdArray fd).openCount - 1 = 0 := by omega
  have hclose : fdArrayClose fd t = fdArrayFree fd
      (t.setFile fd { dropped (t.fdArray fd) with status := .fdClosed }) := by
    rw [fdArrayClose, getState_bind, ensure_bind_of hstatus, ensure_bind_of hpos]
    change (if (t.fdArray fd).openCount - 1 = 0 then fdArrayFree fd else return .idle) _ = _
    rw [if_pos hlast]
    rfl
  have hself := setFile_self t fd { dropped (t.fdArray fd) with status := .fdClosed }
  rw [hclose, fdArrayFree_closed]
  · exact ⟨_, rfl⟩
  · rw [hself]
  · rw [hself]
    exact hlast

/-- `files_destroy` comes to an open entry and closes it, or to the end of the table. -/
theorem destroyEntries_run (h : Sound s) (hidle : ∀ p, s.pc p = .idle) (i : ι) (rest : List Nat) :
    ∃ call left t, ProcessResources.destroyEntries rest s.shared = .ok (.ok (call, left), t) ∧
      Sound { shared := t, pc := Function.update s.pc i call } ∧
      Has (fun fd => (s.shared.fdArray fd).status = .fdNone) s.shared.fdArray t ∧
      (∀ fd ∈ rest, fd ∉ left → (t.fdArray fd).status = .fdNone) ∧
      (left = [] ∧ call = .idle ∨ ∃ fd fds, left = fd :: fds ∧ call = .freeing fd) ∧
      ∀ fd ∈ left, fd ∈ rest := by
  have hpc : Function.update s.pc i .idle = s.pc := by
    rw [← hidle i, Function.update_eq_self]
  induction rest with
  | nil =>
      refine ⟨.idle, [], s.shared, rfl, ?_, fun _ _ => rfl, ?_, Or.inl ⟨rfl, rfl⟩, ?_⟩
      · rw [hpc]
        exact h
      · simp
      · simp
  | cons fd fds ih =>
      rw [ProcessResources.destroyEntries, getState_bind]
      rcases status_between h hidle fd with hnone | ⟨hopened, hcount⟩
      · have hnot : (s.shared.fdArray fd).status ≠ .fdOpened := by simp [hnone]
        obtain ⟨call, left, t, hrun, hsound, hhas, hclosed, hcall, hleft⟩ := ih
        rw [if_neg hnot, ensure_bind_of hnone]
        refine ⟨call, left, t, hrun, hsound, hhas, ?_, hcall, ?_⟩
        · intro fd' hmem hgone
          rcases List.mem_cons.mp hmem with rfl | hmem
          · rw [hhas fd' hnone]
            exact hnone
          · exact hclosed fd' hmem hgone
        · exact fun fd' hmem => List.mem_cons_of_mem _ (hleft fd' hmem)
      · obtain ⟨t', hclose⟩ := fdArrayClose_last hopened hcount
        obtain ⟨r, t, hrun, hsound⟩ := goes_fdArrayClose h (hidle i) hopened
        cases hrun.symm.trans hclose
        have hleaves : Leaves (fun fd' => (s.shared.fdArray fd').status = .fdNone) s.shared.fdArray
            (fdArrayClose fd) := leaves_fdArrayClose (by simp [hopened])
        rw [if_pos hopened, bind_of_ok hclose]
        refine ⟨.freeing fd, fd :: fds, t', rfl, hsound, ?_, ?_, Or.inr ⟨fd, fds, rfl, rfl⟩, ?_⟩
        · exact hleaves s.shared _ t' (fun _ _ => rfl) hclose
        · exact fun fd' hmem hgone => absurd hmem hgone
        · exact fun fd' hmem => hmem

omit [DecidableEq ι] in
/-- When no entry is in use, each open has been closed. -/
theorem closed_perm (h : Sound s) (hnone : ∀ fd, (s.shared.fdArray fd).status = .fdNone)
    (hidle : ∀ p, s.pc p = .idle) : s.shared.closed.Perm (List.range s.shared.opens) := by
  rw [List.perm_ext_iff_of_nodup h.nodup List.nodup_range]
  intro session
  rw [List.mem_range]
  constructor
  · intro hclosed
    exact h.sessions.used_of_holds (o := .closed) hclosed
  · intro hopened
    obtain ⟨owner, howner⟩ := h.sessions.owned hopened
    cases owner with
    | closed => exact howner
    | entry fd =>
        rcases howner.1 with hstatus | ⟨hstatus, _⟩
        · rw [hnone fd] at hstatus
          cases hstatus
        · rw [hnone fd] at hstatus
          cases hstatus
    | thread p =>
        have hpending : pending (s.pc p) = some session := howner
        rw [hidle p] at hpending
        cases hpending

/-- `fd_array_close` returns no error. -/
theorem fdArrayClose_value {t t' : FdState} {r : Except Errno Pc}
    (hrun : fdArrayClose fd t = .ok (r, t')) : ∃ call, r = .ok call := by
  rw [fdArrayClose, getState_bind] at hrun
  obtain ⟨_, hrun⟩ := ensure_bind_passed hrun
  obtain ⟨_, hrun⟩ := ensure_bind_passed hrun
  rw [modifyFile, modifyState_bind] at hrun
  split at hrun
  · rw [fdArrayFree, getState_bind] at hrun
    obtain ⟨_, hrun⟩ := ensure_bind_passed hrun
    obtain ⟨_, hrun⟩ := ensure_bind_passed hrun
    split at hrun
    · cases hrun
      exact ⟨_, rfl⟩
    · cases hrun
      exact ⟨_, rfl⟩
  · cases hrun
    exact ⟨_, rfl⟩

/-- `files_closeall` comes to an open entry and closes it, or to the end of the table. -/
theorem closeallEntries_run (h : Sound s) (hidle : s.pc i = .idle) (fds : List Nat) :
    ∃ call left t, ProcessResources.closeallEntries fds s.shared = .ok (.ok (call, left), t) ∧
      Sound { shared := t, pc := Function.update s.pc i call } := by
  induction fds with
  | nil =>
      have hpc : Function.update s.pc i .idle = s.pc := by
        rw [← hidle, Function.update_eq_self]
      refine ⟨.idle, [], s.shared, rfl, ?_⟩
      rw [hpc]
      exact h
  | cons fd fds ih =>
      rw [ProcessResources.closeallEntries, getState_bind]
      rcases Decidable.em ((s.shared.fdArray fd).status = .fdOpened) with hopened | hnot
      · obtain ⟨r, t, hclose, hsound⟩ := goes_fdArrayClose h hidle hopened
        obtain ⟨call, rfl⟩ := fdArrayClose_value hclose
        refine ⟨call, fds, t, ?_, hsound⟩
        rw [if_pos hopened, bind_of_ok hclose]
        rfl
      · rw [if_neg hnot]
        exact ih

theorem leaves_closeallEntries {on : Nat → Prop} {file : Nat → File}
    (hnone : ∀ fd, on fd → (file fd).status = .fdNone) (fds : List Nat) :
    Leaves on file (ProcessResources.closeallEntries fds) := by
  induction fds with
  | nil => exact Preserves.pure _
  | cons fd fds ih =>
      apply Preserves.getState_apply
      intro t ht r t' heq
      split at heq
      · next hopened =>
        have hnot : ¬on fd := by
          intro hon
          rw [ht fd hon, hnone fd hon] at hopened
          cases hopened
        exact (leaves_fdArrayClose hnot).bind (fun _ => Preserves.pure _) t r t' ht heq
      · exact ih t r t' ht heq

end Sound

end Ucore.FdTableFrames
