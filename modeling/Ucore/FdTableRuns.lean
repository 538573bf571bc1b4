import Ucore.FdTable
import Ucore.Ownership

/-! The state machine of descriptors, over all interleavings of threads. -/

namespace Ucore.FdTableRuns

open Relation
open Ucore.Errors
open Ucore.KernelRoutine
open Ucore.Interleaving
open Ucore.Ownership
open Ucore.VfsFiles (File FdStatus FILES_STRUCT_NENTRY NO_FD O_ACCMODE O_RDONLY O_WRONLY testfd)
open Ucore.FdTable

/-- What a suspended thread has to do with an entry. -/
inductive Role where
  | none
  | reserves (fd : Nat)
  | uses (fd : Nat)
  | frees (fd : Nat)
  deriving DecidableEq

def role : Pc → Role
  | .idle => .none
  | .opening fd _ | .openFstat fd _ _ _ | .openFailed fd => .reserves fd
  | .transferring fd | .seekFstat fd _ | .seeking fd _ | .using fd => .uses fd
  | .freeing fd => .frees fd

/-- The session that a thread has not given to an entry yet. -/
def pending : Pc → Option Nat
  | .openFstat _ _ _ session => some session
  | _ => .none

/-- The entry is the one the role is about, if it is about one. -/
def About (fd : Nat) (r : Role) : Prop :=
  r = .none ∨ r = .reserves fd ∨ r = .uses fd ∨ r = .frees fd

/-- An entry that an open has not been closed for. -/
def Live (file : File) : Prop :=
  file.status = .fdOpened ∨ file.status = .fdClosed ∧ 0 < file.openCount

/-- The counter of an entry, given the numbers of threads that use, reserve and
free it. -/
def EntryOk (file : File) (inFlight reserving freeing : Nat) : Prop :=
  match file.status with
  | .fdNone => file.openCount = 0 ∧ inFlight = 0 ∧ reserving = 0 ∧ freeing = 0
  | .fdInit => file.openCount = 0 ∧ inFlight = 0 ∧ reserving = 1 ∧ freeing = 0
  | .fdOpened => file.openCount = inFlight + 1 ∧ reserving = 0 ∧ freeing = 0 ∧ file.node ≠ 0
  | .fdClosed => file.openCount = inFlight ∧ reserving = 0 ∧
      freeing = if inFlight = 0 then 1 else 0

variable {ι : Type} [Fintype ι] [DecidableEq ι]

/-- Number of threads with a role. -/
def count (r : Role) (pc : ι → Pc) : Nat :=
  tally (fun p => decide (role p = r)) pc

inductive Owner (ι : Type) where
  | entry (fd : Nat)
  | thread (i : ι)
  | closed

/-- Whether an open is the one of an entry or of a thread, or is closed. -/
def SessionOf (s : System ι) : Owner ι → Nat → Prop
  | .entry fd, k => Live (s.shared.fdArray fd) ∧ s.shared.session fd = k
  | .thread i, k => pending (s.pc i) = some k
  | .closed, k => k ∈ s.shared.closed

structure Sound (s : System ι) : Prop where
  entries : ∀ fd, EntryOk (s.shared.fdArray fd) (count (.uses fd) s.pc)
    (count (.reserves fd) s.pc) (count (.frees fd) s.pc)
  sessions : Owns (SessionOf s) fun k => k < s.shared.opens
  nodup : s.shared.closed.Nodup
  nodes : ∀ i fd openFlags node session, s.pc i = .openFstat fd openFlags node session → node ≠ 0

section Counting

variable {pc : ι → Pc} {i : ι} {x : Pc} {r : Role}

theorem count_update (r : Role) (pc : ι → Pc) (i : ι) (x : Pc) :
    count r (Function.update pc i x) + (if role (pc i) = r then 1 else 0) =
      count r pc + if role x = r then 1 else 0 := by
  have hmove := tally_update (fun p => decide (role p = r)) pc i x
  simpa only [count, decide_eq_true_eq] using hmove

theorem count_update_other (hold : role (pc i) ≠ r) (hnew : role x ≠ r) :
    count r (Function.update pc i x) = count r pc := by
  have hmove := count_update r pc i x
  rw [if_neg hold, if_neg hnew] at hmove
  exact hmove

theorem count_pos (h : role (pc i) = r) : 0 < count r pc :=
  tally_pos (decide_eq_true h)

theorem About.ne {fd f : Nat} (h : About fd r) (hne : f ≠ fd) :
    r ≠ .uses f ∧ r ≠ .reserves f ∧ r ≠ .frees f := by
  rcases h with rfl | rfl | rfl | rfl
  · simp
  · simp [hne.symm]
  · simp [hne.symm]
  · simp [hne.symm]

end Counting

variable {s : System ι} {i : ι}

/-- One thread and one entry change. -/
theorem Sound.move (h : Sound s) (t : FdState) (x : Pc) {fd : Nat} {file : File}
    (hfd : t.fdArray = Function.update s.shared.fdArray fd file)
    (hold : About fd (role (s.pc i))) (hnew : About fd (role x))
    (hhere : EntryOk file (count (.uses fd) (Function.update s.pc i x))
      (count (.reserves fd) (Function.update s.pc i x))
      (count (.frees fd) (Function.update s.pc i x)))
    (hsessions : Owns (SessionOf { shared := t, pc := Function.update s.pc i x })
      fun k => k < t.opens)
    (hnodup : t.closed.Nodup)
    (hnode : ∀ fd openFlags node session, x = .openFstat fd openFlags node session → node ≠ 0) :
    Sound { shared := t, pc := Function.update s.pc i x } where
  entries f := by
    change EntryOk (t.fdArray f) _ _ _
    rw [hfd]
    rcases eq_or_ne f fd with rfl | hne
    · rw [Function.update_self]
      exact hhere
    · obtain ⟨hold₁, hold₂, hold₃⟩ := hold.ne hne
      obtain ⟨hnew₁, hnew₂, hnew₃⟩ := hnew.ne hne
      rw [Function.update_of_ne hne]
      change EntryOk _ (count (.uses f) (Function.update s.pc i x))
        (count (.reserves f) (Function.update s.pc i x))
        (count (.frees f) (Function.update s.pc i x))
      rw [count_update_other hold₁ hnew₁, count_update_other hold₂ hnew₂,
        count_update_other hold₃ hnew₃]
      exact h.entries f
  sessions := hsessions
  nodup := hnodup
  nodes j fd' openFlags node session := by
    change Function.update s.pc i x j = _ → _
    rcases eq_or_ne j i with rfl | hne
    · rw [Function.update_self]
      exact hnode fd' openFlags node session
    · rw [Function.update_of_ne hne]
      exact h.nodes j fd' openFlags node session

section Sessions

omit [Fintype ι] in
theorem sessionOf_thread (t : FdState) (x : Pc) (j : ι) (k : Nat) :
    SessionOf { shared := t, pc := Function.update s.pc i x } (.thread j) k ↔
      if j = i then pending x = some k else pending (s.pc j) = some k := by
  change pending (Function.update s.pc i x j) = some k ↔ _
  rcases eq_or_ne j i with rfl | hne
  · rw [Function.update_self, if_pos rfl]
  · rw [Function.update_of_ne hne, if_neg hne]

/-- No session changes hands. -/
theorem owns_same (h : Sound s) (t : FdState) (x : Pc)
    (hlive : ∀ fd, Live (t.fdArray fd) ↔ Live (s.shared.fdArray fd))
    (hsession : ∀ fd, Live (s.shared.fdArray fd) → t.session fd = s.shared.session fd)
    (hclosed : t.closed = s.shared.closed) (hopens : t.opens = s.shared.opens)
    (hpending : pending x = pending (s.pc i)) :
    Owns (SessionOf { shared := t, pc := Function.update s.pc i x }) fun k => k < t.opens := by
  rw [hopens]
  apply h.sessions.congr
  · intro o k
    cases o with
    | entry fd =>
        change Live (t.fdArray fd) ∧ t.session fd = k ↔
          Live (s.shared.fdArray fd) ∧ s.shared.session fd = k
        rw [hlive]
        constructor
        · rintro ⟨hl, hk⟩
          exact ⟨hl, (hsession fd hl).symm.trans hk⟩
        · rintro ⟨hl, hk⟩
          exact ⟨hl, (hsession fd hl).trans hk⟩
    | thread j =>
        rw [sessionOf_thread]
        change _ ↔ pending (s.pc j) = some k
        rcases eq_or_ne j i with rfl | hne
        · rw [if_pos rfl, hpending]
        · rw [if_neg hne]
    | closed =>
        change k ∈ t.closed ↔ k ∈ s.shared.closed
        rw [hclosed]
  · exact fun _ => Iff.rfl

/-- The session of a new open belongs to the thread. -/
theorem owns_thread (h : Sound s) (t : FdState) (x : Pc)
    (harray : t.fdArray = s.shared.fdArray)
    (hsession : t.session = s.shared.session) (hclosed : t.closed = s.shared.closed)
    (hopens : t.opens = s.shared.opens + 1) (hwas : pending (s.pc i) = .none)
    (hpending : pending x = some s.shared.opens) :
    Owns (SessionOf { shared := t, pc := Function.update s.pc i x }) fun k => k < t.opens := by
  apply h.sessions.take (lt_irrefl s.shared.opens)
  · intro o k
    cases o with
    | entry fd =>
        change Live (t.fdArray fd) ∧ t.session fd = k ↔ (Live (s.shared.fdArray fd) ∧
          s.shared.session fd = k) ∨ Owner.entry fd = Owner.thread i ∧ k = s.shared.opens
        simp [harray, hsession]
    | thread j =>
        rw [sessionOf_thread]
        change _ ↔ pending (s.pc j) = some k ∨ Owner.thread j = Owner.thread i ∧ k = s.shared.opens
        rcases eq_or_ne j i with rfl | hne
        · rw [if_pos rfl, hwas, hpending]
          simp [eq_comm]
        · simp [hne]
    | closed =>
        change k ∈ t.closed ↔ k ∈ s.shared.closed ∨ Owner.closed = Owner.thread i ∧ _
        simp [hclosed]
  · intro k
    rw [hopens]
    omega

/-- The session of a new open belongs to its entry. -/
theorem owns_entry (h : Sound s) (t : FdState) (x : Pc) {fd : Nat} {file : File}
    (harray : t.fdArray = Function.update s.shared.fdArray fd file)
    (hsession : t.session = Function.update s.shared.session fd s.shared.opens)
    (hclosed : t.closed = s.shared.closed) (hopens : t.opens = s.shared.opens + 1)
    (hwas : ¬Live (s.shared.fdArray fd)) (hlive : Live file)
    (hpending : pending x = pending (s.pc i)) :
    Owns (SessionOf { shared := t, pc := Function.update s.pc i x }) fun k => k < t.opens := by
  apply @Owns.take _ _ _ _ _ _ h.sessions (Owner.entry fd) _ (lt_irrefl s.shared.opens)
  · intro o k
    cases o with
    | entry f =>
        change Live (t.fdArray f) ∧ t.session f = k ↔ (Live (s.shared.fdArray f) ∧
          s.shared.session f = k) ∨ Owner.entry f = Owner.entry fd ∧ k = s.shared.opens
        rw [harray, hsession]
        rcases eq_or_ne f fd with rfl | hne
        · simp [hwas, hlive, eq_comm]
        · simp [hne]
    | thread j =>
        rw [sessionOf_thread]
        change _ ↔ pending (s.pc j) = some k ∨ Owner.thread j = Owner.entry fd ∧ _
        rcases eq_or_ne j i with rfl | hne
        · simp [hpending]
        · simp [hne]
    | closed =>
        change k ∈ t.closed ↔ k ∈ s.shared.closed ∨ Owner.closed = Owner.entry fd ∧ _
        simp [hclosed]
  · intro k
    rw [hopens]
    omega

/-- The thread gives its session to the entry. -/
theorem owns_given (h : Sound s) (t : FdState) (x : Pc) {fd session : Nat} {file : File}
    (harray : t.fdArray = Function.update s.shared.fdArray fd file)
    (hsession : t.session = Function.update s.shared.session fd session)
    (hclosed : t.closed = s.shared.closed) (hopens : t.opens = s.shared.opens)
    (hwas : ¬Live (s.shared.fdArray fd)) (hlive : Live file)
    (hpending : pending (s.pc i) = some session) (hnone : pending x = .none) :
    Owns (SessionOf { shared := t, pc := Function.update s.pc i x }) fun k => k < t.opens := by
  rw [hopens]
  have hholds : SessionOf s (.thread i) session := hpending
  apply @Owns.pass _ _ _ _ _ h.sessions _ (Owner.entry fd) _ hholds
  · intro o k
    cases o with
    | entry f =>
        change Live (t.fdArray f) ∧ t.session f = k ↔ (Live (s.shared.fdArray f) ∧
          s.shared.session f = k) ∧ Owner.entry f ≠ Owner.thread i ∨
            Owner.entry f = Owner.entry fd ∧ k = session
        rw [harray, hsession]
        rcases eq_or_ne f fd with rfl | hne
        · simp [hwas, hlive, eq_comm]
        · simp [hne]
    | thread j =>
        rw [sessionOf_thread]
        change _ ↔ pending (s.pc j) = some k ∧ Owner.thread j ≠ Owner.thread i ∨
          Owner.thread j = Owner.entry fd ∧ _
        rcases eq_or_ne j i with rfl | hne
        · simp [hnone]
        · simp [hne]
    | closed =>
        change k ∈ t.closed ↔ k ∈ s.shared.closed ∧ Owner.closed ≠ Owner.thread i ∨
          Owner.closed = Owner.entry fd ∧ _
        simp [hclosed]
  · intro k hk
    exact Option.some.inj (hk.symm.trans hpending)

/-- The session that a thread or an entry owns is closed. -/
theorem owns_closed (h : Sound s) (t : FdState) (x : Pc) {o₁ : Owner ι} {session : Nat}
    (ho₁ : SessionOf s o₁ session)
    (hfunctional : ∀ k, SessionOf s o₁ k → k = session)
    (hentry : ∀ fd k, (Live (t.fdArray fd) ∧ t.session fd = k) ↔
      (Live (s.shared.fdArray fd) ∧ s.shared.session fd = k) ∧ Owner.entry fd ≠ o₁)
    (hthread : ∀ j k, (if j = i then pending x = some k else pending (s.pc j) = some k) ↔
      pending (s.pc j) = some k ∧ Owner.thread j ≠ o₁)
    (hnot : o₁ ≠ .closed) (hclosed : t.closed = session :: s.shared.closed)
    (hopens : t.opens = s.shared.opens) :
    Owns (SessionOf { shared := t, pc := Function.update s.pc i x }) (fun k => k < t.opens) ∧
      t.closed.Nodup := by
  constructor
  · rw [hopens]
    apply @Owns.pass _ _ _ _ _ h.sessions _ Owner.closed _ ho₁
    · intro o k
      cases o with
      | entry fd =>
          refine (hentry fd k).trans ?_
          simp [SessionOf]
      | thread j =>
          rw [sessionOf_thread]
          refine (hthread j k).trans ?_
          simp [SessionOf]
      | closed =>
          change k ∈ t.closed ↔ k ∈ s.shared.closed ∧ Owner.closed ≠ o₁ ∨
            Owner.closed = Owner.closed ∧ k = session
          rw [hclosed]
          simp [hnot.symm, or_comm]
    · exact hfunctional
  · rw [hclosed]
    apply List.nodup_cons.mpr ⟨?_, h.nodup⟩
    intro hmem
    have hdone : SessionOf s .closed session := hmem
    exact hnot (h.sessions.inj ho₁ hdone)

end Sessions

section Segments

/-- The code runs to where the thread is suspended next, and the table is sound
there. -/
def Goes (s : System ι) (i : ι) (x : Routine FdState Pc) : Prop :=
  ∃ r t, x s.shared = .ok (r, t) ∧
    Sound { shared := t, pc := Function.update s.pc i (after r) }

theorem goes_pure {x : Pc} (h : Sound { shared := s.shared, pc := Function.update s.pc i x }) :
    Goes s i (pure x) :=
  ⟨.ok x, s.shared, rfl, h⟩

theorem goes_fail (h : Sound s) (hidle : s.pc i = .idle) (e : Errno) : Goes s i (fail e) := by
  refine ⟨.error e, s.shared, rfl, ?_⟩
  have hsame : Function.update s.pc i (after (.error e)) = s.pc := by
    rw [after, ← hidle, Function.update_eq_self]
  rw [hsame]
  exact h

/-- Between two parts of the code the thread may be seen at any place. -/
theorem goes_bind {α : Type} {x : Routine FdState α} {f : α → Routine FdState Pc} {a : α}
    {t : FdState} (y : Pc) (hrun : x s.shared = .ok (.ok a, t))
    (hgo : Goes { shared := t, pc := Function.update s.pc i y } i (f a)) :
    Goes s i (x >>= f) := by
  obtain ⟨r, t', hrest, hsound⟩ := hgo
  refine ⟨r, t', ?_, ?_⟩
  · rw [bind_of_ok hrun]
    exact hrest
  · rwa [Function.update_idem] at hsound

theorem goes_getState {f : FdState → Routine FdState Pc} (hgo : Goes s i (f s.shared)) :
    Goes s i (getState >>= f) :=
  hgo

theorem goes_fd2file (h : Sound s) (hidle : s.pc i = .idle) (fd : Int) {f : Nat → Routine FdState Pc}
    (hf : ∀ file, (s.shared.fdArray file).status = .fdOpened → Goes s i (f file)) :
    Goes s i (fd2file fd >>= f) := by
  rcases Decidable.em (testfd fd = true ∧ (s.shared.fdArray fd.toNat).status = .fdOpened ∧
    ((s.shared.fdArray fd.toNat).fd : Int) = fd) with hfound | hnone
  · obtain ⟨r, t, hrun, hsound⟩ := hf fd.toNat hfound.2.1
    have hfile : fd2file fd s.shared = .ok (.ok fd.toNat, s.shared) := by
      rw [fd2file, getState_bind, if_pos hfound]
      rfl
    refine ⟨r, t, ?_, hsound⟩
    rw [bind_of_ok hfile]
    exact hrun
  · obtain ⟨r, t, hrun, hsound⟩ := goes_fail h hidle .eInval
    refine ⟨r, t, ?_, hsound⟩
    cases hrun
    apply bind_of_error
    rw [fd2file, getState_bind, if_neg hnone]
    rfl

theorem fdArrayFree_closed {t : FdState} {fd : Nat} (hstatus : (t.fdArray fd).status = .fdClosed)
    (hcount : (t.fdArray fd).openCount = 0) :
    fdArrayFree fd t = .ok (.ok (.freeing fd), { t with closed := t.session fd :: t.closed }) := by
  rw [fdArrayFree, getState_bind, ensure_bind_of (Or.inr hstatus), ensure_bind_of hcount,
    if_pos hstatus]
  rfl

theorem fdArrayFree_init {t : FdState} {fd : Nat} (hstatus : (t.fdArray fd).status = .fdInit)
    (hcount : (t.fdArray fd).openCount = 0) :
    fdArrayFree fd t =
      .ok (.ok .idle, t.setFile fd { t.fdArray fd with status := .fdNone }) := by
  have hopen : (t.fdArray fd).status ≠ .fdClosed := by
    rw [hstatus]
    decide
  rw [fdArrayFree, getState_bind, ensure_bind_of (Or.inl hstatus), ensure_bind_of hcount,
    if_neg hopen]
  rfl

/-- The entry as `fd_array_release` and `fd_array_close` leave it. -/
def dropped (file : File) : File :=
  { file with openCount := file.openCount - 1 }

theorem setFile_self (t : FdState) (fd : Nat) (file : File) :
    (t.setFile fd file).fdArray fd = file := by
  simp [FdState.setFile]

/-- Nobody uses the closed entry any more, and the thread calls `vfs_close`. -/
theorem sound_freeing (h : Sound s) {fd : Nat} (file : File)
    (hold : About fd (role (s.pc i))) (hlive : Live (s.shared.fdArray fd))
    (hstatus : file.status = .fdClosed) (hcount : file.openCount = 0)
    (hpending : pending (s.pc i) = .none)
    (hhere : EntryOk file (count (.uses fd) (Function.update s.pc i (.freeing fd)))
      (count (.reserves fd) (Function.update s.pc i (.freeing fd)))
      (count (.frees fd) (Function.update s.pc i (.freeing fd)))) :
    Sound { shared := { s.shared.setFile fd file with
              closed := s.shared.session fd :: s.shared.closed }
            pc := Function.update s.pc i (.freeing fd) } := by
  have hdead : ¬Live file := by
    rintro (hopened | ⟨_, hpos⟩)
    · rw [hstatus] at hopened
      cases hopened
    · omega
  have howner : SessionOf s (.entry fd) (s.shared.session fd) := ⟨hlive, rfl⟩
  have hentry : ∀ f k, (Live (Function.update s.shared.fdArray fd file f) ∧
      s.shared.session f = k) ↔ (Live (s.shared.fdArray f) ∧ s.shared.session f = k) ∧
        (Owner.entry f : Owner ι) ≠ .entry fd := by
    intro f k
    rcases eq_or_ne f fd with rfl | hne
    · simp [hdead]
    · simp [hne]
  have hthread : ∀ j k, (if j = i then pending (.freeing fd) = some k
      else pending (s.pc j) = some k) ↔
        pending (s.pc j) = some k ∧ (Owner.thread j : Owner ι) ≠ .entry fd := by
    intro j k
    rcases eq_or_ne j i with rfl | hne
    · rw [if_pos rfl, hpending]
      simp [pending]
    · simp [hne]
  obtain ⟨hsessions, hnodup⟩ := owns_closed h
    { s.shared.setFile fd file with closed := s.shared.session fd :: s.shared.closed }
    (.freeing fd) howner (fun k hk => hk.2.symm) hentry hthread (by simp) rfl rfl
  exact h.move _ _ rfl hold (Or.inr (Or.inr (Or.inr rfl))) hhere hsessions hnodup (by simp)

theorem pending_of_uses {p : Pc} {fd : Nat} (h : role p = .uses fd) : pending p = .none := by
  cases p with
  | openFstat => cases h
  | _ => rfl

omit [DecidableEq ι] in
/-- The table after one field of an entry that no count depends on has changed. -/
theorem sound_setFile_same (h : Sound s) {fd : Nat} {file : File}
    (hstatus : file.status = (s.shared.fdArray fd).status)
    (hcount : file.openCount = (s.shared.fdArray fd).openCount)
    (hnode : file.node = (s.shared.fdArray fd).node) :
    Sound { shared := s.shared.setFile fd file, pc := s.pc } where
  entries f := by
    change EntryOk (Function.update s.shared.fdArray fd file f) _ _ _
    rcases eq_or_ne f fd with rfl | hne
    · rw [Function.update_self, EntryOk, hstatus, hcount, hnode]
      exact h.entries f
    · rw [Function.update_of_ne hne]
      exact h.entries f
  sessions := by
    apply h.sessions.congr
    · intro o k
      cases o with
      | entry f =>
          change Live (Function.update s.shared.fdArray fd file f) ∧ _ ↔ Live _ ∧ _
          rcases eq_or_ne f fd with rfl | hne
          · rw [Function.update_self, Live, hstatus, hcount]
            exact Iff.rfl
          · rw [Function.update_of_ne hne]
            exact Iff.rfl
      | thread j => exact Iff.rfl
      | closed => exact Iff.rfl
    · exact fun _ => Iff.rfl
  nodup := h.nodup
  nodes := h.nodes

theorem goes_modifyFile_same (h : Sound s) {fd : Nat} {f : File → File}
    (hsame : ∀ file, (f file).status = file.status ∧ (f file).openCount = file.openCount ∧
      (f file).node = file.node) {g : Unit → Routine FdState Pc}
    (hgo : ∀ s' : System ι, Sound s' → s'.pc = s.pc → Goes s' i (g ())) :
    Goes s i (modifyFile fd f >>= g) := by
  obtain ⟨hstatus, hcount, hnode⟩ := hsame (s.shared.fdArray fd)
  have hsound := sound_setFile_same h hstatus hcount hnode
  obtain ⟨r, t, hrun, hdone⟩ := hgo _ hsound rfl
  exact ⟨r, t, hrun, hdone⟩

theorem counts_update (fd : Nat) (pc : ι → Pc) (i : ι) {x : Pc} {r r' : Role}
    (hold : role (pc i) = r) (hnew : role x = r') :
    (count (.uses fd) (Function.update pc i x) + (if r = .uses fd then 1 else 0) =
        count (.uses fd) pc + if r' = .uses fd then 1 else 0) ∧
      (count (.reserves fd) (Function.update pc i x) + (if r = .reserves fd then 1 else 0) =
        count (.reserves fd) pc + if r' = .reserves fd then 1 else 0) ∧
      (count (.frees fd) (Function.update pc i x) + (if r = .frees fd then 1 else 0) =
        count (.frees fd) pc + if r' = .frees fd then 1 else 0) := by
  subst hold hnew
  exact ⟨count_update _ pc i x, count_update _ pc i x, count_update _ pc i x⟩

theorem role_idle : role .idle = .none := rfl

theorem role_using (fd : Nat) : role (.using fd) = .uses fd := rfl

theorem role_openFailed (fd : Nat) : role (.openFailed fd) = .reserves fd := rfl

theorem role_freeing (fd : Nat) : role (.freeing fd) = .frees fd := rfl

theorem pending_idle : pending .idle = .none := rfl

/-- An entry changes without being opened or closed. -/
theorem Sound.setFile (h : Sound s) {fd : Nat} (file : File) (x : Pc)
    (hold : About fd (role (s.pc i))) (hnew : About fd (role x))
    (hhere : EntryOk file (count (.uses fd) (Function.update s.pc i x))
      (count (.reserves fd) (Function.update s.pc i x))
      (count (.frees fd) (Function.update s.pc i x)))
    (hlive : Live file ↔ Live (s.shared.fdArray fd)) (hpending : pending x = pending (s.pc i))
    (hnode : ∀ fd openFlags node session, x = .openFstat fd openFlags node session → node ≠ 0) :
    Sound { shared := s.shared.setFile fd file, pc := Function.update s.pc i x } := by
  apply h.move (s.shared.setFile fd file) x rfl hold hnew hhere ?_ h.nodup hnode
  apply owns_same h (s.shared.setFile fd file) x ?_ (fun _ _ => rfl) rfl rfl hpending
  intro f
  change Live (Function.update s.shared.fdArray fd file f) ↔ _
  rcases eq_or_ne f fd with rfl | hne
  · rw [Function.update_self]
    exact hlive
  · rw [Function.update_of_ne hne]

theorem goes_fdArrayRelease (h : Sound s) {fd : Nat} (hrole : role (s.pc i) = .uses fd) :
    Goes s i (fdArrayRelease fd) := by
  have hentry := h.entries fd
  have hpos : 0 < count (.uses fd) s.pc := count_pos hrole
  have hpending := pending_of_uses hrole
  have habout : About fd (role (s.pc i)) := Or.inr (Or.inr (Or.inl hrole))
  obtain ⟨hidle, hidle', hidle''⟩ := counts_update fd s.pc i hrole role_idle
  obtain ⟨hfree, hfree', hfree''⟩ := counts_update fd s.pc i hrole (role_freeing fd)
  simp only [if_true, reduceCtorEq, if_false, add_zero] at hidle hidle' hidle'' hfree hfree' hfree''
  have hdrop : (s.shared.fdArray fd).status = .fdOpened ∨
      (s.shared.fdArray fd).status = .fdClosed → 0 < (s.shared.fdArray fd).openCount →
      fdArrayRelease fd s.shared = (if (s.shared.fdArray fd).openCount - 1 = 0
        then fdArrayFree fd else return .idle)
          (s.shared.setFile fd (dropped (s.shared.fdArray fd))) := by
    intro hstatus hcount
    rw [fdArrayRelease, getState_bind, ensure_bind_of hstatus, ensure_bind_of hcount]
    rfl
  cases hstatus : (s.shared.fdArray fd).status with
  | fdNone =>
      simp only [EntryOk, hstatus] at hentry
      omega
  | fdInit =>
      simp only [EntryOk, hstatus] at hentry
      omega
  | fdOpened =>
      simp only [EntryOk, hstatus] at hentry
      have hmore : ¬(s.shared.fdArray fd).openCount - 1 = 0 := by omega
      refine ⟨.ok .idle, s.shared.setFile fd (dropped (s.shared.fdArray fd)), ?_, ?_⟩
      · rw [hdrop (Or.inl hstatus) (by omega), if_neg hmore]
        rfl
      · apply h.setFile (dropped _) .idle habout (Or.inl rfl) ?_ ?_ hpending.symm (by simp)
        · simp only [EntryOk, dropped, hstatus]
          omega
        · simp [Live, dropped, hstatus]
  | fdClosed =>
      simp only [EntryOk, hstatus] at hentry
      have hnone : ¬count (.uses fd) s.pc = 0 := by omega
      rw [if_neg hnone] at hentry
      rcases eq_or_ne ((s.shared.fdArray fd).openCount - 1) 0 with hlast | hmore
      · refine ⟨.ok (.freeing fd), { s.shared.setFile fd (dropped (s.shared.fdArray fd)) with
          closed := s.shared.session fd :: s.shared.closed }, ?_, ?_⟩
        · rw [hdrop (Or.inr hstatus) (by omega), if_pos hlast, fdArrayFree_closed]
          · rfl
          · rw [setFile_self]
            exact hstatus
          · rw [setFile_self]
            exact hlast
        · apply sound_freeing h (dropped _) habout ?_ hstatus hlast hpending
          · have hzero : count (.uses fd) (Function.update s.pc i (.freeing fd)) = 0 := by omega
            simp only [EntryOk, dropped, hstatus]
            rw [if_pos hzero]
            omega
          · exact Or.inr ⟨hstatus, by omega⟩
      · refine ⟨.ok .idle, s.shared.setFile fd (dropped (s.shared.fdArray fd)), ?_, ?_⟩
        · rw [hdrop (Or.inr hstatus) (by omega), if_neg hmore]
          rfl
        · apply h.setFile (dropped _) .idle habout (Or.inl rfl) ?_ ?_ hpending.symm (by simp)
          · have hothers : ¬count (.uses fd) (Function.update s.pc i .idle) = 0 := by omega
            simp only [EntryOk, dropped, hstatus]
            rw [if_neg hothers]
            omega
          · simp [Live, dropped, hstatus]
            omega

theorem goes_fdArrayClose (h : Sound s) (hidle : s.pc i = .idle) {fd : Nat}
    (hstatus : (s.shared.fdArray fd).status = .fdOpened) : Goes s i (fdArrayClose fd) := by
  have hentry := h.entries fd
  have hrole : role (s.pc i) = .none := by rw [hidle, role_idle]
  have hpending : pending (s.pc i) = .none := by rw [hidle, pending_idle]
  have habout : About fd (role (s.pc i)) := Or.inl hrole
  obtain ⟨hthere, hthere', hthere''⟩ := counts_update fd s.pc i hrole role_idle
  obtain ⟨hfree, hfree', hfree''⟩ := counts_update fd s.pc i hrole (role_freeing fd)
  simp only [reduceCtorEq, if_false, add_zero] at hthere hthere' hthere'' hfree
  simp only [if_true, reduceCtorEq, if_false, add_zero] at hfree' hfree''
  simp only [EntryOk, hstatus] at hentry
  have hclose : fdArrayClose fd s.shared = (if (s.shared.fdArray fd).openCount - 1 = 0
      then fdArrayFree fd else return .idle)
        (s.shared.setFile fd { dropped (s.shared.fdArray fd) with status := .fdClosed }) := by
    have hpos : 0 < (s.shared.fdArray fd).openCount := by omega
    rw [fdArrayClose, getState_bind, ensure_bind_of hstatus, ensure_bind_of hpos]
    rfl
  rcases eq_or_ne ((s.shared.fdArray fd).openCount - 1) 0 with hlast | hmore
  · refine ⟨.ok (.freeing fd), { s.shared.setFile fd
      { dropped (s.shared.fdArray fd) with status := .fdClosed } with
        closed := s.shared.session fd :: s.shared.closed }, ?_, ?_⟩
    · rw [hclose, if_pos hlast, fdArrayFree_closed]
      · rfl
      · rw [setFile_self]
      · rw [setFile_self]
        exact hlast
    · apply sound_freeing h _ habout (Or.inl hstatus) rfl hlast hpending
      have hzero : count (.uses fd) (Function.update s.pc i (.freeing fd)) = 0 := by omega
      simp only [EntryOk, dropped]
      rw [if_pos hzero]
      omega
  · refine ⟨.ok .idle, s.shared.setFile fd
      { dropped (s.shared.fdArray fd) with status := .fdClosed }, ?_, ?_⟩
    · rw [hclose, if_neg hmore]
      rfl
    · apply h.setFile _ .idle habout (Or.inl rfl) ?_ ?_ hpending.symm (by simp)
      · have hothers : ¬count (.uses fd) (Function.update s.pc i .idle) = 0 := by omega
        simp only [EntryOk, dropped]
        rw [if_neg hothers]
        omega
      · simp [Live, dropped, hstatus]
        omega

/-- The thread goes on to another place with the same duties, and no entry changes. -/
theorem Sound.goOn (h : Sound s) (t : FdState) (x : Pc) (harray : t.fdArray = s.shared.fdArray)
    (hrole : role x = role (s.pc i))
    (hsessions : Owns (SessionOf { shared := t, pc := Function.update s.pc i x })
      fun k => k < t.opens)
    (hnodup : t.closed.Nodup)
    (hnode : ∀ fd openFlags node session, x = .openFstat fd openFlags node session → node ≠ 0) :
    Sound { shared := t, pc := Function.update s.pc i x } where
  entries fd := by
    have hsame : ∀ r, count r (Function.update s.pc i x) = count r s.pc := fun r =>
      tally_update_same (by rw [hrole])
    change EntryOk (t.fdArray fd) (count _ (Function.update s.pc i x))
      (count _ (Function.update s.pc i x)) (count _ (Function.update s.pc i x))
    rw [hsame, hsame, hsame, harray]
    exact h.entries fd
  sessions := hsessions
  nodup := hnodup
  nodes j fd' openFlags node session := by
    change Function.update s.pc i x j = _ → _
    rcases eq_or_ne j i with rfl | hne
    · rw [Function.update_self]
      exact hnode fd' openFlags node session
    · rw [Function.update_of_ne hne]
      exact h.nodes j fd' openFlags node session

theorem goes_return (h : Sound s) {x : Pc} (hrole : role x = role (s.pc i))
    (hpending : pending x = pending (s.pc i))
    (hnode : ∀ fd openFlags node session, x = .openFstat fd openFlags node session → node ≠ 0) :
    Goes s i (return x) := by
  apply goes_pure
  apply h.goOn s.shared x rfl hrole ?_ h.nodup hnode
  exact owns_same h s.shared x (fun _ => Iff.rfl) (fun _ _ => rfl) rfl rfl hpending

theorem goes_fdArrayAcquire (h : Sound s) (hidle : s.pc i = .idle) {fd : Nat}
    (hstatus : (s.shared.fdArray fd).status = .fdOpened) {f : Unit → Routine FdState Pc}
    (hf : ∀ s' : System ι, Sound s' → s'.pc i = .using fd → Goes s' i (f ())) :
    Goes s i (fdArrayAcquire fd >>= f) := by
  have hrole : role (s.pc i) = .none := by rw [hidle, role_idle]
  have hentry := h.entries fd
  obtain ⟨huse, huse', huse''⟩ :=
    counts_update fd s.pc i hrole (role_using fd)
  simp only [if_true, reduceCtorEq, if_false, add_zero] at huse huse' huse''
  simp only [EntryOk, hstatus] at hentry
  apply goes_bind (.using fd) (a := ()) (t := s.shared.setFile fd
    { s.shared.fdArray fd with openCount := (s.shared.fdArray fd).openCount + 1 })
  · rw [fdArrayAcquire, getState_bind, ensure_bind_of hstatus]
    rfl
  · apply hf
    · apply h.setFile _ (.using fd) (Or.inl hrole) (Or.inr (Or.inr (Or.inl rfl))) ?_ ?_ ?_ (by simp)
      · simp only [EntryOk, hstatus]
        omega
      · simp [Live, hstatus]
      · rw [hidle]
        rfl
    · exact Function.update_self i _ s.pc

theorem status_of_reserves (h : Sound s) {fd : Nat} (hrole : role (s.pc i) = .reserves fd) :
    (s.shared.fdArray fd).status = .fdInit ∧ (s.shared.fdArray fd).openCount = 0 := by
  have hentry := h.entries fd
  have hpos : 0 < count (.reserves fd) s.pc := count_pos hrole
  cases hstatus : (s.shared.fdArray fd).status with
  | fdInit =>
      simp only [EntryOk, hstatus] at hentry
      exact ⟨rfl, hentry.1⟩
  | fdNone =>
      simp only [EntryOk, hstatus] at hentry
      omega
  | fdOpened =>
      simp only [EntryOk, hstatus] at hentry
      omega
  | fdClosed =>
      simp only [EntryOk, hstatus] at hentry
      omega

theorem goes_fdArrayFree (h : Sound s) {fd : Nat} (hrole : role (s.pc i) = .reserves fd)
    (hpending : pending (s.pc i) = .none) : Goes s i (fdArrayFree fd) := by
  obtain ⟨hstatus, hcount⟩ := status_of_reserves h hrole
  have hentry := h.entries fd
  obtain ⟨hthere, hthere', hthere''⟩ := counts_update fd s.pc i hrole role_idle
  simp only [if_true, reduceCtorEq, if_false, add_zero] at hthere hthere' hthere''
  simp only [EntryOk, hstatus] at hentry
  refine ⟨_, _, fdArrayFree_init hstatus hcount, ?_⟩
  apply h.setFile _ .idle (Or.inr (Or.inl hrole)) (Or.inl rfl) ?_ ?_ hpending.symm (by simp)
  · simp only [EntryOk]
    omega
  · simp [Live, hstatus]

/-- An entry that is being reserved is opened. -/
theorem entryOk_opened (h : Sound s) {fd : Nat} (hrole : role (s.pc i) = .reserves fd) {file : File}
    (hstatus : file.status = .fdOpened) (hcount : file.openCount = 1) (hnode : file.node ≠ 0) :
    EntryOk file (count (.uses fd) (Function.update s.pc i .idle))
      (count (.reserves fd) (Function.update s.pc i .idle))
      (count (.frees fd) (Function.update s.pc i .idle)) := by
  have hentry := h.entries fd
  obtain ⟨hthere, hthere', hthere''⟩ := counts_update fd s.pc i hrole role_idle
  simp only [if_true, reduceCtorEq, if_false, add_zero] at hthere hthere' hthere''
  simp only [EntryOk, (status_of_reserves h hrole).1] at hentry
  simp only [EntryOk, hstatus]
  exact ⟨by omega, by omega, by omega, hnode⟩

/-- The entry as `fd_array_open` leaves it. -/
def opened (file : File) : File :=
  { file with status := .fdOpened, openCount := file.openCount + 1 }

theorem fdArrayOpen_of {t : FdState} {fd : Nat} (hstatus : (t.fdArray fd).status = .fdInit)
    (hnode : (t.fdArray fd).node ≠ 0) :
    fdArrayOpen fd t = .ok (.ok (), t.setFile fd (opened (t.fdArray fd))) := by
  rw [fdArrayOpen, getState_bind, ensure_bind_of ⟨hstatus, hnode⟩]
  rfl

/-- The entry is opened for the session. -/
def openedFor (t : FdState) (fd session : Nat) (file : File) : FdState :=
  { t.setFile fd (opened file) with session := Function.update t.session fd session }

/-- The fields that `file_open` fills in. -/
def filled (file : File) (openFlags node : Nat) (pos : Int) : File :=
  { file with
    pos := pos
    node := node
    readable := openFlags &&& O_ACCMODE ≠ O_WRONLY
    writable := openFlags &&& O_ACCMODE ≠ O_RDONLY }

theorem fileOpened_of {t : FdState} {fd openFlags node session : Nat} {pos : Int}
    (hstatus : (t.fdArray fd).status = .fdInit) (hnode : node ≠ 0) :
    fileOpened fd openFlags node session pos t =
      .ok (.ok .idle, openedFor t fd session (filled (t.fdArray fd) openFlags node pos)) := by
  have hfile : (t.setFile fd (filled (t.fdArray fd) openFlags node pos)).fdArray fd =
      filled (t.fdArray fd) openFlags node pos := setFile_self t fd _
  let t' : FdState := { t.setFile fd (filled (t.fdArray fd) openFlags node pos) with
    session := Function.update t.session fd session }
  have hopen : fdArrayOpen fd t' = .ok (.ok (), t'.setFile fd (opened (t'.fdArray fd))) := by
    apply fdArrayOpen_of
    · change ((t.setFile fd (filled (t.fdArray fd) openFlags node pos)).fdArray fd).status = _
      rw [hfile]
      exact hstatus
    · change ((t.setFile fd (filled (t.fdArray fd) openFlags node pos)).fdArray fd).node ≠ 0
      rw [hfile]
      exact hnode
  have hlast : (do
      fdArrayOpen fd
      return .idle : Routine FdState Pc) t' =
        .ok (.ok .idle, t'.setFile fd (opened (t'.fdArray fd))) := by
    rw [bind_of_ok hopen]
    rfl
  calc fileOpened fd openFlags node session pos t
      = (do
          fdArrayOpen fd
          return .idle : Routine FdState Pc) t' := rfl
    _ = .ok (.ok .idle, t'.setFile fd (opened (t'.fdArray fd))) := hlast
    _ = .ok (.ok .idle, openedFor t fd session (filled (t.fdArray fd) openFlags node pos)) := by
        have hself : t'.fdArray fd = filled (t.fdArray fd) openFlags node pos := hfile
        rw [hself]
        simp [t', openedFor, FdState.setFile]

theorem goes_fileOpened (h : Sound s) {fd openFlags node session : Nat} (pos : Int)
    (hpc : s.pc i = .openFstat fd openFlags node session) :
    Goes s i (fileOpened fd openFlags node session pos) := by
  have hrole : role (s.pc i) = .reserves fd := by
    rw [hpc]
    rfl
  have hnode : node ≠ 0 := h.nodes i fd openFlags node session hpc
  obtain ⟨hstatus, hcount⟩ := status_of_reserves h hrole
  have hdead : ¬Live (s.shared.fdArray fd) := by simp [Live, hstatus]
  refine ⟨.ok .idle, _, fileOpened_of hstatus hnode, ?_⟩
  let t := openedFor s.shared fd session (filled (s.shared.fdArray fd) openFlags node pos)
  apply h.move t .idle rfl (Or.inr (Or.inl hrole)) (Or.inl rfl) ?_ ?_ h.nodup (by simp)
  · apply entryOk_opened h hrole rfl ?_ hnode
    change (s.shared.fdArray fd).openCount + 1 = 1
    rw [hcount]
  · apply owns_given h t .idle rfl rfl rfl rfl hdead (Or.inl rfl) ?_ rfl
    rw [hpc]
    rfl

theorem goes_fileOpenNode (h : Sound s) {fd openFlags : Nat} (reply : Reply)
    (hpc : s.pc i = .opening fd openFlags) (hnode : reply.ret = .ok () → reply.value ≠ 0) :
    Goes s i (fileOpenNode fd openFlags reply) := by
  have hrole : role (s.pc i) = .reserves fd := by
    rw [hpc]
    rfl
  have hpending : pending (s.pc i) = .none := by
    rw [hpc]
    rfl
  cases hret : reply.ret with
  | error e =>
      rw [fileOpenNode, hret]
      exact goes_fdArrayFree h hrole hpending
  | ok _ =>
      rw [fileOpenNode, hret]
      let t : FdState := { s.shared with opens := s.shared.opens + 1 }
      let pc : Pc := .openFstat fd openFlags reply.value s.shared.opens
      have hsame : role pc = role (s.pc i) := hrole.symm
      have hopened : Sound { shared := t, pc := Function.update s.pc i pc } := by
        apply h.goOn t pc rfl hsame ?_ h.nodup
        · intro fd' openFlags' node session heq
          obtain ⟨_, _, rfl, _⟩ := Pc.openFstat.inj heq
          exact hnode hret
        · exact owns_thread h t pc rfl rfl rfl rfl hpending rfl
      apply goes_bind (.openFstat fd openFlags reply.value s.shared.opens) (a := s.shared.opens)
      · rfl
      · rcases Decidable.em (openFlags &&& VfsFiles.O_APPEND ≠ 0) with happend | hnot
        · rw [if_pos happend]
          apply goes_pure
          rw [Function.update_idem]
          exact hopened
        · rw [if_neg hnot]
          exact goes_fileOpened hopened 0 (Function.update_self i _ s.pc)

theorem goes_fileOpenPos (h : Sound s) {fd openFlags node session : Nat} (reply : Reply)
    (hpc : s.pc i = .openFstat fd openFlags node session) :
    Goes s i (fileOpenPos fd openFlags node session reply) := by
  cases hret : reply.ret with
  | ok _ =>
      rw [fileOpenPos, hret]
      exact goes_fileOpened h reply.value hpc
  | error e =>
      rw [fileOpenPos, hret]
      have hpending : pending (s.pc i) = some session := by
        rw [hpc]
        rfl
      have howner : SessionOf s (.thread i) session := hpending
      have hthread : ∀ j k, (if j = i then pending (.openFailed fd) = some k
          else pending (s.pc j) = some k) ↔
            pending (s.pc j) = some k ∧ (Owner.thread j : Owner ι) ≠ .thread i := by
        intro j k
        rcases eq_or_ne j i with rfl | hne
        · simp [pending]
        · simp [hne]
      obtain ⟨hsessions, hnodup⟩ := owns_closed h
        { s.shared with closed := session :: s.shared.closed } (.openFailed fd) howner
        (fun k hk => Option.some.inj (hk.symm.trans hpending)) (by simp) hthread (by simp) rfl rfl
      refine ⟨.ok (.openFailed fd), { s.shared with closed := session :: s.shared.closed }, rfl, ?_⟩
      apply h.goOn { s.shared with closed := session :: s.shared.closed } (.openFailed fd) rfl ?_
        hsessions hnodup (by simp)
      rw [hpc]
      rfl

/-- The entry that `fd_array_alloc` gives out. -/
def reserved (file : File) : File :=
  { file with status := .fdInit, node := 0 }

omit [DecidableEq ι] in
theorem fdArrayAlloc_of (h : Sound s) (fd : Int) :
    (∃ e, fdArrayAlloc fd s.shared = .ok (.error e, s.shared)) ∨
      ∃ file, (s.shared.fdArray file).status = .fdNone ∧ fdArrayAlloc fd s.shared =
        .ok (.ok file, s.shared.setFile file (reserved (s.shared.fdArray file))) := by
  have hreserve : ∀ file, (s.shared.fdArray file).status = .fdNone →
      fdArrayReserve file s.shared =
        .ok (.ok file, s.shared.setFile file (reserved (s.shared.fdArray file))) := by
    intro file hnone
    have hentry := h.entries file
    simp only [EntryOk, hnone] at hentry
    rw [fdArrayReserve, getState_bind, ensure_bind_of hentry.1]
    rfl
  rcases eq_or_ne fd NO_FD with hno | hfd
  · cases hfind : (List.range FILES_STRUCT_NENTRY).find? fun fd =>
        (s.shared.fdArray fd).status = .fdNone with
    | none =>
        refine Or.inl ⟨.eMaxOpen, ?_⟩
        rw [fdArrayAlloc, getState_bind, if_pos hno, hfind]
        rfl
    | some file =>
        have hnone : (s.shared.fdArray file).status = .fdNone := by
          simpa using List.find?_some hfind
        refine Or.inr ⟨file, hnone, ?_⟩
        rw [fdArrayAlloc, getState_bind, if_pos hno, hfind]
        exact hreserve file hnone
  · rcases Decidable.em (testfd fd = true) with htest | htest
    · rcases Decidable.em ((s.shared.fdArray fd.toNat).status = .fdNone) with hnone | hbusy
      · refine Or.inr ⟨fd.toNat, hnone, ?_⟩
        rw [fdArrayAlloc, getState_bind, if_neg hfd, if_pos htest, if_pos hnone]
        exact hreserve fd.toNat hnone
      · refine Or.inl ⟨.eBusy, ?_⟩
        rw [fdArrayAlloc, getState_bind, if_neg hfd, if_pos htest, if_neg hbusy]
        rfl
    · refine Or.inl ⟨.eInval, ?_⟩
      rw [fdArrayAlloc, getState_bind, if_neg hfd, if_neg htest]
      rfl

theorem goes_fdArrayAlloc (h : Sound s) (hidle : s.pc i = .idle) (fd : Int)
    {f : Nat → Routine FdState Pc}
    (hf : ∀ file, (s.shared.fdArray file).status = .fdNone →
      ∀ s' : System ι, s'.shared = s.shared.setFile file (reserved (s.shared.fdArray file)) →
        Sound s' → s'.pc i = .openFailed file → Goes s' i (f file)) :
    Goes s i (fdArrayAlloc fd >>= f) := by
  rcases fdArrayAlloc_of h fd with ⟨e, hfailed⟩ | ⟨file, hnone, hrun⟩
  · obtain ⟨r, t, hrun, hsound⟩ := goes_fail h hidle e
    refine ⟨r, t, ?_, hsound⟩
    cases hrun
    exact bind_of_error hfailed
  · have hrole : role (s.pc i) = .none := by rw [hidle, role_idle]
    have hentry := h.entries file
    obtain ⟨huse, huse', huse''⟩ :=
      counts_update file s.pc i hrole (role_openFailed file)
    simp only [if_true, reduceCtorEq, if_false, add_zero] at huse huse' huse''
    simp only [EntryOk, hnone] at hentry
    apply goes_bind (.openFailed file) hrun
    apply hf file hnone _ rfl
    · apply h.setFile _ (.openFailed file) (Or.inl hrole) (Or.inr (Or.inl rfl)) ?_ ?_ ?_ (by simp)
      · simp only [EntryOk, reserved]
        omega
      · simp [Live, hnone, reserved]
      · rw [hidle]
        rfl
    · exact Function.update_self i _ s.pc

theorem goes_fileOpen (h : Sound s) (hidle : s.pc i = .idle) (openFlags : Nat) :
    Goes s i (fileOpen openFlags) := by
  rw [fileOpen]
  split
  · exact goes_fail h hidle .eInval
  · apply goes_fdArrayAlloc h hidle
    intro file _ s' _ hsound hpc
    apply goes_return hsound
    · rw [hpc]
      rfl
    · rw [hpc]
      rfl
    · simp

/-- The entry that `file_dup` fills in before it opens it. -/
def copied (file file' : File) : File :=
  { file' with
    pos := file.pos
    readable := file.readable
    writable := file.writable
    node := file.node }

theorem fdArrayDup_of {t : FdState} {toFd fromFd : Nat}
    (hto : (t.fdArray toFd).status = .fdInit) (hfrom : (t.fdArray fromFd).status = .fdOpened)
    (hnode : (t.fdArray fromFd).node ≠ 0) :
    fdArrayDup toFd fromFd t = .ok (.ok (),
      t.setFile toFd (opened (copied (t.fdArray fromFd) (t.fdArray toFd)))) := by
  have hfile : (t.setFile toFd (copied (t.fdArray fromFd) (t.fdArray toFd))).fdArray toFd =
      copied (t.fdArray fromFd) (t.fdArray toFd) := setFile_self t toFd _
  have hopen := @fdArrayOpen_of
    (t.setFile toFd (copied (t.fdArray fromFd) (t.fdArray toFd))) toFd
    (by rw [hfile]; exact hto) (by rw [hfile]; exact hnode)
  rw [fdArrayDup, getState_bind, ensure_bind_of ⟨hto, hfrom⟩]
  refine Eq.trans hopen ?_
  rw [hfile]
  simp [FdState.setFile]

theorem goes_fileDup (h : Sound s) (hidle : s.pc i = .idle) (fd1 fd2 : Int) :
    Goes s i (fileDup fd1 fd2) := by
  apply goes_fd2file h hidle
  intro file1 hopened1
  apply goes_fdArrayAlloc h hidle
  intro file2 hnone s' hshared hsound hpc
  have hne : file1 ≠ file2 := by
    rintro rfl
    rw [hopened1] at hnone
    cases hnone
  have hfile1 : s'.shared.fdArray file1 = s.shared.fdArray file1 := by
    rw [hshared]
    simp [FdState.setFile, hne]
  have hrole : role (s'.pc i) = .reserves file2 := by
    rw [hpc]
    rfl
  obtain ⟨hinit, hcount⟩ := status_of_reserves hsound hrole
  have hnode : (s'.shared.fdArray file1).node ≠ 0 := by
    have hentry := h.entries file1
    simp only [EntryOk, hopened1] at hentry
    rw [hfile1]
    exact hentry.2.2.2
  have hdead : ¬Live (s'.shared.fdArray file2) := by simp [Live, hinit]
  let file := copied (s'.shared.fdArray file1) (s'.shared.fdArray file2)
  let t := { openedFor s'.shared file2 s'.shared.opens file with opens := s'.shared.opens + 1 }
  refine ⟨.ok .idle, t, ?_, ?_⟩
  · let t' : FdState := { s'.shared with
      opens := s'.shared.opens + 1
      session := Function.update s'.shared.session file2 s'.shared.opens }
    have hdup : fdArrayDup file2 file1 t' =
        .ok (.ok (), t'.setFile file2 (opened (copied (t'.fdArray file1) (t'.fdArray file2)))) := by
      apply fdArrayDup_of
      · exact hinit
      · change (s'.shared.fdArray file1).status = .fdOpened
        rw [hfile1]
        exact hopened1
      · exact hnode
    change (do
      fdArrayDup file2 file1
      return .idle : Routine FdState Pc) t' = _
    rw [bind_of_ok hdup]
    rfl
  · apply hsound.move t .idle rfl (Or.inr (Or.inl hrole)) (Or.inl rfl) ?_ ?_ hsound.nodup (by simp)
    · refine entryOk_opened hsound hrole (rfl : (opened file).status = .fdOpened) ?_ hnode
      change (s'.shared.fdArray file2).openCount + 1 = 1
      rw [hcount]
    · apply owns_entry hsound t .idle rfl rfl rfl rfl hdead (Or.inl rfl)
      rw [hpc]
      rfl

theorem goes_fdArrayFreed (h : Sound s) {fd : Nat} (hpc : s.pc i = .freeing fd) :
    Goes s i (fdArrayFreed fd) := by
  have hrole : role (s.pc i) = .frees fd := by rw [hpc, role_freeing]
  have hentry := h.entries fd
  have hpos : 0 < count (.frees fd) s.pc := count_pos hrole
  obtain ⟨hthere, hthere', hthere''⟩ := counts_update fd s.pc i hrole role_idle
  simp only [if_true, reduceCtorEq, if_false, add_zero] at hthere hthere' hthere''
  have hclosed : (s.shared.fdArray fd).status = .fdClosed := by
    cases hstatus : (s.shared.fdArray fd).status with
    | fdClosed => rfl
    | fdNone =>
        simp only [EntryOk, hstatus] at hentry
        omega
    | fdInit =>
        simp only [EntryOk, hstatus] at hentry
        omega
    | fdOpened =>
        simp only [EntryOk, hstatus] at hentry
        omega
  simp only [EntryOk, hclosed] at hentry
  obtain ⟨hcount, hreserving, hfreeing⟩ := hentry
  have hnone : count (.uses fd) s.pc = 0 := by
    by_contra hsome
    rw [if_neg hsome] at hfreeing
    omega
  rw [if_pos hnone] at hfreeing
  refine ⟨.ok .idle, s.shared.setFile fd { s.shared.fdArray fd with status := .fdNone }, rfl, ?_⟩
  apply h.setFile _ .idle (Or.inr (Or.inr (Or.inr hrole))) (Or.inl rfl) ?_ ?_ ?_ (by simp)
  · simp only [EntryOk]
    omega
  · simp [Live, hclosed]
    omega
  · rw [hpc]
    rfl

theorem goes_fileTransfer (h : Sound s) (hidle : s.pc i = .idle) (permitted : File → Bool)
    (fd : Int) : Goes s i (fileTransfer permitted fd) := by
  apply goes_fd2file h hidle
  intro file hopened
  apply goes_getState
  rcases Decidable.em (permitted (s.shared.fdArray file) = false) with hnot | hmay
  · rw [if_pos hnot]
    exact goes_fail h hidle .eInval
  · rw [if_neg hmay]
    apply goes_fdArrayAcquire h hidle hopened
    intro s' hsound hpc
    apply goes_return hsound
    · rw [hpc]
      rfl
    · rw [hpc]
      rfl
    · simp

theorem goes_fileUse (h : Sound s) (hidle : s.pc i = .idle) (fd : Int) :
    Goes s i (fileUse fd) := by
  apply goes_fd2file h hidle
  intro file hopened
  apply goes_fdArrayAcquire h hidle hopened
  intro s' hsound hpc
  apply goes_return hsound
  · rw [hpc]
  · rw [hpc]
  · simp

theorem goes_fileSeek (h : Sound s) (hidle : s.pc i = .idle) (fd pos whence : Int) :
    Goes s i (fileSeek fd pos whence) := by
  apply goes_fd2file h hidle
  intro file hopened
  apply goes_fdArrayAcquire h hidle hopened
  intro s' hsound hpc
  have huse : ∀ x, role x = .uses file → Goes s' i (return x) := by
    intro x hx
    apply goes_return hsound
    · rw [hpc]
      exact hx
    · rw [hpc, pending_of_uses hx]
      rfl
    · rintro fd' openFlags node session rfl
      cases hx
  apply goes_getState
  split
  · exact huse (.seeking file _) rfl
  · split
    · exact huse (.seeking file _) rfl
    · split
      · exact huse (.seekFstat file pos) rfl
      · apply goes_fdArrayRelease hsound
        rw [hpc]
        rfl

theorem goes_fileSeekEnd (h : Sound s) {fd : Nat} {pos : Int} (reply : Reply)
    (hpc : s.pc i = .seekFstat fd pos) : Goes s i (fileSeekEnd fd pos reply) := by
  have hrole : role (s.pc i) = .uses fd := by
    rw [hpc]
    rfl
  cases hret : reply.ret with
  | error e =>
      rw [fileSeekEnd, hret]
      exact goes_fdArrayRelease h hrole
  | ok _ =>
      rw [fileSeekEnd, hret]
      apply goes_return h
      · rw [hpc]
        rfl
      · rw [hpc]
        rfl
      · simp

theorem goes_fileSought (h : Sound s) {fd : Nat} {pos : Int} (reply : Reply)
    (hpc : s.pc i = .seeking fd pos) : Goes s i (fileSought fd pos reply) := by
  have hrole : role (s.pc i) = .uses fd := by
    rw [hpc]
    rfl
  cases hret : reply.ret with
  | error e =>
      rw [fileSought, hret]
      exact goes_fdArrayRelease h hrole
  | ok _ =>
      rw [fileSought, hret]
      apply goes_modifyFile_same h
      · exact fun _ => ⟨rfl, rfl, rfl⟩
      · intro s' hsound hsame
        apply goes_fdArrayRelease hsound
        rw [hsame]
        exact hrole

theorem goes_fileTransferred (h : Sound s) {fd : Nat} (reply : Reply)
    (hpc : s.pc i = .transferring fd) : Goes s i (fileTransferred fd reply) := by
  apply goes_modifyFile_same h
  · intro file
    split
    · exact ⟨rfl, rfl, rfl⟩
    · exact ⟨rfl, rfl, rfl⟩
  · intro s' hsound hsame
    apply goes_fdArrayRelease hsound
    rw [hsame, hpc]
    rfl

theorem goes_start (h : Sound s) (hidle : s.pc i = .idle) (call : Call) :
    Goes s i (start call) := by
  cases call with
  | «open» openFlags => exact goes_fileOpen h hidle openFlags
  | close fd =>
      apply goes_fd2file h hidle
      intro file hopened
      exact goes_fdArrayClose h hidle hopened
  | read fd => exact goes_fileTransfer h hidle _ fd
  | write fd => exact goes_fileTransfer h hidle _ fd
  | seek fd pos whence => exact goes_fileSeek h hidle fd pos whence
  | fstat fd => exact goes_fileUse h hidle fd
  | fsync fd => exact goes_fileUse h hidle fd
  | getdirentry fd => exact goes_fileUse h hidle fd
  | dup fd1 fd2 => exact goes_fileDup h hidle fd1 fd2

theorem goes_resume (h : Sound s) {reply : Reply} (hexpects : (s.pc i).Expects reply) :
    Goes s i (resume reply (s.pc i)) := by
  cases hpc : s.pc i with
  | idle =>
      apply goes_return h
      · rw [hpc]
      · rw [hpc]
      · simp
  | opening fd openFlags =>
      rw [hpc] at hexpects
      exact goes_fileOpenNode h reply hpc hexpects
  | openFstat fd openFlags node session => exact goes_fileOpenPos h reply hpc
  | openFailed fd =>
      apply goes_fdArrayFree h
      · rw [hpc]
        rfl
      · rw [hpc]
        rfl
  | transferring fd => exact goes_fileTransferred h reply hpc
  | seekFstat fd pos => exact goes_fileSeekEnd h reply hpc
  | seeking fd pos => exact goes_fileSought h reply hpc
  | «using» fd =>
      apply goes_fdArrayRelease h
      rw [hpc]
      rfl
  | freeing fd => exact goes_fdArrayFreed h hpc

end Segments

section Runs

/-- Number of operations that are in flight on an entry. -/
def inFlight (s : System ι) (fd : Nat) : Nat :=
  count (.uses fd) s.pc

/-- What holds of every entry, of every `vfs_close`, and of the code that a thread
runs next. -/
structure TableOk (s : System ι) : Prop where
  unused : ∀ fd, (s.shared.fdArray fd).status = .fdNone ∨ (s.shared.fdArray fd).status = .fdInit →
    (s.shared.fdArray fd).openCount = 0 ∧ inFlight s fd = 0
  opened : ∀ fd, (s.shared.fdArray fd).status = .fdOpened →
    (s.shared.fdArray fd).openCount = 1 + inFlight s fd
  closed : ∀ fd, (s.shared.fdArray fd).status = .fdClosed →
    (s.shared.fdArray fd).openCount = inFlight s fd ∧
      count (.frees fd) s.pc = if inFlight s fd = 0 then 1 else 0
  closedOnce : s.shared.closed.Nodup
  /-- Every successful open or dup so far is the one of exactly one live entry, or is
  still in the hands of exactly one thread, or is closed. -/
  sessions : Owns (SessionOf s) fun k => k < s.shared.opens
  usable : ∀ i fd, role (s.pc i) = .uses fd →
    Live (s.shared.fdArray fd) ∧ s.shared.session fd ∉ s.shared.closed
  allocated : ∀ fd file t, fdArrayAlloc fd s.shared = .ok (.ok file, t) → inFlight s file = 0
  starts : ∀ i call, s.pc i = .idle → ∃ r t, start call s.shared = .ok (r, t)
  resumes : ∀ i reply, (s.pc i).Expects reply → ∃ r t, resume reply (s.pc i) s.shared = .ok (r, t)

omit [DecidableEq ι] in
theorem sound_initial : Sound (initial ι) where
  entries fd := by
    have hzero : ∀ r, r ≠ .none → count r (initial ι).pc = 0 := fun r hr =>
      tally_eq_zero fun i => decide_eq_false hr.symm
    exact ⟨rfl, hzero _ (by simp), hzero _ (by simp), hzero _ (by simp)⟩
  sessions :=
    { inj := by
        intro o o' k ho _
        cases o with
        | entry fd =>
            rcases ho.1 with hopened | hclosed
            · cases hopened
            · cases hclosed.1
        | thread i => cases ho
        | closed => cases ho
      used_of_holds := by
        intro o k ho
        cases o with
        | entry fd =>
            rcases ho.1 with hopened | hclosed
            · cases hopened
            · cases hclosed.1
        | thread i => cases ho
        | closed => cases ho
      owned := fun hk => absurd hk (Nat.not_lt_zero _) }
  nodup := List.nodup_nil
  nodes i fd openFlags node session h := by cases h

theorem sound_step {s s' : System ι} (h : Sound s) (hstep : Step s s') : Sound s' := by
  cases hstep with
  | start hidle hrun =>
      obtain ⟨r, t, hrun', hsound⟩ := goes_start h hidle _
      cases hrun.symm.trans hrun'
      exact hsound
  | resume _ hexpects hrun =>
      obtain ⟨r, t, hrun', hsound⟩ := goes_resume h hexpects
      cases hrun.symm.trans hrun'
      exact hsound

theorem Sound.live_of_uses (h : Sound s) {fd : Nat} (hrole : role (s.pc i) = .uses fd) :
    Live (s.shared.fdArray fd) := by
  have hentry := h.entries fd
  have hpos : 0 < count (.uses fd) s.pc := count_pos hrole
  cases hstatus : (s.shared.fdArray fd).status with
  | fdOpened => exact Or.inl hstatus
  | fdClosed =>
      simp only [EntryOk, hstatus] at hentry
      exact Or.inr ⟨hstatus, by omega⟩
  | fdNone =>
      simp only [EntryOk, hstatus] at hentry
      omega
  | fdInit =>
      simp only [EntryOk, hstatus] at hentry
      omega

theorem Sound.tableOk (h : Sound s) : TableOk s where
  unused fd hstatus := by
    have hentry := h.entries fd
    rcases hstatus with hnone | hinit
    · simp only [EntryOk, hnone] at hentry
      exact ⟨hentry.1, hentry.2.1⟩
    · simp only [EntryOk, hinit] at hentry
      exact ⟨hentry.1, hentry.2.1⟩
  opened fd hstatus := by
    have hentry := h.entries fd
    simp only [EntryOk, hstatus] at hentry
    rw [hentry.1, Nat.add_comm]
    rfl
  closed fd hstatus := by
    have hentry := h.entries fd
    simp only [EntryOk, hstatus] at hentry
    exact ⟨hentry.1, hentry.2.2⟩
  closedOnce := h.nodup
  sessions := h.sessions
  usable i fd hrole := by
    have hlive := h.live_of_uses hrole
    refine ⟨hlive, ?_⟩
    intro hmem
    have howner : SessionOf s (.entry fd) (s.shared.session fd) := ⟨hlive, rfl⟩
    have hdone : SessionOf s .closed (s.shared.session fd) := hmem
    cases h.sessions.inj howner hdone
  allocated fd file t hrun := by
    rcases fdArrayAlloc_of h fd with ⟨e, hfailed⟩ | ⟨file', hnone, hgiven⟩
    · cases hrun.symm.trans hfailed
    · cases hrun.symm.trans hgiven
      have hentry := h.entries file
      simp only [EntryOk, hnone] at hentry
      exact hentry.2.1
  starts i call hidle := by
    obtain ⟨r, t, hrun, _⟩ := goes_start h hidle call
    exact ⟨r, t, hrun⟩
  resumes i reply hexpects := by
    obtain ⟨r, t, hrun, _⟩ := goes_resume h hexpects
    exact ⟨r, t, hrun⟩

theorem tableOk_of_reaches {s : System ι} (hrun : ReflTransGen Step (initial ι) s) :
    TableOk s := by
  have hsound : Sound s := @holds_of_reaches _ Step Sound _ _ sound_step sound_initial hrun
  exact hsound.tableOk

/-- One thread closes the file that the other one reads. -/
theorem tableOk_of_reaches_closing : ∃ s : System (Fin 2), TableOk s ∧
    (s.shared.fdArray 0).status = .fdClosed ∧ (s.shared.fdArray 0).openCount = 1 ∧
      s.pc 1 = .transferring 0 := by
  have hrun : ∃ s : System (Fin 2), ReflTransGen Step (initial (Fin 2)) s ∧
      (s.shared.fdArray 0).status = .fdClosed ∧ (s.shared.fdArray 0).openCount = 1 ∧
        s.pc 1 = .transferring 0 := by
    have hopening := ReflTransGen.tail ReflTransGen.refl
      (@Step.start _ _ (initial (Fin 2)) 0 (.open 0) _ _ rfl rfl)
    have hopened := hopening.tail (@Step.resume _ _ _ 0 ⟨.ok (), 1⟩ _ _
      (by simp [after]) ?_ rfl)
    have hreading := hopened.tail (@Step.start _ _ _ 1 (.read 0) _ _ rfl rfl)
    have hclosed := hreading.tail (@Step.start _ _ _ 0 (.close 0) _ _ rfl rfl)
    · exact ⟨_, hclosed, rfl, rfl, rfl⟩
    · exact fun _ => one_ne_zero
  obtain ⟨s, hreaches, hstate⟩ := hrun
  exact ⟨s, tableOk_of_reaches hreaches, hstate⟩

end Runs

end Ucore.FdTableRuns
