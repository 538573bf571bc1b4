import Ucore.ProcessRuns
import Mathlib.Data.Int.Interval

/-! `get_pid` while processes come and go. -/

namespace Ucore.PidRuns

open Relation
open Ucore.Errors
open Ucore.Panic
open Ucore.KernelRoutine
open Ucore.Interleaving
open Ucore.Processes
open Ucore.ProcessTree
open Ucore.ProcessPids
open Ucore.ProcessRuns

variable {α : Type} {s t : Table} {proc : Nat}

section Search

/-- A process in the list has the number. -/
def Used (t : Table) (k : Int) : Prop :=
  ∃ q ∈ t.procList, t.pid q = k

/-- A pass that has to be repeated has met all numbers from where it began to the one
before where the next pass begins. -/
theorem scanPids_none_met {pid : Nat → Int} {l : List Nat} {lastPid nextSafe lastPid' : Int}
    (h : scanPids pid l lastPid nextSafe = (lastPid', none)) :
    ∃ m, lastPid ≤ m ∧ (∀ k, lastPid ≤ k → k ≤ m → ∃ q ∈ l, pid q = k) ∧
      lastPid' = if m + 1 ≥ MAX_PID then 1 else m + 1 := by
  induction l generalizing lastPid nextSafe with
  | nil => cases h
  | cons p rest ih =>
      have hlater : ∀ {k}, (∃ q ∈ rest, pid q = k) → ∃ q ∈ p :: rest, pid q = k :=
        fun ⟨q, hq, hk⟩ => ⟨q, List.mem_cons_of_mem p hq, hk⟩
      rw [scanPids] at h
      split at h
      · rename_i hsame
        split at h
        · simp only [Prod.mk.injEq, and_true] at h
          refine ⟨lastPid, le_rfl, ?_, h.symm⟩
          intro k hle hge
          exact ⟨p, List.mem_cons_self, by omega⟩
        · obtain ⟨m, hm, hmet, hnext⟩ := ih h
          refine ⟨m, by omega, ?_, hnext⟩
          intro k hle hge
          rcases eq_or_lt_of_le hle with rfl | hlt
          · exact ⟨p, List.mem_cons_self, hsame⟩
          · exact hlater (hmet k (by omega) hge)
      · split at h
        · obtain ⟨m, hm, hmet, hnext⟩ := ih h
          exact ⟨m, hm, fun k hle hge => hlater (hmet k hle hge), hnext⟩
        · obtain ⟨m, hm, hmet, hnext⟩ := ih h
          exact ⟨m, hm, fun k hle hge => hlater (hmet k hle hge), hnext⟩

/-- There are more numbers than processes. -/
theorem exists_unused (h : t.procList.length < MAX_PROCESS) :
    ∃ k, 1 ≤ k ∧ k < MAX_PID ∧ ¬Used t k := by
  by_contra hnone
  push Not at hnone
  have hsub : Finset.Ico 1 MAX_PID ⊆ (t.procList.map t.pid).toFinset := by
    intro k hk
    obtain ⟨hone, hlt⟩ := Finset.mem_Ico.mp hk
    obtain ⟨q, hq, hpid⟩ := hnone k hone hlt
    rw [List.mem_toFinset, List.mem_map]
    exact ⟨q, hq, hpid⟩
  have hnumbers : (Finset.Ico 1 MAX_PID).card = 8191 := by
    rw [Int.card_Ico]
    rfl
  have hprocs : (t.procList.map t.pid).toFinset.card ≤ t.procList.length := by
    have hle := List.toFinset_card_le (t.procList.map t.pid)
    rwa [List.length_map] at hle
  have hle := Finset.card_le_card hsub
  rw [hnumbers] at hle
  have hmax : MAX_PROCESS = 4096 := rfl
  omega

theorem repeatScan_repeat {fuel : Nat} {lastPid lastPid' : Int}
    (hscan : scanPids t.pid t.procList lastPid MAX_PID = (lastPid', none)) :
    repeatScan (fuel + 1) lastPid t = repeatScan fuel lastPid' t := by
  rw [repeatScan, getState_bind, hscan]

theorem repeatScan_done {fuel : Nat} {lastPid lastPid' nextSafe : Int}
    (hscan : scanPids t.pid t.procList lastPid MAX_PID = (lastPid', some nextSafe)) :
    repeatScan (fuel + 1) lastPid t = .ok (.ok lastPid', numbered t lastPid' nextSafe) := by
  rw [repeatScan, getState_bind, hscan]
  rfl

/-- When all numbers before it are used, `last_pid` only grows, up to a free number. -/
theorem repeatScan_of_used (fuel : Nat) {lastPid : Int}
    (hfree : ∃ k, 1 ≤ k ∧ k < MAX_PID ∧ ¬Used t k)
    (hused : ∀ k, 1 ≤ k → k < lastPid → Used t k) (hone : 1 ≤ lastPid)
    (hfuel : MAX_PID - lastPid < fuel) : repeatScan fuel lastPid t ≠ .error .loop := by
  induction fuel generalizing lastPid with
  | zero =>
      obtain ⟨k, hk, hlt, hnot⟩ := hfree
      exact absurd (hused k hk (by omega)) hnot
  | succ fuel ih =>
      rcases hscan : scanPids t.pid t.procList lastPid MAX_PID with ⟨lastPid', _ | nextSafe⟩
      · obtain ⟨m, hm, hmet, hnext⟩ := scanPids_none_met hscan
        have hall : ∀ k, 1 ≤ k → k < m + 1 → Used t k := by
          intro k hk hlt
          rcases lt_or_ge k lastPid with hbefore | hafter
          · exact hused k hk hbefore
          · exact hmet k hafter (by omega)
        have hmore : ¬m + 1 ≥ MAX_PID := by
          intro hend
          obtain ⟨k, hk, hlt, hnot⟩ := hfree
          exact hnot (hall k hk (by omega))
        rw [if_neg hmore] at hnext
        rw [repeatScan_repeat hscan, hnext]
        exact ih hall (by omega) (by omega)
      · rw [repeatScan_done hscan]
        simp

/-- Before it begins again at the first number, `last_pid` grows too. -/
theorem repeatScan_of_unused (fuel : Nat) {lastPid : Int}
    (hfree : ∃ k, 1 ≤ k ∧ k < MAX_PID ∧ ¬Used t k) (hone : 1 ≤ lastPid) (hlt : lastPid < MAX_PID)
    (hfuel : MAX_PID - lastPid + MAX_PID ≤ fuel) :
    repeatScan fuel lastPid t ≠ .error .loop := by
  induction fuel generalizing lastPid with
  | zero =>
      have hmax : (0 : Int) < MAX_PID := by decide
      omega
  | succ fuel ih =>
      rcases hscan : scanPids t.pid t.procList lastPid MAX_PID with ⟨lastPid', _ | nextSafe⟩
      · obtain ⟨m, hm, -, hnext⟩ := scanPids_none_met hscan
        rw [repeatScan_repeat hscan]
        split at hnext
        · subst hnext
          apply repeatScan_of_used fuel hfree
          · intro k hk hbefore
            omega
          · exact le_rfl
          · omega
        · rw [hnext]
          exact ih (by omega) (by omega) (by omega)
      · rw [repeatScan_done hscan]
        simp

theorem getPid_returns (h : Pids t) (hroom : t.procList.length < MAX_PROCESS) :
    ∃ pid nextSafe, Free t pid nextSafe ∧ getPid t = .ok (.ok pid, numbered t pid nextSafe) := by
  have hfree := exists_unused hroom
  have hlast := h.last
  have hmax : MAX_PID = 8192 := rfl
  refine (getPid_of h).resolve_left ?_
  rw [getPid, getState_bind]
  split
  · exact repeatScan_of_unused _ hfree le_rfl (by decide) (by decide)
  · split
    · apply repeatScan_of_unused _ hfree
      · omega
      · omega
      · have hfuel : ((2 * MAX_PID.toNat : Nat) : Int) = 16384 := rfl
        omega
    · intro hloop
      cases hloop

end Search

section Changes

/-- The part of `do_fork` that gives a number to a process and links it. -/
def enlist (proc : Nat) : Routine Table Unit := do
  let pid ← getPid
  modifyState fun s => { s with pid := Function.update s.pid proc pid }
  setLinks proc
  hashProc proc

/-- The part of `do_wait` that takes a process out again. -/
def delist (proc : Nat) : Routine Table Unit := do
  unhashProc proc
  removeLinks proc

theorem doForked_eq (proc : Nat) : doForked proc (.ok ()) = do
    enlist proc
    wakeupProc proc
    return .user := by
  rw [doForked, enlist]
  simp only [routine_bind_assoc]

theorem reap_eq (proc : Nat) : reap proc = (do
    let s ← getState
    ensure (proc ≠ s.idleproc ∧ some proc ≠ s.initproc)
    delist proc
    kfreeProc proc
    modifyState fun s => { s with
      reaps := ⟨proc, s.parent proc, s.current, s.exitCode proc⟩ :: s.reaps }) := by
  rw [reap]
  simp only [delist, routine_bind_assoc]

/-- A process is created, a process is removed, or the kernel does something that has
nothing to do with the numbers of the processes in the list. -/
inductive Change : Table → Table → Prop
  | create {s t : Table} {proc : Nat} :
      s.live proc = true → proc ∉ s.procList → enlist proc s = .ok (.ok (), t) → Change s t
  | remove {s t : Table} {proc : Nat} :
      proc ∈ s.procList → delist proc s = .ok (.ok (), t) → Change s t
  | other {s t : Table} :
      (∀ q ∈ s.procList, t.live q = true ∧ t.pid q = s.pid q) → t.procList = s.procList →
      t.hashList = s.hashList → t.lastPid = s.lastPid → t.nextSafe = s.nextSafe → Change s t

/-- Two tables that `get_pid` and `find_proc` do not tell apart, but for the list. -/
structure Alike (s t : Table) : Prop where
  live : t.live = s.live
  pid : t.pid = s.pid
  hashList : t.hashList = s.hashList
  lastPid : t.lastPid = s.lastPid
  nextSafe : t.nextSafe = s.nextSafe

/-- The code changes nothing that `get_pid` and `find_proc` read. -/
def Apart (x : Routine Table α) : Prop :=
  ∀ s l, Preserves (fun t => Alike s t ∧ t.procList = l) x

theorem apart_deref (p : Option Nat) : Apart (deref p) := by
  intro s l t r t' h heq
  cases p with
  | none => cases heq
  | some a =>
      simp only [deref] at heq
      split at heq
      · cases heq
        exact h
      · cases heq

theorem apart_modify {f : Table → Table} (hf : ∀ t, Alike t (f t) ∧ (f t).procList = t.procList) :
    Apart (modifyState f) := by
  intro s l
  apply Preserves.modifyState
  rintro t ⟨h, hl⟩
  obtain ⟨hsame, hlist⟩ := hf t
  exact ⟨⟨hsame.live.trans h.live, hsame.pid.trans h.pid, hsame.hashList.trans h.hashList,
    hsame.lastPid.trans h.lastPid, hsame.nextSafe.trans h.nextSafe⟩, hlist.trans hl⟩

theorem apart_setYptr (p : Nat) (v : Option Nat) : Apart (setYptr p v) :=
  apart_modify fun _ => ⟨⟨rfl, rfl, rfl, rfl, rfl⟩, rfl⟩

theorem apart_setOptr (p : Nat) (v : Option Nat) : Apart (setOptr p v) :=
  apart_modify fun _ => ⟨⟨rfl, rfl, rfl, rfl, rfl⟩, rfl⟩

theorem apart_setCptr (p : Nat) (v : Option Nat) : Apart (setCptr p v) :=
  apart_modify fun _ => ⟨⟨rfl, rfl, rfl, rfl, rfl⟩, rfl⟩

theorem apart_setYptrAt (p v : Option Nat) : Apart (setYptrAt p v) := by
  intro s l
  cases p with
  | none => exact Preserves.pure ()
  | some a =>
      apply Preserves.bind
      · exact apart_deref (some a) s l
      · intro a
        exact apart_setYptr a v s l

theorem setLinks_alike {r : Except Errno Unit} (h : setLinks proc s = .ok (r, t)) :
    Alike s t ∧ t.procList = proc :: s.procList := by
  let u : Table := { s with procList := proc :: s.procList }
  have hbegin : Alike s u ∧ u.procList = proc :: s.procList := ⟨⟨rfl, rfl, rfl, rfl, rfl⟩, rfl⟩
  rw [setLinks, modifyState_bind] at h
  refine Preserves.bind (apart_setYptr _ _ s _) ?_ _ _ _ hbegin h
  intro _
  apply Preserves.getState
  intro u
  apply Preserves.bind (apart_deref _ s _)
  intro parent
  apply Preserves.bind (apart_setOptr _ _ s _)
  intro _
  apply Preserves.bind (apart_setYptrAt _ _ s _)
  intro _
  apply Preserves.bind (apart_setCptr _ _ s _)
  intro _
  apply apart_modify
  exact fun _ => ⟨⟨rfl, rfl, rfl, rfl, rfl⟩, rfl⟩

theorem removeLinks_alike {r : Except Errno Unit} (h : removeLinks proc s = .ok (r, t)) :
    Alike s t ∧ t.procList = s.procList.erase proc := by
  have hcount : Apart (modifyState fun s => { s with nrProcess := s.nrProcess - 1 }) :=
    apart_modify fun _ => ⟨⟨rfl, rfl, rfl, rfl, rfl⟩, rfl⟩
  let u : Table := { s with procList := s.procList.erase proc }
  have hbegin : Alike s u ∧ u.procList = s.procList.erase proc :=
    ⟨⟨rfl, rfl, rfl, rfl, rfl⟩, rfl⟩
  rw [removeLinks, modifyState_bind, getState_bind] at h
  refine Preserves.bind (apart_setYptrAt _ _ s _) ?_ _ _ _ hbegin h
  intro _
  apply Preserves.getState
  intro u
  cases u.yptr proc with
  | none =>
      apply Preserves.bind (apart_deref _ s _)
      intro parent
      apply Preserves.bind (apart_setCptr _ _ s _)
      exact fun _ => hcount s _
  | some _ =>
      apply Preserves.bind (apart_deref _ s _)
      intro elder
      apply Preserves.bind (apart_setOptr _ _ s _)
      exact fun _ => hcount s _

end Changes

section Runs

/-- The process list with the numbers of its processes. -/
structure Listed (t : Table) : Prop where
  pids : Pids t
  nodup : t.procList.Nodup
  live : ∀ q ∈ t.procList, t.live q = true

theorem Listed.enlist (h : Listed s) (hlive : s.live proc = true) (hnew : proc ∉ s.procList)
    (hrun : enlist proc s = .ok (.ok (), t)) : Listed t := by
  rcases getPid_of h.pids with hloop | ⟨pid, nextSafe, hfree, hpid⟩
  · rw [PidRuns.enlist, bind_of_abort hloop] at hrun
    cases hrun
  · rw [PidRuns.enlist, bind_of_ok hpid, modifyState_bind] at hrun
    rcases bind_eq_ok_iff.mp hrun with ⟨⟨⟩, u, hlinks, hhash⟩ | ⟨e, _, herr⟩
    · obtain ⟨halike, hlist⟩ := setLinks_alike hlinks
      have hself : u.pid proc = pid := by
        rw [halike.pid]
        exact Function.update_self _ _ _
      cases hhash
      refine ⟨h.pids.linked hfree hnew halike.pid hlist ?_ halike.lastPid halike.nextSafe, ?_, ?_⟩
      · change Function.update u.hashList (pidHashfn (u.pid proc)) _ = _
        rw [hself, halike.hashList]
        rfl
      · change u.procList.Nodup
        rw [hlist]
        exact List.nodup_cons.mpr ⟨hnew, h.nodup⟩
      · change ∀ q ∈ u.procList, u.live q = true
        rw [hlist, halike.live]
        intro q hq
        rcases List.mem_cons.mp hq with rfl | hq
        · exact hlive
        · exact h.live q hq
    · cases herr

theorem Listed.delist (h : Listed s) (hproc : proc ∈ s.procList)
    (hrun : delist proc s = .ok (.ok (), t)) : Listed t := by
  rw [PidRuns.delist, unhashProc, modifyState_bind] at hrun
  obtain ⟨halike, hlist⟩ := removeLinks_alike hrun
  have hmem : ∀ q ∈ t.procList, q ∈ s.procList := by
    intro q hq
    rw [hlist] at hq
    exact List.mem_of_mem_erase hq
  refine ⟨h.pids.unlinked h.nodup hproc halike.pid hlist halike.hashList halike.lastPid
    halike.nextSafe, ?_, ?_⟩
  · rw [hlist]
    exact h.nodup.erase proc
  · intro q hq
    rw [halike.live]
    exact h.live q (hmem q hq)

theorem listed_change (h : Listed s) (hchange : Change s t) : Listed t := by
  cases hchange with
  | create hlive hnew hrun => exact h.enlist hlive hnew hrun
  | remove hproc hrun => exact h.delist hproc hrun
  | other hkept hlist hhash hlast hsafe =>
      refine ⟨?_, ?_, ?_⟩
      · constructor
        · rw [hlist]
          intro q hq
          rw [(hkept q hq).2]
          exact h.pids.range q hq
        · rw [hlist]
          intro q hq q' hq' heq
          rw [(hkept q hq).2, (hkept q' hq').2] at heq
          exact h.pids.unique q hq q' hq' heq
        · intro k q
          rw [hhash, hlist, h.pids.hash]
          apply and_congr_right
          intro hq
          rw [(hkept q hq).2]
        · rw [hhash]
          exact h.pids.hashNodup
        · rw [hlist, hlast, hsafe]
          intro q hq
          rw [(hkept q hq).2]
          exact h.pids.safe q hq
        · rw [hlast]
          exact h.pids.last
      · rw [hlist]
        exact h.nodup
      · rw [hlist]
        exact fun q hq => (hkept q hq).1

/-- No process is listed, and `last_pid` and `next_safe` are as the kernel is built. -/
structure Unnumbered (t : Table) : Prop where
  procList : t.procList = []
  hashList : ∀ k, t.hashList k = []
  lastPid : t.lastPid = MAX_PID
  nextSafe : t.nextSafe = MAX_PID

theorem listed_unnumbered (h : Unnumbered t) : Listed t := by
  have hnone : ∀ q, q ∉ t.procList := by
    intro q
    rw [h.procList]
    exact List.not_mem_nil
  refine ⟨⟨?_, ?_, ?_, ?_, ?_, ?_⟩, ?_, ?_⟩
  · exact fun q hq => absurd hq (hnone q)
  · exact fun q hq => absurd hq (hnone q)
  · intro k q
    rw [h.hashList k]
    exact ⟨fun hq => absurd hq List.not_mem_nil, fun hq => absurd hq.1 (hnone q)⟩
  · intro k
    rw [h.hashList k]
    exact List.nodup_nil
  · exact fun q hq => absurd hq (hnone q)
  · rw [h.lastPid]
    decide
  · rw [h.procList]
    exact List.nodup_nil
  · exact fun q hq => absurd hq (hnone q)

theorem listed_of_changes (hinit : Unnumbered s) (hrun : ReflTransGen Change s t) : Listed t :=
  holds_of_reaches listed_change (listed_unnumbered hinit) hrun

/-- While there is room for a process `get_pid` returns a number that none has, no two
have one number, and `find_proc` returns the process with a number. -/
structure PidsOk (t : Table) : Prop where
  fresh : t.procList.length < MAX_PROCESS → ∃ pid t', getPid t = .ok (.ok pid, t') ∧
    1 ≤ pid ∧ pid < MAX_PID ∧ ∀ q ∈ t.procList, t.pid q ≠ pid
  distinct : t.procList.Pairwise fun q q' => t.pid q ≠ t.pid q'
  found : ∀ pid, ∃ found, findProc pid t = .ok (.ok found, t) ∧
    ∀ q, found = some q ↔ q ∈ t.procList ∧ t.pid q = pid

theorem Listed.pidsOk (h : Listed t) : PidsOk t := by
  constructor
  · intro hroom
    obtain ⟨pid, nextSafe, ⟨hpos, hlt, hnext, hothers⟩, hrun⟩ := getPid_returns h.pids hroom
    refine ⟨pid, _, hrun, by omega, hlt, ?_⟩
    intro q hq
    rcases hothers q hq with hless | hmore
    · omega
    · omega
  · apply h.nodup.imp_of_mem
    intro q q' hq hq' hne heq
    exact hne (h.pids.unique q hq q' hq' heq)
  · exact findProc_of h.pids h.live

/-- From the first process on, whatever comes and goes. -/
theorem pidsOk_of_changes (hinit : Unnumbered s) (hrun : ReflTransGen Change s t) : PidsOk t :=
  (listed_of_changes hinit hrun).pidsOk

/-- Two children of the idle process are created and the first is removed. -/
theorem pidsOk_of_changes_three :
    ∃ t, ReflTransGen Change noProcess t ∧ t.procList.map t.pid = [2] ∧ PidsOk t := by
  let family : Table := { noProcess with
    live := fun p => decide (p < 3)
    parent := fun p => if p = 0 then none else some 0 }
  have hfamily : ReflTransGen Change noProcess family :=
    .single (.other (by simp [noProcess]) rfl rfl rfl rfl)
  have hfirst := hfamily.tail (@Change.create family _ 1 rfl (by decide) rfl)
  have hsecond := hfirst.tail (@Change.create _ _ 2 rfl (by decide) rfl)
  have hremoved := hsecond.tail (@Change.remove _ _ 1 (by decide) rfl)
  have hinit : Unnumbered noProcess := ⟨rfl, fun _ => rfl, rfl, rfl⟩
  exact ⟨_, hremoved, rfl, pidsOk_of_changes hinit hremoved⟩

/-- The processes of the kernel fork, exit and wait. -/
theorem pidsOk_of_reaches {s₀ s : System} (hboot : Boots s₀) (hrun : ReflTransGen Step s₀ s) :
    PidsOk s.shared := by
  obtain ⟨kids, hgood⟩ := (sound_of_reaches hboot hrun).good
  exact Listed.pidsOk ⟨hgood.pids, hgood.tree.listNodup, hgood.tree.listed⟩

end Runs

end Ucore.PidRuns
