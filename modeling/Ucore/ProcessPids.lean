import Ucore.ProcessTree

/-! The numbers of the processes, and the hash table that finds a process by its number. -/

namespace Ucore.ProcessPids

open Ucore.KernelRoutine
open Ucore.Processes
open Ucore.ProcessTree

/-- No two processes have one number, the hash chains hold all of them, and between
`last_pid` and `next_safe` no number is in use. -/
structure Pids (t : Table) : Prop where
  range : ∀ q ∈ t.procList, 0 < t.pid q ∧ t.pid q < MAX_PID
  unique : ∀ q ∈ t.procList, ∀ q' ∈ t.procList, t.pid q = t.pid q' → q = q'
  hash : ∀ k q, q ∈ t.hashList k ↔ q ∈ t.procList ∧ pidHashfn (t.pid q) = k
  hashNodup : ∀ k, (t.hashList k).Nodup
  safe : ∀ q ∈ t.procList, t.pid q ≤ t.lastPid ∨ t.nextSafe ≤ t.pid q
  last : 0 ≤ t.lastPid

variable {t t' : Table} {proc : Nat}

theorem Pids.congr (h : Pids t) (hpid : t'.pid = t.pid) (hlist : t'.procList = t.procList)
    (hhash : t'.hashList = t.hashList) (hlast : t'.lastPid = t.lastPid)
    (hsafe : t'.nextSafe = t.nextSafe) : Pids t' := by
  constructor
  · rw [hlist, hpid]
    exact h.range
  · rw [hlist, hpid]
    exact h.unique
  · rw [hhash, hlist, hpid]
    exact h.hash
  · rw [hhash]
    exact h.hashNodup
  · rw [hlist, hpid, hlast, hsafe]
    exact h.safe
  · rw [hlast]
    exact h.last

section Search

/-- What a pass that need not be repeated ends with. -/
theorem scanPids_some {pid : Nat → Int} {l : List Nat} {lastPid nextSafe lastPid' nextSafe' : Int}
    (h : scanPids pid l lastPid nextSafe = (lastPid', some nextSafe')) (hlt : lastPid < nextSafe) :
    lastPid ≤ lastPid' ∧ lastPid' < nextSafe' ∧ nextSafe' ≤ nextSafe ∧
      ∀ q ∈ l, pid q < lastPid' ∨ nextSafe' ≤ pid q := by
  induction l generalizing lastPid nextSafe with
  | nil =>
      simp only [scanPids, Prod.mk.injEq, Option.some.injEq] at h
      obtain ⟨rfl, rfl⟩ := h
      exact ⟨le_rfl, hlt, le_rfl, fun q hq => absurd hq List.not_mem_nil⟩
  | cons p rest ih =>
      rw [scanPids] at h
      split at h
      · rename_i hsame
        split at h
        · cases h
        · rename_i hmore
          obtain ⟨hle, hlt', hle', hrest⟩ := ih h (by omega)
          refine ⟨by omega, hlt', hle', ?_⟩
          intro q hq
          rcases List.mem_cons.mp hq with rfl | hq
          · exact Or.inl (by omega)
          · exact hrest q hq
      · rename_i hother
        split at h
        · rename_i hcloser
          obtain ⟨hle, hlt', hle', hrest⟩ := ih h hcloser.1
          refine ⟨hle, hlt', by omega, ?_⟩
          intro q hq
          rcases List.mem_cons.mp hq with rfl | hq
          · exact Or.inr hle'
          · exact hrest q hq
        · rename_i hnot
          obtain ⟨hle, hlt', hle', hrest⟩ := ih h hlt
          refine ⟨hle, hlt', hle', ?_⟩
          intro q hq
          rcases List.mem_cons.mp hq with rfl | hq
          · rcases Decidable.em (pid q > lastPid) with hgt | hle''
            · have hfar : ¬nextSafe > pid q := fun hclose => hnot ⟨hgt, hclose⟩
              exact Or.inr (by omega)
            · exact Or.inl (by omega)
          · exact hrest q hq

/-- What a pass that has to be repeated goes on with. -/
theorem scanPids_none {pid : Nat → Int} {l : List Nat} {lastPid nextSafe lastPid' : Int}
    (h : scanPids pid l lastPid nextSafe = (lastPid', none)) (hpos : 0 < lastPid) :
    0 < lastPid' ∧ lastPid' < MAX_PID := by
  induction l generalizing lastPid nextSafe with
  | nil => cases h
  | cons p rest ih =>
      rw [scanPids] at h
      split at h
      · split at h
        · simp only [Prod.mk.injEq, and_true] at h
          rw [← h]
          split
          · decide
          · exact ⟨by omega, by omega⟩
        · exact ih h (by omega)
      · split at h
        · exact ih h hpos
        · exact ih h hpos

/-- The number is free, and so are all up to `next_safe`. -/
def Free (t : Table) (pid nextSafe : Int) : Prop :=
  0 < pid ∧ pid < MAX_PID ∧ pid < nextSafe ∧
    ∀ q ∈ t.procList, t.pid q < pid ∨ nextSafe ≤ t.pid q

/-- The state in which `get_pid` returns. -/
def numbered (t : Table) (pid nextSafe : Int) : Table :=
  { t with lastPid := pid, nextSafe := nextSafe }

theorem repeatScan_of (fuel : Nat) {lastPid : Int} (hpos : 0 < lastPid) (hlt : lastPid < MAX_PID) :
    repeatScan fuel lastPid t = .error .loop ∨ ∃ pid nextSafe, Free t pid nextSafe ∧
      repeatScan fuel lastPid t = .ok (.ok pid, numbered t pid nextSafe) := by
  induction fuel generalizing lastPid with
  | zero => exact Or.inl rfl
  | succ fuel ih =>
      rcases hscan : scanPids t.pid t.procList lastPid MAX_PID with ⟨lastPid', _ | nextSafe⟩
      · obtain ⟨hpos', hlt'⟩ := scanPids_none hscan hpos
        have hrun : repeatScan (fuel + 1) lastPid t = repeatScan fuel lastPid' t := by
          rw [repeatScan, getState_bind, hscan]
        rw [hrun]
        exact ih hpos' hlt'
      · obtain ⟨hle, hlt', hle', hfree⟩ := scanPids_some hscan hlt
        refine Or.inr ⟨lastPid', nextSafe, ⟨by omega, by omega, hlt', hfree⟩, ?_⟩
        rw [repeatScan, getState_bind, hscan]
        rfl

theorem getPid_of (h : Pids t) :
    getPid t = .error .loop ∨ ∃ pid nextSafe, Free t pid nextSafe ∧
      getPid t = .ok (.ok pid, numbered t pid nextSafe) := by
  have hlast := h.last
  rcases Decidable.em (t.lastPid + 1 ≥ MAX_PID) with hwrap | hmore
  · rw [getPid, getState_bind, if_pos hwrap]
    exact repeatScan_of _ (by decide) (by decide)
  · rcases Decidable.em (t.lastPid + 1 ≥ t.nextSafe) with hunsafe | hsafe
    · rw [getPid, getState_bind, if_neg hmore, if_pos hunsafe]
      exact repeatScan_of _ (by omega) (by omega)
    · refine Or.inr ⟨t.lastPid + 1, t.nextSafe, ⟨by omega, by omega, by omega, ?_⟩, ?_⟩
      · intro q hq
        rcases h.safe q hq with hle | hfar
        · exact Or.inl (by omega)
        · exact Or.inr hfar
      · rw [getPid, getState_bind, if_neg hmore, if_neg hsafe]
        rfl

theorem findFrom_of {l : List Nat} (pid : Int) (hl : ∀ q ∈ l, t.live q = true) :
    findFrom pid l t = .ok (.ok (l.find? fun q => t.pid q = pid), t) := by
  induction l with
  | nil => rfl
  | cons p rest ih =>
      rw [findFrom, bind_of_ok (deref_of (hl p List.mem_cons_self)), getState_bind]
      rcases eq_or_ne (t.pid p) pid with hfound | hother
      · rw [if_pos hfound, List.find?_cons_of_pos (by simpa using hfound)]
        rfl
      · rw [if_neg hother, List.find?_cons_of_neg (by simpa using hother)]
        exact ih fun q hq => hl q (List.mem_cons_of_mem p hq)

theorem findProc_of (h : Pids t) (hl : ∀ q ∈ t.procList, t.live q = true) (pid : Int) :
    ∃ found, findProc pid t = .ok (.ok found, t) ∧
      ∀ q, found = some q ↔ q ∈ t.procList ∧ t.pid q = pid := by
  rcases Decidable.em (0 < pid ∧ pid < MAX_PID) with hrange | hnot
  · let chain := t.hashList (pidHashfn pid)
    have hchain : ∀ q ∈ chain, q ∈ t.procList := fun q hq => ((h.hash _ q).mp hq).1
    refine ⟨chain.find? fun q => t.pid q = pid, ?_, ?_⟩
    · rw [findProc, if_pos hrange, getState_bind]
      exact findFrom_of pid fun q hq => hl q (hchain q hq)
    · intro q
      constructor
      · intro hq
        have hpid : t.pid q = pid := by simpa using List.find?_some hq
        exact ⟨hchain q (List.mem_of_find?_eq_some hq), hpid⟩
      · rintro ⟨hq, hpid⟩
        have hmem : q ∈ chain := (h.hash _ q).mpr ⟨hq, by rw [hpid]⟩
        cases hfind : chain.find? fun q => t.pid q = pid with
        | none =>
            have hne := List.find?_eq_none.mp hfind q hmem
            exact absurd hpid (by simpa using hne)
        | some q' =>
            have hpid' : t.pid q' = pid := by simpa using List.find?_some hfind
            have hq' := hchain q' (List.mem_of_find?_eq_some hfind)
            rw [h.unique q' hq' q hq (hpid'.trans hpid.symm)]
  · refine ⟨none, ?_, ?_⟩
    · rw [findProc, if_neg hnot]
      rfl
    · intro q
      constructor
      · intro hq
        cases hq
      · rintro ⟨hq, rfl⟩
        exact absurd (h.range q hq) hnot

end Search

section Changes

/-- A process that is linked has a number that was free. -/
theorem Pids.linked (h : Pids t) {pid nextSafe : Int} (hfree : Free t pid nextSafe)
    (hnew : proc ∉ t.procList) (hpid : t'.pid = Function.update t.pid proc pid)
    (hlist : t'.procList = proc :: t.procList)
    (hhash : t'.hashList = Function.update t.hashList (pidHashfn pid)
      (proc :: t.hashList (pidHashfn pid)))
    (hlast : t'.lastPid = pid) (hsafe : t'.nextSafe = nextSafe) : Pids t' := by
  obtain ⟨hpos, hlt, hnext, hothers⟩ := hfree
  have hself : t'.pid proc = pid := by rw [hpid, Function.update_self]
  have hold : ∀ q ∈ t.procList, t'.pid q = t.pid q := by
    intro q hq
    rw [hpid]
    apply Function.update_of_ne
    rintro rfl
    exact hnew hq
  have hdiffer : ∀ q ∈ t.procList, t.pid q ≠ pid := by
    intro q hq heq
    rcases hothers q hq with hlt' | hge
    · omega
    · omega
  constructor
  · rw [hlist]
    intro q hq
    rcases List.mem_cons.mp hq with rfl | hq
    · rw [hself]
      exact ⟨hpos, hlt⟩
    · rw [hold q hq]
      exact h.range q hq
  · rw [hlist]
    intro q hq q' hq' heq
    rcases List.mem_cons.mp hq with rfl | hqold
    · rcases List.mem_cons.mp hq' with rfl | hqold'
      · rfl
      · rw [hself, hold q' hqold'] at heq
        exact absurd heq.symm (hdiffer q' hqold')
    · rcases List.mem_cons.mp hq' with rfl | hqold'
      · rw [hself, hold q hqold] at heq
        exact absurd heq (hdiffer q hqold)
      · rw [hold q hqold, hold q' hqold'] at heq
        exact h.unique q hqold q' hqold' heq
  · intro k q
    rw [hhash, hlist, List.mem_cons]
    have hchain : ∀ k', q ∈ t.hashList k' → q ≠ proc := by
      intro k' hmem heq
      exact hnew (heq ▸ ((h.hash k' q).mp hmem).1)
    rcases eq_or_ne k (pidHashfn pid) with rfl | hne
    · rw [Function.update_self, List.mem_cons]
      constructor
      · rintro (rfl | hmem)
        · exact ⟨Or.inl rfl, by rw [hself]⟩
        · obtain ⟨hq, hk⟩ := (h.hash _ q).mp hmem
          exact ⟨Or.inr hq, by rw [hold q hq, hk]⟩
      · rintro ⟨rfl | hq, hk⟩
        · exact Or.inl rfl
        · rw [hold q hq] at hk
          exact Or.inr ((h.hash _ q).mpr ⟨hq, hk⟩)
    · rw [Function.update_of_ne hne]
      constructor
      · intro hmem
        obtain ⟨hq, hk⟩ := (h.hash k q).mp hmem
        exact ⟨Or.inr hq, by rw [hold q hq, hk]⟩
      · rintro ⟨rfl | hq, hk⟩
        · rw [hself] at hk
          exact absurd hk.symm hne
        · rw [hold q hq] at hk
          exact (h.hash k q).mpr ⟨hq, hk⟩
  · intro k
    rw [hhash]
    rcases eq_or_ne k (pidHashfn pid) with rfl | hne
    · rw [Function.update_self]
      exact List.nodup_cons.mpr ⟨fun hmem => hnew ((h.hash _ proc).mp hmem).1, h.hashNodup _⟩
    · rw [Function.update_of_ne hne]
      exact h.hashNodup k
  · rw [hlist, hlast, hsafe]
    intro q hq
    rcases List.mem_cons.mp hq with rfl | hq
    · exact Or.inl hself.le
    · rw [hold q hq]
      exact (hothers q hq).imp le_of_lt id
  · rw [hlast]
    exact hpos.le

theorem Pids.unlinked (h : Pids t) (hnodup : t.procList.Nodup)
    (hproc : proc ∈ t.procList) (hpid : t'.pid = t.pid)
    (hlist : t'.procList = t.procList.erase proc)
    (hhash : t'.hashList = Function.update t.hashList (pidHashfn (t.pid proc))
      ((t.hashList (pidHashfn (t.pid proc))).erase proc))
    (hlast : t'.lastPid = t.lastPid) (hsafe : t'.nextSafe = t.nextSafe) : Pids t' := by
  have hmem : ∀ q, q ∈ t'.procList ↔ q ≠ proc ∧ q ∈ t.procList := by
    intro q
    rw [hlist]
    exact hnodup.mem_erase_iff
  constructor
  · rw [hpid]
    exact fun q hq => h.range q ((hmem q).mp hq).2
  · rw [hpid]
    exact fun q hq q' hq' => h.unique q ((hmem q).mp hq).2 q' ((hmem q').mp hq').2
  · intro k q
    rw [hmem, hpid, hhash]
    rcases eq_or_ne k (pidHashfn (t.pid proc)) with rfl | hne
    · rw [Function.update_self, (h.hashNodup _).mem_erase_iff, h.hash, and_assoc]
    · rw [Function.update_of_ne hne, h.hash]
      constructor
      · rintro ⟨hq, hk⟩
        refine ⟨⟨?_, hq⟩, hk⟩
        rintro rfl
        exact hne hk.symm
      · rintro ⟨⟨_, hq⟩, hk⟩
        exact ⟨hq, hk⟩
  · intro k
    rw [hhash]
    rcases eq_or_ne k (pidHashfn (t.pid proc)) with rfl | hne
    · rw [Function.update_self]
      exact (h.hashNodup _).erase proc
    · rw [Function.update_of_ne hne]
      exact h.hashNodup k
  · rw [hpid, hlast, hsafe]
    exact fun q hq => h.safe q ((hmem q).mp hq).2
  · rw [hlast]
    exact h.last

end Changes

end Ucore.ProcessPids
