import Ucore.CyclicTurns
import Ucore.ListHeader
import Ucore.Processes

/-! The round-robin scheduler of lab 5 (`kern/schedule/sched.c`). -/

namespace Ucore.RoundRobin

open Ucore.LinkRing
open Ucore.ListHeader
open Ucore.Panic
open Ucore.CyclicTurns
open Ucore.Processes (ProcState)

/-- Address of a `list_entry_t`: `proc_list` or the `list_link` of a process. -/
inductive Entry where
  | procList
  | listLink (proc : Nat)
  deriving DecidableEq, Repr

structure Scheduler where
  links : Links Entry
  idleproc : Nat
  current : Nat
  state : Nat → ProcState
  runs : Nat → Nat
  needResched : Nat → Bool

/-- The `do … while` loop of `schedule`, which gives what `next` is left at. -/
def nextLoop (s : Scheduler) (last : Entry) : Nat → Entry → Option Nat → Kernel (Option Nat)
  | 0, _, _ => .error .loop
  | fuel + 1, le, next =>
      let le := listNext s.links le
      match le with
      | .procList =>
          if le ≠ last then nextLoop s last fuel le next else .ok next
      | .listLink proc =>
          if s.state proc = .runnable then
            .ok (some proc)
          else if le ≠ last then
            nextLoop s last fuel le (some proc)
          else
            .ok (some proc)

/-- The test of `next` behind the loop. -/
def runnableOrIdle (s : Scheduler) : Option Nat → Nat
  | none => s.idleproc
  | some next => if s.state next ≠ .runnable then s.idleproc else next

/-- `proc_run` as far as the scheduler is concerned. -/
def procRun (s : Scheduler) (proc : Nat) : Scheduler :=
  if proc ≠ s.current then { s with current := proc } else s

def schedule (fuel : Nat) (s : Scheduler) : Kernel Scheduler := do
  let s := { s with needResched := Function.update s.needResched s.current false }
  let last := if s.current = s.idleproc then .procList else .listLink s.current
  let next ← nextLoop s last fuel last none
  let next := runnableOrIdle s next
  let s := { s with runs := Function.update s.runs next (s.runs next + 1) }
  if next ≠ s.current then
    return procRun s next
  else
    return s

section Loop

/-- The entries of the processes. -/
def entries (procs : List Nat) : List Entry :=
  procs.map .listLink

/-- `next` is no process that the loop would have stopped at. -/
def Passed (s : Scheduler) (next : Option Nat) : Prop :=
  ∀ proc, next = some proc → s.state proc ≠ .runnable

def runnable (s : Scheduler) (proc : Nat) : Bool :=
  s.state proc = .runnable

variable {s : Scheduler} {last le : Entry} {next : Option Nat} {procs as bs : List Nat} {fuel : Nat}

/-- The loop goes through a segment of the list up to the first process that is runnable. -/
theorem nextLoop_segment
    (hchain : (le :: entries procs).IsChain fun a b => listNext s.links a = b)
    (hlast : last ∉ entries procs) (hpassed : Passed s next) :
    (∃ proc, procs.find? (runnable s) = some proc ∧
        nextLoop s last (fuel + procs.length) le next = .ok (some proc)) ∨
      procs.find? (runnable s) = none ∧ ∃ next', Passed s next' ∧
        nextLoop s last (fuel + procs.length) le next =
          nextLoop s last fuel (lastOf le (entries procs)) next' := by
  induction procs generalizing le next with
  | nil => exact .inr ⟨rfl, next, hpassed, rfl⟩
  | cons proc procs ih =>
    obtain ⟨hnext, hrest⟩ := List.isChain_cons_cons.mp hchain
    have hne : Entry.listLink proc ≠ last := by
      rintro rfl
      exact hlast List.mem_cons_self
    rw [List.length_cons, ← Nat.add_assoc, nextLoop, hnext]
    by_cases hrun : s.state proc = .runnable
    · refine .inl ⟨proc, ?_, if_pos hrun⟩
      rw [List.find?_cons_of_pos]
      exact decide_eq_true hrun
    · have hskip : (proc :: procs).find? (runnable s) = procs.find? (runnable s) := by
        rw [List.find?_cons_of_neg]
        simpa [runnable] using hrun
      have hstep : Passed s (some proc) := by
        intro q hq
        cases hq
        exact hrun
      rw [hskip]
      simp only [if_neg hrun, if_pos hne]
      have hout : last ∉ entries procs := fun h => hlast (List.mem_cons_of_mem _ h)
      have hend : lastOf le (entries (proc :: procs)) = lastOf (.listLink proc) (entries procs) := by
        cases procs with
        | nil => rfl
        | cons q qs => rfl
      rw [hend]
      exact ih hrest hout hstep

/-- `proc_list` holds `procs`, and `current` is one of them or `idleproc`. -/
structure Listed (procs : List Nat) (s : Scheduler) : Prop where
  ring : RingList s.links .procList (entries procs)
  current : s.current = s.idleproc ∨ s.current ∈ procs

/-- The processes in the order in which `schedule` considers them. -/
def turns (procs : List Nat) (s : Scheduler) : List Nat :=
  if s.current = s.idleproc then procs else turnsAfter procs s.current

/-- The first process that is runnable, or `idleproc`. -/
def picked (procs : List Nat) (s : Scheduler) : Nat :=
  ((turns procs s).find? (runnable s)).getD s.idleproc

theorem runnableOrIdle_of_passed (h : Passed s next) : runnableOrIdle s next = s.idleproc := by
  cases next with
  | none => rfl
  | some proc => exact if_pos (h proc rfl)

theorem runnableOrIdle_of_runnable {proc : Nat} (h : s.state proc = .runnable) :
    runnableOrIdle s (some proc) = proc :=
  if_neg (not_not_intro h)

theorem runnable_of_find {proc : Nat} (h : procs.find? (runnable s) = some proc) :
    s.state proc = .runnable := by
  have hrun := List.find?_some h
  exact of_decide_eq_true hrun

theorem listLink_notMem {proc : Nat} (h : proc ∉ procs) : Entry.listLink proc ∉ entries procs := by
  simpa [entries] using h

theorem procList_notMem (procs : List Nat) : Entry.procList ∉ entries procs := by
  simp [entries]

/-- The links of a segment of the ring, from the entry in front of it on. -/
theorem ring_segment {head e : Entry} {xs ys zs : List Entry}
    (h : RingList s.links head (xs ++ ys ++ zs)) (he : e = lastOf head xs) :
    (e :: ys).IsChain fun a b => listNext s.links a = b := by
  have hchain := h.visits_next.2
  rcases List.eq_nil_or_concat' xs with rfl | ⟨xs, x, rfl⟩
  · obtain rfl : e = head := he
    have hcut : e :: ([] ++ ys ++ zs ++ [e]) = (e :: ys) ++ (zs ++ [e]) := by simp
    rw [hcut] at hchain
    exact hchain.left_of_append
  · rw [lastOf_append_singleton] at he
    subst he
    have hcut : head :: (xs ++ [e] ++ ys ++ zs ++ [head]) =
        (head :: xs) ++ ((e :: ys) ++ (zs ++ [head])) := by simp
    rw [hcut] at hchain
    exact hchain.right_of_append.left_of_append

/-- From `proc_list` on, the loop considers all processes. -/
theorem nextLoop_idle (hring : RingList s.links .procList (entries procs))
    (hfuel : procs.length < fuel) :
    ∃ next, nextLoop s .procList fuel .procList none = .ok next ∧
      runnableOrIdle s next = (procs.find? (runnable s)).getD s.idleproc := by
  obtain ⟨extra, rfl⟩ : ∃ k, fuel = k + 1 + procs.length := ⟨fuel - procs.length - 1, by omega⟩
  have hnone : Passed s none := by
    intro proc hproc
    cases hproc
  have hchain := @ring_segment s .procList .procList [] (entries procs) []
    (by simpa using hring) rfl
  rcases @nextLoop_segment s .procList .procList none procs (extra + 1) hchain
    (procList_notMem procs) hnone with ⟨proc, hfind, hloop⟩ | ⟨hfind, next', hpassed, hloop⟩
  · refine ⟨some proc, hloop, ?_⟩
    rw [hfind, runnableOrIdle_of_runnable (runnable_of_find hfind), Option.getD_some]
  · refine ⟨next', ?_, ?_⟩
    · have hback : listNext s.links (lastOf .procList (entries procs)) = .procList :=
        @RingList.next_lastOf _ _ _ (entries procs) [] (by simpa using hring)
      rw [hloop, nextLoop, hback]
      exact if_neg (not_not_intro rfl)
    · rw [hfind, runnableOrIdle_of_passed hpassed, Option.getD_none]

/-- From a process on, the loop considers the processes behind it, those before it, and it. -/
theorem nextLoop_process {proc : Nat}
    (hring : RingList s.links .procList (entries (as ++ proc :: bs)))
    (hfuel : (as ++ proc :: bs).length < fuel) :
    ∃ next, nextLoop s (.listLink proc) fuel (.listLink proc) none = .ok next ∧
      runnableOrIdle s next = ((bs ++ as ++ [proc]).find? (runnable s)).getD s.idleproc := by
  obtain ⟨extra, rfl⟩ : ∃ k, fuel = k + 1 + as.length + 1 + bs.length := by
    rw [List.length_append, List.length_cons] at hfuel
    exact ⟨fuel - as.length - bs.length - 2, by omega⟩
  have hnodup : (as ++ proc :: bs).Nodup :=
    List.Nodup.of_map _ (List.nodup_cons.mp hring.nodup).2
  obtain ⟨_, hcons, hapart⟩ := List.nodup_append.mp hnodup
  have has : proc ∉ as := fun h => hapart proc h proc List.mem_cons_self rfl
  have hbs : proc ∉ bs := (List.nodup_cons.mp hcons).1
  have hentries : entries (as ++ proc :: bs) =
      (entries as ++ [.listLink proc]) ++ entries bs := by
    simp [entries]
  have hnone : Passed s none := by
    intro q hq
    cases hq
  rw [hentries] at hring
  have hchain := @ring_segment s .procList (.listLink proc) (entries as ++ [.listLink proc])
    (entries bs) [] (by simpa using hring) (by simp)
  rcases @nextLoop_segment s (.listLink proc) (.listLink proc) none bs (extra + 1 + as.length + 1)
    hchain (listLink_notMem hbs) hnone with ⟨q, hfind, hloop⟩ | ⟨hfind, next₁, hpassed₁, hloop⟩
  · refine ⟨some q, hloop, ?_⟩
    rw [List.append_assoc, List.find?_append, hfind, Option.some_or, Option.getD_some,
      runnableOrIdle_of_runnable (runnable_of_find hfind)]
  · have hend : listNext s.links (lastOf (.listLink proc) (entries bs)) = .procList := by
      have hlast := @RingList.next_lastOf _ _ _ (entries as ++ [.listLink proc] ++ entries bs) []
        (by simpa using hring)
      rw [lastOf_append, lastOf_append_singleton] at hlast
      exact hlast
    have hwrap : nextLoop s (.listLink proc) (extra + 1 + as.length + 1)
        (lastOf (.listLink proc) (entries bs)) next₁ =
          nextLoop s (.listLink proc) (extra + 1 + as.length) .procList next₁ := by
      rw [nextLoop, hend]
      exact if_pos (by simp)
    rw [hwrap] at hloop
    have hfront := @ring_segment s .procList .procList [] (entries as)
      (.listLink proc :: entries bs) (by simpa using hring) rfl
    rcases @nextLoop_segment s (.listLink proc) .procList next₁ as (extra + 1)
      hfront (listLink_notMem has) hpassed₁ with
      ⟨q, hfind₂, hloop₂⟩ | ⟨hfind₂, next₂, hpassed₂, hloop₂⟩
    · refine ⟨some q, hloop.trans hloop₂, ?_⟩
      rw [List.append_assoc, List.find?_append, hfind, Option.none_or, List.find?_append, hfind₂,
        Option.some_or, Option.getD_some, runnableOrIdle_of_runnable (runnable_of_find hfind₂)]
    · have hback : listNext s.links (lastOf .procList (entries as)) = .listLink proc :=
        @RingList.next_lastOf _ _ _ (entries as) (.listLink proc :: entries bs)
          (by simpa using hring)
      have hlast : nextLoop s (.listLink proc) (extra + 1) (lastOf .procList (entries as)) next₂ =
          .ok (some proc) := by
        rw [nextLoop, hback]
        simp
      refine ⟨some proc, (hloop.trans hloop₂).trans hlast, ?_⟩
      rw [List.append_assoc, List.find?_append, hfind, Option.none_or, List.find?_append, hfind₂,
        Option.none_or]
      by_cases hrun : s.state proc = .runnable
      · have hfound : [proc].find? (runnable s) = some proc :=
          List.find?_cons_of_pos (decide_eq_true hrun)
        rw [hfound, runnableOrIdle_of_runnable hrun]
        rfl
      · have hskip : [proc].find? (runnable s) = none := by
          simpa [runnable] using hrun
        rw [hskip]
        exact if_pos hrun

theorem nextLoop_turns (h : Listed procs s) (hfuel : procs.length < fuel) :
    ∃ next, nextLoop s (if s.current = s.idleproc then .procList else .listLink s.current) fuel
        (if s.current = s.idleproc then .procList else .listLink s.current) none = .ok next ∧
      runnableOrIdle s next = picked procs s := by
  rw [picked, turns]
  by_cases hidle : s.current = s.idleproc
  · rw [if_pos hidle, if_pos hidle]
    exact nextLoop_idle h.ring hfuel
  · rw [if_neg hidle, if_neg hidle]
    obtain ⟨as, bs, hsplit⟩ := List.append_of_mem (h.current.resolve_left hidle)
    have hring := h.ring
    have hnodup : procs.Nodup := List.Nodup.of_map _ (List.nodup_cons.mp hring.nodup).2
    rw [hsplit] at hring hnodup hfuel ⊢
    have hout : s.current ∉ as := fun hc =>
      (List.nodup_append.mp hnodup).2.2 _ hc _ List.mem_cons_self rfl
    rw [turnsAfter_split hout]
    exact nextLoop_process hring hfuel

end Loop

section Picks

variable {s s' : Scheduler} {procs : List Nat} {fuel : Nat}

/-- The state after `schedule` has picked `next`. -/
def switched (s : Scheduler) (next : Nat) : Scheduler :=
  { s with
    current := next
    runs := Function.update s.runs next (s.runs next + 1)
    needResched := Function.update s.needResched s.current false }

theorem schedule_picks (h : Listed procs s) (hfuel : procs.length < fuel) :
    schedule fuel s = .ok (switched s (picked procs s)) := by
  obtain ⟨next, hloop, hpick⟩ := @nextLoop_turns
    { s with needResched := Function.update s.needResched s.current false } procs fuel
    ⟨h.ring, h.current⟩ hfuel
  refine (congrArg (· >>= _) hloop).trans ?_
  simp only [ok_bind, hpick]
  by_cases hsame : picked procs s = s.current
  · have hstay : switched s (picked procs s) =
        { s with
          needResched := Function.update s.needResched s.current false
          runs := Function.update s.runs (picked procs s) (s.runs (picked procs s) + 1) } := by
      rw [switched, hsame]
    rw [hstay]
    exact if_neg (not_not_intro hsame)
  · refine (if_pos hsame).trans ?_
    exact congrArg Except.ok (if_pos hsame)

theorem mem_turns_iff (procs : List Nat) (s : Scheduler) (proc : Nat) :
    proc ∈ turns procs s ↔ proc ∈ procs := by
  rw [turns]
  split
  · exact Iff.rfl
  · exact (turnsAfter_isRotated procs s.current).perm.mem_iff

theorem turns_isRotated (procs : List Nat) (s : Scheduler) : turns procs s ~r procs := by
  rw [turns]
  split
  · exact List.IsRotated.refl procs
  · exact turnsAfter_isRotated procs s.current

/-- A process is picked where one is runnable. -/
theorem find_picked {proc : Nat} (hmem : proc ∈ procs) (hrun : s.state proc = .runnable) :
    (turns procs s).find? (runnable s) = some (picked procs s) ∧ picked procs s ∈ procs := by
  have hsome : ((turns procs s).find? (runnable s)).isSome := by
    rw [List.find?_isSome]
    exact ⟨proc, (mem_turns_iff procs s proc).mpr hmem, decide_eq_true hrun⟩
  obtain ⟨next, hnext⟩ := Option.isSome_iff_exists.mp hsome
  have hpicked : picked procs s = next := by
    rw [picked, hnext, Option.getD_some]
  rw [hpicked]
  exact ⟨hnext, (mem_turns_iff procs s next).mp (List.mem_of_find?_eq_some hnext)⟩

end Picks

section Calls

/-- Calls of `schedule` one after the other: `proc_list` holds `procs` at each of them, and the
processes may have changed their states between two calls. -/
structure Calls (fuel : Nat) (procs : List Nat) (idle : Nat) (before after : Nat → Scheduler)
    (n : Nat) : Prop where
  ring : ∀ k, k < n → RingList (before k).links .procList (entries procs)
  idle : ∀ k, k < n → (before k).idleproc = idle
  schedule : ∀ k, k < n → schedule fuel (before k) = .ok (after k)
  current : ∀ k, k + 1 < n → (before (k + 1)).current = (after k).current

variable {fuel n idle proc : Nat} {procs : List Nat} {before after : Nat → Scheduler}

/-- The calls go on with a process of the list. -/
theorem Calls.listed (h : Calls fuel procs idle before after n) (hfuel : procs.length < fuel)
    (hstart : Listed procs (before 0)) (hmem : proc ∈ procs)
    (hrun : ∀ k, k < n → (before k).state proc = .runnable) {k : Nat} (hk : k < n) :
    Listed procs (before k) ∧ (after k).current = picked procs (before k) := by
  have hpicks : ∀ j, j < n → Listed procs (before j) →
      (after j).current = picked procs (before j) := by
    intro j hj hlisted
    have hcall := (h.schedule j hj).symm.trans (schedule_picks hlisted hfuel)
    rw [Except.ok.inj hcall]
    rfl
  induction k with
  | zero => exact ⟨hstart, hpicks 0 hk hstart⟩
  | succ k ih =>
    have hk' : k < n := by omega
    obtain ⟨_, hafter⟩ := ih hk'
    have hlisted : Listed procs (before (k + 1)) := by
      refine ⟨h.ring (k + 1) hk, .inr ?_⟩
      rw [h.current k hk, hafter]
      exact (find_picked hmem (hrun k hk')).2
    exact ⟨hlisted, hpicks (k + 1) hk hlisted⟩

/-- A process that stays runnable is picked in one of as many calls as there are processes. -/
theorem Calls.picks (h : Calls fuel procs idle before after procs.length)
    (hfuel : procs.length < fuel) (hstart : Listed procs (before 0)) (hidle : idle ∉ procs)
    (hmem : proc ∈ procs) (hrun : ∀ k, k < procs.length → (before k).state proc = .runnable) :
    ∃ k, k < procs.length ∧ (after k).current = proc := by
  have hcalls := fun k (hk : k < procs.length) => h.listed hfuel hstart hmem hrun hk
  have hnodup : procs.Nodup := List.Nodup.of_map _ (List.nodup_cons.mp hstart.ring.nodup).2
  have hnext : ∀ k, k + 1 < procs.length →
      (turnsAfter procs (picked procs (before k))).find? (runnable (before (k + 1))) =
        some (picked procs (before (k + 1))) := by
    intro k hk
    have hk' : k < procs.length := by omega
    have hturn := (find_picked hmem (hrun (k + 1) hk)).1
    have hcurrent : (before (k + 1)).current = picked procs (before k) := by
      rw [h.current k hk, (hcalls k hk').2]
    have hbusy : picked procs (before k) ≠ idle := by
      intro heq
      exact hidle (heq ▸ (find_picked hmem (hrun k hk')).2)
    rw [turns, hcurrent, h.idle (k + 1) hk, if_neg hbusy] at hturn
    exact hturn
  have hpos : 0 < procs.length := List.length_pos_of_mem hmem
  obtain ⟨k, hk, hpick⟩ := @picked_within Nat proc procs _ (fun k => runnable (before k))
    (fun k => picked procs (before k)) hnodup _ (turns_isRotated procs (before 0)) hmem
    (fun k hk => decide_eq_true (hrun k hk)) (find_picked hmem (hrun 0 hpos)).1 hnext
  exact ⟨k, hk, ((hcalls k hk).2).trans hpick⟩

end Calls

/-- `schedule` ends and picks the first process behind the current one that is runnable, or
`idleproc`; a process that stays runnable is picked within one round of calls. -/
theorem schedule_round_robin {procs : List Nat} {fuel : Nat} (hfuel : procs.length < fuel) :
    (∀ s, Listed procs s → schedule fuel s = .ok (switched s (picked procs s))) ∧
      ∀ idle before after proc, Listed procs (before 0) →
        Calls fuel procs idle before after procs.length → idle ∉ procs → proc ∈ procs →
        (∀ k, k < procs.length → (before k).state proc = .runnable) →
        ∃ k, k < procs.length ∧ (after k).current = proc := by
  constructor
  · intro s hlisted
    exact schedule_picks hlisted hfuel
  · intro idle before after proc hstart hcalls hidle hmem hrun
    exact hcalls.picks hfuel hstart hidle hmem hrun

/-- Two processes beside `idleproc`, which is current. -/
def twoProcs : Scheduler where
  links := listAdd (listAdd (listInit ⟨id, id⟩ .procList) .procList (.listLink 1)) .procList
    (.listLink 2)
  idleproc := 0
  current := 0
  state := fun _ => .runnable
  runs := fun _ => 0
  needResched := fun _ => false

def afterCalls (k : Nat) : Scheduler :=
  (fun s => switched s (picked [2, 1] s))^[k] twoProcs

theorem afterCalls_succ (k : Nat) :
    afterCalls (k + 1) = switched (afterCalls k) (picked [2, 1] (afterCalls k)) :=
  Function.iterate_succ_apply' _ k twoProcs

theorem listed_afterCalls (k : Nat) : Listed [2, 1] (afterCalls k) ∧
    (afterCalls k).idleproc = 0 ∧ ∀ proc, (afterCalls k).state proc = .runnable := by
  induction k with
  | zero =>
    have hone : RingList (listAdd (listInit ⟨id, id⟩ Entry.procList) .procList (.listLink 1))
        .procList [.listLink 1] :=
      @ring_listAdd _ _ _ _ _ [] [] (ring_listInit _ _) (by decide)
    have htwo : RingList twoProcs.links .procList (entries [2, 1]) :=
      @ring_listAdd Entry _ _ .procList (.listLink 2) [] [.listLink 1] hone (by decide)
    exact ⟨⟨htwo, .inl rfl⟩, rfl, fun _ => rfl⟩
  | succ k ih =>
    obtain ⟨hlisted, hidle, hstate⟩ := ih
    have hmem : 1 ∈ [2, 1] := by decide
    rw [afterCalls_succ]
    exact ⟨⟨hlisted.ring, .inr (find_picked hmem (hstate 1)).2⟩, hidle, hstate⟩

theorem schedule_round_robin_twoProcs :
    schedule 3 twoProcs = .ok (switched twoProcs (picked [2, 1] twoProcs)) ∧
      ∃ k, k < 2 ∧ (afterCalls (k + 1)).current = 1 := by
  obtain ⟨hpicks, hturns⟩ := @schedule_round_robin [2, 1] 3 (by decide)
  have hlisted := fun k => (listed_afterCalls k).1
  refine ⟨hpicks twoProcs (hlisted 0), ?_⟩
  refine hturns 0 afterCalls (fun k => afterCalls (k + 1)) 1 (hlisted 0) ?_ (by decide)
    (by decide) fun k _ => (listed_afterCalls k).2.2 1
  refine ⟨fun k _ => (hlisted k).ring, fun k _ => (listed_afterCalls k).2.1, fun k _ => ?_,
    fun k _ => rfl⟩
  rw [hpicks _ (hlisted k), afterCalls_succ]

end Ucore.RoundRobin
