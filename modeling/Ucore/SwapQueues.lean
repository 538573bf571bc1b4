import Ucore.SwapSteps

/-! First in, first out: the pages that `swap_out` takes, over any calls of `mm_create`,
`swap_map_swappable` and `swap_out`. -/

namespace Ucore.SwapQueues

open Relation
open Ucore.Errors
open Ucore.Panic
open Ucore.KernelRoutine
open Ucore.Interleaving
open Ucore.ListHeader
open Ucore.DefaultPmm (PGSIZE)
open Ucore.PageTables
open Ucore.PageOwners
open Ucore.Swap
open Ucore.SwapSteps

/-- The pages that were registered and are not evicted, each with the address space that it was
registered for, and the earliest first. -/
abbrev Waiting := List (Nat × Nat)

/-- The page that should be evicted first. -/
def earliest (mm : Nat) (waiting : Waiting) : Option Nat :=
  (waiting.find? fun x => x.1 = mm).map Prod.snd

/-- What is left after the earliest page was evicted. It is registered once more if it could not
be saved. -/
def leave (mm : Nat) (failed : Bool) (waiting : Waiting) : Waiting :=
  match waiting.find? fun x => x.1 = mm with
  | none => waiting
  | some x => if failed then waiting.erase x ++ [x] else waiting.erase x

/-- What is left after `n` pages, where `fails` says of which transfers fail. -/
def leaves (mm : Nat) (fails : Nat → Bool) : Nat → Nat → Waiting → Waiting
  | 0, _, waiting => waiting
  | n + 1, transfers, waiting =>
      leaves mm fails n (transfers + 1) (leave mm (fails transfers) waiting)

inductive Op where
  | create (mm : Nat)
  | map (mm la : Nat) (perm : BitVec 32)
  | register (mm la page : Nat)
  | swapOut (mm n : Nat)

/-- The calls of the kernel. A page is mapped before it is registered, and `pra_vaddr` is set
after that. -/
def perform : Op → Routine Swapping Unit
  | .create mm => mmCreate mm
  | .map mm la perm => do
      let _ ← onMemory (PageTables.pgdirAllocPage mm la perm)
      return ()
  | .register mm la page => do
      fifoMapSwappable mm page
      setPraVaddr page la
  | .swapOut mm n => do
      let _ ← swapOut mm n 0
      return ()

/-- The swap manager, and the pages that should wait. -/
structure System where
  swapping : Swapping
  waiting : Waiting

def meaning (s : Swapping) (waiting : Waiting) : Op → Waiting
  | .create _ | .map _ _ _ => waiting
  | .register mm _ page => waiting ++ [(mm, page)]
  | .swapOut mm n => leaves mm s.fails n s.transfers waiting

/-- What the callers see to. -/
def Permitted (dirs : Finset Nat) (s : Swapping) (waiting : Waiting) : Op → Prop
  | .create mm => mm ∈ dirs ∧ s.smPriv mm = none
  | .map mm la perm => mm ∈ dirs ∧ la < USERTOP ∧ perm.toNat < 2 ^ 10 ∧ ¬Valid (pte s.memory mm la)
  | .register mm la page => mm ∈ dirs ∧ s.smPriv mm ≠ none ∧ la < USERTOP ∧
      next (pte s.memory mm la) = some page ∧ page ∉ waiting.map Prod.snd
  | .swapOut mm _ => mm ∈ dirs ∧ s.smPriv mm ≠ none

/-- An address space is created while no page waits, and the pages that `swap_out` takes from the
shared queue were registered for its address space. -/
def Orderly (waiting : Waiting) : Op → Prop
  | .create _ => waiting = []
  | .swapOut mm n => n ≤ waiting.length ∧ ∀ x ∈ waiting.take n, x.1 = mm
  | _ => True

inductive Step (dirs : Finset Nat) (allowed : Waiting → Op → Prop) (s : System) : System → Prop
  | op {op : Op} {r : Except Errno Unit} {t : Swapping} :
      Permitted dirs s.swapping s.waiting op → allowed s.waiting op →
      perform op s.swapping = .ok (r, t) →
      Step dirs allowed s ⟨t, meaning s.swapping s.waiting op⟩

/-- No page is mapped, and no `mm_struct` was created. -/
structure Starts (dirs : Finset Nat) (s : System) : Prop where
  memory : PageCounts.Starts dirs ⟨s.swapping.memory, ∅⟩
  smPriv : ∀ mm ∈ dirs, s.swapping.smPriv mm = none
  waiting : s.waiting = []

/-- The next page that `swap_out` takes is the earliest that waits, and it is mapped. If there
is none, `swap_out` says so. -/
def FifoOk (s : Swapping) (waiting : Waiting) (mm : Nat) : Prop :=
  match earliest mm waiting with
  | none => ∀ n, swapOut mm n 0 s = .ok (.ok 0, s)
  | some page => (∃ s', fifoSwapOutVictim mm 0 s = .ok (.ok (0, page), s')) ∧
      next (pte s.memory mm (s.praVaddr page)) = some page

variable {dirs : Finset Nat} {s s' : Swapping} {waiting rest : Waiting} {mm page n : Nat}

section Abstract

@[simp] theorem earliest_self (mm page : Nat) (rest : Waiting) :
    earliest mm ((mm, page) :: rest) = some page := by
  simp [earliest]

theorem leave_self (mm page : Nat) (rest : Waiting) (failed : Bool) :
    leave mm failed ((mm, page) :: rest) = if failed then rest ++ [(mm, page)] else rest := by
  simp [leave]

end Abstract

section Steps

structure Inv (dirs : Finset Nat) (s : Swapping) (waiting : Waiting) : Prop where
  paged : Paged dirs s.memory
  queue : (∃ mm ∈ dirs, s.smPriv mm ≠ none) → Queue s (waiting.map Prod.snd)
  smPriv : ∀ mm ∈ dirs, s.smPriv mm ≠ none → s.smPriv mm = some none
  mapped : ∀ x ∈ waiting, x.1 ∈ dirs ∧ s.smPriv x.1 ≠ none ∧ s.praVaddr x.2 < USERTOP ∧
    next (pte s.memory x.1 (s.praVaddr x.2)) = some x.2

theorem inv_create (h : Inv dirs s waiting) (hempty : waiting = []) (hmm : mm ∈ dirs)
    {r : Except Errno Unit} (hrun : mmCreate mm s = .ok (r, s')) : Inv dirs s' waiting := by
  cases hrun
  subst hempty
  refine ⟨h.paged, fun _ => ring_listInit _ none, ?_, nofun⟩
  intro mm' hmm' hcreated
  show Function.update s.smPriv mm (some none) mm' = some none
  rcases eq_or_ne mm' mm with rfl | hne
  · exact Function.update_self _ _ _
  · rw [Function.update_of_ne hne]
    change Function.update s.smPriv mm (some none) mm' ≠ none at hcreated
    rw [Function.update_of_ne hne] at hcreated
    exact h.smPriv mm' hmm' hcreated

theorem inv_map (h : Inv dirs s waiting) {la : Nat} {perm : BitVec 32} (hmm : mm ∈ dirs)
    (hla : la < USERTOP) (hperm : perm.toNat < 2 ^ 10) (hnot : ¬Valid (pte s.memory mm la))
    {r : Except Errno (Option Nat)}
    (hrun : onMemory (PageTables.pgdirAllocPage mm la perm) s = .ok (r, s')) :
    Inv dirs s' waiting := by
  obtain ⟨m', halloc, rfl⟩ := onPart_eq_ok hrun
  obtain ⟨hpaged, hsame | ⟨p, w, _, _, hwrote, _, _⟩⟩ :=
    pgdirAllocPage_of h.paged hmm hla hperm hnot halloc
  · refine ⟨hpaged, h.queue, h.smPriv, fun x hx => ?_⟩
    obtain ⟨hd, hcreated, hv, hnext⟩ := h.mapped x hx
    refine ⟨hd, hcreated, hv, ?_⟩
    show next (pte m' x.1 (s.praVaddr x.2)) = _
    rw [hsame.2.pte x.1 hd _ hv]
    exact hnext
  · refine ⟨hpaged, h.queue, h.smPriv, fun x hx => ?_⟩
    obtain ⟨hd, hcreated, hv, hnext⟩ := h.mapped x hx
    refine ⟨hd, hcreated, hv, hwrote.kept hd hv hnext ?_⟩
    rw [next_of_not hnot]
    exact Option.some_ne_none _ ∘ Eq.symm

theorem inv_register (h : Inv dirs s waiting) {la : Nat} (hmm : mm ∈ dirs)
    (hcreated : s.smPriv mm ≠ none) (hla : la < USERTOP)
    (hnext : next (pte s.memory mm la) = some page) (hnew : page ∉ waiting.map Prod.snd)
    {r : Except Errno Unit} (hrun : perform (.register mm la page) s = .ok (r, s')) :
    Inv dirs s' (waiting ++ [(mm, page)]) := by
  rw [perform, bind_of_ok (fifoMapSwappable_of (h.smPriv mm hmm hcreated))] at hrun
  cases hrun
  have hqueue := queue_add (h.queue ⟨mm, hmm, hcreated⟩) hnew
  refine ⟨h.paged, fun _ => ?_, h.smPriv, fun x hx => ?_⟩
  · rw [List.map_append]
    exact hqueue
  · show _ ∧ _ ∧ Function.update s.praVaddr page la x.2 < _ ∧
      next (pte s.memory x.1 (Function.update s.praVaddr page la x.2)) = _
    rcases List.mem_append.mp hx with hold | hlast
    · have hne : x.2 ≠ page := by
        rintro rfl
        exact hnew (List.mem_map_of_mem hold)
      rw [Function.update_of_ne hne]
      exact h.mapped x hold
    · cases List.mem_singleton.mp hlast
      rw [Function.update_self]
      exact ⟨hmm, hcreated, hla, hnext⟩

theorem inv_pass (h : Inv dirs s ((mm, page) :: rest)) {r : Except Errno Bool}
    (hrun : swapOutPass mm 0 s = .ok (r, s')) :
    r = .ok true ∧ Inv dirs s' (leave mm (s.fails s.transfers) ((mm, page) :: rest)) ∧
      Kept s s' ∧ s'.transfers = s.transfers + 1 := by
  obtain ⟨hmm, hcreated, hv, hnext⟩ := h.mapped (mm, page) List.mem_cons_self
  have hqueue : Queue s (page :: rest.map Prod.snd) := h.queue ⟨mm, hmm, hcreated⟩
  have hpriv := h.smPriv mm hmm hcreated
  have hfits : Fits s (s.praVaddr page) := by
    by_contra hnot
    rw [swapOutPass_panics h.paged hmm hpriv hqueue hv hnext hnot] at hrun
    cases hrun
  obtain ⟨t, hpass, hpassed, hkept, htransfers⟩ :=
    swapOutPass_of h.paged hmm hpriv hqueue hv hnext hfits
  cases hpass.symm.trans hrun
  refine ⟨rfl, ?_, hkept, htransfers⟩
  have hpriv' : ∀ mm ∈ dirs, s'.smPriv mm ≠ none → s'.smPriv mm = some none := by
    rw [hkept.smPriv]
    exact h.smPriv
  rw [leave_self]
  cases hpassed with
  | failed hfails hqueue' hmemory _ =>
      rw [if_pos hfails]
      refine ⟨hmemory ▸ h.paged, fun _ => ?_, hpriv', fun x hx => ?_⟩
      · rw [List.map_append]
        exact hqueue'
      · rw [hkept.smPriv, hkept.praVaddr, hmemory]
        refine h.mapped x ?_
        rcases List.mem_append.mp hx with hx | hx
        · exact List.mem_cons_of_mem _ hx
        · rw [List.mem_singleton.mp hx]
          exact List.mem_cons_self
  | evicted hworks hqueue' hpaged hwrote _ =>
      rw [hworks, if_neg Bool.false_ne_true]
      refine ⟨hpaged, fun _ => hqueue', hpriv', fun x hx => ?_⟩
      obtain ⟨hd, hcreated', hv', hnext'⟩ := h.mapped x (List.mem_cons_of_mem _ hx)
      rw [hkept.smPriv, hkept.praVaddr]
      refine ⟨hd, hcreated', hv', hwrote.kept hd hv' hnext' ?_⟩
      rw [hnext]
      rintro ⟨⟩
      exact (List.nodup_cons.mp hqueue.nodup).1 (List.mem_map_of_mem hx)

/-- The passes of `swap_out` take the first pages of the queue, if these are all its own. -/
theorem inv_swapOutLoop (h : Inv dirs s waiting) (hlength : n ≤ waiting.length)
    (hown : ∀ x ∈ waiting.take n, x.1 = mm) {i : Nat} {r : Except Errno Nat}
    (hrun : swapOutLoop mm 0 n i s = .ok (r, s')) :
    r = .ok (i + n) ∧ Inv dirs s' (leaves mm s.fails n s.transfers waiting) := by
  induction n generalizing s waiting i with
  | zero =>
      cases hrun
      exact ⟨rfl, h⟩
  | succ n ih =>
      cases waiting with
      | nil => cases hlength
      | cons x rest =>
          obtain ⟨mm', page⟩ := x
          have hself : mm' = mm := hown (mm', page) (by simp)
          subst hself
          rw [swapOutLoop] at hrun
          rcases bind_eq_ok_iff.mp hrun with ⟨goes, t, hpass, hloop⟩ | ⟨e, hpass, _⟩
          · obtain ⟨hgoes, hinv, hkept, htransfers⟩ := inv_pass h hpass
            cases hgoes
            have hshorter : n ≤ (leave mm' (s.fails s.transfers) ((mm', page) :: rest)).length := by
              rw [leave_self]
              split
              · rw [List.length_append]
                exact Nat.le_add_right_of_le (Nat.le_of_succ_le_succ hlength)
              · exact Nat.le_of_succ_le_succ hlength
            have hown' : ∀ x ∈ (leave mm' (s.fails s.transfers) ((mm', page) :: rest)).take n,
                x.1 = mm' := by
              intro x hx
              refine hown x ?_
              rw [leave_self] at hx
              rw [List.take_succ_cons]
              refine List.mem_cons_of_mem _ ?_
              split at hx
              · rwa [List.take_append_of_le_length (Nat.le_of_succ_le_succ hlength)] at hx
              · exact hx
            obtain ⟨hr, hinv'⟩ := ih hinv hshorter hown' hloop
            rw [hkept.fails, htransfers] at hinv'
            refine ⟨?_, hinv'⟩
            rw [hr]
            congr 1
            omega
          · cases (inv_pass h hpass).1

theorem inv_step {t t' : System} (h : Inv dirs t.swapping t.waiting)
    (hstep : Step dirs Orderly t t') : Inv dirs t'.swapping t'.waiting := by
  obtain ⟨hpermitted, horderly, hrun⟩ := hstep
  rename_i op r s'
  cases op with
  | create mm => exact inv_create h horderly hpermitted.1 hrun
  | map mm la perm =>
      obtain ⟨hmm, hla, hperm, hnot⟩ := hpermitted
      rcases bind_eq_ok_iff.mp hrun with ⟨_, s₁, hmap, hrest⟩ | ⟨_, hmap, _⟩
      · cases hrest
        exact inv_map h hmm hla hperm hnot hmap
      · exact inv_map h hmm hla hperm hnot hmap
  | register mm la page =>
      obtain ⟨hmm, hcreated, hla, hnext, hnew⟩ := hpermitted
      exact inv_register h hmm hcreated hla hnext hnew hrun
  | swapOut mm n =>
      rcases bind_eq_ok_iff.mp hrun with ⟨_, s₁, hloop, hrest⟩ | ⟨_, hloop, _⟩
      · cases hrest
        exact (inv_swapOutLoop h horderly.1 horderly.2 hloop).2
      · exact (inv_swapOutLoop h horderly.1 horderly.2 hloop).2

end Steps

section Runs

theorem inv_starts {t : System} (h : Starts dirs t) : Inv dirs t.swapping t.waiting := by
  refine ⟨paged_starts h.memory, ?_, ?_, ?_⟩
  · rintro ⟨mm, hmm, hcreated⟩
    exact absurd (h.smPriv mm hmm) hcreated
  · intro mm hmm hcreated
    exact absurd (h.smPriv mm hmm) hcreated
  · rw [h.waiting]
    exact nofun

/-- The earliest page of an address space is the one that `swap_out` takes when it is the first
of the shared queue, and only then. -/
theorem fifoOk_iff (h : Inv dirs s waiting) (hmm : mm ∈ dirs) (hcreated : s.smPriv mm ≠ none) :
    FifoOk s waiting mm ↔ ∃ page rest, waiting = (mm, page) :: rest := by
  have hqueue := h.queue ⟨mm, hmm, hcreated⟩
  have hpriv := h.smPriv mm hmm hcreated
  constructor
  · intro hok
    rw [FifoOk] at hok
    cases waiting with
    | nil =>
        have hpanics : swapOut mm 1 0 s = .error .panic :=
          bind_of_abort (bind_of_abort (fifoSwapOutVictim_panics hpriv hqueue 0))
        have hsays := hok 1
        rw [hpanics] at hsays
        cases hsays
    | cons x rest =>
        obtain ⟨mm', page⟩ := x
        have hvictim := fifoSwapOutVictim_of hpriv hqueue
        cases hfirst : earliest mm ((mm', page) :: rest) with
        | none =>
            rw [hfirst] at hok
            have hsays := hok 1
            rw [swapOut, swapOutLoop] at hsays
            rcases bind_eq_ok_iff.mp hsays with ⟨goes, t, hpass, hloop⟩ | ⟨_, _, hr⟩
            · have hgoes : goes = true := swapOutPass_true mm 0 s _ trivial hpass
              subst hgoes
              cases hloop
            · cases hr
        | some page' =>
            rw [hfirst] at hok
            obtain ⟨⟨t, hchosen⟩, _⟩ := hok
            rw [hvictim] at hchosen
            cases hchosen
            have hmem : (mm, page) ∈ (mm', page) :: rest := by
              obtain ⟨x, hfound, hx⟩ := Option.map_eq_some_iff.mp hfirst
              have hmm' : x.1 = mm := by simpa using List.find?_some hfound
              have hpair : x = (mm, page) := Prod.ext hmm' hx
              rw [← hpair]
              exact List.mem_of_find?_eq_some hfound
            rcases List.mem_cons.mp hmem with heq | hmem
            · exact ⟨page, rest, by rw [heq]⟩
            · exact absurd (List.mem_map_of_mem (f := Prod.snd) hmem)
                (List.nodup_cons.mp hqueue.nodup).1
  · rintro ⟨page, rest, rfl⟩
    rw [FifoOk, earliest_self]
    exact ⟨⟨_, fifoSwapOutVictim_of hpriv hqueue⟩, (h.mapped _ List.mem_cons_self).2.2.2⟩

/-- The queue of the swap manager is what should wait, in this order, and `swap_out` takes what it
should for the address space of the first page. -/
structure QueuesOk (dirs : Finset Nat) (t : System) : Prop where
  queue : (∃ mm ∈ dirs, t.swapping.smPriv mm ≠ none) →
    Queue t.swapping (t.waiting.map Prod.snd)
  mapped : ∀ x ∈ t.waiting, next (pte t.swapping.memory x.1 (t.swapping.praVaddr x.2)) = some x.2
  fifo : ∀ mm ∈ dirs, t.swapping.smPriv mm ≠ none →
    (FifoOk t.swapping t.waiting mm ↔ ∃ page rest, t.waiting = (mm, page) :: rest)

theorem queuesOk_of_reaches {t t' : System} (hstarts : Starts dirs t)
    (hrun : ReflTransGen (Step dirs Orderly) t t') : QueuesOk dirs t' := by
  have hinv : Inv dirs t'.swapping t'.waiting :=
    @holds_of_reaches _ _ (fun t => Inv dirs t.swapping t.waiting) _ _
      (fun h hstep => inv_step h hstep) (inv_starts hstarts) hrun
  exact ⟨hinv.queue, fun x hx => (hinv.mapped x hx).2.2.2, fun mm hmm hcreated =>
    fifoOk_iff hinv hmm hcreated⟩

/-- Two page directories, and frames from 3 on. -/
def twoSpaces : System where
  swapping := {
    memory := {
      words := fun _ _ => 0
      ref := fun _ => 0
      free := fun p => decide (3 ≤ p ∧ p < 10)
      grants := [some 3, some 4, some 5, some 6, some 7, some 8] }
    links := ⟨fun _ => none, fun _ => none⟩
    praVaddr := fun _ => 0
    smPriv := fun _ => none
    mmapList := fun _ => []
    checkMmStruct := none
    maxSwapOffset := smallArea
    area := fun _ _ => 0
    transfers := 0
    fails := fun _ => false }
  waiting := []

theorem starts_twoSpaces : Starts {1, 2} twoSpaces := by
  refine ⟨⟨rfl, ?_, fun _ _ _ _ => rfl, ?_⟩, fun _ _ => rfl, rfl⟩
  · intro d hd
    rcases Finset.mem_insert.mp hd with rfl | hd
    · decide
    · cases Finset.mem_singleton.mp hd
      decide
  · intro p hp
    have hbounds : 3 ≤ p ∧ p < 10 := of_decide_eq_true hp
    refine ⟨lt_trans hbounds.2 (by decide), rfl⟩

/-- One page of each address space waits. -/
theorem twoSpaces_waiting (allowed : Waiting → Op → Prop)
    (hallowed : ∀ waiting op, Orderly waiting op → allowed waiting op) :
    ∃ t, ReflTransGen (Step {1, 2} allowed) twoSpaces t ∧ t.waiting = [(1, 3), (2, 6)] ∧
      t.swapping.smPriv 2 ≠ none ∧ ∃ s', fifoSwapOutVictim 2 0 t.swapping = .ok (.ok (0, 3), s') := by
  have hrun : ReflTransGen (Step {1, 2} allowed) twoSpaces _ :=
    .single (@Step.op {1, 2} allowed twoSpaces (.create 1) _ _ ⟨by decide, rfl⟩
      (hallowed _ _ rfl) rfl)
  replace hrun := hrun.tail (@Step.op {1, 2} allowed _ (.create 2) _ _ ⟨by decide, rfl⟩
    (hallowed _ _ rfl) rfl)
  replace hrun := hrun.tail (@Step.op {1, 2} allowed _ (.map 1 0x1000 0x16) _ _
    ⟨by decide, by decide, by decide, by decide⟩ (hallowed _ _ trivial) rfl)
  replace hrun := hrun.tail (@Step.op {1, 2} allowed _ (.map 2 0x1000 0x16) _ _
    ⟨by decide, by decide, by decide, by decide⟩ (hallowed _ _ trivial) rfl)
  replace hrun := hrun.tail (@Step.op {1, 2} allowed _ (.register 1 0x1000 3) _ _
    ⟨by decide, by decide, by decide, rfl, by decide⟩ (hallowed _ _ trivial) rfl)
  replace hrun := hrun.tail (@Step.op {1, 2} allowed _ (.register 2 0x1000 6) _ _
    ⟨by decide, by decide, by decide, rfl, by decide⟩ (hallowed _ _ trivial) rfl)
  exact ⟨_, hrun, rfl, by decide, _, rfl⟩

theorem queuesOk_of_reaches_two : ∃ t, t.waiting = [(1, 3), (2, 6)] ∧ QueuesOk {1, 2} t := by
  obtain ⟨t, hrun, hwaiting, _⟩ := twoSpaces_waiting (fun waiting op => Orderly waiting op) fun _ _ => id
  exact ⟨t, hwaiting, queuesOk_of_reaches starts_twoSpaces hrun⟩

/-- `swap_out` of the second address space takes the page of the first one. -/
theorem not_fifoOk_of_reaches : ¬∀ (dirs : Finset Nat) (t t' : System), Starts dirs t →
    ReflTransGen (Step dirs fun _ _ => True) t t' →
    ∀ mm ∈ dirs, t'.swapping.smPriv mm ≠ none → FifoOk t'.swapping t'.waiting mm := by
  intro h
  obtain ⟨t, hrun, hwaiting, hcreated, s', hvictim⟩ :=
    twoSpaces_waiting (fun _ _ => True) fun _ _ _ => trivial
  have hok := h {1, 2} twoSpaces t starts_twoSpaces hrun 2 (by decide) hcreated
  rw [hwaiting] at hok
  obtain ⟨⟨s'', hchosen⟩, _⟩ := hok
  rw [hvictim] at hchosen
  cases hchosen

end Runs

end Ucore.SwapQueues
