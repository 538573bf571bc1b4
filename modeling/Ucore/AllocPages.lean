import Ucore.SwapContents

/-! How `alloc_pages` waits for a page: it evicts one after another until the page allocator has
one. -/

namespace Ucore.AllocPages

open Relation
open Ucore.Errors
open Ucore.Panic
open Ucore.KernelRoutine
open Ucore.ListHeader
open Ucore.DefaultPmm (PGSIZE)
open Ucore.PageTables
open Ucore.PageOwners
open Ucore.Swap
open Ucore.SwapSteps
open Ucore.SwapContents

/-- The `alloc_pages` of a `struct pmm_manager`, for one page: it returns one that is free, if there
is any. -/
structure PmmManager where
  allocPages : (Nat → Bool) → Option Nat
  isFree : ∀ {free page}, allocPages free = some page → page < npage ∧ free page = true
  isFull : ∀ {free}, allocPages free = none → ∀ page < npage, free page = false

/-- `swap_out(check_mm_struct, 1, 0)`. -/
def swapOutChecked : Routine Swapping Nat := do
  let s ← getState
  match s.checkMmStruct with
  | none => abort .panic
  | some mm => swapOut mm 1 0

/-- `alloc_pages(1)`, where `swap_init_ok` is set; the fuel is for the passes of its loop. -/
def allocPages (pmm : PmmManager) : Nat → Routine Swapping (Option Nat)
  | 0 => abort .loop
  | fuel + 1 => do
      let s ← getState
      match pmm.allocPages s.memory.free with
      | some page =>
          modifyState fun s => { s with memory := { s.memory with
            free := Function.update s.memory.free page false } }
          return some page
      | none =>
          let _ ← swapOutChecked
          allocPages pmm fuel

variable {pmm : PmmManager} {dirs : Finset Nat} {s s' t : Swapping} {waiting rest : List Nat}
  {mm page fuel : Nat}

/-- A pass of the loop that finds no page. -/
def Round (pmm : PmmManager) (s s' : Swapping) : Prop :=
  pmm.allocPages s.memory.free = none ∧ ∃ r, swapOutChecked s = .ok (r, s')

/-- The page at the front of the queue is mapped where it was registered. -/
def VictimMapped (s : Swapping) : Prop :=
  ∀ mm head page, s.checkMmStruct = some mm → s.smPriv mm = some head →
    listNext s.links head = some page → next (pte s.memory mm (s.praVaddr page)) = some page

/-- `alloc_pages(1)` returns a page that is free, or `NULL`, and evicts mapped pages only. -/
structure ComesBack (pmm : PmmManager) (s : Swapping) : Prop where
  returns : ∃ fuel r s', allocPages pmm fuel s = .ok (.ok r, s') ∧
    ∀ page ∈ r, ∃ t, ReflTransGen (Round pmm) s t ∧ t.memory.free page = true
  evicts : ∀ t, ReflTransGen (Round pmm) s t → pmm.allocPages t.memory.free = none → VictimMapped t

/-- What holds whenever the page allocator is called: the queue is a list, and its pages were
registered for user addresses. -/
structure Managing (dirs : Finset Nat) (s : Swapping) (waiting : List Nat) : Prop where
  paged : Paged dirs s.memory
  queue : Queue s waiting
  check : ∀ mm, s.checkMmStruct = some mm → mm ∈ dirs ∧ s.smPriv mm = some none
  user : ∀ page ∈ waiting, s.praVaddr page < USERTOP

/-- A page that can be evicted: it is mapped where it was registered, and there is a place for it in
the swap area. -/
structure Evictable (s : Swapping) (mm page : Nat) : Prop where
  mapped : next (pte s.memory mm (s.praVaddr page)) = some page
  fits : Fits s (s.praVaddr page)

/-- Some page is free, or a write to the device succeeds before a page comes to the front of the queue
that cannot be evicted. A page whose write fails goes to the end. -/
def Recoverable (s : Swapping) (waiting : List Nat) : Prop :=
  (∃ page < npage, s.memory.free page = true) ∨
    ∃ mm, s.checkMmStruct = some mm ∧ ∃ k, s.fails (s.transfers + k) = false ∧
      ∀ j ≤ k, ∃ page ∈ (waiting.rotate j).head?, Evictable s mm page

section Passes

/-- A page that is saved is free afterwards. -/
theorem swapOutPass_frees (hpriv : s.smPriv mm = some none) (hqueue : Queue s (page :: rest))
    (hv : s.praVaddr page < USERTOP) (hfits : Fits s (s.praVaddr page))
    (hworks : s.fails s.transfers = false) (hrun : swapOutPass mm 0 s = .ok (.ok true, s')) :
    s'.memory.free page = true := by
  rw [swapOutPass, bind_of_ok (fifoSwapOutVictim_of hpriv hqueue)] at hrun
  simp only [ne_eq, not_true_eq_false, if_false, getState_bind] at hrun
  rcases bind_eq_ok_iff.mp hrun with ⟨at', s₁, hget, hrest⟩ | ⟨e, _, he⟩
  · obtain ⟨m, hmemory, rfl⟩ := onPart_eq_ok hget
    cases at' with
    | none => cases hrest
    | some ptep =>
        simp only [getState_bind] at hrest
        obtain ⟨-, hsave⟩ := ensure_bind_passed hrest
        let s₁ : Swapping := { s with
          links := listDel s.links (some page)
          memory := m }
        have hwrite : swapfsWrite (swapEntry (s.praVaddr page)) page s₁ = _ := swapfsWrite_of hv hfits
        rw [if_neg (by rw [show s₁.fails s₁.transfers = false from hworks]; exact Bool.false_ne_true)]
          at hwrite
        change (swapfsWrite (swapEntry (s.praVaddr page)) page >>= fun _ => _) s₁ = _ at hsave
        rw [bind_of_ok hwrite] at hsave
        cases hsave
        exact Function.update_self _ _ _
  · cases he

end Passes

section Loop

theorem swapOut_one {mm : Nat} {s s' : Swapping} (h : swapOutPass mm 0 s = .ok (.ok true, s')) :
    swapOut mm 1 0 s = .ok (.ok 1, s') := by
  rw [swapOut, swapOutLoop, bind_of_ok h]
  rfl

theorem Managing.nextRound (h : Managing dirs s (page :: rest)) (hcheck : s.checkMmStruct = some mm)
    (hevictable : Evictable s mm page) :
    ∃ s', swapOutPass mm 0 s = .ok (.ok true, s') ∧ s'.transfers = s.transfers + 1 ∧ Kept s s' ∧
      (s.fails s.transfers = false → page < npage ∧ s'.memory.free page = true) ∧
      (s.fails s.transfers = true → s'.memory = s.memory ∧ Managing dirs s' (rest ++ [page])) := by
  obtain ⟨hmm, hpriv⟩ := h.check mm hcheck
  have hv := h.user page List.mem_cons_self
  obtain ⟨s', hpass, hpassed, hkept, htransfers⟩ :=
    swapOutPass_of h.paged hmm hpriv h.queue hv hevictable.mapped hevictable.fits
  refine ⟨s', hpass, htransfers, hkept, ?_, ?_⟩
  · intro hworks
    obtain ⟨pages, owner, howned⟩ := h.paged.owned
    have hmem := howned.page_of_pte hmm hv hevictable.mapped
    exact ⟨howned.bound page (by rw [(howned.page page).mp hmem]; simp),
      swapOutPass_frees hpriv h.queue hv hevictable.fits hworks hpass⟩
  · intro hfails
    cases hpassed with
    | failed _ hqueue hmemory _ =>
        refine ⟨hmemory, by rw [hmemory]; exact h.paged, hqueue, ?_, ?_⟩
        · intro mm' hmm'
          rw [hkept.checkMmStruct] at hmm'
          rw [hkept.smPriv]
          exact h.check mm' hmm'
        · intro p hp
          rw [hkept.praVaddr]
          exact h.user p (by simpa [or_comm] using hp)
    | evicted hworks => rw [hfails] at hworks; cases hworks

theorem swapOutChecked_of {x : Panic.Kernel (Except Errno Nat × Swapping)}
    (hcheck : s.checkMmStruct = some mm) (h : swapOut mm 1 0 s = x) : swapOutChecked s = x := by
  rw [swapOutChecked, getState_bind, hcheck]
  exact h

theorem Managing.next_queue (h : Managing dirs s (page :: rest)) : listNext s.links none = some page := by
  rw [listNext, h.queue.next_head]
  rfl

theorem Managing.victimMapped (h : Managing dirs s (page :: rest)) (hcheck : s.checkMmStruct = some mm)
    (hmapped : next (pte s.memory mm (s.praVaddr page)) = some page) : VictimMapped s := by
  intro mm' head page' hcheck' hpriv hnext
  cases hcheck.symm.trans hcheck'
  cases (h.check mm hcheck).2.symm.trans hpriv
  cases h.next_queue.symm.trans hnext
  exact hmapped

theorem allocPages_found (fuel : Nat) (h : pmm.allocPages s.memory.free = some page) :
    ∃ s', allocPages pmm (fuel + 1) s = .ok (.ok (some page), s') := by
  rw [allocPages, getState_bind, h]
  exact ⟨_, rfl⟩

theorem allocPages_next {r : Nat} (hnone : pmm.allocPages s.memory.free = none)
    (hround : swapOutChecked s = .ok (.ok r, s')) :
    allocPages pmm (fuel + 1) s = allocPages pmm fuel s' := by
  rw [allocPages, getState_bind, hnone]
  exact bind_of_ok hround

theorem comesBack_of_found (h : pmm.allocPages s.memory.free = some page) : ComesBack pmm s := by
  refine ⟨?_, ?_⟩
  · obtain ⟨s', hrun⟩ := allocPages_found 0 h
    refine ⟨_, _, _, hrun, ?_⟩
    rintro page' ⟨⟩
    exact ⟨s, .refl, (pmm.isFree h).2⟩
  · intro t hreach hnone
    rcases hreach.cases_head with rfl | ⟨u, ⟨hround, -⟩, -⟩
    · rw [h] at hnone
      cases hnone
    · rw [h] at hround
      cases hround

theorem comesBack_of_free (hbound : page < npage) (h : s.memory.free page = true) :
    ComesBack pmm s := by
  match hpmm : pmm.allocPages s.memory.free with
  | some page => exact comesBack_of_found hpmm
  | none =>
      rw [pmm.isFull hpmm page hbound] at h
      cases h

theorem comesBack_next {r : Nat} (hnone : pmm.allocPages s.memory.free = none)
    (hround : swapOutChecked s = .ok (.ok r, s')) (hvictim : VictimMapped s)
    (h : ComesBack pmm s') : ComesBack pmm s := by
  have hstep : Round pmm s s' := ⟨hnone, _, hround⟩
  refine ⟨?_, ?_⟩
  · obtain ⟨fuel, r, u, hrun, hfree⟩ := h.returns
    refine ⟨fuel + 1, r, u, ?_, ?_⟩
    · rw [allocPages_next hnone hround, hrun]
    · intro page hpage
      obtain ⟨t, hreach, hpage⟩ := hfree page hpage
      exact ⟨t, hreach.head hstep, hpage⟩
  · intro t hreach
    rcases hreach.cases_head with rfl | ⟨u, ⟨-, r', hfirst⟩, hrest⟩
    · exact fun _ => hvictim
    · cases hround.symm.trans hfirst
      exact h.evicts t hrest

theorem Evictable.after (hevictable : Evictable s mm page) (hmemory : s'.memory = s.memory)
    (hkept : Kept s s') : Evictable s' mm page := by
  refine ⟨?_, ?_⟩
  · rw [hmemory, hkept.praVaddr]
    exact hevictable.mapped
  · rw [Fits, hkept.praVaddr, hkept.maxSwapOffset]
    exact hevictable.fits

theorem first_of_rotate {p : Nat → Prop} (h : ∃ page ∈ (waiting.rotate 0).head?, p page) :
    ∃ page rest, waiting = page :: rest ∧ p page := by
  obtain ⟨page, hmem, hp⟩ := h
  rw [List.rotate_zero] at hmem
  match waiting with
  | [] => cases hmem
  | first :: rest =>
      cases hmem
      exact ⟨page, rest, rfl, hp⟩

/-- By induction on the writes that fail. -/
theorem comesBack_of_evictable (h : Managing dirs s waiting) (hcheck : s.checkMmStruct = some mm) (k : Nat)
    (hworks : s.fails (s.transfers + k) = false)
    (hevictable : ∀ j ≤ k, ∃ page ∈ (waiting.rotate j).head?, Evictable s mm page) :
    ComesBack pmm s := by
  induction k generalizing s waiting with
  | zero =>
      obtain ⟨page, rest, rfl, hfirst⟩ := first_of_rotate (hevictable 0 le_rfl)
      obtain ⟨s', hpass, -, -, hfree, -⟩ := h.nextRound hcheck hfirst
      match hpmm : pmm.allocPages s.memory.free with
      | some page => exact comesBack_of_found hpmm
      | none =>
          exact comesBack_next hpmm (swapOutChecked_of hcheck (swapOut_one hpass))
            (h.victimMapped hcheck hfirst.mapped)
            (comesBack_of_free (hfree hworks).1 (hfree hworks).2)
  | succ k ih =>
      obtain ⟨page, rest, rfl, hfirst⟩ := first_of_rotate (hevictable 0 (Nat.zero_le _))
      obtain ⟨s', hpass, htransfers, hkept, hfree, hagain⟩ := h.nextRound hcheck hfirst
      match hpmm : pmm.allocPages s.memory.free with
      | some page => exact comesBack_of_found hpmm
      | none =>
          refine comesBack_next hpmm (swapOutChecked_of hcheck (swapOut_one hpass))
            (h.victimMapped hcheck hfirst.mapped) ?_
          match hfails : s.fails s.transfers with
          | false => exact comesBack_of_free (hfree hfails).1 (hfree hfails).2
          | true =>
              obtain ⟨hmemory, hmanaging⟩ := hagain hfails
              refine ih hmanaging (hkept.checkMmStruct.trans hcheck) ?_ ?_
              · rw [hkept.fails, htransfers, add_assoc, add_comm 1]
                exact hworks
              · intro j hj
                obtain ⟨victim, hmem, hvictim⟩ := hevictable (j + 1) (by omega)
                rw [List.rotate_cons_succ] at hmem
                exact ⟨victim, hmem, hvictim.after hmemory hkept⟩

theorem recoverable_of_failed (hmemory : s'.memory = s.memory) (hkept : Kept s s')
    (htransfers : s'.transfers = s.transfers + 1) (hcheck : s.checkMmStruct = some mm)
    (hfirst : Evictable s mm page) (h : Recoverable s' (rest ++ [page])) :
    Recoverable s (page :: rest) := by
  rcases h with ⟨p, hbound, hp⟩ | ⟨mm', hmm', k, hworks, hevictable⟩
  · rw [hmemory] at hp
    exact .inl ⟨p, hbound, hp⟩
  · cases (hkept.checkMmStruct.trans hcheck).symm.trans hmm'
    have hback : Kept s' s := ⟨hkept.praVaddr.symm, hkept.smPriv.symm, hkept.mmapList.symm,
      hkept.checkMmStruct.symm, hkept.maxSwapOffset.symm, hkept.fails.symm⟩
    refine .inr ⟨mm, hcheck, k + 1, ?_, ?_⟩
    · rw [hkept.fails, htransfers, add_assoc, add_comm 1] at hworks
      exact hworks
    · intro j hj
      rcases j with _ | j
      · exact ⟨page, by simp, hfirst⟩
      · obtain ⟨victim, hmem, hvictim⟩ := hevictable j (by omega)
        rw [List.rotate_cons_succ]
        exact ⟨victim, hmem, hvictim.after hmemory.symm hback⟩

/-- By induction on the passes of the loop. -/
theorem recoverable_of_returns (h : Managing dirs s waiting) {r : Option Nat}
    (hrun : allocPages pmm fuel s = .ok (.ok r, s'))
    (hevicts : ∀ t, ReflTransGen (Round pmm) s t → pmm.allocPages t.memory.free = none →
      VictimMapped t) : Recoverable s waiting := by
  induction fuel generalizing s waiting with
  | zero => cases hrun
  | succ fuel ih =>
      match hpmm : pmm.allocPages s.memory.free with
      | some page => exact .inl ⟨page, pmm.isFree hpmm⟩
      | none =>
          have habort : ∀ a, swapOutChecked s ≠ .error a := by
            intro a hround
            rw [allocPages, getState_bind, hpmm] at hrun
            cases (bind_of_abort hround).symm.trans hrun
          match hcheck : s.checkMmStruct with
          | none =>
              refine absurd ?_ (habort .panic)
              rw [swapOutChecked, getState_bind, hcheck]
              rfl
          | some mm =>
              obtain ⟨hmm, hpriv⟩ := h.check mm hcheck
              match waiting with
              | [] =>
                  exact absurd (swapOutChecked_of hcheck (bind_of_abort
                    (bind_of_abort (fifoSwapOutVictim_panics hpriv h.queue 0)))) (habort .panic)
              | page :: rest =>
                  have hmapped : next (pte s.memory mm (s.praVaddr page)) = some page :=
                    hevicts s .refl hpmm mm none page hcheck hpriv h.next_queue
                  have hfits : Fits s (s.praVaddr page) := by
                    by_contra hnot
                    exact habort .panic (swapOutChecked_of hcheck (bind_of_abort
                      (swapOutPass_panics h.paged hmm hpriv h.queue (h.user page List.mem_cons_self)
                        hmapped hnot)))
                  have hfirst : Evictable s mm page := ⟨hmapped, hfits⟩
                  obtain ⟨t, hpass, htransfers, hkept, -, hagain⟩ := h.nextRound hcheck hfirst
                  have hround := swapOutChecked_of hcheck (swapOut_one hpass)
                  match hfails : s.fails s.transfers with
                  | false =>
                      refine .inr ⟨mm, hcheck, 0, hfails, ?_⟩
                      intro j hj
                      rw [Nat.le_zero.mp hj, List.rotate_zero]
                      exact ⟨page, rfl, hfirst⟩
                  | true =>
                      obtain ⟨hmemory, hmanaging⟩ := hagain hfails
                      rw [allocPages_next hpmm hround] at hrun
                      refine recoverable_of_failed hmemory hkept htransfers hcheck hfirst
                        (ih hmanaging hrun ?_)
                      intro u hreach
                      exact hevicts u (hreach.head ⟨hpmm, _, hround⟩)

/-- `alloc_pages(1)` comes back where a page is free or can be made free. -/
theorem comesBack_iff (h : Managing dirs s waiting) : ComesBack pmm s ↔ Recoverable s waiting := by
  constructor
  · intro hback
    obtain ⟨fuel, r, s', hrun, -⟩ := hback.returns
    exact recoverable_of_returns h hrun hback.evicts
  · rintro (⟨page, hbound, hfree⟩ | ⟨mm, hcheck, k, hworks, hevictable⟩)
    · exact comesBack_of_free hbound hfree
    · exact comesBack_of_evictable h hcheck k hworks hevictable

/-- The page allocator that takes the first page that is free. -/
def firstFree : PmmManager where
  allocPages free := (List.range npage).find? free
  isFree h := ⟨List.mem_range.mp (List.mem_of_find?_eq_some h), List.find?_some h⟩
  isFull h page hpage := by
    have hnot := List.find?_eq_none.mp h page (List.mem_range.mpr hpage)
    simpa using hnot

theorem managing_oneSpace : Managing {1} oneSpace.swapping [] where
  paged := paged_starts starts_oneSpace.memory
  queue := starts_oneSpace.queue
  check := by
    rintro mm ⟨⟩
    exact ⟨Finset.mem_singleton_self 1, rfl⟩
  user := by simp

theorem comesBack_oneSpace : ComesBack firstFree oneSpace.swapping :=
  (comesBack_iff managing_oneSpace).mpr (.inl ⟨3, by decide, rfl⟩)

/-- All frames are taken, and the boot checks are over. -/
def allTaken : Swapping :=
  { oneSpace.swapping with
    memory := { oneSpace.swapping.memory with free := fun _ => false }
    checkMmStruct := none }

theorem managing_allTaken : Managing {1} allTaken [] where
  paged := by
    refine paged_starts ⟨rfl, ?_, fun _ _ _ _ => rfl, fun _ hp => nomatch hp⟩
    intro d hd
    rw [Finset.mem_singleton.mp hd]
    exact ⟨by decide, rfl⟩
  queue := starts_oneSpace.queue
  check := by
    rintro mm ⟨⟩
  user := by simp

/-- Without a free page `swap_out` is called with `NULL`. -/
theorem not_comesBack_allTaken : Managing {1} allTaken [] ∧ ¬ComesBack firstFree allTaken := by
  refine ⟨managing_allTaken, ?_⟩
  intro hback
  obtain ⟨fuel, r, s', hrun, -⟩ := hback.returns
  rcases recoverable_of_returns managing_allTaken hrun hback.evicts with
    ⟨page, -, hfree⟩ | ⟨mm, hcheck, -⟩
  · cases hfree
  · cases hcheck

end Loop

end Ucore.AllocPages
