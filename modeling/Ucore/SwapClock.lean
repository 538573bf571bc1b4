import Ucore.CircularList
import Ucore.CyclicTurns
import Ucore.DefaultPmm
import Ucore.SecondChance

/-! The clock swap manager of lab 3 (`kern/mm/swap_clock.c`). -/

namespace Ucore.SwapClock

open Ucore.LinkRing
open Ucore.ListHeader
open Ucore.CircularList
open Ucore.CyclicTurns
open Ucore.Panic
open Ucore.DefaultPmm (npages walkBound)

/-- Address of a `list_entry_t`: `pra_list_head` or the `pra_page_link` of a page. -/
inductive Entry where
  | praListHead
  | praPageLink (page : Nat)
  deriving DecidableEq, Repr

/-- What the manager works on, for one `mm` with the field `sm_priv`. -/
structure Swapper where
  links : Links Entry
  smPriv : Entry
  currPtr : Entry
  visited : Nat → Nat

def clockInitMm (s : Swapper) : Swapper :=
  { s with
    links := listInit s.links .praListHead
    smPriv := .praListHead
    currPtr := .praListHead }

def clockMapSwappable (s : Swapper) (page : Nat) : Swapper :=
  let links := listAdd s.links .praListHead (.praPageLink page)
  { s with
    links := links
    currPtr := listPrev links .praListHead
    visited := Function.update s.visited page 1 }

/-- The entry that `curr_ptr` is moved to from `le`. -/
def advance (links : Links Entry) (head le : Entry) : Entry :=
  if listNext links le = head then listNext links head else listNext links le

/-- The `while (1)` loop of `_clock_swap_out_victim`. What `le2page` makes of `pra_list_head` is
no page. -/
def victimLoop (head : Entry) : Nat → Swapper → Kernel (Nat × Swapper)
  | 0, _ => .error .loop
  | fuel + 1, s =>
      let currPtr := advance s.links head s.currPtr
      match s.currPtr with
      | .praListHead => .error .panic
      | .praPageLink page =>
          if s.visited page = 0 then
            .ok (page,
              { s with
                links := listDel s.links (.praPageLink page)
                currPtr := currPtr
                visited := Function.update s.visited page 1 })
          else
            victimLoop head fuel
              { s with currPtr := currPtr, visited := Function.update s.visited page 0 }

def clockSwapOutVictim (s : Swapper) (inTick : Nat) : Kernel (Nat × Swapper) := do
  kassert (inTick = 0)
  victimLoop s.smPriv walkBound s

section Loop

/-- The entries of the pages. -/
def entries (pages : List Nat) : List Entry :=
  pages.map .praPageLink

/-- The list is linked up with the newest of its pages in front, and following it from
`curr_ptr` on, past its head, meets the pages of `view`. -/
structure At (s : Swapper) (pages view : List Nat) : Prop where
  head : s.smPriv = .praListHead
  ring : RingList s.links .praListHead (entries pages)
  bounded : ∀ p ∈ pages, p < npages
  around : view ~r pages
  hand : ∀ p ∈ view.head?, s.currPtr = .praPageLink p

variable {s : Swapper} {pages view xs ys : List Nat} {p v fuel : Nat}

theorem At.nodup (h : At s pages view) : pages.Nodup :=
  List.Nodup.of_map _ (List.nodup_cons.mp h.ring.nodup).2

theorem At.length_le (h : At s pages view) : view.length ≤ npages := by
  have hsub : pages ⊆ List.range npages := fun p hp => List.mem_range.mpr (h.bounded p hp)
  have hle := (List.subperm_of_subset h.nodup hsub).length_le
  rw [List.length_range] at hle
  rw [h.around.perm.length_eq]
  exact hle

theorem At.circular (h : At s pages view) :
    Circular (advance s.links .praListHead) (entries view) := by
  have hcycle : ((entries view : List Entry) : Cycle Entry) = (entries pages : List Entry) :=
    Cycle.coe_eq_coe.mpr (h.around.map Entry.praPageLink)
  rw [Circular, hcycle]
  exact circular_of_ring h.ring

/-- Behind a page the hand comes to the first of the others, if there are any. -/
theorem At.advance_hand (h : At s pages (p :: ys)) :
    ∀ q ∈ (ys ++ [p]).head?, advance s.links .praListHead (.praPageLink p) = .praPageLink q := by
  intro q hq
  match ys with
  | [] =>
      obtain rfl : p = q := by simpa using hq
      exact (List.isChain_cons_cons.mp (circular_cons.mp h.circular)).1
  | c :: ys =>
      obtain rfl : c = q := by simpa using hq
      exact @Circular.next_mem _ _ [] (entries ys) _ _ h.circular

/-- A page whose flag is set is passed. -/
theorem victimLoop_pass (h : At s pages (p :: ys)) (hset : s.visited p ≠ 0) :
    ∃ s', victimLoop .praListHead (fuel + 1) s = victimLoop .praListHead fuel s' ∧
      At s' pages (ys ++ [p]) ∧ s'.visited = Function.update s.visited p 0 := by
  have hhand : s.currPtr = .praPageLink p := h.hand p rfl
  refine ⟨{ s with
    currPtr := advance s.links .praListHead s.currPtr
    visited := Function.update s.visited p 0 }, ?_, ⟨h.head, h.ring, h.bounded, ?_, ?_⟩, rfl⟩
  · rw [victimLoop, hhand]
    exact if_neg hset
  · exact (@List.isRotated_append _ ys [p]).trans h.around
  · intro q hq
    rw [hhand]
    exact h.advance_hand q hq

/-- The hand passes the pages of `xs`, whose flags are set, and clears these. -/
theorem victimLoop_passes (h : At s pages (xs ++ ys)) (hset : ∀ x ∈ xs, s.visited x ≠ 0) :
    ∃ s', victimLoop .praListHead (fuel + xs.length) s = victimLoop .praListHead fuel s' ∧
      At s' pages (ys ++ xs) ∧ (∀ q, s'.visited q = if q ∈ xs then 0 else s.visited q) := by
  induction xs generalizing s ys with
  | nil => exact ⟨s, rfl, by simpa using h, by simp⟩
  | cons x xs ih =>
      obtain ⟨s₁, hpass, hat, hvisited⟩ := @victimLoop_pass s pages (xs ++ ys) x (fuel + xs.length)
        h (hset x List.mem_cons_self)
      have hnodup : (x :: xs ++ ys).Nodup := h.around.perm.nodup_iff.mpr h.nodup
      have hne : ∀ y ∈ xs, y ≠ x := by
        rintro y hy rfl
        exact (List.nodup_cons.mp hnodup).1 (List.mem_append_left _ hy)
      obtain ⟨s', hloop, hat', hvisited'⟩ := @ih s₁ (ys ++ [x]) (by simpa using hat) (by
        intro y hy
        rw [hvisited, Function.update_of_ne (hne y hy)]
        exact hset y (List.mem_cons_of_mem _ hy))
      refine ⟨s', hpass.trans hloop, by simpa using hat', fun q => ?_⟩
      rw [hvisited', hvisited]
      by_cases hq : q = x
      · simp [hq]
      · simp [hq]

/-- The first page whose flag is clear is the victim. -/
theorem victimLoop_evict (h : At s pages (v :: ys)) (hclear : s.visited v = 0) :
    ∃ s', victimLoop .praListHead (fuel + 1) s = .ok (v, s') ∧ At s' (pages.erase v) ys ∧
      s'.visited = Function.update s.visited v 1 := by
  have hhand : s.currPtr = .praPageLink v := h.hand v rfl
  have hnodup := h.nodup
  obtain ⟨front, back, rfl, rfl⟩ := split_of_isRotated h.around
  have hfront : v ∉ front := fun hv =>
    (List.nodup_append.mp hnodup).2.2 v hv v List.mem_cons_self rfl
  have herase : (front ++ v :: back).erase v = front ++ back := by
    rw [List.erase_append_right _ hfront, List.erase_cons_head]
  have hring := h.ring
  rw [entries, List.map_append, List.map_cons] at hring
  refine ⟨{ s with
    links := listDel s.links (.praPageLink v)
    currPtr := advance s.links .praListHead s.currPtr
    visited := Function.update s.visited v 1 }, ?_, ⟨h.head, ?_, ?_, ?_, ?_⟩, rfl⟩
  · rw [victimLoop, hhand]
    exact if_pos hclear
  · rw [herase, entries, List.map_append]
    exact ring_listDel hring
  · exact fun p hp => h.bounded p (List.mem_of_mem_erase hp)
  · rw [herase]
    exact List.isRotated_append
  · intro q hq
    rw [hhand]
    refine h.advance_hand q ?_
    rw [List.head?_append, Option.mem_def.mp hq]
    rfl

/-- More rounds than it takes do not change the victim. -/
theorem victimLoop_more {head : Entry} {r : Nat × Swapper} (extra : Nat)
    (h : victimLoop head fuel s = .ok r) : victimLoop head (fuel + extra) s = .ok r := by
  induction fuel generalizing s with
  | zero => cases h
  | succ fuel ih =>
      rw [Nat.add_right_comm]
      rw [victimLoop] at h ⊢
      cases hcurr : s.currPtr with
      | praListHead =>
          rw [hcurr] at h
          cases h
      | praPageLink page =>
          simp only [hcurr] at h ⊢
          split
          · next hclear =>
            rw [if_pos hclear] at h
            exact h
          · next hset =>
            rw [if_neg hset] at h
            exact ih h

/-- The first page, from the hand on, whose flag is clear is found on the way round. -/
theorem victimLoop_clear (h : At s pages (xs ++ v :: ys)) (hset : ∀ x ∈ xs, s.visited x ≠ 0)
    (hclear : s.visited v = 0) :
    ∃ s', victimLoop .praListHead ((xs ++ v :: ys).length + 1) s = .ok (v, s') ∧
      At s' (pages.erase v) (ys ++ xs) ∧
      ∀ q, q ≠ v → s'.visited q = if q ∈ xs then 0 else s.visited q := by
  have hfuel : (xs ++ v :: ys).length + 1 = ys.length + 1 + 1 + xs.length := by
    rw [List.length_append, List.length_cons]
    omega
  obtain ⟨s₁, hpasses, hat, hvisited⟩ :=
    @victimLoop_passes s pages xs (v :: ys) (ys.length + 1 + 1) h hset
  have hnodup : (xs ++ v :: ys).Nodup := h.around.perm.nodup_iff.mpr h.nodup
  have hout : v ∉ xs := fun hv => (List.nodup_append.mp hnodup).2.2 v hv v List.mem_cons_self rfl
  obtain ⟨s', hevict, hat', hvisited'⟩ :=
    @victimLoop_evict s₁ pages (ys ++ xs) v (ys.length + 1) hat (by
      rw [hvisited, if_neg hout]
      exact hclear)
  refine ⟨s', ?_, hat', ?_⟩
  · rw [hfuel]
    exact hpasses.trans hevict
  · intro q hq
    rw [hvisited', Function.update_of_ne hq, hvisited]

/-- Where every flag is set, the page at the hand is the victim, when the hand has gone once
around. -/
theorem victimLoop_set (h : At s pages (v :: ys)) (hset : ∀ x ∈ v :: ys, s.visited x ≠ 0) :
    ∃ s', victimLoop .praListHead ((v :: ys).length + 1) s = .ok (v, s') ∧
      At s' (pages.erase v) ys ∧ ∀ q ∈ ys, s'.visited q = 0 := by
  have hfuel : (v :: ys).length + 1 = 0 + 1 + (v :: ys).length := by omega
  obtain ⟨s₁, hpasses, hat, hvisited⟩ :=
    @victimLoop_passes s pages (v :: ys) [] (0 + 1) (by simpa using h) hset
  obtain ⟨s', hevict, hat', hvisited'⟩ := @victimLoop_evict s₁ pages ys v 0 (by simpa using hat)
    (by rw [hvisited, if_pos List.mem_cons_self])
  have hnodup : (v :: ys).Nodup := h.around.perm.nodup_iff.mpr h.nodup
  refine ⟨s', ?_, hat', ?_⟩
  · rw [hfuel]
    exact hpasses.trans hevict
  · intro q hq
    have hne : q ≠ v := by
      rintro rfl
      exact (List.nodup_cons.mp hnodup).1 hq
    rw [hvisited', Function.update_of_ne hne, hvisited, if_pos (List.mem_cons_of_mem _ hq)]

/-- A victim is found among the pages of the list, wherever the hand is. -/
theorem victimLoop_returns (h : At s pages view) (hne : view ≠ []) :
    ∃ v s' view', victimLoop .praListHead (view.length + 1) s = .ok (v, s') ∧ v ∈ pages ∧
      At s' (pages.erase v) view' := by
  by_cases hall : ∀ x ∈ view, s.visited x ≠ 0
  · obtain ⟨v, ys, rfl⟩ := List.exists_cons_of_ne_nil hne
    obtain ⟨s', heq, hat, _⟩ := victimLoop_set h hall
    exact ⟨v, s', ys, heq, h.around.perm.mem_iff.mp List.mem_cons_self, hat⟩
  · have hfound : (view.find? fun x => s.visited x = 0).isSome := by
      simpa [List.find?_isSome] using hall
    obtain ⟨v, hv⟩ := Option.isSome_iff_exists.mp hfound
    obtain ⟨hclear, xs, ys, rfl, hset⟩ := List.find?_eq_some_iff_append.mp hv
    obtain ⟨s', heq, hat, _⟩ := victimLoop_clear h (by simpa using hset) (by simpa using hclear)
    exact ⟨v, s', ys ++ xs, heq, h.around.perm.mem_iff.mp (by simp), hat⟩

/-- A call has rounds enough to go around. -/
theorem At.swapOutVictim (h : At s pages view) {r : Nat × Swapper}
    (hloop : victimLoop .praListHead (view.length + 1) s = .ok r) :
    clockSwapOutVictim s 0 = .ok r := by
  have hlen := h.length_le
  obtain ⟨extra, hfuel⟩ : ∃ k, walkBound = view.length + 1 + k := by
    unfold walkBound
    exact ⟨npages + 1 - view.length, by omega⟩
  simp only [clockSwapOutVictim, h.head, kassert_of, ok_bind, hfuel]
  exact victimLoop_more extra hloop

/-- The victim of a call: the first page, from the hand on, whose flag is clear. -/
theorem swapOutVictim_clear (h : At s pages (xs ++ v :: ys)) (hset : ∀ x ∈ xs, s.visited x ≠ 0)
    (hclear : s.visited v = 0) :
    ∃ s', clockSwapOutVictim s 0 = .ok (v, s') ∧ At s' (pages.erase v) (ys ++ xs) ∧
      ∀ q, q ≠ v → s'.visited q = if q ∈ xs then 0 else s.visited q := by
  obtain ⟨s', hloop, hat, hvisited⟩ := victimLoop_clear h hset hclear
  exact ⟨s', h.swapOutVictim hloop, hat, hvisited⟩

theorem swapOutVictim_set (h : At s pages (v :: ys)) (hset : ∀ x ∈ v :: ys, s.visited x ≠ 0) :
    ∃ s', clockSwapOutVictim s 0 = .ok (v, s') ∧ At s' (pages.erase v) ys ∧
      ∀ q ∈ ys, s'.visited q = 0 := by
  obtain ⟨s', hloop, hat, hvisited⟩ := victimLoop_set h hset
  exact ⟨s', h.swapOutVictim hloop, hat, hvisited⟩

theorem swapOutVictim_returns (h : At s pages view) (hne : view ≠ []) :
    ∃ v s' view', clockSwapOutVictim s 0 = .ok (v, s') ∧ v ∈ pages ∧
      At s' (pages.erase v) view' := by
  obtain ⟨v, s', view', hloop, hmem, hat⟩ := victimLoop_returns h hne
  exact ⟨v, s', view', h.swapOutVictim hloop, hmem, hat⟩

end Loop

section Arrival

variable {s : Swapper} {pages view front : List Nat} {p oldest : Nat}

/-- A new page comes in front of the others, and the hand goes to the last of them. -/
theorem mapSwappable_at (h : At s pages view) (hp : p ∉ pages) (hbound : p < npages)
    (hlast : p :: pages = front ++ [oldest]) :
    At (clockMapSwappable s p) (p :: pages) (oldest :: front) := by
  have hfresh : Entry.praPageLink p ∉ Entry.praListHead :: ([] ++ entries pages) := by
    simpa [entries] using hp
  have hring : RingList (clockMapSwappable s p).links .praListHead (entries (p :: pages)) :=
    @ring_listAdd _ _ _ _ _ [] (entries pages) h.ring hfresh
  refine ⟨h.head, hring, ?_, ?_, ?_⟩
  · intro q hq
    rcases List.mem_cons.mp hq with rfl | hq
    · exact hbound
    · exact h.bounded q hq
  · rw [hlast]
    exact @List.isRotated_append _ [oldest] front
  · intro q hq
    obtain rfl : oldest = q := by simpa using hq
    rw [hlast, entries, List.map_append, List.map_singleton, ← List.append_nil (_ ++ _)] at hring
    have hprev := hring.prev_firstOf
    rw [firstOf_nil, lastOf_append_singleton] at hprev
    exact hprev

end Arrival

end Ucore.SwapClock
