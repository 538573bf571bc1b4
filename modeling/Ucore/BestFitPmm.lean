import Ucore.DefaultPmmSteps

/-!
The physical memory manager of lab 2's `kern/mm/best_fit_pmm.c`. Where its
functions do what those of `default_pmm.c` do, they are made of the same parts.
-/

namespace Ucore.BestFitPmm

open Ucore.LinkRing
open Ucore.ListHeader
open Ucore.Panic
open Ucore.DefaultPmm
open Ucore.Extents
open Ucore.ExtentLists
open Ucore.DefaultPmmInvariant
open Ucore.DefaultPmmSteps

def bestFitInit (s : FreeArea) : FreeArea :=
  { s with links := listInit s.links .freeList, nrFree := 0 }

/-- The `while` loop of `best_fit_init_memmap`, entered with the entry `le` of
the previous round. The tail branch links in `p`, where the loop over the pages
has stopped, and has no `break`. -/
def linkRegionLoop (base p : Nat) : Nat → Links Entry → Entry → Kernel (Links Entry)
  | 0, _, _ => .error .loop
  | fuel + 1, links, le =>
      match listNext links le with
      | .freeList => .ok links
      | .pageLink page =>
          if base < page then
            .ok (listAddBefore links (.pageLink page) (.pageLink base))
          else if listNext links (.pageLink page) = .freeList then
            linkRegionLoop base p fuel
              (listAdd links (.pageLink page) (.pageLink p)) (.pageLink page)
          else
            linkRegionLoop base p fuel links (.pageLink page)

def bestFitInitMemmap (s : FreeArea) (base n : Nat) : Kernel FreeArea := do
  kassert (0 < n)
  let s ← initPages s base n
  let p := base + n
  let s := addNrFree (setPageProperty (setProperty s base n) base) n
  if listEmpty s.links .freeList then
    return { s with links := listAdd s.links .freeList (.pageLink base) }
  else
    let links ← linkRegionLoop base p walkBound s.links .freeList
    return { s with links := links }

/-- The search loop of `best_fit_alloc_pages`, which always walks the whole list. -/
def searchBest (s : FreeArea) (n : Nat) :
    Nat → Entry → Nat → Option Nat → Kernel (Option Nat)
  | 0, _, _, _ => .error .loop
  | fuel + 1, le, minSize, page =>
      match listNext s.links le with
      | .freeList => .ok page
      | .pageLink p =>
          if n ≤ (s.page p).property ∧ (s.page p).property < minSize then
            searchBest s n fuel (.pageLink p) (s.page p).property (some p)
          else
            searchBest s n fuel (.pageLink p) minSize page

def bestFitAllocPages (s : FreeArea) (n : Nat) : Kernel (Option Nat × FreeArea) := do
  kassert (0 < n)
  if s.nrFree < n then
    return (none, s)
  else
    match ← searchBest s n walkBound .freeList (toUint (s.nrFree + 1)) none with
    | none => return (none, s)
    | some page => return (some page, takePages s page n)

def bestFitFreePages (s : FreeArea) (base n : Nat) : Kernel FreeArea := do
  kassert (0 < n)
  let s ← resetPages s base n
  let s ← linkBlock s base n
  let (s, base) := mergeLower s base
  return mergeUpper s base

def bestFitNrFreePages (s : FreeArea) : Nat :=
  s.nrFree

theorem bestFitFreePages_eq : bestFitFreePages = defaultFreePages := rfl

section Linking

/-- With a block above `base` on the list both insertion loops do the same. -/
theorem linkRegionLoop_eq {links : Links Entry} {base p : Nat} {rest as : List Extent}
    {fuel : Nat} (hring : RingList links .freeList (entries (as ++ rest)))
    (hex : ∃ e ∈ rest, base < e.base) :
    linkRegionLoop base p fuel links (lastOf .freeList (entries as)) =
      linkLoop base fuel links (lastOf .freeList (entries as)) := by
  induction rest generalizing as fuel with
  | nil =>
      obtain ⟨e, he, _⟩ := hex
      exact absurd he List.not_mem_nil
  | cons e rest ih =>
      cases fuel with
      | zero => rfl
      | succ fuel =>
          have hnext : listNext links (lastOf .freeList (entries as)) = .pageLink e.base := by
            rw [entries_append] at hring
            exact hring.next_lastOf
          rw [linkRegionLoop, linkLoop, hnext]
          by_cases hlt : base < e.base
          · simp [hlt]
          · have hex' : ∃ f ∈ rest, base < f.base := by
              obtain ⟨f, hf, hbf⟩ := hex
              rcases List.mem_cons.mp hf with rfl | hf
              · exact absurd hbf hlt
              · exact ⟨f, hf, hbf⟩
            have hnext' : listNext links (.pageLink e.base) ≠ .freeList := by
              have hmem := hring
              rw [entries_append, entries_cons] at hmem
              rw [listNext, hmem.next_mem]
              obtain ⟨f, hf, _⟩ := hex'
              cases rest with
              | nil => exact absurd hf List.not_mem_nil
              | cons g rest => simp
            have hring' : RingList links .freeList (entries ((as ++ [e]) ++ rest)) := by
              simpa using hring
            simpa [hlt, hnext'] using ih hring' hex'

/-- Above every block the loop links `p` behind the last one, and `base` in front
of `p` in the next round. -/
theorem linkRegionLoop_tail {links : Links Entry} {base p : Nat} {rest as : List Extent}
    {fuel : Nat} (hring : RingList links .freeList (entries (as ++ rest))) (hne : rest ≠ [])
    (hall : ∀ e ∈ rest, ¬base < e.base) (hlt : base < p)
    (hbase : Entry.pageLink base ∉ entries (as ++ rest))
    (hp : Entry.pageLink p ∉ entries (as ++ rest)) (hfuel : rest.length + 1 ≤ fuel) :
    ∃ links', linkRegionLoop base p fuel links (lastOf .freeList (entries as)) = .ok links' ∧
      RingList links' .freeList (entries (as ++ rest) ++ [.pageLink base, .pageLink p]) := by
  induction rest generalizing as fuel with
  | nil => exact absurd rfl hne
  | cons e rest ih =>
      obtain ⟨fuel, rfl⟩ : ∃ k, fuel = k + 1 := ⟨fuel - 1, by omega⟩
      have hnext : listNext links (lastOf .freeList (entries as)) = .pageLink e.base := by
        rw [entries_append] at hring
        exact hring.next_lastOf
      have hnlt : ¬base < e.base := hall e List.mem_cons_self
      have hring' : RingList links .freeList (entries ((as ++ [e]) ++ rest)) := by
        simpa using hring
      rw [linkRegionLoop, hnext]
      match rest with
      | [] =>
          have hend : listNext links (.pageLink e.base) = .freeList := by
            have hmem := hring
            rw [entries_append, entries_cons] at hmem
            rw [listNext, hmem.next_mem]
            rfl
          obtain ⟨fuel, rfl⟩ : ∃ k, fuel = k + 1 := ⟨fuel - 1, by simp at hfuel; omega⟩
          have hlinked : RingList (listAdd links (.pageLink e.base) (.pageLink p))
              .freeList (entries (as ++ [e]) ++ [.pageLink p]) := by
            have hadd := @ring_listAdd _ _ _ _ (.pageLink p) (entries (as ++ [e])) []
              (by simpa using hring) (by simpa using hp)
            simpa using hadd
          have hnextE : listNext (listAdd links (.pageLink e.base) (.pageLink p))
              (.pageLink e.base) = .pageLink p := by
            have hlast := hlinked.next_lastOf
            simpa [listNext] using hlast
          refine ⟨listAddBefore (listAdd links (.pageLink e.base) (.pageLink p)) (.pageLink p)
            (.pageLink base), by simp [hnlt, hend, linkRegionLoop, hnextE, hlt], ?_⟩
          have hfresh : Entry.pageLink base ∉
              Entry.freeList :: (entries (as ++ [e]) ++ [.pageLink p]) := by
            have hbp : base ≠ p := by omega
            simpa [hbp] using hbase
          exact ring_listAddBefore hlinked hfresh
      | f :: rest =>
          have hmid : listNext links (.pageLink e.base) = .pageLink f.base := by
            have hmem := hring
            rw [entries_append, entries_cons] at hmem
            rw [listNext, hmem.next_mem]
            rfl
          obtain ⟨links', heq, hring''⟩ := @ih (as ++ [e]) fuel hring' (by simp)
            (fun g hg => hall g (List.mem_cons_of_mem _ hg)) (by simpa using hbase)
            (by simpa using hp) (by simp at hfuel ⊢; omega)
          refine ⟨links', ?_, by simpa using hring''⟩
          simpa [hnlt, hmid] using heq

end Linking

section Insertion

variable {s : FreeArea} {free live : List Extent} {e : Extent}

/-- Away from the tail a region is linked in as `default_init_memmap` does it. -/
theorem bestFitInitMemmap_eq_linkBlock {s₁ : FreeArea} (hn : 0 < e.size)
    (hinit : initPages s e.base e.size = .ok s₁) (h : Invariant s₁ free live)
    (htail : NotAtTail s₁ e.base) :
    bestFitInitMemmap s e.base e.size = linkBlock s₁ e.base e.size := by
  simp only [bestFitInitMemmap, hn, kassert_of, ok_bind, hinit, linkBlock]
  have hlinks : (addNrFree
      (setPageProperty (setProperty s₁ e.base e.size) e.base) e.size).links = s₁.links := rfl
  rw [hlinks]
  rcases (notAtTail_iff h e.base).mp htail with rfl | hex
  · have hempty : listEmpty s₁.links .freeList = true :=
      (listEmpty_eq_true_iff h.ring).mpr rfl
    rw [if_pos hempty, if_pos hempty]
  · have hloop := @linkRegionLoop_eq s₁.links e.base (e.base + e.size) free [] walkBound
      h.ring hex
    rw [entries_nil, lastOf_nil] at hloop
    rw [hloop]

/-- Behind the last block a region's head is linked in together with the page that
follows the region. -/
theorem bestFitInitMemmap_tail {s₁ : FreeArea} (hn : 0 < e.size)
    (hinit : initPages s e.base e.size = .ok s₁) (h : Invariant s₁ free live)
    (hfresh : Fresh s₁ free live e) (htail : ¬NotAtTail s₁ e.base) :
    ∃ s', bestFitInitMemmap s e.base e.size = .ok s' ∧
      RingList s'.links .freeList
        (entries free ++ [.pageLink e.base, .pageLink (e.base + e.size)]) ∧
      s'.nrFree = (free.map Extent.size).sum + e.size ∧
      (∀ f ∈ free, (s'.page f.base).property = f.size) ∧
      (s'.page e.base).property = e.size := by
  rw [notAtTail_iff h, not_or] at htail
  obtain ⟨hne, hall⟩ := htail
  have hall' : ∀ f ∈ free, ¬e.base < f.base := fun f hf hlt => hall ⟨f, hf, hlt⟩
  have hnot : ∀ p, e.base ≤ p → Entry.pageLink p ∉ entries ([] ++ free) := by
    intro p hp
    rw [List.nil_append, mem_entries]
    rintro ⟨f, hf, rfl⟩
    have hle := hall' f hf
    exact hfresh.base_ne h (List.mem_append_left _ hf) (by omega)
  have hempty : ¬listEmpty s₁.links .freeList = true := by
    rw [listEmpty_eq_true_iff h.ring]
    intro hnil
    exact hne (List.map_eq_nil_iff.mp hnil)
  obtain ⟨links', hloop, hring⟩ := @linkRegionLoop_tail s₁.links e.base (e.base + e.size)
    free [] walkBound h.ring hne hall' (by omega) (hnot _ le_rfl) (hnot _ (by omega)) (by
      have hlen := h.length_le
      unfold walkBound
      omega)
  rw [entries_nil, lastOf_nil] at hloop
  refine ⟨{ addNrFree (setPageProperty (setProperty s₁ e.base e.size) e.base) e.size with
    links := links' }, ?_, hring, ?_, ?_, ?_⟩
  · have hlinks : (addNrFree
        (setPageProperty (setProperty s₁ e.base e.size) e.base) e.size).links =
          s₁.links := rfl
    simp only [bestFitInitMemmap, hn, kassert_of, ok_bind, hinit, hlinks, hempty, hloop]
    rfl
  · have hord : (free ++ [e]).Pairwise Before := by
      refine List.pairwise_append.mpr ⟨h.ordered, List.pairwise_singleton _ _, ?_⟩
      intro f hf g hg
      obtain rfl := List.mem_singleton.mp hg
      have hlt := hall' f hf
      have hfpos := h.positive f (List.mem_append_left _ hf)
      rcases hfresh.apart f (List.mem_append_left _ hf) with hap | hap
      · simp only [Before] at hap
        omega
      · exact hap
    have hsum := @sum_size_le (free ++ [e]) npages hord (by
      intro f hf
      rcases List.mem_append.mp hf with hf | hf
      · exact h.bounded f (List.mem_append_left _ hf)
      · obtain rfl := List.mem_singleton.mp hf
        exact hfresh.bounded)
    simp only [List.map_append, List.map_cons, List.map_nil, List.sum_append, List.sum_cons,
      List.sum_nil, Nat.add_zero] at hsum
    change toUint (s₁.nrFree + e.size) = _
    rw [h.nrFree]
    exact toUint_of_le hsum
  · intro f hf
    change ((setPageProperty (setProperty s₁ e.base e.size) e.base).page f.base).property = _
    rw [setPageProperty_property,
      setProperty_page_ne (hfresh.base_ne h (List.mem_append_left _ hf))]
    exact h.property f hf
  · change ((setPageProperty (setProperty s₁ e.base e.size) e.base).page e.base).property = _
    rw [setPageProperty_property, setProperty_property_self]
    have hbound := hfresh.bounded
    exact toUint_of_le (by omega)

/-- A freed extent is joined with the blocks on either side that it touches. -/
theorem linkBlock_merge {s₁ : FreeArea} (h : Invariant s₁ free live)
    (hfresh : Fresh s₁ free live e) (htail : NotAtTail s₁ e.base) :
    ∃ s₂ s₃ e' as bs as' j bs', linkBlock s₁ e.base e.size = .ok s₂ ∧
      mergeLower s₂ e.base = (s₃, e') ∧ free = as ++ bs ∧
      Invariant s₂ (as ++ e :: bs) live ∧ JoinsLower as e as' j ∧ JoinsUpper e bs j bs' ∧
      Invariant (mergeUpper s₃ e') (as' ++ j :: bs') live := by
  obtain ⟨s₂, as, bs, hlink, hfree, h₂⟩ := linkBlock_invariant h hfresh htail
  obtain ⟨s₃, as', e', hlower, hend, hlow, h₃⟩ := mergeLower_spec h₂
  obtain ⟨bs', j, hbase, hup, h₄⟩ := mergeUpper_spec h₃
  exact ⟨s₂, s₃, e'.base, as, bs, as', j, bs', hlink, hlower, hfree, h₂, hlow.congr hbase,
    hup.congr hend, h₄⟩

end Insertion

section Search

/-- Where the search stands behind the blocks `seen`: with nothing yet, or with the
first of the smallest blocks of at least `n` pages. -/
def Chosen (n bound : Nat) (seen : List Extent) (minSize : Nat) (page : Option Nat) : Prop :=
  (page = none ∧ minSize = bound ∧ ∀ e ∈ seen, e.size < n ∨ bound ≤ e.size) ∨
    ∃ front e back, seen = front ++ e :: back ∧ page = some e.base ∧ minSize = e.size ∧
      n ≤ e.size ∧ (∀ f ∈ front, n ≤ f.size → e.size < f.size) ∧
      ∀ f ∈ back, n ≤ f.size → e.size ≤ f.size

variable {n bound minSize : Nat} {seen : List Extent} {page : Option Nat} {e : Extent}

theorem Chosen.smaller (h : Chosen n bound seen minSize page) (hfit : n ≤ e.size)
    (hlt : e.size < minSize) : Chosen n bound (seen ++ [e]) e.size (some e.base) := by
  refine .inr ⟨seen, e, [], rfl, rfl, rfl, hfit, ?_, by simp⟩
  intro f hf hn
  rcases h with ⟨_, rfl, hnone⟩ | ⟨front, c, back, rfl, _, rfl, _, hfront, hback⟩
  · have hbound := (hnone f hf).resolve_left (by omega)
    omega
  · rcases List.mem_append.mp hf with hf | hf
    · have hcf := hfront f hf hn
      omega
    · rcases List.mem_cons.mp hf with rfl | hf
      · exact hlt
      · have hcf := hback f hf hn
        omega

theorem Chosen.kept (h : Chosen n bound seen minSize page)
    (hnot : ¬(n ≤ e.size ∧ e.size < minSize)) :
    Chosen n bound (seen ++ [e]) minSize page := by
  rcases h with ⟨hpage, rfl, hnone⟩ | ⟨front, c, back, rfl, hpage, rfl, hfit, hfront, hback⟩
  · refine .inl ⟨hpage, rfl, ?_⟩
    intro f hf
    rcases List.mem_append.mp hf with hf | hf
    · exact hnone f hf
    · obtain rfl := List.mem_singleton.mp hf
      omega
  · refine .inr ⟨front, c, back ++ [e], by simp, hpage, rfl, hfit, hfront, ?_⟩
    intro f hf hn
    rcases List.mem_append.mp hf with hf | hf
    · exact hback f hf hn
    · obtain rfl := List.mem_singleton.mp hf
      omega

theorem searchBest_spec {s : FreeArea} {as rest : List Extent} {fuel : Nat}
    (h : WellFormed s (as ++ rest)) (hchosen : Chosen n bound as minSize page)
    (hfuel : rest.length < fuel) :
    ∃ minSize' page',
      searchBest s n fuel (lastOf .freeList (entries as)) minSize page = .ok page' ∧
        Chosen n bound (as ++ rest) minSize' page' := by
  induction rest generalizing as fuel minSize page with
  | nil =>
      obtain ⟨fuel, rfl⟩ : ∃ k, fuel = k + 1 := ⟨fuel - 1, by simp at hfuel; omega⟩
      have hring := h.ring
      rw [entries_append] at hring
      have hnext : listNext s.links (lastOf .freeList (entries as)) = .freeList :=
        hring.next_lastOf
      refine ⟨minSize, page, ?_, by simpa using hchosen⟩
      rw [searchBest, hnext]
  | cons e rest ih =>
      obtain ⟨fuel, rfl⟩ : ∃ k, fuel = k + 1 := ⟨fuel - 1, by simp at hfuel; omega⟩
      have hring := h.ring
      rw [entries_append] at hring
      have hnext : listNext s.links (lastOf .freeList (entries as)) = .pageLink e.base :=
        hring.next_lastOf
      have hprop : (s.page e.base).property = e.size := h.property e (by simp)
      have hlast : lastOf Entry.freeList (entries (as ++ [e])) = .pageLink e.base := by
        simp
      have h' : WellFormed s ((as ++ [e]) ++ rest) := by simpa using h
      have hfuel' : rest.length < fuel := by simpa using hfuel
      have hsplit : as ++ e :: rest = (as ++ [e]) ++ rest := by simp
      rw [searchBest, hnext, hsplit]
      simp only [hprop]
      rw [← hlast]
      by_cases hbetter : n ≤ e.size ∧ e.size < minSize
      · rw [if_pos hbetter]
        exact ih h' (hchosen.smaller hbetter.1 hbetter.2) hfuel'
      · rw [if_neg hbetter]
        exact ih h' (hchosen.kept hbetter) hfuel'

/-- `best_fit_alloc_pages` takes its pages from the first of the smallest blocks that
have enough of them, and returns `NULL` only when no block has. -/
theorem bestFitAllocPages_spec {s : FreeArea} {free : List Extent}
    (h : WellFormed s free) (hn : 0 < n) :
    (bestFitAllocPages s n = .ok (none, s) ∧ ∀ e ∈ free, e.size < n) ∨
      ∃ front e back, free = front ++ e :: back ∧ n ≤ e.size ∧
        (∀ f ∈ front, n ≤ f.size → e.size < f.size) ∧
        (∀ f ∈ back, n ≤ f.size → e.size ≤ f.size) ∧
        bestFitAllocPages s n = .ok (some e.base, takePages s e.base n) := by
  by_cases hfew : s.nrFree < n
  · refine .inl ⟨?_, fun e he => lt_of_le_of_lt (h.size_le_nrFree he) hfew⟩
    simp only [bestFitAllocPages, hn, kassert_of, ok_bind, hfew, if_true]
    rfl
  · have hsmall : s.nrFree + 1 < 2 ^ 32 := by
      have hnp : npages + 1 < 2 ^ 32 := by decide
      have hsum := h.sum_le
      have hnr := h.nrFree
      omega
    have hbound : toUint (s.nrFree + 1) = s.nrFree + 1 := Nat.mod_eq_of_lt hsmall
    obtain ⟨minSize, page, heq, hchosen⟩ := @searchBest_spec n (s.nrFree + 1) (s.nrFree + 1) none
      s [] free walkBound h (.inl ⟨rfl, rfl, by simp⟩) (by
        have hlen := h.length_le
        unfold walkBound
        omega)
    rw [entries_nil, lastOf_nil] at heq
    rw [List.nil_append] at hchosen
    rcases hchosen with ⟨rfl, _, hnone⟩ | ⟨front, e, back, rfl, rfl, _, hfit, hfront, hback⟩
    · refine .inl ⟨?_, fun e he => (hnone e he).resolve_right ?_⟩
      · simp only [bestFitAllocPages, hn, kassert_of, ok_bind, hfew, if_false, hbound, heq]
        rfl
      · have hle := h.size_le_nrFree he
        omega
    · refine .inr ⟨front, e, back, rfl, hfit, hfront, hback, ?_⟩
      simp only [bestFitAllocPages, hn, kassert_of, ok_bind, hfew, if_false, hbound, heq]
      rfl

end Search

end Ucore.BestFitPmm
