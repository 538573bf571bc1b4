import Ucore.DefaultPmmSteps

namespace Ucore.DefaultPmmRuns

open Ucore.LinkRing
open Ucore.ListHeader
open Ucore.Panic
open Ucore.DefaultPmm
open Ucore.Extents
open Ucore.DefaultPmmInvariant
open Ucore.DefaultPmmSteps

inductive Request where
  | initMemmap (base n : Nat)
  | allocPages (n : Nat)
  | freePages (base n : Nat)
  deriving DecidableEq, Repr

/-- The manager together with the extents its clients hold. -/
structure System where
  area : FreeArea
  live : List Extent

def boot (s : FreeArea) : System :=
  ⟨defaultInit s, []⟩

def serve (c : System) : Request → Kernel System
  | .initMemmap base n => do
      let area ← defaultInitMemmap c.area base n
      return ⟨area, c.live⟩
  | .allocPages n => do
      match ← defaultAllocPages c.area n with
      | (none, area) => return ⟨area, c.live⟩
      | (some page, area) => return ⟨area, ⟨page, n⟩ :: c.live⟩
  | .freePages base n => do
      let area ← defaultFreePages c.area base n
      return ⟨area, c.live.erase ⟨base, n⟩⟩

/-- What the callers promise: regions of pages that are still reserved, and
frees of extents that were handed out and not yet returned. -/
def Allowed (c : System) : Request → Prop
  | .initMemmap base n => 0 < n ∧ base + n ≤ npages ∧
      ∀ p, base ≤ p → p < base + n → pageReserved c.area p = true
  | .allocPages n => 0 < n
  | .freePages base n => ⟨base, n⟩ ∈ c.live

/-- Served requests from `c` on, each allowed and meeting `guard`. -/
inductive Run (guard : System → Request → Prop) (c : System) : System → Prop
  | refl : Run guard c c
  | step {c₁ c₂ : System} {r : Request} : Run guard c c₁ → Allowed c₁ r → guard c₁ r →
      serve c₁ r = .ok c₂ → Run guard c c₂

/-- The request does not link a block in behind the last one. -/
def LinksInFront (c : System) : Request → Prop
  | .initMemmap base _ => NotAtTail c.area base
  | .allocPages _ => True
  | .freePages base _ => NotAtTail c.area base

def extentAt (s : FreeArea) (p : Nat) : Extent :=
  ⟨p, (s.page p).property⟩

def NoSharedPage (a b : Extent) : Prop :=
  ∀ p, Covers a p → ¬Covers b p

/-- The free list with the block heads `heads` is sound with respect to the
allocations in `live`. -/
structure Sound (c : System) (heads : List Nat) : Prop where
  next : Visits c.area.links.next .freeList (heads.map .pageLink)
  prev : Visits c.area.links.prev .freeList (heads.map .pageLink).reverse
  ordered : heads.Pairwise (· < ·)
  disjoint : heads.Pairwise fun p q =>
    NoSharedPage (extentAt c.area p) (extentAt c.area q)
  nrFree : defaultNrFreePages c.area =
    (heads.map fun p => (c.area.page p).property).sum
  free_live : ∀ p ∈ heads, ∀ e ∈ c.live, NoSharedPage (extentAt c.area p) e
  live_live : c.live.Pairwise NoSharedPage

def FreeListSound (c : System) : Prop :=
  ∃ heads, Sound c heads

theorem sound_of_invariant {c : System} {free : List Extent}
    (h : Invariant c.area free c.live) : Sound c (free.map Extent.base) := by
  have hmap : (free.map Extent.base).map Entry.pageLink = entries free := by
    simp [entries]
  have hextent : ∀ e ∈ free, extentAt c.area e.base = e := by
    intro e he
    rw [extentAt, h.property e he]
  have hpair := List.pairwise_append.mp h.apart
  refine ⟨?_, ?_, ?_, ?_, ?_, ?_, ?_⟩
  · rw [hmap]
    exact h.ring.visits_next
  · rw [hmap]
    exact h.ring.visits_prev
  · rw [List.pairwise_map]
    refine h.ordered.imp_of_mem ?_
    intro a b ha _ hab
    exact hab.base_lt (h.positive a (List.mem_append_left _ ha))
  · rw [List.pairwise_map]
    refine hpair.1.imp_of_mem ?_
    intro a b ha hb hab p
    rw [hextent a ha, hextent b hb]
    exact hab.not_covers
  · rw [defaultNrFreePages, h.nrFree, List.map_map]
    exact congrArg List.sum (List.map_congr_left fun e he => (h.property e he).symm)
  · intro p hp e he q
    obtain ⟨f, hf, rfl⟩ := List.mem_map.mp hp
    rw [hextent f hf]
    exact (hpair.2.2 f hf e he).not_covers
  · exact hpair.2.1.imp fun hab _ => hab.not_covers

theorem freeListSound_of_invariant {c : System} {free : List Extent}
    (h : Invariant c.area free c.live) : FreeListSound c :=
  ⟨_, sound_of_invariant h⟩

theorem not_freeListSound_of_prev_self {c : System} {p : Nat}
    (hlast : listPrev c.area.links .freeList = .pageLink p)
    (hself : listPrev c.area.links (.pageLink p) = .pageLink p) : ¬FreeListSound c := by
  rintro ⟨heads, h⟩
  have hring := ring_of_visits h.next h.prev
  have hring' := hring
  rw [← List.append_nil (heads.map Entry.pageLink)] at hring'
  have hprev := hring'.prev_firstOf
  have hmem := lastOf_mem Entry.freeList (heads.map Entry.pageLink)
  rw [← hprev, firstOf_nil, ← listPrev, hlast] at hmem
  rcases List.mem_cons.mp hmem with heq | hmem
  · exact absurd heq (by simp)
  · exact hring.prev_ne_self hmem hself

section Requests

theorem defaultInit_invariant (s : FreeArea) : Invariant (boot s).area [] (boot s).live := by
  refine ⟨ring_listInit _ _, ?_, ?_, rfl, ?_, ?_, ?_, ?_, ?_⟩
  · simp
  · simp
  · simp [boot]
  · simp [boot]
  · simp [boot]
  · simp [boot]
  · simp [boot]

/-- Initialising a reserved region makes it a fresh extent. -/
theorem initPages_fresh {s : FreeArea} {free live : List Extent} {base n : Nat}
    (h : Invariant s free live) (hn : 0 < n) (hbound : base + n ≤ npages)
    (hres : ∀ p, base ≤ p → p < base + n → pageReserved s p = true) :
    ∃ s', initPages s base n = .ok s' ∧ s'.links = s.links ∧
      Invariant s' free live ∧ Fresh s' free live ⟨base, n⟩ := by
  obtain ⟨s', heq, hlinks, hnr, hin, hout⟩ := initPages_spec hres
  have hapart : ∀ f ∈ free ++ live, NoSharedPage ⟨base, n⟩ f := by
    intro f hf p hp hfp
    have hfree := h.unreserved f hf p hfp
    rw [hres p hp.1 hp.2] at hfree
    exact absurd hfree (by decide)
  refine ⟨s', heq, hlinks, invariant_frame h hlinks hnr ?_, hn, hbound, ?_, ?_, ?_⟩
  · intro f hf p hfp
    exact hout p fun hp => hapart f hf p hp hfp
  · exact fun f hf => apart_of_not_covers hn (h.positive f hf) (hapart f hf)
  · intro p hp
    simp [pageReserved, hin p hp.1 hp.2]
  · intro p hp
    simp [pageProperty, hin p hp.1 hp.2]

/-- Resetting the pages of a live extent makes it a fresh one. -/
theorem resetPages_fresh {s : FreeArea} {free live : List Extent} {e : Extent}
    (h : Invariant s free (e :: live)) :
    ∃ s', resetPages s e.base e.size = .ok s' ∧ s'.links = s.links ∧
      Invariant s' free live ∧ Fresh s' free live e := by
  have he : e ∈ free ++ e :: live := by simp
  have hapart := h.apart_live
  have hflags : ∀ p, e.base ≤ p → p < e.base + e.size →
      pageReserved s p = false ∧ pageProperty s p = false := by
    intro p hp₁ hp₂
    refine ⟨h.unreserved e he p ⟨hp₁, hp₂⟩, ?_⟩
    by_contra hmark
    rw [Bool.not_eq_false] at hmark
    obtain ⟨f, hf, rfl⟩ := (h.heads e he p ⟨hp₁, hp₂⟩).mp hmark
    have hf' : f ∈ free ++ live := List.mem_append_left _ hf
    exact (hapart f hf').not_covers ⟨hp₁, hp₂⟩
      (covers_base (h.forget_live.positive f hf'))
  obtain ⟨s', heq, hlinks, hnr, hin, hout⟩ := resetPages_spec hflags
  refine ⟨s', heq, hlinks, invariant_frame h.forget_live hlinks hnr ?_,
    h.positive e he, h.bounded e he, hapart, ?_, ?_⟩
  · intro f hf p hfp
    exact hout p fun hp => (hapart f hf).not_covers hp hfp
  · intro p hp
    simp [pageReserved, hin p hp.1 hp.2]
  · intro p hp
    simp [pageProperty, hin p hp.1 hp.2]

theorem notAtTail_congr {s s' : FreeArea} (h : s'.links = s.links) (base : Nat) :
    NotAtTail s' base ↔ NotAtTail s base := by
  rw [NotAtTail, NotAtTail, h]

theorem defaultAllocPages_invariant {s : FreeArea} {free live : List Extent} {n : Nat}
    (h : Invariant s free live) (hn : 0 < n) :
    ∃ page s' free', defaultAllocPages s n = .ok (page, s') ∧
      Invariant s' free' ((page.map fun p => Extent.mk p n).toList ++ live) := by
  rcases defaultAllocPages_spec h.wellFormed hn with
    ⟨heq, _⟩ | ⟨front, e, back, rfl, hle, _, heq⟩
  · exact ⟨none, s, free, heq, h⟩
  · obtain ⟨rest, _, htake⟩ := takePages_spec h hn hle
    exact ⟨some e.base, takePages s e.base n, _, heq, htake⟩

theorem defaultInitMemmap_invariant {s : FreeArea} {free live : List Extent}
    {base n : Nat} (h : Invariant s free live) (hn : 0 < n) (hbound : base + n ≤ npages)
    (hres : ∀ p, base ≤ p → p < base + n → pageReserved s p = true)
    (htail : NotAtTail s base) :
    ∃ s' free', defaultInitMemmap s base n = .ok s' ∧ Invariant s' free' live := by
  obtain ⟨s₁, hinit, hlinks, h₁, hfresh⟩ := initPages_fresh h hn hbound hres
  obtain ⟨s₂, as, bs, hlink, _, h₂⟩ :=
    linkBlock_invariant h₁ hfresh ((notAtTail_congr hlinks base).mpr htail)
  refine ⟨s₂, _, ?_, h₂⟩
  simp only [defaultInitMemmap, hn, kassert_of, ok_bind, hinit]
  exact hlink

theorem defaultFreePages_invariant {s : FreeArea} {free live : List Extent} {e : Extent}
    (h : Invariant s free (e :: live)) (htail : NotAtTail s e.base) :
    ∃ s' free', defaultFreePages s e.base e.size = .ok s' ∧ Invariant s' free' live := by
  obtain ⟨s₁, hreset, hlinks, h₁, hfresh⟩ := resetPages_fresh h
  obtain ⟨s₂, as, bs, hlink, _, h₂⟩ :=
    linkBlock_invariant h₁ hfresh ((notAtTail_congr hlinks e.base).mpr htail)
  obtain ⟨s₃, as', e', hlower, _, _, h₃⟩ := mergeLower_spec h₂
  obtain ⟨bs', e'', _, _, h₄⟩ := mergeUpper_spec h₃
  refine ⟨mergeUpper s₃ e'.base, _, ?_, h₄⟩
  simp only [defaultFreePages, hfresh.positive, kassert_of, ok_bind, hreset, hlink, hlower]
  rfl

theorem defaultInitMemmap_tail {s : FreeArea} {free live : List Extent} {base n : Nat}
    (h : Invariant s free live) (hn : 0 < n) (hbound : base + n ≤ npages)
    (hres : ∀ p, base ≤ p → p < base + n → pageReserved s p = true)
    (htail : ¬NotAtTail s base) :
    ∃ s', defaultInitMemmap s base n = .ok s' ∧
      listPrev s'.links .freeList = .pageLink base ∧
      listPrev s'.links (.pageLink base) = .pageLink base := by
  obtain ⟨s₁, hinit, hlinks, h₁, hfresh⟩ := initPages_fresh h hn hbound hres
  obtain ⟨s₂, hlink, hlast, hself, _, _⟩ := linkBlock_tail h₁ hfresh
    (fun hnot => htail ((notAtTail_congr hlinks base).mp hnot))
  refine ⟨s₂, ?_, hlast, hself⟩
  simp only [defaultInitMemmap, hn, kassert_of, ok_bind, hinit]
  exact hlink

theorem defaultFreePages_tail {s : FreeArea} {free live : List Extent} {e : Extent}
    (h : Invariant s free (e :: live)) (htail : ¬NotAtTail s e.base) :
    ∃ s', defaultFreePages s e.base e.size = .ok s' ∧
      listPrev s'.links .freeList = .pageLink e.base ∧
      listPrev s'.links (.pageLink e.base) = .pageLink e.base := by
  obtain ⟨s₁, hreset, hlinks, h₁, hfresh⟩ := resetPages_fresh h
  obtain ⟨s₂, hlink, hlast, hself, hnext, hprop⟩ := linkBlock_tail h₁ hfresh
    (fun hnot => htail ((notAtTail_congr hlinks e.base).mp hnot))
  -- the block is its own lower neighbour, so neither merge finds an adjacent one
  have hlower : mergeLower s₂ e.base = (s₂, e.base) := by
    have hne : ¬e.base + (s₂.page e.base).property = e.base := by
      have := hfresh.positive
      omega
    simp only [mergeLower, hself]
    exact if_neg hne
  have hupper : mergeUpper s₂ e.base = s₂ := by
    simp [mergeUpper, hnext]
  refine ⟨s₂, ?_, hlast, hself⟩
  simp only [defaultFreePages, hfresh.positive, kassert_of, ok_bind, hreset, hlink, hlower,
    hupper]
  rfl

end Requests

section Runs

variable {c : System} {r : Request}

def Consistent (c : System) : Prop :=
  ∃ free, Invariant c.area free c.live

theorem consistent_boot (s : FreeArea) : Consistent (boot s) :=
  ⟨[], defaultInit_invariant s⟩

theorem consistent_live_cons {base n : Nat} {free : List Extent}
    (h : Invariant c.area free c.live) (hmem : ⟨base, n⟩ ∈ c.live) :
    Invariant c.area free (⟨base, n⟩ :: c.live.erase ⟨base, n⟩) :=
  h.perm_live (List.perm_cons_erase hmem)

theorem serve_consistent (h : Consistent c) (hallowed : Allowed c r)
    (hfront : LinksInFront c r) : ∃ c', serve c r = .ok c' ∧ Consistent c' := by
  obtain ⟨free, hinv⟩ := h
  cases r with
  | initMemmap base n =>
      obtain ⟨hn, hbound, hres⟩ := hallowed
      obtain ⟨s', free', heq, h'⟩ := defaultInitMemmap_invariant hinv hn hbound hres hfront
      refine ⟨⟨s', c.live⟩, ?_, free', h'⟩
      simp only [serve, heq, ok_bind]
      rfl
  | allocPages n =>
      obtain ⟨page, s', free', heq, h'⟩ := defaultAllocPages_invariant hinv hallowed
      cases page with
      | none =>
          refine ⟨⟨s', c.live⟩, ?_, free', h'⟩
          simp only [serve, heq, ok_bind]
          rfl
      | some page =>
          refine ⟨⟨s', ⟨page, n⟩ :: c.live⟩, ?_, free', h'⟩
          simp only [serve, heq, ok_bind]
          rfl
  | freePages base n =>
      obtain ⟨s', free', heq, h'⟩ :=
        @defaultFreePages_invariant _ _ _ ⟨base, n⟩ (consistent_live_cons hinv hallowed) hfront
      refine ⟨⟨s', c.live.erase ⟨base, n⟩⟩, ?_, free', h'⟩
      simp only [serve, heq, ok_bind]
      rfl

theorem serve_tail (h : Consistent c) (hallowed : Allowed c r)
    (htail : ¬LinksInFront c r) : ∃ c', serve c r = .ok c' ∧ ¬FreeListSound c' := by
  obtain ⟨free, hinv⟩ := h
  cases r with
  | initMemmap base n =>
      obtain ⟨hn, hbound, hres⟩ := hallowed
      obtain ⟨s', heq, hlast, hself⟩ := defaultInitMemmap_tail hinv hn hbound hres htail
      refine ⟨⟨s', c.live⟩, ?_, not_freeListSound_of_prev_self hlast hself⟩
      simp only [serve, heq, ok_bind]
      rfl
  | allocPages n => exact absurd trivial htail
  | freePages base n =>
      obtain ⟨s', heq, hlast, hself⟩ :=
        @defaultFreePages_tail _ _ _ ⟨base, n⟩ (consistent_live_cons hinv hallowed) htail
      refine ⟨⟨s', c.live.erase ⟨base, n⟩⟩, ?_, not_freeListSound_of_prev_self hlast hself⟩
      simp only [serve, heq, ok_bind]
      rfl

theorem run_consistent {c₀ : System} (h₀ : Consistent c₀) (hrun : Run LinksInFront c₀ c) :
    Consistent c := by
  induction hrun with
  | refl => exact h₀
  | step _ hallowed hfront heq ih =>
      obtain ⟨c', heq', h'⟩ := serve_consistent ih hallowed hfront
      rw [heq] at heq'
      cases heq'
      exact h'

/-- The list is sound after every run whose blocks are linked in front of a
later one or into an empty list, and one more request keeps it so exactly when
it links its block in the same way. -/
theorem freeListSound_of_run {s : FreeArea} (hrun : Run LinksInFront (boot s) c) :
    FreeListSound c ∧ ∀ r, Allowed c r →
      (LinksInFront c r ↔ ∃ c', serve c r = .ok c' ∧ FreeListSound c') := by
  have hc := run_consistent (consistent_boot s) hrun
  refine ⟨?_, ?_⟩
  · obtain ⟨free, h⟩ := hc
    exact freeListSound_of_invariant h
  · intro r hallowed
    constructor
    · intro hfront
      obtain ⟨c', heq, free, h⟩ := serve_consistent hc hallowed hfront
      exact ⟨c', heq, freeListSound_of_invariant h⟩
    · rintro ⟨c', heq, hsound⟩
      by_contra htail
      obtain ⟨c'', heq', hnot⟩ := serve_tail hc hallowed htail
      rw [heq] at heq'
      cases heq'
      exact hnot hsound

end Runs

/-- The pages as `page_init` leaves them. -/
def reservedPages : FreeArea where
  page := fun _ => { ref := 0, flags := setBit PG_reserved 0, property := 0 }
  links := { next := id, prev := id }
  nrFree := 0

theorem freeListSound_after_first_region :
    ∃ c, Run LinksInFront (boot reservedPages) c ∧ serve (boot reservedPages)
      (.initMemmap 0 4) = .ok c ∧ FreeListSound c := by
  have hallowed : Allowed (boot reservedPages) (.initMemmap 0 4) :=
    ⟨by decide, by decide, fun _ _ _ => testBit_setBit_self (by decide) 0⟩
  have hfront : LinksInFront (boot reservedPages) (.initMemmap 0 4) := by
    intro p hp
    simp [boot, defaultInit, listInit, listPrev] at hp
  obtain ⟨c, heq, _⟩ :=
    ((freeListSound_of_run .refl).2 (.initMemmap 0 4) hallowed).mp hfront
  have hrun : Run LinksInFront (boot reservedPages) c := .step .refl hallowed hfront heq
  exact ⟨c, hrun, heq, (freeListSound_of_run hrun).1⟩

/-- Freeing the lower and then the upper half of a region breaks the list. -/
theorem freeListSound_fails_at_tail :
    ¬∀ s c, Run (fun _ _ => True) (boot s) c → FreeListSound c := by
  intro hall
  obtain ⟨c, hrun, hlast, hself⟩ : ∃ c, Run (fun _ _ => True) (boot reservedPages) c ∧
      listPrev c.area.links .freeList = .pageLink 2 ∧
      listPrev c.area.links (.pageLink 2) = .pageLink 2 := by
    have h₁ : Allowed (boot reservedPages) (.initMemmap 0 4) :=
      ⟨by decide, by decide, fun _ _ _ => testBit_setBit_self (by decide) 0⟩
    have run₁ : Run (fun _ _ => True) (boot reservedPages) _ :=
      .step .refl h₁ trivial rfl
    have run₂ := @Run.step _ _ _ _ (.allocPages 2) run₁ Nat.zero_lt_two trivial rfl
    have run₃ := @Run.step _ _ _ _ (.allocPages 2) run₂ Nat.zero_lt_two trivial rfl
    have run₄ := @Run.step _ _ _ _ (.freePages 0 2) run₃
      (by unfold Allowed; decide) trivial rfl
    have run₅ := @Run.step _ _ _ _ (.freePages 2 2) run₄
      (by unfold Allowed; decide) trivial rfl
    exact ⟨_, run₅, by decide, by decide⟩
  exact not_freeListSound_of_prev_self hlast hself (hall _ _ hrun)

end Ucore.DefaultPmmRuns
