import Ucore.BestFitPmm
import Ucore.DefaultPmmRuns

namespace Ucore.BestFitPmmRuns

open Ucore.LinkRing
open Ucore.ListHeader
open Ucore.Panic
open Ucore.DefaultPmm
open Ucore.Extents
open Ucore.ExtentLists
open Ucore.DefaultPmmInvariant
open Ucore.DefaultPmmSteps
open Ucore.DefaultPmmRuns (Request extentAt NoSharedPage reservedPages)
open Ucore.BestFitPmm

/-- The manager, the extents its clients hold, and the regions it was given. -/
structure System where
  area : FreeArea
  live : List Extent
  regions : List Extent

def boot (s : FreeArea) : System :=
  ⟨bestFitInit s, [], []⟩

def serve (c : System) : Request → Kernel System
  | .initMemmap base n => do
      let area ← bestFitInitMemmap c.area base n
      return ⟨area, c.live, ⟨base, n⟩ :: c.regions⟩
  | .allocPages n => do
      match ← bestFitAllocPages c.area n with
      | (none, area) => return ⟨area, c.live, c.regions⟩
      | (some page, area) => return ⟨area, ⟨page, n⟩ :: c.live, c.regions⟩
  | .freePages base n => do
      let area ← bestFitFreePages c.area base n
      return ⟨area, c.live.erase ⟨base, n⟩, c.regions⟩

/-- What the callers promise: regions of pages that are still reserved, and
frees of extents that were handed out and not yet returned. -/
def Allowed (c : System) : Request → Prop
  | .initMemmap base n => 0 < n ∧ base + n ≤ npages ∧
      ∀ p, base ≤ p → p < base + n → pageReserved c.area p = true
  | .allocPages n => 0 < n
  | .freePages base n => ⟨base, n⟩ ∈ c.live

/-- Served requests from `c` on, each allowed and meeting `guard`. -/
inductive Run (guard : System → Request → Prop) (c : System) : System → Prop
  | refl : Run guard c c
  | step {c₁ c₂ : System} {r : Request} : Run guard c c₁ → Allowed c₁ r → guard c₁ r →
      serve c₁ r = .ok c₂ → Run guard c c₂

/-- The free list with the block heads `heads` is sound: it can be walked both ways,
its blocks are what the regions hold besides the allocations in `live`. -/
structure ListSound (c : System) (heads : List Nat) : Prop where
  next : Visits c.area.links.next .freeList (heads.map .pageLink)
  prev : Visits c.area.links.prev .freeList (heads.map .pageLink).reverse
  ordered : heads.Pairwise (· < ·)
  positive : ∀ p ∈ heads, 0 < (c.area.page p).property
  inside : ∀ q, CoversAny (heads.map (extentAt c.area)) q → CoversAny c.regions q
  whole : ∀ q, CoversAny c.regions q →
    CoversAny (heads.map (extentAt c.area)) q ∨ CoversAny c.live q
  disjoint : heads.Pairwise fun p q =>
    NoSharedPage (extentAt c.area p) (extentAt c.area q)
  free_live : ∀ p ∈ heads, ∀ e ∈ c.live, NoSharedPage (extentAt c.area p) e
  live_live : c.live.Pairwise NoSharedPage
  nrFree : bestFitNrFreePages c.area = (heads.map fun p => (c.area.page p).property).sum

/-- The free block that now holds `e` has taken in every block that touched it. -/
def Merged (c : System) (e : Extent) (c' : System) : Prop :=
  ∃ heads heads', ListSound c heads ∧ ListSound c' heads' ∧
    (∃ p ∈ heads', (∀ q, Covers e q → Covers (extentAt c'.area p) q) ∧
      ∀ f ∈ heads, Touches (extentAt c.area f) e →
        ∀ q, Covers (extentAt c.area f) q → Covers (extentAt c'.area p) q) ∧
    ∀ f ∈ heads', ¬Touches (extentAt c'.area f) e

/-- What a request is to leave behind. -/
def Keeps (c : System) (r : Request) (c' : System) : Prop :=
  (∃ heads, ListSound c' heads) ∧
    ∀ base n, r = .freePages base n → Merged c ⟨base, n⟩ c'

/-- No free block begins where another one ends. -/
def Coalesced (c : System) : Prop :=
  ∃ heads, ListSound c heads ∧
    ∀ p ∈ heads, ∀ q ∈ heads, p + (c.area.page p).property ≠ q

/-- The request does not link a block in behind the last one. -/
def LinksInFront (c : System) : Request → Prop
  | .initMemmap base _ => NotAtTail c.area base
  | .allocPages _ => True
  | .freePages base _ => NotAtTail c.area base

/-- The request does not add a region next to a free block. -/
def AddsApart (c : System) : Request → Prop
  | .initMemmap base n => ∀ heads, ListSound c heads →
      ∀ p ∈ heads, ¬Touches (extentAt c.area p) ⟨base, n⟩
  | .allocPages _ => True
  | .freePages _ _ => True

section Invariants

/-- The invariant of the manager, with the pages of the regions all accounted for. -/
structure Consistent (c : System) (free : List Extent) : Prop where
  invariant : Invariant c.area free c.live
  covers : ∀ q, CoversAny c.regions q ↔ CoversAny (free ++ c.live) q

variable {c : System} {free live : List Extent} {heads : List Nat} {s : FreeArea}

theorem extents_of_invariant (h : Invariant s free live) :
    (free.map Extent.base).map (extentAt s) = free := by
  rw [List.map_map]
  refine (List.map_congr_left fun e he => ?_).trans (List.map_id free)
  simp only [Function.comp, extentAt, h.property e he, id]

theorem listSound_of_consistent (h : Consistent c free) :
    ListSound c (free.map Extent.base) := by
  have hsound := @DefaultPmmRuns.sound_of_invariant ⟨c.area, c.live⟩ free h.invariant
  have hextents := extents_of_invariant h.invariant
  refine ⟨hsound.next, hsound.prev, hsound.ordered, ?_, ?_, ?_, hsound.disjoint,
    hsound.free_live, hsound.live_live, hsound.nrFree⟩
  · intro p hp
    obtain ⟨e, he, rfl⟩ := List.mem_map.mp hp
    rw [h.invariant.property e he]
    exact h.invariant.positive e (List.mem_append_left _ he)
  · intro q hq
    rw [hextents] at hq
    exact (h.covers q).mpr (coversAny_append.mpr (.inl hq))
  · intro q hq
    rw [hextents]
    exact coversAny_append.mp ((h.covers q).mp hq)

theorem heads_unique (h : Consistent c free) (hheads : ListSound c heads) :
    heads = free.map Extent.base := by
  have hlist := hheads.next.unique (listSound_of_consistent h).next
  exact List.map_injective_iff.mpr (fun _ _ heq => by simpa using heq) hlist

theorem not_listSound_of_prev_self {p : Nat}
    (hlast : listPrev c.area.links .freeList = .pageLink p)
    (hself : listPrev c.area.links (.pageLink p) = .pageLink p) :
    ¬∃ heads, ListSound c heads := by
  rintro ⟨heads, h⟩
  exact @DefaultPmmRuns.not_freeListSound_of_prev_self ⟨c.area, c.live⟩ p hlast hself
    ⟨heads, h.next, h.prev, h.ordered, h.disjoint, h.nrFree, h.free_live, h.live_live⟩

theorem coalesced_of_noneTouch (h : Consistent c free) (hnone : NoneTouch free) :
    Coalesced c := by
  refine ⟨_, listSound_of_consistent h, ?_⟩
  intro p hp q hq heq
  obtain ⟨e, he, rfl⟩ := List.mem_map.mp hp
  obtain ⟨f, hf, rfl⟩ := List.mem_map.mp hq
  rw [h.invariant.property e he] at heq
  exact hnone.not_touches h.invariant.ordered
    (fun e he => h.invariant.positive e (List.mem_append_left _ he)) he hf (.inl heq)

end Invariants

section Requests

variable {c : System} {free : List Extent}

theorem boot_consistent (s : FreeArea) : Consistent (boot s) [] :=
  ⟨DefaultPmmRuns.defaultInit_invariant s, by simp [boot]⟩

theorem initMemmap_consistent {base n : Nat} (h : Consistent c free)
    (hallowed : Allowed c (.initMemmap base n)) (htail : NotAtTail c.area base) :
    ∃ c' as bs, serve c (.initMemmap base n) = .ok c' ∧ free = as ++ bs ∧
      Consistent c' (as ++ ⟨base, n⟩ :: bs) := by
  obtain ⟨hn, hbound, hres⟩ := hallowed
  obtain ⟨s₁, hinit, hlinks, h₁, hfresh⟩ :=
    DefaultPmmRuns.initPages_fresh h.invariant hn hbound hres
  have htail₁ := (DefaultPmmRuns.notAtTail_congr hlinks base).mpr htail
  obtain ⟨s₂, as, bs, hlink, rfl, h₂⟩ := linkBlock_invariant h₁ hfresh htail₁
  have heq := @bestFitInitMemmap_eq_linkBlock c.area _ c.live ⟨base, n⟩ s₁ hn hinit h₁ htail₁
  refine ⟨⟨s₂, c.live, ⟨base, n⟩ :: c.regions⟩, as, bs, ?_, rfl, h₂, fun q => ?_⟩
  · simp only [serve, heq, hlink, ok_bind]
    rfl
  · have hcovers := h.covers q
    simp only [coversAny_append, coversAny_cons] at hcovers ⊢
    rw [hcovers]
    grind

theorem allocPages_consistent {n : Nat} (h : Consistent c free) (hn : 0 < n) :
    ∃ c' free', serve c (.allocPages n) = .ok c' ∧ Consistent c' free' ∧
      (NoneTouch free → NoneTouch free') := by
  rcases bestFitAllocPages_spec h.invariant.wellFormed hn with
    ⟨heq, _⟩ | ⟨front, e, back, rfl, hfit, _, _, heq⟩
  · refine ⟨c, free, ?_, h, id⟩
    simp only [serve, heq, ok_bind]
    rfl
  · obtain ⟨rest, hrest, htake⟩ := takePages_spec h.invariant hn hfit
    refine ⟨⟨takePages c.area e.base n, ⟨e.base, n⟩ :: c.live, c.regions⟩,
      front ++ rest ++ back, ?_, ⟨htake, fun q => ?_⟩, fun hnone => ?_⟩
    · simp only [serve, heq, ok_bind]
      rfl
    · have hcovers := h.covers q
      have hcut : Covers e q ↔ Covers ⟨e.base, n⟩ q ∨ CoversAny rest q := by
        rcases hrest with ⟨rfl, rfl⟩ | ⟨hlt, rfl⟩
        · simp
        · have hjoin := @covers_join e.base (e.size - n) n q
          rw [Nat.add_sub_cancel' hfit] at hjoin
          simpa using hjoin
      simp only [coversAny_append, coversAny_cons] at hcovers ⊢
      rw [hcovers, hcut]
      grind
    · rcases hrest with ⟨rfl, _⟩ | ⟨hlt, rfl⟩
      · rw [List.append_nil]
        exact hnone.sublist ((List.sublist_cons_self e back).append_left front)
      · rw [List.append_assoc, List.singleton_append]
        exact noneTouch_drop hnone h.invariant.ordered hn hfit

theorem freePages_consistent {base n : Nat} (h : Consistent c free)
    (hmem : ⟨base, n⟩ ∈ c.live) (htail : NotAtTail c.area base) :
    ∃ c' as bs as' j bs', serve c (.freePages base n) = .ok c' ∧ free = as ++ bs ∧
      (as ++ ⟨base, n⟩ :: bs).Pairwise Before ∧ (∀ f ∈ as ++ ⟨base, n⟩ :: bs, 0 < f.size) ∧
      JoinsLower as ⟨base, n⟩ as' j ∧ JoinsUpper ⟨base, n⟩ bs j bs' ∧
      Consistent c' (as' ++ j :: bs') := by
  have hperm := List.perm_cons_erase hmem
  obtain ⟨s₁, hreset, hlinks, h₁, hfresh⟩ :=
    DefaultPmmRuns.resetPages_fresh (h.invariant.perm_live hperm)
  have htail₁ := (DefaultPmmRuns.notAtTail_congr hlinks base).mpr htail
  obtain ⟨s₂, s₃, e', as, bs, as', j, bs', hlink, hlower, rfl, h₂, hlow, hup, h₃⟩ :=
    linkBlock_merge h₁ hfresh htail₁
  refine ⟨⟨mergeUpper s₃ e', c.live.erase ⟨base, n⟩, c.regions⟩, as, bs, as', j, bs', ?_, rfl,
    h₂.ordered, fun f hf => h₂.positive f (List.mem_append_left _ hf), hlow, hup, h₃,
    fun q => ?_⟩
  · have hn : 0 < n := hfresh.positive
    have heq : bestFitFreePages c.area base n = .ok (mergeUpper s₃ e') := by
      simp only [bestFitFreePages, hn, kassert_of, ok_bind, hreset, hlink, hlower]
      rfl
    simp only [serve, heq, ok_bind]
    rfl
  · have hcovers := h.covers q
    have hlive : CoversAny c.live q ↔ CoversAny (⟨base, n⟩ :: c.live.erase ⟨base, n⟩) q := by
      simp only [CoversAny, hperm.mem_iff]
    rw [coversAny_append, hlive] at hcovers
    rw [coversAny_append, coversAny_joined hlow hup, hcovers]
    simp only [coversAny_append, coversAny_cons]
    grind

/-- Linked in behind the last block, a region brings a block onto the list that
has no pages, or makes the count of the free pages wrong. -/
theorem initMemmap_tail {base n : Nat} (h : Consistent c free)
    (hallowed : Allowed c (.initMemmap base n)) (htail : ¬NotAtTail c.area base) :
    ∃ c', serve c (.initMemmap base n) = .ok c' ∧ ¬∃ heads, ListSound c' heads := by
  obtain ⟨hn, hbound, hres⟩ := hallowed
  obtain ⟨s₁, hinit, hlinks, h₁, hfresh⟩ :=
    DefaultPmmRuns.initPages_fresh h.invariant hn hbound hres
  obtain ⟨s₂, heq, hring, hnr, hprop, hbase⟩ :=
    @bestFitInitMemmap_tail c.area free c.live ⟨base, n⟩ s₁ hn hinit h₁ hfresh
      (fun hnot => htail ((DefaultPmmRuns.notAtTail_congr hlinks base).mp hnot))
  refine ⟨⟨s₂, c.live, ⟨base, n⟩ :: c.regions⟩, ?_, ?_⟩
  · simp only [serve, heq, ok_bind]
    rfl
  · rintro ⟨heads, hheads⟩
    have hmap : entries free ++ [.pageLink base, .pageLink (base + n)] =
        (free.map Extent.base ++ [base, base + n]).map Entry.pageLink := by
      simp [entries]
    have hlist := hheads.next.unique hring.visits_next
    rw [hmap] at hlist
    obtain rfl : heads = free.map Extent.base ++ [base, base + n] :=
      List.map_injective_iff.mpr (fun _ _ heq => by simpa using heq) hlist
    have hpos : 0 < (s₂.page (base + n)).property := hheads.positive (base + n) (by simp)
    have hsizes : (free.map Extent.base).map (fun p => (s₂.page p).property) =
        free.map Extent.size := by
      rw [List.map_map]
      exact List.map_congr_left hprop
    have hhead : (s₂.page base).property = n := hbase
    have hcount : s₂.nrFree = (free.map Extent.size).sum + n := hnr
    have hsum : s₂.nrFree = ((free.map Extent.base ++ [base, base + n]).map
        fun p => (s₂.page p).property).sum := hheads.nrFree
    rw [List.map_append, hsizes] at hsum
    simp only [List.sum_append, List.map_cons, List.map_nil, List.sum_cons, List.sum_nil,
      hhead, hcount] at hsum
    omega

theorem freePages_tail {base n : Nat} (h : Consistent c free) (hmem : ⟨base, n⟩ ∈ c.live)
    (htail : ¬NotAtTail c.area base) :
    ∃ c', serve c (.freePages base n) = .ok c' ∧ ¬∃ heads, ListSound c' heads := by
  obtain ⟨s', heq, hlast, hself⟩ := DefaultPmmRuns.defaultFreePages_tail
    (h.invariant.perm_live (List.perm_cons_erase hmem)) htail
  refine ⟨⟨s', c.live.erase ⟨base, n⟩, c.regions⟩, ?_,
    not_listSound_of_prev_self hlast hself⟩
  simp only [serve, bestFitFreePages_eq, heq, ok_bind]
  rfl

end Requests

section Runs

variable {c : System} {free : List Extent} {r : Request}

theorem merged_of_joins {c' : System} {as bs as' bs' : List Extent} {e j : Extent}
    (h : Consistent c (as ++ bs)) (hord : (as ++ e :: bs).Pairwise Before)
    (hpos : ∀ f ∈ as ++ e :: bs, 0 < f.size) (hlow : JoinsLower as e as' j)
    (hup : JoinsUpper e bs j bs') (h' : Consistent c' (as' ++ j :: bs')) : Merged c e c' := by
  have hold : ∀ f ∈ as ++ bs, extentAt c.area f.base = f := fun f hf => by
    rw [extentAt, h.invariant.property f hf]
  have hnew : ∀ f ∈ as' ++ j :: bs', extentAt c'.area f.base = f := fun f hf => by
    rw [extentAt, h'.invariant.property f hf]
  have hj : j ∈ as' ++ j :: bs' := by simp
  refine ⟨_, _, listSound_of_consistent h, listSound_of_consistent h',
    ⟨j.base, List.mem_map_of_mem hj, ?_, ?_⟩, ?_⟩
  · intro q hq
    rw [hnew j hj]
    exact covers_of_joins hlow hup hq
  · intro p hp ht q hq
    obtain ⟨f, hf, rfl⟩ := List.mem_map.mp hp
    rw [hold f hf] at ht hq
    rw [hnew j hj]
    exact within_of_touches hlow hup hord hpos hf ht hq
  · intro p hp
    obtain ⟨f, hf, rfl⟩ := List.mem_map.mp hp
    rw [hnew f hf]
    exact not_touches_joined hlow hup hord hpos hf

/-- One request away from the tail keeps the list in order, and without blocks that
touch if it adds none. -/
theorem serve_consistent (h : Consistent c free) (hallowed : Allowed c r)
    (hfront : LinksInFront c r) :
    ∃ c' free', serve c r = .ok c' ∧ Consistent c' free' ∧ Keeps c r c' ∧
      (AddsApart c r → NoneTouch free → NoneTouch free') := by
  match r with
  | .initMemmap base n =>
      obtain ⟨c', as, bs, heq, rfl, h'⟩ := initMemmap_consistent h hallowed hfront
      refine ⟨c', _, heq, h', ⟨⟨_, listSound_of_consistent h'⟩, by simp⟩, ?_⟩
      intro hapart hnone
      have hsep : ∀ f ∈ as ++ bs, ¬Touches f ⟨base, n⟩ := by
        intro f hf
        have hf' := hapart _ (listSound_of_consistent h) f.base (List.mem_map_of_mem hf)
        rwa [extentAt, h.invariant.property f hf] at hf'
      obtain ⟨has, hbs, hcross⟩ := List.pairwise_append.mp hnone
      refine List.pairwise_append.mpr ⟨has, List.pairwise_cons.mpr ⟨?_, hbs⟩, ?_⟩
      · exact fun b hb heq => hsep b (List.mem_append_right _ hb) (.inr heq)
      · intro a ha b hb
        rcases List.mem_cons.mp hb with rfl | hb
        · exact fun heq => hsep a (List.mem_append_left _ ha) (.inl heq)
        · exact hcross a ha b hb
  | .allocPages n =>
      obtain ⟨c', free', heq, h', hnone⟩ := allocPages_consistent h hallowed
      exact ⟨c', free', heq, h', ⟨⟨_, listSound_of_consistent h'⟩, by simp⟩, fun _ => hnone⟩
  | .freePages base n =>
      obtain ⟨c', as, bs, as', j, bs', heq, rfl, hord, hpos, hlow, hup, h'⟩ :=
        freePages_consistent h hallowed hfront
      refine ⟨c', _, heq, h', ⟨⟨_, listSound_of_consistent h'⟩, ?_⟩,
        fun _ => noneTouch_joined hlow hup⟩
      rintro base' n' ⟨⟩
      exact merged_of_joins h hord hpos hlow hup h'

theorem serve_tail (h : Consistent c free) (hallowed : Allowed c r)
    (htail : ¬LinksInFront c r) :
    ∃ c', serve c r = .ok c' ∧ ¬∃ heads, ListSound c' heads := by
  match r with
  | .initMemmap base n => exact initMemmap_tail h hallowed htail
  | .allocPages n => exact absurd trivial htail
  | .freePages base n => exact freePages_tail h hallowed htail

theorem run_consistent {s : FreeArea} (hrun : Run LinksInFront (boot s) c) :
    ∃ free, Consistent c free := by
  induction hrun with
  | refl => exact ⟨[], boot_consistent s⟩
  | step _ hallowed hfront heq ih =>
      obtain ⟨free, h⟩ := ih
      obtain ⟨c', free', heq', h', _⟩ := serve_consistent h hallowed hfront
      obtain rfl := Except.ok.inj (heq.symm.trans heq')
      exact ⟨free', h'⟩

theorem run_noneTouch {s : FreeArea}
    (hrun : Run (fun c r => LinksInFront c r ∧ AddsApart c r) (boot s) c) :
    ∃ free, Consistent c free ∧ NoneTouch free := by
  induction hrun with
  | refl => exact ⟨[], boot_consistent s, List.Pairwise.nil⟩
  | step _ hallowed hguard heq ih =>
      obtain ⟨free, h, hnone⟩ := ih
      obtain ⟨c', free', heq', h', _, htouch⟩ := serve_consistent h hallowed hguard.1
      obtain rfl := Except.ok.inj (heq.symm.trans heq')
      exact ⟨free', h', htouch hguard.2 hnone⟩

/-- In every run that links its blocks in front of a later one or into an empty list
the free list is sound, and one more request leaves behind what it is to leave exactly
when it links its block in the same way. Blocks that touch are there only where a
region was added next to a free block. -/
theorem keeps_iff_linksInFront {s : FreeArea} :
    (∀ c, Run LinksInFront (boot s) c → (∃ heads, ListSound c heads) ∧
      ∀ r, Allowed c r → (LinksInFront c r ↔ ∃ c', serve c r = .ok c' ∧ Keeps c r c')) ∧
    ∀ c, Run (fun c r => LinksInFront c r ∧ AddsApart c r) (boot s) c → Coalesced c := by
  refine ⟨fun c hrun => ?_, fun c hrun => ?_⟩
  · obtain ⟨free, h⟩ := run_consistent hrun
    refine ⟨⟨_, listSound_of_consistent h⟩, fun r hallowed => ⟨fun hfront => ?_, ?_⟩⟩
    · obtain ⟨c', _, heq, _, hkeeps, _⟩ := serve_consistent h hallowed hfront
      exact ⟨c', heq, hkeeps⟩
    · rintro ⟨c', heq, hkeeps⟩
      by_contra htail
      obtain ⟨c'', heq', hnot⟩ := serve_tail h hallowed htail
      obtain rfl := Except.ok.inj (heq.symm.trans heq')
      exact hnot hkeeps.1
  · obtain ⟨free, h, hnone⟩ := run_noneTouch hrun
    exact coalesced_of_noneTouch h hnone

end Runs

theorem keeps_after_first_region :
    ∃ c c', serve (boot reservedPages) (.initMemmap 0 4) = .ok c ∧ Coalesced c ∧
      serve c (.allocPages 2) = .ok c' ∧ Keeps c (.allocPages 2) c' := by
  have hboot := boot_consistent reservedPages
  have hallowed : Allowed (boot reservedPages) (.initMemmap 0 4) :=
    ⟨by decide, by decide, fun _ _ _ => testBit_setBit_self (by decide) 0⟩
  have hfront : LinksInFront (boot reservedPages) (.initMemmap 0 4) := by
    intro p hp
    simp [boot, bestFitInit, listInit, listPrev] at hp
  have hapart : AddsApart (boot reservedPages) (.initMemmap 0 4) := by
    intro heads hheads p hp
    rw [heads_unique hboot hheads] at hp
    exact absurd hp List.not_mem_nil
  obtain ⟨hfirst, hsecond⟩ := @keeps_iff_linksInFront reservedPages
  obtain ⟨c, heq, _⟩ := ((hfirst _ .refl).2 (.initMemmap 0 4) hallowed).mp hfront
  obtain ⟨c', heq', hkeeps⟩ := ((hfirst c (.step .refl hallowed hfront heq)).2 (.allocPages 2)
    Nat.zero_lt_two).mp trivial
  exact ⟨c, c', heq, hsecond c (.step .refl hallowed ⟨hfront, hapart⟩ heq), heq', hkeeps⟩

/-- Two regions, the second one above the first, break the list. -/
theorem not_listSound_of_regions :
    ¬∀ s c, Run (fun _ _ => True) (boot s) c → ∃ heads, ListSound c heads := by
  intro hall
  have h₁ : Allowed (boot reservedPages) (.initMemmap 0 2) :=
    ⟨by decide, by decide, fun _ _ _ => testBit_setBit_self (by decide) 0⟩
  have hfront : LinksInFront (boot reservedPages) (.initMemmap 0 2) := by
    intro p hp
    simp [boot, bestFitInit, listInit, listPrev] at hp
  obtain ⟨c₁, free, heq, h, _⟩ := serve_consistent (boot_consistent reservedPages) h₁ hfront
  obtain ⟨hlast, hres⟩ : listPrev c₁.area.links .freeList = .pageLink 0 ∧
      ∀ p, 4 ≤ p → p < 4 + 2 → pageReserved c₁.area p = true := by
    obtain rfl : _ = c₁ := Except.ok.inj heq
    refine ⟨rfl, ?_⟩
    intro p hp hp'
    obtain rfl | rfl : p = 4 ∨ p = 5 := by omega
    · rfl
    · rfl
  have h₂ : Allowed c₁ (.initMemmap 4 2) := ⟨by decide, by decide, hres⟩
  have htail : ¬LinksInFront c₁ (.initMemmap 4 2) :=
    fun hfront => absurd (hfront 0 hlast) (by decide)
  obtain ⟨c₂, heq₂, hnot⟩ := serve_tail h h₂ htail
  exact hnot (hall reservedPages c₂ (.step (.step .refl h₁ trivial heq) h₂ trivial heq₂))

end Ucore.BestFitPmmRuns
