import Ucore.BestFitPmm

namespace Ucore.FreeListFits

open Ucore.LinkRing
open Ucore.ListHeader
open Ucore.DefaultPmm
open Ucore.Extents
open Ucore.ExtentLists
open Ucore.DefaultPmmInvariant
open Ucore.DefaultPmmSteps
open Ucore.BestFitPmm

variable {s s' : FreeArea} {as bs free : List Extent} {e : Extent} {n : Nat}

/-- What is left of the block `e` when its first `n` pages are taken. -/
def remainder (e : Extent) (n : Nat) : List Extent :=
  if n < e.size then [⟨e.base + n, e.size - n⟩] else []

/-- `s'` is `s` without the first `n` pages of the block `e`, whose remainder stands
where `e` stood, between `as` and `bs`. -/
structure Carved (s : FreeArea) (as : List Extent) (e : Extent) (bs : List Extent) (n : Nat)
    (s' : FreeArea) : Prop where
  wellFormed : WellFormed s' (as ++ remainder e n ++ bs)
  nrFree : s'.nrFree + n = s.nrFree
  taken : ∀ p, Covers ⟨e.base, n⟩ p → CoversAny (as ++ e :: bs) p
  pages : ∀ p, CoversAny (as ++ remainder e n ++ bs) p ↔
    CoversAny (as ++ e :: bs) p ∧ ¬Covers ⟨e.base, n⟩ p

theorem mem_remainder {f : Extent} (h : f ∈ remainder e n) :
    n < e.size ∧ f = ⟨e.base + n, e.size - n⟩ := by
  unfold remainder at h
  by_cases hlt : n < e.size
  · exact ⟨hlt, by simpa [hlt] using h⟩
  · simp [hlt] at h

theorem sum_remainder (hle : n ≤ e.size) :
    ((remainder e n).map Extent.size).sum = e.size - n := by
  unfold remainder
  by_cases hlt : n < e.size
  · simp [hlt]
  · simp [hlt]
    omega

/-- The block's pages are the ones taken and the ones of the remainder. -/
theorem covers_carved (hle : n ≤ e.size) (p : Nat) :
    Covers e p ↔ Covers ⟨e.base, n⟩ p ∨ CoversAny (remainder e n) p := by
  unfold remainder
  by_cases hlt : n < e.size
  · have hjoin := @covers_join e.base (e.size - n) n p
    rw [Nat.add_sub_cancel' hle] at hjoin
    simpa [hlt] using hjoin
  · obtain rfl : n = e.size := by omega
    simp

/-- A page that stays free is not among the ones taken. -/
theorem not_covers_taken (hord : (as ++ e :: bs).Pairwise Before) (hle : n ≤ e.size) {p : Nat}
    (h : CoversAny (as ++ remainder e n ++ bs) p) : ¬Covers ⟨e.base, n⟩ p := by
  rw [List.pairwise_append, List.pairwise_cons] at hord
  obtain ⟨_, ⟨hafter, _⟩, hbefore⟩ := hord
  rintro ⟨hp₁, hp₂⟩
  simp only at hp₁ hp₂
  rw [coversAny_append, coversAny_append] at h
  rcases h with (⟨f, hf, hfp⟩ | ⟨f, hf, hfp⟩) | ⟨f, hf, hfp⟩
  · have hfe := hbefore f hf e List.mem_cons_self
    simp only [Before, Covers] at hfe hfp
    omega
  · obtain ⟨_, rfl⟩ := mem_remainder hf
    simp only [Covers] at hfp
    omega
  · have hef := hafter f hf
    simp only [Before, Covers] at hef hfp
    omega

theorem pages_carved (hord : (as ++ e :: bs).Pairwise Before) (hle : n ≤ e.size) (p : Nat) :
    CoversAny (as ++ remainder e n ++ bs) p ↔
      CoversAny (as ++ e :: bs) p ∧ ¬Covers ⟨e.base, n⟩ p := by
  have hcut := covers_carved hle p
  constructor
  · intro h
    refine ⟨?_, not_covers_taken hord hle h⟩
    simp only [coversAny_append, coversAny_cons] at h ⊢
    tauto
  · rintro ⟨h, hnot⟩
    simp only [coversAny_append, coversAny_cons] at h ⊢
    tauto

theorem ordered_carved (hord : (as ++ e :: bs).Pairwise Before) (hle : n ≤ e.size) :
    (as ++ remainder e n ++ bs).Pairwise Before := by
  unfold remainder
  by_cases hlt : n < e.size
  · have hdrop := @ordered_drop as bs e.base e.size n hord hle
    simpa [hlt] using hdrop
  · rw [if_neg hlt, List.append_nil]
    exact hord.sublist ((List.sublist_cons_self e bs).append_left as)

/-- The other blocks begin outside the block `e`. -/
theorem base_outside (h : WellFormed s (as ++ e :: bs)) {f : Extent} (hf : f ∈ as ++ bs) :
    f.base < e.base ∨ e.base + e.size ≤ f.base := by
  have hord := h.ordered
  rw [List.pairwise_append, List.pairwise_cons] at hord
  obtain ⟨_, ⟨hafter, _⟩, hbefore⟩ := hord
  rcases List.mem_append.mp hf with hf | hf
  · left
    exact (hbefore f hf e List.mem_cons_self).base_lt (h.positive f (by simp [hf]))
  · right
    exact hafter f hf

theorem base_le_of_behind (h : WellFormed s (as ++ e :: bs)) {f : Extent}
    (hf : f = e ∨ f ∈ bs) : e.base ≤ f.base := by
  rcases hf with rfl | hf
  · exact le_rfl
  · have hord := h.ordered
    rw [List.pairwise_append, List.pairwise_cons] at hord
    have hef := hord.2.1.1 f hf
    simp only [Before] at hef
    omega

theorem takePages_ring (h : WellFormed s (as ++ e :: bs)) (hn : 0 < n) :
    RingList (takePages s e.base n).links .freeList (entries (as ++ remainder e n ++ bs)) := by
  have hprop : (s.page e.base).property = e.size := h.property e (by simp)
  have hring := h.ring
  rw [entries_append, entries_cons] at hring
  have hprev : listPrev s.links (.pageLink e.base) = lastOf .freeList (entries as) :=
    hring.prev_mem
  have hdel := ring_listDel hring
  unfold remainder
  by_cases hlt : n < e.size
  · have hfresh : Entry.pageLink (e.base + n) ∉ .freeList :: (entries as ++ entries bs) := by
      rw [← entries_append, List.mem_cons, mem_entries, not_or]
      refine ⟨by simp, ?_⟩
      rintro ⟨f, hf, heq⟩
      have hout := base_outside h hf
      omega
    have hadd := ring_listAdd hdel hfresh
    rw [← hprev] at hadd
    simp only [takePages, hprop, hlt, if_true, entries_append, entries_cons,
      List.append_assoc, List.singleton_append]
    exact hadd
  · simp only [takePages, hprop, hlt, if_false, List.append_nil, entries_append]
    exact hdel

theorem takePages_property (h : WellFormed s (as ++ e :: bs)) {f : Extent}
    (hf : f ∈ as ++ remainder e n ++ bs) :
    ((takePages s e.base n).page f.base).property = f.size := by
  have hprop : (s.page e.base).property = e.size := h.property e (by simp)
  have hbound := h.bounded e (by simp)
  by_cases hlt : n < e.size
  · simp only [takePages, hprop, hlt, if_true, clearPageProperty_property]
    change ((setPageProperty (setProperty s (e.base + n) (e.size - n)) (e.base + n)).page
      f.base).property = f.size
    rw [setPageProperty_property]
    have hcases : f ∈ remainder e n ∨ f ∈ as ++ bs := by
      simp only [List.mem_append] at hf ⊢
      tauto
    rcases hcases with hf | hf
    · obtain ⟨_, rfl⟩ := mem_remainder hf
      rw [setProperty_property_self]
      exact toUint_of_le (by omega)
    · have hout := base_outside h hf
      rw [setProperty_page_ne (by omega)]
      refine h.property f ?_
      simp only [List.mem_append, List.mem_cons] at hf ⊢
      tauto
  · simp only [takePages, hprop, hlt, if_false, clearPageProperty_property]
    refine h.property f ?_
    simp only [remainder, hlt, if_false, List.mem_append, List.mem_cons] at hf ⊢
    tauto

theorem takePages_nrFree : (takePages s e.base n).nrFree = s.nrFree - n := by
  unfold takePages
  by_cases hlt : n < (s.page e.base).property
  · simp only [hlt, if_true]
    rfl
  · simp only [hlt, if_false]
    rfl

theorem takePages_carved (h : WellFormed s (as ++ e :: bs)) (hn : 0 < n) (hle : n ≤ e.size) :
    Carved s as e bs n (takePages s e.base n) := by
  have hsum : s.nrFree = (as.map Extent.size).sum + (e.size + (bs.map Extent.size).sum) := by
    simpa using h.nrFree
  have hpages := pages_carved h.ordered hle
  refine ⟨⟨takePages_ring h hn, fun f hf => takePages_property h hf,
    ordered_carved h.ordered hle, ?_, ?_, ?_⟩, ?_, ?_, hpages⟩
  · intro f hf
    simp only [List.mem_append] at hf
    rcases hf with (hf | hf) | hf
    · exact h.positive f (by simp [hf])
    · obtain ⟨hlt, rfl⟩ := mem_remainder hf
      exact Nat.sub_pos_of_lt hlt
    · exact h.positive f (by simp [hf])
  · intro f hf
    simp only [List.mem_append] at hf
    rcases hf with (hf | hf) | hf
    · exact h.bounded f (by simp [hf])
    · obtain ⟨hlt, rfl⟩ := mem_remainder hf
      have hbound := h.bounded e (by simp)
      simp only
      omega
    · exact h.bounded f (by simp [hf])
  · rw [takePages_nrFree, hsum]
    simp only [List.map_append, List.sum_append, sum_remainder hle]
    omega
  · rw [takePages_nrFree]
    omega
  · intro p hp
    rw [coversAny_append, coversAny_cons, covers_carved hle p]
    exact .inr (.inl (.inl hp))

/-- `default_alloc_pages` is first fit. -/
theorem defaultAllocPages_firstFit (h : WellFormed s free) (hn : 1 ≤ n) :
    ((∀ e ∈ free, e.size < n) → defaultAllocPages s n = .ok (none, s)) ∧
      ((∃ e ∈ free, n ≤ e.size) →
        ∃ as e bs s', free = as ++ e :: bs ∧ n ≤ e.size ∧
          (∀ f ∈ free, n ≤ f.size → e.base ≤ f.base) ∧
          defaultAllocPages s n = .ok (some e.base, s') ∧ Carved s as e bs n s') := by
  rcases defaultAllocPages_spec h hn with
    ⟨heq, hnone⟩ | ⟨front, e, back, rfl, hfit, hfront, heq⟩
  · refine ⟨fun _ => heq, ?_⟩
    rintro ⟨e, he, hle⟩
    exact absurd (hnone e he) (by omega)
  · constructor
    · intro hall
      exact absurd (hall e (by simp)) (by omega)
    · intro _
      refine ⟨front, e, back, takePages s e.base n, rfl, hfit, ?_, heq,
        takePages_carved h hn hfit⟩
      intro f hf hle
      have hnot : f ∉ front := fun hmem => absurd (hfront f hmem) (by omega)
      have hmem : f = e ∨ f ∈ back := by
        simp only [List.mem_append, List.mem_cons] at hf
        tauto
      exact base_le_of_behind h hmem

/-- `best_fit_alloc_pages` is best fit, and the first of the best blocks in address order. -/
theorem bestFitAllocPages_bestFit (h : WellFormed s free) (hn : 1 ≤ n) :
    ((∀ e ∈ free, e.size < n) → bestFitAllocPages s n = .ok (none, s)) ∧
      ((∃ e ∈ free, n ≤ e.size) →
        ∃ as e bs s', free = as ++ e :: bs ∧ n ≤ e.size ∧
          (∀ f ∈ free, n ≤ f.size → e.size ≤ f.size ∧ (f.size = e.size → e.base ≤ f.base)) ∧
          bestFitAllocPages s n = .ok (some e.base, s') ∧ Carved s as e bs n s') := by
  rcases bestFitAllocPages_spec h hn with
    ⟨heq, hnone⟩ | ⟨front, e, back, rfl, hfit, hfront, hback, heq⟩
  · refine ⟨fun _ => heq, ?_⟩
    rintro ⟨e, he, hle⟩
    exact absurd (hnone e he) (by omega)
  · constructor
    · intro hall
      exact absurd (hall e (by simp)) (by omega)
    · intro _
      refine ⟨front, e, back, takePages s e.base n, rfl, hfit, ?_, heq,
        takePages_carved h hn hfit⟩
      intro f hf hle
      rcases List.mem_append.mp hf with hf | hf
      · have hlt := hfront f hf hle
        exact ⟨hlt.le, fun heq => absurd heq (by omega)⟩
      · have hmem : f = e ∨ f ∈ back := List.mem_cons.mp hf
        refine ⟨?_, fun _ => base_le_of_behind h hmem⟩
        rcases hmem with rfl | hf
        · exact le_rfl
        · exact hback f hf hle

/-- Three free blocks, of which the last two have the same size. -/
def threeBlocks : FreeArea where
  page p := ⟨0, 2, if p = 1 then 2 else 4⟩
  links := ⟨fun
      | .freeList => .pageLink 1
      | .pageLink p => if p = 1 then .pageLink 5 else if p = 5 then .pageLink 20 else .freeList,
    fun
      | .freeList => .pageLink 20
      | .pageLink p => if p = 20 then .pageLink 5 else if p = 5 then .pageLink 1 else .freeList⟩
  nrFree := 10

def threeExtents : List Extent :=
  [⟨1, 2⟩, ⟨5, 4⟩, ⟨20, 4⟩]

theorem threeBlocks_wellFormed : WellFormed threeBlocks threeExtents := by
  refine ⟨?_, by decide, ?_, by decide, by decide, by decide⟩
  · simp [RingList, LinkedTo, threeExtents, threeBlocks]
  · simp [threeExtents, Before]

theorem defaultAllocPages_firstFit_threeBlocks :
    ∃ as e bs s', threeExtents = as ++ e :: bs ∧ 3 ≤ e.size ∧
      (∀ f ∈ threeExtents, 3 ≤ f.size → e.base ≤ f.base) ∧
      defaultAllocPages threeBlocks 3 = .ok (some e.base, s') ∧
      Carved threeBlocks as e bs 3 s' :=
  (defaultAllocPages_firstFit threeBlocks_wellFormed (by decide)).2 ⟨⟨5, 4⟩, by decide, by decide⟩

theorem bestFitAllocPages_bestFit_threeBlocks :
    ∃ as e bs s', threeExtents = as ++ e :: bs ∧ 2 ≤ e.size ∧
      (∀ f ∈ threeExtents, 2 ≤ f.size → e.size ≤ f.size ∧ (f.size = e.size → e.base ≤ f.base)) ∧
      bestFitAllocPages threeBlocks 2 = .ok (some e.base, s') ∧
      Carved threeBlocks as e bs 2 s' :=
  (bestFitAllocPages_bestFit threeBlocks_wellFormed (by decide)).2
    ⟨⟨1, 2⟩, by decide, by decide⟩

end Ucore.FreeListFits
