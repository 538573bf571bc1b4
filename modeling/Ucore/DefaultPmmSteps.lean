import Ucore.DefaultPmmInvariant
import Ucore.ExtentLists

namespace Ucore.DefaultPmmSteps

open Ucore.LinkRing
open Ucore.ListHeader
open Ucore.Panic
open Ucore.DefaultPmm
open Ucore.Extents
open Ucore.ExtentLists
open Ucore.DefaultPmmInvariant

section Linking

/-- The insertion loop stops in front of the first block above `base`. -/
theorem linkLoop_before {links : Links Entry} {base : Nat} :
    ∀ {rest as : List Extent} {fuel : Nat},
      RingList links .freeList (entries (as ++ rest)) →
      (∃ e ∈ rest, base < e.base) → rest.length < fuel →
      ∃ mid last suffix, rest = mid ++ last :: suffix ∧
        (∀ e ∈ mid, ¬base < e.base) ∧ base < last.base ∧
        linkLoop base fuel links (lastOf .freeList (entries as)) =
          .ok (listAddBefore links (.pageLink last.base) (.pageLink base)) := by
  intro rest
  induction rest with
  | nil =>
      rintro as fuel _ ⟨e, he, _⟩ _
      simp at he
  | cons e rest ih =>
      intro as fuel hring hex hfuel
      obtain ⟨fuel, rfl⟩ : ∃ k, fuel = k + 1 := ⟨fuel - 1, by simp at hfuel; omega⟩
      have hnext : listNext links (lastOf .freeList (entries as)) = .pageLink e.base := by
        rw [entries_append] at hring
        exact hring.next_lastOf
      rw [linkLoop, hnext]
      by_cases hlt : base < e.base
      · refine ⟨[], e, rest, rfl, by simp, hlt, ?_⟩
        simp [hlt]
      · have hex' : ∃ f ∈ rest, base < f.base := by
          obtain ⟨f, hf, hbf⟩ := hex
          rcases List.mem_cons.mp hf with rfl | hf
          · exact absurd hbf hlt
          · exact ⟨f, hf, hbf⟩
        have hnext' : listNext links (.pageLink e.base) ≠ .freeList := by
          have hmem := hring
          rw [entries_append, entries_cons] at hmem
          rw [listNext, hmem.next_mem]
          obtain ⟨f, hf, _⟩ := hex'
          cases rest with
          | nil => simp at hf
          | cons g rest => simp
        have hring' : RingList links .freeList (entries ((as ++ [e]) ++ rest)) := by
          simpa using hring
        obtain ⟨mid, last, suffix, hsplit, hmid, hlast, heq⟩ :=
          @ih (as ++ [e]) fuel hring' hex' (by simp at hfuel; omega)
        refine ⟨e :: mid, last, suffix, by simp [hsplit], ?_, hlast, ?_⟩
        · intro f hf
          rcases List.mem_cons.mp hf with rfl | hf
          · exact hlt
          · exact hmid f hf
        · simpa [hlt, hnext'] using heq

/-- Above every block the loop links `base` behind the last one, meets it in
the next round, and links it behind itself. -/
theorem linkLoop_tail {base : Nat} :
    ∀ {rest as : List Extent} {links : Links Entry} {fuel : Nat},
      RingList links .freeList (entries (as ++ rest)) →
      rest ≠ [] → (∀ e ∈ rest, ¬base < e.base) →
      Entry.pageLink base ∉ entries (as ++ rest) → rest.length + 2 ≤ fuel →
      linkLoop base fuel links (lastOf .freeList (entries as)) =
        .ok (listAdd
          (listAdd links (lastOf .freeList (entries (as ++ rest))) (.pageLink base))
          (.pageLink base) (.pageLink base)) := by
  intro rest
  induction rest with
  | nil =>
      intro as links fuel _ hne
      exact absurd rfl hne
  | cons e rest ih =>
      intro as links fuel hring _ hall hfresh hfuel
      obtain ⟨fuel, rfl⟩ : ∃ k, fuel = k + 1 := ⟨fuel - 1, by simp at hfuel; omega⟩
      have hnext : listNext links (lastOf .freeList (entries as)) = .pageLink e.base := by
        rw [entries_append] at hring
        exact hring.next_lastOf
      have hlt : ¬base < e.base := hall e (by simp)
      have hring' : RingList links .freeList (entries ((as ++ [e]) ++ rest)) := by
        simpa using hring
      rw [linkLoop, hnext]
      cases rest with
      | nil =>
          have hend : listNext links (.pageLink e.base) = .freeList := by
            have hmem := hring
            rw [entries_append, entries_cons] at hmem
            rw [listNext, hmem.next_mem]
            rfl
          obtain ⟨fuel, rfl⟩ : ∃ k, fuel = k + 2 := ⟨fuel - 2, by simp at hfuel; omega⟩
          have hlinked : RingList (listAdd links (.pageLink e.base) (.pageLink base))
              .freeList (entries (as ++ [e]) ++ [.pageLink base]) := by
            have hbase : Entry.pageLink base ∉
                Entry.freeList :: (entries (as ++ [e]) ++ []) := by
              simpa using hfresh
            have hadd := ring_listAdd (by simpa using hring) hbase
            simpa using hadd
          have hnextE : listNext (listAdd links (.pageLink e.base) (.pageLink base))
              (.pageLink e.base) = .pageLink base := by
            have := hlinked.next_lastOf
            simpa [listNext] using this
          have hnextB : listNext (listAdd links (.pageLink e.base) (.pageLink base))
              (.pageLink base) = .freeList := by
            have := hlinked.next_mem
            simpa [listNext] using this
          have hself : listNext
              (listAdd (listAdd links (.pageLink e.base) (.pageLink base))
                (.pageLink base) (.pageLink base))
              (.pageLink base) = .freeList := by
            rw [listNext] at hnextB
            simp [listNext, listAdd, listAddAfter, listAddEntry, Links.insertBetween]
              at hnextB ⊢
            simp [hnextB]
          simp [hlt, hend, linkLoop, hnextE, hnextB, hself]
      | cons f rest =>
          have hmid : listNext links (.pageLink e.base) = .pageLink f.base := by
            have hmem := hring
            rw [entries_append, entries_cons] at hmem
            rw [listNext, hmem.next_mem]
            rfl
          have hrec := @ih (as ++ [e]) links fuel hring' (by simp)
            (fun g hg => hall g (by simp [hg])) (by simpa using hfresh)
            (by simp at hfuel ⊢; omega)
          simpa [hlt, hmid] using hrec

end Linking

section Insertion

/-- An extent outside the manager whose pages carry no flag. -/
structure Fresh (s : FreeArea) (free live : List Extent) (e : Extent) : Prop where
  positive : 0 < e.size
  bounded : e.base + e.size ≤ npages
  apart : ∀ f ∈ free ++ live, Apart e f
  unreserved : ∀ p, Covers e p → pageReserved s p = false
  unmarked : ∀ p, Covers e p → pageProperty s p = false

theorem Fresh.base_ne {s : FreeArea} {free live : List Extent} {e f : Extent}
    (h : Invariant s free live) (hfresh : Fresh s free live e) (hf : f ∈ free ++ live) :
    f.base ≠ e.base := by
  intro heq
  have hcov := (hfresh.apart f hf).not_covers (covers_base hfresh.positive)
  rw [← heq] at hcov
  exact hcov (covers_base (h.positive f hf))

/-- A fresh extent put at its place in the order keeps the invariant. -/
theorem insert_invariant {s : FreeArea} {as bs live : List Extent} {e : Extent}
    {links : Links Entry} (h : Invariant s (as ++ bs) live)
    (hfresh : Fresh s (as ++ bs) live e)
    (has : ∀ a ∈ as, Before a e) (hbs : ∀ b ∈ bs, Before e b)
    (hring : RingList links .freeList (entries (as ++ e :: bs))) :
    Invariant
      { addNrFree (setPageProperty (setProperty s e.base e.size) e.base) e.size with
        links := links }
      (as ++ e :: bs) live := by
  have hmem : ∀ f ∈ (as ++ e :: bs) ++ live, f = e ∨ f ∈ (as ++ bs) ++ live := by
    intro f hf
    simp only [List.mem_append, List.mem_cons] at hf ⊢
    tauto
  have hne : ∀ f ∈ (as ++ bs) ++ live, f.base ≠ e.base := fun f hf =>
    hfresh.base_ne h hf
  refine ⟨hring, ?_, ?_, ?_, ?_, ?_, ?_, ?_, ?_⟩
  · intro f hf
    change ((setPageProperty (setProperty s e.base e.size) e.base).page f.base).property = _
    rw [setPageProperty_property]
    rcases hmem f (List.mem_append_left _ hf) with rfl | hf'
    · rw [setProperty_property_self]
      have := hfresh.bounded
      exact toUint_of_le (by omega)
    · rw [setProperty_page_ne (hne f hf')]
      have hf'' : f ∈ as ++ bs ∨ f = e := by
        simp only [List.mem_append, List.mem_cons] at hf ⊢
        tauto
      rcases hf'' with hf'' | rfl
      · exact h.property f hf''
      · exact absurd rfl (hne f hf')
  · rw [List.pairwise_append, List.pairwise_cons]
    have hord := List.pairwise_append.mp h.ordered
    refine ⟨hord.1, ⟨hbs, hord.2.1⟩, ?_⟩
    intro a ha b hb
    rcases List.mem_cons.mp hb with rfl | hb
    · exact has a ha
    · exact hord.2.2 a ha b hb
  · have hnr := h.nrFree
    have hordered : (as ++ e :: bs).Pairwise Before := by
      rw [List.pairwise_append, List.pairwise_cons]
      have hord := List.pairwise_append.mp h.ordered
      refine ⟨hord.1, ⟨hbs, hord.2.1⟩, ?_⟩
      intro a ha b hb
      rcases List.mem_cons.mp hb with rfl | hb
      · exact has a ha
      · exact hord.2.2 a ha b hb
    have hsum := @sum_size_le _ npages hordered (by
      intro f hf
      rcases hmem f (List.mem_append_left _ hf) with rfl | hf'
      · exact hfresh.bounded
      · exact h.bounded f hf')
    simp only [List.map_append, List.map_cons, List.sum_append, List.sum_cons]
      at hnr hsum ⊢
    change toUint (s.nrFree + e.size) = _
    rw [toUint_of_le (by omega)]
    omega
  · have hsplit : (as ++ e :: bs) ++ live = as ++ e :: (bs ++ live) := by simp
    rw [hsplit]
    refine (List.pairwise_middle fun hab => Apart.symm hab).mpr ?_
    rw [List.pairwise_cons]
    have hpair := h.apart
    rw [List.append_assoc] at hpair
    refine ⟨fun f hf => hfresh.apart f (by simpa using hf), hpair⟩
  · intro f hf
    rcases hmem f hf with rfl | hf
    · exact hfresh.positive
    · exact h.positive f hf
  · intro f hf
    rcases hmem f hf with rfl | hf
    · exact hfresh.bounded
    · exact h.bounded f hf
  · intro f hf p hp
    change pageReserved (setPageProperty (setProperty s e.base e.size) e.base) p = false
    rw [pageReserved_setPageProperty, pageReserved_setProperty]
    rcases hmem f hf with rfl | hf
    · exact hfresh.unreserved p hp
    · exact h.unreserved f hf p hp
  · intro f hf p hp
    change pageProperty (setPageProperty (setProperty s e.base e.size) e.base) p = true ↔ _
    rw [pageProperty_setPageProperty_iff, pageProperty_setProperty]
    constructor
    · rintro (rfl | hmark)
      · exact ⟨e, by simp, rfl⟩
      · rcases hmem f hf with rfl | hf
        · rw [hfresh.unmarked p hp] at hmark
          exact absurd hmark (by decide)
        · obtain ⟨k, hk, rfl⟩ := (h.heads f hf p hp).mp hmark
          refine ⟨k, ?_, rfl⟩
          simp only [List.mem_append, List.mem_cons] at hk ⊢
          tauto
    · rintro ⟨k, hk, rfl⟩
      have hk' : k = e ∨ k ∈ as ++ bs := by
        simp only [List.mem_append, List.mem_cons] at hk ⊢
        tauto
      rcases hk' with rfl | hk'
      · exact Or.inl rfl
      · right
        exact (h.heads k (List.mem_append_left _ hk') k.base
          (covers_base (h.positive k (List.mem_append_left _ hk')))).mpr ⟨k, hk', rfl⟩

/-- `base` does not have to be linked in behind a last block: the free list is
empty, or its last block lies above `base`. -/
def NotAtTail (s : FreeArea) (base : Nat) : Prop :=
  ∀ p, listPrev s.links .freeList = .pageLink p → base < p

theorem notAtTail_iff {s : FreeArea} {free live : List Extent}
    (h : Invariant s free live) (base : Nat) :
    NotAtTail s base ↔ free = [] ∨ ∃ e ∈ free, base < e.base := by
  have hprev : listPrev s.links .freeList = lastOf .freeList (entries free) := by
    have hring := h.ring
    rw [← List.append_nil (entries free)] at hring
    exact hring.prev_firstOf
  rcases List.eq_nil_or_concat' free with rfl | ⟨init, last, rfl⟩
  · simp [NotAtTail, hprev]
  · have hlast : lastOf Entry.freeList (entries (init ++ [last])) =
        .pageLink last.base := by simp
    rw [NotAtTail, hprev, hlast]
    constructor
    · intro hall
      exact Or.inr ⟨last, by simp, hall last.base rfl⟩
    · rintro (hnil | ⟨e, he, hlt⟩) p hp
      · simp at hnil
      · obtain rfl : last.base = p := by simpa using hp
        rcases List.mem_append.mp he with he | he
        · have hord := (List.pairwise_append.mp h.ordered).2.2 e he last (by simp)
          have := hord.base_lt (h.positive e (by simp [he]))
          omega
        · obtain rfl : e = last := by simpa using he
          exact hlt

theorem linkBlock_invariant {s : FreeArea} {free live : List Extent} {e : Extent}
    (h : Invariant s free live) (hfresh : Fresh s free live e)
    (htail : NotAtTail s e.base) :
    ∃ s' as bs, linkBlock s e.base e.size = .ok s' ∧ free = as ++ bs ∧
      Invariant s' (as ++ e :: bs) live := by
  have hentry : Entry.pageLink e.base ∉ Entry.freeList :: entries free := by
    simp only [List.mem_cons, mem_entries, not_or]
    refine ⟨by simp, ?_⟩
    rintro ⟨f, hf, heq⟩
    exact hfresh.base_ne h (List.mem_append_left _ hf) heq
  rcases (notAtTail_iff h e.base).mp htail with rfl | hex
  · have hempty : listEmpty s.links .freeList = true :=
      (listEmpty_eq_true_iff h.ring).mpr rfl
    refine ⟨{ addNrFree (setPageProperty (setProperty s e.base e.size) e.base) e.size
        with links := listAdd s.links .freeList (.pageLink e.base) }, [], [], ?_, rfl, ?_⟩
    · have hlinks : (addNrFree
          (setPageProperty (setProperty s e.base e.size) e.base) e.size).links =
            s.links := rfl
      simp only [linkBlock, hlinks, hempty, if_true]
      rfl
    · refine @insert_invariant s [] [] live e _ h hfresh (by simp) (by simp) ?_
      exact @ring_listAdd _ _ _ _ _ [] [] h.ring hentry
  · have hempty : ¬listEmpty s.links .freeList = true := by
      rw [listEmpty_eq_true_iff h.ring]
      obtain ⟨f, hf, _⟩ := hex
      intro hnil
      obtain ⟨a, t, rfl⟩ : ∃ a t, free = a :: t := by
        cases free with
        | nil => simp at hf
        | cons a t => exact ⟨a, t, rfl⟩
      simp at hnil
    obtain ⟨mid, last, suffix, hsplit, hmid, hlast, hloop⟩ :=
      @linkLoop_before s.links e.base free [] walkBound h.ring hex (by
          have := h.length_le
          unfold walkBound
          omega)
    subst hsplit
    refine ⟨{ addNrFree (setPageProperty (setProperty s e.base e.size) e.base) e.size
        with links := listAddBefore s.links (.pageLink last.base) (.pageLink e.base) },
      mid, last :: suffix, ?_, rfl, ?_⟩
    · have hlinks : (addNrFree
          (setPageProperty (setProperty s e.base e.size) e.base) e.size).links =
            s.links := rfl
      simp only [entries_nil, lastOf_nil] at hloop
      simp only [linkBlock, hlinks, hempty, hloop, ok_bind]
      rfl
    · have hord := h.ordered
      rw [List.pairwise_append, List.pairwise_cons] at hord
      refine insert_invariant h hfresh ?_ ?_ ?_
      · intro a ha
        have hapart := hfresh.apart a (by simp [ha])
        have hle := hmid a ha
        have hpos := h.positive a (by simp [ha])
        rcases hapart with hap | hap
        · unfold Before at hap
          have := hfresh.positive
          omega
        · exact hap
      · intro b hb
        have hlt : e.base < b.base := by
          rcases List.mem_cons.mp hb with rfl | hb
          · exact hlast
          · have := (hord.2.1.1 b hb).base_lt (h.positive last (by simp))
            omega
        rcases hfresh.apart b (by simp only [List.mem_append]; tauto) with hap | hap
        · exact hap
        · have := hap.base_lt (h.positive b (by simp only [List.mem_append]; tauto))
          omega
      · have hring := h.ring
        rw [entries_append] at hring hentry
        have hadd := ring_listAddBefore hring hentry
        simpa using hadd

/-- Linked in behind the last block, `base` ends up as its own predecessor. -/
theorem linkBlock_tail {s : FreeArea} {free live : List Extent} {e : Extent}
    (h : Invariant s free live) (hfresh : Fresh s free live e)
    (htail : ¬NotAtTail s e.base) :
    ∃ s', linkBlock s e.base e.size = .ok s' ∧
      listPrev s'.links .freeList = .pageLink e.base ∧
      listPrev s'.links (.pageLink e.base) = .pageLink e.base ∧
      listNext s'.links (.pageLink e.base) = .freeList ∧
      (s'.page e.base).property = e.size := by
  rw [notAtTail_iff h, not_or] at htail
  obtain ⟨hne, hall⟩ := htail
  have hall' : ∀ f ∈ free, ¬e.base < f.base := fun f hf hlt => hall ⟨f, hf, hlt⟩
  have hentry : Entry.pageLink e.base ∉ entries ([] ++ free) := by
    rw [List.nil_append, mem_entries]
    rintro ⟨f, hf, heq⟩
    exact hfresh.base_ne h (List.mem_append_left _ hf) heq
  have hempty : ¬listEmpty s.links .freeList = true := by
    rw [listEmpty_eq_true_iff h.ring]
    intro hnil
    exact hne (List.map_eq_nil_iff.mp hnil)
  have hloop := @linkLoop_tail e.base free [] s.links walkBound h.ring hne hall' hentry (by
    have := h.length_le
    unfold walkBound
    omega)
  rw [List.nil_append, entries_nil, lastOf_nil] at hloop
  obtain ⟨init, last, rfl⟩ : ∃ init last, free = init ++ [last] := by
    rcases List.eq_nil_or_concat' free with rfl | ⟨init, last, rfl⟩
    · exact absurd rfl hne
    · exact ⟨init, last, rfl⟩
  have hlast : lastOf Entry.freeList (entries (init ++ [last])) = .pageLink last.base := by
    simp
  rw [hlast] at hloop
  have hnext : s.links.next (.pageLink last.base) = .freeList := by
    have hring := h.ring
    rw [entries_append] at hring
    exact hring.next_mem
  have hlb : e.base ≠ last.base := fun heq =>
    hfresh.base_ne h (by simp) heq.symm
  refine ⟨{ addNrFree (setPageProperty (setProperty s e.base e.size) e.base) e.size with
    links :=
      listAdd (listAdd s.links (.pageLink last.base) (.pageLink e.base))
        (.pageLink e.base) (.pageLink e.base) }, ?_, ?_, ?_, ?_, ?_⟩
  · have hlinks : (addNrFree
        (setPageProperty (setProperty s e.base e.size) e.base) e.size).links =
          s.links := rfl
    simp only [linkBlock, hlinks, hempty, hloop, ok_bind]
    rfl
  · simp [listPrev, listAdd, listAddAfter, listAddEntry, Links.insertBetween, hnext]
  · simp [listPrev, listAdd, listAddAfter, listAddEntry, Links.insertBetween]
  · simp [listNext, listAdd, listAddAfter, listAddEntry, Links.insertBetween, hnext]
  · change ((setPageProperty (setProperty s e.base e.size) e.base).page e.base).property = _
    rw [setPageProperty_property, setProperty_property_self]
    have := hfresh.bounded
    exact toUint_of_le (by omega)

end Insertion

section Pages

/-- The invariant reads only the pages that some extent covers. -/
theorem invariant_frame {s s' : FreeArea} {free live : List Extent}
    (h : Invariant s free live) (hlinks : s'.links = s.links)
    (hnr : s'.nrFree = s.nrFree)
    (hpage : ∀ e ∈ free ++ live, ∀ p, Covers e p → s'.page p = s.page p) :
    Invariant s' free live := by
  refine ⟨hlinks ▸ h.ring, ?_, h.ordered, hnr.trans h.nrFree, h.apart, h.positive,
    h.bounded, ?_, ?_⟩
  · intro e he
    have hmem : e ∈ free ++ live := List.mem_append_left _ he
    rw [hpage e hmem e.base (covers_base (h.positive e hmem))]
    exact h.property e he
  · intro e he p hp
    rw [pageReserved, hpage e he p hp]
    exact h.unreserved e he p hp
  · intro e he p hp
    rw [pageProperty, hpage e he p hp]
    exact h.heads e he p hp

theorem initPages_spec {n : Nat} :
    ∀ {s : FreeArea} {p : Nat},
      (∀ q, p ≤ q → q < p + n → pageReserved s q = true) →
      ∃ s', initPages s p n = .ok s' ∧ s'.links = s.links ∧ s'.nrFree = s.nrFree ∧
        (∀ q, p ≤ q → q < p + n → s'.page q = { ref := 0, flags := 0, property := 0 }) ∧
        (∀ q, ¬(p ≤ q ∧ q < p + n) → s'.page q = s.page q) := by
  induction n with
  | zero =>
      intro s p _
      exact ⟨s, rfl, rfl, rfl, fun q _ _ => by omega, fun _ _ => rfl⟩
  | succ n ih =>
      intro s p hres
      have hp : pageReserved s p = true := hres p le_rfl (by omega)
      obtain ⟨s', heq, hlinks, hnr, hin, hout⟩ :=
        @ih (s.setPage p { ref := 0, flags := 0, property := 0 }) (p + 1) (by
          intro q hq₁ hq₂
          rw [pageReserved, setPage_page_ne (by omega)]
          exact hres q (by omega) (by omega))
      refine ⟨s', ?_, hlinks, hnr, ?_, ?_⟩
      · simpa [initPages, hp] using heq
      · intro q hq₁ hq₂
        by_cases hqp : q = p
        · subst hqp
          rw [hout q (by omega), setPage_page_self]
        · exact hin q (by omega) (by omega)
      · intro q hq
        rw [hout q (by omega), setPage_page_ne (by omega)]

theorem resetPages_spec {n : Nat} :
    ∀ {s : FreeArea} {p : Nat},
      (∀ q, p ≤ q → q < p + n → pageReserved s q = false ∧ pageProperty s q = false) →
      ∃ s', resetPages s p n = .ok s' ∧ s'.links = s.links ∧ s'.nrFree = s.nrFree ∧
        (∀ q, p ≤ q → q < p + n →
          s'.page q = { s.page q with ref := 0, flags := 0 }) ∧
        (∀ q, ¬(p ≤ q ∧ q < p + n) → s'.page q = s.page q) := by
  induction n with
  | zero =>
      intro s p _
      exact ⟨s, rfl, rfl, rfl, fun q _ _ => by omega, fun _ _ => rfl⟩
  | succ n ih =>
      intro s p hflags
      obtain ⟨hres, hprop⟩ := hflags p le_rfl (by omega)
      obtain ⟨s', heq, hlinks, hnr, hin, hout⟩ :=
        @ih (s.setPage p { s.page p with ref := 0, flags := 0 }) (p + 1) (by
          intro q hq₁ hq₂
          rw [pageReserved, pageProperty, setPage_page_ne (by omega)]
          exact hflags q (by omega) (by omega))
      refine ⟨s', ?_, hlinks, hnr, ?_, ?_⟩
      · simpa [resetPages, hres, hprop] using heq
      · intro q hq₁ hq₂
        by_cases hqp : q = p
        · subst hqp
          rw [hout q (by omega), setPage_page_self]
        · rw [hin q (by omega) (by omega), setPage_page_ne hqp]
      · intro q hq
        rw [hout q (by omega), setPage_page_ne (by omega)]

end Pages

section Merging

theorem mergeLower_spec {s : FreeArea} {as bs live : List Extent} {e : Extent}
    (h : Invariant s (as ++ e :: bs) live) :
    ∃ s' as' e', mergeLower s e.base = (s', e'.base) ∧
      e'.base + e'.size = e.base + e.size ∧ JoinsLower as e as' e' ∧
      Invariant s' (as' ++ e' :: bs) live := by
  have hprev : listPrev s.links (.pageLink e.base) = lastOf .freeList (entries as) := by
    have hring := h.ring
    rw [entries_append] at hring
    exact hring.prev_mem
  rcases List.eq_nil_or_concat' as with rfl | ⟨as, a, rfl⟩
  · exact ⟨s, [], e, by rw [mergeLower, hprev]; rfl, rfl, .inl ⟨rfl, rfl, by simp⟩, h⟩
  · have hlast : lastOf Entry.freeList (entries (as ++ [a])) = .pageLink a.base := by
      simp
    rw [hlast] at hprev
    rw [mergeLower, hprev]
    have hprop : (s.page a.base).property = a.size := h.property a (by simp)
    have h' : Invariant s (as ++ a :: e :: bs) live := by simpa using h
    by_cases hadj : a.base + (s.page a.base).property = e.base
    · rw [hprop] at hadj
      refine ⟨_, as, ⟨a.base, a.size + e.size⟩, ?_, ?_, .inr ⟨a, rfl, hadj, rfl⟩,
        h'.coalesce hadj⟩
      · simp only [hprop, hadj, if_true]
        rfl
      · simp only
        omega
    · refine ⟨s, as ++ [a], e, by simp [hadj], rfl, .inl ⟨rfl, rfl, ?_⟩, h⟩
      rw [hprop] at hadj
      intro f hf
      rcases List.mem_append.mp hf with hf | hf
      · -- a block further down ends below the last one
        have hord := List.pairwise_append.mp h'.ordered
        have hfa := hord.2.2 f hf a List.mem_cons_self
        have hae := (List.pairwise_cons.mp hord.2.1).1 e List.mem_cons_self
        have hapos := h'.positive a (by simp)
        simp only [Before] at hfa hae
        omega
      · obtain rfl := List.mem_singleton.mp hf
        exact hadj

theorem mergeUpper_spec {s : FreeArea} {as bs live : List Extent} {e : Extent}
    (h : Invariant s (as ++ e :: bs) live) :
    ∃ bs' e', e'.base = e.base ∧ JoinsUpper e bs e' bs' ∧
      Invariant (mergeUpper s e.base) (as ++ e' :: bs') live := by
  have hnext : listNext s.links (.pageLink e.base) = firstOf .freeList (entries bs) := by
    have hring := h.ring
    rw [entries_append] at hring
    exact hring.next_mem
  match bs with
  | [] =>
      refine ⟨[], e, rfl, .inl ⟨rfl, rfl, by simp⟩, ?_⟩
      rw [mergeUpper, hnext]
      exact h
  | b :: bs =>
      rw [mergeUpper, hnext, entries_cons, firstOf_cons]
      have hprop : (s.page e.base).property = e.size := h.property e (by simp)
      by_cases hadj : e.base + (s.page e.base).property = b.base
      · have hmerged := h.coalesce (by rw [← hprop, hadj])
        refine ⟨bs, ⟨e.base, e.size + b.size⟩, rfl, .inr ⟨b, rfl, by omega, ?_⟩, ?_⟩
        · simp only
          omega
        · simp only [hadj, if_true]
          exact hmerged
      · refine ⟨b :: bs, e, rfl, .inl ⟨rfl, rfl, ?_⟩, by simpa [hadj] using h⟩
        rw [hprop] at hadj
        intro f hf
        rcases List.mem_cons.mp hf with rfl | hf
        · exact hadj
        · have hord := List.pairwise_cons.mp (List.pairwise_append.mp h.ordered).2.1
          have heb := hord.1 b List.mem_cons_self
          have hbf := (List.pairwise_cons.mp hord.2).1 f hf
          have hbpos := h.positive b (by simp)
          simp only [Before] at heb hbf
          omega

end Merging

section Allocation

/-- The search returns the first block with enough pages. -/
theorem searchFit_spec {s : FreeArea} {n : Nat} :
    ∀ {rest as : List Extent} {fuel : Nat},
      WellFormed s (as ++ rest) → rest.length < fuel →
      (searchFit s n fuel (lastOf .freeList (entries as)) = .ok none ∧
          ∀ e ∈ rest, e.size < n) ∨
        ∃ mid e suffix, rest = mid ++ e :: suffix ∧ n ≤ e.size ∧
          (∀ f ∈ mid, f.size < n) ∧
          searchFit s n fuel (lastOf .freeList (entries as)) = .ok (some e.base) := by
  intro rest
  induction rest with
  | nil =>
      intro as fuel h hfuel
      obtain ⟨fuel, rfl⟩ : ∃ k, fuel = k + 1 := ⟨fuel - 1, by simp at hfuel; omega⟩
      have hring := h.ring
      rw [entries_append] at hring
      have hnext : listNext s.links (lastOf .freeList (entries as)) = .freeList :=
        hring.next_lastOf
      left
      rw [searchFit, hnext]
      exact ⟨rfl, by simp⟩
  | cons e rest ih =>
      intro as fuel h hfuel
      obtain ⟨fuel, rfl⟩ : ∃ k, fuel = k + 1 := ⟨fuel - 1, by simp at hfuel; omega⟩
      have hring := h.ring
      rw [entries_append] at hring
      have hnext : listNext s.links (lastOf .freeList (entries as)) = .pageLink e.base :=
        hring.next_lastOf
      have hprop : (s.page e.base).property = e.size := h.property e (by simp)
      rw [searchFit, hnext]
      by_cases hfit : n ≤ e.size
      · right
        exact ⟨[], e, rest, rfl, hfit, by simp, by simp [hprop, hfit]⟩
      · have h' : WellFormed s ((as ++ [e]) ++ rest) := by simpa using h
        have hlast : lastOf Entry.freeList (entries (as ++ [e])) = .pageLink e.base := by
          simp
        have hrec := @ih (as ++ [e]) fuel h' (by simp at hfuel; omega)
        rw [hlast] at hrec
        rcases hrec with ⟨heq, hall⟩ | ⟨mid, f, suffix, rfl, hf, hmid, heq⟩
        · left
          refine ⟨by simpa [hprop, hfit] using heq, ?_⟩
          intro f hf
          rcases List.mem_cons.mp hf with rfl | hf
          · omega
          · exact hall f hf
        · right
          refine ⟨e :: mid, f, suffix, rfl, hf, ?_, by simpa [hprop, hfit] using heq⟩
          intro g hg
          rcases List.mem_cons.mp hg with rfl | hg
          · omega
          · exact hmid g hg

/-- `default_alloc_pages` hands out the head of the first block that is large enough. -/
theorem defaultAllocPages_spec {s : FreeArea} {free : List Extent} {n : Nat}
    (h : WellFormed s free) (hn : 0 < n) :
    (defaultAllocPages s n = .ok (none, s) ∧ ∀ e ∈ free, e.size < n) ∨
      ∃ front e back, free = front ++ e :: back ∧ n ≤ e.size ∧ (∀ f ∈ front, f.size < n) ∧
        defaultAllocPages s n = .ok (some e.base, takePages s e.base n) := by
  by_cases hfew : s.nrFree < n
  · refine .inl ⟨?_, fun e he => lt_of_le_of_lt (h.size_le_nrFree he) hfew⟩
    simp only [defaultAllocPages, hn, kassert_of, ok_bind, hfew, if_true]
    rfl
  · have hsearch := @searchFit_spec s n free [] walkBound h (by
      have hlen := h.length_le
      unfold walkBound
      omega)
    rw [entries_nil, lastOf_nil] at hsearch
    rcases hsearch with ⟨heq, hnone⟩ | ⟨front, e, back, rfl, hfit, hfront, heq⟩
    · refine .inl ⟨?_, hnone⟩
      simp only [defaultAllocPages, hn, kassert_of, ok_bind, hfew, if_false, heq]
      rfl
    · refine .inr ⟨front, e, back, rfl, hfit, hfront, ?_⟩
      simp only [defaultAllocPages, hn, kassert_of, ok_bind, hfew, if_false, heq]
      rfl

/-- A block taken off the free list as a whole. -/
theorem detach_invariant {s : FreeArea} {as bs live : List Extent} {e : Extent}
    (h : Invariant s (as ++ e :: bs) live) :
    Invariant
      (clearPageProperty
        { s with links := listDel s.links (.pageLink e.base), nrFree := s.nrFree - e.size }
        e.base)
      (as ++ bs) (e :: live) := by
  have hperm : ((as ++ e :: bs) ++ live).Perm ((as ++ bs) ++ e :: live) := by
    rw [List.append_assoc, List.append_assoc, List.cons_append]
    exact (List.perm_middle.trans (by
      rw [← List.append_assoc, ← List.append_assoc]
      exact List.perm_middle.symm))
  have hmem : ∀ f, f ∈ (as ++ bs) ++ e :: live → f ∈ (as ++ e :: bs) ++ live :=
    fun f hf => hperm.mem_iff.mpr hf
  have hsub : ∀ f ∈ as ++ bs, f ∈ as ++ e :: bs := by
    intro f hf
    simp only [List.mem_append, List.mem_cons] at hf ⊢
    tauto
  have hne : ∀ f ∈ as ++ bs, f.base ≠ e.base := by
    intro f hf heq
    have hpair := (List.pairwise_middle fun hab => Apart.symm hab).mp
      (show ((as ++ e :: (bs ++ live)).Pairwise Apart) by simpa using h.apart)
    have hap := (List.pairwise_cons.mp hpair).1 f (by
      simp only [List.mem_append] at hf ⊢
      tauto)
    have hcov := hap.not_covers (covers_base (h.positive e (by simp)))
    rw [← heq] at hcov
    exact hcov (covers_base (h.positive f (List.mem_append_left _ (hsub f hf))))
  refine ⟨?_, ?_, ?_, ?_, ?_, ?_, ?_, ?_, ?_⟩
  · have hring := h.ring
    rw [entries_append, entries_cons] at hring
    have hdel := ring_listDel hring
    rw [← entries_append] at hdel
    exact hdel
  · intro f hf
    rw [clearPageProperty_property]
    exact h.property f (hsub f hf)
  · refine h.ordered.sublist ?_
    exact (List.sublist_cons_self e bs).append_left as
  · have hnr := h.nrFree
    simp only [List.map_append, List.map_cons, List.sum_append, List.sum_cons] at hnr ⊢
    change s.nrFree - e.size = _
    omega
  · exact (hperm.pairwise_iff fun hab => Apart.symm hab).mp h.apart
  · exact fun f hf => h.positive f (hmem f hf)
  · exact fun f hf => h.bounded f (hmem f hf)
  · intro f hf p hp
    rw [pageReserved_clearPageProperty]
    exact h.unreserved f (hmem f hf) p hp
  · intro f hf p hp
    rw [pageProperty_clearPageProperty_iff]
    have hhead := h.heads f (hmem f hf) p hp
    constructor
    · rintro ⟨hpe, hmark⟩
      obtain ⟨k, hk, rfl⟩ := hhead.mp hmark
      refine ⟨k, ?_, rfl⟩
      have hke : k ≠ e := by
        rintro rfl
        exact hpe rfl
      simp only [List.mem_append, List.mem_cons] at hk ⊢
      tauto
    · rintro ⟨k, hk, rfl⟩
      exact ⟨hne k hk, hhead.mpr ⟨k, hsub k hk, rfl⟩⟩

theorem split_live_invariant {s : FreeArea} {free live : List Extent} {e : Extent} {n : Nat}
    (h : Invariant s free (e :: live)) (hn : 0 < n) (hlt : n < e.size) :
    Invariant s free (⟨e.base, n⟩ :: live) ∧
      Fresh s free (⟨e.base, n⟩ :: live) ⟨e.base + n, e.size - n⟩ := by
  have hapart := h.apart_live
  have hmem : ∀ f ∈ free ++ live, f ∈ free ++ e :: live := fun f hf => by
    simp only [List.mem_append, List.mem_cons] at hf ⊢
    tauto
  have he : e ∈ free ++ e :: live := by simp
  have hsplit : ∀ f ∈ free ++ live,
      Apart ⟨e.base, n⟩ f ∧ Apart ⟨e.base + n, e.size - n⟩ f := fun f hf =>
    (apart_split_iff hn hlt (h.positive f (hmem f hf))).mp (hapart f hf)
  have hcases : ∀ f ∈ free ++ ⟨e.base, n⟩ :: live, f = ⟨e.base, n⟩ ∨ f ∈ free ++ live := by
    intro f hf
    simp only [List.mem_append, List.mem_cons] at hf ⊢
    tauto
  have hebound := h.bounded e he
  have hcov : ∀ f ∈ free ++ ⟨e.base, n⟩ :: live, ∀ p, Covers f p →
      ∃ g ∈ free ++ e :: live, Covers g p := by
    intro f hf p hp
    rcases hcases f hf with rfl | hf
    · exact ⟨e, he, hp.1, by
        have := hp.2
        simp only at this
        omega⟩
    · exact ⟨f, hmem f hf, hp⟩
  constructor
  · refine ⟨h.ring, h.property, h.ordered, h.nrFree, ?_, ?_, ?_, ?_, ?_⟩
    · refine (List.pairwise_middle fun hab => Apart.symm hab).mpr ?_
      rw [List.pairwise_cons]
      refine ⟨fun f hf => (hsplit f hf).1, ?_⟩
      exact h.forget_live.apart
    · intro f hf
      rcases hcases f hf with rfl | hf
      · exact hn
      · exact h.positive f (hmem f hf)
    · intro f hf
      rcases hcases f hf with rfl | hf
      · simp only
        omega
      · exact h.bounded f (hmem f hf)
    · intro f hf p hp
      obtain ⟨g, hg, hgp⟩ := hcov f hf p hp
      exact h.unreserved g hg p hgp
    · intro f hf p hp
      obtain ⟨g, hg, hgp⟩ := hcov f hf p hp
      exact h.heads g hg p hgp
  · have hcover : ∀ p, Covers ⟨e.base + n, e.size - n⟩ p → Covers e p := by
      rintro p ⟨hp₁, hp₂⟩
      simp only at hp₁ hp₂
      exact ⟨by omega, by omega⟩
    refine ⟨by simp only; omega, by simp only; omega, ?_, ?_, ?_⟩
    · intro f hf
      rcases hcases f hf with rfl | hf
      · exact Or.inr le_rfl
      · exact (hsplit f hf).2
    · exact fun p hp => h.unreserved e he p (hcover p hp)
    · intro p hp
      by_contra hmark
      rw [Bool.not_eq_false] at hmark
      obtain ⟨f, hf, rfl⟩ := (h.heads e he p (hcover p hp)).mp hmark
      exact (hapart f (List.mem_append_left _ hf)).not_covers (hcover _ hp)
        (covers_base (h.positive f (List.mem_append_left _ hf)))

theorem takePages_spec {s : FreeArea} {as bs live : List Extent} {e : Extent} {n : Nat}
    (h : Invariant s (as ++ e :: bs) live) (hn : 0 < n) (hle : n ≤ e.size) :
    ∃ rest, (rest = [] ∧ n = e.size ∨
        n < e.size ∧ rest = [⟨e.base + n, e.size - n⟩]) ∧
      Invariant (takePages s e.base n) (as ++ rest ++ bs) (⟨e.base, n⟩ :: live) := by
  have he : e ∈ as ++ e :: bs := by simp
  have hprop : (s.page e.base).property = e.size := h.property e he
  have hprev : listPrev s.links (.pageLink e.base) = lastOf .freeList (entries as) := by
    have hring := h.ring
    rw [entries_append] at hring
    exact hring.prev_mem
  have hdetach := detach_invariant h
  rcases Nat.eq_or_lt_of_le hle with rfl | hlt
  · refine ⟨[], .inl ⟨rfl, rfl⟩, ?_⟩
    rw [List.append_nil]
    simp only [takePages, hprop, lt_irrefl, if_false]
    exact hdetach
  · obtain ⟨hsplit, hfresh⟩ := split_live_invariant hdetach hn hlt
    have hsum : e.size ≤ s.nrFree := by
      rw [h.nrFree]
      simp only [List.map_append, List.map_cons, List.sum_append, List.sum_cons]
      omega
    have hord := h.ordered
    rw [List.pairwise_append, List.pairwise_cons] at hord
    have hentry : Entry.pageLink (e.base + n) ∉
        Entry.freeList :: (entries as ++ entries bs) := by
      rw [← entries_append, List.mem_cons, mem_entries, not_or]
      refine ⟨by simp, ?_⟩
      rintro ⟨f, hf, heq⟩
      exact hfresh.base_ne hsplit (List.mem_append_left _ hf) heq
    have hring := hsplit.ring
    rw [entries_append] at hring
    have hlinked := ring_listAdd hring hentry
    have hinsert := insert_invariant hsplit hfresh
      (by
        intro a ha
        have := hord.2.2 a ha e (by simp)
        unfold Before at this ⊢
        simp only
        omega)
      (by
        intro b hb
        have := hord.2.1.1 b hb
        unfold Before at this ⊢
        simp only
        omega)
      (by simpa using hlinked)
    rw [← List.singleton_append, ← List.append_assoc] at hinsert
    refine ⟨[⟨e.base + n, e.size - n⟩], .inr ⟨hlt, rfl⟩, invariant_frame hinsert ?_ ?_ ?_⟩
    · simp only [takePages, hprop, hlt, if_true, hprev]
      rfl
    · have hnr : s.nrFree ≤ npages := by
        rw [h.nrFree]
        exact h.sum_le
      simp only [takePages, hprop, hlt, if_true]
      change s.nrFree - n = toUint (s.nrFree - e.size + (e.size - n))
      rw [toUint_of_le (by omega)]
      omega
    · intro _ _ q _
      have hne : n ≠ 0 := by omega
      simp only [takePages, hprop, hlt, if_true]
      change (clearPageProperty (setPageProperty (setProperty s (e.base + n)
          (e.size - n)) (e.base + n)) e.base).page q =
        (setPageProperty (setProperty (clearPageProperty s e.base) (e.base + n)
          (e.size - n)) (e.base + n)).page q
      simp only [clearPageProperty, setPageProperty, setProperty, FreeArea.setPage]
      by_cases h₁ : q = e.base
      · subst h₁
        simp [hne]
      · by_cases h₂ : q = e.base + n
        · subst h₂
          simp [hne]
        · simp [h₁, h₂]

end Allocation

end Ucore.DefaultPmmSteps
