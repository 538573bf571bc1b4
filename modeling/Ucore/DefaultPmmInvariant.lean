import Mathlib.Algebra.Order.Group.Nat
import Ucore.DefaultPmm
import Ucore.Extents

namespace Ucore.DefaultPmmInvariant

open Ucore.LinkRing
open Ucore.ListHeader
open Ucore.DefaultPmm
open Ucore.Extents

/-- List entries of the free blocks. -/
def entries (free : List Extent) : List Entry :=
  free.map fun e => .pageLink e.base

@[simp] theorem entries_nil : entries [] = [] := rfl

@[simp] theorem entries_cons (e : Extent) (free : List Extent) :
    entries (e :: free) = .pageLink e.base :: entries free := rfl

@[simp] theorem entries_append (as bs : List Extent) :
    entries (as ++ bs) = entries as ++ entries bs := by
  simp [entries]

theorem mem_entries {p : Nat} {free : List Extent} :
    Entry.pageLink p ∈ entries free ↔ ∃ e ∈ free, e.base = p := by
  simp [entries]

/-- The free list by itself: `free` lists its blocks in list order. -/
structure WellFormed (s : FreeArea) (free : List Extent) : Prop where
  ring : RingList s.links .freeList (entries free)
  property : ∀ e ∈ free, (s.page e.base).property = e.size
  ordered : free.Pairwise Before
  positive : ∀ e ∈ free, 0 < e.size
  bounded : ∀ e ∈ free, e.base + e.size ≤ npages
  nrFree : s.nrFree = (free.map Extent.size).sum

/-- What the manager keeps true between calls. `free` lists the free blocks in
list order and `live` the extents handed out and not yet returned. -/
structure Invariant (s : FreeArea) (free live : List Extent) : Prop where
  ring : RingList s.links .freeList (entries free)
  property : ∀ e ∈ free, (s.page e.base).property = e.size
  ordered : free.Pairwise Before
  nrFree : s.nrFree = (free.map Extent.size).sum
  apart : (free ++ live).Pairwise Apart
  positive : ∀ e ∈ free ++ live, 0 < e.size
  bounded : ∀ e ∈ free ++ live, e.base + e.size ≤ npages
  unreserved : ∀ e ∈ free ++ live, ∀ p, Covers e p → pageReserved s p = false
  heads : ∀ e ∈ free ++ live, ∀ p, Covers e p →
    (pageProperty s p = true ↔ ∃ f ∈ free, f.base = p)

section Fields

@[simp] theorem setPage_links (s : FreeArea) (p : Nat) (v : Page) :
    (s.setPage p v).links = s.links := rfl

@[simp] theorem setPage_nrFree (s : FreeArea) (p : Nat) (v : Page) :
    (s.setPage p v).nrFree = s.nrFree := rfl

@[simp] theorem setPage_page_self (s : FreeArea) (p : Nat) (v : Page) :
    (s.setPage p v).page p = v := by
  simp [FreeArea.setPage]

theorem setPage_page_ne {p q : Nat} (h : q ≠ p) (s : FreeArea) (v : Page) :
    (s.setPage p v).page q = s.page q := by
  simp [FreeArea.setPage, h]

@[simp] theorem setProperty_property_self (s : FreeArea) (p n : Nat) :
    ((setProperty s p n).page p).property = toUint n := by
  simp [setProperty]

theorem setProperty_page_ne {p q : Nat} (h : q ≠ p) (s : FreeArea) (n : Nat) :
    (setProperty s p n).page q = s.page q :=
  setPage_page_ne h s _

@[simp] theorem setProperty_flags (s : FreeArea) (p n q : Nat) :
    ((setProperty s p n).page q).flags = (s.page q).flags := by
  by_cases h : q = p
  · subst h
    simp [setProperty]
  · rw [setProperty_page_ne h]

@[simp] theorem setPageProperty_property (s : FreeArea) (p q : Nat) :
    ((setPageProperty s p).page q).property = (s.page q).property := by
  by_cases h : q = p
  · subst h
    simp [setPageProperty]
  · rw [setPageProperty, setPage_page_ne h]

@[simp] theorem clearPageProperty_property (s : FreeArea) (p q : Nat) :
    ((clearPageProperty s p).page q).property = (s.page q).property := by
  by_cases h : q = p
  · subst h
    simp [clearPageProperty]
  · rw [clearPageProperty, setPage_page_ne h]

@[simp] theorem pageReserved_setPageProperty (s : FreeArea) (p q : Nat) :
    pageReserved (setPageProperty s p) q = pageReserved s q := by
  by_cases h : q = p
  · subst h
    simp only [pageReserved, setPageProperty, setPage_page_self]
    exact testBit_setBit_ne (by decide) _
  · rw [pageReserved, setPageProperty, setPage_page_ne h, pageReserved]

@[simp] theorem pageReserved_clearPageProperty (s : FreeArea) (p q : Nat) :
    pageReserved (clearPageProperty s p) q = pageReserved s q := by
  by_cases h : q = p
  · subst h
    simp only [pageReserved, clearPageProperty, setPage_page_self]
    exact testBit_clearBit_ne (by decide) _
  · rw [pageReserved, clearPageProperty, setPage_page_ne h, pageReserved]

theorem pageProperty_setPageProperty_iff {s : FreeArea} {p q : Nat} :
    pageProperty (setPageProperty s p) q = true ↔ q = p ∨ pageProperty s q = true := by
  by_cases h : q = p
  · subst h
    simp [pageProperty, setPageProperty, PG_property]
  · rw [pageProperty, setPageProperty, setPage_page_ne h, ← pageProperty]
    simp [h]

theorem pageProperty_clearPageProperty_iff {s : FreeArea} {p q : Nat} :
    pageProperty (clearPageProperty s p) q = true ↔ q ≠ p ∧ pageProperty s q = true := by
  by_cases h : q = p
  · subst h
    simp [pageProperty, clearPageProperty]
  · rw [pageProperty, clearPageProperty, setPage_page_ne h, ← pageProperty]
    simp [h]

@[simp] theorem pageReserved_setProperty (s : FreeArea) (p n q : Nat) :
    pageReserved (setProperty s p n) q = pageReserved s q := by
  simp [pageReserved]

@[simp] theorem pageProperty_setProperty (s : FreeArea) (p n q : Nat) :
    pageProperty (setProperty s p n) q = pageProperty s q := by
  simp [pageProperty]

theorem toUint_of_le {n : Nat} (h : n ≤ npages) : toUint n = n :=
  Nat.mod_eq_of_lt (lt_of_le_of_lt h (by decide))

end Fields

section Consequences

variable {s : FreeArea} {free live : List Extent}

theorem WellFormed.sum_le (h : WellFormed s free) : (free.map Extent.size).sum ≤ npages :=
  sum_size_le h.ordered h.bounded

theorem WellFormed.length_le (h : WellFormed s free) : free.length ≤ npages :=
  le_trans (length_le_sum_size h.positive) h.sum_le

theorem WellFormed.size_le_nrFree {e : Extent} (h : WellFormed s free) (he : e ∈ free) :
    e.size ≤ s.nrFree := by
  rw [h.nrFree]
  exact List.le_sum_of_mem (List.mem_map_of_mem he)

theorem Invariant.wellFormed (h : Invariant s free live) : WellFormed s free where
  ring := h.ring
  property := h.property
  ordered := h.ordered
  positive e he := h.positive e (List.mem_append_left _ he)
  bounded e he := h.bounded e (List.mem_append_left _ he)
  nrFree := h.nrFree

theorem Invariant.sum_le (h : Invariant s free live) :
    (free.map Extent.size).sum ≤ npages :=
  h.wellFormed.sum_le

theorem Invariant.length_le (h : Invariant s free live) : free.length ≤ npages :=
  h.wellFormed.length_le

theorem Invariant.perm_live {live' : List Extent} (h : Invariant s free live)
    (hperm : live.Perm live') : Invariant s free live' := by
  have hmem : ∀ e, e ∈ free ++ live' ↔ e ∈ free ++ live := fun e => by
    simp only [List.mem_append, hperm.mem_iff]
  refine ⟨h.ring, h.property, h.ordered, h.nrFree, ?_, ?_, ?_, ?_, ?_⟩
  · exact ((hperm.append_left free).pairwise_iff fun hab => Apart.symm hab).mp h.apart
  · exact fun e he => h.positive e ((hmem e).mp he)
  · exact fun e he => h.bounded e ((hmem e).mp he)
  · exact fun e he => h.unreserved e ((hmem e).mp he)
  · exact fun e he => h.heads e ((hmem e).mp he)

theorem Invariant.forget_live {e : Extent} (h : Invariant s free (e :: live)) :
    Invariant s free live := by
  have hmem : ∀ f ∈ free ++ live, f ∈ free ++ e :: live := fun f hf => by
    simp only [List.mem_append, List.mem_cons] at hf ⊢
    tauto
  refine ⟨h.ring, h.property, h.ordered, h.nrFree, ?_, ?_, ?_, ?_, ?_⟩
  · exact h.apart.sublist ((List.sublist_cons_self e live).append_left free)
  · exact fun f hf => h.positive f (hmem f hf)
  · exact fun f hf => h.bounded f (hmem f hf)
  · exact fun f hf => h.unreserved f (hmem f hf)
  · exact fun f hf => h.heads f (hmem f hf)

theorem Invariant.apart_live {e : Extent} (h : Invariant s free (e :: live)) :
    ∀ f ∈ free ++ live, Apart e f := by
  have hmid := (List.pairwise_middle fun hab => Apart.symm hab).mp h.apart
  exact (List.pairwise_cons.mp hmid).1

end Consequences

/-- A block made of two adjacent neighbours of the free list. -/
theorem Invariant.coalesce {s : FreeArea} {as bs live : List Extent} {a b : Extent}
    (h : Invariant s (as ++ a :: b :: bs) live) (hab : a.base + a.size = b.base) :
    Invariant
      { clearPageProperty
          (setProperty s a.base ((s.page a.base).property + (s.page b.base).property))
          b.base with
        links := listDel s.links (.pageLink b.base) }
      (as ++ ⟨a.base, a.size + b.size⟩ :: bs) live := by
  have ha : a ∈ as ++ a :: b :: bs := by simp
  have hb : b ∈ as ++ a :: b :: bs := by simp
  have hapos : 0 < a.size := h.positive a (List.mem_append_left _ ha)
  have hbpos : 0 < b.size := h.positive b (List.mem_append_left _ hb)
  have hbbound := h.bounded b (List.mem_append_left _ hb)
  have hmem : ∀ f ∈ (as ++ ⟨a.base, a.size + b.size⟩ :: bs) ++ live,
      f = ⟨a.base, a.size + b.size⟩ ∨ f ∈ (as ++ a :: b :: bs) ++ live := by
    intro f hf
    simp only [List.mem_append, List.mem_cons] at hf ⊢
    tauto
  have hcover : ∀ f ∈ (as ++ ⟨a.base, a.size + b.size⟩ :: bs) ++ live,
      ∀ p, Covers f p → ∃ g ∈ (as ++ a :: b :: bs) ++ live, Covers g p := by
    intro f hf p hp
    rcases hmem f hf with rfl | hf
    · by_cases hpb : p < b.base
      · exact ⟨a, List.mem_append_left _ ha, hp.1, by omega⟩
      · exact ⟨b, List.mem_append_left _ hb, by omega, by
          have := hp.2
          simp only at this
          omega⟩
    · exact ⟨f, hf, hp⟩
  have hne : ∀ f ∈ as ++ bs, f.base ≠ a.base ∧ f.base ≠ b.base := by
    intro f hf
    have hord := h.ordered
    simp only [List.pairwise_append, List.pairwise_cons, List.mem_cons] at hord
    rcases List.mem_append.mp hf with hf | hf
    · have h₁ := (hord.2.2 f hf a (Or.inl rfl)).base_lt
        (h.positive f (by simp [hf]))
      constructor
      · omega
      · omega
    · have h₁ := (hord.2.1.2.1 f hf).base_lt hbpos
      constructor
      · omega
      · omega
  refine ⟨?_, ?_, ?_, ?_, ?_, ?_, ?_, ?_, ?_⟩
  · have hring := h.ring
    have hsplit : entries (as ++ a :: b :: bs) =
        (entries as ++ [.pageLink a.base]) ++ .pageLink b.base :: entries bs := by simp
    rw [hsplit] at hring
    have hdel := ring_listDel hring
    simpa using hdel
  · intro f hf
    simp only [clearPageProperty_property]
    rcases List.mem_append.mp hf with hf' | hf'
    · rw [setProperty_page_ne (hne f (by simp [hf'])).1]
      exact h.property f (by simp [hf'])
    · rcases List.mem_cons.mp hf' with rfl | hf'
      · rw [setProperty_property_self, h.property a ha, h.property b hb]
        exact toUint_of_le (by omega)
      · rw [setProperty_page_ne (hne f (by simp [hf'])).1]
        exact h.property f (by simp [hf'])
  · have hord := h.ordered
    simp only [List.pairwise_append, List.pairwise_cons, List.mem_cons, Before]
      at hord ⊢
    obtain ⟨has, ⟨hab', hb', hbs⟩, hcross⟩ := hord
    refine ⟨has, ⟨?_, hbs⟩, ?_⟩
    · intro f hf
      have := hb' f hf
      omega
    · intro f hf g hg
      rcases hg with rfl | hg
      · exact hcross f hf a (Or.inl rfl)
      · exact hcross f hf g (Or.inr (Or.inr hg))
  · have hnr := h.nrFree
    simp only [List.map_append, List.map_cons, List.sum_append, List.sum_cons] at hnr ⊢
    change s.nrFree = _
    omega
  · have hpair := h.apart
    have hsplit : (as ++ a :: b :: bs) ++ live = as ++ a :: b :: (bs ++ live) := by simp
    have hsplit' : (as ++ ⟨a.base, a.size + b.size⟩ :: bs) ++ live =
        as ++ ⟨a.base, a.size + b.size⟩ :: (bs ++ live) := by simp
    rw [hsplit, List.pairwise_append, List.pairwise_cons, List.pairwise_cons] at hpair
    rw [hsplit', List.pairwise_append, List.pairwise_cons]
    obtain ⟨has, ⟨ha', hb', hrest⟩, hcross⟩ := hpair
    have hpos : ∀ f ∈ as ++ (bs ++ live), 0 < f.size := fun f hf =>
      h.positive f (by
        simp only [List.mem_append, List.mem_cons] at hf ⊢
        tauto)
    have hjoin : ∀ f, 0 < f.size → Apart a f → Apart b f →
        Apart ⟨a.base, a.size + b.size⟩ f := by
      intro f hf h₁ h₂
      simp only [Apart, Before] at h₁ h₂ ⊢
      omega
    refine ⟨has, ⟨?_, hrest⟩, ?_⟩
    · intro f hf
      exact hjoin f (hpos f (List.mem_append_right _ hf)) (ha' f (by simp [hf]))
        (hb' f hf)
    · intro f hf g hg
      rcases List.mem_cons.mp hg with rfl | hg
      · exact (hjoin f (hpos f (List.mem_append_left _ hf))
          (hcross f hf a (by simp)).symm (hcross f hf b (by simp)).symm).symm
      · exact hcross f hf g (by simp [hg])
  · intro f hf
    rcases hmem f hf with rfl | hf
    · simp only
      omega
    · exact h.positive f hf
  · intro f hf
    rcases hmem f hf with rfl | hf
    · simp only
      omega
    · exact h.bounded f hf
  · intro f hf p hp
    obtain ⟨g, hg, hgp⟩ := hcover f hf p hp
    have := h.unreserved g hg p hgp
    simpa [pageReserved, clearPageProperty] using
      (pageReserved_clearPageProperty _ _ _).trans
        ((pageReserved_setProperty _ _ _ _).trans this)
  · intro f hf p hp
    obtain ⟨g, hg, hgp⟩ := hcover f hf p hp
    have hhead := h.heads g hg p hgp
    have hflag := @pageProperty_clearPageProperty_iff
      (setProperty s a.base ((s.page a.base).property + (s.page b.base).property))
      b.base p
    rw [pageProperty_setProperty, hhead] at hflag
    refine Iff.trans hflag ?_
    constructor
    · rintro ⟨hpb, k, hk, rfl⟩
      simp only [List.mem_append, List.mem_cons] at hk ⊢
      rcases hk with hk | rfl | rfl | hk
      · exact ⟨k, Or.inl hk, rfl⟩
      · exact ⟨_, Or.inr (Or.inl rfl), rfl⟩
      · exact absurd rfl hpb
      · exact ⟨k, Or.inr (Or.inr hk), rfl⟩
    · rintro ⟨k, hk, rfl⟩
      simp only [List.mem_append, List.mem_cons] at hk ⊢
      rcases hk with hk | rfl | hk
      · exact ⟨(hne k (by simp [hk])).2, k, Or.inl hk, rfl⟩
      · exact ⟨by simp only; omega, a, Or.inr (Or.inl rfl), rfl⟩
      · exact ⟨(hne k (by simp [hk])).2, k, Or.inr (Or.inr (Or.inr hk)), rfl⟩

end Ucore.DefaultPmmInvariant
