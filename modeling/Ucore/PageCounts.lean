import Mathlib.Data.Finset.Prod
import Mathlib.Data.Finset.Card
import Mathlib.Logic.Relation
import Ucore.Interleaving
import Ucore.PageOwners

/-! The reference counts of pages, over any calls of `page_insert`, `page_remove` and
`pgdir_alloc_page`. -/

namespace Ucore.PageCounts

open Relation
open Ucore.Errors
open Ucore.Panic
open Ucore.KernelRoutine
open Ucore.Interleaving
open Ucore.DefaultPmm (PGSIZE)
open Ucore.PageTables
open Ucore.PageOwners

/-- The number of pages of user addresses. -/
def userPages : Nat := USERTOP / PGSIZE

/-- Where the page is mapped: the page directories, and the pages of addresses. -/
def mappings (s : Memory) (dirs : Finset Nat) (p : Nat) : Finset (Nat × Nat) :=
  (dirs ×ˢ Finset.range userPages).filter fun at' => next (pte s at'.1 (at'.2 * PGSIZE)) = some p

/-- `ref` is the number of entries, and of those that will be written (`extra`). -/
structure Counted (s : Memory) (dirs pages : Finset Nat) (extra : Nat → Int) : Prop where
  ref : ∀ p ∈ pages, s.ref p = (mappings s dirs p).card + extra p
  freeRef : ∀ p, s.free p = true → s.ref p = 0

/-- A call changed the entry for one address; pages are given back when no entry is left. -/
structure Changed (dirs : Finset Nat) (d la : Nat) (w : Word) (s : Memory) (pages : Finset Nat)
    (s' : Memory) (pages' : Finset Nat) : Prop where
  subset : pages' ⊆ pages
  free : ∀ p, s'.free p = true → s.free p = true ∨ p ∈ pages ∧ p ∉ pages'
  given : ∀ p ∈ pages, p ∉ pages' → s'.free p = true
  dropped : ∀ p ∈ pages, p ∉ pages' ↔
    0 < (mappings s dirs p).card ∧ (mappings s' dirs p).card = 0
  pte : ∀ d' ∈ dirs, ∀ la' < USERTOP,
    pte s' d' la' = if d' = d ∧ la' / PGSIZE = la / PGSIZE then w else pte s d' la'

variable {s s' s'' : Memory} {dirs pages pages' pages'' : Finset Nat} {owner owner' : Nat → Role}
  {d p q la la' page : Nat} {i j : Index} {w w' : Word} {extra : Nat → Int}

section Mappings

theorem mem_mappings {v : Nat} : (d, v) ∈ mappings s dirs p ↔
    d ∈ dirs ∧ v < userPages ∧ next (pte s d (v * PGSIZE)) = some p := by
  rw [mappings, Finset.mem_filter, Finset.mem_product, Finset.mem_range]
  exact and_assoc

theorem page_lt (hla : la < USERTOP) : la / PGSIZE < userPages :=
  Nat.div_lt_div_of_lt_of_dvd (by decide) hla

theorem pte_page (s : Memory) (d la : Nat) : pte s d (la / PGSIZE * PGSIZE) = pte s d la := by
  have hpage : la / PGSIZE * PGSIZE / 4096 = la / 4096 := by
    show la / 4096 * 4096 / 4096 = _
    omega
  rw [pte, pte, slot, slot, indices_of_page hpage]

theorem mappings_congr (h : ∀ d ∈ dirs, ∀ la < USERTOP, pte s' d la = pte s d la) :
    mappings s' dirs p = mappings s dirs p := by
  apply Finset.filter_congr
  rintro ⟨d, v⟩ hmem
  rw [Finset.mem_product, Finset.mem_range] at hmem
  have hla : v * PGSIZE < USERTOP := by
    have hlt := hmem.2
    change v < 0x80000000 / 4096 at hlt
    show v * 4096 < 0x80000000
    omega
  rw [h d hmem.1 _ hla]

theorem mappings_changed (hd : d ∈ dirs) (hla : la < USERTOP)
    (h : ∀ d' ∈ dirs, ∀ la' < USERTOP,
      pte s' d' la' = if d' = d ∧ la' / PGSIZE = la / PGSIZE then w else pte s d' la') :
    mappings s' dirs p = if next w = some p then insert (d, la / PGSIZE) (mappings s dirs p)
      else (mappings s dirs p).erase (d, la / PGSIZE) := by
  have hlt : ∀ {v}, v < userPages → v * PGSIZE < USERTOP := by
    intro v hv
    change v < 0x80000000 / 4096 at hv
    show v * 4096 < 0x80000000
    omega
  have hdiv : ∀ v, v * PGSIZE / PGSIZE = v := fun v => Nat.mul_div_cancel v (by decide)
  ext ⟨d', v⟩
  rw [mem_mappings]
  rcases Decidable.em ((d', v) = (d, la / PGSIZE)) with hsame | hother
  · obtain ⟨rfl, rfl⟩ := Prod.mk.inj hsame
    have hnew : pte s' d' (la / PGSIZE * PGSIZE) = w := by
      rw [h d' hd _ (hlt (page_lt hla)), if_pos ⟨rfl, hdiv _⟩]
    rw [hnew]
    split
    · next hw => simp [hd, page_lt hla, hw]
    · next hw => simp [hw]
  · have hold : d' ∈ dirs → v < userPages → pte s' d' (v * PGSIZE) = pte s d' (v * PGSIZE) := by
      intro hd' hv
      rw [h d' hd' _ (hlt hv), if_neg]
      rintro ⟨rfl, hpage⟩
      rw [hdiv] at hpage
      exact hother (by rw [hpage])
    have hiff : (d' ∈ dirs ∧ v < userPages ∧ next (pte s' d' (v * PGSIZE)) = some p) ↔
        (d', v) ∈ mappings s dirs p := by
      rw [mem_mappings]
      constructor
      · rintro ⟨hd', hv, hnext⟩
        exact ⟨hd', hv, by rwa [← hold hd' hv]⟩
      · rintro ⟨hd', hv, hnext⟩
        exact ⟨hd', hv, by rwa [hold hd' hv]⟩
    rw [hiff]
    split
    · simp [hother]
    · simp [hother]

/-- One mapping more for the new page, and one less for the old one. -/
theorem card_changed (hd : d ∈ dirs) (hla : la < USERTOP)
    (h : ∀ d' ∈ dirs, ∀ la' < USERTOP,
      pte s' d' la' = if d' = d ∧ la' / PGSIZE = la / PGSIZE then w else pte s d' la') (p : Nat) :
    ((mappings s' dirs p).card : Int) = (mappings s dirs p).card +
      (if next w = some p then 1 else 0) - (if next (pte s d la) = some p then 1 else 0) := by
  have hmem : (d, la / PGSIZE) ∈ mappings s dirs p ↔ next (pte s d la) = some p := by
    rw [mem_mappings, pte_page]
    simp [hd, page_lt hla]
  rw [mappings_changed hd hla h]
  rcases Decidable.em (next (pte s d la) = some p) with hold | hnot
  · have hin := hmem.mpr hold
    rw [if_pos hold]
    split
    · rw [Finset.insert_eq_of_mem hin]
      omega
    · have hcard := Finset.card_erase_add_one hin
      omega
  · have hout : (d, la / PGSIZE) ∉ mappings s dirs p := fun hin => hnot (hmem.mp hin)
    rw [if_neg hnot]
    split
    · rw [Finset.card_insert_of_notMem hout]
      omega
    · rw [Finset.erase_eq_of_notMem hout]
      omega

end Mappings

section Operations

theorem pte2page_of (h : Owned s dirs pages owner) (hp : p ∈ pages) (hw : next w = some p)
    (m : Memory) : pte2page w m = .ok (.ok p, m) := by
  obtain ⟨hvalid, rfl⟩ := next_eq_some.mp hw
  have hbound := h.bound _ (show owner (frameOf w) ≠ .other by
    rw [(h.page _).mp hp]
    simp)
  rw [pte2page, ensure_bind_of hvalid]
  exact KADDR_of hbound m

/-- What `page_remove_pte` does for a valid entry. -/
theorem pageRemovePte_eq (h : Owned s dirs pages owner) (hp : p ∈ pages)
    (hnext : next (s.words q i) = some p) :
    pageRemovePte (q, i) s = .ok (.ok (), {
      words := Function.update s.words q (Function.update (s.words q) i 0)
      ref := Function.update s.ref p (s.ref p - 1)
      free := if s.ref p - 1 = 0 then Function.update s.free p true else s.free
      grants := s.grants }) := by
  rw [pageRemovePte, getState_bind, if_pos (next_eq_some.mp hnext).1,
    bind_of_ok (pte2page_of h hp hnext s), pageRefDec, modifyState_bind, getState_bind]
  simp only [Function.update_self]
  split
  · next hlast =>
      show (Except.ok (Except.ok (), _) : Panic.Kernel (Except Errno Unit × Memory)) = _
      simp only [Function.update_idem, hlast]
  · rfl

/-- The entry for an address, after it was cleared. -/
theorem pte_cleared (h : Owned s dirs pages owner) (hd : d ∈ dirs) (hla : la < USERTOP)
    (hslot : slot s d la = some (q, i))
    (hwords : s'.words = Function.update s.words q (Function.update (s.words q) i 0)) :
    (∀ d' ∈ dirs, ∀ la' < USERTOP,
      pte s' d' la' = if d' = d ∧ la' / PGSIZE = la / PGSIZE then 0 else pte s d' la') ∧
    slot s' d la = some (q, i) := by
  refine ⟨fun d' hd' la' hla' => h.pte_entry hd hla hslot hwords hd' hla', ?_⟩
  have htable := (h.slot_owner hd hla hslot).1
  rw [slot, h.locate_entry htable hwords hd le_rfl (user_indices hla)]
  exact hslot

/-- The numbers of mappings, after the entry for an address was cleared. -/
theorem card_cleared (hd : d ∈ dirs) (hla : la < USERTOP) (hnext : next (pte s d la) = some p)
    (hpte : ∀ d' ∈ dirs, ∀ la' < USERTOP,
      pte s' d' la' = if d' = d ∧ la' / PGSIZE = la / PGSIZE then 0 else pte s d' la') (u : Nat) :
    (mappings s dirs u).card = (mappings s' dirs u).card + if u = p then 1 else 0 := by
  have hcard := card_changed hd hla hpte u
  have hunmapped : next (0 : Word) = none := next_of_not not_valid_zero
  rw [hunmapped, hnext] at hcard
  rcases eq_or_ne u p with rfl | hne
  · simp only [reduceCtorEq, if_false, if_true] at hcard ⊢
    omega
  · simp only [reduceCtorEq, if_false, Option.some.injEq, Ne.symm hne, hne] at hcard ⊢
    omega

/-- The entry was the last one that led to the page. -/
theorem removes_last (s' : Memory) (h : Owned s dirs pages owner) (hc : Counted s dirs pages extra)
    (hd : d ∈ dirs) (hla : la < USERTOP) (hslot : slot s d la = some (q, i))
    (hnext : next (pte s d la) = some p) (hextra : extra p = 0) (hlast : s.ref p - 1 = 0)
    (hwords : s'.words = Function.update s.words q (Function.update (s.words q) i 0))
    (href : s'.ref = Function.update s.ref p (s.ref p - 1))
    (hfree : s'.free = Function.update s.free p true) :
    Owned s' dirs (pages.erase p) (Function.update owner p .free) ∧
      Counted s' dirs (pages.erase p) extra ∧ Changed dirs d la 0 s pages s' (pages.erase p) := by
  have hp := h.page_of_pte hd hla hnext
  have hrefp := hc.ref p hp
  have hpte := (pte_cleared h hd hla hslot hwords).1
  have hcard := card_cleared hd hla hnext hpte
  have hcardp := hcard p
  rw [if_pos rfl] at hcardp
  have hnone : mappings s' dirs p = ∅ := by
    apply Finset.card_eq_zero.mp
    omega
  have hothers : ∀ {u}, u ≠ p → s'.ref u = s.ref u ∧ s'.free u = s.free u := by
    intro u hu
    rw [href, hfree, Function.update_of_ne hu, Function.update_of_ne hu]
    exact ⟨rfl, rfl⟩
  refine ⟨?_, ⟨?_, ?_⟩, Finset.erase_subset _ _, ?_, ?_, ?_, hpte⟩
  · let m : Memory := { s' with free := s.free }
    have hm : Owned m dirs pages owner :=
      h.withEntry (h.slot_owner hd hla hslot).1 hwords rfl fun hv => absurd hv not_valid_zero
    refine hm.released hp ?_ rfl hfree
    intro d' hd' la' hla' hleads
    have hin : (d', la' / PGSIZE) ∈ mappings s' dirs p :=
      mem_mappings.mpr ⟨hd', page_lt hla', by rwa [pte_page]⟩
    rw [hnone] at hin
    exact absurd hin (Finset.notMem_empty _)
  · intro u hu
    obtain ⟨hne, hmem⟩ := Finset.mem_erase.mp hu
    have hcardu := hcard u
    rw [if_neg hne] at hcardu
    rw [(hothers hne).1, hc.ref u hmem, hcardu]
    rfl
  · intro u hu
    rcases eq_or_ne u p with rfl | hne
    · rw [href, Function.update_self, hlast]
    · rw [(hothers hne).2] at hu
      rw [(hothers hne).1]
      exact hc.freeRef u hu
  · intro u hu
    rcases eq_or_ne u p with rfl | hne
    · exact Or.inr ⟨hp, Finset.notMem_erase _ _⟩
    · rw [(hothers hne).2] at hu
      exact Or.inl hu
  · intro u hu hout
    have hsame : u = p := by
      by_contra hne
      exact hout (Finset.mem_erase.mpr ⟨hne, hu⟩)
    rw [hsame, hfree, Function.update_self]
  · intro u hu
    have hcardu := hcard u
    rcases eq_or_ne u p with rfl | hne
    · refine iff_of_true (Finset.notMem_erase _ _) ⟨?_, Finset.card_eq_zero.mpr hnone⟩
      omega
    · rw [if_neg hne] at hcardu
      refine iff_of_false (fun hout => hout (Finset.mem_erase.mpr ⟨hne, hu⟩)) ?_
      rintro ⟨hpos, hgone⟩
      omega

/-- Other entries lead to the page. -/
theorem removes_more (s' : Memory) (h : Owned s dirs pages owner) (hc : Counted s dirs pages extra)
    (hd : d ∈ dirs) (hla : la < USERTOP) (hslot : slot s d la = some (q, i))
    (hnext : next (pte s d la) = some p) (hextra : extra p = 0) (hmore : s.ref p - 1 ≠ 0)
    (hwords : s'.words = Function.update s.words q (Function.update (s.words q) i 0))
    (href : s'.ref = Function.update s.ref p (s.ref p - 1)) (hfree : s'.free = s.free) :
    Owned s' dirs pages owner ∧ Counted s' dirs pages extra ∧
      Changed dirs d la 0 s pages s' pages := by
  have hp := h.page_of_pte hd hla hnext
  have hrefp := hc.ref p hp
  have hpte := (pte_cleared h hd hla hslot hwords).1
  have hcard := card_cleared hd hla hnext hpte
  refine ⟨?_, ⟨?_, ?_⟩, Finset.Subset.refl _, ?_, fun u hu hout => absurd hu hout, ?_, hpte⟩
  · exact h.withEntry (h.slot_owner hd hla hslot).1 hwords hfree fun hv => absurd hv not_valid_zero
  · intro u hu
    have hcardu := hcard u
    have hrefu := hc.ref u hu
    rcases eq_or_ne u p with rfl | hne
    · rw [if_pos rfl] at hcardu
      rw [href, Function.update_self]
      omega
    · rw [if_neg hne] at hcardu
      rw [href, Function.update_of_ne hne]
      omega
  · intro u hu
    rw [hfree] at hu
    have hne : u ≠ p := by
      rintro rfl
      rw [h.free_of_page hp] at hu
      cases hu
    rw [href, Function.update_of_ne hne]
    exact hc.freeRef u hu
  · intro u hu
    rw [hfree] at hu
    exact Or.inl hu
  · intro u hu
    have hcardu := hcard u
    refine iff_of_false (fun hout => hout hu) ?_
    rintro ⟨hpos, hgone⟩
    rcases eq_or_ne u p with rfl | hne
    · rw [if_pos rfl] at hcardu
      omega
    · rw [if_neg hne] at hcardu
      omega

/-- Nothing was changed. -/
theorem changed_refl (s : Memory) (dirs pages : Finset Nat) (d la : Nat) :
    Changed dirs d la (pte s d la) s pages s pages := by
  refine ⟨Finset.Subset.refl _, fun _ hu => Or.inl hu, fun u hu hout => absurd hu hout, ?_, ?_⟩
  · intro u hu
    exact iff_of_false (fun hout => hout hu) (by omega)
  · intro d' hd' la' hla'
    split
    · next hsame =>
        obtain ⟨rfl, hpage⟩ := hsame
        rw [← pte_page s d' la', hpage, pte_page]
    · rfl

theorem pageRemovePte_of (h : Owned s dirs pages owner) (hc : Counted s dirs pages extra)
    (hd : d ∈ dirs) (hla : la < USERTOP) {at' : Nat × Index} (hslot : slot s d la = some at')
    (hextra : ∀ p, next (pte s d la) = some p → extra p = 0) :
    ∃ s' pages' owner' w, pageRemovePte at' s = .ok (.ok (), s') ∧ Owned s' dirs pages' owner' ∧
      Counted s' dirs pages' extra ∧ ¬Valid w ∧ Changed dirs d la w s pages s' pages' ∧
      slot s' d la = some at' := by
  obtain ⟨q, i⟩ := at'
  have hwas := pte_of_slot hslot
  rcases Decidable.em (Valid (pte s d la)) with hvalid | hnot
  · obtain ⟨p, hnext⟩ : ∃ p, next (pte s d la) = some p := ⟨_, next_of_valid hvalid⟩
    have hrun := pageRemovePte_eq h (h.page_of_pte hd hla hnext) (hwas ▸ hnext)
    have hzero := hextra p hnext
    let words := Function.update s.words q (Function.update (s.words q) i 0)
    let ref := Function.update s.ref p (s.ref p - 1)
    rcases Decidable.em (s.ref p - 1 = 0) with hlast | hmore
    · rw [if_pos hlast] at hrun
      obtain ⟨howned, hcounted, hchanged⟩ :=
        removes_last ⟨words, ref, Function.update s.free p true, s.grants⟩ h hc hd hla hslot hnext hzero hlast rfl rfl rfl
      exact ⟨_, _, _, 0, hrun, howned, hcounted, not_valid_zero, hchanged,
        (pte_cleared h hd hla hslot rfl).2⟩
    · rw [if_neg hmore] at hrun
      obtain ⟨howned, hcounted, hchanged⟩ :=
        removes_more ⟨words, ref, s.free, s.grants⟩ h hc hd hla hslot hnext hzero hmore rfl rfl rfl
      exact ⟨_, _, _, 0, hrun, howned, hcounted, not_valid_zero, hchanged,
        (pte_cleared h hd hla hslot rfl).2⟩
  · refine ⟨s, pages, owner, pte s d la, ?_, h, hc, hnot, changed_refl s dirs pages d la, hslot⟩
    rw [pageRemovePte, getState_bind, if_neg]
    · rfl
    · rwa [← hwas]

/-- What `get_pte` adds does not count. -/
theorem counted_extends (h : Extends dirs d s s' owner owner') (hs : Owned s dirs pages owner)
    (hs' : Owned s' dirs pages owner') (hc : Counted s dirs pages extra) :
    Counted s' dirs pages extra := by
  constructor
  · intro p hp
    have hrole := (hs.page p).mp hp
    rw [h.ref p (h.used (by simp [hrole])), mappings_congr h.pte]
    exact hc.ref p hp
  · intro p hp
    have hrole := (hs'.free p).mp hp
    have hsame : owner' p = owner p := by
      rcases h.roles p with hsame | ⟨_, path, htable⟩
      · exact hsame
      · rw [hrole] at htable
        cases htable
    rw [h.ref p hsame]
    exact hc.freeRef p ((hs.free p).mpr (hsame.symm.trans hrole))

theorem pte_congr (h : s'.words = s.words) (d la : Nat) : pte s' d la = pte s d la := by
  rw [pte, pte, slot, slot, h]

theorem Changed.congr (hwords : s'.words = s.words) (hfree : s'.free = s.free)
    (hchanged : Changed dirs d la w s' pages s'' pages') :
    Changed dirs d la w s pages s'' pages' := by
  have hsame : ∀ d la, PageOwners.pte s' d la = PageOwners.pte s d la := pte_congr hwords
  refine ⟨hchanged.subset, ?_, hchanged.given, ?_, ?_⟩
  · rw [← hfree]
    exact hchanged.free
  · intro p hp
    rw [hchanged.dropped p hp, mappings_congr fun d _ la _ => hsame d la]
  · intro d' hd' la' hla'
    rw [hchanged.pte d' hd' la' hla', hsame]

theorem Changed.of_extends (h : Extends dirs d s s' owner owner') (hs : Owned s dirs pages owner)
    (hs' : Owned s' dirs pages owner') (hchanged : Changed dirs d la w s' pages s'' pages') :
    Changed dirs d la w s pages s'' pages' := by
  refine ⟨hchanged.subset, ?_, hchanged.given, ?_, ?_⟩
  · intro p hp
    refine (hchanged.free p hp).imp ?_ id
    intro hfree
    rcases h.roles p with hsame | ⟨_, path, htable⟩
    · exact (hs.free p).mpr (hsame.symm.trans ((hs'.free p).mp hfree))
    · rw [(hs'.free p).mp hfree] at htable
      cases htable
  · intro p hp
    rw [hchanged.dropped p hp, mappings_congr h.pte]
  · intro d' hd' la' hla'
    rw [hchanged.pte d' hd' la' hla', h.pte d' hd' la' hla']

/-- The count of a page that is about to be mapped once more. -/
def extraOne (page : Nat) : Nat → Int :=
  fun q => if q = page then 1 else 0

/-- The new entry is written, where there was none or where it was cleared. -/
theorem inserts (s'' : Memory) (h : Owned s' dirs pages' owner)
    (hc : Counted s' dirs pages' (extraOne page)) (hd : d ∈ dirs) (hla : la < USERTOP)
    (hslot : slot s' d la = some (q, i)) (hpage : page ∈ pages') (hw : next w = some page)
    (hchanged : Changed dirs d la w' s pages s' pages') (hw' : ¬Valid w')
    (hwords : s''.words = Function.update s'.words q (Function.update (s'.words q) i w))
    (href : s''.ref = s'.ref) (hfree : s''.free = s'.free) :
    Owned s'' dirs pages' owner ∧ Counted s'' dirs pages' 0 ∧
      Changed dirs d la w s pages s'' pages' := by
  have hpte : ∀ d' ∈ dirs, ∀ la' < USERTOP,
      pte s'' d' la' = if d' = d ∧ la' / PGSIZE = la / PGSIZE then w else pte s' d' la' :=
    fun d' hd' la' hla' => h.pte_entry hd hla hslot hwords hd' hla'
  have hcard := card_changed hd hla hpte
  have hold : pte s' d la = w' := by
    rw [hchanged.pte d hd la hla, if_pos ⟨rfl, rfl⟩]
  rw [hw, hold, next_of_not hw'] at hcard
  simp only [reduceCtorEq, if_false, Option.some.injEq] at hcard
  refine ⟨?_, ⟨?_, ?_⟩, hchanged.subset, ?_, ?_, ?_, ?_⟩
  · refine h.withEntry (h.slot_owner hd hla hslot).1 hwords hfree fun _ => ?_
    rw [(next_eq_some.mp hw).2]
    exact (h.page page).mp hpage
  · intro u hu
    have hrefu := hc.ref u hu
    have hcardu := hcard u
    rw [href]
    show s'.ref u = (mappings s'' dirs u).card + (0 : Int)
    rcases eq_or_ne u page with rfl | hne
    · simp only [extraOne, if_true] at hrefu hcardu
      omega
    · simp only [extraOne, hne, hne.symm, if_false] at hrefu hcardu
      omega
  · intro u hu
    rw [hfree] at hu
    rw [href]
    exact hc.freeRef u hu
  · intro u hu
    rw [hfree] at hu
    exact hchanged.free u hu
  · intro u hu hout
    rw [hfree]
    exact hchanged.given u hu hout
  · intro u hu
    have hcardu := hcard u
    rw [hchanged.dropped u hu]
    rcases eq_or_ne u page with rfl | hne
    · simp only [if_true] at hcardu
      refine iff_of_false ?_ (by omega)
      rw [← hchanged.dropped u hu]
      exact fun hout => hout hpage
    · simp only [hne.symm, if_false] at hcardu
      have hsame : (mappings s'' dirs u).card = (mappings s' dirs u).card := by omega
      rw [hsame]
  · intro d' hd' la' hla'
    rw [hpte d' hd' la' hla', hchanged.pte d' hd' la' hla']
    split
    · rfl
    · rfl

/-- The page is mapped where it was already. -/
theorem reinserts (s' : Memory) (h : Owned s dirs pages owner) (hc : Counted s dirs pages 0)
    (hd : d ∈ dirs) (hla : la < USERTOP) (hslot : slot s d la = some (q, i))
    (hpage : page ∈ pages) (hold : next (pte s d la) = some page) (hw : next w = some page)
    (hwords : s'.words = Function.update s.words q (Function.update (s.words q) i w))
    (href : s'.ref = s.ref) (hfree : s'.free = s.free) :
    Owned s' dirs pages owner ∧ Counted s' dirs pages 0 ∧
      Changed dirs d la w s pages s' pages := by
  have hpte : ∀ d' ∈ dirs, ∀ la' < USERTOP,
      pte s' d' la' = if d' = d ∧ la' / PGSIZE = la / PGSIZE then w else pte s d' la' :=
    fun d' hd' la' hla' => h.pte_entry hd hla hslot hwords hd' hla'
  have hcard : ∀ u, (mappings s' dirs u).card = (mappings s dirs u).card := by
    intro u
    have hcardu := card_changed hd hla hpte u
    rw [hw, hold] at hcardu
    omega
  refine ⟨?_, ⟨?_, ?_⟩, Finset.Subset.refl _, ?_, fun u hu hout => absurd hu hout, ?_, hpte⟩
  · refine h.withEntry (h.slot_owner hd hla hslot).1 hwords hfree fun _ => ?_
    rw [(next_eq_some.mp hw).2]
    exact (h.page page).mp hpage
  · intro u hu
    rw [href, hcard u]
    exact hc.ref u hu
  · intro u hu
    rw [hfree] at hu
    rw [href]
    exact hc.freeRef u hu
  · intro u hu
    rw [hfree] at hu
    exact Or.inl hu
  · intro u hu
    rw [hcard u]
    exact iff_of_false (fun hout => hout hu) (by omega)

theorem perm_lt {perm : BitVec 32} (h : perm.toNat < 2 ^ 10) :
    (0x001 ||| perm : BitVec 32).toNat < 2 ^ 10 := by
  rw [BitVec.toNat_or]
  exact Nat.or_lt_two_pow (by decide) h

/-- What `page_insert` may do: the entry is new, or there was no memory for its page table. -/
inductive Inserted (dirs : Finset Nat) (d page la : Nat) (w : Word) (s : Memory)
    (pages : Finset Nat) (s' : Memory) (pages' : Finset Nat) : Except Errno Unit → Prop
  | done : page ∈ pages' → Changed dirs d la w s pages s' pages' →
      Inserted dirs d page la w s pages s' pages' (.ok ())
  | failed : pages' = pages → Changed dirs d la (pte s d la) s pages s' pages' →
      Inserted dirs d page la w s pages s' pages' (.error .eNoMem)

theorem counted_inc (h : Owned s dirs pages owner) (hc : Counted s dirs pages 0)
    (hpage : page ∈ pages) :
    Counted { s with ref := Function.update s.ref page (s.ref page + 1) } dirs pages
      (extraOne page) := by
  constructor
  · intro u hu
    have hrefu := hc.ref u hu
    change s.ref u = (mappings s dirs u).card + (0 : Int) at hrefu
    show Function.update s.ref page (s.ref page + 1) u =
      (mappings s dirs u).card + extraOne page u
    rcases eq_or_ne u page with rfl | hne
    · rw [Function.update_self, extraOne, if_pos rfl]
      omega
    · rw [Function.update_of_ne hne, extraOne, if_neg hne]
      omega
  · intro u hu
    have hne : u ≠ page := by
      rintro rfl
      have hused := h.free_of_page hpage
      change s.free u = true at hu
      rw [hused] at hu
      cases hu
    show Function.update s.ref page (s.ref page + 1) u = 0
    rw [Function.update_of_ne hne]
    exact hc.freeRef u hu

theorem counted_dec (h : Owned s dirs pages owner) (hc : Counted s dirs pages (extraOne page))
    (hpage : page ∈ pages) :
    Counted { s with ref := Function.update s.ref page (s.ref page - 1) } dirs pages 0 := by
  constructor
  · intro u hu
    have hrefu := hc.ref u hu
    show Function.update s.ref page (s.ref page - 1) u = (mappings s dirs u).card + (0 : Int)
    rcases eq_or_ne u page with rfl | hne
    · rw [extraOne, if_pos rfl] at hrefu
      rw [Function.update_self]
      omega
    · rw [extraOne, if_neg hne] at hrefu
      rw [Function.update_of_ne hne]
      omega
  · intro u hu
    have hne : u ≠ page := by
      rintro rfl
      have hused := h.free_of_page hpage
      change s.free u = true at hu
      rw [hused] at hu
      cases hu
    show Function.update s.ref page (s.ref page - 1) u = 0
    rw [Function.update_of_ne hne]
    exact hc.freeRef u hu

/-- How the entry is left to be written. -/
inductive Cleared (dirs : Finset Nat) (d page la : Nat) (s : Memory) (pages : Finset Nat) :
    Memory → Finset Nat → Prop
  | empty {s' : Memory} {pages' : Finset Nat} {w : Word} :
      Counted s' dirs pages' (extraOne page) → ¬Valid w →
      Changed dirs d la w s pages s' pages' → Cleared dirs d page la s pages s' pages'
  | same {s' : Memory} : next (pte s d la) = some page → Counted s' dirs pages 0 →
      s'.words = s.words → s'.free = s.free → Cleared dirs d page la s pages s' pages

theorem replaceEntry_of (h : Owned s dirs pages owner)
    (hc : Counted s dirs pages (extraOne page)) (hd : d ∈ dirs) (hla : la < USERTOP)
    (hslot : slot s d la = some (q, i)) (hpage : page ∈ pages) :
    ∃ s' pages' owner', replaceEntry page (q, i) s = .ok (.ok (), s') ∧
      Owned s' dirs pages' owner' ∧ page ∈ pages' ∧ slot s' d la = some (q, i) ∧
      Cleared dirs d page la s pages s' pages' := by
  have hwas := pte_of_slot hslot
  rcases Decidable.em (Valid (s.words q i)) with hvalid | hnot
  · obtain ⟨p, hnext⟩ : ∃ p, next (pte s d la) = some p :=
      ⟨_, next_of_valid (by rwa [hwas])⟩
    have hp := h.page_of_pte hd hla hnext
    have hfound : pte2page (s.words q i) s = .ok (.ok p, s) :=
      pte2page_of h hp (hwas ▸ hnext) s
    rcases eq_or_ne p page with rfl | hne
    · refine ⟨{ s with ref := Function.update s.ref p (s.ref p - 1) }, pages, owner, ?_,
        h.congr rfl rfl, hpage, hslot, .same hnext (counted_dec h hc hpage) rfl rfl⟩
      rw [replaceEntry, getState_bind, if_pos hvalid, bind_of_ok hfound, if_pos rfl]
      rfl
    · have hzero : ∀ u, next (pte s d la) = some u → extraOne page u = 0 := by
        intro u hu
        rw [hnext] at hu
        cases hu
        exact if_neg hne
      obtain ⟨s', pages', owner', w, hrun, h', hc', hw, hchanged, hslot'⟩ :=
        pageRemovePte_of h hc hd hla hslot hzero
      refine ⟨s', pages', owner', ?_, h', ?_, hslot', .empty hc' hw hchanged⟩
      · rw [replaceEntry, getState_bind, if_pos hvalid, bind_of_ok hfound, if_neg hne]
        exact hrun
      · by_contra hout
        have hcard := card_changed hd hla hchanged.pte page
        rw [next_of_not hw, hnext] at hcard
        simp only [reduceCtorEq, if_false, Option.some.injEq, hne] at hcard
        have hboth := (hchanged.dropped page hpage).mp hout
        omega
  · refine ⟨s, pages, owner, ?_, h, hpage, hslot,
      .empty hc (by rwa [hwas]) (changed_refl s dirs pages d la)⟩
    rw [replaceEntry, getState_bind, if_neg hnot]
    rfl

theorem pageInsert_of (h : Owned s dirs pages owner) (hc : Counted s dirs pages 0)
    (hd : d ∈ dirs) (hla : la < USERTOP) (hpage : page ∈ pages) {perm : BitVec 32}
    (hperm : perm.toNat < 2 ^ 10) :
    ∃ r s' pages' owner', pageInsert d page la perm s = .ok (r, s') ∧
      Owned s' dirs pages' owner' ∧ Counted s' dirs pages' 0 ∧
      Inserted dirs d page la (pteCreate page (0x001 ||| perm)) s pages s' pages' r := by
  obtain ⟨r, s₁, owner₁, hget, h₁, hextends, hfound⟩ := getPte_true h hd hla
  have hc₁ := counted_extends hextends h h₁ hc
  cases r with
  | none =>
      have hsame := (changed_refl s₁ dirs pages d la).of_extends hextends h h₁
      rw [hextends.pte d hd la hla] at hsame
      refine ⟨.error .eNoMem, s₁, pages, owner₁, ?_, h₁, hc₁, .failed rfl hsame⟩
      rw [pageInsert, bind_of_ok hget]
      rfl
  | some at' =>
      obtain ⟨q, i⟩ := at'
      have hslot := hfound _ rfl
      have hbound : page < npage := h.bound page (by rw [(h.page page).mp hpage]; simp)
      have hw : next (pteCreate page (0x001 ||| perm)) = some page := by
        rw [next_of_valid (valid_pteCreate _ _), frameOf_pteCreate hbound (perm_lt hperm)]
      let s₂ : Memory := { s₁ with ref := Function.update s₁.ref page (s₁.ref page + 1) }
      have h₂ : Owned s₂ dirs pages owner₁ := h₁.congr rfl rfl
      obtain ⟨s₃, pages', owner', hreplace, h₃, hpage', hslot', hcleared⟩ :=
        replaceEntry_of h₂ (counted_inc h₁ hc₁ hpage) hd hla hslot hpage
      let s₄ : Memory := { s₃ with
        words := Function.update s₃.words q
          (Function.update (s₃.words q) i (pteCreate page (0x001 ||| perm))) }
      have hrun : pageInsert d page la perm s = .ok (.ok (), s₄) := by
        rw [pageInsert, bind_of_ok hget]
        show (pageRefInc page >>= fun _ => _) s₁ = _
        rw [pageRefInc, modifyState_bind, bind_of_ok hreplace]
        rfl
      cases hcleared with
      | empty hc₃ hinvalid hchanged =>
          obtain ⟨h₄, hc₄, hinserts⟩ :=
            inserts s₄ h₃ hc₃ hd hla hslot' hpage' hw hchanged hinvalid rfl rfl rfl
          have hchanged' := hinserts.congr (s := s₁) (by rfl) (by rfl)
          exact ⟨_, s₄, pages', owner', hrun, h₄, hc₄,
            .done hpage' (hchanged'.of_extends hextends h h₁)⟩
      | same hold hc₃ hwords hfree =>
          have hold' : next (pte s₃ d la) = some page := by
            rw [pte_congr hwords]
            exact hold
          obtain ⟨h₄, hc₄, hinserts⟩ :=
            reinserts s₄ h₃ hc₃ hd hla hslot' hpage' hold' hw rfl rfl rfl
          have hchanged' := hinserts.congr (s := s₁) hwords hfree
          exact ⟨_, s₄, pages, owner', hrun, h₄, hc₄,
            .done hpage' (hchanged'.of_extends hextends h h₁)⟩

theorem pageRemove_of (h : Owned s dirs pages owner) (hc : Counted s dirs pages 0)
    (hd : d ∈ dirs) (hla : la < USERTOP) :
    ∃ s' pages' owner' w, pageRemove d la s = .ok (.ok (), s') ∧ Owned s' dirs pages' owner' ∧
      Counted s' dirs pages' 0 ∧ Changed dirs d la w s pages s' pages' := by
  have hget := getPte_false h hd hla
  cases hslot : slot s d la with
  | none =>
      rw [hslot] at hget
      refine ⟨s, pages, owner, _, ?_, h, hc, changed_refl s dirs pages d la⟩
      rw [pageRemove, bind_of_ok hget]
      rfl
  | some at' =>
      rw [hslot] at hget
      obtain ⟨s', pages', owner', w, hrun, h', hc', _, hchanged, _⟩ :=
        pageRemovePte_of h hc hd hla hslot fun _ _ => rfl
      refine ⟨s', pages', owner', w, ?_, h', hc', hchanged⟩
      rw [pageRemove, bind_of_ok hget]
      exact hrun

/-- A frame that was just allocated is a page that is mapped nowhere. -/
theorem handed_out (s' : Memory) (h : Owned s dirs pages owner) (hc : Counted s dirs pages 0)
    (hfree : s.free page = true) (hwords : s'.words = s.words) (href : s'.ref = s.ref)
    (hfree' : s'.free = Function.update s.free page false) :
    Owned s' dirs (insert page pages) (Function.update owner page .page) ∧
      Counted s' dirs (insert page pages) 0 ∧ mappings s' dirs page = ∅ ∧ page ∉ pages := by
  have howner := (h.free page).mp hfree
  have hout : page ∉ pages := by
    rw [h.page page, howner]
    simp
  have hnone : mappings s dirs page = ∅ := by
    by_contra hsome
    obtain ⟨⟨d, v⟩, hmem⟩ := Finset.nonempty_iff_ne_empty.mpr hsome
    obtain ⟨hd, hv, hnext⟩ := mem_mappings.mp hmem
    exact hout (h.page_of_pte hd (by
      change v < 0x80000000 / 4096 at hv
      show v * 4096 < 0x80000000
      omega) hnext)
  have hsame : ∀ u, mappings s' dirs u = mappings s dirs u :=
    fun u => mappings_congr fun d _ la _ => pte_congr hwords d la
  refine ⟨h.handedOut hfree hwords hfree', ⟨?_, ?_⟩, (hsame page).trans hnone, hout⟩
  · intro u hu
    rw [hsame, href]
    rcases Finset.mem_insert.mp hu with rfl | hmem
    · rw [hnone, hc.freeRef u hfree]
      rfl
    · exact hc.ref u hmem
  · intro u hu
    rw [hfree'] at hu
    rw [href]
    rcases eq_or_ne u page with rfl | hne
    · rw [Function.update_self] at hu
      cases hu
    · rw [Function.update_of_ne hne] at hu
      exact hc.freeRef u hu

/-- The page that could not be mapped is given back. -/
theorem given_back (h : Owned s dirs pages owner) (hc : Counted s dirs pages 0)
    (hpage : page ∈ pages) (hnone : mappings s dirs page = ∅) :
    ∃ s', freePage page s = .ok (.ok (), s') ∧
      Owned s' dirs (pages.erase page) (Function.update owner page .free) ∧
      Counted s' dirs (pages.erase page) 0 ∧ s'.words = s.words ∧
      s'.free = Function.update s.free page true := by
  let s' : Memory := { s with
    free := Function.update s.free page true
    ref := Function.update s.ref page 0 }
  refine ⟨s', rfl, h.released hpage ?_ rfl rfl, ⟨?_, ?_⟩, rfl, rfl⟩
  · intro d hd la hla hnext
    have hin : (d, la / PGSIZE) ∈ mappings s dirs page :=
      mem_mappings.mpr ⟨hd, page_lt hla, by rwa [pte_page]⟩
    rw [hnone] at hin
    exact absurd hin (Finset.notMem_empty _)
  · intro u hu
    obtain ⟨hne, hmem⟩ := Finset.mem_erase.mp hu
    show Function.update s.ref page 0 u = _
    rw [Function.update_of_ne hne]
    exact hc.ref u hmem
  · intro u hu
    show Function.update s.ref page 0 u = 0
    rcases eq_or_ne u page with rfl | hne
    · exact Function.update_self _ _ _
    · rw [Function.update_of_ne hne]
      change Function.update s.free page true u = true at hu
      rw [Function.update_of_ne hne] at hu
      exact hc.freeRef u hu

end Operations

section Runs

/-- The memory, and the pages that were handed out by `alloc_page` and were not given back. -/
structure System where
  memory : Memory
  pages : Finset Nat

/-- What the kernel calls. -/
inductive Call where
  | allocPage
  | pageInsert (pgdir page la : Nat) (perm : BitVec 32)
  | pageRemove (pgdir la : Nat)
  | pgdirAllocPage (pgdir la : Nat) (perm : BitVec 32)

/-- What a caller has to see to: it has the page that it maps, and `perm` are flags. -/
def Call.Permitted (dirs pages : Finset Nat) : Call → Prop
  | .allocPage => True
  | .pageInsert d page la perm => d ∈ dirs ∧ la < USERTOP ∧ page ∈ pages ∧ perm.toNat < 2 ^ 10
  | .pageRemove d la => d ∈ dirs ∧ la < USERTOP
  | .pgdirAllocPage d la perm => d ∈ dirs ∧ la < USERTOP ∧ perm.toNat < 2 ^ 10

/-- The call, and the page that it returns, if any. -/
def perform : Call → Routine Memory (Option Nat)
  | .allocPage => allocPage
  | .pageInsert d page la perm => do
      let _ ← attempt (pageInsert d page la perm)
      return none
  | .pageRemove d la => do
      pageRemove d la
      return none
  | .pgdirAllocPage d la perm => pgdirAllocPage d la perm

/-- The call is about the translation of this address. -/
def Call.About : Call → Nat → Nat → Prop
  | .allocPage, _, _ => False
  | .pageInsert d _ la _, d', la' => d' = d ∧ la' / PGSIZE = la / PGSIZE
  | .pageRemove d la, d', la' => d' = d ∧ la' / PGSIZE = la / PGSIZE
  | .pgdirAllocPage d la _, d', la' => d' = d ∧ la' / PGSIZE = la / PGSIZE

/-- The pages after a call that returned `r`. -/
def pagesAfter (m : Memory) (pages : Finset Nat) (r : Option Nat) : Finset Nat :=
  (r.toFinset ∪ pages).filter fun p => m.free p = false

inductive Step (dirs : Finset Nat) (s : System) : System → Prop
  | call {call : Call} {r : Option Nat} {m : Memory} : call.Permitted dirs s.pages →
      perform call s.memory = .ok (.ok r, m) → Step dirs s ⟨m, pagesAfter m s.pages r⟩

/-- The page directories are empty, and no page is handed out yet. -/
structure Starts (dirs : Finset Nat) (s : System) : Prop where
  pages : s.pages = ∅
  used : ∀ d ∈ dirs, d < npage ∧ s.memory.free d = false
  empty : ∀ d ∈ dirs, ∀ i, User [i] → s.memory.words d i = 0
  free : ∀ p, s.memory.free p = true → p < npage ∧ s.memory.ref p = 0

/-- What a call leaves. -/
structure Outcome (dirs : Finset Nat) (call : Call) (s : System) (s' : System) : Prop where
  owned : ∃ owner, Owned s'.memory dirs s'.pages owner
  counted : Counted s'.memory dirs s'.pages 0
  freed : ∀ p, (s.memory.free p = false ∧ s'.memory.free p = true) ↔
    0 < (mappings s.memory dirs p).card ∧ (mappings s'.memory dirs p).card = 0
  frame : ∀ d ∈ dirs, ∀ la < USERTOP, ¬call.About d la →
    pte s'.memory d la = pte s.memory d la

variable {call : Call} {m m' : Memory}

theorem page_of_card (h : Owned m dirs pages owner)
    (hpos : 0 < (mappings m dirs p).card) : p ∈ pages := by
  obtain ⟨⟨d, v⟩, hmem⟩ := Finset.card_pos.mp hpos
  obtain ⟨hd, hv, hnext⟩ := mem_mappings.mp hmem
  refine h.page_of_pte hd ?_ hnext
  change v < 0x80000000 / 4096 at hv
  show v * 4096 < 0x80000000
  omega

theorem pages_of_changed (h' : Owned m' dirs pages' owner')
    (hchanged : Changed dirs d la w m pages m' pages') :
    pages.filter (fun p => m'.free p = false) = pages' := by
  ext p
  rw [Finset.mem_filter]
  constructor
  · rintro ⟨hp, hused⟩
    by_contra hout
    rw [hchanged.given p hp hout] at hused
    cases hused
  · intro hp
    exact ⟨hchanged.subset hp, h'.free_of_page hp⟩

/-- A page is free now, and was not, when the last entry for it is gone. -/
theorem freed_of_changed (h : Owned m dirs pages owner)
    (hchanged : Changed dirs d la w m pages m' pages') (p : Nat) :
    (m.free p = false ∧ m'.free p = true) ↔
      0 < (mappings m dirs p).card ∧ (mappings m' dirs p).card = 0 := by
  constructor
  · rintro ⟨hused, hfree⟩
    rcases hchanged.free p hfree with hbefore | ⟨hp, hout⟩
    · rw [hused] at hbefore
      cases hbefore
    · exact (hchanged.dropped p hp).mp hout
  · intro hboth
    have hp := page_of_card h hboth.1
    exact ⟨h.free_of_page hp, hchanged.given p hp ((hchanged.dropped p hp).mpr hboth)⟩

theorem outcome_of_changed {s s' : System} (h : Owned s.memory dirs s.pages owner)
    (h' : Owned s'.memory dirs s'.pages owner') (hc' : Counted s'.memory dirs s'.pages 0)
    (hchanged : Changed dirs d la w s.memory s.pages s'.memory s'.pages)
    (habout : ∀ d' la', ¬call.About d' la' → ¬(d' = d ∧ la' / PGSIZE = la / PGSIZE)) :
    Outcome dirs call s s' := by
  refine ⟨⟨owner', h'⟩, hc', freed_of_changed h hchanged, ?_⟩
  intro d' hd' la' hla' hnot
  rw [hchanged.pte d' hd' la' hla', if_neg (habout d' la' hnot)]

/-- The call returns, and leaves what it should. -/
def Performs (dirs : Finset Nat) (call : Call) (s : System) : Prop :=
  ∃ r m, perform call s.memory = .ok (.ok r, m) ∧
    Outcome dirs call s ⟨m, pagesAfter m s.pages r⟩

theorem performs_pageInsert {s : System} {perm : BitVec 32} (h : Owned s.memory dirs s.pages owner)
    (hc : Counted s.memory dirs s.pages 0) (hd : d ∈ dirs) (hla : la < USERTOP)
    (hpage : page ∈ s.pages) (hperm : perm.toNat < 2 ^ 10) :
    Performs dirs (.pageInsert d page la perm) s := by
  obtain ⟨r, m, pages', owner', hinsert, h', hc', hinserted⟩ := pageInsert_of h hc hd hla hpage hperm
  refine ⟨none, m, ?_, ?_⟩
  · rw [perform, attempt_bind_of_ok hinsert]
    rfl
  · have houtcome : ∀ {w}, Changed dirs d la w s.memory s.pages m pages' →
        Outcome dirs (.pageInsert d page la perm) s ⟨m, pagesAfter m s.pages none⟩ := by
      intro w hchanged
      rw [pagesAfter, Option.toFinset_none, Finset.empty_union, pages_of_changed h' hchanged]
      exact outcome_of_changed h h' hc' hchanged fun _ _ => id
    cases hinserted with
    | done _ hchanged => exact houtcome hchanged
    | failed _ hchanged => exact houtcome hchanged

theorem performs_pageRemove {s : System} (h : Owned s.memory dirs s.pages owner)
    (hc : Counted s.memory dirs s.pages 0) (hd : d ∈ dirs) (hla : la < USERTOP) :
    Performs dirs (.pageRemove d la) s := by
  obtain ⟨m, pages', owner', w, hremove, h', hc', hchanged⟩ := pageRemove_of h hc hd hla
  refine ⟨none, m, ?_, ?_⟩
  · rw [perform, bind_of_ok hremove]
    rfl
  · rw [pagesAfter, Option.toFinset_none, Finset.empty_union, pages_of_changed h' hchanged]
    exact outcome_of_changed h h' hc' hchanged fun _ _ => id

/-- A call that changed no entry, and gave no page back. -/
theorem outcome_of_same {s s' : System} (h' : Owned s'.memory dirs s'.pages owner')
    (hc' : Counted s'.memory dirs s'.pages 0)
    (hfree : ∀ p, s'.memory.free p = true → s.memory.free p = true)
    (hpte : ∀ d ∈ dirs, ∀ la < USERTOP, pte s'.memory d la = pte s.memory d la) :
    Outcome dirs call s s' := by
  refine ⟨⟨owner', h'⟩, hc', ?_, fun d hd la hla _ => hpte d hd la hla⟩
  intro p
  rw [mappings_congr hpte]
  refine iff_of_false ?_ (by omega)
  rintro ⟨hused, hfreed⟩
  rw [hfree p hfreed] at hused
  cases hused

theorem filter_used (h : Owned m dirs pages owner) :
    pages.filter (fun p => m.free p = false) = pages :=
  Finset.filter_true_of_mem fun _ hp => h.free_of_page hp

theorem performs_allocPage {s : System} (h : Owned s.memory dirs s.pages owner)
    (hc : Counted s.memory dirs s.pages 0) : Performs dirs .allocPage s := by
  rcases allocPage_cases s.memory with ⟨grants, halloc⟩ | ⟨page, grants, hfree, halloc⟩
  · refine ⟨none, _, halloc, ?_⟩
    have h' : Owned { s.memory with grants := grants } dirs s.pages owner := h.congr rfl rfl
    rw [pagesAfter, Option.toFinset_none, Finset.empty_union, filter_used h']
    exact outcome_of_same h' ⟨hc.ref, hc.freeRef⟩ (fun _ => id) fun _ _ _ _ => rfl
  · refine ⟨some page, _, halloc, ?_⟩
    let m : Memory := { s.memory with
      free := Function.update s.memory.free page false
      grants := grants }
    obtain ⟨h', hc', _, _⟩ := handed_out m h hc hfree rfl rfl rfl
    rw [pagesAfter, Option.toFinset_some, ← Finset.insert_eq, filter_used h']
    refine outcome_of_same h' hc' ?_ fun _ _ _ _ => rfl
    intro p hp
    change Function.update s.memory.free page false p = true at hp
    rcases eq_or_ne p page with rfl | hne
    · exact hfree
    · rwa [Function.update_of_ne hne] at hp

/-- `pgdir_alloc_page` with a frame, after the page is mapped or given back. -/
theorem performs_pgdirAllocPage {s : System} {perm : BitVec 32}
    (h : Owned s.memory dirs s.pages owner) (hc : Counted s.memory dirs s.pages 0) (hd : d ∈ dirs)
    (hla : la < USERTOP) (hperm : perm.toNat < 2 ^ 10) :
    Performs dirs (.pgdirAllocPage d la perm) s := by
  rcases allocPage_cases s.memory with ⟨grants, halloc⟩ | ⟨page, grants, hfree, halloc⟩
  · refine ⟨none, { s.memory with grants := grants }, ?_, ?_⟩
    · rw [perform, pgdirAllocPage, bind_of_ok halloc]
      rfl
    · have h' : Owned { s.memory with grants := grants } dirs s.pages owner := h.congr rfl rfl
      rw [pagesAfter, Option.toFinset_none, Finset.empty_union, filter_used h']
      exact outcome_of_same h' ⟨hc.ref, hc.freeRef⟩ (fun _ => id) fun _ _ _ _ => rfl
  · let m₁ : Memory := { s.memory with
      free := Function.update s.memory.free page false
      grants := grants }
    obtain ⟨h₁, hc₁, hnone, hout⟩ := handed_out m₁ h hc hfree rfl rfl rfl
    have hback : ∀ p, m₁.free p = true → s.memory.free p = true := by
      intro p hp
      change Function.update s.memory.free page false p = true at hp
      rcases eq_or_ne p page with rfl | hne
      · exact hfree
      · rwa [Function.update_of_ne hne] at hp
    obtain ⟨r, m₂, pages', owner', hinsert, h₂, hc₂, hinserted⟩ :=
      pageInsert_of h₁ hc₁ hd hla (Finset.mem_insert_self page s.pages) hperm
    have hrun : perform (.pgdirAllocPage d la perm) s.memory = (match r with
        | .error _ => do
            freePage page
            return none
        | .ok () => return some page : Routine Memory (Option Nat)) m₂ := by
      rw [perform, pgdirAllocPage, bind_of_ok halloc]
      show (attempt (pageInsert d page la perm) >>= fun _ => _) m₁ = _
      rw [attempt_bind_of_ok hinsert]
      cases r with
      | ok => rfl
      | error => rfl
    cases hinserted with
    | done hpage hchanged =>
        refine ⟨some page, m₂, hrun, ?_⟩
        rw [pagesAfter, Option.toFinset_some, ← Finset.insert_eq, pages_of_changed h₂ hchanged]
        refine ⟨⟨owner', h₂⟩, hc₂, ?_, ?_⟩
        · intro p
          have hfreed := freed_of_changed h₁ hchanged p
          rcases eq_or_ne p page with rfl | hne
          · refine iff_of_false ?_ ?_
            · rintro ⟨hused, _⟩
              rw [hfree] at hused
              cases hused
            · rintro ⟨hpos, _⟩
              change 0 < (mappings m₁ dirs p).card at hpos
              rw [hnone] at hpos
              exact absurd hpos (lt_irrefl 0)
          · have hsame : m₁.free p = s.memory.free p := Function.update_of_ne hne _ _
            rw [hsame] at hfreed
            exact hfreed
        · intro d' hd' la' hla' hnot
          have hother : ¬(d' = d ∧ la' / PGSIZE = la / PGSIZE) := hnot
          rw [hchanged.pte d' hd' la' hla', if_neg hother]
          rfl
    | failed hpages hchanged =>
        have hsame : ∀ d' ∈ dirs, ∀ la' < USERTOP, pte m₂ d' la' = pte s.memory d' la' := by
          intro d' hd' la' hla'
          rw [hchanged.pte d' hd' la' hla']
          split
          · next hat =>
              obtain ⟨rfl, hpage⟩ := hat
              show pte s.memory d' la = pte s.memory d' la'
              rw [← pte_page s.memory d' la', hpage, pte_page]
          · rfl
        rw [hpages] at h₂ hc₂ hchanged
        have hnone₂ : mappings m₂ dirs page = ∅ := (mappings_congr hsame).trans hnone
        obtain ⟨m₃, hback', h₃, hc₃, hwords, hfree₃⟩ :=
          given_back h₂ hc₂ (Finset.mem_insert_self _ _) hnone₂
        rw [Finset.erase_insert hout] at h₃ hc₃
        refine ⟨none, m₃, ?_, ?_⟩
        · rw [hrun]
          show (freePage page >>= fun _ => pure none) m₂ = _
          rw [bind_of_ok hback']
          rfl
        · rw [pagesAfter, Option.toFinset_none, Finset.empty_union, filter_used h₃]
          refine outcome_of_same h₃ hc₃ ?_ ?_
          · intro p hp
            change m₃.free p = true at hp
            rw [hfree₃] at hp
            rcases eq_or_ne p page with rfl | hne
            · exact hfree
            · rw [Function.update_of_ne hne] at hp
              rcases hchanged.free p hp with hfirst | ⟨hmem, hgone⟩
              · exact hback p hfirst
              · exact absurd hmem hgone
          · intro d' hd' la' hla'
            rw [← hsame d' hd' la' hla']
            exact pte_congr hwords d' la'

structure Sound (dirs : Finset Nat) (s : System) : Prop where
  owned : ∃ owner, Owned s.memory dirs s.pages owner
  counted : Counted s.memory dirs s.pages 0

variable {s s' : System}

theorem Sound.performs (h : Sound dirs s) (hpermitted : call.Permitted dirs s.pages) :
    Performs dirs call s := by
  obtain ⟨⟨owner, howned⟩, hc⟩ := h
  cases call with
  | allocPage => exact performs_allocPage howned hc
  | pageInsert d page la perm =>
      obtain ⟨hd, hla, hpage, hperm⟩ := hpermitted
      exact performs_pageInsert howned hc hd hla hpage hperm
  | pageRemove d la =>
      obtain ⟨hd, hla⟩ := hpermitted
      exact performs_pageRemove howned hc hd hla
  | pgdirAllocPage d la perm =>
      obtain ⟨hd, hla, hperm⟩ := hpermitted
      exact performs_pgdirAllocPage howned hc hd hla hperm

theorem sound_step (h : Sound dirs s) (hstep : Step dirs s s') : Sound dirs s' := by
  obtain ⟨hpermitted, hrun⟩ := hstep
  obtain ⟨r, m, hperform, houtcome⟩ := h.performs hpermitted
  cases hperform.symm.trans hrun
  exact ⟨houtcome.owned, houtcome.counted⟩

/-- The page directories are owned where they start from. -/
theorem sound_starts (h : Starts dirs s) : Sound dirs s := by
  let owner : Nat → Role := fun p =>
    if s.memory.free p = true then .free else if p ∈ dirs then .table p [] else .other
  have hroot : ∀ d ∈ dirs, owner d = .table d [] := by
    intro d hd
    show (if s.memory.free d = true then _ else _) = _
    rw [(h.used d hd).2, if_neg (by simp), if_pos hd]
  have htable : ∀ {p d path}, owner p = .table d path → p = d ∧ path = [] ∧ p ∈ dirs := by
    intro p d path hp
    change (if s.memory.free p = true then _ else _) = _ at hp
    split at hp
    · cases hp
    · split at hp
      · next hd =>
          cases hp
          exact ⟨rfl, rfl, hd⟩
      · cases hp
  have hempty : ∀ d ∈ dirs, ∀ i, User [i] → ¬Valid (s.memory.words d i) := by
    intro d hd i huser
    rw [h.empty d hd i huser]
    exact not_valid_zero
  have hpte : ∀ d ∈ dirs, ∀ la < USERTOP, pte s.memory d la = 0 := by
    intro d hd la hla
    apply pte_of_none
    rw [slot, indices, RadixTables.locate_cons (by simp), next_of_not (hempty d hd _ (user_indices hla))]
    rfl
  refine ⟨⟨owner, ?_, ?_, ?_, hroot, ⟨?_⟩, ?_, ?_, ?_⟩, ⟨?_, fun p hp => (h.free p hp).2⟩⟩
  · intro p
    show _ ↔ (if s.memory.free p = true then _ else _) = _
    constructor
    · intro hp
      rw [if_pos hp]
    · intro hp
      by_contra hnot
      rw [if_neg hnot] at hp
      split at hp
      · cases hp
      · cases hp
  · intro p
    rw [h.pages]
    refine iff_of_false (Finset.notMem_empty _) ?_
    show ¬(if s.memory.free p = true then _ else _) = _
    split
    · simp
    · split
      · simp
      · simp
  · intro p hp
    change (if s.memory.free p = true then _ else _) ≠ _ at hp
    split at hp
    · next hfree => exact (h.free p hfree).1
    · split at hp
      · next hd => exact (h.used p hd).1
      · exact absurd rfl hp
  · intro p r path i q hp _ hallowed hnext
    obtain ⟨rfl, rfl, hd⟩ := htable (table_of_place hp)
    rw [next_of_not (hempty p hd i hallowed)] at hnext
    cases hnext
  · intro p d a b i hp
    cases (htable hp).2.1
  · intro q d path hq
    rw [(htable hq).2.1]
    simp
  · intro q d path i hq
    obtain ⟨rfl, rfl, hd⟩ := htable hq
    exact ⟨hd, trivial, rfl⟩
  · intro p hp
    rw [h.pages] at hp
    exact absurd hp (Finset.notMem_empty _)

/-- What holds of the pages at any time, and of any call that is made then. -/
structure PagesOk (dirs : Finset Nat) (s : System) : Prop where
  ref : ∀ d ∈ dirs, ∀ la < USERTOP, ∀ p, next (pte s.memory d la) = some p →
    s.memory.ref p = (mappings s.memory dirs p).card
  unmapped : ∀ p, s.memory.free p = true → mappings s.memory dirs p = ∅
  returns : ∀ call : Call, call.Permitted dirs s.pages →
    ∃ r m, perform call s.memory = .ok (.ok r, m)
  freed : ∀ (call : Call) r m, call.Permitted dirs s.pages →
    perform call s.memory = .ok (.ok r, m) →
    ∀ p, (s.memory.free p = false ∧ m.free p = true) ↔
      0 < (mappings s.memory dirs p).card ∧ (mappings m dirs p).card = 0
  frame : ∀ (call : Call) r m, call.Permitted dirs s.pages →
    perform call s.memory = .ok (.ok r, m) →
    ∀ d ∈ dirs, ∀ la < USERTOP, ¬call.About d la → pte m d la = pte s.memory d la

theorem Sound.pagesOk (h : Sound dirs s) : PagesOk dirs s := by
  obtain ⟨owner, howned⟩ := h.owned
  have hperformed : ∀ {call : Call} {r m}, call.Permitted dirs s.pages →
      perform call s.memory = .ok (.ok r, m) →
      Outcome dirs call s ⟨m, pagesAfter m s.pages r⟩ := by
    intro call r m hpermitted hrun
    obtain ⟨r', m', hperform, houtcome⟩ := h.performs hpermitted
    cases hperform.symm.trans hrun
    exact houtcome
  refine ⟨?_, ?_, ?_, fun call r m hpermitted hrun => (hperformed hpermitted hrun).freed,
    fun call r m hpermitted hrun => (hperformed hpermitted hrun).frame⟩
  · intro d hd la hla p hnext
    have hcount := h.counted.ref p (howned.page_of_pte hd hla hnext)
    rw [hcount]
    exact add_zero _
  · intro p hp
    by_contra hsome
    have hmem := page_of_card howned (Finset.card_pos.mpr (Finset.nonempty_iff_ne_empty.mpr hsome))
    rw [howned.free_of_page hmem] at hp
    cases hp
  · intro call hpermitted
    obtain ⟨r, m, hrun, _⟩ := h.performs hpermitted
    exact ⟨r, m, hrun⟩

theorem pagesOk_of_reaches (hstarts : Starts dirs s) (hrun : ReflTransGen (Step dirs) s s') :
    PagesOk dirs s' := by
  have hsound : Sound dirs s' :=
    holds_of_reaches (fun h hstep => sound_step h hstep) (sound_starts hstarts) hrun
  exact hsound.pagesOk

/-- One page directory, and five free frames. -/
def emptyDirectory : System where
  memory := {
    words := fun _ _ => 0
    ref := fun _ => 0
    free := fun p => decide (2 ≤ p ∧ p < 7)
    grants := [some 2, some 3, some 4, none, some 5] }
  pages := ∅

/-- A page is mapped, and then replaced by another one, which gives it back. -/
theorem pagesOk_of_reaches_replaced : ∃ s, ReflTransGen (Step {1}) emptyDirectory s ∧
    s.memory.free 2 = true ∧ PagesOk {1} s := by
  have hrun : ReflTransGen (Step {1}) emptyDirectory _ :=
    .single (@Step.call {1} emptyDirectory .allocPage _ _ trivial rfl)
  replace hrun := hrun.tail (@Step.call {1} _ (.pageInsert 1 2 0x1000 0x1F) _ _
    ⟨by decide, by decide, by decide, by decide⟩ rfl)
  replace hrun := hrun.tail (@Step.call {1} _ (.pgdirAllocPage 1 0x1000 0x1F) _ _
    ⟨by decide, by decide, by decide⟩ rfl)
  replace hrun := hrun.tail (@Step.call {1} _ (.pgdirAllocPage 1 0x1000 0x1F) _ _
    ⟨by decide, by decide, by decide⟩ rfl)
  refine ⟨_, hrun, rfl, ?_⟩
  have hstarts : Starts {1} emptyDirectory := by
    refine ⟨rfl, ?_, fun _ _ _ _ => rfl, ?_⟩
    · intro d hd
      rw [Finset.mem_singleton.mp hd]
      exact ⟨by decide, rfl⟩
    · intro p hp
      have hlt := (of_decide_eq_true hp).2
      exact ⟨lt_trans hlt (by decide), rfl⟩
  exact pagesOk_of_reaches hstarts hrun

end Runs

end Ucore.PageCounts
