import Ucore.KmallocSearch

/-! The blocks in the free list and the blocks handed out make up the pages of the heap. -/

namespace Ucore.KmallocHeap

open Ucore.KernelRoutine
open Ucore.DefaultPmm (PGSIZE)
open Ucore.Extents
open Ucore.ExtentLists
open Ucore.Kmalloc
open Ucore.Returning
open Ucore.KmallocLists
open Ucore.KmallocSearch

/-- The free list is `fs`, starting with the arena; `live` are handed out, and `owned` are the
pages that all of them are in. -/
structure Heap (s : Slob) (arena : Nat) (fs live : List Extent) (owned : Finset Nat) : Prop where
  list : FreeList s fs
  first : fs.head? = some ⟨arena, 1⟩
  pos : ∀ e ∈ live, 0 < e.size
  apart : live.Pairwise Apart
  cross : ∀ u, CoversAny fs u → ¬CoversAny live u
  covers : ∀ u, CoversAny fs u ∨ CoversAny live u ↔ u = arena ∨ u / pageUnits ∈ owned
  held : ∀ page ∈ owned, s.free page = false
  layout : ∀ page, page ∈ owned ∨ s.free page = true → arena + 1 < page * pageUnits

/-- The blocks handed out and the list of the big ones are as they were. -/
structure Kept (live : List Extent) (s s' : Slob) : Prop where
  units : ∀ a, CoversAny live a → s'.units a = s.units a
  next : ∀ a, CoversAny live a → s'.next a = s.next a
  nextBig : s'.nextBig = s.nextBig
  bigblocks : s'.bigblocks = s.bigblocks

variable {s s' s'' : Slob} {fs fs' live live' : List Extent} {e f : Extent} {owned : Finset Nat}
  {a arena page size u : Nat} {written : Nat → Prop}

section Pages

theorem pageUnits_pos : 0 < pageUnits := by
  decide

/-- The units of a page. -/
def pageExtent (page : Nat) : Extent :=
  ⟨page * pageUnits, pageUnits⟩

theorem units_of_page : SLOB_UNITS PGSIZE = pageUnits := by
  decide

theorem covers_page : Covers (pageExtent page) u ↔ u / pageUnits = page := by
  have hpos := pageUnits_pos
  rw [Nat.div_eq_iff hpos]
  simp only [Covers, pageExtent]
  omega

theorem inBlock_zero {q : Nat} : InBlock page 0 q ↔ q = page := by
  simp only [InBlock, Nat.shiftLeft_zero]
  omega

/-- What `alloc_pages` comes to. -/
theorem slobGetFreePages_of (order : Nat) :
    ∃ a s' rest, slobGetFreePages order s = .ok (.ok a, s') ∧
      (a = 0 ∧ s' = { s with grants := rest } ∨ ∃ page, page ≠ 0 ∧ a = page * pageUnits ∧
        (∀ q, InBlock page order q → s.free q = true) ∧
        s' = { s with
          free := mark s.free page order false
          grants := rest }) := by
  rw [slobGetFreePages]
  cases s.grants with
  | nil => exact ⟨0, s, s.grants, rfl, Or.inl ⟨rfl, rfl⟩⟩
  | cons grant rest =>
      cases grant with
      | none => exact ⟨0, _, rest, rfl, Or.inl ⟨rfl, rfl⟩⟩
      | some page =>
          rcases Decidable.em (page ≠ 0 ∧ ∀ i < 1 <<< order, s.free (page + i) = true) with
            hfree | hbusy
          · refine ⟨page * pageUnits, _, rest, if_pos hfree, Or.inr ⟨page, hfree.1, rfl, ?_, rfl⟩⟩
            intro q hq
            obtain ⟨hle, hlt⟩ := hq
            have hmem := hfree.2 (q - page) (by omega)
            rwa [Nat.add_sub_cancel' hle] at hmem
          · exact ⟨0, _, rest, if_neg hbusy, Or.inl ⟨rfl, rfl⟩⟩

end Pages

section Views

theorem coversAny_perm (h : live.Perm live') : CoversAny live u ↔ CoversAny live' u := by
  simp only [CoversAny, h.mem_iff]

theorem Heap.perm (h : Heap s arena fs live owned) (hperm : live.Perm live') :
    Heap s arena fs live' owned :=
  ⟨h.list, h.first, fun e he => h.pos e (hperm.mem_iff.mpr he),
    (hperm.pairwise_iff fun hab => Apart.symm hab).mp h.apart,
    fun u hu => (coversAny_perm hperm).not.mp (h.cross u hu),
    fun u => (or_congr_right (coversAny_perm hperm).symm).trans (h.covers u), h.held, h.layout⟩

theorem Heap.covers_arena (h : Heap s arena fs live owned) : CoversAny fs arena :=
  ⟨⟨arena, 1⟩, List.mem_of_mem_head? h.first, covers_base Nat.one_pos⟩

theorem Heap.live_owned (h : Heap s arena fs live owned) (hu : CoversAny live u) :
    u / pageUnits ∈ owned := by
  rcases (h.covers u).mp (Or.inr hu) with rfl | howned
  · exact absurd hu (h.cross u h.covers_arena)
  · exact howned

theorem Heap.live_above (h : Heap s arena fs live owned) (hu : CoversAny live u) :
    arena + 1 < u :=
  lt_of_lt_of_le (h.layout _ (Or.inl (h.live_owned hu))) (Nat.div_mul_le_self _ _)

theorem Heap.apart_list (h : Heap s arena fs live owned) (hpos : 0 < f.size)
    (hf : ∀ u, Covers f u → ¬CoversAny fs u) : ∀ e ∈ fs, Apart e f := by
  intro e he
  refine apart_of_not_covers (h.list.pos e he) hpos fun u hu hu' => ?_
  exact hf u hu' ⟨e, he, hu⟩

/-- A free page has nothing of the heap in it. -/
theorem Heap.page_apart (h : Heap s arena fs live owned) (hfree : s.free page = true)
    (hu : Covers (pageExtent page) u) : ¬(CoversAny fs u ∨ CoversAny live u) := by
  rw [h.covers, not_or]
  have hpage := covers_page.mp hu
  constructor
  · rintro rfl
    have habove := h.layout page (Or.inr hfree)
    have hle := Nat.div_mul_le_self u pageUnits
    rw [hpage] at hle
    omega
  · intro howned
    rw [hpage] at howned
    rw [h.held page howned] at hfree
    cases hfree

end Views

section Operations

theorem kept_of (h : Elsewhere written s s') (hlive : ∀ a, CoversAny live a → ¬written a) :
    Kept live s s' :=
  ⟨fun a ha => h.units a (hlive a ha), fun a ha => h.next a (hlive a ha), h.nextBig, h.bigblocks⟩

/-- A block handed out before goes back into the list. -/
theorem heap_free (h : Heap s arena fs (f :: live) owned) (hf : Sized s f size) :
    ∃ s' fs', Returns (fun fuel => slobFree fuel f.base size) s () s' ∧
      Heap s' arena fs' live owned ∧ (∀ u, CoversAny fs' u ↔ CoversAny fs u ∨ Covers f u) ∧
      Kept live s s' ∧ s'.free = s.free := by
  have hpos : 0 < f.size := h.pos f List.mem_cons_self
  obtain ⟨hfirst, hrest⟩ := List.pairwise_cons.mp h.apart
  have hlive : ∀ u, CoversAny live u → ¬Covers f u := by
    rintro u ⟨e, he, hu⟩ hu'
    exact (hfirst e he).not_covers hu' hu
  have hcross : ∀ u, CoversAny fs u → ¬Covers f u ∧ ¬CoversAny live u := by
    intro u hu
    have hboth := h.cross u hu
    rwa [coversAny_cons, not_or] at hboth
  have habove : arena + 1 < f.base :=
    h.live_above (coversAny_cons.mpr (Or.inl (covers_base hpos)))
  have hapart := h.apart_list hpos fun u hu hu' => (hcross u hu').1 hu
  obtain ⟨s', fs', hruns, hback⟩ := slobFree_of h.list h.first habove hpos hapart hf
  refine ⟨s', fs', hruns, ⟨hback.list, hback.first.trans h.first,
    fun e he => h.pos e (List.mem_cons_of_mem _ he), hrest, fun u hu => ?_, fun u => ?_, ?_, ?_⟩,
    hback.covers, kept_of hback.elsewhere fun a ha hwritten => ?_, hback.elsewhere.free⟩
  · rcases (hback.covers u).mp hu with hu | hu
    · exact (hcross u hu).2
    · exact fun hl => hlive u hl hu
  · rw [hback.covers, ← h.covers, coversAny_cons, or_assoc]
  · rw [hback.elsewhere.free]
    exact h.held
  · rw [hback.elsewhere.free]
    exact h.layout
  · rcases hwritten with hu | hu
    · exact (hcross a hu).2 ha
    · exact hlive a ha hu

/-- A new page goes into the list. -/
theorem heap_page (h : Heap s arena fs live owned) (hfree : s.free page = true)
    {rest : List (Option Nat)} :
    ∃ s' fs', Returns (fun fuel => slobFree fuel (page * pageUnits) PGSIZE)
        { s with
          free := mark s.free page 0 false
          grants := rest } () s' ∧
      Heap s' arena fs' live (insert page owned) ∧ (∃ e ∈ fs', pageUnits ≤ e.size) ∧
      Kept live s s' ∧ s'.free = mark s.free page 0 false := by
  have hpos : 0 < (pageExtent page).size := pageUnits_pos
  have hout : ∀ u, Covers (pageExtent page) u → ¬CoversAny fs u ∧ ¬CoversAny live u :=
    fun u hu => not_or.mp (h.page_apart hfree hu)
  have hlist : FreeList { s with
      free := mark s.free page 0 false
      grants := rest } fs := ⟨h.list.links, h.list.units, h.list.ordered, h.list.pos, h.list.slobfree⟩
  have hsized : Sized { s with
      free := mark s.free page 0 false
      grants := rest } (pageExtent page) PGSIZE := by
    rw [Sized, if_pos (by decide)]
    exact units_of_page
  obtain ⟨s', fs', hruns, hback⟩ := slobFree_of hlist h.first (h.layout page (Or.inr hfree)) hpos
    (h.apart_list hpos fun u hu => (hout u hu).1) hsized
  have hmark : s'.free = mark s.free page 0 false := hback.elsewhere.free
  have hwas : ∀ q, s'.free q = true → q ≠ page ∧ s.free q = true := by
    intro q hq
    rw [hmark, mark] at hq
    split at hq
    · cases hq
    · rename_i hne
      exact ⟨fun heq => hne (inBlock_zero.mpr heq), hq⟩
  refine ⟨s', fs', hruns, ⟨hback.list, hback.first.trans h.first, h.pos, h.apart, fun u hu => ?_,
    fun u => ?_, fun q hq => ?_, fun q hq => ?_⟩, hback.room, ?_, hmark⟩
  · rcases (hback.covers u).mp hu with hu | hu
    · exact h.cross u hu
    · exact (hout u hu).2
  · have hcovers := h.covers u
    rw [hback.covers, Finset.mem_insert, covers_page]
    tauto
  · rcases Bool.eq_false_or_eq_true (s'.free q) with htrue | hfalse
    · obtain ⟨hne, hqfree⟩ := hwas q htrue
      have howned := (Finset.mem_insert.mp hq).resolve_left hne
      rw [h.held q howned] at hqfree
      cases hqfree
    · exact hfalse
  · rcases hq with hq | hq
    · rcases Finset.mem_insert.mp hq with rfl | hq
      · exact h.layout q (Or.inr hfree)
      · exact h.layout q (Or.inl hq)
    · exact h.layout q (Or.inr (hwas q hq).2)
  · have hkept : Kept live _ s' := kept_of hback.elsewhere fun a ha hwritten => ?_
    · exact ⟨hkept.units, hkept.next, hkept.nextBig, hkept.bigblocks⟩
    · rcases hwritten with hu | hu
      · exact h.cross a hu ha
      · exact (hout a hu).2 ha

/-- The block that `slob_alloc` returns is handed out. -/
theorem heap_taken (h : Heap s arena fs live owned) (htaken : TakenOut s fs f s' fs')
    (hpos : 0 < f.size) : Heap s' arena fs' (f :: live) owned ∧ Kept live s s' := by
  have hfree : s'.free = s.free := htaken.elsewhere.free
  have hwas : ∀ u, CoversAny fs' u → CoversAny fs u :=
    fun u hu => (htaken.covers u).mpr (Or.inl hu)
  have hf : ∀ u, Covers f u → ¬CoversAny live u :=
    fun u hu => h.cross u ((htaken.covers u).mpr (Or.inr hu))
  refine ⟨⟨htaken.list, htaken.first.trans h.first, fun e he => ?_, ?_, fun u hu => ?_, fun u => ?_,
    hfree ▸ h.held, hfree ▸ h.layout⟩, kept_of htaken.elsewhere fun a ha hu => h.cross a hu ha⟩
  · rcases List.mem_cons.mp he with rfl | he
    · exact hpos
    · exact h.pos e he
  · refine List.pairwise_cons.mpr ⟨fun e he => ?_, h.apart⟩
    exact apart_of_not_covers hpos (h.pos e he) fun u hu hu' => hf u hu ⟨e, he, hu'⟩
  · rw [coversAny_cons, not_or]
    refine ⟨fun hu' => ?_, h.cross u (hwas u hu)⟩
    obtain ⟨e, he, hu⟩ := hu
    exact (htaken.apart e he).not_covers hu hu'
  · rw [← h.covers, htaken.covers, coversAny_cons, or_assoc]

/-- The pages that are not free any more belong to the heap now. -/
structure Grown (s s' : Slob) (owned owned' : Finset Nat) : Prop where
  owned : ∀ page, page ∈ owned' ↔ page ∈ owned ∨ s.free page = true ∧ s'.free page = false
  free : ∀ page, s'.free page = true → s.free page = true

theorem grown_same (hfree : s'.free = s.free) : Grown s s' owned owned := by
  refine ⟨fun page => ⟨Or.inl, fun hpage => hpage.resolve_right ?_⟩, fun page => ?_⟩
  · rintro ⟨htrue, hfalse⟩
    rw [hfree, htrue] at hfalse
    cases hfalse
  · rw [hfree]
    exact id

theorem grown_page (hfree : s.free page = true) (hmark : s'.free = mark s.free page 0 false) :
    Grown s s' owned (insert page owned) := by
  have hpage : ∀ q, s'.free q = if q = page then false else s.free q := by
    intro q
    rw [hmark, mark, if_congr inBlock_zero rfl rfl]
  refine ⟨fun q => ?_, fun q hq => ?_⟩
  · rw [Finset.mem_insert, hpage q]
    rcases eq_or_ne q page with rfl | hne
    · simp [hfree]
    · cases hq : s.free q <;> simp [hne]
  · rw [hpage q] at hq
    split at hq
    · cases hq
    · exact hq

theorem Kept.trans (h : Kept live s s') (h' : Kept live s' s'') : Kept live s s'' :=
  ⟨fun a ha => (h'.units a ha).trans (h.units a ha), fun a ha => (h'.next a ha).trans (h.next a ha),
    h'.nextBig.trans h.nextBig, h'.bigblocks.trans h.bigblocks⟩

/-- `slob_alloc` hands out a block, or it returns `NULL`. -/
def Allocated (arena units : Nat) (live : List Extent) (owned : Finset Nat) (s : Slob) (a : Nat)
    (s' : Slob) : Prop :=
  ∃ fs' owned', Kept live s s' ∧ Grown s s' owned owned' ∧
    (a = 0 ∧ Heap s' arena fs' live owned' ∨
      a ≠ 0 ∧ Heap s' arena fs' (⟨a, units⟩ :: live) owned' ∧ s'.units a = units)

theorem allocated_of_taken {units : Nat} {owned' : Finset Nat} (h : Heap s' arena fs live owned')
    (hkept : Kept live s s') (hgrown : Grown s s' owned owned')
    (htaken : TakenOut s' fs ⟨a, units⟩ s'' fs') (hunits : 0 < units) :
    Allocated arena units live owned s a s'' := by
  obtain ⟨hheap, hkept'⟩ := heap_taken h htaken hunits
  have habove : arena + 1 < a :=
    hheap.live_above (coversAny_cons.mpr (Or.inl (covers_base hunits)))
  have hfree : s''.free = s'.free := htaken.elsewhere.free
  refine ⟨fs', owned', hkept.trans hkept', ⟨?_, ?_⟩,
    Or.inr ⟨by omega, hheap, htaken.units⟩⟩
  · rw [hfree]
    exact hgrown.owned
  · rw [hfree]
    exact hgrown.free

theorem refill_of (h : Heap s arena fs live owned) (hunits : 2 ≤ SLOB_UNITS size)
    (hroom : SLOB_UNITS size ≤ pageUnits) (hsize : size ≠ PGSIZE) :
    ∃ a s', Returns (refill size (SLOB_UNITS size)) s a s' ∧
      Allocated arena (SLOB_UNITS size) live owned s a s' := by
  obtain ⟨a, t, rest, hget, ⟨rfl, rfl⟩ | ⟨page, hne, rfl, hfree, rfl⟩⟩ :=
    slobGetFreePages_of (s := s) 0
  · refine ⟨0, { s with grants := rest }, Returns.of_eq fun fuel => ?_, fs, owned,
      ⟨fun _ _ => rfl, fun _ _ => rfl, rfl, rfl⟩, grown_same rfl, Or.inl ⟨rfl, ?_⟩⟩
    · rw [refill, bind_of_ok hget, if_pos rfl]
      rfl
    · exact ⟨⟨h.list.links, h.list.units, h.list.ordered, h.list.pos, h.list.slobfree⟩, h.first,
        h.pos, h.apart, h.cross, h.covers, h.held, h.layout⟩
  · have hpage : s.free page = true := hfree page (inBlock_zero.mpr rfl)
    obtain ⟨s₁, fs₁, hruns₁, hheap, ⟨e, he, hlong⟩, hkept, hmark⟩ := @heap_page _ _ _ _ _ _ h hpage rest
    rcases @search_of _ _ _ size _ hheap.list hheap.first hunits hsize with
      ⟨s', fs', c, hruns, htaken⟩ | ⟨hall, _⟩
    · refine ⟨c, s', ?_, allocated_of_taken hheap hkept (grown_page hpage hmark) htaken (by omega)⟩
      have hafter : Returns (fun fuel => do
          slobFree fuel (page * pageUnits) PGSIZE
          let s ← getState
          slobAllocLoop size (SLOB_UNITS size) fuel s.slobfree (s.next s.slobfree)) _ c s' :=
        Returns.bind hruns₁ hruns
      refine Returns.congr (fun fuel => ?_) hafter
      have hnonzero : page * pageUnits ≠ 0 := Nat.mul_ne_zero hne pageUnits_pos.ne'
      rw [refill, bind_of_ok hget, if_neg hnonzero]
    · have hshort := hall e he
      omega

theorem heap_alloc (h : Heap s arena fs live owned) (hsize : size + SLOB_UNIT < PGSIZE)
    (hunits : 2 ≤ SLOB_UNITS size) :
    ∃ a s', Returns (fun fuel => slobAlloc fuel size) s a s' ∧
      Allocated arena (SLOB_UNITS size) live owned s a s' := by
  have hbound : size + 16 < 4096 := hsize
  have hroom : SLOB_UNITS size ≤ pageUnits := by
    change (size + 16 - 1) / 16 ≤ 256
    omega
  have hne : size ≠ PGSIZE := by
    change size ≠ 4096
    omega
  have hstart : ∀ a s', Returns (fun fuel => slobAllocLoop size (SLOB_UNITS size) fuel s.slobfree
      (s.next s.slobfree)) s a s' → Returns (fun fuel => slobAlloc fuel size) s a s' := by
    intro a s' hruns
    refine Returns.congr (fun fuel => ?_) hruns
    show slobAlloc fuel size s = _
    rw [slobAlloc, ensure_bind_of hsize, getState_bind]
  rcases @search_of _ _ _ size _ h.list h.first hunits hne with
    ⟨s', fs', c, hruns, htaken⟩ | ⟨_, hrefill⟩
  · exact ⟨c, s', hstart c s' hruns, allocated_of_taken h ⟨fun _ _ => rfl, fun _ _ => rfl, rfl, rfl⟩
      (grown_same rfl) htaken (by omega)⟩
  · obtain ⟨a, s', hruns, hallocated⟩ := refill_of h hunits hroom hne
    exact ⟨a, s', hstart a s' (hrefill a s' hruns), hallocated⟩

end Operations

end Ucore.KmallocHeap
