import Mathlib.Algebra.BigOperators.Group.Finset.Basic
import Mathlib.Data.Finset.Union
import Mathlib.Logic.Relation
import Ucore.KmallocBlocks

/-! What holds of the SLOB heap after any calls of `kmalloc` and `kfree`. -/

namespace Ucore.KmallocRuns

open Ucore.DefaultPmm (PGSIZE)
open Ucore.Extents
open Ucore.ExtentLists
open Ucore.Kmalloc
open Ucore.Returning
open Ucore.KmallocLists
open Ucore.KmallocHeap
open Ucore.KmallocBlocks

section Runs

/-- The heap and the blocks that were returned and not freed yet. -/
structure System where
  slob : Slob
  live : List Block

/-- The sizes that the assertion of `slob_alloc` lets through. -/
def Permitted (size : Nat) : Prop :=
  1 ≤ size ∧ (size < PGSIZE - SLOB_UNIT → size + SLOB_UNIT + SLOB_UNIT < PGSIZE)

inductive Step : System → System → Prop
  | kmalloc {s s' : Slob} {live : List Block} {size a : Nat} (hsize : Permitted size)
      (hruns : Returns (fun fuel => kmalloc fuel size) s a s') :
      Step ⟨s, live⟩ ⟨s', handedOut s' size a live⟩
  | kfree {s s' : Slob} {as bs : List Block} {b : Block}
      (hruns : Returns (fun fuel => kfree fuel b.addr) s () s') :
      Step ⟨s, as ++ b :: bs⟩ ⟨s', as ++ bs⟩

def Reaches (sys sys' : System) : Prop :=
  Relation.ReflTransGen Step sys sys'

/-- The arena is linked to itself; whatever else is in memory does not matter. -/
def start (arena : Nat) (units next nextBig : Nat → Nat) (free : Nat → Bool)
    (grants : List (Option Nat)) : System :=
  ⟨{ units := Function.update units arena 1
     next := Function.update next arena arena
     nextBig := nextBig
     slobfree := arena
     bigblocks := 0
     free := free
     grants := grants }, []⟩

/-- The page frames are above the kernel, and the arena is in it. -/
def Layout (arena : Nat) (free : Nat → Bool) : Prop :=
  ∀ page, free page = true → arena + 1 < page * pageUnits

end Runs

section Results

/-- The pages of a big block. -/
def pagesOf (b : Block) : Extent :=
  ⟨b.addr, pageUnits * 1 <<< findOrder b.size⟩

/-- The free list is `fs`, the heap has the pages `owned`, and `chain` is the list of big
blocks. -/
structure Accounts (free₀ : Nat → Bool) (arena : Nat) (s : Slob) (live : List Block)
    (fs : List Extent) (owned : Finset Nat) (chain : List Nat) : Prop where
  list : FreeList s fs
  first : fs.head? = some ⟨arena, 1⟩
  apart : (fs ++ live.map Block.slob ++ (bigs live).map pagesOf).Pairwise Apart
  units : (fs.map Extent.size).sum + ((live.map Block.slob).map Extent.size).sum =
    pageUnits * owned.card + 1
  owned : ∀ page, page ∈ owned ↔
    free₀ page = true ∧ s.free page = false ∧ ∀ b ∈ bigs live, ¬b.HasPage page
  small : ∀ b ∈ live, b.Small →
    b.addr = b.head + 1 ∧ s.units b.head = b.slob.size ∧ b.size + SLOB_UNIT ≤ b.slob.size * SLOB_UNIT
  linked : Linked s.nextBig s.bigblocks chain
  chain : chain.Perm ((bigs live).map Block.head)
  big : ∀ b ∈ bigs live, s.next b.head = b.addr ∧ s.units b.head = findOrder b.size

/-- `kfree` has given the block back to the allocator it came from. -/
def GivenBack (b : Block) (s : Slob) (fs : List Extent) (chain : List Nat) (s' : Slob) : Prop :=
  ∃ fs', FreeList s' fs' ∧ (∀ u, CoversAny fs' u ↔ CoversAny fs u ∨ Covers b.slob u) ∧
    if b.Small then
      s'.free = s.free ∧ s'.nextBig = s.nextBig ∧ s'.bigblocks = s.bigblocks
    else
      s'.free = mark s.free (b.addr / pageUnits) (findOrder b.size) true ∧
        Linked s'.nextBig s'.bigblocks (chain.erase b.head)

/-- The heap is in order, and every call that may be made next returns. -/
def HeapOk (free₀ : Nat → Bool) (arena : Nat) (s : Slob) (live : List Block) : Prop :=
  ∃ fs owned chain, Accounts free₀ arena s live fs owned chain ∧
    (∀ size, Permitted size → ∃ a s', Returns (fun fuel => kmalloc fuel size) s a s') ∧
    ∀ b ∈ live, ∃ s', Returns (fun fuel => kfree fuel b.addr) s () s' ∧ GivenBack b s fs chain s'

variable {free₀ : Nat → Bool} {sys sys' : System} {s s' : Slob} {live : List Block} {b : Block}
  {fs : List Extent} {owned : Finset Nat} {chain : List Nat} {a arena size u : Nat}

theorem covers_pages (hb : b.addr % pageUnits = 0) :
    Covers (pagesOf b) u ↔ b.HasPage (u / pageUnits) := by
  have hpos := pageUnits_pos
  have haddr : b.addr = b.addr / pageUnits * pageUnits :=
    (Nat.div_mul_cancel (Nat.dvd_of_mod_eq_zero hb)).symm
  have hend : b.addr + pageUnits * 1 <<< findOrder b.size =
      (b.addr / pageUnits + 1 <<< findOrder b.size) * pageUnits := by
    rw [Nat.add_mul, ← haddr, Nat.mul_comm pageUnits]
  show b.addr ≤ u ∧ u < b.addr + pageUnits * 1 <<< findOrder b.size ↔ _ ≤ _ ∧ _ < _
  rw [hend, Nat.div_lt_iff_lt_mul hpos, Nat.le_div_iff_mul_le hpos, ← haddr]

theorem pagesOf_pos (b : Block) : 0 < (pagesOf b).size := by
  refine Nat.mul_pos pageUnits_pos ?_
  rw [Nat.one_shiftLeft]
  exact Nat.two_pow_pos _

theorem sizes_pos (h : Valid free₀ arena s live fs owned chain) :
    ∀ e ∈ fs ++ live.map Block.slob, 0 < e.size := by
  intro e he
  rcases List.mem_append.mp he with he | he
  · exact h.heap.list.pos e he
  · exact h.heap.pos e he

theorem apart_of_valid (h : Valid free₀ arena s live fs owned chain) (hlayout : Layout arena free₀) :
    (fs ++ live.map Block.slob ++ (bigs live).map pagesOf).Pairwise Apart := by
  have hpos := sizes_pos h
  rw [List.pairwise_append]
  refine ⟨apart_append h.heap.list.ordered h.heap.apart hpos h.heap.cross, ?_, fun e he f hf => ?_⟩
  · rw [List.pairwise_map]
    refine h.records.disjoint.imp_of_mem fun {b c} hb hc hdisjoint => ?_
    refine apart_of_not_covers (pagesOf_pos b) (pagesOf_pos c) fun u hu hu' => ?_
    have hin := (covers_pages (h.records.big b hb).2.2.1).mp hu
    exact hdisjoint _ hin ((covers_pages (h.records.big c hc).2.2.1).mp hu')
  · obtain ⟨b, hb, rfl⟩ := List.mem_map.mp hf
    refine apart_of_not_covers (hpos e he) (pagesOf_pos b) fun u hu hu' => ?_
    have hin := (covers_pages (h.records.big b hb).2.2.1).mp hu'
    have hheap : CoversAny fs u ∨ CoversAny (live.map Block.slob) u :=
      coversAny_append.mp ⟨e, he, hu⟩
    rcases (h.heap.covers u).mp hheap with rfl | howned
    · have habove := hlayout _ ((h.records.all _).mpr (Or.inr (Or.inr ⟨b, hb, hin⟩)))
      have hle := Nat.div_mul_le_self u pageUnits
      omega
    · exact (h.records.busy b hb _ hin).2 howned

/-- The units of the pages and of the arena. -/
theorem card_units (harena : ∀ page ∈ owned, arena < page * pageUnits) :
    ∃ cover : Finset Nat, (∀ u, u ∈ cover ↔ u = arena ∨ u / pageUnits ∈ owned) ∧
      cover.card = pageUnits * owned.card + 1 := by
  let units : Nat → Finset Nat :=
    fun page => Finset.Ico (page * pageUnits) (page * pageUnits + pageUnits)
  have hmem : ∀ page u, u ∈ units page ↔ u / pageUnits = page :=
    fun page u => Finset.mem_Ico.trans covers_page
  have hcard : ∀ page, (units page).card = pageUnits := by
    intro page
    rw [Nat.card_Ico, Nat.add_sub_cancel_left]
  have hout : arena ∉ owned.biUnion units := by
    rw [Finset.mem_biUnion]
    rintro ⟨page, hpage, hin⟩
    exact absurd (Finset.mem_Ico.mp hin).1 (harena page hpage).not_ge
  have hdisjoint : ∀ p ∈ owned, ∀ q ∈ owned, p ≠ q → Disjoint (units p) (units q) := by
    intro p _ q _ hne
    refine Finset.disjoint_left.mpr fun u hp hq => hne ?_
    exact ((hmem p u).mp hp).symm.trans ((hmem q u).mp hq)
  refine ⟨insert arena (owned.biUnion units), fun u => ?_, ?_⟩
  · simp only [Finset.mem_insert, Finset.mem_biUnion, hmem, exists_eq_right']
  · rw [Finset.card_insert_of_notMem hout, Finset.card_biUnion hdisjoint,
      Finset.sum_const_nat fun page _ => hcard page, Nat.mul_comm]

theorem units_of_valid (h : Valid free₀ arena s live fs owned chain) :
    (fs.map Extent.size).sum + ((live.map Block.slob).map Extent.size).sum =
      pageUnits * owned.card + 1 := by
  obtain ⟨cover, hmem, hcard⟩ := card_units fun page hpage =>
    lt_trans (Nat.lt_succ_self arena) (h.heap.layout page (Or.inl hpage))
  have hapart := apart_append h.heap.list.ordered h.heap.apart (sizes_pos h) h.heap.cross
  rw [← hcard, card_covered hapart
    fun u => (hmem u).trans ((h.heap.covers u).symm.trans coversAny_append.symm)]
  rw [List.map_append, List.sum_append]

theorem owned_of_valid (h : Valid free₀ arena s live fs owned chain) (page : Nat) :
    page ∈ owned ↔
      free₀ page = true ∧ s.free page = false ∧ ∀ b ∈ bigs live, ¬b.HasPage page := by
  rw [h.records.all]
  constructor
  · intro hpage
    exact ⟨Or.inr (Or.inl hpage), h.heap.held page hpage,
      fun b hb hin => (h.records.busy b hb page hin).2 hpage⟩
  · rintro ⟨hor, hbusy, hout⟩
    rcases hor with hfree | hpage | ⟨b, hb, hin⟩
    · rw [hbusy] at hfree
      cases hfree
    · exact hpage
    · exact absurd hin (hout b hb)

theorem fits (hb : b.Small) : b.size + SLOB_UNIT ≤ b.slob.size * SLOB_UNIT := by
  rw [Block.slob_small hb]
  show b.size + 16 ≤ (b.size + 16 + 16 - 1) / 16 * 16
  omega

theorem accounts_of_valid (h : Valid free₀ arena s live fs owned chain)
    (hlayout : Layout arena free₀) : Accounts free₀ arena s live fs owned chain := by
  refine ⟨h.heap.list, h.heap.first, apart_of_valid h hlayout, units_of_valid h, owned_of_valid h,
    fun b hb hsmall => ?_, h.records.linked, h.records.chain, fun b hb => ?_⟩
  · obtain ⟨haddr, hunits, _⟩ := h.records.small b hb hsmall
    exact ⟨haddr, hunits, fits hsmall⟩
  · obtain ⟨hnext, hunits, _⟩ := h.records.big b hb
    exact ⟨hnext, hunits⟩

theorem kmalloc_of (h : Valid free₀ arena s live fs owned chain) (hsize : Permitted size) :
    ∃ a s', Returns (fun fuel => kmalloc fuel size) s a s' ∧
      ∃ fs' owned' chain', Valid free₀ arena s' (handedOut s' size a live) fs' owned' chain' := by
  obtain ⟨hpos, hassert⟩ := hsize
  rcases Decidable.em (size < PGSIZE - SLOB_UNIT) with hsmall | hbig
  · obtain ⟨a, s', hruns, fs', owned', hvalid⟩ := kmalloc_small h hpos hsmall (hassert hsmall)
    exact ⟨a, s', hruns, fs', owned', chain, hvalid⟩
  · exact kmalloc_big h hbig

theorem kfree_of (h : Valid free₀ arena s (b :: live) fs owned chain)
    (hlayout : Layout arena free₀) :
    ∃ s', Returns (fun fuel => kfree fuel b.addr) s () s' ∧ GivenBack b s fs chain s' ∧
      ∃ fs' chain', Valid free₀ arena s' live fs' owned chain' := by
  rcases Decidable.em b.Small with hb | hb
  · obtain ⟨s', fs', hruns, hvalid, hcovers, hfree, hnextBig, hbigblocks⟩ := kfree_small h hb
    refine ⟨s', hruns, ⟨fs', hvalid.heap.list, hcovers, ?_⟩, fs', chain, hvalid⟩
    rw [if_pos hb]
    exact ⟨hfree, hnextBig, hbigblocks⟩
  · obtain ⟨s', fs', hruns, hvalid, hcovers, hfree⟩ := kfree_big h hb hlayout
    refine ⟨s', hruns, ⟨fs', hvalid.heap.list, hcovers, ?_⟩, fs', _, hvalid⟩
    rw [if_neg hb]
    exact ⟨hfree, hvalid.records.linked⟩

theorem valid_start (units next nextBig : Nat → Nat) (grants : List (Option Nat))
    (hlayout : Layout arena free₀) :
    Valid free₀ arena (start arena units next nextBig free₀ grants).slob [] [⟨arena, 1⟩] ∅ [] := by
  refine ⟨⟨⟨?_, fun e he => ?_, List.pairwise_singleton _ _, fun e he => ?_, ?_⟩, rfl, nofun,
    List.Pairwise.nil, fun _ _ => coversAny_nil, fun u => ?_, nofun, fun page hpage => ?_⟩,
    ⟨rfl, List.Perm.nil, nofun, nofun, nofun, List.Pairwise.nil, fun q => ?_⟩⟩
  · refine CircularList.circular_cons.mpr (List.isChain_pair.mpr ?_)
    exact Function.update_self _ _ _
  · rw [List.mem_singleton] at he
    rw [he]
    exact Function.update_self _ _ _
  · rw [List.mem_singleton] at he
    rw [he]
    exact Nat.one_pos
  · exact List.mem_singleton_self _
  · simp only [List.map_nil, coversAny_cons, coversAny_nil, or_false, Finset.notMem_empty, Covers]
    omega
  · exact hlayout page (hpage.resolve_left (Finset.notMem_empty page))
  · simp [start, bigs]

theorem valid_step (h : ∃ fs owned chain, Valid free₀ arena sys.slob sys.live fs owned chain)
    (hlayout : Layout arena free₀) (hstep : Step sys sys') :
    ∃ fs owned chain, Valid free₀ arena sys'.slob sys'.live fs owned chain := by
  obtain ⟨fs, owned, chain, hvalid⟩ := h
  cases hstep with
  | kmalloc hsize hruns =>
      obtain ⟨a, s', hruns', hvalid'⟩ := kmalloc_of hvalid hsize
      obtain ⟨rfl, rfl⟩ := hruns.unique hruns'
      exact hvalid'
  | kfree hruns =>
      have hfirst := hvalid.perm List.perm_middle
      obtain ⟨s', hruns', _, fs', chain', hvalid'⟩ := kfree_of hfirst hlayout
      obtain ⟨_, rfl⟩ := hruns.unique hruns'
      exact ⟨fs', owned, chain', hvalid'⟩

theorem valid_of_run (h : ∃ fs owned chain, Valid free₀ arena sys.slob sys.live fs owned chain)
    (hlayout : Layout arena free₀) (hrun : Reaches sys sys') :
    ∃ fs owned chain, Valid free₀ arena sys'.slob sys'.live fs owned chain := by
  induction hrun with
  | refl => exact h
  | tail _ hstep ih => exact valid_step ih hlayout hstep

theorem valid_of_reaches {units next nextBig : Nat → Nat} {grants : List (Option Nat)}
    (hlayout : Layout arena free₀) (h : Reaches (start arena units next nextBig free₀ grants) sys) :
    ∃ fs owned chain, Valid free₀ arena sys.slob sys.live fs owned chain :=
  valid_of_run ⟨_, _, _, valid_start units next nextBig grants hlayout⟩ hlayout h

theorem heapOk_of_valid (hvalid : Valid free₀ arena s live fs owned chain)
    (hlayout : Layout arena free₀) : HeapOk free₀ arena s live := by
  refine ⟨fs, owned, chain, accounts_of_valid hvalid hlayout, fun size hsize => ?_, fun b hb => ?_⟩
  · obtain ⟨a, s', hruns, _⟩ := kmalloc_of hvalid hsize
    exact ⟨a, s', hruns⟩
  · obtain ⟨as, bs, heq⟩ := List.append_of_mem hb
    have hfirst := hvalid.perm (heq ▸ List.perm_middle)
    obtain ⟨s', hruns, hback, _⟩ := kfree_of hfirst hlayout
    exact ⟨s', hruns, hback⟩

theorem heapOk_of_reaches {units next nextBig : Nat → Nat} {grants : List (Option Nat)}
    (hlayout : Layout arena free₀) (h : Reaches (start arena units next nextBig free₀ grants) sys) :
    HeapOk free₀ arena sys.slob sys.live := by
  obtain ⟨fs, owned, chain, hvalid⟩ := valid_of_reaches hlayout h
  exact heapOk_of_valid hvalid hlayout

/-- After `kmalloc(100)` the block at the start of page 1 is handed out. -/
theorem heapOk_of_reaches_small : ∃ sys,
    Reaches (start 16 id id id (fun page => decide (page = 1)) [some 1]) sys ∧
      sys.live = [⟨257, 100, 256⟩] ∧ HeapOk (fun page => decide (page = 1)) 16 sys.slob sys.live := by
  have hlayout : Layout 16 fun page => decide (page = 1) := by
    intro page hpage
    rw [of_decide_eq_true hpage]
    decide
  have hsize : Permitted 100 := ⟨by decide, fun _ => by decide⟩
  obtain ⟨a, s', hruns, _⟩ := kmalloc_of (valid_start id id id [some 1] hlayout) hsize
  have ha : a = 257 := by
    obtain ⟨n, hn⟩ := hruns
    have hvalue : (match kmalloc (n + 5) 100
        (start 16 id id id (fun page => decide (page = 1)) [some 1]).slob with
      | .ok (.ok a, _) => a
      | _ => 0) = 257 := rfl
    have hrun := hn (n + 5) (by omega)
    change kmalloc (n + 5) 100 _ = _ at hrun
    rw [hrun] at hvalue
    exact hvalue
  subst ha
  have hreaches : Reaches (start 16 id id id (fun page => decide (page = 1)) [some 1])
      ⟨s', handedOut s' 100 257 []⟩ := Relation.ReflTransGen.single (Step.kmalloc hsize hruns)
  exact ⟨_, hreaches, rfl, heapOk_of_reaches hlayout hreaches⟩

end Results

end Ucore.KmallocRuns
