import Mathlib.Data.List.GetD
import Ucore.KmallocHeap

/-! `kmalloc` and `kfree` on the blocks of the SLOB heap and on the blocks of whole pages. -/

namespace Ucore.KmallocBlocks

open Ucore.KernelRoutine
open Ucore.DefaultPmm (PGSIZE)
open Ucore.Extents
open Ucore.ExtentLists
open Ucore.Kmalloc
open Ucore.Returning
open Ucore.KmallocLists
open Ucore.KmallocHeap

section BigList

/-- Following `next` from `bb` goes through these entries and ends at `NULL`. -/
def Linked (next : Nat → Nat) : Nat → List Nat → Prop
  | bb, [] => bb = 0
  | bb, x :: xs => bb = x ∧ bb ≠ 0 ∧ Linked next (next x) xs

variable {next next' : Nat → Nat} {xs ys : List Nat} {bb block last x y : Nat} {s : Slob}

theorem Linked.congr (h : Linked next bb xs) (hsame : ∀ y ∈ xs, next' y = next y) :
    Linked next' bb xs := by
  induction xs generalizing bb with
  | nil => exact h
  | cons x xs ih =>
      obtain ⟨hx, hne, hrest⟩ := h
      refine ⟨hx, hne, ?_⟩
      rw [hsame x List.mem_cons_self]
      exact ih hrest fun y hy => hsame y (List.mem_cons_of_mem _ hy)

theorem Linked.ne_zero (h : Linked next bb xs) (hy : y ∈ xs) : y ≠ 0 := by
  induction xs generalizing bb with
  | nil => cases hy
  | cons x xs ih =>
      obtain ⟨rfl, hne, hrest⟩ := h
      rcases List.mem_cons.mp hy with rfl | hy
      · exact hne
      · exact ih hrest hy

theorem Linked.remove (h : Linked next bb (xs ++ x :: y :: ys)) (hnodup : (xs ++ x :: y :: ys).Nodup) :
    Linked (Function.update next x (next y)) bb (xs ++ x :: ys) := by
  induction xs generalizing bb with
  | nil =>
      obtain ⟨hx, hne, _, _, hrest⟩ := h
      have hout : x ∉ y :: ys := (List.nodup_cons.mp hnodup).1
      refine ⟨hx, hne, ?_⟩
      rw [Function.update_self]
      refine hrest.congr fun z hz => Function.update_of_ne ?_ _ _
      rintro rfl
      exact hout (List.mem_cons_of_mem _ hz)
  | cons z xs ih =>
      obtain ⟨hz, hne, hrest⟩ := h
      obtain ⟨hout, hnodup⟩ := List.nodup_cons.mp hnodup
      have hzx : z ≠ x := by
        rintro rfl
        exact hout (by simp)
      refine ⟨hz, hne, ?_⟩
      rw [Function.update_of_ne hzx]
      exact ih hrest hnodup

/-- The search of `kfree` when the pages are those of `x`. -/
theorem findBig_of (h : Linked s.nextBig bb (xs ++ x :: ys)) (hxs : ∀ y ∈ xs, s.next y ≠ block)
    (hx : s.next x = block) :
    Returns (fun fuel => findBig block fuel last bb) s (some (xs.getLastD last, x)) s := by
  induction xs generalizing bb last with
  | nil =>
      obtain ⟨rfl, hne, _⟩ := h
      refine Returns.turn (y := fun _ => pure (some (last, bb))) (fun fuel => ?_)
        (Returns.of_eq fun _ => rfl)
      rw [findBig, if_neg hne, getState_bind, if_pos hx]
  | cons y xs ih =>
      obtain ⟨rfl, hne, hrest⟩ := h
      rw [List.getLastD_cons]
      refine Returns.turn (fun fuel => ?_)
        (ih hrest fun z hz => hxs z (List.mem_cons_of_mem _ hz))
      rw [findBig, if_neg hne, getState_bind, if_neg (hxs bb List.mem_cons_self)]

/-- The search of `kfree` when the block is not one of whole pages. -/
theorem findBig_none (h : Linked s.nextBig bb xs) (hxs : ∀ y ∈ xs, s.next y ≠ block) :
    Returns (fun fuel => findBig block fuel last bb) s none s := by
  induction xs generalizing bb last with
  | nil =>
      refine Returns.turn (y := fun _ => pure none) (fun fuel => ?_) (Returns.of_eq fun _ => rfl)
      rw [findBig, if_pos (show bb = 0 from h)]
  | cons y xs ih =>
      obtain ⟨rfl, hne, hrest⟩ := h
      have hafter : Returns (fun fuel => findBig block fuel bb (s.nextBig bb)) s none s :=
        ih hrest fun z hz => hxs z (List.mem_cons_of_mem _ hz)
      refine Returns.turn (fun fuel => ?_) hafter
      rw [findBig, if_neg hne, getState_bind, if_neg (hxs bb List.mem_cons_self)]

theorem unlinkBig_of (h : Linked s.nextBig s.bigblocks (xs ++ x :: ys))
    (hnodup : (xs ++ x :: ys).Nodup) :
    ∃ nextBig bigblocks, unlinkBig (xs.getLastD 0) x s =
        .ok (.ok (), { s with
          nextBig := nextBig
          bigblocks := bigblocks }) ∧ Linked nextBig bigblocks (xs ++ ys) := by
  rcases List.eq_nil_or_concat xs with rfl | ⟨zs, y, rfl⟩
  · obtain ⟨_, _, hrest⟩ := h
    exact ⟨s.nextBig, s.nextBig x, rfl, hrest⟩
  · have hy : y ≠ 0 := h.ne_zero (by simp)
    have hlast : (zs.concat y).getLastD 0 = y := by
      rw [List.concat_eq_append, List.getLastD_concat]
    simp only [List.concat_eq_append, List.append_assoc, List.singleton_append] at h hnodup ⊢
    refine ⟨Function.update s.nextBig y (s.nextBig x), s.bigblocks, ?_, h.remove hnodup⟩
    rw [List.concat_eq_append] at hlast
    rw [hlast, unlinkBig, getState_bind, if_neg hy]
    rfl

end BigList

section Blocks

/-- What `kmalloc` returned, what it was asked for, and where the `slob_t` or the `bigblock_t` of
the block is. -/
structure Block where
  addr : Nat
  size : Nat
  head : Nat

def Block.Small (b : Block) : Prop :=
  b.size < PGSIZE - SLOB_UNIT

instance (b : Block) : Decidable b.Small :=
  inferInstanceAs (Decidable (_ < _))

/-- What the block takes up in the SLOB heap. -/
def Block.slob (b : Block) : Extent :=
  ⟨b.head, if b.Small then SLOB_UNITS (b.size + SLOB_UNIT) else SLOB_UNITS bigblockSize⟩

/-- The page frames of a block of whole pages. -/
def Block.HasPage (b : Block) (q : Nat) : Prop :=
  InBlock (b.addr / pageUnits) (findOrder b.size) q

instance (b : Block) (q : Nat) : Decidable (b.HasPage q) :=
  inferInstanceAs (Decidable (InBlock _ _ _))

def bigs (live : List Block) : List Block :=
  live.filter fun b => ¬b.Small

/-- What the allocators know about the blocks `live`, which were returned and not freed yet. -/
structure Records (free₀ : Nat → Bool) (s : Slob) (live : List Block) (owned : Finset Nat)
    (chain : List Nat) : Prop where
  linked : Linked s.nextBig s.bigblocks chain
  chain : chain.Perm ((bigs live).map Block.head)
  small : ∀ b ∈ live, b.Small → b.addr = b.head + 1 ∧ s.units b.head = b.slob.size ∧ 2 ≤ b.slob.size
  big : ∀ b ∈ bigs live, s.next b.head = b.addr ∧ s.units b.head = findOrder b.size ∧
    b.addr % pageUnits = 0 ∧ b.addr ≠ 0
  busy : ∀ b ∈ bigs live, ∀ q, b.HasPage q → s.free q = false ∧ q ∉ owned
  disjoint : (bigs live).Pairwise fun b c => ∀ q, b.HasPage q → ¬c.HasPage q
  all : ∀ q, free₀ q = true ↔ s.free q = true ∨ q ∈ owned ∨ ∃ b ∈ bigs live, b.HasPage q

/-- What holds between any two calls. -/
structure Valid (free₀ : Nat → Bool) (arena : Nat) (s : Slob) (live : List Block)
    (fs : List Extent) (owned : Finset Nat) (chain : List Nat) : Prop where
  heap : Heap s arena fs (live.map Block.slob) owned
  records : Records free₀ s live owned chain

variable {free₀ : Nat → Bool} {s s' : Slob} {live live' : List Block} {b c : Block}
  {fs fs' : List Extent} {owned owned' : Finset Nat} {chain : List Nat} {arena size q : Nat}

theorem mem_bigs : b ∈ bigs live ↔ b ∈ live ∧ ¬b.Small := by
  simp [bigs]

theorem bigs_cons_small (h : b.Small) : bigs (b :: live) = bigs live := by
  simp [bigs, h]

theorem bigs_cons_big (h : ¬b.Small) : bigs (b :: live) = b :: bigs live := by
  simp [bigs, h]

theorem Block.slob_small (h : b.Small) : b.slob = ⟨b.head, SLOB_UNITS (b.size + SLOB_UNIT)⟩ := by
  rw [Block.slob, if_pos h]

theorem Block.slob_big (h : ¬b.Small) : b.slob = ⟨b.head, SLOB_UNITS bigblockSize⟩ := by
  rw [Block.slob, if_neg h]

theorem hasPage_first (b : Block) : b.HasPage (b.addr / pageUnits) := by
  refine ⟨le_rfl, ?_⟩
  rw [Nat.one_shiftLeft]
  have hpos := Nat.two_pow_pos (findOrder b.size)
  omega

theorem Block.slob_pos (b : Block) : 0 < b.slob.size := by
  rw [Block.slob]
  split
  · exact Nat.div_pos (by simp only [SLOB_UNIT]; omega) (by decide)
  · exact (by decide : 0 < SLOB_UNITS bigblockSize)

theorem covers_head (hb : b ∈ live) : CoversAny (live.map Block.slob) b.head :=
  ⟨b.slob, List.mem_map_of_mem hb, covers_base b.slob_pos⟩

theorem Records.perm (h : Records free₀ s live owned chain) (hperm : live.Perm live') :
    Records free₀ s live' owned chain := by
  have hbigs : (bigs live).Perm (bigs live') := hperm.filter _
  refine ⟨h.linked, h.chain.trans (hbigs.map _),
    fun b hb => h.small b (hperm.mem_iff.mpr hb), fun b hb => h.big b (hbigs.mem_iff.mpr hb),
    fun b hb => h.busy b (hbigs.mem_iff.mpr hb), ?_, fun q => ?_⟩
  · refine (hbigs.pairwise_iff fun hab q hb ha => ?_).mp h.disjoint
    exact hab q ha hb
  · rw [h.all]
    simp only [hbigs.mem_iff]

theorem Valid.perm (h : Valid free₀ arena s live fs owned chain) (hperm : live.Perm live') :
    Valid free₀ arena s live' fs owned chain :=
  ⟨h.heap.perm (hperm.map _), h.records.perm hperm⟩

/-- The heap has changed elsewhere and may have more pages. -/
theorem Records.grown (h : Records free₀ s live owned chain)
    (hkept : Kept (live.map Block.slob) s s') (hgrown : Grown s s' owned owned') :
    Records free₀ s' live owned' chain := by
  have hbusy : ∀ q, s.free q = false → s'.free q = false := by
    intro q hq
    rcases Bool.eq_false_or_eq_true (s'.free q) with htrue | hfalse
    · rw [hgrown.free q htrue] at hq
      cases hq
    · exact hfalse
  refine ⟨?_, h.chain, fun b hb hsmall => ?_, fun b hb => ?_, fun b hb q hq => ?_, h.disjoint,
    fun q => ?_⟩
  · rw [hkept.nextBig, hkept.bigblocks]
    exact h.linked
  · rw [hkept.units b.head (covers_head hb)]
    exact h.small b hb hsmall
  · have hhead := covers_head (mem_bigs.mp hb).1
    rw [hkept.units b.head hhead, hkept.next b.head hhead]
    exact h.big b hb
  · obtain ⟨hfree, hout⟩ := h.busy b hb q hq
    refine ⟨hbusy q hfree, fun hmem => ?_⟩
    rcases (hgrown.owned q).mp hmem with hmem | ⟨htrue, _⟩
    · exact hout hmem
    · rw [hfree] at htrue
      cases htrue
  · rw [h.all, hgrown.owned]
    have hless := hgrown.free q
    cases hq : s'.free q with
    | true =>
        have hwas := hless hq
        simp [hwas]
    | false =>
        simp only [Bool.false_eq_true, and_true, false_or]
        tauto

theorem Records.push_small (h : Records free₀ s live owned chain) (hb : b.Small)
    (haddr : b.addr = b.head + 1) (hunits : s.units b.head = b.slob.size)
    (hlong : 2 ≤ b.slob.size) : Records free₀ s (b :: live) owned chain := by
  have hbigs : bigs (b :: live) = bigs live := bigs_cons_small hb
  refine ⟨h.linked, hbigs ▸ h.chain, fun c hc hsmall => ?_, hbigs ▸ h.big, hbigs ▸ h.busy,
    hbigs ▸ h.disjoint, hbigs ▸ h.all⟩
  rcases List.mem_cons.mp hc with rfl | hc
  · exact ⟨haddr, hunits, hlong⟩
  · exact h.small c hc hsmall

theorem Records.pop_small (h : Records free₀ s (b :: live) owned chain) (hb : b.Small) :
    Records free₀ s live owned chain := by
  have hbigs : bigs (b :: live) = bigs live := bigs_cons_small hb
  obtain ⟨hlinked, hchain, hsmall, hbig, hbusy, hdisjoint, hall⟩ := h
  rw [hbigs] at hchain hbig hbusy hdisjoint
  refine ⟨hlinked, hchain, fun c hc => hsmall c (List.mem_cons_of_mem _ hc), hbig, hbusy, hdisjoint,
    fun q => ?_⟩
  rw [hall, hbigs]

end Blocks

section Small

variable {free₀ : Nat → Bool} {s s' : Slob} {live : List Block} {b : Block} {fs : List Extent}
  {owned : Finset Nat} {chain : List Nat} {a arena size : Nat}

/-- The block that a call of `kmalloc` adds. -/
def handedOut (s' : Slob) (size a : Nat) (live : List Block) : List Block :=
  if a = 0 then live
  else ⟨a, size, if size < PGSIZE - SLOB_UNIT then a - 1 else s'.bigblocks⟩ :: live

theorem kmalloc_small (h : Valid free₀ arena s live fs owned chain) (hsize : 1 ≤ size)
    (hsmall : size < PGSIZE - SLOB_UNIT) (hassert : size + SLOB_UNIT + SLOB_UNIT < PGSIZE) :
    ∃ a s', Returns (fun fuel => kmalloc fuel size) s a s' ∧
      ∃ fs' owned', Valid free₀ arena s' (handedOut s' size a live) fs' owned' chain := by
  have hlong : 2 ≤ SLOB_UNITS (size + SLOB_UNIT) := by
    change 2 ≤ (size + 16 + 16 - 1) / 16
    omega
  obtain ⟨m, s', hruns, fs', owned', hkept, hgrown, hout⟩ := heap_alloc h.heap hassert hlong
  have hreturns : Returns (fun fuel => kmalloc fuel size) s (if m ≠ 0 then m + 1 else 0) s' := by
    have hafter : Returns (fun fuel => do
        let m ← slobAlloc fuel (size + SLOB_UNIT)
        return if m ≠ 0 then m + 1 else 0) s (if m ≠ 0 then m + 1 else 0) s' :=
      Returns.bind hruns (Returns.of_eq fun _ => rfl)
    refine Returns.congr (fun fuel => ?_) hafter
    show kmalloc fuel size s = _
    rw [kmalloc, if_pos hsmall]
  have hrecords := h.records.grown hkept hgrown
  refine ⟨_, s', hreturns, fs', owned', ?_⟩
  rcases hout with ⟨rfl, hheap⟩ | ⟨hm, hheap, hunits⟩
  · exact ⟨hheap, hrecords⟩
  · rw [if_pos hm, handedOut, if_neg (Nat.succ_ne_zero m), if_pos hsmall, Nat.add_sub_cancel]
    have hb : (⟨m + 1, size, m⟩ : Block).Small := hsmall
    have hslob := Block.slob_small hb
    refine ⟨?_, hrecords.push_small hb rfl ?_ ?_⟩
    · rw [List.map_cons, hslob]
      exact hheap
    · rw [hslob]
      exact hunits
    · rw [hslob]
      exact hlong

/-- The block has gone back into the SLOB heap, and nothing to the page allocator. -/
theorem kfree_small (h : Valid free₀ arena s (b :: live) fs owned chain) (hb : b.Small) :
    ∃ s' fs', Returns (fun fuel => kfree fuel b.addr) s () s' ∧
      Valid free₀ arena s' live fs' owned chain ∧
      (∀ u, CoversAny fs' u ↔ CoversAny fs u ∨ Covers b.slob u) ∧
      s'.free = s.free ∧ s'.nextBig = s.nextBig ∧ s'.bigblocks = s.bigblocks := by
  obtain ⟨haddr, hunits, hlong⟩ := h.records.small b List.mem_cons_self hb
  have hsized : Sized s b.slob 0 := by
    rw [Sized, if_neg (by simp)]
    exact hunits
  obtain ⟨s', fs', hruns, hheap, hcovers, hkept, hfree⟩ := heap_free h.heap hsized
  have hpayload : CoversAny ((b :: live).map Block.slob) b.addr := by
    refine ⟨b.slob, List.mem_map_of_mem List.mem_cons_self, ?_⟩
    rw [haddr]
    have hbase : b.slob.base = b.head := rfl
    exact ⟨by omega, by omega⟩
  have howned := h.heap.live_owned hpayload
  -- no big block has this address: its first page is not one of the heap's
  have hsearch : Returns (fun fuel => findBigBlock fuel b.addr) s none s := by
    rcases Decidable.em (b.addr % pageUnits = 0) with haligned | hnot
    · have hnone : Returns (fun fuel => findBig b.addr fuel 0 s.bigblocks) s none s := by
        refine findBig_none h.records.linked fun y hy heq => ?_
        obtain ⟨c, hc, rfl⟩ := List.mem_map.mp (h.records.chain.mem_iff.mp hy)
        rw [(h.records.big c hc).1] at heq
        refine (h.records.busy c hc _ (hasPage_first c)).2 ?_
        rw [heq]
        exact howned
      refine Returns.congr (fun fuel => ?_) hnone
      show findBigBlock fuel b.addr s = _
      rw [findBigBlock, if_pos haligned, getState_bind]
    · refine Returns.of_eq fun fuel => ?_
      rw [findBigBlock, if_neg hnot]
      rfl
  have hfreed : Returns (fun fuel => slobFree fuel (b.addr - 1) 0) s () s' := by
    rw [haddr, Nat.add_sub_cancel]
    exact hruns
  refine ⟨s', fs', ?_, ⟨hheap, ?_⟩, hcovers, hfree, hkept.nextBig, hkept.bigblocks⟩
  · have hafter : Returns (fun fuel => findBigBlock fuel b.addr >>= release fuel b.addr) s () s' :=
      Returns.bind hsearch hfreed
    refine Returns.congr (fun fuel => ?_) hafter
    show kfree fuel b.addr s = _
    rw [kfree, if_neg (by omega)]
  · exact (h.records.pop_small hb).grown hkept (grown_same hfree)

end Small

section Big

variable {free₀ : Nat → Bool} {s s' : Slob} {live : List Block} {b : Block} {fs : List Extent}
  {owned : Finset Nat} {chain : List Nat} {a arena bb n page size q : Nat}

theorem mark_in {free : Nat → Bool} {t : Bool} (hq : b.HasPage q) :
    mark free (b.addr / pageUnits) (findOrder b.size) t q = t :=
  if_pos hq

theorem mark_out {free : Nat → Bool} {t : Bool} (hq : ¬b.HasPage q) :
    mark free (b.addr / pageUnits) (findOrder b.size) t q = free q :=
  if_neg hq

/-- What is written into a block handed out, and what is freed elsewhere, leaves the heap as it
is. -/
theorem heap_touched {live : List Extent} (h : Heap s arena fs live owned)
    (hunits : ∀ a, CoversAny fs a → s'.units a = s.units a)
    (hnext : ∀ a, CoversAny fs a → s'.next a = s.next a) (hslobfree : s'.slobfree = s.slobfree)
    (hfree : ∀ q, s'.free q = true → s.free q = true ∨ q ∉ owned ∧ arena + 1 < q * pageUnits) :
    Heap s' arena fs live owned := by
  have hbase : ∀ e ∈ fs, CoversAny fs e.base :=
    fun e he => ⟨e, he, covers_base (h.list.pos e he)⟩
  refine ⟨⟨?_, fun e he => ?_, h.list.ordered, h.list.pos, ?_⟩, h.first, h.pos, h.apart, h.cross,
    h.covers, fun q hq => ?_, fun q hq => ?_⟩
  · refine h.list.links.congr fun a ha => ?_
    obtain ⟨e, he, rfl⟩ := List.mem_map.mp ha
    exact hnext e.base (hbase e he)
  · rw [hunits e.base (hbase e he)]
    exact h.list.units e he
  · rw [hslobfree]
    exact h.list.slobfree
  · rcases Bool.eq_false_or_eq_true (s'.free q) with htrue | hfalse
    · rcases hfree q htrue with hwas | ⟨hout, _⟩
      · rw [h.held q hq] at hwas
        cases hwas
      · exact absurd hq hout
    · exact hfalse
  · rcases hq with hq | hq
    · exact h.layout q (Or.inl hq)
    · rcases hfree q hq with hwas | ⟨_, habove⟩
      · exact h.layout q (Or.inr hwas)
      · exact habove

/-- The header of a block handed out is in no other block. -/
theorem heap_fresh_head {live : List Extent} (h : Heap s arena fs (⟨bb, n⟩ :: live) owned)
    (hn : 0 < n) : (∀ u, CoversAny fs u → u ≠ bb) ∧ ∀ u, CoversAny live u → u ≠ bb := by
  have hhead : Covers ⟨bb, n⟩ bb := covers_base hn
  constructor
  · rintro u hu rfl
    exact h.cross u hu (coversAny_cons.mpr (Or.inl hhead))
  · rintro u ⟨e, he, hu⟩ rfl
    exact ((List.pairwise_cons.mp h.apart).1 e he).not_covers hhead hu

/-- A `bigblock_t` has been filled in and put in front of the list. -/
def recorded (s : Slob) (b : Block) (rest : List (Option Nat)) : Slob :=
  { s with
    units := Function.update s.units b.head (findOrder b.size)
    next := Function.update s.next b.head b.addr
    nextBig := Function.update s.nextBig b.head s.bigblocks
    bigblocks := b.head
    free := mark s.free (b.addr / pageUnits) (findOrder b.size) false
    grants := rest }

theorem Records.push_big (h : Records free₀ s live owned chain) (hb : ¬b.Small)
    (hne : ∀ c ∈ live, c.head ≠ b.head) (hhead : b.head ≠ 0) (haddr : b.addr = page * pageUnits)
    (hpage : page ≠ 0) (hpages : ∀ q, b.HasPage q → s.free q = true)
    (howned : ∀ q ∈ owned, s.free q = false) {rest : List (Option Nat)} :
    Records free₀ (recorded s b rest) (b :: live) owned (b.head :: chain) := by
  have hbigs : bigs (b :: live) = b :: bigs live := bigs_cons_big hb
  have hothers : ∀ c ∈ bigs live, ∀ q, c.HasPage q → ¬b.HasPage q := by
    intro c hc q hq hq'
    have hfree := hpages q hq'
    rw [(h.busy c hc q hq).1] at hfree
    cases hfree
  refine ⟨⟨rfl, hhead, ?_⟩, ?_, fun c hc hsmall => ?_, fun c hc => ?_, fun c hc q hq => ?_, ?_,
    fun q => ?_⟩
  · show Linked _ (Function.update s.nextBig b.head s.bigblocks b.head) chain
    rw [Function.update_self]
    refine h.linked.congr fun y hy => Function.update_of_ne ?_ _ _
    obtain ⟨c, hc, rfl⟩ := List.mem_map.mp (h.chain.mem_iff.mp hy)
    exact hne c (mem_bigs.mp hc).1
  · rw [hbigs, List.map_cons]
    exact h.chain.cons _
  · rcases List.mem_cons.mp hc with rfl | hc
    · exact absurd hsmall hb
    · show c.addr = _ ∧ Function.update s.units b.head _ c.head = _ ∧ _
      rw [Function.update_of_ne (hne c hc)]
      exact h.small c hc hsmall
  · show Function.update s.next b.head _ c.head = _ ∧ Function.update s.units b.head _ c.head = _ ∧ _
    rw [hbigs] at hc
    rcases List.mem_cons.mp hc with rfl | hc
    · rw [Function.update_self, Function.update_self, haddr]
      exact ⟨rfl, rfl, Nat.mul_mod_left _ _, Nat.mul_ne_zero hpage pageUnits_pos.ne'⟩
    · rw [Function.update_of_ne (hne c (mem_bigs.mp hc).1),
        Function.update_of_ne (hne c (mem_bigs.mp hc).1)]
      exact h.big c hc
  · show mark s.free _ _ false q = false ∧ _
    rw [hbigs] at hc
    rcases List.mem_cons.mp hc with rfl | hc
    · refine ⟨mark_in hq, fun hmem => ?_⟩
      have hfree := hpages q hq
      rw [howned q hmem] at hfree
      cases hfree
    · rw [mark_out (hothers c hc q hq)]
      exact h.busy c hc q hq
  · rw [hbigs]
    exact List.pairwise_cons.mpr ⟨fun c hc q hq hq' => hothers c hc q hq' hq, h.disjoint⟩
  · show _ ↔ mark s.free _ _ false q = true ∨ _
    rw [h.all, hbigs]
    simp only [List.mem_cons, exists_eq_or_imp]
    rcases Decidable.em (b.HasPage q) with hq | hq
    · rw [mark_in hq]
      simp [hq, hpages q hq]
    · rw [mark_out hq]
      tauto

/-- No pages are left: the `bigblock_t` goes back into the heap. -/
theorem kmallocPages_fails (h : Records free₀ s live owned chain)
    (hheap : Heap s arena fs (⟨bb, SLOB_UNITS bigblockSize⟩ :: live.map Block.slob) owned)
    {rest : List (Option Nat)} :
    ∃ s' fs', Returns (fun fuel => slobFree fuel bb bigblockSize) { s with
        units := Function.update s.units bb n
        next := Function.update s.next bb 0
        grants := rest } () s' ∧
      Valid free₀ arena s' live fs' owned chain := by
  obtain ⟨hlist, hlive⟩ := heap_fresh_head hheap (by decide)
  have hkept : ∀ es, (∀ u, CoversAny es u → u ≠ bb) → Kept es s { s with
      units := Function.update s.units bb n
      next := Function.update s.next bb 0
      grants := rest } := fun es hes =>
    ⟨fun a ha => Function.update_of_ne (hes a ha) _ _,
      fun a ha => Function.update_of_ne (hes a ha) _ _, rfl, rfl⟩
  have htouched := heap_touched hheap (hkept fs hlist).units (hkept fs hlist).next rfl
    fun q hq => Or.inl hq
  have hsized : Sized { s with
      units := Function.update s.units bb n
      next := Function.update s.next bb 0
      grants := rest } ⟨bb, SLOB_UNITS bigblockSize⟩ bigblockSize := by
    rw [Sized, if_pos (by decide)]
  obtain ⟨s', fs', hruns, hheap', _, hkept', hfree⟩ := heap_free htouched hsized
  refine ⟨s', fs', hruns, hheap', ?_⟩
  exact (h.grown (hkept _ hlive) (grown_same rfl)).grown hkept' (grown_same hfree)

theorem kmallocPages_of (h : Records free₀ s live owned chain)
    (hheap : Heap s arena fs (⟨bb, SLOB_UNITS bigblockSize⟩ :: live.map Block.slob) owned)
    (hbb : bb ≠ 0) (hbig : ¬size < PGSIZE - SLOB_UNIT) :
    ∃ a s', Returns (fun fuel => kmallocPages fuel size bb) s a s' ∧
      ∃ fs' chain', Valid free₀ arena s' (handedOut s' size a live) fs' owned chain' := by
  obtain ⟨hlist, hlive⟩ := heap_fresh_head hheap (by decide)
  obtain ⟨a, t, rest, hget, ⟨rfl, rfl⟩ | ⟨page, hpage, rfl, hfree, rfl⟩⟩ := slobGetFreePages_of
    (s := { s with units := Function.update s.units bb (findOrder size) }) (findOrder size)
  · obtain ⟨s', fs', hruns, hvalid⟩ :=
      @kmallocPages_fails _ _ _ _ _ _ _ _ (findOrder size) h hheap rest
    refine ⟨0, s', ?_, fs', chain, hvalid⟩
    have hafter : Returns (fun fuel => do
        slobFree fuel bb bigblockSize
        return 0) _ 0 s' := Returns.bind hruns (Returns.of_eq fun _ => rfl)
    refine Returns.congr (fun fuel => ?_) hafter
    show kmallocPages fuel size bb s = _
    rw [kmallocPages, if_neg hbb]
    show (slobGetFreePages (findOrder size) >>= _) _ = _
    rw [bind_of_ok hget]
    rfl
  · have haddr : page * pageUnits ≠ 0 := Nat.mul_ne_zero hpage pageUnits_pos.ne'
    have hfirst : page * pageUnits / pageUnits = page := Nat.mul_div_cancel _ pageUnits_pos
    let b : Block := ⟨page * pageUnits, size, bb⟩
    have hb : ¬b.Small := hbig
    have hpages : ∀ q, b.HasPage q → s.free q = true := by
      intro q hq
      refine hfree q ?_
      rw [← hfirst]
      exact hq
    have hne : ∀ c ∈ live, c.head ≠ b.head := fun c hc => hlive c.head (covers_head hc)
    have hpushed := @Records.push_big _ _ _ b _ _ _ h hb hne hbb rfl hpage hpages hheap.held rest
    have hhanded : handedOut (recorded s b rest) size (page * pageUnits) live = b :: live := by
      rw [handedOut, if_neg haddr, if_neg hbig]
      rfl
    have htouched : Heap (recorded s b rest) arena fs
        (⟨bb, SLOB_UNITS bigblockSize⟩ :: live.map Block.slob) owned := by
      refine heap_touched hheap (fun a ha => Function.update_of_ne (hlist a ha) _ _)
        (fun a ha => Function.update_of_ne (hlist a ha) _ _) rfl fun q hq => Or.inl ?_
      change mark s.free _ _ false q = true at hq
      rw [mark] at hq
      split at hq
      · cases hq
      · exact hq
    refine ⟨page * pageUnits, recorded s b rest, Returns.of_eq fun fuel => ?_, fs, b.head :: chain,
      hhanded ▸ ⟨?_, hpushed⟩⟩
    · rw [kmallocPages, if_neg hbb]
      show (slobGetFreePages (findOrder size) >>= _) _ = _
      rw [bind_of_ok hget]
      show (if page * pageUnits ≠ 0 then _ else _ : Routine Slob Nat) _ = _
      rw [if_pos haddr]
      have hsame : b.addr / pageUnits = page := hfirst
      rw [recorded, hsame]
      rfl
    · rw [List.map_cons, Block.slob_big hb]
      exact htouched

theorem kmalloc_big (h : Valid free₀ arena s live fs owned chain)
    (hbig : ¬size < PGSIZE - SLOB_UNIT) :
    ∃ a s', Returns (fun fuel => kmalloc fuel size) s a s' ∧
      ∃ fs' owned' chain', Valid free₀ arena s' (handedOut s' size a live) fs' owned' chain' := by
  obtain ⟨bb, s₁, hruns, fs₁, owned₁, hkept, hgrown, hout⟩ :=
    heap_alloc h.heap (by decide : bigblockSize + SLOB_UNIT < PGSIZE)
      (by decide : 2 ≤ SLOB_UNITS bigblockSize)
  have hrecords := h.records.grown hkept hgrown
  have hreturns : ∀ a s', Returns (fun fuel => kmallocPages fuel size bb) s₁ a s' →
      Returns (fun fuel => kmalloc fuel size) s a s' := by
    intro a s' hafter
    refine Returns.congr (fun fuel => ?_) (Returns.bind hruns hafter)
    show kmalloc fuel size s = _
    rw [kmalloc, if_neg hbig]
  rcases hout with ⟨rfl, hheap⟩ | ⟨hbb, hheap, _⟩
  · exact ⟨0, s₁, hreturns 0 s₁ (Returns.of_eq fun _ => rfl), fs₁, owned₁, chain, hheap, hrecords⟩
  · obtain ⟨a, s', hafter, fs', chain', hvalid⟩ := kmallocPages_of hrecords hheap hbb hbig
    exact ⟨a, s', hreturns a s' hafter, fs', owned₁, chain', hvalid⟩

/-- The pages of a block have gone back, and its `bigblock_t` is out of the list. -/
theorem Records.pop_big {nextBig : Nat → Nat} {bigblocks : Nat}
    (h : Records free₀ s (b :: live) owned chain) (hb : ¬b.Small)
    (hlinked : Linked nextBig bigblocks (chain.erase b.head)) :
    Records free₀ { s with
      nextBig := nextBig
      bigblocks := bigblocks
      free := mark s.free (b.addr / pageUnits) (findOrder b.size) true } live owned
        (chain.erase b.head) := by
  have hbigs : bigs (b :: live) = b :: bigs live := bigs_cons_big hb
  obtain ⟨_, hchain, hsmall, hbig, hbusy, hdisjoint, hall⟩ := h
  rw [hbigs] at hchain hbig hbusy hdisjoint
  obtain ⟨hothers, hdisjoint⟩ := List.pairwise_cons.mp hdisjoint
  refine ⟨hlinked, ?_, fun c hc => hsmall c (List.mem_cons_of_mem _ hc),
    fun c hc => hbig c (List.mem_cons_of_mem _ hc), fun c hc q hq => ?_, hdisjoint, fun q => ?_⟩
  · have herased := hchain.erase b.head
    rwa [List.map_cons, List.erase_cons_head] at herased
  · show mark s.free _ _ true q = false ∧ _
    rw [mark_out fun hq' => hothers c hc q hq' hq]
    exact hbusy c (List.mem_cons_of_mem _ hc) q hq
  · show _ ↔ mark s.free _ _ true q = true ∨ _
    rw [hall, hbigs]
    simp only [List.mem_cons, exists_eq_or_imp]
    rcases Decidable.em (b.HasPage q) with hq | hq
    · rw [mark_in hq]
      simp [hq]
    · rw [mark_out hq]
      tauto

theorem heads_nodup {live : List Block} (h : (live.map Block.slob).Pairwise Apart) :
    (live.map Block.head).Nodup := by
  rw [List.pairwise_map] at h
  refine List.pairwise_map.mpr (h.imp fun {b c} hapart heq => ?_)
  have hcovers : Covers c.slob b.head := heq ▸ covers_base c.slob_pos
  exact hapart.not_covers (covers_base b.slob_pos) hcovers

/-- The pages have gone back to the page allocator, and the `bigblock_t` into the heap. -/
theorem kfree_big (h : Valid free₀ arena s (b :: live) fs owned chain) (hb : ¬b.Small)
    (hlayout : ∀ page, free₀ page = true → arena + 1 < page * pageUnits) :
    ∃ s' fs', Returns (fun fuel => kfree fuel b.addr) s () s' ∧
      Valid free₀ arena s' live fs' owned (chain.erase b.head) ∧
      (∀ u, CoversAny fs' u ↔ CoversAny fs u ∨ Covers b.slob u) ∧
      s'.free = mark s.free (b.addr / pageUnits) (findOrder b.size) true := by
  have hmem : b ∈ bigs (b :: live) := mem_bigs.mpr ⟨List.mem_cons_self, hb⟩
  obtain ⟨hnext, hunits, haligned, hne⟩ := h.records.big b hmem
  have hnodup : chain.Nodup := by
    rw [h.records.chain.nodup_iff]
    exact (heads_nodup h.heap.apart).sublist (List.filter_sublist.map _)
  have hothers : ∀ y ∈ chain, y ≠ b.head → s.next y ≠ b.addr := by
    intro y hy hyb heq
    obtain ⟨c, hc, rfl⟩ := List.mem_map.mp (h.records.chain.mem_iff.mp hy)
    have hdisjoint := h.records.disjoint
    have hbig := h.records.big c hc
    rw [bigs_cons_big hb] at hc hdisjoint
    have hrest := (List.mem_cons.mp hc).resolve_left fun heq => hyb (heq ▸ rfl)
    refine (List.pairwise_cons.mp hdisjoint).1 c hrest _ (hasPage_first b) ?_
    rw [← heq, hbig.1]
    exact hasPage_first c
  have hinchain : b.head ∈ chain := h.records.chain.mem_iff.mpr (List.mem_map_of_mem hmem)
  obtain ⟨xs, ys, rfl⟩ := List.append_of_mem hinchain
  have hout : b.head ∉ xs := by
    have hfirst := List.nodup_middle.mp hnodup
    exact fun hin => (List.nodup_cons.mp hfirst).1 (List.mem_append_left _ hin)
  have hfound : Returns (fun fuel => findBigBlock fuel b.addr) s (some (xs.getLastD 0, b.head)) s := by
    have hsearch : Returns (fun fuel => findBig b.addr fuel 0 s.bigblocks) s
        (some (xs.getLastD 0, b.head)) s := by
      refine findBig_of h.records.linked (fun y hy => hothers y (List.mem_append_left _ hy) ?_) hnext
      rintro rfl
      exact hout hy
    refine Returns.congr (fun fuel => ?_) hsearch
    show findBigBlock fuel b.addr s = _
    rw [findBigBlock, if_pos haligned, getState_bind]
  obtain ⟨nextBig, bigblocks, hunlink, hlinked⟩ := unlinkBig_of h.records.linked hnodup
  have herase : (xs ++ b.head :: ys).erase b.head = xs ++ ys := by
    rw [List.erase_append_right _ hout, List.erase_cons_head]
  let t : Slob := { s with
    nextBig := nextBig
    bigblocks := bigblocks
    free := mark s.free (b.addr / pageUnits) (findOrder b.size) true }
  have hrecords : Records free₀ t live owned ((xs ++ b.head :: ys).erase b.head) :=
    h.records.pop_big hb (herase ▸ hlinked)
  have htouched : Heap t arena fs ((b :: live).map Block.slob) owned := by
    refine heap_touched h.heap (fun _ _ => rfl) (fun _ _ => rfl) rfl fun q hq => ?_
    rcases Decidable.em (b.HasPage q) with hin | hin
    · refine Or.inr ⟨(h.records.busy b hmem q hin).2, hlayout q ?_⟩
      exact (h.records.all q).mpr (Or.inr (Or.inr ⟨b, hmem, hin⟩))
    · change mark s.free _ _ true q = true at hq
      rw [mark_out hin] at hq
      exact Or.inl hq
  have hslob := Block.slob_big hb
  have hsized : Sized t b.slob bigblockSize := by
    rw [Sized, if_pos (by decide), hslob]
  obtain ⟨s', fs', hruns, hheap, hcovers, hkept, hfree⟩ := heap_free htouched hsized
  refine ⟨s', fs', ?_, ⟨hheap, hrecords.grown hkept (grown_same hfree)⟩, hcovers, hfree⟩
  have hrelease : Returns (fun fuel => release fuel b.addr (some (xs.getLastD 0, b.head))) s () s' := by
    refine Returns.congr (fun fuel => ?_) hruns
    show (unlinkBig _ _ >>= _) s = _
    rw [bind_of_ok hunlink, getState_bind]
    show (slobFreePages b.addr (s.units b.head) >>= _) _ = _
    rw [hunits]
    rfl
  have hafter : Returns (fun fuel => findBigBlock fuel b.addr >>= release fuel b.addr) s () s' :=
    Returns.bind hfound hrelease
  refine Returns.congr (fun fuel => ?_) hafter
  show kfree fuel b.addr s = _
  rw [kfree, if_neg hne]

end Big

end Ucore.KmallocBlocks
