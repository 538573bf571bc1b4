import Ucore.RunQueueRuns
import Ucore.SkewHeapOrder

/-!
The stride scheduler's queue against the unbounded sums of the passes, of which the
strides are what is left in 32 bits.
-/

namespace Ucore.StrideQueue

open Ucore.Panic
open Ucore.KernelRoutine
open Ucore.SkewHeap
open Ucore.SkewHeapOrder
open Ucore.RunQueue
open Ucore.RunQueueRuns (Holds Still)

section Comparing

/-- The largest pass. -/
def bigStride : Nat := BIG_STRIDE.toNat

/-- What `stride_pick_next` adds to the stride of a process. -/
def passOf (priority : BitVec 32) : BitVec 32 :=
  if priority = 0 then BIG_STRIDE else BIG_STRIDE / priority

theorem bigStride_eq : bigStride = 2 ^ 31 - 1 := rfl

theorem passOf_le (priority : BitVec 32) : (passOf priority).toNat ≤ bigStride := by
  rw [passOf]
  split
  · exact le_rfl
  · rw [BitVec.toNat_udiv]
    exact Nat.div_le_self _ _

theorem toInt_sub_ofNat {a b : Nat} (hab : a < b + 2 ^ 31) (hba : b < a + 2 ^ 31) :
    (BitVec.ofNat 32 a - BitVec.ofNat 32 b).toInt = (a : Int) - b := by
  rw [BitVec.toInt_sub, BitVec.toInt_ofNat', BitVec.toInt_ofNat', Int.bmod_sub_bmod,
    Int.sub_bmod_bmod]
  refine Int.bmod_eq_of_le ?_ ?_
  · omega
  · omega

variable {ι : Type} {stride : ι → BitVec 32} {sum : ι → Nat} {p q : ι}

/-- As long as two sums are close, the comparison of the strides is that of the sums. -/
theorem procStrideCompF_eq_sign (hp : stride p = BitVec.ofNat 32 (sum p))
    (hq : stride q = BitVec.ofNat 32 (sum q)) (hpq : sum p ≤ sum q + bigStride)
    (hqp : sum q ≤ sum p + bigStride) :
    procStrideCompF stride p q = ((sum p : Int) - sum q).sign := by
  rw [bigStride_eq] at hpq hqp
  have hint : (stride p - stride q).toInt = (sum p : Int) - sum q := by
    rw [hp, hq]
    exact toInt_sub_ofNat (by omega) (by omega)
  rw [procStrideCompF, hint]
  split
  · next hpos => rw [Int.sign_eq_one_of_pos hpos]
  · split
    · next hzero => rw [hzero, Int.sign_zero]
    · next hpos hzero => rw [Int.sign_eq_neg_one_of_neg (by omega)]

end Comparing

section Queue

variable {ι κ : Type} [DecidableEq ι]

/-- The strides are the sums in 32 bits. -/
def Wraps (s : Sched ι κ) (sum : ι → Nat) : Prop :=
  ∀ p, s.stride p = BitVec.ofNat 32 (sum p)

/-- No two sums are further apart than the largest pass. -/
def Spread (sum : ι → Nat) (nodes : Finset ι) : Prop :=
  ∀ p ∈ nodes, ∀ q ∈ nodes, sum p ≤ sum q + bigStride

/-- The order of the queue. -/
def NotAfter (sum : ι → Nat) (p q : ι) : Prop :=
  sum p ≤ sum q

/-- The queue is a heap of these processes by their sums. -/
structure Sorted (s : Sched ι κ) (sum : ι → Nat) (nodes : Finset ι) : Prop where
  holds : Holds s nodes
  wraps : Wraps s sum
  spread : Spread sum nodes
  ordered : Ordered (NotAfter sum) s.entry nodes

/-- Only the links and the counters of the queue were changed. -/
structure Requeued (s s' : Sched ι κ) : Prop extends Still s s' where
  stride : s'.stride = s.stride
  priority : s'.priority = s.priority

variable {s s' : Sched ι κ} {sum : ι → Nat} {nodes : Finset ι} {p q : ι}

omit [DecidableEq ι] in
theorem respects_of_spread (hwraps : Wraps s sum) (hspread : Spread sum nodes) :
    Respects (procStrideCompF s.stride) (NotAfter sum) nodes := by
  intro p hp q hq
  have hsign := procStrideCompF_eq_sign (hwraps p) (hwraps q) (hspread p hp q hq)
    (hspread q hq p hp)
  rw [hsign]
  refine ⟨fun heq => ?_, fun hne => ?_⟩
  · have hneg := Int.sign_eq_neg_one_iff_neg.mp heq
    show sum p ≤ sum q
    omega
  · show sum q ≤ sum p
    by_contra hlt
    exact hne (Int.sign_eq_neg_one_of_neg (by omega))

theorem Sorted.root_le (h : Sorted s sum nodes) (hroot : s.rq.pool = some p) (hq : q ∈ nodes) :
    sum p ≤ sum q := by
  have hle : NotAfter sum p q := Heap.root_le h.holds.rooted.heap h.ordered
    (fun _ => Nat.le_refl _) (fun _ _ _ => Nat.le_trans) hroot hq
  exact hle

theorem Sorted.root_mem (h : Sorted s sum nodes) (hroot : s.rq.pool = some p) : p ∈ nodes := by
  have hheap := h.holds.rooted.heap
  rw [hroot] at hheap
  exact hheap.root_mem

theorem Sorted.pool_eq_none (h : Sorted s sum nodes) (hroot : s.rq.pool = none) : nodes = ∅ := by
  have hheap := h.holds.rooted.heap
  rw [hroot] at hheap
  cases hheap
  rfl

theorem Spread.insert (h : Spread sum nodes)
    (hp : ∀ q ∈ nodes, sum p ≤ sum q + bigStride ∧ sum q ≤ sum p + bigStride) :
    Spread sum (insert p nodes) := by
  intro x hx y hy
  rcases Finset.mem_insert.mp hx with rfl | hx'
  · rcases Finset.mem_insert.mp hy with rfl | hy'
    · exact Nat.le_add_right _ _
    · exact (hp y hy').1
  · rcases Finset.mem_insert.mp hy with rfl | hy'
    · exact (hp x hx').2
    · exact h x hx' y hy'

omit [DecidableEq ι] in
theorem Spread.mono {nodes' : Finset ι} (h : Spread sum nodes) (hsub : nodes' ⊆ nodes) :
    Spread sum nodes' :=
  fun p hp q hq => h p (hsub hp) q (hsub hq)

theorem strideEnqueue_sorted (h : Sorted s sum nodes) (hp : p ∉ nodes)
    (hspread : Spread sum (insert p nodes)) :
    ∃ s', strideEnqueue p s = .ok (.ok (), s') ∧ Sorted s' sum (insert p nodes) ∧
      Requeued s s' := by
  obtain ⟨root, e, hrun, hrooted⟩ :=
    skewHeapInsert_of (procStrideCompF s.stride) h.holds.rooted hp (Nat.lt_succ_self _)
  have hordered := skewHeapInsert_ordered h.holds.rooted hp (Nat.lt_succ_self _)
    (respects_of_spread h.wraps hspread) h.ordered hrun
  rw [← h.holds.procNum] at hrun
  have hinsert : onEntries (skewHeapInsert (procStrideCompF s.stride) (s.rq.procNum + 2)
      s.rq.pool p) s = .ok (.ok root, { s with entry := e }) := onPart_of hrun
  have hcard : s.rq.procNum + 1 = (insert p nodes).card := by
    rw [Finset.card_insert_of_notMem hp, h.holds.procNum]
  rw [strideEnqueue, getState_bind, bind_of_ok hinsert]
  split
  · exact ⟨_, rfl, ⟨⟨hrooted, hcard⟩, h.wraps, hspread, hordered⟩, ⟨⟨rfl, rfl, rfl⟩, rfl, rfl⟩⟩
  · exact ⟨_, rfl, ⟨⟨hrooted, hcard⟩, h.wraps, hspread, hordered⟩, ⟨⟨rfl, rfl, rfl⟩, rfl, rfl⟩⟩

/-- The sums after a process was picked. -/
def picked (s : Sched ι κ) (sum : ι → Nat) (p : ι) : ι → Nat :=
  Function.update sum p (sum p + (passOf (s.priority p)).toNat)

theorem picked_self : picked s sum p p = sum p + (passOf (s.priority p)).toNat :=
  Function.update_self _ _ _

theorem picked_of_ne (h : q ≠ p) : picked s sum p q = sum q :=
  Function.update_of_ne h _ _

theorem spread_picked (h : Spread sum nodes) (hmin : ∀ q ∈ nodes, sum p ≤ sum q) :
    Spread (picked s sum p) nodes := by
  intro x hx y hy
  have hpass := passOf_le (s.priority p)
  rcases eq_or_ne x p with rfl | hxp
  · rw [picked_self]
    rcases eq_or_ne y x with rfl | hyx
    · rw [picked_self]
      omega
    · rw [picked_of_ne hyx]
      have hle := hmin y hy
      omega
  · rw [picked_of_ne hxp]
    have hxy := h x hx y hy
    rcases eq_or_ne y p with rfl | hyp
    · rw [picked_self]
      omega
    · rwa [picked_of_ne hyp]

/-- The queue between `stride_pick_next` and `stride_dequeue`, where the key of the root was
changed. -/
structure Picked (s s' : Sched ι κ) (sum : ι → Nat) (nodes : Finset ι) (p : ι) : Prop where
  root : s'.rq.pool = some p
  holds : Holds s' nodes
  wraps : Wraps s' (picked s sum p)
  spread : Spread (picked s sum p) nodes
  ordered : Ordered (NotAfter sum) s'.entry nodes
  still : Still s s'
  priority : s'.priority = s.priority

theorem stridePickNext_sorted (h : Sorted s sum nodes) (hroot : s.rq.pool = some p) :
    ∃ s', stridePickNext s = .ok (.ok (some p), s') ∧ Picked s s' sum nodes p := by
  refine ⟨{ s with stride := Function.update s.stride p (s.stride p + passOf (s.priority p)) },
    ?_, ?_⟩
  · rw [stridePickNext, getState_bind, hroot]
    rfl
  · refine ⟨hroot, h.holds.congr rfl rfl, fun q => ?_,
      spread_picked h.spread fun q hq => h.root_le hroot hq, h.ordered, ⟨rfl, rfl, rfl⟩, rfl⟩
    show Function.update s.stride p _ q = _
    rcases eq_or_ne q p with rfl | hne
    · rw [Function.update_self, picked_self, h.wraps q, BitVec.ofNat_add, BitVec.ofNat_toNat,
        BitVec.setWidth_eq]
    · rw [Function.update_of_ne hne, picked_of_ne hne, h.wraps q]

theorem stridePickNext_empty (hroot : s.rq.pool = none) :
    stridePickNext s = .ok (.ok none, s) := by
  rw [stridePickNext, getState_bind, hroot]
  rfl

theorem strideDequeue_picked (h : Picked s s' sum nodes p) :
    ∃ s'', strideDequeue p s' = .ok (.ok (), s'') ∧
      Sorted s'' (picked s sum p) (nodes.erase p) ∧ Requeued s' s'' := by
  have hmem : p ∈ nodes := by
    have hheap := h.holds.rooted.heap
    rw [h.root] at hheap
    exact hheap.root_mem
  have hspread : Spread (picked s sum p) (nodes.erase p) := h.spread.mono (Finset.erase_subset _ _)
  obtain ⟨root, e, hrun, hrooted, hkeeps⟩ := skewHeapRemove_mem (procStrideCompF s'.stride)
    h.holds.rooted hmem (Nat.lt_succ_self _)
  have hsame : ∀ x ∈ nodes.erase p, picked s sum p x = sum x := fun x hx =>
    picked_of_ne (Finset.ne_of_mem_erase hx)
  have hrespects : Respects (procStrideCompF s'.stride) (NotAfter sum)
      (nodes.erase p) := by
    intro x hx y hy
    have hxy := respects_of_spread h.wraps hspread x hx y hy
    rwa [NotAfter, NotAfter, hsame x hx, hsame y hy] at hxy
  have hordered := hkeeps (NotAfter sum) (fun _ _ _ => Nat.le_trans) hrespects h.ordered
  rw [← h.holds.procNum] at hrun
  have hremove : onEntries (skewHeapRemove (procStrideCompF s'.stride) (s'.rq.procNum + 1)
      s'.rq.pool p) s' = .ok (.ok root, { s' with entry := e }) := onPart_of hrun
  have hcard : s'.rq.procNum - 1 = (nodes.erase p).card := by
    rw [Finset.card_erase_of_mem hmem, h.holds.procNum]
  rw [strideDequeue, getState_bind, bind_of_ok hremove]
  refine ⟨_, rfl, ⟨⟨hrooted, hcard⟩, h.wraps, hspread, ?_⟩, ⟨⟨rfl, rfl, rfl⟩, rfl, rfl⟩⟩
  intro x hx c hchild
  have hc := Heap.child_mem hrooted.heap hx hchild
  show picked s sum p x ≤ picked s sum p c
  rw [hsame x hx, hsame c hc]
  exact hordered x hx c hchild

/-- A process that comes before all others or with them is the next one. -/
theorem strideEnqueue_first (h : Sorted s sum nodes) (hspread : Spread sum (insert p nodes))
    (hfirst : ∀ q ∈ nodes, sum p ≤ sum q) (hrun : strideEnqueue p s = .ok (.ok (), s')) :
    s'.rq.pool = some p := by
  have hcomp : ∀ a, s.rq.pool = some a → procStrideCompF s.stride a p ≠ -1 := by
    intro a ha heq
    have hmem := h.root_mem ha
    have hrespects := respects_of_spread h.wraps hspread
    rw [procStrideCompF_eq_sign (h.wraps a) (h.wraps p)
      (hspread a (Finset.mem_insert_of_mem hmem) p (Finset.mem_insert_self _ _))
      (hspread p (Finset.mem_insert_self _ _) a (Finset.mem_insert_of_mem hmem))] at heq
    have hneg := Int.sign_eq_neg_one_iff_neg.mp heq
    have hle := hfirst a hmem
    omega
  rw [strideEnqueue, getState_bind] at hrun
  rcases bind_eq_ok_iff.mp hrun with ⟨root, t, hinsert, hrest⟩ | ⟨_, _, herror⟩
  · obtain ⟨e, he, rfl⟩ := onPart_eq_ok hinsert
    have hroot := skewHeapInsert_root hcomp he
    split at hrest
    · cases hrest
      exact hroot
    · cases hrest
      exact hroot
  · cases herror

end Queue

end Ucore.StrideQueue
