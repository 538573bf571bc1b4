import Mathlib.Algebra.Group.Action.Defs
import Mathlib.Algebra.Order.BigOperators.Group.Finset
import Mathlib.Algebra.Order.Group.Abs
import Mathlib.Algebra.Order.Group.Int
import Mathlib.Data.Multiset.Count
import Ucore.StrideQueue

/-! Rounds of the stride scheduler over processes that are always runnable. -/

namespace Ucore.StrideRounds

open Relation
open Ucore.Errors
open Ucore.KernelRoutine
open Ucore.SkewHeap
open Ucore.SkewHeapOrder
open Ucore.RunQueue
open Ucore.RunQueueRuns (Holds Still)
open Ucore.StrideQueue

/-- Where the scheduler is in a round. -/
inductive Phase (ι : Type) where
  | ready
  | picked (p : ι)
  | dequeued (p : ι)

/-- The scheduler, and the processes that it has picked, the last one first. -/
structure Round (ι κ : Type) where
  sched : Sched ι κ
  phase : Phase ι
  picks : List ι

variable {ι κ : Type} [DecidableEq ι]

/-- A process is picked, taken out of the queue, and put back. -/
inductive Move : Round ι κ → Round ι κ → Prop
  | pick {r : Round ι κ} {p : ι} {t : Sched ι κ} :
      r.phase = .ready → stridePickNext r.sched = .ok (.ok (some p), t) →
        Move r { sched := t, phase := .picked p, picks := p :: r.picks }
  | dequeue {r : Round ι κ} {p : ι} {u : Except Errno Unit} {t : Sched ι κ} :
      r.phase = .picked p → strideDequeue p r.sched = .ok (u, t) →
        Move r { r with sched := t, phase := .dequeued p }
  | enqueue {r : Round ι κ} {p : ι} {u : Except Errno Unit} {t : Sched ι κ} :
      r.phase = .dequeued p → strideEnqueue p r.sched = .ok (u, t) →
        Move r { r with sched := t, phase := .ready }

/-- The processes are in the queue, with stride 0 and these priorities. -/
structure Starts (nodes : Finset ι) (priority : ι → BitVec 32) (r : Round ι κ) : Prop where
  phase : r.phase = .ready
  picks : r.picks = []
  holds : Holds r.sched nodes
  stride : ∀ p ∈ nodes, r.sched.stride p = 0
  priority : r.sched.priority = priority

/-- The passes that a process has got. -/
def share (priority : ι → BitVec 32) (picks : List ι) (p : ι) : Nat :=
  picks.count p * (passOf (priority p)).toNat

section Keeping

variable {nodes : Finset ι} {priority : ι → BitVec 32} {base : ι → Nat} {r r' : Round ι κ} {p q : ι}
  {picks : List ι}

/-- The unbounded strides. -/
def sums (base : ι → Nat) (priority : ι → BitVec 32) (picks : List ι) (p : ι) : Nat :=
  base p + share priority picks p

theorem sums_cons {s : Sched ι κ} (hpriority : s.priority = priority) :
    sums base priority (p :: picks) = picked s (sums base priority picks) p := by
  funext q
  rcases eq_or_ne q p with rfl | hne
  · rw [picked_self, hpriority, sums, sums, share, share, List.count_cons_self, Nat.succ_mul,
      Nat.add_assoc]
  · rw [picked_of_ne hne, sums, sums, share, share, List.count_cons_of_ne hne.symm]

/-- The queue in each phase. -/
def InPhase (nodes : Finset ι) (sum : ι → Nat) (s : Sched ι κ) : Phase ι → Prop
  | .ready => Sorted s sum nodes
  | .picked p => p ∈ nodes ∧ ∃ s' sum', Picked s' s sum' nodes p ∧ picked s' sum' p = sum
  | .dequeued p => p ∈ nodes ∧ Sorted s sum (nodes.erase p)

structure Inv (nodes : Finset ι) (priority : ι → BitVec 32) (base : ι → Nat) (r : Round ι κ) :
    Prop where
  wraps : Wraps r.sched (sums base priority r.picks)
  fixed : r.sched.priority = priority
  inPhase : InPhase nodes (sums base priority r.picks) r.sched r.phase
  spread : ∀ n, Spread (sums base priority (r.picks.drop n)) nodes
  known : ∀ p ∈ r.picks, p ∈ nodes

theorem Starts.inv (h : Starts nodes priority r) :
    Inv nodes priority (fun p => (r.sched.stride p).toNat) r := by
  have hsums : sums (fun p => (r.sched.stride p).toNat) priority [] =
      fun p => (r.sched.stride p).toNat := by
    funext p
    rw [sums, share, List.count_nil, Nat.zero_mul, Nat.add_zero]
  have hzero : ∀ p ∈ nodes, (r.sched.stride p).toNat = 0 := fun p hp => by
    rw [h.stride p hp]
    rfl
  have hwraps : Wraps r.sched fun p => (r.sched.stride p).toNat := fun p => by
    rw [BitVec.ofNat_toNat, BitVec.setWidth_eq]
  have hspread : Spread (fun p => (r.sched.stride p).toNat) nodes := by
    intro p hp q _
    show (r.sched.stride p).toNat ≤ _
    rw [hzero p hp]
    exact Nat.zero_le _
  refine ⟨?_, h.priority, ?_, fun n => ?_, fun p hp => ?_⟩
  · rwa [h.picks, hsums]
  · rw [h.picks, h.phase, hsums]
    refine ⟨h.holds, hwraps, hspread, fun x hx c _ => ?_⟩
    show (r.sched.stride x).toNat ≤ _
    rw [hzero x hx]
    exact Nat.zero_le _
  · rwa [h.picks, List.drop_nil, hsums]
  · rw [h.picks] at hp
    exact absurd hp List.not_mem_nil

/-- What each phase goes on to. -/
theorem inv_pick (h : Inv nodes priority base r) (hready : r.phase = .ready)
    (hroot : r.sched.rq.pool = some p) :
    ∃ t, stridePickNext r.sched = .ok (.ok (some p), t) ∧
      Inv nodes priority base { sched := t, phase := .picked p, picks := p :: r.picks } := by
  have hsorted := h.inPhase
  rw [hready] at hsorted
  have hmem : p ∈ nodes := Sorted.root_mem hsorted hroot
  obtain ⟨t, hrun, hpicked⟩ := stridePickNext_sorted hsorted hroot
  have hsums := @sums_cons ι κ _ priority base p r.picks r.sched h.fixed
  refine ⟨t, hrun, ?_, hpicked.priority.trans h.fixed, ⟨hmem, r.sched, _, hpicked, hsums.symm⟩,
    fun n => ?_, fun q hq => ?_⟩
  · show Wraps t (sums base priority (p :: r.picks))
    rw [hsums]
    exact hpicked.wraps
  · cases n with
    | zero =>
        show Spread (sums base priority (p :: r.picks)) nodes
        rw [hsums]
        exact hpicked.spread
    | succ n => exact h.spread n
  · rcases List.mem_cons.mp hq with rfl | hq
    · exact hmem
    · exact h.known q hq

theorem inv_dequeue (h : Inv nodes priority base r) (hphase : r.phase = .picked p) :
    ∃ t, strideDequeue p r.sched = .ok (.ok (), t) ∧
      Inv nodes priority base { r with sched := t, phase := .dequeued p } := by
  have hinPhase := h.inPhase
  rw [hphase] at hinPhase
  obtain ⟨hmem, s', sum', hpicked, hsums⟩ := hinPhase
  obtain ⟨t, hrun, hsorted, hrequeued⟩ := strideDequeue_picked hpicked
  rw [hsums] at hsorted
  exact ⟨t, hrun, hsorted.wraps, hrequeued.priority.trans h.fixed, ⟨hmem, hsorted⟩, h.spread,
    h.known⟩

theorem inv_enqueue (h : Inv nodes priority base r) (hphase : r.phase = .dequeued p) :
    ∃ t, strideEnqueue p r.sched = .ok (.ok (), t) ∧
      Inv nodes priority base { r with sched := t, phase := .ready } ∧
      ((∀ q ∈ nodes, sums base priority r.picks p ≤ sums base priority r.picks q) →
        t.rq.pool = some p) := by
  have hinPhase := h.inPhase
  rw [hphase] at hinPhase
  obtain ⟨hmem, hsorted⟩ := hinPhase
  have hspread : Spread (sums base priority r.picks) (insert p (nodes.erase p)) := by
    rw [Finset.insert_erase hmem]
    exact h.spread 0
  obtain ⟨t, hrun, hsorted', hrequeued⟩ :=
    strideEnqueue_sorted hsorted (Finset.notMem_erase p nodes) hspread
  rw [Finset.insert_erase hmem] at hsorted'
  refine ⟨t, hrun, ⟨hsorted'.wraps, hrequeued.priority.trans h.fixed, hsorted', h.spread,
    h.known⟩, fun hfirst => ?_⟩
  exact strideEnqueue_first hsorted hspread (fun q hq => hfirst q (Finset.mem_of_mem_erase hq)) hrun

theorem inv_move (h : Inv nodes priority base r) (hmove : Move r r') :
    Inv nodes priority base r' := by
  cases hmove with
  | @pick p t hready hrun =>
      have hroot : r.sched.rq.pool = some p := by
        rw [stridePickNext, getState_bind] at hrun
        cases hpool : r.sched.rq.pool with
        | none =>
            rw [hpool] at hrun
            cases hrun
        | some root =>
            rw [hpool] at hrun
            cases hrun
            rfl
      obtain ⟨t', hrun', hinv⟩ := inv_pick h hready hroot
      cases hrun.symm.trans hrun'
      exact hinv
  | dequeue hphase hrun =>
      obtain ⟨t', hrun', hinv⟩ := inv_dequeue h hphase
      cases hrun.symm.trans hrun'
      exact hinv
  | enqueue hphase hrun =>
      obtain ⟨t', hrun', hinv, _⟩ := inv_enqueue h hphase
      cases hrun.symm.trans hrun'
      exact hinv

theorem inv_of_moves (h : Inv nodes priority base r) (hrun : ReflTransGen Move r r') :
    Inv nodes priority base r' := by
  induction hrun with
  | refl => exact h
  | tail _ hmove ih => exact inv_move ih hmove

/-- A round can always go on. -/
theorem move_of_inv (h : Inv nodes priority base r) (hnodes : nodes.Nonempty) :
    ∃ r', Move r r' := by
  cases hphase : r.phase with
  | ready =>
      have hsorted := h.inPhase
      rw [hphase] at hsorted
      cases hroot : r.sched.rq.pool with
      | none =>
          rw [Sorted.pool_eq_none hsorted hroot] at hnodes
          exact absurd hnodes Finset.not_nonempty_empty
      | some p =>
          obtain ⟨t, hrun, _⟩ := inv_pick h hphase hroot
          exact ⟨_, .pick hphase hrun⟩
  | picked p =>
      obtain ⟨t, hrun, _⟩ := inv_dequeue h hphase
      exact ⟨_, .dequeue hphase hrun⟩
  | dequeued p =>
      obtain ⟨t, hrun, _⟩ := inv_enqueue h hphase
      exact ⟨_, .enqueue hphase hrun⟩

end Keeping

section Shares

variable {nodes : Finset ι} {priority : ι → BitVec 32} {r r' : Round ι κ} {picks : List ι}

theorem sums_of_starts (h : Starts nodes priority r) {p : ι} (hp : p ∈ nodes) :
    sums (fun p => (r.sched.stride p).toNat) priority picks p = share priority picks p := by
  rw [sums, h.stride p hp]
  exact Nat.zero_add _

/-- How far the processes are apart, and what the scheduler knows about it. -/
structure SharesOk (nodes : Finset ι) (priority : ι → BitVec 32) (r : Round ι κ) : Prop where
  shares : ∀ i ∈ nodes, ∀ j ∈ nodes,
    |(share priority r.picks i : Int) - share priority r.picks j| ≤ 0x7FFFFFFF
  compares : ∀ i ∈ nodes, ∀ j ∈ nodes, procStrideCompF r.sched.stride i j =
    ((share priority r.picks i : Int) - share priority r.picks j).sign
  goes : nodes.Nonempty → ∃ r', Move r r'

theorem sharesOk_of_moves (hstarts : Starts nodes priority r) (hrun : ReflTransGen Move r r') :
    SharesOk nodes priority r' := by
  have hinv := inv_of_moves hstarts.inv hrun
  have hspread : ∀ i ∈ nodes, ∀ j ∈ nodes,
      share priority r'.picks i ≤ share priority r'.picks j + bigStride := by
    intro i hi j hj
    have hle := hinv.spread 0 i hi j hj
    rwa [List.drop_zero, sums_of_starts hstarts hi, sums_of_starts hstarts hj] at hle
  refine ⟨fun i hi j hj => ?_, fun i hi j hj => ?_, fun hnodes => move_of_inv hinv hnodes⟩
  · have hij := hspread i hi j hj
    have hji := hspread j hj i hi
    rw [bigStride_eq] at hij hji
    rw [abs_le]
    omega
  · have hwraps : ∀ p ∈ nodes, r'.sched.stride p = BitVec.ofNat 32 (share priority r'.picks p) := by
      intro p hp
      rw [hinv.wraps p, sums_of_starts hstarts hp]
    exact procStrideCompF_eq_sign (hwraps i hi) (hwraps j hj) (hspread i hi j hj) (hspread j hj i hi)

/-- Two processes are in the queue. -/
def twoQueued : Round Nat Unit where
  sched := {
    waits := RunQueueRuns.idleOnly.shared.waits
    current := 9
    idleproc := 9
    rq := { pool := some 0, procNum := 2, maxTimeSlice := 5 }
    entry := fun p => if p = 0 then ⟨none, some 1, none⟩ else ⟨some 0, none, none⟩
    stride := fun _ => 0
    priority := fun p => if p = 0 then 3 else 0
    timeSlice := fun _ => 0
    needResched := fun _ => false
    runs := fun _ => 0 }
  phase := .ready
  picks := []

theorem starts_twoQueued : Starts {0, 1} (fun p => if p = 0 then 3 else 0) twoQueued := by
  refine ⟨rfl, rfl, ⟨⟨?_, ?_⟩, rfl⟩, fun _ _ => rfl, rfl⟩
  · have hone : Heap twoQueued.sched.entry (some 1) {1} := by
      have hnode : Heap twoQueued.sched.entry (some 1) (insert 1 (∅ ∪ ∅)) :=
        .node .empty .empty (Finset.disjoint_empty_left _) (by decide) nofun nofun
      exact hnode
    have hboth : Heap twoQueued.sched.entry (some 0) (insert 0 ({1} ∪ ∅)) := by
      refine .node hone .empty (Finset.disjoint_empty_right _) (by decide) ?_ nofun
      rintro _ ⟨⟩
      rfl
    exact hboth
  · rintro _ ⟨⟩
    rfl

/-- A round of process 0. -/
theorem sharesOk_of_moves_round : ∃ r, ReflTransGen Move twoQueued r ∧ r.picks = [0] ∧
    SharesOk {0, 1} (fun p => if p = 0 then 3 else 0) r := by
  have hrun : ReflTransGen Move twoQueued _ := .single (@Move.pick Nat Unit _ twoQueued 0 _ rfl rfl)
  replace hrun := hrun.tail (@Move.dequeue Nat Unit _ _ 0 _ _ rfl rfl)
  replace hrun := hrun.tail (@Move.enqueue Nat Unit _ _ 0 _ _ rfl rfl)
  exact ⟨_, hrun, rfl, sharesOk_of_moves starts_twoQueued hrun⟩

end Shares

section Starvation

variable {nodes : Finset ι} {priority : ι → BitVec 32} {base : ι → Nat} {r r' : Round ι κ}
  {j z : ι} {picks rest : List ι}

theorem passOf_eq_zero_iff (q : BitVec 32) : (passOf q).toNat = 0 ↔ BIG_STRIDE < q := by
  rw [passOf]
  split
  · next hzero =>
      rw [hzero]
      decide
  · next hpos =>
      have hpos' : q.toNat ≠ 0 := fun heq => hpos (BitVec.eq_of_toNat_eq heq)
      rw [BitVec.toNat_udiv, Nat.div_eq_zero_iff, BitVec.lt_def]
      simp [hpos']

theorem sums_append (p : ι) : sums base priority (picks ++ rest) p =
    sums base priority rest p + share priority picks p := by
  rw [sums, sums, share, share, share, List.count_append, Nat.add_mul]
  omega

/-- How many picks there can be while a process waits. -/
def window (nodes : Finset ι) : Nat :=
  nodes.card * (2 * bigStride) + 1

theorem mem_window (h : Inv nodes priority base r) (hpass : ∀ p ∈ nodes, priority p ≤ BIG_STRIDE)
    (hj : j ∈ nodes) {m : Nat} (hm : m + window nodes ≤ r.picks.length) :
    j ∈ (r.picks.drop m).take (window nodes) := by
  by_contra hout
  have hsplit : (r.picks.drop m).take (window nodes) ++ r.picks.drop (m + window nodes) =
      r.picks.drop m := by
    rw [← List.drop_drop, List.take_append_drop]
  have hlength : ((r.picks.drop m).take (window nodes)).length = window nodes := by
    rw [List.length_take, List.length_drop]
    omega
  have hknown : ∀ p ∈ (r.picks.drop m).take (window nodes), p ∈ nodes := fun p hp =>
    h.known p (List.mem_of_mem_drop (List.mem_of_mem_take hp))
  have hbefore := h.spread (m + window nodes)
  have hafter := h.spread m
  rw [← hsplit] at hafter
  generalize (r.picks.drop m).take (window nodes) = picks at *
  have hcount : ∀ i ∈ nodes, picks.count i ≤ 2 * bigStride := by
    intro i hi
    have hfirst := hbefore j hj i hi
    have hlast := hafter i hi j hj
    rw [sums_append, sums_append, share, share, List.count_eq_zero.mpr hout, Nat.zero_mul,
      Nat.add_zero] at hlast
    have hpos : 1 ≤ (passOf (priority i)).toNat := by
      rw [Nat.one_le_iff_ne_zero, ne_eq, passOf_eq_zero_iff]
      exact BitVec.not_lt.mpr (hpass i hi)
    have hmul := Nat.le_mul_of_pos_right (picks.count i) hpos
    omega
  have htotal : ∑ i ∈ nodes, picks.count i = picks.length := by
    have hsum := @Multiset.sum_count_eq_card ι _ nodes (picks : Multiset ι) hknown
    simpa only [Multiset.coe_count, Multiset.coe_card] using hsum
  have hle := Finset.sum_le_card_nsmul nodes _ _ hcount
  rw [htotal, hlength, window, smul_eq_mul] at hle
  omega

/-- A round is done. -/
theorem round_of_inv (h : Inv nodes priority base r) (hready : r.phase = .ready)
    (hnodes : nodes.Nonempty) :
    ∃ r' p, ReflTransGen Move r r' ∧ r'.phase = .ready ∧ r'.picks = p :: r.picks := by
  cases hroot : r.sched.rq.pool with
  | none =>
      have hsorted := h.inPhase
      rw [hready] at hsorted
      rw [Sorted.pool_eq_none hsorted hroot] at hnodes
      exact absurd hnodes Finset.not_nonempty_empty
  | some p =>
      obtain ⟨t₁, hrun₁, h₁⟩ := inv_pick h hready hroot
      obtain ⟨t₂, hrun₂, h₂⟩ := inv_dequeue h₁ rfl
      obtain ⟨t₃, hrun₃, _⟩ := inv_enqueue h₂ rfl
      have hmoves := ReflTransGen.single (Move.pick hready hrun₁)
      exact ⟨_, p, (hmoves.tail (.dequeue rfl hrun₂)).tail (.enqueue rfl hrun₃), rfl, rfl⟩

theorem rounds_of_starts (h : Starts nodes priority r) (hnodes : nodes.Nonempty) (n : Nat) :
    ∃ r', ReflTransGen Move r r' ∧ r'.phase = .ready ∧ r'.picks.length = n := by
  induction n with
  | zero => exact ⟨r, .refl, h.phase, by rw [h.picks]; rfl⟩
  | succ n ih =>
      obtain ⟨r₁, hrun₁, hready, hlength⟩ := ih
      obtain ⟨r₂, p, hrun₂, hready₂, hpicks⟩ := round_of_inv (inv_of_moves h.inv hrun₁) hready hnodes
      exact ⟨r₂, hrun₁.trans hrun₂, hready₂, by rw [hpicks, List.length_cons, hlength]⟩

/-- What was picked was out of the queue once. -/
theorem dequeued_of_mem (h : Starts nodes priority r) (hrun : ReflTransGen Move r r')
    (hz : z ∈ r'.picks) : ∃ r₁, ReflTransGen Move r r₁ ∧ r₁.phase = .dequeued z := by
  induction hrun with
  | refl =>
      rw [h.picks] at hz
      exact absurd hz List.not_mem_nil
  | @tail r₁ r₂ hsofar hmove ih =>
      cases hmove with
      | @pick p t hready hpick =>
          rcases List.mem_cons.mp hz with rfl | hz
          · have hall := hsofar.tail (Move.pick hready hpick)
            obtain ⟨t', hdequeue, _⟩ := inv_dequeue (inv_of_moves h.inv hall) rfl
            exact ⟨_, hall.tail (.dequeue rfl hdequeue), rfl⟩
          · exact ih hz
      | dequeue => exact ih hz
      | enqueue => exact ih hz

/-- A process with pass 0 that was picked is picked for ever. -/
theorem stuck (h : Inv nodes priority base r) (hphase : r.phase = .dequeued z)
    (hbase : base z = 0) (hpass : (passOf (priority z)).toNat = 0) (n : Nat) :
    ∃ r', ReflTransGen Move r r' ∧ Inv nodes priority base r' ∧ r'.phase = .dequeued z ∧
      r'.picks = List.replicate n z ++ r.picks := by
  induction n with
  | zero => exact ⟨r, .refl, h, hphase, rfl⟩
  | succ n ih =>
      obtain ⟨r₁, hrun, h₁, hphase₁, hpicks⟩ := ih
      have hfirst : ∀ q ∈ nodes, sums base priority r₁.picks z ≤ sums base priority r₁.picks q := by
        intro q _
        rw [sums, share, hbase, hpass, Nat.mul_zero]
        exact Nat.zero_le _
      obtain ⟨t₂, hrun₂, h₂, hroot⟩ := inv_enqueue h₁ hphase₁
      obtain ⟨t₃, hrun₃, h₃⟩ := inv_pick h₂ rfl (hroot hfirst)
      obtain ⟨t₄, hrun₄, h₄⟩ := inv_dequeue h₃ rfl
      have hmoves := (hrun.tail (.enqueue hphase₁ hrun₂)).tail (.pick rfl hrun₃)
      refine ⟨_, hmoves.tail (.dequeue rfl hrun₄), h₄, rfl, ?_⟩
      show z :: r₁.picks = _
      rw [hpicks, List.replicate_succ, List.cons_append]

/-- Whatever the number of picks, a process with pass 0 or one beside it waits for longer. -/
theorem starved (h : Starts nodes priority r) (hz : z ∈ nodes) (hpass : BIG_STRIDE < priority z)
    (hne : j ≠ z) (n : Nat) :
    ∃ r', ReflTransGen Move r r' ∧ n ≤ r'.picks.length ∧
      (z ∉ r'.picks.take n ∨ j ∉ r'.picks.take n) := by
  obtain ⟨r₁, hrun₁, _, hlength⟩ := rounds_of_starts h ⟨z, hz⟩ n
  by_cases hmem : z ∈ r₁.picks
  · obtain ⟨r₂, hrun₂, hphase⟩ := dequeued_of_mem h hrun₁ hmem
    have hzero : (r.sched.stride z).toNat = 0 := by
      rw [h.stride z hz]
      rfl
    obtain ⟨r₃, hrun₃, _, _, hpicks⟩ := stuck (inv_of_moves h.inv hrun₂) hphase hzero
      ((passOf_eq_zero_iff _).mpr hpass) n
    refine ⟨r₃, hrun₂.trans hrun₃, ?_, Or.inr ?_⟩
    · rw [hpicks, List.length_append, List.length_replicate]
      exact Nat.le_add_right _ _
    · rw [hpicks, List.take_append_of_le_length (by rw [List.length_replicate]), List.take_replicate]
      intro hin
      exact hne (List.eq_of_mem_replicate hin)
  · exact ⟨r₁, hrun₁, hlength.ge, Or.inl fun hin => hmem (List.mem_of_mem_take hin)⟩

/-- Every process in the queue is picked in any so many consecutive picks. -/
def NoStarvation (κ : Type) (nodes : Finset ι) (priority : ι → BitVec 32) (n : Nat) : Prop :=
  ∀ r r' : Round ι κ, Starts nodes priority r → ReflTransGen Move r r' → ∀ j ∈ nodes,
    ∀ m, m + n ≤ r'.picks.length → j ∈ (r'.picks.drop m).take n

theorem not_noStarvation (h : Starts nodes priority r) (hz : z ∈ nodes)
    (hpass : BIG_STRIDE < priority z) (hj : j ∈ nodes) (hne : j ≠ z) :
    ¬∃ n, NoStarvation κ nodes priority n := by
  rintro ⟨n, hall⟩
  obtain ⟨r', hrun, hlength, hout⟩ := starved h hz hpass hne n
  have hin : ∀ p ∈ nodes, p ∈ r'.picks.take n := by
    intro p hp
    exact hall r r' h hrun p hp 0 (by omega)
  rcases hout with hout | hout
  · exact hout (hin z hz)
  · exact hout (hin j hj)

/-- No process is in the queue. -/
def noneQueued (p : ι) (priority : ι → BitVec 32) : Sched ι κ where
  waits := {
    state := fun _ => .runnable
    waitState := fun _ => 0
    exiting := fun _ => false
    wait := fun _ => ⟨0, .keyboard, false⟩
    queue := fun _ => []
    value := fun _ => 0
    timerList := []
    ups := fun _ => 0
    taken := fun _ => 0
    queued := fun _ => []
    handed := fun _ => [] }
  current := p
  idleproc := p
  rq := { pool := none, procNum := 0, maxTimeSlice := 5 }
  entry := fun _ => ⟨none, none, none⟩
  stride := fun _ => 0
  priority := priority
  timeSlice := fun _ => 0
  needResched := fun _ => false
  runs := fun _ => 0

/-- Any processes can be put into the queue. -/
theorem exists_starts (p : ι) (nodes : Finset ι) (priority : ι → BitVec 32) :
    ∃ r : Round ι κ, Starts nodes priority r := by
  have hqueue : ∃ s : Sched ι κ, Sorted s (fun _ => 0) nodes ∧ s.priority = priority := by
    induction nodes using Finset.induction_on with
    | empty =>
        refine ⟨noneQueued p priority, ⟨⟨⟨.empty, nofun⟩, rfl⟩, fun _ => rfl, ?_, ?_⟩, rfl⟩
        · exact fun q hq => absurd hq (Finset.notMem_empty _)
        · exact fun q hq => absurd hq (Finset.notMem_empty _)
    | insert q nodes hq ih =>
        obtain ⟨s, hsorted, hpriority⟩ := ih
        have hspread : Spread (fun _ => 0) (insert q nodes) := fun _ _ _ _ => Nat.zero_le _
        obtain ⟨s', _, hsorted', hrequeued⟩ := strideEnqueue_sorted hsorted hq hspread
        exact ⟨s', hsorted', hrequeued.priority.trans hpriority⟩
  obtain ⟨s, hsorted, hpriority⟩ := hqueue
  exact ⟨⟨s, .ready, []⟩, rfl, rfl, hsorted.holds, fun q _ => hsorted.wraps q, hpriority⟩

/-- There is a bound exactly if every pass is positive, or nobody else is in the queue. -/
theorem noStarvation_iff (nodes : Finset ι) (priority : ι → BitVec 32) :
    (∃ n, NoStarvation κ nodes priority n) ↔
      (∀ p ∈ nodes, priority p ≤ BIG_STRIDE) ∨ nodes.card ≤ 1 := by
  constructor
  · intro hbound
    by_contra hnot
    rw [not_or] at hnot
    obtain ⟨hpriority, hcard⟩ := hnot
    push Not at hpriority
    obtain ⟨z, hz, hpass⟩ := hpriority
    obtain ⟨j, hj, hne⟩ := Finset.exists_mem_ne (Nat.lt_of_not_le hcard) z
    obtain ⟨r, hstarts⟩ := @exists_starts ι κ _ z nodes priority
    exact not_noStarvation hstarts hz (BitVec.not_le.mp hpass) hj hne hbound
  · rintro (hpass | hcard)
    · refine ⟨window nodes, fun r r' hstarts hrun j hj m hm => ?_⟩
      exact mem_window (inv_of_moves hstarts.inv hrun) hpass hj hm
    · refine ⟨1, fun r r' hstarts hrun j hj m hm => ?_⟩
      have hinv := inv_of_moves hstarts.inv hrun
      have hlt : m < r'.picks.length := by omega
      rw [List.drop_eq_getElem_cons hlt, List.take_succ_cons]
      have hin := hinv.known _ (List.getElem_mem hlt)
      rw [Finset.card_le_one.mp hcard j hj _ hin]
      exact List.mem_cons_self

/-- With priority 0x80000000 the pass is 0. -/
theorem not_noStarvation_two :
    ¬∃ n, NoStarvation Unit {0, 1} (fun p : Nat => if p = 0 then 0x80000000 else 1) n := by
  obtain ⟨r, hstarts⟩ := @exists_starts Nat Unit _ 0 {0, 1} fun p => if p = 0 then 0x80000000 else 1
  exact @not_noStarvation Nat Unit _ _ _ r 1 0 hstarts (by decide) (by decide) (by decide) (by decide)

end Starvation

end Ucore.StrideRounds
