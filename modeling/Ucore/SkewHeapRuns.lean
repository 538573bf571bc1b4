import Ucore.SkewHeapOrder

/-! Sequences of insertions into a skew heap and removals from it. -/

namespace Ucore.SkewHeapRuns

open Ucore.KernelRoutine
open Ucore.SkewHeap
open Ucore.SkewHeapOrder

/-- The links of all nodes, their keys, and the root that the last operation returned. -/
structure Keyed (ι K : Type) where
  entry : ι → Entry ι
  key : ι → K
  root : Option ι

/-- A node is inserted with a key, or its key is changed and the node is removed. -/
inductive Op (ι K : Type) where
  | insert (b : ι) (key : K)
  | remove (b : ι) (key : K)

variable {ι K : Type} [DecidableEq ι]

section Operations

def setKey (b : ι) (key : K) : Routine (Keyed ι K) Unit :=
  modifyState fun s => { s with key := Function.update s.key b key }

/-- A `compare_f` finds the keys in the structures that the nodes are in. -/
def compareNodes (compare : K → K → Int) (key : ι → K) (a b : ι) : Int :=
  compare (key a) (key b)

/-- An operation on the links of the nodes, which returns the new root. -/
def onRoot (x : Keyed ι K → Routine (ι → Entry ι) (Option ι)) : Routine (Keyed ι K) Unit := do
  let s ← getState
  let root ← onPart Keyed.entry (fun entry s => { s with entry := entry }) (x s)
  modifyState fun s => { s with root := root }

def perform (compare : K → K → Int) (fuel : Nat) : Op ι K → Routine (Keyed ι K) Unit
  | .insert b key => do
      setKey b key
      onRoot fun s => skewHeapInsert (compareNodes compare s.key) fuel s.root b
  | .remove b key => do
      setKey b key
      onRoot fun s => skewHeapRemove (compareNodes compare s.key) fuel s.root b

def performAll (compare : K → K → Int) (fuel : Nat) : List (Op ι K) → Routine (Keyed ι K) Unit
  | [] => return ()
  | op :: ops => do
      perform compare fuel op
      performAll compare fuel ops

/-- The nodes that are inserted and not removed. -/
def held (nodes : Finset ι) : Op ι K → Finset ι
  | .insert b _ => insert b nodes
  | .remove b _ => nodes.erase b

/-- A node that is in the heap is not inserted, and only such a node is removed. -/
def Allowed (nodes : Finset ι) : Op ι K → Prop
  | .insert b _ => b ∉ nodes
  | .remove b _ => b ∈ nodes

def AllAllowed (nodes : Finset ι) : List (Op ι K) → Prop
  | [] => True
  | op :: ops => Allowed nodes op ∧ AllAllowed (held nodes op) ops

end Operations

/-- The comparison is one of a total preorder, and it returns -1, 0 or 1. -/
structure TotalPreorder (compare : K → K → Int) : Prop where
  values : ∀ a b, compare a b = -1 ∨ compare a b = 0 ∨ compare a b = 1
  swap : ∀ a b, compare b a = -compare a b
  trans : ∀ a b c, compare a b ≤ 0 → compare b c ≤ 0 → compare a c ≤ 0

/-- The heap holds these nodes, each one once, its links fit together, and no node comes
before its parent. -/
structure HeapOk (compare : K → K → Int) (s : Keyed ι K) (nodes : Finset ι) : Prop where
  node : ∀ p, p ∈ nodes ↔ ∃ path, walk s.entry path s.root = some p
  once : ∀ p path path', walk s.entry path s.root = some p → walk s.entry path' s.root = some p →
    path' = path
  top : ∀ r, s.root = some r → (s.entry r).parent = none
  parents : ∀ p ∈ nodes, ∀ c, Child s.entry p c → (s.entry c).parent = some p
  order : ∀ p ∈ nodes, ∀ c, Child s.entry p c → compare (s.key p) (s.key c) ≤ 0
  minimum : ∀ r, s.root = some r → ∀ p ∈ nodes, compare (s.key r) (s.key p) ≤ 0

section Runs

variable {compare : K → K → Int} {s s' : Keyed ι K} {nodes : Finset ι} {fuel : Nat}

omit [DecidableEq ι] in
theorem TotalPreorder.refl (h : TotalPreorder compare) (a : K) : compare a a ≤ 0 := by
  have hswap := h.swap a a
  omega

omit [DecidableEq ι] in
theorem respects_compareNodes (h : TotalPreorder compare) (key : ι → K) (nodes : Finset ι) :
    Respects (compareNodes compare key) (fun x y => compare (key x) (key y) ≤ 0) nodes := by
  intro x _ y _
  refine ⟨fun heq => ?_, fun hne => ?_⟩
  · show compare (key x) (key y) ≤ 0
    rw [show compare (key x) (key y) = -1 from heq]
    decide
  · have hvalues := h.values (key x) (key y)
    have hswap := h.swap (key x) (key y)
    change compare (key x) (key y) ≠ -1 at hne
    show compare (key y) (key x) ≤ 0
    omega

/-- What every operation keeps. -/
structure Inv (compare : K → K → Int) (s : Keyed ι K) (nodes : Finset ι) : Prop where
  rooted : Rooted s.entry s.root nodes
  ordered : Ordered (fun x y => compare (s.key x) (s.key y) ≤ 0) s.entry nodes

theorem Inv.heapOk (hcompare : TotalPreorder compare) (h : Inv compare s nodes) :
    HeapOk compare s nodes where
  node p := h.rooted.heap.mem_iff
  once p path path' := h.rooted.heap.path_unique
  top := h.rooted.top
  parents p hp c hchild := Heap.parent_of_child h.rooted.heap hp hchild
  order := h.ordered
  minimum r hr p hp := by
    have hle := @Heap.root_le ι s.entry s.root p r _ nodes
      (fun x y => compare (s.key x) (s.key y) ≤ 0) h.rooted.heap h.ordered
    exact hle (fun x => hcompare.refl (s.key x))
      (fun x y z => hcompare.trans (s.key x) (s.key y) (s.key z)) hr hp

/-- The keys of other nodes are the same after a change of one key. -/
theorem key_of_ne {b x : ι} (key : ι → K) (v : K) (hx : x ≠ b) :
    Function.update key b v x = key x :=
  Function.update_of_ne hx _ _

omit [DecidableEq ι] in
theorem onRoot_of {x : Keyed ι K → Routine (ι → Entry ι) (Option ι)} {root : Option ι}
    {e : ι → Entry ι} (hrun : x s s.entry = .ok (.ok root, e)) :
    onRoot x s = .ok (.ok (), { s with entry := e, root := root }) := by
  have hpart : onPart Keyed.entry (fun entry s => { s with entry := entry }) (x s) s =
      .ok (.ok root, { s with entry := e }) := onPart_of hrun
  rw [onRoot, getState_bind, bind_of_ok hpart]
  rfl

theorem inv_perform (hcompare : TotalPreorder compare) (h : Inv compare s nodes) {op : Op ι K}
    (hallowed : Allowed nodes op) (hfuel : nodes.card + 1 < fuel) :
    ∃ s', perform compare fuel op s = .ok (.ok (), s') ∧ Inv compare s' (held nodes op) := by
  cases op with
  | insert b v =>
      let key := Function.update s.key b v
      obtain ⟨root, e, hrun, hrooted⟩ :=
        skewHeapInsert_of (compareNodes compare key) h.rooted hallowed hfuel
      have hordered : Ordered (fun x y => compare (key x) (key y) ≤ 0) s.entry nodes := by
        intro x hx c hchild
        have hx' : x ≠ b := fun heq => hallowed (heq ▸ hx)
        have hc' : c ≠ b := fun heq => hallowed (heq ▸ Heap.child_mem h.rooted.heap hx hchild)
        show compare (Function.update s.key b v x) (Function.update s.key b v c) ≤ 0
        rw [key_of_ne s.key v hx', key_of_ne s.key v hc']
        exact h.ordered x hx c hchild
      refine ⟨{ entry := e, key := key, root := root }, ?_, hrooted, ?_⟩
      · rw [perform, setKey, modifyState_bind]
        exact onRoot_of hrun
      · exact skewHeapInsert_ordered h.rooted hallowed hfuel
          (respects_compareNodes hcompare key _) hordered hrun
  | remove b v =>
      let key := Function.update s.key b v
      obtain ⟨root, e, hrun, hrooted, hkeeps⟩ :=
        skewHeapRemove_mem (compareNodes compare key) h.rooted hallowed (by omega : _ < fuel)
      have hrespects : Respects (compareNodes compare key)
          (fun x y => compare (s.key x) (s.key y) ≤ 0) (nodes.erase b) := by
        intro x hx y hy
        have hkeys := respects_compareNodes hcompare s.key _ x hx y hy
        have hx' := key_of_ne s.key v (Finset.ne_of_mem_erase hx)
        have hy' := key_of_ne s.key v (Finset.ne_of_mem_erase hy)
        simp only [compareNodes] at hkeys ⊢
        show (compare (Function.update s.key b v x) (Function.update s.key b v y) = -1 → _) ∧
          (compare (Function.update s.key b v x) (Function.update s.key b v y) ≠ -1 → _)
        rwa [hx', hy']
      have hordered := hkeeps _ (fun x y z => hcompare.trans (s.key x) (s.key y) (s.key z))
        hrespects h.ordered
      refine ⟨{ entry := e, key := key, root := root }, ?_, hrooted, ?_⟩
      · rw [perform, setKey, modifyState_bind]
        exact onRoot_of hrun
      · intro x hx c hchild
        have hc := Heap.child_mem hrooted.heap hx hchild
        show compare (Function.update s.key b v x) (Function.update s.key b v c) ≤ 0
        rw [key_of_ne s.key v (Finset.ne_of_mem_erase hx),
          key_of_ne s.key v (Finset.ne_of_mem_erase hc)]
        exact hordered x hx c hchild

theorem card_held (op : Op ι K) : (held nodes op).card ≤ nodes.card + 1 := by
  cases op with
  | insert b _ => exact Finset.card_insert_le b nodes
  | remove b _ => exact (Finset.card_erase_le).trans (Nat.le_succ _)

theorem inv_performAll (hcompare : TotalPreorder compare) {ops : List (Op ι K)}
    (h : Inv compare s nodes) (hallowed : AllAllowed nodes ops)
    (hfuel : nodes.card + ops.length < fuel) :
    ∃ s', performAll compare fuel ops s = .ok (.ok (), s') ∧
      Inv compare s' (ops.foldl held nodes) := by
  induction ops generalizing s nodes with
  | nil => exact ⟨s, rfl, h⟩
  | cons op ops ih =>
      have hlength : (op :: ops).length = ops.length + 1 := rfl
      obtain ⟨t, hrun, ht⟩ := inv_perform hcompare h hallowed.1 (by omega : _ < fuel)
      have hcard := @card_held ι K _ nodes op
      obtain ⟨s', hrest, hs'⟩ := ih ht hallowed.2 (by omega)
      refine ⟨s', ?_, hs'⟩
      rw [performAll, bind_of_ok hrun]
      exact hrest

/-- However many operations there were since the heap was empty, and whatever the links of
the nodes were then. -/
theorem heapOk_of_performAll (hcompare : TotalPreorder compare) (hempty : s.root = none)
    (ops : List (Op ι K)) (hallowed : AllAllowed ∅ ops) (hfuel : ops.length < fuel) :
    ∃ s', performAll compare fuel ops s = .ok (.ok (), s') ∧
      HeapOk compare s' (ops.foldl held ∅) := by
  have hstart : Inv compare s ∅ := by
    refine ⟨⟨?_, ?_⟩, fun x hx => absurd hx (Finset.notMem_empty _)⟩
    · rw [hempty]
      exact .empty
    · rw [hempty]
      exact nofun
  obtain ⟨s', hrun, hinv⟩ := inv_performAll hcompare hstart hallowed (by simpa using hfuel)
  exact ⟨s', hrun, hinv.heapOk hcompare⟩

def compareNat (a b : Nat) : Int :=
  if a < b then -1 else if a = b then 0 else 1

/-- A node below the root is removed after its key became the least. -/
theorem heapOk_of_performAll_remove :
    ∃ s', performAll compareNat 5 [.insert 0 4, .insert 1 2, .insert 2 6, .remove 2 0]
        { entry := fun _ => ⟨some 7, some 7, some 7⟩, key := fun _ => 0, root := none } =
          .ok (.ok (), s') ∧
      HeapOk compareNat s' {0, 1} := by
  have hcompare : TotalPreorder compareNat := by
    refine ⟨fun a b => ?_, fun a b => ?_, fun a b c hab hbc => ?_⟩
    · grind [compareNat]
    · grind [compareNat]
    · grind [compareNat]
  have hrun := @heapOk_of_performAll Nat Nat _ compareNat
    { entry := fun _ => ⟨some 7, some 7, some 7⟩, key := fun _ => 0, root := none } 5 hcompare rfl
    [.insert 0 4, .insert 1 2, .insert 2 6, .remove 2 0]
    (by simp [AllAllowed, Allowed, held]) (by decide)
  have hheld : [Op.insert 0 4, .insert 1 2, .insert 2 6, .remove 2 0].foldl held ∅ =
      ({0, 1} : Finset Nat) := by decide
  rwa [hheld] at hrun

end Runs

end Ucore.SkewHeapRuns
