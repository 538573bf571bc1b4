import Mathlib.Data.Finset.Card
import Mathlib.Data.Finset.Lattice.Basic
import Ucore.KernelRoutine

/-!
The skew heaps of `skew_heap.h`. A node is known by the process it is in, and the links
of all nodes are the state.
-/

namespace Ucore.SkewHeap

open Ucore.KernelRoutine

/-- `skew_heap_entry_t` -/
structure Entry (ι : Type) where
  parent : Option ι
  left : Option ι
  right : Option ι

variable {ι : Type} [DecidableEq ι]

section Operations

def setParent (a : ι) (v : Option ι) : Routine (ι → Entry ι) Unit :=
  modifyState fun e => Function.update e a { e a with parent := v }

def setLeft (a : ι) (v : Option ι) : Routine (ι → Entry ι) Unit :=
  modifyState fun e => Function.update e a { e a with left := v }

def setRight (a : ι) (v : Option ι) : Routine (ι → Entry ι) Unit :=
  modifyState fun e => Function.update e a { e a with right := v }

def setParentAt (a : Option ι) (v : Option ι) : Routine (ι → Entry ι) Unit :=
  match a with
  | none => return ()
  | some a => setParent a v

def skewHeapInit (a : ι) : Routine (ι → Entry ι) Unit :=
  modifyState fun e => Function.update e a ⟨none, none, none⟩

/-- What `skew_heap_merge` does at the node `a` after it was called for the right child:
`l` is what it returned, and `r` was the left child. -/
def attach (a : ι) (l r : Option ι) : Routine (ι → Entry ι) Unit := do
  setLeft a l
  setRight a r
  setParentAt l (some a)

/-- `skew_heap_merge`, with a bound on how deep it calls itself. -/
def skewHeapMerge (comp : ι → ι → Int) : Nat → Option ι → Option ι →
    Routine (ι → Entry ι) (Option ι)
  | 0, _, _ => abort .loop
  | _ + 1, none, b => return b
  | _ + 1, some a, none => return some a
  | fuel + 1, some a, some b => do
      let e ← getState
      if comp a b = -1 then
        let l ← skewHeapMerge comp fuel (e a).right (some b)
        attach a l (e a).left
        return some a
      else
        let l ← skewHeapMerge comp fuel (some a) (e b).right
        attach b l (e b).left
        return some b

def skewHeapInsert (comp : ι → ι → Int) (fuel : Nat) (a : Option ι) (b : ι) :
    Routine (ι → Entry ι) (Option ι) := do
  skewHeapInit b
  skewHeapMerge comp fuel a (some b)

def skewHeapRemove (comp : ι → ι → Int) (fuel : Nat) (a : Option ι) (b : ι) :
    Routine (ι → Entry ι) (Option ι) := do
  let e ← getState
  let rep ← skewHeapMerge comp fuel (e b).left (e b).right
  setParentAt rep (e b).parent
  match (e b).parent with
  | some p =>
      let e ← getState
      if (e p).left = some b then setLeft p rep else setRight p rep
      return a
  | none => return rep

end Operations

/-- The links from `root` are a tree of these nodes. What the parent of the root is does not
matter. -/
inductive Heap (e : ι → Entry ι) : Option ι → Finset ι → Prop
  | empty : Heap e none ∅
  | node {a : ι} {left right : Finset ι} : Heap e (e a).left left → Heap e (e a).right right →
      Disjoint left right → a ∉ left ∪ right →
      (∀ c, (e a).left = some c → (e c).parent = some a) →
      (∀ c, (e a).right = some c → (e c).parent = some a) →
      Heap e (some a) (insert a (left ∪ right))

/-- Where a path of left (`false`) and right (`true`) steps leads. -/
def walk (e : ι → Entry ι) : List Bool → Option ι → Option ι
  | [], root => root
  | false :: path, root => walk e path (root.bind fun a => (e a).left)
  | true :: path, root => walk e path (root.bind fun a => (e a).right)

variable {e e' : ι → Entry ι} {root a b l r : Option ι} {nodes left right : Finset ι} {p q : ι}
  {fuel : Nat}

section Trees

theorem Heap.root_mem (h : Heap e (some p) nodes) : p ∈ nodes := by
  cases h with
  | node => exact Finset.mem_insert_self _ _

theorem Heap.congr (h : Heap e root nodes)
    (hlinks : ∀ x ∈ nodes, (e' x).left = (e x).left ∧ (e' x).right = (e x).right)
    (hparent : ∀ x ∈ nodes, root ≠ some x → (e' x).parent = (e x).parent) :
    Heap e' root nodes := by
  induction h with
  | empty => exact .empty
  | @node a left right hleft hright hapart hout hpl hpr ihleft ihright =>
      have hchild : ∀ x ∈ left ∪ right, (e' x).parent = (e x).parent := by
        intro x hx
        refine hparent x (Finset.mem_insert_of_mem hx) ?_
        rintro ⟨⟩
        exact hout hx
      have hinl : ∀ x ∈ left, x ∈ left ∪ right := fun x hx => Finset.mem_union_left _ hx
      have hinr : ∀ x ∈ right, x ∈ left ∪ right := fun x hx => Finset.mem_union_right _ hx
      obtain ⟨hl, hr⟩ := hlinks a (Finset.mem_insert_self _ _)
      have hl' := ihleft (fun x hx => hlinks x (Finset.mem_insert_of_mem (hinl x hx)))
        fun x hx _ => hchild x (hinl x hx)
      have hr' := ihright (fun x hx => hlinks x (Finset.mem_insert_of_mem (hinr x hx)))
        fun x hx _ => hchild x (hinr x hx)
      rw [← hl] at hl'
      rw [← hr] at hr'
      refine .node hl' hr' hapart hout ?_ ?_
      · intro c hc
        rw [hl] at hc
        rw [hchild c (hinl c ?_), hpl c hc]
        rw [hc] at hleft
        exact hleft.root_mem
      · intro c hc
        rw [hr] at hc
        rw [hchild c (hinr c ?_), hpr c hc]
        rw [hc] at hright
        exact hright.root_mem

omit [DecidableEq ι] in
theorem walk_none (path : List Bool) : walk e path none = none := by
  induction path with
  | nil => rfl
  | cons step path ih => cases step with
    | false => exact ih
    | true => exact ih

theorem Heap.mem_of_walk (h : Heap e root nodes) {path : List Bool}
    (hwalk : walk e path root = some p) : p ∈ nodes := by
  induction h generalizing path with
  | empty =>
      rw [walk_none] at hwalk
      cases hwalk
  | node _ _ _ _ _ _ ihleft ihright =>
      cases path with
      | nil =>
          cases hwalk
          exact Finset.mem_insert_self _ _
      | cons step path =>
          apply Finset.mem_insert_of_mem
          cases step with
          | false => exact Finset.mem_union_left _ (ihleft hwalk)
          | true => exact Finset.mem_union_right _ (ihright hwalk)

/-- The nodes are what paths from the root lead to. -/
theorem Heap.mem_iff (h : Heap e root nodes) :
    p ∈ nodes ↔ ∃ path, walk e path root = some p := by
  constructor
  · intro hp
    induction h with
    | empty => exact absurd hp (Finset.notMem_empty _)
    | node _ _ _ _ _ _ ihleft ihright =>
        rcases Finset.mem_insert.mp hp with rfl | hbelow
        · exact ⟨[], rfl⟩
        · rcases Finset.mem_union.mp hbelow with hin | hin
          · obtain ⟨path, hwalk⟩ := ihleft hin
            exact ⟨false :: path, hwalk⟩
          · obtain ⟨path, hwalk⟩ := ihright hin
            exact ⟨true :: path, hwalk⟩
  · rintro ⟨path, hwalk⟩
    exact h.mem_of_walk hwalk

/-- No two paths lead to one node. -/
theorem Heap.path_unique (h : Heap e root nodes) {path path' : List Bool}
    (hwalk : walk e path root = some p) (hwalk' : walk e path' root = some p) : path' = path := by
  induction h generalizing path path' with
  | empty =>
      rw [walk_none] at hwalk
      cases hwalk
  | @node a left right hleft hright hapart hout _ _ ihleft ihright =>
      have hbelow : ∀ {step tail}, walk e (step :: tail) (some a) = some p → p ∈ left ∪ right := by
        intro step tail hgoes
        cases step with
        | false => exact Finset.mem_union_left _ (hleft.mem_of_walk hgoes)
        | true => exact Finset.mem_union_right _ (hright.mem_of_walk hgoes)
      cases path with
      | nil =>
          cases hwalk
          cases path' with
          | nil => rfl
          | cons step tail => exact absurd (hbelow hwalk') hout
      | cons step tail =>
          have hp := hbelow hwalk
          cases path' with
          | nil =>
              cases hwalk'
              exact absurd hp hout
          | cons step' tail' =>
              cases step with
              | false =>
                  cases step' with
                  | false => rw [ihleft hwalk hwalk']
                  | true =>
                      exact absurd (hright.mem_of_walk hwalk')
                        (Finset.disjoint_left.mp hapart (hleft.mem_of_walk hwalk))
              | true =>
                  cases step' with
                  | false =>
                      exact absurd (hright.mem_of_walk hwalk)
                        (Finset.disjoint_left.mp hapart (hleft.mem_of_walk hwalk'))
                  | true => rw [ihright hwalk hwalk']

end Trees

section Merging

/-- Two heaps are put below a node. -/
theorem attach_of {a : ι} (hl : Heap e l left) (hr : Heap e r right) (hapart : Disjoint left right)
    (hout : a ∉ left ∪ right) (hparent : ∀ c, r = some c → (e c).parent = some a) :
    ∃ e', attach a l r e = .ok (.ok (), e') ∧ Heap e' (some a) (insert a (left ∪ right)) ∧
      (∀ x ∉ insert a (left ∪ right), e' x = e x) ∧ (e' a).parent = (e a).parent := by
  let e₁ : ι → Entry ι := Function.update e a ⟨(e a).parent, l, r⟩
  have hfirst : attach a l r e = setParentAt l (some a) e₁ := by
    rw [attach, setLeft, modifyState_bind, setRight, modifyState_bind]
    simp only [Function.update_self, Function.update_idem]
    rfl
  have hothers : ∀ x, x ≠ a → e₁ x = e x := fun x hx => Function.update_of_ne hx _ _
  have hself : e₁ a = ⟨(e a).parent, l, r⟩ := Function.update_self _ _ _
  have hne : ∀ x ∈ left ∪ right, x ≠ a := by
    rintro x hx rfl
    exact hout hx
  rw [hfirst]
  cases l with
  | none =>
      have hnone : left = ∅ := by
        cases hl
        rfl
      subst hnone
      refine ⟨e₁, rfl, ?_, ?_, by rw [hself]⟩
      · have hr₁ : Heap e₁ r right := hr.congr
          (fun x hx => by rw [hothers x (hne x (Finset.mem_union_right _ hx))]; exact ⟨rfl, rfl⟩)
          fun x hx _ => by rw [hothers x (hne x (Finset.mem_union_right _ hx))]
        refine .node ?_ ?_ hapart hout ?_ ?_
        · rw [hself]
          exact .empty
        · rwa [hself]
        · rw [hself]
          exact nofun
        · rw [hself]
          intro c hc
          subst hc
          rw [hothers c (hne c (Finset.mem_union_right _ hr.root_mem))]
          exact hparent c rfl
      · intro x hx
        refine hothers x ?_
        rintro rfl
        exact hx (Finset.mem_insert_self _ _)
  | some c =>
      let e₂ : ι → Entry ι := Function.update e₁ c { e₁ c with parent := some a }
      have hc : c ∈ left := hl.root_mem
      have hca : c ≠ a := hne c (Finset.mem_union_left _ hc)
      have hnotright : ∀ x ∈ right, x ≠ c := by
        rintro x hx rfl
        exact Finset.disjoint_left.mp hapart hc hx
      have hat : e₂ c = ⟨some a, (e c).left, (e c).right⟩ := by
        show Function.update e₁ c _ c = _
        rw [Function.update_self, hothers c hca]
      have hrest : ∀ x, x ≠ a → x ≠ c → e₂ x = e x := by
        intro x hxa hxc
        show Function.update e₁ c _ x = e x
        rw [Function.update_of_ne hxc, hothers x hxa]
      have hnode : e₂ a = ⟨(e a).parent, some c, r⟩ := by
        show Function.update e₁ c _ a = _
        rw [Function.update_of_ne hca.symm, hself]
      have hl₂ : Heap e₂ (some c) left := by
        refine hl.congr ?_ ?_
        · intro x hx
          rcases eq_or_ne x c with rfl | hxc
          · rw [hat]
            exact ⟨rfl, rfl⟩
          · rw [hrest x (hne x (Finset.mem_union_left _ hx)) hxc]
            exact ⟨rfl, rfl⟩
        · intro x hx hroot
          rw [hrest x (hne x (Finset.mem_union_left _ hx)) fun hxc => hroot (by rw [hxc])]
      have hright : ∀ x ∈ right, e₂ x = e x := fun x hx =>
        hrest x (hne x (Finset.mem_union_right _ hx)) (hnotright x hx)
      have hr₂ : Heap e₂ r right := hr.congr
        (fun x hx => by rw [hright x hx]; exact ⟨rfl, rfl⟩) fun x hx _ => by rw [hright x hx]
      refine ⟨e₂, rfl, ?_, ?_, by rw [hnode]⟩
      · refine .node ?_ ?_ hapart hout ?_ ?_
        · rwa [hnode]
        · rwa [hnode]
        · rw [hnode]
          rintro _ ⟨⟩
          rw [hat]
        · rw [hnode]
          intro d hd
          subst hd
          rw [hright d hr.root_mem]
          exact hparent d rfl
      · intro x hx
        refine hrest x ?_ ?_
        · rintro rfl
          exact hx (Finset.mem_insert_self _ _)
        · rintro rfl
          exact hx (Finset.mem_insert_of_mem (Finset.mem_union_left _ hc))

/-- What `skew_heap_merge` leaves. -/
structure Merged (e : ι → Entry ι) (a b : Option ι) (nodes : Finset ι) (root : Option ι)
    (e' : ι → Entry ι) : Prop where
  heap : Heap e' root nodes
  others : ∀ x ∉ nodes, e' x = e x
  root : ∀ c, root = some c → (a = some c ∨ b = some c) ∧ (e' c).parent = (e c).parent

/-- The merge at the node that comes first, after the other nodes were merged. -/
theorem merged_attach {a : ι} {x y : Option ι} {other : Finset ι} {e₁ : ι → Entry ι}
    (hleft : Heap e (e a).left left) (hout : a ∉ left ∪ right)
    (hpl : ∀ c, (e a).left = some c → (e c).parent = some a) (hapart : Disjoint left right)
    (hother : Disjoint (insert a (left ∪ right)) other)
    (hrec : Merged e x y (right ∪ other) l e₁) :
    ∃ e', attach a l (e a).left e₁ = .ok (.ok (), e') ∧
      Heap e' (some a) (insert a (left ∪ right) ∪ other) ∧
      (∀ x ∉ insert a (left ∪ right) ∪ other, e' x = e x) ∧ (e' a).parent = (e a).parent := by
  have hleftOther : ∀ x ∈ left, x ∉ right ∪ other := by
    intro x hx hin
    rcases Finset.mem_union.mp hin with hright | hin
    · exact Finset.disjoint_left.mp hapart hx hright
    · exact Finset.disjoint_left.mp hother
        (Finset.mem_insert_of_mem (Finset.mem_union_left _ hx)) hin
  have haOther : a ∉ right ∪ other := by
    intro hin
    rcases Finset.mem_union.mp hin with hright | hin
    · exact hout (Finset.mem_union_right _ hright)
    · exact Finset.disjoint_left.mp hother (Finset.mem_insert_self _ _) hin
  have hsame : ∀ x ∈ left, e₁ x = e x := fun x hx => hrec.others x (hleftOther x hx)
  have hleft₁ : Heap e₁ (e a).left left := hleft.congr
    (fun x hx => by rw [hsame x hx]; exact ⟨rfl, rfl⟩) fun x hx _ => by rw [hsame x hx]
  have hparent : ∀ c, (e a).left = some c → (e₁ c).parent = some a := by
    intro c hc
    rw [hc] at hleft
    rw [hsame c hleft.root_mem, hpl c hc]
  have hnotIn : a ∉ (right ∪ other) ∪ left := by
    intro hin
    rcases Finset.mem_union.mp hin with hin | hin
    · exact haOther hin
    · exact hout (Finset.mem_union_left _ hin)
  obtain ⟨e', hrun, hheap, hothers, hroot⟩ := attach_of hrec.heap hleft₁
    (Finset.disjoint_right.mpr hleftOther) hnotIn hparent
  have hnodes : insert a ((right ∪ other) ∪ left) = insert a (left ∪ right) ∪ other := by
    rw [Finset.insert_union, Finset.union_comm (right ∪ other) left, Finset.union_assoc]
  rw [hnodes] at hheap hothers
  refine ⟨e', hrun, hheap, ?_, ?_⟩
  · intro x hx
    rw [hothers x hx, hrec.others x]
    intro hin
    refine hx ?_
    rcases Finset.mem_union.mp hin with hright | hin
    · exact Finset.mem_union_left _ (Finset.mem_insert_of_mem (Finset.mem_union_right _ hright))
    · exact Finset.mem_union_right _ hin
  · rw [hroot, hrec.others a haOther]

theorem card_node {a : ι} (hout : a ∉ left ∪ right) :
    right.card < (insert a (left ∪ right)).card := by
  rw [Finset.card_insert_of_notMem hout]
  exact Nat.lt_succ_of_le (Finset.card_le_card Finset.subset_union_right)

theorem skewHeapMerge_of (comp : ι → ι → Int) (ha : Heap e a left) (hb : Heap e b right)
    (hapart : Disjoint left right) (hfuel : left.card + right.card < fuel) :
    ∃ root e', skewHeapMerge comp fuel a b e = .ok (.ok root, e') ∧
      Merged e a b (left ∪ right) root e' := by
  induction fuel generalizing e a b left right with
  | zero => omega
  | succ fuel ih =>
  cases a with
  | none =>
      cases ha
      refine ⟨b, e, rfl, ?_, fun _ _ => rfl, fun c hc => ⟨Or.inr hc, rfl⟩⟩
      rwa [Finset.empty_union]
  | some a =>
  cases b with
  | none =>
      cases hb
      refine ⟨some a, e, rfl, ?_, fun _ _ => rfl, fun c hc => ⟨Or.inl hc, rfl⟩⟩
      rwa [Finset.union_empty]
  | some b =>
  have ha' := ha
  have hb' := hb
  cases ha' with
  | @node _ la ra hla hra hapartA houtA hplA _ =>
  cases hb' with
  | @node _ lb rb hlb hrb hapartB houtB hplB _ =>
  rw [skewHeapMerge, getState_bind]
  have hcardA := card_node houtA
  have hcardB := card_node houtB
  split
  · have hrest : Disjoint ra (insert b (lb ∪ rb)) :=
      Finset.disjoint_of_subset_left (fun x hx => Finset.mem_insert_of_mem
        (Finset.mem_union_right _ hx)) hapart
    obtain ⟨l, e₁, hrun, hmerged⟩ := ih hra hb hrest (by omega)
    obtain ⟨e', hattach, hheap, hothers, hroot⟩ :=
      merged_attach hla houtA hplA hapartA hapart hmerged
    refine ⟨some a, e', ?_, hheap, hothers, ?_⟩
    · rw [bind_of_ok hrun, bind_of_ok hattach]
      rfl
    · rintro _ ⟨⟩
      exact ⟨Or.inl rfl, hroot⟩
  · have hrest : Disjoint (insert a (la ∪ ra)) rb :=
      Finset.disjoint_of_subset_right (fun x hx => Finset.mem_insert_of_mem
        (Finset.mem_union_right _ hx)) hapart
    obtain ⟨l, e₁, hrun, hmerged⟩ := ih ha hrb hrest (by omega)
    rw [Finset.union_comm] at hmerged
    obtain ⟨e', hattach, hheap, hothers, hroot⟩ :=
      merged_attach hlb houtB hplB hapartB hapart.symm hmerged
    rw [Finset.union_comm] at hheap hothers
    refine ⟨some b, e', ?_, hheap, hothers, ?_⟩
    · rw [bind_of_ok hrun, bind_of_ok hattach]
      rfl
    · rintro _ ⟨⟩
      exact ⟨Or.inr rfl, hroot⟩

/-- A heap as it is in a queue: its root has no parent. -/
structure Rooted (e : ι → Entry ι) (root : Option ι) (nodes : Finset ι) : Prop where
  heap : Heap e root nodes
  top : ∀ c, root = some c → (e c).parent = none

theorem skewHeapInsert_of (comp : ι → ι → Int) (h : Rooted e root nodes) (hp : p ∉ nodes)
    (hfuel : nodes.card + 1 < fuel) :
    ∃ root' e', skewHeapInsert comp fuel root p e = .ok (.ok root', e') ∧
      Rooted e' root' (insert p nodes) := by
  let e₁ : ι → Entry ι := Function.update e p ⟨none, none, none⟩
  have hself : e₁ p = ⟨none, none, none⟩ := Function.update_self _ _ _
  have hothers : ∀ x ∈ nodes, e₁ x = e x := by
    intro x hx
    refine Function.update_of_ne ?_ _ _
    rintro rfl
    exact hp hx
  have hold : Heap e₁ root nodes := h.heap.congr
    (fun x hx => by rw [hothers x hx]; exact ⟨rfl, rfl⟩) fun x hx _ => by rw [hothers x hx]
  have hnew : Heap e₁ (some p) {p} := by
    have hnode : Heap e₁ (some p) (insert p (∅ ∪ ∅)) := by
      refine .node ?_ ?_ (Finset.disjoint_empty_left _) (by simp) ?_ ?_
      · rw [hself]
        exact .empty
      · rw [hself]
        exact .empty
      · rw [hself]
        exact nofun
      · rw [hself]
        exact nofun
    simpa using hnode
  obtain ⟨root', e', hrun, hmerged⟩ := skewHeapMerge_of comp hold hnew
    (Finset.disjoint_singleton_right.mpr hp) (by rwa [Finset.card_singleton])
  refine ⟨root', e', ?_, ?_, ?_⟩
  · rw [skewHeapInsert, skewHeapInit, modifyState_bind]
    exact hrun
  · rw [Finset.insert_eq, Finset.union_comm]
    exact hmerged.heap
  · intro c hc
    obtain ⟨hwas, hparent⟩ := hmerged.root c hc
    rw [hparent]
    rcases hwas with hroot | hroot
    · rw [hothers c]
      · exact h.top c hroot
      · rw [hroot] at hold
        exact hold.root_mem
    · cases hroot
      rw [hself]

/-- The root is removed. -/
theorem skewHeapRemove_of (comp : ι → ι → Int) (h : Rooted e (some p) nodes)
    (hfuel : nodes.card < fuel) :
    ∃ root' e', skewHeapRemove comp fuel (some p) p e = .ok (.ok root', e') ∧
      Rooted e' root' (nodes.erase p) := by
  have htop := h.top p rfl
  have hheap := h.heap
  cases hheap with
  | @node _ left right hleft hright hapart hout hpl hpr =>
  have hcard := Finset.card_insert_of_notMem hout
  rw [Finset.card_union_of_disjoint hapart] at hcard
  obtain ⟨rep, e₁, hrun, hmerged⟩ := skewHeapMerge_of comp hleft hright hapart
    (by omega : left.card + right.card < fuel)
  rw [Finset.erase_insert hout]
  have hremove : skewHeapRemove comp fuel (some p) p e =
      (setParentAt rep none >>= fun _ => pure rep) e₁ := by
    rw [skewHeapRemove, getState_bind, bind_of_ok hrun, htop]
  cases rep with
  | none =>
      exact ⟨none, e₁, hremove, hmerged.heap, nofun⟩
  | some c =>
      let e₂ : ι → Entry ι := Function.update e₁ c { e₁ c with parent := none }
      refine ⟨some c, e₂, hremove, ?_, ?_⟩
      · refine hmerged.heap.congr ?_ ?_
        · intro x _
          rcases eq_or_ne x c with rfl | hne
          · show (Function.update e₁ x _ x).left = _ ∧ (Function.update e₁ x _ x).right = _
            rw [Function.update_self]
            exact ⟨rfl, rfl⟩
          · show (Function.update e₁ c _ x).left = _ ∧ (Function.update e₁ c _ x).right = _
            rw [Function.update_of_ne hne]
            exact ⟨rfl, rfl⟩
        · intro x _ hroot
          show (Function.update e₁ c _ x).parent = _
          rw [Function.update_of_ne]
          rintro rfl
          exact hroot rfl
      · rintro _ ⟨⟩
        show (Function.update e₁ c _ c).parent = none
        rw [Function.update_self]

end Merging

end Ucore.SkewHeap
