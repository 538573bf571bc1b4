import Ucore.SkewHeap

/-! The order of the nodes of a skew heap, and the removal of any of them. -/

namespace Ucore.SkewHeapOrder

open Ucore.Panic
open Ucore.KernelRoutine
open Ucore.SkewHeap

variable {ι : Type} {e e' : ι → Entry ι} {root l r rep : Option ι} {p q a c : ι}

def Child (e : ι → Entry ι) (x c : ι) : Prop :=
  (e x).left = some c ∨ (e x).right = some c

/-- No node comes after its children. -/
def Ordered (le : ι → ι → Prop) (e : ι → Entry ι) (nodes : Finset ι) : Prop :=
  ∀ x ∈ nodes, ∀ c, Child e x c → le x c

/-- The comparison agrees with the order on these nodes. -/
def Respects (comp : ι → ι → Int) (le : ι → ι → Prop) (nodes : Finset ι) : Prop :=
  ∀ x ∈ nodes, ∀ y ∈ nodes, (comp x y = -1 → le x y) ∧ (comp x y ≠ -1 → le y x)

theorem Respects.mono {comp : ι → ι → Int} {le : ι → ι → Prop} {nodes nodes' : Finset ι}
    (h : Respects comp le nodes) (hsub : nodes' ⊆ nodes) : Respects comp le nodes' :=
  fun x hx y hy => h x (hsub hx) y (hsub hy)

variable [DecidableEq ι] {nodes below left right other : Finset ι} {fuel : Nat}
  {comp : ι → ι → Int} {le : ι → ι → Prop}

section Trees

theorem Heap.child_mem (h : Heap e root nodes) (hp : p ∈ nodes) (hchild : Child e p c) :
    c ∈ nodes := by
  obtain ⟨path, hwalk⟩ := h.mem_iff.mp hp
  have hgoes : ∀ (path : List Bool) (root : Option ι), walk e path root = some p →
      ∃ path', walk e path' root = some c := by
    intro path
    induction path with
    | nil =>
        rintro _ rfl
        rcases hchild with hleft | hright
        · exact ⟨[false], hleft⟩
        · exact ⟨[true], hright⟩
    | cons step path ih =>
        intro root hroot
        cases step with
        | false =>
            obtain ⟨path', hwalk'⟩ := ih _ hroot
            exact ⟨false :: path', hwalk'⟩
        | true =>
            obtain ⟨path', hwalk'⟩ := ih _ hroot
            exact ⟨true :: path', hwalk'⟩
  exact h.mem_iff.mpr (hgoes path root hwalk)

theorem Heap.nodes_unique (h : Heap e root nodes) (h' : Heap e root below) : below = nodes := by
  ext x
  rw [h.mem_iff, h'.mem_iff]

/-- Every node is the root of a heap of its own. -/
theorem Heap.at_mem (h : Heap e root nodes) (hp : p ∈ nodes) :
    ∃ below, Heap e (some p) below ∧ below ⊆ nodes := by
  induction h with
  | empty => exact absurd hp (Finset.notMem_empty _)
  | node hleft hright hapart hout hpl hpr ihleft ihright =>
      rcases Finset.mem_insert.mp hp with rfl | hin
      · exact ⟨_, .node hleft hright hapart hout hpl hpr, Finset.Subset.refl _⟩
      · rcases Finset.mem_union.mp hin with hin | hin
        · obtain ⟨below, hbelow, hsub⟩ := ihleft hin
          refine ⟨below, hbelow, fun x hx => ?_⟩
          exact Finset.mem_insert_of_mem (Finset.mem_union_left _ (hsub hx))
        · obtain ⟨below, hbelow, hsub⟩ := ihright hin
          refine ⟨below, hbelow, fun x hx => ?_⟩
          exact Finset.mem_insert_of_mem (Finset.mem_union_right _ (hsub hx))

theorem Heap.subset_of_mem (h : Heap e root nodes) (hp : p ∈ nodes)
    (hbelow : Heap e (some p) below) : below ⊆ nodes := by
  obtain ⟨below', hbelow', hsub⟩ := Heap.at_mem h hp
  rw [Heap.nodes_unique hbelow' hbelow]
  exact hsub

/-- The root is nobody's child. -/
theorem Heap.root_not_child (h : Heap e (some p) nodes) (hq : q ∈ nodes) : ¬Child e q p := by
  intro hchild
  cases h with
  | node hleft hright _ hout =>
      rcases Finset.mem_insert.mp hq with rfl | hin
      · rcases hchild with hroot | hroot
        · rw [hroot] at hleft
          exact hout (Finset.mem_union_left _ hleft.root_mem)
        · rw [hroot] at hright
          exact hout (Finset.mem_union_right _ hright.root_mem)
      · rcases Finset.mem_union.mp hin with hin | hin
        · exact hout (Finset.mem_union_left _ (Heap.child_mem hleft hin hchild))
        · exact hout (Finset.mem_union_right _ (Heap.child_mem hright hin hchild))

theorem Heap.parent_of_child (h : Heap e root nodes) (hq : q ∈ nodes) (hchild : Child e q c) :
    (e c).parent = some q := by
  induction h with
  | empty => exact absurd hq (Finset.notMem_empty _)
  | node _ _ _ _ hpl hpr ihleft ihright =>
      rcases Finset.mem_insert.mp hq with rfl | hin
      · rcases hchild with hleft | hright
        · exact hpl c hleft
        · exact hpr c hright
      · rcases Finset.mem_union.mp hin with hin | hin
        · exact ihleft hin
        · exact ihright hin

/-- Every node but the root is the child of a node. -/
theorem Heap.child_of_mem (h : Heap e root nodes) (hp : p ∈ nodes) (hroot : root ≠ some p) :
    ∃ q ∈ nodes, Child e q p := by
  induction h with
  | empty => exact absurd hp (Finset.notMem_empty _)
  | @node a left right hleft hright _ _ _ _ ihleft ihright =>
      rcases Finset.mem_insert.mp hp with rfl | hin
      · exact absurd rfl hroot
      · rcases Finset.mem_union.mp hin with hin | hin
        · rcases eq_or_ne (e a).left (some p) with heq | hne
          · exact ⟨a, Finset.mem_insert_self _ _, Or.inl heq⟩
          · obtain ⟨q, hq, hchild⟩ := ihleft hin hne
            exact ⟨q, Finset.mem_insert_of_mem (Finset.mem_union_left _ hq), hchild⟩
        · rcases eq_or_ne (e a).right (some p) with heq | hne
          · exact ⟨a, Finset.mem_insert_self _ _, Or.inr heq⟩
          · obtain ⟨q, hq, hchild⟩ := ihright hin hne
            exact ⟨q, Finset.mem_insert_of_mem (Finset.mem_union_right _ hq), hchild⟩

/-- The root comes first. -/
theorem Heap.root_le (h : Heap e root nodes) (hordered : Ordered le e nodes)
    (hrefl : ∀ x, le x x) (htrans : ∀ x y z, le x y → le y z → le x z)
    (hroot : root = some a) (hp : p ∈ nodes) : le a p := by
  induction h generalizing a with
  | empty => exact absurd hp (Finset.notMem_empty _)
  | @node x left right hleft hright _ _ _ _ ihleft ihright =>
      cases hroot
      rcases Finset.mem_insert.mp hp with rfl | hin
      · exact hrefl p
      · rcases Finset.mem_union.mp hin with hin | hin
        · cases hc : (e x).left with
          | none =>
              rw [hc] at hleft
              cases hleft
              exact absurd hin (Finset.notMem_empty _)
          | some c =>
              refine htrans x c p ?_ (ihleft ?_ hc hin)
              · exact hordered x (Finset.mem_insert_self _ _) c (Or.inl hc)
              · intro y hy
                exact hordered y (Finset.mem_insert_of_mem (Finset.mem_union_left _ hy))
        · cases hc : (e x).right with
          | none =>
              rw [hc] at hright
              cases hright
              exact absurd hin (Finset.notMem_empty _)
          | some c =>
              refine htrans x c p ?_ (ihright ?_ hc hin)
              · exact hordered x (Finset.mem_insert_self _ _) c (Or.inr hc)
              · intro y hy
                exact hordered y (Finset.mem_insert_of_mem (Finset.mem_union_right _ hy))

end Trees

section Merging

theorem setParentAt_links {v : Option ι} (hrun : setParentAt l v e = .ok (.ok (), e')) (x : ι) :
    (e' x).left = (e x).left ∧ (e' x).right = (e x).right := by
  cases l with
  | none =>
      cases hrun
      exact ⟨rfl, rfl⟩
  | some c =>
      cases hrun
      show (Function.update e c _ x).left = _ ∧ (Function.update e c _ x).right = _
      rcases eq_or_ne x c with rfl | hne
      · rw [Function.update_self]
        exact ⟨rfl, rfl⟩
      · rw [Function.update_of_ne hne]
        exact ⟨rfl, rfl⟩

theorem attach_links (hrun : attach a l r e = .ok (.ok (), e')) :
    (e' a).left = l ∧ (e' a).right = r ∧
      ∀ x, x ≠ a → (e' x).left = (e x).left ∧ (e' x).right = (e x).right := by
  let e₁ : ι → Entry ι := Function.update e a ⟨(e a).parent, l, r⟩
  have hfirst : attach a l r e = setParentAt l (some a) e₁ := by
    rw [attach, setLeft, modifyState_bind, setRight, modifyState_bind]
    simp only [Function.update_self, Function.update_idem]
    rfl
  have hself : e₁ a = ⟨(e a).parent, l, r⟩ := Function.update_self _ _ _
  have hothers : ∀ x, x ≠ a → e₁ x = e x := fun x hx => Function.update_of_ne hx _ _
  have hkept := setParentAt_links (hfirst.symm.trans hrun)
  refine ⟨?_, ?_, fun x hx => ?_⟩
  · rw [(hkept a).1, hself]
  · rw [(hkept a).2, hself]
  · rw [← hothers x hx]
    exact hkept x

/-- The merge at the node that comes first, after the other nodes were merged. -/
theorem ordered_attach {x y : Option ι} {e₁ : ι → Entry ι}
    (hordered : Ordered le e (insert a (left ∪ right))) (hrec : Merged e x y (right ∪ other) l e₁)
    (hrest : Ordered le e₁ (right ∪ other)) (hfirst : ∀ c, x = some c ∨ y = some c → le a c)
    (hrun : attach a l (e a).left e₁ = .ok (.ok (), e')) :
    Ordered le e' (insert a (left ∪ right) ∪ other) := by
  obtain ⟨hleft, hright, hothers⟩ := attach_links hrun
  intro z hz c hchild
  rcases eq_or_ne z a with rfl | hne
  · rcases hchild with hc | hc
    · rw [hleft] at hc
      exact hfirst c (hrec.root c hc).1
    · rw [hright] at hc
      exact hordered z (Finset.mem_insert_self _ _) c (Or.inl hc)
  · have hchild₁ : Child e₁ z c := by
      obtain ⟨hl, hr⟩ := hothers z hne
      rwa [Child, hl, hr] at hchild
    by_cases hin : z ∈ right ∪ other
    · exact hrest z hin c hchild₁
    · rw [Child, hrec.others z hin] at hchild₁
      refine hordered z ?_ c hchild₁
      rcases Finset.mem_union.mp hz with hz | hz
      · exact hz
      · exact absurd (Finset.mem_union_right _ hz) hin

theorem ordered_merge {a b : Option ι} (ha : Heap e a left) (hb : Heap e b right)
    (hapart : Disjoint left right) (hfuel : left.card + right.card < fuel)
    (hcomp : Respects comp le (left ∪ right)) (hordered : Ordered le e (left ∪ right))
    (hrun : skewHeapMerge comp fuel a b e = .ok (.ok root, e')) :
    Ordered le e' (left ∪ right) := by
  induction fuel generalizing e e' root a b left right with
  | zero => omega
  | succ fuel ih =>
  cases a with
  | none =>
      cases hrun
      exact hordered
  | some a =>
  cases b with
  | none =>
      cases hrun
      exact hordered
  | some b =>
  have haMem : a ∈ left ∪ right := Finset.mem_union_left _ ha.root_mem
  have hbMem : b ∈ left ∪ right := Finset.mem_union_right _ hb.root_mem
  obtain ⟨hbefore, hafter⟩ := hcomp a haMem b hbMem
  have ha' := ha
  have hb' := hb
  cases ha' with
  | @node _ la ra hla hra hapartA houtA hplA _ =>
  cases hb' with
  | @node _ lb rb hlb hrb hapartB houtB hplB _ =>
  rw [skewHeapMerge, getState_bind] at hrun
  have hcardA := card_node houtA
  have hcardB := card_node houtB
  have hsubA : ra ⊆ insert a (la ∪ ra) := fun x hx =>
    Finset.mem_insert_of_mem (Finset.mem_union_right _ hx)
  have hsubB : rb ⊆ insert b (lb ∪ rb) := fun x hx =>
    Finset.mem_insert_of_mem (Finset.mem_union_right _ hx)
  have horderedA : Ordered le e (insert a (la ∪ ra)) := fun x hx =>
    hordered x (Finset.mem_union_left _ hx)
  have horderedB : Ordered le e (insert b (lb ∪ rb)) := fun x hx =>
    hordered x (Finset.mem_union_right _ hx)
  split at hrun
  · next heq =>
      have hrest : Disjoint ra (insert b (lb ∪ rb)) := Finset.disjoint_of_subset_left hsubA hapart
      have hsub : ra ∪ insert b (lb ∪ rb) ⊆ insert a (la ∪ ra) ∪ insert b (lb ∪ rb) :=
        Finset.union_subset_union_left hsubA
      obtain ⟨l, e₁, hrun₁, hmerged⟩ := skewHeapMerge_of comp hra hb hrest
        (by omega : ra.card + (insert b (lb ∪ rb)).card < fuel)
      have hordered₁ : Ordered le e₁ (ra ∪ insert b (lb ∪ rb)) :=
        ih hra hb hrest (by omega) (hcomp.mono hsub) (fun x hx => hordered x (hsub hx)) hrun₁
      obtain ⟨e₂, hattach, _⟩ := merged_attach hla houtA hplA hapartA hapart hmerged
      rw [bind_of_ok hrun₁, bind_of_ok hattach] at hrun
      cases hrun
      refine ordered_attach horderedA hmerged hordered₁ ?_ hattach
      rintro c (hc | hc)
      · exact horderedA a (Finset.mem_insert_self _ _) c (Or.inr hc)
      · cases hc
        exact hbefore heq
  · next hne =>
      have hrest : Disjoint (insert a (la ∪ ra)) rb := Finset.disjoint_of_subset_right hsubB hapart
      have hsub : insert a (la ∪ ra) ∪ rb ⊆ insert a (la ∪ ra) ∪ insert b (lb ∪ rb) :=
        Finset.union_subset_union_right hsubB
      obtain ⟨l, e₁, hrun₁, hmerged⟩ := skewHeapMerge_of comp ha hrb hrest
        (by omega : (insert a (la ∪ ra)).card + rb.card < fuel)
      have hordered₁ : Ordered le e₁ (insert a (la ∪ ra) ∪ rb) :=
        ih ha hrb hrest (by omega) (hcomp.mono hsub) (fun x hx => hordered x (hsub hx)) hrun₁
      rw [Finset.union_comm] at hmerged hordered₁
      obtain ⟨e₂, hattach, _⟩ := merged_attach hlb houtB hplB hapartB hapart.symm hmerged
      rw [bind_of_ok hrun₁, bind_of_ok hattach] at hrun
      cases hrun
      rw [Finset.union_comm]
      refine ordered_attach horderedB hmerged hordered₁ ?_ hattach
      rintro c (hc | hc)
      · cases hc
        exact hafter hne
      · exact horderedB b (Finset.mem_insert_self _ _) c (Or.inr hc)

end Merging

section Operations

theorem heap_singleton (h : e p = ⟨none, none, none⟩) : Heap e (some p) {p} := by
  have hnode : Heap e (some p) (insert p (∅ ∪ ∅)) := by
    refine .node ?_ ?_ (Finset.disjoint_empty_left _) (by simp) ?_ ?_
    · rw [h]
      exact .empty
    · rw [h]
      exact .empty
    · rw [h]
      exact nofun
    · rw [h]
      exact nofun
  simpa using hnode

/-- A part of a heap that was not changed. -/
theorem Heap.untouched (h : Heap e root nodes) (hp : p ∉ nodes)
    (hlinks : ∀ x ∈ nodes, (e' x).left = (if (e x).left = some p then rep else (e x).left) ∧
      (e' x).right = (if (e x).right = some p then rep else (e x).right) ∧
      (e' x).parent = (e x).parent) :
    Heap e' root nodes := by
  have hnot : ∀ x ∈ nodes, (e x).left ≠ some p ∧ (e x).right ≠ some p := fun x hx =>
    ⟨fun heq => hp (Heap.child_mem h hx (Or.inl heq)),
      fun heq => hp (Heap.child_mem h hx (Or.inr heq))⟩
  refine h.congr (fun x hx => ?_) fun x hx _ => (hlinks x hx).2.2
  obtain ⟨hl, hr, _⟩ := hlinks x hx
  rw [if_neg (hnot x hx).1] at hl
  rw [if_neg (hnot x hx).2] at hr
  exact ⟨hl, hr⟩

/-- The node `p` with all below it is replaced by a heap of the nodes below it. -/
theorem Heap.replace (hat : Heap e (some p) below) (hrep : Heap e' rep (below.erase p))
    (hparent : ∀ c, rep = some c → (e' c).parent = (e p).parent) (h : Heap e root nodes)
    (hlinks : ∀ x ∈ nodes, x ∉ below →
      (e' x).left = (if (e x).left = some p then rep else (e x).left) ∧
      (e' x).right = (if (e x).right = some p then rep else (e x).right) ∧
      (e' x).parent = (e x).parent)
    (hp : p ∈ nodes) :
    Heap e' (if root = some p then rep else root) (nodes.erase p) ∧
      ∀ c, root = some c → c ≠ p → (e' c).parent = (e c).parent := by
  induction h with
  | empty => exact absurd hp (Finset.notMem_empty _)
  | @node a left right hleft hright hapart hout hpl hpr ihleft ihright =>
  rcases eq_or_ne a p with rfl | hne
  · rw [if_pos rfl, ← Heap.nodes_unique (Heap.node hleft hright hapart hout hpl hpr) hat]
    refine ⟨hrep, ?_⟩
    rintro c ⟨⟩ hc
    exact absurd rfl hc
  have hroot : (some a : Option ι) ≠ some p := fun heq => hne (Option.some.inj heq)
  have hinl : ∀ x ∈ left, x ∈ insert a (left ∪ right) := fun x hx =>
    Finset.mem_insert_of_mem (Finset.mem_union_left _ hx)
  have hinr : ∀ x ∈ right, x ∈ insert a (left ∪ right) := fun x hx =>
    Finset.mem_insert_of_mem (Finset.mem_union_right _ hx)
  rw [if_neg hroot, Finset.erase_insert_of_ne hne, Finset.erase_union_distrib]
  rcases Finset.mem_union.mp ((Finset.mem_insert.mp hp).resolve_left hne.symm) with hin | hin
  · have hsub : below ⊆ left := Heap.subset_of_mem hleft hin hat
    have hpr' : p ∉ right := Finset.disjoint_left.mp hapart hin
    have hrightOut : ∀ x ∈ right, x ∉ below := fun x hx hbelow =>
      Finset.disjoint_left.mp hapart (hsub hbelow) hx
    obtain ⟨hheap, hpar⟩ := ihleft (fun x hx => hlinks x (hinl x hx)) hin
    obtain ⟨hl, hr, hap⟩ := hlinks a (Finset.mem_insert_self _ _)
      fun hbelow => hout (Finset.mem_union_left _ (hsub hbelow))
    have hkept : (e' a).right = (e a).right := by
      rw [hr, if_neg]
      intro heq
      rw [heq] at hright
      exact hpr' hright.root_mem
    have hright' : Heap e' (e a).right right :=
      Heap.untouched hright hpr' fun x hx => hlinks x (hinr x hx) (hrightOut x hx)
    rw [Finset.erase_eq_of_notMem hpr']
    refine ⟨.node ?_ ?_ ?_ ?_ ?_ ?_, ?_⟩
    · rw [hl]
      exact hheap
    · rw [hkept]
      exact hright'
    · exact Finset.disjoint_of_subset_left (Finset.erase_subset _ _) hapart
    · intro hmem
      exact hout (Finset.union_subset_union_left (Finset.erase_subset _ _) hmem)
    · intro c hc
      rw [hl] at hc
      split at hc
      · next heq => rw [hparent c hc, hpl p heq]
      · next hnot =>
          rw [hpar c hc (fun heq => hnot (by rw [hc, heq])), hpl c hc]
    · intro c hc
      rw [hkept] at hc
      have hmem : c ∈ right := by
        rw [hc] at hright
        exact hright.root_mem
      rw [(hlinks c (hinr c hmem) (hrightOut c hmem)).2.2, hpr c hc]
    · rintro c ⟨⟩ _
      exact hap
  · have hsub : below ⊆ right := Heap.subset_of_mem hright hin hat
    have hpl' : p ∉ left := Finset.disjoint_right.mp hapart hin
    have hleftOut : ∀ x ∈ left, x ∉ below := fun x hx hbelow =>
      Finset.disjoint_left.mp hapart hx (hsub hbelow)
    obtain ⟨hheap, hpar⟩ := ihright (fun x hx => hlinks x (hinr x hx)) hin
    obtain ⟨hl, hr, hap⟩ := hlinks a (Finset.mem_insert_self _ _)
      fun hbelow => hout (Finset.mem_union_right _ (hsub hbelow))
    have hkept : (e' a).left = (e a).left := by
      rw [hl, if_neg]
      intro heq
      rw [heq] at hleft
      exact hpl' hleft.root_mem
    have hleft' : Heap e' (e a).left left :=
      Heap.untouched hleft hpl' fun x hx => hlinks x (hinl x hx) (hleftOut x hx)
    rw [Finset.erase_eq_of_notMem hpl']
    refine ⟨.node ?_ ?_ ?_ ?_ ?_ ?_, ?_⟩
    · rw [hkept]
      exact hleft'
    · rw [hr]
      exact hheap
    · exact Finset.disjoint_of_subset_right (Finset.erase_subset _ _) hapart
    · intro hmem
      exact hout (Finset.union_subset_union_right (Finset.erase_subset _ _) hmem)
    · intro c hc
      rw [hkept] at hc
      have hmem : c ∈ left := by
        rw [hc] at hleft
        exact hleft.root_mem
      rw [(hlinks c (hinl c hmem) (hleftOut c hmem)).2.2, hpl c hc]
    · intro c hc
      rw [hr] at hc
      split at hc
      · next heq => rw [hparent c hc, hpr p heq]
      · next hnot =>
          rw [hpar c hc (fun heq => hnot (by rw [hc, heq])), hpr c hc]
    · rintro c ⟨⟩ _
      exact hap

omit [DecidableEq ι] in
/-- No node is both children of another one. -/
theorem Heap.children_ne [DecidableEq ι] (h : Heap e root nodes) (hq : q ∈ nodes)
    (hleft : (e q).left = some c) : (e q).right ≠ some c := by
  intro hright
  obtain ⟨below, hbelow, _⟩ := Heap.at_mem h hq
  cases hbelow with
  | node hl hr hapart =>
      rw [hleft] at hl
      rw [hright] at hr
      exact Finset.disjoint_left.mp hapart hl.root_mem hr.root_mem

theorem setParentAt_of (e : ι → Entry ι) (l v : Option ι) :
    ∃ e', setParentAt l v e = .ok (.ok (), e') ∧ (∀ x, l ≠ some x → e' x = e x) ∧
      ∀ c, l = some c → (e' c).parent = v := by
  cases l with
  | none => exact ⟨e, rfl, fun _ _ => rfl, nofun⟩
  | some a =>
      refine ⟨Function.update e a { e a with parent := v }, rfl, fun x hx => ?_, ?_⟩
      · refine Function.update_of_ne ?_ _ _
        rintro rfl
        exact hx rfl
      · rintro _ ⟨⟩
        rw [Function.update_self]

/-- The parent of the removed node gets what replaces it. -/
theorem setChild_of (h : Heap e root nodes) (hq : q ∈ nodes) (hchild : Child e q p)
    {e₂ : ι → Entry ι} (hsame : e₂ q = e q) :
    ∃ e', ((e₂ q).left = some p → setLeft q rep e₂ = .ok (.ok (), e')) ∧
      ((e₂ q).left ≠ some p → setRight q rep e₂ = .ok (.ok (), e')) ∧ (∀ x, x ≠ q → e' x = e₂ x) ∧ (e' q).parent = (e q).parent ∧
      (e' q).left = (if (e q).left = some p then rep else (e q).left) ∧
      (e' q).right = (if (e q).right = some p then rep else (e q).right) := by
  rw [hsame]
  by_cases hleft : (e q).left = some p
  · rw [if_pos hleft, if_neg (Heap.children_ne h hq hleft)]
    refine ⟨Function.update e₂ q { e₂ q with left := rep }, fun _ => rfl, absurd hleft,
      fun x hx => ?_, ?_⟩
    · exact Function.update_of_ne hx _ _
    · rw [Function.update_self, hsame]
      exact ⟨rfl, rfl, rfl⟩
  · rw [if_neg hleft, if_pos (hchild.resolve_left hleft)]
    refine ⟨Function.update e₂ q { e₂ q with right := rep }, (absurd · hleft), fun _ => rfl,
      fun x hx => ?_, ?_⟩
    · exact Function.update_of_ne hx _ _
    · rw [Function.update_self, hsame]
      exact ⟨rfl, rfl, rfl⟩

/-- What is left after a merge of the nodes below `p` has taken the place of `p`. -/
theorem ordered_replace (htrans : ∀ x y z, le x y → le y z → le x z) (hp : p ∈ nodes)
    (hordered : Ordered le e nodes)
    (hbelow : ∀ x ∈ below, x ≠ p → ∀ c, Child e' x c → le x c)
    (hlinks : ∀ x ∈ nodes, x ∉ below →
      (e' x).left = (if (e x).left = some p then rep else (e x).left) ∧
      (e' x).right = (if (e x).right = some p then rep else (e x).right) ∧
      (e' x).parent = (e x).parent)
    (hrep : ∀ c, rep = some c → Child e p c) : Ordered le e' (nodes.erase p) := by
  intro x hx c hchild
  obtain ⟨hne, hin⟩ := Finset.mem_erase.mp hx
  by_cases hmem : x ∈ below
  · exact hbelow x hmem hne c hchild
  · obtain ⟨hl, hr, _⟩ := hlinks x hin hmem
    have hthrough : ∀ {side}, (side = some p → Child e x p) → (side ≠ some p → side = some c →
        Child e x c) → (if side = some p then rep else side) = some c → le x c := by
      intro side hside hother hc
      split at hc
      · next heq =>
          exact htrans x p c (hordered x hin p (hside heq)) (hordered p hp c (hrep c hc))
      · next hnot => exact hordered x hin c (hother hnot hc)
    rcases hchild with hc | hc
    · rw [hl] at hc
      exact hthrough Or.inl (fun _ => Or.inl) hc
    · rw [hr] at hc
      exact hthrough Or.inr (fun _ => Or.inr) hc

/-- Any node is removed. The order may be wrong where the removed node is concerned. -/
theorem skewHeapRemove_mem (comp : ι → ι → Int) (h : Rooted e root nodes) (hp : p ∈ nodes)
    (hfuel : nodes.card < fuel) :
    ∃ root' e', skewHeapRemove comp fuel root p e = .ok (.ok root', e') ∧
      Rooted e' root' (nodes.erase p) ∧
      ∀ le : ι → ι → Prop, (∀ x y z, le x y → le y z → le x z) →
        Respects comp le (nodes.erase p) → Ordered le e nodes →
          Ordered le e' (nodes.erase p) := by
  obtain ⟨below, hat, hsub⟩ := Heap.at_mem h.heap hp
  have hat' := hat
  cases hat' with
  | @node _ left right hleft hright hapart hout hpl hpr =>
  have hcard : left.card + right.card < fuel := by
    have hle := Finset.card_le_card hsub
    rw [Finset.card_insert_of_notMem hout, Finset.card_union_of_disjoint hapart] at hle
    omega
  obtain ⟨rep, e₁, hrun₁, hmerged⟩ := skewHeapMerge_of comp hleft hright hapart hcard
  obtain ⟨e₂, hrun₂, hothers₂, hparent₂⟩ := setParentAt_of e₁ rep (e p).parent
  have hlinks₂ := setParentAt_links hrun₂
  have hrepMem : ∀ c, rep = some c → c ∈ left ∪ right := by
    rintro c rfl
    exact hmerged.heap.root_mem
  have hout₂ : ∀ x ∉ left ∪ right, e₂ x = e x := by
    intro x hx
    rw [hothers₂ x (fun heq => hx (hrepMem x heq)), hmerged.others x hx]
  have hheap₂ : Heap e₂ rep (left ∪ right) := hmerged.heap.congr (fun x _ => hlinks₂ x)
    fun x _ hx => by rw [hothers₂ x hx]
  have hrepChild : ∀ c, rep = some c → Child e p c := fun c hc => (hmerged.root c hc).1
  have hordered₂ : ∀ le : ι → ι → Prop, Respects comp le (nodes.erase p) → Ordered le e nodes →
      Ordered le e₂ (left ∪ right) := by
    intro le hcomp hordered x hx c hchild
    have hsub' : left ∪ right ⊆ nodes.erase p := by
      intro y hy
      refine Finset.mem_erase.mpr ⟨?_, hsub (Finset.mem_insert_of_mem hy)⟩
      rintro rfl
      exact hout hy
    have hmergedOrder := ordered_merge hleft hright hapart hcard (hcomp.mono hsub')
      (fun y hy => hordered y (Finset.mem_of_mem_erase (hsub' hy))) hrun₁
    rw [Child, (hlinks₂ x).1, (hlinks₂ x).2] at hchild
    exact hmergedOrder x hx c hchild
  rw [skewHeapRemove, getState_bind, bind_of_ok hrun₁, bind_of_ok hrun₂]
  rcases eq_or_ne root (some p) with hroot | hroot
  · have hnodes : insert p (left ∪ right) = nodes := by
      have hheap := h.heap
      rw [hroot] at hheap
      exact Heap.nodes_unique hheap hat
    rw [h.top p hroot, ← hnodes, Finset.erase_insert hout]
    refine ⟨rep, e₂, rfl, ⟨hheap₂, fun c hc => ?_⟩, fun le _ hcomp hordered => ?_⟩
    · rw [hparent₂ c hc, h.top p hroot]
    · refine hordered₂ le ?_ ?_
      · rwa [← hnodes, Finset.erase_insert hout]
      · rwa [← hnodes]
  · obtain ⟨q, hq, hchild⟩ := Heap.child_of_mem h.heap hp hroot
    have hparent := Heap.parent_of_child h.heap hq hchild
    have hqOut : q ∉ insert p (left ∪ right) := fun hin => Heap.root_not_child hat hin hchild
    have hqOut' : q ∉ left ∪ right := fun hin => hqOut (Finset.mem_insert_of_mem hin)
    have hqp : q ≠ p := by
      rintro rfl
      exact hqOut (Finset.mem_insert_self _ _)
    rw [hparent] at hparent₂ ⊢
    obtain ⟨e₃, hrunLeft, hrunRight, hothers₃, hparent₃, hleft₃, hright₃⟩ :=
      @setChild_of _ _ root rep p q _ nodes h.heap hq hchild e₂ (hout₂ q hqOut')
    have hbelow₃ : ∀ x ∈ left ∪ right, e₃ x = e₂ x := by
      intro x hx
      refine hothers₃ x ?_
      rintro rfl
      exact hqOut' hx
    have hlinks₃ : ∀ x ∈ nodes, x ∉ insert p (left ∪ right) →
        (e₃ x).left = (if (e x).left = some p then rep else (e x).left) ∧
        (e₃ x).right = (if (e x).right = some p then rep else (e x).right) ∧
        (e₃ x).parent = (e x).parent := by
      intro x hx hnot
      rcases eq_or_ne x q with rfl | hne
      · exact ⟨hleft₃, hright₃, hparent₃⟩
      · have hnotChild : ¬Child e x p := by
          intro hchild'
          cases (Heap.parent_of_child h.heap hx hchild').symm.trans hparent
          exact hne rfl
        rw [hothers₃ x hne, hout₂ x (fun hin => hnot (Finset.mem_insert_of_mem hin)),
          if_neg (fun heq => hnotChild (Or.inl heq)), if_neg (fun heq => hnotChild (Or.inr heq))]
        exact ⟨rfl, rfl, rfl⟩
    have hrep₃ : Heap e₃ rep ((insert p (left ∪ right)).erase p) := by
      rw [Finset.erase_insert hout]
      exact hheap₂.congr (fun x hx => by rw [hbelow₃ x hx]; exact ⟨rfl, rfl⟩)
        fun x hx _ => by rw [hbelow₃ x hx]
    have hrepParent : ∀ c, rep = some c → (e₃ c).parent = (e p).parent := by
      intro c hc
      rw [hbelow₃ c (hrepMem c hc), hparent₂ c hc, hparent]
    obtain ⟨hheap₃, htop₃⟩ := Heap.replace hat hrep₃ hrepParent h.heap hlinks₃ hp
    rw [if_neg hroot] at hheap₃
    refine ⟨root, e₃, ?_, ⟨hheap₃, fun c hc => ?_⟩, fun le htrans hcomp hordered => ?_⟩
    · show (getState >>= fun e => _) e₂ = _
      rw [getState_bind]
      split
      · next heq =>
          rw [bind_of_ok (hrunLeft heq)]
          rfl
      · next hne =>
          rw [bind_of_ok (hrunRight hne)]
          rfl
    · rw [htop₃ c hc (fun heq => hroot (by rw [hc, heq])), h.top c hc]
    · refine ordered_replace htrans hp hordered (fun x hx hne c hchild' => ?_) hlinks₃ hrepChild
      have hin : x ∈ left ∪ right := (Finset.mem_insert.mp hx).resolve_left hne
      rw [Child, hbelow₃ x hin] at hchild'
      exact hordered₂ le hcomp hordered x hin c hchild'

theorem skewHeapInsert_ordered (h : Rooted e root nodes) (hp : p ∉ nodes)
    (hfuel : nodes.card + 1 < fuel) (hcomp : Respects comp le (insert p nodes))
    (hordered : Ordered le e nodes)
    (hrun : skewHeapInsert comp fuel root p e = .ok (.ok l, e')) :
    Ordered le e' (insert p nodes) := by
  let e₁ : ι → Entry ι := Function.update e p ⟨none, none, none⟩
  have hself : e₁ p = ⟨none, none, none⟩ := Function.update_self _ _ _
  have hothers : ∀ x ∈ nodes, e₁ x = e x := by
    intro x hx
    refine Function.update_of_ne ?_ _ _
    rintro rfl
    exact hp hx
  have hold : Heap e₁ root nodes := h.heap.congr
    (fun x hx => by rw [hothers x hx]; exact ⟨rfl, rfl⟩) fun x hx _ => by rw [hothers x hx]
  rw [skewHeapInsert, skewHeapInit, modifyState_bind] at hrun
  have hunion : nodes ∪ {p} = insert p nodes := by
    rw [Finset.insert_eq, Finset.union_comm]
  rw [← hunion]
  refine ordered_merge hold (heap_singleton hself) (Finset.disjoint_singleton_right.mpr hp)
    (by rwa [Finset.card_singleton]) (by rwa [hunion]) ?_ hrun
  intro x hx c hchild
  rcases Finset.mem_union.mp hx with hin | hin
  · rw [Child, hothers x hin] at hchild
    exact hordered x hin c hchild
  · rw [Finset.mem_singleton.mp hin, Child, hself] at hchild
    rcases hchild with hc | hc
    · cases hc
    · cases hc

/-- A node that the root does not come before is the new root. -/
theorem skewHeapInsert_root (hfirst : ∀ a, root = some a → comp a p ≠ -1)
    (hrun : skewHeapInsert comp fuel root p e = .ok (.ok l, e')) : l = some p := by
  rw [skewHeapInsert, skewHeapInit, modifyState_bind] at hrun
  cases fuel with
  | zero => cases hrun
  | succ fuel =>
      cases root with
      | none =>
          cases hrun
          rfl
      | some a =>
          rw [skewHeapMerge, getState_bind, if_neg (hfirst a rfl)] at hrun
          rcases bind_eq_ok_iff.mp hrun with ⟨_, _, _, hrest⟩ | ⟨_, _, herror⟩
          · rcases bind_eq_ok_iff.mp hrest with ⟨_, _, _, hreturn⟩ | ⟨_, _, herror⟩
            · cases hreturn
              rfl
            · cases herror
          · cases herror

end Operations

end Ucore.SkewHeapOrder
