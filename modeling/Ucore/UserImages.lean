import Ucore.SwapContents

/-! What a process finds at its addresses, and how the kernel changes that. -/

namespace Ucore.UserImages

open Ucore.Errors
open Ucore.Panic
open Ucore.KernelRoutine
open Ucore.RadixTables
open Ucore.DefaultPmm (PGSIZE)
open Ucore.PageTables
open Ucore.PageOwners
open Ucore.PageBytes
open Ucore.PageCopies
open Ucore.AddressSpaces (roundDown)
open Ucore.Swap
open Ucore.SwapSteps
open Ucore.SwapContents

variable {dirs pages : Finset Nat} {owner : Nat → Role} {s s' m m' m'' : Memory}
  {a d d' la la' p page : Nat} {perm : BitVec 32}

section Directories

/-- A free frame becomes a page directory without user entries. -/
theorem owned_directory (h : Owned s dirs pages owner) (hfree : s.free d = true)
    (hempty : ∀ i : Index, i.val < 2 → ¬Valid (s.words d i))
    (hwords : s'.words = s.words) (htaken : s'.free = Function.update s.free d false) :
    Owned s' (insert d dirs) pages (Function.update owner d (.table d [])) := by
  have howner : owner d = .free := (h.free d).mp hfree
  have hroles : ∀ q, q ≠ d → Function.update owner d (.table d []) q = owner q :=
    fun q hq => Function.update_of_ne hq _ _
  have hself : Function.update owner d (.table d []) d = .table d [] := Function.update_self _ _ _
  have hkept : ∀ {q}, owner q ≠ .free → Function.update owner d (.table d []) q = owner q := by
    intro q hq
    refine hroles q ?_
    rintro rfl
    exact hq howner
  refine ⟨?_, ?_, ?_, ?_, ⟨?_⟩, ?_, ?_, ?_⟩
  · intro q
    rw [htaken]
    rcases eq_or_ne q d with rfl | hq
    · simp
    · rw [Function.update_of_ne hq, hroles q hq]
      exact h.free q
  · intro q
    rw [h.page q]
    rcases eq_or_ne q d with rfl | hq
    · rw [hself, howner]
      simp
    · rw [hroles q hq]
  · intro q hq
    rcases eq_or_ne q d with rfl | hne
    · exact h.bound q (by simp [howner])
    · rw [hroles q hne] at hq
      exact h.bound q hq
  · intro d' hd'
    rcases Finset.mem_insert.mp hd' with rfl | hd'
    · exact hself
    · have hroot := h.root d' hd'
      rw [hkept (by simp [hroot]), hroot]
  · intro q r path i u hq hinner hallowed hnext
    rw [hwords] at hnext
    rcases eq_or_ne q d with rfl | hne
    · rw [hself] at hq
      cases hq
      rw [next_of_not (hempty i hallowed)] at hnext
      cases hnext
    · rw [hroles q hne] at hq
      have hu := h.rooted.child hq hinner hallowed hnext
      rwa [hkept (by rw [table_of_place hu]; simp)]
  · intro q d' a b j hq huser hvalid
    rw [hwords] at hvalid ⊢
    rcases eq_or_ne q d with rfl | hne
    · rw [hself] at hq
      cases hq
    · rw [hroles q hne] at hq
      have hleaf := h.leaf q d' a b j hq huser hvalid
      rw [hkept (by simp [hleaf]), hleaf]
  · intro q d' path hq
    rcases eq_or_ne q d with rfl | hne
    · rw [hself] at hq
      cases hq
      decide
    · rw [hroles q hne] at hq
      exact h.level q d' path hq
  · intro q d' path j hq
    rw [hwords]
    rcases eq_or_ne q d with rfl | hne
    · rw [hself] at hq
      cases hq
      exact ⟨Finset.mem_insert_self _ _, trivial, rfl⟩
    · rw [hroles q hne] at hq
      obtain ⟨hd', hrest⟩ := h.linked q d' path j hq
      exact ⟨Finset.mem_insert_of_mem hd', hrest⟩

theorem pte_empty (hempty : ∀ i : Index, i.val < 2 → ¬Valid (m.words d i)) (hla : la < USERTOP) :
    pte m d la = 0 := by
  apply pte_of_none
  rw [slot, indices, locate_cons (by simp), next_of_not (hempty _ (user_indices hla))]
  rfl

/-- The page directory of a new address space: nothing is mapped there. -/
theorem paged_directory (h : Paged dirs m) (hfree : m.free d = true) {words : Index → Word}
    (hempty : ∀ i : Index, i.val < 2 → ¬Valid (words i))
    (hwords : m'.words = Function.update m.words d words)
    (htaken : m'.free = Function.update m.free d false) :
    Paged (insert d dirs) m' ∧ ∀ la < USERTOP, pte m' d la = 0 := by
  obtain ⟨pages, owner, howned⟩ := h.owned
  have howner : owner d = .free := (howned.free d).mp hfree
  let m₁ : Memory := { m with words := Function.update m.words d words }
  have htables : ∀ q d' path, owner q = .table d' path → m₁.words q = m.words q := by
    intro q d' path hq
    refine Function.update_of_ne ?_ _ _
    rintro rfl
    rw [howner] at hq
    cases hq
  have howned₁ : Owned m₁ dirs pages owner := owned_congr howned htables rfl
  have hempty₁ : ∀ i : Index, i.val < 2 → ¬Valid (m₁.words d i) := by
    intro i hi
    show ¬Valid (Function.update m.words d words d i)
    rw [Function.update_self]
    exact hempty i hi
  have hpte : ∀ d' la, pte m' d' la = pte m₁ d' la := fun d' la => PageCounts.pte_congr hwords d' la
  have hold : ∀ d' ∈ dirs, ∀ la < USERTOP, pte m' d' la = pte m d' la := by
    intro d' hd' la hla
    rw [hpte, pte_congr_tables howned htables hd' hla]
  have hnew : ∀ la < USERTOP, pte m' d la = 0 := by
    intro la hla
    rw [hpte, pte_empty hempty₁ hla]
  have hmapped : ∀ d' ∈ insert d dirs, ∀ la < USERTOP, ∀ p, next (pte m' d' la) = some p →
      d' ∈ dirs ∧ next (pte m d' la) = some p := by
    intro d' hd' la hla p hp
    rcases Finset.mem_insert.mp hd' with rfl | hd'
    · rw [hnew la hla, next_of_not not_valid_zero] at hp
      cases hp
    · rw [hold d' hd' la hla] at hp
      exact ⟨hd', hp⟩
  refine ⟨⟨⟨pages, _, owned_directory howned₁ hfree hempty₁ hwords htaken⟩, ?_⟩, hnew⟩
  intro d₁ hd₁ la₁ hla₁ d₂ hd₂ la₂ hla₂ p hp₁ hp₂
  obtain ⟨hin₁, hm₁⟩ := hmapped d₁ hd₁ la₁ hla₁ p hp₁
  obtain ⟨hin₂, hm₂⟩ := hmapped d₂ hd₂ la₂ hla₂ p hp₂
  exact h.once d₁ hin₁ la₁ hla₁ d₂ hin₂ la₂ hla₂ p hm₁ hm₂

end Directories

section Bytes

/-- The byte that a process has at an address. -/
def userByte (m : Memory) (d a : Nat) : Option (BitVec 8) :=
  (next (pte m d a)).map fun p => byteAt (m.words p) a

theorem userByte_mapped (h : next (pte m d a) = some p) :
    userByte m d a = some (byteAt (m.words p) a) := by
  rw [userByte, h]
  rfl

/-- The pages at these addresses are as they were. -/
structure Unchanged (d : Nat) (at' : Nat → Prop) (m m' : Memory) : Prop where
  pte : ∀ a < USERTOP, at' a → pte m' d a = pte m d a
  byte : ∀ a < USERTOP, at' a → userByte m' d a = userByte m d a

variable {at' at'' : Nat → Prop}

theorem Unchanged.refl (d : Nat) (at' : Nat → Prop) (m : Memory) : Unchanged d at' m m :=
  ⟨fun _ _ _ => rfl, fun _ _ _ => rfl⟩

theorem Unchanged.trans (h : Unchanged d at' m m') (h' : Unchanged d at' m' m'') :
    Unchanged d at' m m'' :=
  ⟨fun a ha hat => (h'.pte a ha hat).trans (h.pte a ha hat),
    fun a ha hat => (h'.byte a ha hat).trans (h.byte a ha hat)⟩

theorem Unchanged.mono (h : Unchanged d at' m m') (hsub : ∀ a, at'' a → at' a) :
    Unchanged d at'' m m' :=
  ⟨fun a ha hat => h.pte a ha (hsub a hat), fun a ha hat => h.byte a ha (hsub a hat)⟩

/-- Bytes stay where the page and what is in it stay. -/
theorem userByte_congr (hpte : pte m' d a = pte m d a)
    (hwords : ∀ p, next (pte m d a) = some p → m'.words p = m.words p) :
    userByte m' d a = userByte m d a := by
  rw [userByte, userByte, hpte]
  cases hnext : next (pte m d a) with
  | none => rfl
  | some p =>
      show some (byteAt (m'.words p) a) = some (byteAt (m.words p) a)
      rw [hwords p hnext]

theorem unchanged_of_wrote {w : Word} (h : Wrote dirs d la w m m') (hd : d ∈ dirs) :
    Unchanged d (fun a => a / PGSIZE ≠ la / PGSIZE) m m' := by
  have hpte : ∀ a < USERTOP, a / PGSIZE ≠ la / PGSIZE → pte m' d a = pte m d a := by
    intro a ha hne
    rw [h.pte d hd a ha, if_neg fun hboth => hne hboth.2]
  exact ⟨hpte, fun a ha hne => userByte_congr (hpte a ha hne) (h.words d hd a ha)⟩

/-- What is written into a mapped page is seen at its addresses only. -/
theorem paged_fill (h : Paged dirs m) (hd : d ∈ dirs) (hla : la < USERTOP)
    (hnext : next (pte m d la) = some p) {words : Index → Word}
    (hwords : m'.words = Function.update m.words p words) (hfree : m'.free = m.free) :
    Paged dirs m' ∧ (∀ d' ∈ dirs, ∀ a < USERTOP, pte m' d' a = pte m d' a) ∧
      Unchanged d (fun a => a / PGSIZE ≠ la / PGSIZE) m m' ∧
      ∀ a < USERTOP, a / PGSIZE = la / PGSIZE → userByte m' d a = some (byteAt words a) := by
  obtain ⟨pages, owner, howned⟩ := h.owned
  have hrole : owner p = .page := (howned.page p).mp (howned.page_of_pte hd hla hnext)
  have htables : ∀ q d' path, owner q = .table d' path → m'.words q = m.words q := by
    intro q d' path hq
    rw [hwords, Function.update_of_ne]
    rintro rfl
    rw [hrole] at hq
    cases hq
  have hpte : ∀ d' ∈ dirs, ∀ a < USERTOP, pte m' d' a = pte m d' a :=
    fun d' hd' a ha => pte_congr_tables howned htables hd' ha
  refine ⟨⟨⟨pages, owner, owned_congr howned htables hfree⟩, ?_⟩, hpte,
    ⟨fun a ha _ => hpte d hd a ha, fun a ha hne => ?_⟩, fun a ha hpage => ?_⟩
  · intro d₁ hd₁ la₁ hla₁ d₂ hd₂ la₂ hla₂ q hq₁ hq₂
    rw [hpte d₁ hd₁ la₁ hla₁] at hq₁
    rw [hpte d₂ hd₂ la₂ hla₂] at hq₂
    exact h.once d₁ hd₁ la₁ hla₁ d₂ hd₂ la₂ hla₂ q hq₁ hq₂
  · refine userByte_congr (hpte d hd a ha) fun q hq => ?_
    rw [hwords, Function.update_of_ne]
    rintro rfl
    exact hne (h.once d hd la hla d hd a ha q hnext hq).2
  · have hhere : next (pte m' d a) = some p := by
      rw [hpte d hd a ha, pte_page_of hpage]
      exact hnext
    rw [userByte_mapped hhere, hwords, Function.update_self]

end Bytes

section Pages

variable {t t' : Swapping}

theorem next_pteCreate (hp : p < npage) (hperm : perm.toNat < 2 ^ 10) :
    next (pteCreate p (0x001 ||| perm)) = some p := by
  rw [next_of_valid (valid_pteCreate _ _), frameOf_pteCreate hp (PageCounts.perm_lt hperm)]

/-- `pgdir_alloc_page` where nothing was mapped. -/
theorem mapPage_of (h : Paged dirs t.memory) (hd : d ∈ dirs) (hla : la < USERTOP)
    (hperm : perm.toNat < 2 ^ 10) (hnot : ¬Valid (pte t.memory d la))
    (hcheck : t.checkMmStruct = none) {r : Except Errno (Option Nat)}
    (hrun : Swap.pgdirAllocPage d la perm t = .ok (r, t')) :
    (∃ m, t' = { t with memory := m }) ∧ Paged dirs t'.memory ∧
      (r = .ok none ∨ ∃ p, r = .ok (some p) ∧
        Wrote dirs d la (pteCreate p (0x001 ||| perm)) t.memory t'.memory ∧
        next (pteCreate p (0x001 ||| perm)) = some p) := by
  rw [Swap.pgdirAllocPage] at hrun
  rcases bind_eq_ok_iff.mp hrun with ⟨o, t₁, halloc, hrest⟩ | ⟨e, halloc, _⟩
  · obtain ⟨m₁, hmemory, rfl⟩ := onPart_eq_ok halloc
    obtain ⟨hpaged, ⟨hr, _⟩ | ⟨p, w, hr, rfl, hwrote, hnext, _⟩⟩ :=
      pgdirAllocPage_of h hd hla hperm hnot hmemory
    · cases hr
      cases hrest
      exact ⟨⟨m₁, rfl⟩, hpaged, Or.inl rfl⟩
    · cases hr
      change (getState >>= fun _ => _) _ = _ at hrest
      rw [getState_bind] at hrest
      simp only [hcheck] at hrest
      cases hrest
      exact ⟨⟨m₁, by rw [hcheck]⟩, hpaged, Or.inr ⟨p, rfl, hwrote, hnext⟩⟩
  · obtain ⟨m₁, hmemory, rfl⟩ := onPart_eq_ok halloc
    obtain ⟨_, ⟨hr, _⟩ | ⟨_, _, hr, _⟩⟩ := pgdirAllocPage_of h hd hla hperm hnot hmemory
    · cases hr
    · cases hr

/-- A page fault at an address that has no entry. -/
theorem doPgfault_zero (h : Paged dirs t.memory) (hd : d ∈ dirs) (ha : a < USERTOP)
    (hzero : pte t.memory d a = 0) (hcheck : t.checkMmStruct = none)
    (hrun : doPgfault d a t = .ok (.ok (), t')) :
    (∃ m, t' = { t with memory := m }) ∧ Paged dirs t'.memory ∧
      ∃ w, Wrote dirs d a w t.memory t'.memory := by
  obtain ⟨pages, owner, howned⟩ := h.owned
  have hlt := roundDown_lt ha
  cases hvma : findVma t d a with
  | none =>
      rw [doPgfault, getState_bind, hvma] at hrun
      cases hrun
  | some vma =>
      rw [doPgfault, getState_bind, hvma] at hrun
      obtain ⟨at', m₁, owner₁, hget, howned₁, hextends, hfound⟩ := getPte_true howned hd hlt
      have hsame := same_of_extends howned hextends
      have hpaged₁ : Paged dirs m₁ := h.same hsame ⟨_, _, howned₁⟩
      have hget' : onMemory (getPte d (roundDown a PGSIZE) true) t =
          .ok (.ok at', { t with memory := m₁ }) := onPart_of hget
      change (onMemory (getPte d (roundDown a PGSIZE) true) >>= fun _ => _) t = _ at hrun
      rw [bind_of_ok hget'] at hrun
      cases at' with
      | none => cases hrun
      | some at' =>
          obtain ⟨q, i⟩ := at'
          have hempty : pte m₁ d (roundDown a PGSIZE) = 0 := by
            rw [hsame.pte d hd _ hlt, pte_roundDown, hzero]
          have hword : m₁.words q i = 0 := by rw [← pte_of_slot (hfound _ rfl), hempty]
          change (getState >>= fun _ => _) _ = _ at hrun
          rw [getState_bind, if_pos hword] at hrun
          have hnot : ¬Valid (pte m₁ d (roundDown a PGSIZE)) := by
            rw [hempty]
            exact not_valid_zero
          rcases bind_eq_ok_iff.mp hrun with ⟨o, t₁, halloc, hrest⟩ | ⟨e, _, he⟩
          · obtain ⟨⟨m₂, rfl⟩, hpaged₂, hnone | ⟨p, hr, hwrote, _⟩⟩ :=
              mapPage_of (t := { t with memory := m₁ }) hpaged₁ hd hlt (vmaPerm_lt vma) hnot hcheck
                halloc
            · cases hnone
              cases hrest
            · cases hr
              cases hrest
              exact ⟨⟨m₂, rfl⟩, hpaged₂, _, Wrote.congr (hsame.wrote hwrote)
                (page_roundDown a).symm⟩
          · cases he

end Pages

end Ucore.UserImages
