import Ucore.LoadIcode
import Ucore.UserImages

/-! What a page fault leaves in the page table: the entry of a page that was not there, and what
becomes of one that was. -/

namespace Ucore.FaultEntries

open Ucore.Errors
open Ucore.Panic
open Ucore.KernelRoutine
open Ucore.DefaultPmm (PGSIZE)
open Ucore.ListHeader
open Ucore.PageTables
open Ucore.PageOwners
open Ucore.PageCopies
open Ucore.AddressSpaces (Vma roundDown)
open Ucore.Swap
open Ucore.SwapSteps
open Ucore.SwapContents
open Ucore.LoadIcode (VM_READ VM_EXEC PTE_R PTE_W PTE_X)

/-- A bit of an entry that says what may be done with the page. -/
def Has (w : Word) (flag : BitVec 32) : Prop := w &&& flag.setWidth 64 ≠ 0

instance (w : Word) (flag : BitVec 32) : Decidable (Has w flag) := inferInstanceAs (Decidable (_ ≠ _))

section Flags

theorem valid_flag : ∀ i < 10, PTE_V.getLsbD i = (0x001#32).getLsbD i := by
  decide

theorem pteCreate_and {perm flag : BitVec 32} (p : Nat) (hflag : flag.toNat < 2 ^ 10) :
    pteCreate p perm &&& flag.setWidth 64 = ((0x001#32 ||| perm) &&& flag).setWidth 64 := by
  apply BitVec.eq_of_getLsbD_eq
  intro i hi
  rcases Nat.lt_or_ge i 10 with hlow | hhigh
  · have hword : i < 32 := by omega
    have hshift : i < PTE_PPN_SHIFT := hlow
    simp only [pteCreate, BitVec.getLsbD_and, BitVec.getLsbD_or, BitVec.getLsbD_setWidth,
      BitVec.getLsbD_signExtend, BitVec.getLsbD_shiftLeft, hi, hword, hshift, valid_flag i hlow,
      decide_true, if_true, Bool.not_true, Bool.and_false, Bool.false_and, Bool.true_and, Bool.false_or]
  · have hclear : flag.getLsbD i = false :=
      Nat.testBit_lt_two_pow (hflag.trans_le (Nat.pow_le_pow_right (by decide) hhigh))
    simp [hclear]

/-- The flags of an entry are those that `pte_create` was given. -/
theorem has_pteCreate {perm flag : BitVec 32} (p : Nat) (hflag : flag.toNat < 2 ^ 10) :
    Has (pteCreate p perm) flag ↔ (0x001#32 ||| perm) &&& flag ≠ 0 := by
  rw [Has, pteCreate_and p hflag, not_iff_not]
  constructor
  · intro hzero
    have hback := congrArg (BitVec.setWidth 32) hzero
    rwa [BitVec.setWidth_setWidth_of_le _ (by decide), BitVec.setWidth_eq] at hback
  · intro hzero
    rw [hzero]
    rfl

end Flags

/-- What the entry of a page has to be for the accesses that the VMA allows. -/
structure Allows (vma : Vma) (w : Word) : Prop where
  valid : Valid w
  leaf : Has w PTE_R ∨ Has w PTE_X
  user : Has w 0x010
  write : Has w PTE_W ↔ vma.vmFlags &&& VM_WRITE ≠ 0
  read : vma.vmFlags &&& VM_READ ≠ 0 ∨ vma.vmFlags &&& VM_WRITE ≠ 0 → Has w PTE_R
  exec : Has w PTE_X ↔ vma.vmFlags &&& VM_EXEC ≠ 0

/-- The entry that a page fault makes allows what the VMA does only where that is to read and to
write, but not to execute. -/
theorem allows_iff (vma : Vma) (p : Nat) :
    Allows vma (pteCreate p (0x001 ||| vmaPerm vma)) ↔
      vma.vmFlags &&& VM_WRITE ≠ 0 ∧ vma.vmFlags &&& VM_EXEC = 0 := by
  have hbit : ∀ flag : BitVec 32, flag.toNat < 2 ^ 10 →
      (Has (pteCreate p (0x001 ||| vmaPerm vma)) flag ↔
        (0x001#32 ||| (0x001 ||| vmaPerm vma)) &&& flag ≠ 0) :=
    fun flag hflag => has_pteCreate p hflag
  have hvalid : Valid (pteCreate p (0x001 ||| vmaPerm vma)) := valid_pteCreate _ _
  by_cases hwrite : vma.vmFlags &&& VM_WRITE ≠ 0
  · have hperm : vmaPerm vma = 0x017 := by
      rw [vmaPerm, if_pos hwrite]
      decide
    rw [hperm] at hbit hvalid ⊢
    have hR := (hbit PTE_R (by decide)).mpr (by decide)
    have hW := (hbit PTE_W (by decide)).mpr (by decide)
    have hU := (hbit 0x010 (by decide)).mpr (by decide)
    have hX : ¬Has (pteCreate p (0x001 ||| 0x017)) PTE_X := by
      rw [hbit PTE_X (by decide)]
      decide
    constructor
    · intro hallows
      exact ⟨hwrite, not_not.mp fun hexec => hX (hallows.exec.mpr hexec)⟩
    · rintro ⟨-, hexec⟩
      exact ⟨hvalid, .inl hR, hU, iff_of_true hW hwrite, fun _ => hR,
        iff_of_false hX (not_not.mpr hexec)⟩
  · have hperm : vmaPerm vma = 0x010 := by rw [vmaPerm, if_neg hwrite]
    rw [hperm] at hbit ⊢
    refine iff_of_false ?_ fun h => hwrite h.1
    intro hallows
    rcases hallows.leaf with hR | hX
    · rw [hbit PTE_R (by decide)] at hR
      exact hR (by decide)
    · rw [hbit PTE_X (by decide)] at hX
      exact hX (by decide)

section NewPages

variable {dirs pages : Finset Nat} {s s' : Swapping} {mm addr : Nat} {perm : BitVec 32} {vma : Vma}

/-- The queue of the swap manager is not in the frames. -/
theorem fifoMapSwappable_memory (m : Memory) (mm page : Nat) :
    Preserves (fun t : Swapping => t.memory = m) (fifoMapSwappable mm page) := by
  rw [fifoMapSwappable]
  refine Preserves.getState fun t => ?_
  split
  · exact Preserves.abort _
  · exact Preserves.modifyState fun _ ht => ht

theorem enqueue_memory (m : Memory) (check page la : Nat) (p : Prop) [Decidable p] :
    Preserves (fun t : Swapping => t.memory = m) (do
      fifoMapSwappable check page
      setPraVaddr page la
      ensure p
      return some page) := by
  refine (fifoMapSwappable_memory m check page).bind fun _ => ?_
  refine Preserves.bind (Preserves.modifyState fun _ ht => ht) fun _ => ?_
  exact Preserves.ensure_bind (Preserves.pure _)

/-- `pgdir_alloc_page` of the swap manager, where it returns a page. -/
theorem pgdirAllocPage_entry (h : Paged dirs s.memory) (hmm : mm ∈ dirs) {la : Nat} (hla : la < USERTOP)
    (hperm : perm.toNat < 2 ^ 10) (hnot : ¬Valid (pte s.memory mm la)) {page : Nat}
    (hrun : Swap.pgdirAllocPage mm la perm s = .ok (.ok (some page), s')) :
    ∃ p, Wrote dirs mm la (pteCreate p (0x001 ||| perm)) s.memory s'.memory := by
  rw [Swap.pgdirAllocPage] at hrun
  rcases bind_eq_ok_iff.mp hrun with ⟨o, t, halloc, hrest⟩ | ⟨e, _, he⟩
  · obtain ⟨m', hmemory, rfl⟩ := onPart_eq_ok halloc
    obtain ⟨_, ⟨hr, _⟩ | ⟨p, w, hr, rfl, hwrote, _⟩⟩ := pgdirAllocPage_of h hmm hla hperm hnot hmemory
    · cases hr
      cases hrest
    · cases hr
      refine ⟨p, ?_⟩
      have hmemory : s'.memory = m' := by
        change (getState >>= fun _ => _) _ = _ at hrest
        rw [getState_bind] at hrest
        cases hcheck : s.checkMmStruct with
        | none =>
            simp only [hcheck] at hrest
            cases hrest
            rfl
        | some check =>
            simp only [hcheck] at hrest
            exact enqueue_memory m' check p la _ _ _ _ rfl hrest
      rw [hmemory]
      exact hwrote
  · cases he

/-- The entry that a page fault makes for a page that had none. -/
theorem doPgfault_entry (h : Paged dirs s.memory) (hmm : mm ∈ dirs) (haddr : addr < USERTOP)
    (hzero : pte s.memory mm addr = 0) (hvma : findVma s mm addr = some vma)
    (hrun : doPgfault mm addr s = .ok (.ok (), s')) :
    ∃ p, pte s'.memory mm addr = pteCreate p (0x001 ||| vmaPerm vma) := by
  obtain ⟨pages, owner, howned⟩ := h.owned
  have hlt := roundDown_lt haddr
  rw [doPgfault, getState_bind, hvma] at hrun
  obtain ⟨at', m₁, owner₁, hget, howned₁, hextends, hfound⟩ := getPte_true howned hmm hlt
  have hsame := same_of_extends howned hextends
  have hget' : onMemory (getPte mm (roundDown addr PGSIZE) true) s =
      .ok (.ok at', { s with memory := m₁ }) := onPart_of hget
  change (onMemory (getPte mm (roundDown addr PGSIZE) true) >>= fun _ => _) s = _ at hrun
  rw [bind_of_ok hget'] at hrun
  cases at' with
  | none => cases hrun
  | some at' =>
      obtain ⟨q, i⟩ := at'
      have hempty : pte m₁ mm (roundDown addr PGSIZE) = 0 := by
        rw [hsame.pte mm hmm _ hlt, pte_roundDown, hzero]
      have hword : m₁.words q i = 0 := by rw [← pte_of_slot (hfound _ rfl), hempty]
      change (getState >>= fun _ => _) _ = _ at hrun
      rw [getState_bind, if_pos hword] at hrun
      have hnot : ¬Valid (pte m₁ mm (roundDown addr PGSIZE)) := by
        rw [hempty]
        exact not_valid_zero
      rcases bind_eq_ok_iff.mp hrun with ⟨o, t, halloc, hrest⟩ | ⟨e, _, he⟩
      · cases o with
        | none => cases hrest
        | some page =>
            cases hrest
            have hpaged : Paged dirs m₁ := h.same hsame ⟨_, _, howned₁⟩
            obtain ⟨p, hwrote⟩ := pgdirAllocPage_entry (s := { s with memory := m₁ }) hpaged hmm hlt
              (vmaPerm_lt vma) hnot halloc
            exact ⟨p, by rw [hwrote.pte mm hmm addr haddr, if_pos ⟨rfl, (page_roundDown addr).symm⟩]⟩
      · cases he

/-- A page that was not there can be accessed after the fault where its VMA is to be written, but
not to be executed. -/
theorem allows_of_doPgfault (h : Paged dirs s.memory) (hmm : mm ∈ dirs) (haddr : addr < USERTOP)
    (hzero : pte s.memory mm addr = 0) (hvma : findVma s mm addr = some vma)
    (hrun : doPgfault mm addr s = .ok (.ok (), s')) :
    Allows vma (pte s'.memory mm addr) ↔
      vma.vmFlags &&& VM_WRITE ≠ 0 ∧ vma.vmFlags &&& VM_EXEC = 0 := by
  obtain ⟨p, hentry⟩ := doPgfault_entry h hmm haddr hzero hvma hrun
  rw [hentry]
  exact allows_iff vma p

/-- One page of user memory, with the flags of its VMA. -/
def onePage (vmFlags : Nat) : Swapping :=
  { oneSpace.swapping with
    mmapList := fun _ => [⟨USERBASE, USERBASE + PGSIZE, vmFlags⟩] }

theorem paged_onePage (vmFlags : Nat) : Paged {1} (onePage vmFlags).memory :=
  paged_starts starts_oneSpace.memory

theorem pte_onePage (vmFlags : Nat) : pte (onePage vmFlags).memory 1 USERBASE = 0 :=
  pte_starts starts_oneSpace.memory (Finset.mem_singleton_self 1) (by decide)

theorem allows_of_doPgfault_written : ∃ s, doPgfault 1 USERBASE (onePage VM_WRITE) = .ok (.ok (), s) ∧
    Allows ⟨USERBASE, USERBASE + PGSIZE, VM_WRITE⟩ (pte s.memory 1 USERBASE) :=
  ⟨_, rfl, (allows_of_doPgfault (paged_onePage VM_WRITE) (Finset.mem_singleton_self 1) (by decide)
    (pte_onePage VM_WRITE) rfl rfl).mpr (by decide)⟩

/-- A page that is only to be read gets an entry that leads to a table. -/
theorem not_allows_readOnly : ∃ s, doPgfault 1 USERBASE (onePage VM_READ) = .ok (.ok (), s) ∧
    ¬Allows ⟨USERBASE, USERBASE + PGSIZE, VM_READ⟩ (pte s.memory 1 USERBASE) := by
  refine ⟨_, rfl, ?_⟩
  obtain ⟨p, hentry⟩ := doPgfault_entry (paged_onePage VM_READ) (Finset.mem_singleton_self 1)
    (by decide) (pte_onePage VM_READ) rfl rfl
  rw [hentry, allows_iff]
  decide

end NewPages

section ValidEntries

variable {dirs pages : Finset Nat} {owner : Nat → Role} {m m' : Memory} {s s' : Swapping}
  {d la q old page mm addr : Nat} {i : Index} {perm : BitVec 32} {vma : Vma}

/-- `page_insert` over the page of another frame. -/
theorem pageInsert_over (h : Owned m dirs pages owner) (hd : d ∈ dirs) (hla : la < USERTOP)
    (hslot : slot m d la = some (q, i)) (hold : next (pte m d la) = some old) (hne : old ≠ page)
    (perm : BitVec 32) : ∃ m', pageInsert d page la perm m = .ok (.ok (), m') ∧
      m'.words = Function.update m.words q
        (Function.update (m.words q) i (pteCreate page (0x001 ||| perm))) := by
  have hmem : old ∈ pages := h.page_of_pte hd hla hold
  have hnext : next (m.words q i) = some old := by rw [← pte_of_slot hslot, hold]
  have hvalid : Valid (m.words q i) := (next_eq_some.mp hnext).1
  let m₁ : Memory := { m with ref := Function.update m.ref page (m.ref page + 1) }
  have howned : Owned m₁ dirs pages owner := h.congr rfl rfl
  obtain ⟨m₂, hremove, hwords⟩ : ∃ m₂, pageRemovePte (q, i) m₁ = .ok (.ok (), m₂) ∧
      m₂.words = Function.update m.words q (Function.update (m.words q) i 0) :=
    ⟨_, PageCounts.pageRemovePte_eq howned hmem hnext, rfl⟩
  have hreplace : replaceEntry page (q, i) m₁ = .ok (.ok (), m₂) := by
    rw [replaceEntry, getState_bind, if_pos hvalid,
      bind_of_ok (PageCounts.pte2page_of howned hmem hnext m₁), if_neg hne, hremove]
  let words := Function.update m₂.words q
    (Function.update (m₂.words q) i (pteCreate page (0x001 ||| perm)))
  refine ⟨{ m₂ with words := words }, ?_, ?_⟩
  · rw [pageInsert, bind_of_ok (getPte_present h hd hla hslot true)]
    show (pageRefInc page >>= fun _ => _) m = _
    rw [pageRefInc, modifyState_bind]
    show (replaceEntry page (q, i) >>= fun _ => _) m₁ = _
    rw [bind_of_ok hreplace]
    rfl
  · simp only [words, hwords, Function.update_idem, Function.update_self]

/-- What `swapfs_read` does with any word: it panics, or it has a transfer made. -/
theorem swapfsRead_cases (entry : Word) (page : Nat) (s : Swapping) :
    swapfsRead entry page s = .error .panic ∨
      ∃ result m, swapfsRead entry page s =
          .ok (.ok result, { s with
            transfers := s.transfers + 1
            memory := m }) ∧
        m.free = s.memory.free ∧ ∀ p, p ≠ page → m.words p = s.memory.words p := by
  rw [swapfsRead]
  by_cases hoffset : 0 < (entry >>> 8).toNat ∧ (entry >>> 8).toNat < s.maxSwapOffset.val
  · have hread : swapOffset entry s = .ok (.ok (entry >>> 8).toNat, s) := by
      rw [swapOffset, getState_bind]
      exact ensure_bind_of hoffset _ s
    rw [bind_of_ok hread, bind_of_ok (ideSecs_of hoffset.2)]
    refine .inr ?_
    cases s.fails s.transfers with
    | true => exact ⟨_, _, rfl, rfl, fun _ _ => rfl⟩
    | false => exact ⟨_, _, rfl, rfl, fun p hp => Function.update_of_ne hp _ _⟩
  · refine .inl (bind_of_abort ?_)
    rw [swapOffset, getState_bind]
    exact ensure_bind_of_not hoffset _ s

/-- `swap_in`, whatever the entry is. -/
theorem swapIn_cases (h : Owned s.memory dirs pages owner) (hmm : mm ∈ dirs) (hla : la < USERTOP)
    (hslot : slot s.memory mm la = some (q, i)) :
    swapIn mm la s = .error .panic ∨
      ∃ page m pages' owner', swapIn mm la s = .ok (.ok page, { s with
            transfers := s.transfers + 1
            memory := m }) ∧
        s.memory.free page = true ∧ page < npage ∧ Owned m dirs pages' owner' ∧
        ∀ d ∈ dirs, ∀ a < USERTOP, pte m d a = pte s.memory d a := by
  rcases allocPage_cases s.memory with ⟨grants, hnone⟩ | ⟨page, grants, hfree, hsome⟩
  · refine .inl ?_
    rw [swapIn, bind_of_ok (show onMemory allocPage s = .ok (.ok none, _) from onPart_of hnone)]
    rfl
  · obtain ⟨howned₁, -⟩ := handed_out h hfree grants
    let m₁ : Memory := { s.memory with
      free := Function.update s.memory.free page false
      grants := grants }
    let s₁ : Swapping := { s with memory := m₁ }
    have hfound : onMemory (getPte mm la false) s₁ = .ok (.ok (some (q, i)), s₁) :=
      onPart_of (s := s₁) (getPte_present howned₁ hmm hla hslot false)
    have hrun : swapIn mm la s =
        (swapfsRead (s.memory.words q i) page >>= fun _ => pure page) s₁ := by
      rw [swapIn, bind_of_ok (show onMemory allocPage s = .ok (.ok (some page), s₁) from
        onPart_of hsome)]
      show (onMemory (getPte mm la false) >>= fun _ => _) s₁ = _
      rw [bind_of_ok hfound]
      rfl
    rcases swapfsRead_cases (s.memory.words q i) page s₁ with hpanic | ⟨result, m, hread, hm, hwords⟩
    · refine .inl ?_
      rw [hrun, bind_of_abort hpanic]
    · have htables : ∀ q d path, Function.update owner page .page q = .table d path →
          m.words q = m₁.words q := by
        intro q d path hq
        refine hwords q ?_
        rintro rfl
        rw [Function.update_self] at hq
        cases hq
      have hbound : page < npage := howned₁.bound page (by rw [Function.update_self]; simp)
      refine .inr ⟨page, m, _, _, ?_, hfree, hbound, owned_congr howned₁ htables hm, ?_⟩
      · rw [hrun, bind_of_ok hread]
        rfl
      · intro d hd a ha
        show _ = pte m₁ d a
        exact pte_congr_tables howned₁ htables hd ha

/-- What a page fault does at an address with a valid entry: it panics, or the page of another frame
is mapped there after a transfer. -/
theorem doPgfault_valid (h : Owned s.memory dirs pages owner) (hmm : mm ∈ dirs) (haddr : addr < USERTOP)
    (hvma : findVma s mm addr = some vma) (hold : next (pte s.memory mm addr) = some old) :
    doPgfault mm addr s = .error .panic ∨
      ∃ s' page, doPgfault mm addr s = .ok (.ok (), s') ∧ s'.transfers = s.transfers + 1 ∧
        page ≠ old ∧ next (pte s'.memory mm addr) = some page := by
  set la := roundDown addr PGSIZE with hla
  have hlt : la < USERTOP := roundDown_lt haddr
  have hold' : next (pte s.memory mm la) = some old := by rw [hla, pte_roundDown, hold]
  have hnonzero : pte s.memory mm la ≠ 0 := by
    intro hzero
    rw [hzero, next_of_not not_valid_zero] at hold'
    cases hold'
  obtain ⟨⟨q, i⟩, hslot⟩ := slot_of_entry hnonzero
  have hword : s.memory.words q i ≠ 0 := by rwa [← pte_of_slot hslot]
  have hfound : onMemory (getPte mm la true) s = .ok (.ok (some (q, i)), s) :=
    onPart_of (getPte_present h hmm hlt hslot true)
  have hrun : doPgfault mm addr s = (swapIn mm la >>= fun page => do
      let _ ← attempt (onMemory (pageInsert mm page la (vmaPerm vma)))
      fifoMapSwappable mm page
      setPraVaddr page la) s := by
    rw [doPgfault, getState_bind, hvma]
    show (onMemory (getPte mm la true) >>= fun _ => _) s = _
    rw [bind_of_ok hfound]
    show (getState >>= fun _ => _) s = _
    rw [getState_bind, if_neg hword]
  rcases swapIn_cases h hmm hlt hslot with hpanic | ⟨page, m, pages', owner', hin, hfree, hbound, howned, hpte⟩
  · refine .inl ?_
    rw [hrun, bind_of_abort hpanic]
  · have hheld : old ∈ pages := h.page_of_pte hmm hlt hold'
    have hne : old ≠ page := by
      rintro rfl
      rw [h.free_of_page hheld] at hfree
      cases hfree
    have hold₁ : next (pte m mm la) = some old := by rw [hpte mm hmm la hlt, hold']
    have hnonzero₁ : pte m mm la ≠ 0 := by rwa [hpte mm hmm la hlt]
    obtain ⟨⟨q', i'⟩, hslot₁⟩ := slot_of_entry hnonzero₁
    obtain ⟨m', hinsert, hwords⟩ := pageInsert_over howned hmm hlt hslot₁ hold₁ hne
      (vmaPerm vma)
    let s₂ : Swapping := { s with
      transfers := s.transfers + 1
      memory := m' }
    have hinsert' : onMemory (pageInsert mm page la (vmaPerm vma)) { s with
        transfers := s.transfers + 1
        memory := m } = .ok (.ok (), s₂) := onPart_of hinsert
    have hrun₂ : doPgfault mm addr s = (fifoMapSwappable mm page >>= fun _ => setPraVaddr page la) s₂ := by
      rw [hrun, bind_of_ok hin, attempt_bind_of_ok hinsert']
    have hentry : next (pte m' mm addr) = some page := by
      rw [howned.pte_entry hmm hlt hslot₁ hwords hmm haddr, if_pos ⟨rfl, (page_roundDown addr).symm⟩]
      exact UserImages.next_pteCreate hbound (vmaPerm_lt vma)
    cases hpriv : s.smPriv mm with
    | none =>
        have hpanic : fifoMapSwappable mm page s₂ = .error .panic := by
          rw [fifoMapSwappable, getState_bind]
          simp only [s₂, hpriv]
          rfl
        refine .inl ?_
        rw [hrun₂, bind_of_abort hpanic]
    | some head =>
        have hqueue : fifoMapSwappable mm page s₂ =
            .ok (.ok (), { s₂ with links := listAddBefore s.links head (some page) }) := by
          rw [fifoMapSwappable, getState_bind]
          simp only [s₂, hpriv]
          rfl
        let s₃ : Swapping := { s₂ with
          links := listAddBefore s.links head (some page)
          praVaddr := Function.update s.praVaddr page la }
        have hend : doPgfault mm addr s = .ok (.ok (), s₃) := by
          rw [hrun₂, bind_of_ok hqueue]
          rfl
        exact .inr ⟨s₃, page, hend, rfl, hne.symm, hentry⟩

/-- What a page fault should do at an address with a valid entry. -/
structure KeepsMapping (dirs : Finset Nat) (s : Swapping) (mm addr : Nat) (vma : Vma)
    (r : Except Errno Unit) (s' : Swapping) : Prop where
  kept : r = .ok () → next (pte s'.memory mm addr) = next (pte s.memory mm addr) ∧
    (∀ p, next (pte s.memory mm addr) = some p → s'.memory.words p = s.memory.words p) ∧
    Allows vma (pte s'.memory mm addr)
  noTransfer : s'.transfers = s.transfers
  others : ∀ d ∈ dirs, ∀ la < USERTOP, ¬(d = mm ∧ la / PGSIZE = addr / PGSIZE) →
    pte s'.memory d la = pte s.memory d la ∧
      ∀ p, next (pte s.memory d la) = some p → s'.memory.words p = s.memory.words p

/-- A valid entry is always taken for one of the swap area. -/
theorem not_keepsMapping (h : Owned s.memory dirs pages owner) (hmm : mm ∈ dirs)
    (haddr : addr < USERTOP) (hvma : findVma s mm addr = some vma)
    (hvalid : Valid (pte s.memory mm addr)) :
    ¬∃ r s', doPgfault mm addr s = .ok (r, s') ∧ KeepsMapping dirs s mm addr vma r s' := by
  rintro ⟨r, s', hrun, hkeeps⟩
  have hold := next_of_valid hvalid
  rcases doPgfault_valid h hmm haddr hvma hold with hpanic | ⟨s₁, page, hrun₁, -, hne, hnext⟩
  · rw [hpanic] at hrun
    cases hrun
  · cases hrun₁.symm.trans hrun
    obtain ⟨hsame, -⟩ := hkeeps.kept rfl
    rw [hnext, hold] at hsame
    exact hne (Option.some.inj hsame)

/-- The state after a read of a page that is only to be read. -/
theorem readOnly_fault : ∃ s, doPgfault 1 USERBASE (onePage VM_READ) = .ok (.ok (), s) ∧
    findVma s 1 USERBASE = some ⟨USERBASE, USERBASE + PGSIZE, VM_READ⟩ ∧
    doPgfault 1 USERBASE s = .error .panic :=
  ⟨_, rfl, rfl, rfl⟩

theorem valid_readOnly (hrun : doPgfault 1 USERBASE (onePage VM_READ) = .ok (.ok (), s)) :
    Valid (pte s.memory 1 USERBASE) := by
  obtain ⟨p, hentry⟩ := doPgfault_entry (paged_onePage VM_READ) (Finset.mem_singleton_self 1)
    (by decide) (pte_onePage VM_READ) rfl hrun
  rw [hentry]
  exact valid_pteCreate _ _

theorem owned_readOnly (hrun : doPgfault 1 USERBASE (onePage VM_READ) = .ok (.ok (), s)) :
    ∃ pages owner, Owned s.memory {1} pages owner := by
  have hcheck : ∀ check, (onePage VM_READ).checkMmStruct = some check →
      (onePage VM_READ).smPriv check = some none := fun _ _ => rfl
  rcases doPgfault_cases (paged_onePage VM_READ) (Finset.mem_singleton_self 1) (by decide)
    (.inl (pte_onePage VM_READ)) (fun _ => rfl) rfl hcheck hrun with ⟨hpaged, -⟩ | ⟨page, hmapped, -⟩
  · exact hpaged.owned
  · exact hmapped.paged.owned

theorem not_keepsMapping_readOnly : ∃ s, doPgfault 1 USERBASE (onePage VM_READ) = .ok (.ok (), s) ∧
    ¬∃ r s', doPgfault 1 USERBASE s = .ok (r, s') ∧
      KeepsMapping {1} s 1 USERBASE ⟨USERBASE, USERBASE + PGSIZE, VM_READ⟩ r s' := by
  obtain ⟨s, hrun, hvma, -⟩ := readOnly_fault
  obtain ⟨pages, owner, howned⟩ := owned_readOnly hrun
  exact ⟨s, hrun, not_keepsMapping howned (Finset.mem_singleton_self 1) (by decide) hvma
    (valid_readOnly hrun)⟩

/-- The next read of that page faults on its valid entry, and ends in a panic of `swap_offset`. -/
theorem doPgfault_twice_panics : ∃ s, doPgfault 1 USERBASE (onePage VM_READ) = .ok (.ok (), s) ∧
    Valid (pte s.memory 1 USERBASE) ∧ doPgfault 1 USERBASE s = .error .panic ∧
    ¬∃ r s', doPgfault 1 USERBASE s = .ok (r, s') ∧
      KeepsMapping {1} s 1 USERBASE ⟨USERBASE, USERBASE + PGSIZE, VM_READ⟩ r s' := by
  obtain ⟨s, hrun, -, hpanic⟩ := readOnly_fault
  refine ⟨s, hrun, valid_readOnly hrun, hpanic, ?_⟩
  rintro ⟨r, s', hagain, -⟩
  rw [hpanic] at hagain
  cases hagain

end ValidEntries

end Ucore.FaultEntries
