import Ucore.PageBytes
import Ucore.SwapSteps

/-! What is in the memory of the address spaces, over any calls of `swap_out`, page faults, and
writes of user programs. -/

namespace Ucore.SwapContents

open Relation
open Ucore.Errors
open Ucore.Panic
open Ucore.KernelRoutine
open Ucore.Interleaving
open Ucore.ListHeader
open Ucore.DefaultPmm (PGSIZE)
open Ucore.PageTables
open Ucore.PageOwners
open Ucore.PageCopies
open Ucore.PageBytes
open Ucore.AddressSpaces (Vma roundDown)
open Ucore.Swap
open Ucore.SwapSteps

variable {dirs pages : Finset Nat} {owner : Nat → Role} {m m' m₁ : Memory}
  {s s' : Swapping} {d la la' mm addr page p : Nat} {w : Word} {perm : BitVec 32} {vma : Vma}

section Faults

theorem roundDown_eq (a n : Nat) : roundDown a n = a / n * n := by
  have hsum := Nat.div_add_mod' a n
  rw [roundDown]
  omega

theorem page_roundDown (addr : Nat) : roundDown addr PGSIZE / PGSIZE = addr / PGSIZE := by
  rw [roundDown_eq]
  exact Nat.mul_div_cancel _ (by decide)

theorem roundDown_lt (haddr : addr < USERTOP) : roundDown addr PGSIZE < USERTOP :=
  lt_of_le_of_lt (Nat.sub_le _ _) haddr

theorem pte_roundDown (m : Memory) (d addr : Nat) :
    pte m d (roundDown addr PGSIZE) = pte m d addr := by
  rw [roundDown_eq, PageCounts.pte_page]

theorem Wrote.congr (h : Wrote dirs d la w m m') (hpage : la' / PGSIZE = la / PGSIZE) :
    Wrote dirs d la' w m m' := by
  refine ⟨?_, h.words⟩
  rw [hpage]
  exact h.pte

theorem vmaPerm_lt (vma : Vma) : (vmaPerm vma).toNat < 2 ^ 10 := by
  rw [vmaPerm]
  split
  · decide
  · decide

/-- `get_pte` finds an entry that is there, whether it may make tables or not. -/
theorem getPte_present (h : Owned m dirs pages owner) (hd : d ∈ dirs) (hla : la < USERTOP)
    {at' : Nat × Index} (hslot : slot m d la = some at') (create : Bool) :
    getPte d la create m = .ok (.ok (some at'), m) := by
  have hroot := h.root d hd
  have huser := user_indices hla
  rw [slot, indices, RadixTables.locate_cons (by simp)] at hslot
  obtain ⟨pd0, hfirst, hslot⟩ := Option.bind_eq_some_iff.mp hslot
  rw [RadixTables.locate_cons (by simp)] at hslot
  obtain ⟨pt, hsecond, hslot⟩ := Option.bind_eq_some_iff.mp hslot
  cases hslot
  obtain ⟨hvalid, rfl⟩ := next_eq_some.mp hfirst
  obtain ⟨hvalid', rfl⟩ := next_eq_some.mp hsecond
  have hpd0 := h.child_of hroot (by simp) huser hvalid
  rw [getPte, bind_of_ok (childTable_valid h hroot (by simp) huser hvalid create)]
  show (childTable _ (PDX0 la) create >>= fun _ => _) m = _
  rw [bind_of_ok (childTable_valid h hpd0 (by simp) huser hvalid' create)]
  rfl

theorem pageInsert_present (h : Owned m dirs pages owner) (hd : d ∈ dirs) (hla : la < USERTOP)
    {at' : Nat × Index} (hslot : slot m d la = some at') (hnot : ¬Valid (pte m d la)) (page : Nat)
    (perm : BitVec 32) : ∃ m', pageInsert d page la perm m = .ok (.ok (), m') := by
  obtain ⟨q, i⟩ := at'
  have hempty : ¬Valid (m.words q i) := by rwa [← pte_of_slot hslot]
  let m₂ : Memory := { m with ref := Function.update m.ref page (m.ref page + 1) }
  have hreplace : replaceEntry page (q, i) m₂ = .ok (.ok (), m₂) := by
    rw [replaceEntry, getState_bind, if_neg hempty]
    rfl
  rw [pageInsert, bind_of_ok (getPte_present h hd hla hslot true)]
  show ∃ m', (pageRefInc page >>= fun _ => _) m = _
  rw [pageRefInc, modifyState_bind, bind_of_ok hreplace]
  exact ⟨_, rfl⟩

theorem slot_of_entry (hne : pte m d la ≠ 0) : ∃ at', slot m d la = some at' := by
  cases hslot : slot m d la with
  | none => exact absurd (pte_of_none hslot) hne
  | some at' => exact ⟨at', rfl⟩

/-- A page was mapped, and registered with the swap manager if it has an address space to register
pages for. -/
structure Mapped (dirs : Finset Nat) (mm addr page : Nat) (s s' : Swapping) : Prop where
  paged : Paged dirs s'.memory
  wrote : ∃ w, next w = some page ∧ Wrote dirs mm addr w s.memory s'.memory
  fresh : Unmapped dirs s.memory page
  area : s'.area = s.area
  queued : (s'.links = s.links ∧ Kept s s') ∨
    (s'.links = listAddBefore s.links none (some page) ∧
      Kept { s with praVaddr := Function.update s.praVaddr page (roundDown addr PGSIZE) } s')

/-- A page that was read back is mapped where it was. -/
theorem doPgfault_back (h : Paged dirs s.memory) (hmm : mm ∈ dirs) (haddr : addr < USERTOP)
    (hentry : pte s.memory mm addr = swapEntry addr) (hfits : Fits s addr)
    (hworks : s.fails s.transfers = false) (hpriv : s.smPriv mm = some none)
    (hvma : findVma s mm addr = some vma)
    (halloc : allocPage s.memory = .ok (.ok (some page), m₁)) :
    ∃ s', doPgfault mm addr s = .ok (.ok (), s') ∧ Mapped dirs mm addr page s s' ∧
      s'.memory.words page = s.area (addr / PGSIZE + 1) := by
  obtain ⟨pages, owner, howned⟩ := h.owned
  set la := roundDown addr PGSIZE with hla
  have hlt : la < USERTOP := roundDown_lt haddr
  have hpage : la / PGSIZE = addr / PGSIZE := page_roundDown addr
  have hentry' : pte s.memory mm la = swapEntry addr := by rw [hla, pte_roundDown, hentry]
  have hnot : ¬Valid (swapEntry addr) := not_valid_swapEntry haddr
  have hnonzero : pte s.memory mm la ≠ 0 := by
    rw [hentry']
    exact swapEntry_ne_zero haddr
  obtain ⟨⟨q, i⟩, hslot⟩ := slot_of_entry hnonzero
  have hword : s.memory.words q i = swapEntry addr := by rw [← pte_of_slot hslot, hentry']
  rcases allocPage_cases s.memory with ⟨grants, hnone⟩ | ⟨page', grants, hfree, hsome⟩
  · rw [hnone] at halloc
    cases halloc
  · rw [hsome] at halloc
    cases halloc
    obtain ⟨howned₁, hunmapped⟩ := handed_out howned hfree grants
    let m₁ : Memory := { s.memory with
      free := Function.update s.memory.free page false
      grants := grants }
    let m₂ : Memory := { m₁ with
      words := Function.update s.memory.words page (s.area (addr / PGSIZE + 1)) }
    have htables : ∀ q d path, Function.update owner page .page q = .table d path →
        m₂.words q = m₁.words q := by
      intro q d path hq
      refine Function.update_of_ne ?_ _ _
      rintro rfl
      rw [Function.update_self] at hq
      cases hq
    have howned₂ : Owned m₂ dirs (insert page pages) (Function.update owner page .page) :=
      owned_congr howned₁ htables rfl
    have hsame : Same dirs s.memory m₂ := by
      refine ⟨fun d hd la hla => ?_, fun d hd la hla p hp => ?_⟩
      · show pte m₂ d la = pte m₁ d la
        exact pte_congr_tables howned₁ htables hd hla
      · refine Function.update_of_ne ?_ _ _
        rintro rfl
        exact hunmapped d hd la hla hp
    have hentry₂ : pte m₂ mm la = swapEntry addr := by rw [hsame.pte mm hmm la hlt, hentry']
    have hnonzero₂ : pte m₂ mm la ≠ 0 := by
      rw [hentry₂]
      exact swapEntry_ne_zero haddr
    obtain ⟨at₂, hslot₂⟩ := slot_of_entry hnonzero₂
    obtain ⟨m₃, hinsert⟩ := pageInsert_present howned₂ hmm hlt hslot₂
      (by rwa [hentry₂]) page (vmaPerm vma)
    obtain ⟨howned₃, hwrote, hnext, hwords⟩ := pageInsert_handedOut howned₂ hmm hlt
      (Finset.mem_insert_self _ _) (vmaPerm_lt vma) (by rwa [hentry₂]) hinsert
    have hwrote' := hsame.wrote hwrote
    have hpaged : Paged dirs m₃ := by
      refine h.wrote hwrote' (fun p hp => ?_) ⟨_, howned₃⟩
      rw [hnext] at hp
      cases hp
      exact hunmapped
    let s₁ : Swapping := { s with memory := m₁ }
    let s₂ : Swapping := { s with
      transfers := s.transfers + 1
      memory := m₂ }
    have hfound : onMemory (getPte mm la true) s = .ok (.ok (some (q, i)), s) :=
      onPart_of (getPte_present howned hmm hlt hslot true)
    have hread : swapfsRead (swapEntry addr) page s₁ = .ok (.ok 0, s₂) :=
      swapfsRead_of haddr hfits hworks
    have hin : swapIn mm la s = .ok (.ok page, s₂) := by
      have hfound₁ : onMemory (getPte mm la false) s₁ = .ok (.ok (some (q, i)), s₁) :=
        onPart_of (s := s₁) (getPte_present howned₁ hmm hlt hslot false)
      rw [swapIn, bind_of_ok (show onMemory allocPage s = .ok (.ok (some page), s₁) from
        onPart_of hsome)]
      show (onMemory (getPte mm la false) >>= fun _ => _) s₁ = _
      rw [bind_of_ok hfound₁]
      show (swapfsRead (s.memory.words q i) page >>= fun _ => _) s₁ = _
      rw [hword, bind_of_ok hread]
      rfl
    have hmapped : onMemory (pageInsert mm page la (vmaPerm vma)) s₂ =
        .ok (.ok (), { s₂ with memory := m₃ }) := onPart_of (s := s₂) hinsert
    refine ⟨{ s₂ with
      memory := m₃
      links := listAddBefore s.links none (some page)
      praVaddr := Function.update s.praVaddr page la }, ?_,
      ⟨hpaged, ⟨_, hnext, Wrote.congr hwrote' hpage.symm⟩, hunmapped, rfl,
        Or.inr ⟨rfl, rfl, rfl, rfl, rfl, rfl, rfl⟩⟩, ?_⟩
    · rw [doPgfault, getState_bind, hvma]
      show (onMemory (getPte mm la true) >>= fun _ => _) s = _
      rw [bind_of_ok hfound]
      show (getState >>= fun _ => _) s = _
      rw [getState_bind, if_neg (by rw [hword]; exact swapEntry_ne_zero haddr)]
      show (swapIn mm la >>= fun _ => _) s = _
      rw [bind_of_ok hin, attempt_bind_of_ok hmapped,
        bind_of_ok (fifoMapSwappable_of (s := { s₂ with memory := m₃ }) hpriv)]
      rfl
    · rw [hwords]
      exact Function.update_self _ _ _

/-- `pgdir_alloc_page` of the swap manager, where nothing was mapped. -/
theorem pgdirAllocPage_fresh (h : Paged dirs s.memory) (hmm : mm ∈ dirs) (haddr : addr < USERTOP)
    (hperm : perm.toNat < 2 ^ 10) (hnot : ¬Valid (pte s.memory mm addr))
    (hcheck : ∀ check, s.checkMmStruct = some check → s.smPriv check = some none)
    {r : Except Errno (Option Nat)}
    (hrun : Swap.pgdirAllocPage mm (roundDown addr PGSIZE) perm s = .ok (r, s')) :
    (Paged dirs s'.memory ∧ Same dirs s.memory s'.memory ∧ s'.links = s.links ∧
      s'.area = s.area ∧ Kept s s') ∨ ∃ page, Mapped dirs mm addr page s s' := by
  have hpage := page_roundDown addr
  rw [← pte_roundDown] at hnot
  rw [Swap.pgdirAllocPage] at hrun
  rcases bind_eq_ok_iff.mp hrun with ⟨a, t, halloc, hrest⟩ | ⟨e, halloc, _⟩
  · obtain ⟨m', hmemory, ht⟩ := onPart_eq_ok halloc
    have hkept : Kept s t := by
      rw [ht]
      exact ⟨rfl, rfl, rfl, rfl, rfl, rfl⟩
    have hm : t.memory = m' := by rw [ht]
    have hlinks : t.links = s.links := by rw [ht]
    have harea : t.area = s.area := by rw [ht]
    obtain ⟨hpaged, ⟨hr, hsame⟩ | ⟨page, w, hr, _, hwrote, hnext, hfresh⟩⟩ :=
      pgdirAllocPage_of h hmm (roundDown_lt haddr) hperm hnot hmemory
    · cases hr
      cases hrest
      rw [← hm] at hpaged hsame
      exact Or.inl ⟨hpaged, hsame, hlinks, harea, hkept⟩
    · cases hr
      have hwrote' := Wrote.congr hwrote hpage.symm
      rw [← hm] at hpaged hwrote'
      change (getState >>= fun _ => _) _ = _ at hrest
      rw [getState_bind] at hrest
      refine Or.inr ⟨page, ?_⟩
      cases hc : t.checkMmStruct with
      | none =>
          simp only [hc] at hrest
          cases hrest
          exact ⟨hpaged, ⟨w, hnext, hwrote'⟩, hfresh, harea, Or.inl ⟨hlinks, hkept⟩⟩
      | some check =>
          simp only [hc] at hrest
          have hpriv : t.smPriv check = some none := by
            rw [hkept.smPriv]
            exact hcheck check (hkept.checkMmStruct.symm.trans hc)
          rw [bind_of_ok (fifoMapSwappable_of hpriv), setPraVaddr, modifyState_bind] at hrest
          have hsame : s' = { t with
              links := listAddBefore t.links none (some page)
              praVaddr := Function.update t.praVaddr page (roundDown addr PGSIZE) } := by
            rcases bind_eq_ok_iff.mp hrest with ⟨_, t, hensure, hlast⟩ | ⟨_, hensure, _⟩
            · cases hlast
              exact ensure_same hensure
            · exact ensure_same hensure
          subst hsame
          refine ⟨hpaged, ⟨w, hnext, hwrote'⟩, hfresh, harea, Or.inr ⟨?_, ?_⟩⟩
          · rw [← hlinks]
          · exact ⟨by rw [← hkept.praVaddr], hkept.smPriv, hkept.mmapList, hkept.checkMmStruct,
              hkept.maxSwapOffset, hkept.fails⟩
  · obtain ⟨m', hmemory, rfl⟩ := onPart_eq_ok halloc
    obtain ⟨hpaged, ⟨hr, _⟩ | ⟨_, _, hr, _⟩⟩ :=
      pgdirAllocPage_of h hmm (roundDown_lt haddr) hperm hnot hmemory
    · cases hr
    · cases hr

/-- What a page fault does where no page is mapped. -/
theorem doPgfault_cases (h : Paged dirs s.memory) (hmm : mm ∈ dirs) (haddr : addr < USERTOP)
    (hentry : pte s.memory mm addr = 0 ∨
      pte s.memory mm addr = swapEntry addr ∧ Fits s addr)
    (hworks : ∀ k, s.fails k = false) (hpriv : s.smPriv mm = some none)
    (hcheck : ∀ check, s.checkMmStruct = some check → s.smPriv check = some none)
    {r : Except Errno Unit} (hrun : doPgfault mm addr s = .ok (r, s')) :
    (Paged dirs s'.memory ∧ Same dirs s.memory s'.memory ∧ s'.links = s.links ∧
      s'.area = s.area ∧ Kept s s') ∨
    ∃ page, Mapped dirs mm addr page s s' ∧ (pte s.memory mm addr = 0 ∨
      s'.memory.words page = s.area (addr / PGSIZE + 1)) := by
  obtain ⟨pages, owner, howned⟩ := h.owned
  have hlt := roundDown_lt haddr
  cases hvma : findVma s mm addr with
  | none =>
      rw [doPgfault, getState_bind, hvma] at hrun
      cases hrun
      exact Or.inl ⟨h, Same.refl dirs _, rfl, rfl, Kept.refl s⟩
  | some vma =>
      rcases hentry with hzero | ⟨hswapped, hfits⟩
      · rw [doPgfault, getState_bind, hvma] at hrun
        obtain ⟨at', m₁, owner₁, hget, howned₁, hextends, hfound⟩ := getPte_true howned hmm hlt
        have hsame := same_of_extends howned hextends
        have hpaged₁ : Paged dirs m₁ := h.same hsame ⟨_, _, howned₁⟩
        have hget' : onMemory (getPte mm (roundDown addr PGSIZE) true) s =
            .ok (.ok at', { s with memory := m₁ }) := onPart_of hget
        change (onMemory (getPte mm (roundDown addr PGSIZE) true) >>= fun _ => _) s = _ at hrun
        rw [bind_of_ok hget'] at hrun
        cases at' with
        | none =>
            cases hrun
            exact Or.inl ⟨hpaged₁, hsame, rfl, rfl, rfl, rfl, rfl, rfl, rfl, rfl⟩
        | some at' =>
            obtain ⟨q, i⟩ := at'
            have hempty : pte m₁ mm addr = 0 := by rw [hsame.pte mm hmm addr haddr, hzero]
            have hword : m₁.words q i = 0 := by
              rw [← pte_of_slot (hfound _ rfl), pte_roundDown, hempty]
            change (getState >>= fun _ => _) _ = _ at hrun
            rw [getState_bind, if_pos hword] at hrun
            have hnot : ¬Valid (pte m₁ mm addr) := by
              rw [hempty]
              exact not_valid_zero
            have hfresh : ∀ {r : Except Errno (Option Nat)} {t : Swapping},
                Swap.pgdirAllocPage mm (roundDown addr PGSIZE) (vmaPerm vma)
                  { s with memory := m₁ } = .ok (r, t) →
                (Paged dirs t.memory ∧ Same dirs s.memory t.memory ∧ t.links = s.links ∧
                  t.area = s.area ∧ Kept s t) ∨ ∃ page, Mapped dirs mm addr page s t := by
              intro r t halloc
              rcases pgdirAllocPage_fresh (s := { s with memory := m₁ }) hpaged₁ hmm haddr
                (vmaPerm_lt vma) hnot hcheck halloc with
                ⟨hpaged, hsame₂, hlinks, harea, hkept⟩ | ⟨page, hmapped⟩
              · exact Or.inl ⟨hpaged, hsame.trans hsame₂, hlinks, harea,
                  hkept.praVaddr, hkept.smPriv, hkept.mmapList, hkept.checkMmStruct,
                  hkept.maxSwapOffset, hkept.fails⟩
              · obtain ⟨hpaged, ⟨w, hnext, hwrote⟩, hfresh, harea, hqueued⟩ := hmapped
                refine Or.inr ⟨page, hpaged, ⟨w, hnext, hsame.wrote hwrote⟩,
                  hsame.unmapped.mp hfresh, harea, hqueued.imp ?_ ?_⟩
                · rintro ⟨hlinks, hkept⟩
                  exact ⟨hlinks, hkept.praVaddr, hkept.smPriv, hkept.mmapList,
                    hkept.checkMmStruct, hkept.maxSwapOffset, hkept.fails⟩
                · rintro ⟨hlinks, hkept⟩
                  exact ⟨hlinks, hkept.praVaddr, hkept.smPriv, hkept.mmapList,
                    hkept.checkMmStruct, hkept.maxSwapOffset, hkept.fails⟩
            rcases bind_eq_ok_iff.mp hrun with ⟨a, t, halloc, hrest⟩ | ⟨e, halloc, _⟩
            · have hend : s' = t := by
                cases a with
                | none =>
                    cases hrest
                    rfl
                | some _ =>
                    cases hrest
                    rfl
              subst hend
              exact (hfresh halloc).imp id fun ⟨page, hmapped⟩ => ⟨page, hmapped, Or.inl hzero⟩
            · exact (hfresh halloc).imp id fun ⟨page, hmapped⟩ => ⟨page, hmapped, Or.inl hzero⟩
      · rcases allocPage_cases s.memory with ⟨grants, hnone⟩ | ⟨page, grants, _, hsome⟩
        · exfalso
          have hnonzero : pte s.memory mm (roundDown addr PGSIZE) ≠ 0 := by
            rw [pte_roundDown, hswapped]
            exact swapEntry_ne_zero haddr
          obtain ⟨⟨q, i⟩, hslot⟩ := slot_of_entry hnonzero
          have hword : s.memory.words q i = swapEntry addr := by
            rw [← pte_of_slot hslot, pte_roundDown, hswapped]
          have hfound : onMemory (getPte mm (roundDown addr PGSIZE) true) s =
              .ok (.ok (some (q, i)), s) := onPart_of (getPte_present howned hmm hlt hslot true)
          have hin : swapIn mm (roundDown addr PGSIZE) s = .error .panic := by
            rw [swapIn, bind_of_ok (show onMemory allocPage s = .ok (.ok none, _) from
              onPart_of hnone)]
            rfl
          rw [doPgfault, getState_bind, hvma] at hrun
          change (onMemory (getPte mm (roundDown addr PGSIZE) true) >>= fun _ => _) s = _ at hrun
          rw [bind_of_ok hfound] at hrun
          change (getState >>= fun _ => _) s = _ at hrun
          rw [getState_bind, if_neg (by rw [hword]; exact swapEntry_ne_zero haddr),
            bind_of_abort hin] at hrun
          cases hrun
        · obtain ⟨t, hback, hmapped, hwords⟩ := doPgfault_back h hmm haddr hswapped hfits
            (hworks _) hpriv hvma hsome
          cases hback.symm.trans hrun
          exact Or.inr ⟨page, hmapped, Or.inr hwords⟩

end Faults

section Runs

/-- A byte is stored through an address space. -/
def storeByte (mm la : Nat) (b : BitVec 8) : Routine Swapping Unit := do
  let s ← getState
  match next (pte s.memory mm la) with
  | none => fail .eFault
  | some page => onMemory (setFrame page (setByte (s.memory.words page) la b))

inductive Op where
  | fault (mm addr : Nat)
  | store (mm la : Nat) (b : BitVec 8)
  | swapOut (mm n : Nat)

def perform : Op → Routine Swapping Unit
  | .fault mm addr => doPgfault mm addr
  | .store mm la b => storeByte mm la b
  | .swapOut mm n => do
      let _ ← swapOut mm n 0
      return ()

/-- The bytes that were stored last, by address space and address. -/
abbrev Stored := Nat → Nat → Option (BitVec 8)

def meaning (stored : Stored) : Op → Stored
  | .store mm la b => fun d la' => if d = mm ∧ la' = la then some b else stored d la'
  | .fault _ _ | .swapOut _ _ => stored

structure System where
  swapping : Swapping
  stored : Stored

/-- A page fault is about an address where no page is mapped, and a store about one where a page
is. -/
def Permitted (dirs : Finset Nat) (s : Swapping) : Op → Prop
  | .fault mm addr => mm ∈ dirs ∧ addr < USERTOP ∧ next (pte s.memory mm addr) = none
  | .store mm la _ => mm ∈ dirs ∧ la < USERTOP ∧ next (pte s.memory mm la) ≠ none
  | .swapOut mm _ => mm ∈ dirs

/-- The page is one of this address space, there is a place for it in the swap area, and no other
address space has its copy there. -/
structure Evictable (dirs : Finset Nat) (s : Swapping) (mm page : Nat) : Prop where
  own : next (pte s.memory mm (s.praVaddr page)) = some page
  fits : Fits s (s.praVaddr page)
  alone : ∀ d ∈ dirs, d ≠ mm →
    pte s.memory d (s.praVaddr page) ≠ swapEntry (s.praVaddr page)

/-- The pages that `swap_out` will take may be taken. -/
def Safe (dirs : Finset Nat) (s : Swapping) : Op → Prop
  | .fault _ _ | .store _ _ _ => True
  | .swapOut mm n => ∃ queue, Queue s queue ∧ n ≤ queue.length ∧
      ∀ page ∈ queue.take n, Evictable dirs s mm page

inductive Step (dirs : Finset Nat) (allowed : Swapping → Op → Prop) (t : System) : System → Prop
  | op {op : Op} {r : Except Errno Unit} {s : Swapping} :
      Permitted dirs t.swapping op → allowed t.swapping op →
      perform op t.swapping = .ok (r, s) → Step dirs allowed t ⟨s, meaning t.stored op⟩

/-- The address spaces are created and nothing is mapped yet, and the device does not fail. -/
structure Starts (dirs : Finset Nat) (t : System) : Prop where
  memory : PageCounts.Starts dirs ⟨t.swapping.memory, ∅⟩
  smPriv : ∀ mm ∈ dirs, t.swapping.smPriv mm = some none
  queue : Queue t.swapping []
  check : ∀ check, t.swapping.checkMmStruct = some check → check ∈ dirs
  works : ∀ k, t.swapping.fails k = false
  stored : ∀ d la, t.stored d la = none

/-- The byte is in the page that is mapped, or in the copy of the page that the entry refers to. -/
def Holds (s : Swapping) (d la : Nat) (b : BitVec 8) : Prop :=
  match next (pte s.memory d la) with
  | some page => byteAt (s.memory.words page) la = b
  | none => pte s.memory d la = swapEntry la ∧ byteAt (s.area (la / PGSIZE + 1)) la = b

structure Inv (dirs : Finset Nat) (s : Swapping) (stored : Stored) : Prop where
  paged : Paged dirs s.memory
  queue : ∃ queue, Queue s queue ∧ ∀ p ∈ queue, s.praVaddr p < USERTOP ∧
    ∃ d ∈ dirs, next (pte s.memory d (s.praVaddr p)) = some p
  smPriv : ∀ mm ∈ dirs, s.smPriv mm = some none
  check : ∀ check, s.checkMmStruct = some check → check ∈ dirs
  works : ∀ k, s.fails k = false
  swapped : ∀ d ∈ dirs, ∀ la < USERTOP, next (pte s.memory d la) = none →
    pte s.memory d la = 0 ∨ pte s.memory d la = swapEntry la ∧ Fits s la
  stored : ∀ d ∈ dirs, ∀ la < USERTOP, ∀ b, stored d la = some b → Holds s d la b

/-- No copy that an entry refers to was overwritten. -/
def Saved (dirs : Finset Nat) (s s' : Swapping) : Prop :=
  ∀ d ∈ dirs, ∀ la < USERTOP, pte s.memory d la = swapEntry la →
    s'.area (la / PGSIZE + 1) = s.area (la / PGSIZE + 1)

variable {stored : Stored} {b : BitVec 8} {rest : List Nat} {n : Nat}

theorem holds_mapped (h : next (pte s.memory d la) = some page) :
    Holds s d la b ↔ byteAt (s.memory.words page) la = b := by
  rw [Holds, h]

theorem holds_swapped (h : next (pte s.memory d la) = none) :
    Holds s d la b ↔
      pte s.memory d la = swapEntry la ∧ byteAt (s.area (la / PGSIZE + 1)) la = b := by
  rw [Holds, h]

theorem next_swapEntry (hla : la < USERTOP) : next (swapEntry la) = none :=
  next_of_not (not_valid_swapEntry hla)

theorem pte_page_of (h : la' / PGSIZE = la / PGSIZE) : pte m d la' = pte m d la := by
  rw [← PageCounts.pte_page m d la', h, PageCounts.pte_page]

/-- What holds of a byte does not depend on other entries. -/
theorem Holds.same (h : Holds s d la b) (hpte : pte s'.memory d la = pte s.memory d la)
    (hwords : ∀ p, next (pte s.memory d la) = some p → s'.memory.words p = s.memory.words p)
    (harea : pte s.memory d la = swapEntry la →
      s'.area (la / PGSIZE + 1) = s.area (la / PGSIZE + 1)) : Holds s' d la b := by
  cases hnext : next (pte s.memory d la) with
  | some p =>
      rw [holds_mapped (by rwa [hpte]), hwords p hnext]
      exact (holds_mapped hnext).mp h
  | none =>
      obtain ⟨hentry, hbyte⟩ := (holds_swapped hnext).mp h
      rw [holds_swapped (by rwa [hpte]), hpte, harea hentry]
      exact ⟨hentry, hbyte⟩

/-- One pass of `swap_out`, which saves a page of the address space. -/
theorem inv_pass (h : Inv dirs s stored) (hmm : mm ∈ dirs) (hqueue : Queue s (page :: rest))
    (hevictable : Evictable dirs s mm page) :
    ∃ s', swapOutPass mm 0 s = .ok (.ok true, s') ∧ Inv dirs s' stored ∧ Queue s' rest ∧
      (∀ p ∈ rest, Evictable dirs s mm p → Evictable dirs s' mm p) ∧ Saved dirs s s' ∧
      ∀ d ∈ dirs, ∀ la < USERTOP, pte s.memory d la = swapEntry la →
        pte s'.memory d la = swapEntry la := by
  obtain ⟨queue, hqueue', hmapped⟩ := h.queue
  cases hqueue'.unique hqueue
  obtain ⟨hv, _⟩ := hmapped page List.mem_cons_self
  obtain ⟨hown, hfits, halone⟩ := hevictable
  obtain ⟨s', hrun, hpassed, hkept, _⟩ :=
    swapOutPass_of h.paged hmm (h.smPriv mm hmm) hqueue hv hown hfits
  have hvalid : ∀ {la}, la / PGSIZE = s.praVaddr page / PGSIZE →
      next (pte s.memory mm la) = some page := by
    intro la hpage
    rwa [pte_page_of hpage]
  cases hpassed with
  | failed hfails _ _ _ =>
      rw [h.works] at hfails
      cases hfails
  | evicted _ hqueue' hpaged hwrote harea =>
      have hother : ∀ d ∈ dirs, ∀ la < USERTOP, ¬(d = mm ∧ la / PGSIZE = s.praVaddr page / PGSIZE) →
          pte s'.memory d la = pte s.memory d la := by
        intro d hd la hla hnot
        rw [hwrote.pte d hd la hla, if_neg hnot]
      have hslot : ∀ d ∈ dirs, ∀ la < USERTOP, pte s.memory d la = swapEntry la →
          la / PGSIZE ≠ s.praVaddr page / PGSIZE := by
        intro d hd la hla hentry hpage
        rcases eq_or_ne d mm with rfl | hne
        · have hnext := hvalid hpage
          rw [hentry, next_swapEntry hla] at hnext
          cases hnext
        · refine halone d hd hne ?_
          rw [← pte_page_of hpage, hentry, swapEntry_congr hpage]
      have hsaved : Saved dirs s s' := by
        intro d hd la hla hentry
        rw [harea]
        refine Function.update_of_ne ?_ _ _
        intro heq
        exact hslot d hd la hla hentry (Nat.succ_injective heq)
      refine ⟨s', hrun, ⟨hpaged, ⟨rest, hqueue', fun p hp => ?_⟩, ?_, ?_, ?_, ?_, ?_⟩, hqueue', ?_,
        hsaved, ?_⟩
      · obtain ⟨hv', d, hd, hnext⟩ := hmapped p (List.mem_cons_of_mem _ hp)
        rw [hkept.praVaddr]
        refine ⟨hv', d, hd, hwrote.kept hd hv' hnext ?_⟩
        rw [hown]
        rintro ⟨⟩
        exact (List.nodup_cons.mp hqueue.nodup).1 hp
      · rw [hkept.smPriv]
        exact h.smPriv
      · rw [hkept.checkMmStruct]
        exact h.check
      · rw [hkept.fails]
        exact h.works
      · intro d hd la hla hnext
        rw [Fits, hkept.maxSwapOffset]
        rw [hwrote.pte d hd la hla] at hnext ⊢
        split
        · next hat =>
            refine Or.inr ⟨(swapEntry_congr hat.2).symm, ?_⟩
            rw [hat.2]
            exact hfits
        · next hat =>
            rw [if_neg hat] at hnext
            exact h.swapped d hd la hla hnext
      · intro d hd la hla b hb
        have hheld := h.stored d hd la hla b hb
        rcases Decidable.em (d = mm ∧ la / PGSIZE = s.praVaddr page / PGSIZE) with hat | hnot
        · obtain ⟨rfl, hpage⟩ := hat
          have hentry : pte s'.memory d la = swapEntry la := by
            rw [hwrote.pte d hd la hla, if_pos ⟨rfl, hpage⟩, swapEntry_congr hpage]
          rw [holds_swapped (by rw [hentry, next_swapEntry hla]), harea, hpage,
            Function.update_self]
          exact ⟨hentry, (holds_mapped (hvalid hpage)).mp hheld⟩
        · exact hheld.same (hother d hd la hla hnot) (fun p hp => hwrote.words d hd la hla p hp)
            (hsaved d hd la hla)
      · intro p hp hp'
        obtain ⟨hv', _⟩ := hmapped p (List.mem_cons_of_mem _ hp)
        refine ⟨?_, ?_, ?_⟩
        · rw [hkept.praVaddr]
          refine hwrote.kept hmm hv' hp'.own ?_
          rw [hown]
          rintro ⟨⟩
          exact (List.nodup_cons.mp hqueue.nodup).1 hp
        · rw [Fits, hkept.praVaddr, hkept.maxSwapOffset]
          exact hp'.fits
        · intro d hd hne
          rw [hkept.praVaddr, hother d hd _ hv' fun hat => hne hat.1]
          exact hp'.alone d hd hne
      · intro d hd la hla hentry
        rw [hother d hd la hla fun hat => hslot d hd la hla hentry hat.2, hentry]

/-- The passes of `swap_out`. -/
theorem inv_swapOutLoop (h : Inv dirs s stored) (hmm : mm ∈ dirs) {queue : List Nat}
    (hqueue : Queue s queue) (hlength : n ≤ queue.length)
    (hevictable : ∀ p ∈ queue.take n, Evictable dirs s mm p) (i : Nat) :
    ∃ s', swapOutLoop mm 0 n i s = .ok (.ok (i + n), s') ∧ Inv dirs s' stored ∧ Saved dirs s s' := by
  induction n generalizing s queue i with
  | zero => exact ⟨s, rfl, h, fun _ _ _ _ _ => rfl⟩
  | succ n ih =>
      cases queue with
      | nil => cases hlength
      | cons page rest =>
          obtain ⟨s₁, hpass, hinv, hrest, hstill, hsaved, hentries⟩ :=
            inv_pass h hmm hqueue (hevictable page (by simp))
          obtain ⟨s₂, hloop, hinv', hsaved'⟩ := ih hinv hrest (Nat.le_of_succ_le_succ hlength)
            (fun p hp => hstill p (List.mem_of_mem_take hp) (hevictable p (by simp [hp]))) (i + 1)
          have hcount : i + 1 + n = i + (n + 1) := by omega
          refine ⟨s₂, ?_, hinv', fun d hd la hla hentry => ?_⟩
          · rw [swapOutLoop, bind_of_ok hpass, if_pos rfl, hloop, hcount]
          · rw [hsaved' d hd la hla (hentries d hd la hla hentry), hsaved d hd la hla hentry]

/-- Nothing was mapped, and nothing was written. -/
theorem Inv.same (h : Inv dirs s stored) (hpaged : Paged dirs s'.memory)
    (hsame : Same dirs s.memory s'.memory) (hlinks : s'.links = s.links) (harea : s'.area = s.area)
    (hkept : Kept s s') : Inv dirs s' stored := by
  obtain ⟨queue, hqueue, hmapped⟩ := h.queue
  refine ⟨hpaged, ⟨queue, ?_, fun p hp => ?_⟩, ?_, ?_, ?_, ?_, ?_⟩
  · rw [Queue, hlinks]
    exact hqueue
  · obtain ⟨hv, d, hd, hnext⟩ := hmapped p hp
    rw [hkept.praVaddr]
    exact ⟨hv, d, hd, by rwa [hsame.pte d hd _ hv]⟩
  · rw [hkept.smPriv]
    exact h.smPriv
  · rw [hkept.checkMmStruct]
    exact h.check
  · rw [hkept.fails]
    exact h.works
  · intro d hd la hla hnext
    rw [hsame.pte d hd la hla] at hnext ⊢
    rw [Fits, hkept.maxSwapOffset]
    exact h.swapped d hd la hla hnext
  · intro d hd la hla b hb
    refine (h.stored d hd la hla b hb).same (hsame.pte d hd la hla) (hsame.words d hd la hla) ?_
    rw [harea]
    exact fun _ => rfl

/-- A page was mapped where none was. -/
theorem Inv.mapped (h : Inv dirs s stored) (hmm : mm ∈ dirs) (haddr : addr < USERTOP)
    (hnone : next (pte s.memory mm addr) = none) (hmapped : Mapped dirs mm addr page s s')
    (hwords : pte s.memory mm addr = 0 ∨ s'.memory.words page = s.area (addr / PGSIZE + 1)) :
    Inv dirs s' stored := by
  obtain ⟨queue, hqueue, hqueued⟩ := h.queue
  obtain ⟨hpaged, ⟨w, hw, hwrote⟩, hfresh, harea, hlinks⟩ := hmapped
  have hkeeps : s'.smPriv = s.smPriv ∧ s'.checkMmStruct = s.checkMmStruct ∧
      s'.maxSwapOffset = s.maxSwapOffset ∧ s'.fails = s.fails := by
    rcases hlinks with ⟨_, hkept⟩ | ⟨_, hkept⟩
    · exact ⟨hkept.smPriv, hkept.checkMmStruct, hkept.maxSwapOffset, hkept.fails⟩
    · exact ⟨hkept.smPriv, hkept.checkMmStruct, hkept.maxSwapOffset, hkept.fails⟩
  obtain ⟨hpriv, hcheck, hsize, hfails⟩ := hkeeps
  have hstill : ∀ {d p la}, d ∈ dirs → la < USERTOP → next (pte s.memory d la) = some p →
      next (pte s'.memory d la) = some p := by
    intro d p la hd hla hnext
    refine hwrote.kept hd hla hnext ?_
    rw [hnone]
    exact Option.some_ne_none _ ∘ Eq.symm
  refine ⟨hpaged, ?_, ?_, ?_, ?_, ?_, ?_⟩
  · rcases hlinks with ⟨hsame, hkept⟩ | ⟨hadded, hkept⟩
    · refine ⟨queue, by rwa [Queue, hsame], fun p hp => ?_⟩
      obtain ⟨hv, d, hd, hnext⟩ := hqueued p hp
      rw [hkept.praVaddr]
      exact ⟨hv, d, hd, hstill hd hv hnext⟩
    · have hnew : page ∉ queue := by
        intro hp
        obtain ⟨hv, d, hd, hnext⟩ := hqueued page hp
        exact hfresh d hd _ hv hnext
      refine ⟨queue ++ [page], ?_, fun p hp => ?_⟩
      · rw [Queue, hadded]
        exact queue_add hqueue hnew
      · rw [hkept.praVaddr]
        show Function.update s.praVaddr page (roundDown addr PGSIZE) p < _ ∧
          ∃ d ∈ dirs, next (pte _ d (Function.update s.praVaddr page (roundDown addr PGSIZE) p)) = _
        rcases List.mem_append.mp hp with hold | hlast
        · have hne : p ≠ page := by
            rintro rfl
            exact hnew hold
          obtain ⟨hv, d, hd, hnext⟩ := hqueued p hold
          rw [Function.update_of_ne hne]
          exact ⟨hv, d, hd, hstill hd hv hnext⟩
        · cases List.mem_singleton.mp hlast
          rw [Function.update_self]
          refine ⟨roundDown_lt haddr, mm, hmm, ?_⟩
          rw [pte_roundDown, hwrote.pte mm hmm addr haddr, if_pos ⟨rfl, rfl⟩]
          exact hw
  · rw [hpriv]
    exact h.smPriv
  · rw [hcheck]
    exact h.check
  · rw [hfails]
    exact h.works
  · intro d hd la hla hnext
    rw [Fits, hsize]
    rw [hwrote.pte d hd la hla] at hnext ⊢
    split
    · next hat =>
        rw [if_pos hat, hw] at hnext
        cases hnext
    · next hat =>
        rw [if_neg hat] at hnext
        exact h.swapped d hd la hla hnext
  · intro d hd la hla b hb
    have hheld := h.stored d hd la hla b hb
    rcases Decidable.em (d = mm ∧ la / PGSIZE = addr / PGSIZE) with hat | hnot
    · obtain ⟨rfl, hpage⟩ := hat
      have hentry : next (pte s'.memory d la) = some page := by
        rw [hwrote.pte d hd la hla, if_pos ⟨rfl, hpage⟩, hw]
      have hold : next (pte s.memory d la) = none := by rwa [pte_page_of hpage]
      obtain ⟨hswapped, hbyte⟩ := (holds_swapped hold).mp hheld
      rw [holds_mapped hentry]
      rcases hwords with hzero | hwords
      · rw [pte_page_of hpage, hzero] at hswapped
        exact absurd hswapped.symm (swapEntry_ne_zero hla)
      · rw [hwords, ← hpage]
        exact hbyte
    · refine hheld.same ?_ (fun p hp => hwrote.words d hd la hla p hp) fun _ => by rw [harea]
      rw [hwrote.pte d hd la hla, if_neg hnot]

theorem inv_fault (h : Inv dirs s stored) (hmm : mm ∈ dirs) (haddr : addr < USERTOP)
    (hnone : next (pte s.memory mm addr) = none) {r : Except Errno Unit}
    (hrun : doPgfault mm addr s = .ok (r, s')) : Inv dirs s' stored ∧ s'.area = s.area := by
  rcases doPgfault_cases h.paged hmm haddr (h.swapped mm hmm addr haddr hnone) h.works
    (h.smPriv mm hmm) (fun check hc => h.smPriv check (h.check check hc)) hrun with
    ⟨hpaged, hsame, hlinks, harea, hkept⟩ | ⟨page, hmapped, hwords⟩
  · exact ⟨h.same hpaged hsame hlinks harea hkept, harea⟩
  · exact ⟨h.mapped hmm haddr hnone hmapped hwords, hmapped.area⟩

theorem inv_store (h : Inv dirs s stored) (hmm : mm ∈ dirs) (hla : la < USERTOP)
    (hsome : next (pte s.memory mm la) ≠ none) {r : Except Errno Unit}
    (hrun : storeByte mm la b s = .ok (r, s')) :
    Inv dirs s' (meaning stored (.store mm la b)) ∧ s'.area = s.area := by
  obtain ⟨page, hnext⟩ := Option.ne_none_iff_exists'.mp hsome
  rw [storeByte, getState_bind, hnext] at hrun
  obtain ⟨pages, owner, howned⟩ := h.paged.owned
  have hrole : owner page = .page := (howned.page page).mp (howned.page_of_pte hmm hla hnext)
  let m' : Memory := { s.memory with
    words := Function.update s.memory.words page (setByte (s.memory.words page) la b) }
  have heq : s' = { s with memory := m' } := by
    cases hrun
    rfl
  have htables : ∀ q d path, owner q = .table d path → m'.words q = s.memory.words q := by
    intro q d path hq
    refine Function.update_of_ne ?_ _ _
    rintro rfl
    rw [hrole] at hq
    cases hq
  have hpte : ∀ d ∈ dirs, ∀ la < USERTOP, pte m' d la = pte s.memory d la :=
    fun d hd la hla => pte_congr_tables howned htables hd hla
  have hm : s'.memory = m' := by rw [heq]
  have hkept : Kept s s' := by
    rw [heq]
    exact ⟨rfl, rfl, rfl, rfl, rfl, rfl⟩
  have harea : s'.area = s.area := by rw [heq]
  have hself : s'.memory.words page = setByte (s.memory.words page) la b := by
    rw [hm]
    exact Function.update_self _ _ _
  have hothers : ∀ p, p ≠ page → s'.memory.words p = s.memory.words p := by
    intro p hp
    rw [hm]
    exact Function.update_of_ne hp _ _
  have hentries : ∀ d ∈ dirs, ∀ la < USERTOP, pte s'.memory d la = pte s.memory d la := by
    rw [hm]
    exact hpte
  obtain ⟨queue, hqueue, hqueued⟩ := h.queue
  refine ⟨⟨⟨⟨pages, owner, ?_⟩, ?_⟩, ⟨queue, ?_, fun p hp => ?_⟩, ?_, ?_, ?_, ?_, ?_⟩, harea⟩
  · rw [hm]
    exact owned_congr howned htables rfl
  · intro d hd la hla d' hd' la' hla' p hp hp'
    rw [hentries d hd la hla] at hp
    rw [hentries d' hd' la' hla'] at hp'
    exact h.paged.once d hd la hla d' hd' la' hla' p hp hp'
  · rw [Queue, heq]
    exact hqueue
  · obtain ⟨hv, d, hd, hmapped⟩ := hqueued p hp
    rw [hkept.praVaddr]
    exact ⟨hv, d, hd, by rwa [hentries d hd _ hv]⟩
  · rw [hkept.smPriv]
    exact h.smPriv
  · rw [hkept.checkMmStruct]
    exact h.check
  · rw [hkept.fails]
    exact h.works
  · intro d hd la' hla' hnone
    rw [Fits, hkept.maxSwapOffset]
    rw [hentries d hd la' hla'] at hnone ⊢
    exact h.swapped d hd la' hla' hnone
  · intro d hd la' hla' b' hb'
    change (if d = mm ∧ la' = la then some b else stored d la') = some b' at hb'
    have hold : ¬(d = mm ∧ la' = la) → Holds s d la' b' := by
      intro hnot
      rw [if_neg hnot] at hb'
      exact h.stored d hd la' hla' b' hb'
    rcases Decidable.em (next (pte s.memory d la') = some page) with hnext' | hnot
    · obtain ⟨rfl, hpage⟩ := h.paged.once mm hmm la hla d hd la' hla' page hnext hnext'
      rw [holds_mapped (by rwa [hentries d hd la' hla']), hself, byteAt_setByte hpage]
      split
      · next hat =>
          rw [if_pos ⟨rfl, hat⟩] at hb'
          exact Option.some.inj hb'
      · next hother =>
          exact (holds_mapped hnext').mp (hold fun hat => hother hat.2)
    · refine (hold ?_).same (hentries d hd la' hla') ?_ fun _ => by rw [harea]
      · rintro ⟨rfl, rfl⟩
        exact hnot hnext
      · intro p hp
        refine hothers p ?_
        rintro rfl
        exact hnot hp

theorem inv_step {t t' : System} (h : Inv dirs t.swapping t.stored)
    (hstep : Step dirs (Safe dirs) t t') :
    Inv dirs t'.swapping t'.stored ∧ Saved dirs t.swapping t'.swapping := by
  obtain ⟨hpermitted, hsafe, hrun⟩ := hstep
  rename_i op r s'
  cases op with
  | fault mm addr =>
      obtain ⟨hmm, haddr, hnone⟩ := hpermitted
      obtain ⟨hinv, harea⟩ := inv_fault h hmm haddr hnone hrun
      exact ⟨hinv, fun _ _ _ _ _ => by rw [harea]⟩
  | store mm la b =>
      obtain ⟨hmm, hla, hsome⟩ := hpermitted
      obtain ⟨hinv, harea⟩ := inv_store h hmm hla hsome hrun
      exact ⟨hinv, fun _ _ _ _ _ => by rw [harea]⟩
  | swapOut mm n =>
      obtain ⟨queue, hqueue, hlength, hevictable⟩ := hsafe
      obtain ⟨s₁, hloop, hinv, hsaved⟩ :=
        inv_swapOutLoop h hpermitted hqueue hlength hevictable 0
      have hrun' : perform (.swapOut mm n) t.swapping = .ok (.ok (), s₁) := by
        rw [perform, swapOut, bind_of_ok hloop]
        rfl
      cases hrun'.symm.trans hrun
      exact ⟨hinv, hsaved⟩

theorem inv_starts {t : System} (h : Starts dirs t) : Inv dirs t.swapping t.stored := by
  refine ⟨paged_starts h.memory, ⟨[], h.queue, nofun⟩, h.smPriv, h.check, h.works, ?_, ?_⟩
  · intro d hd la hla _
    exact Or.inl (pte_starts h.memory hd hla)
  · intro d _ la _ b hb
    rw [h.stored d la] at hb
    cases hb

/-- What holds of the memory of the address spaces at any time. -/
structure MemoryOk (dirs : Finset Nat) (t : System) : Prop where
  read : ∀ d ∈ dirs, ∀ la < USERTOP, ∀ b page, t.stored d la = some b →
    next (pte t.swapping.memory d la) = some page →
    byteAt (t.swapping.memory.words page) la = b
  back : ∀ d ∈ dirs, ∀ la < USERTOP, ∀ b page vma m, t.stored d la = some b →
    next (pte t.swapping.memory d la) = none → findVma t.swapping d la = some vma →
    allocPage t.swapping.memory = .ok (.ok (some page), m) →
    ∃ s', doPgfault d la t.swapping = .ok (.ok (), s') ∧
      next (pte s'.memory d la) = some page ∧ byteAt (s'.memory.words page) la = b
  saved : ∀ t', Step dirs (Safe dirs) t t' → Saved dirs t.swapping t'.swapping
  evicts : ∀ mm ∈ dirs, ∀ n, Safe dirs t.swapping (.swapOut mm n) →
    ∃ s', swapOut mm n 0 t.swapping = .ok (.ok n, s')

theorem Inv.memoryOk {t : System} (h : Inv dirs t.swapping t.stored) : MemoryOk dirs t := by
  refine ⟨?_, ?_, fun t' hstep => (inv_step h hstep).2, ?_⟩
  · intro d hd la hla b page hb hnext
    exact (holds_mapped hnext).mp (h.stored d hd la hla b hb)
  · intro d hd la hla b page vma m hb hnone hvma halloc
    obtain ⟨hentry, hbyte⟩ := (holds_swapped hnone).mp (h.stored d hd la hla b hb)
    have hfits : Fits t.swapping la := by
      rcases h.swapped d hd la hla hnone with hzero | ⟨_, hfits⟩
      · rw [hentry] at hzero
        exact absurd hzero (swapEntry_ne_zero hla)
      · exact hfits
    obtain ⟨s', hrun, hmapped, hwords⟩ := doPgfault_back h.paged hd hla hentry hfits
      (h.works _) (h.smPriv d hd) hvma halloc
    obtain ⟨w, hw, hwrote⟩ := hmapped.wrote
    refine ⟨s', hrun, ?_, by rw [hwords]; exact hbyte⟩
    rw [hwrote.pte d hd la hla, if_pos ⟨rfl, rfl⟩]
    exact hw
  · rintro mm hmm n ⟨queue, hqueue, hlength, hevictable⟩
    obtain ⟨s', hrun, _⟩ := inv_swapOutLoop h hmm hqueue hlength hevictable 0
    rw [Nat.zero_add] at hrun
    exact ⟨s', hrun⟩

theorem memoryOk_of_reaches {t t' : System} (hstarts : Starts dirs t)
    (hrun : ReflTransGen (Step dirs (Safe dirs)) t t') : MemoryOk dirs t' := by
  have hinv : Inv dirs t'.swapping t'.stored :=
    @holds_of_reaches _ _ (fun t => Inv dirs t.swapping t.stored) _ _
      (fun h hstep => (inv_step h hstep).1) (inv_starts hstarts) hrun
  exact hinv.memoryOk

/-- One address space, and a swap area of seven pages. -/
def oneSpace : System where
  swapping := {
    memory := {
      words := fun _ _ => 0
      ref := fun _ => 0
      free := fun p => decide (3 ≤ p ∧ p < 10)
      grants := [some 3, some 4, some 5, some 6] }
    links := listInit ⟨fun _ => none, fun _ => none⟩ none
    praVaddr := fun _ => 0
    smPriv := fun _ => some none
    mmapList := fun _ => [⟨0, USERTOP, VM_WRITE⟩]
    checkMmStruct := some 1
    maxSwapOffset := smallArea
    area := fun _ _ => 0
    transfers := 0
    fails := fun _ => false }
  stored := fun _ _ => none

theorem starts_oneSpace : Starts {1} oneSpace := by
  refine ⟨⟨rfl, ?_, fun _ _ _ _ => rfl, ?_⟩, fun _ _ => rfl, ring_listInit _ none, ?_,
    fun _ => rfl, fun _ _ => rfl⟩
  · intro d hd
    cases Finset.mem_singleton.mp hd
    decide
  · intro p hp
    have hbounds : 3 ≤ p ∧ p < 10 := of_decide_eq_true hp
    exact ⟨lt_trans hbounds.2 (by decide), rfl⟩
  · intro check hcheck
    cases hcheck
    decide

theorem oneSpace_empty (la : Nat) (hla : la < USERTOP) :
    next (pte oneSpace.swapping.memory 1 la) = none := by
  rw [pte_starts starts_oneSpace.memory (by decide) hla]
  decide

/-- A page fault, and what it leaves. -/
theorem oneSpace_fault : ∃ s, doPgfault 1 0x1000 oneSpace.swapping = .ok (.ok (), s) ∧
    Queue s [5] ∧ s.praVaddr 5 = 0x1000 ∧ s.maxSwapOffset.val = 7 ∧
    next (pte s.memory 1 0x1000) = some 5 :=
  ⟨_, rfl, @queue_add 5 [] _ (ring_listInit _ none) (by simp), rfl, rfl, rfl⟩

/-- A page is mapped, and evicted. -/
theorem memoryOk_of_reaches_evicted : ∃ s t : System, next (pte s.swapping.memory 1 0x1000) = some 5 ∧
    perform (.swapOut 1 1) s.swapping = .ok (.ok (), t.swapping) ∧ MemoryOk {1} t := by
  obtain ⟨s, hfault, hqueue, hv, hsize, hnext⟩ := oneSpace_fault
  have hrun : ReflTransGen (Step {1} (Safe {1})) oneSpace ⟨s, oneSpace.stored⟩ :=
    .single (@Step.op {1} (Safe {1}) oneSpace (.fault 1 0x1000) _ _
      ⟨by decide, by decide, oneSpace_empty _ (by decide)⟩ trivial hfault)
  have hsafe : Safe {1} s (.swapOut 1 1) := by
    refine ⟨[5], hqueue, by decide, fun page hpage => ?_⟩
    cases List.mem_singleton.mp hpage
    refine ⟨by rw [hv]; exact hnext, ?_, fun d hd hne => absurd (Finset.mem_singleton.mp hd) hne⟩
    rw [Fits, hv, hsize]
    decide
  obtain ⟨s', hout⟩ := (memoryOk_of_reaches starts_oneSpace hrun).evicts 1
    (Finset.mem_singleton_self 1) 1 hsafe
  have hperform : perform (.swapOut 1 1) s = .ok (.ok (), s') := by
    rw [perform, bind_of_ok hout]
    rfl
  have hend := hrun.tail (@Step.op {1} (Safe {1}) _ (.swapOut 1 1) _ _
    (Finset.mem_singleton_self 1) hsafe hperform)
  exact ⟨⟨s, oneSpace.stored⟩, _, hnext, hperform, memoryOk_of_reaches starts_oneSpace hend⟩

/-- The first page of the user addresses has no place in this swap area. -/
theorem not_swapOut_of_reaches : ¬∀ (dirs : Finset Nat) (t t' : System), Starts dirs t →
    ReflTransGen (Step dirs fun _ _ => True) t t' → ∀ mm ∈ dirs, ∀ page,
    Queue t'.swapping [page] → USERBASE ≤ t'.swapping.praVaddr page →
    t'.swapping.praVaddr page < USERTOP →
    next (pte t'.swapping.memory mm (t'.swapping.praVaddr page)) = some page →
    ∃ r, swapOut mm 1 0 t'.swapping = .ok r := by
  intro h
  have hrun : ReflTransGen (Step {1} fun _ _ => True) oneSpace _ :=
    .single (@Step.op {1} (fun _ _ => True) oneSpace (.fault 1 USERBASE) _ _
      ⟨by decide, by decide, oneSpace_empty _ (by decide)⟩ trivial rfl)
  obtain ⟨r, hevicts⟩ := h {1} oneSpace _ starts_oneSpace hrun 1 (by decide) 5
    (@queue_add 5 [] _ (ring_listInit _ none) (by simp)) (by decide) (by decide) rfl
  cases hevicts

end Runs

end Ucore.SwapContents
