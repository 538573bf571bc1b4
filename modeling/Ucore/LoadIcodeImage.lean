import Ucore.LoadIcodeSegments

/-! The address space that `load_icode` leaves: the segments of the file, and the user stack. -/

namespace Ucore.LoadIcodeImage

open Ucore.Errors
open Ucore.Panic
open Ucore.KernelRoutine
open Ucore.ListHeader
open Ucore.DefaultPmm (PGSIZE)
open Ucore.PageTables
open Ucore.PageOwners (next pte next_of_valid)
open Ucore.AddressSpaces (Vma Spaces roundDown)
open Ucore.Swap
open Ucore.SwapSteps
open Ucore.SwapContents
open Ucore.UserImages
open Ucore.LoadIcode
open Ucore.LoadIcodePages
open Ucore.LoadIcodeSegments

variable {dirs : Finset Nat} {d p off n a la start stop : Nat} {perm : BitVec 32}
  {f : Nat → BitVec 8} {words : Index → Word} {s s' s'' : Loading} {m m' : Memory}

section Stack

variable {cur : Option Nat} {b : BitVec 8}

/-- What is known while the stack is set up: its pages may be stored to if they are there. -/
structure StackOk (dirs : Finset Nat) (d : Nat) (m : Memory) (cur : Option Nat) (s : Loading) :
    Prop where
  quiet : Quiet dirs s
  current : s.currentMm = cur
  others : Unchanged d (fun a => a < USTACKTOP - USTACKSIZE) m s.swapping.memory
  stack : ∀ a, USTACKTOP - USTACKSIZE ≤ a → a < USTACKTOP →
    pte s.swapping.memory d a = 0 ∨ Writable (pte s.swapping.memory d a)

theorem stack_apart (hlow : USTACKTOP - USTACKSIZE ≤ la) (ha : a < USTACKTOP - USTACKSIZE) :
    a / PGSIZE ≠ la / PGSIZE := by
  change 2146435072 ≤ la at hlow
  change a < 2146435072 at ha
  show a / 4096 ≠ la / 4096
  omega

/-- A change in the pages of the stack. -/
theorem StackOk.change (h : StackOk dirs d m cur s) (hquiet : Quiet dirs s')
    (hcurrent : s'.currentMm = s.currentMm) (hlow : USTACKTOP - USTACKSIZE ≤ la)
    (hothers : Unchanged d (fun a => a / PGSIZE ≠ la / PGSIZE) s.swapping.memory
      s'.swapping.memory)
    (hpage : Writable (pte s'.swapping.memory d la)) : StackOk dirs d m cur s' := by
  refine ⟨hquiet, hcurrent.trans h.current, h.others.trans (hothers.mono ?_), ?_⟩
  · intro a ha
    exact stack_apart hlow ha
  · intro a hge hlt
    by_cases hsame : a / PGSIZE = la / PGSIZE
    · rw [pte_page_of hsame]
      exact Or.inr hpage
    · rw [hothers.pte a hlt hsame]
      exact h.stack a hge hlt

theorem writable_stackPage (p : Nat) : Writable (pteCreate p (0x001 ||| 0x01F)) := by
  refine ⟨valid_pteCreate _ _, ?_⟩
  rw [pteCreate]
  intro hzero
  have hbit := congrArg (fun w : Word => w.getLsbD 2) hzero
  simp [PTE_V, PTE_PPN_SHIFT] at hbit

/-- The pages at the top of the stack. -/
theorem stackPages_of (hd : d ∈ dirs) : ∀ (pages : List Nat) (s : Loading),
    StackOk dirs d m cur s → (∀ la ∈ pages, USTACKTOP - USTACKSIZE ≤ la ∧ la < USTACKTOP) →
    (∀ la ∈ pages, pte s.swapping.memory d la = 0) →
    pages.Pairwise (fun la la' => la' / PGSIZE ≠ la / PGSIZE) →
    stackPages d pages s = .ok (.ok (), s') → StackOk dirs d m cur s' ∧
      (∀ la ∈ pages, Writable (pte s'.swapping.memory d la)) ∧
      ∀ a < USTACKTOP, Writable (pte s.swapping.memory d a) →
        Writable (pte s'.swapping.memory d a)
  | [], _, h, _, _, _, hrun => by
      cases hrun
      exact ⟨h, by simp, fun _ _ hpage => hpage⟩
  | la :: rest, s, h, hin, hempty, happart, hrun => by
      obtain ⟨hapart, hrest'⟩ := List.pairwise_cons.mp happart
      obtain ⟨hlow, htop⟩ := hin la (List.mem_cons_self ..)
      rw [stackPages] at hrun
      rcases bind_eq_ok_iff.mp hrun with ⟨o, s₁, halloc, hrest⟩ | ⟨e, _, he⟩
      · obtain ⟨u, hpart, rfl⟩ := onSwapping_eq_ok halloc
        have hnot : ¬Valid (pte s.swapping.memory d la) := by
          rw [hempty la (List.mem_cons_self ..)]
          exact not_valid_zero
        obtain ⟨⟨m₁, rfl⟩, hpaged, hnone | ⟨p, hr, hwrote, hnext⟩⟩ :=
          mapPage_of h.quiet.paged hd htop (by decide) hnot h.quiet.checked hpart
        · cases hnone
          cases hrest
        · cases hr
          have hothers := unchanged_of_wrote hwrote hd
          have hentry : pte m₁ d la = pteCreate p (0x001 ||| 0x01F) := by
            rw [hwrote.pte d hd la htop, if_pos ⟨rfl, rfl⟩]
          have hpage : Writable (pte m₁ d la) := by
            rw [hentry]
            exact writable_stackPage p
          have hstep : StackOk dirs d m cur
              { s with swapping := { s.swapping with memory := m₁ } } :=
            h.change ⟨hpaged, h.quiet.checked⟩ rfl hlow hothers hpage
          have hempty' : ∀ la' ∈ rest, pte m₁ d la' = 0 := by
            intro la' hla'
            rw [hothers.pte la' (hin la' (List.mem_cons_of_mem _ hla')).2 (hapart la' hla')]
            exact hempty la' (List.mem_cons_of_mem _ hla')
          obtain ⟨hok, hpages, hkept⟩ := stackPages_of hd rest _ hstep
            (fun la' hla' => hin la' (List.mem_cons_of_mem _ hla')) hempty' hrest' hrest
          refine ⟨hok, ?_, ?_⟩
          · intro la' hla'
            rcases List.mem_cons.mp hla' with rfl | hla'
            · exact hkept _ htop hpage
            · exact hpages la' hla'
          · intro a ha hwritable
            refine hkept a ha ?_
            show Writable (pte m₁ d a)
            by_cases hsame : a / PGSIZE = la / PGSIZE
            · rw [pte_page_of hsame]
              exact hpage
            · rw [hothers.pte a ha hsame]
              exact hwritable
      · cases he

theorem top_pages (hlow : USTACKTOP - 4 * PGSIZE ≤ a) (hhigh : a < USTACKTOP) :
    ∃ la ∈ [USTACKTOP - PGSIZE, USTACKTOP - 2 * PGSIZE, USTACKTOP - 3 * PGSIZE,
      USTACKTOP - 4 * PGSIZE], a / PGSIZE = la / PGSIZE := by
  change 2147467264 ≤ a at hlow
  change a < 2147483648 at hhigh
  show ∃ la ∈ [2147479552, 2147475456, 2147471360, 2147467264], a / 4096 = la / 4096
  have hcases : a / 4096 = 524287 ∨ a / 4096 = 524286 ∨ a / 4096 = 524285 ∨ a / 4096 = 524284 := by
    omega
  rcases hcases with h | h | h | h
  · exact ⟨2147479552, by simp, h⟩
  · exact ⟨2147475456, by simp, h⟩
  · exact ⟨2147471360, by simp, h⟩
  · exact ⟨2147467264, by simp, h⟩

theorem setupStack_of (hd : d ∈ dirs) (h : Quiet dirs s)
    (hempty : ∀ a, USTACKTOP - USTACKSIZE ≤ a → a < USTACKTOP → pte s.swapping.memory d a = 0)
    (hrun : setupStack d s = .ok (.ok (), s')) :
    StackOk dirs d s.swapping.memory s'.currentMm s' ∧
      ∀ a, USTACKTOP - 4 * PGSIZE ≤ a → a < USTACKTOP → Writable (pte s'.swapping.memory d a) := by
  rw [setupStack] at hrun
  rcases bind_eq_ok_iff.mp hrun with ⟨_, s₁, hmap, hrest⟩ | ⟨e, _, he⟩
  · obtain ⟨hmemory, hcheck⟩ := mmMap_same hmap
    have hstart : StackOk dirs d s.swapping.memory s₁.currentMm s₁ := by
      refine ⟨h.congr ⟨hmemory, hcheck⟩, rfl, ?_, ?_⟩
      · rw [hmemory]
        exact Unchanged.refl _ _ _
      · rw [hmemory]
        exact fun a hlow hhigh => Or.inl (hempty a hlow hhigh)
    have hpages : ∀ la ∈ [USTACKTOP - PGSIZE, USTACKTOP - 2 * PGSIZE, USTACKTOP - 3 * PGSIZE,
        USTACKTOP - 4 * PGSIZE], USTACKTOP - USTACKSIZE ≤ la ∧ la < USTACKTOP := by decide
    obtain ⟨hok, hwritable, _⟩ := stackPages_of hd _ s₁ hstart hpages
      (fun la hla => by
        rw [hmemory]
        exact hempty la (hpages la hla).1 (hpages la hla).2) (by decide) hrest
    refine ⟨⟨hok.quiet, rfl, hok.others, hok.stack⟩, fun a hlow hhigh => ?_⟩
    obtain ⟨la, hla, hpage⟩ := top_pages hlow hhigh
    rw [pte_page_of hpage]
    exact hwritable la hla
  · cases he

theorem fillPage_current {f : Nat → BitVec 8} {r : Except Errno Unit}
    (hrun : fillPage p off n f s = .ok (r, s')) : s'.currentMm = s.currentMm := by
  obtain ⟨m, _, rfl⟩ := onFrames_eq_ok hrun
  rfl

/-- A byte of a page of the stack that may be stored to. -/
theorem StackOk.stored (h : StackOk dirs d m cur s) (hd : d ∈ dirs)
    (hlow : USTACKTOP - USTACKSIZE ≤ la) (htop : la < USTACKTOP)
    (hpage : Writable (pte s.swapping.memory d la)) {r : Except Errno Unit}
    (hrun : fillPage (frameOf (pte s.swapping.memory d la)) (la % PGSIZE) 1 (fun _ => b) s =
      .ok (r, s')) : StackOk dirs d m cur s' := by
  have hoff : la % PGSIZE + 1 ≤ PGSIZE := Nat.mod_lt la (by decide)
  obtain ⟨hquiet, hfilled⟩ := fillPage_of h.quiet hd htop (next_of_valid hpage.1) hoff hrun
  refine h.change hquiet (fillPage_current hrun) hlow (hfilled.others hd) ?_
  rw [hfilled.pte d hd la htop]
  exact hpage

/-- A page fault in the kernel at an address that has no entry. -/
theorem pageFault_of (h : Quiet dirs s) (hd : d ∈ dirs) (hla : la < USERTOP)
    (hzero : pte s.swapping.memory d la = 0) {r : Except Errno Unit}
    (hrun : pageFault d la s = .ok (r, s')) :
    r = .ok () ∧ Quiet dirs s' ∧ s'.currentMm = s.currentMm ∧
      Unchanged d (fun a => a / PGSIZE ≠ la / PGSIZE) s.swapping.memory s'.swapping.memory := by
  rw [pageFault] at hrun
  obtain ⟨r', s₁, hgo, hrest⟩ := attempt_bind_eq_ok_iff.mp hrun
  cases r' with
  | error e => cases hrest
  | ok u =>
      cases hrest
      obtain ⟨t, hpart, rfl⟩ := onSwapping_eq_ok hgo
      obtain ⟨⟨m₁, rfl⟩, hpaged, w, hwrote⟩ :=
        doPgfault_zero h.paged hd hla hzero h.checked hpart
      exact ⟨rfl, ⟨hpaged, h.checked⟩, rfl, unchanged_of_wrote hwrote hd⟩

/-- A store to the stack leaves the segments alone. -/
theorem storeUser_of (hd : d ∈ dirs) (hlow : USTACKTOP - USTACKSIZE ≤ la) (htop : la < USTACKTOP) :
    Preserves (StackOk dirs d m cur) (storeUser d la b) := by
  apply Preserves.getState_apply
  intro s h r s' hrun
  split at hrun
  · next hpage => exact h.stored hd hlow htop hpage hrun
  · next hnot =>
      have hzero : pte s.swapping.memory d la = 0 := (h.stack la hlow htop).resolve_right hnot
      rcases bind_eq_ok_iff.mp hrun with ⟨_, s₁, hpage, hrest⟩ | ⟨e, hpage, _⟩
      · obtain ⟨_, hquiet, hcurrent, hothers⟩ := pageFault_of h.quiet hd htop hzero hpage
        rw [getState_bind] at hrest
        split at hrest
        · next hwritable =>
            exact (h.change hquiet hcurrent hlow hothers hwritable).stored hd hlow htop hwritable
              hrest
        · cases hrest
      · cases (pageFault_of h.quiet hd htop hzero hpage).1

theorem storeBytes_of (hd : d ∈ dirs) : ∀ (bs : List (BitVec 8)) (la : Nat),
    USTACKTOP - USTACKSIZE ≤ la → la + bs.length ≤ USTACKTOP →
    Preserves (StackOk dirs d m cur) (storeBytes d la bs)
  | [], _, _, _ => Preserves.pure _
  | b :: rest, la, hlow, htop => by
      rw [List.length_cons] at htop
      refine (storeUser_of hd hlow (by omega)).bind fun _ => ?_
      exact storeBytes_of hd rest (la + 1) (by omega) (by omega)

theorem leBytes_length : ∀ n v : Nat, (leBytes n v).length = n
  | 0, _ => rfl
  | n + 1, v => by rw [leBytes, List.length_cons, leBytes_length n]

/-- The arguments that are left stay inside the stack. -/
theorem placeArgs_of (hd : d ∈ dirs) {stacktop uargv : Nat} (hlow : USTACKTOP - USTACKSIZE ≤ uargv)
    (hstack : uargv ≤ stacktop) : ∀ (args : List Arg) (i argvSize : Nat),
      uargv + 8 * (i + args.length) ≤ stacktop →
      stacktop + argvSize + (args.map fun arg => arg.bytes.length + 1).sum ≤ USTACKTOP →
      Preserves (StackOk dirs d m cur) (placeArgs d stacktop uargv i argvSize args)
  | [], _, _, _, _ => Preserves.pure _
  | arg :: rest, i, argvSize, hslots, hroom => by
      rw [List.length_cons] at hslots
      rw [List.map_cons, List.sum_cons] at hroom
      refine (storeBytes_of hd _ _ (by omega) ?_).bind fun _ => ?_
      · rw [List.length_append, List.length_singleton]
        omega
      refine (storeBytes_of hd _ _ (by omega) ?_).bind fun _ => ?_
      · rw [leBytes_length]
        omega
      · exact placeArgs_of hd hlow hstack rest (i + 1) _ (by omega) (by omega)

theorem argvSize_le (args : List Arg) (h : args.length ≤ EXEC_MAX_ARG_NUM) :
    (args.map fun arg => arg.bytes.length + 1).sum ≤ 32 * 4096 := by
  have hbound : ∀ n ∈ args.map fun arg => arg.bytes.length + 1, n ≤ 4096 := by
    intro n hn
    obtain ⟨arg, _, rfl⟩ := List.mem_map.mp hn
    exact Nat.succ_le_succ arg.bound
  have hsum := List.sum_le_card_nsmul _ _ hbound
  rw [List.length_map] at hsum
  change _ ≤ args.length * 4096 at hsum
  exact hsum.trans (Nat.mul_le_mul_right _ h)

/-- The arguments and their number are put into the stack. -/
theorem setupArgs_of (hd : d ∈ dirs) {args : List Arg} (hargs : args.length ≤ EXEC_MAX_ARG_NUM) :
    Preserves (StackOk dirs d m cur) (setupArgs d args) := by
  have hsum := argvSize_le args hargs
  have hsize : argvSize args = (args.map fun arg => arg.bytes.length + 1).sum :=
    Nat.mod_eq_of_lt (by omega)
  change args.length ≤ 32 at hargs
  have htop : stackTop args = 2147483648 - (argvSize args / 8 + 1) * 8 := rfl
  have huargv : uargvOf args = stackTop args - args.length * 8 := rfl
  have hlow : USTACKTOP - USTACKSIZE = 2146435072 := rfl
  have hhigh : USTACKTOP = 2147483648 := rfl
  refine (placeArgs_of hd (by omega) (by omega) args 0 0 (by omega) (by omega)).bind fun _ => ?_
  refine storeBytes_of hd _ _ (by omega) ?_
  rw [leBytes_length]
  omega

end Stack

section Room

variable {b : BitVec 8}

/-- The pages from `low` up to the top of the stack may be stored to. -/
structure Room (dirs : Finset Nat) (d low : Nat) (s : Loading) : Prop where
  quiet : Quiet dirs s
  pages : ∀ a, low ≤ a → a < USTACKTOP → Writable (pte s.swapping.memory d a)

/-- A store where there is room. -/
theorem storeUser_returns {low : Nat} (h : Room dirs d low s) (hd : d ∈ dirs) (hlow : low ≤ la)
    (htop : la < USTACKTOP) :
    ∃ s', storeUser d la b s = .ok (.ok (), s') ∧ Room dirs d low s' := by
  have hpage := h.pages la hlow htop
  obtain ⟨s', hfill⟩ : ∃ s', fillPage (frameOf (pte s.swapping.memory d la)) (la % PGSIZE) 1
      (fun _ => b) s = .ok (.ok (), s') := ⟨_, rfl⟩
  have hoff : la % PGSIZE + 1 ≤ PGSIZE := Nat.mod_lt la (by decide)
  obtain ⟨hquiet, hfilled⟩ := fillPage_of h.quiet hd htop (next_of_valid hpage.1) hoff hfill
  refine ⟨s', ?_, hquiet, fun a hge hlt => ?_⟩
  · rw [storeUser, getState_bind, if_pos hpage, hfill]
  · rw [hfilled.pte d hd a hlt]
    exact h.pages a hge hlt

theorem storeBytes_returns {low : Nat} (hd : d ∈ dirs) : ∀ (bs : List (BitVec 8)) (la : Nat)
    (s : Loading), Room dirs d low s → low ≤ la → la + bs.length ≤ USTACKTOP →
    ∃ s', storeBytes d la bs s = .ok (.ok (), s') ∧ Room dirs d low s'
  | [], _, s, h, _, _ => ⟨s, rfl, h⟩
  | b :: rest, la, s, h, hlow, htop => by
      rw [List.length_cons] at htop
      obtain ⟨s₁, hstore, h₁⟩ := storeUser_returns h hd hlow (by omega)
      obtain ⟨s', hrest, h'⟩ := storeBytes_returns hd rest (la + 1) s₁ h₁ (by omega) (by omega)
      refine ⟨s', ?_, h'⟩
      rw [storeBytes, bind_of_ok hstore]
      exact hrest

theorem placeArgs_returns {low stacktop uargv : Nat} (hd : d ∈ dirs) (hlow : low ≤ uargv)
    (hstack : uargv ≤ stacktop) : ∀ (args : List Arg) (i argvSize : Nat) (s : Loading),
      Room dirs d low s → uargv + 8 * (i + args.length) ≤ stacktop →
      stacktop + argvSize + (args.map fun arg => arg.bytes.length + 1).sum ≤ USTACKTOP →
      ∃ s', placeArgs d stacktop uargv i argvSize args s = .ok (.ok (), s') ∧ Room dirs d low s'
  | [], _, _, s, h, _, _ => ⟨s, rfl, h⟩
  | arg :: rest, i, argvSize, s, h, hslots, hroom => by
      rw [List.length_cons] at hslots
      rw [List.map_cons, List.sum_cons] at hroom
      have hstring : ∃ s₁, strcpy d (stacktop + argvSize) arg s = .ok (.ok (), s₁) ∧
          Room dirs d low s₁ := by
        refine storeBytes_returns hd _ _ s h (by omega) ?_
        rw [List.length_append, List.length_singleton]
        omega
      obtain ⟨s₁, hstring, h₁⟩ := hstring
      obtain ⟨s₂, hpointer, h₂⟩ := storeBytes_returns hd (leBytes 8 (stacktop + argvSize))
        (uargv + 8 * i) s₁ h₁ (by omega) (by rw [leBytes_length]; omega)
      obtain ⟨s', hrest, h'⟩ := placeArgs_returns hd hlow hstack rest (i + 1)
        (argvSize + (arg.bytes.length + 1)) s₂ h₂ (by omega) (by omega)
      refine ⟨s', ?_, h'⟩
      rw [placeArgs, bind_of_ok hstring, bind_of_ok hpointer]
      exact hrest

/-- Arguments that fit into the pages that are there are put into the stack. -/
theorem setupArgs_returns (hd : d ∈ dirs) {args : List Arg} (hargs : args.length ≤ EXEC_MAX_ARG_NUM)
    (h : Room dirs d (uargvOf args - 4) s) : ∃ s', setupArgs d args s = .ok (.ok (), s') := by
  have hsum := argvSize_le args hargs
  have hsize : argvSize args = (args.map fun arg => arg.bytes.length + 1).sum :=
    Nat.mod_eq_of_lt (by omega)
  change args.length ≤ 32 at hargs
  have htop : stackTop args = 2147483648 - (argvSize args / 8 + 1) * 8 := rfl
  have huargv : uargvOf args = stackTop args - args.length * 8 := rfl
  have hhigh : USTACKTOP = 2147483648 := rfl
  have hplace : ∃ s₁, placeArgs d (stackTop args) (uargvOf args) 0 0 args s = .ok (.ok (), s₁) ∧
      Room dirs d (uargvOf args - 4) s₁ :=
    placeArgs_returns hd (Nat.sub_le _ _) (by omega) args 0 0 s h (by omega) (by omega)
  obtain ⟨s₁, hplace, h₁⟩ := hplace
  obtain ⟨s', hnumber, _⟩ := storeBytes_returns hd (leBytes 4 args.length) (uargvOf args - 4) s₁ h₁
    le_rfl (by rw [leBytes_length]; omega)
  refine ⟨s', ?_⟩
  rw [setupArgs, bind_of_ok hplace]
  exact hnumber

end Room

section Image

variable {file : File} {boot fuel : Nat} {args : List Arg}

/-- The memory that `load_icode` starts from: the address spaces are in order, and the page
directory that the kernel started with maps no user addresses. -/
structure Ready (dirs : Finset Nat) (boot : Nat) (s : Loading) : Prop where
  quiet : Quiet dirs s
  boot : ∀ i : Index, i.val < 2 → ¬Valid (s.swapping.memory.words boot i)

/-- The address space has each segment of the file in pages of its own. -/
structure ImageOf (dirs : Finset Nat) (file : File) (d : Nat) (m : Memory) : Prop where
  bytes : ∀ n, IsLoad file n → ∀ k < (segment file n).pMemsz,
    userByte m d ((segment file n).pVa + k) =
      some (if k < (segment file n).pFilesz then
        (file.bytes ((segment file n).pOffset + k)).toBitVec else 0)
  pages : ∀ n, IsLoad file n → ∀ k < (segment file n).pMemsz,
    ∃ p, pte m d ((segment file n).pVa + k) =
        pteCreate p (0x001 ||| segmentPerm (segmentFlags (segment file n))) ∧
      next (pte m d ((segment file n).pVa + k)) = some p ∧
      ∀ d' ∈ dirs, ∀ a < USERTOP, next (pte m d' a) = some p →
        d' = d ∧ a / PGSIZE = ((segment file n).pVa + k) / PGSIZE

theorem kmalloc_kept {r : Except Errno Bool} (h : kmalloc s = .ok (r, s')) :
    s'.swapping = s.swapping := by
  rw [kmalloc] at h
  split at h
  · cases h
    rfl
  · cases h
    rfl

/-- A free frame becomes a copy of the page directory that the kernel started with. -/
theorem setupPgdir_of (h : setupPgdir boot m = .ok (.ok (some d), m')) :
    m.free d = true ∧ m'.words = Function.update m.words d (m.words boot) ∧
      m'.free = Function.update m.free d false := by
  rw [setupPgdir] at h
  rcases bind_eq_ok_iff.mp h with ⟨o, m₁, halloc, hrest⟩ | ⟨e, _, he⟩
  · cases o with
    | none => cases hrest
    | some page =>
        cases hrest
        rw [allocPage] at halloc
        split at halloc
        · next hgrants =>
            split at halloc
            · next hfree =>
                cases halloc
                exact ⟨hfree, rfl, rfl⟩
            · cases halloc
        · cases halloc
        · cases halloc
  · cases he

/-- The new address space is empty. -/
theorem createMm_of (h : Ready dirs boot s) (hrun : createMm boot s = .ok (.ok d, s')) :
    Quiet (insert d dirs) s' ∧ ∀ la < USERTOP, pte s'.swapping.memory d la = 0 := by
  rw [createMm] at hrun
  rcases bind_eq_ok_iff.mp hrun with ⟨works, s₁, hmalloc, hrest⟩ | ⟨e, _, he⟩
  · have hkept : s₁.swapping = s.swapping := kmalloc_kept hmalloc
    cases works with
    | false => cases hrest
    | true =>
        rcases bind_eq_ok_iff.mp hrest with ⟨o, s₂, hsetup, hrest⟩ | ⟨e, _, he⟩
        · obtain ⟨m, hpgdir, rfl⟩ := onFrames_eq_ok hsetup
          rw [hkept] at hpgdir
          cases o with
          | none => cases hrest
          | some pgdir =>
              cases hrest
              obtain ⟨hfree, hwords, htaken⟩ := setupPgdir_of hpgdir
              obtain ⟨hpaged, hempty⟩ :=
                paged_directory h.quiet.paged hfree h.boot hwords htaken
              refine ⟨⟨hpaged, ?_⟩, hempty⟩
              show s₁.swapping.checkMmStruct = none
              rw [hkept]
              exact h.quiet.checked
        · cases he
  · cases he

theorem StackOk.runs {cur : Option Nat} (h : StackOk dirs d m cur s) (mm : Option Nat) :
    StackOk dirs d m mm { s with currentMm := mm } :=
  ⟨⟨h.quiet.paged, h.quiet.checked⟩, rfl, h.others, h.stack⟩

theorem imageOf_of_loaded (hpaged : Paged dirs m) (hd : d ∈ dirs) (hvalid : ValidImage file)
    (h : ∀ n, IsLoad file n → Loaded file d (segment file n) m) : ImageOf dirs file d m := by
  refine ⟨fun n hload k hk => ?_, fun n hload k hk => ?_⟩
  · rw [(h n hload).bytes k hk, segmentByte, Nat.add_sub_cancel_left]
    by_cases hfile : k < (segment file n).pFilesz
    · rw [if_pos hfile, if_pos (by omega)]
    · rw [if_neg hfile, if_neg (by omega)]
  · obtain ⟨p, hp, hnext⟩ := (h n hload).pages k hk
    have huser := hvalid.high n hload
    refine ⟨p, hp, hnext, fun d' hd' a ha hmapped => ?_⟩
    exact hpaged.once d hd _ (by omega) d' hd' a ha p hnext hmapped

/-- The segments are there when the stack is set up. -/
theorem stack_of_loaded {s₁ s₂ s₃ s₄ : Loading} (hquiet : Quiet (insert d dirs) s₁)
    (hempty : ∀ la < USERTOP, pte s₁.swapping.memory d la = 0) (hvalid : ValidImage file)
    (hsame : SameFrames s₁ s₂)
    (hprogram : loadProgram file fuel d (List.range (elfHdr file).ePhnum) 0 s₂ = .ok (.ok (), s₃))
    (hstack : setupStack d s₃ = .ok (.ok (), s₄)) :
    (∀ n, IsLoad file n → Loaded file d (segment file n) s₃.swapping.memory) ∧
      StackOk (insert d dirs) d s₃.swapping.memory s₄.currentMm s₄ ∧
      ∀ a, USTACKTOP - 4 * PGSIZE ≤ a → a < USTACKTOP → Writable (pte s₄.swapping.memory d a) := by
  have hempty₂ : ∀ la < USERTOP, pte s₂.swapping.memory d la = 0 := by
    rw [hsame.1]
    exact hempty
  have hd : d ∈ insert d dirs := Finset.mem_insert_self _ _
  obtain ⟨hquiet₃, hloaded, hothers⟩ := loadProgram_of hvalid hd _ 0 s₂
    (hquiet.congr hsame) (fun n hn => List.mem_range.mp hn) List.nodup_range
    (fun n _ hload a ha => hempty₂ a (inPages_lt (hvalid.high n hload) ha)) hprogram
  refine ⟨fun n hload => hloaded n (List.mem_range.mpr hload.1) hload,
    setupStack_of hd hquiet₃ (fun a hlow hhigh => ?_) hstack⟩
  rw [hothers.pte a hhigh fun n _ hload ha => hvalid.stack n hload a ha ⟨hlow, hhigh⟩]
  exact hempty₂ a hhigh

theorem imageOf_of_loadIcode (hready : Ready dirs boot s) (hvalid : ValidImage file)
    (hrun : loadIcode file boot fuel args s = .ok (.ok (), s')) :
    ∃ d, s'.currentMm = some d ∧ s'.tf.epc = BitVec.ofNat 64 (elfHdr file).eEntry ∧
      ImageOf (insert d dirs) file d s'.swapping.memory := by
  obtain ⟨hargs, hrest⟩ := ensure_bind_passed hrun
  rw [getState_bind] at hrest
  obtain ⟨_, hrest⟩ := ensure_bind_passed hrest
  rcases bind_eq_ok_iff.mp hrest with ⟨d, s₁, hcreate, hrest⟩ | ⟨e, _, he⟩
  · obtain ⟨hquiet₁, hempty₁⟩ := createMm_of hready hcreate
    rcases bind_eq_ok_iff.mp hrest with ⟨_, s₂, hread, hrest⟩ | ⟨e, _, he⟩
    · have hkept := loadIcodeRead_kept hread
      have hsame : SameFrames s₁ s₂ := ⟨by rw [hkept], by rw [hkept]⟩
      split at hrest
      · cases hrest
      · rcases bind_eq_ok_iff.mp hrest with ⟨_, s₃, hprogram, hrest⟩ | ⟨e, _, he⟩
        · rcases bind_eq_ok_iff.mp hrest with ⟨_, s₄, hstack, hrest⟩ | ⟨e, _, he⟩
          · obtain ⟨hloaded, hok, _⟩ := stack_of_loaded hquiet₁ hempty₁ hvalid hsame hprogram hstack
            have hd : d ∈ insert d dirs := Finset.mem_insert_self _ _
            rw [modifyState_bind] at hrest
            rcases bind_eq_ok_iff.mp hrest with ⟨_, s₅, hput, hframe⟩ | ⟨e, _, he⟩
            · have hok₅ := setupArgs_of hd hargs _ _ _ (hok.runs (some d)) hput
              cases hframe
              refine ⟨d, hok₅.current, rfl, imageOf_of_loaded hok₅.quiet.paged hd hvalid ?_⟩
              intro n hload
              refine (hloaded n hload).congr hok₅.others (hvalid.high n hload) ?_
              intro a ha
              have hlt := inPages_lt (hvalid.high n hload) ha
              by_contra hnot
              exact hvalid.stack n hload a ha ⟨not_lt.mp hnot, hlt⟩
            · cases he
          · cases he
        · cases he
    · cases he
  · cases he

/-- `load_icode` up to the arguments. -/
def loadSegments (file : File) (boot fuel : Nat) : Routine Loading Nat := do
  let mm ← createMm boot
  loadIcodeRead file elfHdrSize 0
  loadProgram file fuel mm (List.range (elfHdr file).ePhnum) 0
  setupStack mm
  return mm

/-- Where the segments can be loaded, a few arguments can be passed. -/
theorem loadIcode_returns (hready : Ready dirs boot s) (hvalid : ValidImage file)
    (hargs : args.length ≤ EXEC_MAX_ARG_NUM) (hcurrent : s.currentMm = none)
    (hroom : USTACKTOP - 4 * PGSIZE ≤ uargvOf args - 4)
    (hload : loadSegments file boot fuel s = .ok (.ok d, s')) :
    ∃ s'', loadIcode file boot fuel args s = .ok (.ok (), s'') := by
  rw [loadSegments] at hload
  rcases bind_eq_ok_iff.mp hload with ⟨d₁, s₁, hcreate, hrest⟩ | ⟨e, _, he⟩
  · obtain ⟨hquiet₁, hempty₁⟩ := createMm_of hready hcreate
    rcases bind_eq_ok_iff.mp hrest with ⟨_, s₂, hread, hrest⟩ | ⟨e, _, he⟩
    · have hkept := loadIcodeRead_kept hread
      have hsame : SameFrames s₁ s₂ := ⟨by rw [hkept], by rw [hkept]⟩
      rcases bind_eq_ok_iff.mp hrest with ⟨_, s₃, hprogram, hrest⟩ | ⟨e, _, he⟩
      · rcases bind_eq_ok_iff.mp hrest with ⟨_, s₄, hstack, hret⟩ | ⟨e, _, he⟩
        · obtain ⟨_, hok, hpages⟩ := stack_of_loaded hquiet₁ hempty₁ hvalid hsame hprogram hstack
          have hd : d₁ ∈ insert d₁ dirs := Finset.mem_insert_self _ _
          let s₅ : Loading := { s₄ with currentMm := some d₁ }
          have hfits : Room (insert d₁ dirs) d₁ (uargvOf args - 4) s₅ :=
            ⟨⟨hok.quiet.paged, hok.quiet.checked⟩, fun a hlow hhigh => hpages a (by omega) hhigh⟩
          obtain ⟨s₆, hput⟩ := setupArgs_returns hd hargs hfits
          obtain ⟨s₇, hframe⟩ : ∃ s₇, setupFrame (elfHdr file) s₆ = .ok (.ok (), s₇) := ⟨_, rfl⟩
          refine ⟨s₇, ?_⟩
          rw [loadIcode, ensure_bind_of hargs, getState_bind, ensure_bind_of hcurrent,
            bind_of_ok hcreate, bind_of_ok hread, if_neg (not_not.mpr hvalid.magic),
            bind_of_ok hprogram, bind_of_ok hstack, modifyState_bind, bind_of_ok hput]
          exact hframe
        · cases he
      · cases he
    · cases he
  · cases he

/-- A program of one segment, which has a byte in the file and another one after it. -/
def twoBytes : File where
  size := 121
  bytes := fun k => match k with
    | 0 => 0x7F | 1 => 0x45 | 2 => 0x4C | 3 => 0x46
    | 26 => 0x20 | 32 => 64 | 56 => 1
    | 64 => 1 | 68 => 5 | 72 => 120 | 82 => 0x20 | 96 => 1 | 104 => 2
    | 120 => 0x73
    | _ => 0
  bound := by decide

/-- No process has an address space yet. -/
def booted : Loading where
  swapping := {
    memory := {
      words := fun _ _ => 0
      ref := fun _ => 0
      free := fun p => decide (3 ≤ p ∧ p < 20)
      grants := [some 3, some 4, some 5, some 6, some 7, some 8, some 9, some 10, some 11, some 12] }
    links := listInit ⟨fun _ => none, fun _ => none⟩ none
    praVaddr := fun _ => 0
    smPriv := fun _ => none
    mmapList := fun _ => []
    checkMmStruct := none
    maxSwapOffset := smallArea
    area := fun _ _ => 0
    transfers := 0
    fails := fun _ => false }
  mallocs := [true, true, true]
  reads := [true, true, true]
  currentMm := none
  sstatus := SSTATUS_SPP
  tf := TrapFrame.zero

theorem ready_booted : Ready ∅ 1 booted := by
  have hstarts : PageCounts.Starts ∅ ⟨booted.swapping.memory, ∅⟩ := by
    refine ⟨rfl, by simp, by simp, fun p hp => ?_⟩
    have hbounds : 3 ≤ p ∧ p < 20 := of_decide_eq_true hp
    exact ⟨lt_trans hbounds.2 (by decide), rfl⟩
  exact ⟨⟨paged_starts hstarts, rfl⟩, fun _ _ => not_valid_zero⟩

theorem isLoad_twoBytes {n : Nat} (h : IsLoad twoBytes n) : n = 0 := by
  have hlt : n < 1 := h.1
  omega

theorem inPages_twoBytes (h : InPages (segment twoBytes 0) a) : 0x200000 ≤ a ∧ a < 0x201000 :=
  h

theorem validImage_twoBytes : ValidImage twoBytes := by
  refine ⟨by decide, fun n h => ?_, fun n h => ?_, fun n h => ?_, fun n n' h h' hne => ?_,
    fun n h a ha => ?_⟩
  · cases isLoad_twoBytes h
    decide
  · cases isLoad_twoBytes h
    decide
  · cases isLoad_twoBytes h
    decide
  · exact absurd ((isLoad_twoBytes h).trans (isLoad_twoBytes h').symm) hne
  · cases isLoad_twoBytes h
    have hhigh := (inPages_twoBytes ha).2
    change ¬(2146435072 ≤ a ∧ a < 2147483648)
    omega

/-- The routine returned a value. -/
def returned {σ α : Type} : Kernel (Except Errno α × σ) → Bool
  | .ok (.ok _, _) => true
  | _ => false

theorem eq_ok_of_returned {σ α : Type} {x : Kernel (Except Errno α × σ)} (h : returned x = true) :
    ∃ a s, x = .ok (.ok a, s) := by
  match x, h with
  | .ok (.ok a, s), _ => exact ⟨a, s, rfl⟩

theorem loadSegments_booted : ∃ d s, loadSegments twoBytes 1 3 booted = .ok (.ok d, s) :=
  eq_ok_of_returned (by decide +kernel)

theorem loadIcode_twoBytes {args : List Arg} (hargs : args.length ≤ EXEC_MAX_ARG_NUM)
    (hroom : USTACKTOP - 4 * PGSIZE ≤ uargvOf args - 4) :
    ∃ s, loadIcode twoBytes 1 3 args booted = .ok (.ok (), s) := by
  obtain ⟨d, s, hload⟩ := loadSegments_booted
  exact loadIcode_returns ready_booted validImage_twoBytes hargs rfl hroom hload

theorem imageOf_of_loadIcode_twoBytes : ∃ (s : Loading) (d : Nat), s.currentMm = some d ∧
    s.tf.epc = BitVec.ofNat 64 (elfHdr twoBytes).eEntry ∧
    ImageOf (insert d ∅) twoBytes d s.swapping.memory := by
  obtain ⟨s, hrun⟩ := @loadIcode_twoBytes [] (by decide) (by decide)
  exact ⟨s, imageOf_of_loadIcode ready_booted validImage_twoBytes hrun⟩

end Image

end Ucore.LoadIcodeImage
