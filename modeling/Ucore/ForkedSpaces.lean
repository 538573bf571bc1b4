import Ucore.PageCopies

/-! `dup_mmap`: the VMAs are put into the new list one by one, from the last to the first. -/

namespace Ucore.ForkedSpaces

open Ucore.Errors
open Ucore.Panic
open Ucore.KernelRoutine
open Ucore.RadixTables
open Ucore.DefaultPmm (PGSIZE)
open Ucore.PageTables
open Ucore.PageOwners
open Ucore.AddressSpaces
open Ucore.PageCopies
open Ucore.PageCounts

/-- The numbers of the pages in these VMAs. -/
def covered (vmas : List Vma) : Set Nat :=
  {v | ∃ vma ∈ vmas, v ∈ Set.Ico (vma.vmStart / PGSIZE) (vma.vmEnd / PGSIZE)}

/-- The VMAs are sorted, and they do not overlap. -/
def Sorted (vmas : List Vma) : Prop :=
  vmas.Pairwise fun vma later => vma.vmEnd ≤ later.vmStart

/-- What is checked of a VMA while it is copied. -/
structure Proper (vma : Vma) : Prop where
  startAligned : vma.vmStart % PGSIZE = 0
  endAligned : vma.vmEnd % PGSIZE = 0
  start_lt : vma.vmStart < vma.vmEnd
  end_le : vma.vmEnd ≤ USERTOP

variable {s s' : Spaces} {dirs pages : Finset Nat} {owner owner₀ : Nat → Role} {vma nvma : Vma}
  {vmas rest : List Vma} {t f start stop : Nat} {m m' s₀ : Memory} {done : Set Nat}

section Inserting

theorem covered_nil : covered [] = ∅ := by
  ext v
  simp [covered]

theorem covered_cons (vma : Vma) (vmas : List Vma) :
    covered (vma :: vmas) =
      covered vmas ∪ Set.Ico (vma.vmStart / PGSIZE) (vma.vmEnd / PGSIZE) := by
  ext v
  rw [covered, covered, Set.mem_union, Set.mem_ofPred_eq, Set.mem_ofPred_eq,
    List.exists_mem_cons_iff]
  exact or_comm

theorem checkVmaOverlap_same {prev next : Vma} {r : Except Errno Unit}
    (h : checkVmaOverlap prev next s = .ok (r, s')) : s' = s := by
  rw [checkVmaOverlap] at h
  exact ensure_same (ensure_bind_passed (ensure_bind_passed h).2).2

/-- A VMA that is before all others is put at the head of the list. -/
theorem insertVmaStruct_head (hsorted : Sorted (vma :: s.toMm.mmapList))
    (hrun : insertVmaStruct vma s = .ok (.ok (), s')) :
    vma.vmStart < vma.vmEnd ∧ s' = { s with toMm := { s.toMm with
      mmapList := vma :: s.toMm.mmapList
      mapCount := s.toMm.mapCount + 1 } } := by
  obtain ⟨hlt, hrest⟩ := ensure_bind_passed hrun
  refine ⟨hlt, ?_⟩
  rw [getState_bind] at hrest
  have hafter : ∀ later ∈ s.toMm.mmapList, ¬later.vmStart ≤ vma.vmStart := by
    intro later hmem hle
    have hapart := (List.pairwise_cons.mp hsorted).1 later hmem
    omega
  cases hlist : s.toMm.mmapList with
  | nil =>
      simp only [hlist] at hrest
      cases hrest
      rfl
  | cons next tail =>
      have hnext : ¬next.vmStart ≤ vma.vmStart := hafter next (by simp [hlist])
      simp only [hlist, List.takeWhile_cons, List.dropWhile_cons, hnext, decide_false,
        Bool.false_eq_true, if_false] at hrest
      change (checkVmaOverlap vma next >>= fun _ => _) s = _ at hrest
      rcases bind_eq_ok_iff.mp hrest with ⟨u, s₁, hcheck, hput⟩ | ⟨e, _, he⟩
      · rw [checkVmaOverlap_same hcheck] at hput
        cases hput
        rfl
      · cases he

end Inserting

section Copying

theorem copyRange_of (ht : t ∈ dirs) (hf : f ∈ dirs) (hne : f ≠ t)
    (hs₀ : Owned s₀ dirs pages owner₀) {pages' : Finset Nat} (hs : Owned m dirs pages' owner)
    (hcopied : Copied dirs t f s₀ owner₀ done m owner)
    (hnew : ∀ v ∈ Set.Ico (start / PGSIZE) (stop / PGSIZE), v ∉ done)
    (hrun : copyRange t f start stop m = .ok (.ok (), m')) :
    Proper ⟨start, stop, 0⟩ ∧ ∃ pages'' owner', Owned m' dirs pages'' owner' ∧
      Copied dirs t f s₀ owner₀ (done ∪ Set.Ico (start / PGSIZE) (stop / PGSIZE)) m' owner' := by
  obtain ⟨⟨hstart, hend⟩, hchecked⟩ := ensure_bind_passed hrun
  obtain ⟨⟨_, hlt, hle⟩, hloop⟩ := ensure_bind_passed hchecked
  exact ⟨⟨hstart, hend, hlt, hle⟩,
    copyRangeLoop_of ht hf hne hs₀ hle hend hstart hlt hs hcopied hnew hloop⟩

/-- Where the loop of `dup_mmap` is: the VMAs in the new list were copied. -/
structure Progress (dirs : Finset Nat) (t f : Nat) (s₀ : Memory) (owner₀ : Nat → Role)
    (s : Spaces) : Prop where
  toDir : s.toMm.pgdir = t
  fromDir : s.fromMm.pgdir = f
  proper : ∀ vma ∈ s.toMm.mmapList, Proper vma
  copied : ∃ pages owner, Owned s.memory dirs pages owner ∧
    Copied dirs t f s₀ owner₀ (covered s.toMm.mmapList) s.memory owner

/-- What one VMA adds. -/
theorem copies_vma (ht : t ∈ dirs) (hf : f ∈ dirs) (hne : f ≠ t)
    (hs₀ : Owned s₀ dirs pages owner₀) (h : Progress dirs t f s₀ owner₀ s)
    (hsorted : Sorted (vma :: s.toMm.mmapList)) (hinsert : insertVmaStruct vma s = .ok (.ok (), s'))
    {s'' : Spaces} (hrun : onMemory (copyRange s'.toMm.pgdir s'.fromMm.pgdir vma.vmStart vma.vmEnd) s' =
      .ok (.ok (), s'')) :
    Progress dirs t f s₀ owner₀ s'' ∧ s''.toMm.mmapList = vma :: s.toMm.mmapList ∧
      s''.fromMm = s.fromMm := by
  obtain ⟨hlt, rfl⟩ := insertVmaStruct_head hsorted hinsert
  obtain ⟨m', hcopy, rfl⟩ := onPart_eq_ok hrun
  obtain ⟨pages', owner, howned, hcopied⟩ := h.copied
  have hnew : ∀ v ∈ Set.Ico (vma.vmStart / PGSIZE) (vma.vmEnd / PGSIZE),
      v ∉ covered s.toMm.mmapList := by
    rintro v ⟨_, hhigh⟩ ⟨later, hmem, hlow, _⟩
    have hapart : vma.vmEnd / PGSIZE ≤ later.vmStart / PGSIZE :=
      Nat.div_le_div_right ((List.pairwise_cons.mp hsorted).1 later hmem)
    omega
  change copyRange s.toMm.pgdir s.fromMm.pgdir vma.vmStart vma.vmEnd s.memory = _ at hcopy
  rw [h.toDir, h.fromDir] at hcopy
  obtain ⟨hproper, pages'', owner', howned', hcopied'⟩ :=
    copyRange_of ht hf hne hs₀ howned hcopied hnew hcopy
  rw [← covered_cons] at hcopied'
  refine ⟨⟨h.toDir, h.fromDir, ?_, pages'', owner', howned', hcopied'⟩, rfl, rfl⟩
  intro u hu
  rcases List.mem_cons.mp hu with rfl | hold
  · exact ⟨hproper.startAligned, hproper.endAligned, hproper.start_lt, hproper.end_le⟩
  · exact h.proper u hold

theorem vmaCreate_cases (vmStart vmEnd vmFlags : Nat) (s : Spaces) :
    ∃ mallocs, vmaCreate vmStart vmEnd vmFlags s = .ok (.ok none, { s with mallocs := mallocs }) ∨
      vmaCreate vmStart vmEnd vmFlags s =
        .ok (.ok (some ⟨vmStart, vmEnd, vmFlags⟩), { s with mallocs := mallocs }) := by
  rw [vmaCreate]
  split
  · next rest _ => exact ⟨rest, Or.inr rfl⟩
  · next rest _ => exact ⟨rest, Or.inl rfl⟩
  · exact ⟨s.mallocs, Or.inl rfl⟩

/-- What `dup_mmap` does with the result of `copy_range`. -/
def dupRest (rest : List Vma) : Except Errno Unit → Routine Spaces Unit
  | .error _ => fail .eNoMem
  | .ok () => dupMmapLoop rest

theorem dupMmapLoop_of (ht : t ∈ dirs) (hf : f ∈ dirs) (hne : f ≠ t)
    (hs₀ : Owned s₀ dirs pages owner₀) (h : Progress dirs t f s₀ owner₀ s)
    (hsorted : Sorted (rest.reverse ++ s.toMm.mmapList))
    (hrun : dupMmapLoop rest s = .ok (.ok (), s')) :
    Progress dirs t f s₀ owner₀ s' ∧ s'.toMm.mmapList = rest.reverse ++ s.toMm.mmapList ∧
      s'.fromMm = s.fromMm := by
  induction rest generalizing s with
  | nil =>
      cases hrun
      exact ⟨h, rfl, rfl⟩
  | cons vma rest ih =>
      rw [List.reverse_cons, List.append_assoc, List.singleton_append] at hsorted ⊢
      have hcreate : ∃ mallocs, (insertVmaStruct vma >>= fun _ => getState >>= fun u =>
          attempt (onMemory (copyRange u.toMm.pgdir u.fromMm.pgdir vma.vmStart vma.vmEnd)) >>=
            dupRest rest) { s with mallocs := mallocs } = .ok (.ok (), s') := by
        rcases vmaCreate_cases vma.vmStart vma.vmEnd vma.vmFlags s with
          ⟨mallocs, hnone | hsome⟩
        · rw [dupMmapLoop, bind_of_ok hnone] at hrun
          cases hrun
        · rw [dupMmapLoop, bind_of_ok hsome] at hrun
          exact ⟨mallocs, hrun⟩
      obtain ⟨mallocs, hbody⟩ := hcreate
      rcases bind_eq_ok_iff.mp hbody with ⟨u, s₂, hinsert, hcopy⟩ | ⟨e, _, he⟩
      · rw [getState_bind] at hcopy
        obtain ⟨r, s₃, hrange, hrest⟩ := attempt_bind_eq_ok_iff.mp hcopy
        cases r with
        | error e => cases hrest
        | ok u =>
            obtain ⟨h₃, hlist, hfrom⟩ := copies_vma ht hf hne hs₀ (s := { s with mallocs := mallocs })
              ⟨h.toDir, h.fromDir, h.proper, h.copied⟩ (List.pairwise_append.mp hsorted).2.1
              hinsert hrange
            obtain ⟨h', hlist', hfrom'⟩ := ih h₃ (by rw [hlist]; exact hsorted) hrest
            refine ⟨h', ?_, hfrom'.trans hfrom⟩
            rw [hlist', hlist]
      · cases he

end Copying

section Forking

/-- What `copy_mm` has when it calls `dup_mmap`: the user part of the new page directory is
empty, and the entries of the other one are 0 or lead to pages of its VMAs. -/
structure Forkable (dirs pages : Finset Nat) (owner : Nat → Role) (s : Spaces) : Prop where
  owned : Owned s.memory dirs pages owner
  toDir : s.toMm.pgdir ∈ dirs
  fromDir : s.fromMm.pgdir ∈ dirs
  ne : s.fromMm.pgdir ≠ s.toMm.pgdir
  sorted : Sorted s.fromMm.mmapList
  entries : ∀ la < USERTOP, pte s.memory s.fromMm.pgdir la = 0 ∨
    Valid (pte s.memory s.fromMm.pgdir la) ∧
      ∃ vma ∈ s.fromMm.mmapList, vma.vmStart ≤ la ∧ la < vma.vmEnd
  noVmas : s.toMm.mmapList = []
  empty : ∀ la < USERTOP, pte s.memory s.toMm.pgdir la = 0

/-- The page that `to` has for an address. -/
structure SamePage (dirs : Finset Nat) (s s' : Spaces) (la src copy : Nat) : Prop where
  source : next (pte s.memory s.fromMm.pgdir la) = some src
  mapped : next (pte s'.memory s'.toMm.pgdir la) = some copy
  words : s'.memory.words copy = s.memory.words src
  flags : pte s'.memory s'.toMm.pgdir la &&& PTE_USER =
    pte s.memory s.fromMm.pgdir la &&& PTE_USER
  alone : ∀ d ∈ dirs, ∀ la' < USERTOP, next (pte s'.memory d la') = some copy →
    d = s'.toMm.pgdir ∧ la' / PGSIZE = la / PGSIZE

/-- `from` is as it was. -/
structure Unchanged (owner : Nat → Role) (s s' : Spaces) : Prop where
  mm : s'.fromMm = s.fromMm
  entries : ∀ la < USERTOP, pte s'.memory s.fromMm.pgdir la = pte s.memory s.fromMm.pgdir la
  tables : ∀ q path, owner q = .table s.fromMm.pgdir path → s'.memory.words q = s.memory.words q
  pages : ∀ la < USERTOP, ∀ p, next (pte s.memory s.fromMm.pgdir la) = some p →
    s'.memory.words p = s.memory.words p ∧ s'.memory.ref p = s.memory.ref p

/-- What `dup_mmap` leaves. -/
structure Forked (dirs : Finset Nat) (owner : Nat → Role) (s s' : Spaces) : Prop where
  pgdir : s'.toMm.pgdir = s.toMm.pgdir
  vmas : s'.toMm.mmapList = s.fromMm.mmapList
  sorted : Sorted s'.toMm.mmapList
  mapped : ∀ la < USERTOP, Valid (pte s'.memory s'.toMm.pgdir la) ↔
    Valid (pte s.memory s.fromMm.pgdir la)
  pages : ∀ la < USERTOP, Valid (pte s.memory s.fromMm.pgdir la) →
    ∃ src copy, SamePage dirs s s' la src copy
  unchanged : Unchanged owner s s'

theorem progress_start (h : Forkable dirs pages owner s) :
    Progress dirs s.toMm.pgdir s.fromMm.pgdir s.memory owner s := by
  refine ⟨rfl, rfl, ?_, pages, owner, h.owned, ?_⟩
  · rw [h.noVmas]
    simp
  · rw [h.noVmas, covered_nil]
    exact copied_start h.empty

/-- Every page that is mapped is in a VMA, and was copied. -/
theorem covered_entry (h : Forkable dirs pages owner s)
    (hproper : ∀ vma ∈ s.fromMm.mmapList, Proper vma) {la : Nat} (hla : la < USERTOP)
    (hvalid : Valid (pte s.memory s.fromMm.pgdir la)) :
    la / PGSIZE ∈ covered s.fromMm.mmapList := by
  rcases h.entries la hla with hzero | ⟨_, vma, hmem, hlow, hhigh⟩
  · rw [hzero] at hvalid
    exact absurd hvalid not_valid_zero
  · refine ⟨vma, hmem, Nat.div_le_div_right hlow, ?_⟩
    have haligned := (hproper vma hmem).endAligned
    change vma.vmEnd % 4096 = 0 at haligned
    show la / 4096 < vma.vmEnd / 4096
    omega

/-- `dup_mmap` that returns 0 has copied the address space. -/
theorem forked_of_dupMmap (h : Forkable dirs pages owner s)
    (hrun : dupMmap s = .ok (.ok (), s')) : Forked dirs owner s s' := by
  rw [dupMmap, getState_bind] at hrun
  have hlists : s.fromMm.mmapList.reverse.reverse ++ s.toMm.mmapList = s.fromMm.mmapList := by
    rw [List.reverse_reverse, h.noVmas, List.append_nil]
  obtain ⟨hprogress, hlist, hmm⟩ := dupMmapLoop_of h.toDir h.fromDir h.ne h.owned
    (progress_start h) (by rw [hlists]; exact h.sorted) hrun
  rw [hlists] at hlist
  obtain ⟨pages', owner', howned, hcopied⟩ := hprogress.copied
  have hdir := hprogress.toDir
  have hproper := hprogress.proper
  rw [hlist] at hcopied hproper
  have hcopy : ∀ la < USERTOP, Valid (pte s.memory s.fromMm.pgdir la) → ∃ src copy,
      CopyOf s.toMm.pgdir s.fromMm.pgdir la s.memory owner s'.memory owner' src copy :=
    fun la hla hvalid => hcopied.copied la hla (covered_entry h hproper hla hvalid) hvalid
  refine ⟨hdir, hlist, ?_, ?_, ?_, hmm, ?_, ?_, ?_⟩
  · rw [hlist]
    exact h.sorted
  · intro la hla
    rw [hdir]
    constructor
    · intro hvalid
      by_contra hnot
      rw [hcopied.empty la hla fun hboth => hnot hboth.2] at hvalid
      exact not_valid_zero hvalid
    · intro hvalid
      obtain ⟨src, copy, hcopied'⟩ := hcopy la hla hvalid
      exact (next_eq_some.mp hcopied'.mapped).1
  · intro la hla hvalid
    obtain ⟨src, copy, hcopied'⟩ := hcopy la hla hvalid
    refine ⟨src, copy, hcopied'.source, ?_, hcopied'.words, ?_, ?_⟩
    · rw [hdir]
      exact hcopied'.mapped
    · rw [hdir]
      exact hcopied'.flags
    · intro d hd la' hla' hnext
      rw [hdir]
      rcases eq_or_ne d s.toMm.pgdir with rfl | hother
      · exact ⟨rfl, hcopied.apart la' hla' la hla copy hnext hcopied'.mapped⟩
      · rw [hcopied.others d hd hother la' hla'] at hnext
        have hold := h.owned.page_of_pte hd hla' hnext
        rw [h.owned.page copy, hcopied'.fresh] at hold
        cases hold
  · exact fun la hla => hcopied.others _ h.fromDir h.ne la hla
  · intro q path hq
    refine hcopied.keeps.words q (by simp [hq]) ?_
    intro path' hq'
    exact h.ne (Role.table.inj (hq.symm.trans hq')).1
  · intro la hla p hnext
    have hpage := (h.owned.page p).mp (h.owned.page_of_pte h.fromDir hla hnext)
    exact ⟨hcopied.keeps.words p (by simp [hpage]) (by simp [hpage]),
      hcopied.ref p (by simp [hpage])⟩

/-- Two page directories, before anything is mapped. -/
def twoDirectories : System where
  memory := {
    words := fun _ _ => 0
    ref := fun _ => 0
    free := fun p => decide (3 ≤ p ∧ p < 20)
    grants := [some 3, some 4, some 5, some 6, some 7, some 8] }
  pages := ∅

/-- The state in which the routine returns. -/
def returned {α : Type} (x : Routine Memory α) (s : Memory) : Memory :=
  match x s with
  | .ok (_, s') => s'
  | .error _ => s

/-- One page is mapped in the first of them. -/
def onePage : Spaces where
  memory := returned (perform (.pgdirAllocPage 1 0x200000 0x1F)) twoDirectories.memory
  toMm := { mmapList := [], pgdir := 2, mapCount := 0 }
  fromMm := { mmapList := [⟨0x200000, 0x201000, 3⟩], pgdir := 1, mapCount := 1 }
  mallocs := [true]

theorem starts_twoDirectories : Starts {1, 2} twoDirectories := by
  refine ⟨rfl, ?_, fun _ _ _ _ => rfl, ?_⟩
  · intro d hd
    rcases Finset.mem_insert.mp hd with rfl | hd'
    · exact ⟨by decide, rfl⟩
    · rw [Finset.mem_singleton.mp hd']
      exact ⟨by decide, rfl⟩
  · intro p hp
    have hlt := (of_decide_eq_true hp).2
    exact ⟨lt_trans hlt (by decide), rfl⟩

theorem forkable_onePage : ∃ pages owner, Forkable {1, 2} pages owner onePage := by
  have hperforms : Performs {1, 2} (.pgdirAllocPage 1 0x200000 0x1F) twoDirectories :=
    (sound_starts starts_twoDirectories).performs ⟨by decide, by decide, by decide⟩
  obtain ⟨r, m, hperform, houtcome⟩ := hperforms
  have hmemory : onePage.memory = m := by
    show returned (perform (.pgdirAllocPage 1 0x200000 0x1F)) twoDirectories.memory = m
    rw [returned, hperform]
  have hzero : ∀ d la, pte twoDirectories.memory d la = 0 := by
    intro d la
    apply pte_of_none
    rw [slot, indices, locate_cons (by simp)]
    show (next 0).bind _ = none
    rw [next_of_not not_valid_zero]
    rfl
  have hframe := houtcome.frame
  obtain ⟨owner, howned⟩ := houtcome.owned
  rw [← hmemory] at hframe howned
  refine ⟨_, owner, howned, by decide, by decide, by decide, ?_, ?_, rfl, ?_⟩
  · exact List.pairwise_singleton _ _
  · intro la hla
    rcases Decidable.em (la / PGSIZE = 0x200000 / PGSIZE) with hpage | hother
    · right
      rw [← pte_page, hpage]
      refine ⟨by decide, ⟨0x200000, 0x201000, 3⟩, by simp [onePage], ?_⟩
      change la / 4096 = 0x200000 / 4096 at hpage
      show 0x200000 ≤ la ∧ la < 0x201000
      omega
    · left
      exact (hframe 1 (by decide) la hla fun habout => hother habout.2).trans (hzero 1 la)
  · intro la hla
    exact (hframe 2 (by decide) la hla fun habout => absurd habout.1 (by decide)).trans
      (hzero 2 la)

theorem forked_of_dupMmap_onePage : ∃ owner s', Forked {1, 2} owner onePage s' ∧
    Valid (pte s'.memory 2 0x200000) := by
  obtain ⟨pages, owner, hforkable⟩ := forkable_onePage
  have hloop : ∃ m, copyRangeLoop 2 1 0x201000 0x200000 onePage.memory = .ok (.ok (), m) := by
    rw [copyRangeLoop]
    exact ⟨_, rfl⟩
  obtain ⟨m, hloop⟩ := hloop
  let vma : Vma := ⟨0x200000, 0x201000, 3⟩
  let inserted : Spaces := { onePage with
    toMm := { mmapList := [vma], pgdir := 2, mapCount := 1 }
    mallocs := [] }
  have hrange : onMemory (copyRange 2 1 0x200000 0x201000) inserted =
      .ok (.ok (), { inserted with memory := m }) := onPart_of hloop
  have hrun : dupMmap onePage = .ok (.ok (), { inserted with memory := m }) := by
    have hcreate : vmaCreate 0x200000 0x201000 3 onePage =
        .ok (.ok (some vma), { onePage with mallocs := [] }) := rfl
    have hinsert : insertVmaStruct vma { onePage with mallocs := [] } = .ok (.ok (), inserted) := rfl
    change dupMmapLoop [vma] onePage = _
    rw [dupMmapLoop, bind_of_ok hcreate]
    change (insertVmaStruct vma >>= fun _ => _) _ = _
    rw [bind_of_ok hinsert, getState_bind]
    exact attempt_bind_of_ok hrange _
  have hforked := forked_of_dupMmap hforkable hrun
  refine ⟨owner, _, hforked, ?_⟩
  have hmapped := (hforked.mapped 0x200000 (by decide)).mpr (by decide)
  rw [hforked.pgdir] at hmapped
  exact hmapped

end Forking

end Ucore.ForkedSpaces
