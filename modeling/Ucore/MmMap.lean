import Mathlib.Data.List.TakeWhile
import Ucore.ForkedSpaces
import Ucore.UserMemory

/-! Where `mm_map` puts a new VMA, and what it makes of a range that is not free. -/

namespace Ucore.MmMap

open Ucore.KernelRoutine
open Ucore.DefaultPmm (PGSIZE)
open Ucore.PageTables
open Ucore.AddressSpaces (Vma Spaces roundDown checkVmaOverlap insertVmaStruct vmaCreate)
open Ucore.ForkedSpaces (Sorted)
open Ucore.Swap
open Ucore.LoadIcode
open Ucore.LoadIcodeImage (booted)
open Ucore.UserMemory (Covers)

section Inserting

variable {vmas : List Vma} {vma : Vma} {s : Spaces}

/-- What `check_vma_overlap` asserts. -/
def InOrder (prev next : Vma) : Prop :=
  prev.vmStart < prev.vmEnd ∧ prev.vmEnd ≤ next.vmStart ∧ next.vmStart < next.vmEnd

instance (prev next : Vma) : Decidable (InOrder prev next) :=
  inferInstanceAs (Decidable (_ ∧ _))

theorem checkVmaOverlap_eq (prev next : Vma) (s : Spaces) :
    checkVmaOverlap prev next s = if InOrder prev next then .ok (.ok (), s) else .error .panic := by
  rw [checkVmaOverlap]
  by_cases hprev : prev.vmStart < prev.vmEnd
  · rw [ensure_bind_of hprev]
    by_cases hbetween : prev.vmEnd ≤ next.vmStart
    · rw [ensure_bind_of hbetween]
      simp [ensure, InOrder, hprev, hbetween]
    · rw [ensure_bind_of_not hbetween, if_neg]
      exact fun h => hbetween h.2.1
  · rw [ensure_bind_of_not hprev, if_neg]
    exact fun h => hprev h.1

/-- The VMAs that `insert_vma_struct` passes, and those that it stops at. -/
def before (vmas : List Vma) (vma : Vma) : List Vma :=
  vmas.takeWhile fun prev => prev.vmStart ≤ vma.vmStart

def after (vmas : List Vma) (vma : Vma) : List Vma :=
  vmas.dropWhile fun prev => prev.vmStart ≤ vma.vmStart

/-- What `insert_vma_struct` asserts of the two neighbours. -/
structure Placed (vmas : List Vma) (vma : Vma) : Prop where
  proper : vma.vmStart < vma.vmEnd
  left : ∀ prev ∈ (before vmas vma).getLast?, InOrder prev vma
  right : ∀ next ∈ (after vmas vma).head?, InOrder vma next

def inserted (vmas : List Vma) (vma : Vma) : List Vma :=
  before vmas vma ++ vma :: after vmas vma

theorem insertVmaStruct_of (h : Placed s.toMm.mmapList vma) :
    insertVmaStruct vma s = .ok (.ok (), { s with toMm := { s.toMm with
      mmapList := inserted s.toMm.mmapList vma
      mapCount := s.toMm.mapCount + 1 } }) := by
  obtain ⟨hproper, hleft, hright⟩ := h
  have hcheck : ∀ prev next, InOrder prev next → checkVmaOverlap prev next s = .ok (.ok (), s) := by
    intro prev next hin
    rw [checkVmaOverlap_eq, if_pos hin]
  rw [insertVmaStruct, ensure_bind_of hproper, getState_bind]
  change ∀ prev ∈ (List.takeWhile _ _).getLast?, _ at hleft
  change ∀ next ∈ (List.dropWhile _ _).head?, _ at hright
  dsimp only
  generalize (List.takeWhile _ s.toMm.mmapList).getLast? = prev at hleft ⊢
  generalize (List.dropWhile _ s.toMm.mmapList).head? = next at hright ⊢
  rcases prev with _ | prev
  · rcases next with _ | next
    · rfl
    · exact bind_of_ok (hcheck vma next (hright next rfl))
  · refine (bind_of_ok (hcheck prev vma (hleft prev rfl))).trans ?_
    rcases next with _ | next
    · rfl
    · exact bind_of_ok (hcheck vma next (hright next rfl))

theorem insertVmaStruct_panics (h : ¬Placed s.toMm.mmapList vma) :
    insertVmaStruct vma s = .error .panic := by
  have hcheck : ∀ prev next, ¬InOrder prev next → checkVmaOverlap prev next s = .error .panic := by
    intro prev next hout
    rw [checkVmaOverlap_eq, if_neg hout]
  have hpass : ∀ prev next, InOrder prev next → checkVmaOverlap prev next s = .ok (.ok (), s) := by
    intro prev next hin
    rw [checkVmaOverlap_eq, if_pos hin]
  rw [insertVmaStruct]
  by_cases hproper : vma.vmStart < vma.vmEnd
  · rw [ensure_bind_of hproper, getState_bind]
    have hneighbours : ¬((∀ prev ∈ (before s.toMm.mmapList vma).getLast?, InOrder prev vma) ∧
        ∀ next ∈ (after s.toMm.mmapList vma).head?, InOrder vma next) := by
      intro hboth
      exact h ⟨hproper, hboth.1, hboth.2⟩
    change ¬((∀ prev ∈ (List.takeWhile _ _).getLast?, _) ∧
      ∀ next ∈ (List.dropWhile _ _).head?, _) at hneighbours
    dsimp only
    generalize (List.takeWhile _ s.toMm.mmapList).getLast? = prev at hneighbours ⊢
    generalize (List.dropWhile _ s.toMm.mmapList).head? = next at hneighbours ⊢
    rcases prev with _ | prev
    · rcases next with _ | next
      · simp at hneighbours
      · exact bind_of_abort (hcheck vma next (by simpa using hneighbours))
    · by_cases hleft : InOrder prev vma
      · refine (bind_of_ok (hpass prev vma hleft)).trans ?_
        rcases next with _ | next
        · simp [hleft] at hneighbours
        · exact bind_of_abort (hcheck vma next (by simpa [hleft] using hneighbours))
      · exact bind_of_abort (hcheck prev vma hleft)
  · exact ensure_bind_of_not hproper _ s

/-- The VMAs of an `mm_struct`, of which each has a byte. -/
structure WellFormed (vmas : List Vma) : Prop where
  sorted : Sorted vmas
  proper : ∀ vma ∈ vmas, vma.vmStart < vma.vmEnd

/-- Two VMAs have no byte in common. -/
def Apart (vma other : Vma) : Prop :=
  other.vmEnd ≤ vma.vmStart ∨ vma.vmEnd ≤ other.vmStart

theorem mem_of_before {prev : Vma} (h : prev ∈ before vmas vma) :
    prev ∈ vmas ∧ prev.vmStart ≤ vma.vmStart :=
  ⟨(List.takeWhile_prefix _).subset h, by simpa using List.mem_takeWhile_imp h⟩

theorem before_append_after (vmas : List Vma) (vma : Vma) :
    before vmas vma ++ after vmas vma = vmas :=
  List.takeWhile_append_dropWhile

theorem WellFormed.lt_of_after (h : WellFormed vmas) {next : Vma} (hnext : next ∈ after vmas vma) :
    vma.vmStart < next.vmStart := by
  have hsuffix : after vmas vma <:+ vmas := List.dropWhile_suffix _
  have hsorted : Sorted (after vmas vma) := h.sorted.sublist hsuffix.sublist
  have hhead : ∀ first ∈ (after vmas vma).head?, vma.vmStart < first.vmStart := by
    intro first hfirst
    have hnot := List.head?_dropWhile_not (fun prev => decide (prev.vmStart ≤ vma.vmStart)) vmas
    rw [after] at hfirst
    rw [hfirst] at hnot
    simpa using hnot
  match hlist : after vmas vma with
  | [] => simp [hlist] at hnext
  | first :: rest =>
      have hfirst := hhead first (by simp [hlist])
      rw [hlist] at hnext hsorted
      rcases List.mem_cons.mp hnext with rfl | hrest
      · exact hfirst
      · have happart := (List.pairwise_cons.mp hsorted).1 next hrest
        have hproper := h.proper first (hsuffix.subset (by simp [hlist]))
        omega

/-- A VMA that has no byte in common with the others has a place between them. -/
theorem WellFormed.placed (h : WellFormed vmas) (hproper : vma.vmStart < vma.vmEnd)
    (hapart : ∀ other ∈ vmas, Apart vma other) : Placed vmas vma := by
  refine ⟨hproper, ?_, ?_⟩
  · intro prev hprev
    obtain ⟨hmem, hle⟩ := mem_of_before (List.mem_of_getLast? hprev)
    have hlt := h.proper prev hmem
    refine ⟨hlt, ?_, hproper⟩
    rcases hapart prev hmem with hend | hend
    · exact hend
    · omega
  · intro next hnext
    have hafter : next ∈ after vmas vma := List.mem_of_mem_head? hnext
    have hmem : next ∈ vmas := (List.dropWhile_suffix _).subset hafter
    have hlt := h.proper next hmem
    have hstart := h.lt_of_after hafter
    refine ⟨hproper, ?_, hlt⟩
    rcases hapart next hmem with hend | hend
    · omega
    · exact hend

theorem WellFormed.inserted (h : WellFormed vmas) (hproper : vma.vmStart < vma.vmEnd)
    (hapart : ∀ other ∈ vmas, Apart vma other) : WellFormed (inserted vmas vma) := by
  have hsplit : Sorted (before vmas vma ++ after vmas vma) := by
    rw [before_append_after]
    exact h.sorted
  obtain ⟨hbefore, hafter, hacross⟩ := List.pairwise_append.mp hsplit
  refine ⟨List.pairwise_append.mpr ⟨hbefore, List.pairwise_cons.mpr ⟨?_, hafter⟩, ?_⟩, ?_⟩
  · intro next hnext
    have hmem : next ∈ vmas := (List.dropWhile_suffix _).subset hnext
    have hstart := h.lt_of_after hnext
    have hlt := h.proper next hmem
    rcases hapart next hmem with hend | hend
    · omega
    · exact hend
  · intro prev hprev next hnext
    rcases List.mem_cons.mp hnext with rfl | hnext
    · obtain ⟨hmem, hle⟩ := mem_of_before hprev
      have hlt := h.proper prev hmem
      rcases hapart prev hmem with hend | hend
      · exact hend
      · omega
    · exact hacross prev hprev next hnext
  · intro other hother
    rcases List.mem_append.mp hother with hother | hother
    · exact h.proper other (mem_of_before hother).1
    · rcases List.mem_cons.mp hother with rfl | hother
      · exact hproper
      · exact h.proper other ((List.dropWhile_suffix _).subset hother)

/-- A VMA that no other begins in front of has no place where it reaches into the next one. -/
theorem WellFormed.not_placed (h : WellFormed vmas) (hfree : ∀ other ∈ vmas, ¬Covers other vma.vmStart)
    {other : Vma} (hother : other ∈ vmas) (hmeets : ¬Apart vma other) : ¬Placed vmas vma := by
  rw [Apart, not_or, not_le, not_le] at hmeets
  intro hplaced
  have hstart : vma.vmStart < other.vmStart := by
    by_contra hle
    exact hfree other hother ⟨by omega, hmeets.1⟩
  have hafter : other ∈ after vmas vma := by
    rw [← before_append_after vmas vma, List.mem_append] at hother
    refine hother.resolve_left ?_
    intro hbefore
    have hle := (mem_of_before hbefore).2
    omega
  have hsorted : Sorted (after vmas vma) := h.sorted.sublist (List.dropWhile_suffix _).sublist
  match hlist : after vmas vma with
  | [] => simp [hlist] at hafter
  | first :: rest =>
      obtain ⟨-, hle, hproper⟩ := hplaced.right first (by simp [hlist])
      rw [hlist] at hafter hsorted
      rcases List.mem_cons.mp hafter with rfl | hrest
      · omega
      · have happart := (List.pairwise_cons.mp hsorted).1 other hrest
        omega

end Inserting

section Mapping

variable {s : Loading} {mm vmFlags : Nat} {addr len : BitVec 64}

/-- The pages around a range of bytes, over unbounded numbers. -/
def spanStart (addr : Nat) : Nat := addr / PGSIZE * PGSIZE

def spanEnd (addr len : Nat) : Nat := (addr + len + (PGSIZE - 1)) / PGSIZE * PGSIZE

def spanOf (addr len : BitVec 64) (vmFlags : Nat) : Vma :=
  ⟨spanStart addr.toNat, spanEnd addr.toNat len.toNat, vmFlags⟩

/-- The range lies in user space, and none of its pages is taken. -/
structure Fits (vmas : List Vma) (span : Vma) : Prop where
  base : USERBASE ≤ span.vmStart
  proper : span.vmStart < span.vmEnd
  top : span.vmEnd ≤ USERTOP
  apart : ∀ other ∈ vmas, Apart span other

/-- `USER_ACCESS`, as `mm_map` computes the range. -/
def Access (addr len : BitVec 64) : Prop :=
  USERBASE ≤ roundDown addr.toNat PGSIZE ∧
    roundDown addr.toNat PGSIZE < roundUp (word (addr.toNat + len.toNat)) PGSIZE ∧
    roundUp (word (addr.toNat + len.toNat)) PGSIZE ≤ USERTOP

instance (addr len : BitVec 64) : Decidable (Access addr len) :=
  inferInstanceAs (Decidable (_ ∧ _))

@[simp] theorem spanOf_vmStart (addr len : BitVec 64) (vmFlags : Nat) :
    (spanOf addr len vmFlags).vmStart = spanStart addr.toNat := rfl

@[simp] theorem spanOf_vmEnd (addr len : BitVec 64) (vmFlags : Nat) :
    (spanOf addr len vmFlags).vmEnd = spanEnd addr.toNat len.toNat := rfl

def insertedSpan (s : Loading) (mm : Nat) (span : Vma) (rest : List Bool) : Loading :=
  { s with
    swapping := { s.swapping with
      mmapList := Function.update s.swapping.mmapList mm (inserted (s.swapping.mmapList mm) span) }
    mallocs := rest }

/-- `mm_map` refuses a range that does not fit, puts one that does in the list, and returns. -/
structure MapsRight (s : Loading) (mm : Nat) (addr len : BitVec 64) (vmFlags : Nat) : Prop where
  refused : ¬Fits (s.swapping.mmapList mm) (spanOf addr len vmFlags) →
    mmMap mm addr.toNat len.toNat vmFlags s = .ok (.error .eInval, s)
  mapped : Fits (s.swapping.mmapList mm) (spanOf addr len vmFlags) → ∀ rest, s.mallocs = true :: rest →
    mmMap mm addr.toNat len.toNat vmFlags s =
      .ok (.ok (), insertedSpan s mm (spanOf addr len vmFlags) rest) ∧
    WellFormed (inserted (s.swapping.mmapList mm) (spanOf addr len vmFlags))
  returns : ∃ r s', mmMap mm addr.toNat len.toNat vmFlags s = .ok (r, s')

theorem roundDown_eq (addr : Nat) : roundDown addr PGSIZE = spanStart addr := by
  have hpage : PGSIZE = 4096 := rfl
  rw [roundDown, spanStart, hpage]
  omega

/-- Rounding does not wrap where the range ends below `USERTOP`. -/
theorem roundUp_eq {addr len : Nat} (hwrap : addr + len < 2 ^ 64)
    (hstart : spanStart addr < roundUp (word (addr + len)) PGSIZE) :
    roundUp (word (addr + len)) PGSIZE = spanEnd addr len := by
  have hpage : PGSIZE = 4096 := rfl
  simp only [roundUp, word, roundDown, spanStart, spanEnd, hpage] at hstart ⊢
  omega

theorem access_of_fits {vmas : List Vma} (h : Fits vmas (spanOf addr len vmFlags)) :
    Access addr len ∧ addr.toNat + len.toNat < 2 ^ 64 := by
  obtain ⟨hbase, hproper, htop, -⟩ := h
  have hUsertop : USERTOP = 524288 * 4096 := rfl
  have hpage : PGSIZE = 4096 := rfl
  simp only [spanOf, spanStart, spanEnd, hpage] at hbase hproper htop
  have hwrap : addr.toNat + len.toNat < 2 ^ 64 := by omega
  refine ⟨?_, hwrap⟩
  rw [Access, roundUp, word, word, roundDown, roundDown, hpage]
  omega

theorem fits_iff {vmas : List Vma} (vmFlags : Nat) (haccess : Access addr len) :
    Fits vmas (spanOf addr len vmFlags) ↔
      addr.toNat + len.toNat < 2 ^ 64 ∧ ∀ other ∈ vmas, Apart (spanOf addr len vmFlags) other := by
  constructor
  · intro hfits
    exact ⟨(access_of_fits hfits).2, hfits.apart⟩
  · rintro ⟨hwrap, hapart⟩
    obtain ⟨hbase, hproper, htop⟩ := haccess
    rw [roundDown_eq] at hbase hproper
    have hround : roundUp (word (addr.toNat + len.toNat)) PGSIZE = spanEnd addr.toNat len.toNat :=
      roundUp_eq hwrap hproper
    rw [hround] at hproper htop
    refine ⟨?_, ?_, ?_, hapart⟩
    · rw [spanOf_vmStart]
      exact hbase
    · rw [spanOf_vmStart, spanOf_vmEnd]
      exact hproper
    · rw [spanOf_vmEnd]
      exact htop

theorem mmMap_refused (h : ¬Access addr len) :
    mmMap mm addr.toNat len.toNat vmFlags s = .ok (.error .eInval, s) := by
  rw [Access] at h
  rw [mmMap]
  rw [if_pos h]
  rfl

/-- The range that `mm_map` tries to insert. -/
def triedSpan (addr len : BitVec 64) (vmFlags : Nat) : Vma :=
  ⟨roundDown addr.toNat PGSIZE, roundUp (word (addr.toNat + len.toNat)) PGSIZE, vmFlags⟩

theorem mmMap_covered (haccess : Access addr len) {vma : Vma} (hmem : vma ∈ s.swapping.mmapList mm)
    (hcovers : Covers vma (roundDown addr.toNat PGSIZE)) :
    mmMap mm addr.toNat len.toNat vmFlags s = .ok (.error .eInval, s) := by
  rw [mmMap]
  rw [Access] at haccess
  rw [if_neg (not_not.mpr haccess), getState_bind, if_pos]
  · rfl
  · cases hfind : findVma s.swapping mm (roundDown addr.toNat PGSIZE) with
    | none => exact absurd hcovers (by simpa [Covers] using List.find?_eq_none.mp hfind vma hmem)
    | some found =>
        have hfound : Covers found (roundDown addr.toNat PGSIZE) := by
          simpa [Covers] using List.find?_some hfind
        have hstart := hfound.1
        simp only [Option.any_some, decide_eq_true_eq]
        omega

theorem mmMap_free (haccess : Access addr len)
    (hfree : ∀ vma ∈ s.swapping.mmapList mm, ¬Covers vma (roundDown addr.toNat PGSIZE)) :
    mmMap mm addr.toNat len.toNat vmFlags s =
      (onPart (spaceOf mm) (putSpace mm) (vmaCreate (roundDown addr.toNat PGSIZE)
          (roundUp (word (addr.toNat + len.toNat)) PGSIZE) vmFlags) >>= fun
        | none => fail .eNoMem
        | some vma => onPart (spaceOf mm) (putSpace mm) (insertVmaStruct vma)) s := by
  have hnone : findVma s.swapping mm (roundDown addr.toNat PGSIZE) = none := by
    refine List.find?_eq_none.mpr ?_
    intro vma hmem
    simpa [Covers] using hfree vma hmem
  rw [mmMap]
  rw [Access] at haccess
  rw [if_neg (not_not.mpr haccess), getState_bind, hnone]
  rfl

/-- Memory for a VMA is what the space has left once it is taken. -/
theorem vmaCreate_of {rest : List Bool} (hmallocs : s.mallocs = true :: rest) (vmStart vmEnd : Nat) :
    onPart (spaceOf mm) (putSpace mm) (vmaCreate vmStart vmEnd vmFlags) s =
      .ok (.ok (some ⟨vmStart, vmEnd, vmFlags⟩), { s with mallocs := rest }) := by
  have hcreate : vmaCreate vmStart vmEnd vmFlags (spaceOf mm s) =
      .ok (.ok (some ⟨vmStart, vmEnd, vmFlags⟩), { spaceOf mm s with mallocs := rest }) := by
    simp only [vmaCreate, spaceOf, hmallocs]
  rw [onPart_of hcreate]
  simp only [putSpace, spaceOf, Function.update_eq_self]

theorem vmaCreate_none (mm vmFlags : Nat) (hmallocs : ∀ rest, s.mallocs ≠ true :: rest)
    (vmStart vmEnd : Nat) :
    ∃ s', onPart (spaceOf mm) (putSpace mm) (vmaCreate vmStart vmEnd vmFlags) s =
      .ok (.ok none, s') := by
  match hlist : s.mallocs with
  | true :: rest => exact absurd hlist (hmallocs rest)
  | false :: rest =>
      have hcreate : vmaCreate vmStart vmEnd vmFlags (spaceOf mm s) =
          .ok (.ok none, { spaceOf mm s with mallocs := rest }) := by
        simp only [vmaCreate, spaceOf, hlist]
      exact ⟨_, onPart_of hcreate⟩
  | [] =>
      have hcreate : vmaCreate vmStart vmEnd vmFlags (spaceOf mm s) =
          .ok (.ok none, spaceOf mm s) := by
        simp only [vmaCreate, spaceOf, hlist]
      exact ⟨_, onPart_of hcreate⟩

theorem mmMap_noMemory (vmFlags : Nat) (haccess : Access addr len)
    (hfree : ∀ vma ∈ s.swapping.mmapList mm, ¬Covers vma (roundDown addr.toNat PGSIZE))
    (hmallocs : ∀ rest, s.mallocs ≠ true :: rest) :
    ∃ s', mmMap mm addr.toNat len.toNat vmFlags s = .ok (.error .eNoMem, s') := by
  obtain ⟨s', hcreate⟩ := vmaCreate_none mm vmFlags hmallocs
    (roundDown addr.toNat PGSIZE) (roundUp (word (addr.toNat + len.toNat)) PGSIZE)
  refine ⟨s', ?_⟩
  rw [mmMap_free haccess hfree, bind_of_ok hcreate]
  rfl

theorem mmMap_inserts (haccess : Access addr len)
    (hfree : ∀ vma ∈ s.swapping.mmapList mm, ¬Covers vma (roundDown addr.toNat PGSIZE))
    {rest : List Bool} (hmallocs : s.mallocs = true :: rest) :
    mmMap mm addr.toNat len.toNat vmFlags s =
      onPart (spaceOf mm) (putSpace mm) (insertVmaStruct (triedSpan addr len vmFlags))
        { s with mallocs := rest } := by
  rw [mmMap_free haccess hfree, bind_of_ok (vmaCreate_of hmallocs _ _)]
  rfl

theorem insertSpan_of {span : Vma} (h : Placed (s.swapping.mmapList mm) span) :
    onPart (spaceOf mm) (putSpace mm) (insertVmaStruct span) s =
      .ok (.ok (), insertedSpan s mm span s.mallocs) := by
  have hplaced : Placed (spaceOf mm s).toMm.mmapList span := h
  rw [onPart_of (insertVmaStruct_of hplaced)]
  rfl

theorem insertSpan_panics {span : Vma} (h : ¬Placed (s.swapping.mmapList mm) span) :
    onPart (spaceOf mm) (putSpace mm) (insertVmaStruct span) s = .error .panic := by
  have hplaced : ¬Placed (spaceOf mm s).toMm.mmapList span := h
  rw [onPart, insertVmaStruct_panics hplaced]

/-- What `mm_map` tries to insert where the range fits. -/
theorem triedSpan_eq (h : Fits (s.swapping.mmapList mm) (spanOf addr len vmFlags)) :
    triedSpan addr len vmFlags = spanOf addr len vmFlags := by
  obtain ⟨haccess, hwrap⟩ := access_of_fits h
  have hround : roundUp (word (addr.toNat + len.toNat)) PGSIZE = spanEnd addr.toNat len.toNat := by
    refine roundUp_eq hwrap ?_
    rw [← roundDown_eq]
    exact haccess.2.1
  rw [triedSpan, spanOf, roundDown_eq, hround]

theorem not_covers_of_fits (h : Fits (s.swapping.mmapList mm) (spanOf addr len vmFlags)) :
    ∀ vma ∈ s.swapping.mmapList mm, ¬Covers vma (roundDown addr.toNat PGSIZE) := by
  rintro vma hmem ⟨hle, hlt⟩
  have hproper := h.proper
  rw [roundDown_eq] at hle hlt
  rw [spanOf_vmStart, spanOf_vmEnd] at hproper
  rcases h.apart vma hmem with hend | hend
  · rw [spanOf_vmStart] at hend
    omega
  · rw [spanOf_vmEnd] at hend
    omega

theorem mapsRight_of_fits (hwf : WellFormed (s.swapping.mmapList mm))
    (h : Fits (s.swapping.mmapList mm) (spanOf addr len vmFlags)) :
    MapsRight s mm addr len vmFlags := by
  obtain ⟨haccess, -⟩ := access_of_fits h
  have hfree := not_covers_of_fits h
  have hplaced := hwf.placed h.proper h.apart
  have hrun : ∀ rest, s.mallocs = true :: rest → mmMap mm addr.toNat len.toNat vmFlags s =
      .ok (.ok (), insertedSpan s mm (spanOf addr len vmFlags) rest) := by
    intro rest hmallocs
    rw [mmMap_inserts haccess hfree hmallocs, triedSpan_eq h]
    exact insertSpan_of hplaced
  refine ⟨fun hnot => absurd h hnot, ?_, ?_⟩
  · rintro - rest hmallocs
    exact ⟨hrun rest hmallocs, hwf.inserted h.proper h.apart⟩
  · by_cases hmallocs : ∃ rest, s.mallocs = true :: rest
    · obtain ⟨rest, hmallocs⟩ := hmallocs
      exact ⟨_, _, hrun rest hmallocs⟩
    · obtain ⟨s', hnone⟩ := mmMap_noMemory vmFlags haccess hfree (not_exists.mp hmallocs)
      exact ⟨_, _, hnone⟩

theorem mapsRight_of_refused (hnot : ¬Fits (s.swapping.mmapList mm) (spanOf addr len vmFlags))
    (h : mmMap mm addr.toNat len.toNat vmFlags s = .ok (.error .eInval, s)) :
    MapsRight s mm addr len vmFlags :=
  ⟨fun _ => h, fun hfits => absurd hfits hnot, ⟨_, _, h⟩⟩

/-- A range that `mm_map` does not find taken is never refused. -/
theorem not_refused (haccess : Access addr len)
    (hfree : ∀ vma ∈ s.swapping.mmapList mm, ¬Covers vma (roundDown addr.toNat PGSIZE)) :
    mmMap mm addr.toNat len.toNat vmFlags s ≠ .ok (.error .eInval, s) := by
  intro hrefused
  by_cases hmallocs : ∃ rest, s.mallocs = true :: rest
  · obtain ⟨rest, hmallocs⟩ := hmallocs
    rw [mmMap_inserts haccess hfree hmallocs] at hrefused
    by_cases hplaced : Placed (s.swapping.mmapList mm) (triedSpan addr len vmFlags)
    · have hplaced' : Placed (({ s with mallocs := rest } : Loading).swapping.mmapList mm)
          (triedSpan addr len vmFlags) := hplaced
      rw [insertSpan_of hplaced'] at hrefused
      simp at hrefused
    · have hplaced' : ¬Placed (({ s with mallocs := rest } : Loading).swapping.mmapList mm)
          (triedSpan addr len vmFlags) := hplaced
      rw [insertSpan_panics hplaced'] at hrefused
      simp at hrefused
  · obtain ⟨s', hnone⟩ := mmMap_noMemory vmFlags haccess hfree (not_exists.mp hmallocs)
    rw [hnone] at hrefused
    simp at hrefused

/-- `mm_map` does what it should where its own test refuses the range, where a VMA has its first
page, and where the range neither wraps nor meets a VMA. -/
theorem mapsRight_iff (hwf : WellFormed (s.swapping.mmapList mm)) :
    MapsRight s mm addr len vmFlags ↔
      ¬Access addr len ∨
        (∃ vma ∈ s.swapping.mmapList mm, Covers vma (spanStart addr.toNat)) ∨
        (addr.toNat + len.toNat < 2 ^ 64 ∧
          ∀ other ∈ s.swapping.mmapList mm, Apart (spanOf addr len vmFlags) other) := by
  constructor
  · intro hright
    by_cases haccess : Access addr len
    · refine .inr ?_
      by_cases hcovered : ∃ vma ∈ s.swapping.mmapList mm, Covers vma (spanStart addr.toNat)
      · exact .inl hcovered
      · refine .inr ((fits_iff vmFlags haccess).mp ?_)
        by_contra hnot
        refine not_refused haccess ?_ (hright.refused hnot)
        intro vma hmem hcovers
        rw [roundDown_eq] at hcovers
        exact hcovered ⟨vma, hmem, hcovers⟩
    · exact .inl haccess
  · rintro (haccess | ⟨vma, hmem, hcovers⟩ | hfits)
    · exact mapsRight_of_refused (fun hfits => haccess (access_of_fits hfits).1) (mmMap_refused haccess)
    · by_cases haccess : Access addr len
      · rw [← roundDown_eq] at hcovers
        exact mapsRight_of_refused (fun hfits => not_covers_of_fits hfits vma hmem hcovers)
          (mmMap_covered haccess hmem hcovers)
      · exact mapsRight_of_refused (fun hfits => haccess (access_of_fits hfits).1)
          (mmMap_refused haccess)
    · by_cases haccess : Access addr len
      · exact mapsRight_of_fits hwf ((fits_iff vmFlags haccess).mpr hfits)
      · exact mapsRight_of_refused (fun hfits => haccess (access_of_fits hfits).1)
          (mmMap_refused haccess)

theorem mapsRight_booted :
    MapsRight booted 1 (BitVec.ofNat 64 USERBASE) 1 VM_READ := by
  have hempty : booted.swapping.mmapList 1 = [] := rfl
  have hwf : WellFormed (booted.swapping.mmapList 1) := by
    rw [hempty]
    exact ⟨List.Pairwise.nil, by simp⟩
  exact (mapsRight_iff hwf).mpr (.inr (.inr ⟨by decide, by simp [hempty]⟩))

/-- One page after `USERBASE` is taken. -/
def pageTaken : Loading :=
  { booted with swapping := { booted.swapping with
      mmapList := fun _ => [⟨USERBASE + PGSIZE, USERBASE + 2 * PGSIZE, VM_READ⟩] } }

theorem wellFormed_pageTaken : WellFormed (pageTaken.swapping.mmapList 1) where
  sorted := List.pairwise_singleton _ _
  proper := by simp [pageTaken, PGSIZE]

theorem not_covers_pageTaken :
    ∀ vma ∈ pageTaken.swapping.mmapList 1, ¬Covers vma (roundDown USERBASE PGSIZE) := by
  intro vma hmem
  rw [List.mem_singleton.mp hmem]
  decide

/-- A range that reaches into the taken page ends in an assertion, and one that wraps is mapped. -/
theorem not_mapsRight_reaching :
    WellFormed (pageTaken.swapping.mmapList 1) ∧
      mmMap 1 (BitVec.ofNat 64 USERBASE).toNat (BitVec.ofNat 64 (2 * PGSIZE)).toNat VM_READ pageTaken =
        .error .panic ∧
      ¬MapsRight pageTaken 1 (BitVec.ofNat 64 USERBASE) (BitVec.ofNat 64 (2 * PGSIZE)) VM_READ ∧
      ¬MapsRight pageTaken 1 (BitVec.ofNat 64 (USERBASE + 0x800)) (BitVec.ofNat 64 (2 ^ 64 - 0x400))
        VM_READ := by
  have hbase : (BitVec.ofNat 64 USERBASE).toNat = USERBASE := by decide
  have haccess : Access (BitVec.ofNat 64 USERBASE) (BitVec.ofNat 64 (2 * PGSIZE)) := by decide
  have hfree : ∀ vma ∈ pageTaken.swapping.mmapList 1,
      ¬Covers vma (roundDown (BitVec.ofNat 64 USERBASE).toNat PGSIZE) := by
    rw [hbase]
    exact not_covers_pageTaken
  have hpanic : mmMap 1 (BitVec.ofNat 64 USERBASE).toNat (BitVec.ofNat 64 (2 * PGSIZE)).toNat VM_READ
      pageTaken = .error .panic := by
    have hmallocs : pageTaken.mallocs = [true, true, true] := rfl
    rw [mmMap_inserts haccess hfree hmallocs]
    refine insertSpan_panics ?_
    refine wellFormed_pageTaken.not_placed hfree (List.mem_singleton_self _) ?_
    rw [Apart]
    decide
  refine ⟨wellFormed_pageTaken, hpanic, ?_, ?_⟩
  · intro hright
    obtain ⟨r, s', hreturns⟩ := hright.returns
    rw [hpanic] at hreturns
    cases hreturns
  · intro hright
    have hwraps : Access (BitVec.ofNat 64 (USERBASE + 0x800)) (BitVec.ofNat 64 (2 ^ 64 - 0x400)) := by
      decide
    have hround : roundDown (BitVec.ofNat 64 (USERBASE + 0x800)).toNat PGSIZE =
        roundDown USERBASE PGSIZE := by decide
    refine not_refused hwraps ?_ (hright.refused ?_)
    · rw [hround]
      exact not_covers_pageTaken
    · intro hfits
      have hlt := (access_of_fits hfits).2
      revert hlt
      decide

end Mapping

end Ucore.MmMap
