import Ucore.PageOwners

/-! The `mm_struct` of `vmm.c`, and how one is copied. -/

namespace Ucore.AddressSpaces

open Ucore.KernelRoutine
open Ucore.DefaultPmm (PGSIZE)
open Ucore.PageTables

structure Vma where
  vmStart : Nat
  vmEnd : Nat
  vmFlags : Nat
  deriving DecidableEq

structure Mm where
  mmapList : List Vma
  pgdir : Nat
  mapCount : Nat

/-- `ROUNDDOWN` -/
def roundDown (a n : Nat) : Nat := a - a % n

section CopyRange

/-- What `copy_range` does with a page that is mapped. -/
def copyPage (toDir : Nat) (ptep : Nat × Index) (start : Nat) : Routine Memory Unit := do
  match ← getPte toDir start true with
  | none => fail .eNoMem
  | some _ =>
      let s ← getState
      let perm := (s.words ptep.1 ptep.2 &&& PTE_USER).setWidth 32
      let page ← pte2page (s.words ptep.1 ptep.2)
      match ← allocPage with
      | none => abort .panic
      | some newPage =>
          let src ← KADDR page
          let dst ← KADDR newPage
          let s ← getState
          setFrame dst (s.words src)
          match ← attempt (pageInsert toDir newPage start perm) with
          | .error _ => abort .panic
          | .ok () => return ()

theorem lt_roundDown (start : Nat) : start < roundDown (start + PTSIZE) PTSIZE := by
  have hlt : (start + PTSIZE) % PTSIZE < PTSIZE := Nat.mod_lt _ (by decide)
  rw [roundDown]
  omega

/-- The loop of `copy_range`. -/
def copyRangeLoop (toDir fromDir stop start : Nat) : Routine Memory Unit := do
  match ← getPte fromDir start false with
  | none =>
      if _h : roundDown (start + PTSIZE) PTSIZE ≠ 0 ∧ roundDown (start + PTSIZE) PTSIZE < stop then
        copyRangeLoop toDir fromDir stop (roundDown (start + PTSIZE) PTSIZE)
  | some ptep =>
      let s ← getState
      if Valid (s.words ptep.1 ptep.2) then copyPage toDir ptep start
      if _h : start + PGSIZE ≠ 0 ∧ start + PGSIZE < stop then
        copyRangeLoop toDir fromDir stop (start + PGSIZE)
termination_by stop - start
decreasing_by
  · have hlt := lt_roundDown start
    omega
  · have hpos : 0 < PGSIZE := by decide
    omega

/-- `copy_range`; `share` is not used. -/
def copyRange (toDir fromDir start stop : Nat) : Routine Memory Unit := do
  ensure (start % PGSIZE = 0 ∧ stop % PGSIZE = 0)
  ensure (USERBASE ≤ start ∧ start < stop ∧ stop ≤ USERTOP)
  copyRangeLoop toDir fromDir stop start

end CopyRange

section Vmas

/-- What `dup_mmap` works on; `mallocs` says which calls of `kmalloc` return memory. -/
structure Spaces where
  memory : Memory
  toMm : Mm
  fromMm : Mm
  mallocs : List Bool

variable {α : Type}

def onMemory : Routine Memory α → Routine Spaces α :=
  onPart Spaces.memory fun memory s => { s with memory := memory }

def checkVmaOverlap (prev next : Vma) : Routine Spaces Unit := do
  ensure (prev.vmStart < prev.vmEnd)
  ensure (prev.vmEnd ≤ next.vmStart)
  ensure (next.vmStart < next.vmEnd)

/-- `insert_vma_struct` into the list of `to`. -/
def insertVmaStruct (vma : Vma) : Routine Spaces Unit := do
  ensure (vma.vmStart < vma.vmEnd)
  let s ← getState
  let before := s.toMm.mmapList.takeWhile fun prev => prev.vmStart ≤ vma.vmStart
  let after := s.toMm.mmapList.dropWhile fun prev => prev.vmStart ≤ vma.vmStart
  match before.getLast? with
  | none => pure ()
  | some prev => checkVmaOverlap prev vma
  match after.head? with
  | none => pure ()
  | some next => checkVmaOverlap vma next
  modifyState fun s => { s with toMm := { s.toMm with
    mmapList := before ++ vma :: after
    mapCount := s.toMm.mapCount + 1 } }

def vmaCreate (vmStart vmEnd vmFlags : Nat) : Routine Spaces (Option Vma) := fun s =>
  match s.mallocs with
  | true :: rest => .ok (.ok (some ⟨vmStart, vmEnd, vmFlags⟩), { s with mallocs := rest })
  | false :: rest => .ok (.ok none, { s with mallocs := rest })
  | [] => .ok (.ok none, s)

/-- The loop of `dup_mmap` over the VMAs that are left. -/
def dupMmapLoop : List Vma → Routine Spaces Unit
  | [] => return ()
  | vma :: rest => do
      match ← vmaCreate vma.vmStart vma.vmEnd vma.vmFlags with
      | none => fail .eNoMem
      | some nvma =>
          insertVmaStruct nvma
          let s ← getState
          match ← attempt (onMemory (copyRange s.toMm.pgdir s.fromMm.pgdir vma.vmStart vma.vmEnd)) with
          | .error _ => fail .eNoMem
          | .ok () => dupMmapLoop rest

/-- `dup_mmap` goes through the list from its end. -/
def dupMmap : Routine Spaces Unit := do
  let s ← getState
  dupMmapLoop s.fromMm.mmapList.reverse

end Vmas

end Ucore.AddressSpaces
