import Ucore.AddressSpaces

/-! How the user part of an address space is taken down (`exit_mmap`). -/

namespace Ucore.ExitMmap

open Ucore.KernelRoutine
open Ucore.DefaultPmm (PGSIZE)
open Ucore.PageTables
open Ucore.AddressSpaces

/-- What one entry of the page directory maps. -/
def PDSIZE : Nat := PTSIZE * NPTEENTRY

section UnmapRange

/-- The loop of `unmap_range`. -/
def unmapRangeLoop (pgdir stop start : Nat) : Routine Memory Unit := do
  match ← getPte pgdir start false with
  | none =>
      if _h : roundDown (start + PTSIZE) PTSIZE ≠ 0 ∧ roundDown (start + PTSIZE) PTSIZE < stop then
        unmapRangeLoop pgdir stop (roundDown (start + PTSIZE) PTSIZE)
  | some ptep =>
      let s ← getState
      if s.words ptep.1 ptep.2 ≠ 0 then pageRemovePte ptep
      if _h : start + PGSIZE ≠ 0 ∧ start + PGSIZE < stop then
        unmapRangeLoop pgdir stop (start + PGSIZE)
termination_by stop - start
decreasing_by
  · have hlt := lt_roundDown start
    omega
  · have hpos : 0 < PGSIZE := by decide
    omega

def unmapRange (pgdir start stop : Nat) : Routine Memory Unit := do
  ensure (start % PGSIZE = 0 ∧ stop % PGSIZE = 0)
  ensure (USERBASE ≤ start ∧ start < stop ∧ stop ≤ USERTOP)
  unmapRangeLoop pgdir stop start

end UnmapRange

section ExitRange

/-- What `exit_range` does with the page table that an entry of `pd0` leads to. -/
def exitTable (pd0 : Nat) (i : Index) : Routine Memory Unit := do
  let s ← getState
  let pt ← KADDR (frameOf (s.words pd0 i))
  if ∀ j : Index, ¬Valid (s.words pt j) then
    freePage (frameOf (s.words pd0 i))
    setWord (pd0, i) 0

/-- The inner loop of `exit_range`, which returns `free_pd0`. -/
def exitTables (pd0 stop d1stop d0start : Nat) (freePd0 : Bool) : Routine Memory Bool := do
  let s ← getState
  if Valid (s.words pd0 (PDX0 d0start)) then exitTable pd0 (PDX0 d0start)
  let free := freePd0 && decide (Valid (s.words pd0 (PDX0 d0start)))
  if _h : d0start + PTSIZE < d1stop ∧ d0start + PTSIZE < stop then
    exitTables pd0 stop d1stop (d0start + PTSIZE) free
  else
    return free
termination_by stop - d0start
decreasing_by
  have hpos : 0 < PTSIZE := by decide
  omega

/-- What `exit_range` does with one entry of the page directory. -/
def exitDirectory (pgdir stop d1start d0start : Nat) : Routine Memory Unit := do
  let s ← getState
  if Valid (s.words pgdir (PDX1 d1start)) then
    let pd0 ← KADDR (frameOf (s.words pgdir (PDX1 d1start)))
    if ← exitTables pd0 stop (d1start + PDSIZE) d0start true then
      freePage (frameOf (s.words pgdir (PDX1 d1start)))
      setWord (pgdir, PDX1 d1start) 0

/-- The outer loop of `exit_range`. -/
def exitRangeLoop (pgdir stop d1start d0start : Nat) : Routine Memory Unit := do
  exitDirectory pgdir stop d1start d0start
  if _h : d1start + PDSIZE < stop then
    exitRangeLoop pgdir stop (d1start + PDSIZE) (d1start + PDSIZE)
termination_by stop - d1start
decreasing_by
  have hpos : 0 < PDSIZE := by decide
  omega

def exitRange (pgdir start stop : Nat) : Routine Memory Unit := do
  ensure (start % PGSIZE = 0 ∧ stop % PGSIZE = 0)
  ensure (USERBASE ≤ start ∧ start < stop ∧ stop ≤ USERTOP)
  exitRangeLoop pgdir stop (roundDown start PDSIZE) (roundDown start PTSIZE)

end ExitRange

def unmapVmas (pgdir : Nat) : List Vma → Routine Memory Unit
  | [] => return ()
  | vma :: rest => do
      unmapRange pgdir vma.vmStart vma.vmEnd
      unmapVmas pgdir rest

def exitVmas (pgdir : Nat) : List Vma → Routine Memory Unit
  | [] => return ()
  | vma :: rest => do
      exitRange pgdir vma.vmStart vma.vmEnd
      exitVmas pgdir rest

/-- The two loops of `exit_mmap`. -/
def exitMmap (pgdir : Nat) (mmapList : List Vma) : Routine Memory Unit := do
  unmapVmas pgdir mmapList
  exitVmas pgdir mmapList

end Ucore.ExitMmap
