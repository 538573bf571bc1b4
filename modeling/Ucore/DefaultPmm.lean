import Mathlib.Data.BitVec
import Ucore.ListHeader
import Ucore.Panic

/-!
The physical memory manager of `kern/mm/default_pmm.c`. A `struct Page *` is an
index into the `pages` array, and `le2page` is the index carried by the entry.
-/

namespace Ucore.DefaultPmm

open Ucore.LinkRing
open Ucore.ListHeader
open Ucore.Panic

def PGSIZE : Nat := 4096
def DRAM_BASE : Nat := 0x80000000
def PHYSICAL_MEMORY_END : Nat := 0x88000000

/-- Number of entries of the `pages` array, `npage - nbase`. -/
def npages : Nat := PHYSICAL_MEMORY_END / PGSIZE - DRAM_BASE / PGSIZE

/-- Address of a `list_entry_t`: the list header or a `page_link`. -/
inductive Entry where
  | freeList
  | pageLink (page : Nat)
  deriving DecidableEq, Repr

/-- The fields of `struct Page` that the manager uses. -/
structure Page where
  ref : Int
  flags : BitVec 64
  property : Nat
  deriving DecidableEq, Repr

def setBit (nr : Nat) (flags : BitVec 64) : BitVec 64 :=
  flags ||| BitVec.twoPow 64 nr

def clearBit (nr : Nat) (flags : BitVec 64) : BitVec 64 :=
  flags &&& ~~~ BitVec.twoPow 64 nr

def testBit (nr : Nat) (flags : BitVec 64) : Bool :=
  flags.getLsbD nr

def PG_reserved : Nat := 0
def PG_property : Nat := 1

/-- `free_area` together with the `pages` array. -/
structure FreeArea where
  page : Nat → Page
  links : Links Entry
  nrFree : Nat

def FreeArea.setPage (s : FreeArea) (p : Nat) (v : Page) : FreeArea :=
  { s with page := Function.update s.page p v }

def setPageReserved (s : FreeArea) (p : Nat) : FreeArea :=
  s.setPage p { s.page p with flags := setBit PG_reserved (s.page p).flags }

def pageReserved (s : FreeArea) (p : Nat) : Bool :=
  testBit PG_reserved (s.page p).flags

def setPageProperty (s : FreeArea) (p : Nat) : FreeArea :=
  s.setPage p { s.page p with flags := setBit PG_property (s.page p).flags }

def clearPageProperty (s : FreeArea) (p : Nat) : FreeArea :=
  s.setPage p { s.page p with flags := clearBit PG_property (s.page p).flags }

def pageProperty (s : FreeArea) (p : Nat) : Bool :=
  testBit PG_property (s.page p).flags

/-- Assignment to an `unsigned int`. -/
def toUint (n : Nat) : Nat := n % 2 ^ 32

def setProperty (s : FreeArea) (p n : Nat) : FreeArea :=
  s.setPage p { s.page p with property := toUint n }

def addNrFree (s : FreeArea) (n : Nat) : FreeArea :=
  { s with nrFree := toUint (s.nrFree + n) }

/-- Bound of the list walks: a walk past this many entries has met an entry
twice, so it never ends. -/
def walkBound : Nat := npages + 2

def defaultInit (s : FreeArea) : FreeArea :=
  { s with links := listInit s.links .freeList, nrFree := 0 }

/-- The `while` loop that links `base` into the free list, entered with the
entry `le` of the previous round. The tail branch has no `break`. -/
def linkLoop (base : Nat) : Nat → Links Entry → Entry → Kernel (Links Entry)
  | 0, _, _ => .error .loop
  | fuel + 1, links, le =>
      match listNext links le with
      | .freeList => .ok links
      | .pageLink page =>
          if base < page then
            .ok (listAddBefore links (.pageLink page) (.pageLink base))
          else if listNext links (.pageLink page) = .freeList then
            linkLoop base fuel
              (listAdd links (.pageLink page) (.pageLink base)) (.pageLink page)
          else
            linkLoop base fuel links (.pageLink page)

/-- The part that `default_init_memmap` and `default_free_pages` share: make
`base` the head of a free block of `n` pages and link it in by address. -/
def linkBlock (s : FreeArea) (base n : Nat) : Kernel FreeArea := do
  let s := addNrFree (setPageProperty (setProperty s base n) base) n
  if listEmpty s.links .freeList then
    return { s with links := listAdd s.links .freeList (.pageLink base) }
  else
    let links ← linkLoop base walkBound s.links .freeList
    return { s with links := links }

/-- First loop of `default_init_memmap`, from page `p` on. -/
def initPages (s : FreeArea) (p : Nat) : Nat → Kernel FreeArea
  | 0 => .ok s
  | n + 1 => do
      kassert (pageReserved s p)
      initPages (s.setPage p { ref := 0, flags := 0, property := 0 }) (p + 1) n

def defaultInitMemmap (s : FreeArea) (base n : Nat) : Kernel FreeArea := do
  kassert (0 < n)
  let s ← initPages s base n
  linkBlock s base n

/-- First loop of `default_free_pages`, from page `p` on. -/
def resetPages (s : FreeArea) (p : Nat) : Nat → Kernel FreeArea
  | 0 => .ok s
  | n + 1 => do
      kassert (¬pageReserved s p ∧ ¬pageProperty s p)
      resetPages (s.setPage p { s.page p with ref := 0, flags := 0 }) (p + 1) n

/-- Merge the block `base` into its lower neighbour; returns the block that
now contains `base`. -/
def mergeLower (s : FreeArea) (base : Nat) : FreeArea × Nat :=
  match listPrev s.links (.pageLink base) with
  | .freeList => (s, base)
  | .pageLink p =>
      if p + (s.page p).property = base then
        let s := setProperty s p ((s.page p).property + (s.page base).property)
        let s := clearPageProperty s base
        ({ s with links := listDel s.links (.pageLink base) }, p)
      else
        (s, base)

/-- Merge the upper neighbour of the block `base` into it. -/
def mergeUpper (s : FreeArea) (base : Nat) : FreeArea :=
  match listNext s.links (.pageLink base) with
  | .freeList => s
  | .pageLink p =>
      if base + (s.page base).property = p then
        let s := setProperty s base ((s.page base).property + (s.page p).property)
        let s := clearPageProperty s p
        { s with links := listDel s.links (.pageLink p) }
      else
        s

def defaultFreePages (s : FreeArea) (base n : Nat) : Kernel FreeArea := do
  kassert (0 < n)
  let s ← resetPages s base n
  let s ← linkBlock s base n
  let (s, base) := mergeLower s base
  return mergeUpper s base

/-- The search loop of `default_alloc_pages`. -/
def searchFit (s : FreeArea) (n : Nat) : Nat → Entry → Kernel (Option Nat)
  | 0, _ => .error .loop
  | fuel + 1, le =>
      match listNext s.links le with
      | .freeList => .ok none
      | .pageLink p =>
          if n ≤ (s.page p).property then .ok (some p)
          else searchFit s n fuel (.pageLink p)

/-- Take the first `n` pages of the block `page`. -/
def takePages (s : FreeArea) (page n : Nat) : FreeArea :=
  let prev := listPrev s.links (.pageLink page)
  let s := { s with links := listDel s.links (.pageLink page) }
  let s :=
    if n < (s.page page).property then
      let p := page + n
      let s := setPageProperty (setProperty s p ((s.page page).property - n)) p
      { s with links := listAdd s.links prev (.pageLink p) }
    else s
  clearPageProperty { s with nrFree := s.nrFree - n } page

def defaultAllocPages (s : FreeArea) (n : Nat) : Kernel (Option Nat × FreeArea) := do
  kassert (0 < n)
  if s.nrFree < n then
    return (none, s)
  else
    match ← searchFit s n walkBound .freeList with
    | none => return (none, s)
    | some page => return (some page, takePages s page n)

def defaultNrFreePages (s : FreeArea) : Nat :=
  s.nrFree

@[simp] theorem testBit_setBit_self {nr : Nat} (h : nr < 64) (flags : BitVec 64) :
    testBit nr (setBit nr flags) = true := by
  simp [testBit, setBit, h]

theorem testBit_setBit_ne {i nr : Nat} (h : i ≠ nr) (flags : BitVec 64) :
    testBit i (setBit nr flags) = testBit i flags := by
  simp [testBit, setBit, BitVec.getLsbD_twoPow, h.symm]

@[simp] theorem testBit_clearBit_self (nr : Nat) (flags : BitVec 64) :
    testBit nr (clearBit nr flags) = false := by
  simp only [testBit, clearBit, BitVec.getLsbD_and, BitVec.getLsbD_not,
    BitVec.getLsbD_twoPow]
  by_cases h : nr < 64
  · simp [h]
  · simp [h]

theorem testBit_clearBit_ne {i nr : Nat} (h : i ≠ nr) (flags : BitVec 64) :
    testBit i (clearBit nr flags) = testBit i flags := by
  simp only [testBit, clearBit, BitVec.getLsbD_and, BitVec.getLsbD_not,
    BitVec.getLsbD_twoPow]
  by_cases hi : i < 64
  · simp [hi, h.symm]
  · simp [hi, BitVec.getLsbD_of_ge flags i (by omega)]

@[simp] theorem testBit_zero (nr : Nat) : testBit nr 0#64 = false := by
  simp [testBit]

end Ucore.DefaultPmm
