import Mathlib.Data.BitVec
import Ucore.DefaultPmm
import Ucore.KernelRoutine

/-! The SLOB allocator of `kmalloc.c`. Addresses are counted in units of 16 bytes, the size of
`slob_t`, and 0 is `NULL`. -/

namespace Ucore.Kmalloc

open Ucore.KernelRoutine
open Ucore.DefaultPmm (PGSIZE)

def SLOB_UNIT : Nat := 16

def SLOB_UNITS (size : Nat) : Nat := (size + SLOB_UNIT - 1) / SLOB_UNIT

/-- The units of a page. -/
def pageUnits : Nat := PGSIZE / SLOB_UNIT

/-- `sizeof(bigblock_t)` -/
def bigblockSize : Nat := 24

/-- The `slob_t` at each address. A `bigblock_t` is in the same memory: its `order` is where
`units` is, and its `pages` where `next` is; its own `next` is in `nextBig`. Of the page frames,
`free` are with the page allocator, and `grants` says what `alloc_pages` is going to return: where
these frames are not free that is the same as `NULL`, and so is the end of the list. -/
structure Slob where
  units : Nat → Nat
  next : Nat → Nat
  nextBig : Nat → Nat
  slobfree : Nat
  bigblocks : Nat
  free : Nat → Bool
  grants : List (Option Nat)

section Fields

def setUnits (cur units : Nat) : Routine Slob Unit :=
  modifyState fun s => { s with units := Function.update s.units cur units }

def setNext (cur next : Nat) : Routine Slob Unit :=
  modifyState fun s => { s with next := Function.update s.next cur next }

def setNextBig (bb next : Nat) : Routine Slob Unit :=
  modifyState fun s => { s with nextBig := Function.update s.nextBig bb next }

def setSlobfree (cur : Nat) : Routine Slob Unit :=
  modifyState fun s => { s with slobfree := cur }

def setBigblocks (bb : Nat) : Routine Slob Unit :=
  modifyState fun s => { s with bigblocks := bb }

end Fields

section Pages

/-- The page frames of a block of this order. -/
def InBlock (page order q : Nat) : Prop :=
  page ≤ q ∧ q < page + 1 <<< order

instance (page order q : Nat) : Decidable (InBlock page order q) :=
  inferInstanceAs (Decidable (_ ∧ _))

def mark (free : Nat → Bool) (page order : Nat) (b : Bool) : Nat → Bool :=
  fun q => if InBlock page order q then b else free q

/-- `__slob_get_free_pages`, which returns the address of the pages. -/
def slobGetFreePages (order : Nat) : Routine Slob Nat := fun s =>
  match s.grants with
  | some page :: rest =>
      if page ≠ 0 ∧ ∀ i < 1 <<< order, s.free (page + i) = true then
        .ok (.ok (page * pageUnits), { s with
          free := mark s.free page order false
          grants := rest })
      else
        .ok (.ok 0, { s with grants := rest })
  | none :: rest => .ok (.ok 0, { s with grants := rest })
  | [] => .ok (.ok 0, s)

/-- `__slob_free_pages` -/
def slobFreePages (kva order : Nat) : Routine Slob Unit :=
  modifyState fun s => { s with free := mark s.free (kva / pageUnits) order true }

end Pages

section SlobFree

/-- The loop of `slob_free`, which finds the entry to put the block after. -/
def reinsertionPoint (b : Nat) : Nat → Nat → Routine Slob Nat
  | 0, _ => abort .loop
  | fuel + 1, cur => do
      let s ← getState
      if b > cur ∧ b < s.next cur then
        return cur
      else if cur ≥ s.next cur ∧ (b > cur ∨ b < s.next cur) then
        return cur
      else
        reinsertionPoint b fuel (s.next cur)

def mergeRight (b cur : Nat) : Routine Slob Unit := do
  let s ← getState
  if b + s.units b = s.next cur then
    setUnits b (s.units b + s.units (s.next cur))
    setNext b (s.next (s.next cur))
  else
    setNext b (s.next cur)

def mergeLeft (b cur : Nat) : Routine Slob Unit := do
  let s ← getState
  if cur + s.units cur = b then
    setUnits cur (s.units cur + s.units b)
    setNext cur (s.next b)
  else
    setNext cur b

/-- `slob_free` is told the size, unless it is in `units` already. -/
def recordSize (b size : Nat) : Routine Slob Unit :=
  if size ≠ 0 then setUnits b (SLOB_UNITS size) else pure ()

def slobFree (fuel block size : Nat) : Routine Slob Unit := do
  if block = 0 then
    return ()
  else
    recordSize block size
    let s ← getState
    let cur ← reinsertionPoint block fuel s.slobfree
    mergeRight block cur
    mergeLeft block cur
    setSlobfree cur

end SlobFree

section SlobAlloc

/-- `slob_alloc` where it takes the first units of a block. -/
def takeUnits (units prev cur : Nat) : Routine Slob Unit := do
  let s ← getState
  if s.units cur = units then
    setNext prev (s.next cur)
  else
    setNext prev (cur + units)
    setUnits (cur + units) (s.units cur - units)
    let s ← getState
    setNext (cur + units) (s.next cur)
    setUnits cur units

/-- The loop of `slob_alloc`, with `align` 0. -/
def slobAllocLoop (size units : Nat) : Nat → Nat → Nat → Routine Slob Nat
  | 0, _, _ => abort .loop
  | fuel + 1, prev, cur => do
      let s ← getState
      if s.units cur ≥ units then
        takeUnits units prev cur
        setSlobfree prev
        return cur
      else if cur = s.slobfree then
        if size = PGSIZE then
          return 0
        else
          let page ← slobGetFreePages 0
          if page = 0 then
            return 0
          else
            slobFree fuel page PGSIZE
            let s ← getState
            slobAllocLoop size units fuel s.slobfree (s.next s.slobfree)
      else
        slobAllocLoop size units fuel cur (s.next cur)

def slobAlloc (fuel size : Nat) : Routine Slob Nat := do
  ensure (size + SLOB_UNIT < PGSIZE)
  let s ← getState
  slobAllocLoop size (SLOB_UNITS size) fuel s.slobfree (s.next s.slobfree)

end SlobAlloc

section Kmalloc

/-- The loop of `find_order`. -/
def findOrderLoop (size : Int) : Nat :=
  if size > 4096 then findOrderLoop (size >>> (1 : Nat)) + 1 else 0
termination_by size.toNat
decreasing_by
  have hhalf : size >>> (1 : Nat) = size / 2 := Int.shiftRight_eq_div_pow size 1
  omega

/-- `find_order`; its parameter is an `int`. -/
def findOrder (size : Nat) : Nat :=
  findOrderLoop (BitVec.ofNat 32 size).toInt

/-- `__kmalloc` from where it has a `bigblock_t`. -/
def kmallocPages (fuel size bb : Nat) : Routine Slob Nat := do
  if bb = 0 then
    return 0
  else
    setUnits bb (findOrder size)
    let pages ← slobGetFreePages (findOrder size)
    setNext bb pages
    if pages ≠ 0 then
      let s ← getState
      setNextBig bb s.bigblocks
      setBigblocks bb
      return pages
    else
      slobFree fuel bb bigblockSize
      return 0

def kmalloc (fuel size : Nat) : Routine Slob Nat := do
  if size < PGSIZE - SLOB_UNIT then
    let m ← slobAlloc fuel (size + SLOB_UNIT)
    return if m ≠ 0 then m + 1 else 0
  else
    let bb ← slobAlloc fuel bigblockSize
    kmallocPages fuel size bb

/-- The loop of `kfree`: the block that has these pages and the one before it, which is 0 for
the head of the list. -/
def findBig (block : Nat) : Nat → Nat → Nat → Routine Slob (Option (Nat × Nat))
  | 0, _, _ => abort .loop
  | fuel + 1, last, bb => do
      if bb = 0 then
        return none
      else
        let s ← getState
        if s.next bb = block then
          return some (last, bb)
        else
          findBig block fuel bb (s.nextBig bb)

/-- `*last = bb->next` -/
def unlinkBig (last bb : Nat) : Routine Slob Unit := do
  let s ← getState
  if last = 0 then
    setBigblocks (s.nextBig bb)
  else
    setNextBig last (s.nextBig bb)

/-- Only a page-aligned block might be on the big block list. -/
def findBigBlock (fuel block : Nat) : Routine Slob (Option (Nat × Nat)) :=
  if block % pageUnits = 0 then do
    let s ← getState
    findBig block fuel 0 s.bigblocks
  else
    pure none

/-- The block goes back to the page allocator when the search has found it, and otherwise into the
free list. -/
def release (fuel block : Nat) : Option (Nat × Nat) → Routine Slob Unit
  | some (last, bb) => do
      unlinkBig last bb
      let s ← getState
      slobFreePages block (s.units bb)
      slobFree fuel bb bigblockSize
  | none => slobFree fuel (block - 1) 0

def kfree (fuel block : Nat) : Routine Slob Unit := do
  if block = 0 then
    return ()
  else
    let found ← findBigBlock fuel block
    release fuel block found

end Kmalloc

end Ucore.Kmalloc
