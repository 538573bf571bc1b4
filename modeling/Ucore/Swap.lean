import Ucore.AddressSpaces
import Ucore.ListHeader

/-! The swapping of user pages (`swap.c`, `swapfs.c` and `swap_fifo.c`), and the page faults
that bring them back (`do_pgfault`). -/

namespace Ucore.Swap

open Ucore.KernelRoutine
open Ucore.LinkRing
open Ucore.ListHeader
open Ucore.DefaultPmm (PGSIZE)
open Ucore.PageTables
open Ucore.PageOwners (next pte)
open Ucore.AddressSpaces (Vma roundDown)

def MAX_SWAP_OFFSET_LIMIT : Nat := 1 <<< 24
def PAGE_NSECT : Nat := PGSIZE / 512
def MAX_DISK_NSECS : Nat := 0x10000000
def VM_WRITE : Nat := 2
def PTE_R_W : BitVec 32 := 0x007

/-- The sizes of the swap area that `swap_init` allows. -/
abbrev AreaSize := { n : Nat // 7 ≤ n ∧ n < MAX_SWAP_OFFSET_LIMIT }

def smallArea : AreaSize :=
  ⟨7, by decide⟩

/-- What the swap manager works on. An `mm_struct` is known by the frame of its page directory,
and `sm_priv` is `none` where it is `NULL`. Of the list entries, `none` is `pra_list_head`, and
`some page` is the `pra_page_link` of a page. Of the transfers between memory and the swap area,
`fails` says which fail. -/
structure Swapping where
  memory : Memory
  links : Links (Option Nat)
  praVaddr : Nat → Nat
  smPriv : Nat → Option (Option Nat)
  mmapList : Nat → List Vma
  checkMmStruct : Option Nat
  maxSwapOffset : AreaSize
  area : Nat → Index → Word
  transfers : Nat
  fails : Nat → Bool

variable {α : Type}

def onMemory : Routine Memory α → Routine Swapping α :=
  onPart Swapping.memory fun memory s => { s with memory := memory }

section Manager

def setLinks (f : Links (Option Nat) → Links (Option Nat)) : Routine Swapping Unit :=
  modifyState fun s => { s with links := f s.links }

/-- `_fifo_init_mm`. -/
def fifoInitMm (mm : Nat) : Routine Swapping Unit := do
  setLinks fun l => listInit l none
  modifyState fun s => { s with smPriv := Function.update s.smPriv mm (some none) }

/-- `mm_create` of this `mm_struct`, where `swap_init_ok` is set. -/
def mmCreate (mm : Nat) : Routine Swapping Unit :=
  fifoInitMm mm

/-- `_fifo_map_swappable`. -/
def fifoMapSwappable (mm page : Nat) : Routine Swapping Unit := do
  let s ← getState
  match s.smPriv mm with
  | none => abort .panic
  | some head => setLinks fun l => listAddBefore l head (some page)

/-- `_fifo_swap_out_victim`; what `le2page` makes of `pra_list_head` is no page. -/
def fifoSwapOutVictim (mm inTick : Nat) : Routine Swapping (Int × Nat) := do
  let s ← getState
  match s.smPriv mm with
  | none => abort .panic
  | some head =>
      ensure (inTick = 0)
      let entry := listNext s.links head
      setLinks fun l => listDel l entry
      match entry with
      | none => abort .panic
      | some page => return (0, page)

def setPraVaddr (page v : Nat) : Routine Swapping Unit :=
  modifyState fun s => { s with praVaddr := Function.update s.praVaddr page v }

end Manager

section Device

/-- `(v / PGSIZE + 1) << 8`, which `swap_out` makes of an address. -/
def swapEntry (v : Nat) : Word :=
  BitVec.ofNat 64 (v / PGSIZE + 1) <<< 8

/-- `swap_offset` -/
def swapOffset (entry : Word) : Routine Swapping Nat := do
  let s ← getState
  let offset := (entry >>> 8).toNat
  ensure (0 < offset ∧ offset < s.maxSwapOffset.val)
  return offset

/-- Whether a transfer of `ide.c` fails. -/
def ideSecs (secno : Nat) : Routine Swapping Bool := do
  ensure (secno < MAX_DISK_NSECS ∧ secno + PAGE_NSECT ≤ MAX_DISK_NSECS)
  let s ← getState
  modifyState fun s => { s with transfers := s.transfers + 1 }
  return s.fails s.transfers

def swapfsRead (entry : Word) (page : Nat) : Routine Swapping Int := do
  let offset ← swapOffset entry
  if ← ideSecs (offset * PAGE_NSECT) then
    return -1
  else
    let s ← getState
    onMemory (setFrame page (s.area offset))
    return 0

def swapfsWrite (entry : Word) (page : Nat) : Routine Swapping Int := do
  let offset ← swapOffset entry
  if ← ideSecs (offset * PAGE_NSECT) then
    return -1
  else
    modifyState fun s => { s with
      area := Function.update s.area offset (s.memory.words page) }
    return 0

end Device

section Swapping

/-- One pass of the loop of `swap_out`: whether it goes on. -/
def swapOutPass (mm inTick : Nat) : Routine Swapping Bool := do
  let (r, page) ← fifoSwapOutVictim mm inTick
  if r ≠ 0 then
    return false
  else
    let s ← getState
    let v := s.praVaddr page
    match ← onMemory (getPte mm v false) with
    | none => abort .panic
    | some ptep =>
        let s ← getState
        ensure (Valid (s.memory.words ptep.1 ptep.2))
        if (← swapfsWrite (swapEntry v) page) ≠ 0 then
          fifoMapSwappable mm page
          return true
        else
          onMemory (setWord ptep (swapEntry v))
          onMemory (freePage page)
          return true

/-- The loop of `swap_out`, with the passes that are left. -/
def swapOutLoop (mm inTick : Nat) : Nat → Nat → Routine Swapping Nat
  | 0, i => return i
  | left + 1, i => do
      if ← swapOutPass mm inTick then
        swapOutLoop mm inTick left (i + 1)
      else
        return i

def swapOut (mm n inTick : Nat) : Routine Swapping Nat :=
  swapOutLoop mm inTick n 0

/-- `swap_in`; its last assertion holds where it is. -/
def swapIn (mm addr : Nat) : Routine Swapping Nat := do
  match ← onMemory allocPage with
  | none => abort .panic
  | some result =>
      match ← onMemory (getPte mm addr false) with
      | none => abort .panic
      | some ptep =>
          let s ← getState
          let _ ← swapfsRead (s.memory.words ptep.1 ptep.2) result
          return result

/-- `pgdir_alloc_page`, where `swap_init_ok` is set. -/
def pgdirAllocPage (pgdir la : Nat) (perm : BitVec 32) : Routine Swapping (Option Nat) := do
  match ← onMemory (PageTables.pgdirAllocPage pgdir la perm) with
  | none => return none
  | some page =>
      let s ← getState
      match s.checkMmStruct with
      | none => return some page
      | some check =>
          fifoMapSwappable check page
          setPraVaddr page la
          ensure (s.memory.ref page = 1)
          return some page

/-- `find_vma` -/
def findVma (s : Swapping) (mm addr : Nat) : Option Vma :=
  (s.mmapList mm).find? fun vma => vma.vmStart ≤ addr ∧ addr < vma.vmEnd

def vmaPerm (vma : Vma) : BitVec 32 :=
  if vma.vmFlags &&& VM_WRITE ≠ 0 then 0x010 ||| PTE_R_W else 0x010

def doPgfault (mm addr : Nat) : Routine Swapping Unit := do
  let s ← getState
  match findVma s mm addr with
  | none => fail .eInval
  | some vma =>
      let la := roundDown addr PGSIZE
      match ← onMemory (getPte mm la true) with
      | none => fail .eNoMem
      | some ptep =>
          let s ← getState
          if s.memory.words ptep.1 ptep.2 = 0 then
            match ← pgdirAllocPage mm la (vmaPerm vma) with
            | none => fail .eNoMem
            | some _ => return ()
          else
            let page ← swapIn mm la
            let _ ← attempt (onMemory (pageInsert mm page la (vmaPerm vma)))
            fifoMapSwappable mm page
            setPraVaddr page la

end Swapping

end Ucore.Swap
