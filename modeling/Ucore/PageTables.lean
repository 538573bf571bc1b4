import Mathlib.Data.Nat.Bitwise
import Ucore.DefaultPmm
import Ucore.KernelRoutine
import Ucore.RadixTables

/-!
The page tables of `pmm.c` (Sv39). A frame is known by its `ppn`, and what is in it is
an array of words; a page table entry is known by the frame and the index where it is.
-/

namespace Ucore.PageTables

open Ucore.KernelRoutine
open Ucore.DefaultPmm (PGSIZE PHYSICAL_MEMORY_END)

section Words

/-- What an entry of a page table or of a page directory is. -/
abbrev Word := BitVec 64

def NPTEENTRY : Nat := 512
def PTSIZE : Nat := PGSIZE * NPTEENTRY

abbrev Index := Fin NPTEENTRY

def PTXSHIFT : Nat := 12
def PDX0SHIFT : Nat := 21
def PDX1SHIFT : Nat := 30
def PTE_PPN_SHIFT : Nat := 10

def PTE_V : Word := 0x001
def PTE_U : Word := 0x010
def PTE_USER : Word := 0x01F

def USERBASE : Nat := 0x00200000
def USERTOP : Nat := 0x80000000

theorem index_lt (n : Nat) : n &&& 0x1FF < NPTEENTRY :=
  Nat.and_lt_two_pow n (show 0x1FF < 2 ^ 9 by decide)

def PDX1 (la : Nat) : Index := ⟨la >>> PDX1SHIFT &&& 0x1FF, index_lt _⟩
def PDX0 (la : Nat) : Index := ⟨la >>> PDX0SHIFT &&& 0x1FF, index_lt _⟩
def PTX (la : Nat) : Index := ⟨la >>> PTXSHIFT &&& 0x1FF, index_lt _⟩

/-- `PPN` of a physical address. -/
def PPN (pa : Word) : Nat := (pa >>> PTXSHIFT).toNat

/-- `PTE_ADDR`, and `PDE_ADDR`. -/
def PTE_ADDR (pte : Word) : Word := (pte &&& ~~~0x3FF#64) <<< (PTXSHIFT - PTE_PPN_SHIFT)

/-- `pte_create`; the `type` is an `int`. -/
def pteCreate (ppn : Nat) (type : BitVec 32) : Word :=
  BitVec.ofNat 64 ppn <<< PTE_PPN_SHIFT ||| PTE_V ||| type.signExtend 64

/-- The entry has `PTE_V`. -/
def Valid (pte : Word) : Prop := pte &&& PTE_V ≠ 0

instance (pte : Word) : Decidable (Valid pte) := inferInstanceAs (Decidable (_ ≠ _))

/-- The frame that the entry is about. -/
def frameOf (pte : Word) : Nat := PPN (PTE_ADDR pte)

end Words

/-- Physical memory, `ref` of each `struct Page`, and the frames of the allocator. What
`alloc_pages` is going to return is in `grants`: a frame that is not free is the same as
`NULL` there, and so is the end of the list. -/
structure Memory where
  words : Nat → Index → Word
  ref : Nat → Int
  free : Nat → Bool
  grants : List (Option Nat)

/-- `npage`, as `page_init` computes it. -/
def npage : Nat := PHYSICAL_MEMORY_END / PGSIZE

section Frames

def allocPage : Routine Memory (Option Nat) := fun s =>
  match s.grants with
  | some page :: rest =>
      if s.free page then
        .ok (.ok (some page), { s with
          free := Function.update s.free page false
          grants := rest })
      else
        .ok (.ok none, { s with grants := rest })
  | none :: rest => .ok (.ok none, { s with grants := rest })
  | [] => .ok (.ok none, s)

/-- `free_page`; `default_free_pages` clears `ref`. -/
def freePage (page : Nat) : Routine Memory Unit :=
  modifyState fun s => { s with
    free := Function.update s.free page true
    ref := Function.update s.ref page 0 }

def setPageRef (page : Nat) (val : Int) : Routine Memory Unit :=
  modifyState fun s => { s with ref := Function.update s.ref page val }

def pageRefInc (page : Nat) : Routine Memory Unit :=
  modifyState fun s => { s with ref := Function.update s.ref page (s.ref page + 1) }

def pageRefDec (page : Nat) : Routine Memory Unit :=
  modifyState fun s => { s with ref := Function.update s.ref page (s.ref page - 1) }

/-- The whole of a frame is written. -/
def setFrame (page : Nat) (words : Index → Word) : Routine Memory Unit :=
  modifyState fun s => { s with words := Function.update s.words page words }

def setWord (ptep : Nat × Index) (pte : Word) : Routine Memory Unit :=
  modifyState fun s => { s with
    words := Function.update s.words ptep.1 (Function.update (s.words ptep.1) ptep.2 pte) }

/-- `KADDR` of an address in this frame. -/
def KADDR (ppn : Nat) : Routine Memory Nat := do
  ensure (ppn < npage)
  return ppn

/-- `pte2page` -/
def pte2page (pte : Word) : Routine Memory Nat := do
  ensure (Valid pte)
  KADDR (frameOf pte)

end Frames

section Operations

/-- The frame that was just allocated becomes an empty table, and the entry leads to it. -/
def linkTable (table : Nat) (i : Index) (page : Nat) : Routine Memory Nat := do
  setPageRef page 1
  let kva ← KADDR page
  setFrame kva fun _ => 0
  setWord (table, i) (pteCreate page 0x011)
  let s ← getState
  KADDR (frameOf (s.words table i))

/-- What `get_pte` does at each of the two levels of directories. -/
def childTable (table : Nat) (i : Index) (create : Bool) : Routine Memory (Option Nat) := do
  let s ← getState
  if Valid (s.words table i) then
    let child ← KADDR (frameOf (s.words table i))
    return some child
  else if create = false then
    return none
  else
    match ← allocPage with
    | none => return none
    | some page =>
        let child ← linkTable table i page
        return some child

def getPte (pgdir la : Nat) (create : Bool) : Routine Memory (Option (Nat × Index)) := do
  match ← childTable pgdir (PDX1 la) create with
  | none => return none
  | some pd0 =>
      match ← childTable pd0 (PDX0 la) create with
      | none => return none
      | some pt => return some (pt, PTX la)

def pageRemovePte (ptep : Nat × Index) : Routine Memory Unit := do
  let s ← getState
  if Valid (s.words ptep.1 ptep.2) then
    let page ← pte2page (s.words ptep.1 ptep.2)
    pageRefDec page
    let s ← getState
    if s.ref page = 0 then freePage page
    setWord ptep 0

def pageRemove (pgdir la : Nat) : Routine Memory Unit := do
  match ← getPte pgdir la false with
  | none => return ()
  | some ptep => pageRemovePte ptep

/-- What `page_insert` does with the entry that is there. -/
def replaceEntry (page : Nat) (ptep : Nat × Index) : Routine Memory Unit := do
  let s ← getState
  if Valid (s.words ptep.1 ptep.2) then
    let p ← pte2page (s.words ptep.1 ptep.2)
    if p = page then pageRefDec page else pageRemovePte ptep

def pageInsert (pgdir page la : Nat) (perm : BitVec 32) : Routine Memory Unit := do
  match ← getPte pgdir la true with
  | none => fail .eNoMem
  | some ptep =>
      pageRefInc page
      replaceEntry page ptep
      setWord ptep (pteCreate page (0x001 ||| perm))

/-- `pgdir_alloc_page`, while `swap_init_ok` is 0. -/
def pgdirAllocPage (pgdir la : Nat) (perm : BitVec 32) : Routine Memory (Option Nat) := do
  match ← allocPage with
  | none => return none
  | some page =>
      match ← attempt (pageInsert pgdir page la perm) with
      | .error _ =>
          freePage page
          return none
      | .ok () => return some page

end Operations

section Bits

theorem mask_bits : ∀ i < 64, (~~~0x3FF#64).getLsbD i = !decide (i < 10) := by
  decide

theorem clear_flags (w : Word) : w &&& ~~~0x3FF#64 = (w >>> 10) <<< 10 := by
  apply BitVec.eq_of_getLsbD_eq
  intro i hi
  rw [BitVec.getLsbD_and, mask_bits i hi, BitVec.getLsbD_shiftLeft, BitVec.getLsbD_ushiftRight]
  rcases Nat.lt_or_ge i 10 with hlow | hhigh
  · simp [hlow]
  · have hback : 10 + (i - 10) = i := by omega
    simp [hi, hback, Nat.not_lt.mpr hhigh]

variable {type : BitVec 32} {ppn : Nat}

theorem signExtend_flags (h : type.toNat < 2 ^ 10) :
    (type.signExtend 64).toNat = type.toNat := by
  rw [BitVec.signExtend_eq_setWidth_of_msb_false]
  · simp
    omega
  · rw [BitVec.msb_eq_false_iff_two_mul_lt]
    omega

/-- The number of the frame stands above the flags. -/
theorem pteCreate_toNat (hppn : ppn < npage) (htype : type.toNat < 2 ^ 10) :
    (pteCreate ppn type).toNat = ppn * 2 ^ 10 + (1 ||| type.toNat) := by
  have hlt : ppn < 2 ^ 44 := lt_trans hppn (by decide)
  have hflags : 1 ||| type.toNat < 2 ^ 10 := Nat.or_lt_two_pow (by omega) htype
  rw [← Nat.shiftLeft_eq, Nat.shiftLeft_add_eq_or_of_lt hflags, ← Nat.or_assoc, pteCreate,
    BitVec.toNat_or, BitVec.toNat_or, signExtend_flags htype, BitVec.toNat_shiftLeft,
    BitVec.toNat_ofNat, Nat.mod_eq_of_lt (show ppn < 2 ^ 64 by omega), Nat.mod_eq_of_lt]
  · rfl
  · rw [Nat.shiftLeft_eq]
    show ppn * 2 ^ 10 < 2 ^ 64
    omega

theorem frameOf_toNat (w : Word) : frameOf w = w.toNat / 2 ^ 10 % 2 ^ 52 := by
  rw [frameOf, PPN, PTE_ADDR, clear_flags]
  simp only [BitVec.toNat_ushiftRight, BitVec.toNat_shiftLeft, Nat.shiftLeft_eq,
    Nat.shiftRight_eq_div_pow, PTXSHIFT, PTE_PPN_SHIFT]
  omega

theorem frameOf_pteCreate (hppn : ppn < npage) (htype : type.toNat < 2 ^ 10) :
    frameOf (pteCreate ppn type) = ppn := by
  have hlt : ppn < 2 ^ 44 := lt_trans hppn (by decide)
  have hflags : 1 ||| type.toNat < 2 ^ 10 := Nat.or_lt_two_pow (by omega) htype
  rw [frameOf_toNat, pteCreate_toNat hppn htype]
  omega

theorem valid_iff (w : Word) : Valid w ↔ w.getLsbD 0 = true := by
  have hand : (w &&& PTE_V).toNat = w.toNat % 2 := by
    rw [BitVec.toNat_and]
    exact Nat.and_one_is_mod _
  rw [Valid, ne_eq, ← BitVec.toNat_inj, hand, BitVec.getLsbD, Nat.testBit_zero, decide_eq_true_iff]
  show ¬w.toNat % 2 = 0 ↔ _
  omega

theorem valid_pteCreate (ppn : Nat) (type : BitVec 32) : Valid (pteCreate ppn type) := by
  rw [valid_iff, pteCreate, BitVec.getLsbD_or, BitVec.getLsbD_or]
  have hbit : PTE_V.getLsbD 0 = true := by decide
  rw [hbit]
  simp

theorem not_valid_zero : ¬Valid 0 := by
  decide

end Bits

end Ucore.PageTables
