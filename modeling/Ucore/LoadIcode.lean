import Ucore.AddressSpaces
import Ucore.ByteBuffer
import Ucore.PageBytes
import Ucore.Swap

/-! How `load_icode` makes an address space out of a program file. -/

namespace Ucore.LoadIcode

open Ucore.KernelRoutine
open Ucore.ByteBuffer
open Ucore.DefaultPmm (PGSIZE)
open Ucore.PageTables
open Ucore.PageOwners (next pte)
open Ucore.PageBytes
open Ucore.AddressSpaces (Vma Spaces roundDown)
open Ucore.Swap

def USTACKTOP : Nat := USERTOP
def USTACKSIZE : Nat := 256 * PGSIZE

def EXEC_MAX_ARG_NUM : Nat := 32
def EXEC_MAX_ARG_LEN : Nat := 4095

def ELF_MAGIC : Nat := 0x464C457F
def ELF_PT_LOAD : Nat := 1
def ELF_PF_X : Nat := 1
def ELF_PF_W : Nat := 2
def ELF_PF_R : Nat := 4

def VM_READ : Nat := 1
def VM_EXEC : Nat := 4
def VM_STACK : Nat := 8

def PTE_R : BitVec 32 := 0x002
def PTE_W : BitVec 32 := 0x004
def PTE_X : BitVec 32 := 0x008

def SSTATUS_SPIE : Word := 0x020
def SSTATUS_SPP : Word := 0x100

/-- What an `uintptr_t` or a `size_t` keeps of a number. -/
def word (n : Nat) : Nat := n % 2 ^ 64

/-- `ROUNDUP` -/
def roundUp (a n : Nat) : Nat := roundDown (word (a + n - 1)) n

section Files

/-- The file that the program is in. -/
structure File where
  size : Nat
  bytes : Bytes
  bound : size < 2 ^ 32

structure ElfHdr where
  eMagic : Nat
  eEntry : Nat
  ePhoff : Nat
  ePhnum : Nat

structure ProgHdr where
  pType : Nat
  pFlags : Nat
  pOffset : Nat
  pVa : Nat
  pFilesz : Nat
  pMemsz : Nat

def elfHdrSize : Nat := 64
def progHdrSize : Nat := 56

def elfHdr (file : File) : ElfHdr where
  eMagic := getLE file.bytes 0 4
  eEntry := getLE file.bytes 24 8
  ePhoff := getLE file.bytes 32 8
  ePhnum := getLE file.bytes 56 2

def progHdr (file : File) (phoff : Nat) : ProgHdr where
  pType := getLE file.bytes phoff 4
  pFlags := getLE file.bytes (phoff + 4) 4
  pOffset := getLE file.bytes (phoff + 8) 8
  pVa := getLE file.bytes (phoff + 16) 8
  pFilesz := getLE file.bytes (phoff + 32) 8
  pMemsz := getLE file.bytes (phoff + 40) 8

/-- Where the program header of this number is. -/
def phoffOf (file : File) (phnum : Nat) : Nat :=
  word ((elfHdr file).ePhoff + progHdrSize * phnum)

end Files

/-- The registers `x0` to `x31`, and what else the trap saves. -/
structure TrapFrame where
  gpr : Fin 32 → Word
  status : Word
  epc : Word
  tval : Word
  cause : Word

def TrapFrame.zero : TrapFrame := ⟨fun _ => 0, 0, 0, 0, 0⟩

/-- The registers `sp`, `a0` and `a1`. -/
def sp : Fin 32 := 2
def a0 : Fin 32 := 10
def a1 : Fin 32 := 11

/-- What `load_icode` works on. `mallocs` says which calls of `kmalloc` return memory, and `reads`
which reads of the file find the device working. -/
structure Loading where
  swapping : Swapping
  mallocs : List Bool
  reads : List Bool
  currentMm : Option Nat
  sstatus : Word
  tf : TrapFrame

variable {α : Type}

def onSwapping : Routine Swapping α → Routine Loading α :=
  onPart Loading.swapping fun swapping s => { s with swapping := swapping }

def onFrames (x : Routine Memory α) : Routine Loading α :=
  onSwapping (onMemory x)

def kmalloc : Routine Loading Bool := fun s =>
  match s.mallocs with
  | works :: rest => .ok (.ok works, { s with mallocs := rest })
  | [] => .ok (.ok false, s)

section Spaces

def setupPgdir (boot : Nat) : Routine Memory (Option Nat) := do
  match ← allocPage with
  | none => return none
  | some page =>
      let s ← getState
      setFrame page (s.words boot)
      return some page

/-- `mm_create` and `setup_pgdir`: the new `mm_struct` is known by its page directory. -/
def createMm (boot : Nat) : Routine Loading Nat := do
  if ← kmalloc then
    match ← onFrames (setupPgdir boot) with
    | none => fail .eNoMem
    | some pgdir =>
        onSwapping (mmCreate pgdir)
        onSwapping (modifyState fun s => { s with
          mmapList := Function.update s.mmapList pgdir [] })
        return pgdir
  else
    fail .eNoMem

/-- The list of VMAs that `insert_vma_struct` works on. -/
def spaceOf (mm : Nat) (s : Loading) : Spaces where
  memory := s.swapping.memory
  toMm := ⟨s.swapping.mmapList mm, mm, (s.swapping.mmapList mm).length⟩
  fromMm := ⟨s.swapping.mmapList mm, mm, (s.swapping.mmapList mm).length⟩
  mallocs := s.mallocs

def putSpace (mm : Nat) (t : Spaces) (s : Loading) : Loading :=
  { s with
    swapping := { s.swapping with
      memory := t.memory
      mmapList := Function.update s.swapping.mmapList mm t.toMm.mmapList }
    mallocs := t.mallocs }

def mmMap (mm addr len vmFlags : Nat) : Routine Loading Unit := do
  let start := roundDown addr PGSIZE
  let stop := roundUp (word (addr + len)) PGSIZE
  if ¬(USERBASE ≤ start ∧ start < stop ∧ stop ≤ USERTOP) then
    fail .eInval
  else
    let s ← getState
    if (findVma s.swapping mm start).any fun vma => stop > vma.vmStart then
      fail .eInval
    else
      match ← onPart (spaceOf mm) (putSpace mm) (AddressSpaces.vmaCreate start stop vmFlags) with
      | none => fail .eNoMem
      | some vma => onPart (spaceOf mm) (putSpace mm) (AddressSpaces.insertVmaStruct vma)

end Spaces

section Segments

/-- What becomes of a page when `n` bytes are written from `off` on. -/
def writeBytes (words : Index → Word) (off : Nat) (f : Nat → BitVec 8) : Nat → Index → Word
  | 0 => words
  | n + 1 => setByte (writeBytes words off f n) (off + n) (f n)

/-- `memcpy` or `memset` to `page2kva(page) + off`. -/
def fillPage (page off n : Nat) (f : Nat → BitVec 8) : Routine Loading Unit :=
  onFrames do
    let s ← getState
    setFrame page (writeBytes (s.words page) off f n)

/-- Whether `load_icode_read` returns 0: it does not where the file ends before, or where the
device fails. -/
def loadIcodeRead (file : File) (len offset : Nat) : Routine Loading Unit := fun s =>
  match s.reads with
  | true :: rest =>
      if offset + len ≤ file.size then .ok (.ok (), { s with reads := rest })
      else .ok (.error .eUnspecified, { s with reads := rest })
  | false :: rest => .ok (.error .eUnspecified, { s with reads := rest })
  | [] => .ok (.error .eUnspecified, s)

def segmentFlags (ph : ProgHdr) : Nat :=
  (if ph.pFlags &&& ELF_PF_X ≠ 0 then VM_EXEC else 0) |||
    (if ph.pFlags &&& ELF_PF_W ≠ 0 then VM_WRITE else 0) |||
    (if ph.pFlags &&& ELF_PF_R ≠ 0 then VM_READ else 0)

def segmentPerm (vmFlags : Nat) : BitVec 32 :=
  0x011 ||| (if vmFlags &&& VM_READ ≠ 0 then PTE_R else 0) |||
    (if vmFlags &&& VM_WRITE ≠ 0 then PTE_W ||| PTE_R else 0) |||
    (if vmFlags &&& VM_EXEC ≠ 0 then PTE_X else 0)

/-- How much of the page at `la` is written, from `start` on. -/
def partSize (start stop la : Nat) : Nat :=
  if stop < la + PGSIZE then PGSIZE - (start - la) - (la + PGSIZE - stop)
  else PGSIZE - (start - la)

/-- `start` and `la` after the pages of a segment, and the page that was allocated last. -/
structure Cursor where
  start : Nat
  la : Nat
  page : Nat

/-- The loop that reads from the file. -/
def filePart (file : File) (mm : Nat) (perm : BitVec 32) (stop : Nat) :
    Nat → Cursor → Nat → Routine Loading Cursor
  | 0, _, _ => abort .loop
  | fuel + 1, c, offset => do
      if c.start < stop then
        match ← onSwapping (pgdirAllocPage mm c.la perm) with
        | none => fail .eNoMem
        | some page =>
            let size := partSize c.start stop c.la
            loadIcodeRead file size offset
            fillPage page (c.start - c.la) size fun k => (file.bytes (offset + k)).toBitVec
            filePart file mm perm stop fuel ⟨c.start + size, c.la + PGSIZE, page⟩ (offset + size)
      else
        return c

/-- The loop over the pages that are not in the file at all. -/
def bssPart (mm : Nat) (perm : BitVec 32) (stop : Nat) : Nat → Cursor → Routine Loading Cursor
  | 0, _ => abort .loop
  | fuel + 1, c => do
      if c.start < stop then
        match ← onSwapping (pgdirAllocPage mm c.la perm) with
        | none => fail .eNoMem
        | some page =>
            let size := partSize c.start stop c.la
            fillPage page (c.start - c.la) size fun _ => 0
            bssPart mm perm stop fuel ⟨c.start + size, c.la + PGSIZE, page⟩
      else
        return c

/-- What follows the file part in the page where it ends. -/
def bssHead (stop : Nat) (c : Cursor) : Routine Loading Cursor := do
  let off := c.start + PGSIZE - c.la
  let size := if stop < c.la then PGSIZE - off - (c.la - stop) else PGSIZE - off
  fillPage c.page off size fun _ => 0
  ensure ((stop < c.la ∧ c.start + size = stop) ∨ (stop ≥ c.la ∧ c.start + size = c.la))
  return ⟨c.start + size, c.la, c.page⟩

/-- The loop of `load_icode` for one program header of type `ELF_PT_LOAD`. -/
def loadSegment (file : File) (fuel mm : Nat) (ph : ProgHdr) (page : Nat) : Routine Loading Nat := do
  let perm := segmentPerm (segmentFlags ph)
  mmMap mm ph.pVa ph.pMemsz (segmentFlags ph)
  let c ← filePart file mm perm (word (ph.pVa + ph.pFilesz)) fuel
    ⟨ph.pVa, roundDown ph.pVa PGSIZE, page⟩ ph.pOffset
  let stop := word (ph.pVa + ph.pMemsz)
  if c.start < c.la then
    if c.start = stop then
      return c.page
    else
      let c ← bssHead stop c
      let c ← bssPart mm perm stop fuel c
      return c.page
  else
    let c ← bssPart mm perm stop fuel c
    return c.page

/-- The loop over the program headers. -/
def loadProgram (file : File) (fuel mm : Nat) : List Nat → Nat → Routine Loading Unit
  | [], _ => return ()
  | phnum :: rest, page => do
      loadIcodeRead file progHdrSize (phoffOf file phnum)
      let ph := progHdr file (phoffOf file phnum)
      if ph.pType ≠ ELF_PT_LOAD then
        loadProgram file fuel mm rest page
      else if ph.pFilesz > ph.pMemsz then
        fail .eInvalElf
      else
        let page ← loadSegment file fuel mm ph page
        loadProgram file fuel mm rest page

end Segments

section Arguments

/-- An argument in a buffer of `EXEC_MAX_ARG_LEN + 1` bytes, up to its NUL. -/
structure Arg where
  bytes : List (BitVec 8)
  bound : bytes.length ≤ EXEC_MAX_ARG_LEN
  noNul : 0 ∉ bytes

/-- The page may be stored to. -/
def Writable (w : Word) : Prop := Valid w ∧ w &&& 0x4 ≠ 0

instance (w : Word) : Decidable (Writable w) := inferInstanceAs (Decidable (_ ∧ _))

/-- A page fault in the kernel, which panics where there is no way to go on. -/
def pageFault (mm la : Nat) : Routine Loading Unit := do
  match ← attempt (onSwapping (doPgfault mm la)) with
  | .error _ => abort .panic
  | .ok () => return ()

/-- The processor stores a byte through the page tables, and tries again after a page fault. -/
def storeUser (mm la : Nat) (b : BitVec 8) : Routine Loading Unit := do
  let s ← getState
  if Writable (pte s.swapping.memory mm la) then
    fillPage (frameOf (pte s.swapping.memory mm la)) (la % PGSIZE) 1 fun _ => b
  else
    pageFault mm la
    let s ← getState
    if Writable (pte s.swapping.memory mm la) then
      fillPage (frameOf (pte s.swapping.memory mm la)) (la % PGSIZE) 1 fun _ => b
    else
      abort .loop

def storeBytes (mm : Nat) : Nat → List (BitVec 8) → Routine Loading Unit
  | _, [] => return ()
  | la, b :: bs => do
      storeUser mm la b
      storeBytes mm (la + 1) bs

/-- The bytes of a number, the lowest first. -/
def leBytes : Nat → Nat → List (BitVec 8)
  | 0, _ => []
  | n + 1, v => BitVec.ofNat 8 v :: leBytes n (v / 256)

def strcpy (mm dst : Nat) (arg : Arg) : Routine Loading Unit :=
  storeBytes mm dst (arg.bytes ++ [0])

/-- The loop that copies the arguments to the user stack. -/
def placeArgs (mm stacktop uargv : Nat) : Nat → Nat → List Arg → Routine Loading Unit
  | _, _, [] => return ()
  | i, argvSize, arg :: rest => do
      strcpy mm (stacktop + argvSize) arg
      storeBytes mm (uargv + 8 * i) (leBytes 8 (stacktop + argvSize))
      placeArgs mm stacktop uargv (i + 1) (argvSize + (arg.bytes.length + 1)) rest

/-- The bytes that the arguments take up with their NULs. -/
def argvSize (args : List Arg) : Nat :=
  (args.map fun arg => arg.bytes.length + 1).sum % 2 ^ 32

/-- Where the arguments start. -/
def stackTop (args : List Arg) : Nat :=
  USTACKTOP - (argvSize args / 8 + 1) * 8

def uargvOf (args : List Arg) : Nat :=
  stackTop args - args.length * 8

def setupArgs (mm : Nat) (args : List Arg) : Routine Loading Unit := do
  placeArgs mm (stackTop args) (uargvOf args) 0 0 args
  storeBytes mm (uargvOf args - 4) (leBytes 4 args.length)

end Arguments

section LoadIcode

/-- The assertions on `pgdir_alloc_page` for the top of the user stack. -/
def stackPages (mm : Nat) : List Nat → Routine Loading Unit
  | [] => return ()
  | la :: rest => do
      match ← onSwapping (pgdirAllocPage mm la 0x01F) with
      | none => abort .panic
      | some _ => stackPages mm rest

def setupStack (mm : Nat) : Routine Loading Unit := do
  mmMap mm (USTACKTOP - USTACKSIZE) USTACKSIZE (VM_READ ||| VM_WRITE ||| VM_STACK)
  stackPages mm [USTACKTOP - PGSIZE, USTACKTOP - 2 * PGSIZE, USTACKTOP - 3 * PGSIZE,
    USTACKTOP - 4 * PGSIZE]

def setupFrame (elf : ElfHdr) : Routine Loading Unit :=
  modifyState fun s => { s with tf := { TrapFrame.zero with
    gpr := Function.update TrapFrame.zero.gpr sp (BitVec.ofNat 64 USTACKTOP)
    epc := BitVec.ofNat 64 elf.eEntry
    status := s.sstatus &&& ~~~(SSTATUS_SPIE ||| SSTATUS_SPP) } }

/-- `load_icode`; `boot` is the frame of `boot_pgdir`. -/
def loadIcode (file : File) (boot fuel : Nat) (args : List Arg) : Routine Loading Unit := do
  ensure (args.length ≤ EXEC_MAX_ARG_NUM)
  let s ← getState
  ensure (s.currentMm = none)
  let mm ← createMm boot
  loadIcodeRead file elfHdrSize 0
  if (elfHdr file).eMagic ≠ ELF_MAGIC then
    fail .eInvalElf
  else
    loadProgram file fuel mm (List.range (elfHdr file).ePhnum) 0
    setupStack mm
    modifyState fun s => { s with currentMm := some mm }
    setupArgs mm args
    setupFrame (elfHdr file)

end LoadIcode

end Ucore.LoadIcode
