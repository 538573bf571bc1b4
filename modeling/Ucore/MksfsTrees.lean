import Ucore.MksfsCatalog
import Ucore.SfsNamefile

/-! The part of `tools/mksfs.c` that walks the home directory on the host. -/

namespace Ucore.MksfsTrees

open Ucore.Panic
open Ucore.ByteBuffer
open Ucore.CStrings
open Ucore.SfsDisk
open Ucore.SfsOwnership (maxBlocks)
open Ucore.MksfsDirent (nameRoom)
open Ucore.SfsNamefile (dot dotdot)
open Ucore.Mksfs
open Ucore.MksfsCatalog

/-- What one `read` of a block returns before the end of a file. -/
structure Chunk where
  bytes : List UInt8
  pos : 0 < bytes.length
  le : bytes.length ≤ SFS_BLKSIZE

mutual

/-- What lies behind a name on the host: a symbolic link, a directory, a regular file, or
something that `mksfs` warns of. `real` is the inode number that `lstat` returns. -/
inductive Node where
  | link (real : Nat) (target : List UInt8)
  | dir (real : Nat) (entries : Entries)
  | file (real : Nat) (reads : List Chunk)
  | other

/-- What the calls of `readdir` return. -/
inductive Entries where
  | nil
  | cons (name : CString) (node : Node) (rest : Entries)

end

/-- The static buffer of `open_file` after a `read`. -/
def bufferOf (bytes : List UInt8) : Bytes :=
  fun k => bytes.getD k 0

def openFile (sfs : ImageFs) (file last : Nat) : List Chunk → Kernel ImageFs
  | [] => .ok sfs
  | ret :: reads => do
      kassert (last = SFS_BLKSIZE)
      let sfs ← storeBlock sfs file (bufferOf ret.bytes) ret.bytes.length
      openFile sfs file ret.bytes.length reads

/-- `readlink` fills the whole buffer when the target does not fit in less. -/
def openLink (sfs : ImageFs) (file : Nat) (target : List UInt8) : Kernel ImageFs :=
  if SFS_BLKSIZE ≤ target.length then
    .error .panic
  else
    storeBlock sfs file (bufferOf target) target.length

def addFile (sfs : ImageFs) (current : Nat) (filename : CString) (reads : List Chunk)
    (real : Nat) : Kernel ImageFs := do
  match searchCacheInode sfs real with
  | some file => addEntry sfs current file filename
  | none =>
      let (file, sfs) ← allocCacheInode sfs real 0 SFS_TYPE_FILE
      let sfs ← openFile sfs file SFS_BLKSIZE reads
      addEntry sfs current file filename

def addLink (sfs : ImageFs) (current : Nat) (filename : CString) (target : List UInt8)
    (real : Nat) : Kernel ImageFs := do
  let (file, sfs) ← allocCacheInode sfs real 0 SFS_TYPE_LINK
  let sfs ← openLink sfs file target
  addEntry sfs current file filename

/-- `readDir` is the loop of `open_dir`. -/
def openDir (readDir : ImageFs → Nat → Kernel ImageFs) (sfs : ImageFs) (current parent : Nat) :
    Kernel ImageFs := do
  let sfs ← addEntry sfs current current dot
  let sfs ← addEntry sfs current parent dotdot
  readDir sfs current

def addDir (readDir : ImageFs → Nat → Kernel ImageFs) (sfs : ImageFs) (parent : Nat)
    (dirname : CString) (real : Nat) : Kernel ImageFs := do
  kassert (searchCacheInode sfs real = none)
  let (current, sfs) ← allocCacheInode sfs real 0 SFS_TYPE_DIR
  let sfs ← openDir readDir sfs current parent
  addEntry sfs parent current dirname

/-- `name[0] == '.'`. -/
def hidden (name : CString) : Bool :=
  name.chars.head? = some 46

mutual

/-- What the loop of `open_dir` does for a name by the mode of what it names. -/
def addNode (sfs : ImageFs) (current : Nat) (name : CString) : Node → Kernel ImageFs
  | .link real target => addLink sfs current name target real
  | .dir real entries =>
      addDir (fun sfs current => readDir sfs current entries) sfs current name real
  | .file real reads => addFile sfs current name reads real
  | .other => .ok sfs

def readDir (sfs : ImageFs) (current : Nat) : Entries → Kernel ImageFs
  | .nil => .ok sfs
  | .cons name node rest =>
      if name = dot ∨ name = dotdot then
        readDir sfs current rest
      else if hidden name then
        readDir sfs current rest
      else do
        kassert (name.length ≤ SFS_MAX_FNAME_LEN)
        let sfs ← addNode sfs current name node
        readDir sfs current rest

end

/-- `create_img` on an image file of `stSize` bytes. -/
def createImg (stSize : Nat) (image : Nat → Bytes) (malloced : Bytes) (home : Entries) :
    Kernel ImageFs := do
  let sfs ← createSfs stSize image malloced
  let sfs ← openDir (fun sfs current => readDir sfs current home) sfs sfs.root sfs.root
  closeSfs sfs

/-- Every read but the last one filled the buffer. -/
def Chunked : List Chunk → Prop
  | [] => True
  | ret :: reads => (reads ≠ [] → ret.bytes.length = SFS_BLKSIZE) ∧ Chunked reads

/-- What the host has under an inode number. -/
inductive Source where
  | file (reads : List Chunk)
  | dir
  | link

mutual

/-- The host has the node; 0 is not an inode number. -/
def Node.OnHost (host : Nat → Source) : Node → Prop
  | .link real _ => real ≠ 0 ∧ host real = .link
  | .dir real entries => real ≠ 0 ∧ host real = .dir ∧ entries.OnHost host
  | .file real reads => real ≠ 0 ∧ host real = .file reads
  | .other => True

def Entries.OnHost (host : Nat → Source) : Entries → Prop
  | .nil => True
  | .cons _ node rest => node.OnHost host ∧ rest.OnHost host

end

/-- The loop of `open_dir` passes over the name. -/
def skipped (name : CString) : Node → Bool
  | .other => true
  | .link _ _ | .dir _ _ | .file _ _ => hidden name

/-- The names of a directory on the host that get into the image. -/
def names : Entries → List CString
  | .nil => []
  | .cons name node rest => if skipped name node then names rest else name :: names rest

/-- The names are distinct, each fits into the room for it, and the directory is no longer than
its block map. -/
structure Listable (entries : Entries) : Prop where
  nodup : (names entries).Nodup
  room : ∀ name ∈ names entries, name.length ≤ nameRoom
  length_le : (names entries).length + 2 ≤ maxBlocks

mutual

/-- No file below the node is longer than its block map. -/
def Fits : Node → Prop
  | .link _ _ => True
  | .dir _ entries => Listable entries ∧ FitsAll entries
  | .file _ reads => reads.length ≤ maxBlocks
  | .other => True

def FitsAll : Entries → Prop
  | .nil => True
  | .cons name node rest => (skipped name node = false → Fits node) ∧ FitsAll rest

end

mutual

/-- The catalog has the node as the object `f`, which the directory `parent` refers to. -/
def Stores (cat : Catalog) (parent f : Nat) : Node → Prop
  | .link real target => f < cat.count ∧ cat.object f = ⟨SFS_TYPE_LINK, real, [.data target]⟩
  | .dir real entries => f < cat.count ∧ parent < f ∧ ∃ list : List (Nat × CString),
      cat.object f = ⟨SFS_TYPE_DIR, real, .entry f dot :: .entry parent dotdot ::
        list.map fun e => .entry e.1 e.2⟩ ∧ StoresAll cat f entries list
  | .file real reads => f < cat.count ∧ Chunked reads ∧
      cat.object f = ⟨SFS_TYPE_FILE, real, reads.map fun ret => .data ret.bytes⟩
  | .other => False

/-- The objects in `list` are those that the entries of the directory `dir` name. -/
def StoresAll (cat : Catalog) (dir : Nat) : Entries → List (Nat × CString) → Prop
  | .nil, list => list = []
  | .cons name node rest, list =>
      if skipped name node then StoresAll cat dir rest list
      else ∃ f tail, list = (f, name) :: tail ∧ name.length ≤ SFS_MAX_FNAME_LEN ∧
        Stores cat dir f node ∧ StoresAll cat dir rest tail

end

/-- `c` has got the slots `new`, and the other objects are still there. -/
structure Extends (cat cat' : Catalog) (c : Nat) (new : List Slot) : Prop where
  count_le : cat.count ≤ cat'.count
  object : ∀ g, g < cat.count → g ≠ c → cat'.object g = cat.object g
  current : cat'.object c = { cat.object c with slots := cat.slots c ++ new }

section Extension

variable {cat cat' cat'' : Catalog} {c f p : Nat} {new new' : List Slot}

theorem Extends.refl (cat : Catalog) (c : Nat) : Extends cat cat c [] :=
  ⟨le_rfl, fun _ _ _ => rfl, by rw [List.append_nil]; rfl⟩

theorem Extends.type (h : Extends cat cat' c new) : (cat'.object c).type = (cat.object c).type := by
  rw [h.current]

theorem Extends.slots (h : Extends cat cat' c new) : cat'.slots c = cat.slots c ++ new := by
  rw [Catalog.slots, h.current]

theorem Extends.trans (h : Extends cat cat' c new) (h' : Extends cat' cat'' c new') :
    Extends cat cat'' c (new ++ new') where
  count_le := le_trans h.count_le h'.count_le
  object g hg hne := (h'.object g (lt_of_lt_of_le hg h.count_le) hne).trans (h.object g hg hne)
  current := by
    rw [h'.current, h.slots, h.current, List.append_assoc]

theorem extends_push (cat : Catalog) (c : Nat) (slot : Slot) :
    Extends cat (cat.push c slot) c [slot] where
  count_le := le_rfl
  object _ _ hne := object_push_of_ne hne
  current := object_push_self

/-- What is done to objects that are new leaves the old ones as they are. -/
theorem Extends.of_new (h : Extends cat' cat'' f new) (hf : cat.count ≤ f)
    (hadd : cat.count ≤ cat'.count) (hold : ∀ g, g < cat.count → cat'.object g = cat.object g)
    {g : Nat} (hg : g < cat.count) : cat''.object g = cat.object g := by
  rw [h.object g (lt_of_lt_of_le hg hadd) (by omega), hold g hg]

mutual

/-- Nothing is done to what a directory below `c` holds. -/
theorem stores_extends (h : Extends cat cat' c new) (hdir : (cat.object c).type = SFS_TYPE_DIR) :
    ∀ {p f : Nat} (node : Node), c ≤ p → Stores cat p f node → Stores cat' p f node
  | p, f, .link real target, _ => by
      rintro ⟨hf, hobject⟩
      have hne : f ≠ c := by
        rintro rfl
        rw [hobject] at hdir
        cases hdir
      exact ⟨lt_of_lt_of_le hf h.count_le, (h.object f hf hne).trans hobject⟩
  | p, f, .file real reads, _ => by
      rintro ⟨hf, hchunked, hobject⟩
      have hne : f ≠ c := by
        rintro rfl
        rw [hobject] at hdir
        cases hdir
      exact ⟨lt_of_lt_of_le hf h.count_le, hchunked, (h.object f hf hne).trans hobject⟩
  | _, _, .other, _ => fun habsurd => habsurd
  | p, f, .dir real entries, hle => by
      rintro ⟨hf, hlt, list, hobject, hall⟩
      have hne : f ≠ c := by omega
      refine ⟨lt_of_lt_of_le hf h.count_le, hlt, list, (h.object f hf hne).trans hobject, ?_⟩
      exact storesAll_extends h hdir entries list (le_trans hle (Nat.le_of_lt hlt)) hall

theorem storesAll_extends (h : Extends cat cat' c new)
    (hdir : (cat.object c).type = SFS_TYPE_DIR) : ∀ {p : Nat} (entries : Entries)
      (list : List (Nat × CString)), c ≤ p → StoresAll cat p entries list →
        StoresAll cat' p entries list
  | _, .nil, _, _ => fun hall => hall
  | p, .cons name node rest, list, hle => by
      unfold StoresAll
      split
      · exact storesAll_extends h hdir rest list hle
      · rintro ⟨f, tail, hlist, hlen, hstores, hall⟩
        exact ⟨f, tail, hlist, hlen, stores_extends h hdir node hle hstores,
          storesAll_extends h hdir rest tail hle hall⟩

end

end Extension

end Ucore.MksfsTrees
