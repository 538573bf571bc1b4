import Ucore.CStrings
import Ucore.SfsDisk

/-!
The image builder `tools/mksfs.c`. Pointers to cached blocks and inodes are
indices into the heaps `block` and `inode`, in order of allocation, and a hash
chain is the list of its pointers. A `bug` ends the program like a failed
`assert` does.
-/

namespace Ucore.Mksfs

open Ucore.Panic
open Ucore.ByteBuffer
open Ucore.CStrings
open Ucore.SfsDisk

def SFS_MAX_NBLKS : Nat := 1024 * 512

def HASH_SHIFT : Nat := 10
def HASH_LIST_SIZE : Nat := 2 ^ HASH_SHIFT
def GOLDEN_RATIO_PRIME_32 : Nat := 0x9e370001

def hash32 (val : Nat) : Nat :=
  val * GOLDEN_RATIO_PRIME_32 % 2 ^ 32 / 2 ^ (32 - HASH_SHIFT)

/-- `hash64`, the hash of a host inode number. -/
def hashReal (val : Nat) : Nat :=
  hash32 (val % 2 ^ 32)

structure CacheBlock where
  ino : Nat
  cache : Bytes

/-- `struct inode` of `struct cache_inode`. -/
structure Inode where
  size : Nat
  type : Nat
  nlinks : Nat
  blocks : Nat
  direct : Nat → Nat
  indirect : Nat
  dbIndirect : Nat

structure CacheInode where
  inode : Inode
  real : Nat
  ino : Nat
  nblks : Nat
  l1 : Option Nat
  l2 : Option Nat

/-- `struct sfs_fs` of the image builder. `image` holds the blocks of the file
behind `imgfd`, `written` the blocks that were passed to `pwrite`, and `entry`
the static buffer of `add_entry`. -/
structure ImageFs where
  super : SfsSuper
  ninos : Nat
  nextIno : Nat
  root : Nat
  inode : Nat → CacheInode
  inodeCount : Nat
  inodes : Nat → List Nat
  block : Nat → CacheBlock
  blockCount : Nat
  blocks : Nat → List Nat
  entry : Bytes
  image : Nat → Bytes
  written : List Nat

def ImageFs.setInode (sfs : ImageFs) (ci : Nat) (v : CacheInode) : ImageFs :=
  { sfs with inode := Function.update sfs.inode ci v }

def ImageFs.setCache (sfs : ImageFs) (cb : Nat) (cache : Bytes) : ImageFs :=
  { sfs with block := Function.update sfs.block cb { sfs.block cb with cache := cache } }

def sfsAllocIno (sfs : ImageFs) : Kernel (Nat × ImageFs) :=
  if sfs.nextIno < sfs.ninos then
    .ok (sfs.nextIno, { sfs with
      super := { sfs.super with unusedBlocks := sfs.super.unusedBlocks - 1 }
      nextIno := sfs.nextIno + 1 })
  else
    .error .panic

/-- The chain is picked by the argument, which is 0 for a new number. -/
def allocCacheBlock (sfs : ImageFs) (ino : Nat) : Kernel (Nat × ImageFs) := do
  let (num, sfs) ← if ino ≠ 0 then .ok (ino, sfs) else sfsAllocIno sfs
  let cb := sfs.blockCount
  return (cb, { sfs with
    block := Function.update sfs.block cb ⟨num, zeros⟩
    blockCount := cb + 1
    blocks := Function.update sfs.blocks (hash32 ino) (cb :: sfs.blocks (hash32 ino)) })

def searchCacheBlock (sfs : ImageFs) (ino : Nat) : Option Nat :=
  (sfs.blocks (hash32 ino)).find? fun cb => (sfs.block cb).ino = ino

def allocCacheInode (sfs : ImageFs) (real ino type : Nat) : Kernel (Nat × ImageFs) := do
  let (num, sfs) ← if ino ≠ 0 then .ok (ino, sfs) else sfsAllocIno sfs
  let ci := sfs.inodeCount
  let inode : Inode :=
    { size := 0, type := type, nlinks := 0, blocks := 0, direct := fun _ => 0,
      indirect := 0, dbIndirect := 0 }
  return (ci, { sfs with
    inode := Function.update sfs.inode ci ⟨inode, real, num, 0, none, none⟩
    inodeCount := ci + 1
    inodes := Function.update sfs.inodes (hashReal real) (ci :: sfs.inodes (hashReal real)) })

def searchCacheInode (sfs : ImageFs) (real : Nat) : Option Nat :=
  (sfs.inodes (hashReal real)).find? fun ci => (sfs.inode ci).real = real

/-- The text that `create_sfs` prints into the superblock. -/
def sfsInfo : List UInt8 :=
  "simple file system".toUTF8.toList

/-- The number of blocks that `create_sfs` uses of an image file. -/
def imageBlocks (stSize : Nat) : Nat :=
  let ninos := stSize / SFS_BLKSIZE % 2 ^ 32
  if ninos > SFS_MAX_NBLKS then SFS_MAX_NBLKS else ninos

/-- The first block behind the freemap. -/
def firstIno (ninos : Nat) : Nat :=
  SFS_BLKN_FREEMAP + (ninos + SFS_BLKBITS - 1) / SFS_BLKBITS

/-- The new `struct sfs_fs`; `malloced` is what its memory held before. -/
def emptyFs (ninos : Nat) (image : Nat → Bytes) (malloced : Bytes) : ImageFs where
  super :=
    { magic := SFS_MAGIC
      blocks := ninos
      unusedBlocks := ninos - firstIno ninos
      info := fun k => sfsInfo.getD k (if k = sfsInfo.length then 0 else malloced k) }
  ninos := ninos
  nextIno := firstIno ninos
  root := 0
  inode := fun _ => ⟨⟨0, 0, 0, 0, fun _ => 0, 0, 0⟩, 0, 0, 0, none, none⟩
  inodeCount := 0
  inodes := fun _ => []
  block := fun _ => ⟨0, zeros⟩
  blockCount := 0
  blocks := fun _ => []
  entry := zeros
  image := image
  written := []

def createSfs (stSize : Nat) (image : Nat → Bytes) (malloced : Bytes) : Kernel ImageFs := do
  let ninos := imageBlocks stSize
  if ninos ≤ firstIno ninos then
    .error .panic
  else
    let (root, sfs) ← allocCacheInode (emptyFs ninos image malloced) 0 SFS_BLKN_ROOT SFS_TYPE_DIR
    return { sfs with root := root }

/-- A shorter block is padded with zeros in the static buffer. -/
def writeBlock (sfs : ImageFs) (data : Bytes) (len ino : Nat) : Kernel ImageFs := do
  kassert (len ≤ SFS_BLKSIZE ∧ ino < sfs.ninos)
  return { sfs with
    image := Function.update sfs.image ino (copyBytes zeros 0 data 0 len)
    written := ino :: sfs.written }

def flushCacheBlock (sfs : ImageFs) (cb : Nat) : Kernel ImageFs :=
  writeBlock sfs (sfs.block cb).cache SFS_BLKSIZE (sfs.block cb).ino

def inodeSize : Nat := 68

def inodeBytes (inode : Inode) : Bytes :=
  let b := putLE (putLE (putLE (putLE zeros 0 4 inode.size) 4 2 inode.type)
    6 2 inode.nlinks) 8 4 inode.blocks
  putLE (putLE (putWords b 12 SFS_NDIRECT inode.direct) 60 4 inode.indirect)
    64 4 inode.dbIndirect

def flushCacheInode (sfs : ImageFs) (ci : Nat) : Kernel ImageFs :=
  writeBlock sfs (inodeBytes (sfs.inode ci).inode) inodeSize (sfs.inode ci).ino

/-- The loop over `j` of `close_sfs`. -/
def setBits (data : Bytes) (j : Nat) : Nat → Bytes
  | 0 => data
  | n + 1 =>
      setBits (putWord data (j / 32) (getWord data (j / 32) ||| 1 <<< (j % 32))) (j + 1) n

/-- The freemap block for the blocks from `i` on. -/
def freemapBlock (ninos nextIno i : Nat) : Bytes :=
  if i + SFS_BLKBITS > nextIno then
    let start := if i < nextIno then nextIno - i else 0
    let stop := if i + SFS_BLKBITS > ninos then ninos - i else SFS_BLKBITS
    setBits zeros start (stop - start)
  else
    zeros

/-- The first loop of `close_sfs`. -/
def writeFreemap (sfs : ImageFs) (i ino : Nat) : Nat → Kernel ImageFs
  | 0 => .error .loop
  | fuel + 1 =>
      if i < sfs.ninos then do
        let sfs ← writeBlock sfs (freemapBlock sfs.ninos sfs.nextIno i) SFS_BLKSIZE ino
        writeFreemap sfs (i + SFS_BLKBITS) (ino + 1) fuel
      else
        .ok sfs

def superSize : Nat := 44

def superBytes (super : SfsSuper) : Bytes :=
  copyBytes (putLE (putLE (putLE zeros 0 4 super.magic) 4 4 super.blocks)
    8 4 super.unusedBlocks) 12 super.info 0 (SFS_MAX_INFO_LEN + 1)

/-- One round of the second loop of `close_sfs`. -/
def flushChain (sfs : ImageFs) (i : Nat) : Kernel ImageFs := do
  let sfs ← (sfs.blocks i).foldlM flushCacheBlock sfs
  (sfs.inodes i).foldlM flushCacheInode sfs

def closeSfs (sfs : ImageFs) : Kernel ImageFs := do
  let sfs ← writeFreemap sfs 0 SFS_BLKN_FREEMAP (sfs.ninos + 1)
  let sfs ← writeBlock sfs (superBytes sfs.super) superSize SFS_BLKN_SUPER
  (List.range HASH_LIST_SIZE).foldlM flushChain sfs

def SFS_L1_NBLKS : Nat := SFS_BLK_NENTRY + SFS_NDIRECT
def SFS_L2_NBLKS : Nat := SFS_BLK_NENTRY * SFS_BLK_NENTRY + SFS_L1_NBLKS
def SFS_LN_NBLKS : Nat := SFS_MAX_FILE_SIZE / SFS_BLKSIZE

/-- `update_cache`; returns the new values behind `cbp` and `inop`. -/
def updateCache (sfs : ImageFs) (cbp : Option Nat) (ino : Nat) :
    Kernel (Nat × Nat × ImageFs) := do
  if ino = 0 then
    let (cb, sfs) ← allocCacheBlock sfs 0
    return (cb, (sfs.block cb).ino, sfs)
  else
    let cached := cbp.filter fun cb => (sfs.block cb).ino = ino
    match cached.or (searchCacheBlock sfs ino) with
    | some cb => return (cb, ino, sfs)
    | none => .error .panic

/-- The part of `append_block` that stores `ino` as block `nblks` of the file. -/
def recordBlock (sfs : ImageFs) (file ino : Nat) : Kernel ImageFs := do
  let ci := sfs.inode file
  let nblks := ci.nblks
  if nblks < SFS_NDIRECT then
    return sfs.setInode file { ci with
      inode := { ci.inode with direct := Function.update ci.inode.direct nblks ino } }
  else if nblks < SFS_L1_NBLKS then
    let (l1, indirect, sfs) ← updateCache sfs ci.l1 ci.inode.indirect
    let sfs := sfs.setInode file { ci with
      l1 := some l1, inode := { ci.inode with indirect := indirect } }
    return sfs.setCache l1 (putWord (sfs.block l1).cache (nblks - SFS_NDIRECT) ino)
  else if nblks < SFS_L2_NBLKS then
    let nblks := nblks - SFS_L1_NBLKS
    let (l2, dbIndirect, sfs) ← updateCache sfs ci.l2 ci.inode.dbIndirect
    let entry := getWord (sfs.block l2).cache (nblks / SFS_BLK_NENTRY)
    let (l1, table, sfs) ← updateCache sfs ci.l1 entry
    let sfs := sfs.setCache l2
      (putWord (sfs.block l2).cache (nblks / SFS_BLK_NENTRY) table)
    let sfs := sfs.setInode file { ci with
      l1 := some l1, l2 := some l2, inode := { ci.inode with dbIndirect := dbIndirect } }
    return sfs.setCache l1 (putWord (sfs.block l1).cache (nblks % SFS_BLK_NENTRY) ino)
  else
    return sfs

def appendBlock (sfs : ImageFs) (file size ino : Nat) : Kernel ImageFs := do
  kassert (size ≤ SFS_BLKSIZE)
  if SFS_LN_NBLKS ≤ (sfs.inode file).nblks then
    .error .panic
  else
    let sfs ← recordBlock sfs file ino
    let ci := sfs.inode file
    return sfs.setInode file { ci with
      nblks := ci.nblks + 1
      inode := { ci.inode with
        size := (ci.inode.size + size) % 2 ^ 32
        blocks := (ci.inode.blocks + 1) % 2 ^ 32 } }

/-- One round of the loop of `open_file`, and the body of `open_link`. -/
def storeBlock (sfs : ImageFs) (file : Nat) (buffer : Bytes) (len : Nat) : Kernel ImageFs := do
  let (ino, sfs) ← sfsAllocIno sfs
  let sfs ← writeBlock sfs buffer len ino
  appendBlock sfs file len ino

def sizeofName : Nat := SFS_MAX_FNAME_LEN + 1

def addEntry (sfs : ImageFs) (current file : Nat) (name : CString) : Kernel ImageFs := do
  kassert ((sfs.inode current).inode.type = SFS_TYPE_DIR ∧
    name.length ≤ SFS_MAX_FNAME_LEN)
  let sfs := { sfs with entry := strcpy (putLE sfs.entry 0 4 (sfs.inode file).ino) 4 name }
  let (entryIno, sfs) ← sfsAllocIno sfs
  let sfs ← writeBlock sfs sfs.entry sizeofName entryIno
  let sfs ← appendBlock sfs current sizeofName entryIno
  let ci := sfs.inode file
  return sfs.setInode file { ci with
    inode := { ci.inode with nlinks := (ci.inode.nlinks + 1) % 2 ^ 16 } }

end Ucore.Mksfs
