import Ucore.SfsDirent
import Ucore.SfsIo

/-!
Open files: `kern/fs/file.c`, `kern/fs/vfs/vfsfile.c`, the inode counts of
`kern/fs/vfs/inode.c`, and the inode operations of SFS that they call. A pointer
to a `struct inode` is the number of its disk inode, and 0 for `NULL`.
-/

namespace Ucore.VfsFiles

open Ucore.Errors
open Ucore.KernelRoutine
open Ucore.ByteBuffer
open Ucore.CStrings
open Ucore.SfsDisk
open Ucore.SfsBlockMap
open Ucore.SfsIo
open Ucore.SfsDirent

def O_RDONLY : Nat := 0
def O_WRONLY : Nat := 1
def O_RDWR : Nat := 2
def O_CREAT : Nat := 0x00000004
def O_EXCL : Nat := 0x00000008
def O_TRUNC : Nat := 0x00000010
def O_APPEND : Nat := 0x00000020
def O_ACCMODE : Nat := 3
def NO_FD : Int := -0x9527
def LSEEK_SET : Int := 0
def LSEEK_CUR : Int := 1
def LSEEK_END : Int := 2
def MAX_INODE_COUNT : Nat := 0x10000

/-- `FILES_STRUCT_NENTRY`: what fits into a page behind `struct files_struct`. -/
def FILES_STRUCT_NENTRY : Nat := (4096 - 48) / 56

/-- The counts of a `struct inode` and of its `struct sfs_inode`. -/
structure InodeCounts where
  refCount : Nat
  openCount : Nat
  reclaimCount : Nat

inductive FdStatus where
  | fdNone
  | fdInit
  | fdOpened
  | fdClosed
  deriving DecidableEq

structure File where
  status : FdStatus
  readable : Bool
  writable : Bool
  fd : Nat
  pos : Int
  node : Nat
  openCount : Nat

structure VfsState where
  sfs : SfsFs
  counts : Nat → InodeCounts
  pwd : Option Nat
  bootfs : Option Nat
  fdArray : Nat → File

def onSfs {α : Type} (x : Routine SfsFs α) : Routine VfsState α := fun s =>
  match x s.sfs with
  | .error abort => .error abort
  | .ok (r, sfs) => .ok (r, { s with sfs := sfs })

def VfsState.setCounts (s : VfsState) (node : Nat) (v : InodeCounts) : VfsState :=
  { s with counts := Function.update s.counts node v }

def VfsState.setFile (s : VfsState) (fd : Nat) (v : File) : VfsState :=
  { s with fdArray := Function.update s.fdArray fd v }

def modifyFile (fd : Nat) (f : File → File) : Routine VfsState Unit :=
  modifyState fun s => s.setFile fd (f (s.fdArray fd))

section Inodes

/-- The check that every `vop_*` call begins with. -/
def inodeCheck (node : Nat) : Routine VfsState Unit := do
  let s ← getState
  let c := s.counts node
  ensure (c.openCount ≤ c.refCount ∧ c.refCount < MAX_INODE_COUNT ∧
    c.openCount < MAX_INODE_COUNT)

def inodeRefInc (node : Nat) : Routine VfsState Unit :=
  modifyState fun s =>
    s.setCounts node { s.counts node with refCount := (s.counts node).refCount + 1 }

def inodeOpenInc (node : Nat) : Routine VfsState Unit :=
  modifyState fun s =>
    s.setCounts node { s.counts node with openCount := (s.counts node).openCount + 1 }

def vopFsync (node : Nat) : Routine VfsState Unit := do
  inodeCheck node
  onSfs (sfsFsync node)

/-- Directories have no `vop_truncate`. -/
def vopTruncate (node : Nat) (len : Int) : Routine VfsState Unit := do
  let s ← getState
  ensure ((s.sfs.inode node).din.type = SFS_TYPE_FILE)
  inodeCheck node
  onSfs (sfsTruncfile node len)

/-- `sfs_close`. -/
def vopClose (node : Nat) : Routine VfsState Unit := do
  inodeCheck node
  vopFsync node

/-- The end of `sfs_reclaim`, after `unlock_sfs_fs`. -/
def freeInode (node : Nat) : Routine VfsState Unit := do
  let s ← getState
  let din := (s.sfs.inode node).din
  if din.nlinks = 0 then
    onSfs (sfsBlockFree node)
    if din.indirect ≠ 0 then
      onSfs (sfsBlockFree din.indirect)
      ensure ((s.counts node).refCount = 0 ∧ (s.counts node).openCount = 0)
    else
      ensure ((s.counts node).refCount = 0 ∧ (s.counts node).openCount = 0)
  else
    ensure ((s.counts node).refCount = 0 ∧ (s.counts node).openCount = 0)

/-- `sfs_remove_links`. -/
def sfsRemoveLinks (node : Nat) : Routine VfsState Unit :=
  modifyState fun s =>
    { s with sfs := { s.sfs with inodeList := s.sfs.inodeList.erase node } }

/-- The part of `sfs_reclaim` that writes the inode back. -/
def writeBack (node : Nat) : Routine VfsState Unit := do
  let s ← getState
  if (s.sfs.inode node).dirty then
    vopFsync node
  else
    return ()

def truncateUnlinked (node : Nat) : Routine VfsState Unit := do
  let s ← getState
  if (s.sfs.inode node).din.nlinks = 0 then
    vopTruncate node 0
  else
    return ()

def sfsReclaim (node : Nat) : Routine VfsState Unit := do
  let s ← getState
  let c := s.counts node
  ensure (0 < c.reclaimCount)
  modifyState fun s => s.setCounts node { c with reclaimCount := c.reclaimCount - 1 }
  if c.reclaimCount - 1 ≠ 0 ∨ c.refCount ≠ 0 then
    fail .eBusy
  else
    truncateUnlinked node
    writeBack node
    sfsRemoveLinks node
    freeInode node

/-- A failed `vop_reclaim` is only reported. -/
def inodeRefDec (node : Nat) : Routine VfsState Unit := do
  let s ← getState
  let c := s.counts node
  ensure (0 < c.refCount)
  modifyState fun s => s.setCounts node { c with refCount := c.refCount - 1 }
  if c.refCount - 1 = 0 then
    let _ ← attempt do
      inodeCheck node
      sfsReclaim node
    return ()
  else
    return ()

/-- A failed `vop_close` is only reported. -/
def inodeOpenDec (node : Nat) : Routine VfsState Unit := do
  let s ← getState
  let c := s.counts node
  ensure (0 < c.openCount)
  modifyState fun s => s.setCounts node { c with openCount := c.openCount - 1 }
  if c.openCount - 1 = 0 then
    let _ ← attempt (vopClose node)
    return ()
  else
    return ()

/-- `lookup_sfs_nolock` on an inode that it finds. -/
def reuseInode (ino : Nat) : Routine VfsState Unit :=
  modifyState fun s =>
    let c := s.counts ino
    s.setCounts ino { c with
      refCount := c.refCount + 1
      reclaimCount := if c.refCount + 1 = 1 then c.reclaimCount + 1 else c.reclaimCount }

/-- `sfs_create_inode` for an inode that has been read, with the counts of
`inode_init`; there are no operations for other types. -/
def createInode (ino : Nat) : Routine VfsState Unit := do
  let s ← getState
  let type := (s.sfs.inode ino).din.type
  ensure (type = SFS_TYPE_DIR ∨ type = SFS_TYPE_FILE)
  modifyState fun s => s.setCounts ino { refCount := 1, openCount := 0, reclaimCount := 1 }

/-- `sfs_load_inode` with the counts. -/
def loadInode (ino : Nat) : Routine VfsState Unit := do
  let s ← getState
  if ino ∈ s.sfs.inodeList then
    reuseInode ino
  else
    onSfs (sfsLoadInode ino)
    createInode ino

structure Stat where
  stMode : Nat
  stNlinks : Nat
  stBlocks : Nat
  stSize : Nat

def S_IFREG : Nat := 0o10000
def S_IFDIR : Nat := 0o20000
def S_IFLNK : Nat := 0o30000

def sfsGettype (node : Nat) : Routine VfsState Nat := do
  let s ← getState
  let type := (s.sfs.inode node).din.type
  if type = SFS_TYPE_DIR then
    return S_IFDIR
  else if type = SFS_TYPE_FILE then
    return S_IFREG
  else if type = SFS_TYPE_LINK then
    return S_IFLNK
  else
    abort .panic

def vopFstat (node : Nat) : Routine VfsState Stat := do
  inodeCheck node
  let mode ← sfsGettype node
  let s ← getState
  let din := (s.sfs.inode node).din
  return { stMode := mode, stNlinks := din.nlinks, stBlocks := din.blocks, stSize := din.size }

/-- `sfs_tryseek`; directories have no `vop_tryseek`. -/
def vopTryseek (node : Nat) (pos : Int) : Routine VfsState Unit := do
  let s ← getState
  ensure ((s.sfs.inode node).din.type = SFS_TYPE_FILE)
  inodeCheck node
  if pos < 0 ∨ (SFS_MAX_FILE_SIZE : Int) ≤ pos then
    fail .eInval
  else if ((s.sfs.inode node).din.size : Int) < pos then
    vopTruncate node pos
  else
    return ()

/-- `sfs_read`; directories have no `vop_read`. -/
def vopRead (node : Nat) (iob : Iobuf) : Routine VfsState (Except Errno Unit × Iobuf) := do
  let s ← getState
  ensure ((s.sfs.inode node).din.type = SFS_TYPE_FILE)
  inodeCheck node
  onSfs (sfsIo node iob false)

/-- `sfs_openfile` and `sfs_opendir`. -/
def vopOpen (node openFlags : Nat) : Routine VfsState Unit := do
  inodeCheck node
  let s ← getState
  if (s.sfs.inode node).din.type = SFS_TYPE_DIR then
    if openFlags &&& O_ACCMODE ≠ O_RDONLY ∨ openFlags &&& O_APPEND ≠ 0 then
      fail .eIsdir
    else
      return ()
  else
    return ()

end Inodes

section Paths

/-- Where `get_device` begins a lookup: `name`, `/name`, or `disk0:name`. -/
inductive PathStart where
  | curdir
  | bootfs
  | device

structure Path where
  start : PathStart
  subpath : CString

def getDevice (path : Path) : Routine VfsState Nat := do
  let s ← getState
  match path.start with
  | .curdir =>
      match s.pwd with
      | none => fail .eNoent
      | some node =>
          inodeRefInc node
          return node
  | .bootfs =>
      match s.bootfs with
      | none => fail .eNoent
      | some node =>
          inodeRefInc node
          return node
  | .device =>
      loadInode SFS_BLKN_ROOT
      return SFS_BLKN_ROOT

def sfsLookupOnce (node : Nat) (name : CString) (kmalloced : Option Bytes) :
    Routine VfsState Nat := do
  let (r, _) ← onSfs (sfsDirentSearchNolock node name kmalloced)
  match r with
  | .error e => fail e
  | .ok found =>
      loadInode found.ino
      return found.ino

/-- `sfs_lookup`. -/
def vopLookup (node : Nat) (name : CString) (kmalloced : Option Bytes) :
    Routine VfsState Nat := do
  inodeCheck node
  ensure (name.chars.head? ≠ none ∧ name.chars.head? ≠ some 47)
  inodeRefInc node
  let s ← getState
  if (s.sfs.inode node).din.type ≠ SFS_TYPE_DIR then
    inodeRefDec node
    fail .eNotdir
  else
    match ← attempt (sfsLookupOnce node name kmalloced) with
    | .error e =>
        inodeRefDec node
        fail e
    | .ok subnode =>
        inodeRefDec node
        return subnode

def vfsLookup (path : Path) (kmalloced : Option Bytes) : Routine VfsState Nat := do
  let node ← getDevice path
  if path.subpath.chars ≠ [] then
    match ← attempt (vopLookup node path.subpath kmalloced) with
    | .error e =>
        inodeRefDec node
        fail e
    | .ok subnode =>
        inodeRefDec node
        return subnode
  else
    return node

/-- The part of `vfs_open` that finds the inode. A missing file would be made
with `vop_create`, which no inode has. -/
def findNode (path : Path) (openFlags : Nat) (kmalloced : Option Bytes) :
    Routine VfsState Nat := do
  match ← attempt (vfsLookup path kmalloced) with
  | .error e =>
      if e = .eNoent ∧ openFlags &&& O_CREAT ≠ 0 then
        let _ ← getDevice path
        abort .panic
      else
        fail e
  | .ok node =>
      if openFlags &&& O_EXCL ≠ 0 ∧ openFlags &&& O_CREAT ≠ 0 then
        fail .eExists
      else
        return node

def vfsClose (node : Nat) : Routine VfsState Unit := do
  inodeOpenDec node
  inodeRefDec node

/-- The end of `vfs_open`. -/
def truncateOpened (node openFlags : Nat) : Routine VfsState Nat := do
  if openFlags &&& O_TRUNC ≠ 0 ∨ openFlags &&& O_CREAT ≠ 0 then
    match ← attempt (vopTruncate node 0) with
    | .error e =>
        vfsClose node
        fail e
    | .ok _ => return node
  else
    return node

/-- The part of `vfs_open` from `vop_open` on. -/
def openNode (node openFlags : Nat) : Routine VfsState Nat := do
  match ← attempt (vopOpen node openFlags) with
  | .error e =>
      inodeRefDec node
      fail e
  | .ok _ =>
      inodeOpenInc node
      truncateOpened node openFlags

def vfsOpen (path : Path) (openFlags : Nat) (kmalloced : Option Bytes) : Routine VfsState Nat := do
  let mode := openFlags &&& O_ACCMODE
  if mode ≠ O_RDONLY ∧ mode ≠ O_WRONLY ∧ mode ≠ O_RDWR then
    fail .eInval
  else if openFlags &&& O_TRUNC ≠ 0 ∧ mode = O_RDONLY then
    fail .eInval
  else
    let node ← findNode path openFlags kmalloced
    openNode node openFlags

end Paths

section Descriptors

def testfd (fd : Int) : Bool :=
  0 ≤ fd ∧ fd < FILES_STRUCT_NENTRY

/-- `fd_array_alloc(NO_FD, …)`. -/
def fdArrayAlloc : Routine VfsState Nat := do
  let s ← getState
  match (List.range FILES_STRUCT_NENTRY).find? fun fd => (s.fdArray fd).status = .fdNone with
  | none => fail .eMaxOpen
  | some fd =>
      ensure ((s.fdArray fd).openCount = 0)
      modifyFile fd fun file => { file with status := .fdInit, node := 0 }
      return fd

def fdArrayFree (fd : Nat) : Routine VfsState Unit := do
  let s ← getState
  let file := s.fdArray fd
  ensure (file.status = .fdInit ∨ file.status = .fdClosed)
  ensure (file.openCount = 0)
  if file.status = .fdClosed then
    vfsClose file.node
    modifyFile fd fun file => { file with status := .fdNone }
  else
    modifyFile fd fun file => { file with status := .fdNone }

def fdArrayAcquire (fd : Nat) : Routine VfsState Unit := do
  let s ← getState
  ensure ((s.fdArray fd).status = .fdOpened)
  modifyFile fd fun file => { file with openCount := file.openCount + 1 }

def fdArrayRelease (fd : Nat) : Routine VfsState Unit := do
  let s ← getState
  let file := s.fdArray fd
  ensure (file.status = .fdOpened ∨ file.status = .fdClosed)
  ensure (0 < file.openCount)
  modifyFile fd fun file => { file with openCount := file.openCount - 1 }
  if file.openCount - 1 = 0 then
    fdArrayFree fd
  else
    return ()

def fdArrayOpen (fd : Nat) : Routine VfsState Unit := do
  let s ← getState
  ensure ((s.fdArray fd).status = .fdInit ∧ (s.fdArray fd).node ≠ 0)
  modifyFile fd fun file => { file with status := .fdOpened, openCount := file.openCount + 1 }

def fdArrayClose (fd : Nat) : Routine VfsState Unit := do
  let s ← getState
  let file := s.fdArray fd
  ensure (file.status = .fdOpened)
  ensure (0 < file.openCount)
  modifyFile fd fun file => { file with status := .fdClosed, openCount := file.openCount - 1 }
  if file.openCount - 1 = 0 then
    fdArrayFree fd
  else
    return ()

def fd2file (fd : Int) : Routine VfsState Nat := do
  let s ← getState
  if testfd fd = true ∧ (s.fdArray fd.toNat).status = .fdOpened ∧
      ((s.fdArray fd.toNat).fd : Int) = fd then
    return fd.toNat
  else
    fail .eInval

/-- The position that `file_open` starts at. -/
def openPos (node openFlags : Nat) : Routine VfsState Int := do
  if openFlags &&& O_APPEND ≠ 0 then
    let stat ← vopFstat node
    return stat.stSize
  else
    return 0

def fileOpen (path : Path) (openFlags : Nat) (kmalloced : Option Bytes) : Routine VfsState Nat := do
  let mode := openFlags &&& O_ACCMODE
  if mode ≠ O_RDONLY ∧ mode ≠ O_WRONLY ∧ mode ≠ O_RDWR then
    fail .eInval
  else
    let fd ← fdArrayAlloc
    match ← attempt (vfsOpen path openFlags kmalloced) with
    | .error e =>
        fdArrayFree fd
        fail e
    | .ok node =>
        match ← attempt (openPos node openFlags) with
        | .error e =>
            vfsClose node
            fdArrayFree fd
            fail e
        | .ok pos =>
            modifyFile fd fun file => { file with
              pos := pos
              node := node
              readable := mode ≠ O_WRONLY
              writable := mode ≠ O_RDONLY }
            fdArrayOpen fd
            return fd

def fileClose (fd : Int) : Routine VfsState Unit := do
  let file ← fd2file fd
  fdArrayClose file

/-- The code of `file_read` after the checks; returns the code of `vop_read`,
`*copied_store` and the buffer. -/
def readFile (file : Nat) (base : Bytes) (len : Nat) :
    Routine VfsState (Except Errno Unit × Nat × Bytes) := do
  fdArrayAcquire file
  let s ← getState
  let (r, iob) ← vopRead (s.fdArray file).node (iobufInit base len (s.fdArray file).pos)
  let copied := iobufUsed iob
  modifyFile file fun file =>
    if file.status = .fdOpened then { file with pos := file.pos + copied } else file
  fdArrayRelease file
  return (r, copied, iob.buf)

def fileRead (fd : Int) (base : Bytes) (len : Nat) :
    Routine VfsState (Except Errno Unit × Nat × Bytes) := do
  let file ← fd2file fd
  let s ← getState
  if (s.fdArray file).readable = false then
    fail .eInval
  else
    readFile file base len

/-- The position that `file_seek` asks for. An `off_t` has 64 bits. -/
def seekTo (filePos size pos whence : Int) : Int :=
  if whence = LSEEK_CUR then Int.bmod (pos + filePos) (2 ^ 64)
  else if whence = LSEEK_END then Int.bmod (pos + size) (2 ^ 64)
  else pos

/-- The `switch` of `file_seek`. -/
def seekTarget (file : File) (pos whence : Int) : Routine VfsState Int := do
  if whence = LSEEK_SET ∨ whence = LSEEK_CUR then
    return seekTo file.pos 0 pos whence
  else if whence = LSEEK_END then
    let stat ← vopFstat file.node
    return seekTo file.pos stat.stSize pos whence
  else
    fail .eInval

/-- The position that is checked by the file system and then stored. -/
def seekFile (file : Nat) (pos whence : Int) : Routine VfsState Unit := do
  let s ← getState
  let target ← seekTarget (s.fdArray file) pos whence
  vopTryseek (s.fdArray file).node target
  modifyFile file fun file => { file with pos := target }

def fileSeek (fd : Int) (pos whence : Int) : Routine VfsState Unit := do
  let file ← fd2file fd
  fdArrayAcquire file
  match ← attempt (seekFile file pos whence) with
  | .error e =>
      fdArrayRelease file
      fail e
  | .ok _ => fdArrayRelease file

def fileFstat (fd : Int) : Routine VfsState Stat := do
  let file ← fd2file fd
  fdArrayAcquire file
  let s ← getState
  match ← attempt (vopFstat (s.fdArray file).node) with
  | .error e =>
      fdArrayRelease file
      fail e
  | .ok stat =>
      fdArrayRelease file
      return stat

end Descriptors

end Ucore.VfsFiles
