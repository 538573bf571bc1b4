import Ucore.Hash
import Ucore.Segments

/-!
The inodes that an SFS keeps in memory when processes share it. A process may
sleep in `down` and in device input and output, so a call is cut there into
pieces that run without interruption.
-/

namespace Ucore.SfsInodeCache

open Ucore.Errors
open Ucore.Hash
open Ucore.KernelRoutine
open Ucore.Interleaving
open Ucore.Segments

def SFS_HLIST_SHIFT : Nat := 10

def sinHashfn (ino : Nat) : Nat := hash32 ino SFS_HLIST_SHIFT

/-- An inode in memory, with the fields of its `sfs_inode`. -/
structure Inode where
  ino : Nat
  nlinks : Nat
  dirty : Bool
  sem : Nat
  refCount : Nat
  reclaimCount : Nat

/-- The in-memory state of the file system. An inode gets a number that no other
inode gets when it is created, `killed` lists those that were freed and the
reference count that they had then. -/
structure SfsState where
  nodes : Nat → Option Inode
  created : Nat
  killed : List (Nat × Nat)
  fsSem : Nat
  inodeList : List Nat
  hashList : Nat → List Nat
  superDirty : Bool

def SfsState.setNode (s : SfsState) (n : Nat) (node : Inode) : SfsState :=
  { s with nodes := Function.update s.nodes n (some node) }

inductive Call where
  | load (ino : Nat)
  | refInc (n : Nat)
  | refDec (n : Nat)
  | sync
  /-- Some other call changes what the inode is in memory. -/
  | touch (n : Nat) (dirty : Bool) (nlinks : Nat)

/-- Who called `sfs_fsync`. -/
inductive Caller where
  | reclaim
  | sync
  deriving DecidableEq

/-- Where a process is suspended. -/
inductive Pc where
  | idle
  | loadDown (ino : Nat)
  | loadLocked (ino : Nat)
  | loadRead (ino : Nat)
  | reclaimDown (n : Nat)
  | reclaimLocked (n : Nat)
  | reclaimTruncate (n : Nat)
  | syncDown
  | syncLocked
  | fsyncDown (n : Nat) (caller : Caller)
  | fsyncLocked (n : Nat) (caller : Caller)
  | fsyncWrite (n : Nat) (caller : Caller)
  | syncSuper
  | syncFreemap
  deriving DecidableEq

/-- What the code that a process was suspended in comes back with, and whether
there is memory for what is allocated next. -/
structure Reply where
  ret : Except Errno Unit
  nlinks : Nat
  dirty : Bool
  memory : Bool

section Inodes

/-- The inode at an address. Memory that was freed is not an inode. -/
def getNode (n : Nat) : Routine SfsState Inode := fun s =>
  match s.nodes n with
  | none => .error .panic
  | some node => .ok (.ok node, s)

def modifyNode (n : Nat) (f : Inode → Inode) : Routine SfsState Unit := do
  let node ← getNode n
  modifyState fun s => s.setNode n (f node)

/-- `unlock_sfs_fs`. -/
def unlockSfsFs : Routine SfsState Unit :=
  modifyState fun s => { s with fsSem := s.fsSem + 1 }

def inodeRefInc (n : Nat) : Routine SfsState Nat := do
  modifyNode n fun node => { node with refCount := node.refCount + 1 }
  let node ← getNode n
  return node.refCount

/-- `inode_ref_dec` up to its `vop_reclaim`, if it gets there. -/
def inodeRefDec (n : Nat) : Routine SfsState Pc := do
  let node ← getNode n
  ensure (0 < node.refCount)
  modifyNode n fun node => { node with refCount := node.refCount - 1 }
  if node.refCount - 1 = 0 then
    return .reclaimDown n
  else
    return .idle

def inodeKill (n : Nat) : Routine SfsState Unit := do
  let node ← getNode n
  ensure (node.refCount = 0)
  modifyState fun s => { s with
    nodes := Function.update s.nodes n none
    killed := (n, node.refCount) :: s.killed }

def sfsSetLinks (n : Nat) : Routine SfsState Unit := do
  let node ← getNode n
  modifyState fun s => { s with
    inodeList := n :: s.inodeList
    hashList := Function.update s.hashList (sinHashfn node.ino)
      (n :: s.hashList (sinHashfn node.ino)) }

def sfsRemoveLinks (n : Nat) : Routine SfsState Unit := do
  let node ← getNode n
  modifyState fun s => { s with
    inodeList := s.inodeList.erase n
    hashList := Function.update s.hashList (sinHashfn node.ino)
      ((s.hashList (sinHashfn node.ino)).erase n) }

/-- `sfs_create_inode` with the memory it asks for, and `inode_init`. -/
def sfsCreateInode (ino nlinks : Nat) : Routine SfsState Nat := fun s =>
  let node : Inode := {
    ino := ino
    nlinks := nlinks
    dirty := false
    sem := 1
    refCount := 1
    reclaimCount := 1 }
  .ok (.ok s.created, { s.setNode s.created node with created := s.created + 1 })

/-- The loop of `lookup_sfs_nolock`, on the rest of the hash chain. -/
def lookupFrom (ino : Nat) : List Nat → Routine SfsState (Option Nat)
  | [] => return none
  | n :: rest => do
      let node ← getNode n
      if node.ino = ino then
        let refCount ← inodeRefInc n
        if refCount = 1 then
          modifyNode n fun node => { node with reclaimCount := node.reclaimCount + 1 }
        return some n
      else
        lookupFrom ino rest

def lookupSfsNolock (ino : Nat) : Routine SfsState (Option Nat) := do
  let s ← getState
  lookupFrom ino (s.hashList (sinHashfn ino))

end Inodes

section Calls

/-- `sfs_load_inode` once it has the lock, up to `sfs_rbuf`. -/
def sfsLoadInode (ino : Nat) (reply : Reply) : Routine SfsState Pc := do
  let found ← lookupSfsNolock ino
  match found with
  | some _ =>
      unlockSfsFs
      return .idle
  | none =>
      if reply.memory then
        return .loadRead ino
      else
        unlockSfsFs
        fail .eNoMem

/-- `sfs_load_inode` after `sfs_rbuf`. -/
def sfsLoadCreate (ino : Nat) (reply : Reply) : Routine SfsState Pc := do
  match reply.ret with
  | .error e =>
      unlockSfsFs
      fail e
  | .ok _ =>
      ensure (reply.nlinks ≠ 0)
      if reply.memory then
        let n ← sfsCreateInode ino reply.nlinks
        sfsSetLinks n
        unlockSfsFs
        return .idle
      else
        unlockSfsFs
        fail .eNoMem

/-- `sfs_reclaim` when the inode is written back. -/
def sfsReclaimed (n : Nat) : Routine SfsState Pc := do
  sfsRemoveLinks n
  unlockSfsFs
  let node ← getNode n
  if node.nlinks = 0 then
    modifyState fun s => { s with superDirty := true }
  inodeKill n
  return .idle

/-- `sfs_reclaim` at its `vop_fsync`. -/
def sfsReclaimSync (n : Nat) : Routine SfsState Pc := do
  let node ← getNode n
  if node.dirty then
    return .fsyncDown n .reclaim
  else
    sfsReclaimed n

/-- `sfs_reclaim` once it has the lock, up to `vop_truncate`. -/
def sfsReclaim (n : Nat) : Routine SfsState Pc := do
  let node ← getNode n
  ensure (0 < node.reclaimCount)
  modifyNode n fun node => { node with reclaimCount := node.reclaimCount - 1 }
  if node.reclaimCount - 1 ≠ 0 ∨ node.refCount ≠ 0 then
    unlockSfsFs
    fail .eBusy
  else if node.nlinks = 0 then
    return .reclaimTruncate n
  else
    sfsReclaimSync n

/-- `sfs_reclaim` after `vop_truncate`. -/
def sfsReclaimTruncated (n : Nat) (reply : Reply) : Routine SfsState Pc := do
  modifyNode n fun node => { node with dirty := reply.dirty }
  match reply.ret with
  | .error e =>
      unlockSfsFs
      fail e
  | .ok _ => sfsReclaimSync n

/-- The end of `sfs_sync`. -/
def sfsSyncSuper : Routine SfsState Pc := do
  let s ← getState
  if s.superDirty then
    modifyState fun s => { s with superDirty := false }
    return .syncSuper
  else
    return .idle

/-- The loop of `sfs_sync`, on the rest of the inode list. -/
def sfsSyncFrom : List Nat → Routine SfsState Pc
  | [] => do
      unlockSfsFs
      sfsSyncSuper
  | n :: rest => do
      let node ← getNode n
      if node.dirty then
        return .fsyncDown n .sync
      else
        sfsSyncFrom rest

def sfsSync : Routine SfsState Pc := do
  let s ← getState
  sfsSyncFrom s.inodeList

/-- What the caller of `sfs_fsync` does next. -/
def fsyncReturns (n : Nat) (caller : Caller) (ret : Except Errno Unit) : Routine SfsState Pc := do
  match caller with
  | .sync =>
      let s ← getState
      sfsSyncFrom ((s.inodeList.dropWhile fun m => m ≠ n).drop 1)
  | .reclaim =>
      match ret with
      | .error e =>
          unlockSfsFs
          fail e
      | .ok _ => sfsReclaimed n

def unlockSin (n : Nat) : Routine SfsState Unit :=
  modifyNode n fun node => { node with sem := node.sem + 1 }

/-- `sfs_fsync` once it has the lock of the inode, up to `sfs_wbuf`. -/
def sfsFsync (n : Nat) (caller : Caller) : Routine SfsState Pc := do
  let node ← getNode n
  if node.dirty then
    modifyNode n fun node => { node with dirty := false }
    return .fsyncWrite n caller
  else
    unlockSin n
    fsyncReturns n caller (.ok ())

/-- `sfs_fsync` after `sfs_wbuf`. -/
def sfsFsynced (n : Nat) (caller : Caller) (reply : Reply) : Routine SfsState Pc := do
  match reply.ret with
  | .error e =>
      modifyNode n fun node => { node with dirty := true }
      unlockSin n
      fsyncReturns n caller (.error e)
  | .ok _ =>
      unlockSin n
      fsyncReturns n caller (.ok ())

/-- `sfs_sync` after a part of what it writes at its end. -/
def sfsSyncWritten (next : Pc) (reply : Reply) : Routine SfsState Pc := do
  match reply.ret with
  | .error e =>
      modifyState fun s => { s with superDirty := true }
      fail e
  | .ok _ => return next

/-- A process counts and drops only references that it holds. -/
def Call.Allowed (s : SfsState) : Call → Prop
  | .refInc n | .refDec n | .touch n _ _ => ∃ node, s.nodes n = some node ∧ 0 < node.refCount
  | _ => True

def start : Call → Routine SfsState Pc
  | .load ino => return .loadDown ino
  | .refInc n => do
      let _ ← inodeRefInc n
      return .idle
  | .refDec n => inodeRefDec n
  | .sync => return .syncDown
  | .touch n dirty nlinks => do
      modifyNode n fun node => { node with dirty := dirty, nlinks := nlinks }
      return .idle

/-- Where a process goes on when `down` of the semaphore of the file system lets it. -/
def lockSfsFs : Pc → Option Pc
  | .loadDown ino => some (.loadLocked ino)
  | .reclaimDown n => some (.reclaimLocked n)
  | .syncDown => some .syncLocked
  | _ => none

def resume (reply : Reply) : Pc → Routine SfsState Pc
  | .loadLocked ino => sfsLoadInode ino reply
  | .loadRead ino => sfsLoadCreate ino reply
  | .reclaimLocked n => sfsReclaim n
  | .reclaimTruncate n => sfsReclaimTruncated n reply
  | .syncLocked => sfsSync
  | .fsyncLocked n caller => sfsFsync n caller
  | .fsyncWrite n caller => sfsFsynced n caller reply
  | .syncSuper => sfsSyncWritten .syncFreemap reply
  | .syncFreemap => sfsSyncWritten .idle reply
  | pc => return pc

/-- An inode that a directory refers to has a link. -/
def Pc.Expects (reply : Reply) : Pc → Prop
  | .loadRead _ => reply.ret = .ok () → reply.nlinks ≠ 0
  | _ => True

end Calls

section Steps

variable {ι : Type} [DecidableEq ι]

abbrev System (ι : Type) := Threads ι SfsState Pc

/-- A process begins a call, gets a semaphore, or goes on with its call. -/
inductive Step : System ι → System ι → Prop
  | start {s : System ι} {i : ι} {call : Call} {r : Except Errno Pc} {t : SfsState} :
      s.pc i = .idle → call.Allowed s.shared → start call s.shared = .ok (r, t) →
        Step s { shared := t, pc := Function.update s.pc i (after .idle r) }
  | lockSfsFs {s : System ι} {i : ι} {x : Pc} :
      lockSfsFs (s.pc i) = some x → 0 < s.shared.fsSem →
        Step s { shared := { s.shared with fsSem := s.shared.fsSem - 1 }
                 pc := Function.update s.pc i x }
  | lockSin {s : System ι} {i : ι} {n : Nat} {caller : Caller} {node : Inode} :
      s.pc i = .fsyncDown n caller → s.shared.nodes n = some node → 0 < node.sem →
        Step s { shared := s.shared.setNode n { node with sem := node.sem - 1 }
                 pc := Function.update s.pc i (.fsyncLocked n caller) }
  | resume {s : System ι} {i : ι} {reply : Reply} {r : Except Errno Pc} {t : SfsState} :
      (s.pc i).Expects reply → resume reply (s.pc i) s.shared = .ok (r, t) →
        Step s { shared := t, pc := Function.update s.pc i (after .idle r) }

/-- A file system with no inode in memory, and processes that are in no call. -/
def initial (ι : Type) : System ι where
  shared :=
    { nodes := fun _ => none
      created := 0
      killed := []
      fsSem := 1
      inodeList := []
      hashList := fun _ => []
      superDirty := false }
  pc := fun _ => .idle

end Steps

end Ucore.SfsInodeCache
