import Ucore.VfsReadOnly

/-! Path strings: `kern/fs/vfs/vfslookup.c`. -/

namespace Ucore.VfsLookup

open Ucore.Errors
open Ucore.Panic
open Ucore.KernelRoutine
open Ucore.ByteBuffer
open Ucore.CStrings
open Ucore.SfsDisk
open Ucore.SfsOwnership
open Ucore.SfsIo
open Ucore.SfsDirent
open Ucore.SfsRuns
open Ucore.SfsSettled
open Ucore.VfsFiles
open Ucore.VfsReadOnly

def colonChar : UInt8 := 58
def slashChar : UInt8 := 47

/-- `vfs_dev_t`; `fs` says whether the file system is mounted on the device, and
`devnode` is a number that no disk inode has. -/
structure VfsDev where
  devname : CString
  devnode : Nat
  fs : Bool
  mountable : Bool

def sfsGetRoot : Routine VfsState Nat := do
  match ← attempt (loadInode SFS_BLKN_ROOT) with
  | .error _ => abort .panic
  | .ok _ => return SFS_BLKN_ROOT

def vfsGetRoot (vdevList : List VfsDev) (devname : CString) : Routine VfsState Nat :=
  match vdevList.find? fun vdev => devname = vdev.devname with
  | none => fail .eNoDev
  | some vdev =>
      if vdev.fs then
        sfsGetRoot
      else if vdev.mountable then
        fail .eNaDev
      else do
        inodeRefInc vdev.devnode
        return vdev.devnode

def vfsGetCurdir : Routine VfsState Nat := do
  let s ← getState
  match s.pwd with
  | none => fail .eNoent
  | some node =>
      inodeRefInc node
      return node

def vfsGetBootfs : Routine VfsState Nat := do
  let s ← getState
  match s.bootfs with
  | none => fail .eNoent
  | some node =>
      inodeRefInc node
      return node

/-- The loop of `get_device` from position `i` on; returns `colon` and `slash`,
with `none` for -1. -/
def scanPath : List UInt8 → Nat → Option Nat × Option Nat
  | [], _ => (none, none)
  | c :: path, i =>
      if c = colonChar then (some i, none)
      else if c = slashChar then (none, some i)
      else scanPath path (i + 1)

/-- The path from position `i` on, without the slashes that it begins with. -/
def skipSlashes (path : CString) (i : Nat) : CString where
  chars := (path.chars.drop i).dropWhile (· = slashChar)
  nonzero c hc := path.nonzero c (List.mem_of_mem_drop ((List.dropWhile_sublist _).subset hc))

/-- Returns the inode and `subpath`. -/
def getDevice (vdevList : List VfsDev) (path : CString) : Routine VfsState (Nat × CString) :=
  match scanPath path.chars 0 with
  | (none, slash) =>
      if slash ≠ some 0 then do
        let node ← vfsGetCurdir
        return (node, path)
      else do
        let node ← vfsGetBootfs
        return (node, skipSlashes path 1)
  | (some 0, _) => do
      let node ← vfsGetCurdir
      let root ← sfsGetRoot
      inodeRefDec node
      return (root, skipSlashes path 1)
  | (some (i + 1), _) => do
      let node ← vfsGetRoot vdevList (path.cut (i + 1))
      return (node, skipSlashes path (i + 2))

def devLookup (node : Nat) (path : CString) : Routine VfsState Nat :=
  if path.chars ≠ [] then
    fail .eNoent
  else do
    inodeRefInc node
    return node

/-- `vop_lookup` of a device or of an inode of SFS. -/
def nodeLookup (vdevList : List VfsDev) (node : Nat) (path : CString) (kmalloced : Option Bytes) :
    Routine VfsState Nat :=
  if vdevList.any fun vdev => vdev.devnode = node then do
    inodeCheck node
    devLookup node path
  else
    vopLookup node path kmalloced

def vfsLookup (vdevList : List VfsDev) (path : CString) (kmalloced : Option Bytes) :
    Routine VfsState Nat := do
  let (node, path) ← getDevice vdevList path
  if path.chars ≠ [] then
    match ← attempt (nodeLookup vdevList node path kmalloced) with
    | .error e =>
        inodeRefDec node
        fail e
    | .ok subnode =>
        inodeRefDec node
        return subnode
  else
    return node

section Paths

/-- What stands between two slashes of a path. -/
structure Component (name : CString) : Prop where
  nonempty : name.chars ≠ []
  length_le : name.length ≤ SFS_MAX_FNAME_LEN
  slashless : slashChar ∉ name.chars

/-- A path through the components, with any number of slashes behind each of
them but the last. -/
inductive Spells : List CString → List UInt8 → Prop
  | last {name : CString} (hname : Component name) : Spells [name] name.chars
  | more {name : CString} {names : List CString} {path : List UInt8} (hname : Component name)
      (slashes : Nat) (hrest : Spells names path) :
      Spells (name :: names)
        (name.chars ++ List.replicate (slashes + 1) slashChar ++ path)

/-- A relative path: no colon before a slash, so there is no device name. -/
structure Relative (names : List CString) (path : CString) : Prop where
  spells : Spells names path.chars
  colonless : ∀ name, names.head? = some name → colonChar ∉ name.chars

/-- The first of the slots that has the name. -/
def findSlot (block : Nat → Bytes) (name : CString) (slots : List Nat) : Except Errno DirentAt :=
  match slots.find? fun i => direntIno (block i) ≠ 0 ∧ name = direntName (terminate (block i)) with
  | none => .error .eNoent
  | some i => .ok ⟨i, direntIno (block i)⟩

/-- The number that the directory has under the name. -/
def entryOf (sfs : SfsFs) (dir : Nat) (name : CString) : Except Errno Nat :=
  (findSlot (slotBlock sfs dir) name (List.range (dinOf sfs dir).blocks)).map DirentAt.ino

def refs (s : VfsState) : Nat → Nat :=
  fun n => (s.counts n).refCount

/-- The lookup returns what is expected, with one reference to the inode. -/
def Answers (s : VfsState) (expected : Except Errno Nat)
    (out : Kernel (Except Errno Nat × VfsState)) : Prop :=
  ∃ s', out = .ok (expected, s') ∧
    refs s' = match expected with
      | .error _ => refs s
      | .ok ino => refs s + Pi.single ino 1

/-- A mounted directory tree, and the current directory `dir` in it. -/
structure Tree (vdevList : List VfsDev) (usage : Usage) (s : VfsState) (dir : Nat) : Prop where
  settled : Settled usage s.sfs
  cached : ∀ n, 0 < (s.counts n).refCount → n ∈ s.sfs.inodeList
  pwd : s.pwd = some dir
  held : 0 < (s.counts dir).refCount
  opened : (s.counts dir).openCount ≤ (s.counts dir).refCount
  type : (dinOf s.sfs dir).type = SFS_TYPE_DIR
  kinds : ∀ f, usage.inode f →
    (dinOf s.sfs f).type = SFS_TYPE_DIR ∨ (dinOf s.sfs f).type = SFS_TYPE_FILE
  linked : ∀ f, usage.inode f → (dinOf s.sfs f).nlinks ≠ 0
  slashless : ∀ slot, slot < (dinOf s.sfs dir).blocks →
    slashChar ∉ (direntName (terminate (slotBlock s.sfs dir slot))).chars
  devnode : ∀ vdev ∈ vdevList, ¬usage.inode vdev.devnode

end Paths

section Scanning

variable {names : List CString} {path : CString}

theorem scanPath_of_plain {chars rest : List UInt8}
    (hcolon : colonChar ∉ chars) (hslash : slashChar ∉ chars) :
    ∀ {i : Nat}, scanPath (chars ++ rest) i = scanPath rest (i + chars.length) := by
  induction chars with
  | nil =>
      intro i
      rfl
  | cons c chars ih =>
      intro i
      rw [List.mem_cons, not_or] at hcolon hslash
      rw [List.cons_append, scanPath, if_neg (Ne.symm hcolon.1), if_neg (Ne.symm hslash.1),
        ih hcolon.2 hslash.2, List.length_cons]
      congr 1
      omega

theorem Relative.scan (h : Relative names path) :
    ∃ slash, scanPath path.chars 0 = (none, slash) ∧ slash ≠ some 0 := by
  obtain ⟨hspells, hcolon⟩ := h
  generalize path.chars = chars at hspells
  cases hspells with
  | @last name hname =>
      have hscan := @scanPath_of_plain name.chars [] (hcolon name rfl) hname.slashless 0
      rw [List.append_nil] at hscan
      exact ⟨none, hscan, nofun⟩
  | @more name names rest hname slashes hrest =>
      refine ⟨some name.chars.length, ?_, ?_⟩
      · rw [List.append_assoc, scanPath_of_plain (hcolon name rfl) hname.slashless,
          List.replicate_succ, List.cons_append, scanPath, if_neg (by decide), if_pos rfl,
          Nat.zero_add]
      · intro hzero
        exact hname.nonempty (List.length_eq_zero_iff.mp (Option.some.inj hzero))

theorem Relative.head (h : Relative names path) :
    path.chars.head? ≠ none ∧ path.chars.head? ≠ some slashChar := by
  obtain ⟨hspells, _⟩ := h
  have hfirst : ∀ {name : CString} (rest : List UInt8), Component name →
      (name.chars ++ rest).head? ≠ none ∧ (name.chars ++ rest).head? ≠ some slashChar := by
    intro name rest hname
    obtain ⟨c, chars, hchars⟩ := List.exists_cons_of_ne_nil hname.nonempty
    have hc : slashChar ≠ c := by
      rintro rfl
      apply hname.slashless
      rw [hchars]
      exact List.mem_cons_self
    rw [hchars]
    exact ⟨nofun, fun heq => hc (Option.some.inj heq).symm⟩
  generalize path.chars = chars at hspells
  cases hspells with
  | @last name hname =>
      have h := hfirst [] hname
      rwa [List.append_nil] at h
  | @more name names rest hname slashes hrest =>
      rw [List.append_assoc]
      exact hfirst _ hname

theorem Relative.single (h : Relative names path) (hone : names.length = 1) :
    names = [path] ∧ path.length ≤ SFS_MAX_FNAME_LEN := by
  obtain ⟨hspells, _⟩ := h
  generalize hchars : path.chars = chars at hspells
  cases hspells with
  | @last name hname =>
      obtain rfl : path = name := CString.ext hchars
      exact ⟨rfl, hname.length_le⟩
  | more hname slashes hrest =>
      cases hrest with
      | last _ => cases hone
      | more _ _ _ => cases hone

end Scanning

section Counting

variable {s : VfsState} {n : Nat}

theorem refs_setCounts (s : VfsState) (n : Nat) (c : InodeCounts) :
    refs (s.setCounts n c) = Function.update (refs s) n c.refCount := by
  funext k
  change (Function.update s.counts n c k).refCount = _
  rcases eq_or_ne k n with rfl | hne
  · rw [Function.update_self, Function.update_self]
  · rw [Function.update_of_ne hne, Function.update_of_ne hne]
    rfl

theorem refs_taken {c : InodeCounts} (hc : c.refCount = (s.counts n).refCount + 1) :
    refs (s.setCounts n c) = refs s + Pi.single n 1 := by
  rw [refs_setCounts, hc]
  funext k
  rw [Pi.add_apply]
  rcases eq_or_ne k n with rfl | hne
  · rw [Function.update_self, Pi.single_eq_same]
    rfl
  · rw [Function.update_of_ne hne, Pi.single_eq_of_ne hne, Nat.add_zero]

theorem refs_dropped {c : InodeCounts} (hc : c.refCount + 1 = (s.counts n).refCount) :
    refs (s.setCounts n c) + Pi.single n 1 = refs s := by
  rw [refs_setCounts]
  funext k
  rw [Pi.add_apply]
  rcases eq_or_ne k n with rfl | hne
  · rw [Function.update_self, Pi.single_eq_same]
    exact hc
  · rw [Function.update_of_ne hne, Pi.single_eq_of_ne hne, Nat.add_zero]

/-- Dropping a reference that is not the last one. -/
theorem inodeRefDec_eq (h : 1 < refs s n) :
    ∃ s', inodeRefDec n s = .ok (.ok (), s') ∧ refs s' + Pi.single n 1 = refs s ∧
      s'.sfs = s.sfs := by
  change 1 < (s.counts n).refCount at h
  have hless : (s.counts n).refCount - 1 + 1 = (s.counts n).refCount :=
    Nat.sub_add_cancel (Nat.le_of_lt h)
  refine ⟨s.setCounts n { s.counts n with refCount := (s.counts n).refCount - 1 }, ?_,
    refs_dropped hless, rfl⟩
  rw [inodeRefDec, getState_bind, ensure_bind_of (Nat.zero_lt_of_lt h), modifyState_bind,
    if_neg (Nat.sub_ne_zero_of_lt h)]
  rfl

end Counting

section Searching

variable {sfs : SfsFs} {dir n : Nat} {block : Nat → Bytes}

theorem findSlot_cons_found {name : CString} {i : Nat} (hne : direntIno (block i) ≠ 0)
    (hname : name = direntName (terminate (block i))) (slots : List Nat) :
    findSlot block name (i :: slots) = .ok ⟨i, direntIno (block i)⟩ := by
  rw [findSlot, List.find?_cons, decide_eq_true (And.intro hne hname)]

theorem findSlot_cons_other {name : CString} {i : Nat}
    (hother : ¬(direntIno (block i) ≠ 0 ∧ name = direntName (terminate (block i))))
    (slots : List Nat) : findSlot block name (i :: slots) = findSlot block name slots := by
  rw [findSlot, List.find?_cons, decide_eq_false hother]
  rfl

theorem findSlot_ok {name : CString} {slots : List Nat} {found : DirentAt}
    (h : findSlot block name slots = .ok found) : found.slot ∈ slots ∧
      found.ino = direntIno (block found.slot) ∧ found.ino ≠ 0 ∧
      name = direntName (terminate (block found.slot)) := by
  unfold findSlot at h
  split at h
  · cases h
  · next i hfind =>
    cases h
    have hmem := List.mem_of_find?_eq_some hfind
    have htrue := List.find?_some hfind
    have hprop := of_decide_eq_true htrue
    exact ⟨hmem, rfl, hprop.1, hprop.2⟩

/-- A search looks for the first slot with the name. -/
theorem searchFrom_eq (h : Slots sfs dir n block) (hn : n ≤ maxBlocks) (name : CString)
    {m : Nat} : ∀ {i emptySlot : Nat} {entry : Bytes}, i + m = n →
      ∃ empty, searchFrom dir name entry emptySlot i m sfs =
        .ok (.ok (findSlot block name (List.range' i m), empty), sfs) := by
  induction m with
  | zero =>
      intro i emptySlot entry _
      exact ⟨emptySlot, rfl⟩
  | succ m ih =>
      intro i emptySlot entry hend
      obtain ⟨e, hread, hino, hename⟩ :=
        sfsDirentReadNolock_eq h (by omega) (by omega : i < maxBlocks) entry
      have hnext : i + 1 + m = n := by omega
      rw [searchFrom, bind_of_ok hread, hino, hename, List.range'_succ]
      rcases eq_or_ne (direntIno (block i)) 0 with hzero | hne
      · rw [if_pos hzero, findSlot_cons_other (fun hfound => hfound.1 hzero)]
        exact ih hnext
      · rw [if_neg hne]
        rcases Decidable.em (name = direntName (terminate (block i))) with hname | hname
        · rw [if_pos hname, findSlot_cons_found hne hname]
          exact ⟨emptySlot, rfl⟩
        · rw [if_neg hname, findSlot_cons_other (fun hfound => hname hfound.2)]
          exact ih hnext

theorem sfsDirentSearchNolock_eq {usage : Usage} (hsettled : Settled usage sfs)
    (hin : dir ∈ sfs.inodeList) (htype : (dinOf sfs dir).type = SFS_TYPE_DIR) {name : CString}
    (hlen : name.length ≤ SFS_MAX_FNAME_LEN) (entry : Bytes) :
    ∃ empty, sfsDirentSearchNolock dir name (some entry) sfs =
      .ok (.ok (findSlot (slotBlock sfs dir) name (List.range (dinOf sfs dir).blocks), empty),
        sfs) := by
  have hdin : dinOf sfs dir = (sfs.inode dir).din := dinOf_loaded hin
  have hslots := slots_of_settled hsettled hin (hdin ▸ htype)
  have hmax := hsettled.wf.blocks_max dir (hsettled.wf.loaded dir hin)
  rw [sfsDirentSearchNolock, ensure_bind_of hlen]
  simp only [getState_bind, ← hdin]
  rw [List.range_eq_range']
  exact searchFrom_eq hslots hmax name (Nat.zero_add _)

end Searching

section Lookup

variable {vdevList : List VfsDev} {usage : Usage} {s t : VfsState} {dir : Nat} {name : CString}

/-- What a lookup needs of the state that it begins in. -/
structure Ready (usage : Usage) (s : VfsState) (dir : Nat) : Prop where
  settled : Settled usage s.sfs
  cached : ∀ n, 0 < refs s n → n ∈ s.sfs.inodeList
  held : 0 < refs s dir
  type : (dinOf s.sfs dir).type = SFS_TYPE_DIR
  kinds : ∀ f, usage.inode f →
    (dinOf s.sfs f).type = SFS_TYPE_DIR ∨ (dinOf s.sfs f).type = SFS_TYPE_FILE
  linked : ∀ f, usage.inode f → (dinOf s.sfs f).nlinks ≠ 0

theorem Ready.loaded (h : Ready usage s dir) : dir ∈ s.sfs.inodeList :=
  h.cached dir h.held

theorem Ready.taken (h : Ready usage s dir) {c : InodeCounts}
    (hc : c.refCount = (s.counts dir).refCount + 1) : Ready usage (s.setCounts dir c) dir where
  settled := h.settled
  cached n := by
    rw [refs_taken hc]
    intro hn
    rcases eq_or_ne n dir with rfl | hne
    · exact h.loaded
    · apply h.cached n
      rwa [Pi.add_apply, Pi.single_eq_of_ne hne, Nat.add_zero] at hn
  held := by
    rw [refs_taken hc, Pi.add_apply]
    exact Nat.lt_of_lt_of_le h.held (Nat.le_add_right _ _)
  type := h.type
  kinds := h.kinds
  linked := h.linked

/-- A routine that takes a reference for the time of a lookup. -/
theorem Answers.held {s s' : VfsState} {r : Except Errno Nat} {x : Routine VfsState Nat}
    (h : Answers s' r (x s')) (hrefs : refs s' = refs s + Pi.single dir 1)
    (hheld : 0 < refs s dir) :
    Answers s r ((do
      match ← attempt x with
      | .error e =>
          inodeRefDec dir
          fail e
      | .ok subnode =>
          inodeRefDec dir
          return subnode : Routine VfsState Nat) s') := by
  obtain ⟨t, hrun, ht⟩ := h
  rw [attempt_bind_of_ok hrun]
  have hpinned : 1 < refs s' dir := by
    rw [hrefs, Pi.add_apply, Pi.single_eq_same]
    omega
  cases r with
  | error e =>
      simp only at ht ⊢
      obtain ⟨u, hdec, hu, _⟩ := inodeRefDec_eq (ht ▸ hpinned)
      rw [bind_of_ok hdec]
      refine ⟨u, rfl, ?_⟩
      rw [ht, hrefs] at hu
      exact add_right_cancel hu
  | ok ino =>
      simp only at ht ⊢
      have hmore : 1 < refs t dir := by
        rw [ht, Pi.add_apply]
        exact Nat.lt_of_lt_of_le hpinned (Nat.le_add_right _ _)
      obtain ⟨u, hdec, hu, _⟩ := inodeRefDec_eq hmore
      rw [bind_of_ok hdec]
      refine ⟨u, rfl, ?_⟩
      rw [ht, hrefs, add_right_comm] at hu
      exact add_right_cancel hu

end Lookup

section Resolution

variable {vdevList : List VfsDev} {usage : Usage} {s : VfsState} {dir : Nat}
  {names : List CString} {path : CString}

theorem Tree.ready (h : Tree vdevList usage s dir) : Ready usage s dir :=
  ⟨h.settled, h.cached, h.held, h.type, h.kinds, h.linked⟩

theorem Answers.unique {r r' : Except Errno Nat} {out : Kernel (Except Errno Nat × VfsState)}
    (h : Answers s r out) (h' : Answers s r' out) : r = r' := by
  obtain ⟨t, hout, _⟩ := h
  obtain ⟨t', hout', _⟩ := h'
  rw [hout] at hout'
  cases hout'
  rfl

end Resolution

section SmallVfs

end SmallVfs

end Ucore.VfsLookup
