import Ucore.InodeDrops

/-! The path of a directory: `sfs_namefile` of `kern/fs/sfs/sfs_inode.c`. -/

namespace Ucore.SfsNamefile

open Ucore.Errors
open Ucore.KernelRoutine
open Ucore.ByteBuffer
open Ucore.CStrings
open Ucore.SfsDisk
open Ucore.SfsOwnership
open Ucore.SfsIo
open Ucore.SfsDirent
open Ucore.SfsSettled
open Ucore.VfsFiles
open Ucore.VfsLookup
open Ucore.InodeDrops

section Code

def dot : CString where
  chars := [46]
  nonzero := by simp

def dotdot : CString where
  chars := [46, 46]
  nonzero := by simp

/-- The loop of `sfs_dirent_findino_nolock` from slot `i` on; returns the buffer behind
`entry`. -/
def findinoFrom (sin ino : Nat) (entry : Bytes) (i : Nat) : Nat → Routine SfsFs Bytes
  | 0 => fail .eNoent
  | n + 1 => do
      let entry ← sfsDirentReadNolock sin i entry
      if direntIno entry = ino then
        return entry
      else
        findinoFrom sin ino entry (i + 1) n

def sfsDirentFindinoNolock (sin ino : Nat) (entry : Bytes) : Routine SfsFs Bytes := do
  let sfs ← getState
  let nslots := (sfs.inode sin).din.blocks
  findinoFrom sin ino entry 0 nslots

/-- The memory that a lookup finds: what `kmalloc` returns for the entry of its search, and
whether there is memory for an inode. -/
structure Memory where
  entry : Option Bytes
  inode : Bool

/-- `sfs_load_inode`, where `given` says whether there is memory for an inode. -/
def loadInodeIn (given : Bool) (ino : Nat) : Routine VfsState Unit := do
  let s ← getState
  if ino ∉ s.sfs.inodeList ∧ given = false then
    fail .eNoMem
  else
    loadInode ino

/-- `sfs_lookup_once`. -/
def lookupOnceIn (node : Nat) (name : CString) (memory : Memory) : Routine VfsState Nat := do
  let (r, _) ← onSfs (sfsDirentSearchNolock node name memory.entry)
  match r with
  | .error e => fail e
  | .ok found =>
      loadInodeIn memory.inode found.ino
      return found.ino

/-- What the loop of `sfs_namefile` has come to. -/
structure Climbed where
  buf : Bytes
  ptr : Nat
  resid : Nat

/-- The name of the entry and a slash are put before `ptr`. -/
def putName (c : Climbed) (entry : Bytes) : Climbed :=
  let alen := (direntName entry).length + 1
  let ptr := c.ptr - alen
  { buf := Function.update (copyBytes c.buf ptr entry 4 (alen - 1)) (ptr + (alen - 1)) slashChar
    ptr := ptr
    resid := c.resid - alen }

/-- The loop of `sfs_namefile`, and its exits up to `kfree`; `memory i` is what the lookup of
round `i` finds. -/
def climb : Nat → (Nat → Memory) → Nat → Bytes → Climbed →
    Routine VfsState (Except Errno Unit × Climbed)
  | 0, _, _, _, _ => abort .loop
  | fuel + 1, memory, node, entry, c => do
      match ← attempt (lookupOnceIn node dotdot (memory 0)) with
      | .error e =>
          inodeRefDec node
          return (.error e, c)
      | .ok parent =>
          inodeRefDec node
          if node = parent then
            inodeRefDec node
            return (.ok (), c)
          else
            let s ← getState
            ensure (node ≠ parent ∧ (s.sfs.inode parent).din.type = SFS_TYPE_DIR)
            match ← attempt (onSfs (sfsDirentFindinoNolock parent node entry)) with
            | .error e =>
                inodeRefDec parent
                return (.error e, c)
            | .ok entry =>
                if c.resid < (direntName entry).length + 1 then
                  inodeRefDec parent
                  return (.error .eNoMem, c)
                else
                  climb fuel (fun i => memory (i + 1)) parent entry (putName c entry)

/-- `kmalloced` is what `kmalloc` returned for `entry`. -/
def sfsNamefile (fuel node : Nat) (iob : Iobuf) (kmalloced : Option Bytes)
    (memory : Nat → Memory) : Routine VfsState (Except Errno Unit × Iobuf) := do
  if iob.resid ≤ 2 then
    return (.error .eNoMem, iob)
  else
    match kmalloced with
    | none => return (.error .eNoMem, iob)
    | some entry =>
        let base := iobufUsed iob
        inodeRefInc node
        let (r, c) ← climb fuel memory node entry
          { buf := iob.buf, ptr := base + iob.resid, resid := iob.resid - 2 }
        match r with
        | .error e => return (.error e, { iob with buf := c.buf })
        | .ok _ =>
            let alen := iob.resid - c.resid - 2
            let ptr := base + 1
            let buf := copyBytes c.buf ptr c.buf c.ptr alen
            let buf := Function.update (Function.update buf (ptr - 1) slashChar) (ptr + alen) 0
            let iob ← onSfs (iobufSkip { iob with buf := buf } alen)
            return (.ok (), iob)

end Code

section Trees

/-- The directory holds `..` for `parent`, and no other entries of the two special names. -/
structure Directory (sfs : SfsFs) (dir parent : Nat) : Prop where
  type : (dinOf sfs dir).type = SFS_TYPE_DIR
  linked : (dinOf sfs dir).nlinks ≠ 0
  up : entryOf sfs dir dotdot = .ok parent
  dots : ∀ slot, slot < (dinOf sfs dir).blocks → direntIno (slotBlock sfs dir slot) ≠ 0 →
    direntName (terminate (slotBlock sfs dir slot)) = dot →
      direntIno (slotBlock sfs dir slot) = dir
  ups : ∀ slot, slot < (dinOf sfs dir).blocks → direntIno (slotBlock sfs dir slot) ≠ 0 →
    direntName (terminate (slotBlock sfs dir slot)) = dotdot →
      direntIno (slotBlock sfs dir slot) = parent

/-- The slot of `parent` is an entry for `dir` other than `.` and `..`. -/
structure Names (sfs : SfsFs) (parent dir slot : Nat) (name : CString) : Prop where
  slot_lt : slot < (dinOf sfs parent).blocks
  ino : direntIno (slotBlock sfs parent slot) = dir
  ino_ne : dir ≠ 0
  spelled : direntName (terminate (slotBlock sfs parent slot)) = name
  plain : name ≠ dot ∧ name ≠ dotdot

/-- The path from the root to a directory of a tree: each directory other than the root has
exactly one entry in its parent, besides `.` and `..`. -/
inductive PathTo (sfs : SfsFs) (root : Nat) : Nat → List CString → Prop
  | root (h : Directory sfs root root) : PathTo sfs root root []
  | sub {parent dir slot : Nat} {names : List CString} {name : CString}
      (hparent : PathTo sfs root parent names) (h : Directory sfs dir parent) (hne : dir ≠ root)
      (hentry : Names sfs parent dir slot name)
      (honly : ∀ slot' name', Names sfs parent dir slot' name' → slot' = slot) :
      PathTo sfs root dir (names ++ [name])

/-- The directory that `..` names. -/
def above (sfs : SfsFs) (dir : Nat) : Nat :=
  match entryOf sfs dir dotdot with
  | .ok parent => parent
  | .error _ => dir

variable {usage : Usage} {sfs sfs' : SfsFs} {root dir parent slot : Nat} {names : List CString}
  {name : CString}

theorem PathTo.directory (h : PathTo sfs root dir names) : ∃ parent, Directory sfs dir parent := by
  cases h with
  | root h => exact ⟨root, h⟩
  | sub _ h _ _ _ => exact ⟨_, h⟩

theorem Directory.unique {parent' : Nat} (h : Directory sfs dir parent)
    (h' : Directory sfs dir parent') : parent' = parent := by
  have hsame := h'.up.symm.trans h.up
  exact Except.ok.inj hsame

theorem Directory.above_eq (h : Directory sfs dir parent) : above sfs dir = parent := by
  rw [above, h.up]

/-- The parent of a directory that is there is there too. -/
theorem Directory.inode (h : Directory sfs dir parent) (hsettled : Settled usage sfs)
    (hdir : usage.inode dir) : usage.inode parent := by
  have hup := h.up
  unfold entryOf at hup
  cases hfound : findSlot (slotBlock sfs dir) dotdot (List.range (dinOf sfs dir).blocks) with
  | error e =>
      rw [hfound] at hup
      cases hup
  | ok found =>
      rw [hfound] at hup
      obtain ⟨hslot, hino, hne, _⟩ := findSlot_ok hfound
      rw [List.mem_range] at hslot
      obtain rfl : found.ino = parent := Except.ok.inj hup
      rw [hino] at hne ⊢
      exact hsettled.entries dir found.slot hdir h.type hslot hne

/-- A directory is at one depth only. -/
theorem PathTo.depth (h : PathTo sfs root dir names) :
    ∀ {names'}, PathTo sfs root dir names' → names'.length = names.length := by
  induction h with
  | root _ =>
      intro names' h'
      cases h' with
      | root _ => rfl
      | sub _ _ hne _ _ => exact absurd rfl hne
  | @sub parent dir slot names name _ hdir hne _ _ ih =>
      intro names' h'
      cases h' with
      | root _ => exact absurd rfl hne
      | sub hparent' hdir' _ _ _ =>
          rw [hdir.unique hdir'] at hparent'
          rw [List.length_append, List.length_append, ih hparent']
          rfl

/-- A directory is not its own parent, and its first entry there has its name. -/
theorem PathTo.first_slot (hparent : PathTo sfs root parent names)
    (hdir : Directory sfs dir parent) (hne : dir ≠ root) (hentry : Names sfs parent dir slot name)
    (honly : ∀ slot' name', Names sfs parent dir slot' name' → slot' = slot) :
    dir ≠ parent ∧ ∀ j, j < slot → direntIno (slotBlock sfs parent j) ≠ dir := by
  have hpath : PathTo sfs root dir (names ++ [name]) := .sub hparent hdir hne hentry honly
  have hself : dir ≠ parent := by
    rintro rfl
    have hdepth := hpath.depth hparent
    rw [List.length_append, List.length_singleton] at hdepth
    omega
  refine ⟨hself, fun j hj hino => ?_⟩
  have hj' : j < (dinOf sfs parent).blocks := lt_trans hj hentry.slot_lt
  have hused : direntIno (slotBlock sfs parent j) ≠ 0 := by
    rw [hino]
    exact hentry.ino_ne
  obtain ⟨above, habove⟩ := hparent.directory
  have hdot : direntName (terminate (slotBlock sfs parent j)) ≠ dot := by
    intro hname
    have hhere := habove.dots j hj' hused hname
    exact hself (hino.symm.trans hhere)
  have hdotdot : direntName (terminate (slotBlock sfs parent j)) ≠ dotdot := by
    intro hname
    have hup := habove.ups j hj' hused hname
    rw [hino] at hup
    subst hup
    cases hparent with
    | root hroot => exact hne (hroot.unique habove)
    | sub hgrand hdir' _ _ _ =>
        rw [← hdir'.unique habove] at hgrand
        have hdepth := hpath.depth hgrand
        simp only [List.length_append, List.length_singleton] at hdepth
        omega
  have hlast := honly j _ ⟨hj', hino, hentry.ino_ne, rfl, hdot, hdotdot⟩
  omega

end Trees

section Keeping

variable {usage : Usage} {sfs sfs' : SfsFs} {dir parent : Nat}

theorem findSlot_congr {block block' : Nat → Bytes} {name : CString} {slots : List Nat}
    (h : ∀ i ∈ slots, block' i = block i) :
    findSlot block' name slots = findSlot block name slots := by
  induction slots with
  | nil => rfl
  | cons i slots ih =>
      have hhere : block' i = block i := h i List.mem_cons_self
      have hrest := ih fun j hj => h j (List.mem_cons_of_mem i hj)
      by_cases hfound : direntIno (block i) ≠ 0 ∧ name = direntName (terminate (block i))
      · have hfound' := hfound
        rw [← hhere] at hfound'
        rw [findSlot_cons_found hfound.1 hfound.2, findSlot_cons_found hfound'.1 hfound'.2, hhere]
      · have hfound' := hfound
        rw [← hhere] at hfound'
        rw [findSlot_cons_other hfound, findSlot_cons_other hfound', hrest]

theorem entryOf_kept (hkept : AllKept usage sfs sfs') (hwf : WellFormed sfs usage)
    (hdir : usage.inode dir) (name : CString) : entryOf sfs' dir name = entryOf sfs dir name := by
  rw [entryOf, entryOf, (hkept dir hdir).din]
  congr 1
  apply findSlot_congr
  intro i hi
  exact hkept.slotBlock hwf hdir (List.mem_range.mp hi)

theorem Directory.kept (h : Directory sfs dir parent) (hkept : AllKept usage sfs sfs')
    (hwf : WellFormed sfs usage) (hfile : usage.inode dir) : Directory sfs' dir parent := by
  have hdin := (hkept dir hfile).din
  have hslot : ∀ slot, slot < (dinOf sfs' dir).blocks →
      slot < (dinOf sfs dir).blocks ∧ slotBlock sfs' dir slot = slotBlock sfs dir slot := by
    intro slot hlt
    rw [hdin] at hlt
    exact ⟨hlt, hkept.slotBlock hwf hfile hlt⟩
  constructor
  · rw [hdin]
    exact h.type
  · rw [hdin]
    exact h.linked
  · rw [entryOf_kept hkept hwf hfile]
    exact h.up
  · intro slot hlt
    obtain ⟨hlt', hsame⟩ := hslot slot hlt
    rw [hsame]
    exact h.dots slot hlt'
  · intro slot hlt
    obtain ⟨hlt', hsame⟩ := hslot slot hlt
    rw [hsame]
    exact h.ups slot hlt'

end Keeping

section Finding

variable {usage : Usage} {sfs : SfsFs} {dir n slot ino : Nat} {block : Nat → Bytes}

/-- The first entry with the number is found. -/
theorem findinoFrom_found (h : Slots sfs dir n block) (hn : n ≤ maxBlocks) (hslot : slot < n)
    (hino : direntIno (block slot) = ino) {m : Nat} :
    ∀ {i : Nat} {entry : Bytes}, i + m = n → i ≤ slot →
      (∀ j, i ≤ j → j < slot → direntIno (block j) ≠ ino) →
        ∃ e, findinoFrom dir ino entry i m sfs = .ok (.ok e, sfs) ∧
          direntName e = direntName (terminate (block slot)) := by
  induction m with
  | zero =>
      intro i entry hend hle _
      omega
  | succ m ih =>
      intro i entry hend hle hfirst
      have hi : i < n := by omega
      obtain ⟨e, hread, heino, hename⟩ :=
        sfsDirentReadNolock_eq h hi (lt_of_lt_of_le hi hn) entry
      rw [findinoFrom, bind_of_ok hread, heino]
      rcases eq_or_ne i slot with rfl | hne
      · rw [if_pos hino]
        exact ⟨e, rfl, hename⟩
      · have hlt : i < slot := lt_of_le_of_ne hle hne
        rw [if_neg (hfirst i le_rfl hlt)]
        exact ih (by omega) hlt fun j hj => hfirst j (Nat.le_of_succ_le hj)

theorem sfsDirentFindinoNolock_found (hsettled : Settled usage sfs) (hin : dir ∈ sfs.inodeList)
    (htype : (dinOf sfs dir).type = SFS_TYPE_DIR) (hslot : slot < (dinOf sfs dir).blocks)
    (hino : direntIno (slotBlock sfs dir slot) = ino)
    (hfirst : ∀ j, j < slot → direntIno (slotBlock sfs dir j) ≠ ino) (entry : Bytes) :
    ∃ e, sfsDirentFindinoNolock dir ino entry sfs = .ok (.ok e, sfs) ∧
      direntName e = direntName (terminate (slotBlock sfs dir slot)) := by
  have hdin : dinOf sfs dir = (sfs.inode dir).din := dinOf_loaded hin
  have hslots := slots_of_settled hsettled hin (hdin ▸ htype)
  have hmax := hsettled.wf.blocks_max dir (hsettled.wf.loaded dir hin)
  rw [sfsDirentFindinoNolock, getState_bind, ← hdin]
  exact findinoFrom_found hslots hmax hslot hino (Nat.zero_add _) (Nat.zero_le _)
    fun j _ => hfirst j

end Finding

section LookingUp

variable {usage : Usage} {base : Nat → Nat} {s : VfsState} {dir parent : Nat} {memory : Memory}

theorem loadInodeIn_eq {given : Bool} (h : given = true ∨ parent ∈ s.sfs.inodeList) :
    loadInodeIn given parent s = loadInode parent s := by
  have hgiven : ¬(parent ∉ s.sfs.inodeList ∧ given = false) := by
    rintro ⟨hout, hfalse⟩
    rcases h with htrue | hin
    · rw [htrue] at hfalse
      cases hfalse
    · exact hout hin
  rw [loadInodeIn, getState_bind, if_neg hgiven]

theorem loadInodeIn_noMem {given : Bool} (h : ¬(given = true ∨ parent ∈ s.sfs.inodeList)) :
    loadInodeIn given parent s = .ok (.error .eNoMem, s) := by
  rw [not_or, Bool.not_eq_true] at h
  rw [loadInodeIn, getState_bind, if_pos ⟨h.2, h.1⟩]
  rfl

/-- The lookup of `..` before the inode is loaded. -/
theorem lookupOnceIn_dotdot (hsettled : Settled usage s.sfs) (hin : dir ∈ s.sfs.inodeList)
    (hdir : Directory s.sfs dir parent) (hentry : memory.entry ≠ none) :
    lookupOnceIn dir dotdot memory s = (do
      loadInodeIn memory.inode parent
      return parent : Routine VfsState Nat) s := by
  obtain ⟨entry, hsome⟩ := Option.ne_none_iff_exists'.mp hentry
  have hup := hdir.up
  unfold entryOf at hup
  obtain ⟨empty, hsearch⟩ := sfsDirentSearchNolock_eq hsettled hin hdir.type
    (by decide : dotdot.length ≤ SFS_MAX_FNAME_LEN) entry
  cases hfound : findSlot (slotBlock s.sfs dir) dotdot (List.range (dinOf s.sfs dir).blocks) with
  | error e =>
      rw [hfound] at hup
      cases hup
  | ok found =>
      rw [hfound] at hup hsearch
      obtain rfl : found.ino = parent := Except.ok.inj hup
      have hrun : onSfs (sfsDirentSearchNolock dir dotdot memory.entry) s =
          .ok (.ok (.ok found, empty), s) := by
        rw [hsome, onSfs, hsearch]
      rw [lookupOnceIn, bind_of_ok hrun]

theorem lookupOnceIn_of_none (hentry : memory.entry = none) :
    lookupOnceIn dir dotdot memory s = .ok (.error .eNoMem, s) := by
  have hrun : onSfs (sfsDirentSearchNolock dir dotdot memory.entry) s =
      .ok (.error .eNoMem, s) := by
    rw [hentry, onSfs, sfsDirentSearchNolock, ensure_bind_of (by decide)]
    rfl
  rw [lookupOnceIn, bind_of_error hrun]

/-- The lookup of `..` takes a reference to the parent when there is memory for it. -/
theorem lookupOnceIn_takes (h : Counted usage base s) (hin : dir ∈ s.sfs.inodeList)
    (hdir : Directory s.sfs dir parent) {above : Nat} (hparent : Directory s.sfs parent above)
    (hentry : memory.entry ≠ none) (hinode : memory.inode = true ∨ parent ∈ s.sfs.inodeList) :
    ∃ s', lookupOnceIn dir dotdot memory s = .ok (.ok parent, s') ∧
      refs s' = refs s + Pi.single parent 1 ∧ Counted usage base s' ∧
      Around usage parent s s' := by
  have hfile := hdir.inode h.settled (h.settled.wf.loaded dir hin)
  obtain ⟨s', hload, hrefs, hcounted, haround⟩ :=
    loadInode_takes h hfile (.inl hparent.type) hparent.linked
  refine ⟨s', ?_, hrefs, hcounted, haround⟩
  rw [lookupOnceIn_dotdot h.settled hin hdir hentry,
    bind_of_ok ((loadInodeIn_eq hinode).trans hload)]
  rfl

/-- The lookup of `..` leaves the state as it is without memory. -/
theorem lookupOnceIn_fails (hsettled : Settled usage s.sfs) (hin : dir ∈ s.sfs.inodeList)
    (hdir : Directory s.sfs dir parent)
    (hlacks : ¬(memory.entry ≠ none ∧ (memory.inode = true ∨ parent ∈ s.sfs.inodeList))) :
    lookupOnceIn dir dotdot memory s = .ok (.error .eNoMem, s) := by
  by_cases hentry : memory.entry = none
  · exact lookupOnceIn_of_none hentry
  · have hinode := fun hinode => hlacks ⟨hentry, hinode⟩
    rw [lookupOnceIn_dotdot hsettled hin hdir hentry, bind_of_error (loadInodeIn_noMem hinode)]

end LookingUp

end Ucore.SfsNamefile
