import Ucore.CStrings
import Ucore.SfsFileViews

/-! The directory slots of `kern/fs/sfs/sfs_inode.c`. -/

namespace Ucore.SfsDirent

open Ucore.Errors
open Ucore.KernelRoutine
open Ucore.ByteBuffer
open Ucore.CStrings
open Ucore.SfsDisk
open Ucore.SfsBlockMap
open Ucore.SfsOwnership
open Ucore.SfsFileViews

/-- `sizeof(struct sfs_disk_entry)`. -/
def direntSize : Nat := 4 + (SFS_MAX_FNAME_LEN + 1)

/-- The fields of a `struct sfs_disk_entry` at the start of a buffer. -/
def direntIno (entry : Bytes) : Nat :=
  getLE entry 0 4

def direntName (entry : Bytes) : CString :=
  readString entry 4 (SFS_MAX_FNAME_LEN + 1)

/-- `entry->name[SFS_MAX_FNAME_LEN] = '\0'`. -/
def terminate (entry : Bytes) : Bytes :=
  Function.update entry (4 + SFS_MAX_FNAME_LEN) 0

/-- Returns the buffer behind `entry`. -/
def sfsDirentReadNolock (sin slot : Nat) (entry : Bytes) : Routine SfsFs Bytes := do
  let sfs ← getState
  ensure ((sfs.inode sin).din.type = SFS_TYPE_DIR ∧ slot < (sfs.inode sin).din.blocks)
  let ino ← sfsBmapLoadNolock sin slot
  ensureInuse ino
  let entry ← sfsRbuf entry 0 direntSize ino 0
  return terminate entry

/-- What a search stores through `slot` and `ino_store`. -/
structure DirentAt where
  slot : Nat
  ino : Nat

/-- The loop of `sfs_dirent_search_nolock` from slot `i` on; returns the code of
the search and the value behind `empty_slot`. -/
def searchFrom (sin : Nat) (name : CString) (entry : Bytes) (emptySlot i : Nat) :
    Nat → Routine SfsFs (Except Errno DirentAt × Nat)
  | 0 => return (.error .eNoent, emptySlot)
  | n + 1 => do
      let entry ← sfsDirentReadNolock sin i entry
      if direntIno entry = 0 then
        searchFrom sin name entry i (i + 1) n
      else if name = direntName entry then
        return (.ok ⟨i, direntIno entry⟩, emptySlot)
      else
        searchFrom sin name entry emptySlot (i + 1) n

/-- `kmalloced` is what `kmalloc` returned, with what the memory held before. -/
def sfsDirentSearchNolock (sin : Nat) (name : CString) (kmalloced : Option Bytes) :
    Routine SfsFs (Except Errno DirentAt × Nat) := do
  ensure (name.length ≤ SFS_MAX_FNAME_LEN)
  match kmalloced with
  | none => fail .eNoMem
  | some entry =>
      let sfs ← getState
      let nslots := (sfs.inode sin).din.blocks
      searchFrom sin name entry nslots 0 nslots

/-- A directory in memory with `n` slots; `block` is what the slots hold that
the block map of the kernel reaches. -/
structure Slots (sfs : SfsFs) (dir n : Nat) (block : Nat → Bytes) : Prop where
  freemap : FreemapOk sfs
  type : (sfs.inode dir).din.type = SFS_TYPE_DIR
  blocks : (sfs.inode dir).din.blocks = n
  indirect : SFS_NDIRECT < n → InUse sfs (sfs.inode dir).din.indirect
  mapped : ∀ i, i < n → i < maxBlocks → blockAt sfs.dev.block (sfs.inode dir).din i ≠ 0 ∧
    InUse sfs (blockAt sfs.dev.block (sfs.inode dir).din i)
  holds : ∀ i, i < n → i < maxBlocks → ∀ k, k < SFS_BLKSIZE →
    sfs.dev.block (blockAt sfs.dev.block (sfs.inode dir).din i) k = block i k

section Reading

variable {sfs : SfsFs} {dir n : Nat} {block : Nat → Bytes}

theorem terminate_congr {b b' : Bytes} (h : ∀ k, k < direntSize → b k = b' k) :
    ∀ k, k < direntSize → terminate b k = terminate b' k := by
  intro k hk
  simp only [terminate, Function.update_apply]
  split
  · rfl
  · exact h k hk

theorem direntIno_congr {b b' : Bytes} (h : ∀ k, k < direntSize → b k = b' k) :
    direntIno b = direntIno b' := by
  apply getLE_congr
  intro k _ hk
  exact h k (lt_trans hk (by decide))

theorem direntName_congr {b b' : Bytes} (h : ∀ k, k < direntSize → b k = b' k) :
    direntName b = direntName b' := by
  apply readString_congr
  intro k _ hk
  exact h k hk

theorem direntIno_terminate (b : Bytes) : direntIno (terminate b) = direntIno b := by
  apply getLE_congr
  intro k _ hk
  have hne : k ≠ 4 + SFS_MAX_FNAME_LEN := by
    unfold SFS_MAX_FNAME_LEN
    omega
  exact Function.update_of_ne hne _ _

/-- A slot is read as the fields of the block it is in. -/
theorem sfsDirentReadNolock_eq (h : Slots sfs dir n block) {i : Nat} (hi : i < n)
    (hmax : i < maxBlocks) (entry : Bytes) :
    ∃ e, sfsDirentReadNolock dir i entry sfs = .ok (.ok e, sfs) ∧
      direntIno e = direntIno (block i) ∧ direntName e = direntName (terminate (block i)) := by
  obtain ⟨hne, huse⟩ := h.mapped i hi hmax
  have hindex : i < (sfs.inode dir).din.blocks := by
    rw [h.blocks]
    exact hi
  have hget := sfsBmapGetNolock_stored h.freemap false hmax
    (fun hfar => h.indirect (lt_of_le_of_lt hfar hi)) hne huse
  have hload := sfsBmapLoadNolock_stored h.freemap.blocks_le hindex hget hne huse
  have hread := sfsRbuf_eq h.freemap.steady entry 0 hne huse.1
    (by decide : 0 < SFS_BLKSIZE) (by decide : 0 + direntSize ≤ SFS_BLKSIZE)
  have hbytes : ∀ k, k < direntSize →
      copyBytes entry 0 (sfs.dev.block (blockAt sfs.dev.block (sfs.inode dir).din i)) 0
        direntSize k = block i k := by
    intro k hk
    rw [copyBytes_of_mem (Nat.zero_le k) (by omega)]
    have hzero : 0 + (k - 0) = k := by omega
    rw [hzero]
    exact h.holds i hi hmax k (lt_trans hk (by decide))
  refine ⟨_, ?_, ?_, direntName_congr (terminate_congr hbytes)⟩
  · rw [sfsDirentReadNolock, getState_bind, ensure_bind_of ⟨h.type, hindex⟩, bind_of_ok hload,
      bind_of_ok (ensureInuse_of_inUse h.freemap hne huse), bind_of_ok hread]
    rfl
  · rw [direntIno_terminate]
    exact direntIno_congr hbytes

/-- The block map of the kernel does not reach the slots from `maxBlocks` on. -/
theorem sfsDirentReadNolock_panic (h : Slots sfs dir n block) (hn : maxBlocks < n) (entry : Bytes) :
    sfsDirentReadNolock dir maxBlocks entry sfs = .error .panic := by
  have hindex : maxBlocks < (sfs.inode dir).din.blocks := by
    rw [h.blocks]
    exact hn
  have hget : ∀ create, sfsBmapGetNolock dir maxBlocks create sfs = .error .panic :=
    fun create => sfsBmapGetNolock_panic le_rfl create
  have hload : sfsBmapLoadNolock dir maxBlocks sfs = .error .panic := by
    rw [sfsBmapLoadNolock, getState_bind, ensure_bind_of (Nat.le_of_lt hindex)]
    exact bind_of_abort (hget _)
  rw [sfsDirentReadNolock, getState_bind, ensure_bind_of ⟨h.type, hindex⟩]
  exact bind_of_abort hload

end Reading

section Searching

variable {sfs : SfsFs} {dir n : Nat} {block : Nat → Bytes}

/-- A search stops at the first slot with the name. -/
theorem searchFrom_found (h : Slots sfs dir n block) (hn : n ≤ maxBlocks)
    (hino : ∀ i, i < n → direntIno (block i) ≠ 0) {name : CString} {slot : Nat} (hslot : slot < n)
    (hname : direntName (terminate (block slot)) = name) (emptySlot : Nat) {m : Nat} :
    ∀ {i : Nat} {entry : Bytes}, i + m = n → i ≤ slot →
      (∀ j, i ≤ j → j < slot → direntName (terminate (block j)) ≠ name) →
        searchFrom dir name entry emptySlot i m sfs =
          .ok (.ok (.ok ⟨slot, direntIno (block slot)⟩, emptySlot), sfs) := by
  induction m with
  | zero =>
      intro i entry hend hle _
      omega
  | succ m ih =>
      intro i entry hend hle hfirst
      have hi : i < n := by omega
      obtain ⟨e, hread, heino, hename⟩ :=
        sfsDirentReadNolock_eq h hi (lt_of_lt_of_le hi hn) entry
      rw [searchFrom, bind_of_ok hread, heino, if_neg (hino i hi), hename]
      rcases eq_or_ne i slot with rfl | hne
      · rw [if_pos hname.symm]
        rfl
      · have hlt : i < slot := lt_of_le_of_ne hle hne
        rw [if_neg (fun heq => hfirst i le_rfl hlt heq.symm)]
        exact ih (by omega) hlt fun j hj => hfirst j (Nat.le_of_succ_le hj)

/-- The first slot with the name. -/
structure FirstSlot (n : Nat) (block : Nat → Bytes) (name : CString) (found : DirentAt) : Prop where
  slot_lt : found.slot < n
  ino : direntIno (block found.slot) = found.ino
  ino_ne : found.ino ≠ 0
  matched : direntName (terminate (block found.slot)) = name
  first : ∀ j, j < found.slot → direntIno (block j) = 0 ∨ direntName (terminate (block j)) ≠ name

/-- A search that returns leaves the file system as it is. -/
theorem searchFrom_returns (h : Slots sfs dir n block) (hn : n ≤ maxBlocks) {name : CString}
    {m : Nat} : ∀ {i emptySlot : Nat} {entry : Bytes} {r : Except Errno (Except Errno DirentAt × Nat)}
      {sfs' : SfsFs}, i + m = n →
      (∀ j, j < i → direntIno (block j) = 0 ∨ direntName (terminate (block j)) ≠ name) →
      searchFrom dir name entry emptySlot i m sfs = .ok (r, sfs') →
        sfs' = sfs ∧ ∀ found empty, r = .ok (.ok found, empty) → FirstSlot n block name found := by
  induction m with
  | zero =>
      intro i emptySlot entry r sfs' _ _ heq
      cases heq
      refine ⟨rfl, ?_⟩
      intro found empty hr
      cases hr
  | succ m ih =>
      intro i emptySlot entry r sfs' hend hbefore heq
      have hi : i < n := by omega
      obtain ⟨e, hread, heino, hename⟩ :=
        sfsDirentReadNolock_eq h hi (lt_of_lt_of_le hi hn) entry
      have hnext : (direntIno (block i) = 0 ∨ direntName (terminate (block i)) ≠ name) →
          ∀ j, j < i + 1 → direntIno (block j) = 0 ∨ direntName (terminate (block j)) ≠ name := by
        intro hhere j hj
        rcases Nat.lt_succ_iff_lt_or_eq.mp hj with hlt | rfl
        · exact hbefore j hlt
        · exact hhere
      rw [searchFrom, bind_of_ok hread, heino, hename] at heq
      rcases eq_or_ne (direntIno (block i)) 0 with hzero | hino
      · rw [if_pos hzero] at heq
        exact ih (by omega) (hnext (Or.inl hzero)) heq
      · rw [if_neg hino] at heq
        rcases Decidable.em (name = direntName (terminate (block i))) with hname | hname
        · rw [if_pos hname] at heq
          cases heq
          refine ⟨rfl, ?_⟩
          intro found empty hr
          cases hr
          exact ⟨hi, rfl, hino, hname.symm, hbefore⟩
        · rw [if_neg hname] at heq
          exact ih (by omega) (hnext (Or.inr fun hsame => hname hsame.symm)) heq

end Searching

end Ucore.SfsDirent
