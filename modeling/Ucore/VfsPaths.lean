import Ucore.VfsReferences

/-! Opening a file for reading, from its path to its inode. -/

namespace Ucore.VfsPaths

open Ucore.KernelRoutine
open Ucore.Triples
open Ucore.ByteBuffer
open Ucore.CStrings
open Ucore.SfsDisk
open Ucore.SfsOwnership
open Ucore.SfsDirent
open Ucore.SfsSettled
open Ucore.VfsFiles
open Ucore.VfsReferences

/-- The first entry of the directory `dir` with the name is for `ino`. -/
def Named (sfs : SfsFs) (dir : Nat) (name : CString) (ino : Nat) : Prop :=
  ∃ found, found.ino = ino ∧ FirstSlot (dinOf sfs dir).blocks (slotBlock sfs dir) name found

/-- The directory that a lookup begins in. -/
def startDir (t : VfsState) : PathStart → Option Nat
  | .curdir => t.pwd
  | .bootfs => t.bootfs
  | .device => some SFS_BLKN_ROOT

/-- The path leads to the inode `ino`. -/
def Leads (sfs : SfsFs) (t : VfsState) (path : Path) (ino : Nat) : Prop :=
  ∃ dir, startDir t path.start = some dir ∧
    (path.subpath.chars = [] ∧ ino = dir ∨
      path.subpath.chars ≠ [] ∧ Named sfs dir path.subpath ino)

variable {usage : Usage} {sfs sfs₀ : SfsFs} {t : VfsState} {need : Nat → Int} {n : Nat}

theorem Named.of_kept {name : CString} {dir ino : Nat} (h : Named sfs dir name ino)
    (hwf₀ : WellFormed sfs₀ usage) (hkept : AllKept usage sfs₀ sfs) (hdir : usage.inode dir) :
    Named sfs₀ dir name ino := by
  obtain ⟨found, hino, hslot⟩ := h
  rw [(hkept dir hdir).din] at hslot
  have hblock : ∀ i, i < (dinOf sfs₀ dir).blocks → slotBlock sfs dir i = slotBlock sfs₀ dir i :=
    fun i hi => hkept.slotBlock hwf₀ hdir hi
  refine ⟨found, hino, hslot.slot_lt, ?_, hslot.ino_ne, ?_, ?_⟩
  · rw [← hblock _ hslot.slot_lt]
    exact hslot.ino
  · rw [← hblock _ hslot.slot_lt]
    exact hslot.matched
  · intro j hj
    rw [← hblock j (lt_trans hj hslot.slot_lt)]
    exact hslot.first j hj

section Lookup

end Lookup

section Opening

variable {openFlags : Nat}

/-- Opening with these flags does not ask for the file to be emptied, or the
file is refused or already empty. -/
def OpensQuietly (sfs : SfsFs) (t : VfsState) (path : Path) (openFlags : Nat) : Prop :=
  openFlags &&& O_CREAT ≠ 0 → openFlags &&& O_EXCL ≠ 0 ∨
    ∀ ino, Leads sfs t path ino → (dinOf sfs ino).size = 0

end Opening

end Ucore.VfsPaths
