import Ucore.SfsReachable

/-! Block transfers and the block map when the device may fail. -/

namespace Ucore.SfsFaults

open Ucore.Errors
open Ucore.KernelRoutine
open Ucore.ByteBuffer
open Ucore.BlockBitmap
open Ucore.Ownership
open Ucore.SfsDisk
open Ucore.SfsBlockMap
open Ucore.SfsOwnership
open Ucore.SfsFileViews
open Ucore.SfsBlockMapGrow

/-- The file system with a device that no longer fails. -/
def calm (sfs : SfsFs) : SfsFs :=
  { sfs with dev := { sfs.dev with faults := fun _ => none } }

/-- The file system after `k` more transfers. -/
def passed (sfs : SfsFs) (k : Nat) : SfsFs :=
  { sfs with dev := { sfs.dev with faults := fun n => sfs.dev.faults (n + k) } }

/-- None of the next `k` transfers fails. -/
def Quiet (sfs : SfsFs) (k : Nat) : Prop :=
  ∀ n, n < k → sfs.dev.faults n = none

variable {sfs sfs' : SfsFs} {usage : Usage} {ino blkno b : Nat}

@[simp] theorem calm_passed (sfs : SfsFs) (k : Nat) : calm (passed sfs k) = calm sfs := rfl

@[simp] theorem passed_zero (sfs : SfsFs) : passed sfs 0 = sfs := rfl

@[simp] theorem passed_passed (sfs : SfsFs) (k l : Nat) :
    passed (passed sfs k) l = passed sfs (k + l) := by
  have hfaults : (fun n => sfs.dev.faults (n + l + k)) = fun n => sfs.dev.faults (n + (k + l)) := by
    funext n
    congr 1
    omega
  show ({ sfs with dev := { sfs.dev with faults := fun n => sfs.dev.faults (n + l + k) } } : SfsFs) = _
  rw [hfaults]
  rfl

@[simp] theorem passed_faults (sfs : SfsFs) (k n : Nat) :
    (passed sfs k).dev.faults n = sfs.dev.faults (n + k) := rfl

@[simp] theorem passed_inode (sfs : SfsFs) (k : Nat) : (passed sfs k).inode = sfs.inode := rfl

@[simp] theorem setInode_passed (sfs : SfsFs) (k sin : Nat) (v : SfsInode) :
    (passed sfs k).setInode sin v = passed (sfs.setInode sin v) k := rfl

@[simp] theorem granted_passed (sfs : SfsFs) (k b : Nat) :
    granted (passed sfs k) b = passed (granted sfs b) k := rfl

@[simp] theorem allocated_passed (sfs : SfsFs) (k b : Nat) :
    allocated (passed sfs k) b = passed (allocated sfs b) k := rfl

@[simp] theorem freed_passed (sfs : SfsFs) (k b : Nat) :
    freed (passed sfs k) b = passed (freed sfs b) k := rfl

@[simp] theorem setBlock_passed (sfs : SfsFs) (k b : Nat) (data : Bytes) :
    (passed sfs k).setBlock b data = passed (sfs.setBlock b data) k := rfl

@[simp] theorem entered_passed (sfs : SfsFs) (k ent index b : Nat) :
    entered (passed sfs k) ent index b = passed (entered sfs ent index b) k := rfl

theorem Quiet.add {k l : Nat} (h : Quiet sfs k) (h' : Quiet (passed sfs k) l) :
    Quiet sfs (k + l) := by
  intro n hn
  rcases lt_or_ge n k with hlt | hge
  · exact h n hlt
  · have hlast := h' (n - k) (by omega)
    rw [passed_faults, Nat.sub_add_cancel hge] at hlast
    exact hlast

theorem Quiet.mono {k l : Nat} (h : Quiet sfs l) (hle : k ≤ l) : Quiet sfs k :=
  fun n hn => h n (lt_of_lt_of_le hn hle)

theorem Quiet.rest {k l : Nat} (h : Quiet sfs (k + l)) : Quiet (passed sfs k) l := by
  intro n hn
  rw [passed_faults]
  exact h (n + k) (by omega)

section Transfers

variable {buf : Bytes} {pos len offset : Nat}

/-- The blocks of the file system are on the device. -/
def Fitting (sfs : SfsFs) : Prop :=
  sfs.super.blocks ≤ sfs.dev.dBlocks

theorem sfsRwblockNolock_faults (h : Fitting sfs) {check : Bool} (buf : Bytes) (pos : Nat)
    (hcheck : blkno ≠ 0 ∨ check = false) (hlt : blkno < sfs.super.blocks) (write : Bool) :
    sfsRwblockNolock buf pos blkno write check sfs =
      match sfs.dev.faults 0 with
      | some e => .ok (.error e, passed sfs 1)
      | none =>
          if write then .ok (.ok buf, passed (sfs.setBlock blkno
            (copyBytes (sfs.dev.block blkno) 0 buf pos SFS_BLKSIZE)) 1)
          else .ok (.ok (copyBytes buf pos (sfs.dev.block blkno) 0 SFS_BLKSIZE), passed sfs 1) := by
  have hbound : blkno < sfs.dev.dBlocks := lt_of_lt_of_le hlt h
  have hwrap : blkno * SFS_BLKSIZE % 2 ^ 32 = blkno * SFS_BLKSIZE := by
    have := sfs.dev.dBlocks_le
    apply Nat.mod_eq_of_lt
    unfold SFS_BLKSIZE
    omega
  have hmod : ¬blkno * SFS_BLKSIZE % SFS_BLKSIZE ≠ 0 := by
    simp
  have hdiv : blkno * SFS_BLKSIZE / SFS_BLKSIZE = blkno :=
    Nat.mul_div_cancel blkno (by decide)
  have hin : ¬sfs.dev.dBlocks < blkno + 1 := by omega
  rw [sfsRwblockNolock, getState_bind, ensure_bind_of ⟨hcheck, hlt⟩]
  simp only [onDevice, dopIo, hwrap, if_neg hmod, hdiv, if_neg hin]
  cases sfs.dev.faults 0 with
  | some e => rfl
  | none =>
      cases write with
      | true => rfl
      | false => rfl

/-- A transfer that the device may break off: it is one of the next `k`, or all of
them are made. -/
def Tries {α : Type} (x : Routine SfsFs α) (sfs : SfsFs) (k : Nat) (a : α) (sfs' : SfsFs) : Prop :=
  (Quiet sfs k ∧ x sfs = .ok (.ok a, passed sfs' k)) ∨
    ∃ n e, n < k ∧ Quiet sfs n ∧ sfs.dev.faults n = some e ∧
      x sfs = .ok (.error e, passed sfs (n + 1))

theorem Tries.of_ok {α : Type} {x : Routine SfsFs α} {a : α} (h : x sfs = .ok (.ok a, sfs')) :
    Tries x sfs 0 a sfs' :=
  Or.inl ⟨fun n hn => absurd hn (Nat.not_lt_zero n), h⟩

/-- Code that goes on after `x` without a transfer. -/
theorem Tries.finish {α β : Type} {x : Routine SfsFs α} {y : Routine SfsFs β} {k : Nat} {a : α}
    {c : β} (hx : Tries x sfs k a sfs')
    (hok : x sfs = .ok (.ok a, passed sfs' k) → y sfs = .ok (.ok c, passed sfs' k))
    (herror : ∀ e t, x sfs = .ok (.error e, t) → y sfs = .ok (.error e, t)) :
    Tries y sfs k c sfs' := by
  rcases hx with ⟨hq, hrun⟩ | ⟨n, e, hn, hq, hfault, hrun⟩
  · exact Or.inl ⟨hq, hok hrun⟩
  · exact Or.inr ⟨n, e, hn, hq, hfault, herror e _ hrun⟩

theorem sfsRwblockNolock_tries (h : Fitting sfs) (buf : Bytes) (pos : Nat) (hne : blkno ≠ 0)
    (hlt : blkno < sfs.super.blocks) (write : Bool) :
    Tries (sfsRwblockNolock buf pos blkno write true) sfs 1
      (if write then buf else copyBytes buf pos (sfs.dev.block blkno) 0 SFS_BLKSIZE)
      (if write then sfs.setBlock blkno (copyBytes (sfs.dev.block blkno) 0 buf pos SFS_BLKSIZE)
        else sfs) := by
  rw [Tries, sfsRwblockNolock_faults h buf pos (Or.inl hne) hlt]
  cases hfault : sfs.dev.faults 0 with
  | some e =>
      refine Or.inr ⟨0, e, Nat.one_pos, ?_, hfault, rfl⟩
      intro n hn
      exact absurd hn (Nat.not_lt_zero n)
  | none =>
      left
      refine ⟨?_, ?_⟩
      · intro n hn
        rw [Nat.lt_one_iff.mp hn]
        exact hfault
      · cases write with
        | true => rfl
        | false => rfl

theorem sfsRbuf_tries (h : Fitting sfs) (buf : Bytes) (pos : Nat) (hne : blkno ≠ 0)
    (hlt : blkno < sfs.super.blocks) (hoff : offset < SFS_BLKSIZE)
    (hlen : offset + len ≤ SFS_BLKSIZE) :
    Tries (sfsRbuf buf pos len blkno offset) sfs 1
      (copyBytes buf pos (sfs.dev.block blkno) offset len) sfs := by
  have hstart : sfsRbuf buf pos len blkno offset sfs =
      (sfsRwblockNolock zeros 0 blkno false true >>= fun b =>
        pure (copyBytes buf pos b offset len)) sfs := by
    rw [sfsRbuf, ensure_bind_of ⟨hoff, hlen⟩]
  rw [Tries, hstart]
  rcases sfsRwblockNolock_tries h zeros 0 hne hlt false with ⟨hq, hrun⟩ | ⟨n, e, hn, hq, hf, hrun⟩
  · left
    refine ⟨hq, ?_⟩
    rw [bind_of_ok hrun, pure_apply, if_neg Bool.false_ne_true, copyBytes_through _ _ _ _ _ hlen,
      Nat.zero_add]
    rfl
  · exact Or.inr ⟨n, e, hn, hq, hf, bind_of_error hrun⟩

theorem copyBytes_back (buf b : Bytes) (pos : Nat) (h : offset + len ≤ SFS_BLKSIZE) :
    copyBytes b 0 (copyBytes (copyBytes zeros 0 b 0 SFS_BLKSIZE) offset buf pos len) 0 SFS_BLKSIZE =
      copyBytes b offset buf pos len := by
  funext k
  rcases lt_or_ge k SFS_BLKSIZE with hk | hk
  · rw [copyBytes_of_mem (by omega) (by omega)]
    have hzero : 0 + (k - 0) = k := by omega
    rw [hzero]
    rcases Decidable.em (offset ≤ k ∧ k < offset + len) with hin | hout
    · rw [copyBytes_of_mem hin.1 hin.2, copyBytes_of_mem hin.1 hin.2]
    · rw [copyBytes_of_not_mem hout, copyBytes_of_not_mem hout]
      rw [copyBytes_of_mem (by omega) (by omega), hzero]
  · rw [copyBytes_of_not_mem (by omega), copyBytes_of_not_mem (by omega)]

theorem sfsWbuf_tries (h : Fitting sfs) (buf : Bytes) (pos : Nat) (hne : blkno ≠ 0)
    (hlt : blkno < sfs.super.blocks) (hoff : offset < SFS_BLKSIZE)
    (hlen : offset + len ≤ SFS_BLKSIZE) :
    Tries (sfsWbuf buf pos len blkno offset) sfs 2 buf
      (sfs.setBlock blkno (copyBytes (sfs.dev.block blkno) offset buf pos len)) := by
  have hstart : sfsWbuf buf pos len blkno offset sfs =
      (sfsRwblockNolock zeros 0 blkno false true >>= fun b =>
        sfsRwblockNolock (copyBytes b offset buf pos len) 0 blkno true true >>= fun _ =>
          pure buf) sfs := by
    rw [sfsWbuf, ensure_bind_of ⟨hoff, hlen⟩]
  rw [Tries, hstart]
  rcases sfsRwblockNolock_tries h zeros 0 hne hlt false with ⟨hq, hrun⟩ | ⟨n, e, hn, hq, hf, hrun⟩
  · rw [bind_of_ok hrun, if_neg Bool.false_ne_true, if_neg Bool.false_ne_true]
    have hp : Fitting (passed sfs 1) := h
    rcases sfsRwblockNolock_tries hp
      (copyBytes (copyBytes zeros 0 (sfs.dev.block blkno) 0 SFS_BLKSIZE) offset buf pos len) 0
      hne hlt true with ⟨hq', hrun'⟩ | ⟨n, e, hn, hq', hf, hrun'⟩
    · left
      refine ⟨hq.add hq', ?_⟩
      rw [bind_of_ok hrun', pure_apply, if_pos rfl, setBlock_passed, passed_passed]
      have hbytes := copyBytes_back buf (sfs.dev.block blkno) pos hlen
      rw [← hbytes]
      rfl
    · right
      refine ⟨1 + n, e, by omega, hq.add hq', ?_, ?_⟩
      · rw [Nat.add_comm]
        exact hf
      · rw [bind_of_error hrun', passed_passed]
        rfl
  · exact Or.inr ⟨n, e, by omega, hq, hf, bind_of_error hrun⟩

end Transfers

section Allocation

/-- A block that can be allocated. -/
structure Fresh (sfs : SfsFs) (b : Nat) : Prop where
  free : sfs.freemap.bit b = true
  ne : b ≠ 0
  lt : b < sfs.super.blocks

theorem Fresh.ne_of_used {k : Nat} (h : Fresh sfs b) (hk : sfs.freemap.bit k = false) : k ≠ b := by
  rintro rfl
  rw [h.free] at hk
  cases hk

theorem not_quiet {n k : Nat} {e : Errno} (hn : n < k) (hfault : sfs.dev.faults n = some e) :
    ¬Quiet sfs k := by
  intro hq
  rw [hq n hn] at hfault
  cases hfault

theorem sfsClearBlock_tries (h : Fitting sfs) (hne : blkno ≠ 0) (hlt : blkno < sfs.super.blocks) :
    Tries (sfsClearBlock blkno 1) sfs 1 () (sfs.setBlock blkno (clearedBlock sfs blkno)) := by
  rw [Tries, sfsClearBlock]
  rcases sfsRwblockNolock_tries h zeros 0 hne hlt true with ⟨hq, hrun⟩ | ⟨n, e, hn, hq, hf, hrun⟩
  · left
    refine ⟨hq, ?_⟩
    rw [bind_of_ok hrun, if_pos rfl]
    rfl
  · exact Or.inr ⟨n, e, hn, hq, hf, bind_of_error hrun⟩

/-- A block whose clearing fails stays marked in use. -/
theorem sfsBlockAlloc_faults (h : FreemapOk (calm sfs)) :
    (freeCount sfs = 0 ∧ sfsBlockAlloc sfs = .ok (.error .eNoMem, sfs)) ∨
      ∃ b, Fresh sfs b ∧
        ((Quiet sfs 1 ∧ sfsBlockAlloc sfs = .ok (.ok b, passed (granted sfs b) 1)) ∨
          ∃ e, ¬Quiet sfs 1 ∧
            sfsBlockAlloc sfs = .ok (.error e, passed (allocated sfs b) 1)) := by
  rcases @sfsBlockAlloc_start sfs (calm sfs) h rfl rfl with ⟨hrun, hzero⟩ | ⟨b, hfree, hne, hlt, hrun⟩
  · exact Or.inl ⟨hzero, hrun⟩
  · right
    refine ⟨b, ⟨hfree, hne, hlt⟩, ?_⟩
    have hfit : Fitting (allocated sfs b) := h.steady.blocks_le
    rcases sfsClearBlock_tries hfit hne hlt with ⟨hq, hclear⟩ | ⟨n, e, hn, _, hf, hclear⟩
    · left
      refine ⟨hq, ?_⟩
      rw [hrun, bind_of_ok hclear]
      rfl
    · right
      refine ⟨e, not_quiet hn hf, ?_⟩
      rw [hrun, bind_of_error hclear, Nat.lt_one_iff.mp hn]

/-- The usage with the block `b` in use for no file. -/
def leaked (usage : Usage) (b : Nat) : Usage :=
  { usage with reserved := fun k => usage.reserved k ∨ k = b }

theorem wellFormed_allocated (h : WellFormed sfs usage) (hb : Fresh sfs b) :
    WellFormed (allocated sfs b) (leaked usage b) where
  freemap := freemapOk_allocated h.freemap (lt_of_lt_of_le hb.lt h.freemap.blocks_le) hb.free
  owns := by
    have hunused : ¬InUse sfs b := by
      rintro ⟨_, hused⟩
      rw [hb.free] at hused
      cases hused
    refine @Owns.take _ _ _ _ _ _ h.owns (.reserved b) b hunused ?_ ?_
    · intro o k
      cases o with
      | reserved n =>
          show (usage.reserved n ∨ n = b) ∧ k = n ↔ usage.reserved n ∧ k = n ∨ _
          rw [Owner.reserved.injEq]
          constructor
          · rintro ⟨hn | hn, rfl⟩
            · exact Or.inl ⟨hn, rfl⟩
            · exact Or.inr ⟨hn, hn⟩
          · rintro (⟨hn, rfl⟩ | ⟨rfl, rfl⟩)
            · exact ⟨Or.inl hn, rfl⟩
            · exact ⟨Or.inr rfl, rfl⟩
      | inode f =>
          simp only [reduceCtorEq, false_and, or_false]
          exact Iff.rfl
      | indirect f =>
          simp only [reduceCtorEq, false_and, or_false]
          exact Iff.rfl
      | data f i =>
          simp only [reduceCtorEq, false_and, or_false]
          exact Iff.rfl
    · intro k
      show k < sfs.super.blocks ∧ (sfs.freemap.setBit b false).bit k = false ↔ InUse sfs k ∨ k = b
      rw [bit_setBit]
      split
      · next heq => simp [heq, hb.lt]
      · next hne => simp [hne, InUse]
  super_reserved := Or.inl h.super_reserved
  blocks_max := h.blocks_max
  mapped := h.mapped
  loaded := h.loaded

theorem wellFormed_granted (h : WellFormed sfs usage) (hb : Fresh sfs b) :
    WellFormed (granted sfs b) (leaked usage b) := by
  have hplain := plain_of_free h hb.free
  exact wellFormed_setBlock (wellFormed_allocated h hb) ⟨hplain.inode, hplain.indirect⟩ _

/-- A block in use for no file can be given back. -/
theorem wellFormed_freed (h : WellFormed sfs usage) (hb : usage.reserved b) (hne : b ≠ 0) :
    WellFormed (freed sfs b) { usage with reserved := fun k => usage.reserved k ∧ k ≠ b } where
  freemap := by
    obtain ⟨hlt, hused⟩ := @Owns.used_of_holds _ _ _ _ h.owns (.reserved b) b ⟨hb, rfl⟩
    exact freemapOk_freed h.freemap hlt hne hused
  owns := by
    refine @Owns.release _ _ _ _ _ _ h.owns (.reserved b) b ⟨hb, rfl⟩ ?_ ?_ ?_
    · intro o k
      cases o with
      | reserved n =>
          show (usage.reserved n ∧ n ≠ b) ∧ k = n ↔ (usage.reserved n ∧ k = n) ∧ _
          rw [ne_eq, ne_eq, Owner.reserved.injEq]
          tauto
      | inode f =>
          simp only [ne_eq, reduceCtorEq, not_false_eq_true, and_true]
          exact Iff.rfl
      | indirect f =>
          simp only [ne_eq, reduceCtorEq, not_false_eq_true, and_true]
          exact Iff.rfl
      | data f i =>
          simp only [ne_eq, reduceCtorEq, not_false_eq_true, and_true]
          exact Iff.rfl
    · intro k
      show k < sfs.super.blocks ∧ (sfs.freemap.setBit b true).bit k = false ↔ InUse sfs k ∧ k ≠ b
      rw [bit_setBit]
      split
      · next heq => simp [heq]
      · next hdiff => simp [hdiff, InUse]
    · intro k hk
      exact hk.2
  super_reserved := ⟨h.super_reserved, hne.symm⟩
  blocks_max := h.blocks_max
  mapped := h.mapped
  loaded := h.loaded

end Allocation

end Ucore.SfsFaults
