import Ucore.SfsBlockMapFaults
import Ucore.SfsRuns

/-! What `sfs_bmap_get_nolock` leaves behind when it cannot make a block. -/

namespace Ucore.SfsAllocErrors

open Ucore.Errors
open Ucore.Panic
open Ucore.KernelRoutine
open Ucore.ByteBuffer
open Ucore.BlockBitmap
open Ucore.SfsDisk
open Ucore.SfsBlockMap
open Ucore.SfsOwnership
open Ucore.SfsFileViews
open Ucore.SfsBlockMapGrow
open Ucore.SfsRuns
open Ucore.SfsFaults
open Ucore.SfsBlockMapFaults

variable {sfs t : SfsFs} {usage : Usage} {ino index : Nat}

/-- As before, but for what the free blocks hold and for the transfers made since. -/
structure Reverted (sfs t : SfsFs) : Prop where
  super : t.super = sfs.super
  freemap : t.freemap = sfs.freemap
  inode : t.inode = sfs.inode
  loaded : t.inodeList = sfs.inodeList
  dBlocks : t.dev.dBlocks = sfs.dev.dBlocks
  block : ∀ k, sfs.freemap.bit k = false → t.dev.block k = sfs.dev.block k

theorem Reverted.refl (sfs : SfsFs) : Reverted sfs sfs :=
  ⟨rfl, rfl, rfl, rfl, rfl, fun _ _ => rfl⟩

theorem reverted_passed (sfs : SfsFs) (n : Nat) : Reverted sfs (passed sfs n) :=
  ⟨rfl, rfl, rfl, rfl, rfl, fun _ _ => rfl⟩

theorem Reverted.of_passed {n : Nat} (h : Reverted (passed sfs n) t) : Reverted sfs t :=
  ⟨h.super, h.freemap, h.inode, h.loaded, h.dBlocks, h.block⟩

theorem unused_pos (h : FreemapOk (calm sfs)) {b : Nat} (hb : Fresh sfs b) :
    0 < sfs.super.unusedBlocks := by
  have hcount : sfs.super.unusedBlocks = freeCount sfs := h.unused
  rw [hcount]
  exact Ownership.count_pos (lt_of_lt_of_le hb.lt h.blocks_le) hb.free

/-- A granted block is given back, and nothing else has happened to it. -/
theorem Reverted.freed {b n : Nat} (hok : FreemapOk (calm sfs)) (hb : Fresh sfs b)
    (h : Reverted (passed (granted sfs b) n) t) : Reverted sfs (freed t b) where
  super := by
    have hpos := unused_pos hok hb
    have hsuper : t.super = { sfs.super with unusedBlocks := sfs.super.unusedBlocks - 1 } :=
      h.super
    change { t.super with unusedBlocks := t.super.unusedBlocks + 1 } = sfs.super
    rw [hsuper]
    change { sfs.super with unusedBlocks := sfs.super.unusedBlocks - 1 + 1 } = sfs.super
    rw [Nat.sub_add_cancel hpos]
  freemap := by
    have hmap : t.freemap = sfs.freemap.setBit b false := h.freemap
    change t.freemap.setBit b true = sfs.freemap
    rw [hmap]
    exact setBit_back hb.free
  inode := h.inode
  loaded := h.loaded
  dBlocks := h.dBlocks
  block k hk := by
    have hne := hb.ne_of_used hk
    have hgranted : (passed (granted sfs b) n).freemap.bit k = false := by
      change (granted sfs b).freemap.bit k = false
      rw [granted_bit, if_neg hne]
      exact hk
    exact (h.block k hgranted).trans (granted_block_ne hne)

theorem Reverted.freeCount_eq (h : Reverted sfs t) : freeCount t = freeCount sfs := by
  rw [freeCount, freeCount, h.freemap]

theorem Reverted.kept (h : Reverted sfs t) (hwf : WellFormed (calm sfs) usage) {f : Nat}
    (hf : usage.inode f) : Kept sfs t f :=
  kept_of_inUse hwf h.inode h.loaded h.block hf

theorem Reverted.wellFormed (h : Reverted sfs t) (hwf : WellFormed (calm sfs) usage) :
    WellFormed (calm t) usage := by
  have hok := hwf.freemap
  have hunused : t.super.unusedBlocks = freeCount t := by
    rw [h.super, h.freeCount_eq]
    exact hok.unused
  have hok' : FreemapOk (calm t) := by
    constructor
    case steady =>
      have hfit : t.super.blocks ≤ t.dev.dBlocks := by
        rw [h.super, h.dBlocks]
        exact hok.steady.blocks_le
      exact ⟨fun _ => rfl, hfit⟩
    case nbits =>
      change t.freemap.nbits = t.freemap.nwords * WORD_BITS
      rw [h.freemap]
      exact hok.nbits
    case blocks_le =>
      change t.super.blocks ≤ t.freemap.nbits
      rw [h.super, h.freemap]
      exact hok.blocks_le
    case free_lt =>
      change ∀ b, b < t.freemap.nbits → t.freemap.bit b = true → b < t.super.blocks
      rw [h.super, h.freemap]
      exact hok.free_lt
    case super_used =>
      change t.freemap.bit SFS_BLKN_SUPER = false
      rw [h.freemap]
      exact hok.super_used
    case unused => exact hunused
  apply wellFormed_congr hwf hok'
  · exact congrArg SfsSuper.blocks h.super
  · intro f hf
    have hf' : f ∈ t.inodeList := hf
    rw [h.loaded] at hf'
    exact hwf.loaded f hf'
  · intro k
    exact congrArg (fun m => Bitmap.bit m k) h.freemap
  · intro f hf
    have hkept := h.kept hwf hf
    exact ⟨hkept.sameMap.blocks, hkept.sameMap.indirect, hkept.block⟩

/-- A block that was free is in use. -/
def Lost (sfs t : SfsFs) : Prop :=
  ∃ b, sfs.freemap.bit b = true ∧ t.freemap.bit b = false

theorem Lost.not_reverted (h : Lost sfs t) : ¬Reverted sfs t := by
  intro hreverted
  obtain ⟨b, hfree, hused⟩ := h
  rw [hreverted.freemap, hfree] at hused
  cases hused

theorem lost_allocated {b : Nat} (hb : Fresh sfs b) (n : Nat) :
    Lost sfs (passed (allocated sfs b) n) := by
  refine ⟨b, hb.free, ?_⟩
  change (sfs.freemap.setBit b false).bit b = false
  rw [bit_setBit, if_pos rfl]

theorem Lost.freed {b n : Nat} (h : Lost (passed (granted sfs b) n) t) :
    Lost sfs (freed t b) := by
  obtain ⟨k, hfree, hused⟩ := h
  have hgranted := hfree
  change (granted sfs b).freemap.bit k = true at hgranted
  rw [granted_bit] at hgranted
  split at hgranted
  · cases hgranted
  · next hne =>
      refine ⟨k, hgranted, ?_⟩
      change (t.freemap.setBit b true).bit k = false
      rw [bit_setBit, if_neg hne]
      exact hused

/-- `x` ends in an error with everything as before, or in one that has cost a block; the
second only if `bad` holds, and always then. -/
def RevertsUnless {α : Type} (bad : Prop) (x : Routine SfsFs α) (sfs : SfsFs) : Prop :=
  (¬bad ∧ ∀ e t, x sfs = .ok (.error e, t) → Reverted sfs t) ∨
    bad ∧ ∃ e t, x sfs = .ok (.error e, t) ∧ Lost sfs t

theorem RevertsUnless.of_error {α : Type} {bad : Prop} {x : Routine SfsFs α} {e : Errno}
    (hbad : ¬bad) (hrun : x sfs = .ok (.error e, t)) (h : Reverted sfs t) :
    RevertsUnless bad x sfs := by
  refine Or.inl ⟨hbad, fun e' t' heq => ?_⟩
  rw [hrun] at heq
  cases heq
  exact h

theorem RevertsUnless.of_ok {α : Type} {bad : Prop} {x : Routine SfsFs α} {a : α}
    (hbad : ¬bad) (hrun : x sfs = .ok (.ok a, t)) : RevertsUnless bad x sfs := by
  refine Or.inl ⟨hbad, fun e' t' heq => ?_⟩
  rw [hrun] at heq
  cases heq

theorem RevertsUnless.iff {α : Type} {bad : Prop} {x : Routine SfsFs α}
    (h : RevertsUnless bad x sfs) :
    (∀ e t, x sfs = .ok (.error e, t) → Reverted sfs t) ↔ ¬bad := by
  constructor
  · intro hall hbad
    rcases h with ⟨hgood, _⟩ | ⟨_, e, t, hrun, hlost⟩
    · exact hgood hbad
    · exact hlost.not_reverted (hall e t hrun)
  · intro hgood
    rcases h with ⟨_, hall⟩ | ⟨hbad, _⟩
    · exact hall
    · exact absurd hbad hgood

/-- Code that goes on after `x` and returns. -/
theorem RevertsUnless.bind {α β : Type} {bad : Prop} {x : Routine SfsFs α}
    {f : α → Routine SfsFs β} (h : RevertsUnless bad x sfs)
    (hf : ∀ a s e t, f a s = .ok (.error e, t) → False) :
    RevertsUnless bad (x >>= f) sfs := by
  rcases h with ⟨hgood, hall⟩ | ⟨hbad, e, t, hrun, hlost⟩
  · refine Or.inl ⟨hgood, fun e t heq => ?_⟩
    rcases bind_eq_ok_iff.mp heq with ⟨a, s, _, hrest⟩ | ⟨e', hrun, hr⟩
    · exact absurd hrest (fun hrest => hf a s e t hrest)
    · cases hr
      exact hall _ _ hrun
  · exact Or.inr ⟨hbad, e, t, bind_of_error hrun, hlost⟩

theorem quiet_add_iff {k l : Nat} : Quiet sfs (k + l) ↔ Quiet sfs k ∧ Quiet (passed sfs k) l :=
  ⟨fun h => ⟨h.mono (Nat.le_add_right k l), h.rest⟩, fun h => h.1.add h.2⟩

theorem freeCount_pos (h : FreemapOk (calm sfs)) {b : Nat} (hb : Fresh sfs b) :
    0 < freeCount sfs :=
  Ownership.count_pos (lt_of_lt_of_le hb.lt h.blocks_le) hb.free

/-- The clean-up that is still to come after a failed `addSubBlock` finds the blocks in use
that were in use before. -/
structure InUseKept (sfs t : SfsFs) : Prop where
  super : t.super.blocks = sfs.super.blocks
  nbits : t.freemap.nbits = sfs.freemap.nbits
  bit : ∀ k, sfs.freemap.bit k = false → t.freemap.bit k = false

theorem Reverted.inUseKept (h : Reverted sfs t) : InUseKept sfs t where
  super := congrArg SfsSuper.blocks h.super
  nbits := congrArg Bitmap.nbits h.freemap
  bit k hk := by
    rw [h.freemap]
    exact hk

theorem inUseKept_allocated (sfs : SfsFs) (b n : Nat) :
    InUseKept sfs (passed (allocated sfs b) n) where
  super := rfl
  nbits := rfl
  bit k hk := by
    change (sfs.freemap.setBit b false).bit k = false
    rw [bit_setBit]
    split
    · rfl
    · exact hk

/-- A new entry of an indirect block is made, or what is left to the clean-up is as before
unless the new block could not be cleared. -/
theorem addSubBlock_reverts (h : FreemapOk (calm sfs)) {ent : Nat} (entp : Nat)
    (hne : ent ≠ 0) (hlt : ent < sfs.super.blocks) (hindex : index < SFS_BLK_NENTRY) :
    (∃ b t, Quiet sfs 1 ∧ addSubBlock entp ent (index * 4) sfs = .ok (.ok (ent, b), t)) ∨
      ∃ e t, addSubBlock entp ent (index * 4) sfs = freeNewEntry entp ent e t ∧ InUseKept sfs t ∧
        (¬(0 < freeCount sfs ∧ ¬Quiet sfs 1) ∧ Reverted sfs t ∨
          (0 < freeCount sfs ∧ ¬Quiet sfs 1) ∧ Lost sfs t) := by
  rcases addSubBlock_cases h entp hne hlt hindex with
    ⟨hzero, hrun⟩ | ⟨b, hb, ⟨hq, hrun⟩ | ⟨e, hq, hrun⟩ | ⟨e, n, hq, _, hrun⟩⟩
  · have hgood : ¬(0 < freeCount sfs ∧ ¬Quiet sfs 1) := by omega
    have hsame := Reverted.refl sfs
    exact Or.inr ⟨_, sfs, hrun, hsame.inUseKept, Or.inl ⟨hgood, hsame⟩⟩
  · exact Or.inl ⟨b, _, hq.mono (by decide), hrun⟩
  · have hbad : 0 < freeCount sfs ∧ ¬Quiet sfs 1 := ⟨freeCount_pos h hb, hq⟩
    exact Or.inr ⟨e, _, hrun, inUseKept_allocated sfs b 1, Or.inr ⟨hbad, lost_allocated hb 1⟩⟩
  · have hback : Reverted sfs (passed (freed (granted sfs b) b) n) :=
      (Reverted.refl (passed (granted sfs b) n)).freed h hb
    exact Or.inr ⟨e, _, hrun, hback.inUseKept, Or.inl ⟨fun hbad => hbad.2 hq, hback⟩⟩

theorem freeNewEntry_old (ent : Nat) (e : Errno) :
    freeNewEntry ent ent e sfs = .ok (.error e, sfs) := by
  rw [freeNewEntry, if_neg (not_not.mpr rfl), fail_apply]

theorem freeNewEntry_new {ent : Nat} (hne : ent ≠ 0) (hlt : ent < sfs.super.blocks)
    (hbits : sfs.super.blocks ≤ sfs.freemap.nbits) (hbit : sfs.freemap.bit ent = false)
    (e : Errno) : freeNewEntry 0 ent e sfs = .ok (.error e, freed sfs ent) := by
  rw [freeNewEntry, if_pos hne, bind_of_ok (sfsBlockFree_apply hne hlt hbits hbit), fail_apply]

/-- `sfs_clear_block` is reached for a block that the file is to get, and fails. The first
transfer is the clearing of the only block or of the indirect block, or the look into the
indirect block; the second is the clearing of the block behind it. -/
def ClearFails (sfs : SfsFs) (ino index : Nat) : Prop :=
  index < maxBlocks ∧ fileBlock sfs ino index = 0 ∧ 0 < freeCount sfs ∧
    if index < SFS_NDIRECT then ¬Quiet sfs 1
    else if (dinOf sfs ino).indirect = 0 then ¬Quiet sfs 1 ∨ 1 < freeCount sfs ∧ ¬Quiet sfs 2
    else Quiet sfs 1 ∧ ¬Quiet sfs 2

theorem clearFails_near (hnear : index < SFS_NDIRECT) : ClearFails sfs ino index ↔
    fileBlock sfs ino index = 0 ∧ 0 < freeCount sfs ∧ ¬Quiet sfs 1 := by
  have hmax : index < maxBlocks := by
    unfold maxBlocks
    omega
  simp only [ClearFails, hmax, true_and, if_pos hnear]

theorem clearFails_attach (hfar : SFS_NDIRECT ≤ index) (hmax : index < maxBlocks)
    (hnone : (dinOf sfs ino).indirect = 0) : ClearFails sfs ino index ↔
      0 < freeCount sfs ∧ (¬Quiet sfs 1 ∨ 1 < freeCount sfs ∧ ¬Quiet sfs 2) := by
  have hblock : fileBlock sfs ino index = 0 := by
    rw [fileBlock, blockAt_far hfar, if_pos hnone]
  simp only [ClearFails, hmax, true_and, if_neg (not_lt.mpr hfar), if_pos hnone, hblock]

theorem clearFails_indirect (hfar : SFS_NDIRECT ≤ index) (hmax : index < maxBlocks)
    (hsome : (dinOf sfs ino).indirect ≠ 0) : ClearFails sfs ino index ↔
      fileBlock sfs ino index = 0 ∧ 0 < freeCount sfs ∧ Quiet sfs 1 ∧ ¬Quiet sfs 2 := by
  simp only [ClearFails, hmax, true_and, if_neg (not_lt.mpr hfar), if_neg hsome]

section Lookups

variable (h : WellFormed (calm sfs) usage) (hin : ino ∈ sfs.inodeList)
include h hin

theorem bmapGet_reverts_near (hnear : index < SFS_NDIRECT) :
    RevertsUnless (ClearFails sfs ino index) (bmapGet ino index true) sfs := by
  have hdin := @dinOf_loaded sfs ino hin
  have hblock : fileBlock sfs ino index = (sfs.inode ino).din.direct index := by
    rw [fileBlock, blockAt_near hnear, hdin]
  have hiff := @clearFails_near sfs ino index hnear
  rw [hblock] at hiff
  by_cases hzero : (sfs.inode ino).din.direct index = 0
  · have hrun : bmapGet ino index true sfs =
        (do
          let b ← sfsBlockAlloc
          modifyInode ino fun si => { si with
            din := { si.din with direct := Function.update si.din.direct index b }
            dirty := true }
          return b : Routine SfsFs Nat) sfs := by
      rw [bmapGet, if_pos hnear, bmapGetDirect, getState_bind, if_pos ⟨hzero, rfl⟩]
    rcases sfsBlockAlloc_faults h.freemap with
      ⟨hnone, halloc⟩ | ⟨b, hb, ⟨hq, halloc⟩ | ⟨e, hq, halloc⟩⟩
    · apply RevertsUnless.of_error ?_ (hrun.trans (bind_of_error halloc)) (Reverted.refl sfs)
      rw [hiff]
      omega
    · apply RevertsUnless.of_ok ?_ (hrun.trans (bind_of_ok halloc))
      rw [hiff]
      exact fun hbad => hbad.2.2 hq
    · have hbad := hiff.mpr ⟨hzero, freeCount_pos h.freemap hb, hq⟩
      exact Or.inr ⟨hbad, e, _, hrun.trans (bind_of_error halloc), lost_allocated hb 1⟩
  · apply RevertsUnless.of_ok fun hbad => hzero (hiff.mp hbad).1
    rw [bmapGet, if_pos hnear, bmapGetDirect, getState_bind, if_neg fun hboth => hzero hboth.1]
    rfl

theorem getSub_reverts_indirect (hfar : SFS_NDIRECT ≤ index) (hmax : index < maxBlocks)
    (hsome : (dinOf sfs ino).indirect ≠ 0) : RevertsUnless (ClearFails sfs ino index)
      (sfsBmapGetSubNolock (dinOf sfs ino).indirect (index - SFS_NDIRECT) true) sfs := by
  have huse : InUse sfs (dinOf sfs ino).indirect :=
    @inUse_indirect (calm sfs) usage h ino (h.loaded ino hin) hsome
  have hsub := sub_lt_nentry hmax hfar
  obtain ⟨hstart, hstop⟩ := word_in_block hsub
  have hword : getWord (sfs.dev.block (dinOf sfs ino).indirect) (index - SFS_NDIRECT) =
      fileBlock sfs ino index := by
    rw [fileBlock, blockAt_far hfar, if_neg hsome]
  have hiff := @clearFails_indirect sfs ino index hfar hmax hsome
  have hfit : Fitting sfs := h.freemap.steady.blocks_le
  rcases sfsRbuf_tries hfit zeros 0 hsome huse.1 hstart hstop with
    ⟨hq, hread⟩ | ⟨n, e, hn, _, hfault, hread⟩
  · by_cases hzero : fileBlock sfs ino index = 0
    · have hadd : sfsBmapGetSubNolock (dinOf sfs ino).indirect (index - SFS_NDIRECT) true sfs =
          addSubBlock (dinOf sfs ino).indirect (dinOf sfs ino).indirect
            ((index - SFS_NDIRECT) * 4) (passed sfs 1) := by
        rw [sfsBmapGetSubNolock, ensure_bind_of hsub, if_pos hsome, bind_of_ok hread,
          getLE_copyBytes_word, hword, if_neg (by simp [hzero])]
      have hok : FreemapOk (calm (passed sfs 1)) := h.freemap
      have hquiet : Quiet sfs 2 ↔ Quiet sfs 1 ∧ Quiet (passed sfs 1) 1 :=
        @quiet_add_iff sfs 1 1
      rcases addSubBlock_reverts hok (dinOf sfs ino).indirect hsome huse.1 hsub with
        ⟨b, t, hq', hrun⟩ | ⟨e, t, hrun, _, ⟨hgood, hback⟩ | ⟨hbad, hlost⟩⟩
      · apply RevertsUnless.of_ok ?_ (hadd.trans hrun)
        rw [hiff, hquiet]
        exact fun hbad => hbad.2.2.2 ⟨hq, hq'⟩
      · rw [freeNewEntry_old] at hrun
        apply RevertsUnless.of_error ?_ (hadd.trans hrun) hback.of_passed
        rw [hiff, hquiet]
        exact fun hbad => hgood ⟨hbad.2.1, fun hq' => hbad.2.2.2 ⟨hq, hq'⟩⟩
      · rw [freeNewEntry_old] at hrun
        refine Or.inr ⟨hiff.mpr ⟨hzero, hbad.1, hq, ?_⟩, e, t, hadd.trans hrun, hlost⟩
        rw [hquiet]
        exact fun hboth => hbad.2 hboth.2
    · apply RevertsUnless.of_ok fun hbad => hzero (hiff.mp hbad).1
      rw [sfsBmapGetSubNolock, ensure_bind_of hsub, if_pos hsome, bind_of_ok hread,
        getLE_copyBytes_word, hword, if_pos (Or.inl hzero)]
      rfl
  · have hrun : sfsBmapGetSubNolock (dinOf sfs ino).indirect (index - SFS_NDIRECT) true sfs =
        .ok (.error e, passed sfs (n + 1)) := by
      rw [sfsBmapGetSubNolock, ensure_bind_of hsub, if_pos hsome, bind_of_error hread]
    apply RevertsUnless.of_error ?_ hrun (reverted_passed sfs (n + 1))
    rw [hiff]
    exact fun hbad => not_quiet hn hfault hbad.2.2.1

omit hin in
theorem getSub_reverts_attach (hfar : SFS_NDIRECT ≤ index) (hmax : index < maxBlocks)
    (hnone : (dinOf sfs ino).indirect = 0) : RevertsUnless (ClearFails sfs ino index)
      (sfsBmapGetSubNolock (dinOf sfs ino).indirect (index - SFS_NDIRECT) true) sfs := by
  have hsub := sub_lt_nentry hmax hfar
  have hiff := @clearFails_attach sfs ino index hfar hmax hnone
  have hadd : sfsBmapGetSubNolock (dinOf sfs ino).indirect (index - SFS_NDIRECT) true sfs =
      (sfsBlockAlloc >>= fun ent => addSubBlock 0 ent ((index - SFS_NDIRECT) * 4)) sfs := by
    rw [sfsBmapGetSubNolock, ensure_bind_of hsub, hnone]
    rfl
  rcases sfsBlockAlloc_faults h.freemap with
    ⟨hzero, halloc⟩ | ⟨ent, hent, ⟨hq, halloc⟩ | ⟨e, hq, halloc⟩⟩
  · apply RevertsUnless.of_error ?_ (hadd.trans (bind_of_error halloc)) (Reverted.refl sfs)
    rw [hiff]
    omega
  · rw [bind_of_ok halloc] at hadd
    have hcount : freeCount (granted sfs ent) + 1 = freeCount sfs :=
      freeCount_allocated (lt_of_lt_of_le hent.lt h.freemap.blocks_le) hent.free
    have hok : FreemapOk (calm (passed (granted sfs ent) 1)) :=
      @freemapOk_granted (calm sfs) h.freemap ent hent.lt hent.free
    have hquiet : Quiet sfs 2 ↔ Quiet sfs 1 ∧ Quiet (passed (granted sfs ent) 1) 1 :=
      @quiet_add_iff sfs 1 1
    have hsame : freeCount (passed (granted sfs ent) 1) = freeCount (granted sfs ent) := rfl
    have huse : (passed (granted sfs ent) 1).freemap.bit ent = false :=
      (@inUse_granted sfs ent hent.lt).2
    rcases addSubBlock_reverts hok 0 hent.ne hent.lt hsub with
      ⟨b, t, hq', hrun⟩ | ⟨e, t, hrun, hkept, hcases⟩
    · apply RevertsUnless.of_ok ?_ (hadd.trans hrun)
      rw [hiff, hquiet]
      tauto
    · have hfreed := @freeNewEntry_new t ent hent.ne (lt_of_lt_of_eq hent.lt hkept.super.symm)
        (by rw [hkept.super, hkept.nbits]; exact h.freemap.blocks_le) (hkept.bit ent huse) e
      rw [hfreed] at hrun
      rcases hcases with ⟨hgood, hback⟩ | ⟨hbad, hlost⟩
      · apply RevertsUnless.of_error ?_ (hadd.trans hrun) (hback.freed h.freemap hent)
        rw [hsame] at hgood
        rw [hiff, hquiet]
        have hmore : 1 < freeCount sfs → 0 < freeCount (granted sfs ent) := by omega
        tauto
      · have hmore : 1 < freeCount sfs := by
          have hpos := hbad.1
          rw [hsame] at hpos
          omega
        refine Or.inr ⟨hiff.mpr ⟨by omega, Or.inr ⟨hmore, ?_⟩⟩, e, _, hadd.trans hrun, hlost.freed⟩
        rw [hquiet]
        exact fun hboth => hbad.2 hboth.2
  · have hbad := hiff.mpr ⟨freeCount_pos h.freemap hent, Or.inl hq⟩
    exact Or.inr ⟨hbad, e, _, hadd.trans (bind_of_error halloc), lost_allocated hent 1⟩

end Lookups

section Get

theorem ensureInuse_ne_error {b : Nat} {s t : SfsFs} {e : Errno} :
    ensureInuse b s ≠ .ok (.error e, t) := by
  intro heq
  rw [ensureInuse, sfsBlockInuse] at heq
  rcases bind_eq_ok_iff.mp heq with ⟨inuse, s₁, _, hrest⟩ | ⟨e', hrun, _⟩
  · rw [KernelRoutine.ensure] at hrest
    split at hrest
    · cases hrest
    · cases hrest
  · rw [getState_bind] at hrun
    split at hrun
    · cases htest : bitmapTest s.freemap b with
      | error a => rw [htest] at hrun; cases hrun
      | ok free => rw [htest] at hrun; cases hrun
    · cases hrun

theorem bmapGet_reverts (h : WellFormed (calm sfs) usage) (hin : ino ∈ sfs.inodeList)
    (index : Nat) : RevertsUnless (ClearFails sfs ino index) (bmapGet ino index true) sfs := by
  have hdin := @dinOf_loaded sfs ino hin
  rcases lt_or_ge index SFS_NDIRECT with hnear | hfar
  · exact bmapGet_reverts_near h hin hnear
  rcases lt_or_ge index maxBlocks with hmax | hpast
  · have hsub : RevertsUnless (ClearFails sfs ino index)
        (sfsBmapGetSubNolock (dinOf sfs ino).indirect (index - SFS_NDIRECT) true) sfs := by
      rcases eq_or_ne (dinOf sfs ino).indirect 0 with hnone | hsome
      · exact getSub_reverts_attach h hfar hmax hnone
      · exact getSub_reverts_indirect h hin hfar hmax hsome
    rw [hdin] at hsub
    rw [bmapGet_far hfar hmax, bmapGetIndirect]
    apply hsub.bind
    intro p s e t heq
    dsimp only at heq
    split at heq
    · rcases bind_eq_ok_iff.mp heq with ⟨_, s₁, _, hrest⟩ | ⟨e', hrun, _⟩
      · cases hrest
      · rw [KernelRoutine.ensure] at hrun
        split at hrun
        · cases hrun
        · cases hrun
    · cases heq
  · refine Or.inl ⟨fun hbad => absurd hbad.1 (not_lt.mpr hpast), fun e t heq => ?_⟩
    have hsub : ¬index - SFS_NDIRECT < SFS_BLK_NENTRY := by
      unfold maxBlocks at hpast
      omega
    rw [bmapGet, if_neg (not_lt.mpr hfar), if_neg hsub] at heq
    cases heq

theorem sfsBmapGetNolock_reverts (h : WellFormed (calm sfs) usage) (hin : ino ∈ sfs.inodeList)
    (index : Nat) :
    RevertsUnless (ClearFails sfs ino index) (sfsBmapGetNolock ino index true) sfs := by
  rw [sfsBmapGetNolock]
  apply (bmapGet_reverts h hin index).bind
  intro b s e t heq
  split at heq
  · cases heq
  · rcases bind_eq_ok_iff.mp heq with ⟨_, s₁, _, hrest⟩ | ⟨e', hrun, _⟩
    · cases hrest
    · exact ensureInuse_ne_error hrun

/-- A block map that cannot make a block leaves everything as before, and every block in use
accounted for, unless it was the clearing of a new block that failed. -/
theorem sfsBmapGetNolock_reverts_iff (h : WellFormed (calm sfs) usage)
    (hin : ino ∈ sfs.inodeList) (index : Nat) :
    (∀ e t, sfsBmapGetNolock ino index true sfs = .ok (.error e, t) →
      Reverted sfs t ∧ BlocksAccounted (calm t) usage) ↔ ¬ClearFails sfs ino index := by
  rw [← (sfsBmapGetNolock_reverts h hin index).iff]
  constructor
  · intro hall e t hrun
    exact (hall e t hrun).1
  · intro hall e t hrun
    have hback := hall e t hrun
    exact ⟨hback, blocksAccounted (hback.wellFormed h)⟩

theorem not_clearFails_of_steady (h : Steady sfs) : ¬ClearFails sfs ino index := by
  have hquiet : ∀ k, Quiet sfs k := fun k n _ => h.faults n
  rintro ⟨_, _, _, hfails⟩
  split at hfails
  · exact hfails (hquiet 1)
  split at hfails
  · rcases hfails with hfirst | ⟨_, hsecond⟩
    · exact hfirst (hquiet 1)
    · exact hsecond (hquiet 2)
  · exact hfails.2 (hquiet 2)

/-- A file that cannot get a block at its end, on a device that makes its transfers. -/
theorem sfsBmapLoadNolock_reverts (h : WellFormed (calm sfs) usage) (hs : Steady sfs)
    (hin : ino ∈ sfs.inodeList) {e : Errno}
    (heq : sfsBmapLoadNolock ino (dinOf sfs ino).blocks sfs = .ok (.error e, t)) :
    Reverted sfs t := by
  have hall := (sfsBmapGetNolock_reverts h hin (dinOf sfs ino).blocks).iff.mpr
    (not_clearFails_of_steady hs)
  rw [dinOf_loaded hin] at heq hall
  rw [sfsBmapLoadNolock, getState_bind, ensure_bind_of le_rfl, decide_eq_true rfl] at heq
  rcases bind_eq_ok_iff.mp heq with ⟨b, s, _, hrest⟩ | ⟨e', hrun, hr⟩
  · rcases bind_eq_ok_iff.mp hrest with ⟨_, s₁, _, hlast⟩ | ⟨e', hrun, _⟩
    · rw [if_pos rfl] at hlast
      cases hlast
    · exact absurd hrun ensureInuse_ne_error
  · cases hr
    exact hall _ _ hrun

end Get

section BadDisk

/-- The file system of `smallFs` on a disk whose first transfer fails. -/
def failingFs : SfsFs :=
  { smallFs with dev := { smallFs.dev with faults := fun n => if n = 0 then some .eInval else none } }

/-- No transfer fails before the first block of the small file is found. -/
theorem sfsBmapGetNolock_reverts_iff_failingFs :
    (∀ e t, sfsBmapGetNolock 3 0 true failingFs = .ok (.error e, t) →
      Reverted failingFs t ∧ BlocksAccounted (calm t) smallUsage) ↔ ¬ClearFails failingFs 3 0 :=
  @sfsBmapGetNolock_reverts_iff failingFs smallUsage 3 wellFormed_smallFs (by decide) 0

/-- A second block for the small file: block 6 is in use for nothing afterwards. -/
theorem not_reverted_failingFs :
    WellFormed (calm failingFs) smallUsage ∧ 3 ∈ failingFs.inodeList ∧
      ∃ e t, sfsBmapGetNolock 3 1 true failingFs = .ok (.error e, t) ∧
        failingFs.freemap.bit 6 = true ∧ t.super.unusedBlocks + 1 = failingFs.super.unusedBlocks ∧
        InUse t 6 ∧ ∀ o, ¬Holds t smallUsage o 6 := by
  refine ⟨wellFormed_smallFs, by decide, .eInval, _, rfl, by decide, by decide,
    ⟨by decide, by decide⟩, ?_⟩
  intro o ho
  have hholds : Holds smallFs smallUsage o 6 := ho
  rw [holds_smallFs] at hholds
  omega

end BadDisk

end Ucore.SfsAllocErrors
