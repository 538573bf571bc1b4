import Ucore.SfsFaults

/-! The block map when the device may fail. -/

namespace Ucore.SfsBlockMapFaults

open Ucore.KernelRoutine
open Ucore.ByteBuffer
open Ucore.BlockBitmap
open Ucore.SfsDisk
open Ucore.SfsBlockMap
open Ucore.SfsOwnership
open Ucore.SfsFileViews
open Ucore.SfsBlockMapGrow
open Ucore.SfsFaults

variable {sfs : SfsFs} {usage : Usage} {ino : Nat}

/-- A file is the same where the inodes in memory and the blocks in use are. -/
theorem kept_of_inUse {t : SfsFs} (h : WellFormed (calm sfs) usage) (hinode : t.inode = sfs.inode)
    (hloaded : t.inodeList = sfs.inodeList)
    (hblock : ∀ k, sfs.freemap.bit k = false → t.dev.block k = sfs.dev.block k) {f : Nat}
    (hf : usage.inode f) : Kept sfs t f := by
  have huse := (inUse_inode h hf).2
  have hdin : dinOf t f = dinOf sfs f := by
    unfold dinOf
    rw [hloaded, hinode, hblock f huse.2]
  constructor
  · exact hdin
  · intro i hi
    rw [fileBlock, hdin]
    apply blockAt_congr hi
    intro hne k _
    exact congrFun (hblock _ (inUse_indirect h hf hne).2) k
  · intro i hi
    exact hblock _ (inUse_data h hf hi).2.2

/-- A block could not be made: no inode and no block in use has changed, but more
blocks may be in use. -/
structure Spoiled (sfs sfs' : SfsFs) (usage usage' : Usage) : Prop where
  wf : WellFormed (calm sfs') usage'
  reserved : ∀ k, usage.reserved k → usage'.reserved k
  inode : sfs'.inode = sfs.inode
  loaded : sfs'.inodeList = sfs.inodeList
  super : sfs'.super.blocks = sfs.super.blocks
  nbits : sfs'.freemap.nbits = sfs.freemap.nbits
  bit : ∀ k, sfs.freemap.bit k = false → sfs'.freemap.bit k = false
  block : ∀ k, sfs.freemap.bit k = false → sfs'.dev.block k = sfs.dev.block k

theorem Spoiled.refl (h : WellFormed (calm sfs) usage) : Spoiled sfs sfs usage usage :=
  ⟨h, fun _ hk => hk, rfl, rfl, rfl, rfl, fun _ hk => hk, fun _ _ => rfl⟩

theorem Spoiled.kept {t : SfsFs} {usage' : Usage} (h : Spoiled sfs t usage usage')
    (hwf : WellFormed (calm sfs) usage) {f : Nat} (hf : usage.inode f) : Kept sfs t f :=
  kept_of_inUse hwf h.inode h.loaded h.block hf

theorem spoiled_allocated (h : WellFormed (calm sfs) usage) {b : Nat} (hb : Fresh sfs b) (n : Nat) :
    Spoiled sfs (passed (allocated sfs b) n) usage (leaked usage b) where
  wf := @wellFormed_allocated (calm sfs) usage b h ⟨hb.free, hb.ne, hb.lt⟩
  reserved _ hk := Or.inl hk
  inode := rfl
  loaded := rfl
  super := rfl
  nbits := rfl
  bit k hk := by
    show (sfs.freemap.setBit b false).bit k = false
    rw [bit_setBit, if_neg (hb.ne_of_used hk)]
    exact hk
  block _ _ := rfl

theorem spoiled_freed_granted (h : WellFormed (calm sfs) usage) {b : Nat} (hb : Fresh sfs b)
    (n : Nat) : Spoiled sfs (passed (freed (granted sfs b) b) n) usage usage where
  wf := (@untouched_freed_granted (calm sfs) usage b h hb.ne hb.lt hb.free).wf
  reserved _ hk := hk
  inode := rfl
  loaded := rfl
  super := rfl
  nbits := rfl
  bit k hk := by
    have hne := hb.ne_of_used hk
    show ((sfs.freemap.setBit b false).setBit b true).bit k = false
    rw [bit_setBit, if_neg hne, bit_setBit, if_neg hne]
    exact hk
  block k hk := granted_block_ne (hb.ne_of_used hk)

/-- Adding an entry to the indirect block `ent`: no block is free, or the block is added,
or its clearing fails, or its number cannot be stored. -/
theorem addSubBlock_cases (h : FreemapOk (calm sfs)) {ent index : Nat} (entp : Nat)
    (hne : ent ≠ 0) (hlt : ent < sfs.super.blocks) (hindex : index < SFS_BLK_NENTRY) :
    (freeCount sfs = 0 ∧
        addSubBlock entp ent (index * 4) sfs = freeNewEntry entp ent .eNoMem sfs) ∨
      ∃ b, Fresh sfs b ∧
        ((Quiet sfs 3 ∧ addSubBlock entp ent (index * 4) sfs =
            .ok (.ok (ent, b), passed (entered (granted sfs b) ent index b) 3)) ∨
          (∃ e, ¬Quiet sfs 1 ∧ addSubBlock entp ent (index * 4) sfs =
            freeNewEntry entp ent e (passed (allocated sfs b) 1)) ∨
          ∃ e n, Quiet sfs 1 ∧ ¬Quiet sfs 3 ∧ addSubBlock entp ent (index * 4) sfs =
            freeNewEntry entp ent e (passed (freed (granted sfs b) b) n)) := by
  rcases sfsBlockAlloc_faults h with ⟨hzero, halloc⟩ | ⟨b, hb, ⟨hq, halloc⟩ | ⟨e, hq, halloc⟩⟩
  · left
    refine ⟨hzero, ?_⟩
    rw [addSubBlock, attempt_bind_of_ok halloc]
  · refine Or.inr ⟨b, hb, ?_⟩
    obtain ⟨hstart, hstop⟩ := word_in_block hindex
    have hfit : Fitting (passed (granted sfs b) 1) := h.steady.blocks_le
    rcases sfsWbuf_tries hfit (wordBytes b) 0 hne hlt hstart hstop with
      ⟨hq', hwrite⟩ | ⟨n, e, hn, hq', hfault, hwrite⟩
    · refine Or.inl ⟨hq.add hq', ?_⟩
      rw [addSubBlock, attempt_bind_of_ok halloc]
      change (attempt (sfsWbuf (wordBytes b) 0 4 ent (index * 4)) >>= fun _ => _) _ = _
      rw [attempt_bind_of_ok hwrite, copyBytes_wordBytes]
      rfl
    · have huse : (granted sfs b).freemap.bit b = false := (@inUse_granted sfs b hb.lt).2
      have hfree := @sfsBlockFree_apply (passed (granted sfs b) (1 + (n + 1))) b hb.ne hb.lt
        h.blocks_le huse
      refine Or.inr (Or.inr ⟨e, 1 + (n + 1), hq, ?_, ?_⟩)
      · apply @not_quiet sfs (n + 1) 3 e (by omega)
        exact hfault
      · rw [addSubBlock, attempt_bind_of_ok halloc]
        change (attempt (sfsWbuf (wordBytes b) 0 4 ent (index * 4)) >>= fun _ => _) _ = _
        rw [attempt_bind_of_ok hwrite, passed_passed]
        change (sfsBlockFree b >>= fun _ => freeNewEntry entp ent e) _ = _
        rw [bind_of_ok hfree]
        rfl
  · refine Or.inr ⟨b, hb, Or.inr (Or.inl ⟨e, hq, ?_⟩)⟩
    rw [addSubBlock, attempt_bind_of_ok halloc]

theorem addSubBlock_faults (h : WellFormed (calm sfs) usage) {ent index : Nat} (entp : Nat)
    (hne : ent ≠ 0) (hlt : ent < sfs.super.blocks) (hindex : index < SFS_BLK_NENTRY) :
    (∃ b, Fresh sfs b ∧ Quiet sfs 3 ∧ addSubBlock entp ent (index * 4) sfs =
        .ok (.ok (ent, b), passed (entered (granted sfs b) ent index b) 3)) ∨
      ∃ e t usage', Spoiled sfs t usage usage' ∧ (freeCount sfs = 0 ∨ ¬Quiet sfs 3) ∧
        addSubBlock entp ent (index * 4) sfs = freeNewEntry entp ent e t := by
  rcases addSubBlock_cases h.freemap entp hne hlt hindex with
    ⟨hzero, hrun⟩ | ⟨b, hb, ⟨hq, hrun⟩ | ⟨e, hq, hrun⟩ | ⟨e, n, _, hq, hrun⟩⟩
  · exact Or.inr ⟨.eNoMem, sfs, usage, Spoiled.refl h, Or.inl hzero, hrun⟩
  · exact Or.inl ⟨b, hb, hq, hrun⟩
  · refine Or.inr ⟨e, _, _, spoiled_allocated h hb 1, Or.inr ?_, hrun⟩
    intro hquiet
    exact hq (hquiet.mono (by decide))
  · exact Or.inr ⟨e, _, usage, spoiled_freed_granted h hb n, Or.inr hq, hrun⟩

/-- A block was added to the file `ino` through the indirect block it had, and the
inode was not marked. -/
structure Unrecorded (sfs sfs' : SfsFs) (ino : Nat) : Prop where
  far : SFS_NDIRECT ≤ (sfs.inode ino).din.blocks
  indirect : (sfs.inode ino).din.indirect ≠ 0
  quiet : Quiet sfs 4
  inode : sfs'.inode ino = { sfs.inode ino with
    din := { (sfs.inode ino).din with blocks := (sfs.inode ino).din.blocks + 1 } }
  faults : sfs'.dev.faults = (passed sfs 4).dev.faults

/-- `sfs_bmap_load_nolock` at the end of the file adds a block, or makes none. -/
def Adds (sfs : SfsFs) (usage : Usage) (ino : Nat) : Prop :=
  (∃ b t, sfsBmapLoadNolock ino (dinOf sfs ino).blocks sfs = .ok (.ok b, t) ∧
      Grown (calm sfs) (calm t) usage ino b ∧ t.dev.block ino = sfs.dev.block ino ∧
      ((t.inode ino).dirty = true ∨ Unrecorded sfs t ino)) ∨
    ∃ e t usage', sfsBmapLoadNolock ino (dinOf sfs ino).blocks sfs = .ok (.error e, t) ∧
      Spoiled sfs t usage usage' ∧ (freeCount sfs < growCost (dinOf sfs ino) ∨ ¬Quiet sfs 4)

theorem used_inode (h : WellFormed (calm sfs) usage) (hin : ino ∈ sfs.inodeList) :
    sfs.freemap.bit ino = false :=
  (inUse_inode h (h.loaded ino hin)).2.2

theorem adds_direct (h : WellFormed (calm sfs) usage) (hin : ino ∈ sfs.inodeList)
    (hnear : (dinOf sfs ino).blocks < SFS_NDIRECT) : Adds sfs usage ino := by
  have hmax : (dinOf sfs ino).blocks < maxBlocks := by
    unfold maxBlocks
    omega
  have hdin := @dinOf_loaded sfs ino hin
  have hend : blockAt sfs.dev.block (dinOf sfs ino) (dinOf sfs ino).blocks = 0 :=
    @blockAt_end (calm sfs) usage ino h (h.loaded ino hin) hmax
  rw [blockAt, if_pos hnear, hdin] at hend
  have hstart : bmapGet ino (dinOf sfs ino).blocks true sfs =
      (do
        let b ← sfsBlockAlloc
        modifyInode ino fun si => { si with
          din := { si.din with
            direct := Function.update si.din.direct (dinOf sfs ino).blocks b }
          dirty := true }
        return b : Routine SfsFs Nat) sfs := by
    rw [bmapGet, if_pos hnear, bmapGetDirect, getState_bind, hdin, if_pos ⟨hend, rfl⟩]
  rw [Adds, hdin]
  rw [hdin] at hstart hmax
  rcases sfsBlockAlloc_faults h.freemap with ⟨hzero, halloc⟩ | ⟨b, hb, ⟨hq, halloc⟩ | ⟨e, hq, halloc⟩⟩
  · right
    refine ⟨.eNoMem, sfs, usage, ?_, Spoiled.refl h, Or.inl ?_⟩
    · apply sfsBmapLoadNolock_of_get_error
      rw [hstart, bind_of_error halloc]
    · rw [hzero]
      exact growCost_pos _
  · left
    have hgrown := @grown_direct (calm sfs) usage ino b h hin hnear hb.ne hb.lt hb.free true
    rw [show dinOf (calm sfs) ino = (sfs.inode ino).din from hdin] at hgrown
    have hget : bmapGet ino (sfs.inode ino).din.blocks true sfs =
        .ok (.ok b, passed ((granted sfs b).setInode ino
          { din := { (sfs.inode ino).din with
              direct := Function.update (sfs.inode ino).din.direct (sfs.inode ino).din.blocks b }
            dirty := true }) 1) := by
      rw [hstart, bind_of_ok halloc]
      rfl
    refine ⟨b, _, sfsBmapLoadNolock_of_get hmax hget h.freemap.blocks_le hb.ne
      (@inUse_granted sfs b hb.lt) (by simp), ?_, ?_, ?_⟩
    · simp only [passed_inode, setInode_inode_self, setInode_passed, setInode_setInode]
      exact hgrown
    · exact granted_block_ne (hb.ne_of_used (used_inode h hin))
    · left
      simp
  · right
    refine ⟨e, _, _, ?_, spoiled_allocated h hb 1, Or.inr ?_⟩
    · apply sfsBmapLoadNolock_of_get_error
      rw [hstart, bind_of_error halloc]
    · intro hquiet
      exact hq (hquiet.mono (by decide))

theorem adds_indirect (h : WellFormed (calm sfs) usage) (hin : ino ∈ sfs.inodeList)
    (hfar : SFS_NDIRECT ≤ (dinOf sfs ino).blocks) (hmax : (dinOf sfs ino).blocks < maxBlocks)
    (hsome : (dinOf sfs ino).indirect ≠ 0) : Adds sfs usage ino := by
  have hdin := @dinOf_loaded sfs ino hin
  have hfile := h.loaded ino hin
  have hgrown := fun b (hb : Fresh sfs b) => @grown_indirect (calm sfs) usage ino b h hin hfar hmax
    hsome hb.ne hb.lt hb.free (sfs.inode ino).dirty
  have hend : blockAt sfs.dev.block (dinOf sfs ino) (dinOf sfs ino).blocks = 0 :=
    @blockAt_end (calm sfs) usage ino h hfile hmax
  rw [blockAt, if_neg (not_lt.mpr hfar), if_neg hsome] at hend
  have huse : InUse sfs (dinOf sfs ino).indirect := @inUse_indirect (calm sfs) usage h ino hfile hsome
  have hother : ino ≠ (dinOf sfs ino).indirect := by
    intro heq
    have hholds : Holds (calm sfs) usage (.indirect ino) ino := ⟨hfile, hsome, heq⟩
    cases h.owns.inj (o := .inode ino) ⟨hfile, rfl⟩ hholds
  rw [show dinOf (calm sfs) ino = (sfs.inode ino).din from hdin] at hgrown
  rw [hdin] at hfar hmax hsome hend huse hother
  rw [Adds, hdin]
  have hsub := sub_lt_nentry hmax hfar
  obtain ⟨hstart, hstop⟩ := word_in_block hsub
  have hget : bmapGet ino (sfs.inode ino).din.blocks true sfs =
      bmapGetIndirect ino ((sfs.inode ino).din.blocks - SFS_NDIRECT) true sfs := by
    rw [bmapGet_far hfar hmax]
  rw [bmapGetIndirect, getState_bind] at hget
  have hfit : Fitting sfs := h.freemap.steady.blocks_le
  have hread := sfsRbuf_tries hfit zeros 0 hsome huse.1 hstart hstop
  rcases hread with ⟨hq, hread⟩ | ⟨n, e, hn, hq, hfault, hread⟩
  · have hadd : sfsBmapGetSubNolock (sfs.inode ino).din.indirect
        ((sfs.inode ino).din.blocks - SFS_NDIRECT) true sfs =
        addSubBlock (sfs.inode ino).din.indirect (sfs.inode ino).din.indirect
          (((sfs.inode ino).din.blocks - SFS_NDIRECT) * 4) (passed sfs 1) := by
      rw [sfsBmapGetSubNolock, ensure_bind_of hsub, if_pos hsome, bind_of_ok hread,
        getLE_copyBytes_word, hend, if_neg (by simp)]
    have hwf : WellFormed (calm (passed sfs 1)) usage := h
    rcases addSubBlock_faults hwf (sfs.inode ino).din.indirect hsome huse.1 hsub with
      ⟨b, hb, hq', hrun⟩ | ⟨e, t, usage', hspoiled, hcause, hrun⟩
    · left
      have hb' : Fresh sfs b := ⟨hb.free, hb.ne, hb.lt⟩
      rw [bind_of_ok (hadd.trans hrun)] at hget
      simp only [ne_eq, not_true_eq_false, if_false, pure_apply, granted_passed, entered_passed,
        passed_passed] at hget
      refine ⟨b, _, sfsBmapLoadNolock_of_get hmax hget h.freemap.blocks_le hb.ne
        (@inUse_granted sfs b hb.lt) rfl, hgrown b hb', ?_, Or.inr ?_⟩
      · exact (setBlock_block_ne hother _).trans (granted_block_ne (hb'.ne_of_used (used_inode h hin)))
      · exact ⟨hfar, hsome, hq.add hq', setInode_inode_self ino _, rfl⟩
    · right
      rw [freeNewEntry, if_neg (not_not.mpr rfl), fail_apply] at hrun
      rw [bind_of_error (hadd.trans hrun)] at hget
      refine ⟨e, t, usage', sfsBmapLoadNolock_of_get_error hget, ⟨hspoiled.wf, hspoiled.reserved,
        hspoiled.inode, hspoiled.loaded, hspoiled.super, hspoiled.nbits, hspoiled.bit,
        hspoiled.block⟩, ?_⟩
      rcases hcause with hzero | hquiet
      · left
        have hcount : freeCount sfs = 0 := hzero
        rw [hcount]
        exact growCost_pos _
      · right
        intro hall
        exact hquiet (@Quiet.rest sfs 1 3 hall)
  · right
    have hadd : sfsBmapGetSubNolock (sfs.inode ino).din.indirect
        ((sfs.inode ino).din.blocks - SFS_NDIRECT) true sfs = .ok (.error e, passed sfs (n + 1)) := by
      rw [sfsBmapGetSubNolock, ensure_bind_of hsub, if_pos hsome, bind_of_error hread]
    rw [bind_of_error hadd] at hget
    exact ⟨e, passed sfs (n + 1), usage, sfsBmapLoadNolock_of_get_error hget, ⟨h, fun _ hk => hk,
      rfl, rfl, rfl, rfl, fun _ hk => hk, fun _ _ => rfl⟩, Or.inr (not_quiet (by omega) hfault)⟩

theorem spoiled_freed {usage' : Usage} {t : SfsFs} {ent : Nat} (h : WellFormed (calm sfs) usage)
    (hent : Fresh sfs ent) {n : Nat}
    (hspoiled : Spoiled (passed (granted sfs ent) n) t (leaked usage ent) usage') :
    Spoiled sfs (freed t ent) usage
      { usage' with reserved := fun k => usage'.reserved k ∧ k ≠ ent } where
  wf := @wellFormed_freed (calm t) usage' ent hspoiled.wf (hspoiled.reserved ent (Or.inr rfl)) hent.ne
  reserved k hk := by
    have hused : InUse (calm sfs) k := h.owns.used_of_holds (o := .reserved k) ⟨hk, rfl⟩
    exact ⟨hspoiled.reserved k (Or.inl hk), hent.ne_of_used hused.2⟩
  inode := hspoiled.inode
  loaded := hspoiled.loaded
  super := hspoiled.super
  nbits := hspoiled.nbits
  bit k hk := by
    have hne := hent.ne_of_used hk
    show (t.freemap.setBit ent true).bit k = false
    rw [bit_setBit, if_neg hne]
    apply hspoiled.bit
    show (sfs.freemap.setBit ent false).bit k = false
    rw [bit_setBit, if_neg hne]
    exact hk
  block k hk := by
    have hne := hent.ne_of_used hk
    have hgranted : (passed (granted sfs ent) n).freemap.bit k = false := by
      show (sfs.freemap.setBit ent false).bit k = false
      rw [bit_setBit, if_neg hne]
      exact hk
    exact (hspoiled.block k hgranted).trans (granted_block_ne hne)

theorem adds_attach (h : WellFormed (calm sfs) usage) (hin : ino ∈ sfs.inodeList)
    (hfar : SFS_NDIRECT ≤ (dinOf sfs ino).blocks) (hmax : (dinOf sfs ino).blocks < maxBlocks)
    (hnone : (dinOf sfs ino).indirect = 0) : Adds sfs usage ino := by
  have hdin := @dinOf_loaded sfs ino hin
  have hcost : growCost (dinOf sfs ino) = 2 := if_pos ⟨hfar, hnone⟩
  have hgrown := fun ent b (hent : Fresh sfs ent) (hb : Fresh (granted sfs ent) b) =>
    @grown_attached (calm sfs) usage ino b ent h hin hfar hmax hnone hent.ne hent.lt hent.free
      hb.ne hb.lt hb.free
  rw [show dinOf (calm sfs) ino = (sfs.inode ino).din from hdin] at hgrown
  rw [hdin] at hfar hmax hnone hcost
  rw [Adds, hdin]
  have hsub := sub_lt_nentry hmax hfar
  have hget : bmapGet ino (sfs.inode ino).din.blocks true sfs =
      bmapGetIndirect ino ((sfs.inode ino).din.blocks - SFS_NDIRECT) true sfs := by
    rw [bmapGet_far hfar hmax]
  have hadd : sfsBmapGetSubNolock (sfs.inode ino).din.indirect
      ((sfs.inode ino).din.blocks - SFS_NDIRECT) true sfs =
      (sfsBlockAlloc >>= fun ent =>
        addSubBlock 0 ent (((sfs.inode ino).din.blocks - SFS_NDIRECT) * 4)) sfs := by
    rw [sfsBmapGetSubNolock, ensure_bind_of hsub, hnone]
    rfl
  rw [bmapGetIndirect, getState_bind] at hget
  rcases sfsBlockAlloc_faults h.freemap with
    ⟨hzero, halloc⟩ | ⟨ent, hent, ⟨hq, halloc⟩ | ⟨e, hq, halloc⟩⟩
  · right
    rw [bind_of_error halloc] at hadd
    rw [bind_of_error hadd] at hget
    exact ⟨.eNoMem, sfs, usage, sfsBmapLoadNolock_of_get_error hget, Spoiled.refl h,
      Or.inl (by omega)⟩
  · rw [bind_of_ok halloc] at hadd
    have hwf : WellFormed (calm (passed (granted sfs ent) 1)) (leaked usage ent) :=
      @wellFormed_granted (calm sfs) usage ent h ⟨hent.free, hent.ne, hent.lt⟩
    have hcount : freeCount (granted sfs ent) + 1 = freeCount sfs :=
      freeCount_allocated (lt_of_lt_of_le hent.lt h.freemap.blocks_le) hent.free
    rcases addSubBlock_faults hwf 0 hent.ne hent.lt hsub with
      ⟨b, hb, hq', hrun⟩ | ⟨e, t, usage', hspoiled, hcause, hrun⟩
    · left
      have hb' : Fresh (granted sfs ent) b := ⟨hb.free, hb.ne, hb.lt⟩
      have hget' : bmapGet ino (sfs.inode ino).din.blocks true sfs =
          .ok (.ok b, passed ((entered (granted (granted sfs ent) b) ent
              ((sfs.inode ino).din.blocks - SFS_NDIRECT) b).setInode ino
            { din := { (sfs.inode ino).din with indirect := ent }, dirty := true }) 4) := by
        rw [hget, bind_of_ok (hadd.trans hrun), hnone]
        simp only [ne_eq, hent.ne, not_false_eq_true, if_true]
        rw [ensure_bind_of rfl]
        simp only [granted_passed, entered_passed, passed_passed]
        rfl
      refine ⟨b, _, sfsBmapLoadNolock_of_get hmax hget' h.freemap.blocks_le hb.ne
        (@inUse_granted (granted sfs ent) b hb.lt) (by simp), ?_, ?_, Or.inl ?_⟩
      · simp only [passed_inode, setInode_inode_self, setInode_passed, setInode_setInode]
        exact hgrown ent b hent hb'
      · have hused := used_inode h hin
        have hne := hent.ne_of_used hused
        have hne' : ino ≠ b := by
          apply hb'.ne_of_used
          rw [granted_bit, if_neg hne]
          exact hused
        exact (setBlock_block_ne hne _).trans
          ((granted_block_ne hne').trans (granted_block_ne hne))
      · simp
    · right
      have huse : t.freemap.bit ent = false :=
        hspoiled.bit ent (@inUse_granted sfs ent hent.lt).2
      have hfree := @sfsBlockFree_apply t ent hent.ne (lt_of_lt_of_eq hent.lt hspoiled.super.symm)
        hspoiled.wf.freemap.blocks_le huse
      rw [freeNewEntry, if_pos hent.ne, bind_of_ok hfree, fail_apply] at hrun
      rw [bind_of_error (hadd.trans hrun)] at hget
      refine ⟨e, _, _, sfsBmapLoadNolock_of_get_error hget, spoiled_freed h hent hspoiled, ?_⟩
      rcases hcause with hzero | hquiet
      · left
        have hcount' : freeCount (granted sfs ent) = 0 := hzero
        omega
      · right
        intro hall
        exact hquiet (@Quiet.rest sfs 1 3 hall)
  · right
    rw [bind_of_error halloc] at hadd
    rw [bind_of_error hadd] at hget
    refine ⟨e, _, _, sfsBmapLoadNolock_of_get_error hget, spoiled_allocated h hent 1, Or.inr ?_⟩
    intro hall
    exact hq (hall.mono (by decide))

theorem sfsBmapLoadNolock_adds (h : WellFormed (calm sfs) usage) (hin : ino ∈ sfs.inodeList)
    (hmax : (dinOf sfs ino).blocks < maxBlocks) : Adds sfs usage ino := by
  rcases lt_or_ge (dinOf sfs ino).blocks SFS_NDIRECT with hnear | hfar
  · exact adds_direct h hin hnear
  · rcases eq_or_ne (dinOf sfs ino).indirect 0 with hnone | hsome
    · exact adds_attach h hin hfar hmax hnone
    · exact adds_indirect h hin hfar hmax hsome

/-- Transfers that look up a block that the file has. -/
def lookupCost (i : Nat) : Nat :=
  if i < SFS_NDIRECT then 0 else 1

theorem bmapGet_tries (h : WellFormed (calm sfs) usage) (hin : ino ∈ sfs.inodeList)
    {i : Nat} (hi : i < (dinOf sfs ino).blocks) :
    Tries (bmapGet ino i false) sfs (lookupCost i) (fileBlock sfs ino i) sfs := by
  have hdin := @dinOf_loaded sfs ino hin
  have hfile := h.loaded ino hin
  rcases lt_or_ge i SFS_NDIRECT with hnear | hfar
  · rw [lookupCost, if_pos hnear, fileBlock, blockAt_near hnear, hdin]
    apply Tries.of_ok
    rw [bmapGet, if_pos hnear, bmapGetDirect, getState_bind, if_neg (by simp)]
    rfl
  · have hmax : i < maxBlocks := lt_of_lt_of_le hi (h.blocks_max ino hfile)
    have hsome : (dinOf sfs ino).indirect ≠ 0 := @indirect_ne_zero (calm sfs) ino usage h hfile
      (lt_of_le_of_lt hfar hi)
    have huse : InUse sfs (dinOf sfs ino).indirect :=
      @inUse_indirect (calm sfs) usage h ino hfile hsome
    have hsub := sub_lt_nentry hmax hfar
    obtain ⟨hstart, hstop⟩ := word_in_block hsub
    have hfit : Fitting sfs := h.freemap.steady.blocks_le
    have hread := sfsRbuf_tries hfit zeros 0 hsome huse.1 hstart hstop
    have hcost : lookupCost i = 1 := if_neg (not_lt.mpr hfar)
    have hblock : fileBlock sfs ino i =
        getWord (sfs.dev.block (dinOf sfs ino).indirect) (i - SFS_NDIRECT) := by
      rw [fileBlock, blockAt_far hfar, if_neg hsome]
    have hstart : bmapGet ino i false sfs =
        (sfsBmapGetSubNolock (dinOf sfs ino).indirect (i - SFS_NDIRECT) false >>= fun p => do
          if p.1 ≠ (dinOf sfs ino).indirect then
            ensure ((dinOf sfs ino).indirect = 0)
            modifyInode ino fun si =>
              { si with din := { si.din with indirect := p.1 }, dirty := true }
            return p.2
          else
            return p.2) sfs := by
      rw [bmapGet_far hfar hmax, bmapGetIndirect, getState_bind, hdin]
    rw [hcost, hblock]
    apply hread.finish
    · intro hrun
      have hsub' : sfsBmapGetSubNolock (dinOf sfs ino).indirect (i - SFS_NDIRECT) false sfs =
          .ok (.ok ((dinOf sfs ino).indirect,
            getWord (sfs.dev.block (dinOf sfs ino).indirect) (i - SFS_NDIRECT)), passed sfs 1) := by
        rw [sfsBmapGetSubNolock, ensure_bind_of hsub, if_pos hsome, bind_of_ok hrun,
          getLE_copyBytes_word, if_pos (Or.inr rfl)]
        rfl
      rw [hstart, bind_of_ok hsub']
      simp only [ne_eq, not_true_eq_false, if_false]
      rfl
    · intro e t hrun
      have hsub' : sfsBmapGetSubNolock (dinOf sfs ino).indirect (i - SFS_NDIRECT) false sfs =
          .ok (.error e, t) := by
        rw [sfsBmapGetSubNolock, ensure_bind_of hsub, if_pos hsome, bind_of_error hrun]
      rw [hstart, bind_of_error hsub']

/-- A block that the file has is looked up without a change, or not at all. -/
theorem sfsBmapLoadNolock_tries (h : WellFormed (calm sfs) usage) (hin : ino ∈ sfs.inodeList)
    {i : Nat} (hi : i < (dinOf sfs ino).blocks) :
    Tries (sfsBmapLoadNolock ino i) sfs (lookupCost i) (fileBlock sfs ino i) sfs := by
  obtain ⟨hne, huse⟩ := @inUse_data (calm sfs) usage h ino i (h.loaded ino hin) hi
  have hbmap := bmapGet_tries h hin hi
  rw [dinOf_loaded hin] at hi
  have hlast : decide (i = (sfs.inode ino).din.blocks) = false :=
    decide_eq_false (Nat.ne_of_lt hi)
  have hstart : sfsBmapLoadNolock ino i sfs = (sfsBmapGetNolock ino i false >>= fun b => do
      ensureInuse b
      if i = (sfs.inode ino).din.blocks then
        modifyInode ino fun si => { si with
          din := { si.din with blocks := (si.din.blocks + 1) % 2 ^ 32 } }
        return b
      else
        return b) sfs := by
    rw [sfsBmapLoadNolock, getState_bind, ensure_bind_of (Nat.le_of_lt hi), hlast]
  have hinuse : ∀ k, ensureInuse (fileBlock sfs ino i) (passed sfs k) = .ok (.ok (), passed sfs k) :=
    fun k => @ensureInuse_apply (passed sfs k) _ hne huse.1 h.freemap.blocks_le huse.2
  apply hbmap.finish
  · intro hrun
    have hget : sfsBmapGetNolock ino i false sfs =
        .ok (.ok (fileBlock sfs ino i), passed sfs (lookupCost i)) := by
      have hne' : ¬fileBlock sfs ino i = 0 := hne
      rw [sfsBmapGetNolock, bind_of_ok hrun, if_neg hne', bind_of_ok (hinuse _)]
      rfl
    rw [hstart, bind_of_ok hget, bind_of_ok (hinuse _), if_neg (Nat.ne_of_lt hi)]
    rfl
  · intro e t hrun
    have hget : sfsBmapGetNolock ino i false sfs = .ok (.error e, t) := by
      rw [sfsBmapGetNolock, bind_of_error hrun]
    rw [hstart, bind_of_error hget]

end Ucore.SfsBlockMapFaults
