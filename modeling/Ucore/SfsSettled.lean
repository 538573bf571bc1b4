import Ucore.SfsDirent
import Ucore.SfsRuns

/-! Operations that leave every file of the file system as it is. -/

namespace Ucore.SfsSettled

open Ucore.Errors
open Ucore.Panic
open Ucore.KernelRoutine
open Ucore.ByteBuffer
open Ucore.CStrings
open Ucore.SfsDisk
open Ucore.SfsBlockMap
open Ucore.SfsOwnership
open Ucore.SfsFileViews
open Ucore.SfsBlockMapGrow
open Ucore.SfsIo
open Ucore.SfsIoPhases
open Ucore.SfsIoRefinement
open Ucore.SfsDirent
open Ucore.SfsRuns

/-- The fields of an inode are values of their C types. -/
structure Fits (din : SfsDiskInode) : Prop where
  size : din.size < 2 ^ 32
  type : din.type < 2 ^ 16
  nlinks : din.nlinks < 2 ^ 16
  blocks : din.blocks < 2 ^ 32
  direct : ∀ i, i < SFS_NDIRECT → din.direct i < 2 ^ 32
  rest : ∀ i, SFS_NDIRECT ≤ i → din.direct i = 0
  indirect : din.indirect < 2 ^ 32

/-- The directory slot `slot` of `dir`. -/
def slotBlock (sfs : SfsFs) (dir slot : Nat) : Bytes :=
  sfs.dev.block (fileBlock sfs dir slot)

/-- A well-formed file system whose files have the blocks that their sizes ask
for, whose directories refer to files, and whose inodes in memory are those on
disk unless they are marked as dirty. -/
structure Settled (usage : Usage) (sfs : SfsFs) : Prop where
  wf : WellFormed sfs usage
  fits : ∀ f, usage.inode f → Fits (dinOf sfs f)
  covered : ∀ f, usage.inode f → (dinOf sfs f).type = SFS_TYPE_FILE →
    (dinOf sfs f).size ≤ (dinOf sfs f).blocks * SFS_BLKSIZE
  entries : ∀ d slot, usage.inode d → (dinOf sfs d).type = SFS_TYPE_DIR →
    slot < (dinOf sfs d).blocks → direntIno (slotBlock sfs d slot) ≠ 0 →
      usage.inode (direntIno (slotBlock sfs d slot))
  clean : ∀ f, f ∈ sfs.inodeList → (sfs.inode f).dirty = false →
    loadDiskInode (sfs.dev.block f) = (sfs.inode f).din
  linked : ∀ f, f ∈ sfs.inodeList → (sfs.inode f).din.nlinks ≠ 0

/-- Every file is the same in both states. -/
def AllKept (usage : Usage) (sfs sfs' : SfsFs) : Prop :=
  ∀ f, usage.inode f → Kept sfs sfs' f

variable {usage : Usage} {sfs sfs' : SfsFs}

theorem AllKept.refl (usage : Usage) (sfs : SfsFs) : AllKept usage sfs sfs :=
  fun f _ => Kept.refl sfs f

theorem AllKept.trans {sfs'' : SfsFs} (h : AllKept usage sfs sfs')
    (h' : AllKept usage sfs' sfs'') (hwf : WellFormed sfs usage) : AllKept usage sfs sfs'' :=
  fun f hf => (h f hf).trans (h' f hf) (hwf.blocks_max f hf)

theorem AllKept.slotBlock (h : AllKept usage sfs sfs') (hwf : WellFormed sfs usage) {d slot : Nat}
    (hd : usage.inode d) (hslot : slot < (dinOf sfs d).blocks) :
    slotBlock sfs' d slot = slotBlock sfs d slot := by
  have hmax := lt_of_lt_of_le hslot (hwf.blocks_max d hd)
  rw [SfsSettled.slotBlock, (h d hd).block slot hmax]
  exact (h d hd).data slot hslot

/-- What is left to show of a state with the same files. -/
theorem Settled.of_kept (h : Settled usage sfs) (hwf : WellFormed sfs' usage)
    (hkept : AllKept usage sfs sfs')
    (hclean : ∀ f, f ∈ sfs'.inodeList → (sfs'.inode f).dirty = false →
      loadDiskInode (sfs'.dev.block f) = (sfs'.inode f).din)
    (hlinked : ∀ f, f ∈ sfs'.inodeList → (sfs'.inode f).din.nlinks ≠ 0) : Settled usage sfs' where
  wf := hwf
  fits f hf := by
    rw [(hkept f hf).din]
    exact h.fits f hf
  covered f hf hregular := by
    rw [(hkept f hf).din] at hregular ⊢
    exact h.covered f hf hregular
  entries d slot hd htype hslot hne := by
    rw [(hkept d hd).din] at htype hslot
    rw [hkept.slotBlock h.wf hd hslot] at hne ⊢
    exact h.entries d slot hd htype hslot hne
  clean := hclean
  linked := hlinked

/-- The same files, and the same inodes in memory. -/
structure Stays (usage : Usage) (sfs sfs' : SfsFs) : Prop where
  settled : Settled usage sfs'
  kept : AllKept usage sfs sfs'
  loaded : sfs'.inodeList = sfs.inodeList

theorem Stays.refl (h : Settled usage sfs) : Stays usage sfs sfs :=
  ⟨h, AllKept.refl usage sfs, rfl⟩

section WriteBack

variable {n : Nat}

/-- The block of an inode in memory may be written: the files do not change. -/
theorem kept_setBlock_inode (h : WellFormed sfs usage) (hin : n ∈ sfs.inodeList) (data : Bytes) :
    AllKept usage sfs (sfs.setBlock n data) := by
  intro f hf
  have hplain := plain_of_loaded h hin
  constructor
  · exact dinOf_setBlock hplain hf data
  · intro i hi
    exact fileBlock_setBlock hplain hf hi data
  · intro i hi
    apply setBlock_block_ne
    intro heq
    have hdata : Holds sfs usage (.data f i) n := ⟨hf, hi, heq.symm⟩
    have hinode : Holds sfs usage (.inode n) n := ⟨h.loaded n hin, rfl⟩
    cases h.owns.inj hdata hinode

/-- The file system after a dirty inode has been written back. -/
def writtenBack (sfs : SfsFs) (n : Nat) : SfsFs :=
  (sfs.setInode n { sfs.inode n with dirty := false }).setBlock n
    (copyBytes (sfs.dev.block n) 0 (diskInodeBytes (sfs.inode n).din) 0 diskInodeSize)

theorem kept_setInode_same (hin : n ∈ sfs.inodeList) {v : SfsInode} (hdin : v.din = (sfs.inode n).din) :
    AllKept usage sfs (sfs.setInode n v) := by
  intro f _
  rcases eq_or_ne f n with rfl | hother
  · have hsame : dinOf (sfs.setInode f v) f = dinOf sfs f := by
      rw [dinOf_setInode hin, hdin, dinOf_loaded hin]
    constructor
    · exact hsame
    · intro i _
      rw [fileBlock, hsame]
      rfl
    · intro i _
      rfl
  · exact kept_setInode hother v

theorem wellFormed_writtenBack (h : WellFormed sfs usage) (hin : n ∈ sfs.inodeList) :
    WellFormed (writtenBack sfs n) usage := by
  have hdin : dinOf sfs n = (sfs.inode n).din := dinOf_loaded hin
  have hwf : WellFormed (sfs.setInode n { sfs.inode n with dirty := false }) usage :=
    wellFormed_setInode h hin (by rw [hdin]) (by rw [hdin]) (by rw [hdin])
  exact wellFormed_setBlock hwf (plain_of_loaded hwf hin) _

theorem kept_writtenBack (h : WellFormed sfs usage) (hin : n ∈ sfs.inodeList) :
    AllKept usage sfs (writtenBack sfs n) := by
  have hdin : dinOf sfs n = (sfs.inode n).din := dinOf_loaded hin
  have hwf : WellFormed (sfs.setInode n { sfs.inode n with dirty := false }) usage :=
    wellFormed_setInode h hin (by rw [hdin]) (by rw [hdin]) (by rw [hdin])
  have hclean : AllKept usage sfs (sfs.setInode n { sfs.inode n with dirty := false }) :=
    kept_setInode_same hin rfl
  exact hclean.trans (kept_setBlock_inode hwf hin _) h

/-- An inode whose fields fit is read back from the block it was written to. -/
theorem loadDiskInode_written {din : SfsDiskInode} (h : Fits din) (b : Bytes) :
    loadDiskInode (copyBytes b 0 (diskInodeBytes din) 0 diskInodeSize) = din := by
  have hcodec := loadDiskInode_diskInodeBytes h.size h.type h.nlinks h.blocks h.direct h.rest
    h.indirect
  refine Eq.trans ?_ hcodec
  apply loadDiskInode_congr
  intro k hk
  rw [copyBytes_of_mem (Nat.zero_le k) (by omega)]
  have hzero : 0 + (k - 0) = k := by omega
  rw [hzero]

/-- Writing an inode back leaves the clean inodes as they are on disk. -/
theorem clean_writtenBack (hfits : Fits (sfs.inode n).din)
    (hclean : ∀ f, f ∈ sfs.inodeList → (sfs.inode f).dirty = false →
      loadDiskInode (sfs.dev.block f) = (sfs.inode f).din) {f : Nat} (hf : f ∈ sfs.inodeList)
    (hdirty : ((writtenBack sfs n).inode f).dirty = false) :
    loadDiskInode ((writtenBack sfs n).dev.block f) = ((writtenBack sfs n).inode f).din := by
  rcases eq_or_ne f n with rfl | hother
  · have hinode : (writtenBack sfs f).inode f = { sfs.inode f with dirty := false } := by
      rw [writtenBack, setBlock_inode, setInode_inode_self]
    rw [hinode, writtenBack, setBlock_block_self]
    exact loadDiskInode_written hfits _
  · have hinode : (writtenBack sfs n).inode f = sfs.inode f := by
      rw [writtenBack, setBlock_inode, setInode_inode_ne hother]
    rw [hinode] at hdirty ⊢
    rw [writtenBack, setBlock_block_ne hother]
    exact hclean f hf hdirty

theorem stays_writtenBack (h : Settled usage sfs) (hin : n ∈ sfs.inodeList) :
    Stays usage sfs (writtenBack sfs n) := by
  have hdin : dinOf sfs n = (sfs.inode n).din := dinOf_loaded hin
  have hkept := kept_writtenBack h.wf hin
  have hfits := h.fits n (h.wf.loaded n hin)
  rw [hdin] at hfits
  refine ⟨h.of_kept (wellFormed_writtenBack h.wf hin) hkept ?_ ?_, hkept, rfl⟩
  · intro f hf hdirty
    exact clean_writtenBack hfits h.clean hf hdirty
  · intro f hf
    have hf' : f ∈ sfs.inodeList := hf
    have hloaded := hkept f (h.wf.loaded f hf')
    rw [← dinOf_loaded hf, hloaded.din, dinOf_loaded hf']
    exact h.linked f hf'

/-- `sfs_fsync` of an inode in memory, when no transfer fails. -/
theorem sfsFsync_eq (h : WellFormed sfs usage) (hin : n ∈ sfs.inodeList) :
    sfsFsync n sfs =
      .ok (.ok (), if (sfs.inode n).dirty = true then writtenBack sfs n else sfs) := by
  rw [sfsFsync, getState_bind]
  rcases Bool.eq_false_or_eq_true (sfs.inode n).dirty with hdirty | hclean
  · obtain ⟨hne, huse⟩ := inUse_inode h (h.loaded n hin)
    have hdin : dinOf sfs n = (sfs.inode n).din := dinOf_loaded hin
    have hwf : WellFormed (sfs.setInode n { sfs.inode n with dirty := false }) usage :=
      wellFormed_setInode h hin (by rw [hdin]) (by rw [hdin]) (by rw [hdin])
    have hwrite := @sfsWbuf_eq _ n hwf.freemap.steady (diskInodeBytes (sfs.inode n).din) 0
      diskInodeSize 0 hne huse.1 (by decide) (by decide)
    rw [if_pos hdirty, if_pos hdirty, modifyInode, modifyState_bind, attempt_bind_of_ok hwrite]
    rfl
  · rw [if_neg (by simp [hclean]), if_neg (by simp [hclean])]
    rfl

/-- `sfs_fsync` changes no file, and leaves an inode that is not dirty. -/
theorem sfsFsync_returns (h : Settled usage sfs) (hin : n ∈ sfs.inodeList) {r : Except Errno Unit}
    (heq : sfsFsync n sfs = .ok (r, sfs')) :
    Stays usage sfs sfs' ∧ (sfs'.inode n).dirty = false := by
  rw [sfsFsync_eq h.wf hin] at heq
  rcases Bool.eq_false_or_eq_true (sfs.inode n).dirty with hdirty | hclean
  · rw [if_pos hdirty] at heq
    cases heq
    refine ⟨stays_writtenBack h hin, ?_⟩
    change ((sfs.setInode n { sfs.inode n with dirty := false }).inode n).dirty = false
    rw [setInode_inode_self]
  · rw [if_neg (by simp [hclean])] at heq
    cases heq
    exact ⟨Stays.refl h, hclean⟩

end WriteBack

section Caching

variable {n : Nat}

theorem kept_withLoaded : AllKept usage sfs (withLoaded sfs n) := by
  intro f _
  constructor
  · exact dinOf_withLoaded sfs n f
  · intro i _
    rw [fileBlock, dinOf_withLoaded]
    rfl
  · intro i _
    rfl

theorem settled_withLoaded (h : Settled usage sfs) (hfile : usage.inode n)
    (hout : n ∉ sfs.inodeList) (hlinks : (dinOf sfs n).nlinks ≠ 0) :
    Settled usage (withLoaded sfs n) := by
  have hself : (withLoaded sfs n).inode n = { din := dinOf sfs n, dirty := false } :=
    setInode_inode_self n _
  have hother : ∀ f, f ≠ n → (withLoaded sfs n).inode f = sfs.inode f :=
    fun f hne => setInode_inode_ne hne _
  apply h.of_kept (wellFormed_withLoaded h.wf hfile) kept_withLoaded
  · intro f hf hdirty
    rcases List.mem_cons.mp hf with rfl | hin
    · rw [hself, dinOf, if_neg hout]
      rfl
    · have hne : f ≠ n := by
        rintro rfl
        exact hout hin
      rw [hother f hne] at hdirty ⊢
      exact h.clean f hin hdirty
  · intro f hf
    rcases List.mem_cons.mp hf with rfl | hin
    · rw [hself]
      exact hlinks
    · have hne : f ≠ n := by
        rintro rfl
        exact hout hin
      rw [hother f hne]
      exact h.linked f hin

/-- The file system after `sfs_remove_links`. -/
def unloaded (sfs : SfsFs) (n : Nat) : SfsFs :=
  { sfs with inodeList := sfs.inodeList.erase n }

theorem dinOf_unloaded (h : Settled usage sfs) (hclean : (sfs.inode n).dirty = false) (f : Nat) :
    dinOf (unloaded sfs n) f = dinOf sfs f := by
  rcases Decidable.em (f ∈ sfs.inodeList.erase n) with hin | hout
  · rw [dinOf_loaded (List.mem_of_mem_erase hin)]
    exact dinOf_loaded hin
  · rcases Decidable.em (f ∈ sfs.inodeList) with hwas | hnever
    · have hself : f = n := by
        by_contra hne
        exact hout ((List.mem_erase_of_ne hne).mpr hwas)
      subst hself
      rw [dinOf_loaded hwas, ← h.clean f hwas hclean]
      exact if_neg hout
    · rw [dinOf, dinOf, if_neg hnever]
      exact if_neg hout

/-- An inode that is not dirty may leave memory. -/
theorem settled_unloaded (h : Settled usage sfs) (hclean : (sfs.inode n).dirty = false) :
    Settled usage (unloaded sfs n) ∧ AllKept usage sfs (unloaded sfs n) := by
  have hkept : AllKept usage sfs (unloaded sfs n) := by
    intro f _
    constructor
    · exact dinOf_unloaded h hclean f
    · intro i _
      rw [fileBlock, dinOf_unloaded h hclean]
      rfl
    · intro i _
      rfl
  have hin : ∀ {f}, f ∈ (unloaded sfs n).inodeList → f ∈ sfs.inodeList :=
    fun hf => List.mem_of_mem_erase hf
  have hok : FreemapOk (unloaded sfs n) :=
    ⟨⟨h.wf.freemap.steady.faults, h.wf.freemap.steady.blocks_le⟩, h.wf.freemap.nbits,
      h.wf.freemap.blocks_le, h.wf.freemap.free_lt, h.wf.freemap.super_used, h.wf.freemap.unused⟩
  have hwf : WellFormed (unloaded sfs n) usage :=
    wellFormed_congr h.wf hok rfl (fun f hf => h.wf.loaded f (hin hf)) (fun _ => rfl)
      fun f hf => (hkept f hf).sameMap
  refine ⟨h.of_kept hwf hkept ?_ ?_, hkept⟩
  · intro f hf hdirty
    exact h.clean f (hin hf) hdirty
  · intro f hf
    exact h.linked f (hin hf)

end Caching

section Reading

variable {n : Nat}

/-- A read within the file leaves the file system as it is. -/
theorem ioBody_read (h : WellFormed sfs usage) (hin : n ∈ sfs.inodeList)
    (hcovered : (dinOf sfs n).size ≤ (dinOf sfs n).blocks * SFS_BLKSIZE) {buf : Bytes}
    {offset endpos : Nat} (hlt : offset < endpos) (hend : endpos ≤ (dinOf sfs n).size)
    {r : Except Errno (Except Errno Unit × Transfer)}
    (heq : ioBody n offset endpos false buf sfs = .ok (r, sfs')) : sfs' = sfs := by
  have hpieces := @pieces_read sfs usage n offset buf endpos (fun _ _ => False) h hin (by omega)
  have hreading : Reading sfs n buf offset { buf := buf, alen := 0 } sfs :=
    ⟨rfl, fun k hk => absurd hk (Nat.not_lt_zero k), fun _ _ => rfl⟩
  rcases ioPhases_finishes hpieces hreading rfl hlt with
    ⟨io, t, hrun, ⟨rfl, _, _⟩, hdone⟩ | ⟨io, t, _, hfalse⟩
  · rw [ioBody_eq hrun (ioFinish_of_le hin (by omega))] at heq
    cases heq
    rfl
  · exact hfalse.elim

theorem sfsIoNolock_read (h : WellFormed sfs usage) (hin : n ∈ sfs.inodeList)
    (hcovered : (dinOf sfs n).size ≤ (dinOf sfs n).blocks * SFS_BLKSIZE)
    (htype : (sfs.inode n).din.type = SFS_TYPE_FILE) {buf : Bytes} {offset : Int} {alen : Nat}
    {r : Except Errno (Except Errno Unit × Transfer)}
    (heq : sfsIoNolock n buf offset alen false sfs = .ok (r, sfs')) : sfs' = sfs := by
  have hnotDir : (sfs.inode n).din.type ≠ SFS_TYPE_DIR := by
    rw [htype]
    decide
  rw [sfsIoNolock, getState_bind, ensure_bind_of hnotDir] at heq
  split at heq
  · cases heq
    rfl
  next hrange =>
  split at heq
  · cases heq
    rfl
  next hmove =>
  simp only [true_and] at heq
  rcases le_or_gt (sfs.inode n).din.size offset.toNat with hpast | hinside
  · rw [if_pos hpast] at heq
    cases heq
    rfl
  · rw [if_neg (not_le.mpr hinside)] at heq
    have hstart : offset.toNat < if (SFS_MAX_FILE_SIZE : Int) < (offset + alen).bmod (2 ^ 64)
        then SFS_MAX_FILE_SIZE else ((offset + alen).bmod (2 ^ 64)).toNat := by
      split
      · omega
      · omega
    generalize (if (SFS_MAX_FILE_SIZE : Int) < (offset + alen).bmod (2 ^ 64)
      then SFS_MAX_FILE_SIZE else ((offset + alen).bmod (2 ^ 64)).toNat) = endpos at heq hstart
    apply ioBody_read h hin hcovered ?_ ?_ heq
    · split
      · exact hinside
      · exact hstart
    · rw [dinOf_loaded hin]
      split
      · exact le_rfl
      · next hle => exact not_lt.mp hle

/-- Whatever the range is, reading a file does not change the file system. -/
theorem sfsIo_read (h : WellFormed sfs usage) (hin : n ∈ sfs.inodeList)
    (hcovered : (dinOf sfs n).size ≤ (dinOf sfs n).blocks * SFS_BLKSIZE)
    (htype : (sfs.inode n).din.type = SFS_TYPE_FILE) {iob : Iobuf}
    {r : Except Errno (Except Errno Unit × Iobuf)}
    (heq : sfsIo n iob false sfs = .ok (r, sfs')) : sfs' = sfs := by
  rw [sfsIo] at heq
  rcases bind_eq_ok_iff.mp heq with ⟨⟨r', io⟩, t, hrun, hrest⟩ | ⟨e, hrun, _⟩
  · have hsame := sfsIoNolock_read h hin hcovered htype hrun
    subst hsame
    simp only at hrest
    split at hrest
    · rcases bind_eq_ok_iff.mp hrest with ⟨iob', t', hskip, hlast⟩ | ⟨e, hskip, _⟩
      · rw [iobufSkip] at hskip
        rcases bind_eq_ok_iff.mp hskip with ⟨_, t'', hensure, hpure⟩ | ⟨e, hensure, hr⟩
        · cases hlast
          cases hpure
          exact ensure_same hensure
        · cases hr
      · rw [iobufSkip] at hskip
        rcases bind_eq_ok_iff.mp hskip with ⟨_, t'', hensure, hpure⟩ | ⟨e', hensure, hr⟩
        · cases hpure
        · exact ensure_same hensure
    · cases hrest
      rfl
  · exact sfsIoNolock_read h hin hcovered htype hrun

theorem slots_of_wellFormed (h : WellFormed sfs usage) (hin : n ∈ sfs.inodeList)
    (htype : (sfs.inode n).din.type = SFS_TYPE_DIR) :
    Slots sfs n (dinOf sfs n).blocks (slotBlock sfs n) := by
  have hfile := h.loaded n hin
  have hdin : dinOf sfs n = (sfs.inode n).din := dinOf_loaded hin
  constructor
  · exact h.freemap
  · exact htype
  · rw [hdin]
  · intro hfar
    rw [← hdin]
    exact inUse_indirect h hfile (indirect_ne_zero h hfile hfar)
  · intro i hi _
    rw [← hdin]
    exact inUse_data h hfile hi
  · intro i _ _ k _
    rw [← hdin]
    rfl

theorem slots_of_settled (h : Settled usage sfs) (hin : n ∈ sfs.inodeList)
    (htype : (sfs.inode n).din.type = SFS_TYPE_DIR) :
    Slots sfs n (dinOf sfs n).blocks (slotBlock sfs n) :=
  slots_of_wellFormed h.wf hin htype

/-- A search changes nothing, and finds the number of a file in the first slot
with the name. -/
theorem sfsDirentSearchNolock_returns (h : Settled usage sfs) (hin : n ∈ sfs.inodeList)
    (htype : (sfs.inode n).din.type = SFS_TYPE_DIR) {name : CString} {kmalloced : Option Bytes}
    {r : Except Errno (Except Errno DirentAt × Nat)}
    (heq : sfsDirentSearchNolock n name kmalloced sfs = .ok (r, sfs')) :
    sfs' = sfs ∧ ∀ found empty, r = .ok (.ok found, empty) →
      usage.inode found.ino ∧ FirstSlot (dinOf sfs n).blocks (slotBlock sfs n) name found := by
  have hfile := h.wf.loaded n hin
  have hdin : dinOf sfs n = (sfs.inode n).din := dinOf_loaded hin
  rcases Decidable.em (name.length ≤ SFS_MAX_FNAME_LEN) with hlen | hlen
  · cases kmalloced with
    | none =>
        rw [sfsDirentSearchNolock, ensure_bind_of hlen] at heq
        cases heq
        refine ⟨rfl, ?_⟩
        intro found empty hr
        cases hr
    | some entry =>
        rw [sfsDirentSearchNolock, ensure_bind_of hlen] at heq
        simp only [getState_bind, ← hdin] at heq
        obtain ⟨hsame, hfound⟩ := searchFrom_returns (slots_of_settled h hin htype)
          (h.wf.blocks_max n hfile) (Nat.zero_add _)
          (fun j hj => absurd hj (Nat.not_lt_zero j)) heq
        refine ⟨hsame, ?_⟩
        intro found empty hr
        have hslot := hfound found empty hr
        refine ⟨?_, hslot⟩
        rw [← hslot.ino]
        apply h.entries n found.slot hfile
        · rw [hdin, htype]
        · exact hslot.slot_lt
        · rw [hslot.ino]
          exact hslot.ino_ne
  · unfold sfsDirentSearchNolock at heq
    rw [ensure_bind_of_not hlen] at heq
    cases heq

end Reading

end Ucore.SfsSettled
