import Ucore.SfsBlockMapGrow

namespace Ucore.SfsBlockMapShrink

open Ucore.KernelRoutine
open Ucore.ByteBuffer
open Ucore.BlockBitmap
open Ucore.SfsDisk
open Ucore.SfsBlockMap
open Ucore.SfsOwnership
open Ucore.SfsFileViews
open Ucore.SfsBlockMapGrow

section Shrinking

variable {sfs sfs' : SfsFs} {usage : Usage} {ino b : Nat}

/-- The file `ino` has lost the block `b` at its end, and nothing else differs. -/
structure Shrunk (sfs sfs' : SfsFs) (usage : Usage) (ino b : Nat) : Prop where
  wf : WellFormed sfs' usage
  loaded : sfs'.inodeList = sfs.inodeList
  others : ∀ f, usage.inode f → f ≠ ino → Kept sfs sfs' f
  size : (dinOf sfs' ino).size = (dinOf sfs ino).size
  type : (dinOf sfs' ino).type = (dinOf sfs ino).type
  nlinks : (dinOf sfs' ino).nlinks = (dinOf sfs ino).nlinks
  blocks : (dinOf sfs' ino).blocks + 1 = (dinOf sfs ino).blocks
  indirect : (dinOf sfs' ino).indirect = (dinOf sfs ino).indirect
  block : ∀ i, i < maxBlocks →
    fileBlock sfs' ino i = if i = (dinOf sfs' ino).blocks then 0 else fileBlock sfs ino i
  data : ∀ i, i < (dinOf sfs' ino).blocks →
    sfs'.dev.block (fileBlock sfs ino i) = sfs.dev.block (fileBlock sfs ino i)
  count : freeCount sfs' = freeCount sfs + 1

/-- Taking the last block from a file, seen through the block maps. -/
theorem wellFormed_shrink (h : WellFormed sfs usage) (hfile : usage.inode ino) (hok : FreemapOk sfs')
    (hsuper : sfs'.super.blocks = sfs.super.blocks) (hlist : sfs'.inodeList = sfs.inodeList)
    (hbit : ∀ k, sfs'.freemap.bit k = if k = b then true else sfs.freemap.bit k)
    (hothers : ∀ f, usage.inode f → f ≠ ino → Kept sfs sfs' f)
    (hblocks : (dinOf sfs' ino).blocks + 1 = (dinOf sfs ino).blocks)
    (hindirect : (dinOf sfs' ino).indirect = (dinOf sfs ino).indirect)
    (hlast : fileBlock sfs ino (dinOf sfs' ino).blocks = b)
    (hblock : ∀ i, i < maxBlocks →
      fileBlock sfs' ino i = if i = (dinOf sfs' ino).blocks then 0 else fileBlock sfs ino i) :
    WellFormed sfs' usage := by
  have hmax := h.blocks_max ino hfile
  have hheld : Holds sfs usage (.data ino (dinOf sfs' ino).blocks) b := by
    refine ⟨hfile, ?_, hlast.symm⟩
    omega
  constructor
  case freemap => exact hok
  case owns =>
    apply h.owns.release hheld
    · intro o k
      cases o with
      | reserved blkno =>
          simp [Holds]
      | inode f => simp [Holds]
      | indirect f =>
          rcases eq_or_ne f ino with rfl | hother
          · simp [Holds, hindirect]
          · simp only [ne_eq, reduceCtorEq, not_false_eq_true, and_true]
            exact holds_indirect_congr (fun hf => (hothers f hf hother).sameMap) k
      | data f i =>
          rcases eq_or_ne f ino with rfl | hother
          · simp only [Holds, ne_eq, Owner.data.injEq, true_and]
            constructor
            · rintro ⟨hf, hi, heq⟩
              rw [hblock i (by omega), if_neg (by omega)] at heq
              exact ⟨⟨hf, by omega, heq⟩, by omega⟩
            · rintro ⟨⟨hf, hi, heq⟩, hne⟩
              rw [hblock i (by omega), if_neg hne]
              exact ⟨hf, by omega, heq⟩
          · simp only [ne_eq, Owner.data.injEq, hother, false_and, not_false_eq_true, and_true]
            exact holds_data_congr h (fun hf => (hothers f hf hother).sameMap) i k
    · intro k
      rw [InUse, InUse, hsuper, hbit]
      split
      · next heq => simp [heq]
      · next hne => simp [hne]
    · intro k hk
      exact hk.2.2.trans hlast
  case super_reserved => exact h.super_reserved
  case blocks_max =>
    intro f hf
    rcases eq_or_ne f ino with rfl | hother
    · omega
    · rw [(hothers f hf hother).din]
      exact h.blocks_max f hf
  case mapped =>
    intro f i hf hi
    rcases eq_or_ne f ino with rfl | hother
    · rw [hblock i hi]
      split
      · next heq => simp [heq]
      · next hne =>
        rw [h.mapped f i hf hi]
        omega
    · rw [(hothers f hf hother).din, (hothers f hf hother).block i hi]
      exact h.mapped f i hf hi
  case loaded =>
    intro f hf
    exact h.loaded f (by rwa [hlist] at hf)

/-- A file whose inode is replaced by one without the block at its end. -/
theorem shrunk_setInode (h : WellFormed sfs usage) (hin : ino ∈ sfs.inodeList)
    {t : SfsFs} {v : SfsInode} (hok : FreemapOk t) (hsuper : t.super.blocks = sfs.super.blocks)
    (hlist : t.inodeList = sfs.inodeList)
    (hbit : ∀ k, t.freemap.bit k = if k = b then true else sfs.freemap.bit k)
    (hcount : freeCount t = freeCount sfs + 1)
    (hothers : ∀ f, usage.inode f → f ≠ ino → Kept sfs t f)
    (hdata : ∀ i, i < v.din.blocks →
      t.dev.block (fileBlock sfs ino i) = sfs.dev.block (fileBlock sfs ino i))
    (hsize : v.din.size = (dinOf sfs ino).size) (htype : v.din.type = (dinOf sfs ino).type)
    (hnlinks : v.din.nlinks = (dinOf sfs ino).nlinks)
    (hblocks : v.din.blocks + 1 = (dinOf sfs ino).blocks)
    (hindirect : v.din.indirect = (dinOf sfs ino).indirect)
    (hlast : fileBlock sfs ino v.din.blocks = b)
    (hblock : ∀ i, i < maxBlocks → blockAt t.dev.block v.din i =
      if i = v.din.blocks then 0 else fileBlock sfs ino i) :
    Shrunk sfs (t.setInode ino v) usage ino b := by
  have hfile := h.loaded ino hin
  have hin' : ino ∈ t.inodeList := by rwa [hlist]
  have hdin : dinOf (t.setInode ino v) ino = v.din := dinOf_setInode hin' v
  have hkept : ∀ f, usage.inode f → f ≠ ino → Kept sfs (t.setInode ino v) f := by
    intro f hf hother
    exact (hothers f hf hother).trans (kept_setInode hother v) (h.blocks_max f hf)
  have hblock' : ∀ i, i < maxBlocks → fileBlock (t.setInode ino v) ino i =
      if i = v.din.blocks then 0 else fileBlock sfs ino i := by
    intro i hi
    rw [fileBlock_setInode hin', hblock i hi]
  rw [← hdin] at hsize htype hnlinks hblocks hindirect hlast hblock' hdata
  constructor
  case wf =>
    exact wellFormed_shrink h hfile (freemapOk_setInode hok v) hsuper hlist hbit hkept hblocks
      hindirect hlast hblock'
  case loaded => exact hlist
  case others => exact hkept
  case size => exact hsize
  case type => exact htype
  case nlinks => exact hnlinks
  case blocks => exact hblocks
  case indirect => exact hindirect
  case block => exact hblock'
  case data => exact hdata
  case count => exact hcount

theorem kept_freed (f b : Nat) : Kept sfs (freed sfs b) f :=
  ⟨rfl, fun _ _ => rfl, fun _ _ => rfl⟩

theorem freed_bit (sfs : SfsFs) (b k : Nat) :
    (freed sfs b).freemap.bit k = if k = b then true else sfs.freemap.bit k :=
  bit_setBit _ _ _ _

theorem shrunk_direct (h : WellFormed sfs usage) (hin : ino ∈ sfs.inodeList) {n : Nat}
    (hn : n + 1 = (dinOf sfs ino).blocks) (hnear : n < SFS_NDIRECT) (dirty : Bool) :
    Shrunk sfs ((freed sfs (fileBlock sfs ino n)).setInode ino
      { din := { dinOf sfs ino with
          direct := Function.update (dinOf sfs ino).direct n 0
          blocks := n }
        dirty := dirty }) usage ino (fileBlock sfs ino n) := by
  have hfile := h.loaded ino hin
  obtain ⟨hne, huse⟩ := inUse_data h hfile (by omega : n < (dinOf sfs ino).blocks)
  apply shrunk_setInode h hin (freemapOk_freed h.freemap huse.1 hne huse.2) rfl rfl
    (freed_bit sfs _) (freeCount_freed (lt_of_lt_of_le huse.1 h.freemap.blocks_le) huse.2)
    (fun f _ _ => kept_freed f _) (fun _ _ => rfl) rfl rfl rfl hn rfl rfl
  intro i hi
  change _ = if i = n then 0 else blockAt sfs.dev.block (dinOf sfs ino) i
  rcases lt_or_ge i SFS_NDIRECT with hdirect | hindirect
  · rw [blockAt_near hdirect, blockAt_near hdirect]
    split
    · next heq => simp only [heq, Function.update_self]
    · next hother => simp only [ne_eq, hother, not_false_eq_true, Function.update_of_ne]
  · rw [blockAt_far hindirect, blockAt_far hindirect, if_neg (by omega : i ≠ n)]
    rfl

theorem shrunk_indirect (h : WellFormed sfs usage) (hin : ino ∈ sfs.inodeList) {n : Nat}
    (hn : n + 1 = (dinOf sfs ino).blocks) (hfar : SFS_NDIRECT ≤ n) (dirty : Bool) :
    Shrunk sfs ((freed (entered sfs (dinOf sfs ino).indirect (n - SFS_NDIRECT) 0)
        (fileBlock sfs ino n)).setInode ino
      { din := { dinOf sfs ino with blocks := n }
        dirty := dirty }) usage ino (fileBlock sfs ino n) := by
  have hfile := h.loaded ino hin
  have hsome := indirect_ne_zero h hfile (by omega)
  obtain ⟨hne, huse⟩ := inUse_data h hfile (by omega : n < (dinOf sfs ino).blocks)
  have hok : FreemapOk (entered sfs (dinOf sfs ino).indirect (n - SFS_NDIRECT) 0) :=
    freemapOk_setBlock h.freemap _ _
  apply shrunk_setInode h hin (freemapOk_freed hok huse.1 hne huse.2) rfl rfl
    (freed_bit sfs _) (freeCount_freed (lt_of_lt_of_le huse.1 h.freemap.blocks_le) huse.2)
    ?_ ?_ rfl rfl rfl hn rfl rfl ?_
  · intro f hf hother
    have hkept := (avoids_indirect h hf hfile hsome hother).kept_setBlock
      (putWord (sfs.dev.block (dinOf sfs ino).indirect) (n - SFS_NDIRECT) 0)
    exact hkept.trans (kept_freed f _) (h.blocks_max f hf)
  · intro i hi
    have hlt : i < n := hi
    exact setBlock_block_ne (data_ne_indirect h hfile (by omega) hsome) _
  · intro i hi
    have hblock : (freed (entered sfs (dinOf sfs ino).indirect (n - SFS_NDIRECT) 0)
        (fileBlock sfs ino n)).dev.block (dinOf sfs ino).indirect =
        putWord (sfs.dev.block (dinOf sfs ino).indirect) (n - SFS_NDIRECT) 0 :=
      setBlock_block_self _
    change _ = if i = n then 0 else blockAt sfs.dev.block (dinOf sfs ino) i
    rcases lt_or_ge i SFS_NDIRECT with hdirect | hindirect
    · rw [blockAt_near hdirect, blockAt_near hdirect, if_neg (by omega : i ≠ n)]
    · rw [blockAt_far hindirect, blockAt_far hindirect, if_neg hsome, if_neg hsome, hblock,
        getWord_putWord _ _ _ (by decide)]
      rcases eq_or_ne i n with heq | hdiff
      · rw [if_pos (by omega), if_pos heq]
      · rw [if_neg (by omega), if_neg hdiff]

/-- The last block is one of the direct blocks. -/
theorem sfsBmapTruncateNolock_near {n : Nat} (hn : (sfs.inode ino).din.blocks = n + 1)
    (hnear : n < SFS_NDIRECT) (hne : (sfs.inode ino).din.direct n ≠ 0)
    (huse : InUse sfs ((sfs.inode ino).din.direct n)) (hbits : sfs.super.blocks ≤ sfs.freemap.nbits) :
    sfsBmapTruncateNolock ino sfs =
      .ok (.ok (), (freed sfs ((sfs.inode ino).din.direct n)).setInode ino
        { din := { (sfs.inode ino).din with
            direct := Function.update (sfs.inode ino).din.direct n 0
            blocks := n }
          dirty := true }) := by
  have hpos : (sfs.inode ino).din.blocks ≠ 0 := by omega
  have hlast : (sfs.inode ino).din.blocks - 1 = n := by omega
  have hfreed := sfsBlockFree_apply hne huse.1 hbits huse.2
  have hfree : sfsBmapFreeNolock ino n sfs =
      .ok (.ok (), (freed sfs ((sfs.inode ino).din.direct n)).setInode ino
        { din := { (sfs.inode ino).din with
            direct := Function.update (sfs.inode ino).din.direct n 0 }
          dirty := true }) := by
    rw [sfsBmapFreeNolock, getState_bind, if_pos hnear, if_pos hne, bind_of_ok hfreed]
    rfl
  rw [sfsBmapTruncateNolock, getState_bind, ensure_bind_of hpos, hlast, bind_of_ok hfree]
  change Except.ok (Except.ok (), SfsFs.setInode _ ino _) = _
  simp only [setInode_setInode, setInode_inode_self, hlast]

/-- The last block is one of the indirect block `ent`. -/
theorem sfsBmapTruncateNolock_far {n ent : Nat} (hn : (sfs.inode ino).din.blocks = n + 1)
    (hfar : SFS_NDIRECT ≤ n) (hmax : n < maxBlocks) (hent : (sfs.inode ino).din.indirect = ent)
    (hne : ent ≠ 0) (huse : InUse sfs ent) (hbits : sfs.super.blocks ≤ sfs.freemap.nbits) :
    sfsBmapTruncateNolock ino sfs =
      ((do
        let b ← sfsRbuf zeros 0 4 ent ((n - SFS_NDIRECT) * 4)
        if getLE b 0 4 ≠ 0 then
          let _ ← sfsWbuf (wordBytes 0) 0 4 ent ((n - SFS_NDIRECT) * 4)
          sfsBlockFree (getLE b 0 4)
        else
          return ()) >>= fun _ => modifyInode ino fun si => { si with
            din := { si.din with blocks := si.din.blocks - 1 }
            dirty := true } : Routine SfsFs Unit) sfs := by
  have hpos : (sfs.inode ino).din.blocks ≠ 0 := by omega
  have hlast : (sfs.inode ino).din.blocks - 1 = n := by omega
  have hsub := sub_lt_nentry hmax hfar
  have hsome : (sfs.inode ino).din.indirect ≠ 0 := by rwa [hent]
  have hfree : sfsBmapFreeNolock ino n sfs =
      (do
        let b ← sfsRbuf zeros 0 4 ent ((n - SFS_NDIRECT) * 4)
        if getLE b 0 4 ≠ 0 then
          let _ ← sfsWbuf (wordBytes 0) 0 4 ent ((n - SFS_NDIRECT) * 4)
          sfsBlockFree (getLE b 0 4)
        else
          return () : Routine SfsFs Unit) sfs := by
    rw [sfsBmapFreeNolock, getState_bind, if_neg (not_lt.mpr hfar), if_pos hsub, if_pos hsome, hent,
      sfsBmapFreeSubNolock, bind_of_ok (ensureInuse_apply hne huse.1 hbits huse.2),
      ensure_bind_of hsub]
  rw [sfsBmapTruncateNolock, getState_bind, ensure_bind_of hpos, hlast]
  exact bind_apply_congr hfree _

/-- `sfs_bmap_truncate_nolock` takes the last block from a file that has one. -/
theorem sfsBmapTruncateNolock_spec (h : WellFormed sfs usage) (hin : ino ∈ sfs.inodeList)
    {n : Nat} (hn : n + 1 = (dinOf sfs ino).blocks) :
    ∃ sfs', sfsBmapTruncateNolock ino sfs = .ok (.ok (), sfs') ∧
      Shrunk sfs sfs' usage ino (fileBlock sfs ino n) := by
  have hfile := h.loaded ino hin
  have hdin := @dinOf_loaded sfs ino hin
  have hmax := h.blocks_max ino hfile
  have hbits := h.freemap.blocks_le
  obtain ⟨hne, huse⟩ := inUse_data h hfile (by omega : n < (dinOf sfs ino).blocks)
  have hblocks : (sfs.inode ino).din.blocks = n + 1 := by
    rw [← hdin]
    exact hn.symm
  rcases lt_or_ge n SFS_NDIRECT with hnear | hfar
  · have hshrunk := shrunk_direct h hin hn hnear true
    have hblock : fileBlock sfs ino n = (sfs.inode ino).din.direct n := by
      rw [fileBlock, blockAt_near hnear, hdin]
    rw [hblock] at hne huse hshrunk ⊢
    rw [hdin] at hshrunk
    exact ⟨_, sfsBmapTruncateNolock_near hblocks hnear hne huse hbits, hshrunk⟩
  · have hshrunk := shrunk_indirect h hin hn hfar true
    have hsome := indirect_ne_zero h hfile (by omega)
    have huseIndirect := inUse_indirect h hfile hsome
    obtain ⟨hstart, hstop⟩ := word_in_block (sub_lt_nentry (by omega) hfar)
    have hword : getWord (sfs.dev.block (dinOf sfs ino).indirect) (n - SFS_NDIRECT) =
        fileBlock sfs ino n := by
      rw [fileBlock, blockAt_far hfar, if_neg hsome]
    have hread := sfsRbuf_eq h.freemap.steady zeros 0 hsome huseIndirect.1 hstart hstop
    have hwrite := sfsWbuf_eq h.freemap.steady (wordBytes 0) 0 hsome huseIndirect.1 hstart hstop
    rw [copyBytes_wordBytes] at hwrite
    have hfreed := @sfsBlockFree_apply (entered sfs (dinOf sfs ino).indirect (n - SFS_NDIRECT) 0)
      (fileBlock sfs ino n) hne huse.1 hbits huse.2
    have hrun := sfsBmapTruncateNolock_far hblocks hfar (by omega) (congrArg _ hdin.symm) hsome
      huseIndirect hbits
    have hcut : (do
        let b ← sfsRbuf zeros 0 4 (dinOf sfs ino).indirect ((n - SFS_NDIRECT) * 4)
        if getLE b 0 4 ≠ 0 then
          let _ ← sfsWbuf (wordBytes 0) 0 4 (dinOf sfs ino).indirect ((n - SFS_NDIRECT) * 4)
          sfsBlockFree (getLE b 0 4)
        else
          return () : Routine SfsFs Unit) sfs =
        .ok (.ok (), freed (entered sfs (dinOf sfs ino).indirect (n - SFS_NDIRECT) 0)
          (fileBlock sfs ino n)) := by
      rw [bind_of_ok hread, getLE_copyBytes_word, hword, if_pos hne, bind_of_ok hwrite]
      exact hfreed
    refine ⟨_, ?_, hshrunk⟩
    rw [hrun, bind_of_ok hcut]
    change Except.ok (Except.ok (), SfsFs.setInode _ ino
      { din := { (sfs.inode ino).din with blocks := (sfs.inode ino).din.blocks - 1 }
        dirty := true }) = _
    rw [hblocks, hdin]
    rfl

end Shrinking

end Ucore.SfsBlockMapShrink
