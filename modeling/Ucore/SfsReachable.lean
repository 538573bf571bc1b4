import Ucore.SfsSync

/-! The states of a file system from its mount on, whatever the device does. -/

namespace Ucore.SfsReachable

open Ucore.Errors
open Ucore.Panic (Kernel bind_eq_ok_iff kassert_eq_ok_iff)
open Ucore.KernelRoutine
open Ucore.ByteBuffer
open Ucore.BlockBitmap
open Ucore.SfsDisk
open Ucore.SfsMount
open Ucore.SfsBlockMap
open Ucore.SfsOwnership
open Ucore.SfsIo
open Ucore.SfsRuns
open Ucore.SfsSettled
open Ucore.SfsSync
open Ucore.Mksfs (superBytes)

/-- The fields that are not block numbers fit, and there are no more than the
direct blocks. -/
structure InodeFits (din : SfsDiskInode) : Prop where
  size : din.size < 2 ^ 32
  type : din.type < 2 ^ 16
  nlinks : din.nlinks < 2 ^ 16
  rest : ∀ i, SFS_NDIRECT ≤ i → din.direct i = 0

/-- What `sfs_do_mount` establishes. -/
structure Mounted (sfs : SfsFs) : Prop where
  magic : sfs.super.magic = SFS_MAGIC
  info : sfs.super.info SFS_MAX_INFO_LEN = 0
  pos : 0 < sfs.super.blocks
  nbits : sfs.freemap.nbits = sfsFreemapBits sfs.super
  nwords : sfs.freemap.nwords = sfsFreemapBlocks sfs.super * SFS_BLK_NENTRY
  inodes : ∀ f, InodeFits (sfs.inode f).din

section Changes

variable {sfs : SfsFs}

theorem Mounted.onDevice {α : Type} (x : Routine Device α) : Preserves Mounted (onDevice x) := by
  intro s r s' hs heq
  rw [SfsDisk.onDevice] at heq
  cases hrun : x s.dev with
  | error a =>
      rw [hrun] at heq
      cases heq
  | ok p =>
      rw [hrun] at heq
      cases heq
      exact ⟨hs.magic, hs.info, hs.pos, hs.nbits, hs.nwords, hs.inodes⟩

/-- An inode may be replaced by one that fits. -/
theorem Mounted.setInode (h : Mounted sfs) {n : Nat} {v : SfsInode} (hv : InodeFits v.din) :
    Mounted (sfs.setInode n v) := by
  refine ⟨h.magic, h.info, h.pos, h.nbits, h.nwords, ?_⟩
  intro f
  rcases eq_or_ne f n with rfl | hne
  · rw [setInode_inode_self]
    exact hv
  · rw [setInode_inode_ne hne]
    exact h.inodes f

theorem mounted_modifyInode {n : Nat} {g : SfsInode → SfsInode}
    (hg : ∀ si, InodeFits si.din → InodeFits (g si).din) : Preserves Mounted (modifyInode n g) := by
  apply Preserves.modifyState
  intro s hs
  exact hs.setInode (hg _ (hs.inodes n))

theorem InodeFits.setDirect {din : SfsDiskInode} (h : InodeFits din) {i : Nat} (hi : i < SFS_NDIRECT)
    (v : Nat) : InodeFits { din with direct := Function.update din.direct i v } := by
  refine ⟨h.size, h.type, h.nlinks, ?_⟩
  intro j hj
  show Function.update din.direct i v j = 0
  rw [Function.update_of_ne (by omega)]
  exact h.rest j hj

end Changes

section Transfers

theorem mounted_sfsRwblockNolock (buf : Bytes) (pos blkno : Nat) (write check : Bool) :
    Preserves Mounted (sfsRwblockNolock buf pos blkno write check) := by
  apply Preserves.getState
  intro s
  apply Preserves.ensure_bind
  exact Mounted.onDevice _

theorem mounted_sfsRwblock (write : Bool) (nblks : Nat) :
    ∀ buf pos blkno, Preserves Mounted (sfsRwblock buf pos blkno nblks write) := by
  induction nblks with
  | zero =>
      intro buf pos blkno
      exact Preserves.pure _
  | succ nblks ih =>
      intro buf pos blkno
      apply Preserves.bind (mounted_sfsRwblockNolock buf pos blkno write true)
      intro buf'
      exact ih _ _ _

theorem mounted_sfsRbuf (buf : Bytes) (pos len blkno offset : Nat) :
    Preserves Mounted (sfsRbuf buf pos len blkno offset) := by
  apply Preserves.ensure_bind
  apply Preserves.bind (mounted_sfsRwblockNolock _ _ _ _ _)
  intro b
  exact Preserves.pure _

theorem mounted_sfsWbuf (buf : Bytes) (pos len blkno offset : Nat) :
    Preserves Mounted (sfsWbuf buf pos len blkno offset) := by
  apply Preserves.ensure_bind
  apply Preserves.bind (mounted_sfsRwblockNolock _ _ _ _ _)
  intro b
  apply Preserves.bind (mounted_sfsRwblockNolock _ _ _ _ _)
  intro _
  exact Preserves.pure _

theorem mounted_sfsClearBlock (nblks : Nat) :
    ∀ blkno, Preserves Mounted (sfsClearBlock blkno nblks) := by
  induction nblks with
  | zero =>
      intro blkno
      exact Preserves.pure _
  | succ nblks ih =>
      intro blkno
      apply Preserves.bind (mounted_sfsRwblockNolock _ _ _ _ _)
      intro _
      exact ih _

end Transfers

section Blocks

theorem bitmapFree_shape {b b' : Bitmap} {k : Nat} (h : bitmapFree b k = .ok b') :
    b'.nbits = b.nbits ∧ b'.nwords = b.nwords := by
  obtain ⟨⟨word, m⟩, _, hrest⟩ := bind_eq_ok_iff.mp h
  obtain ⟨_, _, hpure⟩ := bind_eq_ok_iff.mp hrest
  cases hpure
  exact ⟨rfl, rfl⟩

theorem mounted_sfsBlockInuse (ino : Nat) : Preserves Mounted (sfsBlockInuse ino) := by
  apply Preserves.getState
  intro s
  apply Preserves.ite
  · refine Preserves.bind (Preserves.lift (bitmapTest s.freemap ino)) ?_
    intro free
    exact Preserves.pure _
  · exact Preserves.abort _

theorem mounted_ensureInuse (ino : Nat) : Preserves Mounted (ensureInuse ino) := by
  apply Preserves.bind (mounted_sfsBlockInuse ino)
  intro inuse
  exact Preserves.ensure

theorem mounted_freemapAlloc : Preserves Mounted freemapAlloc := by
  intro s r s' hs heq
  rw [freemapAlloc] at heq
  rcases bitmapAlloc_spec s.freemap with ⟨hnone, _⟩ | ⟨k, _, _, _, hsome⟩
  · rw [hnone] at heq
    cases heq
    exact hs
  · rw [hsome] at heq
    cases heq
    exact ⟨hs.magic, hs.info, hs.pos, hs.nbits, hs.nwords, hs.inodes⟩

theorem mounted_sfsBlockAlloc : Preserves Mounted sfsBlockAlloc := by
  apply Preserves.bind mounted_freemapAlloc
  intro ino
  apply Preserves.getState
  intro s
  apply Preserves.ensure_bind
  apply Preserves.bind
  · apply Preserves.modifyState
    intro t ht
    exact ⟨ht.magic, ht.info, ht.pos, ht.nbits, ht.nwords, ht.inodes⟩
  intro _
  apply Preserves.bind (mounted_ensureInuse ino)
  intro _
  apply Preserves.bind (mounted_sfsClearBlock 1 ino)
  intro _
  exact Preserves.pure _

theorem mounted_sfsBlockFree (ino : Nat) : Preserves Mounted (sfsBlockFree ino) := by
  apply Preserves.bind (mounted_ensureInuse ino)
  intro _ s r s' hs heq
  rw [getState_bind] at heq
  cases hfree : bitmapFree s.freemap ino with
  | error a =>
      rw [hfree] at heq
      cases heq
  | ok freemap =>
      rw [lift_bind_of_ok hfree] at heq
      cases heq
      obtain ⟨hnbits, hnwords⟩ := bitmapFree_shape hfree
      exact ⟨hs.magic, hs.info, hs.pos, hnbits.trans hs.nbits, hnwords.trans hs.nwords, hs.inodes⟩

theorem mounted_freeNewEntry (entp ent : Nat) (e : Errno) :
    Preserves Mounted (freeNewEntry entp ent e) := by
  apply Preserves.ite
  · apply Preserves.bind (mounted_sfsBlockFree ent)
    intro _
    exact Preserves.fail e
  · exact Preserves.fail e

theorem mounted_addSubBlock (entp ent offset : Nat) :
    Preserves Mounted (addSubBlock entp ent offset) := by
  apply Preserves.attempt_bind mounted_sfsBlockAlloc
  intro r
  cases r with
  | error e => exact mounted_freeNewEntry entp ent e
  | ok ino =>
      apply Preserves.attempt_bind (mounted_sfsWbuf _ _ _ _ _)
      intro r'
      cases r' with
      | error e =>
          apply Preserves.bind (mounted_sfsBlockFree ino)
          intro _
          exact mounted_freeNewEntry entp ent e
      | ok _ => exact Preserves.pure _

theorem mounted_sfsBmapGetSubNolock (entp index : Nat) (create : Bool) :
    Preserves Mounted (sfsBmapGetSubNolock entp index create) := by
  apply Preserves.ensure_bind
  apply Preserves.ite
  · apply Preserves.bind (mounted_sfsRbuf _ _ _ _ _)
    intro b
    apply Preserves.ite
    · exact Preserves.pure _
    · exact mounted_addSubBlock _ _ _
  · apply Preserves.ite
    · exact Preserves.pure _
    · apply Preserves.bind mounted_sfsBlockAlloc
      intro ent
      exact mounted_addSubBlock _ _ _

theorem mounted_bmapGetDirect {sin index : Nat} (hindex : index < SFS_NDIRECT) (create : Bool) :
    Preserves Mounted (bmapGetDirect sin index create) := by
  apply Preserves.getState
  intro s
  apply Preserves.ite
  · apply Preserves.bind mounted_sfsBlockAlloc
    intro ino
    apply Preserves.bind
    · apply mounted_modifyInode
      intro si hsi
      exact hsi.setDirect hindex ino
    · intro _
      exact Preserves.pure _
  · exact Preserves.pure _

theorem mounted_bmapGetIndirect (sin index : Nat) (create : Bool) :
    Preserves Mounted (bmapGetIndirect sin index create) := by
  apply Preserves.getState
  intro s
  apply Preserves.bind (mounted_sfsBmapGetSubNolock _ _ _)
  rintro ⟨ent, ino⟩
  apply Preserves.ite
  · apply Preserves.ensure_bind
    apply Preserves.bind
    · apply mounted_modifyInode
      intro si hsi
      exact ⟨hsi.size, hsi.type, hsi.nlinks, hsi.rest⟩
    · intro _
      exact Preserves.pure _
  · exact Preserves.pure _

theorem mounted_sfsBmapGetNolock (sin index : Nat) (create : Bool) :
    Preserves Mounted (sfsBmapGetNolock sin index create) := by
  apply Preserves.bind
  · rw [bmapGet]
    split
    · next hindex => exact mounted_bmapGetDirect hindex create
    · apply Preserves.ite
      · exact mounted_bmapGetIndirect _ _ _
      · exact Preserves.abort _
  · intro ino
    apply Preserves.ite
    · exact Preserves.pure _
    · apply Preserves.bind (mounted_ensureInuse ino)
      intro _
      exact Preserves.pure _

theorem mounted_sfsBmapFreeSubNolock (ent index : Nat) :
    Preserves Mounted (sfsBmapFreeSubNolock ent index) := by
  apply Preserves.bind (mounted_ensureInuse ent)
  intro _
  apply Preserves.ensure_bind
  apply Preserves.bind (mounted_sfsRbuf _ _ _ _ _)
  intro b
  apply Preserves.ite
  · apply Preserves.bind (mounted_sfsWbuf _ _ _ _ _)
    intro _
    exact mounted_sfsBlockFree _
  · exact Preserves.pure _

theorem mounted_sfsBmapFreeNolock (sin index : Nat) :
    Preserves Mounted (sfsBmapFreeNolock sin index) := by
  apply Preserves.getState
  intro s
  simp only
  split
  · next hindex =>
    apply Preserves.ite
    · apply Preserves.bind (mounted_sfsBlockFree _)
      intro _
      apply mounted_modifyInode
      intro si hsi
      exact hsi.setDirect hindex 0
    · exact Preserves.pure _
  · apply Preserves.ite
    · apply Preserves.ite
      · exact mounted_sfsBmapFreeSubNolock _ _
      · exact Preserves.pure _
    · exact Preserves.pure _

theorem mounted_sfsBmapLoadNolock (sin index : Nat) :
    Preserves Mounted (sfsBmapLoadNolock sin index) := by
  apply Preserves.getState
  intro s
  apply Preserves.ensure_bind
  apply Preserves.bind (mounted_sfsBmapGetNolock _ _ _)
  intro ino
  apply Preserves.bind (mounted_ensureInuse ino)
  intro _
  apply Preserves.ite
  · apply Preserves.bind
    · apply mounted_modifyInode
      intro si hsi
      exact ⟨hsi.size, hsi.type, hsi.nlinks, hsi.rest⟩
    · intro _
      exact Preserves.pure _
  · exact Preserves.pure _

theorem mounted_sfsBmapTruncateNolock (sin : Nat) :
    Preserves Mounted (sfsBmapTruncateNolock sin) := by
  apply Preserves.getState
  intro s
  apply Preserves.ensure_bind
  apply Preserves.bind (mounted_sfsBmapFreeNolock _ _)
  intro _
  apply mounted_modifyInode
  intro si hsi
  exact ⟨hsi.size, hsi.type, hsi.nlinks, hsi.rest⟩

end Blocks

section Files

theorem mounted_ioStep {op : Bytes → Nat → Nat → Routine SfsFs Bytes}
    (hop : ∀ buf pos ino, Preserves Mounted (op buf pos ino)) (sin blkno size : Nat)
    (io : Transfer) : Preserves Mounted (ioStep sin blkno size op io) := by
  apply Preserves.attempt_bind (mounted_sfsBmapLoadNolock sin blkno)
  intro r
  cases r with
  | error e => exact Preserves.pure _
  | ok ino =>
      apply Preserves.attempt_bind (hop _ _ _)
      intro r'
      cases r' with
      | error e => exact Preserves.pure _
      | ok buf => exact Preserves.pure _

theorem mounted_ioPart (sin blkno blkoff size : Nat) (write : Bool) (io : Transfer) :
    Preserves Mounted (ioPart sin blkno blkoff size write io) := by
  apply mounted_ioStep
  intro buf pos ino
  apply Preserves.ite
  · exact mounted_sfsWbuf _ _ _ _ _
  · exact mounted_sfsRbuf _ _ _ _ _

theorem mounted_ioBlocks (sin : Nat) (write : Bool) (nblks : Nat) :
    ∀ blkno io, Preserves Mounted (ioBlocks sin write nblks blkno io) := by
  induction nblks with
  | zero =>
      intro blkno io
      exact Preserves.pure _
  | succ nblks ih =>
      intro blkno io
      apply Preserves.bind
      · apply mounted_ioStep
        intro buf pos ino
        apply Preserves.ite
        · exact mounted_sfsRwblock true 1 _ _ _
        · exact mounted_sfsRwblock false 1 _ _ _
      · rintro ⟨r, io'⟩
        cases r with
        | error e => exact Preserves.pure _
        | ok _ => exact ih (blkno + 1) io'

theorem mounted_ioAligned (sin blkno nblks endpos : Nat) (write : Bool) (io : Transfer) :
    Preserves Mounted (ioAligned sin blkno nblks endpos write io) := by
  apply Preserves.bind (mounted_ioBlocks sin write nblks blkno io)
  rintro ⟨r, io'⟩
  cases r with
  | error e => exact Preserves.pure _
  | ok _ =>
      apply Preserves.ite
      · exact mounted_ioPart _ _ _ _ write io'
      · exact Preserves.pure _

theorem mounted_ioPhases (sin offset endpos : Nat) (write : Bool) (io : Transfer) :
    Preserves Mounted (ioPhases sin offset endpos write io) := by
  apply Preserves.ite
  · apply Preserves.bind (mounted_ioPart _ _ _ _ write io)
    rintro ⟨r, io'⟩
    cases r with
    | error e => exact Preserves.pure _
    | ok _ =>
        apply Preserves.ite
        · exact Preserves.pure _
        · exact mounted_ioAligned _ _ _ _ write io'
  · exact mounted_ioAligned _ _ _ _ write io

theorem mounted_ioFinish (sin offset alen : Nat) : Preserves Mounted (ioFinish sin offset alen) := by
  apply Preserves.getState
  intro s
  apply Preserves.ite
  · apply mounted_modifyInode
    intro si hsi
    exact ⟨Nat.mod_lt _ (by decide), hsi.type, hsi.nlinks, hsi.rest⟩
  · exact Preserves.pure _

theorem mounted_sfsIoNolock (sin : Nat) (buf : Bytes) (offset : Int) (alen : Nat) (write : Bool) :
    Preserves Mounted (sfsIoNolock sin buf offset alen write) := by
  apply Preserves.getState
  intro s
  apply Preserves.ensure_bind
  apply Preserves.ite
  · exact Preserves.pure _
  apply Preserves.ite
  · exact Preserves.pure _
  apply Preserves.ite
  · exact Preserves.pure _
  apply Preserves.bind (mounted_ioPhases _ _ _ write _)
  rintro ⟨r, io⟩
  apply Preserves.bind (mounted_ioFinish _ _ _)
  intro _
  exact Preserves.pure _

theorem mounted_sfsIo (sin : Nat) (iob : Iobuf) (write : Bool) :
    Preserves Mounted (sfsIo sin iob write) := by
  apply Preserves.bind (mounted_sfsIoNolock _ _ _ _ write)
  rintro ⟨r, io⟩
  apply Preserves.ite
  · apply Preserves.bind
    · apply Preserves.ensure_bind
      exact Preserves.pure _
    · intro iob'
      exact Preserves.pure _
  · exact Preserves.pure _

theorem mounted_truncGrow (sin n : Nat) : ∀ nblks, Preserves Mounted (truncGrow sin n nblks) := by
  induction n with
  | zero =>
      intro nblks
      exact Preserves.pure _
  | succ n ih =>
      intro nblks
      apply Preserves.bind (mounted_sfsBmapLoadNolock sin nblks)
      intro _
      exact ih (nblks + 1)

theorem mounted_truncShrink (sin n : Nat) : Preserves Mounted (truncShrink sin n) := by
  induction n with
  | zero => exact Preserves.pure _
  | succ n ih =>
      apply Preserves.bind (mounted_sfsBmapTruncateNolock sin)
      intro _
      exact ih

theorem mounted_sfsTruncfile (sin : Nat) (len : Int) : Preserves Mounted (sfsTruncfile sin len) := by
  rw [sfsTruncfile]
  split
  · exact Preserves.fail _
  next hlen =>
  apply Preserves.getState
  intro s
  apply Preserves.ite
  · exact Preserves.ensure
  · apply Preserves.bind
    · apply Preserves.getState
      intro t
      apply Preserves.ite
      · exact mounted_truncGrow _ _ _
      · exact mounted_truncShrink _ _
    · intro _
      apply Preserves.getState
      intro t
      apply Preserves.ensure_bind
      apply mounted_modifyInode
      intro si hsi
      unfold SFS_MAX_FILE_SIZE at hlen
      refine ⟨?_, hsi.type, hsi.nlinks, hsi.rest⟩
      show len.toNat < 2 ^ 32
      omega

theorem mounted_sfsFsync (sin : Nat) : Preserves Mounted (sfsFsync sin) := by
  apply Preserves.getState
  intro s
  have hmark : ∀ dirty, Preserves Mounted (modifyInode sin fun si => { si with dirty := dirty }) :=
    fun dirty => mounted_modifyInode fun si hsi => hsi
  apply Preserves.ite
  · apply Preserves.bind (hmark false)
    intro _
    apply Preserves.attempt_bind (mounted_sfsWbuf _ _ _ _ _)
    intro r
    cases r with
    | error e =>
        apply Preserves.bind (hmark true)
        intro _
        exact Preserves.fail e
    | ok _ => exact Preserves.pure _
  · exact Preserves.pure _

theorem inodeFits_loadDiskInode (b : Bytes) : InodeFits (loadDiskInode b) where
  size := getLE_lt b 4 0
  type := getLE_lt b 2 4
  nlinks := getLE_lt b 2 6
  rest _ hi := if_neg (not_lt.mpr hi)

theorem mounted_sfsLoadInode (ino : Nat) : Preserves Mounted (sfsLoadInode ino) := by
  apply Preserves.getState
  intro s
  apply Preserves.ite
  · exact Preserves.pure _
  apply Preserves.bind (mounted_ensureInuse ino)
  intro _
  apply Preserves.bind (mounted_sfsRbuf _ _ _ _ _)
  intro b
  apply Preserves.ensure_bind
  apply Preserves.modifyState
  intro t ht
  have hset := ht.setInode (n := ino) (v := { din := loadDiskInode b, dirty := false })
    (inodeFits_loadDiskInode b)
  exact ⟨hset.magic, hset.info, hset.pos, hset.nbits, hset.nwords, hset.inodes⟩

theorem mounted_routine (op : FileOp) : Preserves Mounted op.routine := by
  cases op with
  | load ino => exact mounted_sfsLoadInode ino
  | io ino iob write =>
      apply Preserves.bind (mounted_sfsIo ino iob write)
      intro _
      exact Preserves.pure _
  | truncfile ino len => exact mounted_sfsTruncfile ino len
  | fsync ino => exact mounted_sfsFsync ino

end Files

section Syncs

theorem mounted_syncInodes (l : List Nat) : Preserves Mounted (syncInodes l) := by
  induction l with
  | nil => exact Preserves.pure _
  | cons n rest ih =>
      apply Preserves.attempt_bind (mounted_sfsFsync n)
      intro _
      exact ih

theorem mounted_setSuperDirty (dirty : Bool) : Preserves Mounted (setSuperDirty dirty) := by
  apply Preserves.modifyState
  intro s hs
  exact ⟨hs.magic, hs.info, hs.pos, hs.nbits, hs.nwords, hs.inodes⟩

theorem mounted_syncSuper : Preserves Mounted syncSuper := by
  have hfailed : ∀ e, Preserves Mounted (do setSuperDirty true; fail e : Routine SfsFs Unit) := by
    intro e
    apply Preserves.bind (mounted_setSuperDirty true)
    intro _
    exact Preserves.fail e
  apply Preserves.bind (mounted_setSuperDirty false)
  intro _
  apply Preserves.attempt_bind
  · apply Preserves.getState
    intro s
    apply Preserves.bind (mounted_sfsRwblockNolock _ _ _ _ _)
    intro _
    exact Preserves.pure _
  intro r
  cases r with
  | error e => exact hfailed e
  | ok _ =>
      apply Preserves.attempt_bind
      · apply Preserves.getState
        intro s
        apply Preserves.bind (mounted_sfsRwblock true _ _ _ _)
        intro _
        exact Preserves.pure _
      intro r'
      cases r' with
      | error e => exact hfailed e
      | ok _ => exact Preserves.pure _

theorem mounted_sfsSync : Preserves Mounted sfsSync := by
  apply Preserves.getState
  intro s
  apply Preserves.bind (mounted_syncInodes _)
  intro _
  apply Preserves.getState
  intro t
  apply Preserves.ite
  · exact mounted_syncSuper
  · exact Preserves.pure _

end Syncs

section Mounting

theorem lift_eq_ok {σ α : Type} {x : Kernel α} {a : α} {s s' : σ}
    (h : lift x s = .ok (.ok a, s')) : x = .ok a ∧ s' = s := by
  cases x with
  | error abort => cases h
  | ok b =>
      cases h
      exact ⟨rfl, rfl⟩

theorem bitmapCreate_shape {kmalloc : Nat → Bool} {n : Nat} {b : Bitmap}
    (h : bitmapCreate kmalloc n = .ok (some b)) :
    n ≠ 0 ∧ b.nbits = n ∧ b.nwords = (n + WORD_BITS - 1) / WORD_BITS := by
  rw [bitmapCreate] at h
  obtain ⟨_, hassert, hrest⟩ := bind_eq_ok_iff.mp h
  have hn := (kassert_eq_ok_iff.mp hassert).1
  simp only at hrest
  split at hrest
  · cases hrest
  split at hrest
  · cases hrest
  split at hrest
  · obtain ⟨_, _, hlast⟩ := bind_eq_ok_iff.mp hrest
    obtain ⟨_, _, hpure⟩ := bind_eq_ok_iff.mp hlast
    cases hpure
    exact ⟨hn, rfl, rfl⟩
  · cases hrest
    exact ⟨hn, rfl, rfl⟩

theorem readFreemap_shape {nblks : Nat} : ∀ {freemap freemap' : Bitmap} {blkno word : Nat}
    {dev dev' : Device}, readFreemap freemap blkno word nblks dev = .ok (.ok freemap', dev') →
      freemap'.nbits = freemap.nbits ∧ freemap'.nwords = freemap.nwords := by
  induction nblks with
  | zero =>
      intro freemap freemap' blkno word dev dev' h
      cases h
      exact ⟨rfl, rfl⟩
  | succ nblks ih =>
      intro freemap freemap' blkno word dev dev' h
      rcases KernelRoutine.bind_eq_ok_iff.mp h with ⟨b, t, _, hrest⟩ | ⟨e, _, hr⟩
      · have hsame := ih hrest
        exact hsame
      · cases hr

theorem mounted_of_mountFreemap {kmalloc : Nat → Bool} {super : SfsSuper}
    (hmagic : super.magic = SFS_MAGIC) {dev dev' : Device} {sfs : SfsFs}
    (h : mountFreemap kmalloc super dev = .ok (.ok sfs, dev')) : Mounted sfs := by
  rcases KernelRoutine.bind_eq_ok_iff.mp h with ⟨created, t, hlift, hrest⟩ | ⟨e, _, hr⟩
  swap
  · cases hr
  obtain ⟨hcreate, rfl⟩ := lift_eq_ok hlift
  cases created with
  | none => cases hrest
  | some freemap =>
      obtain ⟨hbits, hnbits, hnwords⟩ := bitmapCreate_shape hcreate
      rcases KernelRoutine.bind_eq_ok_iff.mp hrest with ⟨freemap', t', hread, hcount⟩ | ⟨e, _, hr⟩
      swap
      · cases hr
      rcases KernelRoutine.bind_eq_ok_iff.mp hread with ⟨_, t₁, _, hloop⟩ | ⟨e, _, hr⟩
      swap
      · cases hr
      obtain ⟨hsame, hsame'⟩ := readFreemap_shape hloop
      rcases KernelRoutine.bind_eq_ok_iff.mp hcount with ⟨unused, t₂, _, hassert⟩ | ⟨e, _, hr⟩
      swap
      · cases hr
      rcases KernelRoutine.bind_eq_ok_iff.mp hassert with ⟨_, t₃, _, hlast⟩ | ⟨e, _, hr⟩
      swap
      · cases hr
      cases hlast
      have hpos : super.blocks ≠ 0 := by
        intro hzero
        rw [sfsFreemapBits, hzero] at hbits
        exact hbits rfl
      have hwords : (sfsFreemapBits super + WORD_BITS - 1) / WORD_BITS =
          sfsFreemapBlocks super * SFS_BLK_NENTRY := by
        unfold sfsFreemapBits sfsFreemapBlocks SFS_BLK_NENTRY SFS_BLKBITS SFS_BLKSIZE WORD_BITS
        omega
      constructor
      · exact hmagic
      · show Function.update super.info SFS_MAX_INFO_LEN 0 SFS_MAX_INFO_LEN = 0
        rw [Function.update_self]
      · exact Nat.pos_of_ne_zero hpos
      · exact hsame.trans hnbits
      · exact (hsame'.trans hnwords).trans hwords
      · intro f
        exact ⟨Nat.two_pow_pos 32, Nat.two_pow_pos 16, Nat.two_pow_pos 16, fun _ _ => rfl⟩

theorem mounted_of_sfsDoMount {kmalloc : Nat → Bool} {dev dev' : Device} {sfs : SfsFs}
    (h : sfsDoMount kmalloc dev = .ok (.ok sfs, dev')) : Mounted sfs := by
  rw [sfsDoMount] at h
  split at h
  · cases h
  rcases KernelRoutine.bind_eq_ok_iff.mp h with ⟨b, t, _, hrest⟩ | ⟨e, _, hr⟩
  swap
  · cases hr
  rw [getState_bind] at hrest
  split at hrest
  · cases hrest
  next hmagic =>
  split at hrest
  · cases hrest
  split at hrest
  · cases hrest
  · exact mounted_of_mountFreemap (not_not.mp hmagic) hrest

/-- The file systems that the kernel can get to from a mount, with any failures of
the device. Freeing a block and forgetting an inode are parts of `sfs_reclaim`. -/
inductive Reachable : SfsFs → Prop
  | mount {kmalloc : Nat → Bool} {dev dev' : Device} {sfs : SfsFs} :
      sfsDoMount kmalloc dev = .ok (.ok sfs, dev') → Reachable sfs
  | file {sfs sfs' : SfsFs} {op : FileOp} {r : Except Errno Unit} :
      Reachable sfs → op.routine sfs = .ok (r, sfs') → Reachable sfs'
  | free {sfs sfs' : SfsFs} {ino : Nat} {r : Except Errno Unit} :
      Reachable sfs → sfsBlockFree ino sfs = .ok (r, sfs') → Reachable sfs'
  | forget {sfs : SfsFs} (ino : Nat) :
      Reachable sfs → Reachable { sfs with inodeList := sfs.inodeList.erase ino }
  | sync {sfs sfs' : SfsFs} {r : Except Errno Unit} :
      Reachable sfs → sfsSync sfs = .ok (r, sfs') → Reachable sfs'

theorem mounted_of_reachable {sfs : SfsFs} (h : Reachable sfs) : Mounted sfs := by
  induction h with
  | mount hmount => exact mounted_of_sfsDoMount hmount
  | @file sfs sfs' op r _ hrun ih => exact mounted_routine op sfs r sfs' ih hrun
  | @free sfs sfs' ino r _ hrun ih => exact mounted_sfsBlockFree ino sfs r sfs' ih hrun
  | forget ino _ ih => exact ⟨ih.magic, ih.info, ih.pos, ih.nbits, ih.nwords, ih.inodes⟩
  | @sync sfs sfs' r _ hrun ih => exact mounted_sfsSync sfs r sfs' ih hrun

/-- The block numbers of an inode fit because it owns the blocks. -/
theorem fits_of_wellFormed {sfs : SfsFs} {usage : Usage} (h : WellFormed sfs usage)
    (hmounted : Mounted sfs) {f : Nat} (hin : f ∈ sfs.inodeList) : Fits (sfs.inode f).din := by
  have hfile := h.loaded f hin
  have hdin : dinOf sfs f = (sfs.inode f).din := dinOf_loaded hin
  have hsmall : sfs.super.blocks ≤ 2 ^ 20 :=
    le_trans h.freemap.steady.blocks_le sfs.dev.dBlocks_le
  have hmax := h.blocks_max f hfile
  have hinode := hmounted.inodes f
  rw [← hdin] at hinode ⊢
  constructor
  · exact hinode.size
  · exact hinode.type
  · exact hinode.nlinks
  · unfold maxBlocks SFS_NDIRECT SFS_BLK_NENTRY SFS_BLKSIZE at hmax
    omega
  · intro i hi
    have hmaxi : i < maxBlocks := by
      unfold maxBlocks
      omega
    have hmapped := h.mapped f i hfile hmaxi
    rw [fileBlock, blockAt_near hi] at hmapped
    rcases eq_or_ne ((dinOf sfs f).direct i) 0 with hzero | hne
    · omega
    · have huse := (inUse_data h hfile (hmapped.mp hne)).2.1
      rw [fileBlock, blockAt_near hi] at huse
      omega
  · exact hinode.rest
  · rcases eq_or_ne (dinOf sfs f).indirect 0 with hzero | hne
    · omega
    · have huse := (inUse_indirect h hfile hne).1
      omega

/-- After `sfs_sync` a mount finds the file system that was in memory, and a second
`sfs_sync` writes nothing. -/
theorem sfsSync_round_trip {sfs : SfsFs} {files : Nat → Prop} (hreach : Reachable sfs)
    (hwf : WellFormed sfs (imageUsage sfs.super files)) (hclean : CleanOnDisk sfs)
    (hsuper : sfs.superDirty = false → SuperOnDisk sfs) :
    ∃ sfs', sfsSync sfs = .ok (.ok (), sfs') ∧
      (∀ kmalloc : Nat → Bool, (∀ n, kmalloc n = true) →
        ∃ sfs'', sfsDoMount kmalloc sfs'.dev = .ok (.ok sfs'', sfs'.dev) ∧
          SameFs (imageUsage sfs.super files) sfs sfs'') ∧
      sfsSync sfs' = .ok (.ok (), sfs') := by
  have hmounted := mounted_of_reachable hreach
  have hmagic : sfs.super.magic < 2 ^ 32 := by
    rw [hmounted.magic]
    decide
  obtain ⟨sfs', hrun, hsynced⟩ := sfsSync_synced hwf hclean hsuper
    (fun f hf => fits_of_wellFormed hwf hmounted hf) hmounted.pos hmagic hmounted.nwords
    (le_of_eq hmounted.nbits)
  refine ⟨sfs', hrun, ?_, sfsSync_again hsynced⟩
  intro kmalloc hmalloc
  exact sfsDoMount_synced hwf hsynced hmounted.pos hmounted.magic hmounted.info hmounted.nwords
    hmalloc

end Mounting

section Tiny

def tinySuper : SfsSuper where
  magic := SFS_MAGIC
  blocks := 4
  unusedBlocks := 1
  info := fun _ => 0

/-- An empty root directory. -/
def tinyRoot : SfsDiskInode where
  size := 0
  type := SFS_TYPE_DIR
  nlinks := 1
  blocks := 0
  direct := fun _ => 0
  indirect := 0

/-- Four blocks, of which the last is free. -/
def tinyDevice : Device where
  dBlocks := 4
  dBlocks_le := by decide
  block := fun n =>
    if n = SFS_BLKN_SUPER then superBytes tinySuper
    else if n = SFS_BLKN_ROOT then diskInodeBytes tinyRoot
    else if n = SFS_BLKN_FREEMAP then putWord zeros 0 8
    else zeros
  faults := fun _ => none

theorem diskBit_tinyDevice {k : Nat} (hk : k < SFS_BLKBITS) :
    diskBit tinyDevice.block k = true ↔ k = 3 := by
  have hblock : tinyDevice.block (SFS_BLKN_FREEMAP + k / SFS_BLKBITS) = putWord zeros 0 8 := by
    rw [Nat.div_eq_of_lt hk]
    rfl
  rw [diskBit, hblock, getWord_putWord _ _ _ (by decide), Nat.mod_eq_of_lt hk]
  rcases eq_or_ne (k / WORD_BITS) 0 with hzero | hne
  · rw [if_pos hzero, show (8 : Nat) = 2 ^ 3 from rfl, Nat.testBit_two_pow]
    unfold WORD_BITS at hzero ⊢
    simp only [decide_eq_true_eq]
    omega
  · rw [if_neg hne, getWord_zeros, Nat.zero_testBit]
    unfold WORD_BITS at hne
    simp only [Bool.false_eq_true, false_iff]
    omega

theorem count_tinyDevice :
    Nat.count (fun k => diskBit tinyDevice.block k = true) SFS_BLKBITS = 1 := by
  rw [Nat.count_eq_card_filter_range, Finset.card_eq_one]
  refine ⟨3, ?_⟩
  ext k
  rw [Finset.mem_filter, Finset.mem_range, Finset.mem_singleton]
  constructor
  · rintro ⟨hk, hbit⟩
    exact (diskBit_tinyDevice hk).mp hbit
  · rintro rfl
    have hk : 3 < SFS_BLKBITS := by decide
    exact ⟨hk, (diskBit_tinyDevice hk).mpr rfl⟩

theorem loadSuper_tinyDevice : (loadSuper (tinyDevice.block SFS_BLKN_SUPER)).magic = SFS_MAGIC ∧
    (loadSuper (tinyDevice.block SFS_BLKN_SUPER)).blocks = 4 ∧
    (loadSuper (tinyDevice.block SFS_BLKN_SUPER)).unusedBlocks = 1 ∧
    ∀ k, k ≤ SFS_MAX_INFO_LEN → (loadSuper (tinyDevice.block SFS_BLKN_SUPER)).info k = 0 :=
  @loadSuper_superBytes tinySuper (by decide) (by decide) (by decide)

/-- A file system that has been mounted from the four blocks. -/
structure TinyMount (sfs : SfsFs) : Prop where
  reachable : Reachable sfs
  blocks : sfs.super.blocks = 4
  unused : sfs.super.unusedBlocks = 1
  onDisk : SuperOnDisk sfs
  dev : sfs.dev = tinyDevice
  bit : ∀ k, k < SFS_BLKBITS → (sfs.freemap.bit k = true ↔ k = 3)
  loaded : sfs.inodeList = []

theorem exists_tinyMount : ∃ sfs, TinyMount sfs := by
  obtain ⟨hm, hb, hu, hi⟩ := loadSuper_tinyDevice
  obtain ⟨hm', hb', hu', hi'⟩ := @loadSuper_congr
    (copyBytes zeros 0 (tinyDevice.block SFS_BLKN_SUPER) 0 SFS_BLKSIZE)
    (tinyDevice.block SFS_BLKN_SUPER) (by
      intro k hk
      have hlt : k < 0 + SFS_BLKSIZE := lt_trans hk (by decide)
      rw [copyBytes_of_mem (Nat.zero_le k) hlt]
      congr 1
      omega)
  rw [hm] at hm'
  rw [hb] at hb'
  rw [hu] at hu'
  generalize hsuper : loadSuper (copyBytes zeros 0 (tinyDevice.block SFS_BLKN_SUPER) 0
    SFS_BLKSIZE) = super at hm' hb' hu' hi'
  have hbits : sfsFreemapBits super = SFS_BLKBITS := by
    rw [sfsFreemapBits, hb']
    rfl
  have hnblks : sfsFreemapBlocks super = 1 := by
    rw [sfsFreemapBlocks, hb']
    rfl
  obtain ⟨freemap, hrun, hnbits, _, hbit⟩ := @sfsDoMount_mounted tinyDevice (fun _ => rfl)
    (fun _ => true) (fun _ => rfl) super hsuper hm' (by rw [hb']; decide)
    (by rw [hb']; decide) (by rw [hnblks]; decide) (by rw [hu', hbits]; exact count_tinyDevice.symm)
  rw [hbits] at hnbits hbit
  refine ⟨mounted super tinyDevice freemap, .mount hrun, hb', hu', ?_, rfl, ?_, rfl⟩
  · refine ⟨hm.trans hm'.symm, hb.trans hb'.symm, hu.trans hu'.symm, ?_, ?_⟩
    · intro k hk
      show _ = Function.update super.info SFS_MAX_INFO_LEN 0 k
      rcases eq_or_ne k SFS_MAX_INFO_LEN with rfl | hne
      · rw [Function.update_self]
        exact hi _ hk
      · rw [Function.update_of_ne hne, hi' k hk]
        rfl
    · intro k hk
      exact (hbit k (lt_of_lt_of_eq hk hnbits)).symm
  · intro k hk
    show freemap.bit k = true ↔ _
    rw [hbit k hk]
    exact diskBit_tinyDevice hk

theorem dinOf_tinyMount {sfs : SfsFs} (h : TinyMount sfs) : dinOf sfs SFS_BLKN_ROOT = tinyRoot := by
  rw [dinOf, if_neg (by rw [h.loaded]; exact List.not_mem_nil), h.dev]
  exact loadDiskInode_diskInodeBytes (by decide) (by decide) (by decide) (by decide)
    (fun _ _ => Nat.two_pow_pos 32) (fun _ _ => rfl) (by decide)

def tinyUsage (sfs : SfsFs) : Usage :=
  imageUsage sfs.super fun f => f = SFS_BLKN_ROOT

theorem reserved_tinyMount {sfs : SfsFs} (h : TinyMount sfs) (k : Nat) :
    (tinyUsage sfs).reserved k ↔ k = 0 ∨ k = 2 := by
  have hnblks : sfsFreemapBlocks sfs.super = 1 := by
    rw [sfsFreemapBlocks, h.blocks]
    rfl
  show k = 0 ∨ 2 ≤ k ∧ k < 2 + sfsFreemapBlocks sfs.super ↔ _
  rw [hnblks]
  omega

theorem holds_tinyMount {sfs : SfsFs} (h : TinyMount sfs) (o : Owner) (b : Nat) :
    Holds sfs (tinyUsage sfs) o b ↔ o = .reserved b ∧ (b = 0 ∨ b = 2) ∨ o = .inode b ∧ b = 1 := by
  have hdin := dinOf_tinyMount h
  cases o with
  | reserved k =>
      simp only [Holds, reserved_tinyMount h, Owner.reserved.injEq, reduceCtorEq, false_and, or_false]
      omega
  | inode f =>
      show f = 1 ∧ b = f ↔ _
      simp only [Owner.inode.injEq, reduceCtorEq, false_and, false_or]
      omega
  | indirect f =>
      simp only [Holds, reduceCtorEq, false_and, or_self, iff_false]
      rintro ⟨rfl, hne, _⟩
      rw [hdin] at hne
      exact hne rfl
  | data f i =>
      simp only [Holds, reduceCtorEq, false_and, or_self, iff_false]
      rintro ⟨rfl, hi, _⟩
      rw [hdin] at hi
      exact absurd hi (Nat.not_lt_zero i)

theorem inUse_tinyMount {sfs : SfsFs} (h : TinyMount sfs) (b : Nat) :
    InUse sfs b ↔ b < 3 := by
  have hsmall : (4 : Nat) < SFS_BLKBITS := by decide
  rw [InUse, h.blocks]
  constructor
  · rintro ⟨hlt, hused⟩
    by_contra hge
    rw [(h.bit b (by omega)).mpr (by omega)] at hused
    cases hused
  · intro hlt
    refine ⟨by omega, ?_⟩
    rw [Bool.eq_false_iff]
    intro hfree
    have := (h.bit b (by omega)).mp hfree
    omega

theorem wellFormed_tinyMount {sfs : SfsFs} (h : TinyMount sfs) :
    WellFormed sfs (tinyUsage sfs) := by
  have hmounted := mounted_of_reachable h.reachable
  have hbits : sfs.freemap.nbits = SFS_BLKBITS := by
    rw [hmounted.nbits, sfsFreemapBits, h.blocks]
    rfl
  have hsmall : (4 : Nat) < SFS_BLKBITS := by decide
  constructor
  · constructor
    · refine ⟨?_, ?_⟩
      · rw [h.dev]
        exact fun _ => rfl
      · rw [h.blocks, h.dev]
        exact le_rfl
    · rw [hbits, hmounted.nwords, sfsFreemapBlocks, h.blocks]
      decide
    · rw [h.blocks, hbits]
      decide
    · intro b hb hfree
      rw [hbits] at hb
      rw [h.blocks, (h.bit b hb).mp hfree]
      decide
    · exact ((inUse_tinyMount h 0).mpr (by decide)).2
    · have hcount : freeCount sfs =
          Nat.count (fun k => diskBit tinyDevice.block k = true) SFS_BLKBITS := by
        rw [freeCount, hbits, Nat.count_eq_card_filter_range, Nat.count_eq_card_filter_range]
        apply congrArg Finset.card
        apply Finset.filter_congr
        intro k hk
        rw [h.bit k (Finset.mem_range.mp hk), diskBit_tinyDevice (Finset.mem_range.mp hk)]
      rw [h.unused, hcount, count_tinyDevice]
  · constructor
    · intro o o' k ho ho'
      rw [holds_tinyMount h] at ho ho'
      rcases ho with ⟨rfl, hk⟩ | ⟨rfl, hk⟩ <;> rcases ho' with ⟨rfl, hk'⟩ | ⟨rfl, hk'⟩ <;>
        first | rfl | omega
    · intro o k ho
      rw [holds_tinyMount h] at ho
      exact (inUse_tinyMount h k).mpr (by omega)
    · intro k hk
      have hlt := (inUse_tinyMount h k).mp hk
      have hcases : (k = 0 ∨ k = 2) ∨ k = 1 := by omega
      rcases hcases with hmeta | hinode
      · exact ⟨.reserved k, (holds_tinyMount h _ k).mpr (Or.inl ⟨rfl, hmeta⟩)⟩
      · exact ⟨.inode k, (holds_tinyMount h _ k).mpr (Or.inr ⟨rfl, hinode⟩)⟩
  · exact (reserved_tinyMount h SFS_BLKN_SUPER).mpr (Or.inl rfl)
  · rintro f rfl
    rw [dinOf_tinyMount h]
    exact Nat.zero_le _
  · rintro f i rfl hi
    rw [fileBlock, dinOf_tinyMount h]
    show (blockAt sfs.dev.block tinyRoot i ≠ 0) ↔ i < 0
    have hzero : blockAt sfs.dev.block tinyRoot i = 0 := by
      rw [blockAt]
      split
      · rfl
      · rfl
    rw [hzero]
    simp
  · intro f hf
    rw [h.loaded] at hf
    cases hf

/-- The root of the four blocks is loaded before `sfs_sync`. -/
theorem sfsSync_round_trip_tinyMount : ∃ sfs sfs' : SfsFs, sfs.inodeList = [SFS_BLKN_ROOT] ∧
    sfsSync sfs = .ok (.ok (), sfs') ∧ sfsSync sfs' = .ok (.ok (), sfs') := by
  obtain ⟨sfs, h⟩ := exists_tinyMount
  have hwf := wellFormed_tinyMount h
  have hroot : (tinyUsage sfs).inode SFS_BLKN_ROOT := rfl
  have hout : SFS_BLKN_ROOT ∉ sfs.inodeList := by
    rw [h.loaded]
    exact List.not_mem_nil
  have hload : sfsLoadInode SFS_BLKN_ROOT sfs = .ok (.ok (), withLoaded sfs SFS_BLKN_ROOT) := by
    rw [sfsLoadInode_eq hwf hroot hout, dinOf_tinyMount h]
    rfl
  have hreach : Reachable (withLoaded sfs SFS_BLKN_ROOT) :=
    @Reachable.file sfs _ (.load SFS_BLKN_ROOT) _ h.reachable hload
  have hwf' : WellFormed (withLoaded sfs SFS_BLKN_ROOT) (tinyUsage sfs) :=
    wellFormed_withLoaded hwf hroot
  have hclean : CleanOnDisk (withLoaded sfs SFS_BLKN_ROOT) := by
    intro f hf _
    have hlist : (withLoaded sfs SFS_BLKN_ROOT).inodeList = [SFS_BLKN_ROOT] := by
      rw [withLoaded, h.loaded]
    rw [hlist] at hf
    rw [List.mem_singleton.mp hf]
    have hself : (withLoaded sfs SFS_BLKN_ROOT).inode SFS_BLKN_ROOT =
        { din := dinOf sfs SFS_BLKN_ROOT, dirty := false } :=
      Function.update_self SFS_BLKN_ROOT _ sfs.inode
    rw [hself, dinOf, if_neg hout]
    rfl
  obtain ⟨sfs', hsync, _, hagain⟩ := sfsSync_round_trip hreach hwf' hclean fun _ =>
    ⟨h.onDisk.magic, h.onDisk.blocks, h.onDisk.unused, h.onDisk.info, h.onDisk.freemap⟩
  exact ⟨withLoaded sfs SFS_BLKN_ROOT, sfs', by rw [withLoaded, h.loaded], hsync, hagain⟩

end Tiny

end Ucore.SfsReachable
