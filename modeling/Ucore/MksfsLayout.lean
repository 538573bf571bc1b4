import Ucore.Mksfs

namespace Ucore.MksfsLayout

open Ucore.Panic
open Ucore.ByteBuffer
open Ucore.CStrings
open Ucore.SfsDisk
open Ucore.Mksfs

/-- What the image builder does with one object of the tree it stores. -/
inductive Op where
  | addInode (real type : Nat)
  | storeBlock (file : Nat) (buffer : Bytes) (len : Nat)
  | addEntry (current file : Nat) (name : CString)

def perform (sfs : ImageFs) : Op → Kernel ImageFs
  | .addInode real type => do
      let (_, sfs) ← allocCacheInode sfs real 0 type
      return sfs
  | .storeBlock file buffer len => storeBlock sfs file buffer len
  | .addEntry current file name => addEntry sfs current file name

/-- The pointers of an operation point to cached inodes. -/
def Valid (sfs : ImageFs) : Op → Prop
  | .addInode _ _ => True
  | .storeBlock file _ _ => file < sfs.inodeCount
  | .addEntry current file _ => current < sfs.inodeCount ∧ file < sfs.inodeCount

/-- The block numbers that `append_block` has received for each file, in order. -/
abbrev History := Nat → List Nat

def History.push (w : History) (file ino : Nat) : History :=
  Function.update w file (w file ++ [ino])

def record (sfs : ImageFs) (w : History) : Op → History
  | .addInode _ _ => w
  | .storeBlock file _ _ => w.push file sfs.nextIno
  | .addEntry current _ _ => w.push current sfs.nextIno

/-- States of an image builder that started on an image file of `stSize` bytes. -/
inductive Built (stSize : Nat) (image : Nat → Bytes) : ImageFs → History → Prop
  | create {malloced : Bytes} {sfs : ImageFs} : createSfs stSize image malloced = .ok sfs →
      Built stSize image sfs fun _ => []
  | step {sfs sfs' : ImageFs} {w : History} {op : Op} : Built stSize image sfs w →
      Valid sfs op → perform sfs op = .ok sfs' → Built stSize image sfs' (record sfs w op)

/-- Which block numbers are in use, and that no two cached objects share one. -/
structure Layout (sfs : ImageFs) : Prop where
  ninos_le : sfs.ninos ≤ SFS_MAX_NBLKS
  first_le : firstIno sfs.ninos ≤ sfs.nextIno
  next_le : sfs.nextIno ≤ sfs.ninos
  magic : sfs.super.magic = SFS_MAGIC
  blocks : sfs.super.blocks = sfs.ninos
  unused : sfs.super.unusedBlocks = sfs.ninos - sfs.nextIno
  inode_ino : ∀ ci, ci < sfs.inodeCount → (sfs.inode ci).ino = SFS_BLKN_ROOT ∨
    firstIno sfs.ninos ≤ (sfs.inode ci).ino ∧ (sfs.inode ci).ino < sfs.nextIno
  inode_inj : ∀ ci cj, ci < sfs.inodeCount → cj < sfs.inodeCount →
    (sfs.inode ci).ino = (sfs.inode cj).ino → ci = cj
  block_ino : ∀ cb, cb < sfs.blockCount →
    firstIno sfs.ninos ≤ (sfs.block cb).ino ∧ (sfs.block cb).ino < sfs.nextIno
  block_inj : ∀ cb cb', cb < sfs.blockCount → cb' < sfs.blockCount →
    (sfs.block cb).ino = (sfs.block cb').ino → cb = cb'
  apart : ∀ ci cb, ci < sfs.inodeCount → cb < sfs.blockCount →
    (sfs.inode ci).ino ≠ (sfs.block cb).ino
  inodes_lt : ∀ i ci, ci ∈ sfs.inodes i → ci < sfs.inodeCount
  blocks_lt : ∀ i cb, cb ∈ sfs.blocks i → cb < sfs.blockCount
  inodes_mem : ∀ ci, ci < sfs.inodeCount → ∃ i, i < HASH_LIST_SIZE ∧ ci ∈ sfs.inodes i
  blocks_mem : ∀ cb, cb < sfs.blockCount → ∃ i, i < HASH_LIST_SIZE ∧ cb ∈ sfs.blocks i
  written_lt : ∀ k, k ∈ sfs.written → firstIno sfs.ninos ≤ k ∧ k < sfs.nextIno

theorem firstIno_gt (ninos : Nat) : SFS_BLKN_ROOT < firstIno ninos := by
  exact Nat.lt_of_lt_of_le (by decide) (Nat.le_add_right SFS_BLKN_FREEMAP _)

theorem hash32_lt (val : Nat) : hash32 val < HASH_LIST_SIZE := by
  have hlt : val * GOLDEN_RATIO_PRIME_32 % 2 ^ 32 < 2 ^ 32 := Nat.mod_lt _ (by decide)
  unfold hash32 HASH_LIST_SIZE HASH_SHIFT
  omega

section Allocation

/-- The state after `sfs_alloc_ino`. -/
def bump (sfs : ImageFs) : ImageFs :=
  { sfs with
    super := { sfs.super with unusedBlocks := sfs.super.unusedBlocks - 1 }
    nextIno := sfs.nextIno + 1 }

/-- The state after a block with a new number has been put into the cache. -/
def pushBlock (sfs : ImageFs) : ImageFs :=
  { bump sfs with
    block := Function.update sfs.block sfs.blockCount ⟨sfs.nextIno, zeros⟩
    blockCount := sfs.blockCount + 1
    blocks := Function.update sfs.blocks (hash32 0) (sfs.blockCount :: sfs.blocks (hash32 0)) }

def newInode (type : Nat) : Inode :=
  { size := 0, type := type, nlinks := 0, blocks := 0, direct := fun _ => 0,
    indirect := 0, dbIndirect := 0 }

/-- The state after an inode with a new number has been put into the cache. -/
def pushInode (sfs : ImageFs) (real type : Nat) : ImageFs :=
  { bump sfs with
    inode := Function.update sfs.inode sfs.inodeCount
      ⟨newInode type, real, sfs.nextIno, 0, none, none⟩
    inodeCount := sfs.inodeCount + 1
    inodes := Function.update sfs.inodes (hashReal real)
      (sfs.inodeCount :: sfs.inodes (hashReal real)) }

/-- The state after `write_block`. -/
def putBlock (sfs : ImageFs) (data : Bytes) (len ino : Nat) : ImageFs :=
  { sfs with
    image := Function.update sfs.image ino (copyBytes zeros 0 data 0 len)
    written := ino :: sfs.written }

theorem sfsAllocIno_eq_ok_iff {sfs sfs' : ImageFs} {ino : Nat} :
    sfsAllocIno sfs = .ok (ino, sfs') ↔
      sfs.nextIno < sfs.ninos ∧ ino = sfs.nextIno ∧ sfs' = bump sfs := by
  unfold sfsAllocIno
  split
  · next hlt =>
    simp only [Except.ok.injEq, Prod.mk.injEq, hlt, true_and]
    constructor
    · rintro ⟨rfl, rfl⟩
      exact ⟨rfl, rfl⟩
    · rintro ⟨rfl, rfl⟩
      exact ⟨rfl, rfl⟩
  · next hge => simp [hge]

theorem allocCacheBlock_eq_ok_iff {sfs sfs' : ImageFs} {cb : Nat} :
    allocCacheBlock sfs 0 = .ok (cb, sfs') ↔
      sfs.nextIno < sfs.ninos ∧ cb = sfs.blockCount ∧ sfs' = pushBlock sfs := by
  have hzero : ¬(0 : Nat) ≠ 0 := by decide
  rw [allocCacheBlock, if_neg hzero, bind_eq_ok_iff]
  constructor
  · rintro ⟨⟨num, s⟩, halloc, heq⟩
    obtain ⟨hlt, rfl, rfl⟩ := sfsAllocIno_eq_ok_iff.mp halloc
    cases heq
    exact ⟨hlt, rfl, rfl⟩
  · rintro ⟨hlt, rfl, rfl⟩
    exact ⟨_, sfsAllocIno_eq_ok_iff.mpr ⟨hlt, rfl, rfl⟩, rfl⟩

theorem allocCacheInode_eq_ok_iff {sfs sfs' : ImageFs} {real type ci : Nat} :
    allocCacheInode sfs real 0 type = .ok (ci, sfs') ↔
      sfs.nextIno < sfs.ninos ∧ ci = sfs.inodeCount ∧ sfs' = pushInode sfs real type := by
  have hzero : ¬(0 : Nat) ≠ 0 := by decide
  rw [allocCacheInode, if_neg hzero, bind_eq_ok_iff]
  constructor
  · rintro ⟨⟨num, s⟩, halloc, heq⟩
    obtain ⟨hlt, rfl, rfl⟩ := sfsAllocIno_eq_ok_iff.mp halloc
    cases heq
    exact ⟨hlt, rfl, rfl⟩
  · rintro ⟨hlt, rfl, rfl⟩
    exact ⟨_, sfsAllocIno_eq_ok_iff.mpr ⟨hlt, rfl, rfl⟩, rfl⟩

theorem writeBlock_eq_ok_iff {sfs sfs' : ImageFs} {data : Bytes} {len ino : Nat} :
    writeBlock sfs data len ino = .ok sfs' ↔
      (len ≤ SFS_BLKSIZE ∧ ino < sfs.ninos) ∧ sfs' = putBlock sfs data len ino := by
  rw [writeBlock, bind_eq_ok_iff]
  constructor
  · rintro ⟨u, hassert, heq⟩
    cases heq
    exact ⟨kassert_eq_ok_iff.mp hassert, rfl⟩
  · rintro ⟨hassert, rfl⟩
    exact ⟨(), kassert_eq_ok_iff.mpr hassert, rfl⟩

end Allocation

section Preservation

variable {sfs : ImageFs}

theorem layout_bump (h : Layout sfs) (hlt : sfs.nextIno < sfs.ninos) : Layout (bump sfs) where
  ninos_le := h.ninos_le
  first_le := Nat.le_succ_of_le h.first_le
  next_le := hlt
  magic := h.magic
  blocks := h.blocks
  unused := by
    change sfs.super.unusedBlocks - 1 = sfs.ninos - (sfs.nextIno + 1)
    rw [h.unused]
    omega
  inode_ino := fun ci hci => (h.inode_ino ci hci).imp id fun hin => ⟨hin.1, Nat.lt_succ_of_lt hin.2⟩
  inode_inj := h.inode_inj
  block_ino := fun cb hcb => ⟨(h.block_ino cb hcb).1, Nat.lt_succ_of_lt (h.block_ino cb hcb).2⟩
  block_inj := h.block_inj
  apart := h.apart
  inodes_lt := h.inodes_lt
  blocks_lt := h.blocks_lt
  inodes_mem := h.inodes_mem
  blocks_mem := h.blocks_mem
  written_lt := fun k hk => ⟨(h.written_lt k hk).1, Nat.lt_succ_of_lt (h.written_lt k hk).2⟩

/-- The next free number belongs to no cached object. -/
theorem inode_ino_ne_nextIno (h : Layout sfs) {ci : Nat} (hci : ci < sfs.inodeCount) :
    (sfs.inode ci).ino ≠ sfs.nextIno := by
  have hfirst := h.first_le
  have hroot := firstIno_gt sfs.ninos
  rcases h.inode_ino ci hci with heq | hin
  · omega
  · omega

theorem block_ino_ne_nextIno (h : Layout sfs) {cb : Nat} (hcb : cb < sfs.blockCount) :
    (sfs.block cb).ino ≠ sfs.nextIno :=
  Nat.ne_of_lt (h.block_ino cb hcb).2

theorem layout_pushBlock (h : Layout sfs) (hlt : sfs.nextIno < sfs.ninos) :
    Layout (pushBlock sfs) := by
  have hbump := layout_bump h hlt
  have hself : ((pushBlock sfs).block sfs.blockCount).ino = sfs.nextIno := by
    simp [pushBlock]
  have hold : ∀ cb, cb < sfs.blockCount → (pushBlock sfs).block cb = sfs.block cb := by
    intro cb hcb
    simp [pushBlock, Nat.ne_of_lt hcb]
  have hcases : ∀ cb, cb < (pushBlock sfs).blockCount →
      cb = sfs.blockCount ∨ cb < sfs.blockCount := by
    intro cb hcb
    have hcb' : cb < sfs.blockCount + 1 := hcb
    omega
  have hchain : ∀ i, (pushBlock sfs).blocks i =
      if i = hash32 0 then sfs.blockCount :: sfs.blocks i else sfs.blocks i := by
    intro i
    simp only [pushBlock, Function.update_apply]
    split
    · next heq => rw [heq]
    · rfl
  refine { ninos_le := hbump.ninos_le, first_le := hbump.first_le, next_le := hbump.next_le,
           magic := hbump.magic, blocks := hbump.blocks, unused := hbump.unused,
           inode_ino := hbump.inode_ino, inode_inj := hbump.inode_inj,
           block_ino := ?_, block_inj := ?_, apart := ?_, inodes_lt := hbump.inodes_lt,
           blocks_lt := ?_, inodes_mem := hbump.inodes_mem, blocks_mem := ?_,
           written_lt := hbump.written_lt }
  · intro cb hcb
    rcases hcases cb hcb with rfl | hcb
    · rw [hself]
      exact ⟨h.first_le, Nat.lt_succ_self _⟩
    · rw [hold cb hcb]
      exact hbump.block_ino cb hcb
  · intro cb cb' hcb hcb' heq
    rcases hcases cb hcb with rfl | hcb
    · rcases hcases cb' hcb' with rfl | hcb'
      · rfl
      · rw [hself, hold cb' hcb'] at heq
        exact absurd heq.symm (block_ino_ne_nextIno h hcb')
    · rcases hcases cb' hcb' with rfl | hcb'
      · rw [hself, hold cb hcb] at heq
        exact absurd heq (block_ino_ne_nextIno h hcb)
      · rw [hold cb hcb, hold cb' hcb'] at heq
        exact h.block_inj cb cb' hcb hcb' heq
  · intro ci cb hci hcb
    rcases hcases cb hcb with rfl | hcb
    · rw [hself]
      exact inode_ino_ne_nextIno h hci
    · rw [hold cb hcb]
      exact h.apart ci cb hci hcb
  · intro i cb hcb
    rw [hchain] at hcb
    change cb < sfs.blockCount + 1
    split at hcb
    · rcases List.mem_cons.mp hcb with rfl | hcb
      · exact Nat.lt_succ_self _
      · exact Nat.lt_succ_of_lt (h.blocks_lt i cb hcb)
    · exact Nat.lt_succ_of_lt (h.blocks_lt i cb hcb)
  · intro cb hcb
    rcases hcases cb hcb with rfl | hcb
    · refine ⟨hash32 0, hash32_lt 0, ?_⟩
      rw [hchain, if_pos rfl]
      exact List.mem_cons_self
    · obtain ⟨i, hi, hmem⟩ := h.blocks_mem cb hcb
      refine ⟨i, hi, ?_⟩
      rw [hchain]
      split
      · exact List.mem_cons_of_mem _ hmem
      · exact hmem

theorem layout_pushInode (h : Layout sfs) (hlt : sfs.nextIno < sfs.ninos) (real type : Nat) :
    Layout (pushInode sfs real type) := by
  have hbump := layout_bump h hlt
  have hself : ((pushInode sfs real type).inode sfs.inodeCount).ino = sfs.nextIno := by
    simp [pushInode]
  have hold : ∀ ci, ci < sfs.inodeCount → (pushInode sfs real type).inode ci = sfs.inode ci := by
    intro ci hci
    simp [pushInode, Nat.ne_of_lt hci]
  have hcases : ∀ ci, ci < (pushInode sfs real type).inodeCount →
      ci = sfs.inodeCount ∨ ci < sfs.inodeCount := by
    intro ci hci
    have hci' : ci < sfs.inodeCount + 1 := hci
    omega
  have hchain : ∀ i, (pushInode sfs real type).inodes i =
      if i = hashReal real then sfs.inodeCount :: sfs.inodes i else sfs.inodes i := by
    intro i
    simp only [pushInode, Function.update_apply]
    split
    · next heq => rw [heq]
    · rfl
  refine { ninos_le := hbump.ninos_le, first_le := hbump.first_le, next_le := hbump.next_le,
           magic := hbump.magic, blocks := hbump.blocks, unused := hbump.unused,
           inode_ino := ?_, inode_inj := ?_, block_ino := hbump.block_ino,
           block_inj := hbump.block_inj, apart := ?_, inodes_lt := ?_,
           blocks_lt := hbump.blocks_lt, inodes_mem := ?_, blocks_mem := hbump.blocks_mem,
           written_lt := hbump.written_lt }
  · intro ci hci
    rcases hcases ci hci with rfl | hci
    · rw [hself]
      exact Or.inr ⟨h.first_le, Nat.lt_succ_self _⟩
    · rw [hold ci hci]
      exact hbump.inode_ino ci hci
  · intro ci cj hci hcj heq
    rcases hcases ci hci with rfl | hci
    · rcases hcases cj hcj with rfl | hcj
      · rfl
      · rw [hself, hold cj hcj] at heq
        exact absurd heq.symm (inode_ino_ne_nextIno h hcj)
    · rcases hcases cj hcj with rfl | hcj
      · rw [hself, hold ci hci] at heq
        exact absurd heq (inode_ino_ne_nextIno h hci)
      · rw [hold ci hci, hold cj hcj] at heq
        exact h.inode_inj ci cj hci hcj heq
  · intro ci cb hci hcb
    rcases hcases ci hci with rfl | hci
    · rw [hself]
      exact (block_ino_ne_nextIno h hcb).symm
    · rw [hold ci hci]
      exact h.apart ci cb hci hcb
  · intro i ci hci
    rw [hchain] at hci
    change ci < sfs.inodeCount + 1
    split at hci
    · rcases List.mem_cons.mp hci with rfl | hci
      · exact Nat.lt_succ_self _
      · exact Nat.lt_succ_of_lt (h.inodes_lt i ci hci)
    · exact Nat.lt_succ_of_lt (h.inodes_lt i ci hci)
  · intro ci hci
    rcases hcases ci hci with rfl | hci
    · refine ⟨hashReal real, hash32_lt _, ?_⟩
      rw [hchain, if_pos rfl]
      exact List.mem_cons_self
    · obtain ⟨i, hi, hmem⟩ := h.inodes_mem ci hci
      refine ⟨i, hi, ?_⟩
      rw [hchain]
      split
      · exact List.mem_cons_of_mem _ hmem
      · exact hmem

/-- The layout reads only the numbers of the cached objects. -/
theorem layout_congr {sfs' : ImageFs} (h : Layout sfs) (hninos : sfs'.ninos = sfs.ninos)
    (hnext : sfs'.nextIno = sfs.nextIno) (hsuper : sfs'.super = sfs.super)
    (hinode : ∀ ci, (sfs'.inode ci).ino = (sfs.inode ci).ino)
    (hinodeCount : sfs'.inodeCount = sfs.inodeCount) (hinodes : sfs'.inodes = sfs.inodes)
    (hblock : ∀ cb, (sfs'.block cb).ino = (sfs.block cb).ino)
    (hblockCount : sfs'.blockCount = sfs.blockCount) (hblocks : sfs'.blocks = sfs.blocks)
    (hwritten : ∀ k, k ∈ sfs'.written → firstIno sfs.ninos ≤ k ∧ k < sfs.nextIno) :
    Layout sfs' := by
  constructor
  all_goals simp only [hninos, hnext, hsuper, hinode, hinodeCount, hinodes, hblock,
    hblockCount, hblocks]
  · exact h.ninos_le
  · exact h.first_le
  · exact h.next_le
  · exact h.magic
  · exact h.blocks
  · exact h.unused
  · exact h.inode_ino
  · exact h.inode_inj
  · exact h.block_ino
  · exact h.block_inj
  · exact h.apart
  · exact h.inodes_lt
  · exact h.blocks_lt
  · exact h.inodes_mem
  · exact h.blocks_mem
  · exact hwritten

theorem layout_setInode (h : Layout sfs) {ci : Nat} {v : CacheInode}
    (hino : v.ino = (sfs.inode ci).ino) : Layout (sfs.setInode ci v) := by
  refine @layout_congr sfs (sfs.setInode ci v) h rfl rfl rfl ?_ rfl rfl (fun _ => rfl) rfl rfl
    h.written_lt
  intro cj
  rcases eq_or_ne cj ci with heq | hne
  · subst heq
    simpa [ImageFs.setInode] using hino
  · simp [ImageFs.setInode, hne]

theorem layout_setCache (h : Layout sfs) (cb : Nat) (cache : Bytes) :
    Layout (sfs.setCache cb cache) := by
  refine @layout_congr sfs (sfs.setCache cb cache) h rfl rfl rfl (fun _ => rfl) rfl rfl ?_ rfl rfl
    h.written_lt
  intro cb'
  rcases eq_or_ne cb' cb with heq | hne
  · subst heq
    simp [ImageFs.setCache]
  · simp [ImageFs.setCache, hne]

theorem layout_putBlock (h : Layout sfs) {ino : Nat} (hfirst : firstIno sfs.ninos ≤ ino)
    (hnext : ino < sfs.nextIno) (data : Bytes) (len : Nat) :
    Layout (putBlock sfs data len ino) := by
  refine @layout_congr sfs (putBlock sfs data len ino) h rfl rfl rfl (fun _ => rfl) rfl rfl
    (fun _ => rfl) rfl rfl ?_
  intro k hk
  rcases List.mem_cons.mp hk with rfl | hk
  · exact ⟨hfirst, hnext⟩
  · exact h.written_lt k hk

end Preservation

section Operations

variable {sfs sfs' : ImageFs}

/-- `update_cache` either makes a new table or finds the cached one. -/
theorem updateCache_cases {cbp : Option Nat} {ino cb num : Nat}
    (heq : updateCache sfs cbp ino = .ok (cb, num, sfs')) :
    (ino = 0 ∧ sfs.nextIno < sfs.ninos ∧ cb = sfs.blockCount ∧ num = sfs.nextIno ∧
        sfs' = pushBlock sfs) ∨
      (ino ≠ 0 ∧ (sfs.block cb).ino = ino ∧ num = ino ∧ sfs' = sfs) := by
  unfold updateCache at heq
  split at heq
  · next hzero =>
    left
    obtain ⟨⟨cb', s⟩, halloc, hret⟩ := bind_eq_ok_iff.mp heq
    obtain ⟨hlt, rfl, rfl⟩ := allocCacheBlock_eq_ok_iff.mp halloc
    cases hret
    refine ⟨hzero, hlt, rfl, ?_, rfl⟩
    simp [pushBlock]
  · next hne =>
    right
    simp only at heq
    split at heq
    · next cb' hfound =>
      cases heq
      refine ⟨hne, ?_, rfl, rfl⟩
      rcases Option.or_eq_some_iff.mp hfound with hcached | ⟨_, hsearch⟩
      · have := (Option.filter_eq_some_iff.mp hcached).2
        simpa using this
      · have := List.find?_some hsearch
        simpa using this
    · cases heq

theorem layout_updateCache (h : Layout sfs) {cbp : Option Nat} {ino cb num : Nat}
    (heq : updateCache sfs cbp ino = .ok (cb, num, sfs')) : Layout sfs' := by
  rcases updateCache_cases heq with ⟨_, hlt, _, _, rfl⟩ | ⟨_, _, _, rfl⟩
  · exact layout_pushBlock h hlt
  · exact h

theorem updateCache_inode {cbp : Option Nat} {ino cb num : Nat}
    (heq : updateCache sfs cbp ino = .ok (cb, num, sfs')) :
    sfs'.inode = sfs.inode ∧ sfs'.ninos = sfs.ninos ∧ sfs.nextIno ≤ sfs'.nextIno ∧
      sfs'.inodeCount = sfs.inodeCount := by
  rcases updateCache_cases heq with ⟨_, _, _, _, rfl⟩ | ⟨_, _, _, rfl⟩
  · exact ⟨rfl, rfl, Nat.le_succ _, rfl⟩
  · exact ⟨rfl, rfl, le_rfl, rfl⟩

theorem layout_recordBlock (h : Layout sfs) {file ino : Nat}
    (heq : recordBlock sfs file ino = .ok sfs') : Layout sfs' := by
  unfold recordBlock at heq
  simp only at heq
  split at heq
  · cases heq
    exact layout_setInode h rfl
  split at heq
  · obtain ⟨⟨l1, indirect, s⟩, hcache, hret⟩ := bind_eq_ok_iff.mp heq
    cases hret
    apply layout_setCache
    apply layout_setInode (layout_updateCache h hcache)
    rw [(updateCache_inode hcache).1]
  split at heq
  · obtain ⟨⟨l2, dbIndirect, s⟩, hcache, hret⟩ := bind_eq_ok_iff.mp heq
    obtain ⟨⟨l1, table, t⟩, hcache', hret'⟩ := bind_eq_ok_iff.mp hret
    cases hret'
    apply layout_setCache
    apply layout_setInode
    · apply layout_setCache
      exact layout_updateCache (layout_updateCache h hcache) hcache'
    · change _ = (t.inode file).ino
      rw [(updateCache_inode hcache').1, (updateCache_inode hcache).1]
  · cases heq
    exact h

theorem layout_appendBlock (h : Layout sfs) {file size ino : Nat}
    (heq : appendBlock sfs file size ino = .ok sfs') : Layout sfs' := by
  obtain ⟨_, _, hrest⟩ := bind_eq_ok_iff.mp heq
  split at hrest
  · cases hrest
  · obtain ⟨s, hrecord, hret⟩ := bind_eq_ok_iff.mp hrest
    cases hret
    exact layout_setInode (layout_recordBlock h hrecord) rfl

/-- Allocating a number, writing its block and appending it to a file. -/
theorem layout_storeBlock (h : Layout sfs) {file len : Nat} {buffer : Bytes}
    (heq : storeBlock sfs file buffer len = .ok sfs') : Layout sfs' := by
  obtain ⟨⟨ino, s₁⟩, halloc, hrest⟩ := bind_eq_ok_iff.mp heq
  obtain ⟨hlt, rfl, rfl⟩ := sfsAllocIno_eq_ok_iff.mp halloc
  obtain ⟨s₂, hwrite, happend⟩ := bind_eq_ok_iff.mp hrest
  obtain ⟨_, rfl⟩ := writeBlock_eq_ok_iff.mp hwrite
  apply layout_appendBlock _ happend
  exact layout_putBlock (layout_bump h hlt) h.first_le (Nat.lt_succ_self _) _ _

theorem layout_addEntry (h : Layout sfs) {current file : Nat} {name : CString}
    (heq : addEntry sfs current file name = .ok sfs') : Layout sfs' := by
  obtain ⟨_, _, hrest⟩ := bind_eq_ok_iff.mp heq
  obtain ⟨⟨ino, s₁⟩, halloc, hrest⟩ := bind_eq_ok_iff.mp hrest
  obtain ⟨hlt, rfl, rfl⟩ := sfsAllocIno_eq_ok_iff.mp halloc
  obtain ⟨s₂, hwrite, hrest⟩ := bind_eq_ok_iff.mp hrest
  obtain ⟨_, rfl⟩ := writeBlock_eq_ok_iff.mp hwrite
  obtain ⟨s₃, happend, hret⟩ := bind_eq_ok_iff.mp hrest
  cases hret
  refine layout_setInode ?_ rfl
  apply layout_appendBlock _ happend
  have hentry : ∀ entry, Layout { sfs with entry := entry } := fun entry =>
    @layout_congr sfs { sfs with entry := entry } h rfl rfl rfl (fun _ => rfl) rfl rfl
      (fun _ => rfl) rfl rfl h.written_lt
  exact layout_putBlock (layout_bump (hentry _) hlt) h.first_le (Nat.lt_succ_self _) _ _

theorem layout_perform (h : Layout sfs) {op : Op} (heq : perform sfs op = .ok sfs') :
    Layout sfs' := by
  cases op with
  | addInode real type =>
      obtain ⟨⟨ci, s⟩, halloc, hret⟩ := bind_eq_ok_iff.mp heq
      obtain ⟨hlt, rfl, rfl⟩ := allocCacheInode_eq_ok_iff.mp halloc
      cases hret
      exact layout_pushInode h hlt real type
  | storeBlock file buffer len => exact layout_storeBlock h heq
  | addEntry current file name => exact layout_addEntry h heq

/-- The state that `create_sfs` returns. -/
def rootFs (ninos : Nat) (image : Nat → Bytes) (malloced : Bytes) : ImageFs :=
  { emptyFs ninos image malloced with
    inode := Function.update (emptyFs ninos image malloced).inode 0
      ⟨newInode SFS_TYPE_DIR, 0, SFS_BLKN_ROOT, 0, none, none⟩
    inodeCount := 1
    inodes := Function.update (fun _ => []) (hashReal 0) [0] }

theorem createSfs_eq_ok_iff {stSize : Nat} {image : Nat → Bytes} {malloced : Bytes} :
    createSfs stSize image malloced = .ok sfs ↔
      firstIno (imageBlocks stSize) < imageBlocks stSize ∧
        sfs = rootFs (imageBlocks stSize) image malloced := by
  have hroot : SFS_BLKN_ROOT ≠ 0 := by decide
  rw [createSfs]
  simp only
  split
  · next hsmall =>
    constructor
    · intro heq
      cases heq
    · rintro ⟨hbig, _⟩
      omega
  · next hbig =>
    rw [allocCacheInode, if_pos hroot, ok_bind]
    constructor
    · intro heq
      cases heq
      exact ⟨Nat.lt_of_not_le hbig, rfl⟩
    · rintro ⟨_, rfl⟩
      rfl

theorem layout_rootFs {ninos : Nat} (hmax : ninos ≤ SFS_MAX_NBLKS)
    (hbig : firstIno ninos < ninos) (image : Nat → Bytes) (malloced : Bytes) :
    Layout (rootFs ninos image malloced) := by
  have hci : ∀ {ci : Nat}, ci < (rootFs ninos image malloced).inodeCount → ci = 0 :=
    fun h => Nat.lt_one_iff.mp h
  have hcb : ∀ {cb : Nat}, ¬cb < (rootFs ninos image malloced).blockCount :=
    fun {cb} => Nat.not_lt_zero cb
  constructor
  · exact hmax
  · exact le_rfl
  · exact Nat.le_of_lt hbig
  · rfl
  · rfl
  · rfl
  · intro ci h
    rw [hci h]
    exact Or.inl rfl
  · intro ci cj h h' _
    rw [hci h, hci h']
  · intro cb h
    exact absurd h hcb
  · intro cb _ h
    exact absurd h hcb
  · intro _ cb _ h
    exact absurd h hcb
  · intro i ci h
    change ci ∈ Function.update (fun _ => []) (hashReal 0) [0] i at h
    rw [Function.update_apply] at h
    split at h
    · rw [List.mem_singleton.mp h]
      exact Nat.one_pos
    · simp at h
  · intro _ cb h
    cases h
  · intro ci h
    rw [hci h]
    refine ⟨hashReal 0, hash32_lt _, ?_⟩
    change 0 ∈ Function.update (fun _ => []) (hashReal 0) [0] (hashReal 0)
    rw [Function.update_self]
    exact List.mem_cons_self
  · intro cb h
    exact absurd h hcb
  · intro k h
    cases h

theorem imageBlocks_le (stSize : Nat) : imageBlocks stSize ≤ SFS_MAX_NBLKS := by
  unfold imageBlocks
  simp only
  split
  · exact le_rfl
  · next hle => exact Nat.le_of_not_lt hle

theorem layout_built {stSize : Nat} {image : Nat → Bytes} {w : History}
    (h : Built stSize image sfs w) : Layout sfs := by
  induction h with
  | create heq =>
      obtain ⟨hbig, rfl⟩ := createSfs_eq_ok_iff.mp heq
      exact layout_rootFs (imageBlocks_le stSize) hbig _ _
  | step _ _ heq ih => exact layout_perform ih heq

end Operations

end Ucore.MksfsLayout
