import Ucore.MksfsLayout
import Ucore.WriteLog

namespace Ucore.MksfsImage

open Ucore.Panic
open Ucore.ByteBuffer
open Ucore.SfsDisk
open Ucore.Mksfs
open Ucore.MksfsLayout
open Ucore.WriteLog

/-- What a block holds after `len` bytes of `data` have been written to it. -/
def padded (data : Bytes) (len : Nat) : Bytes :=
  copyBytes zeros 0 data 0 len

def putLog (sfs : ImageFs) (log : List (Nat × Bytes)) : ImageFs :=
  { sfs with
    image := replay sfs.image log
    written := (log.map Prod.fst).reverse ++ sfs.written }

def blockWrite (sfs : ImageFs) (cb : Nat) : Nat × Bytes :=
  ((sfs.block cb).ino, padded (sfs.block cb).cache SFS_BLKSIZE)

def inodeWrite (sfs : ImageFs) (ci : Nat) : Nat × Bytes :=
  ((sfs.inode ci).ino, padded (inodeBytes (sfs.inode ci).inode) inodeSize)

def chainWrites (sfs : ImageFs) (i : Nat) : List (Nat × Bytes) :=
  (sfs.blocks i).map (blockWrite sfs) ++ (sfs.inodes i).map (inodeWrite sfs)

def freemapWrites (sfs : ImageFs) (i ino : Nat) : Nat → List (Nat × Bytes)
  | 0 => []
  | n + 1 =>
      (ino, padded (freemapBlock sfs.ninos sfs.nextIno i) SFS_BLKSIZE) ::
        freemapWrites sfs (i + SFS_BLKBITS) (ino + 1) n

/-- Number of freemap blocks. -/
def freemapBlocks (ninos : Nat) : Nat :=
  (ninos + SFS_BLKBITS - 1) / SFS_BLKBITS

/-- The writes of `close_sfs`, in order. -/
def closeLog (sfs : ImageFs) : List (Nat × Bytes) :=
  freemapWrites sfs 0 SFS_BLKN_FREEMAP (freemapBlocks sfs.ninos) ++
    (SFS_BLKN_SUPER, padded (superBytes sfs.super) superSize) ::
      (List.range HASH_LIST_SIZE).flatMap (chainWrites sfs)

section Log

variable {sfs : ImageFs}

theorem putLog_append (log log' : List (Nat × Bytes)) :
    putLog sfs (log ++ log') = putLog (putLog sfs log) log' := by
  simp only [putLog, replay_append, List.map_append, List.reverse_append, List.append_assoc]

theorem writeBlock_putLog {log : List (Nat × Bytes)} {data : Bytes} {len ino : Nat}
    (hlen : len ≤ SFS_BLKSIZE) (hino : ino < sfs.ninos) :
    writeBlock (putLog sfs log) data len ino =
      .ok (putLog sfs (log ++ [(ino, padded data len)])) := by
  rw [putLog_append]
  exact writeBlock_eq_ok_iff.mpr ⟨⟨hlen, hino⟩, rfl⟩

theorem foldlM_putLog {α : Type} {f : ImageFs → α → Kernel ImageFs}
    {write : α → List (Nat × Bytes)} {xs : List α}
    (hstep : ∀ x ∈ xs, ∀ log, f (putLog sfs log) x = .ok (putLog sfs (log ++ write x))) :
    ∀ log, xs.foldlM f (putLog sfs log) = .ok (putLog sfs (log ++ xs.flatMap write)) := by
  induction xs with
  | nil =>
      intro log
      rw [List.foldlM_nil, List.flatMap_nil, List.append_nil]
      rfl
  | cons x xs ih =>
      intro log
      rw [List.foldlM_cons, hstep x List.mem_cons_self, ok_bind]
      rw [ih fun y hy => hstep y (List.mem_cons_of_mem _ hy)]
      rw [List.flatMap_cons, List.append_assoc]

theorem inode_ino_lt (h : Layout sfs) {ci : Nat} (hci : ci < sfs.inodeCount) :
    (sfs.inode ci).ino < sfs.ninos := by
  have hroot := firstIno_gt sfs.ninos
  have hfirst := h.first_le
  have hnext := h.next_le
  rcases h.inode_ino ci hci with heq | hin
  · omega
  · omega

theorem block_ino_lt (h : Layout sfs) {cb : Nat} (hcb : cb < sfs.blockCount) :
    (sfs.block cb).ino < sfs.ninos :=
  lt_of_lt_of_le (h.block_ino cb hcb).2 h.next_le

theorem flushChain_putLog (h : Layout sfs) (i : Nat) (log : List (Nat × Bytes)) :
    flushChain (putLog sfs log) i = .ok (putLog sfs (log ++ chainWrites sfs i)) := by
  have hblocks : (sfs.blocks i).foldlM flushCacheBlock (putLog sfs log) =
      .ok (putLog sfs (log ++ (sfs.blocks i).flatMap fun cb => [blockWrite sfs cb])) := by
    apply foldlM_putLog
    intro cb hcb log'
    exact writeBlock_putLog le_rfl (block_ino_lt h (h.blocks_lt i cb hcb))
  have hinodes : ∀ log', (sfs.inodes i).foldlM flushCacheInode (putLog sfs log') =
      .ok (putLog sfs (log' ++ (sfs.inodes i).flatMap fun ci => [inodeWrite sfs ci])) := by
    apply foldlM_putLog
    intro ci hci log'
    exact writeBlock_putLog (by decide) (inode_ino_lt h (h.inodes_lt i ci hci))
  change ((sfs.blocks i).foldlM flushCacheBlock (putLog sfs log) >>= fun s =>
    (s.inodes i).foldlM flushCacheInode s) = _
  rw [hblocks, ok_bind]
  change (sfs.inodes i).foldlM flushCacheInode (putLog sfs _) = _
  rw [hinodes]
  simp only [chainWrites, List.append_assoc, ← List.map_eq_flatMap]

theorem writeFreemap_putLog {n : Nat} :
    ∀ {i ino fuel : Nat} {log : List (Nat × Bytes)}, (i + n * SFS_BLKBITS < sfs.ninos + SFS_BLKBITS) →
      sfs.ninos ≤ i + n * SFS_BLKBITS → n < fuel → ino + n ≤ sfs.ninos →
      writeFreemap (putLog sfs log) i ino fuel =
        .ok (putLog sfs (log ++ freemapWrites sfs i ino n)) := by
  induction n with
  | zero =>
      intro i ino fuel log _ hge hfuel _
      obtain ⟨fuel, rfl⟩ := Nat.exists_eq_add_of_lt hfuel
      have hdone : ¬i < (putLog sfs log).ninos := by
        change ¬i < sfs.ninos
        omega
      rw [Nat.zero_add, writeFreemap, if_neg hdone, freemapWrites, List.append_nil]
  | succ n ih =>
      intro i ino fuel log hlow hge hfuel hino
      obtain ⟨fuel, rfl⟩ : ∃ k, fuel = k + 1 := ⟨fuel - 1, by omega⟩
      have hmore : i < (putLog sfs log).ninos := by
        change i < sfs.ninos
        rw [Nat.add_mul] at hlow
        omega
      rw [writeFreemap, if_pos hmore]
      rw [writeBlock_putLog le_rfl (by omega), ok_bind]
      rw [ih (by rw [Nat.add_mul] at hlow; omega) (by rw [Nat.add_mul] at hge; omega)
        (by omega) (by omega)]
      rw [freemapWrites, List.append_assoc]
      rfl

/-- `close_sfs` never fails, and does exactly the writes of its log. -/
theorem closeSfs_eq (h : Layout sfs) : closeSfs sfs = .ok (putLog sfs (closeLog sfs)) := by
  have hempty : sfs = putLog sfs [] := rfl
  have hfirst : SFS_BLKN_FREEMAP + freemapBlocks sfs.ninos ≤ sfs.ninos :=
    le_trans h.first_le h.next_le
  have hpos : SFS_BLKN_SUPER < sfs.ninos :=
    lt_of_lt_of_le (by decide) (le_trans (Nat.le_add_right SFS_BLKN_FREEMAP _) hfirst)
  have hfreemap : writeFreemap sfs 0 SFS_BLKN_FREEMAP (sfs.ninos + 1) =
      .ok (putLog sfs (freemapWrites sfs 0 SFS_BLKN_FREEMAP (freemapBlocks sfs.ninos))) := by
    have hrun := @writeFreemap_putLog sfs (freemapBlocks sfs.ninos) 0 SFS_BLKN_FREEMAP
      (sfs.ninos + 1) []
    rw [← hempty, List.nil_append] at hrun
    apply hrun
    · unfold freemapBlocks SFS_BLKBITS SFS_BLKSIZE
      omega
    · unfold freemapBlocks SFS_BLKBITS SFS_BLKSIZE
      omega
    · omega
    · exact hfirst
  have hsuper : ∀ log, writeBlock (putLog sfs log) (superBytes (putLog sfs log).super) superSize
      SFS_BLKN_SUPER = .ok (putLog sfs (log ++ [(SFS_BLKN_SUPER,
        padded (superBytes sfs.super) superSize)])) := fun log =>
    writeBlock_putLog (by decide) hpos
  rw [closeSfs, hfreemap, ok_bind, hsuper, ok_bind]
  rw [foldlM_putLog fun i _ log => flushChain_putLog h i log]
  rw [closeLog, List.append_assoc, List.singleton_append]

end Log

section Contents

variable {sfs : ImageFs}

theorem mem_freemapWrites {n : Nat} {w : Nat × Bytes} :
    ∀ {i ino : Nat}, w ∈ freemapWrites sfs i ino n ↔ ∃ t, t < n ∧
      w = (ino + t, padded (freemapBlock sfs.ninos sfs.nextIno (i + t * SFS_BLKBITS))
        SFS_BLKSIZE) := by
  induction n with
  | zero =>
      intro i ino
      simp [freemapWrites]
  | succ n ih =>
      intro i ino
      rw [freemapWrites, List.mem_cons, ih]
      constructor
      · rintro (rfl | ⟨t, ht, rfl⟩)
        · exact ⟨0, Nat.succ_pos n, by simp⟩
        · refine ⟨t + 1, Nat.succ_lt_succ ht, ?_⟩
          rw [Nat.add_mul, Nat.one_mul, Nat.add_comm t 1, ← Nat.add_assoc,
            Nat.add_comm (t * SFS_BLKBITS), ← Nat.add_assoc]
      · rintro ⟨t, ht, rfl⟩
        cases t with
        | zero => exact Or.inl (by simp)
        | succ t =>
            right
            refine ⟨t, Nat.lt_of_succ_lt_succ ht, ?_⟩
            rw [Nat.add_mul, Nat.one_mul, Nat.add_comm t 1, ← Nat.add_assoc,
              Nat.add_comm (t * SFS_BLKBITS), ← Nat.add_assoc]

theorem mem_flushWrites (h : Layout sfs) {w : Nat × Bytes} :
    w ∈ (List.range HASH_LIST_SIZE).flatMap (chainWrites sfs) ↔
      (∃ cb, cb < sfs.blockCount ∧ w = blockWrite sfs cb) ∨
        ∃ ci, ci < sfs.inodeCount ∧ w = inodeWrite sfs ci := by
  simp only [List.mem_flatMap, List.mem_range, chainWrites, List.mem_append, List.mem_map]
  constructor
  · rintro ⟨i, _, ⟨cb, hcb, rfl⟩ | ⟨ci, hci, rfl⟩⟩
    · exact Or.inl ⟨cb, h.blocks_lt i cb hcb, rfl⟩
    · exact Or.inr ⟨ci, h.inodes_lt i ci hci, rfl⟩
  · rintro (⟨cb, hcb, rfl⟩ | ⟨ci, hci, rfl⟩)
    · obtain ⟨i, hi, hmem⟩ := h.blocks_mem cb hcb
      exact ⟨i, hi, Or.inl ⟨cb, hmem, rfl⟩⟩
    · obtain ⟨i, hi, hmem⟩ := h.inodes_mem ci hci
      exact ⟨i, hi, Or.inr ⟨ci, hmem, rfl⟩⟩

/-- The four kinds of writes of `close_sfs`. -/
theorem mem_closeLog (h : Layout sfs) {w : Nat × Bytes} :
    w ∈ closeLog sfs ↔
      (∃ t, t < freemapBlocks sfs.ninos ∧ w = (SFS_BLKN_FREEMAP + t,
          padded (freemapBlock sfs.ninos sfs.nextIno (t * SFS_BLKBITS)) SFS_BLKSIZE)) ∨
        w = (SFS_BLKN_SUPER, padded (superBytes sfs.super) superSize) ∨
          (∃ cb, cb < sfs.blockCount ∧ w = blockWrite sfs cb) ∨
            ∃ ci, ci < sfs.inodeCount ∧ w = inodeWrite sfs ci := by
  rw [closeLog, List.mem_append, List.mem_cons, mem_freemapWrites, mem_flushWrites h]
  simp only [Nat.zero_add]

/-- Two writes of `close_sfs` to one block write the same. -/
theorem closeLog_functional (h : Layout sfs) {w w' : Nat × Bytes} (hw : w ∈ closeLog sfs)
    (hw' : w' ∈ closeLog sfs) (heq : w.1 = w'.1) : w.2 = w'.2 := by
  have hfirst : ∀ t, t < freemapBlocks sfs.ninos → SFS_BLKN_FREEMAP + t < firstIno sfs.ninos :=
    fun t ht => Nat.add_lt_add_left ht _
  have hroot := firstIno_gt sfs.ninos
  have hinode : ∀ ci, ci < sfs.inodeCount → (sfs.inode ci).ino = 1 ∨
      firstIno sfs.ninos ≤ (sfs.inode ci).ino := fun ci hci =>
    (h.inode_ino ci hci).imp id fun hin => hin.1
  have hblock : ∀ cb, cb < sfs.blockCount → firstIno sfs.ninos ≤ (sfs.block cb).ino :=
    fun cb hcb => (h.block_ino cb hcb).1
  rw [mem_closeLog h] at hw hw'
  unfold SFS_BLKN_ROOT at hroot
  unfold SFS_BLKN_FREEMAP at hw hw' hfirst
  unfold SFS_BLKN_SUPER at hw hw'
  rcases hw with ⟨t, ht, rfl⟩ | rfl | ⟨cb, hcb, rfl⟩ | ⟨ci, hci, rfl⟩
  · have ht' := hfirst t ht
    rcases hw' with ⟨u, hu, rfl⟩ | rfl | ⟨cb', hcb', rfl⟩ | ⟨cj, hcj, rfl⟩
    · obtain rfl : t = u := Nat.add_left_cancel heq
      rfl
    · simp only at heq
      omega
    · have := hblock cb' hcb'
      simp only [blockWrite] at heq
      omega
    · have := hinode cj hcj
      simp only [inodeWrite] at heq
      omega
  · rcases hw' with ⟨u, hu, rfl⟩ | rfl | ⟨cb', hcb', rfl⟩ | ⟨cj, hcj, rfl⟩
    · simp only at heq
      omega
    · rfl
    · have := hblock cb' hcb'
      simp only [blockWrite] at heq
      omega
    · have := hinode cj hcj
      simp only [inodeWrite] at heq
      omega
  · have hcb₁ := hblock cb hcb
    rcases hw' with ⟨u, hu, rfl⟩ | rfl | ⟨cb', hcb', rfl⟩ | ⟨cj, hcj, rfl⟩
    · have := hfirst u hu
      simp only [blockWrite] at heq
      omega
    · simp only [blockWrite] at heq
      omega
    · rw [h.block_inj cb cb' hcb hcb' heq]
    · exact absurd heq.symm (h.apart cj cb hcj hcb)
  · have hci₁ := hinode ci hci
    rcases hw' with ⟨u, hu, rfl⟩ | rfl | ⟨cb', hcb', rfl⟩ | ⟨cj, hcj, rfl⟩
    · have := hfirst u hu
      simp only [inodeWrite] at heq
      omega
    · simp only [inodeWrite] at heq
      omega
    · exact absurd heq (h.apart ci cb' hci hcb')
    · rw [h.inode_inj ci cj hci hcj heq]

/-- The image of a closed file system, block by block. -/
theorem image_of_closeLog (h : Layout sfs) {w : Nat × Bytes} (hw : w ∈ closeLog sfs) :
    (putLog sfs (closeLog sfs)).image w.1 = w.2 :=
  replay_of_mem hw fun _ hw' heq => closeLog_functional h hw' hw heq

theorem image_freemap (h : Layout sfs) {t : Nat} (ht : t < freemapBlocks sfs.ninos) :
    (putLog sfs (closeLog sfs)).image (SFS_BLKN_FREEMAP + t) =
      padded (freemapBlock sfs.ninos sfs.nextIno (t * SFS_BLKBITS)) SFS_BLKSIZE :=
  image_of_closeLog h ((mem_closeLog h).mpr (Or.inl ⟨t, ht, rfl⟩))

theorem image_super (h : Layout sfs) :
    (putLog sfs (closeLog sfs)).image SFS_BLKN_SUPER =
      padded (superBytes sfs.super) superSize :=
  image_of_closeLog h ((mem_closeLog h).mpr (Or.inr (Or.inl rfl)))

theorem image_block (h : Layout sfs) {cb : Nat} (hcb : cb < sfs.blockCount) :
    (putLog sfs (closeLog sfs)).image (sfs.block cb).ino =
      padded (sfs.block cb).cache SFS_BLKSIZE :=
  image_of_closeLog h ((mem_closeLog h).mpr (Or.inr (Or.inr (Or.inl ⟨cb, hcb, rfl⟩))))

theorem image_inode (h : Layout sfs) {ci : Nat} (hci : ci < sfs.inodeCount) :
    (putLog sfs (closeLog sfs)).image (sfs.inode ci).ino =
      padded (inodeBytes (sfs.inode ci).inode) inodeSize :=
  image_of_closeLog h ((mem_closeLog h).mpr (Or.inr (Or.inr (Or.inr ⟨ci, hci, rfl⟩))))

/-- Every block written during a run, the closing writes included, lies below
the first free one. -/
theorem written_lt_nextIno (h : Layout sfs) {k : Nat}
    (hk : k ∈ (putLog sfs (closeLog sfs)).written) : k < sfs.nextIno := by
  have hfirst := h.first_le
  have hroot := firstIno_gt sfs.ninos
  unfold SFS_BLKN_ROOT at hroot
  change k ∈ ((closeLog sfs).map Prod.fst).reverse ++ sfs.written at hk
  rw [List.mem_append, List.mem_reverse, List.mem_map] at hk
  rcases hk with ⟨w, hw, rfl⟩ | hk
  · rcases (mem_closeLog h).mp hw with ⟨t, ht, rfl⟩ | rfl | ⟨cb, hcb, rfl⟩ | ⟨ci, hci, rfl⟩
    · exact lt_of_lt_of_le (Nat.add_lt_add_left ht _) hfirst
    · change 0 < _
      omega
    · exact (h.block_ino cb hcb).2
    · rcases h.inode_ino ci hci with heq | hin
      · unfold SFS_BLKN_ROOT at heq
        change (sfs.inode ci).ino < _
        omega
      · exact hin.2
  · exact (h.written_lt k hk).2

end Contents

end Ucore.MksfsImage
