import Ucore.MksfsBlockMap
import Ucore.SfsRuns

namespace Ucore.MksfsOwners

open Ucore.Panic
open Ucore.ByteBuffer
open Ucore.Ownership
open Ucore.SfsDisk
open Ucore.SfsMount
open Ucore.SfsOwnership
open Ucore.SfsRuns
open Ucore.Mksfs
open Ucore.MksfsLayout
open Ucore.MksfsTables
open Ucore.MksfsAppend
open Ucore.MksfsImage
open Ucore.MksfsFreemap
open Ucore.MksfsBlockMap

/-- What the image builder uses a block number for. -/
inductive Owner where
  | reserved (blkno : Nat)
  | inode (ci : Nat)
  | table (cb : Nat)
  | data (file index : Nat)

/-- The superblock and the freemap. -/
def Reserved (sfs : ImageFs) (b : Nat) : Prop :=
  b = SFS_BLKN_SUPER ∨ SFS_BLKN_FREEMAP ≤ b ∧ b < firstIno sfs.ninos

def Holds (sfs : ImageFs) (w : History) : Owner → Nat → Prop
  | .reserved k, b => Reserved sfs k ∧ b = k
  | .inode ci, b => ci < sfs.inodeCount ∧ b = (sfs.inode ci).ino
  | .table cb, b => cb < sfs.blockCount ∧ b = (sfs.block cb).ino
  | .data f i, b => (w f)[i]? = some b

/-- Every number that has been given out has one use, and no other number has one. -/
abbrev OwnsNumbers (sfs : ImageFs) (w : History) : Prop :=
  Owns (Holds sfs w) fun b => b < sfs.nextIno

section Numbers

variable {sfs sfs' : ImageFs} {w : History}

theorem ownsNumbers_congr (h : OwnsNumbers sfs w) (hninos : sfs'.ninos = sfs.ninos)
    (hnext : sfs'.nextIno = sfs.nextIno) (hinodeCount : sfs'.inodeCount = sfs.inodeCount)
    (hinode : ∀ ci, (sfs'.inode ci).ino = (sfs.inode ci).ino)
    (hblockCount : sfs'.blockCount = sfs.blockCount)
    (hblock : ∀ cb, (sfs'.block cb).ino = (sfs.block cb).ino) : OwnsNumbers sfs' w := by
  apply h.congr
  · intro o b
    cases o with
    | reserved k => rw [Holds, Holds, Reserved, Reserved, hninos]
    | inode ci => rw [Holds, Holds, hinodeCount, hinode]
    | table cb => rw [Holds, Holds, hblockCount, hblock]
    | data f i => exact Iff.rfl
  · intro b
    rw [hnext]

theorem ownsNumbers_setInode (h : OwnsNumbers sfs w) {ci : Nat} {v : CacheInode}
    (hino : v.ino = (sfs.inode ci).ino) : OwnsNumbers (sfs.setInode ci v) w := by
  refine ownsNumbers_congr h rfl rfl rfl ?_ rfl fun _ => rfl
  intro cj
  change (Function.update sfs.inode ci v cj).ino = _
  rcases eq_or_ne cj ci with rfl | hne
  · rw [Function.update_self, hino]
  · rw [Function.update_of_ne hne]

theorem ownsNumbers_setCache (h : OwnsNumbers sfs w) (cb : Nat) (cache : Bytes) :
    OwnsNumbers (sfs.setCache cb cache) w := by
  refine ownsNumbers_congr h rfl rfl rfl (fun _ => rfl) rfl ?_
  intro k
  change (Function.update sfs.block cb { sfs.block cb with cache := cache } k).ino = _
  rcases eq_or_ne k cb with rfl | hne
  · rw [Function.update_self]
  · rw [Function.update_of_ne hne]

theorem iff_or_of_ne {o o₀ : Owner} (hne : o ≠ o₀) (p q : Prop) : p ↔ p ∨ o = o₀ ∧ q :=
  (or_iff_left fun hboth => hne hboth.1).symm

theorem getElem?_push (l : List Nat) (b i k : Nat) :
    (l ++ [b])[i]? = some k ↔ l[i]? = some k ∨ i = l.length ∧ k = b := by
  rcases lt_trichotomy i l.length with hlt | rfl | hgt
  · rw [List.getElem?_append_left hlt]
    constructor
    · exact Or.inl
    · rintro (hold | ⟨rfl, _⟩)
      · exact hold
      · exact absurd hlt (lt_irrefl _)
  · rw [List.getElem?_append_right le_rfl, Nat.sub_self, List.getElem?_singleton, if_pos rfl,
      List.getElem?_eq_none le_rfl, Option.some.injEq]
    simp [eq_comm]
  · rw [List.getElem?_eq_none (by rw [List.length_append, List.length_singleton]; omega),
      List.getElem?_eq_none (Nat.le_of_lt hgt)]
    simp only [reduceCtorEq, false_or, false_iff]
    omega

/-- The next number becomes a block of a file. -/
theorem ownsNumbers_push (h : OwnsNumbers sfs w) (file : Nat) :
    OwnsNumbers (bump sfs) (w.push file sfs.nextIno) := by
  refine @Owns.take Owner Nat _ _ _ _ h (.data file (w file).length) sfs.nextIno (lt_irrefl _) ?_ ?_
  · intro o k
    cases o with
    | reserved b => exact iff_or_of_ne (by simp) _ _
    | inode ci => exact iff_or_of_ne (by simp) _ _
    | table cb => exact iff_or_of_ne (by simp) _ _
    | data f i =>
        simp only [Holds, Owner.data.injEq]
        rcases eq_or_ne f file with rfl | hne
        · rw [push_self, getElem?_push]
          simp
        · rw [push_of_ne hne]
          simp [hne]
  · intro k
    change k < sfs.nextIno + 1 ↔ _
    omega

/-- The next number becomes a table. -/
theorem ownsNumbers_pushBlock (h : OwnsNumbers sfs w) : OwnsNumbers (pushBlock sfs) w := by
  refine @Owns.take Owner Nat _ _ _ _ h (.table sfs.blockCount) sfs.nextIno (lt_irrefl _) ?_ ?_
  · intro o k
    cases o with
    | reserved b => exact iff_or_of_ne (by simp) _ _
    | inode ci => exact iff_or_of_ne (by simp) _ _
    | data f i => exact iff_or_of_ne (by simp) _ _
    | table cb =>
        change cb < sfs.blockCount + 1 ∧ k = (Function.update sfs.block sfs.blockCount _ cb).ino ↔
          cb < sfs.blockCount ∧ k = _ ∨ _
        rw [Owner.table.injEq]
        rcases eq_or_ne cb sfs.blockCount with rfl | hne
        · rw [Function.update_self]
          simp
        · rw [Function.update_of_ne hne]
          simp only [hne, false_and, or_false]
          apply and_congr_left
          intro _
          omega
  · intro k
    change k < sfs.nextIno + 1 ↔ _
    omega

theorem ownsNumbers_pushInode (h : OwnsNumbers sfs w) (real type : Nat) :
    OwnsNumbers (pushInode sfs real type) w := by
  refine @Owns.take Owner Nat _ _ _ _ h (.inode sfs.inodeCount) sfs.nextIno (lt_irrefl _) ?_ ?_
  · intro o k
    cases o with
    | reserved b => exact iff_or_of_ne (by simp) _ _
    | table cb => exact iff_or_of_ne (by simp) _ _
    | data f i => exact iff_or_of_ne (by simp) _ _
    | inode ci =>
        change ci < sfs.inodeCount + 1 ∧ k = (Function.update sfs.inode sfs.inodeCount _ ci).ino ↔
          ci < sfs.inodeCount ∧ k = _ ∨ _
        rw [Owner.inode.injEq]
        rcases eq_or_ne ci sfs.inodeCount with rfl | hne
        · rw [Function.update_self]
          simp
        · rw [Function.update_of_ne hne]
          simp only [hne, false_and, or_false]
          apply and_congr_left
          intro _
          omega
  · intro k
    change k < sfs.nextIno + 1 ↔ _
    omega

theorem ownsNumbers_updateCache (h : OwnsNumbers sfs w) {cbp : Option Nat} {ino cb num : Nat}
    (heq : updateCache sfs cbp ino = .ok (cb, num, sfs')) : OwnsNumbers sfs' w := by
  rcases updateCache_cases heq with ⟨_, _, _, _, rfl⟩ | ⟨_, _, _, rfl⟩
  · exact ownsNumbers_pushBlock h
  · exact h

theorem ownsNumbers_recordBlock (h : OwnsNumbers sfs w) {file ino : Nat}
    (heq : recordBlock sfs file ino = .ok sfs') : OwnsNumbers sfs' w := by
  unfold recordBlock at heq
  simp only at heq
  split at heq
  · cases heq
    exact ownsNumbers_setInode h rfl
  split at heq
  · obtain ⟨⟨l1, indirect, s⟩, hcache, hret⟩ := bind_eq_ok_iff.mp heq
    cases hret
    apply ownsNumbers_setCache
    apply ownsNumbers_setInode (ownsNumbers_updateCache h hcache)
    rw [(updateCache_inode hcache).1]
  split at heq
  · obtain ⟨⟨l2, dbIndirect, s⟩, hcache, hret⟩ := bind_eq_ok_iff.mp heq
    obtain ⟨⟨l1, table, t⟩, hcache', hret'⟩ := bind_eq_ok_iff.mp hret
    cases hret'
    apply ownsNumbers_setCache
    apply ownsNumbers_setInode
    · apply ownsNumbers_setCache
      exact ownsNumbers_updateCache (ownsNumbers_updateCache h hcache) hcache'
    · change _ = (t.inode file).ino
      rw [(updateCache_inode hcache').1, (updateCache_inode hcache).1]
  · cases heq
    exact h

theorem ownsNumbers_appendBlock (h : OwnsNumbers sfs w) {file size ino : Nat}
    (heq : appendBlock sfs file size ino = .ok sfs') : OwnsNumbers sfs' w := by
  obtain ⟨_, _, hrest⟩ := bind_eq_ok_iff.mp heq
  split at hrest
  · cases hrest
  · obtain ⟨s, hrecord, hret⟩ := bind_eq_ok_iff.mp hrest
    cases hret
    exact ownsNumbers_setInode (ownsNumbers_recordBlock h hrecord) rfl

/-- Taking a number, writing its block and appending it to a file. -/
theorem ownsNumbers_append (h : OwnsNumbers sfs w) {file size len : Nat} {data : Bytes}
    (heq : appendBlock (putBlock (bump sfs) data len sfs.nextIno) file size sfs.nextIno =
      .ok sfs') : OwnsNumbers sfs' (w.push file sfs.nextIno) := by
  refine ownsNumbers_appendBlock ?_ heq
  exact ownsNumbers_congr (ownsNumbers_push h file) rfl rfl rfl (fun _ => rfl) rfl fun _ => rfl

theorem ownsNumbers_perform (h : OwnsNumbers sfs w) {op : Op} (heq : perform sfs op = .ok sfs') :
    OwnsNumbers sfs' (record sfs w op) := by
  cases op with
  | addInode real type =>
      obtain ⟨⟨ci, s⟩, halloc, hret⟩ := bind_eq_ok_iff.mp heq
      obtain ⟨_, rfl, rfl⟩ := allocCacheInode_eq_ok_iff.mp halloc
      cases hret
      exact ownsNumbers_pushInode h real type
  | storeBlock file buffer len =>
      obtain ⟨⟨ino, s₁⟩, halloc, hrest⟩ := bind_eq_ok_iff.mp heq
      obtain ⟨_, rfl, rfl⟩ := sfsAllocIno_eq_ok_iff.mp halloc
      obtain ⟨s₂, hwrite, happend⟩ := bind_eq_ok_iff.mp hrest
      obtain ⟨_, rfl⟩ := writeBlock_eq_ok_iff.mp hwrite
      exact ownsNumbers_append h happend
  | addEntry current file name =>
      obtain ⟨_, _, hrest⟩ := bind_eq_ok_iff.mp heq
      obtain ⟨⟨ino, s₁⟩, halloc, hrest⟩ := bind_eq_ok_iff.mp hrest
      obtain ⟨_, rfl, rfl⟩ := sfsAllocIno_eq_ok_iff.mp halloc
      obtain ⟨s₂, hwrite, hrest⟩ := bind_eq_ok_iff.mp hrest
      obtain ⟨_, rfl⟩ := writeBlock_eq_ok_iff.mp hwrite
      obtain ⟨s₃, happend, hret⟩ := bind_eq_ok_iff.mp hrest
      cases hret
      have hentry : ∀ entry, OwnsNumbers { sfs with entry := entry } w := fun entry =>
        ownsNumbers_congr h rfl rfl rfl (fun _ => rfl) rfl fun _ => rfl
      exact ownsNumbers_setInode (ownsNumbers_append (hentry _) happend) rfl

theorem ownsNumbers_rootFs (ninos : Nat) (image : Nat → Bytes) (malloced : Bytes) :
    OwnsNumbers (rootFs ninos image malloced) fun _ => [] := by
  have hroot := firstIno_gt ninos
  have hholds : ∀ o b, Holds (rootFs ninos image malloced) (fun _ => []) o b ↔
      o = .reserved b ∧ (b = 0 ∨ 2 ≤ b ∧ b < firstIno ninos) ∨ o = .inode 0 ∧ b = 1 := by
    intro o b
    cases o with
    | reserved k =>
        change (k = 0 ∨ 2 ≤ k ∧ k < firstIno ninos) ∧ b = k ↔ _
        rw [Owner.reserved.injEq]
        simp only [reduceCtorEq, false_and, or_false]
        constructor
        · rintro ⟨hk, rfl⟩
          exact ⟨rfl, hk⟩
        · rintro ⟨rfl, hk⟩
          exact ⟨hk, rfl⟩
    | inode ci =>
        have hino : ((rootFs ninos image malloced).inode 0).ino = 1 := rfl
        change ci < 1 ∧ b = ((rootFs ninos image malloced).inode ci).ino ↔ _
        rw [Owner.inode.injEq, Nat.lt_one_iff]
        simp only [reduceCtorEq, false_and, false_or]
        apply and_congr_right
        rintro rfl
        rw [hino]
    | table cb =>
        change cb < 0 ∧ _ ↔ _
        simp
    | data f i => simp [Holds]
  unfold SFS_BLKN_ROOT at hroot
  constructor
  · intro o o' b ho ho'
    rw [hholds] at ho ho'
    rcases ho with ⟨rfl, hb⟩ | ⟨rfl, hb⟩
    · rcases ho' with ⟨rfl, _⟩ | ⟨rfl, hb'⟩
      · rfl
      · omega
    · rcases ho' with ⟨rfl, hb'⟩ | ⟨rfl, _⟩
      · omega
      · rfl
  · intro o b ho
    rw [hholds] at ho
    change b < firstIno ninos
    omega
  · intro b hb
    change b < firstIno ninos at hb
    rcases eq_or_ne b 1 with rfl | hne
    · exact ⟨.inode 0, (hholds _ _).mpr (Or.inr ⟨rfl, rfl⟩)⟩
    · exact ⟨.reserved b, (hholds _ _).mpr (Or.inl ⟨rfl, by omega⟩)⟩

theorem ownsNumbers_built {stSize : Nat} {image : Nat → Bytes} (h : Built stSize image sfs w) :
    OwnsNumbers sfs w := by
  induction h with
  | create heq =>
      obtain ⟨_, rfl⟩ := createSfs_eq_ok_iff.mp heq
      exact ownsNumbers_rootFs _ _ _
  | step _ _ heq ih => exact ownsNumbers_perform ih heq

end Numbers

section Covered

variable {sfs sfs' : ImageFs} {w : History} {tbl : TableMap}

/-- Every cached block is the indirect block of a file. -/
def Covered (sfs : ImageFs) : Prop :=
  ∀ cb, cb < sfs.blockCount → ∃ f, f < sfs.inodeCount ∧
    (sfs.inode f).inode.indirect = (sfs.block cb).ino

theorem covered_congr (h : Covered sfs) (hinodeCount : sfs.inodeCount ≤ sfs'.inodeCount)
    (hinode : ∀ f, f < sfs.inodeCount →
      (sfs'.inode f).inode.indirect = (sfs.inode f).inode.indirect)
    (hblockCount : sfs'.blockCount = sfs.blockCount)
    (hblock : ∀ cb, (sfs'.block cb).ino = (sfs.block cb).ino) : Covered sfs' := by
  intro cb hcb
  obtain ⟨f, hf, heq⟩ := h cb (lt_of_lt_of_eq hcb hblockCount)
  exact ⟨f, lt_of_lt_of_le hf hinodeCount, by rw [hinode f hf, hblock, heq]⟩

/-- The inode of a file keeps its indirect block. -/
theorem covered_setInode (h : Covered sfs) {f : Nat} {v : CacheInode}
    (hv : v.inode.indirect = (sfs.inode f).inode.indirect) : Covered (sfs.setInode f v) := by
  refine covered_congr h le_rfl ?_ rfl fun _ => rfl
  intro g _
  change (Function.update sfs.inode f v g).inode.indirect = _
  rcases eq_or_ne g f with rfl | hne
  · rw [Function.update_self, hv]
  · rw [Function.update_of_ne hne]

theorem covered_setCache (h : Covered sfs) (cb : Nat) (cache : Bytes) :
    Covered (sfs.setCache cb cache) := by
  refine covered_congr h le_rfl (fun _ _ => rfl) rfl ?_
  intro k
  change (Function.update sfs.block cb { sfs.block cb with cache := cache } k).ino = _
  rcases eq_or_ne k cb with rfl | hne
  · rw [Function.update_self]
  · rw [Function.update_of_ne hne]

/-- A file that has not reached its double indirect block only adds an indirect block. -/
theorem covered_recordBlock (hl : Layout sfs) (h : Covered sfs) {file b : Nat}
    (hfile : file < sfs.inodeCount) (hshort : (sfs.inode file).nblks < SFS_L1_NBLKS)
    (heq : recordBlock sfs file b = .ok sfs') : Covered sfs' := by
  unfold recordBlock at heq
  simp only at heq
  split at heq
  · cases heq
    exact covered_setInode h rfl
  · obtain ⟨⟨l1, indirect, s⟩, hcache, hret⟩ := bind_eq_ok_iff.mp heq
    cases hret
    apply covered_setCache
    intro cb hcb
    change cb < s.blockCount at hcb
    change ∃ f, f < s.inodeCount ∧
      (Function.update s.inode file _ f).inode.indirect = (s.block cb).ino
    rcases updateCache_cases hcache with ⟨hzero, _, rfl, rfl, rfl⟩ | ⟨_, _, rfl, rfl⟩
    · rcases Nat.eq_or_lt_of_le (Nat.le_of_lt_succ hcb) with rfl | hold
      · refine ⟨file, hfile, ?_⟩
        rw [Function.update_self]
        simp [pushBlock]
      · have hne : cb ≠ sfs.blockCount := Nat.ne_of_lt hold
        obtain ⟨f, hf, hindirect⟩ := h cb hold
        refine ⟨f, hf, ?_⟩
        have hother : f ≠ file := by
          rintro rfl
          have hpos := (hl.block_ino cb hold).1
          have hroot := firstIno_gt sfs.ninos
          omega
        rw [Function.update_of_ne hother]
        change (sfs.inode f).inode.indirect = (Function.update sfs.block sfs.blockCount _ cb).ino
        rw [Function.update_of_ne hne, hindirect]
    · obtain ⟨f, hf, hindirect⟩ := h cb hcb
      refine ⟨f, hf, ?_⟩
      rcases eq_or_ne f file with rfl | hne
      · rw [Function.update_self, ← hindirect]
      · rw [Function.update_of_ne hne, hindirect]

theorem covered_appendBlock (hl : Layout sfs) (h : Covered sfs) {file size b : Nat}
    (hfile : file < sfs.inodeCount) (hshort : (sfs.inode file).nblks < SFS_L1_NBLKS)
    (heq : appendBlock sfs file size b = .ok sfs') : Covered sfs' := by
  obtain ⟨_, _, hrest⟩ := bind_eq_ok_iff.mp heq
  split at hrest
  · cases hrest
  · obtain ⟨s, hrecord, hret⟩ := bind_eq_ok_iff.mp hrest
    cases hret
    exact covered_setInode (covered_recordBlock hl h hfile hshort hrecord) rfl

theorem length_le_record (sfs : ImageFs) (w : History) (op : Op) (f : Nat) :
    (w f).length ≤ (record sfs w op f).length := by
  have hpush : ∀ file b, (w f).length ≤ (w.push file b f).length := by
    intro file b
    rcases eq_or_ne f file with rfl | hne
    · rw [length_push]
      exact Nat.le_succ _
    · rw [push_of_ne hne]
  cases op with
  | addInode real type => exact le_rfl
  | storeBlock file buffer len => exact hpush _ _
  | addEntry current file name => exact hpush _ _

/-- Before its last block the file has room in its indirect block. -/
theorem nblks_lt_of_push (h : Tables sfs w tbl) {file b : Nat} (hfile : file < sfs.inodeCount)
    (hmax : (w.push file b file).length ≤ maxBlocks) :
    (sfs.inode file).nblks < SFS_L1_NBLKS := by
  rw [length_push] at hmax
  rw [h.nblks file hfile]
  exact hmax

theorem covered_perform (hl : Layout sfs) (ht : Tables sfs w tbl) (h : Covered sfs) {op : Op}
    (hvalid : Valid sfs op) (hmax : ∀ f, (record sfs w op f).length ≤ maxBlocks)
    (heq : perform sfs op = .ok sfs') : Covered sfs' := by
  cases op with
  | addInode real type =>
      obtain ⟨⟨ci, s⟩, halloc, hret⟩ := bind_eq_ok_iff.mp heq
      obtain ⟨_, rfl, rfl⟩ := allocCacheInode_eq_ok_iff.mp halloc
      cases hret
      refine covered_congr h (Nat.le_succ _) ?_ rfl fun _ => rfl
      intro f hf
      change (Function.update sfs.inode sfs.inodeCount _ f).inode.indirect = _
      rw [Function.update_of_ne (Nat.ne_of_lt hf)]
  | storeBlock file buffer len =>
      obtain ⟨⟨ino, s₁⟩, halloc, hrest⟩ := bind_eq_ok_iff.mp heq
      obtain ⟨hlt, rfl, rfl⟩ := sfsAllocIno_eq_ok_iff.mp halloc
      obtain ⟨s₂, hwrite, happend⟩ := bind_eq_ok_iff.mp hrest
      obtain ⟨_, rfl⟩ := writeBlock_eq_ok_iff.mp hwrite
      have hl' := layout_putBlock (layout_bump hl hlt) hl.first_le (Nat.lt_succ_self _) buffer len
      have hmax' : (w.push file sfs.nextIno file).length ≤ maxBlocks := hmax file
      exact covered_appendBlock hl' h hvalid (nblks_lt_of_push ht hvalid hmax') happend
  | addEntry current file name =>
      obtain ⟨_, _, hrest⟩ := bind_eq_ok_iff.mp heq
      obtain ⟨⟨ino, s₁⟩, halloc, hrest⟩ := bind_eq_ok_iff.mp hrest
      obtain ⟨hlt, rfl, rfl⟩ := sfsAllocIno_eq_ok_iff.mp halloc
      obtain ⟨s₂, hwrite, hrest⟩ := bind_eq_ok_iff.mp hrest
      obtain ⟨_, rfl⟩ := writeBlock_eq_ok_iff.mp hwrite
      obtain ⟨s₃, happend, hret⟩ := bind_eq_ok_iff.mp hrest
      cases hret
      refine covered_setInode ?_ rfl
      have hentry : ∀ entry, Layout { sfs with entry := entry } := fun entry =>
        @layout_congr sfs { sfs with entry := entry } hl rfl rfl rfl (fun _ => rfl) rfl rfl
          (fun _ => rfl) rfl rfl hl.written_lt
      have hl' := layout_putBlock (layout_bump (hentry _) hlt) hl.first_le (Nat.lt_succ_self _)
      have hmax' : (w.push current sfs.nextIno current).length ≤ maxBlocks := hmax current
      exact covered_appendBlock (hl' _ _) h hvalid.1 (nblks_lt_of_push ht hvalid.1 hmax') happend

theorem covered_built {stSize : Nat} {image : Nat → Bytes} (h : Built stSize image sfs w)
    (hmax : ∀ f, (w f).length ≤ maxBlocks) : Covered sfs := by
  induction h with
  | create heq =>
      obtain ⟨_, rfl⟩ := createSfs_eq_ok_iff.mp heq
      intro cb hcb
      exact absurd hcb (Nat.not_lt_zero cb)
  | step hbuilt hvalid heq ih =>
      obtain ⟨tbl, htables⟩ := tables_built hbuilt
      exact covered_perform (layout_built hbuilt) htables
        (ih fun f => le_trans (length_le_record _ _ _ f) (hmax f)) hvalid hmax heq

end Covered

section Image

variable {sfs : ImageFs} {w : History} {tbl : TableMap}

/-- The inode numbers on the image. -/
def Files (sfs : ImageFs) (ino : Nat) : Prop :=
  ∃ ci, ci < sfs.inodeCount ∧ (sfs.inode ci).ino = ino

/-- An inode as the kernel loads it from the image. -/
def diskInode (sfs : ImageFs) (ci : Nat) : SfsDiskInode :=
  loadDiskInode ((closed sfs).image (sfs.inode ci).ino)

theorem block_ino_bounds (hl : Layout sfs) {cb : Nat} (hcb : cb < sfs.blockCount) :
    (sfs.block cb).ino ≠ 0 ∧ (sfs.block cb).ino < 2 ^ 32 := by
  have hin := hl.block_ino cb hcb
  have hroot := firstIno_gt sfs.ninos
  have hmax : sfs.nextIno ≤ 1024 * 512 := le_trans hl.next_le hl.ninos_le
  omega

theorem indirect_diskInode (hl : Layout sfs) (h : Tables sfs w tbl) {f : Nat}
    (hf : f < sfs.inodeCount) :
    (diskInode sfs f).indirect = (sfs.inode f).inode.indirect := by
  rw [diskInode, closed, image_inode hl hf, (loadDiskInode_flushed _).2.2,
    (h.mapped f hf).indirect]
  apply Nat.mod_eq_of_lt
  cases htbl : tbl f (.data 0) with
  | none => exact Nat.two_pow_pos 32
  | some cb => exact (block_ino_bounds hl (h.placed.table_lt f _ cb htbl).2).2

theorem blocks_diskInode (hl : Layout sfs) (h : Tables sfs w tbl) {f : Nat}
    (hf : f < sfs.inodeCount) : (diskInode sfs f).blocks = (w f).length := by
  have hmax : SFS_LN_NBLKS < 2 ^ 32 := by decide
  rw [diskInode, closed, image_inode hl hf, (loadDiskInode_flushed _).1, h.blocks f hf]
  exact Nat.mod_eq_of_lt (lt_of_le_of_lt (h.length_le f) hmax)

/-- Behind the end of a file its block map on the image holds nothing. -/
theorem blockAt_diskInode_end (hl : Layout sfs) (h : Tables sfs w tbl) {f : Nat}
    (hf : f < sfs.inodeCount) {i : Nat} (hi : i < maxBlocks) (hlen : (w f).length ≤ i) :
    blockAt (closed sfs).image (diskInode sfs f) i = 0 := by
  have hmapped := h.mapped f hf
  rcases lt_or_ge i SFS_NDIRECT with hnear | hfar
  · rw [blockAt_near hnear, diskInode, closed, image_inode hl hf,
      (loadDiskInode_flushed _).2.1 i hnear, hmapped.direct i hnear, List.getD_eq_default _ _ hlen,
      Nat.zero_mod]
  · rw [blockAt_far hfar, indirect_diskInode hl h hf, hmapped.indirect]
    cases htbl : tbl f (.data 0) with
    | none => exact if_pos rfl
    | some cb =>
        have hcb := (h.placed.table_lt f _ cb htbl).2
        have hword : i - SFS_NDIRECT < SFS_BLK_NENTRY := by
          unfold maxBlocks at hi
          omega
        have hindex : tableStart 0 + (i - SFS_NDIRECT) = i := by
          have hstart : tableStart 0 = SFS_NDIRECT := rfl
          omega
        rw [inoOf, if_neg (block_ino_bounds hl hcb).1, closed, image_block hl hcb,
          getWord_padded hword, hmapped.data 0 cb htbl _ hword, hindex,
          List.getD_eq_default _ _ hlen]

/-- The uses of the builder under the names that the kernel has for them. -/
def Named (sfs : ImageFs) : Owner → SfsOwnership.Owner → Prop
  | .reserved k, o => o = .reserved k
  | .inode ci, o => o = .inode (sfs.inode ci).ino
  | .table cb, o => ∃ f, f < sfs.inodeCount ∧
      (sfs.inode f).inode.indirect = (sfs.block cb).ino ∧ o = .indirect (sfs.inode f).ino
  | .data f i, o => o = .data (sfs.inode f).ino i

/-- A cached block is the indirect block of one file. -/
theorem indirect_inj (hl : Layout sfs) (h : Tables sfs w tbl) {f g cb : Nat}
    (hf : f < sfs.inodeCount) (hg : g < sfs.inodeCount) (hcb : cb < sfs.blockCount)
    (heq : (sfs.inode f).inode.indirect = (sfs.block cb).ino)
    (heq' : (sfs.inode g).inode.indirect = (sfs.block cb).ino) : f = g := by
  have htable : ∀ k, k < sfs.inodeCount → (sfs.inode k).inode.indirect = (sfs.block cb).ino →
      tbl k (.data 0) = some cb := by
    intro k hk hindirect
    rw [(h.mapped k hk).indirect] at hindirect
    cases htbl : tbl k (.data 0) with
    | none =>
        rw [htbl] at hindirect
        exact absurd hindirect.symm (block_ino_bounds hl hcb).1
    | some c =>
        rw [htbl] at hindirect
        rw [hl.block_inj c cb (h.placed.table_lt k _ c htbl).2 hcb hindirect]
  exact (h.placed.table_inj f g _ _ cb (htable f hf heq) (htable g hg heq')).1

theorem named_unique (hl : Layout sfs) (h : Tables sfs w tbl) {o : Owner} {b : Nat}
    (ho : Holds sfs w o b) {o₁ o₂ : SfsOwnership.Owner} (h₁ : Named sfs o o₁)
    (h₂ : Named sfs o o₂) : o₁ = o₂ := by
  cases o with
  | reserved k => exact h₁.trans h₂.symm
  | inode ci => exact h₁.trans h₂.symm
  | data f i => exact h₁.trans h₂.symm
  | table cb =>
      obtain ⟨f, hf, hindirect, rfl⟩ := h₁
      obtain ⟨g, hg, hindirect', rfl⟩ := h₂
      rw [indirect_inj hl h hf hg ho.1 hindirect hindirect']

end Image

section Mounted

variable {sfs : ImageFs} {w : History} {tbl : TableMap} {m : SfsFs}

/-- No inode is in memory after a mount. -/
theorem inodeList_of_mount {kmalloc : Nat → Bool} {dev dev' : Device}
    (heq : sfsDoMount kmalloc dev = .ok (.ok m, dev')) : m.inodeList = [] := by
  unfold sfsDoMount at heq
  split at heq
  · cases heq
  obtain ⟨b, dev₁, _, heq⟩ | ⟨e, _, habsurd⟩ := KernelRoutine.bind_eq_ok_iff.mp heq
  swap
  · cases habsurd
  rw [KernelRoutine.getState_bind] at heq
  split at heq
  · cases heq
  split at heq
  · cases heq
  split at heq
  · cases heq
  unfold mountFreemap at heq
  obtain ⟨created, dev₂, _, heq⟩ | ⟨e, _, habsurd⟩ := KernelRoutine.bind_eq_ok_iff.mp heq
  swap
  · cases habsurd
  cases created with
  | none => cases heq
  | some freemap =>
      obtain ⟨freemap', dev₃, _, heq⟩ | ⟨e, _, habsurd⟩ := KernelRoutine.bind_eq_ok_iff.mp heq
      swap
      · cases habsurd
      obtain ⟨unused, dev₄, _, heq⟩ | ⟨e, _, habsurd⟩ := KernelRoutine.bind_eq_ok_iff.mp heq
      swap
      · cases habsurd
      obtain ⟨_, dev₅, _, heq⟩ | ⟨e, _, habsurd⟩ := KernelRoutine.bind_eq_ok_iff.mp heq
      swap
      · cases habsurd
      cases heq
      rfl

/-- What the kernel has in memory after it has mounted the image of the builder. -/
structure Fresh (sfs : ImageFs) (m : SfsFs) : Prop where
  freemap : FreemapOk m
  blocks : m.super.blocks = sfs.ninos
  block : m.dev.block = (closed sfs).image
  inodeList : m.inodeList = []
  inUse : ∀ b, InUse m b ↔ b < sfs.nextIno

theorem fresh_of_mount (hl : Layout sfs) {dev : Device} (hdev : dev.block = (closed sfs).image)
    (hfaults : ∀ n, dev.faults n = none) (hblocks : sfs.ninos ≤ dev.dBlocks)
    {kmalloc : Nat → Bool} (hmalloc : ∀ n, kmalloc n = true) :
    ∃ m, sfsDoMount kmalloc dev = .ok (.ok m, dev) ∧ Fresh sfs m := by
  obtain ⟨m, hmount, hm⟩ := mounted_closed hl hdev hfaults hblocks hmalloc
  obtain ⟨m', hmount', hsuper, _, _, _, _, hbit⟩ := sfsDoMount_closed hl hdev hfaults hblocks hmalloc
  rw [hmount] at hmount'
  cases hmount'
  have hcover : sfs.ninos ≤ freemapBlocks sfs.ninos * SFS_BLKBITS := by
    unfold freemapBlocks SFS_BLKBITS SFS_BLKSIZE
    omega
  refine ⟨m, hmount, hm.freemap, hsuper, ?_, inodeList_of_mount hmount, fun b => ⟨?_, hm.used b⟩⟩
  · rw [hm.dev, hdev]
  · rintro ⟨hlt, hclear⟩
    rw [hsuper] at hlt
    by_contra hge
    rw [(hbit b (lt_of_lt_of_le hlt hcover)).mpr ⟨not_lt.mp hge, hlt⟩] at hclear
    cases hclear

theorem dinOf_fresh (hm : Fresh sfs m) (ci : Nat) :
    dinOf m (sfs.inode ci).ino = diskInode sfs ci := by
  rw [dinOf, hm.inodeList, if_neg List.not_mem_nil, hm.block, diskInode]

theorem fileBlock_fresh (hm : Fresh sfs m) (ci i : Nat) :
    fileBlock m (sfs.inode ci).ino i = blockAt (closed sfs).image (diskInode sfs ci) i := by
  rw [fileBlock, dinOf_fresh hm, hm.block]

/-- The names that the kernel has for what holds the blocks of the image. -/
theorem holds_fresh (hl : Layout sfs) (h : Tables sfs w tbl) (hm : Fresh sfs m)
    (hmax : ∀ f, (w f).length ≤ maxBlocks) (o : SfsOwnership.Owner) (b : Nat) :
    SfsOwnership.Holds m (imageUsage m.super (Files sfs)) o b ↔
      ∃ u, Named sfs u o ∧ Holds sfs w u b := by
  cases o with
  | reserved k =>
      have hreserved : (imageUsage m.super (Files sfs)).reserved k ↔ Reserved sfs k := by
        change k = _ ∨ _ ∧ k < SFS_BLKN_FREEMAP + sfsFreemapBlocks m.super ↔ _
        rw [Reserved, firstIno, sfsFreemapBlocks, hm.blocks]
      rw [SfsOwnership.Holds, hreserved]
      constructor
      · intro hholds
        exact ⟨.reserved k, rfl, hholds⟩
      · rintro ⟨u, hname, hholds⟩
        cases u with
        | reserved j =>
            cases hname
            exact hholds
        | inode ci => cases hname
        | table cb => obtain ⟨_, _, _, heq⟩ := hname; cases heq
        | data f i => cases hname
  | inode ino =>
      constructor
      · rintro ⟨⟨ci, hci, rfl⟩, rfl⟩
        exact ⟨.inode ci, rfl, hci, rfl⟩
      · rintro ⟨u, hname, hholds⟩
        cases u with
        | reserved j => cases hname
        | inode ci =>
            cases hname
            exact ⟨⟨ci, hholds.1, rfl⟩, hholds.2⟩
        | table cb => obtain ⟨_, _, _, heq⟩ := hname; cases heq
        | data f i => cases hname
  | indirect ino =>
      constructor
      · rintro ⟨⟨ci, hci, rfl⟩, hne, rfl⟩
        rw [dinOf_fresh hm, indirect_diskInode hl h hci] at hne ⊢
        rw [(h.mapped ci hci).indirect] at hne
        cases htbl : tbl ci (.data 0) with
        | none =>
            rw [htbl] at hne
            exact absurd rfl hne
        | some cb =>
            have hindirect : (sfs.inode ci).inode.indirect = (sfs.block cb).ino := by
              rw [(h.mapped ci hci).indirect, htbl, inoOf]
            exact ⟨.table cb, ⟨ci, hci, hindirect, rfl⟩, (h.placed.table_lt ci _ cb htbl).2, hindirect⟩
      · rintro ⟨u, hname, hholds⟩
        cases u with
        | reserved j => cases hname
        | inode ci => cases hname
        | table cb =>
            obtain ⟨f, hf, hindirect, heq⟩ := hname
            cases heq
            refine ⟨⟨f, hf, rfl⟩, ?_⟩
            rw [dinOf_fresh hm, indirect_diskInode hl h hf, hindirect]
            exact ⟨(block_ino_bounds hl hholds.1).1, hholds.2⟩
        | data f i => cases hname
  | data ino i =>
      constructor
      · rintro ⟨⟨ci, hci, rfl⟩, hi, rfl⟩
        rw [dinOf_fresh hm, blocks_diskInode hl h hci] at hi
        refine ⟨.data ci i, rfl, ?_⟩
        have hget := List.getElem?_eq_getElem hi
        rw [Holds, hget, fileBlock_fresh hm, diskInode,
          (blockAt_closed hl h hci (lt_of_lt_of_le hi (hmax ci)) hget).1]
      · rintro ⟨u, hname, hholds⟩
        cases u with
        | reserved j => cases hname
        | inode ci => cases hname
        | table cb => obtain ⟨_, _, _, heq⟩ := hname; cases heq
        | data f j =>
            cases hname
            have hi : i < (w f).length := (List.getElem?_eq_some_iff.mp hholds).1
            have hf : f < sfs.inodeCount := by
              by_contra hge
              rw [h.fresh f (not_lt.mp hge)] at hi
              exact absurd hi (Nat.not_lt_zero i)
            refine ⟨⟨f, hf, rfl⟩, ?_, ?_⟩
            · rw [dinOf_fresh hm, blocks_diskInode hl h hf]
              exact hi
            · rw [fileBlock_fresh hm, diskInode,
                (blockAt_closed hl h hf (lt_of_lt_of_le hi (hmax f)) hholds).1]

theorem named_of_holds (hcovered : Covered sfs) {o : Owner} {b : Nat} (ho : Holds sfs w o b) :
    ∃ o', Named sfs o o' := by
  cases o with
  | reserved k => exact ⟨_, rfl⟩
  | inode ci => exact ⟨_, rfl⟩
  | data f i => exact ⟨_, rfl⟩
  | table cb =>
      obtain ⟨f, hf, heq⟩ := hcovered cb ho.1
      exact ⟨_, f, hf, heq, rfl⟩

theorem wellFormed_fresh {stSize : Nat} {image : Nat → Bytes} (h : Built stSize image sfs w)
    (hm : Fresh sfs m) (hmax : ∀ f, (w f).length ≤ maxBlocks) :
    WellFormed m (imageUsage m.super (Files sfs)) := by
  have hl := layout_built h
  obtain ⟨tbl, htables⟩ := tables_built h
  have howns := ownsNumbers_built h
  refine ⟨hm.freemap, ?_, Or.inl rfl, ?_, ?_, ?_⟩
  · refine Owns.congr ?_ (fun o b => Iff.rfl) hm.inUse
    exact howns.rename (fun ho h₁ h₂ => named_unique hl htables ho h₁ h₂)
      (fun ho => named_of_holds (covered_built h hmax) ho) (holds_fresh hl htables hm hmax)
  · rintro ino ⟨ci, hci, rfl⟩
    rw [dinOf_fresh hm, blocks_diskInode hl htables hci]
    exact hmax ci
  · rintro ino i ⟨ci, hci, rfl⟩ hi
    rw [dinOf_fresh hm, blocks_diskInode hl htables hci, fileBlock_fresh hm]
    rcases lt_or_ge i (w ci).length with hlt | hge
    · have hget := List.getElem?_eq_getElem hlt
      rw [diskInode, (blockAt_closed hl htables hci hi hget).1]
      exact iff_of_true (number_lt hl htables (List.getElem_mem hlt)).1 hlt
    · rw [blockAt_diskInode_end hl htables hci hi hge]
      exact iff_of_false (fun hne => hne rfl) (not_lt.mpr hge)
  · intro ino hin
    rw [hm.inodeList] at hin
    cases hin

end Mounted

/-- The kernel finds a well-formed file system on the image, and keeps account of its blocks from
then on, if and only if no file has more blocks than its block map reaches. -/
theorem wellFormed_image_iff {stSize : Nat} {image : Nat → Bytes} {sfs : ImageFs} {w : History}
    (h : Built stSize image sfs w) :
    ∃ img, closeSfs sfs = .ok img ∧
      ∀ (dev : Device) (kmalloc : Nat → Bool), dev.block = img.image →
        (∀ n, dev.faults n = none) → sfs.ninos ≤ dev.dBlocks → (∀ n, kmalloc n = true) →
          ∃ m, sfsDoMount kmalloc dev = .ok (.ok m, dev) ∧
            (WellFormed m (imageUsage m.super (Files sfs)) ↔ ∀ f, (w f).length ≤ maxBlocks) ∧
            ((∀ f, (w f).length ≤ maxBlocks) → ∀ ops m',
              Run (imageUsage m.super (Files sfs)) m ops m' →
                BlocksAccounted m' (imageUsage m.super (Files sfs))) := by
  have hl := layout_built h
  obtain ⟨tbl, htables⟩ := tables_built h
  refine ⟨closed sfs, closeSfs_eq hl, ?_⟩
  intro dev kmalloc hdev hfaults hblocks hmalloc
  obtain ⟨m, hmount, hm⟩ := fresh_of_mount hl hdev hfaults hblocks hmalloc
  refine ⟨m, hmount, ⟨?_, wellFormed_fresh h hm⟩, ?_⟩
  · intro hwell f
    rcases lt_or_ge f sfs.inodeCount with hf | hge
    · have hmax := hwell.blocks_max _ ⟨f, hf, rfl⟩
      rwa [dinOf_fresh hm, blocks_diskInode hl htables hf] at hmax
    · rw [htables.fresh f hge]
      exact Nat.zero_le _
  · intro hmax ops m' hrun
    exact blocksAccounted (wellFormed_of_run (wellFormed_fresh h hm hmax) hrun)

/-- The image with a file that uses its whole indirect block. -/
theorem wellFormed_image_iff_1036_blocks :
    ∃ (sfs : ImageFs) (w : History) (img : ImageFs) (m : SfsFs), bigFile 1036 = .ok sfs ∧
      Built (8192 * SFS_BLKSIZE) (fun _ => zeros) sfs w ∧ (w 1).length = 1036 ∧
      closeSfs sfs = .ok img ∧
      sfsDoMount (fun _ => true) (imageDevice img) = .ok (.ok m, imageDevice img) ∧
        (WellFormed m (imageUsage m.super (Files sfs)) ↔ ∀ f, (w f).length ≤ maxBlocks) := by
  obtain ⟨sfs, w, heq, _, hninos, _, hlen, hbuilt⟩ := bigFile_returns (by decide : 1036 ≤ 2000)
  obtain ⟨img, hclose, hmounts⟩ := wellFormed_image_iff hbuilt
  obtain ⟨m, hmount, hiff, _⟩ := hmounts (imageDevice img) (fun _ => true) rfl (fun _ => rfl)
    (le_of_eq hninos) (fun _ => rfl)
  exact ⟨sfs, w, img, m, heq, hbuilt, hlen, hclose, hmount, hiff⟩

end Ucore.MksfsOwners
