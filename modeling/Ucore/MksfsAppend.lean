import Ucore.MksfsTables

namespace Ucore.MksfsAppend

open Ucore.Panic
open Ucore.ByteBuffer
open Ucore.SfsDisk
open Ucore.Mksfs
open Ucore.MksfsLayout
open Ucore.MksfsTables

section Recording

variable {sfs sfs' : ImageFs} {w : History} {tbl : TableMap} {file b : Nat}

theorem push_self (w : History) (file b : Nat) : w.push file b file = w file ++ [b] :=
  Function.update_self _ _ _

theorem push_of_ne {f : Nat} (hne : f ≠ file) (w : History) (b : Nat) : w.push file b f = w f :=
  Function.update_of_ne hne _ _

/-- What the part of `append_block` that stores a number does to the tables. -/
structure Recorded (sfs sfs' : ImageFs) (w : History) (file b : Nat) (tbl' : TableMap) : Prop where
  placed : Placed sfs' tbl'
  mapped : ∀ f, f < sfs.inodeCount →
    Mapped sfs'.block (sfs'.inode f).inode (w.push file b f) (tbl' f)
  opened : ∀ f, f < sfs.inodeCount → TablesOpen sfs' (w.push file b) tbl' f
  inodeCount : sfs'.inodeCount = sfs.inodeCount
  ninos : sfs'.ninos = sfs.ninos
  nextIno : sfs.nextIno ≤ sfs'.nextIno
  nblks : ∀ f, (sfs'.inode f).nblks = (sfs.inode f).nblks
  blocks : ∀ f, (sfs'.inode f).inode.blocks = (sfs.inode f).inode.blocks

theorem tableStart_eq (d : Nat) : tableStart d = 12 + 1024 * d := rfl

theorem tableStart_mono (k : Nat) : tableStart 1 ≤ tableStart (k + 1) := by
  rw [tableStart_eq, tableStart_eq]
  omega

theorem length_push (w : History) (file b : Nat) :
    (w.push file b file).length = (w file).length + 1 := by
  rw [push_self, List.length_append, List.length_singleton]

theorem tablesOpen_other {tbl' : TableMap} {f : Nat} (h : TablesOpen sfs w tbl f) (hne : f ≠ file)
    (htbl : tbl' f = tbl f) (hinode : sfs'.inode f = sfs.inode f) :
    TablesOpen sfs' (w.push file b) tbl' f := by
  constructor
  · rw [push_of_ne hne, htbl]
    exact h.data_none
  · rw [push_of_ne hne, htbl]
    exact h.double_none
  · rw [push_of_ne hne, htbl, hinode]
    exact h.l1
  · rw [htbl, hinode]
    exact h.l2

/-- The file has got a number in its data table `d`, which is now `c`. -/
theorem tablesOpen_push {tbl' : TableMap} {c d : Nat} (h : TablesOpen sfs w tbl file)
    (hlow : tableStart d ≤ (w file).length) (hhigh : (w file).length < tableStart (d + 1))
    (hdata : ∀ e, tbl' file (.data e) = if e = d then some c else tbl file (.data e))
    (hdouble : tbl' file .double = none ↔ d = 0)
    (hl1 : (sfs'.inode file).l1 = some c)
    (hl2 : ∀ cb, tbl' file .double = some cb → (sfs'.inode file).l2 = some cb) :
    TablesOpen sfs' (w.push file b) tbl' file := by
  rw [tableStart_eq] at hlow hhigh
  constructor
  · intro e
    rw [hdata, length_push, tableStart_eq]
    rcases eq_or_ne e d with rfl | hne
    · rw [if_pos rfl]
      simp only [reduceCtorEq, false_iff]
      omega
    · rw [if_neg hne, h.data_none, tableStart_eq]
      omega
  · rw [hdouble, length_push, tableStart_eq]
    omega
  · intro e cb htbl hlen
    rw [length_push, tableStart_eq] at hlen
    rw [hdata] at htbl
    split at htbl
    · cases htbl
      exact hl1
    · next hne =>
      have hsome : ¬tbl file (.data e) = none := by
        rw [htbl]
        exact Option.some_ne_none cb
      rw [h.data_none, tableStart_eq] at hsome
      omega
  · exact hl2

theorem recordBlock_direct (h : Tables sfs w tbl) (hfile : file < sfs.inodeCount)
    (hlen : (w file).length < SFS_NDIRECT) (heq : recordBlock sfs file b = .ok sfs') :
    Recorded sfs sfs' w file b tbl := by
  have hnblks := h.nblks file hfile
  have hdirect : (sfs.inode file).nblks < SFS_NDIRECT := by rwa [hnblks]
  simp only [recordBlock, if_pos hdirect] at heq
  cases heq
  have hself : ∀ v, (sfs.setInode file v).inode file = v := fun v => Function.update_self _ _ _
  have hother : ∀ {f : Nat}, f ≠ file → ∀ v, (sfs.setInode file v).inode f = sfs.inode f :=
    fun hne v => Function.update_of_ne hne _ _
  refine ⟨⟨h.placed.table_lt, h.placed.table_inj⟩, ?_, ?_, rfl, rfl, le_rfl, ?_, ?_⟩
  · intro f hf
    rcases eq_or_ne f file with rfl | hne
    · rw [hself, push_self, hnblks]
      exact (h.mapped f hf).putDirect hlen b
    · rw [hother hne, push_of_ne hne]
      exact h.mapped f hf
  · intro f hf
    have hopen := h.opened f hf
    rcases eq_or_ne f file with rfl | hne
    · have hle : ∀ d, (w f).length ≤ tableStart d ↔ (w.push f b f).length ≤ tableStart d := by
        intro d
        have : SFS_NDIRECT ≤ tableStart d := Nat.le_add_right _ _
        rw [length_push]
        omega
      refine ⟨fun d => (hopen.data_none d).trans (hle d), hopen.double_none.trans (hle 1), ?_, ?_⟩
      · intro d cb htbl hlast
        rw [hself]
        exact hopen.l1 d cb htbl ((hle _).mpr hlast)
      · intro cb htbl
        rw [hself]
        exact hopen.l2 cb htbl
    · exact tablesOpen_other hopen hne rfl (hother hne _)
  · intro f
    rcases eq_or_ne f file with rfl | hne
    · rw [hself]
    · rw [hother hne]
  · intro f
    rcases eq_or_ne f file with rfl | hne
    · rw [hself]
    · rw [hother hne]

/-- The state after a number has been put into the indirect block. -/
def recordedIndirect (sfs : ImageFs) (old : Option Nat) (file b : Nat) : ImageFs :=
  let c := openedAt sfs old
  let s := afterOpen sfs old
  let ci := sfs.inode file
  (s.setInode file { ci with
    l1 := some c, inode := { ci.inode with indirect := (s.block c).ino } }).setCache c
      (putWord (s.block c).cache (ci.nblks - SFS_NDIRECT) b)

theorem recordBlock_indirect (hl : Layout sfs) (h : Tables sfs w tbl)
    (hfile : file < sfs.inodeCount) (hlow : SFS_NDIRECT ≤ (w file).length)
    (hhigh : (w file).length < SFS_L1_NBLKS) :
    recordBlock sfs file b = .ok sfs' ↔
      (tbl file (.data 0) = none → sfs.nextIno < sfs.ninos) ∧
        sfs' = recordedIndirect sfs (tbl file (.data 0)) file b := by
  have hnblks := h.nblks file hfile
  have hdirect : ¬(sfs.inode file).nblks < SFS_NDIRECT := by
    rw [hnblks]
    exact not_lt.mpr hlow
  have hindirect : (sfs.inode file).nblks < SFS_L1_NBLKS := by rwa [hnblks]
  have hold : ∀ cb, tbl file (.data 0) = some cb →
      cb < sfs.blockCount ∧ (sfs.inode file).l1 = some cb := by
    intro cb htbl
    refine ⟨(h.placed.table_lt _ _ _ htbl).2, (h.opened file hfile).l1 0 cb htbl ?_⟩
    exact Nat.le_of_lt hhigh
  simp only [recordBlock, if_neg hdirect, if_pos hindirect]
  rw [(h.mapped file hfile).indirect, bind_eq_ok_iff]
  constructor
  · rintro ⟨r, hcache, hret⟩
    obtain ⟨hroom, rfl⟩ := (updateCache_eq_ok_iff hl hold).mp hcache
    cases hret
    exact ⟨hroom, rfl⟩
  · rintro ⟨hroom, rfl⟩
    exact ⟨_, (updateCache_eq_ok_iff hl hold).mpr ⟨hroom, rfl⟩, rfl⟩

theorem recorded_indirect (h : Tables sfs w tbl) (hfile : file < sfs.inodeCount)
    (hlow : SFS_NDIRECT ≤ (w file).length) (hhigh : (w file).length < SFS_L1_NBLKS)
    (hb : b < 2 ^ 32) {old : Option Nat} (hold : tbl file (.data 0) = old) :
    Recorded sfs (recordedIndirect sfs old file b) w file b
      (tbl.set file (.data 0) (openedAt sfs old)) := by
  have hopen := h.opened file hfile
  have hnblks := h.nblks file hfile
  obtain ⟨hinode, hcount, hninos, hnext, _⟩ := @afterOpen_inode sfs old
  have hself : (recordedIndirect sfs old file b).inode file = { sfs.inode file with
      l1 := some (openedAt sfs old)
      inode := { (sfs.inode file).inode with
        indirect := ((afterOpen sfs old).block (openedAt sfs old)).ino } } :=
    Function.update_self _ _ _
  have hother : ∀ {f : Nat}, f ≠ file →
      (recordedIndirect sfs old file b).inode f = sfs.inode f := by
    intro f hne
    exact (Function.update_of_ne hne _ _).trans (congrFun hinode f)
  have hput : (recordedIndirect sfs old file b).block (openedAt sfs old) =
      { (afterOpen sfs old).block (openedAt sfs old) with
        cache := putWord ((afterOpen sfs old).block (openedAt sfs old)).cache
          ((sfs.inode file).nblks - SFS_NDIRECT) b } :=
    Function.update_self _ _ _
  have hblock : ∀ {cb : Nat}, cb ≠ openedAt sfs old →
      (recordedIndirect sfs old file b).block cb = (afterOpen sfs old).block cb :=
    fun hne => Function.update_of_ne hne _ _
  have hkept : ∀ f t cb, tbl f t = some cb → (afterOpen sfs old).block cb = sfs.block cb :=
    fun f t cb htbl => afterOpen_block old (h.placed.table_lt f t cb htbl).2
  have hplaced := h.placed.set hold hfile
  refine ⟨⟨hplaced.table_lt, hplaced.table_inj⟩, ?_, ?_, hcount, hninos, hnext, ?_, ?_⟩
  · intro f hf
    rcases eq_or_ne f file with rfl | hne
    · have hopened := (h.mapped f hf).openIndirect (hkept f) (c := openedAt sfs old)
        ((openedAt_cases hold).imp id fun hnew =>
          ⟨hnew.1, hnew.2, (hopen.data_none 0).mp hnew.1⟩)
      rw [hself, push_self, set_self]
      apply hopened.put (d := 0) (c := openedAt sfs old) (j := (sfs.inode f).nblks - SFS_NDIRECT)
      · unfold SFS_L1_NBLKS at hhigh
        omega
      · rw [hnblks, tableStart_eq]
        unfold SFS_NDIRECT at hlow ⊢
        omega
      · exact hb
      · exact Function.update_self _ _ _
      · intro t cb hne htbl
        rw [Function.update_of_ne hne] at htbl
        apply hblock
        rintro rfl
        exact hne (openedAt_owner h.placed hold htbl).2
      · rw [hput]
        exact ⟨rfl, rfl⟩
    · rw [push_of_ne hne, set_of_ne hne, hother hne]
      apply (h.mapped f hf).congr
      intro t cb htbl
      rw [hblock, hkept f t cb htbl]
      rintro rfl
      exact hne (openedAt_owner h.placed hold htbl).1
  · intro f hf
    rcases eq_or_ne f file with rfl | hne
    · apply tablesOpen_push hopen (d := 0) (c := openedAt sfs old) hlow hhigh
      · intro e
        rw [set_apply]
        simp
      · rw [set_apply, if_neg (by simp)]
        exact iff_of_true (hopen.double_none.mpr (Nat.le_of_lt hhigh)) rfl
      · rw [hself]
      · intro cb htbl
        rw [set_apply, if_neg (by simp), hopen.double_none.mpr (Nat.le_of_lt hhigh)] at htbl
        cases htbl
    · exact tablesOpen_other (h.opened f hf) hne (set_of_ne hne _ _) (hother hne)
  · intro f
    rcases eq_or_ne f file with rfl | hne
    · rw [hself]
    · rw [hother hne]
  · intro f
    rcases eq_or_ne f file with rfl | hne
    · rw [hself]
    · rw [hother hne]

/-- The state after a number has been put into a table below the double indirect
block; `n` counts the blocks from the first of those. -/
def recordedDouble (sfs : ImageFs) (old₂ old₁ : Option Nat) (file n b : Nat) : ImageFs :=
  let c₂ := openedAt sfs old₂
  let s₁ := afterOpen sfs old₂
  let c₁ := openedAt s₁ old₁
  let s₂ := afterOpen s₁ old₁
  let ci := sfs.inode file
  (((s₂.setCache c₂ (putWord (s₂.block c₂).cache (n / SFS_BLK_NENTRY) (s₂.block c₁).ino)).setInode
    file { ci with
      l1 := some c₁, l2 := some c₂
      inode := { ci.inode with dbIndirect := (s₁.block c₂).ino } }).setCache c₁
        (putWord ((s₂.setCache c₂
          (putWord (s₂.block c₂).cache (n / SFS_BLK_NENTRY) (s₂.block c₁).ino)).block c₁).cache
            (n % SFS_BLK_NENTRY) b))

/-- The double indirect block of the file, opened. -/
theorem mapped_openDouble (h : Tables sfs w tbl) (hfile : file < sfs.inodeCount)
    {old₂ : Option Nat} (hold₂ : tbl file .double = old₂) :
    Mapped (afterOpen sfs old₂).block
      { (sfs.inode file).inode with
        dbIndirect := ((afterOpen sfs old₂).block (openedAt sfs old₂)).ino }
      (w file) (Function.update (tbl file) .double (some (openedAt sfs old₂))) := by
  have hopen := h.opened file hfile
  apply (h.mapped file hfile).openDouble
  · intro t cb htbl
    exact afterOpen_block old₂ (h.placed.table_lt file t cb htbl).2
  · refine (openedAt_cases hold₂).imp id fun hnew => ⟨hnew.1, hnew.2, ?_⟩
    intro k
    exact (hopen.data_none _).mpr (le_trans (hopen.double_none.mp hnew.1) (tableStart_mono k))

theorem recordBlock_double (hl : Layout sfs) (h : Tables sfs w tbl)
    (hfile : file < sfs.inodeCount) {n : Nat} (hlen : (w file).length = SFS_L1_NBLKS + n)
    (hn : n < SFS_BLK_NENTRY * SFS_BLK_NENTRY) {old₂ old₁ : Option Nat}
    (hold₂ : tbl file .double = old₂) (hold₁ : tbl file (.data (n / SFS_BLK_NENTRY + 1)) = old₁) :
    recordBlock sfs file b = .ok sfs' ↔
      ((old₂ = none → sfs.nextIno < sfs.ninos) ∧
        (old₁ = none → (afterOpen sfs old₂).nextIno < (afterOpen sfs old₂).ninos)) ∧
        sfs' = recordedDouble sfs old₂ old₁ file n b := by
  have hopen := h.opened file hfile
  have hnblks := h.nblks file hfile
  have hdirect : ¬(sfs.inode file).nblks < SFS_NDIRECT := by
    rw [hnblks, hlen]
    unfold SFS_L1_NBLKS
    omega
  have hindirect : ¬(sfs.inode file).nblks < SFS_L1_NBLKS := by
    rw [hnblks, hlen]
    omega
  have hdouble : (sfs.inode file).nblks < SFS_L2_NBLKS := by
    rw [hnblks, hlen]
    unfold SFS_L2_NBLKS
    omega
  have hsub : (sfs.inode file).nblks - SFS_L1_NBLKS = n := by
    rw [hnblks, hlen]
    omega
  have hk : n / SFS_BLK_NENTRY < SFS_BLK_NENTRY := Nat.div_lt_of_lt_mul hn
  have hold : ∀ cb, old₂ = some cb → cb < sfs.blockCount ∧ (sfs.inode file).l2 = some cb := by
    intro cb hcb
    rw [← hold₂] at hcb
    exact ⟨(h.placed.table_lt _ _ _ hcb).2, hopen.l2 cb hcb⟩
  have hold' : ∀ cb, old₁ = some cb →
      cb < (afterOpen sfs old₂).blockCount ∧ (sfs.inode file).l1 = some cb := by
    intro cb hcb
    rw [← hold₁] at hcb
    refine ⟨lt_of_lt_of_le (h.placed.table_lt _ _ _ hcb).2 (afterOpen_inode _).2.2.2.2,
      hopen.l1 _ cb hcb ?_⟩
    rw [hlen, tableStart_eq]
    have hL1 : SFS_L1_NBLKS = 1036 := rfl
    have hentries : SFS_BLK_NENTRY = 1024 := rfl
    rw [hL1, hentries]
    omega
  have hentry : getWord ((afterOpen sfs old₂).block (openedAt sfs old₂)).cache
      (n / SFS_BLK_NENTRY) = inoOf (afterOpen sfs old₂).block old₁ := by
    rw [(mapped_openDouble h hfile hold₂).double _ (Function.update_self _ _ _) _ hk,
      Function.update_of_ne (fun heq => Table.noConfusion heq), hold₁]
  simp only [recordBlock, if_neg hdirect, if_neg hindirect, if_pos hdouble, hsub]
  rw [(h.mapped file hfile).dbIndirect, hold₂, bind_eq_ok_iff]
  constructor
  · rintro ⟨r, hcache, hret⟩
    obtain ⟨hroom, rfl⟩ := (updateCache_eq_ok_iff hl hold).mp hcache
    simp only [hentry] at hret
    obtain ⟨r', hcache', hret'⟩ := bind_eq_ok_iff.mp hret
    obtain ⟨hroom', rfl⟩ := (updateCache_eq_ok_iff (layout_afterOpen hl hroom) hold').mp hcache'
    cases hret'
    exact ⟨⟨hroom, hroom'⟩, rfl⟩
  · rintro ⟨⟨hroom, hroom'⟩, rfl⟩
    refine ⟨_, (updateCache_eq_ok_iff hl hold).mpr ⟨hroom, rfl⟩, ?_⟩
    simp only [hentry]
    rw [bind_eq_ok_iff]
    exact ⟨_, (updateCache_eq_ok_iff (layout_afterOpen hl hroom) hold').mpr ⟨hroom', rfl⟩, rfl⟩

/-- The blocks after the table `c₁` has been entered in `c₂` under `k` and the
number `b` in `c₁` under `j`. -/
def enterBoth (block : Nat → CacheBlock) (c₂ k c₁ j b : Nat) : Nat → CacheBlock :=
  let second := Function.update block c₂
    { block c₂ with cache := putWord (block c₂).cache k (block c₁).ino }
  Function.update second c₁ { second c₁ with cache := putWord (second c₁).cache j b }

theorem mapped_enterBoth {block₁ block : Nat → CacheBlock} {inode : Inode} {hist : List Nat}
    {tbl : Table → Option Nat} {c₁ c₂ k j : Nat} (h : Mapped block₁ inode hist tbl)
    (hdouble : tbl .double = some c₂) (hne : c₁ ≠ c₂)
    (hkept : ∀ t cb, tbl t = some cb → block cb = block₁ cb)
    (howner₂ : ∀ t, tbl t = some c₂ → t = .double)
    (howner₁ : ∀ t, tbl t = some c₁ → t = .data (k + 1))
    (hopen : tbl (.data (k + 1)) = some c₁ ∨
      tbl (.data (k + 1)) = none ∧ (block c₁).cache = zeros ∧ hist.length ≤ tableStart (k + 1))
    (hk : k < SFS_BLK_NENTRY) (hj : j < SFS_BLK_NENTRY)
    (hlen : hist.length = tableStart (k + 1) + j) (hb : b < 2 ^ 32)
    (hino : (block c₁).ino < 2 ^ 32) :
    Mapped (enterBoth block c₂ k c₁ j b) inode (hist ++ [b])
      (Function.update tbl (.data (k + 1)) (some c₁)) := by
  have hleaf : Table.double ≠ .data (k + 1) := fun heq => Table.noConfusion heq
  have hfirst : Function.update block c₂
      { block c₂ with cache := putWord (block c₂).cache k (block c₁).ino } c₁ = block c₁ :=
    Function.update_of_ne hne _ _
  have hentered : Mapped (Function.update block c₂
      { block c₂ with cache := putWord (block c₂).cache k (block c₁).ino }) inode hist
        (Function.update tbl (.data (k + 1)) (some c₁)) := by
    apply h.openLeaf hk hdouble
    · rw [hfirst]
      exact hino
    · intro t cb hother htbl
      rw [Function.update_of_ne, hkept t cb htbl]
      rintro rfl
      exact hother (howner₂ t htbl)
    · rw [hfirst, Function.update_self, hkept _ c₂ hdouble]
      exact ⟨rfl, rfl⟩
    · rw [hfirst]
      exact hopen
  apply hentered.put hj hlen hb (Function.update_self _ _ _)
  · intro t cb hother htbl
    rw [Function.update_of_ne hother] at htbl
    apply Function.update_of_ne
    rintro rfl
    exact hother (howner₁ t htbl)
  · rw [enterBoth, Function.update_self]
    exact ⟨rfl, rfl⟩

theorem recorded_double (hl : Layout sfs) (h : Tables sfs w tbl) (hfile : file < sfs.inodeCount)
    {n : Nat} (hlen : (w file).length = SFS_L1_NBLKS + n)
    (hn : n < SFS_BLK_NENTRY * SFS_BLK_NENTRY) (hb : b < 2 ^ 32)
    {old₂ old₁ : Option Nat} (hold₂ : tbl file .double = old₂)
    (hold₁ : tbl file (.data (n / SFS_BLK_NENTRY + 1)) = old₁)
    (hroom₂ : old₂ = none → sfs.nextIno < sfs.ninos)
    (hroom₁ : old₁ = none → (afterOpen sfs old₂).nextIno < (afterOpen sfs old₂).ninos) :
    Recorded sfs (recordedDouble sfs old₂ old₁ file n b) w file b
      ((tbl.set file .double (openedAt sfs old₂)).set file (.data (n / SFS_BLK_NENTRY + 1))
        (openedAt (afterOpen sfs old₂) old₁)) := by
  have hopen := h.opened file hfile
  have hmapped := mapped_openDouble h hfile hold₂
  have hplaced := h.placed.set hold₂ hfile
  obtain ⟨hinode, hcount, hninos, hnext, _⟩ := @afterOpen_inode sfs old₂
  obtain ⟨hinode', hcount', hninos', hnext', _⟩ := @afterOpen_inode (afterOpen sfs old₂) old₁
  have hlayout := layout_afterOpen (layout_afterOpen hl hroom₂) hroom₁
  have hleaf : Table.data (n / SFS_BLK_NENTRY + 1) ≠ .double := fun heq => Table.noConfusion heq
  have hold' : tbl.set file .double (openedAt sfs old₂) file (.data (n / SFS_BLK_NENTRY + 1)) =
      old₁ := by
    rw [set_self, Function.update_of_ne hleaf, hold₁]
  have hplaced' := hplaced.set hold' (lt_of_lt_of_eq hfile hcount.symm)
  have hne : openedAt (afterOpen sfs old₂) old₁ ≠ openedAt sfs old₂ := by
    intro heq
    have hdouble : tbl.set file .double (openedAt sfs old₂) file .double =
        some (openedAt (afterOpen sfs old₂) old₁) := by
      rw [set_self, Function.update_self, heq]
    exact hleaf (openedAt_owner hplaced hold' hdouble).2.symm
  have hself : (recordedDouble sfs old₂ old₁ file n b).inode file = { sfs.inode file with
      l1 := some (openedAt (afterOpen sfs old₂) old₁)
      l2 := some (openedAt sfs old₂)
      inode := { (sfs.inode file).inode with
        dbIndirect := ((afterOpen sfs old₂).block (openedAt sfs old₂)).ino } } :=
    Function.update_self _ _ _
  have hother : ∀ {f : Nat}, f ≠ file →
      (recordedDouble sfs old₂ old₁ file n b).inode f = sfs.inode f := by
    intro f hne
    exact (Function.update_of_ne hne _ _).trans
      ((congrFun hinode' f).trans (congrFun hinode f))
  have hblock : (recordedDouble sfs old₂ old₁ file n b).block =
      enterBoth (afterOpen (afterOpen sfs old₂) old₁).block (openedAt sfs old₂)
        (n / SFS_BLK_NENTRY) (openedAt (afterOpen sfs old₂) old₁) (n % SFS_BLK_NENTRY) b := rfl
  have hk : n / SFS_BLK_NENTRY < SFS_BLK_NENTRY := Nat.div_lt_of_lt_mul hn
  have hstart : (w file).length = tableStart (n / SFS_BLK_NENTRY + 1) + n % SFS_BLK_NENTRY := by
    have hsum := Nat.div_add_mod n SFS_BLK_NENTRY
    rw [hlen, tableStart, SFS_L1_NBLKS, Nat.mul_add, Nat.mul_one]
    omega
  have hino : ((afterOpen (afterOpen sfs old₂) old₁).block
      (openedAt (afterOpen sfs old₂) old₁)).ino < 2 ^ 32 := by
    have hlast : openedAt (afterOpen sfs old₂) old₁ <
        (afterOpen (afterOpen sfs old₂) old₁).blockCount := by
      apply openedAt_lt
      intro cb hcb
      rw [hcb] at hold'
      exact (hplaced.table_lt _ _ _ hold').2
    have hmax : _ ≤ 1024 * 512 := le_trans hlayout.next_le hlayout.ninos_le
    have := (hlayout.block_ino _ hlast).2
    omega
  refine ⟨⟨hplaced'.table_lt, hplaced'.table_inj⟩, ?_, ?_, hcount'.trans hcount,
    hninos'.trans hninos, le_trans hnext hnext', ?_, ?_⟩
  · intro f hf
    rcases eq_or_ne f file with rfl | hne'
    · rw [hself, push_self, set_self, set_self, hblock]
      rw [set_self] at hold'
      apply mapped_enterBoth hmapped (Function.update_self _ _ _) hne
      · intro t cb htbl
        rw [← set_self] at htbl
        exact afterOpen_block old₁ (hplaced.table_lt f t cb htbl).2
      · intro t htbl
        rw [← set_self] at htbl
        exact (hplaced.table_inj f f t .double _ htbl (by
          rw [set_self, Function.update_self])).2
      · intro t htbl
        rw [← set_self] at hold' htbl
        exact (openedAt_owner hplaced hold' htbl).2
      · rw [← set_self] at hold' ⊢
        refine (openedAt_cases hold').imp id fun hnew => ⟨hnew.1, hnew.2, ?_⟩
        rw [hold', ← hold₁] at hnew
        exact (hopen.data_none _).mp hnew.1
      · exact hk
      · exact Nat.mod_lt _ (by decide)
      · exact hstart
      · exact hb
      · exact hino
    · rw [push_of_ne hne', set_of_ne hne', set_of_ne hne', hother hne', hblock]
      apply (h.mapped f hf).congr
      intro t cb htbl
      have htbl' : tbl.set file .double (openedAt sfs old₂) f t = some cb := by
        rw [set_of_ne hne', htbl]
      have hfirst : cb ≠ openedAt (afterOpen sfs old₂) old₁ := by
        rintro rfl
        exact hne' (openedAt_owner hplaced hold' htbl').1
      have hsecond : cb ≠ openedAt sfs old₂ := by
        rintro rfl
        exact hne' (openedAt_owner h.placed hold₂ htbl).1
      rw [enterBoth, Function.update_of_ne hfirst, Function.update_of_ne hsecond,
        afterOpen_block old₁ (hplaced.table_lt f t cb htbl').2,
        afterOpen_block old₂ (h.placed.table_lt f t cb htbl).2]
  · intro f hf
    rcases eq_or_ne f file with rfl | hne'
    · apply tablesOpen_push hopen (d := n / SFS_BLK_NENTRY + 1)
        (c := openedAt (afterOpen sfs old₂) old₁)
      · rw [hstart]
        exact Nat.le_add_right _ _
      · rw [hstart, tableStart_eq, tableStart_eq]
        have := Nat.mod_lt n (by decide : 0 < SFS_BLK_NENTRY)
        unfold SFS_BLK_NENTRY SFS_BLKSIZE at *
        omega
      · intro e
        rw [set_apply, set_apply]
        simp
      · rw [set_apply, if_neg (by simp), set_apply, if_pos ⟨rfl, rfl⟩]
        simp
      · rw [hself]
      · intro cb htbl
        rw [set_apply, if_neg (by simp), set_apply, if_pos ⟨rfl, rfl⟩] at htbl
        rw [hself]
        exact htbl
    · exact tablesOpen_other (h.opened f hf) hne' ((set_of_ne hne' _ _).trans (set_of_ne hne' _ _))
        (hother hne')
  · intro f
    rcases eq_or_ne f file with rfl | hne
    · rw [hself]
    · rw [hother hne]
  · intro f
    rcases eq_or_ne f file with rfl | hne
    · rw [hself]
    · rw [hother hne]

/-- The three ways in which `append_block` stores a number. -/
theorem recordBlock_recorded (hl : Layout sfs) (h : Tables sfs w tbl)
    (hfile : file < sfs.inodeCount) (hb : b < 2 ^ 32) (hlen : (w file).length < SFS_LN_NBLKS)
    (heq : recordBlock sfs file b = .ok sfs') : ∃ tbl', Recorded sfs sfs' w file b tbl' := by
  rcases lt_or_ge (w file).length SFS_NDIRECT with hdirect | hfar
  · exact ⟨tbl, recordBlock_direct h hfile hdirect heq⟩
  rcases lt_or_ge (w file).length SFS_L1_NBLKS with hindirect | hfar'
  · obtain ⟨_, rfl⟩ := (recordBlock_indirect hl h hfile hfar hindirect).mp heq
    exact ⟨_, recorded_indirect h hfile hfar hindirect hb rfl⟩
  · obtain ⟨n, hn⟩ := Nat.exists_eq_add_of_le hfar'
    have hmax : SFS_LN_NBLKS ≤ SFS_BLK_NENTRY * SFS_BLK_NENTRY := by decide
    have hlt : n < SFS_BLK_NENTRY * SFS_BLK_NENTRY := by omega
    obtain ⟨⟨hroom₂, hroom₁⟩, rfl⟩ := (recordBlock_double hl h hfile hn hlt rfl rfl).mp heq
    exact ⟨_, recorded_double hl h hfile hn hlt hb rfl rfl hroom₂ hroom₁⟩

theorem tables_appendBlock (hl : Layout sfs) (h : Tables sfs w tbl) (hfile : file < sfs.inodeCount)
    (hb : firstIno sfs.ninos ≤ b ∧ b < sfs.nextIno) {size : Nat}
    (heq : appendBlock sfs file size b = .ok sfs') : ∃ tbl', Tables sfs' (w.push file b) tbl' := by
  obtain ⟨_, _, hrest⟩ := bind_eq_ok_iff.mp heq
  split at hrest
  · cases hrest
  next hsmall =>
  obtain ⟨s, hrecord, hret⟩ := bind_eq_ok_iff.mp hrest
  cases hret
  have hlen : (w file).length < SFS_LN_NBLKS := by
    rw [← h.nblks file hfile]
    omega
  have hmax : sfs.nextIno ≤ 1024 * 512 := le_trans hl.next_le hl.ninos_le
  obtain ⟨tbl', hr⟩ := recordBlock_recorded hl h hfile (by omega) hlen hrecord
  refine ⟨tbl', ?_⟩
  have hself : ∀ v, (s.setInode file v).inode file = v := fun v => Function.update_self _ _ _
  have hother : ∀ {f : Nat}, f ≠ file → ∀ v, (s.setInode file v).inode f = s.inode f :=
    fun hne v => Function.update_of_ne hne _ _
  have hcount : ∀ {f : Nat}, f < s.inodeCount → f < sfs.inodeCount :=
    fun hf => lt_of_lt_of_eq hf hr.inodeCount
  refine ⟨⟨hr.placed.table_lt, hr.placed.table_inj⟩, ?_, ?_, ?_, ?_, ?_, ?_, ?_⟩
  · intro f hf
    have hmapped := hr.mapped f (hcount hf)
    rcases eq_or_ne f file with rfl | hne
    · rw [hself]
      exact ⟨hmapped.direct, hmapped.indirect, hmapped.dbIndirect, hmapped.data, hmapped.double⟩
    · rw [hother hne]
      exact hmapped
  · intro f hf
    have hopen := hr.opened f (hcount hf)
    refine ⟨hopen.data_none, hopen.double_none, ?_, ?_⟩
    · intro d cb htbl hlast
      rcases eq_or_ne f file with rfl | hne
      · rw [hself]
        exact hopen.l1 d cb htbl hlast
      · rw [hother hne]
        exact hopen.l1 d cb htbl hlast
    · intro cb htbl
      rcases eq_or_ne f file with rfl | hne
      · rw [hself]
        exact hopen.l2 cb htbl
      · rw [hother hne]
        exact hopen.l2 cb htbl
  · intro f hf
    rcases eq_or_ne f file with rfl | hne
    · rw [hself, length_push, ← h.nblks f hfile, hr.nblks]
    · rw [hother hne, push_of_ne hne, hr.nblks, h.nblks f (hcount hf)]
  · intro f hf
    rcases eq_or_ne f file with rfl | hne
    · have hsmall' : (w f).length + 1 < 2 ^ 32 := lt_of_le_of_lt hlen (by decide)
      rw [hself, length_push, hr.blocks, h.blocks f hfile]
      exact Nat.mod_eq_of_lt hsmall'
    · rw [hother hne, push_of_ne hne, hr.blocks, h.blocks f (hcount hf)]
  · intro f
    rcases eq_or_ne f file with rfl | hne
    · rw [length_push]
      exact hlen
    · rw [push_of_ne hne]
      exact h.length_le f
  · intro f hf
    have hf' : sfs.inodeCount ≤ f := le_of_eq_of_le hr.inodeCount.symm hf
    have hne : f ≠ file := by
      rintro rfl
      omega
    rw [push_of_ne hne]
    exact h.fresh f hf'
  · intro f k hk
    change firstIno s.ninos ≤ k ∧ k < s.nextIno
    rw [hr.ninos]
    have hnew : firstIno sfs.ninos ≤ k ∧ k < sfs.nextIno := by
      rcases eq_or_ne f file with rfl | hne
      · rw [push_self, List.mem_append, List.mem_singleton] at hk
        rcases hk with hk | rfl
        · exact h.numbers f k hk
        · exact hb
      · rw [push_of_ne hne] at hk
        exact h.numbers f k hk
    exact ⟨hnew.1, lt_of_lt_of_le hnew.2 hr.nextIno⟩

end Recording

section Frame

variable {sfs sfs' : ImageFs} {w : History} {tbl : TableMap}

/-- The tables of a file do not depend on its links, nor on other memory. -/
theorem tables_congr (h : Tables sfs w tbl) (hblock : sfs'.block = sfs.block)
    (hblockCount : sfs'.blockCount = sfs.blockCount)
    (hinodeCount : sfs'.inodeCount = sfs.inodeCount) (hninos : sfs'.ninos = sfs.ninos)
    (hnext : sfs.nextIno ≤ sfs'.nextIno)
    (hinode : ∀ f, ∃ nlinks, sfs'.inode f =
      { sfs.inode f with inode := { (sfs.inode f).inode with nlinks := nlinks } }) :
    Tables sfs' w tbl := by
  refine ⟨⟨?_, h.placed.table_inj⟩, ?_, ?_, ?_, ?_, h.length_le, ?_, ?_⟩
  · rw [hinodeCount, hblockCount]
    exact h.placed.table_lt
  · intro f hf
    obtain ⟨nlinks, heq⟩ := hinode f
    have hmapped := h.mapped f (lt_of_lt_of_eq hf hinodeCount)
    rw [hblock, heq]
    exact ⟨hmapped.direct, hmapped.indirect, hmapped.dbIndirect, hmapped.data, hmapped.double⟩
  · intro f hf
    obtain ⟨nlinks, heq⟩ := hinode f
    have hopen := h.opened f (lt_of_lt_of_eq hf hinodeCount)
    refine ⟨hopen.data_none, hopen.double_none, ?_, ?_⟩
    · rw [heq]
      exact hopen.l1
    · rw [heq]
      exact hopen.l2
  · intro f hf
    obtain ⟨nlinks, heq⟩ := hinode f
    rw [heq]
    exact h.nblks f (lt_of_lt_of_eq hf hinodeCount)
  · intro f hf
    obtain ⟨nlinks, heq⟩ := hinode f
    rw [heq]
    exact h.blocks f (lt_of_lt_of_eq hf hinodeCount)
  · rw [hinodeCount]
    exact h.fresh
  · intro f k hk
    rw [hninos]
    exact ⟨(h.numbers f k hk).1, lt_of_lt_of_le (h.numbers f k hk).2 hnext⟩

theorem tables_putBlock (h : Tables sfs w tbl) (data : Bytes) (len : Nat) :
    Tables (putBlock (bump sfs) data len sfs.nextIno) w tbl :=
  tables_congr h rfl rfl rfl rfl (Nat.le_succ _) fun _ => ⟨_, rfl⟩

end Frame

section Returning

variable {sfs : ImageFs} {w : History} {tbl : TableMap} {file : Nat}

theorem afterOpen_nextIno_le (sfs : ImageFs) (old : Option Nat) :
    (afterOpen sfs old).nextIno ≤ sfs.nextIno + 1 := by
  unfold afterOpen
  split
  · exact le_rfl
  · exact Nat.le_succ _

/-- The end of `append_block`. -/
def counted (sfs : ImageFs) (file size : Nat) : ImageFs :=
  let ci := sfs.inode file
  sfs.setInode file { ci with
    nblks := ci.nblks + 1
    inode := { ci.inode with
      size := (ci.inode.size + size) % 2 ^ 32
      blocks := (ci.inode.blocks + 1) % 2 ^ 32 } }

/-- Storing a number takes at most two more blocks. -/
theorem recordBlock_returns (hl : Layout sfs) (h : Tables sfs w tbl) (hfile : file < sfs.inodeCount)
    (hlen : (w file).length < SFS_LN_NBLKS) (hroom : sfs.nextIno + 2 ≤ sfs.ninos) (b : Nat) :
    ∃ s, recordBlock sfs file b = .ok s ∧ s.nextIno ≤ sfs.nextIno + 2 := by
  rcases lt_or_ge (w file).length SFS_NDIRECT with hdirect | hfar
  · have hnblks : (sfs.inode file).nblks < SFS_NDIRECT := by rwa [h.nblks file hfile]
    refine ⟨_, by simp only [recordBlock, if_pos hnblks]; rfl, ?_⟩
    exact Nat.le_add_right _ _
  rcases lt_or_ge (w file).length SFS_L1_NBLKS with hindirect | hfar'
  · refine ⟨_, (recordBlock_indirect hl h hfile hfar hindirect).mpr ⟨fun _ => by omega, rfl⟩, ?_⟩
    exact le_trans (afterOpen_nextIno_le _ _) (Nat.le_succ _)
  · obtain ⟨n, hn⟩ := Nat.exists_eq_add_of_le hfar'
    have hmax : SFS_LN_NBLKS ≤ SFS_BLK_NENTRY * SFS_BLK_NENTRY := by decide
    have hlt : n < SFS_BLK_NENTRY * SFS_BLK_NENTRY := by omega
    have hnext := afterOpen_nextIno_le sfs (tbl file .double)
    have hninos := (@afterOpen_inode sfs (tbl file .double)).2.2.1
    refine ⟨_, (recordBlock_double hl h hfile hn hlt rfl rfl).mpr
      ⟨⟨fun _ => by omega, fun _ => by omega⟩, rfl⟩, ?_⟩
    exact le_trans (afterOpen_nextIno_le _ _) (Nat.succ_le_succ hnext)

theorem storeBlock_returns (hl : Layout sfs) (h : Tables sfs w tbl) (hfile : file < sfs.inodeCount)
    (hlen : (w file).length < SFS_LN_NBLKS) (hroom : sfs.nextIno + 3 ≤ sfs.ninos)
    (buffer : Bytes) {len : Nat} (hsize : len ≤ SFS_BLKSIZE) :
    ∃ s, storeBlock sfs file buffer len = .ok s ∧ s.nextIno ≤ sfs.nextIno + 3 := by
  have hlt : sfs.nextIno < sfs.ninos := by omega
  have halloc : sfsAllocIno sfs = .ok (sfs.nextIno, bump sfs) :=
    sfsAllocIno_eq_ok_iff.mpr ⟨hlt, rfl, rfl⟩
  have hwrite : writeBlock (bump sfs) buffer len sfs.nextIno =
      .ok (putBlock (bump sfs) buffer len sfs.nextIno) :=
    writeBlock_eq_ok_iff.mpr ⟨⟨hsize, hlt⟩, rfl⟩
  have hl' := layout_putBlock (layout_bump hl hlt) hl.first_le (Nat.lt_succ_self _) buffer len
  obtain ⟨s, hrecord, hnext⟩ := @recordBlock_returns _ _ _ file hl' (tables_putBlock h buffer len)
    hfile hlen (by change sfs.nextIno + 1 + 2 ≤ sfs.ninos; omega) sfs.nextIno
  have hsmall : ¬SFS_LN_NBLKS ≤ (sfs.inode file).nblks := by
    rw [h.nblks file hfile]
    omega
  refine ⟨counted s file len, ?_, ?_⟩
  · rw [storeBlock, halloc, ok_bind]
    simp only
    rw [hwrite, ok_bind, appendBlock, kassert_of hsize, ok_bind]
    change (if SFS_LN_NBLKS ≤ (sfs.inode file).nblks then _ else _) = _
    rw [if_neg hsmall, hrecord, ok_bind]
    rfl
  · change s.nextIno ≤ _
    exact le_trans hnext (le_of_eq (by change sfs.nextIno + 1 + 2 = _; omega))

theorem recordBlock_ninos {sfs' : ImageFs} {b : Nat} (heq : recordBlock sfs file b = .ok sfs') :
    sfs'.ninos = sfs.ninos ∧ sfs'.inodeCount = sfs.inodeCount := by
  unfold recordBlock at heq
  simp only at heq
  split at heq
  · cases heq
    exact ⟨rfl, rfl⟩
  split at heq
  · obtain ⟨⟨l1, indirect, s⟩, hcache, hret⟩ := bind_eq_ok_iff.mp heq
    cases hret
    exact ⟨(updateCache_inode hcache).2.1, (updateCache_inode hcache).2.2.2⟩
  split at heq
  · obtain ⟨⟨l2, dbIndirect, s⟩, hcache, hret⟩ := bind_eq_ok_iff.mp heq
    obtain ⟨⟨l1, table, t⟩, hcache', hret'⟩ := bind_eq_ok_iff.mp hret
    cases hret'
    exact ⟨(updateCache_inode hcache').2.1.trans (updateCache_inode hcache).2.1,
      (updateCache_inode hcache').2.2.2.trans (updateCache_inode hcache).2.2.2⟩
  · cases heq
    exact ⟨rfl, rfl⟩

theorem storeBlock_ninos {sfs' : ImageFs} {buffer : Bytes} {len : Nat}
    (heq : storeBlock sfs file buffer len = .ok sfs') :
    sfs'.ninos = sfs.ninos ∧ sfs'.inodeCount = sfs.inodeCount := by
  obtain ⟨⟨ino, s₁⟩, halloc, hrest⟩ := bind_eq_ok_iff.mp heq
  obtain ⟨_, rfl, rfl⟩ := sfsAllocIno_eq_ok_iff.mp halloc
  obtain ⟨s₂, hwrite, happend⟩ := bind_eq_ok_iff.mp hrest
  obtain ⟨_, rfl⟩ := writeBlock_eq_ok_iff.mp hwrite
  obtain ⟨_, _, hrest⟩ := bind_eq_ok_iff.mp happend
  split at hrest
  · cases hrest
  · obtain ⟨s, hrecord, hret⟩ := bind_eq_ok_iff.mp hrest
    cases hret
    obtain ⟨hninos, hcount⟩ := recordBlock_ninos hrecord
    exact ⟨hninos, hcount⟩

end Returning

section Building

variable {sfs sfs' : ImageFs} {w : History} {tbl : TableMap}

theorem tables_storeBlock (hl : Layout sfs) (h : Tables sfs w tbl) {file len : Nat}
    {buffer : Bytes} (hfile : file < sfs.inodeCount)
    (heq : storeBlock sfs file buffer len = .ok sfs') :
    ∃ tbl', Tables sfs' (w.push file sfs.nextIno) tbl' := by
  obtain ⟨⟨ino, s₁⟩, halloc, hrest⟩ := bind_eq_ok_iff.mp heq
  obtain ⟨hlt, rfl, rfl⟩ := sfsAllocIno_eq_ok_iff.mp halloc
  obtain ⟨s₂, hwrite, happend⟩ := bind_eq_ok_iff.mp hrest
  obtain ⟨_, rfl⟩ := writeBlock_eq_ok_iff.mp hwrite
  have hl' := layout_putBlock (layout_bump hl hlt) hl.first_le (Nat.lt_succ_self _) buffer len
  exact tables_appendBlock hl' (tables_putBlock h buffer len) hfile
    ⟨hl.first_le, Nat.lt_succ_self _⟩ happend

theorem tables_addEntry (hl : Layout sfs) (h : Tables sfs w tbl) {current file : Nat}
    {name : CStrings.CString} (hcurrent : current < sfs.inodeCount)
    (heq : addEntry sfs current file name = .ok sfs') :
    ∃ tbl', Tables sfs' (w.push current sfs.nextIno) tbl' := by
  obtain ⟨_, _, hrest⟩ := bind_eq_ok_iff.mp heq
  obtain ⟨⟨ino, s₁⟩, halloc, hrest⟩ := bind_eq_ok_iff.mp hrest
  obtain ⟨hlt, rfl, rfl⟩ := sfsAllocIno_eq_ok_iff.mp halloc
  obtain ⟨s₂, hwrite, hrest⟩ := bind_eq_ok_iff.mp hrest
  obtain ⟨_, rfl⟩ := writeBlock_eq_ok_iff.mp hwrite
  obtain ⟨s₃, happend, hret⟩ := bind_eq_ok_iff.mp hrest
  cases hret
  have hl' : ∀ entry, Layout { sfs with entry := entry } := fun entry =>
    @layout_congr sfs { sfs with entry := entry } hl rfl rfl rfl (fun _ => rfl) rfl rfl
      (fun _ => rfl) rfl rfl hl.written_lt
  have hl'' := layout_putBlock (layout_bump (hl' _) hlt) hl.first_le (Nat.lt_succ_self _)
  obtain ⟨tbl', htables⟩ := tables_appendBlock (hl'' _ _)
    (tables_congr h rfl rfl rfl rfl (Nat.le_succ _) fun _ => ⟨_, rfl⟩) hcurrent
    ⟨hl.first_le, Nat.lt_succ_self _⟩ happend
  refine ⟨tbl', tables_congr htables rfl rfl rfl rfl le_rfl ?_⟩
  intro f
  rcases eq_or_ne f file with rfl | hne
  · exact ⟨_, Function.update_self _ _ _⟩
  · exact ⟨_, Function.update_of_ne hne _ _⟩

theorem tables_pushInode (h : Tables sfs w tbl) (real type : Nat) :
    Tables (pushInode sfs real type) w tbl := by
  have hself : (pushInode sfs real type).inode sfs.inodeCount =
      ⟨newInode type, real, sfs.nextIno, 0, none, none⟩ := Function.update_self _ _ _
  have hold : ∀ f, f < sfs.inodeCount → (pushInode sfs real type).inode f = sfs.inode f :=
    fun f hf => Function.update_of_ne (Nat.ne_of_lt hf) _ _
  have hcases : ∀ f, f < (pushInode sfs real type).inodeCount →
      f = sfs.inodeCount ∨ f < sfs.inodeCount := fun f hf =>
    (Nat.eq_or_lt_of_le (Nat.le_of_lt_succ hf))
  have hempty : w sfs.inodeCount = [] := h.fresh _ le_rfl
  have hnone : ∀ t, tbl sfs.inodeCount t = none := by
    intro t
    cases htbl : tbl sfs.inodeCount t with
    | none => rfl
    | some cb => exact absurd (h.placed.table_lt _ t cb htbl).1 (lt_irrefl _)
  refine ⟨⟨?_, h.placed.table_inj⟩, ?_, ?_, ?_, ?_, h.length_le, ?_, ?_⟩
  · intro f t cb htbl
    obtain ⟨hf, hcb⟩ := h.placed.table_lt f t cb htbl
    exact ⟨Nat.lt_succ_of_lt hf, hcb⟩
  · intro f hf
    rcases hcases f hf with rfl | hf
    · rw [hself, hempty]
      refine ⟨fun _ _ => rfl, ?_, ?_, ?_, ?_⟩
      · rw [hnone]
        rfl
      · rw [hnone]
        rfl
      · intro d cb htbl
        rw [hnone] at htbl
        cases htbl
      · intro cb htbl
        rw [hnone] at htbl
        cases htbl
    · rw [hold f hf]
      exact h.mapped f hf
  · intro f hf
    rcases hcases f hf with rfl | hf
    · refine ⟨?_, ?_, ?_, ?_⟩
      · intro d
        rw [hnone, hempty]
        exact iff_of_true rfl (Nat.zero_le _)
      · rw [hnone, hempty]
        exact iff_of_true rfl (Nat.zero_le _)
      · intro d cb htbl
        rw [hnone] at htbl
        cases htbl
      · intro cb htbl
        rw [hnone] at htbl
        cases htbl
    · have hopen := h.opened f hf
      refine ⟨hopen.data_none, hopen.double_none, ?_, ?_⟩
      · rw [hold f hf]
        exact hopen.l1
      · rw [hold f hf]
        exact hopen.l2
  · intro f hf
    rcases hcases f hf with rfl | hf
    · rw [hself, hempty]
      rfl
    · rw [hold f hf]
      exact h.nblks f hf
  · intro f hf
    rcases hcases f hf with rfl | hf
    · rw [hself, hempty]
      rfl
    · rw [hold f hf]
      exact h.blocks f hf
  · intro f hf
    exact h.fresh f (Nat.le_of_succ_le hf)
  · intro f k hk
    obtain ⟨hfirst, hlast⟩ := h.numbers f k hk
    exact ⟨hfirst, Nat.lt_succ_of_lt hlast⟩

theorem tables_rootFs (ninos : Nat) (image : Nat → Bytes) (malloced : Bytes) :
    Tables (rootFs ninos image malloced) (fun _ => []) fun _ _ => none := by
  have hroot : ∀ {f : Nat}, f < (rootFs ninos image malloced).inodeCount → f = 0 :=
    Nat.lt_one_iff.mp
  refine ⟨⟨?_, ?_⟩, ?_, ?_, ?_, ?_, fun _ => Nat.zero_le _, fun _ _ => rfl, ?_⟩
  · intro f t cb htbl
    cases htbl
  · intro f g t u cb htbl
    cases htbl
  · intro f hf
    rw [hroot hf]
    refine ⟨fun _ _ => rfl, rfl, rfl, ?_, ?_⟩
    · intro d cb htbl
      cases htbl
    · intro cb htbl
      cases htbl
  · intro f _
    refine ⟨fun _ => iff_of_true rfl (Nat.zero_le _), iff_of_true rfl (Nat.zero_le _), ?_, ?_⟩
    · intro d cb htbl
      cases htbl
    · intro cb htbl
      cases htbl
  · intro f hf
    rw [hroot hf]
    rfl
  · intro f hf
    rw [hroot hf]
    rfl
  · intro f b hb
    cases hb

theorem tables_perform (hl : Layout sfs) (h : Tables sfs w tbl) {op : Op} (hvalid : Valid sfs op)
    (heq : perform sfs op = .ok sfs') : ∃ tbl', Tables sfs' (record sfs w op) tbl' := by
  cases op with
  | addInode real type =>
      obtain ⟨⟨ci, s⟩, halloc, hret⟩ := bind_eq_ok_iff.mp heq
      obtain ⟨_, rfl, rfl⟩ := allocCacheInode_eq_ok_iff.mp halloc
      cases hret
      exact ⟨tbl, tables_pushInode h real type⟩
  | storeBlock file buffer len => exact tables_storeBlock hl h hvalid heq
  | addEntry current file name => exact tables_addEntry hl h hvalid.1 heq

/-- In every state of the builder the tables store the history. -/
theorem tables_built {stSize : Nat} {image : Nat → Bytes} (h : Built stSize image sfs w) :
    ∃ tbl, Tables sfs w tbl := by
  induction h with
  | create heq =>
      obtain ⟨_, rfl⟩ := createSfs_eq_ok_iff.mp heq
      exact ⟨_, tables_rootFs _ _ _⟩
  | step hbuilt hvalid heq ih =>
      obtain ⟨tbl, htables⟩ := ih
      exact tables_perform (layout_built hbuilt) htables hvalid heq

end Building

end Ucore.MksfsAppend
