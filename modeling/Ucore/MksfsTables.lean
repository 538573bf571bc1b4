import Ucore.MksfsLayout

namespace Ucore.MksfsTables

open Ucore.Panic
open Ucore.ByteBuffer
open Ucore.SfsDisk
open Ucore.Mksfs
open Ucore.MksfsLayout

/-- The tables of a file: number 0 of the data tables is the indirect block, the
others hang below the double indirect block. -/
inductive Table where
  | data (d : Nat)
  | double
  deriving DecidableEq

/-- The first block of the file that is in the data table `d`. -/
def tableStart (d : Nat) : Nat :=
  SFS_NDIRECT + SFS_BLK_NENTRY * d

/-- The number that refers to a cached block, 0 without one. -/
def inoOf (block : Nat → CacheBlock) : Option Nat → Nat
  | none => 0
  | some cb => (block cb).ino

/-- The inode and its tables `tbl` store the numbers `hist`. -/
structure Mapped (block : Nat → CacheBlock) (inode : Inode) (hist : List Nat)
    (tbl : Table → Option Nat) : Prop where
  direct : ∀ i, i < SFS_NDIRECT → inode.direct i = hist.getD i 0
  indirect : inode.indirect = inoOf block (tbl (.data 0))
  dbIndirect : inode.dbIndirect = inoOf block (tbl .double)
  data : ∀ d cb, tbl (.data d) = some cb → ∀ j, j < SFS_BLK_NENTRY →
    getWord (block cb).cache j = hist.getD (tableStart d + j) 0
  double : ∀ cb, tbl .double = some cb → ∀ k, k < SFS_BLK_NENTRY →
    getWord (block cb).cache k = inoOf block (tbl (.data (k + 1)))

section Mapped

variable {block block' : Nat → CacheBlock} {inode : Inode} {hist : List Nat}
  {tbl : Table → Option Nat} {b c : Nat}

theorem getD_push (hist : List Nat) (b i : Nat) :
    (hist ++ [b]).getD i 0 = if i = hist.length then b else hist.getD i 0 := by
  rcases lt_trichotomy i hist.length with hlt | rfl | hgt
  · rw [if_neg (Nat.ne_of_lt hlt), List.getD_append _ _ _ _ hlt]
  · rw [if_pos rfl, List.getD_append_right _ _ _ _ le_rfl, Nat.sub_self]
    rfl
  · rw [if_neg (Nat.ne_of_gt hgt), List.getD_eq_default _ _ (Nat.le_of_lt hgt),
      List.getD_eq_default]
    rw [List.length_append]
    exact hgt

theorem inoOf_congr {old : Option Nat} (h : ∀ cb, old = some cb → block' cb = block cb) :
    inoOf block' old = inoOf block old := by
  cases old with
  | none => rfl
  | some cb => rw [inoOf, h cb rfl, inoOf]

theorem Mapped.congr (h : Mapped block inode hist tbl)
    (hblock : ∀ t cb, tbl t = some cb → block' cb = block cb) : Mapped block' inode hist tbl where
  direct := h.direct
  indirect := by rw [h.indirect, inoOf_congr (hblock _)]
  dbIndirect := by rw [h.dbIndirect, inoOf_congr (hblock _)]
  data d cb htbl := by
    rw [hblock _ cb htbl]
    exact h.data d cb htbl
  double cb htbl k hk := by
    rw [hblock _ cb htbl, inoOf_congr (hblock _)]
    exact h.double cb htbl k hk

/-- The numbers in `c` become those of the indirect block. -/
theorem Mapped.openIndirect (h : Mapped block inode hist tbl)
    (hblock : ∀ t cb, tbl t = some cb → block' cb = block cb)
    (hopen : tbl (.data 0) = some c ∨
      tbl (.data 0) = none ∧ (block' c).cache = zeros ∧ hist.length ≤ tableStart 0) :
    Mapped block' { inode with indirect := (block' c).ino } hist
      (Function.update tbl (.data 0) (some c)) := by
  have h' := h.congr hblock
  rcases hopen with hsome | ⟨hnone, hzeros, hlen⟩
  · rw [← hsome, Function.update_eq_self]
    refine ⟨h'.direct, ?_, h'.dbIndirect, h'.data, h'.double⟩
    rw [hsome]
    rfl
  · have hdouble : Table.double ≠ .data 0 := by decide
    refine ⟨h'.direct, ?_, ?_, ?_, ?_⟩
    · rw [Function.update_self]
      rfl
    · rw [Function.update_of_ne hdouble]
      exact h'.dbIndirect
    · intro d cb htbl j hj
      rcases eq_or_ne d 0 with rfl | hne
      · rw [Function.update_self] at htbl
        cases htbl
        rw [hzeros, getWord_zeros, List.getD_eq_default]
        omega
      · rw [Function.update_of_ne (fun heq => hne (Table.data.inj heq))] at htbl
        exact h'.data d cb htbl j hj
    · intro cb htbl k hk
      rw [Function.update_of_ne hdouble] at htbl
      rw [Function.update_of_ne (fun heq => Nat.succ_ne_zero k (Table.data.inj heq))]
      exact h'.double cb htbl k hk

theorem Mapped.openDouble (h : Mapped block inode hist tbl)
    (hblock : ∀ t cb, tbl t = some cb → block' cb = block cb)
    (hopen : tbl .double = some c ∨
      tbl .double = none ∧ (block' c).cache = zeros ∧ ∀ k, tbl (.data (k + 1)) = none) :
    Mapped block' { inode with dbIndirect := (block' c).ino } hist
      (Function.update tbl .double (some c)) := by
  have h' := h.congr hblock
  have hdata : ∀ d, Table.data d ≠ .double := fun d heq => Table.noConfusion heq
  rcases hopen with hsome | ⟨hnone, hzeros, hleaves⟩
  · rw [← hsome, Function.update_eq_self]
    refine ⟨h'.direct, h'.indirect, ?_, h'.data, h'.double⟩
    rw [hsome]
    rfl
  · refine ⟨h'.direct, ?_, ?_, ?_, ?_⟩
    · rw [Function.update_of_ne (hdata 0)]
      exact h'.indirect
    · rw [Function.update_self]
      rfl
    · intro d cb htbl
      rw [Function.update_of_ne (hdata d)] at htbl
      exact h'.data d cb htbl
    · intro cb htbl k hk
      rw [Function.update_self] at htbl
      cases htbl
      rw [Function.update_of_ne (hdata _), hleaves k, hzeros, getWord_zeros]
      rfl

/-- The numbers in `c` become those of the data table `k + 1`, which the double
indirect block `c₂` now refers to. -/
theorem Mapped.openLeaf (h : Mapped block inode hist tbl) {k c₂ : Nat} (hk : k < SFS_BLK_NENTRY)
    (hdouble : tbl .double = some c₂) (hino : (block' c).ino < 2 ^ 32)
    (hblock : ∀ t cb, t ≠ .double → tbl t = some cb → block' cb = block cb)
    (hsecond : (block' c₂).ino = (block c₂).ino ∧
      (block' c₂).cache = putWord (block c₂).cache k (block' c).ino)
    (hopen : tbl (.data (k + 1)) = some c ∨
      tbl (.data (k + 1)) = none ∧ (block' c).cache = zeros ∧ hist.length ≤ tableStart (k + 1)) :
    Mapped block' inode hist (Function.update tbl (.data (k + 1)) (some c)) := by
  have hdata : ∀ d, Table.data d ≠ .double := fun d heq => Table.noConfusion heq
  have hleaf : Table.double ≠ .data (k + 1) := fun heq => Table.noConfusion heq
  have hroot : Table.data 0 ≠ .data (k + 1) := fun heq =>
    Nat.succ_ne_zero k (Table.data.inj heq).symm
  refine ⟨h.direct, ?_, ?_, ?_, ?_⟩
  · rw [h.indirect, Function.update_of_ne hroot]
    exact (inoOf_congr fun cb => hblock _ cb (hdata 0)).symm
  · rw [h.dbIndirect, Function.update_of_ne hleaf, hdouble]
    exact hsecond.1.symm
  · intro d cb htbl j hj
    rcases eq_or_ne d (k + 1) with rfl | hne
    · rw [Function.update_self] at htbl
      cases htbl
      rcases hopen with hsome | ⟨_, hzeros, hlen⟩
      · rw [hblock _ c (hdata _) hsome]
        exact h.data _ c hsome j hj
      · rw [hzeros, getWord_zeros, List.getD_eq_default]
        omega
    · rw [Function.update_of_ne (fun heq => hne (Table.data.inj heq))] at htbl
      rw [hblock _ cb (hdata d) htbl]
      exact h.data d cb htbl j hj
  · intro cb htbl i hi
    rw [Function.update_of_ne hleaf, hdouble] at htbl
    cases htbl
    rw [hsecond.2, getWord_putWord _ _ _ hino]
    split
    · next heq =>
      rw [heq, Function.update_self]
      rfl
    · next hne =>
      rw [Function.update_of_ne (fun heq => hne (Nat.succ.inj (Table.data.inj heq))),
        inoOf_congr fun cb => hblock _ cb (hdata _)]
      exact h.double c₂ hdouble i hi

theorem Mapped.putDirect (h : Mapped block inode hist tbl) (hlen : hist.length < SFS_NDIRECT)
    (b : Nat) :
    Mapped block { inode with direct := Function.update inode.direct hist.length b }
      (hist ++ [b]) tbl where
  direct i hi := by
    change Function.update inode.direct hist.length b i = _
    rw [getD_push, Function.update_apply, h.direct i hi]
  indirect := h.indirect
  dbIndirect := h.dbIndirect
  data d cb htbl j hj := by
    have hne : tableStart d + j ≠ hist.length := by
      unfold tableStart
      omega
    rw [getD_push, if_neg hne]
    exact h.data d cb htbl j hj
  double := h.double

/-- The next number goes into the data table `d`. -/
theorem Mapped.put (h : Mapped block inode hist tbl) {d j : Nat} (hj : j < SFS_BLK_NENTRY)
    (hlen : hist.length = tableStart d + j) (hb : b < 2 ^ 32) (htable : tbl (.data d) = some c)
    (hblock : ∀ t cb, t ≠ .data d → tbl t = some cb → block' cb = block cb)
    (hput : (block' c).ino = (block c).ino ∧ (block' c).cache = putWord (block c).cache j b) :
    Mapped block' inode (hist ++ [b]) tbl := by
  have hino : ∀ t, inoOf block' (tbl t) = inoOf block (tbl t) := by
    intro t
    rcases eq_or_ne t (.data d) with rfl | hne
    · rw [htable]
      exact hput.1
    · exact inoOf_congr fun cb => hblock t cb hne
  refine ⟨?_, ?_, ?_, ?_, ?_⟩
  · intro i hi
    have hne : i ≠ hist.length := by
      rw [hlen]
      unfold tableStart
      omega
    rw [getD_push, if_neg hne]
    exact h.direct i hi
  · rw [hino]
    exact h.indirect
  · rw [hino]
    exact h.dbIndirect
  · intro e cb htbl i hi
    rw [getD_push]
    rcases eq_or_ne e d with rfl | hne
    · rw [htable] at htbl
      cases htbl
      rw [hput.2, getWord_putWord _ _ _ hb, hlen]
      rcases eq_or_ne i j with rfl | hij
      · rw [if_pos rfl, if_pos rfl]
      · rw [if_neg hij, if_neg (by omega)]
        exact h.data e c htable i hi
    · have hout : tableStart e + i ≠ hist.length := by
        have hpos : 0 < SFS_BLK_NENTRY := by decide
        intro heq
        rw [hlen] at heq
        have hsum : i + SFS_BLK_NENTRY * e = j + SFS_BLK_NENTRY * d := by
          unfold tableStart at heq
          omega
        have hdiv := congrArg (· / SFS_BLK_NENTRY) hsum
        simp only [Nat.add_mul_div_left _ _ hpos, Nat.div_eq_of_lt hi, Nat.div_eq_of_lt hj,
          Nat.zero_add] at hdiv
        exact hne hdiv
      rw [if_neg hout, hblock _ cb (fun heq => hne (Table.data.inj heq)) htbl]
      exact h.data e cb htbl i hi
  · intro cb htbl k hk
    rw [hino, hblock _ cb (fun heq => Table.noConfusion heq) htbl]
    exact h.double cb htbl k hk

end Mapped

/-- The cached block of each table of each file. -/
abbrev TableMap := Nat → Table → Option Nat

def TableMap.set (tbl : TableMap) (file : Nat) (t : Table) (cb : Nat) : TableMap :=
  Function.update tbl file (Function.update (tbl file) t (some cb))

/-- Tables are cached blocks, and no block is a table twice. -/
structure Placed (sfs : ImageFs) (tbl : TableMap) : Prop where
  table_lt : ∀ f t cb, tbl f t = some cb → f < sfs.inodeCount ∧ cb < sfs.blockCount
  table_inj : ∀ f g t u cb, tbl f t = some cb → tbl g u = some cb → f = g ∧ t = u

/-- The tables that a file has, and the pointers to the ones in use. -/
structure TablesOpen (sfs : ImageFs) (w : History) (tbl : TableMap) (f : Nat) : Prop where
  data_none : ∀ d, tbl f (.data d) = none ↔ (w f).length ≤ tableStart d
  double_none : tbl f .double = none ↔ (w f).length ≤ tableStart 1
  l1 : ∀ d cb, tbl f (.data d) = some cb → (w f).length ≤ tableStart (d + 1) →
    (sfs.inode f).l1 = some cb
  l2 : ∀ cb, tbl f .double = some cb → (sfs.inode f).l2 = some cb

/-- The block map of every file is its history. -/
structure Tables (sfs : ImageFs) (w : History) (tbl : TableMap) : Prop where
  placed : Placed sfs tbl
  mapped : ∀ f, f < sfs.inodeCount → Mapped sfs.block (sfs.inode f).inode (w f) (tbl f)
  opened : ∀ f, f < sfs.inodeCount → TablesOpen sfs w tbl f
  nblks : ∀ f, f < sfs.inodeCount → (sfs.inode f).nblks = (w f).length
  blocks : ∀ f, f < sfs.inodeCount → (sfs.inode f).inode.blocks = (w f).length
  length_le : ∀ f, (w f).length ≤ SFS_LN_NBLKS
  fresh : ∀ f, sfs.inodeCount ≤ f → w f = []
  numbers : ∀ f b, b ∈ w f → firstIno sfs.ninos ≤ b ∧ b < sfs.nextIno

section Opening

variable {sfs : ImageFs} {tbl : TableMap}

/-- The cached block that `update_cache` returns for the table `old`. -/
def openedAt (sfs : ImageFs) (old : Option Nat) : Nat :=
  old.getD sfs.blockCount

/-- The state after `update_cache` for the table `old`. -/
def afterOpen (sfs : ImageFs) (old : Option Nat) : ImageFs :=
  if old = none then pushBlock sfs else sfs

theorem afterOpen_inode (old : Option Nat) :
    (afterOpen sfs old).inode = sfs.inode ∧ (afterOpen sfs old).inodeCount = sfs.inodeCount ∧
      (afterOpen sfs old).ninos = sfs.ninos ∧ sfs.nextIno ≤ (afterOpen sfs old).nextIno ∧
        sfs.blockCount ≤ (afterOpen sfs old).blockCount := by
  unfold afterOpen
  split
  · exact ⟨rfl, rfl, rfl, Nat.le_succ _, Nat.le_succ _⟩
  · exact ⟨rfl, rfl, rfl, le_rfl, le_rfl⟩

theorem afterOpen_block (old : Option Nat) {cb : Nat} (hcb : cb < sfs.blockCount) :
    (afterOpen sfs old).block cb = sfs.block cb := by
  unfold afterOpen
  split
  · exact Function.update_of_ne (Nat.ne_of_lt hcb) _ _
  · rfl

theorem openedAt_lt {old : Option Nat} (hold : ∀ cb, old = some cb → cb < sfs.blockCount) :
    openedAt sfs old < (afterOpen sfs old).blockCount := by
  cases old with
  | none => exact Nat.lt_succ_self _
  | some cb => exact hold cb rfl

theorem openedAt_new {old : Option Nat} (hnone : old = none) :
    openedAt sfs old = sfs.blockCount ∧
      ((afterOpen sfs old).block (openedAt sfs old)).cache = zeros := by
  subst hnone
  refine ⟨rfl, ?_⟩
  change (Function.update sfs.block sfs.blockCount ⟨sfs.nextIno, zeros⟩ sfs.blockCount).cache = _
  rw [Function.update_self]

theorem layout_afterOpen (h : Layout sfs) {old : Option Nat}
    (hroom : old = none → sfs.nextIno < sfs.ninos) : Layout (afterOpen sfs old) := by
  unfold afterOpen
  split
  · next hnone => exact layout_pushBlock h (hroom hnone)
  · exact h

/-- `update_cache` for a table whose cached block the file still points to. -/
theorem updateCache_eq_ok_iff (h : Layout sfs) {cbp old : Option Nat}
    (hold : ∀ cb, old = some cb → cb < sfs.blockCount ∧ cbp = some cb) {r : Nat × Nat × ImageFs} :
    updateCache sfs cbp (inoOf sfs.block old) = .ok r ↔
      (old = none → sfs.nextIno < sfs.ninos) ∧
        r = (openedAt sfs old, ((afterOpen sfs old).block (openedAt sfs old)).ino,
          afterOpen sfs old) := by
  cases old with
  | none =>
      rw [inoOf, updateCache, if_pos rfl, bind_eq_ok_iff]
      constructor
      · rintro ⟨⟨cb, s⟩, halloc, heq⟩
        obtain ⟨hlt, rfl, rfl⟩ := allocCacheBlock_eq_ok_iff.mp halloc
        cases heq
        exact ⟨fun _ => hlt, rfl⟩
      · rintro ⟨hlt, rfl⟩
        exact ⟨_, allocCacheBlock_eq_ok_iff.mpr ⟨hlt rfl, rfl, rfl⟩, rfl⟩
  | some cb =>
      obtain ⟨hcb, rfl⟩ := hold cb rfl
      have hne : (sfs.block cb).ino ≠ 0 := by
        have := (h.block_ino cb hcb).1
        have := firstIno_gt sfs.ninos
        omega
      have hcached : (some cb).filter (fun c => (sfs.block c).ino = (sfs.block cb).ino) =
          some cb := by
        simp
      rw [inoOf, updateCache, if_neg hne]
      simp only [hcached, Option.some_or]
      constructor
      · intro heq
        cases heq
        exact ⟨(nomatch ·), rfl⟩
      · rintro ⟨_, rfl⟩
        rfl

theorem set_apply (tbl : TableMap) (file : Nat) (t : Table) (cb g : Nat) (u : Table) :
    tbl.set file t cb g u = if g = file ∧ u = t then some cb else tbl g u := by
  rw [TableMap.set, Function.update_apply]
  rcases eq_or_ne g file with rfl | hne
  · rw [if_pos rfl, Function.update_apply]
    simp
  · rw [if_neg hne, if_neg (fun h => hne h.1)]

theorem set_self (tbl : TableMap) (file : Nat) (t : Table) (cb : Nat) :
    tbl.set file t cb file = Function.update (tbl file) t (some cb) :=
  Function.update_self _ _ _

theorem set_of_ne {file g : Nat} (hne : g ≠ file) (t : Table) (cb : Nat) :
    tbl.set file t cb g = tbl g :=
  Function.update_of_ne hne _ _

variable {file : Nat} {t : Table} {old : Option Nat}

/-- The table that has been opened is no other table. -/
theorem openedAt_owner (h : Placed sfs tbl) (hold : tbl file t = old) {g : Nat} {u : Table}
    (heq : tbl g u = some (openedAt sfs old)) : g = file ∧ u = t := by
  cases old with
  | none => exact absurd (h.table_lt g u _ heq).2 (lt_irrefl _)
  | some cb => exact h.table_inj g file u t cb heq hold

/-- Opening a table keeps the tables apart. -/
theorem Placed.set (h : Placed sfs tbl) (hold : tbl file t = old) (hfile : file < sfs.inodeCount) :
    Placed (afterOpen sfs old) (tbl.set file t (openedAt sfs old)) := by
  obtain ⟨_, hcount, _, _, hblocks⟩ := @afterOpen_inode sfs old
  constructor
  · intro g u cb heq
    rw [hcount]
    rw [set_apply] at heq
    split at heq
    · next hself =>
      cases heq
      refine ⟨hself.1 ▸ hfile, openedAt_lt ?_⟩
      intro cb hcb
      rw [← hold] at hcb
      exact (h.table_lt file t cb hcb).2
    · obtain ⟨hg, hcb⟩ := h.table_lt g u cb heq
      exact ⟨hg, lt_of_lt_of_le hcb hblocks⟩
  · intro f g u v cb heq heq'
    rw [set_apply] at heq heq'
    split at heq
    · next hf =>
      cases heq
      split at heq'
      · next hg => exact ⟨hf.1.trans hg.1.symm, hf.2.trans hg.2.symm⟩
      · next hg => exact absurd (openedAt_owner h hold heq') hg
    · next hf =>
      split at heq'
      · cases heq'
        exact absurd (openedAt_owner h hold heq) hf
      · exact h.table_inj f g u v cb heq heq'

/-- The table that has been opened is the old one, or it is empty. -/
theorem openedAt_cases (hold : tbl file t = old) :
    tbl file t = some (openedAt sfs old) ∨ tbl file t = none ∧
      ((afterOpen sfs old).block (openedAt sfs old)).cache = zeros := by
  cases old with
  | none => exact Or.inr ⟨hold, (openedAt_new rfl).2⟩
  | some cb => exact Or.inl hold

end Opening

end Ucore.MksfsTables
