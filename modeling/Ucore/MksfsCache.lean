import Mathlib.Data.List.Find
import Ucore.MksfsLayout

/-! The cache of blocks of `tools/mksfs.c`: `alloc_cache_block` and `search_cache_block`. -/

namespace Ucore.MksfsCache

open Ucore.Panic
open Ucore.ByteBuffer
open Ucore.SfsDisk
open Ucore.Mksfs
open Ucore.MksfsLayout

section Table

/-- The chains hold blocks that were allocated from `base` on. -/
def Chained (base : Nat) (sfs : ImageFs) : Prop :=
  ∀ i cb, cb ∈ sfs.blocks i → base ≤ cb ∧ cb < sfs.blockCount

/-- Each block is found under its number, and no other number is found; `update_cache` finds
each block that has a number, whatever the caller has cached. -/
structure Finds (base : Nat) (sfs : ImageFs) : Prop where
  found : ∀ cb, base ≤ cb → cb < sfs.blockCount →
    searchCacheBlock sfs (sfs.block cb).ino = some cb
  missing : ∀ ino, (∀ cb, base ≤ cb → cb < sfs.blockCount → (sfs.block cb).ino ≠ ino) →
    searchCacheBlock sfs ino = none
  updated : ∀ cb, base ≤ cb → cb < sfs.blockCount → (sfs.block cb).ino ≠ 0 →
    ∀ cbp, ∃ cb', updateCache sfs cbp (sfs.block cb).ino = .ok (cb', (sfs.block cb).ino, sfs)

/-- The number that `alloc_cache_block` gives to a block. -/
def numberOf (sfs : ImageFs) (ino : Nat) : Nat :=
  if ino ≠ 0 then ino else sfs.nextIno

/-- The number is new in the cache, and the block is put where a search for it begins. -/
structure Placed (base : Nat) (sfs : ImageFs) (ino : Nat) : Prop where
  hash : hash32 ino = hash32 (numberOf sfs ino)
  unused : ∀ cb, base ≤ cb → cb < sfs.blockCount → (sfs.block cb).ino ≠ numberOf sfs ino

variable {base ino cb : Nat} {sfs sfs' : ImageFs}

/-- What `alloc_cache_block` does to the table. -/
structure Pushed (sfs : ImageFs) (ino cb : Nat) (sfs' : ImageFs) : Prop where
  fresh : cb = sfs.blockCount
  block : sfs'.block = Function.update sfs.block cb ⟨numberOf sfs ino, zeros⟩
  count : sfs'.blockCount = cb + 1
  blocks : sfs'.blocks = Function.update sfs.blocks (hash32 ino) (cb :: sfs.blocks (hash32 ino))

theorem pushed_of_alloc (hrun : allocCacheBlock sfs ino = .ok (cb, sfs')) :
    Pushed sfs ino cb sfs' := by
  rcases eq_or_ne ino 0 with rfl | hino
  · obtain ⟨_, rfl, rfl⟩ := allocCacheBlock_eq_ok_iff.mp hrun
    exact ⟨rfl, rfl, rfl, rfl⟩
  · have hnumber : numberOf sfs ino = ino := if_pos hino
    rw [allocCacheBlock, if_pos hino] at hrun
    cases hrun
    constructor
    · rfl
    · rw [hnumber]
    · rfl
    · rfl

theorem Pushed.chained (h : Pushed sfs ino cb sfs') (hbase : base ≤ sfs.blockCount)
    (hchained : Chained base sfs) : Chained base sfs' := by
  intro i k hk
  rw [h.blocks] at hk
  rw [h.count, h.fresh]
  rcases eq_or_ne i (hash32 ino) with rfl | hne
  · rw [Function.update_self] at hk
    rcases List.mem_cons.mp hk with rfl | hold
    · rw [h.fresh]
      omega
    · have := hchained _ k hold
      omega
  · rw [Function.update_of_ne hne] at hk
    have := hchained _ k hk
    omega

theorem Pushed.block_self (h : Pushed sfs ino cb sfs') :
    (sfs'.block cb).ino = numberOf sfs ino := by
  rw [h.block, Function.update_self]

theorem Pushed.block_old (h : Pushed sfs ino cb sfs') {k : Nat} (hk : k < sfs.blockCount) :
    sfs'.block k = sfs.block k := by
  have hne : k ≠ cb := by
    rw [h.fresh]
    omega
  rw [h.block, Function.update_of_ne hne]

theorem mem_of_search {k : Nat} (h : searchCacheBlock sfs ino = some k) :
    k ∈ sfs.blocks (hash32 ino) ∧ (sfs.block k).ino = ino := by
  rw [searchCacheBlock] at h
  have hsame := List.find?_some h
  exact ⟨List.mem_of_find?_eq_some h, of_decide_eq_true hsame⟩

/-- A search after a block has been put into the table. -/
theorem Pushed.search (h : Pushed sfs ino cb sfs') (hchained : Chained base sfs) (num : Nat) :
    searchCacheBlock sfs' num =
      if hash32 num = hash32 ino ∧ numberOf sfs ino = num then some cb
      else searchCacheBlock sfs num := by
  have hold : (sfs.blocks (hash32 num)).find? (fun k => (sfs'.block k).ino = num) =
      searchCacheBlock sfs num := by
    rw [searchCacheBlock]
    apply List.find?_congr
    intro k hk
    rw [h.block_old (hchained _ k hk).2]
  rw [searchCacheBlock, h.blocks]
  by_cases hhash : hash32 num = hash32 ino
  · rw [hhash, Function.update_self, List.find?_cons, h.block_self, ← hhash, hold]
    by_cases hnum : numberOf sfs ino = num
    · rw [decide_eq_true hnum, if_pos ⟨rfl, hnum⟩]
    · rw [decide_eq_false hnum, if_neg fun hboth => hnum hboth.2]
  · rw [Function.update_of_ne hhash, hold, if_neg fun hboth => hhash hboth.1]

/-- No search finds what was not allocated. -/
theorem search_missing (hchained : Chained base sfs)
    (hnone : ∀ cb, base ≤ cb → cb < sfs.blockCount → (sfs.block cb).ino ≠ ino) :
    searchCacheBlock sfs ino = none := by
  by_contra hfound
  obtain ⟨k, hk⟩ := Option.ne_none_iff_exists'.mp hfound
  obtain ⟨hmem, hino⟩ := mem_of_search hk
  obtain ⟨hlow, hhigh⟩ := hchained _ k hmem
  exact hnone k hlow hhigh hino

theorem finds_iff_found (hchained : Chained base sfs) : Finds base sfs ↔
    ∀ cb, base ≤ cb → cb < sfs.blockCount → searchCacheBlock sfs (sfs.block cb).ino = some cb := by
  refine ⟨Finds.found, fun h => ⟨h, fun ino => search_missing hchained, ?_⟩⟩
  intro cb hlow hhigh hne cbp
  rw [updateCache, if_neg hne, h cb hlow hhigh]
  cases hcached : cbp.filter fun k => (sfs.block k).ino = (sfs.block cb).ino with
  | none => exact ⟨cb, rfl⟩
  | some k => exact ⟨k, rfl⟩

/-- The cache finds its blocks after a call if it did before and the new block is placed right. -/
theorem Pushed.finds_iff (h : Pushed sfs ino cb sfs') (hbase : base ≤ sfs.blockCount)
    (hchained : Chained base sfs) : Finds base sfs' ↔ Finds base sfs ∧ Placed base sfs ino := by
  rw [finds_iff_found (h.chained hbase hchained), finds_iff_found hchained]
  have hsearch := h.search hchained
  have hlt : ∀ k, k < sfs.blockCount → k < sfs'.blockCount := by
    intro k hk
    rw [h.count, h.fresh]
    omega
  have hne : ∀ k, k < sfs.blockCount → k ≠ cb := by
    intro k hk
    rw [h.fresh]
    omega
  constructor
  · intro hfound
    have hself := hfound cb (by rw [h.fresh]; exact hbase) (by rw [h.count]; omega)
    have hold : ∀ k, base ≤ k → k < sfs.blockCount →
        searchCacheBlock sfs' (sfs.block k).ino = some k := by
      intro k hlow hhigh
      have hsame := hfound k hlow (hlt k hhigh)
      rwa [h.block_old hhigh] at hsame
    rw [h.block_self] at hself
    have hhash : hash32 (numberOf sfs ino) = hash32 ino := by
      by_contra hother
      rw [hsearch, if_neg fun hboth => hother hboth.1] at hself
      have hmem := (mem_of_search hself).1
      have hcb := (hchained _ cb hmem).2
      exact hne cb hcb rfl
    refine ⟨fun k hlow hhigh => ?_, hhash.symm, fun k hlow hhigh hsame => ?_⟩
    · have hk := hold k hlow hhigh
      rw [hsearch] at hk
      split at hk
      · cases hk
        exact absurd rfl (hne cb hhigh)
      · exact hk
    · have hk := hold k hlow hhigh
      rw [hsame, hself] at hk
      exact hne k hhigh (Option.some.inj hk).symm
  · rintro ⟨hfound, hplaced⟩ k hlow hhigh
    rw [h.count] at hhigh
    rcases Nat.lt_succ_iff_lt_or_eq.mp hhigh with hold | rfl
    · have hk : k < sfs.blockCount := by
        rw [← h.fresh]
        exact hold
      have hother : numberOf sfs ino ≠ (sfs.block k).ino := fun hsame =>
        hplaced.unused k hlow hk hsame.symm
      rw [h.block_old hk, hsearch, if_neg fun hboth => hother hboth.2]
      exact hfound k hlow hk
    · rw [h.block_self, hsearch, if_pos ⟨hplaced.hash.symm, rfl⟩]

end Table

section Runs

/-- A number is taken from the free ones when data is stored between two calls. -/
inductive Call where
  | block (ino : Nat)
  | number

def perform (sfs : ImageFs) : Call → Kernel ImageFs
  | .block ino => do
      let (_, sfs) ← allocCacheBlock sfs ino
      return sfs
  | .number => do
      let (_, sfs) ← sfsAllocIno sfs
      return sfs

def performAll (sfs : ImageFs) (calls : List Call) : Kernel ImageFs :=
  calls.foldlM perform sfs

/-- Every block of a run is placed right in the state before its call. -/
def AllPlaced (base : Nat) (sfs : ImageFs) : List Call → Prop
  | [] => True
  | call :: calls =>
      (∀ ino, call = .block ino → Placed base sfs ino) ∧
      ∀ sfs', perform sfs call = .ok sfs' → AllPlaced base sfs' calls

variable {base : Nat} {sfs sfs' : ImageFs} {call : Call}

/-- The part of the table that the calls leave as an invariant. -/
structure Table (base : Nat) (sfs : ImageFs) : Prop where
  chained : Chained base sfs
  base_le : base ≤ sfs.blockCount

theorem table_of_empty (hempty : ∀ i, sfs.blocks i = []) : Table sfs.blockCount sfs := by
  constructor
  · intro i cb hcb
    rw [hempty i] at hcb
    cases hcb
  · exact le_rfl

theorem finds_of_empty (hempty : ∀ i, sfs.blocks i = []) : Finds sfs.blockCount sfs := by
  rw [finds_iff_found (table_of_empty hempty).chained]
  intro cb hlow hhigh
  exact absurd hhigh (Nat.not_lt.mpr hlow)

theorem table_perform (ht : Table base sfs) (hrun : perform sfs call = .ok sfs') :
    Table base sfs' := by
  cases call with
  | block ino =>
    obtain ⟨⟨cb, t⟩, halloc, heq⟩ := bind_eq_ok_iff.mp hrun
    cases heq
    have hpushed := pushed_of_alloc halloc
    constructor
    · exact hpushed.chained ht.base_le ht.chained
    · have hbase := ht.base_le
      rw [hpushed.count, hpushed.fresh]
      omega
  | number =>
    obtain ⟨⟨num, t⟩, halloc, heq⟩ := bind_eq_ok_iff.mp hrun
    cases heq
    obtain ⟨_, _, rfl⟩ := sfsAllocIno_eq_ok_iff.mp halloc
    exact ⟨ht.chained, ht.base_le⟩

theorem finds_perform (ht : Table base sfs) (hrun : perform sfs call = .ok sfs') :
    Finds base sfs' ↔ Finds base sfs ∧ ∀ ino, call = .block ino → Placed base sfs ino := by
  have ht' := table_perform ht hrun
  cases call with
  | block ino =>
    obtain ⟨⟨cb, t⟩, halloc, heq⟩ := bind_eq_ok_iff.mp hrun
    cases heq
    rw [(pushed_of_alloc halloc).finds_iff ht.base_le ht.chained]
    constructor
    · rintro ⟨hfinds, hplaced⟩
      refine ⟨hfinds, fun num hnum => ?_⟩
      cases hnum
      exact hplaced
    · rintro ⟨hfinds, hplaced⟩
      exact ⟨hfinds, hplaced ino rfl⟩
  | number =>
    obtain ⟨⟨num, t⟩, halloc, heq⟩ := bind_eq_ok_iff.mp hrun
    cases heq
    obtain ⟨_, _, rfl⟩ := sfsAllocIno_eq_ok_iff.mp halloc
    rw [finds_iff_found ht'.chained, finds_iff_found ht.chained]
    constructor
    · intro hfound
      refine ⟨hfound, fun ino hino => ?_⟩
      cases hino
    · rintro ⟨hfound, _⟩
      exact hfound

theorem finds_performAll {calls : List Call} (ht : Table base sfs)
    (hrun : performAll sfs calls = .ok sfs') :
    Finds base sfs' ↔ Finds base sfs ∧ AllPlaced base sfs calls := by
  induction calls generalizing sfs with
  | nil =>
    cases hrun
    rw [AllPlaced, and_true]
  | cons call calls ih =>
    rw [performAll, List.foldlM_cons] at hrun
    obtain ⟨mid, hcall, hrest⟩ := bind_eq_ok_iff.mp hrun
    rw [ih (table_perform ht hcall) hrest, finds_perform ht hcall, AllPlaced, and_assoc]
    refine and_congr_right fun _ => and_congr_right fun _ => ?_
    constructor
    · intro hplaced sfs₁ hsame
      rw [hcall] at hsame
      cases hsame
      exact hplaced
    · intro hplaced
      exact hplaced mid hcall

end Runs

/-- After calls on an empty table, each block is found under its number if and only if every
call was given a number that is new, or took one that shares the chain of 0. -/
theorem finds_iff_allPlaced {sfs sfs' : ImageFs} {calls : List Call}
    (hempty : ∀ i, sfs.blocks i = []) (hrun : performAll sfs calls = .ok sfs') :
    Finds sfs.blockCount sfs' ↔ AllPlaced sfs.blockCount sfs calls := by
  rw [finds_performAll (table_of_empty hempty) hrun]
  exact and_iff_right (finds_of_empty hempty)

/-- An image of 100 blocks whose builder has not cached a block yet. -/
def smallFs : ImageFs := rootFs 100 (fun _ => zeros) zeros

theorem finds_iff_allPlaced_smallFs :
    ∃ sfs', performAll smallFs [.block 50] = .ok sfs' ∧
      (Finds smallFs.blockCount sfs' ↔ AllPlaced smallFs.blockCount smallFs [.block 50]) := by
  have hempty : ∀ i, smallFs.blocks i = [] := fun _ => rfl
  refine ⟨_, rfl, ?_⟩
  exact finds_iff_allPlaced hempty rfl

/-- The first block that the builder caches has number 3, and a search for 3 does not find it. -/
theorem fresh_block_lost :
    ∃ sfs sfs', createSfs (100 * SFS_BLKSIZE) (fun _ => zeros) zeros = .ok sfs ∧
      performAll sfs [.block 0] = .ok sfs' ∧ sfs'.blockCount = 1 ∧ (sfs'.block 0).ino = 3 ∧
        searchCacheBlock sfs' 3 = none ∧ updateCache sfs' none 3 = .error .panic := by
  have hcreate : createSfs (100 * SFS_BLKSIZE) (fun _ => zeros) zeros = .ok smallFs :=
    createSfs_eq_ok_iff.mpr ⟨by decide, rfl⟩
  have hsearch : searchCacheBlock (pushBlock smallFs) 3 = none := by
    decide +kernel
  refine ⟨smallFs, pushBlock smallFs, hcreate, rfl, rfl, rfl, hsearch, ?_⟩
  rw [updateCache, if_neg (by decide), Option.filter_none, hsearch]
  rfl

end Ucore.MksfsCache
