import Ucore.VfsLookup

/-! Taking and dropping references to inodes, with what they do to the inodes in memory. -/

namespace Ucore.InodeDrops

open Ucore.KernelRoutine
open Ucore.SfsDisk
open Ucore.SfsOwnership
open Ucore.SfsIo
open Ucore.SfsRuns
open Ucore.SfsSettled
open Ucore.VfsFiles
open Ucore.VfsLookup

variable {usage : Usage} {s s' : VfsState} {n : Nat}

/-- The files and the counts; each inode is open at most `base n` times. -/
structure Counted (usage : Usage) (base : Nat → Nat) (s : VfsState) : Prop where
  settled : Settled usage s.sfs
  cached : ∀ n, 0 < refs s n → n ∈ s.sfs.inodeList
  opens : ∀ n, (s.counts n).openCount ≤ base n
  reclaims : ∀ n, 0 < refs s n → 0 < (s.counts n).reclaimCount

/-- Files stay as they are, and inodes other than `n` stay in or out of memory. -/
structure Around (usage : Usage) (n : Nat) (s s' : VfsState) : Prop where
  kept : AllKept usage s.sfs s'.sfs
  list : ∀ k, k ≠ n → (k ∈ s'.sfs.inodeList ↔ k ∈ s.sfs.inodeList)

theorem Around.of_sfs (h : s'.sfs = s.sfs) : Around usage n s s' := by
  constructor
  · rw [h]
    exact AllKept.refl usage s.sfs
  · rw [h]
    exact fun _ _ => Iff.rfl

section Dropping

theorem inodeCheck_unused (hzero : (s.counts n).refCount = 0)
    (hclosed : (s.counts n).openCount = 0) : inodeCheck n s = .ok (.ok (), s) := by
  rw [inodeCheck, getState_bind]
  apply ensure_of
  rw [hzero, hclosed]
  decide

/-- The inode is clean after it has been written back. -/
theorem writeBack_stays (h : Settled usage s.sfs) (hin : n ∈ s.sfs.inodeList)
    (hzero : (s.counts n).refCount = 0) (hclosed : (s.counts n).openCount = 0) :
    ∃ sfs', writeBack n s = .ok (.ok (), { s with sfs := sfs' }) ∧ Stays usage s.sfs sfs' ∧
      (sfs'.inode n).dirty = false := by
  rw [writeBack, getState_bind]
  rcases Bool.eq_false_or_eq_true (s.sfs.inode n).dirty with hdirty | hclean
  · have hsync := sfsFsync_eq h.wf hin
    obtain ⟨hstays, hclean⟩ := sfsFsync_returns h hin hsync
    refine ⟨_, ?_, hstays, hclean⟩
    rw [if_pos hdirty, vopFsync, bind_of_ok (inodeCheck_unused hzero hclosed), onSfs, hsync]
  · refine ⟨s.sfs, ?_, Stays.refl h, hclean⟩
    rw [if_neg (by simp [hclean])]
    rfl

/-- `inode_check` and `sfs_reclaim` of an inode without references. -/
theorem reclaim_returns (h : Settled usage s.sfs) (hin : n ∈ s.sfs.inodeList)
    (hzero : (s.counts n).refCount = 0) (hclosed : (s.counts n).openCount = 0)
    (hreclaim : 0 < (s.counts n).reclaimCount) :
    ∃ r s', (do inodeCheck n; sfsReclaim n : Routine VfsState Unit) s = .ok (r, s') ∧
      Settled usage s'.sfs ∧ Around usage n s s' ∧
      s'.counts = Function.update s.counts n
        { s.counts n with reclaimCount := (s.counts n).reclaimCount - 1 } := by
  rw [bind_of_ok (inodeCheck_unused hzero hclosed), sfsReclaim, getState_bind,
    ensure_bind_of hreclaim, modifyState_bind]
  by_cases hbusy : (s.counts n).reclaimCount - 1 ≠ 0 ∨ (s.counts n).refCount ≠ 0
  · rw [if_pos hbusy]
    exact ⟨_, _, rfl, h, Around.of_sfs rfl, rfl⟩
  · rw [if_neg hbusy]
    have hcounts : ((s.setCounts n { s.counts n with
        reclaimCount := (s.counts n).reclaimCount - 1 }).counts n) =
          { s.counts n with reclaimCount := (s.counts n).reclaimCount - 1 } :=
      Function.update_self ..
    have hlinks : ¬((s.setCounts n { s.counts n with
        reclaimCount := (s.counts n).reclaimCount - 1 }).sfs.inode n).din.nlinks = 0 :=
      h.linked n hin
    have htruncate : truncateUnlinked n (s.setCounts n { s.counts n with
        reclaimCount := (s.counts n).reclaimCount - 1 }) = .ok (.ok (), s.setCounts n
          { s.counts n with reclaimCount := (s.counts n).reclaimCount - 1 }) := by
      rw [truncateUnlinked, getState_bind, if_neg hlinks]
      rfl
    obtain ⟨sfs', hwrite, hstays, hclean⟩ := @writeBack_stays usage (s.setCounts n
      { s.counts n with reclaimCount := (s.counts n).reclaimCount - 1 }) n h hin
        (by rw [hcounts]; exact hzero) (by rw [hcounts]; exact hclosed)
    obtain ⟨hsettled, hkept⟩ := settled_unloaded hstays.settled hclean
    have hin' : n ∈ sfs'.inodeList := by
      rw [hstays.loaded]
      exact hin
    refine ⟨.ok (), { s with
      sfs := unloaded sfs' n
      counts := Function.update s.counts n
        { s.counts n with reclaimCount := (s.counts n).reclaimCount - 1 } }, ?_, hsettled,
      ⟨hstays.kept.trans hkept h.wf, fun k hk => ?_⟩, rfl⟩
    · rw [bind_of_ok htruncate, bind_of_ok hwrite, sfsRemoveLinks, modifyState_bind, freeInode,
        getState_bind]
      refine (congrFun (if_neg (hstays.settled.linked n hin')) _).trans ?_
      apply ensure_of
      rw [hcounts]
      exact ⟨hzero, hclosed⟩
    · have hlist : k ∈ sfs'.inodeList.erase n ↔ k ∈ sfs'.inodeList := List.mem_erase_of_ne hk
      rw [← (show sfs'.inodeList = s.sfs.inodeList from hstays.loaded)]
      exact hlist

variable {base : Nat → Nat}

theorem Counted.setCounts (h : Counted usage base s) {c : InodeCounts}
    (hcached : 0 < c.refCount → n ∈ s.sfs.inodeList) (hopens : c.openCount ≤ base n)
    (hreclaims : 0 < c.refCount → 0 < c.reclaimCount) :
    Counted usage base (s.setCounts n c) where
  settled := h.settled
  cached k hk := by
    rw [refs_setCounts] at hk
    rcases eq_or_ne k n with rfl | hne
    · rw [Function.update_self] at hk
      exact hcached hk
    · rw [Function.update_of_ne hne] at hk
      exact h.cached k hk
  opens k := by
    change (Function.update s.counts n c k).openCount ≤ base k
    rcases eq_or_ne k n with rfl | hne
    · rwa [Function.update_self]
    · rw [Function.update_of_ne hne]
      exact h.opens k
  reclaims k hk := by
    rw [refs_setCounts] at hk
    change 0 < (Function.update s.counts n c k).reclaimCount
    rcases eq_or_ne k n with rfl | hne
    · rw [Function.update_self] at hk ⊢
      exact hreclaims hk
    · rw [Function.update_of_ne hne] at hk ⊢
      exact h.reclaims k hk

/-- Dropping a reference to an inode; the last one may take it out of memory. -/
theorem inodeRefDec_drops (h : Counted usage base s) (hmore : base n < refs s n) :
    ∃ s', inodeRefDec n s = .ok (.ok (), s') ∧ refs s' + Pi.single n 1 = refs s ∧
      Counted usage base s' ∧ Around usage n s s' := by
  have hpos : 0 < (s.counts n).refCount := Nat.zero_lt_of_lt hmore
  have hless : (s.counts n).refCount - 1 + 1 = (s.counts n).refCount := Nat.sub_add_cancel hpos
  have hin := h.cached n hpos
  let c : InodeCounts := { s.counts n with refCount := (s.counts n).refCount - 1 }
  have hcounted : Counted usage base (s.setCounts n c) :=
    h.setCounts (fun _ => hin) (h.opens n) fun _ => h.reclaims n hpos
  have hrefs : refs (s.setCounts n c) + Pi.single n 1 = refs s := refs_dropped hless
  rw [inodeRefDec, getState_bind, ensure_bind_of hpos, modifyState_bind]
  by_cases hlast : (s.counts n).refCount - 1 = 0
  · rw [if_pos hlast]
    have hself : (s.setCounts n c).counts n = c := Function.update_self ..
    have hzero : ((s.setCounts n c).counts n).refCount = 0 := by
      rw [hself]
      exact hlast
    have hclosed : ((s.setCounts n c).counts n).openCount = 0 := by
      have hopens := hcounted.opens n
      change base n < (s.counts n).refCount at hmore
      omega
    have hreclaim : 0 < ((s.setCounts n c).counts n).reclaimCount := by
      rw [hself]
      exact h.reclaims n hpos
    obtain ⟨r, s', hrun, hsettled, haround, hcounts⟩ :=
      @reclaim_returns usage (s.setCounts n c) n h.settled hin hzero hclosed hreclaim
    have hsame : refs s' = refs (s.setCounts n c) := by
      funext k
      rw [refs, hcounts]
      rcases eq_or_ne k n with rfl | hne
      · rw [Function.update_self]
        rfl
      · rw [Function.update_of_ne hne]
        rfl
    refine ⟨s', attempt_bind_of_ok hrun _, by rw [hsame, hrefs], ⟨hsettled, ?_, ?_, ?_⟩,
      ⟨haround.kept, haround.list⟩⟩
    · intro k hk
      rw [hsame] at hk
      have hne : k ≠ n := by
        rintro rfl
        exact absurd hk (by rw [refs, hzero]; decide)
      exact (haround.list k hne).mpr (hcounted.cached k hk)
    · intro k
      rw [hcounts]
      rcases eq_or_ne k n with rfl | hne
      · rw [Function.update_self]
        exact hcounted.opens k
      · rw [Function.update_of_ne hne]
        exact hcounted.opens k
    · intro k hk
      rw [hsame] at hk
      have hne : k ≠ n := by
        rintro rfl
        exact absurd hk (by rw [refs, hzero]; decide)
      rw [hcounts, Function.update_of_ne hne]
      exact hcounted.reclaims k hk
  · rw [if_neg hlast]
    exact ⟨_, rfl, hrefs, hcounted, Around.of_sfs rfl⟩

end Dropping

section Taking

variable {base : Nat → Nat}

/-- Taking a reference to an inode that is in memory. -/
theorem Counted.taken (h : Counted usage base s) (hin : n ∈ s.sfs.inodeList) :
    Counted usage base (s.setCounts n { s.counts n with
      refCount := (s.counts n).refCount + 1
      reclaimCount := if (s.counts n).refCount + 1 = 1 then (s.counts n).reclaimCount + 1
        else (s.counts n).reclaimCount }) := by
  refine h.setCounts (fun _ => hin) (h.opens n) fun _ => ?_
  simp only
  split
  · exact Nat.succ_pos _
  · next hmore =>
    apply h.reclaims n
    change 0 < (s.counts n).refCount
    omega

theorem loadInode_takes (h : Counted usage base s) (hfile : usage.inode n)
    (hkind : (dinOf s.sfs n).type = SFS_TYPE_DIR ∨ (dinOf s.sfs n).type = SFS_TYPE_FILE)
    (hlinks : (dinOf s.sfs n).nlinks ≠ 0) :
    ∃ s', loadInode n s = .ok (.ok (), s') ∧ refs s' = refs s + Pi.single n 1 ∧
      Counted usage base s' ∧ Around usage n s s' := by
  by_cases hin : n ∈ s.sfs.inodeList
  · refine ⟨_, ?_, refs_taken rfl, h.taken hin, Around.of_sfs rfl⟩
    rw [loadInode, getState_bind, if_pos hin]
    rfl
  · have hzero : (s.counts n).refCount = 0 := by
      by_contra hne
      exact hin (h.cached n (Nat.pos_of_ne_zero hne))
    have hload : onSfs (sfsLoadInode n) s = .ok (.ok (), { s with sfs := withLoaded s.sfs n }) := by
      rw [onSfs, sfsLoadInode_eq h.settled.wf hfile hin, if_pos hlinks]
    have hkind' : ((withLoaded s.sfs n).inode n).din.type = SFS_TYPE_DIR ∨
        ((withLoaded s.sfs n).inode n).din.type = SFS_TYPE_FILE := by
      have hself : (withLoaded s.sfs n).inode n = { din := dinOf s.sfs n, dirty := false } :=
        setInode_inode_self n _
      rw [hself]
      exact hkind
    have hcounted : Counted usage base { s with sfs := withLoaded s.sfs n } :=
      ⟨settled_withLoaded h.settled hfile hin hlinks,
        fun k hk => List.mem_cons_of_mem n (h.cached k hk), h.opens, h.reclaims⟩
    refine ⟨({ s with sfs := withLoaded s.sfs n } : VfsState).setCounts n
      { refCount := 1, openCount := 0, reclaimCount := 1 }, ?_, ?_,
      hcounted.setCounts (fun _ => List.mem_cons_self) (Nat.zero_le _) fun _ => Nat.one_pos,
      ⟨kept_withLoaded, fun k hk => ?_⟩⟩
    · rw [loadInode, getState_bind, if_neg hin, bind_of_ok hload, createInode, getState_bind,
        ensure_bind_of hkind']
      rfl
    · apply refs_taken
      rw [hzero]
    · change k ∈ n :: s.sfs.inodeList ↔ k ∈ s.sfs.inodeList
      rw [List.mem_cons]
      exact ⟨fun hmem => hmem.resolve_left hk, .inr⟩

end Taking

end Ucore.InodeDrops
