import Ucore.SfsInodeCache

/-! The reclaim protocol of the inode cache, over all interleavings of processes. -/

namespace Ucore.SfsInodeCacheRuns

open Relation
open Ucore.Errors
open Ucore.KernelRoutine
open Ucore.Interleaving
open Ucore.Segments
open Ucore.SfsInodeCache

/-- The inode that a process has called `sfs_reclaim` for and not counted off yet. -/
def pendingOn : Pc → Option Nat
  | .reclaimDown n | .reclaimLocked n => some n
  | _ => none

/-- Whether a process has the lock of the file system. -/
def inside : Pc → Bool
  | .loadLocked _ | .loadRead _ | .reclaimLocked _ | .reclaimTruncate _ | .syncLocked
  | .fsyncDown _ _ | .fsyncLocked _ _ | .fsyncWrite _ _ => true
  | _ => false

/-- Nobody has a reference to the inode, or will reclaim it. -/
def Dying (t : SfsState) (n : Nat) : Prop :=
  ∃ node, t.nodes n = some node ∧ node.refCount = 0 ∧ node.reclaimCount = 0

/-- What an inode must be for `sfs_fsync` to be called on it. -/
def Synced (t : SfsState) (n : Nat) : Caller → Prop
  | .reclaim => Dying t n
  | .sync => ∃ node, t.nodes n = some node

/-- What a process that has the lock relies on. -/
def Holding (t : SfsState) : Pc → Prop
  | .loadRead ino => ∀ n node, t.nodes n = some node → node.ino ≠ ino
  | .reclaimTruncate n => Dying t n
  | .fsyncDown n caller | .fsyncLocked n caller | .fsyncWrite n caller => Synced t n caller
  | _ => True

variable {ι : Type} [Fintype ι] [DecidableEq ι]

/-- Number of `sfs_reclaim` calls on an inode that have not been counted off. -/
def pending (n : Nat) (pc : ι → Pc) : Nat :=
  tally (fun p => decide (pendingOn p = some n)) pc

/-- The lists of the file system and the inodes in memory. -/
structure Tables (t : SfsState) : Prop where
  mem : ∀ n, n ∈ t.inodeList ↔ ∃ node, t.nodes n = some node
  nodup : t.inodeList.Nodup
  hash : ∀ k n, n ∈ t.hashList k ↔ ∃ node, t.nodes n = some node ∧ sinHashfn node.ino = k
  hashNodup : ∀ k, (t.hashList k).Nodup
  unique : ∀ n m node node', t.nodes n = some node → t.nodes m = some node' →
    node.ino = node'.ino → n = m
  created : ∀ n node, t.nodes n = some node → n < t.created
  killed : ∀ n r, (n, r) ∈ t.killed → t.nodes n = none ∧ n < t.created ∧ r = 0
  killedOnce : (t.killed.map Prod.fst).Nodup
  accounted : ∀ n, n < t.created → t.nodes n = none → n ∈ t.killed.map Prod.fst

structure Sound (s : System ι) : Prop where
  lock : s.shared.fsSem + tally inside s.pc = 1
  counts : ∀ n node, s.shared.nodes n = some node →
    node.reclaimCount = pending n s.pc + if 0 < node.refCount then 1 else 0
  pendings : ∀ n, s.shared.nodes n = none → pending n s.pc = 0
  work : ∀ i, Holding s.shared (s.pc i)
  tables : Tables s.shared

section Counting

variable {pc : ι → Pc} {i : ι} {x : Pc} {n : Nat}

theorem pending_update (n : Nat) (pc : ι → Pc) (i : ι) (x : Pc) :
    pending n (Function.update pc i x) + (if pendingOn (pc i) = some n then 1 else 0) =
      pending n pc + if pendingOn x = some n then 1 else 0 := by
  have hmove := tally_update (fun p => decide (pendingOn p = some n)) pc i x
  simpa only [pending, decide_eq_true_eq] using hmove

theorem pending_update_same (h : pendingOn x = pendingOn (pc i)) :
    pending n (Function.update pc i x) = pending n pc := by
  apply tally_update_same
  rw [h]

theorem holding_of_outside (t : SfsState) {x : Pc} (h : inside x = false) : Holding t x := by
  cases x with
  | loadRead => cases h
  | reclaimTruncate => cases h
  | fsyncDown => cases h
  | fsyncLocked => cases h
  | fsyncWrite => cases h
  | _ => exact trivial

end Counting

variable {s : System ι} {i : ι}

theorem Sound.outside (h : Sound s) (hin : inside (s.pc i) = true) {j : ι} (hne : j ≠ i) :
    inside (s.pc j) = false := by
  by_contra hj
  have htwo := two_le_tally hin (Bool.eq_true_of_not_eq_false hj) hne
  have hlock := h.lock
  omega

/-- One process moves. -/
theorem Sound.move (h : Sound s) (t : SfsState) (x : Pc)
    (hlock : t.fsSem + (if inside x = true then 1 else 0) =
      s.shared.fsSem + if inside (s.pc i) = true then 1 else 0)
    (hcounts : ∀ n node, t.nodes n = some node → node.reclaimCount =
      pending n (Function.update s.pc i x) + if 0 < node.refCount then 1 else 0)
    (hpendings : ∀ n, t.nodes n = none → pending n (Function.update s.pc i x) = 0)
    (hothers : ∀ j, j ≠ i → Holding t (s.pc j)) (hwork : Holding t x) (htables : Tables t) :
    Sound { shared := t, pc := Function.update s.pc i x } where
  lock := by
    have hmove := tally_update inside s.pc i x
    have hwas := h.lock
    change t.fsSem + tally inside (Function.update s.pc i x) = 1
    omega
  counts := hcounts
  pendings := hpendings
  work j := by
    change Holding t (Function.update s.pc i x j)
    rcases eq_or_ne j i with rfl | hne
    · rw [Function.update_self]
      exact hwork
    · rw [Function.update_of_ne hne]
      exact hothers j hne
  tables := htables

section Moves

theorem Tables.congr {t t' : SfsState} (h : Tables t) (hnodes : t'.nodes = t.nodes)
    (hcreated : t'.created = t.created) (hkilled : t'.killed = t.killed)
    (hinodes : t'.inodeList = t.inodeList) (hhash : t'.hashList = t.hashList) : Tables t' where
  mem := by
    rw [hinodes, hnodes]
    exact h.mem
  nodup := by
    rw [hinodes]
    exact h.nodup
  hash := by
    rw [hhash, hnodes]
    exact h.hash
  hashNodup := by
    rw [hhash]
    exact h.hashNodup
  unique := by
    rw [hnodes]
    exact h.unique
  created := by
    rw [hnodes, hcreated]
    exact h.created
  killed := by
    rw [hkilled, hnodes, hcreated]
    exact h.killed
  killedOnce := by
    rw [hkilled]
    exact h.killedOnce
  accounted := by
    rw [hkilled, hnodes, hcreated]
    exact h.accounted

theorem holding_congr {t t' : SfsState} (hnodes : t'.nodes = t.nodes) {x : Pc}
    (h : Holding t x) : Holding t' x := by
  have hsynced : ∀ n caller, Synced t n caller → Synced t' n caller := by
    intro n caller hs
    cases caller with
    | reclaim =>
        change ∃ node, t'.nodes n = some node ∧ _
        rw [hnodes]
        exact hs
    | sync =>
        change ∃ node, t'.nodes n = some node
        rw [hnodes]
        exact hs
  cases x with
  | loadRead ino =>
      change ∀ n node, t'.nodes n = some node → _
      rw [hnodes]
      exact h
  | reclaimTruncate n => exact hsynced n .reclaim h
  | fsyncDown n caller => exact hsynced n caller h
  | fsyncLocked n caller => exact hsynced n caller h
  | fsyncWrite n caller => exact hsynced n caller h
  | _ => exact trivial

/-- No inode changes. -/
theorem Sound.goOn (h : Sound s) (k : Nat) (d : Bool) (x : Pc)
    (hlock : k + (if inside x = true then 1 else 0) =
      s.shared.fsSem + if inside (s.pc i) = true then 1 else 0)
    (hpending : pendingOn x = pendingOn (s.pc i)) (hwork : Holding s.shared x) :
    Sound { shared := { s.shared with fsSem := k, superDirty := d }
            pc := Function.update s.pc i x } := by
  apply h.move { s.shared with fsSem := k, superDirty := d } x hlock
  · intro n node hnode
    rw [pending_update_same hpending]
    exact h.counts n node hnode
  · intro n hnone
    rw [pending_update_same hpending]
    exact h.pendings n hnone
  · intro j _
    exact holding_congr (t := s.shared) rfl (h.work j)
  · exact holding_congr (t := s.shared) rfl hwork
  · exact h.tables.congr rfl rfl rfl rfl rfl

/-- The fields of an inode change, its number apart. -/
theorem Tables.setNode {t : SfsState} (h : Tables t) {n : Nat} {node : Inode} (node' : Inode)
    (hnode : t.nodes n = some node) (hino : node'.ino = node.ino) : Tables (t.setNode n node') := by
  have hfields : ∀ m v, (t.setNode n node').nodes m = some v →
      ∃ v', t.nodes m = some v' ∧ v.ino = v'.ino := by
    intro m v hv
    rcases eq_or_ne m n with rfl | hne
    · simp only [SfsState.setNode, Function.update_self, Option.some.injEq] at hv
      exact ⟨node, hnode, by rw [← hv, hino]⟩
    · simp only [SfsState.setNode, Function.update_of_ne hne] at hv
      exact ⟨v, hv, rfl⟩
  have hback : ∀ m v, t.nodes m = some v →
      ∃ v', (t.setNode n node').nodes m = some v' ∧ v.ino = v'.ino := by
    intro m v hv
    rcases eq_or_ne m n with rfl | hne
    · rw [hnode, Option.some.injEq] at hv
      exact ⟨node', by simp [SfsState.setNode], by rw [← hv, hino]⟩
    · exact ⟨v, by simpa [SfsState.setNode, Function.update_of_ne hne] using hv, rfl⟩
  constructor
  · intro m
    refine (h.mem m).trans ?_
    constructor
    · rintro ⟨v, hv⟩
      obtain ⟨v', hv', _⟩ := hback m v hv
      exact ⟨v', hv'⟩
    · rintro ⟨v, hv⟩
      obtain ⟨v', hv', _⟩ := hfields m v hv
      exact ⟨v', hv'⟩
  · exact h.nodup
  · intro k m
    refine (h.hash k m).trans ?_
    constructor
    · rintro ⟨v, hv, hk⟩
      obtain ⟨v', hv', heq⟩ := hback m v hv
      exact ⟨v', hv', by rw [← heq, hk]⟩
    · rintro ⟨v, hv, hk⟩
      obtain ⟨v', hv', heq⟩ := hfields m v hv
      exact ⟨v', hv', by rw [← heq, hk]⟩
  · exact h.hashNodup
  · intro m m' v v' hv hv' heq
    obtain ⟨w, hw, hwino⟩ := hfields m v hv
    obtain ⟨w', hw', hwino'⟩ := hfields m' v' hv'
    exact h.unique m m' w w' hw hw' (by rw [← hwino, ← hwino', heq])
  · intro m v hv
    obtain ⟨w, hw, _⟩ := hfields m v hv
    exact h.created m w hw
  · intro m r hm
    obtain ⟨hnone, hlt⟩ := h.killed m r hm
    refine ⟨?_, hlt⟩
    have hne : m ≠ n := by
      rintro rfl
      rw [hnone] at hnode
      cases hnode
    simpa [SfsState.setNode, Function.update_of_ne hne] using hnone
  · exact h.killedOnce
  · intro m hlt hnone
    apply h.accounted m hlt
    rcases eq_or_ne m n with rfl | hne
    · simp [SfsState.setNode] at hnone
    · simpa [SfsState.setNode, Function.update_of_ne hne] using hnone

/-- An inode that somebody has a reference to is nobody's work. -/
theorem holding_setNode {t : SfsState} {n : Nat} {node : Inode} (node' : Inode) {x : Pc}
    (hnode : t.nodes n = some node) (hino : node'.ino = node.ino)
    (hkeeps : node.refCount = 0 → node.reclaimCount = 0 →
      node'.refCount = 0 ∧ node'.reclaimCount = 0)
    (h : Holding t x) : Holding (t.setNode n node') x := by
  have hdying : ∀ m, Dying t m → Dying (t.setNode n node') m := by
    rintro m ⟨v, hv, href, hcount⟩
    rcases eq_or_ne m n with rfl | hne
    · rw [hnode, Option.some.injEq] at hv
      subst hv
      obtain ⟨href', hcount'⟩ := hkeeps href hcount
      exact ⟨node', by simp [SfsState.setNode], href', hcount'⟩
    · exact ⟨v, by simpa [SfsState.setNode, Function.update_of_ne hne] using hv, href, hcount⟩
  have hsynced : ∀ m caller, Synced t m caller → Synced (t.setNode n node') m caller := by
    intro m caller hs
    cases caller with
    | reclaim => exact hdying m hs
    | sync =>
        obtain ⟨v, hv⟩ := hs
        rcases eq_or_ne m n with rfl | hne
        · exact ⟨node', by simp [SfsState.setNode]⟩
        · exact ⟨v, by simpa [SfsState.setNode, Function.update_of_ne hne] using hv⟩
  cases x with
  | loadRead ino =>
      intro m v hv
      rcases eq_or_ne m n with rfl | hne
      · simp only [SfsState.setNode, Function.update_self, Option.some.injEq] at hv
        rw [← hv, hino]
        exact h m node hnode
      · simp only [SfsState.setNode, Function.update_of_ne hne] at hv
        exact h m v hv
  | reclaimTruncate m => exact hdying m h
  | fsyncDown m caller => exact hsynced m caller h
  | fsyncLocked m caller => exact hsynced m caller h
  | fsyncWrite m caller => exact hsynced m caller h
  | _ => exact trivial

/-- One inode changes. -/
theorem Sound.setNode (h : Sound s) {n : Nat} {node : Inode} (node' : Inode) (k : Nat) (x : Pc)
    (hnode : s.shared.nodes n = some node) (hino : node'.ino = node.ino)
    (hlock : k + (if inside x = true then 1 else 0) =
      s.shared.fsSem + if inside (s.pc i) = true then 1 else 0)
    (hold : pendingOn (s.pc i) = none ∨ pendingOn (s.pc i) = some n)
    (hnew : pendingOn x = none ∨ pendingOn x = some n)
    (hcount : node'.reclaimCount =
      pending n (Function.update s.pc i x) + if 0 < node'.refCount then 1 else 0)
    (hothers : inside (s.pc i) = true ∨ (node.refCount = 0 → node.reclaimCount = 0 →
      node'.refCount = 0 ∧ node'.reclaimCount = 0))
    (hwork : Holding (s.shared.setNode n node') x) :
    Sound { shared := { s.shared.setNode n node' with fsSem := k }
            pc := Function.update s.pc i x } := by
  have hpendings : ∀ m, m ≠ n → pending m (Function.update s.pc i x) = pending m s.pc := by
    intro m hne
    have hmove := pending_update m s.pc i x
    have holdne : pendingOn (s.pc i) ≠ some m := by
      rcases hold with hold | hold
      · simp [hold]
      · simpa [hold] using hne.symm
    have hnewne : pendingOn x ≠ some m := by
      rcases hnew with hnew | hnew
      · simp [hnew]
      · simpa [hnew] using hne.symm
    rw [if_neg holdne, if_neg hnewne] at hmove
    exact hmove
  apply h.move { s.shared.setNode n node' with fsSem := k } x hlock
  · intro m v hv
    rcases eq_or_ne m n with rfl | hne
    · simp only [SfsState.setNode, Function.update_self, Option.some.injEq] at hv
      rw [← hv]
      exact hcount
    · simp only [SfsState.setNode, Function.update_of_ne hne] at hv
      rw [hpendings m hne]
      exact h.counts m v hv
  · intro m hnone
    rcases eq_or_ne m n with rfl | hne
    · simp [SfsState.setNode] at hnone
    · simp only [SfsState.setNode, Function.update_of_ne hne] at hnone
      rw [hpendings m hne]
      exact h.pendings m hnone
  · intro j hne
    apply holding_congr (t := s.shared.setNode n node') rfl
    rcases hothers with hin | hkeeps
    · exact holding_of_outside _ (h.outside hin hne)
    · exact holding_setNode node' hnode hino hkeeps (h.work j)
  · exact holding_congr (t := s.shared.setNode n node') rfl hwork
  · exact (h.tables.setNode node' hnode hino).congr rfl rfl rfl rfl rfl

end Moves

section Births

/-- The state after an inode was freed and the lock given back. -/
def removed (t : SfsState) (n : Nat) (node : Inode) (d : Bool) : SfsState where
  nodes := Function.update t.nodes n none
  created := t.created
  killed := (n, 0) :: t.killed
  fsSem := t.fsSem + 1
  inodeList := t.inodeList.erase n
  hashList := Function.update t.hashList (sinHashfn node.ino)
    ((t.hashList (sinHashfn node.ino)).erase n)
  superDirty := d

theorem removed_nodes_iff {t : SfsState} {n m : Nat} {node v : Inode} {d : Bool} :
    (removed t n node d).nodes m = some v ↔ m ≠ n ∧ t.nodes m = some v := by
  change Function.update t.nodes n none m = some v ↔ _
  rcases eq_or_ne m n with rfl | hne
  · simp
  · simp [hne]

theorem Tables.removed {t : SfsState} (h : Tables t) {n : Nat} {node : Inode}
    (hnode : t.nodes n = some node) (d : Bool) : Tables (removed t n node d) where
  mem m := by
    change m ∈ t.inodeList.erase n ↔ _
    rw [h.nodup.mem_erase_iff, h.mem]
    simp only [removed_nodes_iff, exists_and_left]
  nodup := h.nodup.erase n
  hash k m := by
    change m ∈ Function.update t.hashList (sinHashfn node.ino) _ k ↔ _
    simp only [removed_nodes_iff]
    rcases eq_or_ne k (sinHashfn node.ino) with rfl | hne
    · rw [Function.update_self, (h.hashNodup _).mem_erase_iff, h.hash]
      constructor
      · rintro ⟨hmn, v, hv, hk⟩
        exact ⟨v, ⟨hmn, hv⟩, hk⟩
      · rintro ⟨v, ⟨hmn, hv⟩, hk⟩
        exact ⟨hmn, v, hv, hk⟩
    · rw [Function.update_of_ne hne, h.hash]
      constructor
      · rintro ⟨v, hv, hk⟩
        refine ⟨v, ⟨?_, hv⟩, hk⟩
        rintro rfl
        rw [hnode, Option.some.injEq] at hv
        rw [hv] at hne
        exact hne hk.symm
      · rintro ⟨v, ⟨_, hv⟩, hk⟩
        exact ⟨v, hv, hk⟩
  hashNodup k := by
    change (Function.update t.hashList (sinHashfn node.ino) _ k).Nodup
    rcases eq_or_ne k (sinHashfn node.ino) with rfl | hne
    · rw [Function.update_self]
      exact (h.hashNodup _).erase n
    · rw [Function.update_of_ne hne]
      exact h.hashNodup k
  unique m m' v v' hv hv' heq :=
    h.unique m m' v v' (removed_nodes_iff.mp hv).2 (removed_nodes_iff.mp hv').2 heq
  created m v hv := h.created m v (removed_nodes_iff.mp hv).2
  killed m r hm := by
    change Function.update t.nodes n none m = none ∧ m < t.created ∧ r = 0
    rcases List.mem_cons.mp hm with heq | hm
    · obtain ⟨rfl, rfl⟩ := Prod.mk.inj heq
      exact ⟨Function.update_self m none t.nodes, h.created m node hnode, rfl⟩
    · obtain ⟨hnone, hlt⟩ := h.killed m r hm
      refine ⟨?_, hlt⟩
      rcases eq_or_ne m n with rfl | hne
      · exact Function.update_self m none t.nodes
      · rw [Function.update_of_ne hne]
        exact hnone
  killedOnce := by
    apply List.nodup_cons.mpr ⟨?_, h.killedOnce⟩
    intro hmem
    obtain ⟨⟨m, r⟩, hm, rfl⟩ := List.mem_map.mp hmem
    have hnone := (h.killed m r hm).1
    rw [hnode] at hnone
    cases hnone
  accounted m hlt hnone := by
    change m ∈ n :: t.killed.map Prod.fst
    change Function.update t.nodes n none m = none at hnone
    rcases eq_or_ne m n with rfl | hne
    · exact List.mem_cons_self
    · rw [Function.update_of_ne hne] at hnone
      exact List.mem_cons_of_mem n (h.accounted m hlt hnone)

/-- The state after an inode was loaded and the lock given back. -/
def loaded (t : SfsState) (ino nlinks : Nat) : SfsState where
  nodes := Function.update t.nodes t.created (some {
    ino := ino
    nlinks := nlinks
    dirty := false
    sem := 1
    refCount := 1
    reclaimCount := 1 })
  created := t.created + 1
  killed := t.killed
  fsSem := t.fsSem + 1
  inodeList := t.created :: t.inodeList
  hashList := Function.update t.hashList (sinHashfn ino) (t.created :: t.hashList (sinHashfn ino))
  superDirty := t.superDirty

theorem Tables.fresh {t : SfsState} (h : Tables t) : t.nodes t.created = none := by
  by_contra hsome
  obtain ⟨node, hnode⟩ := Option.ne_none_iff_exists'.mp hsome
  exact absurd (h.created _ node hnode) (lt_irrefl _)

/-- The inodes in memory are the old ones and the new one. -/
theorem loaded_nodes {t : SfsState} (h : Tables t) {ino nlinks m : Nat} {v : Inode} :
    (loaded t ino nlinks).nodes m = some v ↔ t.nodes m = some v ∨ m = t.created ∧
      v = {
        ino := ino
        nlinks := nlinks
        dirty := false
        sem := 1
        refCount := 1
        reclaimCount := 1 } := by
  change Function.update t.nodes t.created _ m = some v ↔ _
  rcases eq_or_ne m t.created with rfl | hne
  · simp [h.fresh, eq_comm]
  · simp [hne]

theorem Tables.loaded {t : SfsState} (h : Tables t) {ino : Nat} (nlinks : Nat)
    (hnew : ∀ n node, t.nodes n = some node → node.ino ≠ ino) : Tables (loaded t ino nlinks) where
  mem m := by
    change m ∈ t.created :: t.inodeList ↔ _
    simp only [List.mem_cons, h.mem, loaded_nodes h, exists_or, exists_and_left]
    rw [or_comm]
    simp
  nodup := by
    apply List.nodup_cons.mpr ⟨?_, h.nodup⟩
    intro hmem
    obtain ⟨node, hnode⟩ := (h.mem _).mp hmem
    rw [h.fresh] at hnode
    cases hnode
  hash k m := by
    change m ∈ Function.update t.hashList (sinHashfn ino) _ k ↔ _
    simp only [loaded_nodes h, or_and_right, exists_or]
    rcases eq_or_ne k (sinHashfn ino) with rfl | hne
    · rw [Function.update_self, List.mem_cons, h.hash, or_comm]
      simp
    · rw [Function.update_of_ne hne, h.hash]
      simp [hne.symm]
  hashNodup k := by
    change (Function.update t.hashList (sinHashfn ino) _ k).Nodup
    rcases eq_or_ne k (sinHashfn ino) with rfl | hne
    · rw [Function.update_self]
      apply List.nodup_cons.mpr ⟨?_, h.hashNodup _⟩
      intro hmem
      obtain ⟨node, hnode, _⟩ := (h.hash _ _).mp hmem
      rw [h.fresh] at hnode
      cases hnode
    · rw [Function.update_of_ne hne]
      exact h.hashNodup k
  unique m m' v v' hv hv' heq := by
    rcases (loaded_nodes h).mp hv with hv | ⟨rfl, rfl⟩
    · rcases (loaded_nodes h).mp hv' with hv' | ⟨rfl, rfl⟩
      · exact h.unique m m' v v' hv hv' heq
      · exact absurd heq (hnew m v hv)
    · rcases (loaded_nodes h).mp hv' with hv' | ⟨rfl, rfl⟩
      · exact absurd heq.symm (hnew m' v' hv')
      · rfl
  created m v hv := by
    change m < t.created + 1
    rcases (loaded_nodes h).mp hv with hv | ⟨rfl, _⟩
    · exact Nat.lt_succ_of_lt (h.created m v hv)
    · exact Nat.lt_succ_self _
  killed m r hm := by
    obtain ⟨hnone, hlt, hr⟩ := h.killed m r hm
    refine ⟨?_, Nat.lt_succ_of_lt hlt, hr⟩
    change Function.update t.nodes t.created _ m = none
    rw [Function.update_of_ne hlt.ne]
    exact hnone
  killedOnce := h.killedOnce
  accounted m hlt hnone := by
    change Function.update t.nodes t.created _ m = none at hnone
    rcases Nat.lt_succ_iff_lt_or_eq.mp hlt with hlt | rfl
    · rw [Function.update_of_ne hlt.ne] at hnone
      exact h.accounted m hlt hnone
    · rw [Function.update_self] at hnone
      cases hnone

end Births

section Segments

theorem getNode_of {t : SfsState} {n : Nat} {node : Inode} (h : t.nodes n = some node) :
    getNode n t = .ok (.ok node, t) := by
  rw [getNode, h]

theorem modifyNode_of {t : SfsState} {n : Nat} {node : Inode} (f : Inode → Inode)
    (h : t.nodes n = some node) : modifyNode n f t = .ok (.ok (), t.setNode n (f node)) := by
  rw [modifyNode, bind_of_ok (getNode_of h)]
  rfl

theorem setNode_self (t : SfsState) (n : Nat) (node : Inode) :
    (t.setNode n node).nodes n = some node := by
  simp [SfsState.setNode]

theorem sfsReclaimed_of {t : SfsState} {n : Nat} {node : Inode} (hnode : t.nodes n = some node)
    (href : node.refCount = 0) :
    ∃ d, sfsReclaimed n t = .ok (.ok .idle, removed t n node d) := by
  have hremove : sfsRemoveLinks n t = .ok (.ok (), { t with
      inodeList := t.inodeList.erase n
      hashList := Function.update t.hashList (sinHashfn node.ino)
        ((t.hashList (sinHashfn node.ino)).erase n) }) := by
    rw [sfsRemoveLinks, bind_of_ok (getNode_of hnode)]
    rfl
  have hkill : ∀ t' : SfsState, t'.nodes n = some node → inodeKill n t' =
      .ok (.ok (), { t' with
        nodes := Function.update t'.nodes n none
        killed := (n, 0) :: t'.killed }) := by
    intro t' hnode'
    rw [inodeKill, bind_of_ok (getNode_of hnode'), ensure_bind_of href, ← href]
    rfl
  let t' : SfsState := { t with
    fsSem := t.fsSem + 1
    inodeList := t.inodeList.erase n
    hashList := Function.update t.hashList (sinHashfn node.ino)
      ((t.hashList (sinHashfn node.ino)).erase n) }
  have hnode' : t'.nodes n = some node := hnode
  have hunlock : unlockSfsFs { t with
      inodeList := t.inodeList.erase n
      hashList := Function.update t.hashList (sinHashfn node.ino)
        ((t.hashList (sinHashfn node.ino)).erase n) } = .ok (.ok (), t') := rfl
  rw [sfsReclaimed, bind_of_ok hremove, bind_of_ok hunlock, bind_of_ok (getNode_of hnode')]
  rcases Decidable.em (node.nlinks = 0) with hgone | hlinked
  · refine ⟨true, ?_⟩
    simp only [if_pos hgone]
    rw [modifyState_bind, bind_of_ok (hkill { t' with superDirty := true } hnode)]
    rfl
  · refine ⟨t.superDirty, ?_⟩
    simp only [if_neg hlinked]
    rw [bind_of_ok (hkill t' hnode)]
    rfl

theorem goes_sfsReclaimed (h : Sound s) (hin : inside (s.pc i) = true)
    (hpending : pendingOn (s.pc i) = none) {n : Nat} (hdying : Dying s.shared n) :
    Goes Sound .idle s i (sfsReclaimed n) := by
  obtain ⟨node, hnode, href, hcount⟩ := hdying
  obtain ⟨d, hrun⟩ := sfsReclaimed_of hnode href
  refine ⟨.ok .idle, removed s.shared n node d, hrun, ?_⟩
  have hsame : pendingOn .idle = pendingOn (s.pc i) := hpending.symm
  apply h.move (removed s.shared n node d) .idle
  · rw [if_pos hin]
    rfl
  · intro m v hv
    rw [pending_update_same hsame]
    exact h.counts m v (removed_nodes_iff.mp hv).2
  · intro m hnone
    rw [pending_update_same hsame]
    rcases eq_or_ne m n with rfl | hne
    · have hall := h.counts m node hnode
      omega
    · apply h.pendings
      change Function.update s.shared.nodes n none m = none at hnone
      rwa [Function.update_of_ne hne] at hnone
  · exact fun j hne => holding_of_outside _ (h.outside hin hne)
  · exact trivial
  · exact h.tables.removed hnode d

/-- The process goes on to another place with the lock. -/
theorem goes_return (h : Sound s) (hin : inside (s.pc i) = true)
    (hpending : pendingOn (s.pc i) = none) (x : Pc) (hx : inside x = true)
    (hxpending : pendingOn x = none) (hwork : Holding s.shared x) :
    Goes Sound .idle s i (return x) := by
  apply goes_pure
  apply h.goOn s.shared.fsSem s.shared.superDirty x ?_ (by rw [hxpending, hpending]) hwork
  rw [if_pos hx, if_pos hin]

theorem goes_sfsReclaimSync (h : Sound s) (hin : inside (s.pc i) = true)
    (hpending : pendingOn (s.pc i) = none) {n : Nat} (hdying : Dying s.shared n) :
    Goes Sound .idle s i (sfsReclaimSync n) := by
  obtain ⟨node, hnode, _⟩ := id hdying
  apply goes_bind_same (getNode_of hnode)
  split
  · exact goes_return h hin hpending (.fsyncDown n .reclaim) rfl rfl hdying
  · exact goes_sfsReclaimed h hin hpending hdying

/-- The state after the lock was given back. -/
def unlocked (t : SfsState) : SfsState :=
  { t with fsSem := t.fsSem + 1 }

theorem Sound.leave (h : Sound s) (hin : inside (s.pc i) = true)
    (hpending : pendingOn (s.pc i) = none) :
    Sound { shared := unlocked s.shared, pc := Function.update s.pc i .idle } := by
  apply h.goOn (s.shared.fsSem + 1) s.shared.superDirty .idle ?_ hpending.symm trivial
  rw [if_pos hin]
  rfl

theorem goes_unlock_fail (h : Sound s) (hin : inside (s.pc i) = true)
    (hpending : pendingOn (s.pc i) = none) (e : Errno) :
    Goes Sound .idle s i (do
      unlockSfsFs
      fail e) :=
  ⟨.error e, unlocked s.shared, rfl, h.leave hin hpending⟩

theorem goes_sfsReclaim (h : Sound s) {n : Nat} (hpc : s.pc i = .reclaimLocked n) :
    Goes Sound .idle s i (sfsReclaim n) := by
  have hin : inside (s.pc i) = true := by rw [hpc, inside]
  have hpending : pendingOn (s.pc i) = some n := by rw [hpc, pendingOn]
  have hpos : 0 < pending n s.pc := tally_pos (decide_eq_true hpending)
  obtain ⟨node, hnode⟩ : ∃ node, s.shared.nodes n = some node := by
    by_contra hnone
    rw [← Option.ne_none_iff_exists', not_not] at hnone
    have hzero := h.pendings n hnone
    omega
  have hcount := h.counts n node hnode
  let node' : Inode := { node with reclaimCount := node.reclaimCount - 1 }
  apply goes_bind_same (getNode_of hnode)
  apply goes_ensure (by omega)
  rcases Decidable.em (node.reclaimCount - 1 ≠ 0 ∨ node.refCount ≠ 0) with hbusy | hlast
  · refine ⟨.error .eBusy, { s.shared.setNode n node' with fsSem := s.shared.fsSem + 1 }, ?_, ?_⟩
    · rw [bind_of_ok (modifyNode_of _ hnode), if_pos hbusy]
      rfl
    · have hidle := pending_update n s.pc i .idle
      rw [if_pos hpending, if_neg (by simp [pendingOn]), add_zero] at hidle
      apply h.setNode node' (s.shared.fsSem + 1) .idle hnode rfl ?_ (Or.inr hpending) (Or.inl rfl) ?_
        (Or.inl hin) trivial
      · rw [if_pos hin]
        rfl
      · have href : (if 0 < node'.refCount then 1 else 0) = if 0 < node.refCount then 1 else 0 := rfl
        change node.reclaimCount - 1 = _
        omega
  · push Not at hlast
    have hnext := pending_update n s.pc i (.reclaimTruncate n)
    rw [if_pos hpending, if_neg (by simp [pendingOn]), add_zero] at hnext
    have hdying : Dying (s.shared.setNode n node') n :=
      ⟨node', setNode_self _ _ _, hlast.2, hlast.1⟩
    have hsound : Sound { shared := s.shared.setNode n node'
                          pc := Function.update s.pc i (.reclaimTruncate n) } := by
      apply h.setNode node' s.shared.fsSem (.reclaimTruncate n) hnode rfl ?_ (Or.inr hpending)
        (Or.inl rfl) ?_ (Or.inl hin) hdying
      · rw [if_pos hin]
        rfl
      · have href : ¬0 < node'.refCount := by
          change ¬0 < node.refCount
          omega
        rw [if_neg href]
        rw [if_neg href] at hcount
        change node.reclaimCount - 1 = _
        omega
    apply goes_bind (.reclaimTruncate n) (modifyNode_of _ hnode)
    have hnot : ¬(node.reclaimCount - 1 ≠ 0 ∨ node.refCount ≠ 0) := by
      push Not
      exact hlast
    rw [if_neg hnot]
    have hthere : (Function.update s.pc i (.reclaimTruncate n)) i = .reclaimTruncate n :=
      Function.update_self i _ s.pc
    split
    · apply goes_return hsound
      · exact congrArg inside hthere
      · exact congrArg pendingOn hthere
      · rfl
      · rfl
      · exact hdying
    · apply goes_sfsReclaimSync hsound
      · exact congrArg inside hthere
      · exact congrArg pendingOn hthere
      · exact hdying

omit [DecidableEq ι] in
/-- Fields of an inode change that the protocol does not use. -/
theorem Sound.setNode_same (h : Sound s) {n : Nat} {node node' : Inode}
    (hnode : s.shared.nodes n = some node) (hino : node'.ino = node.ino)
    (href : node'.refCount = node.refCount) (hcount : node'.reclaimCount = node.reclaimCount) :
    Sound { shared := s.shared.setNode n node', pc := s.pc } where
  lock := h.lock
  counts m v hv := by
    change Function.update s.shared.nodes n (some node') m = some v at hv
    rcases eq_or_ne m n with rfl | hne
    · rw [Function.update_self, Option.some.injEq] at hv
      rw [← hv, href, hcount]
      exact h.counts m node hnode
    · rw [Function.update_of_ne hne] at hv
      exact h.counts m v hv
  pendings m hnone := by
    change Function.update s.shared.nodes n (some node') m = none at hnone
    rcases eq_or_ne m n with rfl | hne
    · rw [Function.update_self] at hnone
      cases hnone
    · rw [Function.update_of_ne hne] at hnone
      exact h.pendings m hnone
  work j := by
    apply holding_setNode node' hnode hino ?_ (h.work j)
    intro hr hc
    exact ⟨href.trans hr, hcount.trans hc⟩
  tables := h.tables.setNode node' hnode hino

theorem goes_modifyNode_same (h : Sound s) {n : Nat} {f : Inode → Inode}
    (hnode : ∃ node, s.shared.nodes n = some node)
    (hf : ∀ node, (f node).ino = node.ino ∧ (f node).refCount = node.refCount ∧
      (f node).reclaimCount = node.reclaimCount) {g : Unit → Routine SfsState Pc}
    (hgo : ∀ s' : System ι, Sound s' → s'.pc = s.pc → Goes Sound .idle s' i (g ())) :
    Goes Sound .idle s i (modifyNode n f >>= g) := by
  obtain ⟨node, hnode⟩ := hnode
  obtain ⟨hino, href, hcount⟩ := hf node
  apply goes_bind_same (modifyNode_of f hnode)
  exact hgo _ (h.setNode_same hnode hino href hcount) rfl

theorem goes_sfsReclaimTruncated (h : Sound s) {n : Nat} (reply : Reply)
    (hpc : s.pc i = .reclaimTruncate n) :
    Goes Sound .idle s i (sfsReclaimTruncated n reply) := by
  have hdying := h.work i
  rw [hpc] at hdying
  obtain ⟨node, hnode, _⟩ := id hdying
  apply goes_modifyNode_same h ⟨node, hnode⟩
  · exact fun _ => ⟨rfl, rfl, rfl⟩
  intro s' hsound hsame
  have hin : inside (s'.pc i) = true := by rw [hsame, hpc, inside]
  have hpending : pendingOn (s'.pc i) = none := by
    rw [hsame, hpc]
    rfl
  have hdying' := hsound.work i
  rw [hsame, hpc] at hdying'
  cases reply.ret with
  | error e => exact goes_unlock_fail hsound hin hpending e
  | ok _ => exact goes_sfsReclaimSync hsound hin hpending hdying'

theorem goes_sfsSyncFrom (h : Sound s) (hin : inside (s.pc i) = true)
    (hpending : pendingOn (s.pc i) = none) {l : List Nat}
    (hl : ∀ n ∈ l, ∃ node, s.shared.nodes n = some node) :
    Goes Sound .idle s i (sfsSyncFrom l) := by
  induction l with
  | nil =>
      apply goes_bind .idle (a := ()) (t := unlocked s.shared) rfl
      have hleft := h.leave hin hpending
      apply goes_getState
      have hthere : (Function.update s.pc i .idle) i = .idle := Function.update_self i _ s.pc
      split
      · refine ⟨.ok .syncSuper, { unlocked s.shared with superDirty := false }, rfl, ?_⟩
        apply hleft.goOn (s.shared.fsSem + 1) false .syncSuper
        · change s.shared.fsSem + 1 + 0 = s.shared.fsSem + 1 +
            if inside (Function.update s.pc i .idle i) = true then 1 else 0
          rw [hthere]
          rfl
        · change none = pendingOn (Function.update s.pc i .idle i)
          rw [hthere]
          rfl
        · exact trivial
      · apply goes_pure
        rw [Function.update_idem]
        exact hleft
  | cons n rest ih =>
      obtain ⟨node, hnode⟩ := hl n List.mem_cons_self
      apply goes_bind_same (getNode_of hnode)
      split
      · exact goes_return h hin hpending (.fsyncDown n .sync) rfl rfl ⟨node, hnode⟩
      · exact ih fun m hm => hl m (List.mem_cons_of_mem n hm)

theorem goes_fsyncReturns (h : Sound s) (hin : inside (s.pc i) = true)
    (hpending : pendingOn (s.pc i) = none) {n : Nat} {caller : Caller}
    (hsynced : Synced s.shared n caller) (ret : Except Errno Unit) :
    Goes Sound .idle s i (fsyncReturns n caller ret) := by
  cases caller with
  | sync =>
      apply goes_getState
      apply goes_sfsSyncFrom h hin hpending
      intro m hm
      apply (h.tables.mem m).mp
      exact (List.dropWhile_sublist _).mem (List.mem_of_mem_drop hm)
  | reclaim =>
      cases ret with
      | error e => exact goes_unlock_fail h hin hpending e
      | ok _ => exact goes_sfsReclaimed h hin hpending hsynced

theorem node_of_synced {t : SfsState} {n : Nat} {caller : Caller} (h : Synced t n caller) :
    ∃ node, t.nodes n = some node := by
  cases caller with
  | reclaim =>
      obtain ⟨node, hnode, _⟩ := h
      exact ⟨node, hnode⟩
  | sync => exact h

/-- `sfs_fsync` gives the lock of the inode back and returns. -/
theorem goes_unlockSin (h : Sound s) (hin : inside (s.pc i) = true)
    (hpending : pendingOn (s.pc i) = none) {n : Nat} {caller : Caller}
    (hwork : ∀ t, Holding t (s.pc i) → Synced t n caller) (ret : Except Errno Unit) :
    Goes Sound .idle s i (do
      unlockSin n
      fsyncReturns n caller ret) := by
  rw [unlockSin]
  apply goes_modifyNode_same h (node_of_synced (hwork _ (h.work i)))
  · exact fun _ => ⟨rfl, rfl, rfl⟩
  intro s' hsound hsame
  apply goes_fsyncReturns hsound
  · rw [hsame]
    exact hin
  · rw [hsame]
    exact hpending
  · apply hwork
    rw [← hsame]
    exact hsound.work i

theorem goes_sfsFsync (h : Sound s) {n : Nat} {caller : Caller}
    (hpc : s.pc i = .fsyncLocked n caller) : Goes Sound .idle s i (sfsFsync n caller) := by
  have hin : inside (s.pc i) = true := by rw [hpc, inside]
  have hpending : pendingOn (s.pc i) = none := by
    rw [hpc]
    rfl
  have hwork : ∀ t, Holding t (s.pc i) → Synced t n caller := by
    intro t ht
    rw [hpc] at ht
    exact ht
  obtain ⟨node, hnode⟩ := node_of_synced (hwork _ (h.work i))
  apply goes_bind_same (getNode_of hnode)
  split
  · apply goes_modifyNode_same h ⟨node, hnode⟩
    · exact fun _ => ⟨rfl, rfl, rfl⟩
    intro s' hsound hsame
    rw [← hsame] at hin hpending hwork
    exact goes_return hsound hin hpending (.fsyncWrite n caller) rfl rfl (hwork _ (hsound.work i))
  · exact goes_unlockSin h hin hpending hwork (.ok ())

theorem goes_sfsFsynced (h : Sound s) {n : Nat} {caller : Caller} (reply : Reply)
    (hpc : s.pc i = .fsyncWrite n caller) :
    Goes Sound .idle s i (sfsFsynced n caller reply) := by
  have hin : inside (s.pc i) = true := by rw [hpc, inside]
  have hpending : pendingOn (s.pc i) = none := by
    rw [hpc]
    rfl
  have hwork : ∀ t, Holding t (s.pc i) → Synced t n caller := by
    intro t ht
    rw [hpc] at ht
    exact ht
  rw [sfsFsynced]
  cases reply.ret with
  | error e =>
      apply goes_modifyNode_same h (node_of_synced (hwork _ (h.work i)))
      · exact fun _ => ⟨rfl, rfl, rfl⟩
      intro s' hsound hsame
      rw [← hsame] at hin hpending hwork
      exact goes_unlockSin hsound hin hpending hwork (.error e)
  | ok _ => exact goes_unlockSin h hin hpending hwork (.ok ())

/-- An inode that `lookup_sfs_nolock` found, with one more reference. -/
def taken (node : Inode) : Inode :=
  { node with
    refCount := node.refCount + 1
    reclaimCount := if node.refCount + 1 = 1 then node.reclaimCount + 1 else node.reclaimCount }

theorem inodeRefInc_of {t : SfsState} {n : Nat} {node : Inode} (hnode : t.nodes n = some node) :
    inodeRefInc n t = .ok (.ok (node.refCount + 1),
      t.setNode n { node with refCount := node.refCount + 1 }) := by
  rw [inodeRefInc, bind_of_ok (modifyNode_of _ hnode), bind_of_ok (getNode_of (setNode_self t n _))]
  rfl

theorem lookupFrom_of {t : SfsState} (ino : Nat) {l : List Nat}
    (hl : ∀ n ∈ l, ∃ node, t.nodes n = some node) :
    (∃ n node, t.nodes n = some node ∧
      lookupFrom ino l t = .ok (.ok (some n), t.setNode n (taken node))) ∨
      (∀ n ∈ l, ∀ node, t.nodes n = some node → node.ino ≠ ino) ∧
        lookupFrom ino l t = .ok (.ok none, t) := by
  induction l with
  | nil => exact Or.inr ⟨fun n hn => absurd hn List.not_mem_nil, rfl⟩
  | cons n rest ih =>
      obtain ⟨node, hnode⟩ := hl n List.mem_cons_self
      rcases eq_or_ne node.ino ino with hfound | hother
      · refine Or.inl ⟨n, node, hnode, ?_⟩
        rw [lookupFrom, bind_of_ok (getNode_of hnode), if_pos hfound, bind_of_ok (inodeRefInc_of hnode)]
        rcases eq_or_ne (node.refCount + 1) 1 with hfirst | hmore
        · simp only [if_pos hfirst]
          rw [bind_of_ok (modifyNode_of _ (setNode_self t n _))]
          have htaken : taken node = { node with
              refCount := node.refCount + 1
              reclaimCount := node.reclaimCount + 1 } := by
            rw [taken, if_pos hfirst]
          rw [pure_apply, htaken]
          simp [SfsState.setNode]
        · simp only [if_neg hmore]
          simp only [taken, if_neg hmore]
          rfl
      · have hskip : lookupFrom ino (n :: rest) t = lookupFrom ino rest t := by
          rw [lookupFrom, bind_of_ok (getNode_of hnode), if_neg hother]
        rw [hskip]
        rcases ih fun m hm => hl m (List.mem_cons_of_mem n hm) with hfound | ⟨hnone, hrun⟩
        · exact Or.inl hfound
        · refine Or.inr ⟨?_, hrun⟩
          intro m hm v hv
          rcases List.mem_cons.mp hm with rfl | hm
          · rw [hnode, Option.some.injEq] at hv
            rw [← hv]
            exact hother
          · exact hnone m hm v hv

theorem goes_sfsLoadInode (h : Sound s) {ino : Nat} (reply : Reply)
    (hpc : s.pc i = .loadLocked ino) : Goes Sound .idle s i (sfsLoadInode ino reply) := by
  have hin : inside (s.pc i) = true := by rw [hpc, inside]
  have hpending : pendingOn (s.pc i) = none := by
    rw [hpc]
    rfl
  have hchain : ∀ n ∈ s.shared.hashList (sinHashfn ino), ∃ node, s.shared.nodes n = some node := by
    intro n hn
    obtain ⟨node, hnode, _⟩ := (h.tables.hash _ _).mp hn
    exact ⟨node, hnode⟩
  rcases lookupFrom_of ino hchain with ⟨n, node, hnode, hfound⟩ | ⟨hnone, hmissed⟩
  · refine ⟨.ok .idle, { s.shared.setNode n (taken node) with fsSem := s.shared.fsSem + 1 }, ?_, ?_⟩
    · rw [sfsLoadInode, bind_of_ok (x := lookupSfsNolock ino) hfound]
      rfl
    · apply h.setNode (taken node) (s.shared.fsSem + 1) .idle hnode rfl ?_ (Or.inl hpending)
        (Or.inl rfl) ?_ (Or.inl hin) trivial
      · rw [if_pos hin]
        rfl
      · have hsame : pendingOn .idle = pendingOn (s.pc i) := hpending.symm
        rw [pending_update_same hsame]
        have hcount := h.counts n node hnode
        have hpos : 0 < (taken node).refCount := Nat.succ_pos node.refCount
        rw [if_pos hpos]
        change (if node.refCount + 1 = 1 then node.reclaimCount + 1 else node.reclaimCount) = _
        rcases Nat.eq_zero_or_pos node.refCount with hzero | hpos
        · rw [if_pos (by omega), hcount, if_neg (by omega)]
        · rw [if_neg (by omega), hcount, if_pos hpos]
  · apply goes_bind_same (x := lookupSfsNolock ino) hmissed
    cases reply.memory with
    | true =>
        apply goes_return h hin hpending (.loadRead ino) rfl rfl
        intro n node hnode hino
        exact hnone n ((h.tables.hash _ _).mpr ⟨node, hnode, by rw [hino]⟩) node hnode hino
    | false => exact goes_unlock_fail h hin hpending .eNoMem

theorem goes_sfsLoadCreate (h : Sound s) {ino : Nat} (reply : Reply)
    (hpc : s.pc i = .loadRead ino) (hexpects : reply.ret = .ok () → reply.nlinks ≠ 0) :
    Goes Sound .idle s i (sfsLoadCreate ino reply) := by
  have hin : inside (s.pc i) = true := by rw [hpc, inside]
  have hpending : pendingOn (s.pc i) = none := by
    rw [hpc]
    rfl
  have hsame : pendingOn .idle = pendingOn (s.pc i) := hpending.symm
  have hnew := h.work i
  rw [hpc] at hnew
  rw [sfsLoadCreate]
  cases hret : reply.ret with
  | error e => exact goes_unlock_fail h hin hpending e
  | ok _ =>
      apply goes_ensure (hexpects hret)
      cases reply.memory with
      | false => exact goes_unlock_fail h hin hpending .eNoMem
      | true =>
          refine ⟨.ok .idle, loaded s.shared ino reply.nlinks, ?_, ?_⟩
          · let node : Inode := {
              ino := ino
              nlinks := reply.nlinks
              dirty := false
              sem := 1
              refCount := 1
              reclaimCount := 1 }
            let t : SfsState := { s.shared.setNode s.shared.created node with
              created := s.shared.created + 1 }
            have hcreate : sfsCreateInode ino reply.nlinks s.shared =
                .ok (.ok s.shared.created, t) := rfl
            have hnode : t.nodes s.shared.created = some node := setNode_self s.shared _ node
            have hlink : sfsSetLinks s.shared.created t = .ok (.ok (), { t with
                inodeList := s.shared.created :: s.shared.inodeList
                hashList := Function.update s.shared.hashList (sinHashfn ino)
                  (s.shared.created :: s.shared.hashList (sinHashfn ino)) }) := by
              rw [sfsSetLinks, bind_of_ok (getNode_of hnode)]
              rfl
            rw [if_pos rfl, bind_of_ok hcreate, bind_of_ok hlink]
            rfl
          · apply h.move (loaded s.shared ino reply.nlinks) .idle
            · rw [if_pos hin]
              rfl
            · intro m v hv
              rw [pending_update_same hsame]
              rcases (loaded_nodes h.tables).mp hv with hv | ⟨rfl, rfl⟩
              · exact h.counts m v hv
              · rw [h.pendings _ h.tables.fresh]
                rfl
            · intro m hnone
              rw [pending_update_same hsame]
              apply h.pendings
              by_contra hsome
              obtain ⟨v, hv⟩ := Option.ne_none_iff_exists'.mp hsome
              rw [(loaded_nodes h.tables).mpr (Or.inl hv)] at hnone
              cases hnone
            · exact fun j hne => holding_of_outside _ (h.outside hin hne)
            · exact trivial
            · exact h.tables.loaded reply.nlinks hnew

theorem goes_sfsSyncWritten (h : Sound s) (next : Pc) (reply : Reply)
    (hout : inside (s.pc i) = false) (hpending : pendingOn (s.pc i) = none)
    (hnext : inside next = false) (hnextPending : pendingOn next = none) :
    Goes Sound .idle s i (sfsSyncWritten next reply) := by
  have hmoves : ∀ (d : Bool) (x : Pc), inside x = false → pendingOn x = none →
      Sound { shared := { s.shared with superDirty := d }, pc := Function.update s.pc i x } := by
    intro d x hx hxpending
    apply h.goOn s.shared.fsSem d x ?_ (by rw [hxpending, hpending]) (holding_of_outside _ hx)
    rw [hx, hout]
  rw [sfsSyncWritten]
  cases reply.ret with
  | error e => exact ⟨.error e, { s.shared with superDirty := true }, rfl, hmoves true .idle rfl rfl⟩
  | ok _ => exact goes_pure (hmoves s.shared.superDirty next hnext hnextPending)

/-- A process that is in no call changes an inode that somebody has a reference to. -/
theorem Sound.setNode_idle (h : Sound s) (hidle : s.pc i = .idle) {n : Nat} {node : Inode}
    (node' : Inode) (x : Pc) (hnode : s.shared.nodes n = some node) (href : 0 < node.refCount)
    (hino : node'.ino = node.ino) (hx : x = .idle ∨ x = .reclaimDown n)
    (hcount : node'.reclaimCount =
      pending n (Function.update s.pc i x) + if 0 < node'.refCount then 1 else 0) :
    Sound { shared := s.shared.setNode n node', pc := Function.update s.pc i x } := by
  apply h.setNode node' s.shared.fsSem x hnode hino ?_ ?_ ?_ hcount ?_ ?_
  · rw [hidle]
    rcases hx with rfl | rfl
    · rfl
    · rfl
  · rw [hidle]
    exact Or.inl rfl
  · rcases hx with rfl | rfl
    · exact Or.inl rfl
    · exact Or.inr rfl
  · exact Or.inr fun hzero => by omega
  · rcases hx with rfl | rfl
    · exact trivial
    · exact trivial

theorem goes_start (h : Sound s) (hidle : s.pc i = .idle) (call : Call)
    (hallowed : call.Allowed s.shared) : Goes Sound .idle s i (start call) := by
  have hsame : pendingOn .idle = pendingOn (s.pc i) := by rw [hidle]
  have hbegin : ∀ x, inside x = false → pendingOn x = none → Goes Sound .idle s i (return x) := by
    intro x hx hpending
    apply goes_pure
    apply h.goOn s.shared.fsSem s.shared.superDirty x ?_ ?_ (holding_of_outside _ hx)
    · rw [hx, hidle]
      rfl
    · rw [hpending, ← hsame]
      rfl
  cases call with
  | load ino => exact hbegin (.loadDown ino) rfl rfl
  | sync => exact hbegin .syncDown rfl rfl
  | refInc n =>
      obtain ⟨node, hnode, href⟩ := hallowed
      let node' : Inode := { node with refCount := node.refCount + 1 }
      refine ⟨.ok .idle, s.shared.setNode n node', ?_, ?_⟩
      · rw [start, bind_of_ok (inodeRefInc_of hnode)]
        rfl
      · apply h.setNode_idle hidle node' .idle hnode href rfl (Or.inl rfl)
        have hcount := h.counts n node hnode
        have hpos : 0 < node'.refCount := Nat.succ_pos node.refCount
        rw [pending_update_same hsame, if_pos hpos]
        rwa [if_pos href] at hcount
  | refDec n =>
      obtain ⟨node, hnode, href⟩ := hallowed
      have hcount := h.counts n node hnode
      rw [if_pos href] at hcount
      let node' : Inode := { node with refCount := node.refCount - 1 }
      apply goes_bind_same (getNode_of hnode)
      apply goes_ensure href
      rcases Decidable.em (node.refCount - 1 = 0) with hlast | hmore
      · refine ⟨.ok (.reclaimDown n), s.shared.setNode n node', ?_, ?_⟩
        · rw [bind_of_ok (modifyNode_of _ hnode), if_pos hlast]
          rfl
        · apply h.setNode_idle hidle node' (.reclaimDown n) hnode href rfl (Or.inr rfl)
          have hmove := pending_update n s.pc i (.reclaimDown n)
          rw [hidle, if_neg (by simp [pendingOn]), if_pos (by simp [pendingOn])] at hmove
          have hzero : ¬0 < node'.refCount := Nat.not_lt.mpr hlast.le
          rw [if_neg hzero]
          change node.reclaimCount = _
          omega
      · refine ⟨.ok .idle, s.shared.setNode n node', ?_, ?_⟩
        · rw [bind_of_ok (modifyNode_of _ hnode), if_neg hmore]
          rfl
        · apply h.setNode_idle hidle node' .idle hnode href rfl (Or.inl rfl)
          have hpos : 0 < node'.refCount := Nat.pos_of_ne_zero hmore
          rw [pending_update_same hsame, if_pos hpos]
          exact hcount
  | touch n dirty nlinks =>
      obtain ⟨node, hnode, href⟩ := hallowed
      let node' : Inode := { node with dirty := dirty, nlinks := nlinks }
      refine ⟨.ok .idle, s.shared.setNode n node', ?_, ?_⟩
      · rw [start, bind_of_ok (modifyNode_of _ hnode)]
        rfl
      · apply h.setNode_idle hidle node' .idle hnode href rfl (Or.inl rfl)
        rw [pending_update_same hsame]
        exact h.counts n node hnode

theorem goes_resume (h : Sound s) (reply : Reply) (hexpects : (s.pc i).Expects reply) :
    Goes Sound .idle s i (resume reply (s.pc i)) := by
  have hstay : Goes Sound .idle s i (return s.pc i) := by
    apply goes_pure
    rwa [Function.update_eq_self]
  cases hpc : s.pc i with
  | loadLocked ino => exact goes_sfsLoadInode h reply hpc
  | loadRead ino =>
      rw [hpc] at hexpects
      exact goes_sfsLoadCreate h reply hpc hexpects
  | reclaimLocked n => exact goes_sfsReclaim h hpc
  | reclaimTruncate n => exact goes_sfsReclaimTruncated h reply hpc
  | syncLocked =>
      apply goes_getState
      apply goes_sfsSyncFrom h
      · rw [hpc]
        rfl
      · rw [hpc]
        rfl
      · exact fun n => (h.tables.mem n).mp
  | fsyncLocked n caller => exact goes_sfsFsync h hpc
  | fsyncWrite n caller => exact goes_sfsFsynced h reply hpc
  | syncSuper =>
      apply goes_sfsSyncWritten h .syncFreemap reply ?_ ?_ rfl rfl
      · rw [hpc]
        rfl
      · rw [hpc]
        rfl
  | syncFreemap =>
      apply goes_sfsSyncWritten h .idle reply ?_ ?_ rfl rfl
      · rw [hpc]
        rfl
      · rw [hpc]
        rfl
  | _ =>
      rw [hpc] at hstay
      exact hstay

end Segments

section Runs

theorem sound_lockSfsFs (h : Sound s) {x : Pc} (hx : lockSfsFs (s.pc i) = some x)
    (hfree : 0 < s.shared.fsSem) :
    Sound { shared := { s.shared with fsSem := s.shared.fsSem - 1 }
            pc := Function.update s.pc i x } := by
  have henter : inside (s.pc i) = false → inside x = true → pendingOn x = pendingOn (s.pc i) →
      Holding s.shared x → Sound { shared := { s.shared with fsSem := s.shared.fsSem - 1 }
                                   pc := Function.update s.pc i x } := by
    intro hout hin hpending hwork
    apply h.goOn (s.shared.fsSem - 1) s.shared.superDirty x ?_ hpending hwork
    rw [hout, hin]
    simp only [if_true, reduceCtorEq, if_false]
    omega
  cases hpc : s.pc i with
  | loadDown ino =>
      rw [hpc] at hx henter
      cases hx
      exact henter rfl rfl rfl trivial
  | reclaimDown n =>
      rw [hpc] at hx henter
      cases hx
      exact henter rfl rfl rfl trivial
  | syncDown =>
      rw [hpc] at hx henter
      cases hx
      exact henter rfl rfl rfl trivial
  | _ =>
      rw [hpc] at hx
      cases hx

theorem sound_lockSin (h : Sound s) {n : Nat} {caller : Caller} {node : Inode}
    (hpc : s.pc i = .fsyncDown n caller) (hnode : s.shared.nodes n = some node) :
    Sound { shared := s.shared.setNode n { node with sem := node.sem - 1 }
            pc := Function.update s.pc i (.fsyncLocked n caller) } := by
  have hin : inside (s.pc i) = true := by rw [hpc, inside]
  have hpending : pendingOn (s.pc i) = none := by
    rw [hpc]
    rfl
  have hsynced := h.work i
  rw [hpc] at hsynced
  let node' : Inode := { node with sem := node.sem - 1 }
  have hwork : Holding (s.shared.setNode n node') (.fsyncLocked n caller) :=
    holding_setNode node' hnode rfl (fun hr hc => ⟨hr, hc⟩) hsynced
  apply h.setNode node' s.shared.fsSem (.fsyncLocked n caller) hnode rfl ?_ (Or.inl hpending)
    (Or.inl rfl) ?_ (Or.inl hin) hwork
  · rw [if_pos hin]
    rfl
  · have hsame : pendingOn (.fsyncLocked n caller) = pendingOn (s.pc i) := hpending.symm
    rw [pending_update_same hsame]
    exact h.counts n node hnode

theorem sound_step {s s' : System ι} (h : Sound s) (hstep : Step s s') : Sound s' := by
  cases hstep with
  | start hidle hallowed hrun => exact (goes_start h hidle _ hallowed).inv_of_eq hrun
  | lockSfsFs hx hfree => exact sound_lockSfsFs h hx hfree
  | lockSin hpc hnode _ => exact sound_lockSin h hpc hnode
  | resume hexpects hrun => exact (goes_resume h _ hexpects).inv_of_eq hrun

omit [DecidableEq ι] in
theorem sound_initial : Sound (initial ι) where
  lock := by
    have hzero : tally inside (initial ι).pc = 0 := tally_eq_zero fun _ => rfl
    rw [hzero]
    rfl
  counts n node hnode := by cases hnode
  pendings n _ := tally_eq_zero fun _ => rfl
  work i := trivial
  tables :=
    { mem := fun n => ⟨fun hn => absurd hn List.not_mem_nil, fun ⟨_, hnode⟩ => by cases hnode⟩
      nodup := List.nodup_nil
      hash := fun k n => ⟨fun hn => absurd hn List.not_mem_nil, fun ⟨_, hnode, _⟩ => by cases hnode⟩
      hashNodup := fun _ => List.nodup_nil
      unique := fun _ _ _ _ hnode => by cases hnode
      created := fun _ _ hnode => by cases hnode
      killed := fun _ _ hn => absurd hn List.not_mem_nil
      killedOnce := List.nodup_nil
      accounted := fun _ hlt => absurd hlt (Nat.not_lt_zero _) }

/-- What holds of the inodes in memory, and of the code that a process runs next. -/
structure CacheOk (s : System ι) : Prop where
  counts : ∀ n node, s.shared.nodes n = some node →
    node.reclaimCount = pending n s.pc + if 0 < node.refCount then 1 else 0
  pendings : ∀ n, 0 < pending n s.pc → ∃ node, s.shared.nodes n = some node
  killedOnce : (s.shared.killed.map Prod.fst).Nodup
  killed : ∀ n refCount, (n, refCount) ∈ s.shared.killed →
    refCount = 0 ∧ pending n s.pc = 0 ∧ s.shared.nodes n = none
  alive : ∀ n, n < s.shared.created → n ∉ s.shared.killed.map Prod.fst →
    ∃ node, s.shared.nodes n = some node
  hashed : ∀ k n, n ∈ s.shared.hashList k →
    ∃ node, s.shared.nodes n = some node ∧ sinHashfn node.ino = k
  cached : ∀ n node, s.shared.nodes n = some node → n ∈ s.shared.hashList (sinHashfn node.ino)
  unique : ∀ n m node node', s.shared.nodes n = some node → s.shared.nodes m = some node' →
    node.ino = node'.ino → n = m
  starts : ∀ i call, s.pc i = .idle → call.Allowed s.shared →
    ∃ r t, start call s.shared = .ok (r, t)
  resumes : ∀ i reply, (s.pc i).Expects reply → ∃ r t, resume reply (s.pc i) s.shared = .ok (r, t)

theorem Sound.cacheOk (h : Sound s) : CacheOk s where
  counts := h.counts
  pendings n hpos := by
    by_contra hnone
    rw [← Option.ne_none_iff_exists', not_not] at hnone
    have hzero := h.pendings n hnone
    omega
  killedOnce := h.tables.killedOnce
  killed n r hmem := by
    obtain ⟨hnone, _, hr⟩ := h.tables.killed n r hmem
    exact ⟨hr, h.pendings n hnone, hnone⟩
  alive n hlt hnot := by
    by_contra hnone
    rw [← Option.ne_none_iff_exists', not_not] at hnone
    exact hnot (h.tables.accounted n hlt hnone)
  hashed k n := (h.tables.hash k n).mp
  cached n node hnode := (h.tables.hash _ n).mpr ⟨node, hnode, rfl⟩
  unique := h.tables.unique
  starts i call hidle hallowed := by
    obtain ⟨r, t, hrun, _⟩ := goes_start h hidle call hallowed
    exact ⟨r, t, hrun⟩
  resumes i reply hexpects := by
    obtain ⟨r, t, hrun, _⟩ := goes_resume h reply hexpects
    exact ⟨r, t, hrun⟩

theorem cacheOk_of_reaches {s : System ι} (hrun : ReflTransGen Step (initial ι) s) :
    CacheOk s := by
  have hsound : Sound s := @holds_of_reaches _ Step Sound _ _ sound_step sound_initial hrun
  exact hsound.cacheOk

/-- A process looks an inode up that another one is about to reclaim. -/
theorem cacheOk_of_reaches_reclaiming : ∃ s : System (Fin 2), CacheOk s ∧
    s.pc 0 = .reclaimDown 0 ∧ s.pc 1 = .loadLocked 1 ∧
      (s.shared.nodes 0).map (fun node => node.reclaimCount) = some 1 := by
  have hrun : ∃ s : System (Fin 2), ReflTransGen Step (initial (Fin 2)) s ∧
      s.pc 0 = .reclaimDown 0 ∧ s.pc 1 = .loadLocked 1 ∧
        (s.shared.nodes 0).map (fun node => node.reclaimCount) = some 1 := by
    let reply : Reply := ⟨.ok (), 1, false, true⟩
    have hload := ReflTransGen.tail ReflTransGen.refl
      (@Step.start _ _ (initial (Fin 2)) 0 (.load 1) _ _ rfl trivial rfl)
    have hread := (hload.tail (@Step.lockSfsFs _ _ _ 0 _ rfl Nat.one_pos)).tail
      (@Step.resume _ _ _ 0 reply _ _ trivial rfl)
    have hloaded := hread.tail (@Step.resume _ _ _ 0 reply _ _ (fun _ => one_ne_zero) rfl)
    have hdropped := hloaded.tail
      (@Step.start _ _ _ 0 (.refDec 0) _ _ rfl ⟨_, rfl, Nat.one_pos⟩ rfl)
    have hagain := (hdropped.tail (@Step.start _ _ _ 1 (.load 1) _ _ rfl trivial rfl)).tail
      (@Step.lockSfsFs _ _ _ 1 _ rfl Nat.one_pos)
    exact ⟨_, hagain, rfl, rfl, rfl⟩
  obtain ⟨s, hreaches, hstate⟩ := hrun
  exact ⟨s, cacheOk_of_reaches hreaches, hstate⟩

end Runs

end Ucore.SfsInodeCacheRuns
