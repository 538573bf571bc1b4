import Mathlib.Algebra.Group.Pi.Lemmas
import Ucore.SfsSettled
import Ucore.Triples
import Ucore.VfsFiles

/-! References to inodes, and the operations that take and drop them. -/

namespace Ucore.VfsReferences

open Ucore.Errors
open Ucore.KernelRoutine
open Ucore.Triples
open Ucore.SfsDisk
open Ucore.SfsOwnership
open Ucore.SfsRuns
open Ucore.SfsSettled
open Ucore.VfsFiles

/-- The files are those of `sfs₀`, at least `need n` references to the inode
`n` are counted, and every inode that is referred to is in memory. The rest of
the state is that of `t`. -/
structure Calm (usage : Usage) (sfs₀ : SfsFs) (t : VfsState) (need : Nat → Int) (s : VfsState) :
    Prop where
  settled : Settled usage s.sfs
  kept : AllKept usage sfs₀ s.sfs
  held : ∀ n, need n ≤ (s.counts n).refCount
  cached : ∀ n, 0 < (s.counts n).refCount → n ∈ s.sfs.inodeList
  fdArray : s.fdArray = t.fdArray
  pwd : s.pwd = t.pwd
  bootfs : s.bootfs = t.bootfs

variable {usage : Usage} {sfs₀ : SfsFs} {t s : VfsState} {need : Nat → Int} {n : Nat}

theorem Calm.loaded (h : Calm usage sfs₀ t need s) (hneed : 0 < need n) :
    n ∈ s.sfs.inodeList := by
  have hheld := h.held n
  exact h.cached n (by omega)

theorem Calm.inode (h : Calm usage sfs₀ t need s) (hin : n ∈ s.sfs.inodeList) :
    (s.sfs.inode n).din = dinOf sfs₀ n := by
  rw [← dinOf_loaded hin]
  exact (h.kept n (h.settled.wf.loaded n hin)).din

theorem Calm.setCounts (h : Calm usage sfs₀ t need s) {need' : Nat → Int} {c : InodeCounts}
    (hself : need' n ≤ c.refCount) (hother : ∀ k, k ≠ n → need' k = need k)
    (hcached : 0 < c.refCount → n ∈ s.sfs.inodeList) :
    Calm usage sfs₀ t need' (s.setCounts n c) where
  settled := h.settled
  kept := h.kept
  held k := by
    change need' k ≤ (Function.update s.counts n c k).refCount
    rcases eq_or_ne k n with rfl | hne
    · rwa [Function.update_self]
    · rw [Function.update_of_ne hne, hother k hne]
      exact h.held k
  cached k := by
    change 0 < (Function.update s.counts n c k).refCount → k ∈ s.sfs.inodeList
    rcases eq_or_ne k n with rfl | hne
    · rwa [Function.update_self]
    · rw [Function.update_of_ne hne]
      exact h.cached k
  fdArray := h.fdArray
  pwd := h.pwd
  bootfs := h.bootfs

theorem Calm.taken (h : Calm usage sfs₀ t need s) {c : InodeCounts}
    (href : c.refCount = (s.counts n).refCount + 1) (hin : n ∈ s.sfs.inodeList) :
    Calm usage sfs₀ t (need + Pi.single n 1) (s.setCounts n c) := by
  have hheld := h.held n
  apply h.setCounts
  · rw [Pi.add_apply, Pi.single_eq_same, href]
    push_cast
    omega
  · intro k hne
    rw [Pi.add_apply, Pi.single_eq_of_ne hne, add_zero]
  · exact fun _ => hin

theorem Calm.dropped (h : Calm usage sfs₀ t need s) {c : InodeCounts}
    (href : c.refCount + 1 = (s.counts n).refCount) :
    Calm usage sfs₀ t (need - Pi.single n 1) (s.setCounts n c) := by
  have hheld := h.held n
  apply h.setCounts
  · rw [Pi.sub_apply, Pi.single_eq_same]
    omega
  · intro k hne
    rw [Pi.sub_apply, Pi.single_eq_of_ne hne, sub_zero]
  · exact fun _ => h.cached n (by omega)

theorem Calm.less (h : Calm usage sfs₀ t (need + Pi.single n 1) s) : Calm usage sfs₀ t need s where
  settled := h.settled
  kept := h.kept
  held k := by
    have hheld := h.held k
    rw [Pi.add_apply] at hheld
    have hsingle : 0 ≤ (Pi.single n 1 : Nat → Int) k := by
      rw [Pi.single_apply]
      split
      · decide
      · decide
    omega
  cached := h.cached
  fdArray := h.fdArray
  pwd := h.pwd
  bootfs := h.bootfs

section Routines

theorem triple_onSfs {α : Type} {x : Routine SfsFs α} {P : VfsState → Prop}
    {Q : α → VfsState → Prop} {E : VfsState → Prop}
    (h : ∀ s r sfs, P s → x s.sfs = .ok (r, sfs) → Post Q E (r, { s with sfs := sfs })) :
    Triple P (onSfs x) Q E := by
  rintro s r hs heq
  rw [onSfs] at heq
  split at heq
  · cases heq
  · next r' sfs hrun =>
    cases heq
    exact h s r' sfs hs hrun

theorem triple_inodeCheck {P E : VfsState → Prop} : Triple P (inodeCheck n) (fun _ => P) E := by
  apply Triple.getState
  intro s hs
  apply Triple.of_eq hs
  exact Triple.ensure fun _ h => h

end Routines

end Ucore.VfsReferences
