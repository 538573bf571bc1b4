import Ucore.StableResources

/-! Whose the tables of open files are, and which of them stay for ever. -/

namespace Ucore.OpenFileOwners

open Relation
open Ucore.Interleaving
open Ucore.ReferenceCounts
open Ucore.ProcessResources
open Ucore.ResourceInvariant
open Ucore.ResourceRuns
open Ucore.StableResources

variable {ι : Type} [Fintype ι] [DecidableEq ι] {s s' t : System ι} {i : ι} {f k : Nat}
  {idleproc initproc : ι}

/-- Who refers to a `files_struct` and has not given it back. -/
def referrers (s : Machine ι) (f : Nat) : Finset ι :=
  Finset.univ.filter fun p => filesUser (s.proc p) = some f

/-- The process is in `files_destroy`. -/
def Destroys (s : System ι) (p : ι) (f : Nat) : Prop :=
  ∃ rest next, (s.pc p).place = .destroying f rest next

/-- Whose a `files_struct` is. -/
structure Owned (s : System ι) (f : Nat) : Prop where
  count : (s.shared.files f).live = true →
    (s.shared.files f).filesCount = (referrers s.shared f).card + (s.shared.files f).kept
  live : (s.shared.files f).live = true ↔ (referrers s.shared f).Nonempty ∨
    (∃ p, Destroys s p f) ∨ (s.shared.files f).kept ≠ 0
  destroyed : ∀ p, Destroys s p f → referrers s.shared f = ∅ ∧ (s.shared.files f).kept = 0 ∧
    ∀ q, Destroys s q f → q = p
  closed : (s.shared.files f).live = false →
    (∀ fd, ((s.shared.files f).table.fdArray fd).status = .fdNone) ∧
      (s.shared.files f).table.closed.Perm (List.range (s.shared.files f).table.opens)

section Owners

omit [Fintype ι] [DecidableEq ι] in
theorem destroys_iff {p : ι} :
    Destroys s p f ↔ (handsAt (s.pc p).place).destroys = some f := by
  rw [Destroys]
  cases (s.pc p).place with
  | destroying f' rest next =>
      cases next with
      | exit => simp [handsAt]
      | undo child => simp [handsAt]
  | _ => simp [handsAt, Hands.empty]

omit [DecidableEq ι] in
theorem mem_referrers {s : Machine ι} {p : ι} :
    p ∈ referrers s f ↔ filesUser (s.proc p) = some f := by
  simp [referrers]

/-- In every state of every run, a `files_struct` lives as long as someone refers to it, destroys
it, or has exited with it. When it dies, each file opened through it is closed exactly once. -/
theorem owned (h : Sound s) (f : Nat) : Owned s f := by
  have hcounts := h.tables.counted f
  have hcount : (s.shared.files f).live = true →
      (s.shared.files f).filesCount = (referrers s.shared f).card + (s.shared.files f).kept := by
    intro hlive
    have hcount : (s.shared.files f).filesCount =
        (tally (uses f) fun p => filesUser (s.shared.proc p)) + (s.shared.files f).kept :=
      hcounts.count hlive
    rw [hcount, tally_eq_card]
    rfl
  exact
    { count := hcount
      live := by
        constructor
        · intro hlive
          rcases hcounts.wanted hlive with hpos | ⟨p, hp⟩
          · have hpos : 0 < (s.shared.files f).filesCount := hpos
            rw [hcount hlive] at hpos
            rcases Nat.eq_zero_or_pos (referrers s.shared f).card with hnone | hsome
            · rw [hnone] at hpos
              exact Or.inr (Or.inr (by omega))
            · exact Or.inl (Finset.card_pos.mp hsome)
          · exact Or.inr (Or.inl ⟨p, destroys_iff.mpr hp⟩)
        · rintro (⟨p, hp⟩ | ⟨p, hp⟩ | hkept)
          · exact hcounts.used p (mem_referrers.mp hp)
          · exact (hcounts.held p (destroys_iff.mp hp)).1
          · exact hcounts.lasts hkept
      destroyed := by
        intro p hp
        have hheld := destroys_iff.mp hp
        refine ⟨?_, hcounts.kept_zero hheld, fun q hq => hcounts.sole q p (destroys_iff.mp hq) hheld⟩
        apply Finset.eq_empty_of_forall_notMem
        intro q hq
        exact hcounts.unused hheld q (mem_referrers.mp hq)
      closed := by
        intro hdead
        have hnone := h.tables.dead f hdead
        refine ⟨hnone, FdTableFrames.closed_perm (h.tables.sound f) hnone ?_⟩
        intro p
        apply if_neg
        intro htable
        have hlive := h.tables.live_of_table htable
        rw [hdead] at hlive
        cases hlive }

end Owners

section Leaks

/-- At least so many processes have exited with a `files_struct`. -/
def Kept (f k : Nat) (s : Machine ι) : Prop :=
  (s.files f).live = true ∧ k ≤ (s.files f).kept

omit [Fintype ι] in
theorem stable_kept (i : ι) (f k : Nat) : Stable i (Kept f k) where
  mm _ _ _ hs := hs
  page _ _ _ hs := hs
  other _ _ _ _ hs := hs
  proc _ _ _ _ hs := hs
  boot _ hs := hs
  switch _ _ hs := hs
  files s f' v hv hs := by
    rcases eq_or_ne f' f with rfl | hne
    · obtain ⟨hlive, hkept⟩ := hv hs.1
      have hself : (s.setFiles f' v).files f' = v := Function.update_self ..
      rw [Kept, hself]
      exact ⟨hlive, hs.2.trans hkept⟩
    · have hother : (s.setFiles f' v).files f = s.files f := Function.update_of_ne hne.symm ..
      rw [Kept, hother]
      exact hs

theorem kept_step (h : Sound s) (hk : 0 < k) (hs : Kept f k s.shared) (hstep : Step s s') :
    Kept f k s'.shared := by
  have hdestroy : ∀ f' rest next, (s.pc s.shared.current).place = .destroying f' rest next →
      ∀ t : Machine ι, Kept f k t → Kept f k (t.setFiles f' { t.files f' with live := false }) := by
    intro f' rest next hplace t ht
    have hne : f ≠ f' := by
      rintro rfl
      have hzero := ((owned h f).destroyed s.shared.current ⟨rest, next, hplace⟩).2.1
      have hkept := hs.2
      omega
    have hother : (t.setFiles f' { t.files f' with live := false }).files f = t.files f :=
      Function.update_of_ne hne ..
    rw [Kept, hother]
    exact ht
  rcases stable_step h (stable_kept _ f k) hdestroy hs hstep with ⟨next, hnext⟩ | hs'
  · rw [hnext]
    exact hs
  · exact hs'

theorem kept_of_reaches (h : Sound s) (hk : (s.shared.files f).kept ≠ 0)
    (hrun : ReflTransGen Step s t) : Sound t ∧ Kept f (s.shared.files f).kept t.shared := by
  induction hrun with
  | refl => exact ⟨h, (owned h f).live.mpr (Or.inr (Or.inr hk)), le_refl _⟩
  | tail _ hstep ih =>
      exact ⟨sound_step ih.1 hstep, kept_step ih.1 (Nat.pos_of_ne_zero hk) ih.2 hstep⟩

/-- A `files_struct` is given back exactly once all who referred to it have given it back: it is
lost for good as soon as one process exits with it. -/
theorem files_struct_owned (hne : initproc ≠ idleproc)
    (hrun : ReflTransGen Step (initial idleproc initproc) s) (f : Nat) :
    Owned s f ∧ ((s.shared.files f).kept ≠ 0 → ∀ t, ReflTransGen Step s t →
      (t.shared.files f).live = true ∧ (s.shared.files f).kept ≤ (t.shared.files f).kept) := by
  have h := sound_of_reaches hne hrun
  refine ⟨owned h f, ?_⟩
  intro hk t ht
  exact (kept_of_reaches h hk ht).2

/-- A kernel thread has no address space, and exits with its `files_struct`. -/
def threadMoves : List (Move (Fin 3)) :=
  [.start (.fork (Fin.last 2) false false (some 7) none none), .run (Fin.last 2), .start .exit]

theorem files_lost : ∃ s : System (Fin 3), ReflTransGen Step (initial 0 1) s ∧
    referrers s.shared 7 = ∅ ∧ ∀ t, ReflTransGen Step s t → (t.shared.files 7).live = true := by
  obtain ⟨s, hrun, hend⟩ := @exists_of_play _ _ (initial 0 1) threadMoves
    (fun s => (s.shared.files 7).kept = 1 ∧ referrers s.shared 7 = ∅) (by decide +kernel)
  obtain ⟨hkept, hnone⟩ := of_decide_eq_true hend
  have hk : (s.shared.files 7).kept ≠ 0 := by omega
  exact ⟨s, hrun, hnone, fun t ht => ((files_struct_owned (by decide) hrun 7).2 hk t ht).1⟩

end Leaks

end Ucore.OpenFileOwners
