import Ucore.StableResources

/-! Whose the address spaces are, and which page directory is in use. -/

namespace Ucore.AddressSpaceOwners

open Relation
open Ucore.Interleaving
open Ucore.ReferenceCounts
open Ucore.ProcessResources
open Ucore.ResourceInvariant
open Ucore.ResourceSteps
open Ucore.ResourceRuns
open Ucore.StableResources

variable {ι : Type} [DecidableEq ι]

section Register

/-- The register is what the process switched to last: its `cr3`, or `boot_cr3`. -/
def Switched (i : ι) (s : Machine ι) : Prop :=
  s.current = i ∧ (s.cr3 = none ∨ s.cr3 = (s.proc i).cr3)

theorem stable_switched (i : ι) : Stable i (Switched i) where
  mm _ _ _ hs := hs
  page _ _ _ hs := hs
  other s p v hne hs := by
    refine ⟨hs.1, ?_⟩
    change s.cr3 = none ∨ s.cr3 = (Function.update s.proc p v i).cr3
    rw [Function.update_of_ne hne.symm]
    exact hs.2
  proc s p v hv hs := by
    refine ⟨hs.1, ?_⟩
    change s.cr3 = none ∨ s.cr3 = (Function.update s.proc p v i).cr3
    rcases eq_or_ne i p with rfl | hne
    · rw [Function.update_self, hv]
      exact hs.2
    · rw [Function.update_of_ne hne]
      exact hs.2
  boot _ hs := ⟨hs.1, Or.inl rfl⟩
  switch s v hs := by
    refine ⟨hs.1, Or.inr ?_⟩
    change v.cr3 = (Function.update s.proc i v i).cr3
    rw [Function.update_self]
  files _ _ _ _ hs := hs

end Register

section Runs

variable [Fintype ι] {s s' : System ι} {i : ι} {idleproc initproc : ι}

theorem switched_step (h : Sound s) (hs : Switched s.shared.current s.shared)
    (hstep : Step s s') : Switched s'.shared.current s'.shared := by
  rcases stable_step h (stable_switched _) (fun _ _ _ _ _ ht => ht) hs hstep with
    ⟨next, hnext⟩ | hs'
  · rw [hnext]
    exact ⟨rfl, Or.inr rfl⟩
  · rw [hs'.1]
    exact hs'

theorem switched_of_reaches (hne : initproc ≠ idleproc)
    (hrun : ReflTransGen Step (initial idleproc initproc) s) :
    Switched s.shared.current s.shared := by
  induction hrun with
  | refl => exact ⟨rfl, Or.inl rfl⟩
  | tail hrun hstep ih => exact switched_step (sound_of_reaches hne hrun) ih hstep

/-- Who uses an address space. -/
def users (s : Machine ι) (m : Nat) : Finset ι :=
  Finset.univ.filter fun p => (s.proc p).mm = some m

/-- The process has created an address space in `copy_mm` or `load_icode`, and no process uses it
yet. -/
def Builds (s : System ι) (p : ι) (m : Nat) : Prop :=
  (∃ child, (s.pc p).place = .forking child m) ∨
    (∃ fd loading, (s.pc p).place = .execLoading fd m loading) ∨ (s.pc p).place = .execMapping m

/-- Whose an address space is. -/
structure Owned (s : System ι) (m : Nat) : Prop where
  count : (s.shared.mm m).live = true → (s.shared.mm m).mmCount = (users s.shared m).card
  live : (s.shared.mm m).live = true ↔ (users s.shared m).Nonempty ∨ ∃ p, Builds s p m
  built : ∀ p, Builds s p m → users s.shared m = ∅ ∧ ∀ q, Builds s q m → q = p
  used : ∀ p ∈ users s.shared m, (s.shared.proc p).stage = .alive ∧
    (s.shared.proc p).cr3 = some (s.shared.mm m).pgdir
  page : (s.shared.mm m).live = true → s.shared.pages (s.shared.mm m).pgdir = true ∧
    ∀ m', (s.shared.mm m').live = true → (s.shared.mm m').pgdir = (s.shared.mm m).pgdir → m' = m

omit [DecidableEq ι] [Fintype ι] in
theorem builds_iff {p : ι} {m : Nat} :
    Builds s p m ↔ (handsAt (s.pc p).place).builds = some m := by
  rw [Builds]
  cases (s.pc p).place with
  | forking child m' => simp [handsAt]
  | execLoading fd m' loading => simp [handsAt]
  | execMapping m' => simp [handsAt]
  | destroying f rest next => cases next <;> simp [handsAt]
  | _ => simp [handsAt, Hands.empty]

omit [DecidableEq ι] in
theorem mem_users {s : Machine ι} {m : Nat} {p : ι} : p ∈ users s m ↔ (s.proc p).mm = some m := by
  simp [users]

/-- In every state of every run, an address space lives as long as it has users or is being built,
counts its users, and has a page directory of its own. -/
theorem address_space_owned (hne : initproc ≠ idleproc)
    (hrun : ReflTransGen Step (initial idleproc initproc) s) (m : Nat) : Owned s m := by
  have h := sound_of_reaches hne hrun
  have hcounts := h.spaces.counted m
  have hcount : (s.shared.mm m).live = true →
      (s.shared.mm m).mmCount = (users s.shared m).card := by
    intro hlive
    have hcount : (s.shared.mm m).mmCount =
        (tally (uses m) fun p => (s.shared.proc p).mm) + 0 := hcounts.count hlive
    rw [hcount, tally_eq_card, add_zero]
    rfl
  exact
    { count := hcount
      live := by
        constructor
        · intro hlive
          rcases hcounts.wanted hlive with hpos | ⟨p, hp⟩
          · apply Or.inl
            rw [← Finset.card_pos]
            have hpos : 0 < (s.shared.mm m).mmCount := hpos
            rw [hcount hlive] at hpos
            exact Int.natCast_pos.mp hpos
          · exact Or.inr ⟨p, builds_iff.mpr hp⟩
        · rintro (⟨p, hp⟩ | ⟨p, hp⟩)
          · exact hcounts.used p (mem_users.mp hp)
          · exact (hcounts.held p (builds_iff.mp hp)).1
      built := by
        intro p hp
        have hheld := builds_iff.mp hp
        refine ⟨?_, fun q hq => hcounts.sole q p (builds_iff.mp hq) hheld⟩
        apply Finset.eq_empty_of_forall_notMem
        intro q hq
        exact hcounts.unused hheld q (mem_users.mp hq)
      used := by
        intro p hp
        have hmm := mem_users.mp hp
        refine ⟨?_, h.spaces.dirs p m hmm⟩
        by_contra hstage
        have hnone := h.stages.spaceless p hstage
        rw [hmm] at hnone
        cases hnone
      page := by
        intro hlive
        refine ⟨h.spaces.directories.pages m hlive, ?_⟩
        intro m' hlive' heq
        exact h.spaces.directories.distinct m' m hlive' hlive heq }

/-- The register holds the page directory of the address space of the current process, or
`boot_cr3`. -/
def Mapped (s : Machine ι) : Prop :=
  s.cr3 = none ∨ ∃ m, (s.proc s.current).mm = some m ∧ (s.mm m).live = true ∧
    s.cr3 = some (s.mm m).pgdir

/-- The process has given up its address space: it is in `load_icode`, or it exits. -/
def GaveUp (s : System ι) (i : ι) : Prop :=
  (s.shared.proc i).stage ≠ .alive ∨ (∃ fd m loading, (s.pc i).place = .execLoading fd m loading) ∨
    ∃ m, (s.pc i).place = .execMapping m

/-- The register is wrong in those states, and only those, in which the scheduler has come back to
a process that has given up its address space: its `cr3` still is the directory. -/
theorem mapped_iff (hne : initproc ≠ idleproc)
    (hrun : ReflTransGen Step (initial idleproc initproc) s) :
    Mapped s.shared ↔ (GaveUp s s.shared.current → s.shared.cr3 = none) := by
  have h := sound_of_reaches hne hrun
  have hregister := (switched_of_reaches hne hrun).2
  have hfits := h.fits s.shared.current
  constructor
  · rintro (hboot | ⟨m, hm, _⟩) hgone
    · exact hboot
    · exfalso
      rcases hgone with hstage | ⟨fd, m', loading, hplace⟩ | ⟨m', hplace⟩
      · rw [h.stages.spaceless _ hstage] at hm
        cases hm
      · rw [Fits, hplace] at hfits
        rw [hfits.2] at hm
        cases hm
      · rw [Fits, hplace] at hfits
        rw [hfits.2] at hm
        cases hm
  · intro hgone
    rcases hregister with hboot | hregister
    · exact Or.inl hboot
    · cases hmm : (s.shared.proc s.shared.current).mm with
      | some m =>
          have hdir := h.spaces.dirs _ m hmm
          exact Or.inr ⟨m, hmm, (h.spaces.counted m).used _ hmm, hregister.trans hdir⟩
      | none =>
          apply Or.inl
          rcases Classical.em (GaveUp s s.shared.current) with hgave | hhas
          · exact hgone hgave
          · obtain ⟨halive, hloading, hmapping⟩ := by simpa [GaveUp] using hhas
            have hcalm : Calm (s.shared.proc s.shared.current) := by
              rw [Fits] at hfits
              cases hplace : (s.pc s.shared.current).place with
              | outside =>
                  rw [hplace] at hfits
                  exact hfits.2.2 halive
              | execLoading fd m loading => exact absurd hplace (hloading fd m loading)
              | execMapping m => exact absurd hplace (hmapping m)
              | destroying f rest next =>
                  rw [hplace] at hfits
                  cases next with
                  | exit =>
                      have hleaving : (s.shared.proc s.shared.current).stage = .leaving := hfits
                      rw [halive] at hleaving
                      cases hleaving
                  | undo child => exact hfits.2
              | _ =>
                  rw [hplace] at hfits
                  exact hfits.2
            rw [hregister]
            exact hcalm hmm

end Runs

section FreedDirectory

/-- What the code that a process waits for returns: success, with page `3` and `mm_struct` `5`. -/
def answer : Answer where
  reply := { ret := .ok (), value := 1 }
  ok := true
  mm := some 5
  page := some 3
  offset := none

/-- A process makes a child with a `files_struct` of its own, which executes a program, exits, and
is suspended in `files_destroy` while the other process runs. -/
def exitMoves : List (Move (Fin 3)) :=
  [.start (.fork (Fin.last 2) false false (some 7) none none), .run (Fin.last 2),
    .start .exec] ++
    List.replicate 8 (.resume answer) ++ [.start .exit, .run 0, .run (Fin.last 2)]

/-- The address space of that process once it executes the program. -/
theorem owned_by_program : ∃ s : System (Fin 3), ReflTransGen Step (initial 0 1) s ∧
    (s.shared.mm 5).live = true ∧ Owned s 5 := by
  obtain ⟨s, hrun, hlive⟩ := @exists_of_play _ _ (initial 0 1) (exitMoves.take 11)
    (fun s => (s.shared.mm 5).live) (by decide +kernel)
  exact ⟨s, hrun, hlive, address_space_owned (by decide) hrun 5⟩

/-- The scheduler comes back to an exiting process, and the register holds a page that is no page
directory any more. -/
theorem freed_directory : ∃ s : System (Fin 3), ReflTransGen Step (initial 0 1) s ∧
    ¬Mapped s.shared ∧ ∃ page, s.shared.cr3 = some page ∧ s.shared.pages page = false := by
  obtain ⟨s, hrun, hend⟩ := @exists_of_play _ _ (initial 0 1) exitMoves
    (fun s => s.shared.cr3 = some 3 ∧ s.shared.pages 3 = false ∧
      (s.shared.proc s.shared.current).stage = .leaving) (by decide +kernel)
  obtain ⟨hcr3, hpage, hstage⟩ := of_decide_eq_true hend
  refine ⟨s, hrun, ?_, 3, hcr3, hpage⟩
  rw [mapped_iff (by decide) hrun]
  intro hboot
  have hnone := hboot (Or.inl (by rw [hstage]; decide))
  rw [hcr3] at hnone
  cases hnone

end FreedDirectory

end Ucore.AddressSpaceOwners
