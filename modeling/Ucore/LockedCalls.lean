import Mathlib.Order.WellFounded
import Ucore.Interleaving
import Ucore.Programs

/-! Calls that look at a shared state, and then hold one lock until they return:
when they are as if they had been made one after another. -/

namespace Ucore.LockedCalls

open Relation
open Ucore.Errors
open Ucore.Panic
open Ucore.KernelRoutine
open Ucore.Interleaving
open Ucore.Programs

/-- One call for each thread. `look` runs before the lock is taken, and may
return at once; `body` runs with the lock held. -/
structure Calls (ι σ α : Type) where
  look : ι → σ → Kernel (Option (Except Errno α))
  body : ι → Program σ α

variable {ι σ α : Type}

/-- The call when no other one is running. -/
def Calls.whole (calls : Calls ι σ α) (i : ι) : Routine σ α := fun s =>
  match calls.look i s with
  | .error a => .error a
  | .ok (some r) => .ok (r, s)
  | .ok none => (calls.body i).run s

inductive Place (α : Type) where
  | ready
  | waiting
  | inside
  | finished (r : Except Errno α)

/-- The thread that holds the lock; it took it in the state `since`. -/
structure Holder (ι σ α : Type) where
  who : ι
  since : σ
  rest : Program σ α

structure State (ι σ α : Type) extends Threads ι σ (Place α) where
  holder : Option (Holder ι σ α)

inductive Move (ι : Type) where
  | look (i : ι)
  | take (i : ι)
  | wake

/-- The state in which the lock was taken, or in which it is free. -/
def State.base (c : State ι σ α) : σ :=
  match c.holder with
  | none => c.shared
  | some h => h.since

def start (s : σ) : State ι σ α where
  shared := s
  pc := fun _ => .ready
  holder := none

section Moves

variable [DecidableEq ι]

def State.goTo (c : State ι σ α) (i : ι) (place : Place α) : State ι σ α :=
  { c with pc := Function.update c.pc i place }

/-- The state after a turn of the thread `i`; the lock is given back at its end. -/
def State.after (c : State ι σ α) (i : ι) (since : σ) :
    (Except Errno α ⊕ Program σ α) × σ → State ι σ α
  | (.inl r, s) => { c.goTo i (.finished r) with shared := s, holder := none }
  | (.inr rest, s) => { c.goTo i .inside with shared := s, holder := some ⟨i, since, rest⟩ }

def looked (c : State ι σ α) (i : ι) : Option (Except Errno α) → State ι σ α
  | some r => c.goTo i (.finished r)
  | none => c.goTo i .waiting

/-- What a move does, if it is possible. -/
def next (calls : Calls ι σ α) (c : State ι σ α) : Move ι → Option (Except Abort (State ι σ α))
  | .look i =>
      match c.pc i with
      | .ready => some ((calls.look i c.shared).map (looked c i))
      | _ => none
  | .take i =>
      match c.pc i, c.holder with
      | .waiting, none => some (((calls.body i).turn c.shared).map (c.after i c.shared))
      | _, _ => none
  | .wake =>
      match c.holder with
      | some h => some ((h.rest.turn c.shared).map (c.after h.who h.since))
      | none => none

/-- A possible move that is allowed. -/
def Step (calls : Calls ι σ α) (allowed : State ι σ α → Move ι → Prop) (c c' : State ι σ α) : Prop :=
  ∃ m, allowed c m ∧ next calls c m = some (.ok c')

end Moves

/-- The calls have been made one after another, with these results. -/
inductive Sequence (whole : ι → Routine σ α) (s₀ : σ) : List (ι × Except Errno α) → σ → Prop
  | nil : Sequence whole s₀ [] s₀
  | snoc {order : List (ι × Except Errno α)} {s t : σ} {i : ι} {r : Except Errno α}
      (h : Sequence whole s₀ order s) (hcall : whole i s = .ok (r, t)) :
      Sequence whole s₀ (order ++ [(i, r)]) t

/-- What is relied on: `inv` while the lock is free, `okLook` of the state in which
the lock was taken and the state that is looked at, `okTake` of the state in which
the lock is taken, `waits` for a thread that waits for the lock, and `parks` of the
state in which the lock was taken and one in which its holder sleeps. -/
structure Terms (ι σ : Type) where
  inv : σ → Prop
  okLook : ι → σ → σ → Prop
  okTake : ι → σ → Prop
  waits : ι → σ → Prop
  parks : σ → σ → Prop

def Terms.Allowed (terms : Terms ι σ) (c : State ι σ α) : Move ι → Prop
  | .look i => terms.okLook i c.base c.shared
  | .take i => terms.okTake i c.shared
  | .wake => True

/-- A call from `s` that ends in `t`, and keeps the promises on the way. -/
structure Ends (terms : Terms ι σ) (calls : Calls ι σ α) (i : ι) (s : σ) (r : Except Errno α)
    (t : σ) : Prop where
  whole : calls.whole i s = .ok (r, t)
  inv : terms.inv t
  waits : ∀ j, terms.waits j s → terms.waits j t

/-- A thread that looks at the state while another one holds the lock sees nothing
that makes a difference. -/
structure Terms.Sound (terms : Terms ι σ) (calls : Calls ι σ α) : Prop where
  refl : ∀ s, terms.inv s → terms.parks s s
  looks : ∀ i s t, terms.inv s → terms.parks s t → terms.okLook i s t →
    ∃ o, calls.look i t = .ok o ∧ (∀ r, o = some r → calls.whole i s = .ok (r, s)) ∧
      (o = none → terms.waits i s)
  runs : ∀ i s, terms.inv s → terms.okTake i s → terms.waits i s →
    (calls.body i).Behaves (terms.parks s) (Ends terms calls i s) s

section Linearity

variable {terms : Terms ι σ} {calls : Calls ι σ α} {s₀ : σ} {c : State ι σ α}
  {order : List (ι × Except Errno α)} {i : ι}

/-- The calls that have returned made the state in which the lock was last free. -/
structure Linear (terms : Terms ι σ) (calls : Calls ι σ α) (s₀ : σ) (c : State ι σ α)
    (order : List (ι × Except Errno α)) : Prop where
  sequence : Sequence calls.whole s₀ order c.base
  inv : terms.inv c.base
  waits : ∀ i, c.pc i = .waiting → terms.waits i c.base
  inside : ∀ i, c.pc i = .inside → ∃ h, c.holder = some h ∧ h.who = i
  holding : ∀ h, c.holder = some h → c.pc h.who = .inside ∧
    terms.parks h.since c.shared ∧
      h.rest.Behaves (terms.parks h.since) (Ends terms calls h.who h.since) c.shared
  finished : ∀ i r, c.pc i = .finished r ↔ (i, r) ∈ order
  nodup : (order.map Prod.fst).Nodup

theorem linear_start (hinv : terms.inv s₀) : Linear terms calls s₀ (start s₀) [] where
  sequence := Sequence.nil
  inv := hinv
  waits i h := by cases h
  inside i h := by cases h
  holding h heq := by cases heq
  finished i r := by
    constructor
    · intro h
      cases h
    · intro h
      cases h
  nodup := List.nodup_nil

theorem not_mem_order (h : Linear terms calls s₀ c order)
    (hplace : ∀ r, c.pc i ≠ .finished r) : i ∉ order.map Prod.fst := by
  intro hmem
  obtain ⟨⟨j, r⟩, hin, rfl⟩ := List.mem_map.mp hmem
  exact hplace r ((h.finished j r).mpr hin)

theorem nodup_append (h : (order.map Prod.fst).Nodup) (hmem : i ∉ order.map Prod.fst)
    (r : Except Errno α) : ((order ++ [(i, r)]).map Prod.fst).Nodup := by
  rw [List.map_append, List.nodup_append]
  refine ⟨h, List.nodup_singleton i, ?_⟩
  rintro j hj k hk rfl
  rw [List.map_singleton, List.mem_singleton] at hk
  subst hk
  exact hmem hj

variable [DecidableEq ι]

theorem goTo_self (c : State ι σ α) (i : ι) (place : Place α) : (c.goTo i place).pc i = place := by
  show Function.update c.pc i place i = place
  exact Function.update_self i place c.pc

theorem goTo_other (c : State ι σ α) {i j : ι} (place : Place α) (hne : j ≠ i) :
    (c.goTo i place).pc j = c.pc j := by
  show Function.update c.pc i place j = c.pc j
  exact Function.update_of_ne hne place c.pc

/-- The threads that have returned, with one more. -/
theorem finished_append (hfinished : ∀ j r, c.pc j = .finished r ↔ (j, r) ∈ order)
    (hplace : ∀ r, c.pc i ≠ .finished r) (result : Except Errno α) (j : ι) (r : Except Errno α) :
    (c.goTo i (.finished result)).pc j = .finished r ↔ (j, r) ∈ order ++ [(i, result)] := by
  rw [List.mem_append, List.mem_singleton, Prod.mk.injEq]
  rcases eq_or_ne j i with rfl | hne
  · rw [goTo_self, Place.finished.injEq]
    constructor
    · rintro rfl
      exact Or.inr ⟨rfl, rfl⟩
    · rintro (hmem | ⟨_, rfl⟩)
      · exact absurd ((hfinished j r).mpr hmem) (hplace r)
      · rfl
  · rw [goTo_other c _ hne, hfinished]
    constructor
    · exact Or.inl
    · rintro (hmem | ⟨rfl, _⟩)
      · exact hmem
      · exact absurd rfl hne

theorem finished_same (hfinished : ∀ j r, c.pc j = .finished r ↔ (j, r) ∈ order)
    (hplace : ∀ r, c.pc i ≠ .finished r) {place : Place α} (hnew : ∀ r, place ≠ .finished r)
    (j : ι) (r : Except Errno α) :
    (c.goTo i place).pc j = .finished r ↔ (j, r) ∈ order := by
  rcases eq_or_ne j i with rfl | hne
  · rw [goTo_self, ← hfinished]
    exact ⟨fun h => absurd h (hnew r), fun h => absurd h (hplace r)⟩
  · rw [goTo_other c _ hne, hfinished]

/-- A turn of the thread that has the lock. -/
theorem linear_after (h : Linear terms calls s₀ c order) {since : σ} (hbase : c.base = since)
    (hplace : ∀ r, c.pc i ≠ .finished r) (hothers : ∀ j, j ≠ i → c.pc j ≠ .inside)
    {rest : Program σ α}
    (hrest : rest.Behaves (terms.parks since) (Ends terms calls i since) c.shared) :
    ∃ out, rest.turn c.shared = .ok out ∧
      ∃ order', Linear terms calls s₀ (c.after i since out) order' := by
  subst hbase
  obtain ⟨hparked, r, t, hrun, hends⟩ := hrest
  have hturn := rest.run_of_turn (s := c.shared)
  rw [hrun] at hturn
  cases hcase : rest.turn c.shared with
  | error a =>
      rw [hcase] at hturn
      cases hturn
  | ok out =>
      refine ⟨out, rfl, ?_⟩
      obtain ⟨r' | q, t'⟩ := out
      · rw [hcase] at hturn
        cases hturn
        refine ⟨order ++ [(i, r)], ?_⟩
        constructor
        case sequence => exact h.sequence.snoc hends.whole
        case inv => exact hends.inv
        case waits =>
          intro j hj
          apply hends.waits j
          rcases eq_or_ne j i with rfl | hne
          · rw [show (c.after j c.base (.inl r, t)).pc j = .finished r from goTo_self c j _] at hj
            cases hj
          · exact h.waits j ((goTo_other c _ hne).symm.trans hj)
        case inside =>
          intro j hj
          rcases eq_or_ne j i with rfl | hne
          · rw [show (c.after j c.base (.inl r, t)).pc j = .finished r from goTo_self c j _] at hj
            cases hj
          · exact absurd ((goTo_other c _ hne).symm.trans hj) (hothers j hne)
        case holding =>
          intro holder hholder
          cases hholder
        case finished => exact finished_append h.finished hplace r
        case nodup => exact nodup_append h.nodup (not_mem_order h hplace) r
      · rw [hcase] at hturn
        obtain ⟨hparks, hparked'⟩ := Program.parked_of_turn hparked hcase
        refine ⟨order, ?_⟩
        constructor
        case sequence => exact h.sequence
        case inv => exact h.inv
        case waits =>
          intro j hj
          rcases eq_or_ne j i with rfl | hne
          · rw [show (c.after j c.base (.inr q, t')).pc j = .inside from goTo_self c j _] at hj
            cases hj
          · exact h.waits j ((goTo_other c _ hne).symm.trans hj)
        case inside =>
          intro j hj
          rcases eq_or_ne j i with rfl | hne
          · exact ⟨_, rfl, rfl⟩
          · exact absurd ((goTo_other c _ hne).symm.trans hj) (hothers j hne)
        case holding =>
          intro holder hholder
          cases hholder
          exact ⟨goTo_self c i _, hparks, hparked', r, t, hturn.symm, hends⟩
        case finished => exact finished_same h.finished hplace (fun _ => nofun)
        case nodup => exact h.nodup

theorem linear_looked (hsound : terms.Sound calls) (h : Linear terms calls s₀ c order)
    (hready : c.pc i = .ready) (hlook : terms.okLook i c.base c.shared) :
    ∃ o, calls.look i c.shared = .ok o ∧ ∃ order', Linear terms calls s₀ (looked c i o) order' := by
  have hparks : terms.parks c.base c.shared := by
    cases hholder : c.holder with
    | none =>
        have hbase : c.base = c.shared := by
          rw [State.base, hholder]
        have hinv := h.inv
        rw [hbase] at hinv ⊢
        exact hsound.refl c.shared hinv
    | some holder =>
        have hbase : c.base = holder.since := by
          rw [State.base, hholder]
        rw [hbase]
        exact (h.holding holder hholder).2.1
  have hplace : ∀ r, c.pc i ≠ .finished r := by
    intro r hr
    rw [hready] at hr
    cases hr
  have hholding : ∀ place, ∀ holder, c.holder = some holder →
      (c.goTo i place).pc holder.who = .inside ∧ terms.parks holder.since c.shared ∧
        holder.rest.Behaves (terms.parks holder.since)
          (Ends terms calls holder.who holder.since) c.shared := by
    intro place holder hholder
    obtain ⟨hpc, hrest⟩ := h.holding holder hholder
    refine ⟨?_, hrest⟩
    rw [goTo_other c place, hpc]
    rintro rfl
    rw [hready] at hpc
    cases hpc
  have hinside : ∀ place, place ≠ .inside → ∀ j, (c.goTo i place).pc j = .inside →
      ∃ holder, c.holder = some holder ∧ holder.who = j := by
    intro place hne j hj
    rcases eq_or_ne j i with rfl | hother
    · rw [goTo_self] at hj
      exact absurd hj hne
    · exact h.inside j ((goTo_other c _ hother).symm.trans hj)
  obtain ⟨o, ho, hreturn, hwait⟩ := hsound.looks i c.base c.shared h.inv hparks hlook
  refine ⟨o, ho, ?_⟩
  cases o with
  | some r =>
      refine ⟨order ++ [(i, r)], ?_⟩
      constructor
      case sequence => exact h.sequence.snoc (hreturn r rfl)
      case inv => exact h.inv
      case waits =>
        intro j hj
        rcases eq_or_ne j i with rfl | hne
        · rw [show (looked c j (some r)).pc j = .finished r from goTo_self c j _] at hj
          cases hj
        · exact h.waits j ((goTo_other c _ hne).symm.trans hj)
      case inside => exact hinside _ nofun
      case holding => exact hholding _
      case finished => exact finished_append h.finished hplace r
      case nodup => exact nodup_append h.nodup (not_mem_order h hplace) r
  | none =>
      refine ⟨order, ?_⟩
      constructor
      case sequence => exact h.sequence
      case inv => exact h.inv
      case waits =>
        intro j hj
        rcases eq_or_ne j i with rfl | hne
        · exact hwait rfl
        · exact h.waits j ((goTo_other c _ hne).symm.trans hj)
      case inside => exact hinside _ nofun
      case holding => exact hholding _
      case finished => exact finished_same h.finished hplace (fun _ => nofun)
      case nodup => exact h.nodup

/-- A move that is possible and allowed does not fail, and stays in the sequence. -/
theorem linear_next (hsound : terms.Sound calls) (h : Linear terms calls s₀ c order) {m : Move ι}
    (hallowed : terms.Allowed c m) {out : Except Abort (State ι σ α)}
    (hnext : next calls c m = some out) :
    ∃ c', out = .ok c' ∧ ∃ order', Linear terms calls s₀ c' order' := by
  cases m with
  | look i =>
      simp only [next] at hnext
      split at hnext
      · next hready =>
        obtain ⟨o, ho, hlinear⟩ := linear_looked hsound h hready hallowed
        rw [ho] at hnext
        cases hnext
        exact ⟨_, rfl, hlinear⟩
      · cases hnext
  | take i =>
      simp only [next] at hnext
      split at hnext
      · next hwaiting hfree =>
        have hbase : c.base = c.shared := by
          rw [State.base, hfree]
        have hinv := h.inv
        have hwait := h.waits i hwaiting
        rw [hbase] at hinv hwait
        have hplace : ∀ r, c.pc i ≠ .finished r := by
          intro r hr
          rw [hwaiting] at hr
          cases hr
        have hothers : ∀ j, j ≠ i → c.pc j ≠ .inside := by
          intro j _ hj
          obtain ⟨holder, hholder, _⟩ := h.inside j hj
          rw [hfree] at hholder
          cases hholder
        obtain ⟨out', hturn, hlinear⟩ := linear_after h hbase hplace hothers
          (hsound.runs i c.shared hinv hallowed hwait)
        rw [hturn] at hnext
        cases hnext
        exact ⟨_, rfl, hlinear⟩
      · cases hnext
  | wake =>
      simp only [next] at hnext
      split at hnext
      · next holder hholder =>
        have hbase : c.base = holder.since := by
          rw [State.base, hholder]
        obtain ⟨hinside, _, hrest⟩ := h.holding holder hholder
        have hplace : ∀ r, c.pc holder.who ≠ .finished r := by
          intro r hr
          rw [hinside] at hr
          cases hr
        have hothers : ∀ j, j ≠ holder.who → c.pc j ≠ .inside := by
          intro j hne hj
          obtain ⟨holder', hholder', hwho⟩ := h.inside j hj
          rw [hholder] at hholder'
          cases hholder'
          exact hne hwho.symm
        obtain ⟨out', hturn, hlinear⟩ := linear_after h hbase hplace hothers hrest
        rw [hturn] at hnext
        cases hnext
        exact ⟨_, rfl, hlinear⟩
      · cases hnext

theorem linear_of_run (hsound : terms.Sound calls) (hinv : terms.inv s₀)
    (hrun : ReflTransGen (Step calls terms.Allowed) (start s₀) c) :
    ∃ order, Linear terms calls s₀ c order := by
  apply @holds_of_reaches _ _ (fun c => ∃ order, Linear terms calls s₀ c order) _ _ ?_ ?_ hrun
  · rintro c c' ⟨order, h⟩ ⟨m, hallowed, hnext⟩
    obtain ⟨c'', heq, hlinear⟩ := linear_next hsound h hallowed hnext
    cases heq
    exact hlinear
  · exact ⟨[], linear_start hinv⟩

/-- A thread that has not returned can go on, or another one can. -/
theorem exists_next (h : Linear terms calls s₀ c order) (hplace : ∀ r, c.pc i ≠ .finished r) :
    ∃ m, (next calls c m).isSome = true := by
  cases hholder : c.holder with
  | some holder =>
      refine ⟨.wake, ?_⟩
      simp only [next, hholder]
      rfl
  | none =>
      cases hpc : c.pc i with
      | ready =>
          refine ⟨.look i, ?_⟩
          simp only [next, hpc]
          rfl
      | waiting =>
          refine ⟨.take i, ?_⟩
          simp only [next, hpc, hholder]
          rfl
      | inside =>
          obtain ⟨holder, hsome, _⟩ := h.inside i hpc
          rw [hholder] at hsome
          cases hsome
      | finished r => exact absurd hpc (hplace r)

omit [DecidableEq ι] in
/-- When all have returned, they have done so one after another. -/
theorem sequence_of_finished (h : Linear terms calls s₀ c order)
    (hall : ∀ i, ∃ r, c.pc i = .finished r) :
    Sequence calls.whole s₀ order c.shared ∧ (order.map Prod.fst).Nodup ∧
      ∀ i r, c.pc i = .finished r ↔ (i, r) ∈ order := by
  have hfree : c.holder = none := by
    cases hholder : c.holder with
    | none => rfl
    | some holder =>
        obtain ⟨hinside, _⟩ := h.holding holder hholder
        obtain ⟨r, hr⟩ := hall holder.who
        rw [hinside] at hr
        cases hr
  have hbase : c.base = c.shared := by
    rw [State.base, hfree]
  have hsequence := h.sequence
  rw [hbase] at hsequence
  exact ⟨hsequence, h.nodup, h.finished⟩

end Linearity

section Termination

variable [DecidableEq ι] [Fintype ι] {calls : Calls ι σ α} {c c' : State ι σ α}

def Place.isReady : Place α → Bool
  | .ready => true
  | _ => false

def Place.isWaiting : Place α → Bool
  | .waiting => true
  | _ => false

/-- Moves of a thread before it has the lock. -/
def Place.weight (place : Place α) : Nat :=
  2 * (if place.isReady then 1 else 0) + if place.isWaiting then 1 else 0

def movesLeft (c : State ι σ α) : Nat :=
  2 * tally Place.isReady c.pc + tally Place.isWaiting c.pc

theorem movesLeft_goTo (c : State ι σ α) (i : ι) (place : Place α) :
    movesLeft (c.goTo i place) + (c.pc i).weight = movesLeft c + place.weight := by
  have hready := tally_update Place.isReady c.pc i place
  have hwaiting := tally_update Place.isWaiting c.pc i place
  show 2 * tally Place.isReady (Function.update c.pc i place) +
    tally Place.isWaiting (Function.update c.pc i place) + _ = _
  unfold Place.weight movesLeft
  omega

theorem movesLeft_after (c : State ι σ α) (i : ι) (since : σ)
    (out : (Except Errno α ⊕ Program σ α) × σ) :
    movesLeft (c.after i since out) + (c.pc i).weight = movesLeft c := by
  obtain ⟨r | rest, s⟩ := out
  · exact movesLeft_goTo c i (.finished r)
  · exact movesLeft_goTo c i .inside

theorem map_eq_ok {ε : Type} {β γ : Type*} {f : β → γ} {x : Except ε β} {b : γ}
    (h : x.map f = .ok b) : ∃ a, x = .ok a ∧ f a = b := by
  cases x with
  | error e => cases h
  | ok a =>
      cases h
      exact ⟨a, rfl, rfl⟩

/-- A thread comes closer to the lock, or the holder of the lock comes closer to its end. -/
theorem next_decreases {m : Move ι} (h : next calls c m = some (.ok c')) :
    movesLeft c' < movesLeft c ∨ movesLeft c' ≤ movesLeft c ∧ ∃ holder, c.holder = some holder ∧
      ∀ holder', c'.holder = some holder' → holder'.rest.Later holder.rest := by
  cases m with
  | look i =>
      simp only [next] at h
      split at h
      · next hready =>
        left
        obtain ⟨o, _, rfl⟩ := map_eq_ok (Option.some.inj h)
        cases o with
        | some r =>
            have hmove := movesLeft_goTo c i (.finished r)
            rw [hready] at hmove
            change movesLeft (looked c i (some r)) + 2 = movesLeft c at hmove
            omega
        | none =>
            have hmove := movesLeft_goTo c i .waiting
            rw [hready] at hmove
            change movesLeft (looked c i none) + 2 = movesLeft c + 1 at hmove
            omega
      · cases h
  | take i =>
      simp only [next] at h
      split at h
      · next hwaiting _ =>
        left
        obtain ⟨out, _, rfl⟩ := map_eq_ok (Option.some.inj h)
        have hmove := movesLeft_after c i c.shared out
        rw [hwaiting] at hmove
        change movesLeft (c.after i c.shared out) + 1 = movesLeft c at hmove
        omega
      · cases h
  | wake =>
      simp only [next] at h
      split at h
      · next holder hholder =>
        right
        obtain ⟨out, hturn, rfl⟩ := map_eq_ok (Option.some.inj h)
        have hmove := movesLeft_after c holder.who holder.since out
        refine ⟨by omega, holder, hholder, ?_⟩
        intro holder' hholder'
        obtain ⟨r | rest, s⟩ := out
        · cases hholder'
        · cases hholder'
          exact ⟨c.shared, s, hturn⟩
      · cases h

/-- No run goes on for ever. -/
theorem step_wellFounded {allowed : State ι σ α → Move ι → Prop} :
    WellFounded fun c' c : State ι σ α => Step calls allowed c c' := by
  have hall : ∀ n, ∀ c : State ι σ α, movesLeft c = n →
      Acc (fun c' c => Step calls allowed c c') c := by
    intro n
    induction n using Nat.strong_induction_on with
    | h n ih =>
      have hfree : ∀ c : State ι σ α, movesLeft c ≤ n → c.holder = none →
          Acc (fun c' c => Step calls allowed c c') c := by
        intro c hle hnone
        constructor
        rintro c' ⟨m, _, hnext⟩
        rcases next_decreases hnext with hless | ⟨_, holder, hholder, _⟩
        · exact ih _ (lt_of_lt_of_le hless hle) c' rfl
        · rw [hnone] at hholder
          cases hholder
      have hheld : ∀ rest : Program σ α, ∀ (c : State ι σ α) (holder : Holder ι σ α),
          movesLeft c ≤ n → c.holder = some holder → holder.rest = rest →
          Acc (fun c' c => Step calls allowed c c') c := by
        intro rest
        induction rest using Program.later_wellFounded.induction with
        | _ rest ihrest =>
          intro c holder hle hsome hrest
          constructor
          rintro c' ⟨m, _, hnext⟩
          rcases next_decreases hnext with hless | ⟨hsame, holder₀, hholder, hlater⟩
          · exact ih _ (lt_of_lt_of_le hless hle) c' rfl
          · rw [hsome] at hholder
            cases hholder
            cases hholder' : c'.holder with
            | none => exact hfree c' (le_trans hsame hle) hholder'
            | some holder' =>
                have hsooner := hlater holder' hholder'
                rw [hrest] at hsooner
                exact ihrest holder'.rest hsooner c' holder' (le_trans hsame hle) hholder' rfl
      intro c hc
      cases hholder : c.holder with
      | none => exact hfree c (le_of_eq hc) hholder
      | some holder => exact hheld holder.rest c holder (le_of_eq hc) hholder rfl
  exact ⟨fun c => hall (movesLeft c) c rfl⟩

end Termination

end Ucore.LockedCalls
