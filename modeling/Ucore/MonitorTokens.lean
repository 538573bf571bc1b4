import Ucore.Interleaving

/-! A monitor as one unit that its processes pass on: who has it is in the monitor, and
it waits in one of three kinds of places for whom may have it next. -/

namespace Ucore.MonitorTokens

open Relation
open Ucore.Interleaving

/-- Where the unit is when no process has it: for processes that want to enter, for
those that have signalled, and for those that wait for a condition. -/
inductive Key (γ : Type) where
  | mutex
  | next
  | cv (c : γ)
  deriving DecidableEq

/-- Where a process is: outside, waiting to enter, inside, or in the middle of a wait
for a condition or of a signal, before and after it has gone to sleep. -/
inductive Place (γ : Type) where
  | outside
  | entering
  | active
  | released (c : γ)
  | waiting (c : γ)
  | signalled (c : γ)
  | signalling (c : γ)
  deriving DecidableEq

structure Tokens (ι γ : Type) where
  place : ι → Place γ
  units : Key γ → Int
  nextCount : Int
  count : γ → Int

variable {ι γ : Type}

section Places

def isActive : Place γ → Bool
  | .active => true
  | _ => false

/-- It has signalled, and has not come back. -/
def isSignaller : Place γ → Bool
  | .signalled _ => true
  | .signalling _ => true
  | _ => false

variable [DecidableEq γ]

/-- It waits for the condition, and has not come back. -/
def isWaiter (c : γ) : Place γ → Bool
  | .released d => decide (d = c)
  | .waiting d => decide (d = c)
  | _ => false

end Places

variable [DecidableEq ι] [DecidableEq γ]

/-- To whom a process leaves the monitor. -/
def Tokens.exit (s : Tokens ι γ) : Key γ :=
  if s.nextCount > 0 then .next else .mutex

def Tokens.give (s : Tokens ι γ) (k : Key γ) : Key γ → Int :=
  Function.update s.units k (s.units k + 1)

def Tokens.take (s : Tokens ι γ) (k : Key γ) : Key γ → Int :=
  Function.update s.units k (s.units k - 1)

/-- What a process may do next. -/
inductive Pass (s : Tokens ι γ) (i : ι) : Tokens ι γ → Prop
  | ask : s.place i = .outside →
      Pass s i { s with place := Function.update s.place i .entering }
  | enter : s.place i = .outside ∨ s.place i = .entering → 0 < s.units .mutex →
      Pass s i { s with
        place := Function.update s.place i .active
        units := s.take .mutex }
  | leave : s.place i = .active →
      Pass s i { s with
        place := Function.update s.place i .outside
        units := s.give s.exit }
  | wait {c : γ} : s.place i = .active →
      Pass s i { s with
        place := Function.update s.place i (.released c)
        units := s.give s.exit
        count := Function.update s.count c (s.count c + 1) }
  | sleep {c : γ} : s.place i = .released c →
      Pass s i { s with place := Function.update s.place i (.waiting c) }
  | waited {c : γ} : s.place i = .released c ∨ s.place i = .waiting c →
      0 < s.units (.cv c) →
      Pass s i { s with
        place := Function.update s.place i .active
        units := s.take (.cv c)
        count := Function.update s.count c (s.count c - 1) }
  | signal {c : γ} : s.place i = .active → 0 < s.count c →
      Pass s i { s with
        place := Function.update s.place i (.signalled c)
        units := s.give (.cv c)
        nextCount := s.nextCount + 1 }
  | suspend {c : γ} : s.place i = .signalled c →
      Pass s i { s with place := Function.update s.place i (.signalling c) }
  | resume {c : γ} : s.place i = .signalled c ∨ s.place i = .signalling c →
      0 < s.units .next →
      Pass s i { s with
        place := Function.update s.place i .active
        units := s.take .next
        nextCount := s.nextCount - 1 }

variable [Fintype ι] [Fintype γ]

def total (units : Key γ → Int) : Int :=
  units .mutex + units .next + ∑ c, units (.cv c)

/-- There is one unit, and where it waits there is one who will take it. -/
structure Kept (s : Tokens ι γ) : Prop where
  nonneg : ∀ k, 0 ≤ s.units k
  one : (tally isActive s.place : Int) + total s.units = 1
  nextCount : s.nextCount = tally isSignaller s.place
  count : ∀ c, s.count c = tally (isWaiter c) s.place
  next : s.units .next ≤ s.nextCount
  cv : ∀ c, s.units (.cv c) ≤ s.count c

variable {s t : Tokens ι γ} {i : ι}

section Totals

omit [DecidableEq ι] [Fintype ι] in
theorem total_update (units : Key γ → Int) (k : Key γ) (d : Int) :
    total (Function.update units k (units k + d)) = total units + d := by
  have hne : ∀ {k k' : Key γ} {v : Int}, k' ≠ k → Function.update units k v k' = units k' :=
    fun h => Function.update_of_ne h _ _
  cases k with
  | mutex =>
      rw [total, total, Function.update_self, hne (by simp)]
      have hsum : (∑ c, Function.update units .mutex (units .mutex + d) (.cv c)) =
          ∑ c, units (.cv c) := Finset.sum_congr rfl fun c _ => hne (by simp)
      rw [hsum]
      omega
  | next =>
      rw [total, total, Function.update_self, hne (by simp)]
      have hsum : (∑ c, Function.update units .next (units .next + d) (.cv c)) =
          ∑ c, units (.cv c) := Finset.sum_congr rfl fun c _ => hne (by simp)
      rw [hsum]
      omega
  | cv c =>
      rw [total, total, hne (by simp), hne (by simp)]
      have hsum : (∑ e, Function.update units (.cv c) (units (.cv c) + d) (.cv e)) =
          (∑ e, units (.cv e)) + d := by
        rw [← Finset.add_sum_erase _ _ (Finset.mem_univ c),
          ← Finset.add_sum_erase _ (fun e => units (.cv e)) (Finset.mem_univ c),
          Function.update_self]
        have hrest : (∑ e ∈ Finset.univ.erase c,
            Function.update units (.cv c) (units (.cv c) + d) (.cv e)) =
            ∑ e ∈ Finset.univ.erase c, units (.cv e) := by
          apply Finset.sum_congr rfl
          intro e he
          exact hne (by simpa using Finset.ne_of_mem_erase he)
        rw [hrest]
        omega
      rw [hsum]
      omega

omit [DecidableEq ι] [Fintype ι] in
theorem total_give (s : Tokens ι γ) (k : Key γ) : total (s.give k) = total s.units + 1 :=
  total_update s.units k 1

omit [DecidableEq ι] [Fintype ι] in
theorem total_take (s : Tokens ι γ) (k : Key γ) : total (s.take k) = total s.units - 1 :=
  total_update s.units k (-1)

omit [DecidableEq γ] in
/-- One place has no more than all of them. -/
theorem units_le_total {units : Key γ → Int} (h : ∀ k, 0 ≤ units k) (k : Key γ) :
    units k ≤ total units := by
  have hmutex := h .mutex
  have hnext := h .next
  have hsum : 0 ≤ ∑ c, units (.cv c) := Finset.sum_nonneg fun c _ => h (.cv c)
  rw [total]
  cases k with
  | mutex => omega
  | next => omega
  | cv c =>
      have hle : units (.cv c) ≤ ∑ c, units (.cv c) :=
        Finset.single_le_sum (f := fun c => units (.cv c)) (fun c _ => h (.cv c))
          (Finset.mem_univ c)
      omega

omit [DecidableEq ι] [Fintype ι] in
theorem units_add_le_total {units : Key γ → Int} (h : ∀ k, 0 ≤ units k) {k k' : Key γ}
    (hne : k' ≠ k) : units k + units k' ≤ total units := by
  have hnonneg : ∀ l, 0 ≤ Function.update units k 0 l := by
    intro l
    rcases eq_or_ne l k with rfl | hl
    · rw [Function.update_self]
    · rw [Function.update_of_ne hl]
      exact h l
  have hle := units_le_total hnonneg k'
  have htotal := total_update units k (-units k)
  rw [add_neg_cancel] at htotal
  rw [htotal, Function.update_of_ne hne] at hle
  omega

end Totals

section Steps

/-- While a process is inside the unit waits nowhere. -/
theorem Kept.units_of_active (h : Kept s) (hi : s.place i = .active) (k : Key γ) :
    s.units k = 0 := by
  have hpos : 0 < tally isActive s.place := tally_pos (i := i) (by rw [hi]; rfl)
  have hle := units_le_total h.nonneg k
  have hone := h.one
  have hnonneg := h.nonneg k
  omega

omit [Fintype ι] [Fintype γ] [DecidableEq ι] in
theorem give_self (s : Tokens ι γ) (k : Key γ) : s.give k k = s.units k + 1 :=
  Function.update_self _ _ _

omit [Fintype ι] [Fintype γ] [DecidableEq ι] in
theorem give_of_ne (s : Tokens ι γ) {k l : Key γ} (h : l ≠ k) : s.give k l = s.units l :=
  Function.update_of_ne h _ _

omit [Fintype ι] [Fintype γ] [DecidableEq ι] in
theorem take_self (s : Tokens ι γ) (k : Key γ) : s.take k k = s.units k - 1 :=
  Function.update_self _ _ _

omit [Fintype ι] [Fintype γ] [DecidableEq ι] in
theorem take_of_ne (s : Tokens ι γ) {k l : Key γ} (h : l ≠ k) : s.take k l = s.units l :=
  Function.update_of_ne h _ _

omit [Fintype ι] [Fintype γ] [DecidableEq ι] in
theorem give_nonneg (h : ∀ k, 0 ≤ s.units k) (k l : Key γ) : 0 ≤ s.give k l := by
  have hl := h l
  rcases eq_or_ne l k with rfl | hne
  · rw [give_self]
    omega
  · rwa [give_of_ne s hne]

omit [Fintype ι] [Fintype γ] [DecidableEq ι] in
theorem take_nonneg (h : ∀ k, 0 ≤ s.units k) {k : Key γ} (hpos : 0 < s.units k) (l : Key γ) :
    0 ≤ s.take k l := by
  rcases eq_or_ne l k with rfl | hne
  · rw [take_self]
    omega
  · rw [take_of_ne s hne]
    exact h l

omit [Fintype ι] [Fintype γ] [DecidableEq ι] [DecidableEq γ] in
theorem exit_ne_cv (s : Tokens ι γ) (c : γ) : Key.cv c ≠ s.exit := by
  rw [Tokens.exit]
  split
  · simp
  · simp

/-- A process that leaves the monitor gives the unit to one that has signalled, if
there is any. -/
theorem Kept.exit (h : Kept s) (hi : s.place i = .active) :
    s.give s.exit .next ≤ s.nextCount ∧ ∀ c, s.give s.exit (.cv c) = 0 := by
  have hzero := h.units_of_active hi
  constructor
  · rw [Tokens.exit]
    split
    · rw [give_self, hzero]
      omega
    · rw [give_of_ne s (by simp)]
      exact h.next
  · intro c
    rw [give_of_ne s (exit_ne_cv s c)]
    exact hzero _

omit [DecidableEq γ] [Fintype γ] in
/-- One process moves from a place to another. -/
theorem tally_move (p : Place γ → Bool) {x y : Place γ} (hi : s.place i = x) :
    (tally p (Function.update s.place i y) : Int) =
      tally p s.place + (p y).toNat - (p x).toNat := by
  have hmove := tally_update p s.place i y
  rw [hi] at hmove
  cases hx : p x with
  | false =>
      cases hy : p y with
      | false => simp [hx, hy] at hmove ⊢; omega
      | true => simp [hx, hy] at hmove ⊢; omega
  | true =>
      cases hy : p y with
      | false => simp [hx, hy] at hmove ⊢; omega
      | true => simp [hx, hy] at hmove ⊢; omega

/-- A move between two places that count alike. -/
theorem Kept.moved (h : Kept s) {x y : Place γ} (hi : s.place i = x)
    (hactive : isActive y = isActive x) (hsignaller : isSignaller y = isSignaller x)
    (hwaiter : ∀ c, isWaiter c y = isWaiter c x) :
    Kept { s with place := Function.update s.place i y } := by
  refine ⟨h.nonneg, ?_, ?_, ?_, h.next, h.cv⟩
  · have hone := h.one
    show (tally isActive (Function.update s.place i y) : Int) + total s.units = 1
    rw [tally_move isActive hi, hactive]
    omega
  · rw [tally_move isSignaller hi, hsignaller, h.nextCount]
    omega
  · intro c
    rw [tally_move (isWaiter c) hi, hwaiter c, h.count c]
    omega

theorem kept_pass (h : Kept s) (hpass : Pass s i t) : Kept t := by
  have hone := h.one
  have hnext := h.nextCount
  cases hpass with
  | ask hi => exact h.moved hi rfl rfl fun _ => rfl
  | sleep hi => exact h.moved hi rfl rfl fun _ => rfl
  | suspend hi => exact h.moved hi rfl rfl fun _ => rfl
  | enter hi hpos =>
      have hx : isActive (s.place i) = false ∧ isSignaller (s.place i) = false ∧
          ∀ c, isWaiter c (s.place i) = false := by
        rcases hi with hi | hi
        · rw [hi]
          exact ⟨rfl, rfl, fun _ => rfl⟩
        · rw [hi]
          exact ⟨rfl, rfl, fun _ => rfl⟩
      refine ⟨take_nonneg h.nonneg hpos, ?_, ?_, ?_, ?_, ?_⟩
      · rw [tally_move isActive rfl, total_take, hx.1]
        simp only [isActive, Bool.toNat_true, Bool.toNat_false]
        omega
      · rw [tally_move isSignaller rfl, hx.2.1, hnext]
        simp [isSignaller]
      · intro c
        rw [tally_move (isWaiter c) rfl, hx.2.2 c, h.count c]
        simp [isWaiter]
      · show s.take .mutex .next ≤ s.nextCount
        rw [take_of_ne s (by simp)]
        exact h.next
      · intro c
        show s.take .mutex (.cv c) ≤ s.count c
        rw [take_of_ne s (by simp)]
        exact h.cv c
  | leave hi =>
      obtain ⟨hle, hcv⟩ := h.exit hi
      refine ⟨give_nonneg h.nonneg _, ?_, ?_, ?_, hle, ?_⟩
      · rw [tally_move isActive hi, total_give]
        simp only [isActive, Bool.toNat_true, Bool.toNat_false]
        omega
      · rw [tally_move isSignaller hi, hnext]
        simp [isSignaller]
      · intro c
        rw [tally_move (isWaiter c) hi, h.count c]
        simp [isWaiter]
      · intro c
        show s.give s.exit (.cv c) ≤ s.count c
        rw [hcv c, h.count c]
        omega
  | @wait c hi =>
      obtain ⟨hle, hcv⟩ := h.exit hi
      have hcount : ∀ e, Function.update s.count c (s.count c + 1) e =
          tally (isWaiter e) (Function.update s.place i (.released c)) := by
        intro e
        rw [tally_move (isWaiter e) hi]
        rcases eq_or_ne e c with rfl | hne
        · rw [Function.update_self, h.count e]
          simp [isWaiter]
        · rw [Function.update_of_ne hne, h.count e]
          simp [isWaiter, hne.symm]
      refine ⟨give_nonneg h.nonneg _, ?_, ?_, hcount, hle, ?_⟩
      · rw [tally_move isActive hi, total_give]
        simp only [isActive, Bool.toNat_true, Bool.toNat_false]
        omega
      · rw [tally_move isSignaller hi, hnext]
        simp [isSignaller]
      · intro e
        show s.give s.exit (.cv e) ≤ Function.update s.count c (s.count c + 1) e
        rw [hcv e, hcount e]
        omega
  | @waited c hi hpos =>
      have hx : isActive (s.place i) = false ∧ isSignaller (s.place i) = false ∧
          ∀ e, isWaiter e (s.place i) = decide (c = e) := by
        rcases hi with hi | hi
        · rw [hi]
          exact ⟨rfl, rfl, fun _ => rfl⟩
        · rw [hi]
          exact ⟨rfl, rfl, fun _ => rfl⟩
      refine ⟨take_nonneg h.nonneg hpos, ?_, ?_, ?_, ?_, ?_⟩
      · rw [tally_move isActive rfl, total_take, hx.1]
        simp only [isActive, Bool.toNat_true, Bool.toNat_false]
        omega
      · rw [tally_move isSignaller rfl, hx.2.1, hnext]
        simp [isSignaller]
      · intro e
        show Function.update s.count c (s.count c - 1) e =
          (tally (isWaiter e) (Function.update s.place i .active) : Int)
        rw [tally_move (isWaiter e) rfl, hx.2.2 e]
        rcases eq_or_ne e c with rfl | hne
        · rw [Function.update_self, h.count e]
          simp [isWaiter]
        · rw [Function.update_of_ne hne, h.count e]
          simp [isWaiter, hne.symm]
      · show s.take (.cv c) .next ≤ s.nextCount
        rw [take_of_ne s (by simp)]
        exact h.next
      · intro e
        have hcv := h.cv e
        show s.take (.cv c) (.cv e) ≤ Function.update s.count c (s.count c - 1) e
        rcases eq_or_ne e c with rfl | hne
        · rw [take_self, Function.update_self]
          omega
        · rw [take_of_ne s (by simpa using hne), Function.update_of_ne hne]
          exact hcv
  | @signal c hi hpos =>
      have hzero := h.units_of_active hi
      refine ⟨give_nonneg h.nonneg _, ?_, ?_, ?_, ?_, ?_⟩
      · rw [tally_move isActive hi, total_give]
        simp only [isActive, Bool.toNat_true, Bool.toNat_false]
        omega
      · rw [tally_move isSignaller hi, hnext]
        simp [isSignaller]
      · intro e
        rw [tally_move (isWaiter e) hi, h.count e]
        simp [isWaiter]
      · show s.give (.cv c) .next ≤ s.nextCount + 1
        rw [give_of_ne s (by simp), hzero, hnext]
        omega
      · intro e
        show s.give (.cv c) (.cv e) ≤ s.count e
        rcases eq_or_ne e c with rfl | hne
        · rw [give_self, hzero]
          omega
        · rw [give_of_ne s (by simpa using hne)]
          exact h.cv e
  | resume hi hpos =>
      have hx : isActive (s.place i) = false ∧ isSignaller (s.place i) = true ∧
          ∀ e, isWaiter e (s.place i) = false := by
        rcases hi with hi | hi
        · rw [hi]
          exact ⟨rfl, rfl, fun _ => rfl⟩
        · rw [hi]
          exact ⟨rfl, rfl, fun _ => rfl⟩
      have hle := h.next
      refine ⟨take_nonneg h.nonneg hpos, ?_, ?_, ?_, ?_, ?_⟩
      · rw [tally_move isActive rfl, total_take, hx.1]
        simp only [isActive, Bool.toNat_true, Bool.toNat_false]
        omega
      · rw [tally_move isSignaller rfl, hx.2.1, hnext]
        simp [isSignaller]
      · intro e
        rw [tally_move (isWaiter e) rfl, hx.2.2 e, h.count e]
        simp [isWaiter]
      · show s.take .next .next ≤ s.nextCount - 1
        rw [take_self]
        omega
      · intro e
        show s.take .next (.cv e) ≤ s.count e
        rw [take_of_ne s (by simp)]
        exact h.cv e

/-- While the unit is on its way to those that wait for a condition, nobody is inside,
and it is taken by one of them. -/
theorem Kept.inTransit (h : Kept s) {c : γ} (hpos : 0 < s.units (.cv c)) :
    (∀ i, s.place i ≠ .active) ∧ ∀ k, k ≠ .cv c → s.units k = 0 := by
  constructor
  · intro i hi
    rw [h.units_of_active hi] at hpos
    exact absurd hpos (lt_irrefl 0)
  · intro k hne
    have hle := units_add_le_total h.nonneg hne.symm
    have hnonneg := h.nonneg k
    have hone := h.one
    omega

theorem pass_inTransit (h : Kept s) (hpass : Pass s i t) {c : γ} (hpos : 0 < s.units (.cv c)) :
    0 < t.units (.cv c) ∨
      (s.place i = .released c ∨ s.place i = .waiting c) ∧ t.place i = .active := by
  obtain ⟨hnobody, hzero⟩ := h.inTransit hpos
  cases hpass with
  | ask | sleep | suspend => exact Or.inl hpos
  | leave hi | wait hi | signal hi => exact absurd hi (hnobody _)
  | enter _ hunit =>
      rw [hzero .mutex (by simp)] at hunit
      exact absurd hunit (lt_irrefl 0)
  | resume _ hunit =>
      rw [hzero .next (by simp)] at hunit
      exact absurd hunit (lt_irrefl 0)
  | @waited e hi hunit =>
      have hsame : e = c := by
        by_contra hne
        rw [hzero (.cv e) (by simpa using hne)] at hunit
        exact absurd hunit (lt_irrefl 0)
      subst hsame
      exact Or.inr ⟨hi, Function.update_self _ _ _⟩

omit [Fintype ι] [Fintype γ] in
theorem Pass.place_of_ne (h : Pass s i t) {j : ι} (hne : j ≠ i) : t.place j = s.place j := by
  cases h with
  | ask | enter | leave | wait | sleep | waited | signal | suspend | resume =>
      exact Function.update_of_ne hne _ _

omit [Fintype ι] [Fintype γ] in
theorem Pass.leaves_outside (h : Pass s i t) (hi : s.place i = .outside) :
    t.place i ≠ .outside := by
  have hself : ∀ y : Place γ, Function.update s.place i y i = y := fun y => Function.update_self _ _ _
  cases h with
  | ask | enter =>
      simp only [hself]
      simp
  | leave hactive | wait hactive | signal hactive => cases hi.symm.trans hactive
  | sleep hplace | suspend hplace => cases hi.symm.trans hplace
  | waited hplace | resume hplace =>
      rcases hplace with hplace | hplace <;> cases hi.symm.trans hplace

omit [Fintype ι] [Fintype γ] in
/-- Only a signal gives a unit to those that wait for the condition. -/
theorem Pass.cv_units (h : Pass s i t) (c : γ) :
    t.units (.cv c) ≤ s.units (.cv c) ∨ t.place i = .signalled c := by
  have htake : ∀ k, s.take k (.cv c) ≤ s.units (.cv c) := by
    intro k
    rcases eq_or_ne (.cv c) k with rfl | hne
    · rw [take_self]
      omega
    · rw [take_of_ne s hne]
  have hgive : s.give s.exit (.cv c) ≤ s.units (.cv c) := by
    rw [give_of_ne s (exit_ne_cv s c)]
  cases h with
  | ask | sleep | suspend => exact Or.inl le_rfl
  | enter => exact Or.inl (htake .mutex)
  | @waited d => exact Or.inl (htake (.cv d))
  | resume => exact Or.inl (htake .next)
  | leave | wait => exact Or.inl hgive
  | @signal d =>
      rcases eq_or_ne c d with rfl | hne
      · exact Or.inr (Function.update_self _ _ _)
      · refine Or.inl ?_
        show s.give (.cv d) (.cv c) ≤ _
        rw [give_of_ne s (by simpa using hne)]

/-- While a process has signalled, the monitor is left to it and not to those that enter. -/
theorem pass_closed (h : Kept s) (hclosed : 0 < s.units .mutex → s.nextCount = 0)
    (hpass : Pass s i t) : 0 < t.units .mutex → t.nextCount = 0 := by
  have hexit : s.place i = .active → 0 < s.give s.exit .mutex → s.nextCount = 0 := by
    intro hi hpos
    rw [Tokens.exit] at hpos
    split at hpos
    · rw [give_of_ne s (by simp), h.units_of_active hi] at hpos
      exact absurd hpos (lt_irrefl 0)
    · have hcount := h.nextCount
      omega
  cases hpass with
  | ask | sleep | suspend => exact hclosed
  | leave hi | wait hi => exact hexit hi
  | enter _ hunit =>
      intro hpos
      exact hclosed hunit
  | @waited c =>
      intro hpos
      change 0 < s.take (.cv c) .mutex at hpos
      rw [take_of_ne s (by simp)] at hpos
      exact hclosed hpos
  | @signal c hi =>
      intro hpos
      change 0 < s.give (.cv c) .mutex at hpos
      rw [give_of_ne s (by simp), h.units_of_active hi] at hpos
      exact absurd hpos (lt_irrefl 0)
  | resume _ hunit =>
      intro hpos
      change 0 < s.take .next .mutex at hpos
      rw [take_of_ne s (by simp)] at hpos
      have hle := units_add_le_total h.nonneg (show Key.next ≠ Key.mutex by simp)
      have hone := h.one
      omega

end Steps

end Ucore.MonitorTokens
