import Ucore.Philosophers
import Ucore.SemaphoreUnits

/-!
The philosophers of `check_sync.c` that use semaphores. A philosopher may be preempted
anywhere, which is more than the kernel lets happen: it runs its own code until it sleeps.
-/

namespace Ucore.PhilosophersSema

open Relation
open Ucore.Errors
open Ucore.Panic
open Ucore.KernelRoutine
open Ucore.Interleaving
open Ucore.Processes (ProcState)
open Ucore.WaitQueues
open Ucore.Semaphores
open Ucore.SemaphoreUnits
open Ucore.Philosophers

/-- The semaphores `mutex` and `s`. -/
inductive Fork (N : Nat) where
  | mutex
  | s (i : Fin N)
  deriving DecidableEq

structure Table (N : Nat) where
  kernel : Kernel (Fin N) (Fork N)
  stateSema : Fin N → Mood

/-- Where a philosopher is: outside of the procedures, in `phi_take_forks_sema` up to
`waiting`, in `phi_put_forks_sema`, or in one of the calls of `phi_test_sema`. It is in
`down` when it is `taking`, `waiting` or `putting`. -/
inductive Stage where
  | thinking
  | taking
  | took
  | testing (w : Which)
  | passed (w : Which)
  | fed (w : Which)
  | lifting
  | asking
  | waiting
  | eating
  | putting
  | put
  | leaving
  deriving DecidableEq

abbrev At (N : Nat) := Stage × Pc (Fork N)

variable {N : Nat} {α : Type}

section Procedures

def onKernel : Routine (Kernel (Fin N) (Fork N)) α → Routine (Table N) α :=
  onPart Table.kernel fun kernel s => { s with kernel := kernel }

def setState (i : Fin N) (mood : Mood) : Routine (Table N) Unit :=
  modifyState fun s => { s with stateSema := Function.update s.stateSema i mood }

/-- What comes after a call of `phi_test_sema`. -/
def tested : Which → Stage
  | .own => .lifting
  | .left => .testing .right
  | .right => .leaving

/-- What a philosopher does next. -/
def advance (i : Fin N) : Stage → Routine (Table N) (At N)
  | .thinking => do
      let waits ← onKernel (down i .mutex)
      return if waits then (.taking, .down .mutex) else (.took, .running)
  | .taking => do
      onKernel (downed i .mutex)
      return (.took, .running)
  | .took => do
      setState i .hungry
      return (.testing .own, .running)
  | .testing w => do
      let s ← getState
      return (if mayEat s.stateSema (w.target i) then .passed w else tested w, .running)
  | .passed w => do
      setState (w.target i) .eating
      return (.fed w, .running)
  | .fed w => do
      onKernel (up (.s (w.target i)))
      return (tested w, .running)
  | .lifting => do
      onKernel (up .mutex)
      return (.asking, .running)
  | .asking => do
      let waits ← onKernel (down i (.s i))
      return if waits then (.waiting, .down (.s i)) else (.eating, .running)
  | .waiting => do
      onKernel (downed i (.s i))
      return (.eating, .running)
  | .eating => do
      let waits ← onKernel (down i .mutex)
      return if waits then (.putting, .down .mutex) else (.put, .running)
  | .putting => do
      onKernel (downed i .mutex)
      return (.put, .running)
  | .put => do
      setState i .thinking
      return (.testing .left, .running)
  | .leaving => do
      onKernel (up .mutex)
      return (.thinking, .running)

end Procedures

section Steps

abbrev System (N : Nat) := Threads (Fin N) (Table N) (At N)

/-- The philosopher is in none of the procedures. -/
def Stage.free : Stage → Bool
  | .thinking => true
  | .eating => true
  | _ => false

/-- A philosopher goes on, does something else where it thinks or eats, is started, or
something happens to those that wait. -/
inductive Step : System N → System N → Prop
  | advance {s : System N} {i : Fin N} {x : At N} {t : Table N} :
      (Stage.free (s.pc i).1 = true → (s.pc i).2 = .running) →
      s.shared.kernel.state i = .runnable →
      advance i (s.pc i).1 s.shared = .ok (.ok x, t) →
        Step s { shared := t, pc := Function.update s.pc i x }
  | start {s : System N} {i : Fin N} {stage : Stage} {call : Call (Fin N) (Fork N)}
      {pc : Pc (Fork N)} {t : Table N} :
      s.pc i = (stage, .running) → Stage.free stage = true → Apart call →
      s.shared.kernel.state i = .runnable → onKernel (start i call) s.shared = .ok (.ok pc, t) →
        Step s { shared := t, pc := Function.update s.pc i (stage, pc) }
  | resume {s : System N} {i : Fin N} {stage : Stage} {pc pc' : Pc (Fork N)} {t : Table N} :
      s.pc i = (stage, pc) → Stage.free stage = true → s.shared.kernel.state i = .runnable →
      onKernel (resume i pc) s.shared = .ok (.ok pc', t) →
        Step s { shared := t, pc := Function.update s.pc i (stage, pc') }
  | born {s : System N} {i : Fin N} {t : Table N} :
      s.pc i = (.thinking, .unborn) → onKernel (wakeupProc i) s.shared = .ok (.ok (), t) →
        Step s { shared := t, pc := Function.update s.pc i (.thinking, .running) }
  | occur {s : System N} {event : Event (Fin N)} {r : Except Errno Unit} {t : Table N} :
      onKernel (occur event) s.shared = .ok (r, t) → Step s { s with shared := t }

def initial : Fork N → Int
  | .mutex => 1
  | .s _ => 0

/-- `check_sync` has initialised the semaphores, and the philosophers think. -/
structure Starts (s : System N) : Prop where
  threads : WaitQueues.Starts initial ⟨s.shared.kernel, fun i => (s.pc i).2⟩
  stage : ∀ i, (s.pc i).1 = .thinking
  stateSema : ∀ i, s.shared.stateSema i = .thinking

end Steps

section Invariant

/-- Where the philosopher holds `mutex`. -/
def isInside : Stage → Bool
  | .took => true
  | .testing _ => true
  | .passed _ => true
  | .fed _ => true
  | .lifting => true
  | .put => true
  | .leaving => true
  | _ => false

/-- `state_sema` of a philosopher at this stage. -/
def Expects : Stage → Mood → Prop
  | .testing .own, mood => mood ≠ .thinking
  | .passed .own, mood => mood ≠ .thinking
  | .fed .own, mood => mood ≠ .thinking
  | .lifting, mood => mood ≠ .thinking
  | .asking, mood => mood ≠ .thinking
  | .waiting, mood => mood ≠ .thinking
  | .eating, mood => mood = .eating
  | .putting, mood => mood = .eating
  | .put, mood => mood = .eating
  | _, mood => mood = .thinking

/-- The philosopher asks for its forks, or is about to. -/
def Served : Stage → Prop
  | .lifting => True
  | .asking => True
  | .waiting => True
  | _ => False

/-- Whom the philosopher `i` still has to test. -/
def Pends : Stage → Fin N → Fin N → Prop
  | .testing w, i, j => w.Pending i j
  | .passed w, i, j => w.Pending i j
  | .fed w, i, j => w.Later i j
  | _, _, _ => False

/-- The stage that goes with where the philosopher sleeps. -/
def Agrees (i : Fin N) : At N → Prop
  | (.thinking, pc) => ∀ k, pc ≠ .down k
  | (.eating, pc) => ∀ k, pc ≠ .down k
  | (.taking, pc) => pc = .down .mutex
  | (.putting, pc) => pc = .down .mutex
  | (.waiting, pc) => pc = .down (.s i)
  | (_, pc) => pc = .running

/-- What there is to say of the philosophers, without the kernel. -/
structure Ring (N : Nat) where
  stage : Fin N → Stage
  units : Fork N → Int
  state : Fin N → Mood

/-- One philosopher at most is inside. One that eats without knowing it has a unit of its
semaphore, or is about to be given one. -/
structure Kept (s : Ring N) : Prop where
  mutex : s.units .mutex + tally isInside s.stage = 1
  unit : ∀ i, s.units (.s i) ≤ 1
  served : ∀ i, 0 < s.units (.s i) → s.state i = .eating ∧ Served (s.stage i)
  fed : ∀ i w, s.stage i = .fed w → s.units (.s (w.target i)) ≤ 0 ∧
    s.state (w.target i) = .eating ∧ (w = .own ∨ Served (s.stage (w.target i)))
  passed : ∀ i w, s.stage i = .passed w → mayEat s.state (w.target i)
  moods : ∀ i, Expects (s.stage i) (s.state i)
  exclusive : Exclusive s.state
  settled : ∀ j, mayEat s.state j → ∃ i, Pends (s.stage i) i j

variable {s : Ring N} {i j : Fin N} {x : Stage} {u : Fork N → Int}

/-- Only one philosopher is inside. -/
theorem Kept.inside_unique (h : Kept s) (hnonneg : 0 ≤ s.units .mutex)
    (hi : isInside (s.stage i) = true) (hj : isInside (s.stage j) = true) : j = i := by
  by_contra hne
  have htwo := two_le_tally hi hj hne
  have hmutex := h.mutex
  omega

theorem inside_of_pends {stage : Stage} (h : Pends stage i j) : isInside stage = true := by
  cases stage with
  | testing | passed | fed => rfl
  | thinking | taking | took | lifting | asking | waiting | eating | putting | put | leaving =>
      exact absurd h id

theorem tally_inside (s : Ring N) (i : Fin N) (x : Stage) :
    (tally isInside (Function.update s.stage i x) : Int) =
      tally isInside s.stage + (isInside x).toNat - (isInside (s.stage i)).toNat := by
  have hmove := tally_update isInside s.stage i x
  cases hx : isInside x with
  | false =>
      cases hold : isInside (s.stage i) with
      | false => simp [hx, hold] at hmove ⊢; omega
      | true => simp [hx, hold] at hmove ⊢; omega
  | true =>
      cases hold : isInside (s.stage i) with
      | false => simp [hx, hold] at hmove ⊢; omega
      | true => simp [hx, hold] at hmove ⊢; omega

/-- A philosopher goes on without writing `state_sema`, and gives nobody a unit. -/
theorem Kept.moved (h : Kept s)
    (hmutex : u .mutex + (isInside x).toNat = s.units .mutex + (isInside (s.stage i)).toNat)
    (hunits : ∀ k, u (.s k) ≤ s.units (.s k)) (hexpects : Expects x (s.state i))
    (hserved : Served (s.stage i) → Served x ∨ 0 < s.units (.s i) ∧ u (.s i) = s.units (.s i) - 1)
    (hfed : ∀ w, x ≠ .fed w) (hpassed : ∀ w, x = .passed w → mayEat s.state (w.target i))
    (hpends : ∀ j, mayEat s.state j → Pends (s.stage i) i j → Pends x i j) :
    Kept { s with
      stage := Function.update s.stage i x
      units := u } := by
  have hother : ∀ j, j ≠ i → Function.update s.stage i x j = s.stage j :=
    fun j hne => Function.update_of_ne hne _ _
  have hself : Function.update s.stage i x i = x := Function.update_self _ _ _
  refine ⟨?_, ?_, ?_, ?_, ?_, ?_, h.exclusive, ?_⟩
  · have hone := h.mutex
    show u .mutex + (tally isInside (Function.update s.stage i x) : Int) = 1
    rw [tally_inside]
    omega
  · exact fun k => (hunits k).trans (h.unit k)
  · intro j hpos
    have hle := hunits j
    obtain ⟨heating, hold⟩ := h.served j (lt_of_lt_of_le hpos hle)
    refine ⟨heating, ?_⟩
    show Served (Function.update s.stage i x j)
    rcases eq_or_ne j i with rfl | hne
    · rw [hself]
      rcases hserved hold with hstill | ⟨_, htaken⟩
      · exact hstill
      · have hone := h.unit j
        change 0 < u (.s j) at hpos
        omega
    · rwa [hother j hne]
  · intro j w hj
    have hne : j ≠ i := by
      rintro rfl
      exact hfed w (hself.symm.trans hj)
    have hj' : s.stage j = .fed w := (hother j hne).symm.trans hj
    obtain ⟨hzero, heating, hold⟩ := h.fed j w hj'
    refine ⟨(hunits _).trans hzero, heating, hold.imp id ?_⟩
    intro hold
    show Served (Function.update s.stage i x (w.target j))
    rcases eq_or_ne (w.target j) i with heq | hother'
    · rw [heq, hself]
      rw [heq] at hold hzero
      rcases hserved hold with hstill | ⟨hpos, _⟩
      · exact hstill
      · omega
    · rwa [hother _ hother']
  · intro j w hj
    rcases eq_or_ne j i with rfl | hne
    · exact hpassed w (hself.symm.trans hj)
    · exact h.passed j w ((hother j hne).symm.trans hj)
  · intro j
    show Expects (Function.update s.stage i x j) (s.state j)
    rcases eq_or_ne j i with rfl | hne
    · rwa [hself]
    · rw [hother j hne]
      exact h.moods j
  · intro j hmay
    obtain ⟨p, hp⟩ := h.settled j hmay
    refine ⟨p, ?_⟩
    show Pends (Function.update s.stage i x p) p j
    rcases eq_or_ne p i with rfl | hne
    · rw [hself]
      exact hpends j hmay hp
    · rwa [hother p hne]

/-- The philosopher inside writes `state_sema`. -/
theorem Kept.wrote (h : Kept s) (hnonneg : 0 ≤ s.units .mutex) {state : Fin N → Mood}
    (hinside : isInside (s.stage i) = true)
    (hx : isInside x = true) (hexclusive : Exclusive state)
    (hexpects : Expects x (state i)) (hmoods : ∀ j, j ≠ i → Expects (s.stage j) (state j))
    (hserved : ∀ j, 0 < s.units (.s j) → j ≠ i ∧ state j = .eating)
    (hfed : ∀ w, x = .fed w → s.units (.s (w.target i)) ≤ 0 ∧ state (w.target i) = .eating ∧
      (w = .own ∨ w.target i ≠ i ∧ Served (s.stage (w.target i))))
    (hpassed : ∀ w, x ≠ .passed w) (hpends : ∀ j, mayEat state j → Pends x i j) :
    Kept { s with
      stage := Function.update s.stage i x
      state := state } := by
  have hother : ∀ j, j ≠ i → Function.update s.stage i x j = s.stage j :=
    fun j hne => Function.update_of_ne hne _ _
  have hself : Function.update s.stage i x i = x := Function.update_self _ _ _
  -- all that are not inside are in none of the calls of `phi_test_sema`
  have honly : ∀ j y, Function.update s.stage i x j = y → isInside y = true → j = i := by
    intro j y hj hy
    by_contra hne
    rw [hother j hne] at hj
    exact hne (h.inside_unique hnonneg hinside (by rw [hj]; exact hy))
  refine ⟨?_, h.unit, ?_, ?_, ?_, ?_, hexclusive, ?_⟩
  · have hone := h.mutex
    show s.units .mutex + (tally isInside (Function.update s.stage i x) : Int) = 1
    rw [tally_inside, hx, hinside]
    omega
  · intro j hpos
    obtain ⟨hne, heating⟩ := hserved j hpos
    refine ⟨heating, ?_⟩
    show Served (Function.update s.stage i x j)
    rw [hother j hne]
    exact (h.served j hpos).2
  · intro j w hj
    obtain rfl := honly j _ hj rfl
    obtain ⟨hzero, heating, hold⟩ := hfed w (hself.symm.trans hj)
    refine ⟨hzero, heating, hold.imp id ?_⟩
    rintro ⟨hne, hold⟩
    show Served (Function.update s.stage j x (w.target j))
    rwa [hother _ hne]
  · intro j w hj
    obtain rfl := honly j _ hj rfl
    exact absurd (hself.symm.trans hj) (hpassed w)
  · intro j
    show Expects (Function.update s.stage i x j) (state j)
    rcases eq_or_ne j i with rfl | hne
    · rwa [hself]
    · rw [hother j hne]
      exact hmoods j hne
  · intro j hmay
    refine ⟨i, ?_⟩
    show Pends (Function.update s.stage i x i) i j
    rw [hself]
    exact hpends j hmay

theorem Kept.hungry (h : Kept s) (hnonneg : 0 ≤ s.units .mutex) (hi : s.stage i = .took) :
    Kept { s with
      stage := Function.update s.stage i (.testing .own)
      state := Function.update s.state i .hungry } := by
  have hthinking : s.state i = .thinking := by
    have hmood := h.moods i
    rwa [hi] at hmood
  have hnot : s.state i ≠ .eating := by simp [hthinking]
  have hinside : isInside (s.stage i) = true := by rw [hi]; rfl
  refine h.wrote hnonneg hinside rfl (exclusive_update h.exclusive (by simp)) ?_ ?_ ?_ (by simp)
    (by simp) ?_
  · rw [Function.update_self]
    simp [Expects]
  · intro j hne
    rw [Function.update_of_ne hne]
    exact h.moods j
  · intro j hpos
    have heating := (h.served j hpos).1
    have hne : j ≠ i := by
      rintro rfl
      exact hnot heating
    exact ⟨hne, by rwa [Function.update_of_ne hne]⟩
  · intro j hmay
    rcases mayEat_hungry hnot hmay with hold | hsame
    · obtain ⟨p, hp⟩ := h.settled j hold
      obtain rfl := h.inside_unique hnonneg hinside (inside_of_pends hp)
      rw [hi] at hp
      exact absurd hp id
    · exact hsame

theorem Kept.finished (h : Kept s) (hnonneg : 0 ≤ s.units .mutex) (hi : s.stage i = .put) :
    Kept { s with
      stage := Function.update s.stage i (.testing .left)
      state := Function.update s.state i .thinking } := by
  have hinside : isInside (s.stage i) = true := by rw [hi]; rfl
  refine h.wrote hnonneg hinside rfl (exclusive_update h.exclusive (by simp)) ?_ ?_ ?_ (by simp)
    (by simp) ?_
  · exact Function.update_self _ _ _
  · intro j hne
    rw [Function.update_of_ne hne]
    exact h.moods j
  · intro j hpos
    obtain ⟨heating, hserved⟩ := h.served j hpos
    have hne : j ≠ i := by
      rintro rfl
      rw [hi] at hserved
      exact hserved
    exact ⟨hne, by rwa [Function.update_of_ne hne]⟩
  · intro j hmay
    rcases mayEat_thinking hmay with hold | hnext
    · obtain ⟨p, hp⟩ := h.settled j hold
      obtain rfl := h.inside_unique hnonneg hinside (inside_of_pends hp)
      rw [hi] at hp
      exact absurd hp id
    · exact hnext

theorem served_of_hungry (h : Expects x .hungry) (hout : isInside x = false) : Served x := by
  cases x with
  | asking | waiting => trivial
  | thinking | taking | eating | putting => cases h
  | took | testing | passed | fed | lifting | put | leaving => cases hout

theorem expects_eating (h : Expects x .hungry) : Expects x .eating := by
  cases x with
  | asking | waiting | lifting => simp [Expects]
  | testing w | passed w | fed w =>
      cases w with
      | own => simp [Expects]
      | left | right => cases h
  | thinking | taking | took | eating | putting | put | leaving => cases h

theorem Kept.fed_of_passed (hN : 2 ≤ N) (h : Kept s) (hnonneg : 0 ≤ s.units .mutex) {w : Which}
    (hi : s.stage i = .passed w) :
    Kept { s with
      stage := Function.update s.stage i (.fed w)
      state := Function.update s.state (w.target i) .eating } := by
  have hmay := h.passed i w hi
  have hhungry := hmay.1
  have hinside : isInside (s.stage i) = true := by rw [hi]; rfl
  have hmood := h.moods i
  rw [hi] at hmood
  have hzero : s.units (.s (w.target i)) ≤ 0 := by
    by_contra hpos
    have heating := (h.served _ (not_le.mp hpos)).1
    rw [hhungry] at heating
    cases heating
  refine h.wrote hnonneg hinside rfl (exclusive_eating hN h.exclusive hmay) ?_ ?_ ?_ ?_ (by simp) ?_
  · cases w with
    | own =>
        show Function.update s.state i .eating i ≠ .thinking
        rw [Function.update_self]
        simp
    | left =>
        rw [Function.update_of_ne (Which.target_ne hN (by simp) i).symm]
        exact hmood
    | right =>
        rw [Function.update_of_ne (Which.target_ne hN (by simp) i).symm]
        exact hmood
  · intro j hne
    have hmoodj := h.moods j
    rcases eq_or_ne j (w.target i) with heq | hother
    · rw [heq, Function.update_self]
      rw [heq, hhungry] at hmoodj
      exact expects_eating hmoodj
    · rwa [Function.update_of_ne hother]
  · intro j hpos
    obtain ⟨heating, hserved⟩ := h.served j hpos
    refine ⟨?_, ?_⟩
    · rintro rfl
      rw [hi] at hserved
      exact hserved
    · rcases eq_or_ne j (w.target i) with rfl | hother
      · exact Function.update_self _ _ _
      · rwa [Function.update_of_ne hother]
  · rintro _ ⟨⟩
    refine ⟨hzero, Function.update_self _ _ _, ?_⟩
    rcases eq_or_ne w .own with hown | hne
    · exact Or.inl hown
    · have htarget := Which.target_ne hN hne i
      have hmoodt := h.moods (w.target i)
      rw [hhungry] at hmoodt
      refine Or.inr ⟨htarget, served_of_hungry hmoodt ?_⟩
      rw [← Bool.not_eq_true]
      exact fun hboth => htarget (h.inside_unique hnonneg hinside hboth)
  · intro j hj
    obtain ⟨hold, hne⟩ := mayEat_eating hj
    obtain ⟨p, hp⟩ := h.settled j hold
    obtain rfl := h.inside_unique hnonneg hinside (inside_of_pends hp)
    rw [hi] at hp
    exact Which.later_of_pending hp hne

/-- `up` after the forks were granted. -/
theorem Kept.granted (h : Kept s) (hnonneg : 0 ≤ s.units .mutex) {w : Which}
    (hi : s.stage i = .fed w) :
    Kept { s with
      stage := Function.update s.stage i (tested w)
      units := Function.update s.units (.s (w.target i)) (s.units (.s (w.target i)) + 1) } := by
  obtain ⟨hzero, heating, hserved⟩ := h.fed i w hi
  have hinside : isInside (s.stage i) = true := by rw [hi]; rfl
  have hx : isInside (tested w) = true := by
    cases w with
    | own | left | right => rfl
  have hother : ∀ j, j ≠ i → Function.update s.stage i (tested w) j = s.stage j :=
    fun j hne => Function.update_of_ne hne _ _
  have hself : Function.update s.stage i (tested w) i = tested w := Function.update_self _ _ _
  have honly : ∀ j y, Function.update s.stage i (tested w) j = y → isInside y = true → j = i := by
    intro j y hj hy
    by_contra hne
    rw [hother j hne] at hj
    exact hne (h.inside_unique hnonneg hinside (by rw [hj]; exact hy))
  have hunits : ∀ k, k ≠ w.target i → Function.update s.units (.s (w.target i))
      (s.units (.s (w.target i)) + 1) (.s k) = s.units (.s k) := by
    intro k hne
    exact Function.update_of_ne (by simpa using hne) _ _
  have hkeeps : ∀ j, Served (s.stage j) → Served (Function.update s.stage i (tested w) j) := by
    intro j hold
    have hne : j ≠ i := by
      rintro rfl
      rw [hi] at hold
      exact hold
    rwa [hother j hne]
  refine ⟨?_, ?_, ?_, ?_, ?_, ?_, h.exclusive, ?_⟩
  · have hone := h.mutex
    show Function.update s.units (.s (w.target i)) (s.units (.s (w.target i)) + 1) .mutex +
      (tally isInside (Function.update s.stage i (tested w)) : Int) = 1
    rw [Function.update_of_ne (by simp), tally_inside, hx, hinside]
    omega
  · intro k
    show Function.update s.units (.s (w.target i)) (s.units (.s (w.target i)) + 1) (.s k) ≤ 1
    rcases eq_or_ne k (w.target i) with rfl | hne
    · rw [Function.update_self]
      omega
    · rw [hunits k hne]
      exact h.unit k
  · intro j hpos
    change 0 < Function.update s.units (.s (w.target i)) (s.units (.s (w.target i)) + 1) (.s j) at hpos
    rcases eq_or_ne j (w.target i) with rfl | hne
    · refine ⟨heating, ?_⟩
      rcases hserved with rfl | hold
      · show Served (Function.update s.stage i (tested .own) i)
        rw [hself]
        trivial
      · exact hkeeps _ hold
    · rw [hunits j hne] at hpos
      exact ⟨(h.served j hpos).1, hkeeps j (h.served j hpos).2⟩
  · intro j v hj
    obtain rfl := honly j _ hj rfl
    cases w with
    | own | left | right => cases hself.symm.trans hj
  · intro j v hj
    obtain rfl := honly j _ hj rfl
    cases w with
    | own | left | right => cases hself.symm.trans hj
  · intro j
    show Expects (Function.update s.stage i (tested w) j) (s.state j)
    have hmood := h.moods j
    rcases eq_or_ne j i with rfl | hne
    · rw [hself]
      rw [hi] at hmood
      cases w with
      | own | left | right => exact hmood
    · rwa [hother j hne]
  · intro j hmay
    obtain ⟨p, hp⟩ := h.settled j hmay
    obtain rfl := h.inside_unique hnonneg hinside (inside_of_pends hp)
    refine ⟨p, ?_⟩
    show Pends (Function.update s.stage p (tested w) p) p j
    rw [hself]
    rw [hi] at hp
    cases w with
    | own | right => exact absurd hp id
    | left => exact hp

theorem Kept.entered (h : Kept s)
    (hx : (s.stage i = .thinking ∨ s.stage i = .taking) ∧ x = .took ∨
      (s.stage i = .eating ∨ s.stage i = .putting) ∧ x = .put) :
    Kept { s with
      stage := Function.update s.stage i x
      units := Function.update s.units .mutex (s.units .mutex - 1) } := by
  have hmood := h.moods i
  have hpast : ¬Served (s.stage i) ∧ isInside (s.stage i) = false ∧ isInside x = true ∧
      Expects x (s.state i) ∧ ∀ j, ¬Pends (s.stage i) i j := by
    rcases hx with ⟨hi | hi, rfl⟩ | ⟨hi | hi, rfl⟩
    all_goals
      rw [hi] at hmood ⊢
      exact ⟨id, rfl, rfl, hmood, fun _ => id⟩
  obtain ⟨hserved, hout, hin, hexpects, hpends⟩ := hpast
  have hnot : (∀ w, x ≠ .fed w) ∧ ∀ w, x ≠ .passed w := by
    rcases hx with ⟨_, rfl⟩ | ⟨_, rfl⟩
    all_goals exact ⟨by simp, by simp⟩
  refine h.moved ?_ ?_ hexpects (fun hold => absurd hold hserved) hnot.1
    (fun w hw => absurd hw (hnot.2 w)) fun j _ hold => absurd hold (hpends j)
  · rw [Function.update_self, hin, hout]
    simp
  · intro k
    rw [Function.update_of_ne (by simp)]

theorem Kept.left (h : Kept s)
    (hx : s.stage i = .lifting ∧ x = .asking ∨ s.stage i = .leaving ∧ x = .thinking) :
    Kept { s with
      stage := Function.update s.stage i x
      units := Function.update s.units .mutex (s.units .mutex + 1) } := by
  have hmood := h.moods i
  have hpast : (Served (s.stage i) → Served x) ∧ isInside (s.stage i) = true ∧
      isInside x = false ∧ Expects x (s.state i) ∧ ∀ j, ¬Pends (s.stage i) i j := by
    rcases hx with ⟨hi, rfl⟩ | ⟨hi, rfl⟩
    all_goals
      rw [hi] at hmood ⊢
      exact ⟨id, rfl, rfl, hmood, fun _ => id⟩
  obtain ⟨hserved, hin, hout, hexpects, hpends⟩ := hpast
  have hnot : (∀ w, x ≠ .fed w) ∧ ∀ w, x ≠ .passed w := by
    rcases hx with ⟨_, rfl⟩ | ⟨_, rfl⟩
    all_goals exact ⟨by simp, by simp⟩
  refine h.moved ?_ ?_ hexpects (fun hold => Or.inl (hserved hold)) hnot.1
    (fun w hw => absurd hw (hnot.2 w)) fun j _ hold => absurd hold (hpends j)
  · rw [Function.update_self, hin, hout]
    simp
  · intro k
    rw [Function.update_of_ne (by simp)]

/-- The philosopher has its forks. -/
theorem Kept.eats (h : Kept s) (hi : s.stage i = .asking ∨ s.stage i = .waiting)
    (hpos : 0 < s.units (.s i)) :
    Kept { s with
      stage := Function.update s.stage i .eating
      units := Function.update s.units (.s i) (s.units (.s i) - 1) } := by
  have hout : isInside (s.stage i) = false ∧ ∀ j, ¬Pends (s.stage i) i j := by
    rcases hi with hi | hi
    all_goals
      rw [hi]
      exact ⟨rfl, fun _ => id⟩
  refine h.moved ?_ ?_ (h.served i hpos).1 ?_ (by simp) (by simp)
    fun j _ hold => absurd hold (hout.2 j)
  · rw [Function.update_of_ne (by simp), hout.1]
    rfl
  · intro k
    rcases eq_or_ne k i with rfl | hne
    · rw [Function.update_self]
      omega
    · rw [Function.update_of_ne (by simpa using hne)]
  · exact fun _ => Or.inr ⟨hpos, Function.update_self _ _ _⟩

/-- A philosopher goes to sleep. -/
theorem Kept.sleeps (h : Kept s)
    (hx : s.stage i = .thinking ∧ x = .taking ∨ s.stage i = .eating ∧ x = .putting ∨
      s.stage i = .asking ∧ x = .waiting) :
    Kept { s with stage := Function.update s.stage i x } := by
  have hmood := h.moods i
  have hpast : (Served (s.stage i) → Served x) ∧ isInside (s.stage i) = isInside x ∧
      Expects x (s.state i) ∧ ∀ j, ¬Pends (s.stage i) i j := by
    rcases hx with ⟨hi, rfl⟩ | ⟨hi, rfl⟩ | ⟨hi, rfl⟩
    all_goals
      rw [hi] at hmood ⊢
      exact ⟨id, rfl, hmood, fun _ => id⟩
  obtain ⟨hserved, hsame, hexpects, hpends⟩ := hpast
  have hnot : (∀ w, x ≠ .fed w) ∧ ∀ w, x ≠ .passed w := by
    rcases hx with ⟨_, rfl⟩ | ⟨_, rfl⟩ | ⟨_, rfl⟩
    all_goals exact ⟨by simp, by simp⟩
  exact h.moved (by rw [hsame]) (fun _ => le_rfl) hexpects (fun hold => Or.inl (hserved hold))
    hnot.1 (fun w hw => absurd hw (hnot.2 w)) fun j _ hold => absurd hold (hpends j)

/-- The condition of `phi_test_sema` has been looked at. -/
theorem Kept.looked (h : Kept s) {w : Which} (hi : s.stage i = .testing w) :
    Kept { s with
      stage := Function.update s.stage i
        (if mayEat s.state (w.target i) then .passed w else tested w) } := by
  have hmood := h.moods i
  rw [hi] at hmood
  rcases Decidable.em (mayEat s.state (w.target i)) with hmay | hnot
  · rw [if_pos hmay]
    refine h.moved ?_ (fun _ => le_rfl) ?_ ?_ (by simp) ?_ ?_
    · rw [hi]
      rfl
    · cases w with
      | own | left | right => exact hmood
    · rw [hi]
      exact fun hold => absurd hold id
    · rintro _ ⟨⟩
      exact hmay
    · rw [hi]
      exact fun _ _ hold => hold
  · rw [if_neg hnot]
    refine h.moved ?_ (fun _ => le_rfl) ?_ ?_ ?_ ?_ ?_
    · rw [hi]
      cases w with
      | own | left | right => rfl
    · cases w with
      | own | left | right => exact hmood
    · rw [hi]
      exact fun hold => absurd hold id
    · cases w with
      | own | left | right => exact fun _ hfed => nomatch hfed
    · cases w with
      | own | left | right => exact fun _ hpassed => nomatch hpassed
    · intro j hmay hold
      rw [hi] at hold
      have hne : j ≠ w.target i := by
        rintro rfl
        exact hnot hmay
      have hlater := Which.later_of_pending hold hne
      cases w with
      | own | right => exact absurd hlater id
      | left => exact hlater

end Invariant

section Refinement

def System.ring (s : System N) : Ring N where
  stage := fun i => (s.pc i).1
  units := SemaphoreUnits.units s.shared.kernel fun i => (s.pc i).2
  state := s.shared.stateSema

structure Sound (s : System N) : Prop where
  threads : Semaphores.Sound initial s.shared.kernel fun i => (s.pc i).2
  agrees : ∀ i, Agrees i (s.pc i)
  kept : Kept s.ring

variable {s s' : System N} {i j : Fin N} {t : Table N}

theorem onKernel_of {x : Routine (Kernel (Fin N) (Fork N)) α} {r : Except Errno α}
    {kernel : Kernel (Fin N) (Fork N)} (h : x t.kernel = .ok (r, kernel)) :
    onKernel x t = .ok (r, { t with kernel := kernel }) :=
  onPart_of h

theorem Sound.nonneg (h : Sound s) (k : Fork N) : 0 ≤ s.ring.units k :=
  le_trans (h.threads.counted.nonneg k) (value_le_units h.threads.placed k)

/-- What is to be shown of a step of one philosopher. -/
theorem sound_of (h : Sound s) {x : At N} (hx : Agrees i x)
    (hthreads : Semaphores.Sound initial t.kernel
      (Function.update (fun j => (s.pc j).2) i x.2)) {u : Fork N → Int}
    (hunits : units t.kernel (Function.update (fun j => (s.pc j).2) i x.2) = u)
    (hkept : Kept ⟨Function.update s.ring.stage i x.1, u, t.stateSema⟩) :
    Sound { shared := t, pc := Function.update s.pc i x } := by
  have hpcs : (fun j => (Function.update s.pc i x j).2) =
      Function.update (fun j => (s.pc j).2) i x.2 := Function.comp_update Prod.snd s.pc i x
  have hstages : (fun j => (Function.update s.pc i x j).1) =
      Function.update s.ring.stage i x.1 := Function.comp_update Prod.fst s.pc i x
  refine ⟨?_, ?_, ?_⟩
  · show Semaphores.Sound initial t.kernel fun j => (Function.update s.pc i x j).2
    rwa [hpcs]
  · intro j
    show Agrees j (Function.update s.pc i x j)
    rcases eq_or_ne j i with rfl | hne
    · rwa [Function.update_self]
    · rw [Function.update_of_ne hne]
      exact h.agrees j
  · rw [System.ring, hpcs, hstages, hunits]
    exact hkept

/-- `down` when the philosopher has come to it: what is left of it, and the ways on. -/
theorem sound_down (h : Sound s) (hrun : (s.pc i).2 = .running) {k : Fork N} {asleep : Stage}
    {awake : Stage} (hasleep : Agrees i (asleep, .down k)) (hawake : Agrees i (awake, .running))
    (hqueued : Kept { s.ring with stage := Function.update s.ring.stage i asleep })
    (htaken : 0 < s.ring.units k → Kept { s.ring with
      stage := Function.update s.ring.stage i awake
      units := Function.update s.ring.units k (s.ring.units k - 1) })
    {x : At N} (hdown : (do
      let waits ← onKernel (down i k)
      return if waits then (asleep, Pc.down k) else (awake, Pc.running)) s.shared =
        .ok (.ok x, t)) :
    Sound { shared := t, pc := Function.update s.pc i x } := by
  have hrun' : (fun j => (s.pc j).2) i = .running := hrun
  have hstay := update_running (f := fun j => (s.pc j).2) hrun
  obtain ⟨waits, kernel, hkernel, hsound, hacquired⟩ := down_of h.threads hrun' k
  rw [bind_of_ok (onKernel_of hkernel)] at hdown
  cases waits with
  | true =>
      cases hdown
      exact sound_of h hasleep hsound (units_queued hacquired hrun') hqueued
  | false =>
      have hpos : 0 < s.ring.units k := by
        cases hacquired with
        | taken hpos _ _ => exact lt_of_lt_of_le hpos (value_le_units h.threads.placed _)
      cases hdown
      refine sound_of h hawake hsound ?_ (htaken hpos)
      show units kernel (Function.update (fun j => (s.pc j).2) i .running) = _
      rw [hstay]
      exact units_taken hacquired

/-- `down` when the philosopher has been woken. -/
theorem sound_downed (h : Sound s) (hrun : s.shared.kernel.state i = .runnable) {k : Fork N}
    {awake : Stage} (hplace : (s.pc i).2 = .down k) (hawake : Agrees i (awake, .running))
    (htaken : 0 < s.ring.units k → Kept { s.ring with
      stage := Function.update s.ring.stage i awake
      units := Function.update s.ring.units k (s.ring.units k - 1) })
    {x : At N} (hdowned : (do
      onKernel (downed i k)
      return (awake, Pc.running)) s.shared = .ok (.ok x, t)) :
    Sound { shared := t, pc := Function.update s.pc i x } := by
  have hplace' : (fun j => (s.pc j).2) i = .down k := hplace
  obtain ⟨hkernel, hout, hsound⟩ := downed_of h.threads hplace' hrun
  have hpos : 0 < s.ring.units k :=
    lt_of_le_of_lt (h.threads.counted.nonneg _) (value_lt_units h.threads.placed hplace' (hout _))
  rw [bind_of_ok (onKernel_of hkernel)] at hdowned
  cases hdowned
  exact sound_of h hawake hsound (units_back hplace') (htaken hpos)

theorem sound_up (h : Sound s) (hrun : (s.pc i).2 = .running) {k : Fork N} {stage : Stage}
    (hagrees : Agrees i (stage, .running)) (hgiven : Kept { s.ring with
      stage := Function.update s.ring.stage i stage
      units := Function.update s.ring.units k (s.ring.units k + 1) })
    {x : At N} (hup : (do
      onKernel (up k)
      return (stage, Pc.running)) s.shared = .ok (.ok x, t)) :
    Sound { shared := t, pc := Function.update s.pc i x } := by
  have hstay := update_running (f := fun j => (s.pc j).2) hrun
  obtain ⟨kernel, hkernel, hsound, hreleased⟩ := up_of h.threads k
  rw [bind_of_ok (onKernel_of hkernel)] at hup
  cases hup
  refine sound_of h hagrees ?_ ?_ hgiven
  · show Semaphores.Sound initial kernel (Function.update (fun j => (s.pc j).2) i .running)
    rwa [hstay]
  · show units kernel (Function.update (fun j => (s.pc j).2) i .running) = _
    rw [hstay]
    exact units_released hreleased

/-- A step in which the kernel has no part. -/
theorem sound_own (h : Sound s) (hrun : (s.pc i).2 = .running) {stage : Stage} {state : Fin N → Mood}
    (hagrees : Agrees i (stage, .running)) (hkept : Kept { s.ring with
      stage := Function.update s.ring.stage i stage
      state := state }) :
    Sound { shared := { s.shared with stateSema := state },
            pc := Function.update s.pc i (stage, .running) } := by
  have hstay := update_running (f := fun j => (s.pc j).2) hrun
  refine sound_of h hagrees ?_ ?_ hkept
  · show Semaphores.Sound initial s.shared.kernel (Function.update (fun j => (s.pc j).2) i .running)
    rw [hstay]
    exact h.threads
  · show units s.shared.kernel (Function.update (fun j => (s.pc j).2) i .running) = _
    rw [hstay]
    rfl

theorem sound_advance (hN : 2 ≤ N) (h : Sound s) {x : At N}
    (hfree : Stage.free (s.pc i).1 = true → (s.pc i).2 = .running)
    (hrun : s.shared.kernel.state i = .runnable)
    (hadvance : advance i (s.pc i).1 s.shared = .ok (.ok x, t)) :
    Sound { shared := t, pc := Function.update s.pc i x } := by
  have hat := h.agrees i
  have hkept := h.kept
  have hnonneg := h.nonneg .mutex
  rcases hpc : s.pc i with ⟨stage, pc⟩
  rw [hpc] at hat hadvance hfree
  have hstage : s.ring.stage i = stage := by
    show (s.pc i).1 = _
    rw [hpc]
  have hsnd : (s.pc i).2 = pc := by
    rw [hpc]
  cases stage with
  | thinking =>
      have hrunning := hsnd.trans (hfree rfl)
      exact sound_down h hrunning (by rfl) (by rfl) (hkept.sleeps (Or.inl ⟨hstage, rfl⟩))
        (fun _ => hkept.entered (Or.inl ⟨Or.inl hstage, rfl⟩)) hadvance
  | taking =>
      exact sound_downed h hrun (hsnd.trans hat) (by rfl)
        (fun _ => hkept.entered (Or.inl ⟨Or.inr hstage, rfl⟩)) hadvance
  | took =>
      cases hadvance
      exact sound_own h (hsnd.trans hat) rfl (hkept.hungry hnonneg hstage)
  | testing w =>
      rw [advance, getState_bind] at hadvance
      cases hadvance
      refine sound_own h (hsnd.trans hat) ?_ (hkept.looked hstage)
      split
      · rfl
      · cases w with
        | own | left | right => rfl
  | passed w =>
      cases hadvance
      exact sound_own h (hsnd.trans hat) rfl (hkept.fed_of_passed hN hnonneg hstage)
  | fed w =>
      refine sound_up h (hsnd.trans hat) ?_ (hkept.granted hnonneg hstage) hadvance
      cases w with
      | own | left | right => rfl
  | lifting =>
      exact sound_up h (hsnd.trans hat) (by rfl) (hkept.left (Or.inl ⟨hstage, rfl⟩)) hadvance
  | asking =>
      exact sound_down h (hsnd.trans hat) (by rfl) (by simp [Agrees])
        (hkept.sleeps (Or.inr (Or.inr ⟨hstage, rfl⟩)))
        (fun hpos => hkept.eats (Or.inl hstage) hpos) hadvance
  | waiting =>
      exact sound_downed h hrun (hsnd.trans hat) (by simp [Agrees])
        (fun hpos => hkept.eats (Or.inr hstage) hpos) hadvance
  | eating =>
      have hrunning := hsnd.trans (hfree rfl)
      exact sound_down h hrunning (by rfl) (by rfl) (hkept.sleeps (Or.inr (Or.inl ⟨hstage, rfl⟩)))
        (fun _ => hkept.entered (Or.inr ⟨Or.inl hstage, rfl⟩)) hadvance
  | putting =>
      exact sound_downed h hrun (hsnd.trans hat) (by rfl)
        (fun _ => hkept.entered (Or.inr ⟨Or.inr hstage, rfl⟩)) hadvance
  | put =>
      cases hadvance
      exact sound_own h (hsnd.trans hat) rfl (hkept.finished hnonneg hstage)
  | leaving =>
      exact sound_up h (hsnd.trans hat) (by simp [Agrees]) (hkept.left (Or.inr ⟨hstage, rfl⟩))
        hadvance

/-- A philosopher does something else, where it thinks or eats. -/
theorem sound_apart (h : Sound s) {stage : Stage} {pc pc' : Pc (Fork N)}
    {kernel : Kernel (Fin N) (Fork N)} (hpc : s.pc i = (stage, pc))
    (hfree : Stage.free stage = true)
    (hthreads : Semaphores.Sound initial kernel (Function.update (fun j => (s.pc j).2) i pc'))
    (hsame : Same s.shared.kernel kernel) (hnew : ∀ k, pc' ≠ .down k) :
    Sound ⟨{ s.shared with kernel := kernel }, Function.update s.pc i (stage, pc')⟩ := by
  have hat := h.agrees i
  rw [hpc] at hat
  have hboth : Agrees i (stage, pc') ∧ ∀ k, pc ≠ .down k := by
    cases stage with
    | thinking | eating => exact ⟨hnew, hat⟩
    | taking | took | testing | passed | fed | lifting | asking | waiting | putting | put | leaving =>
        cases hfree
  have hold : ∀ k, (fun j => (s.pc j).2) i ≠ .down k := by
    intro k
    show (s.pc i).2 ≠ _
    rw [hpc]
    exact hboth.2 k
  refine sound_of (u := s.ring.units) h hboth.1 hthreads ?_ ?_
  · funext k
    exact units_apart (by rw [hsame.value]) (hsame.queue k) (hold k) (hnew k)
  · have hstay : Function.update s.ring.stage i stage = s.ring.stage := by
      have hstage : s.ring.stage i = stage := by
        show (s.pc i).1 = _
        rw [hpc]
      rw [← hstage, Function.update_eq_self]
    show Kept ⟨Function.update s.ring.stage i stage, _, _⟩
    rw [hstay]
    exact h.kept

theorem sound_step (hN : 2 ≤ N) (h : Sound s) (hstep : Step s s') : Sound s' := by
  cases hstep with
  | advance hfree hrun hadvance => exact sound_advance hN h hfree hrun hadvance
  | @start i stage call pc t hpc hfree hcall hrun hstart =>
      obtain ⟨kernel, hkernel, rfl⟩ := onPart_eq_ok hstart
      have hrunning : (fun j => (s.pc j).2) i = .running := by
        show (s.pc i).2 = _
        rw [hpc]
      obtain ⟨pc', kernel', hstart', hsound, hsame, hnew⟩ := start_of_apart h.threads hrunning hcall
      cases hstart'.symm.trans hkernel
      exact sound_apart h hpc hfree hsound hsame hnew
  | @resume i stage pc pc' t hpc hfree hrun hresume =>
      obtain ⟨kernel, hkernel, rfl⟩ := onPart_eq_ok hresume
      have hsnd : (fun j => (s.pc j).2) i = pc := by
        show (s.pc i).2 = _
        rw [hpc]
      have hnotDown : ∀ k, (fun j => (s.pc j).2) i ≠ .down k := by
        have hat := h.agrees i
        rw [hpc] at hat
        rw [hsnd]
        cases stage with
        | thinking | eating => exact hat
        | taking | took | testing | passed | fed | lifting | asking | waiting | putting | put
        | leaving => cases hfree
      obtain ⟨pc'', kernel', hresume', hsound, hsame, hnew⟩ :=
        resume_of_apart h.threads hrun hnotDown
      rw [show (s.pc i).2 = pc from hsnd] at hresume'
      cases hresume'.symm.trans hkernel
      exact sound_apart h hpc hfree hsound hsame hnew
  | @born i t hpc hwake =>
      obtain ⟨kernel, hkernel, rfl⟩ := onPart_eq_ok hwake
      have hunborn : (fun j => (s.pc j).2) i = .unborn := by
        show (s.pc i).2 = _
        rw [hpc]
      obtain ⟨hwoken, hsound⟩ := born_of h.threads hunborn
      cases hwoken.symm.trans hkernel
      exact sound_apart h hpc rfl hsound (same_woken _ _) (by simp)
  | occur hoccur =>
      obtain ⟨kernel, hkernel, rfl⟩ := onPart_eq_ok hoccur
      obtain ⟨hsound, hsame⟩ := occur_of h.threads hkernel
      refine ⟨hsound, h.agrees, ?_⟩
      show Kept ⟨_, units kernel fun i => (s.pc i).2, _⟩
      rw [units_same hsame]
      exact h.kept

theorem sound_starts (h : Starts s) : Sound s := by
  have hvalues : ∀ k : Fork N, 0 ≤ initial k := by
    intro k
    cases k with
    | mutex => exact Int.one_nonneg
    | s i => exact le_rfl
  have hnotDown : ∀ i k, (s.pc i).2 ≠ .down k := by
    intro i k hdown
    rcases h.threads.pc i with ⟨hpc, _⟩ | ⟨hpc, _⟩
    · cases hdown.symm.trans hpc
    · cases hdown.symm.trans hpc
  have hunits : ∀ k, s.ring.units k = initial k := by
    intro k
    have hvalue : s.shared.kernel.value = initial := h.threads.value
    have hqueue : s.shared.kernel.queue (.sem k) = [] := h.threads.queue _
    have hnone : tally (sleepsIn k) (fun i => (s.pc i).2) = 0 :=
      tally_eq_zero fun i => sleepsIn_of_ne (hnotDown i k)
    show units s.shared.kernel (fun i => (s.pc i).2) k = _
    rw [units, hvalue, hqueue, hnone]
    simp
  have hstage : ∀ i, s.ring.stage i = .thinking := h.stage
  have hstate : ∀ i, s.ring.state i = .thinking := h.stateSema
  refine ⟨Semaphores.sound_starts hvalues h.threads, ?_, ⟨?_, ?_, ?_, ?_, ?_, ?_, ?_, ?_⟩⟩
  · intro i
    rcases hpc : s.pc i with ⟨stage, pc⟩
    have hthinking : stage = .thinking := by
      have hsame := h.stage i
      rwa [hpc] at hsame
    subst hthinking
    intro k hdown
    apply hnotDown i k
    rw [hpc]
    exact hdown
  · have hnobody : tally isInside s.ring.stage = 0 := by
      apply tally_eq_zero
      intro i
      rw [hstage i]
      rfl
    rw [hunits, hnobody]
    rfl
  · intro i
    rw [hunits]
    exact Int.zero_le_ofNat 1
  · intro i hpos
    rw [hunits] at hpos
    exact absurd hpos (lt_irrefl _)
  · intro i w hi
    cases (hstage i).symm.trans hi
  · intro i w hi
    cases (hstage i).symm.trans hi
  · intro i
    rw [hstage i]
    exact hstate i
  · intro i hi
    cases (hstate i).symm.trans hi
  · rintro j ⟨hhungry, _⟩
    cases (hstate j).symm.trans hhungry

/-- What the philosophers may rely on. -/
structure TableOk (s : System N) : Prop where
  apart : ∀ i, s.shared.stateSema i = .eating →
    s.shared.stateSema (left i) ≠ .eating ∧ s.shared.stateSema (right i) ≠ .eating
  returns : ∀ i, (s.pc i).1 = .eating → s.shared.stateSema i = .eating
  served : (∀ i, isInside (s.pc i).1 = false) → ∀ i, s.shared.stateSema i = .hungry →
    s.shared.stateSema (left i) = .eating ∨ s.shared.stateSema (right i) = .eating

theorem Sound.tableOk (h : Sound s) : TableOk s := by
  refine ⟨?_, ?_, ?_⟩
  · exact fun i hi => ⟨h.kept.exclusive.left_ne hi, h.kept.exclusive i hi⟩
  · intro i hi
    have hmood := h.kept.moods i
    rwa [show s.ring.stage i = .eating from hi] at hmood
  · intro hout i hhungry
    by_contra hneither
    rw [not_or] at hneither
    obtain ⟨p, hp⟩ := h.kept.settled i ⟨hhungry, hneither⟩
    have hinside : isInside (s.pc p).1 = true := inside_of_pends hp
    rw [hout p] at hinside
    cases hinside

theorem philosophersOk_of_reaches (hN : 2 ≤ N) (hstarts : Starts s) (hrun : ReflTransGen Step s s') :
    TableOk s' := by
  have hsound : Sound s' :=
    holds_of_reaches (fun h hstep => sound_step hN h hstep) (sound_starts hstarts) hrun
  exact hsound.tableOk

end Refinement

end Ucore.PhilosophersSema
