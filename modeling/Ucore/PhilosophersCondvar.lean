import Ucore.Monitors
import Ucore.PhilosophersSema

/-! The philosophers of `check_sync.c` that use a monitor, with one condition variable for
each of them. -/

namespace Ucore.PhilosophersCondvar

open Relation
open Ucore.Errors
open Ucore.Panic
open Ucore.KernelRoutine
open Ucore.Interleaving
open Ucore.WaitQueues
open Ucore.Semaphores
open Ucore.MonitorTokens
open Ucore.Monitors
open Ucore.Philosophers

/-- The monitor `mt`, and `state_condvar`. -/
structure Table (N : Nat) where
  monitor : Monitor (Fin N) (Fin N) Empty
  stateCondvar : Fin N → Mood

/-- Where a philosopher is, or where it will be when it is back from the procedures of
the monitor: outside, in `phi_take_forks_condvar`, in `phi_put_forks_condvar`, or in one
of the calls of `phi_test_condvar`. -/
inductive Stage where
  | thinking
  | taking
  | testing (w : Which)
  | passed (w : Which)
  | fed (w : Which)
  | checking
  | lifting
  | eating
  | putting
  | leaving
  deriving DecidableEq

abbrev Place (N : Nat) := MonitorTokens.Place (Fin N)

abbrev At (N : Nat) := Stage × Monitors.At (Fin N) Empty

variable {N : Nat} {α : Type}

section Procedures

def onMonitor : Routine (Monitor (Fin N) (Fin N) Empty) α → Routine (Table N) α :=
  onPart Table.monitor fun monitor s => { s with monitor := monitor }

def setState (i : Fin N) (mood : Mood) : Routine (Table N) Unit :=
  modifyState fun s => { s with stateCondvar := Function.update s.stateCondvar i mood }

/-- What comes after a call of `phi_test_condvar`. -/
def tested : Which → Stage
  | .own => .checking
  | .left => .testing .right
  | .right => .leaving

/-- What a philosopher does next, outside of the monitor or where it runs in it. -/
def advance (i : Fin N) : Stage → Routine (Table N) (At N)
  | .thinking => do
      let x ← onMonitor (call i .enter)
      return (.taking, x)
  | .taking => do
      setState i .hungry
      return (.testing .own, .active, .running)
  | .testing w => do
      let s ← getState
      return (if mayEat s.stateCondvar (w.target i) then .passed w else tested w,
        .active, .running)
  | .passed w => do
      setState (w.target i) .eating
      return (.fed w, .active, .running)
  | .fed w => do
      let x ← onMonitor (call i (.signal (w.target i)))
      return (tested w, x)
  | .checking => do
      let s ← getState
      if s.stateCondvar i ≠ .eating then
        let x ← onMonitor (call i (.wait i))
        return (.lifting, x)
      else
        return (.lifting, .active, .running)
  | .lifting => do
      let x ← onMonitor (call i .leave)
      return (.eating, x)
  | .eating => do
      let x ← onMonitor (call i .enter)
      return (.putting, x)
  | .putting => do
      setState i .thinking
      return (.testing .left, .active, .running)
  | .leaving => do
      let x ← onMonitor (call i .leave)
      return (.thinking, x)

end Procedures

section Steps

abbrev System (N : Nat) := Threads (Fin N) (Table N) (At N)

/-- The philosopher is in none of the procedures. -/
def Stage.free : Stage → Bool
  | .thinking => true
  | .eating => true
  | _ => false

def Stage.from (stage : Stage) : Place N :=
  if stage.free then .outside else .active

/-- A philosopher goes on, by itself or in a procedure of the monitor, does something
else where it thinks or eats, is started, or something happens to those that wait. -/
inductive Step : System N → System N → Prop
  | advance {s : System N} {i : Fin N} {stage : Stage} {x : At N} {t : Table N} :
      s.pc i = (stage, stage.from, .running) →
      s.shared.monitor.kernel.state i = .runnable →
      advance i stage s.shared = .ok (.ok x, t) →
        Step s { shared := t, pc := Function.update s.pc i x }
  | proceed {s : System N} {i : Fin N} {x : Monitors.At (Fin N) Empty} {t : Table N} :
      Place.free (s.pc i).2.1 = false → s.shared.monitor.kernel.state i = .runnable →
      onMonitor (proceed i (s.pc i).2.1) s.shared = .ok (.ok x, t) →
        Step s { shared := t, pc := Function.update s.pc i ((s.pc i).1, x) }
  | start {s : System N} {i : Fin N} {stage : Stage} {call : Call (Fin N) (Sem (Fin N) Empty)}
      {pc : Pc (Sem (Fin N) Empty)} {t : Table N} :
      s.pc i = (stage, .outside, .running) → stage.free = true → Apart call →
      s.shared.monitor.kernel.state i = .runnable →
      onMonitor (onKernel (start i call)) s.shared = .ok (.ok pc, t) →
        Step s { shared := t, pc := Function.update s.pc i (stage, .outside, pc) }
  | resume {s : System N} {i : Fin N} {stage : Stage} {pc pc' : Pc (Sem (Fin N) Empty)}
      {t : Table N} :
      s.pc i = (stage, .outside, pc) → stage.free = true →
      s.shared.monitor.kernel.state i = .runnable →
      onMonitor (onKernel (resume i pc)) s.shared = .ok (.ok pc', t) →
        Step s { shared := t, pc := Function.update s.pc i (stage, .outside, pc') }
  | born {s : System N} {i : Fin N} {t : Table N} :
      s.pc i = (.thinking, .outside, .unborn) →
      onMonitor (onKernel (wakeupProc i)) s.shared = .ok (.ok (), t) →
        Step s { shared := t, pc := Function.update s.pc i (.thinking, .outside, .running) }
  | occur {s : System N} {event : Event (Fin N)} {r : Except Errno Unit} {t : Table N} :
      onMonitor (onKernel (occur event)) s.shared = .ok (r, t) → Step s { s with shared := t }

/-- What the monitor knows of the philosophers. -/
def System.monitors (s : System N) : Monitors.System (Fin N) (Fin N) Empty where
  shared := s.shared.monitor
  pc := fun i => (s.pc i).2

/-- `check_sync` has initialised the monitor, and the philosophers think. -/
structure Starts (s : System N) : Prop where
  monitors : Monitors.Starts Empty.elim s.monitors
  stage : ∀ i, (s.pc i).1 = .thinking
  stateCondvar : ∀ i, s.shared.stateCondvar i = .thinking

end Steps

section Invariant

/-- The philosopher is in `cond_signal`, or back from it. -/
def Signals : Place N → Prop
  | .active => True
  | .signalled _ => True
  | .signalling _ => True
  | _ => False

/-- Where a philosopher can be at a stage, and what its `state_condvar` is there. -/
def Fits (i : Fin N) : Stage → Place N → Mood → Prop
  | .thinking, place, mood => place = .outside ∧ mood = .thinking
  | .taking, place, mood => (place = .entering ∨ place = .active) ∧ mood = .thinking
  | .testing .own, place, mood => place = .active ∧ mood = .hungry
  | .testing _, place, mood => Signals place ∧ mood = .thinking
  | .passed .own, place, mood => place = .active ∧ mood = .hungry
  | .passed _, place, mood => place = .active ∧ mood = .thinking
  | .fed .own, place, mood => place = .active ∧ mood = .eating
  | .fed _, place, mood => place = .active ∧ mood = .thinking
  | .checking, place, mood => Signals place ∧ mood ≠ .thinking
  | .lifting, place, mood => place = .active ∧ mood = .eating ∨
      (place = .released i ∨ place = .waiting i) ∧ mood ≠ .thinking
  | .eating, place, mood => place = .outside ∧ mood = .eating
  | .putting, place, mood => (place = .entering ∨ place = .active) ∧ mood = .eating
  | .leaving, place, mood => Signals place ∧ mood = .thinking

/-- Whom the philosopher `i` still has to test. -/
def Pends : Stage → Fin N → Fin N → Prop
  | .testing w, i, j => w.Pending i j
  | .passed w, i, j => w.Pending i j
  | .fed w, i, j => w.Later i j
  | _, _, _ => False

/-- What there is to say of the philosophers, without the kernel. -/
structure Ring (N : Nat) where
  stage : Fin N → Stage
  tokens : Tokens (Fin N) (Fin N)
  state : Fin N → Mood

structure Kept (s : Ring N) : Prop where
  tokens : MonitorTokens.Kept s.tokens
  closed : 0 < s.tokens.units .mutex → s.tokens.nextCount = 0
  fits : ∀ i, Fits i (s.stage i) (s.tokens.place i) (s.state i)
  granted : ∀ i, 0 < s.tokens.units (.cv i) → s.state i = .eating
  fed : ∀ i w, s.stage i = .fed w → s.state (w.target i) = .eating
  passed : ∀ i w, s.stage i = .passed w → mayEat s.state (w.target i)
  exclusive : Exclusive s.state
  settled : ∀ j, mayEat s.state j → ∃ i, Pends (s.stage i) i j

variable {s : Ring N} {i j : Fin N} {x : Stage} {t : Tokens (Fin N) (Fin N)}

theorem Kept.active_unique (h : Kept s) (hi : s.tokens.place i = .active)
    (hj : s.tokens.place j = .active) : j = i := by
  by_contra hne
  have hactive : ∀ p, s.tokens.place p = .active → isActive (s.tokens.place p) = true := by
    intro p hp
    rw [hp]
    rfl
  have htwo := two_le_tally (hactive i hi) (hactive j hj) hne
  have htotal := units_le_total h.tokens.nonneg .mutex
  have hnonneg := h.tokens.nonneg .mutex
  have hone := h.tokens.one
  omega

/-- A philosopher goes on without writing `state_condvar`. -/
theorem Kept.passes (h : Kept s) (hpass : Pass s.tokens i t ∨ t = s.tokens)
    (hfits : Fits i x (t.place i) (s.state i))
    (hsignals : ∀ c, t.place i = .signalled c → s.state c = .eating)
    (hfed : ∀ w, x = .fed w → s.state (w.target i) = .eating)
    (hpassed : ∀ w, x = .passed w → mayEat s.state (w.target i))
    (hpends : ∀ j, mayEat s.state j → Pends (s.stage i) i j → Pends x i j) :
    Kept { s with
      stage := Function.update s.stage i x
      tokens := t } := by
  have hother : ∀ j, j ≠ i → Function.update s.stage i x j = s.stage j :=
    fun j hne => Function.update_of_ne hne _ _
  have hself : Function.update s.stage i x i = x := Function.update_self _ _ _
  have hplace : ∀ j, j ≠ i → t.place j = s.tokens.place j := by
    intro j hne
    rcases hpass with hpass | rfl
    · exact hpass.place_of_ne hne
    · rfl
  refine ⟨?_, ?_, ?_, ?_, ?_, ?_, h.exclusive, ?_⟩
  · rcases hpass with hpass | rfl
    · exact kept_pass h.tokens hpass
    · exact h.tokens
  · rcases hpass with hpass | rfl
    · exact pass_closed h.tokens h.closed hpass
    · exact h.closed
  · intro j
    show Fits j (Function.update s.stage i x j) (t.place j) (s.state j)
    rcases eq_or_ne j i with rfl | hne
    · rwa [hself]
    · rw [hother j hne, hplace j hne]
      exact h.fits j
  · intro j hpos
    rcases hpass with hpass | rfl
    · rcases hpass.cv_units j with hle | hsignalled
      · exact h.granted j (lt_of_lt_of_le hpos hle)
      · exact hsignals j hsignalled
    · exact h.granted j hpos
  · intro j w hj
    rcases eq_or_ne j i with rfl | hne
    · exact hfed w (hself.symm.trans hj)
    · exact h.fed j w ((hother j hne).symm.trans hj)
  · intro j w hj
    rcases eq_or_ne j i with rfl | hne
    · exact hpassed w (hself.symm.trans hj)
    · exact h.passed j w ((hother j hne).symm.trans hj)
  · intro j hmay
    obtain ⟨p, hp⟩ := h.settled j hmay
    refine ⟨p, ?_⟩
    show Pends (Function.update s.stage i x p) p j
    rcases eq_or_ne p i with rfl | hne
    · rw [hself]
      exact hpends j hmay hp
    · rwa [hother p hne]

theorem active_of_fed {w : Which} {place : Place N} {mood : Mood} (h : Fits i (.fed w) place mood) :
    place = .active := by
  cases w with
  | own | left | right => exact h.1

theorem active_of_passed {w : Which} {place : Place N} {mood : Mood}
    (h : Fits i (.passed w) place mood) : place = .active := by
  cases w with
  | own | left | right => exact h.1

/-- The philosopher that runs in the monitor writes `state_condvar`. -/
theorem Kept.wrote (h : Kept s) {state : Fin N → Mood} (hi : s.tokens.place i = .active)
    (hfits : Fits i x .active (state i))
    (hothers : ∀ j, j ≠ i → Fits j (s.stage j) (s.tokens.place j) (state j))
    (hfed : ∀ w, x = .fed w → state (w.target i) = .eating) (hpassed : ∀ w, x ≠ .passed w)
    (hexclusive : Exclusive state)
    (hpends : ∀ j, mayEat state j → Pends x i j ∨ ∃ p, p ≠ i ∧ Pends (s.stage p) p j) :
    Kept { s with
      stage := Function.update s.stage i x
      state := state } := by
  have hother : ∀ j, j ≠ i → Function.update s.stage i x j = s.stage j :=
    fun j hne => Function.update_of_ne hne _ _
  have hself : Function.update s.stage i x i = x := Function.update_self _ _ _
  refine ⟨h.tokens, h.closed, ?_, ?_, ?_, ?_, hexclusive, ?_⟩
  · intro j
    show Fits j (Function.update s.stage i x j) (s.tokens.place j) (state j)
    rcases eq_or_ne j i with rfl | hne
    · rwa [hself, hi]
    · rw [hother j hne]
      exact hothers j hne
  · intro j hpos
    change 0 < s.tokens.units (.cv j) at hpos
    rw [h.tokens.units_of_active hi] at hpos
    exact absurd hpos (lt_irrefl 0)
  · intro j w hj
    rcases eq_or_ne j i with rfl | hne
    · exact hfed w (hself.symm.trans hj)
    · have hfitsj := h.fits j
      rw [show s.stage j = .fed w from (hother j hne).symm.trans hj] at hfitsj
      exact absurd (h.active_unique hi (active_of_fed hfitsj)) hne
  · intro j w hj
    rcases eq_or_ne j i with rfl | hne
    · exact absurd (hself.symm.trans hj) (hpassed w)
    · have hfitsj := h.fits j
      rw [show s.stage j = .passed w from (hother j hne).symm.trans hj] at hfitsj
      exact absurd (h.active_unique hi (active_of_passed hfitsj)) hne
  · intro j hmay
    rcases hpends j hmay with hown | ⟨p, hne, hp⟩
    · refine ⟨i, ?_⟩
      show Pends (Function.update s.stage i x i) i j
      rwa [hself]
    · refine ⟨p, ?_⟩
      show Pends (Function.update s.stage i x p) p j
      rwa [hother p hne]

/-- Who tests another one goes on to test it. -/
theorem Kept.others_pend (h : Kept s) (hnot : ∀ j, ¬Pends (s.stage i) i j)
    (hmay : mayEat s.state j) : ∃ p, p ≠ i ∧ Pends (s.stage p) p j := by
  obtain ⟨p, hp⟩ := h.settled j hmay
  refine ⟨p, ?_, hp⟩
  rintro rfl
  exact hnot j hp

theorem Kept.hungry (h : Kept s) (hstage : s.stage i = .taking)
    (hi : s.tokens.place i = .active) :
    Kept { s with
      stage := Function.update s.stage i (.testing .own)
      state := Function.update s.state i .hungry } := by
  have hfits := h.fits i
  rw [hstage] at hfits
  have hnot : s.state i ≠ .eating := by simp [hfits.2]
  refine h.wrote hi ?_ ?_ (by simp) (by simp) (exclusive_update h.exclusive (by simp)) ?_
  · rw [Function.update_self]
    exact ⟨rfl, rfl⟩
  · intro j hne
    rw [Function.update_of_ne hne]
    exact h.fits j
  · intro j hmay
    rcases mayEat_hungry hnot hmay with hold | hsame
    · exact Or.inr (h.others_pend (by rw [hstage]; exact fun _ => id) hold)
    · exact Or.inl hsame

theorem Kept.finished (h : Kept s) (hstage : s.stage i = .putting)
    (hi : s.tokens.place i = .active) :
    Kept { s with
      stage := Function.update s.stage i (.testing .left)
      state := Function.update s.state i .thinking } := by
  refine h.wrote hi ?_ ?_ (by simp) (by simp) (exclusive_update h.exclusive (by simp)) ?_
  · rw [Function.update_self]
    exact ⟨trivial, rfl⟩
  · intro j hne
    rw [Function.update_of_ne hne]
    exact h.fits j
  · intro j hmay
    rcases mayEat_thinking hmay with hold | hnext
    · exact Or.inr (h.others_pend (by rw [hstage]; exact fun _ => id) hold)
    · exact Or.inl hnext

/-- One that is hungry and does not run may be given its forks. -/
theorem fits_eating {place : Place N} (h : Fits i x place .hungry) (hplace : place ≠ .active) :
    Fits i x place .eating := by
  cases x with
  | checking => exact ⟨h.1, by simp⟩
  | lifting =>
      rcases h with ⟨hactive, _⟩ | ⟨hwaits, _⟩
      · exact absurd hactive hplace
      · exact Or.inr ⟨hwaits, by simp⟩
  | testing w | passed w | fed w =>
      cases w with
      | own => exact absurd h.1 hplace
      | left | right => cases h.2
  | thinking | taking | eating | putting | leaving => cases h.2

theorem Kept.fed_of_passed (hN : 2 ≤ N) (h : Kept s) {w : Which} (hstage : s.stage i = .passed w) :
    Kept { s with
      stage := Function.update s.stage i (.fed w)
      state := Function.update s.state (w.target i) .eating } := by
  have hmay := h.passed i w hstage
  have hfits := h.fits i
  rw [hstage] at hfits
  have hi := active_of_passed hfits
  refine h.wrote hi ?_ ?_ ?_ (by simp) (exclusive_eating hN h.exclusive hmay) ?_
  · cases w with
    | own => exact ⟨rfl, Function.update_self _ _ _⟩
    | left | right =>
        refine ⟨rfl, ?_⟩
        rw [Function.update_of_ne (Which.target_ne hN (by simp) i).symm]
        exact hfits.2
  · intro j hne
    have hfitsj := h.fits j
    rcases eq_or_ne j (w.target i) with heq | hother
    · rw [heq, Function.update_self]
      rw [heq, hmay.1] at hfitsj
      apply fits_eating hfitsj
      intro hactive
      rw [heq] at hne
      exact hne (h.active_unique hi hactive)
    · rwa [Function.update_of_ne hother]
  · rintro _ ⟨⟩
    exact Function.update_self _ _ _
  · intro j hj
    obtain ⟨hold, hne⟩ := mayEat_eating hj
    obtain ⟨p, hp⟩ := h.settled j hold
    rcases eq_or_ne p i with rfl | hother
    · rw [hstage] at hp
      exact Or.inl (Which.later_of_pending hp hne)
    · exact Or.inr ⟨p, hother, hp⟩

/-- The condition of `phi_test_condvar` has been looked at. -/
theorem Kept.looked (h : Kept s) {w : Which} (hstage : s.stage i = .testing w)
    (hi : s.tokens.place i = .active) :
    Kept { s with
      stage := Function.update s.stage i
        (if mayEat s.state (w.target i) then .passed w else tested w) } := by
  have hfits := h.fits i
  rw [hstage, hi] at hfits
  have hnotSignalled : ∀ c, s.tokens.place i = .signalled c → s.state c = .eating := by
    intro c hc
    cases hi.symm.trans hc
  rcases Decidable.em (mayEat s.state (w.target i)) with hmay | hnot
  · rw [if_pos hmay]
    refine h.passes (Or.inr rfl) ?_ hnotSignalled (by simp) ?_ ?_
    · rw [hi]
      cases w with
      | own => exact hfits
      | left | right => exact ⟨rfl, hfits.2⟩
    · rintro _ ⟨⟩
      exact hmay
    · rw [hstage]
      exact fun _ _ hold => hold
  · rw [if_neg hnot]
    refine h.passes (Or.inr rfl) ?_ hnotSignalled ?_ ?_ ?_
    · rw [hi]
      cases w with
      | own => exact ⟨trivial, by simp [hfits.2]⟩
      | left | right => exact ⟨trivial, hfits.2⟩
    · cases w with
      | own | left | right => exact fun _ hfed => nomatch hfed
    · cases w with
      | own | left | right => exact fun _ hpassed => nomatch hpassed
    · intro j hmay hold
      rw [hstage] at hold
      have hne : j ≠ w.target i := by
        rintro rfl
        exact hnot hmay
      have hlater := Which.later_of_pending hold hne
      cases w with
      | own | right => exact absurd hlater id
      | left => exact hlater

/-- A call of a procedure of the monitor where the philosopher has nobody to test. -/
theorem Kept.calls (h : Kept s) (hpass : Pass s.tokens i t ∨ t = s.tokens)
    (hfits : Fits i x (t.place i) (s.state i)) (hsignals : ∀ c, t.place i ≠ .signalled c)
    (hnot : (∀ w, x ≠ .fed w) ∧ ∀ w, x ≠ .passed w) (hpends : ∀ j, ¬Pends (s.stage i) i j) :
    Kept { s with
      stage := Function.update s.stage i x
      tokens := t } :=
  h.passes hpass hfits (fun c hc => absurd hc (hsignals c)) (fun w hw => absurd hw (hnot.1 w))
    (fun w hw => absurd hw (hnot.2 w)) fun j _ hold => absurd hold (hpends j)

theorem Kept.signals (h : Kept s) (hpass : Pass s.tokens i t ∨ t = s.tokens) {w : Which}
    (hstage : s.stage i = .fed w) (hplace : t.place i = .signalled (w.target i) ∨
      t.place i = .active) :
    Kept { s with
      stage := Function.update s.stage i (tested w)
      tokens := t } := by
  have hfits := h.fits i
  rw [hstage] at hfits
  have hsignals : Signals (t.place i) := by
    rcases hplace with hp | hp
    · rw [hp]
      trivial
    · rw [hp]
      trivial
  refine h.passes hpass ?_ ?_ ?_ ?_ ?_
  · cases w with
    | own => exact ⟨hsignals, by simp [hfits.2]⟩
    | left | right => exact ⟨hsignals, hfits.2⟩
  · intro c hc
    rcases hplace with hp | hp
    · cases hp.symm.trans hc
      exact h.fed i w hstage
    · cases hp.symm.trans hc
  · cases w with
    | own | left | right => exact fun _ hfed => nomatch hfed
  · cases w with
    | own | left | right => exact fun _ hpassed => nomatch hpassed
  · intro j _ hold
    rw [hstage] at hold
    cases w with
    | own | right => exact absurd hold id
    | left => exact hold

section Places

variable {place place' : Place N} {mood : Mood} {c : Fin N}

theorem fits_entered (h : Fits i x .entering mood) : Fits i x .active mood := by
  cases x with
  | taking | putting => exact ⟨Or.inr rfl, h.2⟩
  | thinking | eating => cases h.1
  | checking | leaving => exact absurd h.1 id
  | lifting => rcases h with ⟨hplace, _⟩ | ⟨hplace | hplace, _⟩ <;> cases hplace
  | testing w =>
      cases w with
      | own => cases h.1
      | left | right => exact absurd h.1 id
  | passed w => cases active_of_passed h
  | fed w => cases active_of_fed h

/-- Only `phi_take_forks_condvar` waits for a condition, and for its own. -/
theorem fits_waits (h : Fits i x place mood) (hplace : place = .released c ∨ place = .waiting c) :
    x = .lifting ∧ c = i ∧ mood ≠ .thinking := by
  have hnot : place ≠ .outside ∧ place ≠ .entering ∧ place ≠ .active ∧ ¬Signals place := by
    rcases hplace with rfl | rfl
    all_goals exact ⟨by simp, by simp, by simp, id⟩
  obtain ⟨houtside, hentering, hactive, hsignals⟩ := hnot
  cases x with
  | lifting =>
      rcases h with ⟨hp, _⟩ | ⟨hp, hmood⟩
      · exact absurd hp hactive
      · refine ⟨rfl, ?_, hmood⟩
        rcases hplace with rfl | rfl
        · simpa using hp
        · simpa using hp
  | taking | putting => exact absurd h.1 (by simp [hentering, hactive])
  | thinking | eating => exact absurd h.1 houtside
  | checking | leaving => exact absurd h.1 hsignals
  | testing w =>
      cases w with
      | own => exact absurd h.1 hactive
      | left | right => exact absurd h.1 hsignals
  | passed w => exact absurd (active_of_passed h) hactive
  | fed w => exact absurd (active_of_fed h) hactive

theorem fits_signals (h : Fits i x place mood)
    (hplace : place = .signalled c ∨ place = .signalling c) (hnew : Signals place') :
    Fits i x place' mood := by
  have hnot : place ≠ .outside ∧ place ≠ .entering ∧ place ≠ .active ∧
      place ≠ .released i ∧ place ≠ .waiting i := by
    rcases hplace with rfl | rfl
    all_goals exact ⟨by simp, by simp, by simp, by simp, by simp⟩
  obtain ⟨houtside, hentering, hactive, hreleased, hwaiting⟩ := hnot
  cases x with
  | checking | leaving => exact ⟨hnew, h.2⟩
  | lifting =>
      exact absurd h (by simp [Fits, hactive, hreleased, hwaiting])
  | taking | putting => exact absurd h.1 (by simp [hentering, hactive])
  | thinking | eating => exact absurd h.1 houtside
  | testing w =>
      cases w with
      | own => exact absurd h.1 hactive
      | left | right => exact ⟨hnew, h.2⟩
  | passed w => exact absurd (active_of_passed h) hactive
  | fed w => exact absurd (active_of_fed h) hactive

end Places

/-- A philosopher goes on in a procedure of the monitor. -/
theorem Kept.proceeds (h : Kept s) (hpass : Pass s.tokens i t)
    (hfree : Place.free (s.tokens.place i) = false) : Kept { s with tokens := t } := by
  have hself : ∀ y, Function.update s.tokens.place i y i = y :=
    fun y => Function.update_self _ _ _
  have hfits := h.fits i
  have hto : Fits i (s.stage i) (t.place i) (s.state i) ∧ ∀ c, t.place i ≠ .signalled c := by
    cases hpass with
    | ask hi | leave hi | wait hi | signal hi =>
        rw [hi] at hfree
        cases hfree
    | enter hi _ =>
        rcases hi with hi | hi
        · rw [hi] at hfree
          cases hfree
        · rw [hi] at hfits
          simp only [hself]
          exact ⟨fits_entered hfits, by simp⟩
    | @sleep c hi =>
        obtain ⟨hstage, hself', hmood⟩ := fits_waits hfits (Or.inl hi)
        simp only [hself]
        refine ⟨?_, by simp⟩
        rw [hstage, hself']
        exact Or.inr ⟨Or.inr rfl, hmood⟩
    | @waited c hi hpos =>
        obtain ⟨hstage, hself', _⟩ := fits_waits hfits hi
        simp only [hself]
        refine ⟨?_, by simp⟩
        rw [hself'] at hpos
        rw [hstage]
        exact Or.inl ⟨rfl, h.granted i hpos⟩
    | @suspend c hi =>
        simp only [hself]
        exact ⟨fits_signals hfits (Or.inl hi) trivial, by simp⟩
    | @resume c hi hpos =>
        simp only [hself]
        exact ⟨fits_signals hfits hi trivial, by simp⟩
  have hkept := h.passes (x := s.stage i) (Or.inl hpass) hto.1
    (fun c hc => absurd hc (hto.2 c)) (h.fed i) (h.passed i) fun _ _ hold => hold
  rwa [Function.update_eq_self] at hkept

end Invariant

section Refinement

def System.ring (s : System N) : Ring N where
  stage := fun i => (s.pc i).1
  tokens := s.monitors.tokens
  state := s.shared.stateCondvar

structure Sound (s : System N) : Prop where
  monitors : Monitors.Sound Empty.elim s.monitors
  kept : Kept s.ring

variable {s s' : System N} {i j : Fin N} {t : Table N}

/-- What is to be shown of a step of one philosopher. -/
theorem sound_of (h : Sound s) {x : At N} {m : Monitors.System (Fin N) (Fin N) Empty}
    (hm : m = ⟨t.monitor, Function.update s.monitors.pc i x.2⟩)
    (hmoves : Moves Empty.elim s.monitors m)
    (hkept : Kept ⟨Function.update s.ring.stage i x.1, m.tokens, t.stateCondvar⟩) :
    Sound { shared := t, pc := Function.update s.pc i x } := by
  have hstages : (fun j => (Function.update s.pc i x j).1) =
      Function.update s.ring.stage i x.1 := Function.comp_update Prod.fst s.pc i x
  have hmonitors : System.monitors { shared := t, pc := Function.update s.pc i x } = m := by
    have hpcs : (fun j => (Function.update s.pc i x j).2) =
        Function.update s.monitors.pc i x.2 := Function.comp_update Prod.snd s.pc i x
    rw [hm, System.monitors, hpcs]
  refine ⟨?_, ?_⟩
  · rw [hmonitors]
    exact sound_of_moves h.monitors hmoves
  · rw [System.ring, hstages, hmonitors]
    exact hkept

theorem sound_call (h : Sound s) {procedure : Procedure (Fin N)} {stage : Stage}
    (hpc : (s.pc i).2 = (procedure.from, .running))
    (hkept : ∀ tokens, Pass s.ring.tokens i tokens ∨ tokens = s.ring.tokens →
      procedure.To (tokens.place i) → Kept { s.ring with
        stage := Function.update s.ring.stage i stage
        tokens := tokens })
    {x : At N} (hcall : (do
      let x ← onMonitor (call i procedure)
      return (stage, x)) s.shared = .ok (.ok x, t)) :
    Sound { shared := t, pc := Function.update s.pc i x } := by
  rcases bind_eq_ok_iff.mp hcall with ⟨y, u, hmonitor, hrest⟩ | ⟨e, _, herror⟩
  · obtain ⟨monitor, hrun, rfl⟩ := onPart_eq_ok hmonitor
    cases hrest
    have hrefines := refines_call h.monitors.threads h.monitors.agrees hpc hrun
    refine sound_of (x := (stage, y)) h rfl hrefines.moves (hkept _ hrefines.passes ?_)
    show procedure.To (Function.update s.monitors.pc i y i).1
    rw [Function.update_self]
    exact call_to hrun
  · cases herror

/-- A step in which the monitor has no part. -/
theorem sound_own (h : Sound s) (hpc : (s.pc i).2 = (.active, .running)) {stage : Stage}
    {state : Fin N → Mood} (hkept : Kept { s.ring with
      stage := Function.update s.ring.stage i stage
      state := state }) :
    Sound { shared := { s.shared with stateCondvar := state },
            pc := Function.update s.pc i (stage, .active, .running) } := by
  have hstay : Function.update s.monitors.pc i (.active, .running) = s.monitors.pc := by
    rw [← hpc]
    exact Function.update_eq_self i s.monitors.pc
  refine sound_of (m := s.monitors) h ?_ ⟨h.monitors.threads, h.monitors.agrees, Or.inr rfl⟩ hkept
  show s.monitors = ⟨s.shared.monitor, Function.update s.monitors.pc i (.active, .running)⟩
  rw [hstay]
  rfl

theorem sound_advance (hN : 2 ≤ N) (h : Sound s) {stage : Stage} {x : At N}
    (hpc : s.pc i = (stage, stage.from, .running))
    (hadvance : advance i stage s.shared = .ok (.ok x, t)) :
    Sound { shared := t, pc := Function.update s.pc i x } := by
  have hkept := h.kept
  have hstage : s.ring.stage i = stage := by
    show (s.pc i).1 = _
    rw [hpc]
  have hsnd : (s.pc i).2 = (stage.from, .running) := by
    rw [hpc]
  have hplace : s.ring.tokens.place i = stage.from := congrArg Prod.fst hsnd
  have hfits := hkept.fits i
  rw [hstage] at hfits
  cases stage with
  | thinking =>
      refine sound_call h hsnd ?_ hadvance
      intro tokens hpass hto
      refine hkept.calls hpass ?_ ?_ ⟨by simp, by simp⟩ (by rw [hstage]; exact fun _ => id)
      · exact ⟨hto, hfits.2⟩
      · rcases hto with hto | hto
        all_goals
          rw [hto]
          simp
  | eating =>
      refine sound_call h hsnd ?_ hadvance
      intro tokens hpass hto
      refine hkept.calls hpass ?_ ?_ ⟨by simp, by simp⟩ (by rw [hstage]; exact fun _ => id)
      · exact ⟨hto, hfits.2⟩
      · rcases hto with hto | hto
        all_goals
          rw [hto]
          simp
  | taking =>
      cases hadvance
      exact sound_own h hsnd (hkept.hungry hstage hplace)
  | putting =>
      cases hadvance
      exact sound_own h hsnd (hkept.finished hstage hplace)
  | testing w =>
      rw [advance, getState_bind] at hadvance
      cases hadvance
      exact sound_own h hsnd (hkept.looked hstage hplace)
  | passed w =>
      cases hadvance
      exact sound_own h hsnd (hkept.fed_of_passed hN hstage)
  | fed w =>
      refine sound_call h hsnd ?_ hadvance
      intro tokens hpass hto
      exact hkept.signals hpass hstage hto
  | checking =>
      have hown : ∀ {y : MonitorTokens.Place (Fin N)}, (y = .active → s.ring.state i = .eating) →
          (y = .active ∨ y = .released i) → Fits i .lifting y (s.ring.state i) := by
        rintro y heating (rfl | rfl)
        · exact Or.inl ⟨rfl, heating rfl⟩
        · exact Or.inr ⟨Or.inl rfl, hfits.2⟩
      rw [advance, getState_bind] at hadvance
      rcases Decidable.em (s.shared.stateCondvar i ≠ .eating) with hnot | heating
      · rw [if_pos hnot] at hadvance
        refine sound_call h hsnd ?_ hadvance
        intro tokens hpass hto
        have hto' : tokens.place i = .released i := hto
        refine hkept.calls hpass (hown ?_ (Or.inr hto')) ?_ ⟨by simp, by simp⟩
          (by rw [hstage]; exact fun _ => id)
        · intro hactive
          cases hactive.symm.trans hto'
        · rw [hto']
          simp
      · rw [if_neg heating] at hadvance
        cases hadvance
        refine sound_own h hsnd (hkept.calls (Or.inr rfl) ?_ ?_ ⟨by simp, by simp⟩
          (by rw [hstage]; exact fun _ => id))
        · exact hown (fun _ => not_not.mp heating) (Or.inl hplace)
        · rw [hplace]
          simp [Stage.from, Stage.free]
  | lifting =>
      refine sound_call h hsnd ?_ hadvance
      intro tokens hpass hto
      have hto' : tokens.place i = .outside := hto
      refine hkept.calls hpass ?_ ?_ ⟨by simp, by simp⟩ (by rw [hstage]; exact fun _ => id)
      · rcases hfits with ⟨_, heating⟩ | ⟨hwaits | hwaits, _⟩
        · exact ⟨hto', heating⟩
        · cases hplace.symm.trans hwaits
        · cases hplace.symm.trans hwaits
      · rw [hto']
        simp
  | leaving =>
      refine sound_call h hsnd ?_ hadvance
      intro tokens hpass hto
      have hto' : tokens.place i = .outside := hto
      refine hkept.calls hpass ⟨hto', hfits.2⟩ ?_ ⟨by simp, by simp⟩
        (by rw [hstage]; exact fun _ => id)
      rw [hto']
      simp

/-- A step that leaves the philosopher at its stage. -/
theorem sound_stays (h : Sound s) {stage : Stage} (hstage : s.ring.stage i = stage)
    {x : Monitors.At (Fin N) Empty} {monitor : Monitor (Fin N) (Fin N) Empty}
    (hrefines : Refines Empty.elim s.monitors i ⟨monitor, Function.update s.monitors.pc i x⟩)
    (hkept : ∀ tokens, Pass s.ring.tokens i tokens → tokens.place i = x.1 →
      Kept { s.ring with tokens := tokens }) :
    Sound ⟨{ s.shared with monitor := monitor }, Function.update s.pc i (stage, x)⟩ := by
  have hsame : Function.update s.ring.stage i stage = s.ring.stage := by
    rw [← hstage, Function.update_eq_self]
  refine sound_of (x := (stage, x)) h rfl hrefines.moves ?_
  show Kept ⟨Function.update s.ring.stage i stage, _, _⟩
  rw [hsame]
  rcases hrefines.passes with hpass | hrest
  · refine hkept _ hpass ?_
    show (Function.update s.monitors.pc i x i).1 = x.1
    rw [Function.update_self]
  · rw [hrest]
    exact h.kept

theorem sound_proceed (h : Sound s) {x : Monitors.At (Fin N) Empty}
    (hfree : Place.free (s.pc i).2.1 = false) (hrun : s.shared.monitor.kernel.state i = .runnable)
    (hproceed : onMonitor (proceed i (s.pc i).2.1) s.shared = .ok (.ok x, t)) :
    Sound { shared := t, pc := Function.update s.pc i ((s.pc i).1, x) } := by
  obtain ⟨monitor, hmonitor, rfl⟩ := onPart_eq_ok hproceed
  refine sound_stays h rfl ?_ fun tokens hpass _ => h.kept.proceeds hpass hfree
  exact refines_proceed h.monitors.threads h.monitors.agrees hfree hrun hmonitor

/-- A step outside of the monitor. -/
theorem sound_outside (h : Sound s) {stage : Stage} {pc pc' : Pc (Sem (Fin N) Empty)}
    (hpc : s.pc i = (stage, .outside, pc)) {monitor : Monitor (Fin N) (Fin N) Empty}
    (hrefines : Refines Empty.elim s.monitors i
      ⟨monitor, Function.update s.monitors.pc i (.outside, pc')⟩) :
    Sound ⟨{ s.shared with monitor := monitor },
      Function.update s.pc i (stage, .outside, pc')⟩ := by
  have hstage : s.ring.stage i = stage := by
    show (s.pc i).1 = _
    rw [hpc]
  have hplace : s.ring.tokens.place i = .outside := by
    show (s.pc i).2.1 = _
    rw [hpc]
  refine sound_stays h hstage hrefines ?_
  intro tokens hpass hstill
  exact absurd hstill (hpass.leaves_outside hplace)

theorem sound_step (hN : 2 ≤ N) (h : Sound s) (hstep : Step s s') : Sound s' := by
  have hthreads := h.monitors.threads
  have hagrees := h.monitors.agrees
  have hsnd : ∀ {i : Fin N} {x : At N}, s.pc i = x → s.monitors.pc i = x.2 := by
    intro i x hpc
    show (s.pc i).2 = _
    rw [hpc]
  cases hstep with
  | advance hpc _ hadvance => exact sound_advance hN h hpc hadvance
  | proceed hfree hrun hproceed => exact sound_proceed h hfree hrun hproceed
  | @start i stage call pc t hpc hfree hcall hrun hstart =>
      obtain ⟨monitor, hmonitor, rfl⟩ := onPart_eq_ok hstart
      have hpermitted : Permitted (MonitorTokens.Place.outside : Place N) call := by
        cases call with
        | up | down | tryDown => exact absurd hcall id
        | exit => rfl
        | sleep | read | wait => trivial
      exact sound_outside h hpc (refines_start hthreads hagrees (hsnd hpc) rfl hpermitted hmonitor)
  | @resume i stage pc pc' t hpc hfree hrun hresume =>
      obtain ⟨monitor, hmonitor, rfl⟩ := onPart_eq_ok hresume
      exact sound_outside h hpc (refines_resume hthreads hagrees (hsnd hpc) rfl hrun hmonitor)
  | @born i t hpc hwake =>
      obtain ⟨monitor, hmonitor, rfl⟩ := onPart_eq_ok hwake
      obtain ⟨kernel, hkernel, rfl⟩ := Monitors.onKernel_eq_ok hmonitor
      have hunborn : (fun j => (s.monitors.pc j).2) i = .unborn := congrArg Prod.snd (hsnd hpc)
      obtain ⟨hwoken, hsound⟩ := born_of hthreads hunborn
      cases hwoken.symm.trans hkernel
      have hsame := same_woken s.monitors.shared.kernel i
      exact sound_outside h hpc (refines_apart hagrees (hsnd hpc) rfl hsound
        (fun k => by rw [hsame.value]) (fun k => hsame.queue _) (by simp))
  | occur hoccur =>
      obtain ⟨monitor, hmonitor, rfl⟩ := onPart_eq_ok hoccur
      refine ⟨sound_of_moves h.monitors (moves_occur hthreads hagrees hmonitor), ?_⟩
      obtain ⟨_, hsame⟩ := tokens_occur hthreads hmonitor
      have hring : System.ring { s with shared := { s.shared with monitor := monitor } } = s.ring := by
        show (⟨_, System.tokens { s.monitors with shared := monitor }, _⟩ : Ring N) = _
        rw [hsame]
        rfl
      rw [hring]
      exact h.kept

theorem sound_starts (h : Starts s) : Sound s := by
  have hmonitors := Monitors.sound_starts (fun k => k.elim) h.monitors
  have hstage : ∀ i, s.ring.stage i = .thinking := h.stage
  have hstate : ∀ i, s.ring.state i = .thinking := h.stateCondvar
  refine ⟨hmonitors, hmonitors.kept, ?_, ?_, ?_, ?_, ?_, ?_, ?_⟩
  · exact fun _ => h.monitors.nextCount
  · intro i
    rw [hstage i]
    exact ⟨h.monitors.place i, hstate i⟩
  · intro i hpos
    have hcount := hmonitors.kept.cv i
    have hzero : s.monitors.tokens.count i = 0 := h.monitors.count i
    change 0 < s.monitors.tokens.units (.cv i) at hpos
    omega
  · intro i w hi
    cases (hstage i).symm.trans hi
  · intro i w hi
    cases (hstage i).symm.trans hi
  · intro i hi
    cases (hstate i).symm.trans hi
  · rintro j ⟨hhungry, _⟩
    cases (hstate j).symm.trans hhungry

/-- The philosopher runs in the monitor, or it has signalled and waits for its turn there. -/
def InMonitor (s : System N) (i : Fin N) : Prop :=
  Signals (s.pc i).2.1

/-- What the philosophers may rely on. -/
structure TableOk (s : System N) : Prop where
  apart : ∀ i, s.shared.stateCondvar i = .eating →
    s.shared.stateCondvar (left i) ≠ .eating ∧ s.shared.stateCondvar (right i) ≠ .eating
  returns : ∀ i, (s.pc i).1 = .eating → s.shared.stateCondvar i = .eating
  served : (∀ i, ¬InMonitor s i) → ∀ i, s.shared.stateCondvar i = .hungry →
    s.shared.stateCondvar (left i) = .eating ∨ s.shared.stateCondvar (right i) = .eating
  passedOn : ∀ i, mayEat s.shared.stateCondvar i →
    ∃ p, Inside s.monitors p ∨ Handed s.monitors p

theorem signals_of_pends {place : Place N} {mood : Mood} {x : Stage}
    (hfits : Fits i x place mood) (h : Pends x i j) : Signals place := by
  have hactive : place = .active → Signals place := by
    rintro rfl
    trivial
  cases x with
  | testing w =>
      cases w with
      | own => exact hactive hfits.1
      | left | right => exact hfits.1
  | passed w => exact hactive (active_of_passed hfits)
  | fed w => exact hactive (active_of_fed hfits)
  | thinking | taking | checking | lifting | eating | putting | leaving => exact absurd h id

theorem Sound.signals_of_mayEat (h : Sound s) (hmay : mayEat s.shared.stateCondvar i) :
    ∃ p, InMonitor s p := by
  obtain ⟨p, hp⟩ := h.kept.settled i hmay
  exact ⟨p, signals_of_pends (h.kept.fits p) hp⟩

/-- While a philosopher is suspended in `cond_signal`, the monitor is not open. -/
theorem Sound.owned_of_inMonitor (h : Sound s) {p : Fin N} (hp : InMonitor s p) :
    ∃ q, Inside s.monitors q ∨ Handed s.monitors q := by
  rcases h.monitors.owned with ⟨hopen, hnobody⟩ | ⟨howned, _⟩
  · exfalso
    have hunits := h.monitors.value_le_units .mutex
    have hnext := h.kept.closed (show 0 < s.monitors.tokens.units .mutex by omega)
    have hcount : s.monitors.tokens.nextCount = tally isSignaller s.monitors.tokens.place :=
      h.monitors.kept.nextCount
    have hsignals : Signals (s.monitors.tokens.place p) := hp
    have hsuspended : isSignaller (s.monitors.tokens.place p) = true := by
      cases hplace : s.monitors.tokens.place p with
      | active => exact absurd ⟨p, Or.inl hplace⟩ hnobody
      | signalled | signalling => rfl
      | outside | entering | released | waiting =>
          rw [hplace] at hsignals
          exact absurd hsignals id
    have hpos := tally_pos hsuspended
    change s.monitors.tokens.nextCount = 0 at hnext
    omega
  · exact howned

theorem Sound.tableOk (h : Sound s) : TableOk s := by
  refine ⟨?_, ?_, ?_, ?_⟩
  · exact fun i hi => ⟨h.kept.exclusive.left_ne hi, h.kept.exclusive i hi⟩
  · intro i hi
    have hfits := h.kept.fits i
    rw [show s.ring.stage i = .eating from hi] at hfits
    exact hfits.2
  · intro hout i hhungry
    by_contra hneither
    rw [not_or] at hneither
    obtain ⟨p, hp⟩ := h.signals_of_mayEat ⟨hhungry, hneither⟩
    exact hout p hp
  · intro i hmay
    obtain ⟨p, hp⟩ := h.signals_of_mayEat hmay
    exact h.owned_of_inMonitor hp

theorem philosophersOk_of_reaches (hN : 2 ≤ N) (hstarts : Starts s) (hrun : ReflTransGen Step s s') :
    TableOk s' := by
  have hsound : Sound s' :=
    holds_of_reaches (fun h hstep => sound_step hN h hstep) (sound_starts hstarts) hrun
  exact hsound.tableOk

end Refinement

section Claims

/-- The philosophers of both kinds, at tables of any size. -/
theorem bothTablesOk_of_reaches (hN : 2 ≤ N) {s s' : PhilosophersSema.System N}
    (hstarts : PhilosophersSema.Starts s) (hrun : ReflTransGen PhilosophersSema.Step s s')
    {t t' : System N} (hstarts' : Starts t) (hrun' : ReflTransGen Step t t') :
    PhilosophersSema.TableOk s' ∧ TableOk t' :=
  ⟨PhilosophersSema.philosophersOk_of_reaches hN hstarts hrun, philosophersOk_of_reaches hN hstarts' hrun'⟩

def idle {κ : Type} (values : κ → Int) : Kernel (Fin 2) κ where
  state := fun _ => .runnable
  waitState := fun _ => 0
  exiting := fun _ => false
  wait := fun _ => ⟨0, .keyboard, false⟩
  queue := fun _ => []
  value := values
  timerList := []
  ups := fun _ => 0
  taken := fun _ => 0
  queued := fun _ => []
  handed := fun _ => []

theorem idle_starts {κ : Type} (values : κ → Int) :
    WaitQueues.Starts values ⟨idle values, fun _ => .running⟩ :=
  ⟨fun _ => Or.inl ⟨rfl, rfl⟩, fun _ => rfl, fun _ => rfl, fun _ => rfl, rfl, rfl, fun _ => rfl,
    fun _ => rfl, fun _ => rfl, fun _ => rfl⟩

def semaSeated : PhilosophersSema.System 2 where
  shared := ⟨idle PhilosophersSema.initial, fun _ => .thinking⟩
  pc := fun _ => (.thinking, .running)

def condvarSeated : System 2 where
  shared := ⟨⟨idle (Monitors.initial Empty.elim), 0, fun _ => 0⟩, fun _ => .thinking⟩
  pc := fun _ => (.thinking, .outside, .running)

/-- One philosopher eats, and its neighbour waits. -/
theorem semaSeated_run : ∃ s, ReflTransGen PhilosophersSema.Step semaSeated s ∧
    (s.pc 0).1 = .eating ∧ (s.pc 1).1 = .waiting ∧ s.shared.stateSema 1 = .hungry := by
  have hrun : ReflTransGen PhilosophersSema.Step semaSeated _ :=
    .single (@PhilosophersSema.Step.advance 2 semaSeated 0 _ _ (fun _ => rfl) rfl rfl)
  replace hrun := hrun.tail (@PhilosophersSema.Step.advance 2 _ 0 _ _ (fun _ => rfl) rfl rfl)
  replace hrun := hrun.tail (@PhilosophersSema.Step.advance 2 _ 0 _ _ (fun _ => rfl) rfl rfl)
  replace hrun := hrun.tail (@PhilosophersSema.Step.advance 2 _ 0 _ _ (fun _ => rfl) rfl rfl)
  replace hrun := hrun.tail (@PhilosophersSema.Step.advance 2 _ 0 _ _ (fun _ => rfl) rfl rfl)
  replace hrun := hrun.tail (@PhilosophersSema.Step.advance 2 _ 0 _ _ (fun _ => rfl) rfl rfl)
  replace hrun := hrun.tail (@PhilosophersSema.Step.advance 2 _ 0 _ _ (fun _ => rfl) rfl rfl)
  replace hrun := hrun.tail (@PhilosophersSema.Step.advance 2 _ 1 _ _ (fun _ => rfl) rfl rfl)
  replace hrun := hrun.tail (@PhilosophersSema.Step.advance 2 _ 1 _ _ (fun _ => rfl) rfl rfl)
  replace hrun := hrun.tail (@PhilosophersSema.Step.advance 2 _ 1 _ _ (fun _ => rfl) rfl rfl)
  replace hrun := hrun.tail (@PhilosophersSema.Step.advance 2 _ 1 _ _ (fun _ => rfl) rfl rfl)
  replace hrun := hrun.tail (@PhilosophersSema.Step.advance 2 _ 1 _ _ (fun _ => rfl) rfl rfl)
  exact ⟨_, hrun, rfl, rfl, rfl⟩

/-- One philosopher has eaten, and is suspended while its neighbour has not gone on. -/
theorem condvarSeated_run : ∃ s, ReflTransGen Step condvarSeated s ∧
    (s.pc 0).1 = .testing .right ∧ (s.pc 1).1 = .lifting ∧ s.shared.stateCondvar 1 = .eating := by
  have hrun : ReflTransGen Step condvarSeated _ :=
    .single (@Step.advance 2 condvarSeated 0 _ _ _ rfl rfl rfl)
  replace hrun := hrun.tail (@Step.advance 2 _ 0 _ _ _ rfl rfl rfl)
  replace hrun := hrun.tail (@Step.advance 2 _ 0 _ _ _ rfl rfl rfl)
  replace hrun := hrun.tail (@Step.advance 2 _ 0 _ _ _ rfl rfl rfl)
  replace hrun := hrun.tail (@Step.advance 2 _ 0 _ _ _ rfl rfl rfl)
  replace hrun := hrun.tail (@Step.advance 2 _ 0 _ _ _ rfl rfl rfl)
  replace hrun := hrun.tail (@Step.advance 2 _ 0 _ _ _ rfl rfl rfl)
  replace hrun := hrun.tail (@Step.advance 2 _ 1 _ _ _ rfl rfl rfl)
  replace hrun := hrun.tail (@Step.advance 2 _ 1 _ _ _ rfl rfl rfl)
  replace hrun := hrun.tail (@Step.advance 2 _ 1 _ _ _ rfl rfl rfl)
  replace hrun := hrun.tail (@Step.advance 2 _ 1 _ _ _ rfl rfl rfl)
  replace hrun := hrun.tail (@Step.proceed 2 _ 1 _ _ rfl rfl rfl)
  replace hrun := hrun.tail (@Step.advance 2 _ 0 _ _ _ rfl rfl rfl)
  replace hrun := hrun.tail (@Step.advance 2 _ 0 _ _ _ rfl rfl rfl)
  replace hrun := hrun.tail (@Step.advance 2 _ 0 _ _ _ rfl rfl rfl)
  replace hrun := hrun.tail (@Step.advance 2 _ 0 _ _ _ rfl rfl rfl)
  replace hrun := hrun.tail (@Step.advance 2 _ 0 _ _ _ rfl rfl rfl)
  exact ⟨_, hrun, rfl, rfl, rfl⟩

theorem bothTablesOk_of_reaches_hungry : ∃ (s : PhilosophersSema.System 2) (t : System 2),
    s.shared.stateSema 1 = .hungry ∧ PhilosophersSema.TableOk s ∧
      (t.pc 0).1 = .testing .right ∧ TableOk t := by
  obtain ⟨s, hrun, _, _, hhungry⟩ := semaSeated_run
  obtain ⟨t, hrun', htesting, _, _⟩ := condvarSeated_run
  have hmonitors : Monitors.Starts Empty.elim condvarSeated.monitors :=
    ⟨idle_starts _, fun _ => rfl, rfl, fun _ => rfl⟩
  obtain ⟨hsema, hcondvar⟩ := bothTablesOk_of_reaches le_rfl
    ⟨idle_starts _, fun _ => rfl, fun _ => rfl⟩ hrun ⟨hmonitors, fun _ => rfl, fun _ => rfl⟩ hrun'
  exact ⟨s, t, hhungry, hsema, htesting, hcondvar⟩

end Claims

end Ucore.PhilosophersCondvar
