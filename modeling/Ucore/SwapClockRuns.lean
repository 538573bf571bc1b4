import Ucore.SwapClock

namespace Ucore.SwapClockRuns

open Ucore.LinkRing
open Ucore.ListHeader
open Ucore.DefaultPmm (npages)
open Ucore.SecondChance
open Ucore.SwapClock

inductive Event where
  | arrived (page : Nat)
  | evicted (page : Nat)
  deriving DecidableEq, Repr

/-- The resident pages in arrival order. -/
def residents (es : List Event) : List Nat :=
  es.foldl (fun ps e => match e with
    | .arrived page => ps ++ [page]
    | .evicted page => ps.erase page) []

/-- One event of the reference: the victim has to be the page that it evicts. -/
def replayStep (c : Clock Nat) : Event → Option (Clock Nat)
  | .arrived page => some (arrive c page)
  | .evicted page =>
      match evict c with
      | some (victim, c') => if victim = page then some c' else none
      | none => none

def replay (es : List Event) : Option (Clock Nat) :=
  es.foldlM replayStep start

/-- Each victim is the one of the second-chance algorithm. -/
def FollowsReference (es : List Event) : Prop :=
  (replay es).isSome

/-- The calls for one `mm`, the victims of which are chosen in states that meet `guard`: pages
arrive that are not resident, and there are victims where there are resident pages. -/
inductive Run (guard : Swapper → List Event → Prop) (s₀ : Swapper) :
    Swapper → List Event → Prop
  | init : Run guard s₀ (clockInitMm s₀) []
  | mapSwappable {s : Swapper} {es : List Event} {page : Nat} : Run guard s₀ s es →
      page < npages → page ∉ residents es →
        Run guard s₀ (clockMapSwappable s page) (es ++ [.arrived page])
  | swapOutVictim {s s' : Swapper} {es : List Event} {page : Nat} : Run guard s₀ s es →
      residents es ≠ [] → guard s es → clockSwapOutVictim s 0 = .ok (page, s') →
        Run guard s₀ s' (es ++ [.evicted page])

def Anywhere (_ : Swapper) (_ : List Event) : Prop :=
  True

/-- `curr_ptr` is at the page that arrived first, or the flag of one resident page alone is
clear. -/
def HandInPlace (s : Swapper) (es : List Event) : Prop :=
  s.currPtr = listPrev s.links .praListHead ∨
    (residents es).countP (fun page => s.visited page = 0) = 1

@[simp] theorem residents_arrived (es : List Event) (page : Nat) :
    residents (es ++ [.arrived page]) = residents es ++ [page] := by
  simp [residents]

@[simp] theorem residents_evicted (es : List Event) (page : Nat) :
    residents (es ++ [.evicted page]) = (residents es).erase page := by
  simp [residents]

section Reference

variable {es : List Event} {ps rest : List Nat} {page victim oldest : Nat}

/-- The reference has its hand at the oldest of the pages `ps`, and the flags of the newest ones
are the ones set. -/
def Queued (es : List Event) (ps : List Nat) : Prop :=
  ∃ as bs, replay es = some (queue as bs) ∧ as ++ bs = ps

theorem replay_concat (e : Event) :
    replay (es ++ [e]) = (replay es).bind fun c => replayStep c e := by
  rw [replay, List.foldlM_append]
  cases h : List.foldlM replayStep start es with
  | none => simp [replay, h]
  | some c => simp [replay, h]

theorem queued_nil : Queued [] [] :=
  ⟨[], [], rfl, rfl⟩

theorem Queued.arrived (h : Queued es ps) : Queued (es ++ [.arrived page]) (ps ++ [page]) := by
  obtain ⟨as, bs, hreplay, rfl⟩ := h
  refine ⟨as, bs ++ [page], ?_, by simp⟩
  rw [replay_concat, hreplay, Option.bind_some, replayStep, arrive_queue]

/-- The reference evicts the oldest page. -/
theorem Queued.evict (h : Queued es (oldest :: rest)) :
    ∃ as bs c, replay es = some c ∧ evict c = some (oldest, queue as bs) ∧ as ++ bs = rest := by
  obtain ⟨as, bs, hreplay, hsplit⟩ := h
  match as with
  | [] =>
      rw [List.nil_append] at hsplit
      subst hsplit
      exact ⟨rest, [], _, hreplay, evict_queue_nil oldest, by simp⟩
  | a :: as =>
      obtain ⟨rfl, rfl⟩ := List.cons.inj hsplit
      exact ⟨as, bs, _, hreplay, evict_queue_cons a, rfl⟩

theorem Queued.evicted (h : Queued es (oldest :: rest)) :
    Queued (es ++ [.evicted oldest]) rest := by
  obtain ⟨as, bs, c, hreplay, hevict, hrest⟩ := h.evict
  refine ⟨as, bs, ?_, hrest⟩
  rw [replay_concat, hreplay, Option.bind_some, replayStep, hevict]
  exact if_pos rfl

theorem Queued.not_follows (h : Queued es (oldest :: rest)) (hne : victim ≠ oldest) :
    ¬FollowsReference (es ++ [.evicted victim]) := by
  obtain ⟨as, bs, c, hreplay, hevict, _⟩ := h.evict
  have hnone : replay (es ++ [.evicted victim]) = none := by
    rw [replay_concat, hreplay, Option.bind_some, replayStep, hevict]
    exact if_neg hne.symm
  simp [FollowsReference, hnone]

theorem FollowsReference.earlier {e : Event} (h : FollowsReference (es ++ [e])) :
    FollowsReference es := by
  unfold FollowsReference at h ⊢
  rw [replay_concat] at h
  match hreplay : replay es with
  | none => simp [hreplay] at h
  | some c => rfl

end Reference

section Victims

variable {s : Swapper} {as bs rest : List Nat} {oldest : Nat}

/-- The flags of the older pages `as` are clear, those of the newer pages `bs` set. -/
structure Flags (s : Swapper) (as bs : List Nat) : Prop where
  clear : ∀ a ∈ as, s.visited a = 0
  set : ∀ b ∈ bs, s.visited b ≠ 0

/-- The hand stands at the newest of the pages, which is the first of the list. -/
def AtNewest (s : Swapper) (ps : List Nat) : Prop :=
  At s ps.reverse ps.reverse

/-- The hand stands at the oldest of the pages, which is the last of the list. -/
def AtOldest (s : Swapper) (ps : List Nat) : Prop :=
  ∃ oldest rest, ps = oldest :: rest ∧ At s ps.reverse (oldest :: rest.reverse)

/-- A victim that is the oldest page. -/
def EvictsOldest (s : Swapper) (oldest : Nat) (rest : List Nat) : Prop :=
  ∃ s' as bs, clockSwapOutVictim s 0 = .ok (oldest, s') ∧ as ++ bs = rest ∧ Flags s' as bs ∧
    AtNewest s' rest

theorem erase_last (hnodup : (oldest :: rest).Nodup) :
    ((oldest :: rest).reverse).erase oldest = rest.reverse := by
  have hout : oldest ∉ rest.reverse := by
    rw [List.mem_reverse]
    exact (List.nodup_cons.mp hnodup).1
  rw [List.reverse_cons, List.erase_append_right _ hout]
  simp

/-- From the oldest page on, the hand comes to a clear flag there, at once or when it has been
around. -/
theorem evictsOldest_of_atOldest (h : AtOldest s (oldest :: rest)) (hflags : Flags s as bs)
    (hsplit : as ++ bs = oldest :: rest) : EvictsOldest s oldest rest := by
  obtain ⟨o, r, heq, hat⟩ := h
  obtain ⟨rfl, rfl⟩ := List.cons.inj heq
  have hnodup : (oldest :: rest).Nodup := List.nodup_reverse.mp hat.nodup
  have hout : oldest ∉ rest := (List.nodup_cons.mp hnodup).1
  match as with
  | [] =>
      rw [List.nil_append] at hsplit
      subst hsplit
      obtain ⟨s', heq, hat', hcleared⟩ := swapOutVictim_set hat (by
        intro x hx
        refine hflags.set x ?_
        simpa using hx)
      rw [erase_last hnodup] at hat'
      exact ⟨s', rest, [], heq, by simp,
        ⟨fun a ha => hcleared a (List.mem_reverse.mpr ha), by simp⟩, hat'⟩
  | a :: as =>
      obtain ⟨rfl, rfl⟩ := List.cons.inj hsplit
      obtain ⟨s', heq, hat', hvisited⟩ := @swapOutVictim_clear _ _ [] _ _ hat (by simp)
        (hflags.clear a List.mem_cons_self)
      rw [erase_last hnodup, List.append_nil] at hat'
      have hkept : ∀ q ∈ as ++ bs, s'.visited q = s.visited q := by
        intro q hq
        have hne : q ≠ a := by
          rintro rfl
          exact hout hq
        simpa using hvisited q hne
      refine ⟨s', as, bs, heq, rfl, ⟨fun q hq => ?_, fun q hq => ?_⟩, hat'⟩
      · rw [hkept q (List.mem_append_left _ hq)]
        exact hflags.clear q (List.mem_cons_of_mem _ hq)
      · rw [hkept q (List.mem_append_right _ hq)]
        exact hflags.set q hq

/-- From the newest page on, the hand comes to the oldest one if its flag alone is clear. -/
theorem evictsOldest_of_atNewest (h : AtNewest s (oldest :: rest))
    (hflags : Flags s [oldest] rest) : EvictsOldest s oldest rest := by
  have hnodup : (oldest :: rest).Nodup := List.nodup_reverse.mp h.nodup
  have hview : At s (oldest :: rest).reverse (rest.reverse ++ oldest :: []) := by
    simpa [AtNewest] using h
  obtain ⟨s', heq, hat', hvisited⟩ := swapOutVictim_clear hview
    (fun x hx => hflags.set x (List.mem_reverse.mp hx)) (hflags.clear oldest (by simp))
  rw [erase_last hnodup, List.nil_append] at hat'
  refine ⟨s', rest, [], heq, by simp, ⟨fun q hq => ?_, by simp⟩, hat'⟩
  have hne : q ≠ oldest := by
    rintro rfl
    exact (List.nodup_cons.mp hnodup).1 hq
  rw [hvisited q hne, if_pos (List.mem_reverse.mpr hq)]

/-- From the newest page on, the hand comes to a page that is not the oldest if not exactly one
flag is clear. -/
theorem evictsOther_of_atNewest (h : AtNewest s (oldest :: rest)) (hflags : Flags s as bs)
    (hsplit : as ++ bs = oldest :: rest) (hrest : rest ≠ []) (hmany : as.length ≠ 1) :
    ∃ victim s', clockSwapOutVictim s 0 = .ok (victim, s') ∧ victim ≠ oldest := by
  have hnodup : (oldest :: rest).Nodup := List.nodup_reverse.mp h.nodup
  have hout : oldest ∉ rest := (List.nodup_cons.mp hnodup).1
  rcases List.eq_nil_or_concat' as with rfl | ⟨as, a, rfl⟩
  · obtain ⟨front, newest, rfl⟩ := (List.eq_nil_or_concat' rest).resolve_left hrest
    rw [List.nil_append] at hsplit
    subst hsplit
    have hview : At s (oldest :: (front ++ [newest])).reverse
        (newest :: (front.reverse ++ [oldest])) := by
      simpa [AtNewest] using h
    obtain ⟨s', heq, _⟩ := swapOutVictim_set hview (by
      intro x hx
      refine hflags.set x ?_
      simp only [List.mem_cons, List.mem_append, List.mem_reverse, List.not_mem_nil] at hx ⊢
      tauto)
    refine ⟨newest, s', heq, ?_⟩
    rintro rfl
    exact hout (by simp)
  · match as with
    | [] => exact absurd rfl hmany
    | o :: as =>
        obtain ⟨rfl, rfl⟩ := List.cons.inj hsplit
        have hview : At s (o :: (as ++ [a] ++ bs)).reverse
            (bs.reverse ++ a :: (as.reverse ++ [o])) := by
          simpa [AtNewest] using h
        obtain ⟨s', heq, _⟩ := swapOutVictim_clear hview
          (fun x hx => hflags.set x (List.mem_reverse.mp hx)) (hflags.clear a (by simp))
        refine ⟨a, s', heq, ?_⟩
        rintro rfl
        exact hout (by simp)

end Victims

section Runs

variable {s₀ s : Swapper} {es : List Event} {ps view : List Nat} {page : Nat}
  {guard : Swapper → List Event → Prop}

theorem init_at (s₀ : Swapper) : At (clockInitMm s₀) [] [] where
  head := rfl
  ring := ring_listInit s₀.links .praListHead
  bounded := by simp
  around := List.IsRotated.refl []
  hand := by simp

theorem mapSwappable_atOldest (h : At s ps.reverse view) (hnew : page ∉ ps)
    (hbound : page < npages) : AtOldest (clockMapSwappable s page) (ps ++ [page]) := by
  have hfresh : page ∉ ps.reverse := by
    rw [List.mem_reverse]
    exact hnew
  match ps with
  | [] => exact ⟨page, [], rfl, @mapSwappable_at _ _ _ [] _ page h hfresh hbound rfl⟩
  | oldest :: rest =>
      have hat := @mapSwappable_at _ _ _ (page :: rest.reverse) _ oldest h hfresh hbound (by simp)
      refine ⟨oldest, rest ++ [page], rfl, ?_⟩
      simpa using hat

theorem AtOldest.at (h : AtOldest s ps) : ∃ view, At s ps.reverse view := by
  obtain ⟨oldest, rest, rfl, hat⟩ := h
  exact ⟨_, hat⟩

theorem view_ne_nil (h : At s ps.reverse view) (hne : ps ≠ []) : view ≠ [] := by
  rintro rfl
  have hnil := List.isRotated_nil_iff'.mp h.around
  exact hne (List.reverse_eq_nil_iff.mp hnil.symm)

/-- The list holds the resident pages in every state that is reached. -/
theorem at_of_run (h : Run guard s₀ s es) : ∃ view, At s (residents es).reverse view := by
  induction h with
  | init => exact ⟨[], init_at s₀⟩
  | mapSwappable _ hbound hnew ih =>
      obtain ⟨view, hat⟩ := ih
      rw [residents_arrived]
      exact (mapSwappable_atOldest hat hnew hbound).at
  | @swapOutVictim s s' es page _ hne _ heq ih =>
      obtain ⟨view, hat⟩ := ih
      obtain ⟨victim, s'', view', heq', _, hat'⟩ := swapOutVictim_returns hat (view_ne_nil hat hne)
      obtain ⟨rfl, rfl⟩ := Prod.mk.inj (Except.ok.inj (heq.symm.trans heq'))
      have herase : (residents es).reverse.erase page = ((residents es).erase page).reverse := by
        rw [hat.nodup.erase_eq_filter, (List.nodup_reverse.mp hat.nodup).erase_eq_filter,
          List.filter_reverse]
      rw [residents_evicted, ← herase]
      exact ⟨view', hat'⟩

/-- What holds while every hand was in place: the flags of the newest pages are the ones set,
and the hand is at one of the ends. -/
structure InOrder (s : Swapper) (es : List Event) : Prop where
  flags : ∃ as bs, as ++ bs = residents es ∧ Flags s as bs
  hand : AtNewest s (residents es) ∨ AtOldest s (residents es)
  queued : Queued es (residents es)

theorem InOrder.arrived (h : InOrder s es) (hnew : page ∉ residents es) (hbound : page < npages) :
    InOrder (clockMapSwappable s page) (es ++ [.arrived page]) := by
  obtain ⟨as, bs, hsplit, hflags⟩ := h.flags
  have hat : ∃ view, At s (residents es).reverse view := by
    rcases h.hand with hat | hat
    · exact ⟨_, hat⟩
    · exact hat.at
  obtain ⟨view, hat⟩ := hat
  have hother : ∀ q ∈ as ++ bs, (clockMapSwappable s page).visited q = s.visited q := by
    intro q hq
    refine Function.update_of_ne ?_ _ _
    rintro rfl
    exact hnew (hsplit ▸ hq)
  refine ⟨⟨as, bs ++ [page], ?_, ⟨fun a ha => ?_, fun b hb => ?_⟩⟩, .inr ?_, ?_⟩
  · rw [residents_arrived, ← hsplit, List.append_assoc]
  · rw [hother a (List.mem_append_left _ ha)]
    exact hflags.clear a ha
  · rcases List.mem_append.mp hb with hb | hb
    · rw [hother b (List.mem_append_right _ hb)]
      exact hflags.set b hb
    · obtain rfl := List.mem_singleton.mp hb
      have hself : (clockMapSwappable s b).visited b = 1 := Function.update_self _ _ _
      rw [hself]
      exact one_ne_zero
  · rw [residents_arrived]
    exact mapSwappable_atOldest hat hnew hbound
  · rw [residents_arrived]
    exact h.queued.arrived

/-- The flags that are clear are counted by the older part. -/
theorem Flags.count {as bs : List Nat} (h : Flags s as bs) :
    (as ++ bs).countP (fun q => s.visited q = 0) = as.length := by
  have has : as.countP (fun q => s.visited q = 0) = as.length :=
    List.countP_eq_length.mpr fun a ha => by simpa using h.clear a ha
  have hbs : bs.countP (fun q => s.visited q = 0) = 0 :=
    List.countP_eq_zero.mpr fun b hb => by simpa using h.set b hb
  rw [List.countP_append, has, hbs, Nat.add_zero]

theorem prev_head {oldest : Nat} {rest : List Nat} (h : At s (oldest :: rest).reverse view) :
    listPrev s.links .praListHead = .praPageLink oldest := by
  have hring := h.ring
  rw [List.reverse_cons, entries, List.map_append, List.map_singleton,
    ← List.append_nil (_ ++ _)] at hring
  have hprev := hring.prev_firstOf
  rw [firstOf_nil, lastOf_append_singleton] at hprev
  exact hprev

/-- The oldest page is the victim exactly when the hand is in place. -/
theorem InOrder.victim {oldest : Nat} {rest : List Nat} (h : InOrder s es)
    (hres : residents es = oldest :: rest) :
    HandInPlace s es ∧ EvictsOldest s oldest rest ∨
      ¬HandInPlace s es ∧
        ∃ victim s', clockSwapOutVictim s 0 = .ok (victim, s') ∧ victim ≠ oldest := by
  obtain ⟨as, bs, hsplit, hflags⟩ := h.flags
  have hcount := hflags.count
  have hhand := h.hand
  rw [hres] at hsplit hhand
  rcases hhand with hat | hat
  · by_cases hone : as.length = 1
    · obtain ⟨a, rfl⟩ := List.length_eq_one_iff.mp hone
      obtain ⟨rfl, rfl⟩ := List.cons.inj hsplit
      refine .inl ⟨.inr ?_, evictsOldest_of_atNewest hat hflags⟩
      rw [hres]
      exact hcount
    · rcases List.eq_nil_or_concat' rest with rfl | ⟨front, newest, rfl⟩
      · have hsame : AtOldest s [oldest] := ⟨oldest, [], rfl, hat⟩
        refine .inl ⟨.inl ?_, evictsOldest_of_atOldest hsame hflags hsplit⟩
        rw [prev_head hat]
        exact hat.hand oldest rfl
      · refine .inr ⟨?_, evictsOther_of_atNewest hat hflags hsplit (by simp) hone⟩
        rintro (hprev | hclear)
        · have hnewest : s.currPtr = .praPageLink newest := hat.hand newest (by simp)
          rw [prev_head hat, hnewest] at hprev
          have hnodup := List.nodup_reverse.mp hat.nodup
          obtain rfl : newest = oldest := by simpa using hprev
          exact (List.nodup_cons.mp hnodup).1 (by simp)
        · rw [hres, ← hsplit, hcount] at hclear
          exact hone hclear
  · refine .inl ⟨.inl ?_, evictsOldest_of_atOldest hat hflags hsplit⟩
    obtain ⟨o, r, heq, hat⟩ := hat
    obtain ⟨rfl, rfl⟩ := List.cons.inj heq
    rw [prev_head hat]
    exact hat.hand oldest rfl

theorem inOrder_of_run (h : Run HandInPlace s₀ s es) : InOrder s es := by
  induction h with
  | init => exact ⟨⟨[], [], rfl, ⟨by simp, by simp⟩⟩, .inl (init_at s₀), queued_nil⟩
  | mapSwappable _ hbound hnew ih => exact ih.arrived hnew hbound
  | @swapOutVictim s s' es page _ hne hplace heq ih =>
      obtain ⟨oldest, rest, hres⟩ := List.exists_cons_of_ne_nil hne
      rcases ih.victim hres with ⟨_, s'', as, bs, heq', hrest, hflags, hat⟩ | ⟨hnot, _⟩
      · obtain ⟨rfl, rfl⟩ := Prod.mk.inj (Except.ok.inj (heq.symm.trans heq'))
        have hleft : residents (es ++ [.evicted page]) = rest := by
          rw [residents_evicted, hres, List.erase_cons_head]
        have hqueued := ih.queued
        rw [hres] at hqueued
        exact ⟨⟨as, bs, hrest.trans hleft.symm, hflags⟩, .inl (hleft ▸ hat),
          hleft ▸ hqueued.evicted⟩
      · exact absurd hplace hnot

/-- The victims are those of the second-chance algorithm exactly in the runs in which the hand
was in place for each of them. -/
theorem followsReference_iff (h : Run Anywhere s₀ s es) :
    FollowsReference es ↔ Run HandInPlace s₀ s es := by
  constructor
  · intro hfollows
    induction h with
    | init => exact .init
    | mapSwappable _ hbound hnew ih => exact .mapSwappable (ih hfollows.earlier) hbound hnew
    | @swapOutVictim s s' es page _ hne _ heq ih =>
        have hrun := ih hfollows.earlier
        have horder := inOrder_of_run hrun
        obtain ⟨oldest, rest, hres⟩ := List.exists_cons_of_ne_nil hne
        rcases horder.victim hres with ⟨hplace, _⟩ | ⟨_, victim, s'', heq', hother⟩
        · exact .swapOutVictim hrun hne hplace heq
        · obtain ⟨rfl, rfl⟩ := Prod.mk.inj (Except.ok.inj (heq.symm.trans heq'))
          have hqueued := horder.queued
          rw [hres] at hqueued
          exact absurd hfollows (hqueued.not_follows hother)
  · intro hrun
    obtain ⟨as, bs, hreplay, _⟩ := (inOrder_of_run hrun).queued
    rw [FollowsReference, hreplay]
    rfl

/-- A victim is always found, and it is the one of the second-chance algorithm for each call
exactly if the hand is in place for each. -/
theorem victims_secondChance_iff (h : Run Anywhere s₀ s es) :
    (FollowsReference es ↔ Run HandInPlace s₀ s es) ∧
      (residents es ≠ [] → ∃ victim s', clockSwapOutVictim s 0 = .ok (victim, s') ∧
        victim ∈ residents es) := by
  refine ⟨followsReference_iff h, fun hne => ?_⟩
  obtain ⟨view, hat⟩ := at_of_run h
  obtain ⟨victim, s', _, heq, hmem, _⟩ := swapOutVictim_returns hat (view_ne_nil hat hne)
  exact ⟨victim, s', heq, List.mem_reverse.mp hmem⟩

/-- Memory before any call. -/
def blank : Swapper :=
  ⟨⟨id, id⟩, .praListHead, .praListHead, fun _ => 0⟩

/-- Three pages have arrived. -/
def threePages : Swapper :=
  clockMapSwappable (clockMapSwappable (clockMapSwappable (clockInitMm blank) 1) 2) 3

theorem run_threePages :
    Run guard blank threePages [.arrived 1, .arrived 2, .arrived 3] :=
  .mapSwappable (.mapSwappable (.mapSwappable .init (by decide) (by decide)) (by decide)
    (by decide)) (by decide) (by decide)

theorem victims_secondChance_iff_threePages :
    (FollowsReference [.arrived 1, .arrived 2, .arrived 3] ↔
        Run HandInPlace blank threePages [.arrived 1, .arrived 2, .arrived 3]) ∧
      (residents [.arrived 1, .arrived 2, .arrived 3] ≠ [] →
        ∃ victim s', clockSwapOutVictim threePages 0 = .ok (victim, s') ∧
          victim ∈ residents [.arrived 1, .arrived 2, .arrived 3]) :=
  victims_secondChance_iff run_threePages

/-- The second of two victims in a row is the newest page. -/
theorem not_secondChance_twoVictims :
    ∃ s, Run Anywhere blank s [.arrived 1, .arrived 2, .arrived 3, .evicted 1, .evicted 3] ∧
      ¬FollowsReference [.arrived 1, .arrived 2, .arrived 3, .evicted 1, .evicted 3] := by
  refine ⟨_, .swapOutVictim (.swapOutVictim run_threePages (by decide) trivial rfl) (by decide)
    trivial rfl, ?_⟩
  simp [FollowsReference, replay, replayStep, arrive, start, evict]

/-- What a call for a victim finds and leaves behind, when the list holds `pages`. -/
structure Evicts (s : Swapper) (pages : List Nat) (victim : Nat) (s' : Swapper) : Prop where
  listed : RingList s.links .praListHead (entries pages)
  hand : ∃ p ∈ pages, s.currPtr = .praPageLink p
  rounds : victimLoop s.smPriv (pages.length + 1) s = .ok (victim, s')
  returns : clockSwapOutVictim s 0 = .ok (victim, s')
  victim_mem : victim ∈ pages
  unlinked : RingList s'.links .praListHead (entries (pages.erase victim))

theorem evicts_of_at {pages : List Nat} (h : At s pages view) (hne : view ≠ []) :
    ∃ victim s', Evicts s pages victim s' := by
  obtain ⟨victim, s', view', hloop, hmem, hat⟩ := victimLoop_returns h hne
  have hlen : view.length = pages.length := h.around.perm.length_eq
  refine ⟨victim, s', h.ring, ?_, ?_, h.swapOutVictim hloop, hmem, hat.ring⟩
  · obtain ⟨p, rest, rfl⟩ := List.exists_cons_of_ne_nil hne
    exact ⟨p, h.around.perm.mem_iff.mp List.mem_cons_self, h.hand p rfl⟩
  · rw [h.head, ← hlen]
    exact hloop

/-- Whenever pages are left, `curr_ptr` is at one of them, and a call for a victim unlinks one
of them in at most one round of its loop more than there are pages. -/
theorem hand_sound (h : Run Anywhere s₀ s es) (hne : residents es ≠ []) :
    ∃ victim s', Evicts s (residents es).reverse victim s' := by
  obtain ⟨view, hat⟩ := at_of_run h
  exact evicts_of_at hat (view_ne_nil hat hne)

theorem hand_sound_threePages :
    ∃ victim s', Evicts threePages (residents [.arrived 1, .arrived 2, .arrived 3]).reverse
      victim s' :=
  hand_sound run_threePages (by decide)

end Runs

end Ucore.SwapClockRuns
