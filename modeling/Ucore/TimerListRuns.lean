import Ucore.TimerList

/-! The timer list sets off every timer at its deadline. -/

namespace Ucore.TimerListRuns

open Ucore.Errors
open Ucore.Panic
open Ucore.KernelRoutine
open Ucore.LinkRing
open Ucore.ListHeader
open Ucore.Deadlines
open Ucore.Processes (WT_INTERRUPTED)
open Ucore.TimerList

variable {τ ι : Type}

section Rings

variable {l : Links (Option τ)} {xs as bs : List τ} {x timer : τ}

theorem mem_map_some : (some x ∈ (none : Option τ) :: xs.map some) ↔ x ∈ xs := by
  simp

theorem next_first (h : RingList l none (xs.map some)) :
    listNext l none = firstOf none (xs.map some) :=
  h.next_head

theorem next_inside (h : RingList l none ((as ++ x :: bs).map some)) :
    listNext l (some x) = firstOf none (bs.map some) := by
  rw [List.map_append, List.map_cons] at h
  exact h.next_mem

variable [DecidableEq τ]

/-- A timer that is not in the list is initialised. -/
theorem ring_listInit_other (h : RingList l none (xs.map some)) (hx : x ∉ xs) :
    RingList (listInit l (some x)) none (xs.map some) := by
  have hne : ∀ y ∈ none :: (xs.map some ++ [none]), y ≠ some x := by
    rintro y hy rfl
    simp only [List.mem_cons, reduceCtorEq, List.mem_append, List.mem_map, Option.some.injEq,
      exists_eq_right, List.not_mem_nil, or_false, false_or] at hy
    exact hx hy
  refine ⟨h.1, isChain_of_links_agree h.2 (fun y hy => ?_) fun y hy => ?_⟩
  · exact Function.update_of_ne (hne y (List.mem_of_mem_dropLast hy)) _ _
  · exact Function.update_of_ne (hne y (List.mem_of_mem_tail hy)) _ _

theorem ring_addBefore (h : RingList l none ((as ++ bs).map some)) (hx : x ∉ as ++ bs) :
    RingList (listAddBefore l (firstOf none (bs.map some)) (some x)) none
      ((as ++ x :: bs).map some) := by
  rw [List.map_append] at h
  rw [List.map_append, List.map_cons]
  refine ring_listAddBefore h ?_
  rw [← List.map_append]
  exact fun hmem => hx (mem_map_some.mp hmem)

omit [DecidableEq τ] in
theorem nodup_of_ring (h : RingList l none (xs.map some)) : xs.Nodup :=
  (List.nodup_map_iff (Option.some_injective τ)).mp (List.nodup_cons.mp h.1).2

/-- The links of timers that are not in the list are left alone. -/
theorem next_addBefore (h : RingList l none ((as ++ bs).map some)) {y : τ} (hy : y ∉ as ++ bs)
    (hne : y ≠ x) :
    (listAddBefore l (firstOf none (bs.map some)) (some x)).next (some y) = l.next (some y) := by
  rw [List.map_append] at h
  have hprev : l.prev (firstOf none (bs.map some)) = lastOf none (as.map some) := h.prev_firstOf
  have hlast : some y ≠ lastOf none (as.map some) := by
    intro heq
    have hmem := lastOf_mem (none : Option τ) (as.map some)
    rw [← heq, mem_map_some] at hmem
    exact hy (List.mem_append_left _ hmem)
  show (Function.update (Function.update l.next (l.prev (firstOf none (bs.map some))) (some x))
    (some x) (firstOf none (bs.map some))) (some y) = _
  rw [Function.update_of_ne (fun heq => hne (Option.some.inj heq)), hprev,
    Function.update_of_ne hlast]

theorem ring_delInit (h : RingList l none ((as ++ x :: bs).map some)) :
    RingList (listDelInit l (some x)) none ((as ++ bs).map some) := by
  have hnodup := nodup_of_ring h
  have hx : x ∉ as ++ bs := (List.nodup_cons.mp (List.perm_middle.nodup_iff.mp hnodup)).1
  refine ring_listInit_other ?_ hx
  rw [List.map_append, List.map_cons] at h
  rw [List.map_append]
  exact ring_listDel h

theorem next_delInit (h : RingList l none ((as ++ x :: bs).map some)) {y : τ}
    (hy : y ∉ as ++ x :: bs) : (listDelInit l (some x)).next (some y) = l.next (some y) := by
  rw [List.map_append, List.map_cons] at h
  have hprev : l.prev (some x) = lastOf none (as.map some) := h.prev_mem
  have hlast : some y ≠ lastOf none (as.map some) := by
    intro heq
    have hmem := lastOf_mem (none : Option τ) (as.map some)
    rw [← heq, mem_map_some] at hmem
    exact hy (List.mem_append_left _ hmem)
  have hne : some y ≠ some x := by
    rintro ⟨⟩
    exact hy (List.mem_append_right _ List.mem_cons_self)
  show Function.update (Function.update l.next (l.prev (some x)) (l.next (some x))) (some x)
    (some x) (some y) = _
  rw [Function.update_of_ne hne, hprev, Function.update_of_ne hlast]

theorem next_delInit_self : (listDelInit l (some x)).next (some x) = some x :=
  Function.update_self _ _ _

/-- A timer is linked to itself exactly when it is not in the list. -/
theorem listEmpty_of_mem (h : RingList l none (xs.map some)) (hx : x ∈ xs) :
    listEmpty l (some x) = false := by
  obtain ⟨as, bs, rfl⟩ := List.append_of_mem hx
  have hnodup := nodup_of_ring h
  have hnext := next_inside h
  rw [listEmpty, decide_eq_false_iff_not]
  intro heq
  rw [listNext, heq] at hnext
  have hmem := firstOf_mem (none : Option τ) (bs.map some)
  rw [← hnext, mem_map_some] at hmem
  exact (List.nodup_cons.mp (List.nodup_append.mp hnodup).2.1).1 hmem

end Rings

section Differences

def delta (expires : τ → BitVec 32) (x : τ) : Nat :=
  (expires x).toNat

variable [DecidableEq τ] {expires : τ → BitVec 32} {xs : List τ} {x y : τ} {v : BitVec 32}

theorem delta_update_self : delta (Function.update expires x v) x = v.toNat := by
  rw [delta, Function.update_self]

theorem delta_update_of_ne (h : y ≠ x) : delta (Function.update expires x v) y = delta expires y := by
  rw [delta, Function.update_of_ne h, delta]

end Differences

section Adding

variable [DecidableEq τ] {s : Timers τ ι} {as bs xs : List τ} {timer : τ} {fuel now : Nat}

theorem findPlace_of (h : RingList s.links none ((as ++ bs).map some)) (htimer : timer ∉ bs)
    (hfuel : bs.length < fuel) :
    ∃ as' bs' e', bs = as' ++ bs' ∧
      findPlace timer fuel (firstOf none (bs.map some)) s =
        .ok (.ok (firstOf none (bs'.map some)), { s with expires := e' }) ∧
      (∀ x, x ∉ timer :: bs → e' x = s.expires x) ∧
      absolute now (delta e') (as' ++ timer :: bs') =
        insertAlarm (timer, now + delta s.expires timer) (absolute now (delta s.expires) bs) := by
  induction bs generalizing s as fuel now with
  | nil =>
      cases fuel with
      | zero => omega
      | succ fuel => exact ⟨[], [], s.expires, rfl, rfl, fun _ _ => rfl, rfl⟩
  | cons next rest ih =>
      cases fuel with
      | zero => omega
      | succ fuel =>
      have hne : timer ≠ next := fun heq => htimer (heq ▸ List.mem_cons_self)
      have hrest : timer ∉ rest := fun hmem => htimer (List.mem_cons_of_mem _ hmem)
      have hlength : (next :: rest).length = rest.length + 1 := rfl
      have hnodup := (List.nodup_append.mp (nodup_of_ring h)).2.1
      have hnext : next ∉ rest := (List.nodup_cons.mp hnodup).1
      show ∃ as' bs' e', _ ∧ findPlace timer (fuel + 1) (some next) s = _ ∧ _ ∧ _
      rw [findPlace, getState_bind]
      split
      · next hlt =>
          have hlt' : delta s.expires timer < delta s.expires next := hlt
          have hsub : delta (Function.update s.expires next (s.expires next - s.expires timer))
              next = delta s.expires next - delta s.expires timer := by
            rw [delta_update_self, BitVec.toNat_sub_of_le hlt'.le]
            rfl
          refine ⟨[], next :: rest, _, rfl, rfl, fun x hx => ?_, ?_⟩
          · refine Function.update_of_ne ?_ _ _
            rintro rfl
            exact hx (List.mem_cons_of_mem _ List.mem_cons_self)
          · have hsum : now + delta s.expires timer + (delta s.expires next -
                delta s.expires timer) = now + delta s.expires next := by omega
            have hsame : ∀ x ∈ rest, delta (Function.update s.expires next
                (s.expires next - s.expires timer)) x = delta s.expires x := by
              intro x hx
              refine delta_update_of_ne ?_
              rintro rfl
              exact hnext hx
            rw [List.nil_append, absolute, absolute, delta_update_of_ne hne, hsub, hsum,
              absolute_congr hsame]
            rw [absolute, insertAlarm, if_pos (by simpa using hlt')]
      · next hge =>
          have hge' : delta s.expires next ≤ delta s.expires timer := Nat.le_of_not_lt hge
          let s₁ : Timers τ ι := { s with
            expires := Function.update s.expires timer (s.expires timer - s.expires next) }
          have hring : RingList s₁.links none (((as ++ [next]) ++ rest).map some) := by
            rw [List.append_assoc]
            exact h
          obtain ⟨as', bs', e', rfl, hrun, hothers, habsolute⟩ :=
            @ih s₁ (as ++ [next]) fuel (now + delta s.expires next) hring hrest (by omega)
          have hlink : listNext s.links (some next) = firstOf none ((as' ++ bs').map some) :=
            next_inside h
          have hsame : ∀ x, x ≠ timer → s₁.expires x = s.expires x := fun x hx =>
            Function.update_of_ne hx _ _
          have hself : delta s₁.expires timer =
              delta s.expires timer - delta s.expires next := by
            show delta (Function.update s.expires timer _) timer = _
            rw [delta_update_self, BitVec.toNat_sub_of_le hge']
            rfl
          have hkept : e' next = s.expires next := by
            rw [hothers next (by simp [hne.symm, hnext]), hsame next hne.symm]
          have hsame' : ∀ x ∈ as' ++ bs', delta s₁.expires x = delta s.expires x := by
            intro x hx
            rw [delta, hsame x (fun heq => hrest (heq ▸ hx)), delta]
          refine ⟨next :: as', bs', e', rfl, ?_, fun x hx => ?_, ?_⟩
          · show findPlace timer fuel (listNext s.links (some next)) s₁ = _
            rw [hlink, hrun]
          · have hx' : x ≠ timer := fun heq => hx (heq ▸ List.mem_cons_self)
            rw [hothers x, hsame x hx']
            intro hmem
            refine hx ?_
            rcases List.mem_cons.mp hmem with heq | hmem
            · exact absurd heq hx'
            · exact List.mem_cons_of_mem _ (List.mem_cons_of_mem _ hmem)
          · have hsum : now + delta s.expires next + (delta s.expires timer -
                delta s.expires next) = now + delta s.expires timer := by omega
            have hnot : ¬(now + delta s.expires timer < now + delta s.expires next) := by omega
            rw [List.cons_append, absolute, show delta e' next = delta s.expires next by
              rw [delta, hkept, delta], habsolute, absolute_congr hsame', hself, hsum]
            rw [absolute, insertAlarm, if_neg (by simpa using hnot)]

end Adding

section Deleting

variable [DecidableEq τ] {s : Timers τ ι} {as bs : List τ} {timer : τ} {now : Nat}

theorem passOn_of (h : RingList s.links none ((as ++ timer :: bs).map some))
    (hbound : ∀ y, bs.head? = some y → delta s.expires y + delta s.expires timer < 2 ^ 32) :
    ∃ e', passOn timer s = .ok (.ok (), { s with expires := e' }) ∧
      (∀ x, bs.head? ≠ some x → e' x = s.expires x) ∧
      ∀ y, bs.head? = some y → delta e' y = delta s.expires y + delta s.expires timer := by
  have hlink : listNext s.links (some timer) = firstOf none (bs.map some) := next_inside h
  rw [passOn, getState_bind]
  split
  · next hsome =>
      rw [hlink]
      cases bs with
      | nil => exact ⟨s.expires, rfl, fun _ _ => rfl, nofun⟩
      | cons next rest =>
          refine ⟨Function.update s.expires next (s.expires next + s.expires timer), rfl,
            fun x hx => ?_, ?_⟩
          · refine Function.update_of_ne ?_ _ _
            rintro rfl
            exact hx rfl
          · rintro y ⟨⟩
            rw [delta_update_self, BitVec.toNat_add]
            exact Nat.mod_eq_of_lt (hbound next rfl)
  · next hzero =>
      refine ⟨s.expires, rfl, fun _ _ => rfl, fun y _ => ?_⟩
      have hnone : delta s.expires timer = 0 := by
        rw [delta, not_not.mp hzero]
        rfl
      rw [hnone, Nat.add_zero]

theorem delTimer_of (h : RingList s.links none ((as ++ timer :: bs).map some))
    (hbound : ∀ y, bs.head? = some y → delta s.expires y + delta s.expires timer < 2 ^ 32) :
    ∃ e', delTimer timer s = .ok (.ok (),
        { s with expires := e', links := listDelInit s.links (some timer) }) ∧
      absolute now (delta e') (as ++ bs) =
        (absolute now (delta s.expires) (as ++ timer :: bs)).filter fun alarm => alarm.1 ≠ timer := by
  obtain ⟨e', hrun, hothers, hnext⟩ := passOn_of h hbound
  have hnodup := nodup_of_ring h
  obtain ⟨_, hright, hapart⟩ := List.nodup_append.mp hnodup
  obtain ⟨htimer, hbs⟩ := List.nodup_cons.mp hright
  refine ⟨e', ?_, ?_⟩
  · have hin : listEmpty s.links (some timer) = false :=
      listEmpty_of_mem h (List.mem_append_right _ List.mem_cons_self)
    rw [delTimer, getState_bind, if_neg (by rw [hin]; decide), bind_of_ok hrun]
    rfl
  · have hsame : ∀ x ∈ as, delta e' x = delta s.expires x := by
      intro x hx
      rw [delta, hothers x, delta]
      intro hhead
      exact hapart x hx x (List.mem_cons_of_mem _ (List.mem_of_mem_head? hhead)) rfl
    have hsum : (as.map (delta e')).sum = (as.map (delta s.expires)).sum := by
      rw [List.map_congr_left hsame]
    have hleft : (absolute now (delta s.expires) as).filter (fun alarm => alarm.1 ≠ timer) =
        absolute now (delta s.expires) as := by
      refine List.filter_eq_self.mpr fun alarm hmem => ?_
      simp only [decide_eq_true_eq]
      intro heq
      exact hapart alarm.1 (fst_mem_of_absolute hmem) timer List.mem_cons_self heq
    rw [absolute_append, absolute_append, List.filter_append, hleft, absolute_congr hsame, hsum]
    congr 1
    refine absolute_remove htimer (fun y hy => ?_) fun y hy => hnext y hy
    rw [delta, hothers y, delta]
    intro hhead
    cases bs with
    | nil => cases hhead
    | cons next rest =>
        cases hhead
        exact (List.nodup_cons.mp hbs).1 hy

/-- A timer that is due is deleted. -/
theorem delTimer_zero (h : RingList s.links none ((timer :: bs).map some))
    (hzero : s.expires timer = 0) :
    delTimer timer s = .ok (.ok (), { s with links := listDelInit s.links (some timer) }) := by
  have hin : listEmpty s.links (some timer) = false := listEmpty_of_mem h List.mem_cons_self
  have hpass : passOn timer s = .ok (.ok (), s) := by
    rw [passOn, getState_bind, if_neg (not_not.mpr hzero)]
    rfl
  rw [delTimer, getState_bind, if_neg (by rw [hin]; decide), bind_of_ok hpass]
  rfl

theorem delTimer_out (h : s.links.next (some timer) = some timer) :
    delTimer timer s = .ok (.ok (), s) := by
  have hout : listEmpty s.links (some timer) = true := decide_eq_true h
  rw [delTimer, getState_bind, if_pos hout]
  rfl

end Deleting

section Firing

variable [DecidableEq τ] [DecidableEq ι] {s s' : Timers τ ι} {xs rest : List τ} {timer x : τ}
  {fuel : Nat}

/-- The process of the timer can be woken: it is no zombie, and if it waits, then for
something that may end early. -/
def Wakeable (s : Timers τ ι) (timer : τ) : Prop :=
  ∃ proc, s.proc timer = some proc ∧ s.state proc ≠ .zombie ∧
    (s.waitState proc ≠ 0 → s.waitState proc &&& WT_INTERRUPTED ≠ 0)

/-- Only processes were changed, and none for the worse. -/
structure Woken (s s' : Timers τ ι) : Prop where
  links : s'.links = s.links
  expires : s'.expires = s.expires
  proc : s'.proc = s.proc
  wakeable : ∀ x, Wakeable s x → Wakeable s' x

omit [DecidableEq τ] in
theorem wakeTimer_of (s : Timers τ ι) (timer : τ) :
    (∃ s', wakeTimer timer s = .ok (.ok (), s') ∧ Woken s s') ∨
      (wakeTimer timer s = .error .panic ∧ ¬Wakeable s timer) := by
  rw [wakeTimer, getState_bind]
  cases hproc : s.proc timer with
  | none =>
      refine Or.inr ⟨rfl, ?_⟩
      rintro ⟨proc, hsome, _⟩
      cases hproc.symm.trans hsome
  | some proc =>
  show (∃ s', (ensure _ >>= fun _ => _) s = _ ∧ _) ∨ ((ensure _ >>= fun _ => _) s = _ ∧ _)
  by_cases hwait : s.waitState proc ≠ 0 → s.waitState proc &&& WT_INTERRUPTED ≠ 0
  · rw [ensure_bind_of hwait, wakeupProc, getState_bind]
    by_cases hzombie : s.state proc ≠ .zombie
    · left
      rw [ensure_bind_of hzombie]
      split
      · refine ⟨_, rfl, rfl, rfl, rfl, ?_⟩
        rintro x ⟨p, hp, hstate, hmay⟩
        refine ⟨p, hp, ?_, ?_⟩
        · rcases eq_or_ne p proc with rfl | hne
          · show Function.update s.state p _ p ≠ _
            rw [Function.update_self]
            simp
          · show Function.update s.state proc _ p ≠ _
            rwa [Function.update_of_ne hne]
        · rcases eq_or_ne p proc with rfl | hne
          · show Function.update s.waitState p _ p ≠ 0 → _
            rw [Function.update_self]
            exact fun hne => absurd rfl hne
          · show Function.update s.waitState proc _ p ≠ 0 →
              Function.update s.waitState proc _ p &&& WT_INTERRUPTED ≠ 0
            rwa [Function.update_of_ne hne]
      · exact ⟨s, rfl, rfl, rfl, rfl, fun _ h => h⟩
    · right
      rw [ensure_bind_of_not hzombie]
      refine ⟨rfl, ?_⟩
      rintro ⟨p, hp, hstate, _⟩
      cases hproc.symm.trans hp
      exact hzombie hstate
  · right
    rw [ensure_bind_of_not hwait]
    refine ⟨rfl, ?_⟩
    rintro ⟨p, hp, _, hmay⟩
    cases hproc.symm.trans hp
    exact hwait hmay

/-- The first timer has fired and was taken out. -/
structure Fired (s s' : Timers τ ι) (timer : τ) (rest : List τ) : Prop where
  ring : RingList s'.links none (rest.map some)
  expires : s'.expires = s.expires
  proc : s'.proc = s.proc
  wakeable : ∀ x, Wakeable s x → Wakeable s' x
  others : ∀ y, y ∉ timer :: rest → s'.links.next (some y) = s.links.next (some y)
  self : s'.links.next (some timer) = some timer

theorem fire_first (h : RingList s.links none ((timer :: rest).map some))
    (hzero : s.expires timer = 0) :
    (∃ s₁ s₂, wakeTimer timer s = .ok (.ok (), s₁) ∧ delTimer timer s₁ = .ok (.ok (), s₂) ∧
      Fired s s₂ timer rest) ∨ (wakeTimer timer s = .error .panic ∧ ¬Wakeable s timer) := by
  rcases wakeTimer_of s timer with ⟨s₁, hwake, hwoken⟩ | hpanic
  · left
    have hring : RingList s₁.links none (([] ++ timer :: rest).map some) := by
      rw [hwoken.links]
      exact h
    have hdel := delTimer_zero hring (by rw [hwoken.expires, hzero])
    refine ⟨s₁, _, hwake, hdel, ?_, hwoken.expires, hwoken.proc, hwoken.wakeable,
      fun y hy => ?_, next_delInit_self⟩
    · exact ring_delInit hring
    · rw [← hwoken.links]
      exact next_delInit hring hy
  · exact Or.inr hpanic

/-- The first timers of the list were taken out as they were due. -/
structure Expired (s s' : Timers τ ι) (xs : List τ) : Prop where
  ring : RingList s'.links none ((xs.dropWhile fun x => delta s.expires x = 0).map some)
  expires : s'.expires = s.expires
  proc : s'.proc = s.proc
  others : ∀ y, y ∉ xs → s'.links.next (some y) = s.links.next (some y)
  fired : ∀ y ∈ xs.takeWhile fun x => delta s.expires x = 0, s'.links.next (some y) = some y

omit [DecidableEq τ] [DecidableEq ι] in
theorem Fired.expired {s₂ : Timers τ ι} (h : Fired s s₂ timer rest)
    (htimer : timer ∉ rest) (hzero : delta s.expires timer = 0) (hrest : Expired s₂ s' rest) :
    Expired s s' (timer :: rest) := by
  have hexpires := hrest.ring
  have hfired := hrest.fired
  rw [h.expires] at hexpires hfired
  refine ⟨?_, hrest.expires.trans h.expires, hrest.proc.trans h.proc, fun y hy => ?_,
    fun y hy => ?_⟩
  · rwa [List.dropWhile_cons_of_pos (by simpa using hzero)]
  · rw [hrest.others y (fun hmem => hy (List.mem_cons_of_mem _ hmem)), h.others y hy]
  · rw [List.takeWhile_cons_of_pos (by simpa using hzero)] at hy
    rcases List.mem_cons.mp hy with rfl | hy
    · rw [hrest.others y htimer, h.self]
    · exact hfired y hy

theorem expire_of (h : RingList s.links none ((timer :: rest).map some))
    (hfuel : rest.length < fuel) :
    (∃ s', expire fuel timer s =
        .ok (.ok ((timer :: rest).takeWhile fun x => delta s.expires x = 0), s') ∧
      Expired s s' (timer :: rest)) ∨
    (expire fuel timer s = .error .panic ∧ ∃ x ∈ timer :: rest, ¬Wakeable s x) := by
  induction fuel generalizing s timer rest with
  | zero => omega
  | succ fuel ih =>
  have hlink : listNext s.links (some timer) = firstOf none (rest.map some) :=
    @next_inside τ s.links [] rest timer h
  have htimer : timer ∉ rest := (List.nodup_cons.mp (nodup_of_ring h)).1
  rw [expire, getState_bind]
  by_cases hzero : s.expires timer = 0
  · have hdelta : delta s.expires timer = 0 := by
      rw [delta, hzero]
      rfl
    rw [if_pos hzero, hlink, List.takeWhile_cons_of_pos (by simpa using hdelta)]
    rcases fire_first h hzero with ⟨s₁, s₂, hwake, hdel, hfired⟩ | ⟨hpanic, hnot⟩
    · rw [bind_of_ok hwake, bind_of_ok hdel]
      cases rest with
      | nil =>
          refine Or.inl ⟨s₂, rfl, hfired.expired htimer hdelta ?_⟩
          exact ⟨hfired.ring, rfl, rfl, fun _ _ => rfl, nofun⟩
      | cons next rest =>
          have hlength : (next :: rest).length = rest.length + 1 := rfl
          rcases ih hfired.ring (by omega) with ⟨s', hrun, hexpired⟩ | ⟨hpanic, x, hx, hnot⟩
          · rw [hfired.expires] at hrun
            refine Or.inl ⟨s', ?_, hfired.expired htimer hdelta hexpired⟩
            show (expire fuel next >>= fun fired => _) s₂ = _
            rw [bind_of_ok hrun]
            rfl
          · refine Or.inr ⟨?_, x, List.mem_cons_of_mem _ hx, fun hw => hnot (hfired.wakeable x hw)⟩
            show (expire fuel next >>= fun fired => _) s₂ = _
            rw [bind_of_abort hpanic]
    · exact Or.inr ⟨bind_of_abort hpanic, timer, List.mem_cons_self, hnot⟩
  · left
    have hdelta : delta s.expires timer ≠ 0 := fun heq => hzero (BitVec.eq_of_toNat_eq heq)
    have hnone : (timer :: rest).takeWhile (fun x => delta s.expires x = 0) = [] :=
      List.takeWhile_cons_of_neg (by simpa using hdelta)
    rw [if_neg hzero]
    refine ⟨s, ?_, ?_, rfl, rfl, fun _ _ => rfl, fun y hy => ?_⟩
    · rw [hnone]
      rfl
    · rw [List.dropWhile_cons_of_neg (by simpa using hdelta)]
      exact h
    · rw [hnone] at hy
      exact absurd hy List.not_mem_nil

end Firing

section Keeping

/-- The list has the timers of the pending alarms, and the times to their deadlines. -/
structure Inv (s : Timers τ ι) (a : Alarms τ) (known : τ → Prop) (xs : List τ) : Prop where
  ring : RingList s.links none (xs.map some)
  arranged : Arranged a.pending (absolute a.now (delta s.expires) xs)
  later : ∀ alarm ∈ a.pending, a.now < alarm.2
  bound : ∀ alarm ∈ a.pending, alarm.2 < a.now + 2 ^ 32
  idle : ∀ x, known x → x ∉ xs → s.links.next (some x) = some x

variable [DecidableEq τ] {s : Timers τ ι} {a : Alarms τ} {known : τ → Prop} {xs : List τ}
  {timer : τ} {fuel : Nat}

omit [DecidableEq τ] in
theorem Inv.mem_iff (h : Inv s a known xs) {x : τ} : x ∈ xs ↔ x ∈ a.pending.map Prod.fst := by
  constructor
  · intro hx
    obtain ⟨d, hd⟩ := @mem_absolute_fst τ a.now (delta s.expires) xs x hx
    exact List.mem_map.mpr ⟨(x, d), h.arranged.mem_iff.mp hd, rfl⟩
  · intro hx
    obtain ⟨alarm, halarm, rfl⟩ := List.mem_map.mp hx
    exact fst_mem_of_absolute (h.arranged.mem_iff.mpr halarm)

omit [DecidableEq τ] in
theorem Inv.head_pos (h : Inv s a known (timer :: xs)) : 0 < delta s.expires timer := by
  have hmem : (timer, a.now + delta s.expires timer) ∈ a.pending :=
    h.arranged.mem_iff.mp List.mem_cons_self
  have hlater := h.later _ hmem
  exact Nat.lt_add_right_iff_pos.mp hlater

variable [DecidableEq ι]

theorem inv_add (h : Inv s a known xs) (proc : ι) {v : BitVec 32} (hpos : 0 < v)
    (hnew : timer ∉ a.pending.map Prod.fst) (hfuel : xs.length < fuel) :
    ∃ s' xs', perform fuel (.add timer proc v) s = .ok (.ok [], s') ∧
      Inv s' (a.set timer v.toNat) (learn known (Op.add timer proc v)) xs' ∧
      xs'.length = xs.length + 1 := by
  have htimer : timer ∉ xs := fun hmem => hnew (h.mem_iff.mp hmem)
  let s₁ : Timers τ ι := { s with
    expires := Function.update s.expires timer v
    proc := Function.update s.proc timer (some proc)
    links := listInit s.links (some timer) }
  have hself : s₁.expires timer = v := Function.update_self _ _ _
  have hsame : ∀ x ∈ xs, delta s₁.expires x = delta s.expires x := by
    intro x hx
    refine delta_update_of_ne ?_
    rintro rfl
    exact htimer hx
  have hring : RingList s₁.links none (([] ++ xs).map some) := ring_listInit_other h.ring htimer
  obtain ⟨as, bs, e', rfl, hrun, _, habsolute⟩ :=
    @findPlace_of τ ι _ s₁ [] xs timer fuel a.now hring htimer hfuel
  have hchecks : s₁.expires timer > 0 ∧ (s₁.proc timer).isSome = true := by
    refine ⟨by rw [hself]; exact hpos, ?_⟩
    show (Function.update s.proc timer (some proc) timer).isSome = true
    rw [Function.update_self]
    rfl
  have hempty : listEmpty s₁.links (some timer) = true :=
    decide_eq_true (Function.update_self _ _ _)
  refine ⟨{ s₁ with
    expires := e'
    links := listAddBefore s₁.links (firstOf none (bs.map some)) (some timer) },
    as ++ timer :: bs, ?_, ⟨?_, ?_, ?_, ?_, ?_⟩, ?_⟩
  · have hadd : addTimer fuel timer s₁ = .ok (.ok (), { s₁ with
        expires := e'
        links := listAddBefore s₁.links (firstOf none (bs.map some)) (some timer) }) := by
      rw [addTimer, getState_bind, ensure_bind_of hchecks, ensure_bind_of hempty,
        next_first hring]
      rw [List.nil_append, bind_of_ok hrun]
      rfl
    rw [perform, timerInit, modifyState_bind, bind_of_ok hadd]
    rfl
  · exact ring_addBefore hring htimer
  · rw [absolute_congr hsame] at habsolute
    show Arranged _ (absolute a.now (delta e') (as ++ timer :: bs))
    rw [habsolute, delta, hself]
    exact h.arranged.insert
  · intro alarm halarm
    rcases List.mem_append.mp halarm with halarm | halarm
    · exact h.later alarm halarm
    · rw [List.mem_singleton.mp halarm]
      exact Nat.lt_add_of_pos_right hpos
  · intro alarm halarm
    rcases List.mem_append.mp halarm with halarm | halarm
    · exact h.bound alarm halarm
    · rw [List.mem_singleton.mp halarm]
      exact Nat.add_lt_add_left v.isLt _
  · intro x hx hout
    have hne : x ≠ timer := by
      rintro rfl
      exact hout (List.mem_append_right _ List.mem_cons_self)
    have hxs : x ∉ as ++ bs := by
      intro hmem
      refine hout (List.perm_middle.mem_iff.mpr (List.mem_cons_of_mem _ hmem))
    have hinit : s₁.links.next (some x) = s.links.next (some x) :=
      Function.update_of_ne (fun heq => hne (Option.some.inj heq)) _ _
    show (listAddBefore s₁.links (firstOf none (bs.map some)) (some timer)).next (some x) = some x
    rw [@next_addBefore τ s₁.links as bs timer _ hring x hxs hne, hinit]
    exact h.idle x (hx.resolve_left hne) hxs
  · rw [List.perm_middle.length_eq, List.length_cons]

theorem inv_del (h : Inv s a known xs) (hknown : known timer) :
    ∃ s' xs', perform fuel (.del timer) s = .ok (.ok [], s') ∧
      Inv s' (a.cancel timer) known xs' ∧ xs'.length ≤ xs.length := by
  by_cases hmem : timer ∈ xs
  · obtain ⟨as, bs, rfl⟩ := List.append_of_mem hmem
    have hbound : ∀ y, bs.head? = some y →
        delta s.expires y + delta s.expires timer < 2 ^ 32 := by
      intro y hy
      cases bs with
      | nil => cases hy
      | cons next rest =>
          cases hy
          have hlate : (y, a.now + (as.map (delta s.expires)).sum + delta s.expires timer +
              delta s.expires y) ∈ a.pending := by
            rw [← h.arranged.mem_iff, absolute_append, absolute, absolute]
            exact List.mem_append_right _ (List.mem_cons_of_mem _ List.mem_cons_self)
          have hlt := h.bound _ hlate
          simp only at hlt
          omega
    obtain ⟨e', hrun, habsolute⟩ := @delTimer_of τ ι _ s as bs timer a.now h.ring hbound
    refine ⟨{ s with expires := e', links := listDelInit s.links (some timer) }, as ++ bs, ?_,
      ⟨ring_delInit h.ring, ?_, ?_, ?_, ?_⟩, ?_⟩
    · rw [perform, bind_of_ok hrun]
      rfl
    · show Arranged _ (absolute a.now (delta e') (as ++ bs))
      rw [habsolute]
      exact h.arranged.filter _
    · exact fun alarm halarm => h.later alarm (List.mem_filter.mp halarm).1
    · exact fun alarm halarm => h.bound alarm (List.mem_filter.mp halarm).1
    · intro x hx hout
      rcases eq_or_ne x timer with rfl | hne
      · exact next_delInit_self
      · have hxs : x ∉ as ++ timer :: bs := by
          intro hin
          rcases List.mem_cons.mp (List.perm_middle.mem_iff.mp hin) with heq | hin
          · exact hne heq
          · exact hout hin
        show (listDelInit s.links (some timer)).next (some x) = some x
        rw [next_delInit h.ring hxs]
        exact h.idle x hx hxs
    · rw [List.perm_middle.length_eq, List.length_cons]
      exact Nat.le_succ _
  · have hkept : a.pending.filter (fun alarm => alarm.1 ≠ timer) = a.pending := by
      refine List.filter_eq_self.mpr fun alarm halarm => ?_
      simp only [ne_eq, decide_eq_true_eq]
      rintro rfl
      exact hmem (h.mem_iff.mpr (List.mem_map_of_mem halarm))
    refine ⟨s, xs, ?_, ?_, le_rfl⟩
    · rw [perform, bind_of_ok (delTimer_out (h.idle timer hknown hmem))]
      rfl
    · rw [Alarms.cancel, hkept]
      exact h

theorem inv_tick (h : Inv s a known xs) (hfuel : xs.length < fuel) :
    (∃ s' xs', perform fuel (.tick : Op τ ι) s = .ok (.ok [a.due], s') ∧
      Inv s' a.tick known xs' ∧ xs'.length ≤ xs.length) ∨
    (perform fuel (.tick : Op τ ι) s = .error .panic ∧ ∃ x ∈ xs, ¬Wakeable s x) := by
  cases xs with
  | nil =>
      have hpending : a.pending = [] := by
        refine List.eq_nil_iff_forall_not_mem.mpr fun alarm halarm => ?_
        exact absurd (h.mem_iff.mpr (List.mem_map_of_mem halarm)) List.not_mem_nil
      refine Or.inl ⟨s, [], ?_, ⟨h.ring, ?_, ?_, ?_, h.idle⟩, le_rfl⟩
      · have hnone : listNext s.links none = none := next_first h.ring
        have hrun : runTimerList fuel s = .ok (.ok [], s) := by
          rw [runTimerList, getState_bind, hnone]
          rfl
        rw [perform, bind_of_ok hrun, Alarms.due, hpending]
        rfl
      · rw [Alarms.tick, hpending]
        exact ⟨List.Pairwise.nil, fun d => rfl⟩
      · rw [Alarms.tick, hpending]
        exact fun alarm halarm => absurd halarm List.not_mem_nil
      · rw [Alarms.tick, hpending]
        exact fun alarm halarm => absurd halarm List.not_mem_nil
  | cons timer rest =>
      have hpos := h.head_pos
      have hnot : s.expires timer ≠ 0 := by
        intro heq
        rw [delta, heq] at hpos
        exact absurd hpos (Nat.lt_irrefl 0)
      let s₁ : Timers τ ι := { s with
        expires := Function.update s.expires timer (s.expires timer - 1) }
      have hself : delta s₁.expires timer = delta s.expires timer - 1 := by
        show delta (Function.update s.expires timer _) timer = _
        rw [delta_update_self, BitVec.toNat_sub_of_le (by exact hpos)]
        rfl
      have htimer : timer ∉ rest := (List.nodup_cons.mp (nodup_of_ring h.ring)).1
      have hsame : ∀ x ∈ rest, delta s₁.expires x = delta s.expires x := by
        intro x hx
        refine delta_update_of_ne ?_
        rintro rfl
        exact htimer hx
      have habsolute : absolute (a.now + 1) (delta s₁.expires) (timer :: rest) =
          absolute a.now (delta s.expires) (timer :: rest) := absolute_tick hpos hself hsame
      have harranged := h.arranged
      rw [← habsolute] at harranged
      have hdue : a.due = (timer :: rest).takeWhile fun x => delta s₁.expires x = 0 := by
        rw [Alarms.due, ← harranged.same, filter_absolute_now, List.map_map]
        exact List.map_id _
      have hstart : runTimerList fuel s = expire fuel timer s₁ := by
        have hfirst : listNext s.links none = some timer := next_first h.ring
        rw [runTimerList, getState_bind, hfirst]
        show (ensure _ >>= fun _ => _) s = _
        rw [ensure_bind_of hnot]
        rfl
      have hlength : (timer :: rest).length = rest.length + 1 := rfl
      rcases expire_of (s := s₁) h.ring (by omega : rest.length < fuel) with
        ⟨s', hrun, hexpired⟩ | ⟨hpanic, x, hx, hnotWakeable⟩
      · left
        refine ⟨s', (timer :: rest).dropWhile fun x => delta s₁.expires x = 0, ?_,
          ⟨hexpired.ring, ?_, ?_, ?_, ?_⟩, ?_⟩
        · rw [← hdue, ← hstart] at hrun
          rw [perform, bind_of_ok hrun]
          rfl
        · rw [hexpired.expires]
          show Arranged _ (absolute (a.now + 1) _ _)
          rw [absolute_dropWhile]
          exact harranged.filter _
        · intro alarm halarm
          obtain ⟨hin, hne⟩ := List.mem_filter.mp halarm
          have hlater := h.later alarm hin
          simp only [ne_eq, decide_eq_true_eq] at hne
          show a.now + 1 < alarm.2
          omega
        · intro alarm halarm
          have hbound := h.bound alarm (List.mem_filter.mp halarm).1
          show alarm.2 < a.now + 1 + 2 ^ 32
          omega
        · intro x hx hout
          by_cases hmem : x ∈ timer :: rest
          · refine hexpired.fired x ?_
            rw [← List.takeWhile_append_dropWhile (p := fun x => decide (delta s₁.expires x = 0))
              (l := timer :: rest)] at hmem
            exact (List.mem_append.mp hmem).resolve_right hout
          · rw [hexpired.others x hmem]
            exact h.idle x hx hmem
        · exact (List.dropWhile_suffix _).length_le
      · right
        refine ⟨?_, x, hx, hnotWakeable⟩
        rw [perform, bind_of_abort (hstart.trans hpanic)]

/-- Every operation returns, but a tick that cannot wake a process. -/
theorem inv_perform (h : Inv s a known xs) {op : Op τ ι} (hallowed : Allowed a known op)
    (hfuel : xs.length < fuel) :
    (∃ s' xs', perform fuel op s = .ok (.ok (fires a op), s') ∧
      Inv s' (meaning a op) (learn known op) xs' ∧ xs'.length ≤ xs.length + 1) ∨
    (op = .tick ∧ perform fuel op s = .error .panic ∧ ∃ x ∈ xs, ¬Wakeable s x) := by
  cases op with
  | add timer proc v =>
      obtain ⟨s', xs', hrun, hinv, hlength⟩ := inv_add h proc hallowed.1 hallowed.2 hfuel
      exact Or.inl ⟨s', xs', hrun, hinv, hlength.le⟩
  | del timer =>
      obtain ⟨s', xs', hrun, hinv, hlength⟩ := @inv_del τ ι _ s a known xs timer fuel _ h hallowed
      exact Or.inl ⟨s', xs', hrun, hinv, hlength.trans (Nat.le_succ _)⟩
  | tick =>
      rcases inv_tick h hfuel with ⟨s', xs', hrun, hinv, hlength⟩ | hpanic
      · exact Or.inl ⟨s', xs', hrun, hinv, hlength.trans (Nat.le_succ _)⟩
      · exact Or.inr ⟨rfl, hpanic⟩
  | processes state waitState =>
      exact Or.inl ⟨_, xs, rfl, ⟨h.ring, h.arranged, h.later, h.bound, h.idle⟩, Nat.le_succ _⟩

end Keeping

section Firings

variable [DecidableEq τ] {a : Alarms τ} {x : τ} {d : Nat} {ops : List (Op τ ι)} {zs : List (τ × Nat)}

def ticks : List (Op τ ι) → Nat
  | [] => 0
  | .tick :: ops => ticks ops + 1
  | _ :: ops => ticks ops

/-- The timer is not added and not deleted. -/
def Quiet (x : τ) (ops : List (Op τ ι)) : Prop :=
  ∀ op ∈ ops, op ≠ .del x ∧ ∀ proc v, op ≠ .add x proc v

/-- If the timer is pending, then it is for this deadline. -/
def Tracked (a : Alarms τ) (x : τ) (d : Nat) : Prop :=
  ∀ d', (x, d') ∈ a.pending ↔ d' = d ∧ a.now < d

omit [DecidableEq τ] in
theorem Quiet.head {op : Op τ ι} (h : Quiet x (op :: ops)) :
    op ≠ .del x ∧ ∀ proc v, op ≠ .add x proc v :=
  h op List.mem_cons_self

omit [DecidableEq τ] in
theorem Quiet.tail {op : Op τ ι} (h : Quiet x (op :: ops)) : Quiet x ops :=
  fun op' hmem => h op' (List.mem_cons_of_mem _ hmem)

theorem tracked_meaning {op : Op τ ι} (h : Tracked a x d)
    (hquiet : op ≠ .del x ∧ ∀ proc v, op ≠ .add x proc v) : Tracked (meaning a op) x d := by
  intro d'
  cases op with
  | add timer proc v =>
      have hne : x ≠ timer := by
        rintro rfl
        exact hquiet.2 proc v rfl
      show (x, d') ∈ a.pending ++ [(timer, _)] ↔ d' = d ∧ a.now < d
      rw [List.mem_append, h d']
      simp [hne]
  | del timer =>
      have hne : x ≠ timer := by
        rintro rfl
        exact hquiet.1 rfl
      show (x, d') ∈ a.pending.filter _ ↔ d' = d ∧ a.now < d
      rw [List.mem_filter, h d']
      simp [hne]
  | tick =>
      show (x, d') ∈ a.pending.filter _ ↔ d' = d ∧ a.now + 1 < d
      rw [List.mem_filter, h d']
      simp only [ne_eq, decide_eq_true_eq]
      omega
  | processes => exact h d'

omit [DecidableEq τ] in
theorem tracked_due (h : Tracked a x d) : x ∈ a.due ↔ a.now + 1 = d := by
  have hdue : x ∈ a.due ↔ (x, a.now + 1) ∈ a.pending := by
    simp [Alarms.due]
  rw [hdue, h]
  omega

theorem tracked_fires (h : Tracked a x d) (hquiet : Quiet x ops) {k : Nat} {fired : List τ}
    (hk : (allFires a ops)[k]? = some fired) : x ∈ fired ↔ a.now + k + 1 = d := by
  induction ops generalizing a k with
  | nil => cases hk
  | cons op ops ih =>
      have hnext := tracked_meaning h hquiet.head
      cases op with
      | tick =>
          cases k with
          | zero =>
              cases hk
              exact tracked_due h
          | succ k =>
              rw [ih hnext hquiet.tail hk]
              show a.now + 1 + k + 1 = d ↔ a.now + (k + 1) + 1 = d
              omega
      | add timer proc v => exact ih hnext hquiet.tail hk
      | del timer => exact ih hnext hquiet.tail hk
      | processes => exact ih hnext hquiet.tail hk

/-- Alarms that are not cancelled and not due stay pending in their order. -/
theorem together_meaning {op : Op τ ι} (h : zs.Sublist a.pending)
    (hquiet : ∀ z ∈ zs, op ≠ .del z.1) (hlater : op = .tick → ∀ z ∈ zs, z.2 ≠ a.now + 1) :
    zs.Sublist (meaning a op).pending := by
  have hfilter : ∀ p : τ × Nat → Bool, (∀ z ∈ zs, p z = true) → zs.Sublist (a.pending.filter p) := by
    intro p hp
    have hsub := h.filter p
    rwa [List.filter_eq_self.mpr hp] at hsub
  cases op with
  | add timer proc v => exact h.trans (List.sublist_append_left _ _)
  | del timer =>
      refine hfilter _ fun z hz => ?_
      simp only [ne_eq, decide_eq_true_eq]
      rintro rfl
      exact hquiet z hz rfl
  | tick =>
      refine hfilter _ fun z hz => ?_
      simpa using hlater rfl z hz
  | processes => exact h

/-- Alarms for one deadline fire in one tick in their order. -/
theorem together_fires (h : zs.Sublist a.pending) (hd : ∀ z ∈ zs, z.2 = d)
    (hquiet : ∀ z ∈ zs, Quiet z.1 ops) {k : Nat} {fired : List τ} (hk : a.now + k + 1 = d)
    (hfired : (allFires a ops)[k]? = some fired) : (zs.map Prod.fst).Sublist fired := by
  induction ops generalizing a k with
  | nil => cases hfired
  | cons op ops ih =>
      have hnext : (op = .tick → k ≠ 0) → zs.Sublist (meaning a op).pending := by
        intro hlater
        refine together_meaning h (fun z hz => (hquiet z hz).head.1) fun htick z hz => ?_
        have hk' := hlater htick
        rw [hd z hz]
        omega
      have htail : ∀ z ∈ zs, Quiet z.1 ops := fun z hz => (hquiet z hz).tail
      cases op with
      | tick =>
          cases k with
          | zero =>
              cases hfired
              have hall : ∀ z ∈ zs, decide (z.2 = a.now + 1) = true := fun z hz => by
                simp only [decide_eq_true_eq, hd z hz]
                omega
              have hsub := h.filter fun alarm => decide (alarm.2 = a.now + 1)
              rw [List.filter_eq_self.mpr hall] at hsub
              exact hsub.map Prod.fst
          | succ k =>
              refine ih (hnext fun _ => Nat.succ_ne_zero k) htail ?_ hfired
              show a.now + 1 + k + 1 = d
              omega
      | add timer proc v => exact ih (hnext nofun) htail hk hfired
      | del timer => exact ih (hnext nofun) htail hk hfired
      | processes => exact ih (hnext nofun) htail hk hfired

theorem now_foldl (a : Alarms τ) (ops : List (Op τ ι)) :
    (ops.foldl meaning a).now = a.now + ticks ops := by
  induction ops generalizing a with
  | nil => rfl
  | cons op ops ih =>
      rw [List.foldl_cons, ih]
      cases op with
      | tick =>
          show a.now + 1 + ticks ops = a.now + (ticks ops + 1)
          omega
      | add timer proc v => rfl
      | del timer => rfl
      | processes => rfl

theorem length_allFires (a : Alarms τ) (ops : List (Op τ ι)) :
    (allFires a ops).length = ticks ops := by
  induction ops generalizing a with
  | nil => rfl
  | cons op ops ih =>
      rw [allFires, List.length_append, ih]
      cases op with
      | tick => exact Nat.add_comm 1 _
      | add timer proc v => exact Nat.zero_add _
      | del timer => exact Nat.zero_add _
      | processes => exact Nat.zero_add _

theorem allFires_append (a : Alarms τ) (ops ops' : List (Op τ ι)) :
    allFires a (ops ++ ops') = allFires a ops ++ allFires (ops.foldl meaning a) ops' := by
  induction ops generalizing a with
  | nil => rfl
  | cons op ops ih => rw [List.cons_append, allFires, ih, allFires, List.append_assoc, List.foldl_cons]

/-- What fires after some of the operations. -/
theorem fires_after {a : Alarms τ} {ops ops' : List (Op τ ι)} {k : Nat} :
    (allFires a (ops ++ ops'))[ticks ops + k]? = (allFires (ops.foldl meaning a) ops')[k]? := by
  rw [allFires_append, ← length_allFires a ops, List.getElem?_append_right (Nat.le_add_right _ _),
    Nat.add_sub_cancel_left]

/-- A pending alarm is still pending before its deadline. -/
theorem pending_foldl (h : (x, d) ∈ a.pending) (hquiet : Quiet x ops)
    (hlater : a.now + ticks ops < d) : (x, d) ∈ (ops.foldl meaning a).pending := by
  induction ops generalizing a with
  | nil => exact h
  | cons op ops ih =>
      have hle : (meaning a op).now + ticks ops = a.now + ticks (op :: ops) := by
        have hleft := now_foldl a (op :: ops)
        rw [List.foldl_cons, now_foldl] at hleft
        exact hleft
      have hsub : [(x, d)].Sublist (meaning a op).pending := by
        refine together_meaning (List.singleton_sublist.mpr h) ?_ ?_
        · intro z hz
          rw [List.mem_singleton.mp hz]
          exact hquiet.head.1
        · rintro rfl z hz
          rw [List.mem_singleton.mp hz]
          have hticks : ticks (Op.tick :: ops) = ticks ops + 1 := rfl
          show d ≠ a.now + 1
          omega
      exact ih (List.singleton_sublist.mp hsub) hquiet.tail (by omega)

theorem allAllowed_append {known : τ → Prop} {ops ops' : List (Op τ ι)}
    (h : AllAllowed a known (ops ++ ops')) :
    AllAllowed (ops.foldl meaning a) (ops.foldl learn known) ops' := by
  induction ops generalizing a known with
  | nil => exact h
  | cons op ops ih => exact ih h.2

end Firings

section Runs

variable [DecidableEq τ] [DecidableEq ι] {s s' : Timers τ ι} {a : Alarms τ} {known : τ → Prop}
  {xs : List τ} {fuel : Nat} {ops : List (Op τ ι)} {fired : List (List τ)}

/-- No timer was added yet. -/
def alarms₀ : Alarms τ := ⟨0, []⟩

/-- What the timers do after these operations, in which `fired` fired. -/
structure TimersOk (fuel : Nat) (ops : List (Op τ ι)) (fired : List (List τ)) (s : Timers τ ι) :
    Prop where
  refines : fired = allFires alarms₀ ops
  exact : ∀ pre timer proc expires post, ops = pre ++ Op.add timer proc expires :: post →
    Quiet timer post → ∀ k now, fired[ticks pre + k]? = some now →
      (timer ∈ now ↔ k + 1 = expires.toNat)
  inOrder : ∀ pre x p v mid y q w post,
    ops = pre ++ Op.add x p v :: (mid ++ Op.add y q w :: post) →
    Quiet x (mid ++ post) → Quiet y post → v.toNat = ticks mid + w.toNat →
      ∀ now, fired[ticks pre + v.toNat - 1]? = some now → [x, y].Sublist now
  head : ∀ timer, listNext s.links none = some timer → s.expires timer ≠ 0
  /-- Every operation returns, but a tick that cannot wake a process. -/
  returns : ∀ op, Allowed (ops.foldl meaning alarms₀) (ops.foldl learn fun _ => False) op →
    (op = .tick → ∀ x ∈ (ops.foldl meaning alarms₀).pending.map Prod.fst, Wakeable s x) →
      ∃ out t, perform fuel op s = .ok (.ok out, t)

theorem inv_performAll (h : Inv s a known xs) (hallowed : AllAllowed a known ops)
    (hfuel : xs.length + ops.length < fuel) {r : Except Errno (List (List τ))}
    (hrun : performAll fuel ops s = .ok (r, s')) :
    r = .ok (allFires a ops) ∧ ∃ xs', Inv s' (ops.foldl meaning a) (ops.foldl learn known) xs' ∧
      xs'.length < fuel := by
  induction ops generalizing s a known xs r with
  | nil =>
      cases hrun
      exact ⟨rfl, xs, h, hfuel⟩
  | cons op ops ih =>
      have hlength : (op :: ops).length = ops.length + 1 := rfl
      rcases inv_perform h hallowed.1 (by omega : xs.length < fuel) with
        ⟨t, ys, hfirst, hinv, hys⟩ | ⟨_, hpanic, _⟩
      · rw [performAll, bind_of_ok hfirst] at hrun
        rcases bind_eq_ok_iff.mp hrun with ⟨rest, u, hrest, hout⟩ | ⟨e, hrest, _⟩
        · cases hout
          obtain ⟨heq, xs', hinv', hxs'⟩ := ih hinv hallowed.2 (by omega) hrest
          cases heq
          exact ⟨rfl, xs', hinv', hxs'⟩
        · obtain ⟨heq, _⟩ := ih hinv hallowed.2 (by omega) hrest
          cases heq
      · rw [performAll, bind_of_abort hpanic] at hrun
        cases hrun

omit [DecidableEq ι] in
theorem fires_exact (hallowed : AllAllowed alarms₀ (fun _ => False) ops) {pre post : List (Op τ ι)}
    {timer : τ} {proc : ι} {v : BitVec 32} (hops : ops = pre ++ .add timer proc v :: post)
    (hquiet : Quiet timer post) {k : Nat} {now : List τ}
    (hk : (allFires alarms₀ ops)[ticks pre + k]? = some now) :
    timer ∈ now ↔ k + 1 = v.toNat := by
  subst hops
  obtain ⟨⟨hpos, hnew⟩, _⟩ := allAllowed_append hallowed
  have hpos' : 0 < v.toNat := hpos
  rw [fires_after] at hk
  have htracked : Tracked (meaning (pre.foldl meaning alarms₀) (.add timer proc v)) timer
      ((pre.foldl meaning alarms₀).now + v.toNat) := by
    intro d'
    show (timer, d') ∈ _ ++ [(timer, _)] ↔ d' = _ ∧ (pre.foldl meaning alarms₀).now < _
    rw [List.mem_append, List.mem_singleton]
    constructor
    · rintro (hmem | heq)
      · exact absurd (List.mem_map_of_mem hmem) hnew
      · cases heq
        exact ⟨rfl, Nat.lt_add_of_pos_right hpos'⟩
    · rintro ⟨rfl, _⟩
      exact Or.inr rfl
  rw [tracked_fires htracked hquiet hk]
  show (pre.foldl meaning alarms₀).now + k + 1 = _ ↔ _
  omega

omit [DecidableEq ι] in
theorem fires_inOrder (hallowed : AllAllowed alarms₀ (fun _ => False) ops)
    {pre mid post : List (Op τ ι)} {x y : τ} {p q : ι} {v w : BitVec 32}
    (hops : ops = pre ++ .add x p v :: (mid ++ .add y q w :: post))
    (hx : Quiet x (mid ++ post)) (hy : Quiet y post) (hsame : v.toNat = ticks mid + w.toNat)
    {now : List τ} (hnow : (allFires alarms₀ ops)[ticks pre + v.toNat - 1]? = some now) :
    [x, y].Sublist now := by
  subst hops
  have hxMid : Quiet x mid := fun op hmem => hx op (List.mem_append_left _ hmem)
  have hxPost : Quiet x post := fun op hmem => hx op (List.mem_append_right _ hmem)
  have hsecond : 0 < w.toNat := by
    have hrest := (allAllowed_append hallowed).2
    exact (allAllowed_append hrest).1.1
  let a₁ := meaning (pre.foldl meaning alarms₀) (.add x p v)
  let a₂ := mid.foldl meaning a₁
  have hnow₂ : a₂.now = a₁.now + ticks mid := now_foldl a₁ mid
  have hpending : (x, a₁.now + v.toNat) ∈ a₂.pending := by
    refine pending_foldl ?_ hxMid (by omega)
    exact List.mem_append_right _ List.mem_cons_self
  have hindex : ticks pre + v.toNat - 1 = ticks pre + (ticks mid + (w.toNat - 1)) := by omega
  rw [hindex, fires_after] at hnow
  change (allFires a₁ (mid ++ .add y q w :: post))[_]? = _ at hnow
  rw [fires_after] at hnow
  refine @together_fires τ ι _ (meaning a₂ (.add y q w)) (a₁.now + v.toNat) post
    [(x, a₁.now + v.toNat), (y, a₂.now + w.toNat)] ?_ ?_ ?_ (w.toNat - 1) now ?_ hnow
  · exact (List.singleton_sublist.mpr hpending).append (List.Sublist.refl _)
  · intro z hz
    rcases List.mem_cons.mp hz with rfl | hz
    · rfl
    · cases List.mem_singleton.mp hz
      show a₂.now + w.toNat = _
      omega
  · intro z hz
    rcases List.mem_cons.mp hz with rfl | hz
    · exact hxPost
    · cases List.mem_singleton.mp hz
      exact hy
  · show a₂.now + (w.toNat - 1) + 1 = _
    omega

/-- Whatever is added and deleted, every timer fires at its deadline. -/
theorem timersOk_of_performAll {l : Links (Option τ)} (hstart : s.links = listInit l none)
    (hallowed : AllAllowed alarms₀ (fun _ => False) ops) (hfuel : ops.length < fuel)
    {r : Except Errno (List (List τ))} (hrun : performAll fuel ops s = .ok (r, s')) :
    ∃ fired, r = .ok fired ∧ TimersOk fuel ops fired s' := by
  have hinit : Inv s alarms₀ (fun _ => False) [] := by
    refine ⟨?_, ⟨List.Pairwise.nil, fun d => rfl⟩, nofun, nofun, nofun⟩
    rw [hstart]
    exact ring_listInit l none
  obtain ⟨hfired, xs, hinv, hxs⟩ := inv_performAll hinit hallowed (by simpa using hfuel) hrun
  refine ⟨_, hfired, rfl, ?_, ?_, fun timer hfirst => ?_, fun op hop hwake => ?_⟩
  · intro pre timer proc v post hops hquiet k now hk
    exact fires_exact hallowed hops hquiet hk
  · intro pre x p v mid y q w post hops hx hy hsame now hnow
    exact fires_inOrder hallowed hops hx hy hsame hnow
  · rw [next_first hinv.ring] at hfirst
    cases xs with
    | nil => cases hfirst
    | cons first rest =>
        cases hfirst
        have hpos := hinv.head_pos
        intro hzero
        rw [delta, hzero] at hpos
        exact Nat.lt_irrefl 0 hpos
  · rcases inv_perform hinv hop hxs with ⟨t, _, hreturns, _⟩ | ⟨htick, _, x, hx, hnot⟩
    · exact ⟨_, t, hreturns⟩
    · exact absurd (hwake htick x (hinv.mem_iff.mp hx)) hnot

/-- No timer was added yet, and every process sleeps. -/
def noTimers : Timers Nat Unit where
  links := listInit ⟨fun _ => none, fun _ => none⟩ none
  expires := fun _ => 0
  proc := fun _ => none
  state := fun _ => .sleeping
  waitState := fun _ => 0

/-- The timers 0 and 1 have one deadline, and timer 3 is deleted. -/
theorem timersOk_of_performAll_three : ∃ s' : Timers Nat Unit,
    TimersOk 8 [.add 0 () 2, .add 3 () 1, .add 1 () 2, .add 2 () 1, .del 3, .tick, .tick]
      [[2], [0, 1]] s' := by
  have hrun : ∃ s', performAll 8 [.add 0 () 2, .add 3 () 1, .add 1 () 2, .add 2 () 1, .del 3,
      .tick, .tick] noTimers = .ok (.ok [[2], [0, 1]], s') := ⟨_, rfl⟩
  obtain ⟨s', hrun⟩ := hrun
  obtain ⟨fired, hfired, hok⟩ := timersOk_of_performAll rfl
    (by simp [AllAllowed, Allowed, meaning, learn, alarms₀, Alarms.set]) (by decide) hrun
  cases hfired
  exact ⟨s', hok⟩

end Runs

end Ucore.TimerListRuns
