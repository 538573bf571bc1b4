import Ucore.Interleaving

/-! Objects that count their users. An object that no one uses yet or any more is in the hands of
one user, who makes or destroys it. -/

namespace Ucore.ReferenceCounts

open Ucore.Interleaving

/-- `kept` is the number of users who have gone without giving the object back. -/
structure Counter where
  live : Bool
  count : Int
  kept : Nat

variable {ι ω : Type} [DecidableEq ω] [DecidableEq ι]

def uses (o : ω) (user : Option ω) : Bool :=
  user = some o

section Updates

variable {f : ι → Option ω} {o : ω} {p : ι}

omit [DecidableEq ω] in
/-- Who changes from one object to another is nothing to a third one. -/
theorem update_other {x : Option ω} (hold : f p ≠ some o) (hnew : x ≠ some o) (q : ι) :
    Function.update f p x q = some o ↔ f q = some o := by
  rcases eq_or_ne q p with rfl | hne
  · rw [Function.update_self]
    exact iff_of_false hnew hold
  · rw [Function.update_of_ne hne]

omit [DecidableEq ω] in
theorem update_some_iff {q : ι} :
    Function.update f p (some o) q = some o ↔ q = p ∨ f q = some o := by
  rcases eq_or_ne q p with rfl | hne
  · simp
  · simp [hne]

omit [DecidableEq ω] in
theorem update_none_iff {q : ι} :
    Function.update f p none q = some o ↔ q ≠ p ∧ f q = some o := by
  rcases eq_or_ne q p with rfl | hne
  · simp
  · simp [hne]

end Updates

variable [Fintype ι]

/-- What the counter of an object says of those who use it and have it in hand. -/
structure Counts (o : ω) (c : Counter) (user hand : ι → Option ω) : Prop where
  count : c.live = true → c.count = tally (uses o) user + c.kept
  used : ∀ p, user p = some o → c.live = true
  held : ∀ p, hand p = some o → c.live = true ∧ c.count = 0
  sole : ∀ p q, hand p = some o → hand q = some o → p = q
  wanted : c.live = true → 0 < c.count ∨ ∃ p, hand p = some o
  lasts : c.kept ≠ 0 → c.live = true

/-- Every object is counted. -/
def Counted (counter : ω → Counter) (user hand : ι → Option ω) : Prop :=
  ∀ o, Counts o (counter o) user hand

variable {counter : ω → Counter} {user user' hand hand' : ι → Option ω} {o : ω} {c : Counter}
  {p q : ι}

section Counts

theorem Counts.pos_of_used (h : Counts o c user hand) (hp : user p = some o) : 0 < c.count := by
  have hcount := h.count (h.used p hp)
  have hpos : 0 < tally (uses o) user := tally_pos (decide_eq_true hp)
  omega

/-- Nobody uses what someone has in hand. -/
theorem Counts.unused (h : Counts o c user hand) (hp : hand p = some o) (q : ι) :
    user q ≠ some o := by
  intro hq
  have hpos := h.pos_of_used hq
  have hzero := (h.held p hp).2
  omega

theorem Counts.not_held (h : Counts o c user hand) (hq : user q = some o) (p : ι) :
    hand p ≠ some o :=
  fun hp => h.unused hp q hq

omit [DecidableEq ι] in
theorem Counts.kept_zero (h : Counts o c user hand) (hp : hand p = some o) : c.kept = 0 := by
  obtain ⟨hlive, hzero⟩ := h.held p hp
  have hcount := h.count hlive
  omega

omit [DecidableEq ι] in
theorem tally_congr (hsame : ∀ p, user' p = some o ↔ user p = some o) :
    tally (uses o) user' = tally (uses o) user := by
  apply Finset.sum_congr rfl
  intro p _
  have huse : uses o (user' p) = uses o (user p) := decide_eq_decide.mpr (hsame p)
  rw [huse]

omit [DecidableEq ι] in
theorem tally_none (hnone : ∀ p, user p ≠ some o) : tally (uses o) user = 0 :=
  tally_eq_zero fun p => decide_eq_false (hnone p)

omit [DecidableEq ι] in
theorem tally_eq_card (user : ι → Option ω) :
    tally (uses o) user = (Finset.univ.filter fun p => user p = some o).card := by
  rw [tally, Finset.card_filter]
  simp [uses]

/-- One user comes. -/
theorem tally_come (hq : user q ≠ some o) :
    tally (uses o) (Function.update user q (some o)) = tally (uses o) user + 1 := by
  have hmove := tally_update (uses o) user q (some o)
  simpa [uses, hq] using hmove

/-- One user goes. -/
theorem tally_go (hq : user q = some o) :
    tally (uses o) (Function.update user q none) + 1 = tally (uses o) user := by
  have hmove := tally_update (uses o) user q none
  simpa [uses, hq] using hmove

omit [DecidableEq ι] in
/-- Only those who use the object or have it in hand matter. -/
theorem Counts.congr (h : Counts o c user hand) (huser : ∀ p, user' p = some o ↔ user p = some o)
    (hhand : ∀ p, hand' p = some o ↔ hand p = some o) : Counts o c user' hand' where
  count hlive := by
    rw [tally_congr huser]
    exact h.count hlive
  used p hp := h.used p ((huser p).mp hp)
  held p hp := h.held p ((hhand p).mp hp)
  sole p q hp hq := h.sole p q ((hhand p).mp hp) ((hhand q).mp hq)
  wanted hlive := by
    rcases h.wanted hlive with hpos | ⟨p, hp⟩
    · exact Or.inl hpos
    · exact Or.inr ⟨p, (hhand p).mpr hp⟩
  lasts := h.lasts

end Counts

section Moves

omit [DecidableEq ι] in
/-- A change that concerns one object. -/
theorem Counted.change (h : Counted counter user hand)
    (huser : ∀ o', o' ≠ o → ∀ p, user' p = some o' ↔ user p = some o')
    (hhand : ∀ o', o' ≠ o → ∀ p, hand' p = some o' ↔ hand p = some o')
    (hhere : Counts o c user' hand') : Counted (Function.update counter o c) user' hand' := by
  intro o'
  rcases eq_or_ne o' o with rfl | hne
  · rw [Function.update_self]
    exact hhere
  · rw [Function.update_of_ne hne]
    exact (h o').congr (huser o' hne) (hhand o' hne)

omit [DecidableEq ω] [Fintype ι] in
/-- Whoever comes to an object or leaves it is nothing to the others. -/
theorem only (f : ι → Option ω) {x : Option ω} (hold : f p = none ∨ f p = some o)
    (hnew : x = none ∨ x = some o) :
    ∀ o', o' ≠ o → ∀ q, Function.update f p x q = some o' ↔ f q = some o' := by
  intro o' hne
  have hnot : ∀ z : Option ω, z = none ∨ z = some o → z ≠ some o' := by
    rintro z (rfl | rfl)
    · exact (Option.some_ne_none o').symm
    · exact fun heq => hne (Option.some.inj heq).symm
  exact update_other (hnot _ hold) (hnot _ hnew)

/-- A new object is in the hand of its maker. -/
theorem Counted.create (h : Counted counter user hand) (hdead : (counter o).live = false)
    (hp : hand p = none) :
    Counted (Function.update counter o { live := true, count := 0, kept := 0 }) user
      (Function.update hand p (some o)) := by
  have hfree : ∀ q, user q ≠ some o := by
    intro q hq
    rw [(h o).used q hq] at hdead
    cases hdead
  have hnone : ∀ q, hand q ≠ some o := by
    intro q hq
    rw [((h o).held q hq).1] at hdead
    cases hdead
  apply h.change (fun _ _ _ => Iff.rfl) (only hand (Or.inl hp) (Or.inr rfl))
  exact
    { count := by
        intro _
        rw [tally_none hfree]
        rfl
      used := fun _ _ => rfl
      held := fun _ _ => ⟨rfl, rfl⟩
      sole := by
        intro q r hq hr
        have hq' := (update_some_iff.mp hq).resolve_right (hnone q)
        have hr' := (update_some_iff.mp hr).resolve_right (hnone r)
        exact hq'.trans hr'.symm
      wanted := fun _ => Or.inr ⟨p, Function.update_self ..⟩
      lasts := fun _ => rfl }

/-- One more user beside another one. -/
theorem Counted.share (h : Counted counter user hand) (hp : user p = some o) (hq : user q = none) :
    Counted (Function.update counter o { counter o with count := (counter o).count + 1 })
      (Function.update user q (some o)) hand := by
  have hnot : user q ≠ some o := by simp [hq]
  have hpos := (h o).pos_of_used hp
  have hlive := (h o).used p hp
  apply h.change (only user (Or.inl hq) (Or.inr rfl)) (fun _ _ _ => Iff.rfl)
  exact
    { count := by
        intro _
        have hcount := (h o).count hlive
        rw [tally_come hnot]
        push_cast
        omega
      used := fun _ _ => hlive
      held := fun r hr => absurd hr ((h o).not_held hp r)
      sole := (h o).sole
      wanted := by
        intro _
        apply Or.inl
        change 0 < (counter o).count + 1
        omega
      lasts := fun _ => hlive }

/-- The maker gives the object to its first user. -/
theorem Counted.give (h : Counted counter user hand) (hp : hand p = some o) (hq : user q = none) :
    Counted (Function.update counter o { counter o with count := (counter o).count + 1 })
      (Function.update user q (some o)) (Function.update hand p none) := by
  have hnot : user q ≠ some o := by simp [hq]
  obtain ⟨hlive, hzero⟩ := (h o).held p hp
  have hgone : ∀ r, Function.update hand p none r ≠ some o := by
    intro r hr
    obtain ⟨hne, hr⟩ := update_none_iff.mp hr
    exact hne ((h o).sole r p hr hp)
  apply h.change (only user (Or.inl hq) (Or.inr rfl)) (only hand (Or.inr hp) (Or.inl rfl))
  exact
    { count := by
        intro _
        have hcount := (h o).count hlive
        rw [tally_come hnot]
        push_cast
        omega
      used := fun _ _ => hlive
      held := fun r hr => absurd hr (hgone r)
      sole := fun r _ hr _ => absurd hr (hgone r)
      wanted := by
        intro _
        apply Or.inl
        change 0 < (counter o).count + 1
        omega
      lasts := fun _ => hlive }

/-- A user who is not the last one gives the object back. -/
theorem Counted.drop (h : Counted counter user hand) (hq : user q = some o)
    (hmore : (counter o).count - 1 ≠ 0) :
    Counted (Function.update counter o { counter o with count := (counter o).count - 1 })
      (Function.update user q none) hand := by
  have hpos := (h o).pos_of_used hq
  have hlive := (h o).used q hq
  apply h.change (only user (Or.inr hq) (Or.inl rfl)) (fun _ _ _ => Iff.rfl)
  exact
    { count := by
        intro _
        have hcount := (h o).count hlive
        have hgo := tally_go hq
        change (counter o).count - 1 = _ + ((counter o).kept : Int)
        omega
      used := fun _ _ => hlive
      held := fun r hr => absurd hr ((h o).not_held hq r)
      sole := (h o).sole
      wanted := by
        intro _
        apply Or.inl
        change 0 < (counter o).count - 1
        omega
      lasts := fun _ => hlive }

/-- The last user gives the object back and has it in hand. -/
theorem Counted.dropLast (h : Counted counter user hand) (hq : user q = some o)
    (hlast : (counter o).count - 1 = 0) (hp : hand p = none) :
    Counted (Function.update counter o { counter o with count := (counter o).count - 1 })
      (Function.update user q none) (Function.update hand p (some o)) := by
  have hlive := (h o).used q hq
  have hnone := (h o).not_held hq
  apply h.change (only user (Or.inr hq) (Or.inl rfl)) (only hand (Or.inl hp) (Or.inr rfl))
  exact
    { count := by
        intro _
        have hcount := (h o).count hlive
        have hgo := tally_go hq
        change (counter o).count - 1 = _ + ((counter o).kept : Int)
        omega
      used := fun _ _ => hlive
      held := fun _ _ => ⟨hlive, hlast⟩
      sole := by
        intro r r' hr hr'
        have hr := (update_some_iff.mp hr).resolve_right (hnone r)
        have hr' := (update_some_iff.mp hr').resolve_right (hnone r')
        exact hr.trans hr'.symm
      wanted := fun _ => Or.inr ⟨p, Function.update_self ..⟩
      lasts := fun _ => hlive }

/-- An object in hand is destroyed. -/
theorem Counted.destroy (h : Counted counter user hand) (hp : hand p = some o) :
    Counted (Function.update counter o { counter o with live := false }) user
      (Function.update hand p none) := by
  have hgone : ∀ r, Function.update hand p none r ≠ some o := by
    intro r hr
    obtain ⟨hne, hr⟩ := update_none_iff.mp hr
    exact hne ((h o).sole r p hr hp)
  have hkept := (h o).kept_zero hp
  apply h.change (fun _ _ _ => Iff.rfl) (only hand (Or.inr hp) (Or.inl rfl))
  exact
    { count := fun hlive => absurd hlive Bool.false_ne_true
      used := fun r hr => absurd hr ((h o).unused hp r)
      held := fun r hr => absurd hr (hgone r)
      sole := fun r _ hr _ => absurd hr (hgone r)
      wanted := fun hlive => absurd hlive Bool.false_ne_true
      lasts := fun hsome => absurd hkept hsome }

/-- A user goes without giving the object back. -/
theorem Counted.keep (h : Counted counter user hand) (hq : user q = some o) :
    Counted (Function.update counter o { counter o with kept := (counter o).kept + 1 })
      (Function.update user q none) hand := by
  have hpos := (h o).pos_of_used hq
  have hlive := (h o).used q hq
  apply h.change (only user (Or.inr hq) (Or.inl rfl)) (fun _ _ _ => Iff.rfl)
  exact
    { count := by
        intro _
        have hcount := (h o).count hlive
        have hgo := tally_go hq
        change (counter o).count = _ + (((counter o).kept + 1 : Nat) : Int)
        omega
      used := fun _ _ => hlive
      held := fun r hr => absurd hr ((h o).not_held hq r)
      sole := (h o).sole
      wanted := fun _ => Or.inl hpos
      lasts := fun _ => hlive }

end Moves

end Ucore.ReferenceCounts
