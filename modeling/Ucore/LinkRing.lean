import Mathlib.Data.List.Chain
import Mathlib.Data.List.Nodup
import Mathlib.Logic.Function.Basic

namespace Ucore.LinkRing

/-- The two link fields of every list entry, as a heap indexed by the address
of the entry. -/
structure Links (ν : Type*) where
  next : ν → ν
  prev : ν → ν

variable {ν : Type*}

/-- Following `step` from `head` meets exactly the entries `xs`, in this order,
and then returns to `head` for the first time. -/
def Visits (step : ν → ν) (head : ν) (xs : List ν) : Prop :=
  (head :: xs).Nodup ∧ (head :: (xs ++ [head])).IsChain fun a b => step a = b

/-- `b` follows `a` in both directions. -/
def LinkedTo (l : Links ν) (a b : ν) : Prop :=
  l.next a = b ∧ l.prev b = a

/-- The circular doubly linked list through `head` with members `xs`. -/
def RingList (l : Links ν) (head : ν) (xs : List ν) : Prop :=
  (head :: xs).Nodup ∧ (head :: (xs ++ [head])).IsChain (LinkedTo l)

theorem isChain_of_ends {R S : ν → ν → Prop} {xs : List ν}
    (hR : xs.IsChain R)
    (himp : ∀ a ∈ xs.dropLast, ∀ b ∈ xs.tail, R a b → S a b) :
    xs.IsChain S := by
  induction xs with
  | nil => exact List.isChain_nil
  | cons x xs ih =>
      cases xs with
      | nil => exact List.isChain_singleton x
      | cons y ys =>
          rw [List.isChain_cons_cons] at hR ⊢
          refine ⟨himp x (by simp) y (by simp) hR.1, ih hR.2 ?_⟩
          intro a ha b hb
          refine himp a ?_ b ?_
          · rw [List.dropLast_cons_of_ne_nil (by simp)]
            exact List.mem_cons_of_mem _ ha
          · exact List.mem_cons_of_mem _ hb

/-- Entry preceding the suffix `bs` of the ring `as ++ bs`. -/
def lastOf (head : ν) (as : List ν) : ν :=
  as.getLastD head

/-- Entry following the segment `as` of the ring `as ++ bs`. -/
def firstOf (head : ν) (bs : List ν) : ν :=
  bs.headD head

@[simp] theorem lastOf_nil (head : ν) : lastOf head [] = head := rfl

@[simp] theorem lastOf_append_singleton (head a : ν) (as : List ν) :
    lastOf head (as ++ [a]) = a := by
  simp [lastOf]

theorem lastOf_append (head : ν) (xs ys : List ν) :
    lastOf head (xs ++ ys) = lastOf (lastOf head xs) ys := by
  rcases List.eq_nil_or_concat' ys with rfl | ⟨ys, y, rfl⟩
  · rw [List.append_nil, lastOf_nil]
  · rw [← List.append_assoc, lastOf_append_singleton, lastOf_append_singleton]

@[simp] theorem firstOf_nil (head : ν) : firstOf head [] = head := rfl

@[simp] theorem firstOf_cons (head b : ν) (bs : List ν) :
    firstOf head (b :: bs) = b := rfl

theorem lastOf_mem (head : ν) (as : List ν) : lastOf head as ∈ head :: as := by
  rcases List.eq_nil_or_concat' as with rfl | ⟨as, a, rfl⟩
  · simp
  · simp

theorem firstOf_mem (head : ν) (bs : List ν) : firstOf head bs ∈ head :: bs := by
  cases bs with
  | nil => simp
  | cons b bs => simp

theorem ring_append_iff {l : Links ν} {head : ν} {as bs : List ν} :
    RingList l head (as ++ bs) ↔
      (head :: (as ++ bs)).Nodup ∧ (head :: as).IsChain (LinkedTo l) ∧
        (bs ++ [head]).IsChain (LinkedTo l) ∧
          LinkedTo l (lastOf head as) (firstOf head bs) := by
  have hsplit : head :: (as ++ bs ++ [head]) = (head :: as) ++ (bs ++ [head]) := by
    simp
  have hlast : (head :: as).getLast? = some (lastOf head as) := by
    rcases List.eq_nil_or_concat' as with rfl | ⟨as, a, rfl⟩
    · rfl
    · rw [lastOf_append_singleton, ← List.cons_append, List.getLast?_concat]
  have hfirst : (bs ++ [head]).head? = some (firstOf head bs) := by
    cases bs with
    | nil => rfl
    | cons b bs => rfl
  rw [RingList, hsplit, List.isChain_append, hlast, hfirst]
  simp

theorem RingList.nodup {l : Links ν} {head : ν} {xs : List ν} (h : RingList l head xs) :
    (head :: xs).Nodup := h.1

theorem RingList.next_lastOf {l : Links ν} {head : ν} {as bs : List ν}
    (h : RingList l head (as ++ bs)) :
    l.next (lastOf head as) = firstOf head bs :=
  (ring_append_iff.mp h).2.2.2.1

theorem RingList.prev_firstOf {l : Links ν} {head : ν} {as bs : List ν}
    (h : RingList l head (as ++ bs)) :
    l.prev (firstOf head bs) = lastOf head as :=
  (ring_append_iff.mp h).2.2.2.2

theorem RingList.next_head {l : Links ν} {head : ν} {xs : List ν}
    (h : RingList l head xs) : l.next head = firstOf head xs :=
  @RingList.next_lastOf _ _ _ [] _ h

theorem RingList.next_mem {l : Links ν} {head e : ν} {as bs : List ν}
    (h : RingList l head (as ++ e :: bs)) : l.next e = firstOf head bs := by
  have hsplit : as ++ e :: bs = (as ++ [e]) ++ bs := by simp
  rw [hsplit] at h
  simpa using h.next_lastOf

theorem RingList.prev_mem {l : Links ν} {head e : ν} {as bs : List ν}
    (h : RingList l head (as ++ e :: bs)) : l.prev e = lastOf head as := by
  simpa using h.prev_firstOf

theorem RingList.visits_next {l : Links ν} {head : ν} {xs : List ν}
    (h : RingList l head xs) : Visits l.next head xs :=
  ⟨h.1, h.2.imp fun _ _ hab => hab.1⟩

theorem RingList.visits_prev {l : Links ν} {head : ν} {xs : List ν}
    (h : RingList l head xs) : Visits l.prev head xs.reverse := by
  refine ⟨?_, ?_⟩
  · have hnodup := List.nodup_cons.mp h.1
    rw [List.nodup_cons, List.mem_reverse, List.nodup_reverse]
    exact hnodup
  · have hrev : head :: (xs.reverse ++ [head]) =
        (head :: (xs ++ [head])).reverse := by simp
    rw [hrev, List.isChain_reverse]
    exact h.2.imp fun _ _ hab => hab.2

theorem chain_unique {step : ν → ν} {head a : ν} {xs ys : List ν}
    (hx : (a :: (xs ++ [head])).IsChain fun a b => step a = b) (hxs : head ∉ xs)
    (hy : (a :: (ys ++ [head])).IsChain fun a b => step a = b) (hys : head ∉ ys) :
    xs = ys := by
  induction xs generalizing a ys with
  | nil =>
      have hstep : step a = head := (List.isChain_cons_cons.mp hx).1
      match ys with
      | [] => rfl
      | y :: ys =>
          have hy' : step a = y := (List.isChain_cons_cons.mp hy).1
          exact absurd (List.mem_cons.mpr (.inl (hstep.symm.trans hy'))) hys
  | cons x xs ih =>
      obtain ⟨hstep, hrest⟩ := List.isChain_cons_cons.mp hx
      match ys with
      | [] =>
          have hy' : step a = head := (List.isChain_cons_cons.mp hy).1
          exact absurd (List.mem_cons.mpr (.inl (hy'.symm.trans hstep))) hxs
      | y :: ys =>
          obtain ⟨hy', hrest'⟩ := List.isChain_cons_cons.mp hy
          obtain rfl : x = y := hstep.symm.trans hy'
          rw [ih hrest (fun hmem => hxs (List.mem_cons_of_mem _ hmem)) hrest'
            (fun hmem => hys (List.mem_cons_of_mem _ hmem))]

/-- A walk around the ring meets one list of entries. -/
theorem Visits.unique {step : ν → ν} {head : ν} {xs ys : List ν} (hx : Visits step head xs)
    (hy : Visits step head ys) : xs = ys :=
  chain_unique hx.2 (List.nodup_cons.mp hx.1).1 hy.2 (List.nodup_cons.mp hy.1).1

/-- The two one-directional walks determine the ring. -/
theorem ring_of_visits {l : Links ν} {head : ν} {xs : List ν}
    (hnext : Visits l.next head xs) (hprev : Visits l.prev head xs.reverse) :
    RingList l head xs := by
  refine ⟨hnext.1, ?_⟩
  have hrev : head :: (xs.reverse ++ [head]) =
      (head :: (xs ++ [head])).reverse := by simp
  have hback := hprev.2
  rw [hrev, List.isChain_reverse] at hback
  rw [List.isChain_iff_getElem] at hback ⊢
  intro i hi
  exact ⟨(List.isChain_iff_getElem.mp hnext.2) i hi, hback i hi⟩

theorem RingList.prev_ne_self {l : Links ν} {head e : ν} {xs : List ν}
    (h : RingList l head xs) (he : e ∈ xs) : l.prev e ≠ e := by
  obtain ⟨as, bs, rfl⟩ := List.append_of_mem he
  rw [h.prev_mem]
  intro heq
  have hmem := lastOf_mem head as
  rw [heq] at hmem
  have hnodup := h.nodup
  rw [← List.cons_append] at hnodup
  exact (List.nodup_append.mp hnodup).2.2 e hmem e (by simp) rfl

theorem isChain_of_links_agree {l l' : Links ν} {xs : List ν}
    (h : xs.IsChain (LinkedTo l))
    (hnext : ∀ a ∈ xs.dropLast, l'.next a = l.next a)
    (hprev : ∀ b ∈ xs.tail, l'.prev b = l.prev b) :
    xs.IsChain (LinkedTo l') :=
  isChain_of_ends h fun a ha b hb hab =>
    ⟨(hnext a ha).trans hab.1, (hprev b hb).trans hab.2⟩

theorem mem_dropLast_ne_lastOf {head a : ν} {as : List ν}
    (hnodup : (head :: as).Nodup) (ha : a ∈ (head :: as).dropLast) :
    a ∈ head :: as ∧ a ≠ lastOf head as := by
  rcases List.eq_nil_or_concat' as with rfl | ⟨as, b, rfl⟩
  · simp at ha
  · rw [← List.cons_append] at ha hnodup
    rw [List.dropLast_concat] at ha
    rw [lastOf_append_singleton, ← List.cons_append]
    refine ⟨List.mem_append_left _ ha, ?_⟩
    rintro rfl
    exact (List.nodup_append.mp hnodup).2.2 a ha a (by simp) rfl

theorem mem_tail_ne_firstOf {head b : ν} {bs : List ν}
    (hnodup : (head :: bs).Nodup) (hb : b ∈ (bs ++ [head]).tail) :
    b ∈ head :: bs ∧ b ≠ firstOf head bs := by
  cases bs with
  | nil => simp at hb
  | cons c cs =>
      have hb' : b ∈ cs ∨ b = head := by simpa using hb
      rw [List.nodup_cons, List.nodup_cons] at hnodup
      rw [firstOf_cons]
      rcases hb' with hb' | rfl
      · refine ⟨by simp [hb'], ?_⟩
        rintro rfl
        exact hnodup.2.1 hb'
      · refine ⟨by simp, ?_⟩
        rintro rfl
        exact hnodup.1 (by simp)

theorem nodup_cons_left {head : ν} {as bs : List ν}
    (h : (head :: (as ++ bs)).Nodup) : (head :: as).Nodup := by
  rw [← List.cons_append] at h
  exact (List.nodup_append.mp h).1

theorem nodup_cons_right {head : ν} {as bs : List ν}
    (h : (head :: (as ++ bs)).Nodup) : (head :: bs).Nodup := by
  rw [List.nodup_cons] at h ⊢
  exact ⟨fun hmem => h.1 (List.mem_append_right _ hmem),
    (List.nodup_append.mp h.2).2.1⟩

theorem mem_left_ne_firstOf {head b : ν} {as bs : List ν}
    (h : (head :: (as ++ bs)).Nodup) (hb : b ∈ as) : b ≠ firstOf head bs := by
  rintro rfl
  rw [List.nodup_cons] at h
  rcases List.mem_cons.mp (firstOf_mem head bs) with heq | hmem
  · exact h.1 (heq ▸ List.mem_append_left _ hb)
  · exact (List.nodup_append.mp h.2).2.2 _ hb _ hmem rfl

theorem mem_right_ne_lastOf {head a : ν} {as bs : List ν}
    (h : (head :: (as ++ bs)).Nodup) (ha : a ∈ bs) : a ≠ lastOf head as := by
  rintro rfl
  rw [← List.cons_append] at h
  exact (List.nodup_append.mp h).2.2 _ (lastOf_mem head as) _ ha rfl

section Updates

variable [DecidableEq ν]

/-- Put `e` between the neighbours `p` and `n`. -/
def Links.insertBetween (l : Links ν) (e p n : ν) : Links ν where
  next := Function.update (Function.update l.next p e) e n
  prev := Function.update (Function.update l.prev n e) e p

/-- Make `p` and `n` neighbours. -/
def Links.join (l : Links ν) (p n : ν) : Links ν where
  next := Function.update l.next p n
  prev := Function.update l.prev n p

/-- Linking a new entry between two neighbours of the ring. -/
theorem RingList.insertBetween {l : Links ν} {head e : ν} {as bs : List ν}
    (h : RingList l head (as ++ bs)) (he : e ∉ head :: (as ++ bs)) :
    RingList (l.insertBetween e (lastOf head as) (firstOf head bs)) head
      (as ++ e :: bs) := by
  have hnodup := h.nodup
  obtain ⟨_, hleft, hright, _⟩ := ring_append_iff.mp h
  have hne : ∀ a, a ∈ head :: (as ++ bs) → a ≠ e := by
    rintro a ha rfl
    exact he ha
  have hlastNe : lastOf head as ≠ e :=
    hne _ (by
      have := lastOf_mem head as
      simp only [List.mem_cons, List.mem_append] at this ⊢
      tauto)
  have hfirstNe : firstOf head bs ≠ e :=
    hne _ (by
      have := firstOf_mem head bs
      simp only [List.mem_cons, List.mem_append] at this ⊢
      tauto)
  refine ring_append_iff.mpr ⟨?_, ?_, ?_, ?_⟩
  · have hperm : (head :: (as ++ e :: bs)).Perm (e :: (head :: (as ++ bs))) :=
      (List.Perm.cons head List.perm_middle).trans (List.Perm.swap e head _)
    rw [hperm.nodup_iff, List.nodup_cons]
    exact ⟨he, hnodup⟩
  · refine isChain_of_links_agree hleft ?_ ?_
    · intro a ha
      obtain ⟨hmem, hlast⟩ := mem_dropLast_ne_lastOf (nodup_cons_left hnodup) ha
      have hae : a ≠ e := hne a (by
        simp only [List.mem_cons, List.mem_append] at hmem ⊢
        tauto)
      simp [Links.insertBetween, hae, hlast]
    · intro b hb
      have hmem : b ∈ as := by simpa using hb
      have hbe : b ≠ e := hne b (by simp [hmem])
      simp [Links.insertBetween, hbe, mem_left_ne_firstOf hnodup hmem]
  · rw [List.cons_append, List.isChain_cons]
    refine ⟨?_, isChain_of_links_agree hright ?_ ?_⟩
    · intro b hb
      have hb' : firstOf head bs = b := by
        cases bs with
        | nil => simpa using hb
        | cons c cs => simpa using hb
      subst hb'
      exact ⟨by simp [Links.insertBetween], by
        simp [Links.insertBetween, hfirstNe]⟩
    · intro a ha
      have hmem : a ∈ bs := by simpa using ha
      have hae : a ≠ e := hne a (by simp [hmem])
      simp [Links.insertBetween, hae, mem_right_ne_lastOf hnodup hmem]
    · intro b hb
      obtain ⟨hmem, hfirst⟩ := mem_tail_ne_firstOf (nodup_cons_right hnodup) hb
      have hbe : b ≠ e := hne b (by
        simp only [List.mem_cons, List.mem_append] at hmem ⊢
        tauto)
      simp [Links.insertBetween, hbe, hfirst]
  · rw [firstOf_cons]
    exact ⟨by simp [Links.insertBetween, hlastNe], by
      simp [Links.insertBetween]⟩

/-- Joining the neighbours of an entry takes it out of the ring. -/
theorem RingList.join {l : Links ν} {head e : ν} {as bs : List ν}
    (h : RingList l head (as ++ e :: bs)) :
    RingList (l.join (lastOf head as) (firstOf head bs)) head (as ++ bs) := by
  have hperm : (head :: (as ++ e :: bs)).Perm (e :: (head :: (as ++ bs))) :=
    (List.Perm.cons head List.perm_middle).trans (List.Perm.swap e head _)
  have hnodup : (head :: (as ++ bs)).Nodup :=
    (List.nodup_cons.mp (hperm.nodup_iff.mp h.nodup)).2
  obtain ⟨_, hleft, hright, _⟩ := ring_append_iff.mp h
  refine ring_append_iff.mpr ⟨hnodup, ?_, ?_, ?_⟩
  · refine isChain_of_links_agree hleft ?_ ?_
    · intro a ha
      have hlast := (mem_dropLast_ne_lastOf (nodup_cons_left hnodup) ha).2
      simp [Links.join, hlast]
    · intro b hb
      have hmem : b ∈ as := by simpa using hb
      simp [Links.join, mem_left_ne_firstOf hnodup hmem]
  · rw [List.cons_append] at hright
    refine isChain_of_links_agree hright.tail ?_ ?_
    · intro a ha
      have hmem : a ∈ bs := by simpa using ha
      simp [Links.join, mem_right_ne_lastOf hnodup hmem]
    · intro b hb
      have hfirst := (mem_tail_ne_firstOf (nodup_cons_right hnodup) hb).2
      simp [Links.join, hfirst]
  · exact ⟨by simp [Links.join], by simp [Links.join]⟩

end Updates

end Ucore.LinkRing
