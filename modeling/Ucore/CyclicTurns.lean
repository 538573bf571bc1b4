import Mathlib.Data.List.Rotate
import Mathlib.Data.List.Find

/-! Turns around a circle: each pick is the first that is eligible behind the one before. -/

namespace Ucore.CyclicTurns

variable {α : Type*} {a p : α} {as bs xs ys : List α}

/-- Where `a` stands in a circle that has been cut open at it. -/
theorem split_of_isRotated (h : (a :: ys) ~r xs) :
    ∃ front back, xs = front ++ a :: back ∧ ys = back ++ front := by
  obtain ⟨n, hn, hrot⟩ := List.isRotated_iff_mod.mp h
  rw [List.rotate_eq_drop_append_take hn] at hrot
  match n with
  | 0 => exact ⟨[], ys, by simpa using hrot.symm, by simp⟩
  | n + 1 => exact ⟨ys.drop n, ys.take n, by simpa using hrot.symm, by simp⟩

section Turns

variable [DecidableEq α]

/-- The members of a circle in the order in which they follow `a`, which comes last. -/
def turnsAfter (xs : List α) (a : α) : List α :=
  xs.rotate (xs.idxOf a + 1)

theorem turnsAfter_isRotated (xs : List α) (a : α) : turnsAfter xs a ~r xs :=
  (List.IsRotated.forall xs _)

theorem turnsAfter_split (ha : a ∉ as) :
    turnsAfter (as ++ a :: bs) a = bs ++ as ++ [a] := by
  have hidx : (as ++ a :: bs).idxOf a + 1 = (as ++ [a]).length := by
    rw [List.idxOf_append_of_notMem ha, List.idxOf_cons_self, List.length_append]
    rfl
  have hlist : as ++ a :: bs = as ++ [a] ++ bs := by simp
  rw [turnsAfter, hidx, hlist, List.rotate_append_length_eq, List.append_assoc]

theorem turnsAfter_of_isRotated (hnodup : xs.Nodup) (h : (a :: ys) ~r xs) :
    turnsAfter xs a = ys ++ [a] := by
  obtain ⟨front, back, rfl, rfl⟩ := split_of_isRotated h
  have hfront : a ∉ front := fun ha =>
    (List.nodup_append.mp hnodup).2.2 a ha a List.mem_cons_self rfl
  exact turnsAfter_split hfront

variable {eligible : Nat → α → Bool} {pick : Nat → α}

/-- While `p` is `d` places away, it is picked in one of the next `d + 1` picks: a pick before
it brings it nearer. -/
theorem picked_from (hnodup : xs.Nodup) (hp : ∀ k, k < xs.length → eligible k p = true)
    (hnext : ∀ k, k + 1 < xs.length →
      (turnsAfter xs (pick k)).find? (eligible (k + 1)) = some (pick (k + 1)))
    {d : Nat} : ∀ {k : Nat} {front back : List α}, front.length ≤ d → k + d < xs.length →
      (front ++ p :: back) ~r xs →
      (front ++ p :: back).find? (eligible k) = some (pick k) →
      ∃ j, j ≤ k + d ∧ pick j = p := by
  induction d with
  | zero =>
    intro k front back hlen hk _ hfirst
    have hfront : front = [] := List.eq_nil_of_length_eq_zero (Nat.le_zero.mp hlen)
    rw [hfront, List.nil_append, List.find?_cons_of_pos (hp k hk)] at hfirst
    exact ⟨k, le_rfl, (Option.some.inj hfirst).symm⟩
  | succ d ih =>
    intro k front back hlen hk hrot hfirst
    by_cases hpick : pick k = p
    · exact ⟨k, by omega, hpick⟩
    · have hmem : pick k ∈ front := by
        rw [List.find?_append, List.find?_cons_of_pos (hp k (by omega))] at hfirst
        cases hfront : front.find? (eligible k) with
        | none =>
          rw [hfront, Option.none_or] at hfirst
          exact absurd (Option.some.inj hfirst).symm hpick
        | some q =>
          rw [hfront, Option.some_or] at hfirst
          rw [← Option.some.inj hfirst]
          exact List.mem_of_find?_eq_some hfront
      obtain ⟨passed, rest, rfl⟩ := List.append_of_mem hmem
      have hturned : (pick k :: (rest ++ p :: (back ++ passed))) ~r xs := by
        refine List.IsRotated.trans ?_ hrot
        have hcut : (pick k :: (rest ++ p :: back) ++ passed) ~r
            (passed ++ pick k :: (rest ++ p :: back)) := List.isRotated_append
        simpa using hcut
      have hturns : turnsAfter xs (pick k) = rest ++ p :: (back ++ passed ++ [pick k]) := by
        rw [turnsAfter_of_isRotated hnodup hturned]
        simp
      have hfirst' := hnext k (by omega)
      have hrot' := turnsAfter_isRotated xs (pick k)
      rw [hturns] at hfirst' hrot'
      have hshort : rest.length ≤ d := by
        rw [List.length_append, List.length_cons] at hlen
        omega
      obtain ⟨j, hj, hpj⟩ := ih hshort (by omega) hrot' hfirst'
      exact ⟨j, by omega, hpj⟩

/-- What stays eligible is picked before the circle has been gone round. -/
theorem picked_within (hnodup : xs.Nodup) {start : List α} (hstart : start ~r xs)
    (hmem : p ∈ xs) (hp : ∀ k, k < xs.length → eligible k p = true)
    (hfirst : start.find? (eligible 0) = some (pick 0))
    (hnext : ∀ k, k + 1 < xs.length →
      (turnsAfter xs (pick k)).find? (eligible (k + 1)) = some (pick (k + 1))) :
    ∃ k, k < xs.length ∧ pick k = p := by
  obtain ⟨front, back, rfl⟩ := List.append_of_mem (hstart.perm.mem_iff.mpr hmem)
  have hlen : (front ++ p :: back).length = xs.length := hstart.perm.length_eq
  rw [List.length_append, List.length_cons] at hlen
  obtain ⟨j, hj, hpj⟩ :=
    @picked_from α p xs _ eligible pick hnodup hp hnext front.length 0 front back le_rfl
      (by omega) hstart hfirst
  exact ⟨j, by omega, hpj⟩

end Turns

end Ucore.CyclicTurns
