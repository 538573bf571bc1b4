import Mathlib.Algebra.GroupWithZero.Nat
import Mathlib.Data.List.Nodup
import Mathlib.Order.Lattice

/-!
Alarms with absolute deadlines, and lists of them that store the difference of each
deadline to the one before.
-/

namespace Ucore.Deadlines

/-- The alarms that are pending, in the order they were set. -/
structure Alarms (τ : Type) where
  now : Nat
  pending : List (τ × Nat)

variable {τ : Type}

section Operations

def Alarms.set (a : Alarms τ) (x : τ) (delay : Nat) : Alarms τ :=
  { a with pending := a.pending ++ [(x, a.now + delay)] }

def Alarms.cancel [DecidableEq τ] (a : Alarms τ) (x : τ) : Alarms τ :=
  { a with pending := a.pending.filter fun alarm => alarm.1 ≠ x }

/-- The alarms that the next tick sets off. -/
def Alarms.due (a : Alarms τ) : List τ :=
  (a.pending.filter fun alarm => alarm.2 = a.now + 1).map Prod.fst

def Alarms.tick (a : Alarms τ) : Alarms τ where
  now := a.now + 1
  pending := a.pending.filter fun alarm => alarm.2 ≠ a.now + 1

end Operations

/-- The same alarms by deadline, and those with one deadline in the order they were set. -/
structure Arranged (pending sorted : List (τ × Nat)) : Prop where
  ascending : sorted.Pairwise fun alarm alarm' => alarm.2 ≤ alarm'.2
  same : ∀ d, sorted.filter (fun alarm => alarm.2 = d) = pending.filter fun alarm => alarm.2 = d

/-- An alarm is put behind those that are not later. -/
def insertAlarm (alarm : τ × Nat) : List (τ × Nat) → List (τ × Nat)
  | [] => [alarm]
  | alarm' :: rest =>
      if alarm.2 < alarm'.2 then alarm :: alarm' :: rest else alarm' :: insertAlarm alarm rest

section Arranging

variable {pending sorted : List (τ × Nat)} {alarm : τ × Nat}

theorem mem_insertAlarm {alarm' : τ × Nat} :
    alarm' ∈ insertAlarm alarm sorted ↔ alarm' = alarm ∨ alarm' ∈ sorted := by
  induction sorted with
  | nil => simp [insertAlarm]
  | cons first rest ih =>
      rw [insertAlarm]
      split
      · simp
      · rw [List.mem_cons, ih, List.mem_cons]
        tauto

theorem pairwise_insertAlarm (h : sorted.Pairwise fun alarm alarm' => alarm.2 ≤ alarm'.2) :
    (insertAlarm alarm sorted).Pairwise fun alarm alarm' => alarm.2 ≤ alarm'.2 := by
  induction sorted with
  | nil => exact List.pairwise_singleton _ _
  | cons first rest ih =>
      obtain ⟨hfirst, hrest⟩ := List.pairwise_cons.mp h
      rw [insertAlarm]
      split
      · next hlt =>
          refine List.pairwise_cons.mpr ⟨fun alarm' hmem => ?_, h⟩
          rcases List.mem_cons.mp hmem with rfl | hmem
          · exact hlt.le
          · exact hlt.le.trans (hfirst alarm' hmem)
      · next hge =>
          refine List.pairwise_cons.mpr ⟨fun alarm' hmem => ?_, ih hrest⟩
          rcases mem_insertAlarm.mp hmem with rfl | hmem
          · exact Nat.le_of_not_lt hge
          · exact hfirst alarm' hmem

theorem filter_insertAlarm (h : sorted.Pairwise fun alarm alarm' => alarm.2 ≤ alarm'.2)
    (d : Nat) : (insertAlarm alarm sorted).filter (fun alarm => alarm.2 = d) =
      sorted.filter (fun alarm => alarm.2 = d) ++ [alarm].filter fun alarm => alarm.2 = d := by
  induction sorted with
  | nil => rfl
  | cons first rest ih =>
      obtain ⟨hfirst, hrest⟩ := List.pairwise_cons.mp h
      rw [insertAlarm]
      split
      · next hlt =>
          by_cases hd : alarm.2 = d
          · have hnone : (first :: rest).filter (fun alarm => alarm.2 = d) = [] := by
              refine List.filter_eq_nil_iff.mpr fun alarm' hmem => ?_
              have hle : first.2 ≤ alarm'.2 := by
                rcases List.mem_cons.mp hmem with rfl | hmem
                · exact le_rfl
                · exact hfirst alarm' hmem
              simp only [decide_eq_true_eq]
              omega
            rw [List.filter_cons_of_pos (by simpa using hd), hnone]
            simp [hd]
          · rw [List.filter_cons_of_neg (by simpa using hd)]
            simp [hd]
      · rw [List.filter_cons, List.filter_cons, ih hrest]
        split
        · rfl
        · rfl

theorem Arranged.insert (h : Arranged pending sorted) :
    Arranged (pending ++ [alarm]) (insertAlarm alarm sorted) where
  ascending := pairwise_insertAlarm h.ascending
  same d := by rw [filter_insertAlarm h.ascending, List.filter_append, h.same]

theorem Arranged.filter (h : Arranged pending sorted) (p : τ × Nat → Bool) :
    Arranged (pending.filter p) (sorted.filter p) where
  ascending := h.ascending.filter p
  same d := by
    have hcomm : ∀ l : List (τ × Nat), (l.filter p).filter (fun alarm => alarm.2 = d) =
        (l.filter fun alarm => alarm.2 = d).filter p := by
      intro l
      rw [List.filter_filter, List.filter_filter]
      exact List.filter_congr fun _ _ => Bool.and_comm _ _
    rw [hcomm, hcomm, h.same]

theorem Arranged.mem_iff (h : Arranged pending sorted) : alarm ∈ sorted ↔ alarm ∈ pending := by
  have hin : ∀ l : List (τ × Nat), alarm ∈ l ↔ alarm ∈ l.filter fun alarm' => alarm'.2 = alarm.2 := by
    intro l
    simp
  rw [hin sorted, hin pending, h.same]

end Arranging

/-- The deadlines of alarms of which `delta` has the differences. -/
def absolute (now : Nat) (delta : τ → Nat) : List τ → List (τ × Nat)
  | [] => []
  | x :: xs => (x, now + delta x) :: absolute (now + delta x) delta xs

section Differences

variable {now : Nat} {delta delta' : τ → Nat} {xs ys : List τ}

theorem absolute_congr (h : ∀ x ∈ xs, delta' x = delta x) :
    absolute now delta' xs = absolute now delta xs := by
  induction xs generalizing now with
  | nil => rfl
  | cons x xs ih =>
      rw [absolute, absolute, h x List.mem_cons_self,
        ih fun y hy => h y (List.mem_cons_of_mem _ hy)]

theorem map_fst_absolute : (absolute now delta xs).map Prod.fst = xs := by
  induction xs generalizing now with
  | nil => rfl
  | cons x xs ih => rw [absolute, List.map_cons, ih]

theorem le_of_mem_absolute {alarm : τ × Nat} (h : alarm ∈ absolute now delta xs) :
    now ≤ alarm.2 := by
  induction xs generalizing now with
  | nil => exact absurd h List.not_mem_nil
  | cons x xs ih =>
      rcases List.mem_cons.mp h with rfl | h
      · exact Nat.le_add_right _ _
      · exact (Nat.le_add_right _ _).trans (ih h)

theorem mem_absolute_fst {x : τ} (h : x ∈ xs) : ∃ d, (x, d) ∈ absolute now delta xs := by
  rw [← @map_fst_absolute τ now delta xs] at h
  obtain ⟨alarm, hmem, rfl⟩ := List.mem_map.mp h
  exact ⟨alarm.2, hmem⟩

theorem fst_mem_of_absolute {alarm : τ × Nat} (h : alarm ∈ absolute now delta xs) :
    alarm.1 ∈ xs := by
  rw [← @map_fst_absolute τ now delta xs]
  exact List.mem_map_of_mem h

theorem absolute_append : absolute now delta (xs ++ ys) =
    absolute now delta xs ++ absolute (now + (xs.map delta).sum) delta ys := by
  induction xs generalizing now with
  | nil => rfl
  | cons x xs ih =>
      rw [List.cons_append, absolute, absolute, ih, List.map_cons, List.sum_cons, Nat.add_assoc]
      rfl

/-- An alarm is taken out, and the next one gets its difference. -/
theorem absolute_remove [DecidableEq τ] {x : τ} (hx : x ∉ xs)
    (hrest : ∀ y ∈ xs.tail, delta' y = delta y)
    (hnext : ∀ y ∈ xs.head?, delta' y = delta y + delta x) :
    absolute now delta' xs =
      (absolute now delta (x :: xs)).filter fun alarm => alarm.1 ≠ x := by
  have hkept : (absolute (now + delta x) delta xs).filter (fun alarm => alarm.1 ≠ x) =
      absolute (now + delta x) delta xs := by
    refine List.filter_eq_self.mpr fun alarm h => ?_
    simp only [decide_eq_true_eq]
    rintro rfl
    exact hx (fst_mem_of_absolute h)
  rw [absolute, List.filter_cons_of_neg (by simp), hkept]
  cases xs with
  | nil => rfl
  | cons y ys =>
      have hy : delta' y = delta y + delta x := hnext y rfl
      have hsum : now + delta' y = now + delta x + delta y := by omega
      have hys : ∀ z ∈ ys, delta' z = delta z := hrest
      rw [absolute, absolute, hsum, absolute_congr hys]

theorem absolute_tick {x : τ} (hpos : 0 < delta x) (hx : delta' x = delta x - 1)
    (hrest : ∀ y ∈ xs, delta' y = delta y) :
    absolute (now + 1) delta' (x :: xs) = absolute now delta (x :: xs) := by
  have hsum : now + 1 + delta' x = now + delta x := by omega
  rw [absolute, absolute, hsum, absolute_congr hrest]

/-- The alarms that are due now are the first ones. -/
theorem filter_absolute_now : (absolute now delta xs).filter (fun alarm => alarm.2 = now) =
    (xs.takeWhile fun x => delta x = 0).map fun x => (x, now) := by
  induction xs with
  | nil => rfl
  | cons x xs ih =>
      by_cases hx : delta x = 0
      · rw [absolute, hx, Nat.add_zero, List.filter_cons_of_pos (by simp),
          List.takeWhile_cons_of_pos (by simpa using hx), ih]
        rfl
      · rw [absolute, List.filter_cons_of_neg (by simpa using hx),
          List.takeWhile_cons_of_neg (by simpa using hx), List.map_nil]
        refine List.filter_eq_nil_iff.mpr fun alarm h => ?_
        have hle := le_of_mem_absolute h
        simp only [decide_eq_true_eq]
        omega

theorem absolute_dropWhile : absolute now delta (xs.dropWhile fun x => delta x = 0) =
    (absolute now delta xs).filter fun alarm => alarm.2 ≠ now := by
  induction xs with
  | nil => rfl
  | cons x xs ih =>
      by_cases hx : delta x = 0
      · rw [List.dropWhile_cons_of_pos (by simpa using hx), ih, absolute, hx, Nat.add_zero,
          List.filter_cons_of_neg (by simp)]
      · rw [List.dropWhile_cons_of_neg (by simpa using hx)]
        symm
        refine List.filter_eq_self.mpr fun alarm h => ?_
        have hle : now + delta x ≤ alarm.2 := by
          rcases List.mem_cons.mp h with rfl | h
          · exact le_rfl
          · exact le_of_mem_absolute h
        simp only [ne_eq, decide_eq_true_eq]
        omega

end Differences

end Ucore.Deadlines
