import Ucore.LinkRing

/-!
The list of `libs/list.h`: the fields of `struct list_entry` are a heap of
links, and every inline function becomes an update of that heap.
-/

namespace Ucore.ListHeader

open Ucore.LinkRing

variable {ν : Type*} [DecidableEq ν]

def listInit (l : Links ν) (elm : ν) : Links ν where
  next := Function.update l.next elm elm
  prev := Function.update l.prev elm elm

/-- `__list_add`. -/
def listAddEntry (l : Links ν) (elm prev next : ν) : Links ν :=
  l.insertBetween elm prev next

/-- `__list_del`. -/
def listDelEntry (l : Links ν) (prev next : ν) : Links ν :=
  l.join prev next

def listNext (l : Links ν) (listelm : ν) : ν :=
  l.next listelm

def listPrev (l : Links ν) (listelm : ν) : ν :=
  l.prev listelm

def listAddAfter (l : Links ν) (listelm elm : ν) : Links ν :=
  listAddEntry l elm listelm (l.next listelm)

def listAddBefore (l : Links ν) (listelm elm : ν) : Links ν :=
  listAddEntry l elm (l.prev listelm) listelm

def listAdd (l : Links ν) (listelm elm : ν) : Links ν :=
  listAddAfter l listelm elm

def listDel (l : Links ν) (listelm : ν) : Links ν :=
  listDelEntry l (l.prev listelm) (l.next listelm)

def listEmpty (l : Links ν) (list : ν) : Bool :=
  l.next list = list

theorem ring_listInit (l : Links ν) (head : ν) : RingList (listInit l head) head [] := by
  simp [RingList, LinkedTo, listInit]

theorem listEmpty_eq_true_iff {l : Links ν} {head : ν} {xs : List ν}
    (h : RingList l head xs) : listEmpty l head = true ↔ xs = [] := by
  rw [listEmpty, decide_eq_true_eq, h.next_head]
  cases xs with
  | nil => simp
  | cons x xs =>
      have hne : head ≠ x := by
        rintro rfl
        exact (List.nodup_cons.mp h.nodup).1 (by simp)
      simp [hne.symm]

/-- `list_add` behind the last entry of a segment. -/
theorem ring_listAdd {l : Links ν} {head e : ν} {as bs : List ν}
    (h : RingList l head (as ++ bs)) (he : e ∉ head :: (as ++ bs)) :
    RingList (listAdd l (lastOf head as) e) head (as ++ e :: bs) := by
  rw [listAdd, listAddAfter, listAddEntry, h.next_lastOf]
  exact h.insertBetween he

/-- `list_add_before` in front of the first entry of a segment. -/
theorem ring_listAddBefore {l : Links ν} {head e : ν} {as bs : List ν}
    (h : RingList l head (as ++ bs)) (he : e ∉ head :: (as ++ bs)) :
    RingList (listAddBefore l (firstOf head bs) e) head (as ++ e :: bs) := by
  rw [listAddBefore, listAddEntry, h.prev_firstOf]
  exact h.insertBetween he

theorem ring_listDel {l : Links ν} {head e : ν} {as bs : List ν}
    (h : RingList l head (as ++ e :: bs)) : RingList (listDel l e) head (as ++ bs) := by
  rw [listDel, listDelEntry, h.next_mem, h.prev_mem]
  exact h.join

end Ucore.ListHeader
