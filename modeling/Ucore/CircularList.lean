import Mathlib.Data.List.Cycle
import Ucore.LinkRing

/-! Circular lists with one link in each entry. -/

namespace Ucore.CircularList

open Ucore.LinkRing

variable {ν : Type*}

/-- Following `next` goes through the entries in this order, and from the last to the first. -/
def Circular (next : ν → ν) (xs : List ν) : Prop :=
  Cycle.Chain (fun a b => next a = b) (xs : Cycle ν)

variable {next next' : ν → ν} {xs as bs : List ν} {p q c d : ν}

theorem circular_cons :
    Circular next (p :: xs) ↔ (p :: (xs ++ [p])).IsChain fun a b => next a = b :=
  Iff.rfl

theorem circular_rotate : Circular next (as ++ bs) ↔ Circular next (bs ++ as) := by
  have hsame : ((as ++ bs : List ν) : Cycle ν) = ((bs ++ as : List ν) : Cycle ν) :=
    Cycle.coe_eq_coe.mpr List.isRotated_append
  rw [Circular, Circular, hsame]

/-- A segment has a link from each of its entries but the last. -/
theorem chain_congr (h : (xs ++ [q]).IsChain fun a b => next a = b)
    (hsame : ∀ a ∈ xs, next' a = next a) : (xs ++ [q]).IsChain fun a b => next' a = b := by
  refine isChain_of_ends h fun a ha b _ hab => ?_
  rw [List.dropLast_concat] at ha
  rw [hsame a ha, hab]

/-- What is not in the list may be linked in any way. -/
theorem Circular.congr (h : Circular next xs) (hsame : ∀ a ∈ xs, next' a = next a) :
    Circular next' xs := by
  cases xs with
  | nil => exact Cycle.Chain.nil _
  | cons a xs => exact @chain_congr _ _ _ (a :: xs) _ (circular_cons.mp h) hsame

theorem Circular.next_mem (h : Circular next (as ++ p :: c :: bs)) : next p = c :=
  (List.isChain_cons_cons.mp (circular_cons.mp (circular_rotate.mp h))).1

theorem Circular.next_last (h : Circular next (p :: as ++ [q])) : next q = p :=
  (List.isChain_cons_cons.mp (circular_cons.mp (circular_rotate.mp h))).1

/-- The entries after one of them, up to itself. -/
theorem Circular.around (h : Circular next (as ++ p :: bs)) :
    (p :: (bs ++ as ++ [p])).IsChain fun a b => next a = b :=
  circular_cons.mp (circular_rotate.mp h)

/-- A doubly linked ring whose head is skipped. -/
theorem circular_of_ring [DecidableEq ν] {l : Links ν} {head : ν} (h : RingList l head xs) :
    Circular (fun e => if l.next e = head then l.next head else l.next e) xs := by
  match xs with
  | [] => exact Cycle.Chain.nil _
  | p :: xs =>
      have hring := h
      rw [← List.append_nil (p :: xs), ring_append_iff, List.append_nil] at hring
      obtain ⟨hnodup, hchain, _, hlast, _⟩ := hring
      have hmoves : (p :: xs).IsChain
          fun a b => (if l.next a = head then l.next head else l.next a) = b := by
        refine isChain_of_ends hchain.tail fun a _ b hb hab => ?_
        have hne : l.next a ≠ head := by
          intro heq
          have hbhead : b = head := hab.1.symm.trans heq
          exact (List.nodup_cons.mp hnodup).1 (hbhead ▸ List.mem_of_mem_tail hb)
        rw [if_neg hne]
        exact hab.1
      refine circular_cons.mpr ?_
      rw [← List.cons_append, List.isChain_append]
      refine ⟨hmoves, List.isChain_singleton _, ?_⟩
      intro a ha b hb
      obtain rfl : p = b := by simpa using hb
      have hend : lastOf head (p :: xs) = a := by
        rw [lastOf, List.getLastD_eq_getLast?, ha, Option.getD_some]
      rw [firstOf_nil] at hlast
      rw [← hend, if_pos hlast]
      exact h.next_head

section Updates

variable [DecidableEq ν]

/-- The entry after `p` is unlinked. -/
theorem Circular.remove (h : Circular next (as ++ p :: c :: bs))
    (hnodup : (as ++ p :: c :: bs).Nodup) :
    Circular (Function.update next p (next c)) (as ++ p :: bs) := by
  have hout : p ∉ bs ++ as := by
    have hfirst := (List.nodup_cons.mp (List.perm_append_comm.nodup_iff.mp hnodup)).1
    exact fun hp => hfirst (List.mem_cons_of_mem _ hp)
  obtain ⟨hnext, hrest⟩ := List.isChain_cons.mp h.around.tail
  refine circular_rotate.mpr (circular_cons.mpr (List.isChain_cons.mpr ⟨?_, ?_⟩))
  · intro y hy
    rw [Function.update_self]
    exact hnext y hy
  · refine chain_congr hrest fun a ha => Function.update_of_ne ?_ _ _
    rintro rfl
    exact hout ha

/-- `d` is linked in after `p`. -/
theorem Circular.insert (h : Circular next (as ++ p :: bs)) (hnodup : (as ++ p :: bs).Nodup)
    (hd : d ∉ as ++ p :: bs) :
    Circular (Function.update (Function.update next d (next p)) p d) (as ++ p :: d :: bs) := by
  have hout : p ∉ bs ++ as :=
    (List.nodup_cons.mp (List.perm_append_comm.nodup_iff.mp hnodup)).1
  have hne : d ≠ p := by
    rintro rfl
    exact hd (by simp)
  obtain ⟨hnext, hrest⟩ := List.isChain_cons.mp h.around
  refine circular_rotate.mpr (circular_cons.mpr (List.isChain_cons_cons.mpr
    ⟨Function.update_self _ _ _, List.isChain_cons.mpr ⟨?_, ?_⟩⟩))
  · intro y hy
    rw [Function.update_of_ne hne, Function.update_self]
    exact hnext y hy
  · refine chain_congr hrest fun a ha => ?_
    have hap : a ≠ p := by
      rintro rfl
      exact hout ha
    have had : a ≠ d := by
      rintro rfl
      rcases List.mem_append.mp ha with hb | ha
      · exact hd (List.mem_append_right _ (List.mem_cons_of_mem _ hb))
      · exact hd (List.mem_append_left _ ha)
    rw [Function.update_of_ne hap, Function.update_of_ne had]

/-- `d` takes the place of the entry after `p`. -/
theorem Circular.replace (h : Circular next (as ++ p :: c :: bs))
    (hnodup : (as ++ p :: c :: bs).Nodup) (hd : d ∉ as ++ p :: c :: bs) :
    Circular (Function.update (Function.update next d (next c)) p d) (as ++ p :: d :: bs) := by
  have hperm : (as ++ p :: c :: bs).Perm (c :: (as ++ p :: bs)) := by
    have hmiddle : ((as ++ [p]) ++ c :: bs).Perm (c :: ((as ++ [p]) ++ bs)) := List.perm_middle
    simpa using hmiddle
  have hne : d ≠ p := by
    rintro rfl
    exact hd (by simp)
  have hremoved := h.remove hnodup
  have hinserted := hremoved.insert (List.nodup_cons.mp (hperm.nodup_iff.mp hnodup)).2
    (d := d) fun hmem => hd (hperm.mem_iff.mpr (List.mem_cons_of_mem _ hmem))
  rw [Function.update_self, Function.update_comm hne, Function.update_idem] at hinserted
  rw [Function.update_comm hne]
  exact hinserted

end Updates

end Ucore.CircularList
