import Ucore.CircularList
import Ucore.ExtentLists
import Ucore.Kmalloc
import Ucore.Returning

/-! What `slob_free` and `slob_alloc` do to the list of free blocks. -/

namespace Ucore.KmallocLists

open Ucore.KernelRoutine
open Ucore.DefaultPmm (PGSIZE)
open Ucore.CircularList
open Ucore.Extents
open Ucore.ExtentLists
open Ucore.Kmalloc
open Ucore.Returning

/-- The free blocks are linked in the order of their addresses, and from the last to the first. -/
structure FreeList (s : Slob) (fs : List Extent) : Prop where
  links : Circular s.next (fs.map Extent.base)
  units : ∀ e ∈ fs, s.units e.base = e.size
  ordered : fs.Pairwise Before
  pos : ∀ e ∈ fs, 0 < e.size
  slobfree : s.slobfree ∈ fs.map Extent.base

/-- Only the `slob_t` at these addresses may have changed. -/
structure Elsewhere (written : Nat → Prop) (s s' : Slob) : Prop where
  units : ∀ a, ¬written a → s'.units a = s.units a
  next : ∀ a, ¬written a → s'.next a = s.next a
  nextBig : s'.nextBig = s.nextBig
  bigblocks : s'.bigblocks = s.bigblocks
  free : s'.free = s.free
  grants : s'.grants = s.grants

variable {s s' s'' : Slob} {fs as bs : List Extent} {c e f : Extent} {arena b size : Nat}
  {written written' : Nat → Prop}

section Lists

theorem after_concat : as ++ [c] ++ e :: bs = as ++ c :: e :: bs := by
  simp

theorem Elsewhere.trans (h : Elsewhere written s s') (h' : Elsewhere written s' s'') :
    Elsewhere written s s'' :=
  ⟨fun a ha => (h'.units a ha).trans (h.units a ha), fun a ha => (h'.next a ha).trans (h.next a ha),
    h'.nextBig.trans h.nextBig, h'.bigblocks.trans h.bigblocks, h'.free.trans h.free,
    h'.grants.trans h.grants⟩

/-- More of the heap may count as written. -/
theorem Elsewhere.mono (h : Elsewhere written s s') (hsub : ∀ a, ¬written' a → ¬written a) :
    Elsewhere written' s s' :=
  ⟨fun a ha => h.units a (hsub a ha), fun a ha => h.next a (hsub a ha), h.nextBig, h.bigblocks,
    h.free, h.grants⟩

theorem FreeList.nodup (h : FreeList s fs) : (fs.map Extent.base).Nodup :=
  bases_nodup h.ordered h.pos

theorem FreeList.base_lt (h : FreeList s (as ++ c :: bs)) (he : e ∈ bs) : c.base < e.base := by
  have hafter := (List.pairwise_append.mp h.ordered).2.1
  exact ((List.pairwise_cons.mp hafter).1 e he).base_lt (h.pos c (by simp))

/-- The first block is the one of the lowest address. -/
theorem FreeList.first_le (h : FreeList s fs) (hfirst : fs.head? = some f) (he : e ∈ fs) :
    f.base ≤ e.base := by
  cases fs with
  | nil => cases he
  | cons g rest =>
      cases hfirst
      rcases List.mem_cons.mp he with rfl | he
      · exact le_rfl
      · have hstart : FreeList s ([] ++ f :: rest) := h
        exact (hstart.base_lt he).le

theorem FreeList.next_mem (h : FreeList s (as ++ c :: e :: bs)) : s.next c.base = e.base := by
  have hlinks := h.links
  rw [List.map_append, List.map_cons, List.map_cons] at hlinks
  exact hlinks.next_mem

theorem FreeList.next_last (h : FreeList s (as ++ [c]))
    (hfirst : (as ++ [c]).head? = some f) : s.next c.base = f.base := by
  have hlinks := h.links
  rw [List.map_append, List.map_singleton] at hlinks
  cases as with
  | nil =>
      cases hfirst
      exact (List.isChain_cons_cons.mp (circular_cons.mp hlinks)).1
  | cons g rest =>
      cases hfirst
      exact hlinks.next_last

end Lists

section Reinsertion

/-- Where the search of `slob_free` ends. -/
def Point (b : Nat) (c : Extent) (bs : List Extent) : Prop :=
  c.base < b ∧ ∀ e ∈ bs, b < e.base

/-- From a block below, the search goes up to the last block below. -/
theorem reinserts_above (h : FreeList s (as ++ c :: bs))
    (hfirst : (as ++ c :: bs).head? = some f) (hb : c.base < b) (hne : ∀ e ∈ bs, e.base ≠ b) :
    ∃ as' c' bs', as ++ c :: bs = as' ++ c' :: bs' ∧
      Returns (fun fuel => reinsertionPoint b fuel c.base) s c'.base s ∧ Point b c' bs' := by
  induction bs generalizing as c with
  | nil =>
      have hnext := h.next_last hfirst
      have hle := h.first_le hfirst (e := c) (by simp)
      refine ⟨as, c, [], rfl, Returns.turn (y := fun _ => pure c.base) (fun fuel => ?_)
        (Returns.of_eq fun _ => rfl), hb, nofun⟩
      rw [reinsertionPoint, getState_bind, hnext, if_neg (by omega), if_pos (by omega)]
  | cons e bs ih =>
      have hnext := h.next_mem
      have hlt : c.base < e.base := h.base_lt (by simp)
      rcases Nat.lt_or_gt_of_ne (hne e (by simp)) with hbelow | habove
      · have hsame : as ++ c :: e :: bs = (as ++ [c]) ++ e :: bs := by simp
        rw [hsame] at h hfirst ⊢
        obtain ⟨as', c', bs', heq, hruns, hpoint⟩ := ih h hfirst hbelow
          fun g hg => hne g (List.mem_cons_of_mem _ hg)
        refine ⟨as', c', bs', heq, Returns.turn (fun fuel => ?_) hruns, hpoint⟩
        rw [reinsertionPoint, getState_bind, hnext, if_neg (by omega), if_neg (by omega)]
      · refine ⟨as, c, e :: bs, rfl, Returns.turn (y := fun _ => pure c.base) (fun fuel => ?_)
          (Returns.of_eq fun _ => rfl), hb, fun g hg => ?_⟩
        · rw [reinsertionPoint, getState_bind, hnext, if_pos ⟨hb, habove⟩]
        · rcases List.mem_cons.mp hg with rfl | hg
          · exact habove
          · rw [← after_concat] at h
            have hlater := h.base_lt hg
            omega

/-- From a block above, the search goes through the last block to the first one. -/
theorem reinserts_below (h : FreeList s (as ++ c :: bs))
    (hfirst : (as ++ c :: bs).head? = some f) (hb : b < c.base) (hf : f.base < b)
    (hne : ∀ e ∈ as ++ c :: bs, e.base ≠ b) :
    ∃ as' c' bs', as ++ c :: bs = as' ++ c' :: bs' ∧
      Returns (fun fuel => reinsertionPoint b fuel c.base) s c'.base s ∧ Point b c' bs' := by
  induction bs generalizing as c with
  | nil =>
      have hnext := h.next_last hfirst
      have hgoes : ∀ fuel, reinsertionPoint b (fuel + 1) c.base s =
          reinsertionPoint b fuel f.base s := by
        intro fuel
        rw [reinsertionPoint, getState_bind, hnext, if_neg (by omega), if_neg (by omega)]
      cases hlist : as ++ [c] with
      | nil => simp at hlist
      | cons g rest =>
          rw [hlist] at h hfirst hne
          cases hfirst
          have hstart : FreeList s ([] ++ f :: rest) := h
          obtain ⟨as', c', bs', heq, hruns, hpoint⟩ := reinserts_above hstart rfl hf
            fun e he => hne e (List.mem_cons_of_mem _ he)
          exact ⟨as', c', bs', heq, Returns.turn hgoes hruns, hpoint⟩
  | cons e bs ih =>
      have hnext := h.next_mem
      have hlt : c.base < e.base := h.base_lt (by simp)
      rw [← after_concat] at h hfirst hne ⊢
      obtain ⟨as', c', bs', heq, hruns, hpoint⟩ := ih h hfirst (lt_trans hb hlt) hne
      refine ⟨as', c', bs', heq, Returns.turn (fun fuel => ?_) hruns, hpoint⟩
      rw [reinsertionPoint, getState_bind, hnext, if_neg (by omega), if_neg (by omega)]

theorem reinserts (h : FreeList s fs) (hfirst : fs.head? = some f) (hf : f.base < b)
    (hne : ∀ e ∈ fs, e.base ≠ b) :
    ∃ as c bs, fs = as ++ c :: bs ∧
      Returns (fun fuel => reinsertionPoint b fuel s.slobfree) s c.base s ∧ Point b c bs := by
  obtain ⟨c, hc, hbase⟩ := List.mem_map.mp h.slobfree
  obtain ⟨as, bs, rfl⟩ := List.append_of_mem hc
  rw [← hbase]
  rcases Nat.lt_or_gt_of_ne (hne c hc) with hbelow | habove
  · exact reinserts_above h hfirst hbelow fun e he =>
      hne e (List.mem_append_right _ (List.mem_cons_of_mem _ he))
  · exact reinserts_below h hfirst habove hf hne

end Reinsertion

section Merging

variable {g : Extent} {cs : List Extent}

/-- The block `g` is about to be put in after `c`, or to become a part of it. -/
structure Pending (s : Slob) (as : List Extent) (c g : Extent) (cs : List Extent) : Prop where
  inserted : Circular (Function.update s.next c.base g.base)
    ((as ++ c :: g :: cs).map Extent.base)
  absorbed : Circular (Function.update s.next c.base (s.next g.base))
    ((as ++ c :: cs).map Extent.base)
  units : ∀ e ∈ as ++ c :: g :: cs, s.units e.base = e.size
  ordered : (as ++ c :: g :: cs).Pairwise Before
  pos : ∀ e ∈ as ++ c :: g :: cs, 0 < e.size

theorem update_units_of_ne {units : Nat → Nat} {x v : Nat} (hunits : ∀ e ∈ fs, units e.base = e.size)
    (hne : ∀ e ∈ fs, e.base ≠ x) (he : e ∈ fs) : Function.update units x v e.base = e.size := by
  rw [Function.update_of_ne (hne e he)]
  exact hunits e he

/-- `f` is put in as it is. -/
theorem pending_insert (h : FreeList s (as ++ c :: bs)) (hne : ∀ e ∈ as ++ c :: bs, e.base ≠ f.base)
    (hf : s.units f.base = f.size) (hpos : 0 < f.size)
    (hordered : (as ++ c :: f :: bs).Pairwise Before) :
    Pending { s with next := Function.update s.next f.base (s.next c.base) } as c f bs := by
  have hnodup := h.nodup
  have hlinks := h.links
  have hout : f.base ∉ (as ++ c :: bs).map Extent.base := by
    intro hmem
    obtain ⟨e, he, hbase⟩ := List.mem_map.mp hmem
    exact hne e he hbase
  have hmem : ∀ e, e ∈ as ++ c :: f :: bs → e = f ∨ e ∈ as ++ c :: bs := by
    intro e he
    simp only [List.mem_append, List.mem_cons] at he ⊢
    tauto
  refine ⟨?_, ?_, fun e he => ?_, hordered, fun e he => ?_⟩
  · simp only [List.map_append, List.map_cons] at hlinks hnodup hout ⊢
    exact hlinks.insert hnodup hout
  · refine hlinks.congr fun a ha => ?_
    show Function.update (Function.update s.next f.base (s.next c.base)) c.base
      (Function.update s.next f.base (s.next c.base) f.base) a = s.next a
    rw [Function.update_self]
    rcases eq_or_ne a c.base with rfl | hac
    · exact Function.update_self _ _ _
    · rw [Function.update_of_ne hac, Function.update_of_ne]
      rintro rfl
      exact hout ha
  · rcases hmem e he with rfl | he
    · exact hf
    · exact h.units e he
  · rcases hmem e he with rfl | he
    · exact hpos
    · exact h.pos e he

/-- `f` is put in together with the block that follows it. -/
theorem pending_join (h : FreeList s (as ++ c :: e :: bs))
    (hne : ∀ e' ∈ as ++ c :: e :: bs, e'.base ≠ f.base) (hpos : 0 < f.size)
    (hordered : (as ++ c :: f :: e :: bs).Pairwise Before) (hmeet : f.base + f.size = e.base) :
    Pending { s with
      units := Function.update s.units f.base (f.size + e.size)
      next := Function.update s.next f.base (s.next e.base) } as c ⟨f.base, f.size + e.size⟩ bs := by
  have hnodup := h.nodup
  have hlinks := h.links
  have hout : f.base ∉ (as ++ c :: e :: bs).map Extent.base := by
    intro hmem
    obtain ⟨e, he, hbase⟩ := List.mem_map.mp hmem
    exact hne e he hbase
  have hmem : ∀ e', e' ∈ as ++ c :: ⟨f.base, f.size + e.size⟩ :: bs →
      e' = ⟨f.base, f.size + e.size⟩ ∨ e' ∈ as ++ c :: e :: bs := by
    intro e' he
    simp only [List.mem_append, List.mem_cons] at he ⊢
    tauto
  refine ⟨?_, ?_, fun e' he => ?_, ?_, fun e' he => ?_⟩
  · simp only [List.map_append, List.map_cons] at hlinks hnodup hout ⊢
    exact hlinks.replace hnodup hout
  · simp only [List.map_append, List.map_cons] at hlinks hnodup hout ⊢
    refine (hlinks.remove hnodup).congr fun a ha => ?_
    rw [Function.update_self]
    rcases eq_or_ne a c.base with rfl | hac
    · rw [Function.update_self, Function.update_self]
    · rw [Function.update_of_ne hac, Function.update_of_ne hac, Function.update_of_ne]
      rintro rfl
      refine hout ?_
      simp only [List.mem_append, List.mem_cons] at ha ⊢
      tauto
  · rcases hmem e' he with rfl | he
    · exact Function.update_self _ _ _
    · exact update_units_of_ne h.units hne he
  · have heq : e = ⟨f.base + f.size, e.size⟩ := by rw [hmeet]
    rw [heq] at hordered
    have hsame : as ++ c :: f :: ⟨f.base + f.size, e.size⟩ :: bs =
        (as ++ [c]) ++ ⟨f.base, f.size⟩ :: ⟨f.base + f.size, e.size⟩ :: bs := by simp
    rw [hsame] at hordered
    have hjoined := ordered_join hordered
    simpa using hjoined
  · rcases hmem e' he with rfl | he
    · exact Nat.add_pos_left hpos _
    · exact h.pos e' he

/-- After `b->next` and `b->units` are set, `b` may have become longer. -/
theorem mergeRight_of (h : FreeList s (as ++ c :: bs)) (hpoint : Point f.base c bs)
    (hfirst : (as ++ c :: bs).head? = some e) (hlow : e.base ≤ f.base) (hpos : 0 < f.size)
    (hf : s.units f.base = f.size) (hapart : ∀ e ∈ as ++ c :: bs, Apart e f) :
    ∃ s' g cs, mergeRight f.base c.base s = .ok (.ok (), s') ∧ Pending s' as c g cs ∧
      g.base = f.base ∧ f.size ≤ g.size ∧ (as ++ c :: cs).head? = (as ++ c :: bs).head? ∧
      (∀ u, CoversAny (as ++ c :: g :: cs) u ↔ CoversAny (as ++ c :: bs) u ∨ Covers f u) ∧
      Elsewhere (fun a => a = f.base) s s' := by
  obtain ⟨hbelow, habove⟩ := hpoint
  have hne : ∀ e ∈ as ++ c :: bs, e.base ≠ f.base := by
    intro e he heq
    have hcovers : Covers f e.base := heq ▸ covers_base hpos
    exact (hapart e he).not_covers (covers_base (h.pos e he)) hcovers
  have hordered : (as ++ c :: f :: bs).Pairwise Before := by
    refine ordered_insert h.ordered (before_of_apart (hapart c (by simp)) hbelow) fun e he => ?_
    exact before_of_apart (hapart e (by simp [he])).symm (habove e he)
  have hinsert : f.base + f.size ≠ s.next c.base → ∃ s' g cs,
      mergeRight f.base c.base s = .ok (.ok (), s') ∧ Pending s' as c g cs ∧
      g.base = f.base ∧ f.size ≤ g.size ∧ (as ++ c :: cs).head? = (as ++ c :: bs).head? ∧
      (∀ u, CoversAny (as ++ c :: g :: cs) u ↔ CoversAny (as ++ c :: bs) u ∨ Covers f u) ∧
      Elsewhere (fun a => a = f.base) s s' := by
    intro happart
    refine ⟨_, f, bs, ?_, pending_insert h hne hf hpos hordered, rfl, le_rfl, rfl,
      fun u => ?_, fun _ _ => rfl, fun a ha => Function.update_of_ne ha _ _, rfl, rfl, rfl, rfl⟩
    · rw [mergeRight, getState_bind, hf, if_neg happart]
      rfl
    · simp only [coversAny_append, coversAny_cons]
      tauto
  cases bs with
  | nil =>
      have hnext := h.next_last hfirst
      exact hinsert (by omega)
  | cons e' bs =>
      have hnext := h.next_mem
      rcases Decidable.em (f.base + f.size = e'.base) with hmeet | happart
      · have he' : s.units e'.base = e'.size := h.units e' (by simp)
        refine ⟨_, _, bs, ?_, pending_join h hne hpos hordered hmeet, rfl,
          Nat.le_add_right _ _, ?_, fun u => ?_,
          fun a ha => Function.update_of_ne ha _ _, fun a ha => Function.update_of_ne ha _ _,
          rfl, rfl, rfl, rfl⟩
        · rw [mergeRight, getState_bind, hf, hnext, if_pos hmeet, he']
          rfl
        · cases as <;> rfl
        · have hjoin : Covers ⟨f.base, f.size + e'.size⟩ u ↔ Covers f u ∨ Covers e' u := by
            rw [covers_join, hmeet]
          simp only [coversAny_append, coversAny_cons, hjoin]
          tauto
      · exact hinsert (hnext ▸ happart)

/-- What is left of `slob_free` when the block is about to be put in. -/
theorem mergeLeft_of (h : Pending s as c g cs) (hfirst : (as ++ c :: cs).head? = some ⟨arena, 1⟩)
    (habove : arena + 1 < g.base) :
    ∃ s' fs', (do mergeLeft g.base c.base; setSlobfree c.base : Routine Slob Unit) s =
        .ok (.ok (), s') ∧ FreeList s' fs' ∧ fs'.head? = some ⟨arena, 1⟩ ∧
      (∃ e ∈ fs', g.size ≤ e.size) ∧
      (∀ u, CoversAny fs' u ↔ CoversAny (as ++ c :: g :: cs) u) ∧
      Elsewhere (fun a => a = c.base) s s' := by
  have hc : s.units c.base = c.size := h.units c (by simp)
  have hg : s.units g.base = g.size := h.units g (by simp)
  have hnodup := bases_nodup h.ordered h.pos
  have hothers : ∀ e, e ∈ as ∨ e ∈ cs → e.base ≠ c.base := by
    intro e he
    have hperm : (as ++ c :: g :: cs).Perm (c :: (as ++ g :: cs)) := List.perm_middle
    have hfirst := (List.nodup_cons.mp ((hperm.map Extent.base).nodup_iff.mp hnodup)).1
    intro heq
    refine hfirst (heq ▸ List.mem_map_of_mem ?_)
    simp only [List.mem_append, List.mem_cons]
    tauto
  rcases Decidable.em (c.base + c.size = g.base) with hmeet | happart
  · let s' : Slob := { s with
      units := Function.update s.units c.base (c.size + g.size)
      next := Function.update s.next c.base (s.next g.base)
      slobfree := c.base }
    refine ⟨s', as ++ ⟨c.base, c.size + g.size⟩ :: cs, ?_, ⟨?_, fun e he => ?_, ?_, fun e he => ?_, ?_⟩,
      ?_, ⟨⟨c.base, c.size + g.size⟩, by simp, Nat.le_add_left _ _⟩, fun u => ?_, ?_, ?_, rfl, rfl,
      rfl, rfl⟩
    · show (mergeLeft g.base c.base >>= fun _ => setSlobfree c.base) s = _
      rw [mergeLeft]
      show ((getState >>= fun _ => _) >>= fun _ => _) s = _
      rw [routine_bind_assoc, getState_bind, hc, if_pos hmeet, hg]
      rfl
    · have habsorbed := h.absorbed
      simp only [List.map_append, List.map_cons] at habsorbed ⊢
      exact habsorbed
    · simp only [List.mem_append, List.mem_cons] at he
      rcases he with he | rfl | he
      · show Function.update s.units c.base _ e.base = _
        rw [Function.update_of_ne (hothers e (Or.inl he))]
        exact h.units e (by simp [he])
      · exact Function.update_self _ _ _
      · show Function.update s.units c.base _ e.base = _
        rw [Function.update_of_ne (hothers e (Or.inr he))]
        exact h.units e (by simp [he])
    · have heq : g = ⟨c.base + c.size, g.size⟩ := by rw [hmeet]
      have hordered := h.ordered
      rw [heq] at hordered
      exact ordered_join hordered
    · simp only [List.mem_append, List.mem_cons] at he
      rcases he with he | rfl | he
      · exact h.pos e (by simp [he])
      · exact Nat.add_pos_left (h.pos c (by simp)) _
      · exact h.pos e (by simp [he])
    · simp [s']
    · cases as with
      | nil =>
          cases hfirst
          change arena + 1 = g.base at hmeet
          omega
      | cons a as => exact hfirst
    · have heq : g = ⟨c.base + c.size, g.size⟩ := by rw [hmeet]
      have hjoin : Covers ⟨c.base, c.size + g.size⟩ u ↔ Covers c u ∨ Covers g u := by
        rw [covers_join, ← heq]
      simp only [coversAny_append, coversAny_cons, hjoin]
      tauto
    · exact fun a ha => Function.update_of_ne ha _ _
    · exact fun a ha => Function.update_of_ne ha _ _
  · let s' : Slob := { s with
      next := Function.update s.next c.base g.base
      slobfree := c.base }
    refine ⟨s', as ++ c :: g :: cs, ?_, ⟨h.inserted, h.units, h.ordered, h.pos, by simp [s']⟩, ?_,
      ⟨g, by simp, le_rfl⟩, fun u => Iff.rfl, fun _ _ => rfl, ?_, rfl, rfl, rfl, rfl⟩
    · show (mergeLeft g.base c.base >>= fun _ => setSlobfree c.base) s = _
      rw [mergeLeft]
      show ((getState >>= fun _ => _) >>= fun _ => _) s = _
      rw [routine_bind_assoc, getState_bind, hc, if_neg happart]
      rfl
    · cases as with
      | nil => exact hfirst
      | cons a as => exact hfirst
    · exact fun a ha => Function.update_of_ne ha _ _

end Merging

section Freeing

/-- The block `f` has been put back into the list. -/
structure PutBack (s : Slob) (fs : List Extent) (f : Extent) (s' : Slob) (fs' : List Extent) :
    Prop where
  list : FreeList s' fs'
  first : fs'.head? = fs.head?
  covers : ∀ u, CoversAny fs' u ↔ CoversAny fs u ∨ Covers f u
  room : ∃ e ∈ fs', f.size ≤ e.size
  elsewhere : Elsewhere (fun a => CoversAny fs a ∨ Covers f a) s s'

/-- What `slob_free` is told, or has been told before, about the length of the block. -/
def Sized (s : Slob) (f : Extent) (size : Nat) : Prop :=
  if size ≠ 0 then SLOB_UNITS size = f.size else s.units f.base = f.size

/-- The first statement of `slob_free`. -/
theorem sized_of (h : FreeList s fs) (hne : ∀ e ∈ fs, e.base ≠ f.base) (hf : Sized s f size) :
    ∃ s', recordSize f.base size s = .ok (.ok (), s') ∧ FreeList s' fs ∧
      s'.units f.base = f.size ∧ Elsewhere (fun a => a = f.base) s s' := by
  rw [Sized] at hf
  rcases Decidable.em (size ≠ 0) with hsize | hsize
  · rw [if_pos hsize] at hf
    refine ⟨{ s with units := Function.update s.units f.base (SLOB_UNITS size) }, ?_,
      ⟨h.links, fun e he => update_units_of_ne h.units hne he, h.ordered, h.pos, h.slobfree⟩, ?_,
      fun a ha => Function.update_of_ne ha _ _, fun _ _ => rfl, rfl, rfl, rfl, rfl⟩
    · rw [recordSize, if_pos hsize]
      rfl
    · rw [← hf]
      exact Function.update_self _ _ _
  · rw [if_neg hsize] at hf
    refine ⟨s, ?_, h, hf, fun _ _ => rfl, fun _ _ => rfl, rfl, rfl, rfl, rfl⟩
    rw [recordSize, if_neg hsize]
    rfl

theorem slobFree_of (h : FreeList s fs) (hfirst : fs.head? = some ⟨arena, 1⟩)
    (habove : arena + 1 < f.base) (hpos : 0 < f.size) (hapart : ∀ e ∈ fs, Apart e f)
    (hf : Sized s f size) :
    ∃ s' fs', Returns (fun fuel => slobFree fuel f.base size) s () s' ∧ PutBack s fs f s' fs' := by
  have hne : ∀ e ∈ fs, e.base ≠ f.base := by
    intro e he heq
    have hcovers : Covers f e.base := heq ▸ covers_base hpos
    exact (hapart e he).not_covers (covers_base (h.pos e he)) hcovers
  obtain ⟨s₁, hsized, hlist, hunits, helse₁⟩ := sized_of h hne hf
  obtain ⟨as, c, bs, rfl, hsearch, hpoint⟩ :=
    reinserts hlist hfirst (show arena < f.base by omega) hne
  obtain ⟨s₂, g, cs, hright, hpending, hbase, hroom, hhead, hcovers₂, helse₂⟩ :=
    mergeRight_of hlist hpoint hfirst (show arena ≤ f.base by omega) hpos hunits hapart
  rw [← hbase] at habove
  obtain ⟨s₃, fs', hleft, hlist₃, hfirst₃, ⟨e, he, hle⟩, hcovers₃, helse₃⟩ :=
    mergeLeft_of hpending (hhead.trans hfirst) habove
  refine ⟨s₃, fs', ?_, hlist₃, hfirst₃.trans hfirst.symm,
    fun u => (hcovers₃ u).trans (hcovers₂ u), ⟨e, he, hroom.trans hle⟩, ?_⟩
  · have hafter : Returns (fun fuel => do
        let cur ← reinsertionPoint f.base fuel s₁.slobfree
        mergeRight f.base cur
        mergeLeft f.base cur
        setSlobfree cur) s₁ () s₃ := by
      refine Returns.bind hsearch (Returns.of_eq fun _ => ?_)
      rw [bind_of_ok hright]
      rw [hbase] at hleft
      exact hleft
    refine Returns.congr (fun fuel => ?_) hafter
    show slobFree fuel f.base size s = _
    rw [slobFree, if_neg (by omega), bind_of_ok hsized]
    rfl
  · have hc : CoversAny (as ++ c :: bs) c.base :=
      ⟨c, by simp, covers_base (h.pos c (by simp))⟩
    have hsub : ∀ a, ¬(CoversAny (as ++ c :: bs) a ∨ Covers f a) → a ≠ f.base ∧ a ≠ c.base := by
      intro a ha
      constructor
      · rintro rfl
        exact ha (Or.inr (covers_base hpos))
      · rintro rfl
        exact ha (Or.inl hc)
    have hall₁ := helse₁.mono fun a ha => (hsub a ha).1
    have hall₂ := helse₂.mono fun a ha => (hsub a ha).1
    exact (hall₁.trans hall₂).trans (helse₃.mono fun a ha => (hsub a ha).2)

end Freeing

end Ucore.KmallocLists
