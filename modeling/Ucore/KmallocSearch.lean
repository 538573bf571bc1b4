import Ucore.KmallocLists

/-! How `slob_alloc` finds a block, and what it takes out of the list. -/

namespace Ucore.KmallocSearch

open Ucore.KernelRoutine
open Ucore.DefaultPmm (PGSIZE)
open Ucore.Extents
open Ucore.ExtentLists
open Ucore.Kmalloc
open Ucore.Returning
open Ucore.KmallocLists

variable {s s' : Slob} {fs as bs : List Extent} {c e f p q : Extent} {a arena n size units : Nat}

section Taking

/-- The units of `f` have been taken out of the list. -/
structure TakenOut (s : Slob) (fs : List Extent) (f : Extent) (s' : Slob) (fs' : List Extent) :
    Prop where
  list : FreeList s' fs'
  first : fs'.head? = fs.head?
  covers : ∀ u, CoversAny fs u ↔ CoversAny fs' u ∨ Covers f u
  apart : ∀ e ∈ fs', Apart e f
  units : s'.units f.base = f.size
  elsewhere : Elsewhere (CoversAny fs) s s'

theorem apart_of_others (h : (as ++ c :: bs).Pairwise Before) (he : e ∈ as ++ bs) :
    Apart e c := by
  obtain ⟨_, hafter, hcross⟩ := List.pairwise_append.mp h
  rcases List.mem_append.mp he with he | he
  · exact Or.inl (hcross e he c List.mem_cons_self)
  · exact Or.inr ((List.pairwise_cons.mp hafter).1 e he)

theorem mem_of_others (he : e ∈ as ++ p :: bs) : e ∈ as ++ p :: c :: bs := by
  simp only [List.mem_append, List.mem_cons] at he ⊢
  tauto

/-- The block is as long as what is asked for. -/
theorem takeUnits_exact (h : FreeList s (as ++ p :: c :: bs)) :
    ∃ s', takeUnits c.size p.base c.base s = .ok (.ok (), s') ∧
      TakenOut s (as ++ p :: c :: bs) c { s' with slobfree := p.base } (as ++ p :: bs) := by
  have hc : s.units c.base = c.size := h.units c (by simp)
  have hnodup := h.nodup
  have hlinks := h.links
  have hordered := h.ordered
  have hp : CoversAny (as ++ p :: c :: bs) p.base :=
    ⟨p, by simp, covers_base (h.pos p (by simp))⟩
  have hsame : (as ++ [p]) ++ c :: bs = as ++ p :: c :: bs := after_concat
  refine ⟨{ s with next := Function.update s.next p.base (s.next c.base) }, ?_,
    ⟨?_, fun e he => h.units e (mem_of_others he), ?_, fun e he => h.pos e (mem_of_others he), by simp⟩, ?_,
    fun u => ?_, fun e he => ?_, hc, fun _ _ => rfl, fun a ha => Function.update_of_ne ?_ _ _,
    rfl, rfl, rfl, rfl⟩
  · rw [takeUnits, getState_bind, hc, if_pos rfl]
    rfl
  · simp only [List.map_append, List.map_cons] at hlinks hnodup ⊢
    exact hlinks.remove hnodup
  · rw [← hsame] at hordered
    have hrest := hordered.sublist (List.Sublist.append_left (List.sublist_cons_self c bs) _)
    rwa [List.append_assoc] at hrest
  · cases as <;> rfl
  · simp only [coversAny_append, coversAny_cons]
    tauto
  · rw [← hsame] at hordered
    exact apart_of_others hordered (by simpa using he)
  · rintro rfl
    exact ha hp

/-- The rest of the block stays in the list. -/
theorem takeUnits_fragment (h : FreeList s (as ++ p :: c :: bs)) (hn : 0 < n) (hlt : n < c.size) :
    ∃ s', takeUnits n p.base c.base s = .ok (.ok (), s') ∧
      TakenOut s (as ++ p :: c :: bs) ⟨c.base, n⟩ { s' with slobfree := p.base }
        (as ++ p :: ⟨c.base + n, c.size - n⟩ :: bs) := by
  have hc : s.units c.base = c.size := h.units c (by simp)
  have hnodup := h.nodup
  have hlinks := h.links
  have hordered := h.ordered
  have hsame : ∀ c', (as ++ [p]) ++ c' :: bs = as ++ p :: c' :: bs := fun _ => after_concat
  have hcovers : ∀ u, Covers c u ↔ Covers ⟨c.base, n⟩ u ∨ Covers ⟨c.base + n, c.size - n⟩ u := by
    intro u
    have hjoin := covers_join (b := c.base) (n := n) (m := c.size - n) (u := u)
    rwa [Nat.add_sub_cancel' hlt.le] at hjoin
  have hothers : ∀ e ∈ as ++ p :: bs, e.base ≠ c.base ∧ e.base ≠ c.base + n := by
    intro e he
    rw [← hsame] at hordered
    have hapart : Apart e c := apart_of_others hordered (by simpa using he)
    have hout := hapart.not_covers (covers_base (h.pos e (mem_of_others he)))
    constructor
    · intro heq
      exact hout (heq ▸ covers_base (by omega))
    · intro heq
      exact hout ⟨by omega, by omega⟩
  have hrest : (as ++ p :: ⟨c.base + n, c.size - n⟩ :: bs).Pairwise Before := by
    rw [← hsame] at hordered ⊢
    exact ordered_drop hordered hlt.le
  have hunits : ∀ e ∈ as ++ p :: bs, Function.update (Function.update s.units (c.base + n)
      (c.size - n)) c.base n e.base = e.size := by
    intro e he
    rw [Function.update_of_ne (hothers e he).1, Function.update_of_ne (hothers e he).2]
    exact h.units e (mem_of_others he)
  have hmem : ∀ e, e ∈ as ++ p :: ⟨c.base + n, c.size - n⟩ :: bs →
      e = ⟨c.base + n, c.size - n⟩ ∨ e ∈ as ++ p :: bs := by
    intro e he
    simp only [List.mem_append, List.mem_cons] at he ⊢
    tauto
  have hwritten : ∀ a, ¬CoversAny (as ++ p :: c :: bs) a →
      a ≠ p.base ∧ a ≠ c.base ∧ a ≠ c.base + n := by
    intro a ha
    refine ⟨?_, ?_, ?_⟩
    · rintro rfl
      exact ha ⟨p, by simp, covers_base (h.pos p (by simp))⟩
    · rintro rfl
      exact ha ⟨c, by simp, covers_base (by omega)⟩
    · rintro rfl
      exact ha ⟨c, by simp, by omega, by omega⟩
  have hpc : c.base ≠ p.base := fun heq => (hothers p (by simp)).1 heq.symm
  have hpn : c.base + n ≠ p.base := fun heq => (hothers p (by simp)).2 heq.symm
  refine ⟨{ s with
      units := Function.update (Function.update s.units (c.base + n) (c.size - n)) c.base n
      next := Function.update (Function.update s.next p.base (c.base + n)) (c.base + n)
        (s.next c.base) }, ?_, ⟨?_, fun e he => ?_, hrest, fun e he => ?_, by simp⟩, ?_,
    fun u => ?_, fun e he => ?_, Function.update_self _ _ _, fun a ha => ?_, fun a ha => ?_,
    rfl, rfl, rfl, rfl⟩
  · rw [takeUnits, getState_bind, hc, if_neg (by omega)]
    have hnext : Function.update s.next p.base (c.base + n) c.base = s.next c.base :=
      Function.update_of_ne hpc _ _
    rw [← hnext]
    rfl
  · have hd : c.base + n ∉ (as ++ p :: c :: bs).map Extent.base := by
      intro hmem
      obtain ⟨e, he, hbase⟩ := List.mem_map.mp hmem
      simp only [List.mem_append, List.mem_cons] at he
      rcases he with he | rfl | rfl | he
      · exact (hothers e (by simp [he])).2 hbase
      · exact hpn hbase.symm
      · omega
      · exact (hothers e (by simp [he])).2 hbase
    simp only [List.map_append, List.map_cons] at hlinks hnodup hd ⊢
    rw [Function.update_comm hpn.symm]
    exact hlinks.replace hnodup hd
  · rcases hmem e he with rfl | he
    · have hne : c.base + n ≠ c.base := by omega
      exact (Function.update_of_ne hne _ _).trans (Function.update_self _ _ _)
    · exact hunits e he
  · rcases hmem e he with rfl | he
    · exact Nat.sub_pos_of_lt hlt
    · exact h.pos e (mem_of_others he)
  · cases as <;> rfl
  · simp only [coversAny_append, coversAny_cons, hcovers]
    tauto
  · rcases hmem e he with rfl | he
    · exact Or.inr le_rfl
    · rw [← hsame] at hordered
      have hapart : Apart e c := apart_of_others hordered (by simpa using he)
      simp only [Apart, Before] at hapart ⊢
      omega
  · obtain ⟨_, hac, han⟩ := hwritten a ha
    exact (Function.update_of_ne hac _ _).trans (Function.update_of_ne han _ _)
  · obtain ⟨hap, _, han⟩ := hwritten a ha
    exact (Function.update_of_ne han _ _).trans (Function.update_of_ne hap _ _)

theorem takeUnits_of (h : FreeList s (as ++ p :: c :: bs)) (hn : 0 < n) (hle : n ≤ c.size) :
    ∃ s' fs', takeUnits n p.base c.base s = .ok (.ok (), s') ∧
      TakenOut s (as ++ p :: c :: bs) ⟨c.base, n⟩ { s' with slobfree := p.base } fs' := by
  rcases Nat.lt_or_eq_of_le hle with hlt | rfl
  · obtain ⟨s', hrun, htaken⟩ := takeUnits_fragment h hn hlt
    exact ⟨s', _, hrun, htaken⟩
  · obtain ⟨s', hrun, htaken⟩ := takeUnits_exact h
    exact ⟨s', _, hrun, htaken⟩

end Taking

section Searching

/-- `slob_alloc` when it has gone round the list: it adds a page and goes on. -/
def refill (size units fuel : Nat) : Routine Slob Nat := do
  let page ← slobGetFreePages 0
  if page = 0 then
    return 0
  else
    slobFree fuel page PGSIZE
    let s ← getState
    slobAllocLoop size units fuel s.slobfree (s.next s.slobfree)

/-- The block after another in the list, unless it is the first one. -/
theorem follows (h : FreeList s fs) (hfirst : fs.head? = some f) (hp : p ∈ fs)
    (hne : s.next p.base ≠ f.base) :
    ∃ as e bs, fs = as ++ p :: e :: bs ∧ s.next p.base = e.base := by
  obtain ⟨as, bs, rfl⟩ := List.append_of_mem hp
  cases bs with
  | nil => exact absurd (h.next_last hfirst) hne
  | cons e bs => exact ⟨as, e, bs, rfl, h.next_mem⟩

/-- What the search comes to from the block `p` on. -/
def Found (s : Slob) (fs : List Extent) (units size : Nat) (prev : Nat) : Prop :=
  ∃ s' fs' c,
    Returns (fun fuel => slobAllocLoop size units fuel prev (s.next prev)) s c s' ∧
      TakenOut s fs ⟨c, units⟩ s' fs'

theorem found_of (h : FreeList s fs) (hfirst : fs.head? = some ⟨arena, 1⟩) (hunits : 2 ≤ units)
    (hp : p ∈ fs) (hroom : units ≤ s.units (s.next p.base)) : Found s fs units size p.base := by
  have hne : s.next p.base ≠ arena := by
    intro heq
    have harena := h.units _ (List.mem_of_mem_head? hfirst)
    rw [heq] at hroom
    change s.units arena = 1 at harena
    omega
  obtain ⟨as, e, bs, rfl, hnext⟩ := follows h hfirst hp hne
  have he : s.units e.base = e.size := h.units e (by simp)
  rw [hnext, he] at hroom
  obtain ⟨s', fs', hrun, htaken⟩ := takeUnits_of h (by omega : 0 < units) hroom
  refine ⟨_, fs', e.base, Returns.turn (y := fun _ => pure e.base) (fun fuel => ?_)
    (Returns.of_eq fun _ => rfl), htaken⟩
  rw [hnext, slobAllocLoop, getState_bind, he, if_pos hroom, bind_of_ok hrun]
  rfl

/-- Either a block is found, or no block left is long enough and a page is asked for. -/
theorem searches (h : FreeList s fs) (hfirst : fs.head? = some ⟨arena, 1⟩) (hunits : 2 ≤ units)
    (hsize : size ≠ PGSIZE) {todo : List Extent}
    (hchain : ((p :: (todo ++ [q])).map Extent.base).IsChain fun a b => s.next a = b)
    (hp : p ∈ fs) (hq : q ∈ fs) (hslobfree : s.slobfree = q.base)
    (htodo : ∀ e ∈ todo, e ∈ fs ∧ e.base ≠ s.slobfree) :
    Found s fs units size p.base ∨ (∀ e ∈ todo ++ [q], e.size < units) ∧
      ∀ a s', Returns (refill size units) s a s' →
        Returns (fun fuel => slobAllocLoop size units fuel p.base (s.next p.base)) s a s' := by
  induction todo generalizing p with
  | nil =>
      have hnext : s.next p.base = q.base := (List.isChain_cons_cons.mp hchain).1
      rcases Nat.lt_or_ge (s.units (s.next p.base)) units with hsmall | hroom
      · right
        have hlt : q.size < units := by
          rw [hnext, h.units q hq] at hsmall
          exact hsmall
        refine ⟨by simpa using hlt, fun a s' hrefill => Returns.turn (fun fuel => ?_) hrefill⟩
        rw [slobAllocLoop, getState_bind, if_neg (by omega), if_pos (hnext.trans hslobfree.symm),
          if_neg hsize]
        rfl
      · exact Or.inl (found_of h hfirst hunits hp hroom)
  | cons e todo ih =>
      obtain ⟨hnext, hrest⟩ := List.isChain_cons_cons.mp hchain
      obtain ⟨he, hne⟩ := htodo e List.mem_cons_self
      change s.next p.base = e.base at hnext
      rcases Nat.lt_or_ge (s.units (s.next p.base)) units with hsmall | hroom
      · have hgoes : ∀ fuel, slobAllocLoop size units (fuel + 1) p.base (s.next p.base) s =
            slobAllocLoop size units fuel e.base (s.next e.base) s := by
          intro fuel
          rw [slobAllocLoop, getState_bind, if_neg (by omega), if_neg (hnext ▸ hne), hnext]
        have hlt : e.size < units := by
          rw [hnext, h.units e he] at hsmall
          exact hsmall
        rcases ih hrest he fun g hg => htodo g (List.mem_cons_of_mem _ hg) with
          ⟨s', fs', c, hruns, htaken⟩ | ⟨hothers, hrefill⟩
        · exact Or.inl ⟨s', fs', c, Returns.turn hgoes hruns, htaken⟩
        · refine Or.inr ⟨?_, fun a s' hruns => Returns.turn hgoes (hrefill a s' hruns)⟩
          intro g hg
          rcases List.mem_cons.mp hg with rfl | hg
          · exact hlt
          · exact hothers g hg
      · exact Or.inl (found_of h hfirst hunits hp hroom)

/-- The whole search goes once round the list. -/
theorem search_of (h : FreeList s fs) (hfirst : fs.head? = some ⟨arena, 1⟩) (hunits : 2 ≤ units)
    (hsize : size ≠ PGSIZE) :
    Found s fs units size s.slobfree ∨ (∀ e ∈ fs, e.size < units) ∧
      ∀ a s', Returns (refill size units) s a s' →
        Returns (fun fuel => slobAllocLoop size units fuel s.slobfree (s.next s.slobfree)) s a s' := by
  obtain ⟨p, hp, hbase⟩ := List.mem_map.mp h.slobfree
  obtain ⟨as, bs, rfl⟩ := List.append_of_mem hp
  have hnodup := h.nodup
  have hlinks := h.links
  rw [List.map_append, List.map_cons] at hlinks hnodup
  have hout : p.base ∉ (bs ++ as).map Extent.base := by
    have hrotated := List.perm_append_comm.nodup_iff.mp hnodup
    rw [List.map_append]
    exact (List.nodup_cons.mp hrotated).1
  have hchain : ((p :: ((bs ++ as) ++ [p])).map Extent.base).IsChain fun a b => s.next a = b := by
    have haround := hlinks.around
    simpa only [List.map_append, List.map_cons, List.map_nil] using haround
  have hsearch := @searches _ _ _ _ _ size _ h hfirst hunits hsize _ hchain hp hp hbase.symm fun e he => by
    refine ⟨?_, fun heq => hout ?_⟩
    · simp only [List.mem_append, List.mem_cons] at he ⊢
      tauto
    · rw [hbase, ← heq]
      exact List.mem_map_of_mem he
  rw [hbase] at hsearch
  refine hsearch.imp_right fun ⟨hall, hrefill⟩ => ⟨fun e he => hall e ?_, hrefill⟩
  simp only [List.mem_append, List.mem_cons, List.not_mem_nil, or_false] at he ⊢
  tauto

end Searching

end Ucore.KmallocSearch
