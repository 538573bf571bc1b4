import Mathlib.Data.Finset.Card
import Mathlib.Order.Interval.Finset.Nat
import Ucore.Extents

/-! Lists of extents that lie apart: what they cover, and how two of them are joined. -/

namespace Ucore.ExtentLists

open Ucore.Extents

def CoversAny (es : List Extent) (u : Nat) : Prop :=
  ∃ e ∈ es, Covers e u

variable {as bs es fs : List Extent} {c e f : Extent} {b m n u : Nat}

@[simp] theorem coversAny_nil : ¬CoversAny [] u := by
  simp [CoversAny]

@[simp] theorem coversAny_cons : CoversAny (e :: es) u ↔ Covers e u ∨ CoversAny es u := by
  simp [CoversAny]

@[simp] theorem coversAny_append : CoversAny (as ++ bs) u ↔ CoversAny as u ∨ CoversAny bs u := by
  simp only [CoversAny, List.mem_append, or_and_right, exists_or]

theorem covers_join : Covers ⟨b, n + m⟩ u ↔ Covers ⟨b, n⟩ u ∨ Covers ⟨b + n, m⟩ u := by
  simp only [Covers]
  omega

theorem before_trans (h : Before e c) (h' : Before c f) : Before e f := by
  simp only [Before] at h h' ⊢
  omega

theorem before_of_apart (h : Apart e f) (hlt : e.base < f.base) : Before e f := by
  simp only [Apart, Before] at h ⊢
  omega

theorem bases_ascend (h : es.Pairwise Before) (hpos : ∀ e ∈ es, 0 < e.size) :
    (es.map Extent.base).Pairwise (· < ·) := by
  rw [List.pairwise_map]
  exact h.imp_of_mem fun ha _ hab => hab.base_lt (hpos _ ha)

theorem bases_nodup (h : es.Pairwise Before) (hpos : ∀ e ∈ es, 0 < e.size) :
    (es.map Extent.base).Nodup :=
  (bases_ascend h hpos).imp fun hab => hab.ne

/-- An extent is put in where it belongs. -/
theorem ordered_insert (h : (as ++ c :: bs).Pairwise Before) (hc : Before c f)
    (hf : ∀ e ∈ bs, Before f e) : (as ++ c :: f :: bs).Pairwise Before := by
  rw [List.pairwise_append, List.pairwise_cons] at h ⊢
  obtain ⟨has, ⟨hcs, hbs⟩, hcross⟩ := h
  refine ⟨has, ⟨?_, List.pairwise_cons.mpr ⟨hf, hbs⟩⟩, ?_⟩
  · intro e he
    rcases List.mem_cons.mp he with rfl | he
    · exact hc
    · exact hcs e he
  · intro a ha e he
    have hac : Before a c := hcross a ha c List.mem_cons_self
    rcases List.mem_cons.mp he with rfl | he
    · exact hac
    · rcases List.mem_cons.mp he with rfl | he
      · exact before_trans hac hc
      · exact hcross a ha e (List.mem_cons_of_mem _ he)

/-- Two extents, one at the end of the other, become one. -/
theorem ordered_join (h : (as ++ ⟨b, n⟩ :: ⟨b + n, m⟩ :: bs).Pairwise Before) :
    (as ++ ⟨b, n + m⟩ :: bs).Pairwise Before := by
  rw [List.pairwise_append, List.pairwise_cons] at h ⊢
  obtain ⟨has, ⟨_, hbs⟩, hcross⟩ := h
  obtain ⟨hafter, hbs⟩ := List.pairwise_cons.mp hbs
  refine ⟨has, ⟨fun e he => ?_, hbs⟩, fun a ha e he => ?_⟩
  · have hlast := hafter e he
    simp only [Before] at hlast ⊢
    omega
  · rcases List.mem_cons.mp he with rfl | he
    · exact hcross a ha ⟨b, n⟩ List.mem_cons_self
    · exact hcross a ha e (List.mem_cons_of_mem _ (List.mem_cons_of_mem _ he))

/-- The first numbers of an extent are taken away. -/
theorem ordered_drop (h : (as ++ ⟨b, m⟩ :: bs).Pairwise Before) (hn : n ≤ m) :
    (as ++ ⟨b + n, m - n⟩ :: bs).Pairwise Before := by
  rw [List.pairwise_append, List.pairwise_cons] at h ⊢
  obtain ⟨has, ⟨hafter, hbs⟩, hcross⟩ := h
  refine ⟨has, ⟨fun e he => ?_, hbs⟩, fun a ha e he => ?_⟩
  · have hlast := hafter e he
    simp only [Before] at hlast ⊢
    omega
  · rcases List.mem_cons.mp he with rfl | he
    · have hfirst := hcross a ha ⟨b, m⟩ List.mem_cons_self
      simp only [Before] at hfirst ⊢
      omega
    · exact hcross a ha e (List.mem_cons_of_mem _ he)

/-- Ordered extents stay apart from others when they cover nothing of these. -/
theorem apart_append (hes : es.Pairwise Before) (hfs : fs.Pairwise Apart)
    (hpos : ∀ e ∈ es ++ fs, 0 < e.size)
    (hcross : ∀ u, CoversAny es u → ¬CoversAny fs u) : (es ++ fs).Pairwise Apart := by
  rw [List.pairwise_append]
  refine ⟨hes.imp Or.inl, hfs, fun e he f hf => ?_⟩
  refine apart_of_not_covers (hpos e (List.mem_append_left _ he))
    (hpos f (List.mem_append_right _ hf)) fun u hu hu' => ?_
  exact hcross u ⟨e, he, hu⟩ ⟨f, hf, hu'⟩

/-- Extents that lie apart have as many numbers as they cover. -/
theorem card_covered {cover : Finset Nat} (h : es.Pairwise Apart)
    (hcover : ∀ u, u ∈ cover ↔ CoversAny es u) : cover.card = (es.map Extent.size).sum := by
  induction es generalizing cover with
  | nil =>
      have hempty : cover = ∅ := by
        apply Finset.eq_empty_of_forall_notMem
        intro u hu
        exact coversAny_nil ((hcover u).mp hu)
      rw [hempty]
      rfl
  | cons e es ih =>
      obtain ⟨hfirst, hrest⟩ := List.pairwise_cons.mp h
      have hmem : ∀ u, u ∈ Finset.Ico e.base (e.base + e.size) ↔ Covers e u :=
        fun u => Finset.mem_Ico
      have hsub : Finset.Ico e.base (e.base + e.size) ⊆ cover := by
        intro u hu
        exact (hcover u).mpr (coversAny_cons.mpr (Or.inl ((hmem u).mp hu)))
      have hothers : ∀ u, u ∈ cover \ Finset.Ico e.base (e.base + e.size) ↔ CoversAny es u := by
        intro u
        rw [Finset.mem_sdiff, hcover, hmem, coversAny_cons]
        constructor
        · rintro ⟨hor, hnot⟩
          exact hor.resolve_left hnot
        · rintro ⟨f, hf, hu⟩
          exact ⟨Or.inr ⟨f, hf, hu⟩, (hfirst f hf).symm.not_covers hu⟩
      have hcard := ih hrest hothers
      rw [Finset.card_sdiff_of_subset hsub, Nat.card_Ico] at hcard
      have hle := Finset.card_le_card hsub
      rw [Nat.card_Ico] at hle
      rw [List.map_cons, List.sum_cons]
      omega

/-- One extent ends where the other begins. -/
def Touches (e f : Extent) : Prop :=
  e.base + e.size = f.base ∨ f.base + f.size = e.base

/-- No extent of an ordered list begins where an earlier one ends. -/
def NoneTouch (es : List Extent) : Prop :=
  es.Pairwise fun e f => e.base + e.size ≠ f.base

theorem NoneTouch.not_touches (h : NoneTouch es) (hord : es.Pairwise Before)
    (hpos : ∀ e ∈ es, 0 < e.size) (he : e ∈ es) (hf : f ∈ es) : ¬Touches e f := by
  have hpair : es.Pairwise fun a b => ¬Touches a b := by
    refine (h.and hord).imp_of_mem ?_
    rintro a b ha hb ⟨hab, hbefore⟩ (heq | heq)
    · exact hab heq
    · have hapos := hpos a ha
      have hbpos := hpos b hb
      simp only [Before] at hbefore
      omega
  have hsymm : Std.Symm fun a b => ¬Touches a b := ⟨fun a b hab ht => hab (Or.symm ht)⟩
  refine List.Pairwise.forall_of_forall ?_ hpair he hf
  rintro a ha (heq | heq)
  · have hapos := hpos a ha
    omega
  · have hapos := hpos a ha
    omega

/-- Nothing comes to touch an extent whose first numbers are taken away. -/
theorem noneTouch_drop (h : NoneTouch (as ++ e :: bs)) (hord : (as ++ e :: bs).Pairwise Before)
    (hn : 0 < n) (hle : n ≤ e.size) : NoneTouch (as ++ ⟨e.base + n, e.size - n⟩ :: bs) := by
  obtain ⟨has, hbs, hcross⟩ := List.pairwise_append.mp h
  obtain ⟨hlast, hbs⟩ := List.pairwise_cons.mp hbs
  refine List.pairwise_append.mpr ⟨has, List.pairwise_cons.mpr ⟨?_, hbs⟩, ?_⟩
  · intro b hb
    have hend := hlast b hb
    simp only
    omega
  · intro a ha b hb
    rcases List.mem_cons.mp hb with rfl | hb
    · have hbefore := (List.pairwise_append.mp hord).2.2 a ha e List.mem_cons_self
      simp only [Before] at hbefore
      simp only
      omega
    · exact hcross a ha b (List.mem_cons_of_mem _ hb)

/-- `j` begins where the extent below `e` that touches it does; `as'` are the
extents below `e` that are left. -/
def JoinsLower (as : List Extent) (e : Extent) (as' : List Extent) (j : Extent) : Prop :=
  (as' = as ∧ j.base = e.base ∧ ∀ a ∈ as, a.base + a.size ≠ e.base) ∨
    ∃ a, as = as' ++ [a] ∧ a.base + a.size = e.base ∧ j.base = a.base

/-- `j` ends where the extent above `e` that touches it does. -/
def JoinsUpper (e : Extent) (bs : List Extent) (j : Extent) (bs' : List Extent) : Prop :=
  (bs' = bs ∧ j.base + j.size = e.base + e.size ∧ ∀ b ∈ bs, e.base + e.size ≠ b.base) ∨
    ∃ b, bs = b :: bs' ∧ e.base + e.size = b.base ∧ j.base + j.size = b.base + b.size

section Joining

variable {as' bs' : List Extent} {j : Extent}

theorem JoinsLower.base_le (h : JoinsLower as e as' j) : j.base ≤ e.base := by
  rcases h with ⟨_, hbase, _⟩ | ⟨a, _, hend, hbase⟩
  · omega
  · omega

theorem JoinsUpper.le_end (h : JoinsUpper e bs j bs') :
    e.base + e.size ≤ j.base + j.size := by
  rcases h with ⟨_, hend, _⟩ | ⟨b, _, hbase, hend⟩
  · omega
  · omega

theorem JoinsLower.congr {k : Extent} (h : JoinsLower as e as' j) (hbase : k.base = j.base) :
    JoinsLower as e as' k := by
  rcases h with ⟨has, hj, hnone⟩ | ⟨a, has, hend, hj⟩
  · exact .inl ⟨has, hbase.trans hj, hnone⟩
  · exact .inr ⟨a, has, hend, hbase.trans hj⟩

theorem JoinsUpper.congr (h : JoinsUpper e bs j bs')
    (hend : e.base + e.size = f.base + f.size) : JoinsUpper f bs j bs' := by
  rcases h with ⟨hbs, hj, hnone⟩ | ⟨b, hbs, hfirst, hj⟩
  · exact .inl ⟨hbs, hj.trans hend, fun b hb => hend ▸ hnone b hb⟩
  · exact .inr ⟨b, hbs, hend ▸ hfirst, hj⟩

theorem covers_of_joins (hlow : JoinsLower as e as' j) (hup : JoinsUpper e bs j bs')
    (hu : Covers e u) : Covers j u :=
  ⟨le_trans hlow.base_le hu.1, lt_of_lt_of_le hu.2 hup.le_end⟩

/-- Joining changes nothing in what the list covers. -/
theorem coversAny_joined (hlow : JoinsLower as e as' j) (hup : JoinsUpper e bs j bs') :
    CoversAny (as' ++ j :: bs') u ↔ CoversAny (as ++ e :: bs) u := by
  have hlower : CoversAny as' u ∨ (j.base ≤ u ∧ u < e.base + e.size) ↔
      CoversAny as u ∨ Covers e u := by
    rcases hlow with ⟨rfl, hbase, _⟩ | ⟨a, rfl, hend, hbase⟩
    · rw [hbase, Covers]
    · have hjoin : (j.base ≤ u ∧ u < e.base + e.size) ↔ Covers a u ∨ Covers e u := by
        simp only [Covers]
        omega
      simp [hjoin, or_assoc]
  have hupper : CoversAny bs' u ∨ (e.base + e.size ≤ u ∧ u < j.base + j.size) ↔
      CoversAny bs u := by
    rcases hup with ⟨rfl, hlast, _⟩ | ⟨b, rfl, hfirst, hlast⟩
    · simp only [or_iff_left_iff_imp]
      omega
    · have hjoin : (e.base + e.size ≤ u ∧ u < j.base + j.size) ↔ Covers b u := by
        simp only [Covers]
        omega
      rw [hjoin, coversAny_cons, or_comm]
  have hcut : Covers j u ↔ (j.base ≤ u ∧ u < e.base + e.size) ∨
      (e.base + e.size ≤ u ∧ u < j.base + j.size) := by
    have hbase := hlow.base_le
    have hlast := hup.le_end
    simp only [Covers]
    omega
  simp only [coversAny_append, coversAny_cons]
  rw [hcut, ← hupper]
  grind

/-- Only the last extent below `e` can end where `e` begins. -/
theorem JoinsLower.eq_last (h : JoinsLower as e as' j) (hord : as.Pairwise Before)
    (hbelow : ∀ a ∈ as, Before a e) (hpos : ∀ a ∈ as, 0 < a.size) (hf : f ∈ as)
    (hend : f.base + f.size = e.base) : as = as' ++ [f] ∧ j.base = f.base := by
  rcases h with ⟨_, _, hnone⟩ | ⟨a, rfl, haend, hjbase⟩
  · exact absurd hend (hnone f hf)
  · rcases List.mem_append.mp hf with hf' | hf'
    · have hfa : Before f a :=
        (List.pairwise_append.mp hord).2.2 f hf' a List.mem_cons_self
      have hapos := hpos a (by simp)
      simp only [Before] at hfa
      omega
    · obtain rfl := List.mem_singleton.mp hf'
      exact ⟨rfl, hjbase⟩

/-- Only the first extent above `e` can begin where `e` ends. -/
theorem JoinsUpper.eq_first (h : JoinsUpper e bs j bs') (hord : bs.Pairwise Before)
    (habove : ∀ b ∈ bs, Before e b) (hpos : ∀ b ∈ bs, 0 < b.size) (hf : f ∈ bs)
    (hend : e.base + e.size = f.base) :
    bs = f :: bs' ∧ j.base + j.size = f.base + f.size := by
  rcases h with ⟨_, _, hnone⟩ | ⟨b, rfl, hfirst, hlast⟩
  · exact absurd hend (hnone f hf)
  · rcases List.mem_cons.mp hf with rfl | hf'
    · exact ⟨rfl, hlast⟩
    · have hbf : Before b f := (List.pairwise_cons.mp hord).1 f hf'
      have hbpos := hpos b List.mem_cons_self
      simp only [Before] at hbf
      omega

theorem JoinsLower.sublist (h : JoinsLower as e as' j) : as'.Sublist as := by
  rcases h with ⟨rfl, _⟩ | ⟨a, rfl, _⟩
  · exact List.Sublist.refl as'
  · exact List.sublist_append_left as' [a]

theorem JoinsUpper.sublist (h : JoinsUpper e bs j bs') : bs'.Sublist bs := by
  rcases h with ⟨rfl, _⟩ | ⟨b, rfl, _⟩
  · exact List.Sublist.refl bs'
  · exact List.sublist_cons_self b bs'

/-- Joining an extent with its neighbours leaves no two extents that touch. -/
theorem noneTouch_joined (hlow : JoinsLower as e as' j) (hup : JoinsUpper e bs j bs')
    (h : NoneTouch (as ++ bs)) : NoneTouch (as' ++ j :: bs') := by
  obtain ⟨has, hbs, hcross⟩ := List.pairwise_append.mp h
  refine List.pairwise_append.mpr ⟨has.sublist hlow.sublist,
    List.pairwise_cons.mpr ⟨?_, hbs.sublist hup.sublist⟩, ?_⟩
  · intro b hb
    rcases hup with ⟨rfl, hlast, hnone⟩ | ⟨c, rfl, _, hlast⟩
    · rw [hlast]
      exact hnone b hb
    · rw [hlast]
      exact (List.pairwise_cons.mp hbs).1 b hb
  · intro a ha b hb
    rcases List.mem_cons.mp hb with rfl | hb
    · rcases hlow with ⟨rfl, hbase, hnone⟩ | ⟨c, rfl, _, hbase⟩
      · rw [hbase]
        exact hnone a ha
      · rw [hbase]
        exact (List.pairwise_append.mp has).2.2 a ha c List.mem_cons_self
    · exact hcross a (hlow.sublist.subset ha) b (hup.sublist.subset hb)

section Neighbours

variable (hlow : JoinsLower as e as' j) (hup : JoinsUpper e bs j bs')
  (hord : (as ++ e :: bs).Pairwise Before) (hpos : ∀ f ∈ as ++ e :: bs, 0 < f.size)

include hord hpos in
theorem touches_cases (hf : f ∈ as ++ bs) (ht : Touches f e) :
    (f ∈ as ∧ f.base + f.size = e.base) ∨ (f ∈ bs ∧ e.base + e.size = f.base) := by
  rw [List.pairwise_append, List.pairwise_cons] at hord
  obtain ⟨_, ⟨habove, _⟩, hbelow⟩ := hord
  have hepos := hpos e (by simp)
  rcases List.mem_append.mp hf with hf | hf
  · have hbefore := hbelow f hf e List.mem_cons_self
    have hfpos := hpos f (List.mem_append_left _ hf)
    rcases ht with ht | ht
    · exact Or.inl ⟨hf, ht⟩
    · simp only [Before] at hbefore
      omega
  · have hbefore := habove f hf
    have hfpos := hpos f (List.mem_append_right _ (List.mem_cons_of_mem _ hf))
    rcases ht with ht | ht
    · simp only [Before] at hbefore
      omega
    · exact Or.inr ⟨hf, ht⟩

include hlow hord hpos in
theorem lower_eq_last (hf : f ∈ as) (hend : f.base + f.size = e.base) :
    as = as' ++ [f] ∧ j.base = f.base := by
  have hord' := List.pairwise_append.mp hord
  exact hlow.eq_last hord'.1 (fun a ha => hord'.2.2 a ha e List.mem_cons_self)
    (fun a ha => hpos a (List.mem_append_left _ ha)) hf hend

include hup hord hpos in
theorem upper_eq_first (hf : f ∈ bs) (hend : e.base + e.size = f.base) :
    bs = f :: bs' ∧ j.base + j.size = f.base + f.size := by
  have hord' := List.pairwise_cons.mp (List.pairwise_append.mp hord).2.1
  exact hup.eq_first hord'.2 hord'.1
    (fun b hb => hpos b (List.mem_append_right _ (List.mem_cons_of_mem _ hb))) hf hend

include hlow hup hord hpos in
/-- What touched `e` has become part of the joined extent. -/
theorem within_of_touches (hf : f ∈ as ++ bs) (ht : Touches f e) (hu : Covers f u) :
    Covers j u := by
  have hbase := hlow.base_le
  have hlast := hup.le_end
  simp only [Covers] at hu ⊢
  rcases touches_cases hord hpos hf ht with ⟨hf, hend⟩ | ⟨hf, hend⟩
  · obtain ⟨_, hjbase⟩ := lower_eq_last hlow hord hpos hf hend
    omega
  · obtain ⟨_, hjlast⟩ := upper_eq_first hup hord hpos hf hend
    omega

include hlow hup hord hpos in
/-- Nothing of the new list touches `e`: its neighbours are one with it now. -/
theorem not_touches_joined (hf : f ∈ as' ++ j :: bs') : ¬Touches f e := by
  intro ht
  have hepos := hpos e (by simp)
  have hbase := hlow.base_le
  have hlast := hup.le_end
  have hsub : ∀ f ∈ as', f ∈ as := fun f hf => hlow.sublist.subset hf
  have hsub' : ∀ f ∈ bs', f ∈ bs := fun f hf => hup.sublist.subset hf
  have hbelow := List.pairwise_append.mp hord
  have habove := List.pairwise_cons.mp hbelow.2.1
  rcases List.mem_append.mp hf with hf | hf
  · have hbefore := hbelow.2.2 f (hsub f hf) e List.mem_cons_self
    have hfpos := hpos f (List.mem_append_left _ (hsub f hf))
    simp only [Before] at hbefore
    rcases ht with hend | hend
    · obtain ⟨has, _⟩ := lower_eq_last hlow hord hpos (hsub f hf) hend
      rw [has] at hbelow
      have hself : Before f f :=
        (List.pairwise_append.mp hbelow.1).2.2 f hf f List.mem_cons_self
      simp only [Before] at hself
      omega
    · omega
  · rcases List.mem_cons.mp hf with rfl | hf
    · rcases ht with hend | hend
      · omega
      · omega
    · have hbefore := habove.1 f (hsub' f hf)
      have hfpos := hpos f (List.mem_append_right _ (List.mem_cons_of_mem _ (hsub' f hf)))
      simp only [Before] at hbefore
      rcases ht with hend | hend
      · omega
      · obtain ⟨hbs, _⟩ := upper_eq_first hup hord hpos (hsub' f hf) hend
        rw [hbs] at habove
        have hself : Before f f := (List.pairwise_cons.mp habove.2).1 f hf
        simp only [Before] at hself
        omega

end Neighbours

end Joining

end Ucore.ExtentLists
