import Mathlib.Data.List.Basic

/-! The second-chance replacement of pages, on a ring in arrival order. -/

namespace Ucore.SecondChance

variable {α : Type*}

/-- The resident pages with their visited flags in arrival order, `behind` first. The hand
stands at the first page of `ahead`; behind the newest page the oldest one follows. -/
structure Clock (α : Type*) where
  behind : List (α × Bool)
  ahead : List (α × Bool)

def start : Clock α :=
  ⟨[], []⟩

/-- The new page is the newest one, and the hand goes to the oldest. -/
def arrive (c : Clock α) (p : α) : Clock α :=
  ⟨[], c.behind ++ c.ahead ++ [(p, true)]⟩

/-- The hand clears the flags of the pages that it passes, and the first page whose flag is
already clear is evicted. -/
def evict : Clock α → Option (α × Clock α)
  | ⟨[], []⟩ => none
  | ⟨b :: behind, []⟩ => evict ⟨[], b :: behind⟩
  | ⟨behind, (p, false) :: ahead⟩ => some (p, ⟨behind, ahead⟩)
  | ⟨behind, (p, true) :: ahead⟩ => evict ⟨behind ++ [(p, false)], ahead⟩
termination_by c => ((c.behind ++ c.ahead).countP Prod.snd, c.behind.length)
decreasing_by
  · simp [Prod.lex_def]
  · simp [Prod.lex_def, List.countP_append]

def cleared (ps : List α) : List (α × Bool) :=
  ps.map fun p => (p, false)

def flagged (ps : List α) : List (α × Bool) :=
  ps.map fun p => (p, true)

/-- The hand at the oldest page, the flags of the older pages `as` clear and those of the newer
ones `bs` set. -/
def queue (as bs : List α) : Clock α :=
  ⟨[], cleared as ++ flagged bs⟩

variable {as bs : List α} {behind ahead : List (α × Bool)}

theorem evict_pass :
    evict ⟨behind, flagged bs ++ ahead⟩ = evict ⟨behind ++ cleared bs, ahead⟩ := by
  induction bs generalizing behind with
  | nil => simp [flagged, cleared]
  | cons b bs ih =>
      have hstep : evict ⟨behind, flagged (b :: bs) ++ ahead⟩ =
          evict ⟨behind ++ [(b, false)], flagged bs ++ ahead⟩ := by
        rw [flagged, List.map_cons, List.cons_append, evict]
        rfl
      rw [hstep, ih]
      simp [cleared]

theorem arrive_queue (p : α) : arrive (queue as bs) p = queue as (bs ++ [p]) := by
  simp [arrive, queue, flagged]

theorem evict_queue_cons (a : α) : evict (queue (a :: as) bs) = some (a, queue as bs) := by
  rw [queue, cleared, List.map_cons, List.cons_append, evict]
  rfl

/-- With every flag set the hand goes once around. -/
theorem evict_queue_nil (b : α) : evict (queue [] (b :: bs)) = some (b, queue bs []) := by
  have hround : evict ⟨cleared (b :: bs), []⟩ = evict (queue (b :: bs) []) := by
    rw [cleared, List.map_cons, evict]
    simp [queue, cleared, flagged]
  have hpass := @evict_pass _ (b :: bs) [] []
  rw [List.append_nil, List.nil_append] at hpass
  rw [queue, cleared, List.map_nil, List.nil_append, hpass, hround, evict_queue_cons]

end Ucore.SecondChance
