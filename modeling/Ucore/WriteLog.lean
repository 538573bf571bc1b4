import Mathlib.Logic.Function.Basic
import Mathlib.Data.List.Basic

namespace Ucore.WriteLog

variable {κ β : Type*} [DecidableEq κ]

/-- The contents of a store after the writes of a log, oldest first. -/
def replay (f : κ → β) (log : List (κ × β)) : κ → β :=
  log.foldl (fun f w => Function.update f w.1 w.2) f

@[simp] theorem replay_nil (f : κ → β) : replay f [] = f := rfl

@[simp] theorem replay_cons (f : κ → β) (w : κ × β) (log : List (κ × β)) :
    replay f (w :: log) = replay (Function.update f w.1 w.2) log := rfl

theorem replay_append (f : κ → β) (log log' : List (κ × β)) :
    replay f (log ++ log') = replay (replay f log) log' :=
  List.foldl_append

/-- A place that no write of the log names keeps its contents. -/
theorem replay_of_not_mem {f : κ → β} {log : List (κ × β)} {k : κ}
    (h : ∀ w ∈ log, w.1 ≠ k) : replay f log k = f k := by
  induction log generalizing f with
  | nil => rfl
  | cons w log ih =>
      rw [replay_cons, ih fun w' hw' => h w' (List.mem_cons_of_mem _ hw')]
      exact Function.update_of_ne (h w List.mem_cons_self).symm _ _

/-- A place that every write to it leaves with the same contents has them. -/
theorem replay_of_mem {f : κ → β} {log : List (κ × β)} {k : κ} {v : β}
    (hmem : (k, v) ∈ log) (huniq : ∀ w ∈ log, w.1 = k → w.2 = v) :
    replay f log k = v := by
  induction log generalizing f with
  | nil => cases hmem
  | cons w log ih =>
      rw [replay_cons]
      rcases Classical.em ((k, v) ∈ log) with hin | hout
      · exact ih hin fun w' hw' => huniq w' (List.mem_cons_of_mem _ hw')
      · have hw : w = (k, v) := by
          rcases List.mem_cons.mp hmem with heq | hin
          · exact heq.symm
          · exact absurd hin hout
        subst hw
        rw [replay_of_not_mem, Function.update_self]
        intro w' hw' hk
        apply hout
        rw [← hk, ← huniq w' (List.mem_cons_of_mem _ hw') hk]
        exact hw'

end Ucore.WriteLog
