import Mathlib.Logic.Function.Basic

/-! Tables that lead to tables, a fixed number of levels deep. Each table has one place,
under a root and a path of indices, so that no two walks end in one entry. -/

namespace Ucore.RadixTables

variable {φ ι ε : Type}

section Walks

variable (next : ε → Option φ) (words : φ → ι → ε)

/-- The entry where the walk along the indices ends, if each table on the way is there. -/
def locate : φ → List ι → Option (φ × ι)
  | _, [] => none
  | p, [i] => some (p, i)
  | p, i :: j :: rest => (next (words p i)).bind fun q => locate q (j :: rest)

end Walks

/-- What the places of the tables say of their entries. Only the entries along allowed paths
belong to the tables. -/
structure Rooted (next : ε → Option φ) (depth : Nat) (allowed : List ι → Prop)
    (words : φ → ι → ε) (place : φ → Option (φ × List ι)) : Prop where
  child : ∀ {p r path i q}, place p = some (r, path) → path.length + 1 < depth →
    allowed (path ++ [i]) → next (words p i) = some q → place q = some (r, path ++ [i])

variable {next : ε → Option φ} {depth : Nat} {allowed : List ι → Prop} {words words' : φ → ι → ε}
  {place : φ → Option (φ × List ι)} {p q r : φ} {i j : ι} {path rest idx : List ι}

theorem locate_cons (hrest : rest ≠ []) :
    locate next words p (i :: rest) = (next (words p i)).bind fun q => locate next words q rest := by
  cases rest with
  | nil => exact absurd rfl hrest
  | cons j rest => rfl

/-- A walk that goes on after it has found an entry. -/
theorem locate_snoc (hidx : idx ≠ []) :
    locate next words p (idx ++ [j]) =
      (locate next words p idx).bind fun at' => (next (words at'.1 at'.2)).map fun q => (q, j) := by
  induction idx generalizing p with
  | nil => exact absurd rfl hidx
  | cons i rest ih =>
      cases hrest : rest with
      | nil =>
          show ((next (words p i)).bind fun q => some (q, j)) =
            (next (words p i)).map fun q => (q, j)
          cases next (words p i) with
          | none => rfl
          | some q => rfl
      | cons k tail =>
          have hne : rest ≠ [] := by simp [hrest]
          rw [← hrest, List.cons_append, locate_cons (by simp), locate_cons hne]
          cases next (words p i) with
          | none => rfl
          | some q => exact ih hne

/-- Where a walk ends, and from which root. -/
theorem Rooted.place_of_locate (hclosed : ∀ a b, allowed (a ++ b) → allowed a)
    (h : Rooted next depth allowed words place) (hp : place p = some (r, path))
    (hlen : path.length + idx.length ≤ depth) (hallowed : allowed (path ++ idx))
    (hlocate : locate next words p idx = some (q, j)) :
    ∃ init, idx = init ++ [j] ∧ place q = some (r, path ++ init) := by
  induction idx generalizing p path with
  | nil => cases hlocate
  | cons i rest ih =>
      cases hrest : rest with
      | nil =>
          subst hrest
          cases hlocate
          exact ⟨[], rfl, by rwa [List.append_nil]⟩
      | cons k tail =>
          rw [locate_cons (by simp [hrest])] at hlocate
          obtain ⟨u, hnext, hrec⟩ := Option.bind_eq_some_iff.mp hlocate
          have hsplit : path ++ i :: rest = (path ++ [i]) ++ rest := by simp
          rw [hsplit] at hallowed
          have hinner : path.length + 1 < depth := by
            rw [hrest, List.length_cons, List.length_cons] at hlen
            omega
          have hu := h.child hp hinner (hclosed _ _ hallowed) hnext
          have hlen' : (path ++ [i]).length + rest.length ≤ depth := by
            rw [List.length_cons] at hlen
            rw [List.length_append, List.length_singleton]
            omega
          obtain ⟨init, hinit, hplace⟩ := ih hu hlen' hallowed hrec
          refine ⟨i :: init, ?_, ?_⟩
          · rw [← hrest, hinit, List.cons_append]
          · rw [hplace, List.append_assoc, List.singleton_append]

/-- Two walks end in one entry only if they are along one path from one root. -/
theorem Rooted.locate_inj (hclosed : ∀ a b, allowed (a ++ b) → allowed a)
    (h : Rooted next depth allowed words place) {r' : φ} {idx' : List ι}
    (hr : place r = some (r, [])) (hr' : place r' = some (r', []))
    (hlen : idx.length ≤ depth) (hlen' : idx'.length ≤ depth)
    (hallowed : allowed idx) (hallowed' : allowed idx')
    (hlocate : locate next words r idx = some (q, j))
    (hlocate' : locate next words r' idx' = some (q, j)) : r' = r ∧ idx' = idx := by
  obtain ⟨init, hidx, hplace⟩ :=
    h.place_of_locate hclosed hr (by simpa using hlen) (by simpa using hallowed) hlocate
  obtain ⟨init', hidx', hplace'⟩ :=
    h.place_of_locate hclosed hr' (by simpa using hlen') (by simpa using hallowed') hlocate'
  rw [hplace] at hplace'
  simp only [List.nil_append, Option.some.injEq, Prod.mk.injEq] at hplace'
  obtain ⟨rfl, rfl⟩ := hplace'
  exact ⟨rfl, hidx'.trans hidx.symm⟩

/-- Walks do not depend on the entries of the last tables. -/
theorem Rooted.locate_congr (hclosed : ∀ a b, allowed (a ++ b) → allowed a)
    (h : Rooted next depth allowed words place)
    (hsame : ∀ {p r path i}, place p = some (r, path) → path.length + 1 < depth →
      allowed (path ++ [i]) → words' p i = words p i)
    (hp : place p = some (r, path)) (hlen : path.length + idx.length ≤ depth)
    (hallowed : allowed (path ++ idx)) :
    locate next words' p idx = locate next words p idx := by
  induction idx generalizing p path with
  | nil => rfl
  | cons i rest ih =>
      cases hrest : rest with
      | nil => rfl
      | cons k tail =>
          rw [← hrest, locate_cons (by simp [hrest]), locate_cons (by simp [hrest])]
          have hsplit : path ++ i :: rest = (path ++ [i]) ++ rest := by simp
          rw [hsplit] at hallowed
          have hinner : path.length + 1 < depth := by
            rw [hrest, List.length_cons, List.length_cons] at hlen
            omega
          rw [hsame hp hinner (hclosed _ _ hallowed)]
          cases hnext : next (words p i) with
          | none => rfl
          | some u =>
              have hu := h.child hp hinner (hclosed _ _ hallowed) hnext
              have hlen' : (path ++ [i]).length + rest.length ≤ depth := by
                rw [List.length_cons] at hlen
                rw [List.length_append, List.length_singleton]
                omega
              exact ih hu hlen' hallowed

/-- An entry that led nowhere is made to lead to a new table: other walks end where they
ended, and those through the entry end in the new table at most. -/
theorem Rooted.locate_link (hclosed : ∀ a b, allowed (a ++ b) → allowed a)
    (h : Rooted next depth allowed words place) {p₀ new : φ} {i₀ : ι}
    (hsame : ∀ {p r path i}, place p = some (r, path) → path.length + 1 < depth →
      allowed (path ++ [i]) → ¬(p = p₀ ∧ i = i₀) → words' p i = words p i)
    (hold : next (words p₀ i₀) = none) (hnew : next (words' p₀ i₀) = some new)
    (hempty : ∀ i, next (words' new i) = none)
    (hp : place p = some (r, path)) (hlen : path.length + idx.length ≤ depth)
    (hallowed : allowed (path ++ idx)) :
    locate next words' p idx = locate next words p idx ∨ locate next words p idx = none ∧
      ∀ q j, locate next words' p idx = some (q, j) → q = new := by
  induction idx generalizing p path with
  | nil => exact Or.inl rfl
  | cons i rest ih =>
      cases hrest : rest with
      | nil => exact Or.inl rfl
      | cons k tail =>
          rw [← hrest, locate_cons (by simp [hrest]), locate_cons (by simp [hrest])]
          have hsplit : path ++ i :: rest = (path ++ [i]) ++ rest := by simp
          rw [hsplit] at hallowed
          have hinner : path.length + 1 < depth := by
            rw [hrest, List.length_cons, List.length_cons] at hlen
            omega
          rcases Classical.em (p = p₀ ∧ i = i₀) with ⟨rfl, rfl⟩ | hother
          · rw [hold, hnew]
            refine Or.inr ⟨rfl, ?_⟩
            intro q j hlocate
            rw [Option.bind_some, hrest] at hlocate
            cases tail with
            | nil =>
                cases hlocate
                rfl
            | cons l tail =>
                rw [locate_cons (by simp), hempty] at hlocate
                cases hlocate
          · rw [hsame hp hinner (hclosed _ _ hallowed) hother]
            cases hnext : next (words p i) with
            | none => exact Or.inl rfl
            | some u =>
                have hu := h.child hp hinner (hclosed _ _ hallowed) hnext
                have hlen' : (path ++ [i]).length + rest.length ≤ depth := by
                  rw [List.length_cons] at hlen
                  rw [List.length_append, List.length_singleton]
                  omega
                exact ih hu hlen' hallowed

end Ucore.RadixTables
