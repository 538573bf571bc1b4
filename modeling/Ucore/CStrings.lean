import Mathlib.Data.List.GetD
import Ucore.ByteBuffer

namespace Ucore.CStrings

open Ucore.ByteBuffer

/-- A string without a NUL in it. -/
@[ext] structure CString where
  chars : List UInt8
  nonzero : ∀ c ∈ chars, c ≠ 0
  deriving DecidableEq

namespace CString

/-- `strlen`. -/
def length (s : CString) : Nat :=
  s.chars.length

/-- The string that is left when a NUL is put at position `m`. -/
def cut (s : CString) (m : Nat) : CString where
  chars := s.chars.take m
  nonzero c hc := s.nonzero c (List.mem_of_mem_take hc)

theorem cut_eq_self_iff {s : CString} {m : Nat} : s.cut m = s ↔ s.length ≤ m := by
  rw [CString.ext_iff]
  exact List.take_eq_self_iff s.chars

theorem cut_of_le {s : CString} {m : Nat} (h : s.length ≤ m) : s.cut m = s :=
  cut_eq_self_iff.mpr h

end CString

/-- `strcpy` to `dst + off`. -/
def strcpy (dst : Bytes) (off : Nat) (src : CString) : Bytes :=
  copyBytes dst off (fun k => src.chars.getD k 0) 0 (src.length + 1)

/-- The characters from `off` on up to a NUL, at most `n` of them. -/
def charsAt (b : Bytes) (off : Nat) : Nat → List UInt8
  | 0 => []
  | n + 1 => if b off = 0 then [] else b off :: charsAt b (off + 1) n

theorem ne_zero_of_mem_charsAt {b : Bytes} {n : Nat} :
    ∀ {off : Nat}, ∀ c ∈ charsAt b off n, c ≠ 0 := by
  induction n with
  | zero =>
      intro off c hc
      cases hc
  | succ n ih =>
      intro off c hc
      rw [charsAt] at hc
      split at hc
      · cases hc
      · next hne =>
        rcases List.mem_cons.mp hc with rfl | hc
        · exact hne
        · exact ih c hc

/-- The string in a field of `n` bytes at `off`. -/
def readString (b : Bytes) (off n : Nat) : CString where
  chars := charsAt b off n
  nonzero := ne_zero_of_mem_charsAt

theorem charsAt_congr {b b' : Bytes} {n : Nat} :
    ∀ {off : Nat}, (∀ k, off ≤ k → k < off + n → b k = b' k) →
      charsAt b off n = charsAt b' off n := by
  induction n with
  | zero =>
      intro off _
      rfl
  | succ n ih =>
      intro off h
      rw [charsAt, charsAt, h off le_rfl (by omega)]
      rw [ih fun k hk₁ hk₂ => h k (by omega) (by omega)]

theorem charsAt_shift {b b' : Bytes} {n : Nat} :
    ∀ {off off' : Nat}, (∀ k, k < n → b (off + k) = b' (off' + k)) →
      charsAt b off n = charsAt b' off' n := by
  induction n with
  | zero =>
      intro off off' _
      rfl
  | succ n ih =>
      intro off off' h
      have hhead := h 0 (Nat.succ_pos n)
      rw [Nat.add_zero, Nat.add_zero] at hhead
      have htail : charsAt b (off + 1) n = charsAt b' (off' + 1) n := by
        apply ih
        intro k hk
        rw [Nat.add_right_comm, Nat.add_assoc, Nat.add_right_comm, Nat.add_assoc off' k 1]
        exact h (k + 1) (Nat.succ_lt_succ hk)
      rw [charsAt, charsAt, hhead, htail]

theorem readString_congr {b b' : Bytes} {off n : Nat}
    (h : ∀ k, off ≤ k → k < off + n → b k = b' k) : readString b off n = readString b' off n :=
  CString.ext (charsAt_congr h)

theorem charsAt_eq {b : Bytes} {chars : List UInt8} :
    ∀ {off n : Nat}, (∀ k, k < chars.length → b (off + k) = chars.getD k 0) →
      (∀ c ∈ chars, c ≠ 0) → b (off + chars.length) = 0 → chars.length < n →
        charsAt b off n = chars := by
  induction chars with
  | nil =>
      intro off n _ _ hstop hlen
      obtain ⟨n, rfl⟩ := Nat.exists_eq_add_of_lt hlen
      rw [List.length_nil, Nat.zero_add, charsAt]
      exact if_pos hstop
  | cons c chars ih =>
      intro off n hchars hne hstop hlen
      rw [List.length_cons] at hchars hstop hlen
      obtain ⟨n, rfl⟩ : ∃ m, n = m + 1 := ⟨n - 1, by omega⟩
      have hhead : b off = c := hchars 0 (Nat.succ_pos _)
      have htail : charsAt b (off + 1) n = chars := by
        apply ih
        · intro k hk
          have hnext := hchars (k + 1) (Nat.succ_lt_succ hk)
          rw [List.getD_cons_succ] at hnext
          rw [← hnext]
          congr 1
          omega
        · intro d hd
          exact hne d (List.mem_cons_of_mem c hd)
        · rw [← hstop]
          congr 1
          omega
        · omega
      rw [charsAt, hhead, if_neg (hne c List.mem_cons_self), htail]

/-- A field that holds the first `m` characters of a string and then a NUL. -/
theorem readString_eq_cut {b : Bytes} {off n m : Nat} {s : CString}
    (hchars : ∀ k, k < m → k < s.length → b (off + k) = s.chars.getD k 0)
    (hstop : b (off + min m s.length) = 0) (hfit : min m s.length < n) :
    readString b off n = s.cut m := by
  have hlen : (s.cut m).chars.length = min m s.length := List.length_take
  apply CString.ext
  apply charsAt_eq
  · intro k hk
    rw [hlen] at hk
    obtain ⟨hkm, hks⟩ := lt_min_iff.mp hk
    have htake : (s.cut m).chars.getD k 0 = s.chars.getD k 0 := by
      rw [CString.cut, List.getD_eq_getElem?_getD, List.getD_eq_getElem?_getD,
        List.getElem?_take_of_lt hkm]
    rw [hchars k hkm hks, htake]
  · exact (s.cut m).nonzero
  · rw [hlen]
    exact hstop
  · rw [hlen]
    exact hfit

theorem strcpy_char {dst : Bytes} {off k : Nat} {s : CString} (hk : k < s.length + 1) :
    strcpy dst off s (off + k) = s.chars.getD k 0 := by
  rw [strcpy, copyBytes_of_mem (by omega) (by omega)]
  congr 1
  omega

theorem strcpy_nul (dst : Bytes) (off : Nat) (s : CString) :
    strcpy dst off s (off + s.length) = 0 := by
  rw [strcpy_char (Nat.lt_succ_self _)]
  exact List.getD_eq_default _ _ le_rfl

theorem strcpy_of_lt {dst : Bytes} {off k : Nat} {s : CString} (hk : k < off) :
    strcpy dst off s k = dst k :=
  copyBytes_of_not_mem (by omega)

end Ucore.CStrings
