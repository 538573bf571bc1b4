import Ucore.UserMemory

/-! How the kernel takes a string out of the memory of a process (`copy_string`). -/

namespace Ucore.UserStrings

open Ucore.DefaultPmm (PGSIZE)
open Ucore.PageTables
open Ucore.AddressSpaces (Vma)
open Ucore.LoadIcode (VM_READ)
open Ucore.UserMemory

/-- What `copy_string` works on. `dst` is the kernel's memory from the destination on, and `reads`
and `writes` are the addresses and the places of `dst` that were used. -/
structure Copying where
  mm : Option MmStruct
  dst : Nat → BitVec 8
  reads : List (BitVec 64)
  writes : List Nat

section Strings

variable (user : BitVec 64 → BitVec 8)

def strnlen (src : BitVec 64) : Nat → Copying → Nat × Copying
  | 0, s => (0, s)
  | n + 1, s =>
      let s := { s with reads := src :: s.reads }
      if user src ≠ 0 then
        ((strnlen (src + 1) n s).1 + 1, (strnlen (src + 1) n s).2)
      else
        (0, s)

def memcpy (dst : Nat) (src : BitVec 64) : Nat → Copying → Copying
  | 0, s => s
  | n + 1, s => memcpy (dst + 1) (src + 1) n { s with
      dst := Function.update s.dst dst (user src)
      reads := src :: s.reads
      writes := dst :: s.writes }

/-- The loop of `copy_string`. -/
def copyStringLoop (dst : Nat) (src : BitVec 64) (part maxn : Nat) (_hpart : 0 < part)
    (s : Copying) : Bool × Copying :=
  let checked := userMemCheck s.mm src (BitVec.ofNat 64 (min part maxn)) false
  let s := { s with mm := checked.2 }
  if ¬checked.1 then
    (false, s)
  else
    let alen := (strnlen user src (min part maxn) s).1
    let s := (strnlen user src (min part maxn) s).2
    if alen < min part maxn then
      (true, memcpy user dst src (alen + 1) s)
    else if _hmaxn : min part maxn = maxn then
      (false, s)
    else
      copyStringLoop (dst + min part maxn) (src + BitVec.ofNat 64 (min part maxn)) PGSIZE
        (maxn - min part maxn) (by decide) (memcpy user dst src (min part maxn) s)
termination_by maxn

/-- `ROUNDDOWN(src + PGSIZE, PGSIZE) - src` -/
def firstPart (src : BitVec 64) : BitVec 64 :=
  (src + BitVec.ofNat 64 PGSIZE) - (src + BitVec.ofNat 64 PGSIZE) % BitVec.ofNat 64 PGSIZE - src

theorem firstPart_toNat (src : BitVec 64) : (firstPart src).toNat = PGSIZE - src.toNat % PGSIZE := by
  have hlt := src.isLt
  have hsize : (BitVec.ofNat 64 PGSIZE).toNat = 4096 := by decide
  have hpage : PGSIZE = 4096 := rfl
  rw [firstPart, BitVec.toNat_sub, BitVec.toNat_sub, BitVec.toNat_umod, BitVec.toNat_add, hsize, hpage]
  omega

theorem firstPart_pos (src : BitVec 64) : 0 < (firstPart src).toNat := by
  have hlt : src.toNat % PGSIZE < PGSIZE := Nat.mod_lt _ (by decide)
  rw [firstPart_toNat]
  omega

/-- `copy_string` -/
def copyString (src maxn : BitVec 64) (s : Copying) : Bool × Copying :=
  copyStringLoop user 0 src (firstPart src).toNat maxn.toNat (firstPart_pos src) s

variable {user : BitVec 64 → BitVec 8} {src : BitVec 64} {s : Copying}

theorem offset_succ (src : BitVec 64) (i : Nat) :
    src + 1 + BitVec.ofNat 64 i = src + BitVec.ofNat 64 (i + 1) := by
  rw [add_assoc, add_comm 1, BitVec.ofNat_add]
  rfl

theorem offset_add (src : BitVec 64) (i j : Nat) :
    src + BitVec.ofNat 64 i + BitVec.ofNat 64 j = src + BitVec.ofNat 64 (i + j) := by
  rw [add_assoc, ← BitVec.ofNat_add]

theorem offset_zero (src : BitVec 64) : src + BitVec.ofNat 64 0 = src := by
  simp

theorem offset_toNat {i : Nat} (h : src.toNat + i < 2 ^ 64) :
    (src + BitVec.ofNat 64 i).toNat = src.toNat + i := by
  rw [BitVec.toNat_add, BitVec.toNat_ofNat, Nat.add_mod_mod, Nat.mod_eq_of_lt h]

section Strnlen

/-- What `strnlen` counts, and what it has read. -/
structure Counted (user : BitVec 64 → BitVec 8) (src : BitVec 64) (n : Nat) (s : Copying)
    (result : Nat × Copying) : Prop where
  le : result.1 ≤ n
  before : ∀ i < result.1, user (src + BitVec.ofNat 64 i) ≠ 0
  ends : result.1 < n → user (src + BitVec.ofNat 64 result.1) = 0
  reads : ∀ a ∈ result.2.reads, a ∈ s.reads ∨ ∃ i < n, a = src + BitVec.ofNat 64 i
  rest : result.2 = { s with reads := result.2.reads }

theorem strnlen_counted (user : BitVec 64 → BitVec 8) (src : BitVec 64) (n : Nat) (s : Copying) :
    Counted user src n s (strnlen user src n s) := by
  induction n generalizing src s with
  | zero => exact ⟨le_rfl, by simp [strnlen], by simp [strnlen], by simp [strnlen], rfl⟩
  | succ n ih =>
      rw [strnlen]
      split
      · next hchar =>
          have hrest := ih (src + 1) { s with reads := src :: s.reads }
          refine ⟨by simpa using hrest.le, ?_, ?_, ?_, ?_⟩
          · rintro (_ | i) hi
            · simpa using hchar
            · rw [← offset_succ]
              exact hrest.before i (by simpa using hi)
          · intro hlt
            rw [← offset_succ]
            exact hrest.ends (by simpa using hlt)
          · intro a ha
            rcases hrest.reads a ha with hold | ⟨i, hi, rfl⟩
            · rcases List.mem_cons.mp hold with rfl | hold
              · exact .inr ⟨0, by omega, (offset_zero _).symm⟩
              · exact .inl hold
            · exact .inr ⟨i + 1, by omega, offset_succ src i⟩
          · exact hrest.rest
      · next hend =>
          refine ⟨by simp, by simp, ?_, ?_, rfl⟩
          · intro hlt
            simpa using hend
          · intro a ha
            rcases List.mem_cons.mp ha with rfl | hold
            · exact .inr ⟨0, by omega, (offset_zero _).symm⟩
            · exact .inl hold

end Strnlen

section Memcpy

theorem memcpy_mm (user : BitVec 64 → BitVec 8) (dst : Nat) (src : BitVec 64) (n : Nat)
    (s : Copying) : (memcpy user dst src n s).mm = s.mm := by
  induction n generalizing dst src s with
  | zero => rfl
  | succ n ih => rw [memcpy, ih]

/-- A byte that `memcpy` does not copy to. -/
theorem memcpy_other {dst n i : Nat} (h : i < dst ∨ dst + n ≤ i) :
    (memcpy user dst src n s).dst i = s.dst i := by
  induction n generalizing dst src s with
  | zero => rfl
  | succ n ih =>
      rw [memcpy, ih (by omega)]
      exact Function.update_of_ne (by omega) _ _

theorem memcpy_copied {dst n i : Nat} (h : i < n) :
    (memcpy user dst src n s).dst (dst + i) = user (src + BitVec.ofNat 64 i) := by
  induction n generalizing dst src s i with
  | zero => omega
  | succ n ih =>
      rw [memcpy]
      rcases i with _ | i
      · rw [memcpy_other (by omega)]
        simp
      · rw [← offset_succ, ← ih (by omega : i < n)]
        congr 1
        omega

theorem memcpy_reads {dst n : Nat} :
    ∀ a ∈ (memcpy user dst src n s).reads, a ∈ s.reads ∨ ∃ i < n, a = src + BitVec.ofNat 64 i := by
  induction n generalizing dst src s with
  | zero => simp [memcpy]
  | succ n ih =>
      intro a ha
      rw [memcpy] at ha
      rcases ih a ha with hold | ⟨i, hi, rfl⟩
      · rcases List.mem_cons.mp hold with rfl | hold
        · exact .inr ⟨0, by omega, (offset_zero _).symm⟩
        · exact .inl hold
      · exact .inr ⟨i + 1, by omega, offset_succ src i⟩

theorem memcpy_writes {dst n : Nat} :
    ∀ i ∈ (memcpy user dst src n s).writes, i ∈ s.writes ∨ dst ≤ i ∧ i < dst + n := by
  induction n generalizing dst src s with
  | zero =>
      intro i hi
      exact .inl hi
  | succ n ih =>
      intro i hi
      rw [memcpy] at hi
      rcases ih i hi with hold | hnew
      · rcases List.mem_cons.mp hold with rfl | hold
        · exact .inr ⟨le_rfl, by omega⟩
        · exact .inl hold
      · exact .inr ⟨by omega, by omega⟩

end Memcpy

end Strings

section Readable

variable {mm mm' : MmStruct}

/-- A process may read the byte at `addr`. -/
def Readable (mm : MmStruct) (addr : Nat) : Prop :=
  USERBASE ≤ addr ∧ addr < USERTOP ∧ Permits mm.mmapList false addr

theorem Readable.congr {addr : Nat} (hlist : mm'.mmapList = mm.mmapList) :
    Readable mm' addr ↔ Readable mm addr := by
  rw [Readable, Readable, hlist]

/-- Of a page, either every byte may be read or none. -/
theorem Readable.of_samePage {addr byte : Nat} (h : Readable mm addr)
    (hpage : addr / PGSIZE = byte / PGSIZE) : Readable mm byte := by
  obtain ⟨hbase, htop, ⟨vma, hmem, hcovers, hflag⟩, -⟩ := h
  obtain ⟨hstart, hend⟩ := mm.aligned vma hmem
  have hsize : PGSIZE = 4096 := rfl
  have hUserbase : USERBASE = 512 * 4096 := rfl
  have hUsertop : USERTOP = 524288 * 4096 := rfl
  obtain ⟨hle, hlt⟩ := hcovers
  rw [hsize] at hstart hend hpage
  refine ⟨by omega, by omega, ⟨vma, hmem, ⟨by omega, by omega⟩, hflag⟩, ?_⟩
  intro hwrite
  simp at hwrite

/-- What `user_mem_check` says of a stretch of one page. -/
theorem checked_iff {src : BitVec 64} {size : Nat} (hpos : 0 < size)
    (hpage : src.toNat % PGSIZE + size ≤ PGSIZE) :
    (userMemCheck (some mm) src (BitVec.ofNat 64 size) false).1 = true ↔ Readable mm src.toNat := by
  have hsize : PGSIZE = 4096 := rfl
  have htop : USERTOP = 524288 * 4096 := rfl
  have hlen : (BitVec.ofNat 64 size).toNat = size := by
    rw [BitVec.toNat_ofNat]
    omega
  rw [hsize] at hpage
  by_cases hwrap : src.toNat + size < 2 ^ 64
  · rw [userMemCheck_bytes (by omega) (by omega), hlen]
    constructor
    · intro hall
      exact hall src.toNat le_rfl (by omega)
    · intro hreadable byte hle hlt
      refine hreadable.of_samePage ?_
      rw [hsize]
      omega
  · rw [userMemCheck_wraps (by omega)]
    refine iff_of_false (by simp) ?_
    rintro ⟨-, hlt, -⟩
    omega

/-- `user_mem_check` lets the page of `addr` be read. -/
def AcceptedPage (mm : MmStruct) (addr : BitVec 64) : Prop :=
  (userMemCheck (some mm) (addr - addr % BitVec.ofNat 64 PGSIZE) (BitVec.ofNat 64 PGSIZE) false).1 = true

theorem acceptedPage_iff {addr : BitVec 64} : AcceptedPage mm addr ↔ Readable mm addr.toNat := by
  have hpage : (addr - addr % BitVec.ofNat 64 PGSIZE).toNat = addr.toNat - addr.toNat % 4096 := by
    have hsize : (BitVec.ofNat 64 PGSIZE).toNat = 4096 := by decide
    have hlt := addr.isLt
    rw [BitVec.toNat_sub, BitVec.toNat_umod, hsize]
    omega
  have hsize : PGSIZE = 4096 := rfl
  rw [AcceptedPage, checked_iff (by decide) (by rw [hpage, hsize]; omega), hpage]
  constructor
  · intro h
    refine h.of_samePage ?_
    rw [hsize]
    omega
  · intro h
    refine h.of_samePage ?_
    rw [hsize]
    omega

end Readable

section Loop

variable {user : BitVec 64 → BitVec 8} {mm : MmStruct} {src : BitVec 64}

/-- The string from `src` ends at its byte `k`, and a process may read all of it. -/
structure EndsAt (user : BitVec 64 → BitVec 8) (mm : MmStruct) (src : BitVec 64) (k : Nat) : Prop where
  nul : user (src + BitVec.ofNat 64 k) = 0
  readable : ∀ i ≤ k, Readable mm (src + BitVec.ofNat 64 i).toNat

/-- What a copy of at most `maxn` bytes to `dst` does. -/
structure Copied (user : BitVec 64 → BitVec 8) (mm : MmStruct) (dst : Nat) (src : BitVec 64)
    (maxn : Nat) (s : Copying) (result : Bool × Copying) : Prop where
  vmas : ∃ mm', result.2.mm = some mm' ∧ mm'.mmapList = mm.mmapList
  reads : ∀ a ∈ result.2.reads, a ∈ s.reads ∨ Readable mm a.toNat
  writes : ∀ i ∈ result.2.writes, i ∈ s.writes ∨ dst ≤ i ∧ i < dst + maxn
  kept : ∀ i, i < dst ∨ dst + maxn ≤ i → result.2.dst i = s.dst i
  returned : result.1 = true ↔ ∃ k < maxn, EndsAt user mm src k
  copied : result.1 = true → ∀ k < maxn, user (src + BitVec.ofNat 64 k) = 0 →
    (∀ i < k, user (src + BitVec.ofNat 64 i) ≠ 0) →
    ∀ i ≤ k, result.2.dst (dst + i) = user (src + BitVec.ofNat 64 i)

/-- Where the first byte of a part is readable, the part is. -/
theorem readable_part {size i : Nat} (h : Readable mm src.toNat)
    (hpage : src.toNat % PGSIZE + size ≤ PGSIZE) (hi : i < size) :
    Readable mm (src + BitVec.ofNat 64 i).toNat := by
  have hsize : PGSIZE = 4096 := rfl
  have htop : USERTOP = 524288 * 4096 := rfl
  have hlt := h.2.1
  rw [hsize] at hpage
  rw [offset_toNat (by omega)]
  refine h.of_samePage ?_
  rw [hsize]
  omega

theorem copied_refused {dst maxn : Nat} {s : Copying} (mm' : MmStruct)
    (hmm : s.mm = some mm') (hlist : mm'.mmapList = mm.mmapList) (h : ¬Readable mm src.toNat) :
    Copied user mm dst src maxn s (false, s) where
  vmas := ⟨mm', hmm, hlist⟩
  reads _ ha := .inl ha
  writes _ hi := .inl hi
  kept _ _ := rfl
  returned := by
    refine iff_of_false (by simp) ?_
    rintro ⟨k, -, hends⟩
    have hfirst := hends.readable 0 (Nat.zero_le k)
    rw [offset_zero] at hfirst
    exact h hfirst
  copied h := by simp at h

variable {dst size maxn : Nat} {s : Copying} {result : Nat × Copying}

theorem copied_found (hcount : Counted user src size s result) (hmm : ∃ mm', s.mm = some mm' ∧
    mm'.mmapList = mm.mmapList) (hsize : size ≤ maxn)
    (hpart : ∀ i < size, Readable mm (src + BitVec.ofNat 64 i).toNat) (hlt : result.1 < size) :
    Copied user mm dst src maxn s (true, memcpy user dst src (result.1 + 1) result.2) where
  vmas := by
    rw [memcpy_mm, hcount.rest]
    exact hmm
  reads a ha := by
    rcases memcpy_reads a ha with hread | ⟨i, hi, rfl⟩
    · rcases hcount.reads a hread with hold | ⟨i, hi, rfl⟩
      · exact .inl hold
      · exact .inr (hpart i hi)
    · exact .inr (hpart i (by omega))
  writes i hi := by
    rcases memcpy_writes i hi with hold | hnew
    · rw [hcount.rest] at hold
      exact .inl hold
    · exact .inr ⟨hnew.1, by omega⟩
  kept i hi := by
    rw [memcpy_other (by omega), hcount.rest]
  returned := by
    refine iff_of_true rfl ⟨result.1, by omega, hcount.ends hlt, ?_⟩
    intro i hi
    exact hpart i (by omega)
  copied := by
    rintro - k hk hnul hfirst i hi
    have hle : k ≤ result.1 := by
      by_contra hgt
      exact hfirst result.1 (by omega) (hcount.ends hlt)
    exact memcpy_copied (by omega)

theorem copied_full (hcount : Counted user src maxn s result) (hmm : ∃ mm', s.mm = some mm' ∧
    mm'.mmapList = mm.mmapList) (hpart : ∀ i < maxn, Readable mm (src + BitVec.ofNat 64 i).toNat)
    (hge : ¬result.1 < maxn) : Copied user mm dst src maxn s (false, result.2) where
  vmas := by
    rw [hcount.rest]
    exact hmm
  reads a ha := by
    rcases hcount.reads a ha with hold | ⟨i, hi, rfl⟩
    · exact .inl hold
    · exact .inr (hpart i hi)
  writes i hi := by
    rw [hcount.rest] at hi
    exact .inl hi
  kept i _ := by rw [hcount.rest]
  returned := by
    refine iff_of_false (by simp) ?_
    rintro ⟨k, hk, hends⟩
    exact hcount.before k (by omega) hends.nul
  copied h := by simp at h

/-- A part without an end of the string, and what is copied after it. -/
theorem copied_further {final : Bool × Copying} (hcount : Counted user src size s result)
    (hsize : size ≤ maxn) (hpart : ∀ i < size, Readable mm (src + BitVec.ofNat 64 i).toNat)
    (hge : ¬result.1 < size)
    (hrest : Copied user mm (dst + size) (src + BitVec.ofNat 64 size) (maxn - size)
      (memcpy user dst src size result.2) final) : Copied user mm dst src maxn s final := by
  have hchars : ∀ i < size, user (src + BitVec.ofNat 64 i) ≠ 0 := by
    intro i hi
    exact hcount.before i (by omega)
  refine ⟨hrest.vmas, ?_, ?_, ?_, ?_, ?_⟩
  · intro a ha
    rcases hrest.reads a ha with hold | hnew
    · rcases memcpy_reads a hold with hread | ⟨i, hi, rfl⟩
      · rcases hcount.reads a hread with hold | ⟨i, hi, rfl⟩
        · exact .inl hold
        · exact .inr (hpart i hi)
      · exact .inr (hpart i hi)
    · exact .inr hnew
  · intro i hi
    rcases hrest.writes i hi with hold | hnew
    · rcases memcpy_writes i hold with hold | hnew
      · rw [hcount.rest] at hold
        exact .inl hold
      · exact .inr ⟨hnew.1, by omega⟩
    · exact .inr ⟨by omega, by omega⟩
  · intro i hi
    rw [hrest.kept i (by omega), memcpy_other (by omega), hcount.rest]
  · rw [hrest.returned]
    constructor
    · rintro ⟨k, hk, hnul, hreadable⟩
      refine ⟨size + k, by omega, by rwa [← offset_add], ?_⟩
      intro i hi
      by_cases hin : i < size
      · exact hpart i hin
      · have hlater := hreadable (i - size) (by omega)
        rwa [offset_add, Nat.add_sub_cancel' (by omega)] at hlater
    · rintro ⟨k, hk, hnul, hreadable⟩
      have hge : size ≤ k := by
        by_contra hlt
        exact hchars k (by omega) hnul
      obtain ⟨j, rfl⟩ := Nat.exists_eq_add_of_le hge
      refine ⟨j, by omega, by rwa [offset_add], ?_⟩
      intro i hi
      rw [offset_add]
      exact hreadable (size + i) (by omega)
  · intro hreturned k hk hnul hfirst i hi
    have hge : size ≤ k := by
      by_contra hlt
      exact hchars k (by omega) hnul
    obtain ⟨j, rfl⟩ := Nat.exists_eq_add_of_le hge
    by_cases hin : i < size
    · rw [hrest.kept (dst + i) (by omega), memcpy_copied hin]
    · obtain ⟨m, rfl⟩ := Nat.exists_eq_add_of_le (by omega : size ≤ i)
      rw [← add_assoc, ← offset_add]
      refine hrest.copied hreturned j (by omega) (by rwa [offset_add]) ?_ m (by omega)
      intro i hi
      rw [offset_add]
      exact hfirst (size + i) (by omega)

/-- What `user_mem_check` leaves in `mmap_cache` is no part of what is copied. -/
theorem Copied.of_checked (cached : Option MmStruct) {final : Bool × Copying}
    (h : Copied user mm dst src maxn { s with mm := cached } final) :
    Copied user mm dst src maxn s final :=
  ⟨h.vmas, h.reads, h.writes, h.kept, h.returned, h.copied⟩

/-- By induction on the bytes that `dst` has room for. -/
theorem copyStringLoop_copied {part : Nat} (hpart : 0 < part) (mm' : MmStruct)
    (hmm : s.mm = some mm') (hlist : mm'.mmapList = mm.mmapList) (hmaxn : 0 < maxn)
    (hpage : src.toNat % PGSIZE + part = PGSIZE) :
    Copied user mm dst src maxn s (copyStringLoop user dst src part maxn hpart s) := by
  induction maxn using Nat.strong_induction_on generalizing dst src part s mm' with
  | _ maxn ih =>
    have hsize : src.toNat % PGSIZE + min part maxn ≤ PGSIZE := by omega
    have hvmas := userMemCheck_mmapList mm' src (BitVec.ofNat 64 (min part maxn)) false
    obtain ⟨mm'', hcached, hlist'⟩ := Option.map_eq_some_iff.mp hvmas
    have haccept : (userMemCheck (some mm') src (BitVec.ofNat 64 (min part maxn)) false).1 = true ↔
        Readable mm src.toNat := (checked_iff (by omega) hsize).trans (Readable.congr hlist)
    rw [copyStringLoop, hmm]
    refine Copied.of_checked (some mm'') ?_
    rw [hcached]
    dsimp only
    have hcount := strnlen_counted user src (min part maxn) { s with mm := some mm'' }
    split
    · next hrefused =>
        rw [haccept] at hrefused
        exact copied_refused mm'' rfl (hlist'.trans hlist) hrefused
    · next haccepted =>
        have hreadable := haccept.mp (not_not.mp haccepted)
        have hchunk : ∀ i < min part maxn, Readable mm (src + BitVec.ofNat 64 i).toNat := by
          intro i hi
          exact readable_part hreadable hsize hi
        split
        · next hfound =>
            exact copied_found hcount ⟨mm'', rfl, hlist'.trans hlist⟩ (by omega) hchunk hfound
        · next hnone =>
            split
            · next hfull =>
                rw [hfull] at hcount hchunk hnone ⊢
                exact copied_full hcount ⟨mm'', rfl, hlist'.trans hlist⟩ hchunk hnone
            · next hmore =>
                have hwhole : min part maxn = part := by omega
                refine copied_further hcount (by omega) hchunk hnone ?_
                refine ih (maxn - min part maxn) (by omega) _ mm'' ?_ (hlist'.trans hlist) (by omega) ?_
                · rw [memcpy_mm, hcount.rest]
                · have htop := hreadable.2.1
                  have hUsertop : USERTOP = 524288 * 4096 := rfl
                  have hpagesize : PGSIZE = 4096 := rfl
                  rw [hpagesize] at hpage ⊢
                  rw [hwhole, offset_toNat (by omega)]
                  omega

end Loop

/-- What `copy_string` reads, writes and returns. -/
theorem copyString_exact (user : BitVec 64 → BitVec 8) (mm : MmStruct) (src maxn : BitVec 64)
    (dst : Nat → BitVec 8) (hmaxn : 1 ≤ maxn.toNat) :
    let result := copyString user src maxn ⟨some mm, dst, [], []⟩
    (∀ a ∈ result.2.reads, AcceptedPage mm a) ∧
      (∀ i ∈ result.2.writes, i < maxn.toNat) ∧
      (∀ i, maxn.toNat ≤ i → result.2.dst i = dst i) ∧
      (result.1 = true ↔ ∃ k < maxn.toNat, user (src + BitVec.ofNat 64 k) = 0 ∧
        ∀ i ≤ k, AcceptedPage mm (src + BitVec.ofNat 64 i)) ∧
      (result.1 = true → ∀ k < maxn.toNat, user (src + BitVec.ofNat 64 k) = 0 →
        (∀ i < k, user (src + BitVec.ofNat 64 i) ≠ 0) →
        ∀ i ≤ k, result.2.dst i = user (src + BitVec.ofNat 64 i)) := by
  intro result
  have hpage : src.toNat % PGSIZE + (firstPart src).toNat = PGSIZE := by
    have hlt : src.toNat % PGSIZE < PGSIZE := Nat.mod_lt _ (by decide)
    rw [firstPart_toNat]
    omega
  have hcopied : Copied user mm 0 src maxn.toNat ⟨some mm, dst, [], []⟩ result :=
    copyStringLoop_copied (firstPart_pos src) mm rfl rfl hmaxn hpage
  refine ⟨?_, ?_, ?_, ?_, ?_⟩
  · intro a ha
    rcases hcopied.reads a ha with hold | hread
    · simp at hold
    · exact acceptedPage_iff.mpr hread
  · intro i hi
    rcases hcopied.writes i hi with hold | hnew
    · simp at hold
    · omega
  · intro i hi
    exact hcopied.kept i (by omega)
  · rw [hcopied.returned]
    constructor
    · rintro ⟨k, hk, hnul, hreadable⟩
      exact ⟨k, hk, hnul, fun i hi => acceptedPage_iff.mpr (hreadable i hi)⟩
    · rintro ⟨k, hk, hnul, haccepted⟩
      exact ⟨k, hk, hnul, fun i hi => acceptedPage_iff.mp (haccepted i hi)⟩
  · intro hreturned k hk hnul hfirst i hi
    have hcopy := hcopied.copied hreturned k hk hnul hfirst i hi
    rwa [Nat.zero_add] at hcopy

/-- A process that may read the first page from `USERBASE` on. -/
def onePage : MmStruct where
  mmapList := [⟨USERBASE, USERBASE + PGSIZE, VM_READ⟩]
  mmapCache := none
  sorted := List.pairwise_singleton _ _
  proper := by simp [PGSIZE]
  aligned := by decide
  cached := by simp

theorem acceptedPage_onePage : AcceptedPage onePage (BitVec.ofNat 64 USERBASE) := by
  have hbase : (BitVec.ofNat 64 USERBASE).toNat = USERBASE := by decide
  refine acceptedPage_iff.mpr ?_
  rw [hbase]
  refine ⟨le_rfl, by decide, ⟨⟨USERBASE, USERBASE + PGSIZE, VM_READ⟩, List.mem_singleton_self _,
    ⟨le_rfl, by simp [PGSIZE]⟩, by decide⟩, ?_⟩
  intro hwrite
  simp at hwrite

/-- An empty string fits in one byte. -/
theorem copyString_exact_empty :
    (copyString (fun _ => 0) (BitVec.ofNat 64 USERBASE) 1 ⟨some onePage, fun _ => 7, [], []⟩).1 =
      true := by
  refine (copyString_exact (fun _ => 0) onePage (BitVec.ofNat 64 USERBASE) 1 (fun _ => 7)
    (by decide)).2.2.2.1.mpr ⟨0, by decide, rfl, ?_⟩
  intro i hi
  rw [Nat.le_zero.mp hi, offset_zero]
  exact acceptedPage_onePage

end Ucore.UserStrings
