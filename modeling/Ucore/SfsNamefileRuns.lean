import Ucore.SfsNamefile

/-! Runs of `sfs_namefile`. -/

namespace Ucore.SfsNamefileRuns

open Ucore.Errors
open Ucore.KernelRoutine
open Ucore.ByteBuffer
open Ucore.CStrings
open Ucore.SfsDisk
open Ucore.SfsOwnership
open Ucore.SfsIo
open Ucore.SfsDirent
open Ucore.SfsRuns
open Ucore.SfsSettled
open Ucore.VfsFiles
open Ucore.VfsReadOnly
open Ucore.VfsLookup
open Ucore.InodeDrops
open Ucore.SfsNamefile

section Spelling

variable {b b' : Bytes} {off off' : Nat} {chars chars' : List UInt8}

/-- The characters are in the buffer from `off` on. -/
def Spelled (b : Bytes) (off : Nat) (chars : List UInt8) : Prop :=
  ∀ k, k < chars.length → b (off + k) = chars.getD k 0

theorem Spelled.append (h : Spelled b off chars) (h' : Spelled b (off + chars.length) chars') :
    Spelled b off (chars ++ chars') := by
  intro k hk
  rw [List.length_append] at hk
  by_cases hfirst : k < chars.length
  · rw [List.getD_append _ _ _ _ hfirst]
    exact h k hfirst
  · have hle : chars.length ≤ k := Nat.le_of_not_lt hfirst
    have hlast := h' (k - chars.length) (by omega)
    have hindex : off + chars.length + (k - chars.length) = off + k := by omega
    rw [hindex] at hlast
    rw [List.getD_append_right _ _ _ _ hle]
    exact hlast

theorem Spelled.moved (h : Spelled b off chars)
    (hsame : ∀ k, k < chars.length → b' (off' + k) = b (off + k)) : Spelled b' off' chars :=
  fun k hk => (hsame k hk).trans (h k hk)

theorem spelled_charsAt (b : Bytes) (n : Nat) : ∀ off, Spelled b off (charsAt b off n) := by
  induction n with
  | zero =>
      intro off k hk
      cases hk
  | succ n ih =>
      intro off k hk
      rw [charsAt] at hk ⊢
      split at hk
      · cases hk
      · next hne =>
        rw [if_neg hne]
        cases k with
        | zero => rfl
        | succ k =>
            rw [List.getD_cons_succ, ← ih (off + 1) k (Nat.lt_of_succ_lt_succ hk)]
            congr 1
            omega

end Spelling

section Buffer

/-- The names with a slash behind each. -/
def pathTail (names : List CString) : List UInt8 :=
  names.flatMap fun name => name.chars ++ [slashChar]

/-- The path of the directory that the names lead to. -/
def pathChars (names : List CString) : List UInt8 :=
  slashChar :: pathTail names

/-- The loop has put the names at the end of the buffer of `iob`. -/
structure Collected (iob : Iobuf) (names : List CString) (c : Climbed) : Prop where
  resid : c.resid + (pathTail names).length + 2 = iob.resid
  ptr : c.ptr = iobufUsed iob + c.resid + 2
  spelled : Spelled c.buf c.ptr (pathTail names)
  outside : ∀ k, (k < iobufUsed iob ∨ iobufUsed iob + iob.resid ≤ k) → c.buf k = iob.buf k

variable {iob : Iobuf} {names : List CString} {c : Climbed} {name : CString} {entry : Bytes}

theorem pathTail_cons (name : CString) (names : List CString) :
    pathTail (name :: names) = name.chars ++ [slashChar] ++ pathTail names :=
  List.flatMap_cons

theorem pathTail_append (names names' : List CString) :
    pathTail (names ++ names') = pathTail names ++ pathTail names' :=
  List.flatMap_append

theorem collected_start (hmore : 2 < iob.resid) :
    Collected iob [] { buf := iob.buf, ptr := iobufUsed iob + iob.resid, resid := iob.resid - 2 } where
  resid := by
    change iob.resid - 2 + 0 + 2 = iob.resid
    omega
  ptr := by
    change iobufUsed iob + iob.resid = iobufUsed iob + (iob.resid - 2) + 2
    omega
  spelled k hk := absurd hk (Nat.not_lt_zero k)
  outside _ _ := rfl

/-- The next name is put before the others. -/
theorem Collected.putName (h : Collected iob names c) (hname : direntName entry = name)
    (hroom : name.length + 1 ≤ c.resid) : Collected iob (name :: names) (putName c entry) := by
  have hlen : name.chars.length = name.length := rfl
  have hresid := h.resid
  have hptr := h.ptr
  have htail : (pathTail (name :: names)).length = name.length + 1 + (pathTail names).length := by
    rw [pathTail_cons, List.length_append, List.length_append, List.length_singleton, hlen]
  have hput : SfsNamefile.putName c entry =
      { buf := Function.update (copyBytes c.buf (c.ptr - (name.length + 1)) entry 4 name.length)
          (c.ptr - (name.length + 1) + name.length) slashChar
        ptr := c.ptr - (name.length + 1)
        resid := c.resid - (name.length + 1) } := by
    rw [SfsNamefile.putName, hname]
    rfl
  have hchars : Spelled entry 4 name.chars := by
    rw [← hname]
    exact spelled_charsAt entry _ 4
  rw [hput]
  constructor
  · rw [htail]
    change c.resid - (name.length + 1) + _ + 2 = iob.resid
    omega
  · change c.ptr - (name.length + 1) = iobufUsed iob + (c.resid - (name.length + 1)) + 2
    omega
  · rw [pathTail_cons]
    refine (Spelled.append ?_ ?_).append ?_
    · apply hchars.moved
      intro k hk
      change Function.update _ _ _ (c.ptr - (name.length + 1) + k) = _
      rw [hlen] at hk
      rw [Function.update_of_ne (by omega), copyBytes_of_mem (by omega) (by omega)]
      congr 1
      omega
    · intro k hk
      obtain rfl : k = 0 := Nat.lt_one_iff.mp hk
      exact Function.update_self ..
    · apply h.spelled.moved
      intro k hk
      have hindex : c.ptr - (name.length + 1) + (name.chars ++ [slashChar]).length + k =
          c.ptr + k := by
        rw [List.length_append, List.length_singleton, hlen]
        omega
      change Function.update _ _ _ (c.ptr - (name.length + 1) + _ + k) = _
      rw [hindex, Function.update_of_ne (by omega), copyBytes_of_not_mem (by omega)]
  · intro k hk
    change Function.update _ _ _ k = _
    rw [Function.update_of_ne (by omega), copyBytes_of_not_mem (by omega)]
    exact h.outside k hk

/-- What `sfs_namefile` does after its loop. -/
def moved (iob : Iobuf) (c : Climbed) : Bytes :=
  let alen := iob.resid - c.resid - 2
  let ptr := iobufUsed iob + 1
  let buf := copyBytes c.buf ptr c.buf c.ptr alen
  Function.update (Function.update buf (ptr - 1) slashChar) (ptr + alen) 0

/-- The path is at the start of the buffer. -/
theorem Collected.moved (h : Collected iob names c) :
    charsAt (moved iob c) (iobufUsed iob) iob.resid = pathChars names ∧
      ∀ k, (k < iobufUsed iob ∨ iobufUsed iob + iob.resid ≤ k) → moved iob c k = iob.buf k := by
  have hresid := h.resid
  have hptr := h.ptr
  have halen : iob.resid - c.resid - 2 = (pathTail names).length := by omega
  have hmoved : SfsNamefileRuns.moved iob c = Function.update (Function.update
      (copyBytes c.buf (iobufUsed iob + 1) c.buf c.ptr (pathTail names).length)
        (iobufUsed iob) slashChar) (iobufUsed iob + 1 + (pathTail names).length) 0 := by
    rw [← halen]
    rfl
  have hlen : (pathChars names).length = (pathTail names).length + 1 := List.length_cons
  rw [hmoved]
  constructor
  · apply charsAt_eq
    · change Spelled _ _ ([slashChar] ++ pathTail names)
      apply Spelled.append
      · intro k hk
        obtain rfl : k = 0 := Nat.lt_one_iff.mp hk
        rw [Function.update_of_ne (by omega)]
        exact Function.update_self ..
      · apply h.spelled.moved
        intro k hk
        rw [List.length_singleton, Function.update_of_ne (by omega),
          Function.update_of_ne (by omega), copyBytes_of_mem (by omega) (by omega)]
        congr 1
        omega
    · intro char hchar
      rcases List.mem_cons.mp hchar with rfl | hmem
      · decide
      · obtain ⟨name, _, hname⟩ := List.mem_flatMap.mp hmem
        rcases List.mem_append.mp hname with hchar | hslash
        · exact name.nonzero char hchar
        · rw [List.mem_singleton.mp hslash]
          decide
    · rw [hlen]
      have hindex : iobufUsed iob + ((pathTail names).length + 1) =
          iobufUsed iob + 1 + (pathTail names).length := by omega
      rw [hindex]
      exact Function.update_self ..
    · omega
  · intro k hk
    rw [Function.update_of_ne (by omega), Function.update_of_ne (by omega),
      copyBytes_of_not_mem (by omega)]
    exact h.outside k hk

end Buffer

section Climbing

/-- The lookups on the way to the root find memory. -/
def Supplied (sfs : SfsFs) : Nat → Nat → (Nat → Memory) → Prop
  | 0, _, memory => (memory 0).entry ≠ none
  | depth + 1, dir, memory =>
      ((memory 0).entry ≠ none ∧ ((memory 0).inode = true ∨ above sfs dir ∈ sfs.inodeList)) ∧
        Supplied sfs depth (above sfs dir) fun i => memory (i + 1)

/-- The loop, begun in `s₀`, holds a reference to a directory at the depth. -/
structure Climbing (usage : Usage) (root : Nat) (s₀ s : VfsState) (dir depth : Nat) : Prop where
  counted : Counted usage (refs s₀) s
  kept : AllKept usage s₀.sfs s.sfs
  holds : refs s = refs s₀ + Pi.single dir 1
  higher : ∀ n names, PathTo s₀.sfs root n names → names.length < depth →
    (n ∈ s.sfs.inodeList ↔ n ∈ s₀.sfs.inodeList)

/-- How the loop ends; `enough` says whether it has found memory. -/
def Ended (iob : Iobuf) (names : List CString) (enough : Prop) (r : Except Errno Unit)
    (c : Climbed) : Prop :=
  r = .ok () ∧ Collected iob names c ∧ enough ∨
    r = .error .eNoMem ∧
      (∀ k, (k < iobufUsed iob ∨ iobufUsed iob + iob.resid ≤ k) → c.buf k = iob.buf k) ∧
      ¬((pathTail names).length + 2 ≤ iob.resid ∧ enough)

variable {usage : Usage} {sfs sfs' : SfsFs} {root : Nat} {s₀ s : VfsState} {dir parent depth : Nat}
  {names : List CString} {memory : Nat → Memory} {iob : Iobuf}

theorem Climbing.held (h : Climbing usage root s₀ s dir depth) : refs s₀ dir < refs s dir := by
  rw [h.holds, Pi.add_apply, Pi.single_eq_same]
  exact Nat.lt_succ_self _

theorem Climbing.loaded (h : Climbing usage root s₀ s dir depth) : dir ∈ s.sfs.inodeList :=
  h.counted.cached dir (Nat.zero_lt_of_lt h.held)

theorem Climbing.inode (h : Climbing usage root s₀ s dir depth) : usage.inode dir :=
  h.counted.settled.wf.loaded dir h.loaded

/-- The exits of the loop give the reference back. -/
theorem Climbing.dropped (h : Climbing usage root s₀ s dir depth) :
    ∃ s', inodeRefDec dir s = .ok (.ok (), s') ∧ refs s' = refs s₀ := by
  obtain ⟨s', hdec, hrefs, _, _⟩ := inodeRefDec_drops h.counted h.held
  rw [h.holds] at hrefs
  exact ⟨s', hdec, add_right_cancel hrefs⟩

/-- The loop goes from a directory to its parent. -/
theorem Climbing.climbed (h : Climbing usage root s₀ s dir (names.length + 1))
    (hwf : WellFormed s₀.sfs usage) (hdir : Directory s₀.sfs dir parent)
    (hpath : ∀ {names'}, PathTo s₀.sfs root dir names' → names'.length = names.length + 1)
    (hparent : PathTo s₀.sfs root parent names) (hentry : (memory 0).entry ≠ none)
    (hinode : (memory 0).inode = true ∨ parent ∈ s₀.sfs.inodeList) :
    ∃ s₁ s₂, lookupOnceIn dir dotdot (memory 0) s = .ok (.ok parent, s₁) ∧
      inodeRefDec dir s₁ = .ok (.ok (), s₂) ∧
      Climbing usage root s₀ s₂ parent names.length := by
  obtain ⟨above, habove⟩ := hparent.directory
  have hdir' := hdir.kept h.kept hwf h.inode
  have hparent' := habove.kept h.kept hwf (hdir'.inode h.counted.settled h.inode)
  have hinode' : (memory 0).inode = true ∨ parent ∈ s.sfs.inodeList :=
    hinode.imp_right (h.higher parent names hparent (Nat.lt_succ_self _)).mpr
  obtain ⟨s₁, hlook, hrefs₁, hcounted₁, haround₁⟩ :=
    lookupOnceIn_takes h.counted h.loaded hdir' hparent' hentry hinode'
  have hheld₁ : refs s₀ dir < refs s₁ dir := by
    rw [hrefs₁, Pi.add_apply]
    exact Nat.lt_of_lt_of_le h.held (Nat.le_add_right _ _)
  obtain ⟨s₂, hdec, hrefs₂, hcounted₂, haround₂⟩ := inodeRefDec_drops hcounted₁ hheld₁
  refine ⟨s₁, s₂, hlook, hdec, hcounted₂,
    (h.kept.trans haround₁.kept hwf).trans haround₂.kept hwf, ?_, ?_⟩
  · rw [hrefs₁, h.holds, add_right_comm] at hrefs₂
    exact add_right_cancel hrefs₂
  · intro n names' hn hlen
    have hne : n ≠ dir := by
      rintro rfl
      have hdepth := hpath hn
      omega
    have hne' : n ≠ parent := by
      rintro rfl
      have hdepth := hparent.depth hn
      omega
    rw [haround₂.list n hne, haround₁.list n hne']
    exact h.higher n names' hn (Nat.lt_succ_of_lt hlen)

/-- The last round finds the root to be its own parent. -/
theorem Climbing.atRoot (h : Climbing usage root s₀ s root depth) (hwf : WellFormed s₀.sfs usage)
    (hroot : Directory s₀.sfs root root) (hentry : (memory 0).entry ≠ none) :
    ∃ s₁ s₂ s₃, lookupOnceIn root dotdot (memory 0) s = .ok (.ok root, s₁) ∧
      inodeRefDec root s₁ = .ok (.ok (), s₂) ∧ inodeRefDec root s₂ = .ok (.ok (), s₃) ∧
      refs s₃ = refs s₀ := by
  have hroot' := hroot.kept h.kept hwf h.inode
  obtain ⟨s₁, hlook, hrefs₁, hcounted₁, _⟩ :=
    lookupOnceIn_takes h.counted h.loaded hroot' hroot' hentry (.inr h.loaded)
  have hheld₁ : refs s₀ root < refs s₁ root := by
    rw [hrefs₁, Pi.add_apply]
    exact Nat.lt_of_lt_of_le h.held (Nat.le_add_right _ _)
  obtain ⟨s₂, hdec, hrefs₂, hcounted₂, _⟩ := inodeRefDec_drops hcounted₁ hheld₁
  have hsame : refs s₂ = refs s := add_right_cancel (hrefs₂.trans hrefs₁)
  have hheld₂ : refs s₀ root < refs s₂ root := by
    rw [hsame]
    exact h.held
  obtain ⟨s₃, hdec', hrefs₃, _, _⟩ := inodeRefDec_drops hcounted₂ hheld₂
  rw [hsame, h.holds] at hrefs₃
  exact ⟨s₁, s₂, s₃, hlook, hdec, hdec', add_right_cancel hrefs₃⟩

/-- The loop finds the name of the directory it comes from. -/
theorem Climbing.found (h : Climbing usage root s₀ s parent depth) (hwf : WellFormed s₀.sfs usage)
    (hparent : ∃ above, Directory s₀.sfs parent above) {slot : Nat} {name : CString}
    (hnames : Names s₀.sfs parent dir slot name)
    (hfirst : ∀ j, j < slot → direntIno (slotBlock s₀.sfs parent j) ≠ dir) (entry : Bytes) :
    (s.sfs.inode parent).din.type = SFS_TYPE_DIR ∧
      ∃ e, onSfs (sfsDirentFindinoNolock parent dir entry) s = .ok (.ok e, s) ∧
        direntName e = name := by
  obtain ⟨above, habove⟩ := hparent
  have hparent' := habove.kept h.kept hwf h.inode
  have hsame : ∀ j, j < (dinOf s₀.sfs parent).blocks →
      slotBlock s.sfs parent j = slotBlock s₀.sfs parent j :=
    fun j hj => h.kept.slotBlock hwf h.inode hj
  have hslot : slot < (dinOf s.sfs parent).blocks := by
    rw [(h.kept parent h.inode).din]
    exact hnames.slot_lt
  have hino : direntIno (slotBlock s.sfs parent slot) = dir := by
    rw [hsame slot hnames.slot_lt]
    exact hnames.ino
  have hfirst' : ∀ j, j < slot → direntIno (slotBlock s.sfs parent j) ≠ dir := by
    intro j hj
    rw [hsame j (lt_trans hj hnames.slot_lt)]
    exact hfirst j hj
  obtain ⟨e, hfind, hename⟩ := sfsDirentFindinoNolock_found h.counted.settled h.loaded
    hparent'.type hslot hino hfirst' entry
  rw [hsame slot hnames.slot_lt, hnames.spelled] at hename
  refine ⟨?_, e, ?_, hename⟩
  · rw [← dinOf_loaded h.loaded]
    exact hparent'.type
  · rw [onSfs, hfind]

/-- What the path does not leave room for after some names, it does not leave room for after
more of them. -/
theorem noRoom_of_suffix {done : List CString} {name : CString} {r n : Nat}
    (hfull : r < name.length + 1) (htotal : r + (pathTail done).length + 2 = n) (enough : Prop) :
    ¬((pathTail (names ++ [name] ++ done)).length + 2 ≤ n ∧ enough) := by
  rintro ⟨hfit, _⟩
  have hlen : name.chars.length = name.length := rfl
  have hall : (pathTail (names ++ [name] ++ done)).length =
      (pathTail names).length + (name.length + 1) + (pathTail done).length := by
    rw [pathTail_append, pathTail_append, List.length_append, List.length_append, pathTail_cons,
      List.length_append, List.length_append, List.length_singleton, hlen]
    rfl
  omega

/-- The loop climbs to the root and collects the names, unless it runs out of memory or of
room. -/
theorem climb_ended (hwf : WellFormed s₀.sfs usage) (hpath : PathTo s₀.sfs root dir names) :
    ∀ {fuel : Nat} {memory : Nat → Memory} {entry : Bytes} {c : Climbed} {done : List CString}
      {s : VfsState}, names.length < fuel → Climbing usage root s₀ s dir names.length →
      Collected iob done c → ∃ r c' s', climb fuel memory dir entry c s = .ok (.ok (r, c'), s') ∧
        refs s' = refs s₀ ∧
        Ended iob (names ++ done) (Supplied s₀.sfs names.length dir memory) r c' := by
  induction hpath with
  | root hroot =>
      intro fuel memory entry c done s hfuel h hcollected
      obtain ⟨fuel, rfl⟩ : ∃ m, fuel = m + 1 := Nat.exists_eq_succ_of_ne_zero (by omega)
      by_cases hentry : (memory 0).entry ≠ none
      · obtain ⟨s₁, s₂, s₃, hlook, hdec, hdec', hrefs⟩ := h.atRoot hwf hroot hentry
        refine ⟨.ok (), c, s₃, ?_, hrefs, .inl ⟨rfl, hcollected, hentry⟩⟩
        rw [climb, attempt_bind_of_ok hlook]
        refine (bind_of_ok hdec).trans ?_
        refine (congrFun (if_pos rfl) s₂).trans ?_
        rw [bind_of_ok hdec']
        rfl
      · have hroot' := hroot.kept h.kept hwf h.inode
        have hlook := lookupOnceIn_fails h.counted.settled h.loaded hroot'
          (fun hfound => hentry hfound.1)
        obtain ⟨s', hdec, hrefs⟩ := h.dropped
        refine ⟨.error .eNoMem, c, s', ?_, hrefs,
          .inr ⟨rfl, hcollected.outside, fun hboth => hentry hboth.2⟩⟩
        rw [climb, attempt_bind_of_ok hlook]
        refine (bind_of_ok hdec).trans ?_
        rfl
  | @sub parent dir slot names name hparent hdir hne hnames honly ih =>
      intro fuel memory entry c done s hfuel h hcollected
      have hpath : PathTo s₀.sfs root dir (names ++ [name]) := .sub hparent hdir hne hnames honly
      have hlen : (names ++ [name]).length = names.length + 1 := by
        rw [List.length_append, List.length_singleton]
      rw [hlen] at hfuel h ⊢
      obtain ⟨fuel, rfl⟩ : ∃ m, fuel = m + 1 := Nat.exists_eq_succ_of_ne_zero (by omega)
      have hdir' := hdir.kept h.kept hwf h.inode
      by_cases hfound : (memory 0).entry ≠ none ∧
          ((memory 0).inode = true ∨ parent ∈ s₀.sfs.inodeList)
      · obtain ⟨s₁, s₂, hlook, hdec, hclimbing⟩ := h.climbed hwf hdir
          (fun hn => (hpath.depth hn).trans hlen) hparent hfound.1 hfound.2
        obtain ⟨hself, hfirst⟩ := hparent.first_slot hdir hne hnames honly
        obtain ⟨htype, e, hrun, hename⟩ :=
          hclimbing.found hwf hparent.directory hnames hfirst entry
        have hsupplied : Supplied s₀.sfs (names.length + 1) dir memory ↔
            Supplied s₀.sfs names.length parent fun i => memory (i + 1) := by
          rw [Supplied, hdir.above_eq]
          exact and_iff_right hfound
        have hstart : climb (fuel + 1) memory dir entry c s = (if c.resid < name.length + 1 then do
              inodeRefDec parent
              return (.error .eNoMem, c)
            else
              climb fuel (fun i => memory (i + 1)) parent e (putName c e) :
                Routine VfsState (Except Errno Unit × Climbed)) s₂ := by
          rw [climb, attempt_bind_of_ok hlook]
          refine (bind_of_ok hdec).trans ?_
          refine (congrFun (if_neg hself) s₂).trans ?_
          rw [getState_bind, ensure_bind_of ⟨hself, htype⟩, attempt_bind_of_ok hrun]
          simp only
          rw [hename]
        rw [hstart]
        by_cases hroom : c.resid < name.length + 1
        · obtain ⟨s', hdec', hrefs⟩ := hclimbing.dropped
          refine ⟨.error .eNoMem, c, s', ?_, hrefs, .inr ⟨rfl, hcollected.outside, ?_⟩⟩
          · rw [if_pos hroom, bind_of_ok hdec']
            rfl
          · exact noRoom_of_suffix hroom hcollected.resid _
        · obtain ⟨r, c', s', hclimb, hrefs, hended⟩ := @ih fuel (fun i => memory (i + 1)) e
            (putName c e) (name :: done) s₂ (by omega) hclimbing
            (hcollected.putName hename (Nat.le_of_not_lt hroom))
          refine ⟨r, c', s', ?_, hrefs, ?_⟩
          · rw [if_neg hroom]
            exact hclimb
          · rw [List.append_assoc, hsupplied]
            exact hended
      · have hlacks := hfound
        rw [← h.higher parent names hparent (Nat.lt_succ_self _)] at hlacks
        have hlook := lookupOnceIn_fails h.counted.settled h.loaded hdir' hlacks
        obtain ⟨s', hdec, hrefs⟩ := h.dropped
        refine ⟨.error .eNoMem, c, s', ?_, hrefs, .inr ⟨rfl, hcollected.outside, ?_⟩⟩
        · rw [climb, attempt_bind_of_ok hlook]
          refine (bind_of_ok hdec).trans ?_
          rfl
        · rintro ⟨_, hsupplied⟩
          rw [Supplied, hdir.above_eq] at hsupplied
          exact hfound hsupplied.1

end Climbing

section Calls

/-- The path of the directory and its NUL fit in the buffer. -/
def Fits (names : List CString) (iob : Iobuf) : Prop :=
  (pathChars names).length + 1 ≤ iob.resid

/-- `sfs_namefile` returns, writes only into the buffer and keeps no reference; it puts the path
there when it fits, and otherwise returns `-E_NO_MEM`. -/
def NamesRight (s : VfsState) (dir : Nat) (names : List CString) (iob : Iobuf)
    (kmalloced : Option Bytes) (memory : Nat → Memory) : Prop :=
  ∃ n, ∀ fuel, n ≤ fuel → ∃ r iob' s',
    sfsNamefile fuel dir iob kmalloced memory s = .ok (.ok (r, iob'), s') ∧ refs s' = refs s ∧
      (∀ k, (k < iobufUsed iob ∨ iobufUsed iob + iob.resid ≤ k) → iob'.buf k = iob.buf k) ∧
      (Fits names iob →
        r = .ok () ∧ charsAt iob'.buf (iobufUsed iob) iob.resid = pathChars names) ∧
      (¬Fits names iob → r = .error .eNoMem)

variable {usage : Usage} {root : Nat} {s : VfsState} {dir fuel : Nat} {names : List CString}
  {iob : Iobuf} {kmalloced : Option Bytes} {memory : Nat → Memory}

theorem fits_iff : Fits names iob ↔ (pathTail names).length + 2 ≤ iob.resid := by
  have hlen : (pathChars names).length = (pathTail names).length + 1 := List.length_cons
  rw [Fits, hlen]

/-- The first reference of `sfs_namefile`. -/
theorem climbing_start (h : Counted usage (refs s) s) (hheld : 0 < refs s dir) (depth : Nat) :
    Climbing usage root s (s.setCounts dir
      { s.counts dir with refCount := (s.counts dir).refCount + 1 }) dir depth where
  counted := h.setCounts (fun _ => h.cached dir hheld) (h.opens dir) fun _ => h.reclaims dir hheld
  kept := AllKept.refl usage s.sfs
  holds := refs_taken rfl
  higher _ _ _ _ := Iff.rfl

theorem sfsNamefile_small (hless : iob.resid ≤ 2) :
    sfsNamefile fuel dir iob kmalloced memory s = .ok (.ok (.error .eNoMem, iob), s) := by
  unfold sfsNamefile
  exact congrFun (if_pos hless) s

theorem sfsNamefile_none : sfsNamefile fuel dir iob none memory s =
    .ok (.ok (.error .eNoMem, iob), s) := by
  unfold sfsNamefile
  split
  · rfl
  · rfl

/-- What `sfs_namefile` returns with the memory for an entry and more than two bytes. -/
theorem sfsNamefile_returns (h : Counted usage (refs s) s) (hheld : 0 < refs s dir)
    (hpath : PathTo s.sfs root dir names) (hmore : 2 < iob.resid) (hfuel : names.length < fuel)
    (entry : Bytes) :
    ∃ r iob' s', sfsNamefile fuel dir iob (some entry) memory s = .ok (.ok (r, iob'), s') ∧
      refs s' = refs s ∧
      (∀ k, (k < iobufUsed iob ∨ iobufUsed iob + iob.resid ≤ k) → iob'.buf k = iob.buf k) ∧
      (r = .ok () ∧ charsAt iob'.buf (iobufUsed iob) iob.resid = pathChars names ∧
          Fits names iob ∧ Supplied s.sfs names.length dir memory ∨
        r = .error .eNoMem ∧
          ¬(Fits names iob ∧ Supplied s.sfs names.length dir memory)) := by
  obtain ⟨r, c, s', hclimb, hrefs, hended⟩ := @climb_ended usage root s dir names iob
    h.settled.wf hpath fuel memory entry _ [] _ hfuel (climbing_start h hheld _)
    (collected_start hmore)
  have hinc : inodeRefInc dir s = .ok (.ok (), s.setCounts dir
      { s.counts dir with refCount := (s.counts dir).refCount + 1 }) := rfl
  rw [List.append_nil] at hended
  rw [sfsNamefile, if_neg (Nat.not_le_of_lt hmore), bind_of_ok hinc, bind_of_ok hclimb]
  rcases hended with ⟨rfl, hcollected, henough⟩ | ⟨rfl, houtside, hnot⟩
  · obtain ⟨hspelled, houtside⟩ := hcollected.moved
    have hresid := hcollected.resid
    have hskip : iob.resid - c.resid - 2 ≤ iob.resid := by omega
    have hrun : onSfs (iobufSkip { iob with buf := moved iob c } (iob.resid - c.resid - 2)) s' =
        .ok (.ok { iob with
          buf := moved iob c
          offset := iob.offset + ((iob.resid - c.resid - 2 : Nat) : Int)
          resid := iob.resid - (iob.resid - c.resid - 2) }, s') := by
      rw [onSfs, iobufSkip, ensure_bind_of hskip]
      rfl
    refine ⟨.ok (), { iob with
      buf := moved iob c
      offset := iob.offset + ((iob.resid - c.resid - 2 : Nat) : Int)
      resid := iob.resid - (iob.resid - c.resid - 2) }, s', ?_, hrefs, houtside,
      .inl ⟨rfl, hspelled, ?_, henough⟩⟩
    · exact bind_of_ok hrun
    · rw [fits_iff]
      omega
  · refine ⟨.error .eNoMem, _, s', rfl, hrefs, houtside, .inr ⟨rfl, ?_⟩⟩
    rwa [fits_iff]

/-- The guard of `sfs_namefile` refuses a buffer of two bytes, which has room for the path of the
root; every other path that fits is returned, when there is memory for the lookups. -/
theorem sfsNamefile_right_iff (h : Counted usage (refs s) s) (hheld : 0 < refs s dir)
    (hpath : PathTo s.sfs root dir names) :
    NamesRight s dir names iob kmalloced memory ↔ ¬Fits names iob ∨
      ¬(names = [] ∧ iob.resid = 2) ∧ kmalloced ≠ none ∧
        Supplied s.sfs names.length dir memory := by
  constructor
  · rintro ⟨n, hright⟩
    by_contra hfails
    rw [not_or, not_not] at hfails
    obtain ⟨hfits, hcondition⟩ := hfails
    obtain ⟨r, iob', s', hrun, _, _, hok, _⟩ :=
      hright (max n (names.length + 1)) (Nat.le_max_left _ _)
    obtain ⟨rfl, _⟩ := hok hfits
    rcases Nat.lt_or_ge 2 iob.resid with hmore | hless
    · cases kmalloced with
      | none =>
          rw [sfsNamefile_none] at hrun
          cases hrun
      | some entry =>
          obtain ⟨r', iob'', s'', hrun', _, _, hended⟩ :=
            @sfsNamefile_returns usage root s dir (max n (names.length + 1)) names iob memory h
              hheld hpath hmore (Nat.lt_of_lt_of_le (Nat.lt_succ_self _) (Nat.le_max_right _ _))
              entry
          rw [hrun] at hrun'
          cases hrun'
          rcases hended with ⟨_, _, _, hsupplied⟩ | ⟨herror, _⟩
          · apply hcondition
            refine ⟨?_, nofun, hsupplied⟩
            rintro ⟨_, htwo⟩
            omega
          · cases herror
    · rw [sfsNamefile_small hless] at hrun
      cases hrun
  · intro hcondition
    refine ⟨names.length + 1, fun fuel hfuel => ?_⟩
    rcases Nat.lt_or_ge 2 iob.resid with hmore | hless
    · cases kmalloced with
      | none =>
          have hnot : ¬Fits names iob := hcondition.resolve_right fun hall => hall.2.1 rfl
          exact ⟨_, iob, s, sfsNamefile_none, rfl, fun _ _ => rfl, fun hfits => absurd hfits hnot,
            fun _ => rfl⟩
      | some entry =>
          obtain ⟨r, iob', s', hrun, hrefs, houtside, hended⟩ :=
            @sfsNamefile_returns usage root s dir fuel names iob memory h hheld hpath hmore hfuel
              entry
          refine ⟨r, iob', s', hrun, hrefs, houtside, ?_⟩
          rcases hended with ⟨rfl, hspelled, hfits, _⟩ | ⟨rfl, hnot⟩
          · exact ⟨fun _ => ⟨rfl, hspelled⟩, fun hnot => absurd hfits hnot⟩
          · refine ⟨fun hfits => ?_, fun _ => rfl⟩
            have hall := hcondition.resolve_left (not_not.mpr hfits)
            exact absurd ⟨hfits, hall.2.2⟩ hnot
    · have hnot : ¬Fits names iob := by
        intro hfits
        have hall := hcondition.resolve_left (not_not.mpr hfits)
        have hlen := fits_iff.mp hfits
        apply hall.1
        refine ⟨?_, by omega⟩
        cases names with
        | nil => rfl
        | cons name names =>
            rw [pathTail_cons, List.length_append, List.length_append,
              List.length_singleton] at hlen
            omega
      exact ⟨_, iob, s, sfsNamefile_small hless, rfl, fun _ _ => rfl,
        fun hfits => absurd hfits hnot, fun _ => rfl⟩

end Calls

section RootedVfs

/-- The entry `..` of the root. -/
def upEntry : Bytes :=
  Function.update (Function.update (putLE zeros 0 4 SFS_BLKN_ROOT) 4 46) 5 46

/-- `smallFs` with the entry of the root replaced. -/
def rootedDisk : SfsFs :=
  smallFs.setBlock 5 upEntry

/-- The root is in memory, and it is the working directory. -/
def rootedVfs : VfsState :=
  { smallVfs with sfs := withLoaded rootedDisk SFS_BLKN_ROOT }

/-- There is memory for every lookup. -/
def plenty (_ : Nat) : Memory :=
  { entry := some zeros, inode := true }

theorem plain_entry : Plain smallFs smallUsage 5 := by
  have hblocks : 0 < (dinOf smallFs SFS_BLKN_ROOT).blocks := by
    rw [dinOf_smallFs_root]
    exact Nat.one_pos
  have hplain := plain_of_data wellFormed_smallFs (Or.inl rfl) hblocks
  rwa [fileBlock_smallFs_root, if_pos rfl] at hplain

theorem dinOf_rootedDisk {f : Nat} (hf : smallUsage.inode f) :
    dinOf rootedDisk f = dinOf smallFs f :=
  dinOf_setBlock plain_entry hf _

theorem slotBlock_rootedDisk : slotBlock rootedDisk SFS_BLKN_ROOT 0 = upEntry := by
  rw [slotBlock, rootedDisk, fileBlock_setBlock plain_entry (Or.inl rfl) (by decide),
    fileBlock_smallFs_root, if_pos rfl]
  exact setBlock_block_self ..

theorem settled_rootedDisk : Settled smallUsage rootedDisk where
  wf := wellFormed_setBlock wellFormed_smallFs plain_entry _
  fits f hf := by
    rw [dinOf_rootedDisk hf]
    exact settled_smallFs.fits f hf
  covered f hf hregular := by
    rw [dinOf_rootedDisk hf] at hregular ⊢
    exact settled_smallFs.covered f hf hregular
  entries := by
    rintro d slot (rfl | rfl) htype hslot _
    · rw [dinOf_rootedDisk (Or.inl rfl), dinOf_smallFs_root] at hslot
      obtain rfl : slot = 0 := Nat.lt_one_iff.mp hslot
      rw [slotBlock_rootedDisk]
      exact Or.inl (by decide +kernel)
    · rw [dinOf_rootedDisk (Or.inr rfl), dinOf_smallFs] at htype
      cases htype
  clean f hf hdirty := by
    have hne : f ≠ 5 := by
      rintro rfl
      exact absurd hf (by decide)
    rw [rootedDisk, setBlock_block_ne hne]
    exact settled_smallFs.clean f hf hdirty
  linked := settled_smallFs.linked

theorem directory_rootedVfs : Directory rootedVfs.sfs SFS_BLKN_ROOT SFS_BLKN_ROOT := by
  have hdin : dinOf rootedVfs.sfs SFS_BLKN_ROOT = smallRoot := by
    rw [rootedVfs, dinOf_withLoaded, dinOf_rootedDisk (Or.inl rfl), dinOf_smallFs_root]
  have hslot : slotBlock rootedVfs.sfs SFS_BLKN_ROOT 0 = upEntry := by
    rw [← slotBlock_rootedDisk, slotBlock, slotBlock, fileBlock, fileBlock, rootedVfs,
      dinOf_withLoaded]
    rfl
  constructor
  · rw [hdin]
    rfl
  · rw [hdin]
    decide
  · rw [entryOf, hdin]
    change (findSlot _ dotdot [0]).map _ = _
    rw [findSlot_cons_found]
    · rw [hslot]
      decide +kernel
    · rw [hslot]
      decide +kernel
    · rw [hslot]
      decide +kernel
  · intro slot hlt _ hname
    rw [hdin] at hlt
    obtain rfl : slot = 0 := Nat.lt_one_iff.mp hlt
    rw [hslot] at hname
    revert hname
    decide +kernel
  · intro slot hlt _ _
    rw [hdin] at hlt
    obtain rfl : slot = 0 := Nat.lt_one_iff.mp hlt
    rw [hslot]
    decide +kernel

theorem counted_rootedVfs : Counted smallUsage (refs rootedVfs) rootedVfs where
  settled := by
    apply settled_withLoaded settled_rootedDisk (Or.inl rfl) (by decide)
    rw [dinOf_rootedDisk (Or.inl rfl), dinOf_smallFs_root]
    decide
  cached := balanced_smallVfs.cached
  opens n := by
    change (if n = SFS_BLKN_ROOT then _ else if n = 3 then _ else _ : InodeCounts).openCount ≤ _
    split
    · exact Nat.zero_le _
    · split
      · exact Nat.zero_le _
      · exact Nat.zero_le _
  reclaims n hn := by
    change 0 < (if n = SFS_BLKN_ROOT then _ else if n = 3 then _ else _ : InodeCounts).refCount at hn
    change 0 < (if n = SFS_BLKN_ROOT then _ else if n = 3 then _ else _ : InodeCounts).reclaimCount
    split
    · decide
    · next hroot =>
      split
      · decide
      · next hfile =>
        rw [if_neg hroot, if_neg hfile] at hn
        cases hn

/-- The path of the root in a buffer of three bytes. -/
theorem sfsNamefile_right_iff_rootedVfs :
    NamesRight rootedVfs SFS_BLKN_ROOT [] (iobufInit zeros 3 0) (some zeros) plenty := by
  apply (sfsNamefile_right_iff counted_rootedVfs (by decide) (.root directory_rootedVfs)).mpr
  exact .inr ⟨fun hboth => absurd hboth.2 (by decide), nofun, nofun⟩

/-- A buffer of two bytes is refused, though the path of the root and its NUL fit in it. -/
theorem sfsNamefile_refuses_root : Counted smallUsage (refs rootedVfs) rootedVfs ∧
    0 < refs rootedVfs SFS_BLKN_ROOT ∧ PathTo rootedVfs.sfs SFS_BLKN_ROOT SFS_BLKN_ROOT [] ∧
      Supplied rootedVfs.sfs 0 SFS_BLKN_ROOT plenty ∧ Fits [] (iobufInit zeros 2 0) ∧
      ¬NamesRight rootedVfs SFS_BLKN_ROOT [] (iobufInit zeros 2 0) (some zeros) plenty := by
  have hfits : Fits [] (iobufInit zeros 2 0) := by
    unfold Fits
    decide
  refine ⟨counted_rootedVfs, by decide, .root directory_rootedVfs, nofun, hfits, ?_⟩
  rintro ⟨n, hright⟩
  obtain ⟨r, iob', s', hrun, _, _, hok, _⟩ := hright n le_rfl
  obtain ⟨rfl, _⟩ := hok hfits
  rw [sfsNamefile_small (by decide)] at hrun
  cases hrun

end RootedVfs

end Ucore.SfsNamefileRuns
