import Ucore.LoadIcodePages

/-! The segments that `load_icode` puts into a new address space. -/

namespace Ucore.LoadIcodeSegments

open Ucore.Errors
open Ucore.Panic
open Ucore.KernelRoutine
open Ucore.DefaultPmm (PGSIZE)
open Ucore.PageTables
open Ucore.PageOwners (next pte next_of_valid)
open Ucore.AddressSpaces (Vma Spaces roundDown)
open Ucore.UserImages
open Ucore.LoadIcode
open Ucore.LoadIcodePages

variable {dirs : Finset Nat} {d p off n a la start stop : Nat} {perm : BitVec 32}
  {f : Nat → BitVec 8} {words : Index → Word} {s s' s'' : Loading} {m m' : Memory}

section Mapping

theorem keeps_memory {put : Spaces → Spaces} (h : ∀ t, (put t).memory = t.memory) :
    Preserves (fun t : Spaces => t.memory = m) (modifyState put) :=
  Preserves.modifyState fun t ht => (h t).trans ht

theorem checkVmaOverlap_memory (prev vma : Vma) :
    Preserves (fun t : Spaces => t.memory = m) (AddressSpaces.checkVmaOverlap prev vma) := by
  apply Preserves.ensure_bind
  apply Preserves.ensure_bind
  exact Preserves.ensure

theorem insertVmaStruct_memory (vma : Vma) :
    Preserves (fun t : Spaces => t.memory = m) (AddressSpaces.insertVmaStruct vma) := by
  apply Preserves.ensure_bind
  apply Preserves.getState
  intro s
  dsimp only
  split
  · split
    · exact keeps_memory fun _ => rfl
    · exact (checkVmaOverlap_memory _ _).bind fun _ => keeps_memory fun _ => rfl
  · refine (checkVmaOverlap_memory _ _).bind fun _ => ?_
    split
    · exact keeps_memory fun _ => rfl
    · exact (checkVmaOverlap_memory _ _).bind fun _ => keeps_memory fun _ => rfl

theorem vmaCreate_memory (vmStart vmEnd vmFlags : Nat) :
    Preserves (fun t : Spaces => t.memory = m) (AddressSpaces.vmaCreate vmStart vmEnd vmFlags) := by
  intro t r t' ht hrun
  rw [AddressSpaces.vmaCreate] at hrun
  split at hrun
  · cases hrun
    exact ht
  · cases hrun
    exact ht
  · cases hrun
    exact ht

theorem onSpace_same {α : Type} {x : Routine Spaces α} (mm : Nat)
    (hx : ∀ m, Preserves (fun t : Spaces => t.memory = m) x) {r : Except Errno α}
    (hrun : onPart (spaceOf mm) (putSpace mm) x s = .ok (r, s')) : SameFrames s s' := by
  obtain ⟨t, hrun', rfl⟩ := onPart_eq_ok hrun
  exact ⟨hx _ _ _ _ rfl hrun', rfl⟩

theorem mmMap_same {mm addr len vmFlags : Nat} {r : Except Errno Unit}
    (hrun : mmMap mm addr len vmFlags s = .ok (r, s')) : SameFrames s s' := by
  rw [mmMap] at hrun
  split at hrun
  · cases hrun
    exact ⟨rfl, rfl⟩
  · rw [getState_bind] at hrun
    split at hrun
    · cases hrun
      exact ⟨rfl, rfl⟩
    · rcases bind_eq_ok_iff.mp hrun with ⟨o, s₁, hcreate, hrest⟩ | ⟨e, hcreate, _⟩
      · have hsame := onSpace_same mm (fun _ => vmaCreate_memory _ _ _) hcreate
        cases o with
        | none =>
            cases hrest
            exact hsame
        | some vma =>
            have hsame' := onSpace_same mm (fun _ => insertVmaStruct_memory vma) hrest
            exact ⟨hsame'.1.trans hsame.1, hsame'.2.trans hsame.2⟩
      · exact onSpace_same mm (fun _ => vmaCreate_memory _ _ _) hcreate

end Mapping

section Segments

variable {file : File} {ph : ProgHdr} {fuel page page' : Nat}

/-- What a segment has at an address. -/
def segmentByte (file : File) (ph : ProgHdr) (a : Nat) : BitVec 8 :=
  if a < ph.pVa + ph.pFilesz then (file.bytes (ph.pOffset + (a - ph.pVa))).toBitVec else 0

/-- The address is in the pages of the segment. -/
def InPages (ph : ProgHdr) (a : Nat) : Prop :=
  roundDown ph.pVa PGSIZE ≤ a ∧ a < roundUp (ph.pVa + ph.pMemsz) PGSIZE

/-- What the program header says of the address space. -/
structure Loaded (file : File) (d : Nat) (ph : ProgHdr) (m : Memory) : Prop where
  bytes : ∀ k < ph.pMemsz, userByte m d (ph.pVa + k) = some (segmentByte file ph (ph.pVa + k))
  pages : ∀ k < ph.pMemsz, MappedWith d (segmentPerm (segmentFlags ph)) m (ph.pVa + k)

theorem segmentPerm_lt (vmFlags : Nat) : (segmentPerm vmFlags).toNat < 2 ^ 10 := by
  rw [segmentPerm]
  split
  all_goals split
  all_goals split
  all_goals decide

theorem word_of {n : Nat} (h : n ≤ USERTOP) : word n = n := by
  change n ≤ 2147483648 at h
  rw [word]
  omega

theorem roundUp_bounds (h : a ≤ USERTOP) : a ≤ roundUp a PGSIZE ∧ roundUp a PGSIZE < a + PGSIZE ∧
    roundUp a PGSIZE % PGSIZE = 0 := by
  change a ≤ 2147483648 at h
  show a ≤ (a + 4096 - 1) % 2 ^ 64 - (a + 4096 - 1) % 2 ^ 64 % 4096 ∧
    (a + 4096 - 1) % 2 ^ 64 - (a + 4096 - 1) % 2 ^ 64 % 4096 < a + 4096 ∧
    ((a + 4096 - 1) % 2 ^ 64 - (a + 4096 - 1) % 2 ^ 64 % 4096) % 4096 = 0
  omega

/-- All of the segment is in place. -/
theorem loaded_of_progress (h : Progress dirs d (segmentPerm (segmentFlags ph)) (segmentByte file ph)
      ph.pVa m (ph.pVa + ph.pMemsz) s ⟨start, la, page⟩)
    (huser : ph.pVa + ph.pMemsz ≤ USERTOP) (hend : start = ph.pVa + ph.pMemsz) :
    Quiet dirs s ∧ Loaded file d ph s.swapping.memory ∧
      Unchanged d (fun a => ¬InPages ph a) m s.swapping.memory := by
  obtain ⟨hle, hlt, hmod⟩ := roundUp_bounds huser
  have hdown := (roundDown_bounds ph.pVa).1
  have hpages : ∀ k < ph.pMemsz, ph.pVa + k < la := by
    intro k hk
    rcases h.place with ⟨hfresh, _⟩ | ⟨hfollows, _⟩
    · change start = ph.pVa at hfresh
      omega
    · have hhigh : start ≤ la := hfollows.high
      omega
  have htop : la ≤ roundUp (ph.pVa + ph.pMemsz) PGSIZE := by
    rcases h.place with ⟨_, hfresh⟩ | ⟨hfollows, _⟩
    · change la = roundDown ph.pVa PGSIZE at hfresh
      omega
    · have hlow : la - PGSIZE < start := hfollows.low
      have haligned : la % PGSIZE = 0 := h.placed.aligned
      change la - 4096 < start at hlow
      change la % 4096 = 0 at haligned
      change roundUp _ _ % 4096 = 0 at hmod
      omega
  refine ⟨h.placed.quiet, ⟨fun k hk => ?_, fun k hk => ?_⟩, h.placed.others.mono ?_⟩
  · exact h.placed.bytes _ (by omega) (show ph.pVa + k < start by omega)
  · exact h.placed.mapped _ (by omega) (hpages k hk)
  · intro a ha
    show a < roundDown ph.pVa PGSIZE ∨ la ≤ a
    by_contra hnot
    exact ha ⟨by omega, by omega⟩

theorem inPages_lt (huser : ph.pVa + ph.pMemsz ≤ USERTOP) (h : InPages ph a) : a < USERTOP := by
  obtain ⟨_, hlt, hmod⟩ := roundUp_bounds huser
  have hin := h.2
  change _ ≤ 2147483648 at huser
  change _ < _ + 4096 at hlt
  change _ % 4096 = 0 at hmod
  show a < 2147483648
  omega

/-- A segment is loaded where its pages are not mapped yet, and nothing else changes. -/
theorem loadSegment_of (h : Quiet dirs s) (hd : d ∈ dirs) (hfit : ph.pFilesz ≤ ph.pMemsz)
    (huser : ph.pVa + ph.pMemsz ≤ USERTOP)
    (hempty : ∀ a, InPages ph a → pte s.swapping.memory d a = 0)
    (hrun : loadSegment file fuel d ph page s = .ok (.ok page', s')) :
    Quiet dirs s' ∧ Loaded file d ph s'.swapping.memory ∧
      Unchanged d (fun a => ¬InPages ph a) s.swapping.memory s'.swapping.memory := by
  have hvacant : Vacant d (segmentPerm (segmentFlags ph)) ph.pVa (ph.pVa + ph.pMemsz)
      s.swapping.memory := by
    refine ⟨segmentPerm_lt _, huser, fun a hlow hhigh => hempty a ⟨hlow, ?_⟩⟩
    have hle := (roundUp_bounds huser).1
    omega
  have hfile : ∀ a, ph.pVa ≤ a → a < ph.pVa + ph.pFilesz → segmentByte file ph a =
      (file.bytes (ph.pOffset + (a - ph.pVa))).toBitVec :=
    fun a _ hlt => if_pos hlt
  have hzero : ∀ a, ph.pVa + ph.pFilesz ≤ a → a < ph.pVa + ph.pMemsz → segmentByte file ph a = 0 :=
    fun a hge _ => if_neg (by omega)
  rw [loadSegment] at hrun
  dsimp only at hrun
  rw [word_of (show ph.pVa + ph.pFilesz ≤ USERTOP by omega), word_of huser] at hrun
  rcases bind_eq_ok_iff.mp hrun with ⟨_, s₁, hmap, hrest⟩ | ⟨e, _, he⟩
  · have hsame := mmMap_same hmap
    have hstart : Progress dirs d (segmentPerm (segmentFlags ph)) (segmentByte file ph) ph.pVa
        s.swapping.memory (ph.pVa + ph.pFilesz) s₁ ⟨ph.pVa, roundDown ph.pVa PGSIZE, page⟩ := by
      obtain ⟨hdown, _, hmod⟩ := roundDown_bounds ph.pVa
      refine ⟨⟨h.congr hsame, hmod, le_rfl, ?_, ?_, ?_⟩, le_rfl, Nat.le_add_right _ _,
        Or.inl ⟨rfl, rfl⟩⟩
      · rw [hsame.1]
        exact Unchanged.refl _ _ _
      · intro a hge hlt
        change a < roundDown ph.pVa PGSIZE at hlt
        omega
      · intro a hge hlt
        change a < ph.pVa at hlt
        omega
    rcases bind_eq_ok_iff.mp hrest with ⟨c, s₂, hpart, hrest⟩ | ⟨e, _, he⟩
    · obtain ⟨hprogress, hend⟩ := filePart_of file hvacant hd (by omega) hfile fuel _ _ s₁ hstart
        (by show ph.pOffset = ph.pOffset + (ph.pVa - ph.pVa); omega) hpart
      -- where the file part ends decides how the rest of its page is cleared
      split at hrest
      · next hinside =>
          split at hrest
          · next hall =>
              cases hrest
              exact loaded_of_progress (hprogress.widen (by omega) (Or.inr (Or.inl hall))) huser hall
          · rcases bind_eq_ok_iff.mp hrest with ⟨c₁, s₃, hhead, hrest⟩ | ⟨e, _, he⟩
            · obtain ⟨hprogress₁, hle⟩ := bssHead_of hprogress hvacant hd hinside (by omega) le_rfl
                (by rw [hend]; exact hzero) hhead
              rcases bind_eq_ok_iff.mp hrest with ⟨c₂, s₄, hbss, hret⟩ | ⟨e, _, he⟩
              · cases hret
                obtain ⟨hprogress₂, hend₂⟩ := bssPart_of hvacant hd le_rfl hzero fuel _ _ hprogress₁
                  (by omega) hbss
                exact loaded_of_progress hprogress₂ huser hend₂
              · cases he
            · cases he
      · next houtside =>
          rcases bind_eq_ok_iff.mp hrest with ⟨c₂, s₄, hbss, hret⟩ | ⟨e, _, he⟩
          · cases hret
            obtain ⟨hprogress₂, hend₂⟩ := bssPart_of hvacant hd le_rfl hzero fuel _ _
              (hprogress.widen (by omega) (Or.inr (Or.inr (by omega)))) (by omega) hbss
            exact loaded_of_progress hprogress₂ huser hend₂
          · cases he
    · cases he
  · cases he

end Segments

section Program

variable {file : File} {fuel page : Nat} {nums : List Nat}

/-- The program header of this number. -/
def segment (file : File) (phnum : Nat) : ProgHdr :=
  progHdr file (phoffOf file phnum)

/-- The program header of this number is one of type `ELF_PT_LOAD`. -/
def IsLoad (file : File) (phnum : Nat) : Prop :=
  phnum < (elfHdr file).ePhnum ∧ (segment file phnum).pType = ELF_PT_LOAD

/-- A program file whose segments have places of their own. -/
structure ValidImage (file : File) : Prop where
  magic : (elfHdr file).eMagic = ELF_MAGIC
  inFile : ∀ n, IsLoad file n → (segment file n).pOffset + (segment file n).pFilesz ≤ file.size
  low : ∀ n, IsLoad file n → USERBASE ≤ roundDown (segment file n).pVa PGSIZE
  high : ∀ n, IsLoad file n → (segment file n).pVa + (segment file n).pMemsz ≤ USERTOP
  apart : ∀ n n', IsLoad file n → IsLoad file n' → n ≠ n' → ∀ a, InPages (segment file n) a →
    ¬InPages (segment file n') a
  stack : ∀ n, IsLoad file n → ∀ a, InPages (segment file n) a →
    ¬(USTACKTOP - USTACKSIZE ≤ a ∧ a < USTACKTOP)

theorem Loaded.congr {ph : ProgHdr} {at' : Nat → Prop} (h : Loaded file d ph m)
    (hsame : Unchanged d at' m m') (huser : ph.pVa + ph.pMemsz ≤ USERTOP)
    (hat : ∀ a, InPages ph a → at' a) : Loaded file d ph m' := by
  have hin : ∀ k < ph.pMemsz, InPages ph (ph.pVa + k) := by
    intro k hk
    have hdown := (roundDown_bounds ph.pVa).1
    have hup := (roundUp_bounds huser).1
    exact ⟨by omega, by omega⟩
  refine ⟨fun k hk => ?_, fun k hk => ?_⟩
  · rw [hsame.byte _ (by omega) (hat _ (hin k hk))]
    exact h.bytes k hk
  · obtain ⟨p, hp, hnext⟩ := h.pages k hk
    have hpte := hsame.pte _ (by omega) (hat _ (hin k hk))
    exact ⟨p, hpte.trans hp, by rw [hpte, hnext]⟩

/-- One turn of the loop over the program headers. -/
theorem loadProgram_cons {n : Nat}
    (hrun : loadProgram file fuel d (n :: nums) page s = .ok (.ok (), s')) :
    ∃ s₁, SameFrames s s₁ ∧
      ((segment file n).pType ≠ ELF_PT_LOAD ∧
          loadProgram file fuel d nums page s₁ = .ok (.ok (), s') ∨
        (segment file n).pType = ELF_PT_LOAD ∧
          (segment file n).pFilesz ≤ (segment file n).pMemsz ∧
          ∃ page₁ s₂, loadSegment file fuel d (segment file n) page s₁ = .ok (.ok page₁, s₂) ∧
            loadProgram file fuel d nums page₁ s₂ = .ok (.ok (), s')) := by
  rw [loadProgram] at hrun
  rcases bind_eq_ok_iff.mp hrun with ⟨_, s₁, hread, hrest⟩ | ⟨e, _, he⟩
  · have hkept := loadIcodeRead_kept hread
    refine ⟨s₁, ⟨by rw [hkept], by rw [hkept]⟩, ?_⟩
    split at hrest
    · next hother => exact Or.inl ⟨hother, hrest⟩
    · next htype =>
        split at hrest
        · cases hrest
        · next hfit =>
            have hturn : (loadSegment file fuel d (segment file n) page >>= fun page₁ =>
                loadProgram file fuel d nums page₁) s₁ = .ok (.ok (), s') := hrest
            rcases (bind_eq_ok_iff (x := loadSegment file fuel d (segment file n) page)).mp hturn with
              ⟨page₁, s₂, hsegment, hrest⟩ | ⟨e, _, he⟩
            · exact Or.inr ⟨not_not.mp htype, not_lt.mp hfit, page₁, s₂, hsegment, hrest⟩
            · cases he
  · cases he

/-- The loop over the program headers that are left. -/
theorem loadProgram_of (hvalid : ValidImage file) (hd : d ∈ dirs) :
    ∀ (nums : List Nat) (page : Nat) (s : Loading), Quiet dirs s →
      (∀ n ∈ nums, n < (elfHdr file).ePhnum) → nums.Nodup →
      (∀ n ∈ nums, IsLoad file n → ∀ a, InPages (segment file n) a →
        pte s.swapping.memory d a = 0) →
      loadProgram file fuel d nums page s = .ok (.ok (), s') →
      Quiet dirs s' ∧
        (∀ n ∈ nums, IsLoad file n → Loaded file d (segment file n) s'.swapping.memory) ∧
        Unchanged d (fun a => ∀ n ∈ nums, IsLoad file n → ¬InPages (segment file n) a)
          s.swapping.memory s'.swapping.memory
  | [], _, _, hquiet, _, _, _, hrun => by
      cases hrun
      exact ⟨hquiet, by simp, Unchanged.refl _ _ _⟩
  | n :: rest, page, s, hquiet, hnums, hnodup, hempty, hrun => by
      obtain ⟨hnotin, hnodup'⟩ := List.nodup_cons.mp hnodup
      have hnums' : ∀ n' ∈ rest, n' < (elfHdr file).ePhnum :=
        fun n' hn' => hnums n' (List.mem_cons_of_mem _ hn')
      obtain ⟨s₁, hsame₁, hcases⟩ := loadProgram_cons hrun
      have hquiet₁ := hquiet.congr hsame₁
      rw [← hsame₁.1] at hempty ⊢
      rcases hcases with ⟨hother, hrest⟩ | ⟨htype, hfit, page₁, s₂, hsegment, hrest⟩
      · obtain ⟨hquiet', hloaded, hsame⟩ := loadProgram_of hvalid hd rest page s₁ hquiet₁
          hnums' hnodup' (fun n' hn' => hempty n' (List.mem_cons_of_mem _ hn')) hrest
        refine ⟨hquiet', ?_, hsame.mono ?_⟩
        · intro n' hn' hload
          rcases List.mem_cons.mp hn' with rfl | hn'
          · exact absurd hload.2 hother
          · exact hloaded n' hn' hload
        · intro a ha n' hn'
          exact ha n' (List.mem_cons_of_mem _ hn')
      · have hload : IsLoad file n := ⟨hnums n (List.mem_cons_self ..), htype⟩
        obtain ⟨hquiet₂, hloaded₂, hsame₂⟩ := loadSegment_of hquiet₁ hd hfit
          (hvalid.high n hload) (hempty n (List.mem_cons_self ..) hload) hsegment
        have happart : ∀ n' ∈ rest, IsLoad file n' → ∀ a,
            InPages (segment file n') a → ¬InPages (segment file n) a := by
          intro n' hn' hload'
          refine hvalid.apart n' n hload' hload ?_
          rintro rfl
          exact hnotin hn'
        have hempty₂ : ∀ n' ∈ rest, IsLoad file n' → ∀ a, InPages (segment file n') a →
            pte s₂.swapping.memory d a = 0 := by
          intro n' hn' hload' a ha
          rw [hsame₂.pte a (inPages_lt (hvalid.high n' hload') ha) (happart n' hn' hload' a ha)]
          exact hempty n' (List.mem_cons_of_mem _ hn') hload' a ha
        obtain ⟨hquiet', hloaded, hsame⟩ := loadProgram_of hvalid hd rest page₁ s₂
          hquiet₂ hnums' hnodup' hempty₂ hrest
        refine ⟨hquiet', ?_, (hsame₂.mono ?_).trans (hsame.mono ?_)⟩
        · intro n' hn' hload'
          rcases List.mem_cons.mp hn' with rfl | hn'
          · refine hloaded₂.congr hsame (hvalid.high _ hload') ?_
            intro a ha n'' hn'' hload'' ha'
            exact happart n'' hn'' hload'' a ha' ha
          · exact hloaded n' hn' hload'
        · intro a ha
          exact ha n (List.mem_cons_self ..) hload
        · intro a ha n' hn'
          exact ha n' (List.mem_cons_of_mem _ hn')

end Program

end Ucore.LoadIcodeSegments
