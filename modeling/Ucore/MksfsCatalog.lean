import Ucore.MksfsDirent
import Ucore.MksfsOwners
import Ucore.Splice

/-!
What an image builder has stored, without block numbers: for each inode the blocks that were
appended to it, in order.
-/

namespace Ucore.MksfsCatalog

open Ucore.Panic
open Ucore.ByteBuffer
open Ucore.CStrings
open Ucore.Splice
open Ucore.SfsDisk
open Ucore.SfsDirent
open Ucore.Mksfs
open Ucore.MksfsLayout
open Ucore.MksfsAppend
open Ucore.MksfsDirent

/-- What a block of a file was written for. -/
inductive Slot where
  | data (bytes : List UInt8)
  | entry (file : Nat) (name : CString)
  deriving DecidableEq

/-- The bytes by which the slot makes its file longer. -/
def Slot.size : Slot → Nat
  | .data bytes => bytes.length
  | .entry _ _ => sizeofName

structure Object where
  type : Nat
  real : Nat
  slots : List Slot

/-- The objects in the order of their inodes. -/
structure Catalog where
  count : Nat
  object : Nat → Object

def Catalog.slots (cat : Catalog) (f : Nat) : List Slot :=
  (cat.object f).slots

def Catalog.add (cat : Catalog) (real type : Nat) : Catalog where
  count := cat.count + 1
  object := Function.update cat.object cat.count ⟨type, real, []⟩

def Catalog.push (cat : Catalog) (f : Nat) (slot : Slot) : Catalog :=
  { cat with
    object := Function.update cat.object f
      { cat.object f with slots := cat.slots f ++ [slot] } }

/-- The directory of a new image. -/
def rootCatalog : Catalog where
  count := 1
  object := fun _ => ⟨SFS_TYPE_DIR, 0, []⟩

def Catalog.perform (cat : Catalog) : Op → Catalog
  | .addInode real type => cat.add real type
  | .storeBlock file buffer len => cat.push file (.data (tabulate len buffer))
  | .addEntry current file name => cat.push current (.entry file name)

section Objects

variable {cat : Catalog} {f g : Nat} {slot : Slot}

@[simp] theorem count_push : (cat.push f slot).count = cat.count := rfl

theorem object_push_self : (cat.push f slot).object f =
    { cat.object f with slots := cat.slots f ++ [slot] } :=
  Function.update_self _ _ _

@[simp] theorem slots_push_self : (cat.push f slot).slots f = cat.slots f ++ [slot] := by
  rw [Catalog.slots, object_push_self]

theorem object_push_of_ne (hne : g ≠ f) : (cat.push f slot).object g = cat.object g :=
  Function.update_of_ne hne _ _

theorem slots_push_of_ne (hne : g ≠ f) : (cat.push f slot).slots g = cat.slots g :=
  congrArg Object.slots (object_push_of_ne hne)

@[simp] theorem type_push : ((cat.push f slot).object g).type = (cat.object g).type := by
  rcases eq_or_ne g f with rfl | hne
  · rw [object_push_self]
  · rw [object_push_of_ne hne]

@[simp] theorem real_push : ((cat.push f slot).object g).real = (cat.object g).real := by
  rcases eq_or_ne g f with rfl | hne
  · rw [object_push_self]
  · rw [object_push_of_ne hne]

theorem object_add_self (real type : Nat) :
    (cat.add real type).object cat.count = ⟨type, real, []⟩ :=
  Function.update_self _ _ _

theorem object_add_of_ne {real type : Nat} (hne : g ≠ cat.count) :
    (cat.add real type).object g = cat.object g :=
  Function.update_of_ne hne _ _

end Objects

/-- What the builder has written to the block of a slot. -/
def Written (sfs : ImageFs) (block : Bytes) : Slot → Prop
  | .data bytes => bytes.length ≤ SFS_BLKSIZE ∧ ∀ k, k < bytes.length → block k = bytes.getD k 0
  | .entry file name => file < sfs.inodeCount ∧ direntIno block = (sfs.inode file).ino ∧
      direntName (terminate block) = name.cut nameRoom

/-- The state of the builder stores the catalog in the blocks of its history. -/
structure Mirrors (sfs : ImageFs) (w : History) (cat : Catalog) : Prop where
  count : sfs.inodeCount = cat.count
  type : ∀ f, f < cat.count → (sfs.inode f).inode.type = (cat.object f).type
  real : ∀ f, f < cat.count → (sfs.inode f).real = (cat.object f).real
  size : ∀ f, f < cat.count →
    (sfs.inode f).inode.size = ((cat.slots f).map Slot.size).sum % 2 ^ 32
  length : ∀ f, f < cat.count → (w f).length = (cat.slots f).length
  written : ∀ f, f < cat.count → ∀ (i b : Nat) (slot : Slot), (w f)[i]? = some b →
    (cat.slots f)[i]? = some slot → Written sfs (sfs.image b) slot

section Effects

variable {sfs sfs' : ImageFs} {w : History} {cat : Catalog}

/-- What a cached inode has from the time when it is made. -/
structure SameKind (v v' : CacheInode) : Prop where
  ino : v'.ino = v.ino
  real : v'.real = v.real
  type : v'.inode.type = v.inode.type

/-- The part of a cached inode that storing a number leaves alone. -/
structure SameFile (v v' : CacheInode) : Prop extends SameKind v v' where
  size : v'.inode.size = v.inode.size

theorem SameKind.refl (v : CacheInode) : SameKind v v :=
  ⟨rfl, rfl, rfl⟩

theorem SameFile.refl (v : CacheInode) : SameFile v v :=
  ⟨SameKind.refl v, rfl⟩

theorem SameKind.trans {v v' v'' : CacheInode} (h : SameKind v v') (h' : SameKind v' v'') :
    SameKind v v'' :=
  ⟨h'.ino.trans h.ino, h'.real.trans h.real, h'.type.trans h.type⟩

theorem setInode_related {related : CacheInode → CacheInode → Prop} (hrefl : ∀ v, related v v)
    {ci f : Nat} {v : CacheInode} (h : related (sfs.inode ci) v) :
    related (sfs.inode f) ((sfs.setInode ci v).inode f) := by
  change related (sfs.inode f) (Function.update sfs.inode ci v f)
  rcases eq_or_ne f ci with rfl | hne
  · rw [Function.update_self]
    exact h
  · rw [Function.update_of_ne hne]
    exact hrefl _

theorem recordBlock_sameFile {file b : Nat} (heq : recordBlock sfs file b = .ok sfs') (f : Nat) :
    SameFile (sfs.inode f) (sfs'.inode f) := by
  unfold recordBlock at heq
  simp only at heq
  split at heq
  · cases heq
    exact setInode_related SameFile.refl ⟨⟨rfl, rfl, rfl⟩, rfl⟩
  split at heq
  · obtain ⟨⟨l1, indirect, s⟩, hcache, hret⟩ := bind_eq_ok_iff.mp heq
    cases hret
    rw [← (updateCache_inode hcache).1]
    exact setInode_related SameFile.refl ⟨⟨rfl, rfl, rfl⟩, rfl⟩
  split at heq
  · obtain ⟨⟨l2, dbIndirect, s⟩, hcache, hret⟩ := bind_eq_ok_iff.mp heq
    obtain ⟨⟨l1, table, t⟩, hcache', hret'⟩ := bind_eq_ok_iff.mp hret
    cases hret'
    have hinode : t.inode = sfs.inode :=
      (updateCache_inode hcache').1.trans (updateCache_inode hcache).1
    rw [← hinode]
    exact setInode_related SameFile.refl ⟨⟨rfl, rfl, rfl⟩, rfl⟩
  · cases heq
    exact SameFile.refl _

/-- What appending a block does to the inodes and to the image. -/
structure Appended (sfs sfs' : ImageFs) (file size : Nat) : Prop where
  inodeCount : sfs'.inodeCount = sfs.inodeCount
  image : sfs'.image = sfs.image
  kind : ∀ f, SameKind (sfs.inode f) (sfs'.inode f)
  size : ∀ f, (sfs'.inode f).inode.size =
    if f = file then ((sfs.inode f).inode.size + size) % 2 ^ 32 else (sfs.inode f).inode.size

theorem appendBlock_appended {file size b : Nat} (heq : appendBlock sfs file size b = .ok sfs') :
    size ≤ SFS_BLKSIZE ∧ Appended sfs sfs' file size := by
  have himage := appendBlock_image heq
  obtain ⟨_, hassert, hrest⟩ := bind_eq_ok_iff.mp heq
  refine ⟨kassert_eq_ok_iff.mp hassert, ?_⟩
  split at hrest
  · cases hrest
  obtain ⟨s, hrecord, hret⟩ := bind_eq_ok_iff.mp hrest
  cases hret
  have hsame := recordBlock_sameFile hrecord
  refine ⟨(recordBlock_ninos hrecord).2, himage, fun f => ?_, fun f => ?_⟩
  · exact (hsame f).toSameKind.trans (setInode_related SameKind.refl ⟨rfl, rfl, rfl⟩)
  change (Function.update s.inode file _ f).inode.size = _
  rcases eq_or_ne f file with rfl | hne
  · rw [Function.update_self, if_pos rfl, (hsame f).size]
  · rw [Function.update_of_ne hne, if_neg hne, (hsame f).size]

end Effects

section Steps

variable {sfs sfs' : ImageFs} {w : History} {cat : Catalog}

theorem mirrors_rootFs (ninos : Nat) (image : Nat → Bytes) (malloced : Bytes) :
    Mirrors (rootFs ninos image malloced) (fun _ => []) rootCatalog := by
  have hroot : ∀ {f : Nat}, f < rootCatalog.count → f = 0 := Nat.lt_one_iff.mp
  refine ⟨rfl, ?_, ?_, ?_, fun f _ => rfl, ?_⟩
  · intro f hf
    rw [hroot hf]
    rfl
  · intro f hf
    rw [hroot hf]
    rfl
  · intro f hf
    rw [hroot hf]
    rfl
  · intro f _ i b slot hb
    cases hb

theorem mirrors_pushInode (h : Mirrors sfs w cat) (hfresh : w sfs.inodeCount = [])
    (real type : Nat) :
    Mirrors (pushInode sfs real type) w (cat.add real type) := by
  have hself : (pushInode sfs real type).inode cat.count =
      ⟨newInode type, real, sfs.nextIno, 0, none, none⟩ := by
    rw [← h.count]
    exact Function.update_self _ _ _
  have hold : ∀ f, f < cat.count → (pushInode sfs real type).inode f = sfs.inode f := by
    intro f hf
    rw [← h.count] at hf
    exact Function.update_of_ne (Nat.ne_of_lt hf) _ _
  have hobject : ∀ f, f < cat.count → (cat.add real type).object f = cat.object f :=
    fun f hf => object_add_of_ne (Nat.ne_of_lt hf)
  have hslots : ∀ f, f < cat.count → (cat.add real type).slots f = cat.slots f :=
    fun f hf => congrArg Object.slots (hobject f hf)
  have hnone : (cat.add real type).slots cat.count = [] :=
    congrArg Object.slots (object_add_self real type)
  have hcases : ∀ f, f < (cat.add real type).count → f = cat.count ∨ f < cat.count :=
    fun f hf => Nat.eq_or_lt_of_le (Nat.le_of_lt_succ hf)
  refine ⟨congrArg Nat.succ h.count, ?_, ?_, ?_, ?_, ?_⟩
  · intro f hf
    rcases hcases f hf with rfl | hf
    · rw [hself, object_add_self]
      rfl
    · rw [hold f hf, hobject f hf]
      exact h.type f hf
  · intro f hf
    rcases hcases f hf with rfl | hf
    · rw [hself, object_add_self]
    · rw [hold f hf, hobject f hf]
      exact h.real f hf
  · intro f hf
    rcases hcases f hf with rfl | hf
    · rw [hself, hnone]
      rfl
    · rw [hold f hf, hslots f hf]
      exact h.size f hf
  · intro f hf
    rcases hcases f hf with rfl | hf
    · rw [hnone, ← h.count, hfresh]
      rfl
    · rw [hslots f hf]
      exact h.length f hf
  · intro f hf i b slot hb hslot
    rcases hcases f hf with rfl | hf
    · rw [hnone] at hslot
      cases hslot
    · rw [hslots f hf] at hslot
      have hwritten := h.written f hf i b slot hb hslot
      cases slot with
      | data bytes => exact hwritten
      | entry file name =>
          obtain ⟨hfile, hino, hname⟩ := hwritten
          refine ⟨Nat.lt_succ_of_lt hfile, ?_, hname⟩
          rw [hold file (lt_of_lt_of_eq hfile h.count)]
          exact hino

/-- The next free number has become a block of `file`, written for the slot. -/
structure Pushed (sfs sfs' : ImageFs) (file : Nat) (slot : Slot) : Prop where
  inodeCount : sfs'.inodeCount = sfs.inodeCount
  image : ∀ b, b ≠ sfs.nextIno → sfs'.image b = sfs.image b
  block : Written sfs (sfs'.image sfs.nextIno) slot
  kind : ∀ f, SameKind (sfs.inode f) (sfs'.inode f)
  size : ∀ f, (sfs'.inode f).inode.size = if f = file then
    ((sfs.inode f).inode.size + slot.size) % 2 ^ 32 else (sfs.inode f).inode.size

theorem written_congr {block : Bytes} {slot : Slot} (hcount : sfs.inodeCount ≤ sfs'.inodeCount)
    (hino : ∀ f, f < sfs.inodeCount → (sfs'.inode f).ino = (sfs.inode f).ino)
    (h : Written sfs block slot) : Written sfs' block slot := by
  cases slot with
  | data bytes => exact h
  | entry file name =>
      obtain ⟨hfile, hentry, hname⟩ := h
      refine ⟨lt_of_lt_of_le hfile hcount, ?_, hname⟩
      rw [hino file hfile]
      exact hentry

theorem mirrors_push {file : Nat} {slot : Slot} (h : Mirrors sfs w cat)
    (hnumbers : ∀ f, ∀ b ∈ w f, b < sfs.nextIno) (hfile : file < cat.count)
    (hp : Pushed sfs sfs' file slot) :
    Mirrors sfs' (w.push file sfs.nextIno) (cat.push file slot) := by
  have hwritten : ∀ {block : Bytes} {slot : Slot}, Written sfs block slot →
      Written sfs' block slot :=
    fun hw => written_congr (le_of_eq hp.inodeCount.symm) (fun f _ => (hp.kind f).ino) hw
  refine ⟨hp.inodeCount.trans h.count, ?_, ?_, ?_, ?_, ?_⟩
  · intro f hf
    rw [(hp.kind f).type, type_push]
    exact h.type f hf
  · intro f hf
    rw [(hp.kind f).real, real_push]
    exact h.real f hf
  · intro f hf
    rw [hp.size, h.size f hf]
    rcases eq_or_ne f file with rfl | hne
    · rw [if_pos rfl, slots_push_self, List.map_append, List.sum_append, List.map_singleton,
        List.sum_singleton, Nat.mod_add_mod]
    · rw [if_neg hne, slots_push_of_ne hne]
  · intro f hf
    rcases eq_or_ne f file with rfl | hne
    · rw [length_push, slots_push_self, List.length_append, List.length_singleton, h.length f hf]
    · rw [push_of_ne hne, slots_push_of_ne hne]
      exact h.length f hf
  · intro f hf i b slot' hb hslot
    have hold : ∀ {b' : Nat} {slot : Slot}, (w f)[i]? = some b' → (cat.slots f)[i]? = some slot →
        Written sfs' (sfs'.image b') slot := by
      intro b' slot hb hslot
      rw [hp.image b' (Nat.ne_of_lt (hnumbers f b' (List.mem_of_getElem? hb)))]
      exact hwritten (h.written f hf i b' slot hb hslot)
    rcases eq_or_ne f file with rfl | hne
    · rw [slots_push_self] at hslot
      rw [push_self] at hb
      rcases lt_trichotomy i (w f).length with hlt | rfl | hgt
      · rw [List.getElem?_append_left hlt] at hb
        rw [List.getElem?_append_left (lt_of_lt_of_eq hlt (h.length f hf))] at hslot
        exact hold hb hslot
      · rw [List.getElem?_concat_length] at hb
        rw [h.length f hf, List.getElem?_concat_length] at hslot
        cases hb
        cases hslot
        exact hwritten hp.block
      · rw [List.getElem?_eq_none (by rw [List.length_append, List.length_singleton]; omega)] at hb
        cases hb
    · rw [slots_push_of_ne hne] at hslot
      rw [push_of_ne hne] at hb
      exact hold hb hslot

theorem getD_tabulate {n k : Nat} (g : Nat → UInt8) (hk : k < n) :
    (tabulate n g).getD k 0 = g k := by
  simp [tabulate, hk]

theorem pushed_storeBlock {file len : Nat} {buffer : Bytes}
    (heq : storeBlock sfs file buffer len = .ok sfs') :
    Pushed sfs sfs' file (.data (tabulate len buffer)) := by
  obtain ⟨⟨ino, s₁⟩, halloc, hrest⟩ := bind_eq_ok_iff.mp heq
  obtain ⟨_, rfl, rfl⟩ := sfsAllocIno_eq_ok_iff.mp halloc
  obtain ⟨s₂, hwrite, happend⟩ := bind_eq_ok_iff.mp hrest
  obtain ⟨⟨hlen, _⟩, rfl⟩ := writeBlock_eq_ok_iff.mp hwrite
  obtain ⟨_, ha⟩ := appendBlock_appended happend
  refine ⟨ha.inodeCount, ?_, ⟨?_, ?_⟩, ha.kind, ?_⟩
  · intro b hne
    rw [ha.image]
    exact Function.update_of_ne hne _ _
  · rw [length_tabulate]
    exact hlen
  · intro k hk
    rw [length_tabulate] at hk
    rw [ha.image, getD_tabulate buffer hk]
    change Function.update sfs.image sfs.nextIno _ sfs.nextIno k = _
    rw [Function.update_self, copyBytes_of_mem (Nat.zero_le k) (by omega)]
    congr 1
    omega
  · intro f
    rw [ha.size, Slot.size, length_tabulate]
    rfl

theorem pushed_addEntry {current file : Nat} {name : CString} (hfile : file < sfs.inodeCount)
    (hino : (sfs.inode file).ino < 2 ^ 32) (heq : addEntry sfs current file name = .ok sfs') :
    Pushed sfs sfs' current (.entry file name) := by
  have hblock := (addEntry_image heq).2
  obtain ⟨_, hassert, hrest⟩ := bind_eq_ok_iff.mp heq
  obtain ⟨⟨ino, s₁⟩, halloc, hrest⟩ := bind_eq_ok_iff.mp hrest
  obtain ⟨_, rfl, rfl⟩ := sfsAllocIno_eq_ok_iff.mp halloc
  obtain ⟨s₂, hwrite, hrest⟩ := bind_eq_ok_iff.mp hrest
  obtain ⟨_, rfl⟩ := writeBlock_eq_ok_iff.mp hwrite
  obtain ⟨s₃, happend, hret⟩ := bind_eq_ok_iff.mp hrest
  cases hret
  obtain ⟨_, ha⟩ := appendBlock_appended happend
  refine ⟨ha.inodeCount, ?_, ⟨hfile, ?_, ?_⟩, fun f => ?_, fun f => ?_⟩
  · intro b hne
    change s₃.image b = _
    rw [ha.image]
    exact Function.update_of_ne hne _ _
  · rw [hblock]
    exact direntIno_entryBlock hino
  · rw [hblock]
    exact direntName_entryBlock
  · exact (ha.kind f).trans (setInode_related SameKind.refl ⟨rfl, rfl, rfl⟩)
  · refine Eq.trans ?_ (ha.size f)
    change (Function.update s₃.inode file _ f).inode.size = _
    rcases eq_or_ne f file with rfl | hne
    · rw [Function.update_self]
    · rw [Function.update_of_ne hne]

theorem ino_lt_two_pow (hl : Layout sfs) {f : Nat} (hf : f < sfs.inodeCount) :
    (sfs.inode f).ino < 2 ^ 32 := by
  have hmax : sfs.nextIno ≤ 1024 * 512 := le_trans hl.next_le hl.ninos_le
  have hroot : SFS_BLKN_ROOT < 2 ^ 32 := by decide
  rcases hl.inode_ino f hf with heq | hin
  · rwa [heq]
  · omega

theorem mirrors_perform {stSize : Nat} {image : Nat → Bytes} (hbuilt : Built stSize image sfs w)
    (h : Mirrors sfs w cat) {op : Op} (hvalid : Valid sfs op) (heq : perform sfs op = .ok sfs') :
    Mirrors sfs' (record sfs w op) (cat.perform op) := by
  have hl := layout_built hbuilt
  obtain ⟨tbl, htables⟩ := tables_built hbuilt
  have hnumbers : ∀ f, ∀ b ∈ w f, b < sfs.nextIno := fun f b hb => (htables.numbers f b hb).2
  cases op with
  | addInode real type =>
      obtain ⟨⟨ci, s⟩, halloc, hret⟩ := bind_eq_ok_iff.mp heq
      obtain ⟨_, rfl, rfl⟩ := allocCacheInode_eq_ok_iff.mp halloc
      cases hret
      exact mirrors_pushInode h (htables.fresh _ le_rfl) real type
  | storeBlock file buffer len =>
      exact mirrors_push h hnumbers (lt_of_lt_of_eq hvalid h.count) (pushed_storeBlock heq)
  | addEntry current file name =>
      exact mirrors_push h hnumbers (lt_of_lt_of_eq hvalid.1 h.count)
        (pushed_addEntry hvalid.2 (ino_lt_two_pow hl hvalid.2) heq)

/-- An inode keeps its number. -/
theorem ino_perform (hl : Layout sfs) {op : Op} (hvalid : Valid sfs op)
    (heq : perform sfs op = .ok sfs') {f : Nat} (hf : f < sfs.inodeCount) :
    sfs.inodeCount ≤ sfs'.inodeCount ∧ (sfs'.inode f).ino = (sfs.inode f).ino := by
  cases op with
  | addInode real type =>
      obtain ⟨⟨ci, s⟩, halloc, hret⟩ := bind_eq_ok_iff.mp heq
      obtain ⟨_, rfl, rfl⟩ := allocCacheInode_eq_ok_iff.mp halloc
      cases hret
      exact ⟨Nat.le_succ _,
        congrArg CacheInode.ino (Function.update_of_ne (Nat.ne_of_lt hf) _ _)⟩
  | storeBlock file buffer len =>
      have hpushed := pushed_storeBlock heq
      exact ⟨le_of_eq hpushed.inodeCount.symm, (hpushed.kind f).ino⟩
  | addEntry current file name =>
      have hpushed := pushed_addEntry hvalid.2 (ino_lt_two_pow hl hvalid.2) heq
      exact ⟨le_of_eq hpushed.inodeCount.symm, (hpushed.kind f).ino⟩

theorem root_built {stSize : Nat} {image : Nat → Bytes} (h : Built stSize image sfs w) :
    0 < sfs.inodeCount ∧ (sfs.inode 0).ino = SFS_BLKN_ROOT := by
  induction h with
  | create heq =>
      obtain ⟨_, rfl⟩ := createSfs_eq_ok_iff.mp heq
      exact ⟨Nat.one_pos, rfl⟩
  | step hbuilt hvalid heq ih =>
      obtain ⟨hle, hino⟩ := ino_perform (layout_built hbuilt) hvalid heq ih.1
      exact ⟨lt_of_lt_of_le ih.1 hle, hino.trans ih.2⟩

end Steps

end Ucore.MksfsCatalog
