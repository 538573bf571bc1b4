import Ucore.MksfsTreeRuns
import Ucore.SfsIoRefinement
import Ucore.VfsLookup

/-! What the kernel finds on an image that `tools/mksfs.c` has made of a directory. -/

namespace Ucore.MksfsTreeImage

open Ucore.Panic
open Ucore.ByteBuffer
open Ucore.CStrings
open Ucore.Splice
open Ucore.WriteLog
open Ucore.SfsDisk
open Ucore.SfsMount
open Ucore.SfsOwnership
open Ucore.SfsSettled
open Ucore.SfsIoRefinement
open Ucore.SfsDirent
open Ucore.SfsNamefile (dot dotdot)
open Ucore.VfsLookup
open Ucore.Mksfs
open Ucore.MksfsLayout
open Ucore.MksfsAppend
open Ucore.MksfsImage
open Ucore.MksfsFreemap
open Ucore.MksfsBlockMap
open Ucore.MksfsDirent
open Ucore.MksfsOwners
open Ucore.MksfsCatalog
open Ucore.MksfsTrees
open Ucore.MksfsTreeRuns

/-- The kernel finds in the directory `dir` the names of `entries`, itself and its parent, and
nothing else. -/
structure Listing (m : SfsFs) (parent dir : Nat) (entries : Entries) : Prop where
  type : (dinOf m dir).type = SFS_TYPE_DIR
  self : entryOf m dir dot = .ok dir
  up : entryOf m dir dotdot = .ok parent
  only : ∀ name, name ∉ dot :: dotdot :: names entries → entryOf m dir name = .error .eNoent

mutual

/-- The kernel sees the node as the inode `ino`. -/
def Shows (m : SfsFs) (parent ino : Nat) : Node → Prop
  | .link _ target => (dinOf m ino).type = SFS_TYPE_LINK ∧ contents m ino = target
  | .dir _ entries => Listing m parent ino entries ∧ ShowsAll m ino entries
  | .file _ reads => (dinOf m ino).type = SFS_TYPE_FILE ∧ contents m ino = reads.flatMap Chunk.bytes
  | .other => False

def ShowsAll (m : SfsFs) (dir : Nat) : Entries → Prop
  | .nil => True
  | .cons name node rest => (skipped name node = false →
      ∃ ino, entryOf m dir name = .ok ino ∧ Shows m dir ino node) ∧ ShowsAll m dir rest

end

section Chunks

variable {reads : List Chunk}

/-- Byte `k` of a file is in the read of its block. -/
theorem read_of_byte (h : Chunked reads) {k : Nat} (hk : k < (reads.flatMap Chunk.bytes).length) :
    ∃ ret, reads[k / SFS_BLKSIZE]? = some ret ∧ k % SFS_BLKSIZE < ret.bytes.length ∧
      (reads.flatMap Chunk.bytes).getD k 0 = ret.bytes.getD (k % SFS_BLKSIZE) 0 := by
  have hpos : 0 < SFS_BLKSIZE := by decide
  induction reads generalizing k with
  | nil => exact absurd hk (Nat.not_lt_zero k)
  | cons ret reads ih =>
      rw [List.flatMap_cons, List.length_append] at hk
      rw [List.flatMap_cons]
      rcases lt_or_ge k ret.bytes.length with hlt | hge
      · have hblock : k < SFS_BLKSIZE := lt_of_lt_of_le hlt ret.le
        rw [Nat.div_eq_of_lt hblock, Nat.mod_eq_of_lt hblock]
        exact ⟨ret, rfl, hlt, List.getD_append _ _ _ _ hlt⟩
      · have hmore : reads ≠ [] := by
          rintro rfl
          simp only [List.flatMap_nil, List.length_nil] at hk
          omega
        have hfull : ret.bytes.length = SFS_BLKSIZE := h.1 hmore
        obtain ⟨j, rfl⟩ := Nat.exists_eq_add_of_le hge
        obtain ⟨ret', hget, hlt, hbyte⟩ := @ih h.2 j (by omega)
        rw [hfull, Nat.add_div_left j hpos, Nat.add_mod_left]
        refine ⟨ret', hget, hlt, ?_⟩
        rw [List.getD_append_right _ _ _ _ (by omega), hfull, Nat.add_sub_cancel_left, hbyte]

theorem length_flatMap_bytes (reads : List Chunk) :
    (reads.flatMap Chunk.bytes).length =
      ((reads.map fun ret => Slot.data ret.bytes).map Slot.size).sum := by
  rw [List.length_flatMap, List.map_map]
  rfl

theorem length_flatMap_le (reads : List Chunk) :
    (reads.flatMap Chunk.bytes).length ≤ reads.length * SFS_BLKSIZE := by
  induction reads with
  | nil => exact Nat.zero_le _
  | cons ret reads ih =>
      have hle := ret.le
      rw [List.flatMap_cons, List.length_append, List.length_cons, Nat.add_mul, Nat.one_mul]
      omega

end Chunks

section Slots

variable {m : SfsFs} {dir : Nat}

/-- The kernel reads the entries `list` in the slots of the directory. -/
structure Slotted (m : SfsFs) (dir : Nat) (list : List (Nat × CString)) : Prop where
  blocks : (dinOf m dir).blocks = list.length
  ino : ∀ i (h : i < list.length), direntIno (slotBlock m dir i) = list[i].1
  ne : ∀ i (h : i < list.length), list[i].1 ≠ 0
  name : ∀ i (h : i < list.length), direntName (terminate (slotBlock m dir i)) = list[i].2

variable {list : List (Nat × CString)}

theorem entryOf_of_mem (h : Slotted m dir list) (hnodup : (list.map Prod.snd).Nodup)
    {e : Nat × CString} (he : e ∈ list) : entryOf m dir e.2 = .ok e.1 := by
  obtain ⟨i, hi, rfl⟩ := List.getElem_of_mem he
  have hfound : (List.range (dinOf m dir).blocks).find?
      (fun j => decide (direntIno (slotBlock m dir j) ≠ 0 ∧
        list[i].2 = direntName (terminate (slotBlock m dir j)))) = some i := by
    rw [List.find?_range_eq_some, h.blocks]
    refine ⟨?_, List.mem_range.mpr hi, ?_⟩
    · rw [decide_eq_true_iff, h.ino i hi, h.name i hi]
      exact ⟨h.ne i hi, rfl⟩
    · intro j hj
      have hjlen := lt_trans hj hi
      rw [Bool.not_eq_true', decide_eq_false_iff_not, h.name j hjlen]
      rintro ⟨_, hsame⟩
      have hi' : i < (list.map Prod.snd).length := by rwa [List.length_map]
      have hj' : j < (list.map Prod.snd).length := by rwa [List.length_map]
      have heq : (list.map Prod.snd)[i] = (list.map Prod.snd)[j] := by
        rw [List.getElem_map, List.getElem_map]
        exact hsame
      exact Nat.ne_of_gt hj (hnodup.getElem_inj_iff.mp heq)
  rw [entryOf, findSlot, hfound]
  change Except.ok (direntIno (slotBlock m dir i)) = _
  rw [h.ino i hi]

theorem entryOf_of_not_mem (h : Slotted m dir list) {name : CString}
    (hname : name ∉ list.map Prod.snd) : entryOf m dir name = .error .eNoent := by
  have hnone : (List.range (dinOf m dir).blocks).find?
      (fun j => decide (direntIno (slotBlock m dir j) ≠ 0 ∧
        name = direntName (terminate (slotBlock m dir j)))) = none := by
    rw [List.find?_eq_none]
    intro j hj
    rw [h.blocks, List.mem_range] at hj
    rw [decide_eq_true_iff, h.name j hj]
    rintro ⟨_, rfl⟩
    exact hname (List.mem_map_of_mem (List.getElem_mem hj))
  rw [entryOf, findSlot, hnone]
  rfl

end Slots

section Image

variable {stSize : Nat} {image : Nat → Bytes} {sfs : ImageFs} {w : History} {cat : Catalog}
  {m : SfsFs}

/-- The kernel has mounted the image of a builder that stores the catalog. -/
structure Imaged (stSize : Nat) (image : Nat → Bytes) (sfs : ImageFs) (w : History) (cat : Catalog)
    (m : SfsFs) : Prop where
  built : Built stSize image sfs w
  mirrors : Mirrors sfs w cat
  fresh : Fresh sfs m

theorem loadDiskInode_flushed_size (inode : Inode) :
    (loadDiskInode (padded (inodeBytes inode) inodeSize)).size = inode.size % 2 ^ 32 ∧
      (loadDiskInode (padded (inodeBytes inode) inodeSize)).type = inode.type % 2 ^ 16 := by
  have hget : ∀ off n, off + n ≤ inodeSize →
      getLE (padded (inodeBytes inode) inodeSize) off n = getLE (inodeBytes inode) off n := by
    intro off n hle
    apply getLE_congr
    intro k _ hk
    rw [padded, copyBytes_of_mem (Nat.zero_le k) (by omega)]
    congr 1
    omega
  constructor
  · change getLE _ 0 4 = _
    rw [hget 0 4 (by decide), inodeBytes, getLE_putLE_of_disjoint (by decide),
      getLE_putLE_of_disjoint (by decide), getLE_putWords_of_disjoint (by decide),
      getLE_putLE_of_disjoint (by decide), getLE_putLE_of_disjoint (by decide),
      getLE_putLE_of_disjoint (by decide), getLE_putLE_self]
    rfl
  · change getLE _ 4 2 = _
    rw [hget 4 2 (by decide), inodeBytes, getLE_putLE_of_disjoint (by decide),
      getLE_putLE_of_disjoint (by decide), getLE_putWords_of_disjoint (by decide),
      getLE_putLE_of_disjoint (by decide), getLE_putLE_of_disjoint (by decide), getLE_putLE_self]
    rfl

/-- The closing writes leave the blocks of the files alone. -/
theorem image_data (h : Built stSize image sfs w) {f i b : Nat} (hb : (w f)[i]? = some b) :
    (closed sfs).image b = sfs.image b := by
  have hl := layout_built h
  have howns := ownsNumbers_built h
  have hdata : MksfsOwners.Holds sfs w (.data f i) b := hb
  apply replay_of_not_mem
  intro write hwrite heq
  rcases (mem_closeLog hl).mp hwrite with ⟨t, ht, rfl⟩ | rfl | ⟨cb, hcb, rfl⟩ | ⟨ci, hci, rfl⟩
  · have hother : MksfsOwners.Holds sfs w (.reserved b) b :=
      ⟨Or.inr ⟨by rw [← heq]; exact Nat.le_add_right _ _,
        by rw [← heq]; exact Nat.add_lt_add_left ht _⟩, rfl⟩
    cases howns.inj hdata hother
  · have hother : MksfsOwners.Holds sfs w (.reserved b) b := ⟨Or.inl heq.symm, rfl⟩
    cases howns.inj hdata hother
  · have hother : MksfsOwners.Holds sfs w (.table cb) b := ⟨hcb, heq.symm⟩
    cases howns.inj hdata hother
  · have hother : MksfsOwners.Holds sfs w (.inode ci) b := ⟨hci, heq.symm⟩
    cases howns.inj hdata hother

theorem Imaged.size (h : Imaged stSize image sfs w cat m) {f : Nat} (hf : f < cat.count) :
    (dinOf m (sfs.inode f).ino).size = ((cat.slots f).map Slot.size).sum % 2 ^ 32 := by
  have hlt : f < sfs.inodeCount := lt_of_lt_of_eq hf h.mirrors.count.symm
  rw [dinOf_fresh h.fresh, diskInode, closed, image_inode (layout_built h.built) hlt,
    (loadDiskInode_flushed_size _).1, h.mirrors.size f hf, Nat.mod_mod]

theorem Imaged.type (h : Imaged stSize image sfs w cat m) {f : Nat} (hf : f < cat.count) :
    (dinOf m (sfs.inode f).ino).type = (cat.object f).type % 2 ^ 16 := by
  have hlt : f < sfs.inodeCount := lt_of_lt_of_eq hf h.mirrors.count.symm
  rw [dinOf_fresh h.fresh, diskInode, closed, image_inode (layout_built h.built) hlt,
    (loadDiskInode_flushed_size _).2, h.mirrors.type f hf]

theorem Imaged.blocks (h : Imaged stSize image sfs w cat m) {f : Nat} (hf : f < cat.count) :
    (dinOf m (sfs.inode f).ino).blocks = (cat.slots f).length := by
  obtain ⟨tbl, htables⟩ := tables_built h.built
  rw [dinOf_fresh h.fresh, blocks_diskInode (layout_built h.built) htables
    (lt_of_lt_of_eq hf h.mirrors.count.symm), h.mirrors.length f hf]

/-- The block of a slot is on the image as it was written. -/
theorem Imaged.slot (h : Imaged stSize image sfs w cat m) {f : Nat} (hf : f < cat.count) {i : Nat}
    {slot : Slot} (hslot : (cat.slots f)[i]? = some slot) (hi : i < maxBlocks) :
    Written sfs (slotBlock m (sfs.inode f).ino i) slot := by
  have hl := layout_built h.built
  obtain ⟨tbl, htables⟩ := tables_built h.built
  have hlen : i < (w f).length := by
    rw [h.mirrors.length f hf]
    exact (List.getElem?_eq_some_iff.mp hslot).1
  have hget := List.getElem?_eq_getElem hlen
  have hwritten := h.mirrors.written f hf i _ slot hget hslot
  rwa [slotBlock, fileBlock_fresh h.fresh, diskInode,
    (blockAt_closed hl htables (lt_of_lt_of_eq hf h.mirrors.count.symm) hi hget).1, h.fresh.block,
    image_data h.built hget]

/-- A file of data blocks has their bytes. -/
theorem Imaged.contents (h : Imaged stSize image sfs w cat m) {f : Nat} (hf : f < cat.count)
    {reads : List Chunk} (hslots : cat.slots f = reads.map fun ret => .data ret.bytes)
    (hchunked : Chunked reads) (hmax : reads.length ≤ maxBlocks) :
    contents m (sfs.inode f).ino = reads.flatMap Chunk.bytes := by
  have hsize : (dinOf m (sfs.inode f).ino).size = (reads.flatMap Chunk.bytes).length := by
    rw [h.size hf, hslots, ← length_flatMap_bytes]
    apply Nat.mod_eq_of_lt
    calc (reads.flatMap Chunk.bytes).length ≤ reads.length * SFS_BLKSIZE := length_flatMap_le reads
      _ ≤ maxBlocks * SFS_BLKSIZE := Nat.mul_le_mul_right _ hmax
      _ < 2 ^ 32 := by decide
  rw [SfsIoRefinement.contents, hsize]
  rw [← tabulate_bufferOf (reads.flatMap Chunk.bytes), length_tabulate]
  apply tabulate_congr
  intro k hk
  obtain ⟨ret, hget, hlt, hbyte⟩ := read_of_byte hchunked hk
  have hslot : (cat.slots f)[k / SFS_BLKSIZE]? = some (.data ret.bytes) := by
    rw [hslots, List.getElem?_map, hget]
    rfl
  have hi : k / SFS_BLKSIZE < maxBlocks :=
    lt_of_lt_of_le (List.getElem?_eq_some_iff.mp hget).1 hmax
  change slotBlock m (sfs.inode f).ino (k / SFS_BLKSIZE) (k % SFS_BLKSIZE) =
    (reads.flatMap Chunk.bytes).getD k 0
  rw [(h.slot hf hslot hi).2 _ hlt, hbyte]

/-- A symbolic link is a file of one block. -/
theorem Imaged.target (h : Imaged stSize image sfs w cat m) {f : Nat} (hf : f < cat.count)
    {target : List UInt8} (hslots : cat.slots f = [.data target]) :
    SfsIoRefinement.contents m (sfs.inode f).ino = target := by
  have hslot : (cat.slots f)[0]? = some (.data target) := by
    rw [hslots]
    rfl
  obtain ⟨hle, hbytes⟩ := h.slot hf hslot (by decide)
  have hsize : (dinOf m (sfs.inode f).ino).size = target.length := by
    rw [h.size hf, hslots]
    exact Nat.mod_eq_of_lt (lt_of_le_of_lt hle (by decide))
  rw [SfsIoRefinement.contents, hsize]
  rw [← tabulate_bufferOf target, length_tabulate]
  apply tabulate_congr
  intro k hk
  have hblock := lt_of_lt_of_le hk hle
  rw [SfsIoRefinement.byteAt, Nat.div_eq_of_lt hblock, Nat.mod_eq_of_lt hblock]
  exact hbytes k hk

theorem Imaged.ino_ne (h : Imaged stSize image sfs w cat m) {f : Nat} (hf : f < sfs.inodeCount) :
    (sfs.inode f).ino ≠ 0 := by
  have hroot := firstIno_gt sfs.ninos
  rcases (layout_built h.built).inode_ino f hf with heq | hin
  · rw [heq]
    decide
  · omega

/-- The slots of a directory as the kernel reads them. -/
theorem Imaged.slotted (h : Imaged stSize image sfs w cat m) {f : Nat} (hf : f < cat.count)
    {list : List (Nat × CString)} (hslots : cat.slots f = list.map fun e => .entry e.1 e.2)
    (hmax : list.length ≤ maxBlocks) (hroom : ∀ e ∈ list, e.2.length ≤ nameRoom) :
    Slotted m (sfs.inode f).ino (list.map fun e => ((sfs.inode e.1).ino, e.2)) := by
  have hwritten : ∀ i (hi : i < list.length),
      Written sfs (slotBlock m (sfs.inode f).ino i) (.entry list[i].1 list[i].2) := by
    intro i hi
    apply h.slot hf _ (lt_of_lt_of_le hi hmax)
    rw [hslots, List.getElem?_map, List.getElem?_eq_getElem hi]
    rfl
  have hlt : ∀ i, i < (list.map fun e => ((sfs.inode e.1).ino, e.2)).length → i < list.length := by
    intro i hi
    rwa [List.length_map] at hi
  constructor
  · rw [h.blocks hf, hslots, List.length_map, List.length_map]
  · intro i hi
    rw [List.getElem_map, (hwritten i (hlt i hi)).2.1]
  · intro i hi
    rw [List.getElem_map]
    exact h.ino_ne (hwritten i (hlt i hi)).1
  · intro i hi
    rw [List.getElem_map, (hwritten i (hlt i hi)).2.2]
    exact CString.cut_of_le (hroom _ (List.getElem_mem (hlt i hi)))

end Image

section Names

variable {cat : Catalog} {name : CString}

theorem hidden_of_skipped {node : Node} (h : skipped name node = false) : hidden name = false := by
  cases node with
  | other => cases h
  | link real target => exact h
  | dir real entries => exact h
  | file real reads => exact h

theorem hidden_of_mem_names : ∀ entries : Entries, name ∈ names entries → hidden name = false
  | .nil, hmem => by cases hmem
  | .cons other node rest, hmem => by
      unfold names at hmem
      split at hmem
      · exact hidden_of_mem_names rest hmem
      next hshown =>
      rcases List.mem_cons.mp hmem with rfl | hrest
      · exact hidden_of_skipped (Bool.eq_false_iff.mpr hshown)
      · exact hidden_of_mem_names rest hrest

theorem map_of_storesAll {dir : Nat} : ∀ (entries : Entries) (list : List (Nat × CString)),
    StoresAll cat dir entries list → list.map Prod.snd = names entries
  | .nil, list, hall => by
      rw [show list = [] from hall]
      rfl
  | .cons other node rest, list, hall => by
      unfold StoresAll at hall
      unfold names
      split at hall
      · next hskip =>
        rw [if_pos hskip]
        exact map_of_storesAll rest list hall
      · next hshown =>
        obtain ⟨f, tail, rfl, _, _, htail⟩ := hall
        rw [if_neg hshown, List.map_cons, map_of_storesAll rest tail htail]

end Names

section Shown

variable {stSize : Nat} {image : Nat → Bytes} {sfs : ImageFs} {w : History} {cat : Catalog}
  {m : SfsFs}

/-- The kernel finds the entries of a directory of the catalog. -/
theorem Imaged.listing (h : Imaged stSize image sfs w cat m) {f parent real : Nat}
    (hf : f < cat.count) {entries : Entries} {list : List (Nat × CString)}
    (hobject : cat.object f = ⟨SFS_TYPE_DIR, real, .entry f dot :: .entry parent dotdot ::
      list.map fun e => .entry e.1 e.2⟩) (hall : StoresAll cat f entries list)
    (hlist : Listable entries) :
    Listing m (sfs.inode parent).ino (sfs.inode f).ino entries ∧
      ∀ e ∈ list, entryOf m (sfs.inode f).ino e.2 = .ok (sfs.inode e.1).ino := by
  have hnames := map_of_storesAll entries list hall
  have hlen : list.length = (names entries).length := by rw [← hnames, List.length_map]
  have hslotted := @Imaged.slotted stSize image sfs w cat m h f hf
    ((f, dot) :: (parent, dotdot) :: list)
    (by rw [Catalog.slots, hobject]; rfl)
    (by rw [List.length_cons, List.length_cons, hlen]; exact hlist.length_le)
    (by
      intro e he
      rcases List.mem_cons.mp he with rfl | he
      · exact (by decide : dot.length ≤ nameRoom)
      rcases List.mem_cons.mp he with rfl | he
      · exact (by decide : dotdot.length ≤ nameRoom)
      · apply hlist.room
        rw [← hnames]
        exact List.mem_map_of_mem he)
  have hsnd : (((f, dot) :: (parent, dotdot) :: list).map fun e =>
      ((sfs.inode e.1).ino, e.2)).map Prod.snd = dot :: dotdot :: names entries := by
    rw [List.map_map, ← hnames]
    rfl
  have hvisible : ∀ {name : CString}, hidden name = true → name ∉ names entries := by
    intro name hhidden hmem
    rw [hidden_of_mem_names entries hmem] at hhidden
    cases hhidden
  have hnodup : (dot :: dotdot :: names entries).Nodup := by
    refine List.nodup_cons.mpr ⟨?_, List.nodup_cons.mpr ⟨hvisible rfl, hlist.nodup⟩⟩
    rw [List.mem_cons]
    rintro (heq | hmem)
    · exact absurd heq (by decide)
    · exact hvisible rfl hmem
  have hfound : ∀ e ∈ (f, dot) :: (parent, dotdot) :: list,
      entryOf m (sfs.inode f).ino e.2 = .ok (sfs.inode e.1).ino := by
    intro e he
    exact entryOf_of_mem hslotted (by rw [hsnd]; exact hnodup)
      (List.mem_map_of_mem (f := fun e => ((sfs.inode e.1).ino, e.2)) he)
  have hself := hfound (f, dot) List.mem_cons_self
  have hup := hfound (parent, dotdot) (List.mem_cons_of_mem _ List.mem_cons_self)
  refine ⟨⟨?_, hself, hup, ?_⟩,
    fun e he => hfound e (List.mem_cons_of_mem _ (List.mem_cons_of_mem _ he))⟩
  · rw [h.type hf, hobject]
    rfl
  · intro name hname
    apply entryOf_of_not_mem hslotted
    rwa [hsnd]

mutual

theorem shows_of_stores (h : Imaged stSize image sfs w cat m) : ∀ {parent f : Nat} (node : Node),
    Stores cat parent f node → Fits node →
      Shows m (sfs.inode parent).ino (sfs.inode f).ino node
  | _, f, .link real target, hstores, _ => by
      obtain ⟨hf, hobject⟩ := hstores
      refine ⟨?_, h.target hf (by rw [Catalog.slots, hobject])⟩
      rw [h.type hf, hobject]
      rfl
  | _, f, .file real reads, hstores, hfits => by
      obtain ⟨hf, hchunked, hobject⟩ := hstores
      refine ⟨?_, h.contents hf (by rw [Catalog.slots, hobject]) hchunked hfits⟩
      rw [h.type hf, hobject]
      rfl
  | parent, f, .dir real entries, hstores, hfits => by
      obtain ⟨hf, _, list, hobject, hall⟩ := hstores
      obtain ⟨hlisting, hfound⟩ := h.listing hf hobject hall hfits.1
      exact ⟨hlisting, showsAll_of_storesAll h entries list hall hfits.2 hfound⟩
  | _, _, .other, hstores, _ => hstores

theorem showsAll_of_storesAll (h : Imaged stSize image sfs w cat m) :
    ∀ {dir : Nat} (entries : Entries) (list : List (Nat × CString)),
      StoresAll cat dir entries list → FitsAll entries →
        (∀ e ∈ list, entryOf m (sfs.inode dir).ino e.2 = .ok (sfs.inode e.1).ino) →
          ShowsAll m (sfs.inode dir).ino entries
  | _, .nil, _, _, _, _ => trivial
  | dir, .cons name node rest, list, hall, hfits, hfound => by
      unfold StoresAll at hall
      split at hall
      · next hskip =>
        refine ⟨fun hshown => ?_, showsAll_of_storesAll h rest list hall hfits.2 hfound⟩
        rw [hskip] at hshown
        cases hshown
      · obtain ⟨f, tail, rfl, _, hstores, htail⟩ := hall
        have hentry := hfound (f, name) List.mem_cons_self
        refine ⟨fun hshown => ⟨_, hentry, ?_⟩, ?_⟩
        · exact shows_of_stores h node hstores (hfits.1 hshown)
        · exact showsAll_of_storesAll h rest tail htail hfits.2 fun e he =>
            hfound e (List.mem_cons_of_mem _ he)

end

end Shown

section Created

variable {stSize : Nat} {image : Nat → Bytes} {malloced : Bytes} {home : Entries}

theorem honest_rootCatalog (host : Nat → Source) : Honest host rootCatalog where
  pos := Nat.one_pos
  root := rfl
  genuine _ hf hne := absurd (Nat.lt_one_iff.mp hf) hne

theorem ninos_closed (sfs : ImageFs) : (closed sfs).ninos = sfs.ninos := by
  rw [closed, putLog]

/-- The builder before `close_sfs`. -/
theorem openDir_root {host : Nat → Source} (hhost : home.OnHost host) {sfs sfs' : ImageFs}
    (hcreate : createSfs stSize image malloced = .ok sfs)
    (hopen : openDir (fun sfs current => readDir sfs current home) sfs sfs.root sfs.root =
      .ok sfs') :
    ∃ (w : History) (cat : Catalog) (list : List (Nat × CString)), Built stSize image sfs' w ∧
      Mirrors sfs' w cat ∧ 0 < cat.count ∧
      cat.object 0 = ⟨SFS_TYPE_DIR, 0, .entry 0 dot :: .entry 0 dotdot ::
        list.map fun e => .entry e.1 e.2⟩ ∧ StoresAll cat 0 home list := by
  have hroot := (createSfs_eq_ok_iff.mp hcreate).2
  have hkept : Kept stSize image sfs rootCatalog := by
    refine ⟨_, Built.create hcreate, ?_⟩
    rw [hroot]
    exact mirrors_rootFs _ _ _
  rw [show sfs.root = 0 by rw [hroot]; rfl] at hopen
  obtain ⟨cat, list, ⟨w, hbuilt, hmirrors⟩, _, hextends, hall⟩ :=
    openDir_stores (readDir_stores home hhost) hkept (honest_rootCatalog host) Nat.one_pos
      Nat.one_pos rfl hopen
  refine ⟨w, cat, list, hbuilt, hmirrors, lt_of_lt_of_le Nat.one_pos hextends.count_le, ?_, hall⟩
  rw [hextends.current]
  rfl

end Created

/-- The kernel finds on an image that `mksfs` has made of a directory of the host the tree below
it: the same names and no others in each directory, and the same bytes in each file and symbolic
link. -/
theorem createImg_shows {host : Nat → Source} {stSize : Nat} {image : Nat → Bytes}
    {malloced : Bytes} {home : Entries} {img : ImageFs} (hhost : home.OnHost host)
    (hlist : Listable home) (hfits : FitsAll home)
    (heq : createImg stSize image malloced home = .ok img) {dev : Device} {kmalloc : Nat → Bool}
    (hdev : dev.block = img.image) (hfaults : ∀ n, dev.faults n = none)
    (hblocks : img.ninos ≤ dev.dBlocks) (hmalloc : ∀ n, kmalloc n = true) :
    ∃ m, sfsDoMount kmalloc dev = .ok (.ok m, dev) ∧
      Listing m SFS_BLKN_ROOT SFS_BLKN_ROOT home ∧ ShowsAll m SFS_BLKN_ROOT home := by
  obtain ⟨sfs₁, hcreate, hrest⟩ := bind_eq_ok_iff.mp heq
  obtain ⟨sfs, hopen, hclose⟩ := bind_eq_ok_iff.mp hrest
  obtain ⟨w, cat, list, hbuilt, hmirrors, hpos, hobject, hall⟩ := openDir_root hhost hcreate hopen
  have hl := layout_built hbuilt
  have himg : closeSfs sfs = .ok (closed sfs) := closeSfs_eq hl
  rw [himg] at hclose
  cases hclose
  rw [ninos_closed] at hblocks
  obtain ⟨m, hmount, hfresh⟩ := fresh_of_mount hl hdev hfaults hblocks hmalloc
  have himaged : Imaged stSize image sfs w cat m := ⟨hbuilt, hmirrors, hfresh⟩
  obtain ⟨hlisting, hfound⟩ := himaged.listing hpos hobject hall hlist
  have hshows := showsAll_of_storesAll himaged home list hall hfits hfound
  rw [(root_built hbuilt).2] at hlisting hshows
  exact ⟨m, hmount, hlisting, hshows⟩

/-- A regular file of two bytes. -/
def smallFile : Node :=
  .file 5 [⟨[104, 105], by decide, by decide⟩]

/-- A file, a special file, and a directory with a second name for the file and a symbolic link. -/
def smallHome : Entries :=
  .cons (letters 1) smallFile
    (.cons (letters 2) .other
      (.cons (letters 3)
        (.dir 6 (.cons (letters 1) smallFile (.cons (letters 2) (.link 7 [97]) .nil))) .nil))

def smallHost (real : Nat) : Source :=
  if real = 5 then .file [⟨[104, 105], by decide, by decide⟩]
  else if real = 6 then .dir
  else .link

theorem onHost_smallHome : smallHome.OnHost smallHost :=
  ⟨⟨by decide, rfl⟩, trivial, ⟨by decide, rfl, ⟨by decide, rfl⟩, ⟨by decide, rfl⟩, trivial⟩,
    trivial⟩

/-- An image of 64 blocks is large enough. -/
theorem createImg_smallHome :
    ∃ img, createImg (64 * SFS_BLKSIZE) (fun _ => zeros) zeros smallHome = .ok img ∧
      img.ninos = 64 := by
  have hcreate : createSfs (64 * SFS_BLKSIZE) (fun _ => zeros) zeros =
      .ok (rootFs 64 (fun _ => zeros) zeros) :=
    createSfs_eq_ok_iff.mpr ⟨by decide, rfl⟩
  have hreturns : ((openDir (fun sfs current => readDir sfs current smallHome)
      (rootFs 64 (fun _ => zeros) zeros) 0 0).map ImageFs.ninos).toOption = some 64 := by
    decide +kernel
  cases hopen : openDir (fun sfs current => readDir sfs current smallHome)
      (rootFs 64 (fun _ => zeros) zeros) 0 0 with
  | error e =>
      rw [hopen] at hreturns
      cases hreturns
  | ok sfs =>
      rw [hopen] at hreturns
      obtain ⟨w, _, _, hbuilt, _⟩ := openDir_root onHost_smallHome hcreate hopen
      have himg : closeSfs sfs = .ok (closed sfs) := closeSfs_eq (layout_built hbuilt)
      refine ⟨closed sfs, ?_, ?_⟩
      · rw [createImg, hcreate, ok_bind]
        change openDir _ _ 0 0 >>= closeSfs = _
        rw [hopen, ok_bind, himg]
      · rw [ninos_closed]
        exact Option.some.inj hreturns

theorem listable_of_short {entries : Entries} (hnodup : (names entries).Nodup)
    (hroom : ((names entries).all fun name => decide (name.length ≤ nameRoom)) = true)
    (hlen : (names entries).length + 2 ≤ maxBlocks) : Listable entries :=
  ⟨hnodup, fun name hmem => of_decide_eq_true (List.all_eq_true.mp hroom name hmem), hlen⟩

/-- The image of a small directory. -/
theorem createImg_shows_smallHome :
    ∃ img m, createImg (64 * SFS_BLKSIZE) (fun _ => zeros) zeros smallHome = .ok img ∧
      sfsDoMount (fun _ => true) (imageDevice img) = .ok (.ok m, imageDevice img) ∧
        Listing m SFS_BLKN_ROOT SFS_BLKN_ROOT smallHome ∧
          ShowsAll m SFS_BLKN_ROOT smallHome := by
  obtain ⟨img, heq, hninos⟩ := createImg_smallHome
  have hfile : Fits smallFile := (by decide : 1 ≤ maxBlocks)
  have hdevice : (imageDevice img).block = img.image := rfl
  have hblocks : img.ninos ≤ (imageDevice img).dBlocks := by
    rw [hninos]
    exact (by decide : 64 ≤ 8192)
  obtain ⟨m, hmount, hlisting, hshows⟩ := createImg_shows onHost_smallHome
    (listable_of_short (by decide) (by decide) (by decide))
    ⟨fun _ => hfile, fun _ => trivial, fun _ =>
      ⟨listable_of_short (by decide) (by decide) (by decide), fun _ => hfile, fun _ => trivial,
        trivial⟩, trivial⟩ heq hdevice (fun _ => rfl) hblocks (fun _ => rfl)
  exact ⟨img, m, heq, hmount, hlisting, hshows⟩

end Ucore.MksfsTreeImage
