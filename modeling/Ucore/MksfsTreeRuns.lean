import Ucore.MksfsTrees

/-! What a run of `open_dir` leaves in the catalog. -/

namespace Ucore.MksfsTreeRuns

open Ucore.Panic
open Ucore.ByteBuffer
open Ucore.CStrings
open Ucore.Splice
open Ucore.SfsDisk
open Ucore.SfsNamefile (dot dotdot)
open Ucore.Mksfs
open Ucore.MksfsLayout
open Ucore.MksfsCatalog
open Ucore.MksfsTrees

/-- The object is what the host has under its inode number. -/
def Genuine (host : Nat → Source) (o : Object) : Prop :=
  match host o.real with
  | .file reads => o.type = SFS_TYPE_FILE ∧ Chunked reads ∧
      o.slots = reads.map fun ret => .data ret.bytes
  | .dir => o.type = SFS_TYPE_DIR
  | .link => o.type = SFS_TYPE_LINK

/-- Between two calls of `readdir` every object but the root is what it is on the host. -/
structure Honest (host : Nat → Source) (cat : Catalog) : Prop where
  pos : 0 < cat.count
  root : cat.object 0 = { cat.object 0 with type := SFS_TYPE_DIR, real := 0 }
  genuine : ∀ f, f < cat.count → f ≠ 0 → (cat.object f).real ≠ 0 ∧ Genuine host (cat.object f)

/-- A state of the builder that stores the catalog. -/
def Kept (stSize : Nat) (image : Nat → Bytes) (sfs : ImageFs) (cat : Catalog) : Prop :=
  ∃ w, Built stSize image sfs w ∧ Mirrors sfs w cat

section Calls

variable {stSize : Nat} {image : Nat → Bytes} {sfs sfs' : ImageFs} {cat : Catalog}
  {host : Nat → Source}

theorem Kept.count (h : Kept stSize image sfs cat) : sfs.inodeCount = cat.count := by
  obtain ⟨w, _, hm⟩ := h
  exact hm.count

theorem Kept.perform (h : Kept stSize image sfs cat) {op : Op} (hvalid : Valid sfs op)
    (heq : perform sfs op = .ok sfs') : Kept stSize image sfs' (cat.perform op) := by
  obtain ⟨w, hbuilt, hm⟩ := h
  exact ⟨_, Built.step hbuilt hvalid heq, mirrors_perform hbuilt hm hvalid heq⟩

theorem kept_allocCacheInode (h : Kept stSize image sfs cat) {real type f : Nat}
    (heq : allocCacheInode sfs real 0 type = .ok (f, sfs')) :
    f = cat.count ∧ Kept stSize image sfs' (cat.add real type) := by
  have hperform : perform sfs (.addInode real type) = .ok sfs' := by
    rw [perform, heq]
    rfl
  have hvalid : Valid sfs (.addInode real type) := trivial
  refine ⟨?_, h.perform hvalid hperform⟩
  obtain ⟨_, rfl, _⟩ := allocCacheInode_eq_ok_iff.mp heq
  exact h.count

theorem tabulate_bufferOf (bytes : List UInt8) :
    tabulate bytes.length (bufferOf bytes) = bytes := by
  apply List.ext_getElem
  · rw [length_tabulate]
  · intro k hk hk'
    simp [tabulate, bufferOf, hk']

theorem kept_storeBlock (h : Kept stSize image sfs cat) {file : Nat} {bytes : List UInt8}
    (hfile : file < cat.count)
    (heq : storeBlock sfs file (bufferOf bytes) bytes.length = .ok sfs') :
    Kept stSize image sfs' (cat.push file (.data bytes)) := by
  have hvalid : Valid sfs (.storeBlock file (bufferOf bytes) bytes.length) :=
    lt_of_lt_of_eq hfile h.count.symm
  have hkept := h.perform hvalid heq
  rwa [Catalog.perform, tabulate_bufferOf] at hkept

theorem kept_addEntry (h : Kept stSize image sfs cat) {current file : Nat} {name : CString}
    (hcurrent : current < cat.count) (hfile : file < cat.count)
    (heq : addEntry sfs current file name = .ok sfs') :
    Kept stSize image sfs' (cat.push current (.entry file name)) := by
  have hvalid : Valid sfs (.addEntry current file name) :=
    ⟨lt_of_lt_of_eq hcurrent h.count.symm, lt_of_lt_of_eq hfile h.count.symm⟩
  exact h.perform hvalid heq

theorem search_some (h : Kept stSize image sfs cat) {real f : Nat}
    (heq : searchCacheInode sfs real = some f) : f < cat.count ∧ (cat.object f).real = real := by
  obtain ⟨w, hbuilt, hm⟩ := h
  have hl := layout_built hbuilt
  have hlt := hl.inodes_lt _ f (List.mem_of_find?_eq_some heq)
  rw [hm.count] at hlt
  have hsame := List.find?_some heq
  rw [decide_eq_true_iff, hm.real f hlt] at hsame
  exact ⟨hlt, hsame⟩

end Calls

section Honesty

variable {cat cat' : Catalog} {host : Nat → Source} {c f : Nat} {new : List Slot}

theorem Honest.dir_genuine (h : Honest host cat) (hc : c < cat.count) (hne : c ≠ 0)
    (hdir : (cat.object c).type = SFS_TYPE_DIR) : host (cat.object c).real = .dir := by
  have hgenuine := (h.genuine c hc hne).2
  unfold Genuine at hgenuine
  cases hhost : host (cat.object c).real with
  | dir => rfl
  | file reads =>
      rw [hhost] at hgenuine
      rw [hgenuine.1] at hdir
      cases hdir
  | link =>
      rw [hhost] at hgenuine
      rw [show (cat.object c).type = SFS_TYPE_LINK from hgenuine] at hdir
      cases hdir

/-- A directory may get more entries. -/
theorem honest_push (h : Honest host cat) (hc : c < cat.count)
    (hdir : (cat.object c).type = SFS_TYPE_DIR) (slot : Slot) : Honest host (cat.push c slot) where
  pos := h.pos
  root := by
    rcases eq_or_ne 0 c with rfl | hne
    · rw [object_push_self]
      exact congrArg (fun o : Object => { o with slots := cat.slots 0 ++ [slot] }) h.root
    · rw [object_push_of_ne hne]
      exact h.root
  genuine f hf hne := by
    rw [real_push]
    refine ⟨(h.genuine f hf hne).1, ?_⟩
    rcases eq_or_ne f c with rfl | hother
    · unfold Genuine
      rw [real_push, h.dir_genuine hf hne hdir]
      change ((cat.push f slot).object f).type = _
      rw [type_push]
      exact hdir
    · rw [object_push_of_ne hother]
      exact (h.genuine f hf hne).2

theorem honest_new (h : Honest host cat) {o : Object} (hcount : cat'.count = cat.count + 1)
    (hold : ∀ g, g < cat.count → cat'.object g = cat.object g)
    (hnew : cat'.object cat.count = o) (hreal : o.real ≠ 0) (hgenuine : Genuine host o) :
    Honest host cat' where
  pos := by
    rw [hcount]
    exact Nat.succ_pos _
  root := by
    rw [hold 0 h.pos]
    exact h.root
  genuine f hf hne := by
    rcases Nat.eq_or_lt_of_le (Nat.le_of_lt_succ (lt_of_lt_of_eq hf hcount)) with rfl | hlt
    · rw [hnew]
      exact ⟨hreal, hgenuine⟩
    · rw [hold f hlt]
      exact h.genuine f hlt hne

end Honesty

section Files

variable {stSize : Nat} {image : Nat → Bytes} {sfs sfs' : ImageFs} {cat : Catalog}
  {host : Nat → Source} {current : Nat} {name : CString} {real : Nat}

theorem openFile_stores {reads : List Chunk} {file : Nat} :
    ∀ {sfs : ImageFs} {cat : Catalog} {last : Nat}, Kept stSize image sfs cat →
      file < cat.count → openFile sfs file last reads = .ok sfs' →
        ∃ cat', Kept stSize image sfs' cat' ∧ cat'.count = cat.count ∧
          Extends cat cat' file (reads.map fun ret => .data ret.bytes) ∧
          (reads ≠ [] → last = SFS_BLKSIZE) ∧ Chunked reads := by
  induction reads with
  | nil =>
      intro sfs cat last h _ heq
      cases heq
      exact ⟨cat, h, rfl, Extends.refl cat file, fun habsurd => absurd rfl habsurd, trivial⟩
  | cons ret reads ih =>
      intro sfs cat last h hfile heq
      obtain ⟨_, hassert, hrest⟩ := bind_eq_ok_iff.mp heq
      obtain ⟨s, hstore, hrest⟩ := bind_eq_ok_iff.mp hrest
      obtain ⟨cat', hkept, hcount, hextends, hlast, hchunked⟩ :=
        ih (kept_storeBlock h hfile hstore) hfile hrest
      exact ⟨cat', hkept, hcount, (extends_push cat file _).trans hextends,
        fun _ => kassert_eq_ok_iff.mp hassert, hlast, hchunked⟩

/-- The builder has stored the node and entered it in the directory `current`. -/
def Added (stSize : Nat) (image : Nat → Bytes) (host : Nat → Source) (sfs : ImageFs)
    (cat : Catalog) (current : Nat) (name : CString) (node : Node) : Prop :=
  ∃ cat' f, Kept stSize image sfs cat' ∧ Honest host cat' ∧
    Extends cat cat' current [.entry f name] ∧ Stores cat' current f node

/-- The entry of an object that is stored, in a directory that has not been touched since. -/
theorem added_of_stores {s : ImageFs} {cat' : Catalog} {f : Nat} {node : Node}
    (hkept : Kept stSize image s cat') (hhonest : Honest host cat')
    (hle : cat.count ≤ cat'.count) (hold : ∀ g, g < cat.count → cat'.object g = cat.object g)
    (hcurrent : current < cat.count) (hdir : (cat.object current).type = SFS_TYPE_DIR)
    (hf : f < cat'.count) (hstores : Stores cat' current f node)
    (heq : addEntry s current f name = .ok sfs') :
    Added stSize image host sfs' cat current name node := by
  have hcurrent' := lt_of_lt_of_le hcurrent hle
  have hdir' : (cat'.object current).type = SFS_TYPE_DIR := by rwa [hold current hcurrent]
  have hextends := extends_push cat' current (.entry f name)
  refine ⟨_, f, kept_addEntry hkept hcurrent' hf heq, honest_push hhonest hcurrent' hdir' _, ?_,
    stores_extends hextends hdir' node le_rfl hstores⟩
  constructor
  · exact hle
  · intro g hg hne
    rw [object_push_of_ne hne, hold g hg]
  · rw [object_push_self, Catalog.slots, Catalog.slots, hold current hcurrent]

theorem addFile_stores {reads : List Chunk} (h : Kept stSize image sfs cat)
    (hhonest : Honest host cat) (hcurrent : current < cat.count)
    (hdir : (cat.object current).type = SFS_TYPE_DIR)
    (hhost : (Node.file real reads).OnHost host)
    (heq : addFile sfs current name reads real = .ok sfs') :
    Added stSize image host sfs' cat current name (.file real reads) := by
  obtain ⟨hreal, hsource⟩ := hhost
  unfold addFile at heq
  cases hsearch : searchCacheInode sfs real with
  | some file =>
      rw [hsearch] at heq
      obtain ⟨hfile, rfl⟩ := search_some h hsearch
      have hne : file ≠ 0 := by
        rintro rfl
        rw [hhonest.root] at hreal
        exact hreal rfl
      have hgenuine := (hhonest.genuine file hfile hne).2
      unfold Genuine at hgenuine
      rw [hsource] at hgenuine
      obtain ⟨htype, hchunked, hslots⟩ := hgenuine
      refine added_of_stores h hhonest le_rfl (fun _ _ => rfl) hcurrent hdir hfile ?_ heq
      exact ⟨hfile, hchunked, by rw [← htype, ← hslots]⟩
  | none =>
      rw [hsearch] at heq
      obtain ⟨⟨f, s₁⟩, halloc, hrest⟩ := bind_eq_ok_iff.mp heq
      obtain ⟨rfl, hkept⟩ := kept_allocCacheInode h halloc
      obtain ⟨s₂, hopen, hentry⟩ := bind_eq_ok_iff.mp hrest
      have hnew : cat.count < (cat.add real SFS_TYPE_FILE).count := Nat.lt_succ_self _
      obtain ⟨cat', hkept', hcount, hextends, _, hchunked⟩ := openFile_stores hkept hnew hopen
      have hold : ∀ g, g < cat.count → cat'.object g = cat.object g := fun g hg =>
        hextends.of_new le_rfl (Nat.le_succ _) (fun k hk => object_add_of_ne (Nat.ne_of_lt hk)) hg
      have hobject : cat'.object cat.count =
          ⟨SFS_TYPE_FILE, real, reads.map fun ret => .data ret.bytes⟩ := by
        rw [hextends.current, Catalog.slots, object_add_self]
        rfl
      have hhonest' : Honest host cat' := by
        apply honest_new hhonest hcount hold hobject hreal
        unfold Genuine
        rw [hsource]
        exact ⟨rfl, hchunked, rfl⟩
      have hf : cat.count < cat'.count := lt_of_lt_of_eq hnew hcount.symm
      exact added_of_stores hkept' hhonest' (Nat.le_of_lt hf) hold hcurrent hdir hf
        ⟨hf, hchunked, hobject⟩ hentry

theorem addLink_stores {target : List UInt8} (h : Kept stSize image sfs cat)
    (hhonest : Honest host cat) (hcurrent : current < cat.count)
    (hdir : (cat.object current).type = SFS_TYPE_DIR)
    (hhost : (Node.link real target).OnHost host)
    (heq : addLink sfs current name target real = .ok sfs') :
    Added stSize image host sfs' cat current name (.link real target) := by
  obtain ⟨hreal, hsource⟩ := hhost
  obtain ⟨⟨f, s₁⟩, halloc, hrest⟩ := bind_eq_ok_iff.mp heq
  obtain ⟨rfl, hkept⟩ := kept_allocCacheInode h halloc
  obtain ⟨s₂, hopen, hentry⟩ := bind_eq_ok_iff.mp hrest
  unfold openLink at hopen
  split at hopen
  · cases hopen
  have hnew : cat.count < (cat.add real SFS_TYPE_LINK).count := Nat.lt_succ_self _
  have hkept' := kept_storeBlock hkept hnew hopen
  have hold : ∀ g, g < cat.count →
      ((cat.add real SFS_TYPE_LINK).push cat.count (.data target)).object g = cat.object g := by
    intro g hg
    rw [object_push_of_ne (Nat.ne_of_lt hg), object_add_of_ne (Nat.ne_of_lt hg)]
  have hobject : ((cat.add real SFS_TYPE_LINK).push cat.count (.data target)).object cat.count =
      ⟨SFS_TYPE_LINK, real, [.data target]⟩ := by
    rw [object_push_self, Catalog.slots, object_add_self]
    rfl
  have hhonest' : Honest host ((cat.add real SFS_TYPE_LINK).push cat.count (.data target)) := by
    apply honest_new hhonest rfl hold hobject hreal
    unfold Genuine
    rw [hsource]
  exact added_of_stores hkept' hhonest' (Nat.le_succ _) hold hcurrent hdir hnew ⟨hnew, hobject⟩
    hentry

end Files

section Directories

variable {stSize : Nat} {image : Nat → Bytes} {host : Nat → Source}

theorem skipped_of_hidden {name : CString} (h : hidden name = true) (node : Node) :
    skipped name node = true := by
  cases node with
  | other => rfl
  | link real target => exact h
  | dir real entries => exact h
  | file real reads => exact h

theorem skipped_of_shown {name : CString} (h : hidden name = false) {node : Node}
    (hne : node ≠ .other) : skipped name node = false := by
  cases node with
  | other => exact absurd rfl hne
  | link real target => exact h
  | dir real entries => exact h
  | file real reads => exact h

/-- What the loop of `open_dir` does for the entries of the directory `current`. -/
def Reads (stSize : Nat) (image : Nat → Bytes) (host : Nat → Source) (entries : Entries) : Prop :=
  ∀ (sfs sfs' : ImageFs) (cat : Catalog) (current : Nat), Kept stSize image sfs cat →
    Honest host cat → current < cat.count → (cat.object current).type = SFS_TYPE_DIR →
      readDir sfs current entries = .ok sfs' →
        ∃ (cat' : Catalog) (list : List (Nat × CString)), Kept stSize image sfs' cat' ∧
          Honest host cat' ∧ Extends cat cat' current (list.map fun e => .entry e.1 e.2) ∧
            StoresAll cat' current entries list

/-- `open_dir` on a directory whose loop does what it should. -/
theorem openDir_stores {entries : Entries} (hreads : Reads stSize image host entries)
    {sfs sfs' : ImageFs} {cat : Catalog} {current parent : Nat} (h : Kept stSize image sfs cat)
    (hhonest : Honest host cat) (hcurrent : current < cat.count) (hparent : parent < cat.count)
    (hdir : (cat.object current).type = SFS_TYPE_DIR)
    (heq : openDir (fun sfs current => readDir sfs current entries) sfs current parent =
      .ok sfs') :
    ∃ (cat' : Catalog) (list : List (Nat × CString)), Kept stSize image sfs' cat' ∧
      Honest host cat' ∧
      Extends cat cat' current (.entry current dot :: .entry parent dotdot ::
        list.map fun e => .entry e.1 e.2) ∧ StoresAll cat' current entries list := by
  obtain ⟨s₁, hself, hrest⟩ := bind_eq_ok_iff.mp heq
  obtain ⟨s₂, hup, hread⟩ := bind_eq_ok_iff.mp hrest
  have hkept₁ := kept_addEntry h hcurrent hcurrent hself
  have hdir₁ : ((cat.push current (.entry current dot)).object current).type = SFS_TYPE_DIR := by
    rwa [type_push]
  have hkept₂ := kept_addEntry hkept₁ hcurrent hparent hup
  obtain ⟨cat', list, hkept', hhonest', hextends, hall⟩ :=
    hreads _ _ _ _ hkept₂ (honest_push (honest_push hhonest hcurrent hdir _) hcurrent hdir₁ _)
      hcurrent (by rwa [type_push]) hread
  exact ⟨cat', list, hkept', hhonest',
    (extends_push cat current _).trans ((extends_push _ current _).trans hextends), hall⟩

theorem addDir_stores {entries : Entries} (hreads : Reads stSize image host entries)
    {sfs sfs' : ImageFs} {cat : Catalog} {current real : Nat} {name : CString}
    (h : Kept stSize image sfs cat) (hhonest : Honest host cat) (hcurrent : current < cat.count)
    (hdir : (cat.object current).type = SFS_TYPE_DIR) (hreal : real ≠ 0)
    (hsource : host real = .dir)
    (heq : addDir (fun sfs current => readDir sfs current entries) sfs current name real =
      .ok sfs') :
    Added stSize image host sfs' cat current name (.dir real entries) := by
  obtain ⟨_, _, hrest⟩ := bind_eq_ok_iff.mp heq
  obtain ⟨⟨f, s₁⟩, halloc, hrest⟩ := bind_eq_ok_iff.mp hrest
  obtain ⟨rfl, hkept⟩ := kept_allocCacheInode h halloc
  obtain ⟨s₂, hopen, hentry⟩ := bind_eq_ok_iff.mp hrest
  have hnew : cat.count < (cat.add real SFS_TYPE_DIR).count := Nat.lt_succ_self _
  have hadded := @object_add_self cat real SFS_TYPE_DIR
  have hhonest₁ : Honest host (cat.add real SFS_TYPE_DIR) := by
    apply honest_new hhonest rfl (fun g hg => object_add_of_ne (Nat.ne_of_lt hg)) hadded hreal
    unfold Genuine
    rw [hsource]
  obtain ⟨cat', list, hkept', hhonest', hextends, hall⟩ := openDir_stores hreads hkept hhonest₁
    hnew (lt_trans hcurrent hnew) (by rw [hadded]) hopen
  have hold : ∀ g, g < cat.count → cat'.object g = cat.object g := fun g hg =>
    hextends.of_new le_rfl (Nat.le_succ _) (fun k hk => object_add_of_ne (Nat.ne_of_lt hk)) hg
  have hf : cat.count < cat'.count := lt_of_lt_of_le hnew hextends.count_le
  refine added_of_stores hkept' hhonest' (Nat.le_of_lt hf) hold hcurrent hdir hf ?_ hentry
  refine ⟨hf, hcurrent, list, ?_, hall⟩
  rw [hextends.current, Catalog.slots, hadded]
  rfl

mutual

theorem addNode_stores {sfs sfs' : ImageFs} {cat : Catalog} {current : Nat} {name : CString}
    (h : Kept stSize image sfs cat) (hhonest : Honest host cat) (hcurrent : current < cat.count)
    (hdir : (cat.object current).type = SFS_TYPE_DIR) : ∀ node : Node, node.OnHost host →
      node ≠ .other → addNode sfs current name node = .ok sfs' →
        Added stSize image host sfs' cat current name node
  | .link _ _, hhost, _, heq => addLink_stores h hhonest hcurrent hdir hhost heq
  | .file _ _, hhost, _, heq => addFile_stores h hhonest hcurrent hdir hhost heq
  | .other, _, hne, _ => absurd rfl hne
  | .dir _ entries, hhost, _, heq =>
      addDir_stores (readDir_stores entries hhost.2.2) h hhonest hcurrent hdir hhost.1 hhost.2.1 heq

theorem readDir_stores : ∀ entries : Entries, entries.OnHost host →
    Reads stSize image host entries
  | .nil, _ => by
      intro sfs sfs' cat current h hhonest _ _ heq
      cases heq
      exact ⟨cat, [], h, hhonest, Extends.refl cat current, rfl⟩
  | .cons name node rest, hhost => by
      intro sfs sfs' cat current h hhonest hcurrent hdir heq
      have hrest : Reads stSize image host rest := readDir_stores rest hhost.2
      have hskip : skipped name node = true → readDir sfs current rest = .ok sfs' →
          ∃ (cat' : Catalog) (list : List (Nat × CString)), Kept stSize image sfs' cat' ∧
            Honest host cat' ∧ Extends cat cat' current (list.map fun e => .entry e.1 e.2) ∧
              StoresAll cat' current (.cons name node rest) list := by
        intro hskipped hread
        obtain ⟨cat', list, hkept, hhonest', hextends, hall⟩ :=
          hrest sfs sfs' cat current h hhonest hcurrent hdir hread
        refine ⟨cat', list, hkept, hhonest', hextends, ?_⟩
        unfold StoresAll
        rwa [if_pos hskipped]
      unfold readDir at heq
      split at heq
      · next hdots =>
        refine hskip (skipped_of_hidden ?_ node) heq
        rcases hdots with rfl | rfl
        · rfl
        · rfl
      split at heq
      · next hhidden => exact hskip (skipped_of_hidden hhidden node) heq
      next hshown =>
      obtain ⟨_, hassert, heq⟩ := bind_eq_ok_iff.mp heq
      obtain ⟨s, hnode, hread⟩ := bind_eq_ok_iff.mp heq
      by_cases hother : node = .other
      · subst hother
        cases hnode
        exact hskip rfl hread
      obtain ⟨cat₁, f, hkept₁, hhonest₁, hextends₁, hstores⟩ :=
        addNode_stores h hhonest hcurrent hdir node hhost.1 hother hnode
      have hdir₁ : (cat₁.object current).type = SFS_TYPE_DIR := by rwa [hextends₁.type]
      obtain ⟨cat', list, hkept, hhonest', hextends, hall⟩ := hrest s sfs' cat₁ current hkept₁
        hhonest₁ (lt_of_lt_of_le hcurrent hextends₁.count_le) hdir₁ hread
      refine ⟨cat', (f, name) :: list, hkept, hhonest', hextends₁.trans hextends, ?_⟩
      unfold StoresAll
      rw [if_neg (by rw [skipped_of_shown (Bool.eq_false_iff.mpr hshown) hother]; decide)]
      exact ⟨f, list, rfl, kassert_eq_ok_iff.mp hassert,
        stores_extends hextends hdir₁ node le_rfl hstores, hall⟩

end

end Directories

end Ucore.MksfsTreeRuns
