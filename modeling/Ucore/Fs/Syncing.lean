import Ucore.Fs.Mounting
import Ucore.Fs.Volumes

/-! # What a sync leaves on the disk

`sfs_sync` writes back the inodes that are marked, without a look at whether that works, and
then the superblock and the freemap if these are marked.
-/

namespace Ucore.Fs.Syncing

open Lib.Bytes Lib.Program Lib.Program.Prog Error Bitmaps Sfs SfsIo SfsInode InodeCalls SfsMount Ownership BlockSpecs
  Mounting Volumes
open WriteBack (OnDisk Written)
open TruncRuns (withFaults)

variable {s t u : SfsFs} {vol : Volume} {others : List (Nat × DiskInode)} {held : List Nat} {p : Nat}
variable {file : Nat × DiskInode} {allowed : Panic → Prop} {E : Err → SfsFs → Prop}

/-! ## The inodes -/

/-- The inodes of the list that are written back, with these faults to come. -/
def writeBacks (s : SfsFs) : List Nat → List Bool → List Nat
  | [], _ => []
  | p :: list, faults =>
      if (s.nodes p).dirty = true then
        (if goesThrough faults = true then [p] else []) ++ writeBacks s list (leftover faults)
      else writeBacks s list faults

theorem writeBacks_congr {list : List Nat} (same : ∀ p ∈ list, (t.nodes p).dirty = (s.nodes p).dirty)
    (faults : List Bool) : writeBacks t list faults = writeBacks s list faults := by
  induction list generalizing faults with
  | nil => rfl
  | cons p list ih =>
      have ih := ih fun q inside => same q (List.mem_cons_of_mem _ inside)
      rw [writeBacks, writeBacks, same p List.mem_cons_self, ih, ih]

theorem saved_node (s : SfsFs) (p : Nat) : (saved s p).nodes p = { s.nodes p with dirty := false } :=
  Function.update_self ..

theorem saved_other {q : Nat} (other : q ≠ p) : (saved s p).nodes q = s.nodes q := Function.update_of_ne other ..

theorem files_saved (s : SfsFs) (p : Nat) : ∀ q, fileOf ((saved s p).nodes q) = fileOf (s.nodes q) := by
  intro q
  by_cases here : q = p
  · rw [here, saved_node]
    rfl
  · rw [saved_other here]

theorem saved_block (s : SfsFs) (p : Nat) : (saved s p).dev.blocks (s.nodes p).ino =
    patch (s.dev.blocks (s.nodes p).ino) 0 (s.nodes p).din.bytes :=
  Function.update_self ..

theorem saved_onDisk (fits : (s.nodes p).din.Fits) : OnDisk (saved s p) p := by
  have same := files_saved s p p
  rw [fileOf, fileOf, Prod.mk.injEq] at same
  rw [OnDisk, same.1, same.2, saved_block, ← DiskInode.length_bytes fits, slice_patch, DiskInode.ofBytes_bytes fits]

/-- An inode is written back. -/
theorem now_saved (holds : Holds s vol) (member : p ∈ s.inodeList) : Now vol s (refs s) (saved s p) := by
  obtain ⟨others, held, inv, perm⟩ := holds.inv
  have same := files_saved s p
  have unmoved : ∀ others, files (saved s p) others = files s others := fun others =>
    congrArg (· ++ others) (List.map_congr_left fun q _ => same q)
  have ino : ∀ q, ((saved s p).nodes q).ino = (s.nodes q).ino := fun q => congrArg Prod.fst (same q)
  have din : ∀ q, ((saved s p).nodes q).din = (s.nodes q).din := fun q => congrArg Prod.snd (same q)
  have counts : ∀ q, ((saved s p).nodes q).refCount = (s.nodes q).refCount ∧
      ((saved s p).nodes q).reclaimCount = (s.nodes q).reclaimCount := by
    intro q
    by_cases here : q = p
    · rw [here, saved_node]
      exact ⟨rfl, rfl⟩
    · rw [saved_other here]
      exact ⟨rfl, rfl⟩
  have disk : ∀ b, b ≠ (s.nodes p).ino → (saved s p).dev.blocks b = s.dev.blocks b := fun b ne =>
    Function.update_of_ne ne ..
  have apart : ∀ b, (∀ q ∈ s.inodeList, b ≠ (s.nodes q).ino) → (saved s p).dev.blocks b = s.dev.blocks b :=
    fun b away => disk b (away p member)
  refine ⟨⟨⟨others, held, ?_, by rw [unmoved]; exact perm⟩, holds.fresh, fun q inside => ?_, fun q inside => ?_,
    fun q inside => ?_, fun q inside => ?_, fun file inside => ?_⟩,
    ⟨(List.tail_suffix _).trans (List.tail_suffix _), Nat.le_refl _, fun q _ => ino q, rfl, rfl, rfl,
      fun b inside => ?_⟩, ?_⟩
  · exact inv_remap inv (List.Perm.of_eq (unmoved others)) inv.nodes rfl rfl rfl apart fun _ old => .inl old
  · rw [din]
    exact holds.kinds q inside
  · rw [(counts q).1, (counts q).2]
    exact holds.counted q inside
  · by_cases here : q = p
    · rw [here]
      exact fun _ => saved_onDisk (holds.fits p member)
    · rw [Written, OnDisk, saved_other here, disk _ fun same => here (holds.once inside member same)]
      exact holds.written q inside
  · rw [din]
    exact holds.fits q inside
  · rw [fileData_eq inv (perm.mem_iff.mpr inside) apart]
    exact holds.data file inside
  · refine disk b fun same => ?_
    exact not_layout inv (fileOf_mem member) (b := b) (same ▸ List.mem_cons_self) inside
  · funext q
    rw [refs, refs, (counts q).1]
    rfl

/-- What the loop over the inodes has done. -/
structure Saved (vol : Volume) (list : List Nat) (s t : SfsFs) : Prop where
  now : Now vol s (refs s) t
  inodeList : t.inodeList = s.inodeList
  files : ∀ p, fileOf (t.nodes p) = fileOf (s.nodes p)
  onDisk : ∀ p ∈ s.inodeList, OnDisk t p ↔ OnDisk s p ∨ p ∈ writeBacks s list s.faults

/-- One inode, and then the others. -/
theorem Saved.cons {list : List Nat} (first : Saved vol [p] s u) (later : Saved vol list u t)
    (dirty : ∀ q ∈ list, (u.nodes q).dirty = (s.nodes q).dirty)
    (split : writeBacks s (p :: list) s.faults = writeBacks s [p] s.faults ++ writeBacks s list u.faults) :
    Saved vol (p :: list) s t where
  now := Now.trans first.now.onward (first.now.counted ▸ later.now)
  inodeList := later.inodeList.trans first.inodeList
  files q := (later.files q).trans (first.files q)
  onDisk q inside := by
    rw [later.onDisk q (first.inodeList ▸ inside), first.onDisk q inside, writeBacks_congr dirty, split,
      List.mem_append, or_assoc]

/-- The loop of `sfs_sync` gets to its end whatever the device does. -/
theorem syncInodes_spec {Q : Unit → SfsFs → Prop} {list : List Nat} (holds : Holds s vol)
    (members : list ⊆ s.inodeList) (distinct : list.Nodup) (post : ∀ t, Saved vol list s t → Q () t) :
    Spec allowed (syncInodes list) s Q E := by
  induction list generalizing s with
  | nil =>
      rw [syncInodes, spec_pure]
      exact post s ⟨Now.refl holds, rfl, fun _ => rfl, fun q _ => by simp [writeBacks]⟩
  | cons p list ih =>
      obtain ⟨fresh, distinct⟩ := List.nodup_cons.mp distinct
      have member := members List.mem_cons_self
      have go : ∀ u, Saved vol [p] s u → (∀ q, q ≠ p → (u.nodes q).dirty = (s.nodes q).dirty) →
          writeBacks s (p :: list) s.faults = writeBacks s [p] s.faults ++ writeBacks s list u.faults →
          Spec allowed (syncInodes list) u Q E := by
        intro u first dirty split
        refine ih first.now.holds (fun q inside => ?_) distinct fun t later => ?_
        · rw [first.inodeList]
          exact members (List.mem_cons_of_mem _ inside)
        · exact post t (first.cons later (fun q inside => dirty q fun same => fresh (same ▸ inside)) split)
      rw [syncInodes, spec_bind, spec_ignore]
      refine sfsFsync_due holds member (fun clean => ?_) (fun dirty through => ?_) fun dirty stuck => ?_
      · refine go s ⟨Now.refl holds, rfl, fun _ => rfl, fun q _ => ?_⟩ (fun _ _ => rfl) ?_
        · simp [writeBacks, clean]
        · simp [writeBacks, clean]
      · have faults : (saved s p).faults = leftover s.faults := (leftover_through through).symm
        refine go _ ⟨now_saved holds member, rfl, files_saved s p, fun q inside => ?_⟩ (fun q other => ?_) ?_
        · by_cases here : q = p
          · have stored := saved_onDisk (holds.fits p member)
            simp [here, stored, writeBacks, dirty, through]
          · have apart : (s.nodes q).ino ≠ (s.nodes p).ino := fun same => here (holds.once inside member same)
            have block : (saved s p).dev.blocks (s.nodes q).ino = s.dev.blocks (s.nodes q).ino :=
              Function.update_of_ne apart ..
            rw [OnDisk, saved_other here, block]
            simp [writeBacks, dirty, through, here, OnDisk]
        · rw [saved_other other]
        · simp [writeBacks, dirty, through, faults]
      · refine go _ ⟨⟨holds.withFaults _, Onward.withFaults (leftover_suffix _), rfl⟩, rfl, fun _ => rfl, fun q _ => ?_⟩
          (fun _ _ => rfl) ?_
        · simp only [writeBacks, dirty, stuck, if_true, Bool.false_eq_true, if_false, List.append_nil, List.not_mem_nil,
            or_false]
          rfl
        · simp [writeBacks, dirty, stuck, withFaults]

/-! ## The superblock and the freemap -/

/-- A superblock as mounting leaves it in memory. -/
structure Valid (super : Super) : Prop where
  magic : super.magic = SFS_MAGIC
  info : super.info.length = SFS_MAX_INFO_LEN + 1
  ends : endInfo super = super

/-- The superblock and the freemap are on the disk as they are in memory. -/
structure LayoutOnDisk (s : SfsFs) : Prop where
  super : endInfo (superOf s.dev) = s.super
  free : ∀ i < s.freemap.nbits, diskFree s.dev.blocks i = s.freemap.free i

/-- Only the blocks of the superblock and the freemap are written. -/
structure Relaid (s t : SfsFs) : Prop where
  rest : t = { s with dev := t.dev, superDirty := t.superDirty, faults := t.faults }
  dBlocks : t.dev.dBlocks = s.dev.dBlocks
  faults : t.faults <:+ s.faults
  disk : ∀ b ∉ layout s.super, t.dev.blocks b = s.dev.blocks b

namespace Relaid

theorem nodes (relaid : Relaid s t) : t.nodes = s.nodes := by rw [relaid.rest]

theorem inodeList (relaid : Relaid s t) : t.inodeList = s.inodeList := by rw [relaid.rest]

theorem nextNode (relaid : Relaid s t) : t.nextNode = s.nextNode := by rw [relaid.rest]

theorem super (relaid : Relaid s t) : t.super = s.super := by rw [relaid.rest]

theorem freemap (relaid : Relaid s t) : t.freemap = s.freemap := by rw [relaid.rest]

theorem refl (s : SfsFs) : Relaid s s := ⟨rfl, rfl, List.suffix_refl _, fun _ _ => rfl⟩

theorem trans (first : Relaid s t) (later : Relaid t u) : Relaid s u where
  rest := by
    rw [later.rest]
    conv => lhs; rw [first.rest]
  dBlocks := later.dBlocks.trans first.dBlocks
  faults := later.faults.trans first.faults
  disk b outside := (later.disk b (first.super ▸ outside)).trans (first.disk b outside)

theorem marked (relaid : Relaid s t) (dirty : Bool) : Relaid s { t with superDirty := dirty } where
  rest := by
    conv => lhs; rw [relaid.rest]
  dBlocks := relaid.dBlocks
  faults := relaid.faults
  disk := relaid.disk

theorem tick (s : SfsFs) : Relaid s s.tick := ⟨rfl, rfl, List.tail_suffix _, fun _ _ => rfl⟩

theorem block {b : Nat} (fixed : b ∈ layout s.super) (x : Block) : Relaid s (s.tick.setBlock b x) where
  rest := rfl
  dBlocks := rfl
  faults := List.tail_suffix _
  disk c outside := by
    refine Function.update_of_ne ?_ ..
    rintro rfl
    exact outside fixed

theorem files (relaid : Relaid s t) (others : List (Nat × DiskInode)) :
    Ownership.files t others = Ownership.files s others := by
  rw [Ownership.files, Ownership.files, relaid.nodes, relaid.inodeList]

/-- The map of a file is no part of what is written. An empty entry for the index block is not used. -/
theorem blockAt (relaid : Relaid s t) (inv : Inv s others held) (inside : file ∈ Ownership.files s others) {k : Nat}
    (up : SFS_NDIRECT ≤ k → file.2.indirect ≠ 0) :
    Ownership.blockAt t.dev.blocks file.2 k = Ownership.blockAt s.dev.blocks file.2 k := by
  rw [Ownership.blockAt, Ownership.blockAt]
  split
  · rfl
  · next high =>
      have index := mem_indexBlocks.mpr ⟨rfl, up (by omega)⟩
      rw [relaid.disk _ (not_layout inv inside (List.mem_cons_of_mem _ (List.mem_append_left _ index)))]

theorem blockAt_below (relaid : Relaid s t) (inv : Inv s others held) (inside : file ∈ Ownership.files s others)
    {k : Nat} (below : k < file.2.blocks) :
    Ownership.blockAt t.dev.blocks file.2 k = Ownership.blockAt s.dev.blocks file.2 k :=
  relaid.blockAt inv inside fun _ => (inv.files file inside).reach (by omega)

theorem ownedBy (relaid : Relaid s t) (inv : Inv s others held) (inside : file ∈ Ownership.files s others) :
    Ownership.ownedBy t.dev.blocks file = Ownership.ownedBy s.dev.blocks file := by
  rw [Ownership.ownedBy, Ownership.ownedBy, dataBlocks, dataBlocks]
  refine congrArg (fun blocks => file.1 :: (indexBlocks file.2 ++ blocks)) (List.map_congr_left fun k below => ?_)
  exact relaid.blockAt_below inv inside (List.mem_range.mp below)

theorem owned (relaid : Relaid s t) (inv : Inv s others held) :
    Ownership.owned t others = Ownership.owned s others := by
  rw [Ownership.owned, Ownership.owned, relaid.super, relaid.files]
  exact congrArg (layout s.super ++ ·) (List.flatMap_congr fun file inside => relaid.ownedBy inv inside)

theorem inv (relaid : Relaid s t) (inv : Inv s others held) : Inv t others held where
  mounted :=
    { full := relaid.freemap ▸ inv.mounted.full
      sized := by rw [relaid.freemap, relaid.super]; exact inv.mounted.sized
      bounds := by rw [relaid.freemap, relaid.super]; exact inv.mounted.bounds
      device := by rw [relaid.super, relaid.dBlocks]; exact inv.mounted.device
      unused := by rw [relaid.freemap, relaid.super]; exact inv.mounted.unused }
  nodes := relaid.inodeList ▸ inv.nodes
  files := by
    rw [relaid.files]
    intro file inside
    have ok := inv.files file inside
    refine ⟨ok.direct, ok.short, ok.reach, fun k above within up => ?_⟩
    rw [relaid.blockAt inv inside up]
    exact ok.spare k above within up
  range := by rw [relaid.owned inv, relaid.super]; exact inv.range
  inuse := by rw [relaid.owned inv, relaid.super, relaid.freemap]; exact inv.inuse
  nodup := by rw [relaid.owned inv]; exact inv.nodup
  stored file inside := by
    rw [relaid.disk _ (not_layout inv (List.mem_append_right _ inside) List.mem_cons_self)]
    exact inv.stored file inside

theorem onDisk (relaid : Relaid s t) (inv : Inv s others held) (member : p ∈ s.inodeList) :
    OnDisk t p ↔ OnDisk s p := by
  have block : t.dev.blocks (s.nodes p).ino = s.dev.blocks (s.nodes p).ino :=
    relaid.disk _ (not_layout inv (fileOf_mem member) List.mem_cons_self)
  rw [OnDisk, OnDisk, relaid.nodes, block]

theorem holds (relaid : Relaid s t) (holds : Holds s vol) : Holds t vol := by
  obtain ⟨others, held, inv, perm⟩ := holds.inv
  refine ⟨⟨others, held, relaid.inv inv, by rw [relaid.files]; exact perm⟩, ?_, ?_, ?_, fun p member => ?_, ?_,
    fun file inside => ?_⟩
  · rw [relaid.inodeList, relaid.nextNode]
    exact holds.fresh
  · rw [relaid.inodeList, relaid.nodes]
    exact holds.kinds
  · rw [relaid.inodeList, relaid.nodes]
    exact holds.counted
  · rw [relaid.inodeList] at member
    rw [Written, relaid.onDisk inv member, relaid.nodes]
    exact holds.written p member
  · rw [relaid.inodeList, relaid.nodes]
    exact holds.fits
  · have inside' := perm.mem_iff.mpr inside
    rw [← holds.data file inside]
    refine List.map_congr_left fun k below => ?_
    have below := List.mem_range.mp below
    rw [relaid.blockAt_below inv inside' below]
    exact relaid.disk _ (not_layout inv inside' (List.mem_cons_of_mem _
      (List.mem_append_right _ (List.mem_map_of_mem (List.mem_range.mpr below)))))

end Relaid

/-- The blocks of the superblock and the freemap are there to be written. -/
theorem layout_inside (inv : Inv s others held) {b : Nat} (fixed : b ∈ layout s.super) :
    b < s.super.blocks ∧ b < s.dev.dBlocks := by
  have inside := inv.range b (List.mem_append_right _ (List.mem_append_left _ fixed))
  exact ⟨inside, Nat.lt_of_lt_of_le inside inv.mounted.device⟩

theorem sfsWriteBlock_due {Q : Unit → SfsFs → Prop} {b : Block} {blkno : Nat} {check : Bool}
    (nonzero : blkno ≠ 0 ∨ check = false) (inside : blkno < s.super.blocks ∧ blkno < s.dev.dBlocks)
    (failed : E .dev s.tick) (post : Q () (s.tick.setBlock blkno b)) :
    Spec allowed (sfsWriteBlock b blkno check) s Q E := by
  simp only [sfsWriteBlock, spec_bind, spec_get, spec_ensure_of (show _ ∧ _ from ⟨nonzero, inside.1⟩), spec_modify]
  exact dopIo_due inside.2 (fun _ => failed) post

theorem writeFreemap_spec {Q : Unit → SfsFs → Prop} {bitmap : Bitmap} {count j : Nat}
    (fits : j + count ≤ freemapBlocks s.super) (inside : ∀ b ∈ layout s.super, b < s.super.blocks ∧ b < s.dev.dBlocks)
    (failed : ∀ t, Relaid s t → E .dev t)
    (post : ∀ t, Relaid s t →
      (∀ i, j ≤ i → i < j + count → t.dev.blocks (SFS_BLKN_FREEMAP + i) = freemapBlock bitmap i) →
      (∀ b < SFS_BLKN_FREEMAP + j, t.dev.blocks b = s.dev.blocks b) → Q () t) :
    Spec allowed (writeFreemap bitmap count j) s Q E := by
  induction count generalizing j s with
  | zero =>
      rw [writeFreemap, spec_pure]
      exact post s (Relaid.refl s) (fun i low high => by omega) fun _ _ => rfl
  | succ count ih =>
      have fixed : SFS_BLKN_FREEMAP + j ∈ layout s.super :=
        List.mem_cons_of_mem _ (List.mem_range'_1.mpr ⟨Nat.le_add_right _ _, by omega⟩)
      rw [writeFreemap, spec_bind]
      refine sfsWriteBlock_due (.inl (by simp [SFS_BLKN_FREEMAP])) (inside _ fixed) (failed _ (Relaid.tick s)) ?_
      have first := Relaid.block fixed (freemapBlock bitmap j)
      refine ih (by rw [first.super]; omega) inside (fun t later => failed t (first.trans later))
        fun t later written before => post t (first.trans later) (fun i low high => ?_) fun b low => ?_
      · by_cases here : i = j
        · rw [here, before _ (by omega)]
          exact Function.update_self ..
        · exact written i (by omega) (by omega)
      · rw [before b (by omega)]
        exact Function.update_of_ne (by omega) ..

/-- The words of the freemap are in its blocks. -/
theorem word_freemapBlock (bitmap : Bitmap) (j k : Nat) :
    word (freemapBlock bitmap j) k = (bitmap.map.getD (SFS_BLK_NENTRY * j + k) 0).toNat := by
  have bytes : slice (freemapBlock bitmap j) (4 * k) 4 = toLe 4 (bitmap.map.getD (SFS_BLK_NENTRY * j + k) 0).toNat := by
    refine List.ext_getElem (by simp) fun i low high => ?_
    have small : i < 4 := by simpa using high
    simp only [slice, List.getElem_map, List.getElem_range', freemapBlock]
    rw [show (4 * k + 1 * i) / 4 = k by omega, show (4 * k + 1 * i) % 4 = i by omega]
    exact List.getD_eq_getElem _ _ high
  rw [word, bytes, ofLe_toLe]
  exact (bitmap.map.getD (SFS_BLK_NENTRY * j + k) 0).isLt

theorem diskFree_freemapBlock {blocks : Nat → Block} {bitmap : Bitmap} {count : Nat}
    (written : ∀ i < count, blocks (SFS_BLKN_FREEMAP + i) = freemapBlock bitmap i) {i : Nat}
    (inside : i < count * SFS_BLKBITS) : diskFree blocks i = bitmap.free i := by
  have bits : SFS_BLKBITS = 32768 := rfl
  have words : WORD_BITS = 32 := rfl
  have entries : SFS_BLK_NENTRY = 1024 := rfl
  have block : i / SFS_BLKBITS < count := by
    rw [bits] at inside ⊢
    omega
  have index : SFS_BLK_NENTRY * (i / SFS_BLKBITS) + i % SFS_BLKBITS / WORD_BITS = i / WORD_BITS := by
    rw [bits, words, entries]
    omega
  rw [diskFree, diskWord, written _ block, word_freemapBlock, index, BitVec.ofNat_toNat, BitVec.setWidth_eq]
  rfl

theorem superOf_written {dev : Device} {super : Super} (fits : super.Fits)
    (written : dev.blocks SFS_BLKN_SUPER = patch zeros 0 super.bytes) : superOf dev = super := by
  rw [superOf, written, ← Super.length_bytes fits, slice_patch, Super.ofBytes_bytes fits]

theorem Valid.fits (valid : Valid s.super) (mounted : Mounted s) : s.super.Fits where
  magic := by
    rw [valid.magic]
    decide
  blocks := by
    have := mounted.device
    have := s.dev.small
    omega
  unusedBlocks := by
    have := freeCount_small mounted
    have := mounted.unused
    omega
  info := valid.info

/-! ## The whole sync -/

/-- What `sfs_sync` has done when it returns 0. -/
structure Synced (vol : Volume) (s t : SfsFs) : Prop where
  holds : Holds t vol
  inodeList : t.inodeList = s.inodeList
  files : ∀ p, fileOf (t.nodes p) = fileOf (s.nodes p)
  super : t.super = s.super
  freemap : t.freemap = s.freemap
  layout : LayoutOnDisk t
  onDisk : ∀ p ∈ s.inodeList, OnDisk t p ↔ OnDisk s p ∨ p ∈ writeBacks s s.inodeList s.faults

theorem LayoutOnDisk.congr (layout : LayoutOnDisk s) (mounted : Mounted s) (super : t.super = s.super)
    (freemap : t.freemap = s.freemap) (disk : ∀ b ∈ Ownership.layout s.super, t.dev.blocks b = s.dev.blocks b) :
    LayoutOnDisk t where
  super := by
    rw [super, ← layout.super, superOf, disk _ List.mem_cons_self]
    rfl
  free i inside := by
    rw [freemap] at inside ⊢
    rw [← layout.free i inside, diskFree, diskFree, diskWord, diskWord, disk]
    refine List.mem_cons_of_mem _ (List.mem_range'_1.mpr ⟨Nat.le_add_right _ _, ?_⟩)
    rw [mounted.sized] at inside
    have := Nat.div_lt_of_lt_mul (Nat.mul_comm _ _ ▸ inside)
    omega

theorem sfsSync_spec {Q : Unit → SfsFs → Prop} (holds : Holds s vol) (valid : Valid s.super)
    (clean : s.superDirty = false → LayoutOnDisk s)
    (failed : ∀ e t, Holds t vol → t.super = s.super → t.superDirty = true → E e t)
    (post : ∀ t, Synced vol s t → Q () t) : Spec allowed sfsSync s Q E := by
  obtain ⟨others, held, inv, -⟩ := holds.inv
  simp only [sfsSync, spec_bind, spec_get]
  refine syncInodes_spec holds (List.Subset.refl _) inv.nodes fun u saved => ?_
  have onward := saved.now.onward
  obtain ⟨others', held', inv', -⟩ := saved.now.holds.inv
  have valid' : Valid u.super := onward.super ▸ valid
  simp only [setSuperDirty, spec_ite, spec_bind, spec_modify, spec_pure, spec_onError, sfsSyncSuper, sfsSyncFreemap,
    spec_get]
  refine ⟨fun _ => ?_, fun unmarked => ?_⟩
  · have start : Relaid u { u with superDirty := false } := (Relaid.refl u).marked false
    have stays : ∀ e t, Relaid u t → E e { t with superDirty := true } := fun e t relaid =>
      failed e _ ((relaid.marked true).holds saved.now.holds) (relaid.super.trans onward.super) rfl
    have inside : ∀ b ∈ layout u.super, b < u.super.blocks ∧ b < u.dev.dBlocks := fun b => layout_inside inv'
    refine sfsWriteBlock_due (.inr rfl) (inside _ List.mem_cons_self) (stays _ _ (start.trans (Relaid.tick _))) ?_
    have first := start.trans (Relaid.block (s := { u with superDirty := false }) List.mem_cons_self
      (patch zeros 0 u.super.bytes))
    refine writeFreemap_spec (Nat.le_of_eq (Nat.zero_add _)) inside (fun t later => stays _ _ (first.trans later))
      fun t later written before => post t ?_
    have relaid := first.trans later
    have block : t.dev.blocks SFS_BLKN_SUPER = patch zeros 0 t.super.bytes := by
      rw [before _ (by decide), relaid.super]
      exact Function.update_self SFS_BLKN_SUPER (patch zeros 0 u.super.bytes) u.dev.blocks
    have mounted := (relaid.inv inv').mounted
    have found := superOf_written ((relaid.super ▸ valid' : Valid t.super).fits mounted) block
    refine ⟨relaid.holds saved.now.holds, relaid.inodeList.trans saved.inodeList, fun q => ?_,
      relaid.super.trans onward.super, relaid.freemap.trans onward.freemap, ⟨?_, fun i inside => ?_⟩,
      fun q member => ?_⟩
    · rw [relaid.nodes]
      exact saved.files q
    · rw [found, relaid.super]
      exact valid'.ends
    · rw [relaid.freemap]
      refine diskFree_freemapBlock (fun i below => written i (Nat.zero_le _) (by rwa [Nat.zero_add])) ?_
      rw [mounted.sized, relaid.super] at inside
      exact inside
    · rw [relaid.onDisk inv' (saved.inodeList ▸ member)]
      exact saved.onDisk q member
  · have unmarked : s.superDirty = false := by
      rw [← onward.superDirty]
      simpa using unmarked
    exact post u ⟨saved.now.holds, saved.inodeList, saved.files, onward.super, onward.freemap,
      (clean unmarked).congr inv.mounted onward.super onward.freemap onward.disk, saved.onDisk⟩

end Ucore.Fs.Syncing
