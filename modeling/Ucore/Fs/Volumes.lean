import Ucore.Lib.Counts
import Ucore.Fs.WriteBack

/-! # Volumes

A volume is what a file system holds: its files, and what is in their blocks. Inodes come
into memory and go out of it again while references to them are taken and dropped; the
volume stays the same.
-/

namespace Ucore.Fs.Volumes

open Lib.Bytes Lib.Counts Lib.Program Lib.Program.Prog Error Bitmaps Sfs SfsIo SfsInode InodeCalls Ownership
  BlockSpecs BmapSpecs
open WriteBack (OnDisk Written setNode_dirty)
open TruncRuns (withFaults)

structure Volume where
  files : List (Nat × DiskInode)
  data : Nat → List Block

/-- The blocks of a file, in order. -/
def fileData (blocks : Nat → Block) (din : DiskInode) : List Block :=
  (List.range din.blocks).map fun k => blocks (blockAt blocks din k)

/-- The references to an inode. One that is not in memory has none. -/
def refs (s : SfsFs) (p : Nat) : Nat := if p ∈ s.inodeList then (s.nodes p).refCount else 0

/-- A consistent file system that holds the volume. -/
structure Holds (s : SfsFs) (vol : Volume) : Prop where
  inv : ∃ others held, Inv s others held ∧ (files s others).Perm vol.files
  fresh : ∀ p ∈ s.inodeList, p < s.nextNode
  kinds : ∀ p ∈ s.inodeList, (s.nodes p).din.type = SFS_TYPE_DIR ∨ (s.nodes p).din.type = SFS_TYPE_FILE
  counted : ∀ p ∈ s.inodeList, 0 < (s.nodes p).refCount → 0 < (s.nodes p).reclaimCount
  written : ∀ p ∈ s.inodeList, Written s p
  fits : ∀ p ∈ s.inodeList, (s.nodes p).din.Fits
  data : ∀ file ∈ vol.files, fileData s.dev.blocks file.2 = vol.data file.1

/-- What becomes of the inodes while references are taken and dropped. The superblock and the
    freemap stay as they are, in memory and on the disk. -/
structure Onward (s t : SfsFs) : Prop where
  faults : t.faults <:+ s.faults
  nextNode : s.nextNode ≤ t.nextNode
  inos : ∀ p < s.nextNode, (t.nodes p).ino = (s.nodes p).ino
  super : t.super = s.super
  freemap : t.freemap = s.freemap
  superDirty : t.superDirty = s.superDirty
  disk : ∀ b ∈ layout s.super, t.dev.blocks b = s.dev.blocks b

/-- One of the operations of the device or allocations done in the meantime has failed. -/
def Failing (s t : SfsFs) : Prop := ∃ used, used ++ t.faults = s.faults ∧ true ∈ used

variable {s t : SfsFs} {vol : Volume} {others : List (Nat × DiskInode)} {held : List Nat} {p : Nat}
variable {file : Nat × DiskInode} {allowed : Panic → Prop} {E : Err → SfsFs → Prop}

namespace Onward

theorem refl (s : SfsFs) : Onward s s :=
  ⟨List.suffix_refl _, Nat.le_refl _, fun _ _ => rfl, rfl, rfl, rfl, fun _ _ => rfl⟩

theorem trans {u : SfsFs} (first : Onward s t) (second : Onward t u) : Onward s u where
  faults := second.faults.trans first.faults
  nextNode := first.nextNode.trans second.nextNode
  inos p old := (second.inos p (Nat.lt_of_lt_of_le old first.nextNode)).trans (first.inos p old)
  super := second.super.trans first.super
  freemap := second.freemap.trans first.freemap
  superDirty := second.superDirty.trans first.superDirty
  disk b inside := (second.disk b (first.super ▸ inside)).trans (first.disk b inside)

theorem withFaults {faults : List Bool} (later : faults <:+ s.faults) : Onward s (withFaults s faults) :=
  ⟨later, Nat.le_refl _, fun _ _ => rfl, rfl, rfl, rfl, fun _ _ => rfl⟩

theorem tick (s : SfsFs) : Onward s s.tick := withFaults (List.tail_suffix _)

end Onward

theorem Failing.after {u : SfsFs} (failing : Failing t u) (before : t.faults <:+ s.faults) : Failing s u := by
  obtain ⟨used, split, failed⟩ := failing
  obtain ⟨first, rest⟩ := before
  exact ⟨first ++ used, by rw [List.append_assoc, split, rest], List.mem_append_right _ failed⟩

theorem Failing.before {u : SfsFs} (failing : Failing s t) (later : u.faults <:+ t.faults) : Failing s u := by
  obtain ⟨used, split, failed⟩ := failing
  obtain ⟨more, rest⟩ := later
  exact ⟨used ++ more, by rw [List.append_assoc, rest, split], List.mem_append_left _ failed⟩

theorem failing_tick (fault : s.faults.headD false = true) : Failing s s.tick := by
  cases pending : s.faults with
  | nil => simp [pending] at fault
  | cons first rest =>
      refine ⟨[first], by simp [SfsFs.tick, pending], ?_⟩
      simpa [pending] using Eq.symm fault

/-- Without faults nothing fails. -/
theorem not_failing (works : s.faults = []) : ¬ Failing s t := by
  rintro ⟨used, split, failed⟩
  rw [works] at split
  rw [List.eq_nil_of_append_eq_nil split |>.1] at failed
  cases failed

/-! ## The files of a volume -/

theorem names (inv : Inv s others held) : ((files s others).map Prod.fst).Nodup := by
  have distinct := (List.nodup_append.mp (List.nodup_append.mp inv.nodup).2.1).2.1
  refine List.pairwise_map.mpr ((List.nodup_flatMap.mp distinct).2.imp fun {a b} apart same => ?_)
  refine apart (a := a.1) List.mem_cons_self ?_
  rw [same]
  exact List.mem_cons_self

/-- The blocks of a file are not those of the superblock and the freemap. -/
theorem not_layout {b : Nat} (inv : Inv s others held) (inside : file ∈ files s others)
    (mine : b ∈ ownedBy s.dev.blocks file) : b ∉ layout s.super := fun fixed =>
  (List.nodup_append.mp (List.nodup_append.mp inv.nodup).2.1).2.2 b fixed b
    (List.mem_flatMap.mpr ⟨file, inside, mine⟩) rfl

/-- The block of an inode in memory is no index block and no block of data. -/
theorem inode_apart (inv : Inv s others held) (member : p ∈ s.inodeList) (inside : file ∈ files s others) :
    (s.nodes p).ino ∉ indexBlocks file.2 ++ dataBlocks s.dev.blocks file.2 := by
  intro here
  have theirs : (s.nodes p).ino ∈ ownedBy s.dev.blocks file := List.mem_cons_of_mem _ here
  have mine : (s.nodes p).ino ∈ ownedBy s.dev.blocks (fileOf (s.nodes p)) := List.mem_cons_self
  obtain ⟨lo, hi, split⟩ := List.append_of_mem inside
  have distinct := (List.nodup_append.mp (List.nodup_append.mp inv.nodup).2.1).2.1
  have itself : fileOf (s.nodes p) = file ∨ fileOf (s.nodes p) ∈ lo ++ hi := by
    have both : fileOf (s.nodes p) ∈ files s others := fileOf_mem member
    rw [split] at both
    simp only [List.mem_append, List.mem_cons] at both ⊢
    tauto
  rcases itself with same | rest
  · have own := (List.nodup_flatMap.mp distinct).1 _ inside
    rw [← same] at own here
    exact (List.nodup_cons.mp own).1 here
  · exact inv.apart_of_split split rest theirs mine

/-- What is written in place of inodes in memory changes no index block. -/
theorem index_kept (inv : Inv s others held) (inside : file ∈ files s others)
    (disk : ∀ b, (∀ p ∈ s.inodeList, b ≠ (s.nodes p).ino) → t.dev.blocks b = s.dev.blocks b) :
    t.dev.blocks file.2.indirect = s.dev.blocks file.2.indirect := by
  refine disk _ fun p member same => ?_
  by_cases zero : file.2.indirect = 0
  · have mine : (s.nodes p).ino ∈ ownedBy s.dev.blocks (fileOf (s.nodes p)) := List.mem_cons_self
    exact (inv.inuse_of_file (fileOf_mem member) mine).1 (same ▸ zero)
  · exact inode_apart inv member inside (List.mem_append_left _ (mem_indexBlocks.mpr ⟨same.symm, zero⟩))

/-- Files go from the disk into memory and back. -/
theorem inv_remap {others' : List (Nat × DiskInode)} (inv : Inv s others held)
    (perm : (files t others').Perm (files s others)) (list : t.inodeList.Nodup) (super : t.super = s.super)
    (freemap : t.freemap = s.freemap) (device : t.dev.dBlocks = s.dev.dBlocks)
    (disk : ∀ b, (∀ p ∈ s.inodeList, b ≠ (s.nodes p).ino) → t.dev.blocks b = s.dev.blocks b)
    (stored : ∀ file ∈ others', file ∈ others ∨
      DiskInode.ofBytes (slice (t.dev.blocks file.1) 0 DiskInode.sizeof) = file.2) : Inv t others' held := by
  have owned : (held ++ owned t others').Perm (held ++ owned s others) := by
    refine List.Perm.append_left _ ?_
    rw [Ownership.owned, Ownership.owned, super]
    refine List.Perm.append_left _ ((perm.flatMap_right _).trans (List.Perm.of_eq ?_))
    exact List.flatMap_congr fun file inside => ownedBy_congr (index_kept inv inside disk)
  refine
    { mounted := ⟨by rw [freemap]; exact inv.mounted.full, by rw [freemap, super]; exact inv.mounted.sized,
        by rw [freemap, super]; exact inv.mounted.bounds, by rw [super, device]; exact inv.mounted.device,
        by rw [freemap, super]; exact inv.mounted.unused⟩
      nodes := list
      files := fun file inside => ?_
      range := fun b here => by rw [super]; exact inv.range b (owned.mem_iff.mp here)
      inuse := fun b bound => by rw [freemap, owned.mem_iff]; exact inv.inuse b (super ▸ bound)
      nodup := owned.nodup_iff.mpr inv.nodup
      stored := fun file inside => ?_ }
  · have inside := perm.mem_iff.mp inside
    exact (inv.files file inside).congr (index_kept inv inside disk)
  · rcases stored file inside with old | same
    · rw [disk file.1 fun p member same => ?_]
      · exact inv.stored file old
      · obtain ⟨lo, hi, rest, split, -⟩ := files_split_self inv.nodes member others
        have mine : (s.nodes p).ino ∈ ownedBy s.dev.blocks (fileOf (s.nodes p)) := List.mem_cons_self
        have theirs : file.1 ∈ ownedBy s.dev.blocks file := List.mem_cons_self
        exact inv.apart_of_split split (List.mem_append_right _ (rest old)) mine (same ▸ theirs)
    · exact same

theorem fileData_eq (inv : Inv s others held) (inside : file ∈ files s others)
    (disk : ∀ b, (∀ p ∈ s.inodeList, b ≠ (s.nodes p).ino) → t.dev.blocks b = s.dev.blocks b) :
    fileData t.dev.blocks file.2 = fileData s.dev.blocks file.2 := by
  refine List.map_congr_left fun k below => ?_
  rw [blockAt_congr (index_kept inv inside disk)]
  refine disk _ fun p member same => inode_apart inv member inside (List.mem_append_right _ ?_)
  rw [← same]
  exact List.mem_map_of_mem below

theorem setNode_self (s : SfsFs) (p : Nat) (f : SfsInode → SfsInode) : (s.setNode p f).nodes p = f (s.nodes p) :=
  Function.update_self ..

theorem setNode_of_ne {q : Nat} (other : q ≠ p) (f : SfsInode → SfsInode) : (s.setNode p f).nodes q = s.nodes q :=
  Function.update_of_ne other ..

namespace Holds

theorem mem_files (holds : Holds s vol) (member : p ∈ s.inodeList) : fileOf (s.nodes p) ∈ vol.files := by
  obtain ⟨others, held, -, perm⟩ := holds.inv
  exact perm.mem_iff.mp (fileOf_mem member)

theorem short (holds : Holds s vol) (member : p ∈ s.inodeList) : (s.nodes p).din.blocks < 2 ^ 31 := by
  obtain ⟨others, held, inv, -⟩ := holds.inv
  have short := (inv.file member).short
  simp only [SFS_NDIRECT, SFS_BLK_NENTRY, SFS_BLKSIZE] at short
  omega

/-- A number names one file. -/
theorem unique (holds : Holds s vol) {other : Nat × DiskInode} (left : file ∈ vol.files)
    (right : other ∈ vol.files) (same : file.1 = other.1) : file = other := by
  obtain ⟨others, held, inv, perm⟩ := holds.inv
  have distinct := (perm.map Prod.fst).nodup_iff.mp (names inv)
  exact List.inj_on_of_nodup_map distinct left right same

/-- An inode is in memory once. -/
theorem once (holds : Holds s vol) {q : Nat} (left : p ∈ s.inodeList) (right : q ∈ s.inodeList)
    (same : (s.nodes p).ino = (s.nodes q).ino) : p = q := by
  obtain ⟨others, held, inv, -⟩ := holds.inv
  have distinct := names inv
  rw [files, List.map_append, List.map_map] at distinct
  exact List.inj_on_of_nodup_map (List.nodup_append.mp distinct).1 left right same

theorem withFaults (holds : Holds s vol) (faults : List Bool) : Holds (withFaults s faults) vol := by
  obtain ⟨others, held, inv, perm⟩ := holds.inv
  exact ⟨⟨others, held, inv.congr rfl rfl rfl rfl rfl, perm⟩, holds.fresh, holds.kinds, holds.counted, holds.written,
    holds.fits, holds.data⟩

theorem tick (holds : Holds s vol) : Holds s.tick vol := holds.withFaults s.faults.tail

/-- Only counts of an inode change. -/
theorem recount (holds : Holds s vol) {f : SfsInode → SfsInode} (ino : (f (s.nodes p)).ino = (s.nodes p).ino)
    (din : (f (s.nodes p)).din = (s.nodes p).din) (dirty : (f (s.nodes p)).dirty = (s.nodes p).dirty)
    (counted : 0 < (f (s.nodes p)).refCount → 0 < (f (s.nodes p)).reclaimCount) : Holds (s.setNode p f) vol := by
  have same : ∀ q, ((s.setNode p f).nodes q).ino = (s.nodes q).ino ∧ ((s.setNode p f).nodes q).din = (s.nodes q).din ∧
      ((s.setNode p f).nodes q).dirty = (s.nodes q).dirty := by
    intro q
    by_cases here : q = p
    · rw [here, setNode_self]
      exact ⟨ino, din, dirty⟩
    · rw [setNode_of_ne here]
      exact ⟨rfl, rfl, rfl⟩
  have unmoved : ∀ others, files (s.setNode p f) others = files s others := by
    intro others
    refine congrArg (· ++ others) (List.map_congr_left fun q _ => ?_)
    rw [fileOf, fileOf, (same q).1, (same q).2.1]
  obtain ⟨others, held, inv, perm⟩ := holds.inv
  refine ⟨⟨others, held, ?_, by rw [unmoved]; exact perm⟩, holds.fresh, fun q member => ?_, fun q member => ?_,
    fun q member => ?_, fun q member => ?_, holds.data⟩
  · exact inv_remap inv (List.Perm.of_eq (unmoved others)) inv.nodes rfl rfl rfl (fun _ _ => rfl) fun _ old => .inl old
  · rw [(same q).2.1]
    exact holds.kinds q member
  · by_cases here : q = p
    · rw [here, setNode_self]
      exact counted
    · rw [setNode_of_ne here]
      exact holds.counted q member
  · rw [Written, OnDisk, (same q).1, (same q).2.1, (same q).2.2]
    exact holds.written q member
  · rw [(same q).2.1]
    exact holds.fits q member

end Holds

theorem refs_setNode (member : p ∈ s.inodeList) (f : SfsInode → SfsInode) :
    refs (s.setNode p f) = Function.update (refs s) p (f (s.nodes p)).refCount := by
  funext q
  by_cases here : q = p
  · rw [here, Function.update_self, refs, if_pos (show p ∈ (s.setNode p f).inodeList from member), setNode_self]
  · rw [Function.update_of_ne here, refs, refs, setNode_of_ne here]
    rfl

theorem mem_of_refs (held : 0 < refs s p) : p ∈ s.inodeList := by
  by_contra out
  simp [refs, out] at held

theorem refs_eq (member : p ∈ s.inodeList) : refs s p = (s.nodes p).refCount := if_pos member

theorem onward_setNode {f : SfsInode → SfsInode} (ino : (f (s.nodes p)).ino = (s.nodes p).ino) :
    Onward s (s.setNode p f) := by
  refine ⟨List.suffix_refl _, Nat.le_refl _, fun q _ => ?_, rfl, rfl, rfl, fun _ _ => rfl⟩
  by_cases here : q = p
  · rw [here, setNode_self, ino]
  · rw [setNode_of_ne here]

/-! ## Taking and dropping references -/

/-- The volume is there as before, and the references are counted like this. -/
structure Now (vol : Volume) (s : SfsFs) (counts : Nat → Nat) (t : SfsFs) : Prop where
  holds : Holds t vol
  onward : Onward s t
  counted : refs t = counts

theorem Now.refl (holds : Holds s vol) : Now vol s (refs s) s := ⟨holds, Onward.refl s, rfl⟩

theorem Now.trans {u : SfsFs} {counts : Nat → Nat} (first : Onward s t) (now : Now vol t counts u) :
    Now vol s counts u :=
  ⟨now.holds, first.trans now.onward, now.counted⟩

theorem Now.tick (holds : Holds s vol) : Now vol s (refs s) s.tick := ⟨holds.tick, Onward.tick s, rfl⟩

/-- A file in memory that is still referred to is the same file. -/
theorem Now.same {counts : Nat → Nat} (now : Now vol s counts t) (holds : Holds s vol) (before : p ∈ s.inodeList)
    (after : p ∈ t.inodeList) : fileOf (t.nodes p) = fileOf (s.nodes p) :=
  now.holds.unique (now.holds.mem_files after) (holds.mem_files before) (now.onward.inos p (holds.fresh p before))

theorem inodeRefInc_spec {Q : Unit → SfsFs → Prop} (holds : Holds s vol) (held : 0 < refs s p)
    (post : ∀ t, Now vol s (gain (refs s) p) t → Q () t) : Spec allowed (inodeRefInc p) s Q E := by
  have member := mem_of_refs held
  rw [refs_eq member] at held
  rw [inodeRefInc, spec_modify]
  refine post _ ⟨holds.recount rfl rfl rfl fun _ => holds.counted p member held, onward_setNode rfl, ?_⟩
  rw [refs_setNode member, ← refs_eq member]
  rfl

/-- An inode that is in memory is found there. -/
theorem lookupSfsNolock_spec {ino : Nat} {Q : Option Nat → SfsFs → Prop} (holds : Holds s vol)
    (absent : (∀ p ∈ s.inodeList, (s.nodes p).ino ≠ ino) → Q none s)
    (present : ∀ p ∈ s.inodeList, (s.nodes p).ino = ino → ∀ t, Now vol s (gain (refs s) p) t → p ∈ t.inodeList →
      fileOf (t.nodes p) = fileOf (s.nodes p) → Q (some p) t) : Spec allowed (lookupSfsNolock ino) s Q E := by
  simp only [lookupSfsNolock, spec_bind, spec_get]
  cases search : s.inodeList.find? fun sin => (s.nodes sin).ino = ino with
  | none =>
      rw [List.find?_eq_none] at search
      exact absent (by simpa using search)
  | some p =>
      have member := List.mem_of_find?_eq_some search
      have here : (s.nodes p).ino = ino := by simpa using List.find?_some search
      have old := refs_eq member
      have post : ∀ f : SfsInode → SfsInode, (f (s.nodes p)).ino = (s.nodes p).ino →
        (f (s.nodes p)).din = (s.nodes p).din →
          (f (s.nodes p)).dirty = (s.nodes p).dirty → (f (s.nodes p)).refCount = (s.nodes p).refCount + 1 →
          0 < (f (s.nodes p)).reclaimCount → Q (some p) (s.setNode p f) := by
        intro f ino din dirty count reclaim
        refine present p member here _ ⟨holds.recount ino din dirty fun _ => reclaim, onward_setNode ino, ?_⟩ member ?_
        · rw [refs_setNode member, count, ← old]
          rfl
        · rw [setNode_self, fileOf, fileOf, ino, din]
      simp only [inodeRefInc, spec_bind, spec_modify, spec_get, spec_ite, spec_pure, setNode_self]
      refine ⟨fun first => ?_, fun more => ?_⟩
      · rw [setNode_setNode]
        exact post _ rfl rfl rfl rfl (Nat.succ_pos _)
      · exact post _ rfl rfl rfl rfl (holds.counted p member (by omega))

/-- What `sfs_get_ops` has operations for. -/
def Regular (din : DiskInode) : Prop := din.type = SFS_TYPE_DIR ∨ din.type = SFS_TYPE_FILE

instance (din : DiskInode) : Decidable (Regular din) := inferInstanceAs (Decidable (_ ∨ _))

theorem ofLe_part_lt (bytes : List UInt8) (offset len : Nat) : ofLe (part bytes offset len) < 256 ^ len := by
  refine Nat.lt_of_lt_of_le (ofLe_lt _) (Nat.pow_le_pow_right (by decide) ?_)
  exact List.length_take_le _ _

theorem ofBytes_fits (bytes : List UInt8) : (DiskInode.ofBytes bytes).Fits := by
  refine ⟨ofLe_part_lt bytes 0 4, ofLe_part_lt bytes 4 2, ofLe_part_lt bytes 6 2, ofLe_part_lt bytes 8 4, ?_, ?_,
    ofLe_part_lt bytes 60 4⟩
  · simp [DiskInode.ofBytes]
  · intro ino inside
    obtain ⟨i, -, rfl⟩ := List.mem_map.mp inside
    exact ofLe_part_lt bytes _ 4

/-- The file has come into memory. -/
def loaded (s : SfsFs) (file : Nat × DiskInode) : SfsFs :=
  { s with
    nodes := Function.update s.nodes s.nextNode ⟨file.2, file.1, false, 1, 1⟩
    nextNode := s.nextNode + 1
    inodeList := s.nextNode :: s.inodeList }

theorem now_loaded (holds : Holds s vol) (inside : file ∈ vol.files)
    (absent : ∀ p ∈ s.inodeList, (s.nodes p).ino ≠ file.1) (kind : Regular file.2) :
    Now vol s (gain (refs s) s.nextNode) (loaded s file) := by
  obtain ⟨others, held, inv, perm⟩ := holds.inv
  have fresh : s.nextNode ∉ s.inodeList := fun member => Nat.lt_irrefl _ (holds.fresh _ member)
  have old : ∀ p ∈ s.inodeList, (loaded s file).nodes p = s.nodes p := fun p member =>
    Function.update_of_ne (Nat.ne_of_lt (holds.fresh p member)) _ _
  have new : (loaded s file).nodes s.nextNode = ⟨file.2, file.1, false, 1, 1⟩ := Function.update_self ..
  have outside : file ∈ others := by
    rcases List.mem_append.mp (perm.mem_iff.mpr inside) with memory | disk
    · obtain ⟨p, member, same⟩ := List.mem_map.mp memory
      exact absurd (congrArg Prod.fst same) (absent p member)
    · exact disk
  have all : (files (loaded s file) (others.erase file)).Perm (files s others) := by
    have front : (loaded s file).inodeList.map (fun p => fileOf ((loaded s file).nodes p)) =
        file :: s.inodeList.map fun p => fileOf (s.nodes p) := by
      rw [show (loaded s file).inodeList = s.nextNode :: s.inodeList from rfl, List.map_cons, new]
      exact congrArg (file :: ·) (List.map_congr_left fun p member => by rw [old p member])
    rw [files, front, files, List.cons_append]
    exact List.perm_middle.symm.trans (List.Perm.append_left _ (List.perm_cons_erase outside).symm)
  have each : ∀ {P : SfsInode → Prop}, P ⟨file.2, file.1, false, 1, 1⟩ → (∀ p ∈ s.inodeList, P (s.nodes p)) →
      ∀ p ∈ (loaded s file).inodeList, P ((loaded s file).nodes p) := by
    intro P first rest p member
    rcases List.mem_cons.mp member with rfl | member
    · rwa [new]
    · rw [old p member]
      exact rest p member
  have stored := inv.stored file outside
  refine ⟨⟨⟨others.erase file, held, ?_, all.trans perm⟩, fun p member => ?_,
    each (P := fun node => Regular node.din) kind holds.kinds,
    each (P := fun node => 0 < node.refCount → 0 < node.reclaimCount) (fun _ => Nat.one_pos) holds.counted,
    ?_, each (P := fun node => node.din.Fits) ?_ holds.fits, holds.data⟩,
    ⟨List.suffix_refl _, Nat.le_succ _, fun q before => ?_, rfl, rfl, rfl, fun _ _ => rfl⟩, ?_⟩
  · refine inv_remap inv all ?_ rfl rfl rfl (fun _ _ => rfl) fun other member => .inl (List.mem_of_mem_erase member)
    exact List.nodup_cons.mpr ⟨fresh, inv.nodes⟩
  · rcases List.mem_cons.mp member with rfl | member
    · exact Nat.lt_succ_self _
    · exact Nat.lt_succ_of_lt (holds.fresh p member)
  · refine each (P := fun node => node.dirty = false →
      DiskInode.ofBytes (slice (s.dev.blocks node.ino) 0 DiskInode.sizeof) = node.din) (fun _ => stored) holds.written
  · rw [← stored]
    exact ofBytes_fits _
  · exact congrArg SfsInode.ino (Function.update_of_ne (Nat.ne_of_lt before) _ _)
  · funext q
    by_cases here : q = s.nextNode
    · rw [here, gain_self, refs_eq (show s.nextNode ∈ (loaded s file).inodeList from List.mem_cons_self), new, refs,
        if_neg fresh]
    · rw [gain_of_ne _ here]
      by_cases member : q ∈ s.inodeList
      · rw [refs_eq (show q ∈ (loaded s file).inodeList from List.mem_cons_of_mem _ member), old q member,
          refs_eq member]
      · have out : q ∉ (loaded s file).inodeList := fun inside => (List.mem_cons.mp inside).elim here member
        rw [refs, refs, if_neg member, if_neg out]

/-- A file is found in memory, or comes into memory. -/
theorem sfsLoadInode_spec {Q : Nat → SfsFs → Prop} (holds : Holds s vol) (inside : file ∈ vol.files)
    (linked : file.2.nlinks ≠ 0) (odd : ¬ Regular file.2 → allowed .assertion)
    (failed : ∀ e t, e ≠ .noEnt → Now vol s (refs s) t → Failing s t → E e t)
    (post : ∀ p t, Now vol s (gain (refs s) p) t → p ∈ t.inodeList → fileOf (t.nodes p) = file → Q p t) :
    Spec allowed (sfsLoadInode file.1) s Q E := by
  simp only [sfsLoadInode, spec_bind]
  refine lookupSfsNolock_spec holds (fun absent => ?_) fun p member here t now still same => ?_
  · obtain ⟨others, held, inv, perm⟩ := holds.inv
    have known := perm.mem_iff.mpr inside
    have stored : DiskInode.ofBytes (slice (s.dev.blocks file.1) 0 DiskInode.sizeof) = file.2 := by
      rcases List.mem_append.mp known with memory | disk
      · obtain ⟨p, member, same⟩ := List.mem_map.mp memory
        exact absurd (congrArg Prod.fst same) (absent p member)
      · exact inv.stored file disk
    obtain ⟨nonzero, within, taken⟩ := inv.inuse_of_file known (b := file.1) List.mem_cons_self
    have late : ∀ e t, e ≠ .noEnt → (t = s.tick ∨ t = s.tick.tick ∨ t = s.tick.tick.tick) → Failing s t → E e t := by
      rintro e t code (rfl | rfl | rfl) failing
      · exact failed _ _ code (Now.tick holds) failing
      · exact failed _ _ code (Now.trans (Onward.tick s) (Now.tick holds.tick)) failing
      · exact failed _ _ code (Now.trans (Onward.tick s) (Now.trans (Onward.tick _) (Now.tick holds.tick.tick))) failing
    simp only [spec_bind]
    refine attempt_due (fun fault => late _ _ (by decide) (.inl rfl) (failing_tick fault)) ?_
    refine assertInuse_spec inv.tick.mounted nonzero within taken ?_
    refine sfsRbuf_due (by decide) nonzero within inv.mounted.device (fun fault => ?_) ?_
    · exact late _ _ (by decide) (.inr (.inl rfl)) ((failing_tick fault).after (Onward.tick s).faults)
    · rw [show s.tick.dev.blocks = s.dev.blocks from rfl, stored, spec_ensure_of linked]
      simp only [sfsCreateInode, spec_bind, spec_get, spec_modify, spec_pure]
      refine attempt_due (fun fault => ?_) ?_
      · exact late _ _ (by decide) (.inr (.inr rfl))
          ((failing_tick fault).after ((Onward.tick s).trans (Onward.tick _)).faults)
      · rw [spec_ensure]
        refine ⟨fun kind => ?_, odd⟩
        have now := Now.trans ((Onward.tick s).trans ((Onward.tick _).trans (Onward.tick _)))
          (now_loaded holds.tick.tick.tick inside absent kind)
        refine post _ _ now List.mem_cons_self ?_
        exact congrArg fileOf (Function.update_self s.nextNode (⟨file.2, file.1, false, 1, 1⟩ : SfsInode) s.nodes)
  · rw [spec_pure]
    exact post p t now still (same.trans (holds.unique (holds.mem_files member) inside here))

/-- The inode goes out of memory; its block has what it was. -/
theorem now_removed (holds : Holds s vol) (member : p ∈ s.inodeList) (list : t.inodeList = s.inodeList.erase p)
    (nodes : ∀ q, q ≠ p → t.nodes q = s.nodes q) (ino : (t.nodes p).ino = (s.nodes p).ino) (super : t.super = s.super)
    (freemap : t.freemap = s.freemap) (superDirty : t.superDirty = s.superDirty)
    (device : t.dev.dBlocks = s.dev.dBlocks) (nextNode : t.nextNode = s.nextNode)
    (faults : t.faults <:+ s.faults) (disk : ∀ b, b ≠ (s.nodes p).ino → t.dev.blocks b = s.dev.blocks b)
    (stored : DiskInode.ofBytes (slice (t.dev.blocks (s.nodes p).ino) 0 DiskInode.sizeof) = (s.nodes p).din) :
    Now vol s (Function.update (refs s) p 0) t := by
  obtain ⟨others, held, inv, perm⟩ := holds.inv
  have left : ∀ q ∈ t.inodeList, q ≠ p ∧ q ∈ s.inodeList := by
    intro q inside
    rw [list, inv.nodes.mem_erase_iff] at inside
    exact inside
  have all : (files t (fileOf (s.nodes p) :: others)).Perm (files s others) := by
    have front : t.inodeList.map (fun q => fileOf (t.nodes q)) = (s.inodeList.erase p).map
      fun q => fileOf (s.nodes q) := by
      rw [← list]
      exact List.map_congr_left fun q inside => by rw [nodes q (left q inside).1]
    rw [files, front, files]
    refine List.perm_middle.trans ?_
    rw [← List.cons_append]
    exact List.Perm.append_right others ((List.perm_cons_erase member).map fun q => fileOf (s.nodes q)).symm
  have apart : ∀ b, (∀ q ∈ s.inodeList, b ≠ (s.nodes q).ino) → t.dev.blocks b = s.dev.blocks b := fun b away =>
    disk b (away p member)
  refine ⟨⟨⟨_, held, ?_, all.trans perm⟩, fun q inside => ?_, fun q inside => ?_, fun q inside => ?_,
    fun q inside => ?_, fun q inside => ?_, fun file inside => ?_⟩,
    ⟨faults, nextNode.ge, fun q _ => ?_, super, freemap, superDirty, fun b inside => ?_⟩, ?_⟩
  · refine inv_remap inv all (list ▸ inv.nodes.erase p) super freemap device apart fun file inside => ?_
    rcases List.mem_cons.mp inside with rfl | old
    · exact .inr stored
    · exact .inl old
  · rw [nextNode]
    exact holds.fresh q (left q inside).2
  · rw [nodes q (left q inside).1]
    exact holds.kinds q (left q inside).2
  · rw [nodes q (left q inside).1]
    exact holds.counted q (left q inside).2
  · obtain ⟨other, inside⟩ := left q inside
    rw [Written, OnDisk, nodes q other, disk _ fun same => other (holds.once inside member same)]
    exact holds.written q inside
  · rw [nodes q (left q inside).1]
    exact holds.fits q (left q inside).2
  · rw [fileData_eq inv (perm.mem_iff.mpr inside) apart]
    exact holds.data file inside
  · by_cases here : q = p
    · rw [here, ino]
    · rw [nodes q here]
  · refine disk b fun same => ?_
    exact not_layout inv (fileOf_mem member) (b := b) (same ▸ List.mem_cons_self) inside
  · funext q
    by_cases here : q = p
    · rw [here, Function.update_self, refs, if_neg fun inside => (left p inside).1 rfl]
    · have same : q ∈ t.inodeList ↔ q ∈ s.inodeList := by
        rw [list, inv.nodes.mem_erase_iff]
        exact ⟨And.right, fun inside => ⟨here, inside⟩⟩
      rw [Function.update_of_ne here, refs, refs, nodes q here]
      simp only [same]

/-- The state after the inode has been written back. -/
def saved (s : SfsFs) (p : Nat) : SfsFs :=
  (s.setNode p fun node => { node with dirty := false }).tick.tick.setBlock (s.nodes p).ino
    (patch (s.dev.blocks (s.nodes p).ino) 0 (s.nodes p).din.bytes)

/-- An inode that is marked is written back, or stays marked as if nothing had happened. -/
theorem sfsFsync_due {Q : Unit → SfsFs → Prop} (holds : Holds s vol) (member : p ∈ s.inodeList)
    (clean : (s.nodes p).dirty = false → Q () s)
    (saves : (s.nodes p).dirty = true → goesThrough s.faults = true → Q () (saved s p))
    (failed : (s.nodes p).dirty = true → goesThrough s.faults = false →
      E .dev (withFaults s (leftover s.faults))) : Spec allowed (sfsFsync p) s Q E := by
  obtain ⟨others, held, inv, -⟩ := holds.inv
  have mine : (s.nodes p).ino ∈ ownedBy s.dev.blocks (fileOf (s.nodes p)) := List.mem_cons_self
  obtain ⟨nonzero, inside, -⟩ := inv.inuse_of_file (fileOf_mem member) mine
  have length := DiskInode.length_bytes (holds.fits p member)
  simp only [sfsFsync, spec_bind, spec_get, spec_ite, setDirty, spec_modify, spec_onError]
  refine ⟨fun dirty => ?_, fun unmarked => clean (by simpa using unmarked)⟩
  refine sfsWbuf_due ⟨by decide, by rw [length]; decide⟩ nonzero inside inv.mounted.device (fun stuck => ?_)
    fun through => saves dirty through
  have again := setNode_dirty s dirty
  simp only [SfsFs.setNode] at again
  have same : withFaults s (leftover s.faults) = SfsFs.setNode { (s.setNode p fun node => { node with dirty := false })
      with faults := leftover s.faults } p fun node => { node with dirty := true } := by
    simp only [SfsFs.setNode, withFaults]
    rw [again]
  exact (congrArg (E .dev) same).mp (failed dirty stuck)

/-- A file without references is given back, or stays in memory if it cannot be written back. -/
theorem sfsReclaim_spec {Q : Unit → SfsFs → Prop} (holds : Holds s vol) (member : p ∈ s.inodeList)
    (absent : (s.nodes p).refCount = 0) (counted : 0 < (s.nodes p).reclaimCount) (linked : (s.nodes p).din.nlinks ≠ 0)
    (failed : ∀ e t, Now vol s (refs s) t → E e t) (post : ∀ t, Now vol s (refs s) t → Q () t) :
    Spec allowed (sfsReclaim p) s Q E := by
  have zero : refs s p = 0 := (refs_eq member).trans absent
  have same : Function.update (refs s) p 0 = refs s := by rw [← zero, Function.update_eq_self]
  obtain ⟨u, less⟩ : ∃ u, u = s.setNode p fun node => { node with reclaimCount := node.reclaimCount - 1 } := ⟨_, rfl⟩
  have node : u.nodes p = { s.nodes p with reclaimCount := (s.nodes p).reclaimCount - 1 } := by rw [less, setNode_self]
  have now : Now vol s (refs s) u := by
    rw [less]
    refine ⟨holds.recount rfl rfl rfl fun some => absurd some (by simp [absent]), onward_setNode rfl, ?_⟩
    rw [refs_setNode member, ← refs_eq member, Function.update_eq_self]
  have still : p ∈ u.inodeList := by rw [less]; exact member
  have links : ∀ t : SfsFs, (t.nodes p).din = (u.nodes p).din → (t.nodes p).din.nlinks ≠ 0 := by
    intro t din
    rw [din, node]
    exact linked
  simp only [sfsReclaim, spec_bind, spec_get, spec_ensure_of counted, spec_modify, spec_ite, spec_throw, ← less]
  have idle : Function.update (refs u) p 0 = refs s := by rw [now.counted, ← zero, Function.update_eq_self]
  have gone : ∀ t, Now vol u (Function.update (refs u) p 0) t → Q () t := fun t removed =>
    post t (Now.trans now.onward (idle ▸ removed))
  refine ⟨fun _ => failed _ _ now, fun alone => ⟨fun unlinked => absurd unlinked (links u rfl), fun _ => ?_⟩⟩
  refine ⟨fun _ => sfsFsync_due now.holds still (fun clean => ?_) (fun _ _ => ?_) fun _ _ => ?_,
    fun clean => ?_⟩
  · exact ⟨fun unlinked => absurd unlinked (links u rfl), fun _ => gone _ (now_removed now.holds still rfl
      (fun _ _ => rfl) rfl rfl rfl rfl rfl rfl (List.suffix_refl _) (fun _ _ => rfl) (now.holds.written p still clean))⟩
  · have block : (saved u p).dev.blocks (u.nodes p).ino =
        patch (u.dev.blocks (u.nodes p).ino) 0 (u.nodes p).din.bytes := Function.update_self ..
    have unmarked : (saved u p).nodes p = { u.nodes p with dirty := false } := Function.update_self ..
    have stored : DiskInode.ofBytes (slice ((saved u p).dev.blocks (u.nodes p).ino) 0 DiskInode.sizeof) =
        (u.nodes p).din := by
      have fits := now.holds.fits p still
      rw [block, ← DiskInode.length_bytes fits, slice_patch, DiskInode.ofBytes_bytes fits]
    refine ⟨fun unlinked => absurd unlinked (links _ (by rw [unmarked])),
      fun _ => gone _ (now_removed now.holds still rfl
      (fun q other => Function.update_of_ne other _ _) (by rw [show _ = _ from unmarked]) rfl rfl rfl rfl rfl
      ((List.tail_suffix _).trans (List.tail_suffix _)) (fun b other => Function.update_of_ne other _ _) stored)⟩
  · exact failed _ _ ⟨now.holds.withFaults _, now.onward.trans (Onward.withFaults (leftover_suffix _)), now.counted⟩
  · have clean : (u.nodes p).dirty = false := by simpa using clean
    exact ⟨fun unlinked => absurd unlinked (links u rfl), fun _ => gone _ (now_removed now.holds still rfl
      (fun _ _ => rfl) rfl rfl rfl rfl rfl rfl (List.suffix_refl _) (fun _ _ => rfl) (now.holds.written p still clean))⟩

theorem inodeRefDec_spec {Q : Unit → SfsFs → Prop} (holds : Holds s vol) (held : 0 < refs s p)
    (linked : (s.nodes p).din.nlinks ≠ 0) (post : ∀ t, Now vol s (lose (refs s) p) t → Q () t) :
    Spec allowed (inodeRefDec p) s Q E := by
  have member := mem_of_refs held
  have count := refs_eq member
  obtain ⟨u, less⟩ : ∃ u, u = s.setNode p fun node => { node with refCount := node.refCount - 1 } := ⟨_, rfl⟩
  have node : u.nodes p = { s.nodes p with refCount := (s.nodes p).refCount - 1 } := by rw [less, setNode_self]
  have counted := holds.counted p member (by omega)
  have now : Now vol s (lose (refs s) p) u := by
    rw [less]
    refine ⟨holds.recount rfl rfl rfl fun _ => counted, onward_setNode rfl, ?_⟩
    rw [refs_setNode member, ← count]
    rfl
  simp only [inodeRefDec, spec_bind, spec_get, spec_ensure_of (show 0 < (s.nodes p).refCount by omega), spec_modify,
    spec_ite, spec_pure, spec_ignore, ← less]
  refine ⟨fun last => ?_, fun _ => post u now⟩
  have still : p ∈ u.inodeList := by rw [less]; exact member
  have onward : ∀ t, Now vol u (refs u) t → Q () t := fun t reclaimed =>
    post t (Now.trans now.onward (now.counted ▸ reclaimed))
  refine sfsReclaim_spec now.holds still last (by rw [node]; exact counted) (by rw [node]; exact linked) ?_ onward
  exact fun _ t reclaimed => onward t reclaimed

end Ucore.Fs.Volumes
