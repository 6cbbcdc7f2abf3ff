import Ucore.Fs.Ownership

/-! # Taking and giving back blocks

What `sfs_block_alloc` and `sfs_block_free` do, and that the blocks keep their owners.
-/

namespace Ucore.Fs.BlockSpecs

open Lib.Bytes Lib.Program Lib.Program.Prog Error Bitmaps Sfs SfsIo SfsInode Ownership

/-- One bit of the freemap is turned over, and the superblock counts it. -/
structure Flipped (s : SfsFs) (ino : Nat) (value : Bool) (t : SfsFs) : Prop where
  before : s.freemap.free ino = !value
  freemap : t.freemap.free = Function.update s.freemap.free ino value
  sized : t.freemap.nbits = s.freemap.nbits
  super : t.super = { s.super with unusedBlocks := t.super.unusedBlocks }
  same : t = { s with freemap := t.freemap, super := t.super, superDirty := true }
  mounted : Mounted t

variable {s t : SfsFs} {others : List (Nat × DiskInode)} {held : List Nat} {ino b : Nat} {value : Bool}

namespace Flipped

theorem nodes (flip : Flipped s ino value t) : t.nodes = s.nodes := by rw [flip.same]

theorem inodeList (flip : Flipped s ino value t) : t.inodeList = s.inodeList := by rw [flip.same]

theorem dev (flip : Flipped s ino value t) : t.dev = s.dev := by rw [flip.same]

theorem faults (flip : Flipped s ino value t) : t.faults = s.faults := by rw [flip.same]

theorem blocks (flip : Flipped s ino value t) : t.super.blocks = s.super.blocks := by rw [flip.super]

theorem fails (flip : Flipped s ino value t) : t.Fails b ↔ s.Fails b := by
  rw [SfsFs.Fails, SfsFs.Fails, flip.dev, flip.faults]

end Flipped

theorem freeCount_le (mounted : Mounted s) : s.freemap.freeCount ≤ s.super.blocks := by
  rw [Bitmap.freeCount, Nat.count_eq_card_filter_range]
  refine (Finset.card_le_card (t := Finset.range s.super.blocks) fun i inside => ?_).trans
    (Finset.card_range _).le
  exact Finset.mem_range.mpr (mounted.bounds i (Finset.mem_filter.mp inside).2).2

theorem freeCount_small (mounted : Mounted s) : s.freemap.freeCount < 2 ^ 32 - 1 := by
  have := freeCount_le mounted
  have := mounted.device
  have := s.dev.small
  omega

/-- No bit is set where none is counted. -/
theorem freeCount_zero {bitmap : Bitmap} (absent : ∀ i, bitmap.free i = false) :
    bitmap.freeCount = 0 := by
  rw [Bitmap.freeCount, Nat.count_iff_forall_not.mpr]
  intro i _
  simp [absent]

theorem freeCount_pos (mounted : Mounted s) (free : s.freemap.free ino = true) :
    0 < s.freemap.freeCount := by
  have inside := (mounted.bounds ino free).2
  have := mounted.within
  rw [Bitmap.freeCount, Nat.count_eq_card_filter_range, Finset.card_pos]
  exact ⟨ino, by simp [free]; omega⟩

theorem Flipped.count (flip : Flipped s ino false t) (mounted : Mounted s) :
    t.freemap.freeCount + 1 = s.freemap.freeCount := by
  have inside := (mounted.bounds ino flip.before).2
  exact freeCount_clear flip.sized (by have := mounted.within; omega) flip.before flip.freemap

/-! ## The operations -/

variable {allowed : Panic → Prop} {E : Err → SfsFs → Prop}

theorem assertInuse_spec {Q : Unit → SfsFs → Prop} (mounted : Mounted s) (nonzero : ino ≠ 0)
    (inside : ino < s.super.blocks) (taken : s.freemap.free ino = false) (post : Q () s) :
    Spec allowed (assertInuse ino) s Q E := by
  have within := mounted.within
  simp only [assertInuse, sfsBlockInuse, spec_bind, spec_get, spec_ite]
  refine ⟨fun _ => ?_, fun out => absurd ⟨nonzero, inside⟩ out⟩
  rw [onFreemap, spec_focus]
  refine bitmapTest_spec (by omega) ?_
  simp only [spec_pure, taken, spec_ensure_of (show (!false) = true from rfl)]
  exact post

theorem sfsBlockAlloc_spec {Q : Nat → SfsFs → Prop} (mounted : Mounted s)
    (failed : (∀ i, s.freemap.free i = false) → E .noMem s)
    (post : ∀ ino t, Flipped s ino false t → ¬ s.Fails ino → Q ino (t.tick.setBlock ino zeros))
    (leak : ∀ ino t, Flipped s ino false t → s.Fails ino → ∀ e, E e t ∧ E e t.tick) :
    Spec allowed sfsBlockAlloc s Q E := by
  simp only [sfsBlockAlloc, spec_bind]
  rw [onFreemap, spec_focus]
  refine bitmapAlloc_spec mounted.full (fun none => failed none) fun ino after free sized full flipped => ?_
  have positive := freeCount_pos mounted free
  obtain ⟨nonzero, inside⟩ := mounted.bounds ino free
  have within := mounted.within
  have counted := freeCount_clear sized (by omega) free flipped
  have unused := mounted.unused
  have flip : Flipped s ino false { s with
      freemap := after
      super := { s.super with unusedBlocks := s.super.unusedBlocks - 1 }
      superDirty := true } := by
    refine ⟨free, flipped, sized, rfl, rfl, full, by rw [sized]; exact mounted.sized, fun i set => ?_,
      mounted.device, by simp only; omega⟩
    refine mounted.bounds i ?_
    by_cases same : i = ino
    · exact same ▸ free
    · simpa [flipped, same] using set
  simp only [spec_get, spec_ensure_of (show 0 < s.super.unusedBlocks by omega), spec_modify, spec_pure]
  refine assertInuse_spec flip.mounted nonzero inside (by simp [flipped]) ?_
  refine sfsWriteBlock_spec (Or.inl nonzero) inside (fun fails => ?_) fun fine => ?_
  · exact leak ino _ flip (flip.fails.mp fails)
  · exact post ino _ flip fun fails => fine (flip.fails.mpr fails)

theorem sfsBlockFree_spec {Q : Unit → SfsFs → Prop} (mounted : Mounted s) (nonzero : ino ≠ 0)
    (inside : ino < s.super.blocks) (taken : s.freemap.free ino = false)
    (post : ∀ t, Flipped s ino true t → Q () t) : Spec allowed (sfsBlockFree ino) s Q E := by
  have within := mounted.within
  simp only [sfsBlockFree, spec_bind]
  refine assertInuse_spec mounted nonzero inside taken ?_
  rw [onFreemap, spec_focus]
  refine bitmapFree_spec mounted.full (by omega) taken fun after sized full flipped => ?_
  have counted := freeCount_set sized (by omega) taken flipped
  have small := freeCount_small mounted
  have unused := mounted.unused
  simp only [spec_modify]
  refine post _ ⟨taken, flipped, sized, rfl, rfl, full, by rw [sized]; exact mounted.sized, fun i set => ?_,
    mounted.device, ?_⟩
  · by_cases same : i = ino
    · exact same ▸ ⟨nonzero, inside⟩
    · exact mounted.bounds i (by simpa [flipped, same] using set)
  · simp only
    rw [Nat.mod_eq_of_lt (by omega)]
    omega

/-! ## Owners -/

theorem owned_flip (flip : Flipped s ino value t) : owned t others = owned s others := by
  have sameFiles : files t others = files s others := by rw [files, files, flip.inodeList, flip.nodes]
  have sameLayout : layout t.super = layout s.super := by rw [flip.super]; rfl
  rw [owned, owned, sameFiles, flip.dev, sameLayout]

theorem inv_flip {held' : List Nat} (inv : Inv s others held) (flip : Flipped s ino value t)
    (range : ∀ b ∈ held' ++ owned s others, b < s.super.blocks)
    (inuse : ∀ b < s.super.blocks, t.freemap.free b = false ↔ b ∈ held' ++ owned s others)
    (nodup : (held' ++ owned s others).Nodup) : Inv t others held' where
  mounted := flip.mounted
  nodes := flip.inodeList ▸ inv.nodes
  files := by
    have sameFiles : files t others = files s others := by rw [files, files, flip.inodeList, flip.nodes]
    rw [sameFiles, flip.dev]
    exact inv.files
  range := by rw [owned_flip flip, flip.blocks]; exact range
  inuse := by rw [owned_flip flip, flip.blocks]; exact inuse
  nodup := by rw [owned_flip flip]; exact nodup
  stored := by rw [flip.dev]; exact inv.stored

/-- A block taken off the freemap is in hand. -/
theorem inv_acquire (inv : Inv s others held) (flip : Flipped s b false t) : Inv t others (b :: held) := by
  have fresh := inv.free_not_owned flip.before
  refine inv_flip inv flip (fun c here => ?_) (fun c bound => ?_) (List.nodup_cons.mpr ⟨fresh, inv.nodup⟩)
  · rcases List.mem_cons.mp here with rfl | old
    · exact (inv.mounted.bounds c flip.before).2
    · exact inv.range c old
  · rw [flip.freemap, List.cons_append, List.mem_cons]
    by_cases same : c = b
    · simp [same]
    · simp only [same, false_or, Function.update_of_ne same]
      exact inv.inuse c bound

/-- A block in hand goes back to the freemap. -/
theorem inv_release (inv : Inv s others (b :: held)) (flip : Flipped s b true t) : Inv t others held := by
  obtain ⟨fresh, distinct⟩ := List.nodup_cons.mp inv.nodup
  refine inv_flip inv flip (fun c here => inv.range c (List.mem_cons_of_mem _ here)) (fun c bound => ?_) distinct
  rw [flip.freemap]
  by_cases same : c = b
  · subst same
    simpa using fresh
  · rw [Function.update_of_ne same, inv.inuse c bound, List.cons_append, List.mem_cons]
    simp [same]

/-- What is written to a block that is no index block, and no inode on the disk only, does not matter. -/
theorem inv_store (inv : Inv s others held) (index : ∀ file ∈ files s others, file.2.indirect ≠ b)
    (names : ∀ file ∈ others, file.1 ≠ b) (x : Block) : Inv (s.setBlock b x) others held := by
  have kept : ∀ file ∈ files s others,
      Function.update s.dev.blocks b x file.2.indirect = s.dev.blocks file.2.indirect :=
    fun file inside => Function.update_of_ne (index file inside) _ _
  have same : owned (s.setBlock b x) others = owned s others := by
    refine congrArg (layout s.super ++ ·) (List.flatMap_congr fun file inside => ?_)
    exact ownedBy_congr (kept file inside)
  refine
    { mounted := ⟨inv.mounted.full, inv.mounted.sized, inv.mounted.bounds, inv.mounted.device, inv.mounted.unused⟩
      nodes := inv.nodes
      files := fun file inside => (inv.files file inside).congr (kept file inside)
      range := by rw [same]; exact inv.range
      inuse := by rw [same]; exact inv.inuse
      nodup := by rw [same]; exact inv.nodup
      stored := fun file inside => ?_ }
  rw [show (s.setBlock b x).dev.blocks file.1 = s.dev.blocks file.1 from Function.update_of_ne (names file inside) _ _]
  exact inv.stored file inside

/-- What is written to a block in hand does not matter. -/
theorem inv_write (inv : Inv s others held) (member : b ∈ held) (x : Block) :
    Inv (s.setBlock b x) others held := by
  have away : ∀ file ∈ files s others, ∀ c ∈ file.1 :: indexBlocks file.2, c ≠ b := by
    intro file inside c mine same
    refine inv.held_apart inside (b := c) ?_ (same ▸ member)
    simp only [ownedBy, List.mem_cons, List.mem_append] at mine ⊢
    tauto
  refine inv_store inv (fun file inside same => ?_) (fun file inside => ?_) x
  · by_cases zero : file.2.indirect = 0
    · exact (inv.inuse_of_held member).1 (same ▸ zero)
    · exact away file inside _ (List.mem_cons_of_mem _ (mem_indexBlocks.mpr ⟨rfl, zero⟩)) same
  · exact away file (List.mem_append_right _ inside) _ List.mem_cons_self

/-- The order of the blocks in hand does not matter. -/
theorem inv_perm {held' : List Nat} (inv : Inv s others held) (same : held.Perm held') : Inv s others held' := by
  have moved := same.append_right (owned s others)
  exact
    { inv with
      range := fun b here => inv.range b (moved.mem_iff.mpr here)
      inuse := fun b bound => by rw [← moved.mem_iff]; exact inv.inuse b bound
      nodup := moved.nodup_iff.mp inv.nodup }

/-! ## What stays as it is -/

/-- The blocks that no operation on the blocks of files writes. -/
def reserved (s : SfsFs) (others : List (Nat × DiskInode)) : List Nat :=
  layout s.super ++ (files s others).map Prod.fst

/-- Apart from the contents of the inodes in memory, only blocks of files and the freemap
    may change, and the superblock is then marked. -/
structure Frame (others : List (Nat × DiskInode)) (s t : SfsFs) : Prop where
  inodeList : t.inodeList = s.inodeList
  nextNode : t.nextNode = s.nextNode
  inos : ∀ p, (t.nodes p).ino = (s.nodes p).ino
  super : t.super = { s.super with unusedBlocks := t.super.unusedBlocks }
  dBlocks : t.dev.dBlocks = s.dev.dBlocks
  faults : t.faults <:+ s.faults
  disk : ∀ b ∈ reserved s others, t.dev.blocks b = s.dev.blocks b
  clean : t.superDirty = true ∨ t.superDirty = s.superDirty ∧ t.freemap = s.freemap ∧ t.super = s.super

/-- No device operation will fail. -/
def NoFaults (s : SfsFs) : Prop := ∀ fault ∈ s.faults, fault = false

/-- None of the next `count` operations of the device will fail. -/
def Fine (count : Nat) (s : SfsFs) : Prop := true ∉ s.faults.take count

/-- The next `count` operations of the device have succeeded. -/
structure Paid (count : Nat) (s t : SfsFs) : Prop where
  faults : t.faults = s.faults.drop count
  fine : Fine count s

theorem Fine.of_noFaults {count : Nat} (fine : NoFaults s) : Fine count s := fun failing => by
  cases fine true (List.mem_of_mem_take failing)

theorem Fine.mono {m n : Nat} (fine : Fine n s) (le : m ≤ n) : Fine m s := fun failing =>
  fine ((List.take_prefix_take_left le).subset failing)

theorem Fine.tick {count : Nat} (fine : Fine (count + 1) s) : Fine count s.tick := by
  intro failing
  cases pending : s.faults with
  | nil => simp [SfsFs.tick, pending] at failing
  | cons first rest =>
      refine fine ?_
      rw [pending, List.take_succ_cons]
      exact List.mem_cons_of_mem _ (by simpa [SfsFs.tick, pending] using failing)

theorem fine_add {m n : Nat} (paid : Paid m s t) : Fine (m + n) s ↔ Fine n t := by
  rw [Fine, List.take_add, List.mem_append, ← paid.faults]
  exact ⟨fun fine failing => fine (Or.inr failing), fun fine failing => failing.elim paid.fine fine⟩

theorem Paid.trans {u : SfsFs} {m n : Nat} (first : Paid m s t) (second : Paid n t u) : Paid (m + n) s u :=
  ⟨by rw [second.faults, first.faults, List.drop_drop], (fine_add first).mpr second.fine⟩

theorem Paid.tick (fine : ¬ s.Fails b) : Paid 1 s s.tick := by
  refine ⟨List.drop_one.symm, fun failing => fine (Or.inr ?_)⟩
  cases pending : s.faults with
  | nil => simp [pending] at failing
  | cons first rest => simpa [pending] using failing

namespace Frame

theorem refl (others : List (Nat × DiskInode)) (s : SfsFs) : Frame others s s :=
  ⟨rfl, rfl, fun _ => rfl, rfl, rfl, List.suffix_refl _, fun _ _ => rfl, Or.inr ⟨rfl, rfl, rfl⟩⟩

theorem blocks (frame : Frame others s t) : t.super.blocks = s.super.blocks := by rw [frame.super]

theorem reserved_eq (frame : Frame others s t) : reserved t others = reserved s others := by
  have names : (files t others).map Prod.fst = (files s others).map Prod.fst := by
    simp only [files, List.map_append, List.map_map, frame.inodeList]
    congr 1
    exact List.map_congr_left fun p _ => frame.inos p
  rw [reserved, reserved, names, frame.super]
  rfl

theorem trans {u : SfsFs} (first : Frame others s t) (second : Frame others t u) : Frame others s u where
  inodeList := second.inodeList.trans first.inodeList
  nextNode := second.nextNode.trans first.nextNode
  inos p := (second.inos p).trans (first.inos p)
  super := by rw [second.super, first.super]
  dBlocks := second.dBlocks.trans first.dBlocks
  faults := second.faults.trans first.faults
  disk b here := (second.disk b (first.reserved_eq ▸ here)).trans (first.disk b here)
  clean := by
    rcases second.clean with marked | ⟨flag, map, super⟩
    · exact Or.inl marked
    · rcases first.clean with marked | ⟨flag', map', super'⟩
      · exact Or.inl (flag.trans marked)
      · exact Or.inr ⟨flag.trans flag', map.trans map', super.trans super'⟩

theorem tick (s : SfsFs) : Frame others s s.tick :=
  ⟨rfl, rfl, fun _ => rfl, rfl, rfl, List.tail_suffix _, fun _ _ => rfl, Or.inr ⟨rfl, rfl, rfl⟩⟩

theorem flip (flip : Flipped s ino value t) : Frame others s t where
  inodeList := flip.inodeList
  nextNode := by rw [flip.same]
  inos p := by rw [flip.nodes]
  super := flip.super
  dBlocks := by rw [flip.dev]
  faults := by rw [flip.faults]
  disk b _ := by rw [flip.dev]
  clean := Or.inl (by rw [flip.same])

theorem setBlock (away : b ∉ reserved s others) (x : Block) : Frame others s (s.setBlock b x) where
  inodeList := rfl
  nextNode := rfl
  inos _ := rfl
  super := rfl
  dBlocks := rfl
  faults := List.suffix_refl _
  disk c here := Function.update_of_ne (fun same : c = b => away (same ▸ here)) _ _
  clean := Or.inr ⟨rfl, rfl, rfl⟩

theorem setNode {sin : Nat} {f : SfsInode → SfsInode} (ino : (f (s.nodes sin)).ino = (s.nodes sin).ino) :
    Frame others s (s.setNode sin f) where
  inodeList := rfl
  nextNode := rfl
  inos p := by
    by_cases same : p = sin
    · subst same
      simpa [SfsFs.setNode] using ino
    · simp [SfsFs.setNode, same]
  super := rfl
  dBlocks := rfl
  faults := List.suffix_refl _
  disk _ _ := rfl
  clean := Or.inr ⟨rfl, rfl, rfl⟩

end Frame

/-- A block of the file system only fails when a fault is due. -/
theorem fails_of_fine {count : Nat} (mounted : Mounted s) (inside : b < s.super.blocks)
    (fine : Fine (count + 1) s) : ¬ s.Fails b := by
  have := mounted.device
  rintro (beyond | fault)
  · omega
  · cases pending : s.faults with
    | nil => simp [pending] at fault
    | cons first rest =>
        rw [pending, List.headD_cons] at fault
        exact fine (by simp [pending, fault])

theorem held_not_reserved (inv : Inv s others held) (member : b ∈ held) : b ∉ reserved s others := by
  intro here
  have apart := (List.nodup_append.mp inv.nodup).2.2 b member
  rcases List.mem_append.mp here with fixed | name
  · exact apart b (List.mem_append_left _ fixed) rfl
  · obtain ⟨file, inside, rfl⟩ := List.mem_map.mp name
    exact apart _ (inv.owned_of_file inside (by simp [ownedBy])).1 rfl

theorem index_not_reserved_of_file {file : Nat × DiskInode} (inv : Inv s others held) (inside : file ∈ files s others)
    (nonzero : file.2.indirect ≠ 0) : file.2.indirect ∉ reserved s others := by
  have mine : file.2.indirect ∈ indexBlocks file.2 := mem_indexBlocks.mpr ⟨rfl, nonzero⟩
  have owns : file.2.indirect ∈ ownedBy s.dev.blocks file := List.mem_cons_of_mem _ (List.mem_append_left _ mine)
  obtain ⟨lo, hi, split⟩ := List.append_of_mem inside
  have distinct := (List.nodup_append.mp inv.nodup).2.1
  intro here
  rcases List.mem_append.mp here with fixed | name
  · exact (List.nodup_append.mp distinct).2.2 _ fixed _ (List.mem_flatMap.mpr ⟨_, inside, owns⟩) rfl
  · obtain ⟨other, member, same⟩ := List.mem_map.mp name
    have first : other.1 ∈ ownedBy s.dev.blocks other := List.mem_cons_self
    rw [split] at member
    have itself : other = file ∨ other ∈ lo ++ hi := by
      simp only [List.mem_append, List.mem_cons] at member ⊢
      tauto
    rcases itself with rfl | rest
    · have whole := List.nodup_flatMap.mp (List.nodup_append.mp distinct).2.1
      have own := whole.1 _ inside
      exact (List.nodup_cons.mp own).1 (List.mem_append_left _ (same ▸ mine))
    · exact inv.apart_of_split split rest owns (same ▸ first)

theorem index_not_reserved {sin : Nat} (inv : Inv s others held) (member : sin ∈ s.inodeList)
    (nonzero : (s.nodes sin).din.indirect ≠ 0) : (s.nodes sin).din.indirect ∉ reserved s others :=
  index_not_reserved_of_file inv (fileOf_mem member) nonzero

/-- The block of an inode is no index block. -/
theorem inv_writeInode {sin : Nat} (inv : Inv s others held) (member : sin ∈ s.inodeList) (x : Block) :
    Inv (s.setBlock (s.nodes sin).ino x) others held := by
  have mine : (s.nodes sin).ino ∈ ownedBy s.dev.blocks (fileOf (s.nodes sin)) := List.mem_cons_self
  refine inv_store inv (fun file inside same => ?_) (fun file inside same => ?_) x
  · by_cases zero : file.2.indirect = 0
    · exact (inv.inuse_of_file (fileOf_mem member) mine).1 (same ▸ zero)
    · refine index_not_reserved_of_file inv inside zero (List.mem_append_right _ ?_)
      rw [same]
      exact List.mem_map_of_mem (fileOf_mem member)
  · obtain ⟨lo, hi, rest, split, -⟩ := files_split_self inv.nodes member others
    have theirs : file.1 ∈ ownedBy s.dev.blocks file := List.mem_cons_self
    exact inv.apart_of_split split (List.mem_append_right _ (rest inside)) mine (same ▸ theirs)

end Ucore.Fs.BlockSpecs
