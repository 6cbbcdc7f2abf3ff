import Ucore.Fs.SfsInode

/-! # Who owns a block

Every block in use belongs to the fixed layout of the disk, to one file (as its inode,
its index block or one of its data blocks), or is in hand: on its way to a file or off
it, or lost to a failed operation. No block has two owners.
-/

namespace Ucore.Fs.Ownership

open Lib.Bytes Lib.Program Lib.Program.Prog Error Bitmaps Sfs SfsIo SfsInode

/-- What mounting checks: the superblock agrees with the freemap and fits the device. -/
structure Mounted (s : SfsFs) : Prop where
  full : s.freemap.Full
  sized : s.freemap.nbits = freemapBlocks s.super * SFS_BLKBITS
  bounds : ∀ i, s.freemap.free i = true → i ≠ 0 ∧ i < s.super.blocks
  device : s.super.blocks ≤ s.dev.dBlocks
  unused : s.super.unusedBlocks = s.freemap.freeCount

theorem Mounted.within {s : SfsFs} (mounted : Mounted s) : s.super.blocks ≤ s.freemap.nbits := by
  rw [mounted.sized, freemapBlocks]
  simp only [SFS_BLKBITS, SFS_BLKSIZE]
  omega

/-- The block of a file at a logical index. -/
def blockAt (blocks : Nat → Block) (din : DiskInode) (k : Nat) : Nat :=
  if k < SFS_NDIRECT then din.direct.getD k 0 else word (blocks din.indirect) (k - SFS_NDIRECT)

def dataBlocks (blocks : Nat → Block) (din : DiskInode) : List Nat :=
  (List.range din.blocks).map (blockAt blocks din)

def indexBlocks (din : DiskInode) : List Nat := if din.indirect = 0 then [] else [din.indirect]

/-- The blocks of a file, its inode number first. -/
def ownedBy (blocks : Nat → Block) (file : Nat × DiskInode) : List Nat :=
  file.1 :: (indexBlocks file.2 ++ dataBlocks blocks file.2)

/-- The superblock and the freemap. -/
def layout (super : Super) : List Nat :=
  SFS_BLKN_SUPER :: List.range' SFS_BLKN_FREEMAP (freemapBlocks super)

def fileOf (node : SfsInode) : Nat × DiskInode := (node.ino, node.din)

/-- All files: those in memory, and the others as their inodes are on the disk. -/
def files (s : SfsFs) (others : List (Nat × DiskInode)) : List (Nat × DiskInode) :=
  s.inodeList.map (fun sin => fileOf (s.nodes sin)) ++ others

def owned (s : SfsFs) (others : List (Nat × DiskInode)) : List Nat :=
  layout s.super ++ (files s others).flatMap (ownedBy s.dev.blocks)

/-- A file within the range of direct and indirect blocks, with nothing behind its last block. -/
structure FileOk (blocks : Nat → Block) (din : DiskInode) : Prop where
  direct : din.direct.length = SFS_NDIRECT
  short : din.blocks ≤ SFS_NDIRECT + SFS_BLK_NENTRY
  reach : SFS_NDIRECT < din.blocks → din.indirect ≠ 0
  spare : ∀ k, din.blocks ≤ k → k < SFS_NDIRECT + SFS_BLK_NENTRY → (SFS_NDIRECT ≤ k → din.indirect ≠ 0) →
    blockAt blocks din k = 0

structure Inv (s : SfsFs) (others : List (Nat × DiskInode)) (held : List Nat) : Prop where
  mounted : Mounted s
  nodes : s.inodeList.Nodup
  files : ∀ file ∈ files s others, FileOk s.dev.blocks file.2
  range : ∀ b ∈ held ++ owned s others, b < s.super.blocks
  inuse : ∀ b < s.super.blocks, s.freemap.free b = false ↔ b ∈ held ++ owned s others
  nodup : (held ++ owned s others).Nodup
  stored : ∀ file ∈ others, DiskInode.ofBytes (slice (s.dev.blocks file.1) 0 DiskInode.sizeof) = file.2

/-! ## Files and what they own -/

variable {s t : SfsFs} {others : List (Nat × DiskInode)} {held : List Nat} {sin b : Nat}

theorem blockAt_congr {blocks blocks' : Nat → Block} {din : DiskInode}
    (same : blocks' din.indirect = blocks din.indirect) : blockAt blocks' din = blockAt blocks din := by
  funext k
  simp only [blockAt, same]

theorem ownedBy_congr {blocks blocks' : Nat → Block} {file : Nat × DiskInode}
    (same : blocks' file.2.indirect = blocks file.2.indirect) : ownedBy blocks' file = ownedBy blocks file := by
  simp only [ownedBy, dataBlocks, blockAt_congr same]

theorem FileOk.congr {blocks blocks' : Nat → Block} {din : DiskInode} (ok : FileOk blocks din)
    (same : blocks' din.indirect = blocks din.indirect) : FileOk blocks' din :=
  ⟨ok.direct, ok.short, ok.reach, by rw [blockAt_congr same]; exact ok.spare⟩

theorem mem_indexBlocks {din : DiskInode} : b ∈ indexBlocks din ↔ b = din.indirect ∧ din.indirect ≠ 0 := by
  by_cases zero : din.indirect = 0 <;> simp [indexBlocks, zero]

/-- Changing one inode changes one file. -/
theorem files_split (distinct : s.inodeList.Nodup) (member : sin ∈ s.inodeList)
    (others : List (Nat × DiskInode)) :
    ∃ lo hi, others ⊆ hi ∧ ∀ t : SfsFs, t.inodeList = s.inodeList →
      ∀ node, t.nodes = Function.update s.nodes sin node → files t others = lo ++ fileOf node :: hi := by
  obtain ⟨front, back, split⟩ := List.append_of_mem member
  refine ⟨front.map fun p => fileOf (s.nodes p), back.map (fun p => fileOf (s.nodes p)) ++ others,
    List.subset_append_right _ _, fun t list node nodes => ?_⟩
  rw [split] at distinct
  have apart : ∀ p ∈ front ++ back, p ≠ sin := by
    intro p inside same
    subst same
    exact (List.nodup_middle.mp distinct).notMem (by simpa using inside)
  have unchanged : ∀ ps : List Nat, (∀ p ∈ ps, p ≠ sin) →
      ps.map (fun p => fileOf (t.nodes p)) = ps.map fun p => fileOf (s.nodes p) := by
    intro ps away
    refine List.map_congr_left fun p inside => ?_
    rw [nodes, Function.update_of_ne (away p inside)]
  rw [files, list, split, List.map_append, List.map_cons, unchanged front fun p inside => apart p (by simp [inside]),
    unchanged back fun p inside => apart p (by simp [inside]), nodes, Function.update_self]
  simp

theorem files_split_self (distinct : s.inodeList.Nodup) (member : sin ∈ s.inodeList)
    (others : List (Nat × DiskInode)) :
    ∃ lo hi, others ⊆ hi ∧ files s others = lo ++ fileOf (s.nodes sin) :: hi ∧
      ∀ t : SfsFs, t.inodeList = s.inodeList → ∀ node, t.nodes = Function.update s.nodes sin node →
        files t others = lo ++ fileOf node :: hi := by
  obtain ⟨lo, hi, rest, split⟩ := files_split distinct member others
  exact ⟨lo, hi, rest, split s rfl _ (Function.update_eq_self sin s.nodes).symm, split⟩

theorem fileOf_mem (member : sin ∈ s.inodeList) : fileOf (s.nodes sin) ∈ files s others :=
  List.mem_append_left _ (List.mem_map_of_mem member)

namespace Inv

theorem owned_of_file (inv : Inv s others held) {file : Nat × DiskInode} (inside : file ∈ Ownership.files s others)
    {b : Nat} (mine : b ∈ ownedBy s.dev.blocks file) : b ∈ owned s others ∧ b ≠ 0 := by
  have here : b ∈ (Ownership.files s others).flatMap (ownedBy s.dev.blocks) :=
    List.mem_flatMap.mpr ⟨file, inside, mine⟩
  refine ⟨List.mem_append_right _ here, fun zero => ?_⟩
  have distinct := (List.nodup_append.mp inv.nodup).2.1
  exact (List.nodup_append.mp distinct).2.2 0 (by simp [layout, SFS_BLKN_SUPER]) b here zero.symm

/-- The blocks of a file are in use. -/
theorem inuse_of_file (inv : Inv s others held) {file : Nat × DiskInode}
    (inside : file ∈ Ownership.files s others) {b : Nat} (mine : b ∈ ownedBy s.dev.blocks file) :
    b ≠ 0 ∧ b < s.super.blocks ∧ s.freemap.free b = false := by
  obtain ⟨here, nonzero⟩ := inv.owned_of_file inside mine
  have bound := inv.range b (List.mem_append_right _ here)
  exact ⟨nonzero, bound, (inv.inuse b bound).mpr (List.mem_append_right _ here)⟩

theorem inuse_of_held (inv : Inv s others held) {b : Nat} (mine : b ∈ held) :
    b ≠ 0 ∧ b < s.super.blocks ∧ s.freemap.free b = false := by
  have bound := inv.range b (List.mem_append_left _ mine)
  refine ⟨fun zero => ?_, bound, (inv.inuse b bound).mpr (List.mem_append_left _ mine)⟩
  exact (List.nodup_append.mp inv.nodup).2.2 b mine b
    (by simp [owned, layout, zero, SFS_BLKN_SUPER]) rfl

theorem file_blocks (inv : Inv s others held) {file : Nat × DiskInode} (inside : file ∈ Ownership.files s others)
    {k : Nat} (below : k < file.2.blocks) :
    blockAt s.dev.blocks file.2 k ≠ 0 ∧ blockAt s.dev.blocks file.2 k < s.super.blocks ∧
      s.freemap.free (blockAt s.dev.blocks file.2 k) = false := by
  refine inv.inuse_of_file inside (List.mem_cons_of_mem _ (List.mem_append_right _ ?_))
  exact List.mem_map_of_mem (List.mem_range.mpr below)

theorem file (inv : Inv s others held) (member : sin ∈ s.inodeList) : FileOk s.dev.blocks (s.nodes sin).din :=
  inv.files _ (fileOf_mem member)

theorem free_not_owned (inv : Inv s others held) {b : Nat} (free : s.freemap.free b = true) :
    b ∉ held ++ owned s others := by
  intro mine
  rw [(inv.inuse b (inv.mounted.bounds b free).2).mpr mine] at free
  cases free

/-- Nothing but the fields named here matters. -/
theorem congr (inv : Inv s others held) (list : t.inodeList = s.inodeList) (nodes : t.nodes = s.nodes)
    (disk : t.dev = s.dev) (freemap : t.freemap = s.freemap) (super : t.super = s.super) :
    Inv t others held := by
  have files : Ownership.files t others = Ownership.files s others := by
    rw [Ownership.files, Ownership.files, list, nodes]
  have owned : Ownership.owned t others = Ownership.owned s others := by
    rw [Ownership.owned, Ownership.owned, files, disk, super]
  refine ⟨⟨?_, ?_, ?_, ?_, ?_⟩, ?_, ?_, ?_, ?_, ?_, ?_⟩
  · rw [freemap]; exact inv.mounted.full
  · rw [freemap, super]; exact inv.mounted.sized
  · rw [freemap, super]; exact inv.mounted.bounds
  · rw [super, disk]; exact inv.mounted.device
  · rw [freemap, super]; exact inv.mounted.unused
  · rw [list]; exact inv.nodes
  · rw [files, disk]; exact inv.files
  · rw [owned, super]; exact inv.range
  · rw [owned, super, freemap]; exact inv.inuse
  · rw [owned]; exact inv.nodup
  · rw [disk]; exact inv.stored

theorem tick (inv : Inv s others held) : Inv s.tick others held := inv.congr rfl rfl rfl rfl rfl

/-- A file that is split off a list of files has nothing in common with the rest. -/
theorem apart_of_split (inv : Inv s others held) {file : Nat × DiskInode} {lo hi : List (Nat × DiskInode)}
    (split : Ownership.files s others = lo ++ file :: hi) {other : Nat × DiskInode} (rest : other ∈ lo ++ hi) :
    (ownedBy s.dev.blocks file).Disjoint (ownedBy s.dev.blocks other) := by
  have distinct := (List.nodup_append.mp (List.nodup_append.mp inv.nodup).2.1).2.1
  rw [split, List.flatMap_append, List.flatMap_cons] at distinct
  obtain ⟨-, upper, across⟩ := List.nodup_append.mp distinct
  obtain ⟨-, -, above⟩ := List.nodup_append.mp upper
  intro b mine theirs
  rcases List.mem_append.mp rest with front | back
  · exact across b (List.mem_flatMap.mpr ⟨other, front, theirs⟩) b (List.mem_append_left _ mine) rfl
  · exact above b mine b (List.mem_flatMap.mpr ⟨other, back, theirs⟩) rfl

theorem held_apart (inv : Inv s others held) {file : Nat × DiskInode} (inside : file ∈ Ownership.files s others)
    {b : Nat} (mine : b ∈ ownedBy s.dev.blocks file) : b ∉ held := fun here =>
  (List.nodup_append.mp inv.nodup).2.2 b here b (inv.owned_of_file inside mine).1 rfl

/-- One file changes, with blocks going into its hands or out of them. -/
theorem change {node : SfsInode} {held' : List Nat} (inv : Inv s others held) (member : sin ∈ s.inodeList)
    (list : t.inodeList = s.inodeList) (nodes : t.nodes = Function.update s.nodes sin node)
    (freemap : t.freemap = s.freemap) (super : t.super = s.super) (device : t.dev.dBlocks = s.dev.dBlocks)
    (disk : ∀ b, b ∉ held → (b = (s.nodes sin).din.indirect → b = 0) → t.dev.blocks b = s.dev.blocks b)
    (ok : FileOk t.dev.blocks node.din)
    (moved : (held ++ ownedBy s.dev.blocks (fileOf (s.nodes sin))).Perm
      (held' ++ ownedBy t.dev.blocks (fileOf node))) : Inv t others held' := by
  obtain ⟨lo, hi, behind, before, after⟩ := files_split_self inv.nodes member others
  have after := after t list node nodes
  have mine : fileOf (s.nodes sin) ∈ Ownership.files s others := fileOf_mem member
  have old : ∀ other ∈ lo ++ hi, other ∈ Ownership.files s others := by
    intro other rest
    rw [before]
    rcases List.mem_append.mp rest with front | back <;> simp [*]
  have kept : ∀ other ∈ lo ++ hi, ∀ b ∈ other.1 :: indexBlocks other.2, t.dev.blocks b = s.dev.blocks b := by
    intro other rest b theirs
    have owns : b ∈ ownedBy s.dev.blocks other := by
      simp only [ownedBy, List.mem_cons, List.mem_append] at theirs ⊢
      tauto
    refine disk b (inv.held_apart (old other rest) owns) fun same => ?_
    by_contra nonzero
    refine inv.apart_of_split before rest (a := b) ?_ owns
    simp only [ownedBy, fileOf, List.mem_cons, List.mem_append, mem_indexBlocks]
    exact Or.inr (Or.inl ⟨same, same ▸ nonzero⟩)
  have index : ∀ other ∈ lo ++ hi, t.dev.blocks other.2.indirect = s.dev.blocks other.2.indirect := by
    intro other rest
    by_cases zero : other.2.indirect = 0
    · rw [zero]
      exact disk 0 (fun here => (inv.inuse_of_held here).1 rfl) fun _ => rfl
    · exact kept other rest _ (List.mem_cons_of_mem _ (mem_indexBlocks.mpr ⟨rfl, zero⟩))
  have blocks : ∀ os : List (Nat × DiskInode), (∀ o ∈ os, o ∈ lo ++ hi) →
      os.flatMap (ownedBy t.dev.blocks) = os.flatMap (ownedBy s.dev.blocks) := fun os inside =>
    List.flatMap_congr fun o here => ownedBy_congr (index o (inside o here))
  have same : (held ++ owned s others).Perm (held' ++ owned t others) := by
    rw [owned, owned, before, after, super, List.flatMap_append, List.flatMap_append, List.flatMap_cons,
      List.flatMap_cons, blocks lo fun o here => List.mem_append_left _ here,
      blocks hi fun o here => List.mem_append_right _ here]
    rw [List.perm_iff_count] at moved ⊢
    intro b
    have := moved b
    simp only [List.count_append] at this ⊢
    omega
  refine
    { mounted := ⟨by rw [freemap]; exact inv.mounted.full, by rw [freemap, super]; exact inv.mounted.sized,
        by rw [freemap, super]; exact inv.mounted.bounds, by rw [super, device]; exact inv.mounted.device,
        by rw [freemap, super]; exact inv.mounted.unused⟩
      nodes := by rw [list]; exact inv.nodes
      files := fun file inside => ?_
      range := fun b here => by rw [super]; exact inv.range b (same.mem_iff.mpr here)
      inuse := fun b bound => by rw [freemap, ← same.mem_iff]; exact inv.inuse b (super ▸ bound)
      nodup := same.nodup_iff.mp inv.nodup
      stored := fun file inside => ?_ }
  · rw [after] at inside
    rcases List.mem_append.mp inside with front | back
    · have rest := List.mem_append_left hi front
      exact (inv.files file (old file rest)).congr (index file rest)
    · rcases List.mem_cons.mp back with rfl | back
      · exact ok
      · have rest := List.mem_append_right lo back
        exact (inv.files file (old file rest)).congr (index file rest)
  · rw [kept file (List.mem_append_right _ (behind inside)) _ List.mem_cons_self]
    exact inv.stored file inside

end Inv

end Ucore.Fs.Ownership
