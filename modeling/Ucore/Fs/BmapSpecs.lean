import Ucore.Fs.BlockSpecs

/-! # Growing and shrinking a file by one block

What `sfs_bmap_load_nolock` and `sfs_bmap_truncate_nolock` do to the inode and to the
owners of the blocks, when they succeed and when they fail.
-/

namespace Ucore.Fs.BmapSpecs

open Lib.Bytes Lib.Program Lib.Program.Prog Error Bitmaps Sfs SfsIo SfsInode Ownership BlockSpecs

variable {s t : SfsFs} {others : List (Nat × DiskInode)} {held : List Nat} {sin : Nat}
variable {allowed : Panic → Prop} {E : Err → SfsFs → Prop}

/-- An operation that has failed has changed no inode. Blocks may be lost to it; if none of its
    `ops` operations of the device fails, it is for want of free blocks, with fewer than `need`. -/
structure Failed (others : List (Nat × DiskInode)) (held : List Nat) (ops need : Nat) (s t : SfsFs) : Prop where
  nodes : t.nodes = s.nodes
  frame : Frame others s t
  inv : ∃ lost, Inv t others (lost ++ held) ∧ (Fine ops s → lost = [] ∧ s.freemap.freeCount < need)

theorem Failed.mono {ops ops' need need' : Nat} (failed : Failed others held ops need s t) (more : ops ≤ ops')
    (le : need ≤ need') : Failed others held ops' need' s t := by
  obtain ⟨lost, inv, why⟩ := failed.inv
  refine ⟨failed.nodes, failed.frame, lost, inv, fun fine => ?_⟩
  exact ⟨(why (fine.mono more)).1, Nat.lt_of_lt_of_le (why (fine.mono more)).2 le⟩

/-- Operations that have succeeded before the one that fails. -/
theorem Failed.after {ops before need : Nat} {u : SfsFs} (failed : Failed others held ops need t u)
    (nodes : t.nodes = s.nodes) (frame : Frame others s t) (paid : Paid before s t)
    (count : t.freemap.freeCount < need → s.freemap.freeCount < need) :
    Failed others held (before + ops) need s u := by
  obtain ⟨lost, inv, why⟩ := failed.inv
  refine ⟨failed.nodes.trans nodes, frame.trans failed.frame, lost, inv, fun fine => ?_⟩
  obtain ⟨none, few⟩ := why ((fine_add paid).mp fine)
  exact ⟨none, count few⟩

/-! ## Growing -/

/-- The state in which a new block has been taken for a file. -/
structure Grabbed (others : List (Nat × DiskInode)) (held : List Nat) (s : SfsFs) (ino : Nat) (t : SfsFs) : Prop where
  nodes : t.nodes = s.nodes
  frame : Frame others s t
  inv : Inv t others (ino :: held)
  disk : ∀ b, b ≠ ino → t.dev.blocks b = s.dev.blocks b
  clear : t.dev.blocks ino = zeros
  count : t.freemap.freeCount + 1 = s.freemap.freeCount
  fresh : s.freemap.free ino = true
  paid : Paid 1 s t

theorem sfsBlockAlloc_grabs {Q : Nat → SfsFs → Prop} (inv : Inv s others held)
    (failed : ∀ e t, Failed others held 1 1 s t → E e t)
    (post : ∀ ino t, Grabbed others held s ino t → Q ino t) : Spec allowed sfsBlockAlloc s Q E := by
  refine sfsBlockAlloc_spec inv.mounted (fun none => ?_) (fun ino t flip fine => ?_) fun ino t flip fails e => ?_
  · refine failed _ _ ⟨rfl, Frame.refl _ _, [], inv, fun _ => ⟨rfl, ?_⟩⟩
    rw [freeCount_zero none]
    exact Nat.one_pos
  · have taken := (inv_acquire inv flip).tick
    have member : ino ∈ ino :: held := List.mem_cons_self
    refine post ino _ ⟨flip.nodes, ?_, inv_write taken member zeros, fun b other => ?_, ?_, flip.count inv.mounted,
      flip.before, ?_⟩
    · exact ((Frame.flip flip).trans (Frame.tick t)).trans (Frame.setBlock (held_not_reserved taken member) _)
    · rw [← flip.dev]
      exact Function.update_of_ne other _ _
    · exact Function.update_self ino zeros t.dev.blocks
    · exact ⟨(congrArg List.tail flip.faults).trans List.drop_one.symm, (Paid.tick fine).fine⟩
  · have faulty : ¬ Fine 1 s := fun fine =>
      fails_of_fine inv.mounted (inv.mounted.bounds ino flip.before).2 fine fails
    have lost := inv_acquire inv flip
    exact ⟨failed _ _ ⟨flip.nodes, Frame.flip flip, [ino], lost, fun fine => absurd fine faulty⟩,
      failed _ _ ⟨flip.nodes, (Frame.flip flip).trans (Frame.tick t), [ino], lost.tick,
        fun fine => absurd fine faulty⟩⟩

/-- The new block has been entered in the entry block, at the index. -/
structure Entered (others : List (Nat × DiskInode)) (held : List Nat) (s : SfsFs) (ent index ino : Nat)
    (t : SfsFs) : Prop where
  grabbed : ∃ u, Grabbed others held s ino u ∧ Paid 2 u u.tick.tick ∧
    t = u.tick.tick.setBlock ent (patch (u.dev.blocks ent) (4 * index) (toLe 4 ino))

theorem sfsBmapNewEntry_spec {Q : Nat × Nat → SfsFs → Prop} {entp ent index : Nat} (inv : Inv s others held)
    (below : index < SFS_BLK_NENTRY) (nonzero : ent ≠ 0) (inside : ent < s.super.blocks)
    (taken : s.freemap.free ent = false)
    (cleanup : ∀ e t, Failed others held 3 1 s t →
      Spec allowed (if ent ≠ entp then sfsBlockFree ent else pure ()) t (fun _ u => E e u) E)
    (post : ∀ ino t, ino ≠ ent → Entered others held s ent index ino t → Q (ent, ino) t) :
    Spec allowed (sfsBmapNewEntry entp ent (4 * index)) s Q E := by
  simp only [sfsBmapNewEntry, spec_bind, spec_onError, spec_pure]
  refine sfsBlockAlloc_grabs inv (fun e t fails => cleanup e t (fails.mono (by decide) (Nat.le_refl _)))
    fun ino t grabbed => ?_
  have apart : ino ≠ ent := by
    intro same
    have := grabbed.fresh
    rw [same, taken] at this
    cases this
  have inside' : ent < t.super.blocks := by rw [grabbed.frame.blocks]; exact inside
  have bound : 4 * index + 4 ≤ SFS_BLKSIZE := by simp only [SFS_BLK_NENTRY, SFS_BLKSIZE] at below ⊢; omega
  refine sfsWbuf_spec ⟨by omega, by simpa using bound⟩ nonzero inside' (fun fails e => ?_) fun reads writes => ?_
  · have faulty : ¬ Fine 3 s := by
      intro fine
      have fine' : Fine 2 t := (fine_add grabbed.paid).mp fine
      exact fails.elim (fails_of_fine grabbed.inv.mounted inside' fine')
        (fails_of_fine grabbed.inv.tick.mounted inside' fine'.tick)
    have undo : ∀ u, u.nodes = t.nodes → Frame others t u → Inv u others (ino :: held) →
        Spec allowed (sfsBlockFree ino) u
          (fun _ v => Spec allowed (if ent ≠ entp then sfsBlockFree ent else pure ()) v (fun _ w => E e w) E) E := by
      intro u nodes frame inv'
      obtain ⟨nonzero', inside'', taken'⟩ := inv'.inuse_of_held (b := ino) List.mem_cons_self
      refine sfsBlockFree_spec inv'.mounted nonzero' inside'' taken' fun v flip => cleanup e v ?_
      exact ⟨flip.nodes.trans (nodes.trans grabbed.nodes),
        (grabbed.frame.trans frame).trans (Frame.flip flip), [], inv_release inv' flip,
        fun fine => absurd fine faulty⟩
    exact ⟨undo t rfl (Frame.refl _ _) grabbed.inv, undo t.tick rfl (Frame.tick t) grabbed.inv.tick,
      undo t.tick.tick rfl ((Frame.tick t).trans (Frame.tick _)) grabbed.inv.tick.tick⟩
  · exact post ino _ apart ⟨t, grabbed, (Paid.tick reads).trans (Paid.tick writes), rfl⟩

theorem dataBlocks_grow {blocks blocks' : Nat → Block} {din din' : DiskInode} {ino : Nat}
    (size : din'.blocks = din.blocks + 1) (last : blockAt blocks' din' din.blocks = ino)
    (below : ∀ k < din.blocks, blockAt blocks' din' k = blockAt blocks din k) :
    dataBlocks blocks' din' = dataBlocks blocks din ++ [ino] := by
  rw [dataBlocks, size, List.range_succ, List.map_append, List.map_singleton, last]
  congr 1
  exact List.map_congr_left fun k inside => below k (List.mem_range.mp inside)

/-- What a file that has got one more block has become in memory. -/
structure Grown (node node' : SfsInode) : Prop where
  ino : node'.ino = node.ino
  size : node'.din.size = node.din.size
  type : node'.din.type = node.din.type
  nlinks : node'.din.nlinks = node.din.nlinks
  blocks : node'.din.blocks = node.din.blocks + 1
  refCount : node'.refCount = node.refCount
  reclaimCount : node'.reclaimCount = node.reclaimCount
  fits : node.din.Fits → node'.din.Fits
  indirect : SFS_NDIRECT ≤ node.din.blocks → node'.din.indirect ≠ 0
  low : node.din.blocks < SFS_NDIRECT → node'.din.indirect = node.din.indirect
  dirty : node'.dirty = true ∨
    SFS_NDIRECT ≤ node.din.blocks ∧ node.din.indirect ≠ 0 ∧ node'.din.indirect = node.din.indirect ∧
      node'.dirty = node.dirty

/-- How many blocks the next one of a file takes. -/
def needed (din : DiskInode) : Nat := if SFS_NDIRECT ≤ din.blocks ∧ din.indirect = 0 then 2 else 1

/-- How many operations of the device that is. -/
def loadOps (din : DiskInode) : Nat := if din.blocks < SFS_NDIRECT then 1 else 4

/-- The file has been given one more block. -/
structure Loaded (others : List (Nat × DiskInode)) (held : List Nat) (s : SfsFs) (sin : Nat) (t : SfsFs) : Prop where
  nodes : ∃ node', t.nodes = Function.update s.nodes sin node' ∧ Grown (s.nodes sin) node'
  frame : Frame others s t
  inv : Inv t others held
  count : t.freemap.freeCount + needed (s.nodes sin).din = s.freemap.freeCount
  paid : Paid (loadOps (s.nodes sin).din) s t

/-- A block in hand becomes the next block of a file. -/
theorem loaded_of_change {u : SfsFs} {ino : Nat} (ents : List Nat) (node' : SfsInode) (member : sin ∈ s.inodeList)
    (unchanged : u.nodes = s.nodes) (frame : Frame others s u) (inv : Inv u others (ino :: ents ++ held))
    (count : u.freemap.freeCount + needed (s.nodes sin).din = s.freemap.freeCount)
    (paid : Paid (loadOps (s.nodes sin).din) s t) (tail : Frame others u t)
    (nodes : t.nodes = Function.update u.nodes sin node')
    (freemap : t.freemap = u.freemap) (super : t.super = u.super)
    (disk : ∀ b, b ∉ ino :: ents ++ held → (b = (s.nodes sin).din.indirect → b = 0) →
      t.dev.blocks b = u.dev.blocks b)
    (grown : Grown (s.nodes sin) node') (ok : FileOk t.dev.blocks node'.din)
    (index : (indexBlocks node'.din).Perm (ents ++ indexBlocks (s.nodes sin).din))
    (last : blockAt t.dev.blocks node'.din (s.nodes sin).din.blocks = ino)
    (below : ∀ k < (s.nodes sin).din.blocks,
      blockAt t.dev.blocks node'.din k = blockAt u.dev.blocks (s.nodes sin).din k) :
    Loaded others held s sin t := by
  refine ⟨⟨node', by rw [nodes, unchanged], grown⟩, frame.trans tail, ?_, by rw [freemap]; exact count, paid⟩
  have here : sin ∈ u.inodeList := frame.inodeList ▸ member
  refine inv.change here tail.inodeList nodes freemap super tail.dBlocks (by rwa [unchanged]) ok ?_
  have data := dataBlocks_grow grown.blocks last below
  rw [unchanged, ownedBy, ownedBy, fileOf, fileOf, data, grown.ino]
  rw [List.perm_iff_count] at index ⊢
  intro b
  have := index b
  simp only [List.count_append, List.count_cons, List.count_nil] at this ⊢
  omega

theorem assertZeroOrInuse_spec {ino : Nat} {Q : Unit → SfsFs → Prop} (mounted : Mounted s)
    (taken : ino ≠ 0 → ino < s.super.blocks ∧ s.freemap.free ino = false) (post : Q () s) :
    Spec allowed (assertZeroOrInuse ino) s Q E := by
  unfold assertZeroOrInuse
  split
  · exact post
  · rename_i nonzero
    exact assertInuse_spec mounted nonzero (taken nonzero).1 (taken nonzero).2 post

theorem mounted_setNode (mounted : Mounted s) (f : SfsInode → SfsInode) : Mounted (s.setNode sin f) :=
  ⟨mounted.full, mounted.sized, mounted.bounds, mounted.device, mounted.unused⟩

theorem mounted_setBlock (mounted : Mounted s) (b : Nat) (x : Block) : Mounted (s.setBlock b x) :=
  ⟨mounted.full, mounted.sized, mounted.bounds, mounted.device, mounted.unused⟩

theorem setNode_setNode (s : SfsFs) (sin : Nat) (f g : SfsInode → SfsInode) :
    (s.setNode sin f).setNode sin g = s.setNode sin (g ∘ f) := by
  simp [SfsFs.setNode]

/-- `din->blocks ++` -/
def bump (node : SfsInode) : SfsInode :=
  { node with din := { node.din with blocks := (node.din.blocks + 1) % 2 ^ 32 } }

theorem bump_of_lt {node : SfsInode} (short : node.din.blocks + 1 < 2 ^ 32) :
    bump node = { node with din := { node.din with blocks := node.din.blocks + 1 } } := by
  rw [bump, Nat.mod_eq_of_lt short]

theorem short_of_room {n : Nat} (room : n < SFS_NDIRECT + SFS_BLK_NENTRY) : n + 1 < 2 ^ 32 := by
  have : SFS_NDIRECT + SFS_BLK_NENTRY = 1036 := rfl
  omega

/-- The checks behind the block map, and the new count of blocks. -/
theorem load_tail {ino : Nat} {Q : Nat → SfsFs → Prop} (mounted : Mounted s) (nonzero : ino ≠ 0)
    (inside : ino < s.super.blocks) (taken : s.freemap.free ino = false) (post : Q ino (s.setNode sin bump)) :
    Spec allowed (assertZeroOrInuse ino) s
      (fun _ t => Spec allowed (assertInuse ino) t (fun _ t => Q ino (t.setNode sin bump)) E) E :=
  assertZeroOrInuse_spec mounted (fun _ => ⟨inside, taken⟩) (assertInuse_spec mounted nonzero inside taken post)

theorem fits_number {ino : Nat} (inv : Inv s others held) (inside : ino < s.super.blocks) : ino < 2 ^ 32 := by
  have := inv.mounted.device
  have := s.dev.small
  omega

theorem Grabbed.file {ino : Nat} (grabbed : Grabbed others held s ino t) (member : sin ∈ s.inodeList) :
    FileOk t.dev.blocks (s.nodes sin).din := by
  have ok := grabbed.inv.file (grabbed.frame.inodeList ▸ member)
  rwa [grabbed.nodes] at ok

theorem load_direct {Q : Nat → SfsFs → Prop} (inv : Inv s others held) (member : sin ∈ s.inodeList)
    (direct : (s.nodes sin).din.blocks < SFS_NDIRECT)
    (failed : ∀ e t, Failed others held (loadOps (s.nodes sin).din) (needed (s.nodes sin).din) s t → E e t)
    (post : ∀ ino t, Loaded others held s sin t → Q ino t) :
    Spec allowed (sfsBmapLoadNolock sin (s.nodes sin).din.blocks) s Q E := by
  have ok := inv.file member
  have empty : (s.nodes sin).din.direct.getD (s.nodes sin).din.blocks 0 = 0 := by
    have := ok.spare _ (Nat.le_refl _) (by omega) (fun up => by omega)
    rwa [blockAt, if_pos direct] at this
  have one : needed (s.nodes sin).din = 1 := by rw [needed, if_neg (by omega)]
  rw [one, loadOps, if_pos direct] at failed
  simp only [sfsBmapLoadNolock, spec_bind, spec_get, spec_ensure_of (Nat.le_refl _), sfsBmapGetNolock,
    if_pos direct, empty, decide_true, if_true, and_self, spec_modify, spec_pure]
  refine sfsBlockAlloc_grabs inv failed fun ino u grabbed => ?_
  obtain ⟨nonzero, inside, taken⟩ := grabbed.inv.inuse_of_held (b := ino) List.mem_cons_self
  refine load_tail (mounted_setNode grabbed.inv.mounted _) nonzero inside taken (post ino _ ?_)
  have short := short_of_room (show (s.nodes sin).din.blocks < _ by omega)
  have slots : (s.nodes sin).din.blocks < (s.nodes sin).din.direct.length := by rw [ok.direct]; exact direct
  obtain ⟨node', named⟩ : ∃ node' : SfsInode, node' = { s.nodes sin with
      din := { (s.nodes sin).din with
        blocks := (s.nodes sin).din.blocks + 1
        direct := (s.nodes sin).din.direct.set (s.nodes sin).din.blocks ino }
      dirty := true } := ⟨_, rfl⟩
  have nodes : ((u.setNode sin fun node => { node with
      din := { node.din with direct := node.din.direct.set (s.nodes sin).din.blocks ino }
      dirty := true }).setNode sin bump).nodes = Function.update u.nodes sin node' := by
    rw [setNode_setNode, SfsFs.setNode, Function.comp_apply, grabbed.nodes, named]
    exact congrArg (Function.update s.nodes sin) (bump_of_lt short)
  have slot : ∀ k, k < SFS_NDIRECT → blockAt u.dev.blocks node'.din k =
      if k = (s.nodes sin).din.blocks then ino else (s.nodes sin).din.direct.getD k 0 := by
    intro k below
    rw [blockAt, if_pos below, named]
    by_cases same : k = (s.nodes sin).din.blocks
    · rw [if_pos same, same, List.getD_eq_getElem?_getD, List.getElem?_set_self slots, Option.getD_some]
    · rw [if_neg same, List.getD_eq_getElem?_getD, List.getElem?_set_ne (Ne.symm same),
        List.getD_eq_getElem?_getD]
  have grown : Grown (s.nodes sin) node' := by
    subst named
    refine ⟨rfl, rfl, rfl, rfl, rfl, rfl, rfl, fun fits => ?_, fun up => absurd direct (by omega), fun _ => rfl,
      Or.inl rfl⟩
    refine ⟨fits.size, fits.type, fits.nlinks, short, by simpa using fits.direct, fun b inside => ?_, fits.indirect⟩
    rcases List.mem_or_eq_of_mem_set inside with old | rfl
    · exact fits.slots b old
    · exact fits_number grabbed.inv ‹_›
  refine loaded_of_change [] node' member grabbed.nodes grabbed.frame grabbed.inv
    (by rw [one]; exact grabbed.count) (by rw [loadOps, if_pos direct]; exact ⟨grabbed.paid.faults, grabbed.paid.fine⟩)
    ((Frame.setNode rfl).trans (Frame.setNode rfl)) nodes rfl rfl
    (fun _ _ _ => rfl) grown ?_ (by rw [named]; exact List.Perm.refl _) ?_ ?_
  · have okU := grabbed.file member
    refine ⟨by rw [named]; simpa using okU.direct, ?_, ?_, fun k behind inside reach => ?_⟩
    · rw [grown.blocks]
      exact Nat.le_trans direct (Nat.le_add_right _ _)
    · intro up
      rw [grown.blocks] at up
      exact absurd direct (by omega)
    · rw [grown.blocks] at behind
      by_cases below : k < SFS_NDIRECT
      · refine (slot k below).trans ?_
        rw [if_neg (by omega)]
        have := okU.spare k (by omega) inside fun up => absurd below (by omega)
        rwa [blockAt, if_pos below] at this
      · have index : node'.din.indirect = (s.nodes sin).din.indirect := by rw [named]
        have := okU.spare k (by omega) inside fun up => index ▸ reach up
        rw [blockAt, if_neg below] at this ⊢
        rw [index]
        exact this
  · exact (slot _ direct).trans (if_pos rfl)
  · intro k below
    refine (slot k (by omega)).trans ?_
    rw [if_neg (by omega), blockAt, if_pos (by omega)]

/-! ### Through the index block -/

variable {blocks blocks' : Nat → Block} {din din' : DiskInode} {ent ino : Nat}

/-- The entry of the next block is written, and nothing else in the index block. -/
structure EntryWritten (blocks blocks' : Nat → Block) (din : DiskInode) (ent ino : Nat) : Prop where
  up : SFS_NDIRECT ≤ din.blocks
  content : blocks' ent = patch (blocks ent) (4 * (din.blocks - SFS_NDIRECT)) (toLe 4 ino)
  small : ino < 2 ^ 32

theorem EntryWritten.blockAt (written : EntryWritten blocks blocks' din ent ino) (pointer : din'.indirect = ent)
    {k : Nat} (upper : SFS_NDIRECT ≤ k) :
    blockAt blocks' din' k = if k = din.blocks then ino else word (blocks ent) (k - SFS_NDIRECT) := by
  have := written.up
  rw [Ownership.blockAt, if_neg (by omega), pointer, written.content]
  by_cases same : k = din.blocks
  · rw [if_pos same, same, word_patch written.small]
  · rw [if_neg same, word_patch_of_ne (by omega)]

theorem EntryWritten.fileOk (written : EntryWritten blocks blocks' din ent ino) (ok : FileOk blocks din)
    (pointer : din'.indirect = ent) (direct : din'.direct = din.direct) (count : din'.blocks = din.blocks + 1)
    (room : din.blocks < SFS_NDIRECT + SFS_BLK_NENTRY) (nonzero : ent ≠ 0)
    (spare : ∀ k, din.blocks < k → k < SFS_NDIRECT + SFS_BLK_NENTRY → word (blocks ent) (k - SFS_NDIRECT) = 0) :
    FileOk blocks' din' := by
  have := written.up
  refine ⟨by rw [direct]; exact ok.direct, by omega, fun _ => pointer ▸ nonzero, fun k behind inside _ => ?_⟩
  rw [written.blockAt pointer (by omega), if_neg (by omega)]
  exact spare k (by omega) inside

theorem blockAt_direct (direct : din'.direct = din.direct) {k : Nat} (below : k < SFS_NDIRECT) :
    blockAt blocks' din' k = blockAt blocks din k := by
  rw [Ownership.blockAt, Ownership.blockAt, if_pos below, if_pos below, direct]

theorem load_indirect {Q : Nat → SfsFs → Prop} (inv : Inv s others held) (member : sin ∈ s.inodeList)
    (up : SFS_NDIRECT ≤ (s.nodes sin).din.blocks)
    (room : (s.nodes sin).din.blocks < SFS_NDIRECT + SFS_BLK_NENTRY)
    (present : (s.nodes sin).din.indirect ≠ 0)
    (failed : ∀ e t, Failed others held (loadOps (s.nodes sin).din) (needed (s.nodes sin).din) s t → E e t)
    (post : ∀ ino t, Loaded others held s sin t → Q ino t) :
    Spec allowed (sfsBmapLoadNolock sin (s.nodes sin).din.blocks) s Q E := by
  have ok := inv.file member
  have one : needed (s.nodes sin).din = 1 := by rw [needed, if_neg (by simp [present])]
  have four : loadOps (s.nodes sin).din = 4 := by rw [loadOps, if_neg (by omega)]
  rw [one, four] at failed
  have below : (s.nodes sin).din.blocks - SFS_NDIRECT < SFS_BLK_NENTRY := by omega
  have bound : 4 * ((s.nodes sin).din.blocks - SFS_NDIRECT) + 4 ≤ SFS_BLKSIZE := by
    simp only [SFS_BLK_NENTRY, SFS_BLKSIZE] at below ⊢
    omega
  have entry : ofLe (slice (s.dev.blocks (s.nodes sin).din.indirect)
      (4 * ((s.nodes sin).din.blocks - SFS_NDIRECT)) 4) = 0 := by
    have := ok.spare _ (Nat.le_refl _) room fun _ => present
    rwa [Ownership.blockAt, if_neg (Nat.not_lt.mpr up)] at this
  have mine : (s.nodes sin).din.indirect ∈ ownedBy s.dev.blocks (fileOf (s.nodes sin)) :=
    List.mem_cons_of_mem _ (List.mem_append_left _ (mem_indexBlocks.mpr ⟨rfl, present⟩))
  obtain ⟨-, inside, taken⟩ := inv.inuse_of_file (fileOf_mem member) mine
  have frame : Frame others s s.tick := Frame.tick s
  simp only [sfsBmapLoadNolock, spec_bind, spec_get, spec_ensure_of (Nat.le_refl _), sfsBmapGetNolock,
    if_neg (Nat.not_lt.mpr up), if_pos below, sfsBmapGetSubNolock, spec_ensure_of below, if_pos present,
    decide_true]
  refine sfsRbuf_spec ⟨by omega, bound⟩ present inside (fun fails e => ?_) fun reads => ?_
  · have faulty : Fine 4 s → False := fun fine => fails_of_fine inv.mounted inside fine fails
    exact ⟨failed e _ ⟨rfl, Frame.refl _ _, [], inv, fun fine => (faulty fine).elim⟩,
      failed e _ ⟨rfl, frame, [], inv.tick, fun fine => (faulty fine).elim⟩⟩
  · rw [entry, if_neg (by simp)]
    refine sfsBmapNewEntry_spec inv.tick below present inside taken (fun e t fails => ?_) fun ino t apart entered => ?_
    · rw [if_neg (by simp)]
      exact failed e t (fails.after rfl frame (Paid.tick reads) id)
    · obtain ⟨u, grabbed, writes, rfl⟩ := entered.grabbed
      obtain ⟨nonzero, inside', taken'⟩ := grabbed.inv.inuse_of_held (b := ino) List.mem_cons_self
      rw [if_neg (by simp)]
      simp only [spec_bind, spec_pure, if_true, spec_modify]
      refine load_tail (mounted_setBlock grabbed.inv.tick.tick.mounted _ _) nonzero inside' taken' (post ino _ ?_)
      have short := short_of_room room
      have written : EntryWritten u.dev.blocks
          ((u.tick.tick.setBlock (s.nodes sin).din.indirect (patch (u.dev.blocks (s.nodes sin).din.indirect)
            (4 * ((s.nodes sin).din.blocks - SFS_NDIRECT)) (toLe 4 ino))).setNode sin bump).dev.blocks
          (s.nodes sin).din (s.nodes sin).din.indirect ino :=
        ⟨up, Function.update_self _ _ u.dev.blocks, fits_number grabbed.inv inside'⟩
      have okU := grabbed.file (s := s.tick) member
      have away := index_not_reserved grabbed.inv (grabbed.frame.inodeList ▸ member)
        (by rw [grabbed.nodes]; exact present)
      rw [show u.nodes sin = s.nodes sin by rw [grabbed.nodes]; rfl] at away
      refine loaded_of_change [] (bump (s.nodes sin)) member (u := u) grabbed.nodes
        (frame.trans grabbed.frame) grabbed.inv (by rw [one]; exact grabbed.count) ?_ ?_ ?_ rfl rfl ?_ ?_ ?_ ?_ ?_ ?_
      · have paid := ((Paid.tick reads).trans grabbed.paid).trans writes
        rw [four]
        exact ⟨paid.faults, paid.fine⟩
      · exact (((Frame.tick u).trans (Frame.tick _)).trans (Frame.setBlock (s := u.tick.tick) away _)).trans
          (Frame.setNode rfl)
      · show Function.update u.nodes sin (bump (u.nodes sin)) = _
        rw [grabbed.nodes]
        rfl
      · intro b _ other
        have away : b ≠ (s.nodes sin).din.indirect := fun same => present (same ▸ other same)
        exact Function.update_of_ne away _ u.dev.blocks
      · rw [bump_of_lt short]
        refine ⟨rfl, rfl, rfl, rfl, rfl, rfl, rfl, fun fits => ?_, fun _ => present, fun _ => rfl,
          Or.inr ⟨up, present, rfl, rfl⟩⟩
        exact ⟨fits.size, fits.type, fits.nlinks, short, fits.direct, fits.slots, fits.indirect⟩
      · refine written.fileOk okU rfl rfl (Nat.mod_eq_of_lt short) room present fun k behind within => ?_
        have := okU.spare k (Nat.le_of_lt behind) within fun _ => present
        rwa [Ownership.blockAt, if_neg (by omega)] at this
      · exact List.Perm.refl _
      · exact (written.blockAt rfl up).trans (if_pos rfl)
      · intro k before
        by_cases low : k < SFS_NDIRECT
        · exact blockAt_direct rfl low
        · refine (written.blockAt rfl (by omega)).trans ?_
          rw [if_neg (by omega), Ownership.blockAt, if_neg low]

theorem load_first {Q : Nat → SfsFs → Prop} (inv : Inv s others held) (member : sin ∈ s.inodeList)
    (up : SFS_NDIRECT ≤ (s.nodes sin).din.blocks) (absent : (s.nodes sin).din.indirect = 0)
    (failed : ∀ e t, Failed others held (loadOps (s.nodes sin).din) (needed (s.nodes sin).din) s t → E e t)
    (post : ∀ ino t, Loaded others held s sin t → Q ino t) :
    Spec allowed (sfsBmapLoadNolock sin (s.nodes sin).din.blocks) s Q E := by
  have ok := inv.file member
  have two : needed (s.nodes sin).din = 2 := by rw [needed, if_pos ⟨up, absent⟩]
  have first : (s.nodes sin).din.blocks = SFS_NDIRECT := by
    by_contra other
    exact ok.reach (by omega) absent
  have room : (s.nodes sin).din.blocks < SFS_NDIRECT + SFS_BLK_NENTRY := by
    rw [first]
    decide
  have below : (s.nodes sin).din.blocks - SFS_NDIRECT < SFS_BLK_NENTRY := by omega
  have short := short_of_room room
  have four : loadOps (s.nodes sin).din = 4 := by rw [loadOps, if_neg (by omega)]
  rw [two, four] at failed
  simp only [sfsBmapLoadNolock, spec_bind, spec_get, spec_ensure_of (Nat.le_refl _), sfsBmapGetNolock,
    if_neg (Nat.not_lt.mpr up), if_pos below, sfsBmapGetSubNolock, spec_ensure_of below, absent,
    if_neg (show ¬ 0 ≠ 0 by simp), decide_true, if_neg (show ¬ true = false by simp)]
  refine sfsBlockAlloc_grabs inv (fun e t fails => failed e t (fails.mono (by decide) (by decide)))
    fun ent u table => ?_
  obtain ⟨nonzero, inside, taken⟩ := table.inv.inuse_of_held (b := ent) List.mem_cons_self
  refine sfsBmapNewEntry_spec table.inv below nonzero inside taken (fun e t fails => ?_) fun ino t apart entered => ?_
  · obtain ⟨lost, lostInv, why⟩ := fails.inv
    have lostInv := inv_perm lostInv (List.perm_middle : (lost ++ ent :: held).Perm (ent :: (lost ++ held)))
    obtain ⟨-, inside', taken'⟩ := lostInv.inuse_of_held (b := ent) List.mem_cons_self
    rw [if_pos nonzero]
    refine sfsBlockFree_spec lostInv.mounted nonzero inside' taken' fun v flip => failed e v ?_
    refine ⟨flip.nodes.trans (fails.nodes.trans table.nodes),
      (table.frame.trans fails.frame).trans (Frame.flip flip), lost, inv_release lostInv flip, fun fine => ?_⟩
    obtain ⟨none, few⟩ := why ((fine_add (n := 3) table.paid).mp fine)
    have := table.count
    exact ⟨none, by omega⟩
  · obtain ⟨v, grabbed, writes, rfl⟩ := entered.grabbed
    obtain ⟨nonzero', inside', taken'⟩ := grabbed.inv.inuse_of_held (b := ino) List.mem_cons_self
    have empty : v.dev.blocks ent = zeros := (grabbed.disk ent (Ne.symm apart)).trans table.clear
    simp only [if_pos nonzero, spec_bind, spec_ensure_of absent, spec_pure, if_true, spec_modify]
    refine load_tail (mounted_setNode (mounted_setBlock grabbed.inv.tick.tick.mounted _ _) _) nonzero' inside' taken'
      (post ino _ ?_)
    have entryInv : Inv (v.tick.tick.setBlock ent (patch (v.dev.blocks ent)
        (4 * ((s.nodes sin).din.blocks - SFS_NDIRECT)) (toLe 4 ino))) others (ino :: [ent] ++ held) :=
      inv_write grabbed.inv.tick.tick (by simp) _
    have written : EntryWritten v.dev.blocks
        (Function.update v.dev.blocks ent (patch (v.dev.blocks ent)
          (4 * ((s.nodes sin).din.blocks - SFS_NDIRECT)) (toLe 4 ino)))
        (s.nodes sin).din ent ino :=
      ⟨up, Function.update_self _ _ v.dev.blocks, fits_number grabbed.inv inside'⟩
    have okV : FileOk v.dev.blocks (s.nodes sin).din := by
      have := grabbed.file (table.frame.inodeList ▸ member)
      rwa [table.nodes] at this
    have same : v.nodes = s.nodes := grabbed.nodes.trans table.nodes
    have tableHeld : ent ∉ reserved v others := held_not_reserved grabbed.inv (by simp)
    obtain ⟨node', named⟩ : ∃ node' : SfsInode, node' = { s.nodes sin with
        din := { (s.nodes sin).din with
          blocks := (s.nodes sin).din.blocks + 1
          indirect := ent }
        dirty := true } := ⟨_, rfl⟩
    have pointer : node'.din.indirect = ent := by rw [named]
    have direct : node'.din.direct = (s.nodes sin).din.direct := by rw [named]
    have counted : node'.din.blocks = (s.nodes sin).din.blocks + 1 := by rw [named]
    refine loaded_of_change [ent] node' member (u := v.tick.tick.setBlock ent (patch (v.dev.blocks ent)
        (4 * ((s.nodes sin).din.blocks - SFS_NDIRECT)) (toLe 4 ino))) same
      ((table.frame.trans grabbed.frame).trans
        (((Frame.tick v).trans (Frame.tick _)).trans (Frame.setBlock (s := v.tick.tick) tableHeld _))) entryInv
      ?_ ?_ ((Frame.setNode rfl).trans (Frame.setNode rfl)) ?_ rfl rfl (fun _ _ _ => rfl) ?_ ?_ ?_ ?_ ?_
    · have := table.count
      have := grabbed.count
      rw [two]
      show v.freemap.freeCount + 2 = s.freemap.freeCount
      omega
    · have paid := (table.paid.trans grabbed.paid).trans writes
      rw [four]
      exact ⟨paid.faults, paid.fine⟩
    · rw [setNode_setNode, SfsFs.setNode, Function.comp_apply, SfsFs.setBlock, SfsFs.tick, SfsFs.tick, same, named]
      exact congrArg (Function.update s.nodes sin) (bump_of_lt short)
    · subst named
      refine ⟨rfl, rfl, rfl, rfl, rfl, rfl, rfl, fun fits => ?_, fun _ => nonzero, fun low => absurd low (by omega),
        Or.inl rfl⟩
      exact ⟨fits.size, fits.type, fits.nlinks, short, fits.direct, fits.slots, fits_number table.inv inside⟩
    · refine written.fileOk okV pointer direct counted room nonzero fun k _ _ => ?_
      rw [empty, word_zeros]
    · rw [indexBlocks, pointer, if_neg nonzero, indexBlocks, if_pos absent]
      exact List.Perm.refl _
    · exact (written.blockAt pointer up).trans (if_pos rfl)
    · intro k before
      exact blockAt_direct direct (by omega)

/-- Loading the block behind the last one gives the file a new block. -/
theorem sfsBmapLoadNolock_grows {Q : Nat → SfsFs → Prop} (inv : Inv s others held) (member : sin ∈ s.inodeList)
    (room : (s.nodes sin).din.blocks < SFS_NDIRECT + SFS_BLK_NENTRY)
    (failed : ∀ e t, Failed others held (loadOps (s.nodes sin).din) (needed (s.nodes sin).din) s t → E e t)
    (post : ∀ ino t, Loaded others held s sin t → Q ino t) :
    Spec allowed (sfsBmapLoadNolock sin (s.nodes sin).din.blocks) s Q E := by
  by_cases direct : (s.nodes sin).din.blocks < SFS_NDIRECT
  · exact load_direct inv member direct failed post
  · by_cases absent : (s.nodes sin).din.indirect = 0
    · exact load_first inv member (by omega) absent failed post
    · exact load_indirect inv member (by omega) room absent failed post

/-- Loading a block of the file finds it, and changes nothing. -/
theorem sfsBmapLoadNolock_due {Q : Nat → SfsFs → Prop} {k : Nat} (inv : Inv s others held)
    (member : sin ∈ s.inodeList) (below : k < (s.nodes sin).din.blocks)
    (failed : s.faults.headD false = true → E .dev s.tick)
    (post : ∀ t, t = s ∨ t = s.tick → Q (blockAt s.dev.blocks (s.nodes sin).din k) t) :
    Spec allowed (sfsBmapLoadNolock sin k) s Q E := by
  have ok := inv.file member
  obtain ⟨nonzero, inside, taken⟩ := inv.file_blocks (fileOf_mem member) below
  simp only [fileOf] at nonzero inside taken
  have short := ok.short
  have other : ¬ k = (s.nodes sin).din.blocks := by omega
  have tail : ∀ t, t = s ∨ t = s.tick → Spec allowed (assertZeroOrInuse (blockAt s.dev.blocks (s.nodes sin).din k)) t
      (fun _ t => Spec allowed (assertInuse (blockAt s.dev.blocks (s.nodes sin).din k)) t
        (fun _ t => Q (blockAt s.dev.blocks (s.nodes sin).din k) t) E) E := by
    rintro t (rfl | rfl)
    · exact assertZeroOrInuse_spec inv.mounted (fun _ => ⟨inside, taken⟩)
        (assertInuse_spec inv.mounted nonzero inside taken (post _ (Or.inl rfl)))
    · exact assertZeroOrInuse_spec inv.tick.mounted (fun _ => ⟨inside, taken⟩)
        (assertInuse_spec inv.tick.mounted nonzero inside taken (post _ (Or.inr rfl)))
  simp only [sfsBmapLoadNolock, spec_bind, spec_get, spec_ensure_of (Nat.le_of_lt below), sfsBmapGetNolock,
    decide_eq_false other, Bool.false_eq_true, and_false, if_false]
  by_cases direct : k < SFS_NDIRECT
  · have here : blockAt s.dev.blocks (s.nodes sin).din k = (s.nodes sin).din.direct.getD k 0 := by
      rw [Ownership.blockAt, if_pos direct]
    simp only [if_pos direct, spec_bind, spec_pure, ← here]
    exact tail s (Or.inl rfl)
  · have present := ok.reach (by omega)
    have within : k - SFS_NDIRECT < SFS_BLK_NENTRY := by omega
    have bound : 4 * (k - SFS_NDIRECT) + 4 ≤ SFS_BLKSIZE := by
      simp only [SFS_BLK_NENTRY, SFS_BLKSIZE] at within ⊢
      omega
    have here : blockAt s.dev.blocks (s.nodes sin).din k =
        ofLe (slice (s.dev.blocks (s.nodes sin).din.indirect) (4 * (k - SFS_NDIRECT)) 4) := by
      rw [Ownership.blockAt, if_neg direct, word]
    have mine : (s.nodes sin).din.indirect ∈ ownedBy s.dev.blocks (fileOf (s.nodes sin)) :=
      List.mem_cons_of_mem _ (List.mem_append_left _ (mem_indexBlocks.mpr ⟨rfl, present⟩))
    have inside' := (inv.inuse_of_file (fileOf_mem member) mine).2.1
    simp only [if_neg direct, if_pos within, sfsBmapGetSubNolock, spec_bind, spec_ensure_of within, if_pos present]
    refine sfsRbuf_due ⟨by omega, bound⟩ present inside' inv.mounted.device failed ?_
    simp only [← here, or_true, if_true, spec_pure,
      if_neg (show ¬ (s.nodes sin).din.indirect ≠ (s.nodes sin).din.indirect by simp), spec_bind]
    exact tail s.tick (Or.inr rfl)

theorem sfsBmapLoadNolock_finds {Q : Nat → SfsFs → Prop} {k : Nat} (inv : Inv s others held)
    (member : sin ∈ s.inodeList) (below : k < (s.nodes sin).din.blocks)
    (failed : ∀ e t, t = s ∨ t = s.tick → s.Fails (s.nodes sin).din.indirect → E e t)
    (post : ∀ t, t = s ∨ t = s.tick → Q (blockAt s.dev.blocks (s.nodes sin).din k) t) :
    Spec allowed (sfsBmapLoadNolock sin k) s Q E :=
  sfsBmapLoadNolock_due inv member below (fun fault => failed _ _ (Or.inr rfl) (Or.inr fault)) post

/-! ## Shrinking -/

/-- What a file that has lost its last block has become in memory. -/
structure Shrunk (node node' : SfsInode) : Prop where
  ino : node'.ino = node.ino
  size : node'.din.size = node.din.size
  type : node'.din.type = node.din.type
  nlinks : node'.din.nlinks = node.din.nlinks
  blocks : node'.din.blocks + 1 = node.din.blocks
  indirect : node'.din.indirect = node.din.indirect
  refCount : node'.refCount = node.refCount
  reclaimCount : node'.reclaimCount = node.reclaimCount
  fits : node.din.Fits → node'.din.Fits
  dirty : node'.dirty = true

/-- How many operations of the device it takes to free the last block of a file. -/
def truncateOps (din : DiskInode) : Nat := if din.blocks - 1 < SFS_NDIRECT then 0 else 3

/-- The last block of the file has been freed. -/
structure Truncated (others : List (Nat × DiskInode)) (held : List Nat) (s : SfsFs) (sin : Nat) (t : SfsFs) :
    Prop where
  nodes : ∃ node', t.nodes = Function.update s.nodes sin node' ∧ Shrunk (s.nodes sin) node'
  frame : Frame others s t
  inv : Inv t others held
  paid : Paid (truncateOps (s.nodes sin).din) s t

/-- The last block of a file comes into hand, and goes back to the freemap. -/
theorem truncated_of_change {u : SfsFs} {node' : SfsInode} {ino : Nat} (inv : Inv s others held)
    (member : sin ∈ s.inodeList) (frame : Frame others s u) (nodes : u.nodes = Function.update s.nodes sin node')
    (freemap : u.freemap = s.freemap) (super : u.super = s.super)
    (disk : ∀ b, (b = (s.nodes sin).din.indirect → b = 0) → u.dev.blocks b = s.dev.blocks b)
    (shrunk : Shrunk (s.nodes sin) node') (ok : FileOk u.dev.blocks node'.din)
    (last : blockAt s.dev.blocks (s.nodes sin).din node'.din.blocks = ino)
    (below : ∀ k < node'.din.blocks,
      blockAt s.dev.blocks (s.nodes sin).din k = blockAt u.dev.blocks node'.din k)
    (paid : Paid (truncateOps (s.nodes sin).din) s u) (flip : Flipped u ino true t) :
    Truncated others held s sin t := by
  refine ⟨⟨node', by rw [flip.nodes, nodes], shrunk⟩, frame.trans (Frame.flip flip), inv_release ?_ flip,
    flip.faults.trans paid.faults, paid.fine⟩
  refine inv.change member frame.inodeList nodes freemap super frame.dBlocks (fun b _ => disk b) ok ?_
  have data := dataBlocks_grow shrunk.blocks.symm last below
  rw [ownedBy, ownedBy, fileOf, fileOf, data, shrunk.ino, indexBlocks, indexBlocks, shrunk.indirect]
  rw [List.perm_iff_count]
  intro b
  simp only [List.count_append, List.count_cons, List.count_nil]
  omega

theorem flipped_setNode {value : Bool} (flip : Flipped s ino value t) (f : SfsInode → SfsInode) :
    Flipped (s.setNode sin f) ino value (t.setNode sin f) where
  before := flip.before
  freemap := flip.freemap
  sized := flip.sized
  super := flip.super
  same := by
    rw [flip.same]
    rfl
  mounted := mounted_setNode flip.mounted f

/-- `din->blocks --` -/
def drop (node : SfsInode) : SfsInode :=
  { node with din := { node.din with blocks := node.din.blocks - 1 }, dirty := true }

theorem truncate_direct {Q : Unit → SfsFs → Prop} (inv : Inv s others held) (member : sin ∈ s.inodeList)
    (nonempty : (s.nodes sin).din.blocks ≠ 0) (direct : (s.nodes sin).din.blocks - 1 < SFS_NDIRECT)
    (post : ∀ t, Truncated others held s sin t → Q () t) : Spec allowed (sfsBmapTruncateNolock sin) s Q E := by
  have ok := inv.file member
  obtain ⟨nonzero, inside, taken⟩ := inv.file_blocks (fileOf_mem member)
    (show (s.nodes sin).din.blocks - 1 < (s.nodes sin).din.blocks by omega)
  have here : blockAt s.dev.blocks (s.nodes sin).din ((s.nodes sin).din.blocks - 1) =
      (s.nodes sin).din.direct.getD ((s.nodes sin).din.blocks - 1) 0 := by
    rw [Ownership.blockAt, if_pos direct]
  simp only [fileOf, here] at nonzero inside taken
  simp only [sfsBmapTruncateNolock, sfsBmapFreeNolock, spec_bind, spec_get, spec_ensure_of nonempty, if_pos direct,
    if_pos nonzero, spec_modify]
  refine sfsBlockFree_spec inv.mounted nonzero inside taken fun u flip => post _ ?_
  have slots : (s.nodes sin).din.blocks - 1 < (s.nodes sin).din.direct.length := by rw [ok.direct]; exact direct
  obtain ⟨node', named⟩ : ∃ node' : SfsInode, node' = { s.nodes sin with
      din := { (s.nodes sin).din with
        blocks := (s.nodes sin).din.blocks - 1
        direct := (s.nodes sin).din.direct.set ((s.nodes sin).din.blocks - 1) 0 }
      dirty := true } := ⟨_, rfl⟩
  have shrunk : Shrunk (s.nodes sin) node' := by
    subst named
    refine ⟨rfl, rfl, rfl, rfl, Nat.succ_pred_eq_of_ne_zero nonempty, rfl, rfl, rfl, fun fits => ?_, rfl⟩
    refine ⟨fits.size, fits.type, fits.nlinks, Nat.lt_of_le_of_lt (Nat.sub_le _ _) fits.blocks,
      by simpa using fits.direct, fun b inside => ?_, fits.indirect⟩
    rcases List.mem_or_eq_of_mem_set inside with old | rfl
    · exact fits.slots b old
    · exact Nat.two_pow_pos 32
  have counted := shrunk.blocks
  have slot : ∀ k, k < SFS_NDIRECT → blockAt s.dev.blocks node'.din k =
      if k = (s.nodes sin).din.blocks - 1 then 0 else (s.nodes sin).din.direct.getD k 0 := by
    intro k below
    rw [Ownership.blockAt, if_pos below, named]
    by_cases same : k = (s.nodes sin).din.blocks - 1
    · rw [if_pos same, same, List.getD_eq_getElem?_getD, List.getElem?_set_self slots, Option.getD_some]
    · rw [if_neg same, List.getD_eq_getElem?_getD, List.getElem?_set_ne (Ne.symm same),
        List.getD_eq_getElem?_getD]
  refine truncated_of_change inv member (u := (s.setNode sin fun node => { node with
      din := { node.din with direct := node.din.direct.set ((s.nodes sin).din.blocks - 1) 0 }
      dirty := true }).setNode sin drop) ((Frame.setNode rfl).trans (Frame.setNode rfl)) ?_ rfl rfl
    (fun _ _ => rfl) shrunk ?_ ?_ ?_ (by rw [truncateOps, if_pos direct]; exact ⟨rfl, by simp [Fine]⟩)
    (flipped_setNode (flipped_setNode flip _) _)
  · rw [setNode_setNode, SfsFs.setNode, named]
    rfl
  · refine ⟨by rw [named]; simpa using ok.direct, ?_, fun up => absurd direct (by omega),
      fun k behind within reach => ?_⟩
    · exact Nat.le_trans (by omega) ok.short
    · by_cases low : k < SFS_NDIRECT
      · refine (slot k low).trans ?_
        split
        · rfl
        · have := ok.spare k (by omega) within fun up => absurd low (by omega)
          rwa [Ownership.blockAt, if_pos low] at this
      · have := ok.spare k (by omega) within fun up => by rw [← shrunk.indirect]; exact reach up
        rw [Ownership.blockAt, if_neg low] at this ⊢
        rw [shrunk.indirect]
        exact this
  · rw [show node'.din.blocks = (s.nodes sin).din.blocks - 1 by omega, here]
  · intro k before
    refine Eq.trans ?_ (slot k (by omega)).symm
    rw [if_neg (by omega), Ownership.blockAt, if_pos (by omega)]

theorem truncate_indirect {Q : Unit → SfsFs → Prop} (inv : Inv s others held) (member : sin ∈ s.inodeList)
    (nonempty : (s.nodes sin).din.blocks ≠ 0) (up : SFS_NDIRECT ≤ (s.nodes sin).din.blocks - 1)
    (failed : ∀ e t, Failed others held (truncateOps (s.nodes sin).din) 0 s t → E e t)
    (post : ∀ t, Truncated others held s sin t → Q () t) : Spec allowed (sfsBmapTruncateNolock sin) s Q E := by
  have ok := inv.file member
  have present := ok.reach (by omega)
  have short := ok.short
  obtain ⟨nonzero, inside, taken⟩ := inv.file_blocks (fileOf_mem member)
    (show (s.nodes sin).din.blocks - 1 < (s.nodes sin).din.blocks by omega)
  have mine : (s.nodes sin).din.indirect ∈ ownedBy s.dev.blocks (fileOf (s.nodes sin)) :=
    List.mem_cons_of_mem _ (List.mem_append_left _ (mem_indexBlocks.mpr ⟨rfl, present⟩))
  obtain ⟨-, inside', taken'⟩ := inv.inuse_of_file (fileOf_mem member) mine
  have below : (s.nodes sin).din.blocks - 1 - SFS_NDIRECT < SFS_BLK_NENTRY := by omega
  have bound : 4 * ((s.nodes sin).din.blocks - 1 - SFS_NDIRECT) + 4 ≤ SFS_BLKSIZE := by
    simp only [SFS_BLK_NENTRY, SFS_BLKSIZE] at below ⊢
    omega
  have here : blockAt s.dev.blocks (s.nodes sin).din ((s.nodes sin).din.blocks - 1) =
      ofLe (slice (s.dev.blocks (s.nodes sin).din.indirect)
        (4 * ((s.nodes sin).din.blocks - 1 - SFS_NDIRECT)) 4) := by
    rw [Ownership.blockAt, if_neg (by omega), word]
  simp only [fileOf, here] at nonzero inside taken
  have frame : Frame others s s.tick := Frame.tick s
  have away := index_not_reserved inv member present
  have three : truncateOps (s.nodes sin).din = 3 := by rw [truncateOps, if_neg (Nat.not_lt.mpr up)]
  rw [three] at failed
  have fault : ∀ u, u.nodes = s.nodes → Frame others s u → Inv u others held → ¬ Fine 3 s →
      Failed others held 3 0 s u := fun u nodes frame inv faulty =>
    ⟨nodes, frame, [], inv, fun fine => absurd fine faulty⟩
  have sure : Fine 3 s → ¬ s.Fails (s.nodes sin).din.indirect := fails_of_fine inv.mounted inside'
  simp only [sfsBmapTruncateNolock, sfsBmapFreeNolock, spec_bind, spec_get, spec_ensure_of nonempty,
    if_neg (Nat.not_lt.mpr up), if_pos below, if_pos present, sfsBmapFreeSubNolock, spec_modify]
  refine assertInuse_spec inv.mounted present inside' taken' ?_
  simp only [spec_ensure_of below]
  refine sfsRbuf_spec ⟨by omega, bound⟩ present inside' (fun fails e => ?_) fun looks => ?_
  · exact ⟨failed e _ (fault s rfl (Frame.refl _ _) inv fun fine => sure fine fails),
      failed e _ (fault _ rfl frame inv.tick fun fine => sure fine fails)⟩
  simp only [if_pos nonzero, spec_bind]
  refine sfsWbuf_spec ⟨by omega, by simpa using bound⟩ present inside' (fun fails e => ?_) fun reads writes => ?_
  · have faulty : ¬ Fine 3 s := fun fine =>
      fails.elim (fails_of_fine inv.tick.mounted inside' fine.tick)
        (fails_of_fine inv.tick.tick.mounted inside' fine.tick.tick)
    exact ⟨failed e _ (fault _ rfl frame inv.tick faulty),
      failed e _ (fault _ rfl (frame.trans (Frame.tick _)) inv.tick.tick faulty),
      failed e _ (fault _ rfl ((frame.trans (Frame.tick _)).trans (Frame.tick _)) inv.tick.tick.tick faulty)⟩
  refine sfsBlockFree_spec (mounted_setBlock inv.tick.tick.tick.mounted _ _) nonzero inside taken
    fun u flip => post _ ?_
  have counted : (drop (s.nodes sin)).din.blocks + 1 = (s.nodes sin).din.blocks :=
    Nat.succ_pred_eq_of_ne_zero nonempty
  have written : EntryWritten s.dev.blocks
      (Function.update s.dev.blocks (s.nodes sin).din.indirect (patch (s.dev.blocks (s.nodes sin).din.indirect)
        (4 * ((s.nodes sin).din.blocks - 1 - SFS_NDIRECT)) (toLe 4 0)))
      (drop (s.nodes sin)).din (s.nodes sin).din.indirect 0 :=
    ⟨up, Function.update_self _ _ s.dev.blocks, Nat.two_pow_pos 32⟩
  refine truncated_of_change inv member (u := (s.tick.tick.tick.setBlock (s.nodes sin).din.indirect
      (patch (s.dev.blocks (s.nodes sin).din.indirect) (4 * ((s.nodes sin).din.blocks - 1 - SFS_NDIRECT))
        (toLe 4 0))).setNode sin drop)
    ((((frame.trans (Frame.tick _)).trans (Frame.tick _)).trans
      (Frame.setBlock (s := s.tick.tick.tick) away _)).trans (Frame.setNode rfl))
    rfl rfl rfl (fun b other => ?_) ?_ ?_ here ?_ ?_ (flipped_setNode flip drop)
  · have ne : b ≠ (s.nodes sin).din.indirect := fun same => present (same ▸ other same)
    exact Function.update_of_ne ne _ s.dev.blocks
  · refine ⟨rfl, rfl, rfl, rfl, counted, rfl, rfl, rfl, fun fits => ?_, rfl⟩
    exact ⟨fits.size, fits.type, fits.nlinks, Nat.lt_of_le_of_lt (Nat.sub_le _ _) fits.blocks, fits.direct,
      fits.slots, fits.indirect⟩
  · refine ⟨ok.direct, Nat.le_trans (Nat.sub_le _ _) ok.short, fun _ => present, fun k behind within reach => ?_⟩
    have behind : (drop (s.nodes sin)).din.blocks ≤ k := behind
    have upper : SFS_NDIRECT ≤ k := by omega
    refine (written.blockAt rfl upper).trans ?_
    split
    · rfl
    · rename_i other
      have := ok.spare k (by omega) within fun _ => present
      rwa [Ownership.blockAt, if_neg (by omega)] at this
  · intro k before
    have before : k < (drop (s.nodes sin)).din.blocks := before
    by_cases low : k < SFS_NDIRECT
    · exact (blockAt_direct (rfl : (drop (s.nodes sin)).din.direct = (s.nodes sin).din.direct) low).symm
    · refine Eq.trans ?_ (written.blockAt rfl (by omega)).symm
      rw [if_neg (by omega), Ownership.blockAt, if_neg low]
  · have paid := ((Paid.tick looks).trans (Paid.tick reads)).trans (Paid.tick writes)
    rw [three]
    exact ⟨paid.faults, paid.fine⟩

/-- Truncating a file frees its last block. -/
theorem sfsBmapTruncateNolock_spec {Q : Unit → SfsFs → Prop} (inv : Inv s others held) (member : sin ∈ s.inodeList)
    (nonzero : (s.nodes sin).din.blocks ≠ 0)
    (failed : ∀ e t, Failed others held (truncateOps (s.nodes sin).din) 0 s t → E e t)
    (post : ∀ t, Truncated others held s sin t → Q () t) : Spec allowed (sfsBmapTruncateNolock sin) s Q E := by
  by_cases direct : (s.nodes sin).din.blocks - 1 < SFS_NDIRECT
  · exact truncate_direct inv member nonzero direct post
  · exact truncate_indirect inv member nonzero (by omega) failed post

end Ucore.Fs.BmapSpecs
