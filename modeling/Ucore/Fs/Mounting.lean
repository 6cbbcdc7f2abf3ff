import Ucore.Fs.SfsMount
import Ucore.Fs.Ownership

/-! # What can be mounted

Every device, with nothing failing: which of them are mounted, and what the file system in
memory is then; which of them are turned down, and which stop the kernel.
-/

namespace Ucore.Fs.Mounting

open Lib.Bytes Lib.Program Lib.Program.Prog Error Bitmaps Sfs SfsIo SfsInode InodeCalls SfsMount Ownership

/-- The superblock on a device. -/
def superOf (dev : Device) : Super := Super.ofBytes (slice (dev.blocks SFS_BLKN_SUPER) 0 Super.size)

/-- The word of the freemap on the disk that has the bit of a block. -/
def diskWord (blocks : Nat → Block) (i : Nat) : BitVec 32 :=
  BitVec.ofNat 32 (word (blocks (SFS_BLKN_FREEMAP + i / SFS_BLKBITS)) (i % SFS_BLKBITS / WORD_BITS))

def diskFree (blocks : Nat → Block) (i : Nat) : Bool := (diskWord blocks i).getLsbD (i % WORD_BITS)

/-- How many bits of the freemap on the disk are set. -/
def diskCount (dev : Device) : Nat := Nat.count (fun i => diskFree dev.blocks i = true) (freemapBits (superOf dev))

/-- The superblock is one, for a file system no larger than the device. -/
structure Known (dev : Device) : Prop where
  present : 0 < dev.dBlocks
  magic : (superOf dev).magic = SFS_MAGIC
  blocks : (superOf dev).blocks ≤ dev.dBlocks

/-- The freemap is on the device. -/
def Mapped (dev : Device) : Prop := SFS_BLKN_FREEMAP + freemapBlocks (superOf dev) ≤ dev.dBlocks

/-- The file system as it is after mounting. -/
structure Fresh (dev : Device) (s : SfsFs) : Prop where
  super : s.super = endInfo (superOf dev)
  device : s.dev = dev
  nbits : s.freemap.nbits = freemapBits (superOf dev)
  full : s.freemap.Full
  free : ∀ i < freemapBits (superOf dev), s.freemap.free i = diskFree dev.blocks i
  superDirty : s.superDirty = false
  inodeList : s.inodeList = []
  nodes : s.nodes = (newFs dev []).nodes
  nextNode : s.nextNode = 0
  faults : s.faults = []

variable {allowed : Panic → Prop} {s : SfsFs} {E : Err → SfsFs → Prop} {blkno : Nat} {dev : Device}

theorem tick_quiet (works : s.faults = []) : s.tick = s := by
  rw [SfsFs.tick, works, List.tail_nil, ← works]

theorem attempt_quiet {e : Err} {Q : Unit → SfsFs → Prop} (works : s.faults = []) (post : Q () s) :
    Spec allowed (attempt e) s Q E := by
  refine attempt_due (fun fault => ?_) (by rw [tick_quiet works]; exact post)
  rw [works] at fault
  cases fault

theorem sfsInitRead_quiet {Q : Block → SfsFs → Prop} (works : s.faults = [])
    (outside : s.dev.dBlocks < blkno + 1 → E .inval s)
    (post : blkno < s.dev.dBlocks → Q (s.dev.blocks blkno) s) : Spec allowed (sfsInitRead blkno) s Q E := by
  simp only [sfsInitRead, dopIo, spec_bind, spec_get, spec_ite, spec_throw, spec_pure]
  exact ⟨outside, fun inside => attempt_quiet works (post (by omega))⟩

/-! ## Reading the freemap -/

/-- The words of the first blocks of the freemap. -/
def mapWords (blocks : Nat → Block) (count : Nat) : List (BitVec 32) :=
  (List.range count).flatMap fun j => blockWords (blocks (SFS_BLKN_FREEMAP + j))

theorem length_blockWords (b : Block) : (blockWords b).length = SFS_BLK_NENTRY := by simp [blockWords]

theorem mapWords_succ (blocks : Nat → Block) (count : Nat) :
    mapWords blocks (count + 1) = mapWords blocks count ++ blockWords (blocks (SFS_BLKN_FREEMAP + count)) := by
  rw [mapWords, List.range_succ, List.flatMap_append, List.flatMap_singleton, mapWords]

theorem length_mapWords (blocks : Nat → Block) (count : Nat) :
    (mapWords blocks count).length = SFS_BLK_NENTRY * count := by
  induction count with
  | zero => rfl
  | succ count ih => rw [mapWords_succ, List.length_append, ih, length_blockWords, Nat.mul_succ]

theorem mapWords_get {blocks : Nat → Block} {count i : Nat} (inside : i < SFS_BLK_NENTRY * count) :
    (mapWords blocks count).getD i 0 =
      BitVec.ofNat 32 (word (blocks (SFS_BLKN_FREEMAP + i / SFS_BLK_NENTRY)) (i % SFS_BLK_NENTRY)) := by
  induction count with
  | zero => omega
  | succ count ih =>
      rw [mapWords_succ]
      by_cases before : i < SFS_BLK_NENTRY * count
      · rw [List.getD_append _ _ _ _ (by rw [length_mapWords]; exact before)]
        exact ih before
      · have entries : SFS_BLK_NENTRY = 1024 := rfl
        have high : i / SFS_BLK_NENTRY = count := by rw [entries] at inside before ⊢; omega
        have low : i - SFS_BLK_NENTRY * count = i % SFS_BLK_NENTRY := by rw [entries] at inside before high ⊢; omega
        have below : i % SFS_BLK_NENTRY < SFS_BLK_NENTRY := Nat.mod_lt _ (by decide)
        rw [List.getD_append_right _ _ _ _ (by rw [length_mapWords]; omega), length_mapWords, low, high, blockWords,
          List.getD_eq_getElem?_getD, List.getElem?_map, List.getElem?_range below]
        rfl

/-- The file system with this freemap. -/
def withMap (s : SfsFs) (map : List (BitVec 32)) : SfsFs := { s with freemap := { s.freemap with map := map } }

theorem fillWords_mapWords (blocks : Nat → Block) (j nbits : Nat) (rest : List (BitVec 32)) :
    fillWords ⟨nbits, mapWords blocks j ++ rest⟩ j (blocks (SFS_BLKN_FREEMAP + j)) =
      ⟨nbits, mapWords blocks (j + 1) ++ rest.drop SFS_BLK_NENTRY⟩ := by
  have length := length_mapWords blocks j
  rw [fillWords, List.take_left' length, mapWords_succ, Nat.mul_succ, List.drop_append, length,
    List.drop_eq_nil_of_le (by rw [length]; omega), List.nil_append, Nat.add_sub_cancel_left]

theorem readFreemap_spec {Q : Unit → SfsFs → Prop} {count j : Nat} (rest : List (BitVec 32)) (works : s.faults = [])
    (map : s.freemap.map = mapWords s.dev.blocks j ++ rest) (length : rest.length = SFS_BLK_NENTRY * count)
    (outside : ∀ t, s.dev.dBlocks < SFS_BLKN_FREEMAP + (j + count) → E .inval t)
    (post : (0 < count → SFS_BLKN_FREEMAP + (j + count) ≤ s.dev.dBlocks) →
      Q () (withMap s (mapWords s.dev.blocks (j + count)))) :
    Spec allowed (readFreemap count j) s Q E := by
  induction count generalizing j rest s with
  | zero =>
      rw [readFreemap, spec_pure]
      have absent : rest = [] := List.length_eq_zero_iff.mp length
      rw [absent, List.append_nil] at map
      have same : withMap s (mapWords s.dev.blocks (j + 0)) = s := by rw [withMap, Nat.add_zero, ← map]
      rw [← same]
      exact post fun positive => absurd positive (Nat.lt_irrefl _)
  | succ count ih =>
      rw [readFreemap, spec_bind]
      refine sfsInitRead_quiet works (fun beyond => outside _ (by omega)) fun inside => ?_
      rw [spec_bind, spec_modify]
      have filled := fillWords_mapWords s.dev.blocks j s.freemap.nbits rest
      rw [← map] at filled
      refine ih (rest.drop SFS_BLK_NENTRY) works (congrArg Bitmap.map filled) ?_ ?_ ?_
      · rw [List.length_drop, length, Nat.mul_succ, Nat.add_sub_cancel]
      · exact fun t beyond => outside t (by simp only at beyond; omega)
      · intro fits
        rw [show j + 1 + count = j + (count + 1) by omega] at fits ⊢
        refine post fun _ => ?_
        by_cases more : 0 < count
        · exact fits more
        · omega

theorem countUnused_spec {Q : Nat → SfsFs → Prop} {count i : Nat} (inside : i + count ≤ s.freemap.nbits)
    (post : Q (Nat.count (fun k => s.freemap.free k = true) (i + count)) s) :
    Spec allowed (countUnused count i (Nat.count (fun k => s.freemap.free k = true) i)) s Q E := by
  induction count generalizing i with
  | zero =>
      rw [countUnused, spec_pure]
      exact post
  | succ count ih =>
      rw [countUnused, spec_bind, onFreemap, spec_focus]
      refine bitmapTest_spec (by omega) ?_
      have next : (if s.freemap.free i = true then Nat.count (fun k => s.freemap.free k = true) i + 1
          else Nat.count (fun k => s.freemap.free k = true) i) =
            Nat.count (fun k => s.freemap.free k = true) (i + 1) := by
        rw [Nat.count_succ]
        split <;> rfl
      rw [next]
      refine ih (by omega) ?_
      rw [show i + 1 + count = i + (count + 1) by omega]
      exact post

theorem kmalloc_quiet {size : Nat} {Q : Nat → SfsFs → Prop} (works : s.faults = []) (post : Q 0 s) :
    Spec allowed (kmalloc size) s Q E := by
  rw [kmalloc, spec_bind]
  exact attempt_quiet works (spec_pure.mpr post)

/-- A bitmap of whole words is all ones. -/
theorem bitmapCreate_spec {Q : Nat × Nat × Bitmap → SfsFs → Prop} {count : Nat} (works : s.faults = [])
    (small : count ≤ 2 ^ 20) (zero : count = 0 → allowed .bitmap)
    (post : 0 < count →
      Q (0, 0, ⟨count * SFS_BLKBITS, List.replicate (SFS_BLK_NENTRY * count) (BitVec.allOnes 32)⟩) s) :
    Spec allowed (bitmapCreate kmalloc (fun _ => pure ()) (count * SFS_BLKBITS)) s Q E := by
  have bits : SFS_BLKBITS = 32768 := rfl
  have words : WORD_BITS = 32 := rfl
  have entries : SFS_BLK_NENTRY = 1024 := rfl
  rw [bitmapCreate, spec_bind, spec_ensure]
  refine ⟨fun some => ?_, fun empty => zero ?_⟩
  · rw [spec_bind]
    refine kmalloc_quiet works ?_
    have whole : Bitmaps.words (count * SFS_BLKBITS) = SFS_BLK_NENTRY * count := by
      rw [Bitmaps.words, bits, words, entries]
      omega
    rw [spec_bind, spec_onError]
    refine kmalloc_quiet works ?_
    have fill : count * SFS_BLKBITS = SFS_BLK_NENTRY * count * WORD_BITS := by
      rw [bits, words, entries]
      omega
    simp only [whole]
    rw [if_pos fill, spec_pure]
    exact post (Nat.pos_of_ne_zero fun zero => some.1 (by rw [zero, Nat.zero_mul]))
  · rw [bits, words] at empty
    omega

/-! ## Mounting -/

/-- The ways a mount may end on a device that does not fail. -/
theorem sfsDoMount_spec (dev : Device) :
    Spec (fun p => Known dev ∧ (p = .bitmap ∧ (superOf dev).blocks = 0 ∨
        p = .assertion ∧ (superOf dev).blocks ≠ 0 ∧ Mapped dev ∧ diskCount dev ≠ (superOf dev).unusedBlocks))
      sfsDoMount (newFs dev [])
      (fun _ s => Known dev ∧ (superOf dev).blocks ≠ 0 ∧ Mapped dev ∧ diskCount dev = (superOf dev).unusedBlocks ∧
        Fresh dev s)
      fun e _ => e = .inval ∧ (Known dev → (superOf dev).blocks ≠ 0 ∧ ¬ Mapped dev) := by
  have works : (newFs dev []).faults = [] := rfl
  rw [sfsDoMount, spec_bind]
  refine attempt_quiet works ?_
  rw [spec_bind]
  refine attempt_quiet works ?_
  rw [spec_bind]
  refine sfsInitRead_quiet works (fun outside => ⟨rfl, fun known => ?_⟩) fun inside => ?_
  · exact absurd outside (Nat.not_lt.mpr known.present)
  rw [spec_bind, spec_get]
  change Spec _ (if (superOf dev).magic ≠ SFS_MAGIC then _ else _) _ _ _
  rw [spec_ite]
  refine ⟨fun wrong => ⟨rfl, fun known => absurd known.magic wrong⟩, fun magic => ?_⟩
  rw [spec_ite]
  refine ⟨fun beyond => ⟨rfl, fun known => absurd known.blocks (Nat.not_le.mpr beyond)⟩, fun fits => ?_⟩
  have known : Known dev := ⟨inside, Classical.not_not.mp magic, Nat.not_lt.mp fits⟩
  have small := known.blocks.trans dev.small
  have bits : SFS_BLKBITS = 32768 := rfl
  have count : freemapBits (superOf dev) = freemapBlocks (superOf dev) * SFS_BLKBITS := rfl
  have positive : 0 < freemapBlocks (superOf dev) ↔ (superOf dev).blocks ≠ 0 := by
    rw [freemapBlocks, bits]
    omega
  rw [spec_bind, spec_modify, spec_bind]
  refine attempt_quiet works ?_
  rw [spec_bind]
  change Spec _ (bitmapCreate kmalloc (fun _ => pure ()) (freemapBlocks (superOf dev) * SFS_BLKBITS)) _ _ _
  refine bitmapCreate_spec works (by rw [freemapBlocks, bits]; omega) (fun zero => ⟨known, .inl ⟨rfl, ?_⟩⟩)
    fun some => ?_
  · by_contra nonzero
    exact absurd zero (Nat.ne_of_gt (positive.mpr nonzero))
  have nonzero := positive.mp some
  rw [spec_bind, spec_modify, spec_bind, sfsInitFreemap, spec_bind, spec_get, spec_bind]
  rw [spec_ensure_of (by
    change 4 * (List.replicate (SFS_BLK_NENTRY * freemapBlocks (superOf dev)) _).length =
      freemapBlocks (superOf dev) * SFS_BLKSIZE
    have entries : SFS_BLK_NENTRY = 1024 := rfl
    have size : SFS_BLKSIZE = 4096 := rfl
    rw [List.length_replicate, entries, size]
    omega)]
  refine readFreemap_spec (List.replicate (SFS_BLK_NENTRY * freemapBlocks (superOf dev)) (BitVec.allOnes 32)) works rfl
    (List.length_replicate ..) (fun t beyond => ⟨rfl, fun _ => ⟨nonzero, ?_⟩⟩) fun inside => ?_
  · rw [Nat.zero_add] at beyond
    exact Nat.not_le.mpr beyond
  have mapped : Mapped dev := by
    have := inside some
    rwa [Nat.zero_add] at this
  rw [Nat.zero_add]
  set t := withMap { newFs dev [] with
    super := endInfo (superOf dev)
    freemap := ⟨freemapBlocks (superOf dev) * SFS_BLKBITS,
      List.replicate (SFS_BLK_NENTRY * freemapBlocks (superOf dev)) (BitVec.allOnes 32)⟩ }
    (mapWords dev.blocks (freemapBlocks (superOf dev))) with state
  change Spec _ (countUnused (freemapBits (superOf dev)) 0 0 >>= _) t _ _
  have free : ∀ i < freemapBits (superOf dev), t.freemap.free i = diskFree dev.blocks i := by
    intro i below
    have entries : SFS_BLK_NENTRY = 1024 := rfl
    have words : WORD_BITS = 32 := rfl
    have index : i / WORD_BITS < SFS_BLK_NENTRY * freemapBlocks (superOf dev) := by
      rw [count, bits] at below
      rw [entries, words]
      omega
    have high : i / WORD_BITS / SFS_BLK_NENTRY = i / SFS_BLKBITS := by
      rw [Nat.div_div_eq_div_mul]
      rfl
    have low : i / WORD_BITS % SFS_BLK_NENTRY = i % SFS_BLKBITS / WORD_BITS := by
      rw [words, entries, bits]
      omega
    change ((mapWords dev.blocks _).getD (i / WORD_BITS) 0).getLsbD (i % WORD_BITS) = _
    rw [mapWords_get index, high, low]
    rfl
  have counted : Nat.count (fun k => t.freemap.free k = true) (freemapBits (superOf dev)) = diskCount dev := by
    rw [diskCount, Nat.count_eq_card_filter_range, Nat.count_eq_card_filter_range]
    refine congrArg Finset.card (Finset.filter_congr fun i inside => ?_)
    rw [free i (Finset.mem_range.mp inside)]
  rw [spec_bind]
  refine countUnused_spec (i := 0) (Nat.le_of_eq (Nat.zero_add _)) ?_
  rw [Nat.zero_add, counted, spec_bind, spec_ensure]
  refine ⟨fun same => ?_, fun other => ⟨known, .inr ⟨rfl, nonzero, mapped, other⟩⟩⟩
  rw [spec_modify]
  refine ⟨known, nonzero, mapped, same, ?_⟩
  exact
    { super := rfl
      device := rfl
      nbits := rfl
      full := by
        change freemapBlocks (superOf dev) * SFS_BLKBITS = (mapWords _ _).length * WORD_BITS
        have entries : SFS_BLK_NENTRY = 1024 := rfl
        have words : WORD_BITS = 32 := rfl
        rw [length_mapWords, entries, words, bits]
        omega
      free := free
      superDirty := rfl
      inodeList := rfl
      nodes := rfl
      nextNode := rfl
      faults := rfl }

theorem mount_fresh (known : Known dev) (nonzero : (superOf dev).blocks ≠ 0) (mapped : Mapped dev)
    (count : diskCount dev = (superOf dev).unusedBlocks) : ∃ s, mount dev [] = .ok (.ok (), s) ∧ Fresh dev s := by
  have spec := sfsDoMount_spec dev
  cases run : mount dev [] with
  | error p =>
      rcases (spec.stopped run).2 with ⟨-, zero⟩ | ⟨-, -, -, other⟩
      · exact absurd zero nonzero
      · exact absurd count other
  | ok outcome =>
      obtain ⟨result, s⟩ := outcome
      cases result with
      | error e => exact absurd mapped ((spec.error run).2 known).2
      | ok value => exact ⟨s, rfl, (spec.value run).2.2.2.2⟩

end Ucore.Fs.Mounting
