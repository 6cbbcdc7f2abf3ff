import Ucore.Fs.InodeCalls
import Ucore.Fs.TruncRuns

/-! # How far a file can grow

A size is accepted up to `SFS_MAX_FILE_SIZE`, and the block map ends after the direct blocks
and those of one index block. A call for more grows the file up to there, one block at a time,
and then stops, unless it fails on the way.
-/

namespace Ucore.Fs.FileRange

open Lib.Bytes Lib.Program Lib.Program.Prog Error Bitmaps Sfs SfsIo SfsInode Ownership BlockSpecs BmapSpecs
open Truncfile TruncRuns InodeCalls
open OwnershipRuns (smallMap smallMap_free smallMap_full emptyInode emptyInode_ok smallDisk smallDisk_inv)

variable {s t : SfsFs} {others : List (Nat × DiskInode)} {sin : Nat} {held : List Nat} {allowed : Panic → Prop}

/-- The call returns, with a value or with an error. -/
def Returns (m : Op SfsFs Unit) (s : SfsFs) : Prop := ∃ result t, m s = .ok (result, t)

/-- What a call for a new size meets: a size as it is needs its blocks, and another one is within
    the block map or fails before the end of it. -/
def Fitting (s : SfsFs) (sin len : Nat) : Prop :=
  if (s.nodes sin).din.size = len then blocksOf len = (s.nodes sin).din.blocks
  else blocksOf len ≤ SFS_NDIRECT + SFS_BLK_NENTRY ∨ ¬Works s sin len

theorem returns_of_spec {m : Op SfsFs Unit} {Q : Unit → SfsFs → Prop} {E : Err → SfsFs → Prop}
    (spec : Spec (fun _ => False) m s Q E) : Returns m s := by
  unfold Spec at spec
  cases run : m s with
  | error p => simp only [run] at spec
  | ok outcome => exact ⟨outcome.1, outcome.2, run⟩

theorem not_returns_of_spec {m : Op SfsFs Unit} (spec : Spec allowed m s (fun _ _ => False) fun _ _ => False) :
    ¬Returns m s := by
  rintro ⟨result, t, run⟩
  cases result with
  | ok a => exact spec.value run
  | error e => exact spec.error run

/-- A loop that goes beyond the block map fails, or gets every block up to its end and stops there. -/
theorem growLoop_beyond (count : Nat) (inv : Inv s others held) (member : sin ∈ s.inodeList)
    (beyond : SFS_NDIRECT + SFS_BLK_NENTRY < (s.nodes sin).din.blocks + count)
    (panics : Fine (growOps (s.nodes sin).din (SFS_NDIRECT + SFS_BLK_NENTRY - (s.nodes sin).din.blocks)) s →
      neededFor (s.nodes sin).din (SFS_NDIRECT + SFS_BLK_NENTRY - (s.nodes sin).din.blocks) ≤ s.freemap.freeCount →
      allowed .range) :
    Spec allowed (growLoop sin count (s.nodes sin).din.blocks) s (fun _ _ => False) fun _ _ => True := by
  induction count generalizing s with
  | zero =>
      have short := (inv.file member).short
      omega
  | succ count ih =>
      have ok := inv.file member
      have short := ok.short
      simp only [growLoop, spec_bind]
      by_cases room : (s.nodes sin).din.blocks < SFS_NDIRECT + SFS_BLK_NENTRY
      · refine sfsBmapLoadNolock_grows inv member room (fun _ _ _ => trivial) fun ino u loaded => ?_
        obtain ⟨first, nodes, grown⟩ := loaded.nodes
        have here : u.nodes sin = first := by rw [nodes, Function.update_self]
        have next : (s.nodes sin).din.blocks + 1 = (u.nodes sin).din.blocks := by rw [here, grown.blocks]
        rw [next]
        refine ih loaded.inv (loaded.frame.inodeList ▸ member) (by omega) fun fine enough => ?_
        have low := grown.low
        have indirect := grown.indirect
        have counted := loaded.count
        refine panics ?_ ?_
        · have ops : growOps (s.nodes sin).din (SFS_NDIRECT + SFS_BLK_NENTRY - (s.nodes sin).din.blocks) =
              loadOps (s.nodes sin).din +
                growOps (u.nodes sin).din (SFS_NDIRECT + SFS_BLK_NENTRY - (u.nodes sin).din.blocks) := by
            rw [← next]
            simp only [loadOps, growOps]
            split <;> omega
          rw [ops]
          exact (fine_add loaded.paid).mpr fine
        · rw [here] at enough
          simp only [needed, neededFor, grown.blocks] at enough counted ⊢
          by_cases up : SFS_NDIRECT ≤ (s.nodes sin).din.blocks
          · have present := indirect up
            simp only [up, present, and_false, if_false, true_and] at enough counted
            split at counted <;> split <;> omega
          · rw [low (by omega)] at enough
            simp only [up, false_and, if_false] at counted
            split at enough <;> split <;> omega
      · have full : (s.nodes sin).din.blocks = SFS_NDIRECT + SFS_BLK_NENTRY := by omega
        refine load_out_of_range full (panics ?_ ?_)
        · rw [full, Nat.sub_self, growOps, full]
          simp [Fine, SFS_BLK_NENTRY]
        · have present := ok.reach (by rw [full]; decide)
          simp [neededFor, full, present]

/-- A call for a size beyond the block map does not get behind its loop. -/
theorem truncfile_beyond {len : Int} {E : Err → SfsFs → Prop} (inv : Inv s others held) (member : sin ∈ s.inodeList)
    (accepted : ¬(len < 0 ∨ SFS_MAX_FILE_SIZE < len)) (changed : (s.nodes sin).din.size ≠ len.toNat)
    (beyond : SFS_NDIRECT + SFS_BLK_NENTRY < blocksOf len.toNat)
    (loop : Spec allowed (growLoop sin (blocksOf len.toNat - (s.nodes sin).din.blocks) (s.nodes sin).din.blocks) s
      (fun _ _ => False) E) : Spec allowed (sfsTruncfile sin len) s (fun _ _ => False) E := by
  have short := (inv.file member).short
  simp only [sfsTruncfile, spec_ite, spec_throw, spec_bind, spec_get]
  refine ⟨fun refused => absurd refused accepted,
    fun _ => ⟨fun same => absurd same changed, fun _ => ⟨fun _ => ?_, ?_⟩⟩⟩
  · exact loop.mono (fun _ _ none => none.elim) fun _ _ failed => failed
  · intro low
    omega

/-- Where nothing fails up to the end of the block map, the loop stops there. -/
theorem growLoop_stops {len : Nat} (inv : Inv s others held) (member : sin ∈ s.inodeList)
    (beyond : SFS_NDIRECT + SFS_BLK_NENTRY < blocksOf len) (works : Works s sin len) :
    Spec (fun p => p = .range) (growLoop sin (blocksOf len - (s.nodes sin).din.blocks) (s.nodes sin).din.blocks) s
      (fun _ _ => False) fun _ _ => False := by
  have short := (inv.file member).short
  have reach : target len = SFS_NDIRECT + SFS_BLK_NENTRY := min_eq_right beyond.le
  have count : min (blocksOf len - (s.nodes sin).din.blocks) (SFS_NDIRECT + SFS_BLK_NENTRY - (s.nodes sin).din.blocks) =
      target len - (s.nodes sin).din.blocks := by omega
  refine growLoop_spec _ inv member (.inr rfl) (fun e t moved below more stopped => ?_) fun t more inv' => ?_
  · rw [count] at below stopped
    obtain ⟨fine, room⟩ := works.1 (by omega)
    obtain ⟨lost, -, why⟩ := stopped
    exact absurd (why fine).2 (Nat.not_lt.mpr room)
  · obtain ⟨node', nodes, -, blocks, -⟩ := more.nodes
    have short' := (inv'.file (more.frame.inodeList ▸ member)).short
    rw [nodes, Function.update_self] at short'
    omega

/-- When a call for an accepted size comes to an end. -/
theorem sfsTruncfile_returns {len : Int} (inv : Inv s others held) (member : sin ∈ s.inodeList)
    (accepted : 0 ≤ len ∧ len ≤ SFS_MAX_FILE_SIZE) : Returns (sfsTruncfile sin len) s ↔ Fitting s sin len.toNat := by
  have accepted : ¬(len < 0 ∨ SFS_MAX_FILE_SIZE < len) := by omega
  have short := (inv.file member).short
  unfold Fitting
  split
  · rename_i same
    have run : sfsTruncfile sin len s = ensure (blocksOf len.toNat = (s.nodes sin).din.blocks) .blocks s := by
      rw [sfsTruncfile, if_neg accepted]
      simp only [bind, Prog.get]
      rw [if_pos same]
    constructor
    · rintro ⟨result, t, ends⟩
      rw [run, ensure] at ends
      split at ends
      · assumption
      · cases ends
    · intro blocks
      refine ⟨.ok (), s, ?_⟩
      rw [run, ensure, if_pos blocks]
  · rename_i changed
    by_cases inside : blocksOf len.toNat ≤ SFS_NDIRECT + SFS_BLK_NENTRY
    · refine iff_of_true (returns_of_spec (Q := fun _ _ => True) (E := fun _ _ => True) ?_) (.inl inside)
      exact sfsTruncfile_spec inv member (.inl inside) (fun same => absurd same changed) trivial (fun _ => trivial)
        (fun _ _ _ => trivial) fun _ _ _ => trivial
    · have beyond := Nat.not_le.mp inside
      by_cases works : Works s sin len.toNat
      · have stops := truncfile_beyond inv member accepted changed beyond (growLoop_stops inv member beyond works)
        exact iff_of_false (not_returns_of_spec stops) fun either => either.elim inside fun fails => fails works
      · have reach : target len.toNat = SFS_NDIRECT + SFS_BLK_NENTRY := min_eq_right beyond.le
        have loop : Spec (fun _ => False) (growLoop sin (blocksOf len.toNat - (s.nodes sin).din.blocks)
            (s.nodes sin).din.blocks) s (fun _ _ => False) fun _ _ => True := by
          refine growLoop_beyond _ inv member (by omega) fun fine room => works ⟨fun _ => ?_, fun less => ?_⟩
          · rw [reach]
            exact ⟨fine, room⟩
          · omega
        exact iff_of_true (returns_of_spec (truncfile_beyond inv member accepted changed beyond loop)) (.inr works)

/-- Accepted sizes and positions, for every file of a consistent file system, whatever fails in the
    call. -/
theorem resizing_returns_iff (inv : Inv s others held) (member : sin ∈ s.inodeList) :
    (∀ len : Int, 0 ≤ len → len ≤ SFS_MAX_FILE_SIZE → (Returns (sfsTruncfile sin len) s ↔ Fitting s sin len.toNat)) ∧
    ∀ pos : Int, 0 ≤ pos → pos < SFS_MAX_FILE_SIZE → (Returns (sfsTryseek sin pos) s ↔
      pos ≤ (s.nodes sin).din.size ∨ Fitting s sin pos.toNat) := by
  refine ⟨fun len low high => sfsTruncfile_returns inv member ⟨low, high⟩, fun pos low high => ?_⟩
  have run : sfsTryseek sin pos s = if (s.nodes sin).din.size < pos then sfsTruncfile sin pos s
    else .ok (.ok (), s) := by
    rw [sfsTryseek, if_neg (by omega)]
    simp only [bind, Prog.get]
    split <;> rfl
  by_cases behind : (s.nodes sin).din.size < pos
  · rw [Returns, run, if_pos behind, ← Returns, sfsTruncfile_returns inv member ⟨low, high.le⟩]
    exact ⟨.inr, fun either => either.resolve_left (by omega)⟩
  · exact iff_of_true ⟨.ok (), s, by rw [run, if_neg behind]⟩ (.inl (by omega))

/-- The one block of the small disk is enough for any size up to `SFS_BLKSIZE`, and any other size
    fails for want of blocks. -/
theorem resizing_returns_iff_smallDisk : Returns (sfsTruncfile 0 4096) smallDisk ∧
    (Returns (sfsTruncfile 0 SFS_MAX_FILE_SIZE) smallDisk ↔ Fitting smallDisk 0 SFS_MAX_FILE_SIZE) := by
  obtain ⟨resize, -⟩ := resizing_returns_iff smallDisk_inv (show 0 ∈ smallDisk.inodeList by decide)
  refine ⟨(resize 4096 (by decide) (by decide)).mpr ?_, resize SFS_MAX_FILE_SIZE (by decide) (by decide)⟩
  exact .inl (by decide)

/-! ## A file at the end of the block map -/

/-- The entries of an index block that count up. -/
def countUp (first : Nat) : Block := fun offset => (toLe 4 (first + offset / 4)).getD (offset % 4) 0

theorem word_countUp {first k : Nat} (small : first + k < 2 ^ 32) : word (countUp first) k = first + k := by
  have entry : slice (countUp first) (4 * k) 4 = toLe 4 (first + k) := by
    refine List.ext_getElem (by simp) fun i left right => ?_
    rw [length_slice] at left
    have index : (4 * k + 1 * i) / 4 = k := by omega
    have rest : (4 * k + 1 * i) % 4 = i := by omega
    simp only [slice, List.getElem_map, List.getElem_range', countUp, index, rest, List.getD_eq_getElem _ _ right]
  rw [word, entry, ofLe_toLe (by simpa using small)]

/-- As many blocks as there can be, with the index block behind them. -/
def fullInode : DiskInode := ⟨1036 * SFS_BLKSIZE, SFS_TYPE_FILE, 1, 1036, List.range' 4 12, 1040⟩

/-- No block is free. -/
def fullDisk : SfsFs where
  super := ⟨SFS_MAGIC, 1041, 0, List.replicate 32 0⟩
  dev := ⟨1041, fun b => if b = 1040 then countUp 16 else zeros, by decide⟩
  freemap := smallMap 1023 0
  superDirty := false
  inodeList := [0, 1]
  nodes sin := if sin = 0 then ⟨fullInode, 3, false, 1, 1⟩ else ⟨emptyInode SFS_TYPE_DIR, SFS_BLKN_ROOT, false, 1, 1⟩
  nextNode := 2
  faults := []

theorem fullInode_block {k : Nat} (inside : k < 1036) : blockAt fullDisk.dev.blocks fullInode k = k + 4 := by
  unfold blockAt
  split
  · rename_i low
    have slots : k < fullInode.direct.length := low
    rw [List.getD_eq_getElem _ _ slots]
    simp only [fullInode, List.getElem_range']
    omega
  · rename_i high
    rw [show fullDisk.dev.blocks fullInode.indirect = countUp 16 from rfl, word_countUp]
    · simp only [SFS_NDIRECT] at *
      omega
    · omega

theorem fullDisk_owned : owned fullDisk [] = [0, 2] ++ ([3, 1040] ++ (List.range 1036).map (· + 4) ++ [1]) := by
  have data : dataBlocks fullDisk.dev.blocks fullInode = (List.range 1036).map (· + 4) :=
    List.map_congr_left fun k inside => fullInode_block (List.mem_range.mp inside)
  have layout : layout fullDisk.super = [0, 2] := by decide
  rw [owned, layout]
  refine congrArg ([0, 2] ++ ·) ?_
  change (3 :: ([1040] ++ dataBlocks fullDisk.dev.blocks fullInode)) ++ [1] = _
  rw [data]
  rfl

theorem fullDisk_inv : Inv fullDisk [] [] where
  mounted :=
    { full := smallMap_full 1023 0
      sized := by decide
      bounds := fun i free => by
        have absent : (smallMap 1023 0).free i = true := free
        simp [smallMap_free] at absent
      device := by decide
      unused := (freeCount_zero fun i => by simp [fullDisk, smallMap_free]).symm }
  nodes := by decide
  files := by
    intro file inside
    have : file = (3, fullInode) ∨ file = (1, emptyInode SFS_TYPE_DIR) := by
      simpa [files, fullDisk, fileOf, SFS_BLKN_ROOT] using inside
    rcases this with rfl | rfl
    · refine ⟨rfl, by decide, fun _ => by decide, fun k behind within _ => ?_⟩
      have behind : SFS_NDIRECT + SFS_BLK_NENTRY ≤ k := behind
      omega
    · exact emptyInode_ok _ _
  range b member := by
    rw [List.nil_append, fullDisk_owned] at member
    simp only [List.mem_append, List.mem_map, List.mem_range, List.mem_cons, List.not_mem_nil, or_false] at member
    change b < 1041
    omega
  inuse b inside := by
    have bound : b < 1041 := inside
    have used : fullDisk.freemap.free b = false := by simp [fullDisk, smallMap_free]
    refine iff_of_true used ?_
    rw [List.nil_append, fullDisk_owned]
    simp only [List.mem_append, List.mem_map, List.mem_range, List.mem_cons, List.not_mem_nil, or_false]
    by_cases data : 4 ≤ b ∧ b < 1040
    · exact .inr (.inl (.inr ⟨b - 4, by omega, by omega⟩))
    · omega
  nodup := by
    rw [List.nil_append, fullDisk_owned]
    have data : ((List.range 1036).map (· + 4)).Nodup := List.nodup_range.map (add_left_injective 4)
    simp [List.nodup_append, data]
  stored := by simp

/-- A byte more than the block map has room for. -/
theorem fullDisk_stops : Inv fullDisk [] [] ∧ SizeAgrees fullDisk 0 ∧
    sfsTryseek 0 (1036 * SFS_BLKSIZE + 1) fullDisk = .error .range ∧
    sfsTruncfile 0 (1036 * SFS_BLKSIZE + 1) fullDisk = .error .range := by
  have seek : (sfsTryseek 0 (1036 * SFS_BLKSIZE + 1) fullDisk).map Prod.fst = .error .range := by
    decide +kernel
  have resize : (sfsTruncfile 0 (1036 * SFS_BLKSIZE + 1) fullDisk).map Prod.fst = .error .range := by
    decide +kernel
  refine ⟨fullDisk_inv, show _ = _ by decide, ?_, ?_⟩
  · cases run : sfsTryseek 0 (1036 * SFS_BLKSIZE + 1) fullDisk with
    | error p =>
        rw [run] at seek
        exact congrArg _ (Except.error.inj seek)
    | ok outcome => simp [run, Except.map] at seek
  · cases run : sfsTruncfile 0 (1036 * SFS_BLKSIZE + 1) fullDisk with
    | error p =>
        rw [run] at resize
        exact congrArg _ (Except.error.inj resize)
    | ok outcome => simp [run, Except.map] at resize

end Ucore.Fs.FileRange
