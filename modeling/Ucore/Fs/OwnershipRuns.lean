import Ucore.Lib.Run
import Ucore.Fs.Truncfile

/-! # Runs of block operations

Files are resized, and blocks added to them and taken off, in any order and on a device
that works. Every block keeps exactly one owner.
-/

namespace Ucore.Fs.OwnershipRuns

open Lib.Bytes Lib.Run Lib.Program Lib.Program.Prog Error Bitmaps Sfs SfsIo SfsInode Ownership BlockSpecs
open BmapSpecs Truncfile

inductive Call where
  | truncfile (sin : Nat) (len : Int)
  | bmapLoad (sin index : Nat)
  | bmapTruncate (sin : Nat)
  deriving DecidableEq, Repr

def exec : Call → Op SfsFs Unit
  | .truncfile sin len => sfsTruncfile sin len
  | .bmapLoad sin index => do
      let _ ← sfsBmapLoadNolock sin index
  | .bmapTruncate sin => sfsBmapTruncateNolock sin

/-- The inode is in memory, and the call stays within the direct and the indirect blocks. -/
def Legal (s : SfsFs) : Call → Prop
  | .truncfile sin len => sin ∈ s.inodeList ∧ blocksOf len.toNat ≤ SFS_NDIRECT + SFS_BLK_NENTRY
  | .bmapLoad sin index => sin ∈ s.inodeList ∧ index ≤ (s.nodes sin).din.blocks ∧
      index < SFS_NDIRECT + SFS_BLK_NENTRY
  | .bmapTruncate sin => sin ∈ s.inodeList ∧ (s.nodes sin).din.blocks ≠ 0

instance (s : SfsFs) (c : Call) : Decidable (Legal s c) :=
  match c with
  | .truncfile _ _ => instDecidableAnd
  | .bmapLoad _ _ => instDecidableAnd
  | .bmapTruncate _ => instDecidableAnd

/-- A call may succeed or fail, but it has come to an end. -/
def Step (s t : SfsFs) : Prop := ∃ c, Legal s c ∧ ∃ result, exec c s = .ok (result, t)

/-- A consistent file system on a device that works. -/
structure Initial (others : List (Nat × DiskInode)) (s : SfsFs) : Prop where
  consistent : Inv s others []
  works : s.faults = []

structure Owned (s : SfsFs) (others : List (Nat × DiskInode)) : Prop where
  mapped : ∀ file ∈ files s others, ∀ k < file.2.blocks, blockAt s.dev.blocks file.2 k ≠ 0 ∧
    blockAt s.dev.blocks file.2 k < s.super.blocks ∧ s.freemap.free (blockAt s.dev.blocks file.2 k) = false
  unique : (owned s others).Nodup
  accounted : ∀ b < s.super.blocks, s.freemap.free b = false ↔ b ∈ owned s others
  counted : s.super.unusedBlocks = s.freemap.freeCount

variable {s t : SfsFs} {others : List (Nat × DiskInode)}

theorem owned_of_inv (inv : Inv s others []) : Owned s others :=
  ⟨fun _ inside _ below => inv.file_blocks inside below, inv.nodup, inv.inuse, inv.mounted.unused⟩

/-- What every call keeps; it can only stop where it finds a size without its blocks. -/
theorem exec_spec {c : Call} (inv : Inv s others []) (works : s.faults = []) (legal : Legal s c) :
    Spec (fun p => p = .blocks) (exec c) s (fun _ t => Inv t others [] ∧ t.faults = [])
      fun _ t => Inv t others [] ∧ t.faults = [] := by
  have fine : NoFaults s := by simp [NoFaults, works]
  have still : ∀ {t}, Frame others s t → t.faults = [] := fun frame =>
    List.suffix_nil.mp (works ▸ frame.faults)
  have whole : ∀ {t ops why}, Stopped others [] s t ops why → Inv t others [] := by
    rintro t ops why ⟨lost, lostInv, because⟩
    rw [(because (Fine.of_noFaults fine)).1] at lostInv
    exact lostInv
  have ended : ∀ {ops need t}, Failed others [] ops need s t → Inv t others [] := by
    rintro ops need t fails
    obtain ⟨lost, lostInv, because⟩ := fails.inv
    rw [(because (Fine.of_noFaults fine)).1] at lostInv
    exact lostInv
  cases c with
  | truncfile sin len =>
      refine sfsTruncfile_spec inv legal.1 (Or.inl legal.2) (fun _ => Or.inr rfl) ⟨inv, works⟩
        (fun _ => ⟨inv, works⟩) (fun t settled inv' => ⟨inv', still settled.frame⟩) fun e t broken => ?_
      cases broken with
      | growing moved below more stopped => exact ⟨whole stopped, still more.frame⟩
      | shrinking moved above less stopped => exact ⟨whole stopped, still less.frame⟩
  | bmapLoad sin index =>
      obtain ⟨member, behind, within⟩ := legal
      simp only [exec, spec_bind, spec_pure]
      rcases Nat.lt_or_eq_of_le behind with below | rfl
      · refine sfsBmapLoadNolock_finds inv member below (fun e t which _ => ?_) fun t which => ?_
        · rcases which with rfl | rfl
          · exact ⟨inv, works⟩
          · exact ⟨inv.tick, still (Frame.tick s)⟩
        · rcases which with rfl | rfl
          · exact ⟨inv, works⟩
          · exact ⟨inv.tick, still (Frame.tick s)⟩
      · exact sfsBmapLoadNolock_grows inv member within (fun e t fails => ⟨ended fails, still fails.frame⟩)
          fun ino t loaded => ⟨loaded.inv, still loaded.frame⟩
  | bmapTruncate sin =>
      exact sfsBmapTruncateNolock_spec inv legal.1 legal.2 (fun e t fails => ⟨ended fails, still fails.frame⟩)
        fun t truncated => ⟨truncated.inv, still truncated.frame⟩

theorem reached_inv (run : Reachable (Initial others) Step s) : Inv s others [] ∧ s.faults = [] := by
  refine run.invariant (fun s => Inv s others [] ∧ s.faults = []) (fun s initial => ⟨initial.1, initial.2⟩) ?_
  rintro s t ⟨inv, works⟩ ⟨c, legal, result, run⟩
  have spec := exec_spec inv works legal
  cases result with
  | ok a => exact spec.value run
  | error e => exact spec.error run

/-- In every state reached each block in use has one owner, and no call stops at an
    assertion about blocks in use. -/
theorem reached_owned (run : Reachable (Initial others) Step s) :
    Owned s others ∧ ∀ c, Legal s c → exec c s ≠ .error .inuse ∧ exec c s ≠ .error .bitmap := by
  obtain ⟨inv, works⟩ := reached_inv run
  refine ⟨owned_of_inv inv, fun c legal => ?_⟩
  have spec := exec_spec inv works legal
  constructor
  · intro stopped
    have := spec.stopped stopped
    cases this
  · intro stopped
    have := spec.stopped stopped
    cases this

/-! ## A small disk -/

/-- An empty file in five blocks: superblock, root directory, freemap, the inode of the
    file, and one free block. -/
def emptyInode (type : Nat) : DiskInode := ⟨0, type, 1, 0, List.replicate 12 0, 0⟩

/-- A map with the given first word. -/
def smallMap (words : Nat) (word : BitVec 32) : Bitmap := ⟨(words + 1) * WORD_BITS, word :: List.replicate words 0⟩

def smallDisk : SfsFs where
  super := ⟨SFS_MAGIC, 5, 1, List.replicate 32 0⟩
  dev := ⟨8, fun _ => zeros, by decide⟩
  freemap := smallMap 1023 (mask 4)
  superDirty := false
  inodeList := [0, 1]
  nodes sin := if sin = 0 then ⟨emptyInode SFS_TYPE_FILE, 3, false, 1, 1⟩
    else ⟨emptyInode SFS_TYPE_DIR, SFS_BLKN_ROOT, false, 1, 1⟩
  nextNode := 2
  faults := []

theorem smallMap_free (words : Nat) (word : BitVec 32) (i : Nat) :
    (smallMap words word).free i = (decide (i < WORD_BITS) && word.getLsbD i) := by
  unfold Bitmap.free smallMap
  by_cases low : i < WORD_BITS
  · rw [Nat.div_eq_of_lt low, Nat.mod_eq_of_lt low]
    simp [low]
  · obtain ⟨k, high⟩ : ∃ k, i / WORD_BITS = k + 1 :=
      Nat.exists_eq_succ_of_ne_zero (Nat.ne_of_gt (Nat.div_pos (Nat.not_lt.mp low) (by decide)))
    rw [high, List.getD_cons_succ]
    by_cases inside : k < words
    · simp [low, inside]
    · simp [low, inside]

theorem smallMap_bit (words : Nat) {bit : Nat} (low : bit < WORD_BITS) (i : Nat) :
    (smallMap words (mask bit)).free i = decide (i = bit) := by
  have bound : bit < 32 := low
  rw [smallMap_free, mask, BitVec.getLsbD_twoPow]
  by_cases same : i = bit
  · simp [same, low, bound]
  · simp [same, Ne.symm same]

theorem smallMap_full (words : Nat) (word : BitVec 32) : (smallMap words word).Full := by
  simp [Bitmap.Full, smallMap]

theorem smallMap_count (words : Nat) {bit : Nat} (low : bit < WORD_BITS) :
    (smallMap words (mask bit)).freeCount = 1 := by
  have empty : (smallMap words 0).freeCount = 0 := freeCount_zero fun i => by simp [smallMap_free]
  have flipped : (smallMap words (mask bit)).free = Function.update (smallMap words 0).free bit true := by
    funext i
    rw [smallMap_bit words low]
    by_cases same : i = bit <;> simp [same, smallMap_free]
  have inside : bit < (smallMap words 0).nbits := Nat.lt_of_lt_of_le low (Nat.le_mul_of_pos_left _ (Nat.succ_pos _))
  have one : (smallMap words (mask bit)).freeCount = (smallMap words 0).freeCount + 1 :=
    freeCount_set rfl inside (by simp [smallMap_free]) flipped
  rw [one, empty]

theorem emptyInode_ok (blocks : Nat → Block) (type : Nat) : FileOk blocks (emptyInode type) := by
  refine ⟨rfl, Nat.zero_le _, fun up => by simp [emptyInode] at up, fun k _ _ reach => ?_⟩
  by_cases low : k < SFS_NDIRECT
  · rw [blockAt, if_pos low, emptyInode]
    exact List.getD_replicate _ low
  · exact absurd rfl (reach (by omega))

theorem smallDisk_inv : Inv smallDisk [] [] where
  mounted :=
    { full := smallMap_full 1023 (mask 4)
      sized := by decide
      bounds := fun i free => by
        have only : (smallMap 1023 (mask 4)).free i = true := free
        rw [smallMap_bit _ (by decide), decide_eq_true_eq] at only
        subst only
        decide
      device := by decide
      unused := (smallMap_count 1023 (show 4 < WORD_BITS by decide)).symm }
  nodes := by decide
  files := by
    intro file inside
    have : file = (3, emptyInode SFS_TYPE_FILE) ∨ file = (1, emptyInode SFS_TYPE_DIR) := by
      simpa [files, smallDisk, fileOf, SFS_BLKN_ROOT] using inside
    rcases this with rfl | rfl
    · exact emptyInode_ok _ _
    · exact emptyInode_ok _ _
  range := by decide +kernel
  inuse := by decide +kernel
  nodup := by decide +kernel
  stored := by simp

/-- The file gets the free block, and fails to get another one. -/
theorem reached_owned_smallDisk : ∃ s, Reachable (Initial []) Step s ∧ (s.nodes 0).din.blocks = 1 ∧ Owned s [] := by
  have legal : Legal smallDisk (.truncfile 0 8192) := by decide
  have run : (exec (.truncfile 0 8192) smallDisk).map (fun outcome => (outcome.1, (outcome.2.nodes 0).din.blocks)) =
      .ok (.error .noMem, 1) := by decide +kernel
  cases ran : exec (.truncfile 0 8192) smallDisk with
  | error p => simp [ran, Except.map] at run
  | ok outcome =>
      obtain ⟨result, t⟩ := outcome
      have reached : Reachable (Initial []) Step t :=
        .next (.start ⟨smallDisk_inv, rfl⟩) ⟨_, legal, result, ran⟩
      rw [ran] at run
      exact ⟨t, reached, (Prod.mk.inj (Except.ok.inj run)).2, (reached_owned reached).1⟩

end Ucore.Fs.OwnershipRuns
