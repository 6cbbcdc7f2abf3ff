import Ucore.Fs.OwnershipRuns

/-! # File sizes across failures

One file is resized again and again, with device operations failing and free blocks
running out. A call that fails after its first block leaves a count of blocks that does
not belong to the size.
-/

namespace Ucore.Fs.TruncRuns

open Lib.Run Lib.Program Lib.Program.Prog Error Bitmaps Sfs SfsIo SfsInode Ownership BlockSpecs BmapSpecs
open Truncfile
open OwnershipRuns (smallDisk smallDisk_inv)

/-- A target size, and which of the device operations of the call fail. -/
structure Call where
  len : Int
  faults : List Bool
  deriving DecidableEq, Repr

def withFaults (s : SfsFs) (faults : List Bool) : SfsFs := { s with faults := faults }

def exec (sin : Nat) (c : Call) (s : SfsFs) : Except Panic (Except Err Unit × SfsFs) :=
  sfsTruncfile sin c.len (withFaults s c.faults)

/-- The call moves one block at most. -/
def OneAtMost (s : SfsFs) (sin len : Nat) : Prop :=
  target len ≤ (s.nodes sin).din.blocks + 1 ∧ (s.nodes sin).din.blocks ≤ blocksOf len + 1

/-- The first block the call adds or removes is one it fails at: there are too few free
    blocks, or one of the device operations it takes fails. -/
def FirstFails (s : SfsFs) (sin len : Nat) : Prop :=
  (s.nodes sin).din.blocks < blocksOf len ∧
      (s.freemap.freeCount < needed (s.nodes sin).din ∨ ¬ Fine (loadOps (s.nodes sin).din) s) ∨
    blocksOf len < (s.nodes sin).din.blocks ∧ ¬ Fine (truncateOps (s.nodes sin).din) s

/-- No device operation of the call fails, and there are free blocks for all it adds. -/
def Works (s : SfsFs) (sin len : Nat) : Prop :=
  ((s.nodes sin).din.blocks < target len → Fine (growOps (s.nodes sin).din (target len - (s.nodes sin).din.blocks)) s ∧
      neededFor (s.nodes sin).din (target len - (s.nodes sin).din.blocks) ≤ s.freemap.freeCount) ∧
    (blocksOf len < (s.nodes sin).din.blocks →
      Fine (shrinkOps (s.nodes sin).din ((s.nodes sin).din.blocks - blocksOf len)) s)

/-- A size that is accepted takes one block, fails at the first one, or nothing fails. -/
def Sound (s : SfsFs) (sin : Nat) (c : Call) : Prop :=
  (c.len < 0 ∨ SFS_MAX_FILE_SIZE < c.len) ∨ OneAtMost s sin c.len.toNat ∨
    FirstFails (withFaults s c.faults) sin c.len.toNat ∨ Works (withFaults s c.faults) sin c.len.toNat

/-- A call that has come to an end. -/
def Step (allowed : SfsFs → Call → Prop) (sin : Nat) (s t : SfsFs) : Prop :=
  ∃ c, allowed s c ∧ ∃ result, exec sin c s = .ok (result, t)

def SizeAgrees (s : SfsFs) (sin : Nat) : Prop := (s.nodes sin).din.blocks = blocksOf (s.nodes sin).din.size

/-- A consistent file system with the file in memory. -/
structure Initial (others : List (Nat × DiskInode)) (sin : Nat) (s : SfsFs) : Prop where
  consistent : Inv s others []
  member : sin ∈ s.inodeList
  sizes : SizeAgrees s sin

structure Good (others : List (Nat × DiskInode)) (sin : Nat) (s : SfsFs) : Prop where
  inv : ∃ lost, Inv s others lost
  member : sin ∈ s.inodeList
  sizes : SizeAgrees s sin

variable {s t : SfsFs} {others : List (Nat × DiskInode)} {sin : Nat} {held : List Nat}

theorem firstFails_spec {len : Int} (inv : Inv s others held) (member : sin ∈ s.inodeList)
    (first : FirstFails s sin len.toNat) :
    Spec (fun p => p = .range ∨ p = .blocks)
      (sfsTruncfile sin len) s (fun _ _ => True) fun _ t => t.nodes = s.nodes := by
  simp only [sfsTruncfile, spec_ite, spec_throw, spec_bind, spec_get]
  refine ⟨fun _ => trivial, fun _ => ⟨fun _ => ?_, fun _ => ⟨fun grows => ?_, fun shrinks => ?_⟩⟩⟩
  · rw [spec_ensure]
    exact ⟨fun _ => trivial, fun _ => Or.inr rfl⟩
  · have refused := (first.resolve_right fun shrunk => by have := shrunk.1; omega).2
    obtain ⟨count, more⟩ := Nat.exists_eq_succ_of_ne_zero
      (show blocksOf len.toNat - (s.nodes sin).din.blocks ≠ 0 by omega)
    rw [more, growLoop, spec_bind]
    by_cases room : (s.nodes sin).din.blocks < SFS_NDIRECT + SFS_BLK_NENTRY
    · refine sfsBmapLoadNolock_grows inv member room (fun _ _ fails => fails.nodes) fun ino t loaded => ?_
      have count := loaded.count
      exact (refused.elim (fun few => by omega) fun failing => failing loaded.paid.fine).elim
    · have short := (inv.file member).short
      exact load_out_of_range (by omega) (Or.inl rfl)
  · by_cases same : blocksOf len.toNat = (s.nodes sin).din.blocks
    · rcases first with ⟨less, -⟩ | ⟨less, -⟩ <;> omega
    have refused := (first.resolve_left fun grown => by have := grown.1; omega).2
    obtain ⟨count, more⟩ := Nat.exists_eq_succ_of_ne_zero
      (show (s.nodes sin).din.blocks - blocksOf len.toNat ≠ 0 by omega)
    rw [more, shrinkLoop, spec_bind]
    refine sfsBmapTruncateNolock_spec inv member (by omega) (fun _ _ fails => fails.nodes) fun t truncated => ?_
    exact absurd truncated.paid.fine refused

/-- A call on a file whose sizes agree stops at no assertion about them. If the call is
    sound, it sets the new size or leaves size and blocks alone. -/
theorem exec_spec {len : Int} (inv : Inv s others held) (member : sin ∈ s.inodeList) (sizes : SizeAgrees s sin) :
    Spec (fun p => p = .range) (sfsTruncfile sin len) s
      (fun _ t => (∃ lost, Inv t others lost) ∧ sin ∈ t.inodeList ∧ SizeAgrees t sin)
      fun _ t => ((∃ lost, Inv t others lost) ∧ sin ∈ t.inodeList) ∧
        (t.nodes = s.nodes ∨ Broken others held len.toNat s sin t) := by
  refine sfsTruncfile_spec inv member (Or.inr rfl) (fun same => Or.inl ?_) ⟨⟨⟨held, inv⟩, member⟩, Or.inl rfl⟩
    (fun _ => ⟨⟨held, inv⟩, member, sizes⟩) (fun t settled inv' => ⟨⟨held, inv'⟩, ?_⟩) fun e t broken => ?_
  · rw [sizes, same]
  · obtain ⟨node', nodes, -, size, blocks, -⟩ := settled.nodes
    refine ⟨settled.frame.inodeList ▸ member, ?_⟩
    rw [SizeAgrees, nodes, Function.update_self, blocks, size]
  · refine ⟨?_, Or.inr broken⟩
    cases broken with
    | growing moved below more stopped =>
        obtain ⟨lost, lostInv, -⟩ := stopped
        exact ⟨⟨_, lostInv⟩, more.frame.inodeList ▸ member⟩
    | shrinking moved above less stopped =>
        obtain ⟨lost, lostInv, -⟩ := stopped
        exact ⟨⟨_, lostInv⟩, less.frame.inodeList ▸ member⟩

/-- A call that moves one block, or one in which nothing fails, is not broken off in the middle. -/
theorem broken_unmoved {len : Nat} (sound : OneAtMost s sin len ∨ Works s sin len)
    (broken : Broken others held len s sin t) :
    (t.nodes sin).din.size = (s.nodes sin).din.size ∧ (t.nodes sin).din.blocks = (s.nodes sin).din.blocks := by
  cases broken with
  | growing moved below more stopped =>
      obtain ⟨node', nodes, resized, blocks, -⟩ := more.nodes
      have absent : moved = 0 := by
        rcases sound with ⟨one, -⟩ | ⟨works, -⟩
        · omega
        · obtain ⟨lost, -, why⟩ := stopped
          obtain ⟨fine, room⟩ := works (by omega)
          exact absurd (why fine).2 (Nat.not_lt.mpr room)
      rw [nodes, Function.update_self]
      rw [absent, Nat.add_zero] at blocks
      exact ⟨resized.size, blocks⟩
  | shrinking moved above less stopped =>
      obtain ⟨node', nodes, resized, blocks, -⟩ := less.nodes
      have vacant : moved = 0 := by
        rcases sound with ⟨-, one⟩ | ⟨-, works⟩
        · omega
        · obtain ⟨lost, -, why⟩ := stopped
          exact (why (works (by omega))).2.elim
      rw [nodes, Function.update_self]
      rw [vacant, Nat.add_zero] at blocks
      exact ⟨resized.size, blocks⟩

theorem inv_withFaults (inv : Inv s others held) (faults : List Bool) : Inv (withFaults s faults) others held :=
  inv.congr rfl rfl rfl rfl rfl

/-- A sound call that fails leaves the file as it was. -/
theorem sound_error {c : Call} {e : Err} (good : Good others sin s) (sound : Sound s sin c)
    (run : exec sin c s = .ok (.error e, t)) :
    Good others sin t ∧ (t.nodes sin).din.size = (s.nodes sin).din.size ∧
      (t.nodes sin).din.blocks = (s.nodes sin).din.blocks := by
  obtain ⟨⟨lost, inv⟩, member, sizes⟩ := good
  have inv := inv_withFaults inv c.faults
  obtain ⟨⟨inv', member'⟩, outcome⟩ := (exec_spec (s := withFaults s c.faults) inv member sizes).error run
  have unmoved : (t.nodes sin).din.size = (s.nodes sin).din.size ∧
      (t.nodes sin).din.blocks = (s.nodes sin).din.blocks := by
    rcases outcome with same | broken
    · rw [same]
      exact ⟨rfl, rfl⟩
    · rcases sound with refused | one | first | works
      · rw [exec, sfsTruncfile, if_pos refused] at run
        cases run
        exact ⟨rfl, rfl⟩
      · exact broken_unmoved (s := withFaults s c.faults) (Or.inl one) broken
      · have same := (firstFails_spec (s := withFaults s c.faults) inv member first).error run
        rw [same]
        exact ⟨rfl, rfl⟩
      · exact broken_unmoved (s := withFaults s c.faults) (Or.inr works) broken
  exact ⟨⟨inv', member', by rw [SizeAgrees, unmoved.1, unmoved.2]; exact sizes⟩, unmoved⟩

theorem soundStep_good (good : Good others sin s) (step : Step (fun s c => Sound s sin c) sin s t) :
    Good others sin t := by
  obtain ⟨c, sound, result, run⟩ := step
  cases result with
  | error e => exact (sound_error good sound run).1
  | ok a =>
      obtain ⟨⟨lost, inv⟩, member, sizes⟩ := good
      obtain ⟨inv', member', sizes'⟩ :=
        (exec_spec (s := withFaults s c.faults) (inv_withFaults inv c.faults) member sizes).value run
      exact ⟨inv', member', sizes'⟩

/-- As long as every call is sound, the sizes agree, so no call stops at the assertion about
    them, and a sound call that fails changes neither size. -/
theorem soundRun_agrees (run : Reachable (Initial others sin) (Step (fun s c => Sound s sin c) sin) s) :
    SizeAgrees s sin ∧ ∀ c, exec sin c s ≠ .error .blocks ∧
      (Sound s sin c → ∀ e t, exec sin c s = .ok (.error e, t) →
        (t.nodes sin).din.size = (s.nodes sin).din.size ∧ (t.nodes sin).din.blocks = (s.nodes sin).din.blocks) := by
  have good : Good others sin s := run.invariant (Good others sin)
    (fun s initial => ⟨⟨[], initial.consistent⟩, initial.member, initial.sizes⟩)
      fun s t good step => soundStep_good good step
  refine ⟨good.sizes, fun c => ⟨fun stopped => ?_, fun sound e t run => (sound_error good sound run).2⟩⟩
  obtain ⟨⟨lost, inv⟩, member, sizes⟩ := good
  have := (exec_spec (s := withFaults s c.faults) (inv_withFaults inv c.faults) member sizes).stopped stopped
  cases this

/-- The unchanged-size branch stops where the sizes do not agree. -/
theorem unchanged_stops {c : Call} (accepted : ¬ (c.len < 0 ∨ SFS_MAX_FILE_SIZE < c.len))
    (same : (s.nodes sin).din.size = c.len.toNat) (differ : blocksOf c.len.toNat ≠ (s.nodes sin).din.blocks) :
    exec sin c s = .error .blocks := by
  rw [exec, sfsTruncfile, if_neg accepted]
  simp only [bind, Prog.get]
  rw [if_pos (show ((withFaults s c.faults).nodes sin).din.size = c.len.toNat from same), ensure]
  exact if_neg differ

/-! ## On the small disk -/

theorem smallDisk_initial : Initial [] 0 smallDisk := ⟨smallDisk_inv, by decide, rfl⟩

/-- The file gets the one free block. -/
theorem soundRun_agrees_smallDisk : ∃ s, Reachable (Initial [] 0) (Step (fun s c => Sound s 0 c) 0) s ∧
    (s.nodes 0).din.blocks = 1 ∧ SizeAgrees s 0 := by
  have sound : Sound smallDisk 0 ⟨4096, []⟩ := Or.inr (Or.inl ⟨by decide, by decide⟩)
  have run : (exec 0 ⟨4096, []⟩ smallDisk).map (fun outcome => (outcome.2.nodes 0).din.blocks) = .ok 1 := by
    decide +kernel
  cases ran : exec 0 ⟨4096, []⟩ smallDisk with
  | error p => simp [ran, Except.map] at run
  | ok outcome =>
      obtain ⟨result, t⟩ := outcome
      have reached : Reachable (Initial [] 0) (Step (fun s c => Sound s 0 c) 0) t :=
        .next (.start smallDisk_initial) ⟨_, sound, result, ran⟩
      rw [ran] at run
      exact ⟨t, reached, Except.ok.inj run, (soundRun_agrees reached).1⟩

/-- Of two blocks the file gets one, which it keeps when the call fails. A second call that
    asks for no change then stops at the assertion. -/
theorem halfGrown_disagrees : ∃ t, Reachable (Initial [] 0) (Step (fun _ _ => True) 0) t ∧
    exec 0 ⟨8192, []⟩ smallDisk = .ok (.error .noMem, t) ∧ (smallDisk.nodes 0).din.blocks = 0 ∧
    (t.nodes 0).din.blocks = 1 ∧ ¬ SizeAgrees t 0 ∧ exec 0 ⟨0, []⟩ t = .error .blocks := by
  have run : (exec 0 ⟨8192, []⟩ smallDisk).map
      (fun outcome => (outcome.1, (outcome.2.nodes 0).din.blocks, (outcome.2.nodes 0).din.size)) =
        .ok (.error .noMem, 1, 0) := by decide +kernel
  cases ran : exec 0 ⟨8192, []⟩ smallDisk with
  | error p => simp [ran, Except.map] at run
  | ok outcome =>
      obtain ⟨result, t⟩ := outcome
      obtain ⟨rfl, blocks, size⟩ : result = .error .noMem ∧ (t.nodes 0).din.blocks = 1 ∧ (t.nodes 0).din.size = 0 := by
        simpa [ran, Except.map] using run
      refine ⟨t, .next (.start smallDisk_initial) ⟨_, trivial, _, ran⟩, rfl, rfl, blocks, ?_, ?_⟩
      · rw [SizeAgrees, blocks, size]
        decide
      · refine unchanged_stops (by decide) size ?_
        rw [blocks]
        decide

end Ucore.Fs.TruncRuns
