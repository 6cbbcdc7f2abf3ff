import Ucore.Fs.InodeCalls
import Ucore.Fs.TruncRuns

/-! # Writing inodes back

An inode in memory is written back only when its dirty flag says so. The flag is set wherever
the inode changes, but for one place: a new block that is entered in an index block which is
already there. When the call ends well, the flag is set behind the loop, and when it fails
after that block, the new count of blocks is not written back.
-/

namespace Ucore.Fs.WriteBack

open Lib.Bytes Lib.Run Lib.Program Lib.Program.Prog Error Bitmaps Sfs SfsIo SfsInode Ownership BlockSpecs BmapSpecs
open Truncfile TruncRuns InodeCalls
open OwnershipRuns (smallMap smallMap_bit smallMap_full smallMap_count emptyInode emptyInode_ok)

inductive Call where
  | truncate (len : Int)
  | seek (pos : Int)
  | fsync
  deriving DecidableEq, Repr

def exec (sin : Nat) : Call → Op SfsFs Unit
  | .truncate len => sfsTruncfile sin len
  | .seek pos => sfsTryseek sin pos
  | .fsync => sfsFsync sin

/-- The block of the inode is what is in memory. -/
def OnDisk (s : SfsFs) (sin : Nat) : Prop :=
  DiskInode.ofBytes (slice (s.dev.blocks (s.nodes sin).ino) 0 DiskInode.sizeof) = (s.nodes sin).din

instance (s : SfsFs) (sin : Nat) : Decidable (OnDisk s sin) := inferInstanceAs (Decidable (_ = _))

def Written (s : SfsFs) (sin : Nat) : Prop := (s.nodes sin).dirty = false → OnDisk s sin

/-- Growing the file will set the flag, or move no block: it is set already, a new index block
    will be needed or none at all, one block is all that is missing, the first one cannot be had, or
    all of them can. -/
def Marks (s : SfsFs) (sin len : Nat) : Prop :=
  (s.nodes sin).dirty = true ∨ (s.nodes sin).din.blocks < SFS_NDIRECT ∨ (s.nodes sin).din.indirect = 0 ∨
    target len ≤ (s.nodes sin).din.blocks + 1 ∨ FirstFails s sin len ∨ Works s sin len

/-- The file is not resized, or with a mark. -/
def Sound (s : SfsFs) (sin : Nat) : Call → Prop
  | .truncate len => (len < 0 ∨ SFS_MAX_FILE_SIZE < len) ∨ Marks s sin len.toNat
  | .seek pos => (pos < 0 ∨ SFS_MAX_FILE_SIZE ≤ pos) ∨ pos ≤ (s.nodes sin).din.size ∨ Marks s sin pos.toNat
  | .fsync => True

/-- A call that has come to an end. The list says which operations of the device fail. -/
def Step (allowed : SfsFs → Call → Prop) (sin : Nat) (s t : SfsFs) : Prop :=
  ∃ c faults, allowed (withFaults s faults) c ∧ ∃ result, exec sin c (withFaults s faults) = .ok (result, t)

/-- A consistent file system with the inode in memory, as it is on the disk. -/
structure Initial (others : List (Nat × DiskInode)) (sin : Nat) (s : SfsFs) : Prop where
  consistent : Inv s others []
  member : sin ∈ s.inodeList
  fits : (s.nodes sin).din.Fits
  written : Written s sin

structure Good (others : List (Nat × DiskInode)) (sin : Nat) (s : SfsFs) : Prop where
  inv : ∃ held, Inv s others held
  member : sin ∈ s.inodeList
  fits : (s.nodes sin).din.Fits
  written : Written s sin

variable {s t : SfsFs} {others : List (Nat × DiskInode)} {sin : Nat} {held : List Nat}

/-! ## One call -/

theorem OnDisk.frame (onDisk : OnDisk s sin) (member : sin ∈ s.inodeList) (frame : Frame others s t)
    (same : t.nodes sin = s.nodes sin) : OnDisk t sin := by
  have kept : t.dev.blocks (s.nodes sin).ino = s.dev.blocks (s.nodes sin).ino :=
    frame.disk _ (List.mem_append_right _ (List.mem_map_of_mem (fileOf_mem member)))
  rw [OnDisk, same, kept]
  exact onDisk

/-- A call of the resizing kind leaves the inode alone or marks it. -/
theorem Good.resized {node' : SfsInode} (good : Good others sin s) (inv : Inv t others held) (frame : Frame others s t)
    (nodes : t.nodes = Function.update s.nodes sin node') (fits : node'.din.Fits)
    (marked : node' = s.nodes sin ∨ node'.dirty = true) : Good others sin t := by
  have here : t.nodes sin = node' := by rw [nodes, Function.update_self]
  refine ⟨⟨held, inv⟩, frame.inodeList ▸ good.member, by rwa [here], fun clean => ?_⟩
  rcases marked with same | dirty
  · rw [here, same] at clean
    exact (good.written clean).frame good.member frame (here.trans same)
  · rw [here, dirty] at clean
    cases clean

theorem marks_broken {len : Nat} (good : Good others sin s) (marks : Marks s sin len)
    (broken : Broken others held len s sin t) (first : FirstFails s sin len → t.nodes = s.nodes) :
    Good others sin t := by
  cases broken with
  | growing moved below more stopped =>
      obtain ⟨node', nodes, resized, blocks, kept, changed⟩ := more.nodes
      obtain ⟨lost, inv, why⟩ := stopped
      refine good.resized inv more.frame nodes (resized.fits good.fits) ?_
      rcases changed with same | marked | ⟨some, up, present⟩
      · exact .inl same
      · exact .inr marked
      · rcases marks with dirty | low | absent | one | fails | ⟨works, -⟩
        · exact .inr (kept dirty)
        · omega
        · exact absurd absent present
        · omega
        · left
          have same := congrFun (first fails) sin
          rwa [nodes, Function.update_self] at same
        · obtain ⟨fine, room⟩ := works (by omega)
          exact absurd (why fine).2 (Nat.not_lt.mpr room)
  | shrinking moved above less stopped =>
      obtain ⟨node', nodes, resized, -, changed⟩ := less.nodes
      obtain ⟨lost, inv, -⟩ := stopped
      exact good.resized inv less.frame nodes (resized.fits good.fits) changed

theorem sfsTruncfile_good {len : Int} (good : Good others sin s)
    (sound : (len < 0 ∨ SFS_MAX_FILE_SIZE < len) ∨ Marks s sin len.toNat) :
    Spec (fun p => p = .range ∨ p = .blocks) (sfsTruncfile sin len) s (fun _ t => Good others sin t)
      fun _ t => Good others sin t := by
  obtain ⟨held, inv⟩ := good.inv
  rcases sound with refused | marks
  · rw [sfsTruncfile, if_pos refused]
    exact good
  have done : ∀ t, Settled others len.toNat s sin t → Inv t others held → Good others sin t := by
    intro t settled inv'
    obtain ⟨node', nodes, -, -, -, -, -, -, -, fits, marked⟩ := settled.nodes
    exact good.resized inv' settled.frame nodes (fits good.fits) (.inr marked)
  by_cases first : FirstFails s sin len.toNat
  · refine ((firstFails_spec inv good.member first).and (sfsTruncfile_spec (E := fun _ t => t = s ∨
      Broken others held len.toNat s sin t) inv good.member (.inr (.inl rfl)) (fun _ => .inr (.inr rfl)) (.inl rfl)
      (fun _ => good) done fun _ t broken => .inr broken)).mono (fun _ t both => both.2) fun _ t both => ?_
    rcases both with ⟨same, rfl | broken⟩
    · exact good
    · exact marks_broken good marks broken fun _ => same
  · exact sfsTruncfile_spec inv good.member (.inr (.inl rfl)) (fun _ => .inr (.inr rfl)) good (fun _ => good) done
      fun _ t broken => marks_broken good marks broken fun fails => absurd fails first

theorem Good.congr (good : Good others sin s) (list : t.inodeList = s.inodeList) (nodes : t.nodes = s.nodes)
    (disk : t.dev = s.dev) (freemap : t.freemap = s.freemap) (super : t.super = s.super) : Good others sin t := by
  obtain ⟨held, inv⟩ := good.inv
  refine ⟨⟨held, inv.congr list nodes disk freemap super⟩, list ▸ good.member, by rw [nodes]; exact good.fits, ?_⟩
  rw [Written, OnDisk, nodes, disk]
  exact good.written

theorem setNode_dirty (s : SfsFs) (dirty : (s.nodes sin).dirty = true) :
    ((s.setNode sin fun node => { node with dirty := false }).setNode sin
      fun node => { node with dirty := true }).nodes =
      s.nodes := by
  rw [setNode_setNode, SfsFs.setNode]
  refine (congrArg (Function.update s.nodes sin) ?_).trans (Function.update_eq_self sin s.nodes)
  change { s.nodes sin with dirty := true } = s.nodes sin
  rw [← dirty]

/-- The flag does not enter into the owners of the blocks. -/
theorem inv_setClean (inv : Inv s others held) (member : sin ∈ s.inodeList) :
    Inv (s.setNode sin fun node => { node with dirty := false }) others held := by
  have ok := inv.file member
  exact inv.change member rfl rfl rfl rfl rfl (fun _ _ _ => rfl) ⟨ok.direct, ok.short, ok.reach, ok.spare⟩
    (List.Perm.refl _)

/-- The inode is written back, or marked again as if nothing had happened. -/
theorem sfsFsync_spec (good : Good others sin s) :
    Spec (fun _ => False) (sfsFsync sin) s
      (fun _ t => Good others sin t ∧ OnDisk t sin ∧ (t.nodes sin).din = (s.nodes sin).din)
      fun _ t => Good others sin t := by
  obtain ⟨held, inv⟩ := good.inv
  have mine : (s.nodes sin).ino ∈ ownedBy s.dev.blocks (fileOf (s.nodes sin)) := List.mem_cons_self
  obtain ⟨nonzero, inside, -⟩ := inv.inuse_of_file (fileOf_mem good.member) mine
  have length := DiskInode.length_bytes good.fits
  simp only [sfsFsync, spec_bind, spec_get, spec_ite, setDirty, spec_modify, spec_onError]
  refine ⟨fun dirty => ?_, fun clean => ?_⟩
  · have again := setNode_dirty s dirty
    refine sfsWbuf_spec ⟨by decide, by rw [length]; decide⟩ nonzero inside (fun _ e => ?_) fun _ _ => ?_
    · exact ⟨good.congr rfl again rfl rfl rfl, good.congr rfl again rfl rfl rfl, good.congr rfl again rfl rfl rfl⟩
    · generalize hClean : s.setNode sin (fun node => { node with dirty := false }) = u
      have here : u.nodes sin = { s.nodes sin with dirty := false } := by
        rw [← hClean, SfsFs.setNode]
        exact Function.update_self ..
      have member : sin ∈ u.inodeList := by
        rw [← hClean]
        exact good.member
      have clean : Inv u others held := hClean ▸ inv_setClean inv good.member
      have ino : (u.tick.tick.nodes sin).ino = (s.nodes sin).ino := by
        rw [show u.tick.tick.nodes sin = u.nodes sin from rfl, here]
      generalize hBlock : patch (u.dev.blocks (s.nodes sin).ino) 0 (s.nodes sin).din.bytes = b
      have inv' : Inv (u.tick.tick.setBlock (s.nodes sin).ino b) others held :=
        ino ▸ inv_writeInode clean.tick.tick member b
      generalize hAfter : u.tick.tick.setBlock (s.nodes sin).ino b = w at inv'
      have node : w.nodes sin = { s.nodes sin with dirty := false } := by
        rw [← hAfter]
        exact here
      have stored : w.dev.blocks (s.nodes sin).ino = b := by
        rw [← hAfter]
        exact Function.update_self ..
      have written : OnDisk w sin := by
        rw [OnDisk, node, stored, ← hBlock, ← length, slice_patch, DiskInode.ofBytes_bytes good.fits]
      refine ⟨⟨⟨held, inv'⟩, ?_, ?_, fun _ => written⟩, written, ?_⟩
      · rw [← hAfter]
        exact member
      · rw [node]
        exact good.fits
      · rw [node]
  · have clean : (s.nodes sin).dirty = false := by simpa using clean
    exact ⟨good, good.written clean, rfl⟩

theorem sfsTryseek_good {pos : Int} (good : Good others sin s) (sound : Sound s sin (.seek pos)) :
    Spec (fun p => p = .range ∨ p = .blocks) (sfsTryseek sin pos) s (fun _ t => Good others sin t)
      fun _ t => Good others sin t := by
  simp only [sfsTryseek, spec_ite, spec_throw, spec_bind, spec_get, spec_pure]
  refine ⟨fun _ => good, fun accepted => ⟨fun behind => ?_, fun _ => good⟩⟩
  refine sfsTruncfile_good good (.inr ?_)
  rcases sound with refused | inside | marks
  · exact absurd refused accepted
  · omega
  · exact marks

theorem exec_good {c : Call} {faults : List Bool} {result : Except Err Unit} (good : Good others sin s)
    (sound : Sound (withFaults s faults) sin c) (run : exec sin c (withFaults s faults) = .ok (result, t)) :
    Good others sin t := by
  have good : Good others sin (withFaults s faults) := good.congr rfl rfl rfl rfl rfl
  cases c with
  | truncate len =>
      have spec := sfsTruncfile_good good sound
      cases result with
      | ok a => exact spec.value run
      | error e => exact spec.error run
  | seek pos =>
      have spec := sfsTryseek_good good sound
      cases result with
      | ok a => exact spec.value run
      | error e => exact spec.error run
  | fsync =>
      have spec := sfsFsync_spec good
      cases result with
      | ok a => exact (spec.value run).1
      | error e => exact spec.error run

/-! ## Runs -/

/-- As long as every call that grows the file sets the flag, an inode without the flag is on the
    disk as it is in memory, and to write it back makes it so. -/
theorem writtenBack (run : Reachable (Initial others sin) (Step (fun s c => Sound s sin c) sin) s) :
    Written s sin ∧ ∀ faults t, sfsFsync sin (withFaults s faults) = .ok (.ok (), t) →
      OnDisk t sin ∧ (t.nodes sin).din = (s.nodes sin).din := by
  have good : Good others sin s := run.invariant (Good others sin)
    (fun s initial => ⟨⟨[], initial.consistent⟩, initial.member, initial.fits, initial.written⟩)
    fun s t good ⟨c, faults, sound, result, run⟩ => exec_good good sound run
  refine ⟨good.written, fun faults t run => ?_⟩
  have good' : Good others sin (withFaults s faults) := good.congr rfl rfl rfl rfl rfl
  exact ((sfsFsync_spec good').value run).2

/-! ## A file with an index block -/

/-- Thirteen blocks, the last of them behind the index block. -/
def tallInode : DiskInode := ⟨13 * SFS_BLKSIZE, SFS_TYPE_FILE, 1, 13, List.range' 4 12, 17⟩

/-- Superblock, root directory, freemap, the inode of the file, its blocks and its index block,
    and one free block. -/
def tallDisk : SfsFs where
  super := ⟨SFS_MAGIC, 19, 1, List.replicate 32 0⟩
  dev := ⟨19, fun b => if b = 3 then patch zeros 0 tallInode.bytes else if b = 17 then patch zeros 0 (toLe 4 16)
    else zeros,
    by decide⟩
  freemap := smallMap 1023 (mask 18)
  superDirty := false
  inodeList := [0, 1]
  nodes sin := if sin = 0 then ⟨tallInode, 3, false, 1, 1⟩ else ⟨emptyInode SFS_TYPE_DIR, SFS_BLKN_ROOT, false, 1, 1⟩
  nextNode := 2
  faults := []

theorem tallInode_ok : FileOk tallDisk.dev.blocks tallInode := by
  refine ⟨rfl, by decide, fun _ => by decide, fun k behind within _ => ?_⟩
  revert k
  decide +kernel

theorem tallDisk_inv : Inv tallDisk [] [] where
  mounted :=
    { full := smallMap_full 1023 (mask 18)
      sized := by decide
      bounds := fun i free => by
        have only : (smallMap 1023 (mask 18)).free i = true := free
        rw [smallMap_bit _ (by decide), decide_eq_true_eq] at only
        subst only
        decide
      device := by decide
      unused := (smallMap_count 1023 (show 18 < WORD_BITS by decide)).symm }
  nodes := by decide
  files := by
    intro file inside
    have : file = (3, tallInode) ∨ file = (1, emptyInode SFS_TYPE_DIR) := by
      simpa [files, tallDisk, fileOf, SFS_BLKN_ROOT] using inside
    rcases this with rfl | rfl
    · exact tallInode_ok
    · exact emptyInode_ok _ _
  range := by decide +kernel
  inuse := by decide +kernel
  nodup := by decide +kernel
  stored := by simp

theorem tallInode_fits : tallInode.Fits := by
  refine ⟨by decide, by decide, by decide, by decide, rfl, by decide, by decide⟩

theorem tallDisk_initial : Initial [] 0 tallDisk where
  consistent := tallDisk_inv
  member := by decide
  fits := tallInode_fits
  written _ := by decide +kernel

/-- One more block is added, and the inode is written back. -/
theorem writtenBack_tallDisk : ∃ s t, Reachable (Initial [] 0) (Step (fun s c => Sound s 0 c) 0) s ∧
    (s.nodes 0).din.blocks = 14 ∧ Written s 0 ∧ sfsFsync 0 (withFaults s []) = .ok (.ok (), t) ∧ OnDisk t 0 := by
  have played : (exec 0 (.truncate (14 * SFS_BLKSIZE)) (withFaults tallDisk [])).map (fun outcome =>
      (outcome.1, (outcome.2.nodes 0).din.blocks, (sfsFsync 0 (withFaults outcome.2 [])).map Prod.fst)) =
        .ok (.ok (), 14, .ok (.ok ())) := by
    decide +kernel
  cases run : exec 0 (.truncate (14 * SFS_BLKSIZE)) (withFaults tallDisk []) with
  | error p => simp [run, Except.map] at played
  | ok outcome =>
      obtain ⟨result, s⟩ := outcome
      rw [run] at played
      obtain ⟨rfl, blocks, synced⟩ : result = .ok () ∧ (s.nodes 0).din.blocks = 14 ∧
          (sfsFsync 0 (withFaults s [])).map Prod.fst = .ok (.ok ()) := by
        simpa [Except.map] using played
      cases saved : sfsFsync 0 (withFaults s []) with
      | error p => simp [saved, Except.map] at synced
      | ok outcome =>
          obtain ⟨result, t⟩ := outcome
          rw [saved] at synced
          obtain rfl := Except.ok.inj synced
          have sound : Sound (withFaults tallDisk []) 0 (.truncate (14 * SFS_BLKSIZE)) :=
            .inr (.inr (.inr (.inr (.inl (by decide)))))
          have reached : Reachable (Initial [] 0) (Step (fun s c => Sound s 0 c) 0) s :=
            .next (.start tallDisk_initial) ⟨_, [], sound, _, run⟩
          obtain ⟨written, saves⟩ := writtenBack reached
          exact ⟨s, t, reached, blocks, written, saved, (saves [] t saved).1⟩

/-- Of two more blocks there is one. The file keeps it, and neither is its new count of blocks on
    the disk nor is the inode marked. -/
theorem tallDisk_unwritten : ∃ t, Reachable (Initial [] 0) (Step (fun _ _ => True) 0) t ∧
    exec 0 (.truncate (15 * SFS_BLKSIZE)) (withFaults tallDisk []) = .ok (.error .noMem, t) ∧
    (t.nodes 0).din.blocks = 14 ∧ ¬Written t 0 := by
  have played : (exec 0 (.truncate (15 * SFS_BLKSIZE)) (withFaults tallDisk [])).map (fun outcome =>
      (outcome.1, (outcome.2.nodes 0).din.blocks, (outcome.2.nodes 0).dirty, decide (OnDisk outcome.2 0))) =
        .ok (.error .noMem, 14, false, false) := by
    decide +kernel
  cases run : exec 0 (.truncate (15 * SFS_BLKSIZE)) (withFaults tallDisk []) with
  | error p => simp [run, Except.map] at played
  | ok outcome =>
      obtain ⟨result, t⟩ := outcome
      rw [run] at played
      simp only [Except.map, Except.ok.injEq, Prod.mk.injEq, decide_eq_false_iff_not] at played
      obtain ⟨rfl, blocks, clean, differs⟩ := played
      exact ⟨t, .next (.start tallDisk_initial) ⟨_, [], trivial, _, run⟩, rfl, blocks,
        fun written => differs (written clean)⟩

end Ucore.Fs.WriteBack
