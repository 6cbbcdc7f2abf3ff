import Ucore.Fs.Syncing

/-! # Sync, and mount again

Files are loaded, resized, written back and let go of, with device operations failing and
free blocks running out. When `sfs_sync` returns 0 at the end, a mount of the device gives
back what was in memory, unless an inode could not be written: that, the sync does not tell.
-/

namespace Ucore.Fs.SyncRuns

open Lib.Bytes Lib.Run Lib.Program Lib.Program.Prog Error Bitmaps Sfs SfsIo SfsInode InodeCalls SfsMount Ownership
  BlockSpecs Mounting Volumes Syncing Truncfile
open WriteBack (OnDisk Written Marks)
open TruncRuns (withFaults)
open OwnershipRuns (smallMap smallMap_bit smallMap_full smallMap_count emptyInode emptyInode_ok)

/-- A mount of the device has the superblock and the freemap again, and each inode when it is loaded. -/
def Restored (s : SfsFs) (dev : Device) : Prop :=
  ∃ u, mount dev [] = .ok (.ok (), u) ∧ u.super = s.super ∧ u.freemap = s.freemap ∧
    ∀ p ∈ s.inodeList, ∃ q v, sfsLoadInode (s.nodes p).ino u = .ok (.ok q, v) ∧ (v.nodes q).din = (s.nodes p).din

variable {s t u : SfsFs} {vol : Volume} {others : List (Nat × DiskInode)} {held : List Nat} {p ino : Nat}
variable {inos : List Nat} {allowed : Panic → Prop}

/-! ## Mounting what has been synced -/

theorem bitmap_ext {a b : Bitmap} (left : a.Full) (right : b.Full) (nbits : a.nbits = b.nbits)
    (free : ∀ i < b.nbits, a.free i = b.free i) : a = b := by
  have length : a.map.length = b.map.length := by
    rw [Bitmap.Full] at left right
    exact Nat.eq_of_mul_eq_mul_right (by decide : 0 < WORD_BITS) (by omega)
  have map : a.map = b.map := by
    refine List.ext_getElem length fun i low high => BitVec.eq_of_getLsbD_eq fun k small => ?_
    have words : WORD_BITS = 32 := rfl
    have inside : i * WORD_BITS + k < b.nbits := by
      rw [right, words]
      omega
    have same := free _ inside
    rwa [Bitmap.free, Bitmap.free, show (i * WORD_BITS + k) / WORD_BITS = i by rw [words]; omega,
      show (i * WORD_BITS + k) % WORD_BITS = k by rw [words]; omega, List.getD_eq_getElem _ _ low,
      List.getD_eq_getElem _ _ high] at same
  cases a
  cases b
  simp only at nbits map
  rw [nbits, map]

theorem mount_again (inv : Inv t others held) (valid : Valid t.super) (layout : LayoutOnDisk t) :
    ∃ u, mount t.dev [] = .ok (.ok (), u) ∧ Fresh t.dev u ∧ u.super = t.super ∧ u.freemap = t.freemap := by
  have super := layout.super
  have magic : (superOf t.dev).magic = SFS_MAGIC := by
    rw [show (superOf t.dev).magic = (endInfo (superOf t.dev)).magic from rfl, super]
    exact valid.magic
  have blocks : (superOf t.dev).blocks = t.super.blocks := by
    rw [show (superOf t.dev).blocks = (endInfo (superOf t.dev)).blocks from rfl, super]
  have unused : (superOf t.dev).unusedBlocks = t.super.unusedBlocks := by
    rw [show (superOf t.dev).unusedBlocks = (endInfo (superOf t.dev)).unusedBlocks from rfl, super]
  have bits : freemapBits (superOf t.dev) = t.freemap.nbits := by
    rw [inv.mounted.sized, freemapBits, freemapBlocks, blocks]
  have some := (layout_inside inv (b := SFS_BLKN_SUPER) List.mem_cons_self).1
  have nonzero : (superOf t.dev).blocks ≠ 0 := by
    rw [blocks]
    exact Nat.ne_of_gt (Nat.lt_of_le_of_lt (Nat.zero_le _) some)
  have device := inv.mounted.device
  have mapped : Mapped t.dev := by
    have positive : 0 < freemapBlocks t.super := by
      have bits : SFS_BLKBITS = 32768 := rfl
      rw [freemapBlocks, bits]
      omega
    have last : SFS_BLKN_FREEMAP + (freemapBlocks t.super - 1) ∈ Ownership.layout t.super :=
      List.mem_cons_of_mem _ (List.mem_range'_1.mpr ⟨Nat.le_add_right _ _, by omega⟩)
    have inside := (layout_inside inv last).2
    rw [Mapped, freemapBlocks, blocks]
    rw [freemapBlocks] at inside positive
    omega
  have count : diskCount t.dev = (superOf t.dev).unusedBlocks := by
    rw [unused, inv.mounted.unused, Bitmap.freeCount, diskCount, bits, Nat.count_eq_card_filter_range,
      Nat.count_eq_card_filter_range]
    refine congrArg Finset.card (Finset.filter_congr fun i inside => ?_)
    rw [layout.free i (Finset.mem_range.mp inside)]
  have known : Known t.dev := ⟨by omega, magic, by rw [blocks]; exact device⟩
  obtain ⟨u, run, fresh⟩ := mount_fresh known nonzero mapped count
  refine ⟨u, run, fresh, fresh.super.trans super, bitmap_ext fresh.full inv.mounted.full (fresh.nbits.trans bits)
    fun i inside => ?_⟩
  rw [fresh.free i (bits ▸ inside), layout.free i inside]

/-- An inode that is not in memory is what its block says. -/
theorem load_fresh (fresh : Fresh s.dev u) (super : u.super = s.super) (freemap : u.freemap = s.freemap)
    (mounted : Mounted s) (nonzero : ino ≠ 0) (inside : ino < s.super.blocks) (taken : s.freemap.free ino = false)
    {din : DiskInode} (stored : DiskInode.ofBytes (slice (s.dev.blocks ino) 0 DiskInode.sizeof) = din)
    (odd : din.nlinks = 0 ∨ ¬ Regular din → allowed .assertion) :
    Spec allowed (sfsLoadInode ino) u (fun q v => (v.nodes q).din = din) fun _ _ => False := by
  have works := fresh.faults
  have mounted' : Mounted u := by
    refine ⟨?_, ?_, ?_, ?_, ?_⟩
    · exact fresh.full
    · rw [freemap, super]
      exact mounted.sized
    · rw [freemap, super]
      exact mounted.bounds
    · rw [super, fresh.device]
      exact mounted.device
    · rw [freemap, super]
      exact mounted.unused
  have quiet : ¬ u.faults.headD false = true := by simp [works]
  simp only [sfsLoadInode, lookupSfsNolock, spec_bind, spec_get, fresh.inodeList, List.find?_nil, spec_pure]
  refine attempt_quiet works (assertInuse_spec mounted' nonzero (super ▸ inside) (freemap ▸ taken) ?_)
  refine sfsRbuf_due (by decide) nonzero (super ▸ inside) mounted'.device (fun fault => absurd fault quiet) ?_
  rw [fresh.device, stored, tick_quiet works, spec_ensure]
  refine ⟨fun _ => ?_, fun unlinked => odd (.inl (by simpa using unlinked))⟩
  simp only [sfsCreateInode, spec_bind, spec_get, spec_modify, spec_pure]
  refine attempt_quiet works ?_
  rw [spec_ensure]
  refine ⟨fun _ => ?_, fun other => odd (.inr other)⟩
  rw [Function.update_self]

theorem restored_iff (holds : Holds s vol) (linked : ∀ file ∈ vol.files, file.2.nlinks ≠ 0) (valid : Valid s.super)
    (synced : Synced vol s t) :
    Restored s t.dev ↔ ∀ p ∈ s.inodeList, OnDisk s p ∨ p ∈ writeBacks s s.inodeList s.faults := by
  obtain ⟨others, held, inv, -⟩ := synced.holds.inv
  obtain ⟨u, run, fresh, super, freemap⟩ := mount_again inv (synced.super ▸ valid) synced.layout
  have loads : ∀ p ∈ s.inodeList, ∀ {allowed : Panic → Prop} {din : DiskInode},
      DiskInode.ofBytes (slice (t.dev.blocks (s.nodes p).ino) 0 DiskInode.sizeof) = din →
      (din.nlinks = 0 ∨ ¬ Regular din → allowed .assertion) →
      Spec allowed (sfsLoadInode (s.nodes p).ino) u (fun q v => (v.nodes q).din = din) fun _ _ => False := by
    intro p member allowed din stored odd
    have member := synced.inodeList ▸ member
    have ino : (t.nodes p).ino = (s.nodes p).ino := congrArg Prod.fst (synced.files p)
    have mine : (s.nodes p).ino ∈ ownedBy t.dev.blocks (fileOf (t.nodes p)) := ino ▸ List.mem_cons_self
    obtain ⟨nonzero, inside, taken⟩ := inv.inuse_of_file (fileOf_mem member) mine
    exact load_fresh fresh super freemap inv.mounted nonzero inside taken stored odd
  have onDisk : ∀ p, OnDisk t p ↔
      DiskInode.ofBytes (slice (t.dev.blocks (s.nodes p).ino) 0 DiskInode.sizeof) = (s.nodes p).din := by
    intro p
    have same := synced.files p
    rw [fileOf, fileOf, Prod.mk.injEq] at same
    rw [OnDisk, same.1, same.2]
  constructor
  · rintro ⟨u', run', -, -, back⟩ p member
    rw [run] at run'
    obtain rfl : u = u' := by simpa using run'
    obtain ⟨q, v, loaded, din⟩ := back p member
    rw [← synced.onDisk p member, onDisk, ← din]
    have spec := @loads p member (fun _ => True) _ rfl fun _ => trivial
    exact (spec.value loaded).symm
  · intro written
    refine ⟨u, run, super.trans synced.super, freemap.trans synced.freemap, fun p member => ?_⟩
    have stored := (onDisk p).mp ((synced.onDisk p member).mpr (written p member))
    refine (loads p member stored fun odd => ?_).returns
    exact odd.elim (linked _ (holds.mem_files member)) fun other => other (holds.kinds p member)

/-! ## Runs -/

/-- What is done with inodes, each given by its number, or by its place in memory. -/
inductive Call where
  | load (ino : Nat)
  | refInc (p : Nat)
  | refDec (p : Nat)
  | truncate (p : Nat) (len : Int)
  | seek (p : Nat) (pos : Int)
  | io (p : Nat) (offset : Int) (len : Nat) (write : Bool)
  | fsync (p : Nat)
  | sync
  deriving DecidableEq, Repr

def exec : Call → Op SfsFs Unit
  | .load ino => do
      let _ ← sfsLoadInode ino
      pure ()
  | .refInc p => inodeRefInc p
  | .refDec p => inodeRefDec p
  | .truncate p len => sfsTruncfile p len
  | .seek p pos => sfsTryseek p pos
  | .io p offset len write => sfsIoNolock p offset len write
  | .fsync p => sfsFsync p
  | .sync => sfsSync

/-- The inode to load is one of the volume, and the caller has a reference to any other. -/
def Legal (inos : List Nat) (s : SfsFs) : Call → Prop
  | .load ino => ino ∈ inos
  | .refInc p | .refDec p | .truncate p _ | .seek p _ | .io p _ _ _ | .fsync p => 0 < refs s p
  | .sync => True

/-- A file that grows is marked, or no block is moved. -/
def Sound (s : SfsFs) : Call → Prop
  | .truncate p len => (len < 0 ∨ SFS_MAX_FILE_SIZE < len) ∨ Marks s p len.toNat
  | .seek p pos => (pos < 0 ∨ SFS_MAX_FILE_SIZE ≤ pos) ∨ pos ≤ (s.nodes p).din.size ∨ Marks s p pos.toNat
  | _ => True

/-- A call that has come to an end. The list says which operations of the device and which
    allocations of memory fail. -/
def Step (inos : List Nat) (s t : SfsFs) : Prop :=
  ∃ c faults, Legal inos s c ∧ Sound (withFaults s faults) c ∧ ∃ result, exec c (withFaults s faults) = .ok (result, t)

/-- A file system that has just been mounted, with all its inodes on the disk. -/
structure Initial (inos : List Nat) (s : SfsFs) : Prop where
  mounted : ∃ dev, mount dev [] = .ok (.ok (), s)
  consistent : ∃ others, Inv s others [] ∧ others.map Prod.fst = inos ∧ ∀ file ∈ others, file.2.nlinks ≠ 0

/-- A consistent file system with these inodes. The superblock and the freemap are on the disk
    or marked. -/
structure Consistent (inos : List Nat) (s : SfsFs) : Prop where
  holds : ∃ vol, Holds s vol ∧ (∀ ino ∈ inos, ∃ din, (ino, din) ∈ vol.files) ∧ ∀ file ∈ vol.files, file.2.nlinks ≠ 0
  valid : Valid s.super
  clean : s.superDirty = false → LayoutOnDisk s

/-- Some volume is held. -/
theorem holds_files (inv : Inv s others held) (fresh : ∀ p ∈ s.inodeList, p < s.nextNode)
    (kinds : ∀ p ∈ s.inodeList, Regular (s.nodes p).din)
    (counted : ∀ p ∈ s.inodeList, 0 < (s.nodes p).refCount → 0 < (s.nodes p).reclaimCount)
    (written : ∀ p ∈ s.inodeList, Written s p) (fits : ∀ p ∈ s.inodeList, (s.nodes p).din.Fits) :
    ∃ data, Holds s ⟨files s others, data⟩ := by
  refine ⟨fun ino => ((files s others).find? fun file => file.1 = ino).elim [] fun file =>
    fileData s.dev.blocks file.2, ⟨others, held, inv, List.Perm.refl _⟩, fresh, kinds, counted, written, fits,
    fun file inside => ?_⟩
  simp only
  cases search : (files s others).find? fun other => other.1 = file.1 with
  | none =>
      rw [List.find?_eq_none] at search
      exact absurd (decide_eq_true rfl) (search file inside)
  | some other =>
      have same : other.1 = file.1 := by simpa using List.find?_some search
      have known := List.mem_of_find?_eq_some search
      rw [Option.elim_some, List.inj_on_of_nodup_map (names inv) known inside same]

theorem Initial.sane (initial : Initial inos s) : Consistent inos s := by
  obtain ⟨dev, run⟩ := initial.mounted
  obtain ⟨others, inv, names, linked⟩ := initial.consistent
  obtain ⟨known, -, -, -, fresh⟩ := (sfsDoMount_spec dev).value run
  have empty : ∀ {P : Nat → Prop}, ∀ p ∈ s.inodeList, P p := by
    rw [fresh.inodeList]
    intro P p inside
    cases inside
  have all : files s others = others := by rw [files, fresh.inodeList, List.map_nil, List.nil_append]
  obtain ⟨data, holds⟩ := holds_files inv empty empty empty empty empty
  refine ⟨⟨_, holds, fun ino inside => ?_, fun file inside => ?_⟩, ⟨?_, ?_, ?_⟩, fun _ => ⟨?_, ?_⟩⟩
  · rw [← names] at inside
    obtain ⟨file, known, rfl⟩ := List.mem_map.mp inside
    exact ⟨file.2, by rw [all]; exact known⟩
  · rw [all] at inside
    exact linked file inside
  · rw [fresh.super]
    exact known.magic
  · rw [fresh.super, endInfo, List.length_set]
    simp [superOf, Super.ofBytes, part, Super.size, SFS_MAX_INFO_LEN]
  · rw [fresh.super, endInfo, endInfo]
    simp
  · rw [fresh.device, fresh.super]
  · rw [fresh.device, fresh.nbits]
    exact fun i inside => (fresh.free i inside).symm

/-! ## One call -/

theorem Consistent.onward {counts : Nat → Nat} (consistent : Consistent inos s) (holds : Holds s vol)
    (names : ∀ ino ∈ inos, ∃ din, (ino, din) ∈ vol.files) (linked : ∀ file ∈ vol.files, file.2.nlinks ≠ 0)
    (now : Now vol s counts t) : Consistent inos t := by
  obtain ⟨others, held, inv, -⟩ := holds.inv
  have onward := now.onward
  refine ⟨⟨vol, now.holds, names, linked⟩, onward.super ▸ consistent.valid, fun unmarked => ?_⟩
  exact (consistent.clean (onward.superDirty ▸ unmarked)).congr inv.mounted onward.super onward.freemap onward.disk

theorem Consistent.withFaults (consistent : Consistent inos s) (faults : List Bool) :
    Consistent inos (withFaults s faults) := by
  obtain ⟨vol, holds, names, linked⟩ := consistent.holds
  exact ⟨⟨vol, holds.withFaults faults, names, linked⟩, consistent.valid, fun unmarked =>
    ⟨(consistent.clean unmarked).super, (consistent.clean unmarked).free⟩⟩

/-- Of the inodes in memory, one has changed, in its size and in its blocks. -/
structure Touched (others : List (Nat × DiskInode)) (p : Nat) (s t : SfsFs) : Prop where
  frame : Frame others s t
  nodes : ∃ node', t.nodes = Function.update s.nodes p node' ∧ node'.din.type = (s.nodes p).din.type ∧
    node'.din.nlinks = (s.nodes p).din.nlinks ∧ node'.refCount = (s.nodes p).refCount ∧
    node'.reclaimCount = (s.nodes p).reclaimCount

theorem Touched.refl (others : List (Nat × DiskInode)) (p : Nat) (s : SfsFs) : Touched others p s s :=
  ⟨Frame.refl _ _, s.nodes p, (Function.update_eq_self p s.nodes).symm, rfl, rfl, rfl, rfl⟩

theorem sfsTruncfile_touched {len : Int} (inv : Inv s others held) (member : p ∈ s.inodeList) :
    Spec (fun p => p = .range ∨ p = .blocks) (sfsTruncfile p len) s (fun _ t => Touched others p s t)
      fun _ t => Touched others p s t := by
  refine sfsTruncfile_spec inv member (.inr (.inl rfl)) (fun _ => .inr (.inr rfl)) (Touched.refl others p s)
    (fun _ => Touched.refl others p s) (fun t settled _ => ?_) fun _ t broken => ?_
  · obtain ⟨node', nodes, -, -, -, type, nlinks, refCount, reclaimCount, -, -⟩ := settled.nodes
    exact ⟨settled.frame, node', nodes, type, nlinks, refCount, reclaimCount⟩
  · cases broken with
    | growing moved below more stopped =>
        obtain ⟨node', nodes, resized, -⟩ := more.nodes
        exact ⟨more.frame, node', nodes, resized.type, resized.nlinks, resized.refCount, resized.reclaimCount⟩
    | shrinking moved above less stopped =>
        obtain ⟨node', nodes, resized, -⟩ := less.nodes
        exact ⟨less.frame, node', nodes, resized.type, resized.nlinks, resized.refCount, resized.reclaimCount⟩

theorem Touched.consistent (consistent : Consistent inos s) (holds : Holds s vol)
    (names : ∀ ino ∈ inos, ∃ din, (ino, din) ∈ vol.files) (linked : ∀ file ∈ vol.files, file.2.nlinks ≠ 0)
    (inv : Inv s others held) (perm : (files s others).Perm vol.files) (touched : Touched others p s t)
    (good : WriteBack.Good others p t) : Consistent inos t := by
  obtain ⟨node', nodes, type, nlinks, refCount, reclaimCount⟩ := touched.nodes
  have frame := touched.frame
  obtain ⟨held', inv'⟩ := good.inv
  have member : p ∈ s.inodeList := frame.inodeList ▸ good.member
  have other : ∀ q, q ≠ p → t.nodes q = s.nodes q := fun q ne => by rw [nodes, Function.update_of_ne ne]
  -- What holds of every inode is shown for the one that has changed, and of the others it did before.
  have each : ∀ {P : SfsInode → Prop}, P (t.nodes p) → (∀ q ∈ s.inodeList, P (s.nodes q)) →
      ∀ q ∈ t.inodeList, P (t.nodes q) := by
    intro P changed rest q inside
    by_cases here : q = p
    · rwa [here]
    · rw [other q here]
      exact rest q (frame.inodeList ▸ inside)
  have new : t.nodes p = node' := by rw [nodes, Function.update_self]
  obtain ⟨data, holds'⟩ := holds_files inv' (by rw [frame.inodeList, frame.nextNode]; exact holds.fresh)
    (each (P := fun node => Regular node.din) (by rw [new, Regular, type]; exact holds.kinds p member) holds.kinds)
    (each (P := fun node => 0 < node.refCount → 0 < node.reclaimCount)
      (by rw [new, refCount, reclaimCount]; exact holds.counted p member) holds.counted)
    (fun q inside => by
      by_cases here : q = p
      · rw [here]
        exact good.written
      · have inside := frame.inodeList ▸ inside
        intro clean
        rw [other q here] at clean
        exact (holds.written q inside clean).frame inside frame (other q here))
    (each (P := fun node => node.din.Fits) good.fits holds.fits)
  refine ⟨⟨_, holds', fun ino inside => ?_, fun file inside => ?_⟩, ?_, fun unmarked => ?_⟩
  · obtain ⟨din, known⟩ := names ino inside
    rcases List.mem_append.mp (perm.mem_iff.mpr known) with memory | disk
    · obtain ⟨q, inside, same⟩ := List.mem_map.mp memory
      have number : (t.nodes q).ino = ino := (frame.inos q).trans (congrArg Prod.fst same)
      exact ⟨(t.nodes q).din, number ▸ fileOf_mem (frame.inodeList.symm ▸ inside)⟩
    · exact ⟨din, List.mem_append_right _ disk⟩
  · rcases List.mem_append.mp inside with memory | disk
    · obtain ⟨q, known, rfl⟩ := List.mem_map.mp memory
      refine each (P := fun node => node.din.nlinks ≠ 0) ?_ (fun q inside => linked _ (holds.mem_files inside)) q known
      rw [new, nlinks]
      exact linked _ (holds.mem_files member)
    · exact linked file (perm.mem_iff.mp (List.mem_append_right _ disk))
  · have valid := consistent.valid
    rw [frame.super]
    refine ⟨valid.magic, valid.info, ?_⟩
    exact congrArg (fun super => { super with unusedBlocks := t.super.unusedBlocks }) valid.ends
  · rcases frame.clean with marked | ⟨same, freemap, super⟩
    · rw [marked] at unmarked
      cases unmarked
    · refine (consistent.clean (same ▸ unmarked)).congr inv.mounted super freemap fun b inside => ?_
      exact frame.disk b (List.mem_append_left _ inside)

variable {E : Err → SfsFs → Prop}

theorem sfsTruncfile_consistent {len : Int} (consistent : Consistent inos s) (member : p ∈ s.inodeList)
    (sound : (len < 0 ∨ SFS_MAX_FILE_SIZE < len) ∨ Marks s p len.toNat) :
    Spec (fun _ => True) (sfsTruncfile p len) s (fun _ t => Consistent inos t) fun _ t => Consistent inos t := by
  obtain ⟨vol, holds, names, linked⟩ := consistent.holds
  obtain ⟨others, held, inv, perm⟩ := holds.inv
  have good : WriteBack.Good others p s := ⟨⟨held, inv⟩, member, holds.fits p member, holds.written p member⟩
  have both := (WriteBack.sfsTruncfile_good good sound).and (sfsTruncfile_touched inv member)
  have keeps : ∀ t, WriteBack.Good others p t ∧ Touched others p s t → Consistent inos t := fun t changed =>
    changed.2.consistent consistent holds names linked inv perm changed.1
  exact (both.mono (fun _ t => keeps t) fun _ t => keeps t).stops fun _ _ => trivial

/-- A write behind the end sets the size. -/
theorem sfsIoNolock_consistent {offset : Int} {len : Nat} {write : Bool} (consistent : Consistent inos s)
    (member : p ∈ s.inodeList) : Spec (fun _ => True) (sfsIoNolock p offset len write) s
      (fun _ t => Consistent inos t) fun _ t => Consistent inos t := by
  obtain ⟨vol, holds, names, linked⟩ := consistent.holds
  obtain ⟨others, held, inv, perm⟩ := holds.inv
  simp only [sfsIoNolock, spec_bind, spec_get, spec_ensure, spec_ite, spec_throw, spec_pure, spec_modify]
  refine ⟨fun _ => ⟨fun _ => consistent, fun inside => ⟨fun _ => consistent, fun _ => ?_⟩⟩, fun _ => trivial⟩
  refine ⟨fun _ => ?_, fun _ => consistent⟩
  have small : offset.toNat < 2 ^ 32 := by
    simp only [SFS_MAX_FILE_SIZE] at inside
    omega
  have fits := holds.fits p member
  refine Touched.consistent (p := p) consistent holds names linked inv perm
    ⟨Frame.setNode rfl, _, rfl, rfl, rfl, rfl, rfl⟩ ⟨⟨held, inv_setSize inv member _⟩, member, ?_, fun clean => ?_⟩
  · rw [setNode_self]
    exact ⟨small, fits.type, fits.nlinks, fits.blocks, fits.direct, fits.slots, fits.indirect⟩
  · rw [setNode_self] at clean
    cases clean

theorem exec_consistent {c : Call} (consistent : Consistent inos s) (legal : Legal inos s c) (sound : Sound s c) :
    Spec (fun _ => True) (exec c) s (fun _ t => Consistent inos t) fun _ t => Consistent inos t := by
  obtain ⟨vol, holds, names, linked⟩ := consistent.holds
  have keeps : ∀ {counts : Nat → Nat} {t : SfsFs}, Now vol s counts t → Consistent inos t :=
    consistent.onward holds names linked
  cases c with
  | load ino =>
      obtain ⟨din, inside⟩ := names ino legal
      rw [exec, spec_bind]
      exact sfsLoadInode_spec holds inside (linked _ inside) (fun _ => trivial) (fun _ _ _ now _ => keeps now)
        fun _ _ now _ _ => keeps now
  | refInc p => exact inodeRefInc_spec holds legal fun _ => keeps
  | refDec p =>
      exact inodeRefDec_spec holds legal (linked _ (holds.mem_files (mem_of_refs legal))) fun _ => keeps
  | truncate p len => exact sfsTruncfile_consistent consistent (mem_of_refs legal) sound
  | seek p pos =>
      rw [exec, sfsTryseek]
      simp only [spec_ite, spec_throw, spec_bind, spec_get, spec_pure]
      refine ⟨fun _ => consistent, fun accepted => ⟨fun behind => ?_, fun _ => consistent⟩⟩
      refine sfsTruncfile_consistent consistent (mem_of_refs legal) (.inr ?_)
      rcases sound with refused | inside | marks
      · exact absurd refused accepted
      · omega
      · exact marks
  | io p offset len write => exact sfsIoNolock_consistent consistent (mem_of_refs legal)
  | fsync p =>
      have member := mem_of_refs legal
      refine sfsFsync_due holds member (fun _ => consistent) (fun _ _ => keeps (now_saved holds member)) fun _ _ => ?_
      exact consistent.withFaults _
  | sync =>
      refine sfsSync_spec holds consistent.valid consistent.clean (fun _ t held same marked => ?_) fun t synced => ?_
      · refine ⟨⟨vol, held, names, linked⟩, same ▸ consistent.valid, fun unmarked => ?_⟩
        rw [marked] at unmarked
        cases unmarked
      · exact ⟨⟨vol, synced.holds, names, linked⟩, synced.super ▸ consistent.valid, fun _ => synced.layout⟩

theorem reached_consistent (run : Reachable (Initial inos) (Step inos) s) : Consistent inos s := by
  refine run.invariant (Consistent inos) (fun _ => Initial.sane) ?_
  rintro s t consistent ⟨c, faults, legal, sound, result, run⟩
  have legal' : Legal inos (withFaults s faults) c := by cases c <;> exact legal
  have spec := exec_consistent (consistent.withFaults faults) legal' sound
  cases result with
  | ok value => exact spec.value run
  | error e => exact spec.error run

theorem consistent_restored (consistent : Consistent inos s) {faults : List Bool}
    (synced : sfsSync (withFaults s faults) = .ok (.ok (), t)) :
    Restored s t.dev ↔ ∀ p ∈ s.inodeList, OnDisk s p ∨ p ∈ writeBacks s s.inodeList faults := by
  have consistent := consistent.withFaults faults
  obtain ⟨vol, holds, -, linked⟩ := consistent.holds
  have spec : Spec (fun _ => True) sfsSync (withFaults s faults) (fun _ t => Synced vol (withFaults s faults) t)
      fun _ _ => True :=
    sfsSync_spec holds consistent.valid consistent.clean (fun _ _ _ _ _ => trivial) fun _ => id
  have same := restored_iff holds linked consistent.valid (spec.value synced)
  have unchanged : writeBacks (withFaults s faults) s.inodeList faults = writeBacks s s.inodeList faults :=
    writeBacks_congr (s := s) (t := withFaults s faults) (fun _ _ => rfl) faults
  rw [← unchanged]
  exact same

/-- When a sync returns 0, a mount gives back what was in memory if and only if each inode is on
    the disk already, or is marked and its block can be read and written. -/
theorem sync_restores_iff (run : Reachable (Initial inos) (Step inos) s) (faults : List Bool)
    (synced : sfsSync (withFaults s faults) = .ok (.ok (), t)) :
    Restored s t.dev ↔ ∀ p ∈ s.inodeList, OnDisk s p ∨ p ∈ writeBacks s s.inodeList faults :=
  consistent_restored (reached_consistent run) synced

/-! ## An inode that is not written -/

def fiveSuper : Super := ⟨SFS_MAGIC, 5, 1, List.replicate 32 0⟩

/-- Superblock, root directory, freemap, an empty file, and one free block, just mounted. -/
def fiveDisk : SfsFs where
  super := fiveSuper
  dev := ⟨6, fun b => if b = SFS_BLKN_SUPER then patch zeros 0 fiveSuper.bytes
    else if b = SFS_BLKN_ROOT then patch zeros 0 (emptyInode SFS_TYPE_DIR).bytes
    else if b = SFS_BLKN_FREEMAP then freemapBlock (smallMap 1023 (mask 4)) 0
    else if b = 3 then patch zeros 0 (emptyInode SFS_TYPE_FILE).bytes else zeros, by decide⟩
  freemap := smallMap 1023 (mask 4)
  superDirty := false
  inodeList := []
  nodes _ := ⟨⟨0, 0, 0, 0, [], 0⟩, 0, false, 0, 0⟩
  nextNode := 0
  faults := []

theorem fiveDisk_inv : Inv fiveDisk [(1, emptyInode SFS_TYPE_DIR), (3, emptyInode SFS_TYPE_FILE)] [] where
  mounted :=
    { full := smallMap_full 1023 (mask 4)
      sized := by decide
      bounds := fun i free => by
        have only : (smallMap 1023 (mask 4)).free i = true := free
        rw [smallMap_bit _ (by decide), decide_eq_true_eq] at only
        subst only
        decide
      device := by decide
      unused := (smallMap_count 1023 (show 4 < WORD_BITS by decide)).symm }
  nodes := by decide
  files := by
    intro file inside
    have known : file = (1, emptyInode SFS_TYPE_DIR) ∨ file = (3, emptyInode SFS_TYPE_FILE) := by
      simpa [files, fiveDisk] using inside
    rcases known with rfl | rfl <;> exact emptyInode_ok _ _
  range := by decide +kernel
  inuse := by decide +kernel
  nodup := by decide +kernel
  stored := by decide +kernel

theorem mount_fiveDisk : mount fiveDisk.dev [] = .ok (.ok (), fiveDisk) := by
  have valid : Valid fiveDisk.super := ⟨rfl, rfl, by decide⟩
  have layout : LayoutOnDisk fiveDisk := by
    have written : ∀ i < 1, fiveDisk.dev.blocks (SFS_BLKN_FREEMAP + i) = freemapBlock (smallMap 1023 (mask 4)) i := by
      intro i first
      rw [Nat.lt_one_iff.mp first]
      rfl
    refine ⟨?_, fun i inside => diskFree_freemapBlock written inside⟩
    rw [superOf_written (valid.fits fiveDisk_inv.mounted) rfl]
    decide
  obtain ⟨u, run, fresh, super, freemap⟩ := mount_again fiveDisk_inv valid layout
  have same : u = fiveDisk :=
    calc u = ⟨u.super, u.dev, u.freemap, u.superDirty, u.inodeList, u.nodes, u.nextNode, u.faults⟩ := rfl
      _ = fiveDisk := by
        rw [super, fresh.device, freemap, fresh.superDirty, fresh.inodeList, fresh.nodes, fresh.nextNode, fresh.faults]
        rfl
  subst same
  exact run

theorem fiveDisk_initial : Initial [1, 3] fiveDisk :=
  ⟨⟨_, mount_fiveDisk⟩, _, fiveDisk_inv, rfl, by decide⟩

/-- The state after a call. -/
def after (c : Call) (s : SfsFs) (faults : List Bool) : SfsFs :=
  match exec c (withFaults s faults) with
  | .ok (_, t) => t
  | .error _ => s

theorem exec_after {c : Call} {faults : List Bool} {result : Except Err Unit}
    (ends : (exec c (withFaults s faults)).map Prod.fst = .ok result) :
    exec c (withFaults s faults) = .ok (result, after c s faults) := by
  rw [after]
  cases run : exec c (withFaults s faults) with
  | error p => simp [run, Except.map] at ends
  | ok outcome =>
      rw [run] at ends
      rw [← Except.ok.inj ends]

/-- The file is loaded, and gets a block. -/
def grown : SfsFs := after (.truncate 0 4096) (after (.load 3) fiveDisk []) []

theorem grown_reached : Reachable (Initial [1, 3]) (Step [1, 3]) grown := by
  have loaded : Step [1, 3] fiveDisk (after (.load 3) fiveDisk []) :=
    ⟨.load 3, [], (by decide : 3 ∈ [1, 3]), trivial, .ok (), exec_after (by decide +kernel)⟩
  have small : Sound (withFaults (after (.load 3) fiveDisk []) []) (.truncate 0 4096) :=
    Or.inr (Or.inr (Or.inl (by decide +kernel)))
  have truncated : Step [1, 3] (after (.load 3) fiveDisk []) grown :=
    ⟨.truncate 0 4096, [], (by decide +kernel : 0 < refs (after (.load 3) fiveDisk []) 0), small, .ok (),
      exec_after (by decide +kernel)⟩
  exact .next (.next (.start fiveDisk_initial) loaded) truncated

/-- The block of the inode cannot be read. The inode stays marked, and the next sync writes it. -/
theorem sync_restores_iff_again : ∃ s t, Reachable (Initial [1, 3]) (Step [1, 3]) s ∧
    (s.nodes 0).din.blocks = 1 ∧ ¬ OnDisk s 0 ∧ sfsSync (withFaults s []) = .ok (.ok (), t) ∧ Restored s t.dev := by
  have failed : Step [1, 3] grown (after .sync grown [true]) :=
    ⟨.sync, [true], trivial, trivial, .ok (), exec_after (by decide +kernel)⟩
  have run := grown_reached.next failed
  have synced : sfsSync (withFaults (after .sync grown [true]) []) =
      .ok (.ok (), after .sync (after .sync grown [true]) []) :=
    exec_after (c := .sync) (by decide +kernel)
  exact ⟨_, _, run, by decide +kernel, by decide +kernel, synced,
    (sync_restores_iff run [] synced).mpr (by decide +kernel)⟩

/-- The block of the inode cannot be read, and the sync returns 0. -/
theorem sync_loses : ∃ s t, Reachable (Initial [1, 3]) (Step [1, 3]) s ∧
    sfsSync (withFaults s [true]) = .ok (.ok (), t) ∧ ¬ Restored s t.dev := by
  have synced : sfsSync (withFaults grown [true]) = .ok (.ok (), after .sync grown [true]) :=
    exec_after (c := .sync) (by decide +kernel)
  refine ⟨_, _, grown_reached, synced, fun restored => ?_⟩
  have lost : ¬ ∀ p ∈ grown.inodeList, OnDisk grown p ∨ p ∈ writeBacks grown grown.inodeList [true] := by
    decide +kernel
  exact lost ((consistent_restored (reached_consistent grown_reached) synced).mp restored)

end Ucore.Fs.SyncRuns
