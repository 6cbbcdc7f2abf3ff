import Ucore.Fs.Volumes

/-! # Directories

A directory has one entry in each of its blocks. The part of `sfs_inode.c` that reads the
entries in their order, and looks for one of them.
-/

namespace Ucore.Fs.Directory

open Lib.Bytes Lib.Counts Lib.Program Lib.Program.Prog Error Bitmaps Sfs SfsIo SfsInode InodeCalls Ownership BlockSpecs
open BmapSpecs Volumes
open TruncRuns (withFaults)

/-- A number as an `int`. -/
@[irreducible] def intOf (n : Nat) : Int := Int.bmod n (2 ^ 32)

/-- The name is cut off at its end, whatever the disk has there. -/
def terminate (entry : DiskEntry) : DiskEntry := { entry with name := entry.name.set SFS_MAX_FNAME_LEN 0 }

/-- The characters of a name. -/
def string (name : List UInt8) : List UInt8 := name.takeWhile (· ≠ 0)

def sfsDirentReadNolock (sin slot : Nat) : Op SfsFs DiskEntry := do
  let s ← get
  ensure ((s.nodes sin).din.type = SFS_TYPE_DIR ∧ slot < (s.nodes sin).din.blocks) .assertion
  let ino ← sfsBmapLoadNolock sin slot
  assertInuse ino
  let bytes ← sfsRbuf DiskEntry.sizeof ino 0
  pure (terminate (DiskEntry.ofBytes bytes))

/-- `for (; i < nslots; i ++)` with `count` turns to go. A visit to an entry ends the loop, or
    leaves something for the next one. -/
def slotLoop {α ρ : Type} (sin : Nat) (visit : ρ → Nat → DiskEntry → α ⊕ ρ) : Nat → Nat → ρ → Op SfsFs α
  | 0, _, _ => throw .noEnt
  | count + 1, i, r => do
      let entry ← sfsDirentReadNolock sin i
      match visit r i entry with
      | .inl a => pure a
      | .inr r => slotLoop sin visit count (i + 1) r

/-- `int nslots = sin->din->blocks` -/
def nslots (sin : Nat) : Op SfsFs Nat := do
  let s ← get
  pure (intOf (s.nodes sin).din.blocks).toNat

def searchVisit (name : List UInt8) (_ : Unit) (i : Nat) (entry : DiskEntry) : (Nat × Nat) ⊕ Unit :=
  if entry.ino = 0 then .inr ()
  else if name = string entry.name then .inl (entry.ino, i)
  else .inr ()

/-- No caller asks for the empty slot. -/
def sfsDirentSearchNolock (sin : Nat) (name : List UInt8) : Op SfsFs (Nat × Nat) := do
  ensure (name.length ≤ SFS_MAX_FNAME_LEN) .assertion
  attempt .noMem
  let nslots ← nslots sin
  slotLoop sin (searchVisit name) nslots 0 ()

def findinoVisit (ino : Nat) (_ : Unit) (_ : Nat) (entry : DiskEntry) : DiskEntry ⊕ Unit :=
  if entry.ino = ino then .inl entry else .inr ()

def sfsDirentFindinoNolock (sin ino : Nat) : Op SfsFs DiskEntry := do
  let nslots ← nslots sin
  slotLoop sin (findinoVisit ino) nslots 0 ()

def getdirentryVisit (slot : Int) (_ : Nat) (entry : DiskEntry) : DiskEntry ⊕ Int :=
  if entry.ino ≠ 0 then (if slot = 0 then .inl entry else .inr (slot - 1)) else .inr slot

def sfsGetdirentrySubNolock (sin : Nat) (slot : Int) : Op SfsFs DiskEntry := do
  let nslots ← nslots sin
  slotLoop sin getdirentryVisit nslots 0 slot

def sfsLookupOnce (sin : Nat) (name : List UInt8) : Op SfsFs Nat := do
  let (ino, _) ← sfsDirentSearchNolock sin name
  sfsLoadInode ino

/-! ## The entries of a directory -/

def readEntry (b : Block) : DiskEntry := terminate (DiskEntry.ofBytes (slice b 0 DiskEntry.sizeof))

def slots (vol : Volume) (dir : Nat) : List DiskEntry := (vol.data dir).map readEntry

/-- The entries that are used, in the order of their slots. -/
def used (vol : Volume) (dir : Nat) : List DiskEntry := (slots vol dir).filter fun entry => entry.ino ≠ 0

/-- The number of the file with the name. -/
def lookup (vol : Volume) (dir : Nat) (name : List UInt8) : Option Nat :=
  ((used vol dir).find? fun entry => name = string entry.name).map DiskEntry.ino

/-- What the visits to the entries come to. -/
def visits {α ρ : Type} (visit : ρ → Nat → DiskEntry → α ⊕ ρ) : List DiskEntry → Nat → ρ → Option α
  | [], _, _ => none
  | entry :: rest, i, r =>
      match visit r i entry with
      | .inl a => some a
      | .inr r => visits visit rest (i + 1) r

theorem visits_search (name : List UInt8) (entries : List DiskEntry) (i : Nat) :
    (visits (searchVisit name) entries i ()).map Prod.fst =
      ((entries.filter fun entry => entry.ino ≠ 0).find? fun entry => name = string entry.name).map DiskEntry.ino := by
  induction entries generalizing i with
  | nil => rfl
  | cons entry rest ih =>
      by_cases empty : entry.ino = 0
      · simp [visits, searchVisit, empty, ih]
      · by_cases same : name = string entry.name
        · simp [visits, searchVisit, empty, same]
        · simp [visits, searchVisit, empty, same, ih]

theorem visits_findino (ino : Nat) (entries : List DiskEntry) (i : Nat) :
    visits (findinoVisit ino) entries i () = entries.find? fun entry => entry.ino = ino := by
  induction entries generalizing i with
  | nil => rfl
  | cons entry rest ih => by_cases same : entry.ino = ino <;> simp [visits, findinoVisit, same, ih]

theorem visits_getdirentry (entries : List DiskEntry) (i k : Nat) :
    visits getdirentryVisit entries i k = (entries.filter fun entry => entry.ino ≠ 0)[k]? := by
  induction entries generalizing i k with
  | nil => rfl
  | cons entry rest ih =>
      by_cases empty : entry.ino = 0
      · simp [visits, getdirentryVisit, empty, ih]
      · cases k with
        | zero => simp [visits, getdirentryVisit, empty]
        | succ k =>
            have less : ((k + 1 : Nat) : Int) - 1 = k := by omega
            simp only [visits, getdirentryVisit, empty, ne_eq, not_false_eq_true, if_true, less,
              show ((k + 1 : Nat) : Int) ≠ 0 by omega, if_false, ih]
            simp [empty]

/-! ## Reading the entries -/

/-- Only operations of the device have been done, and none of them a write. -/
def Quiet (s t : SfsFs) : Prop := ∃ faults, faults <:+ s.faults ∧ t = withFaults s faults

variable {s t : SfsFs} {vol : Volume} {p : Nat} {allowed : Panic → Prop} {E : Err → SfsFs → Prop} {α ρ : Type}

namespace Quiet

theorem refl (s : SfsFs) : Quiet s s := ⟨s.faults, List.suffix_refl _, rfl⟩

theorem tick (s : SfsFs) : Quiet s s.tick := ⟨s.faults.tail, List.tail_suffix _, rfl⟩

theorem trans {u : SfsFs} (first : Quiet s t) (second : Quiet t u) : Quiet s u := by
  obtain ⟨faults, later, rfl⟩ := first
  obtain ⟨faults', later', rfl⟩ := second
  exact ⟨faults', later'.trans later, rfl⟩

theorem now (quiet : Quiet s t) (holds : Holds s vol) : Now vol s (refs s) t := by
  obtain ⟨faults, later, rfl⟩ := quiet
  exact ⟨holds.withFaults faults, Onward.withFaults later, rfl⟩

theorem faults (quiet : Quiet s t) : t.faults <:+ s.faults := by
  obtain ⟨faults, later, rfl⟩ := quiet
  exact later

theorem nodes (quiet : Quiet s t) : t.nodes = s.nodes := by
  obtain ⟨faults, later, rfl⟩ := quiet
  rfl

theorem inodeList (quiet : Quiet s t) : t.inodeList = s.inodeList := by
  obtain ⟨faults, later, rfl⟩ := quiet
  rfl

end Quiet

/-- A directory that is in memory. -/
structure Dir (s : SfsFs) (p : Nat) : Prop where
  member : p ∈ s.inodeList
  type : (s.nodes p).din.type = SFS_TYPE_DIR

theorem Dir.quiet (dir : Dir s p) (quiet : Quiet s t) : Dir t p :=
  ⟨quiet.inodeList ▸ dir.member, by rw [quiet.nodes]; exact dir.type⟩

theorem slots_length (holds : Holds s vol) (member : p ∈ s.inodeList) :
    (slots vol (s.nodes p).ino).length = (s.nodes p).din.blocks := by
  have data := holds.data _ (holds.mem_files member)
  simp only [fileOf] at data
  rw [slots, ← data, fileData]
  simp

theorem sfsDirentReadNolock_spec {Q : DiskEntry → SfsFs → Prop} {slot : Nat} (holds : Holds s vol) (dir : Dir s p)
    (below : slot < (s.nodes p).din.blocks)
    (failed : ∀ e t, e ≠ .noEnt → Quiet s t → Failing s t → E e t)
    (post : ∀ entry t, (slots vol (s.nodes p).ino)[slot]? = some entry → Quiet s t → Q entry t) :
    Spec allowed (sfsDirentReadNolock p slot) s Q E := by
  obtain ⟨others, held, inv, -⟩ := holds.inv
  obtain ⟨nonzero, inside, taken⟩ := inv.file_blocks (fileOf_mem dir.member) below
  simp only [fileOf] at nonzero inside taken
  have data := holds.data _ (holds.mem_files dir.member)
  simp only [fileOf] at data
  have here : (slots vol (s.nodes p).ino)[slot]? =
    some (readEntry (s.dev.blocks (blockAt s.dev.blocks (s.nodes p).din slot))) := by
    rw [slots, ← data, fileData, List.map_map, List.getElem?_map, List.getElem?_range below]
    rfl
  simp only [sfsDirentReadNolock, spec_bind, spec_get, spec_ensure_of (show _ ∧ _ from ⟨dir.type, below⟩), spec_pure]
  have rest : ∀ t, Quiet s t → Spec allowed (assertInuse (blockAt s.dev.blocks (s.nodes p).din slot)) t (fun _ t =>
      Spec allowed (sfsRbuf DiskEntry.sizeof (blockAt s.dev.blocks (s.nodes p).din slot) 0) t
        (fun bytes t => Q (terminate (DiskEntry.ofBytes bytes)) t) E) E := by
    intro t quiet
    obtain ⟨faults, later, rfl⟩ := quiet
    have mounted := (inv.congr (t := withFaults s faults) rfl rfl rfl rfl rfl).mounted
    refine assertInuse_spec mounted nonzero inside taken ?_
    refine sfsRbuf_due (by decide) nonzero inside mounted.device (fun fault => ?_) ?_
    · exact failed _ _ (by decide) (.trans ⟨faults, later, rfl⟩ (Quiet.tick _)) ((failing_tick fault).after later)
    · exact post _ _ here (.trans ⟨faults, later, rfl⟩ (Quiet.tick _))
  refine sfsBmapLoadNolock_due inv dir.member below (fun fault => ?_) fun t which => ?_
  · exact failed _ _ (by decide) (Quiet.tick s) (failing_tick fault)
  · rcases which with rfl | rfl
    · exact rest _ (Quiet.refl _)
    · exact rest _ (Quiet.tick _)

theorem slotLoop_spec {Q : α → SfsFs → Prop} {visit : ρ → Nat → DiskEntry → α ⊕ ρ} {count i : Nat} {r : ρ}
    (holds : Holds s vol) (dir : Dir s p) (left : i + count = (s.nodes p).din.blocks)
    (failed : ∀ e t, e ≠ .noEnt → Quiet s t → Failing s t → E e t)
    (absent : visits visit ((slots vol (s.nodes p).ino).drop i) i r = none → ∀ t, Quiet s t → E .noEnt t)
    (post : ∀ a, visits visit ((slots vol (s.nodes p).ino).drop i) i r = some a → ∀ t, Quiet s t → Q a t) :
    Spec allowed (slotLoop p visit count i r) s Q E := by
  have length := slots_length holds dir.member
  induction count generalizing i r s with
  | zero =>
      refine absent ?_ s (Quiet.refl s)
      rw [List.drop_eq_nil_of_le (by omega)]
      rfl
  | succ count ih =>
      rw [slotLoop, spec_bind]
      refine sfsDirentReadNolock_spec holds dir (by omega) failed fun entry t here quiet => ?_
      obtain ⟨inside, there⟩ := List.getElem?_eq_some_iff.mp here
      rw [List.drop_eq_getElem_cons inside, there, visits] at absent post
      cases visited : visit r i entry with
      | inl a =>
          simp only [visited] at post
          exact post a rfl t quiet
      | inr r' =>
          simp only [visited] at absent post
          refine ih (quiet.now holds).holds (dir.quiet quiet) (by rw [quiet.nodes]; omega) ?_ ?_ ?_ ?_
          · exact fun e u code more failing => failed e u code (quiet.trans more) (failing.after quiet.faults)
          · rw [quiet.nodes]
            exact fun none u more => absent none u (quiet.trans more)
          · rw [quiet.nodes]
            exact fun a found u more => post a found u (quiet.trans more)
          · rw [quiet.nodes]
            exact length

theorem intOf_small {n : Nat} (small : n < 2 ^ 31) : intOf n = n := by
  unfold intOf
  exact Int.bmod_eq_of_le_mul_two (by omega) (by omega)

theorem nslots_spec {Q : Nat → SfsFs → Prop} (holds : Holds s vol) (member : p ∈ s.inodeList)
    (post : Q (s.nodes p).din.blocks s) : Spec allowed (nslots p) s Q E := by
  simp only [nslots, spec_bind, spec_get, spec_pure]
  rw [intOf_small (holds.short member), Int.toNat_natCast]
  exact post

/-- The loop over all slots. -/
theorem allSlots_spec {Q : α → SfsFs → Prop} {visit : ρ → Nat → DiskEntry → α ⊕ ρ} {r : ρ}
    (holds : Holds s vol) (dir : Dir s p)
    (failed : ∀ e t, e ≠ .noEnt → Quiet s t → Failing s t → E e t)
    (absent : visits visit (slots vol (s.nodes p).ino) 0 r = none → ∀ t, Quiet s t → E .noEnt t)
    (post : ∀ a, visits visit (slots vol (s.nodes p).ino) 0 r = some a → ∀ t, Quiet s t → Q a t) :
    Spec allowed (nslots p >>= fun nslots => slotLoop p visit nslots 0 r) s Q E := by
  rw [spec_bind]
  refine nslots_spec holds dir.member ?_
  refine slotLoop_spec holds dir (Nat.zero_add _) failed ?_ ?_
  · rw [List.drop_zero]
    exact absent
  · rw [List.drop_zero]
    exact post

/-! ## What the searches find -/

theorem sfsDirentFindinoNolock_spec {Q : DiskEntry → SfsFs → Prop} {ino : Nat} (holds : Holds s vol) (dir : Dir s p)
    (failed : ∀ e t, e ≠ .noEnt → Quiet s t → Failing s t → E e t)
    (absent : (slots vol (s.nodes p).ino).find? (fun entry => entry.ino = ino) = none → ∀ t, Quiet s t → E .noEnt t)
    (post : ∀ entry, (slots vol (s.nodes p).ino).find? (fun entry => entry.ino = ino) = some entry →
      ∀ t, Quiet s t → Q entry t) : Spec allowed (sfsDirentFindinoNolock p ino) s Q E := by
  rw [← visits_findino ino _ 0] at absent post
  rw [sfsDirentFindinoNolock]
  exact allSlots_spec holds dir failed absent post

theorem sfsGetdirentrySubNolock_spec {Q : DiskEntry → SfsFs → Prop} {k : Nat} (holds : Holds s vol) (dir : Dir s p)
    (failed : ∀ e t, e ≠ .noEnt → Quiet s t → Failing s t → E e t)
    (absent : (used vol (s.nodes p).ino)[k]? = none → ∀ t, Quiet s t → E .noEnt t)
    (post : ∀ entry, (used vol (s.nodes p).ino)[k]? = some entry → ∀ t, Quiet s t → Q entry t) :
    Spec allowed (sfsGetdirentrySubNolock p k) s Q E := by
  rw [used, ← visits_getdirentry _ 0] at absent post
  rw [sfsGetdirentrySubNolock]
  exact allSlots_spec holds dir failed absent post

theorem sfsDirentSearchNolock_spec {Q : Nat × Nat → SfsFs → Prop} {name : List UInt8} (holds : Holds s vol)
    (dir : Dir s p) (long : ¬ name.length ≤ SFS_MAX_FNAME_LEN → allowed .assertion)
    (failed : ∀ e t, e ≠ .noEnt → Quiet s t → Failing s t → E e t)
    (absent : lookup vol (s.nodes p).ino name = none → ∀ t, Quiet s t → E .noEnt t)
    (post : ∀ ino slot, name.length ≤ SFS_MAX_FNAME_LEN → lookup vol (s.nodes p).ino name = some ino →
      ∀ t, Quiet s t → Q (ino, slot) t) :
    Spec allowed (sfsDirentSearchNolock p name) s Q E := by
  rw [sfsDirentSearchNolock, spec_bind, spec_ensure]
  refine ⟨fun short => ?_, long⟩
  rw [spec_bind]
  refine attempt_due (fun fault => failed _ _ (by decide) (Quiet.tick s) (failing_tick fault)) ?_
  have found := visits_search name (slots vol (s.nodes p).ino) 0
  refine allSlots_spec holds.tick (dir.quiet (Quiet.tick s)) ?_ (fun none t quiet => ?_) fun a some t quiet => ?_
  · exact fun e t code quiet failing =>
      failed e t code (.trans (Quiet.tick s) quiet) (failing.after (Quiet.tick s).faults)
  · rw [show s.tick.nodes = s.nodes from rfl] at none
    rw [none] at found
    exact absent found.symm t (.trans (Quiet.tick s) quiet)
  · rw [show s.tick.nodes = s.nodes from rfl] at some
    rw [some] at found
    exact post a.1 a.2 short found.symm t (.trans (Quiet.tick s) quiet)

/-- Every name in a directory is the name of a file, and there is a root directory. -/
structure Tree (vol : Volume) : Prop where
  root : ∃ din, (SFS_BLKN_ROOT, din) ∈ vol.files ∧ din.type = SFS_TYPE_DIR ∧ din.nlinks ≠ 0
  named : ∀ dir ∈ vol.files, dir.2.type = SFS_TYPE_DIR → ∀ entry ∈ used vol dir.1,
    ∃ din, (entry.ino, din) ∈ vol.files ∧ din.nlinks ≠ 0

theorem Tree.lookup (tree : Tree vol) {dir : Nat × DiskInode} {name : List UInt8} {ino : Nat} (inside : dir ∈ vol.files)
    (type : dir.2.type = SFS_TYPE_DIR) (found : lookup vol dir.1 name = some ino) :
    ∃ din, (ino, din) ∈ vol.files ∧ din.nlinks ≠ 0 := by
  obtain ⟨entry, search, rfl⟩ := Option.map_eq_some_iff.mp found
  exact tree.named dir inside type entry (List.mem_of_find?_eq_some search)

theorem sfsLookupOnce_spec {Q : Nat → SfsFs → Prop} {name : List UInt8} (holds : Holds s vol) (tree : Tree vol)
    (dir : Dir s p) (long : ¬ name.length ≤ SFS_MAX_FNAME_LEN → allowed .assertion)
    (odd : ∀ file ∈ vol.files, lookup vol (s.nodes p).ino name = some file.1 → ¬ Regular file.2 → allowed .assertion)
    (failed : ∀ e t, e ≠ .noEnt → Now vol s (refs s) t → Failing s t → E e t)
    (absent : lookup vol (s.nodes p).ino name = none → ∀ t, Quiet s t → E .noEnt t)
    (post : ∀ file ∈ vol.files, name.length ≤ SFS_MAX_FNAME_LEN → lookup vol (s.nodes p).ino name = some file.1 →
      file.2.nlinks ≠ 0 → ∀ q t, Now vol s (gain (refs s) q) t → q ∈ t.inodeList → fileOf (t.nodes q) = file → Q q t) :
    Spec allowed (sfsLookupOnce p name) s Q E := by
  rw [sfsLookupOnce, spec_bind]
  refine sfsDirentSearchNolock_spec holds dir long ?_ absent fun ino slot short found t quiet => ?_
  · exact fun e t code quiet failing => failed e t code (quiet.now holds) failing
  · obtain ⟨din, inside, linked⟩ := tree.lookup (holds.mem_files dir.member) dir.type found
    have before := quiet.now holds
    refine sfsLoadInode_spec before.holds inside linked (odd _ inside found) (fun e u code now failing => ?_)
      fun q u now member same => ?_
    · exact failed e u code (before.counted ▸ Now.trans before.onward now) (failing.after quiet.faults)
    · exact post _ inside short found linked q u (before.counted ▸ Now.trans before.onward now) member same

/-! ## A small tree -/

/-- The root directory with a file `a` and a directory `d`. -/
def rootInode : DiskInode := ⟨1024, SFS_TYPE_DIR, 3, 4, [3, 4, 5, 11, 0, 0, 0, 0, 0, 0, 0, 0], 0⟩

def fileInode : DiskInode := ⟨2, SFS_TYPE_FILE, 1, 1, [7, 0, 0, 0, 0, 0, 0, 0, 0, 0, 0, 0], 0⟩

def dirInode : DiskInode := ⟨512, SFS_TYPE_DIR, 2, 2, [9, 10, 0, 0, 0, 0, 0, 0, 0, 0, 0, 0], 0⟩

/-- An entry with a name of two characters at most. -/
def shortEntry (ino : Nat) (first second : UInt8) : Block :=
  patch zeros 0 (toLe 4 ino ++ [first, second])

def treeBlocks (b : Nat) : Block :=
  match b with
  | 1 => patch zeros 0 rootInode.bytes
  | 3 => shortEntry 1 0x2e 0
  | 4 => shortEntry 1 0x2e 0x2e
  | 5 => shortEntry 6 0x61 0
  | 6 => patch zeros 0 fileInode.bytes
  | 7 => patch zeros 0 [0x68, 0x69]
  | 8 => patch zeros 0 dirInode.bytes
  | 9 => shortEntry 8 0x2e 0
  | 10 => shortEntry 1 0x2e 0x2e
  | 11 => shortEntry 8 0x64 0
  | _ => zeros

/-- The tree on a full disk, with its root in memory. -/
def treeDisk : SfsFs where
  super := ⟨SFS_MAGIC, 12, 0, List.replicate 32 0⟩
  dev := ⟨12, treeBlocks, by decide⟩
  freemap := OwnershipRuns.smallMap 1023 0
  superDirty := false
  inodeList := [0]
  nodes _ := ⟨rootInode, SFS_BLKN_ROOT, false, 1, 1⟩
  nextNode := 1
  faults := []

def treeFiles : List (Nat × DiskInode) := [(1, rootInode), (6, fileInode), (8, dirInode)]

def tree : Volume where
  files := treeFiles
  data ino := fileData treeBlocks ((treeFiles.lookup ino).getD (OwnershipRuns.emptyInode 0))

theorem inode_ok {blocks : Nat → Block} {din : DiskInode} (direct : din.direct.length = SFS_NDIRECT)
    (few : din.blocks ≤ SFS_NDIRECT) (absent : din.indirect = 0)
    (rest : ∀ k < SFS_NDIRECT, din.blocks ≤ k → din.direct.getD k 0 = 0) : FileOk blocks din := by
  refine ⟨direct, by omega, fun up => by omega, fun k behind _ reach => ?_⟩
  by_cases low : k < SFS_NDIRECT
  · rw [blockAt, if_pos low]
    exact rest k low behind
  · exact absurd absent (reach (by omega))

theorem treeDisk_inv : Inv treeDisk [(6, fileInode), (8, dirInode)] [] where
  mounted :=
    { full := OwnershipRuns.smallMap_full 1023 0
      sized := by decide
      bounds := fun i free => by
        have taken : (OwnershipRuns.smallMap 1023 0).free i = true := free
        simp [OwnershipRuns.smallMap_free] at taken
      device := by decide
      unused := (freeCount_zero fun i => by simp [treeDisk, OwnershipRuns.smallMap_free]).symm }
  nodes := by decide
  files := by
    intro file inside
    have : file = (1, rootInode) ∨ file = (6, fileInode) ∨ file = (8, dirInode) := by
      simpa [files, treeDisk, fileOf, SFS_BLKN_ROOT] using inside
    rcases this with rfl | rfl | rfl <;> exact inode_ok rfl (by decide) rfl (by decide)
  range := by decide +kernel
  inuse := by decide +kernel
  nodup := by decide +kernel
  stored := by decide +kernel

theorem treeDisk_holds : Holds treeDisk tree where
  inv := ⟨_, _, treeDisk_inv, List.Perm.refl _⟩
  fresh := by decide
  kinds := by decide
  counted := by decide
  written p member _ := by
    obtain rfl : p = 0 := by simpa [treeDisk] using member
    decide +kernel
  fits p _ := show rootInode.Fits from ⟨by decide, by decide, by decide, by decide, rfl, by decide, by decide⟩
  data file inside := by
    have known : file = (1, rootInode) ∨ file = (6, fileInode) ∨ file = (8, dirInode) := by
      simpa [tree, treeFiles] using inside
    rcases known with rfl | rfl | rfl <;> rfl

theorem treeDisk_root : Dir treeDisk 0 := ⟨by decide, rfl⟩

theorem tree_used : (used tree 1).map (fun entry => (entry.ino, string entry.name)) =
    [(1, [0x2e]), (1, [0x2e, 0x2e]), (6, [0x61]), (8, [0x64])] := by
  decide +kernel

end Ucore.Fs.Directory
