import Ucore.Fs.InodeCalls

/-! # Syncing and mounting

`sfs_fs.c`. A device that is mounted has blocks of `SFS_BLKSIZE` bytes.
-/

namespace Ucore.Fs.SfsMount

open Lib.Bytes Lib.Program Lib.Program.Prog Error Bitmaps Sfs SfsIo SfsInode InodeCalls

/-! ## Syncing -/

/-- The loop over the list of inodes; what `vop_fsync` returns is not looked at. -/
def syncInodes : List Nat → Op SfsFs Unit
  | [] => pure ()
  | sin :: list => do
      ignore (sfsFsync sin)
      syncInodes list

def setSuperDirty (dirty : Bool) : Op SfsFs Unit := modify fun s => { s with superDirty := dirty }

def sfsSync : Op SfsFs Unit := do
  let s ← get
  syncInodes s.inodeList
  let s ← get
  if s.superDirty = true then
    setSuperDirty false
    onError sfsSyncSuper (setSuperDirty true)
    onError sfsSyncFreemap (setSuperDirty true)

/-! ## Mounting -/

/-- The file system that is being built, on its device. -/
def newFs (dev : Device) (faults : List Bool) : SfsFs where
  super := ⟨0, 0, 0, []⟩
  dev := dev
  freemap := ⟨0, []⟩
  superDirty := false
  inodeList := []
  nodes _ := ⟨⟨0, 0, 0, 0, [], 0⟩, 0, false, 0, 0⟩
  nextNode := 0
  faults := faults

def sfsInitRead (blkno : Nat) : Op SfsFs Block := do
  dopIo blkno
  let s ← get
  pure (s.dev.blocks blkno)

/-- The words in a block of the freemap. -/
def blockWords (b : Block) : List (BitVec 32) :=
  (List.range SFS_BLK_NENTRY).map fun i => BitVec.ofNat 32 (word b i)

def fillWords (bitmap : Bitmap) (j : Nat) (b : Block) : Bitmap :=
  let front := bitmap.map.take (SFS_BLK_NENTRY * j)
  { bitmap with map := front ++ blockWords b ++ bitmap.map.drop (SFS_BLK_NENTRY * (j + 1)) }

/-- The loop of `sfs_init_freemap`, with `count` blocks left from the `j`-th on. -/
def readFreemap : Nat → Nat → Op SfsFs Unit
  | 0, _ => pure ()
  | count + 1, j => do
      let b ← sfsInitRead (SFS_BLKN_FREEMAP + j)
      modify fun s => { s with freemap := fillWords s.freemap j b }
      readFreemap count (j + 1)

def sfsInitFreemap (nblks : Nat) : Op SfsFs Unit := do
  let s ← get
  ensure (4 * s.freemap.map.length = nblks * SFS_BLKSIZE) .assertion
  readFreemap nblks 0

/-- Where the new object lies makes no difference. -/
def kmalloc (_ : Nat) : Op SfsFs Nat := do
  attempt .noMem
  pure 0

/-- The loop that counts the free blocks, with `count` of them left from the `i`-th on. -/
def countUnused : Nat → Nat → Nat → Op SfsFs Nat
  | 0, _, unused => pure unused
  | count + 1, i, unused => do
      let free ← onFreemap (bitmapTest i)
      countUnused count (i + 1) (if free then unused + 1 else unused)

/-- `sfs_freemap_bits` -/
def freemapBits (super : Super) : Nat := (super.blocks + SFS_BLKBITS - 1) / SFS_BLKBITS * SFS_BLKBITS

/-- `super->info[SFS_MAX_INFO_LEN] = '\0'` -/
def endInfo (super : Super) : Super := { super with info := super.info.set SFS_MAX_INFO_LEN 0 }

/-- Fill in the file system that `alloc_fs` gives. -/
def sfsDoMount : Op SfsFs Unit := do
  attempt .noMem
  attempt .noMem
  let sfsBuffer ← sfsInitRead SFS_BLKN_SUPER
  let super := Super.ofBytes (slice sfsBuffer 0 Super.size)
  let s ← get
  if super.magic ≠ SFS_MAGIC then throw .inval
  else if s.dev.dBlocks < super.blocks then throw .inval
  else
    modify fun s => { s with super := endInfo super }
    attempt .noMem
    let (_, _, freemap) ← bitmapCreate kmalloc (fun _ => pure ()) (freemapBits super)
    modify fun s => { s with freemap := freemap }
    sfsInitFreemap (freemapBlocks super)
    let unusedBlocks ← countUnused (freemapBits super) 0 0
    ensure (unusedBlocks = super.unusedBlocks) .assertion
    modify fun s => { s with superDirty := false, inodeList := [] }

/-- `sfs_do_mount` -/
def mount (dev : Device) (faults : List Bool) : Except Panic (Except Err Unit × SfsFs) :=
  sfsDoMount (newFs dev faults)

end Ucore.Fs.SfsMount
