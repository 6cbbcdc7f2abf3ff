import Ucore.Fs.SfsIo

/-! # Blocks of inodes

The part of `sfs_inode.c` that allocates and frees blocks and finds the block of a file.
An inode in memory is given by its number `sin`; its semaphore is left out.
-/

namespace Ucore.Fs.SfsInode

open Lib.Bytes Lib.Program Lib.Program.Prog Error Bitmaps Sfs SfsIo

/-! ## Blocks -/

/-- Run a function of the bitmap on the freemap. -/
def onFreemap (m : Op Bitmap α) : Op SfsFs α := focus SfsFs.freemap (fun b s => { s with freemap := b }) m

def sfsBlockInuse (ino : Nat) : Op SfsFs Bool := do
  let s ← get
  if ino ≠ 0 ∧ ino < s.super.blocks then
    let free ← onFreemap (bitmapTest ino)
    pure (!free)
  else stop .inuse

/-- `assert(sfs_block_inuse(sfs, ino))` -/
def assertInuse (ino : Nat) : Op SfsFs Unit := do
  let inuse ← sfsBlockInuse ino
  ensure (inuse = true) .inuse

def sfsBlockAlloc : Op SfsFs Nat := do
  let ino ← onFreemap bitmapAlloc
  let s ← get
  ensure (0 < s.super.unusedBlocks) .assertion
  modify fun s => { s with
    super := { s.super with unusedBlocks := s.super.unusedBlocks - 1 }
    superDirty := true }
  assertInuse ino
  sfsClearBlock ino
  pure ino

def sfsBlockFree (ino : Nat) : Op SfsFs Unit := do
  assertInuse ino
  onFreemap (bitmapFree ino)
  modify fun s => { s with
    super := { s.super with unusedBlocks := (s.super.unusedBlocks + 1) % 2 ^ 32 }
    superDirty := true }

/-! ## The block map of an inode -/

/-- The end of `sfs_bmap_get_sub_nolock`: a new block for the entry at `offset` of the
    entry block `ent`, which is new itself if it is not the one of `*entp`. -/
def sfsBmapNewEntry (entp ent offset : Nat) : Op SfsFs (Nat × Nat) := do
  let failedCleanup := if ent ≠ entp then sfsBlockFree ent else pure ()
  let ino ← onError sfsBlockAlloc failedCleanup
  onError (sfsWbuf (toLe 4 ino) ent offset) do
    sfsBlockFree ino
    failedCleanup
  pure (ent, ino)

/-- The entry block `*entp` afterwards, and the block at the index in it. -/
def sfsBmapGetSubNolock (entp index : Nat) (create : Bool) : Op SfsFs (Nat × Nat) := do
  ensure (index < SFS_BLK_NENTRY) .assertion
  let offset := 4 * index
  if entp ≠ 0 then
    let bytes ← sfsRbuf 4 entp offset
    let ino := ofLe bytes
    if ino ≠ 0 ∨ create = false then pure (entp, ino)
    else sfsBmapNewEntry entp entp offset
  else if create = false then pure (entp, 0)
  else
    let ent ← sfsBlockAlloc
    sfsBmapNewEntry entp ent offset

/-- `assert(ino == 0 || sfs_block_inuse(sfs, ino))` -/
def assertZeroOrInuse (ino : Nat) : Op SfsFs Unit := if ino = 0 then pure () else assertInuse ino

def sfsBmapGetNolock (sin index : Nat) (create : Bool) : Op SfsFs Nat := do
  let s ← get
  let din := (s.nodes sin).din
  if index < SFS_NDIRECT then
    let ino := din.direct.getD index 0
    if ino = 0 ∧ create = true then
      let ino ← sfsBlockAlloc
      modify fun s => s.setNode sin fun node => { node with
        din := { node.din with direct := node.din.direct.set index ino }
        dirty := true }
      assertZeroOrInuse ino
      pure ino
    else
      assertZeroOrInuse ino
      pure ino
  else if index - SFS_NDIRECT < SFS_BLK_NENTRY then
    let (ent, ino) ← sfsBmapGetSubNolock din.indirect (index - SFS_NDIRECT) create
    if ent ≠ din.indirect then
      ensure (din.indirect = 0) .assertion
      modify fun s => s.setNode sin fun node => { node with
        din := { node.din with indirect := ent }
        dirty := true }
    assertZeroOrInuse ino
    pure ino
  else stop .range

def sfsBmapFreeSubNolock (ent index : Nat) : Op SfsFs Unit := do
  assertInuse ent
  ensure (index < SFS_BLK_NENTRY) .assertion
  let offset := 4 * index
  let bytes ← sfsRbuf 4 ent offset
  let ino := ofLe bytes
  if ino ≠ 0 then
    sfsWbuf (toLe 4 0) ent offset
    sfsBlockFree ino

def sfsBmapFreeNolock (sin index : Nat) : Op SfsFs Unit := do
  let s ← get
  let din := (s.nodes sin).din
  if index < SFS_NDIRECT then
    let ino := din.direct.getD index 0
    if ino ≠ 0 then
      sfsBlockFree ino
      modify fun s => s.setNode sin fun node => { node with
        din := { node.din with direct := node.din.direct.set index 0 }
        dirty := true }
  else if index - SFS_NDIRECT < SFS_BLK_NENTRY then
    if din.indirect ≠ 0 then sfsBmapFreeSubNolock din.indirect (index - SFS_NDIRECT)

def sfsBmapLoadNolock (sin index : Nat) : Op SfsFs Nat := do
  let s ← get
  let din := (s.nodes sin).din
  ensure (index ≤ din.blocks) .blocks
  let create := decide (index = din.blocks)
  let ino ← sfsBmapGetNolock sin index create
  assertInuse ino
  if create = true then
    modify fun s => s.setNode sin fun node =>
      { node with din := { node.din with blocks := (node.din.blocks + 1) % 2 ^ 32 } }
  pure ino

def sfsBmapTruncateNolock (sin : Nat) : Op SfsFs Unit := do
  let s ← get
  let din := (s.nodes sin).din
  ensure (din.blocks ≠ 0) .blocks
  sfsBmapFreeNolock sin (din.blocks - 1)
  modify fun s => s.setNode sin fun node =>
    { node with din := { node.din with blocks := node.din.blocks - 1 }, dirty := true }

/-! ## Changing the size of a file -/

/-- `while (nblks != tblks)` of the growing branch, with `count` turns to go. -/
def growLoop (sin : Nat) : Nat → Nat → Op SfsFs Unit
  | 0, _ => pure ()
  | count + 1, nblks => do
      let _ ← sfsBmapLoadNolock sin nblks
      growLoop sin count (nblks + 1)

/-- `while (tblks != nblks)` of the shrinking branch, with `count` turns to go. -/
def shrinkLoop (sin : Nat) : Nat → Op SfsFs Unit
  | 0 => pure ()
  | count + 1 => do
      sfsBmapTruncateNolock sin
      shrinkLoop sin count

/-- `ROUNDUP_DIV(len, SFS_BLKSIZE)` -/
def blocksOf (len : Nat) : Nat := (len + SFS_BLKSIZE - 1) / SFS_BLKSIZE

def sfsTruncfile (sin : Nat) (len : Int) : Op SfsFs Unit := do
  if len < 0 ∨ SFS_MAX_FILE_SIZE < len then throw .inval
  else
    let len := len.toNat
    let s ← get
    let din := (s.nodes sin).din
    let tblks := blocksOf len
    if din.size = len then ensure (tblks = din.blocks) .blocks
    else
      let nblks := din.blocks
      if nblks < tblks then growLoop sin (tblks - nblks) nblks
      else shrinkLoop sin (nblks - tblks)
      let s ← get
      ensure ((s.nodes sin).din.blocks = tblks) .blocks
      modify fun s => s.setNode sin fun node =>
        { node with din := { node.din with size := len }, dirty := true }

end Ucore.Fs.SfsInode
