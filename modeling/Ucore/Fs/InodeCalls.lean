import Ucore.Fs.SfsInode

/-! # Inodes in memory

Loading inodes, giving them back, and writing them to the disk: the rest of
`sfs_inode.c`, and the reference counts of `vfs/inode.c`. Open counts are left out, and
so are the hash lists, which hold the same inodes as the list of all of them.
-/

namespace Ucore.Fs.InodeCalls

open Lib.Bytes Lib.Program Lib.Program.Prog Error Bitmaps Sfs SfsIo SfsInode

/-! ## Loading -/

/-- `alloc_inode` and the fields of the new inode; `sfs_get_ops` panics on other types. -/
def sfsCreateInode (din : DiskInode) (ino : Nat) : Op SfsFs Nat := do
  attempt .noMem
  ensure (din.type = SFS_TYPE_DIR ∨ din.type = SFS_TYPE_FILE) .assertion
  let s ← get
  modify fun s => { s with
    nodes := Function.update s.nodes s.nextNode ⟨din, ino, false, 1, 1⟩
    nextNode := s.nextNode + 1 }
  pure s.nextNode

/-- `vop_ref_inc` -/
def inodeRefInc (sin : Nat) : Op SfsFs Unit :=
  modify fun s => s.setNode sin fun node => { node with refCount := node.refCount + 1 }

def lookupSfsNolock (ino : Nat) : Op SfsFs (Option Nat) := do
  let s ← get
  match s.inodeList.find? fun sin => (s.nodes sin).ino = ino with
  | none => pure none
  | some sin => do
      inodeRefInc sin
      let s ← get
      if (s.nodes sin).refCount = 1 then
        modify fun s => s.setNode sin fun node => { node with reclaimCount := node.reclaimCount + 1 }
      pure (some sin)

def sfsLoadInode (ino : Nat) : Op SfsFs Nat := do
  match ← lookupSfsNolock ino with
  | some sin => pure sin
  | none => do
      attempt .noMem
      assertInuse ino
      let bytes ← sfsRbuf DiskInode.sizeof ino 0
      let din := DiskInode.ofBytes bytes
      ensure (din.nlinks ≠ 0) .assertion
      let sin ← sfsCreateInode din ino
      modify fun s => { s with inodeList := sin :: s.inodeList }
      pure sin

/-! ## Writing back -/

def setDirty (sin : Nat) (dirty : Bool) : Op SfsFs Unit :=
  modify fun s => s.setNode sin fun node => { node with dirty := dirty }

def sfsFsync (sin : Nat) : Op SfsFs Unit := do
  let s ← get
  if (s.nodes sin).dirty = true then
    setDirty sin false
    onError (sfsWbuf (s.nodes sin).din.bytes (s.nodes sin).ino 0) (setDirty sin true)

def sfsReclaim (sin : Nat) : Op SfsFs Unit := do
  let s ← get
  ensure (0 < (s.nodes sin).reclaimCount) .assertion
  modify fun s => s.setNode sin fun node => { node with reclaimCount := node.reclaimCount - 1 }
  let s ← get
  if (s.nodes sin).reclaimCount ≠ 0 ∨ (s.nodes sin).refCount ≠ 0 then throw .busy
  else
    if (s.nodes sin).din.nlinks = 0 then
      -- directories have no `vop_truncate`
      ensure ((s.nodes sin).din.type = SFS_TYPE_FILE) .assertion
      sfsTruncfile sin 0
    let s ← get
    if (s.nodes sin).dirty = true then sfsFsync sin
    modify fun s => { s with inodeList := s.inodeList.erase sin }
    let s ← get
    if (s.nodes sin).din.nlinks = 0 then
      sfsBlockFree (s.nodes sin).ino
      if (s.nodes sin).din.indirect ≠ 0 then sfsBlockFree (s.nodes sin).din.indirect

/-- `vop_ref_dec`; an error of `vop_reclaim` is not passed on. -/
def inodeRefDec (sin : Nat) : Op SfsFs Unit := do
  let s ← get
  ensure (0 < (s.nodes sin).refCount) .assertion
  modify fun s => s.setNode sin fun node => { node with refCount := node.refCount - 1 }
  let s ← get
  if (s.nodes sin).refCount = 0 then ignore (sfsReclaim sin)

/-! ## Reading, writing and seeking -/

/-- `sfs_io_nolock`, which transfers no data: its middle part is left as an exercise. A
    write behind the end still sets the size. -/
def sfsIoNolock (sin : Nat) (offset : Int) (len : Nat) (write : Bool) : Op SfsFs Unit := do
  let s ← get
  let din := (s.nodes sin).din
  ensure (din.type ≠ SFS_TYPE_DIR) .assertion
  let endpos := Int.bmod (offset + len) (2 ^ 64)
  if offset < 0 ∨ SFS_MAX_FILE_SIZE ≤ offset ∨ endpos < offset then throw .inval
  else if offset = endpos ∨ write = false ∧ din.size ≤ offset then pure ()
  else if din.size < offset then
    modify fun s => s.setNode sin fun node =>
      { node with din := { node.din with size := offset.toNat }, dirty := true }

def sfsTryseek (sin : Nat) (pos : Int) : Op SfsFs Unit := do
  if pos < 0 ∨ SFS_MAX_FILE_SIZE ≤ pos then throw .inval
  else
    let s ← get
    if (s.nodes sin).din.size < pos then sfsTruncfile sin pos

end Ucore.Fs.InodeCalls
