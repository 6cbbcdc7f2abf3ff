import Ucore.Lib.Bytes
import Ucore.Fs.Bitmaps

/-! # The simple file system

The on-disk format of `sfs.h`, and the file system in memory. A structure on the disk
is the concatenation of the bytes of its fields, numbers little-endian.
-/

namespace Ucore.Fs.Sfs

open Lib.Bytes Lib.Program Lib.Program.Prog Error Bitmaps

def SFS_MAGIC : Nat := 0x2f8dbe2a
def SFS_BLKSIZE : Nat := 4096
def SFS_NDIRECT : Nat := 12
def SFS_MAX_INFO_LEN : Nat := 31
def SFS_MAX_FNAME_LEN : Nat := 255
def SFS_MAX_FILE_SIZE : Nat := 1024 * 1024 * 128
def SFS_BLKN_SUPER : Nat := 0
def SFS_BLKN_ROOT : Nat := 1
def SFS_BLKN_FREEMAP : Nat := 2
def SFS_BLKBITS : Nat := SFS_BLKSIZE * 8
def SFS_BLK_NENTRY : Nat := SFS_BLKSIZE / 4
def SFS_TYPE_FILE : Nat := 1
def SFS_TYPE_DIR : Nat := 2
def SFS_TYPE_LINK : Nat := 3

/-! ## The disk -/

/-- `len` bytes of a buffer, from `offset` on. -/
def part (bytes : List UInt8) (offset len : Nat) : List UInt8 := (bytes.drop offset).take len

structure Super where
  magic : Nat
  blocks : Nat
  unusedBlocks : Nat
  info : List UInt8
  deriving DecidableEq, Repr

namespace Super

/-- The fields are values of their types. -/
structure Fits (super : Super) : Prop where
  magic : super.magic < 2 ^ 32
  blocks : super.blocks < 2 ^ 32
  unusedBlocks : super.unusedBlocks < 2 ^ 32
  info : super.info.length = SFS_MAX_INFO_LEN + 1

def bytes (super : Super) : List UInt8 :=
  toLe 4 super.magic ++ (toLe 4 super.blocks ++ (toLe 4 super.unusedBlocks ++ super.info))

def size : Nat := 44

def ofBytes (bytes : List UInt8) : Super where
  magic := ofLe (part bytes 0 4)
  blocks := ofLe (part bytes 4 4)
  unusedBlocks := ofLe (part bytes 8 4)
  info := part bytes 12 (SFS_MAX_INFO_LEN + 1)

end Super

structure DiskInode where
  size : Nat
  type : Nat
  nlinks : Nat
  blocks : Nat
  direct : List Nat
  indirect : Nat
  deriving DecidableEq, Repr

namespace DiskInode

/-- The fields are values of their types. -/
structure Fits (din : DiskInode) : Prop where
  size : din.size < 2 ^ 32
  type : din.type < 2 ^ 16
  nlinks : din.nlinks < 2 ^ 16
  blocks : din.blocks < 2 ^ 32
  direct : din.direct.length = SFS_NDIRECT
  slots : ∀ ino ∈ din.direct, ino < 2 ^ 32
  indirect : din.indirect < 2 ^ 32

def bytes (din : DiskInode) : List UInt8 :=
  toLe 4 din.size ++ (toLe 2 din.type ++ (toLe 2 din.nlinks ++ (toLe 4 din.blocks ++
    (din.direct.flatMap (toLe 4) ++ toLe 4 din.indirect))))

/-- `sizeof(struct sfs_disk_inode)` -/
def sizeof : Nat := 64

def ofBytes (bytes : List UInt8) : DiskInode where
  size := ofLe (part bytes 0 4)
  type := ofLe (part bytes 4 2)
  nlinks := ofLe (part bytes 6 2)
  blocks := ofLe (part bytes 8 4)
  direct := (List.range SFS_NDIRECT).map fun i => ofLe (part bytes (12 + 4 * i) 4)
  indirect := ofLe (part bytes 60 4)

end DiskInode

/-- A directory entry; the name is the whole array of characters. -/
structure DiskEntry where
  ino : Nat
  name : List UInt8
  deriving DecidableEq, Repr

namespace DiskEntry

def bytes (entry : DiskEntry) : List UInt8 := toLe 4 entry.ino ++ entry.name

/-- `sizeof(struct sfs_disk_entry)` -/
def sizeof : Nat := 4 + (SFS_MAX_FNAME_LEN + 1)

def ofBytes (bytes : List UInt8) : DiskEntry where
  ino := ofLe (part bytes 0 4)
  name := part bytes 4 (SFS_MAX_FNAME_LEN + 1)

end DiskEntry

theorem part_append_left {x y : List UInt8} {n : Nat} (len : x.length = n) : part (x ++ y) 0 n = x := by
  rw [part, List.drop_zero, List.take_left' len]

theorem part_append_right {x y : List UInt8} {m offset n : Nat} (len : x.length = m) (past : m ≤ offset) :
    part (x ++ y) offset n = part y (offset - m) n := by
  rw [part, List.drop_append, List.drop_eq_nil_of_le (by omega), List.nil_append, len, part]

theorem part_all {x : List UInt8} {n : Nat} (len : x.length = n) : part x 0 n = x := by
  rw [part, List.drop_zero, List.take_of_length_le (by omega)]

theorem length_flatMap_toLe (xs : List Nat) : (xs.flatMap (toLe 4)).length = 4 * xs.length := by
  induction xs with
  | nil => rfl
  | cons x xs ih => simp [ih]; omega

theorem part_flatMap {xs : List Nat} {rest : List UInt8} {i : Nat} (inside : i < xs.length) :
    part (xs.flatMap (toLe 4) ++ rest) (4 * i) 4 = toLe 4 xs[i] := by
  induction xs generalizing i with
  | nil => simp at inside
  | cons x xs ih =>
      rw [List.flatMap_cons, List.append_assoc]
      cases i with
      | zero => exact part_append_left (by simp)
      | succ i =>
          rw [part_append_right (length_toLe 4 x) (by omega), show 4 * (i + 1) - 4 = 4 * i by omega]
          exact ih (by simpa using inside)

theorem Super.length_bytes {super : Super} (fits : super.Fits) : super.bytes.length = Super.size := by
  simp [Super.bytes, fits.info, Super.size, SFS_MAX_INFO_LEN]

theorem Super.ofBytes_bytes {super : Super} (fits : super.Fits) : Super.ofBytes super.bytes = super := by
  have magic : ofLe (part super.bytes 0 4) = super.magic := by
    rw [Super.bytes, part_append_left (by simp), ofLe_toLe fits.magic]
  have blocks : ofLe (part super.bytes 4 4) = super.blocks := by
    rw [Super.bytes, part_append_right (length_toLe _ _) (by decide), part_append_left (by simp),
      ofLe_toLe fits.blocks]
  have unused : ofLe (part super.bytes 8 4) = super.unusedBlocks := by
    rw [Super.bytes, part_append_right (length_toLe _ _) (by decide),
      part_append_right (length_toLe _ _) (by decide), part_append_left (by simp),
      ofLe_toLe fits.unusedBlocks]
  have info : part super.bytes 12 (SFS_MAX_INFO_LEN + 1) = super.info := by
    rw [Super.bytes, part_append_right (length_toLe _ _) (by decide),
      part_append_right (length_toLe _ _) (by decide), part_append_right (length_toLe _ _) (by decide)]
    exact part_all fits.info
  rw [Super.ofBytes, magic, blocks, unused, info]

theorem DiskInode.length_bytes {din : DiskInode} (fits : din.Fits) :
    din.bytes.length = DiskInode.sizeof := by
  simp only [DiskInode.bytes, List.length_append, length_toLe, length_flatMap_toLe, fits.direct]
  rfl

/-- The fields are found where they were put, whatever follows the structure. -/
theorem DiskInode.ofBytes_bytes_append {din : DiskInode} (fits : din.Fits) (rest : List UInt8) :
    DiskInode.ofBytes (din.bytes ++ rest) = din := by
  have slots : (din.direct.flatMap (toLe 4)).length = 48 := by
    rw [length_flatMap_toLe, fits.direct]
    rfl
  have layout : din.bytes ++ rest = toLe 4 din.size ++ (toLe 2 din.type ++ (toLe 2 din.nlinks ++
      (toLe 4 din.blocks ++ (din.direct.flatMap (toLe 4) ++ (toLe 4 din.indirect ++ rest))))) := by
    simp only [DiskInode.bytes, List.append_assoc]
  have direct : ∀ i < SFS_NDIRECT, ofLe (part (din.bytes ++ rest) (12 + 4 * i) 4) = din.direct.getD i 0 := by
    intro i inside
    have within : i < din.direct.length := by rw [fits.direct]; exact inside
    rw [layout, part_append_right (length_toLe _ _) (by omega), part_append_right (length_toLe _ _) (by omega),
      part_append_right (length_toLe _ _) (by omega), part_append_right (length_toLe _ _) (by omega),
      show 12 + 4 * i - 4 - 2 - 2 - 4 = 4 * i by omega, part_flatMap within,
      ofLe_toLe (fits.slots _ (List.getElem_mem within)), List.getD_eq_getElem _ _ within]
  have all : (List.range SFS_NDIRECT).map (fun i => ofLe (part (din.bytes ++ rest) (12 + 4 * i) 4)) =
      din.direct := by
    refine List.ext_getElem (by simp [fits.direct]) fun i left right => ?_
    rw [List.getElem_map, List.getElem_range, direct i (by simpa using left), List.getD_eq_getElem _ _ right]
  rw [DiskInode.ofBytes, all, layout, part_append_left (length_toLe _ _), ofLe_toLe fits.size]
  congr 1
  · rw [part_append_right (length_toLe _ _) (by decide), part_append_left (length_toLe _ _),
      ofLe_toLe fits.type]
  · rw [part_append_right (length_toLe _ _) (by decide), part_append_right (length_toLe _ _) (by decide),
      part_append_left (length_toLe _ _), ofLe_toLe fits.nlinks]
  · rw [part_append_right (length_toLe _ _) (by decide), part_append_right (length_toLe _ _) (by decide),
      part_append_right (length_toLe _ _) (by decide), part_append_left (length_toLe _ _),
      ofLe_toLe fits.blocks]
  · rw [part_append_right (length_toLe _ _) (by decide), part_append_right (length_toLe _ _) (by decide),
      part_append_right (length_toLe _ _) (by decide), part_append_right (length_toLe _ _) (by decide),
      part_append_right slots (by decide), part_append_left (length_toLe _ _), ofLe_toLe fits.indirect]

theorem DiskInode.ofBytes_bytes {din : DiskInode} (fits : din.Fits) : DiskInode.ofBytes din.bytes = din := by
  simpa using DiskInode.ofBytes_bytes_append fits []

/-! ## In memory -/

/-- An inode of the file system in memory, with the reference count of its `struct inode`. -/
structure SfsInode where
  din : DiskInode
  ino : Nat
  dirty : Bool
  reclaimCount : Nat
  refCount : Nat
  deriving DecidableEq, Repr

/-- A block device. It is addressed by 32-bit byte offsets. -/
structure Device where
  dBlocks : Nat
  blocks : Nat → Block
  small : dBlocks ≤ 2 ^ 20

/-- The file system in memory on its device. The inodes are numbered in the order in
    which they came into memory; `inodeList` has those on the list, the last one first.
    `faults` says which of the coming device operations and allocations will fail. -/
structure SfsFs where
  super : Super
  dev : Device
  freemap : Bitmap
  superDirty : Bool
  inodeList : List Nat
  nodes : Nat → SfsInode
  nextNode : Nat
  faults : List Bool

namespace SfsFs

def setNode (s : SfsFs) (sin : Nat) (f : SfsInode → SfsInode) : SfsFs :=
  { s with nodes := Function.update s.nodes sin (f (s.nodes sin)) }

def setBlock (s : SfsFs) (blkno : Nat) (b : Block) : SfsFs :=
  { s with dev.blocks := Function.update s.dev.blocks blkno b }

/-- One device operation or allocation later. -/
def tick (s : SfsFs) : SfsFs := { s with faults := s.faults.tail }

/-- A device operation on the block will fail. -/
def Fails (s : SfsFs) (blkno : Nat) : Prop := s.dev.dBlocks < blkno + 1 ∨ s.faults.headD false = true

end SfsFs

end Ucore.Fs.Sfs
