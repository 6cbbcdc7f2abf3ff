import Ucore.Fs.Directory
import Ucore.Fs.Mounting
import Ucore.Tools.MksfsClose

/-! # An image as a volume

What the kernel finds in an image: the inodes as the tool had them, under their numbers, with
the same blocks, and a freemap that has the blocks the tool has not given out. So an image can
be mounted, and it is a consistent file system then.
-/

namespace Ucore.Tools.MksfsVolume

open Lib.Bytes Lib.Outcome Fs
open Mksfs (CacheInode CacheBlock)
open MksfsImage MksfsBlocks MksfsNodes MksfsTree MksfsClose
open Sfs (Device DiskInode DiskEntry Super part)
open Ownership (blockAt ownedBy FileOk Inv Mounted)
open Volumes (Volume Holds fileData)
open Mounting (superOf diskFree diskCount Fresh)

/-! ## Bytes in a block -/

theorem slice_written {bytes : List UInt8} {offset len : Nat} (inside : offset + len ≤ bytes.length) :
    slice (patch zeros 0 bytes) offset len = part bytes offset len := by
  refine List.ext_getElem? fun i => ?_
  by_cases below : i < len
  · rw [slice_getElem? below, part, List.getElem?_take_of_lt below, List.getElem?_drop]
    have within : offset + i < bytes.length := by omega
    have byte : patch zeros 0 bytes (0 + (offset + i)) = bytes[offset + i] := patch_inside within
    rw [Nat.zero_add] at byte
    rw [byte, List.getElem?_eq_getElem within]
  · rw [List.getElem?_eq_none (by simpa using below), List.getElem?_eq_none]
    simp [part]
    omega

theorem word_written (xs : List Nat) (rest : List UInt8) {k : Nat} (inside : k < xs.length) (fits : xs[k] < 2 ^ 32) :
    word (patch zeros 0 (xs.flatMap (toLe 4) ++ rest)) k = xs[k] := by
  have length := Sfs.length_flatMap_toLe xs
  rw [word, slice_written (by rw [List.length_append, length]; omega), Sfs.part_flatMap inside,
    ofLe_toLe (by simpa using fits)]

/-- A cached block is written as it is. -/
theorem word_cached {b : Block} {k : Nat} (inside : k < Sfs.SFS_BLK_NENTRY) :
    word (patch zeros 0 (slice b 0 Mksfs.SFS_BLKSIZE)) k = word b k := by
  have entries : Sfs.SFS_BLK_NENTRY = 1024 := rfl
  have size : Mksfs.SFS_BLKSIZE = 4096 := rfl
  rw [word, word]
  refine congrArg ofLe (slice_congr fun i low high => ?_)
  have within : i < (slice b 0 Mksfs.SFS_BLKSIZE).length := by
    rw [length_slice]
    omega
  have byte : patch zeros 0 _ (0 + i) = (slice b 0 Mksfs.SFS_BLKSIZE)[i] := patch_inside within
  rw [Nat.zero_add] at byte
  rw [byte]
  simp [slice]

/-! ## Inodes -/

def toDisk (inode : Mksfs.Inode) : DiskInode where
  size := inode.size.toNat
  type := inode.type.toNat
  nlinks := inode.nlinks.toNat
  blocks := inode.blocks.toNat
  direct := inode.direct.map UInt32.toNat
  indirect := inode.indirect.toNat

def fileOf (t : Tool) (ci : CacheInode) : Nat × DiskInode := (ci.ino.toNat, toDisk (t.body ci.addr).inode)

variable {t : Tool} {made : List CacheInode} {junk : List UInt8} {img : Nat → Block} {ci : CacheInode}

theorem toDisk_fits {inode : Mksfs.Inode} (direct : inode.direct.length = Mksfs.SFS_NDIRECT) : (toDisk inode).Fits where
  size := inode.size.toNat_lt
  type := inode.type.toNat_lt
  nlinks := inode.nlinks.toNat_lt
  blocks := inode.blocks.toNat_lt
  direct := by
    rw [toDisk, List.length_map, direct]
    rfl
  slots ino inside := by
    obtain ⟨n, -, rfl⟩ := List.mem_map.mp inside
    exact n.toNat_lt
  indirect := inode.indirect.toNat_lt

theorem inodeBytes_eq (inode : Mksfs.Inode) :
    inodeBytes inode = (toDisk inode).bytes ++ toLe 4 inode.dbIndirect.toNat := by
  simp only [inodeBytes, DiskInode.bytes, toDisk, List.append_assoc, List.flatMap_map]

theorem stored (sound : Sound t made []) (closed : Closed t made junk img) (member : ci ∈ made) :
    DiskInode.ofBytes (slice (img ci.ino.toNat) 0 DiskInode.sizeof) = toDisk (t.body ci.addr).inode := by
  have fits := toDisk_fits (sound.shape ci member).direct
  have front := slice_patch_prefix zeros (toDisk (t.body ci.addr).inode).bytes
    (toLe 4 (t.body ci.addr).inode.dbIndirect.toNat) 0
  rw [DiskInode.length_bytes fits] at front
  rw [closed.written _ _ (.inode member), inodeBytes_eq, front, DiskInode.ofBytes_bytes fits]

theorem blocks_eq (sound : Sound t made []) (member : ci ∈ made) :
    (toDisk (t.body ci.addr).inode).blocks = (t.body ci.addr).nblks.toNat :=
  congrArg UInt32.toNat (sound.shape ci member).blocks

theorem direct_eq (inode : Mksfs.Inode) (k : Nat) : (toDisk inode).direct.getD k 0 = (inode.direct.getD k 0).toNat := by
  simp only [toDisk, List.getD_eq_getElem?_getD, List.getElem?_map]
  cases inode.direct[k]? <;> rfl

/-- The block the kernel finds is the one the tool has put there. -/
theorem blockAt_eq (sound : Sound t made []) (closed : Closed t made junk img) (member : ci ∈ made) {k : Nat}
    (below : k < Sfs.SFS_NDIRECT ∨ (t.body ci.addr).l1.isSome = true)
    (inside : k < Sfs.SFS_NDIRECT + Sfs.SFS_BLK_NENTRY) :
    blockAt img (toDisk (t.body ci.addr).inode) k = mapped (t.body ci.addr) t.cache k := by
  rw [blockAt, mapped]
  by_cases low : k < Sfs.SFS_NDIRECT
  · rw [if_pos low, if_pos (show k < Mksfs.SFS_NDIRECT from low), direct_eq]
  · rw [if_neg low, if_neg (show ¬ k < Mksfs.SFS_NDIRECT from low)]
    obtain ⟨cb, index⟩ := Option.isSome_iff_exists.mp (below.resolve_left low)
    have indirect : (toDisk (t.body ci.addr).inode).indirect = cb.ino.toNat := by
      rw [toDisk, (sound.shape ci member).indirect, index, Option.elim_some]
    rw [indirect, closed.written _ _ (.index member index), index, Option.elim_some]
    exact word_cached (by omega)

theorem dataBlocks_eq (sound : Sound t made []) (closed : Closed t made junk img) (member : ci ∈ made) :
    Ownership.dataBlocks img (toDisk (t.body ci.addr).inode) = numbers t ci.addr := by
  have shape := sound.shape ci member
  rw [Ownership.dataBlocks, blocks_eq sound member, numbers]
  refine List.map_congr_left fun k inside => ?_
  have inside := List.mem_range.mp inside
  have few := shape.few
  have l1 : SFS_L1_NBLKS = Sfs.SFS_NDIRECT + Sfs.SFS_BLK_NENTRY := rfl
  refine blockAt_eq sound closed member ?_ (by omega)
  by_cases low : k < Sfs.SFS_NDIRECT
  · exact .inl low
  · refine .inr (shape.index.mpr ?_)
    have same : Mksfs.SFS_NDIRECT = Sfs.SFS_NDIRECT := rfl
    omega

theorem indexBlocks_eq (sound : Sound t made []) (member : ci ∈ made) :
    Ownership.indexBlocks (toDisk (t.body ci.addr).inode) = indexes (t.body ci.addr) := by
  have indirect : (toDisk (t.body ci.addr).inode).indirect = ((t.body ci.addr).l1.elim 0 CacheBlock.ino).toNat := by
    rw [toDisk, (sound.shape ci member).indirect]
  rw [Ownership.indexBlocks, indirect, indexes]
  cases index : (t.body ci.addr).l1 with
  | none => rfl
  | some cb =>
      have nonzero := sound.index_ne_zero member index
      have given : cb.ino.toNat ≠ 0 := fun zero => nonzero (UInt32.toNat_inj.mp zero)
      rw [Option.elim_some, if_neg given]
      rfl

theorem ownedBy_eq (sound : Sound t made []) (closed : Closed t made junk img) (member : ci ∈ made) :
    ownedBy img (fileOf t ci) = own t ci := by
  rw [ownedBy, own, fileOf]
  simp only [indexBlocks_eq sound member, dataBlocks_eq sound closed member]

theorem fileData_eq (sound : Sound t made []) (closed : Closed t made junk img) (member : ci ∈ made) :
    fileData img (toDisk (t.body ci.addr).inode) = (node t ci.addr).contents := by
  have data := dataBlocks_eq sound closed member
  have same : fileData img (toDisk (t.body ci.addr).inode) =
      (Ownership.dataBlocks img (toDisk (t.body ci.addr).inode)).map img := by
    rw [fileData, Ownership.dataBlocks, List.map_map]
    rfl
  rw [same, data, node]
  exact List.map_congr_left fun n inside => closed.data ci member n inside

theorem fileOk (sound : Sound t made []) (closed : Closed t made junk img) (member : ci ∈ made) :
    FileOk img (toDisk (t.body ci.addr).inode) := by
  have shape := sound.shape ci member
  have blocks := blocks_eq sound member
  have l1 : SFS_L1_NBLKS = Sfs.SFS_NDIRECT + Sfs.SFS_BLK_NENTRY := rfl
  have few := shape.few
  have indirect : (toDisk (t.body ci.addr).inode).indirect = ((t.body ci.addr).l1.elim 0 CacheBlock.ino).toNat := by
    rw [toDisk, shape.indirect]
  refine ⟨(toDisk_fits shape.direct).direct, by omega, fun up => ?_, fun k behind inside reach => ?_⟩
  · obtain ⟨cb, index⟩ := Option.isSome_iff_exists.mp (shape.index.mpr (by
      have same : Mksfs.SFS_NDIRECT = Sfs.SFS_NDIRECT := rfl
      omega))
    rw [indirect, index, Option.elim_some]
    exact fun zero => sound.index_ne_zero member index (UInt32.toNat_inj.mp zero)
  · rw [blockAt_eq sound closed member ?_ inside]
    · exact shape.spare k (by omega) (by omega)
    · by_cases low : k < Sfs.SFS_NDIRECT
      · exact .inl low
      · refine .inr ?_
        have present := reach (by omega)
        rw [indirect] at present
        cases index : (t.body ci.addr).l1 with
        | none =>
            rw [index] at present
            exact absurd rfl present
        | some cb => rfl

/-! ## The freemap and the superblock -/

theorem setBits_bit {count j w i : Nat} {data : Nat → BitVec 32} (low : i < 32) :
    (setBits count j data w).getLsbD i = ((data w).getLsbD i || decide (j ≤ 32 * w + i ∧ 32 * w + i < j + count)) := by
  induction count generalizing j data with
  | zero =>
      have absent : ¬ (j ≤ 32 * w + i ∧ 32 * w + i < j + 0) := by omega
      rw [setBits, decide_eq_false absent, Bool.or_false]
  | succ count ih =>
      have bit : (Function.update data (j / 32) (data (j / 32) ||| BitVec.twoPow 32 (j % 32)) w).getLsbD i =
          ((data w).getLsbD i || decide (32 * w + i = j)) := by
        by_cases word : w = j / 32
        · subst word
          have same : (j % 32 = i) ↔ 32 * (j / 32) + i = j := by omega
          rw [Function.update_self, BitVec.getLsbD_or, BitVec.getLsbD_twoPow]
          simp [low, same, Nat.mod_lt j]
        · have other : ¬ 32 * w + i = j := by omega
          rw [Function.update_of_ne word, decide_eq_false other, Bool.or_false]
      rw [setBits, ih, bit, Bool.or_assoc]
      congr 1
      rw [← Bool.decide_or]
      exact decide_eq_decide.mpr (by omega)

/-- The bits of a block of the freemap. -/
theorem freemapWords_bit {i ninos nextIno w k : Nat} (low : k < 32) (inside : w < 1024) (begins : i < ninos) :
    (freemapWords i ninos nextIno w).getLsbD k = decide (nextIno ≤ i + (32 * w + k) ∧ i + (32 * w + k) < ninos) := by
  have bits : Mksfs.SFS_BLKBITS.toNat = 32768 := rfl
  have clear : BitVec.getLsbD (0 : BitVec 32) k = false := BitVec.getLsbD_zero
  rw [freemapWords, bits]
  split
  · rw [setBits_bit low, clear, Bool.false_or]
    refine decide_eq_decide.mpr ?_
    split <;> split <;> omega
  · exact clear.trans (decide_eq_false (by omega)).symm

theorem diskFree_eq (closed : Closed t made junk img) {i : Nat}
    (inside : i < turns t.sfs.ninos * Sfs.SFS_BLKBITS) :
    diskFree img i = decide (t.sfs.nextIno.toNat ≤ i ∧ i < t.sfs.ninos.toNat) := by
  have bits : Sfs.SFS_BLKBITS = 32768 := rfl
  have bits' : Mksfs.SFS_BLKBITS.toNat = 32768 := rfl
  have words : Bitmaps.WORD_BITS = 32 := rfl
  rw [bits] at inside
  have block : i / 32768 < turns t.sfs.ninos := by omega
  have begins : 32768 * (i / 32768) < t.sfs.ninos.toNat := by
    rw [turns, bits'] at block
    omega
  have number : Sfs.SFS_BLKN_FREEMAP + i / 32768 = Mksfs.SFS_BLKN_FREEMAP.toNat + i / 32768 := rfl
  have index : i % 32768 / 32 < SFS_BLK_NENTRY := by
    have entries : SFS_BLK_NENTRY = 1024 := rfl
    omega
  set values := freemapWords (32768 * (i / 32768)) t.sfs.ninos.toNat t.sfs.nextIno.toNat with same
  have written : word (img (Sfs.SFS_BLKN_FREEMAP + i / 32768)) (i % 32768 / 32) = (values (i % 32768 / 32)).toNat := by
    rw [number, closed.written _ _ (.freemap _ block), freemapBytes]
    have found := word_written ((List.range SFS_BLK_NENTRY).map fun k => (values k).toNat) []
      (show i % 32768 / 32 < _ by simpa using index) (by simpa using (values _).isLt)
    rw [List.append_nil, List.flatMap_map] at found
    rw [bits']
    exact found.trans (by simp)
  rw [diskFree, Mounting.diskWord, bits, words, written, BitVec.ofNat_toNat, BitVec.setWidth_eq, same,
    freemapWords_bit (Nat.mod_lt _ (by decide)) (by omega) begins]
  exact decide_eq_decide.mpr (by omega)

/-- The fields of the superblock. -/
theorem superOf_eq (closed : Closed t made junk img) {dev : Device} (same : dev.blocks = img) :
    (superOf dev).magic = Sfs.SFS_MAGIC ∧ (superOf dev).blocks = t.sfs.ninos.toNat ∧
      (superOf dev).unusedBlocks = t.sfs.unusedBlocks.toNat := by
  have super : dev.blocks Sfs.SFS_BLKN_SUPER = patch zeros 0 (superBytes t.sfs junk) := by
    rw [same]
    exact closed.written _ _ .super
  have front : ∀ offset, offset + 4 ≤ 12 →
      part (slice (patch zeros 0 (superBytes t.sfs junk)) 0 Super.size) offset 4 =
        part (superBytes t.sfs junk) offset 4 := by
    intro offset low
    have cut : part (slice (patch zeros 0 (superBytes t.sfs junk)) 0 Super.size) offset 4 =
        slice (patch zeros 0 (superBytes t.sfs junk)) offset 4 := by
      rw [show Super.size = offset +
        (4 + (40 - offset)) by rw [Super.size]; omega, slice_append, slice_append, Nat.zero_add,
        Sfs.part_append_right (length_slice _ _ _) (Nat.le_refl _), Nat.sub_self, Sfs.part_append_left
          (length_slice _ _ _)]
    rw [cut, slice_written]
    simp [superBytes]
    omega
  have magic : (superOf dev).magic = ofLe (part (superBytes t.sfs junk) 0 4) := by
    rw [superOf, super, Super.ofBytes, front 0 (by decide)]
  have blocks : (superOf dev).blocks = ofLe (part (superBytes t.sfs junk) 4 4) := by
    rw [superOf, super, Super.ofBytes, front 4 (by decide)]
  have unused : (superOf dev).unusedBlocks = ofLe (part (superBytes t.sfs junk) 8 4) := by
    rw [superOf, super, Super.ofBytes, front 8 (by decide)]
  refine ⟨?_, ?_, ?_⟩
  · rw [magic, superBytes, Sfs.part_append_left (length_toLe _ _)]
    exact ofLe_toLe (by decide)
  · rw [blocks, superBytes, Sfs.part_append_right (length_toLe _ _) (by decide), Sfs.part_append_left (length_toLe _ _)]
    exact ofLe_toLe t.sfs.ninos.toNat_lt
  · rw [unused, superBytes, Sfs.part_append_right (length_toLe _ _) (by decide),
      Sfs.part_append_right (length_toLe _ _) (by decide), Sfs.part_append_left (length_toLe _ _)]
    exact ofLe_toLe t.sfs.unusedBlocks.toNat_lt

/-! ## Mounting an image -/

/-- What is on the disk when nothing has come into memory yet. -/
def volume (img : Nat → Block) (files : List (Nat × DiskInode)) : Volume where
  files := files
  data n := fileData img (DiskInode.ofBytes (slice (img n) 0 DiskInode.sizeof))

/-- The device can be mounted, and holds the volume then: every block in use belongs to one of
    its files or to the layout. -/
structure Mounts (dev : Device) (vol : Volume) (s : Sfs.SfsFs) : Prop where
  ran : SfsMount.mount dev [] = .ok (.ok (), s)
  fresh : Fresh dev s
  inv : Inv s vol.files []
  holds : Holds s vol

theorem freemapBlocks_eq (closed : Closed t made junk img) {dev : Device} (same : dev.blocks = img) :
    SfsIo.freemapBlocks (superOf dev) = turns t.sfs.ninos := by
  rw [SfsIo.freemapBlocks, (superOf_eq closed same).2.1, turns]
  rfl

theorem ninos_pos (sound : Sound t made []) : 2 + turns t.sfs.ninos ≤ t.sfs.nextIno.toNat ∧
    t.sfs.nextIno.toNat ≤ t.sfs.ninos.toNat := by
  rw [← turns_eq sound.counted.size]
  exact ⟨sound.counted.first, sound.counted.below⟩

theorem ninos_map (ninos : UInt32) : ninos.toNat ≤ turns ninos * Sfs.SFS_BLKBITS := by
  have bits : Sfs.SFS_BLKBITS = 32768 := rfl
  have bits' : Mksfs.SFS_BLKBITS.toNat = 32768 := rfl
  rw [turns, bits, bits']
  omega

theorem diskCount_eq (sound : Sound t made []) (closed : Closed t made junk img) {dev : Device}
    (same : dev.blocks = img) :
    diskCount dev = (superOf dev).unusedBlocks := by
  have whole := ninos_map t.sfs.ninos
  rw [(superOf_eq closed same).2.2, sound.counted.unused, diskCount, Nat.count_eq_card_filter_range, ← Nat.card_Ico]
  refine congrArg Finset.card (Finset.ext fun i => ?_)
  change i ∈ (Finset.range (SfsIo.freemapBlocks (superOf dev) * Sfs.SFS_BLKBITS)).filter _ ↔ _
  rw [freemapBlocks_eq closed same, Finset.mem_filter, Finset.mem_range, Finset.mem_Ico, same]
  constructor
  · rintro ⟨inside, free⟩
    rw [diskFree_eq closed inside] at free
    exact of_decide_eq_true free
  · intro range
    have inside : i < turns t.sfs.ninos * Sfs.SFS_BLKBITS := by omega
    exact ⟨inside, by rw [diskFree_eq closed inside]; exact decide_eq_true range⟩

theorem fresh_free (sound : Sound t made []) (closed : Closed t made junk img) {dev : Device} (same : dev.blocks = img)
    {s : Sfs.SfsFs} (fresh : Fresh dev s) (i : Nat) :
    s.freemap.free i = true ↔ t.sfs.nextIno.toNat ≤ i ∧ i < t.sfs.ninos.toNat := by
  have whole := ninos_map t.sfs.ninos
  have nbits : SfsMount.freemapBits (superOf dev) = turns t.sfs.ninos * Sfs.SFS_BLKBITS := by
    rw [← freemapBlocks_eq closed same]
    rfl
  by_cases inside : i < turns t.sfs.ninos * Sfs.SFS_BLKBITS
  · rw [fresh.free i (by rw [nbits]; exact inside), same, diskFree_eq closed inside, decide_eq_true_iff]
  · refine ⟨fun free => ?_, fun range => by omega⟩
    have := Bitmaps.free_lt fresh.full free
    rw [fresh.nbits, nbits] at this
    omega

theorem fresh_mounted (sound : Sound t made []) (closed : Closed t made junk img) {dev : Device}
    (same : dev.blocks = img)
    (room : t.sfs.ninos.toNat ≤ dev.dBlocks) {s : Sfs.SfsFs} (fresh : Fresh dev s) : Mounted s where
  full := fresh.full
  sized := by
    rw [fresh.nbits, fresh.super]
    rfl
  bounds i free := by
    have range := (fresh_free sound closed same fresh i).mp free
    have first := ninos_pos sound
    rw [fresh.super]
    change _ ∧ i < (superOf dev).blocks
    rw [(superOf_eq closed same).2.1]
    omega
  device := by
    rw [fresh.super, fresh.device]
    exact (superOf_eq closed same).2.1.trans_le room
  unused := by
    rw [fresh.super]
    change (superOf dev).unusedBlocks = _
    rw [← diskCount_eq sound closed same, Bitmaps.Bitmap.freeCount, fresh.nbits, diskCount,
      Nat.count_eq_card_filter_range,
      Nat.count_eq_card_filter_range]
    refine congrArg Finset.card (Finset.filter_congr fun i inside => ?_)
    rw [fresh.free i (Finset.mem_range.mp inside)]

theorem files_owned (sound : Sound t made []) (closed : Closed t made junk img) :
    (made.map (fileOf t)).flatMap (ownedBy img) = made.flatMap (own t) := by
  rw [List.flatMap_map]
  exact List.flatMap_congr fun ci member => ownedBy_eq sound closed member

theorem fresh_inv (sound : Sound t made []) (closed : Closed t made junk img) {dev : Device} (same : dev.blocks = img)
    (room : t.sfs.ninos.toNat ≤ dev.dBlocks) {s : Sfs.SfsFs} (fresh : Fresh dev s) :
    Inv s (made.map (fileOf t)) [] := by
  have first := ninos_pos sound
  have blocks : s.super.blocks = t.sfs.ninos.toNat := by
    rw [fresh.super]
    exact (superOf_eq closed same).2.1
  have count : SfsIo.freemapBlocks s.super = turns t.sfs.ninos := by
    rw [fresh.super]
    exact freemapBlocks_eq closed same
  have device : s.dev.blocks = img := by rw [fresh.device, same]
  have all : Ownership.files s (made.map (fileOf t)) = made.map (fileOf t) := by
    rw [Ownership.files, fresh.inodeList, List.map_nil, List.nil_append]
  have owned : Ownership.owned s (made.map (fileOf t)) =
      (0 :: List.range' 2 (turns t.sfs.ninos)) ++ made.flatMap (own t) := by
    rw [Ownership.owned, all, device, files_owned sound closed, Ownership.layout, count]
    rfl
  have mem_owned : ∀ b, b ∈ Ownership.owned s (made.map (fileOf t)) ↔ b < t.sfs.nextIno.toNat := by
    intro b
    have given : b ∈ made.flatMap (own t) ↔ b = 1 ∨ (2 + turns t.sfs.ninos ≤ b ∧ b < t.sfs.nextIno.toNat) := by
      rw [← turns_eq sound.counted.size, ← sound.counted.mem_given, ← sound.numbers.mem_iff, List.nil_append]
    rw [owned, List.mem_append, List.mem_cons, List.mem_range'_1, given]
    omega
  refine
    { mounted := fresh_mounted sound closed same room fresh
      nodes := by rw [fresh.inodeList]; exact List.nodup_nil
      files := fun file inside => ?_
      range := fun b inside => ?_
      inuse := fun b bound => ?_
      nodup := ?_
      stored := fun file inside => ?_ }
  · rw [all] at inside
    obtain ⟨ci, member, rfl⟩ := List.mem_map.mp inside
    rw [device]
    exact fileOk sound closed member
  · rw [List.nil_append, mem_owned] at inside
    rw [blocks]
    omega
  · rw [blocks] at bound
    have free := fresh_free sound closed same fresh b
    rw [List.nil_append, mem_owned, ← Bool.not_eq_true, free]
    omega
  · rw [List.nil_append, owned, List.nodup_append]
    refine ⟨List.nodup_cons.mpr ⟨fun zero => ?_, List.nodup_range'⟩, own_nodup sound, fun b layout c file clash => ?_⟩
    · have := (List.mem_range'_1.mp zero).1
      omega
    · obtain ⟨ci, member, mine⟩ := List.mem_flatMap.mp file
      have place := own_given sound member mine
      rw [List.mem_cons, List.mem_range'_1] at layout
      omega
  · obtain ⟨ci, member, rfl⟩ := List.mem_map.mp inside
    rw [device]
    exact stored sound closed member

theorem fresh_mounts (sound : Sound t made []) (closed : Closed t made junk img) {dev : Device}
    (same : dev.blocks = img)
    (room : t.sfs.ninos.toNat ≤ dev.dBlocks) : ∃ s, Mounts dev (volume img (made.map (fileOf t))) s := by
  have first := ninos_pos sound
  obtain ⟨magic, blocks, -⟩ := superOf_eq closed same
  have known : Mounting.Known dev := ⟨by omega, magic, by omega⟩
  have mapped : Mounting.Mapped dev := by
    rw [Mounting.Mapped, freemapBlocks_eq closed same]
    have two : Sfs.SFS_BLKN_FREEMAP = 2 := rfl
    omega
  obtain ⟨s, ran, fresh⟩ := Mounting.mount_fresh known (by omega) mapped (diskCount_eq sound closed same)
  have inv := fresh_inv sound closed same room fresh
  have absent : ∀ p, p ∉ s.inodeList := fun p => by
    rw [fresh.inodeList]
    exact List.not_mem_nil
  refine ⟨s, ran, fresh, inv, ⟨_, _, inv, ?_⟩, fun p member => absurd member (absent p),
    fun p member => absurd member (absent p),
    fun p member => absurd member (absent p), fun p member => absurd member (absent p),
      fun p member => absurd member (absent p),
    fun file inside => ?_⟩
  · rw [Ownership.files, fresh.inodeList]
    exact List.Perm.refl _
  · have stored := inv.stored file inside
    rw [fresh.device, same] at stored ⊢
    exact congrArg (fileData img) stored.symm

end Ucore.Tools.MksfsVolume
