import Ucore.Fs.Disk0

/-! # `sfs_io.c` over the device

The calls of `sfs_io.c` that transfer blocks, down to the bytes of the disk. They share two
buffers, and any number of processes make them at a time.
-/

namespace Ucore.Fs.BlockIo

open Lib.Bytes Lib.Monitor Lib.Run Disk0

def SFS_BLKSIZE : Nat := 4096

/-- What the calls read of `struct sfs_fs`. -/
structure SfsFs where
  /-- `super.blocks` -/
  blocks : Nat
  dev : IdeDevice

/-- `sfs->sfs_buffer` -/
def sfsBuffer : Ptr := ⟨.shared .sfsBuffer, 0⟩

section

variable (sfs : SfsFs)

def sfsRwblockNolock (buf : Ptr) (blkno : Nat) (write check : Bool) : Op Int := do
  assert ((blkno ≠ 0 ∨ check = false) ∧ blkno < sfs.blocks)
  disk0Io sfs.dev (iobufInit buf SFS_BLKSIZE (blkno * SFS_BLKSIZE % 2 ^ 32)) write

/-- The loop of `sfs_rwblock`. -/
def rwblockLoop (write : Bool) : Nat → Ptr → Nat → Op Int
  | 0, _, _ => pure 0
  | nblks + 1, buf, blkno => do
      let ret ← sfsRwblockNolock sfs buf blkno write true
      if ret ≠ 0 then pure ret else rwblockLoop write nblks (buf.add SFS_BLKSIZE) ((blkno + 1) % 2 ^ 32)

def sfsRwblock (buf : Ptr) (blkno nblks : Nat) (write : Bool) : Op Int := do
  down .io
  let ret ← rwblockLoop sfs write nblks buf blkno
  up .io
  pure ret

def sfsRblock (buf : Ptr) (blkno nblks : Nat) : Op Int := sfsRwblock sfs buf blkno nblks false

def sfsWblock (buf : Ptr) (blkno nblks : Nat) : Op Int := sfsRwblock sfs buf blkno nblks true

/-- The assertion of `sfs_rbuf` and `sfs_wbuf`. The sum is taken in `size_t`. -/
def InBlock (len : Nat) (offset : Int) : Prop :=
  0 ≤ offset ∧ offset < SFS_BLKSIZE ∧ (offset.toNat + len) % 2 ^ 64 ≤ SFS_BLKSIZE

instance (len : Nat) (offset : Int) : Decidable (InBlock len offset) := inferInstanceAs (Decidable (_ ∧ _ ∧ _))

def sfsRbuf (buf : Ptr) (len blkno : Nat) (offset : Int) : Op Int := do
  assert (InBlock len offset)
  down .io
  let ret ← (do
    let ret ← sfsRwblockNolock sfs sfsBuffer blkno false true
    (if ret = 0 then memcpy buf (sfsBuffer.add offset.toNat) len else pure ())
    pure ret)
  up .io
  pure ret

def sfsWbuf (buf : Ptr) (len blkno : Nat) (offset : Int) : Op Int := do
  assert (InBlock len offset)
  down .io
  let ret ← (do
    let ret ← sfsRwblockNolock sfs sfsBuffer blkno false true
    if ret = 0 then do
      memcpy (sfsBuffer.add offset.toNat) buf len
      sfsRwblockNolock sfs sfsBuffer blkno true true
    else pure ret)
  up .io
  pure ret

/-- The loop of `sfs_clear_block`. -/
def clearLoop : Nat → Nat → Int → Op Int
  | 0, _, ret => pure ret
  | nblks + 1, blkno, _ => do
      let ret ← sfsRwblockNolock sfs sfsBuffer blkno true true
      if ret ≠ 0 then pure ret else clearLoop nblks ((blkno + 1) % 2 ^ 32) ret

/-- `ret` is not set before the loop; it begins as whatever the stack has. -/
def sfsClearBlock (blkno nblks : Nat) (ret : Int) : Op Int := do
  down .io
  let ret ← (do
    memset sfsBuffer 0 SFS_BLKSIZE
    clearLoop sfs nblks blkno ret)
  up .io
  pure ret

end

/-! ## The calls and what they are for -/

/-- A call, with where the buffer of the caller begins. -/
inductive Call where
  | rbuf (buf len blkno : Nat) (offset : Int)
  | wbuf (buf len blkno : Nat) (offset : Int)
  | rblock (buf blkno nblks : Nat)
  | wblock (buf blkno nblks : Nat)
  | clearBlock (blkno nblks : Nat) (ret : Int)

def ops (sfs : SfsFs) : Call → Op Int
  | .rbuf buf len blkno offset => sfsRbuf sfs ⟨.buf, buf⟩ len blkno offset
  | .wbuf buf len blkno offset => sfsWbuf sfs ⟨.buf, buf⟩ len blkno offset
  | .rblock buf blkno nblks => sfsRblock sfs ⟨.buf, buf⟩ blkno nblks
  | .wblock buf blkno nblks => sfsWblock sfs ⟨.buf, buf⟩ blkno nblks
  | .clearBlock blkno nblks ret => sfsClearBlock sfs blkno nblks ret

/-- A block of the volume that is not the superblock. -/
def Inside (sfs : SfsFs) (blkno : Nat) : Prop := 1 ≤ blkno ∧ blkno < sfs.blocks

instance (sfs : SfsFs) (blkno : Nat) : Decidable (Inside sfs blkno) := inferInstanceAs (Decidable (_ ∧ _))

def Allowed (sfs : SfsFs) : Call → Prop
  | .rbuf _ len blkno offset => Inside sfs blkno ∧ 0 ≤ offset ∧ offset < SFS_BLKSIZE ∧ offset + len ≤ SFS_BLKSIZE
  | .wbuf _ len blkno offset => Inside sfs blkno ∧ 0 ≤ offset ∧ offset < SFS_BLKSIZE ∧ offset + len ≤ SFS_BLKSIZE
  | .rblock _ blkno nblks => ∀ k < nblks, Inside sfs (blkno + k)
  | .wblock _ blkno nblks => ∀ k < nblks, Inside sfs (blkno + k)
  | .clearBlock blkno nblks _ => ∀ k < nblks, Inside sfs (blkno + k)

/-- The volume as a flat array of bytes: what a call returns, the memory of the caller after it,
    and the bytes after it. -/
def effect : Call → Block → Block → Int × Block × Block
  | .rbuf buf len blkno offset, own, disk =>
      (0, patch own buf (slice disk (blkno * SFS_BLKSIZE + offset.toNat) len), disk)
  | .wbuf buf len blkno offset, own, disk =>
      (0, own, patch disk (blkno * SFS_BLKSIZE + offset.toNat) (slice own buf len))
  | .rblock buf blkno nblks, own, disk =>
      (0, patch own buf (slice disk (blkno * SFS_BLKSIZE) (nblks * SFS_BLKSIZE)), disk)
  | .wblock buf blkno nblks, own, disk =>
      (0, own, patch disk (blkno * SFS_BLKSIZE) (slice own buf (nblks * SFS_BLKSIZE)))
  | .clearBlock blkno nblks ret, own, disk =>
      (if nblks = 0 then ret else 0, own, patch disk (blkno * SFS_BLKSIZE) (List.replicate (nblks * SFS_BLKSIZE) 0))

/-- The bytes of the disk a call is to change: where they begin and where they end. -/
def target : Call → Nat × Nat
  | .rbuf .. => (0, 0)
  | .wbuf _ len blkno offset => (blkno * SFS_BLKSIZE + offset.toNat, blkno * SFS_BLKSIZE + offset.toNat + len)
  | .rblock .. => (0, 0)
  | .wblock _ blkno nblks => (blkno * SFS_BLKSIZE, (blkno + nblks) * SFS_BLKSIZE)
  | .clearBlock blkno nblks _ => (blkno * SFS_BLKSIZE, (blkno + nblks) * SFS_BLKSIZE)

/-- The same bytes but for some. -/
def SameBut (range : Nat × Nat) (disk b : Block) : Prop := ∀ i, i < range.1 ∨ range.2 ≤ i → b i = disk i

theorem SameBut.refl {range : Nat × Nat} {disk : Block} : SameBut range disk disk := fun _ _ => rfl

/-- Bytes that are put inside the range. -/
theorem SameBut.patch {range : Nat × Nat} {disk b : Block} {at' : Nat} {bytes : List UInt8}
    (same : SameBut range disk b) (low : range.1 ≤ at') (high : at' + bytes.length ≤ range.2) :
    SameBut range disk (patch b at' bytes) := by
  intro i outside
  rw [patch_outside (by omega)]
  exact same i outside

theorem SameBut.between {range : Nat × Nat} {disk old new b : Block} (first : SameBut range disk old)
    (last : SameBut range disk new) (between : Between old new b) : SameBut range disk b := by
  intro i outside
  rcases between i with same | same
  · rw [same, first i outside]
  · rw [same, last i outside]

/-- What `mksfs` and the mount see to: the blocks are there, and there are not too many of them. -/
structure Device (sfs : SfsFs) : Prop where
  faithful : Faithful sfs.dev
  fits : sfs.blocks ≤ dBlocks sfs.dev
  limit : sfs.blocks ≤ 2 ^ 19

variable {sfs : SfsFs} {ok : Block → Prop} {held : List IoSem} {m : View} {buf : Ptr} {blkno : Nat}

/-- A buffer that is neither the disk nor the buffer of its driver. -/
structure Memory (r : Region) : Prop where
  driver : r ≠ .shared .disk0Buffer
  disk : r ≠ .shared .disk

theorem buf_memory : Memory .buf := ⟨by decide, by decide⟩

theorem sfsBuffer_memory : Memory sfsBuffer.base := ⟨by decide, by decide⟩

section

variable (device : Device sfs) (inside : Inside sfs blkno) (free : IoSem.disk0 ∉ held) (memory : Memory buf.base)

include device inside free memory

theorem sfsRwblockNolock_reads (kept : ok (diskBytes m)) :
    ∃ m', Alone ok held m (sfsRwblockNolock sfs buf blkno false true) 0 m' ∧
      Puts m buf.base
        (patch (bytesAt m buf.base) buf.offset (slice (diskBytes m) (blkno * SFS_BLKSIZE) SFS_BLKSIZE)) m' := by
  obtain ⟨nonzero, below⟩ := inside
  have small := below.trans_le device.limit
  have start : blkno * SFS_BLKSIZE % 2 ^ 32 = blkno * DISK0_BLKSIZE :=
    Nat.mod_eq_of_lt (by simp only [SFS_BLKSIZE]; omega)
  obtain ⟨m', does, puts⟩ := @disk0Io_reads ok held m sfs.dev blkno buf device.faithful small
    (below.trans_le device.fits) free memory.driver memory.disk kept
  refine ⟨m', ?_, puts⟩
  rw [sfsRwblockNolock, start]
  exact (assert_alone ⟨.inl (by omega), below⟩).bind does

theorem sfsRwblockNolock_writes {disk : Block} {range : Nat × Nat} (same : SameBut range disk (diskBytes m))
    (after : SameBut range disk (patch (diskBytes m) (blkno * SFS_BLKSIZE)
      (slice (bytesAt m buf.base) buf.offset SFS_BLKSIZE))) :
    ∃ m', Alone (SameBut range disk) held m (sfsRwblockNolock sfs buf blkno true true) 0 m' ∧
      Puts m (.shared .disk) (patch (diskBytes m) (blkno * SFS_BLKSIZE)
        (slice (bytesAt m buf.base) buf.offset SFS_BLKSIZE)) m' := by
  obtain ⟨nonzero, below⟩ := inside
  have small := below.trans_le device.limit
  have start : blkno * SFS_BLKSIZE % 2 ^ 32 = blkno * DISK0_BLKSIZE :=
    Nat.mod_eq_of_lt (by simp only [SFS_BLKSIZE]; omega)
  obtain ⟨m', does, puts⟩ := @disk0Io_writes (SameBut range disk) held m sfs.dev blkno buf device.faithful small
    (below.trans_le device.fits) free memory.driver fun b between => same.between after between
  refine ⟨m', ?_, puts⟩
  rw [sfsRwblockNolock, start]
  exact (assert_alone ⟨.inl (by omega), below⟩).bind does

end

/-! ## The loops -/

/-- The numbers of the blocks that are left are still numbers of blocks. -/
theorem next_inside {nblks : Nat} (device : Device sfs) (all : ∀ k < nblks + 1, Inside sfs (blkno + k)) :
    Inside sfs blkno ∧ (blkno + 1) % 2 ^ 32 = blkno + 1 ∧ ∀ k < nblks, Inside sfs (blkno + 1 + k) := by
  have first := all 0 (Nat.succ_pos nblks)
  have small := (first.2.trans_le device.limit)
  refine ⟨first, Nat.mod_eq_of_lt (by omega), fun k less => ?_⟩
  have later := all (k + 1) (Nat.succ_lt_succ less)
  rwa [← Nat.add_assoc, Nat.add_right_comm] at later

section

variable (device : Device sfs) (free : IoSem.disk0 ∉ held)

include device free

theorem rwblockLoop_reads {nblks : Nat} (memory : Memory buf.base) (all : ∀ k < nblks, Inside sfs (blkno + k))
    (kept : ok (diskBytes m)) :
    ∃ m', Alone ok held m (rwblockLoop sfs false nblks buf blkno) 0 m' ∧ Puts m buf.base
      (patch (bytesAt m buf.base) buf.offset (slice (diskBytes m) (blkno * SFS_BLKSIZE) (nblks * SFS_BLKSIZE))) m' := by
  induction nblks generalizing buf blkno m with
  | zero =>
      refine ⟨m, .pure, ?_⟩
      have none : slice (diskBytes m) (blkno * SFS_BLKSIZE) (0 * SFS_BLKSIZE) = [] := by simp [slice]
      rw [none, patch_nil]
      exact Puts.refl m buf.base
  | succ nblks ih =>
      obtain ⟨first, number, rest⟩ := next_inside device all
      obtain ⟨m₁, read, puts⟩ := sfsRwblockNolock_reads device first free memory kept
      have disk : diskBytes m₁ = diskBytes m := puts.others _ memory.disk.symm (by decide)
      obtain ⟨m', reads, more⟩ := @ih m₁ (buf.add SFS_BLKSIZE) _ memory rest (by rwa [disk])
      have whole : patch (bytesAt m₁ buf.base) (buf.offset + SFS_BLKSIZE)
            (slice (diskBytes m₁) ((blkno + 1) * SFS_BLKSIZE) (nblks * SFS_BLKSIZE)) =
          patch (bytesAt m buf.base) buf.offset
            (slice (diskBytes m) (blkno * SFS_BLKSIZE) ((nblks + 1) * SFS_BLKSIZE)) := by
        rw [disk, puts.there, Nat.succ_mul blkno, Nat.succ_mul nblks, Nat.add_comm (nblks * SFS_BLKSIZE), slice_append,
          patch_append, length_slice]
      refine ⟨m', read.bind ?_, puts.trans (whole ▸ more)⟩
      rw [if_neg (not_not.mpr rfl), number]
      exact reads

theorem rwblockLoop_writes {nblks : Nat} {disk : Block} {range : Nat × Nat} (memory : Memory buf.base)
    (all : ∀ k < nblks, Inside sfs (blkno + k)) (low : range.1 ≤ blkno * SFS_BLKSIZE)
    (high : (blkno + nblks) * SFS_BLKSIZE ≤ range.2) (same : SameBut range disk (diskBytes m)) :
    ∃ m', Alone (SameBut range disk) held m (rwblockLoop sfs true nblks buf blkno) 0 m' ∧ Puts m (.shared .disk)
      (patch (diskBytes m) (blkno * SFS_BLKSIZE) (slice (bytesAt m buf.base) buf.offset (nblks * SFS_BLKSIZE))) m' := by
  induction nblks generalizing buf blkno m with
  | zero =>
      refine ⟨m, .pure, ?_⟩
      have none : slice (bytesAt m buf.base) buf.offset (0 * SFS_BLKSIZE) = [] := by simp [slice]
      rw [none, patch_nil]
      exact Puts.refl m (.shared .disk)
  | succ nblks ih =>
      obtain ⟨first, number, rest⟩ := next_inside device all
      have after : SameBut range disk (patch (diskBytes m) (blkno * SFS_BLKSIZE)
          (slice (bytesAt m buf.base) buf.offset SFS_BLKSIZE)) := by
        refine same.patch low (le_trans ?_ high)
        rw [length_slice, ← Nat.succ_mul]
        exact Nat.mul_le_mul_right _ (by omega)
      obtain ⟨m₁, wrote, puts⟩ := sfsRwblockNolock_writes device first free memory same after
      rw [← puts.there] at after
      obtain ⟨m', writes, more⟩ := @ih m₁ (buf.add SFS_BLKSIZE) (blkno + 1) memory rest
        (low.trans (Nat.mul_le_mul_right _ (Nat.le_succ blkno))) (by rwa [Nat.add_right_comm]) after
      have source : bytesAt m₁ buf.base = bytesAt m buf.base := puts.others _ memory.disk memory.driver
      have whole : patch (diskBytes m₁) ((blkno + 1) * SFS_BLKSIZE)
            (slice (bytesAt m₁ buf.base) (buf.offset + SFS_BLKSIZE) (nblks * SFS_BLKSIZE)) =
          patch (diskBytes m) (blkno * SFS_BLKSIZE)
            (slice (bytesAt m buf.base) buf.offset ((nblks + 1) * SFS_BLKSIZE)) := by
        rw [source, diskBytes, puts.there, Nat.succ_mul blkno, Nat.succ_mul nblks,
          Nat.add_comm (nblks * SFS_BLKSIZE), slice_append, patch_append, length_slice]
      refine ⟨m', wrote.bind ?_, puts.trans (whole ▸ more)⟩
      rw [if_neg (not_not.mpr rfl), number]
      exact writes

/-- While the buffer is all zeros. -/
theorem clearLoop_clears {nblks : Nat} {disk : Block} {range : Nat × Nat} {ret : Int}
    (clear : slice (bytesAt m sfsBuffer.base) sfsBuffer.offset SFS_BLKSIZE = List.replicate SFS_BLKSIZE 0)
    (all : ∀ k < nblks, Inside sfs (blkno + k)) (low : range.1 ≤ blkno * SFS_BLKSIZE)
    (high : (blkno + nblks) * SFS_BLKSIZE ≤ range.2) (same : SameBut range disk (diskBytes m)) :
    ∃ m', Alone (SameBut range disk) held m (clearLoop sfs nblks blkno ret) (if nblks = 0 then ret else 0) m' ∧
      Puts m (.shared .disk)
        (patch (diskBytes m) (blkno * SFS_BLKSIZE) (List.replicate (nblks * SFS_BLKSIZE) 0)) m' := by
  induction nblks generalizing blkno m ret with
  | zero =>
      refine ⟨m, .pure, ?_⟩
      rw [Nat.zero_mul, List.replicate_zero, patch_nil]
      exact Puts.refl m (.shared .disk)
  | succ nblks ih =>
      obtain ⟨first, number, rest⟩ := next_inside device all
      have after : SameBut range disk
          (patch (diskBytes m) (blkno * SFS_BLKSIZE) (List.replicate SFS_BLKSIZE 0)) := by
        refine same.patch low (le_trans ?_ high)
        rw [List.length_replicate, ← Nat.succ_mul]
        exact Nat.mul_le_mul_right _ (by omega)
      rw [← clear] at after
      obtain ⟨m₁, wrote, puts⟩ := sfsRwblockNolock_writes device first free sfsBuffer_memory same after
      rw [← puts.there] at after
      rw [clear] at puts
      have source : bytesAt m₁ sfsBuffer.base = bytesAt m sfsBuffer.base :=
        puts.others _ sfsBuffer_memory.disk sfsBuffer_memory.driver
      obtain ⟨m', clears, more⟩ := @ih m₁ (blkno + 1) 0 (by rwa [source]) rest
        (low.trans (Nat.mul_le_mul_right _ (Nat.le_succ blkno))) (by rwa [Nat.add_right_comm]) after
      have whole : patch (diskBytes m₁) ((blkno + 1) * SFS_BLKSIZE) (List.replicate (nblks * SFS_BLKSIZE) 0) =
          patch (diskBytes m) (blkno * SFS_BLKSIZE) (List.replicate ((nblks + 1) * SFS_BLKSIZE) 0) := by
        rw [diskBytes, puts.there, Nat.succ_mul blkno, Nat.succ_mul nblks, Nat.add_comm (nblks * SFS_BLKSIZE),
          List.replicate_add, patch_append, List.length_replicate]
      refine ⟨m', wrote.bind ?_, puts.trans (whole ▸ more)⟩
      rw [if_neg (not_not.mpr rfl), number, if_neg (Nat.succ_ne_zero nblks)]
      simpa only [ite_self] using clears

end

/-! ## The calls -/

/-- What is done between taking `io_sem` and giving it back has the effect of the call, and on the
    way no byte of the disk changes that the call is not to change. -/
def Meets (call : Call) (body : Op Int) : Prop := ∀ own shared, ∃ a own' shared',
  effect call own (shared .disk) = (a, own', shared' .disk) ∧
  Alone (SameBut (target call) (shared .disk)) [] (own, shared) body a (own', shared')

theorem rblock_meets {nblks buf : Nat} (device : Device sfs) (all : ∀ k < nblks, Inside sfs (blkno + k)) :
    Meets (.rblock buf blkno nblks) (rwblockLoop sfs false nblks ⟨.buf, buf⟩ blkno) := by
  intro own shared
  obtain ⟨m', reads, puts⟩ := @rwblockLoop_reads sfs (SameBut (0, 0) (shared .disk)) [] (own, shared) ⟨.buf, buf⟩
    blkno device List.not_mem_nil nblks buf_memory all SameBut.refl
  have disk : m'.2 .disk = shared .disk := puts.others (.shared .disk) buf_memory.disk.symm (by decide)
  refine ⟨0, m'.1, m'.2, ?_, reads⟩
  rw [disk]
  exact congrArg (fun own' => (0, own', shared .disk)) puts.there.symm

theorem wblock_meets {nblks buf : Nat} (device : Device sfs) (all : ∀ k < nblks, Inside sfs (blkno + k)) :
    Meets (.wblock buf blkno nblks) (rwblockLoop sfs true nblks ⟨.buf, buf⟩ blkno) := by
  intro own shared
  obtain ⟨m', writes, puts⟩ := @rwblockLoop_writes sfs [] (own, shared) ⟨.buf, buf⟩ blkno device
    List.not_mem_nil nblks (shared .disk) (target (.wblock buf blkno nblks)) buf_memory all le_rfl le_rfl SameBut.refl
  have own' : m'.1 = own := puts.others .buf (by decide) (by decide)
  refine ⟨0, m'.1, m'.2, ?_, writes⟩
  rw [own']
  exact congrArg (fun disk => (0, own, disk)) puts.there.symm

theorem clearBlock_meets {nblks : Nat} {ret : Int} (device : Device sfs)
    (all : ∀ k < nblks, Inside sfs (blkno + k)) :
    Meets (.clearBlock blkno nblks ret)
      (memset sfsBuffer 0 SFS_BLKSIZE >>= fun _ => clearLoop sfs nblks blkno ret) := by
  intro own shared
  have filled := @memset_away (SameBut (target (.clearBlock blkno nblks ret)) (shared .disk)) [] (own, shared)
    sfsBuffer SFS_BLKSIZE 0 (by decide) SameBut.refl
  generalize cleared : setBytes (own, shared) sfsBuffer.base _ = m₁ at filled
  have clear : slice (bytesAt m₁ sfsBuffer.base) sfsBuffer.offset SFS_BLKSIZE = List.replicate SFS_BLKSIZE 0 := by
    rw [← cleared, bytesAt_setBytes]
    have whole := slice_patch (bytesAt (own, shared) sfsBuffer.base) sfsBuffer.offset (List.replicate SFS_BLKSIZE 0)
    rwa [List.length_replicate] at whole
  have disk : diskBytes m₁ = shared .disk := by
    rw [← cleared]
    exact diskBytes_setBytes (by decide) _
  have mine : m₁.1 = own := by
    rw [← cleared]
    rfl
  obtain ⟨m', clears, puts⟩ := @clearLoop_clears sfs [] m₁ blkno device List.not_mem_nil nblks (shared .disk)
    (target (.clearBlock blkno nblks ret)) ret clear all le_rfl le_rfl
    (disk ▸ SameBut.refl)
  have own' : m'.1 = own := (puts.others .buf (by decide) (by decide)).trans mine
  refine ⟨_, m'.1, m'.2, ?_, filled.bind clears⟩
  rw [own', ← disk]
  exact congrArg (fun disk => (_, own, disk)) puts.there.symm

theorem rbuf_meets {buf len : Nat} {offset : Int} (device : Device sfs) (inside : Inside sfs blkno)
    (fits : offset.toNat + len ≤ SFS_BLKSIZE) :
    Meets (.rbuf buf len blkno offset) (sfsRwblockNolock sfs sfsBuffer blkno false true >>= fun ret =>
      (if ret = 0 then memcpy ⟨.buf, buf⟩ (sfsBuffer.add offset.toNat) len else pure ()) >>= fun _ => pure ret) := by
  intro own shared
  obtain ⟨m₁, read, puts⟩ := @sfsRwblockNolock_reads sfs (SameBut (0, 0) (shared .disk)) [] (own, shared) sfsBuffer
    blkno device inside List.not_mem_nil sfsBuffer_memory SameBut.refl
  have disk : diskBytes m₁ = shared .disk := puts.others (.shared .disk) (by decide) (by decide)
  have mine : bytesAt m₁ .buf = own := puts.others .buf (by decide) (by decide)
  have copied := @memcpy_away (SameBut (0, 0) (shared .disk)) [] m₁ ⟨.buf, buf⟩ (sfsBuffer.add offset.toNat) len
    (show Region.shared .sfsBuffer ≠ .buf by decide)
    buf_memory.disk (disk ▸ SameBut.refl)
  have brought : slice (bytesAt m₁ sfsBuffer.base) (sfsBuffer.add offset.toNat).offset len =
      slice (shared .disk) (blkno * SFS_BLKSIZE + offset.toNat) len := by
    rw [puts.there, show (sfsBuffer.add offset.toNat).offset = offset.toNat from Nat.zero_add _]
    exact slice_patch_slice _ _ _ fits
  refine ⟨0, _, m₁.2, ?_, read.bind (copied.bind .pure)⟩
  rw [show m₁.2 .disk = shared .disk from disk, mine]
  exact congrArg (fun bytes => (0, patch own buf bytes, shared .disk)) brought.symm

theorem wbuf_meets {buf len : Nat} {offset : Int} (device : Device sfs) (inside : Inside sfs blkno)
    (fits : offset.toNat + len ≤ SFS_BLKSIZE) :
    Meets (.wbuf buf len blkno offset) (sfsRwblockNolock sfs sfsBuffer blkno false true >>= fun ret =>
      if ret = 0 then memcpy (sfsBuffer.add offset.toNat) ⟨.buf, buf⟩ len >>= fun _ =>
        sfsRwblockNolock sfs sfsBuffer blkno true true
      else pure ret) := by
  intro own shared
  set range := target (.wbuf buf len blkno offset) with changed
  obtain ⟨m₁, read, puts⟩ := @sfsRwblockNolock_reads sfs (SameBut range (shared .disk)) [] (own, shared) sfsBuffer blkno
    device inside List.not_mem_nil sfsBuffer_memory SameBut.refl
  have disk : diskBytes m₁ = shared .disk := puts.others (.shared .disk) (by decide) (by decide)
  have mine : bytesAt m₁ .buf = own := puts.others .buf (by decide) (by decide)
  have copied := @memcpy_away (SameBut range (shared .disk)) [] m₁ (sfsBuffer.add offset.toNat) ⟨.buf, buf⟩ len
    (show Region.buf ≠ .shared .sfsBuffer by decide)
    sfsBuffer_memory.disk (disk ▸ SameBut.refl)
  have start : (sfsBuffer.add offset.toNat).offset = offset.toNat := Nat.zero_add _
  rw [start] at copied
  generalize filled : setBytes m₁ (sfsBuffer.add offset.toNat).base _ = m₂ at copied
  have buffered : bytesAt m₂ sfsBuffer.base =
      patch (patch (bytesAt (own, shared) sfsBuffer.base) 0 (slice (shared .disk) (blkno * SFS_BLKSIZE) SFS_BLKSIZE))
        offset.toNat (slice own buf len) := by
    rw [← filled, show (sfsBuffer.add offset.toNat).base = sfsBuffer.base from rfl, bytesAt_setBytes, puts.there, mine]
    rfl
  have disk₂ : diskBytes m₂ = shared .disk := by
    rw [← filled]
    exact (diskBytes_setBytes sfsBuffer_memory.disk _).trans disk
  have mine₂ : bytesAt m₂ .buf = own := by
    rw [← filled]
    exact (bytesAt_setBytes_of_ne (show Region.buf ≠ .shared .sfsBuffer by decide)).trans mine
  have whole : patch (diskBytes m₂) (blkno * SFS_BLKSIZE)
        (slice (bytesAt m₂ sfsBuffer.base) sfsBuffer.offset SFS_BLKSIZE) =
      patch (shared .disk) (blkno * SFS_BLKSIZE + offset.toNat) (slice own buf len) := by
    rw [buffered, disk₂]
    exact patch_slice_patch _ _ _ (by rwa [length_slice])
  have after : SameBut range (shared .disk)
      (patch (shared .disk) (blkno * SFS_BLKSIZE + offset.toNat) (slice own buf len)) :=
    SameBut.refl.patch le_rfl (by rw [length_slice]; exact le_rfl)
  obtain ⟨m', wrote, more⟩ := @sfsRwblockNolock_writes sfs [] m₂ sfsBuffer blkno device inside List.not_mem_nil
    sfsBuffer_memory (shared .disk) range (by rw [disk₂]; exact SameBut.refl) (by rwa [whole])
  have own' : m'.1 = own := (more.others .buf (by decide) (by decide)).trans mine₂
  have disk' : m'.2 .disk = patch (shared .disk) (blkno * SFS_BLKSIZE + offset.toNat) (slice own buf len) :=
    more.there.trans whole
  refine ⟨0, m'.1, m'.2, ?_, read.bind (copied.bind wrote)⟩
  rw [own', disk']
  rfl

/-! ## Every run -/

/-- The disk has the bytes. -/
def Stands (shared : Shared) (disk : Block) : Prop := shared .disk = disk

/-- While a call is on its way the other bytes of the disk are as they were. -/
def OnTheWay (call : Call) (disk : Block) (shared : Shared) : Prop := SameBut (target call) disk (shared .disk)

theorem toNat_fits {offset : Int} {len : Nat} (low : 0 ≤ offset) (fits : offset + len ≤ SFS_BLKSIZE) :
    offset.toNat + len ≤ SFS_BLKSIZE := by
  simp only [SFS_BLKSIZE] at fits ⊢
  omega

theorem inBlock {offset : Int} {len : Nat} (low : 0 ≤ offset) (high : offset < SFS_BLKSIZE)
    (fits : offset + len ≤ SFS_BLKSIZE) : InBlock len offset := by
  have small := toNat_fits low fits
  refine ⟨low, high, ?_⟩
  rwa [Nat.mod_eq_of_lt (small.trans_lt (by decide))]

/-- Each call that is allowed works inside `io_sem` and there does what it is for. -/
theorem ops_implement (device : Device sfs) :
    Implements .io Stands OnTheWay (Allowed sfs) effect (ops sfs) where
  start := by
    rintro call shared _ rfl
    exact SameBut.refl
  body := by
    intro call allowed
    have locked : ∃ body, ops sfs call = (down .io >>= fun _ => body >>= fun a => up .io >>= fun _ => pure a) ∧
        Meets call body := by
      cases call with
      | rbuf buf len blkno offset =>
          obtain ⟨inside, low, high, fits⟩ := allowed
          refine ⟨_, ?_, rbuf_meets device inside (toNat_fits low fits)⟩
          rw [ops, sfsRbuf, assert, if_pos (inBlock low high fits)]
          rfl
      | wbuf buf len blkno offset =>
          obtain ⟨inside, low, high, fits⟩ := allowed
          refine ⟨_, ?_, wbuf_meets device inside (toNat_fits low fits)⟩
          rw [ops, sfsWbuf, assert, if_pos (inBlock low high fits)]
          rfl
      | rblock buf blkno nblks => exact ⟨_, rfl, rblock_meets device allowed⟩
      | wblock buf blkno nblks => exact ⟨_, rfl, wblock_meets device allowed⟩
      | clearBlock blkno nblks ret => exact ⟨_, rfl, clearBlock_meets device allowed⟩
    obtain ⟨body, same, meets⟩ := locked
    refine ⟨body, same, ?_⟩
    rintro own shared _ rfl
    obtain ⟨a, own', shared', now, does⟩ := meets own shared
    exact ⟨a, own', shared', shared' .disk, now, rfl, does⟩

variable {ι : Type} [DecidableEq ι] {s t : Sys IoSem ι Block Shared Int}

/-- In every run, with any number of processes, the calls return what they would return if each
    took effect on a flat array of bytes at one moment between the call and the return. A byte of
    the disk that is not as in the array is one that a call under way is to change. No assertion
    fails, and while there is a call under way some process can go on. -/
theorem reached_flat {labels : List (Option (Event ι Call Block Int))} (device : Device sfs)
    (initial : Initial s) (run : Trace (Step (Allowed sfs) (ops sfs)) s labels t) :
    ∃ moments w, Trace (Whole.Step (Allowed sfs) effect) (Whole.start s.own (s.shared .disk)) moments w ∧
      history moments = history labels ∧
      (∀ i, t.shared .disk i ≠ w.value i →
        ∃ p call, w.status p = .called call ∧ (target call).1 ≤ i ∧ i < (target call).2) ∧
      (∀ p, t.tasks p ≠ .running .stop) ∧
      ∀ p, t.tasks p ≠ .idle → ∃ label u, Step (Allowed sfs) (ops sfs) t label u ∧
        ∀ q call own, label ≠ some (.calls q call own) := by
  have impl := ops_implement device
  obtain ⟨moments, w, whole, same, related⟩ :=
    (initial.related (show Stands s.shared (s.shared .disk) from rfl)).run impl run
  refine ⟨moments, w, whole, same, fun i differs => ?_, fun p => related.not_stopped impl,
    fun p busy => related.progress impl busy⟩
  rcases related.stands with stands | ⟨p, call, called, way⟩
  · exact absurd (congrFun stands i) differs
  · refine ⟨p, call, called, ?_⟩
    by_contra outside
    exact differs (way i (by omega))

/-- A small volume in memory. -/
def small : SfsFs := ⟨40, ramdisk 320⟩

theorem small_device : Device small := ⟨ramdisk_faithful (by decide), by decide, by decide⟩

def quiet : Sys IoSem Nat Block Shared Int := ⟨fun _ => .init 1, fun _ => .idle, fun _ => zeros, fun _ => zeros⟩

theorem quiet_initial : Initial quiet := ⟨fun _ => rfl, fun _ => rfl⟩

/-- A byte is written while another process waits to read it. -/
theorem reached_flat_waiting : ∃ (labels : List (Option (Event Nat Call Block Int)))
    (t : Sys IoSem Nat Block Shared Int) (own : Block) (moments : List (Option (Event Nat Call Block Int)))
    (w : Whole Nat Call Block Block Int),
    Trace (Step (Allowed small) (ops small)) quiet labels t ∧
    history labels = [.calls 0 (.wbuf 0 1 1 7) fun _ => 42, .calls 1 (.rbuf 0 1 1 7) zeros, .returns 0 0 fun _ => 42,
      .returns 1 0 own] ∧ own 0 = 42 ∧
    Trace (Whole.Step (Allowed small) effect) (Whole.start quiet.own zeros) moments w ∧
    history moments = history labels ∧ ∀ p, t.tasks p ≠ .running .stop := by
  have allowed : Inside small 1 ∧ (0 : Int) ≤ 7 ∧ (7 : Int) < SFS_BLKSIZE ∧ (7 : Int) + (1 : Nat) ≤ SFS_BLKSIZE := by
    decide
  obtain ⟨labels, t, a, b, ownX, ownY, value, value', run, seen, wrote, read, -⟩ :=
    (ops_implement small_device).overlap quiet_initial (show Stands quiet.shared zeros from rfl)
      (show (1 : Nat) ≠ 0 by decide) (x := .wbuf 0 1 1 7) (y := .rbuf 0 1 1 7) allowed allowed (fun _ => 42) zeros
  obtain ⟨moments, w, whole, same, -, runs, -⟩ := reached_flat small_device quiet_initial run
  cases wrote
  cases read
  exact ⟨labels, t, _, moments, w, run, seen, rfl, whole, same, runs⟩

/-- No bytes behind the last byte of a block: the assertion of `sfs_rbuf` fails, and the call never
    returns. -/
theorem rbuf_atEnd_stops : Inside small 1 ∧ (0 : Int) ≤ 4096 ∧ (4096 : Int) + (0 : Nat) ≤ SFS_BLKSIZE ∧
    ∃ t, Step (fun _ => True) (ops small) quiet (some (.calls 0 (.rbuf 0 0 1 4096) zeros)) t ∧
      ∀ labels u, Trace (Step (fun _ => True) (ops small)) t labels u → u.tasks 0 = .running .stop := by
  have stops : ops small (.rbuf 0 0 1 4096) = .stop := by
    rw [ops, sfsRbuf, assert, if_neg (by decide)]
    rfl
  refine ⟨by decide, by decide, by decide, _, .calls zeros rfl trivial, fun labels u run => ?_⟩
  have stopped :
      ((quiet.setOwn 0 zeros).become 0 (.running (ops small (.rbuf 0 0 1 4096)))).tasks 0 = .running .stop := by
    simp [Sys.become, stops]
  generalize (quiet.setOwn 0 zeros).become 0 _ = t at run stopped
  induction run with
  | nil => exact stopped
  | cons taken _ ih => exact ih (taken.stopped stopped)

end Ucore.Fs.BlockIo
