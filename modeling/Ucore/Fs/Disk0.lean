import Ucore.Lib.Bytes
import Ucore.Lib.Monitor

/-! # `dev_disk0.c` and below

A transfer between memory and the disk: `iobuf.c`, `dev_disk0.c`, and the disk driver behind
`ide.c`. Memory is read and written a byte at a time, so that other processes may come between
any two bytes.
-/

namespace Ucore.Fs.Disk0

open Lib.Bytes Lib.Monitor

def SECTSIZE : Nat := 512
def DISK0_BLKSIZE : Nat := 4096
def DISK0_BUFSIZE : Nat := 4 * DISK0_BLKSIZE
def DISK0_BLK_NSECT : Nat := DISK0_BLKSIZE / SECTSIZE
def MAX_NSECS : Nat := 128
def MAX_DISK_NSECS : Nat := 0x10000000
def E_INVAL : Int := 3
def E_NO_MEM : Int := 4

/-! ## Memory -/

/-- What the processes share: `sfs->sfs_buffer`, `disk0_buffer`, and the disk itself. -/
inductive Area where
  | sfsBuffer
  | disk0Buffer
  | disk
  deriving DecidableEq, Repr

/-- Memory is shared, or is the buffer of the process that makes the call. -/
inductive Region where
  | buf
  | shared (area : Area)
  deriving DecidableEq, Repr

structure Ptr where
  base : Region
  offset : Nat
  deriving DecidableEq, Repr

/-- Pointer arithmetic on `void *`. -/
def Ptr.add (p : Ptr) (n : Nat) : Ptr := { p with offset := p.offset + n }

abbrev Shared := Area → Block

/-- The memory as a process sees it, its own buffer first. -/
abbrev View := Block × Shared

def bytesAt (m : View) : Region → Block
  | .buf => m.1
  | .shared area => m.2 area

def setBytes (m : View) (r : Region) (bytes : Block) : View :=
  match r with
  | .buf => (bytes, m.2)
  | .shared area => (m.1, Function.update m.2 area bytes)

def diskBytes (m : View) : Block := bytesAt m (.shared .disk)

/-- The semaphores `sfs->io_sem` and `disk0_sem`. -/
inductive IoSem where
  | io
  | disk0
  deriving DecidableEq, Repr

abbrev Op := Code IoSem View

def assert (c : Prop) [Decidable c] : Op Unit := if c then pure () else stop

def load (p : Ptr) : Op UInt8 := look fun m => bytesAt m p.base p.offset

def store (p : Ptr) (byte : UInt8) : Op Unit :=
  modify fun m => setBytes m p.base (Function.update (bytesAt m p.base) p.offset byte)

/-! ## `string.c` -/

def memcpy (dst src : Ptr) : Nat → Op Unit
  | 0 => pure ()
  | n + 1 => do
      memcpy dst src n
      let byte ← load (src.add n)
      store (dst.add n) byte

/-- `memmove` from the last byte to the first. -/
def memmoveDown (dst src : Ptr) : Nat → Op Unit
  | 0 => pure ()
  | n + 1 => do
      let byte ← load (src.add n)
      store (dst.add n) byte
      memmoveDown dst src n

def memmove (dst src : Ptr) (n : Nat) : Op Unit :=
  if src.base = dst.base ∧ src.offset < dst.offset ∧ dst.offset < src.offset + n then memmoveDown dst src n
  else memcpy dst src n

def memset (s : Ptr) (c : UInt8) : Nat → Op Unit
  | 0 => pure ()
  | n + 1 => do
      memset s c n
      store (s.add n) c

/-! ## `iobuf.c` -/

structure Iobuf where
  ioBase : Ptr
  ioOffset : Nat
  ioLen : Nat
  ioResid : Nat
  deriving DecidableEq, Repr

def iobufInit (base : Ptr) (len offset : Nat) : Iobuf := ⟨base, offset, len, len⟩

def iobufSkip (iob : Iobuf) (n : Nat) : Op Iobuf := do
  assert (n ≤ iob.ioResid)
  pure { iob with ioBase := iob.ioBase.add n, ioOffset := iob.ioOffset + n, ioResid := iob.ioResid - n }

/-- What is returned, what `*copiedp` becomes, and what the `iobuf` becomes. -/
def iobufMove (iob : Iobuf) (data : Ptr) (len : Nat) (m2b : Bool) : Op (Int × Nat × Iobuf) := do
  let alen := min iob.ioResid len
  let iob ← (if 0 < alen then do
      let (src, dst) := if m2b then (data, iob.ioBase) else (iob.ioBase, data)
      memmove dst src alen
      iobufSkip iob alen
    else pure iob)
  pure (if len - alen = 0 then 0 else -E_NO_MEM, alen, iob)

/-! ## `ide.c` -/

/-- `struct ide_device`: its size in sectors, and what transfers sectors. -/
structure IdeDevice where
  size : Nat
  readSecs (secno : Nat) (dst : Ptr) (nsecs : Nat) : Op Int
  writeSecs (secno : Nat) (src : Ptr) (nsecs : Nat) : Op Int

variable (ide : IdeDevice)

def ideReadSecs (secno : Nat) (dst : Ptr) (nsecs : Nat) : Op Int := do
  assert (nsecs ≤ MAX_NSECS)
  assert (secno < MAX_DISK_NSECS ∧ secno + nsecs ≤ MAX_DISK_NSECS)
  ide.readSecs secno dst nsecs

def ideWriteSecs (secno : Nat) (src : Ptr) (nsecs : Nat) : Op Int := do
  assert (nsecs ≤ MAX_NSECS)
  assert (secno < MAX_DISK_NSECS ∧ secno + nsecs ≤ MAX_DISK_NSECS)
  ide.writeSecs secno src nsecs

/-! ## `ramdisk.c` -/

/-- `MIN(nsecs, dev->size - secno)`, the difference taken in `size_t`. -/
def ramdiskSecs (size secno nsecs : Nat) : Nat := min nsecs ((size + 2 ^ 64 - secno) % 2 ^ 64)

/-- The disk that is kept in memory. -/
def ramdisk (size : Nat) : IdeDevice where
  size := size
  readSecs secno dst nsecs := do
    memcpy dst ⟨.shared .disk, secno * SECTSIZE⟩ (ramdiskSecs size secno nsecs * SECTSIZE)
    pure 0
  writeSecs secno src nsecs := do
    memcpy ⟨.shared .disk, secno * SECTSIZE⟩ src (ramdiskSecs size secno nsecs * SECTSIZE)
    pure 0

/-! ## `dev_disk0.c` -/

/-- `dev->d_blocks`, as `disk0_device_init` sets it. -/
def dBlocks : Nat := ide.size / DISK0_BLK_NSECT

def disk0Buffer : Ptr := ⟨.shared .disk0Buffer, 0⟩

def disk0ReadBlksNolock (blkno nblks : Nat) : Op Unit := do
  let ret ← ideReadSecs ide (blkno * DISK0_BLK_NSECT % 2 ^ 32) disk0Buffer (nblks * DISK0_BLK_NSECT % 2 ^ 32)
  if ret ≠ 0 then stop else pure ()

def disk0WriteBlksNolock (blkno nblks : Nat) : Op Unit := do
  let ret ← ideWriteSecs ide (blkno * DISK0_BLK_NSECT % 2 ^ 32) disk0Buffer (nblks * DISK0_BLK_NSECT % 2 ^ 32)
  if ret ≠ 0 then stop else pure ()

/-- The loop of `disk0_io`. A round moves at least a block, so it takes no more rounds than there
    are blocks. -/
def disk0Loop (write : Bool) : Nat → Iobuf → Nat → Nat → Op Unit
  | 0, _, resid, _ => if resid = 0 then pure () else stop
  | rounds + 1, iob, resid, blkno =>
      if resid = 0 then pure ()
      else if write then do
        let (_, copied, iob) ← iobufMove iob disk0Buffer DISK0_BUFSIZE false
        assert (copied ≠ 0 ∧ copied ≤ resid ∧ copied % DISK0_BLKSIZE = 0)
        let nblks := copied / DISK0_BLKSIZE
        disk0WriteBlksNolock ide blkno nblks
        disk0Loop write rounds iob (resid - copied) ((blkno + nblks) % 2 ^ 32)
      else do
        let alen := min DISK0_BUFSIZE resid
        let nblks := alen / DISK0_BLKSIZE
        disk0ReadBlksNolock ide blkno nblks
        let (_, copied, iob) ← iobufMove iob disk0Buffer alen true
        assert (copied = alen ∧ copied % DISK0_BLKSIZE = 0)
        disk0Loop write rounds iob (resid - copied) ((blkno + nblks) % 2 ^ 32)

def disk0Io (iob : Iobuf) (write : Bool) : Op Int :=
  let offset := iob.ioOffset
  let resid := iob.ioResid
  let blkno := offset / DISK0_BLKSIZE % 2 ^ 32
  let nblks := resid / DISK0_BLKSIZE % 2 ^ 32
  if offset % DISK0_BLKSIZE ≠ 0 ∨ resid % DISK0_BLKSIZE ≠ 0 then pure (-E_INVAL)
  else if dBlocks ide < (blkno + nblks) % 2 ^ 32 then pure (-E_INVAL)
  else if nblks = 0 then pure 0
  else do
    down .disk0
    disk0Loop ide write (resid / DISK0_BLKSIZE) iob resid blkno
    up .disk0
    pure 0

/-! ## Memory, piece by piece -/

@[simp] theorem bytesAt_setBytes (m : View) (r : Region) (bytes : Block) : bytesAt (setBytes m r bytes) r = bytes := by
  cases r with
  | buf => rfl
  | shared area => exact Function.update_self ..

theorem bytesAt_setBytes_of_ne {m : View} {r r' : Region} {bytes : Block} (ne : r' ≠ r) :
    bytesAt (setBytes m r bytes) r' = bytesAt m r' := by
  cases r <;> cases r' <;> first | rfl | exact absurd rfl ne | skip
  exact Function.update_of_ne (fun same => ne (congrArg _ same)) ..

@[simp] theorem setBytes_self (m : View) (r : Region) : setBytes m r (bytesAt m r) = m := by
  cases r with
  | buf => rfl
  | shared area => exact congrArg (m.1, ·) (Function.update_eq_self ..)

@[simp] theorem setBytes_setBytes (m : View) (r : Region) (bytes bytes' : Block) :
    setBytes (setBytes m r bytes) r bytes' = setBytes m r bytes' := by
  cases r with
  | buf => rfl
  | shared area => exact congrArg (m.1, ·) (Function.update_idem ..)

/-! ## One process with `io_sem` -/

/-- The process ends with a value and some memory, having given back every semaphore it took, and
    the disk is as wanted all the way. -/
abbrev Alone (ok : Block → Prop) (held : List IoSem) (m : View) (op : Op α) (a : α) (m' : View) : Prop :=
  Does .io (fun m => ok (m.2 .disk)) held m op held a m'

variable {α : Type} {ok : Block → Prop} {held : List IoSem} {m : View} {ide : IdeDevice} {dst src : Ptr}

theorem assert_alone {c : Prop} [Decidable c] (holds : c) : Alone ok held m (assert c) () m := by
  rw [assert, if_pos holds]
  exact .pure

theorem load_alone (p : Ptr) (kept : ok (diskBytes m)) :
    Alone ok held m (load p) (bytesAt m p.base p.offset) m :=
  .look _ kept

theorem store_alone (p : Ptr) (byte : UInt8)
    (kept : ok (diskBytes (setBytes m p.base (Function.update (bytesAt m p.base) p.offset byte)))) :
    Alone ok held m (store p byte) () (setBytes m p.base (Function.update (bytesAt m p.base) p.offset byte)) :=
  .modify _ kept

/-- A copy has brought some bytes after each of its steps. -/
theorem memcpy_alone {n : Nat} (apart : src.base ≠ dst.base)
    (kept : ∀ k, k ≤ n → ok (diskBytes (setBytes m dst.base
      (patch (bytesAt m dst.base) dst.offset (slice (bytesAt m src.base) src.offset k))))) :
    Alone ok held m (memcpy dst src n) ()
      (setBytes m dst.base (patch (bytesAt m dst.base) dst.offset (slice (bytesAt m src.base) src.offset n))) := by
  induction n with
  | zero =>
      have same : slice (bytesAt m src.base) src.offset 0 = [] := rfl
      rw [same, patch_nil, setBytes_self]
      exact .pure
  | succ n ih =>
      have grows : patch (bytesAt m dst.base) dst.offset (slice (bytesAt m src.base) src.offset (n + 1)) =
          Function.update (patch (bytesAt m dst.base) dst.offset (slice (bytesAt m src.base) src.offset n))
            (dst.offset + n) (bytesAt m src.base (src.offset + n)) := by
        have last : slice (bytesAt m src.base) (src.offset + n) 1 = [bytesAt m src.base (src.offset + n)] := rfl
        rw [slice_append, last, patch_concat, length_slice]
      refine (ih fun k le => kept k (Nat.le_succ_of_le le)).bind ((load_alone _ (kept n (Nat.le_succ n))).bind ?_)
      have stored := kept (n + 1) le_rfl
      rw [grows] at stored ⊢
      generalize patch (bytesAt m dst.base) dst.offset (slice (bytesAt m src.base) src.offset n) = filled at stored ⊢
      have value : bytesAt (setBytes m dst.base filled) (src.add n).base (src.add n).offset =
          bytesAt m src.base (src.offset + n) := by
        rw [bytesAt_setBytes_of_ne (show (src.add n).base ≠ dst.base from apart)]
        rfl
      have last : setBytes (setBytes m dst.base filled) dst.base (Function.update
          (bytesAt (setBytes m dst.base filled) dst.base) (dst.offset + n) (bytesAt m src.base (src.offset + n))) =
          setBytes m dst.base (Function.update filled (dst.offset + n) (bytesAt m src.base (src.offset + n))) := by
        rw [setBytes_setBytes, bytesAt_setBytes]
      rw [value, ← last]
      exact store_alone (dst.add n) _ (last.symm ▸ stored)

/-- What is put elsewhere leaves the disk as it is. -/
theorem diskBytes_setBytes {r : Region} (away : r ≠ .shared .disk) (bytes : Block) :
    diskBytes (setBytes m r bytes) = diskBytes m :=
  bytesAt_setBytes_of_ne away.symm

theorem diskBytes_setBytes_self (bytes : Block) : diskBytes (setBytes m (.shared .disk) bytes) = bytes :=
  bytesAt_setBytes ..

/-- A copy to somewhere that is not the disk. -/
theorem memcpy_away {n : Nat} (apart : src.base ≠ dst.base) (away : dst.base ≠ .shared .disk)
    (kept : ok (diskBytes m)) :
    Alone ok held m (memcpy dst src n) ()
      (setBytes m dst.base (patch (bytesAt m dst.base) dst.offset (slice (bytesAt m src.base) src.offset n))) :=
  memcpy_alone apart fun k _ => by rwa [diskBytes_setBytes away]

theorem memset_away {n : Nat} {c : UInt8} (away : dst.base ≠ .shared .disk) (kept : ok (diskBytes m)) :
    Alone ok held m (memset dst c n) ()
      (setBytes m dst.base (patch (bytesAt m dst.base) dst.offset (List.replicate n c))) := by
  induction n with
  | zero =>
      rw [List.replicate_zero, patch_nil, setBytes_self]
      exact .pure
  | succ n ih =>
      have stored : Alone ok held
          (setBytes m dst.base (patch (bytesAt m dst.base) dst.offset (List.replicate n c))) (store (dst.add n) c) ()
          (setBytes m dst.base (patch (bytesAt m dst.base) dst.offset (List.replicate (n + 1) c))) := by
        have last : setBytes (setBytes m dst.base (patch (bytesAt m dst.base) dst.offset (List.replicate n c)))
            dst.base (Function.update (patch (bytesAt m dst.base) dst.offset (List.replicate n c)) (dst.offset + n) c) =
            setBytes m dst.base (patch (bytesAt m dst.base) dst.offset (List.replicate (n + 1) c)) := by
          rw [setBytes_setBytes, List.replicate_succ', patch_concat, List.length_replicate]
        rw [← last]
        have put := @store_alone ok held
          (setBytes m dst.base (patch (bytesAt m dst.base) dst.offset (List.replicate n c))) (dst.add n) c
        simp only [Ptr.add, bytesAt_setBytes] at put
        exact put (by rwa [diskBytes_setBytes away, diskBytes_setBytes away])
      exact ih.bind stored

/-! ## The disk -/

/-- Apart from `disk0_buffer`, the memory changes in one place. -/
structure Puts (m : View) (r : Region) (bytes : Block) (m' : View) : Prop where
  there : bytesAt m' r = bytes
  others : ∀ r', r' ≠ r → r' ≠ .shared .disk0Buffer → bytesAt m' r' = bytesAt m r'

theorem Puts.refl (m : View) (r : Region) : Puts m r (bytesAt m r) m := ⟨rfl, fun _ _ _ => rfl⟩

theorem Puts.trans {r : Region} {bytes bytes' : Block} {m' m'' : View} (first : Puts m r bytes m')
    (second : Puts m' r bytes' m'') : Puts m r bytes' m'' :=
  ⟨second.there, fun r' differs scratch => (second.others r' differs scratch).trans (first.others r' differs scratch)⟩

/-- The device reads and writes its sectors as they are told, a byte of the disk never being
    anything but what it was or what it is to be. -/
structure Faithful (ide : IdeDevice) : Prop where
  reads : ∀ {ok : Block → Prop} {held : List IoSem} {m : View} {secno nsecs : Nat} {dst : Ptr},
    dst.base ≠ .shared .disk → secno + nsecs ≤ ide.size → ok (diskBytes m) →
    Alone ok held m (ide.readSecs secno dst nsecs) 0 (setBytes m dst.base
      (patch (bytesAt m dst.base) dst.offset (slice (diskBytes m) (secno * SECTSIZE) (nsecs * SECTSIZE))))
  writes : ∀ {ok : Block → Prop} {held : List IoSem} {m : View} {secno nsecs : Nat} {src : Ptr},
    src.base ≠ .shared .disk → secno + nsecs ≤ ide.size →
    (∀ b, Between (diskBytes m) (patch (diskBytes m) (secno * SECTSIZE)
      (slice (bytesAt m src.base) src.offset (nsecs * SECTSIZE))) b → ok b) →
    Alone ok held m (ide.writeSecs secno src nsecs) 0 (setBytes m (.shared .disk)
      (patch (diskBytes m) (secno * SECTSIZE) (slice (bytesAt m src.base) src.offset (nsecs * SECTSIZE))))

/-- The disk in memory is such a device. -/
theorem ramdisk_faithful {size : Nat} (small : size < 2 ^ 64) : Faithful (ramdisk size) := by
  have all : ∀ {secno nsecs}, secno + nsecs ≤ size → ramdiskSecs size secno nsecs = nsecs := by
    intro secno nsecs inside
    rw [ramdiskSecs, show (size + 2 ^ 64 - secno) % 2 ^ 64 = size - secno by omega, min_eq_left (by omega)]
  constructor
  · intro ok held m secno nsecs dst away inside kept
    simp only [ramdisk, all inside]
    exact (memcpy_away away.symm away kept).bind .pure
  · intro ok held m secno nsecs src away inside kept
    simp only [ramdisk, all inside]
    refine (memcpy_alone away fun k le => kept _ ?_).bind .pure
    obtain ⟨rest, whole⟩ := Nat.exists_eq_add_of_le le
    rw [whole, slice_append, diskBytes_setBytes_self]
    exact between_patch _ _ _ _

section

variable {blkno : Nat}

/-- The sectors of a block of the disk. -/
theorem sectors (small : blkno < 2 ^ 19) (inside : blkno < dBlocks ide) :
    blkno * DISK0_BLK_NSECT % 2 ^ 32 = blkno * DISK0_BLK_NSECT ∧
      blkno * DISK0_BLK_NSECT + DISK0_BLK_NSECT ≤ ide.size ∧
      blkno * DISK0_BLK_NSECT + DISK0_BLK_NSECT ≤ MAX_DISK_NSECS ∧
      blkno * DISK0_BLK_NSECT * SECTSIZE = blkno * DISK0_BLKSIZE := by
  simp only [dBlocks, DISK0_BLK_NSECT, DISK0_BLKSIZE, SECTSIZE, MAX_DISK_NSECS] at inside ⊢
  omega

variable (faithful : Faithful ide) (small : blkno < 2 ^ 19) (inside : blkno < dBlocks ide)

include faithful small inside

theorem disk0ReadBlksNolock_alone (kept : ok (diskBytes m)) :
    Alone ok held m (disk0ReadBlksNolock ide blkno 1) () (setBytes m (.shared .disk0Buffer)
      (patch (bytesAt m (.shared .disk0Buffer)) 0 (slice (diskBytes m) (blkno * DISK0_BLKSIZE) DISK0_BLKSIZE))) := by
  obtain ⟨number, within, below, start⟩ := sectors small inside
  rw [disk0ReadBlksNolock, ideReadSecs, number, show 1 * DISK0_BLK_NSECT % 2 ^ 32 = DISK0_BLK_NSECT from rfl]
  have read := @Faithful.reads ide faithful ok held m _ _ disk0Buffer (by decide) within kept
  rw [start] at read
  have positive : 0 < DISK0_BLK_NSECT := by decide
  exact ((assert_alone (by decide)).bind ((assert_alone ⟨by omega, below⟩).bind read)).bind .pure

theorem disk0WriteBlksNolock_alone (kept : ∀ b, Between (diskBytes m) (patch (diskBytes m) (blkno * DISK0_BLKSIZE)
      (slice (bytesAt m (.shared .disk0Buffer)) 0 DISK0_BLKSIZE)) b → ok b) :
    Alone ok held m (disk0WriteBlksNolock ide blkno 1) () (setBytes m (.shared .disk)
      (patch (diskBytes m) (blkno * DISK0_BLKSIZE) (slice (bytesAt m (.shared .disk0Buffer)) 0 DISK0_BLKSIZE))) := by
  obtain ⟨number, within, below, start⟩ := sectors small inside
  rw [disk0WriteBlksNolock, ideWriteSecs, number, show 1 * DISK0_BLK_NSECT % 2 ^ 32 = DISK0_BLK_NSECT from rfl]
  have wrote := @Faithful.writes ide faithful ok held m _ _ disk0Buffer (by decide) within (by rwa [start])
  rw [start] at wrote
  have positive : 0 < DISK0_BLK_NSECT := by decide
  exact ((assert_alone (by decide)).bind ((assert_alone ⟨by omega, below⟩).bind wrote)).bind .pure

end

theorem memmove_apart {n : Nat} (apart : src.base ≠ dst.base) : memmove dst src n = memcpy dst src n :=
  if_neg fun overlap => apart overlap.1

/-- A move of all that is left of an `iobuf`. -/
theorem iobufMove_alone {iob : Iobuf} {data : Ptr} {len : Nat} {m2b : Bool} {m' : View} (all : iob.ioResid ≤ len)
    (positive : 0 < iob.ioResid)
    (moves : Alone ok held m
      (if m2b then memmove iob.ioBase data iob.ioResid else memmove data iob.ioBase iob.ioResid) () m') :
    Alone ok held m (iobufMove iob data len m2b)
      (if len - iob.ioResid = 0 then 0 else -E_NO_MEM, iob.ioResid, { iob with
        ioBase := iob.ioBase.add iob.ioResid, ioOffset := iob.ioOffset + iob.ioResid, ioResid := 0 }) m' := by
  have skip : iobufSkip iob iob.ioResid = assert (iob.ioResid ≤ iob.ioResid) >>= fun _ => pure
      { iob with ioBase := iob.ioBase.add iob.ioResid, ioOffset := iob.ioOffset + iob.ioResid, ioResid := 0 } := by
    rw [iobufSkip, Nat.sub_self]
  simp only [iobufMove, min_eq_left all, if_pos positive, skip]
  cases m2b with
  | true =>
      refine Does.bind (moves.bind ?_) .pure
      exact (assert_alone le_rfl).bind .pure
  | false =>
      refine Does.bind (moves.bind ?_) .pure
      exact (assert_alone le_rfl).bind .pure

/-- One block goes through `disk0_buffer` while `disk0_sem` is taken. -/
theorem disk0Io_alone {blkno : Nat} {base : Ptr} {write : Bool} {m' : View} (small : blkno < 2 ^ 19)
    (inside : blkno < dBlocks ide) (free : IoSem.disk0 ∉ held)
    (turn : Alone ok (.disk0 :: held) m
      (disk0Loop ide write 1 (iobufInit base DISK0_BLKSIZE (blkno * DISK0_BLKSIZE)) DISK0_BLKSIZE blkno) () m') :
    Alone ok held m (disk0Io ide (iobufInit base DISK0_BLKSIZE (blkno * DISK0_BLKSIZE)) write) 0 m' := by
  have number : blkno * DISK0_BLKSIZE / DISK0_BLKSIZE % 2 ^ 32 = blkno := by
    simp only [DISK0_BLKSIZE]
    omega
  have one : DISK0_BLKSIZE / DISK0_BLKSIZE = 1 := rfl
  have beyond : ¬ dBlocks ide < (blkno + 1) % 2 ^ 32 := by omega
  have aligned : ¬ (blkno * DISK0_BLKSIZE % DISK0_BLKSIZE ≠ 0 ∨ DISK0_BLKSIZE % DISK0_BLKSIZE ≠ 0) := by simp
  simp only [iobufInit] at turn ⊢
  simp only [disk0Io, number, one, Nat.one_mod_eq_one.mpr (show 2 ^ 32 ≠ 1 by decide), if_neg aligned, if_neg beyond,
    one_ne_zero, ↓reduceIte]
  exact .lock_inner (by decide) free (turn.bind (.up free .pure))

/-- The loop ends after the round that moved all. -/
theorem disk0Loop_last {write : Bool} {iob : Iobuf} {size blkno : Nat} :
    Alone ok held m (disk0Loop ide write 0 iob (size - size) blkno) () m := by
  rw [disk0Loop, if_pos (Nat.sub_self _)]
  exact .pure

/-- A round that reads the one block that is left. -/
theorem disk0Loop_reads {iob : Iobuf} {blkno : Nat} {m₁ m' : View} (left : iob.ioResid = DISK0_BLKSIZE)
    (read : Alone ok held m (disk0ReadBlksNolock ide blkno 1) () m₁)
    (moves : Alone ok held m₁ (memmove iob.ioBase disk0Buffer DISK0_BLKSIZE) () m') :
    Alone ok held m (disk0Loop ide false 1 iob DISK0_BLKSIZE blkno) () m' := by
  have moved := @iobufMove_alone ok held m₁ iob disk0Buffer DISK0_BLKSIZE true m' left.le
    (by rw [left]; decide) (by rwa [if_pos rfl, left])
  rw [left] at moved
  rw [disk0Loop, if_neg (by decide), if_neg Bool.false_ne_true,
    min_eq_right (show DISK0_BLKSIZE ≤ DISK0_BUFSIZE by decide)]
  dsimp only
  rw [Nat.div_self (show 0 < DISK0_BLKSIZE by decide)]
  exact read.bind (moved.bind ((assert_alone ⟨rfl, Nat.mod_self _⟩).bind disk0Loop_last))

/-- A round that writes the one block that is left. -/
theorem disk0Loop_writes {iob : Iobuf} {blkno : Nat} {m₁ m' : View} (left : iob.ioResid = DISK0_BLKSIZE)
    (moves : Alone ok held m (memmove disk0Buffer iob.ioBase DISK0_BLKSIZE) () m₁)
    (wrote : Alone ok held m₁ (disk0WriteBlksNolock ide blkno 1) () m') :
    Alone ok held m (disk0Loop ide true 1 iob DISK0_BLKSIZE blkno) () m' := by
  have moved := @iobufMove_alone ok held m iob disk0Buffer DISK0_BUFSIZE false m₁
    (by rw [left]; decide) (by rw [left]; decide) (by rwa [if_neg Bool.false_ne_true, left])
  rw [left] at moved
  rw [disk0Loop, if_neg (by decide), if_pos rfl]
  have positive : DISK0_BLKSIZE ≠ 0 := by decide
  refine moved.bind ?_
  dsimp only
  rw [Nat.div_self (Nat.pos_of_ne_zero positive)]
  refine (assert_alone ⟨positive, le_rfl, Nat.mod_self _⟩).bind ?_
  exact wrote.bind disk0Loop_last

section

variable {blkno : Nat} {base : Ptr} (faithful : Faithful ide) (small : blkno < 2 ^ 19) (inside : blkno < dBlocks ide)
  (free : IoSem.disk0 ∉ held) (apart : base.base ≠ .shared .disk0Buffer)

include faithful small inside free apart

theorem disk0Io_reads (away : base.base ≠ .shared .disk) (kept : ok (diskBytes m)) :
    ∃ m', Alone ok held m (disk0Io ide (iobufInit base DISK0_BLKSIZE (blkno * DISK0_BLKSIZE)) false) 0 m' ∧
      Puts m base.base
        (patch (bytesAt m base.base) base.offset (slice (diskBytes m) (blkno * DISK0_BLKSIZE) DISK0_BLKSIZE)) m' := by
  set bytes := slice (diskBytes m) (blkno * DISK0_BLKSIZE) DISK0_BLKSIZE with stored
  set m₁ := setBytes m (.shared .disk0Buffer) (patch (bytesAt m (.shared .disk0Buffer)) 0 bytes) with buffered
  have read := @disk0ReadBlksNolock_alone ok (.disk0 :: held) m ide blkno faithful small inside kept
  have kept₁ : ok (diskBytes m₁) := by rwa [buffered, diskBytes_setBytes (by decide)]
  have moved := @memcpy_away ok (.disk0 :: held) m₁ base disk0Buffer DISK0_BLKSIZE (Ne.symm apart) away kept₁
  have brought : slice (bytesAt m₁ disk0Buffer.base) disk0Buffer.offset DISK0_BLKSIZE = bytes := by
    have whole := slice_patch (bytesAt m (.shared .disk0Buffer)) 0 bytes
    rw [stored, length_slice] at whole
    rw [buffered, disk0Buffer, bytesAt_setBytes, whole]
  have untouched : bytesAt m₁ base.base = bytesAt m base.base := bytesAt_setBytes_of_ne apart
  rw [brought, untouched, ← memmove_apart (Ne.symm apart)] at moved
  refine ⟨setBytes m₁ base.base _, disk0Io_alone small inside free (disk0Loop_reads rfl read moved),
    bytesAt_setBytes .., fun r differs scratch => ?_⟩
  rw [bytesAt_setBytes_of_ne differs, buffered, bytesAt_setBytes_of_ne scratch]

theorem disk0Io_writes (kept : ∀ b, Between (diskBytes m) (patch (diskBytes m) (blkno * DISK0_BLKSIZE)
      (slice (bytesAt m base.base) base.offset DISK0_BLKSIZE)) b → ok b) :
    ∃ m', Alone ok held m (disk0Io ide (iobufInit base DISK0_BLKSIZE (blkno * DISK0_BLKSIZE)) true) 0 m' ∧
      Puts m (.shared .disk) (patch (diskBytes m) (blkno * DISK0_BLKSIZE)
        (slice (bytesAt m base.base) base.offset DISK0_BLKSIZE)) m' := by
  set bytes := slice (bytesAt m base.base) base.offset DISK0_BLKSIZE with taken
  set m₁ := setBytes m (.shared .disk0Buffer) (patch (bytesAt m (.shared .disk0Buffer)) 0 bytes) with buffered
  have disk : diskBytes m₁ = diskBytes m := diskBytes_setBytes (by decide) _
  have moved := @memcpy_away ok (.disk0 :: held) m disk0Buffer base DISK0_BLKSIZE apart (by decide)
    (kept _ (Between.old _ _))
  rw [← memmove_apart apart] at moved
  have brought : slice (bytesAt m₁ (.shared .disk0Buffer)) 0 DISK0_BLKSIZE = bytes := by
    have whole := slice_patch (bytesAt m (.shared .disk0Buffer)) 0 bytes
    rw [taken, length_slice] at whole
    rw [buffered, bytesAt_setBytes, whole]
  have wrote := @disk0WriteBlksNolock_alone ok (.disk0 :: held) m₁ ide blkno faithful small inside
    (by rwa [disk, brought])
  rw [disk, brought] at wrote
  refine ⟨setBytes m₁ (.shared .disk) _, disk0Io_alone small inside free (disk0Loop_writes rfl moved wrote),
    bytesAt_setBytes .., fun r differs scratch => ?_⟩
  rw [bytesAt_setBytes_of_ne differs, buffered, bytesAt_setBytes_of_ne scratch]

end

end Ucore.Fs.Disk0
