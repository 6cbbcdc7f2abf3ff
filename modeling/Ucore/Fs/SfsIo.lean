import Ucore.Fs.Sfs

/-! # Block input and output

`sfs_io.c`. The buffer `sfs_buffer` is filled anew by every function that uses it, so it
is no part of the state, and neither is the lock around it.
-/

namespace Ucore.Fs.SfsIo

open Lib.Bytes Lib.Program Lib.Program.Prog Error Bitmaps Sfs

/-- The next device operation or allocation, which may fail. -/
def attempt (e : Err) : Op SfsFs Unit := do
  let s ← get
  modify SfsFs.tick
  if s.faults.headD false = true then throw e else pure ()

/-- `dop_io` for one block; a device that fails has transferred nothing. -/
def dopIo (blkno : Nat) : Op SfsFs Unit := do
  let s ← get
  if s.dev.dBlocks < blkno + 1 then throw .inval else attempt .dev

/-- `sfs_rwblock_nolock` for reading. -/
def sfsReadBlock (blkno : Nat) (check : Bool) : Op SfsFs Block := do
  let s ← get
  ensure ((blkno ≠ 0 ∨ check = false) ∧ blkno < s.super.blocks) .assertion
  dopIo blkno
  pure (s.dev.blocks blkno)

/-- `sfs_rwblock_nolock` for writing. -/
def sfsWriteBlock (b : Block) (blkno : Nat) (check : Bool) : Op SfsFs Unit := do
  let s ← get
  ensure ((blkno ≠ 0 ∨ check = false) ∧ blkno < s.super.blocks) .assertion
  dopIo blkno
  modify fun s => s.setBlock blkno b

def sfsRbuf (len blkno offset : Nat) : Op SfsFs (List UInt8) := do
  ensure (offset < SFS_BLKSIZE ∧ offset + len ≤ SFS_BLKSIZE) .assertion
  let sfsBuffer ← sfsReadBlock blkno true
  pure (slice sfsBuffer offset len)

def sfsWbuf (buf : List UInt8) (blkno offset : Nat) : Op SfsFs Unit := do
  ensure (offset < SFS_BLKSIZE ∧ offset + buf.length ≤ SFS_BLKSIZE) .assertion
  let sfsBuffer ← sfsReadBlock blkno true
  sfsWriteBlock (patch sfsBuffer offset buf) blkno true

def sfsSyncSuper : Op SfsFs Unit := do
  let s ← get
  sfsWriteBlock (patch zeros 0 s.super.bytes) SFS_BLKN_SUPER false

/-- The bytes of the map that go into the `j`-th block of the freemap. -/
def freemapBlock (bitmap : Bitmap) (j : Nat) : Block := fun offset =>
  (toLe 4 (bitmap.map.getD (SFS_BLK_NENTRY * j + offset / 4) 0).toNat).getD (offset % 4) 0

def freemapBlocks (super : Super) : Nat := (super.blocks + SFS_BLKBITS - 1) / SFS_BLKBITS

/-- The loop of `sfs_wblock` over the blocks of the freemap, `count` of them left. -/
def writeFreemap (bitmap : Bitmap) : Nat → Nat → Op SfsFs Unit
  | 0, _ => pure ()
  | count + 1, j => do
      sfsWriteBlock (freemapBlock bitmap j) (SFS_BLKN_FREEMAP + j) true
      writeFreemap bitmap count (j + 1)

def sfsSyncFreemap : Op SfsFs Unit := do
  let s ← get
  writeFreemap s.freemap (freemapBlocks s.super) 0

/-- `sfs_clear_block` for one block. -/
def sfsClearBlock (blkno : Nat) : Op SfsFs Unit := sfsWriteBlock zeros blkno true

/-! ## What the operations do -/

variable {allowed : Panic → Prop} {s : SfsFs} {E : Err → SfsFs → Prop} {blkno : Nat}

theorem dopIo_spec {Q : Unit → SfsFs → Prop}
    (failed : s.Fails blkno → ∀ e, E e s ∧ E e s.tick) (post : ¬ s.Fails blkno → Q () s.tick) :
    Spec allowed (dopIo blkno) s Q E := by
  simp only [dopIo, attempt, spec_bind, spec_get, spec_ite, spec_throw, spec_modify, spec_pure]
  refine ⟨fun beyond => (failed (Or.inl beyond) _).1, fun inside => ⟨fun fault => ?_, fun fine => ?_⟩⟩
  · exact (failed (Or.inr fault) _).2
  · exact post fun fails => fails.elim inside fine

theorem attempt_due {e : Err} {Q : Unit → SfsFs → Prop} (failed : s.faults.headD false = true → E e s.tick)
    (post : Q () s.tick) : Spec allowed (attempt e) s Q E := by
  simp only [attempt, spec_bind, spec_get, spec_ite, spec_throw, spec_modify, spec_pure]
  exact ⟨failed, fun _ => post⟩

/-- On the device itself, only a fault that is due makes an operation fail. -/
theorem dopIo_due {Q : Unit → SfsFs → Prop} (inside : blkno < s.dev.dBlocks)
    (failed : s.faults.headD false = true → E .dev s.tick) (post : Q () s.tick) :
    Spec allowed (dopIo blkno) s Q E := by
  simp only [dopIo, spec_bind, spec_get, if_neg (show ¬ s.dev.dBlocks < blkno + 1 by omega)]
  exact attempt_due failed post

theorem sfsReadBlock_spec {Q : Block → SfsFs → Prop} (nonzero : blkno ≠ 0) (inside : blkno < s.super.blocks)
    (failed : s.Fails blkno → ∀ e, E e s ∧ E e s.tick)
    (post : ¬ s.Fails blkno → Q (s.dev.blocks blkno) s.tick) :
    Spec allowed (sfsReadBlock blkno true) s Q E := by
  simp only [sfsReadBlock, spec_bind, spec_get, spec_ensure_of (show _ ∧ _ from ⟨Or.inl nonzero, inside⟩)]
  exact dopIo_spec failed post

theorem sfsWriteBlock_spec {Q : Unit → SfsFs → Prop} {b : Block} {check : Bool}
    (nonzero : blkno ≠ 0 ∨ check = false) (inside : blkno < s.super.blocks)
    (failed : s.Fails blkno → ∀ e, E e s ∧ E e s.tick)
    (post : ¬ s.Fails blkno → Q () (s.tick.setBlock blkno b)) :
    Spec allowed (sfsWriteBlock b blkno check) s Q E := by
  simp only [sfsWriteBlock, spec_bind, spec_get, spec_ensure_of (show _ ∧ _ from ⟨nonzero, inside⟩), spec_modify]
  exact dopIo_spec failed post

theorem sfsRbuf_spec {Q : List UInt8 → SfsFs → Prop} {len offset : Nat}
    (fits : offset < SFS_BLKSIZE ∧ offset + len ≤ SFS_BLKSIZE) (nonzero : blkno ≠ 0)
    (inside : blkno < s.super.blocks) (failed : s.Fails blkno → ∀ e, E e s ∧ E e s.tick)
    (post : ¬ s.Fails blkno → Q (slice (s.dev.blocks blkno) offset len) s.tick) :
    Spec allowed (sfsRbuf len blkno offset) s Q E := by
  simp only [sfsRbuf, spec_bind, spec_ensure_of fits, spec_pure]
  exact sfsReadBlock_spec nonzero inside failed post

theorem sfsRbuf_due {Q : List UInt8 → SfsFs → Prop} {len offset : Nat}
    (fits : offset < SFS_BLKSIZE ∧ offset + len ≤ SFS_BLKSIZE) (nonzero : blkno ≠ 0)
    (inside : blkno < s.super.blocks) (device : s.super.blocks ≤ s.dev.dBlocks)
    (failed : s.faults.headD false = true → E .dev s.tick)
    (post : Q (slice (s.dev.blocks blkno) offset len) s.tick) :
    Spec allowed (sfsRbuf len blkno offset) s Q E := by
  simp only [sfsRbuf, spec_bind, spec_ensure_of fits, spec_pure, sfsReadBlock, spec_get,
    spec_ensure_of (show _ ∧ _ from ⟨Or.inl nonzero, inside⟩)]
  exact dopIo_due (by omega) failed post

/-- A block is read and written again, as neither of these operations fails. -/
def goesThrough (faults : List Bool) : Bool := !faults.headD false && !faults.tail.headD false

/-- What is left of the coming faults after that: a block that is not read is not written. -/
def leftover (faults : List Bool) : List Bool := if faults.headD false = true then faults.tail else faults.tail.tail

theorem leftover_suffix (faults : List Bool) : leftover faults <:+ faults := by
  rw [leftover]
  split
  · exact List.tail_suffix _
  · exact (List.tail_suffix _).trans (List.tail_suffix _)

theorem leftover_through {faults : List Bool} (through : goesThrough faults = true) :
    leftover faults = faults.tail.tail := by
  simp only [goesThrough, Bool.and_eq_true, Bool.not_eq_true'] at through
  rw [leftover, through.1, if_neg Bool.false_ne_true]

theorem sfsWbuf_due {Q : Unit → SfsFs → Prop} {buf : List UInt8} {offset : Nat}
    (fits : offset < SFS_BLKSIZE ∧ offset + buf.length ≤ SFS_BLKSIZE) (nonzero : blkno ≠ 0)
    (inside : blkno < s.super.blocks) (device : s.super.blocks ≤ s.dev.dBlocks)
    (failed : goesThrough s.faults = false → E .dev { s with faults := leftover s.faults })
    (post : goesThrough s.faults = true → Q () (s.tick.tick.setBlock blkno (patch (s.dev.blocks blkno) offset buf))) :
    Spec allowed (sfsWbuf buf blkno offset) s Q E := by
  have within : ¬ s.dev.dBlocks < blkno + 1 := by omega
  simp only [sfsWbuf, sfsReadBlock, sfsWriteBlock, dopIo, attempt, spec_bind, spec_ensure_of fits, spec_get,
    spec_ensure_of (show _ ∧ _ from ⟨Or.inl nonzero, inside⟩), spec_modify, spec_ite, spec_throw, spec_pure]
  refine ⟨fun beyond => absurd beyond within, fun _ => ⟨fun fault => ?_, fun fine => ?_⟩⟩
  · have stays := failed (by rw [goesThrough, fault]; rfl)
    rwa [leftover, if_pos fault] at stays
  rw [spec_ensure_of (show (blkno ≠ 0 ∨ true = false) ∧ blkno < s.tick.super.blocks from ⟨Or.inl nonzero, inside⟩)]
  have fine : s.faults.headD false = false := by simpa using fine
  refine ⟨fun beyond => absurd beyond within, fun _ => ⟨fun fault => ?_, fun second => post ?_⟩⟩
  · have stays := failed (by rw [goesThrough, show s.faults.tail.headD false = true from fault, Bool.not_true,
      Bool.and_false])
    rwa [leftover, fine, if_neg Bool.false_ne_true] at stays
  · have second : s.faults.tail.headD false = false := Bool.eq_false_of_not_eq_true second
    rw [goesThrough, fine, second]
    rfl

theorem sfsWbuf_spec {Q : Unit → SfsFs → Prop} {buf : List UInt8} {offset : Nat}
    (fits : offset < SFS_BLKSIZE ∧ offset + buf.length ≤ SFS_BLKSIZE) (nonzero : blkno ≠ 0)
    (inside : blkno < s.super.blocks)
    (failed : s.Fails blkno ∨ s.tick.Fails blkno → ∀ e, E e s ∧ E e s.tick ∧ E e s.tick.tick)
    (post : ¬ s.Fails blkno → ¬ s.tick.Fails blkno →
      Q () (s.tick.tick.setBlock blkno (patch (s.dev.blocks blkno) offset buf))) :
    Spec allowed (sfsWbuf buf blkno offset) s Q E := by
  simp only [sfsWbuf, spec_bind, spec_ensure_of fits]
  refine sfsReadBlock_spec nonzero inside (fun fails e => ?_) fun fine => ?_
  · exact ⟨(failed (Or.inl fails) e).1, (failed (Or.inl fails) e).2.1⟩
  · refine sfsWriteBlock_spec (Or.inl nonzero) inside (fun fails e => ?_) (post fine)
    exact (failed (Or.inr fails) e).2

end Ucore.Fs.SfsIo
