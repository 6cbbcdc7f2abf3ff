import Ucore.Fs.Descriptors
import Ucore.Fs.Directory

/-! # Buffers for data

`iobuf.c`, for data that goes into a buffer. A buffer is a place in memory; an operation of
the file system works on the file system, the memory and the buffer it was handed.
-/

namespace Ucore.Fs.Iobuf

open Lib.Bytes Lib.Program Lib.Program.Prog Error Sfs SfsIo Volumes Directory
open Descriptors (offT)

structure Iobuf where
  ioBase : Nat
  ioOffset : Int
  ioLen : Nat
  ioResid : Nat
  deriving DecidableEq, Repr

structure Transfer where
  fs : SfsFs
  mem : Block
  iob : Iobuf

def onFs {α : Type} (m : Op SfsFs α) : Op Transfer α := focus Transfer.fs (fun fs t => { t with fs := fs }) m

def iobufInit (base len : Nat) (offset : Int) : Iobuf := ⟨base, offset, len, len⟩

def iobufUsed (iob : Iobuf) : Nat := iob.ioLen - iob.ioResid

/-- What `iobuf_skip` makes of a buffer. -/
def skipped (iob : Iobuf) (n : Nat) : Iobuf :=
  { iob with ioBase := iob.ioBase + n, ioOffset := offT (iob.ioOffset + n), ioResid := iob.ioResid - n }

def iobufSkip (n : Nat) : Op Transfer Unit := do
  let t ← get
  ensure (n ≤ t.iob.ioResid) .assertion
  modify fun t => { t with iob := skipped t.iob n }

/-- `iobuf_move` with `m2b`. -/
def iobufMove (data : List UInt8) : Op Transfer Unit := do
  let t ← get
  let alen := min t.iob.ioResid data.length
  if 0 < alen then
    modify fun t => { t with mem := patch t.mem t.iob.ioBase (data.take alen) }
    iobufSkip alen
  if data.length = alen then pure () else throw .noMem

variable {allowed : Panic → Prop} {t : Transfer} {E : Err → Transfer → Prop} {α : Type}

theorem spec_onFs {m : Op SfsFs α} {Q : α → Transfer → Prop} :
    Spec allowed (onFs m) t Q E ↔
      Spec allowed m t.fs (fun a fs => Q a { t with fs := fs }) fun e fs => E e { t with fs := fs } := spec_focus

theorem iobufMove_spec {Q : Unit → Transfer → Prop} {data : List UInt8} (positive : 0 < data.length)
    (room : data.length ≤ t.iob.ioResid)
    (post : Q () { t with mem := patch t.mem t.iob.ioBase data, iob := skipped t.iob data.length }) :
    Spec allowed (iobufMove data) t Q E := by
  have all : min t.iob.ioResid data.length = data.length := Nat.min_eq_right room
  simp only [iobufMove, spec_bind, spec_get, all, if_pos positive, spec_modify, iobufSkip, List.take_length,
    if_true, spec_pure]
  rw [spec_ensure_of (Nat.min_le_left ..)]
  exact post

end Ucore.Fs.Iobuf
