import Ucore.Lib.Program

/-! # Errors and panics of the file system

A function of the file system returns an error code to its caller, or the kernel
panics. The panics are told apart by the assertion that fails.
-/

namespace Ucore.Fs.Error

open Lib.Program

/-- The error codes of `error.h` the functions return; `dev` is whatever a device reports. -/
inductive Err where
  | noMem
  | inval
  | busy
  | noEnt
  | naDev
  | noDev
  | notDir
  | dev
  deriving DecidableEq, Repr

/-- What the caller is returned. The only device with blocks reports `-E_INVAL`. -/
def Err.ret : Err → Int
  | .noMem => -4
  | .inval => -3
  | .busy => -15
  | .noEnt => -16
  | .naDev => -14
  | .noDev => -13
  | .notDir => -18
  | .dev => -3

inductive Panic where
  /-- `sfs_block_inuse`: the number out of range, or the block not in use. -/
  | inuse
  /-- An assertion of `bitmap.c`. -/
  | bitmap
  /-- `sfs_bmap_get_nolock - index out of range`. -/
  | range
  /-- An assertion that compares block counts. -/
  | blocks
  /-- Any other one. -/
  | assertion
  deriving DecidableEq, Repr

abbrev Op := Prog Panic Err

end Ucore.Fs.Error
