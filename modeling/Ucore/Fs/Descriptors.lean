import Ucore.Lib.Run

/-! # Files and their descriptors

`file.c` over `vfsfile.c` and the three tables of inode operations. What the operations
themselves do is left open: any of them may return any code and change what lies below
in any way, or not return. What is fixed is which of them an inode has.
-/

namespace Ucore.Fs.Descriptors

open Lib.Run

/-! ## Inodes and their operations -/

/-- The operations an `inode_ops` table has places for. -/
inductive Vop where
  | open | close | read | write | fstat | fsync | namefile | getdirentry | reclaim | gettype
  | tryseek | truncate | create | lookup | ioctl
  deriving DecidableEq, Repr

def sfsNodeDirops : List Vop :=
  [.open, .close, .fstat, .fsync, .namefile, .getdirentry, .reclaim, .gettype, .lookup]

def sfsNodeFileops : List Vop :=
  [.open, .close, .read, .write, .fstat, .fsync, .reclaim, .gettype, .tryseek, .truncate]

def devNodeOps : List Vop :=
  [.open, .close, .read, .write, .fstat, .ioctl, .gettype, .tryseek, .lookup]

inductive Device where
  | stdin | stdout | disk0
  deriving DecidableEq, Repr

inductive Kind where
  | dir | file
  | device (dev : Device)
  deriving DecidableEq, Repr

def Kind.ops : Kind → List Vop
  | .dir => sfsNodeDirops
  | .file => sfsNodeFileops
  | .device _ => devNodeOps

/-- An inode in memory; its table is set when it is made. -/
structure Inode where
  kind : Kind
  id : Nat
  deriving DecidableEq, Repr

/-- Why a call does not return: the assertion of `__vop_op` fails, or one of `file.c`, or
    an operation does not return. -/
inductive Stop where
  | unimplemented
  | assertion
  | inside
  deriving DecidableEq, Repr

abbrev Result := Except Stop

def assert (c : Prop) [Decidable c] : Result Unit := if c then .ok () else .error .assertion

/-- `__vop_op` -/
def vopOp (node : Inode) (sym : Vop) : Result Unit :=
  if sym ∈ node.kind.ops then .ok () else .error .unimplemented

/-! ## Codes and flags -/

def E_INVAL : Int := 3

def E_MAX_OPEN : Int := 22

def E_BUSY : Int := 15

def E_ISDIR : Int := 17

def E_EXISTS : Int := 23

def O_ACCMODE : BitVec 32 := 3

def O_RDONLY : BitVec 32 := 0

def O_WRONLY : BitVec 32 := 1

def O_RDWR : BitVec 32 := 2

def O_CREAT : BitVec 32 := 0x00000004

def O_EXCL : BitVec 32 := 0x00000008

def O_TRUNC : BitVec 32 := 0x00000010

def O_APPEND : BitVec 32 := 0x00000020

def LSEEK_SET : Int := 0

def LSEEK_CUR : Int := 1

def LSEEK_END : Int := 2

/-! ## The descriptor table -/

inductive Status where
  | none | init | opened | closed
  deriving DecidableEq, Repr

structure File where
  status : Status
  readable : Bool
  writable : Bool
  fd : Int
  pos : Int
  node : Option Inode
  openCount : Int
  deriving DecidableEq, Repr

/-- What a page holds beside the `files_struct`. -/
def FILES_STRUCT_NENTRY : Nat := (4096 - 48) / 56

def NO_FD : Int := -0x9527

/-- The descriptors of a process, and everything below. -/
structure Files (ω : Type) where
  fdArray : Nat → File
  below : ω

/-- What goes on below. An operation that returns nothing does not return. -/
structure Below (ω : Type) where
  lookup : List UInt8 → ω → Option ((Int × Inode) × ω)
  lookupParent : List UInt8 → ω → Option ((Int × Inode) × ω)
  refInc : Inode → ω → ω
  refDec : Inode → ω → Option ω
  openInc : Inode → ω → ω
  openDec : Inode → ω → Option ω
  io : Inode → (offset : Int) → (len : Nat) → (write : Bool) → ω → Option ((Int × Nat) × ω)
  tryseek : Inode → Int → ω → Option (Int × ω)
  truncate : Inode → Int → ω → Option (Int × ω)
  fsync : Inode → ω → Option (Int × ω)
  getdirentry : Inode → (offset : Int) → ω → Option ((Int × Nat) × ω)
  size : Inode → ω → Int

variable {ω α β : Type}

/-- The operations that the calls are sent to return. -/
structure Below.Returns (b : Below ω) : Prop where
  io : ∀ node offset len write w, b.io node offset len write w ≠ .none
  tryseek : ∀ node pos w, b.tryseek node pos w ≠ .none
  fsync : ∀ node w, b.fsync node w ≠ .none
  getdirentry : ∀ node offset w, b.getdirentry node offset w ≠ .none

def Files.setFile (s : Files ω) (i : Nat) (file : File) : Files ω :=
  { s with fdArray := Function.update s.fdArray i file }

/-- Something goes on below. -/
def inside (s : Files ω) (op : ω → Option (α × ω)) : Result (α × Files ω) :=
  match op s.below with
  | some (a, below) => .ok (a, { s with below := below })
  | .none => .error .inside

def effect (s : Files ω) (op : ω → Option ω) : Result (Files ω) :=
  match op s.below with
  | some below => .ok { s with below := below }
  | .none => .error .inside

/-- A file whose `node` is NULL faults in `vop_*`. -/
def nodeOf (file : File) : Result Inode :=
  match file.node with
  | some node => .ok node
  | .none => .error .assertion

/-! ## `vfsfile.c` -/

def sfsOpendir (flags : BitVec 32) : Int :=
  if flags &&& O_ACCMODE = O_RDONLY then (if flags &&& O_APPEND ≠ 0 then -E_ISDIR else 0) else -E_ISDIR

def stdinOpen (flags : BitVec 32) : Int := if flags ≠ O_RDONLY then -E_INVAL else 0

def stdoutOpen (flags : BitVec 32) : Int := if flags ≠ O_WRONLY then -E_INVAL else 0

def devOpen (dev : Device) (flags : BitVec 32) : Int :=
  if flags &&& (O_CREAT ||| O_TRUNC ||| O_EXCL ||| O_APPEND) ≠ 0 then -E_INVAL
  else match dev with
    | .stdin => stdinOpen flags
    | .stdout => stdoutOpen flags
    | .disk0 => 0

/-- What `vop_open` comes to; `sfs_openfile` accepts any flags. -/
def openNode (node : Inode) (flags : BitVec 32) : Int :=
  match node.kind with
  | .dir => sfsOpendir flags
  | .file => 0
  | .device dev => devOpen dev flags

/-- The code that sends `vfs_open` off to create the file. -/
def notFound : Int := -16

/-- The end of `vfs_open`, for an inode that was found. -/
def openFound (b : Below ω) (s : Files ω) (node : Inode) (flags : BitVec 32) : Result (Except Int Inode × Files ω) := do
  vopOp node .open
  let ret := openNode node flags
  if ret ≠ 0 then
    let s ← effect s (b.refDec node)
    pure (.error ret, s)
  else
    let s := { s with below := b.openInc node s.below }
    if flags &&& O_TRUNC ≠ 0 ∨ flags &&& O_CREAT ≠ 0 then
      vopOp node .truncate
      let (ret, s) ← inside s (b.truncate node 0)
      if ret ≠ 0 then
        let s ← effect s (b.openDec node)
        let s ← effect s (b.refDec node)
        pure (.error ret, s)
      else pure (.ok node, s)
    else pure (.ok node, s)

def vfsOpen (b : Below ω) (s : Files ω) (path : List UInt8) (flags : BitVec 32) :
    Result (Except Int Inode × Files ω) :=
  let mode := flags &&& O_ACCMODE
  if mode ≠ O_RDONLY ∧ mode ≠ O_WRONLY ∧ mode ≠ O_RDWR then pure (.error (-E_INVAL), s)
  else if flags &&& O_TRUNC ≠ 0 ∧ mode = O_RDONLY then pure (.error (-E_INVAL), s)
  else do
    let ((ret, node), s) ← inside s (b.lookup path)
    if ret ≠ 0 then
      if ret = notFound ∧ flags &&& O_CREAT ≠ 0 then
        let ((ret, dir), s) ← inside s (b.lookupParent path)
        if ret ≠ 0 then pure (.error ret, s)
        else
          -- no table has it
          vopOp dir .create
          throw .inside
      else pure (.error ret, s)
    else if flags &&& O_EXCL ≠ 0 ∧ flags &&& O_CREAT ≠ 0 then pure (.error (-E_EXISTS), s)
    else openFound b s node flags

def vfsClose (b : Below ω) (s : Files ω) (node : Inode) : Result (Files ω) := do
  let s ← effect s (b.openDec node)
  effect s (b.refDec node)

/-! ## `file.c` -/

def testfd (fd : Int) : Prop := 0 ≤ fd ∧ fd < FILES_STRUCT_NENTRY

instance (fd : Int) : Decidable (testfd fd) := inferInstanceAs (Decidable (_ ∧ _))

/-- A free entry is taken. -/
def takeEntry (s : Files ω) (i : Nat) : Result (Except Int Nat × Files ω) := do
  assert ((s.fdArray i).openCount = 0)
  pure (.ok i, s.setFile i { s.fdArray i with status := .init, node := .none })

def fdArrayAlloc (s : Files ω) (fd : Int) : Result (Except Int Nat × Files ω) :=
  if fd = NO_FD then
    match (List.range FILES_STRUCT_NENTRY).find? fun i => (s.fdArray i).status = .none with
    | some i => takeEntry s i
    | .none => pure (.error (-E_MAX_OPEN), s)
  else if testfd fd then
    if (s.fdArray fd.toNat).status = .none then takeEntry s fd.toNat else pure (.error (-E_BUSY), s)
  else pure (.error (-E_INVAL), s)

def fdArrayFree (b : Below ω) (s : Files ω) (i : Nat) : Result (Files ω) := do
  let file := s.fdArray i
  assert (file.status = .init ∨ file.status = .closed)
  assert (file.openCount = 0)
  let s ← if file.status = .closed then do
      let node ← nodeOf file
      vfsClose b s node
    else pure s
  pure (s.setFile i { s.fdArray i with status := .none })

def fdArrayAcquire (s : Files ω) (i : Nat) : Result (Files ω) := do
  assert ((s.fdArray i).status = .opened)
  pure (s.setFile i { s.fdArray i with openCount := (s.fdArray i).openCount + 1 })

def fdArrayRelease (b : Below ω) (s : Files ω) (i : Nat) : Result (Files ω) := do
  assert ((s.fdArray i).status = .opened ∨ (s.fdArray i).status = .closed)
  assert (0 < (s.fdArray i).openCount)
  let s := s.setFile i { s.fdArray i with openCount := (s.fdArray i).openCount - 1 }
  if (s.fdArray i).openCount = 0 then fdArrayFree b s i else pure s

def fdArrayOpen (s : Files ω) (i : Nat) : Result (Files ω) := do
  assert ((s.fdArray i).status = .init ∧ (s.fdArray i).node ≠ .none)
  pure (s.setFile i { s.fdArray i with status := .opened, openCount := (s.fdArray i).openCount + 1 })

def fdArrayClose (b : Below ω) (s : Files ω) (i : Nat) : Result (Files ω) := do
  assert ((s.fdArray i).status = .opened)
  assert (0 < (s.fdArray i).openCount)
  let s := s.setFile i { s.fdArray i with status := .closed, openCount := (s.fdArray i).openCount - 1 }
  if (s.fdArray i).openCount = 0 then fdArrayFree b s i else pure s

def fd2file (s : Files ω) (fd : Int) : Option Nat :=
  if testfd fd ∧ (s.fdArray fd.toNat).status = .opened ∧ (s.fdArray fd.toNat).fd = fd then some fd.toNat
  else .none

/-- What a C `off_t` holds of a number. -/
def offT (n : Int) : Int := n.bmod (2 ^ 64)

def fileOpen (b : Below ω) (s : Files ω) (path : List UInt8) (flags : BitVec 32) : Result (Int × Files ω) := do
  let mode := flags &&& O_ACCMODE
  if mode ≠ O_RDONLY ∧ mode ≠ O_WRONLY ∧ mode ≠ O_RDWR then pure (-E_INVAL, s)
  else
    let (taken, s) ← fdArrayAlloc s NO_FD
    match taken with
    | .error ret => pure (ret, s)
    | .ok i => do
        let (opened, s) ← vfsOpen b s path flags
        match opened with
        | .error ret => do
            let s ← fdArrayFree b s i
            pure (ret, s)
        | .ok node => do
            -- `vop_fstat` returns 0 for each kind of inode
            if flags &&& O_APPEND ≠ 0 then vopOp node .fstat
            let pos := if flags &&& O_APPEND ≠ 0 then b.size node s.below else 0
            let s := s.setFile i { s.fdArray i with
              pos := pos
              node := some node
              readable := mode ≠ O_WRONLY
              writable := mode ≠ O_RDONLY }
            let s ← fdArrayOpen s i
            pure ((s.fdArray i).fd, s)

def fileClose (b : Below ω) (s : Files ω) (fd : Int) : Result (Int × Files ω) :=
  match fd2file s fd with
  | .none => pure (-E_INVAL, s)
  | some i => do
      let s ← fdArrayClose b s i
      pure (0, s)

/-- What the calls on an open file have in common: the entry is held on to while an
    operation of its inode is called, and updated. -/
def callFile (b : Below ω) (s : Files ω) (i : Nat) (sym : Vop) (op : File → Inode → ω → Option (α × ω))
    (update : α → File → File) : Result (α × Files ω) := do
  let s ← fdArrayAcquire s i
  let node ← nodeOf (s.fdArray i)
  vopOp node sym
  let (a, s) ← inside s (op (s.fdArray i) node)
  let s ← fdArrayRelease b (s.setFile i (update a (s.fdArray i))) i
  pure (a, s)

/-- The position moves on by what was copied. -/
def moveOn (result : Int × Nat) (file : File) : File :=
  if file.status = .opened then { file with pos := offT (file.pos + result.2) } else file

def fileRead (b : Below ω) (s : Files ω) (fd : Int) (len : Nat) : Result ((Int × Nat) × Files ω) :=
  match fd2file s fd with
  | .none => pure ((-E_INVAL, 0), s)
  | some i =>
      if (s.fdArray i).readable then
        callFile b s i .read (fun file node => b.io node file.pos len false) moveOn
      else pure ((-E_INVAL, 0), s)

def fileWrite (b : Below ω) (s : Files ω) (fd : Int) (len : Nat) : Result ((Int × Nat) × Files ω) :=
  match fd2file s fd with
  | .none => pure ((-E_INVAL, 0), s)
  | some i =>
      if (s.fdArray i).writable then
        callFile b s i .write (fun file node => b.io node file.pos len true) moveOn
      else pure ((-E_INVAL, 0), s)

/-- The position `file_seek` is to try, or none for an unknown `whence`. -/
def seekPos (b : Below ω) (s : Files ω) (file : File) (node : Inode) (pos whence : Int) : Result (Option Int) := do
  if whence = LSEEK_SET then pure (some pos)
  else if whence = LSEEK_CUR then pure (some (offT (pos + file.pos)))
  else if whence = LSEEK_END then
    vopOp node .fstat
    pure (some (offT (pos + b.size node s.below)))
  else pure .none

def fileSeek (b : Below ω) (s : Files ω) (fd pos whence : Int) : Result (Int × Files ω) :=
  match fd2file s fd with
  | .none => pure (-E_INVAL, s)
  | some i => do
      let s ← fdArrayAcquire s i
      let node ← nodeOf (s.fdArray i)
      match ← seekPos b s (s.fdArray i) node pos whence with
      | .none => do
          let s ← fdArrayRelease b s i
          pure (-E_INVAL, s)
      | some pos => do
          vopOp node .tryseek
          let (ret, s) ← inside s (b.tryseek node pos)
          let s := if ret = 0 then s.setFile i { s.fdArray i with pos := pos } else s
          let s ← fdArrayRelease b s i
          pure (ret, s)

/-- `vop_fstat` returns 0 for each kind of inode. -/
def fileFstat (b : Below ω) (s : Files ω) (fd : Int) : Result (Int × Files ω) :=
  match fd2file s fd with
  | .none => pure (-E_INVAL, s)
  | some i => callFile b s i .fstat (fun _ _ below => some (0, below)) fun _ file => file

def fileFsync (b : Below ω) (s : Files ω) (fd : Int) : Result (Int × Files ω) :=
  match fd2file s fd with
  | .none => pure (-E_INVAL, s)
  | some i => callFile b s i .fsync (fun _ node => b.fsync node) fun _ file => file

/-- With what was copied, by which the offset in the `dirent` moves on if the code is 0. -/
def fileGetdirentry (b : Below ω) (s : Files ω) (fd offset : Int) : Result ((Int × Nat) × Files ω) :=
  match fd2file s fd with
  | .none => pure ((-E_INVAL, 0), s)
  | some i => callFile b s i .getdirentry (fun _ node => b.getdirentry node offset) fun _ file => file

def fdArrayDup (b : Below ω) (s : Files ω) (target source : Nat) : Result (Files ω) := do
  assert ((s.fdArray target).status = .init ∧ (s.fdArray source).status = .opened)
  let node ← nodeOf (s.fdArray source)
  let s := s.setFile target { s.fdArray target with
    pos := (s.fdArray source).pos
    readable := (s.fdArray source).readable
    writable := (s.fdArray source).writable
    node := some node }
  fdArrayOpen { s with below := b.openInc node (b.refInc node s.below) } target

def fileDup (b : Below ω) (s : Files ω) (fd1 fd2 : Int) : Result (Int × Files ω) :=
  match fd2file s fd1 with
  | .none => pure (-E_INVAL, s)
  | some source => do
      let (taken, s) ← fdArrayAlloc s fd2
      match taken with
      | .error ret => pure (ret, s)
      | .ok target => do
          let s ← fdArrayDup b s target source
          pure ((s.fdArray target).fd, s)

/-! ## Runs -/

inductive Call where
  | read (fd : Int) (len : Nat)
  | write (fd : Int) (len : Nat)
  | seek (fd pos whence : Int)
  | fstat (fd : Int)
  | fsync (fd : Int)
  | getdirentry (fd offset : Int)

/-- The code a call returns, and the state it leaves. -/
def Call.exec (b : Below ω) (s : Files ω) : Call → Result (Int × Files ω)
  | .read fd len => (fileRead b s fd len).map fun r => (r.1.1, r.2)
  | .write fd len => (fileWrite b s fd len).map fun r => (r.1.1, r.2)
  | .seek fd pos whence => fileSeek b s fd pos whence
  | .fstat fd => fileFstat b s fd
  | .fsync fd => fileFsync b s fd
  | .getdirentry fd offset => (fileGetdirentry b s fd offset).map fun r => (r.1.1, r.2)

inductive Action where
  | open (path : List UInt8) (flags : BitVec 32)
  | close (fd : Int)
  | dup (fd1 fd2 : Int)
  | call (c : Call)

def Action.exec (b : Below ω) (s : Files ω) : Action → Result (Int × Files ω)
  | .open path flags => fileOpen b s path flags
  | .close fd => fileClose b s fd
  | .dup fd1 fd2 => fileDup b s fd1 fd2
  | .call c => c.exec b s

def Step (b : Below ω) (s t : Files ω) : Prop := ∃ a ret, Action.exec b s a = .ok (ret, t)

/-- After `fd_array_init`. -/
def Initial (s : Files ω) : Prop :=
  ∀ i < FILES_STRUCT_NENTRY, (s.fdArray i).openCount = 0 ∧ (s.fdArray i).status = .none ∧ (s.fdArray i).fd = i

/-- A descriptor is open on an inode of some kind. -/
def OpenOn (s : Files ω) (fd : Int) (p : File → Kind → Prop) : Prop :=
  ∃ i node, fd2file s fd = some i ∧ (s.fdArray i).node = some node ∧ p (s.fdArray i) node.kind

/-- The values of `whence` that `file_seek` knows. -/
def Known (whence : Int) : Prop := whence = LSEEK_SET ∨ whence = LSEEK_CUR ∨ whence = LSEEK_END

/-- The calls for which the inode's table has no operation. -/
def Unsupported (s : Files ω) : Call → Prop
  | .read fd _ => OpenOn s fd fun file kind => file.readable = true ∧ kind = .dir
  | .write _ _ => False
  | .seek fd _ whence => OpenOn s fd fun _ kind =>
      kind = .dir ∧ Known whence
  | .fstat _ => False
  | .fsync fd => OpenOn s fd fun _ kind => ∃ dev, kind = .device dev
  | .getdirentry fd _ => OpenOn s fd fun _ kind => kind ≠ .dir

/-! ## The invariant -/

/-- An entry between calls: free, or open on an inode, and not for writing a directory. -/
structure Slot (i : Nat) (file : File) : Prop where
  fd : file.fd = i
  use : file.status = .none ∧ file.openCount = 0 ∨ file.status = .opened ∧ file.openCount = 1 ∧
    ∃ node, file.node = some node ∧ (node.kind = .dir → file.writable = false)

def Inv (s : Files ω) : Prop := ∀ i < FILES_STRUCT_NENTRY, Slot i (s.fdArray i)

/-- A call returned, or something below it did not. -/
def Fine (b : Below ω) (post : Files ω → Prop) : Result (α × Files ω) → Prop
  | .ok (_, t) => post t
  | .error .inside => ¬ b.Returns
  | .error .unimplemented => False
  | .error .assertion => False

variable {b : Below ω} {s t : Files ω} {i : Nat} {fd : Int} {node : Inode} {file : File}

@[simp] theorem setFile_self : (s.setFile i file).fdArray i = file := Function.update_self ..

theorem setFile_other {j : Nat} (other : j ≠ i) : (s.setFile i file).fdArray j = s.fdArray j :=
  Function.update_of_ne other ..

theorem setFile_setFile {file' : File} : (s.setFile i file).setFile i file' = s.setFile i file' := by
  simp [Files.setFile]

theorem Inv.setFile (inv : Inv s) (slot : Slot i file) : Inv (s.setFile i file) := by
  intro j inside
  by_cases same : j = i
  · rw [same, setFile_self]
    exact slot
  · rw [setFile_other same]
    exact inv j inside

/-- An open entry with its inode. -/
structure Held (s : Files ω) (i : Nat) (node : Inode) : Prop where
  fd : (s.fdArray i).fd = i
  status : (s.fdArray i).status = .opened
  openCount : (s.fdArray i).openCount = 1
  here : (s.fdArray i).node = some node
  dir : node.kind = .dir → (s.fdArray i).writable = false

theorem Inv.held (inv : Inv s) (found : fd2file s fd = some i) : ∃ node, Held s i node := by
  rw [fd2file] at found
  split at found
  · rename_i open_
    obtain rfl := Option.some_inj.mp found
    have inside : fd.toNat < FILES_STRUCT_NENTRY := by
      have := open_.1
      unfold testfd at this
      omega
    obtain ⟨same, use⟩ := inv _ inside
    rcases use with ⟨free, -⟩ | ⟨status, count, node, here, dir⟩
    · exact absurd (free.symm.trans open_.2.1) (by simp)
    · exact ⟨node, same, status, count, here, dir⟩
  · exact absurd found (by simp)

/-- While an open entry is held on to, it stays open and keeps its inode. -/
def acquired (file : File) : File := { file with openCount := file.openCount + 1 }

theorem acquire_ok (held : Held s i node) : fdArrayAcquire s i = .ok (s.setFile i (acquired (s.fdArray i))) := by
  rw [fdArrayAcquire, held.status]
  rfl

theorem Held.nodeOf (held : Held s i node) : Descriptors.nodeOf (acquired (s.fdArray i)) = .ok node := by
  rw [Descriptors.nodeOf, show (acquired (s.fdArray i)).node = some node from held.here]

theorem release_ok (s : Files ω) (i : Nat) (file : File) (status : file.status = .opened) (count : file.openCount = 2) :
    fdArrayRelease b (s.setFile i file) i = .ok (s.setFile i { file with openCount := 1 }) := by
  rw [fdArrayRelease]
  simp only [setFile_self, setFile_setFile, status, count]
  rfl

/-- An operation the inode lacks stops the call. -/
theorem callFile_unimplemented {sym : Vop} {op : File → Inode → ω → Option (α × ω)} {update : α → File → File}
    (held : Held s i node) (lacks : sym ∉ node.kind.ops) : callFile b s i sym op update = .error .unimplemented := by
  rw [callFile, acquire_ok held]
  simp only [bind, Except.bind, setFile_self, held.nodeOf, vopOp, if_neg lacks]

/-- What lies below changes, and the position of the entry that was held on to. -/
theorem Inv.after (inv : Inv s) (held : Held s i node) (pos : Int) (below : ω) :
    Inv (({ s with below := below } : Files ω).setFile i { acquired (s.fdArray i) with pos := pos, openCount := 1 }) :=
  Inv.setFile (s := { s with below := below }) inv
    ⟨held.fd, Or.inr ⟨held.status, rfl, node, held.here, held.dir⟩⟩

theorem callFile_fine {sym : Vop} {op : File → Inode → ω → Option (α × ω)} {update : α → File → File}
    (inv : Inv s) (held : Held s i node) (has : sym ∈ node.kind.ops)
    (keeps : ∀ a file, ∃ pos, update a file = { file with pos := pos })
    (returns : b.Returns → ∀ file node w, op file node w ≠ .none) : Fine b Inv (callFile b s i sym op update) := by
  rw [callFile, acquire_ok held]
  cases ran : op (acquired (s.fdArray i)) node s.below with
  | none =>
      have run : inside (s.setFile i (acquired (s.fdArray i)))
          (op (acquired (s.fdArray i)) node) = .error .inside := by
        simp only [inside, Files.setFile, ran]
      simp only [bind, Except.bind, setFile_self, held.nodeOf, vopOp, if_pos has, run]
      exact fun all => returns all _ _ _ ran
  | some result =>
      obtain ⟨a, below⟩ := result
      obtain ⟨pos, moved⟩ := keeps a (acquired (s.fdArray i))
      let s' : Files ω := { s with below := below }
      have run : inside (s.setFile i (acquired (s.fdArray i)))
          (op (acquired (s.fdArray i)) node) = .ok (a, s'.setFile i (acquired (s.fdArray i))) := by
        simp only [inside, Files.setFile, ran]
        rfl
      have released : fdArrayRelease b (s'.setFile i (update a (acquired (s.fdArray i)))) i =
          .ok (s'.setFile i { acquired (s.fdArray i) with pos := pos, openCount := 1 }) := by
        rw [moved]
        exact release_ok s' i _ held.status (by simp [acquired, held.openCount])
      simp only [bind, Except.bind, setFile_self, held.nodeOf, vopOp, if_pos has, run, setFile_setFile, released]
      exact inv.after held pos below

theorem vopOp_fstat (node : Inode) : vopOp node .fstat = .ok () := by
  obtain ⟨kind, id⟩ := node
  cases kind <;> rfl

theorem vopOp_tryseek (node : Inode) :
    vopOp node .tryseek = if node.kind = .dir then .error .unimplemented else .ok () := by
  obtain ⟨kind, id⟩ := node
  cases kind <;> rfl

theorem seekPos_known (s : Files ω) (file : File) (node : Inode) (pos : Int) {whence : Int} (known : Known whence) :
    ∃ pos', seekPos b s file node pos whence = .ok (some pos') := by
  rcases known with rfl | rfl | rfl
  · exact ⟨_, rfl⟩
  · exact ⟨_, rfl⟩
  · rw [seekPos, vopOp_fstat]
    exact ⟨_, rfl⟩

theorem seekPos_unknown {pos whence : Int} (unknown : ¬ Known whence) :
    seekPos b s file node pos whence = .ok .none := by
  simp only [Known, not_or] at unknown
  rw [seekPos, if_neg unknown.1, if_neg unknown.2.1, if_neg unknown.2.2]
  rfl

theorem fileSeek_unimplemented {pos whence : Int} (found : fd2file s fd = some i) (held : Held s i node)
    (dir : node.kind = .dir) (known : Known whence) : fileSeek b s fd pos whence = .error .unimplemented := by
  obtain ⟨pos', sought⟩ := seekPos_known (b := b) (s.setFile i (acquired (s.fdArray i)))
    (acquired (s.fdArray i)) node pos known
  simp only [fileSeek, found, acquire_ok held, bind, Except.bind, setFile_self, held.nodeOf, sought, vopOp_tryseek,
    if_pos dir]

theorem fileSeek_fine {pos whence : Int} (inv : Inv s) (found : fd2file s fd = some i) (held : Held s i node)
    (fits : node.kind ≠ .dir ∨ ¬ Known whence) : Fine b Inv (fileSeek b s fd pos whence) := by
  have count : (acquired (s.fdArray i)).openCount = 2 := by simp [acquired, held.openCount]
  by_cases known : Known whence
  · have other := fits.resolve_right (not_not.mpr known)
    obtain ⟨pos', sought⟩ := seekPos_known (b := b) (s.setFile i (acquired (s.fdArray i)))
      (acquired (s.fdArray i)) node pos known
    cases ran : b.tryseek node pos' s.below with
    | none =>
        have run : inside (s.setFile i (acquired (s.fdArray i))) (b.tryseek node pos') = .error .inside := by
          simp only [inside, Files.setFile, ran]
        simp only [fileSeek, found, acquire_ok held, bind, Except.bind, setFile_self, held.nodeOf, sought,
          vopOp_tryseek, if_neg other, run]
        exact fun all => all.tryseek _ _ _ ran
    | some result =>
        obtain ⟨ret, below⟩ := result
        let s' : Files ω := { s with below := below }
        have run : inside (s.setFile i (acquired (s.fdArray i))) (b.tryseek node pos') =
            .ok (ret, s'.setFile i (acquired (s.fdArray i))) := by
          simp only [inside, Files.setFile, ran]
          rfl
        simp only [fileSeek, found, acquire_ok held, bind, Except.bind, setFile_self, held.nodeOf, sought,
          vopOp_tryseek, if_neg other, run, setFile_setFile]
        by_cases moved : ret = 0
        · have released := release_ok (b := b) s' i { acquired (s.fdArray i) with pos := pos' } held.status count
          simp only [if_pos moved, released]
          exact inv.after held pos' below
        · have released := release_ok (b := b) s' i (acquired (s.fdArray i)) held.status count
          simp only [if_neg moved, released]
          exact inv.after held (s.fdArray i).pos below
  · have released := release_ok (b := b) s i (acquired (s.fdArray i)) held.status count
    simp only [fileSeek, found, acquire_ok held, bind, Except.bind, setFile_self, held.nodeOf, seekPos_unknown known,
      released]
    exact inv.after held (s.fdArray i).pos s.below

/-- The position alone is moved on. -/
theorem moveOn_pos (result : Int × Nat) (file : File) : ∃ pos, moveOn result file = { file with pos := pos } := by
  rw [moveOn]
  split
  · exact ⟨_, rfl⟩
  · exact ⟨file.pos, rfl⟩

theorem Fine.map {f : α × Files ω → β × Files ω} {r : Result (α × Files ω)} {post : Files ω → Prop}
    (fine : Fine b post r) (keeps : ∀ a t, (f (a, t)).2 = t) : Fine b post (r.map f) := by
  cases r with
  | ok result =>
      change post (f (result.1, result.2)).2
      rw [keeps]
      exact fine
  | error stop => cases stop <;> exact fine

theorem not_openOn {p : File → Kind → Prop} (unused : fd2file s fd = .none) : ¬ OpenOn s fd p := by
  rintro ⟨i, node, found, -⟩
  exact absurd (unused.symm.trans found) (by simp)

theorem openOn_iff {p : File → Kind → Prop} (found : fd2file s fd = some i) (held : Held s i node) :
    OpenOn s fd p ↔ p (s.fdArray i) node.kind := by
  refine ⟨?_, fun holds => ⟨i, node, found, held.here, holds⟩⟩
  rintro ⟨j, node', found', here, holds⟩
  obtain rfl := Option.some_inj.mp (found.symm.trans found')
  obtain rfl := Option.some_inj.mp (held.here.symm.trans here)
  exact holds

/-- A call that is not supported fails the assertion, and any other one is fine. -/
def Ends (b : Below ω) (unsupported : Prop) (r : Result (α × Files ω)) : Prop :=
  unsupported ∧ r = .error .unimplemented ∨ ¬ unsupported ∧ Fine b Inv r

theorem Ends.map {unsupported : Prop} {f : α × Files ω → β × Files ω} {r : Result (α × Files ω)}
    (ends : Ends b unsupported r) (keeps : ∀ a t, (f (a, t)).2 = t) : Ends b unsupported (r.map f) := by
  rcases ends with ⟨stuck, run⟩ | ⟨supported, fine⟩
  · exact Or.inl ⟨stuck, run ▸ rfl⟩
  · exact Or.inr ⟨supported, fine.map keeps⟩

theorem callFile_ends {sym : Vop} {op : File → Inode → ω → Option (α × ω)} {update : α → File → File}
    (inv : Inv s) (held : Held s i node) (keeps : ∀ a file, ∃ pos, update a file = { file with pos := pos })
    (returns : b.Returns → ∀ file node w, op file node w ≠ .none) :
    Ends b (sym ∉ node.kind.ops) (callFile b s i sym op update) := by
  by_cases has : sym ∈ node.kind.ops
  · exact Or.inr ⟨not_not.mpr has, callFile_fine inv held has keeps returns⟩
  · exact Or.inl ⟨has, callFile_unimplemented held has⟩

theorem Ends.congr {p q : Prop} {r : Result (α × Files ω)} (ends : Ends b p r) (same : p ↔ q) : Ends b q r := by
  rwa [Ends, ← same]

/-- The calls refuse a descriptor that is not open. -/
theorem onFile_ends {p : File → Kind → Prop} {a : α} {r : Result (α × Files ω)} (inv : Inv s)
    (refused : fd2file s fd = .none → r = .ok (a, s))
    (each : ∀ i node, fd2file s fd = some i → Held s i node → Ends b (p (s.fdArray i) node.kind) r) :
    Ends b (OpenOn s fd p) r := by
  cases found : fd2file s fd with
  | none =>
      rw [refused found]
      exact Or.inr ⟨not_openOn found, inv⟩
  | some i =>
      obtain ⟨node, held⟩ := inv.held found
      exact (each i node found held).congr (openOn_iff found held).symm

/-- Which tables lack an operation. -/
theorem lacks (kind : Kind) : (.read ∉ kind.ops ↔ kind = .dir) ∧ (.write ∉ kind.ops ↔ kind = .dir) ∧
    .fstat ∈ kind.ops ∧ (.fsync ∉ kind.ops ↔ ∃ dev, kind = .device dev) ∧ (.getdirentry ∉ kind.ops ↔ kind ≠ .dir) := by
  cases kind <;> simp [Kind.ops, sfsNodeDirops, sfsNodeFileops, devNodeOps]

theorem never_openOn : OpenOn s fd (fun _ _ => False) ↔ False := by simp [OpenOn]

theorem fileRead_ends (inv : Inv s) (len : Nat) :
    Ends b (OpenOn s fd fun file kind => file.readable = true ∧ kind = .dir) (fileRead b s fd len) := by
  refine onFile_ends inv (a := (-E_INVAL, 0)) (fun refused => by rw [fileRead, refused]; rfl)
    fun i node found held => ?_
  simp only [fileRead, found]
  by_cases readable : (s.fdArray i).readable = true
  · rw [if_pos readable]
    exact (callFile_ends inv held moveOn_pos fun all _ _ _ => all.io _ _ _ _ _).congr (by simp [readable, lacks])
  · rw [if_neg readable]
    exact Or.inr ⟨fun stuck => readable stuck.1, inv⟩

theorem fileWrite_ends (inv : Inv s) (len : Nat) : Ends b False (fileWrite b s fd len) := by
  refine Ends.congr (onFile_ends inv (a := (-E_INVAL, 0)) (fun refused => by rw [fileWrite, refused]; rfl)
    fun i node found held => ?_) never_openOn
  simp only [fileWrite, found]
  by_cases writable : (s.fdArray i).writable = true
  · rw [if_pos writable]
    have other : node.kind ≠ .dir := fun dir => absurd (held.dir dir) (by simp [writable])
    exact (callFile_ends inv held moveOn_pos fun all _ _ _ => all.io _ _ _ _ _).congr (by simp [lacks, other])
  · rw [if_neg writable]
    exact Or.inr ⟨id, inv⟩

theorem fileSeek_ends (inv : Inv s) (pos whence : Int) :
    Ends b (OpenOn s fd fun _ kind => kind = .dir ∧ Known whence) (fileSeek b s fd pos whence) := by
  refine onFile_ends inv (a := -E_INVAL) (fun refused => by rw [fileSeek, refused]; rfl) fun i node found held => ?_
  by_cases stuck : node.kind = .dir ∧ Known whence
  · exact Or.inl ⟨stuck, fileSeek_unimplemented found held stuck.1 stuck.2⟩
  · exact Or.inr ⟨stuck, fileSeek_fine inv found held (not_and_or.mp stuck)⟩

theorem fileFstat_ends (inv : Inv s) : Ends b False (fileFstat b s fd) := by
  refine Ends.congr (onFile_ends inv (a := -E_INVAL) (fun refused => by rw [fileFstat, refused]; rfl)
    fun i node found held => ?_) never_openOn
  simp only [fileFstat, found]
  exact (callFile_ends inv held (fun _ file => ⟨file.pos, rfl⟩) fun _ _ _ _ => by simp).congr (by simp [lacks])

theorem fileFsync_ends (inv : Inv s) :
    Ends b (OpenOn s fd fun _ kind => ∃ dev, kind = .device dev) (fileFsync b s fd) := by
  refine onFile_ends inv (a := -E_INVAL) (fun refused => by rw [fileFsync, refused]; rfl) fun i node found held => ?_
  simp only [fileFsync, found]
  exact (callFile_ends inv held (fun _ file => ⟨file.pos, rfl⟩) fun all _ _ _ => all.fsync _ _).congr (by simp [lacks])

theorem fileGetdirentry_ends (inv : Inv s) (offset : Int) :
    Ends b (OpenOn s fd fun _ kind => kind ≠ .dir) (fileGetdirentry b s fd offset) := by
  refine onFile_ends inv (a := (-E_INVAL, 0)) (fun refused => by rw [fileGetdirentry, refused]; rfl)
    fun i node found held => ?_
  simp only [fileGetdirentry, found]
  exact (callFile_ends inv held (fun _ file => ⟨file.pos, rfl⟩) fun all _ _ _ => all.getdirentry _ _ _).congr
    (by simp [lacks])

theorem exec_ends (inv : Inv s) (c : Call) : Ends b (Unsupported s c) (c.exec b s) := by
  cases c with
  | read fd len => exact (fileRead_ends inv len).map fun _ _ => rfl
  | write fd len => exact (fileWrite_ends inv len).map fun _ _ => rfl
  | seek fd pos whence => exact fileSeek_ends inv pos whence
  | fstat fd => exact fileFstat_ends inv
  | fsync fd => exact fileFsync_ends inv
  | getdirentry fd offset => exact (fileGetdirentry_ends inv offset).map fun _ _ => rfl

/-! ## Opening and closing -/

theorem bind_ok {x : Result α} {f : α → Result β} {r : β} :
    (x >>= f) = .ok r ↔ ∃ a, x = .ok a ∧ f a = .ok r := by
  cases x <;> simp [bind, Except.bind]

theorem assert_ok {c : Prop} [Decidable c] {u : Unit} : assert c = .ok u ↔ c := by
  by_cases holds : c <;> simp [assert, holds]

/-- Only what lies below has changed. -/
def Kept (s t : Files ω) : Prop := t.fdArray = s.fdArray

theorem inside_kept {op : ω → Option (α × ω)} {a : α} (run : inside s op = .ok (a, t)) : Kept s t := by
  rw [inside] at run
  split at run
  · cases run
    rfl
  · exact nomatch run

theorem effect_kept {op : ω → Option ω} (run : effect s op = .ok t) : Kept s t := by
  rw [effect] at run
  split at run
  · cases run
    rfl
  · exact nomatch run

theorem Kept.trans {u : Files ω} (first : Kept s t) (second : Kept t u) : Kept s u := Eq.trans second first

/-- What `vfs_open` hands back was opened. -/
theorem openFound_kept {flags : BitVec 32} {r : Except Int Inode} (run : openFound b s node flags = .ok (r, t)) :
    Kept s t ∧ ∀ found, r = .ok found → openNode found flags = 0 := by
  obtain ⟨-, -, run⟩ := bind_ok.mp run
  dsimp only at run
  split at run
  · obtain ⟨u, dropped, run⟩ := bind_ok.mp run
    cases run
    exact ⟨effect_kept dropped, nofun⟩
  · rename_i opened
    rw [not_not] at opened
    split at run
    · obtain ⟨-, -, run⟩ := bind_ok.mp run
      obtain ⟨⟨ret, u⟩, truncated, run⟩ := bind_ok.mp run
      have first : u.fdArray = s.fdArray :=
        (inside_kept truncated : Kept { s with below := b.openInc node s.below } u)
      dsimp only at run
      split at run
      · obtain ⟨v, closed, run⟩ := bind_ok.mp run
        obtain ⟨w, dropped, run⟩ := bind_ok.mp run
        cases run
        exact ⟨(Kept.trans first (effect_kept closed)).trans (effect_kept dropped), nofun⟩
      · cases run
        exact ⟨first, fun found same => Except.ok.inj same ▸ opened⟩
    · cases run
      exact ⟨rfl, fun found same => Except.ok.inj same ▸ opened⟩

theorem vfsOpen_kept {path : List UInt8} {flags : BitVec 32} {r : Except Int Inode}
    (run : vfsOpen b s path flags = .ok (r, t)) : Kept s t ∧ ∀ found, r = .ok found → openNode found flags = 0 := by
  rw [vfsOpen] at run
  split at run
  · cases run
    exact ⟨rfl, nofun⟩
  split at run
  · cases run
    exact ⟨rfl, nofun⟩
  obtain ⟨⟨⟨ret, node⟩, u⟩, looked, run⟩ := bind_ok.mp run
  have first : Kept s u := inside_kept looked
  dsimp only at run
  split at run
  · split at run
    · obtain ⟨⟨⟨ret, dir⟩, v⟩, looked, run⟩ := bind_ok.mp run
      have second : Kept u v := inside_kept looked
      dsimp only at run
      split at run
      · cases run
        exact ⟨first.trans second, nofun⟩
      · obtain ⟨-, -, run⟩ := bind_ok.mp run
        exact nomatch run
    · cases run
      exact ⟨first, nofun⟩
  · split at run
    · cases run
      exact ⟨first, nofun⟩
    · obtain ⟨second, opened⟩ := openFound_kept run
      exact ⟨first.trans second, opened⟩

theorem vfsClose_kept (run : vfsClose b s node = .ok t) : Kept s t := by
  obtain ⟨u, closed, dropped⟩ := bind_ok.mp run
  exact (effect_kept closed).trans (effect_kept dropped)

/-- A directory is opened for reading only. -/
theorem openNode_dir {flags : BitVec 32} (opened : openNode node flags = 0) (dir : node.kind = .dir) :
    flags &&& O_ACCMODE = O_RDONLY := by
  by_contra other
  simp only [openNode, dir, sfsOpendir, if_neg other] at opened
  exact absurd opened (by decide)

/-- A free entry that was taken; the other ones stay as they are. -/
structure Taken (s t : Files ω) (i : Nat) : Prop where
  low : i < FILES_STRUCT_NENTRY
  fd : (t.fdArray i).fd = i
  openCount : (t.fdArray i).openCount = 0
  others : ∀ j, j ≠ i → t.fdArray j = s.fdArray j

theorem takeEntry_taken {r : Except Int Nat} (inv : Inv s) (low : i < FILES_STRUCT_NENTRY)
    (run : takeEntry s i = .ok (r, t)) : r = .ok i ∧ Taken s t i := by
  obtain ⟨_, count, done⟩ := bind_ok.mp run
  obtain ⟨rfl, rfl⟩ := Prod.mk.inj (Except.ok.inj done)
  refine ⟨rfl, low, ?_, ?_, fun j other => setFile_other other⟩
  · rw [setFile_self]
    exact (inv i low).fd
  · rw [setFile_self]
    exact assert_ok.mp count

theorem fdArrayAlloc_taken {r : Except Int Nat} (inv : Inv s) (run : fdArrayAlloc s fd = .ok (r, t)) :
    (∃ ret, r = .error ret ∧ t = s) ∨ ∃ i, r = .ok i ∧ Taken s t i := by
  rw [fdArrayAlloc] at run
  split at run
  · split at run
    · rename_i i found
      exact Or.inr ⟨i, takeEntry_taken inv (List.mem_range.mp (List.mem_of_find?_eq_some found)) run⟩
    · cases run
      exact Or.inl ⟨_, rfl, rfl⟩
  split at run
  · rename_i low
    split at run
    · refine Or.inr ⟨fd.toNat, takeEntry_taken inv ?_ run⟩
      unfold testfd at low
      omega
    · cases run
      exact Or.inl ⟨_, rfl, rfl⟩
  · cases run
    exact Or.inl ⟨_, rfl, rfl⟩

/-- All entries but one are as they are between calls. -/
def Others (s : Files ω) (i : Nat) : Prop := ∀ j < FILES_STRUCT_NENTRY, j ≠ i → Slot j (s.fdArray j)

theorem Others.setFile (others : Others s i) (slot : Slot i file) : Inv (s.setFile i file) := by
  intro j inside
  by_cases same : j = i
  · rw [same, setFile_self]
    exact slot
  · rw [setFile_other same]
    exact others j inside same

theorem Others.kept (others : Others s i) (kept : Kept s t) : Others t i := by
  rw [Others, kept]
  exact others

theorem Taken.othersSlots (taken : Taken s t i) (inv : Inv s) : Others t i := by
  intro j inside other
  rw [taken.others j other]
  exact inv j inside

/-- An entry is free again. -/
theorem fdArrayFree_inv (others : Others s i) (fd : (s.fdArray i).fd = i) (run : fdArrayFree b s i = .ok t) :
    Inv t := by
  have freed : ∀ u, Kept s u → (s.fdArray i).openCount = 0 →
      Inv (u.setFile i { u.fdArray i with status := .none }) := by
    intro u kept count
    refine (others.kept kept).setFile ?_
    rw [kept]
    exact ⟨fd, Or.inl ⟨rfl, count⟩⟩
  obtain ⟨_, -, run⟩ := bind_ok.mp run
  obtain ⟨_, count, run⟩ := bind_ok.mp run
  dsimp only at run
  split at run
  · obtain ⟨node, -, run⟩ := bind_ok.mp run
    obtain ⟨u, closed, run⟩ := bind_ok.mp run
    cases run
    exact freed u (vfsClose_kept closed) (assert_ok.mp count)
  · cases run
    exact freed s rfl (assert_ok.mp count)

/-- A taken entry is opened on an inode. -/
theorem fdArrayOpen_inv (node : Inode) (others : Others s i) (fd : (s.fdArray i).fd = i)
    (count : (s.fdArray i).openCount = 0)
    (here : (s.fdArray i).node = some node) (dir : node.kind = .dir → (s.fdArray i).writable = false)
    (run : fdArrayOpen s i = .ok t) : Inv t := by
  obtain ⟨-, -, run⟩ := bind_ok.mp run
  cases run
  exact others.setFile ⟨fd, Or.inr ⟨rfl, by simp [count], node, here, dir⟩⟩

/-- What `file_open` makes of an entry that was taken. -/
theorem opened_inv {flags : BitVec 32} {pos : Int} (others : Others s i) (fd : (s.fdArray i).fd = i)
    (count : (s.fdArray i).openCount = 0) (opens : openNode node flags = 0)
    (run : fdArrayOpen (s.setFile i { s.fdArray i with
      pos := pos
      node := some node
      readable := flags &&& O_ACCMODE ≠ O_WRONLY
      writable := flags &&& O_ACCMODE ≠ O_RDONLY }) i = .ok t) : Inv t := by
  refine fdArrayOpen_inv node (i := i) ?_ ?_ ?_ ?_ ?_ run
  · intro j inside other
    rw [setFile_other other]
    exact others j inside other
  · rw [setFile_self]
    exact fd
  · rw [setFile_self]
    exact count
  · rw [setFile_self]
  · intro dir
    rw [setFile_self]
    simpa using openNode_dir opens dir

theorem fileOpen_inv {path : List UInt8} {flags : BitVec 32} {ret : Int} (inv : Inv s)
    (run : fileOpen b s path flags = .ok (ret, t)) : Inv t := by
  rw [fileOpen] at run
  dsimp only at run
  split at run
  · cases run
    exact inv
  obtain ⟨⟨taken, u⟩, alloc, rest⟩ := bind_ok.mp run
  rcases fdArrayAlloc_taken inv alloc with ⟨code, rfl, rfl⟩ | ⟨i, rfl, taken⟩
  · cases rest
    exact inv
  obtain ⟨⟨opened, v⟩, vfs, rest⟩ := bind_ok.mp rest
  obtain ⟨kept, opens⟩ := vfsOpen_kept vfs
  have others : Others v i := (taken.othersSlots inv).kept kept
  have fd : (v.fdArray i).fd = i := by rw [kept, taken.fd]
  have count : (v.fdArray i).openCount = 0 := by rw [kept, taken.openCount]
  cases opened with
  | error code =>
      obtain ⟨w, freed, rest⟩ := bind_ok.mp rest
      cases rest
      exact fdArrayFree_inv others fd freed
  | ok node =>
      dsimp only at rest
      split at rest
      · obtain ⟨_, -, rest⟩ := bind_ok.mp rest
        obtain ⟨w, put, rest⟩ := bind_ok.mp rest
        cases rest
        exact opened_inv others fd count (opens node rfl) put
      · obtain ⟨w, put, rest⟩ := bind_ok.mp rest
        cases rest
        exact opened_inv others fd count (opens node rfl) put

theorem fdArrayClose_inv (inv : Inv s) (low : i < FILES_STRUCT_NENTRY) (run : fdArrayClose b s i = .ok t) :
    Inv t := by
  obtain ⟨_, opened, run⟩ := bind_ok.mp run
  obtain ⟨_, -, run⟩ := bind_ok.mp run
  obtain ⟨fd, use⟩ := inv i low
  have count : (s.fdArray i).openCount = 1 := by
    rcases use with ⟨free, -⟩ | ⟨-, count, -⟩
    · exact absurd (free.symm.trans (assert_ok.mp opened)) (by simp)
    · exact count
  dsimp only at run
  rw [setFile_self, if_pos (by simp [count])] at run
  refine fdArrayFree_inv (i := i) ?_ ?_ run
  · intro j inside other
    rw [setFile_other other]
    exact inv j inside
  · rw [setFile_self]
    exact fd

theorem fd2file_low (found : fd2file s fd = some i) : i < FILES_STRUCT_NENTRY := by
  rw [fd2file] at found
  split at found
  · rename_i low
    have := low.1
    unfold testfd at this
    obtain rfl := Option.some_inj.mp found
    omega
  · exact nomatch found

theorem fileClose_inv {ret : Int} (inv : Inv s) (run : fileClose b s fd = .ok (ret, t)) : Inv t := by
  rw [fileClose] at run
  split at run
  · cases run
    exact inv
  · rename_i i found
    obtain ⟨u, closed, rest⟩ := bind_ok.mp run
    cases rest
    exact fdArrayClose_inv inv (fd2file_low found) closed

theorem fileDup_inv {fd1 fd2 ret : Int} (inv : Inv s) (run : fileDup b s fd1 fd2 = .ok (ret, t)) : Inv t := by
  rw [fileDup] at run
  split at run
  · cases run
    exact inv
  rename_i source found
  obtain ⟨⟨taken, u⟩, alloc, rest⟩ := bind_ok.mp run
  obtain ⟨node, held⟩ := inv.held found
  rcases fdArrayAlloc_taken inv alloc with ⟨code, rfl, rfl⟩ | ⟨target, rfl, taken⟩
  · cases rest
    exact inv
  obtain ⟨v, copied, rest⟩ := bind_ok.mp rest
  cases rest
  obtain ⟨_, states, copied⟩ := bind_ok.mp copied
  have other : source ≠ target := by
    rintro rfl
    obtain ⟨init, opened⟩ := assert_ok.mp states
    exact absurd (init.symm.trans opened) (by simp)
  rw [taken.others source other, nodeOf, held.here] at copied
  refine fdArrayOpen_inv node (i := target) ?_ ?_ ?_ ?_ ?_ copied
  · intro j inside unlike
    rw [show (_ : Files ω).fdArray j = u.fdArray j from setFile_other unlike]
    exact taken.othersSlots inv j inside unlike
  · rw [show (_ : Files ω).fdArray target = _ from setFile_self]
    exact taken.fd
  · rw [show (_ : Files ω).fdArray target = _ from setFile_self]
    exact taken.openCount
  · rw [show (_ : Files ω).fdArray target = _ from setFile_self]
  · intro dir
    rw [show (_ : Files ω).fdArray target = _ from setFile_self]
    exact held.dir dir

/-! ## Every call -/

theorem Initial.inv (fresh : Initial s) : Inv s := by
  intro i low
  obtain ⟨count, free, fd⟩ := fresh i low
  exact ⟨fd, Or.inl ⟨free, count⟩⟩

theorem Step.inv (step : Step b s t) (inv : Inv s) : Inv t := by
  obtain ⟨a, ret, run⟩ := step
  cases a with
  | «open» path flags => exact fileOpen_inv inv run
  | close fd => exact fileClose_inv inv run
  | dup fd1 fd2 => exact fileDup_inv inv run
  | call c =>
      rcases exec_ends (b := b) inv c with ⟨-, stuck⟩ | ⟨-, fine⟩
      · exact absurd (stuck.symm.trans run) (by simp)
      · rw [show Call.exec b s c = _ from run] at fine
        exact fine

def root : Inode := ⟨.dir, 1⟩

def onlyRoot : Below Unit where
  lookup := fun _ w => some ((0, root), w)
  lookupParent := fun _ w => some ((0, root), w)
  refInc := fun _ w => w
  refDec := fun _ w => some w
  openInc := fun _ w => w
  openDec := fun _ w => some w
  io := fun _ _ _ _ w => some ((0, 0), w)
  tryseek := fun _ _ w => some (0, w)
  truncate := fun _ _ w => some (0, w)
  fsync := fun _ w => some (0, w)
  getdirentry := fun _ _ w => some ((0, 256), w)
  size := fun _ _ => 256

end Ucore.Fs.Descriptors
