import Ucore.Fs.Descriptors
import Ucore.Lib.Tally

/-! # The open files of a process

A `files_struct` is shared between the processes that were forked with `CLONE_FS`. `do_exit`
gives up its share along with the address space, so a process that has none by then keeps it.
-/

namespace Ucore.Process.OpenFiles

open Fs.Descriptors Lib.Run Lib.Tally

/-! ## State -/

def CLONE_FS : BitVec 32 := 0x00000800

def E_NO_MEM : Int := 4

structure FilesStruct where
  pwd : Option Inode
  fdArray : Nat → File
  filesCount : Int

/-- Where a process is: anywhere but in `do_execve`, behind its `sysfile_open`, behind the end of
    its old address space, or at `execve_exit`. -/
inductive Place where
  | user
  | opened
  | torn
  | failed
  deriving DecidableEq, Repr

/-- A process with its `files_struct` and its `mm`, each by number. -/
structure Proc where
  filesp : Option Nat
  mm : Option Nat
  place : Place
  zombie : Bool

/-- The processes so far, the first two of them `idleproc` and `initproc`, and what they refer to.
    An `mm` comes with `mm_count`. -/
structure Sys (ω : Type) where
  procs : Nat → Proc
  nextProc : Nat
  tables : Nat → Option FilesStruct
  nextTable : Nat
  mms : Nat → Option Int
  below : ω

variable {ω : Type}

def Sys.setProc (s : Sys ω) (p : Nat) (proc : Proc) : Sys ω := { s with procs := Function.update s.procs p proc }

def Sys.setTable (s : Sys ω) (t : Nat) (table : Option FilesStruct) : Sys ω :=
  { s with tables := Function.update s.tables t table }

/-- A pointer to a `files_struct` that was freed is not followed. -/
def Sys.table (s : Sys ω) (t : Nat) : Result FilesStruct :=
  match s.tables t with
  | some fs => .ok fs
  | none => .error .assertion

/-- The descriptors of a `files_struct` with what lies below. -/
def Sys.files (s : Sys ω) (fs : FilesStruct) : Files ω := ⟨fs.fdArray, s.below⟩

/-- What file calls leave of the descriptors. -/
def Sys.putFds (s : Sys ω) (t : Nat) (fs : FilesStruct) (files : Files ω) : Sys ω :=
  { s.setTable t (some { fs with fdArray := files.fdArray }) with below := files.below }

/-! ## `fs.c` -/

def filesCreate : FilesStruct where
  pwd := none
  fdArray := fun i => ⟨.none, false, false, i, 0, none, 0⟩
  filesCount := 0

/-- The loops of `files_destroy`, which looks at every entry again, and of `files_closeall`. -/
def closeOpened (b : Below ω) (strict : Bool) (files : Files ω) : List Nat → Result (Files ω)
  | [] => pure files
  | i :: rest => do
      let files ← if (files.fdArray i).status = .opened then fdArrayClose b files i else pure files
      assert (strict = true → (files.fdArray i).status = .none)
      closeOpened b strict files rest

def filesDestroy (b : Below ω) (s : Sys ω) (t : Nat) : Result (Sys ω) := do
  let fs ← s.table t
  assert (fs.filesCount = 0)
  let files ← match fs.pwd with
    | some pwd => effect (s.files fs) (b.refDec pwd)
    | none => pure (s.files fs)
  let files ← closeOpened b true files (List.range FILES_STRUCT_NENTRY)
  pure { s.setTable t none with below := files.below }

def filesCloseall (b : Below ω) (s : Sys ω) (t : Nat) : Result (Sys ω) := do
  let fs ← s.table t
  assert (0 < fs.filesCount)
  let files ← closeOpened b false (s.files fs) (List.range' 2 (FILES_STRUCT_NENTRY - 2))
  pure (s.putFds t fs files)

/-- `fd_array_dup` from an entry of another table. -/
def fdArrayDupFrom (b : Below ω) (files : Files ω) (i : Nat) (source : File) : Result (Files ω) := do
  assert ((files.fdArray i).status = .init ∧ source.status = .opened)
  let node ← nodeOf source
  let files := files.setFile i { files.fdArray i with
    pos := source.pos
    readable := source.readable
    writable := source.writable
    node := some node }
  fdArrayOpen { files with below := b.openInc node (b.refInc node files.below) } i

/-- The loop of `dup_files`. -/
def dupOpened (b : Below ω) (source : Nat → File) (files : Files ω) : List Nat → Result (Files ω)
  | [] => pure files
  | i :: rest => do
      let files ← if (source i).status = .opened then
          fdArrayDupFrom b (files.setFile i { files.fdArray i with status := .init }) i (source i)
        else pure files
      dupOpened b source files rest

def dupFiles (b : Below ω) (s : Sys ω) (target source : FilesStruct) : Result (FilesStruct × ω) := do
  assert (target.filesCount = 0 ∧ 0 < source.filesCount)
  let below := match source.pwd with
    | some pwd => b.refInc pwd s.below
    | none => s.below
  let files ← dupOpened b source.fdArray ⟨target.fdArray, below⟩ (List.range FILES_STRUCT_NENTRY)
  pure ({ target with pwd := source.pwd, fdArray := files.fdArray }, files.below)

/-! ## `proc.c` -/

/-- What `p` has of `files_struct`s is what it was forked or made with. -/
def filespOf (s : Sys ω) (p : Nat) : Result Nat :=
  match (s.procs p).filesp with
  | some t => .ok t
  | none => .error .assertion

/-- The `files_struct` a child of `p` gets, or a code. `dup_files` returns 0, so that `memory` for
    `files_create` is all that can be missing. -/
def copyFiles (b : Below ω) (cloneFlags : BitVec 32) (memory : Bool) (s : Sys ω) (p : Nat) :
    Result (Except Int Nat × Sys ω) := do
  let old ← filespOf s p
  let oldFiles ← s.table old
  if cloneFlags &&& CLONE_FS ≠ 0 then
    pure (.ok old, s.setTable old (some { oldFiles with filesCount := oldFiles.filesCount + 1 }))
  else if memory = false then pure (.error (-E_NO_MEM), s)
  else do
    let (filesp, below) ← dupFiles b s filesCreate oldFiles
    let s := s.setTable s.nextTable (some { filesp with filesCount := filesp.filesCount + 1 })
    pure (.ok (s.nextTable), { s with nextTable := s.nextTable + 1, below := below })

def putFiles (b : Below ω) (s : Sys ω) (p : Nat) : Result (Sys ω) :=
  match (s.procs p).filesp with
  | some t => do
      let fs ← s.table t
      let s := s.setTable t (some { fs with filesCount := fs.filesCount - 1 })
      if fs.filesCount - 1 = 0 then filesDestroy b s t else pure s
  | none => pure s

/-- The address space of the process goes, and with its last user its memory. -/
def dropMm (s : Sys ω) (p mm : Nat) : Result (Sys ω) :=
  match s.mms mm with
  | some count => pure { s.setProc p { s.procs p with mm := none } with
      mms := Function.update s.mms mm (if count - 1 = 0 then none else some (count - 1)) }
  | none => throw .assertion

/-- `do_exit` up to its call of `schedule`, less the family of the process. -/
def doExit (b : Below ω) (s : Sys ω) (p : Nat) : Result (Sys ω) := do
  assert (p ≠ 0 ∧ p ≠ 1)
  let s ← match (s.procs p).mm with
    | some mm => do
        let s ← dropMm s p mm
        putFiles b s p
    | none => pure s
  pure (s.setProc p { s.procs p with zombie := true })

/-- `do_execve` from `files_closeall` up to `sysfile_open`, which is given the path that `copy_path` copied,
    or its code. -/
def execOpen (b : Below ω) (s : Sys ω) (p : Nat) (path : Except Int (List UInt8)) : Result (Sys ω) := do
  let t ← filespOf s p
  let s ← filesCloseall b s t
  match path with
  | .error _ => pure (s.setProc p { s.procs p with place := .failed })
  | .ok path => do
      let fs ← s.table t
      let (fd, files) ← fileOpen b (s.files fs) path O_RDONLY
      let s := s.putFds t fs files
      pure (s.setProc p { s.procs p with place := if fd < 0 then .failed else .opened })

/-- The end of the old address space in `do_execve`. -/
def execTear (s : Sys ω) (p : Nat) : Result (Sys ω) := do
  let s ← match (s.procs p).mm with
    | some mm => dropMm s p mm
    | none => pure s
  pure (s.setProc p { s.procs p with place := .torn })

/-- One user of an address space more. -/
def takeMm (s : Sys ω) : Option Nat → Sys ω
  | some mm => { s with mms := Function.update s.mms mm (some ((s.mms mm).getD 0 + 1)) }
  | none => s

/-- `load_icode` has returned `ret`, with `mm` in `current->mm`. -/
def execLoad (s : Sys ω) (p : Nat) (ret : Int) (mm : Option Nat) : Sys ω :=
  (takeMm s mm).setProc p { s.procs p with mm := mm, place := if ret = 0 then .user else .failed }

/-- What is left of `do_fork` here: the child gets its files, and some address space or none. -/
def doFork (b : Below ω) (s : Sys ω) (p : Nat) (cloneFlags : BitVec 32) (memory : Bool) (mm : Option Nat) :
    Result (Sys ω) := do
  let (filesp, s) ← copyFiles b cloneFlags memory s p
  match filesp with
  | .error _ => pure s
  | .ok t => pure { (takeMm s mm).setProc s.nextProc ⟨some t, mm, .user, false⟩ with nextProc := s.nextProc + 1 }

/-- A file call on the descriptors of the process. -/
def fileCall (b : Below ω) (s : Sys ω) (p : Nat) (call : Fs.Descriptors.Action) : Result (Sys ω) := do
  let t ← filespOf s p
  let fs ← s.table t
  assert (0 < fs.filesCount)
  let (_, files) ← call.exec b (s.files fs)
  pure (s.putFds t fs files)

/-! ## Runs -/

inductive Action where
  | fork (cloneFlags : BitVec 32) (memory : Bool) (mm : Option Nat)
  | file (call : Fs.Descriptors.Action)
  | execOpen (path : Except Int (List UInt8))
  | execTear
  | execLoad (ret : Int) (mm : Option Nat)
  | exit

def Action.exec (b : Below ω) (s : Sys ω) (p : Nat) : Action → Result (Sys ω)
  | .fork cloneFlags memory mm => doFork b s p cloneFlags memory mm
  | .file call => fileCall b s p call
  | .execOpen path => Process.OpenFiles.execOpen b s p path
  | .execTear => Process.OpenFiles.execTear s p
  | .execLoad ret mm => pure (Process.OpenFiles.execLoad s p ret mm)
  | .exit => doExit b s p

/-- Where a process may do what. -/
def Action.From : Action → Place → Bool
  | .fork .., place => place = .user
  | .file .., place => place = .user ∨ place = .torn
  | .execOpen .., place => place = .user
  | .execTear, place => place = .opened
  | .execLoad .., place => place = .torn
  | .exit, place => place = .user ∨ place = .failed

/-- A process that has not exited. -/
def Running (s : Sys ω) (p : Nat) : Prop := p < s.nextProc ∧ (s.procs p).zombie = false

instance (s : Sys ω) (p : Nat) : Decidable (Running s p) := inferInstanceAs (Decidable (_ ∧ _))

/-- The processes take steps in any order. -/
def Step (b : Below ω) (allowed : Proc → Action → Prop) (s t : Sys ω) : Prop :=
  ∃ p a, Running s p ∧ a.From (s.procs p).place = true ∧ allowed (s.procs p) a ∧ a.exec b s p = .ok t

/-- No process exits without an address space. -/
def ExitsWithMm (proc : Proc) : Action → Prop
  | .exit => proc.mm ≠ none
  | _ => True

/-- After `proc_init` has made `idleproc`. -/
structure Initial (s : Sys ω) : Prop where
  one : s.nextProc = 1 ∧ s.procs 0 = ⟨some 0, none, .user, false⟩
  table : s.tables = Function.update (fun _ => none) 0 (some { filesCreate with filesCount := 1 })
  next : s.nextTable = 1

/-! ## Closing descriptors -/

variable {b : Below ω} {s s' : Sys ω} {files files' : Files ω} {fs : FilesStruct} {p t i : Nat} {node : Inode}
  {w w' : ω}

/-- What `vfs_close` does with the inodes, one after the other. -/
def closeInodes (b : Below ω) : List Inode → ω → Option ω
  | [], w => some w
  | node :: rest, w => do
      let w ← b.openDec node w
      let w ← b.refDec node w
      closeInodes b rest w

/-- The inodes of the open descriptors in a list of them. -/
def openInodes (fdArray : Nat → File) (fds : List Nat) : List Inode :=
  fds.filterMap fun i => if (fdArray i).status = .opened then (fdArray i).node else none

theorem effect_ok {op : ω → Option ω} : effect files op = .ok files' ↔
    ∃ w, op files.below = some w ∧ files' = { files with below := w } := by
  rw [effect]
  cases op files.below with
  | none => simp
  | some w =>
      simp only [Except.ok.injEq, Option.some.injEq, exists_eq_left']
      exact eq_comm

/-- An entry that was closed. -/
def closed (file : File) : File := { file with status := .none, openCount := 0 }

theorem fdArrayClose_ok (held : Held files i node) (run : fdArrayClose b files i = .ok files') :
    ∃ w w', b.openDec node files.below = some w ∧ b.refDec node w = some w' ∧
      files' = ({ files with below := w' } : Files ω).setFile i (closed (files.fdArray i)) := by
  rw [fdArrayClose, held.status, held.openCount] at run
  obtain ⟨-, -, run⟩ := bind_ok.mp run
  obtain ⟨-, -, run⟩ := bind_ok.mp run
  dsimp only at run
  rw [setFile_self, if_pos (show (1 : Int) - 1 = 0 from rfl), fdArrayFree] at run
  obtain ⟨-, -, run⟩ := bind_ok.mp run
  obtain ⟨-, -, run⟩ := bind_ok.mp run
  dsimp only at run
  rw [setFile_self, if_pos rfl] at run
  obtain ⟨node', here, run⟩ := bind_ok.mp run
  obtain rfl : node = node' := by
    rw [nodeOf, held.here] at here
    exact Except.ok.inj here
  obtain ⟨freed, close, run⟩ := bind_ok.mp run
  obtain ⟨opens, opened, dropped⟩ := bind_ok.mp close
  obtain ⟨w, first, rfl⟩ := effect_ok.mp opened
  obtain ⟨w', second, rfl⟩ := effect_ok.mp dropped
  cases run
  refine ⟨w, w', first, second, ?_⟩
  simp only [Files.setFile, Function.update_self, Function.update_idem]
  rfl

/-- What the loops do to the entries they go over, and that they leave the other ones alone. -/
structure Closed (b : Below ω) (files files' : Files ω) (fds : List Nat) : Prop where
  inv : Inv files'
  none : ∀ i ∈ fds, (files'.fdArray i).status = .none
  others : ∀ i, i ∉ fds → files'.fdArray i = files.fdArray i
  inodes : closeInodes b (openInodes files.fdArray fds) files.below = some files'.below

theorem closeOpened_closed {strict : Bool} (fds : List Nat) (nodup : fds.Nodup)
    (inside : ∀ i ∈ fds, i < FILES_STRUCT_NENTRY)
    (inv : Inv files) (run : closeOpened b strict files fds = .ok files') : Closed b files files' fds := by
  induction fds generalizing files with
  | nil =>
      cases run
      exact ⟨inv, by simp, fun _ _ => rfl, rfl⟩
  | cons i rest ih =>
      obtain ⟨new, nodup⟩ := List.nodup_cons.mp nodup
      have low := inside i List.mem_cons_self
      rw [closeOpened] at run
      dsimp only at run
      obtain ⟨fd, use⟩ := inv i low
      have later : ∀ j ∈ rest, j < FILES_STRUCT_NENTRY := fun j member => inside j (List.mem_cons_of_mem _ member)
      rcases use with ⟨free, count⟩ | ⟨opened, count, node, here, dir⟩
      · rw [if_neg (by simp [free])] at run
        obtain ⟨_, same, run⟩ := bind_ok.mp run
        cases same
        obtain ⟨-, -, run⟩ := bind_ok.mp run
        obtain ⟨inv', none, others, inodes⟩ := ih nodup later inv run
        refine ⟨inv', fun j member => ?_, fun j out => others j (List.not_mem_of_not_mem_cons out), ?_⟩
        · rcases List.mem_cons.mp member with rfl | member
          · rw [others j new, free]
          · exact none j member
        · rw [openInodes, List.filterMap_cons_none (by simp [free])]
          exact inodes
      · rw [if_pos opened] at run
        obtain ⟨next, first, run⟩ := bind_ok.mp run
        obtain ⟨-, -, run⟩ := bind_ok.mp run
        obtain ⟨w, w', openDec, refDec, rfl⟩ := fdArrayClose_ok ⟨fd, opened, count, here, dir⟩ first
        have inv' : Inv (({ files with below := w' } : Files ω).setFile i (closed (files.fdArray i))) :=
          Inv.setFile (s := { files with below := w' }) inv ⟨fd, .inl ⟨rfl, rfl⟩⟩
        obtain ⟨inv'', none, others, inodes⟩ := ih nodup later inv' run
        refine ⟨inv'', fun j member => ?_, fun j out => ?_, ?_⟩
        · rcases List.mem_cons.mp member with rfl | member
          · rw [others j new, setFile_self]
            rfl
          · exact none j member
        · rw [others j (List.not_mem_of_not_mem_cons out), setFile_other (List.ne_of_not_mem_cons out)]
        · have same : openInodes (({ files with below := w' } : Files ω).setFile i
            (closed (files.fdArray i))).fdArray rest =
              openInodes files.fdArray rest := by
            refine List.filterMap_congr fun j member => ?_
            have other : j ≠ i := fun same => new (same ▸ member)
            rw [setFile_other other]
          rw [openInodes, List.filterMap_cons_some (b := node) (by simp [opened, here]), ← openInodes, ← same,
            closeInodes]
          rw [openDec]
          dsimp only [bind, Option.bind]
          rw [refDec]
          exact inodes

/-- What `files_destroy` gives back. -/
def releaseFiles (b : Below ω) (fs : FilesStruct) (w : ω) : Option ω := do
  let w ← match fs.pwd with
    | some pwd => b.refDec pwd w
    | none => some w
  closeInodes b (openInodes fs.fdArray (List.range FILES_STRUCT_NENTRY)) w

@[simp] theorem setTable_self {table : Option FilesStruct} : (s.setTable t table).tables t = table :=
  Function.update_self ..

theorem setTable_other {table : Option FilesStruct} {u : Nat} (other : u ≠ t) :
    (s.setTable t table).tables u = s.tables u := Function.update_of_ne other ..

@[simp] theorem table_eq : s.table t = .ok fs ↔ s.tables t = some fs := by
  rw [Sys.table]
  cases s.tables t <;> simp

theorem filesDestroy_ok (here : s.tables t = some fs) (inv : Inv (s.files fs)) (run : filesDestroy b s t = .ok s') :
    releaseFiles b fs s.below = some s'.below ∧ s' = { s.setTable t none with below := s'.below } := by
  rw [filesDestroy, table_eq.mpr here] at run
  obtain ⟨_, same, run⟩ := bind_ok.mp run
  cases same
  obtain ⟨-, -, run⟩ := bind_ok.mp run
  have close : ∀ files : Files ω, Inv files → files.fdArray = fs.fdArray →
      (do let files ← closeOpened b true files (List.range FILES_STRUCT_NENTRY)
          pure { s.setTable t none with below := files.below } : Result (Sys ω)) = .ok s' →
      closeInodes b (openInodes fs.fdArray (List.range FILES_STRUCT_NENTRY)) files.below = some s'.below ∧
        s' = { s.setTable t none with below := s'.below } := by
    intro files inv same run
    obtain ⟨files', loop, last⟩ := bind_ok.mp run
    cases last
    have closed := closeOpened_closed _ List.nodup_range (fun i member => List.mem_range.mp member) inv loop
    exact ⟨same ▸ closed.inodes, rfl⟩
  dsimp only at run
  rw [releaseFiles]
  split at run
  · rename_i pwd _
    obtain ⟨dropped, drop, run⟩ := bind_ok.mp run
    obtain ⟨w, dec, rfl⟩ := effect_ok.mp drop
    obtain ⟨inodes, rest⟩ := close { s.files fs with below := w } inv rfl run
    rw [show b.refDec pwd s.below = some w from dec]
    exact ⟨inodes, rest⟩
  · obtain ⟨_, same, run⟩ := bind_ok.mp run
    cases same
    exact close (s.files fs) inv rfl run

/-! ## Copying descriptors -/

/-- A free entry becomes a copy of an open one. -/
theorem fdArrayDupFrom_ok {source : File} (slot : Slot i source) (opened : source.status = .opened)
    (fd : (files.fdArray i).fd = i) (count : (files.fdArray i).openCount = 0)
    (run : fdArrayDupFrom b files i source = .ok files') :
    ∃ w file, Slot i file ∧ files' = ({ files with below := w } : Files ω).setFile i file := by
  rw [fdArrayDupFrom] at run
  obtain ⟨-, -, run⟩ := bind_ok.mp run
  obtain ⟨node, here, run⟩ := bind_ok.mp run
  rw [fdArrayOpen] at run
  obtain ⟨-, -, run⟩ := bind_ok.mp run
  obtain ⟨-, use⟩ := slot
  have dir : node.kind = .dir → source.writable = false := by
    rcases use with ⟨free, -⟩ | ⟨-, -, node', here', dir⟩
    · exact absurd (free.symm.trans opened) (by simp)
    · rw [nodeOf, here'] at here
      exact Except.ok.inj here ▸ dir
  cases run
  refine ⟨b.openInc node (b.refInc node files.below), { files.fdArray i with
    status := .opened
    readable := source.readable
    writable := source.writable
    pos := source.pos
    node := some node
    openCount := (files.fdArray i).openCount + 1 }, ⟨fd, .inr ⟨rfl, by simp [count], node, rfl, dir⟩⟩, ?_⟩
  simp only [Files.setFile, Function.update_self, Function.update_idem]

theorem dupOpened_inv {source : Nat → File} (fds : List Nat) (nodup : fds.Nodup)
    (inside : ∀ i ∈ fds, i < FILES_STRUCT_NENTRY) (slots : ∀ i < FILES_STRUCT_NENTRY, Slot i (source i))
    (inv : Inv files)
    (free : ∀ i ∈ fds, (files.fdArray i).status = .none) (run : dupOpened b source files fds = .ok files') :
    Inv files' := by
  induction fds generalizing files with
  | nil =>
      cases run
      exact inv
  | cons i rest ih =>
      obtain ⟨new, nodup⟩ := List.nodup_cons.mp nodup
      have low := inside i List.mem_cons_self
      have later : ∀ j ∈ rest, j < FILES_STRUCT_NENTRY := fun j member => inside j (List.mem_cons_of_mem _ member)
      have others : ∀ j ∈ rest, (files.fdArray j).status = .none :=
        fun j member => free j (List.mem_cons_of_mem _ member)
      rw [dupOpened] at run
      dsimp only at run
      split at run
      · rename_i opened
        obtain ⟨next, copy, run⟩ := bind_ok.mp run
        obtain ⟨fd, use⟩ := inv i low
        have count : (files.fdArray i).openCount = 0 := by
          rcases use with ⟨-, count⟩ | ⟨busy, -⟩
          · exact count
          · exact absurd ((free i List.mem_cons_self).symm.trans busy) (by simp)
        obtain ⟨w, file, slot, rfl⟩ := fdArrayDupFrom_ok (slots i low) opened (by rw [setFile_self]; exact fd)
          (by rw [setFile_self]; exact count) copy
        refine ih nodup later ?_ (fun j member => ?_) run
        · rw [show (({ files.setFile i { files.fdArray i with status := .init } with below := w } : Files ω).setFile i
            file) =
            ({ files with below := w } : Files ω).setFile i file from setFile_setFile (s := { files with below := w })]
          exact Inv.setFile (s := { files with below := w }) inv slot
        · have other : j ≠ i := fun same => new (same ▸ member)
          rw [setFile_other other]
          change ((files.setFile i _).fdArray j).status = .none
          rw [setFile_other other]
          exact others j member
      · obtain ⟨_, same, run⟩ := bind_ok.mp run
        cases same
        exact ih nodup later inv others run

/-! ## Counts and sharers -/

/-- What a process holds until it exits. -/
def holds (s : Sys ω) (p : Nat) : Option Nat := if (s.procs p).zombie then none else (s.procs p).filesp

def sharers (s : Sys ω) (t : Nat) : Nat := tally (Finset.range s.nextProc) (holds s) t

/-- In any run a `files_struct` that is shared is there, and is counted at least as often as it is
    shared. -/
structure Consistent (s : Sys ω) : Prop where
  slots : ∀ {t fs}, s.tables t = some fs → Inv (s.files fs)
  count : ∀ {t fs}, s.tables t = some fs → (sharers s t : Int) ≤ fs.filesCount ∧ 0 < fs.filesCount
  gone : ∀ {t}, s.tables t = none → sharers s t = 0
  fresh : ∀ {t}, s.nextTable ≤ t → s.tables t = none

/-- Every `files_struct` is counted as often as it is shared. -/
def Exact (s : Sys ω) : Prop := ∀ t fs, s.tables t = some fs → fs.filesCount = sharers s t

/-- Nothing has changed but entries and places. -/
structure SameShares (s s' : Sys ω) : Prop where
  procs : s'.nextProc = s.nextProc
  holds : ∀ p, holds s' p = holds s p
  tables : ∀ t, (s'.tables t).map (·.filesCount) = (s.tables t).map (·.filesCount)
  next : s'.nextTable = s.nextTable
  slots : ∀ {t fs}, s'.tables t = some fs → Inv (s'.files fs)

theorem SameShares.trans {u : Sys ω} (first : SameShares s s') (second : SameShares s' u) : SameShares s u where
  procs := second.procs.trans first.procs
  holds p := (second.holds p).trans (first.holds p)
  tables t := (second.tables t).trans (first.tables t)
  next := second.next.trans first.next
  slots := second.slots

theorem SameShares.sharers (same : SameShares s s') (t : Nat) : sharers s' t = sharers s t := by
  rw [OpenFiles.sharers, OpenFiles.sharers, same.procs, funext same.holds]

theorem SameShares.back (same : SameShares s s') (here : s'.tables t = some fs) :
    ∃ old, s.tables t = some old ∧ fs.filesCount = old.filesCount := by
  have counts := same.tables t
  rw [here] at counts
  cases there : s.tables t with
  | none =>
      rw [there] at counts
      cases counts
  | some old =>
      rw [there] at counts
      exact ⟨old, rfl, Option.some.inj counts⟩

theorem SameShares.absent (same : SameShares s s') : s'.tables t = none ↔ s.tables t = none := by
  have counts := same.tables t
  cases here : s'.tables t <;> cases there : s.tables t <;> simp [here, there] at counts ⊢

theorem SameShares.consistent (same : SameShares s s') (consistent : Consistent s) : Consistent s' where
  slots := same.slots
  count here := by
    obtain ⟨old, there, counts⟩ := same.back here
    rw [same.sharers, counts]
    exact consistent.count there
  gone absent := by
    rw [same.sharers]
    exact consistent.gone (same.absent.mp absent)
  fresh beyond := same.absent.mpr (consistent.fresh (same.next ▸ beyond))

theorem SameShares.exact (same : SameShares s s') (exact : Exact s) : Exact s' := by
  intro t fs here
  obtain ⟨old, there, counts⟩ := same.back here
  rw [same.sharers, counts]
  exact exact t old there

theorem SameShares.putFds (consistent : Consistent s) (here : s.tables t = some fs) (inv : Inv files) :
    SameShares s (s.putFds t fs files) where
  procs := rfl
  holds _ := rfl
  tables u := by
    change ((s.setTable t _).tables u).map _ = _
    by_cases same : u = t
    · rw [same, setTable_self, here]
      rfl
    · rw [setTable_other same]
  next := rfl
  slots {u fs'} there := by
    change (s.setTable t _).tables u = some fs' at there
    by_cases same : u = t
    · rw [same, setTable_self] at there
      cases there
      exact inv
    · rw [setTable_other same] at there
      exact consistent.slots there

theorem SameShares.setProc {proc : Proc} (consistent : Consistent s) (filesp : proc.filesp = (s.procs p).filesp)
    (zombie : proc.zombie = (s.procs p).zombie) : SameShares s (s.setProc p proc) where
  procs := rfl
  holds q := by
    rw [OpenFiles.holds, OpenFiles.holds, Sys.setProc]
    by_cases same : q = p
    · simp [same, filesp, zombie]
    · simp [Function.update_of_ne same]
  tables _ := rfl
  next := rfl
  slots here := consistent.slots here

/-- Only the address space of a process has changed. -/
structure Torn (s s' : Sys ω) (p : Nat) : Prop where
  self : s'.procs p = { s.procs p with mm := none }
  others : ∀ q, q ≠ p → s'.procs q = s.procs q
  procs : s'.nextProc = s.nextProc
  tables : s'.tables = s.tables
  next : s'.nextTable = s.nextTable
  below : s'.below = s.below

theorem dropMm_torn {mm : Nat} (run : dropMm s p mm = .ok s') : Torn s s' p := by
  rw [dropMm] at run
  split at run
  · cases run
    exact ⟨Function.update_self .., fun q other => Function.update_of_ne other .., rfl, rfl, rfl, rfl⟩
  · exact nomatch run

theorem Torn.same (torn : Torn s s' p) (consistent : Consistent s) : SameShares s s' where
  procs := torn.procs
  holds q := by
    rw [OpenFiles.holds, OpenFiles.holds]
    by_cases same : q = p
    · rw [same, torn.self]
    · rw [torn.others q same]
  tables _ := by rw [torn.tables]
  next := torn.next
  slots here := consistent.slots (torn.tables ▸ here)

/-! ## Exit -/

/-- The `files_struct` is counted once less, and the last share takes it along: its descriptors are
    closed and it is gone. -/
def Drops (b : Below ω) (s s' : Sys ω) (t : Nat) : Prop :=
  ∃ fs, s.tables t = some fs ∧
    if fs.filesCount = 1 then s'.tables t = none ∧ releaseFiles b fs s.below = some s'.below
    else s'.tables t = some { fs with filesCount := fs.filesCount - 1 } ∧ s'.below = s.below

/-- A process holds nothing any more. -/
structure Exited (s s' : Sys ω) (p : Nat) : Prop where
  procs : s'.nextProc = s.nextProc
  self : holds s' p = none
  others : ∀ q, q ≠ p → holds s' q = holds s q
  next : s'.nextTable = s.nextTable

theorem Exited.sharers (exited : Exited s s' p) (running : Running s p) (u : Nat) :
    sharers s' u + (if holds s p = some u then 1 else 0) = sharers s u := by
  have store := tally_store (a := u) (f := holds s) (g := holds s') (Finset.mem_range.mpr running.1)
    fun q _ other => exited.others q other
  rw [exited.self, if_neg (c := none = some u) nofun, Nat.add_zero] at store
  rw [OpenFiles.sharers, OpenFiles.sharers, exited.procs]
  exact store

/-- Behind `do_exit`: the process is a zombie, and one table may have changed. -/
structure Left (b : Below ω) (s s' : Sys ω) (p : Nat) : Prop where
  exited : Exited s s' p
  others : ∀ u, (s.procs p).filesp ≠ some u → s'.tables u = s.tables u
  without : (s.procs p).mm = none → s'.tables = s.tables
  drops : (s.procs p).mm ≠ none → ∀ t, (s.procs p).filesp = some t → Drops b s s' t

theorem Exited.setProc {u : Sys ω} (procs : u.nextProc = s.nextProc)
    (same : ∀ q, q ≠ p → u.procs q = s.procs q) (next : u.nextTable = s.nextTable) :
    Exited s (u.setProc p { u.procs p with zombie := true }) p where
  procs := procs
  self := by simp [holds, Sys.setProc]
  others q other := by simp [holds, Sys.setProc, Function.update_of_ne other, same q other]
  next := next

/-- What `put_files` may change. -/
structure Put (s s' : Sys ω) (t : Nat) : Prop where
  procs : s'.procs = s.procs
  nextProc : s'.nextProc = s.nextProc
  next : s'.nextTable = s.nextTable
  others : ∀ u, u ≠ t → s'.tables u = s.tables u

theorem putFiles_ok (filesp : (s.procs p).filesp = some t) (here : s.tables t = some fs) (inv : Inv (s.files fs))
    (run : putFiles b s p = .ok s') : Put s s' t ∧ Drops b s s' t := by
  rw [putFiles, filesp] at run
  dsimp only at run
  rw [table_eq.mpr here] at run
  obtain ⟨_, same, run⟩ := bind_ok.mp run
  cases same
  split at run
  · rename_i last
    have one : fs.filesCount = 1 := by omega
    obtain ⟨released, shape⟩ := filesDestroy_ok (s := s.setTable t (some { fs with filesCount := fs.filesCount - 1 }))
      setTable_self inv run
    have gone : s' = { s.setTable t none with below := s'.below } := by
      refine shape.trans ?_
      simp only [Sys.setTable, Function.update_idem]
    refine ⟨?_, fs, here, ?_⟩
    · rw [gone]
      exact ⟨rfl, rfl, rfl, fun u other => setTable_other other⟩
    · rw [if_pos one]
      refine ⟨?_, released⟩
      rw [gone]
      exact setTable_self
  · rename_i more
    cases run
    refine ⟨⟨rfl, rfl, rfl, fun u other => setTable_other other⟩, fs, here, ?_⟩
    rw [if_neg (by omega)]
    exact ⟨setTable_self, rfl⟩

theorem Consistent.table (consistent : Consistent s) (running : Running s p) (filesp : (s.procs p).filesp = some t) :
    ∃ fs, s.tables t = some fs := by
  cases there : s.tables t with
  | none =>
      have shared : 0 < sharers s t := tally_pos_iff.mpr
        ⟨p, Finset.mem_range.mpr running.1, by rw [holds, running.2, filesp]; rfl⟩
      rw [consistent.gone there] at shared
      exact absurd shared (Nat.lt_irrefl 0)
  | some fs => exact ⟨fs, rfl⟩

/-- What `do_exit` does. Without an address space it leaves every table as it is. -/
theorem doExit_left (consistent : Consistent s) (running : Running s p) (run : doExit b s p = .ok s') :
    Left b s s' p := by
  rw [doExit] at run
  obtain ⟨-, -, run⟩ := bind_ok.mp run
  dsimp only at run
  split at run
  · rename_i mm here
    have has : (s.procs p).mm ≠ none := by rw [here]; exact nofun
    obtain ⟨v, drop, run⟩ := bind_ok.mp run
    obtain ⟨u, put, last⟩ := bind_ok.mp run
    cases last
    have torn := dropMm_torn drop
    cases filesp : (s.procs p).filesp with
    | none =>
        rw [putFiles, torn.self, filesp] at put
        cases put
        refine ⟨.setProc torn.procs torn.others torn.next, fun _ _ => congrFun torn.tables _,
          fun none => absurd none has, ?_⟩
        intro _ t held
        rw [filesp] at held
        cases held
    | some t =>
        obtain ⟨fs, there⟩ := consistent.table running filesp
        obtain ⟨same, drops⟩ := putFiles_ok (s := v) (t := t) (by rw [torn.self, filesp]) (by rw [torn.tables, there])
          (consistent.slots there) put
        refine ⟨.setProc (same.nextProc.trans torn.procs) (fun q other => ?_) (same.next.trans torn.next),
          fun u other => ?_, fun none => absurd none has, fun _ t' held => ?_⟩
        · rw [same.procs, torn.others q other]
        · have other : u ≠ t := fun same => other (same ▸ filesp)
          exact (same.others u other).trans (congrFun torn.tables u)
        · rw [filesp] at held
          cases held
          obtain ⟨fs', there', drops⟩ := drops
          rw [torn.tables] at there'
          rw [torn.below] at drops
          exact ⟨fs', there', drops⟩
  · rename_i here
    obtain ⟨_, same, run⟩ := bind_ok.mp run
    cases same
    cases run
    exact ⟨.setProc rfl (fun _ _ => rfl) rfl, fun _ _ => rfl, fun _ => rfl, fun has => absurd here has⟩

/-- A process that exits with an address space drops its files, and one without does not. -/
theorem doExit_drops_iff (consistent : Consistent s) (running : Running s p) (filesp : (s.procs p).filesp = some t)
    (run : doExit b s p = .ok s') : Drops b s s' t ↔ (s.procs p).mm ≠ none := by
  have left := doExit_left consistent running run
  constructor
  · rintro ⟨fs, here, drops⟩ none
    rw [left.without none, here] at drops
    split at drops
    · exact nomatch drops.1
    · have counts := congrArg FilesStruct.filesCount (Option.some.inj drops.1)
      dsimp only at counts
      omega
  · exact fun has => left.drops has t filesp

/-- A table after an exit: as it was, or counted once less, or gone with its last share. -/
theorem Left.table {u : Nat} (left : Left b s s' p) :
    (s'.tables u = s.tables u ∧ ((s.procs p).mm ≠ none → (s.procs p).filesp ≠ some u)) ∨
      ((s.procs p).filesp = some u ∧ ∃ fs, s.tables u = some fs ∧
        (fs.filesCount = 1 ∧ s'.tables u = none ∨
          fs.filesCount ≠ 1 ∧ s'.tables u = some { fs with filesCount := fs.filesCount - 1 })) := by
  by_cases held : (s.procs p).filesp = some u
  · by_cases none : (s.procs p).mm = none
    · exact .inl ⟨congrFun (left.without none) u, fun has => absurd none has⟩
    · obtain ⟨fs, here, drops⟩ := left.drops none u held
      split at drops
      · rename_i one
        exact .inr ⟨held, fs, here, .inl ⟨one, drops.1⟩⟩
      · rename_i more
        exact .inr ⟨held, fs, here, .inr ⟨more, drops.1⟩⟩
  · exact .inl ⟨left.others u held, fun _ => held⟩

theorem exit_consistent (consistent : Consistent s) (running : Running s p) (run : doExit b s p = .ok s') :
    Consistent s' ∧ ((s.procs p).mm ≠ none → Exact s → Exact s') := by
  have left := doExit_left consistent running run
  have fewer := left.exited.sharers running
  have holder : holds s p = (s.procs p).filesp := if_neg (by simp [running.2])
  rw [holder] at fewer
  refine ⟨⟨fun {t fs} here => ?_, fun {t fs} here => ?_, fun {t} absent => ?_, fun {t} beyond => ?_⟩,
    fun has exact t fs here => ?_⟩
  · rcases left.table (u := t) with ⟨same, -⟩ | ⟨-, old, there, ⟨-, gone⟩ | ⟨-, less⟩⟩
    · exact consistent.slots (same ▸ here)
    · rw [here] at gone
      cases gone
    · rw [here] at less
      cases less
      exact (consistent.slots there : Inv (s.files old))
  · rcases left.table (u := t) with ⟨same, -⟩ | ⟨held, old, there, ⟨-, gone⟩ | ⟨more, less⟩⟩
    · have count := consistent.count (same ▸ here)
      have := fewer t
      split at this <;> omega
    · rw [here] at gone
      cases gone
    · rw [here] at less
      cases less
      have count := consistent.count there
      have := fewer t
      rw [if_pos held] at this
      dsimp only
      omega
  · rcases left.table (u := t) with ⟨same, -⟩ | ⟨held, old, there, ⟨one, -⟩ | ⟨-, less⟩⟩
    · have := consistent.gone (same ▸ absent)
      have := fewer t
      omega
    · have count := consistent.count there
      have := fewer t
      rw [if_pos held] at this
      omega
    · rw [absent] at less
      cases less
  · have absent := consistent.fresh (left.exited.next ▸ beyond)
    rcases left.table (u := t) with ⟨same, -⟩ | ⟨-, old, there, -⟩
    · exact same.trans absent
    · rw [absent] at there
      cases there
  · rcases left.table (u := t) with ⟨same, other⟩ | ⟨held, old, there, ⟨-, gone⟩ | ⟨-, less⟩⟩
    · have := fewer t
      rw [if_neg (other has), Nat.add_zero] at this
      rw [this]
      exact exact t fs (same ▸ here)
    · rw [here] at gone
      cases gone
    · rw [here] at less
      cases less
      have count := exact t old there
      have := fewer t
      rw [if_pos held] at this
      dsimp only
      omega

/-! ## Fork -/

theorem takeMm_frame (s : Sys ω) (mm : Option Nat) : ∃ mms, takeMm s mm = { s with mms := mms } := by
  cases mm with
  | none => exact ⟨s.mms, rfl⟩
  | some mm => exact ⟨_, rfl⟩

/-- A new process that shares the `t`-th table. -/
structure Forked (s s' : Sys ω) (t : Nat) : Prop where
  procs : s'.nextProc = s.nextProc + 1
  self : holds s' s.nextProc = some t
  others : ∀ q < s.nextProc, holds s' q = holds s q

theorem Forked.sharers (forked : Forked s s' t) (u : Nat) :
    sharers s' u = sharers s u + if t = u then 1 else 0 := by
  have same : tally (Finset.range s.nextProc) (holds s') u = tally (Finset.range s.nextProc) (holds s) u :=
    tally_congr fun q member => forked.others q (Finset.mem_range.mp member)
  rw [OpenFiles.sharers, OpenFiles.sharers, forked.procs, tally_succ, forked.self, same]
  simp only [Option.some.injEq]

theorem Forked.setProc {u : Sys ω} {mm : Option Nat} (procs : u.procs = s.procs) (next : u.nextProc = s.nextProc) :
    Forked s { u.setProc u.nextProc ⟨some t, mm, .user, false⟩ with nextProc := u.nextProc + 1 } t where
  procs := congrArg (· + 1) next
  self := by simp [holds, Sys.setProc, next]
  others q low := by
    have other : q ≠ u.nextProc := by omega
    simp [holds, Sys.setProc, Function.update_of_ne other, procs]

/-- The table of the parent, counted once more, or a new one of its own. -/
theorem copyFiles_ok {cloneFlags : BitVec 32} {memory : Bool} {r : Except Int Nat} (consistent : Consistent s)
    (run : copyFiles b cloneFlags memory s p = .ok (r, s')) :
    s'.procs = s.procs ∧ s'.nextProc = s.nextProc ∧ ((∃ ret, r = .error ret) ∧ s' = s ∨
      (∃ t fs, r = .ok t ∧ s.tables t = some fs ∧ s'.nextTable = s.nextTable ∧
        s'.tables = Function.update s.tables t (some { fs with filesCount := fs.filesCount + 1 })) ∨
      ∃ fs, r = .ok s.nextTable ∧ s'.nextTable = s.nextTable + 1 ∧ Inv (s'.files fs) ∧ fs.filesCount = 1 ∧
        s'.tables = Function.update s.tables s.nextTable (some fs)) := by
  rw [copyFiles] at run
  obtain ⟨old, -, run⟩ := bind_ok.mp run
  obtain ⟨oldFiles, here, run⟩ := bind_ok.mp run
  rw [table_eq] at here
  split at run
  · cases run
    exact ⟨rfl, rfl, .inr (.inl ⟨old, oldFiles, rfl, here, rfl, rfl⟩)⟩
  split at run
  · cases run
    exact ⟨rfl, rfl, .inl ⟨⟨_, rfl⟩, rfl⟩⟩
  · obtain ⟨⟨filesp, below⟩, dup, last⟩ := bind_ok.mp run
    cases last
    rw [dupFiles] at dup
    obtain ⟨-, -, dup⟩ := bind_ok.mp dup
    obtain ⟨files, loop, last⟩ := bind_ok.mp dup
    cases last
    have fresh : Inv (⟨filesCreate.fdArray, s.below⟩ : Files ω) := fun i _ => ⟨rfl, .inl ⟨rfl, rfl⟩⟩
    have inv := dupOpened_inv _ List.nodup_range (fun i member => List.mem_range.mp member) (consistent.slots here)
      (by exact fresh) (fun _ _ => rfl) loop
    exact ⟨rfl, rfl, .inr (.inr ⟨⟨oldFiles.pwd, files.fdArray, 1⟩, rfl, rfl, inv, rfl, rfl⟩)⟩

/-- One share more of a table that is counted for it. -/
theorem Forked.consistent (forked : Forked s s' t) (consistent : Consistent s)
    (tables : s'.tables = Function.update s.tables t (some fs)) (slots : Inv (s'.files fs))
    (count : (OpenFiles.sharers s t : Int) < fs.filesCount) (next : s.nextTable ≤ s'.nextTable)
    (low : t < s'.nextTable) :
    Consistent s' ∧ (fs.filesCount = OpenFiles.sharers s t + 1 → Exact s → Exact s') := by
  have here : s'.tables t = some fs := by rw [tables, Function.update_self]
  have others : ∀ u, u ≠ t → s'.tables u = s.tables u := fun u other => by
    rw [tables, Function.update_of_ne other]
  have self : OpenFiles.sharers s' t = OpenFiles.sharers s t + 1 := by rw [forked.sharers, if_pos rfl]
  have rest : ∀ u, u ≠ t → OpenFiles.sharers s' u = OpenFiles.sharers s u := fun u other => by
    rw [forked.sharers, if_neg (Ne.symm other), Nat.add_zero]
  refine ⟨⟨fun {u fs'} there => ?_, fun {u fs'} there => ?_, fun {u} absent => ?_, fun {u} beyond => ?_⟩,
    fun exactly exact u fs' there => ?_⟩
  · by_cases same : u = t
    · rw [same, here] at there
      cases there
      exact slots
    · rw [others u same] at there
      exact (consistent.slots there : Inv (s.files fs'))
  · by_cases same : u = t
    · rw [same, here] at there
      cases there
      rw [same, self]
      omega
    · rw [others u same] at there
      rw [rest u same]
      exact consistent.count there
  · by_cases same : u = t
    · rw [same, here] at absent
      cases absent
    · rw [rest u same]
      exact consistent.gone (others u same ▸ absent)
  · rw [others u (by omega)]
    exact consistent.fresh (by omega)
  · by_cases same : u = t
    · rw [same, here] at there
      cases there
      rw [same, self, exactly]
      rfl
    · rw [others u same] at there
      rw [rest u same]
      exact exact u fs' there

theorem fork_consistent {cloneFlags : BitVec 32} {memory : Bool} {mm : Option Nat} (consistent : Consistent s)
    (run : doFork b s p cloneFlags memory mm = .ok s') : Consistent s' ∧ (Exact s → Exact s') := by
  rw [doFork] at run
  obtain ⟨⟨r, u⟩, copy, rest⟩ := bind_ok.mp run
  obtain ⟨mms, frame⟩ := takeMm_frame u mm
  obtain ⟨procs, nextProc, ⟨⟨ret, rfl⟩, rfl⟩ | ⟨t, fs, rfl, here, next, tables⟩ | ⟨fs, rfl, next, inv, one, tables⟩⟩ :=
    copyFiles_ok consistent copy
  · obtain rfl := Except.ok.inj rest
    exact ⟨consistent, id⟩
  · dsimp only at rest
    rw [frame] at rest
    cases rest
    have forked : Forked s { ({ u with mms := mms } : Sys ω).setProc u.nextProc ⟨some t, mm, .user, false⟩ with
        nextProc := u.nextProc + 1 } t := .setProc procs nextProc
    have counted := (consistent.count here).1
    have slots : Inv (s.files fs) := consistent.slots here
    have slots : Inv (s.files { fs with filesCount := fs.filesCount + 1 }) := slots
    obtain ⟨kept, exactly⟩ := forked.consistent consistent tables slots (by dsimp only; omega) next.ge (by
        by_contra beyond
        rw [consistent.fresh (next ▸ Nat.not_lt.mp beyond)] at here
        cases here)
    exact ⟨kept, fun exact => exactly (by dsimp only; rw [exact t fs here]) exact⟩
  · dsimp only at rest
    rw [frame] at rest
    cases rest
    have forked : Forked s { ({ u with mms := mms } : Sys ω).setProc u.nextProc
      ⟨some s.nextTable, mm, .user, false⟩ with
        nextProc := u.nextProc + 1 } s.nextTable := .setProc procs nextProc
    have alone : sharers s s.nextTable = 0 := consistent.gone (consistent.fresh le_rfl)
    obtain ⟨kept, exactly⟩ := forked.consistent consistent tables inv (by rw [alone, one]; decide)
      (show s.nextTable ≤ u.nextTable by omega) (show s.nextTable < u.nextTable by omega)
    exact ⟨kept, exactly (by rw [alone, one]; rfl)⟩

/-! ## The other steps -/

theorem fileCall_same {call : Fs.Descriptors.Action} (consistent : Consistent s) (run : fileCall b s p call = .ok s') :
    SameShares s s' := by
  rw [fileCall] at run
  obtain ⟨t, -, run⟩ := bind_ok.mp run
  obtain ⟨fs, here, run⟩ := bind_ok.mp run
  obtain ⟨-, -, run⟩ := bind_ok.mp run
  obtain ⟨⟨ret, files⟩, exec, last⟩ := bind_ok.mp run
  cases last
  rw [table_eq] at here
  exact .putFds consistent here (Fs.Descriptors.Step.inv ⟨call, ret, exec⟩ (consistent.slots here))

theorem filesCloseall_same (consistent : Consistent s) (run : filesCloseall b s t = .ok s') : SameShares s s' := by
  rw [filesCloseall] at run
  obtain ⟨fs, here, run⟩ := bind_ok.mp run
  obtain ⟨-, -, run⟩ := bind_ok.mp run
  obtain ⟨files, loop, last⟩ := bind_ok.mp run
  cases last
  rw [table_eq] at here
  have low : ∀ i ∈ List.range' 2 (FILES_STRUCT_NENTRY - 2), i < FILES_STRUCT_NENTRY := by decide
  exact .putFds consistent here (closeOpened_closed _ List.nodup_range' low (consistent.slots here) loop).inv

theorem SameShares.placed (consistent : Consistent s) (place : Place) :
    SameShares s (s.setProc p { s.procs p with place := place }) := .setProc consistent rfl rfl

theorem execOpen_same {path : Except Int (List UInt8)} (consistent : Consistent s)
    (run : execOpen b s p path = .ok s') : SameShares s s' := by
  rw [execOpen] at run
  obtain ⟨t, -, run⟩ := bind_ok.mp run
  obtain ⟨u, close, run⟩ := bind_ok.mp run
  have first := filesCloseall_same consistent close
  cases path with
  | error ret =>
      cases run
      exact first.trans (.placed (first.consistent consistent) .failed)
  | ok path =>
      obtain ⟨fs, here, run⟩ := bind_ok.mp run
      obtain ⟨⟨fd, files⟩, opened, last⟩ := bind_ok.mp run
      rw [table_eq] at here
      have inv : Inv files := fileOpen_inv (first.slots here) opened
      have second := first.trans (.putFds (first.consistent consistent) here inv)
      cases last
      exact second.trans (.placed (second.consistent consistent) _)

theorem execTear_same (consistent : Consistent s) (run : execTear s p = .ok s') : SameShares s s' := by
  rw [execTear] at run
  dsimp only at run
  split at run
  · obtain ⟨u, drop, last⟩ := bind_ok.mp run
    have first := (dropMm_torn drop).same consistent
    cases last
    exact first.trans (.placed (first.consistent consistent) .torn)
  · cases run
    exact .placed consistent .torn

theorem execLoad_same {ret : Int} {mm : Option Nat} (consistent : Consistent s) :
    SameShares s (execLoad s p ret mm) := by
  obtain ⟨mms, frame⟩ := takeMm_frame s mm
  have same : SameShares s (s.setProc p { s.procs p with mm := mm, place := if ret = 0 then .user else .failed }) :=
    .setProc consistent rfl rfl
  rw [execLoad, frame]
  exact ⟨same.procs, same.holds, same.tables, same.next, same.slots⟩

/-! ## Every run -/

theorem Initial.consistent (fresh : Initial s) : Consistent s ∧ Exact s := by
  have holds0 : holds s 0 = some 0 := by rw [holds, fresh.one.2]; rfl
  have shares : ∀ t, sharers s t = if 0 = t then 1 else 0 := fun t => by
    rw [sharers, fresh.one.1, tally_succ, holds0]
    simp [tally]
  have only : ∀ {t fs}, s.tables t = some fs → t = 0 ∧ fs = { filesCreate with filesCount := 1 } :=
    fun {t fs} here => by
    rw [fresh.table] at here
    by_cases same : t = 0
    · rw [same, Function.update_self] at here
      exact ⟨same, (Option.some.inj here).symm⟩
    · rw [Function.update_of_ne same] at here
      cases here
  refine ⟨⟨fun here => ?_, fun here => ?_, fun {t} absent => ?_, fun {t} beyond => ?_⟩, fun t fs here => ?_⟩
  · obtain ⟨-, rfl⟩ := only here
    exact fun i _ => ⟨rfl, .inl ⟨rfl, rfl⟩⟩
  · obtain ⟨rfl, rfl⟩ := only here
    rw [shares]
    decide
  · have other : 0 ≠ t := fun same => by
      rw [← same, fresh.table, Function.update_self] at absent
      cases absent
    rw [shares, if_neg other]
  · rw [fresh.table, Function.update_of_ne]
    rw [fresh.next] at beyond
    omega
  · obtain ⟨rfl, rfl⟩ := only here
    rw [shares]
    rfl

theorem Step.consistent {allowed : Proc → Action → Prop} (step : Step b allowed s s') (consistent : Consistent s) :
    Consistent s' := by
  obtain ⟨p, a, running, -, -, run⟩ := step
  cases a with
  | fork cloneFlags memory mm => exact (fork_consistent consistent run).1
  | file call => exact (fileCall_same consistent run).consistent consistent
  | execOpen path => exact (execOpen_same consistent run).consistent consistent
  | execTear => exact (execTear_same consistent run).consistent consistent
  | execLoad ret mm => exact Except.ok.inj run ▸ (execLoad_same consistent).consistent consistent
  | exit => exact (exit_consistent consistent running run).1

theorem Step.exact (step : Step b ExitsWithMm s s') (consistent : Consistent s) (exact : Exact s) : Exact s' := by
  obtain ⟨p, a, running, -, kept, run⟩ := step
  cases a with
  | fork cloneFlags memory mm => exact (fork_consistent consistent run).2 exact
  | file call => exact (fileCall_same consistent run).exact exact
  | execOpen path => exact (execOpen_same consistent run).exact exact
  | execTear => exact (execTear_same consistent run).exact exact
  | execLoad ret mm => exact Except.ok.inj run ▸ (execLoad_same consistent).exact exact
  | exit => exact (exit_consistent consistent running run).2 kept exact

/-- In a run in which no process exits without an address space, a `files_struct` is counted as often as it
    is shared and goes with its last share. In any run, the next process to exit drops its files exactly if it
    has an address space. -/
theorem exits_drop_iff (reached : Reachable Initial (Step b fun _ _ => True) s) :
    (Reachable Initial (Step b ExitsWithMm) s → ∀ t, (s.tables t = none → sharers s t = 0) ∧
      ∀ fs, s.tables t = some fs → fs.filesCount = sharers s t ∧ 0 < sharers s t) ∧
    ∀ p t s', Running s p → (s.procs p).filesp = some t → doExit b s p = .ok s' →
      (Drops b s s' t ↔ (s.procs p).mm ≠ none) := by
  have consistent := reached.invariant Consistent (fun _ fresh => fresh.consistent.1)
    fun _ _ inv step => step.consistent inv
  refine ⟨fun kept t => ?_, fun p t s' running filesp run => doExit_drops_iff consistent running filesp run⟩
  have exact := (kept.invariant (fun s => Consistent s ∧ Exact s) (fun _ fresh => fresh.consistent)
    fun _ _ inv step => ⟨step.consistent inv.1, step.exact inv.1 inv.2⟩).2
  refine ⟨consistent.gone, fun fs here => ?_⟩
  have count := (consistent.count here).2
  have same := exact t fs here
  exact ⟨same, by omega⟩

/-! ## A failed `do_execve` -/

def onlyIdle : Sys Unit where
  procs := fun _ => ⟨some 0, none, .user, false⟩
  nextProc := 1
  tables := Function.update (fun _ => none) 0 (some { filesCreate with filesCount := 1 })
  nextTable := 1
  mms := fun _ => none
  below := ()

theorem onlyIdle_initial : Initial onlyIdle := ⟨⟨rfl, rfl⟩, rfl, rfl⟩

def move (s : Sys Unit) (m : Nat × Action) : Option (Sys Unit) :=
  if Running s m.1 ∧ m.2.From (s.procs m.1).place = true then (m.2.exec onlyRoot s m.1).toOption else none

theorem move_step (allowed : Proc → Action → Prop) {s s' : Sys Unit} {m : Nat × Action} (moves : move s m = some s')
    (fine : allowed (s.procs m.1) m.2) : Step onlyRoot allowed s s' := by
  rw [move] at moves
  split at moves
  · rename_i may
    cases run : m.2.exec onlyRoot s m.1 with
    | error stop =>
        rw [run] at moves
        cases moves
    | ok u =>
        rw [run] at moves
        cases moves
        exact ⟨m.1, m.2, may.1, may.2, fine, run⟩
  · cases moves

/-- `initproc` is forked, and a kernel thread that then tries to run a program. -/
def failedLoad : List (Nat × Action) :=
  [(0, .fork 0 true none), (1, .fork 0 true none), (2, .execOpen (.ok [0x2e])), (2, .execTear),
    (2, .execLoad (-E_NO_MEM) none)]

theorem played_reachable {s : Sys Unit} {moves : List (Nat × Action)} (played : play move onlyIdle moves = some s) :
    Reachable Initial (Step onlyRoot fun _ _ => True) s := by
  have sound : ∀ s m s', move s m = some s' → Step onlyRoot (fun _ _ => True) s s' := fun _ _ _ moves =>
    move_step (fun _ _ => True) moves trivial
  exact play_reachable sound (.start onlyIdle_initial) played

theorem failedLoad_ends : ∃ s s', play move onlyIdle failedLoad = some s ∧ doExit onlyRoot s 2 = .ok s' ∧ Running s 2 ∧
    (s.procs 2).filesp = some 2 ∧ (s.tables 2).map (·.filesCount) = some 1 ∧ sharers s' 2 = 0 ∧
    (s'.tables 2).map (fun fs => (fs.filesCount, (fs.fdArray 0).status)) = some (1, .opened) := by
  have ends : (match play move onlyIdle failedLoad with
      | none => false
      | some s =>
          match doExit onlyRoot s 2 with
          | .error _ => false
          | .ok s' => decide (Running s 2 ∧ (s.procs 2).filesp = some 2 ∧ (s.tables 2).map (·.filesCount) = some 1 ∧
              sharers s' 2 = 0 ∧
              (s'.tables 2).map (fun fs => (fs.filesCount, (fs.fdArray 0).status)) = some (1, .opened))) = true := by
    decide +kernel
  cases played : play move onlyIdle failedLoad with
  | none =>
      rw [played] at ends
      cases ends
  | some s =>
      rw [played] at ends
      dsimp only at ends
      cases run : doExit onlyRoot s 2 with
      | error stop =>
          rw [run] at ends
          cases ends
      | ok s' =>
          rw [run] at ends
          exact ⟨s, s', rfl, run, of_decide_eq_true ends⟩

/-- The old address space is gone when the load fails: the process exits, nobody shares its files any more,
    and they are still counted, with the program still open. -/
theorem exit_keeps_files : ∃ s s', Reachable Initial (Step onlyRoot fun _ _ => True) s ∧ Running s 2 ∧
    (s.procs 2).filesp = some 2 ∧ doExit onlyRoot s 2 = .ok s' ∧ sharers s' 2 = 0 ∧
    (s'.tables 2).map (fun fs => (fs.filesCount, (fs.fdArray 0).status)) = some (1, .opened) ∧
    ¬Drops onlyRoot s s' 2 := by
  obtain ⟨s, s', played, run, running, filesp, counted, nobody, kept⟩ := failedLoad_ends
  refine ⟨s, s', played_reachable played, running, filesp, run, nobody, kept, ?_⟩
  rintro ⟨fs, here, drops⟩
  rw [here] at counted
  rw [if_pos (Option.some.inj counted)] at drops
  rw [drops.1] at kept
  cases kept

/-- The same where the load works, up to the exit. -/
def fineLoad : List (Nat × Action) :=
  [(0, .fork 0 true none), (1, .fork 0 true none), (2, .execOpen (.ok [0x2e])), (2, .execTear),
    (2, .execLoad 0 (some 7))]

theorem exits_drop_iff_fineLoad : ∃ s s', Reachable Initial (Step onlyRoot fun _ _ => True) s ∧
    doExit onlyRoot s 2 = .ok s' ∧ Drops onlyRoot s s' 2 := by
  have ends : (match play move onlyIdle fineLoad with
      | none => false
      | some s =>
          match doExit onlyRoot s 2 with
          | .error _ => false
          | .ok _ => decide (Running s 2 ∧ (s.procs 2).filesp = some 2 ∧ (s.procs 2).mm ≠ none)) = true := by
    decide +kernel
  cases played : play move onlyIdle fineLoad with
  | none =>
      rw [played] at ends
      cases ends
  | some s =>
      rw [played] at ends
      dsimp only at ends
      cases run : doExit onlyRoot s 2 with
      | error stop =>
          rw [run] at ends
          cases ends
      | ok s' =>
          rw [run] at ends
          obtain ⟨running, filesp, has⟩ := of_decide_eq_true ends
          have reached := played_reachable played
          exact ⟨s, s', reached, run, ((exits_drop_iff reached).2 2 2 s' running filesp run).mpr has⟩

end Ucore.Process.OpenFiles
