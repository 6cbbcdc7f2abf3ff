import Ucore.Lib.Siblings
import Ucore.Process.GetPid
import Ucore.Schedule.ProcList

/-! # The life of a process

`do_fork`, `do_exit`, `do_wait` and `do_kill` of `proc.c`, with the lists they keep: the list of
all processes, the hash lists by pid, and the family pointers. The processor changes hands only
in `schedule`. Memory, stacks and registers are left out; whether their pages could be had is
given to `do_fork`.
-/

namespace Ucore.Process.Family

open Lib.Ring Lib.Siblings Libs.Assert Libs.List

open GetPid (MAX_PID MAX_PROCESS Pids)
open Schedule.Sched (ProcState idleproc)

/-- The address of a `proc_struct`. -/
abbrev Ptr := Schedule.Sched.Pid

inductive Fault where
  | assertion
  | idleExit
  | initExit
  | waitInit
  | proc
  | pointer
  | fuel
  deriving DecidableEq, Repr

abbrev Kernel := Except Fault

def ensure (c : Prop) [Decidable c] (fault : Fault) : Kernel Unit := if c then .ok () else .error fault

def lift : Result α → Kernel α
  | .ok a => .ok a
  | .error .assertion => .error .assertion
  | .error .panic => .error .proc
  | .error .fuel => .error .fuel

def E_BAD_PROC : Int := 2
def E_INVAL : Int := 3
def E_NO_MEM : Int := 4
def E_NO_FREE_PROC : Int := 5
def E_KILLED : Int := 9

def PF_EXITING : BitVec 32 := 0x00000001#32
def WT_INTERRUPTED : BitVec 32 := 0x80000000#32
def WT_CHILD : BitVec 32 := 0x00000001#32 ||| WT_INTERRUPTED

def HASH_SHIFT : Nat := 10
def HASH_LIST_SIZE : Nat := 1 <<< HASH_SHIFT

def GOLDEN_RATIO_PRIME_32 : BitVec 32 := 0x9e370001#32

def hash32 (val : BitVec 32) (bits : Nat) : BitVec 32 := (val * GOLDEN_RATIO_PRIME_32) >>> (32 - bits)

def pidHashfn (x : Int) : Nat := (hash32 (BitVec.ofInt 32 x) HASH_SHIFT).toNat

inductive HashNode where
  | hashList (i : Nat)
  | hashLink (p : Ptr)
  deriving DecidableEq, Repr

/-- The fields of a `proc_struct` beside its pointers. The last one is where the process is: in a
    call of `do_wait` that gave up the processor, with its argument, or in no such call. -/
structure Proc where
  state : ProcState
  pid : Int
  flags : BitVec 32
  waitState : BitVec 32
  exitCode : Int
  waits : Option Int
  deriving DecidableEq, Repr

/-- `kin` holds the fields `parent`, `cptr`, `optr` and `yptr`, and `live` the structures that
    are allocated. -/
structure Machine where
  procs : Ptr → Proc
  kin : Kin Ptr
  live : Finset Ptr
  procList : Links GetPid.Node
  hashList : Links HashNode
  lastPid : Nat
  nextSafe : Nat
  nrProcess : Int
  current : Ptr
  initproc : Ptr

namespace Machine

def setProc (s : Machine) (p : Ptr) (proc : Proc) : Machine := { s with procs := Function.update s.procs p proc }

def setParent (s : Machine) (p : Ptr) (q : Option Ptr) : Machine :=
  { s with kin := { s.kin with parent := Function.update s.kin.parent p q } }

def setCptr (s : Machine) (p : Ptr) (q : Option Ptr) : Machine :=
  { s with kin := { s.kin with child := Function.update s.kin.child p q } }

def setOptr (s : Machine) (p : Ptr) (q : Option Ptr) : Machine :=
  { s with kin := { s.kin with older := Function.update s.kin.older p q } }

def setYptr (s : Machine) (p : Ptr) (q : Option Ptr) : Machine :=
  { s with kin := { s.kin with younger := Function.update s.kin.younger p q } }

/-- A pointer that is followed must lead to a structure that is allocated. -/
def deref (s : Machine) : Option Ptr → Kernel Ptr
  | some p => if p ∈ s.live then .ok p else .error .pointer
  | none => .error .pointer

end Machine

/-! ## Lists -/

def setLinks (s : Machine) (p : Ptr) : Kernel Machine := do
  let p ← s.deref (some p)
  let s := { s with procList := listAdd s.procList .procList (.listLink p) }
  let s := s.setYptr p none
  let parent ← s.deref (s.kin.parent p)
  let s := s.setOptr p (s.kin.child parent)
  let s ← match s.kin.older p with
    | some q => do
        let q ← s.deref (some q)
        pure (s.setYptr q (some p))
    | none => pure s
  let s := s.setCptr parent (some p)
  pure { s with nrProcess := s.nrProcess + 1 }

def removeLinks (s : Machine) (p : Ptr) : Kernel Machine := do
  let p ← s.deref (some p)
  let s := { s with procList := listDel s.procList (.listLink p) }
  let s ← match s.kin.older p with
    | some q => do
        let q ← s.deref (some q)
        pure (s.setYptr q (s.kin.younger p))
    | none => pure s
  let s ← match s.kin.younger p with
    | some q => do
        let q ← s.deref (some q)
        pure (s.setOptr q (s.kin.older p))
    | none => do
        let parent ← s.deref (s.kin.parent p)
        pure (s.setCptr parent (s.kin.older p))
  pure { s with nrProcess := s.nrProcess - 1 }

/-- What `get_pid` reads. The pids of the processes on the list are positive. -/
def Machine.pids (s : Machine) : Pids := ⟨s.procList, fun p => (s.procs p).pid.toNat, s.lastPid, s.nextSafe⟩

def getPid (fuel : Nat) (s : Machine) : Kernel (Int × Machine) := do
  let (pid, t) ← lift (GetPid.getPid fuel s.pids)
  pure (pid, { s with lastPid := t.lastPid, nextSafe := t.nextSafe })

def hashProc (s : Machine) (p : Ptr) : Kernel Machine := do
  let p ← s.deref (some p)
  pure { s with hashList := listAdd s.hashList (.hashList (pidHashfn (s.procs p).pid)) (.hashLink p) }

def unhashProc (s : Machine) (p : Ptr) : Kernel Machine := do
  let p ← s.deref (some p)
  pure { s with hashList := listDel s.hashList (.hashLink p) }

/-- The loop of `find_proc` from the entry `le` on. -/
def findLoop (s : Machine) (list : HashNode) (pid : Int) : Nat → HashNode → Kernel (Option Ptr)
  | 0, _ => .error .fuel
  | fuel + 1, le =>
      if s.hashList.next le = list then pure none
      else match s.hashList.next le with
        | .hashList _ => .error .pointer
        | .hashLink p => do
            let p ← s.deref (some p)
            if (s.procs p).pid = pid then pure (some p) else findLoop s list pid fuel (.hashLink p)

def findProc (fuel : Nat) (s : Machine) (pid : Int) : Kernel (Option Ptr) :=
  if 0 < pid ∧ pid < MAX_PID then
    findLoop s (.hashList (pidHashfn pid)) pid fuel (.hashList (pidHashfn pid))
  else pure none

/-! ## The scheduler -/

def listNode : GetPid.Node ≃ Schedule.ProcList.Node where
  toFun | .procList => .procList | .listLink p => .listLink p
  invFun | .procList => .procList | .listLink p => .listLink p
  left_inv n := by cases n <;> rfl
  right_inv n := by cases n <;> rfl

/-- What `schedule` reads and writes; it counts `runs` and clears `need_resched`, which nothing
    here looks at. -/
def Machine.scheduler (s : Machine) : Schedule.ProcList.Machine :=
  ⟨fun p => ⟨(s.procs p).state, (s.procs p).waitState, false, 0⟩, s.procList.map listNode, s.nrProcess, s.current⟩

def schedule (fuel : Nat) (s : Machine) : Kernel Machine := do
  let t ← lift (Schedule.ProcList.schedule fuel s.scheduler)
  pure { s with current := t.current }

def wakeupProc (s : Machine) (p : Ptr) : Kernel Machine := do
  let p ← s.deref (some p)
  ensure ((s.procs p).state ≠ .zombie) .assertion
  if (s.procs p).state ≠ .runnable then
    pure (s.setProc p { s.procs p with state := .runnable, waitState := 0 })
  else pure s

/-! ## Processes begin -/

/-- What `alloc_proc` sets in a structure from `kmalloc`. -/
def allocProc (s : Machine) (p : Ptr) : Machine :=
  { s with
    live := insert p s.live
    procs := Function.update s.procs p ⟨.uninit, -1, 0, 0, (s.procs p).exitCode, none⟩
    kin := ⟨Function.update s.kin.parent p none, Function.update s.kin.child p none,
      Function.update s.kin.older p none, Function.update s.kin.younger p none⟩ }

def kfree (s : Machine) (p : Ptr) : Kernel Machine := do
  let p ← s.deref (some p)
  pure { s with live := s.live.erase p }

/-- What the allocations of `do_fork` give: the structure, the stack, and the memory. -/
structure Grants where
  proc : Option Ptr
  kstack : Bool
  mm : Bool

def doFork (fuel : Nat) (given : Grants) (s : Machine) : Kernel (Int × Machine) := do
  if MAX_PROCESS ≤ s.nrProcess then return (-E_NO_FREE_PROC, s)
  match given.proc with
  | none => pure (-E_NO_MEM, s)
  | some p => do
      let s := (allocProc s p).setParent p (some s.current)
      let current ← s.deref (some s.current)
      ensure ((s.procs current).waitState = 0) .assertion
      if given.kstack && given.mm then
        let (pid, s) ← getPid fuel s
        let s := s.setProc p { s.procs p with pid := pid }
        let s ← hashProc s p
        let s ← setLinks s p
        let s ← wakeupProc s p
        pure ((s.procs p).pid, s)
      else do
        -- `put_kstack` where there is a stack, and `kfree`
        let s ← kfree s p
        pure (-E_NO_MEM, s)

/-! ## Processes end -/

/-- The loop of `do_exit`: the children go to `initproc`. -/
def adoptLoop : Nat → Machine → Kernel Machine
  | 0, _ => .error .fuel
  | fuel + 1, s => do
      let current ← s.deref (some s.current)
      match s.kin.child current with
      | none => pure s
      | some p => do
          let p ← s.deref (some p)
          let s := s.setCptr current (s.kin.older p)
          let s := s.setYptr p none
          let initproc ← s.deref (some s.initproc)
          let s := s.setOptr p (s.kin.child initproc)
          let s ← match s.kin.older p with
            | some q => do
                let q ← s.deref (some q)
                pure (s.setYptr q (some p))
            | none => pure s
          let s := s.setParent p (some initproc)
          let s := s.setCptr initproc (some p)
          let s ← if (s.procs p).state = .zombie ∧ (s.procs initproc).waitState = WT_CHILD then
              wakeupProc s initproc
            else pure s
          adoptLoop fuel s

def doExit (fuel : Nat) (errorCode : Int) (s : Machine) : Kernel Machine := do
  ensure (s.current ≠ idleproc) .idleExit
  ensure (s.current ≠ s.initproc) .initExit
  let current ← s.deref (some s.current)
  let s := s.setProc current { s.procs current with state := .zombie, exitCode := errorCode, waits := none }
  let parent ← s.deref (s.kin.parent current)
  let s ← if (s.procs parent).waitState = WT_CHILD then wakeupProc s parent else pure s
  let s ← adoptLoop fuel s
  schedule fuel s

/-! ## Waiting and killing -/

/-- The loop of `do_wait` over the children. -/
def childLoop (s : Machine) : Nat → Option Ptr → Bool → Kernel (Option Ptr × Bool)
  | 0, _, _ => .error .fuel
  | _ + 1, none, haskid => pure (none, haskid)
  | fuel + 1, some p, _ => do
      let p ← s.deref (some p)
      if (s.procs p).state = .zombie then pure (some p, true)
      else childLoop s fuel (s.kin.older p) true

/-- The child to be reaped, if there is one, and `haskid`. -/
def findKid (fuel : Nat) (s : Machine) (pid : Int) : Kernel (Option Ptr × Bool) := do
  if pid ≠ 0 then
    match ← findProc fuel s pid with
    | none => pure (none, false)
    | some p =>
        if s.kin.parent p = some s.current then
          if (s.procs p).state = .zombie then pure (some p, true) else pure (none, true)
        else pure (none, false)
  else do
    let current ← s.deref (some s.current)
    childLoop s fuel (s.kin.child current) false

/-- What follows the label `found`: the exit code and the state. -/
def reap (s : Machine) (p : Ptr) : Kernel (Int × Machine) := do
  ensure (p ≠ idleproc ∧ p ≠ s.initproc) .waitInit
  let p ← s.deref (some p)
  let code := (s.procs p).exitCode
  let s ← unhashProc s p
  let s ← removeLinks s p
  -- `put_kstack` gives the stack back before `kfree`
  let s ← kfree s p
  pure (code, s)

/-- What a call returns to its process, if it does: the value, and what is stored by `do_wait`. -/
abbrev Answer := Option (Int × Option Int)

/-- A round of `do_wait` from the label `repeat` on. -/
def waitRound (fuel : Nat) (pid : Int) (s : Machine) : Kernel (Answer × Machine) := do
  let current ← s.deref (some s.current)
  let (found, haskid) ← findKid fuel s pid
  match found with
  | some p => do
      let (code, s) ← reap s p
      pure (some (0, some code), s.setProc current { s.procs current with waits := none })
  | none =>
      if haskid then do
        let s := s.setProc current
          { s.procs current with state := .sleeping, waitState := WT_CHILD, waits := some pid }
        let s ← schedule fuel s
        pure (none, s)
      else pure (some (-E_BAD_PROC, none), s.setProc current { s.procs current with waits := none })

/-- `valid` says that the address for the exit code passes `user_mem_check`. -/
def doWait (fuel : Nat) (pid : Int) (valid : Bool) (s : Machine) : Kernel (Answer × Machine) :=
  if valid then waitRound fuel pid s else pure (some (-E_INVAL, none), s)

/-- Where `do_wait` goes on when the process runs again. -/
def resume (fuel : Nat) (pid : Int) (s : Machine) : Kernel (Answer × Machine) := do
  let current ← s.deref (some s.current)
  if (s.procs current).flags &&& PF_EXITING ≠ 0 then do
    let s ← doExit fuel (-E_KILLED) s
    pure (none, s)
  else waitRound fuel pid s

def doKill (fuel : Nat) (pid : Int) (s : Machine) : Kernel (Int × Machine) := do
  match ← findProc fuel s pid with
  | some p =>
      if (s.procs p).flags &&& PF_EXITING = 0 then do
        let s := s.setProc p { s.procs p with flags := (s.procs p).flags ||| PF_EXITING }
        if (s.procs p).waitState &&& WT_INTERRUPTED ≠ 0 then do
          let s ← wakeupProc s p
          pure (0, s)
        else pure (0, s)
      else pure (-E_KILLED, s)
  | none => pure (-E_INVAL, s)

/-! ## The system -/

inductive Call where
  | fork (given : Grants)
  | exit (errorCode : Int)
  | wait (pid : Int) (valid : Bool)
  | kill (pid : Int)
  | yield
  | resume

def exec (fuel : Nat) (s : Machine) : Call → Kernel (Answer × Machine)
  | .fork given => do
      let (ret, s) ← doFork fuel given s
      pure (some (ret, none), s)
  | .exit errorCode => do
      let s ← doExit fuel errorCode s
      pure (none, s)
  | .wait pid valid => doWait fuel pid valid s
  | .kill pid => do
      let (ret, s) ← doKill fuel pid s
      pure (some (ret, none), s)
  | .yield => do
      let s ← schedule fuel s
      pure (none, s)
  | .resume => match (s.procs s.current).waits with
      | some pid => resume fuel pid s
      | none => .error .proc

/-- `kmalloc` gives memory that is not in use. The idle process only calls `schedule`, and a
    process in `do_wait` goes on there. -/
def Legal (s : Machine) : Call → Prop
  | .fork given => s.current ≠ idleproc ∧ (s.procs s.current).waits = none ∧ ∀ p, given.proc = some p → p ∉ s.live
  | .exit _ | .wait _ _ | .kill _ => s.current ≠ idleproc ∧ (s.procs s.current).waits = none
  | .yield => (s.procs s.current).waits = none
  | .resume => s.current ≠ idleproc ∧ (s.procs s.current).waits ≠ none

def Step (fuel : Nat) (s t : Machine) : Prop := ∃ c answer, Legal s c ∧ exec fuel s c = .ok (answer, t)

/-- `proc_init`, with the first two structures from `kmalloc`. -/
def procInit (fuel : Nat) (p : Ptr) (s : Machine) : Kernel Machine := do
  let s := { s with procList := listInit s.procList .procList }
  let s := { s with hashList := (List.range HASH_LIST_SIZE).foldl (fun l i => listInit l (.hashList i)) s.hashList }
  let s := allocProc s idleproc
  let s := s.setProc idleproc { s.procs idleproc with pid := 0, state := .runnable }
  let s := { s with nrProcess := s.nrProcess + 1, current := idleproc }
  -- `kernel_thread(init_main, NULL, 0)`
  let (pid, s) ← doFork fuel ⟨some p, true, true⟩ s
  ensure (0 < pid) .proc
  match ← findProc fuel s pid with
  | none => .error .pointer
  | some init => do
      let s := { s with initproc := init }
      ensure ((s.procs idleproc).pid = 0) .assertion
      ensure ((s.procs init).pid = 1) .assertion
      pure s

/-- The static variables before `proc_init`. -/
def Initial (fuel : Nat) (t : Machine) : Prop :=
  ∃ s p, s.live = ∅ ∧ s.nrProcess = 0 ∧ s.lastPid = MAX_PID ∧ s.nextSafe = MAX_PID ∧ p ≠ idleproc ∧
    procInit fuel p s = .ok t

end Ucore.Process.Family
