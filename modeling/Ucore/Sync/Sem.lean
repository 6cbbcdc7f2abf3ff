import Ucore.Libs.List
import Ucore.Schedule.Sched

/-! # `sem.c` and `wait.c`

One kernel semaphore with its queue of waiting processes. Each process has at most
one `wait_t` for it, on its own stack. The functions that switch interrupts off are
one step each; `down` that has to wait is cut at its call of `schedule`.
-/

namespace Ucore.Sync.Sem

open Lib.Ring Libs.Assert Libs.List Schedule.Sched

/-- The list entries: the queue's `wait_head`, and the `wait_link` on a stack. -/
inductive Node where
  | waitHead
  | waitLink (p : Pid)
  deriving DecidableEq, Repr

/-- A `wait_t`; `queued` is the pointer to the queue of this semaphore. -/
structure Wait where
  proc : Option Pid
  wakeupFlags : BitVec 32
  queued : Bool
  deriving DecidableEq, Repr

structure Semaphore where
  kernel : Kernel
  value : Int
  links : Links Node
  waits : Pid → Wait

/-- What a C `int` holds of a number. -/
def int32 (n : Int) : Int := (n + 2 ^ 31) % 2 ^ 32 - 2 ^ 31

theorem int32_eq {n : Int} (low : -2 ^ 31 ≤ n) (high : n < 2 ^ 31) : int32 n = n := by
  unfold int32
  omega

def Semaphore.setWait (s : Semaphore) (w : Pid) (wait : Wait) : Semaphore :=
  { s with waits := Function.update s.waits w wait }

/-! ## `wait.c` -/

def waitInit (s : Semaphore) (w : Pid) (proc : Pid) : Semaphore :=
  { s.setWait w { s.waits w with proc := some proc, wakeupFlags := WT_INTERRUPTED } with
    links := listInit s.links (.waitLink w) }

def waitQueueAdd (s : Semaphore) (w : Pid) : Result Semaphore := do
  assert (listEmpty s.links (.waitLink w) = true ∧ (s.waits w).proc.isSome = true)
  pure { s.setWait w { s.waits w with queued := true } with
    links := listAddBefore s.links .waitHead (.waitLink w) }

def waitQueueDel (s : Semaphore) (w : Pid) : Result Semaphore := do
  assert (listEmpty s.links (.waitLink w) = false ∧ (s.waits w).queued = true)
  pure { s with links := listDelInit s.links (.waitLink w) }

def waitQueueFirst (s : Semaphore) : Option Pid :=
  match s.links.next .waitHead with
  | .waitHead => none
  | .waitLink w => some w

def waitInQueue (s : Semaphore) (w : Pid) : Bool := !listEmpty s.links (.waitLink w)

/-- A wait without a process faults at `proc->state`. -/
def wakeupWait (s : Semaphore) (w : Pid) (wakeupFlags : BitVec 32) (del : Bool) : Result Semaphore := do
  let s ← if del then waitQueueDel s w else pure s
  let s := s.setWait w { s.waits w with wakeupFlags := wakeupFlags }
  match (s.waits w).proc with
  | none => .error .panic
  | some p => do
      let kernel ← wakeupProc s.kernel p
      pure { s with kernel := kernel }

/-- `wait_current_set` for the `wait_t` on the stack of the running process. -/
def waitCurrentSet (s : Semaphore) (waitState : BitVec 32) : Result Semaphore := do
  let current := s.kernel.current
  let s := waitInit s current current
  let s := { s with
    kernel := s.kernel.setProc current
      { s.kernel.procs current with state := .sleeping, waitState := waitState } }
  waitQueueAdd s current

def waitCurrentDel (s : Semaphore) : Result Semaphore :=
  if waitInQueue s s.kernel.current then waitQueueDel s s.kernel.current else pure s

/-! ## `sem.c` -/

/-- `__up`. -/
def upWith (s : Semaphore) (waitState : BitVec 32) : Result Semaphore :=
  match waitQueueFirst s with
  | none => pure { s with value := int32 (s.value + 1) }
  | some w =>
      match (s.waits w).proc with
      | none => .error .panic
      | some p => do
          assert ((s.kernel.procs p).waitState = waitState)
          wakeupWait s w waitState true

/-- `__down` up to its call of `schedule`; whether it took a unit and returned 0. -/
def downBegin (s : Semaphore) (waitState : BitVec 32) : Result (Semaphore × Bool) :=
  if 0 < s.value then pure ({ s with value := int32 (s.value - 1) }, true)
  else do
    let s ← waitCurrentSet s waitState
    pure (s, false)

/-- `__down` from the return of `schedule` on, with what it returns. -/
def downEnd (s : Semaphore) (waitState : BitVec 32) : Result (Semaphore × BitVec 32) := do
  let s ← waitCurrentDel s
  let flags := (s.waits s.kernel.current).wakeupFlags
  pure (s, if flags ≠ waitState then flags else 0)

def up (s : Semaphore) : Result Semaphore := upWith s WT_KSEM

def tryDown (s : Semaphore) : Semaphore × Bool :=
  if 0 < s.value then ({ s with value := int32 (s.value - 1) }, true) else (s, false)

end Ucore.Sync.Sem
