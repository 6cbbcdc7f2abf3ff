import Ucore.Lib.Deltas
import Ucore.Libs.List
import Ucore.Schedule.Sched

/-! # The timer list of `sched.c`

Timers on the list hold the ticks between the one before them and themselves. A
call that wakes processes also returns them, each with its timer, in the order of
the calls of `wakeup_proc`.
-/

namespace Ucore.Schedule.TimerList

open Lib.Ring Libs.Assert Libs.List Sched

/-- The list entries: the head `timer_list`, and the `timer_link` of a timer. -/
inductive Node where
  | timerList
  | timerLink (timer : Nat)
  deriving DecidableEq, Repr

structure Timers where
  links : Links Node
  expires : Nat → Nat
  proc : Nat → Option Pid
  kernel : Kernel

/-- Addition and subtraction of `unsigned int`. -/
def add32 (a b : Nat) : Nat := (a + b) % 2 ^ 32

def sub32 (a b : Nat) : Nat := (a + (2 ^ 32 - b)) % 2 ^ 32

theorem add32_eq {a b : Nat} (small : a + b < 2 ^ 32) : add32 a b = a + b := Nat.mod_eq_of_lt small

theorem sub32_eq {a b : Nat} (small : a < 2 ^ 32) (fits : b ≤ a) : sub32 a b = a - b := by
  unfold sub32
  omega

def Timers.setExpires (s : Timers) (timer n : Nat) : Timers :=
  { s with expires := Function.update s.expires timer n }

def timerInit (s : Timers) (timer : Nat) (proc : Option Pid) (expires : BitVec 32) : Timers :=
  { s.setExpires timer expires.toNat with
    proc := Function.update s.proc timer proc
    links := listInit s.links (.timerLink timer) }

/-- The search of `add_timer`, which takes what it passes off the new timer. -/
def addLoop (timer : Nat) : Nat → Timers → Node → Result (Timers × Node)
  | 0, _, _ => .error .fuel
  | _ + 1, s, .timerList => .ok (s, .timerList)
  | fuel + 1, s, .timerLink next =>
      if s.expires timer < s.expires next then
        .ok (s.setExpires next (sub32 (s.expires next) (s.expires timer)), .timerLink next)
      else
        addLoop timer fuel (s.setExpires timer (sub32 (s.expires timer) (s.expires next)))
          (s.links.next (.timerLink next))

def addTimer (fuel : Nat) (s : Timers) (timer : Nat) : Result Timers := do
  assert (0 < s.expires timer ∧ (s.proc timer).isSome = true)
  assert (listEmpty s.links (.timerLink timer) = true)
  let (s, le) ← addLoop timer fuel s (s.links.next .timerList)
  pure { s with links := listAddBefore s.links le (.timerLink timer) }

def delTimer (s : Timers) (timer : Nat) : Timers :=
  if listEmpty s.links (.timerLink timer) then s
  else
    let s :=
      if s.expires timer ≠ 0 then
        match s.links.next (.timerLink timer) with
        | .timerList => s
        | .timerLink next => s.setExpires next (add32 (s.expires next) (s.expires timer))
      else s
    { s with links := listDelInit s.links (.timerLink timer) }

/-- The loop of `run_timer_list` over the timers that have no ticks left. A timer
    without a process faults at `proc->wait_state`. -/
def runLoop : Nat → Timers → Nat → Result (Timers × List (Nat × Pid))
  | 0, _, _ => .error .fuel
  | fuel + 1, s, timer =>
      if s.expires timer ≠ 0 then .ok (s, [])
      else
        let le := s.links.next (.timerLink timer)
        match s.proc timer with
        | none => .error .panic
        | some p => do
            if (s.kernel.procs p).waitState ≠ 0 then
              assert ((s.kernel.procs p).waitState &&& WT_INTERRUPTED ≠ 0)
            let kernel ← wakeupProc s.kernel p
            let s := delTimer { s with kernel := kernel } timer
            match le with
            | .timerList => pure (s, [(timer, p)])
            | .timerLink next => do
                let (s, fired) ← runLoop fuel s next
                pure (s, (timer, p) :: fired)

def runTimerList (fuel : Nat) (s : Timers) : Result (Timers × List (Nat × Pid)) := do
  let (s, fired) ← match s.links.next .timerList with
    | .timerList => pure (s, [])
    | .timerLink timer => do
        assert (s.expires timer ≠ 0)
        runLoop fuel (s.setExpires timer (sub32 (s.expires timer) 1)) timer
  pure ({ s with kernel := schedClassProcTick s.kernel s.kernel.current }, fired)

end Ucore.Schedule.TimerList
