import Ucore.Lib.Semaphore

/-! # The philosophers of `check_sync.c`, with semaphores

`N` philosophers around a table, each between two others. A philosopher stands at one
place of `phi_take_forks_sema` or `phi_put_forks_sema`, and a step takes it to the
next. Whoever calls `down` and finds no unit goes on when it is granted one.
-/

namespace Ucore.Sync.CheckSync

open Lib.Semaphore

inductive PhState where
  | thinking
  | hungry
  | eating
  deriving DecidableEq, Repr

/-- What a philosopher does next. -/
inductive Pc where
  /-- `down(&mutex)` of `phi_take_forks_sema` -/
  | takeDown
  | takeWait
  /-- `state_sema[i] = HUNGRY` -/
  | takeSet
  /-- the test of `phi_test_sema(i)`, and `state_sema[i] = EATING` -/
  | takeTest
  /-- `up(&s[i])` in `phi_test_sema(i)` -/
  | takeSignal
  /-- `up(&mutex)` -/
  | takeUp
  /-- `down(&s[i])` -/
  | forkDown
  | forkWait
  /-- `down(&mutex)` of `phi_put_forks_sema` -/
  | putDown
  | putWait
  /-- `state_sema[i] = THINKING` -/
  | putSet
  /-- `phi_test_sema(LEFT)`, in two steps as above -/
  | putTestLeft
  | putSignalLeft
  /-- `phi_test_sema(RIGHT)` -/
  | putTestRight
  | putSignalRight
  /-- `up(&mutex)` -/
  | putUp
  deriving DecidableEq, Repr

structure Table (N : Nat) where
  stateSema : Fin N → PhState
  mutex : Sem (Fin N)
  s : Fin N → Sem (Fin N)
  pc : Fin N → Pc

variable {N : Nat}

/-- `LEFT`, `(i-1+N)%N`. -/
def left (i : Fin N) : Fin N := ⟨(i.val + N - 1) % N, Nat.mod_lt _ i.pos⟩

/-- `RIGHT`, `(i+1)%N`. -/
def right (i : Fin N) : Fin N := ⟨(i.val + 1) % N, Nat.mod_lt _ i.pos⟩

/-- The table before anybody ate: everybody is thinking and about to take the forks. -/
def start (N : Nat) : Table N where
  stateSema _ := .thinking
  mutex := .init 1
  s _ := .init 0
  pc _ := .takeDown

/-- The condition of `phi_test_sema(j)`. -/
def CanEat (state : Fin N → PhState) (j : Fin N) : Prop :=
  state j = .hungry ∧ state (left j) ≠ .eating ∧ state (right j) ≠ .eating

instance (state : Fin N → PhState) (j : Fin N) : Decidable (CanEat state j) :=
  inferInstanceAs (Decidable (_ ∧ _ ∧ _))

def Table.go (t : Table N) (i : Fin N) (pc : Pc) : Table N :=
  { t with pc := Function.update t.pc i pc }

def downMutex (t : Table N) (i : Fin N) (taken waits : Pc) : Table N :=
  { t with mutex := (t.mutex.down i).1 }.go i (if (t.mutex.down i).2 then taken else waits)

def resumeMutex (t : Table N) (i : Fin N) (taken : Pc) : Option (Table N) :=
  if i ∈ t.mutex.granted then some ({ t with mutex := t.mutex.resume i }.go i taken) else none

def upMutex (t : Table N) (i : Fin N) (next : Pc) : Table N := { t with mutex := t.mutex.up }.go i next

def setState (t : Table N) (i : Fin N) (state : PhState) (next : Pc) : Table N :=
  { t with stateSema := Function.update t.stateSema i state }.go i next

/-- The test of `phi_test_sema(j)` by `i`. -/
def phiTest (t : Table N) (i j : Fin N) (signal next : Pc) : Table N :=
  if CanEat t.stateSema j then
    { t with stateSema := Function.update t.stateSema j .eating }.go i signal
  else t.go i next

/-- `up(&s[j])` by `i`. -/
def phiSignal (t : Table N) (i j : Fin N) (next : Pc) : Table N :=
  { t with s := Function.update t.s j (t.s j).up }.go i next

/-- The next step of philosopher `i`, if it is not blocked. -/
def step (t : Table N) (i : Fin N) : Option (Table N) :=
  match t.pc i with
  | .takeDown => some (downMutex t i .takeSet .takeWait)
  | .takeWait => resumeMutex t i .takeSet
  | .takeSet => some (setState t i .hungry .takeTest)
  | .takeTest => some (phiTest t i i .takeSignal .takeUp)
  | .takeSignal => some (phiSignal t i i .takeUp)
  | .takeUp => some (upMutex t i .forkDown)
  | .forkDown => some ({ t with s := Function.update t.s i ((t.s i).down i).1 }.go i
      (if ((t.s i).down i).2 then .putDown else .forkWait))
  | .forkWait =>
      if i ∈ (t.s i).granted then
        some ({ t with s := Function.update t.s i ((t.s i).resume i) }.go i .putDown)
      else none
  | .putDown => some (downMutex t i .putSet .putWait)
  | .putWait => resumeMutex t i .putSet
  | .putSet => some (setState t i .thinking .putTestLeft)
  | .putTestLeft => some (phiTest t i (left i) .putSignalLeft .putTestRight)
  | .putSignalLeft => some (phiSignal t i (left i) .putTestRight)
  | .putTestRight => some (phiTest t i (right i) .putSignalRight .putUp)
  | .putSignalRight => some (phiSignal t i (right i) .putUp)
  | .putUp => some (upMutex t i .takeDown)

end Ucore.Sync.CheckSync
