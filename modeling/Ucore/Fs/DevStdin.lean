import Ucore.Lib.RingBuffer
import Ucore.Lib.Run
import Ucore.Schedule.Sched

/-! # Standard input

`dev_stdin.c`: the interrupt handler puts what is typed into a ring buffer, and readers
take it out, or sleep until something is typed. Interrupts are off inside
`dev_stdin_write`, and inside `dev_stdin_read` up to its call of `schedule` and again
from there on.
-/

namespace Ucore.Fs.DevStdin

open Lib.RingBuffer Lib.Run Libs.Assert Schedule.Sched

def STDIN_BUFSIZE : Nat := 4096

def WT_KBD : BitVec 32 := 0x00000004 ||| WT_INTERRUPTED

/-- The buffer with its positions, and the queue of the processes that wait for input,
    each with a `wait_t` on its own stack. -/
structure Stdin where
  kernel : Kernel
  buffer : Nat → UInt8
  rpos : Nat
  wpos : Nat
  waitQueue : List Pid
  wakeupFlags : Pid → BitVec 32

/-! ## `wait.c` -/

def wakeupWait (s : Stdin) (w : Pid) (flags : BitVec 32) : Result Stdin := do
  assert (w ∈ s.waitQueue)
  let kernel ← wakeupProc s.kernel w
  pure { s with
    kernel := kernel
    waitQueue := s.waitQueue.erase w
    wakeupFlags := Function.update s.wakeupFlags w flags }

def wakeupQueue (s : Stdin) (flags : BitVec 32) : Result Stdin :=
  s.waitQueue.foldlM (fun s w => wakeupWait s w flags) s

def waitCurrentSet (s : Stdin) (waitState : BitVec 32) : Stdin :=
  let current := s.kernel.current
  { s with
    kernel := s.kernel.setProc current
      { s.kernel.procs current with state := .sleeping, waitState := waitState }
    waitQueue := s.waitQueue ++ [current]
    wakeupFlags := Function.update s.wakeupFlags current WT_INTERRUPTED }

def waitCurrentDel (s : Stdin) : Stdin := { s with waitQueue := s.waitQueue.erase s.kernel.current }

/-! ## `dev_stdin.c` -/

def devStdinWrite (s : Stdin) (c : UInt8) : Result Stdin :=
  if c ≠ 0 then
    let s := { s with buffer := Function.update s.buffer (s.wpos % STDIN_BUFSIZE) c }
    let s := if s.wpos < s.rpos + STDIN_BUFSIZE then { s with wpos := s.wpos + 1 } else s
    if s.waitQueue ≠ [] then wakeupQueue s WT_KBD else pure s
  else pure s

/-- The loop of `dev_stdin_read`, up to `left` bytes or until there are none. -/
def copyUnread : Nat → Stdin → Stdin × List UInt8
  | 0, s => (s, [])
  | left + 1, s =>
      if s.rpos < s.wpos then
        let (t, bytes) := copyUnread left { s with rpos := s.rpos + 1 }
        (t, s.buffer (s.rpos % STDIN_BUFSIZE) :: bytes)
      else (s, [])

/-- What a reader has got when it returns, or calls `schedule` with some bytes left to read. -/
structure Got where
  bytes : List UInt8
  left : Nat
  returned : Bool

/-- `dev_stdin_read` up to its call of `schedule`. -/
def devStdinRead (s : Stdin) (left : Nat) : Stdin × Got :=
  let (s, bytes) := copyUnread left s
  if bytes.length < left then (waitCurrentSet s WT_KBD, ⟨bytes, left - bytes.length, false⟩)
  else (s, ⟨bytes, 0, true⟩)

/-- `dev_stdin_read` from the return of `schedule` on. -/
def devStdinResume (s : Stdin) (left : Nat) : Stdin × Got :=
  let s := waitCurrentDel s
  if s.wakeupFlags s.kernel.current = WT_KBD then devStdinRead s left else (s, ⟨[], left, true⟩)

/-! ## The system -/

/-- Where a process is in `dev_stdin_read`: elsewhere, before its call of `schedule`, or in it. -/
inductive Place where
  | elsewhere
  | queued (left : Nat)
  | switched (left : Nat)
  deriving DecidableEq, Repr

/-- The bytes accepted and the bytes delivered to readers so far, each in order. -/
structure Sys where
  stdin : Stdin
  place : Pid → Place
  accepted : List UInt8
  delivered : List UInt8

inductive Call where
  | write (c : UInt8)
  | read (len : Nat)
  | switch
  | resume
  | preempt
  | others (kernel : Kernel)

abbrev Sys.current (s : Sys) : Pid := s.stdin.kernel.current

def Sys.setPlace (s : Sys) (place : Place) : Sys :=
  { s with place := Function.update s.place s.current place }

def Sys.schedule (s : Sys) : Result Sys := do
  let kernel ← Schedule.Sched.schedule s.stdin.kernel
  pure { s with stdin := { s.stdin with kernel := kernel } }

/-- A byte is accepted if fewer than 4096 bytes are unread. -/
def Sys.Accepts (s : Sys) : Prop := s.accepted.length < s.delivered.length + STDIN_BUFSIZE

instance (s : Sys) : Decidable s.Accepts := inferInstanceAs (Decidable (_ < _))

/-- The running process reads as far as it gets. -/
def Sys.reads (s : Sys) (read : Stdin × Got) : Sys :=
  { s.setPlace (if read.2.returned then .elsewhere else .queued read.2.left) with
    stdin := read.1
    delivered := s.delivered ++ read.2.bytes }

def exec (s : Sys) : Call → Result Sys
  | .write c => do
      let stdin ← devStdinWrite s.stdin c
      pure { s with
        stdin := stdin
        accepted := if c ≠ 0 ∧ s.Accepts then s.accepted ++ [c] else s.accepted }
  | .read len => pure (s.reads (devStdinRead s.stdin len))
  | .switch =>
      match s.place s.current with
      | .queued left => (s.setPlace (.switched left)).schedule
      | _ => pure s
  | .resume =>
      match s.place s.current with
      | .switched left => pure (s.reads (devStdinResume s.stdin left))
      | _ => pure s
  | .preempt => s.schedule
  | .others kernel => pure { s with stdin := { s.stdin with kernel := kernel } }

/-- The running process goes on where it is, and the idle process reads nothing. What the
    rest of the kernel does to a process that waits is to wake it up. -/
def Legal (s : Sys) : Call → Prop
  | .write _ => True
  | .read _ => s.place s.current = .elsewhere ∧ s.current ≠ idleproc
  | .switch => ∃ left, s.place s.current = .queued left
  | .resume => ∃ left, s.place s.current = .switched left
  | .preempt => True
  | .others kernel => Queued kernel ∧ kernel.current = s.current ∧
      ∀ p, s.place p ≠ .elsewhere → (kernel.procs p).state = (s.stdin.kernel.procs p).state ∨
        (kernel.procs p).state = .runnable

/-- A byte that is typed when the buffer is full happens to be the oldest one in it. -/
def Harmless (s : Sys) : Call → Prop
  | .write c => c ≠ 0 → ¬ s.Accepts → s.accepted[s.delivered.length]? = some c
  | _ => True

def Step (allowed : Sys → Call → Prop) (s t : Sys) : Prop :=
  ∃ c, Legal s c ∧ allowed s c ∧ exec s c = .ok t

/-- After `stdin_device_init`. -/
structure Initial (s : Sys) : Prop where
  positions : s.stdin.rpos = 0 ∧ s.stdin.wpos = 0
  waitQueue : s.stdin.waitQueue = []
  kernel : Queued s.stdin.kernel
  place : ∀ p, s.place p = .elsewhere
  logs : s.accepted = [] ∧ s.delivered = []

/-! ## What the functions do -/

variable {s : Stdin} {sent : List UInt8}

/-- The loop takes the oldest bytes, as many as are wanted and there. -/
theorem copyUnread_spec (left : Nat) (s : Stdin) (holds : Holds STDIN_BUFSIZE s.buffer sent s.rpos)
    (wpos : s.wpos = sent.length) :
    ∃ bytes, copyUnread left s = ({ s with rpos := s.rpos + bytes.length }, bytes) ∧
      bytes.length = min left (s.wpos - s.rpos) ∧ sent.take (s.rpos + bytes.length) = sent.take s.rpos ++ bytes ∧
      Holds STDIN_BUFSIZE s.buffer sent (s.rpos + bytes.length) := by
  induction left generalizing s with
  | zero => exact ⟨[], rfl, by simp, by simp, holds⟩
  | succ left ih =>
      rw [copyUnread]
      by_cases unread : s.rpos < s.wpos
      · obtain ⟨first, rest⟩ := holds.pop (wpos ▸ unread)
        obtain ⟨bytes, run, length, taken, holds⟩ := ih { s with rpos := s.rpos + 1 } rest wpos
        have next : s.rpos + 1 + bytes.length = s.rpos + (s.buffer (s.rpos % STDIN_BUFSIZE) :: bytes).length := by
          rw [List.length_cons]
          omega
        rw [if_pos unread, run]
        refine ⟨_ :: bytes, by rw [next], ?_, ?_, next ▸ holds⟩
        · rw [List.length_cons, length]
          change min left (s.wpos - (s.rpos + 1)) + 1 = _
          omega
        · rw [← next, taken, first, List.append_assoc]
          rfl
      · rw [if_neg unread]
        refine ⟨[], rfl, ?_, by simp, holds⟩
        rw [List.length_nil]
        omega

/-- The kernel `t` differs from `s` in that some processes were woken. -/
structure Wakes (s t : Kernel) : Prop where
  queued : Queued t
  current : t.current = s.current
  state : ∀ p, (t.procs p).state = (s.procs p).state ∨ (t.procs p).state = .runnable

theorem wakeupQueue_spec (flags : BitVec 32) (s : Stdin) (queued : Queued s.kernel)
    (alive : ∀ p ∈ s.waitQueue, (s.kernel.procs p).state ≠ .zombie) :
    ∃ kernel, wakeupQueue s flags = .ok { s with
        kernel := kernel
        waitQueue := []
        wakeupFlags := fun p => if p ∈ s.waitQueue then flags else s.wakeupFlags p } ∧
      Wakes s.kernel kernel ∧ ∀ p ∈ s.waitQueue, (kernel.procs p).state = .runnable := by
  rw [wakeupQueue]
  induction queue : s.waitQueue generalizing s with
  | nil =>
      refine ⟨s.kernel, ?_, ⟨queued, rfl, fun _ => Or.inl rfl⟩, by simp⟩
      obtain ⟨kernel, buffer, rpos, wpos, waitQueue, wakeupFlags⟩ := s
      obtain rfl : waitQueue = [] := queue
      simp [pure, Except.pure]
  | cons w rest ih =>
      have first : w ∈ s.waitQueue := queue ▸ List.mem_cons_self
      obtain ⟨k, run, woken⟩ := wakeupProc_woken queued (alive w first)
      have states : ∀ p, (k.procs p).state = (s.kernel.procs p).state ∨ (k.procs p).state = .runnable := by
        intro p
        by_cases same : p = w
        · exact Or.inr (same ▸ woken.state)
        · exact Or.inl (congrArg Proc.state (woken.others p same))
      let t : Stdin := { s with kernel := k, waitQueue := rest, wakeupFlags := Function.update s.wakeupFlags w flags }
      have step : wakeupWait s w flags = .ok t := by
        rw [wakeupWait, assert_bind first, run, queue, List.erase_cons_head]
        rfl
      have still : ∀ p ∈ rest, (k.procs p).state ≠ .zombie := by
        intro p inside
        rcases states p with same | ready
        · rw [same]
          exact alive p (queue ▸ List.mem_cons_of_mem w inside)
        · rw [ready]
          decide
      obtain ⟨kernel, run, wakes, each⟩ := ih t woken.queued still rfl
      have after : ∀ p, (kernel.procs p).state = (k.procs p).state ∨ (kernel.procs p).state = .runnable :=
        wakes.state
      rw [List.foldlM_cons, step]
      refine ⟨kernel, run.trans ?_, ⟨wakes.queued, wakes.current.trans woken.current, fun p => ?_⟩, fun p inside => ?_⟩
      · have flagged : (fun p => if p ∈ rest then flags else t.wakeupFlags p) =
            fun p => if p ∈ w :: rest then flags else s.wakeupFlags p := by
          funext p
          by_cases same : p = w <;> simp [t, same]
        rw [flagged]
      · rcases after p with same | ready
        · rw [same]
          exact states p
        · exact Or.inr ready
      · rcases List.mem_cons.mp inside with same | later
        · exact (after p).elim (fun eq => eq.trans (same ▸ woken.state)) id
        · exact each p later

/-- A byte is stored behind the newest one, and stays if there is room. Whoever waits is woken. -/
theorem devStdinWrite_spec {c : UInt8} (typed : c ≠ 0) (queued : Queued s.kernel)
    (alive : ∀ p ∈ s.waitQueue, (s.kernel.procs p).state ≠ .zombie) :
    ∃ kernel, devStdinWrite s c = .ok { s with
        kernel := kernel
        buffer := Function.update s.buffer (s.wpos % STDIN_BUFSIZE) c
        wpos := if s.wpos < s.rpos + STDIN_BUFSIZE then s.wpos + 1 else s.wpos
        waitQueue := []
        wakeupFlags := fun p => if p ∈ s.waitQueue then WT_KBD else s.wakeupFlags p } ∧
      Wakes s.kernel kernel ∧ (∀ p ∈ s.waitQueue, (kernel.procs p).state = .runnable) ∧
      (s.waitQueue = [] → kernel = s.kernel) := by
  let stored : Stdin := { s with
    buffer := Function.update s.buffer (s.wpos % STDIN_BUFSIZE) c
    wpos := if s.wpos < s.rpos + STDIN_BUFSIZE then s.wpos + 1 else s.wpos }
  have run : devStdinWrite s c =
      if stored.waitQueue ≠ [] then wakeupQueue stored WT_KBD else pure stored := by
    simp only [devStdinWrite, if_pos typed, stored]
    split <;> rfl
  rw [run]
  by_cases nobody : s.waitQueue = []
  · refine ⟨s.kernel, ?_, ⟨queued, rfl, fun _ => Or.inl rfl⟩, by simp [nobody], fun _ => rfl⟩
    simp [stored, nobody, pure, Except.pure]
  · obtain ⟨kernel, run, wakes, each⟩ := wakeupQueue_spec WT_KBD stored queued alive
    rw [if_pos nobody]
    exact ⟨kernel, run, wakes, each, fun empty => absurd empty nobody⟩

/-! ## The invariant -/

structure Inv (s : Sys) : Prop where
  holds : Holds STDIN_BUFSIZE s.stdin.buffer s.accepted s.delivered.length
  rpos : s.stdin.rpos = s.delivered.length
  wpos : s.stdin.wpos = s.accepted.length
  delivered : s.accepted.take s.delivered.length = s.delivered
  waiting : s.stdin.waitQueue ≠ [] → s.delivered.length = s.accepted.length
  kernel : Queued s.stdin.kernel
  nodup : s.stdin.waitQueue.Nodup
  readers : ∀ p ∈ s.stdin.waitQueue, s.place p ≠ .elsewhere ∧ (s.stdin.kernel.procs p).state ≠ .zombie

theorem initial_inv {s : Sys} (initial : Initial s) : Inv s := by
  obtain ⟨accepted, delivered⟩ := initial.logs
  refine ⟨?_, ?_, ?_, ?_, ?_, initial.kernel, by simp [initial.waitQueue],
    by simp [initial.waitQueue]⟩
  · rw [accepted, delivered]
    exact Holds.empty
  · rw [delivered, initial.positions.1]
    rfl
  · rw [accepted, initial.positions.2]
    rfl
  · rw [accepted, delivered]
    rfl
  · exact fun waiting => absurd initial.waitQueue waiting

namespace Inv

variable {s : Sys} {c : UInt8}

/-- A byte that finds no room changes nothing but the oldest byte. -/
theorem rejected (inv : Inv s) (typed : c ≠ 0) (full : ¬ s.Accepts) :
    exec s (.write c) = .ok { s with stdin := { s.stdin with
      buffer := Function.update s.stdin.buffer (s.accepted.length % STDIN_BUFSIZE) c } } := by
  have length : s.accepted.length = s.delivered.length + STDIN_BUFSIZE :=
    Nat.le_antisymm inv.holds.room (not_lt.mp full)
  have nobody : s.stdin.waitQueue = [] := by
    by_contra waiting
    have := inv.waiting waiting
    rw [STDIN_BUFSIZE] at length
    omega
  obtain ⟨kernel, run, -, -, same⟩ := devStdinWrite_spec typed inv.kernel fun p inside => (inv.readers p inside).2
  obtain rfl := same nobody
  have stays : ¬ s.stdin.wpos < s.stdin.rpos + STDIN_BUFSIZE := by
    rw [inv.wpos, inv.rpos]
    exact full
  rw [exec, run, if_neg stays, inv.wpos, if_neg fun both => full both.2]
  simp [bind, Except.bind, pure, Except.pure, nobody, inv.wpos]

/-- It then changes nothing at all exactly if it is that byte. -/
theorem rejected_iff (inv : Inv s) (typed : c ≠ 0) (full : ¬ s.Accepts) :
    exec s (.write c) = .ok s ↔ Harmless s (.write c) := by
  have length : s.accepted.length = s.delivered.length + STDIN_BUFSIZE :=
    Nat.le_antisymm inv.holds.room (not_lt.mp full)
  have oldest := inv.holds.kept s.delivered.length le_rfl (length ▸ Nat.lt_add_of_pos_right (by decide))
  have same := overwrite_full s.stdin.buffer length c
  rw [inv.rejected typed full, Harmless, oldest, Option.some_inj]
  refine ⟨fun unchanged _ _ => ?_, fun harmless => ?_⟩
  · have buffer := congrArg (fun t => t.toOption.map fun t : Sys => t.stdin.buffer) unchanged
    exact (same.mp (Option.some_inj.mp buffer)).symm
  · rw [same.mpr (harmless typed full).symm]

theorem write (inv : Inv s) (harmless : Harmless s (.write c)) : ∃ t, exec s (.write c) = .ok t ∧ Inv t := by
  by_cases typed : c ≠ 0
  swap
  · refine ⟨s, ?_, inv⟩
    rw [exec, devStdinWrite, if_neg typed, if_neg fun both => typed both.1]
    rfl
  by_cases room : s.Accepts
  swap
  · exact ⟨s, (inv.rejected_iff typed room).mpr harmless, inv⟩
  obtain ⟨kernel, run, wakes, -, -⟩ := devStdinWrite_spec typed inv.kernel fun p inside => (inv.readers p inside).2
  have grows : s.stdin.wpos < s.stdin.rpos + STDIN_BUFSIZE := by
    rw [inv.wpos, inv.rpos]
    exact room
  rw [exec, run, if_pos grows, if_pos ⟨typed, room⟩]
  refine ⟨_, rfl, ?_, inv.rpos, ?_, ?_, fun waiting => absurd rfl waiting, wakes.queued, List.nodup_nil,
    by simp⟩
  · rw [inv.wpos]
    exact inv.holds.push room c
  · simp [inv.wpos]
  · rw [List.take_append_of_le_length inv.holds.begun, inv.delivered]

/-- The running process reads on, and joins the queue if there is too little. -/
theorem devStdinRead (inv : Inv s) (off : s.current ∉ s.stdin.waitQueue) (left : Nat) :
    Inv (s.reads (DevStdin.devStdinRead s.stdin left)) := by
  obtain ⟨bytes, run, length, taken, holds⟩ := copyUnread_spec left s.stdin (inv.rpos ▸ inv.holds) inv.wpos
  have total : (s.delivered ++ bytes).length = s.stdin.rpos + bytes.length := by
    rw [List.length_append, inv.rpos]
  have delivered : s.accepted.take (s.delivered ++ bytes).length = s.delivered ++ bytes := by
    rw [total, taken, inv.rpos, inv.delivered]
  have apart : ∀ p ∈ s.stdin.waitQueue, p ≠ s.current := fun p inside same => off (same ▸ inside)
  have begun := inv.holds.begun
  rw [inv.wpos, inv.rpos] at length
  rw [DevStdin.devStdinRead, run]
  by_cases short : bytes.length < left
  · simp only [if_pos short]
    refine ⟨total ▸ holds, total.symm, inv.wpos, delivered, fun _ => ?_, inv.kernel.setCurrent _, ?_,
      fun p inside => ?_⟩
    · change (s.delivered ++ bytes).length = s.accepted.length
      rw [total, inv.rpos]
      omega
    · exact List.nodup_append.mpr ⟨inv.nodup, List.nodup_singleton _, fun p inside q last same =>
        apart p inside (same.trans (List.mem_singleton.mp last))⟩
    · by_cases same : p = s.current
      · subst same
        simp [Sys.reads, Sys.setPlace, waitCurrentSet]
      · have old : p ∈ s.stdin.waitQueue :=
          (List.mem_append.mp inside).resolve_right fun last => same (List.mem_singleton.mp last)
        simp only [Sys.reads, Sys.setPlace, waitCurrentSet, setProc_procs, Function.update_of_ne same]
        exact inv.readers p old
  · simp only [if_neg short]
    refine ⟨total ▸ holds, total.symm, inv.wpos, delivered, fun waiting => ?_, inv.kernel, inv.nodup,
      fun p inside => ?_⟩
    · change (s.delivered ++ bytes).length = s.accepted.length
      have := inv.waiting waiting
      rw [total, inv.rpos]
      omega
    · simp only [Sys.reads, Sys.setPlace, Function.update_of_ne (apart p inside)]
      exact inv.readers p inside

/-- The running process leaves the queue. -/
theorem waitCurrentDel (inv : Inv s) : Inv { s with stdin := DevStdin.waitCurrentDel s.stdin } :=
  { inv with
    waiting := fun waiting => inv.waiting fun empty => waiting (by simp [DevStdin.waitCurrentDel, empty])
    nodup := inv.nodup.erase _
    readers := fun p inside => inv.readers p (List.mem_of_mem_erase inside) }

theorem devStdinResume (inv : Inv s) (left : Nat) : Inv (s.reads (DevStdin.devStdinResume s.stdin left)) := by
  have off : s.current ∉ (DevStdin.waitCurrentDel s.stdin).waitQueue := inv.nodup.not_mem_erase
  rw [DevStdin.devStdinResume]
  by_cases woken : (DevStdin.waitCurrentDel s.stdin).wakeupFlags (DevStdin.waitCurrentDel s.stdin).kernel.current =
    WT_KBD
  · simp only [if_pos woken]
    exact inv.waitCurrentDel.devStdinRead off left
  · simp only [if_neg woken]
    have gone := inv.waitCurrentDel
    have same : (s.reads (DevStdin.waitCurrentDel s.stdin, ⟨[], left, true⟩)).delivered = s.delivered :=
      List.append_nil _
    refine ⟨?_, ?_, gone.wpos, ?_, ?_, gone.kernel, gone.nodup, fun p inside => ?_⟩
    all_goals try rw [same]
    · exact gone.holds
    · exact gone.rpos
    · exact gone.delivered
    · exact gone.waiting
    have apart : p ≠ s.current := fun eq => off (eq ▸ inside)
    simp only [Sys.reads, Sys.setPlace, Function.update_of_ne apart]
    exact gone.readers p inside

/-- The processor goes to another process. -/
theorem schedule (inv : Inv s) : ∃ t, s.schedule = .ok t ∧ Inv t := by
  obtain ⟨kernel, run, scheduled⟩ := schedule_scheduled inv.kernel
  rw [Sys.schedule, run]
  refine ⟨_, rfl, { inv with kernel := scheduled.queued, readers := fun p inside => ?_ }⟩
  rw [(scheduled.same p).1]
  exact inv.readers p inside

end Inv

theorem exec_inv {s : Sys} {c : Call} (inv : Inv s) (legal : Legal s c) (harmless : Harmless s c) :
    ∃ t, exec s c = .ok t ∧ Inv t := by
  cases c with
  | write c => exact inv.write harmless
  | read len =>
      exact ⟨_, rfl, inv.devStdinRead (fun inside => (inv.readers _ inside).1 legal.1) len⟩
  | switch =>
      obtain ⟨left, place⟩ := legal
      have moved : Inv (s.setPlace (.switched left)) := { inv with readers := fun p inside => ?_ }
      · rw [exec, place]
        exact moved.schedule
      · refine ⟨?_, (inv.readers p inside).2⟩
        simp only [Sys.setPlace, Function.update_apply]
        split
        · simp
        · exact (inv.readers p inside).1
  | resume =>
      obtain ⟨left, place⟩ := legal
      rw [exec, place]
      exact ⟨_, rfl, inv.devStdinResume left⟩
  | preempt => exact inv.schedule
  | others kernel =>
      obtain ⟨queued, -, changes⟩ := legal
      refine ⟨_, rfl, { inv with kernel := queued, readers := fun p inside => ?_ }⟩
      obtain ⟨place, alive⟩ := inv.readers p inside
      refine ⟨place, ?_⟩
      rcases changes p place with same | ready
      · rw [same]
        exact alive
      · rw [ready]
        decide

theorem harmlessRun_inv {s : Sys} (run : Reachable Initial (Step Harmless) s) : Inv s := by
  refine run.invariant Inv (fun _ => initial_inv) ?_
  rintro s t inv ⟨c, legal, harmless, ran⟩
  obtain ⟨u, run, after⟩ := exec_inv inv legal harmless
  cases run.symm.trans ran
  exact after

/-- Whoever types: as long as no byte is typed into a full buffer, unless it is the oldest
    one in there, readers get the accepted bytes in order, the others are still in the
    buffer, and no call fails. A byte typed into a full buffer is without effect only then. -/
theorem harmlessRun_prefix {s : Sys} (run : Reachable Initial (Step Harmless) s) :
    s.delivered <+: s.accepted ∧
      Holds STDIN_BUFSIZE s.stdin.buffer s.accepted s.delivered.length ∧
      s.stdin.rpos = s.delivered.length ∧ s.stdin.wpos = s.accepted.length ∧
      (∀ c, Legal s c → Harmless s c → ∃ t, exec s c = .ok t) ∧
      ∀ c, c ≠ 0 → ¬ s.Accepts → (exec s (.write c) = .ok s ↔ Harmless s (.write c)) := by
  have inv := harmlessRun_inv run
  refine ⟨?_, inv.holds, inv.rpos, inv.wpos, fun c legal harmless => ?_, fun c => inv.rejected_iff⟩
  · rw [← inv.delivered]
    exact List.take_prefix _ _
  · obtain ⟨t, run, -⟩ := exec_inv inv legal harmless
    exact ⟨t, run⟩

/-! ## A full buffer -/

def typed (count : Nat) : Sys where
  stdin :=
    { kernel := ⟨fun _ => ⟨.runnable, 0, false, 0, 0, false⟩, ⟨[], 0, 5⟩, 1⟩
      buffer := fun i => if i < count then 97 else 0
      rpos := 0
      wpos := count
      waitQueue := []
      wakeupFlags := fun _ => 0 }
  place := fun _ => .elsewhere
  accepted := List.replicate count 97
  delivered := []

theorem typed_initial : Initial (typed 0) :=
  ⟨⟨rfl, rfl⟩, rfl, ⟨List.nodup_nil, by simp [typed], by simp [typed], by simp [typed]⟩, fun _ => rfl, rfl, rfl⟩

theorem typed_accepts (count : Nat) : (typed count).Accepts ↔ count < STDIN_BUFSIZE := by
  simp [Sys.Accepts, typed]

/-- A buffer is filled by one byte after the other. -/
theorem typed_reachable (count : Nat) (fits : count ≤ STDIN_BUFSIZE) :
    Reachable Initial (Step Harmless) (typed count) := by
  induction count with
  | zero => exact .start typed_initial
  | succ count ih =>
      have room : (typed count).Accepts := (typed_accepts count).mpr fits
      refine (ih (by omega)).next ⟨.write 97, trivial, fun _ full => absurd room full, ?_⟩
      have slot : count % STDIN_BUFSIZE = count := Nat.mod_eq_of_lt fits
      have stored : Function.update (fun i => if i < count then (97 : UInt8) else 0) count 97 =
          fun i => if i < count + 1 then 97 else 0 := by
        funext i
        rw [Function.update_apply]
        split
        · rw [if_pos (by omega)]
        · by_cases before : i < count
          · rw [if_pos before, if_pos (by omega)]
          · rw [if_neg before, if_neg (by omega)]
      have free : (typed count).stdin.wpos < (typed count).stdin.rpos + STDIN_BUFSIZE := by
        simpa [typed] using fits
      have accepts : (97 : UInt8) ≠ 0 ∧ (typed count).Accepts := ⟨by decide, room⟩
      have kernel : Queued (typed count).stdin.kernel := typed_initial.kernel
      obtain ⟨k, run, -, -, same⟩ := devStdinWrite_spec accepts.1 kernel (by simp [typed])
      obtain rfl := same rfl
      rw [exec, run, if_pos free, if_pos accepts]
      simp [typed, bind, Except.bind, pure, Except.pure, List.replicate_succ', slot, stored]

theorem harmlessRun_prefix_full :
    (typed 4096).delivered <+: (typed 4096).accepted ∧
      ∀ c, c ≠ 0 → ¬ (typed 4096).Accepts →
        (exec (typed 4096) (.write c) = .ok (typed 4096) ↔ Harmless (typed 4096) (.write c)) :=
  have sound := harmlessRun_prefix (typed_reachable 4096 (by decide))
  ⟨sound.1, sound.2.2.2.2.2⟩

/-- A byte too many is rejected, and delivered in the place of the first one. -/
theorem rejected_delivered : ∃ s, Reachable Initial (Step fun _ _ => True) s ∧
    s.accepted = List.replicate 4096 97 ∧ s.delivered = [98] ∧ ¬ s.delivered <+: s.accepted := by
  have weaken : ∀ s t, Step Harmless s t → Step (fun _ _ => True) s t := fun s t ⟨c, legal, _, run⟩ =>
    ⟨c, legal, trivial, run⟩
  have full := (typed_reachable 4096 (by decide)).invariant
    (Reachable Initial (Step fun _ _ => True)) (fun _ => .start) fun s t reached taken =>
      reached.next (weaken s t taken)
  have inv := harmlessRun_inv (typed_reachable 4096 (by decide))
  have rejected := inv.rejected (c := 98) (by decide) fun room =>
    absurd ((typed_accepts 4096).mp room) (by decide)
  have slot : (typed 4096).accepted.length % STDIN_BUFSIZE = 0 := by
    rw [show (typed 4096).accepted.length = 4096 from List.length_replicate]
    rfl
  rw [slot] at rejected
  refine ⟨_, (full.next ⟨.write 98, trivial, trivial, rejected⟩).next ⟨.read 1, ⟨rfl, by decide⟩, trivial, rfl⟩,
    rfl, rfl, fun pre => ?_⟩
  have first : (98 : UInt8) ∈ List.replicate 4096 97 := pre.subset List.mem_cons_self
  exact absurd (List.eq_of_mem_replicate first) (by decide)

end Ucore.Fs.DevStdin
