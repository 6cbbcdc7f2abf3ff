import Ucore.Libs.Assert

/-! # `sched.c` and the round-robin class

Processes as the scheduler sees them, the run queue of `default_sched_c.c`, and
`wakeup_proc` and `schedule` over it. Interrupts are off inside each function, so
that each is one step of the system. A process stands for its `proc_struct`; the
`run_link` of a process is on the queue exactly when the process is in `runList`.
-/

namespace Ucore.Schedule.Sched

open Libs.Assert

inductive ProcState where
  | uninit
  | sleeping
  | runnable
  | zombie
  deriving DecidableEq, Repr

abbrev Pid := Nat

def idleproc : Pid := 0

/-- The wait state could be interrupted. -/
def WT_INTERRUPTED : BitVec 32 := 0x80000000

def WT_CHILD : BitVec 32 := 0x00000001 ||| WT_INTERRUPTED

def WT_KSEM : BitVec 32 := 0x00000100

def WT_TIMER : BitVec 32 := 0x00000002 ||| WT_INTERRUPTED

/-- The fields of `proc_struct` that scheduling reads or writes. `queued` is the
    pointer to the run queue, of which there is one. -/
structure Proc where
  state : ProcState
  waitState : BitVec 32
  needResched : Bool
  runs : Int
  timeSlice : Int
  queued : Bool
  deriving DecidableEq, Repr

structure RunQueue where
  runList : List Pid
  procNum : BitVec 32
  maxTimeSlice : Int
  deriving DecidableEq, Repr

structure Kernel where
  procs : Pid → Proc
  rq : RunQueue
  current : Pid

def Kernel.setProc (s : Kernel) (p : Pid) (proc : Proc) : Kernel :=
  { s with procs := Function.update s.procs p proc }

@[simp] theorem setProc_procs (s : Kernel) (p : Pid) (proc : Proc) :
    (s.setProc p proc).procs = Function.update s.procs p proc := rfl

@[simp] theorem setProc_rq (s : Kernel) (p : Pid) (proc : Proc) : (s.setProc p proc).rq = s.rq := rfl

@[simp] theorem setProc_current (s : Kernel) (p : Pid) (proc : Proc) :
    (s.setProc p proc).current = s.current := rfl

/-! ## The round-robin class -/

def rrEnqueue (s : Kernel) (p : Pid) : Result Kernel := do
  assert (p ∉ s.rq.runList)
  let proc := s.procs p
  let slice :=
    if proc.timeSlice = 0 ∨ s.rq.maxTimeSlice < proc.timeSlice then s.rq.maxTimeSlice else proc.timeSlice
  pure { s.setProc p { proc with timeSlice := slice, queued := true } with
    rq := { s.rq with runList := s.rq.runList ++ [p], procNum := s.rq.procNum + 1 } }

def rrDequeue (s : Kernel) (p : Pid) : Result Kernel := do
  assert (p ∈ s.rq.runList ∧ (s.procs p).queued = true)
  pure { s with rq := { s.rq with runList := s.rq.runList.erase p, procNum := s.rq.procNum - 1 } }

def rrPickNext (s : Kernel) : Option Pid := s.rq.runList.head?

def rrProcTick (s : Kernel) (p : Pid) : Kernel :=
  let proc := s.procs p
  let proc := if 0 < proc.timeSlice then { proc with timeSlice := proc.timeSlice - 1 } else proc
  let proc := if proc.timeSlice = 0 then { proc with needResched := true } else proc
  s.setProc p proc

/-! ## `sched.c` -/

def schedClassEnqueue (s : Kernel) (p : Pid) : Result Kernel :=
  if p ≠ idleproc then rrEnqueue s p else pure s

def schedClassProcTick (s : Kernel) (p : Pid) : Kernel :=
  if p ≠ idleproc then rrProcTick s p else s.setProc p { s.procs p with needResched := true }

def wakeupProc (s : Kernel) (p : Pid) : Result Kernel := do
  assert ((s.procs p).state ≠ .zombie)
  if (s.procs p).state ≠ .runnable then
    let s := s.setProc p { s.procs p with state := .runnable, waitState := 0 }
    if p ≠ s.current then schedClassEnqueue s p else pure s
  else pure s

/-- Lab 5's `proc_run`; the switch takes up the next process where it left off. -/
def procRun (s : Kernel) (p : Pid) : Kernel := { s with current := p }

/-- The running process goes back on the queue if it can go on. -/
def enqueueRunning (s : Kernel) : Result Kernel :=
  if (s.procs s.current).state = .runnable then schedClassEnqueue s s.current else pure s

/-- The next process, off the queue; the idle process if there is none. -/
def takeNext (s : Kernel) : Result (Pid × Kernel) :=
  match rrPickNext s with
  | some p => do
      let s ← rrDequeue s p
      pure (p, s)
  | none => pure (idleproc, s)

def schedule (s : Kernel) : Result Kernel := do
  let s ← enqueueRunning (s.setProc s.current { s.procs s.current with needResched := false })
  let (next, s) ← takeNext s
  let s := s.setProc next { s.procs next with runs := (s.procs next).runs + 1 }
  pure (if next ≠ s.current then procRun s next else s)

/-! ## What each function does -/

/-- A process is on the run queue at most once, and then it is ready and not running. -/
structure Queued (s : Kernel) : Prop where
  nodup : s.rq.runList.Nodup
  runnable : ∀ p ∈ s.rq.runList, (s.procs p).state = .runnable
  waiting : s.current ∉ s.rq.runList
  onQueue : ∀ p ∈ s.rq.runList, (s.procs p).queued = true

/-- `p` was woken: it is ready, queued if it was not before, and no other process changed. -/
structure Woken (s : Kernel) (p : Pid) (t : Kernel) : Prop where
  queued : Queued t
  current : t.current = s.current
  others : ∀ q, q ≠ p → t.procs q = s.procs q
  state : (t.procs p).state = .runnable
  waitState : (t.procs p).waitState = if (s.procs p).state = .runnable then (s.procs p).waitState else 0
  runList : t.rq.runList =
    if (s.procs p).state = .runnable ∨ p = s.current ∨ p = idleproc then s.rq.runList
    else s.rq.runList ++ [p]

theorem wakeupProc_woken {s : Kernel} {p : Pid} (queued : Queued s)
    (alive : (s.procs p).state ≠ .zombie) : ∃ t, wakeupProc s p = .ok t ∧ Woken s p t := by
  by_cases ready : (s.procs p).state = .runnable
  · refine ⟨s, ?_, queued, rfl, fun _ _ => rfl, ready, (if_pos ready).symm, ?_⟩
    · rw [wakeupProc, assert_bind alive, if_neg (not_not.mpr ready)]
      rfl
    · exact (if_pos (Or.inl ready)).symm
  · have off : p ∉ s.rq.runList := fun inside => ready (queued.runnable p inside)
    have woken : ∀ t : Kernel, t.rq.runList = (if p = s.current ∨ p = idleproc then s.rq.runList
          else s.rq.runList ++ [p]) → t.current = s.current → (∀ q, q ≠ p → t.procs q = s.procs q) →
        (t.procs p).state = .runnable → (t.procs p).waitState = 0 →
        (p ∈ t.rq.runList → (t.procs p).queued = true) → Woken s p t := by
      intro t list current others state waitState onQueue
      refine ⟨⟨?_, ?_, ?_, ?_⟩, current, others, state, by simp [ready, waitState], by simp [ready, list]⟩
      · rw [list]
        split
        · exact queued.nodup
        · exact List.nodup_append.mpr ⟨queued.nodup, by simp, by
            intro a inside b last same
            exact off (List.mem_singleton.mp last ▸ same ▸ inside)⟩
      · intro q inside
        by_cases same : q = p
        · exact same ▸ state
        · rw [others q same]
          refine queued.runnable q ?_
          rw [list] at inside
          split at inside
          · exact inside
          · simpa [same] using inside
      · rw [list, current]
        split
        · exact queued.waiting
        · rename_i away
          simp only [List.mem_append, List.mem_singleton, not_or]
          exact ⟨queued.waiting, fun same => away (Or.inl same.symm)⟩
      · intro q inside
        by_cases same : q = p
        · exact same ▸ onQueue (same ▸ inside)
        · rw [others q same]
          refine queued.onQueue q ?_
          rw [list] at inside
          split at inside
          · exact inside
          · simpa [same] using inside
    rw [wakeupProc, assert_bind alive, if_pos ready]
    by_cases running : p = s.current
    · refine ⟨_, if_neg (not_not.mpr running), woken _ (by simp [running]) rfl ?_ (by simp) (by simp)
        fun inside => absurd inside off⟩
      exact fun q away => Function.update_of_ne away _ _
    · rw [if_pos (by exact running)]
      by_cases idle : p = idleproc
      · refine ⟨_, if_neg (not_not.mpr idle), woken _ (by simp [idle]) rfl ?_ (by simp) (by simp)
          fun inside => absurd inside off⟩
        exact fun q away => Function.update_of_ne away _ _
      · rw [schedClassEnqueue, if_pos idle, rrEnqueue, assert_bind (by exact off)]
        refine ⟨_, rfl, woken _ (by simp [running, idle]) rfl ?_ (by simp) (by simp)
          fun _ => by simp⟩
        intro q away
        simp [Function.update_of_ne away]

theorem schedClassProcTick_rq (s : Kernel) (p : Pid) : (schedClassProcTick s p).rq = s.rq := by
  unfold schedClassProcTick
  split <;> rfl

theorem schedClassProcTick_current (s : Kernel) (p : Pid) :
    (schedClassProcTick s p).current = s.current := by
  unfold schedClassProcTick
  split <;> rfl

/-- A tick of the clock leaves every process ready or waiting as it was. -/
theorem schedClassProcTick_procs (s : Kernel) (p q : Pid) :
    ((schedClassProcTick s p).procs q).state = (s.procs q).state ∧
      ((schedClassProcTick s p).procs q).waitState = (s.procs q).waitState ∧
      ((schedClassProcTick s p).procs q).queued = (s.procs q).queued := by
  by_cases same : q = p
  · subst same
    simp only [schedClassProcTick, rrProcTick]
    repeat' split
    all_goals simp
  · simp only [schedClassProcTick, rrProcTick]
    split <;> simp [Function.update_of_ne same]

theorem Queued.procTick {s : Kernel} (queued : Queued s) (p : Pid) :
    Queued (schedClassProcTick s p) where
  nodup := by rw [schedClassProcTick_rq]; exact queued.nodup
  runnable := by
    intro q inside
    rw [schedClassProcTick_rq] at inside
    rw [(schedClassProcTick_procs s p q).1]
    exact queued.runnable q inside
  waiting := by rw [schedClassProcTick_rq, schedClassProcTick_current]; exact queued.waiting
  onQueue := by
    intro q inside
    rw [schedClassProcTick_rq] at inside
    rw [(schedClassProcTick_procs s p q).2.2]
    exact queued.onQueue q inside

/-- The running process is on no queue and may change. -/
theorem Queued.setCurrent {s : Kernel} (queued : Queued s) (proc : Proc) :
    Queued (s.setProc s.current proc) := by
  have apart : ∀ p ∈ s.rq.runList, p ≠ s.current := fun p inside same => queued.waiting (same ▸ inside)
  refine ⟨queued.nodup, fun p inside => ?_, queued.waiting, fun p inside => ?_⟩
  · rw [setProc_procs, Function.update_of_ne (apart p inside)]
    exact queued.runnable p inside
  · rw [setProc_procs, Function.update_of_ne (apart p inside)]
    exact queued.onQueue p inside

/-- Scheduling changes neither the state of a process nor what it waits for. -/
def SameState (s t : Kernel) : Prop :=
  ∀ p, (t.procs p).state = (s.procs p).state ∧ (t.procs p).waitState = (s.procs p).waitState

theorem SameState.setProc {s : Kernel} {p : Pid} {proc : Proc} (state : proc.state = (s.procs p).state)
    (waitState : proc.waitState = (s.procs p).waitState) : SameState s (s.setProc p proc) := by
  intro q
  rw [setProc_procs, Function.update_apply]
  split <;> simp_all

theorem SameState.trans {s t u : Kernel} (first : SameState s t) (second : SameState t u) :
    SameState s u :=
  fun p => ⟨(second p).1.trans (first p).1, (second p).2.trans (first p).2⟩

/-- A process was chosen to run. None is lost from the queue, and none is readied by it. -/
structure Scheduled (s t : Kernel) : Prop where
  queued : Queued t
  same : SameState s t
  chosen : t.current = idleproc ∨ (s.procs t.current).state = .runnable
  ready : ∀ p, p ≠ idleproc → (p ∈ s.rq.runList ∨ p = s.current ∧ (s.procs p).state = .runnable) →
    p ∈ t.rq.runList ∨ p = t.current

theorem enqueueRunning_spec {s : Kernel} (queued : Queued s) :
    ∃ t, enqueueRunning s = .ok t ∧ SameState s t ∧ t.current = s.current ∧ t.rq.runList.Nodup ∧
      (∀ p ∈ t.rq.runList, (t.procs p).state = .runnable ∧ (t.procs p).queued = true) ∧
      ∀ p, p ≠ idleproc → (p ∈ s.rq.runList ∨ p = s.current ∧ (s.procs p).state = .runnable) →
        p ∈ t.rq.runList := by
  have same : SameState s s := fun _ => ⟨rfl, rfl⟩
  have old : ∀ p ∈ s.rq.runList, (s.procs p).state = .runnable ∧ (s.procs p).queued = true :=
    fun p inside => ⟨queued.runnable p inside, queued.onQueue p inside⟩
  rw [enqueueRunning]
  by_cases runs : (s.procs s.current).state = .runnable
  · rw [if_pos runs]
    by_cases idle : s.current = idleproc
    · refine ⟨s, if_neg (not_not.mpr idle), same, rfl, queued.nodup, old, ?_⟩
      intro p other ready
      exact ready.resolve_right fun itself => other (itself.1.trans idle)
    · rw [schedClassEnqueue, if_pos idle, rrEnqueue, assert_bind queued.waiting]
      refine ⟨_, rfl, SameState.setProc rfl rfl, rfl, ?_, ?_, ?_⟩
      · refine List.nodup_append.mpr ⟨queued.nodup, by simp, ?_⟩
        intro p inside q last eq
        exact queued.waiting (List.mem_singleton.mp last ▸ eq ▸ inside)
      · intro p inside
        by_cases itself : p = s.current
        · subst itself
          simpa using runs
        · have before : p ∈ s.rq.runList := by simpa [itself] using inside
          simpa [Function.update_of_ne itself] using old p before
      · intro p _ ready
        simpa using ready.imp_right And.left
  · rw [if_neg runs]
    refine ⟨s, rfl, same, rfl, queued.nodup, old, ?_⟩
    intro p _ ready
    exact ready.resolve_right fun itself => runs (itself.1 ▸ itself.2)

theorem takeNext_spec {s : Kernel}
    (ready : ∀ p ∈ s.rq.runList, (s.procs p).state = .runnable ∧ (s.procs p).queued = true) :
    ∃ next t, takeNext s = .ok (next, t) ∧ t.procs = s.procs ∧ t.current = s.current ∧
      t.rq.runList = s.rq.runList.tail ∧ next = s.rq.runList.head?.getD idleproc ∧
      t.rq.maxTimeSlice = s.rq.maxTimeSlice ∧
      t.rq.procNum = if s.rq.runList = [] then s.rq.procNum else s.rq.procNum - 1 := by
  cases queue : s.rq.runList with
  | nil =>
      refine ⟨idleproc, s, by simp [takeNext, rrPickNext, queue, pure, Except.pure], rfl, rfl, queue, rfl, rfl, ?_⟩
      exact (if_pos rfl).symm
  | cons p rest =>
      have front : p ∈ s.rq.runList := by simp [queue]
      have runs : rrDequeue s p = .ok { s with
          rq := { s.rq with runList := s.rq.runList.erase p, procNum := s.rq.procNum - 1 } } := by
        rw [rrDequeue, assert_bind ⟨front, (ready p front).2⟩]
        rfl
      have run : takeNext s = .ok (p, { s with
          rq := { s.rq with runList := s.rq.runList.erase p, procNum := s.rq.procNum - 1 } }) := by
        simp only [takeNext, rrPickNext, queue, List.head?_cons]
        rw [runs, queue]
        rfl
      exact ⟨p, _, run, rfl, rfl, by simp [queue], rfl, rfl, by simp⟩

theorem schedule_scheduled {s : Kernel} (queued : Queued s) :
    ∃ t, schedule s = .ok t ∧ Scheduled s t := by
  let s0 := s.setProc s.current { s.procs s.current with needResched := false }
  have same0 : SameState s s0 := SameState.setProc rfl rfl
  obtain ⟨s1, run1, same1, -, nodup, ready, kept⟩ := enqueueRunning_spec (queued.setCurrent _)
  obtain ⟨next, s2, run2, procs, -, rest, head, -, -⟩ := takeNext_spec ready
  let s3 := s2.setProc next { s2.procs next with runs := (s2.procs next).runs + 1 }
  let t := if next ≠ s3.current then procRun s3 next else s3
  have run : schedule s = .ok t := by
    rw [schedule, run1]
    simp only [bind, Except.bind, run2]
    rfl
  have current : t.current = next := by
    simp only [t]
    split <;> simp_all [procRun]
  have queue : t.rq.runList = s1.rq.runList.tail := by
    rw [← rest]
    simp only [t]
    split <;> rfl
  have after : t.procs = s3.procs := by
    simp only [t]
    split <;> rfl
  have same : SameState s t := by
    have last : SameState s1 t := by
      intro p
      rw [after, setProc_procs, Function.update_apply, procs]
      split <;> simp_all
    exact (same0.trans same1).trans last
  have tail : ∀ p ∈ t.rq.runList, p ∈ s1.rq.runList ∧ p ≠ next := by
    intro p inside
    rw [queue] at inside
    cases list : s1.rq.runList with
    | nil => simp [list] at inside
    | cons q rest =>
        rw [list] at inside nodup head
        have here : p ∈ rest := inside
        obtain rfl : next = q := head
        exact ⟨by simp [here], fun eq => (List.nodup_cons.mp nodup).1 (eq ▸ here)⟩
  refine ⟨t, run, ⟨?_, ?_, ?_, ?_⟩, same, ?_, ?_⟩
  · rw [queue]
    exact nodup.sublist (List.tail_sublist _)
  · intro p inside
    rw [(same p).1, ← ((same0.trans same1) p).1]
    exact (ready p (tail p inside).1).1
  · rw [current]
    exact fun inside => (tail next inside).2 rfl
  · intro p inside
    rw [after, setProc_procs, Function.update_of_ne (tail p inside).2, procs]
    exact (ready p (tail p inside).1).2
  · rw [current, head]
    cases list : s1.rq.runList with
    | nil => exact Or.inl rfl
    | cons q rest =>
        refine Or.inr ?_
        rw [← ((same0.trans same1) _).1]
        exact (ready q (by simp [list])).1
  · intro p other before
    have inside : p ∈ s1.rq.runList := by
      refine kept p other (before.imp_right fun itself => ⟨itself.1, ?_⟩)
      rw [(same0 p).1]
      exact itself.2
    rw [queue, current, head]
    cases list : s1.rq.runList with
    | nil => simp [list] at inside
    | cons q rest =>
        rw [list] at inside
        exact (List.mem_cons.mp inside).symm

end Ucore.Schedule.Sched
