import Ucore.Lib.Run
import Ucore.Schedule.RunLinks

/-! # Runs of the round-robin scheduler

Processes are created, woken, put to sleep and ended, and the processor is handed from
one to the next, in any order. The run queue holds those that are ready, in the order
in which they came to it.
-/

namespace Ucore.Schedule.RunQueueRuns

open Lib.Ring Lib.Run Libs.Assert Libs.List RunLinks

open Sched (Pid Proc ProcState Kernel idleproc takeNext_spec setProc_procs setProc_rq setProc_current)

/-- The bytes of memory, of which every process takes some. -/
def KMEMSIZE : Nat := 0x7E00000

def MAX_TIME_SLICE : Int := 5

/-- The machine, the processes there are, and what happened so far: the processes in the
    order in which they were enqueued, and in the order in which they were picked. -/
structure Sys where
  machine : Machine
  live : Finset Pid
  enqueued : List Pid
  picked : List Pid

inductive Call where
  | create (p : Pid) (proc : Proc)
  | free (p : Pid)
  | wakeup (p : Pid)
  | sleep (waitState : BitVec 32)
  | exit
  | tick
  | schedule

abbrev Sys.current (s : Sys) : Pid := s.machine.current

/-- The running process changes its own state. -/
def Sys.setState (s : Sys) (state : ProcState) (waitState : BitVec 32) : Sys :=
  let proc := { s.machine.procs s.current with state := state, waitState := waitState }
  { s with machine := s.machine.setProc s.current proc }

/-- The process `wakeup_proc` enqueues. -/
def joins (procs : Pid → Proc) (current p : Pid) : List Pid :=
  if (procs p).state ≠ .runnable ∧ p ≠ current ∧ p ≠ idleproc then [p] else []

/-- The process `schedule` enqueues. -/
def rejoins (procs : Pid → Proc) (current : Pid) : List Pid :=
  if (procs current).state = .runnable ∧ current ≠ idleproc then [current] else []

/-- The process `schedule` takes off the queue. -/
def picks (current : Pid) : List Pid := if current ≠ idleproc then [current] else []

def exec (s : Sys) : Call → Result Sys
  | .create p proc =>
      let machine := { s.machine.setProc p proc with links := listInit s.machine.links (.runLink p) }
      pure { s with machine := machine, live := insert p s.live }
  | .free p => pure { s with live := s.live.erase p }
  | .wakeup p => do
      let machine ← wakeupProc s.machine p
      pure { s with machine := machine, enqueued := s.enqueued ++ joins s.machine.procs s.current p }
  | .sleep waitState => pure (s.setState .sleeping waitState)
  | .exit => pure (s.setState .zombie (s.machine.procs s.current).waitState)
  | .tick => pure { s with machine := schedClassProcTick s.machine s.current }
  | .schedule => do
      let machine ← schedule s.machine
      pure { s with
        machine := machine
        enqueued := s.enqueued ++ rejoins s.machine.procs s.current
        picked := s.picked ++ picks machine.current }

/-- A new process has its `run_link` initialised, and otherwise the fields that `fresh`
    says; it is freed when `do_wait` has reaped it, or when it was never started. -/
def Legal (fresh : Proc → Prop) (s : Sys) : Call → Prop
  | .create p proc => p ∉ s.live ∧ s.live.card < KMEMSIZE ∧ fresh proc
  | .free p => p ≠ s.current ∧ p ≠ idleproc ∧
      ((s.machine.procs p).state = .zombie ∨ (s.machine.procs p).state = .uninit)
  | .wakeup p => p ∈ s.live
  | .sleep _ | .exit | .tick | .schedule => True

def Step (fresh : Proc → Prop) (s t : Sys) : Prop := ∃ c, Legal fresh s c ∧ exec s c = .ok t

/-- After `sched_init` and the creation of the idle process. -/
structure Initial (s : Sys) : Prop where
  queue : ∃ m, s.machine = rrInit m
  slice : s.machine.maxTimeSlice = MAX_TIME_SLICE
  running : s.current = idleproc
  live : s.live = {idleproc}
  linked : listEmpty s.machine.links (.runLink idleproc) = true
  logs : s.enqueued = [] ∧ s.picked = []

/-- The fields of a process as `alloc_proc` is to set them. -/
def Initialised (proc : Proc) : Prop := proc.state = .uninit ∧ 0 ≤ proc.timeSlice

/-! ## The queue as a list -/

/-- The processes that wait on the queue, each with time to run. -/
structure Queues (waits : Pid → Prop) (live : Finset Pid) (k : Kernel) : Prop where
  nodup : k.rq.runList.Nodup
  members : ∀ p, p ∈ k.rq.runList ↔ waits p
  queued : ∀ p ∈ k.rq.runList, (k.procs p).queued = true
  slices : ∀ p ∈ k.rq.runList, 1 ≤ (k.procs p).timeSlice ∧ (k.procs p).timeSlice ≤ k.rq.maxTimeSlice
  positive : ∀ p ∈ live, p ≠ idleproc → 0 ≤ (k.procs p).timeSlice
  count : k.rq.procNum = BitVec.ofNat 32 k.rq.runList.length
  bound : 1 ≤ k.rq.maxTimeSlice

/-- Those that are ready wait, but for the running process and the idle one. -/
def Waits (live : Finset Pid) (k : Kernel) (p : Pid) : Prop :=
  p ∈ live ∧ (k.procs p).state = .runnable ∧ p ≠ idleproc ∧ p ≠ k.current

structure Ready (live : Finset Pid) (k : Kernel) : Prop where
  queue : Queues (Waits live k) live k
  running : k.current ∈ live
  idle : idleproc ∈ live

variable {waits waits' : Pid → Prop} {live : Finset Pid} {k t : Kernel} {p : Pid} {proc : Proc}

namespace Queues

theorem congr (queue : Queues waits live k) (same : ∀ p, waits p ↔ waits' p) : Queues waits' live k :=
  { queue with members := fun p => (queue.members p).trans (same p) }

theorem setProc (queue : Queues waits live k) (p : Pid) (proc : Proc)
    (listed : p ∈ k.rq.runList →
      proc.queued = true ∧ 1 ≤ proc.timeSlice ∧ proc.timeSlice ≤ k.rq.maxTimeSlice)
    (slice : p ∈ live → p ≠ idleproc → 0 ≤ proc.timeSlice) : Queues waits live (k.setProc p proc) := by
  refine ⟨queue.nodup, queue.members, fun q inside => ?_, fun q inside => ?_, fun q member away => ?_,
    queue.count, queue.bound⟩
  · rw [setProc_procs, Function.update_apply]
    split
    · exact (listed (‹q = p› ▸ inside)).1
    · exact queue.queued q inside
  · rw [setProc_procs, Function.update_apply]
    split
    · exact (listed (‹q = p› ▸ inside)).2
    · exact queue.slices q inside
  · rw [setProc_procs, Function.update_apply]
    split
    · exact slice (‹q = p› ▸ member) (‹q = p› ▸ away)
    · exact queue.positive q member away

/-- A process changes but for its time slice and its queue. -/
theorem setState (queue : Queues waits live k) (p : Pid) (proc : Proc) (queued : proc.queued = (k.procs p).queued)
    (slice : proc.timeSlice = (k.procs p).timeSlice) : Queues waits live (k.setProc p proc) := by
  refine queue.setProc p proc (fun inside => ?_) fun member away => ?_
  · rw [queued, slice]
    exact ⟨queue.queued p inside, queue.slices p inside⟩
  · rw [slice]
    exact queue.positive p member away

/-- `RR_enqueue` of a process that is not on the queue. -/
theorem rrEnqueue (queue : Queues waits live k) (off : ¬ waits p) (slice : 0 ≤ (k.procs p).timeSlice) :
    ∃ t, Sched.rrEnqueue k p = .ok t ∧ Queues (fun q => waits q ∨ q = p) live t ∧
      t.rq.runList = k.rq.runList ++ [p] ∧ t.current = k.current ∧
      ∀ q, (t.procs q).state = (k.procs q).state := by
  have off : p ∉ k.rq.runList := fun inside => off ((queue.members p).mp inside)
  rw [Sched.rrEnqueue, assert_bind off]
  have old : ∀ q ∈ k.rq.runList, q ≠ p := fun q inside same => off (same ▸ inside)
  let granted := if (k.procs p).timeSlice = 0 ∨ k.rq.maxTimeSlice < (k.procs p).timeSlice then k.rq.maxTimeSlice
    else (k.procs p).timeSlice
  have granted : 1 ≤ granted ∧ granted ≤ k.rq.maxTimeSlice := by
    have bound := queue.bound
    simp only [granted]
    split <;> omega
  refine ⟨_, rfl, ⟨?_, fun q => ?_, fun q inside => ?_, fun q inside => ?_, fun q member away => ?_, ?_,
    queue.bound⟩, rfl, rfl, fun q => ?_⟩
  · exact List.nodup_append.mpr ⟨queue.nodup, List.nodup_singleton p, fun q inside r last same =>
      old q inside (same.trans (List.mem_singleton.mp last))⟩
  · rw [List.mem_append, List.mem_singleton, queue.members]
  · simp only [setProc_procs, Function.update_apply]
    split
    · rfl
    · exact queue.queued q ((List.mem_append.mp inside).resolve_right (by simpa using ‹q ≠ p›))
  · by_cases same : q = p
    · subst same
      rw [setProc_procs, Function.update_self]
      exact granted
    · rw [setProc_procs, Function.update_of_ne same]
      exact queue.slices q ((List.mem_append.mp inside).resolve_right (by simpa using same))
  · by_cases same : q = p
    · subst same
      rw [setProc_procs, Function.update_self]
      exact le_trans Int.one_nonneg granted.1
    · rw [setProc_procs, Function.update_of_ne same]
      exact queue.positive q member away
  · simp only [queue.count, List.length_append, List.length_singleton, BitVec.ofNat_add]
    rfl
  · simp only [setProc_procs, Function.update_apply]
    split <;> simp_all

/-- The head of the queue, or the idle process, is taken to run. -/
theorem takeNext (queue : Queues waits live k) (ready : ∀ p, waits p → (k.procs p).state = .runnable) :
    ∃ next t, Sched.takeNext k = .ok (next, t) ∧ next = k.rq.runList.head?.getD idleproc ∧
      Queues (fun q => waits q ∧ q ≠ next) live t ∧ t.rq.runList = k.rq.runList.tail ∧
      t.procs = k.procs ∧ t.current = k.current ∧ (waits next ∨ next = idleproc) := by
  obtain ⟨next, t, run, procs, current, list, head, bound, num⟩ := takeNext_spec fun p inside =>
    ⟨ready p ((queue.members p).mp inside), queue.queued p inside⟩
  have nodup := queue.nodup
  have members := queue.members
  have count := queue.count
  have inner : ∀ p ∈ t.rq.runList, p ∈ k.rq.runList := fun p inside =>
    List.mem_of_mem_tail (list ▸ inside)
  refine ⟨next, t, run, head, ⟨?_, fun p => ?_, fun p inside => ?_, fun p inside => ?_, ?_, ?_, ?_⟩, list,
    procs, current, ?_⟩
  · rw [list]
    exact nodup.sublist (List.tail_sublist _)
  · rw [list, ← members p, head]
    cases same : k.rq.runList with
    | nil => simp
    | cons q rest =>
        rw [same, List.nodup_cons] at nodup
        simp only [List.tail_cons, List.mem_cons, List.head?_cons, Option.getD_some]
        refine ⟨fun inside => ⟨Or.inr inside, fun eq => nodup.1 (eq ▸ inside)⟩, fun inside => ?_⟩
        exact inside.1.resolve_left inside.2
  · rw [procs]
    exact queue.queued p (inner p inside)
  · rw [procs, bound]
    exact queue.slices p (inner p inside)
  · rw [procs]
    exact queue.positive
  · rw [num, list, count]
    cases same : k.rq.runList with
    | nil => rfl
    | cons q rest =>
        rw [if_neg (List.cons_ne_nil q rest), List.length_cons, BitVec.ofNat_add]
        exact BitVec.add_sub_cancel _ _
  · rw [bound]
    exact queue.bound
  · rw [head]
    cases same : k.rq.runList with
    | nil => exact Or.inr rfl
    | cons q rest =>
        refine Or.inl ((members q).mp ?_)
        rw [same]
        exact List.mem_cons_self

end Queues

namespace Ready

/-- The running process changes its state, or is ticked. -/
theorem setCurrent (ready : Ready live k)
    (slice : k.current ≠ idleproc → 0 ≤ proc.timeSlice) : Ready live (k.setProc k.current proc) := by
  have off : k.current ∉ k.rq.runList := fun inside => ((ready.queue.members _).mp inside).2.2.2 rfl
  refine ⟨(ready.queue.setProc k.current proc (fun inside => absurd inside off) fun _ => slice).congr fun q => ?_,
    ready.running, ready.idle⟩
  simp only [Waits, setProc_procs, setProc_current, Function.update_apply]
  split <;> simp_all

theorem wakeupProc (ready : Ready live k) (member : p ∈ live) (alive : (k.procs p).state ≠ .zombie) :
    ∃ t, Sched.wakeupProc k p = .ok t ∧ Ready live t ∧
      t.rq.runList = k.rq.runList ++ joins k.procs k.current p := by
  rw [Sched.wakeupProc, assert_bind alive]
  by_cases awake : (k.procs p).state = .runnable
  · exact ⟨k, by rw [if_neg (not_not.mpr awake)]; rfl, ready, by simp [joins, awake]⟩
  rw [if_pos awake]
  let woken := k.setProc p { k.procs p with state := .runnable, waitState := 0 }
  have old : Queues (Waits live k) live woken := ready.queue.setState _ _ rfl rfl
  -- The process waits now, unless it is the running one or the idle one.
  have grown : ∀ q, Waits live woken q ↔ Waits live k q ∨ q = p ∧ p ≠ idleproc ∧ p ≠ k.current := by
    intro q
    simp only [Waits, woken, setProc_procs, setProc_current, Function.update_apply]
    by_cases same : q = p
    · subst same
      simp [member, awake]
    · simp [same]
  by_cases stays : p = k.current ∨ p = idleproc
  · have after : Ready live woken := by
      refine ⟨old.congr fun q => ((grown q).trans (or_iff_left fun joined => ?_)).symm, ready.running, ready.idle⟩
      exact stays.elim joined.2.2 joined.2.1
    refine ⟨woken, ?_, after, by simp [joins, woken]; tauto⟩
    by_cases running : p = k.current
    · exact if_neg (not_not.mpr running)
    · rw [if_pos (by exact running), Sched.schedClassEnqueue, if_neg (not_not.mpr (stays.resolve_left running))]
      rfl
  · obtain ⟨notCurrent, notIdle⟩ := not_or.mp stays
    have slice : 0 ≤ (woken.procs p).timeSlice := by
      simpa [woken] using ready.queue.positive p member notIdle
    obtain ⟨t, run, queue, list, current, state⟩ := old.rrEnqueue (fun waits => awake waits.2.1) slice
    rw [if_pos (by exact notCurrent), Sched.schedClassEnqueue, if_pos notIdle]
    refine ⟨t, run, ⟨queue.congr fun q => ?_, current ▸ ready.running, ready.idle⟩, ?_⟩
    · rw [show Waits live t q ↔ Waits live woken q by rw [Waits, state, current]; rfl]
      exact (or_congr_right ⟨fun same => ⟨same, notIdle, notCurrent⟩, And.left⟩).trans (grown q).symm
    · rw [list, joins, if_pos ⟨awake, notCurrent, notIdle⟩]
      rfl

/-- The running process goes back to the end of the queue. -/
theorem enqueueRunning (ready : Ready live k) : ∃ t, Sched.enqueueRunning k = .ok t ∧
    Queues (fun p => p ∈ live ∧ (t.procs p).state = .runnable ∧ p ≠ idleproc) live t ∧
    t.rq.runList = k.rq.runList ++ rejoins k.procs k.current ∧ t.current = k.current := by
  rw [Sched.enqueueRunning, rejoins]
  by_cases runs : (k.procs k.current).state = .runnable
  · rw [if_pos runs, Sched.schedClassEnqueue]
    by_cases idle : k.current = idleproc
    · rw [if_neg (not_not.mpr idle), if_neg fun rejoin => rejoin.2 idle, List.append_nil]
      refine ⟨k, rfl, ready.queue.congr fun p => ?_, rfl, rfl⟩
      rw [Waits, idle, and_self]
    · have slice := ready.queue.positive k.current ready.running idle
      obtain ⟨t, run, queue, list, current, state⟩ := ready.queue.rrEnqueue (fun waits => waits.2.2.2 rfl) slice
      rw [if_pos idle, if_pos ⟨runs, idle⟩]
      refine ⟨t, run, queue.congr fun p => ?_, list, current⟩
      rw [Waits, state]
      by_cases same : p = k.current
      · subst same
        simp [runs, idle, ready.running]
      · simp [same]
  · rw [if_neg runs, if_neg fun rejoin => runs rejoin.1, List.append_nil]
    refine ⟨k, rfl, ready.queue.congr fun p => ?_, rfl, rfl⟩
    exact ⟨fun waits => ⟨waits.1, waits.2.1, waits.2.2.1⟩, fun here =>
      ⟨here.1, here.2.1, here.2.2, fun same => runs (same ▸ here.2.1)⟩⟩

theorem schedule (ready : Ready live k) : ∃ t, Sched.schedule k = .ok t ∧ Ready live t ∧
    k.rq.runList ++ rejoins k.procs k.current = picks t.current ++ t.rq.runList := by
  let k0 := k.setProc k.current { k.procs k.current with needResched := false }
  have ready0 : Ready live k0 := ready.setCurrent (ready.queue.positive k.current ready.running)
  obtain ⟨k1, run1, queue1, list1, current1⟩ := ready0.enqueueRunning
  obtain ⟨next, k2, run2, head, queue2, list2, procs2, current2, chosen⟩ :=
    queue1.takeNext fun p here => here.2.1
  let k3 := k2.setProc next { k2.procs next with runs := (k2.procs next).runs + 1 }
  let t := { k3 with current := next }
  have ran : (if next ≠ k3.current then Sched.procRun k3 next else k3) = t := by
    split
    · rfl
    · have same : next = k3.current := not_not.mp ‹_›
      exact congrArg (fun p => ({ k3 with current := p } : Kernel)) same.symm
  have run : Sched.schedule k = .ok t := by
    rw [Sched.schedule, run1]
    simp only [bind, Except.bind, run2]
    exact congrArg Except.ok ran
  have queue3 := queue2.setState next { k2.procs next with runs := (k2.procs next).runs + 1 } rfl rfl
  have queue : Queues (fun p => (p ∈ live ∧ (k1.procs p).state = .runnable ∧ p ≠ idleproc) ∧ p ≠ next) live t :=
    { queue3 with members := queue3.members }
  have state : ∀ p, (t.procs p).state = (k1.procs p).state := fun p => by
    simp only [t, k3, setProc_procs, Function.update_apply, procs2]
    split <;> simp_all
  refine ⟨t, run, ⟨queue.congr fun p => ?_, ?_, ready.idle⟩, ?_⟩
  · rw [Waits, state]
    tauto
  · rcases chosen with waits | same
    · exact waits.1
    · rw [show t.current = idleproc from same]
      exact ready.idle
  · change _ = picks next ++ k2.rq.runList
    rw [list2, show k.rq.runList ++ rejoins k.procs k.current = k1.rq.runList by rw [list1]; simp [rejoins, k0]]
    have members := queue1.members
    cases same : k1.rq.runList with
    | nil =>
        rw [head, same]
        rfl
    | cons q rest =>
        rw [same] at head members
        obtain rfl : next = q := head
        rw [picks, if_pos ((members next).mp List.mem_cons_self).2.2]
        rfl

theorem schedClassProcTick (ready : Ready live k) : Ready live (Sched.schedClassProcTick k k.current) := by
  rw [Sched.schedClassProcTick]
  split
  · refine ready.setCurrent fun away => ?_
    have positive := ready.queue.positive k.current ready.running away
    repeat' split
    all_goals first | omega | (dsimp only; omega)
  · exact ready.setCurrent (ready.queue.positive k.current ready.running)

theorem insert (ready : Ready live k) (new : p ∉ live) (uninit : proc.state = .uninit) (slice : 0 ≤ proc.timeSlice) :
    Ready (Insert.insert p live) (k.setProc p proc) := by
  have off : p ∉ k.rq.runList := fun inside => new ((ready.queue.members p).mp inside).1
  have queue := ready.queue.setProc p proc (fun inside => absurd inside off) fun _ _ => slice
  have positive : ∀ q ∈ Insert.insert p live, q ≠ idleproc → 0 ≤ ((k.setProc p proc).procs q).timeSlice := by
    intro q member away
    rcases Finset.mem_insert.mp member with same | old
    · rw [same, setProc_procs, Function.update_self]
      exact slice
    · exact queue.positive q old away
  refine ⟨({ queue with positive := positive } : Queues (Waits live k) (Insert.insert p live) _).congr fun q => ?_,
    Finset.mem_insert_of_mem ready.running, Finset.mem_insert_of_mem ready.idle⟩
  simp only [Waits, setProc_procs, setProc_current, Function.update_apply, Finset.mem_insert]
  by_cases same : q = p
  · subst same
    simp [new, uninit]
  · simp [same]

theorem erase (ready : Ready live k) (notCurrent : p ≠ k.current) (notIdle : p ≠ idleproc)
    (asleep : (k.procs p).state ≠ .runnable) : Ready (live.erase p) k := by
  have queue : Queues (Waits live k) (live.erase p) k :=
    { ready.queue with positive := fun q member => ready.queue.positive q (Finset.mem_of_mem_erase member) }
  refine ⟨queue.congr fun q => ?_, Finset.mem_erase.mpr ⟨notCurrent.symm, ready.running⟩,
    Finset.mem_erase.mpr ⟨notIdle.symm, ready.idle⟩⟩
  rw [Waits, Waits, Finset.mem_erase]
  exact ⟨fun waits => ⟨⟨fun same => asleep (same ▸ waits.2.1), waits.1⟩, waits.2⟩, fun waits => ⟨waits.1.2, waits.2⟩⟩

end Ready

/-! ## Runs -/

/-- The kernel in memory is one whose queue is a list, from which processes were taken in
    the order in which they came. -/
def Good (s : Sys) : Prop :=
  ∃ k, Refines s.live s.machine k ∧ Ready s.live k ∧ s.enqueued = s.picked ++ k.rq.runList ∧
    s.live.card ≤ KMEMSIZE

theorem erase_refines {s : Machine} (refines : Refines live s k) : Refines (live.erase p) s k :=
  { refines with off := fun q member => refines.off q (Finset.mem_of_mem_erase member) }

theorem create_ready {s : Machine} (refines : Refines live s k) (ready : Ready live k) (new : p ∉ live)
    (uninit : proc.state = .uninit) (slice : 0 ≤ proc.timeSlice) :
    Refines (insert p live) { s.setProc p proc with links := listInit s.links (.runLink p) } (k.setProc p proc) ∧
      Ready (insert p live) (k.setProc p proc) := by
  have away : p ∉ k.rq.runList := fun inside => new ((ready.queue.members p).mp inside).1
  have kept := refines.setProc p proc
  refine ⟨⟨kept.procs, kept.procNum, kept.maxTimeSlice, kept.current, ?_, fun q here other => ?_⟩,
    ready.insert new uninit slice⟩
  · exact listInit_congr refines.ring (runLink_off away)
  · by_cases same : q = p
    · rw [same]
      exact listEmpty_listInit _ _
    · have empty := refines.off q ((Finset.mem_insert.mp here).resolve_left same) other
      rw [listEmpty, decide_eq_true_iff] at empty ⊢
      exact (Function.update_of_ne (fun eq => same (runLink_injective eq)) _ _).trans empty

theorem initial_good {s : Sys} (initial : Initial s) : Good s := by
  obtain ⟨m, queue⟩ := initial.queue
  refine ⟨⟨s.machine.procs, ⟨[], 0, MAX_TIME_SLICE⟩, idleproc⟩, ⟨rfl, ?_, initial.slice, initial.running, ?_, ?_⟩,
    ⟨⟨List.nodup_nil, ?_, by simp, by simp, ?_, rfl, ?_⟩, ?_, ?_⟩,
    by simp [initial.logs], ?_⟩
  · rw [queue]
    rfl
  · rw [queue]
    exact listInit_ring _ _
  · simpa [initial.live] using initial.linked
  · simp [Waits, initial.live]
  · simp [initial.live]
  · change (1 : Int) ≤ 5
    decide
  · simp [initial.live]
  · simp [initial.live]
  · simp [initial.live, KMEMSIZE]

theorem exec_good {s : Sys} {c : Call} (good : Good s) (legal : Legal Initialised s c) :
    (∃ t, exec s c = .ok t ∧ Good t) ∨ ∃ p, c = .wakeup p ∧ (s.machine.procs p).state = .zombie := by
  obtain ⟨k, refines, ready, fifo, few⟩ := good
  have procs := refines.procs
  have current := refines.current
  cases c with
  | create p proc =>
      obtain ⟨new, room, uninit, slice⟩ := legal
      obtain ⟨refines', ready'⟩ := create_ready refines ready new uninit slice
      refine Or.inl ⟨_, rfl, k.setProc p proc, refines', ready', fifo, ?_⟩
      exact (Finset.card_insert_le p s.live).trans room
  | free p =>
      obtain ⟨notCurrent, notIdle, ended⟩ := legal
      have asleep : (k.procs p).state ≠ .runnable := fun same => by
        rw [procs, same] at ended
        simp at ended
      refine Or.inl ⟨_, rfl, k, erase_refines refines, ready.erase ?_ notIdle asleep, fifo, ?_⟩
      · exact fun same => notCurrent (same.trans current.symm)
      · exact (Finset.card_erase_le).trans few
  | wakeup p =>
      by_cases zombie : (s.machine.procs p).state = .zombie
      · exact Or.inr ⟨p, rfl, zombie⟩
      · rw [procs] at zombie
        obtain ⟨k', run, ready', list⟩ := ready.wakeupProc legal zombie
        obtain ⟨m, run, refines'⟩ := wakeupProc_refines refines legal run
        let t := { s with machine := m, enqueued := s.enqueued ++ joins s.machine.procs s.current p }
        have ran : exec s (.wakeup p) = .ok t := by
          rw [exec, run]
          rfl
        refine Or.inl ⟨t, ran, k', refines', ready', ?_, few⟩
        simp only [t, fifo, list, List.append_assoc, procs, Sys.current, current]
  | sleep waitState =>
      refine Or.inl ⟨_, rfl, k.setProc k.current { k.procs k.current with state := .sleeping, waitState := waitState },
        ?_, ready.setCurrent (ready.queue.positive k.current ready.running), fifo, few⟩
      rw [← current, ← procs]
      exact refines.setProc s.current _
  | exit =>
      refine Or.inl ⟨_, rfl, k.setProc k.current { k.procs k.current with state := .zombie },
        ?_, ready.setCurrent (ready.queue.positive k.current ready.running), fifo, few⟩
      rw [← current, ← procs]
      exact refines.setProc s.current _
  | tick =>
      refine Or.inl ⟨_, rfl, Sched.schedClassProcTick k k.current, ?_, ready.schedClassProcTick, ?_, few⟩
      · rw [Sys.current, current]
        exact schedClassProcTick_refines refines
      · rw [Sched.schedClassProcTick_rq]
        exact fifo
  | schedule =>
      obtain ⟨k', run, ready', list⟩ := ready.schedule
      obtain ⟨m, run, refines'⟩ := schedule_refines refines ready.running run
      let t := { s with
        machine := m
        enqueued := s.enqueued ++ rejoins s.machine.procs s.current
        picked := s.picked ++ picks m.current }
      have ran : exec s .schedule = .ok t := by
        rw [exec, run]
        rfl
      refine Or.inl ⟨t, ran, k', refines', ready', ?_, few⟩
      simp only [t, fifo, List.append_assoc, procs, Sys.current, current, list, refines'.current]

theorem reached_good {s : Sys} (reached : Reachable Initial (Step Initialised) s) : Good s := by
  refine reached.invariant Good (fun _ => initial_good) fun s t good taken => ?_
  obtain ⟨c, legal, ran⟩ := taken
  rcases exec_good good legal with ⟨u, run, good'⟩ | ⟨p, rfl, zombie⟩
  · rw [run] at ran
    cases ran
    exact good'
  · simp [exec, wakeupProc, zombie, assert, bind, Except.bind] at ran

/-- The run queue is the ring of those who wait for the processor, each with time to run,
    and processes were picked in the order in which they were enqueued. -/
structure Sound (s : Sys) (queue : List Pid) : Prop where
  ring : IsRing s.machine.links .runList (queue.map .runLink)
  nodup : queue.Nodup
  members : ∀ p, p ∈ queue ↔
    p ∈ s.live ∧ (s.machine.procs p).state = .runnable ∧ p ≠ idleproc ∧ p ≠ s.current
  procNum : s.machine.procNum.toNat = queue.length
  slices : ∀ p ∈ queue,
    1 ≤ (s.machine.procs p).timeSlice ∧ (s.machine.procs p).timeSlice ≤ s.machine.maxTimeSlice
  fifo : s.enqueued = s.picked ++ queue

theorem Good.sound {s : Sys} (good : Good s) : ∃ queue, Sound s queue := by
  obtain ⟨k, refines, ready, fifo, few⟩ := good
  refine ⟨k.rq.runList, refines.ring, ready.queue.nodup, fun p => ?_, ?_, fun p inside => ?_, fifo⟩
  · rw [ready.queue.members, Waits, refines.procs, Sys.current, refines.current]
  · have part : k.rq.runList.length ≤ s.live.card := by
      rw [← List.toFinset_card_of_nodup ready.queue.nodup]
      refine Finset.card_le_card fun p inside => ?_
      exact ((ready.queue.members p).mp (List.mem_toFinset.mp inside)).1
    have small : k.rq.runList.length < 2 ^ 32 := by
      have := part.trans few
      rw [KMEMSIZE] at this
      omega
    rw [refines.procNum, ready.queue.count, BitVec.toNat_ofNat, Nat.mod_eq_of_lt small]
  · rw [refines.procs, refines.maxTimeSlice]
    exact ready.queue.slices p inside

/-- As long as `alloc_proc` sets the state and the time slice, the queue is sound in every
    state, and a call fails only where it wakes up a process that has ended. -/
theorem reached_sound {s : Sys} (reached : Reachable Initial (Step Initialised) s) :
    (∃ queue, Sound s queue) ∧ ∀ c, Legal Initialised s c →
      (∃ t, exec s c = .ok t) ∨ ∃ p, c = .wakeup p ∧ (s.machine.procs p).state = .zombie := by
  have good := reached_good reached
  refine ⟨good.sound, fun c legal => ?_⟩
  exact (exec_good good legal).imp_left fun ⟨t, run, _⟩ => ⟨t, run⟩

/-! ## Two runs -/

def allocated (timeSlice : Int) : Proc := ⟨.uninit, 0, false, 0, timeSlice, false⟩

def booted : Sys where
  machine := rrInit ⟨fun _ => ⟨.runnable, 0, true, 0, 0, false⟩, ⟨id, id⟩, 0, MAX_TIME_SLICE, idleproc⟩
  live := {idleproc}
  enqueued := []
  picked := []

theorem booted_initial : Initial booted := ⟨⟨_, rfl⟩, rfl, rfl, rfl, rfl, rfl, rfl⟩

/-- A process is created and woken. -/
def started (timeSlice : Int) : Sys :=
  let s := { booted with
    machine := { booted.machine.setProc 1 (allocated timeSlice) with
      links := listInit booted.machine.links (.runLink 1) }
    live := {1, idleproc} }
  match exec s (.wakeup 1) with
  | .ok t => t
  | .error _ => s

theorem started_reached {fresh : Proc → Prop} (timeSlice : Int) (legal : fresh (allocated timeSlice)) :
    Reachable Initial (Step fresh) (started timeSlice) := by
  have first : Reachable Initial (Step fresh) _ :=
    (Reachable.start booted_initial).next ⟨.create 1 (allocated timeSlice), ⟨by decide, by decide, legal⟩, rfl⟩
  exact first.next ⟨.wakeup 1, Finset.mem_insert_self 1 _, rfl⟩

theorem reached_sound_started :
    (∃ queue, Sound (started 0) queue) ∧ ∀ c, Legal Initialised (started 0) c →
      (∃ t, exec (started 0) c = .ok t) ∨ ∃ p, c = .wakeup p ∧ ((started 0).machine.procs p).state = .zombie :=
  reached_sound (started_reached 0 ⟨rfl, by decide⟩)

/-- A process whose time slice was never set is enqueued with what it has. -/
theorem unset_slice_enqueued : ∃ s, Reachable Initial (Step fun _ => True) s ∧ ¬ ∃ queue, Sound s queue := by
  refine ⟨started (-1), started_reached (-1) trivial, fun ⟨queue, sound⟩ => ?_⟩
  have slice := (sound.slices 1 ((sound.members 1).mpr ⟨by decide, by decide, by decide, by decide⟩)).1
  exact absurd slice (by decide)

end Ucore.Schedule.RunQueueRuns
