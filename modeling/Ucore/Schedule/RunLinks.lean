import Ucore.Libs.List
import Ucore.Schedule.Sched

/-! # The run queue in memory

`default_sched_c.c` on the list entries themselves: `run_list` of the run queue and the
`run_link` of each process. It does what the round-robin class of `Sched` does to a list
of processes.
-/

namespace Ucore.Schedule.RunLinks

open Lib.Ring Libs.Assert Libs.List

open Sched (Pid Proc Kernel idleproc)

inductive Node where
  | runList
  | runLink (p : Pid)
  deriving DecidableEq, Repr

theorem runLink_injective : Function.Injective Node.runLink := fun _ _ same => Node.runLink.inj same

/-- What `sched.c` and the run queue keep in memory. -/
structure Machine where
  procs : Pid → Proc
  links : Links Node
  procNum : BitVec 32
  maxTimeSlice : Int
  current : Pid

def Machine.setProc (s : Machine) (p : Pid) (proc : Proc) : Machine :=
  { s with procs := Function.update s.procs p proc }

/-! ## The round-robin class -/

def rrInit (s : Machine) : Machine := { s with links := listInit s.links .runList, procNum := 0 }

def rrEnqueue (s : Machine) (p : Pid) : Result Machine := do
  assert (listEmpty s.links (.runLink p) = true)
  let proc := s.procs p
  let slice :=
    if proc.timeSlice = 0 ∨ s.maxTimeSlice < proc.timeSlice then s.maxTimeSlice else proc.timeSlice
  pure { s.setProc p { proc with timeSlice := slice, queued := true } with
    links := listAddBefore s.links .runList (.runLink p), procNum := s.procNum + 1 }

def rrDequeue (s : Machine) (p : Pid) : Result Machine := do
  assert (listEmpty s.links (.runLink p) = false ∧ (s.procs p).queued = true)
  pure { s with links := listDelInit s.links (.runLink p), procNum := s.procNum - 1 }

def rrPickNext (s : Machine) : Option Pid :=
  match s.links.next .runList with
  | .runList => none
  | .runLink p => some p

def rrProcTick (s : Machine) (p : Pid) : Machine :=
  let proc := s.procs p
  let proc := if 0 < proc.timeSlice then { proc with timeSlice := proc.timeSlice - 1 } else proc
  let proc := if proc.timeSlice = 0 then { proc with needResched := true } else proc
  s.setProc p proc

/-! ## `sched.c` -/

def schedClassEnqueue (s : Machine) (p : Pid) : Result Machine :=
  if p ≠ idleproc then rrEnqueue s p else pure s

def schedClassProcTick (s : Machine) (p : Pid) : Machine :=
  if p ≠ idleproc then rrProcTick s p else s.setProc p { s.procs p with needResched := true }

def wakeupProc (s : Machine) (p : Pid) : Result Machine := do
  assert ((s.procs p).state ≠ .zombie)
  if (s.procs p).state ≠ .runnable then
    let s := s.setProc p { s.procs p with state := .runnable, waitState := 0 }
    if p ≠ s.current then schedClassEnqueue s p else pure s
  else pure s

def procRun (s : Machine) (p : Pid) : Machine := { s with current := p }

def enqueueRunning (s : Machine) : Result Machine :=
  if (s.procs s.current).state = .runnable then schedClassEnqueue s s.current else pure s

def takeNext (s : Machine) : Result (Pid × Machine) :=
  match rrPickNext s with
  | some p => do
      let s ← rrDequeue s p
      pure (p, s)
  | none => pure (idleproc, s)

def schedule (s : Machine) : Result Machine := do
  let s ← enqueueRunning (s.setProc s.current { s.procs s.current with needResched := false })
  let (next, s) ← takeNext s
  let s := s.setProc next { s.procs next with runs := (s.procs next).runs + 1 }
  pure (if next ≠ s.current then procRun s next else s)

/-! ## The list of processes -/

/-- The entries on `run_list` are those of the processes, in their order, and no other
    live process is linked to anything. -/
structure Refines (live : Finset Pid) (s : Machine) (k : Kernel) : Prop where
  procs : s.procs = k.procs
  procNum : s.procNum = k.rq.procNum
  maxTimeSlice : s.maxTimeSlice = k.rq.maxTimeSlice
  current : s.current = k.current
  ring : IsRing s.links .runList (k.rq.runList.map .runLink)
  off : ∀ p ∈ live, p ∉ k.rq.runList → listEmpty s.links (.runLink p) = true

variable {live : Finset Pid} {s t : Machine} {k k' : Kernel} {p : Pid}

theorem Refines.setProc (refines : Refines live s k) (p : Pid) (proc : Proc) :
    Refines live (s.setProc p proc) (k.setProc p proc) :=
  { refines with procs := by simp only [Machine.setProc, Sched.setProc_procs, refines.procs] }

theorem runLink_off {xs : List Pid} (away : p ∉ xs) : Node.runLink p ∉ Node.runList :: xs.map .runLink := by
  simpa using away

theorem rrEnqueue_refines (refines : Refines live s k) (member : p ∈ live)
    (run : Sched.rrEnqueue k p = .ok k') : ∃ t, rrEnqueue s p = .ok t ∧ Refines live t k' := by
  rw [Sched.rrEnqueue, assert_bind_ok] at run
  obtain ⟨away, run⟩ := run
  cases run
  rw [rrEnqueue, assert_bind (refines.off p member away)]
  refine ⟨_, rfl, ?_, ?_, refines.maxTimeSlice, refines.current, ?_, fun q here other => ?_⟩
  · simp only [Machine.setProc, Sched.setProc_procs, refines.procs, refines.maxTimeSlice]
  · rw [refines.procNum]
  · rw [List.map_append]
    exact refines.ring.insert_last (runLink_off away)
  · have apart : q ∉ k.rq.runList ∧ q ≠ p := by simpa using other
    have kept := refines.off q here apart.1
    have next := listAddBefore_off (.runLink p) refines.ring List.mem_cons_self (runLink_off apart.1)
      fun same => apart.2 (runLink_injective same)
    rw [listEmpty, decide_eq_true_iff] at kept ⊢
    exact next.trans kept

theorem rrDequeue_refines (refines : Refines live s k) (run : Sched.rrDequeue k p = .ok k') :
    ∃ t, rrDequeue s p = .ok t ∧ Refines live t k' := by
  rw [Sched.rrDequeue, assert_bind_ok] at run
  obtain ⟨⟨member, queued⟩, run⟩ := run
  cases run
  have linked : Node.runLink p ∈ k.rq.runList.map .runLink := List.mem_map_of_mem member
  rw [rrDequeue, assert_bind ⟨listEmpty_member refines.ring linked, by rw [refines.procs, queued]⟩]
  refine ⟨_, rfl, refines.procs, ?_, refines.maxTimeSlice, refines.current, ?_, fun q here other => ?_⟩
  · rw [refines.procNum]
  · rw [List.map_erase runLink_injective]
    exact listDelInit_erase refines.ring linked
  · by_cases same : q = p
    · rw [same]
      exact listEmpty_listInit _ _
    · have away : q ∉ k.rq.runList := fun inside => other ((List.mem_erase_of_ne same).mpr inside)
      have kept := refines.off q here away
      have next := listDelInit_off refines.ring (List.mem_cons_of_mem _ linked) (runLink_off away)
      rw [listEmpty, decide_eq_true_iff] at kept ⊢
      exact next.trans kept

theorem rrPickNext_refines (refines : Refines live s k) : rrPickNext s = Sched.rrPickNext k := by
  rw [rrPickNext, Sched.rrPickNext]
  have ring := refines.ring
  cases queue : k.rq.runList with
  | nil =>
      rw [queue] at ring
      rw [ring.next_head_nil]
      rfl
  | cons p rest =>
      rw [queue, List.map_cons] at ring
      rw [ring.next_head_cons]
      rfl

theorem schedClassProcTick_refines (refines : Refines live s k) :
    Refines live (schedClassProcTick s p) (Sched.schedClassProcTick k p) := by
  unfold schedClassProcTick Sched.schedClassProcTick
  rw [refines.procs]
  split
  · rw [rrProcTick, Sched.rrProcTick, refines.procs]
    exact refines.setProc p _
  · exact refines.setProc p _

theorem schedClassEnqueue_refines (refines : Refines live s k) (member : p ∈ live)
    (run : Sched.schedClassEnqueue k p = .ok k') : ∃ t, schedClassEnqueue s p = .ok t ∧ Refines live t k' := by
  unfold Sched.schedClassEnqueue at run
  unfold schedClassEnqueue
  split at run
  · rw [if_pos ‹_›]
    exact rrEnqueue_refines refines member run
  · rw [if_neg ‹_›]
    cases run
    exact ⟨s, rfl, refines⟩

theorem wakeupProc_refines (refines : Refines live s k) (member : p ∈ live)
    (run : Sched.wakeupProc k p = .ok k') : ∃ t, wakeupProc s p = .ok t ∧ Refines live t k' := by
  rw [Sched.wakeupProc, assert_bind_ok] at run
  obtain ⟨alive, run⟩ := run
  rw [wakeupProc, refines.procs, assert_bind alive]
  split at run
  · rw [if_pos ‹_›]
    have woken := refines.setProc p { k.procs p with state := .runnable, waitState := 0 }
    simp only at run ⊢
    rw [woken.current]
    split at run
    · rw [if_pos ‹_›]
      exact schedClassEnqueue_refines woken member run
    · rw [if_neg ‹_›]
      cases run
      exact ⟨_, rfl, woken⟩
  · rw [if_neg ‹_›]
    cases run
    exact ⟨s, rfl, refines⟩

theorem enqueueRunning_refines (refines : Refines live s k) (member : k.current ∈ live)
    (run : Sched.enqueueRunning k = .ok k') : ∃ t, enqueueRunning s = .ok t ∧ Refines live t k' := by
  unfold Sched.enqueueRunning at run
  unfold enqueueRunning
  rw [refines.procs, refines.current]
  split at run
  · rw [if_pos ‹_›]
    exact schedClassEnqueue_refines refines member run
  · rw [if_neg ‹_›]
    cases run
    exact ⟨s, rfl, refines⟩

theorem takeNext_refines (refines : Refines live s k)
    (run : Sched.takeNext k = .ok (p, k')) : ∃ t, takeNext s = .ok (p, t) ∧ Refines live t k' := by
  unfold Sched.takeNext at run
  unfold takeNext
  rw [rrPickNext_refines refines]
  cases next : Sched.rrPickNext k with
  | none =>
      rw [next] at run
      cases run
      exact ⟨s, rfl, refines⟩
  | some q =>
      rw [next] at run
      obtain ⟨u, dequeued, run⟩ := bind_ok.mp run
      cases run
      obtain ⟨t, run, refines'⟩ := rrDequeue_refines refines dequeued
      simp only [run]
      exact ⟨t, rfl, refines'⟩

theorem schedule_refines (refines : Refines live s k) (running : k.current ∈ live)
    (run : Sched.schedule k = .ok k') : ∃ t, schedule s = .ok t ∧ Refines live t k' := by
  rw [Sched.schedule] at run
  obtain ⟨k1, enqueued, run⟩ := bind_ok.mp run
  obtain ⟨⟨next, k2⟩, taken, run⟩ := bind_ok.mp run
  cases run
  have start := refines.setProc k.current { k.procs k.current with needResched := false }
  obtain ⟨s1, run1, refines1⟩ := enqueueRunning_refines start running enqueued
  obtain ⟨s2, run2, refines2⟩ := takeNext_refines refines1 taken
  have counted := refines2.setProc next { k2.procs next with runs := (k2.procs next).runs + 1 }
  rw [schedule, refines.procs, refines.current, run1]
  simp only [bind, Except.bind, run2]
  refine ⟨_, rfl, ?_⟩
  rw [refines2.procs, counted.current]
  split
  · exact { counted with current := rfl }
  · exact counted

end Ucore.Schedule.RunLinks
