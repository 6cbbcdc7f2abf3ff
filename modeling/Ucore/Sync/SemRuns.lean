import Ucore.Lib.Run
import Ucore.Sync.Sem

/-! # Runs of a semaphore

Any number of processes call `up`, `down` and `try_down`, and are switched in any
order: by `down` itself, or by an interrupt between any two steps.
-/

namespace Ucore.Sync.SemRuns

open Lib.Run Lib.Ring Libs.Assert Libs.List Schedule.Sched Sem

/-- Where a process is in `down`: elsewhere, before its call of `schedule`, or in it. -/
inductive Place where
  | elsewhere
  | queued
  | switched
  deriving DecidableEq, Repr

/-- The semaphore, the place of each process, and what happened so far: the value at
    the start, the calls of `up`, the calls that took a unit at once, the processes in
    the order in which they queued, and in the order in which they were granted one. -/
structure Sys where
  sem : Semaphore
  place : Pid → Place
  start : Int
  ups : Nat
  direct : Nat
  queuedLog : List Pid
  grantLog : List Pid

inductive Call where
  | up
  | tryDown
  | downBegin
  | downSwitch
  | downEnd
  | preempt
  | others (kernel : Kernel)

abbrev Sys.current (s : Sys) : Pid := s.sem.kernel.current

def Sys.setPlace (s : Sys) (place : Place) : Sys :=
  { s with place := Function.update s.place s.current place }

def Sys.switch (s : Sys) : Result Sys := do
  let kernel ← schedule s.sem.kernel
  pure { s with sem := { s.sem with kernel := kernel } }

def exec (s : Sys) : Call → Result Sys
  | .up => do
      let sem ← Sem.up s.sem
      pure { s with
        sem := sem
        ups := s.ups + 1
        grantLog := s.grantLog ++ (waitQueueFirst s.sem).toList }
  | .tryDown =>
      let (sem, taken) := Sem.tryDown s.sem
      pure { s with sem := sem, direct := if taken then s.direct + 1 else s.direct }
  | .downBegin => do
      let (sem, taken) ← Sem.downBegin s.sem WT_KSEM
      if taken then pure { s with sem := sem, direct := s.direct + 1 }
      else pure { s.setPlace .queued with sem := sem, queuedLog := s.queuedLog ++ [s.current] }
  | .downSwitch => (s.setPlace .switched).switch
  | .downEnd => do
      let (sem, flags) ← Sem.downEnd s.sem WT_KSEM
      assert (flags = 0)
      pure { s.setPlace .elsewhere with sem := sem }
  | .preempt => s.switch
  | .others kernel => pure { s with sem := { s.sem with kernel := kernel } }

/-- The running process goes on where it is. Nobody but the semaphore changes the state
    of a process that is in `down`, the idle process does not wait, and no `up` finds
    the value at the largest `int`. -/
def Legal (s : Sys) : Call → Prop
  | .up => s.place s.current = .elsewhere ∧
      (listEmpty s.sem.links .waitHead = true → s.sem.value + 1 < 2 ^ 31)
  | .tryDown => s.place s.current = .elsewhere
  | .downBegin => s.place s.current = .elsewhere ∧ (s.current = idleproc → 0 < s.sem.value)
  | .downSwitch => s.place s.current = .queued
  | .downEnd => s.place s.current = .switched
  | .preempt => True
  | .others kernel => Queued kernel ∧ kernel.current = s.current ∧
      ∀ p, s.place p ≠ .elsewhere → (kernel.procs p).state = (s.sem.kernel.procs p).state ∧
        (kernel.procs p).waitState = (s.sem.kernel.procs p).waitState

def Step (s t : Sys) : Prop := ∃ c, Legal s c ∧ exec s c = .ok t

/-- After `sem_init` with a value that is not negative. -/
structure Booted (s : Sys) : Prop where
  empty : IsRing s.sem.links .waitHead []
  value : s.sem.value = s.start
  start : 0 ≤ s.start ∧ s.start < 2 ^ 31
  kernel : Queued s.sem.kernel
  place : ∀ p, s.place p = .elsewhere
  nothing : s.ups = 0 ∧ s.direct = 0 ∧ s.queuedLog = [] ∧ s.grantLog = []

/-! ## The invariant -/

/-- A process in the queue sleeps until it is granted a unit. -/
structure Waiting (p : Pid) (place : Place) (proc : Proc) (wait : Wait) : Prop where
  place : place ≠ .elsewhere
  state : proc.state = .sleeping
  waitState : proc.waitState = WT_KSEM
  wait : wait = ⟨some p, WT_INTERRUPTED, true⟩
  blocking : p ≠ idleproc

/-- A process in `down` that is out of the queue was granted a unit. -/
structure Granted (p : Pid) (links : Links Node) (wait : Wait) : Prop where
  off : links.next (.waitLink p) = .waitLink p
  flags : wait.wakeupFlags = WT_KSEM

/-- The queue holds the processes `q`. -/
structure Inv (s : Sys) (q : List Pid) : Prop where
  ring : IsRing s.sem.links .waitHead (q.map .waitLink)
  value : 0 ≤ s.sem.value ∧ s.sem.value < 2 ^ 31
  idle : 0 < s.sem.value → q = []
  kernel : Queued s.sem.kernel
  waiting : ∀ p ∈ q, Waiting p (s.place p) (s.sem.kernel.procs p) (s.sem.waits p)
  granted : ∀ p, s.place p ≠ .elsewhere → p ∉ q → Granted p s.sem.links (s.sem.waits p)
  resumed : s.place s.current = .switched → s.current ∉ q
  account : s.direct + s.grantLog.length + s.sem.value = s.start + s.ups
  fifo : s.queuedLog = s.grantLog ++ q

theorem waitLink_injective : Function.Injective Node.waitLink := fun _ _ same => Node.waitLink.inj same

theorem off_ring {p : Pid} {q : List Pid} (outside : p ∉ q) :
    Node.waitLink p ∉ Node.waitHead :: q.map .waitLink := by
  simpa using outside

theorem waitQueueFirst_eq {s : Semaphore} {q : List Pid}
    (ring : IsRing s.links .waitHead (q.map .waitLink)) : waitQueueFirst s = q.head? := by
  rw [waitQueueFirst]
  cases q with
  | nil => rw [ring.next_head_nil]; rfl
  | cons p q => rw [ring.next_head_cons]; rfl

theorem booted_inv {s : Sys} (booted : Booted s) : Inv s [] := by
  obtain ⟨ups, direct, queuedLog, grantLog⟩ := booted.nothing
  refine ⟨booted.empty, by rw [booted.value]; exact booted.start, fun _ => rfl, booted.kernel, by simp, ?_,
    by simp, ?_, by rw [queuedLog, grantLog]; rfl⟩
  · exact fun p inside => absurd (booted.place p) inside
  · rw [ups, direct, grantLog, booted.value]
    simp

/-! ## Steps -/

variable {s : Sys} {q : List Pid}

/-- Waking the first waiter hands it the unit. -/
theorem wake_first {p : Pid} {rest : List Pid} (inv : Inv s (p :: rest)) :
    ∃ kernel, Woken s.sem.kernel p kernel ∧ Sem.up s.sem = .ok { s.sem with
      kernel := kernel
      links := listDelInit s.sem.links (.waitLink p)
      waits := Function.update s.sem.waits p ⟨some p, WT_KSEM, true⟩ } := by
  have waiting := inv.waiting p (by simp)
  have on : listEmpty s.sem.links (.waitLink p) = false :=
    listEmpty_member inv.ring (List.mem_map_of_mem (by simp))
  obtain ⟨kernel, runs, woken⟩ := wakeupProc_woken inv.kernel
    (show (s.sem.kernel.procs p).state ≠ .zombie by simp [waiting.state])
  refine ⟨kernel, woken, ?_⟩
  rw [Sem.up, upWith, waitQueueFirst_eq inv.ring]
  simp only [List.head?_cons, waiting.wait, assert_bind waiting.waitState, wakeupWait, if_true,
    waitQueueDel]
  rw [assert_pos ⟨on, trivial⟩]
  simp [Semaphore.setWait, waiting.wait, runs, bind, Except.bind, pure, Except.pure]

theorem up_inv (inv : Inv s q) (legal : Legal s .up) : ∃ t, exec s .up = .ok t ∧ Inv t q.tail := by
  obtain ⟨-, room⟩ := legal
  have value := inv.value
  have account := inv.account
  cases q with
  | nil =>
      have small := room ((listEmpty_iff inv.ring).mpr rfl)
      have first : waitQueueFirst s.sem = none := waitQueueFirst_eq (q := []) inv.ring
      have runs : Sem.up s.sem = .ok { s.sem with value := s.sem.value + 1 } := by
        rw [Sem.up, upWith, first, int32_eq (by omega) small]
        rfl
      refine ⟨_, by rw [exec, runs]; rfl, ?_⟩
      refine { inv with
        value := ⟨show 0 ≤ s.sem.value + 1 by omega, small⟩
        idle := fun _ => rfl
        account := ?_
        fifo := by simpa [first] using inv.fifo }
      simp only [first, Option.toList_none, List.append_nil]
      push_cast
      omega
  | cons p rest =>
      obtain ⟨kernel, woken, runs⟩ := wake_first inv
      have first : waitQueueFirst s.sem = some p := waitQueueFirst_eq (q := p :: rest) inv.ring
      have others : ∀ r ∈ rest, r ≠ p := fun r inside same =>
        (List.nodup_cons.mp ((List.nodup_map_iff waitLink_injective).mp inv.ring.nodes_nodup)).1
          (same ▸ inside)
      have empty : ¬ 0 < s.sem.value := fun positive => by simpa using inv.idle positive
      refine ⟨_, by rw [exec, runs]; rfl, ?_⟩
      refine
        { ring := listDelInit_ring (show IsRing s.sem.links .waitHead ([] ++ .waitLink p :: _) from inv.ring)
          value := value
          idle := fun positive => absurd positive empty
          kernel := woken.queued
          waiting := fun r (inside : r ∈ rest) => ?_
          granted := fun r place outside => ?_
          resumed := fun place inside => ?_
          account := ?_
          fifo := ?_ }
      · simp only [woken.others r (others r inside), Function.update_of_ne (others r inside)]
        exact inv.waiting r (by simp [inside])
      · by_cases same : r = p
        · subst same
          exact ⟨of_decide_eq_true (listEmpty_listInit _ _), by simp⟩
        · have before := inv.granted r place (by simpa [same] using outside)
          have off : Node.waitLink r ∉ Node.waitHead :: (p :: rest).map .waitLink :=
            off_ring (by simpa [same] using outside)
          refine ⟨?_, by simpa [Function.update_of_ne same] using before.flags⟩
          rw [listDelInit_off inv.ring (by simp) off]
          exact before.off
      · simp only [Sys.current, woken.current] at place inside
        exact inv.resumed place (List.mem_of_mem_tail inside)
      · simp only [first, Option.toList_some, List.length_append, List.length_singleton]
        push_cast
        omega
      · simpa [first] using inv.fifo

/-- A unit taken at once. -/
theorem take_inv (inv : Inv s q) (positive : 0 < s.sem.value) :
    Inv { s with sem := { s.sem with value := s.sem.value - 1 }, direct := s.direct + 1 } q := by
  have value := inv.value
  have account := inv.account
  refine { inv with
    value := ⟨show 0 ≤ s.sem.value - 1 by omega, show s.sem.value - 1 < 2 ^ 31 by omega⟩
    idle := fun _ => inv.idle positive
    account := ?_ }
  push_cast
  omega

theorem tryDown_inv (inv : Inv s q) : ∃ t, exec s .tryDown = .ok t ∧ Inv t q := by
  have value := inv.value
  by_cases positive : 0 < s.sem.value
  · refine ⟨_, ?_, take_inv inv positive⟩
    rw [exec, tryDown, if_pos positive, int32_eq (by omega) (by omega)]
    rfl
  · refine ⟨s, ?_, inv⟩
    rw [exec, tryDown, if_neg positive]
    rfl

/-- A process that finds no unit goes to sleep at the end of the queue. -/
theorem queue_inv (inv : Inv s q) (legal : Legal s .downBegin) (empty : ¬ 0 < s.sem.value) :
    ∃ t, exec s .downBegin = .ok t ∧ Inv t (q ++ [s.current]) := by
  obtain ⟨place, idle⟩ := legal
  have outside : s.current ∉ q := fun inside => (inv.waiting _ inside).place place
  have off := off_ring outside
  have cleared := listInit_congr inv.ring off
  have free : listEmpty (listInit s.sem.links (.waitLink s.current)) (.waitLink s.current) = true :=
    listEmpty_listInit _ _
  have runs : waitCurrentSet s.sem WT_KSEM = .ok
      { s.sem with
        kernel := s.sem.kernel.setProc s.current
          { s.sem.kernel.procs s.current with state := .sleeping, waitState := WT_KSEM }
        links := listAddBefore (listInit s.sem.links (.waitLink s.current)) .waitHead (.waitLink s.current)
        waits := Function.update s.sem.waits s.current ⟨some s.current, WT_INTERRUPTED, true⟩ } := by
    rw [waitCurrentSet, waitQueueAdd, assert_bind ⟨free, by simp [waitInit, Semaphore.setWait]⟩]
    simp [waitInit, Semaphore.setWait, pure, Except.pure]
  refine ⟨_, by rw [exec, downBegin, if_neg empty, runs]; rfl, ?_⟩
  have others : ∀ p, p ≠ s.current → p ∈ q ++ [s.current] → p ∈ q := by
    intro p other inside
    simpa [other] using inside
  refine
    { ring := ?_
      value := inv.value
      idle := fun positive => absurd positive empty
      kernel := inv.kernel.setCurrent _
      waiting := fun p inside => ?_
      granted := fun p elsewhere away => ?_
      resumed := fun switched => by simp [Sys.setPlace, Sys.current] at switched
      account := inv.account
      fifo := ?_ }
  · rw [List.map_append]
    exact cleared.insert_last off
  · by_cases same : p = s.current
    · subst same
      refine ⟨by simp [Sys.setPlace], by simp, by simp, by simp, fun idleproc => ?_⟩
      exact empty (idle idleproc)
    · simp only [Sys.setPlace, setProc_procs, Function.update_of_ne same]
      exact inv.waiting p (others p same inside)
  · have same : p ≠ s.current := fun same => away (by simp [same])
    have before : Granted p s.sem.links (s.sem.waits p) := by
      refine inv.granted p ?_ fun inside => away (by simp [inside])
      simpa [Sys.setPlace, same] using elsewhere
    have other : Node.waitLink p ≠ .waitLink s.current := fun eq => same (waitLink_injective eq)
    have outer : Node.waitLink p ∉ Node.waitHead :: q.map .waitLink :=
      off_ring fun inside => away (by simp [inside])
    refine ⟨?_, by simpa [Function.update_of_ne same] using before.flags⟩
    rw [listAddBefore_off _ cleared (by simp) outer other]
    exact (Function.update_of_ne other _ _).trans before.off
  · rw [inv.fifo, List.append_assoc]
    rfl

theorem downBegin_inv (inv : Inv s q) (legal : Legal s .downBegin) :
    ∃ t q', exec s .downBegin = .ok t ∧ Inv t q' := by
  have value := inv.value
  by_cases positive : 0 < s.sem.value
  · refine ⟨_, q, ?_, take_inv inv positive⟩
    rw [exec, downBegin, if_pos positive, int32_eq (by omega) (by omega)]
    rfl
  · obtain ⟨t, runs, kept⟩ := queue_inv inv legal positive
    exact ⟨t, _, runs, kept⟩

/-- Switching away: who runs next was not waiting. -/
theorem switch_inv (inv : Inv s q) {place : Pid → Place}
    (same : ∀ p, place p = .elsewhere ↔ s.place p = .elsewhere) :
    ∃ t, ({ s with place := place } : Sys).switch = .ok t ∧ Inv t q := by
  obtain ⟨kernel, runs, scheduled⟩ := schedule_scheduled inv.kernel
  refine ⟨_, by rw [Sys.switch, runs]; rfl, ?_⟩
  have chosen : kernel.current ∉ q := by
    intro inside
    have waiting := inv.waiting _ inside
    cases scheduled.chosen with
    | inl idle => exact waiting.blocking idle
    | inr ready => simp [waiting.state] at ready
  refine { inv with
    kernel := scheduled.queued
    waiting := fun p inside => ?_
    granted := fun p elsewhere => inv.granted p fun before => elsewhere ((same p).mpr before)
    resumed := fun _ => chosen }
  obtain ⟨elsewhere, state, waitState, wait, blocking⟩ := inv.waiting p inside
  exact ⟨fun before => elsewhere ((same p).mp before), by rw [(scheduled.same p).1, state],
    by rw [(scheduled.same p).2, waitState], wait, blocking⟩

theorem downEnd_inv (inv : Inv s q) (legal : Legal s .downEnd) : ∃ t, exec s .downEnd = .ok t ∧ Inv t q := by
  have outside := inv.resumed legal
  have granted := inv.granted s.current (by rw [show s.place s.current = _ from legal]; simp) outside
  have off : waitInQueue s.sem s.current = false := by simp [waitInQueue, listEmpty, granted.off]
  have ends : Sem.downEnd s.sem WT_KSEM = .ok (s.sem, 0) := by
    simp only [Sem.downEnd, waitCurrentDel, off]
    simp [granted.flags, bind, Except.bind, pure, Except.pure]
  refine ⟨s.setPlace .elsewhere, ?_, ?_⟩
  · rw [exec, ends]
    rfl
  refine { inv with
    waiting := fun p inside => ?_
    granted := fun p elsewhere away => ?_
    resumed := fun switched => by simp [Sys.setPlace, Sys.current] at switched }
  · have other : p ≠ s.current := fun same => outside (same ▸ inside)
    simp only [Sys.setPlace, Function.update_of_ne other]
    exact inv.waiting p inside
  · have other : p ≠ s.current := fun same => elsewhere (by simp [Sys.setPlace, same])
    exact inv.granted p (by simpa [Sys.setPlace, other] using elsewhere) away

theorem others_inv (inv : Inv s q) {kernel : Kernel} (legal : Legal s (.others kernel)) :
    Inv { s with sem := { s.sem with kernel := kernel } } q := by
  obtain ⟨queued, current, untouched⟩ := legal
  refine { inv with
    kernel := queued
    waiting := fun p inside => ?_
    resumed := fun switched => ?_ }
  · obtain ⟨place, state, waitState, wait, blocking⟩ := inv.waiting p inside
    exact ⟨place, by rw [(untouched p place).1, state], by rw [(untouched p place).2, waitState], wait,
      blocking⟩
  · simp only [Sys.current, current] at switched ⊢
    exact inv.resumed switched

/-- No assertion fails, and the invariant is kept. -/
theorem legal_inv (inv : Inv s q) {c : Call} (legal : Legal s c) :
    ∃ t q', exec s c = .ok t ∧ Inv t q' := by
  cases c with
  | up =>
      obtain ⟨t, runs, kept⟩ := up_inv inv legal
      exact ⟨t, _, runs, kept⟩
  | tryDown =>
      obtain ⟨t, runs, kept⟩ := tryDown_inv inv
      exact ⟨t, _, runs, kept⟩
  | downBegin => exact downBegin_inv inv legal
  | downSwitch =>
      have same : ∀ p, Function.update s.place s.current .switched p = .elsewhere ↔
          s.place p = .elsewhere := by
        intro p
        by_cases itself : p = s.current
        · have place : s.place s.current = .queued := legal
          simp [itself, place]
        · rw [Function.update_of_ne itself]
      obtain ⟨t, runs, kept⟩ := switch_inv inv same
      exact ⟨t, _, runs, kept⟩
  | downEnd =>
      obtain ⟨t, runs, kept⟩ := downEnd_inv inv legal
      exact ⟨t, _, runs, kept⟩
  | preempt =>
      obtain ⟨t, runs, kept⟩ := switch_inv inv fun _ => Iff.rfl
      exact ⟨t, _, runs, kept⟩
  | others kernel => exact ⟨_, _, rfl, others_inv inv legal⟩

/-! ## Runs -/

theorem reached_inv (reached : Reachable Booted Step s) : ∃ q, Inv s q := by
  refine reached.invariant (fun s => ∃ q, Inv s q) (fun s booted => ⟨[], booted_inv booted⟩) ?_
  intro s t ⟨q, inv⟩ ⟨c, legal, runs⟩
  obtain ⟨t', q', runs', kept⟩ := legal_inv inv legal
  obtain rfl := Except.ok.inj (runs.symm.trans runs')
  exact ⟨q', kept⟩

/-- What holds of a semaphore at any time. Units are neither lost nor made up, and
    waiters are granted theirs in the order in which they came: the processes granted
    one so far and those still in the queue are the ones that queued, in that order. -/
structure Safe (s : Sys) : Prop where
  nonneg : 0 ≤ s.sem.value
  idle : 0 < s.sem.value → listEmpty s.sem.links .waitHead = true
  account : s.direct + s.grantLog.length + s.sem.value = s.start + s.ups
  fifo : ∃ q, IsRing s.sem.links .waitHead (q.map .waitLink) ∧ s.queuedLog = s.grantLog ++ q ∧
    (s.place s.current = .switched → s.current ∉ q)
  asserts : ∀ c, Legal s c → ∃ t, exec s c = .ok t

theorem reached_safe (reached : Reachable Booted Step s) : Safe s := by
  obtain ⟨q, inv⟩ := reached_inv reached
  refine ⟨inv.value.1, ?_, inv.account, ⟨q, inv.ring, inv.fifo, inv.resumed⟩, ?_⟩
  · intro positive
    exact (listEmpty_iff inv.ring).mpr (by simp [inv.idle positive])
  · intro c legal
    obtain ⟨t, q', runs, -⟩ := legal_inv inv legal
    exact ⟨t, runs⟩

/-- A semaphore of a given value, the running process and those on the run queue. -/
def semInit (value : Int) (current : Pid) (runList : List Pid) : Sys where
  sem :=
    { kernel :=
        { procs := fun _ => ⟨.runnable, 0, false, 0, 0, true⟩
          rq := ⟨runList, runList.length, 5⟩
          current := current }
      value := value
      links := listInit ⟨fun _ => .waitHead, fun _ => .waitHead⟩ .waitHead
      waits := fun _ => ⟨none, 0, false⟩ }
  place _ := .elsewhere
  start := value
  ups := 0
  direct := 0
  queuedLog := []
  grantLog := []

theorem semInit_booted {value : Int} {current : Pid} {runList : List Pid} (nonneg : 0 ≤ value)
    (small : value < 2 ^ 31) (nodup : (current :: runList).Nodup) :
    Booted (semInit value current runList) where
  empty := listInit_ring _ _
  value := rfl
  start := ⟨nonneg, small⟩
  kernel := ⟨(List.nodup_cons.mp nodup).2, fun _ _ => rfl, (List.nodup_cons.mp nodup).1, fun _ _ => rfl⟩
  place _ := rfl
  nothing := ⟨rfl, rfl, rfl, rfl⟩

/-- The calls of `sem.c` that are legal, as a test. -/
def allowed (s : Sys) : Call → Bool
  | .up => s.place s.current = .elsewhere ∧
      (listEmpty s.sem.links .waitHead = true → s.sem.value + 1 < 2 ^ 31)
  | .tryDown => s.place s.current = .elsewhere
  | .downBegin => s.place s.current = .elsewhere ∧ (s.current = idleproc → 0 < s.sem.value)
  | .downSwitch => s.place s.current = .queued
  | .downEnd => s.place s.current = .switched
  | .preempt => true
  | .others _ => false

def trial (s : Sys) (c : Call) : Option Sys :=
  if allowed s c then (exec s c).toOption else none

theorem trial_step (s : Sys) (c : Call) (t : Sys) (taken : trial s c = some t) : Step s t := by
  unfold trial at taken
  split at taken
  · rename_i fine
    refine ⟨c, ?_, toOption_some.mp taken⟩
    cases c with
    | preempt => trivial
    | others => cases fine
    | _ =>
        simp only [allowed, decide_eq_true_eq] at fine
        exact fine
  · cases taken

/-- One process waits for a unit, and another gives one. -/
theorem handOff_safe : ∃ t, play trial (semInit 0 1 [2]) [.downBegin, .downSwitch, .up] = some t ∧
    t.grantLog = [1] ∧ Safe t := by
  have played : (play trial (semInit 0 1 [2]) [.downBegin, .downSwitch, .up]).map Sys.grantLog =
      some [1] := by
    decide
  obtain ⟨t, played, granted⟩ := Option.map_eq_some_iff.mp played
  have booted : Booted (semInit 0 1 [2]) := semInit_booted (by decide) (by decide) (by decide)
  exact ⟨t, played, granted, reached_safe (play_reachable trial_step (.start booted) played)⟩

/-- Without the two conditions on the callers, the value wraps around, and an idle process
    that waits is scheduled again before it was granted a unit. -/
theorem up_overflows_idle_asserts :
    (Booted (semInit (2 ^ 31 - 1) 1 []) ∧ ∃ t, exec (semInit (2 ^ 31 - 1) 1 []) .up = .ok t ∧
      t.sem.value = -2 ^ 31) ∧
    (Booted (semInit 0 idleproc []) ∧
      [.downBegin, .downSwitch, .downEnd].foldlM exec (semInit 0 idleproc []) = .error .assertion) :=
  ⟨⟨semInit_booted (by decide) (by decide) (by decide), _, rfl, by decide⟩,
    semInit_booted (by decide) (by decide) (by decide), rfl⟩

end Ucore.Sync.SemRuns
