import Ucore.Lib.Run
import Ucore.Schedule.TimerCalls

/-! # Runs of the timer list

Over any legal calls in any order, a timer fires in the tick it was set to.
-/

namespace Ucore.Schedule.TimerRuns

open Lib.Run Lib.Ring Lib.Deltas Libs.Assert Libs.List Sched TimerList TimerCalls

/-- The call returns, whatever fuel there is from some bound on. -/
def Returns (s : Sys) (c : Call) (r : Sys × List (Nat × Pid)) : Prop :=
  ∃ bound, ∀ fuel, bound ≤ fuel → exec fuel s c = .ok r

theorem Returns.unique {s : Sys} {c : Call} {r r' : Sys × List (Nat × Pid)} (returns : Returns s c r)
    (returns' : Returns s c r') : r = r' := by
  obtain ⟨bound, run⟩ := returns
  obtain ⟨bound', run'⟩ := returns'
  have same := (run (max bound bound') (by omega)).symm.trans (run' _ (by omega))
  exact Except.ok.inj same

/-- A legal call and what it woke. -/
def Step (s : Sys) (done : Call × List (Nat × Pid)) (t : Sys) : Prop :=
  Legal s done.1 ∧ Returns s done.1 (t, done.2)

/-- After `sched_init`. -/
structure Booted (s : Sys) : Prop where
  empty : IsRing s.timers.links .timerList []
  known : s.known = []
  queued : Queued s.timers.kernel


/-- What a call does to the times of the timers it is not about. -/
structure Effect (s : Sys) (xs : List Nat) (c : Call) (fired : List (Nat × Pid)) (t : Sys)
    (ys : List Nat) : Prop where
  idle : Idle t ys
  known : s.known ⊆ t.known
  proc : ∀ x, (∀ p e, c ≠ .timerInit x p e) → t.timers.proc x = s.timers.proc x
  times : ∀ x, ¬ c.Touches x → due s.timers.expires xs x =
    if x ∈ fired.map Prod.fst then some 1 else (due t.timers.expires ys x).map (· + c.ticks)
  gone : ∀ x ∈ fired.map Prod.fst, x ∉ ys
  nodup : (fired.map Prod.fst).Nodup
  owners : ∀ e ∈ fired, s.timers.proc e.1 = some e.2
  quiet : c.ticks = 0 → fired = []
  added : ∀ x, c = .addTimer x → due t.timers.expires ys x = some (s.timers.expires x)

theorem Effect.silent {s t : Sys} {xs ys : List Nat} {c : Call} (idle : Idle t ys)
    (known : s.known ⊆ t.known)
    (proc : ∀ x, (∀ p e, c ≠ .timerInit x p e) → t.timers.proc x = s.timers.proc x) (untimed : c.ticks = 0)
    (times : ∀ x, ¬ c.Touches x → due s.timers.expires xs x = due t.timers.expires ys x)
    (added : ∀ x, c = .addTimer x → due t.timers.expires ys x = some (s.timers.expires x)) :
    Effect s xs c [] t ys where
  idle := idle
  known := known
  proc := proc
  times x away := by simp [untimed, times x away]
  gone := by simp
  nodup := by simp
  owners := by simp
  quiet _ := rfl
  added := added

theorem timerInit_effect {s : Sys} {xs : List Nat} (idle : Idle s xs) {x : Nat} {p : Option Pid}
    {e : BitVec 32} (legal : Legal s (.timerInit x p e)) :
    Effect s xs (.timerInit x p e) [] ⟨timerInit s.timers x p e, x :: s.known⟩ xs := by
  have away : x ∉ xs := fun inside => legal (idle.pending_iff.mpr inside)
  have apart : ∀ y ∈ xs, y ≠ x := fun y inside same => away (same ▸ inside)
  have expires : ∀ y ∈ xs, (timerInit s.timers x p e).expires y = s.timers.expires y :=
    fun y inside => Function.update_of_ne (apart y inside) _ _
  have proc : ∀ y, y ≠ x → (timerInit s.timers x p e).proc y = s.timers.proc y :=
    fun y other => Function.update_of_ne other _ _
  refine .silent ⟨⟨listInit_congr idle.ring (Listed.off_ring away), ?_, ?_, ?_, ?_, ?_, idle.queued⟩, ?_⟩
    (List.subset_cons_self _ _) (fun y other => proc y fun same => other p e (same ▸ rfl)) rfl
    (fun y _ => (due_congr expires y).symm) (fun _ other => by cases other)
  · exact fun y inside => List.mem_cons_of_mem _ (idle.known y inside)
  · intro y known outside
    by_cases same : y = x
    · subst same
      exact listEmpty_listInit _ _
    · have other : Node.timerLink y ≠ .timerLink x := fun eq => same (timerLink_injective eq)
      have kept : (listInit s.timers.links (.timerLink x)).next (.timerLink y) =
          s.timers.links.next (.timerLink y) := Function.update_of_ne other _ _
      show decide ((listInit s.timers.links (.timerLink x)).next (.timerLink y) = _) = true
      rw [kept]
      exact idle.off y (by simpa [same] using known) outside
  · exact (span_congr expires).trans_lt idle.small
  · intro y known
    by_cases same : y = x
    · subst same
      simp [timerInit, Timers.setExpires, e.isLt]
    · have kept : (timerInit s.timers x p e).expires y = s.timers.expires y :=
        Function.update_of_ne same _ _
      exact kept.trans_lt (idle.word y (by simpa [same] using known))
  · intro y inside
    rw [proc y (apart y inside)]
    exact idle.wakeable y inside
  · intro y first
    rw [expires y (List.mem_of_mem_head? first)]
    exact idle.ahead y first

theorem delTimer_effect {s : Sys} {xs : List Nat} (idle : Idle s xs) {x : Nat}
    (legal : Legal s (.delTimer x)) :
    ∃ ys, Effect s xs (.delTimer x) [] { s with timers := delTimer s.timers x } ys := by
  by_cases inside : x ∈ xs
  · obtain ⟨before, after, rfl⟩ := List.append_of_mem inside
    obtain ⟨listed, left⟩ := delTimer_listed idle.toListed
    refine ⟨before ++ after, .silent ⟨listed, ?_⟩ (List.Subset.refl _) (by simp [left]) rfl ?_
      (fun _ other => by cases other)⟩
    · intro y first
      rw [left]
      cases before with
      | nil =>
          obtain ⟨rest, rfl⟩ : ∃ rest, after = y :: rest := List.head?_eq_some_iff.mp first
          have := idle.ahead x rfl
          simp [close, this]
      | cons z before =>
          obtain rfl : z = y := by simpa using first
          have kept : close s.timers.expires after x z = s.timers.expires z :=
            close_of_ne fun later => (List.nodup_cons.mp idle.nodup).1
              (by simp [List.mem_of_mem_head? later])
          simp only [kept]
          exact idle.ahead z rfl
    · intro y other
      rw [left]
      exact (due_close idle.nodup fun same => other same.symm).symm
  · have off := idle.off x legal inside
    have same : delTimer s.timers x = s.timers := if_pos off
    exact ⟨xs, .silent (by rw [same]; exact idle) (List.Subset.refl _) (by simp [same]) rfl (by simp [same])
      (fun _ other => by cases other)⟩

/-- A legal call returns, and leaves the list idle. -/
theorem legal_returns {s : Sys} {xs : List Nat} (idle : Idle s xs) {c : Call} (legal : Legal s c) :
    ∃ t fired ys, Returns s c (t, fired) ∧ Effect s xs c fired t ys := by
  cases c with
  | timerInit timer proc expires => exact ⟨_, [], xs, ⟨0, fun _ _ => rfl⟩, timerInit_effect idle legal⟩
  | addTimer x =>
      obtain ⟨front, back, timers, split, run, idle', procs, times⟩ := addTimer_spec idle legal
      refine ⟨{ s with timers := timers }, [], front ++ x :: back, ⟨xs.length + 1, fun fuel enough => ?_⟩,
        .silent idle' (List.Subset.refl _) (fun y _ => by rw [procs]) rfl ?_ ?_⟩
      · simp only [exec, run fuel (by omega)]
        rfl
      · intro y other
        rw [times y, if_neg fun same => other same.symm]
      · intro y same
        cases same
        rw [times x, if_pos rfl]
  | delTimer timer =>
      obtain ⟨ys, effect⟩ := delTimer_effect idle legal
      exact ⟨_, [], ys, ⟨0, fun _ _ => rfl⟩, effect⟩
  | runTimerList =>
      obtain ⟨ys, t, fired, run, idle', procs, nodup, gone, owners, times⟩ := runTimerList_spec idle
      refine ⟨{ s with timers := t }, fired, ys, ⟨xs.length, fun fuel enough => ?_⟩, idle',
        List.Subset.refl _, fun y _ => by rw [procs], fun y _ => times y, gone, nodup, owners, (by cases ·),
        fun _ => (by cases ·)⟩
      simp only [exec, run fuel enough]
      rfl
  | others kernel =>
      obtain ⟨queued, wakeable⟩ := legal
      refine ⟨_, [], xs, ⟨0, fun _ _ => rfl⟩, .silent ⟨{ idle.toListed with queued := queued, wakeable := ?_ },
        idle.ahead⟩ (List.Subset.refl _) (fun _ _ => rfl) rfl (fun _ _ => rfl) (fun _ other => by cases other)⟩
      intro x inside
      obtain ⟨p, proc, -⟩ := idle.wakeable x inside
      exact ⟨p, proc, wakeable x (idle.pending_iff.mpr inside) p proc⟩

theorem step_effect {s t : Sys} {xs : List Nat} {c : Call} {fired : List (Nat × Pid)}
    (idle : Idle s xs) (taken : Step s (c, fired) t) : ∃ ys, Effect s xs c fired t ys := by
  obtain ⟨legal, returns⟩ := taken
  obtain ⟨t', fired', ys, returns', effect⟩ := legal_returns idle legal
  obtain ⟨rfl, rfl⟩ := Prod.mk.inj (returns.unique returns')
  exact ⟨ys, effect⟩

theorem reached_idle {s : Sys} (reached : Reached Booted Step s) : ∃ xs, Idle s xs := by
  refine reached.invariant (fun s => ∃ xs, Idle s xs) ?_ ?_
  · intro s booted
    exact ⟨[], ⟨booted.empty, by simp, by simp [booted.known], by simp, by simp [booted.known], by simp,
      booted.queued⟩, by simp⟩
  · rintro s t ⟨xs, idle⟩ ⟨call, taken⟩
    obtain ⟨ys, effect⟩ := step_effect idle taken
    exact ⟨ys, effect.idle⟩

/-- What each call of `run_timer_list` in a run woke. -/
def ticksOf (trace : List (Call × List (Nat × Pid))) : List (List (Nat × Pid)) :=
  (trace.filter fun done => done.1.ticks = 1).map Prod.snd

/-- The processes woken for one timer. -/
def wokenFor (x : Nat) (fired : List (Nat × Pid)) : List (Nat × Pid) := fired.filter (·.1 = x)

theorem wokenFor_once {fired : List (Nat × Pid)} {x : Nat} {p : Pid} (nodup : (fired.map Prod.fst).Nodup)
    (inside : x ∈ fired.map Prod.fst) (owner : ∀ e ∈ fired, e.1 = x → e.2 = p) :
    wokenFor x fired = [(x, p)] := by
  induction fired with
  | nil => simp at inside
  | cons e fired ih =>
      rw [List.map_cons, List.nodup_cons] at nodup
      by_cases same : e.1 = x
      · have rest : ∀ e' ∈ fired, e'.1 ≠ x := fun e' later eq =>
          nodup.1 (List.mem_map.mpr ⟨e', later, eq.trans same.symm⟩)
        have empty : fired.filter (·.1 = x) = [] := List.filter_eq_nil_iff.mpr (by simpa using rest)
        have head : e = (x, p) := Prod.ext same (owner e (by simp) same)
        rw [wokenFor, List.filter_cons_of_pos (by simpa using same), empty, head]
      · have later := ih nodup.2 (by simpa [Ne.symm same] using inside)
          fun e' member => owner e' (by simp [member])
        rwa [wokenFor, List.filter_cons_of_neg (by simpa using same)]

theorem wokenFor_none {fired : List (Nat × Pid)} {x : Nat} (outside : x ∉ fired.map Prod.fst) :
    wokenFor x fired = [] :=
  List.filter_eq_nil_iff.mpr fun e inside same =>
    outside (List.mem_map.mpr ⟨e, inside, by simpa using same⟩)

theorem due_ne_zero {s : Sys} {xs : List Nat} (idle : Idle s xs) (x : Nat) :
    due s.timers.expires xs x ≠ some 0 := by
  intro now
  have front : due s.timers.expires ([] ++ xs) x = some 0 := now
  simpa using (due_eq_zero (by simp) idle.ahead).mp front

theorem Effect.fires {s t : Sys} {xs ys : List Nat} {c : Call} {fired : List (Nat × Pid)}
    (effect : Effect s xs c fired t ys) (tick : c.ticks = 1) {x : Nat} (alone : ¬ c.Touches x) {p : Pid}
    (proc : s.timers.proc x = some p) :
    wokenFor x fired = (if due s.timers.expires xs x = some 1 then [(x, p)] else []) ∧
      ∀ n, due s.timers.expires xs x = some (n + 2) ↔ due t.timers.expires ys x = some (n + 1) := by
  have times := effect.times x alone
  rw [tick] at times
  by_cases now : x ∈ fired.map Prod.fst
  · have off : due t.timers.expires ys x = none := due_eq_none.mpr (effect.gone x now)
    rw [if_pos now] at times
    have owner : ∀ e ∈ fired, e.1 = x → e.2 = p := by
      intro e inside same
      have owned := effect.owners e inside
      rw [same, proc] at owned
      exact (Option.some.inj owned).symm
    exact ⟨by rw [times, wokenFor_once effect.nodup now owner]; rfl, by simp [times, off]⟩
  · rw [if_neg now] at times
    have ahead := due_ne_zero effect.idle x
    rw [times, wokenFor_none now]
    refine ⟨(if_neg ?_).symm, by simp⟩
    simpa using ahead

/-- A timer left alone is woken for in the tick its time says, and in no other. -/
theorem trace_fires {s t : Sys} {trace : List (Call × List (Nat × Pid))} (run : Trace Step s trace t)
    {xs : List Nat} (idle : Idle s xs) {x : Nat} {p : Pid} (alone : ∀ e ∈ trace, ¬ e.1.Touches x)
    (proc : s.timers.proc x = some p) :
    ∃ ys, Idle t ys ∧ s.known ⊆ t.known ∧
      (∀ i (inside : i < (ticksOf trace).length), wokenFor x (ticksOf trace)[i] =
        if due s.timers.expires xs x = some (i + 1) then [(x, p)] else []) ∧
      ∀ n, due s.timers.expires xs x = some ((ticksOf trace).length + n + 1) ↔
        due t.timers.expires ys x = some (n + 1) := by
  induction run generalizing xs with
  | nil s => exact ⟨xs, idle, List.Subset.refl _, by simp [ticksOf], fun n => by simp [ticksOf]⟩
  | @cons s u t done trace taken later ih =>
      obtain ⟨c, fired⟩ := done
      obtain ⟨ys, effect⟩ := step_effect idle taken
      have first : ¬ c.Touches x := alone (c, fired) (by simp)
      obtain ⟨zs, ended, known, rest, left⟩ := ih effect.idle (fun e inside => alone e (by simp [inside]))
        (by rw [effect.proc x fun _ _ same => first (same ▸ rfl), proc])
      refine ⟨zs, ended, List.Subset.trans effect.known known, ?_⟩
      by_cases tick : c.ticks = 1
      · obtain ⟨now, passed⟩ := effect.fires tick first proc
        have ticks : ticksOf ((c, fired) :: trace) = fired :: ticksOf trace := by simp [ticksOf, tick]
        simp only [ticks]
        constructor
        · intro i inside
          cases i with
          | zero => exact now
          | succ i =>
              rw [List.getElem_cons_succ, rest i (by simpa using inside)]
              simp only [passed i]
        · intro n
          rw [← left n, ← passed, List.length_cons]
          have sum : (ticksOf trace).length + 1 + n + 1 = (ticksOf trace).length + n + 2 := by omega
          rw [sum]
      · have zero : c.ticks = 0 := by cases c <;> simp_all [Call.ticks]
        have ticks : ticksOf ((c, fired) :: trace) = ticksOf trace := by simp [ticksOf, tick]
        have same : due s.timers.expires xs x = due u.timers.expires ys x := by
          rw [effect.times x first, effect.quiet zero, zero]
          simp
        simp only [ticks, same]
        exact ⟨rest, left⟩

/-- Between calls the first timer has ticks left and every legal call returns; and a
    timer that is added and left alone fires once, in the tick it was set to, and is
    off the list from then on. -/
structure OnTime (s : Sys) : Prop where
  ahead : ∀ y, s.timers.links.next .timerList = .timerLink y → s.timers.expires y ≠ 0
  returns : ∀ c, Legal s c → ∃ r, Returns s c r
  fires : ∀ x u v fired trace, Step s (.addTimer x, fired) u → Trace Step u trace v →
    (∀ e ∈ trace, ¬ e.1.Touches x) → ∃ p, s.timers.proc x = some p ∧
      (∀ i (inside : i < (ticksOf trace).length), wokenFor x (ticksOf trace)[i] =
        if i + 1 = s.timers.expires x then [(x, p)] else []) ∧
      (listEmpty v.timers.links (.timerLink x) = true ↔ s.timers.expires x ≤ (ticksOf trace).length)

theorem reached_onTime {s : Sys} (reached : Reached Booted Step s) : OnTime s := by
  obtain ⟨xs, idle⟩ := reached_idle reached
  refine ⟨?_, ?_, ?_⟩
  · intro y first
    rw [next_place idle.ring] at first
    cases xs with
    | nil => cases first
    | cons x xs =>
        obtain rfl : x = y := timerLink_injective first
        exact idle.ahead x rfl
  · intro c legal
    obtain ⟨t, fired, ys, returns, -⟩ := legal_returns idle legal
    exact ⟨_, returns⟩
  · intro x u v fired trace added run alone
    obtain ⟨known, -, positive, p, proc, -⟩ := added.1
    obtain ⟨ys, effect⟩ := step_effect idle added
    have owned : u.timers.proc x = some p := by rw [effect.proc x (by simp), proc]
    obtain ⟨zs, ended, known', fires, left⟩ := trace_fires run effect.idle alone owned
    rw [effect.added x rfl] at left
    refine ⟨p, proc, fun i inside => ?_, ?_⟩
    · rw [fires i inside, effect.added x rfl]
      simp [eq_comm]
    · have member := known' (effect.known known)
      constructor
      · intro off
        by_contra short
        have on : x ∈ zs := mem_iff_due.mpr ⟨_, (left (s.timers.expires x - (ticksOf trace).length - 1)).mp
          (by congr 1; omega)⟩
        simp [(ended.pending_iff.mpr on).2] at off
      · intro past
        refine ended.off x member fun on => ?_
        obtain ⟨n, later⟩ := mem_iff_due.mp on
        have nonzero := due_ne_zero ended x
        cases n with
        | zero => exact nonzero later
        | succ n =>
            have same := Option.some.inj ((left n).mpr later)
            omega

/-- After `sched_init`, with one process asleep. -/
def bootTimers : Timers where
  links := listInit ⟨fun _ => .timerList, fun _ => .timerList⟩ .timerList
  expires _ := 0
  proc _ := none
  kernel :=
    { procs p := ⟨if p = 1 then .sleeping else .runnable, if p = 1 then WT_TIMER else 0, false, 0, 0, false⟩
      rq := ⟨[], 0, 5⟩
      current := idleproc }

def armed : Sys := ⟨timerInit bootTimers 7 (some 1) 2, [7]⟩

theorem armed_onTime : Legal armed (.addTimer 7) ∧ OnTime armed := by
  have booted : Booted ⟨bootTimers, []⟩ :=
    ⟨listInit_ring _ _, rfl, ⟨List.nodup_nil, by simp [bootTimers], by simp [bootTimers], by simp [bootTimers]⟩⟩
  have fresh : Legal ⟨bootTimers, []⟩ (.timerInit 7 (some 1) 2) := by simp [Legal, Pending]
  have step : Step ⟨bootTimers, []⟩ (.timerInit 7 (some 1) 2, []) armed := ⟨fresh, 0, fun _ _ => rfl⟩
  refine ⟨⟨by simp [armed], ?_, by decide, 1, rfl, by decide, by decide⟩,
    reached_onTime ((Reachable.start booted).next ⟨_, step⟩)⟩
  intro pending
  exact absurd pending.2 (by decide)

end Ucore.Schedule.TimerRuns
