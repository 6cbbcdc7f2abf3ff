import Ucore.Lib.Rounds
import Ucore.Lib.Run
import Ucore.Libs.List
import Ucore.Schedule.Sched

/-! # The scheduler of lab 5

There is no run queue yet: `schedule` goes round the list of all processes, from the one
that ran last to the next that is ready. Processes join at the head of the list when they
are forked, and leave it when they are reaped.
-/

namespace Ucore.Schedule.ProcList

open Lib.Ring Lib.Rounds Lib.Run Libs.Assert Libs.List

open Sched (Pid ProcState idleproc)

/-- The list entries: the head, and the `list_link` of each process. -/
inductive Node where
  | procList
  | listLink (p : Pid)
  deriving DecidableEq, Repr

structure Proc where
  state : ProcState
  waitState : BitVec 32
  needResched : Bool
  runs : Int
  deriving DecidableEq, Repr

structure Machine where
  procs : Pid → Proc
  links : Links Node
  nrProcess : Int
  current : Pid

def Machine.setProc (s : Machine) (p : Pid) (proc : Proc) : Machine :=
  { s with procs := Function.update s.procs p proc }

theorem setProc_state {s : Machine} (p : Pid) (proc : Proc) (state : proc.state = (s.procs p).state) (q : Pid) :
    ((s.setProc p proc).procs q).state = (s.procs q).state := by
  simp only [Machine.setProc, Function.update_apply]
  split
  · rw [state, ‹q = p›]
  · rfl

/-! ## `proc.c` and `sched.c` -/

/-- What `alloc_proc` sets. -/
def allocProc : Proc := ⟨.uninit, 0, false, 0⟩

def setLinks (s : Machine) (p : Pid) : Machine :=
  { s with links := listAdd s.links .procList (.listLink p), nrProcess := s.nrProcess + 1 }

def removeLinks (s : Machine) (p : Pid) : Machine :=
  { s with links := listDel s.links (.listLink p), nrProcess := s.nrProcess - 1 }

def wakeupProc (s : Machine) (p : Pid) : Result Machine := do
  assert ((s.procs p).state ≠ .zombie)
  if (s.procs p).state ≠ .runnable then
    pure (s.setProc p { s.procs p with state := .runnable, waitState := 0 })
  else pure s

def procRun (s : Machine) (p : Pid) : Machine := { s with current := p }

/-- The loop of `schedule` from the entry `le` on, with the process looked at last. -/
def search (s : Machine) (last : Node) : Nat → Node → Option Pid → Result (Option Pid)
  | 0, _, _ => .error .fuel
  | fuel + 1, le, next =>
      match s.links.next le with
      | .procList => if .procList ≠ last then search s last fuel .procList next else pure next
      | .listLink p =>
          if (s.procs p).state = .runnable then pure (some p)
          else if .listLink p ≠ last then search s last fuel (.listLink p) (some p)
          else pure (some p)

/-- The process that `schedule` makes of what the loop found. -/
def orIdle (s : Machine) : Option Pid → Pid
  | some p => if (s.procs p).state = .runnable then p else idleproc
  | none => idleproc

def schedule (fuel : Nat) (s : Machine) : Result Machine := do
  let s := s.setProc s.current { s.procs s.current with needResched := false }
  let last := if s.current = idleproc then .procList else .listLink s.current
  let next ← search s last fuel last none
  let next := orIdle s next
  let s := s.setProc next { s.procs next with runs := (s.procs next).runs + 1 }
  pure (if next ≠ s.current then procRun s next else s)

/-! ## The system -/

inductive Call where
  | fork (p : Pid)
  | wakeup (p : Pid)
  | sleep (waitState : BitVec 32)
  | exit
  | reap (p : Pid)
  | schedule (fuel : Nat)

/-- A forked process is woken by a call of its own. -/
def exec (s : Machine) : Call → Result Machine
  | .fork p => pure (setLinks (s.setProc p allocProc) p)
  | .wakeup p => wakeupProc s p
  | .sleep waitState =>
      pure (s.setProc s.current { s.procs s.current with state := .sleeping, waitState := waitState })
  | .exit => pure (s.setProc s.current { s.procs s.current with state := .zombie })
  | .reap p => pure (removeLinks s p)
  | .schedule fuel => schedule fuel s

def OnList (s : Machine) (p : Pid) : Prop :=
  ∃ xs : List Pid, IsRing s.links .procList (xs.map .listLink) ∧ p ∈ xs

/-- A forked process is a new one. A process is reaped by another one when it has ended. -/
def Legal (s : Machine) : Call → Prop
  | .fork p => ¬ OnList s p ∧ p ≠ idleproc
  | .reap p => OnList s p ∧ (s.procs p).state = .zombie ∧ p ≠ s.current
  | .exit => s.current ≠ idleproc
  | .wakeup _ | .sleep _ | .schedule _ => True

inductive Event where
  | selected (p : Pid)
  | forked (p : Pid)
  | other
  deriving DecidableEq, Repr

/-- What happened in a call that ended in the state `t`. -/
def event (t : Machine) : Call → Event
  | .schedule _ => .selected t.current
  | .fork p => .forked p
  | .wakeup _ | .sleep _ | .exit | .reap _ => .other

def Step (s : Machine) (e : Event) (t : Machine) : Prop :=
  ∃ c, Legal s c ∧ exec s c = .ok t ∧ e = event t c

/-- After `list_init(&proc_list)`, with the idle process running. -/
def Initial (s : Machine) : Prop := (∃ l, s.links = listInit l .procList) ∧ s.current = idleproc

/-! ## The list -/

structure Inv (s : Machine) (xs : List Pid) : Prop where
  ring : IsRing s.links .procList (xs.map .listLink)
  idle : idleproc ∉ xs
  current : s.current = idleproc ∨ s.current ∈ xs

variable {s t : Machine} {xs : List Pid} {p x : Pid} {fuel : Nat}

def Node.proc : Node → Option Pid
  | .procList => none
  | .listLink p => some p

theorem listLink_injective : Function.Injective Node.listLink := fun _ _ same => Node.listLink.inj same

@[simp] theorem filterMap_listLink (xs : List Pid) : xs.filterMap (Node.proc ∘ Node.listLink) = xs :=
  List.filterMap_some

def ready (s : Machine) (p : Pid) : Bool := (s.procs p).state = .runnable

/-- On its way to the last entry the loop finds the first process that is ready. -/
theorem search_spec (fuel : Nat) {last le : Node} {nodes : List Node} {next : Option Pid}
    (path : Path s.links (le :: (nodes ++ [last]))) (off : last ∉ nodes) (stays : orIdle s next = idleproc) :
    (nodes.length < fuel → ∃ r, search s last fuel le next = .ok r) ∧
      ∀ r, search s last fuel le next = .ok r →
        orIdle s r = (((nodes ++ [last]).filterMap Node.proc).find? (ready s)).getD idleproc := by
  induction fuel generalizing le nodes next with
  | zero => exact ⟨by omega, fun r run => nomatch run⟩
  | succ fuel ih =>
      have asleep : ∀ p, (s.procs p).state ≠ .runnable → orIdle s (some p) = idleproc := fun p away => if_neg away
      cases nodes with
      | nil =>
          have step : s.links.next le = last := (List.isChain_cons_cons.mp path).1.1
          rw [search, step]
          cases last with
          | procList =>
              refine ⟨fun _ => ⟨next, if_neg (by simp)⟩, fun r run => ?_⟩
              rw [if_neg (by simp)] at run
              cases run
              exact stays
          | listLink p =>
              have run : (if (s.procs p).state = .runnable then pure (some p)
                  else if Node.listLink p ≠ .listLink p then search s (.listLink p) fuel (.listLink p) (some p)
                  else pure (some p) : Result (Option Pid)) = .ok (some p) := by
                split
                · rfl
                · rw [if_neg (by simp)]
                  rfl
              refine ⟨fun _ => ⟨some p, run⟩, fun r ran => ?_⟩
              cases run.symm.trans ran
              by_cases runs : (s.procs p).state = .runnable <;> simp [orIdle, Node.proc, ready, runs]
      | cons n nodes =>
          have step : s.links.next le = n := (List.isChain_cons_cons.mp path).1.1
          have later : Path s.links (n :: (nodes ++ [last])) := (List.isChain_cons_cons.mp path).2
          have apart : n ≠ last := fun same => off (same ▸ List.mem_cons_self)
          have offLater : last ∉ nodes := List.not_mem_of_not_mem_cons off
          cases n with
          | procList =>
              have run : search s last (fuel + 1) le next = search s last fuel .procList next := by
                rw [search, step]
                exact if_pos apart
              obtain ⟨total, sound⟩ := ih later offLater stays
              rw [run]
              exact ⟨fun enough => total (Nat.lt_of_succ_lt_succ enough), sound⟩
          | listLink p =>
              by_cases runs : (s.procs p).state = .runnable
              · have run : search s last (fuel + 1) le next = .ok (some p) := by
                  rw [search, step]
                  exact if_pos runs
                refine ⟨fun _ => ⟨some p, run⟩, fun r ran => ?_⟩
                cases run.symm.trans ran
                simp [orIdle, Node.proc, ready, runs]
              · have run : search s last (fuel + 1) le next = search s last fuel (.listLink p) (some p) := by
                  rw [search, step]
                  exact (if_neg runs).trans (if_pos apart)
                obtain ⟨total, sound⟩ := ih later offLater (asleep p runs)
                rw [run]
                refine ⟨fun enough => total (Nat.lt_of_succ_lt_succ enough), fun r run => ?_⟩
                rw [sound r run]
                simp [Node.proc, ready, runs]

/-- Where `schedule` starts to look, and where it ends. -/
def lastOf (current : Pid) : Node := if current = idleproc then .procList else .listLink current

theorem Inv.round (inv : Inv s xs) : ∃ nodes, Path s.links (lastOf s.current :: (nodes ++ [lastOf s.current])) ∧
    lastOf s.current ∉ nodes ∧ nodes.length ≤ xs.length ∧
    (nodes ++ [lastOf s.current]).filterMap Node.proc = around xs s.current := by
  rw [lastOf]
  by_cases idle : s.current = idleproc
  · rw [if_pos idle, idle, around_off inv.idle]
    exact ⟨xs.map .listLink, inv.ring.path, inv.ring.head_not_mem, by simp, by simp [Node.proc, List.filterMap_cons]⟩
  · rw [if_neg idle]
    obtain ⟨before, after, same, first⟩ := List.eq_append_cons_of_mem (inv.current.resolve_left idle)
    have ring := inv.ring
    rw [same, List.map_append, List.map_cons] at ring
    refine ⟨after.map .listLink ++ .procList :: before.map .listLink, ?_, ?_, ?_, ?_⟩
    · simpa using ring.path_around
    · have apart := (List.nodup_cons.mp (List.nodup_append.mp (same ▸ inv.ring.nodes_nodup.of_map _)).2.1).1
      simp [first, apart]
    · rw [same]
      simp
      omega
    · rw [same, around_at first]
      simp [Node.proc, List.filterMap_cons]

/-- The first process in its turn that is ready is selected, or else the idle one. -/
theorem schedule_spec (fuel : Nat) (inv : Inv s xs) :
    (∃ t, schedule (xs.length + 1) s = .ok t) ∧ ∀ t, schedule fuel s = .ok t →
      t.current = ((around xs s.current).find? (ready s)).getD idleproc ∧ t.links = s.links ∧
        ∀ p, (t.procs p).state = (s.procs p).state := by
  obtain ⟨nodes, path, off, few, order⟩ := inv.round
  let s0 := s.setProc s.current { s.procs s.current with needResched := false }
  have state : ∀ p, (s0.procs p).state = (s.procs p).state := setProc_state _ _ rfl
  have same : ready s0 = ready s := by
    funext p
    rw [ready, ready, state]
  have stays : orIdle s0 none = idleproc := rfl
  have found := fun fuel => search_spec fuel (s := s0) path off stays
  refine ⟨?_, fun t run => ?_⟩
  · obtain ⟨r, run⟩ := (found (xs.length + 1)).1 (by omega)
    exact ⟨_, bind_ok.mpr ⟨r, run, rfl⟩⟩
  · obtain ⟨r, searched, run⟩ := bind_ok.mp run
    have selected : orIdle s0 r = ((around xs s.current).find? (ready s)).getD idleproc := by
      rw [(found fuel).2 r searched, order, same]
    simp only [pure, Except.pure, Except.ok.injEq] at run
    rw [← selected, ← run]
    refine ⟨?_, ?_, fun p => ?_⟩
    · split
      · rfl
      · rename_i stays
        exact (not_not.mp stays).symm
    · split <;> rfl
    · let counted := { s0.procs (orIdle s0 r) with runs := (s0.procs (orIdle s0 r)).runs + 1 }
      have kept := (setProc_state (orIdle s0 r) counted rfl p).trans (state p)
      split <;> exact kept

theorem schedule_returns (inv : Inv s xs) (enough : xs.length < fuel) : ∃ t, schedule fuel s = .ok t := by
  obtain ⟨nodes, path, off, few, -⟩ := inv.round
  let s0 := s.setProc s.current { s.procs s.current with needResched := false }
  have stays : orIdle s0 none = idleproc := rfl
  obtain ⟨r, run⟩ := (search_spec fuel (s := s0) path off stays).1 (by omega)
  exact ⟨_, bind_ok.mpr ⟨r, run, rfl⟩⟩

/-! ## Runs -/

namespace Inv

theorem onList (inv : Inv s xs) : OnList s p ↔ p ∈ xs := by
  refine ⟨fun ⟨ys, ring, member⟩ => ?_, fun member => ⟨xs, inv.ring, member⟩⟩
  rw [List.map_injective_iff.mpr listLink_injective (inv.ring.unique ring)]
  exact member

theorem nodup (inv : Inv s xs) : xs.Nodup := inv.ring.nodes_nodup.of_map _

theorem fork (inv : Inv s xs) (new : p ∉ xs) (other : p ≠ idleproc) :
    Inv (setLinks (s.setProc p allocProc) p) (p :: xs) := by
  refine ⟨?_, by simpa using ⟨other.symm, inv.idle⟩, inv.current.imp_right (List.mem_cons_of_mem p)⟩
  exact inv.ring.insert_first (by simpa using new)

theorem reap (inv : Inv s xs) (member : p ∈ xs) (other : p ≠ s.current) : Inv (removeLinks s p) (xs.erase p) := by
  refine ⟨?_, fun inside => inv.idle (List.mem_of_mem_erase inside), ?_⟩
  · rw [List.map_erase listLink_injective]
    exact listDel_erase inv.ring (List.mem_map_of_mem member)
  · exact inv.current.imp_right (List.mem_erase_of_ne other.symm).mpr

theorem setProc (inv : Inv s xs) (p : Pid) (proc : Proc) : Inv (s.setProc p proc) xs :=
    ⟨inv.ring, inv.idle, inv.current⟩

theorem wakeup (inv : Inv s xs) (run : wakeupProc s p = .ok t) : Inv t xs ∧ t.current = s.current := by
  obtain ⟨-, run⟩ := assert_bind_ok.mp run
  split at run
  · cases run
    exact ⟨inv.setProc p _, rfl⟩
  · cases run
    exact ⟨inv, rfl⟩

theorem selected (inv : Inv s xs) (run : schedule fuel s = .ok t) :
    t.current = idleproc ∧ (∀ p ∈ xs, (s.procs p).state ≠ .runnable) ∨
      ∃ before after, around xs s.current = before ++ t.current :: after ∧
        (s.procs t.current).state = .runnable ∧ ∀ p ∈ before, (s.procs p).state ≠ .runnable := by
  obtain ⟨current, -, -⟩ := (schedule_spec _ inv).2 t run
  cases found : (around xs s.current).find? (ready s) with
  | none =>
      rw [found] at current
      refine Or.inl ⟨current, fun p member => ?_⟩
      simpa [ready] using List.find?_eq_none.mp found p (mem_around.mpr member)
  | some q =>
      rw [found] at current
      obtain ⟨runs, before, after, split, none_⟩ := List.find?_eq_some_iff_append.mp found
      refine Or.inr ⟨before, after, by rw [split, current]; rfl, ?_, ?_⟩
      · rw [current]
        simpa [ready] using runs
      · simpa [ready] using none_

theorem schedule (inv : Inv s xs) (run : ProcList.schedule fuel s = .ok t) : Inv t xs := by
  obtain ⟨-, links, -⟩ := (schedule_spec _ inv).2 t run
  refine ⟨links ▸ inv.ring, inv.idle, ?_⟩
  rcases inv.selected run with ⟨idle, -⟩ | ⟨before, after, split, -⟩
  · exact Or.inl idle
  · exact Or.inr (mem_of_found split)

end Inv

/-- The processes on the list after a call. -/
theorem step_inv {e : Event} (inv : Inv s xs) (step : Step s e t) : ∃ ys, Inv t ys := by
  obtain ⟨c, legal, run, rfl⟩ := step
  cases c with
  | fork p =>
      cases run
      exact ⟨p :: xs, inv.fork (fun member => legal.1 (inv.onList.mpr member)) legal.2⟩
  | wakeup p => exact ⟨xs, (inv.wakeup run).1⟩
  | sleep waitState =>
      cases run
      exact ⟨xs, inv.setProc _ _⟩
  | exit =>
      cases run
      exact ⟨xs, inv.setProc _ _⟩
  | reap p =>
      cases run
      exact ⟨xs.erase p, inv.reap (inv.onList.mp legal.1) legal.2.2⟩
  | schedule fuel => exact ⟨xs, inv.schedule run⟩

theorem initial_inv (initial : Initial s) : Inv s [] := by
  obtain ⟨⟨l, links⟩, current⟩ := initial
  exact ⟨links ▸ listInit_ring l _, List.not_mem_nil, Or.inl current⟩

/-- A process is ready and on the list. -/
def Stays (p : Pid) (s : Machine) : Prop := (s.procs p).state = .runnable ∧ OnList s p

/-- A step before and after which `p` is ready and on the list. -/
def Keeping (p : Pid) (s : Machine) (e : Event) (t : Machine) : Prop := Step s e t ∧ Stays p s ∧ Stays p t

theorem step_selected {q : Pid} (step : Step s (.selected q) t) : ∃ fuel, schedule fuel s = .ok t ∧ q = t.current := by
  obtain ⟨c, -, run, label⟩ := step
  cases c with
  | schedule fuel => exact ⟨fuel, run, Event.selected.inj label⟩
  | fork p => simp [event] at label
  | wakeup p => simp [event] at label
  | sleep waitState => simp [event] at label
  | exit => simp [event] at label
  | reap p => simp [event] at label

/-- As long as `p` is not selected, nothing joins those before it but new processes, and
    those that were selected are no longer before it. -/
theorem step_precedes {e : Event} (inv : Inv s xs) (keeping : Keeping p s e t) (behind : ¬ Precedes xs s.current x p)
    (unselected : e ≠ .selected p) (once : e ≠ .forked x) :
    e ≠ .selected x ∧ ∃ ys, Inv t ys ∧ ¬ Precedes ys t.current x p := by
  obtain ⟨⟨c, legal, run, rfl⟩, ⟨runs, listed⟩, -⟩ := keeping
  have member : p ∈ xs := inv.onList.mp listed
  cases c with
  | fork q =>
      cases run
      have new : q ∉ xs := fun inside => legal.1 (inv.onList.mpr inside)
      refine ⟨by simp [event], q :: xs, inv.fork new legal.2, fun precedes => behind ?_⟩
      refine precedes_cons new ?_ ?_ (fun same => new (same ▸ member)) precedes
      · rintro rfl
        exact inv.current.elim legal.2 new
      · rintro rfl
        exact once rfl
  | wakeup q =>
      obtain ⟨inv', current⟩ := inv.wakeup run
      exact ⟨by simp [event], xs, inv', current ▸ behind⟩
  | sleep waitState =>
      cases run
      exact ⟨by simp [event], xs, inv.setProc _ _, behind⟩
  | exit =>
      cases run
      exact ⟨by simp [event], xs, inv.setProc _ _, behind⟩
  | reap q =>
      cases run
      refine ⟨by simp [event], xs.erase q, inv.reap (inv.onList.mp legal.1) legal.2.2, fun precedes => behind ?_⟩
      exact precedes_erase legal.2.2 precedes
  | schedule fuel =>
      rcases inv.selected run with ⟨-, nobody⟩ | ⟨before, after, split, -, asleep⟩
      · exact absurd runs (nobody p member)
      have later : p ∉ before := fun inside => asleep p inside runs
      have other : p ≠ t.current := fun same => unselected (congrArg Event.selected same.symm)
      refine ⟨fun same => behind ?_, xs, inv.schedule run, fun precedes => behind ?_⟩
      · obtain rfl : t.current = x := Event.selected.inj same
        have here : p ∈ after := by
          have inside := mem_around (c := s.current).mpr member
          rw [split] at inside
          simpa [later, other] using inside
        rw [Precedes, split]
        exact ((List.singleton_sublist.mpr here).cons_cons t.current).trans (List.sublist_append_right before _)
      · exact precedes_next inv.nodup split later other precedes

theorem run_precedes {labels : List Event} (inv : Inv s xs) (behind : ¬ Precedes xs s.current x p)
    (run : Trace (Keeping p) s labels t) (once : .forked x ∉ labels) (unselected : .selected p ∉ labels) :
    ∃ ys, Inv t ys ∧ ¬ Precedes ys t.current x p := by
  induction run generalizing xs with
  | nil s => exact ⟨xs, inv, behind⟩
  | cons taken later ih =>
      simp only [List.mem_cons, not_or] at once unselected
      obtain ⟨-, ys, inv, behind⟩ := step_precedes inv taken behind (Ne.symm unselected.1) (Ne.symm once.1)
      exact ih inv behind once.2 unselected.2

theorem run_inv {labels : List Event} (inv : Inv s xs) (run : Trace (Keeping p) s labels t) : ∃ ys, Inv t ys := by
  induction run generalizing xs with
  | nil s => exact ⟨xs, inv⟩
  | cons taken later ih =>
      obtain ⟨ys, inv⟩ := step_inv inv taken.1
      exact ih inv

/-- Once `x` was selected, it is not before `p`. -/
theorem selected_behind (inv : Inv s xs) (keeping : Keeping p s (.selected x) t) :
    Inv t xs ∧ ¬ Precedes xs t.current x p := by
  obtain ⟨step, ⟨runs, listed⟩, -⟩ := keeping
  obtain ⟨fuel, run, rfl⟩ := step_selected step
  refine ⟨inv.schedule run, ?_⟩
  rcases inv.selected run with ⟨-, nobody⟩ | ⟨before, after, split, -⟩
  · exact absurd runs (nobody p (inv.onList.mp listed))
  · exact cursor_last inv.nodup (mem_of_found split)

/-- A process that stays ready and on the list is selected before any other one is selected
    twice. The idle process is selected only if nobody is ready, and otherwise one that is. -/
theorem reached_fair (reached : Reached Initial Step s) :
    (∃ fuel t, schedule fuel s = .ok t) ∧
    (∀ q t, Step s (.selected q) t →
      q = idleproc ∧ (∀ p, OnList s p → (s.procs p).state ≠ .runnable) ∨
        OnList s q ∧ (s.procs q).state = .runnable) ∧
    ∀ p x t before mid after,
      Trace (Keeping p) s (before ++ .selected x :: mid ++ .selected x :: after) t → x ≠ p →
        .forked x ∉ mid → .selected p ∈ mid := by
  have invariant : ∃ xs, Inv s xs := by
    refine reached.invariant (fun s => ∃ xs, Inv s xs) (fun s initial => ⟨[], initial_inv initial⟩) ?_
    rintro s t ⟨xs, inv⟩ ⟨e, step⟩
    exact step_inv inv step
  obtain ⟨xs, inv⟩ := invariant
  obtain ⟨t, run⟩ := (schedule_spec 0 inv).1
  refine ⟨⟨_, t, run⟩, fun q t step => ?_, fun p x t before mid after run other once => ?_⟩
  · obtain ⟨fuel, run, rfl⟩ := step_selected step
    rcases inv.selected run with ⟨idle, nobody⟩ | ⟨before, after, split, runs, -⟩
    · exact Or.inl ⟨idle, fun p listed => nobody p (inv.onList.mp listed)⟩
    · exact Or.inr ⟨inv.onList.mpr (mem_of_found split), runs⟩
  · obtain ⟨u, front, back⟩ := run.split
    obtain ⟨v, front, middle⟩ := front.split
    obtain ⟨ys, inv⟩ := run_inv inv front
    by_contra unselected
    cases middle with
    | cons first middle =>
        cases back with
        | cons second later =>
            obtain ⟨inv, behind⟩ := selected_behind inv first
            obtain ⟨zs, inv, behind⟩ := run_precedes inv behind middle once unselected
            have differs : Event.selected x ≠ .selected p := fun same => other (Event.selected.inj same)
            exact (step_precedes inv second behind differs nofun).1 rfl

/-! ## Three processes -/

def booted : Machine := ⟨fun _ => ⟨.runnable, 0, false, 0⟩, listInit ⟨id, id⟩ .procList, 0, idleproc⟩

/-- A process is forked and woken. -/
def started (s : Machine) (p : Pid) : Machine :=
  (setLinks (s.setProc p allocProc) p).setProc p { allocProc with state := .runnable }

theorem started_reached {q : Pid} (reached : Reached Initial Step s) (inv : Inv s xs) (new : q ∉ xs)
    (other : q ≠ idleproc) : Reached Initial Step (started s q) ∧ Inv (started s q) (q :: xs) := by
  have legal : Legal s (.fork q) := ⟨fun listed => new (inv.onList.mp listed), other⟩
  have woken : wakeupProc (setLinks (s.setProc q allocProc) q) q = .ok (started s q) := by
    simp [wakeupProc, assert, setLinks, Machine.setProc, started, allocProc, bind, Except.bind, pure, Except.pure]
  have forked : Step s (.forked q) _ := ⟨.fork q, legal, rfl, rfl⟩
  exact ⟨(reached.next ⟨_, forked⟩).next ⟨_, .wakeup q, trivial, woken, rfl⟩, (inv.fork new other).setProc q _⟩

/-- Three processes, the third of which was forked last. -/
def three : Machine := started (started (started booted 1) 2) 3

theorem three_reached : Reached Initial Step three ∧ Inv three [3, 2, 1] := by
  have first := started_reached (.start ⟨⟨_, rfl⟩, rfl⟩) (initial_inv (s := booted) ⟨⟨_, rfl⟩, rfl⟩)
    (List.not_mem_nil (a := 1)) (by decide)
  have second := started_reached first.1 first.2 (show 2 ∉ [1] by decide) (by decide)
  exact started_reached second.1 second.2 (show 3 ∉ [2, 1] by decide) (by decide)

theorem keeping_first {c : Call} (inv : Inv s [3, 2, 1]) (inv' : Inv t [3, 2, 1]) (legal : Legal s c)
    (run : exec s c = .ok t) (before : (s.procs 1).state = .runnable) (after : (t.procs 1).state = .runnable) :
    Keeping 1 s (event t c) t :=
  ⟨⟨c, legal, run, rfl⟩, ⟨before, inv.onList.mpr (by decide)⟩, ⟨after, inv'.onList.mpr (by decide)⟩⟩

/-- The first process waits while the third and the second are selected, and the second goes to sleep. -/
theorem reached_fair_three : ∃ t mid, Trace (Keeping 1) three ([] ++ .selected 3 :: mid ++ .selected 3 :: []) t ∧
    .selected 2 ∈ mid ∧ .other ∈ mid ∧ .selected 1 ∈ mid := by
  obtain ⟨reached, inv⟩ := three_reached
  obtain ⟨a, toThree, at3, a1, b, toTwo, at2, b1, c, sleeps, c1, d, toOne, at1, d1, e, back, at3', e1⟩ :
      ∃ a, exec three (.schedule 8) = .ok a ∧ a.current = 3 ∧ (a.procs 1).state = .runnable ∧
        ∃ b, exec a (.schedule 8) = .ok b ∧ b.current = 2 ∧ (b.procs 1).state = .runnable ∧
          ∃ c, exec b (.sleep 1) = .ok c ∧ (c.procs 1).state = .runnable ∧
            ∃ d, exec c (.schedule 8) = .ok d ∧ d.current = 1 ∧ (d.procs 1).state = .runnable ∧
              ∃ e, exec d (.schedule 8) = .ok e ∧ e.current = 3 ∧ (e.procs 1).state = .runnable :=
    ⟨_, rfl, rfl, rfl, _, rfl, rfl, rfl, _, rfl, rfl, _, rfl, rfl, rfl, _, rfl, rfl, rfl⟩
  have invA := inv.schedule toThree
  have invB := invA.schedule toTwo
  have invC : Inv c [3, 2, 1] := by
    cases sleeps
    exact invB.setProc _ _
  have invD := invC.schedule toOne
  have first := keeping_first (c := .schedule 8) inv invA trivial toThree rfl a1
  have second := keeping_first (c := .schedule 8) invA invB trivial toTwo a1 b1
  have third := keeping_first (c := .sleep 1) invB invC trivial sleeps b1 c1
  have fourth := keeping_first (c := .schedule 8) invC invD trivial toOne c1 d1
  have fifth := keeping_first (c := .schedule 8) invD (invD.schedule back) trivial back d1 e1
  rw [event, at3] at first
  rw [event, at2] at second
  rw [event, at1] at fourth
  rw [event, at3'] at fifth
  have run : Trace (Keeping 1) three ([] ++ .selected 3 :: [.selected 2, .other, .selected 1] ++ .selected 3 :: []) e :=
    .cons first (.cons second (.cons third (.cons fourth (.cons fifth (.nil e)))))
  exact ⟨e, _, run, by decide, by decide, (reached_fair reached).2.2 1 3 e [] _ [] run (by decide) (by decide)⟩

example : ((schedule 8 three).toOption.map Machine.current) = some 3 := by decide

end Ucore.Schedule.ProcList
