import Ucore.Process.ProcTable
import Ucore.Lib.Run

/-! # Exit and wait

A process that sleeps in `do_wait` has no ended child it waits for, whatever the others do
meanwhile: the child that ends wakes its parent, and the children of a process that ends wake
the initial one if they have ended before. So no process stays unreaped for want of a wake-up.
-/

namespace Ucore.Process.Family

open Lib.Ring Lib.Run Lib.Siblings Libs.List

open GetPid (MAX_PID MAX_PROCESS)
open Schedule.Sched (ProcState idleproc)

/-- What the states of the processes have to do with the calls they are in. -/
structure Calm (procs : Ptr → Proc) (live : Finset Ptr) (children : Ptr → List Ptr) : Prop where
  begun : ∀ p ∈ live, (procs p).state ≠ .uninit
  asleep : ∀ p ∈ live, (procs p).state = .sleeping → (procs p).waitState = WT_CHILD ∧ (procs p).waits ≠ none
  awake : ∀ p ∈ live, (procs p).state ≠ .sleeping → (procs p).waitState = 0
  childless : ∀ p ∈ live, (procs p).state = .zombie → children p = []
  heard : ∀ p ∈ live, (procs p).state = .sleeping → ∀ pid, (procs p).waits = some pid →
    ∀ x ∈ children p, (pid ≠ 0 → (procs x).pid = pid) → (procs x).state ≠ .zombie
  hopeful : ∀ p ∈ live, (procs p).state = .sleeping → ∀ pid, (procs p).waits = some pid →
    ∃ x ∈ children p, pid ≠ 0 → (procs x).pid = pid

/-- What holds when a process begins to call `schedule`. -/
structure Order (s : Machine) (listed : List Ptr) (children : Ptr → List Ptr) (entries : HashNode → List HashNode) :
    Prop where
  table : Table s none listed children entries
  calm : Calm s.procs s.live children
  init : s.initproc ∈ listed
  top : children idleproc = [s.initproc]
  able : (s.procs s.initproc).state ≠ .zombie
  idle : (s.procs idleproc).state = .runnable
  here : s.current ∈ s.live

structure Inv (s : Machine) (listed : List Ptr) (children : Ptr → List Ptr) (entries : HashNode → List HashNode) : Prop
    extends Order s listed children entries where
  runs : (s.procs s.current).state = .runnable

variable {s t : Machine} {listed : List Ptr} {children : Ptr → List Ptr} {entries : HashNode → List HashNode}
  {p q : Ptr}
  {fuel : Nat}

/-! ## States -/

namespace Calm

variable {procs procs' : Ptr → Proc} {live : Finset Ptr}

/-- A process is woken, or what it waits for stays as it is. -/
theorem edit {proc : Proc} (calm : Calm procs live children) (pid : proc.pid = (procs p).pid)
    (states : proc.state = (procs p).state ∧ proc.waitState = (procs p).waitState ∧ proc.waits = (procs p).waits ∨
      proc.state = .runnable ∧ proc.waitState = 0) :
    Calm (Function.update procs p proc) live children := by
  have pids : ∀ x, (Function.update procs p proc x).pid = (procs x).pid := by
    intro x
    rw [Function.update_apply]
    split
    · rename_i same
      rw [pid, same]
    · rfl
  have cases : ∀ x, ((Function.update procs p proc x).state = (procs x).state ∧
      (Function.update procs p proc x).waitState = (procs x).waitState ∧
      (Function.update procs p proc x).waits = (procs x).waits) ∨
      (Function.update procs p proc x).state = .runnable ∧ (Function.update procs p proc x).waitState = 0 := by
    intro x
    rw [Function.update_apply]
    split
    · rename_i same
      rw [same]
      exact states
    · exact .inl ⟨rfl, rfl, rfl⟩
  refine ⟨fun x inside => ?_, fun x inside asleep => ?_, fun x inside up => ?_, fun x inside zombie => ?_,
    fun x inside asleep n waits y child wanted => ?_, fun x inside asleep n waits => ?_⟩
  · rcases cases x with ⟨state, -⟩ | ⟨state, -⟩
    · rw [state]
      exact calm.begun x inside
    · simp [state]
  · rcases cases x with ⟨state, waitState, waits⟩ | ⟨state, -⟩
    · rw [waitState, waits]
      exact calm.asleep x inside (state ▸ asleep)
    · rw [state] at asleep
      cases asleep
  · rcases cases x with ⟨state, waitState, -⟩ | ⟨-, waitState⟩
    · rw [waitState]
      exact calm.awake x inside (state ▸ up)
    · exact waitState
  · rcases cases x with ⟨state, -⟩ | ⟨state, -⟩
    · exact calm.childless x inside (state ▸ zombie)
    · rw [state] at zombie
      cases zombie
  · rcases cases x with ⟨state, -, same⟩ | ⟨state, -⟩
    · have old := calm.heard x inside (state ▸ asleep) n (same ▸ waits) y child (pids y ▸ wanted)
      rcases cases y with ⟨state', -⟩ | ⟨state', -⟩
      · rw [state']
        exact old
      · simp [state']
    · rw [state] at asleep
      cases asleep
  · rcases cases x with ⟨state, -, same⟩ | ⟨state, -⟩
    · obtain ⟨y, child, wanted⟩ := calm.hopeful x inside (state ▸ asleep) n (same ▸ waits)
      exact ⟨y, child, pids y ▸ wanted⟩
    · rw [state] at asleep
      cases asleep

end Calm

/-! ## The calls -/

theorem setProc_state {proc : Proc} (states : proc.state = (s.procs p).state ∨ proc.state = .runnable) (q : Ptr) :
    ((s.setProc p proc).procs q).state = (s.procs q).state ∨ ((s.setProc p proc).procs q).state = .runnable := by
  rw [show (s.setProc p proc).procs q = if q = p then proc else s.procs q from Function.update_apply ..]
  split
  · rename_i same
    rw [same]
    exact states
  · exact .inl rfl

/-- What a round of `do_wait` comes to: the exit code of a child that is reaped, sleep, or an
    error where there is no such child. -/
inductive Waited (s : Machine) (pid : Int) : Answer → Machine → Prop where
  | reaped {p : Ptr} {t : Machine} (live : p ∈ s.live) (child : s.kin.parent p = some s.current)
    (wanted : Wanted s pid p)
      (ended : (s.procs p).state = .zombie) (gone : t.live = s.live.erase p) (kept : t.kin.parent = s.kin.parent) :
      Waited s pid (some (0, some (s.procs p).exitCode)) t
  | asleep {x : Ptr} {t : Machine} (live : x ∈ s.live) (child : s.kin.parent x = some s.current)
    (wanted : Wanted s pid x)
      (nobody : ∀ y ∈ s.live, s.kin.parent y = some s.current → Wanted s pid y → (s.procs y).state ≠ .zombie)
      (sleeps : (t.procs s.current).state = .sleeping) (kept : t.live = s.live) : Waited s pid none t
  | childless (nobody : ∀ y ∈ s.live, s.kin.parent y = some s.current → ¬ Wanted s pid y) :
      Waited s pid (some (-E_BAD_PROC, none)) (s.setProc s.current { s.procs s.current with waits := none })

namespace Order

theorem room (order : Order s listed children entries) (enough : MAX_PID * (MAX_PROCESS + 1) ≤ fuel) :
    listed.length < fuel := by
  have few := order.table.few
  have large : MAX_PROCESS ≤ MAX_PID * (MAX_PROCESS + 1) := by decide
  omega

theorem schedule (order : Order s listed children entries) (enough : MAX_PID * (MAX_PROCESS + 1) ≤ fuel) :
    ∃ c, schedule fuel s = .ok { s with current := c } ∧
      (c = idleproc ∧ (∀ p ∈ listed, (s.procs p).state ≠ .runnable) ∨ c ∈ listed) ∧
      Inv { s with current := c } listed children entries := by
  obtain ⟨c, run, chosen⟩ := schedule_spec order.table order.here (order.room enough)
  have live : c ∈ s.live := order.table.mem_live.mpr (chosen.imp And.left And.left)
  refine ⟨c, run, chosen.imp_right And.left,
    ⟨order.table.setCurrent c, order.calm, order.init, order.top, order.able, order.idle, live⟩, ?_⟩
  rcases chosen with ⟨rfl, -⟩ | ⟨-, runs⟩
  · exact order.idle
  · exact runs

/-- A change of one process that runs afterwards, or goes on as it was. -/
theorem edit {proc : Proc} (order : Order s listed children entries) (pid : proc.pid = (s.procs p).pid)
    (states : proc.state = (s.procs p).state ∧ proc.waitState = (s.procs p).waitState ∧ proc.waits = (s.procs p).waits ∨
      proc.state = .runnable ∧ proc.waitState = 0) :
    Order (s.setProc p proc) listed children entries := by
  have state := setProc_state (states.imp And.left And.left)
  refine ⟨order.table.setProc pid, order.calm.edit pid states, order.init, order.top, ?_, ?_, order.here⟩
  · rcases state s.initproc with same | same
    · rw [show (s.setProc p proc).initproc = s.initproc from rfl, same]
      exact order.able
    · rw [show (s.setProc p proc).initproc = s.initproc from rfl, same]
      decide
  · rcases state idleproc with same | same
    · rw [same]
      exact order.idle
    · exact same

end Order

namespace Inv

theorem edit {proc : Proc} (inv : Inv s listed children entries) (pid : proc.pid = (s.procs p).pid)
    (states : proc.state = (s.procs p).state ∧ proc.waitState = (s.procs p).waitState ∧ proc.waits = (s.procs p).waits ∨
      proc.state = .runnable ∧ proc.waitState = 0) :
    Inv (s.setProc p proc) listed children entries := by
  refine ⟨inv.toOrder.edit pid states, ?_⟩
  rcases setProc_state (states.imp And.left And.left) s.current with same | runs
  · exact same.trans inv.runs
  · exact runs

/-- The process that runs goes on running. -/
theorem goOn (inv : Inv s listed children entries) (proc : Proc) (pid : proc.pid = (s.procs s.current).pid)
    (state : proc.state = (s.procs s.current).state) (waitState : proc.waitState = (s.procs s.current).waitState) :
    Inv (s.setProc s.current proc) listed children entries := by
  have absent : proc.waitState = 0 := waitState.trans (inv.calm.awake _ inv.here (by simp [inv.runs]))
  exact inv.edit pid (.inr ⟨state.trans inv.runs, absent⟩)

theorem current_ne (inv : Inv s listed children entries) (state : (s.procs p).state ≠ .runnable) : s.current ≠ p := by
  rintro rfl
  exact state inv.runs

/-- The wake-up of a process, or none. -/
theorem wake (inv : Inv s listed children entries) (able : (s.procs p).state ≠ .zombie) (live : p ∈ s.live) :
    ∃ t, wakeupProc s p = .ok t ∧ Inv t listed children entries := by
  rw [wakeupProc_eq live able]
  split
  · exact ⟨_, rfl, inv.edit rfl (.inr ⟨rfl, rfl⟩)⟩
  · exact ⟨s, rfl, inv⟩

theorem kill (inv : Inv s listed children entries) (pid : Int) (enough : MAX_PID * (MAX_PROCESS + 1) ≤ fuel) :
    ∃ ret t, doKill fuel pid s = .ok (ret, t) ∧ Inv t listed children entries := by
  obtain ⟨r, found, exact⟩ := findProc_spec inv.table pid (inv.toOrder.room enough)
  rw [doKill, found, ok_bind]
  cases r with
  | none => exact ⟨_, s, rfl, inv⟩
  | some p =>
      have live := inv.table.listed_live ((exact p).mp rfl).1
      dsimp only
      split
      · have flagged : Inv (s.setProc p { s.procs p with flags := (s.procs p).flags ||| PF_EXITING }) listed children
          entries :=
          inv.edit rfl (.inl ⟨rfl, rfl, rfl⟩)
        generalize marked : s.setProc p { s.procs p with flags := (s.procs p).flags ||| PF_EXITING } = u at flagged
        have live' : p ∈ u.live := marked ▸ live
        split
        · rename_i interrupted
          have able : (u.procs p).state ≠ .zombie := by
            intro zombie
            rw [flagged.calm.awake p live' (by simp [zombie])] at interrupted
            exact interrupted (by decide)
          obtain ⟨t, woken, after⟩ := flagged.wake able live'
          rw [woken]
          exact ⟨0, t, rfl, after⟩
        · exact ⟨0, u, rfl, flagged⟩
      · exact ⟨_, s, rfl, inv⟩

/-- Every process but the idle one has a parent that has not ended. -/
theorem parent (inv : Inv s listed children entries) (inside : p ∈ listed) :
    ∃ q ∈ s.live, s.kin.parent p = some q ∧ (s.procs q).state ≠ .zombie := by
  obtain ⟨q, parent, live, child⟩ := inv.table.parent inside
  refine ⟨q, live, parent, fun ended => ?_⟩
  rw [inv.calm.childless q live ended] at child
  cases child

theorem fork {given : Grants} (inv : Inv s listed children entries) (other : s.current ≠ idleproc)
    (fresh : ∀ p, given.proc = some p → p ∉ s.live) (enough : MAX_PID * (MAX_PROCESS + 1) ≤ fuel) :
    ∃ ret t listed' children' entries', doFork fuel given s = .ok (ret, t) ∧ Inv t listed' children' entries' := by
  have up : (s.procs s.current).state ≠ .sleeping := by simp [inv.runs]
  obtain ⟨ret, t, run, kept, outcome⟩ := doFork_spec inv.table inv.here (inv.calm.awake _ inv.here up) fresh enough
  have init := inv.table.listed_live inv.init
  have able : (t.procs t.initproc).state ≠ .zombie := by
    rw [kept.initproc, kept.procs _ init]
    exact inv.able
  have idle : (t.procs idleproc).state = .runnable := by
    rw [kept.procs _ inv.table.idle_live]
    exact inv.idle
  have runs : (t.procs t.current).state = .runnable := by
    rw [kept.current, kept.procs _ inv.here]
    exact inv.runs
  have child_live : ∀ {q x}, q ∈ s.live → x ∈ children q → x ∈ s.live := fun live child =>
    inv.table.families.member live child
  rcases outcome with ⟨-, live, table⟩ | ⟨p, -, live, forked⟩
  · refine ⟨ret, t, listed, children, entries, run,
      ⟨table, ?_, kept.initproc ▸ inv.init, kept.initproc ▸ inv.top, able, idle,
      by rw [kept.current, live]; exact inv.here⟩, runs⟩
    rw [live]
    refine ⟨fun q inside => ?_, fun q inside => ?_, fun q inside => ?_, fun q inside => ?_,
      fun q inside asleep n waits x child => ?_, fun q inside asleep n waits => ?_⟩
    · rw [kept.procs q inside]
      exact inv.calm.begun q inside
    · rw [kept.procs q inside]
      exact inv.calm.asleep q inside
    · rw [kept.procs q inside]
      exact inv.calm.awake q inside
    · rw [kept.procs q inside]
      exact inv.calm.childless q inside
    · rw [kept.procs q inside] at asleep waits
      rw [kept.procs x (child_live inside child)]
      exact inv.calm.heard q inside asleep n waits x child
    · rw [kept.procs q inside] at asleep waits
      obtain ⟨x, child, wanted⟩ := inv.calm.hopeful q inside asleep n waits
      exact ⟨x, child, by rwa [kept.procs x (child_live inside child)]⟩
  · obtain ⟨code, proc⟩ := forked.proc
    obtain ⟨entries', table⟩ := forked.table
    have apart : ∀ q ∈ s.live, q ≠ p := fun q inside => ne_of_mem_of_not_mem inside forked.new
    have rows : ∀ q ∈ s.live, q ≠ s.current →
      Function.update (Function.update children p []) s.current (p :: children s.current) q =
        children q := by
      intro q inside differs
      rw [Function.update_of_ne differs, Function.update_of_ne (apart q inside)]
    have top : idleproc ≠ s.current := Ne.symm other
    refine ⟨ret, t, p :: listed, _, entries', run,
      ⟨table, ?_, kept.initproc ▸ List.mem_cons_of_mem p inv.init, ?_, able, idle,
      by rw [kept.current, live]; exact Finset.mem_insert_of_mem inv.here⟩, runs⟩
    · rw [live]
      refine ⟨fun q inside => ?_, fun q inside asleep => ?_, fun q inside => ?_, fun q inside ended => ?_,
        fun q inside asleep n waits x child => ?_, fun q inside asleep n waits => ?_⟩
      all_goals rcases Finset.mem_insert.mp inside with rfl | inside
      · simp [proc]
      · rw [kept.procs q inside]
        exact inv.calm.begun q inside
      · simp [proc] at asleep
      · rw [kept.procs q inside] at asleep ⊢
        exact inv.calm.asleep q inside asleep
      · simp [proc]
      · rw [kept.procs q inside]
        exact inv.calm.awake q inside
      · simp [proc] at ended
      · rw [kept.procs q inside] at ended
        rw [rows q inside (Ne.symm (inv.current_ne (by simp [ended])))]
        exact inv.calm.childless q inside ended
      · simp [proc] at asleep
      · rw [kept.procs q inside] at asleep waits
        rw [rows q inside (Ne.symm (inv.current_ne (by simp [asleep])))] at child
        rw [kept.procs x (child_live inside child)]
        exact inv.calm.heard q inside asleep n waits x child
      · simp [proc] at asleep
      · rw [kept.procs q inside] at asleep waits
        obtain ⟨x, child, wanted⟩ := inv.calm.hopeful q inside asleep n waits
        refine ⟨x, ?_, by rwa [kept.procs x (child_live inside child)]⟩
        rwa [rows q inside (Ne.symm (inv.current_ne (by simp [asleep])))]
    · rw [rows _ inv.table.idle_live top, inv.top, kept.initproc]

/-- The process that runs goes to sleep where no child it waits for has ended. -/
theorem sleeps (inv : Inv s listed children entries) (pid : Int) (kid : ∃ p ∈ children s.current, Wanted s pid p)
    (nobody : ∀ p ∈ children s.current, Wanted s pid p → (s.procs p).state ≠ .zombie) (apart : s.current ≠ idleproc) :
    Order (s.setProc s.current { s.procs s.current with state := .sleeping, waitState := WT_CHILD, waits := some pid })
      listed children entries := by
  generalize slept :
    ({ s.procs s.current with state := .sleeping, waitState := WT_CHILD, waits := some pid } : Proc) = proc
  have itself : (s.setProc s.current proc).procs s.current = proc := Function.update_self ..
  have others : ∀ q, q ≠ s.current → (s.setProc s.current proc).procs q = s.procs q := fun q differs =>
    Function.update_of_ne differs ..
  have pid_eq : ∀ q, ((s.setProc s.current proc).procs q).pid = (s.procs q).pid := by
    intro q
    by_cases same : q = s.current
    · rw [same, itself, ← slept]
    · rw [others q same]
  have ended : ∀ q, ((s.setProc s.current proc).procs q).state = .zombie → (s.procs q).state = .zombie := by
    intro q zombie
    by_cases same : q = s.current
    · rw [same, itself, ← slept] at zombie
      cases zombie
    · rwa [others q same] at zombie
  refine ⟨inv.table.setProc (slept ▸ rfl), ⟨fun q inside => ?_, fun q inside asleep => ?_, fun q inside up => ?_,
    fun q inside zombie => inv.calm.childless q inside (ended q zombie),
      fun q inside asleep n waits x child wanted zombie => ?_,
    fun q inside asleep n waits => ?_⟩, inv.init, inv.top, fun zombie => inv.able (ended _ zombie), ?_, inv.here⟩
  · by_cases same : q = s.current
    · rw [same, itself, ← slept]
      simp
    · rw [others q same]
      exact inv.calm.begun q inside
  · by_cases same : q = s.current
    · rw [same, itself, ← slept]
      simp
    · rw [others q same] at asleep ⊢
      exact inv.calm.asleep q inside asleep
  · by_cases same : q = s.current
    · rw [same, itself, ← slept] at up
      simp at up
    · rw [others q same] at up ⊢
      exact inv.calm.awake q inside up
  · rw [pid_eq] at wanted
    have zombie := ended x zombie
    by_cases same : q = s.current
    · subst same
      rw [itself, ← slept] at waits
      obtain rfl := Option.some.inj waits
      exact nobody x child wanted zombie
    · rw [others q same] at asleep waits
      exact inv.calm.heard q inside asleep n waits x child wanted zombie
  · have found : ∃ x ∈ children q, n ≠ 0 → (s.procs x).pid = n := by
      by_cases same : q = s.current
      · subst same
        rw [itself, ← slept] at waits
        obtain rfl := Option.some.inj waits
        exact kid
      · rw [others q same] at asleep waits
        exact inv.calm.hopeful q inside asleep n waits
    obtain ⟨x, child, wanted⟩ := found
    exact ⟨x, child, by rwa [pid_eq]⟩
  · rw [others _ (Ne.symm apart)]
    exact inv.idle

theorem waitRound (inv : Inv s listed children entries) (other : s.current ≠ idleproc) (pid : Int)
    (enough : MAX_PID * (MAX_PROCESS + 1) ≤ fuel) :
    ∃ answer t listed' children' entries', Family.waitRound fuel pid s = .ok (answer, t) ∧
    Inv t listed' children' entries' ∧
      Waited s pid answer t := by
  have mine := inv.table.families.parent _ inv.here
  obtain ⟨found, haskid, run, sound, complete⟩ := findKid_spec inv.table inv.here pid (inv.toOrder.room enough)
  rw [Family.waitRound, deref_ok inv.here, ok_bind, run, ok_bind]
  cases found with
  | some p =>
      obtain ⟨child, wanted, ended⟩ := sound p rfl
      have live := inv.table.families.member inv.here child
      have apart' : p ≠ s.initproc := by
        rintro rfl
        exact inv.able ended
      have apart : s.current ≠ p := inv.current_ne (by simp [ended])
      obtain ⟨t, entries', reaped, procs, rest, current, initproc, parents, table⟩ :=
        reap_spec inv.table inv.here child (inv.calm.childless p live ended) apart'
      have kept : ∀ q ∈ s.live, ∀ x ∈ Function.update children s.current ((children s.current).erase p) q, x ∈
        children q := by
        intro q inside x within
        rw [Function.update_apply] at within
        split at within
        · rename_i same
          exact same ▸ List.mem_of_mem_erase within
        · exact within
      have after : Inv t (listed.erase p)
        (Function.update children s.current ((children s.current).erase p)) entries' := by
        refine ⟨⟨table, ?_, ?_, ?_, ?_, ?_, ?_⟩, ?_⟩
        · rw [procs, rest]
          refine ⟨fun q inside => inv.calm.begun q (Finset.mem_of_mem_erase inside),
            fun q inside => inv.calm.asleep q (Finset.mem_of_mem_erase inside),
            fun q inside => inv.calm.awake q (Finset.mem_of_mem_erase inside), fun q inside ended => ?_,
            fun q inside asleep n waits x within => ?_, fun q inside asleep n waits => ?_⟩
          · have absent := inv.calm.childless q (Finset.mem_of_mem_erase inside) ended
            rw [Function.update_of_ne (Ne.symm (inv.current_ne (by simp [ended])))]
            exact absent
          · have inside := Finset.mem_of_mem_erase inside
            exact inv.calm.heard q inside asleep n waits x (kept q inside x within)
          · rw [Function.update_of_ne (Ne.symm (inv.current_ne (by simp [asleep])))]
            exact inv.calm.hopeful q (Finset.mem_of_mem_erase inside) asleep n waits
        · rw [initproc]
          exact (List.mem_erase_of_ne (Ne.symm apart')).mpr inv.init
        · rw [Function.update_of_ne (Ne.symm other), inv.top, initproc]
        · rw [procs, initproc]
          exact inv.able
        · rw [procs]
          exact inv.idle
        · rw [current, rest]
          exact Finset.mem_erase.mpr ⟨apart, inv.here⟩
        · rw [procs, current]
          exact inv.runs
      have resumed := after.goOn { t.procs t.current with waits := none } rfl rfl rfl
      rw [current] at resumed
      dsimp only
      rw [reaped, ok_bind]
      exact ⟨_, _, _, _, entries', rfl, resumed, .reaped live ((mine p).mp child).2 wanted ended rest parents⟩
  | none =>
      obtain ⟨nobody, more⟩ := complete rfl
      dsimp only
      split
      · rename_i kids
        obtain ⟨x, child, wanted⟩ := more.mp kids
        obtain ⟨c, run, -, after⟩ := (inv.sleeps pid ⟨x, child, wanted⟩ nobody other).schedule enough
        rw [run]
        refine ⟨none, _, listed, children, entries, rfl, after, .asleep ((mine x).mp child).1
          ((mine x).mp child).2 wanted
          (fun y live parent => nobody y ((mine y).mpr ⟨live, parent⟩)) ?_ rfl⟩
        simp [Machine.setProc]
      · rename_i none
        exact ⟨_, _, listed, children, entries, rfl, inv.goOn _ rfl rfl rfl, .childless fun y live parent wanted =>
          none (more.mpr ⟨y, (mine y).mpr ⟨live, parent⟩, wanted⟩)⟩

/-- The processes after the one that runs has ended. -/
theorem exit (inv : Inv s listed children entries) (errorCode : Int) (other : s.current ≠ idleproc)
    (apart : s.current ≠ s.initproc) (enough : MAX_PID * (MAX_PROCESS + 1) ≤ fuel) :
    ∃ t children', doExit fuel errorCode s = .ok t ∧ Inv t listed children' entries := by
  have mine := (inv.table.mem_live.mp inv.here).resolve_left other
  obtain ⟨q, parent, above, child⟩ := inv.table.parent mine
  have init := inv.table.listed_live inv.init
  have self : q ≠ s.current := by
    rintro rfl
    exact (inv.table.rooted _ inv.here).parent_ne other parent
  have able : (s.procs q).state ≠ .zombie := by
    intro ended
    rw [inv.calm.childless q above ended] at child
    cases child
  have asleep : ∀ x ∈ s.live, (s.procs x).state = .sleeping → (s.procs x).waitState = WT_CHILD := fun x inside asleep =>
    (inv.calm.asleep x inside asleep).1
  have few : (children s.current).length < fuel :=
    (List.subperm_of_subset (inv.table.families.nodup _ inv.here) fun x inside =>
      inv.table.child_listed inv.here inside).length_le.trans_lt (inv.toOrder.room enough)
  -- The process has ended.
  let ended : Proc := { s.procs s.current with state := .zombie, exitCode := errorCode, waits := none }
  let s₁ : Machine := s.setProc s.current ended
  have kept₁ : ∀ x, x ≠ s.current → s₁.procs x = s.procs x := fun x differs => Function.update_of_ne differs ..
  have table₁ : Table s₁ none listed children entries := inv.table.setProc rfl
  -- Its parent is woken.
  obtain ⟨proc, woken, either, heard⟩ := @wakeup_spec s₁ q True _ above (by rw [kept₁ q self]; exact able)
    (by rw [kept₁ q self]; exact asleep q above)
  simp only [true_and, not_true_eq_false, imp_false] at woken heard
  rw [kept₁ q self] at either
  let s₂ : Machine := s₁.setProc q proc
  have kept₂ : ∀ x, x ≠ s.current → s₂.procs x = s.procs x ∨ s₂.procs x = Family.awake (s.procs x) := by
    intro x differs
    by_cases same : x = q
    · rw [same, show s₂.procs q = proc from Function.update_self ..]
      exact either
    · rw [show s₂.procs x = s₁.procs x from Function.update_of_ne same ..]
      exact .inl (kept₁ x differs)
  have table₂ : Table s₂ none listed children entries := by
    refine table₁.setProc ?_
    rw [kept₁ q self]
    rcases either with rfl | rfl <;> rfl
  -- Its children get another parent.
  have able₂ : (s₂.procs s.initproc).state ≠ .zombie := by
    rcases kept₂ _ (Ne.symm apart) with same | same
    · rw [same]
      exact inv.able
    · simp [same, Family.awake]
  have waits₂ : (s₂.procs s.initproc).state = .sleeping → (s₂.procs s.initproc).waitState = WT_CHILD := by
    rcases kept₂ _ (Ne.symm apart) with same | same
    · rw [same]
      exact asleep _ init
    · simp [same, Family.awake]
  have below : s.kin.parent s.initproc = some idleproc :=
    ((inv.table.families.parent _ inv.table.idle_live _).mp (inv.top ▸ List.mem_singleton_self _)).2
  obtain ⟨t, adopting, adopted, table⟩ :=
    @adoptLoop_spec s₂ none listed children entries fuel _ table₂
      (by simp) rfl inv.here init apart other able₂ waits₂ below few
  have kept : ∀ x, x ≠ s.current → t.procs x = s.procs x ∨ t.procs x = Family.awake (s.procs x) := by
    intro x differs
    by_cases same : x = s.initproc
    · subst same
      rcases adopted.init with still | up
      · rw [show s.initproc = s₂.initproc from rfl, still]
        exact kept₂ _ differs
      · rw [show s.initproc = s₂.initproc from rfl, up]
        right
        rcases kept₂ _ differs with old | old
        · exact congrArg Family.awake old
        · rw [show s₂.initproc = s.initproc from rfl, old]
          rfl
    · rw [adopted.others x same]
      exact kept₂ x differs
  have gone : t.procs s.current = ended := by
    rw [adopted.others _ apart, show s₂.procs s.current =
      s₁.procs s.current from Function.update_of_ne (Ne.symm self) ..]
    exact Function.update_self ..
  have sleeper : ∀ x, x ≠ s.current → (t.procs x).state = .sleeping → t.procs x = s.procs x := by
    intro x differs sleeping
    refine (kept x differs).resolve_right fun up => ?_
    rw [up] at sleeping
    cases sleeping
  have alive : ∀ x, x ≠ s.current → (t.procs x).state = .zombie → t.procs x = s.procs x := by
    intro x differs zombie
    refine (kept x differs).resolve_right fun up => ?_
    rw [up] at zombie
    cases zombie
  have up : (t.procs q).state ≠ .sleeping := by
    intro sleeping
    have itself : s₂.procs q = proc := Function.update_self ..
    by_cases same : q = s.initproc
    · subst same
      rcases adopted.init with still | woken
      · rw [show s.initproc = s₂.initproc from rfl, still] at sleeping
        exact heard (itself ▸ sleeping)
      · rw [show s.initproc = s₂.initproc from rfl, woken] at sleeping
        cases sleeping
    · rw [adopted.others q same, itself] at sleeping
      exact heard sleeping
  let children' := Function.update (Function.update children s.current []) s.initproc
    ((children s.current).reverse ++ children s.initproc)
  have absent : children' s.current = [] := by
    rw [show children' s.current = Function.update children s.current [] s.current from Function.update_of_ne apart ..,
      Function.update_self]
  have rows : ∀ x, x ≠ s.current → x ≠ s.initproc → children' x = children x := by
    intro x one two
    rw [show children' x = Function.update children s.current [] x from Function.update_of_ne two ..,
      Function.update_of_ne one]
  have more : ∀ x, x ≠ s.current → ∀ {y}, y ∈ children x → y ∈ children' x := by
    intro x one y child
    by_cases init : x = s.initproc
    · rw [init, show children' s.initproc = _ from Function.update_self ..]
      exact List.mem_append_right _ (init ▸ child)
    · rwa [rows x one init]
  have pids : ∀ x, (t.procs x).pid = (s.procs x).pid := by
    intro x
    by_cases same : x = s.current
    · rw [same, gone]
    · rcases kept x same with old | up
      · rw [old]
      · rw [up]
        rfl
  have mother : ∀ x ∈ s.live, s.current ∈ children x → x = q := by
    intro x inside within
    have same := ((inv.table.families.parent x inside _).mp within).2
    exact Option.some.inj (same.symm.trans parent)
  -- Whoever sleeps in `do_wait` has slept before, and is not the parent of the process.
  have order : Order t listed children' entries := by
    refine ⟨table, ?_, ?_, ?_, ?_, ?_, ?_⟩
    · rw [show t.live = s.live from adopted.live]
      refine ⟨fun x inside => ?_, fun x inside sleeping => ?_, fun x inside awake => ?_, fun x inside zombie => ?_,
        fun x inside sleeping n waits y within wanted zombie => ?_, fun x inside sleeping n waits => ?_⟩
      · by_cases same : x = s.current
        · rw [same, gone]
          simp [ended]
        · rcases kept x same with old | up
          · rw [old]
            exact inv.calm.begun x inside
          · simp [up, Family.awake]
      · by_cases same : x = s.current
        · rw [same, gone] at sleeping
          cases sleeping
        · have old := sleeper x same sleeping
          rw [old] at sleeping ⊢
          exact inv.calm.asleep x inside sleeping
      · by_cases same : x = s.current
        · rw [same, gone]
          exact inv.calm.awake _ inv.here (by simp [inv.runs])
        · rcases kept x same with old | up
          · rw [old] at awake ⊢
            exact inv.calm.awake x inside awake
          · rw [up]
            rfl
      · by_cases same : x = s.current
        · rw [same]
          exact absent
        · have old := alive x same zombie
          have differs : x ≠ s.initproc := by
            rintro rfl
            rw [old] at zombie
            exact inv.able zombie
          rw [rows x same differs]
          exact inv.calm.childless x inside (old ▸ zombie)
      · have one : x ≠ s.current := by
          rintro rfl
          rw [absent] at within
          cases within
        have two : x ≠ q := by
          rintro rfl
          exact up sleeping
        have old := sleeper x one sleeping
        -- A child the process had before has not ended since.
        have before : y ∈ children x → False := by
          intro child
          have differs : y ≠ s.current := by
            rintro rfl
            exact two (mother x inside child)
          have same := alive y differs zombie
          rw [old] at sleeping waits
          rw [same] at wanted zombie
          exact inv.calm.heard x inside sleeping n waits y child wanted zombie
        by_cases init : x = s.initproc
        · rw [init, show children' s.initproc = (children s.current).reverse ++ children s.initproc from
            Function.update_self .., List.mem_append, List.mem_reverse] at within
          rcases within with moved | child
          · have differs : y ≠ s.current := by
              rintro rfl
              exact (inv.table.rooted _ inv.here).parent_ne other ((inv.table.families.parent _ inv.here _).mp moved).2
            by_cases itself : y = s.initproc
            · have up := alive y differs zombie
              rw [up, itself] at zombie
              exact inv.able zombie
            · refine adopted.woken ?_ y moved ?_
              · rw [show s₂.initproc = x from init.symm]
                exact sleeping
              · rw [← adopted.others y itself]
                exact zombie
          · exact before (init ▸ child)
        · rw [rows x one init] at within
          exact before within
      · have one : x ≠ s.current := by
          rintro rfl
          rw [gone] at sleeping
          cases sleeping
        have old := sleeper x one sleeping
        rw [old] at sleeping waits
        obtain ⟨y, child, wanted⟩ := inv.calm.hopeful x inside sleeping n waits
        refine ⟨y, more x one child, ?_⟩
        rwa [pids y]
    · rw [adopted.initproc]
      exact inv.init
    · rw [rows _ (Ne.symm other) (ne_of_mem_of_not_mem inv.init inv.table.idle).symm, inv.top, adopted.initproc]
      rfl
    · rw [adopted.initproc]
      intro zombie
      have same := alive _ (Ne.symm apart) zombie
      rw [show s₂.initproc = s.initproc from rfl, same] at zombie
      exact inv.able zombie
    · rcases kept _ (Ne.symm other) with old | up
      · rw [old]
        exact inv.idle
      · rw [up]
        rfl
    · rw [adopted.current, adopted.live]
      exact inv.here
  obtain ⟨c, scheduled, -, after⟩ := order.schedule enough
  refine ⟨_, children', ?_, after⟩
  rw [doExit, ensure_pos other, ok_bind, ensure_pos apart, ok_bind, deref_ok inv.here, ok_bind]
  dsimp only
  rw [show s.setProc s.current
      { s.procs s.current with state := .zombie, exitCode := errorCode, waits := Option.none } = s₁ from rfl,
    show s₁.kin.parent s.current = some q from parent, deref_ok (show q ∈ s₁.live from above), ok_bind]
  split
  · rename_i waits
    rw [if_pos waits] at woken
    rw [woken, ok_bind, adopting, ok_bind, scheduled]
  · rename_i away
    rw [if_neg away] at woken
    rw [woken, ok_bind, adopting, ok_bind, scheduled]

end Inv

/-! ## Runs -/

/-- The initial process ends, which stops the kernel. -/
def InitExits (s : Machine) (c : Call) : Prop :=
  s.current = s.initproc ∧ ((∃ code, c = .exit code) ∨ c = .resume ∧ (s.procs s.current).flags &&& PF_EXITING ≠ 0)

theorem doExit_init (code : Int) (other : s.current ≠ idleproc) (same : s.current = s.initproc) :
    doExit fuel code s = .error .initExit := by
  rw [doExit, ensure_pos other, ok_bind, ensure, if_neg (not_not.mpr same)]
  rfl

theorem initExits_error {c : Call} (order : Order s listed children entries) (exits : InitExits s c)
    (waiting : c = .resume → (s.procs s.current).waits ≠ none) : exec fuel s c = .error .initExit := by
  obtain ⟨same, which⟩ := exits
  have other : s.current ≠ idleproc := by
    rw [same]
    exact ne_of_mem_of_not_mem order.init order.table.idle
  rcases which with ⟨code, rfl⟩ | ⟨rfl, killed⟩
  · rw [exec, doExit_init code other same]
    rfl
  · obtain ⟨pid, waits⟩ := Option.ne_none_iff_exists'.mp (waiting rfl)
    rw [exec, waits]
    dsimp only
    rw [resume, deref_ok order.here, ok_bind, if_pos killed, doExit_init _ other same]
    rfl

/-- Every other call comes to an end, and keeps the invariant. -/
theorem exec_spec {c : Call} (inv : Inv s listed children entries) (legal : Legal s c) (goes : ¬ InitExits s c)
    (enough : MAX_PID * (MAX_PROCESS + 1) ≤ fuel) :
    ∃ answer t listed' children' entries', exec fuel s c = .ok (answer, t) ∧ Inv t listed' children' entries' := by
  cases c with
  | fork given =>
      obtain ⟨other, -, fresh⟩ := legal
      obtain ⟨ret, t, listed', children', entries', run, after⟩ := inv.fork other fresh enough
      refine ⟨some (ret, none), t, listed', children', entries', ?_, after⟩
      rw [exec, run]
      rfl
  | exit code =>
      have apart : s.current ≠ s.initproc := fun same => goes ⟨same, .inl ⟨code, rfl⟩⟩
      obtain ⟨t, children', run, after⟩ := inv.exit code legal.1 apart enough
      refine ⟨none, t, listed, children', entries, ?_, after⟩
      rw [exec, run]
      rfl
  | wait pid valid =>
      rw [exec, doWait]
      split
      · obtain ⟨answer, t, listed', children', entries', run, after, -⟩ := inv.waitRound legal.1 pid enough
        exact ⟨answer, t, listed', children', entries', run, after⟩
      · exact ⟨_, s, listed, children, entries, rfl, inv⟩
  | kill pid =>
      obtain ⟨ret, t, run, after⟩ := inv.kill pid enough
      refine ⟨some (ret, none), t, listed, children, entries, ?_, after⟩
      rw [exec, run]
      rfl
  | yield =>
      obtain ⟨c, run, -, after⟩ := inv.toOrder.schedule enough
      refine ⟨none, _, listed, children, entries, ?_, after⟩
      rw [exec, run]
      rfl
  | resume =>
      obtain ⟨other, waits⟩ := legal
      obtain ⟨pid, waits⟩ := Option.ne_none_iff_exists'.mp waits
      rw [exec, waits]
      dsimp only
      rw [resume, deref_ok inv.here, ok_bind]
      split
      · rename_i killed
        have apart : s.current ≠ s.initproc := fun same => goes ⟨same, .inr ⟨rfl, killed⟩⟩
        obtain ⟨t, children', run, after⟩ := inv.exit (-E_KILLED) other apart enough
        refine ⟨none, t, listed, children', entries, ?_, after⟩
        rw [run]
        rfl
      · obtain ⟨answer, t, listed', children', entries', run, after, -⟩ := inv.waitRound other pid enough
        exact ⟨answer, t, listed', children', entries', run, after⟩

/-- A call frees one structure at most, that of a child of the running process that has ended. -/
theorem exec_live {c : Call} {answer : Answer} (inv : Inv s listed children entries) (legal : Legal s c)
    (goes : ¬ InitExits s c) (enough : MAX_PID * (MAX_PROCESS + 1) ≤ fuel) (run : exec fuel s c = .ok (answer, t)) :
    t.live = s.live ∨ (∃ p, p ∉ s.live ∧ t.live = insert p s.live) ∨
      ∃ z ∈ s.live, (s.procs z).state = .zombie ∧ s.kin.parent z = some s.current ∧ t.live = s.live.erase z := by
  have same {children' : Ptr → List Ptr} {entries' : HashNode → List HashNode} {u : Machine}
      (after : Inv u listed children' entries') : u.live = s.live := after.table.live.trans inv.table.live.symm
  have round {pid : Int} (other : s.current ≠ idleproc) (waits : waitRound fuel pid s = .ok (answer, t)) :
      t.live = s.live ∨ (∃ p, p ∉ s.live ∧ t.live = insert p s.live) ∨
        ∃ z ∈ s.live, (s.procs z).state = .zombie ∧ s.kin.parent z = some s.current ∧ t.live = s.live.erase z := by
    obtain ⟨answer', u, -, -, -, run', -, waited⟩ := inv.waitRound other pid enough
    obtain ⟨rfl, rfl⟩ := Prod.mk.inj (Except.ok.inj (run'.symm.trans waits))
    cases waited with
    | reaped live child wanted ended gone => exact .inr (.inr ⟨_, live, ended, child, gone⟩)
    | asleep live child wanted nobody sleeps kept => exact .inl kept
    | childless nobody => exact .inl rfl
  cases c with
  | fork given =>
      obtain ⟨other, -, fresh⟩ := legal
      have up : (s.procs s.current).state ≠ .sleeping := by simp [inv.runs]
      obtain ⟨ret, u, run', -, outcome⟩ := doFork_spec inv.table inv.here (inv.calm.awake _ inv.here up) fresh enough
      rw [exec, run'] at run
      obtain ⟨-, rfl⟩ := Prod.mk.inj (Except.ok.inj run)
      rcases outcome with ⟨-, live, -⟩ | ⟨p, -, live, forked⟩
      · exact .inl live
      · exact .inr (.inl ⟨p, forked.new, live⟩)
  | exit code =>
      have apart : s.current ≠ s.initproc := fun same => goes ⟨same, .inl ⟨code, rfl⟩⟩
      obtain ⟨u, children', run', after⟩ := inv.exit code legal.1 apart enough
      rw [exec, run'] at run
      obtain ⟨-, rfl⟩ := Prod.mk.inj (Except.ok.inj run)
      exact .inl (same after)
  | wait pid valid =>
      rw [exec, doWait] at run
      split at run
      · exact round legal.1 run
      · obtain ⟨-, rfl⟩ := Prod.mk.inj (Except.ok.inj run)
        exact .inl rfl
  | kill pid =>
      obtain ⟨ret, u, run', after⟩ := inv.kill pid enough
      rw [exec, run'] at run
      obtain ⟨-, rfl⟩ := Prod.mk.inj (Except.ok.inj run)
      exact .inl (same after)
  | yield =>
      obtain ⟨c, run', -, after⟩ := inv.toOrder.schedule enough
      rw [exec, run'] at run
      obtain ⟨-, rfl⟩ := Prod.mk.inj (Except.ok.inj run)
      exact .inl rfl
  | resume =>
      obtain ⟨other, waits⟩ := legal
      obtain ⟨pid, waits⟩ := Option.ne_none_iff_exists'.mp waits
      rw [exec, waits] at run
      dsimp only at run
      rw [resume, deref_ok inv.here, ok_bind] at run
      split at run
      · rename_i killed
        have apart : s.current ≠ s.initproc := fun same => goes ⟨same, .inr ⟨rfl, killed⟩⟩
        obtain ⟨u, children', run', after⟩ := inv.exit (-E_KILLED) other apart enough
        rw [run'] at run
        obtain ⟨-, rfl⟩ := Prod.mk.inj (Except.ok.inj run)
        exact .inl (same after)
      · exact round other run

/-! ## The start -/

theorem hashLists_ring {is : List Nat} (distinct : is.Nodup) (l : Links HashNode) :
    ∀ i ∈ is, IsRing (is.foldl (fun l i => listInit l (.hashList i)) l) (.hashList i) [] := by
  have kept : ∀ (is : List Nat) (l : Links HashNode) (i : Nat), i ∉ is → IsRing l (.hashList i) [] →
      IsRing (is.foldl (fun l i => listInit l (.hashList i)) l) (.hashList i) [] := by
    intro is
    induction is with
    | nil => exact fun l i _ ring => ring
    | cons j is ih =>
        intro l i off ring
        refine ih _ i (List.not_mem_of_not_mem_cons off) (listInit_congr ring ?_)
        simpa [eq_comm] using List.ne_of_not_mem_cons off
  induction is generalizing l with
  | nil => simp
  | cons j is ih =>
      obtain ⟨new, distinct⟩ := List.nodup_cons.mp distinct
      intro i inside
      rcases List.mem_cons.mp inside with rfl | inside
      · exact kept is _ i new (listInit_ring l _)
      · exact ih distinct _ i inside

/-- Before the first `do_fork`. -/
def alone (s : Machine) : Machine :=
  let s := { s with
    procList := listInit s.procList .procList
    hashList := (List.range HASH_LIST_SIZE).foldl (fun l i => listInit l (.hashList i)) s.hashList }
  let s := allocProc s idleproc
  let s := s.setProc idleproc { s.procs idleproc with pid := 0, state := .runnable }
  { s with nrProcess := s.nrProcess + 1, current := idleproc }

theorem alone_table (empty : s.live = ∅) (count : s.nrProcess = 0) (last : s.lastPid = MAX_PID)
    (safe : s.nextSafe = MAX_PID) :
    Table (alone s) none [] (fun _ => []) fun _ => [] := by
  have live : (alone s).live = {idleproc} := by
    show insert idleproc s.live = _
    rw [empty]
    rfl
  have absent : ∀ p ∈ (alone s).live, p = idleproc := fun p inside => Finset.mem_singleton.mp (live ▸ inside)
  have child : (alone s).kin.child idleproc = Option.none := by
    simp [alone, allocProc, Machine.setProc]
  have parent : (alone s).kin.parent idleproc = Option.none := by
    simp [alone, allocProc, Machine.setProc]
  have rings := hashLists_ring (List.nodup_range (n := HASH_LIST_SIZE)) s.hashList
  refine ⟨GetPid.initial_inv ⟨⟨_, rfl⟩, last, safe⟩, by simp, by simp, live, ?_, by decide, ⟨fun list head => ?_,
    fun list head list' head' differs => ?_⟩, fun i _ n => iff_of_false List.not_mem_nil ?_, ?_, parent,
      fun p inside => ?_⟩
  · show s.nrProcess + 1 = _
    rw [count]
    rfl
  · obtain ⟨i, small, rfl⟩ := List.mem_map.mp head
    have hashList : (alone s).hashList =
        (List.range HASH_LIST_SIZE).foldl (fun l i => listInit l (.hashList i)) s.hashList := by
      simp only [alone, allocProc, Machine.setProc]
    rw [hashList]
    exact rings i small
  · simpa [eq_comm] using differs
  · rintro ⟨p, inside, -⟩
    cases inside
  · refine ⟨fun p inside => ?_, fun _ _ => trivial, fun p _ _ x first => ?_, fun _ _ => List.nodup_nil,
      fun p inside x => ?_,
      fun x inside p above => ?_⟩
    · rw [absent p inside, child]
      rfl
    · cases first
    · refine iff_of_false List.not_mem_nil ?_
      rintro ⟨member, above⟩
      rw [absent x member, parent] at above
      cases above
    · rw [absent x inside, parent] at above
      cases above
  · rw [absent p inside]
    exact .root

/-- The first search of `get_pid`. -/
theorem getPid_first (table : Table s none [] children entries) (last : s.lastPid = MAX_PID)
    (enough : MAX_PID * (MAX_PROCESS + 1) ≤ fuel) {pid : Int} (run : getPid fuel (begun s p) = .ok (pid, t)) :
    pid = 1 := by
  have positive : 0 < fuel := lt_of_lt_of_le (by decide) enough
  obtain ⟨fuel, rfl⟩ := Nat.exists_eq_succ_of_ne_zero positive.ne'
  have ring : IsRing (begun s p).pids.links .procList [] := table.pids.listed
  have next : (begun s p).pids.links.next .procList = .procList := (List.isChain_cons_cons.mp ring.path).1.1
  have searched : GetPid.getPid (fuel + 1) (begun s p).pids =
      .ok (1, { (begun s p).pids with lastPid := 1, nextSafe := MAX_PID }) := by
    rw [GetPid.getPid, if_pos (by rw [show (begun s p).pids.lastPid = MAX_PID from last]; decide), GetPid.inside,
      GetPid.scan, next]
    rfl
  rw [getPid, searched] at run
  cases run
  rfl

/-- The kernel after `proc_init`: two processes, the second of them the child of the first. -/
theorem procInit_spec (empty : s.live = ∅) (count : s.nrProcess = 0) (last : s.lastPid = MAX_PID)
    (safe : s.nextSafe = MAX_PID)
    (other : p ≠ idleproc) (enough : MAX_PID * (MAX_PROCESS + 1) ≤ fuel) :
    ∃ t children entries, procInit fuel p s = .ok t ∧ Inv t [p] children entries ∧ t.initproc = p ∧
      t.live = {p, idleproc} ∧ t.current = idleproc ∧ ∀ q ∈ t.live, (t.procs q).state = .runnable ∧
        (t.procs q).waitState = 0 ∧ (t.procs q).waits = Option.none := by
  have table := alone_table empty count last safe
  have live : (alone s).live = {idleproc} := table.live
  have proc : (alone s).procs idleproc = ⟨.runnable, 0, 0, 0, (s.procs idleproc).exitCode, Option.none⟩ := by
    simp [alone, allocProc, Machine.setProc]
  have new : p ∉ (alone s).live := by
    rw [live]
    exact Finset.notMem_singleton.mpr other
  have here : (alone s).current = idleproc := by
    simp only [alone]
  obtain ⟨pid, t, run, positive, ⟨u, found⟩, kept, live', forked⟩ :=
    @doFork_granted (alone s) [] (fun _ => []) (fun _ => [])
    p fuel ⟨some p, true, true⟩ table (here ▸ table.idle_live) (by rw [here, proc]) rfl rfl new (by decide) enough
  obtain rfl := getPid_first table (by simp only [alone]; exact last) enough found
  obtain ⟨code, made⟩ := forked.proc
  obtain ⟨entries, table'⟩ := forked.table
  obtain ⟨r, search, exact⟩ := findProc_spec table' 1 (show 1 < fuel from lt_of_lt_of_le (by decide) enough)
  obtain rfl : r = some p := (exact p).mpr ⟨List.mem_singleton_self p, by rw [made]⟩
  have idle : t.procs idleproc = ⟨.runnable, 0, 0, 0, (s.procs idleproc).exitCode, Option.none⟩ :=
    (kept.procs _ table.idle_live).trans proc
  rw [here] at table'
  have all : t.live = {p, idleproc} := live'.trans (by rw [live])
  have both : ∀ q ∈ t.live, (t.procs q).state = .runnable ∧ (t.procs q).waitState = 0 ∧
    (t.procs q).waits = Option.none := by
    intro q inside
    rw [all, Finset.mem_insert, Finset.mem_singleton] at inside
    rcases inside with rfl | rfl
    · simp [made]
    · simp [idle]
  refine ⟨{ t with initproc := p }, _, entries, ?_,
    ⟨⟨⟨table'.pids, table'.range, table'.idle, table'.live, table'.count, table'.few,
    table'.hashed, table'.bucket, table'.families, table'.top, table'.rooted⟩, ?_, List.mem_singleton_self p, ?_, ?_,
      ?_, ?_⟩, ?_⟩, rfl, all, kept.current.trans here, both⟩
  · rw [procInit]
    change (doFork fuel ⟨some p, true, true⟩ (alone s) >>= _) = _
    rw [run, ok_bind]
    dsimp only
    rw [ensure_pos positive, ok_bind, search, ok_bind]
    dsimp only
    rw [ensure_pos (by rw [idle]), ok_bind, ensure_pos (by rw [made]), ok_bind, pure_ok]
  · refine ⟨fun q inside => ?_, fun q inside asleep => ?_, fun q inside _ => (both q inside).2.1,
      fun q inside ended => ?_,
      fun q inside asleep => ?_, fun q inside asleep => ?_⟩
    · simp [both q inside]
    all_goals simp [both q inside] at *
  · rw [Function.update_self]
  · rw [made]
    simp
  · rw [idle]
  · rw [kept.current, here]
    exact table'.idle_live
  · rw [kept.current, here, idle]

/-! ## Runs -/

theorem run_inv (enough : MAX_PID * (MAX_PROCESS + 1) ≤ fuel) (reached : Reachable (Initial fuel) (Step fuel) s) :
    ∃ listed children entries, Inv s listed children entries := by
  refine reached.invariant (fun s => ∃ listed children entries, Inv s listed children entries) (fun t initial => ?_)
    fun s t inv taken => ?_
  · obtain ⟨s, p, empty, count, last, safe, other, run⟩ := initial
    obtain ⟨u, children, entries, boot, inv, -⟩ := procInit_spec empty count last safe other enough
    obtain rfl := Except.ok.inj (run.symm.trans boot)
    exact ⟨[p], children, entries, inv⟩
  · obtain ⟨listed, children, entries, inv⟩ := inv
    obtain ⟨c, answer, legal, run⟩ := taken
    have goes : ¬ InitExits s c := by
      intro exits
      have stops : exec fuel s c = .error .initExit := initExits_error inv.toOrder exits fun same => (same ▸ legal).2
      rw [stops] at run
      cases run
    obtain ⟨answer', u, listed', children', entries', returns, after⟩ := exec_spec inv legal goes enough
    obtain ⟨-, rfl⟩ := Prod.mk.inj (Except.ok.inj (returns.symm.trans run))
    exact ⟨listed', children', entries', after⟩

/-- The memory before `proc_init`. -/
def blank : Machine where
  procs _ := ⟨.uninit, 0, 0, 0, 0, none⟩
  kin := ⟨fun _ => none, fun _ => none, fun _ => none, fun _ => none⟩
  live := ∅
  procList := ⟨id, id⟩
  hashList := ⟨id, id⟩
  lastPid := MAX_PID
  nextSafe := MAX_PID
  nrProcess := 0
  current := idleproc
  initproc := idleproc

def searches : Nat := MAX_PID * (MAX_PROCESS + 1)

instance (s : Machine) (c : Call) : Decidable (Legal s c) :=
  match c with
  | .fork given =>
      inferInstanceAs (Decidable (s.current ≠ idleproc ∧ (s.procs s.current).waits = none ∧
        ∀ p ∈ given.proc, p ∉ s.live))
  | .exit _ | .wait _ _ | .kill _ =>
      inferInstanceAs (Decidable (s.current ≠ idleproc ∧ (s.procs s.current).waits = none))
  | .yield => inferInstanceAs (Decidable ((s.procs s.current).waits = none))
  | .resume => inferInstanceAs (Decidable (s.current ≠ idleproc ∧ (s.procs s.current).waits ≠ none))

/-- The processes make these calls one after the other. -/
def play (fuel : Nat) : List Call → Machine → Kernel Machine
  | [], s => pure s
  | c :: cs, s => do
      ensure (Legal s c) .proc
      let (_, t) ← exec fuel s c
      play fuel cs t

theorem play_reached {cs : List Call} (run : play fuel cs s = .ok t)
    (reached : Reachable (Initial fuel) (Step fuel) s) : Reachable (Initial fuel) (Step fuel) t := by
  induction cs generalizing s with
  | nil =>
      obtain rfl := Except.ok.inj run
      exact reached
  | cons c cs ih =>
      by_cases legal : Legal s c
      · rw [play, ensure_pos legal, ok_bind] at run
        cases made : exec fuel s c with
        | error fault =>
            rw [made] at run
            cases run
        | ok r =>
            rw [made, ok_bind] at run
            exact ih run (reached.next ⟨c, r.1, legal, made⟩)
      · rw [play, ensure, if_neg legal] at run
        cases run

/-- What can be read in the state after `proc_init` and these calls. -/
def seen (cs : List Call) (holds : Machine → Bool) : Bool :=
  match procInit searches 1 blank >>= play searches cs with
  | .ok s => holds s
  | .error _ => false

theorem seen_reached {cs : List Call} {holds : Machine → Bool} (shown : seen cs holds = true) :
    ∃ s, Reachable (Initial searches) (Step searches) s ∧ holds s = true := by
  rw [seen] at shown
  cases boot : procInit searches 1 blank with
  | error fault =>
      rw [boot] at shown
      cases shown
  | ok s =>
      rw [boot, ok_bind] at shown
      cases run : play searches cs s with
      | error fault =>
          rw [run] at shown
          cases shown
      | ok t =>
          rw [run] at shown
          exact ⟨t, play_reached run (.start ⟨blank, 1, rfl, rfl, rfl, rfl, by decide, boot⟩), shown⟩

/-- The initial process has a child and waits for it, and a child of that child ends. -/
def waiting : List Call :=
  [.yield, .fork ⟨some 2, true, true⟩, .wait 0 true, .fork ⟨some 3, true, true⟩, .yield, .exit 7]

/-- The child ends too, and leaves its own to the initial process. -/
def adopted : List Call := waiting ++ [.exit 8]

theorem adopted_reached : ∃ s, Reachable (Initial searches) (Step searches) s ∧
    s.live = {3, 2, 1, idleproc} ∧ s.current = 1 ∧ (s.procs 3).state = .zombie ∧ s.kin.parent 3 = some 1 ∧
    (s.procs 1).waits ≠ none ∧ (s.procs 1).flags = 0 := by
  obtain ⟨s, reached, facts⟩ := @seen_reached adopted (fun s => decide (s.live = {3, 2, 1, idleproc} ∧ s.current = 1 ∧
    (s.procs 3).state = .zombie ∧ s.kin.parent 3 = some 1 ∧ (s.procs 1).waits ≠ none ∧ (s.procs 1).flags = 0))
    (by decide +kernel)
  exact ⟨s, reached, of_decide_eq_true facts⟩

theorem waiting_reached : ∃ s, Reachable (Initial searches) (Step searches) s ∧ 1 ∈ s.live ∧
    (s.procs 1).state = .sleeping ∧ (s.procs 3).state = .zombie ∧ s.kin.parent 3 = some 2 ∧ s.current = 2 := by
  obtain ⟨s, reached, facts⟩ := @seen_reached waiting (fun s => decide (1 ∈ s.live ∧ (s.procs 1).state = .sleeping ∧
    (s.procs 3).state = .zombie ∧ s.kin.parent 3 = some 2 ∧ s.current = 2)) (by decide +kernel)
  exact ⟨s, reached, of_decide_eq_true facts⟩

/-- Whatever the processes have called, the lists of processes agree with one another. -/
theorem reached_table (enough : MAX_PID * (MAX_PROCESS + 1) ≤ fuel) (reached : Reachable (Initial fuel) (Step fuel) s) :
    ∃ listed children entries, Table s none listed children entries ∧
      (∀ p ∈ listed, ∃ q ∈ s.live, s.kin.parent p = some q ∧ (s.procs q).state ≠ .zombie) ∧
      ∀ pid, ∃ r, findProc fuel s pid = .ok r ∧ ∀ p, r = some p ↔ p ∈ listed ∧ (s.procs p).pid = pid := by
  obtain ⟨listed, children, entries, inv⟩ := run_inv enough reached
  exact ⟨listed, children, entries, inv.table, fun p inside => inv.parent inside, fun pid =>
    findProc_spec inv.table pid (inv.toOrder.room enough)⟩

theorem reached_table_adopted : ∃ s, s.live = {3, 2, 1, idleproc} ∧ s.kin.parent 3 = some 1 ∧
    ∃ listed children entries, Table s none listed children entries ∧
      (∀ p ∈ listed, ∃ q ∈ s.live, s.kin.parent p = some q ∧ (s.procs q).state ≠ .zombie) ∧
      ∀ pid, ∃ r, findProc searches s pid = .ok r ∧ ∀ p, r = some p ↔ p ∈ listed ∧ (s.procs p).pid = pid := by
  obtain ⟨s, reached, live, -, -, parent, -⟩ := adopted_reached
  exact ⟨s, live, parent, reached_table (Nat.le_refl searches) reached⟩

/-- No call fails an assertion, follows a pointer to a structure that was freed, or runs on for
    ever. Only the end of the initial process stops the kernel. -/
theorem reached_returns {c : Call} (enough : MAX_PID * (MAX_PROCESS + 1) ≤ fuel)
    (reached : Reachable (Initial fuel) (Step fuel) s)
    (legal : Legal s c) :
    (InitExits s c ∧ exec fuel s c = .error .initExit) ∨ ¬ InitExits s c ∧
    ∃ answer t, exec fuel s c = .ok (answer, t) := by
  obtain ⟨listed, children, entries, inv⟩ := run_inv enough reached
  by_cases exits : InitExits s c
  · exact .inl ⟨exits, initExits_error inv.toOrder exits fun same => (same ▸ legal).2⟩
  · obtain ⟨answer, t, -, -, -, run, -⟩ := exec_spec inv legal exits enough
    exact .inr ⟨exits, answer, t, run⟩

theorem reached_returns_adopted : ∃ s, s.live = {3, 2, 1, idleproc} ∧ (s.procs 3).state = .zombie ∧
    ∃ answer t, exec searches s .resume = .ok (answer, t) := by
  obtain ⟨s, reached, live, here, ended, -, waits, flags⟩ := adopted_reached
  have legal : Legal s .resume := ⟨here ▸ by decide, here ▸ waits⟩
  rcases reached_returns (Nat.le_refl searches) reached legal with ⟨⟨-, exits⟩, -⟩ | ⟨-, returns⟩
  · rcases exits with ⟨code, wrong⟩ | ⟨-, killed⟩
    · cases wrong
    · rw [here, flags] at killed
      exact absurd (by decide) killed
  · exact ⟨s, live, ended, returns⟩

theorem Inv.heard (inv : Inv s listed children entries) (live : p ∈ s.live) (asleep : (s.procs p).state = .sleeping) :
    ∃ pid, (s.procs p).waits = some pid ∧ (∃ x ∈ s.live, s.kin.parent x = some p ∧ Wanted s pid x) ∧
      ∀ x ∈ s.live, s.kin.parent x = some p → Wanted s pid x → (s.procs x).state ≠ .zombie := by
  obtain ⟨pid, waits⟩ := Option.ne_none_iff_exists'.mp (inv.calm.asleep p live asleep).2
  obtain ⟨x, child, wanted⟩ := inv.calm.hopeful p live asleep pid waits
  have mine := inv.table.families.parent p live
  refine ⟨pid, waits, ⟨x, ((mine x).mp child).1, ((mine x).mp child).2, wanted⟩, fun y there parent asked => ?_⟩
  exact inv.calm.heard p live asleep pid waits y ((mine y).mpr ⟨there, parent⟩) asked

/-- A process that sleeps in `do_wait` waits for a child that is there, and none that it waits for
    has ended. -/
theorem reached_heard (enough : MAX_PID * (MAX_PROCESS + 1) ≤ fuel) (reached : Reachable (Initial fuel) (Step fuel) s)
    (live : p ∈ s.live) (asleep : (s.procs p).state = .sleeping) :
    ∃ pid, (s.procs p).waits = some pid ∧ (∃ x ∈ s.live, s.kin.parent x = some p ∧ Wanted s pid x) ∧
      ∀ x ∈ s.live, s.kin.parent x = some p → Wanted s pid x → (s.procs x).state ≠ .zombie := by
  obtain ⟨listed, children, entries, inv⟩ := run_inv enough reached
  exact inv.heard live asleep

theorem reached_heard_waiting : ∃ (s : Machine) (p : Ptr) (pid : Int), (s.procs p).state = .sleeping ∧
    (s.procs p).waits = some pid ∧
    (∃ x ∈ s.live, s.kin.parent x = some p ∧ Wanted s pid x) ∧
    ∀ x ∈ s.live, s.kin.parent x = some p → Wanted s pid x → (s.procs x).state ≠ .zombie := by
  obtain ⟨s, reached, live, asleep, -⟩ := waiting_reached
  obtain ⟨pid, heard⟩ := reached_heard (Nat.le_refl searches) reached live asleep
  exact ⟨s, 1, pid, asleep, heard⟩

/-- No wake-up is lost: none of the children that a sleeping process waits for has ended. No call
    fails an assertion or frees a structure that is not allocated, and what it frees is one child of
    its process that has ended. -/
theorem reached_noLostWakeUp (enough : MAX_PID * (MAX_PROCESS + 1) ≤ fuel)
    (reached : Reachable (Initial fuel) (Step fuel) s) :
    (∀ p ∈ s.live, (s.procs p).state = .sleeping → (s.procs p).waitState = WT_CHILD →
      ∃ pid, (s.procs p).waits = some pid ∧
        ∀ x ∈ s.live, s.kin.parent x = some p → Wanted s pid x → (s.procs x).state ≠ .zombie) ∧
    ∀ c, Legal s c → exec fuel s c ≠ .error .assertion ∧ exec fuel s c ≠ .error .pointer ∧
      ∀ answer t, exec fuel s c = .ok (answer, t) →
        t.live = s.live ∨ (∃ p, p ∉ s.live ∧ t.live = insert p s.live) ∨
          ∃ z ∈ s.live, (s.procs z).state = .zombie ∧ s.kin.parent z = some s.current ∧ t.live = s.live.erase z := by
  obtain ⟨listed, children, entries, inv⟩ := run_inv enough reached
  refine ⟨fun p live asleep _ => ?_, fun c legal => ?_⟩
  · obtain ⟨pid, waits, -, nobody⟩ := inv.heard live asleep
    exact ⟨pid, waits, nobody⟩
  · by_cases exits : InitExits s c
    · have stops : exec fuel s c = .error .initExit := initExits_error inv.toOrder exits fun same => (same ▸ legal).2
      rw [stops]
      exact ⟨by simp, by simp, fun answer t run => by cases run⟩
    · obtain ⟨answer', u, -, -, -, run', -⟩ := exec_spec inv legal exits enough
      refine ⟨?_, ?_, fun answer t run => exec_live inv legal exits enough run⟩
      · rw [run']
        simp
      · rw [run']
        simp

/-- The initial process sleeps, and a grandchild of it has ended. -/
theorem reached_noLostWakeUp_waiting : ∃ s, (s.procs 1).state = .sleeping ∧ (s.procs 3).state = .zombie ∧
    s.kin.parent 3 = some 2 ∧
    (∀ p ∈ s.live, (s.procs p).state = .sleeping → (s.procs p).waitState = WT_CHILD →
      ∃ pid, (s.procs p).waits = some pid ∧
        ∀ x ∈ s.live, s.kin.parent x = some p → Wanted s pid x → (s.procs x).state ≠ .zombie) ∧
    ∀ c, Legal s c → exec searches s c ≠ .error .assertion ∧ exec searches s c ≠ .error .pointer ∧
      ∀ answer t, exec searches s c = .ok (answer, t) →
        t.live = s.live ∨ (∃ p, p ∉ s.live ∧ t.live = insert p s.live) ∨
          ∃ z ∈ s.live, (s.procs z).state = .zombie ∧ s.kin.parent z = some s.current ∧ t.live = s.live.erase z := by
  obtain ⟨s, reached, -, asleep, ended, parent, -⟩ := waiting_reached
  exact ⟨s, asleep, ended, parent, reached_noLostWakeUp (Nat.le_refl searches) reached⟩

/-- The idle process always finds another one to run. -/
theorem reached_runnable (enough : MAX_PID * (MAX_PROCESS + 1) ≤ fuel)
    (reached : Reachable (Initial fuel) (Step fuel) s) :
    ∃ p ∈ s.live, p ≠ idleproc ∧ (s.procs p).state = .runnable := by
  obtain ⟨listed, children, entries, inv⟩ := run_inv enough reached
  have init := inv.table.listed_live inv.init
  have apart := ne_of_mem_of_not_mem inv.init inv.table.idle
  -- the lowest of the processes that have not ended
  have able : s.initproc ≠ idleproc ∧ (s.procs s.initproc).state ≠ .zombie := ⟨apart, inv.able⟩
  obtain ⟨p, live, ⟨other, goes⟩, below⟩ :=
    @exists_lowest _ _ _ _ _ (fun p => p ≠ idleproc ∧
      (s.procs p).state ≠ .zombie) inv.table.top inv.table.rooted init able
  refine ⟨p, live, other, ?_⟩
  cases state : (s.procs p).state with
  | uninit => exact absurd state (inv.calm.begun p live)
  | zombie => exact absurd state goes
  | runnable => rfl
  | sleeping =>
      obtain ⟨pid, waits⟩ := Option.ne_none_iff_exists'.mp (inv.calm.asleep p live state).2
      obtain ⟨x, child, wanted⟩ := inv.calm.hopeful p live state pid waits
      have alive := inv.calm.heard p live state pid waits x child wanted
      have listed' := inv.table.child_listed live child
      exact absurd ⟨ne_of_mem_of_not_mem listed' inv.table.idle, alive⟩
        (below x (inv.table.listed_live listed') ((inv.table.families.parent p live x).mp child).2)

theorem reached_runnable_waiting : ∃ (s : Machine) (q : Ptr), (s.procs q).state = .sleeping ∧
    ∃ p ∈ s.live, p ≠ idleproc ∧ (s.procs p).state = .runnable := by
  obtain ⟨s, reached, -, asleep, -⟩ := waiting_reached
  exact ⟨s, 1, asleep, reached_runnable (Nat.le_refl searches) reached⟩

/-- In every state `do_wait` gives what it says: a child it reaps has ended, and a process that
    goes to sleep has a child to wait for. -/
theorem reached_wait (enough : MAX_PID * (MAX_PROCESS + 1) ≤ fuel) (reached : Reachable (Initial fuel) (Step fuel) s)
    (other : s.current ≠ idleproc) (pid : Int) :
    ∃ answer t, waitRound fuel pid s = .ok (answer, t) ∧ Waited s pid answer t := by
  obtain ⟨listed, children, entries, inv⟩ := run_inv enough reached
  obtain ⟨answer, t, -, -, -, run, -, waited⟩ := inv.waitRound other pid enough
  exact ⟨answer, t, run, waited⟩

theorem reached_wait_adopted : ∃ s answer t, (s.procs 3).state = .zombie ∧ s.kin.parent 3 = some s.current ∧
    waitRound searches 0 s = .ok (answer, t) ∧ Waited s 0 answer t := by
  obtain ⟨s, reached, -, here, ended, parent, -⟩ := adopted_reached
  obtain ⟨answer, t, waited⟩ := reached_wait (Nat.le_refl searches) reached (here ▸ by decide) 0
  exact ⟨s, answer, t, ended, here ▸ parent, waited⟩

/-! ## The initial process -/

/-- The assertions of `init_main` after its loop. -/
structure Quit (s : Machine) : Prop where
  cptr : s.kin.child s.initproc = none
  yptr : s.kin.younger s.initproc = none
  optr : s.kin.older s.initproc = none
  nrProcess : s.nrProcess = 2
  next : s.procList.next .procList = .listLink s.initproc
  prev : s.procList.prev .procList = .listLink s.initproc

theorem Order.quit (order : Order s listed children entries) (childless : children s.initproc = []) : Quit s := by
  have init := order.table.listed_live order.init
  have only : ∀ p, Rooted s.kin idleproc p → p ∈ s.live → p = idleproc ∨ p = s.initproc := by
    intro p rooted
    induction rooted with
    | root => exact fun _ => .inl rfl
    | @child x q parent _ ih =>
        intro live
        have above := order.table.families.closed x live q parent
        have child := (order.table.families.parent q above x).mpr ⟨live, parent⟩
        rcases ih above with rfl | rfl
        · exact .inr (List.mem_singleton.mp (order.top ▸ child))
        · rw [childless] at child
          cases child
  have single : listed = [s.initproc] := by
    have all : ∀ p ∈ listed, p = s.initproc := by
      intro p inside
      have live := order.table.listed_live inside
      exact (only p (order.table.rooted p live) live).resolve_left (ne_of_mem_of_not_mem inside order.table.idle)
    refine List.perm_singleton.mp ((List.perm_ext_iff_of_nodup order.table.nodup (List.nodup_singleton _)).mpr
      fun p => ?_)
    rw [List.mem_singleton]
    exact ⟨all p, fun same => same ▸ order.init⟩
  have families := order.table.families
  have row := order.top ▸ families.row _ order.table.idle_live
  have front := order.top ▸ families.front _ order.table.idle_live (by simp)
  have ring : IsRing s.procList .procList [.listLink s.initproc] := by
    have listed' := order.table.pids.listed
    rwa [single] at listed'
  refine ⟨?_, front _ rfl, row.1, ?_, ?_, ?_⟩
  · rw [families.child _ init, childless]
    rfl
  · rw [order.table.count, single]
    rfl
  · exact ring.next_head_cons
  · exact ring.prev_head

/-- When the children of the initial process are all reaped, it is alone with the idle one, as
    `init_main` asserts. -/
theorem reached_quit {c : Call} {code : Option Int} (enough : MAX_PID * (MAX_PROCESS + 1) ≤ fuel)
    (reached : Reachable (Initial fuel) (Step fuel) s) (init : s.current = s.initproc)
    (waits : c = .wait 0 true ∨ c = .resume ∧ (s.procs s.current).waits = some 0)
    (run : exec fuel s c = .ok (some (-E_BAD_PROC, code), t)) : Quit t := by
  obtain ⟨listed, children, entries, inv⟩ := run_inv enough reached
  have other : s.current ≠ idleproc := by
    rw [init]
    exact ne_of_mem_of_not_mem inv.init inv.table.idle
  have waited : waitRound fuel 0 s = .ok (some (-E_BAD_PROC, code), t) := by
    rcases waits with rfl | ⟨rfl, waits⟩
    · rwa [exec, doWait, if_pos rfl] at run
    · rw [exec, waits] at run
      dsimp only at run
      rw [resume, deref_ok inv.here, ok_bind] at run
      split at run
      · rw [doExit_init _ other init] at run
        cases run
      · exact run
  obtain ⟨answer, u, -, -, -, run', -, round⟩ := inv.waitRound other 0 enough
  obtain ⟨rfl, rfl⟩ := Prod.mk.inj (Except.ok.inj (waited.symm.trans run'))
  cases round with
  | childless nobody =>
      have childless : children s.initproc = [] := by
        refine List.eq_nil_iff_forall_not_mem.mpr fun x child => ?_
        rw [← init] at child
        obtain ⟨live, parent⟩ := (inv.table.families.parent _ inv.here x).mp child
        exact nobody x live parent fun zero => absurd rfl zero
      have quit := inv.toOrder.quit childless
      exact ⟨quit.cptr, quit.yptr, quit.optr, quit.nrProcess, quit.next, quit.prev⟩

/-- Both children are reaped before. -/
theorem reached_quit_adopted : ∃ s t code, s.live = {1, idleproc} ∧
    exec searches s (.wait 0 true) = .ok (some (-E_BAD_PROC, code), t) ∧ Quit t := by
  obtain ⟨s, reached, facts⟩ := @seen_reached (adopted ++ [.resume, .wait 0 true])
    (fun s => decide (s.live = {1, idleproc} ∧
    s.current = s.initproc ∧ (exec searches s (.wait 0 true)).toOption.bind Prod.fst = some (-E_BAD_PROC, none)))
    (by decide +kernel)
  obtain ⟨live, here, answers⟩ := of_decide_eq_true facts
  cases run : exec searches s (.wait 0 true) with
  | error fault =>
      rw [run] at answers
      cases answers
  | ok r =>
      rw [run] at answers
      obtain ⟨answer, t⟩ := r
      obtain rfl : answer = some (-E_BAD_PROC, none) := answers
      exact ⟨s, t, none, live, run, reached_quit (Nat.le_refl searches) reached here (.inl rfl) run⟩

end Ucore.Process.Family
