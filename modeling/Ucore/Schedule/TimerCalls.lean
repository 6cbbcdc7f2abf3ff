import Ucore.Schedule.TimerList

/-! # The calls on the timer list

Any of `timer_init`, `add_timer`, `del_timer` and `run_timer_list`, and in between
anything else the kernel does with its processes. Each function is shown to keep
the list and to change the time of no timer but its own.
-/

namespace Ucore.Schedule.TimerCalls

open Lib.Ring Lib.Deltas Libs.Assert Libs.List Sched TimerList

/-- The timer list, and which timers were initialised. -/
structure Sys where
  timers : Timers
  known : List Nat

inductive Call where
  | timerInit (timer : Nat) (proc : Option Pid) (expires : BitVec 32)
  | addTimer (timer : Nat)
  | delTimer (timer : Nat)
  | runTimerList
  | others (kernel : Kernel)

def Call.ticks : Call → Nat
  | .runTimerList => 1
  | _ => 0

def Call.Touches (x : Nat) : Call → Prop
  | .timerInit timer _ _ => timer = x
  | .addTimer timer => timer = x
  | .delTimer timer => timer = x
  | .runTimerList => False
  | .others _ => False

def exec (fuel : Nat) (s : Sys) : Call → Result (Sys × List (Nat × Pid))
  | .timerInit timer proc expires =>
      .ok (⟨TimerList.timerInit s.timers timer proc expires, timer :: s.known⟩, [])
  | .addTimer timer => do
      let timers ← TimerList.addTimer fuel s.timers timer
      pure ({ s with timers := timers }, [])
  | .delTimer timer => .ok ({ s with timers := TimerList.delTimer s.timers timer }, [])
  | .runTimerList => do
      let (timers, fired) ← TimerList.runTimerList fuel s.timers
      pure ({ s with timers := timers }, fired)
  | .others kernel => .ok ({ s with timers := { s.timers with kernel := kernel } }, [])

/-- A timer that `timer_init` was called on and that `list_empty` finds on a list. -/
def Pending (s : Sys) (timer : Nat) : Prop :=
  timer ∈ s.known ∧ listEmpty s.timers.links (.timerLink timer) = false

/-- The process can be woken, and waits for nothing that must not be interrupted:
    `do_sleep` has it wait for its timer. -/
def Wakeable (k : Kernel) (p : Pid) : Prop :=
  (k.procs p).state ≠ .zombie ∧
    ((k.procs p).waitState = 0 ∨ (k.procs p).waitState &&& WT_INTERRUPTED ≠ 0)

/-- What the callers promise. No timer is initialised again while it is pending, only
    initialised timers are added and deleted, and the rest of the kernel lets no
    process of a pending timer exit. -/
def Legal (s : Sys) : Call → Prop
  | .timerInit timer _ _ => ¬ Pending s timer
  | .addTimer timer => timer ∈ s.known ∧ ¬ Pending s timer ∧ 0 < s.timers.expires timer ∧
      ∃ p, s.timers.proc timer = some p ∧ Wakeable s.timers.kernel p
  | .delTimer timer => timer ∈ s.known
  | .runTimerList => True
  | .others kernel => Queued kernel ∧
      ∀ timer, Pending s timer → ∀ p, s.timers.proc timer = some p → Wakeable kernel p

/-! ## The timers on the list -/

/-- The list holds the timers `xs`. -/
structure Listed (s : Sys) (xs : List Nat) : Prop where
  ring : IsRing s.timers.links .timerList (xs.map .timerLink)
  known : ∀ x ∈ xs, x ∈ s.known
  off : ∀ x ∈ s.known, x ∉ xs → listEmpty s.timers.links (.timerLink x) = true
  small : span s.timers.expires xs < 2 ^ 32
  word : ∀ x ∈ s.known, s.timers.expires x < 2 ^ 32
  wakeable : ∀ x ∈ xs, ∃ p, s.timers.proc x = some p ∧ Wakeable s.timers.kernel p
  queued : Queued s.timers.kernel

/-- Between calls the first timer still has ticks to wait. -/
structure Idle (s : Sys) (xs : List Nat) : Prop extends Listed s xs where
  ahead : ∀ x ∈ xs.head?, s.timers.expires x ≠ 0

theorem timerLink_injective : Function.Injective Node.timerLink := fun _ _ same => Node.timerLink.inj same

namespace Listed

variable {s : Sys} {xs before after : List Nat} {x : Nat}

theorem nodup (listed : Listed s xs) : xs.Nodup :=
  (List.nodup_map_iff timerLink_injective).mp listed.ring.nodes_nodup

theorem pending_iff (listed : Listed s xs) : Pending s x ↔ x ∈ xs := by
  constructor
  · intro ⟨known, on⟩
    by_contra away
    simp [listed.off x known away] at on
  · intro inside
    exact ⟨listed.known x inside, listEmpty_member listed.ring (List.mem_map_of_mem inside)⟩

theorem off_ring (outside : x ∉ xs) : Node.timerLink x ∉ Node.timerList :: xs.map .timerLink := by
  simpa using outside

theorem expires_small (listed : Listed s xs) (inside : x ∈ xs) : s.timers.expires x < 2 ^ 32 :=
  listed.word x (listed.known x inside)

end Listed

/-- The entry `add_timer` stops at in front of the timers `xs`. -/
def place : List Nat → Node
  | [] => .timerList
  | x :: _ => .timerLink x

theorem next_place {s : Sys} {xs : List Nat} (ring : IsRing s.timers.links .timerList (xs.map .timerLink)) :
    s.timers.links.next .timerList = place xs := by
  cases xs with
  | nil => exact ring.next_head_nil
  | cons x xs => exact ring.next_head_cons

theorem next_timer {s : Sys} {x : Nat} {before after : List Nat}
    (ring : IsRing s.timers.links .timerList ((before ++ x :: after).map .timerLink)) :
    s.timers.links.next (.timerLink x) = place after := by
  rw [List.map_append, List.map_cons] at ring
  rw [ring.next_eq]
  cases after <;> rfl

theorem insert_place {l : Links Node} {before after : List Nat} {x : Nat}
    (ring : IsRing l .timerList ((before ++ after).map .timerLink)) (fresh : x ∉ before ++ after) :
    IsRing (listAddBefore l (place after) (.timerLink x)) .timerList
      ((before ++ x :: after).map .timerLink) := by
  have outside := Listed.off_ring fresh
  cases after with
  | nil =>
      rw [List.append_nil] at ring outside
      rw [List.map_append]
      exact ring.insert_last outside
  | cons y after =>
      rw [List.map_append, List.map_cons] at ring outside
      rw [List.map_append, List.map_cons, List.map_cons]
      exact listAddBefore_ring ring outside

/-! ## `add_timer` -/

/-- The loop stops in front of the first timer due later, with the ticks up to there
    taken off the new one. -/
theorem addLoop_spec {s0 : Sys} {x t : Nat} {xs : List Nat} (listed : Listed s0 xs) (fresh : x ∉ xs)
    (word : t < 2 ^ 32) {before after : List Nat} (split : xs = before ++ after)
    (passed : span s0.timers.expires before ≤ t) {s : Timers} (reached : s = { s0.timers with
      expires := Function.update s0.timers.expires x (t - span s0.timers.expires before) }) :
    ∃ front back, xs = front ++ back ∧ span s0.timers.expires front ≤ t ∧
      (∀ y ∈ back.head?, t - span s0.timers.expires front < s0.timers.expires y) ∧
      ∀ fuel, after.length < fuel → addLoop x fuel s (place after) =
        .ok ({ s with expires := spread s0.timers.expires back x (t - span s0.timers.expires front) },
          place back) := by
  induction after generalizing before s with
  | nil =>
      refine ⟨before, [], split, passed, by simp, fun fuel enough => ?_⟩
      obtain ⟨fuel, rfl⟩ := Nat.exists_eq_add_of_lt enough
      rw [reached]
      rfl
  | cons y after ih =>
      have other : y ≠ x := fun same => fresh (by simp [split, same])
      have yWord : s0.timers.expires y < 2 ^ 32 := listed.expires_small (by simp [split])
      have delta : s.expires x = t - span s0.timers.expires before := by simp [reached]
      have next : s.expires y = s0.timers.expires y := by simp [reached, other]
      by_cases sooner : s.expires x < s.expires y
      · refine ⟨before, y :: after, split, passed, ?_, fun fuel enough => ?_⟩
        · intro z first
          obtain rfl : y = z := by simpa using first
          rwa [← delta, ← next]
        · obtain ⟨fuel, rfl⟩ := Nat.exists_eq_add_of_lt enough
          rw [place, addLoop, if_pos sooner, sub32_eq (by omega) (by omega), delta, next, reached]
          rfl
      · have passed' : span s0.timers.expires (before ++ [y]) ≤ t := by
          rw [span_append, span_cons, span_nil]
          omega
        have reached' : s.setExpires x (sub32 (s.expires x) (s.expires y)) = { s0.timers with
            expires := Function.update s0.timers.expires x
              (t - span s0.timers.expires (before ++ [y])) } := by
          rw [sub32_eq (by omega) (by omega), delta, next, span_append, span_cons, span_nil, reached,
            Timers.setExpires, Function.update_idem, Nat.add_zero, Nat.sub_sub]
        obtain ⟨front, back, same, within, later, run⟩ :=
          ih (by simp [split]) passed' reached'
        refine ⟨front, back, same, within, later, fun fuel enough => ?_⟩
        obtain ⟨fuel, rfl⟩ : ∃ n, fuel = n + 1 := Nat.exists_eq_succ_of_ne_zero (by omega)
        have ring : IsRing s.links .timerList ((before ++ y :: after).map .timerLink) := by
          rw [reached, ← split]
          exact listed.ring
        have step : s.links.next (.timerLink y) = place after :=
          @next_timer ⟨s, s0.known⟩ y before after ring
        rw [place, addLoop, if_neg sooner, step, run fuel (by simpa using enough)]
        rfl

theorem addTimer_spec {s : Sys} {xs : List Nat} (idle : Idle s xs) {x : Nat}
    (legal : Legal s (.addTimer x)) :
    ∃ front back timers, xs = front ++ back ∧
      (∀ fuel, xs.length < fuel → addTimer fuel s.timers x = .ok timers) ∧
      Idle { s with timers := timers } (front ++ x :: back) ∧ timers.proc = s.timers.proc ∧
      ∀ y, due timers.expires (front ++ x :: back) y =
        if y = x then some (s.timers.expires x) else due s.timers.expires xs y := by
  obtain ⟨known, free, positive, p, proc, wakeable⟩ := legal
  have fresh : x ∉ xs := fun inside => free (idle.pending_iff.mpr inside)
  have word := idle.word x known
  have empty := idle.off x known fresh
  obtain ⟨front, back, split, passed, later, run⟩ := addLoop_spec idle.toListed fresh word
    (List.nil_append xs).symm (Nat.zero_le _)
    (show s.timers = { s.timers with
      expires := Function.update s.timers.expires x (s.timers.expires x - 0) } by simp)
  have stops : ∀ fuel, xs.length < fuel → addTimer fuel s.timers x = .ok { s.timers with
      links := listAddBefore s.timers.links (place back) (.timerLink x)
      expires := spread s.timers.expires back x (s.timers.expires x - span s.timers.expires front) } := by
    intro fuel enough
    rw [addTimer, assert_bind ⟨positive, by simp [proc]⟩, assert_bind empty, next_place idle.ring,
      run fuel enough]
    rfl
  subst split
  have fits : ∀ y ∈ back.head?,
      s.timers.expires x - span s.timers.expires front ≤ s.timers.expires y :=
    fun y first => (later y first).le
  have exact_ : span s.timers.expires front + (s.timers.expires x - span s.timers.expires front) =
    s.timers.expires x := by omega
  have times := due_spread idle.nodup fresh fits
  have total := span_spread idle.nodup fresh fits
  rw [exact_] at times total
  refine ⟨front, back, _, rfl, stops, ⟨⟨insert_place idle.ring fresh, ?_, ?_, ?_, ?_, ?_, idle.queued⟩, ?_⟩,
    rfl, times⟩
  · intro y inside
    by_cases same : y = x
    · exact same ▸ known
    · exact idle.known y (by simpa [same] using inside)
  · intro y yKnown outside
    have away : y ≠ x ∧ y ∉ front ++ back := by
      simp only [List.mem_append, List.mem_cons, not_or] at outside ⊢
      tauto
    have member : place back ∈ Node.timerList :: (front ++ back).map .timerLink := by
      cases back <;> simp [place]
    have other : Node.timerLink y ≠ .timerLink x := fun same => away.1 (timerLink_injective same)
    have same := listAddBefore_off _ idle.ring member (Listed.off_ring away.2) other
    simpa only [listEmpty, same] using idle.off y yKnown away.2
  · show span _ _ < _
    rw [total]
    split
    · exact word
    · exact idle.small
  · intro y yKnown
    have := idle.word y yKnown
    exact (spread_le _ _ _ _ _).trans_lt (by omega)
  · intro y inside
    by_cases same : y = x
    · exact ⟨p, same ▸ proc, wakeable⟩
    · exact idle.wakeable y (by simpa [same] using inside)
  · intro y first
    cases front with
    | nil =>
        obtain rfl : x = y := by simpa using first
        have here : spread s.timers.expires back x (s.timers.expires x) x = s.timers.expires x := by
          have := times x
          rw [if_pos rfl, List.nil_append, due_cons, if_pos rfl] at this
          simpa using this
        simp only [span_nil, Nat.sub_zero, here]
        omega
    | cons z front =>
        obtain rfl : z = y := by simpa using first
        have out : z ∉ back := fun inside => (List.nodup_cons.mp idle.nodup).1 (by simp [inside])
        have ne : z ≠ x := fun same => fresh (by simp [same])
        have kept : spread s.timers.expires back x
            (s.timers.expires x - span s.timers.expires (z :: front)) z = s.timers.expires z :=
          spread_of_ne ne fun first => out (List.mem_of_mem_head? first)
        simp only [kept]
        exact idle.ahead z rfl

/-! ## `del_timer` -/

/-- A pending timer leaves the list, and its ticks go to the one behind it. -/
theorem delTimer_listed {s : Sys} {x : Nat} {before after : List Nat}
    (listed : Listed s (before ++ x :: after)) :
    Listed { s with timers := delTimer s.timers x } (before ++ after) ∧
      delTimer s.timers x = { s.timers with
        expires := close s.timers.expires after x
        links := listDelInit s.timers.links (.timerLink x) } := by
  have inside : x ∈ before ++ x :: after := by simp
  have on : listEmpty s.timers.links (.timerLink x) = false :=
    listEmpty_member listed.ring (List.mem_map_of_mem inside)
  have run : delTimer s.timers x = { s.timers with
      expires := close s.timers.expires after x
      links := listDelInit s.timers.links (.timerLink x) } := by
    rw [delTimer, on, next_timer listed.ring]
    cases after with
    | nil => simp [place, close]
    | cons y after =>
        have small := listed.small
        rw [span_append, span_cons, span_cons] at small
        by_cases zero : s.timers.expires x = 0
        · simp [zero, close]
        · simp [zero, place, close, Timers.setExpires, add32_eq (show
            s.timers.expires y + s.timers.expires x < 2 ^ 32 by omega)]
  refine ⟨?_, run⟩
  have small := listed.small
  have ring := listed.ring
  rw [List.map_append, List.map_cons] at ring
  rw [run]
  refine ⟨?_, ?_, ?_, (span_close listed.nodup).trans_lt small, ?_, ?_, listed.queued⟩
  · rw [List.map_append]
    exact listDelInit_ring ring
  · exact fun y member => listed.known y (by simp at member ⊢; tauto)
  · intro y known outside
    by_cases same : y = x
    · subst same
      exact listEmpty_listInit _ _
    · have away : y ∉ before ++ x :: after := by
        simp only [List.mem_append, List.mem_cons, not_or] at outside ⊢
        tauto
      have member : Node.timerLink x ∈ .timerList :: (before ++ x :: after).map .timerLink := by simp
      have kept := listDelInit_off listed.ring member (Listed.off_ring away)
      simpa only [listEmpty, kept] using listed.off y known away
  · intro y known
    cases after with
    | nil => exact listed.word y known
    | cons z after =>
        rw [span_append, span_cons, span_cons] at small
        simp only [close, Function.update_apply]
        split
        · omega
        · exact listed.word y known
  · exact fun y member => listed.wakeable y (by simp at member ⊢; tauto)

/-! ## `run_timer_list` -/

theorem Wakeable.woken {k k' : Kernel} {p q : Pid} (fit : Wakeable k q) (woken : Woken k p k') :
    Wakeable k' q := by
  by_cases same : q = p
  · subst same
    refine ⟨by simp [woken.state], ?_⟩
    rw [woken.waitState]
    split
    · exact fit.2
    · exact Or.inl rfl
  · rw [Wakeable, woken.others q same]
    exact fit

theorem Listed.setKernel {s : Sys} {xs : List Nat} (listed : Listed s xs) {k : Kernel}
    (queued : Queued k) (fit : ∀ p, Wakeable s.timers.kernel p → Wakeable k p) :
    Listed { s with timers := { s.timers with kernel := k } } xs :=
  { listed with
    queued := queued
    wakeable := fun x inside =>
      let ⟨p, proc, wakeable⟩ := listed.wakeable x inside
      ⟨p, proc, fit p wakeable⟩ }

/-- One turn of the loop at a timer with no ticks left. -/
theorem runLoop_fires {s : Sys} {x : Nat} {xs : List Nat} (listed : Listed s (x :: xs))
    (zero : s.timers.expires x = 0) :
    ∃ p t, s.timers.proc x = some p ∧ Listed { s with timers := t } xs ∧
      t.expires = s.timers.expires ∧ t.proc = s.timers.proc ∧
      ∀ fuel, runLoop (fuel + 1) s.timers x = match place xs with
        | .timerList => .ok (t, [(x, p)])
        | .timerLink next => (runLoop fuel t next >>= fun (t, fired) => pure (t, (x, p) :: fired)) := by
  obtain ⟨p, proc, alive, waits⟩ := listed.wakeable x (by simp)
  obtain ⟨k, runs, woken⟩ := wakeupProc_woken listed.queued alive
  have kept := listed.setKernel woken.queued fun q fit => fit.woken woken
  obtain ⟨gone, left⟩ := @delTimer_listed _ x [] xs kept
  have expires : (delTimer { s.timers with kernel := k } x).expires = s.timers.expires := by
    rw [left]
    exact close_zero zero xs
  refine ⟨p, delTimer { s.timers with kernel := k } x, proc, gone, expires, by rw [left], ?_⟩
  intro fuel
  have next : s.timers.links.next (.timerLink x) = place xs := @next_timer s x [] xs listed.ring
  rw [runLoop, if_neg (not_not.mpr zero), next, proc]
  simp only [runs, bind, Except.bind]
  split
  · rename_i nonzero
    rw [assert_pos (waits.resolve_left nonzero)]
    cases xs <;> rfl
  · cases xs <;> rfl

theorem runLoop_stays {s : Timers} {x : Nat} (ahead : s.expires x ≠ 0) {bound : Nat} (fuel : Nat)
    (enough : bound < fuel) : runLoop fuel s x = .ok (s, []) := by
  obtain ⟨fuel, rfl⟩ : ∃ n, fuel = n + 1 := Nat.exists_eq_succ_of_ne_zero (by omega)
  rw [runLoop, if_pos ahead]

/-- The loop wakes the processes of the timers with no ticks left and takes these off. -/
theorem runLoop_spec {s : Sys} {x : Nat} {xs : List Nat} (listed : Listed s (x :: xs)) :
    ∃ zs ys t fired, x :: xs = zs ++ ys ∧
      (∀ fuel, xs.length < fuel → runLoop fuel s.timers x = .ok (t, fired)) ∧
      (∀ z ∈ zs, s.timers.expires z = 0) ∧ (∀ y ∈ ys.head?, s.timers.expires y ≠ 0) ∧
      Listed { s with timers := t } ys ∧ t.expires = s.timers.expires ∧ t.proc = s.timers.proc ∧
      fired.map Prod.fst = zs ∧ ∀ e ∈ fired, s.timers.proc e.1 = some e.2 := by
  induction xs generalizing s x with
  | nil =>
      by_cases zero : s.timers.expires x = 0
      · obtain ⟨p, t, proc, gone, expires, procs, run⟩ := runLoop_fires listed zero
        refine ⟨[x], [], t, [(x, p)], rfl, ?_, by simpa using zero, by simp, gone, expires, procs, rfl,
          by simpa using proc⟩
        intro fuel enough
        obtain ⟨fuel, rfl⟩ : ∃ n, fuel = n + 1 := Nat.exists_eq_succ_of_ne_zero (by omega)
        exact run fuel
      · exact ⟨[], [x], s.timers, [], rfl, runLoop_stays zero, by simp, by simpa using zero, listed, rfl, rfl,
          rfl, by simp⟩
  | cons y xs ih =>
      by_cases zero : s.timers.expires x = 0
      · obtain ⟨p, t, proc, gone, expires, procs, run⟩ := runLoop_fires listed zero
        obtain ⟨zs, ys, u, fired, split, later, zeros, ahead, left, expires', procs', names, owners⟩ :=
          ih gone
        simp only at later left expires' procs' owners
        refine ⟨x :: zs, ys, u, (x, p) :: fired, by rw [split]; rfl, ?_, ?_, ?_, left,
          expires'.trans expires, procs'.trans procs, by simp [names], ?_⟩
        · intro fuel enough
          obtain ⟨fuel, rfl⟩ : ∃ n, fuel = n + 1 := Nat.exists_eq_succ_of_ne_zero (by omega)
          rw [run fuel]
          simp only [place, later fuel (by simpa using enough), bind, Except.bind, pure, Except.pure]
        · intro z inside
          rcases List.mem_cons.mp inside with rfl | inside
          · exact zero
          · rw [← expires]
            exact zeros z inside
        · intro z first
          rw [← expires]
          exact ahead z first
        · intro e inside
          rcases List.mem_cons.mp inside with rfl | inside
          · exact proc
          · rw [← procs]
            exact owners e inside
      · exact ⟨[], x :: y :: xs, s.timers, [], rfl, runLoop_stays zero, by simp, by simpa using zero, listed, rfl,
          rfl, rfl, by simp⟩

theorem runTimerList_spec {s : Sys} {xs : List Nat} (idle : Idle s xs) :
    ∃ ys t fired, (∀ fuel, xs.length ≤ fuel → runTimerList fuel s.timers = .ok (t, fired)) ∧
    Idle { s with timers := t } ys ∧
      t.proc = s.timers.proc ∧ (fired.map Prod.fst).Nodup ∧ (∀ x ∈ fired.map Prod.fst, x ∉ ys) ∧
      (∀ e ∈ fired, s.timers.proc e.1 = some e.2) ∧
      ∀ x, due s.timers.expires xs x =
        if x ∈ fired.map Prod.fst then some 1 else (due t.expires ys x).map (· + 1) := by
  have tick : ∀ k p, Wakeable k p → Wakeable (schedClassProcTick k k.current) p := by
    intro k p fit
    have same := schedClassProcTick_procs k k.current p
    exact ⟨by rw [same.1]; exact fit.1, by rw [same.2.1]; exact fit.2⟩
  cases xs with
  | nil =>
      refine ⟨[], _, [], fun fuel _ => ?_, ⟨idle.setKernel (idle.queued.procTick _) (tick _), by simp⟩, rfl, by simp,
        by simp, by simp, by simp⟩
      rw [runTimerList, next_place idle.ring]
      rfl
  | cons x xs =>
      have ahead := idle.ahead x rfl
      have word := idle.expires_small (show x ∈ x :: xs by simp)
      let s1 : Sys := { s with timers := s.timers.setExpires x (s.timers.expires x - 1) }
      have less : ∀ y, s1.timers.expires y ≤ s.timers.expires y := by
        intro y
        simp only [s1, Timers.setExpires, Function.update_apply]
        split
        · rename_i same
          subst same
          omega
        · exact le_rfl
      have listed : Listed s1 (x :: xs) :=
        { idle.toListed with
          small := (List.sum_le_sum fun y _ => less y).trans_lt idle.small
          word := fun y known => (less y).trans_lt (idle.word y known) }
      obtain ⟨zs, ys, t, fired, split, run, zeros, later, left, expires, procs, names, owners⟩ :=
        runLoop_spec listed
      have apart : ∀ z ∈ zs, z ∉ ys := by
        have nodup := split ▸ idle.nodup
        exact fun z first second => (List.disjoint_of_nodup_append nodup) first second
      refine ⟨ys, _, fired, fun fuel enough => ?_, ⟨left.setKernel (left.queued.procTick _) (tick _), ?_⟩, procs,
        ?_, ?_,
        owners, ?_⟩
      · rw [runTimerList, next_place idle.ring]
        simp only [place, assert_bind ahead, sub32_eq word (show 1 ≤ s.timers.expires x by omega)]
        simp only [s1] at run
        rw [run fuel (by simpa using enough)]
        rfl
      · intro y first
        simp only [expires]
        exact later y first
      · rw [names]
        exact (List.nodup_append.mp (split ▸ idle.nodup)).1
      · rw [names]
        exact apart
      · intro y
        have passed := due_tick idle.nodup ahead y
        rw [passed, split, names]
        show (due s1.timers.expires (zs ++ ys) y).map (· + 1) = _
        by_cases now : y ∈ zs
        · rw [if_pos now, (due_eq_zero zeros later).mpr now]
          rfl
        · simp only [if_neg now, due_drop zeros now, expires]

/-! ## `do_sleep` -/

end Ucore.Schedule.TimerCalls
