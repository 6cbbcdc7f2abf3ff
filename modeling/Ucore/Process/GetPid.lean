import Ucore.Lib.Run
import Ucore.Libs.Assert
import Ucore.Libs.List

/-! # Process identifiers

`get_pid` of `proc.c`. Two static counters remember an interval without listed pids:
as long as the next pid stays inside it the list need not be searched.
-/

namespace Ucore.Process.GetPid

open Lib.Ring Lib.Run Libs.Assert Libs.List

def MAX_PROCESS : Nat := 4096

def MAX_PID : Nat := MAX_PROCESS * 2

/-- The list entries: the head, and the `list_link` of each process. -/
inductive Node where
  | procList
  | listLink (proc : Nat)
  deriving DecidableEq, Repr

/-- The process list, the `pid` fields, and the static variables of `get_pid`. All of
    these are positive. -/
structure Pids where
  links : Links Node
  pid : Nat → Nat
  lastPid : Nat
  nextSafe : Nat

/-- The loop of `get_pid` from the entry `le` on. `repeat` is the search from the list
    head. -/
def scan (s : Pids) : Nat → Node → Nat → Nat → Result (Nat × Nat)
  | 0, _, _, _ => .error .fuel
  | fuel + 1, le, lastPid, nextSafe =>
      match s.links.next le with
      | .procList => .ok (lastPid, nextSafe)
      | .listLink proc =>
          if s.pid proc = lastPid then
            if nextSafe ≤ lastPid + 1 then
              scan s fuel .procList (if MAX_PID ≤ lastPid + 1 then 1 else lastPid + 1) MAX_PID
            else scan s fuel (.listLink proc) (lastPid + 1) nextSafe
          else if lastPid < s.pid proc ∧ s.pid proc < nextSafe then
            scan s fuel (.listLink proc) lastPid (s.pid proc)
          else scan s fuel (.listLink proc) lastPid nextSafe

/-- What follows the label `inside`. -/
def inside (fuel : Nat) (s : Pids) (lastPid : Nat) : Result (Nat × Pids) := do
  let (lastPid, nextSafe) ← scan s fuel .procList lastPid MAX_PID
  pure (lastPid, { s with lastPid := lastPid, nextSafe := nextSafe })

def getPid (fuel : Nat) (s : Pids) : Result (Nat × Pids) :=
  let lastPid := s.lastPid + 1
  if MAX_PID ≤ lastPid then inside fuel s 1
  else if s.nextSafe ≤ lastPid then inside fuel s lastPid
  else .ok (lastPid, { s with lastPid := lastPid })

/-- `proc->pid = get_pid(); …; set_links(proc);` of `do_fork`. -/
def listNew (fuel : Nat) (s : Pids) (proc : Nat) : Result Pids := do
  let (pid, s) ← getPid fuel s
  pure { s with pid := Function.update s.pid proc pid, links := listAdd s.links .procList (.listLink proc) }

def removeLinks (s : Pids) (proc : Nat) : Pids := { s with links := listDel s.links (.listLink proc) }

/-! ## The search -/

/-- The processes on the list, in its order. -/
def Listed (s : Pids) (procs : List Nat) : Prop := IsRing s.links .procList (procs.map .listLink)

variable {s : Pids} {procs : List Nat}

theorem Listed.next {done rest : List Nat} (listed : Listed s (done ++ rest)) :
    s.links.next ((done.getLast?.map .listLink).getD .procList) = (rest.head?.map .listLink).getD .procList := by
  have ring : IsRing s.links .procList (done.map .listLink ++ rest.map .listLink) := by
    simpa [Listed] using listed
  simpa using ring.next_before

/-- How often `last_pid` can be raised before it comes to a pid `f`. -/
def ahead (f lastPid : Nat) : Nat := if lastPid ≤ f then f - lastPid else MAX_PID - lastPid + (f - 1)

theorem ahead_succ {f lastPid : Nat} (known : 1 ≤ f ∧ f < MAX_PID) (below : lastPid < MAX_PID) (other : lastPid ≠ f) :
    ahead f (if MAX_PID ≤ lastPid + 1 then 1 else lastPid + 1) + 1 = ahead f lastPid := by
  unfold ahead
  split <;> split <;> split <;> omega

/-- No process has a pid in the interval. -/
def Clear (s : Pids) (procs : List Nat) (lo hi : Nat) : Prop := ∀ p ∈ procs, s.pid p < lo ∨ hi ≤ s.pid p

theorem Clear.concat {done : List Nat} {p lo hi lo' hi' : Nat} (clear : Clear s done lo hi) (lower : lo ≤ lo')
    (upper : hi' ≤ hi) (here : s.pid p < lo' ∨ hi' ≤ s.pid p) : Clear s (done ++ [p]) lo' hi' := by
  intro q member
  rcases List.mem_append.mp member with old | itself
  · exact (clear q old).imp (fun before => before.trans_le lower) upper.trans
  · rwa [List.mem_singleton.mp itself]

/-- As long as there is a pid no process has, the search ends. The measure is the number of
    times `last_pid` can still be raised, and then the processes left of this round. -/
theorem scan_spec (listed : Listed s procs) {f : Nat} (known : 1 ≤ f ∧ f < MAX_PID)
    (unused : ∀ p ∈ procs, s.pid p ≠ f) (fuel : Nat) {done rest : List Nat} (split : procs = done ++ rest)
    {lastPid nextSafe : Nat} (positive : 1 ≤ lastPid) (below : lastPid < nextSafe) (bounded : nextSafe ≤ MAX_PID)
    (clear : Clear s done lastPid nextSafe)
    (enough : ahead f lastPid * (procs.length + 1) + rest.length < fuel) :
    ∃ lastPid' nextSafe', scan s fuel ((done.getLast?.map .listLink).getD .procList) lastPid nextSafe =
        .ok (lastPid', nextSafe') ∧
      1 ≤ lastPid' ∧ lastPid' < nextSafe' ∧ nextSafe' ≤ MAX_PID ∧ Clear s procs lastPid' nextSafe' := by
  induction fuel generalizing done rest lastPid nextSafe with
  | zero => omega
  | succ fuel ih =>
      have next := (split ▸ listed).next
      cases rest with
      | nil =>
          rw [List.append_nil] at split
          refine ⟨lastPid, nextSafe, ?_, positive, below, bounded, split ▸ clear⟩
          rw [scan, next]
          rfl
      | cons p rest =>
          have member : p ∈ procs := by simp [split]
          have shifted : procs = (done ++ [p]) ++ rest := by simp [split]
          have last : ((done ++ [p]).getLast?.map Node.listLink).getD .procList = .listLink p := by simp
          rw [List.length_cons] at enough
          rw [scan, next, List.head?_cons, Option.map_some, Option.getD_some]
          dsimp only
          split
          · rename_i same
            -- the pid is taken, so it is not the unused one: one step nearer to that
            have nearer := ahead_succ known (below.trans_le bounded) (same ▸ unused p member)
            have size : ahead f lastPid * (procs.length + 1) =
                ahead f (if MAX_PID ≤ lastPid + 1 then 1 else lastPid + 1) * (procs.length + 1) +
                  (procs.length + 1) := by
              rw [← nearer, Nat.add_mul, Nat.one_mul]
            split
            · refine ih (show procs = [] ++ procs from rfl) ?_ ?_ (Nat.le_refl _) (by simp [Clear]) ?_
              · split <;> omega
              · split
                · decide
                · omega
              · omega
            · rename_i room
              have away : ¬MAX_PID ≤ lastPid + 1 := by omega
              rw [if_neg away] at size
              have onward := ih shifted (show 1 ≤ lastPid + 1 by omega) (by omega) bounded
                (clear.concat (Nat.le_succ _) (Nat.le_refl _) (Or.inl (by omega))) (by omega)
              rwa [last] at onward
          · rename_i other
            split
            · rename_i between
              have onward := ih shifted positive between.1 (by omega)
                (clear.concat (Nat.le_refl _) between.2.le (Or.inr (Nat.le_refl _))) (by omega)
              rwa [last] at onward
            · rename_i outside
              have onward := ih shifted positive below bounded
                (clear.concat (Nat.le_refl _) (Nat.le_refl _) (by omega)) (by omega)
              rwa [last] at onward

/-- There are more pids than processes. -/
theorem exists_unused (s : Pids) (few : procs.length ≤ MAX_PROCESS) :
    ∃ f, (1 ≤ f ∧ f < MAX_PID) ∧ ∀ p ∈ procs, s.pid p ≠ f := by
  have count : (procs.map s.pid).toFinset.card < (Finset.Ico 1 MAX_PID).card := by
    rw [Nat.card_Ico]
    calc (procs.map s.pid).toFinset.card ≤ procs.length := by
          simpa using List.toFinset_card_le (procs.map s.pid)
      _ ≤ MAX_PROCESS := few
      _ < MAX_PID - 1 := by decide
  obtain ⟨f, range, outside⟩ := Finset.exists_mem_notMem_of_card_lt_card count
  refine ⟨f, Finset.mem_Ico.mp range, fun p member same => outside ?_⟩
  simpa using ⟨p, member, same⟩

theorem inside_spec (listed : Listed s procs) (few : procs.length ≤ MAX_PROCESS) {fuel : Nat}
    (enough : MAX_PID * (MAX_PROCESS + 1) ≤ fuel) {lastPid : Nat} (positive : 1 ≤ lastPid) (below : lastPid < MAX_PID) :
    ∃ pid nextSafe, inside fuel s lastPid = .ok (pid, { s with lastPid := pid, nextSafe := nextSafe }) ∧
      1 ≤ pid ∧ pid < nextSafe ∧ nextSafe ≤ MAX_PID ∧ Clear s procs pid nextSafe := by
  obtain ⟨f, known, unused⟩ := exists_unused s few
  have near : ahead f lastPid + 1 ≤ MAX_PID := by
    unfold ahead
    split <;> omega
  have budget : ahead f lastPid * (procs.length + 1) + procs.length < fuel := by
    calc ahead f lastPid * (procs.length + 1) + procs.length < (ahead f lastPid + 1) * (procs.length + 1) := by
          rw [Nat.add_mul, Nat.one_mul]
          omega
      _ ≤ MAX_PID * (MAX_PROCESS + 1) := Nat.mul_le_mul near (Nat.succ_le_succ few)
      _ ≤ fuel := enough
  obtain ⟨pid, nextSafe, run, rest⟩ := scan_spec listed known unused fuel (show procs = [] ++ procs from rfl)
    positive below (Nat.le_refl _) (by simp [Clear]) budget
  have found : scan s fuel .procList lastPid MAX_PID = .ok (pid, nextSafe) := run
  refine ⟨pid, nextSafe, ?_, rest⟩
  rw [inside, found]
  rfl

/-! ## Runs -/

/-- What holds between two calls. -/
structure Inv (s : Pids) (procs : List Nat) : Prop where
  listed : Listed s procs
  distinct : (procs.map s.pid).Nodup
  safe : Clear s procs (s.lastPid + 1) s.nextSafe
  positive : 1 ≤ s.lastPid
  bounded : s.nextSafe ≤ MAX_PID

theorem getPid_spec (inv : Inv s procs) (few : procs.length ≤ MAX_PROCESS) {fuel : Nat}
    (enough : MAX_PID * (MAX_PROCESS + 1) ≤ fuel) :
    ∃ pid nextSafe, getPid fuel s = .ok (pid, { s with lastPid := pid, nextSafe := nextSafe }) ∧
      1 ≤ pid ∧ pid < nextSafe ∧ nextSafe ≤ MAX_PID ∧ Clear s procs pid nextSafe := by
  rw [getPid]
  split
  · exact inside_spec inv.listed few enough (Nat.le_refl _) (by decide)
  · split
    · exact inside_spec inv.listed few enough (Nat.le_add_left _ _) (by omega)
    · -- the fast path stays below `next_safe`
      exact ⟨s.lastPid + 1, s.nextSafe, rfl, Nat.le_add_left _ _, by omega, inv.bounded, inv.safe⟩

theorem Clear.unlisted {pid nextSafe : Nat} (clear : Clear s procs pid nextSafe) (below : pid < nextSafe) :
    ∀ p ∈ procs, s.pid p ≠ pid := by
  intro p member same
  have := clear p member
  omega

/-- After `list_init(&proc_list)`. -/
def Initial (s : Pids) : Prop := (∃ l, s.links = listInit l .procList) ∧ s.lastPid = MAX_PID ∧ s.nextSafe = MAX_PID

/-- A new process is listed with a pid, or a process is removed. The list may be brought
    into any order. -/
inductive Step (fuel : Nat) : Pids → Pids → Prop where
  | list {s t : Pids} {procs : List Nat} {proc : Nat} (listed : Listed s procs) (fresh : proc ∉ procs)
      (few : procs.length ≤ MAX_PROCESS) (run : listNew fuel s proc = .ok t) : Step fuel s t
  | remove {s : Pids} {procs : List Nat} {proc : Nat} (listed : Listed s procs) (member : proc ∈ procs) :
      Step fuel s (removeLinks s proc)
  | rearrange {s : Pids} {procs procs' : List Nat} {links : Links Node} (listed : Listed s procs)
      (same : procs'.Perm procs) (listed' : Listed { s with links := links } procs') :
      Step fuel s { s with links := links }

theorem Listed.unique {procs' : List Nat} (listed : Listed s procs) (listed' : Listed s procs') : procs = procs' :=
  List.map_injective_iff.mpr (fun _ _ same => Node.listLink.inj same) (IsRing.unique listed listed')

theorem listNew_inv (inv : Inv s procs) (few : procs.length ≤ MAX_PROCESS) {proc : Nat} (fresh : proc ∉ procs)
    {fuel : Nat} (enough : MAX_PID * (MAX_PROCESS + 1) ≤ fuel) :
    ∃ t, listNew fuel s proc = .ok t ∧ Inv t (proc :: procs) := by
  obtain ⟨pid, nextSafe, found, positive, below, bounded, clear⟩ := getPid_spec inv few enough
  have others : ∀ p ∈ procs, Function.update s.pid proc pid p = s.pid p := fun p member =>
    Function.update_of_ne (ne_of_mem_of_not_mem member fresh) _ _
  refine ⟨_, by rw [listNew, found]; rfl, ?_, ?_, ?_, positive, bounded⟩
  · rw [Listed, List.map_cons]
    exact IsRing.insert_first inv.listed (by simpa using fresh)
  · rw [List.map_cons, List.nodup_cons, List.map_congr_left others]
    refine ⟨fun listed => ?_, inv.distinct⟩
    simp only [Function.update_self] at listed
    obtain ⟨p, member, same⟩ := List.mem_map.mp listed
    exact clear.unlisted below p member same
  · intro p member
    rcases List.mem_cons.mp member with rfl | member
    · exact Or.inl (by simp)
    · simp only [others p member]
      exact (clear p member).imp_left Nat.lt_succ_of_lt

theorem removeLinks_inv (inv : Inv s procs) {proc : Nat} (member : proc ∈ procs) :
    Inv (removeLinks s proc) (procs.erase proc) := by
  have fewer : ∀ p ∈ procs.erase proc, p ∈ procs := fun p => List.mem_of_mem_erase
  refine ⟨?_, ?_, fun p member => inv.safe p (fewer p member), inv.positive, inv.bounded⟩
  · have removed := listDel_erase inv.listed (List.mem_map_of_mem member)
    rwa [← List.map_erase fun _ _ same => Node.listLink.inj same] at removed
  · exact inv.distinct.sublist (List.erase_sublist.map _)

theorem step_inv {t : Pids} {fuel : Nat} (enough : MAX_PID * (MAX_PROCESS + 1) ≤ fuel) (inv : Inv s procs)
    (taken : Step fuel s t) : ∃ procs', Inv t procs' := by
  cases taken with
  | list listed fresh few run =>
      obtain rfl := inv.listed.unique listed
      obtain ⟨u, run', inv'⟩ := listNew_inv inv few fresh enough
      exact ⟨_, Except.ok.inj (run'.symm.trans run) ▸ inv'⟩
  | remove listed member =>
      obtain rfl := inv.listed.unique listed
      exact ⟨_, removeLinks_inv inv member⟩
  | rearrange listed same listed' =>
      obtain rfl := inv.listed.unique listed
      exact ⟨_, listed', ((same.map _).nodup_iff).mpr inv.distinct,
        fun p member => inv.safe p (same.mem_iff.mp member), inv.positive, inv.bounded⟩

theorem initial_inv (initial : Initial s) : Inv s [] := by
  obtain ⟨⟨l, links⟩, last, safe⟩ := initial
  refine ⟨?_, List.nodup_nil, by simp [Clear], by rw [last]; decide, safe.le⟩
  rw [Listed, links]
  exact listInit_ring l .procList

theorem run_inv {fuel : Nat} (enough : MAX_PID * (MAX_PROCESS + 1) ≤ fuel)
    (reached : Reachable Initial (Step fuel) s) : ∃ procs, Inv s procs := by
  refine reached.invariant (fun s => ∃ procs, Inv s procs) (fun s initial => ?_) fun s t inv taken => ?_
  · exact ⟨[], initial_inv initial⟩
  · obtain ⟨procs, inv⟩ := inv
    exact step_inv enough inv taken

/-- In every state reached, the pids strictly between the two counters are nobody's, the
    listed pids are distinct, and the next call returns one that nobody has. -/
theorem getPid_fresh {fuel : Nat} (enough : MAX_PID * (MAX_PROCESS + 1) ≤ fuel)
    (reached : Reachable Initial (Step fuel) s) :
    ∃ procs, Listed s procs ∧ (procs.map s.pid).Nodup ∧
      (∀ p ∈ procs, ¬(s.lastPid < s.pid p ∧ s.pid p < s.nextSafe)) ∧
      (procs.length ≤ MAX_PROCESS → ∃ pid t, getPid fuel s = .ok (pid, t) ∧ 1 ≤ pid ∧ pid < MAX_PID ∧
        ∀ p ∈ procs, s.pid p ≠ pid) := by
  obtain ⟨procs, inv⟩ := run_inv enough reached
  refine ⟨procs, inv.listed, inv.distinct, fun p member => ?_, fun few => ?_⟩
  · have := inv.safe p member
    omega
  · obtain ⟨pid, nextSafe, run, positive, below, bounded, clear⟩ := getPid_spec inv few enough
    exact ⟨pid, _, run, positive, by omega, clear.unlisted below⟩

/-- The counters as they are initialised, and an empty list. -/
def booted : Pids := ⟨listInit ⟨id, id⟩ .procList, fun _ => 0, MAX_PID, MAX_PID⟩

theorem booted_initial : Initial booted := ⟨⟨_, rfl⟩, rfl, rfl⟩

/-- After the first process was listed. -/
theorem getPid_fresh_second :
    ∃ s, Reachable Initial (Step (MAX_PID * (MAX_PROCESS + 1))) s ∧ Listed s [3] ∧
      ∃ procs, Listed s procs ∧ (procs.map s.pid).Nodup ∧
        (∀ p ∈ procs, ¬(s.lastPid < s.pid p ∧ s.pid p < s.nextSafe)) ∧
        (procs.length ≤ MAX_PROCESS → ∃ pid t, getPid (MAX_PID * (MAX_PROCESS + 1)) s = .ok (pid, t) ∧ 1 ≤ pid ∧
          pid < MAX_PID ∧ ∀ p ∈ procs, s.pid p ≠ pid) := by
  have inv := initial_inv booted_initial
  obtain ⟨s, run, inv'⟩ := listNew_inv inv (Nat.zero_le _) (show 3 ∉ [] by simp) (Nat.le_refl _)
  have reached := (Reachable.start booted_initial).next
    (Step.list inv.listed (show 3 ∉ [] by simp) (Nat.zero_le _) run)
  exact ⟨s, reached, inv'.listed, getPid_fresh (Nat.le_refl _) reached⟩

end Ucore.Process.GetPid
