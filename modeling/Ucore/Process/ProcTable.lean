import Ucore.Process.Family

/-! # The process table

One predicate says what the list of processes, the hash lists, the family pointers and the
counters have to do with each other. Each function of `proc.c` that changes some of them takes
it to what it says of the processes there are afterwards.
-/

namespace Ucore.Process.Family

open Lib.Ring Lib.Siblings Libs.List

open GetPid (MAX_PID MAX_PROCESS Pids)
open Schedule.Sched (ProcState idleproc)

/-- The heads of the hash lists. -/
def heads : List HashNode := (List.range HASH_LIST_SIZE).map .hashList

/-- The processes on the list, the children of each process, and the entries of the hash lists. -/
structure Table (s : Machine) (loose : Option Ptr) (listed : List Ptr) (children : Ptr → List Ptr)
    (entries : HashNode → List HashNode) : Prop where
  pids : GetPid.Inv s.pids listed
  range : ∀ p ∈ listed, 0 < (s.procs p).pid ∧ (s.procs p).pid < MAX_PID
  idle : idleproc ∉ listed
  live : s.live = insert idleproc listed.toFinset
  count : s.nrProcess = listed.length + 1
  few : listed.length + 1 ≤ MAX_PROCESS
  hashed : Lists s.hashList heads entries
  bucket : ∀ i < HASH_LIST_SIZE, ∀ n, n ∈ entries (.hashList i) ↔
    ∃ p ∈ listed, n = .hashLink p ∧ pidHashfn (s.procs p).pid = i
  families : Families s.kin loose s.live children
  top : s.kin.parent idleproc = none
  rooted : ∀ p ∈ s.live, Rooted s.kin idleproc p

variable {s t : Machine} {loose : Option Ptr} {listed : List Ptr} {children : Ptr → List Ptr}
  {entries : HashNode → List HashNode} {p q : Ptr} {fuel : Nat}

theorem ok_bind (a : α) (f : α → Kernel β) : ((.ok a : Kernel α) >>= f) = f a := rfl

theorem pure_ok (a : α) : (pure a : Kernel α) = .ok a := rfl

theorem deref_ok (live : p ∈ s.live) : s.deref (some p) = .ok p := if_pos live

theorem ensure_pos {c : Prop} [Decidable c] {fault : Fault} (holds : c) : ensure c fault = .ok () := if_pos holds

/-! ## Hash values -/

theorem pidHashfn_lt (x : Int) : pidHashfn x < HASH_LIST_SIZE := by
  rw [pidHashfn, hash32, BitVec.toNat_ushiftRight, Nat.shiftRight_eq_div_pow]
  have small := (BitVec.ofInt 32 x * GOLDEN_RATIO_PRIME_32).isLt
  exact Nat.div_lt_of_lt_mul (lt_of_lt_of_eq small (by decide))

theorem head_mem {i : Nat} : .hashList i ∈ heads ↔ i < HASH_LIST_SIZE := by
  simp [heads]

namespace Table

theorem mem_live (table : Table s loose listed children entries) : p ∈ s.live ↔ p = idleproc ∨ p ∈ listed := by
  rw [table.live, Finset.mem_insert, List.mem_toFinset]

theorem idle_live (table : Table s loose listed children entries) : idleproc ∈ s.live := table.mem_live.mpr (.inl rfl)

theorem listed_live (table : Table s loose listed children entries) (inside : p ∈ listed) : p ∈ s.live :=
  table.mem_live.mpr (.inr inside)

theorem nodup (table : Table s loose listed children entries) : listed.Nodup := table.pids.listed.nodes_nodup.of_map _

/-- Every process but the idle one has a parent. -/
theorem parent (table : Table s loose listed children entries) (inside : p ∈ listed) :
    ∃ q, s.kin.parent p = some q ∧ q ∈ s.live ∧ p ∈ children q := by
  have member := table.listed_live inside
  cases table.rooted p member with
  | root => exact absurd inside table.idle
  | @child _ q parent rooted =>
      have above := table.families.closed p member q parent
      exact ⟨q, parent, above, (table.families.parent q above p).mpr ⟨member, parent⟩⟩

theorem child_listed (table : Table s loose listed children entries) (here : q ∈ s.live) (inside : p ∈ children q) :
    p ∈ listed := by
  obtain ⟨member, parent⟩ := (table.families.parent q here p).mp inside
  refine (table.mem_live.mp member).resolve_left ?_
  rintro rfl
  rw [table.top] at parent
  cases parent

/-- The table is about the pids of the processes only. -/
theorem congr {procs : Ptr → Proc} (table : Table s loose listed children entries)
    (same : ∀ p ∈ listed, (procs p).pid = (s.procs p).pid) :
    Table { s with procs := procs } loose listed children entries := by
  refine ⟨⟨table.pids.listed, ?_, fun p inside => ?_, table.pids.positive, table.pids.bounded⟩, fun p inside => ?_,
    table.idle, table.live, table.count, table.few, table.hashed, fun i small n => ?_, table.families, table.top,
    table.rooted⟩
  · have pids : listed.map (Machine.pids { s with procs := procs }).pid = listed.map s.pids.pid :=
      List.map_congr_left fun p inside => congrArg Int.toNat (same p inside)
    rw [pids]
    exact table.pids.distinct
  · have pid : (Machine.pids { s with procs := procs }).pid p = s.pids.pid p := congrArg Int.toNat (same p inside)
    rw [pid]
    exact table.pids.safe p inside
  · rw [same p inside]
    exact table.range p inside
  · rw [table.bucket i small]
    refine exists_congr fun p => and_congr_right fun inside => ?_
    rw [same p inside]

theorem setProc {proc : Proc} (table : Table s loose listed children entries) (same : proc.pid = (s.procs p).pid) :
    Table (s.setProc p proc) loose listed children entries := by
  refine table.congr fun q _ => ?_
  by_cases itself : q = p
  · rw [itself, Function.update_self, same]
  · rw [Function.update_of_ne itself]

theorem setCurrent (table : Table s loose listed children entries) (c : Ptr) :
    Table { s with current := c } loose listed children entries := ⟨table.pids, table.range, table.idle, table.live,
      table.count, table.few, table.hashed, table.bucket, table.families, table.top, table.rooted⟩

end Table

/-! ## `schedule` -/

theorem schedule_spec (table : Table s loose listed children entries) (here : s.current ∈ s.live)
    (enough : listed.length < fuel) :
    ∃ c, schedule fuel s = .ok { s with current := c } ∧
      (c = idleproc ∧ (∀ p ∈ listed, (s.procs p).state ≠ .runnable) ∨ c ∈ listed ∧ (s.procs c).state = .runnable) := by
  have ring := IsRing.map table.pids.listed listNode
  rw [List.map_map] at ring
  have inv : Schedule.ProcList.Inv s.scheduler listed := ⟨ring, table.idle, table.mem_live.mp here⟩
  obtain ⟨t, run⟩ := Schedule.ProcList.schedule_returns inv enough
  refine ⟨t.current, ?_, ?_⟩
  · rw [schedule, run]
    rfl
  · rcases inv.selected run with idle | ⟨before, after, found, runnable, -⟩
    · exact .inl idle
    · exact .inr ⟨Lib.Rounds.mem_of_found found, runnable⟩

/-! ## The hash lists -/

/-- The loop of `find_proc` over what is left of a hash list. -/
theorem findLoop_spec {list : HashNode} {pid : Int} {nodes : List HashNode} (le : HashNode)
    (path : Path s.hashList (le :: (nodes ++ [list]))) (off : list ∉ nodes)
    (hash : ∀ n ∈ nodes, ∃ p ∈ s.live, n = .hashLink p) (enough : nodes.length < fuel) :
    ∃ r, findLoop s list pid fuel le = .ok r ∧ (∀ p, r = some p → .hashLink p ∈ nodes ∧ (s.procs p).pid = pid) ∧
      (r = none → ∀ p, .hashLink p ∈ nodes → (s.procs p).pid ≠ pid) := by
  induction nodes generalizing le fuel with
  | nil =>
      obtain ⟨fuel, rfl⟩ := Nat.exists_eq_succ_of_ne_zero (Nat.ne_zero_of_lt enough)
      have next : s.hashList.next le = list := (List.isChain_cons_cons.mp path).1.1
      refine ⟨none, ?_, by simp, by simp⟩
      rw [findLoop, if_pos next]
      rfl
  | cons n nodes ih =>
      obtain ⟨fuel, rfl⟩ := Nat.exists_eq_succ_of_ne_zero (Nat.ne_zero_of_lt enough)
      obtain ⟨step, later⟩ := List.isChain_cons_cons.mp path
      obtain ⟨p, live, rfl⟩ := hash n List.mem_cons_self
      have apart : s.hashList.next le ≠ list := by
        rw [step.1]
        exact fun same => off (same ▸ List.mem_cons_self)
      rw [findLoop, if_neg apart, step.1]
      dsimp only
      rw [deref_ok live, ok_bind]
      by_cases same : (s.procs p).pid = pid
      · refine ⟨some p, if_pos same, fun q found => ?_, by simp⟩
        obtain rfl := Option.some.inj found
        exact ⟨List.mem_cons_self, same⟩
      · rw [if_neg same]
        obtain ⟨r, run, sound, complete⟩ := ih (.hashLink p) later (List.not_mem_of_not_mem_cons off)
          (fun n inside => hash n (List.mem_cons_of_mem _ inside)) (Nat.lt_of_succ_lt_succ enough)
        refine ⟨r, run, fun q found => ?_, fun none q inside => ?_⟩
        · exact (sound q found).imp_left (List.mem_cons_of_mem _)
        · rcases List.mem_cons.mp inside with itself | inside
          · obtain rfl := HashNode.hashLink.inj itself
            exact same
          · exact complete none q inside

/-- `find_proc` finds the process with the pid, if there is one. -/
theorem findProc_spec (table : Table s loose listed children entries) (pid : Int) (enough : listed.length < fuel) :
    ∃ r, findProc fuel s pid = .ok r ∧ ∀ p, r = some p ↔ p ∈ listed ∧ (s.procs p).pid = pid := by
  rw [findProc]
  split
  · have small := pidHashfn_lt pid
    have ring := table.hashed.ring _ (head_mem.mpr small)
    have bucket := table.bucket _ small
    have few : (entries (.hashList (pidHashfn pid))).length ≤ listed.length := by
      have distinct := ring.nodes_nodup
      have within : entries (.hashList (pidHashfn pid)) ⊆ listed.map .hashLink := by
        intro n inside
        obtain ⟨p, member, rfl, -⟩ := (bucket n).mp inside
        exact List.mem_map_of_mem member
      simpa using (List.subperm_of_subset distinct within).length_le
    have links : ∀ n ∈ entries (.hashList (pidHashfn pid)), ∃ p ∈ s.live, n = .hashLink p := by
      intro n inside
      obtain ⟨p, member, rfl, -⟩ := (bucket n).mp inside
      exact ⟨p, table.listed_live member, rfl⟩
    obtain ⟨r, run, sound, complete⟩ :=
      findLoop_spec _ ring.path ring.head_not_mem links (few.trans_lt enough)
    refine ⟨r, run, fun p => ⟨fun found => ?_, fun here => ?_⟩⟩
    · obtain ⟨inside, same⟩ := sound p found
      obtain ⟨q, member, itself, -⟩ := (bucket _).mp inside
      obtain rfl := HashNode.hashLink.inj itself
      exact ⟨member, same⟩
    · have inside : .hashLink p ∈ entries (.hashList (pidHashfn pid)) := (bucket _).mpr ⟨p, here.1, rfl, by rw [here.2]⟩
      cases r with
      | none => exact absurd here.2 (complete rfl p inside)
      | some q =>
          obtain ⟨other, same⟩ := sound q rfl
          obtain ⟨q', member, itself, -⟩ := (bucket _).mp other
          obtain rfl := HashNode.hashLink.inj itself
          have pids : s.pids.pid p = s.pids.pid q := congrArg Int.toNat (here.2.trans same.symm)
          rw [List.inj_on_of_nodup_map table.pids.distinct here.1 member pids]
  · rename_i outside
    refine ⟨none, rfl, fun p => iff_of_false (by simp) fun here => outside ?_⟩
    rw [← here.2]
    exact table.range p here.1

/-! ## `set_links` and `remove_links` -/

theorem setLinks_eq (live : p ∈ s.live) (parent : s.kin.parent p = some q) (above : q ∈ s.live)
    (first : ∀ r, s.kin.child q = some r → r ∈ s.live) :
    setLinks s p = .ok { s with
      procList := listAdd s.procList .procList (.listLink p), kin := s.kin.adopt q p, nrProcess :=
      s.nrProcess + 1 } := by
  have same : Function.update s.kin.parent p (some q) = s.kin.parent := by
    rw [← parent, Function.update_eq_self]
  simp only [setLinks, Machine.deref, Machine.setYptr, Machine.setOptr, Machine.setCptr, live, parent, above,
    ↓reduceIte,
    ok_bind, pure_ok, Function.update_self, Kin.adopt, same]
  cases eldest : s.kin.child q with
  | none => rfl
  | some r =>
      simp only [first r eldest, ↓reduceIte, ok_bind]
      rfl

theorem removeLinks_eq (live : p ∈ s.live) (parent : s.kin.parent p = some q) (above : q ∈ s.live)
    (older : ∀ r, s.kin.older p = some r → r ∈ s.live ∧ r ≠ p) (younger : ∀ r, s.kin.younger p = some r → r ∈ s.live) :
    removeLinks s p = .ok { s with
      procList := listDel s.procList (.listLink p), kin := s.kin.leave p, nrProcess := s.nrProcess - 1 } := by
  simp only [removeLinks, Machine.deref, Machine.setYptr, Machine.setOptr, Machine.setCptr, live, ↓reduceIte, ok_bind,
    pure_ok]
  cases next : s.kin.older p with
  | none =>
      cases before : s.kin.younger p with
      | none => simp only [ok_bind, before, next, parent, above, ↓reduceIte, Kin.leave]
      | some r => simp only [ok_bind, before, next, younger r before, ↓reduceIte, Kin.leave]
  | some o =>
      have back : Function.update s.kin.younger o (s.kin.younger p) p = s.kin.younger p :=
        Function.update_of_ne (older o next).2.symm ..
      cases before : s.kin.younger p with
      | none =>
          rw [before] at back
          simp only [(older o next).1, ↓reduceIte, ok_bind, back, before, next, parent, above, Kin.leave]
      | some r =>
          rw [before] at back
          simp only [(older o next).1, ↓reduceIte, ok_bind, back, before, next, younger r before, Kin.leave]

/-! ## `do_fork` -/

/-- What is left as it was at the processes there are. -/
structure Kept (s t : Machine) : Prop where
  procs : ∀ q ∈ s.live, t.procs q = s.procs q
  current : t.current = s.current
  initproc : t.initproc = s.initproc

/-- A process with a new pid, the first child of the one that runs. -/
structure Forked (s t : Machine) (listed : List Ptr) (children : Ptr → List Ptr) (p : Ptr) (pid : Int) : Prop where
  new : p ∉ s.live
  proc : ∃ code, t.procs p = ⟨.runnable, pid, 0, 0, code, none⟩
  table : ∃ entries, Table t none (p :: listed)
    (Function.update (Function.update children p []) s.current (p :: children s.current)) entries
  parent : ∀ q ∈ s.live, t.kin.parent q = s.kin.parent q

variable {given : Grants}

theorem allocProc_kin (s : Machine) (new : p ∉ s.live) (q : Ptr) (live : q ∈ s.live) :
    (allocProc s p).kin.parent q = s.kin.parent q ∧ (allocProc s p).kin.child q = s.kin.child q ∧
      (allocProc s p).kin.older q = s.kin.older q ∧ (allocProc s p).kin.younger q = s.kin.younger q := by
  have other : q ≠ p := ne_of_mem_of_not_mem live new
  refine ⟨?_, ?_, ?_, ?_⟩ <;> exact Function.update_of_ne other ..

/-- What is done to a structure that is not in use. -/
theorem Table.unused {procs : Ptr → Proc} {kin : Kin Ptr} (table : Table s loose listed children entries)
    (procs_eq : ∀ q ∈ s.live, (procs q).pid = (s.procs q).pid)
    (kin_eq : ∀ q ∈ s.live, kin.parent q = s.kin.parent q ∧ kin.child q = s.kin.child q ∧
      kin.older q = s.kin.older q ∧ kin.younger q = s.kin.younger q) :
    Table { s with procs := procs, kin := kin } loose listed children entries := by
  have table' : Table { s with procs := procs } loose listed children entries :=
    table.congr fun q inside => procs_eq q (table.listed_live inside)
  refine ⟨table'.pids, table'.range, table.idle, table.live, table.count, table.few, table.hashed, table'.bucket,
    ?_, ?_,
    fun q live => ?_⟩
  · exact table.families.congr (fun q live => (kin_eq q live).1) (fun q live => (kin_eq q live).2.1)
      (fun q live => (kin_eq q live).2.2.1) fun q live => (kin_eq q live).2.2.2
  · rw [(kin_eq idleproc table.idle_live).1]
    exact table.top
  · exact (table.rooted q live).congr table.families live fun r inside => (kin_eq r inside).1

/-- The structure `do_fork` has after it set its `parent`. -/
def begun (s : Machine) (p : Ptr) : Machine := (allocProc s p).setParent p (some s.current)

theorem begun_kin (new : p ∉ s.live) (q : Ptr) (live : q ∈ s.live) :
    (begun s p).kin.parent q = s.kin.parent q ∧ (begun s p).kin.child q = s.kin.child q ∧
      (begun s p).kin.older q = s.kin.older q ∧ (begun s p).kin.younger q = s.kin.younger q := by
  have other : q ≠ p := ne_of_mem_of_not_mem live new
  obtain ⟨parent, rest⟩ := allocProc_kin s new q live
  exact ⟨(Function.update_of_ne other ..).trans parent, rest⟩

theorem begun_procs (new : p ∉ s.live) (q : Ptr) (live : q ∈ s.live) : (begun s p).procs q = s.procs q :=
  Function.update_of_ne (ne_of_mem_of_not_mem live new) ..

/-- The new process is known to its parent. -/
theorem Table.begin (table : Table s none listed children entries) (here : s.current ∈ s.live) (new : p ∉ s.live) :
    Families ((begun s p).kin.adopt s.current p) none (insert p s.live)
      (Function.update (Function.update children p []) s.current (p :: children s.current)) := by
  have alike := fun q live => allocProc_kin s (p := p) new q live
  have old : Families (allocProc s p).kin none s.live children :=
    table.families.congr (fun q live => (alike q live).1) (fun q live => (alike q live).2.1)
      (fun q live => (alike q live).2.2.1) fun q live => (alike q live).2.2.2
  have entered := old.enter new (Function.update_self ..) (Function.update_self ..) (by simp)
  have adopted := entered.adopt (p := s.current) (Finset.mem_insert_of_mem here) (Finset.mem_insert_self p _)
    (Function.update_self ..)
  have same : (begun s p).kin.adopt s.current p = (allocProc s p).kin.adopt s.current p := by
    simp only [begun, Machine.setParent, Kin.adopt, Function.update_idem]
  rwa [same, ← Function.update_of_ne (ne_of_mem_of_not_mem here new) [] children]

/-- `get_pid` and the entries into the two lists. -/
theorem enlist_spec (table : Table s none listed children entries) (here : s.current ∈ s.live) (new : p ∉ s.live)
    (room : listed.length + 1 < MAX_PROCESS) (enough : MAX_PID * (MAX_PROCESS + 1) ≤ fuel) :
    ∃ pid t u, getPid fuel (begun s p) = .ok (pid, t) ∧ 0 < pid ∧
      (do
        let t ← hashProc (t.setProc p { t.procs p with pid := pid }) p
        let t ← setLinks t p
        wakeupProc t p) = .ok u ∧
      Kept s u ∧ u.live = insert p s.live ∧ Forked s u listed children p pid := by
  have unlisted : p ∉ listed := fun inside => new (table.listed_live inside)
  have other : s.current ≠ p := ne_of_mem_of_not_mem here new
  have pids : GetPid.Inv (begun s p).pids listed := by
    have same := table.unused (fun q live => congrArg Proc.pid (begun_procs new q live)) (begun_kin new)
    exact same.pids
  have few : listed.length ≤ MAX_PROCESS := by omega
  obtain ⟨pid, nextSafe, run, positive, below, bounded, -⟩ := GetPid.getPid_spec pids few enough
  obtain ⟨v, listedNew, pids'⟩ := GetPid.listNew_inv pids few unlisted enough
  rw [GetPid.listNew, run] at listedNew
  obtain rfl := Except.ok.inj listedNew
  let proc : Proc := ⟨.runnable, pid, 0, 0, (s.procs p).exitCode, none⟩
  let u : Machine :=
    { s with
      procs := Function.update s.procs p proc
      kin := (begun s p).kin.adopt s.current p
      live := insert p s.live
      procList := listAdd s.procList .procList (.listLink p)
      hashList := listAdd s.hashList (.hashList (pidHashfn pid)) (.hashLink p)
      lastPid := pid
      nextSafe := nextSafe
      nrProcess := s.nrProcess + 1 }
  let t : Machine := { begun s p with lastPid := pid, nextSafe := nextSafe }
  have first : ∀ r, t.kin.child s.current = some r → r ∈ insert p s.live := by
    intro r child
    rw [show t.kin.child s.current = s.kin.child s.current from (begun_kin new _ here).2.1,
      table.families.child _ here] at child
    exact Finset.mem_insert_of_mem (table.families.member here (List.mem_of_head? child))
  have made : t.procs p = ⟨.uninit, -1, 0, 0, (s.procs p).exitCode, none⟩ := Function.update_self ..
  have member : p ∈ insert p s.live := Finset.mem_insert_self ..
  have above : s.current ∈ insert p s.live := Finset.mem_insert_of_mem here
  let h : Machine := { t.setProc p { t.procs p with pid := pid } with
    hashList := listAdd s.hashList (.hashList (pidHashfn pid)) (.hashLink p) }
  have hashed : hashProc (t.setProc p { t.procs p with pid := pid }) p = .ok h := by
    rw [hashProc, deref_ok (show p ∈ (t.setProc p { t.procs p with pid := pid }).live from member), ok_bind, pure_ok]
    simp only [Machine.setProc, Function.update_self]
    rfl
  have linked := setLinks_eq (s := h) (p := p) (q := s.current) member (Function.update_self ..) above first
  have woken : wakeupProc { h with
      procList := listAdd h.procList .procList (.listLink p), kin := h.kin.adopt s.current p
      nrProcess := h.nrProcess + 1 } p = .ok u := by
    have state : (h.procs p) = ⟨.uninit, pid, 0, 0, (s.procs p).exitCode, none⟩ := by
      simp only [h, Machine.setProc, Function.update_self, made]
    rw [wakeupProc, deref_ok (show p ∈ _ from member), ok_bind]
    simp only [state, Machine.setProc]
    have procs : Function.update h.procs p proc = u.procs := by
      simp only [h, t, u, begun, allocProc, Machine.setProc, Machine.setParent, Function.update_idem]
    rw [ensure_pos (by decide), ok_bind, if_pos (by decide), pure_ok]
    exact congrArg (fun procs => Except.ok { u with procs := procs }) procs
  refine ⟨pid, t, u, ?_, by exact_mod_cast positive, ?_, ?_, rfl, ?_⟩
  · rw [getPid, run]
    rfl
  · rw [hashed, ok_bind, linked, ok_bind, woken]
  · exact ⟨fun q live => Function.update_of_ne (ne_of_mem_of_not_mem live new) .., rfl, rfl⟩
  have others : ∀ q ∈ s.live, u.procs q = s.procs q := fun q live =>
    Function.update_of_ne (ne_of_mem_of_not_mem live new) ..
  have itself : u.procs p = proc := Function.update_self ..
  have parents : ∀ q ∈ s.live, u.kin.parent q = s.kin.parent q := by
    intro q live
    rw [show u.kin.parent q = _ from adopt_parent .., if_neg (ne_of_mem_of_not_mem live new)]
    exact (begun_kin new q live).1
  refine ⟨new, ⟨_, itself⟩, ⟨Function.update entries (.hashList (pidHashfn pid))
    (.hashLink p :: entries (.hashList (pidHashfn pid))),
    ?_, ?_, ?_, ?_, ?_, ?_, ?_, ?_, table.begin here new, ?_, ?_⟩, parents⟩
  · have same : u.pids = { (begun s p).pids with
        lastPid := pid, nextSafe := nextSafe, pid := Function.update (begun s p).pids.pid p pid
        links := listAdd (begun s p).pids.links .procList (.listLink p) } := by
      have pid_eq : u.pids.pid = Function.update (begun s p).pids.pid p pid := by
        funext q
        by_cases same : q = p
        · rw [same, Function.update_self, show u.pids.pid p = (u.procs p).pid.toNat from rfl, itself]
          exact Int.toNat_natCast pid
        · rw [Function.update_of_ne same]
          have kept : u.procs q = (begun s p).procs q := by
            simp only [u, begun, allocProc, Machine.setParent, Function.update_of_ne same]
          exact congrArg (fun proc => proc.pid.toNat) kept
      exact congrArg (fun pids => Pids.mk u.procList pids pid nextSafe) pid_eq
    rw [same]
    exact pids'
  · intro q inside
    rcases List.mem_cons.mp inside with rfl | inside
    · rw [itself]
      exact ⟨Int.natCast_pos.mpr positive, Int.ofNat_lt.mpr (below.trans_le bounded)⟩
    · rw [others q (table.listed_live inside)]
      exact table.range q inside
  · exact List.not_mem_cons_of_ne_of_not_mem (ne_of_mem_of_not_mem table.idle_live new) table.idle
  · rw [List.toFinset_cons, Finset.insert_comm, ← table.live]
  · show s.nrProcess + 1 = _
    rw [table.count, List.length_cons]
    push_cast
    rfl
  · rw [List.length_cons]
    omega
  · refine table.hashed.enter _ (head_mem.mpr (pidHashfn_lt pid)) fun list head inside => ?_
    obtain ⟨i, small, rfl⟩ := List.mem_map.mp head
    rcases List.mem_cons.mp inside with same | inside
    · cases same
    · obtain ⟨q, member, same, -⟩ := (table.bucket i (List.mem_range.mp small) _).mp inside
      obtain rfl := HashNode.hashLink.inj same
      exact unlisted member
  · intro i small n
    have kept : ∀ q ∈ listed, (u.procs q).pid = (s.procs q).pid := fun q inside =>
      congrArg Proc.pid (others q (table.listed_live inside))
    have old : (∃ q ∈ listed, n = .hashLink q ∧ pidHashfn (u.procs q).pid = i) ↔ n ∈ entries (.hashList i) := by
      rw [table.bucket i small]
      refine exists_congr fun q => and_congr_right fun inside => ?_
      rw [kept q inside]
    simp only [List.mem_cons, or_and_right, exists_or, exists_eq_left, old, itself, proc, Function.update_apply,
      HashNode.hashList.injEq]
    by_cases same : i = pidHashfn pid
    · subst same
      simp
    · simp [same, Ne.symm same]
  · exact (parents _ table.idle_live).trans table.top
  · intro q inside
    have upward : ∀ q ∈ s.live, Rooted u.kin idleproc q := fun q live =>
      (table.rooted q live).congr table.families live parents
    rcases Finset.mem_insert.mp inside with rfl | inside
    · exact .child ((adopt_parent ..).trans (if_pos rfl)) (upward _ here)
    · exact upward q inside

/-- With everything at hand there is a new process. -/
theorem doFork_granted (table : Table s none listed children entries) (here : s.current ∈ s.live)
    (awake : (s.procs s.current).waitState = 0) (allocated : given.proc = some p) (granted : given.kstack && given.mm)
    (new : p ∉ s.live) (room : listed.length + 1 < MAX_PROCESS) (enough : MAX_PID * (MAX_PROCESS + 1) ≤ fuel) :
    ∃ pid t, doFork fuel given s = .ok (pid, t) ∧ 0 < pid ∧ (∃ u, getPid fuel (begun s p) = .ok (pid, u)) ∧ Kept s t ∧
      t.live = insert p s.live ∧ Forked s t listed children p pid := by
  have count := table.count
  have waits : ((begun s p).procs s.current).waitState = 0 := by
    rw [begun_procs new _ here]
    exact awake
  have shown : s.current ∈ (begun s p).live := Finset.mem_insert_of_mem here
  obtain ⟨pid, t, u, found, positive, listed, kept, live, forked⟩ := enlist_spec table here new room enough
  obtain ⟨code, proc⟩ := forked.proc
  have run := congrArg (fun r : Kernel Machine => r >>= fun t => pure ((t.procs p).pid, t)) listed
  simp only [bind_assoc, ok_bind, proc] at run
  refine ⟨pid, u, ?_, positive, ⟨t, found⟩, kept, live, forked⟩
  rw [doFork, if_neg (by omega), allocated]
  dsimp only
  rw [show (allocProc s p).setParent p (some s.current) = begun s p from rfl,
    show (begun s p).current = s.current from rfl, deref_ok shown, ok_bind, ensure_pos waits, ok_bind,
      if_pos granted, found,
    ok_bind]
  exact run

/-- A call that fails leaves the processes as they were. -/
theorem doFork_spec (table : Table s none listed children entries) (here : s.current ∈ s.live)
    (awake : (s.procs s.current).waitState = 0) (fresh : ∀ p, given.proc = some p → p ∉ s.live)
    (enough : MAX_PID * (MAX_PROCESS + 1) ≤ fuel) :
    ∃ ret t, doFork fuel given s = .ok (ret, t) ∧ Kept s t ∧
      (ret < 0 ∧ t.live = s.live ∧ Table t none listed children entries ∨
        ∃ p, 0 < ret ∧ t.live = insert p s.live ∧ Forked s t listed children p ret) := by
  have count := table.count
  by_cases room : MAX_PROCESS ≤ s.nrProcess
  · refine ⟨-E_NO_FREE_PROC, s, ?_, ⟨fun _ _ => rfl, rfl, rfl⟩, .inl ⟨by decide, rfl, table⟩⟩
    rw [doFork, if_pos room]
    rfl
  cases allocated : given.proc with
  | none =>
      refine ⟨-E_NO_MEM, s, ?_, ⟨fun _ _ => rfl, rfl, rfl⟩, .inl ⟨by decide, rfl, table⟩⟩
      rw [doFork, if_neg room, allocated]
      rfl
  | some p =>
      have new := fresh p allocated
      by_cases granted : given.kstack && given.mm
      · obtain ⟨pid, t, run, positive, -, kept, live, forked⟩ :=
          doFork_granted table here awake allocated granted new (by omega) enough
        exact ⟨pid, t, run, kept, .inr ⟨p, positive, live, forked⟩⟩
      · have waits : ((begun s p).procs s.current).waitState = 0 := by
          rw [begun_procs new _ here]
          exact awake
        have shown : s.current ∈ (begun s p).live := Finset.mem_insert_of_mem here
        have freed : kfree (begun s p) p = .ok { begun s p with live := (begun s p).live.erase p } := by
          rw [kfree, deref_ok (show p ∈ (begun s p).live from Finset.mem_insert_self ..)]
          rfl
        have live : (begun s p).live.erase p = s.live := Finset.erase_insert new
        refine ⟨-E_NO_MEM, { begun s p with live := (begun s p).live.erase p }, ?_,
          ⟨fun q inside => begun_procs new q inside, rfl, rfl⟩, .inl ⟨by decide, live, ?_⟩⟩
        · rw [doFork, if_neg room, allocated]
          dsimp only
          rw [show (allocProc s p).setParent p (some s.current) = begun s p from rfl,
            show (begun s p).current = s.current from rfl, deref_ok shown, ok_bind, ensure_pos waits, ok_bind,
              if_neg granted,
            freed]
          rfl
        · rw [live]
          exact table.unused (fun q inside => congrArg Proc.pid (begun_procs new q inside)) (begun_kin new)

/-! ## `do_exit` -/

/-- What `wakeup_proc` makes of a process. -/
def awake (proc : Proc) : Proc := { proc with state := .runnable, waitState := 0 }

theorem wakeupProc_eq (live : p ∈ s.live) (able : (s.procs p).state ≠ .zombie) :
    wakeupProc s p = .ok (if (s.procs p).state ≠ .runnable then s.setProc p (awake (s.procs p)) else s) := by
  rw [wakeupProc, deref_ok live, ok_bind, ensure_pos able, ok_bind]
  split <;> rfl

/-- The wake-up of a parent that waits. -/
theorem wakeup_spec {c : Prop} [Decidable c] (live : p ∈ s.live) (able : (s.procs p).state ≠ .zombie)
    (waits : (s.procs p).state = .sleeping → (s.procs p).waitState = WT_CHILD) :
    ∃ proc, (if c ∧ (s.procs p).waitState = WT_CHILD then wakeupProc s p else pure s) = .ok (s.setProc p proc) ∧
      (proc = s.procs p ∨ proc = awake (s.procs p)) ∧ (proc.state = .sleeping → ¬ c) := by
  have same : s.setProc p (s.procs p) = s := by
    simp only [Machine.setProc, Function.update_eq_self]
  split
  · rename_i both
    rw [wakeupProc_eq live able]
    split
    · exact ⟨_, rfl, .inr rfl, fun asleep => by cases asleep⟩
    · rename_i runs
      refine ⟨s.procs p, by rw [same], .inl rfl, fun asleep => ?_⟩
      rw [asleep] at runs
      exact absurd (by decide) runs
  · rename_i either
    exact ⟨s.procs p, by rw [same]; rfl, .inl rfl, fun asleep holds => either ⟨holds, waits asleep⟩⟩

theorem adoptLoop_step (child : s.kin.child s.current = some p) (here : s.current ∈ s.live) (live : p ∈ s.live)
    (init : s.initproc ∈ s.live) (first : ∀ r, (s.kin.release s.current p).child s.initproc = some r → r ∈ s.live) :
    adoptLoop (fuel + 1) s =
      (if (s.procs p).state = .zombie ∧ (s.procs s.initproc).waitState = WT_CHILD then
        wakeupProc { s with kin := (s.kin.release s.current p).adopt s.initproc p } s.initproc
      else pure { s with kin := (s.kin.release s.current p).adopt s.initproc p }) >>= adoptLoop fuel := by
  simp only [adoptLoop, Machine.deref, Machine.setCptr, Machine.setYptr, Machine.setOptr, Machine.setParent, here, live,
    init, child, ↓reduceIte, ok_bind, pure_ok, Function.update_self, Kin.adopt, Kin.release]
  by_cases wakes : (s.procs p).state = .zombie ∧ (s.procs s.initproc).waitState = WT_CHILD
  all_goals
    cases next : Function.update s.kin.child s.current (s.kin.older p) s.initproc with
    | none => simp only [ok_bind, lead, wakes, and_self, ↓reduceIte]
    | some r =>
        have there : r ∈ s.live := first r next
        simp only [there, ok_bind, lead, wakes, and_self, ↓reduceIte]

/-- What `do_exit` does to the children of the process, the youngest first. -/
structure Adopted (s t : Machine) (xs : List Ptr) : Prop where
  live : t.live = s.live
  current : t.current = s.current
  initproc : t.initproc = s.initproc
  others : ∀ q, q ≠ s.initproc → t.procs q = s.procs q
  init : t.procs s.initproc = s.procs s.initproc ∨ t.procs s.initproc = awake (s.procs s.initproc)
  woken : (t.procs s.initproc).state = .sleeping → ∀ x ∈ xs, (s.procs x).state ≠ .zombie
  below : t.kin.parent s.initproc = some idleproc

theorem adoptLoop_spec {xs : List Ptr} (table : Table s loose listed children entries)
    (only : ∀ c, loose = some c → c = s.current)
    (own : children s.current = xs) (here : s.current ∈ s.live) (init : s.initproc ∈ s.live)
    (apart : s.current ≠ s.initproc) (busy : s.current ≠ idleproc) (able : (s.procs s.initproc).state ≠ .zombie)
    (waits : (s.procs s.initproc).state = .sleeping → (s.procs s.initproc).waitState = WT_CHILD)
    (below : s.kin.parent s.initproc = some idleproc) (enough : xs.length < fuel) :
    ∃ t, adoptLoop fuel s = .ok t ∧ Adopted s t xs ∧ Table t none listed
      (Function.update (Function.update children s.current []) s.initproc (xs.reverse ++ children s.initproc))
        entries := by
  induction xs generalizing s children loose fuel with
  | nil =>
      obtain ⟨fuel, rfl⟩ := Nat.exists_eq_succ_of_ne_zero (Nat.ne_zero_of_lt enough)
      have absent : s.kin.child s.current = none := by
        rw [table.families.child _ here, own]
        rfl
      refine ⟨s, ?_, ⟨rfl, rfl, rfl, fun _ _ => rfl, .inl rfl, by simp, below⟩, ?_⟩
      · rw [adoptLoop, deref_ok here, ok_bind, absent]
        rfl
      · rw [List.reverse_nil, List.nil_append, ← own, Function.update_eq_self, Function.update_eq_self]
        refine { table with families := table.families.tight fun c same => ?_ }
        rw [only c same, own]
  | cons x xs ih =>
      obtain ⟨fuel, rfl⟩ := Nat.exists_eq_succ_of_ne_zero (Nat.ne_zero_of_lt enough)
      have inside : x ∈ children s.current := own ▸ List.mem_cons_self
      have member := table.families.member here inside
      have child : s.kin.child s.current = some x := by
        rw [table.families.child _ here, own]
        rfl
      have moved := table.families.move init here (Ne.symm apart) own only
      have first : ∀ r, (s.kin.release s.current x).child s.initproc = some r → r ∈ s.live := by
        intro r first
        rw [show (s.kin.release s.current x).child s.initproc = s.kin.child s.initproc from
          Function.update_of_ne (Ne.symm apart) .., table.families.child _ init] at first
        exact table.families.member init (List.mem_of_head? first)
      have stranger : x ≠ s.initproc := by
        rintro rfl
        have parent := ((table.families.parent _ here _).mp inside).2
        rw [below] at parent
        exact busy (Option.some.inj parent).symm
      have top : x ≠ idleproc := ne_of_mem_of_not_mem (table.child_listed here inside) table.idle
      obtain ⟨proc, woken, either, heard⟩ := @wakeup_spec
        { s with kin := (s.kin.release s.current x).adopt s.initproc x } s.initproc ((s.procs x).state = .zombie) _
        init able waits
      let u : Machine := { s with kin := (s.kin.release s.current x).adopt s.initproc x }.setProc s.initproc proc
      have parents : ∀ y, u.kin.parent y = s.kin.parent y ∨ u.kin.parent y = some s.initproc := by
        intro y
        rw [show u.kin.parent y = if y = x then some s.initproc else s.kin.parent y from adopt_parent ..]
        split
        · exact .inr rfl
        · exact .inl rfl
      have below' : u.kin.parent s.initproc = some idleproc :=
        (adopt_parent ..).trans ((if_neg (Ne.symm stranger)).trans below)
      have table' : Table u (some s.current) listed
          (Function.update (Function.update children s.current xs) s.initproc (x :: children s.initproc)) entries := by
        refine Table.setProc (s := { s with kin := (s.kin.release s.current x).adopt s.initproc x }) ?_ ?_
        · exact ⟨table.pids, table.range, table.idle, table.live, table.count, table.few, table.hashed,
            table.bucket, moved,
            (adopt_parent ..).trans ((if_neg (Ne.symm top)).trans table.top),
            fun y live => (table.rooted y live).move parents below'⟩
        · rcases either with rfl | rfl <;> rfl
      have updated : u.procs s.initproc = proc := Function.update_self ..
      have kept : ∀ q, q ≠ s.initproc → u.procs q = s.procs q := fun q other => Function.update_of_ne other ..
      have stays : u.procs s.initproc = s.procs s.initproc ∨ u.procs s.initproc = awake (s.procs s.initproc) := by
        rw [updated]
        exact either
      have able' : (u.procs s.initproc).state ≠ .zombie := by
        rcases stays with same | same
        · rw [same]
          exact able
        · rw [same]
          simp [awake]
      have waits' : (u.procs s.initproc).state = .sleeping → (u.procs s.initproc).waitState = WT_CHILD := by
        rcases stays with same | same
        · rw [same]
          exact waits
        · rw [same]
          simp [awake]
      obtain ⟨t, run, adopted, final⟩ := ih (s := u) table' (fun c same => (Option.some.inj same).symm)
        ((Function.update_of_ne apart ..).trans (Function.update_self ..)) here init apart busy able' waits' below'
        (Nat.lt_of_succ_lt_succ enough)
      refine ⟨t, ?_, ⟨adopted.live, adopted.current, adopted.initproc, fun q other => ?_, ?_, fun asleep y inside => ?_,
        adopted.below⟩, ?_⟩
      · rw [adoptLoop_step child here member init first, woken, ok_bind]
        exact run
      · exact (adopted.others q other).trans (kept q other)
      · rcases adopted.init with same | same
        · rw [show s.initproc = u.initproc from rfl, same]
          exact stays
        · rw [show s.initproc = u.initproc from rfl, same]
          right
          rcases stays with same | same
          · exact congrArg awake same
          · rw [show u.initproc = s.initproc from rfl, same]
            rfl
      · rcases List.mem_cons.mp inside with rfl | inside
        · have still : proc.state = .sleeping := by
            rcases adopted.init with same | same
            · rw [← updated]
              exact (congrArg Proc.state same).symm.trans asleep
            · have runs : (t.procs s.initproc).state = .runnable := congrArg Proc.state same
              rw [asleep] at runs
              cases runs
          exact heard still
        · by_cases itself : y = s.initproc
          · rw [itself]
            exact able
          · rw [← kept y itself]
            exact adopted.woken asleep y inside
      · convert final using 1
        funext q
        simp only [Function.update_apply, u, Machine.setProc]
        by_cases init : q = s.initproc
        · simp [init]
        · by_cases current : q = s.current <;> simp [init, current, Ne.symm apart]

/-! ## `do_wait` -/

/-- The children that `do_wait(pid)` is about. -/
def Wanted (s : Machine) (pid : Int) (p : Ptr) : Prop := pid ≠ 0 → (s.procs p).pid = pid

theorem childLoop_spec {row : List Ptr} (is : Row s.kin row) (live : ∀ p ∈ row, p ∈ s.live) (haskid : Bool)
    (enough : row.length < fuel) :
    ∃ found haskid', childLoop s fuel row.head? haskid = .ok (found, haskid') ∧
      (∀ p, found = some p → p ∈ row ∧ (s.procs p).state = .zombie) ∧
      (found = none → (∀ p ∈ row, (s.procs p).state ≠ .zombie) ∧ (haskid' = true ↔ haskid = true ∨ ∃ p, p ∈ row)) := by
  induction row generalizing haskid fuel with
  | nil =>
      obtain ⟨fuel, rfl⟩ := Nat.exists_eq_succ_of_ne_zero (Nat.ne_zero_of_lt enough)
      exact ⟨none, haskid, rfl, by simp, by simp⟩
  | cons p row ih =>
      obtain ⟨fuel, rfl⟩ := Nat.exists_eq_succ_of_ne_zero (Nat.ne_zero_of_lt enough)
      rw [List.head?_cons, childLoop, deref_ok (live p List.mem_cons_self), ok_bind]
      by_cases zombie : (s.procs p).state = .zombie
      · refine ⟨some p, true, if_pos zombie, fun q found => ?_, by simp⟩
        obtain rfl := Option.some.inj found
        exact ⟨List.mem_cons_self, zombie⟩
      · rw [if_neg zombie, is.1]
        obtain ⟨found, haskid', run, sound, complete⟩ :=
          ih is.2.2 (fun q inside => live q (List.mem_cons_of_mem p inside))
          true (Nat.lt_of_succ_lt_succ enough)
        refine ⟨found, haskid', run, fun q same => (sound q same).imp_left (List.mem_cons_of_mem p), fun none => ?_⟩
        obtain ⟨nobody, more⟩ := complete none
        exact ⟨List.forall_mem_cons.mpr ⟨zombie, nobody⟩, iff_of_true (more.mpr (.inl rfl))
          (.inr ⟨p, List.mem_cons_self⟩)⟩

theorem findKid_spec (table : Table s none listed children entries) (here : s.current ∈ s.live) (pid : Int)
    (enough : listed.length < fuel) :
    ∃ found haskid, findKid fuel s pid = .ok (found, haskid) ∧
      (∀ p, found = some p → p ∈ children s.current ∧ Wanted s pid p ∧ (s.procs p).state = .zombie) ∧
      (found = none → (∀ p ∈ children s.current, Wanted s pid p → (s.procs p).state ≠ .zombie) ∧
        (haskid = true ↔ ∃ p ∈ children s.current, Wanted s pid p)) := by
  rw [findKid]
  split
  · rename_i named
    obtain ⟨r, run, exact⟩ := findProc_spec table pid enough
    have kids : ∀ p ∈ children s.current, Wanted s pid p → r = some p := fun p inside wanted =>
      (exact p).mpr ⟨table.child_listed here inside, wanted named⟩
    rw [run, ok_bind]
    cases r with
    | none =>
        refine ⟨none, false, rfl, by simp, fun _ => ⟨fun p inside wanted => ?_, ?_⟩⟩
        · cases kids p inside wanted
        · refine iff_of_false (by simp) ?_
          rintro ⟨p, inside, wanted⟩
          cases kids p inside wanted
    | some p =>
        obtain ⟨member, same⟩ := (exact p).mp rfl
        have mine : s.kin.parent p = some s.current ↔ p ∈ children s.current := by
          rw [table.families.parent _ here p]
          exact (and_iff_right (table.listed_live member)).symm
        dsimp only
        by_cases own : s.kin.parent p = some s.current
        · rw [if_pos own]
          have child := mine.mp own
          by_cases zombie : (s.procs p).state = .zombie
          · refine ⟨some p, true, if_pos zombie, fun q found => ?_, by simp⟩
            obtain rfl := Option.some.inj found
            exact ⟨child, fun _ => same, zombie⟩
          · refine ⟨none, true, if_neg zombie, by simp, fun _ => ⟨fun q inside wanted => ?_, ?_⟩⟩
            · obtain rfl := Option.some.inj (kids q inside wanted)
              exact zombie
            · exact iff_of_true rfl ⟨p, child, fun _ => same⟩
        · rw [if_neg own]
          refine ⟨none, false, rfl, by simp, fun _ => ⟨fun q inside wanted => ?_, ?_⟩⟩
          · obtain rfl := Option.some.inj (kids q inside wanted)
            exact absurd (mine.mpr inside) own
          · refine iff_of_false (by simp) ?_
            rintro ⟨q, inside, wanted⟩
            obtain rfl := Option.some.inj (kids q inside wanted)
            exact own (mine.mpr inside)
  · rename_i any
    have all : ∀ p, Wanted s pid p := fun p named => absurd named any
    have few : (children s.current).length ≤ listed.length :=
      (List.subperm_of_subset (table.families.nodup _ here) fun p inside => table.child_listed here inside).length_le
    obtain ⟨found, haskid, run, sound, complete⟩ := childLoop_spec (table.families.row _ here)
      (fun p inside => table.families.member here inside) false (few.trans_lt enough)
    rw [deref_ok here, ok_bind, table.families.child _ here]
    refine ⟨found, haskid, run, fun p same => ⟨(sound p same).1, all p, (sound p same).2⟩, fun none => ?_⟩
    obtain ⟨nobody, more⟩ := complete none
    refine ⟨fun p inside _ => nobody p inside, more.trans ?_⟩
    simp [all]

theorem kfree_ok (live : p ∈ s.live) : kfree s p = .ok { s with live := s.live.erase p } := by
  rw [kfree, deref_ok live]
  rfl

/-- A child without children of its own is reaped. -/
theorem reap_spec (table : Table s none listed children entries) (here : q ∈ s.live) (inside : p ∈ children q)
    (childless : children p = []) (other : p ≠ s.initproc) :
    ∃ t entries', reap s p = .ok ((s.procs p).exitCode, t) ∧ t.procs = s.procs ∧ t.live = s.live.erase p ∧
      t.current = s.current ∧ t.initproc = s.initproc ∧ t.kin.parent = s.kin.parent ∧
      Table t none (listed.erase p) (Function.update children q ((children q).erase p)) entries' := by
  have member := table.child_listed here inside
  have live := table.listed_live member
  have parent := ((table.families.parent q here p).mp inside).2
  have top : p ≠ idleproc := ne_of_mem_of_not_mem member table.idle
  obtain ⟨before, after, split, off⟩ := List.eq_append_cons_of_mem inside
  have row := split ▸ table.families.row q here
  have distinct := List.nodup_append.mp (split ▸ table.families.nodup q here)
  have older : ∀ r, s.kin.older p = some r → r ∈ s.live ∧ r ≠ p := by
    intro r next
    have behind : r ∈ after := List.mem_of_head? (row.older_eq.symm.trans next)
    refine ⟨table.families.member here ?_, ne_of_mem_of_not_mem behind (List.nodup_cons.mp distinct.2.1).1⟩
    rw [split]
    exact List.mem_append_right before (List.mem_cons_of_mem p behind)
  have younger : ∀ r, s.kin.younger p = some r → r ∈ s.live := by
    intro r back
    have front := row.younger_eq (split ▸ table.families.front q here (by simp) p)
    refine table.families.member here ?_
    rw [split]
    exact List.mem_append_left _ (List.mem_of_getLast? (front.symm.trans back))
  let h : Machine := { s with hashList := listDel s.hashList (.hashLink p) }
  have removed := removeLinks_eq (s := h) live parent here older younger
  have hash := pidHashfn_lt (s.procs p).pid
  have hashed : .hashLink p ∈ entries (.hashList (pidHashfn (s.procs p).pid)) :=
    (table.bucket _ hash _).mpr ⟨p, member, rfl, rfl⟩
  let u : Machine :=
    { h with
      procList := listDel h.procList (.listLink p)
      kin := h.kin.leave p
      nrProcess := h.nrProcess - 1
      live := s.live.erase p }
  have run : reap s p = .ok ((s.procs p).exitCode, u) := by
    rw [reap, ensure_pos ⟨top, other⟩, ok_bind, deref_ok live, ok_bind, unhashProc, deref_ok live, ok_bind, pure_ok,
      ok_bind, removed, ok_bind, kfree_ok]
    · rfl
    · exact live
  have listed_erase : ∀ x, x ∈ listed.erase p ↔ x ≠ p ∧ x ∈ listed := fun x => table.nodup.mem_erase_iff
  refine ⟨u, Function.update entries (.hashList (pidHashfn (s.procs p).pid))
    ((entries (.hashList (pidHashfn (s.procs p).pid))).erase (.hashLink p)), run, rfl, rfl, rfl, rfl, rfl,
    GetPid.removeLinks_inv table.pids member, fun x within => table.range x (List.mem_of_mem_erase within),
    fun within => table.idle (List.mem_of_mem_erase within), ?_, ?_, ?_, table.hashed.leave _
      (head_mem.mpr hash) hashed, ?_,
    table.families.leave here inside childless, table.top, fun x within => ?_⟩
  · ext x
    rw [show u.live = s.live.erase p from rfl, Finset.mem_erase, table.mem_live, Finset.mem_insert, List.mem_toFinset,
      listed_erase, and_or_left]
    refine or_congr_left ⟨And.right, fun idle => ⟨?_, idle⟩⟩
    rw [idle]
    exact Ne.symm top
  · have length := List.length_erase_of_mem member
    have positive := List.length_pos_of_mem member
    show s.nrProcess - 1 = _
    rw [table.count, length]
    omega
  · have length := List.length_erase_of_mem member
    have few := table.few
    omega
  · intro i small n
    have ring := table.hashed.ring _ (head_mem.mpr hash)
    have old := table.bucket i small n
    simp only [listed_erase]
    by_cases same : i = pidHashfn (s.procs p).pid
    · subst same
      rw [Function.update_self, ring.nodes_nodup.mem_erase_iff, old]
      constructor
      · rintro ⟨differs, x, within, rfl, rest⟩
        exact ⟨x, ⟨fun itself => differs (itself ▸ rfl), within⟩, rfl, rest⟩
      · rintro ⟨x, ⟨differs, within⟩, rfl, rest⟩
        exact ⟨fun itself => differs (HashNode.hashLink.inj itself), x, within, rfl, rest⟩
    · rw [Function.update_of_ne (fun equal => same (HashNode.hashList.inj equal)), old]
      refine exists_congr fun x => ⟨fun both => ⟨⟨?_, both.1⟩, both.2⟩, fun both => ⟨both.1.2, both.2⟩⟩
      rintro rfl
      exact same both.2.2.symm
  · exact (table.rooted x (Finset.mem_of_mem_erase within)).congr table.families (Finset.mem_of_mem_erase within)
      fun _ _ => rfl

end Ucore.Process.Family
