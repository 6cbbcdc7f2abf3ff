import Ucore.Lib.Run
import Ucore.Mm.DefaultPmm
import Ucore.Mm.Unmap

/-! # Runs of the mapping functions

Any number of page tables, and calls that map and unmap user pages in them in any
order. A user page is one that the allocator handed out for that purpose and that
was not handed back.
-/

namespace Ucore.Mm.RefCounts

open Lib.Run Lib.Tally Libs.Assert Mmu Pmm PageTables PageRefs Unmap

variable {σ : Type}

section Calls

variable (M : PmmCalls σ) (bootPgdir : Nat)

/-- The page tables that were set up, and the user pages in the callers' hands. -/
structure Sys (σ : Type) where
  machine : Machine σ
  roots : Finset Nat
  pages : Finset Nat

inductive Call where
  | setupPgdir
  | allocPage
  | pageInsert (pgdir page la perm : Nat)
  | pageRemove (pgdir la : Nat)
  | unmapRange (pgdir start stop : Nat)
  | pgdirAllocPage (pgdir la perm : Nat)

/-- The pages handed to `free_page` from `s` to `t`. -/
def handedBack (s t : Machine σ) : List Nat := t.frees.take (t.frees.length - s.frees.length)

def Sys.after (s : Sys σ) (m : Machine σ) : Sys σ :=
  { s with machine := m, pages := s.pages.filter fun p => p ∉ handedBack s.machine m }

def exec (s : Sys σ) : Call → Result (Sys σ)
  | .setupPgdir => do
      match ← setupPgdir M bootPgdir s.machine with
      | (none, m) => pure (s.after m)
      | (some r, m) => pure { s.after m with roots := insert r s.roots }
  | .allocPage => do
      match ← allocPage M s.machine with
      | (none, m) => pure (s.after m)
      | (some p, m) => pure { s.after m with pages := insert p s.pages }
  | .pageInsert pgdir page la perm => do
      let (_, m) ← pageInsert M pgdir page la perm s.machine
      pure (s.after m)
  | .pageRemove pgdir la => do
      let m ← pageRemove M pgdir la s.machine
      pure (s.after m)
  | .unmapRange pgdir start stop => do
      let m ← unmapRange M pgdir start stop s.machine
      pure (s.after m)
  | .pgdirAllocPage pgdir la perm => do
      match ← pgdirAllocPage M pgdir la perm s.machine with
      | (none, m) => pure (s.after m)
      | (some p, m) => pure { s.after m with pages := insert p (s.after m).pages }

/-- What the callers promise: a page table that was set up, user addresses, a user
    page, and flags that fit the flag bits. -/
def Legal (s : Sys σ) : Call → Prop
  | .setupPgdir => True
  | .allocPage => True
  | .pageInsert pgdir page la perm => pgdir ∈ s.roots ∧ page ∈ s.pages ∧ la < USERTOP ∧ perm < 1024
  | .pageRemove pgdir la => pgdir ∈ s.roots ∧ la < USERTOP
  | .unmapRange pgdir start stop => pgdir ∈ s.roots ∧ (start % PGSIZE = 0 ∧ stop % PGSIZE = 0) ∧
      userAccess start stop = true
  | .pgdirAllocPage pgdir la perm => pgdir ∈ s.roots ∧ la < USERTOP ∧ perm < 1024

instance (s : Sys σ) (c : Call) : Decidable (Legal s c) := by
  cases c <;> unfold Legal <;> infer_instance

def Step (s t : Sys σ) : Prop := ∃ c, Legal s c ∧ exec M bootPgdir s c = .ok t

/-- The call is a `pgdir_alloc_page` that gets the page `p`, but cannot map it. -/
def Unplaced (s : Sys σ) (c : Call) (p : Nat) : Prop :=
  ∃ pgdir la perm pmm m ret, c = .pgdirAllocPage pgdir la perm ∧
    M.allocPage s.machine.pmm = (some p, pmm) ∧
    pageInsert M pgdir p la perm { s.machine with pmm := pmm } = .ok (ret, m) ∧ ret ≠ 0

/-- The pages handed to `free_page` by the call are those that lost their last
    mapping in it, and a page that `pgdir_alloc_page` could not map. -/
def FreesLastMapped (s : Sys σ) (c : Call) (t : Sys σ) : Prop :=
  ∃ new, t.machine.frees = new ++ s.machine.frees ∧ new.Nodup ∧ ∀ p, p ∈ new ↔
    (0 < mappings s.roots s.machine p ∧ mappings t.roots t.machine p = 0) ∨ Unplaced M s c p

end Calls

variable (M : PmmManager σ) (bootPgdir : Nat)

/-- No page table yet; the boot page table maps nothing in the user half. -/
structure Initial (s : Sys σ) : Prop where
  roots : s.roots = ∅
  pages : s.pages = ∅
  rest : ∀ p, M.Free s.machine.pmm p → s.machine.ref p = 0
  boot : ¬M.Free s.machine.pmm bootPgdir
  user : ∀ i < 2, target (s.machine.mem bootPgdir i) = none

/-- The roles explain the machine, and the sets of roots and user pages. -/
structure Inv (s : Sys σ) (role : Nat → Role) : Prop where
  counted : Counted M s.roots 0 s.machine role
  pages : ∀ p, p ∈ s.pages ↔ role p = .data
  boot : role bootPgdir = .other
  user : ∀ i < 2, target (s.machine.mem bootPgdir i) = none

variable {M} {bootPgdir : Nat} {s t : Sys σ} {m : Machine σ} {role role' : Nat → Role} {new : List Nat}
  {c : Call}

theorem handedBack_eq (frees : m.frees = new ++ s.machine.frees) : handedBack s.machine m = new := by
  simp [handedBack, frees]

namespace Inv

theorem start (initial : Initial M bootPgdir s) :
    ∃ role, Inv M bootPgdir s role := by
  classical
  refine ⟨fun p => if M.Free s.machine.pmm p then .free else .other, ⟨⟨?_, ?_, ?_, ?_⟩, ?_, ?_, ?_⟩, ?_,
    if_neg initial.boot, initial.user⟩
  · intro p
    split <;> simp [*]
  · intro p named
    split at named
    · rename_i free
      exact M.free_lt free
    · exact absurd rfl named
  · intro p i child q place
    split at place <;> cases place
  · intro q inner
    split at inner <;> cases inner
  · intro r
    rw [initial.roots]
    split <;> simp
  · intro p data
    split at data <;> cases data
  · intro p free
    split at free
    · rename_i isFree
      exact initial.rest p isFree
    · cases free
  · intro p
    rw [initial.pages]
    split <;> simp

theorem boot_after {roots : Finset Nat} (inv : Inv M bootPgdir s role)
    (edit : Edited M roots 0 s.machine role m role' new) : role' bootPgdir = .other := by
  refine (edit.kept bootPgdir (by simp [inv.boot]) fun freed => ?_).trans inv.boot
  have data := (edit.freed bootPgdir freed).1
  rw [inv.boot] at data
  cases data

/-- After a call on page tables the user pages are those not handed back. -/
theorem edited {first : Machine σ} (pages : Finset Nat) (inv : Inv M bootPgdir ⟨first, s.roots, pages⟩ role)
    (edit : Edited M s.roots 0 first role m role' new) :
    Inv M bootPgdir ⟨m, s.roots, pages.filter fun p => p ∉ new⟩ role' where
  counted := edit.counted
  pages p := by
    have before := inv.pages p
    simp only [Finset.mem_filter] at before ⊢
    rw [before]
    constructor
    · rintro ⟨data, still⟩
      exact (edit.kept p (by simp [data]) still).trans data
    · intro data
      exact ⟨edit.data_before data, fun freed => (edit.freed p freed).2 data⟩
  boot := inv.boot_after edit
  user i inside := by
    have other := inv.boot_after edit
    rw [show m.mem bootPgdir = first.mem bootPgdir from
      edit.mem bootPgdir (by rw [other]; rfl) (by simp [other])]
    exact inv.user i inside

/-- A page is taken for user data. -/
theorem taken {p : Nat} {pmm : σ} (inv : Inv M bootPgdir s role)
    (given : M.allocPage s.machine.pmm = (some p, pmm)) :
    Inv M bootPgdir ⟨{ s.machine with pmm := pmm }, s.roots, insert p s.pages⟩
      (Function.update role p .data) where
  counted := inv.counted.takeData given rfl
  pages q := by
    rw [Finset.mem_insert, inv.pages, Function.update_apply]
    split <;> simp [*]
  boot := by
    have notBoot : bootPgdir ≠ p := by
      rintro rfl
      have free := inv.counted.free_of_given given
      rw [inv.boot] at free
      cases free
    rw [Function.update_of_ne notBoot, inv.boot]
  user := inv.user

end Inv

theorem not_unplaced {p : Nat} (other : ∀ pgdir la perm, c ≠ .pgdirAllocPage pgdir la perm) :
    ¬Unplaced M s c p := by
  rintro ⟨pgdir, la, perm, -, -, -, same, -⟩
  exact other pgdir la perm same

/-- A call that releases pages and does nothing else to the sets. -/
theorem after_edited (inv : Inv M bootPgdir s role) (edit : Edited M s.roots 0 s.machine role m role' new)
    (released : Released s.roots s.machine m new)
    (other : ∀ pgdir la perm, c ≠ .pgdirAllocPage pgdir la perm) :
    (∃ role', Inv M bootPgdir (s.after m) role') ∧ FreesLastMapped M s c (s.after m) := by
  have back := handedBack_eq (s := s) edit.frees
  refine ⟨⟨role', ?_⟩, new, edit.frees, released.nodup, fun p => ?_⟩
  · have next := Inv.edited (s := s) s.pages inv edit
    rwa [← back] at next
  · rw [released.mem p, or_iff_left (not_unplaced other)]
    rfl

theorem after_refused {pmm : σ} (inv : Inv M bootPgdir s role)
    (given : M.allocPage s.machine.pmm = (none, pmm))
    (other : ∀ pgdir la perm, c ≠ .pgdirAllocPage pgdir la perm) :
    (∃ role', Inv M bootPgdir (s.after { s.machine with pmm := pmm }) role') ∧
      FreesLastMapped M s c (s.after { s.machine with pmm := pmm }) :=
  after_edited inv (.of_grown inv.counted (grown_refused inv.counted.layout given))
    (.of_eq fun _ => rfl) other

/-- What `page_insert` pushes out loses its last mapping. -/
theorem pushedOut_released {roots : Finset Nat} {first : Machine σ} {r page la w : Nat}
    (sets : SetsPte roots first m r la w) (maps : target w = some page) (root : r ∈ roots)
    (user : la < USERTOP) : Released roots first m (pushedOut roots 0 first r page la) := by
  have move := mappings_setsPte sets root user
  rw [maps] at move
  constructor
  · unfold pushedOut
    split
    · split <;> simp
    · simp
  · intro p
    have here := move p
    unfold pushedOut
    split
    · rename_i q old
      rw [old] at here
      simp only [Option.some.injEq] at here
      split
      · rename_i last
        simp only [List.mem_singleton]
        by_cases same : p = q
        · subst same
          rw [if_pos rfl, if_neg (Ne.symm last.1)] at here
          simp only [true_iff]
          omega
        · rw [if_neg (Ne.symm same)] at here
          simp only [same, false_iff]
          omega
      · rename_i more
        simp only [List.not_mem_nil, false_iff]
        rintro ⟨before, none⟩
        by_cases same : q = p
        · subst same
          rw [if_pos rfl] at here
          by_cases again : page = q
          · rw [if_pos again] at here
            omega
          · rw [if_neg again] at here
            refine more ⟨Ne.symm again, by omega, rfl⟩
        · rw [if_neg same] at here
          omega
    · rename_i old
      rw [old] at here
      simp only [List.not_mem_nil, false_iff]
      simp only [reduceCtorEq, if_false] at here
      omega

variable (M bootPgdir) in
/-- The call returns, keeps the invariant and frees the right pages, or it stops
    because the allocator had to swap. -/
def Returns (s : Sys σ) (c : Call) : Prop :=
  (∃ t, exec M bootPgdir s c = .ok t ∧ (∃ role', Inv M bootPgdir t role') ∧ FreesLastMapped M s c t) ∨
    (exec M bootPgdir s c = .error .panic ∧ s.machine.swapInitOk = true)

theorem setupPgdir_returns (inv : Inv M bootPgdir s role) : Returns M bootPgdir s .setupPgdir := by
  have other : ∀ pgdir la perm, Call.setupPgdir ≠ .pgdirAllocPage pgdir la perm := by simp
  rcases given : M.allocPage s.machine.pmm with ⟨_ | p, pmm⟩
  · by_cases swapping : s.machine.swapInitOk = true
    · refine .inr ⟨?_, swapping⟩
      simp [exec, setupPgdir, allocPage, given, swapping, bind, Except.bind]
    · refine .inl ⟨s.after { s.machine with pmm := pmm }, ?_, after_refused inv given other⟩
      simp [exec, setupPgdir, allocPage, given, swapping, bind, Except.bind, pure, Except.pure]
  · have free := inv.counted.free_of_given given
    obtain ⟨-, counts, counted⟩ := inv.counted.newRoot given inv.user
    have notBoot : bootPgdir ≠ p := by
      rintro rfl
      rw [inv.boot] at free
      cases free
    generalize ht : ({ s.machine with pmm := pmm } : Machine σ).setPage p (s.machine.mem bootPgdir) = m
      at counts counted
    have frees : m.frees = s.machine.frees := ht ▸ rfl
    have back : handedBack s.machine m = [] := handedBack_eq (s := s) (by simpa using frees)
    refine .inl ⟨⟨m, insert p s.roots, s.pages⟩, ?_, ⟨_, counted, fun q => ?_, ?_, fun i inside => ?_⟩,
      [], frees, .nil, fun q => ?_⟩
    · simp [exec, setupPgdir, allocPage, given, bind, Except.bind, pure, Except.pure, Sys.after, ht, back]
    · rw [inv.pages, Function.update_apply]
      split
      · rename_i same
        simp [same, free]
      · rfl
    · rw [Function.update_of_ne notBoot, inv.boot]
    · rw [show m.mem bootPgdir = s.machine.mem bootPgdir by
        rw [← ht]; exact Function.update_of_ne notBoot ..]
      exact inv.user i inside
    · have := counts q
      simp only [List.not_mem_nil, not_unplaced other, or_false, false_iff]
      omega

theorem allocPage_returns (inv : Inv M bootPgdir s role) : Returns M bootPgdir s .allocPage := by
  have other : ∀ pgdir la perm, Call.allocPage ≠ .pgdirAllocPage pgdir la perm := by simp
  rcases given : M.allocPage s.machine.pmm with ⟨_ | p, pmm⟩
  · by_cases swapping : s.machine.swapInitOk = true
    · refine .inr ⟨?_, swapping⟩
      simp [exec, allocPage, given, swapping, bind, Except.bind]
    · refine .inl ⟨s.after { s.machine with pmm := pmm }, ?_, after_refused inv given other⟩
      simp [exec, allocPage, given, swapping, bind, Except.bind, pure, Except.pure]
  · refine .inl ⟨⟨{ s.machine with pmm := pmm }, s.roots, insert p s.pages⟩, ?_,
      ⟨_, inv.taken given⟩, [], rfl, .nil, fun q => ?_⟩
    · have back : handedBack s.machine { s.machine with pmm := pmm } = [] := handedBack_eq (s := s) rfl
      simp [exec, allocPage, given, bind, Except.bind, pure, Except.pure, Sys.after, back]
    · simp only [List.not_mem_nil, not_unplaced other, or_false, false_iff]
      change ¬(0 < mappings s.roots s.machine q ∧ mappings s.roots s.machine q = 0)
      omega

theorem pageInsert_returns {pgdir page la perm : Nat} (inv : Inv M bootPgdir s role)
    (legal : Legal s (.pageInsert pgdir page la perm)) :
    Returns M bootPgdir s (.pageInsert pgdir page la perm) := by
  obtain ⟨root, isPage, user, small⟩ := legal
  rcases pageInsert_spec inv.counted root user ((inv.pages page).mp isPage) small with
    ⟨stops, swapping, -⟩ | ⟨m, role', run, -, edit, same⟩ | ⟨m, role', run, edit, sets, -⟩
  · refine .inr ⟨?_, swapping⟩
    rw [exec, stops]
    rfl
  · refine .inl ⟨s.after m, ?_, after_edited inv edit (.of_eq (mappings_congr same)) (by simp)⟩
    rw [exec, run]
    rfl
  · have maps : target (pteCreate page (PTE_V ||| perm)) = some page :=
      target_pteCreate (Nat.or_lt_two_pow (n := 10) (by decide) small)
    refine .inl ⟨s.after m, ?_, after_edited inv edit (pushedOut_released sets maps root user) (by simp)⟩
    rw [exec, run]
    rfl

theorem pageRemove_returns {pgdir la : Nat} (inv : Inv M bootPgdir s role)
    (legal : Legal s (.pageRemove pgdir la)) : Returns M bootPgdir s (.pageRemove pgdir la) := by
  obtain ⟨m, role', new, run, swept⟩ := pageRemove_swept inv.counted legal.1 legal.2
  refine .inl ⟨s.after m, ?_, after_edited inv swept.edit swept.released (by simp)⟩
  rw [exec, run]
  rfl

theorem unmapRange_returns {pgdir start stop : Nat} (inv : Inv M bootPgdir s role)
    (legal : Legal s (.unmapRange pgdir start stop)) :
    Returns M bootPgdir s (.unmapRange pgdir start stop) := by
  obtain ⟨m, run, role', new, swept⟩ := unmapRange_swept inv.counted legal.1 legal.2.1 legal.2.2
  refine .inl ⟨s.after m, ?_, after_edited inv swept.edit swept.released (by simp)⟩
  rw [exec, run]
  rfl

theorem pgdirAllocPage_returns {pgdir la perm : Nat} (inv : Inv M bootPgdir s role)
    (legal : Legal s (.pgdirAllocPage pgdir la perm)) :
    Returns M bootPgdir s (.pgdirAllocPage pgdir la perm) := by
  obtain ⟨root, user, small⟩ := legal
  rcases given : M.allocPage s.machine.pmm with ⟨_ | p, pmm⟩
  · by_cases swapping : s.machine.swapInitOk = true
    · refine .inr ⟨?_, swapping⟩
      simp [exec, pgdirAllocPage, allocPage, given, swapping, bind, Except.bind]
    · -- refused: nothing is freed, and there is no page to place
      have edit : Edited M s.roots 0 s.machine role { s.machine with pmm := pmm } role [] :=
        .of_grown inv.counted (grown_refused inv.counted.layout given)
      have next := Inv.edited (s := s) s.pages inv edit
      refine .inl ⟨s.after { s.machine with pmm := pmm }, ?_, ⟨role, ?_⟩, [], rfl, .nil, fun q => ?_⟩
      · simp [exec, pgdirAllocPage, allocPage, given, swapping, bind, Except.bind, pure, Except.pure]
      · rwa [← handedBack_eq (s := s) edit.frees] at next
      · have absent : ¬Unplaced M s (.pgdirAllocPage pgdir la perm) q := by
          rintro ⟨-, -, -, pmm', -, -, -, given', -⟩
          rw [given] at given'
          simp at given'
        simp only [List.not_mem_nil, absent, or_false, false_iff]
        change ¬(0 < mappings s.roots s.machine q ∧ mappings s.roots s.machine q = 0)
        omega
  have taken := inv.taken given
  have unmapped : mappings s.roots s.machine p = 0 := by
    refine inv.counted.mappings_eq_zero ?_
    simp [inv.counted.free_of_given given]
  generalize hFirst : ({ s.machine with pmm := pmm } : Machine σ) = first at taken
  have alloc : allocPage M s.machine = .ok (some p, first) := by
    simp [allocPage, given, hFirst]
  have sameCounts : ∀ q, mappings s.roots first q = mappings s.roots s.machine q := fun q => hFirst ▸ rfl
  have sameFrees : first.frees = s.machine.frees := hFirst ▸ rfl
  have unplaced : ∀ q, Unplaced M s (.pgdirAllocPage pgdir la perm) q ↔
      q = p ∧ ∃ ret m, pageInsert M pgdir p la perm first = .ok (ret, m) ∧ ret ≠ 0 := by
    intro q
    constructor
    · rintro ⟨_, _, _, pmm', m, ret, same, given', run, nonzero⟩
      simp only [Call.pgdirAllocPage.injEq] at same
      obtain ⟨rfl, rfl, rfl⟩ := same
      rw [given] at given'
      simp only [Prod.mk.injEq, Option.some.injEq] at given'
      obtain ⟨rfl, rfl⟩ := given'
      exact ⟨rfl, ret, m, hFirst ▸ run, nonzero⟩
    · rintro ⟨rfl, ret, m, run, nonzero⟩
      exact ⟨pgdir, la, perm, pmm, m, ret, rfl, given, hFirst ▸ run, nonzero⟩
  have data : Function.update role p Role.data p = .data := Function.update_self ..
  rcases pageInsert_spec taken.counted root user data small with
    ⟨stops, swapping, -⟩ | ⟨m, role', run, -, edit, same⟩ | ⟨m, role', run, edit, sets, -⟩
  · refine .inr ⟨?_, ?_⟩
    · simp [exec, pgdirAllocPage, alloc, stops, bind, Except.bind]
    · rwa [← hFirst] at swapping
  · -- the page could not be mapped, and goes back at once
    have stays : role' p = .data := (edit.kept p (by simp) (by simp)).trans data
    have vacant : mappings s.roots m p = 0 := by
      rw [mappings_congr same, sameCounts, unmapped]
    have frees : (freePage M m p).frees = [p] ++ s.machine.frees := by
      rw [← sameFrees]
      exact congrArg _ edit.frees
    have back := handedBack_eq (s := s) frees
    have next := Inv.edited (s := s) (insert p s.pages) taken edit
    refine .inl ⟨s.after (freePage M m p), ?_, ⟨_, next.counted.giveBack stays vacant, fun q => ?_, ?_,
      next.user⟩, [p], frees, by simp, fun q => ?_⟩
    · simp [exec, pgdirAllocPage, alloc, run, bind, Except.bind, pure, Except.pure, E_NO_MEM]
    · have before := next.pages q
      simp only [Sys.after, back, Finset.mem_filter, Finset.mem_insert, List.mem_singleton,
        List.not_mem_nil, not_false_eq_true, and_true] at before ⊢
      by_cases here : q = p
      · simp [here]
      · simp [here, ← before]
    · have notBoot : bootPgdir ≠ p := by
        rintro rfl
        have other := next.boot
        rw [stays] at other
        cases other
      rw [Function.update_of_ne notBoot, next.boot]
    · have counts : mappings (s.after (freePage M m p)).roots (s.after (freePage M m p)).machine q =
          mappings s.roots s.machine q := (mappings_congr same q).trans (sameCounts q)
      rw [counts, unplaced, List.mem_singleton]
      constructor
      · rintro rfl
        exact .inr ⟨rfl, _, _, run, by decide⟩
      · rintro (⟨before, after⟩ | ⟨rfl, -⟩)
        · omega
        · rfl
  · have maps : target (pteCreate p (PTE_V ||| perm)) = some p :=
      target_pteCreate (Nat.or_lt_two_pow (n := 10) (by decide) small)
    have released := pushedOut_released sets maps root user
    have frees : m.frees = pushedOut s.roots 0 first pgdir p la ++ s.machine.frees := by
      rw [← sameFrees, edit.frees]
    have back := handedBack_eq (s := s) frees
    have next := Inv.edited (s := s) (insert p s.pages) taken edit
    have kept : p ∉ pushedOut s.roots 0 first pgdir p la := fun gone => by
      have := (released.mem p).mp gone
      rw [sameCounts, unmapped] at this
      omega
    refine .inl ⟨{ s.after m with pages := insert p (s.after m).pages }, ?_, ⟨role', ?_⟩, _, frees,
      released.nodup, fun q => ?_⟩
    · simp [exec, pgdirAllocPage, alloc, run, bind, Except.bind, pure, Except.pure]
    · rw [Finset.filter_insert, if_pos kept] at next
      simpa [Sys.after, back] using next
    · have placed : ¬Unplaced M s (.pgdirAllocPage pgdir la perm) q := by
        rw [unplaced]
        rintro ⟨-, ret, m', run', nonzero⟩
        rw [run] at run'
        simp only [Except.ok.injEq, Prod.mk.injEq] at run'
        exact nonzero run'.1.symm
      rw [released.mem q, or_iff_left placed, sameCounts]
      rfl

theorem legal_returns (inv : Inv M bootPgdir s role) (legal : Legal s c) : Returns M bootPgdir s c := by
  cases c with
  | setupPgdir => exact setupPgdir_returns inv
  | allocPage => exact allocPage_returns inv
  | pageInsert pgdir page la perm => exact pageInsert_returns inv legal
  | pageRemove pgdir la => exact pageRemove_returns inv legal
  | unmapRange pgdir start stop => exact unmapRange_returns inv legal
  | pgdirAllocPage pgdir la perm => exact pgdirAllocPage_returns inv legal

theorem run_inv (reached : Reachable (Initial M bootPgdir) (Step M bootPgdir) s) :
    ∃ role, Inv M bootPgdir s role := by
  refine reached.invariant (fun s => ∃ role, Inv M bootPgdir s role) (fun s => Inv.start) ?_
  rintro s t ⟨role, inv⟩ ⟨c, legal, run⟩
  rcases legal_returns inv legal with ⟨u, run', next, -⟩ | ⟨stops, -⟩
  · rw [run] at run'
    exact Except.ok.inj run' ▸ next
  · rw [run] at stops
    cases stops

/-- In every run the reference count of a user page is the number of leaf entries
    that map it, no free page is mapped, and a page is freed when its last mapping
    goes, or when `pgdir_alloc_page` cannot map it. -/
theorem run_refs (reached : Reachable (Initial M bootPgdir) (Step M bootPgdir) s) :
    (∀ p ∈ s.pages, s.machine.ref p = mappings s.roots s.machine p) ∧
    (∀ p, 0 < mappings s.roots s.machine p → p ∈ s.pages) ∧
    (∀ p, M.Free s.machine.pmm p → mappings s.roots s.machine p = 0) ∧
    ∀ c, Legal s c →
      (∃ t, exec M bootPgdir s c = .ok t ∧ FreesLastMapped M s c t) ∨
      (exec M bootPgdir s c = .error .panic ∧ s.machine.swapInitOk = true) := by
  obtain ⟨role, inv⟩ := run_inv reached
  refine ⟨fun p isPage => ?_, fun p mapped => ?_, fun p free => ?_, fun c legal => ?_⟩
  · simpa using inv.counted.count p ((inv.pages p).mp isPage)
  · by_contra outside
    rw [inv.counted.mappings_eq_zero fun data => outside ((inv.pages p).mpr data)] at mapped
    omega
  · refine inv.counted.mappings_eq_zero fun data => ?_
    rw [inv.counted.layout.free, data] at free
    cases free
  · exact (legal_returns inv legal).imp_left fun ⟨t, run, _, frees⟩ => ⟨t, run, frees⟩

/-! ## Concrete runs -/

def trial (M : PmmCalls σ) (bootPgdir : Nat) (s : Sys σ) (c : Call) : Option (Sys σ) :=
  if Legal s c then (exec M bootPgdir s c).toOption else none

theorem trial_step (s : Sys σ) (c : Call) (t : Sys σ) (taken : trial M bootPgdir s c = some t) :
    Step M bootPgdir s t := by
  unfold trial at taken
  split at taken
  · rename_i legal
    exact ⟨c, legal, toOption_some.mp taken⟩
  · cases taken

/-- The pages from 100 on are free, and page 0 is the boot page table. -/
def booted (count : Nat) (few : count < 100) : Sys PageList where
  machine :=
    { pmm := ⟨List.range' 100 count, List.nodup_range', fun p member => by
        simp only [List.mem_range'_1] at member
        simp only [npage]
        omega⟩
      ref := fun _ => 0
      mem := fun _ _ => 0
      swapInitOk := false
      swap := fun _ _ => 0
      frees := []
      freedWords := [] }
  roots := ∅
  pages := ∅

theorem booted_initial (count : Nat) (few : count < 100) : Initial lowestFirst 0 (booted count few) where
  roots := rfl
  pages := rfl
  rest _ _ := rfl
  boot := by
    change ¬0 ∈ List.range' 100 count
    simp
  user _ _ := target_zero

/-- Two page tables map the same page; one of the two mappings is removed. -/
theorem run_refs_shared : ∃ s, play (trial lowestFirst 0) (booted 50 (by decide))
    [.setupPgdir, .setupPgdir, .pgdirAllocPage 100 0x200000 0x1f, .pageInsert 101 102 0x300000 0x1b,
      .pageRemove 100 0x200000] = some s ∧ s.pages = {102} ∧
      s.machine.ref 102 = mappings s.roots s.machine 102 := by
  have played : (play (trial lowestFirst 0) (booted 50 (by decide))
      [.setupPgdir, .setupPgdir, .pgdirAllocPage 100 0x200000 0x1f, .pageInsert 101 102 0x300000 0x1b,
        .pageRemove 100 0x200000]).map Sys.pages = some {102} := by
    decide +kernel
  obtain ⟨s, played, pages⟩ := Option.map_eq_some_iff.mp played
  have reached := play_reachable trial_step (.start (booted_initial 50 (by decide))) played
  exact ⟨s, played, pages, (run_refs reached).1 102 (by simp [pages])⟩

/-- With two pages left, the second goes back without ever having been mapped. -/
theorem unplaced_freed :
    ¬∀ (s t : Sys PageList) (c : Call), Reachable (Initial lowestFirst 0) (Step lowestFirst 0) s →
      Legal s c → exec lowestFirst 0 s c = .ok t →
      ∃ new, t.machine.frees = new ++ s.machine.frees ∧ ∀ p, p ∈ new ↔
        0 < mappings s.roots s.machine p ∧ mappings t.roots t.machine p = 0 := by
  intro always
  have played : (play (trial lowestFirst 0) (booted 2 (by decide)) [.setupPgdir]).map (fun s =>
      (s.roots, s.machine.frees, s.machine.pmm.pages,
        (trial lowestFirst 0 s (.pgdirAllocPage 100 0x200000 0x1f)).map fun t => t.machine.frees)) =
        some ({100}, [], [101], some [101]) := by
    decide +kernel
  obtain ⟨s, played, found⟩ := Option.map_eq_some_iff.mp played
  simp only [Prod.mk.injEq, Option.map_eq_some_iff] at found
  obtain ⟨roots, before, pages, t, taken, after⟩ := found
  have reached := play_reachable trial_step (.start (booted_initial 2 (by decide))) played
  have legal : Legal s (.pgdirAllocPage 100 0x200000 0x1f) := by
    refine ⟨by simp [roots], ?_, by decide⟩
    decide +kernel
  rw [trial, if_pos legal, toOption_some] at taken
  obtain ⟨new, frees, last⟩ := always s t _ reached legal taken
  rw [before, after, List.append_nil] at frees
  obtain ⟨role, inv⟩ := run_inv reached
  have free : role 101 = .free := by
    rw [← inv.counted.layout.free]
    change 101 ∈ s.machine.pmm.pages
    simp [pages]
  have unmapped := inv.counted.mappings_eq_zero (p := 101) (by simp [free])
  have lost := ((last 101).mp (by simp [← frees])).1
  omega

/-- The calls of `default_pmm_manager` for single pages; a manager that has stopped stays so. -/
def defaultPmmManager (fuel : Nat) : PmmCalls (Result DefaultPmm.Pmm) where
  allocPage
    | .ok s =>
        match DefaultPmm.defaultAllocPages fuel s 1 with
        | .ok (page, t) => (page, .ok t)
        | .error fault => (none, .error fault)
    | .error fault => (none, .error fault)
  freePage s page := s.bind fun s => DefaultPmm.defaultFreePages fuel s page 1

def reserved : DefaultPmm.Pmm := ⟨fun _ => ⟨0, true, false, 0⟩, ⟨id, id⟩, 0⟩

/-- `default_pmm` is given the pages from 100 on, and page 0 is the boot page table. -/
def bootedDefault (count : Nat) : Sys (Result DefaultPmm.Pmm) where
  machine :=
    { pmm := DefaultPmm.defaultInitMemmap 10 (DefaultPmm.defaultInit reserved) 100 count
      ref := fun _ => 0
      mem := fun _ _ => 0
      swapInitOk := false
      swap := fun _ _ => 0
      frees := []
      freedWords := [] }
  roots := ∅
  pages := ∅

/-- Four pages are mapped, and no page is left. When the last of them is freed, it goes behind
    the first on the free list, and becomes its own predecessor. Once all are mapped again it
    is still on the list. -/
theorem defaultPmm_mapped_free : ∃ s, play (trial (defaultPmmManager 10) 0) (bootedDefault 7)
    [.setupPgdir, .pgdirAllocPage 100 0x200000 0x1b, .pgdirAllocPage 100 0x201000 0x1b,
      .pgdirAllocPage 100 0x202000 0x1b, .pgdirAllocPage 100 0x203000 0x1b, .pageRemove 100 0x200000,
      .pageRemove 100 0x203000, .pageRemove 100 0x201000, .pgdirAllocPage 100 0x200000 0x1b,
      .pgdirAllocPage 100 0x201000 0x1b, .pgdirAllocPage 100 0x203000 0x1b] = some s ∧
    s.machine.pmm.toOption.map (fun pmm => pmm.links.next .freeList) = some (.pageLink 106) ∧
    mappings s.roots s.machine 106 ≠ 0 := by
  have played : (play (trial (defaultPmmManager 10) 0) (bootedDefault 7)
      [.setupPgdir, .pgdirAllocPage 100 0x200000 0x1b, .pgdirAllocPage 100 0x201000 0x1b,
        .pgdirAllocPage 100 0x202000 0x1b, .pgdirAllocPage 100 0x203000 0x1b, .pageRemove 100 0x200000,
        .pageRemove 100 0x203000, .pageRemove 100 0x201000, .pgdirAllocPage 100 0x200000 0x1b,
        .pgdirAllocPage 100 0x201000 0x1b, .pgdirAllocPage 100 0x203000 0x1b]).map (fun s =>
        (s.roots, s.machine.pmm.toOption.map (fun pmm => pmm.links.next .freeList),
          mappedAt s.machine (100, 0x201))) = some ({100}, some (.pageLink 106), some 106) := by
    decide +kernel
  obtain ⟨s, played, found⟩ := Option.map_eq_some_iff.mp played
  simp only [Prod.mk.injEq] at found
  obtain ⟨roots, listed, maps⟩ := found
  refine ⟨s, played, listed, fun unmapped => ?_⟩
  exact mappings_eq_zero_iff.mp unmapped 100 (by simp [roots]) 0x201 (by decide +kernel) maps

/-- `pgdir_alloc_page` gives back a page that was never mapped; and with the manager that is
    installed a page can be mapped and on the free list. -/
theorem refs_fail :
    (¬∀ (s t : Sys PageList) (c : Call), Reachable (Initial lowestFirst 0) (Step lowestFirst 0) s →
      Legal s c → exec lowestFirst 0 s c = .ok t →
      ∃ new, t.machine.frees = new ++ s.machine.frees ∧ ∀ p, p ∈ new ↔
        0 < mappings s.roots s.machine p ∧ mappings t.roots t.machine p = 0) ∧
    ¬∀ (calls : List Call) (s : Sys (Result DefaultPmm.Pmm)) (pmm : DefaultPmm.Pmm) (p : Nat),
      play (trial (defaultPmmManager 10) 0) (bootedDefault 7) calls = some s → s.machine.pmm = .ok pmm →
      pmm.links.next .freeList = .pageLink p → mappings s.roots s.machine p = 0 := by
  refine ⟨unplaced_freed, fun always => ?_⟩
  obtain ⟨s, played, listed, mapped⟩ := defaultPmm_mapped_free
  obtain ⟨pmm, works, first⟩ := Option.map_eq_some_iff.mp listed
  exact mapped (always _ s pmm 106 played (toOption_some.mp works) first)

end Ucore.Mm.RefCounts
