import Ucore.Mm.ExitMmap
import Ucore.Mm.RefCounts

/-! # What teardown should leave behind

Every user page loses the references of the address space, and every table and
directory is freed once, when it is empty. `exit_mmap` gets there exactly when in
each directory the first area that finds all its tables is also the last one with
tables to free.
-/

namespace Ucore.Mm.TearDown

open Lib.Sweep Lib.Tally Libs.Assert Mmu Pmm PageTables PageRefs Prune ExitRange ExitMmap Vmm

variable {σ : Type} {M : PmmManager σ} {s t u : Machine σ} {role role₁ role₂ : Nat → Role}
  {roots : Finset Nat} {r : Nat} {mm : MmStruct}

/-- A directory or a table below the root `r`. -/
def InnerPage (s : Machine σ) (r q : Nat) : Prop :=
  ∃ i < 2, ∃ pd0, target (s.load ⟨r, i⟩) = some pd0 ∧
    (q = pd0 ∨ ∃ j < 512, target (s.load ⟨pd0, j⟩) = some q)

/-- From `s` to `t` the page table with the root `r` was torn down. -/
structure TornDown (roots : Finset Nat) (r : Nat) (s t : Machine σ) : Prop where
  refs : ∀ p, 0 < mappings roots s p → t.ref p + mappings {r} s p = s.ref p
  freed : ∃ new : List (Nat × (Nat → Nat)), t.frees = new.map Prod.fst ++ s.frees ∧
    t.freedWords = new.map Prod.snd ++ s.freedWords ∧
    ∀ q, InnerPage s r q → (new.map Prod.fst).count q = 1 ∧
      ∀ page ∈ new, page.1 = q → ∀ j < 512, isValid (page.2 j) = false
  parents : ∀ i < 2, ∀ pd0, target (s.load ⟨r, i⟩) = some pd0 → t.load ⟨r, i⟩ = 0 ∧
    ∀ j < 512, target (s.load ⟨pd0, j⟩) ≠ none → t.load ⟨pd0, j⟩ = 0

/-- The tables below `r`, by their numbers. -/
def tables (s : Machine σ) (r : Nat) : Set Nat := {c | c < 1024 ∧ walk s r (c * PTSIZE) ≠ none}

/-- In every directory there is an area that finds all its tables in the directory,
    none of them shared with an area before it; no area before it is like that, and no
    table of the directory belongs to areas behind it only. -/
def Sweepable (mm : MmStruct) (s : Machine σ) : Prop :=
  ∀ i < 2, isValid (s.load ⟨mm.pgdir, i⟩) = true → ∃ before vma after,
    mm.mmapList = before ++ vma :: after ∧
      Completes dirOf (tables s mm.pgdir) (ranges before) (tableRange vma.vmStart vma.vmEnd) i

theorem mappings_split (root : r ∈ roots) (s : Machine σ) (p : Nat) :
    mappings roots s p = mappings (roots.erase r) s p + mappings {r} s p := by
  have split : places roots = places (roots.erase r) ∪ places {r} := by
    rw [places, places, places, ← Finset.union_product]
    congr 1
    ext x
    simp only [Finset.mem_union, Finset.mem_erase, Finset.mem_singleton]
    constructor
    · intro member
      by_cases here : x = r
      · exact .inr here
      · exact .inl ⟨here, member⟩
    · rintro (⟨-, member⟩ | rfl)
      · exact member
      · exact root
  have apart : Disjoint (places (roots.erase r)) (places {r}) := by
    rw [Finset.disjoint_left]
    intro place first second
    simp only [places, Finset.mem_product, Finset.mem_erase, Finset.mem_singleton] at first second
    exact first.1.1 second.1
  rw [mappings, split, tally_disjoint apart]
  rfl

/-! ## Inner pages and the forest -/

section Inner

variable {vmas : List VmaStruct} {gone : List Nat} (counted : Counted M roots 0 s role) (root : r ∈ roots)
  (emptied : Emptied M roots r vmas s role u role₁ gone)
include emptied

/-- Removing mappings leaves the inner pages as they are. -/
theorem inner_kept {q : Nat} (inner : (role q).inner = true) : role₁ q = role q := by
  refine emptied.edit.kept q (fun free => ?_) fun freed => ?_
  · simp [free, Role.inner] at inner
  · simp [(emptied.edit.freed q freed).1, Role.inner] at inner

include counted

theorem dir_before {r' i q : Nat} (dir : role₁ q = .dir r' i) : role q = .dir r' i := by
  obtain ⟨isRoot, low, points⟩ := dir_place emptied.edit.counted.layout dir
  have isRoot' : role r' = .root := (counted.isRoot r').mp ((emptied.edit.counted.isRoot r').mpr isRoot)
  rw [Machine.load, emptied.upper r' (.inl isRoot')] at points
  exact counted.layout.entry r' i _ q (isRoot' ▸ .dir low) points

theorem table_before {r' i j q : Nat} (table : role₁ q = .table r' i j) : role q = .table r' i j := by
  obtain ⟨pd0, dir, low, points⟩ := table_place emptied.edit.counted.layout table
  have dir' := dir_before counted emptied dir
  rw [Machine.load, emptied.upper pd0 (.inr ⟨_, _, dir'⟩)] at points
  exact counted.layout.walk_table dir' low points

theorem inner_before {q : Nat} (inner : (role₁ q).inner = true) : (role q).inner = true := by
  cases named : role₁ q with
  | dir r' i => rw [dir_before counted emptied named]; rfl
  | table r' i j => rw [table_before counted emptied named]; rfl
  | free => simp [named, Role.inner] at inner
  | root => simp [named, Role.inner] at inner
  | data => simp [named, Role.inner] at inner
  | other => simp [named, Role.inner] at inner

include root

theorem innerPage_iff {q : Nat} : InnerPage s r q ↔ Role.below r (role₁ q) = true := by
  have isRoot : role r = .root := (counted.isRoot r).mp root
  constructor
  · rintro ⟨i, low, pd0, points, rfl | ⟨j, low', points'⟩⟩
    · have dir : role q = .dir r i := counted.layout.entry r i _ q (isRoot ▸ .dir low) points
      rw [inner_kept emptied (by rw [dir]; rfl), dir]
      simp [Role.below]
    · have dir : role pd0 = .dir r i := counted.layout.entry r i _ pd0 (isRoot ▸ .dir low) points
      have table := counted.layout.walk_table dir low' points'
      rw [inner_kept emptied (by rw [table]; rfl), table]
      simp [Role.below]
  · intro below
    cases named : role₁ q with
    | dir r' i =>
        simp only [named, Role.below, decide_eq_true_eq] at below
        subst below
        obtain ⟨-, low, points⟩ := dir_place counted.layout (dir_before counted emptied named)
        exact ⟨i, low, q, points, .inl rfl⟩
    | table r' i j =>
        simp only [named, Role.below, decide_eq_true_eq] at below
        subst below
        obtain ⟨pd0, dir, low, points⟩ := table_place counted.layout (table_before counted emptied named)
        obtain ⟨-, low', points'⟩ := dir_place counted.layout dir
        exact ⟨i, low', pd0, points', .inr ⟨j, low, points⟩⟩
    | free => simp [named, Role.below] at below
    | root => simp [named, Role.below] at below
    | data => simp [named, Role.below] at below
    | other => simp [named, Role.below] at below

theorem wholes_iff {i : Nat} :
    i ∈ (forest role₁ role₁ r).wholes ↔ i < 2 ∧ isValid (s.load ⟨r, i⟩) = true := by
  have isRoot : role r = .root := (counted.isRoot r).mp root
  constructor
  · rintro ⟨q, dir⟩
    obtain ⟨-, low, points⟩ := dir_place counted.layout (dir_before counted emptied dir)
    exact ⟨low, (target_some.mp points).1⟩
  · rintro ⟨low, valid⟩
    have dir : role (ptePpn (s.load ⟨r, i⟩)) = .dir r i :=
      counted.layout.entry r i _ _ (isRoot ▸ .dir low) (target_some.mpr ⟨valid, rfl⟩)
    exact ⟨_, (inner_kept emptied (by rw [dir]; rfl)).trans dir⟩

theorem parts_eq : (forest role₁ role₁ r).parts = tables s r := by
  have isRoot : role r = .root := (counted.isRoot r).mp root
  have indices : ∀ c, c < 1024 → pdx1 (c * PTSIZE) = c / 512 ∧ pdx0 (c * PTSIZE) = c % 512 := by
    intro c low
    simp only [pdx1, pdx0, PDSIZE, PTSIZE]
    omega
  ext c
  simp only [forest, tables, Set.mem_ofPred_eq]
  constructor
  · rintro ⟨q, table⟩
    obtain ⟨pd0, dir, -, points⟩ := table_place counted.layout (table_before counted emptied table)
    obtain ⟨-, low, points'⟩ := dir_place counted.layout dir
    have inside : c < 1024 := by omega
    refine ⟨inside, ?_⟩
    rw [walk, (indices c inside).1, (indices c inside).2, points', Option.bind_some, points]
    simp
  · rintro ⟨inside, found⟩
    obtain ⟨slot, found⟩ := Option.ne_none_iff_exists'.mp found
    obtain ⟨pd0, first, second, -⟩ := walk_some.mp found
    rw [(indices c inside).1] at first
    rw [(indices c inside).2] at second
    have dir : role pd0 = .dir r (c / 512) :=
      counted.layout.entry r _ _ pd0 (isRoot ▸ .dir (by omega)) first
    have table := counted.layout.walk_table dir (Nat.mod_lt _ (by decide)) second
    exact ⟨slot.page, (inner_kept emptied (by rw [table]; rfl)).trans table⟩

end Inner

/-! ## Teardown -/

section TearDown

variable {vmas : List VmaStruct} {gone : List Nat} {new : List (Nat × (Nat → Nat))}

/-- All inner pages are free in the end. -/
def AllFreed (r : Nat) (role₁ role₂ : Nat → Role) : Prop :=
  ∀ q, Role.below r (role₁ q) = true → role₂ q = .free

theorem allFreed_iff (layout : Layout M u role₁)
    (exiting : Exiting M roots r u role₁ ((forest role₁ role₁ r).sweeps dirOf (ranges vmas)) t role₂ new) :
    AllFreed r role₁ role₂ ↔ ∀ i ∈ (forest role₁ role₁ r).wholes,
      Clean dirOf ((forest role₁ role₁ r).sweeps dirOf (ranges vmas)) i := by
  have final := exiting.forest
  constructor
  · intro freed i _
    rw [← final]
    refine ⟨?_, ?_, ?_⟩
    · rintro ⟨q, dir⟩
      have same := exiting.pruned.before (by rw [dir]; simp [Role.below])
      rw [freed q (by rw [← same, dir]; simp [Role.below])] at dir
      cases dir
    · rintro c ⟨q, table⟩ -
      have same := exiting.pruned.before (by rw [table]; simp [Role.below])
      rw [freed q (by rw [← same, table]; simp [Role.below])] at table
      cases table
    · rintro c ⟨q, table, lost⟩ -
      rw [freed q (by rw [table]; simp [Role.below])] at lost
      cases lost
  · intro clean q below
    have layout' := exiting.pruned.counted.layout
    rcases exiting.pruned.below q below with same | free | ⟨lost, i, j, table⟩
    · exfalso
      cases named : role₁ q with
      | dir r' i =>
          simp only [named, Role.below, decide_eq_true_eq] at below
          subst below
          have left := (clean i ⟨q, named⟩).1
          rw [← final] at left
          exact left ⟨q, same.trans named⟩
      | table r' i j =>
          simp only [named, Role.below, decide_eq_true_eq] at below
          subst below
          obtain ⟨p, dir, low, -⟩ := table_place layout' (same.trans named)
          have dir' := (exiting.pruned.before (by rw [dir]; simp [Role.below])).symm.trans dir
          have left := (clean i ⟨p, dir'⟩).2.1
          rw [← final] at left
          refine left (512 * i + j) ⟨q, ?_⟩ (by simp only [dirOf]; omega)
          rw [same, named]
          congr 1 <;> omega
      | free => simp [named, Role.below] at below
      | root => simp [named, Role.below] at below
      | data => simp [named, Role.below] at below
      | other => simp [named, Role.below] at below
    · exact free
    · exfalso
      obtain ⟨p, dir, low, -⟩ := table_place layout table
      have lose := (clean i ⟨p, dir⟩).2.2
      rw [← final] at lose
      refine lose (512 * i + j) ⟨q, ?_, lost⟩ (by simp only [dirOf]; omega)
      rw [table]
      congr 1 <;> omega

variable (counted : Counted M roots 0 s role) (root : r ∈ roots)
  (emptied : Emptied M roots r vmas s role u role₁ gone) (bare : Bare u r)
  (exiting : Exiting M roots r u role₁ ((forest role₁ role₁ r).sweeps dirOf (ranges vmas)) t role₂ new)
include counted root emptied exiting

include bare in
/-- Every user page loses the references of the address space. -/
theorem exit_refs {p : Nat} (mapped : 0 < mappings roots s p) : t.ref p + mappings {r} s p = s.ref p := by
  have data : role p = .data := by
    by_contra other
    rw [counted.mappings_eq_zero other] at mapped
    omega
  have outside : Role.below r (role₁ p) = false := by
    cases below : Role.below r (role₁ p) with
    | false => rfl
    | true => simpa [data, Role.inner] using inner_before counted emptied (below_inner below)
  have ref : u.ref p = mappings roots u p := by
    by_cases still : role₁ p = .data
    · simpa using emptied.edit.counted.count p still
    · have freed : p ∈ gone := by
        by_contra kept
        exact still ((emptied.edit.kept p (by simp [data]) kept).trans data)
      have free : role₁ p = .free := by
        rcases (emptied.edit.gone p freed).2 with free | inner
        · exact free
        · exact absurd (inner_before counted emptied inner) (by simp [data, Role.inner])
      rw [emptied.edit.counted.rest p free, emptied.edit.counted.mappings_eq_zero still]
      rfl
  have others : mappings (roots.erase r) u p = mappings (roots.erase r) s p := by
    refine mappings_congr (fun r' member la user => ?_) p
    obtain ⟨other, root'⟩ := Finset.mem_erase.mp member
    rw [emptied.leaf r' root' la user, if_neg fun all => other all.1]
  have absent : mappings {r} u p = 0 := by
    refine mappings_eq_zero_iff.mpr fun r' member v inside maps => ?_
    rw [Finset.mem_singleton.mp member, mappedAt, bare _ (user_of_lt inside)] at maps
    cases maps
  have before := mappings_split root s p
  have after := mappings_split root u p
  have total := counted.count p data
  rw [exiting.pruned.ref p outside, ref]
  simp only [Pi.zero_apply] at total
  omega

include bare in
/-- The page table is torn down if and only if all its inner pages are free. -/
theorem tornDown_iff : TornDown roots r s t ↔ AllFreed r role₁ role₂ := by
  have isRoot : role r = .root := (counted.isRoot r).mp root
  have notGone : ∀ {q}, Role.below r (role₁ q) = true → q ∉ gone := fun below member => by
    have inner := inner_before counted emptied (below_inner below)
    simp [(emptied.edit.freed _ member).1, Role.inner] at inner
  constructor
  · intro torn q below
    obtain ⟨all, frees, -, freed⟩ := torn.freed
    have once := (freed q ((innerPage_iff counted root emptied).mpr below)).1
    rw [exiting.pruned.frees, emptied.edit.frees, ← List.append_assoc] at frees
    rw [← List.append_cancel_right frees] at once
    have member := List.count_pos_iff.mp (once ▸ Nat.one_pos)
    rcases List.mem_append.mp member with here | early
    · exact ((exiting.pruned.freed q).mp here).2
    · exact absurd early (notGone below)
  · intro all
    obtain ⟨pages, rfl, words⟩ := emptied.log
    refine ⟨fun p => exit_refs counted root emptied bare exiting, ⟨new ++ pages, ?_, ?_, fun q inner => ?_⟩,
      fun i low pd0 points => ?_⟩
    · rw [exiting.pruned.frees, emptied.edit.frees, List.map_append, List.append_assoc]
    · rw [exiting.pruned.words, words, List.map_append, List.append_assoc]
    · have below := (innerPage_iff counted root emptied).mp inner
      refine ⟨?_, fun page member here j low => ?_⟩
      · rw [List.map_append, List.count_append, List.count_eq_zero_of_not_mem (notGone below),
          List.count_eq_one_of_mem exiting.pruned.nodup
            ((exiting.pruned.freed q).mpr ⟨below, all q below⟩)]
      · rcases List.mem_append.mp member with late | early
        · by_contra valid
          obtain ⟨p, below', lost⟩ :=
            exiting.pruned.dirty page late ⟨j, low, by simpa using valid⟩
          rw [all p below'] at lost
          cases lost
        · exact absurd (List.mem_map.mpr ⟨page, early, here⟩) (notGone below)
    · have dir : role pd0 = .dir r i := counted.layout.entry r i _ pd0 (isRoot ▸ .dir low) points
      have dir' := (inner_kept emptied (by rw [dir]; rfl)).trans dir
      have rootAfter : role₁ r = .root := (emptied.edit.counted.isRoot r).mp root
      have points' : target (u.load ⟨r, i⟩) = some pd0 := by
        rw [Machine.load, emptied.upper r (.inl isRoot)]
        exact points
      have below : Role.below r (role₁ pd0) = true := by simp [dir', Role.below]
      refine ⟨exiting.pruned.zeroed r i pd0 below ?_ points' (all pd0 below), fun j low' found => ?_⟩
      · rw [rootAfter, dir']
        exact .dir low
      · obtain ⟨pt, found⟩ := Option.ne_none_iff_exists'.mp found
        have table := counted.layout.walk_table dir low' found
        have table' := (inner_kept emptied (by rw [table]; rfl)).trans table
        have found' : target (u.load ⟨pd0, j⟩) = some pt := by
          rw [Machine.load, emptied.upper pd0 (.inr ⟨_, _, dir⟩)]
          exact found
        have below' : Role.below r (role₁ pt) = true := by simp [table', Role.below]
        refine exiting.pruned.zeroed pd0 j pt below' ?_ found' (all pt below')
        rw [dir', table']
        exact .table low'

end TearDown

/-- `exit_mmap` returns, and has torn the page table down exactly if it could be swept
    area by area. -/
theorem exitMmap_tornDown (counted : Counted M roots 0 s role) (root : mm.pgdir ∈ roots)
    (ok : ∀ vma ∈ mm.mmapList, AreaOk vma)
    (covered : ∀ la < USERTOP, isValid (pteOf s mm.pgdir la) = true →
      ∃ vma ∈ mm.mmapList, vma.covers la = true) :
    ∃ t, exitMmap M mm s = .ok t ∧ (TornDown roots mm.pgdir s t ↔ Sweepable mm s) := by
  obtain ⟨u, role₁, gone, t, role₂, new, run, emptied, bare, exiting⟩ :=
    exitMmap_exiting counted root ok covered
  have layout₁ := emptied.edit.counted.layout
  refine ⟨t, run, ?_⟩
  rw [tornDown_iff counted root emptied bare exiting, allFreed_iff layout₁ exiting]
  have intact : ∀ c ∈ (forest role₁ role₁ mm.pgdir).lost, ∀ i, dirOf c ≠ i := by
    rintro c ⟨q, table, lost⟩
    rw [table] at lost
    cases lost
  have area : ∀ i, (∃ before range after, ranges mm.mmapList = before ++ range :: after ∧
      Completes dirOf (tables s mm.pgdir) before range i) ↔
      ∃ before vma after, mm.mmapList = before ++ vma :: after ∧
        Completes dirOf (tables s mm.pgdir) (ranges before) (tableRange vma.vmStart vma.vmEnd) i := by
    intro i
    constructor
    · rintro ⟨before, range, after, split, completes⟩
      obtain ⟨first, rest, same, rfl, tail⟩ := List.map_eq_append_iff.mp split
      obtain ⟨vma, last, rfl, rfl, rfl⟩ := List.map_eq_cons_iff.mp tail
      exact ⟨first, vma, last, same, completes⟩
    · rintro ⟨before, vma, after, split, completes⟩
      refine ⟨ranges before, _, ranges after, ?_, completes⟩
      simp [ranges, split]
  constructor
  · intro clean i low valid
    have here := (wholes_iff counted root emptied).mpr ⟨low, valid⟩
    rw [← area, ← parts_eq counted root emptied]
    exact (sweeps_clean here fun c lost => intact c lost i).mp (clean i here)
  · intro sweepable i here
    obtain ⟨low, valid⟩ := (wholes_iff counted root emptied).mp here
    rw [sweeps_clean here fun c lost => intact c lost i, parts_eq counted root emptied, area]
    exact sweepable i low valid

/-! ## Two tables in one directory -/

section TwoTables

open Lib.Run RefCounts

def readWrite (start stop : Nat) : VmaStruct := ⟨start, stop, VM_READ ||| VM_WRITE⟩

theorem covers_readWrite {start stop la : Nat} (low : start ≤ la) (high : la < stop) :
    (readWrite start stop).covers la = true :=
  Bool.and_eq_true_iff.mpr ⟨decide_eq_true low, decide_eq_true high⟩

/-- One area for both pages, or one for each. -/
def oneArea : MmStruct := ⟨[readWrite 0x200000 0x600000], none, 100, 1, false⟩
def twoAreas : MmStruct :=
  ⟨[readWrite 0x200000 0x201000, readWrite 0x400000 0x401000], none, 100, 2, false⟩

/-- Two pages mapped, at the start of two neighbouring tables' stretches. -/
theorem twoTables : ∃ (s : Sys PageList) (role : Nat → Role),
    play (trial lowestFirst 0) (booted 50 (by decide)) [.setupPgdir,
      .pgdirAllocPage 100 0x200000 0x1f, .pgdirAllocPage 100 0x400000 0x1f] = some s ∧
    s.roots = {100} ∧ Counted lowestFirst {100} 0 s.machine role ∧
    (∀ i < 2, target (s.machine.load ⟨100, i⟩) = if i = 0 then some 102 else none) ∧
    (∀ i < 512, target (s.machine.load ⟨102, i⟩) =
      if i = 1 then some 103 else if i = 2 then some 105 else none) ∧
    (∀ i < 512, 0 < i → target (s.machine.load ⟨103, i⟩) = none ∧ target (s.machine.load ⟨105, i⟩) = none) ∧
    s.machine.frees = [] ∧
    (exitMmap lowestFirst twoAreas s.machine).toOption.map Machine.frees = some [102, 103, 104, 101] := by
  have played : (play (trial lowestFirst 0) (booted 50 (by decide)) [.setupPgdir,
      .pgdirAllocPage 100 0x200000 0x1f, .pgdirAllocPage 100 0x400000 0x1f]).map (fun s =>
        (s.roots, (List.range 2).all fun i => target (s.machine.load ⟨100, i⟩) = if i = 0 then some 102 else none,
        (List.range 512).all fun i => target (s.machine.load ⟨102, i⟩) =
          if i = 1 then some 103 else if i = 2 then some 105 else none,
        (List.range 512).all fun i => 0 < i → target (s.machine.load ⟨103, i⟩) = none ∧
          target (s.machine.load ⟨105, i⟩) = none)) = some ({100}, true, true, true) := by
    decide +kernel
  have exits : (play (trial lowestFirst 0) (booted 50 (by decide)) [.setupPgdir,
      .pgdirAllocPage 100 0x200000 0x1f, .pgdirAllocPage 100 0x400000 0x1f]).map (fun s =>
        (s.machine.frees, (exitMmap lowestFirst twoAreas s.machine).toOption.map Machine.frees)) =
          some ([], some [102, 103, 104, 101]) := by
    decide +kernel
  obtain ⟨s, played, found⟩ := Option.map_eq_some_iff.mp played
  simp only [Prod.mk.injEq, List.all_eq_true, List.mem_range, decide_eq_true_eq] at found
  obtain ⟨role, inv⟩ := run_inv (play_reachable trial_step (.start (booted_initial 50 (by decide))) played)
  rw [played] at exits
  simp only [Option.map_some, Option.some.injEq, Prod.mk.injEq] at exits
  exact ⟨s, role, played, found.1, found.1 ▸ inv.counted, found.2.1, found.2.2.1, found.2.2.2, exits⟩

theorem pages_of_twoTables {s : Machine PageList}
    (first : ∀ i < 2, target (s.load ⟨100, i⟩) = if i = 0 then some 102 else none)
    (second : ∀ i < 512, target (s.load ⟨102, i⟩) =
      if i = 1 then some 103 else if i = 2 then some 105 else none)
    (third : ∀ i < 512, 0 < i → target (s.load ⟨103, i⟩) = none ∧ target (s.load ⟨105, i⟩) = none)
    {la : Nat} (user : la < USERTOP) (valid : isValid (pteOf s 100 la) = true) :
    la / PGSIZE = 512 ∨ la / PGSIZE = 1024 := by
  have found : walk s 100 la ≠ none := by
    intro missing
    simp [pteOf, missing, isValid_zero] at valid
  obtain ⟨slot, found⟩ := Option.ne_none_iff_exists'.mp found
  rw [pteOf_walk found] at valid
  obtain ⟨pd0, up, mid, index⟩ := walk_some.mp found
  rw [first _ (pdx1_lt_of_user user)] at up
  split at up
  swap
  · cases up
  rename_i dir
  obtain rfl := Option.some.inj up
  rw [second _ (pdx0_lt la)] at mid
  have start : ∀ pt, (∀ i < 512, 0 < i → target (s.load ⟨pt, i⟩) = none) → slot.page = pt → ptx la = 0 := by
    intro pt empty here
    by_contra later
    have absent := empty (ptx la) (ptx_lt la) (Nat.pos_of_ne_zero later)
    rw [← here, ← index] at absent
    rw [target_none.mp absent] at valid
    cases valid
  split at mid
  · rename_i one
    have zero := start 103 (fun i low pos => (third i low pos).1) (Option.some.inj mid).symm
    simp only [pdx1, pdx0, ptx, PDSIZE, PTSIZE, PGSIZE, USERTOP] at *
    omega
  · split at mid
    · rename_i two
      have zero := start 105 (fun i low pos => (third i low pos).2) (Option.some.inj mid).symm
      simp only [pdx1, pdx0, ptx, PDSIZE, PTSIZE, PGSIZE, USERTOP] at *
      omega
    · cases mid

/-- With one area for both tables nothing is left behind. -/
theorem exitMmap_tornDown_oneArea : ∃ s t : Machine PageList,
    exitMmap lowestFirst oneArea s = .ok t ∧ TornDown {100} 100 s t := by
  obtain ⟨s, role, -, -, counted, first, second, third, -⟩ := twoTables
  have covered : ∀ la < USERTOP, isValid (pteOf s.machine oneArea.pgdir la) = true →
      ∃ vma ∈ oneArea.mmapList, vma.covers la = true := by
    intro la user valid
    have page := pages_of_twoTables first second third user valid
    refine ⟨readWrite 0x200000 0x600000, by simp [oneArea], ?_⟩
    simp only [PGSIZE] at page
    exact covers_readWrite (by omega) (by omega)
  have ok : ∀ vma ∈ oneArea.mmapList, AreaOk vma := by
    simp only [oneArea, readWrite, List.mem_singleton, forall_eq, AreaOk]
    decide +kernel
  obtain ⟨t, run, torn⟩ := exitMmap_tornDown counted (by simp [oneArea]) ok covered
  refine ⟨s.machine, t, run, torn.mpr fun i low valid => ?_⟩
  obtain rfl : i = 0 := by
    by_contra later
    have points := first i low
    rw [if_neg later] at points
    rw [show s.machine.load ⟨oneArea.pgdir, i⟩ = s.machine.load ⟨100, i⟩ from rfl,
      target_none.mp points] at valid
    cases valid
  have range : ∀ c, c ∈ tableRange 0x200000 0x600000 ↔ c = 1 ∨ c = 2 := by
    intro c
    simp only [tableRange, firstTable, stopTable, Set.mem_ofPred_eq, PTSIZE]
    omega
  have walks : ∀ c < 512, (walk s.machine 100 (c * PTSIZE) ≠ none ↔ c = 1 ∨ c = 2) := by
    intro c inside
    have one : pdx1 (c * PTSIZE) = 0 := by
      simp only [pdx1, PTSIZE, PDSIZE]
      omega
    have two : pdx0 (c * PTSIZE) = c := by
      simp only [pdx0, PTSIZE]
      omega
    rw [walk, one, two, first 0 (by decide), if_pos rfl, Option.bind_some, second c inside]
    split
    · simp [*]
    · split <;> simp [*]
  refine ⟨[], readWrite 0x200000 0x600000, [], rfl, ⟨⟨⟨1, (range 1).mpr (.inl rfl), rfl⟩, fun c member _ =>
    ⟨⟨?_, ?_⟩, by simp [ranges]⟩⟩, by simp [ranges], fun c table inside => .inl ?_⟩⟩
  · have := (range c).mp member
    omega
  · have here := (range c).mp member
    exact (walks c (by omega)).mpr here
  · simp only [dirOf] at inside
    exact (range c).mpr ((walks c (by omega)).mp table.2)

/-- With an area for each table the directory is freed with the second table in it. -/
theorem twoAreas_table_lost : ¬∀ (s : Machine PageList) (roots : Finset Nat) (mm : MmStruct),
    (∃ role, Counted lowestFirst roots 0 s role) → mm.pgdir ∈ roots → (∀ vma ∈ mm.mmapList, AreaOk vma) →
    mm.mmapList.Pairwise (fun vma vma' => vma.vmEnd ≤ vma'.vmStart) →
    (∀ la < USERTOP, isValid (pteOf s mm.pgdir la) = true → ∃ vma ∈ mm.mmapList, vma.covers la = true) →
    ∃ t, exitMmap lowestFirst mm s = .ok t ∧ TornDown roots mm.pgdir s t := by
  intro always
  obtain ⟨s, role, -, -, counted, first, second, third, none, frees⟩ := twoTables
  have covered : ∀ la < USERTOP, isValid (pteOf s.machine twoAreas.pgdir la) = true →
      ∃ vma ∈ twoAreas.mmapList, vma.covers la = true := by
    intro la user valid
    rcases pages_of_twoTables first second third user valid with page | page
    · refine ⟨readWrite 0x200000 0x201000, by simp [twoAreas], ?_⟩
      simp only [PGSIZE] at page
      exact covers_readWrite (by omega) (by omega)
    · refine ⟨readWrite 0x400000 0x401000, by simp [twoAreas], ?_⟩
      simp only [PGSIZE] at page
      exact covers_readWrite (by omega) (by omega)
  have ok : ∀ vma ∈ twoAreas.mmapList, AreaOk vma := by
    simp only [twoAreas, readWrite, List.forall_mem_cons, AreaOk]
    decide +kernel
  obtain ⟨t, run, torn⟩ := always s.machine {100} twoAreas ⟨role, counted⟩ (by simp [twoAreas]) ok
    (by simp [twoAreas, readWrite]) covered
  obtain ⟨new, log, -, once⟩ := torn.freed
  have inner : InnerPage s.machine twoAreas.pgdir 105 :=
    ⟨0, by decide, 102, first 0 (by decide), .inr ⟨2, by decide, second 2 (by decide)⟩⟩
  rw [run] at frees
  have same : t.frees = [102, 103, 104, 101] := Option.some.inj frees
  rw [none, List.append_nil] at log
  have count := (once 105 inner).1
  rw [← log, same] at count
  simp at count

end TwoTables

end Ucore.Mm.TearDown
