import Ucore.Mm.Prune

/-! # Freeing page tables

`exit_range` on a page table whose leaf entries are all invalid. It frees every table
of the range, and a directory when none of the entries it looked at was empty,
whatever the directory holds outside the range.
-/

namespace Ucore.Mm.ExitRange

open Lib.Sweep Libs.Assert Libs.Loop Mmu Pmm PageTables PageRefs Prune

variable {σ : Type} {M : PmmManager σ} {s₀ s t : Machine σ} {role₀ role role' : Nat → Role}
  {roots : Finset Nat} {r : Nat} {new : List (Nat × (Nat → Nat))}

/-- The number of the first table of the range from `start`, and of the one behind
    the range up to `stop`. -/
def firstTable (start : Nat) : Nat := start / PTSIZE
def stopTable (stop : Nat) : Nat := (stop + PTSIZE - 1) / PTSIZE

/-- The tables that `exit_range` looks at. -/
def tableRange (start stop : Nat) : Set Nat := {c | firstTable start ≤ c ∧ c < stopTable stop}

theorem lt_stopTable {c stop : Nat} : c < stopTable stop ↔ c * PTSIZE < stop := by
  simp only [stopTable, PTSIZE]
  omega

theorem pdx0_table (c : Nat) : pdx0 (c * PTSIZE) = c % 512 := by
  simp only [pdx0, PTSIZE]
  omega

theorem pdx1_dir {i : Nat} (low : i < 512) : pdx1 (i * PDSIZE) = i := by
  simp only [pdx1, PDSIZE]
  omega

variable (M) in
/-- What has become of the page table with the root `r` since it was `Bare`: its inner
    pages are those of the forest `f`. -/
structure Exiting (roots : Finset Nat) (r : Nat) (s₀ : Machine σ) (role₀ : Nat → Role) (f : Forest Nat Nat)
    (s : Machine σ) (role : Nat → Role) (new : List (Nat × (Nat → Nat))) : Prop where
  pruned : Pruned M roots r s₀ role₀ s role new
  forest : forest role₀ role r = f

section Exiting

variable (layout₀ : Layout M s₀ role₀) (root : r ∈ roots) (bare₀ : Bare s₀ r)
include layout₀ root bare₀

theorem Exiting.prune {f : Forest Nat Nat} (exiting : Exiting M roots r s₀ role₀ f s role new) {q c k : Nat}
    (below : Role.below r (role q) = true) (place : Child c (role c) k (role q))
    (points : target (s.load ⟨c, k⟩) = some q) :
    Exiting M roots r s₀ role₀ (Prune.forest role₀ (prunedRole role q) r)
      ((freePage M s q).store ⟨c, k⟩ 0) (prunedRole role q) ([(q, s.mem q)] ++ new) :=
  ⟨exiting.pruned.trans layout₀ (Prune.prune below place exiting.pruned.counted points root
    (exiting.pruned.cleared.bare bare₀)), rfl⟩

/-- One round of the inner loop frees a table, or finds none. -/
theorem exitTable_exiting {f : Forest Nat Nat} (exiting : Exiting M roots r s₀ role₀ f s role new)
    {pd0 c : Nat} (dir : role pd0 = .dir r (c / 512)) (freePd0 : Bool) :
    ∃ flag t role' new', exitTable M pd0 (c * PTSIZE) (freePd0, s) = .ok ((c + 1) * PTSIZE, flag, t) ∧
      (flag = true ↔ freePd0 = true ∧ c ∈ f.parts) ∧ role' pd0 = .dir r (c / 512) ∧
      Exiting M roots r s₀ role₀ { f with parts := f.parts \ {c} } t role' new' := by
  have layout := exiting.pruned.counted.layout
  have next : c * PTSIZE + PTSIZE = (c + 1) * PTSIZE := by rw [Nat.add_mul, Nat.one_mul]
  unfold exitTable
  simp only [pdx0_table, next]
  cases found : target (s.load ⟨pd0, c % 512⟩) with
  | none =>
      have invalid : isValid (s.mem pd0 (c % 512)) = false := target_none.mp found
      have absent : c ∉ f.parts := by
        rw [← exiting.forest]
        rintro ⟨q, table⟩
        obtain ⟨p, dir', -, points⟩ := table_place layout table
        rw [dir_unique layout dir' dir, found] at points
        cases points
      refine ⟨false, s, role, new, by simp [invalid, pure, Except.pure], by simp [absent], dir,
        exiting.pruned, ?_⟩
      rw [exiting.forest, Set.sdiff_singleton_eq_self absent]
  | some pt =>
      have low : c % 512 < 512 := Nat.mod_lt _ (by decide)
      have table := layout.walk_table dir low found
      have valid : isValid (s.mem pd0 (c % 512)) = true := (target_some.mp found).1
      have ppn : ptePpn (s.mem pd0 (c % 512)) = pt := (target_some.mp found).2
      have isPage : pa2page pt = .ok pt := if_pos (layout.lt pt (by simp [table]))
      have empty : tableEmpty s pt = true := by
        simp only [tableEmpty, NPTEENTRY, List.all_eq_true, List.mem_range, Bool.not_eq_true']
        intro j inside
        obtain ⟨la, user, -, walks⟩ := layout.table_walk table inside
        have nothing := (exiting.pruned.cleared.bare bare₀) la user
        rw [pteOf_walk walks] at nothing
        exact target_none.mp nothing
      have place : Child pd0 (role pd0) (c % 512) (role pt) := by
        rw [dir, table]
        exact .table low
      refine ⟨freePd0, _, _, _, ?_, ?_, ?_, (exiting.prune layout₀ root bare₀ (q := pt) (by simp [table,
        Role.below]) place found).pruned, ?_⟩
      · simp [valid, ppn, isPage, empty, bind, Except.bind, pure, Except.pure]
      · have present : c ∈ f.parts := by
          rw [← exiting.forest]
          exact ⟨pt, table⟩
        simp [present]
      · have away : pd0 ≠ pt := by
          rintro rfl
          rw [dir] at table
          cases table
        rcases prunedRole_cases role away with same | ⟨-, _, _, _, _, table'⟩
        · exact same.trans dir
        · rw [dir] at table'
          cases table'
      · rw [forest_table layout table, exiting.forest]

/-- The tables of directory `i` in the range from table `lo` up to `stop`. -/
def dirRange (i lo stop : Nat) : Set Nat := {c | lo ≤ c ∧ c < stopTable stop ∧ c / 512 = i}

/-- The inner loop frees the tables of one directory that are in the range, and finds
    out whether they were all there. -/
theorem exitTables_exiting {f : Forest Nat Nat} (exiting : Exiting M roots r s₀ role₀ f s role new)
    {pd0 i lo stop : Nat} (dir : role pd0 = .dir r i) (inside : lo / 512 = i) (below : lo * PTSIZE < stop) :
    ∃ result, doWhile (fun d0start _ => d0start ≠ 0 && d0start < i * PDSIZE + PDSIZE && d0start < stop)
        (exitTable M pd0) stop (lo * PTSIZE) (true, s) = .ok result ∧
      ∃ role' new', (result.1 = true ↔ ∀ c ∈ dirRange i lo stop, c ∈ f.parts) ∧
        role' pd0 = .dir r i ∧
        Exiting M roots r s₀ role₀ { f with parts := f.parts \ dirRange i lo stop } result.2 role' new' := by
  refine doWhile_rule (fun pos result => ∃ c role' new', pos = c * PTSIZE ∧ lo ≤ c ∧ c / 512 = i ∧
      (result.1 = true ↔ ∀ c' ∈ Set.Ico lo c, c' ∈ f.parts) ∧ role' pd0 = .dir r i ∧
      Exiting M roots r s₀ role₀ { f with parts := f.parts \ Set.Ico lo c } result.2 role' new')
    _ ?_ (Nat.le_add_left ..) below
    ⟨lo, role, new, rfl, le_rfl, inside, by simp, dir, by simpa using exiting⟩
  rintro pos ⟨flag, u⟩ high ⟨c, role', new', rfl, low, here, found, dir', sofar⟩
  subst here
  obtain ⟨flag', t, role'', new'', run, step, dir'', after⟩ :=
    exitTable_exiting layout₀ root bare₀ sofar dir' flag
  have grows : Set.Ico lo (c + 1) = Set.Ico lo c ∪ {c} := by
    ext x
    simp only [Set.mem_Ico, Set.mem_union, Set.mem_singleton_iff]
    omega
  have found' : flag' = true ↔ ∀ c' ∈ Set.Ico lo (c + 1), c' ∈ f.parts := by
    rw [step, found, grows]
    constructor
    · rintro ⟨all, now, -⟩ c' (member | rfl)
      · exact all c' member
      · exact now
    · exact fun all => ⟨fun c' member => all c' (.inl member), all c (.inr rfl), by simp⟩
  have after' : Exiting M roots r s₀ role₀ { f with parts := f.parts \ Set.Ico lo (c + 1) } t role'' new'' := by
    rw [grows, ← Set.sdiff_sdiff]
    exact after
  refine ⟨(c + 1) * PTSIZE, (flag', t), run, ?_, fun again => ?_, fun ends => ?_⟩
  · simp only [PTSIZE]
    omega
  · simp only [Bool.and_eq_true, decide_eq_true_eq] at again
    refine ⟨again.2, c + 1, role'', new'', rfl, by omega, ?_, found', dir'', after'⟩
    simp only [PTSIZE, PDSIZE] at again
    omega
  · have whole : dirRange (c / 512) lo stop = Set.Ico lo (c + 1) := by
      ext x
      simp only [dirRange, Set.mem_ofPred_eq, Set.mem_Ico]
      simp only [Bool.and_eq_false_iff, decide_eq_false_iff_not, PTSIZE, PDSIZE] at ends
      rw [lt_stopTable]
      simp only [PTSIZE] at *
      omega
    rw [whole]
    exact ⟨role'', new'', found', dir'', after'⟩

/-- The directory a table is in. -/
abbrev dirOf (c : Nat) : Nat := c / 512

/-- One round of the outer loop sweeps the range in one directory. -/
theorem exitDir_exiting {f : Forest Nat Nat} (exiting : Exiting M roots r s₀ role₀ f s role new)
    {i lo stop : Nat} (inside : lo / 512 = i) (below : lo * PTSIZE < stop) (user : stop ≤ USERTOP) :
    ∃ t role' new', exitDir M r stop (i * PDSIZE) (lo * PTSIZE, s) =
        .ok ((i + 1) * PDSIZE, (i + 1) * PDSIZE, t) ∧
      Exiting M roots r s₀ role₀ (f.sweep dirOf (dirRange i lo stop)) t role' new' := by
  have counted := exiting.pruned.counted
  have isRoot : role r = .root := (counted.isRoot r).mp root
  have low : i < 2 := by
    simp only [PTSIZE, USERTOP] at *
    omega
  have next : i * PDSIZE + PDSIZE = (i + 1) * PDSIZE := by rw [Nat.add_mul, Nat.one_mul]
  have member : lo ∈ dirRange i lo stop := ⟨le_rfl, lt_stopTable.mpr below, inside⟩
  have within : ∀ c ∈ dirRange i lo stop, dirOf c = i := fun c range => range.2.2
  unfold exitDir
  simp only [pdx1_dir (show i < 512 by omega), next]
  cases found : target (s.load ⟨r, i⟩) with
  | none =>
      have invalid : isValid (s.mem r i) = false := target_none.mp found
      have absent : ∀ c ∈ f.parts, dirOf c ≠ i := by
        rw [← exiting.forest]
        rintro c ⟨q, table⟩ rfl
        obtain ⟨p, dir, -, -⟩ := table_place counted.layout table
        rw [(dir_place counted.layout dir).2.2] at found
        cases found
      have nothing : f.sweep dirOf (dirRange i lo stop) = f := by
        rw [sweep_short within ⟨lo, member, fun part => absent lo part inside⟩]
        ext x
        · rfl
        · simp only [Set.mem_sdiff, and_iff_left_iff_imp]
          exact fun part range => absent x part (within x range)
        · rfl
      exact ⟨s, role, new, by simp [invalid, pure, Except.pure], nothing.symm ▸ exiting⟩
  | some pd0 =>
      have dir : role pd0 = .dir r i := counted.layout.entry r i _ pd0 (isRoot ▸ .dir low) found
      have valid : isValid (s.mem r i) = true := (target_some.mp found).1
      have ppn : ptePpn (s.mem r i) = pd0 := (target_some.mp found).2
      have isPage : pa2page pd0 = .ok pd0 := if_pos (counted.layout.lt pd0 (by simp [dir]))
      obtain ⟨⟨flag, u⟩, run, role', new', all, dir', swept⟩ :=
        exitTables_exiting layout₀ root bare₀ exiting dir inside below
      rw [next] at run
      cases flag with
      | false =>
          have short : ∃ c ∈ dirRange i lo stop, c ∉ f.parts := by
            by_contra none
            push Not at none
            exact absurd (all.mpr none) (by simp)
          refine ⟨u, role', new', ?_, (sweep_short within short).symm ▸ swept⟩
          simp only [valid, ppn, isPage, if_true, bind, Except.bind]
          rw [run]
          rfl
      | true =>
          have rootNow : role' r = .root := (swept.pruned.counted.isRoot r).mp root
          obtain ⟨-, -, points⟩ := dir_place swept.pruned.counted.layout dir'
          have place : Child r (role' r) i (role' pd0) := by
            rw [rootNow, dir']
            exact .dir low
          refine ⟨_, _, _, ?_, (swept.prune layout₀ root bare₀ (q := pd0) (by simp [dir', Role.below]) place
            points).pruned, ?_⟩
          · simp only [valid, ppn, isPage, if_true, bind, Except.bind]
            rw [run]
            rfl
          · rw [forest_dir swept.pruned.counted.layout dir' fun p => swept.pruned.before, swept.forest,
              sweep_complete within ⟨lo, member⟩ (all.mp rfl)]

/-- `exit_range` sweeps its range. -/
theorem exitRange_exiting {f : Forest Nat Nat} (exiting : Exiting M roots r s₀ role₀ f s role new)
    {start stop : Nat} (aligned : start % PGSIZE = 0 ∧ stop % PGSIZE = 0)
    (access : userAccess start stop = true) :
    ∃ t, exitRange M r start stop s = .ok t ∧ ∃ role' new',
      Exiting M roots r s₀ role₀ (f.sweep dirOf (tableRange start stop)) t role' new' := by
  rw [exitRange, assert_bind aligned, assert_bind access]
  simp only [userAccess, Bool.and_eq_true, decide_eq_true_eq] at access
  obtain ⟨⟨-, before⟩, user⟩ := access
  have roundFirst : roundDown start PTSIZE = firstTable start * PTSIZE := by
    simp only [roundDown, firstTable, PTSIZE]
    omega
  have roundDir : roundDown start PDSIZE = firstTable start / 512 * PDSIZE := by
    simp only [roundDown, firstTable, PTSIZE, PDSIZE]
    omega
  have first : firstTable start * PTSIZE < stop := by
    simp only [firstTable, PTSIZE]
    omega
  have loop : ∃ x, doWhile (fun d1start _ => d1start ≠ 0 && d1start < stop) (exitDir M r stop) stop
      (roundDown start PDSIZE) (roundDown start PTSIZE, s) = .ok x ∧ ∃ role' new',
        Exiting M roots r s₀ role₀ (f.sweep dirOf (tableRange start stop)) x.2 role' new' := by
    -- the tables below the position are swept
    refine doWhile_rule (fun pos x => ∃ i lo role' new', pos = i * PDSIZE ∧ x.1 = lo * PTSIZE ∧
        lo / 512 = i ∧ lo * PTSIZE < stop ∧ firstTable start ≤ lo ∧
        (lo = firstTable start ∨ lo = 512 * i) ∧
        Exiting M roots r s₀ role₀ (f.sweep dirOf (Set.Ico (firstTable start) lo)) x.2 role' new')
      _ ?_ (Nat.le_add_left ..) (lt_of_le_of_lt (Nat.sub_le ..) before)
      ⟨_, firstTable start, role, new, roundDir, roundFirst, rfl, first, le_rfl, .inl rfl, by
        rw [Set.Ico_self, sweep_empty]
        exact exiting⟩
    rintro pos ⟨d0start, u⟩ high ⟨i, lo, role', new', rfl, rfl, inside, below, low, edge, sofar⟩
    obtain ⟨t, role'', new'', run, after⟩ := exitDir_exiting layout₀ root bare₀ sofar inside below user
    rw [sweep_sweep fun c early c' late => by
      simp only [Set.mem_Ico] at early
      have here := late.2.2
      simp only [dirOf]
      omega] at after
    refine ⟨(i + 1) * PDSIZE, ((i + 1) * PDSIZE, t), run, ?_, fun again => ?_, fun ends => ?_⟩
    · simp only [PDSIZE]
      omega
    · simp only [Bool.and_eq_true, decide_eq_true_eq] at again
      refine ⟨again.2, i + 1, 512 * (i + 1), role'', new'', rfl, ?_, ?_, ?_, ?_, .inr rfl, ?_⟩
      · simp only [PTSIZE, PDSIZE]
        omega
      · omega
      · simp only [PTSIZE, PDSIZE] at again ⊢
        omega
      · omega
      · have joined : Set.Ico (firstTable start) lo ∪ dirRange i lo stop =
            Set.Ico (firstTable start) (512 * (i + 1)) := by
          ext x
          simp only [dirRange, Set.mem_union, Set.mem_Ico, Set.mem_ofPred_eq, lt_stopTable]
          simp only [PTSIZE, PDSIZE] at again ⊢
          omega
        rwa [joined] at after
    · have joined : Set.Ico (firstTable start) lo ∪ dirRange i lo stop = tableRange start stop := by
        ext x
        simp only [dirRange, tableRange, Set.mem_union, Set.mem_Ico, Set.mem_ofPred_eq, lt_stopTable]
        simp only [Bool.and_eq_false_iff, decide_eq_false_iff_not] at ends
        simp only [PTSIZE, PDSIZE] at ends below ⊢
        omega
      rw [joined] at after
      exact ⟨role'', new'', after⟩
  obtain ⟨⟨d0start, t⟩, run, role', new', swept⟩ := loop
  refine ⟨t, ?_, role', new', swept⟩
  rw [run]
  rfl

end Exiting

end Ucore.Mm.ExitRange
