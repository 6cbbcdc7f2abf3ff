import Ucore.Mm.PageRefs

/-! # Pages that are new to an address space

`pgdir_alloc_page` where nothing is mapped yet, and stores to the pages it makes. Neither
touches a page that was in use before, or one that stays free.
-/

namespace Ucore.Mm.UserPages

open Libs.Assert Mmu Pmm PageTables PageRefs

variable {σ : Type} {M : PmmManager σ} {s t u : Machine σ} {role role' role'' : Nat → Role} {roots : Finset Nat}
  {r la perm p : Nat}

variable (M) in
/-- From `s` to `t` free pages have been put to use, as tables or as user pages. -/
structure Grows (roots : Finset Nat) (s : Machine σ) (role : Nat → Role) (t : Machine σ) (role' : Nat → Role) :
    Prop where
  counted : Counted M roots 0 t role'
  kept : ∀ q, role q ≠ .free → role' q = role q
  leaf : ∀ r ∈ roots, ∀ la < USERTOP, isValid (pteOf s r la) = true → pteOf t r la = pteOf s r la
  mem : ∀ q, role' q = .free ∨ role q = .data → t.mem q = s.mem q

namespace Grows

theorem refl (counted : Counted M roots 0 s role) : Grows M roots s role s role where
  counted := counted
  kept _ _ := rfl
  leaf _ _ _ _ _ := rfl
  mem _ _ := rfl

theorem free_before (grows : Grows M roots s role t role') {q : Nat} (free : role' q = .free) : role q = .free := by
  by_contra used
  exact used ((grows.kept q used).symm.trans free)

theorem data_after (grows : Grows M roots s role t role') {q : Nat} (data : role q = .data) : role' q = .data :=
  (grows.kept q (by simp [data])).trans data

theorem trans (first : Grows M roots s role t role') (second : Grows M roots t role' u role'') :
    Grows M roots s role u role'' where
  counted := second.counted
  kept q used := by
    have same := first.kept q used
    exact (second.kept q (by rwa [same])).trans same
  leaf r root la user valid := by
    have same := first.leaf r root la user valid
    exact (second.leaf r root la user (by rwa [same])).trans same
  mem q plain := by
    rcases plain with free | data
    · exact (second.mem q (.inl free)).trans (first.mem q (.inl (second.free_before free)))
    · exact (second.mem q (.inr (first.data_after data))).trans (first.mem q (.inr data))

end Grows

variable (M) in
/-- From `s` to `t` the page `p` has been taken and mapped at `la` below `r`. -/
structure Adds (roots : Finset Nat) (r la perm p : Nat) (s : Machine σ) (role : Nat → Role) (t : Machine σ)
    (role' : Nat → Role) : Prop where
  grows : Grows M roots s role t role'
  fresh : role p = .free
  data : role' p = .data
  kept : t.mem p = s.mem p
  entry : SetsPte roots s t r la (pteCreate p (PTE_V ||| perm))

namespace Adds

variable (adds : Adds M roots r la perm p s role t role')

include adds

theorem maps (small : perm < 1024) (root : r ∈ roots) (user : la < USERTOP) : target (pteOf t r la) = some p := by
  rw [adds.entry r root la user, if_pos ⟨rfl, rfl⟩]
  exact target_pteCreate (Nat.or_lt_two_pow (n := 10) (by decide) small)

/-- The page is mapped nowhere else. -/
theorem only {r' la' : Nat} (counted : Counted M roots 0 s role) (root' : r' ∈ roots) (user' : la' < USERTOP)
    (maps : target (pteOf t r' la') = some p) : r' = r ∧ la' / PGSIZE = la / PGSIZE := by
  rw [adds.entry r' root' la' user'] at maps
  split at maps
  · assumption
  · have data := counted.layout.pte_data ((counted.isRoot r').mp root') user' maps
    rw [adds.fresh] at data
    cases data

end Adds

/-- `pgdir_alloc_page` where nothing is mapped: it stops for want of memory, or fails for want of
    memory, or maps a page that was free. -/
theorem pgdirAllocPage_spec (counted : Counted M roots 0 s role) (root : r ∈ roots) (user : la < USERTOP)
    (small : perm < 1024) (unmapped : isValid (pteOf s r la) = false) :
    (pgdirAllocPage M r la perm s = .error .panic ∧ s.swapInitOk = true) ∨
    (∃ t role', pgdirAllocPage M r la perm s = .ok (none, t) ∧ Grows M roots s role t role' ∧
      ∀ r' ∈ roots, ∀ la' < USERTOP, pteOf t r' la' = pteOf s r' la') ∨
    ∃ p t role', pgdirAllocPage M r la perm s = .ok (some p, t) ∧ Adds M roots r la perm p s role t role' := by
  rcases given : M.allocPage s.pmm with ⟨_ | p, pmm⟩
  · by_cases swapping : s.swapInitOk = true
    · refine .inl ⟨?_, swapping⟩
      simp [pgdirAllocPage, allocPage, given, swapping, bind, Except.bind]
    · refine .inr (.inl ⟨{ s with pmm := pmm }, role, ?_, ⟨counted.refused given, fun _ _ => rfl,
        fun _ _ _ _ _ => rfl, fun _ _ => rfl⟩, fun _ _ _ _ => rfl⟩)
      simp [pgdirAllocPage, allocPage, given, swapping, bind, Except.bind, pure, Except.pure]
  have free := counted.free_of_given given
  have taken := counted.takeData given rfl
  generalize hFirst : ({ s with pmm := pmm } : Machine σ) = first at taken
  have alloc : allocPage M s = .ok (some p, first) := by simp [allocPage, given, hFirst]
  have sameMem : first.mem = s.mem := hFirst ▸ rfl
  have samePte : ∀ r la, pteOf first r la = pteOf s r la := fun r la => pteOf_of_eq sameMem
  have data : Function.update role p Role.data p = .data := Function.update_self ..
  have other : ∀ q, role q ≠ .free → q ≠ p := by
    rintro q inUse rfl
    exact inUse free
  have used : ∀ q, role q ≠ .free → Function.update role p Role.data q = role q := fun q inUse =>
    Function.update_of_ne (other q inUse) ..
  rcases pageInsert_spec taken root user data small with
    ⟨stops, swapping, -⟩ | ⟨m, role', run, -, edit, same⟩ | ⟨m, role', run, edit, sets, -⟩
  · refine .inl ⟨?_, by rwa [← hFirst] at swapping⟩
    simp [pgdirAllocPage, alloc, stops, bind, Except.bind]
  · have stays : role' p = .data := (edit.kept p (by simp) (by simp)).trans data
    have absent : mappings roots m p = 0 := by
      rw [mappings_congr same, mappings_congr (fun r _ la _ => samePte r la)]
      exact counted.mappings_eq_zero (by simp [free])
    have keep : ∀ q, role q ≠ .free → role' q = role q := fun q inUse =>
      (edit.kept q (by rwa [used q inUse]) (by simp)).trans (used q inUse)
    refine .inr (.inl ⟨freePage M m p, _, ?_, ⟨edit.counted.giveBack stays absent, fun q inUse => ?_,
      fun r root la user _ => ?_, fun q plain => ?_⟩, fun r root la user => ?_⟩)
    · simp [pgdirAllocPage, alloc, run, bind, Except.bind, pure, Except.pure, E_NO_MEM]
    · rw [Function.update_of_ne (other q inUse), keep q inUse]
    · exact (same r root la user).trans (samePte r la)
    · have outer : (role' q).inner = false ∧ role' q ≠ .root := by
        rcases plain with free | before
        · by_cases here : q = p
          · rw [here, stays]
            exact ⟨rfl, by simp⟩
          · rw [Function.update_of_ne here] at free
            rw [free]
            exact ⟨rfl, by simp⟩
        · rw [keep q (by simp [before]), before]
          exact ⟨rfl, by simp⟩
      exact (edit.mem q outer.1 outer.2).trans (congrFun sameMem q)
    · exact (same r root la user).trans (samePte r la)
  · have quiet : pushedOut roots 0 first r p la = [] := by
      rw [pushedOut, samePte, target_none.mpr unmapped]
    rw [quiet] at edit
    have keep : ∀ q, role q ≠ .free → role' q = role q := fun q inUse =>
      (edit.kept q (by rwa [used q inUse]) (by simp)).trans (used q inUse)
    have dataP : role' p = .data := (edit.kept p (by simp) (by simp)).trans data
    refine .inr (.inr ⟨p, m, role', ?_, ⟨edit.counted, keep, fun r' root' la' user' valid => ?_, fun q plain => ?_⟩,
      free, dataP, ?_, sets.after fun r' _ la' _ => samePte r' la'⟩)
    · simp [pgdirAllocPage, alloc, run, bind, Except.bind, pure, Except.pure]
    · rw [sets r' root' la' user', if_neg, samePte]
      rintro ⟨rfl, page⟩
      rw [← pteOf_page, page, pteOf_page, unmapped] at valid
      cases valid
    · have outer : (role' q).inner = false ∧ role' q ≠ .root := by
        rcases plain with free | before
        · rw [free]
          exact ⟨rfl, by simp⟩
        · rw [keep q (by simp [before]), before]
          exact ⟨rfl, by simp⟩
      exact (edit.mem q outer.1 outer.2).trans (congrFun sameMem q)
    · refine (edit.mem p ?_ ?_).trans (congrFun sameMem p)
      · rw [dataP]
        rfl
      · simp [dataP]

/-! ## Stores to a user page -/

section SetPage

variable {words : Nat → Nat} (counted : Counted M roots 0 s role) (data : role p = .data)

include counted data

theorem pteOf_setPage (root : r ∈ roots) (user : la < USERTOP) : pteOf (s.setPage p words) r la = pteOf s r la := by
  refine pteOf_eq_of_tables counted.layout ((counted.isRoot r).mp root) user fun q upper => ?_
  refine Function.update_of_ne ?_ ..
  rintro rfl
  rw [data] at upper
  rcases upper with upper | upper <;> cases upper

theorem counted_setPage : Counted M roots 0 (s.setPage p words) role where
  layout := by
    refine counted.layout.of_tables rfl fun q upper => Function.update_of_ne ?_ ..
    rintro rfl
    rw [data] at upper
    rcases upper with upper | upper <;> cases upper
  isRoot := counted.isRoot
  count q isData := by
    rw [mappings_congr fun r root la user => pteOf_setPage counted data root user]
    exact counted.count q isData
  rest := counted.rest

end SetPage

/-- A page that was free before may be written to. -/
theorem Grows.setPage {words : Nat → Nat} (grows : Grows M roots s role t role') (fresh : role p = .free)
    (data : role' p = .data) : Grows M roots s role (t.setPage p words) role' where
  counted := counted_setPage grows.counted data
  kept := grows.kept
  leaf r root la user valid :=
    (pteOf_setPage grows.counted data root user).trans (grows.leaf r root la user valid)
  mem q plain := by
    refine (Function.update_of_ne ?_ ..).trans (grows.mem q plain)
    rintro rfl
    rcases plain with free | before
    · rw [data] at free
      cases free
    · rw [fresh] at before
      cases before

end Ucore.Mm.UserPages
