import Ucore.Mm.PageRefs

/-! # Removing mappings

`page_remove`, `unmap_range` and `pgdir_alloc_page` between calls, when no function
holds a reference: a page is handed to `free_page` as soon as its last mapping goes.
-/

namespace Ucore.Mm.Unmap

open Lib.Tally Libs.Assert Libs.Loop Mmu Pmm PageTables PageRefs

variable {σ : Type} {M : PmmManager σ} {s t u : Machine σ} {role role' role'' : Nat → Role}
  {roots : Finset Nat} {new new' : List Nat}

theorem pageRemovePte_mem {slot : Slot} (run : pageRemovePte M slot s = .ok t) {q : Nat}
    (other : q ≠ slot.page) : t.mem q = s.mem q := by
  unfold pageRemovePte at run
  split at run
  · obtain ⟨page, -, rest⟩ := bind_ok.mp run
    have same := Except.ok.inj rest
    rw [← same]
    refine (Function.update_of_ne other ..).trans ?_
    split <;> rfl
  · exact Except.ok.inj run ▸ rfl

/-- What `page_remove_pte` hands to `free_page` is logged with its words. -/
theorem pageRemovePte_log {slot : Slot} (run : pageRemovePte M slot s = .ok t) :
    ∃ pages : List (Nat × (Nat → Nat)), t.frees = pages.map Prod.fst ++ s.frees ∧
      t.freedWords = pages.map Prod.snd ++ s.freedWords := by
  unfold pageRemovePte at run
  split at run
  · obtain ⟨page, -, rest⟩ := bind_ok.mp run
    have same := Except.ok.inj rest
    rw [← same]
    split
    · exact ⟨[(page, s.mem page)], rfl, rfl⟩
    · exact ⟨[], rfl, rfl⟩
  · exact ⟨[], Except.ok.inj run ▸ rfl, Except.ok.inj run ▸ rfl⟩

/-- The pages `new` are those that lost their last mapping between `s` and `t`. -/
structure Released (roots : Finset Nat) (s t : Machine σ) (new : List Nat) : Prop where
  nodup : new.Nodup
  mem : ∀ p, p ∈ new ↔ 0 < mappings roots s p ∧ mappings roots t p = 0

theorem Released.of_eq (same : ∀ p, mappings roots t p = mappings roots s p) :
    Released roots s t [] where
  nodup := .nil
  mem p := by
    have := same p
    simp only [List.not_mem_nil, false_iff]
    omega

/-- Provided that neither step maps a page that was not mapped. -/
theorem Released.trans (first : Released roots s t new) (second : Released roots t u new')
    (stays : ∀ p, mappings roots s p = 0 → mappings roots t p = 0)
    (stays' : ∀ p, mappings roots t p = 0 → mappings roots u p = 0) : Released roots s u (new' ++ new) where
  nodup := by
    refine List.nodup_append.mpr ⟨second.nodup, first.nodup, ?_⟩
    rintro p later _ earlier rfl
    have := (first.mem p).mp earlier
    have := (second.mem p).mp later
    omega
  mem p := by
    rw [List.mem_append, first.mem, second.mem]
    have := stays p
    have := stays' p
    omega

variable (M) in
/-- From `s` to `t` the valid leaf entries of the pages from `first` up to `stop`
    below `r` were cleared, and the pages `new` freed for it. -/
structure Swept (roots : Finset Nat) (r first stop : Nat) (s : Machine σ) (role : Nat → Role)
    (t : Machine σ) (role' : Nat → Role) (new : List Nat) : Prop where
  edit : Edited M roots 0 s role t role' new
  released : Released roots s t new
  fewer : ∀ p, mappings roots t p ≤ mappings roots s p
  leaf : ∀ r' ∈ roots, ∀ la < USERTOP, pteOf t r' la =
    if r' = r ∧ first ≤ la / PGSIZE ∧ la / PGSIZE < stop ∧ isValid (pteOf s r' la) = true then 0
    else pteOf s r' la
  upper : ∀ p, role p = .root ∨ (∃ r' i, role p = .dir r' i) → t.mem p = s.mem p
  log : ∃ pages : List (Nat × (Nat → Nat)), pages.map Prod.fst = new ∧
    t.freedWords = pages.map Prod.snd ++ s.freedWords

namespace Swept

variable {r a b c : Nat}

/-- Nothing to do where no entry is valid. -/
theorem skip (counted : Counted M roots 0 s role)
    (absent : ∀ la < USERTOP, a ≤ la / PGSIZE → la / PGSIZE < b → isValid (pteOf s r la) = false) :
    Swept M roots r a b s role s role [] where
  edit := .refl counted
  released := .of_eq fun _ => rfl
  fewer _ := le_rfl
  leaf r' _ la user := by
    rw [if_neg]
    rintro ⟨rfl, low, high, valid⟩
    rw [absent la user low high] at valid
    cases valid
  upper _ _ := rfl
  log := ⟨[], rfl, rfl⟩

theorem trans (first : Swept M roots r a b s role t role' new)
    (second : Swept M roots r b c t role' u role'' new') (ab : a ≤ b) (bc : b ≤ c) :
    Swept M roots r a c s role u role'' (new' ++ new) where
  edit := first.edit.trans second.edit
  released := first.released.trans second.released (fun p none => Nat.eq_zero_of_le_zero (none ▸ first.fewer p))
    fun p none => Nat.eq_zero_of_le_zero (none ▸ second.fewer p)
  fewer p := (second.fewer p).trans (first.fewer p)
  leaf r' root la user := by
    rw [second.leaf r' root la user, first.leaf r' root la user]
    by_cases low : la / PGSIZE < b
    · have notLater : ¬b ≤ la / PGSIZE := by omega
      have inside : la / PGSIZE < c := by omega
      simp only [low, notLater, inside, true_and, false_and, and_false, if_false]
    · have above : a ≤ la / PGSIZE := by omega
      simp only [low, above, true_and, false_and, and_false, if_false]
      simp only [not_lt.mp low, true_and]
  upper p named := by
    have same : role' p = role p := by
      refine first.edit.kept p ?_ fun freed => ?_
      · rcases named with named | ⟨_, _, named⟩ <;> simp [named]
      · have data := (first.edit.freed p freed).1
        rcases named with named | ⟨_, _, named⟩ <;> simp [named] at data
    exact (second.upper p (by rwa [same])).trans (first.upper p named)
  log := by
    obtain ⟨pages, rfl, words⟩ := first.log
    obtain ⟨pages', rfl, words'⟩ := second.log
    exact ⟨pages' ++ pages, by simp, by rw [words', words]; simp⟩

end Swept

/-- One entry: it is cleared if it is valid. -/
theorem pageRemovePte_swept {r la : Nat} {slot : Slot} (counted : Counted M roots 0 s role)
    (root : r ∈ roots) (user : la < USERTOP) (found : walk s r la = some slot) :
    ∃ t role' new, pageRemovePte M slot s = .ok t ∧
      Swept M roots r (la / PGSIZE) (la / PGSIZE + 1) s role t role' new := by
  cases points : target (s.load slot) with
  | none =>
      refine ⟨s, role, [], ?_, .skip counted fun la' user' low high => ?_⟩
      · rw [pageRemovePte, if_neg (by simp [target_none.mp points])]
        rfl
      · rw [pteOf, walk_congr (by omega : la' / PGSIZE = la / PGSIZE), found]
        exact target_none.mp points
  | some p =>
      obtain ⟨t, role', run, edit, sets⟩ := pageRemovePte_spec counted root user found points
      have counts : ∀ q, mappings roots t q + (if p = q then 1 else 0) = mappings roots s q := by
        intro q
        simpa [pteOf_walk found, points] using mappings_setsPte sets root user q
      have table := (counted.layout.walk_role ((counted.isRoot r).mp root) user found).1
      refine ⟨t, role', _, run, edit, ⟨?_, fun q => ?_⟩, fun q => ?_, fun r' root' la' user' => ?_,
        fun q named => ?_, ?_⟩
      · split <;> simp
      · have count := counts q
        by_cases same : p = q
        · subst same
          rw [if_pos rfl] at count
          split
          · simp only [List.mem_singleton, true_iff]
            omega
          · rename_i more
            simp only [Pi.zero_apply, and_true] at more
            simp only [List.not_mem_nil, false_iff]
            omega
        · rw [if_neg same] at count
          have away : q ∉ (if mappings roots s p = 1 ∧ (0 : Nat → Nat) p = 0 then [p] else []) := by
            split <;> simp [Ne.symm same]
          simp only [away, false_iff]
          omega
      · have := counts q
        omega
      · rw [sets r' root' la' user']
        by_cases here : r' = r ∧ la' / PGSIZE = la / PGSIZE
        · obtain ⟨rfl, page⟩ := here
          have valid : isValid (pteOf s r' la') = true := by
            rw [pteOf, walk_congr page, found]
            exact (target_some.mp points).1
          rw [if_pos ⟨rfl, page⟩, if_pos ⟨rfl, by omega, by omega, valid⟩]
        · rw [if_neg here, if_neg]
          rintro ⟨rfl, low, high, -⟩
          exact here ⟨rfl, by omega⟩
      · refine pageRemovePte_mem run ?_
        rintro rfl
        rcases named with named | ⟨_, _, named⟩ <;> simp [named] at table
      · obtain ⟨pages, frees, words⟩ := pageRemovePte_log run
        exact ⟨pages, List.append_cancel_right (frees.symm.trans edit.frees), words⟩

theorem pageRemove_swept {r la : Nat} (counted : Counted M roots 0 s role) (root : r ∈ roots)
    (user : la < USERTOP) :
    ∃ t role' new, pageRemove M r la s = .ok t ∧
      Swept M roots r (la / PGSIZE) (la / PGSIZE + 1) s role t role' new := by
  have lookup := getPte_lookup counted.layout ((counted.isRoot r).mp root) user
  cases found : walk s r la with
  | none =>
      refine ⟨s, role, [], ?_, .skip counted fun la' user' low high => ?_⟩
      · rw [pageRemove, lookup, found]
        rfl
      · rw [pteOf, walk_congr (by omega : la' / PGSIZE = la / PGSIZE), found]
        exact isValid_zero
  | some slot =>
      obtain ⟨t, role', new, run, swept⟩ := pageRemovePte_swept counted root user found
      refine ⟨t, role', new, ?_, swept⟩
      rw [pageRemove, lookup, found]
      exact run

/-! ## `unmap_range` -/

/-- Where there is no table there is none for the whole of its stretch. -/
theorem walk_none_of_sameTable {r la la' : Nat} (missing : walk s r la = none)
    (same : la / PTSIZE = la' / PTSIZE) : walk s r la' = none := by
  have first : pdx1 la' = pdx1 la := by
    simp only [pdx1, PDSIZE, PTSIZE] at *
    omega
  have second : pdx0 la' = pdx0 la := by rw [pdx0, pdx0, same]
  simp only [walk, Option.bind_eq_none_iff, Option.map_eq_none_iff] at missing ⊢
  rwa [first, second]

/-- The next address the loop of `unmap_range` looks at. -/
theorem nextTable {start : Nat} (aligned : start % PGSIZE = 0) :
    start < roundDown (start + PTSIZE) PTSIZE ∧ roundDown (start + PTSIZE) PTSIZE % PGSIZE = 0 ∧
      ∀ la, start ≤ la → la < roundDown (start + PTSIZE) PTSIZE → la / PTSIZE = start / PTSIZE := by
  simp only [roundDown, PTSIZE, PGSIZE] at *
  refine ⟨by omega, by omega, fun la low high => by omega⟩

/-- One round clears the entries up to the next address. -/
theorem unmapBody_swept {r start : Nat} (counted : Counted M roots 0 s role) (root : r ∈ roots)
    (aligned : start % PGSIZE = 0) (user : start < USERTOP) :
    ∃ next t role' new, unmapBody M r start s = .ok (next, t) ∧ start < next ∧ next % PGSIZE = 0 ∧
      ∀ c ≤ next, start < c → c % PGSIZE = 0 →
        Swept M roots r (start / PGSIZE) (c / PGSIZE) s role t role' new := by
  have lookup := getPte_lookup counted.layout ((counted.isRoot r).mp root) user
  cases found : walk s r start with
  | none =>
      obtain ⟨above, alignedNext, sameTable⟩ := nextTable aligned
      refine ⟨roundDown (start + PTSIZE) PTSIZE, s, role, [], ?_, above, alignedNext,
        fun c le low alignedC => .skip counted fun la _ lower upper => ?_⟩
      · rw [unmapBody, lookup, found]
        rfl
      · have inTable : la / PTSIZE = start / PTSIZE := by
          refine sameTable la ?_ ?_ <;> simp only [PGSIZE] at * <;> omega
        rw [pteOf, walk_none_of_sameTable found inTable.symm]
        exact isValid_zero
  | some slot =>
      obtain ⟨t, role', new, run, swept⟩ := pageRemovePte_swept counted root user found
      have next : (start + PGSIZE) / PGSIZE = start / PGSIZE + 1 := Nat.add_div_right _ PGSIZE_pos
      have above : start < start + PGSIZE := Nat.lt_add_of_pos_right PGSIZE_pos
      have alignedNext : (start + PGSIZE) % PGSIZE = 0 := by rw [Nat.add_mod_right, aligned]
      have only : ∀ c ≤ start + PGSIZE, start < c → c % PGSIZE = 0 → c = start + PGSIZE := by
        intro c le low alignedC
        simp only [PGSIZE] at *
        omega
      by_cases empty : s.load slot = 0
      · refine ⟨start + PGSIZE, s, role, [], ?_, above, alignedNext, fun c le low alignedC => ?_⟩
        · rw [unmapBody, lookup, found]
          simp [bind, Except.bind, pure, Except.pure, empty]
        · rw [only c le low alignedC, next]
          refine .skip counted fun la _ lower upper => ?_
          rw [pteOf, walk_congr (by omega : la / PGSIZE = start / PGSIZE), found]
          exact empty ▸ isValid_zero
      · refine ⟨start + PGSIZE, t, role', new, ?_, above, alignedNext, fun c le low alignedC => ?_⟩
        · rw [unmapBody, lookup, found]
          simp [bind, Except.bind, pure, Except.pure, empty, run]
        · rw [only c le low alignedC, next]
          exact swept

/-- `unmap_range` clears the valid leaf entries of its pages. -/
theorem unmapRange_swept {r start stop : Nat} (counted : Counted M roots 0 s role)
    (root : r ∈ roots) (aligned : start % PGSIZE = 0 ∧ stop % PGSIZE = 0)
    (access : userAccess start stop = true) :
    ∃ t, unmapRange M r start stop s = .ok t ∧ ∃ role' new,
      Swept M roots r (start / PGSIZE) (stop / PGSIZE) s role t role' new := by
  rw [unmapRange, assert_bind aligned, assert_bind access]
  simp only [userAccess, Bool.and_eq_true, decide_eq_true_eq] at access
  obtain ⟨⟨-, before⟩, user⟩ := access
  -- the entries below the position are clear
  refine doWhile_rule
    (fun pos t => start ≤ pos ∧ pos % PGSIZE = 0 ∧ ∃ role' new,
      Swept M roots r (start / PGSIZE) (pos / PGSIZE) s role t role' new)
    _ (fun pos t below inv => ?_) (Nat.le_add_left ..) before
    ⟨le_rfl, aligned.1, role, [], .skip counted fun la _ low high => by omega⟩
  obtain ⟨lower, alignedPos, role', new, done⟩ := inv
  obtain ⟨next, u, role'', new', run, above, alignedNext, more⟩ :=
    unmapBody_swept done.edit.counted root alignedPos (by omega)
  have upTo : ∀ c ≤ next, pos < c → c % PGSIZE = 0 → ∃ role' new,
      Swept M roots r (start / PGSIZE) (c / PGSIZE) s role u role' new := fun c le low alignedC =>
    ⟨role'', _, done.trans (more c le low alignedC) (Nat.div_le_div_right lower)
      (Nat.div_le_div_right (by omega))⟩
  refine ⟨next, u, run, above, fun again => ?_, fun ends => ?_⟩
  · simp only [Bool.and_eq_true, decide_eq_true_eq] at again
    exact ⟨again.2, by omega, alignedNext, upTo next le_rfl above alignedNext⟩
  · have reached : stop ≤ next := by
      by_contra short
      simp only [Bool.and_eq_false_iff, decide_eq_false_iff_not] at ends
      omega
    exact upTo stop reached below aligned.2

end Ucore.Mm.Unmap
