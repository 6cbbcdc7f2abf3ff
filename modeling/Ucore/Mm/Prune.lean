import Ucore.Lib.Sweep
import Ucore.Mm.Unmap

/-! # Freeing inner pages

What the freeing of one table or directory does to a page table whose leaf entries
are all invalid. The tables of a directory that is freed too early are lost.
-/

namespace Ucore.Mm.Prune

open Lib.Sweep Lib.Tally Libs.Assert Libs.Loop Mmu Pmm PageTables PageRefs

variable {σ : Type} {M : PmmManager σ} {s t u : Machine σ} {role role' role'' : Nat → Role}
  {roots : Finset Nat} {r : Nat}

/-- A directory or a table below the root `r`. -/
def Role.below (r : Nat) : Role → Bool
  | .dir r' _ => r' = r
  | .table r' _ _ => r' = r
  | _ => false

/-- No leaf entry below `r` is valid. -/
def Bare (s : Machine σ) (r : Nat) : Prop := ∀ la < USERTOP, target (pteOf s r la) = none

theorem below_inner {ro : Role} (below : Role.below r ro = true) : ro.inner = true := by
  cases ro <;> simp_all [Role.below, Role.inner]

/-! ## The place of an inner page -/

section Places

variable (layout : Layout M s role)
include layout

theorem dir_place {i q : Nat} (dir : role q = .dir r i) :
    role r = .root ∧ i < 2 ∧ target (s.load ⟨r, i⟩) = some q := by
  obtain ⟨p, k, place, points⟩ := layout.link q (by rw [dir]; rfl)
  rw [dir] at place
  generalize upper : role p = upperRole at place
  cases place with
  | dir inside => exact ⟨upper, inside, points⟩

theorem table_place {i j q : Nat} (table : role q = .table r i j) :
    ∃ pd0, role pd0 = .dir r i ∧ j < 512 ∧ target (s.load ⟨pd0, j⟩) = some q := by
  obtain ⟨p, k, place, points⟩ := layout.link q (by rw [table]; rfl)
  rw [table] at place
  generalize upper : role p = upperRole at place
  cases place with
  | table inside => exact ⟨p, upper, inside, points⟩

theorem dir_unique {i p q : Nat} (dir : role p = .dir r i) (dir' : role q = .dir r i) : p = q :=
  Option.some.inj ((dir_place layout dir).2.2.symm.trans (dir_place layout dir').2.2)

theorem table_unique {i j p q : Nat} (table : role p = .table r i j) (table' : role q = .table r i j) :
    p = q := by
  obtain ⟨c, dir, -, points⟩ := table_place layout table
  obtain ⟨c', dir', -, points'⟩ := table_place layout table'
  obtain rfl := dir_unique layout dir dir'
  exact Option.some.inj (points.symm.trans points')

/-- An inner page is pointed to from one place only. -/
theorem place_unique {p p' i i' q : Nat} (below : Role.below r (role q) = true)
    (place : Child p (role p) i (role q)) (place' : Child p' (role p') i' (role q)) :
    p = p' ∧ i = i' := by
  generalize named : role q = ro at below place place'
  generalize upper : role p = a at place
  generalize upper' : role p' = b at place'
  cases place with
  | dir _ =>
      cases place' with
      | dir _ => exact ⟨rfl, rfl⟩
  | table _ =>
      cases place' with
      | table _ => exact ⟨dir_unique layout upper upper', rfl⟩
  | data _ => cases below

end Places

/-! ## Entries that are cleared -/

/-- Every entry is as it was, or zero. -/
def Cleared (s t : Machine σ) : Prop := ∀ slot, t.load slot = s.load slot ∨ t.load slot = 0

theorem Cleared.target (cleared : Cleared s t) {slot : Slot} {q : Nat}
    (points : target (t.load slot) = some q) : target (s.load slot) = some q := by
  rcases cleared slot with same | zero
  · rwa [← same]
  · rw [zero, target_zero] at points
    cases points

theorem Cleared.walk (cleared : Cleared s t) {la : Nat} {slot : Slot} (found : walk t r la = some slot) :
    walk s r la = some slot := by
  obtain ⟨pd0, first, second, index⟩ := walk_some.mp found
  exact walk_some.mpr ⟨pd0, cleared.target first, cleared.target second, index⟩

theorem Cleared.bare (cleared : Cleared s t) (bare : Bare s r) : Bare t r := by
  intro la user
  refine Option.eq_none_iff_forall_not_mem.mpr fun p maps => ?_
  have absent := bare la user
  unfold pteOf at maps absent
  split at maps
  · rename_i slot found
    rw [cleared.walk found] at absent
    exact absurd (absent.symm.trans (cleared.target maps)) (by simp)
  · simp at maps

variable (M) in
/-- From `s` to `t` inner pages below `r` were freed, the pages `new` with the words
    they held, or lost, and entries that pointed to them cleared. -/
structure Pruned (roots : Finset Nat) (r : Nat) (s : Machine σ) (role : Nat → Role) (t : Machine σ)
    (role' : Nat → Role) (new : List (Nat × (Nat → Nat))) : Prop where
  counted : Counted M roots 0 t role'
  kept : ∀ p, Role.below r (role p) = false → role' p = role p
  below : ∀ p, Role.below r (role p) = true → role' p = role p ∨ role' p = .free ∨
    (role' p = .other ∧ ∃ i j, role p = .table r i j)
  cleared : Cleared s t
  mem : ∀ p, role p ≠ .root → (role p).inner = false → t.mem p = s.mem p
  others : ∀ r' ∈ roots, r' ≠ r → ∀ la < USERTOP, pteOf t r' la = pteOf s r' la
  zeroed : ∀ p i q, Role.below r (role q) = true → Child p (role p) i (role q) →
    target (s.load ⟨p, i⟩) = some q → role' q = .free → t.load ⟨p, i⟩ = 0
  ref : ∀ p, Role.below r (role p) = false → t.ref p = s.ref p
  swapInitOk : t.swapInitOk = s.swapInitOk
  swap : t.swap = s.swap
  frees : t.frees = new.map Prod.fst ++ s.frees
  words : t.freedWords = new.map Prod.snd ++ s.freedWords
  nodup : (new.map Prod.fst).Nodup
  freed : ∀ p, p ∈ new.map Prod.fst ↔ Role.below r (role p) = true ∧ role' p = .free
  dirty : ∀ page ∈ new, (∃ j < 512, isValid (page.2 j) = true) →
    ∃ q, Role.below r (role q) = true ∧ role' q = .other

namespace Pruned

variable {new new' : List (Nat × (Nat → Nat))}

theorem refl (counted : Counted M roots 0 s role) : Pruned M roots r s role s role [] where
  counted := counted
  kept _ _ := rfl
  below _ _ := .inl rfl
  cleared _ := .inl rfl
  mem _ _ _ := rfl
  others _ _ _ _ _ := rfl
  zeroed p i q below _ _ free := by simp [free, Role.below] at below
  ref _ _ := rfl
  swapInitOk := rfl
  swap := rfl
  frees := rfl
  words := rfl
  nodup := .nil
  freed p := by
    simp only [List.map_nil, List.not_mem_nil, false_iff]
    rintro ⟨below, free⟩
    simp [free, Role.below] at below
  dirty := by simp

/-- A page that is below `r` in the end was so from the start, with the same role. -/
theorem before (pruned : Pruned M roots r s role t role' new) {p : Nat}
    (below : Role.below r (role' p) = true) : role' p = role p := by
  cases was : Role.below r (role p) with
  | false => exact pruned.kept p was
  | true =>
      rcases pruned.below p was with same | free | ⟨other, -⟩
      · exact same
      · simp [free, Role.below] at below
      · simp [other, Role.below] at below

theorem still_free (second : Pruned M roots r t role' u role'' new') {p : Nat} (free : role' p = .free) :
    role'' p = .free :=
  (second.kept p (by simp [free, Role.below])).trans free

theorem still_other (second : Pruned M roots r t role' u role'' new') {p : Nat} (other : role' p = .other) :
    role'' p = .other :=
  (second.kept p (by simp [other, Role.below])).trans other

theorem trans (layout : Layout M s role) (first : Pruned M roots r s role t role' new)
    (second : Pruned M roots r t role' u role'' new') :
    Pruned M roots r s role u role'' (new' ++ new) where
  counted := second.counted
  kept p away := (second.kept p (by rw [first.kept p away]; exact away)).trans (first.kept p away)
  below p inside := by
    rcases first.below p inside with same | free | ⟨other, table⟩
    · rw [← same] at inside ⊢
      exact second.below p inside
    · exact .inr (.inl (second.still_free free))
    · exact .inr (.inr ⟨second.still_other other, table⟩)
  cleared slot := by
    rcases second.cleared slot with same | zero
    · rw [same]
      exact first.cleared slot
    · exact .inr zero
  mem p notRoot outer := by
    have away : Role.below r (role p) = false := by
      cases below : Role.below r (role p) with
      | false => rfl
      | true => simp [below_inner below] at outer
    have same := first.kept p away
    exact (second.mem p (by rwa [same]) (by rwa [same])).trans (first.mem p notRoot outer)
  others r' root other la user := (second.others r' root other la user).trans (first.others r' root other la user)
  zeroed p i q inside place points free := by
    rcases first.below q inside with same | wasFree | ⟨wasOther, -⟩
    · -- the page kept its role, and so its place
      obtain ⟨c, k, place', points'⟩ := first.counted.layout.link q (by rw [same]; exact below_inner inside)
      have role_c : role' c = role c := by
        cases away : Role.below r (role c) with
        | false => exact first.kept c away
        | true =>
            rcases first.below c away with same' | free' | ⟨other', -⟩
            · exact same'
            · exact absurd free' place'.ne_free.1
            · rw [other'] at place'
              cases place'
      obtain ⟨rfl, rfl⟩ := place_unique layout inside place (by rwa [← role_c, ← same])
      exact second.zeroed p i q (by rwa [same]) place' points' free
    · have zero := first.zeroed p i q inside place points wasFree
      rcases second.cleared ⟨p, i⟩ with same | zero'
      · rw [same, zero]
      · exact zero'
    · rw [second.still_other wasOther] at free
      cases free
  ref p away := (second.ref p (by rw [first.kept p away]; exact away)).trans (first.ref p away)
  swapInitOk := second.swapInitOk.trans first.swapInitOk
  swap := second.swap.trans first.swap
  frees := by rw [second.frees, first.frees, List.map_append, List.append_assoc]
  words := by rw [second.words, first.words, List.map_append, List.append_assoc]
  nodup := by
    rw [List.map_append, List.nodup_append]
    refine ⟨second.nodup, first.nodup, ?_⟩
    rintro p later _ earlier rfl
    have free := ((first.freed p).mp earlier).2
    have below := ((second.freed p).mp later).1
    simp [free, Role.below] at below
  freed p := by
    rw [List.map_append, List.mem_append, second.freed, first.freed]
    constructor
    · rintro (⟨below, free⟩ | ⟨below, free⟩)
      · exact ⟨by rwa [← first.before below], free⟩
      · exact ⟨below, second.still_free free⟩
    · rintro ⟨below, free⟩
      rcases first.below p below with same | wasFree | ⟨wasOther, -⟩
      · exact .inl ⟨by rwa [same], free⟩
      · exact .inr ⟨below, wasFree⟩
      · rw [second.still_other wasOther] at free
        cases free
  dirty page member valid := by
    rcases List.mem_append.mp member with later | earlier
    · obtain ⟨q, below, other⟩ := second.dirty page later valid
      exact ⟨q, by rwa [← first.before below], other⟩
    · obtain ⟨q, below, other⟩ := first.dirty page earlier valid
      exact ⟨q, below, second.still_other other⟩

end Pruned

/-! ## Freeing one page -/

/-- The roles once the inner page `q` is free. What is below it is lost. -/
def prunedRole (role : Nat → Role) (q p : Nat) : Role :=
  if p = q then .free
  else
    match role q, role p with
    | .dir r i, .table r' i' _ => if r = r' ∧ i = i' then .other else role p
    | _, _ => role p

theorem prunedRole_self (role : Nat → Role) (q : Nat) : prunedRole role q q = .free := if_pos rfl

/-- Away from the freed page roles change only from table to lost. -/
theorem prunedRole_cases (role : Nat → Role) {q p : Nat} (away : p ≠ q) :
    prunedRole role q p = role p ∨
      (prunedRole role q p = .other ∧ ∃ r i j, role q = .dir r i ∧ role p = .table r i j) := by
  rw [prunedRole, if_neg away]
  split
  · rename_i r i r' i' j dir table
    split
    · rename_i same
      obtain ⟨rfl, rfl⟩ := same
      exact .inr ⟨rfl, r, i, j, dir, table⟩
    · exact .inl rfl
  · exact .inl rfl

theorem prunedRole_lost (role : Nat → Role) {q p i j : Nat} (dir : role q = .dir r i)
    (table : role p = .table r i j) : prunedRole role q p = .other := by
  have away : p ≠ q := by
    rintro rfl
    rw [dir] at table
    cases table
  rw [prunedRole, if_neg away, dir, table]
  simp

section Prune

variable {q c k : Nat} (below : Role.below r (role q) = true) (place : Child c (role c) k (role q))
include below place

/-- The entry is in the root, or in a directory below it. -/
theorem upper_place : c = r ∧ role c = .root ∨ ∃ i, role c = .dir r i := by
  generalize named : role q = ro at below place
  generalize upper : role c = a at place
  cases place with
  | dir _ =>
      simp only [Role.below, decide_eq_true_eq] at below
      exact .inl ⟨below, rfl⟩
  | table _ =>
      simp only [Role.below, decide_eq_true_eq] at below
      exact .inr ⟨_, by rw [below]⟩
  | data _ => cases below

variable (counted : Counted M roots 0 s role) (points : target (s.load ⟨c, k⟩) = some q)
include counted points

theorem prune_layout : Layout M ((freePage M s q).store ⟨c, k⟩ 0) (prunedRole role q) := by
  have layout := counted.layout
  have named : role q ≠ .free ∧ role q ≠ .other := by
    constructor <;> intro same <;> simp [same, Role.below] at below
  have load : ∀ slot, ((freePage M s q).store ⟨c, k⟩ 0).load slot =
      if slot = ⟨c, k⟩ then 0 else s.load slot := fun slot => load_store ..
  -- a page that has entries after the change had them before
  have upper : ∀ {p i child}, Child p (prunedRole role q p) i child →
      p ≠ q ∧ prunedRole role q p = role p := by
    intro p i child there
    have away : p ≠ q := by
      rintro rfl
      exact there.ne_free.1 (prunedRole_self ..)
    rcases prunedRole_cases role away with same | ⟨lost, -⟩
    · exact ⟨away, same⟩
    · rw [lost] at there
      cases there
  refine ⟨fun p => ?_, fun p isNamed => ?_, fun p i child x there found => ?_, fun x inner => ?_⟩
  · rw [show ((freePage M s q).store ⟨c, k⟩ 0).pmm = M.freePage s.pmm q from rfl,
      M.free_page (layout.lt q named.2) (by rw [layout.free]; exact named.1), layout.free]
    by_cases here : p = q
    · simp [here, prunedRole_self]
    · rcases prunedRole_cases role here with same | ⟨lost, _, _, _, -, table⟩
      · simp [same, here]
      · simp [lost, table, here]
  · by_cases here : p = q
    · exact here ▸ layout.lt q named.2
    · rcases prunedRole_cases role here with same | ⟨lost, -⟩
      · exact layout.lt p (by rwa [← same])
      · exact absurd lost isNamed
  · obtain ⟨away, same⟩ := upper there
    rw [same] at there
    rw [load] at found
    split at found
    · simp at found
    rename_i elsewhere
    have role_x := layout.entry p i child x there found
    have notFreed : x ≠ q := by
      rintro rfl
      rw [← role_x] at there
      obtain ⟨rfl, rfl⟩ := place_unique layout below there place
      exact elsewhere rfl
    rcases prunedRole_cases role notFreed with same' | ⟨-, r', i', j', dir, table⟩
    · exact same'.trans role_x
    · -- a table below the freed directory has no other parent
      rw [← role_x, table] at there
      generalize up : role p = upperRole at there
      cases there
      exact absurd (dir_unique layout up dir) away
  · have away : x ≠ q := by
      rintro rfl
      rw [prunedRole_self] at inner
      cases inner
    rcases prunedRole_cases role away with same | ⟨lost, -⟩
    · rw [same] at inner ⊢
      obtain ⟨p, i, there, found⟩ := layout.link x inner
      have elsewhere : (⟨p, i⟩ : Slot) ≠ ⟨c, k⟩ := by
        rintro ⟨⟩
        exact away (Option.some.inj (found.symm.trans points))
      have kept : prunedRole role q p = role p := by
        have notFreed : p ≠ q := by
          rintro rfl
          generalize dir : role p = upperRole at there
          generalize table : role x = lowerRole at there
          cases there with
          | dir _ => simp [dir, Role.below] at below
          | table _ =>
              rw [prunedRole_lost role dir table] at same
              rw [table] at same
              cases same
          | data _ => simp [table, Role.inner] at inner
        rcases prunedRole_cases role notFreed with same' | ⟨-, _, _, _, -, table⟩
        · exact same'
        · rw [table] at there
          generalize role x = lowerRole at there inner
          cases there
          cases inner
      exact ⟨p, i, kept.symm ▸ there, by rw [load, if_neg elsewhere]; exact found⟩
    · rw [lost] at inner
      cases inner

omit points in
/-- The entries below other roots are elsewhere. -/
theorem pteOf_elsewhere (same : ∀ slot : Slot, slot ≠ ⟨c, k⟩ → t.load slot = s.load slot) {r' la : Nat}
    (root' : role r' = .root) (other : r' ≠ r) (user : la < USERTOP) : pteOf t r' la = pteOf s r' la := by
  have layout := counted.layout
  have away : ∀ p i, role p = .root ∧ p = r' ∨ (∃ i, role p = .dir r' i) ∨ (∃ i j, role p = .table r' i j) →
      t.load ⟨p, i⟩ = s.load ⟨p, i⟩ := by
    rintro p i named
    refine same _ ?_
    rintro ⟨⟩
    rcases upper_place below place with ⟨rfl, root⟩ | ⟨i, dir⟩
    · rcases named with ⟨-, rfl⟩ | ⟨_, dir⟩ | ⟨_, _, table⟩
      · exact other rfl
      · simp [root] at dir
      · simp [root] at table
    · rcases named with ⟨root, -⟩ | ⟨_, dir'⟩ | ⟨_, _, table⟩
      · simp [root] at dir
      · rw [dir] at dir'
        simp only [Role.dir.injEq] at dir'
        exact other dir'.1.symm
      · simp [dir] at table
  have walks : walk t r' la = walk s r' la := by
    unfold walk
    rw [away r' _ (.inl ⟨root', rfl⟩)]
    cases first : target (s.load ⟨r', pdx1 la⟩) with
    | none => rfl
    | some pd0 => rw [Option.bind_some, Option.bind_some,
        away pd0 _ (.inr (.inl ⟨_, layout.walk_dir root' user first⟩))]
  unfold pteOf
  rw [walks]
  split
  · rename_i slot found
    exact away slot.page slot.index (.inr (.inr ⟨_, _, (layout.walk_role root' user found).1⟩))
  · rfl

/-- An inner page is freed and the entry that points to it cleared. -/
theorem prune (root : r ∈ roots) (bare : Bare s r) :
    Pruned M roots r s role ((freePage M s q).store ⟨c, k⟩ 0) (prunedRole role q) [(q, s.mem q)] := by
  have layout := counted.layout
  have layout' := prune_layout below place counted points
  have load : ∀ slot, ((freePage M s q).store ⟨c, k⟩ 0).load slot =
      if slot = ⟨c, k⟩ then 0 else s.load slot := fun slot => load_store ..
  have ref : ∀ p, p ≠ q → ((freePage M s q).store ⟨c, k⟩ 0).ref p = s.ref p := fun p away =>
    Function.update_of_ne away ..
  have mem : ∀ p, p ≠ c → ((freePage M s q).store ⟨c, k⟩ 0).mem p = s.mem p := fun p away =>
    Function.update_of_ne away ..
  have refQ : ((freePage M s q).store ⟨c, k⟩ 0).ref q = 0 := Function.update_self ..
  have log : ((freePage M s q).store ⟨c, k⟩ 0).frees = q :: s.frees ∧
      ((freePage M s q).store ⟨c, k⟩ 0).freedWords = s.mem q :: s.freedWords := ⟨rfl, rfl⟩
  have rest : ((freePage M s q).store ⟨c, k⟩ 0).swapInitOk = s.swapInitOk ∧
      ((freePage M s q).store ⟨c, k⟩ 0).swap = s.swap := ⟨rfl, rfl⟩
  generalize (freePage M s q).store ⟨c, k⟩ 0 = t at *
  have cleared : Cleared s t := fun slot => by
    rw [load]
    split
    · exact .inr rfl
    · exact .inl rfl
  have others : ∀ r' ∈ roots, r' ≠ r → ∀ la < USERTOP, pteOf t r' la = pteOf s r' la :=
    fun r' root' other la user => pteOf_elsewhere below place counted
      (fun slot away => by rw [load, if_neg away]) ((counted.isRoot r').mp root') other user
  have counts : ∀ p, mappings roots t p = mappings roots s p := fun p => by
    refine tally_congr fun v inside => ?_
    obtain ⟨root', user⟩ := mem_places.mp inside
    by_cases here : v.1 = r
    · rw [mappedAt, mappedAt, here, bare _ (user_of_lt user), cleared.bare bare _ (user_of_lt user)]
    · rw [mappedAt, mappedAt, others _ root' here _ (user_of_lt user)]
  have away : ∀ {p}, Role.below r (role p) = false → p ≠ q := by
    rintro p outside rfl
    rw [below] at outside
    cases outside
  have kept : ∀ p, Role.below r (role p) = false → prunedRole role q p = role p := by
    intro p outside
    rcases prunedRole_cases role (away outside) with same | ⟨-, r', i, j, dir, table⟩
    · exact same
    · simp only [dir, Role.below, decide_eq_true_eq] at below
      simp [table, below, Role.below] at outside
  refine ⟨⟨layout', fun r' => ?_, fun p data => ?_, fun p free => ?_⟩, kept, fun p inside => ?_, cleared,
    fun p notRoot outer => ?_, others, fun p i x inside there found free => ?_, fun p outside => ?_, rest.1,
    rest.2, log.1, log.2, by simp, fun p => ?_, ?_⟩
  · rw [counted.isRoot]
    cases outside : Role.below r (role r') with
    | false => rw [kept r' outside]
    | true =>
        constructor
        · intro isRoot
          simp [isRoot, Role.below] at outside
        · intro isRoot
          by_cases here : r' = q
          · rw [here, prunedRole_self] at isRoot
            cases isRoot
          · rcases prunedRole_cases role here with same | ⟨lost, -⟩
            · rwa [same] at isRoot
            · rw [lost] at isRoot
              cases isRoot
  · have notFreed : p ≠ q := by
      rintro rfl
      rw [prunedRole_self] at data
      cases data
    rcases prunedRole_cases role notFreed with same | ⟨lost, -⟩
    · rw [ref p notFreed, counts, counted.count p (same ▸ data)]
    · rw [lost] at data
      cases data
  · by_cases here : p = q
    · rw [here, refQ]
    · rcases prunedRole_cases role here with same | ⟨lost, -⟩
      · rw [ref p here, counted.rest p (same ▸ free)]
      · rw [lost] at free
        cases free
  · by_cases here : p = q
    · exact .inr (.inl (here ▸ prunedRole_self ..))
    · rcases prunedRole_cases role here with same | ⟨lost, r', i, j, dir, table⟩
      · exact .inl same
      · simp only [table, Role.below, decide_eq_true_eq] at inside
        exact .inr (.inr ⟨lost, i, j, inside ▸ table⟩)
  · refine mem p ?_
    rintro rfl
    rcases upper_place below place with ⟨-, isRoot⟩ | ⟨i, dir⟩
    · exact notRoot isRoot
    · rw [dir] at outer
      cases outer
  · by_cases here : x = q
    · subst here
      obtain ⟨rfl, rfl⟩ := place_unique layout below there place
      rw [load, if_pos rfl]
    · rcases prunedRole_cases role here with same | ⟨lost, -⟩
      · simp [← same, free, Role.below] at inside
      · rw [lost] at free
        cases free
  · exact ref p (away outside)
  · simp only [List.map_cons, List.map_nil, List.mem_singleton]
    constructor
    · rintro rfl
      exact ⟨below, prunedRole_self ..⟩
    · rintro ⟨inside, free⟩
      by_contra here
      rcases prunedRole_cases role here with same | ⟨lost, -⟩
      · simp [← same, free, Role.below] at inside
      · rw [lost] at free
        cases free
  · -- a valid entry of the freed page leads to a table that is lost
    rintro page member ⟨j, low, valid⟩
    obtain rfl : page = (q, s.mem q) := by simpa using member
    have found : target (s.load ⟨q, j⟩) = some (ptePpn (s.load ⟨q, j⟩)) := target_some.mpr ⟨valid, rfl⟩
    cases named : role q with
    | dir r' i =>
        have table := layout.walk_table named low found
        refine ⟨_, ?_, prunedRole_lost role named table⟩
        simp only [named, Role.below, decide_eq_true_eq] at below
        simp [table, Role.below, below]
    | table r' i j' =>
        simp only [named, Role.below, decide_eq_true_eq] at below
        subst below
        obtain ⟨la, user, -, found'⟩ := layout.table_walk named low
        have absent := bare la user
        rw [pteOf_walk found', found] at absent
        cases absent
    | free => simp [named, Role.below] at below
    | root => simp [named, Role.below] at below
    | data => simp [named, Role.below] at below
    | other => simp [named, Role.below] at below

end Prune

/-! ## Tables as parts of directories

Table `j` of directory `i` is part number `512 * i + j`.
-/

/-- The directories and tables below `r`, and the tables lost since the roles `role₀`. -/
def forest (role₀ role : Nat → Role) (r : Nat) : Forest Nat Nat where
  wholes := {i | ∃ q, role q = .dir r i}
  parts := {c | ∃ q, role q = .table r (c / 512) (c % 512)}
  lost := {c | ∃ q, role₀ q = .table r (c / 512) (c % 512) ∧ role q = .other}

section Forests

variable {role₀ : Nat → Role} {q i : Nat}

theorem forest_table {c : Nat} (layout : Layout M s role) (table : role q = .table r (c / 512) (c % 512)) :
    forest role₀ (prunedRole role q) r =
      { forest role₀ role r with parts := (forest role₀ role r).parts \ {c} } := by
  have same : ∀ p, p ≠ q → prunedRole role q p = role p := by
    intro p away
    rcases prunedRole_cases role away with same | ⟨-, _, _, _, dir, -⟩
    · exact same
    · rw [table] at dir
      cases dir
  have freed : prunedRole role q q = .free := prunedRole_self ..
  have off : ∀ p ro, ro ≠ .free → ro ≠ role q → (prunedRole role q p = ro ↔ role p = ro) := by
    intro p ro named other
    by_cases here : p = q
    · subst here
      simp only [freed]
      exact ⟨fun free => absurd free.symm named, fun was => absurd was.symm other⟩
    · rw [same p here]
  have split : ∀ c', c' = c ↔ c' / 512 = c / 512 ∧ c' % 512 = c % 512 := fun c' => by omega
  ext x
  · exact exists_congr fun p => off p _ (by simp) (by simp [table])
  · simp only [forest, Set.mem_ofPred_eq, Set.mem_sdiff, Set.mem_singleton_iff]
    by_cases here : x = c
    · subst here
      simp only [not_true_eq_false, and_false, iff_false, not_exists]
      intro p named
      by_cases away : p = q
      · simp [away, freed] at named
      · rw [same p away] at named
        exact away (table_unique layout named table)
    · simp only [here, not_false_eq_true, and_true]
      exact exists_congr fun p => off p _ (by simp) fun other => by
        rw [table] at other
        simp only [Role.table.injEq, true_and] at other
        exact here ((split x).mpr other)
  · exact exists_congr fun p => and_congr_right fun _ => off p _ (by simp) (by simp [table])

theorem forest_dir (layout : Layout M s role) (dir : role q = .dir r i)
    (before : ∀ p, Role.below r (role p) = true → role p = role₀ p) :
    forest role₀ (prunedRole role q) r =
      { wholes := (forest role₀ role r).wholes \ {i}
        parts := {c | c ∈ (forest role₀ role r).parts ∧ c / 512 ≠ i}
        lost := (forest role₀ role r).lost ∪ {c | c ∈ (forest role₀ role r).parts ∧ c / 512 = i} } := by
  have freed : prunedRole role q q = .free := prunedRole_self ..
  have cases' : ∀ p, p ≠ q → (∃ j, role p = .table r i j ∧ prunedRole role q p = .other) ∨
      ((∀ j, role p ≠ .table r i j) ∧ prunedRole role q p = role p) := by
    intro p away
    by_cases below : ∃ j, role p = .table r i j
    · obtain ⟨j, table⟩ := below
      exact .inl ⟨j, table, prunedRole_lost role dir table⟩
    · refine .inr ⟨fun j table => below ⟨j, table⟩, ?_⟩
      rcases prunedRole_cases role away with same | ⟨-, r', i', j, dir', table⟩
      · exact same
      · rw [dir] at dir'
        simp only [Role.dir.injEq] at dir'
        obtain ⟨rfl, rfl⟩ := dir'
        exact absurd ⟨j, table⟩ below
  ext x
  · simp only [forest, Set.mem_ofPred_eq, Set.mem_sdiff, Set.mem_singleton_iff]
    constructor
    · rintro ⟨p, named⟩
      by_cases here : p = q
      · simp [here, freed] at named
      · rcases cases' p here with ⟨_, -, lost⟩ | ⟨-, same⟩
        · simp [lost] at named
        · rw [same] at named
          refine ⟨⟨p, named⟩, ?_⟩
          rintro rfl
          exact here (dir_unique layout named dir)
    · rintro ⟨⟨p, named⟩, other⟩
      have here : p ≠ q := by
        rintro rfl
        rw [dir] at named
        simp only [Role.dir.injEq, true_and] at named
        exact other named.symm
      rcases cases' p here with ⟨_, table, -⟩ | ⟨-, same⟩
      · simp [named] at table
      · exact ⟨p, same.trans named⟩
  · simp only [forest, Set.mem_ofPred_eq]
    constructor
    · rintro ⟨p, named⟩
      by_cases here : p = q
      · simp [here, freed] at named
      · rcases cases' p here with ⟨_, -, lost⟩ | ⟨notBelow, same⟩
        · simp [lost] at named
        · rw [same] at named
          exact ⟨⟨p, named⟩, fun inside => notBelow _ (inside ▸ named)⟩
    · rintro ⟨⟨p, named⟩, other⟩
      have here : p ≠ q := by
        rintro rfl
        simp [dir] at named
      rcases cases' p here with ⟨_, table, -⟩ | ⟨-, same⟩
      · rw [named] at table
        simp only [Role.table.injEq, true_and] at table
        exact absurd table.1 other
      · exact ⟨p, same.trans named⟩
  · simp only [forest, Set.mem_ofPred_eq, Set.mem_union]
    constructor
    · rintro ⟨p, was, lost⟩
      by_cases here : p = q
      · simp [here, freed] at lost
      · rcases cases' p here with ⟨j, table, -⟩ | ⟨-, same⟩
        · refine .inr ?_
          have same := before p (by simp [table, Role.below])
          rw [table, was] at same
          simp only [Role.table.injEq, true_and] at same
          exact ⟨⟨p, by rw [table, same.1, same.2]⟩, same.1.symm⟩
        · exact .inl ⟨p, was, same ▸ lost⟩
    · rintro (⟨p, was, lost⟩ | ⟨⟨p, table⟩, inside⟩)
      · have here : p ≠ q := by
          rintro rfl
          simp [dir] at lost
        rcases cases' p here with ⟨_, table, -⟩ | ⟨-, same⟩
        · simp [lost] at table
        · exact ⟨p, was, same.trans lost⟩
      · refine ⟨p, (before p (by simp [table, Role.below])).symm.trans table, ?_⟩
        exact prunedRole_lost role dir (inside ▸ table)

end Forests

end Ucore.Mm.Prune
