import Ucore.Lib.Tally
import Ucore.Mm.PageTables

/-! # Reference counts and mappings

A user page is mapped at a root and a user page number when the leaf entry there is
valid and points to it. `Counted` says that the reference count of every data page
is the tally of its mappings, plus the references that a function in progress holds.
-/

namespace Ucore.Mm.PageRefs

open Lib.Tally Libs.Assert Mmu Pmm PageTables

def userPages : Nat := USERTOP / PGSIZE

variable {σ : Type} {M : PmmManager σ} {s t u : Machine σ} {role role' : Nat → Role}
  {roots : Finset Nat} {held : Nat → Nat}

/-- The page mapped at a root and a user page number. -/
def mappedAt (s : Machine σ) (place : Nat × Nat) : Option Nat :=
  target (pteOf s place.1 (place.2 * PGSIZE))

/-- All the places a page can be mapped at. -/
def places (roots : Finset Nat) : Finset (Nat × Nat) := roots ×ˢ Finset.range userPages

def mappings (roots : Finset Nat) (s : Machine σ) (p : Nat) : Nat :=
  tally (places roots) (mappedAt s) p

variable (M) in
structure Counted (roots : Finset Nat) (held : Nat → Nat) (s : Machine σ) (role : Nat → Role) :
    Prop where
  layout : Layout M s role
  isRoot : ∀ r, r ∈ roots ↔ role r = .root
  count : ∀ p, role p = .data → s.ref p = mappings roots s p + held p
  rest : ∀ p, role p = .free → s.ref p = 0

theorem mem_places {place : Nat × Nat} :
    place ∈ places roots ↔ place.1 ∈ roots ∧ place.2 < userPages := by
  simp [places]

theorem user_of_lt {v : Nat} (inside : v < userPages) : v * PGSIZE < USERTOP := by
  simp only [userPages, USERTOP, PGSIZE] at *
  omega

theorem page_lt {la : Nat} (user : la < USERTOP) : la / PGSIZE < userPages := by
  simp only [userPages, USERTOP, PGSIZE] at *
  omega

theorem page_mul_div (v : Nat) : v * PGSIZE / PGSIZE = v := Nat.mul_div_cancel _ PGSIZE_pos

theorem pteOf_page (s : Machine σ) (r la : Nat) : pteOf s r (la / PGSIZE * PGSIZE) = pteOf s r la := by
  unfold pteOf
  rw [walk_congr (page_mul_div _)]

theorem mappedAt_page (s : Machine σ) (r la : Nat) :
    mappedAt s (r, la / PGSIZE) = target (pteOf s r la) := by
  rw [mappedAt, pteOf_page]

theorem pteOf_walk {r la : Nat} {slot : Slot} (found : walk s r la = some slot) :
    pteOf s r la = s.load slot := by
  rw [pteOf, found]

theorem mappings_eq_zero_iff {p : Nat} : mappings roots s p = 0 ↔
    ∀ r ∈ roots, ∀ v < userPages, mappedAt s (r, v) ≠ some p := by
  rw [mappings, tally_eq_zero_iff]
  constructor
  · intro none r root v inside
    exact none (r, v) (mem_places.mpr ⟨root, inside⟩)
  · rintro none ⟨r, v⟩ inside
    exact none r (mem_places.mp inside).1 v (mem_places.mp inside).2

/-- Equal leaf entries give equal counts. -/
theorem mappings_congr (same : ∀ r ∈ roots, ∀ la < USERTOP, pteOf t r la = pteOf s r la) (p : Nat) :
    mappings roots t p = mappings roots s p := by
  refine tally_congr fun place inside => ?_
  obtain ⟨root, user⟩ := mem_places.mp inside
  rw [mappedAt, mappedAt, same _ root _ (user_of_lt user)]

/-- From `s` to `t` the leaf entry for `la` below `r` became `w`, and no other one
    changed. -/
def SetsPte (roots : Finset Nat) (s t : Machine σ) (r la w : Nat) : Prop :=
  ∀ r' ∈ roots, ∀ la' < USERTOP, pteOf t r' la' =
    if r' = r ∧ la' / PGSIZE = la / PGSIZE then w else pteOf s r' la'

/-- The last store to an entry wins. -/
theorem SetsPte.trans {r la w w' : Nat} (first : SetsPte roots s t r la w)
    (second : SetsPte roots t u r la w') : SetsPte roots s u r la w' := by
  intro r' root' la' user'
  rw [second r' root' la' user']
  split
  · rfl
  · rename_i elsewhere
    rw [first r' root' la' user', if_neg elsewhere]

theorem SetsPte.samePage {r la la' w : Nat} (sets : SetsPte roots s t r la w)
    (same : la / PGSIZE = la' / PGSIZE) : SetsPte roots s t r la' w := by
  intro r' root' x user'
  rw [sets r' root' x user', same]

theorem SetsPte.after {r la w : Nat} (sets : SetsPte roots t u r la w)
    (same : ∀ r' ∈ roots, ∀ la' < USERTOP, pteOf t r' la' = pteOf s r' la') :
    SetsPte roots s u r la w := by
  intro r' root' la' user'
  rw [sets r' root' la' user', same r' root' la' user']

theorem mappings_setsPte {r la w : Nat} (sets : SetsPte roots s t r la w) (root : r ∈ roots)
    (user : la < USERTOP) (p : Nat) :
    mappings roots t p + (if target (pteOf s r la) = some p then 1 else 0) =
      mappings roots s p + (if target w = some p then 1 else 0) := by
  have inside : (r, la / PGSIZE) ∈ places roots := mem_places.mpr ⟨root, page_lt user⟩
  have step := tally_store (f := mappedAt s) (g := mappedAt t) (a := p) inside
    fun place member different => by
      obtain ⟨root', inside'⟩ := mem_places.mp member
      rw [mappedAt, sets _ root' _ (user_of_lt inside'), page_mul_div, if_neg]
      · rfl
      · rintro ⟨first, second⟩
        exact different (Prod.ext first second)
  have here : mappedAt t (r, la / PGSIZE) = target w := by
    rw [mappedAt_page, sets r root la user, if_pos ⟨rfl, rfl⟩]
  rwa [here, mappedAt_page] at step

section Store

variable {r la w : Nat} {slot : Slot} (counted : Counted M roots held s role) (root : r ∈ roots)
  (user : la < USERTOP) (found : walk s r la = some slot)
include counted root user found

theorem setsPte_store : SetsPte roots s (s.store slot w) r la w := fun r' root' _ user' =>
  pteOf_store counted.layout ((counted.isRoot r).mp root) user found ((counted.isRoot r').mp root') user'

/-- A store to a leaf entry moves references between the entries and the function
    that makes it. -/
theorem Counted.store {held' : Nat → Nat} (maps : ∀ q, target w = some q → role q = .data)
    (balance : ∀ p, held' p + (if target w = some p then 1 else 0) =
      held p + (if target (s.load slot) = some p then 1 else 0)) :
    Counted M roots held' (s.store slot w) role where
  layout := counted.layout.store ((counted.isRoot r).mp root) user found maps
  isRoot := counted.isRoot
  count p data := by
    have total := counted.count p data
    have move := mappings_setsPte (setsPte_store (w := w) counted root user found) root user p
    have give := balance p
    rw [pteOf_walk found] at move
    have same : (s.store slot w).ref p = s.ref p := rfl
    omega
  rest := counted.rest

end Store

theorem Counted.refInc (counted : Counted M roots held s role) {p : Nat} (data : role p = .data) :
    Counted M roots (Function.update held p (held p + 1)) (s.pageRefInc p) role where
  layout := counted.layout.of_eq rfl rfl
  isRoot := counted.isRoot
  count q plain := by
    have total := counted.count q plain
    have same : mappings roots (s.pageRefInc p) q = mappings roots s q := rfl
    by_cases here : q = p
    · subst here
      simp only [Machine.pageRefInc, Machine.setPageRef, Function.update_self] at same ⊢
      omega
    · rw [same, Function.update_of_ne here, ← total]
      exact Function.update_of_ne here ..
  rest q free := by
    have other : q ≠ p := by
      rintro rfl
      rw [free] at data
      cases data
    simpa [Machine.pageRefInc, Machine.setPageRef, other] using counted.rest q free

/-- A data page without mappings is pointed to by no entry. -/
theorem Counted.unmapped (counted : Counted M roots held s role) {p : Nat} (plain : role p = .data)
    (absent : mappings roots s p = 0) :
    ∀ q i child, Child q (role q) i child → target (s.load ⟨q, i⟩) ≠ some p := by
  intro q i child place points
  have role_p := counted.layout.entry q i child p place points
  rw [plain] at role_p
  subst role_p
  generalize upper : role q = upperRole at place
  cases place with
  | data inside =>
      obtain ⟨la, user, root, found⟩ := counted.layout.table_walk upper inside
      refine mappings_eq_zero_iff.mp absent _ ((counted.isRoot _).mpr root) (la / PGSIZE)
        (page_lt user) ?_
      rw [mappedAt_page, pteOf_walk found]
      exact points

/-! ## Contents of data pages -/

section Contents

variable {p : Nat} (data : role p = .data) (words : Nat → Nat)
include data

theorem setPage_tables {q : Nat} (upper : role q = .root ∨ (role q).inner = true) :
    (s.setPage p words).mem q = s.mem q := by
  refine Function.update_of_ne ?_ ..
  rintro rfl
  simp [data, Role.inner] at upper

variable (counted : Counted M roots held s role)
include counted

theorem pteOf_setPage {r la : Nat} (root : r ∈ roots) (user : la < USERTOP) :
    pteOf (s.setPage p words) r la = pteOf s r la :=
  pteOf_eq_of_tables counted.layout ((counted.isRoot r).mp root) user fun _ =>
    setPage_tables data words

theorem walk_setPage {r la : Nat} (root : r ∈ roots) (user : la < USERTOP) :
    walk (s.setPage p words) r la = walk s r la := by
  refine walk_eq_of_dirs counted.layout ((counted.isRoot r).mp root) user fun q upper i => ?_
  rw [Machine.load, setPage_tables data words]
  · rfl
  · rcases upper with upper | ⟨_, _, upper⟩
    · exact .inl upper
    · exact .inr (by rw [upper]; rfl)

/-- The words of a data page are nobody's entries. -/
theorem setPage_counted : Counted M roots held (s.setPage p words) role where
  layout := counted.layout.of_tables rfl fun _ => setPage_tables data words
  isRoot := counted.isRoot
  count q plain := by
    rw [mappings_congr fun r root la user => pteOf_setPage data words counted root user]
    exact counted.count q plain
  rest := counted.rest

end Contents

/-! ## The effect of the functions on page tables -/

variable (M) in
/-- From `s` to `t` leaf entries may have changed, tables may have been added, and
    exactly the pages `new` were handed to `free_page`, the last one first. -/
structure Edited (roots : Finset Nat) (held : Nat → Nat) (s : Machine σ) (role : Nat → Role)
    (t : Machine σ) (role' : Nat → Role) (new : List Nat) : Prop where
  counted : Counted M roots held t role'
  kept : ∀ p, role p ≠ .free → p ∉ new → role' p = role p
  fresh : ∀ p, role p = .free → role' p = .free ∨ (role' p).inner = true
  gone : ∀ p ∈ new, role p = .data ∧ (role' p = .free ∨ (role' p).inner = true)
  walks : ∀ r ∈ roots, ∀ la < USERTOP, ∀ slot, walk s r la = some slot → walk t r la = some slot
  mem : ∀ p, (role' p).inner = false → role' p ≠ .root → t.mem p = s.mem p
  swapInitOk : t.swapInitOk = s.swapInitOk
  swap : t.swap = s.swap
  frees : t.frees = new ++ s.frees

namespace Edited

variable {role'' : Nat → Role} {new new' : List Nat}

theorem freed (edit : Edited M roots held s role t role' new) (p : Nat) (member : p ∈ new) :
    role p = .data ∧ role' p ≠ .data := by
  obtain ⟨data, free | inner⟩ := edit.gone p member
  · simp [data, free]
  · refine ⟨data, fun still => ?_⟩
    simp [still, Role.inner] at inner

theorem refl (counted : Counted M roots held s role) : Edited M roots held s role s role [] where
  counted := counted
  kept _ _ _ := rfl
  fresh _ free := .inl free
  gone := by simp
  walks _ _ _ _ _ found := found
  mem _ _ _ := rfl
  swapInitOk := rfl
  swap := rfl
  frees := rfl

theorem of_grown (counted : Counted M roots held s role) (grown : Grown M s role t role') :
    Edited M roots held s role t role' [] where
  counted :=
    { layout := grown.layout
      isRoot := fun r => by
        rw [counted.isRoot]
        refine ⟨grown.root_after, fun root => ?_⟩
        rw [grown.role_before (by simp [root]) (by rw [root]; rfl), root]
      count := fun p data => by
        have before : role p = role' p := grown.role_before (by simp [data]) (by rw [data]; rfl)
        rw [grown.ref p (by rw [data]; rfl), counted.count p (before.trans data),
          mappings_congr fun r root la user => grown.leaf r la ((counted.isRoot r).mp root) user]
      rest := fun p free => by
        rw [grown.ref p (by rw [free]; rfl), counted.rest p (grown.free_before free)] }
  kept p used _ := grown.kept p used
  fresh := grown.fresh
  gone := by simp
  walks r root la user slot found :=
    grown.walks counted.layout ((counted.isRoot r).mp root) user found
  mem := grown.mem
  swapInitOk := grown.swapInitOk
  swap := grown.swap
  frees := grown.frees

theorem root_after (edit : Edited M roots held s role t role' new) {r : Nat} (root : role r = .root) :
    role' r = .root := by
  refine (edit.kept r (by simp [root]) fun freed => ?_).trans root
  have data := (edit.freed r freed).1
  rw [root] at data
  cases data

/-- No page becomes data. -/
theorem data_before (edit : Edited M roots held s role t role' new) {p : Nat} (data : role' p = .data) :
    role p = .data := by
  have used : role p ≠ .free := by
    intro free
    rcases edit.fresh p free with free | inner
    · simp [data] at free
    · simp [data, Role.inner] at inner
  exact (edit.kept p used fun freed => (edit.freed p freed).2 data).symm.trans data

theorem trans {held' : Nat → Nat} (first : Edited M roots held s role t role' new)
    (second : Edited M roots held' t role' u role'' new') :
    Edited M roots held' s role u role'' (new' ++ new) where
  counted := second.counted
  kept p used away := by
    rw [List.mem_append, not_or] at away
    have same := first.kept p used away.2
    exact (second.kept p (by rwa [same]) away.1).trans same
  fresh p free := by
    rcases first.fresh p free with free | inner
    · exact second.fresh p free
    · refine .inr ((second.kept p (fun free => ?_) fun freed => ?_) ▸ inner)
      · simp [free, Role.inner] at inner
      · simp [(second.freed p freed).1, Role.inner] at inner
  gone p member := by
    rcases List.mem_append.mp member with later | earlier
    · obtain ⟨data, gone⟩ := second.gone p later
      exact ⟨first.data_before data, gone⟩
    · obtain ⟨data, free | inner⟩ := first.gone p earlier
      · exact ⟨data, second.fresh p free⟩
      · have same := second.kept p (fun free => by simp [free, Role.inner] at inner) fun later => by
          simp [(second.gone p later).1, Role.inner] at inner
        exact ⟨data, .inr (same ▸ inner)⟩
  walks r root la user slot found := second.walks r root la user slot (first.walks r root la user slot found)
  mem p outer noRoot := by
    refine (second.mem p outer noRoot).trans (first.mem p ?_ fun root => noRoot (second.root_after root))
    rw [← Bool.not_eq_true]
    intro inner
    have same := second.kept p (fun free => by simp [free, Role.inner] at inner) fun freed => by
      simp [(second.freed p freed).1, Role.inner] at inner
    rw [same, inner] at outer
    cases outer
  swapInitOk := second.swapInitOk.trans first.swapInitOk
  swap := second.swap.trans first.swap
  frees := by rw [second.frees, first.frees, List.append_assoc]

end Edited

/-! ## `page_remove_pte` -/

/-- Removing a mapping frees the page if it was the last reference. -/
theorem pageRemovePte_spec {r la p : Nat} {slot : Slot} (counted : Counted M roots held s role)
    (root : r ∈ roots) (user : la < USERTOP) (found : walk s r la = some slot)
    (points : target (s.load slot) = some p) :
    ∃ t role', pageRemovePte M slot s = .ok t ∧
      Edited M roots held s role t role'
        (if mappings roots s p = 1 ∧ held p = 0 then [p] else []) ∧
      SetsPte roots s t r la 0 := by
  have isRoot := (counted.isRoot r).mp root
  have data : role p = .data := counted.layout.pte_data isRoot user (pteOf_walk found ▸ points)
  have table := (counted.layout.walk_role isRoot user found).1
  have lt : p < npage := counted.layout.lt p (by simp [data])
  obtain ⟨valid, ppn⟩ := target_some.mp points
  -- the machine with the entry cleared, whatever happens to the page
  generalize hs : s.store slot 0 = cleared
  have leaves : SetsPte roots s cleared r la 0 := hs ▸ setsPte_store counted root user found
  have walks : ∀ r' ∈ roots, ∀ la' < USERTOP, walk cleared r' la' = walk s r' la' :=
    fun r' root' la' user' =>
      hs ▸ walk_store counted.layout isRoot user found ((counted.isRoot r').mp root') user'
  have counts : ∀ q, mappings roots cleared q + (if p = q then 1 else 0) = mappings roots s q := by
    intro q
    simpa [pteOf_walk found, points] using mappings_setsPte leaves root user q
  have here := counts p
  rw [if_pos rfl] at here
  have before := counted.count p data
  -- the reference of the cleared entry is still in the count
  have pending : Counted M roots (Function.update held p (held p + 1)) cleared role := by
    refine hs ▸ counted.store root user found (by simp) fun q => ?_
    by_cases same : q = p
    · subst same
      simp [points]
    · simp [points, same, Ne.symm same]
  have run : pageRemovePte M slot s = .ok ((if s.ref p - 1 = 0 then
      freePage M (s.pageRefDec p) p else s.pageRefDec p).store slot 0) := by
    rw [pageRemovePte, if_pos valid, pte2page, if_pos valid, ppn, pa2page, if_pos lt]
    simp [bind, Except.bind, pure, Except.pure, Machine.pageRefDec, Machine.setPageRef]
  have notRoot : ∀ q, (role q).inner = false → q ≠ slot.page := by
    rintro q outer rfl
    rw [table] at outer
    cases outer
  have mem : ∀ q, (role q).inner = false → cleared.mem q = s.mem q := by
    intro q outer
    rw [← hs]
    exact Function.update_of_ne (notRoot q outer) ..
  by_cases last : mappings roots s p = 1 ∧ held p = 0
  · rw [if_pos (by omega)] at run
    rw [if_pos last]
    generalize ht : (freePage M (s.pageRefDec p) p).store slot 0 = t at run
    have sameMem : t.mem = cleared.mem := by rw [← ht, ← hs]; rfl
    have ref : t.ref = Function.update s.ref p 0 := by
      rw [← ht]
      simp [Machine.store, Machine.setPage, freePage, Machine.setPageRef, Machine.pageRefDec]
    have wasUsed : ¬M.Free s.pmm p := by simp [counted.layout.free, data]
    have nowFree : ∀ q, M.Free t.pmm q ↔ Function.update role p .free q = .free := by
      intro q
      rw [show t.pmm = M.freePage s.pmm p by rw [← ht]; rfl, M.free_page lt wasUsed,
        counted.layout.free, Function.update_apply]
      split <;> simp [*]
    have layout' : Layout M t (Function.update role p .free) :=
      pending.layout.retag (fun q i _ => by rw [Machine.load, sameMem]; rfl) nowFree (.inr (.inl data))
        (.inl rfl) lt (pending.unmapped data (by omega))
    refine ⟨t, _, run, ⟨⟨layout', fun r' => ?_, fun q plain => ?_, fun q free => ?_⟩,
      fun q used away => ?_, fun q free => ?_, fun q member => ?_, fun r' root' la' user' slot' => ?_,
      fun q outer _ => ?_, ?_, ?_, ?_⟩, fun r' root' la' user' => ?_⟩
    · rw [counted.isRoot, Function.update_apply]
      split
      · rename_i same
        simp [same, data]
      · rfl
    · have other : q ≠ p := by
        rintro rfl
        simp at plain
      rw [Function.update_of_ne other] at plain
      rw [ref, Function.update_of_ne other, counted.count q plain, ← counts q,
        mappings_congr (s := cleared) (t := t) fun _ _ _ _ => pteOf_of_eq sameMem]
      simp [Ne.symm other]
    · rw [ref, Function.update_apply]
      split
      · rfl
      · rename_i other
        rw [Function.update_of_ne other] at free
        exact counted.rest q free
    · exact Function.update_of_ne (by simpa using away) ..
    · refine .inl ?_
      rw [Function.update_apply]
      split <;> simp [free]
    · obtain rfl : q = p := by simpa using member
      simp [data]
    · rw [walk_of_eq sameMem, walks r' root' la' user']
      exact id
    · rw [sameMem]
      refine mem q ?_
      rw [Function.update_apply] at outer
      split at outer
      · rename_i same
        simp [same, data, Role.inner]
      · exact outer
    · rw [← ht]; rfl
    · rw [← ht]; rfl
    · rw [← ht]; rfl
    · rw [pteOf_of_eq sameMem]
      exact leaves r' root' la' user'
  · rw [if_neg (by omega)] at run
    rw [if_neg last]
    generalize ht : (s.pageRefDec p).store slot 0 = t at run
    have sameMem : t.mem = cleared.mem := by rw [← ht, ← hs]; rfl
    have ref : t.ref = Function.update s.ref p (s.ref p - 1) := by rw [← ht]; rfl
    have samePmm : t.pmm = cleared.pmm := by rw [← ht, ← hs]; rfl
    refine ⟨t, role, run, ⟨⟨pending.layout.of_eq sameMem samePmm, counted.isRoot, fun q plain => ?_,
      fun q free => ?_⟩, fun _ _ _ => rfl, fun _ free => .inl free, by simp,
      fun r' root' la' user' slot' => ?_, fun q outer _ => ?_, ?_, ?_, ?_⟩, fun r' root' la' user' => ?_⟩
    · rw [ref, Function.update_apply,
        mappings_congr (s := cleared) (t := t) fun _ _ _ _ => pteOf_of_eq sameMem]
      have total := counted.count q plain
      have step := counts q
      split
      · rename_i same
        subst same
        omega
      · rename_i other
        rw [if_neg (Ne.symm other)] at step
        omega
    · rw [ref, Function.update_of_ne (by rintro rfl; simp [free] at data)]
      exact counted.rest q free
    · rw [walk_of_eq sameMem, walks r' root' la' user']
      exact id
    · rw [sameMem]
      exact mem q outer
    · rw [← ht]; rfl
    · rw [← ht]; rfl
    · rw [← ht]; rfl
    · rw [pteOf_of_eq sameMem]
      exact leaves r' root' la' user'

/-! ## `page_insert` -/

/-- A store to a leaf entry by itself is an edit. -/
theorem Edited.store {held' : Nat → Nat} {r la w : Nat} {slot : Slot}
    (counted : Counted M roots held s role) (root : r ∈ roots) (user : la < USERTOP)
    (found : walk s r la = some slot) (maps : ∀ q, target w = some q → role q = .data)
    (balance : ∀ p, held' p + (if target w = some p then 1 else 0) =
      held p + (if target (s.load slot) = some p then 1 else 0)) :
    Edited M roots held' s role (s.store slot w) role [] where
  counted := counted.store root user found maps balance
  kept _ _ _ := rfl
  fresh _ free := .inl free
  gone := by simp
  walks r' root' la' user' slot' found' := by
    rwa [walk_store counted.layout ((counted.isRoot r).mp root) user found
      ((counted.isRoot r').mp root') user']
  mem p outer _ := by
    refine Function.update_of_ne ?_ ..
    rintro rfl
    rw [(counted.layout.walk_role ((counted.isRoot r).mp root) user found).1] at outer
    cases outer
  swapInitOk := rfl
  swap := rfl
  frees := rfl

theorem Edited.refInc (counted : Counted M roots held s role) {p : Nat} (data : role p = .data) :
    Edited M roots (Function.update held p (held p + 1)) s role (s.pageRefInc p) role [] where
  counted := counted.refInc data
  kept _ _ _ := rfl
  fresh _ free := .inl free
  gone := by simp
  walks _ _ _ _ _ found := found
  mem _ _ _ := rfl
  swapInitOk := rfl
  swap := rfl
  frees := rfl

/-- The pages that the mapping of `page` at `la` pushes out. -/
def pushedOut (roots : Finset Nat) (held : Nat → Nat) (s : Machine σ) (r page la : Nat) : List Nat :=
  match target (pteOf s r la) with
  | some p => if p ≠ page ∧ mappings roots s p = 1 ∧ held p = 0 then [p] else []
  | none => []

theorem pageInsert_spec {r page la perm : Nat} (counted : Counted M roots held s role)
    (root : r ∈ roots) (user : la < USERTOP) (data : role page = .data) (small : perm < 1024) :
    (pageInsert M r page la perm s = .error .panic ∧ s.swapInitOk = true ∧ walk s r la = none) ∨
    (∃ t role', pageInsert M r page la perm s = .ok (-E_NO_MEM, t) ∧ walk s r la = none ∧
      Edited M roots held s role t role' [] ∧
      ∀ r' ∈ roots, ∀ la' < USERTOP, pteOf t r' la' = pteOf s r' la') ∨
    ∃ t role', pageInsert M r page la perm s = .ok (0, t) ∧
      Edited M roots held s role t role' (pushedOut roots held s r page la) ∧
      SetsPte roots s t r la (pteCreate page (PTE_V ||| perm)) ∧ ∃ slot, walk t r la = some slot := by
  have isRoot := (counted.isRoot r).mp root
  rcases getPte_create counted.layout isRoot user with
    ⟨stops, swapping⟩ | ⟨found, u, role', run, grown, -, points⟩
  · refine .inl ⟨?_, swapping, Option.eq_none_iff_forall_not_mem.mpr fun slot found => ?_⟩
    · rw [pageInsert, stops]
      rfl
    · rw [getPte_found counted.layout isRoot user found] at stops
      cases stops
  have edit := Edited.of_grown counted grown
  have leaf : ∀ r' ∈ roots, ∀ la' < USERTOP, pteOf u r' la' = pteOf s r' la' :=
    fun r' root' la' user' => grown.leaf r' la' ((counted.isRoot r').mp root') user'
  cases found with
  | none =>
      refine .inr (.inl ⟨u, role', ?_, Option.eq_none_iff_forall_not_mem.mpr fun slot found => ?_,
        edit, leaf⟩)
      · rw [pageInsert, run]
        rfl
      · rw [getPte_found counted.layout isRoot user found] at run
        simp at run
  | some slot =>
      refine .inr (.inr ?_)
      have found := points slot rfl
      have data' : role' page = .data := (edit.kept page (by simp [data]) (by simp)).trans data
      have bump := Edited.refInc edit.counted data'
      have entry : target (pteCreate page (PTE_V ||| perm)) = some page :=
        target_pteCreate (Nat.or_lt_two_pow (n := 10) (by decide) small)
      have before : pteOf s r la = u.load slot := by rw [← leaf r root la user, pteOf_walk found]
      have still : walk (u.pageRefInc page) r la = some slot := found
      generalize hw : pteCreate page (PTE_V ||| perm) = w at *
      have maps : ∀ {role'' : Nat → Role}, role'' page = .data → ∀ q, target w = some q →
          role'' q = .data := by
        intro role'' isData q points
        rw [entry] at points
        exact Option.some.inj points ▸ isData
      rw [pushedOut, before, pageInsert, run]
      cases old : target (u.load slot) with
      | none =>
          have invalid : ¬isValid ((u.pageRefInc page).load slot) = true := by
            simp [target_none.mp old, show (u.pageRefInc page).load slot = u.load slot from rfl]
          have last : Edited M roots held (u.pageRefInc page) role'
              ((u.pageRefInc page).store slot w) role' [] := by
            refine .store bump.counted root user still (maps data') fun q => ?_
            have absent : target ((u.pageRefInc page).load slot) = none := old
            rw [entry, absent]
            by_cases same : q = page
            · subst same
              simp
            · simp [same, Ne.symm same]
          refine ⟨_, role', ?_, edit.trans (bump.trans last), ?_, slot, ?_⟩
          · simp only [bind, Except.bind, if_neg invalid, hw]
            rfl
          · exact (setsPte_store bump.counted root user still).after leaf
          · rw [walk_store bump.counted.layout ((bump.counted.isRoot r).mp root) user still
              ((bump.counted.isRoot r).mp root) user, still]
      | some p =>
          have valid : isValid ((u.pageRefInc page).load slot) = true := (target_some.mp old).1
          have dataP : role' p = .data :=
            grown.layout.pte_data (grown.root_after isRoot) user (pteOf_walk found ▸ old)
          have ppn : pte2page ((u.pageRefInc page).load slot) = .ok p := by
            rw [pte2page, if_pos valid, pa2page, show ptePpn ((u.pageRefInc page).load slot) = p from
              (target_some.mp old).2, if_pos (grown.layout.lt p (by simp [dataP]))]
          by_cases same : p = page
          · -- the same page again: the two changes of its count cancel
            subst same
            have back : (u.pageRefInc p).pageRefDec p = u := by
              simp [Machine.pageRefInc, Machine.pageRefDec, Machine.setPageRef]
            have last : Edited M roots held u role' (u.store slot w) role' [] :=
              .store edit.counted root user found (maps data') fun q => by rw [entry, old]
            refine ⟨u.store slot w, role', ?_, ?_, ?_, slot, ?_⟩
            · simp only [bind, Except.bind, if_pos valid, hw, ppn, if_pos, back]
              rfl
            · simpa using edit.trans last
            · exact (setsPte_store edit.counted root user found).after leaf
            · rw [walk_store grown.layout (grown.root_after isRoot) user found
                (grown.root_after isRoot) user, found]
          · obtain ⟨v, role'', removal, gone, cleared⟩ :=
              pageRemovePte_spec bump.counted root user still old
            have count : mappings roots (u.pageRefInc page) p = mappings roots s p :=
              mappings_congr leaf p
            rw [count, Function.update_of_ne same] at gone
            have found' : walk v r la = some slot := gone.walks r root la user slot still
            have empty : target (v.load slot) = none := by
              rw [← pteOf_walk found', cleared r root la user, if_pos ⟨rfl, rfl⟩, target_zero]
            have data'' : role'' page = .data := by
              refine (gone.kept page (by simp [data']) ?_).trans data'
              split <;> simp [Ne.symm same]
            have last : Edited M roots held v role'' (v.store slot w) role'' [] := by
              refine .store gone.counted root user found' (maps data'') fun q => ?_
              rw [entry, empty]
              by_cases here : q = page
              · subst here
                simp
              · simp [here, Ne.symm here]
            refine ⟨v.store slot w, role'', ?_, ?_, ?_, slot, ?_⟩
            · simp only [bind, Except.bind, if_pos valid, hw, ppn, if_neg same, removal]
              rfl
            · simpa [same] using edit.trans (bump.trans (gone.trans last))
            · exact (cleared.after leaf).trans (setsPte_store gone.counted root user found')
            · have rootV := (gone.counted.isRoot r).mp root
              rw [walk_store gone.counted.layout rootV user found' rootV user, found']

/-! ## Pages from and to the allocator -/

namespace Counted

variable (counted : Counted M roots held s role) {p : Nat} {pmm : σ}
include counted

theorem mappings_eq_zero (notData : role p ≠ .data) : mappings roots s p = 0 := by
  refine mappings_eq_zero_iff.mpr fun r root v inside maps => notData ?_
  exact counted.layout.pte_data ((counted.isRoot r).mp root) (user_of_lt inside) maps

theorem refused (given : M.allocPage s.pmm = (none, pmm)) :
    Counted M roots held { s with pmm := pmm } role where
  layout := (grown_refused counted.layout given).layout
  isRoot := counted.isRoot
  count := counted.count
  rest := counted.rest

theorem free_of_given (given : M.allocPage s.pmm = (some p, pmm)) : role p = .free :=
  (counted.layout.free p).mp (M.alloc_some given).1

/-- A page is taken for user data. -/
theorem takeData (given : M.allocPage s.pmm = (some p, pmm)) (unheld : held p = 0) :
    Counted M roots held { s with pmm := pmm } (Function.update role p .data) where
  layout := by
    have free := counted.free_of_given given
    refine counted.layout.retag (fun _ _ _ => rfl) (fun q => ?_) (.inl free) (.inr (.inl rfl))
      (M.free_lt (M.alloc_some given).1) fun q i child place points => ?_
    · rw [(M.alloc_some given).2, counted.layout.free, Function.update_apply]
      split <;> simp [*]
    · exact place.ne_free.2 ((counted.layout.entry q i child p place points).symm.trans free)
  isRoot r := by
    rw [counted.isRoot, Function.update_apply]
    split
    · rename_i same
      simp [same, counted.free_of_given given]
    · rfl
  count q data := by
    by_cases here : q = p
    · subst here
      have free := counted.free_of_given given
      have absent : mappings roots { s with pmm := pmm } q = 0 :=
        counted.mappings_eq_zero (by simp [free])
      rw [absent, unheld]
      exact counted.rest q free
    · rw [Function.update_of_ne here] at data
      exact counted.count q data
  rest q free := by
    have here : q ≠ p := by
      rintro rfl
      simp at free
    rw [Function.update_of_ne here] at free
    exact counted.rest q free

/-- An unmapped user page is handed back. -/
theorem giveBack (data : role p = .data) (unmapped : mappings roots s p = 0) :
    Counted M roots held (freePage M s p) (Function.update role p .free) where
  layout := by
    refine counted.layout.retag (fun _ _ _ => rfl) (fun q => ?_) (.inr (.inl data)) (.inl rfl)
      (counted.layout.lt p (by simp [data])) (counted.unmapped data unmapped)
    rw [show (freePage M s p).pmm = M.freePage s.pmm p from rfl,
      M.free_page (counted.layout.lt p (by simp [data])) (by simp [counted.layout.free, data]),
      counted.layout.free, Function.update_apply]
    split <;> simp [*]
  isRoot r := by
    rw [counted.isRoot, Function.update_apply]
    split
    · rename_i same
      simp [same, data]
    · rfl
  count q plain := by
    have here : q ≠ p := by
      rintro rfl
      simp at plain
    rw [Function.update_of_ne here] at plain
    exact (Function.update_of_ne here ..).trans (counted.count q plain)
  rest q free := by
    by_cases here : q = p
    · exact here ▸ Function.update_self ..
    · rw [Function.update_of_ne here] at free
      exact (Function.update_of_ne here ..).trans (counted.rest q free)

/-- A fresh page becomes a root that maps nothing. -/
theorem newRoot (given : M.allocPage s.pmm = (some p, pmm)) {words : Nat → Nat}
    (empty : ∀ i < 2, target (words i) = none) :
    (∀ r ∈ insert p roots, ∀ la < USERTOP, pteOf ({ s with pmm := pmm }.setPage p words) r la =
      if r = p then 0 else pteOf s r la) ∧
    (∀ q, mappings (insert p roots) ({ s with pmm := pmm }.setPage p words) q = mappings roots s q) ∧
    Counted M (insert p roots) held ({ s with pmm := pmm }.setPage p words)
      (Function.update role p .root) := by
  have free := counted.free_of_given given
  generalize ht : ({ s with pmm := pmm } : Machine σ).setPage p words = t
  have mem : ∀ q, q ≠ p → t.mem q = s.mem q := fun q other => by
    rw [← ht]
    exact Function.update_of_ne other ..
  have here : ∀ i, t.load ⟨p, i⟩ = words i := fun i => by
    rw [← ht]
    simp [Machine.load, Machine.setPage]
  have leaf : ∀ r ∈ insert p roots, ∀ la < USERTOP, pteOf t r la =
      if r = p then 0 else pteOf s r la := by
    intro r root la user
    split
    · rename_i same
      subst same
      rw [pteOf, walk, here, empty _ (pdx1_lt_of_user user)]
      rfl
    · rename_i other
      have isRoot := (counted.isRoot r).mp (by simpa [other] using root)
      refine pteOf_eq_of_tables counted.layout isRoot user fun q upper => mem q ?_
      rintro rfl
      simp [free, Role.inner] at upper
  have counts : ∀ q, mappings (insert p roots) t q = mappings roots s q := by
    intro q
    have absent : ∀ place ∈ ({p} : Finset Nat) ×ˢ Finset.range userPages, mappedAt t place ≠ some q := by
      intro place inside
      simp only [Finset.mem_product, Finset.mem_singleton, Finset.mem_range] at inside
      rw [mappedAt, leaf _ (by simp [inside.1]) _ (user_of_lt inside.2), if_pos inside.1]
      simp
    have split : places (insert p roots) = places roots ∪ {p} ×ˢ Finset.range userPages := by
      rw [places, places, ← Finset.union_product, Finset.insert_eq, Finset.union_comm]
    have same : mappings roots t q = mappings roots s q := by
      refine mappings_congr (fun r root la user => ?_) q
      rw [leaf r (by simp [root]) la user, if_neg]
      rintro rfl
      rw [counted.isRoot, free] at root
      cases root
    rw [mappings, split, tally_union absent]
    exact same
  refine ⟨leaf, counts, counted.layout.newRoot free (M.free_lt (M.alloc_some given).1) mem
    (fun i inside => (here i).symm ▸ empty i inside) (fun q => ?_), fun r => ?_, fun q data => ?_,
    fun q isFree => ?_⟩
  · rw [← ht, show (({ s with pmm := pmm } : Machine σ).setPage p words).pmm = pmm from rfl,
      (M.alloc_some given).2, counted.layout.free, Function.update_apply]
    split <;> simp [*]
  · rw [Finset.mem_insert, counted.isRoot, Function.update_apply]
    split <;> simp [*]
  · have other : q ≠ p := by
      rintro rfl
      simp at data
    rw [Function.update_of_ne other] at data
    rw [counts, ← counted.count q data, ← ht]
    rfl
  · have other : q ≠ p := by
      rintro rfl
      simp at isFree
    rw [Function.update_of_ne other] at isFree
    rw [← counted.rest q isFree, ← ht]
    rfl

end Counted

end Ucore.Mm.PageRefs
