import Ucore.Mm.Pmm

/-! # The shape of the page tables

Every page has one role: free, a root, a second-level directory or a table at one
place below one root, a user data page, or anything else. The roles are not stored
anywhere; that they can be assigned consistently is what keeps two page tables
from sharing a table, and a table from being taken for data.
-/

namespace Ucore.Mm.PageTables

open Libs.Assert Mmu Pmm

inductive Role where
  | free
  | root
  | dir (root d1 : Nat)
  | table (root d1 d0 : Nat)
  | data
  | other
  deriving DecidableEq, Repr

/-- `Child page role i child`: what entry `i` of `page`, which has the role `role`,
    points to when it is valid. Only the user half of a root is looked at. -/
inductive Child (page : Nat) : Role → Nat → Role → Prop where
  | dir {i : Nat} (inside : i < 2) : Child page .root i (.dir page i)
  | table {i r d1 : Nat} (inside : i < 512) : Child page (.dir r d1) i (.table r d1 i)
  | data {i r d1 d0 : Nat} (inside : i < 512) : Child page (.table r d1 d0) i .data

/-- A page below a root that is full of entries. -/
def Role.inner : Role → Bool
  | .dir _ _ => true
  | .table _ _ _ => true
  | _ => false

variable {σ : Type} {M : PmmManager σ} {s t : Machine σ} {role role' : Nat → Role}

/-- The page a valid entry points to. -/
def target (w : Nat) : Option Nat := if isValid w then some (ptePpn w) else none

/-- The entry for `la` below the root `r`, as `get_pte` finds it without creating. -/
def walk (s : Machine σ) (r la : Nat) : Option Slot :=
  (target (s.load ⟨r, pdx1 la⟩)).bind fun pd0 =>
    (target (s.load ⟨pd0, pdx0 la⟩)).map fun pt => ⟨pt, ptx la⟩

/-- The leaf entry for `la`, zero where there is no table. -/
def pteOf (s : Machine σ) (r la : Nat) : Nat :=
  match walk s r la with
  | some slot => s.load slot
  | none => 0

variable (M) in
/-- The roles fit the allocator, and the entries: each points to a page of the right
    role, and each inner page is pointed to from its one place. -/
structure Layout (s : Machine σ) (role : Nat → Role) : Prop where
  free : ∀ p, M.Free s.pmm p ↔ role p = .free
  lt : ∀ p, role p ≠ .other → p < npage
  entry : ∀ p i child q, Child p (role p) i child → target (s.load ⟨p, i⟩) = some q →
    role q = child
  link : ∀ q, (role q).inner = true →
    ∃ p i, Child p (role p) i (role q) ∧ target (s.load ⟨p, i⟩) = some q

/-- The layout depends on the allocator and on the roots, directories and tables. -/
theorem Layout.of_tables (layout : Layout M s role) (pmm : t.pmm = s.pmm)
    (mem : ∀ q, role q = .root ∨ (role q).inner = true → t.mem q = s.mem q) : Layout M t role := by
  have load : ∀ {q i child}, Child q (role q) i child → t.load ⟨q, i⟩ = s.load ⟨q, i⟩ := by
    intro q i child place
    have upper : role q = .root ∨ (role q).inner = true := by
      generalize role q = upperRole at place
      cases place <;> simp [Role.inner]
    rw [Machine.load, mem q upper]
    rfl
  refine ⟨fun p => by rw [pmm]; exact layout.free p, layout.lt, fun p i child q place points => ?_,
    fun q inner => ?_⟩
  · rw [load place] at points
    exact layout.entry p i child q place points
  · obtain ⟨p, i, place, points⟩ := layout.link q inner
    exact ⟨p, i, place, by rwa [load place]⟩

theorem Layout.of_eq (layout : Layout M s role) (mem : t.mem = s.mem) (pmm : t.pmm = s.pmm) :
    Layout M t role :=
  layout.of_tables pmm fun _ _ => by rw [mem]

theorem walk_of_eq {r la : Nat} (mem : t.mem = s.mem) : walk t r la = walk s r la := by
  have load : ∀ slot, t.load slot = s.load slot := fun slot => by rw [Machine.load, mem]; rfl
  simp only [walk, load]

theorem pteOf_of_eq {r la : Nat} (mem : t.mem = s.mem) : pteOf t r la = pteOf s r la := by
  have load : ∀ slot, t.load slot = s.load slot := fun slot => by rw [Machine.load, mem]; rfl
  simp only [pteOf, walk_of_eq mem, load]

/-! ## Entries -/

theorem target_some {w q : Nat} : target w = some q ↔ isValid w = true ∧ ptePpn w = q := by
  unfold target
  split <;> simp [*]

theorem target_none {w : Nat} : target w = none ↔ isValid w = false := by
  unfold target
  split <;> simp [*]

@[simp] theorem target_zero : target 0 = none := target_none.mpr isValid_zero

theorem target_pteCreate {ppn type : Nat} (small : type < 1024) :
    target (pteCreate ppn type) = some ppn :=
  target_some.mpr ⟨isValid_pteCreate .., ptePpn_pteCreate small⟩

theorem Child.unique {page i : Nat} {role child child' : Role} (h : Child page role i child)
    (h' : Child page role i child') : child = child' := by
  cases h <;> cases h' <;> rfl

theorem Child.ne_free {page i : Nat} {role child : Role} (h : Child page role i child) :
    role ≠ .free ∧ child ≠ .free := by
  cases h <;> simp

/-! ## Walking -/

/-- The two steps of a successful walk. -/
theorem walk_some {r la : Nat} {slot : Slot} : walk s r la = some slot ↔
    ∃ pd0, target (s.load ⟨r, pdx1 la⟩) = some pd0 ∧
      target (s.load ⟨pd0, pdx0 la⟩) = some slot.page ∧ slot.index = ptx la := by
  simp only [walk, Option.bind_eq_some_iff, Option.map_eq_some_iff]
  constructor
  · rintro ⟨pd0, first, pt, second, rfl⟩
    exact ⟨pd0, first, second, rfl⟩
  · rintro ⟨pd0, first, second, index⟩
    exact ⟨pd0, first, slot.page, second, by rw [← index]⟩

theorem walk_congr {r la : Nat} (samePage : la / PGSIZE = la' / PGSIZE) :
    walk s r la = walk s r la' := by
  obtain ⟨first, second, third⟩ := indices_of_samePage samePage
  rw [walk, walk, first, second, third]

namespace Layout

variable (layout : Layout M s role) {r la : Nat} {slot : Slot}
include layout

theorem walk_dir (root : role r = .root) (user : la < USERTOP) {pd0 : Nat}
    (first : target (s.load ⟨r, pdx1 la⟩) = some pd0) : role pd0 = .dir r (pdx1 la) :=
  layout.entry r _ _ pd0 (root ▸ .dir (pdx1_lt_of_user user)) first

theorem walk_table {r d1 d0 pd0 pt : Nat} (dir : role pd0 = .dir r d1) (inside : d0 < 512)
    (second : target (s.load ⟨pd0, d0⟩) = some pt) : role pt = .table r d1 d0 :=
  layout.entry pd0 _ _ pt (dir ▸ .table inside) second

/-- The page and the index of a leaf entry tell its root and its address. -/
theorem walk_role (root : role r = .root) (user : la < USERTOP) (found : walk s r la = some slot) :
    role slot.page = .table r (pdx1 la) (pdx0 la) ∧ slot.index = ptx la := by
  obtain ⟨pd0, first, second, index⟩ := walk_some.mp found
  exact ⟨layout.walk_table (layout.walk_dir root user first) (pdx0_lt la) second, index⟩

theorem walk_injective {r' la' : Nat} (root : role r = .root) (root' : role r' = .root)
    (user : la < USERTOP) (user' : la' < USERTOP) (found : walk s r la = some slot)
    (found' : walk s r' la' = some slot) : r = r' ∧ la / PGSIZE = la' / PGSIZE := by
  obtain ⟨table, index⟩ := layout.walk_role root user found
  obtain ⟨table', index'⟩ := layout.walk_role root' user' found'
  rw [table] at table'
  simp only [Role.table.injEq] at table'
  exact ⟨table'.1, samePage_of_indices user user' table'.2.1 table'.2.2 (index.symm.trans index')⟩

/-- A leaf entry that is valid maps a data page. -/
theorem pte_data (root : role r = .root) (user : la < USERTOP) {p : Nat}
    (maps : target (pteOf s r la) = some p) : role p = .data := by
  unfold pteOf at maps
  split at maps
  · rename_i slot found
    obtain ⟨table, index⟩ := layout.walk_role root user found
    exact layout.entry slot.page slot.index _ p (table ▸ .data (index ▸ ptx_lt la)) maps
  · simp at maps

/-- Every entry of a table is the leaf entry for some address. -/
theorem table_walk {pt d1 d0 i : Nat} (table : role pt = .table r d1 d0) (inside : i < 512) :
    ∃ la < USERTOP, role r = .root ∧ walk s r la = some ⟨pt, i⟩ := by
  obtain ⟨pd0, j, child, second⟩ := layout.link pt (by simp [table, Role.inner])
  rw [table] at child
  generalize up : role pd0 = dirRole at child
  cases child with
  | table inDir =>
      obtain ⟨root, k, child, first⟩ := layout.link pd0 (by simp [up, Role.inner])
      rw [up] at child
      generalize top : role root = rootRole at child
      cases child with
      | dir inRoot =>
          refine ⟨d1 * PDSIZE + d0 * PTSIZE + i * PGSIZE, ?_, top, walk_some.mpr ⟨pd0, ?_, ?_, ?_⟩⟩
          · simp only [PDSIZE, PTSIZE, PGSIZE, USERTOP]
            omega
          · rw [show pdx1 (d1 * PDSIZE + d0 * PTSIZE + i * PGSIZE) = d1 by
              simp only [pdx1, PDSIZE, PTSIZE, PGSIZE]; omega]
            exact first
          · rw [show pdx0 (d1 * PDSIZE + d0 * PTSIZE + i * PGSIZE) = d0 by
              simp only [pdx0, PDSIZE, PTSIZE, PGSIZE]; omega]
            exact second
          · simp only [ptx, PDSIZE, PTSIZE, PGSIZE]
            omega

end Layout

/-! ## Stores to leaf entries -/

@[simp] theorem load_store (s : Machine σ) (slot slot' : Slot) (w : Nat) :
    (s.store slot w).load slot' = if slot' = slot then w else s.load slot' := by
  obtain ⟨p, i⟩ := slot
  obtain ⟨p', i'⟩ := slot'
  simp only [Machine.store, Machine.load, Machine.setPage, Slot.mk.injEq]
  by_cases page : p' = p
  · subst page
    by_cases index : i' = i <;> simp [index]
  · simp [page]

/-- Two machines whose directories agree walk alike. -/
theorem walk_eq_of_dirs {r la : Nat} (layout : Layout M s role) (root : role r = .root)
    (user : la < USERTOP)
    (same : ∀ p, role p = .root ∨ (∃ r d1, role p = .dir r d1) → ∀ i, t.load ⟨p, i⟩ = s.load ⟨p, i⟩) :
    walk t r la = walk s r la := by
  unfold walk
  rw [same r (.inl root)]
  cases first : target (s.load ⟨r, pdx1 la⟩) with
  | none => rfl
  | some pd0 =>
      simp only [Option.bind_some]
      rw [same pd0 (.inr ⟨_, _, layout.walk_dir root user first⟩)]

theorem pteOf_eq_of_tables {r la : Nat} (layout : Layout M s role) (root : role r = .root)
    (user : la < USERTOP)
    (same : ∀ p, role p = .root ∨ (role p).inner = true → t.mem p = s.mem p) :
    pteOf t r la = pteOf s r la := by
  have walks : walk t r la = walk s r la := by
    refine walk_eq_of_dirs layout root user fun p upper i => ?_
    rw [Machine.load, same p]
    · rfl
    · rcases upper with upper | ⟨_, _, upper⟩
      · exact .inl upper
      · exact .inr (by rw [upper]; rfl)
  unfold pteOf
  rw [walks]
  split
  · rename_i slot found
    have table := (layout.walk_role root user found).1
    rw [Machine.load, same _ (.inr (by rw [table]; rfl))]
    rfl
  · rfl

section StoreLeaf

variable {r la w : Nat} {slot : Slot} (layout : Layout M s role) (root : role r = .root)
  (user : la < USERTOP) (found : walk s r la = some slot)
include layout root user found

theorem walk_store {r' la' : Nat} (root' : role r' = .root) (user' : la' < USERTOP) :
    walk (s.store slot w) r' la' = walk s r' la' := by
  have table := (layout.walk_role root user found).1
  refine walk_eq_of_dirs layout root' user' fun p upper i => ?_
  have away : (⟨p, i⟩ : Slot) ≠ slot := by
    rintro rfl
    rcases upper with upper | ⟨_, _, upper⟩ <;> rw [upper] at table <;> cases table
  rw [load_store, if_neg away]

theorem pteOf_store {r' la' : Nat} (root' : role r' = .root) (user' : la' < USERTOP) :
    pteOf (s.store slot w) r' la' =
      if r' = r ∧ la' / PGSIZE = la / PGSIZE then w else pteOf s r' la' := by
  unfold pteOf
  rw [walk_store layout root user found root' user']
  split
  · rename_i slot' found'
    rw [load_store]
    by_cases same : slot' = slot
    · subst same
      rw [if_pos rfl, if_pos (layout.walk_injective root' root user' user found' found)]
    · rw [if_neg same, if_neg]
      rintro ⟨rfl, page⟩
      rw [walk_congr page, found] at found'
      exact same (Option.some.inj found').symm
  · rename_i missing
    rw [if_neg]
    rintro ⟨rfl, page⟩
    rw [walk_congr page, found] at missing
    cases missing

theorem Layout.store (maps : ∀ q, target w = some q → role q = .data) :
    Layout M (s.store slot w) role := by
  obtain ⟨table, index⟩ := layout.walk_role root user found
  refine ⟨layout.free, layout.lt, fun p i child q place points => ?_, fun q inner => ?_⟩
  · rw [load_store] at points
    split at points
    · rename_i here
      subst here
      rw [table] at place
      cases place
      exact maps q points
    · exact layout.entry p i child q place points
  · obtain ⟨p, i, place, points⟩ := layout.link q inner
    refine ⟨p, i, place, ?_⟩
    rw [load_store, if_neg]
    · exact points
    · rintro rfl
      rw [table] at place
      generalize role q = inside at *
      cases place
      simp [Role.inner] at inner

end StoreLeaf

/-! ## Pages that change hands -/

/-- A page that is no part of a page table, before or after, may change its role
    when no entry points to it. -/
theorem Layout.retag {p : Nat} {new : Role} (layout : Layout M s role)
    (mem : ∀ q i, role q ≠ role p → t.load ⟨q, i⟩ = s.load ⟨q, i⟩)
    (free : ∀ q, M.Free t.pmm q ↔ Function.update role p new q = .free)
    (outside : role p = .free ∨ role p = .data ∨ role p = .other)
    (plain : new = .free ∨ new = .data ∨ new = .other) (lt : p < npage)
    (unmapped : ∀ q i child, Child q (role q) i child → target (s.load ⟨q, i⟩) ≠ some p) :
    Layout M t (Function.update role p new) := by
  have leaf : ∀ i child, ¬Child p new i child := by
    rintro i child place
    rcases plain with rfl | rfl | rfl <;> cases place
  have away : ∀ q i child, Child q (role q) i child → role q ≠ role p := by
    intro q i child place same
    rw [same] at place
    rcases outside with plain | plain | plain <;> rw [plain] at place <;> cases place
  refine ⟨free, fun q named => ?_, fun q i child c place points => ?_, fun q inner => ?_⟩
  · by_cases here : q = p
    · exact here ▸ lt
    · exact layout.lt q (by simpa [here] using named)
  · by_cases here : q = p
    · subst here
      simp only [Function.update_self] at place
      exact absurd place (leaf i child)
    · rw [Function.update_of_ne here] at place
      rw [mem q i (away q i child place)] at points
      have elsewhere : c ≠ p := fun same => unmapped q i child place (same ▸ points)
      rw [Function.update_of_ne elsewhere]
      exact layout.entry q i child c place points
  · by_cases here : q = p
    · subst here
      simp only [Function.update_self] at inner
      rcases plain with rfl | rfl | rfl <;> simp [Role.inner] at inner
    · rw [Function.update_of_ne here] at inner ⊢
      obtain ⟨c, i, place, points⟩ := layout.link q inner
      have up : c ≠ p := fun same => away c i _ place (congrArg role same)
      refine ⟨c, i, ?_, ?_⟩
      · rwa [Function.update_of_ne up]
      · rwa [mem c i (away c i _ place)]

/-- A free page whose user half is empty becomes a root. -/
theorem Layout.newRoot {p : Nat} (layout : Layout M s role) (free : role p = .free) (lt : p < npage)
    (mem : ∀ q, q ≠ p → t.mem q = s.mem q) (empty : ∀ i < 2, target (t.load ⟨p, i⟩) = none)
    (taken : ∀ q, M.Free t.pmm q ↔ Function.update role p .root q = .free) :
    Layout M t (Function.update role p .root) := by
  have load : ∀ q i, q ≠ p → t.load ⟨q, i⟩ = s.load ⟨q, i⟩ := fun q i other => by
    rw [Machine.load, mem q other]
    rfl
  refine ⟨taken, fun q named => ?_, fun q i child c place points => ?_, fun q inner => ?_⟩
  · by_cases here : q = p
    · exact here ▸ lt
    · exact layout.lt q (by simpa [here] using named)
  · by_cases here : q = p
    · subst here
      rw [Function.update_self] at place
      cases place with
      | dir inside =>
          rw [empty i inside] at points
          cases points
    · rw [Function.update_of_ne here] at place
      rw [load q i here] at points
      have role_c := layout.entry q i child c place points
      have other : c ≠ p := fun same => place.ne_free.2 (role_c.symm.trans (same ▸ free))
      rwa [Function.update_of_ne other]
  · by_cases here : q = p
    · subst here
      rw [Function.update_self] at inner
      cases inner
    · rw [Function.update_of_ne here] at inner ⊢
      obtain ⟨c, i, place, points⟩ := layout.link q inner
      have other : c ≠ p := fun same => place.ne_free.1 (same ▸ free)
      exact ⟨c, i, by rwa [Function.update_of_ne other], by rwa [load c i other]⟩

/-! ## `get_pte` -/

variable (M) in
/-- What creating tables may do: free pages become inner pages, full of invalid
    entries, and nothing else is touched but the entries that point to them. -/
structure Grown (s : Machine σ) (role : Nat → Role) (t : Machine σ) (role' : Nat → Role) : Prop where
  layout : Layout M t role'
  kept : ∀ p, role p ≠ .free → role' p = role p
  fresh : ∀ p, role p = .free → role' p = .free ∨ (role' p).inner = true
  known : ∀ slot q, role slot.page ≠ .free → target (s.load slot) = some q →
    target (t.load slot) = some q
  leaf : ∀ r la, role r = .root → la < USERTOP → pteOf t r la = pteOf s r la
  mem : ∀ p, (role' p).inner = false → role' p ≠ .root → t.mem p = s.mem p
  ref : ∀ p, (role' p).inner = false → t.ref p = s.ref p
  swapInitOk : t.swapInitOk = s.swapInitOk
  swap : t.swap = s.swap
  frees : t.frees = s.frees

namespace Grown

variable {u : Machine σ} {role'' : Nat → Role}

theorem refl (layout : Layout M s role) : Grown M s role s role where
  layout := layout
  kept _ _ := rfl
  fresh _ free := .inl free
  known _ _ _ found := found
  leaf _ _ _ _ := rfl
  mem _ _ _ := rfl
  ref _ _ := rfl
  swapInitOk := rfl
  swap := rfl
  frees := rfl

theorem free_before (grown : Grown M s role t role') {p : Nat} (free : role' p = .free) :
    role p = .free := by
  by_contra used
  exact used ((grown.kept p used).symm.trans free)

theorem inner_after (grown : Grown M s role t role') {p : Nat} (inner : (role p).inner = true) :
    (role' p).inner = true := by
  rwa [grown.kept p (fun free => by simp [free, Role.inner] at inner)]

theorem root_after (grown : Grown M s role t role') {r : Nat} (root : role r = .root) :
    role' r = .root :=
  (grown.kept r (by simp [root])).trans root

theorem role_before (grown : Grown M s role t role') {p : Nat} (used : role' p ≠ .free)
    (outer : (role' p).inner = false) : role p = role' p := by
  by_cases free : role p = .free
  · rcases grown.fresh p free with free | inner
    · exact absurd free used
    · rw [outer] at inner
      cases inner
  · exact (grown.kept p free).symm

theorem walks (grown : Grown M s role t role') (layout : Layout M s role) {r la : Nat} {slot : Slot}
    (root : role r = .root) (user : la < USERTOP) (found : walk s r la = some slot) :
    walk t r la = some slot := by
  obtain ⟨pd0, first, second, index⟩ := walk_some.mp found
  have dir := layout.walk_dir root user first
  exact walk_some.mpr ⟨pd0, grown.known _ _ (by simp [root]) first,
    grown.known _ _ (by simp [dir]) second, index⟩

theorem trans (first : Grown M s role t role') (second : Grown M t role' u role'') :
    Grown M s role u role'' where
  layout := second.layout
  kept p used := (second.kept p (by rwa [first.kept p used])).trans (first.kept p used)
  fresh p free := by
    rcases first.fresh p free with free | inner
    · exact second.fresh p free
    · exact .inr (second.inner_after inner)
  known slot q used found := by
    refine second.known slot q ?_ (first.known slot q used found)
    rwa [first.kept slot.page used]
  leaf r la root user := (second.leaf r la (first.root_after root) user).trans (first.leaf r la root user)
  mem p outer noRoot := by
    refine (second.mem p outer noRoot).trans (first.mem p ?_ fun root => noRoot ?_)
    · rw [← Bool.not_eq_true]
      exact fun inner => Bool.false_ne_true (outer.symm.trans (second.inner_after inner))
    · exact second.root_after root
  ref p outer := by
    refine (second.ref p outer).trans (first.ref p ?_)
    rw [← Bool.not_eq_true]
    exact fun inner => Bool.false_ne_true (outer.symm.trans (second.inner_after inner))
  swapInitOk := second.swapInitOk.trans first.swapInitOk
  swap := second.swap.trans first.swap
  frees := second.frees.trans first.frees

end Grown

theorem getTable_found {pdep : Slot} {create : Bool} {q : Nat} (layout : Layout M s role)
    (points : target (s.load pdep) = some q) (used : role q ≠ .other) :
    getTable M pdep create s = .ok (some q, s) := by
  obtain ⟨valid, rfl⟩ := target_some.mp points
  rw [getTable, if_pos valid, pa2page, if_pos (layout.lt _ used)]
  rfl

theorem getTable_missing {pdep : Slot} (points : target (s.load pdep) = none) :
    getTable M pdep false s = .ok (none, s) := by
  rw [getTable, if_neg (by simp [target_none.mp points])]
  rfl

/-- The machine with `p`, fresh from the allocator, as an empty table under an entry. -/
def newTable (s : Machine σ) (pdep : Slot) (p : Nat) (pmm : σ) : Machine σ :=
  (({ s with pmm := pmm }.setPageRef p 1).setPage p fun _ => 0).store pdep
    (pteCreate p (PTE_U ||| PTE_V))

theorem getTable_given {pdep : Slot} {p : Nat} {pmm : σ} (points : target (s.load pdep) = none)
    (given : M.allocPage s.pmm = (some p, pmm)) :
    getTable M pdep true s = .ok (some p, newTable s pdep p pmm) := by
  have invalid : ¬isValid (s.load pdep) = true := by simp [target_none.mp points]
  have lt : p < npage := M.free_lt (M.alloc_some given).1
  have back : ptePpn (pteCreate p (PTE_U ||| PTE_V)) = p := ptePpn_pteCreate (by decide)
  rw [getTable, if_neg invalid, if_pos rfl]
  simp [allocPage, given, bind, Except.bind, pure, Except.pure, pa2page, lt, back, newTable]

theorem getTable_refused {pdep : Slot} {pmm : σ} (points : target (s.load pdep) = none)
    (given : M.allocPage s.pmm = (none, pmm)) :
    getTable M pdep true s =
      if s.swapInitOk = true then .error .panic else .ok (none, { s with pmm := pmm }) := by
  have invalid : ¬isValid (s.load pdep) = true := by simp [target_none.mp points]
  rw [getTable, if_neg invalid, if_pos rfl]
  by_cases swapping : s.swapInitOk = true <;>
    simp [allocPage, given, swapping, bind, Except.bind, pure, Except.pure]

/-- A page fresh from the allocator becomes an empty inner page. -/
theorem grown_newTable {pdep : Slot} {child : Role} {p : Nat} {pmm : σ} (layout : Layout M s role)
    (place : Child pdep.page (role pdep.page) pdep.index child) (inner : child.inner = true)
    (points : target (s.load pdep) = none) (given : M.allocPage s.pmm = (some p, pmm)) :
    Grown M s role (newTable s pdep p pmm) (Function.update role p child) := by
  unfold newTable
  obtain ⟨wasFree, nowFree⟩ := M.alloc_some given
  have free : role p = .free := (layout.free p).mp wasFree
  have upper : pdep.page ≠ p := fun same => place.ne_free.1 (same ▸ free)
  generalize hw : pteCreate p (PTE_U ||| PTE_V) = w
  have newEntry : target w = some p := hw ▸ target_pteCreate (by decide)
  generalize ht : (({ s with pmm := pmm }.setPageRef p 1).setPage p fun _ => 0).store pdep w = t
  have load : ∀ slot, t.load slot =
      if slot = pdep then w else if slot.page = p then 0 else s.load slot := by
    intro slot
    rw [← ht, load_store]
    split
    · rfl
    · simp only [Machine.load, Machine.setPage, Machine.setPageRef, Function.update_apply]
      split <;> rfl
  have old : ∀ {slot}, slot ≠ pdep → slot.page ≠ p → t.load slot = s.load slot := by
    intro slot here there
    rw [load, if_neg here, if_neg there]
  have blank : ∀ i, t.load ⟨p, i⟩ = 0 := by
    intro i
    have apart : (⟨p, i⟩ : Slot) ≠ pdep := by
      rintro rfl
      exact upper rfl
    rw [load, if_neg apart, if_pos rfl]
  have known : ∀ {slot q}, role slot.page ≠ .free → target (s.load slot) = some q →
      target (t.load slot) = some q := by
    intro slot q used found
    have apart : slot ≠ pdep := by
      rintro rfl
      rw [points] at found
      cases found
    have here : slot.page ≠ p := fun same => used (same ▸ free)
    rwa [old apart here]
  refine ⟨⟨fun q => ?_, fun q named => ?_, fun q i c x there found => ?_, fun q isInner => ?_⟩,
    fun q used => ?_, fun q wasFree => ?_, fun slot q used found => known used found,
    fun r la root user => ?_, fun q outer noRoot => ?_, fun q outer => ?_, ?_, ?_, ?_⟩
  · rw [← ht]
    by_cases here : q = p
    · subst here
      simp [Machine.store, Machine.setPage, Machine.setPageRef, nowFree, place.ne_free.2]
    · simp [Machine.store, Machine.setPage, Machine.setPageRef, nowFree, here, layout.free]
  · by_cases here : q = p
    · exact here ▸ M.free_lt wasFree
    · exact layout.lt q (by simpa [here] using named)
  · by_cases here : q = p
    · subst here
      simp [blank] at found
    · rw [Function.update_of_ne here] at there
      by_cases atEntry : (⟨q, i⟩ : Slot) = pdep
      · subst atEntry
        rw [load, if_pos rfl, newEntry] at found
        obtain rfl := Option.some.inj found
        rw [Function.update_self]
        exact place.unique there
      · rw [old atEntry here] at found
        have role_x := layout.entry q i c x there found
        have elsewhere : x ≠ p := fun same => there.ne_free.2 (role_x.symm.trans (same ▸ free))
        rwa [Function.update_of_ne elsewhere]
  · by_cases here : q = p
    · subst here
      refine ⟨pdep.page, pdep.index, ?_, ?_⟩
      · rwa [Function.update_of_ne upper, Function.update_self]
      · rw [load, if_pos rfl, newEntry]
    · rw [Function.update_of_ne here] at isInner ⊢
      obtain ⟨c, i, there, found⟩ := layout.link q isInner
      have apart : c ≠ p := fun same => there.ne_free.1 (same ▸ free)
      refine ⟨c, i, ?_, known there.ne_free.1 found⟩
      rwa [Function.update_of_ne apart]
  · have apart : q ≠ p := fun same => used (same ▸ free)
    exact Function.update_of_ne apart ..
  · by_cases here : q = p
    · subst here
      exact .inr (by rwa [Function.update_self])
    · exact .inl (by rwa [Function.update_of_ne here])
  · -- a new entry leads to an empty page, where the walk found nothing before
    unfold pteOf walk
    by_cases top : (⟨r, pdx1 la⟩ : Slot) = pdep
    · rw [top, points, load, if_pos rfl, newEntry]
      simp [blank]
    rw [old top (fun same => by subst same; simp [root] at free)]
    cases first : target (s.load ⟨r, pdx1 la⟩) with
    | none => rfl
    | some pd0 =>
        have dir := layout.walk_dir root user first
        simp only [Option.bind_some]
        by_cases mid : (⟨pd0, pdx0 la⟩ : Slot) = pdep
        · rw [mid, points, load, if_pos rfl, newEntry]
          simp [blank]
        rw [old mid (fun same => by subst same; simp [dir] at free)]
        cases second : target (s.load ⟨pd0, pdx0 la⟩) with
        | none => rfl
        | some pt =>
            have table := layout.walk_table dir (pdx0_lt la) second
            refine old ?_ (fun same => by subst same; simp [table] at free)
            rintro rfl
            rw [table] at place
            cases place
            simp [Role.inner] at inner
  · have notNew : q ≠ p := by
      rintro rfl
      rw [Function.update_self, inner] at outer
      cases outer
    have notUpper : q ≠ pdep.page := by
      rintro rfl
      rw [Function.update_of_ne notNew] at outer noRoot
      generalize role pdep.page = upperRole at *
      cases place <;> simp_all [Role.inner]
    rw [← ht]
    simp [Machine.store, Machine.setPage, Machine.setPageRef, notNew, notUpper]
  · have notNew : q ≠ p := by
      rintro rfl
      rw [Function.update_self, inner] at outer
      cases outer
    rw [← ht]
    simp [Machine.store, Machine.setPage, Machine.setPageRef, notNew]
  · rw [← ht]
    rfl
  · rw [← ht]
    rfl
  · rw [← ht]
    rfl

/-- Refused by the allocator, `alloc_page` changes no page. -/
theorem grown_refused {pmm : σ} (layout : Layout M s role) (given : M.allocPage s.pmm = (none, pmm)) :
    Grown M s role { s with pmm := pmm } role where
  layout :=
    { free := fun p => (M.alloc_none given p).trans (layout.free p)
      lt := layout.lt
      entry := layout.entry
      link := layout.link }
  kept _ _ := rfl
  fresh _ free := .inl free
  known _ _ _ found := found
  leaf _ _ _ _ := rfl
  mem _ _ _ := rfl
  ref _ _ := rfl
  swapInitOk := rfl
  swap := rfl
  frees := rfl

theorem getTable_create (pdep : Slot) {child : Role} (layout : Layout M s role)
    (place : Child pdep.page (role pdep.page) pdep.index child) (inner : child.inner = true) :
    (getTable M pdep true s = .error .panic ∧ s.swapInitOk = true) ∨
    ∃ found t role', getTable M pdep true s = .ok (found, t) ∧ Grown M s role t role' ∧
      (found = none → s.swapInitOk = false) ∧ ∀ q, found = some q → target (t.load pdep) = some q := by
  cases points : target (s.load pdep) with
  | some q =>
      have role_q : role q = child := layout.entry _ _ _ _ place points
      have used : role q ≠ .other := by
        rintro other
        rw [← role_q, other] at inner
        simp [Role.inner] at inner
      refine .inr ⟨some q, s, role, getTable_found layout points used, .refl layout, by simp, ?_⟩
      rintro q' ⟨⟩
      exact points
  | none =>
      rcases given : M.allocPage s.pmm with ⟨_ | p, pmm⟩
      · have run := getTable_refused points given
        by_cases swapping : s.swapInitOk = true
        · exact .inl ⟨run.trans (if_pos swapping), swapping⟩
        · exact .inr ⟨none, { s with pmm := pmm }, role, run.trans (if_neg swapping),
            grown_refused layout given, by simpa using swapping, by simp⟩
      · refine .inr ⟨some p, _, _, getTable_given points given,
          grown_newTable layout place inner points given, by simp, ?_⟩
        rintro q ⟨⟩
        rw [newTable, load_store, if_pos rfl]
        exact target_pteCreate (by decide)

/-- Without `create`, `get_pte` is the walk. -/
theorem getPte_lookup {r la : Nat} (layout : Layout M s role) (root : role r = .root)
    (user : la < USERTOP) : getPte M r la false s = .ok (walk s r la, s) := by
  unfold getPte walk
  cases first : target (s.load ⟨r, pdx1 la⟩) with
  | none =>
      rw [getTable_missing first]
      rfl
  | some pd0 =>
      have dir := layout.walk_dir root user first
      rw [getTable_found layout first (by simp [dir])]
      simp only [bind, Except.bind, Option.bind_some]
      cases second : target (s.load ⟨pd0, pdx0 la⟩) with
      | none =>
          rw [getTable_missing second]
          rfl
      | some pt =>
          have table := layout.walk_table dir (pdx0_lt la) second
          rw [getTable_found layout second (by simp [table])]
          rfl

theorem getPte_found {r la : Nat} {slot : Slot} {create : Bool} (layout : Layout M s role)
    (root : role r = .root) (user : la < USERTOP) (found : walk s r la = some slot) :
    getPte M r la create s = .ok (some slot, s) := by
  obtain ⟨pd0, first, second, index⟩ := walk_some.mp found
  have dir := layout.walk_dir root user first
  have table := layout.walk_table dir (pdx0_lt la) second
  rw [getPte, getTable_found layout first (by simp [dir])]
  simp only [bind, Except.bind]
  rw [getTable_found layout second (by simp [table]), ← index]
  rfl

/-- With `create`, the tables grow, and the entry returned is the one for `la`. -/
theorem getPte_create {r la : Nat} (layout : Layout M s role) (root : role r = .root)
    (user : la < USERTOP) :
    (getPte M r la true s = .error .panic ∧ s.swapInitOk = true) ∨
    ∃ found t role', getPte M r la true s = .ok (found, t) ∧ Grown M s role t role' ∧
      (found = none → s.swapInitOk = false) ∧ ∀ slot, found = some slot → walk t r la = some slot := by
  have top : Child r (role r) (pdx1 la) (.dir r (pdx1 la)) := root ▸ .dir (pdx1_lt_of_user user)
  rcases getTable_create ⟨r, pdx1 la⟩ layout top rfl with
    ⟨stops, swapping⟩ | ⟨found, t, role', run, grown, refused, points⟩
  · refine .inl ⟨?_, swapping⟩
    rw [getPte, stops]
    rfl
  cases found with
  | none =>
      refine .inr ⟨none, t, role', ?_, grown, fun _ => refused rfl, by simp⟩
      rw [getPte, run]
      rfl
  | some pd0 =>
      have first := points pd0 rfl
      have dir := grown.layout.walk_dir (grown.root_after root) user first
      have mid : Child pd0 (role' pd0) (pdx0 la) (.table r (pdx1 la) (pdx0 la)) :=
        dir ▸ .table (pdx0_lt la)
      rcases getTable_create ⟨pd0, pdx0 la⟩ grown.layout mid rfl with
        ⟨stops, swapping⟩ | ⟨found, u, role'', run', grown', refused', points'⟩
      · refine .inl ⟨?_, grown.swapInitOk ▸ swapping⟩
        rw [getPte, run]
        simp only [bind, Except.bind]
        rw [stops]
      refine .inr ⟨found.map fun pt => ⟨pt, ptx la⟩, u, role'', ?_, grown.trans grown',
        fun none => grown.swapInitOk ▸ refused' (by simpa using none), ?_⟩
      · rw [getPte, run]
        simp only [bind, Except.bind]
        rw [run']
        cases found <;> rfl
      · rintro slot same
        obtain ⟨pt, rfl, rfl⟩ := Option.map_eq_some_iff.mp same
        have still := grown'.known ⟨r, pdx1 la⟩ pd0 (by simp [grown.root_after root]) first
        exact walk_some.mpr ⟨pd0, still, points' pt rfl, rfl⟩

/-! ## What `get_pte` takes from the allocator -/

variable (M) in
/-- The allocator after handing out `n` more pages one by one, if it does. -/
def spend : Nat → σ → Option σ
  | 0, pmm => some pmm
  | n + 1, pmm =>
      match M.allocPage pmm with
      | (some _, pmm) => spend n pmm
      | (none, _) => none

theorem spend_add (a b : Nat) (pmm : σ) : spend M (a + b) pmm = (spend M a pmm).bind (spend M b) := by
  induction a generalizing pmm with
  | zero => simp [spend]
  | succ a ih =>
      rw [Nat.succ_add, spend, spend]
      rcases M.allocPage pmm with ⟨_ | p, pmm⟩
      · rfl
      · exact ih pmm

/-- The number of tables missing on the way to the entry for `la`. -/
def missing (s : Machine σ) (r la : Nat) : Nat :=
  match target (s.load ⟨r, pdx1 la⟩) with
  | none => 2
  | some pd0 => if target (s.load ⟨pd0, pdx0 la⟩) = none then 1 else 0

/-- The allocator after a function that returned a result, not a null pointer. -/
def spent {α : Type} : Result (Option α × Machine σ) → Option σ
  | .ok (some _, t) => some t.pmm
  | _ => none

/-- With the tables in place, or with enough pages for them, `get_pte` succeeds and
    takes as many pages as there are tables missing; otherwise it takes what is left. -/
theorem getPte_spent {r la : Nat} (layout : Layout M s role) (root : role r = .root)
    (user : la < USERTOP) : spent (getPte M r la true s) = spend M (missing s r la) s.pmm := by
  rw [getPte, missing]
  cases first : target (s.load ⟨r, pdx1 la⟩) with
  | some pd0 =>
      have dir := layout.walk_dir root user first
      rw [getTable_found layout first (by simp [dir])]
      simp only [bind, Except.bind]
      cases second : target (s.load ⟨pd0, pdx0 la⟩) with
      | some pt =>
          have table := layout.walk_table dir (pdx0_lt la) second
          rw [getTable_found layout second (by simp [table])]
          rfl
      | none =>
          rw [if_pos rfl, spend]
          rcases given : M.allocPage s.pmm with ⟨_ | p, pmm⟩
          · rw [getTable_refused second given]
            by_cases swapping : s.swapInitOk = true <;> simp [swapping, pure, Except.pure, spent]
          · rw [getTable_given second given]
            rfl
  | none =>
      simp only [spend]
      rcases given : M.allocPage s.pmm with ⟨_ | pd0, pmm⟩
      · rw [getTable_refused first given]
        by_cases swapping : s.swapInitOk = true <;>
          simp [swapping, bind, Except.bind, pure, Except.pure, spent]
      · have free : role pd0 = .free := (layout.free pd0).mp (M.alloc_some given).1
        have apart : pd0 ≠ r := by
          rintro rfl
          rw [root] at free
          cases free
        -- the new directory is blank, so that the table is missing as well
        have second : target ((newTable s ⟨r, pdx1 la⟩ pd0 pmm).load ⟨pd0, pdx0 la⟩) = none := by
          simp [newTable, Machine.load, Machine.store, Machine.setPage, apart]
        rw [getTable_given first given]
        simp only [bind, Except.bind]
        rcases given' : M.allocPage pmm with ⟨_ | pt, pmm'⟩
        · rw [getTable_refused second given']
          by_cases swapping : (newTable s ⟨r, pdx1 la⟩ pd0 pmm).swapInitOk = true <;>
            simp [swapping, pure, Except.pure, spent]
        · rw [getTable_given second given']
          simp [pure, Except.pure, spent, newTable, Machine.store, Machine.setPage,
            Machine.setPageRef]

end Ucore.Mm.PageTables
