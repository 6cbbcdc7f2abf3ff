import Ucore.Mm.Unmap
import Ucore.Mm.Vmm

/-! # What the page-fault handler does

`do_pgfault` for a fault at an address of some area. Whether it resolves the fault
depends on the leaf entry found and on the pages the allocator has left.
-/

namespace Ucore.Mm.PageFault

open Libs.Assert Mmu Pmm PageTables PageRefs Unmap Vmm

variable {σ : Type} {M : PmmManager σ} {s t u : Machine σ} {role role' : Nat → Role}
  {roots : Finset Nat} {mm : MmStruct} {vma : VmaStruct} {addr : Nat}

/-- The flags `do_pgfault` maps a page with. -/
def faultPerm (vma : VmaStruct) : Nat :=
  if hasFlags vma.vmFlags VM_WRITE then PTE_U ||| READ_WRITE else PTE_U

theorem faultPerm_lt (vma : VmaStruct) : faultPerm vma < 1024 := by
  unfold faultPerm
  split <;> decide

theorem roundDown_samePage (addr : Nat) : roundDown addr PGSIZE / PGSIZE = addr / PGSIZE := by
  simp only [roundDown, PGSIZE]
  omega

theorem roundDown_le (addr n : Nat) : roundDown addr n ≤ addr := Nat.sub_le ..

/-! ## What `page_insert` leaves alone -/

/-- Where the entry is there, `page_insert` writes to no page but its table. -/
theorem pageInsert_mem {r page la perm : Nat} {slot : Slot} {ret : Int}
    (found : getPte M r la true s = .ok (some slot, s)) (run : pageInsert M r page la perm s = .ok (ret, t))
    (q : Nat) (other : q ≠ slot.page) : t.mem q = s.mem q := by
  have last : ∀ {u : Machine σ} {w : Nat}, u.mem q = s.mem q →
      (pure (0, u.store slot w) : Result (Int × Machine σ)) = .ok (ret, t) → t.mem q = s.mem q := by
    intro u w before stored
    rw [← (Prod.mk.inj (Except.ok.inj stored)).2]
    exact (Function.update_of_ne other ..).trans before
  unfold pageInsert at run
  rw [found] at run
  simp only [bind, Except.bind] at run
  split at run
  · split at run
    · cases run
    · split at run
      · exact last (u := (s.pageRefInc page).pageRefDec page) rfl run
      · split at run
        · cases run
        · rename_i u removal
          exact last (pageRemovePte_mem removal other) run
  · exact last (u := s.pageRefInc page) rfl run

/-! ## `pgdir_alloc_page` where the table is there -/

section AllocFound

variable {r la perm : Nat} {slot : Slot} {pmm : σ} (counted : Counted M roots 0 s role)
  (root : r ∈ roots) (user : la < USERTOP) (found : walk s r la = some slot)

theorem allocPage_refused (given : M.allocPage s.pmm = (none, pmm)) :
    allocPage M s = if s.swapInitOk = true then .error .panic else .ok (none, { s with pmm := pmm }) := by
  rw [allocPage, given]

theorem allocPage_given {p : Nat} (given : M.allocPage s.pmm = (some p, pmm)) :
    allocPage M s = .ok (some p, { s with pmm := pmm }) := by
  rw [allocPage, given]

include counted root user found

/-- A page fresh from the allocator, filled with `words`, is mapped. -/
theorem insertFresh_found {p : Nat} (given : M.allocPage s.pmm = (some p, pmm)) (small : perm < 1024)
    (words : Nat → Nat) :
    ∃ t role' new, pageInsert M r p la perm ({ s with pmm := pmm }.setPage p words) = .ok (0, t) ∧
      Edited M roots 0 ({ s with pmm := pmm }.setPage p words) (Function.update role p .data) t role'
        new ∧ SetsPte roots s t r la (pteCreate p (PTE_V ||| perm)) ∧ role' p = .data ∧
      t.mem p = words ∧ ∀ q, role q = .data → t.mem q = s.mem q := by
  have free := counted.free_of_given given
  have table := (counted.layout.walk_role ((counted.isRoot r).mp root) user found).1
  have taken := counted.takeData given rfl
  have fresh : Function.update role p Role.data p = .data := Function.update_self ..
  have start := setPage_counted fresh words taken
  have leaf : ∀ r' ∈ roots, ∀ la' < USERTOP, pteOf ({ s with pmm := pmm }.setPage p words) r' la' =
      pteOf s r' la' := fun r' root' la' user' => pteOf_setPage fresh words taken root' user'
  have found' : walk ({ s with pmm := pmm }.setPage p words) r la = some slot :=
    (walk_setPage fresh words taken root user).trans found
  rcases pageInsert_spec start root user fresh small with
    ⟨-, -, missing⟩ | ⟨t, role', -, missing, -⟩ | ⟨t, role', run, edit, sets, -⟩
  · rw [found'] at missing
    cases missing
  · rw [found'] at missing
    cases missing
  · have still := pageInsert_mem (getPte_found start.layout ((start.isRoot r).mp root) user found') run
    refine ⟨t, role', _, run, edit, sets.after leaf, ?_, ?_, fun q data => ?_⟩
    · refine (edit.kept p (by simp) ?_).trans fresh
      unfold pushedOut
      split
      · split
        · rename_i other
          simpa using Ne.symm other.1
        · simp
      · simp
    · refine (still p ?_).trans (Function.update_self ..)
      rintro rfl
      rw [free] at table
      cases table
    · refine (still q ?_).trans (Function.update_of_ne ?_ ..)
      · rintro rfl
        rw [data] at table
        cases table
      · rintro rfl
        rw [data] at free
        cases free

end AllocFound

/-! ## The handler -/

/-- The allocator has the pages that the missing tables and one more page need. -/
def enoughPages (M : PmmManager σ) (mm : MmStruct) (addr : Nat) (s : Machine σ) : Bool :=
  (spend M (missing s mm.pgdir addr + 1) s.pmm).isSome

/-- The entry names a page of the swap device, and pages can be made swappable. -/
def swappedOut (mm : MmStruct) (s : Machine σ) (w : Nat) : Bool :=
  s.swapInitOk && 0 < w >>> 8 && w >>> 8 < maxSwapOffset && mm.smPriv

/-- A fault in an area ends in a mapping. -/
def resolves (M : PmmManager σ) (mm : MmStruct) (addr : Nat) (s : Machine σ) : Bool :=
  enoughPages M mm addr s && (pteOf s mm.pgdir addr = 0 || isValid (pteOf s mm.pgdir addr) ||
    swappedOut mm s (pteOf s mm.pgdir addr))

/-- What the page `p` that resolves a fault on the entry `w` is filled with. A page
    for an empty entry keeps whatever words it had. -/
def broughtIn (s : Machine σ) (w p : Nat) : Nat → Nat :=
  if w = 0 then s.mem p else if isValid w then s.mem (ptePpn w) else s.swap (w >>> 8)

variable (M) in
/-- From `s` to `t` the page `p`, which was free, was filled with `words` and mapped at
    `addr`. -/
structure Filled (roots : Finset Nat) (r addr perm : Nat) (s : Machine σ) (role : Nat → Role)
    (t : Machine σ) (role' : Nat → Role) (p : Nat) (words : Nat → Nat) : Prop where
  counted : Counted M roots 0 t role'
  free : role p = .free
  data : role' p = .data
  sets : SetsPte roots s t r addr (pteCreate p (PTE_V ||| perm))
  words : t.mem p = words
  frame : ∀ q, role q = .data → t.mem q = s.mem q
  before : ∀ q, role' q = .data → q = p ∨ role q = .data

/-- The page may be filled again afterwards. -/
theorem Filled.setPage {r addr perm p : Nat} {words : Nat → Nat}
    (filled : Filled M roots r addr perm s role t role' p words) (words' : Nat → Nat) :
    Filled M roots r addr perm s role (t.setPage p words') role' p words' where
  counted := setPage_counted filled.data words' filled.counted
  free := filled.free
  data := filled.data
  sets r' root la user := by
    rw [pteOf_setPage filled.data words' filled.counted root user]
    exact filled.sets r' root la user
  words := Function.update_self ..
  frame q data := by
    refine (Function.update_of_ne ?_ ..).trans (filled.frame q data)
    rintro rfl
    simp [filled.free] at data
  before := filled.before

theorem missing_congr {r la la' : Nat} (same : la / PGSIZE = la' / PGSIZE) :
    missing s r la = missing s r la' := by
  obtain ⟨first, second, -⟩ := indices_of_samePage same
  rw [missing, missing, first, second]

theorem pteOf_congr {r la la' : Nat} (same : la / PGSIZE = la' / PGSIZE) :
    pteOf s r la = pteOf s r la' := by
  rw [pteOf, pteOf, walk_congr same]

/-- The test for the copy branch looks at the valid bit only. -/
theorem copies_iff {w errorCode : Nat} (odd : errorCode &&& 1 = 1) :
    (w &&& PTE_V) &&& (errorCode &&& if True then 1 else 0) ≠ 0 ↔ isValid w = true := by
  rw [if_pos trivial, odd]
  simp only [hasFlags, decide_eq_true_eq, PTE_V, Nat.and_one_is_mod]
  omega

/-! ## What `get_pte` writes -/

section GetPte

variable {r la : Nat} {found : Option Slot} (layout : Layout M s role) (root : role r = .root)
  (user : la < USERTOP) (run : getPte M r la true s = .ok (found, u))
include layout root user run

/-- It writes nothing if it has no table to make, or gets no page for it. -/
theorem getPte_idle (idle : missing s r la = 0 ∨ (M.allocPage s.pmm).1 = none) :
    u.mem = s.mem ∧ u.ref = s.ref ∧ u.swap = s.swap := by
  have refused : ∀ {pdep}, target (s.load pdep) = none → (M.allocPage s.pmm).1 = none →
      ∀ found t, getTable M pdep true s = .ok (found, t) →
        found = none ∧ t.mem = s.mem ∧ t.ref = s.ref ∧ t.swap = s.swap := by
    intro pdep points none found t run
    rw [getTable_refused points (Prod.ext none rfl)] at run
    split at run
    · cases run
    · obtain ⟨rfl, rfl⟩ := Prod.mk.inj (Except.ok.inj run)
      exact ⟨rfl, rfl, rfl, rfl⟩
  obtain ⟨⟨first, t⟩, opened, rest⟩ := bind_ok.mp run
  cases top : target (s.load ⟨r, pdx1 la⟩) with
  | none =>
      have absent : (M.allocPage s.pmm).1 = none := by simpa [missing, top] using idle
      obtain ⟨rfl, kept⟩ := refused top absent _ _ opened
      exact (Prod.mk.inj (Except.ok.inj rest)).2 ▸ kept
  | some pd0 =>
      have dir := layout.walk_dir root user top
      rw [getTable_found layout top (by simp [dir])] at opened
      obtain ⟨rfl, rfl⟩ := Prod.mk.inj (Except.ok.inj opened)
      obtain ⟨⟨second, t⟩, opened', rest'⟩ := bind_ok.mp rest
      cases mid : target (s.load ⟨pd0, pdx0 la⟩) with
      | none =>
          have vacant : (M.allocPage s.pmm).1 = none := by simpa [missing, top, mid] using idle
          obtain ⟨rfl, kept⟩ := refused mid vacant _ _ opened'
          exact (Prod.mk.inj (Except.ok.inj rest')).2 ▸ kept
      | some pt =>
          have table := layout.walk_table dir (pdx0_lt la) mid
          rw [getTable_found layout mid (by simp [table])] at opened'
          obtain ⟨rfl, rfl⟩ := Prod.mk.inj (Except.ok.inj opened')
          exact (Prod.mk.inj (Except.ok.inj rest')).2 ▸ ⟨rfl, rfl, rfl⟩

/-- Otherwise it makes a table, and an entry for it. -/
theorem getPte_wrote (lacks : missing s r la ≠ 0) (given : (M.allocPage s.pmm).1 ≠ none) :
    u.mem ≠ s.mem := by
  intro same
  have still : ∀ slot, u.load slot = s.load slot := fun slot => by rw [Machine.load, same]; rfl
  rcases taken : M.allocPage s.pmm with ⟨_ | p, pmm⟩
  · simp [taken] at given
  have made : ∀ {pdep : Slot}, target ((newTable s pdep p pmm).load pdep) = some p := by
    intro pdep
    rw [newTable, load_store, if_pos rfl]
    exact target_pteCreate (by decide)
  obtain ⟨⟨first, t⟩, opened, rest⟩ := bind_ok.mp run
  cases top : target (s.load ⟨r, pdx1 la⟩) with
  | none =>
      rw [getTable_given top taken] at opened
      obtain ⟨rfl, rfl⟩ := Prod.mk.inj (Except.ok.inj opened)
      have place : Child r (role r) (pdx1 la) (.dir r (pdx1 la)) := root ▸ .dir (pdx1_lt_of_user user)
      have grown : Grown M s role (newTable s ⟨r, pdx1 la⟩ p pmm)
          (Function.update role p (.dir r (pdx1 la))) := grown_newTable layout place rfl top taken
      have below : Child p (Function.update role p (.dir r (pdx1 la)) p) (pdx0 la)
          (.table r (pdx1 la) (pdx0 la)) := by
        rw [Function.update_self]
        exact .table (pdx0_lt la)
      obtain ⟨⟨second, t⟩, opened', rest'⟩ := bind_ok.mp rest
      rcases getTable_create ⟨p, pdx0 la⟩ grown.layout below rfl with
        ⟨stops, -⟩ | ⟨table, v, _, run', grown', -, -⟩
      · rw [stops] at opened'
        cases opened'
      · rw [run'] at opened'
        obtain ⟨rfl, rfl⟩ := Prod.mk.inj (Except.ok.inj opened')
        have kept := grown'.known ⟨r, pdx1 la⟩ p (by simp [grown.root_after root]) made
        have after : target (u.load ⟨r, pdx1 la⟩) = some p := by
          rw [← kept]
          cases table with
          | none => rw [(Prod.mk.inj (Except.ok.inj rest')).2]
          | some pt => rw [(Prod.mk.inj (Except.ok.inj rest')).2]
        rw [still, top] at after
        cases after
  | some pd0 =>
      have dir := layout.walk_dir root user top
      rw [getTable_found layout top (by simp [dir])] at opened
      obtain ⟨rfl, rfl⟩ := Prod.mk.inj (Except.ok.inj opened)
      obtain ⟨⟨second, t⟩, opened', rest'⟩ := bind_ok.mp rest
      cases mid : target (s.load ⟨pd0, pdx0 la⟩) with
      | some pt => simp [missing, top, mid] at lacks
      | none =>
          rw [getTable_given mid taken] at opened'
          obtain ⟨rfl, rfl⟩ := Prod.mk.inj (Except.ok.inj opened')
          have after : target (u.load ⟨pd0, pdx0 la⟩) = some p := by
            rw [← (Prod.mk.inj (Except.ok.inj rest')).2]
            exact made
          rw [still, mid] at after
          cases after

end GetPte

section Handler

variable (counted : Counted M roots 0 s role) (root : mm.pgdir ∈ roots) (user : addr < USERTOP)
include counted root user

/-- With enough pages, the handler gets the entry, and then one page more. -/
theorem getPte_enough (enough : enoughPages M mm addr s = true) :
    ∃ slot u role', getPte M mm.pgdir (roundDown addr PGSIZE) true s = .ok (some slot, u) ∧
      Grown M s role u role' ∧ walk u mm.pgdir (roundDown addr PGSIZE) = some slot ∧
      ∃ p pmm, M.allocPage u.pmm = (some p, pmm) := by
  have isRoot := (counted.isRoot _).mp root
  have user' : roundDown addr PGSIZE < USERTOP := lt_of_le_of_lt (roundDown_le ..) user
  have took := getPte_spent counted.layout isRoot user'
  rw [missing_congr (roundDown_samePage addr)] at took
  rw [enoughPages, spend_add, ← took, Option.isSome_iff_exists] at enough
  obtain ⟨rest, enough⟩ := enough
  obtain ⟨pmm, before, after⟩ := Option.bind_eq_some_iff.mp enough
  rcases getPte_create counted.layout isRoot user' with ⟨stops, -⟩ | ⟨found, u, role', run, grown, -, points⟩
  · rw [stops] at before
    cases before
  · rw [run] at before
    cases found with
    | none => cases before
    | some slot =>
        obtain rfl : u.pmm = pmm := Option.some.inj before
        refine ⟨slot, u, role', run, grown, points slot rfl, ?_⟩
        rcases given : M.allocPage u.pmm with ⟨_ | p, pmm⟩
        · simp [spend, given] at after
        · exact ⟨p, pmm, rfl⟩

/-- Once the entry is there, a fresh page with any words can be mapped at it. -/
theorem mapFresh {slot : Slot} {p perm : Nat} {pmm : σ} (grown : Grown M s role u role')
    (found : walk u mm.pgdir (roundDown addr PGSIZE) = some slot)
    (given : M.allocPage u.pmm = (some p, pmm)) (small : perm < 1024) (words : Nat → Nat) :
    ∃ t role'', pageInsert M mm.pgdir p (roundDown addr PGSIZE) perm
        ({ u with pmm := pmm }.setPage p words) = .ok (0, t) ∧
      Filled M roots mm.pgdir addr perm s role t role'' p words := by
  have user' : roundDown addr PGSIZE < USERTOP := lt_of_le_of_lt (roundDown_le ..) user
  have opened := Edited.of_grown counted grown
  obtain ⟨t, role'', new, run, edit, sets, data, filled, frame⟩ :=
    insertFresh_found opened.counted root user' found given small words
  have leaf : ∀ r ∈ roots, ∀ la < USERTOP, pteOf u r la = pteOf s r la :=
    fun r root la user => grown.leaf r la ((counted.isRoot r).mp root) user
  refine ⟨t, role'', run, edit.counted, grown.free_before (opened.counted.free_of_given given), data,
    (sets.after leaf).samePage (roundDown_samePage addr), filled, fun q plain => ?_, fun q plain => ?_⟩
  · have still : role' q = .data := (opened.kept q (by simp [plain]) (by simp)).trans plain
    exact (frame q still).trans (opened.mem q (by rw [still]; rfl) (by simp [still]))
  · by_cases here : q = p
    · exact .inl here
    · have before := edit.data_before plain
      rw [Function.update_of_ne here] at before
      exact .inr (opened.data_before before)

/-- Without enough pages, the handler fails at the tables or at the page. -/
theorem getPte_short (short : enoughPages M mm addr s = false) :
    (getPte M mm.pgdir (roundDown addr PGSIZE) true s = .error .panic ∧ s.swapInitOk = true ∧
      pteOf s mm.pgdir addr = 0) ∨
    (∃ u role', getPte M mm.pgdir (roundDown addr PGSIZE) true s = .ok (none, u) ∧
      Grown M s role u role' ∧ s.swapInitOk = false ∧ pteOf s mm.pgdir addr = 0) ∨
    ∃ slot u role' pmm, getPte M mm.pgdir (roundDown addr PGSIZE) true s = .ok (some slot, u) ∧
      Grown M s role u role' ∧ walk u mm.pgdir (roundDown addr PGSIZE) = some slot ∧
      M.allocPage u.pmm = (none, pmm) := by
  have isRoot := (counted.isRoot _).mp root
  have user' : roundDown addr PGSIZE < USERTOP := lt_of_le_of_lt (roundDown_le ..) user
  have took := getPte_spent counted.layout isRoot user'
  rw [missing_congr (roundDown_samePage addr)] at took
  rw [enoughPages, spend_add, ← took] at short
  -- an entry that was found needs no page
  have zero : walk s mm.pgdir (roundDown addr PGSIZE) = none → pteOf s mm.pgdir addr = 0 := by
    intro missing
    rw [← pteOf_congr (roundDown_samePage addr), pteOf, missing]
  rcases getPte_create counted.layout isRoot user' with
    ⟨stops, swapping⟩ | ⟨found, u, role', run, grown, refused, points⟩
  · refine .inl ⟨stops, swapping, zero (Option.eq_none_iff_forall_not_mem.mpr fun slot found => ?_)⟩
    rw [getPte_found counted.layout isRoot user' found] at stops
    cases stops
  cases found with
  | none =>
      refine .inr (.inl ⟨u, role', run, grown, refused rfl,
        zero (Option.eq_none_iff_forall_not_mem.mpr fun slot found => ?_)⟩)
      rw [getPte_found counted.layout isRoot user' found] at run
      simp at run
  | some slot =>
      rw [run] at short
      rcases given : M.allocPage u.pmm with ⟨_ | p, pmm⟩
      · exact .inr (.inr ⟨slot, u, role', pmm, run, grown, points slot rfl, given⟩)
      · simp [spent, spend, given] at short

/-- A fault that resolves: a fresh page with the right words is mapped. -/
theorem doPgfault_resolves {errorCode : Nat} (area : mm.vmaAt addr = some vma)
    (odd : errorCode &&& 1 = 1) (resolvable : resolves M mm addr s = true) :
    ∃ t role' p, doPgfault M mm errorCode addr s = .ok (0, { mm with mmapCache := some vma }, t) ∧
      Filled M roots mm.pgdir addr (faultPerm vma) s role t role' p
        (broughtIn s (pteOf s mm.pgdir addr) p) := by
  simp only [resolves, Bool.and_eq_true] at resolvable
  obtain ⟨enough, entry⟩ := resolvable
  obtain ⟨slot, u, role', run, grown, found, p, pmm, given⟩ := getPte_enough counted root user enough
  have user' : roundDown addr PGSIZE < USERTOP := lt_of_le_of_lt (roundDown_le ..) user
  have opened := Edited.of_grown counted grown
  have free : role' p = .free := opened.counted.free_of_given given
  have here : u.load slot = pteOf s mm.pgdir addr := by
    rw [← pteOf_walk found, grown.leaf _ _ ((counted.isRoot _).mp root) user',
      pteOf_congr (roundDown_samePage addr)]
  have starts : ¬vma.vmStart > addr := not_lt.mpr (vmaAt_covers area).1
  have lookup : findVma mm addr = (some vma, { mm with mmapCache := some vma }) := by
    rw [findVma, area]
  have alloc : allocPage M u = .ok (some p, { u with pmm := pmm }) := allocPage_given given
  have isPage : pa2page p = .ok p := if_pos (M.free_lt (M.alloc_some given).1)
  -- the first two ways map the page with the words it has
  have asIs : ({ u with pmm := pmm } : Machine σ).setPage p (u.mem p) = { u with pmm := pmm } := by
    simp [Machine.setPage]
  rw [doPgfault, lookup]
  simp only [if_neg starts, bind, Except.bind, run]
  generalize hw : pteOf s mm.pgdir addr = w at here entry
  by_cases blank : w = 0
  · obtain ⟨t, role'', insert, filled⟩ := mapFresh counted root user grown found given
      (faultPerm_lt vma) (u.mem p)
    rw [asIs] at insert
    refine ⟨t, role'', p, ?_, ?_⟩
    · rw [here, if_pos blank]
      simp only [faultPerm] at insert
      simp [pgdirAllocPage, alloc, insert, bind, Except.bind, pure, Except.pure]
    · rwa [broughtIn, if_pos blank, ← grown.mem p (by rw [free]; rfl) (by simp [free])]
  by_cases valid : isValid w = true
  · obtain ⟨t, role'', insert, filled⟩ := mapFresh counted root user grown found given
      (faultPerm_lt vma) (u.mem p)
    rw [asIs] at insert
    have data : role (ptePpn w) = .data := counted.layout.pte_data ((counted.isRoot _).mp root) user
      (target_some.mpr ⟨hw ▸ valid, hw ▸ rfl⟩)
    have srcPage : pa2page (ptePpn w) = .ok (ptePpn w) := if_pos (counted.layout.lt _ (by simp [data]))
    refine ⟨t.setPage p (t.mem (ptePpn w)), role'', p, ?_, ?_⟩
    · rw [here, if_neg blank, if_pos ((copies_iff odd).mpr valid)]
      simp only [faultPerm] at insert
      simp [pgdirAllocPage, alloc, insert, bind, Except.bind, pure, Except.pure, pte2page, valid,
        srcPage, page2kva, isPage]
    · rw [broughtIn, if_neg blank, if_pos valid, ← filled.frame _ data]
      exact filled.setPage _
  · have swapped : swappedOut mm s w = true := by simpa [blank, valid] using entry
    simp only [swappedOut, Bool.and_eq_true, decide_eq_true_eq] at swapped
    obtain ⟨⟨⟨on, low⟩, high⟩, priv⟩ := swapped
    obtain ⟨t, role'', insert, filled⟩ := mapFresh counted root user grown found given
      (faultPerm_lt vma) (u.swap (w >>> 8))
    refine ⟨t, role'', p, ?_, ?_⟩
    · have taken := opened.counted.takeData given rfl
      have again : getPte M mm.pgdir (roundDown addr PGSIZE) false { u with pmm := pmm } =
          .ok (some slot, { u with pmm := pmm }) :=
        getPte_found taken.layout ((taken.isRoot _).mp root) user' found
      have read : swapfsRead w p { u with pmm := pmm } =
          .ok (({ u with pmm := pmm } : Machine σ).setPage p (u.swap (w >>> 8))) := if_pos ⟨low, high⟩
      rw [here, if_neg blank, if_neg (mt (copies_iff odd).mp valid), if_pos (grown.swapInitOk.trans on)]
      simp only [faultPerm] at insert
      have same : ({ u with pmm := pmm } : Machine σ).load slot = w := here
      simp [swapIn, alloc, again, same, read, insert, assert, priv, bind, Except.bind, pure,
        Except.pure]
    · rw [broughtIn, if_neg blank, if_neg valid, ← grown.swap]
      exact filled

/-- A fault that does not resolve: the handler stops, or fails after `get_pte`. -/
theorem doPgfault_refused {errorCode : Nat} (area : mm.vmaAt addr = some vma)
    (odd : errorCode &&& 1 = 1) (stuck : resolves M mm addr s = false) :
    if isValid (pteOf s mm.pgdir addr) || s.swapInitOk then
      ∃ stop, doPgfault M mm errorCode addr s = .error stop
    else ∃ found u pmm, getPte M mm.pgdir (roundDown addr PGSIZE) true s = .ok (found, u) ∧
      doPgfault M mm errorCode addr s =
        .ok (-E_NO_MEM, { mm with mmapCache := some vma }, { u with pmm := pmm }) := by
  have user' : roundDown addr PGSIZE < USERTOP := lt_of_le_of_lt (roundDown_le ..) user
  have isRoot := (counted.isRoot _).mp root
  have starts : ¬vma.vmStart > addr := not_lt.mpr (vmaAt_covers area).1
  have lookup : findVma mm addr = (some vma, { mm with mmapCache := some vma }) := by
    rw [findVma, area]
  have here : ∀ {u role' slot}, Grown M s role u role' →
      walk u mm.pgdir (roundDown addr PGSIZE) = some slot → u.load slot = pteOf s mm.pgdir addr := by
    intro u role' slot grown found
    rw [← pteOf_walk found, grown.leaf _ _ isRoot user', pteOf_congr (roundDown_samePage addr)]
  rw [doPgfault, lookup]
  simp only [if_neg starts, bind, Except.bind]
  cases enough : enoughPages M mm addr s with
  | false =>
      rcases getPte_short counted root user enough with
        ⟨run, on, blank⟩ | ⟨u, role', run, grown, off, blank⟩ | ⟨slot, u, role', pmm, run, grown, found, given⟩
      · rw [if_pos (by simp [on]), run]
        exact ⟨_, rfl⟩
      · rw [if_neg (by simp [off, blank, isValid_zero]), run]
        exact ⟨none, u, u.pmm, rfl, rfl⟩
      · rw [run, ← grown.swapInitOk]
        have alloc := allocPage_refused given
        simp only [here grown found]
        have page : isValid (pteOf s mm.pgdir addr) = true →
            pa2page (ptePpn (pteOf s mm.pgdir addr)) = .ok (ptePpn (pteOf s mm.pgdir addr)) := fun valid =>
          if_pos (counted.layout.lt _ (by
            simp [counted.layout.pte_data isRoot user (target_some.mpr ⟨valid, rfl⟩)]))
        generalize pteOf s mm.pgdir addr = w at *
        by_cases on : u.swapInitOk = true
        · rw [if_pos on] at alloc
          rw [if_pos (by simp [on])]
          by_cases blank : w = 0
          · simp [blank, pgdirAllocPage, alloc, bind, Except.bind]
          rw [if_neg blank]
          by_cases valid : isValid w = true
          · rw [if_pos ((copies_iff odd).mpr valid)]
            simp [pte2page, valid, page, pgdirAllocPage, alloc, bind, Except.bind]
          · rw [if_neg (mt (copies_iff odd).mp valid), if_pos on]
            simp [swapIn, alloc, bind, Except.bind]
        · rw [if_neg on] at alloc
          by_cases blank : w = 0
          · rw [if_neg (by simp [on, blank, isValid_zero]), if_pos blank]
            refine ⟨some slot, u, pmm, rfl, ?_⟩
            simp [pgdirAllocPage, alloc, bind, Except.bind, pure, Except.pure]
          rw [if_neg blank]
          by_cases valid : isValid w = true
          · rw [if_pos (by simp [valid]), if_pos ((copies_iff odd).mpr valid)]
            simp [pte2page, valid, page, pgdirAllocPage, alloc, page2kva, bind, Except.bind, pure,
              Except.pure]
          · rw [if_neg (by simp [on, valid]), if_neg (mt (copies_iff odd).mp valid), if_neg on]
            exact ⟨some slot, u, u.pmm, rfl, rfl⟩
  | true =>
      obtain ⟨slot, u, role', run, grown, found, p, pmm, given⟩ := getPte_enough counted root user enough
      simp only [resolves, enough, Bool.true_and, Bool.or_eq_false_iff, decide_eq_false_iff_not] at stuck
      obtain ⟨⟨blank, invalid⟩, notSwapped⟩ := stuck
      have notCopied : ¬(pteOf s mm.pgdir addr &&& PTE_V) &&& (errorCode &&& if True then 1 else 0) ≠ 0 :=
        mt (copies_iff odd).mp (by simp [invalid])
      rw [run, ← grown.swapInitOk, invalid]
      simp only [here grown found]
      rw [if_neg blank, if_neg notCopied]
      by_cases on : u.swapInitOk = true
      · -- the entry names no page of the device, or there is no swap manager
        obtain ⟨t, role'', insert, -⟩ := mapFresh counted root user grown found given
          (faultPerm_lt vma) (u.swap (pteOf s mm.pgdir addr >>> 8))
        have taken := (Edited.of_grown counted grown).counted.takeData given rfl
        have again : getPte M mm.pgdir (roundDown addr PGSIZE) false { u with pmm := pmm } =
            .ok (some slot, { u with pmm := pmm }) :=
          getPte_found taken.layout ((taken.isRoot _).mp root) user' found
        have same : ({ u with pmm := pmm } : Machine σ).load slot = pteOf s mm.pgdir addr :=
          (here grown found : u.load slot = _)
        rw [if_pos (by simp [on]), if_pos on, swapIn, allocPage_given given]
        simp only [bind, Except.bind]
        rw [again]
        simp only [same, swapfsRead]
        generalize pteOf s mm.pgdir addr = w at *
        simp only [swappedOut, ← grown.swapInitOk, on, Bool.true_and] at notSwapped
        simp only [faultPerm] at insert
        by_cases inside : 0 < w >>> 8 ∧ w >>> 8 < maxSwapOffset
        · rw [if_pos inside]
          simp only [inside, decide_true, Bool.true_and] at notSwapped
          simp [insert, assert, notSwapped, pure, Except.pure]
        · rw [if_neg inside]
          simp
      · rw [if_neg (by simp [on]), if_neg on]
        exact ⟨some slot, u, u.pmm, rfl, rfl⟩

end Handler

end Ucore.Mm.PageFault
