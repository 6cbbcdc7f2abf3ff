import Ucore.Mm.RefCounts

/-! # The copy-on-write module

`cow_copy_range` and `cow_pgfault` of `cow.c`. A range is shared by mapping each of its
pages a second time, both times without the right to write; a fault on such a page maps a
copy in its place. `cow_pgfault` clears the entry before it maps the copy, so that
`page_insert` does not see the page that was there.
-/

namespace Ucore.Mm.Cow

open Lib.Run Libs.Assert Libs.Loop Mmu Pmm PageTables PageRefs Unmap

open RefCounts (Sys Initial handedBack handedBack_eq pushedOut_released)

variable {σ : Type} (M : PmmManager σ)

/-- `*ptep & ~PTE_W`, in 64 bits. -/
def clearWrite (w : Nat) : Nat := w &&& (2 ^ 64 - 1 - PTE_W)

/-- One round of the loop of `cow_copy_range`. -/
def cowCopyBody (toDir fromDir start : Nat) (s : Machine σ) : Result (Nat × Machine σ) := do
  match ← getPte M fromDir start false s with
  | (none, s) => pure (roundDown (start + PTSIZE) PTSIZE, s)
  | (some ptep, s) =>
      if isValid (s.load ptep) then do
        let s := s.store ptep (clearWrite (s.load ptep))
        let perm := withoutWrite (s.load ptep &&& PTE_USER)
        let page ← pte2page (s.load ptep)
        let (ret, s) ← pageInsert M toDir page start perm s
        assert (ret = 0)
        pure (start + PGSIZE, s)
      else pure (start + PGSIZE, s)

def cowCopyRange (toDir fromDir start stop : Nat) (s : Machine σ) : Result (Int × Machine σ) := do
  assert (start % PGSIZE = 0 ∧ stop % PGSIZE = 0)
  assert (userAccess start stop = true)
  let s ← doWhile (fun start _ => start ≠ 0 && start < stop) (cowCopyBody M toDir fromDir) stop start s
  pure (0, s)

def cowPgfault (pgdir addr : Nat) (s : Machine σ) : Result (Int × Machine σ) := do
  match ← getPte M pgdir addr false s with
  | (none, _) => .error .panic
  | (some ptep, s) => do
      let perm := s.load ptep &&& PTE_USER ||| PTE_W
      let page ← pte2page (s.load ptep)
      match ← allocPage M s with
      | (none, _) => .error .assertion
      | (some npage, s) => do
          let src ← pa2page page
          let dst ← pa2page npage
          let s := s.setPage dst (s.mem src)
          let start := roundDown addr PGSIZE
          let s := s.store ptep 0
          let (ret, s) ← pageInsert M pgdir npage start perm s
          let (_, s) ← getPte M pgdir addr false s
          pure (ret, s)

variable {M} {s t u : Machine σ} {role role' : Nat → Role} {roots : Finset Nat} {held : Nat → Nat}

/-! ## Entries -/

theorem faultPerm_lt (w : Nat) : w &&& PTE_USER ||| PTE_W < 1024 :=
  Nat.or_lt_two_pow (n := 10) (Nat.and_le_right.trans_lt (by decide)) (by decide)

section Fault

variable {r addr old new : Nat} {pmm : σ} {slot : Slot}

end Fault

/-! ## `cow_copy_range` -/

section Copy

variable {toDir fromDir start stop next : Nat} {role'' : Nat → Role} {new new' : List Nat}

variable (M) in
/-- Up to here pages were only mapped that were mapped before, and only freed for it that are mapped
    no longer. -/
structure Copied (roots : Finset Nat) (held : Nat → Nat) (s : Machine σ) (role : Nat → Role) (t : Machine σ)
    (role' : Nat → Role) (new : List Nat) : Prop where
  edit : Edited M roots held s role t role' new
  stays : ∀ p, mappings roots s p = 0 → mappings roots t p = 0
  unheld : ∀ p ∈ new, held p = 0
  released : held = 0 → Released roots s t new

theorem Copied.refl (counted : Counted M roots held s role) : Copied M roots held s role s role [] where
  edit := .refl counted
  stays _ none := none
  unheld _ inside := absurd inside List.not_mem_nil
  released _ := .of_eq fun _ => rfl

theorem Copied.trans (first : Copied M roots held s role t role' new)
    (second : Copied M roots held t role' u role'' new') : Copied M roots held s role u role'' (new' ++ new) where
  edit := first.edit.trans second.edit
  stays p none := second.stays p (first.stays p none)
  unheld p inside := (List.mem_append.mp inside).elim (second.unheld p) (first.unheld p)
  released exact := (first.released exact).trans (second.released exact) first.stays second.stays

end Copy

/-! ## Runs -/

inductive Call where
  | cowCopyRange (toDir fromDir start stop : Nat)
  | cowPgfault (pgdir addr : Nat)

variable (M) in
/-- The page that a fault maps is a user page from then on. -/
def exec (s : Sys σ) : Call → Result (Sys σ)
  | .cowCopyRange toDir fromDir start stop => do
      let (_, m) ← cowCopyRange M toDir fromDir start stop s.machine
      pure (s.after m)
  | .cowPgfault pgdir addr => do
      let (_, m) ← cowPgfault M pgdir addr s.machine
      pure { s.after m with pages := (s.after m).pages ∪ (target (pteOf m pgdir addr)).toFinset }

/-- Page tables that were set up, and a fault at a page that is mapped. -/
def Legal (s : Sys σ) : Call → Prop
  | .cowCopyRange toDir fromDir _ _ => toDir ∈ s.roots ∧ fromDir ∈ s.roots
  | .cowPgfault pgdir addr => pgdir ∈ s.roots ∧ addr < USERTOP ∧ isValid (pteOf s.machine pgdir addr) = true

instance (s : Sys σ) (c : Call) : Decidable (Legal s c) := by
  cases c <;> unfold Legal <;> infer_instance

variable (M) in
/-- A call that returns: no allocation in it failed. -/
def Step (s : Sys σ) (c : Call) (t : Sys σ) : Prop := Legal s c ∧ exec M s c = .ok t

/-- The fault left a page of its own, which may be written and has the words of the page that was
    mapped before. -/
def Resolved (s t : Sys σ) (pgdir addr : Nat) : Prop :=
  ∃ page, target (pteOf t.machine pgdir addr) = some page ∧ hasFlags (pteOf t.machine pgdir addr) PTE_W = true ∧
    mappings t.roots t.machine page = 1 ∧ t.machine.ref page = 1 ∧
    t.machine.mem page = s.machine.mem (ptePpn (pteOf s.machine pgdir addr))

/-- What a call should do. -/
structure Sound (s : Sys σ) (c : Call) (t : Sys σ) : Prop where
  mapped : ∀ p, 0 < mappings t.roots t.machine p → p ∈ t.pages
  refs : ∀ p ∈ t.pages, t.machine.ref p = mappings t.roots t.machine p
  frees : ∃ new, t.machine.frees = new ++ s.machine.frees ∧ Released t.roots s.machine t.machine new
  resolved : ∀ pgdir addr, c = .cowPgfault pgdir addr → Resolved s t pgdir addr

variable (M) in
/-- `held` counts the references to a page that no entry has. -/
structure Inv (s : Sys σ) (role : Nat → Role) (held : Nat → Nat) : Prop where
  counted : Counted M s.roots held s.machine role
  pages : ∀ p, p ∈ s.pages ↔ role p = .data
  data : ∀ p, held p ≠ 0 → role p = .data

section Runs

variable {s t : Sys σ} {c : Call} {calls : List Call}

theorem Inv.mapped (inv : Inv M s role held) {p : Nat} (positive : 0 < mappings s.roots s.machine p) : p ∈ s.pages := by
  by_contra outside
  have absent := inv.counted.mappings_eq_zero fun data => outside ((inv.pages p).mpr data)
  omega

end Runs

/-! ## A page that is mapped once -/

open RefCounts (trial trial_step booted booted_initial)

/-- Two page tables, the first of which maps the page at `USERBASE`. The page can be shared, and a
    fault on it is resolved. -/
theorem onePage : ∃ s : Sys PageList, Reachable (Initial lowestFirst 0) (RefCounts.Step lowestFirst 0) s ∧
    (∃ t, Step lowestFirst s (.cowCopyRange 101 100 0x200000 0x201000) t) ∧
    ∃ t, Step lowestFirst s (.cowPgfault 100 0x200000) t := by
  have played : (play (trial lowestFirst 0) (booted 50 (by decide)) [.setupPgdir, .setupPgdir,
      .pgdirAllocPage 100 0x200000 0x1f]).map (fun s => (s.roots, isValid (pteOf s.machine 100 0x200000),
        (cowCopyRange lowestFirst 101 100 0x200000 0x201000 s.machine).toOption.isSome,
        (cowPgfault lowestFirst 100 0x200000 s.machine).toOption.isSome)) = some ({100, 101}, true, true, true) := by
    decide +kernel
  obtain ⟨s, played, found⟩ := Option.map_eq_some_iff.mp played
  simp only [Prod.mk.injEq, Option.isSome_iff_exists, toOption_some] at found
  obtain ⟨roots, valid, ⟨⟨ret, m⟩, copied⟩, ⟨ret', m'⟩, resolved⟩ := found
  have user : 0x200000 < USERTOP := by decide +kernel
  refine ⟨s, play_reachable trial_step (.start (booted_initial 50 (by decide))) played,
    ⟨s.after m, ⟨by simp [roots], by simp [roots]⟩, ?_⟩,
    ⟨_, ⟨by simp [roots], user, valid⟩, bind_ok.mpr ⟨_, resolved, rfl⟩⟩⟩
  exact bind_ok.mpr ⟨_, copied, rfl⟩

end Ucore.Mm.Cow
