import Ucore.Mm.PageFault
import Ucore.Mm.RefCounts

/-! # The contract of the page-fault handler

What a load or a store that faulted may expect from `do_pgfault`, and the exact
condition under which it gets it.
-/

namespace Ucore.Mm.FaultContract

open Libs.Assert Mmu Pmm PageTables PageRefs Vmm PageFault

inductive Access where
  | load
  | store
  deriving DecidableEq, Repr

/-- The trap causes for which `exception_handler` calls the page-fault handler. -/
def Access.causes : Access → List Nat
  | .load => [CAUSE_LOAD_ACCESS, CAUSE_LOAD_PAGE_FAULT]
  | .store => [CAUSE_STORE_ACCESS, CAUSE_STORE_PAGE_FAULT]

def Access.right : Access → Nat
  | .load => PTE_R
  | .store => PTE_W

/-- The rights an entry may give, with the flag an area must have for each. -/
def rights : List (Nat × Nat) := [(PTE_R, VM_READ), (PTE_W, VM_WRITE), (PTE_X, VM_EXEC)]

variable {σ : Type} (M : PmmManager σ) (roots : Finset Nat)

/-- The words behind a leaf entry: those of a page, or those of a swapped page. -/
def content (s : Machine σ) (w : Nat) : Option (Nat → Nat) :=
  if isValid w then some (s.mem (ptePpn w)) else if w = 0 then none else some (s.swap (w >>> 8))

/-- The entry lets the access through, and neither rights nor words were lost. -/
structure Restored (r addr : Nat) (vma : VmaStruct) (a : Access) (s t : Machine σ) : Prop where
  valid : isValid (pteOf t r addr) = true
  permits : hasFlags (pteOf t r addr) PTE_U = true ∧ hasFlags (pteOf t r addr) a.right = true
  bounded : ∀ pair ∈ rights, hasFlags (pteOf t r addr) pair.1 = true → hasFlags vma.vmFlags pair.2 = true
  keeps : isValid (pteOf s r addr) = true → ∀ right ∈ PTE_U :: rights.map Prod.fst,
    hasFlags (pteOf s r addr) right = true → hasFlags (pteOf t r addr) right = true
  words : ∀ words, content s (pteOf s r addr) = some words → content t (pteOf t r addr) = some words
  fresh : pteOf s r addr = 0 → ∃ p, target (pteOf t r addr) = some p ∧ M.Free s.pmm p

/-- Page tables, contents of pages and reference counts are as before. -/
structure Untouched (s t : Machine σ) : Prop where
  mem : t.mem = s.mem
  ref : t.ref = s.ref
  swap : t.swap = s.swap

/-- No area covers the address, or a store meets an area without `VM_WRITE`. -/
def Forbidden (mm : MmStruct) (addr : Nat) (a : Access) : Prop :=
  match mm.vmaAt addr with
  | none => True
  | some vma => a = .store ∧ ¬hasFlags vma.vmFlags VM_WRITE = true

structure Contract (mm : MmStruct) (addr : Nat) (a : Access) (s : Machine σ)
    (result : Result (Int × MmStruct × Machine σ)) : Prop where
  resolved : ∀ mm' t, result = .ok (0, mm', t) →
    ∃ vma, mm.vmaAt addr = some vma ∧ Restored M mm.pgdir addr vma a s t
  refused : Forbidden mm addr a → ∃ ret mm' t, result = .ok (ret, mm', t) ∧ ret ≠ 0 ∧ Untouched s t
  copied : ∀ ret mm' t, result = .ok (ret, mm', t) → isValid (pteOf s mm.pgdir addr) = true →
    ptePpn (pteOf t mm.pgdir addr) ≠ ptePpn (pteOf s mm.pgdir addr) → a = .store

/-- Where the contract is met. Without an area it always is. A fault that ends in a
    mapping must be in an area that is both readable and writable, and if the page was
    mapped before, it must be a store to a page that is not executable. A fault that
    cannot be resolved must be allowed in the area, or fail before anything is made. -/
def Meets (mm : MmStruct) (addr : Nat) (a : Access) (s : Machine σ) : Prop :=
  match mm.vmaAt addr with
  | none => True
  | some vma =>
      if resolves M mm addr s then
        hasFlags vma.vmFlags VM_READ = true ∧ hasFlags vma.vmFlags VM_WRITE = true ∧
          (isValid (pteOf s mm.pgdir addr) = true →
            a = .store ∧ ¬hasFlags (pteOf s mm.pgdir addr) PTE_X = true)
      else
        ¬Forbidden mm addr a ∨
          (¬isValid (pteOf s mm.pgdir addr) = true ∧ ¬s.swapInitOk = true ∧
            (missing s mm.pgdir addr = 0 ∨ (M.allocPage s.pmm).1 = none))

variable {M} {roots} {s t : Machine σ} {role role' : Nat → Role} {mm : MmStruct} {vma : VmaStruct}
  {addr errorCode : Nat} {a : Access}

theorem causes_odd (cause : errorCode ∈ a.causes) : errorCode &&& 1 = 1 := by
  cases a <;> simp only [Access.causes, List.mem_cons, List.not_mem_nil, or_false] at cause <;>
    rcases cause with rfl | rfl <;> decide

/-! ## The rights of the new entry -/

section Rights

variable {p : Nat}

theorem newPte_bit {i : Nat} (low : i < 10) :
    hasFlags (pteCreate p (PTE_V ||| faultPerm vma)) (2 ^ i) = hasFlags (PTE_V ||| faultPerm vma) (2 ^ i) := by
  rw [hasFlags_bit, hasFlags_bit, pteCreate_testBit low, ← Nat.or_assoc, Nat.or_self]

theorem newPte_U : hasFlags (pteCreate p (PTE_V ||| faultPerm vma)) PTE_U = true := by
  refine (newPte_bit (i := 4) (by decide)).trans ?_
  unfold faultPerm
  split <;> decide

/-- The page becomes readable and writable in a writable area, and neither elsewhere. -/
theorem newPte_R : hasFlags (pteCreate p (PTE_V ||| faultPerm vma)) PTE_R = hasFlags vma.vmFlags VM_WRITE := by
  refine (newPte_bit (i := 1) (by decide)).trans ?_
  unfold faultPerm
  cases hasFlags vma.vmFlags VM_WRITE <;> decide

theorem newPte_W : hasFlags (pteCreate p (PTE_V ||| faultPerm vma)) PTE_W = hasFlags vma.vmFlags VM_WRITE := by
  refine (newPte_bit (i := 2) (by decide)).trans ?_
  unfold faultPerm
  cases hasFlags vma.vmFlags VM_WRITE <;> decide

theorem newPte_X : ¬hasFlags (pteCreate p (PTE_V ||| faultPerm vma)) PTE_X = true := by
  rw [show hasFlags (pteCreate p (PTE_V ||| faultPerm vma)) PTE_X = _ from newPte_bit (i := 3) (by decide)]
  unfold faultPerm
  cases hasFlags vma.vmFlags VM_WRITE <;> decide

end Rights

/-! ## The three outcomes -/

section Outcomes

variable (counted : Counted M roots 0 s role) (root : mm.pgdir ∈ roots) (user : addr < USERTOP)
include counted root user

/-- The entry that resolves a fault restores access in an area that is readable and
    writable, unless it takes away the right to execute. -/
theorem restored_iff {p : Nat} (filled : Filled M roots mm.pgdir addr (faultPerm vma) s role t role' p
    (broughtIn s (pteOf s mm.pgdir addr) p)) :
    Restored M mm.pgdir addr vma a s t ↔
      hasFlags vma.vmFlags VM_READ = true ∧ hasFlags vma.vmFlags VM_WRITE = true ∧
        (isValid (pteOf s mm.pgdir addr) = true → ¬hasFlags (pteOf s mm.pgdir addr) PTE_X = true) := by
  have now : pteOf t mm.pgdir addr = pteCreate p (PTE_V ||| faultPerm vma) := by
    rw [filled.sets _ root _ user, if_pos ⟨rfl, rfl⟩]
  have small : PTE_V ||| faultPerm vma < 1024 := Nat.or_lt_two_pow (n := 10) (by decide) (faultPerm_lt vma)
  have points : target (pteOf t mm.pgdir addr) = some p := now ▸ target_pteCreate small
  constructor
  · intro restored
    have writable : hasFlags vma.vmFlags VM_WRITE = true := by
      have right := restored.permits.2
      rw [now] at right
      cases a with
      | load => rwa [Access.right, newPte_R] at right
      | store => rwa [Access.right, newPte_W] at right
    refine ⟨?_, writable, fun valid executable => ?_⟩
    · refine restored.bounded (PTE_R, VM_READ) (by simp [rights]) ?_
      rw [now, newPte_R, writable]
    · have kept := restored.keeps valid PTE_X (by simp [rights]) executable
      rw [now] at kept
      exact newPte_X kept
  · rintro ⟨readable, writable, notExecutable⟩
    refine ⟨(target_some.mp points).1, ⟨now ▸ newPte_U, ?_⟩, ?_, ?_, ?_, ?_⟩
    · rw [now]
      cases a with
      | load => rw [Access.right, newPte_R, writable]
      | store => rw [Access.right, newPte_W, writable]
    · simp only [rights, List.forall_mem_cons, readable, writable, imp_true_iff, true_and, now]
      exact ⟨fun executable => absurd executable newPte_X, by simp⟩
    · intro valid
      simp only [rights, List.map_cons, List.map_nil, List.forall_mem_cons, now, newPte_U, newPte_R,
        newPte_W, writable, imp_true_iff, true_and]
      exact ⟨fun executable => absurd executable (notExecutable valid), by simp⟩
    · intro words before
      rw [content, if_pos (target_some.mp points).1, (target_some.mp points).2, filled.words, ← before]
      simp only [content, broughtIn] at before ⊢
      by_cases valid : isValid (pteOf s mm.pgdir addr) = true
      · have nonzero : pteOf s mm.pgdir addr ≠ 0 := by
          intro zero
          rw [zero, isValid_zero] at valid
          cases valid
        simp [valid, nonzero]
      · by_cases zero : pteOf s mm.pgdir addr = 0
        · simp [zero, isValid_zero] at before
        · simp [valid, zero]
    · exact fun _ => ⟨p, points, (counted.layout.free p).mpr filled.free⟩

theorem contract_resolves {mm' : MmStruct} {p : Nat} (area : mm.vmaAt addr = some vma)
    (filled : Filled M roots mm.pgdir addr (faultPerm vma) s role t role' p
      (broughtIn s (pteOf s mm.pgdir addr) p)) :
    Contract M mm addr a s (.ok (0, mm', t)) ↔
      hasFlags vma.vmFlags VM_READ = true ∧ hasFlags vma.vmFlags VM_WRITE = true ∧
        (isValid (pteOf s mm.pgdir addr) = true →
          a = .store ∧ ¬hasFlags (pteOf s mm.pgdir addr) PTE_X = true) := by
  have restores := restored_iff (a := a) counted root user filled
  -- a page that was mapped is not the one that was free
  have moved : isValid (pteOf s mm.pgdir addr) = true →
      ptePpn (pteOf t mm.pgdir addr) ≠ ptePpn (pteOf s mm.pgdir addr) := by
    intro valid same
    have data := counted.layout.pte_data ((counted.isRoot _).mp root) user (target_some.mpr ⟨valid, rfl⟩)
    rw [filled.sets _ root _ user, if_pos ⟨rfl, rfl⟩,
      ptePpn_pteCreate (Nat.or_lt_two_pow (n := 10) (by decide) (faultPerm_lt vma))] at same
    rw [← same, filled.free] at data
    cases data
  constructor
  · intro contract
    obtain ⟨vma', area', restored⟩ := contract.resolved mm' t rfl
    obtain rfl : vma = vma' := Option.some.inj (area.symm.trans area')
    obtain ⟨readable, writable, notExecutable⟩ := restores.mp restored
    exact ⟨readable, writable, fun valid =>
      ⟨contract.copied 0 mm' t rfl valid (moved valid), notExecutable valid⟩⟩
  · rintro ⟨readable, writable, rest⟩
    refine ⟨fun mm'' t' same => ⟨vma, area, ?_⟩, fun forbidden => ?_, fun ret mm'' t' _ valid _ =>
      (rest valid).1⟩
    · simp only [Except.ok.injEq, Prod.mk.injEq, true_and] at same
      exact same.2 ▸ restores.mpr ⟨readable, writable, fun valid => (rest valid).2⟩
    · rw [Forbidden, area] at forbidden
      exact absurd writable forbidden.2

omit counted root user in
theorem contract_stops {stop : Stop} : Contract M mm addr a s (.error stop) ↔ ¬Forbidden mm addr a := by
  constructor
  · rintro contract forbidden
    obtain ⟨_, _, _, run, -⟩ := contract.refused forbidden
    cases run
  · intro allowed
    exact ⟨by simp, fun forbidden => absurd forbidden allowed, by simp⟩

omit counted root user in
theorem contract_fails {ret : Int} {mm' : MmStruct} (nonzero : ret ≠ 0)
    (unmapped : mm.vmaAt addr ≠ none → ¬isValid (pteOf s mm.pgdir addr) = true)
    (same : mm.vmaAt addr = none → t = s) :
    Contract M mm addr a s (.ok (ret, mm', t)) ↔ ¬Forbidden mm addr a ∨ Untouched s t := by
  constructor
  · intro contract
    by_cases forbidden : Forbidden mm addr a
    · obtain ⟨_, _, _, run, -, untouched⟩ := contract.refused forbidden
      simp only [Except.ok.injEq, Prod.mk.injEq] at run
      exact .inr (run.2.2 ▸ untouched)
    · exact .inl forbidden
  · intro allowed
    refine ⟨fun _ _ run => ?_, fun forbidden => ?_, fun _ _ t' run valid moved => ?_⟩
    · simp only [Except.ok.injEq, Prod.mk.injEq] at run
      exact absurd run.1 nonzero
    · exact ⟨ret, mm', t, rfl, nonzero, allowed.resolve_left (not_not_intro forbidden)⟩
    · simp only [Except.ok.injEq, Prod.mk.injEq] at run
      cases area : mm.vmaAt addr with
      | none => exact absurd (by rw [← run.2.2, same area]) moved
      | some vma => exact absurd valid (unmapped (by simp [area]))

end Outcomes

/-- `do_pgfault`, called with the cause of a load or of a store that trapped, keeps the
    contract exactly where `Meets` says so. -/
theorem doPgfault_contract (counted : Counted M roots 0 s role) (root : mm.pgdir ∈ roots)
    (cached : ∀ vma, mm.mmapCache = some vma → vma ∈ mm.mmapList)
    (inUser : ∀ vma ∈ mm.mmapList, vma.vmEnd ≤ USERTOP) (cause : errorCode ∈ a.causes) :
    Contract M mm addr a s (doPgfault M mm errorCode addr s) ↔ Meets M mm addr a s := by
  have odd := causes_odd cause
  cases area : mm.vmaAt addr with
  | none =>
      have run : doPgfault M mm errorCode addr s = .ok (-E_INVAL, mm, s) := by
        simp [doPgfault, findVma, area, pure, Except.pure]
      rw [run, contract_fails (by decide) (by simp [area]) (fun _ => rfl), Meets, area]
      simp only [iff_true]
      exact .inr ⟨rfl, rfl, rfl⟩
  | some vma =>
      have user : addr < USERTOP := by
        have covers := vmaAt_covers area
        have inside := inUser vma (vmaAt_mem cached area)
        omega
      rw [Meets, area]
      cases resolvable : resolves M mm addr s with
      | true =>
          obtain ⟨t, role', p, run, filled⟩ := doPgfault_resolves counted root user area odd resolvable
          rw [run]
          exact contract_resolves counted root user area filled
      | false =>
          have outcome := doPgfault_refused counted root user area odd resolvable
          simp only [Bool.false_eq_true, if_false]
          by_cases stops : isValid (pteOf s mm.pgdir addr) || s.swapInitOk
          · rw [if_pos stops] at outcome
            obtain ⟨stop, run⟩ := outcome
            rw [run, contract_stops]
            simp only [Bool.or_eq_true] at stops
            tauto
          · rw [if_neg stops] at outcome
            obtain ⟨found, u, pmm, opened, run⟩ := outcome
            simp only [Bool.or_eq_true, not_or] at stops
            have same : missing s mm.pgdir (roundDown addr PGSIZE) = missing s mm.pgdir addr :=
              missing_congr (roundDown_samePage addr)
            have user' : roundDown addr PGSIZE < USERTOP := lt_of_le_of_lt (roundDown_le ..) user
            have isRoot := (counted.isRoot _).mp root
            rw [run, contract_fails (by decide) (fun _ => stops.1) (by simp [area])]
            refine or_congr_right ⟨fun untouched => ⟨stops.1, stops.2, ?_⟩, fun kept => ?_⟩
            · by_contra busy
              rw [not_or, ← same] at busy
              exact getPte_wrote counted.layout isRoot user' opened busy.1 busy.2 untouched.mem
            · obtain ⟨-, -, idle⟩ := kept
              rw [← same] at idle
              obtain ⟨mem, ref, swap⟩ := getPte_idle counted.layout isRoot user' opened idle
              exact ⟨mem, ref, swap⟩

/-! ## One address space with one area

Set up by `setup_pgdir`, with nothing mapped yet.
-/

section OneArea

open Lib.Run RefCounts

/-- The area goes from `USERBASE` to the end of the first table's stretch. -/
def oneArea (flags : Nat) : MmStruct := ⟨[⟨0x200000, 0x400000, flags⟩], none, 100, 1, false⟩

theorem oneArea_user {flags : Nat} : ∀ vma ∈ (oneArea flags).mmapList, vma.vmEnd ≤ USERTOP := by
  simp only [oneArea, List.mem_singleton, forall_eq]
  decide +kernel

theorem oneArea_ready : ∃ (s : Machine PageList) (role : Nat → Role),
    Counted lowestFirst {100} 0 s role ∧
      ∀ flags < 16, resolves lowestFirst (oneArea flags) 0x200000 s = true ∧
        pteOf s 100 0x200000 = 0 := by
  have played : (play (trial lowestFirst 0) (booted 50 (by decide)) [.setupPgdir]).map (fun s =>
      (s.roots, (List.range 16).all fun flags =>
        resolves lowestFirst (oneArea flags) 0x200000 s.machine && (pteOf s.machine 100 0x200000 = 0))) =
        some ({100}, true) := by
    decide +kernel
  obtain ⟨s, played, found⟩ := Option.map_eq_some_iff.mp played
  simp only [Prod.mk.injEq, List.all_eq_true, List.mem_range, Bool.and_eq_true,
    decide_eq_true_eq] at found
  obtain ⟨role, inv⟩ := run_inv (play_reachable trial_step (.start (booted_initial 50 (by decide))) played)
  exact ⟨s.machine, role, found.1 ▸ inv.counted, found.2⟩

/-- In a readable and writable area a first load goes by the contract. -/
theorem doPgfault_contract_load : ∃ s : Machine PageList,
    Contract lowestFirst (oneArea (VM_READ ||| VM_WRITE)) 0x200000 .load s
      (doPgfault lowestFirst (oneArea (VM_READ ||| VM_WRITE)) CAUSE_LOAD_PAGE_FAULT 0x200000 s) := by
  obtain ⟨s, role, counted, ready⟩ := oneArea_ready
  obtain ⟨resolvable, empty⟩ := ready (VM_READ ||| VM_WRITE) (by decide)
  refine ⟨s, (doPgfault_contract counted (by simp [oneArea]) (by simp [oneArea]) oneArea_user
    (by simp [Access.causes])).mpr ?_⟩
  have area : (oneArea (VM_READ ||| VM_WRITE)).vmaAt 0x200000 =
      some ⟨0x200000, 0x400000, VM_READ ||| VM_WRITE⟩ := by decide
  rw [Meets, area]
  simp only [resolvable, if_true]
  refine ⟨by decide, by decide, fun valid => ?_⟩
  rw [show pteOf s (oneArea (VM_READ ||| VM_WRITE)).pgdir 0x200000 = 0 from empty, isValid_zero] at valid
  cases valid

/-- A store to a read-only area is let through, with an entry that gives no right. -/
theorem storeToReadOnly_resolved : ¬∀ (s : Machine PageList) (roots : Finset Nat) (mm : MmStruct)
    (addr errorCode : Nat) (a : Access), (∃ role, Counted lowestFirst roots 0 s role) →
    mm.pgdir ∈ roots → (∀ vma, mm.mmapCache = some vma → vma ∈ mm.mmapList) →
    (∀ vma ∈ mm.mmapList, vma.vmEnd ≤ USERTOP) → errorCode ∈ a.causes →
    Contract lowestFirst mm addr a s (doPgfault lowestFirst mm errorCode addr s) := by
  intro always
  obtain ⟨s, role, counted, ready⟩ := oneArea_ready
  have area : (oneArea VM_READ).vmaAt 0x200000 = some ⟨0x200000, 0x400000, VM_READ⟩ := by decide
  have root : (oneArea VM_READ).pgdir ∈ ({100} : Finset Nat) := by simp [oneArea]
  obtain ⟨t, role', p, run, -⟩ := doPgfault_resolves counted root (by decide +kernel) area
    (causes_odd (by simp [Access.causes] : CAUSE_STORE_PAGE_FAULT ∈ Access.store.causes))
    (ready VM_READ (by decide)).1
  have contract := always s {100} (oneArea VM_READ) 0x200000 CAUSE_STORE_PAGE_FAULT .store ⟨role, counted⟩
    root (by simp [oneArea]) oneArea_user (by simp [Access.causes])
  have forbidden : Forbidden (oneArea VM_READ) 0x200000 .store := by
    rw [Forbidden, area]
    exact ⟨rfl, by decide⟩
  obtain ⟨ret, _, _, run', nonzero, -⟩ := contract.refused forbidden
  rw [run] at run'
  simp only [Except.ok.injEq, Prod.mk.injEq] at run'
  exact nonzero run'.1.symm

end OneArea

end Ucore.Mm.FaultContract
