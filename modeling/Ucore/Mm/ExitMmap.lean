import Ucore.Mm.ExitRange
import Ucore.Mm.Vmm

/-! # Tearing an address space down

`exit_mmap` first removes the mappings of every area, then frees the tables and
directories area by area. Whether it frees each of them once, and empty, depends on
how the areas share directories and tables.
-/

namespace Ucore.Mm.ExitMmap

open Lib.Sweep Lib.Tally Libs.Assert Mmu Pmm PageTables PageRefs Unmap Prune ExitRange Vmm

variable {σ : Type} {M : PmmManager σ} {s t u : Machine σ} {role role' role'' : Nat → Role}
  {roots : Finset Nat} {r : Nat}

/-- Page aligned, and inside user space. -/
def AreaOk (vma : VmaStruct) : Prop :=
  (vma.vmStart % PGSIZE = 0 ∧ vma.vmEnd % PGSIZE = 0) ∧ userAccess vma.vmStart vma.vmEnd = true

/-! ## Removing the mappings -/

variable (M) in
/-- From `s` to `t` the valid leaf entries of the areas below `r` were cleared. -/
structure Emptied (roots : Finset Nat) (r : Nat) (vmas : List VmaStruct) (s : Machine σ)
    (role : Nat → Role) (t : Machine σ) (role' : Nat → Role) (new : List Nat) : Prop where
  edit : Edited M roots 0 s role t role' new
  leaf : ∀ r' ∈ roots, ∀ la < USERTOP, pteOf t r' la =
    if r' = r ∧ (∃ vma ∈ vmas, vma.covers la = true) ∧ isValid (pteOf s r' la) = true then 0
    else pteOf s r' la
  upper : ∀ p, role p = .root ∨ (∃ r' i, role p = .dir r' i) → t.mem p = s.mem p
  log : ∃ pages : List (Nat × (Nat → Nat)), pages.map Prod.fst = new ∧
    t.freedWords = pages.map Prod.snd ++ s.freedWords

theorem covers_iff {vma : VmaStruct} (ok : AreaOk vma) {la : Nat} : vma.covers la = true ↔
    vma.vmStart / PGSIZE ≤ la / PGSIZE ∧ la / PGSIZE < vma.vmEnd / PGSIZE := by
  obtain ⟨⟨first, last⟩, -⟩ := ok
  simp only [VmaStruct.covers, Bool.and_eq_true, decide_eq_true_eq, PGSIZE] at *
  omega

theorem unmapAreas_emptied {vmas : List VmaStruct} (ok : ∀ vma ∈ vmas, AreaOk vma)
    (counted : Counted M roots 0 s role) (root : r ∈ roots) :
    ∃ t role' new, vmas.foldlM (fun s vma => unmapRange M r vma.vmStart vma.vmEnd s) s = .ok t ∧
      Emptied M roots r vmas s role t role' new := by
  induction vmas generalizing s role with
  | nil => exact ⟨s, role, [], rfl, .refl counted, by simp, fun _ _ => rfl, [], rfl, rfl⟩
  | cons vma vmas ih =>
      have okHere := ok vma (by simp)
      obtain ⟨t, run, role', new, swept⟩ := unmapRange_swept counted root okHere.1 okHere.2
      obtain ⟨u, role'', new', run', rest⟩ :=
        ih (fun vma member => ok vma (by simp [member])) swept.edit.counted
      refine ⟨u, role'', new' ++ new, ?_, swept.edit.trans rest.edit, fun r' root' la user => ?_,
        fun p named => ?_, ?_⟩
      · rw [List.foldlM_cons, run]
        exact run'
      · have first : pteOf t r' la = if r' = r ∧ vma.covers la = true ∧ isValid (pteOf s r' la) = true
            then 0 else pteOf s r' la := by
          rw [swept.leaf r' root' la user]
          simp only [covers_iff okHere, and_assoc]
        rw [rest.leaf r' root' la user, first]
        generalize pteOf s r' la = w
        simp only [List.exists_mem_cons_iff]
        by_cases here : r' = r
        · cases covered : vma.covers la <;> cases valid : isValid w <;> simp [here, valid, isValid_zero]
        · simp [here]
      · have same : role' p = role p := by
          refine swept.edit.kept p ?_ fun freed => ?_
          · rcases named with named | ⟨_, _, named⟩ <;> simp [named]
          · have data := (swept.edit.freed p freed).1
            rcases named with named | ⟨_, _, named⟩ <;> simp [named] at data
        exact (rest.upper p (by rwa [same])).trans (swept.upper p named)
      · obtain ⟨pages, rfl, words⟩ := swept.log
        obtain ⟨pages', rfl, words'⟩ := rest.log
        exact ⟨pages' ++ pages, by simp, by rw [words', words]; simp⟩

theorem Emptied.bare {vmas : List VmaStruct} {new : List Nat} (emptied : Emptied M roots r vmas s role t role' new)
    (root : r ∈ roots) (covered : ∀ la < USERTOP, isValid (pteOf s r la) = true →
      ∃ vma ∈ vmas, vma.covers la = true) : Bare t r := by
  intro la user
  rw [emptied.leaf r root la user]
  split
  · exact target_zero
  · rename_i uncovered
    refine target_none.mpr (Bool.not_eq_true _ ▸ fun valid => ?_)
    exact uncovered ⟨rfl, covered la user valid, valid⟩

/-! ## Freeing the tables -/

def ranges (vmas : List VmaStruct) : List (Set Nat) :=
  vmas.map fun vma => tableRange vma.vmStart vma.vmEnd

theorem exitAreas_exiting {s₀ : Machine σ} {role₀ : Nat → Role} {f : Forest Nat Nat}
    {new : List (Nat × (Nat → Nat))} (layout₀ : Layout M s₀ role₀) (root : r ∈ roots) (bare₀ : Bare s₀ r)
    {vmas : List VmaStruct} (ok : ∀ vma ∈ vmas, AreaOk vma)
    (exiting : Exiting M roots r s₀ role₀ f s role new) :
    ∃ t role' new', vmas.foldlM (fun s vma => exitRange M r vma.vmStart vma.vmEnd s) s = .ok t ∧
      Exiting M roots r s₀ role₀ (f.sweeps dirOf (ranges vmas)) t role' new' := by
  induction vmas generalizing s role f new with
  | nil => exact ⟨s, role, new, rfl, exiting⟩
  | cons vma vmas ih =>
      have okHere := ok vma (by simp)
      obtain ⟨t, run, role', new', here⟩ :=
        exitRange_exiting layout₀ root bare₀ exiting okHere.1 okHere.2
      obtain ⟨u, role'', new'', run', rest⟩ := ih (fun vma member => ok vma (by simp [member])) here
      refine ⟨u, role'', new'', ?_, rest⟩
      rw [List.foldlM_cons, run]
      exact run'

/-- `exit_mmap` empties the areas, and then sweeps them. -/
theorem exitMmap_exiting {mm : MmStruct} (counted : Counted M roots 0 s role) (root : mm.pgdir ∈ roots)
    (ok : ∀ vma ∈ mm.mmapList, AreaOk vma)
    (covered : ∀ la < USERTOP, isValid (pteOf s mm.pgdir la) = true →
      ∃ vma ∈ mm.mmapList, vma.covers la = true) :
    ∃ u role₁ gone t role₂ new, exitMmap M mm s = .ok t ∧
      Emptied M roots mm.pgdir mm.mmapList s role u role₁ gone ∧ Bare u mm.pgdir ∧
      Exiting M roots mm.pgdir u role₁
        ((forest role₁ role₁ mm.pgdir).sweeps dirOf (ranges mm.mmapList)) t role₂ new := by
  obtain ⟨u, role₁, gone, run, emptied⟩ := unmapAreas_emptied ok counted root
  have bare := emptied.bare root covered
  have counted₁ := emptied.edit.counted
  obtain ⟨t, role₂, new, run', exiting⟩ :=
    exitAreas_exiting counted₁.layout root bare ok ⟨.refl counted₁, rfl⟩
  refine ⟨u, role₁, gone, t, role₂, new, ?_, emptied, bare, exiting⟩
  rw [exitMmap, run]
  exact run'

end Ucore.Mm.ExitMmap
