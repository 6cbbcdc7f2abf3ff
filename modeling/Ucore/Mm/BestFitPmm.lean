import Ucore.Mm.DefaultPmm

/-! # The best-fit physical memory manager

`best_fit_pmm.c`. The free list, the descriptors and the counters are those of
`default_pmm.c`, and so are the steps it shares with it: opening a block, finding its
place, taking pages off a block, merging. The search of `best_fit_alloc_pages` differs.
-/

namespace Ucore.Mm.BestFitPmm

open Lib.Ring Libs.Assert Libs.List DefaultPmm

/-- The scan of the whole list: `page` is the block found so far, `minSize` its size. -/
def findBest (s : Pmm) (n : Nat) : Nat → Entry → Nat → Option Nat → Result (Option Nat)
  | 0, _, _, _ => .error .fuel
  | fuel + 1, le, minSize, page =>
      match s.links.next le with
      | .freeList => .ok page
      | .pageLink p =>
          if n ≤ (s.pages p).property ∧ (s.pages p).property < minSize then
            findBest s n fuel (.pageLink p) (s.pages p).property (some p)
          else findBest s n fuel (.pageLink p) minSize page

/-- The sum `nr_free + 1` is one of `unsigned int`s. -/
def bestFitAllocPages (fuel : Nat) (s : Pmm) (n : Nat) : Result (Option Nat × Pmm) := do
  assert (0 < n)
  if s.nrFree < n then
    pure (none, s)
  else
    match ← findBest s n fuel .freeList (u32 (s.nrFree + 1)) none with
    | some page => pure (some page, takeFrom s page n)
    | none => pure (none, s)

def bestFitFreePages (fuel : Nat) (s : Pmm) (base n : Nat) : Result Pmm := do
  assert (0 < n)
  let pages ← resetPages (fun p => !p.pgReserved && !p.pgProperty)
    (fun p => ⟨0, false, false, p.property⟩) base n s.pages
  let s ← insertBlock fuel (markHead { s with pages := pages } base n) base
  let (base, s) := mergePrev s base
  pure (mergeNext s base)

def bestFitNrFreePages (s : Pmm) : Nat := s.nrFree

end Ucore.Mm.BestFitPmm
