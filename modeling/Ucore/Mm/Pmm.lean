import Ucore.Libs.Loop
import Ucore.Mm.Mmu

/-! # Physical memory and page tables

`pmm.c`: the pages of the machine, with their reference counts and their contents,
and the functions that walk, fill and tear down page tables. A page table is a page
whose words are entries. Pages are named by their page number, and `struct Page *`
is such a number; a null pointer is `none`.
-/

namespace Ucore.Mm.Pmm

open Libs.Assert Libs.Loop Mmu

/-- The calls of `struct pmm_manager`, as far as single pages go. -/
structure PmmCalls (σ : Type) where
  allocPage : σ → Option Nat × σ
  freePage : σ → Nat → σ

/-- `struct pmm_manager` with what its users rely on: a page handed out was free, and only
    freeing makes a page free. -/
structure PmmManager (σ : Type) extends PmmCalls σ where
  Free : σ → Nat → Prop
  free_lt : ∀ {s p}, Free s p → p < npage
  alloc_some : ∀ {s t p}, allocPage s = (some p, t) →
    Free s p ∧ ∀ q, Free t q ↔ Free s q ∧ q ≠ p
  alloc_none : ∀ {s t}, allocPage s = (none, t) → ∀ q, Free t q ↔ Free s q
  free_page : ∀ {s p}, p < npage → ¬Free s p → ∀ q, Free (freePage s p) q ↔ Free s q ∨ q = p

instance : Coe (PmmManager σ) (PmmCalls σ) := ⟨PmmManager.toPmmCalls⟩

/-- The place of one entry. -/
structure Slot where
  page : Nat
  index : Nat
  deriving DecidableEq, Repr

/-- `mem` are the words of each page, `swap` those of each page of the swap device.
    `frees` logs the pages handed to `free_page`, the latest first, and `freedWords` the
    words they held then. -/
structure Machine (σ : Type) where
  pmm : σ
  ref : Nat → Int
  mem : Nat → Nat → Nat
  swapInitOk : Bool
  swap : Nat → Nat → Nat
  frees : List Nat
  freedWords : List (Nat → Nat)

def E_INVAL : Int := 3
def E_NO_MEM : Int := 4

variable {σ : Type}

namespace Machine

def load (s : Machine σ) (slot : Slot) : Nat := s.mem slot.page slot.index

def setPage (s : Machine σ) (page : Nat) (words : Nat → Nat) : Machine σ :=
  { s with mem := Function.update s.mem page words }

def store (s : Machine σ) (slot : Slot) (w : Nat) : Machine σ :=
  s.setPage slot.page (Function.update (s.mem slot.page) slot.index w)

def setPageRef (s : Machine σ) (page : Nat) (val : Int) : Machine σ :=
  { s with ref := Function.update s.ref page val }

def pageRefInc (s : Machine σ) (page : Nat) : Machine σ := s.setPageRef page (s.ref page + 1)

def pageRefDec (s : Machine σ) (page : Nat) : Machine σ := s.setPageRef page (s.ref page - 1)

end Machine

/-- `KADDR` and `pa2page`: the number must be that of a page. -/
def pa2page (ppn : Nat) : Result Nat := if ppn < npage then .ok ppn else .error .panic

def pte2page (pte : Nat) : Result Nat :=
  if isValid pte then pa2page (ptePpn pte) else .error .panic

/-- `page2kva` of a pointer that may be null; the address of a null page is no
    page's. -/
def page2kva : Option Nat → Result Nat
  | some page => pa2page page
  | none => .error .panic

variable (M : PmmCalls σ)

/-- Once swapping is on, `alloc_pages` answers a refusal by swapping out pages of
    `check_mm_struct`, which is null outside the self-test. -/
def allocPage (s : Machine σ) : Result (Option Nat × Machine σ) :=
  match M.allocPage s.pmm with
  | (some page, pmm) => .ok (some page, { s with pmm := pmm })
  | (none, pmm) =>
      if s.swapInitOk then .error .panic else .ok (none, { s with pmm := pmm })

/-- The manager resets the reference count of a page it takes back. -/
def freePage (s : Machine σ) (page : Nat) : Machine σ :=
  { s.setPageRef page 0 with
    pmm := M.freePage s.pmm page, frees := page :: s.frees, freedWords := s.mem page :: s.freedWords }

/-- One level of `get_pte`: the page an entry points to, which is made if the entry
    is invalid and `create` is set. -/
def getTable (pdep : Slot) (create : Bool) (s : Machine σ) : Result (Option Nat × Machine σ) :=
  if isValid (s.load pdep) then do
    let page ← pa2page (ptePpn (s.load pdep))
    pure (some page, s)
  else if create then do
    match ← allocPage M s with
    | (none, s) => pure (none, s)
    | (some page, s) => do
        let s := s.setPageRef page 1
        let page ← pa2page page
        let s := s.setPage page fun _ => 0
        let s := s.store pdep (pteCreate page (PTE_U ||| PTE_V))
        let page ← pa2page (ptePpn (s.load pdep))
        pure (some page, s)
  else pure (none, s)

def getPte (pgdir la : Nat) (create : Bool) (s : Machine σ) : Result (Option Slot × Machine σ) := do
  match ← getTable M ⟨pgdir, pdx1 la⟩ create s with
  | (none, s) => pure (none, s)
  | (some pd0, s) =>
      match ← getTable M ⟨pd0, pdx0 la⟩ create s with
      | (none, s) => pure (none, s)
      | (some pt, s) => pure (some ⟨pt, ptx la⟩, s)

def pageRemovePte (ptep : Slot) (s : Machine σ) : Result (Machine σ) :=
  if isValid (s.load ptep) then do
    let page ← pte2page (s.load ptep)
    let s := s.pageRefDec page
    let s := if s.ref page = 0 then freePage M s page else s
    pure (s.store ptep 0)
  else pure s

def pageRemove (pgdir la : Nat) (s : Machine σ) : Result (Machine σ) := do
  match ← getPte M pgdir la false s with
  | (some ptep, s) => pageRemovePte M ptep s
  | (none, s) => pure s

def pageInsert (pgdir page la perm : Nat) (s : Machine σ) : Result (Int × Machine σ) := do
  match ← getPte M pgdir la true s with
  | (none, s) => pure (-E_NO_MEM, s)
  | (some ptep, s) => do
      let s := s.pageRefInc page
      let s ←
        if isValid (s.load ptep) then do
          let p ← pte2page (s.load ptep)
          if p = page then pure (s.pageRefDec page) else pageRemovePte M ptep s
        else pure s
      pure (0, s.store ptep (pteCreate page (PTE_V ||| perm)))

/-- Outside the self-test `check_mm_struct` is null, so that no page is made
    swappable here. -/
def pgdirAllocPage (pgdir la perm : Nat) (s : Machine σ) : Result (Option Nat × Machine σ) := do
  match ← allocPage M s with
  | (none, s) => pure (none, s)
  | (some page, s) =>
      match ← pageInsert M pgdir page la perm s with
      | (ret, s) => if ret ≠ 0 then pure (none, freePage M s page) else pure (some page, s)

/-- One round of the loop of `unmap_range`. -/
def unmapBody (pgdir start : Nat) (s : Machine σ) : Result (Nat × Machine σ) := do
  match ← getPte M pgdir start false s with
  | (none, s) => pure (roundDown (start + PTSIZE) PTSIZE, s)
  | (some ptep, s) => do
      let s ← if s.load ptep ≠ 0 then pageRemovePte M ptep s else pure s
      pure (start + PGSIZE, s)

def unmapRange (pgdir start stop : Nat) (s : Machine σ) : Result (Machine σ) := do
  assert (start % PGSIZE = 0 ∧ stop % PGSIZE = 0)
  assert (userAccess start stop = true)
  doWhile (fun start _ => start ≠ 0 && start < stop) (unmapBody M pgdir) stop start s

def tableEmpty (s : Machine σ) (pt : Nat) : Bool :=
  (List.range NPTEENTRY).all fun i => !isValid (s.mem pt i)

/-- One round of the inner loop of `exit_range`, which goes over the entries of one
    level 0 directory and keeps `free_pd0`. -/
def exitTable (pd0 d0start : Nat) : Bool × Machine σ → Result (Nat × Bool × Machine σ)
  | (freePd0, s) => do
      let pde0 := s.mem pd0 (pdx0 d0start)
      if isValid pde0 then do
        let pt ← pa2page (ptePpn pde0)
        if tableEmpty s pt then
          pure (d0start + PTSIZE, freePd0, (freePage M s pt).store ⟨pd0, pdx0 d0start⟩ 0)
        else pure (d0start + PTSIZE, freePd0, s)
      else pure (d0start + PTSIZE, false, s)

/-- One round of the outer loop of `exit_range`, which goes over the entries of the
    root and keeps `d0start`. -/
def exitDir (pgdir stop d1start : Nat) : Nat × Machine σ → Result (Nat × Nat × Machine σ)
  | (d0start, s) => do
      let pde1 := s.mem pgdir (pdx1 d1start)
      if isValid pde1 then do
        let pd0 ← pa2page (ptePpn pde1)
        let (freePd0, s) ← doWhile
          (fun d0start _ => d0start ≠ 0 && d0start < d1start + PDSIZE && d0start < stop)
          (exitTable M pd0) stop d0start (true, s)
        if freePd0 then
          pure (d1start + PDSIZE, d1start + PDSIZE, (freePage M s pd0).store ⟨pgdir, pdx1 d1start⟩ 0)
        else pure (d1start + PDSIZE, d1start + PDSIZE, s)
      else pure (d1start + PDSIZE, d1start + PDSIZE, s)

def exitRange (pgdir start stop : Nat) (s : Machine σ) : Result (Machine σ) := do
  assert (start % PGSIZE = 0 ∧ stop % PGSIZE = 0)
  assert (userAccess start stop = true)
  let (_, s) ← doWhile (fun d1start _ => d1start ≠ 0 && d1start < stop) (exitDir M pgdir stop) stop
    (roundDown start PDSIZE) (roundDown start PTSIZE, s)
  pure s

/-- `perm & (~PTE_W)` in 32 bits. -/
def withoutWrite (perm : Nat) : Nat := perm &&& (2 ^ 32 - 1 - PTE_W)

/-- One page of `copy_range`, whose entry `ptep` is valid. Both ways to go allocate a
    page first; the one that is not sharing then asserts `npage = NULL`. -/
def copyPage (toDir fromDir start : Nat) (share : Bool) (ptep : Slot) (s : Machine σ) :
    Result (Int × Machine σ) := do
  match ← getPte M toDir start true s with
  | (none, s) => pure (-E_NO_MEM, s)
  | (some _, s) => do
      let perm := s.load ptep &&& PTE_USER
      let page ← pte2page (s.load ptep)
      let (npage, s) ← allocPage M s
      assert (npage.isSome = true)
      if share then do
        let (_, s) ← pageInsert M fromDir page start (withoutWrite perm) s
        let (ret, s) ← pageInsert M toDir page start (withoutWrite perm) s
        assert (ret = 0)
        pure (0, s)
      else do
        let _ ← allocPage M s
        .error .assertion

/-- One round of the loop of `copy_range`, which keeps the value to return. -/
def copyBody (toDir fromDir : Nat) (share : Bool) (start : Nat) :
    Int × Machine σ → Result (Nat × Int × Machine σ)
  | (_, s) => do
      match ← getPte M fromDir start false s with
      | (none, s) => pure (roundDown (start + PTSIZE) PTSIZE, 0, s)
      | (some ptep, s) =>
          if isValid (s.load ptep) then do
            let (ret, s) ← copyPage M toDir fromDir start share ptep s
            pure (start + PGSIZE, ret, s)
          else pure (start + PGSIZE, 0, s)

def copyRange (toDir fromDir start stop : Nat) (share : Bool) (s : Machine σ) :
    Result (Int × Machine σ) := do
  assert (start % PGSIZE = 0 ∧ stop % PGSIZE = 0)
  assert (userAccess start stop = true)
  doWhile (fun start r => r.1 = 0 && start ≠ 0 && start < stop) (copyBody M toDir fromDir share) stop
    start (0, s)

/-! ## Roots

`setup_pgdir` and `put_pgdir` of `proc.c`. A new root starts as a copy of `boot_pgdir`.
-/

def setupPgdir (bootPgdir : Nat) (s : Machine σ) : Result (Option Nat × Machine σ) := do
  match ← allocPage M s with
  | (none, s) => pure (none, s)
  | (some page, s) => pure (some page, s.setPage page (s.mem bootPgdir))

def putPgdir (pgdir : Nat) (s : Machine σ) : Machine σ := freePage M s pgdir

/-! ## A manager

Single pages taken first fit from an ordered free list.
-/

structure PageList where
  pages : List Nat
  nodup : pages.Nodup
  lt : ∀ p ∈ pages, p < npage

def PageList.take (s : PageList) : Option Nat × PageList :=
  match s with
  | ⟨[], nodup, lt⟩ => (none, ⟨[], nodup, lt⟩)
  | ⟨p :: pages, nodup, lt⟩ =>
      (some p, ⟨pages, (List.nodup_cons.mp nodup).2, fun q member => lt q (by simp [member])⟩)

def PageList.give (s : PageList) (p : Nat) : PageList :=
  if fresh : p ∉ s.pages ∧ p < npage then
    { pages := s.pages.orderedInsert (· ≤ ·) p
      nodup := (List.perm_orderedInsert _ p s.pages).nodup_iff.mpr (s.nodup.cons fresh.1)
      lt := fun q member => by
        rcases (List.mem_orderedInsert _).mp member with rfl | member
        · exact fresh.2
        · exact s.lt q member }
  else s

def lowestFirst : PmmManager PageList where
  allocPage := PageList.take
  freePage := PageList.give
  Free s p := p ∈ s.pages
  free_lt {s p} free := s.lt p free
  alloc_some {s t p} given := by
    obtain ⟨pages, nodup, lt⟩ := s
    cases pages with
    | nil => simp [PageList.take] at given
    | cons q pages =>
        simp only [PageList.take, Prod.mk.injEq, Option.some.injEq] at given
        obtain ⟨rfl, rfl⟩ := given
        refine ⟨by simp, fun x => ⟨fun member => ⟨by simp [member], ?_⟩, ?_⟩⟩
        · rintro rfl
          exact (List.nodup_cons.mp nodup).1 member
        · rintro ⟨member, other⟩
          simpa [other] using member
  alloc_none {s t} given p := by
    obtain ⟨pages, nodup, lt⟩ := s
    cases pages with
    | nil =>
        simp only [PageList.take, Prod.mk.injEq, true_and] at given
        rw [← given]
    | cons q pages => simp [PageList.take] at given
  free_page {s p} lt notFree q := by
    rw [PageList.give, dif_pos ⟨notFree, lt⟩, List.mem_orderedInsert, or_comm]

end Ucore.Mm.Pmm
