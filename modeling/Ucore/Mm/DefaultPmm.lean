import Ucore.Lib.Extents
import Ucore.Libs.Assert
import Ucore.Libs.List

/-! # The first-fit physical memory manager

`default_pmm.c` over the array of page descriptors, indexed by page number. The
free list runs through the `page_link` fields of the first page of each free
block; its own head lives in `free_area`. Counters are C's 32-bit `unsigned int`.
-/

namespace Ucore.Mm.DefaultPmm

open Lib.Ring Lib.Extents Libs.Assert Libs.List

/-- The list entries of the free list: its head, and the `page_link` of a page. -/
inductive Entry where
  | freeList
  | pageLink (page : Nat)
  deriving DecidableEq, Repr

/-- The descriptor fields the manager reads or writes. Of `flags` only the two
    bits with a name are ever used. -/
structure Page where
  ref : Int
  pgReserved : Bool
  pgProperty : Bool
  property : Nat

structure Pmm where
  pages : Nat → Page
  links : Links Entry
  nrFree : Nat

/-- Truncation to `unsigned int`. -/
def u32 (n : Nat) : Nat := n % 2 ^ 32

def Pmm.setPage (s : Pmm) (i : Nat) (p : Page) : Pmm :=
  { s with pages := Function.update s.pages i p }

@[simp] theorem setPage_pages (s : Pmm) (i : Nat) (p : Page) :
    (s.setPage i p).pages = Function.update s.pages i p := rfl

@[simp] theorem setPage_links (s : Pmm) (i : Nat) (p : Page) : (s.setPage i p).links = s.links := rfl

@[simp] theorem setPage_nrFree (s : Pmm) (i : Nat) (p : Page) : (s.setPage i p).nrFree = s.nrFree := rfl

def defaultInit (s : Pmm) : Pmm := { s with links := listInit s.links .freeList, nrFree := 0 }

/-- The loop over the `count` pages from `p` on that opens both
    `default_init_memmap` and `default_free_pages`: each page passes the assertion
    and is then reset. -/
def resetPages (expected : Page → Bool) (reset : Page → Page) :
    Nat → Nat → (Nat → Page) → Result (Nat → Page)
  | _, 0, pages => .ok pages
  | p, count + 1, pages => do
      assert (expected (pages p) = true)
      resetPages expected reset (p + 1) count (Function.update pages p (reset (pages p)))

/-- `base->property = n; SetPageProperty(base); nr_free += n;` -/
def markHead (s : Pmm) (base n : Nat) : Pmm :=
  { s.setPage base { s.pages base with property := u32 n, pgProperty := true } with
    nrFree := u32 (s.nrFree + n) }

/-- The search for the place of `base` on a nonempty free list. The branch that
    appends at the end has no `break`: the loop goes on from the entry just added. -/
def insertLoop (base : Nat) : Nat → Links Entry → Entry → Result (Links Entry)
  | 0, _, _ => .error .fuel
  | fuel + 1, links, le =>
      match links.next le with
      | .freeList => .ok links
      | .pageLink page =>
          if base < page then .ok (listAddBefore links (.pageLink page) (.pageLink base))
          else if links.next (.pageLink page) = .freeList then
            insertLoop base fuel (listAdd links (.pageLink page) (.pageLink base)) (.pageLink page)
          else insertLoop base fuel links (.pageLink page)

def insertBlock (fuel : Nat) (s : Pmm) (base : Nat) : Result Pmm :=
  if listEmpty s.links .freeList then
    .ok { s with links := listAdd s.links .freeList (.pageLink base) }
  else do
    let links ← insertLoop base fuel s.links .freeList
    pure { s with links := links }

def defaultInitMemmap (fuel : Nat) (s : Pmm) (base n : Nat) : Result Pmm := do
  assert (0 < n)
  let pages ← resetPages (·.pgReserved) (fun _ => ⟨0, false, false, 0⟩) base n s.pages
  insertBlock fuel (markHead { s with pages := pages } base n) base

/-- The scan for the first block of at least `n` pages. -/
def findFit (s : Pmm) (n : Nat) : Nat → Entry → Result (Option Nat)
  | 0, _ => .error .fuel
  | fuel + 1, le =>
      match s.links.next le with
      | .freeList => .ok none
      | .pageLink p =>
          if n ≤ (s.pages p).property then .ok (some p) else findFit s n fuel (.pageLink p)

/-- Take `n` pages off the front of the free block `page`. -/
def takeFrom (s : Pmm) (page n : Nat) : Pmm :=
  let prev := s.links.prev (.pageLink page)
  let s := { s with links := listDel s.links (.pageLink page) }
  let s :=
    if n < (s.pages page).property then
      let p := page + n
      let s := s.setPage p
        { s.pages p with property := u32 ((s.pages page).property - n), pgProperty := true }
      { s with links := listAdd s.links prev (.pageLink p) }
    else s
  let s := { s with nrFree := u32 (s.nrFree - n) }
  s.setPage page { s.pages page with pgProperty := false }

def defaultAllocPages (fuel : Nat) (s : Pmm) (n : Nat) : Result (Option Nat × Pmm) := do
  assert (0 < n)
  if s.nrFree < n then
    pure (none, s)
  else
    match ← findFit s n fuel .freeList with
    | some page => pure (some page, takeFrom s page n)
    | none => pure (none, s)

/-- `p->property += e->property; ClearPageProperty(e); list_del(&(e->page_link));` -/
def absorb (s : Pmm) (p e : Nat) : Pmm :=
  let s := s.setPage p { s.pages p with property := u32 ((s.pages p).property + (s.pages e).property) }
  let s := s.setPage e { s.pages e with pgProperty := false }
  { s with links := listDel s.links (.pageLink e) }

/-- Merge `base` into the block before it when they touch; the head of the block
    that holds `base` afterwards. -/
def mergePrev (s : Pmm) (base : Nat) : Nat × Pmm :=
  match s.links.prev (.pageLink base) with
  | .freeList => (base, s)
  | .pageLink p => if p + (s.pages p).property = base then (p, absorb s p base) else (base, s)

/-- Merge the block after `base` into it when they touch. -/
def mergeNext (s : Pmm) (base : Nat) : Pmm :=
  match s.links.next (.pageLink base) with
  | .freeList => s
  | .pageLink p => if base + (s.pages base).property = p then absorb s base p else s

def defaultFreePages (fuel : Nat) (s : Pmm) (base n : Nat) : Result Pmm := do
  assert (0 < n)
  let pages ← resetPages (fun p => !p.pgReserved && !p.pgProperty)
    (fun p => ⟨0, false, false, p.property⟩) base n s.pages
  let s ← insertBlock fuel (markHead { s with pages := pages } base n) base
  let (base, s) := mergePrev s base
  pure (mergeNext s base)

def defaultNrFreePages (s : Pmm) : Nat := s.nrFree

end Ucore.Mm.DefaultPmm
