import Ucore.Libs.List
import Ucore.Libs.Assert

/-! # The buddy memory manager

`buddy_pmm.c` over the array of page descriptors, indexed by page number. Each order
has a free list through the `page_link` fields of the first pages of its blocks, and
a count of them, a 64-bit `size_t`.
-/

namespace Ucore.Mm.BuddyPmm

open Lib.Ring Libs.Assert Libs.List

def MAX_ORDER : Nat := 10

inductive Entry where
  | freeList (order : Nat)
  | pageLink (page : Nat)
  deriving DecidableEq, Repr

/-- The descriptor fields the manager reads or writes. Of `flags` only the two bits with
    a name are ever used. -/
structure Page where
  ref : Int
  pgReserved : Bool
  pgProperty : Bool
  property : Nat
  deriving DecidableEq, Repr

structure Buddy where
  pages : Nat → Page
  links : Links Entry
  nrFree : Nat → Nat

def inc64 (n : Nat) : Nat := (n + 1) % 2 ^ 64

def dec64 (n : Nat) : Nat := (n + (2 ^ 64 - 1)) % 2 ^ 64

def Buddy.setPage (s : Buddy) (p : Nat) (page : Page) : Buddy :=
  { s with pages := Function.update s.pages p page }

def buddyInit (s : Buddy) : Buddy where
  pages := s.pages
  links := (List.range (MAX_ORDER + 1)).foldl (fun links i => listInit links (.freeList i)) s.links
  nrFree i := if i ≤ MAX_ORDER then 0 else s.nrFree i

/-- `p->property = 1 << order; SetPageProperty(p); list_add(…); nr_free[order]++;` -/
def addBlock (s : Buddy) (order p : Nat) : Buddy :=
  { s.setPage p { s.pages p with property := 2 ^ order, pgProperty := true } with
    links := listAdd s.links (.freeList order) (.pageLink p)
    nrFree := Function.update s.nrFree order (inc64 (s.nrFree order)) }

/-- `list_del(…); nr_free[order]--; ClearPageProperty(p);` -/
def removeBlock (s : Buddy) (order p : Nat) : Buddy :=
  { s.setPage p { s.pages p with pgProperty := false } with
    links := listDel s.links (.pageLink p)
    nrFree := Function.update s.nrFree order (dec64 (s.nrFree order)) }

/-- `while ((1 << order) > n) order--;` -/
def lowerOrder (n : Nat) : Nat → Nat
  | 0 => 0
  | order + 1 => if n < 2 ^ (order + 1) then lowerOrder n order else order + 1

/-- The loop of `buddy_init_memmap` over the offsets `i`, as long as `i < n`; it ends
    after `n` turns at most. -/
def initLoop (base n order : Nat) : Nat → Nat → Buddy → Result Buddy
  | 0, _, _ => .error .fuel
  | fuel + 1, i, s =>
      if i < n then
        let s := s.setPage (base + i) { s.pages (base + i) with ref := 0, pgReserved := false, pgProperty := false }
        initLoop base n order fuel (i + 2 ^ order) (addBlock s order (base + i))
      else .ok s

def buddyInitMemmap (s : Buddy) (base n : Nat) : Result Buddy := do
  assert (0 < n)
  initLoop base n (lowerOrder n MAX_ORDER) (n + 1) 0 s

/-- `while ((1 << order) < n) order++;` -/
def raiseOrder (n : Nat) : Nat → Nat → Nat
  | 0, order => order
  | fuel + 1, order => if 2 ^ order < n then raiseOrder n fuel (order + 1) else order

/-- The order of the smallest block that holds `n` pages; `n` turns are enough. -/
def blockOrder (n : Nat) : Nat := raiseOrder n n 0

/-- The first order from `order` on, of `count` orders, with a free block. -/
def findOrder (s : Buddy) : Nat → Nat → Option Nat
  | 0, _ => none
  | count + 1, order => if listEmpty s.links (.freeList order) then findOrder s count (order + 1) else some order

/-- Halve the block at `page` until it has the order asked for, `count` orders below. -/
def splitLoop (page order : Nat) : Nat → Buddy → Buddy
  | 0, s => s
  | count + 1, s => splitLoop page order count (addBlock s (order + count) (page + 2 ^ (order + count)))

/-- A list head is followed by the link of a page, or by itself. -/
def buddyAllocPages (s : Buddy) (n : Nat) : Option Nat × Buddy :=
  let order := blockOrder n
  match findOrder s (MAX_ORDER + 1 - order) order with
  | none => (none, s)
  | some current =>
      match s.links.next (.freeList current) with
      | .freeList _ => (none, s)
      | .pageLink page => (some page, splitLoop page order (current - order) (removeBlock s current page))

/-- The loop of `buddy_free_pages` over `count` orders; the head of the block and the
    state it leaves. -/
def mergeLoop : Nat → Nat → Nat → Buddy → Nat × Buddy
  | 0, _, p, s => (p, s)
  | count + 1, current, p, s =>
      let buddy := p + 2 ^ current
      if (s.pages buddy).property ≠ 2 ^ current ∨ (s.pages buddy).pgReserved = true then (p, s)
      else mergeLoop count (current + 1) (if buddy < p then buddy else p) (removeBlock s current buddy)

def buddyFreePages (s : Buddy) (base n : Nat) : Buddy :=
  let order := blockOrder n
  let (p, s) := mergeLoop (MAX_ORDER + 1 - order) order base s
  addBlock s order p

def buddyNrFreePages (s : Buddy) : Nat :=
  ((List.range (MAX_ORDER + 1)).map fun i => s.nrFree i * 2 ^ i).sum % 2 ^ 64

end Ucore.Mm.BuddyPmm
