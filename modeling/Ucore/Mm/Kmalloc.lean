import Ucore.Libs.Assert

/-! # The SLOB allocator

`kmalloc.c`: a circular list of free blocks in the order of their addresses, with a
roving head, for small objects; whole pages for large ones, each with a record on a list.
Addresses count units of `SLOB_UNIT` bytes. The records are kept apart from the units they
lie in.
-/

namespace Ucore.Mm.Kmalloc

open Libs.Assert

def PAGE_SIZE : Nat := 4096

/-- `sizeof(slob_t)`. -/
def SLOB_UNIT : Nat := 16

def SIZEOF_BIGBLOCK : Nat := 24

def slobUnits (size : Nat) : Nat := (size + SLOB_UNIT - 1) / SLOB_UNIT

/-- The units of a page. -/
def pageUnits : Nat := PAGE_SIZE / SLOB_UNIT

/-- `alloc_pages` and `free_pages`, with what `kmalloc.c` relies on: the pages handed out
    were free, and only freeing makes a page free. `held` counts the pages that `kmalloc.c` was
    given and has not freed. -/
structure PageAllocator (σ : Type) where
  allocPages : σ → Nat → Option Nat × σ
  freePages : σ → Nat → Nat → σ
  Free : σ → Nat → Prop
  held : σ → Nat
  alloc_some : ∀ {s t n p}, allocPages s n = (some p, t) →
    (∀ q, p ≤ q → q < p + n → Free s q) ∧ ∀ q, Free t q → Free s q ∧ ¬(p ≤ q ∧ q < p + n)
  alloc_none : ∀ {s t n}, allocPages s n = (none, t) → ∀ q, Free t q → Free s q
  free_pages : ∀ {s p n q}, Free (freePages s p n) q → Free s q ∨ p ≤ q ∧ q < p + n
  held_some : ∀ {s t n p}, allocPages s n = (some p, t) → held t = held s + n
  held_none : ∀ {s t n}, allocPages s n = (none, t) → held t = held s
  held_free : ∀ {s p n}, held (freePages s p n) = held s - n

/-- `bigblock_t`, with the address it has itself. -/
structure BigBlock where
  addr : Nat
  order : Nat
  pages : Nat
  deriving DecidableEq, Repr

/-- `units` and `next` are the fields of the `slob_t` at each address. -/
structure Slob (σ : Type) where
  units : Nat → Nat
  next : Nat → Nat
  slobfree : Nat
  bigblocks : List BigBlock
  pmm : σ

variable {σ : Type}

def Slob.setUnits (s : Slob σ) (b n : Nat) : Slob σ := { s with units := Function.update s.units b n }

def Slob.setNext (s : Slob σ) (b n : Nat) : Slob σ := { s with next := Function.update s.next b n }

variable (M : PageAllocator σ)

/-- `__slob_get_free_pages`. -/
def slobGetFreePages (order : Nat) (s : Slob σ) : Option Nat × Slob σ :=
  match M.allocPages s.pmm (2 ^ order) with
  | (none, pmm) => (none, { s with pmm := pmm })
  | (some page, pmm) => (some (page * pageUnits), { s with pmm := pmm })

/-- `__slob_free_pages`. -/
def slobFreePages (kva order : Nat) (s : Slob σ) : Slob σ :=
  { s with pmm := M.freePages s.pmm (kva / pageUnits) (2 ^ order) }

/-! ## Freeing a block -/

/-- The loop of `slob_free`: the block behind which `b` goes. -/
def findPlace (b : Nat) (s : Slob σ) : Nat → Nat → Result Nat
  | 0, _ => .error .fuel
  | fuel + 1, cur =>
      if cur < b ∧ b < s.next cur then .ok cur
      else if s.next cur ≤ cur ∧ (cur < b ∨ b < s.next cur) then .ok cur
      else findPlace b s fuel (s.next cur)

def joinNext (cur b : Nat) (s : Slob σ) : Slob σ :=
  if b + s.units b = s.next cur then
    let s := s.setUnits b (s.units b + s.units (s.next cur))
    s.setNext b (s.next (s.next cur))
  else s.setNext b (s.next cur)

def joinPrev (cur b : Nat) (s : Slob σ) : Slob σ :=
  if cur + s.units cur = b then
    let s := s.setUnits cur (s.units cur + s.units b)
    s.setNext cur (s.next b)
  else s.setNext cur b

/-- What `slob_free` does at the place it found. -/
def putBack (cur b : Nat) (s : Slob σ) : Slob σ := { joinPrev cur b (joinNext cur b s) with slobfree := cur }

/-- A size of 0 says that the block has its size in itself. -/
def slobFree (fuel b size : Nat) (s : Slob σ) : Result (Slob σ) := do
  let s := if size ≠ 0 then s.setUnits b (slobUnits size) else s
  let cur ← findPlace b s fuel s.slobfree
  pure (putBack cur b s)

/-! ## Finding a block -/

/-- `ALIGN`, in units; `align` is in bytes. -/
def alignUp (cur align : Nat) : Nat := (cur * SLOB_UNIT + align - 1) / align * align / SLOB_UNIT

/-- The first units of a block that has room enough, or those from `delta` on. -/
def takeBlock (prev cur units delta : Nat) (s : Slob σ) : Nat × Slob σ :=
  let (prev, cur, s) :=
    if delta ≠ 0 then
      let aligned := cur + delta
      let s := (s.setUnits aligned (s.units cur - delta)).setNext aligned (s.next cur)
      (cur, aligned, (s.setNext cur aligned).setUnits cur delta)
    else (prev, cur, s)
  let s :=
    if s.units cur = units then s.setNext prev (s.next cur)
    else
      let s := s.setNext prev (cur + units)
      let s := s.setUnits (s.next prev) (s.units cur - units)
      let s := s.setNext (s.next prev) (s.next cur)
      s.setUnits cur units
  (cur, { s with slobfree := prev })

/-- The loop of `slob_alloc`. -/
def slobAllocLoop (size align : Nat) : Nat → Nat → Nat → Slob σ → Result (Option Nat × Slob σ)
  | 0, _, _, _ => .error .fuel
  | fuel + 1, prev, cur, s =>
      let units := slobUnits size
      let delta := if align ≠ 0 then alignUp cur align - cur else 0
      if units + delta ≤ s.units cur then
        let (block, s) := takeBlock prev cur units delta s
        .ok (some block, s)
      else if cur = s.slobfree then
        if size = PAGE_SIZE then .ok (none, s)
        else
          match slobGetFreePages M 0 s with
          | (none, s) => .ok (none, s)
          | (some page, s) => do
              let s ← slobFree fuel page PAGE_SIZE s
              slobAllocLoop size align fuel s.slobfree (s.next s.slobfree) s
      else slobAllocLoop size align fuel cur (s.next cur) s

def slobAlloc (fuel size align : Nat) (s : Slob σ) : Result (Option Nat × Slob σ) := do
  assert (size + SLOB_UNIT < PAGE_SIZE)
  slobAllocLoop M size align fuel s.slobfree (s.next s.slobfree) s

/-! ## Objects -/

/-- The loop of `find_order`. -/
def findOrder (size : Nat) : Nat := if 4096 < size then findOrder (size / 2) + 1 else 0
termination_by size

/-- `(int)size`, where a negative value is as good as 0. -/
def toInt (size : Nat) : Nat := (Int.bmod size (2 ^ 32)).toNat

def kmalloc (fuel size : Nat) (s : Slob σ) : Result (Option Nat × Slob σ) := do
  if size < PAGE_SIZE - SLOB_UNIT then
    let (m, s) ← slobAlloc M fuel (size + SLOB_UNIT) 0 s
    pure (m.map (· + 1), s)
  else
    match ← slobAlloc M fuel SIZEOF_BIGBLOCK 0 s with
    | (none, s) => pure (none, s)
    | (some bb, s) =>
        let order := findOrder (toInt size)
        match slobGetFreePages M order s with
        | (some pages, s) => pure (some pages, { s with bigblocks := ⟨bb, order, pages⟩ :: s.bigblocks })
        | (none, s) => do
            let s ← slobFree fuel bb SIZEOF_BIGBLOCK s
            pure (none, s)

def kfree (fuel : Nat) (block : Option Nat) (s : Slob σ) : Result (Slob σ) :=
  match block with
  | none => .ok s
  | some block =>
      match if block % pageUnits = 0 then s.bigblocks.find? (·.pages = block) else none with
      | some bb =>
          let s := { s with bigblocks := s.bigblocks.eraseP (·.pages = block) }
          slobFree fuel bb.addr SIZEOF_BIGBLOCK (slobFreePages M block bb.order s)
      | none => slobFree fuel (block - 1) 0 s

def ksize (s : Slob σ) (block : Nat) : Nat :=
  match if block % pageUnits = 0 then s.bigblocks.find? (·.pages = block) else none with
  | some bb => PAGE_SIZE <<< bb.order % 2 ^ 32
  | none => s.units (block - 1) * SLOB_UNIT % 2 ^ 32

end Ucore.Mm.Kmalloc
