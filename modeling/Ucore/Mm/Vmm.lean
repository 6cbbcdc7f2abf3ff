import Ucore.Mm.Pmm

/-! # Virtual memory areas and page faults

`vmm.c`: the areas of one address space, the page-fault handler, and how an address
space is duplicated and torn down. Areas come from `kmalloc`, whose failures are not
modelled.
-/

namespace Ucore.Mm.Vmm

open Libs.Assert Libs.Loop Mmu Pmm

def VM_READ : Nat := 0x1
def VM_WRITE : Nat := 0x2
def VM_EXEC : Nat := 0x4
def VM_STACK : Nat := 0x8

structure VmaStruct where
  vmStart : Nat
  vmEnd : Nat
  vmFlags : Nat
  deriving DecidableEq, Repr

/-- `smPriv` tells whether the private data of the swap manager is there. -/
structure MmStruct where
  mmapList : List VmaStruct
  mmapCache : Option VmaStruct
  pgdir : Nat
  mapCount : Nat
  smPriv : Bool
  deriving DecidableEq, Repr

def VmaStruct.covers (vma : VmaStruct) (addr : Nat) : Bool := vma.vmStart ≤ addr && addr < vma.vmEnd

/-- The area `find_vma` finds: the cached one if it covers the address. -/
def MmStruct.vmaAt (mm : MmStruct) (addr : Nat) : Option VmaStruct :=
  match mm.mmapCache with
  | some vma => if vma.covers addr then some vma else mm.mmapList.find? (·.covers addr)
  | none => mm.mmapList.find? (·.covers addr)

theorem vmaAt_covers {mm : MmStruct} {vma : VmaStruct} {addr : Nat} (found : mm.vmaAt addr = some vma) :
    vma.vmStart ≤ addr ∧ addr < vma.vmEnd := by
  have covers : vma.covers addr = true := by
    unfold MmStruct.vmaAt at found
    split at found
    · split at found
      · rename_i cached hit
        exact Option.some.inj found ▸ hit
      · have hit := List.find?_some found
        exact hit
    · have hit := List.find?_some found
      exact hit
  simpa [VmaStruct.covers] using covers

theorem vmaAt_mem {mm : MmStruct} {vma : VmaStruct} {addr : Nat} (cached : ∀ vma, mm.mmapCache = some vma →
    vma ∈ mm.mmapList) (found : mm.vmaAt addr = some vma) : vma ∈ mm.mmapList := by
  unfold MmStruct.vmaAt at found
  split at found
  · rename_i area hit
    split at found
    · exact Option.some.inj found ▸ cached area hit
    · exact List.mem_of_find?_eq_some found
  · exact List.mem_of_find?_eq_some found

def findVma (mm : MmStruct) (addr : Nat) : Option VmaStruct × MmStruct :=
  match mm.vmaAt addr with
  | some vma => (some vma, { mm with mmapCache := some vma })
  | none => (none, mm)

def checkVmaOverlap (prev next : VmaStruct) : Result Unit := do
  assert (prev.vmStart < prev.vmEnd)
  assert (prev.vmEnd ≤ next.vmStart)
  assert (next.vmStart < next.vmEnd)

/-- The new area goes behind the last one of the areas that the loop passes, those
    that do not start above it. -/
def insertVmaStruct (mm : MmStruct) (vma : VmaStruct) : Result MmStruct := do
  assert (vma.vmStart < vma.vmEnd)
  let before := mm.mmapList.takeWhile fun prev => prev.vmStart ≤ vma.vmStart
  let behind := mm.mmapList.dropWhile fun prev => prev.vmStart ≤ vma.vmStart
  if let some prev := before.getLast? then checkVmaOverlap prev vma
  if let some next := behind.head? then checkVmaOverlap vma next
  pure { mm with mmapList := before ++ vma :: behind, mapCount := mm.mapCount + 1 }

def mmCreate (swapInitOk : Bool) : MmStruct := ⟨[], none, 0, 0, swapInitOk⟩

/-! ## Page faults -/

variable {σ : Type} (M : PmmManager σ)

/-- The number of pages of the swap device. -/
def maxSwapOffset : Nat := 7

def swapfsRead (entry page : Nat) (s : Machine σ) : Result (Machine σ) :=
  let offset := entry >>> 8
  if 0 < offset ∧ offset < maxSwapOffset then .ok (s.setPage page (s.swap offset)) else .error .panic

def swapIn (mm : MmStruct) (addr : Nat) (s : Machine σ) : Result (Nat × Machine σ) := do
  match ← allocPage M s with
  | (none, _) => .error .assertion
  | (some result, s) =>
      match ← getPte M mm.pgdir addr false s with
      | (none, _) => .error .panic
      | (some ptep, s) => do
          let s ← swapfsRead (s.load ptep) result s
          pure (result, s)

def doPgfault (mm : MmStruct) (errorCode addr : Nat) (s : Machine σ) :
    Result (Int × MmStruct × Machine σ) := do
  match findVma mm addr with
  | (none, mm) => pure (-E_INVAL, mm, s)
  | (some vma, mm) =>
      if vma.vmStart > addr then pure (-E_INVAL, mm, s)
      else do
        let perm := if hasFlags vma.vmFlags VM_WRITE then PTE_U ||| READ_WRITE else PTE_U
        let addr := roundDown addr PGSIZE
        match ← getPte M mm.pgdir addr true s with
        | (none, s) => pure (-E_NO_MEM, mm, s)
        | (some ptep, s) =>
            if s.load ptep = 0 then do
              match ← pgdirAllocPage M mm.pgdir addr perm s with
              | (none, s) => pure (-E_NO_MEM, mm, s)
              | (some _, s) => pure (0, mm, s)
            -- `error_code & 3 == 3`: the comparison binds tighter than the mask
            else if (s.load ptep &&& PTE_V) &&& (errorCode &&& if 3 = 3 then 1 else 0) ≠ 0 then do
              let page ← pte2page (s.load ptep)
              let (npage, s) ← pgdirAllocPage M mm.pgdir addr perm s
              let src ← page2kva (some page)
              let dst ← page2kva npage
              pure (0, mm, s.setPage dst (s.mem src))
            else if s.swapInitOk then do
              let (page, s) ← swapIn M mm addr s
              let (_, s) ← pageInsert M mm.pgdir page addr perm s
              assert (mm.smPriv = true)
              pure (0, mm, s)
            else pure (-E_NO_MEM, mm, s)

def CAUSE_LOAD_ACCESS : Nat := 0x5
def CAUSE_STORE_ACCESS : Nat := 0x7
def CAUSE_LOAD_PAGE_FAULT : Nat := 0xd
def CAUSE_STORE_PAGE_FAULT : Nat := 0xf

/-! ## Duplication and teardown -/

/-- The loop of `dup_mmap` over the areas, from the last one to the first. -/
def dupAreas (src : MmStruct) : List VmaStruct → MmStruct → Machine σ →
    Result (Int × MmStruct × Machine σ)
  | [], dst, s => pure (0, dst, s)
  | vma :: rest, dst, s => do
      let dst ← insertVmaStruct dst ⟨vma.vmStart, vma.vmEnd, vma.vmFlags⟩
      let (ret, s) ← copyRange M dst.pgdir src.pgdir vma.vmStart vma.vmEnd true s
      if ret ≠ 0 then pure (-E_NO_MEM, dst, s) else dupAreas src rest dst s

def dupMmap (dst src : MmStruct) (s : Machine σ) : Result (Int × MmStruct × Machine σ) :=
  dupAreas M src src.mmapList.reverse dst s

/-- The two loops of `exit_mmap`: the second one starts where the first one ended,
    at the head of the list. -/
def exitMmap (mm : MmStruct) (s : Machine σ) : Result (Machine σ) := do
  let s ← mm.mmapList.foldlM (fun s vma => unmapRange M mm.pgdir vma.vmStart vma.vmEnd s) s
  mm.mmapList.foldlM (fun s vma => exitRange M mm.pgdir vma.vmStart vma.vmEnd s) s

end Ucore.Mm.Vmm
