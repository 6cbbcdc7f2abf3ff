import Ucore.Mm.Vmm
import Ucore.Libs.List

/-! # Swapping in lab 3

`alloc_pages`, the page tables, `swap.c`, `swap_fifo.c` and `do_pgfault` of lab 3. A
refused allocation swaps out pages of `check_mm_struct` until a page is free. The
tables of an address space are one function for each level; a lookup without `create`
only reads them.
-/

namespace Ucore.Mm.Swap

open Lib.Ring Libs.Assert Libs.List Mmu

open Pmm (PmmManager pte2page E_INVAL E_NO_MEM)

open Vmm (MmStruct VM_WRITE findVma maxSwapOffset)

/-- The page frame behind each entry of the root and of the second level, where it is
    valid, and the entries of the last level. -/
structure Space where
  pd0 : Nat → Option Nat
  pt : Nat → Option Nat
  pte : Nat → Nat

/-- The 27 bits of an address that select the entries of the three levels. -/
def vpn (la : Nat) : Nat := la / PGSIZE % 2 ^ 27

/-- `get_pte(pgdir, la, 0)`. -/
def Space.lookup (sp : Space) (la : Nat) : Option Nat :=
  if (sp.pd0 (vpn la / 512 / 512)).isSome ∧ (sp.pt (vpn la / 512)).isSome then some (vpn la) else none

/-- `struct swap_manager`, as far as single pages go: `sm_priv` is what the manager finds
    in the `mm_struct`. All of its victim functions return 0. -/
structure SwapManager (ρ : Type) where
  mapSwappable : Option MmStruct → ρ → Nat → Result ρ
  swapOutVictim : Option MmStruct → ρ → Result (Option Nat × ρ)

/-- `device` answers the writes to the swap device, `writes` counts them; the RAM disk of
    `ide.c` always answers that the write was done. `victims` and `swapReads` log the
    pages that were chosen and the entries that were read, the latest first. -/
structure Machine (σ ρ : Type) where
  pmm : σ
  pra : ρ
  ref : Nat → Int
  praVaddr : Nat → Nat
  mem : Nat → Nat → Nat
  swap : Nat → Nat → Nat
  space : Nat → Space
  swapInitOk : Bool
  checkMmStruct : Option MmStruct
  device : Nat → Bool
  writes : Nat
  victims : List Nat
  swapReads : List Nat

variable {σ ρ : Type}

def Machine.setSpace (s : Machine σ ρ) (pgdir : Nat) (sp : Space) : Machine σ ρ :=
  { s with space := Function.update s.space pgdir sp }

def Machine.setPte (s : Machine σ ρ) (pgdir slot w : Nat) : Machine σ ρ :=
  s.setSpace pgdir { s.space pgdir with pte := Function.update (s.space pgdir).pte slot w }

def Machine.setPageRef (s : Machine σ ρ) (page : Nat) (val : Int) : Machine σ ρ :=
  { s with ref := Function.update s.ref page val }

variable (M : PmmManager σ) (R : SwapManager ρ)

def freePage (s : Machine σ ρ) (page : Nat) : Machine σ ρ :=
  { s.setPageRef page 0 with pmm := M.freePage s.pmm page }

/-! ## Swapping out -/

/-- Whether the page was saved. The entry must name a page of the device. -/
def swapfsWrite (entry page : Nat) (s : Machine σ ρ) : Result (Bool × Machine σ ρ) :=
  let offset := entry >>> 8
  if 0 < offset ∧ offset < maxSwapOffset then
    if s.device s.writes then
      .ok (true, { s with swap := Function.update s.swap offset (s.mem page), writes := s.writes + 1 })
    else .ok (false, { s with writes := s.writes + 1 })
  else .error .panic

/-- The entry that stands for an address on the swap device. -/
def swapEntry (v : Nat) : Nat := (v / PGSIZE + 1) <<< 8

/-- One round of the loop of `swap_out`. A null pointer to a victim, an `mm_struct` or an
    entry is followed at once. -/
def swapOutOne (mm : Option MmStruct) (s : Machine σ ρ) : Result (Machine σ ρ) := do
  let (victim, pra) ← R.swapOutVictim mm s.pra
  match victim, mm with
  | some page, some mm =>
      let v := s.praVaddr page
      match (s.space mm.pgdir).lookup v with
      | none => .error .panic
      | some ptep => do
          assert (isValid ((s.space mm.pgdir).pte ptep) = true)
          let (saved, s) ← swapfsWrite (swapEntry v) page { s with pra := pra, victims := page :: s.victims }
          if saved then pure (freePage M (s.setPte mm.pgdir ptep (swapEntry v)) page)
          else do
            let pra ← R.mapSwappable (some mm) s.pra page
            pure { s with pra := pra }
  | _, _ => .error .panic

def swapOut (mm : Option MmStruct) : Nat → Machine σ ρ → Result (Machine σ ρ)
  | 0, s => .ok s
  | n + 1, s => do
      let s ← swapOutOne M R mm s
      swapOut mm n s

/-- `alloc_pages(1)`. -/
def allocPage : Nat → Machine σ ρ → Result (Option Nat × Machine σ ρ)
  | 0, _ => .error .fuel
  | fuel + 1, s =>
      match M.allocPage s.pmm with
      | (some page, pmm) => .ok (some page, { s with pmm := pmm })
      | (none, pmm) =>
          if s.swapInitOk then do
            let s ← swapOut M R s.checkMmStruct 1 { s with pmm := pmm }
            allocPage fuel s
          else .ok (none, { s with pmm := pmm })

/-! ## Page tables -/

/-- The last level of `get_pte(pgdir, la, 1)`. A new table is a page of zeros. -/
def getTable (fuel pgdir la : Nat) (s : Machine σ ρ) : Result (Option Nat × Machine σ ρ) := do
  if ((s.space pgdir).pt (vpn la / 512)).isSome then pure (some (vpn la), s)
  else
    match ← allocPage M R fuel s with
    | (none, s) => pure (none, s)
    | (some page, s) =>
        let sp := s.space pgdir
        let s := s.setPageRef page 1
        pure (some (vpn la), s.setSpace pgdir
          { sp with pt := Function.update sp.pt (vpn la / 512) (some page)
                    pte := fun k => if k / 512 = vpn la / 512 then 0 else sp.pte k })

/-- `get_pte(pgdir, la, 1)`. -/
def getPte (fuel pgdir la : Nat) (s : Machine σ ρ) : Result (Option Nat × Machine σ ρ) := do
  if ((s.space pgdir).pd0 (vpn la / 512 / 512)).isSome then getTable M R fuel pgdir la s
  else
    match ← allocPage M R fuel s with
    | (none, s) => pure (none, s)
    | (some page, s) =>
        let sp := s.space pgdir
        let s := s.setPageRef page 1
        getTable M R fuel pgdir la (s.setSpace pgdir
          { sp with pd0 := Function.update sp.pd0 (vpn la / 512 / 512) (some page)
                    pt := fun k => if k / 512 = vpn la / 512 / 512 then none else sp.pt k })

def pageRemovePte (pgdir ptep : Nat) (s : Machine σ ρ) : Result (Machine σ ρ) :=
  if isValid ((s.space pgdir).pte ptep) then do
    let page ← pte2page ((s.space pgdir).pte ptep)
    let s := s.setPageRef page (s.ref page - 1)
    let s := if s.ref page = 0 then freePage M s page else s
    pure (s.setPte pgdir ptep 0)
  else pure s

/-- What `page_insert` does with the page that is mapped at its address so far. -/
def displace (pgdir page ptep : Nat) (s : Machine σ ρ) : Result (Machine σ ρ) :=
  if isValid ((s.space pgdir).pte ptep) then do
    let p ← pte2page ((s.space pgdir).pte ptep)
    if p = page then pure (s.setPageRef page (s.ref page - 1)) else pageRemovePte M pgdir ptep s
  else pure s

def pageInsert (fuel pgdir page la perm : Nat) (s : Machine σ ρ) : Result (Int × Machine σ ρ) := do
  match ← getPte M R fuel pgdir la s with
  | (none, s) => pure (-E_NO_MEM, s)
  | (some ptep, s) => do
      let s ← displace M pgdir page ptep (s.setPageRef page (s.ref page + 1))
      pure (0, s.setPte pgdir ptep (pteCreate page (PTE_V ||| perm)))

def pgdirAllocPage (fuel pgdir la perm : Nat) (s : Machine σ ρ) : Result (Option Nat × Machine σ ρ) := do
  match ← allocPage M R fuel s with
  | (none, s) => pure (none, s)
  | (some page, s) => do
      let (ret, s) ← pageInsert M R fuel pgdir page la perm s
      if ret ≠ 0 then pure (none, freePage M s page)
      else if s.swapInitOk then do
        let pra ← R.mapSwappable s.checkMmStruct s.pra page
        assert (s.ref page = 1)
        pure (some page, { s with pra := pra, praVaddr := Function.update s.praVaddr page la })
      else pure (some page, s)

/-! ## Swapping in -/

def swapfsRead (entry page : Nat) (s : Machine σ ρ) : Result (Machine σ ρ) :=
  let offset := entry >>> 8
  if 0 < offset ∧ offset < maxSwapOffset then
    .ok { s with mem := Function.update s.mem page (s.swap offset), swapReads := entry :: s.swapReads }
  else .error .panic

def swapIn (fuel : Nat) (mm : MmStruct) (addr : Nat) (s : Machine σ ρ) : Result (Nat × Machine σ ρ) := do
  match ← allocPage M R fuel s with
  | (none, _) => .error .assertion
  | (some result, s) =>
      match (s.space mm.pgdir).lookup addr with
      | none => .error .panic
      | some ptep => do
          let s ← swapfsRead ((s.space mm.pgdir).pte ptep) result s
          pure (result, s)

/-- What `do_pgfault` does once it has found an area. -/
def resolveFault (fuel : Nat) (mm : MmStruct) (perm addr : Nat) (s : Machine σ ρ) :
    Result (Int × Machine σ ρ) := do
  match ← getPte M R fuel mm.pgdir addr s with
  | (none, _) => .error .panic
  | (some ptep, s) =>
      if (s.space mm.pgdir).pte ptep = 0 then do
        match ← pgdirAllocPage M R fuel mm.pgdir addr perm s with
        | (none, s) => pure (-E_NO_MEM, s)
        | (some _, s) => pure (0, s)
      else if s.swapInitOk then do
        let (page, s) ← swapIn M R fuel mm addr s
        let (ret, s) ← pageInsert M R fuel mm.pgdir page addr perm s
        if ret ≠ 0 then pure (-E_NO_MEM, freePage M s page)
        else do
          let pra ← R.mapSwappable (some mm) s.pra page
          pure (0, { s with pra := pra, praVaddr := Function.update s.praVaddr page addr })
      else pure (-E_NO_MEM, s)

def doPgfault (fuel : Nat) (mm : MmStruct) (addr : Nat) (s : Machine σ ρ) :
    Result (Int × MmStruct × Machine σ ρ) := do
  match findVma mm addr with
  | (none, mm) => pure (-E_INVAL, mm, s)
  | (some vma, mm) =>
      if vma.vmStart > addr then pure (-E_INVAL, mm, s)
      else do
        let perm := if hasFlags vma.vmFlags VM_WRITE then PTE_U ||| (PTE_R ||| PTE_W) else PTE_U
        let (ret, s) ← resolveFault M R fuel mm perm (roundDown addr PGSIZE) s
        pure (ret, mm, s)

/-! ## The first-in, first-out manager -/

/-- The list entries: the head, and the `pra_page_link` of each page. -/
inductive Entry where
  | praListHead
  | praPageLink (page : Nat)
  deriving DecidableEq, Repr

def fifoMapSwappable (mm : Option MmStruct) (links : Links Entry) (page : Nat) : Result (Links Entry) :=
  match mm with
  | none => .error .panic
  | some mm => do
      assert (mm.smPriv = true)
      pure (listAdd links .praListHead (.praPageLink page))

def fifoSwapOutVictim (mm : Option MmStruct) (links : Links Entry) : Result (Option Nat × Links Entry) :=
  match mm with
  | none => .error .panic
  | some mm => do
      assert (mm.smPriv = true)
      match links.prev .praListHead with
      | .praListHead => pure (none, links)
      | .praPageLink page => pure (some page, listDel links (.praPageLink page))

def fifo : SwapManager (Links Entry) := ⟨fifoMapSwappable, fifoSwapOutVictim⟩

end Ucore.Mm.Swap
