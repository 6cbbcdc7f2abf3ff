import Ucore.Lib.Bytes
import Ucore.Mm.VmaList

/-! # Loading a program

`load_icode` of `proc.c`: a new address space is built from an ELF image that lies in the
kernel's memory. Fields of the image are read where they stand, at whatever address the
image itself says, and sums of addresses wrap around at 64 bits. Reading beside the image
and writing beside a page stop the model: what happens then is not up to this function.
-/

namespace Ucore.Process.LoadIcode

open Lib.Bytes Libs.Assert Mm.Mmu Mm.Pmm Mm.Vmm Mm.VmaList

def ELF_MAGIC : Nat := 0x464C457F
def ELF_PT_LOAD : Nat := 1
def ELF_PF_X : Nat := 1
def ELF_PF_W : Nat := 2
def ELF_PF_R : Nat := 4

def E_INVAL_ELF : Int := 8

def USTACKTOP : Nat := USERTOP
def USTACKSIZE : Nat := 256 * PGSIZE

def SSTATUS_SPIE : Nat := 0x20
def SSTATUS_SPP : Nat := 0x100

/-- A difference of `uintptr_t` values. -/
def wrapSub (a b : Nat) : Nat := (a + 2 ^ 64 - b) % 2 ^ 64

/-! ## The image -/

/-- `binary` and the `size` bytes from there on. Where they end is an address, too. -/
structure Image where
  binary : Nat
  bytes : List UInt8
  inside : binary + bytes.length < 2 ^ 64

namespace Image

/-- The bytes at an address, if they all belong to the image. -/
def read (bin : Image) (addr count : Nat) : Result (List UInt8) :=
  if bin.binary ≤ addr ∧ addr + count ≤ bin.binary + bin.bytes.length then
    .ok ((bin.bytes.drop (addr - bin.binary)).take count)
  else .error .panic

def field (bin : Image) (addr count : Nat) : Result Nat := do
  let bytes ← bin.read addr count
  pure (ofLe bytes)

end Image

/-- `struct proghdr`, without `p_pa` and `p_align`. -/
structure Proghdr where
  pType : Nat
  pFlags : Nat
  pOffset : Nat
  pVa : Nat
  pFilesz : Nat
  pMemsz : Nat
  deriving DecidableEq, Repr

def Image.proghdr (bin : Image) (ph : Nat) : Result Proghdr := do
  let pType ← bin.field ph 4
  let pFlags ← bin.field (wrap (ph + 4)) 4
  let pOffset ← bin.field (wrap (ph + 8)) 8
  let pVa ← bin.field (wrap (ph + 16)) 8
  let pFilesz ← bin.field (wrap (ph + 32)) 8
  let pMemsz ← bin.field (wrap (ph + 40)) 8
  pure ⟨pType, pFlags, pOffset, pVa, pFilesz, pMemsz⟩

/-! ## Pages -/

/-- The bytes of a page. -/
def pageBlock (words : Nat → Nat) : Block := fun off => UInt8.ofNat (words (off / 8) / 256 ^ (off % 8))

def wordsOf (b : Block) : Nat → Nat := fun index => ofLe (slice b (8 * index) 8)

variable {σ : Type} (M : PmmManager σ)

/-- `memcpy` or `memset` to `page2kva(page) + off`. -/
def writePage (page : Option Nat) (off size : Nat) (source : Result (List UInt8)) (s : Machine σ) :
    Result (Machine σ) :=
  if off + size ≤ PGSIZE then do
    let page ← page2kva page
    let bytes ← source
    pure (s.setPage page (wordsOf (patch (pageBlock (s.mem page)) off bytes)))
  else .error .panic

/-- The variables of the page loops. `page` is the page made last. -/
structure Filling where
  start : Nat
  src : Nat
  la : Nat
  page : Option Nat
  deriving DecidableEq, Repr

/-- The two loops over the pages of a segment, with fuel. They differ in what they write, given
    the address to read from and the size. -/
def fillPages (source : Nat → Nat → Result (List UInt8)) (pgdir perm stop : Nat) :
    Nat → Filling → Machine σ → Result (Option Filling × Machine σ)
  | 0, _, _ => .error .fuel
  | fuel + 1, v, s =>
      if v.start < stop then do
        match ← pgdirAllocPage M pgdir v.la perm s with
        | (none, s) => pure (none, s)
        | (some page, s) => do
            let off := wrapSub v.start v.la
            let la := wrap (v.la + PGSIZE)
            let size := wrapSub PGSIZE off
            let size := if stop < la then wrapSub size (wrapSub la stop) else size
            let s ← writePage (some page) off size (source v.src size) s
            fillPages source pgdir perm stop fuel ⟨wrap (v.start + size), wrap (v.src + size), la, some page⟩ s
      else pure (some v, s)

def zeroBytes (_ size : Nat) : Result (List UInt8) := .ok (List.replicate size 0)

/-- The rest of the page in which the bytes from the file end. -/
def zeroTail (stop : Nat) (v : Filling) (s : Machine σ) : Result (Filling × Machine σ) := do
  let off := wrapSub (v.start + PGSIZE) v.la
  let size := wrapSub PGSIZE off
  let size := if stop < v.la then wrapSub size (wrapSub v.la stop) else size
  let s ← writePage v.page off size (zeroBytes v.src size) s
  let start := wrap (v.start + size)
  assert (stop < v.la ∧ start = stop ∨ v.la ≤ stop ∧ start = v.la)
  pure ({ v with start := start }, s)

/-! ## Segments -/

def vmFlagsOf (pFlags : Nat) : Nat :=
  (if pFlags &&& ELF_PF_X ≠ 0 then VM_EXEC else 0) ||| (if pFlags &&& ELF_PF_W ≠ 0 then VM_WRITE else 0) |||
    if pFlags &&& ELF_PF_R ≠ 0 then VM_READ else 0

def permOf (vmFlags : Nat) : Nat :=
  PTE_U ||| PTE_V ||| (if vmFlags &&& VM_READ ≠ 0 then PTE_R else 0) |||
    (if vmFlags &&& VM_WRITE ≠ 0 then PTE_W ||| PTE_R else 0) ||| if vmFlags &&& VM_EXEC ≠ 0 then PTE_X else 0

/-- The BSS pages of a segment, and what the whole segment returns. -/
def loadBss (fuel pgdir perm stop : Nat) (v : Filling) (s : Machine σ) : Result (Int × Machine σ) := do
  match ← fillPages M zeroBytes pgdir perm stop fuel v s with
  | (none, s) => pure (-E_NO_MEM, s)
  | (some _, s) => pure (0, s)

/-- The pages of a segment: `from` and `end` are sums of addresses. -/
def loadPages (bin : Image) (fuel pgdir : Nat) (ph : Proghdr) (s : Machine σ) : Result (Int × Machine σ) := do
  let perm := permOf (vmFlagsOf ph.pFlags)
  match ← fillPages M bin.read pgdir perm (wrap (ph.pVa + ph.pFilesz)) fuel
      ⟨ph.pVa, wrap (bin.binary + ph.pOffset), roundDown ph.pVa PGSIZE, none⟩ s with
  | (none, s) => pure (-E_NO_MEM, s)
  | (some v, s) =>
      let stop := wrap (ph.pVa + ph.pMemsz)
      if v.start < v.la then
        if v.start = stop then pure (0, s)
        else do
          let (v, s) ← zeroTail stop v s
          loadBss M fuel pgdir perm stop v s
      else loadBss M fuel pgdir perm stop v s

/-- One loadable segment. Zero is returned where the loop over the headers goes on. -/
def loadSegment (bin : Image) (fuel : Nat) (memory : Bool) (ph : Proghdr) (mm : MmStruct) (s : Machine σ) :
    Result (Int × MmStruct × Machine σ) := do
  if ph.pMemsz < ph.pFilesz then pure (-E_INVAL_ELF, mm, s)
  else
    let (ret, _, mm) ← mmMap mm ph.pVa ph.pMemsz (vmFlagsOf ph.pFlags) memory
    if ret ≠ 0 then pure (ret, mm, s)
    else
      let (ret, s) ← loadPages M bin fuel mm.pgdir ph s
      pure (ret, mm, s)

/-- The loop over the program headers. `kmalloc n` tells whether the call of `kmalloc` that comes
    after `n` successful ones has memory; the first is for the `mm_struct`. -/
def loadSegments (bin : Image) (fuel : Nat) (kmalloc : Nat → Bool) (phEnd : Nat) :
    Nat → Nat → MmStruct → Machine σ → Result (Int × MmStruct × Machine σ)
  | 0, _, _, _ => .error .fuel
  | rounds + 1, ph, mm, s =>
      if ph < phEnd then do
        let pType ← bin.field ph 4
        if pType ≠ ELF_PT_LOAD then loadSegments bin fuel kmalloc phEnd rounds (wrap (ph + 56)) mm s
        else do
          let header ← bin.proghdr ph
          let (ret, mm, s) ← loadSegment M bin fuel (kmalloc (mm.mapCount + 1)) header mm s
          if ret ≠ 0 then pure (ret, mm, s)
          else loadSegments bin fuel kmalloc phEnd rounds (wrap (ph + 56)) mm s
      else pure (0, mm, s)

/-! ## The process -/

/-- `struct trapframe`, with the registers in the order of `struct pushregs`. -/
structure Trapframe where
  gpr : Nat → Nat
  status : Nat
  epc : Nat
  tval : Nat
  cause : Nat

/-- The fields of `current` that are read or set. -/
structure ProcStruct where
  mm : Option MmStruct
  cr3 : Nat
  tf : Trapframe

/-- The place of `sp` in `struct pushregs`. -/
def sp : Nat := 2

/-- The four pages at the top of the user stack. -/
def stackPages (pgdir : Nat) : List Nat → Machine σ → Result (Machine σ)
  | [], s => pure s
  | number :: rest, s => do
      let (page, s) ← pgdirAllocPage M pgdir (USTACKTOP - number * PGSIZE) PTE_USER s
      assert (page ≠ none)
      stackPages pgdir rest s

/-- `bad_cleanup_mmap` and what follows it. -/
def cleanup (mm : MmStruct) (s : Machine σ) : Result (Machine σ) := do
  let s ← exitMmap M mm s
  pure (putPgdir M mm.pgdir s)

def loadIcode (bootPgdir : Nat) (bin : Image) (fuel : Nat) (kmalloc : Nat → Bool) (current : ProcStruct)
    (s : Machine σ) : Result (Int × ProcStruct × Machine σ) := do
  if current.mm.isSome then .error .panic
  else if kmalloc 0 = false then pure (-E_NO_MEM, current, s)
  else
    let mm := mmCreate s.swapInitOk
    match ← setupPgdir M bootPgdir s with
    | (none, s) => pure (-E_NO_MEM, current, s)
    | (some pgdir, s) => do
        let mm := { mm with pgdir := pgdir }
        let ePhoff ← bin.field (wrap (bin.binary + 32)) 8
        let ph := wrap (bin.binary + ePhoff)
        let eMagic ← bin.field bin.binary 4
        if eMagic ≠ ELF_MAGIC then pure (-E_INVAL_ELF, current, putPgdir M mm.pgdir s)
        else do
          let ePhnum ← bin.field (wrap (bin.binary + 56)) 2
          let (ret, mm, s) ←
            loadSegments M bin fuel kmalloc (wrap (ph + 56 * ePhnum)) (ePhnum + 1) ph mm s
          if ret ≠ 0 then do
            let s ← cleanup M mm s
            pure (ret, current, s)
          else do
            let (ret, _, mm) ← mmMap mm (USTACKTOP - USTACKSIZE) USTACKSIZE (VM_READ ||| VM_WRITE ||| VM_STACK)
              (kmalloc (mm.mapCount + 1))
            if ret ≠ 0 then do
              let s ← cleanup M mm s
              pure (ret, current, s)
            else do
              let s ← stackPages M mm.pgdir [1, 2, 3, 4] s
              let eEntry ← bin.field (wrap (bin.binary + 24)) 8
              let tf : Trapframe :=
                { gpr := Function.update (fun _ => 0) sp USTACKTOP
                  status := current.tf.status &&& (2 ^ 64 - 1 - (SSTATUS_SPP ||| SSTATUS_SPIE))
                  epc := eEntry
                  tval := 0
                  cause := 0 }
              pure (0, { mm := some mm, cr3 := mm.pgdir * PGSIZE, tf := tf }, s)

end Ucore.Process.LoadIcode
