import Mathlib

/-! # Addresses and page-table entries

`mmu.h` and `memlayout.h`: how a linear address selects one entry on each of the
three levels, and what an entry says. Addresses, page numbers and entries are
numbers; the user half of the address space ends far below any overflow.
-/

namespace Ucore.Mm.Mmu

def PGSIZE : Nat := 4096
def NPTEENTRY : Nat := 512

/-- `PGSIZE * NPTEENTRY`. -/
def PTSIZE : Nat := 0x200000

/-- `PTSIZE * NPDEENTRY`. -/
def PDSIZE : Nat := 0x40000000

def USERBASE : Nat := 0x00200000
def USERTOP : Nat := 0x80000000

/-- `DRAM_BASE / PGSIZE`. -/
def nbase : Nat := 0x80000

/-- `PHYSICAL_MEMORY_END / PGSIZE`. -/
def npage : Nat := 0x88000

def userAccess (start stop : Nat) : Bool := USERBASE ≤ start && start < stop && stop ≤ USERTOP

def PTE_V : Nat := 0x001
def PTE_R : Nat := 0x002
def PTE_W : Nat := 0x004
def PTE_X : Nat := 0x008
def PTE_U : Nat := 0x010
def PTE_USER : Nat := PTE_R ||| PTE_W ||| PTE_X ||| PTE_U ||| PTE_V
def READ_WRITE : Nat := PTE_R ||| PTE_W ||| PTE_V

def pdx1 (la : Nat) : Nat := la / PDSIZE % 512
def pdx0 (la : Nat) : Nat := la / PTSIZE % 512
def ptx (la : Nat) : Nat := la / PGSIZE % 512

def roundDown (a n : Nat) : Nat := a - a % n
def roundUp (a n : Nat) : Nat := roundDown (a + n - 1) n

/-- `pte_create(ppn, type)`. -/
def pteCreate (ppn type : Nat) : Nat := ppn <<< 10 ||| (PTE_V ||| type)

/-- The page number in an entry: `PTE_ADDR(pte) >> PTXSHIFT`. -/
def ptePpn (pte : Nat) : Nat := pte >>> 10

/-- Whether an entry has all the flags of a mask. -/
def hasFlags (pte mask : Nat) : Bool := pte &&& mask = mask

abbrev isValid (pte : Nat) : Bool := hasFlags pte PTE_V

/-! ## The parts of an address -/

theorem pdx1_lt (la : Nat) : pdx1 la < 512 := Nat.mod_lt _ (by decide)
theorem pdx0_lt (la : Nat) : pdx0 la < 512 := Nat.mod_lt _ (by decide)
theorem ptx_lt (la : Nat) : ptx la < 512 := Nat.mod_lt _ (by decide)

theorem pdx1_lt_of_user {la : Nat} (user : la < USERTOP) : pdx1 la < 2 := by
  simp only [pdx1, PDSIZE, USERTOP] at *
  omega

/-- User addresses with the same three indices are on the same page. -/
theorem samePage_of_indices {la la' : Nat} (user : la < USERTOP) (user' : la' < USERTOP)
    (first : pdx1 la = pdx1 la') (second : pdx0 la = pdx0 la') (third : ptx la = ptx la') :
    la / PGSIZE = la' / PGSIZE := by
  simp only [pdx1, pdx0, ptx, PDSIZE, PTSIZE, PGSIZE, USERTOP] at *
  omega

theorem indices_of_samePage {la la' : Nat} (same : la / PGSIZE = la' / PGSIZE) :
    pdx1 la = pdx1 la' ∧ pdx0 la = pdx0 la' ∧ ptx la = ptx la' := by
  simp only [pdx1, pdx0, ptx, PDSIZE, PTSIZE, PGSIZE] at *
  omega

/-! ## The parts of an entry -/

theorem pteCreate_eq {ppn type : Nat} (small : type < 1024) :
    pteCreate ppn type = ppn * 1024 + (PTE_V ||| type) := by
  have flags : PTE_V ||| type < 2 ^ 10 := Nat.or_lt_two_pow (by decide) small
  rw [pteCreate, ← Nat.shiftLeft_add_eq_or_of_lt flags, Nat.shiftLeft_eq]

theorem ptePpn_pteCreate {ppn type : Nat} (small : type < 1024) :
    ptePpn (pteCreate ppn type) = ppn := by
  have flags : PTE_V ||| type < 2 ^ 10 := Nat.or_lt_two_pow (by decide) small
  rw [pteCreate_eq small, ptePpn, Nat.shiftRight_eq_div_pow]
  omega

theorem pteCreate_testBit {ppn type i : Nat} (low : i < 10) :
    (pteCreate ppn type).testBit i = (PTE_V ||| type).testBit i := by
  rw [pteCreate, Nat.testBit_or, Nat.testBit_shiftLeft]
  simp [Nat.not_le.mpr low]

/-- A single flag is one bit of the entry. -/
theorem hasFlags_bit {pte i : Nat} : hasFlags pte (2 ^ i) = pte.testBit i := by
  have positive := Nat.two_pow_pos i
  rw [hasFlags, Nat.and_two_pow, Bool.eq_iff_iff]
  cases pte.testBit i <;> simp [positive.ne]

theorem isValid_eq (pte : Nat) : isValid pte = pte.testBit 0 := hasFlags_bit (i := 0)

theorem isValid_zero : isValid 0 = false := by decide

theorem isValid_pteCreate (ppn type : Nat) : isValid (pteCreate ppn type) = true := by
  rw [isValid_eq, pteCreate_testBit (by decide), Nat.testBit_or]
  simp [PTE_V]

theorem PGSIZE_pos : 0 < PGSIZE := by decide

-- numerals of this size must not be unfolded when terms are compared
attribute [irreducible] PGSIZE PTSIZE PDSIZE USERBASE USERTOP nbase npage

end Ucore.Mm.Mmu
