import Ucore.Lib.Bytes
import Ucore.Mm.VmaList

/-! # Strings from user space

`copy_string` of `vmm.c` copies page by page, and checks each piece of a page before it looks
at it. Reading a byte outside the readable areas would stop the kernel.
-/

namespace Ucore.Mm.CopyString

open Lib.Bytes Libs.Assert Mmu Pmm Vmm PageFault VmaList

/-! ## Reading -/

def loadByte (mm : Option MmStruct) (m : Block) (x : Nat) : Result UInt8 :=
  match mm with
  | some mm =>
      if ∃ vma ∈ mm.mmapList, vma.covers x = true ∧ vma.vmFlags &&& VM_READ ≠ 0 then .ok (m x) else .error .panic
  | none => .ok (m x)

/-- The loop, with `len` characters to go. -/
def strnlen (mm : Option MmStruct) (m : Block) (s : Nat) : Nat → Result Nat
  | 0 => .ok 0
  | len + 1 => do
      let c ← loadByte mm m s
      if c ≠ 0 then do
        let cnt ← strnlen mm m (s + 1) len
        pure (cnt + 1)
      else pure 0

def loadBytes (mm : Option MmStruct) (m : Block) (src : Nat) : Nat → Result (List UInt8)
  | 0 => .ok []
  | n + 1 => do
      let c ← loadByte mm m src
      let cs ← loadBytes mm m (src + 1) n
      pure (c :: cs)

def memcpy (mm : Option MmStruct) (m : Block) (dst src n : Nat) : Result Block := do
  let bytes ← loadBytes mm m src n
  pure (patch m dst bytes)

/-! ## The copy -/

/-- The loop of `copy_string`, with fuel. -/
def copyLoop : Nat → Option MmStruct → Block → (dst src maxn part : Nat) → Result (Bool × Option MmStruct × Block)
  | 0, _, _, _, _, _, _ => .error .fuel
  | fuel + 1, mm, m, dst, src, maxn, part => do
      let part := if maxn < part then maxn else part
      let (ok, mm) ← userMemCheck (part + 1) mm src part false
      if ok = false then pure (false, mm, m)
      else do
        let alen ← strnlen mm m src part
        if alen < part then do
          let m ← memcpy mm m dst src (alen + 1)
          pure (true, mm, m)
        else if part = maxn then pure (false, mm, m)
        else do
          let m ← memcpy mm m dst src part
          copyLoop fuel mm m (dst + part) (src + part) (maxn - part) PGSIZE

/-- What is left of the page behind `src`, in 64 bits. -/
def firstPart (src : Nat) : Nat := wrap (roundDown (wrap (src + PGSIZE)) PGSIZE + (2 ^ 64 - src))

def copyString (fuel : Nat) (mm : Option MmStruct) (m : Block) (dst src maxn : Nat) :
    Result (Bool × Option MmStruct × Block) :=
  copyLoop fuel mm m dst src maxn (firstPart src)

/-! ## What is readable -/

variable {mm mm' : MmStruct} {m : Block} {dst src maxn n x : Nat}

def Readable (mm : MmStruct) (x : Nat) : Prop :=
  (USERBASE ≤ x ∧ x < USERTOP) ∧ ∃ vma ∈ mm.mmapList, vma.covers x = true ∧ vma.vmFlags &&& VM_READ ≠ 0

/-- A NUL byte among the first `maxn`, and everything up to it readable. -/
def HasString (mm : MmStruct) (m : Block) (src maxn : Nat) : Prop :=
  ∃ k < maxn, m (src + k) = 0 ∧ ∀ j ≤ k, Readable mm (src + j)

/-- Areas consist of whole pages. -/
def Paged (mm : MmStruct) : Prop := ∀ vma ∈ mm.mmapList, PGSIZE ∣ vma.vmStart ∧ PGSIZE ∣ vma.vmEnd

theorem Readable.congr (list : mm'.mmapList = mm.mmapList) : Readable mm' x ↔ Readable mm x := by
  rw [Readable, list]
  rfl

theorem allowed_iff : Allowed mm src n false ↔ 0 < n ∧ ∀ j < n, Readable mm (src + j) := by
  constructor
  · rintro ⟨user, nonempty, covered, -⟩
    refine ⟨nonempty, fun j inside => ⟨⟨by omega, by omega⟩, ?_⟩⟩
    obtain ⟨vma, member, here, flag⟩ := covered (src + j) (Nat.le_add_right ..) (by omega)
    exact ⟨vma, member, by simpa [VmaStruct.covers] using here, flag⟩
  · rintro ⟨nonempty, all⟩
    have first := all 0 nonempty
    have last := all (n - 1) (by omega)
    refine ⟨⟨first.1.1, ?_⟩, nonempty, fun x low high => ?_, by simp⟩
    · have := last.1.2
      omega
    · obtain ⟨j, rfl⟩ := Nat.exists_eq_add_of_le low
      obtain ⟨-, vma, member, covers, flag⟩ := all j (by omega)
      exact ⟨vma, member, by simpa [VmaStruct.covers] using covers, flag⟩

/-- With one byte of a page all of them are readable. -/
theorem Readable.page (paged : Paged mm) (readable : Readable mm x) {y : Nat} (same : y / PGSIZE = x / PGSIZE) :
    Readable mm y := by
  obtain ⟨user, vma, member, covers, flag⟩ := readable
  obtain ⟨starts, ends⟩ := paged vma member
  have inside : vma.vmStart ≤ x ∧ x < vma.vmEnd := by simpa [VmaStruct.covers] using covers
  have transfer : ∀ {lo hi : Nat}, PGSIZE ∣ lo → PGSIZE ∣ hi → lo ≤ x ∧ x < hi → lo ≤ y ∧ y < hi := by
    rintro lo hi ⟨a, rfl⟩ ⟨b, rfl⟩ ⟨low, high⟩
    have positive : 0 < PGSIZE := by decide +kernel
    rw [Nat.mul_comm, ← Nat.le_div_iff_mul_le positive] at low ⊢
    rw [Nat.mul_comm, ← Nat.div_lt_iff_lt_mul positive] at high ⊢
    rw [same]
    exact ⟨low, high⟩
  have base : PGSIZE ∣ USERBASE := by decide +kernel
  have top : PGSIZE ∣ USERTOP := by decide +kernel
  refine ⟨transfer base top user, vma, member, ?_, flag⟩
  simpa [VmaStruct.covers] using transfer starts ends inside

/-! ## The pieces -/

theorem loadByte_readable (readable : Readable mm x) : loadByte (some mm) m x = .ok (m x) := if_pos readable.2

theorem strnlen_spec (readable : ∀ j < n, Readable mm (src + j)) : ∃ alen ≤ n, strnlen (some mm) m src n = .ok alen ∧
    (∀ j < alen, m (src + j) ≠ 0) ∧ (alen < n → m (src + alen) = 0) := by
  induction n generalizing src with
  | zero => exact ⟨0, le_rfl, rfl, fun _ none => absurd none (Nat.not_lt_zero _), nofun⟩
  | succ n ih =>
      have first : loadByte (some mm) m src = .ok (m src) := loadByte_readable (readable 0 (Nat.succ_pos n))
      by_cases ends : m src = 0
      · refine ⟨0, Nat.zero_le _, ?_, fun _ none => absurd none (Nat.not_lt_zero _), fun _ => ends⟩
        rw [strnlen, first, ok_bind, if_neg (not_not.mpr ends)]
        rfl
      · have later : ∀ j < n, Readable mm (src + 1 + j) := fun j inside => by
          have := readable (j + 1) (Nat.succ_lt_succ inside)
          rwa [show src + (j + 1) = src + 1 + j by omega] at this
        obtain ⟨alen, most, run, before, stop⟩ := ih later
        refine ⟨alen + 1, Nat.succ_le_succ most, ?_, fun j inside => ?_, fun more => ?_⟩
        · rw [strnlen, first, ok_bind, if_pos ends, run]
          rfl
        · cases j with
          | zero => exact ends
          | succ j =>
              rw [show src + (j + 1) = src + 1 + j by omega]
              exact before j (Nat.lt_of_succ_lt_succ inside)
        · rw [show src + (alen + 1) = src + 1 + alen by omega]
          exact stop (Nat.lt_of_succ_lt_succ more)

theorem loadBytes_spec (readable : ∀ j < n, Readable mm (src + j)) :
    loadBytes (some mm) m src n = .ok (slice m src n) := by
  induction n generalizing src with
  | zero => rfl
  | succ n ih =>
      have first : loadByte (some mm) m src = .ok (m src) := loadByte_readable (readable 0 (Nat.succ_pos n))
      have later : ∀ j < n, Readable mm (src + 1 + j) := fun j inside => by
        have := readable (j + 1) (Nat.succ_lt_succ inside)
        rwa [show src + (j + 1) = src + 1 + j by omega] at this
      rw [loadBytes, first, ok_bind, ih later, slice_succ]
      rfl

theorem memcpy_spec (readable : ∀ j < n, Readable mm (src + j)) :
    memcpy (some mm) m dst src n = .ok (patch m dst (slice m src n)) := by
  rw [memcpy, loadBytes_spec readable]
  rfl

theorem memCheckLoop_sound (sound : Sound mm) {write ok : Bool} {stop start fuel : Nat}
    (run : memCheckLoop write stop fuel start mm = .ok (ok, mm')) : Sound mm' := by
  induction fuel generalizing start mm with
  | zero => cases run
  | succ fuel ih =>
      have cached := sound.findVma start
      rw [memCheckLoop] at run
      generalize findVma mm start = found at run cached
      generalize (if write then VM_WRITE else VM_READ) = flag at run
      obtain ⟨vma, next⟩ := found
      have here : ∀ {b : Bool}, (.ok (b, next) : Result (Bool × MmStruct)) = .ok (ok, mm') → Sound mm' := fun same =>
        (Prod.mk.inj (Except.ok.inj same)).2 ▸ cached
      split at run
      · cases vma with
        | none => exact here run
        | some vma =>
            dsimp only at run
            split at run
            · exact here run
            · split at run
              · exact here run
              · split at run
                · exact here run
                · exact ih cached run
      · exact (Prod.mk.inj (Except.ok.inj run)).2 ▸ sound

theorem userMemCheck_sound (sound : Sound mm) {ok write : Bool} {fuel : Nat}
    (run : userMemCheck fuel (some mm) src n write = .ok (ok, some mm')) : Sound mm' := by
  rw [userMemCheck] at run
  split at run
  · obtain ⟨-, same⟩ := Prod.mk.inj (Except.ok.inj run)
    exact Option.some.inj same ▸ sound
  · obtain ⟨⟨b, mm''⟩, loop, last⟩ := bind_ok.mp run
    obtain ⟨-, same⟩ := Prod.mk.inj (Except.ok.inj last)
    exact Option.some.inj same ▸ memCheckLoop_sound sound loop

/-! ## The whole copy -/

/-- What `copy_string` leaves behind: the string, if there is one, and nothing outside the buffer. -/
structure Copied (mm : MmStruct) (m : Block) (dst src maxn : Nat) (ok : Bool) (m' : Block) : Prop where
  exact : ok = true ↔ HasString mm m src maxn
  string : ok = true → ∃ k < maxn, m (src + k) = 0 ∧ (∀ j < k, m (src + j) ≠ 0) ∧
    (∀ j ≤ k, Readable mm (src + j)) ∧ slice m' dst (k + 1) = slice m src (k + 1)
  frame : ∀ x, x < dst ∨ dst + maxn ≤ x → m' x = m x

theorem Copied.refused (absent : ¬HasString mm m src maxn) : Copied mm m dst src maxn false m where
  exact := iff_of_false Bool.false_ne_true absent
  string := nofun
  frame _ _ := rfl

theorem Copied.congr {m' : Block} {ok : Bool} (list : mm'.mmapList = mm.mmapList)
    (copied : Copied mm' m dst src maxn ok m') :
    Copied mm m dst src maxn ok m' where
  exact := by simpa only [HasString, Readable.congr list] using copied.exact
  string := by simpa only [Readable.congr list] using copied.string
  frame := copied.frame

theorem firstPart_eq (small : src < 2 ^ 64) : firstPart src = PGSIZE - src % PGSIZE := by
  have page : PGSIZE = 4096 := by simp only [PGSIZE]
  simp only [firstPart, wrap, roundDown, page]
  omega

/-- A page further on, with its bytes copied and no NUL among them. -/
theorem Copied.onward {m' : Block} {ok : Bool} {p : Nat} (kernel : USERTOP ≤ dst) (inside : p ≤ maxn)
    (readable : ∀ j < p, Readable mm (src + j)) (filled : ∀ j < p, m (src + j) ≠ 0)
    (later : Copied mm (patch m dst (slice m src p)) (dst + p) (src + p) (maxn - p) ok m') :
    Copied mm m dst src maxn ok m' := by
  have length : (slice m src p).length = p := length_slice ..
  have user : ∀ {x}, Readable mm x → patch m dst (slice m src p) x = m x := fun here =>
    patch_outside (.inl (here.1.2.trans_le kernel))
  have shift : ∀ k, (∀ j ≤ k, Readable mm (src + p + j)) → ∀ j ≤ p + k, Readable mm (src + j) := by
    intro k all j most
    by_cases first : j < p
    · exact readable j first
    · have second := all (j - p) (by omega)
      rwa [show src + p + (j - p) = src + j by omega] at second
  refine ⟨later.exact.trans ⟨?_, ?_⟩, fun copied => ?_, fun x outside => ?_⟩
  · rintro ⟨k, few, ends, all⟩
    rw [user (all k le_rfl), Nat.add_assoc] at ends
    exact ⟨p + k, by omega, ends, shift k all⟩
  · rintro ⟨k, few, ends, all⟩
    have past : p ≤ k := not_lt.mp fun first => filled k first ends
    obtain ⟨k, rfl⟩ := Nat.exists_eq_add_of_le past
    have all' : ∀ j ≤ k, Readable mm (src + p + j) := fun j most => by
      rw [Nat.add_assoc]
      exact all (p + j) (by omega)
    refine ⟨k, by omega, ?_, all'⟩
    rw [user (all' k le_rfl), Nat.add_assoc]
    exact ends
  · obtain ⟨k, few, ends, before, all, string⟩ := later.string copied
    have old : ∀ j ≤ k, patch m dst (slice m src p) (src + p + j) = m (src + p + j) := fun j most => user (all j most)
    refine ⟨p + k, by omega, ?_, fun j most => ?_, shift k all, ?_⟩
    · rw [← Nat.add_assoc, ← old k le_rfl]
      exact ends
    · by_cases first : j < p
      · exact filled j first
      · have second := before (j - p) (by omega)
        rwa [old (j - p) (by omega), show src + p + (j - p) = src + j by omega] at second
    · have front : slice m' dst p = slice m src p := by
        have same : slice m' dst p = slice (patch m dst (slice m src p)) dst p :=
          slice_congr fun i low high => later.frame i (.inl high)
        have copy := slice_patch m dst (slice m src p)
        rw [length] at copy
        rw [same, copy]
      have back : slice m' (dst + p) (k + 1) = slice m (src + p) (k + 1) := by
        rw [string]
        refine slice_congr fun i low high => ?_
        obtain ⟨j, rfl⟩ := Nat.exists_eq_add_of_le low
        exact old j (by omega)
      rw [Nat.add_assoc, slice_append m', front, back, ← slice_append]
  · rw [later.frame x (by omega)]
    exact patch_outside (by rw [length]; omega)

theorem copyLoop_exact (sound : Sound mm) (paged : Paged mm) (small : src < 2 ^ 64) (size : maxn < 2 ^ 64)
    (kernel : USERTOP ≤ dst) {fuel : Nat} (enough : maxn < fuel) :
    ∃ ok mm' m', copyLoop fuel (some mm) m dst src maxn (PGSIZE - src % PGSIZE) = .ok (ok, some mm', m') ∧
      mm'.mmapList = mm.mmapList ∧ Copied mm m dst src maxn ok m' := by
  induction fuel generalizing mm m dst src maxn with
  | zero => exact absurd enough (Nat.not_lt_zero _)
  | succ fuel ih =>
      have page : 0 < PGSIZE := by decide +kernel
      have rest : src % PGSIZE < PGSIZE := Nat.mod_lt _ page
      generalize part : (if maxn < PGSIZE - src % PGSIZE then maxn else PGSIZE - src % PGSIZE) = p
      have most : p ≤ maxn ∧ p ≤ PGSIZE - src % PGSIZE ∧ (p = maxn ∨ p = PGSIZE - src % PGSIZE) := by
        rw [← part]
        split <;> omega
      obtain ⟨ok, mm', check, list, allowed⟩ :=
        userMemCheck_exact sound false small (show p < 2 ^ 64 by omega) (Nat.lt_succ_self p)
      have sound' := userMemCheck_sound sound check
      rw [allowed_iff] at allowed
      rw [copyLoop, part, check, ok_bind]
      cases ok with
      | false =>
          refine ⟨false, mm', m, rfl, list, .refused ?_⟩
          rintro ⟨k, few, -, all⟩
          have first : Readable mm src := all 0 (Nat.zero_le k)
          refine absurd (allowed.mpr ⟨by omega, fun j inside => first.page paged ?_⟩) Bool.false_ne_true
          rw [Nat.div_eq_iff page, Nat.mul_comm]
          have split := Nat.div_add_mod src PGSIZE
          omega
      | true =>
          obtain ⟨positive, readable⟩ := allowed.mp rfl
          have readable' : ∀ j < p, Readable mm' (src + j) :=
            fun j inside => (Readable.congr list).mpr (readable j inside)
          obtain ⟨alen, least, scan, before, stop⟩ := strnlen_spec (m := m) readable'
          dsimp only
          rw [if_neg (by decide), scan, ok_bind]
          by_cases ends : alen < p
          · have copy : memcpy (some mm') m dst src (alen + 1) = .ok (patch m dst (slice m src (alen + 1))) :=
              memcpy_spec fun j inside => readable' j (by omega)
            have length : (slice m src (alen + 1)).length = alen + 1 := length_slice ..
            have all : ∀ j ≤ alen, Readable mm (src + j) := fun j inside => readable j (by omega)
            rw [if_pos ends, copy]
            refine ⟨true, mm', _, rfl, list, iff_of_true rfl ⟨alen, by omega, stop ends, all⟩, fun _ => ?_,
              fun x outside => ?_⟩
            · have copied := slice_patch m dst (slice m src (alen + 1))
              rw [length] at copied
              exact ⟨alen, by omega, stop ends, before, all, copied⟩
            · exact patch_outside (by rw [length]; omega)
          · have filled : ∀ j < p, m (src + j) ≠ 0 := fun j inside => before j (by omega)
            rw [if_neg ends]
            by_cases last : p = maxn
            · rw [if_pos last]
              refine ⟨false, mm', m, rfl, list, .refused ?_⟩
              rintro ⟨k, few, ends, -⟩
              exact filled k (last ▸ few) ends
            · have whole : p = PGSIZE - src % PGSIZE := most.2.2.resolve_left last
              have user := (readable (p - 1) (by omega)).1.2
              have aligned : PGSIZE - (src + p) % PGSIZE = PGSIZE := by
                have split := Nat.div_add_mod src PGSIZE
                have multiple : src + p = PGSIZE * (src / PGSIZE + 1) := by
                  rw [Nat.mul_add]
                  omega
                rw [multiple, Nat.mul_mod_right, Nat.sub_zero]
              have top : USERTOP < 2 ^ 64 := by decide +kernel
              obtain ⟨ok, mm'', m', run, list', copied⟩ :=
                @ih mm' (patch m dst (slice m src p)) (dst + p) (src + p) (maxn - p)
                sound' (fun vma member => paged vma (list ▸ member)) (by omega) (by omega) (by omega) (by omega)
              rw [aligned] at run
              rw [if_neg last, memcpy_spec readable', ok_bind]
              refine ⟨ok, mm'', m', run, list'.trans list, .onward kernel most.1 readable filled ?_⟩
              exact copied.congr list

theorem copyString_exact (sound : Sound mm) (paged : Paged mm) (small : src < 2 ^ 64) (size : maxn < 2 ^ 64)
    (kernel : USERTOP ≤ dst) {fuel : Nat} (enough : maxn < fuel) :
    ∃ ok mm' m', copyString fuel (some mm) m dst src maxn = .ok (ok, some mm', m') ∧ mm'.mmapList = mm.mmapList ∧
      Copied mm m dst src maxn ok m' := by
  rw [copyString, firstPart_eq small]
  exact copyLoop_exact sound paged small size kernel enough

/-- A string that ends with the last byte of its area, and with the last of the buffer. -/
theorem copyString_exact_last :
    ∃ ok mm' m', copyString 3 (some ⟨[⟨0x400000, 0x401000, VM_READ⟩], none, 0, 1, true⟩)
      (Function.update (fun _ => 65) 0x400fff 0)
      KERNBASE 0x400ffe 2 = .ok (ok, some mm', m') ∧ ok = true := by
  have page : PGSIZE = 0x1000 := by simp only [PGSIZE]
  obtain ⟨ok, mm', m', run, -, copied⟩ := @copyString_exact ⟨[⟨0x400000, 0x401000, VM_READ⟩], none, 0, 1, true⟩
    (Function.update (fun _ => 65) 0x400fff 0) KERNBASE 0x400ffe 2
    ⟨by simp, by simp, by simp, rfl⟩ (by simp [Paged, page]) (by decide) (by decide) (by decide +kernel) 3
      (Nat.lt_succ_self 2)
  refine ⟨ok, mm', m', run, copied.exact.mpr ⟨1, by decide, Function.update_self .., fun j few => ⟨?_, ?_⟩⟩⟩
  · have base : USERBASE ≤ 0x400ffe ∧ 0x400fff < USERTOP := by decide +kernel
    omega
  · refine ⟨_, List.mem_cons_self, ?_, by decide⟩
    simp only [VmaStruct.covers, Bool.and_eq_true, decide_eq_true_eq]
    omega

end Ucore.Mm.CopyString
