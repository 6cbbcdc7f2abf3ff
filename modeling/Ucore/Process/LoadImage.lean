import Ucore.Mm.ExitMmap
import Ucore.Mm.RefCounts
import Ucore.Process.LoadPages

/-! # The memory image of a program

The loop over the program headers keeps every mapped page inside an area, so that the pages of
the next segment are new. What it returns zero for is all in memory, byte by byte, and stays
there until `load_icode` returns.
-/

namespace Ucore.Process.LoadImage

open Lib.Bytes Libs.Assert Mm.Mmu Mm.Pmm Mm.PageTables Mm.PageRefs Mm.UserPages Mm.Vmm Mm.VmaList Mm.ExitMmap LoadIcode
  LoadPages

variable {σ : Type} {M : PmmManager σ} {s t : Machine σ} {role role' : Nat → Role} {roots : Finset Nat}
  {r fuel : Nat} {mm mm' : MmStruct} {bin : Image} {ph : Proghdr} {memory : Bool}

variable (M) in
/-- An address space in the making: pages are mapped in areas only. -/
structure Loading (roots : Finset Nat) (r : Nat) (mm : MmStruct) (s : Machine σ) (role : Nat → Role) : Prop where
  counted : Counted M roots 0 s role
  root : r ∈ roots
  pgdir : mm.pgdir = r
  sound : Sound mm
  areas : ∀ vma ∈ mm.mmapList, AreaOk vma
  covered : ∀ a < USERTOP, isValid (pteOf s r a) = true → ∃ vma ∈ mm.mmapList, vma.covers a = true

/-- The pages of a range that fits are new. -/
theorem Loading.unmapped {addr len : Nat} (loading : Loading M roots r mm s role) (fits : Fits mm addr len) (a : Nat)
    (low : roundDown addr PGSIZE ≤ a) (high : a < roundUp (addr + len) PGSIZE) : isValid (pteOf s r a) = false := by
  rw [← Bool.not_eq_true]
  intro valid
  obtain ⟨vma, member, covers⟩ := loading.covered a (high.trans_le fits.user.2) valid
  simp only [VmaStruct.covers, Bool.and_eq_true, decide_eq_true_eq] at covers
  rcases fits.apart vma member with before | behind <;> omega

theorem areaOk_of_fits {addr len vmFlags : Nat} (fits : Fits mm addr len) :
    AreaOk ⟨roundDown addr PGSIZE, roundUp (addr + len) PGSIZE, vmFlags⟩ := by
  refine ⟨⟨?_, ?_⟩, userAccess_iff.mpr ⟨fits.user.1, fits.nonempty, fits.user.2⟩⟩
  · simp only [roundDown, PGSIZE]
    omega
  · simp only [roundUp, roundDown, PGSIZE]
    omega

/-- A new area, with or without pages in it. -/
theorem Loading.extend {vma : VmaStruct} (loading : Loading M roots r mm s role) (grows : Grows M roots s role t role')
    (sound : Sound mm') (perm : mm'.mmapList.Perm (vma :: mm.mmapList)) (pgdir : mm'.pgdir = mm.pgdir) (ok : AreaOk vma)
    (inside : ∀ a < USERTOP, isValid (pteOf t r a) = true → isValid (pteOf s r a) = true ∨ vma.covers a = true) :
    Loading M roots r mm' t role' where
  counted := grows.counted
  root := loading.root
  pgdir := pgdir.trans loading.pgdir
  sound := sound
  areas b member := by
    rcases List.mem_cons.mp (perm.mem_iff.mp member) with rfl | old
    · exact ok
    · exact loading.areas b old
  covered a user valid := by
    rcases inside a user valid with before | here
    · obtain ⟨b, member, covers⟩ := loading.covered a user before
      exact ⟨b, perm.mem_iff.mpr (List.mem_cons_of_mem _ member), covers⟩
    · exact ⟨vma, perm.mem_iff.mpr List.mem_cons_self, here⟩

/-! ## One segment -/

/-- A segment is in memory. -/
def InMemory (bin : Image) (r : Nat) (t : Machine σ) (ph : Proghdr) : Prop :=
  ∀ a, ph.pVa ≤ a → a < ph.pVa + ph.pMemsz → userByte t r a = some (segmentByte bin ph a)

/-- The last page of the segment's range. -/
def segmentEnd (ph : Proghdr) : Nat := roundUp (ph.pVa + ph.pMemsz) PGSIZE

theorem loadSegment_loading (loading : Loading M roots r mm s role) (small : ph.pVa + ph.pMemsz < 2 ^ 64) :
    (∃ ret mm' t role', loadSegment M bin fuel memory ph mm s = .ok (ret, mm', t) ∧ Loading M roots r mm' t role' ∧
      Grows M roots s role t role' ∧ (ret < 0 ∨ ret = 0 ∧ InMemory bin r t ph ∧
        Leaves r (fun a => ph.pVa ≤ a ∧ a < ph.pVa + ph.pMemsz) s role t ∧ ph.pVa + ph.pMemsz ≤ USERTOP ∧
        ∀ b ∈ mm'.mmapList, b ∈ mm.mmapList ∨ b.vmEnd = segmentEnd ph)) ∨
    ∃ e, loadSegment M bin fuel memory ph mm s = .error e ∧
      (e = .assertion → ∃ b ∈ mm.mmapList, roundDown ph.pVa PGSIZE < b.vmStart ∧ b.vmStart < segmentEnd ph) := by
  unfold loadSegment
  by_cases trimmed : ph.pMemsz < ph.pFilesz
  · rw [if_pos trimmed]
    exact .inl ⟨-E_INVAL_ELF, mm, s, role, rfl, loading, .refl loading.counted, .inl (by decide)⟩
  rw [if_neg trimmed]
  rcases mmMap_cases loading.sound small (vmFlagsOf ph.pFlags) memory with
    ⟨stops, swallowed⟩ | ⟨ret, mm', run, negative, sound', list, pgdir⟩ | ⟨mm', run, fits, sound', perm, pgdir⟩
  · rw [stops, error_bind]
    exact .inr ⟨.assertion, rfl, fun _ => swallowed⟩
  · rw [run, ok_bind]
    dsimp only
    rw [if_pos negative.ne]
    refine .inl ⟨ret, mm', s, role, rfl, ⟨loading.counted, loading.root, pgdir.trans loading.pgdir, sound', ?_, ?_⟩,
      .refl loading.counted, .inl negative⟩
    · rw [list]
      exact loading.areas
    · rw [list]
      exact loading.covered
  · rw [run, ok_bind]
    dsimp only
    rw [if_neg (by simp), pgdir, loading.pgdir]
    have alignedHi : roundUp (ph.pVa + ph.pMemsz) PGSIZE % PGSIZE = 0 := 
      (show AreaOk ⟨_, _, 0⟩ from areaOk_of_fits fits).1.2
    have top : ph.pVa + ph.pMemsz ≤ roundUp (ph.pVa + ph.pMemsz) PGSIZE := by
      simp only [roundUp, roundDown, PGSIZE]
      omega
    rcases loadPages_filled loading.counted loading.root fits.user.2 alignedHi
      (not_lt.mp trimmed) top (loading.unmapped fits) with ⟨ret, t, w, role', pages, filled, ends⟩ | ⟨e, stops,
        harmless⟩
    · rw [pages, ok_bind]
      have next : Loading M roots r mm' t role' := by
        refine loading.extend filled.grows sound' perm pgdir (areaOk_of_fits fits) fun a user valid => ?_
        refine (filled.below a user valid).imp_right fun inside => ?_
        have high := filled.high
        simp only [VmaStruct.covers, Bool.and_eq_true, decide_eq_true_eq]
        omega
      refine .inl ⟨ret, mm', t, role', rfl, next, filled.grows, ?_⟩
      rcases ends with rfl | ⟨rfl, ends⟩
      · exact .inl (by decide)
      · have leaves := filled.leaves
        rw [ends] at leaves
        refine .inr ⟨rfl, fun a low high => filled.bytes a low (by omega), leaves, top.trans fits.user.2,
          fun b member => ?_⟩
        rcases List.mem_cons.mp (perm.mem_iff.mp member) with rfl | old
        · exact .inr rfl
        · exact .inl old
    · rw [stops, error_bind]
      exact .inr ⟨e, rfl, fun same => absurd same harmless⟩

/-! ## The loop over the headers -/

/-- A loadable segment. -/
def Loadable (bin : Image) (addr : Nat) (ph : Proghdr) : Prop := bin.proghdr addr = .ok ph ∧ ph.pType = ELF_PT_LOAD

theorem proghdr_pType {addr : Nat} (read : bin.proghdr addr = .ok ph) : bin.field addr 4 = .ok ph.pType := by
  rw [Image.proghdr] at read
  obtain ⟨pType, first, rest⟩ := bind_ok.mp read
  obtain ⟨_, -, rest⟩ := bind_ok.mp rest
  obtain ⟨_, -, rest⟩ := bind_ok.mp rest
  obtain ⟨_, -, rest⟩ := bind_ok.mp rest
  obtain ⟨_, -, rest⟩ := bind_ok.mp rest
  obtain ⟨_, -, rest⟩ := bind_ok.mp rest
  cases rest
  exact first

theorem field_stops {addr count : Nat} {e : Stop} (stops : bin.field addr count = .error e) : e = .panic := by
  rw [Image.field, Image.read] at stops
  split at stops
  · cases stops
  · cases stops
    rfl

theorem proghdr_stops {addr : Nat} {e : Stop} (stops : bin.proghdr addr = .error e) : e = .panic := by
  rw [Image.proghdr] at stops
  rcases bind_error.mp stops with stops | ⟨_, -, stops⟩
  · exact field_stops stops
  rcases bind_error.mp stops with stops | ⟨_, -, stops⟩
  · exact field_stops stops
  rcases bind_error.mp stops with stops | ⟨_, -, stops⟩
  · exact field_stops stops
  rcases bind_error.mp stops with stops | ⟨_, -, stops⟩
  · exact field_stops stops
  rcases bind_error.mp stops with stops | ⟨_, -, stops⟩
  · exact field_stops stops
  rcases bind_error.mp stops with stops | ⟨_, -, stops⟩
  · exact field_stops stops
  · cases stops

theorem InMemory.grows (inMemory : InMemory bin r s ph) (counted : Counted M roots 0 s role) (root : r ∈ roots)
    (user : ph.pVa + ph.pMemsz ≤ USERTOP) (grows : Grows M roots s role t role') : InMemory bin r t ph := by
  intro a low high
  have before := inMemory a low high
  rw [userByte_grows grows counted root (by omega) (valid_of_userByte before), before]

/-- An address in a segment among the first `count`. -/
def InSegment (bin : Image) (addr count a : Nat) : Prop :=
  ∃ i < count, ∃ ph, Loadable bin (addr + 56 * i) ph ∧ ph.pVa ≤ a ∧ a < ph.pVa + ph.pMemsz

/-- No segment among the first `count` headers wraps around. -/
def Straight (bin : Image) (addr count : Nat) : Prop :=
  ∀ i < count, ∀ ph, Loadable bin (addr + 56 * i) ph → ph.pVa + ph.pMemsz < 2 ^ 64

variable {kmalloc : Nat → Bool} {addr count : Nat}

/-- What the loop has returned zero for is in memory, and no other byte has changed. -/
theorem loadSegments_loading (loading : Loading M roots r mm s role) (last : addr + 56 * count < 2 ^ 64)
    (straight : Straight bin addr count) {ret : Int} {mm' : MmStruct} {t : Machine σ}
    (run : loadSegments M bin fuel kmalloc (addr + 56 * count) (count + 1) addr mm s = .ok (ret, mm', t)) :
    ∃ role', Loading M roots r mm' t role' ∧ Grows M roots s role t role' ∧
      (ret < 0 ∨ ret = 0 ∧ Leaves r (InSegment bin addr count) s role t ∧
        ∀ i < count, ∀ ph, Loadable bin (addr + 56 * i) ph → InMemory bin r t ph) := by
  induction count generalizing addr mm s role with
  | zero =>
      rw [loadSegments, if_neg (by simp)] at run
      cases run
      exact ⟨role, loading, .refl loading.counted, .inr ⟨rfl, .refl, fun i none => absurd none (by omega)⟩⟩
  | succ count ih =>
      have next : wrap (addr + 56) = addr + 56 := wrap_small (by omega)
      have ends : addr + 56 * (count + 1) = addr + 56 + 56 * count := by omega
      have shift : ∀ i, addr + 56 * (i + 1) = addr + 56 + 56 * i := fun i => by omega
      have straight' : Straight bin (addr + 56) count := fun i inside ph loadable =>
        straight (i + 1) (by omega) ph (by rwa [shift])
      rw [loadSegments, if_pos (by omega), next, ends] at run
      obtain ⟨pType, read, rest⟩ := bind_ok.mp run
      by_cases load : pType = ELF_PT_LOAD
      · rw [if_neg (not_not.mpr load)] at rest
        obtain ⟨header, fields, rest⟩ := bind_ok.mp rest
        have loadable : Loadable bin (addr + 56 * 0) header := by
          have same := proghdr_pType fields
          rw [read] at same
          cases same
          exact ⟨fields, load⟩
        obtain ⟨⟨ret', mm₁, u⟩, segment, rest⟩ := bind_ok.mp rest
        dsimp only at rest
        rcases loadSegment_loading loading (straight 0 (by omega) header loadable) with
          ⟨_, _, _, role₁, run₁, loading₁, grows₁, result⟩ | ⟨e, stops, -⟩
        · rw [run₁] at segment
          cases segment
          rcases result with negative | ⟨rfl, inMemory, leaves, user, -⟩
          · rw [if_pos negative.ne] at rest
            cases rest
            exact ⟨role₁, loading₁, grows₁, .inl negative⟩
          · rw [if_neg (by simp)] at rest
            obtain ⟨role₂, loading₂, grows₂, result⟩ := ih loading₁ (by omega) straight' rest
            refine ⟨role₂, loading₂, grows₁.trans grows₂, result.imp_right fun ⟨zero, leaves', others⟩ =>
              ⟨zero, (leaves.trans grows₁ leaves').mono fun a part => ?_, fun i inside ph here => ?_⟩⟩
            · rcases part with first | ⟨i, inside, ph, here, range⟩
              · exact ⟨0, by omega, header, loadable, first⟩
              · exact ⟨i + 1, by omega, ph, by rwa [shift], range⟩
            cases i with
            | zero =>
                obtain rfl : ph = header := Except.ok.inj (here.1.symm.trans loadable.1)
                exact inMemory.grows loading₁.counted loading₁.root user grows₂
            | succ i => exact others i (by omega) ph (by rwa [← shift])
        · rw [stops] at segment
          cases segment
      · rw [if_pos load] at rest
        obtain ⟨role₂, loading₂, grows₂, result⟩ := ih loading (by omega) straight' rest
        refine ⟨role₂, loading₂, grows₂, result.imp_right fun ⟨zero, leaves, others⟩ =>
          ⟨zero, leaves.mono fun a part => ?_, fun i inside ph here => ?_⟩⟩
        · obtain ⟨i, inside, ph, here, range⟩ := part
          exact ⟨i + 1, by omega, ph, by rwa [shift], range⟩
        cases i with
        | zero =>
            have same := proghdr_pType here.1
            rw [Nat.mul_zero, Nat.add_zero, read] at same
            cases same
            exact absurd here.2 load
        | succ i => exact others i (by omega) ph (by rwa [← shift])

/-- Where the segments come in increasing order, page by page, and above the areas that are
    there, no assertion of the loop fails. -/
theorem loadSegments_passes (loading : Loading M roots r mm s role) (last : addr + 56 * count < 2 ^ 64)
    (straight : Straight bin addr count)
    (ascending : ∀ j < count, ∀ i < j, ∀ ph ph', Loadable bin (addr + 56 * i) ph → Loadable bin (addr + 56 * j) ph' →
      segmentEnd ph ≤ roundDown ph'.pVa PGSIZE)
    (above : ∀ i < count, ∀ ph, Loadable bin (addr + 56 * i) ph →
    ∀ b ∈ mm.mmapList, b.vmEnd ≤ roundDown ph.pVa PGSIZE) :
    loadSegments M bin fuel kmalloc (addr + 56 * count) (count + 1) addr mm s ≠ .error .assertion := by
  intro stops
  induction count generalizing addr mm s role with
  | zero =>
      rw [loadSegments, if_neg (by simp)] at stops
      cases stops
  | succ count ih =>
      have next : wrap (addr + 56) = addr + 56 := wrap_small (by omega)
      have ends : addr + 56 * (count + 1) = addr + 56 + 56 * count := by omega
      have shift : ∀ i, addr + 56 * (i + 1) = addr + 56 + 56 * i := fun i => by omega
      have straight' : Straight bin (addr + 56) count := fun i inside ph loadable =>
        straight (i + 1) (by omega) ph (by rwa [shift])
      have ascending' : ∀ j < count, ∀ i < j, ∀ ph ph', Loadable bin (addr + 56 + 56 * i) ph →
          Loadable bin (addr + 56 + 56 * j) ph' → segmentEnd ph ≤ roundDown ph'.pVa PGSIZE :=
        fun j inside i before ph ph' first second =>
          ascending (j + 1) (by omega) (i + 1) (by omega) ph ph' (by rwa [shift]) (by rwa [shift])
      have above' : ∀ i < count, ∀ ph, Loadable bin (addr + 56 + 56 * i) ph → ∀ b ∈ mm.mmapList,
          b.vmEnd ≤ roundDown ph.pVa PGSIZE := fun i inside ph here => above (i + 1) (by omega) ph (by rwa [shift])
      rw [loadSegments, if_pos (by omega), next, ends] at stops
      rcases bind_error.mp stops with unread | ⟨pType, read, stops⟩
      · cases field_stops unread
      by_cases load : pType = ELF_PT_LOAD
      · rw [if_neg (not_not.mpr load)] at stops
        rcases bind_error.mp stops with unread | ⟨header, fields, stops⟩
        · cases proghdr_stops unread
        have loadable : Loadable bin (addr + 56 * 0) header := by
          have same := proghdr_pType fields
          rw [read] at same
          cases same
          exact ⟨fields, load⟩
        have small := straight 0 (by omega) header loadable
        rcases bind_error.mp stops with segment | ⟨⟨ret, mm₁, u⟩, segment, stops⟩
        · rcases loadSegment_loading loading small with ⟨_, _, _, _, run, -⟩ | ⟨e, stops', blocked⟩
          · rw [run] at segment
            cases segment
          · rw [stops'] at segment
            cases segment
            obtain ⟨b, member, start, -⟩ := blocked rfl
            have := loading.sound.filled b member
            have := above 0 (by omega) header loadable b member
            omega
        · rcases loadSegment_loading loading small with ⟨_, _, _, role₁, run, loading₁, -, result⟩ | ⟨e, stops', -⟩
          · rw [run] at segment
            cases segment
            dsimp only at stops
            rcases result with negative | ⟨rfl, -, -, -, areas⟩
            · rw [if_pos negative.ne] at stops
              cases stops
            · rw [if_neg (by simp)] at stops
              refine ih loading₁ (by omega) straight' ascending' (fun i inside ph here b member => ?_) stops
              rcases areas b member with old | new
              · exact above' i inside ph here b old
              · rw [new]
                exact ascending (i + 1) (by omega) 0 (by omega) header ph loadable (by rwa [shift])
          · rw [stops'] at segment
            cases segment
      · rw [if_pos load] at stops
        exact ih loading (by omega) straight' ascending' above' stops

/-! ## Before and after the loop -/

theorem setupPgdir_some {bootPgdir pgdir : Nat} : setupPgdir M bootPgdir s = .ok (some pgdir, t) ↔
    ∃ pmm, M.allocPage s.pmm = (some pgdir, pmm) ∧ t = { s with pmm := pmm }.setPage pgdir (s.mem bootPgdir) := by
  constructor
  · intro run
    rw [setupPgdir, allocPage] at run
    split at run
    · rename_i p pmm given
      rw [ok_bind] at run
      cases run
      exact ⟨pmm, given, rfl⟩
    · split at run <;> cases run
  · rintro ⟨pmm, given, rfl⟩
    rw [setupPgdir, allocPage, given]
    rfl

/-- A new root with no page mapped. -/
theorem setupPgdir_loading {bootPgdir pgdir : Nat} (counted : Counted M roots 0 s role)
    (user : ∀ i < 2, target (s.load ⟨bootPgdir, i⟩) = none) (run : setupPgdir M bootPgdir s = .ok (some pgdir, t))
    (smPriv : Bool) : Loading M (insert pgdir roots) pgdir { mmCreate smPriv with pgdir := pgdir } t
      (Function.update role pgdir .root) := by
  obtain ⟨pmm, given, rfl⟩ := setupPgdir_some.mp run
  obtain ⟨leaf, -, counted'⟩ := counted.newRoot given user
  refine ⟨counted', Finset.mem_insert_self .., rfl, ?_, by simp [mmCreate], fun a userA valid => ?_⟩
  · exact ⟨by simp [mmCreate], .nil, by simp [mmCreate], rfl⟩
  · have empty : pteOf (({ s with pmm := pmm } : Machine σ).setPage pgdir (s.mem bootPgdir)) pgdir a = 0 :=
      (leaf pgdir (Finset.mem_insert_self ..) a userA).trans (if_pos rfl)
    have invalid := isValid_zero
    rw [← empty] at invalid
    exact absurd (valid.symm.trans invalid) (by decide)

theorem PTE_USER_lt : PTE_USER < 1024 := by decide

theorem stackPage_lt {number : Nat} (range : 1 ≤ number ∧ number ≤ 256) : USTACKTOP - number * PGSIZE < USERTOP := by
  simp only [USTACKTOP, USERTOP, PGSIZE]
  omega

theorem stackPage_page {number number' : Nat} (range : 1 ≤ number ∧ number ≤ 256) (range' : 1 ≤ number' ∧ number' ≤ 256)
    (same : (USTACKTOP - number * PGSIZE) / PGSIZE = (USTACKTOP - number' * PGSIZE) / PGSIZE) : number = number' := by
  simp only [USTACKTOP, USERTOP, PGSIZE] at same
  omega

/-- The stack pages are free pages as they are. -/
theorem stackPages_grows {numbers : List Nat} (counted : Counted M roots 0 s role) (root : r ∈ roots)
    (nodup : numbers.Nodup) (range : ∀ n ∈ numbers, 1 ≤ n ∧ n ≤ 256)
    (unmapped : ∀ n ∈ numbers, isValid (pteOf s r (USTACKTOP - n * PGSIZE)) = false)
    (run : stackPages M r numbers s = .ok t) :
    ∃ role', Grows M roots s role t role' ∧ Leaves r (fun _ => False) s role t ∧
      ∀ n ∈ numbers, ∃ p, pteOf t r (USTACKTOP - n * PGSIZE) = pteCreate p (PTE_V ||| PTE_USER) := by
  induction numbers generalizing s role with
  | nil =>
      cases run
      exact ⟨role, .refl counted, .refl, by simp⟩
  | cons number rest ih =>
      rw [List.forall_mem_cons] at range unmapped
      rw [List.nodup_cons] at nodup
      have user := stackPage_lt range.1
      rw [stackPages] at run
      obtain ⟨⟨page, u⟩, alloc, run⟩ := bind_ok.mp run
      obtain ⟨_, given, run⟩ := bind_ok.mp run
      rcases pgdirAllocPage_spec counted root user PTE_USER_lt unmapped.1 with
        ⟨stops, -⟩ | ⟨_, _, none, -⟩ | ⟨p, _, role₁, some, adds⟩
      · rw [stops] at alloc
        cases alloc
      · rw [none] at alloc
        cases alloc
        cases given
      · rw [some] at alloc
        cases alloc
        obtain ⟨role₂, grows, leaves, pages⟩ := ih adds.grows.counted nodup.2 range.2 (fun n member => by
          rw [adds.entry r root _ (stackPage_lt (range.2 n member)), if_neg]
          · exact unmapped.2 n member
          · rintro ⟨-, same⟩
            exact nodup.1 (stackPage_page (range.2 n member) range.1 same ▸ member)) run
        have added : Leaves r (fun _ => False) s role _ := .of_adds counted root PTE_USER_lt adds
        refine ⟨role₂, adds.grows.trans grows, (added.trans adds.grows leaves).mono fun a part => part.elim id id,
          List.forall_mem_cons.mpr ⟨⟨p, ?_⟩, pages⟩⟩
        rw [grows.leaf r root _ user (target_some.mp (adds.maps PTE_USER_lt root user)).1, adds.entry r root _ user,
          if_pos ⟨rfl, rfl⟩]

/-- Behind the area of the stack its pages are new. -/
theorem stack_loading {vma : Option VmaStruct} {flags : Nat} (loading : Loading M roots r mm s role)
    (maps : mmMap mm (USTACKTOP - USTACKSIZE) USTACKSIZE flags memory = .ok (0, vma, mm')) :
    Loading M roots r mm' s role ∧ ∀ n ∈ [1, 2, 3, 4], isValid (pteOf s r (USTACKTOP - n * PGSIZE)) = false := by
  have small : USTACKTOP - USTACKSIZE + USTACKSIZE < 2 ^ 64 := by decide +kernel
  rcases mmMap_cases loading.sound small flags memory with
    ⟨stops, -⟩ | ⟨ret, _, run, negative, -⟩ | ⟨_, run, fits, sound', perm, pgdir⟩
  · rw [stops] at maps
    cases maps
  · rw [run] at maps
    cases maps
    cases negative
  · rw [run] at maps
    cases maps
    refine ⟨loading.extend (.refl loading.counted) sound' perm pgdir (areaOk_of_fits fits) fun a _ valid => .inl valid,
      fun n member => loading.unmapped fits _ ?_ ?_⟩
    · have range : n ≤ 4 := by
        revert n
        decide
      simp only [roundDown, USTACKTOP, USTACKSIZE, USERTOP, PGSIZE]
      omega
    · have range : 1 ≤ n := by
        revert n
        decide
      simp only [roundUp, roundDown, USTACKTOP, USTACKSIZE, USERTOP, PGSIZE]
      omega

/-- The steps of a call that returns zero. -/
structure Steps (M : PmmManager σ) (bootPgdir : Nat) (bin : Image) (fuel : Nat) (kmalloc : Nat → Bool)
    (current : ProcStruct)
    (s : Machine σ) (pgdir : Nat) (first : Machine σ) (off num : Nat) (mm₁ : MmStruct) (s₁ : Machine σ) (mm₂ : MmStruct)
    (current' : ProcStruct) (t : Machine σ) : Prop where
  idle : current.mm = none
  memory : kmalloc 0 = true
  setup : setupPgdir M bootPgdir s = .ok (some pgdir, first)
  phoff : bin.field (wrap (bin.binary + 32)) 8 = .ok off
  magic : bin.field bin.binary 4 = .ok ELF_MAGIC
  phnum : bin.field (wrap (bin.binary + 56)) 2 = .ok num
  segments : loadSegments M bin fuel kmalloc (wrap (wrap (bin.binary + off) + 56 * num)) (num + 1)
    (wrap (bin.binary + off)) { mmCreate s.swapInitOk with pgdir := pgdir } first = .ok (0, mm₁, s₁)
  maps : ∃ vma, mmMap mm₁ (USTACKTOP - USTACKSIZE) USTACKSIZE (VM_READ ||| VM_WRITE ||| VM_STACK)
    (kmalloc (mm₁.mapCount + 1)) = .ok (0, vma, mm₂)
  stack : stackPages M mm₂.pgdir [1, 2, 3, 4] s₁ = .ok t
  result : ∃ entry, bin.field (wrap (bin.binary + 24)) 8 = .ok entry ∧ current' =
    ⟨some mm₂, mm₂.pgdir * PGSIZE, ⟨Function.update (fun _ => 0) sp USTACKTOP,
      current.tf.status &&& (2 ^ 64 - 1 - (SSTATUS_SPP ||| SSTATUS_SPIE)), entry, 0, 0⟩⟩

theorem loadIcode_zero {bootPgdir : Nat} {current current' : ProcStruct} :
    loadIcode M bootPgdir bin fuel kmalloc current s = .ok (0, current', t) ↔
      ∃ pgdir first off num mm₁ s₁ mm₂, Steps M bootPgdir bin fuel kmalloc current s pgdir first off num mm₁ s₁ mm₂
        current' t := by
  constructor
  · intro run
    have fails : ∀ {ret : Int} {next : ProcStruct} {u : Machine σ}, ret ≠ 0 →
        (pure (ret, next, u) : Result _) ≠ .ok (0, current', t) := by
      intro ret next u nonzero same
      cases same
      exact nonzero rfl
    rw [loadIcode] at run
    split at run
    · cases run
    rename_i idle
    split at run
    · exact absurd run (fails (by decide))
    rename_i memory
    dsimp only at run
    obtain ⟨⟨root, first⟩, setup, run⟩ := bind_ok.mp run
    cases root with
    | none => exact absurd run (fails (by decide))
    | some pgdir =>
        obtain ⟨off, phoff, run⟩ := bind_ok.mp run
        obtain ⟨magic, isMagic, run⟩ := bind_ok.mp run
        split at run
        · exact absurd run (fails (by decide))
        rename_i good
        obtain rfl := not_not.mp good
        obtain ⟨num, phnum, run⟩ := bind_ok.mp run
        obtain ⟨⟨ret, mm₁, s₁⟩, segments, run⟩ := bind_ok.mp run
        dsimp only at run
        split at run
        · rename_i nonzero
          obtain ⟨u, -, run⟩ := bind_ok.mp run
          exact absurd run (fails nonzero)
        rename_i zero
        obtain rfl := not_not.mp zero
        obtain ⟨⟨ret, vma, mm₂⟩, maps, run⟩ := bind_ok.mp run
        dsimp only at run
        split at run
        · rename_i nonzero
          obtain ⟨u, -, run⟩ := bind_ok.mp run
          exact absurd run (fails nonzero)
        rename_i zero
        obtain rfl := not_not.mp zero
        obtain ⟨u, stack, run⟩ := bind_ok.mp run
        obtain ⟨entry, isEntry, run⟩ := bind_ok.mp run
        cases run
        exact ⟨pgdir, first, off, num, mm₁, s₁, mm₂, by simpa using idle, by simpa using memory, setup, phoff, isMagic,
          phnum, segments, ⟨vma, maps⟩, stack, entry, isEntry, rfl⟩
  · rintro ⟨pgdir, first, off, num, mm₁, s₁, mm₂, steps⟩
    obtain ⟨vma, maps⟩ := steps.maps
    obtain ⟨entry, isEntry, rfl⟩ := steps.result
    rw [loadIcode, steps.idle, if_neg (by simp), if_neg (by simp [steps.memory])]
    dsimp only
    rw [steps.setup, ok_bind]
    dsimp only
    rw [steps.phoff, ok_bind, steps.magic, ok_bind, if_neg (by simp), steps.phnum, ok_bind, steps.segments, ok_bind]
    dsimp only
    rw [if_neg (by simp), maps, ok_bind]
    dsimp only
    rw [if_neg (by simp), steps.stack, ok_bind, isEntry, ok_bind]
    rfl

/-! ## Well-formed images -/

/-- The header is in the image and the program headers are, at `off` and `num` many, and the
    segments are as they should be. -/
structure WellFormed (bin : Image) (off num : Nat) : Prop where
  phoff : bin.field (wrap (bin.binary + 32)) 8 = .ok off
  phnum : bin.field (wrap (bin.binary + 56)) 2 = .ok num
  headers : off + 56 * num ≤ bin.bytes.length
  filesz : ∀ i < num, ∀ ph, Loadable bin (bin.binary + off + 56 * i) ph → ph.pFilesz ≤ ph.pMemsz
  inside : ∀ i < num, ∀ ph, Loadable bin (bin.binary + off + 56 * i) ph → ph.pOffset + ph.pFilesz ≤ bin.bytes.length
  user : ∀ i < num, ∀ ph, Loadable bin (bin.binary + off + 56 * i) ph →
    USERBASE ≤ ph.pVa ∧ ph.pVa + ph.pMemsz ≤ USERTOP
  ascending : ∀ j < num, ∀ i < j, ∀ ph ph', Loadable bin (bin.binary + off + 56 * i) ph →
    Loadable bin (bin.binary + off + 56 * j) ph' → segmentEnd ph ≤ roundDown ph'.pVa PGSIZE

variable {off num bootPgdir : Nat}

theorem WellFormed.straight (formed : WellFormed bin off num) : Straight bin (bin.binary + off) num := by
  intro i inside ph loadable
  have := (formed.user i inside ph loadable).2
  have := USERTOP_lt
  omega

/-- In a well-formed image a byte of a segment is the byte of the file, or zero. -/
theorem WellFormed.byte (formed : WellFormed bin off num) {i k : Nat} (inside : i < num)
    (loadable : Loadable bin (bin.binary + off + 56 * i) ph) :
    some (segmentByte bin ph (ph.pVa + k)) = if k < ph.pFilesz then bin.bytes[ph.pOffset + k]? else some 0 := by
  unfold segmentByte
  by_cases file : k < ph.pFilesz
  · have within := formed.inside i inside ph loadable
    have fits := bin.inside
    have addr : wrap (wrap (bin.binary + ph.pOffset) + (ph.pVa + k - ph.pVa)) = bin.binary + (ph.pOffset + k) := by
      simp only [wrap]
      omega
    rw [if_pos (by omega), if_pos file, addr, byteAt, Nat.add_sub_cancel_left, List.getElem?_eq_getElem (by omega),
      List.getD_eq_getElem _ _ (by omega)]
  · rw [if_neg (by omega), if_neg file]

/-- When `load_icode` returns zero for a well-formed image, the segments are in memory as the
    file has them, padded with zeros, and whatever becomes of a call, no assertion of the loop
    over the program headers fails. -/
theorem loadIcode_image (counted : Counted M roots 0 s role) (boot : ∀ i < 2, target (s.load ⟨bootPgdir, i⟩) = none)
    (formed : WellFormed bin off num) (current : ProcStruct) :
    (∀ current' t, loadIcode M bootPgdir bin fuel kmalloc current s = .ok (0, current', t) →
      ∃ mm, current'.mm = some mm ∧ ∀ i < num, ∀ ph, Loadable bin (bin.binary + off + 56 * i) ph → ∀ k < ph.pMemsz,
        userByte t mm.pgdir (ph.pVa + k) = if k < ph.pFilesz then bin.bytes[ph.pOffset + k]? else some 0) ∧
    ∀ pgdir first, setupPgdir M bootPgdir s = .ok (some pgdir, first) →
      loadSegments M bin fuel kmalloc (bin.binary + off + 56 * num) (num + 1) (bin.binary + off)
        { mmCreate s.swapInitOk with pgdir := pgdir } first ≠ .error .assertion := by
  have headers := formed.headers
  have fits := bin.inside
  have straight := formed.straight
  have first : wrap (bin.binary + off) = bin.binary + off := wrap_small (by omega)
  have last : wrap (bin.binary + off + 56 * num) = bin.binary + off + 56 * num := wrap_small (by omega)
  refine ⟨fun current' t run => ?_, fun pgdir first setup => ?_⟩
  · obtain ⟨pgdir, first', off', num', mm₁, s₁, mm₂, steps⟩ := loadIcode_zero.mp run
    obtain rfl : off = off' := Except.ok.inj (formed.phoff.symm.trans steps.phoff)
    obtain rfl : num = num' := Except.ok.inj (formed.phnum.symm.trans steps.phnum)
    have loading := setupPgdir_loading counted boot steps.setup s.swapInitOk
    have segments := steps.segments
    rw [first, last] at segments
    obtain ⟨role₁, loading₁, grows₁, negative | ⟨-, -, inMemory⟩⟩ :=
      loadSegments_loading loading (by omega) straight segments
    · cases negative
    obtain ⟨vma, maps⟩ := steps.maps
    obtain ⟨loading₂, unmapped⟩ := stack_loading loading₁ maps
    have stack := steps.stack
    rw [loading₂.pgdir] at stack
    obtain ⟨entry, -, result⟩ := steps.result
    obtain ⟨role₂, grows₂, -⟩ := stackPages_grows loading₁.counted loading₁.root (by decide) (by decide) unmapped stack
    refine ⟨mm₂, by rw [result], fun i inside ph loadable k within => ?_⟩
    have user := (formed.user i inside ph loadable).2
    have here := (inMemory i inside ph loadable).grows loading₁.counted loading₁.root user grows₂
    rw [loading₂.pgdir, here _ (Nat.le_add_right ..) (by omega), formed.byte inside loadable]
  · have loading := setupPgdir_loading counted boot setup s.swapInitOk
    exact loadSegments_passes loading (by omega) straight formed.ascending (by simp [mmCreate])

/-! ## An image with one segment -/

section OneSegment

open Mm.RefCounts

/-- Five bytes of the file from three bytes before the end of a page on, and four more of BSS. -/
def smallSegment : Proghdr := ⟨ELF_PT_LOAD, ELF_PF_R, 120, 0x800ffd, 5, 9⟩

def smallImage : Image where
  binary := 0xffffffffc0300000
  bytes := toLe 4 ELF_MAGIC ++ List.replicate 20 0 ++ toLe 8 0x800ffd ++ toLe 8 64 ++ List.replicate 16 0 ++ toLe 2 1 ++
    List.replicate 6 0 ++ toLe 4 ELF_PT_LOAD ++ toLe 4 ELF_PF_R ++ toLe 8 120 ++ toLe 8 0x800ffd ++ toLe 8 0 ++
      toLe 8 5 ++
    toLe 8 9 ++ toLe 8 0 ++ [11, 22, 33, 44, 55]
  inside := by decide +kernel

theorem smallImage_fields : smallImage.field (wrap (smallImage.binary + 32)) 8 = .ok 64 ∧
    smallImage.field (wrap (smallImage.binary + 56)) 2 = .ok 1 ∧ smallImage.bytes.length = 125 ∧
    smallImage.proghdr (smallImage.binary + 64) = .ok smallSegment := by
  decide +kernel

theorem smallImage_formed : WellFormed smallImage 64 1 := by
  obtain ⟨phoff, phnum, length, header⟩ := smallImage_fields
  have only : ∀ i < 1, ∀ ph, Loadable smallImage (smallImage.binary + 64 + 56 * i) ph → ph = smallSegment := by
    intro i inside ph loadable
    obtain rfl : i = 0 := by omega
    exact Except.ok.inj (loadable.1.symm.trans header)
  refine ⟨phoff, phnum, by omega, ?_, ?_, ?_, fun j inside i before => by omega⟩
  · intro i inside ph loadable
    rw [only i inside ph loadable]
    decide
  · intro i inside ph loadable
    rw [only i inside ph loadable, length]
    decide
  · intro i inside ph loadable
    rw [only i inside ph loadable]
    decide +kernel

def idle : ProcStruct := ⟨none, 0, ⟨fun _ => 0, 0, 0, 0, 0⟩⟩

theorem smallImage_loads : ∃ next t,
    loadIcode lowestFirst 0 smallImage 10 (fun _ => true) idle (booted 50 (by decide)).machine = .ok (0, next, t) := by
  have loads : (loadIcode lowestFirst 0 smallImage 10 (fun _ => true) idle (booted 50 (by decide)).machine).toOption.map
      Prod.fst = some 0 := by
    decide +kernel
  obtain ⟨⟨ret, next, t⟩, run, zero⟩ := Option.map_eq_some_iff.mp loads
  cases zero
  exact ⟨next, t, toOption_some.mp run⟩

theorem loadIcode_image_small : ∃ (current : ProcStruct) (t : Machine PageList) (mm : MmStruct),
    loadIcode lowestFirst 0 smallImage 10 (fun _ => true) idle (booted 50 (by decide)).machine = .ok (0, current, t) ∧
      current.mm = some mm ∧ userByte t mm.pgdir 0x801001 = some 55 ∧ userByte t mm.pgdir 0x801002 = some 0 := by
  obtain ⟨current, t, run⟩ := smallImage_loads
  obtain ⟨role, inv⟩ : ∃ role, Inv lowestFirst 0 (booted 50 (by decide)) role :=
    Inv.start (booted_initial 50 (by decide))
  obtain ⟨mm, result, bytes⟩ := (loadIcode_image inv.counted inv.user smallImage_formed idle).1 current t run
  have header : Loadable smallImage (smallImage.binary + 64 + 56 * 0) smallSegment := ⟨smallImage_fields.2.2.2, rfl⟩
  refine ⟨current, t, mm, run, result, ?_, ?_⟩
  · exact bytes 0 (by decide) smallSegment header 4 (by decide)
  · exact bytes 0 (by decide) smallSegment header 5 (by decide)

end OneSegment

end Ucore.Process.LoadImage
