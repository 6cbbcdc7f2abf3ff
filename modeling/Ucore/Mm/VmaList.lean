import Ucore.Mm.PageFault

/-! # The areas of an address space

`mm_map` and `user_mem_check` of `vmm.c`, and what they and the functions below them do on any
areas that do not overlap. Addresses are 64 bits wide, so the end of a range may wrap around.
-/

namespace Ucore.Mm.VmaList

open Libs.Assert Mmu Pmm Vmm PageFault

def KERNBASE : Nat := 0xFFFFFFFFC0200000
def KERNTOP : Nat := KERNBASE + 0x7E00000

def kernAccess (start stop : Nat) : Bool := KERNBASE ≤ start && start < stop && stop ≤ KERNTOP

/-- A sum of `uintptr_t` values. -/
def wrap (n : Nat) : Nat := n % 2 ^ 64

/-- `ROUNDUP` on a `uintptr_t`. -/
def wrapUp (a : Nat) : Nat := roundDown (wrap (a + PGSIZE - 1)) PGSIZE

/-- `memory` tells whether `kmalloc` has memory for a `vma_struct`. The area made is what
    `*vma_store` becomes. -/
def mmMap (mm : MmStruct) (addr len vmFlags : Nat) (memory : Bool) :
    Result (Int × Option VmaStruct × MmStruct) := do
  let start := roundDown addr PGSIZE
  let stop := wrapUp (wrap (addr + len))
  if userAccess start stop = false then pure (-E_INVAL, none, mm)
  else
    match findVma mm start with
    | (some vma, mm) =>
        if vma.vmStart < stop then pure (-E_INVAL, none, mm)
        else if memory then do
          let vma : VmaStruct := ⟨start, stop, vmFlags⟩
          let mm ← insertVmaStruct mm vma
          pure (0, some vma, mm)
        else pure (-E_NO_MEM, none, mm)
    | (none, mm) =>
        if memory then do
          let vma : VmaStruct := ⟨start, stop, vmFlags⟩
          let mm ← insertVmaStruct mm vma
          pure (0, some vma, mm)
        else pure (-E_NO_MEM, none, mm)

/-- The loop of `user_mem_check`, with fuel. -/
def memCheckLoop (write : Bool) (stop : Nat) : Nat → Nat → MmStruct → Result (Bool × MmStruct)
  | 0, _, _ => .error .fuel
  | fuel + 1, start, mm =>
      if start < stop then
        match findVma mm start with
        | (none, mm) => pure (false, mm)
        | (some vma, mm) =>
            if start < vma.vmStart then pure (false, mm)
            else if vma.vmFlags &&& (if write then VM_WRITE else VM_READ) = 0 then pure (false, mm)
            else if write ∧ vma.vmFlags &&& VM_STACK ≠ 0 ∧ start < wrap (vma.vmStart + PGSIZE) then pure (false, mm)
            else memCheckLoop write stop fuel vma.vmEnd mm
      else pure (true, mm)

def userMemCheck (fuel : Nat) (mm : Option MmStruct) (addr len : Nat) (write : Bool) :
    Result (Bool × Option MmStruct) :=
  match mm with
  | some mm =>
      if userAccess addr (wrap (addr + len)) = false then pure (false, some mm)
      else do
        let (ok, mm) ← memCheckLoop write (wrap (addr + len)) fuel addr mm
        pure (ok, some mm)
  | none => pure (kernAccess addr (wrap (addr + len)), none)

/-! ## Areas that do not overlap -/

/-- One of the two ends before the other begins. -/
def Apart (a b : VmaStruct) : Prop := a.vmEnd ≤ b.vmStart ∨ b.vmEnd ≤ a.vmStart

instance (a b : VmaStruct) : Decidable (Apart a b) :=
  inferInstanceAs (Decidable (a.vmEnd ≤ b.vmStart ∨ b.vmEnd ≤ a.vmStart))

/-- Areas in order that do not overlap, counted, one of them in the cache at most. -/
structure Sound (mm : MmStruct) : Prop where
  filled : ∀ vma ∈ mm.mmapList, vma.vmStart < vma.vmEnd
  ordered : mm.mmapList.Pairwise fun a b => a.vmEnd ≤ b.vmStart
  cached : ∀ vma, mm.mmapCache = some vma → vma ∈ mm.mmapList
  counted : mm.mapCount = mm.mmapList.length

variable {mm mm' : MmStruct} {vma a b : VmaStruct} {addr len start stop : Nat} {write : Bool}

theorem mmCreate_sound (swapInitOk : Bool) : Sound (mmCreate swapInitOk) where
  filled := by simp [mmCreate]
  ordered := .nil
  cached := by simp [mmCreate]
  counted := rfl

namespace Sound

variable (sound : Sound mm)

include sound

theorem apart (ha : a ∈ mm.mmapList) (hb : b ∈ mm.mmapList) (different : a ≠ b) : Apart a b := by
  have pairs : mm.mmapList.Pairwise Apart := sound.ordered.imp Or.inl
  have : Std.Symm Apart := ⟨fun _ _ h => Or.symm h⟩
  exact pairs.forall ha hb different

theorem unique (ha : a ∈ mm.mmapList) (hb : b ∈ mm.mmapList) (here : a.covers addr = true)
    (here' : b.covers addr = true) : a = b := by
  by_contra different
  simp only [VmaStruct.covers, Bool.and_eq_true, decide_eq_true_eq] at here here'
  rcases sound.apart ha hb different with before | behind
  · omega
  · omega

/-! ## `find_vma` -/

theorem vmaAt_some : mm.vmaAt addr = some vma ↔ vma ∈ mm.mmapList ∧ vma.covers addr = true := by
  constructor
  · intro found
    have covers := vmaAt_covers found
    exact ⟨vmaAt_mem sound.cached found, by simpa [VmaStruct.covers] using covers⟩
  · rintro ⟨member, here⟩
    have walked : mm.mmapList.find? (·.covers addr) = some vma := by
      cases found : mm.mmapList.find? (·.covers addr) with
      | none => exact absurd here (List.find?_eq_none.mp found vma member)
      | some other =>
          have hit := List.find?_some found
          rw [sound.unique (List.mem_of_find?_eq_some found) member hit here]
    cases cache : mm.mmapCache with
    | none => simpa [MmStruct.vmaAt, cache] using walked
    | some other =>
        by_cases hit : other.covers addr = true
        · have same := sound.unique (sound.cached other cache) member hit here
          simp [MmStruct.vmaAt, cache, same, here]
        · simpa [MmStruct.vmaAt, cache, hit] using walked

theorem vmaAt_none : mm.vmaAt addr = none ↔ ∀ vma ∈ mm.mmapList, vma.covers addr = false := by
  rw [Option.eq_none_iff_forall_ne_some]
  constructor
  · intro missing vma member
    by_contra here
    exact missing vma (sound.vmaAt_some.mpr ⟨member, by simpa using here⟩)
  · intro missing vma found
    obtain ⟨member, here⟩ := sound.vmaAt_some.mp found
    rw [missing vma member] at here
    cases here

theorem findVma (addr : Nat) : Sound (findVma mm addr).2 := by
  unfold Vmm.findVma
  cases found : mm.vmaAt addr with
  | none => exact sound
  | some vma =>
      refine ⟨sound.filled, sound.ordered, fun other cache => ?_, sound.counted⟩
      obtain rfl : vma = other := Option.some_inj.mp cache
      exact (sound.vmaAt_some.mp found).1

end Sound

theorem findVma_fst (mm : MmStruct) (addr : Nat) : (findVma mm addr).1 = mm.vmaAt addr := by
  unfold findVma
  cases mm.vmaAt addr <;> rfl

theorem findVma_list (mm : MmStruct) (addr : Nat) : (findVma mm addr).2.mmapList = mm.mmapList := by
  unfold findVma
  cases mm.vmaAt addr <;> rfl

theorem findVma_pgdir (mm : MmStruct) (addr : Nat) : (findVma mm addr).2.pgdir = mm.pgdir := by
  unfold findVma
  cases mm.vmaAt addr <;> rfl

/-! ## `insert_vma_struct` -/

theorem insertVmaStruct_pgdir (run : insertVmaStruct mm vma = .ok mm') : mm'.pgdir = mm.pgdir := by
  unfold insertVmaStruct at run
  obtain ⟨_, -, rest⟩ := bind_ok.mp run
  dsimp only at rest
  split at rest
  · obtain ⟨_, -, rest⟩ := bind_ok.mp rest
    split at rest
    · obtain ⟨_, -, rest⟩ := bind_ok.mp rest
      cases rest
      rfl
    · cases rest
      rfl
  · split at rest
    · obtain ⟨_, -, rest⟩ := bind_ok.mp rest
      cases rest
      rfl
    · cases rest
      rfl

theorem checkVmaOverlap_eq (prev next : VmaStruct) : checkVmaOverlap prev next =
    assert (prev.vmStart < prev.vmEnd ∧ prev.vmEnd ≤ next.vmStart ∧ next.vmStart < next.vmEnd) := by
  by_cases first : prev.vmStart < prev.vmEnd <;> by_cases apart : prev.vmEnd ≤ next.vmStart <;>
    simp [checkVmaOverlap, assert, first, apart, bind, Except.bind]

theorem checkVmaOverlap_stops (prev next : VmaStruct) :
    checkVmaOverlap prev next = .ok () ∨ checkVmaOverlap prev next = .error .assertion := by
  rw [checkVmaOverlap_eq, assert]
  split
  · exact .inl rfl
  · exact .inr rfl

namespace Sound

variable (sound : Sound mm)

include sound

/-- The areas that do not start above an address come first. -/
theorem start_lt_iff (start : Nat) :
    (∀ a ∈ mm.mmapList.takeWhile (fun prev => prev.vmStart ≤ start), a.vmStart ≤ start) ∧
      ∀ b ∈ mm.mmapList.dropWhile (fun prev => prev.vmStart ≤ start), start < b.vmStart := by
  refine ⟨fun a member => by simpa using List.mem_takeWhile_imp member, ?_⟩
  have split := List.takeWhile_append_dropWhile (p := fun prev : VmaStruct => decide (prev.vmStart ≤ start))
    (l := mm.mmapList)
  have ordered := sound.ordered
  have filled := sound.filled
  rw [← split] at ordered filled
  have behind := (List.pairwise_append.mp ordered).2.1
  cases rest : mm.mmapList.dropWhile fun prev => prev.vmStart ≤ start with
  | nil => simp
  | cons first rest' =>
      rw [rest] at behind filled
      have stops : ¬ first.vmStart ≤ start := by
        have head := List.head_dropWhile_not (fun prev : VmaStruct => decide (prev.vmStart ≤ start))
          (l := mm.mmapList) (by rw [rest]; simp)
        simpa [rest] using head
      intro b member
      rcases List.mem_cons.mp member with rfl | member
      · omega
      · have := (List.pairwise_cons.mp behind).1 b member
        have := filled first (by simp)
        omega

/-- An area that overlaps no other one is put in its place. -/
theorem insert (positive : vma.vmStart < vma.vmEnd) (apart : ∀ b ∈ mm.mmapList, Apart b vma) :
    ∃ mm', insertVmaStruct mm vma = .ok mm' ∧ Sound mm' ∧ mm'.mmapList.Perm (vma :: mm.mmapList) := by
  obtain ⟨low, high⟩ := sound.start_lt_iff vma.vmStart
  have split := List.takeWhile_append_dropWhile (p := fun prev : VmaStruct => decide (prev.vmStart ≤ vma.vmStart))
    (l := mm.mmapList)
  unfold insertVmaStruct
  dsimp only
  generalize mm.mmapList.takeWhile (fun prev => prev.vmStart ≤ vma.vmStart) = before at *
  generalize mm.mmapList.dropWhile (fun prev => prev.vmStart ≤ vma.vmStart) = behind at *
  have filled := sound.filled
  have ordered := sound.ordered
  rw [← split] at filled ordered apart
  have ends : ∀ a ∈ before, a.vmEnd ≤ vma.vmStart := by
    intro a member
    have := low a member
    have := filled a (List.mem_append_left _ member)
    rcases apart a (List.mem_append_left _ member) with before | behind <;> omega
  have begins : ∀ b ∈ behind, vma.vmEnd ≤ b.vmStart := by
    intro b member
    have := high b member
    have := filled b (List.mem_append_right _ member)
    rcases apart b (List.mem_append_right _ member) with before | behind <;> omega
  have perm : (before ++ vma :: behind).Perm (vma :: mm.mmapList) := by
    rw [← split]
    exact List.perm_middle
  refine ⟨{ mm with mmapList := before ++ vma :: behind, mapCount := mm.mapCount + 1 }, ?_,
    ⟨fun a member => ?_, ?_, fun a cache => ?_, ?_⟩, perm⟩
  · have first : ∀ prev, before.getLast? = some prev → checkVmaOverlap prev vma = .ok () := by
      intro prev last
      have member := List.mem_of_getLast? last
      rw [checkVmaOverlap_eq]
      exact assert_pos ⟨filled prev (List.mem_append_left _ member), ends prev member, positive⟩
    have second : ∀ next, behind.head? = some next → checkVmaOverlap vma next = .ok () := by
      intro next head
      have member := List.mem_of_head? head
      rw [checkVmaOverlap_eq]
      exact assert_pos ⟨positive, begins next member, filled next (List.mem_append_right _ member)⟩
    cases last : before.getLast? with
    | none =>
        cases head : behind.head? with
        | none => simp [assert, positive, bind, Except.bind, pure, Except.pure]
        | some next => simp [assert, positive, second next head, bind, Except.bind, pure, Except.pure]
    | some prev =>
        cases head : behind.head? with
        | none => simp [assert, positive, first prev last, bind, Except.bind, pure, Except.pure]
        | some next =>
            simp [assert, positive, first prev last, second next head, bind, Except.bind, pure, Except.pure]
  · rcases List.mem_cons.mp (perm.mem_iff.mp member) with rfl | member
    · exact positive
    · exact sound.filled a member
  · obtain ⟨left, right, across⟩ := List.pairwise_append.mp ordered
    refine List.pairwise_append.mpr ⟨left, List.pairwise_cons.mpr ⟨begins, right⟩, fun a ha b hb => ?_⟩
    rcases List.mem_cons.mp hb with rfl | hb
    · exact ends a ha
    · exact across a ha b hb
  · exact perm.mem_iff.mpr (List.mem_cons_of_mem _ (sound.cached a cache))
  · rw [perm.length_eq, List.length_cons, sound.counted]

/-- An area that begins inside the new one makes an assertion fail. -/
theorem insert_overlaps (member : b ∈ mm.mmapList) (above : vma.vmStart < b.vmStart) (below : b.vmStart < vma.vmEnd) :
    insertVmaStruct mm vma = .error .assertion := by
  obtain ⟨low, high⟩ := sound.start_lt_iff vma.vmStart
  have split := List.takeWhile_append_dropWhile (p := fun prev : VmaStruct => decide (prev.vmStart ≤ vma.vmStart))
    (l := mm.mmapList)
  unfold insertVmaStruct
  dsimp only
  generalize mm.mmapList.takeWhile (fun prev => prev.vmStart ≤ vma.vmStart) = before at *
  generalize mm.mmapList.dropWhile (fun prev => prev.vmStart ≤ vma.vmStart) = behind at *
  have ordered := sound.ordered
  have filled := sound.filled
  rw [← split] at member ordered filled
  have inside : b ∈ behind := by
    rcases List.mem_append.mp member with first | inside
    · have := low b first
      omega
    · exact inside
  cases behind with
  | nil => simp at inside
  | cons next rest =>
      have first : next.vmStart ≤ b.vmStart := by
        rcases List.mem_cons.mp inside with rfl | later
        · exact le_rfl
        · have := (List.pairwise_cons.mp (List.pairwise_append.mp ordered).2.1).1 b later
          have := filled next (by simp)
          omega
      have overlap : checkVmaOverlap vma next = .error .assertion := by
        rw [checkVmaOverlap_eq, assert, if_neg]
        omega
      have positive : vma.vmStart < vma.vmEnd := above.trans below
      cases last : before.getLast? with
      | none => simp [assert, positive, overlap, bind, Except.bind]
      | some prev =>
          rcases checkVmaOverlap_stops prev vma with passes | stops
          · simp [assert, positive, passes, overlap, bind, Except.bind]
          · simp [assert, positive, stops, bind, Except.bind]

end Sound

/-! ## Any calls -/

inductive Call where
  | insertVma (vma : VmaStruct)
  | findVma (addr : Nat)
  deriving DecidableEq, Repr

def Call.run (mm : MmStruct) : Call → Result MmStruct
  | .insertVma vma => insertVmaStruct mm vma
  | .findVma addr => pure (Vmm.findVma mm addr).2

def inserted (calls : List Call) : List VmaStruct :=
  calls.filterMap fun
    | .insertVma vma => some vma
    | .findVma _ => none

theorem inserted_insertVma (vma : VmaStruct) (calls : List Call) :
    inserted (.insertVma vma :: calls) = vma :: inserted calls := rfl

theorem inserted_findVma (addr : Nat) (calls : List Call) : inserted (.findVma addr :: calls) = inserted calls := rfl

theorem Sound.runs (sound : Sound mm) {calls : List Call} (filled : ∀ vma ∈ inserted calls, vma.vmStart < vma.vmEnd)
    (apart : (inserted calls).Pairwise Apart) (away : ∀ vma ∈ inserted calls, ∀ b ∈ mm.mmapList, Apart b vma) :
    ∃ mm', calls.foldlM Call.run mm = .ok mm' ∧ Sound mm' ∧ mm'.mmapList.Perm (inserted calls ++ mm.mmapList) := by
  induction calls generalizing mm with
  | nil => exact ⟨mm, rfl, sound, .refl _⟩
  | cons call calls ih =>
      cases call with
      | findVma addr =>
          rw [inserted_findVma] at filled apart away ⊢
          obtain ⟨mm', run, sound', perm⟩ := ih (sound.findVma addr) filled apart
            (by rw [findVma_list]; exact away)
          rw [findVma_list] at perm
          exact ⟨mm', run, sound', perm⟩
      | insertVma vma =>
          rw [inserted_insertVma] at filled apart away ⊢
          rw [List.forall_mem_cons] at filled away
          rw [List.pairwise_cons] at apart
          obtain ⟨next, insert, soundNext, permNext⟩ := sound.insert filled.1 away.1
          obtain ⟨mm', run, sound', perm⟩ := ih soundNext filled.2 apart.2 (by
            intro later member b old
            rcases List.mem_cons.mp (permNext.mem_iff.mp old) with rfl | old
            · exact apart.1 later member
            · exact away.2 later member b old)
          refine ⟨mm', bind_ok.mpr ⟨next, insert, run⟩, sound', perm.trans ?_⟩
          exact (permNext.append_left _).trans List.perm_middle

/-- Areas that do not overlap are inserted in any order, with lookups in between. No assertion
    fails, the list stays in order and counted, and a lookup that comes next finds the area that
    covers the address, if there is one. -/
theorem runs_lookup (swapInitOk : Bool) (calls : List Call) (filled : ∀ vma ∈ inserted calls, vma.vmStart < vma.vmEnd)
    (apart : (inserted calls).Pairwise Apart) :
    ∃ mm, calls.foldlM Call.run (mmCreate swapInitOk) = .ok mm ∧ mm.mmapList.Perm (inserted calls) ∧
      mm.mmapList.Pairwise (fun a b => a.vmStart < b.vmStart ∧ a.vmEnd ≤ b.vmStart) ∧
      mm.mapCount = mm.mmapList.length ∧
      ∀ addr, (∀ vma, (findVma mm addr).1 = some vma ↔
          vma ∈ inserted calls ∧ vma.vmStart ≤ addr ∧ addr < vma.vmEnd) ∧
        ((findVma mm addr).1 = none ↔ ¬ ∃ vma ∈ inserted calls, vma.vmStart ≤ addr ∧ addr < vma.vmEnd) := by
  obtain ⟨mm, run, sound, perm⟩ := (mmCreate_sound swapInitOk).runs filled apart (by simp [mmCreate])
  have perm : mm.mmapList.Perm (inserted calls) := by simpa [mmCreate] using perm
  have finds : ∀ addr vma, (findVma mm addr).1 = some vma ↔
      vma ∈ inserted calls ∧ vma.vmStart ≤ addr ∧ addr < vma.vmEnd := by
    intro addr vma
    rw [findVma_fst, sound.vmaAt_some, perm.mem_iff]
    simp [VmaStruct.covers]
  refine ⟨mm, run, perm, sound.ordered.imp_of_mem fun {a b} ha _ before => ⟨?_, before⟩, sound.counted,
    fun addr => ⟨finds addr, ?_⟩⟩
  · have := sound.filled a ha
    omega
  · rw [Option.eq_none_iff_forall_ne_some]
    constructor
    · rintro none ⟨vma, member, low, high⟩
      exact none vma ((finds addr vma).mpr ⟨member, low, high⟩)
    · intro none vma found
      exact none ⟨vma, (finds addr vma).mp found⟩

/-- The second area goes before the first one, which the lookup in between has left in the cache. -/
theorem runs_lookup_two : ∃ mm, [Call.insertVma ⟨0x5000, 0x6000, 0⟩, .findVma 0x5800, .insertVma ⟨0x3000, 0x5000, 0⟩,
      .findVma 0x6000].foldlM Call.run (mmCreate true) = .ok mm ∧
    (findVma mm 0x4fff).1 = some ⟨0x3000, 0x5000, 0⟩ := by
  obtain ⟨mm, run, -, -, -, finds⟩ := runs_lookup true [.insertVma ⟨0x5000, 0x6000, 0⟩, .findVma 0x5800,
    .insertVma ⟨0x3000, 0x5000, 0⟩, .findVma 0x6000] (by decide) (by decide)
  exact ⟨mm, run, ((finds 0x4fff).1 _).mpr (by decide)⟩

/-! ## `mm_map` -/

/-- The page-rounded range lies in user space, is not empty, and meets no area. Nothing wraps
    around here. -/
structure Fits (mm : MmStruct) (addr len : Nat) : Prop where
  user : USERBASE ≤ roundDown addr PGSIZE ∧ roundUp (addr + len) PGSIZE ≤ USERTOP
  nonempty : roundDown addr PGSIZE < roundUp (addr + len) PGSIZE
  apart : ∀ b ∈ mm.mmapList, b.vmEnd ≤ roundDown addr PGSIZE ∨ roundUp (addr + len) PGSIZE ≤ b.vmStart

/-- A range that fits becomes one more area, if there is memory. Any other call returns an error
    and leaves the areas alone, and none stops. -/
structure MapsExactly (mm : MmStruct) (addr len vmFlags : Nat) (memory : Bool)
    (result : Result (Int × Option VmaStruct × MmStruct)) : Prop where
  maps : Fits mm addr len → memory = true →
    ∃ vma mm', vma = ⟨roundDown addr PGSIZE, roundUp (addr + len) PGSIZE, vmFlags⟩ ∧
      result = .ok (0, some vma, mm') ∧ Sound mm' ∧ mm'.mmapList.Perm (vma :: mm.mmapList)
  refuses : ¬(Fits mm addr len ∧ memory = true) →
    ∃ ret mm', result = .ok (ret, none, mm') ∧ (ret = -E_INVAL ∨ ret = -E_NO_MEM) ∧ mm'.mmapList = mm.mmapList

/-- If the range as it is computed passes the test of `mm_map`, no area covers its start and there
    is memory, then `addr + len` has not wrapped around and no area begins inside the range. -/
def Unswallowed (mm : MmStruct) (addr len : Nat) (memory : Bool) : Prop :=
  userAccess (roundDown addr PGSIZE) (wrapUp (wrap (addr + len))) = true → memory = true →
    (∀ b ∈ mm.mmapList, b.covers (roundDown addr PGSIZE) = false) →
      addr + len < 2 ^ 64 ∧ ∀ b ∈ mm.mmapList,
        ¬(roundDown addr PGSIZE < b.vmStart ∧ b.vmStart < wrapUp (wrap (addr + len)))

theorem userAccess_iff : userAccess start stop = true ↔ USERBASE ≤ start ∧ start < stop ∧ stop ≤ USERTOP := by
  simp [userAccess, and_assoc]

/-- Where nothing wraps around, the end of the range is computed right if it is in user space. -/
theorem wrapUp_wrap (small : addr + len < 2 ^ 64) (positive : wrapUp (wrap (addr + len)) ≠ 0 ∨
    roundUp (addr + len) PGSIZE ≤ USERTOP) : wrapUp (wrap (addr + len)) = roundUp (addr + len) PGSIZE := by
  simp only [wrapUp, wrap, roundUp, roundDown, PGSIZE, USERTOP] at *
  omega

/-- A range that wraps around does not lie in user space. -/
theorem Fits.small (fits : Fits mm addr len) : addr + len < 2 ^ 64 := by
  have high := fits.user.2
  simp only [roundUp, roundDown, PGSIZE, USERTOP] at high
  omega

theorem Fits.stop_eq (fits : Fits mm addr len) : wrapUp (wrap (addr + len)) = roundUp (addr + len) PGSIZE :=
  wrapUp_wrap fits.small (.inr fits.user.2)

theorem Fits.access (fits : Fits mm addr len) :
    userAccess (roundDown addr PGSIZE) (wrapUp (wrap (addr + len))) = true :=
  userAccess_iff.mpr ⟨fits.user.1, fits.stop_eq ▸ fits.nonempty, fits.stop_eq ▸ fits.user.2⟩

theorem Fits.uncovered (fits : Fits mm addr len) : ∀ b ∈ mm.mmapList, b.covers (roundDown addr PGSIZE) = false := by
  intro b member
  have := fits.nonempty
  rw [← Bool.not_eq_true]
  intro covers
  simp only [VmaStruct.covers, Bool.and_eq_true, decide_eq_true_eq] at covers
  rcases fits.apart b member with before | behind <;> omega

theorem mmMap_outside {vmFlags : Nat} {memory : Bool}
    (outside : userAccess (roundDown addr PGSIZE) (wrapUp (wrap (addr + len))) = false) :
    mmMap mm addr len vmFlags memory = .ok (-E_INVAL, none, mm) := by
  simp [mmMap, outside, pure, Except.pure]

theorem mmMap_covered {vmFlags : Nat} {memory : Bool}
    (access : userAccess (roundDown addr PGSIZE) (wrapUp (wrap (addr + len))) = true)
    (covered : mm.vmaAt (roundDown addr PGSIZE) = some vma) :
    mmMap mm addr len vmFlags memory = .ok (-E_INVAL, none, (findVma mm (roundDown addr PGSIZE)).2) := by
  have inside := vmaAt_covers covered
  have below : vma.vmStart < wrapUp (wrap (addr + len)) := inside.1.trans_lt (userAccess_iff.mp access).2.1
  simp [mmMap, access, findVma, covered, below, pure, Except.pure]

theorem mmMap_uncovered {vmFlags : Nat} {memory : Bool}
    (access : userAccess (roundDown addr PGSIZE) (wrapUp (wrap (addr + len))) = true)
    (uncovered : mm.vmaAt (roundDown addr PGSIZE) = none) :
    mmMap mm addr len vmFlags memory = if memory = true then
        insertVmaStruct mm ⟨roundDown addr PGSIZE, wrapUp (wrap (addr + len)), vmFlags⟩ >>= fun mm' =>
          pure (0, some ⟨roundDown addr PGSIZE, wrapUp (wrap (addr + len)), vmFlags⟩, mm')
      else .ok (-E_NO_MEM, none, mm) := by
  simp [mmMap, access, findVma, uncovered, pure, Except.pure]

/-- `mm_map` does what it should exactly where it swallows no area and does not wrap around. -/
theorem mmMap_exact_iff (sound : Sound mm) {vmFlags : Nat} {memory : Bool} :
    MapsExactly mm addr len vmFlags memory (mmMap mm addr len vmFlags memory) ↔ Unswallowed mm addr len memory := by
  cases access : userAccess (roundDown addr PGSIZE) (wrapUp (wrap (addr + len))) with
  | false =>
      refine iff_of_true ⟨fun fits => ?_, fun _ => ?_⟩ fun passes => ?_
      · rw [fits.access] at access
        cases access
      · exact ⟨_, _, mmMap_outside access, .inl rfl, rfl⟩
      · rw [access] at passes
        cases passes
  | true =>
      cases covered : mm.vmaAt (roundDown addr PGSIZE) with
      | some vma =>
          obtain ⟨member, covers⟩ := sound.vmaAt_some.mp covered
          refine iff_of_true ⟨fun fits => ?_, fun _ => ?_⟩ fun _ _ uncovered => ?_
          · rw [fits.uncovered vma member] at covers
            cases covers
          · exact ⟨_, _, mmMap_covered access covered, .inl rfl, findVma_list ..⟩
          · rw [uncovered vma member] at covers
            cases covers
      | none =>
          have run : mmMap mm addr len vmFlags memory = _ := mmMap_uncovered access covered
          have uncovered := sound.vmaAt_none.mp covered
          cases memory with
          | false => exact iff_of_true ⟨nofun, fun _ => ⟨_, _, run, .inr rfl, rfl⟩⟩ nofun
          | true =>
              rw [if_pos rfl] at run
              have passes := userAccess_iff.mp access
              constructor
              · intro exactly _ _ _
                by_cases fits : Fits mm addr len
                · refine ⟨fits.small, fun b member inside => ?_⟩
                  have := sound.filled b member
                  rw [fits.stop_eq] at inside
                  rcases fits.apart b member with before | behind <;> omega
                · -- what is not to be mapped is not refused: it is mapped, or the kernel stops
                  obtain ⟨ret, mm', result, -, -⟩ := exactly.refuses fun both => fits both.1
                  rw [run] at result
                  obtain ⟨_, -, mapped⟩ := bind_ok.mp result
                  cases mapped
              · intro unswallowed
                obtain ⟨small, clear⟩ := unswallowed access rfl uncovered
                have same := wrapUp_wrap small (.inl (by omega))
                rw [same] at passes clear run
                have fits : Fits mm addr len := by
                  refine ⟨⟨passes.1, passes.2.2⟩, passes.2.1, fun b member => ?_⟩
                  have misses := uncovered b member
                  have above := clear b member
                  simp only [VmaStruct.covers, Bool.and_eq_false_iff, decide_eq_false_iff_not] at misses
                  omega
                have apart : ∀ b ∈ mm.mmapList, Apart b ⟨roundDown addr PGSIZE, roundUp (addr + len) PGSIZE, vmFlags⟩ :=
                  fits.apart
                obtain ⟨mm', inserts, sound', perm⟩ := sound.insert passes.2.1 apart
                refine ⟨fun _ _ => ⟨_, mm', rfl, ?_, sound', perm⟩, fun refused => absurd ⟨fits, rfl⟩ refused⟩
                rw [run, inserts]
                rfl

/-- The three ways a call of `mm_map` may end whose range does not wrap around. -/
theorem mmMap_cases (sound : Sound mm) (small : addr + len < 2 ^ 64) (vmFlags : Nat) (memory : Bool) :
    (mmMap mm addr len vmFlags memory = .error .assertion ∧ ∃ b ∈ mm.mmapList,
      roundDown addr PGSIZE < b.vmStart ∧ b.vmStart < roundUp (addr + len) PGSIZE) ∨
    (∃ ret mm', mmMap mm addr len vmFlags memory = .ok (ret, none, mm') ∧ ret < 0 ∧ Sound mm' ∧
      mm'.mmapList = mm.mmapList ∧ mm'.pgdir = mm.pgdir) ∨
    (∃ mm', mmMap mm addr len vmFlags memory =
        .ok (0, some ⟨roundDown addr PGSIZE, roundUp (addr + len) PGSIZE, vmFlags⟩, mm') ∧ Fits mm addr len ∧
        Sound mm' ∧
      mm'.mmapList.Perm (⟨roundDown addr PGSIZE, roundUp (addr + len) PGSIZE, vmFlags⟩ :: mm.mmapList) ∧
      mm'.pgdir = mm.pgdir) := by
  cases access : userAccess (roundDown addr PGSIZE) (wrapUp (wrap (addr + len))) with
  | false => exact .inr (.inl ⟨_, mm, mmMap_outside access, by decide, sound, rfl, rfl⟩)
  | true =>
      cases covered : mm.vmaAt (roundDown addr PGSIZE) with
      | some vma =>
          exact .inr (.inl ⟨_, _, mmMap_covered access covered, by decide, sound.findVma _, findVma_list ..,
            findVma_pgdir ..⟩)
      | none =>
          have run : mmMap mm addr len vmFlags memory = _ := mmMap_uncovered access covered
          have uncovered := sound.vmaAt_none.mp covered
          cases memory with
          | false => exact .inr (.inl ⟨_, mm, run, by decide, sound, rfl, rfl⟩)
          | true =>
              rw [if_pos rfl] at run
              have passes := userAccess_iff.mp access
              have same := wrapUp_wrap small (.inl (by omega))
              rw [same] at passes run
              by_cases swallows : ∃ b ∈ mm.mmapList, roundDown addr PGSIZE < b.vmStart ∧
                b.vmStart < roundUp (addr + len) PGSIZE
              · obtain ⟨b, member, above, below⟩ := swallows
                refine .inl ⟨?_, b, member, above, below⟩
                rw [run, sound.insert_overlaps member above below]
                rfl
              · have fits : Fits mm addr len := by
                  refine ⟨⟨passes.1, passes.2.2⟩, passes.2.1, fun b member => ?_⟩
                  have misses := uncovered b member
                  have outside : ¬(roundDown addr PGSIZE < b.vmStart ∧ b.vmStart < roundUp (addr + len) PGSIZE) :=
                    fun inside => swallows ⟨b, member, inside⟩
                  simp only [VmaStruct.covers, Bool.and_eq_false_iff, decide_eq_false_iff_not] at misses
                  omega
                have apart : ∀ b ∈ mm.mmapList, Apart b ⟨roundDown addr PGSIZE, roundUp (addr + len) PGSIZE, vmFlags⟩ :=
                  fits.apart
                obtain ⟨mm', inserts, sound', perm⟩ := sound.insert passes.2.1 apart
                refine .inr (.inr ⟨mm', ?_, fits, sound', perm, insertVmaStruct_pgdir inserts⟩)
                rw [run, inserts]
                rfl

/-- The range ends behind the start of an area that `find_vma` does not look at. -/
theorem mmMap_swallows : ¬ MapsExactly
    ⟨[⟨0x400000, 0x401000, VM_READ⟩], none, 0, 1, true⟩ 0x300000 0x200000 VM_WRITE true
    (mmMap ⟨[⟨0x400000, 0x401000, VM_READ⟩], none, 0, 1, true⟩ 0x300000 0x200000 VM_WRITE true) := by
  intro exactly
  have overlaps : ¬ Fits ⟨[⟨0x400000, 0x401000, VM_READ⟩], none, 0, 1, true⟩ 0x300000 0x200000 := by
    intro fits
    have apart := fits.apart _ List.mem_cons_self
    revert apart
    decide +kernel
  obtain ⟨ret, mm', result, -⟩ := exactly.refuses fun both => overlaps both.1
  have stops : mmMap ⟨[⟨0x400000, 0x401000, VM_READ⟩], none, 0, 1, true⟩ 0x300000 0x200000 VM_WRITE true =
      .error .assertion := by decide +kernel
  rw [stops] at result
  cases result

theorem mmMap_exact_iff_beside : MapsExactly
    ⟨[⟨0x400000, 0x401000, VM_READ⟩], none, 0, 1, true⟩ 0x300123 0x1000 VM_WRITE true
    (mmMap ⟨[⟨0x400000, 0x401000, VM_READ⟩], none, 0, 1, true⟩ 0x300123 0x1000 VM_WRITE true) := by
  refine (mmMap_exact_iff ⟨?_, ?_, ?_, ?_⟩).mpr ?_
  · simp
  · simp
  · simp
  · rfl
  · intro _ _ _
    decide +kernel

/-! ## `user_mem_check` -/

/-- An area lets a byte of it be read, or be written. -/
def Permits (vma : VmaStruct) (write : Bool) (x : Nat) : Prop :=
  vma.vmFlags &&& (if write then VM_WRITE else VM_READ) ≠ 0 ∧
    ¬(write = true ∧ vma.vmFlags &&& VM_STACK ≠ 0 ∧ x < vma.vmStart + PGSIZE)

/-- The range lies in user space and is not empty, areas with the flag cover all of it, and none
    of what is written is in the first page of a stack. -/
structure Allowed (mm : MmStruct) (addr len : Nat) (write : Bool) : Prop where
  user : USERBASE ≤ addr ∧ addr + len ≤ USERTOP
  nonempty : 0 < len
  covered : ∀ x, addr ≤ x → x < addr + len →
    ∃ vma ∈ mm.mmapList, (vma.vmStart ≤ x ∧ x < vma.vmEnd) ∧
      vma.vmFlags &&& (if write then VM_WRITE else VM_READ) ≠ 0
  guarded : write = true → ∀ x, addr ≤ x → x < addr + len → ∀ vma ∈ mm.mmapList,
    vma.vmFlags &&& VM_STACK ≠ 0 → ¬(vma.vmStart ≤ x ∧ x < vma.vmEnd ∧ x < vma.vmStart + PGSIZE)

/-- The area at the start of what is left decides about its own bytes at once. -/
theorem permits_first (inside : vma.vmStart ≤ start ∧ start < vma.vmEnd) :
    Permits vma write start ↔ ∀ x, start ≤ x → x < vma.vmEnd → Permits vma write x := by
  constructor
  · rintro ⟨flag, guard⟩ x low high
    exact ⟨flag, fun ⟨writes, stack, near⟩ => guard ⟨writes, stack, low.trans_lt near⟩⟩
  · exact fun all => all start le_rfl inside.2

/-- The loop goes from area to area, and tells whether each byte is in one that permits it. -/
theorem memCheckLoop_exact (sound : Sound mm) (user : stop ≤ USERTOP) {fuel : Nat} (enough : stop ≤ start + fuel) :
    ∃ ok mm', memCheckLoop write stop (fuel + 1) start mm = .ok (ok, mm') ∧ mm'.mmapList = mm.mmapList ∧
      (ok = true ↔ ∀ x, start ≤ x → x < stop → ∃ vma ∈ mm.mmapList, vma.covers x = true ∧ Permits vma write x) := by
  induction fuel generalizing start mm with
  | zero =>
      have done : ¬ start < stop := by omega
      refine ⟨true, mm, by simp [memCheckLoop, done, pure, Except.pure], rfl, iff_of_true rfl fun x low high => ?_⟩
      omega
  | succ fuel ih =>
      rw [memCheckLoop]
      by_cases more : start < stop
      · rw [if_pos more]
        cases found : mm.vmaAt start with
        | none =>
            have uncovered := sound.vmaAt_none.mp found
            refine ⟨false, mm, by simp [findVma, found, pure, Except.pure], rfl, iff_of_false nofun fun all => ?_⟩
            obtain ⟨vma, member, covers, -⟩ := all start le_rfl more
            rw [uncovered vma member] at covers
            cases covers
        | some vma =>
            have inside := vmaAt_covers found
            obtain ⟨member, covers⟩ := sound.vmaAt_some.mp found
            have only : ∀ x b, b ∈ mm.mmapList → vma.vmStart ≤ x → x < vma.vmEnd → b.covers x = true → b = vma :=
              fun x b other low high here => sound.unique other member here (by simp [VmaStruct.covers, low, high])
            have lookup : findVma mm start = (some vma, { mm with mmapCache := some vma }) := by rw [findVma, found]
            have starts : ¬ start < vma.vmStart := by omega
            have near : wrap (vma.vmStart + PGSIZE) = vma.vmStart + PGSIZE := by
              simp only [wrap, PGSIZE, USERTOP] at *
              omega
            rw [lookup]
            simp only [if_neg starts, near]
            by_cases permits : Permits vma write start
            · have sound' : Sound { mm with mmapCache := some vma } := by
                have cached := sound.findVma start
                rwa [lookup] at cached
              obtain ⟨ok, mm', run, list, exact⟩ := ih sound' (show stop ≤ vma.vmEnd + fuel by omega)
              refine ⟨ok, mm', by rw [if_neg permits.1, if_neg permits.2, run], list, exact.trans ?_⟩
              constructor
              · intro later x low high
                by_cases here : x < vma.vmEnd
                · exact ⟨vma, member, by simp [VmaStruct.covers, here, inside.1.trans low],
                    (permits_first inside).mp permits x low here⟩
                · exact later x (not_lt.mp here) high
              · exact fun all x low high => all x (inside.2.le.trans low) high
            · have wrong : ¬ ∀ x, start ≤ x → x < stop → ∃ b ∈ mm.mmapList, b.covers x = true ∧ Permits b write x := by
                intro all
                obtain ⟨b, other, here, allowed⟩ := all start le_rfl more
                rw [only start b other inside.1 inside.2 here] at allowed
                exact permits allowed
              refine ⟨false, { mm with mmapCache := some vma }, ?_, rfl, iff_of_false nofun wrong⟩
              by_cases flag : vma.vmFlags &&& (if write then VM_WRITE else VM_READ) = 0
              · rw [if_pos flag]
                rfl
              · rw [if_neg flag, if_pos (by_contra fun guard => permits ⟨flag, guard⟩)]
                rfl
      · rw [if_neg more]
        exact ⟨true, mm, rfl, rfl, iff_of_true rfl fun x low high => absurd (low.trans_lt high) more⟩

theorem userAccess_wrap (small : addr < 2 ^ 64) (size : len < 2 ^ 64) :
    userAccess addr (wrap (addr + len)) = true ↔ USERBASE ≤ addr ∧ 0 < len ∧ addr + len ≤ USERTOP := by
  rw [userAccess_iff]
  simp only [wrap, USERBASE, USERTOP]
  omega

/-- `user_mem_check` comes to an end and tells exactly what it should. -/
theorem userMemCheck_exact (sound : Sound mm) (write : Bool) (small : addr < 2 ^ 64) (size : len < 2 ^ 64) {fuel : Nat}
    (enough : len < fuel) :
    ∃ ok mm', userMemCheck fuel (some mm) addr len write = .ok (ok, some mm') ∧ mm'.mmapList = mm.mmapList ∧
      (ok = true ↔ Allowed mm addr len write) := by
  cases access : userAccess addr (wrap (addr + len)) with
  | false =>
      refine ⟨false, mm, by simp [userMemCheck, access, pure, Except.pure], rfl, iff_of_false nofun fun allowed => ?_⟩
      rw [(userAccess_wrap small size).mpr ⟨allowed.user.1, allowed.nonempty, allowed.user.2⟩] at access
      cases access
  | true =>
      obtain ⟨base, positive, top⟩ := (userAccess_wrap small size).mp access
      have stop : wrap (addr + len) = addr + len := by
        simp only [wrap, USERTOP] at *
        omega
      obtain ⟨fuel, rfl⟩ := Nat.exists_eq_succ_of_ne_zero (Nat.ne_zero_of_lt enough)
      obtain ⟨ok, mm', run, list, exact⟩ : ∃ ok mm', memCheckLoop write (addr + len) (fuel + 1) addr mm =
        .ok (ok, mm') ∧ _ :=
        memCheckLoop_exact sound top (by omega)
      refine ⟨ok, mm', ?_, list, exact.trans ⟨fun all => ⟨⟨base, top⟩, positive, ?_, ?_⟩, fun allowed => ?_⟩⟩
      · rw [stop] at access
        simp only [userMemCheck, stop, access]
        rw [run]
        rfl
      · intro x low high
        obtain ⟨vma, member, covers, flag, -⟩ := all x low high
        exact ⟨vma, member, by simpa [VmaStruct.covers] using covers, flag⟩
      · intro writes x low high vma member stack near
        obtain ⟨b, other, covers, -, guard⟩ := all x low high
        obtain rfl := sound.unique other member covers (by simp [VmaStruct.covers, near.1, near.2.1])
        exact guard ⟨writes, stack, near.2.2⟩
      · intro x low high
        obtain ⟨vma, member, inside, flag⟩ := allowed.covered x low high
        exact ⟨vma, member, by simpa [VmaStruct.covers] using inside, flag, fun near =>
          allowed.guarded near.1 x low high vma member near.2.1 ⟨inside.1, inside.2, near.2.2⟩⟩

/-- Two areas that touch, the second one a stack: what is read may go over both of them. -/
theorem userMemCheck_exact_two : ∃ ok mm',
    userMemCheck 0x2001 (some ⟨[⟨0x400000, 0x401000, VM_READ⟩, ⟨0x401000, 0x404000, VM_READ ||| VM_STACK⟩], none, 0,
      2, true⟩)
      0x400800 0x2000 false = .ok (ok, some mm') ∧ ok = true := by
  have sound : Sound ⟨[⟨0x400000, 0x401000, VM_READ⟩, ⟨0x401000, 0x404000, VM_READ ||| VM_STACK⟩], none, 0, 2, true⟩ :=
    ⟨by simp, by simp, by simp, rfl⟩
  obtain ⟨ok, mm', run, -, exact⟩ := userMemCheck_exact sound false (show 0x400800 < 2 ^ 64 by decide)
    (show 0x2000 < 2 ^ 64 by decide) (Nat.lt_succ_self 0x2000)
  refine ⟨ok, mm', run, exact.mpr ⟨by decide +kernel, by decide, fun x low high => ?_, nofun⟩⟩
  by_cases first : x < 0x401000
  · exact ⟨_, List.mem_cons_self, ⟨show 0x400000 ≤ x by omega, first⟩, by decide⟩
  · exact ⟨_, List.mem_cons_of_mem _ List.mem_cons_self, ⟨not_lt.mp first, show x < 0x404000 by omega⟩, by decide⟩

end Ucore.Mm.VmaList
