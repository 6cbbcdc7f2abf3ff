import Ucore.Mm.Swap

/-! # Page faults in lab 3

What an access that faulted inside an area may expect from `do_pgfault` of lab 3, and
where it gets it. A frame relation says what an allocation leaves alone, whatever pages
it swaps out on the way.
-/

namespace Ucore.Mm.SwapFault

open Libs.Assert Mmu Swap

open Pmm (PmmManager)

open Vmm (MmStruct VmaStruct VM_READ VM_WRITE)

variable {σ ρ : Type} {M : PmmManager σ} {R : SwapManager ρ} {s t u : Machine σ ρ}

/-! ## What allocation leaves alone -/

/-- The tables of all address spaces are in place, nothing was read from the device, and
    the log of victims has grown, if anything. -/
structure Frame (s t : Machine σ ρ) : Prop where
  pd0 : ∀ d, (t.space d).pd0 = (s.space d).pd0
  pt : ∀ d, (t.space d).pt = (s.space d).pt
  reads : t.swapReads = s.swapReads
  victims : s.victims <:+ t.victims

theorem Frame.refl (s : Machine σ ρ) : Frame s s := ⟨fun _ => rfl, fun _ => rfl, rfl, List.suffix_rfl⟩

theorem Frame.trans (first : Frame s t) (second : Frame t u) : Frame s u :=
  ⟨fun d => (second.pd0 d).trans (first.pd0 d), fun d => (second.pt d).trans (first.pt d),
    second.reads.trans first.reads, first.victims.trans second.victims⟩

theorem Frame.of_space (space : t.space = s.space) (reads : t.swapReads = s.swapReads)
    (victims : s.victims <:+ t.victims) : Frame s t :=
  ⟨fun d => by rw [space], fun d => by rw [space], reads, victims⟩

theorem setPte_frame (pgdir slot w : Nat) : Frame s (s.setPte pgdir slot w) := by
  refine ⟨fun d => ?_, fun d => ?_, rfl, List.suffix_rfl⟩
  · by_cases same : d = pgdir
    · simp [Machine.setPte, Machine.setSpace, same]
    · simp [Machine.setPte, Machine.setSpace, same]
  · by_cases same : d = pgdir
    · simp [Machine.setPte, Machine.setSpace, same]
    · simp [Machine.setPte, Machine.setSpace, same]

theorem freePage_frame (page : Nat) : Frame s (freePage M s page) := .of_space rfl rfl List.suffix_rfl

theorem swapfsWrite_frame {entry page : Nat} {saved : Bool} (run : swapfsWrite entry page s = .ok (saved, t)) :
    Frame s t := by
  rw [swapfsWrite] at run
  split at run
  · split at run
    · cases run
      exact .of_space rfl rfl List.suffix_rfl
    · cases run
      exact .of_space rfl rfl List.suffix_rfl
  · cases run

theorem swapOutOne_frame {mm : Option MmStruct} (run : swapOutOne M R mm s = .ok t) : Frame s t := by
  obtain ⟨⟨victim, pra⟩, -, run⟩ := bind_ok.mp run
  cases victim with
  | none => cases run
  | some page =>
      cases mm with
      | none => cases run
      | some mm =>
          dsimp only at run
          cases slot : (s.space mm.pgdir).lookup (s.praVaddr page) with
          | none =>
              rw [slot] at run
              cases run
          | some ptep =>
              rw [slot] at run
              obtain ⟨-, run⟩ := assert_bind_ok.mp run
              obtain ⟨⟨saved, u⟩, wrote, run⟩ := bind_ok.mp run
              have chosen : Frame s { s with pra := pra, victims := page :: s.victims } :=
                .of_space rfl rfl (List.suffix_cons ..)
              have before := chosen.trans (swapfsWrite_frame wrote)
              cases saved with
              | true =>
                  cases run
                  exact (before.trans (setPte_frame ..)).trans (freePage_frame page)
              | false =>
                  obtain ⟨pra', -, run⟩ := bind_ok.mp run
                  cases run
                  exact before.trans (.of_space rfl rfl List.suffix_rfl)

theorem swapOut_frame {mm : Option MmStruct} (n : Nat) (run : swapOut M R mm n s = .ok t) : Frame s t := by
  induction n generalizing s with
  | zero =>
      cases run
      exact .refl _
  | succ n ih =>
      obtain ⟨u, first, rest⟩ := bind_ok.mp run
      exact (swapOutOne_frame first).trans (ih rest)

theorem allocPage_frame {fuel : Nat} {page : Option Nat} (run : allocPage M R fuel s = .ok (page, t)) :
    Frame s t := by
  induction fuel generalizing s with
  | zero => cases run
  | succ fuel ih =>
      rw [allocPage] at run
      split at run
      · cases run
        exact .of_space rfl rfl List.suffix_rfl
      · rename_i pmm _
        split at run
        · obtain ⟨u, swapped, rest⟩ := bind_ok.mp run
          have before : Frame s { s with pmm := pmm } := .of_space rfl rfl List.suffix_rfl
          exact (before.trans (swapOut_frame 1 swapped)).trans (ih rest)
        · cases run
          exact .of_space rfl rfl List.suffix_rfl

theorem pageRemovePte_frame {pgdir ptep : Nat} (run : pageRemovePte M pgdir ptep s = .ok t) : Frame s t := by
  rw [pageRemovePte] at run
  split at run
  · obtain ⟨page, -, run⟩ := bind_ok.mp run
    cases run
    refine Frame.trans ?_ (setPte_frame ..)
    split
    · exact .of_space rfl rfl List.suffix_rfl
    · exact .of_space rfl rfl List.suffix_rfl
  · cases run
    exact .refl s

theorem displace_frame {pgdir page ptep : Nat} (run : displace M pgdir page ptep s = .ok t) : Frame s t := by
  rw [displace] at run
  split at run
  · obtain ⟨p, -, run⟩ := bind_ok.mp run
    split at run
    · cases run
      exact .of_space rfl rfl List.suffix_rfl
    · exact pageRemovePte_frame run
  · cases run
    exact .refl s

/-! ## Entries -/

/-- The entry of an address, where there is a table for it. -/
def entry (s : Machine σ ρ) (pgdir la : Nat) : Option Nat :=
  ((s.space pgdir).lookup la).map (s.space pgdir).pte

theorem lookup_iff {sp : Space} {la slot : Nat} : sp.lookup la = some slot ↔
    slot = vpn la ∧ (sp.pd0 (vpn la / 512 / 512)).isSome ∧ (sp.pt (vpn la / 512)).isSome := by
  rw [Space.lookup]
  split
  · rename_i present
    simp [present, eq_comm]
  · rename_i missing
    simp only [reduceCtorEq, false_iff, not_and]
    exact fun _ => not_and.mp missing

theorem vpn_roundDown (addr : Nat) : vpn (roundDown addr PGSIZE) = vpn addr := by
  have same : roundDown addr PGSIZE / PGSIZE = addr / PGSIZE := by
    simp only [roundDown, PGSIZE]
    omega
  rw [vpn, vpn, same]

theorem entry_roundDown (pgdir addr : Nat) : entry s pgdir (roundDown addr PGSIZE) = entry s pgdir addr := by
  rw [entry, entry, Space.lookup, Space.lookup, vpn_roundDown]

theorem getTable_reads {fuel pgdir la : Nat} {slot : Option Nat}
    (run : getTable M R fuel pgdir la s = .ok (slot, t)) : t.swapReads = s.swapReads := by
  rw [getTable] at run
  split at run
  · cases run
    rfl
  · obtain ⟨⟨page, u⟩, given, run⟩ := bind_ok.mp run
    have frame := allocPage_frame given
    cases page with
    | none =>
        cases run
        exact frame.reads
    | some page =>
        cases run
        exact frame.reads

theorem getPte_reads {fuel pgdir la : Nat} {slot : Option Nat}
    (run : getPte M R fuel pgdir la s = .ok (slot, t)) : t.swapReads = s.swapReads := by
  rw [getPte] at run
  split at run
  · exact getTable_reads run
  · obtain ⟨⟨page, u⟩, given, run⟩ := bind_ok.mp run
    have frame := allocPage_frame given
    cases page with
    | none =>
        cases run
        exact frame.reads
    | some page => exact (getTable_reads run).trans frame.reads

theorem getTable_some {fuel pgdir la slot : Nat} (above : ((s.space pgdir).pd0 (vpn la / 512 / 512)).isSome)
    (run : getTable M R fuel pgdir la s = .ok (some slot, t)) : (t.space pgdir).lookup la = some slot := by
  rw [getTable] at run
  split at run
  · rename_i present
    cases run
    exact lookup_iff.mpr ⟨rfl, above, present⟩
  · obtain ⟨⟨page, u⟩, given, run⟩ := bind_ok.mp run
    have frame := allocPage_frame given
    cases page with
    | none => cases run
    | some page =>
        cases run
        apply lookup_iff.mpr
        refine ⟨rfl, ?_, ?_⟩
        · simp [Machine.setSpace, frame.pd0, above]
        · simp [Machine.setSpace]

theorem getPte_some {fuel pgdir la slot : Nat} (run : getPte M R fuel pgdir la s = .ok (some slot, t)) :
    (t.space pgdir).lookup la = some slot := by
  rw [getPte] at run
  split at run
  · rename_i present
    exact getTable_some present run
  · obtain ⟨⟨page, u⟩, given, run⟩ := bind_ok.mp run
    cases page with
    | none => cases run
    | some page => exact getTable_some (by simp [Machine.setSpace]) run

/-- Where the tables are there, `get_pte` changes nothing. -/
theorem getPte_found {pgdir la slot : Nat} (found : (s.space pgdir).lookup la = some slot) (fuel : Nat) :
    getPte M R fuel pgdir la s = .ok (some slot, s) := by
  obtain ⟨rfl, above, present⟩ := lookup_iff.mp found
  rw [getPte, if_pos above, getTable, if_pos present]
  rfl

theorem pageInsert_reads {fuel pgdir page la perm : Nat} {ret : Int}
    (run : pageInsert M R fuel pgdir page la perm s = .ok (ret, t)) : t.swapReads = s.swapReads := by
  obtain ⟨⟨slot, u⟩, found, run⟩ := bind_ok.mp run
  have reads := getPte_reads found
  cases slot with
  | none =>
      cases run
      exact reads
  | some slot =>
      obtain ⟨v, cleared, run⟩ := bind_ok.mp run
      cases run
      exact (displace_frame cleared).reads.trans reads

/-- A page that was inserted is the one its entry points to, with the flags asked for. -/
theorem pageInsert_entry {fuel pgdir page la perm : Nat} (run : pageInsert M R fuel pgdir page la perm s = .ok (0, t)) :
    entry t pgdir la = some (pteCreate page (PTE_V ||| perm)) := by
  obtain ⟨⟨slot, u⟩, found, run⟩ := bind_ok.mp run
  cases slot with
  | none =>
      have failed : -Pmm.E_NO_MEM = (0 : Int) := congrArg Prod.fst (Except.ok.inj run)
      exact absurd failed (by decide)
  | some slot =>
      have there := getPte_some found
      obtain ⟨v, cleared, run⟩ := bind_ok.mp run
      cases run
      have counted : Frame u (u.setPageRef page (u.ref page + 1)) := .of_space rfl rfl List.suffix_rfl
      have frame := counted.trans (displace_frame cleared)
      have still : (v.space pgdir).lookup la = some slot := by
        rw [← there, Space.lookup, Space.lookup, frame.pd0, frame.pt]
      have now : ((v.setPte pgdir slot (pteCreate page (PTE_V ||| perm))).space pgdir).lookup la = some slot := by
        rw [← still, Space.lookup, Space.lookup, (setPte_frame ..).pd0, (setPte_frame ..).pt]
      rw [entry, now]
      simp [Machine.setPte, Machine.setSpace]

/-! ## The contract -/

/-- The entry is valid, and not one that points to a further table. -/
def Leaf (w : Nat) : Prop := isValid w = true ∧ (hasFlags w PTE_R = true ∨ hasFlags w PTE_X = true)

/-- After a return value of 0 the access can be retried. A page that is mapped is not
    looked for on the swap device. -/
structure Contract (mm : MmStruct) (vma : VmaStruct) (addr : Nat) (s : Machine σ ρ)
    (result : Result (Int × MmStruct × Machine σ ρ)) : Prop where
  resolved : ∀ mm' t, result = .ok (0, mm', t) → ∃ w, entry t mm.pgdir addr = some w ∧ Leaf w ∧
    (hasFlags vma.vmFlags VM_READ = true → hasFlags w PTE_R = true) ∧
    (hasFlags vma.vmFlags VM_WRITE = true → hasFlags w PTE_W = true)
  mapped : ∀ w, entry s mm.pgdir addr = some w → isValid w = true →
    ∃ ret mm' t, result = .ok (ret, mm', t) ∧ t.swapReads = s.swapReads

/-- The flags `do_pgfault` maps a page with. -/
def faultPerm (vma : VmaStruct) : Nat :=
  if hasFlags vma.vmFlags VM_WRITE then PTE_U ||| (PTE_R ||| PTE_W) else PTE_U

section Rights

variable {page : Nat} {vma : VmaStruct}

theorem newEntry_bit {i : Nat} (low : i < 10) :
    hasFlags (pteCreate page (PTE_V ||| faultPerm vma)) (2 ^ i) = hasFlags (PTE_V ||| faultPerm vma) (2 ^ i) := by
  rw [hasFlags_bit, hasFlags_bit, pteCreate_testBit low, ← Nat.or_assoc, Nat.or_self]

theorem newEntry_R : hasFlags (pteCreate page (PTE_V ||| faultPerm vma)) PTE_R = hasFlags vma.vmFlags VM_WRITE := by
  refine (newEntry_bit (i := 1) (by decide)).trans ?_
  unfold faultPerm
  cases hasFlags vma.vmFlags VM_WRITE <;> decide

theorem newEntry_W : hasFlags (pteCreate page (PTE_V ||| faultPerm vma)) PTE_W = hasFlags vma.vmFlags VM_WRITE := by
  refine (newEntry_bit (i := 2) (by decide)).trans ?_
  unfold faultPerm
  cases hasFlags vma.vmFlags VM_WRITE <;> decide

theorem newEntry_X : hasFlags (pteCreate page (PTE_V ||| faultPerm vma)) PTE_X = false := by
  refine (newEntry_bit (i := 3) (by decide)).trans ?_
  unfold faultPerm
  cases hasFlags vma.vmFlags VM_WRITE <;> decide

/-- The entry that resolves a fault is a leaf exactly in a writable area. -/
theorem newEntry_leaf : Leaf (pteCreate page (PTE_V ||| faultPerm vma)) ↔ hasFlags vma.vmFlags VM_WRITE = true := by
  rw [Leaf, newEntry_R, newEntry_X]
  simp [isValid_pteCreate]

end Rights

/-! ## What a call does -/

theorem pgdirAllocPage_entry {fuel pgdir la perm page : Nat}
    (run : pgdirAllocPage M R fuel pgdir la perm s = .ok (some page, t)) :
    entry t pgdir la = some (pteCreate page (PTE_V ||| perm)) := by
  obtain ⟨⟨given, u⟩, -, run⟩ := bind_ok.mp run
  cases given with
  | none => cases run
  | some given =>
      obtain ⟨⟨ret, v⟩, inserted, run⟩ := bind_ok.mp run
      dsimp only at run
      split at run
      · cases run
      · rename_i zero
        obtain rfl := not_not.mp zero
        have mapped := pageInsert_entry inserted
        split at run
        · obtain ⟨pra, -, run⟩ := bind_ok.mp run
          obtain ⟨-, run⟩ := assert_bind_ok.mp run
          cases run
          exact mapped
        · cases run
          exact mapped

theorem swapIn_reads {fuel : Nat} {mm : MmStruct} {addr page : Nat} (run : swapIn M R fuel mm addr s = .ok (page, t)) :
    ∃ w, t.swapReads = w :: s.swapReads := by
  obtain ⟨⟨given, u⟩, allocated, run⟩ := bind_ok.mp run
  have frame := allocPage_frame allocated
  cases given with
  | none => cases run
  | some given =>
      dsimp only at run
      split at run
      · cases run
      · rename_i ptep _
        obtain ⟨v, read, run⟩ := bind_ok.mp run
        cases run
        rw [swapfsRead] at read
        split at read
        · cases read
          exact ⟨_, congrArg _ frame.reads⟩
        · cases read

/-- The page in the entry comes from the allocator or from the swap device. -/
theorem resolveFault_entry {fuel : Nat} {mm : MmStruct} {perm addr : Nat}
    (run : resolveFault M R fuel mm perm addr s = .ok (0, t)) :
    ∃ page, entry t mm.pgdir addr = some (pteCreate page (PTE_V ||| perm)) := by
  have failed : ¬-Pmm.E_NO_MEM = (0 : Int) := by decide
  obtain ⟨⟨slot, u⟩, found, run⟩ := bind_ok.mp run
  cases slot with
  | none => cases run
  | some slot =>
      dsimp only at run
      split at run
      · obtain ⟨⟨page, v⟩, made, run⟩ := bind_ok.mp run
        cases page with
        | none => exact absurd (congrArg Prod.fst (Except.ok.inj run)) failed
        | some page =>
            cases run
            exact ⟨page, pgdirAllocPage_entry made⟩
      · split at run
        · obtain ⟨⟨page, v⟩, -, run⟩ := bind_ok.mp run
          obtain ⟨⟨ret, x⟩, inserted, run⟩ := bind_ok.mp run
          dsimp only at run
          split at run
          · exact absurd (congrArg Prod.fst (Except.ok.inj run)) failed
          · rename_i zero
            obtain rfl := not_not.mp zero
            have mapped := pageInsert_entry inserted
            obtain ⟨pra, -, run⟩ := bind_ok.mp run
            cases run
            exact ⟨page, mapped⟩
        · exact absurd (congrArg Prod.fst (Except.ok.inj run)) failed

/-- With a page mapped at the address, a call that comes back has read from the swap
    device, unless swapping is off. -/
theorem resolveFault_mapped {mm : MmStruct} {perm addr w : Nat} (mapped : entry s mm.pgdir addr = some w)
    (valid : isValid w = true) (fuel : Nat) :
    if s.swapInitOk = true then
      ∀ ret t, resolveFault M R fuel mm perm addr s = .ok (ret, t) → t.swapReads ≠ s.swapReads
    else resolveFault M R fuel mm perm addr s = .ok (-Pmm.E_NO_MEM, s) := by
  obtain ⟨slot, found, rfl⟩ := Option.map_eq_some_iff.mp mapped
  have nonzero : ¬(s.space mm.pgdir).pte slot = 0 := by
    intro zero
    rw [zero, isValid_zero] at valid
    cases valid
  have there : resolveFault M R fuel mm perm addr s = if s.swapInitOk then
        swapIn M R fuel mm addr s >>= fun brought =>
          pageInsert M R fuel mm.pgdir brought.1 addr perm brought.2 >>= fun inserted =>
            if inserted.1 ≠ 0 then pure (-Pmm.E_NO_MEM, freePage M inserted.2 brought.1)
            else R.mapSwappable (some mm) inserted.2.pra brought.1 >>= fun pra =>
              pure (0, { inserted.2 with pra := pra, praVaddr := Function.update inserted.2.praVaddr brought.1 addr })
      else pure (-Pmm.E_NO_MEM, s) := by
    rw [resolveFault, getPte_found found, ok_bind]
    exact if_neg nonzero
  rw [there]
  split
  · intro ret t run same
    obtain ⟨⟨page, u⟩, brought, run⟩ := bind_ok.mp run
    obtain ⟨⟨failed, v⟩, inserted, run⟩ := bind_ok.mp run
    obtain ⟨w, reads⟩ := swapIn_reads brought
    have more : v.swapReads = w :: s.swapReads := (pageInsert_reads inserted).trans reads
    have grown : t.swapReads = w :: s.swapReads := by
      dsimp only at run
      split at run
      · cases run
        exact more
      · obtain ⟨pra, -, run⟩ := bind_ok.mp run
        cases run
        exact more
    exact List.cons_ne_self w s.swapReads (grown.symm.trans same)
  · rfl

/-- In an area, a call keeps the contract exactly if it does not meet a mapped page with
    swapping on, and the area is writable, unless the call fails. -/
theorem doPgfault_contract_iff {fuel addr : Nat} {mm : MmStruct} {vma : VmaStruct}
    (area : mm.vmaAt addr = some vma) :
    Contract mm vma addr s (doPgfault M R fuel mm addr s) ↔
      (∀ w, entry s mm.pgdir addr = some w → isValid w = true → ¬s.swapInitOk = true) ∧
      ((∃ mm' t, doPgfault M R fuel mm addr s = .ok (0, mm', t)) → hasFlags vma.vmFlags VM_WRITE = true) := by
  have run : doPgfault M R fuel mm addr s =
      resolveFault M R fuel { mm with mmapCache := some vma } (faultPerm vma) (roundDown addr PGSIZE) s >>=
        fun resolved =>
        pure (resolved.1, { mm with mmapCache := some vma }, resolved.2) := by
    rw [doPgfault, Vmm.findVma, area]
    dsimp only
    rw [if_neg (Nat.not_lt.mpr (Vmm.vmaAt_covers area).1)]
    rfl
  have returned : ∀ mm' t, doPgfault M R fuel mm addr s = .ok (0, mm', t) →
      ∃ page, entry t mm.pgdir addr = some (pteCreate page (PTE_V ||| faultPerm vma)) := by
    intro mm' t ends
    rw [run] at ends
    obtain ⟨⟨ret, u⟩, resolved, ends⟩ := bind_ok.mp ends
    cases ends
    obtain ⟨page, mapped⟩ := resolveFault_entry resolved
    exact ⟨page, (entry_roundDown ..).symm.trans mapped⟩
  constructor
  · intro contract
    refine ⟨fun w mapped valid on => ?_, fun returns => ?_⟩
    · obtain ⟨ret, mm', t, ends, same⟩ := contract.mapped w mapped valid
      have reads := @resolveFault_mapped σ ρ M R s { mm with mmapCache := some vma } (faultPerm vma) _ w
        ((entry_roundDown ..).trans mapped) valid fuel
      rw [if_pos on] at reads
      rw [run] at ends
      obtain ⟨⟨ret', u⟩, resolved, ends⟩ := bind_ok.mp ends
      cases ends
      exact reads _ _ resolved same
    · obtain ⟨mm', t, ends⟩ := returns
      obtain ⟨page, mapped⟩ := returned mm' t ends
      obtain ⟨w, mapped', leaf, -⟩ := contract.resolved mm' t ends
      obtain rfl := Option.some.inj (mapped.symm.trans mapped')
      exact newEntry_leaf.mp leaf
  · rintro ⟨off, writable⟩
    refine ⟨fun mm' t ends => ?_, fun w mapped valid => ?_⟩
    · obtain ⟨page, mapped⟩ := returned mm' t ends
      have allowed := writable ⟨mm', t, ends⟩
      exact ⟨_, mapped, newEntry_leaf.mpr allowed, fun _ => newEntry_R.trans allowed, fun _ => newEntry_W.trans allowed⟩
    · have fails := @resolveFault_mapped σ ρ M R s { mm with mmapCache := some vma } (faultPerm vma) _ w
        ((entry_roundDown ..).trans mapped) valid fuel
      rw [if_neg (off w mapped valid)] at fails
      refine ⟨-Pmm.E_NO_MEM, { mm with mmapCache := some vma }, s, ?_, rfl⟩
      rw [run, fails]
      rfl

/-! ## One area -/

/-- Nothing is mapped, and four pages are free. -/
def bare : Machine Pmm.PageList (Lib.Ring.Links Entry) where
  pmm := ⟨[5, 6, 7, 8], by decide, by decide +kernel⟩
  pra := Libs.List.listInit ⟨id, id⟩ .praListHead
  ref _ := 0
  praVaddr _ := 0
  mem _ _ := 0
  swap _ _ := 0
  space _ := ⟨fun _ => none, fun _ => none, fun _ => 0⟩
  swapInitOk := true
  checkMmStruct := some ⟨[], none, 100, 0, true⟩
  device _ := true
  writes := 0
  victims := []
  swapReads := []

/-- The area goes from the second page to the sixth. -/
def oneArea (flags : Nat) : MmStruct := ⟨[⟨0x1000, 0x6000, flags⟩], none, 100, 1, true⟩

/-- In a writable area the first access goes by the contract. -/
theorem doPgfault_contract_writable :
    Contract (oneArea (VM_READ ||| VM_WRITE)) ⟨0x1000, 0x6000, VM_READ ||| VM_WRITE⟩ 0x2345 bare
      (doPgfault Pmm.lowestFirst fifo 1 (oneArea (VM_READ ||| VM_WRITE)) 0x2345 bare) := by
  refine (doPgfault_contract_iff (by decide)).mpr ⟨fun w mapped => ?_, fun _ => by decide⟩
  rw [show entry bare (oneArea (VM_READ ||| VM_WRITE)).pgdir 0x2345 = none from rfl] at mapped
  cases mapped

/-- In a read-only area, the entry gives no right at all. -/
theorem loadInReadOnly_not_leaf : ¬∀ (s : Machine Pmm.PageList (Lib.Ring.Links Entry)) (mm : MmStruct)
    (vma : VmaStruct) (addr fuel : Nat), mm.vmaAt addr = some vma →
    Contract mm vma addr s (doPgfault Pmm.lowestFirst fifo fuel mm addr s) := by
  intro always
  have contract := always bare (oneArea VM_READ) ⟨0x1000, 0x6000, VM_READ⟩ 0x2345 1 (by decide)
  have returned : (doPgfault Pmm.lowestFirst fifo 1 (oneArea VM_READ) 0x2345 bare).map (fun r =>
      (r.1, entry r.2.2 100 0x2345)) = .ok (0, some (pteCreate 7 (PTE_V ||| PTE_U))) := by
    decide +kernel
  cases run : doPgfault Pmm.lowestFirst fifo 1 (oneArea VM_READ) 0x2345 bare with
  | error stop =>
      rw [run] at returned
      cases returned
  | ok r =>
      obtain ⟨ret, mm', t⟩ := r
      rw [run] at returned
      obtain ⟨rfl, mapped⟩ := Prod.mk.inj (Except.ok.inj returned)
      obtain ⟨w, mapped', leaf, -⟩ := contract.resolved mm' t run
      obtain rfl := Option.some.inj (mapped.symm.trans mapped')
      exact absurd leaf.2 (by decide)

end Ucore.Mm.SwapFault
