import Ucore.Fs.OwnershipRuns

/-! # Failing allocations

What `sfs_block_alloc` and the block map leave behind when they fail. A block that is taken
and cannot be cleared stays taken; every other failure is undone.
-/

namespace Ucore.Fs.AllocErrors

open Lib.Bytes Lib.Program Lib.Program.Prog Error Bitmaps Sfs SfsIo SfsInode Ownership BlockSpecs OwnershipRuns

variable {s t u : SfsFs} {new : List Nat} {k ino ent : Nat}

/-- The freemap, its count, the inodes in memory and the blocks in use are the same. -/
structure Unchanged (s t : SfsFs) : Prop where
  freemap : t.freemap.free = s.freemap.free
  unused : t.super.unusedBlocks = s.super.unusedBlocks
  nodes : t.nodes = s.nodes
  tables : ∀ b, s.freemap.free b = false → t.dev.blocks b = s.dev.blocks b

/-- An operation that reports an error has changed nothing. -/
def Atomic (op : Op SfsFs α) (s : SfsFs) : Prop := ∀ e t, op s = .ok (.error e, t) → Unchanged s t

/-- The device operation after `k` others fails. -/
def Fault (s : SfsFs) (k : Nat) : Prop := s.faults.getD k false = true

/-! ## Blocks taken since -/

/-- After `k` device operations the blocks `new` have been taken, and nothing else is different. -/
structure Since (s : SfsFs) (k : Nat) (new : List Nat) (t : SfsFs) : Prop where
  mounted : Mounted t
  nodup : new.Nodup
  fresh : ∀ b ∈ new, s.freemap.free b = true
  free : ∀ b, t.freemap.free b = true ↔ s.freemap.free b = true ∧ b ∉ new
  unused : t.super.unusedBlocks + new.length = s.super.unusedBlocks
  blocks : t.super.blocks = s.super.blocks
  nodes : t.nodes = s.nodes
  kept : ∀ b, s.freemap.free b = false → t.dev.blocks b = s.dev.blocks b
  faults : t.faults = s.faults.drop k

namespace Since

theorem refl (mounted : Mounted s) : Since s 0 [] s where
  mounted := mounted
  nodup := .nil
  fresh := nofun
  free b := by simp
  unused := rfl
  blocks := rfl
  nodes := rfl
  kept _ _ := rfl
  faults := rfl

theorem tick (since : Since s k new t) : Since s (k + 1) new t.tick where
  mounted := ⟨since.mounted.full, since.mounted.sized, since.mounted.bounds, since.mounted.device, since.mounted.unused⟩
  nodup := since.nodup
  fresh := since.fresh
  free := since.free
  unused := since.unused
  blocks := since.blocks
  nodes := since.nodes
  kept := since.kept
  faults := by
    rw [SfsFs.tick, since.faults, List.tail_drop]

theorem acquire (since : Since s k new t) (flip : Flipped t ino false u) : Since s k (ino :: new) u where
  mounted := flip.mounted
  nodup := by
    have old := (since.free ino).mp flip.before
    exact List.nodup_cons.mpr ⟨old.2, since.nodup⟩
  fresh b inside := by
    rcases List.mem_cons.mp inside with rfl | inside
    · exact ((since.free b).mp flip.before).1
    · exact since.fresh b inside
  free b := by
    rw [flip.freemap, List.mem_cons, not_or]
    by_cases same : b = ino
    · simp [same]
    · rw [Function.update_of_ne same, since.free]
      tauto
  unused := by
    have count := flip.count since.mounted
    have before := since.mounted.unused
    have after := flip.mounted.unused
    have sum := since.unused
    rw [List.length_cons]
    omega
  blocks := flip.blocks.trans since.blocks
  nodes := flip.nodes.trans since.nodes
  kept b taken := by
    rw [flip.dev]
    exact since.kept b taken
  faults := flip.faults.trans since.faults

theorem release (since : Since s k (ino :: new) t) (flip : Flipped t ino true u) : Since s k new u where
  mounted := flip.mounted
  nodup := (List.nodup_cons.mp since.nodup).2
  fresh b inside := since.fresh b (List.mem_cons_of_mem _ inside)
  free b := by
    have fresh := since.fresh ino List.mem_cons_self
    have distinct := (List.nodup_cons.mp since.nodup).1
    rw [flip.freemap]
    by_cases same : b = ino
    · simp [same, fresh, distinct]
    · rw [Function.update_of_ne same, since.free, List.mem_cons, not_or]
      tauto
  unused := by
    have inside := (flip.mounted.bounds ino (by rw [flip.freemap, Function.update_self])).2
    have within := flip.mounted.within
    have taken : t.freemap.free ino = false := flip.before
    have count := freeCount_set flip.sized (by rw [← flip.sized]; omega) taken flip.freemap
    have before := since.mounted.unused
    have after := flip.mounted.unused
    have sum := since.unused
    rw [List.length_cons] at sum
    omega
  blocks := flip.blocks.trans since.blocks
  nodes := flip.nodes.trans since.nodes
  kept b taken := by
    rw [flip.dev]
    exact since.kept b taken
  faults := flip.faults.trans since.faults

theorem clear (since : Since s k new t) (member : ino ∈ new) : Since s k new (t.setBlock ino zeros) where
  mounted := ⟨since.mounted.full, since.mounted.sized, since.mounted.bounds, since.mounted.device, since.mounted.unused⟩
  nodup := since.nodup
  fresh := since.fresh
  free := since.free
  unused := since.unused
  blocks := since.blocks
  nodes := since.nodes
  kept b taken := by
    have other : b ≠ ino := by
      rintro rfl
      rw [since.fresh b member] at taken
      cases taken
    exact (Function.update_of_ne other ..).trans (since.kept b taken)
  faults := since.faults

theorem swap {a b : Nat} (since : Since s k [a, b] t) : Since s k [b, a] t := by
  have perm : [a, b].Perm [b, a] := .swap b a []
  exact ⟨since.mounted, perm.nodup_iff.mp since.nodup, fun c inside => since.fresh c (perm.mem_iff.mpr inside),
    fun c => by rw [since.free, perm.mem_iff], since.unused, since.blocks, since.nodes, since.kept, since.faults⟩

theorem fails_iff (since : Since s k new t) {b : Nat} (inside : b < s.super.blocks) : t.Fails b ↔ Fault s k := by
  have device := since.mounted.device
  have blocks := since.blocks
  have head : t.faults.headD false = s.faults.getD k false := by
    rw [since.faults]
    simp [List.headD_eq_head?_getD, List.head?_drop]
  rw [SfsFs.Fails, head, Fault]
  exact or_iff_right (by omega)

theorem unchanged (since : Since s k [] t) : Unchanged s t where
  freemap := by
    funext b
    rw [Bool.eq_iff_iff, since.free]
    simp
  unused := since.unused
  nodes := since.nodes
  tables := since.kept

theorem changed (since : Since s k [ino] t) : ¬Unchanged s t := by
  intro unchanged
  have fresh := since.fresh ino List.mem_cons_self
  have same := congrFun unchanged.freemap ino
  rw [fresh] at same
  exact ((since.free ino).mp same).2 List.mem_cons_self

end Since

/-! ## The operations -/

variable {allowed : Panic → Prop} {E : Err → SfsFs → Prop} {index : Nat} {create : Bool}

theorem sfsBlockAlloc_since {Q : Nat → SfsFs → Prop} (since : Since s k new t)
    (full : (∀ b, s.freemap.free b = true → b ∈ new) → E .noMem t)
    (lost : ∀ ino e j u, Fault s k → Since s j (ino :: new) u → E e u)
    (post : ∀ ino u, ¬Fault s k → Since s (k + 1) (ino :: new) u → Q ino u) :
    Spec allowed sfsBlockAlloc t Q E := by
  have inside : ∀ {ino v}, Flipped t ino false v → ino < s.super.blocks := by
    intro ino v flip
    rw [← since.blocks]
    exact (since.mounted.bounds ino flip.before).2
  refine sfsBlockAlloc_spec since.mounted (fun none => full fun b free => ?_) (fun ino v flip fine => ?_)
    fun ino v flip fails e => ?_
  · by_contra other
    have still := (since.free b).mpr ⟨free, other⟩
    rw [none b] at still
    cases still
  · have taken := (since.acquire flip).tick
    exact post ino _ (fun fault => fine ((since.fails_iff (inside flip)).mpr fault)) (taken.clear List.mem_cons_self)
  · have fault := (since.fails_iff (inside flip)).mp fails
    have taken := since.acquire flip
    exact ⟨lost ino e _ v fault taken, lost ino e _ v.tick fault taken.tick⟩

theorem sfsBlockFree_since {Q : Unit → SfsFs → Prop} (mounted : Mounted s) (since : Since s k (ino :: new) t)
    (post : ∀ u, Since s k new u → Q () u) : Spec allowed (sfsBlockFree ino) t Q E := by
  have still : t.freemap.free ino = false := by
    by_contra free
    exact ((since.free ino).mp (Bool.not_eq_false _ ▸ free)).2 List.mem_cons_self
  obtain ⟨nonzero, below⟩ := mounted.bounds ino (since.fresh ino List.mem_cons_self)
  rw [← since.blocks] at below
  exact sfsBlockFree_spec since.mounted nonzero below still fun u flip => post u (since.release flip)

/-- An operation that failed has taken a block and lost it if `leaks`, and has changed nothing if not. -/
def Report (s : SfsFs) (leaks : Prop) (t : SfsFs) : Prop :=
  leaks ∧ (∃ k ino, Since s k [ino] t) ∨ ¬leaks ∧ ∃ k, Since s k [] t

/-- If it `leaks` it fails, and every failure is of that kind. -/
def Classified (op : Op SfsFs α) (s : SfsFs) (leaks : Prop) (t : SfsFs) : Prop :=
  Spec (fun _ => ¬leaks) op t (fun _ _ => ¬leaks) fun _ u => Report s leaks u

theorem Classified.atomic_iff {op : Op SfsFs α} {leaks : Prop} (classified : Classified op s leaks s) :
    Atomic op s ↔ ¬leaks := by
  unfold Classified Spec at classified
  constructor
  · intro atomic leak
    cases run : op s with
    | error p =>
        rw [run] at classified
        exact classified leak
    | ok outcome =>
        obtain ⟨result, t⟩ := outcome
        rw [run] at classified
        cases result with
        | ok a => exact classified leak
        | error e =>
            obtain ⟨k, ino, since⟩ := (classified.resolve_right fun other => other.1 leak).2
            exact since.changed (atomic e t run)
  · intro fine e t run
    rw [run] at classified
    obtain ⟨k, since⟩ := (classified.resolve_left fun other => fine other.1).2
    exact since.unchanged

/-- There is a free block, and clearing it fails. -/
def AllocLeaks (s : SfsFs) (k : Nat) (new : List Nat) : Prop :=
  (∃ b, s.freemap.free b = true ∧ b ∉ new) ∧ Fault s k

theorem sfsBlockAlloc_classified (mounted : Mounted s) : Classified sfsBlockAlloc s (AllocLeaks s 0 []) s := by
  have since := Since.refl mounted
  refine sfsBlockAlloc_since since (fun full => .inr ⟨?_, 0, since⟩)
    (fun ino e j u fault lost => .inl ⟨?_, j, ino, lost⟩)
    fun ino u fine _ => fun leak => fine leak.2
  · rintro ⟨⟨b, free, -⟩, -⟩
    exact absurd (full b free) List.not_mem_nil
  · exact ⟨⟨ino, lost.fresh ino List.mem_cons_self, List.not_mem_nil⟩, fault⟩

/-- The cleanup gives back the entry block, if that is new. -/
theorem failedCleanup_since {entp j : Nat} {lost : List Nat} {Q : Unit → SfsFs → Prop} (mounted : Mounted s)
    (shape : new = if ent ≠ entp then [ent] else []) (since : Since s j (new ++ lost) t)
    (post : ∀ u, Since s j lost u → Q () u) :
    Spec allowed (if ent ≠ entp then sfsBlockFree ent else pure ()) t Q E := by
  rw [spec_ite]
  refine ⟨fun own => ?_, fun old => ?_⟩
  · rw [shape, if_pos own] at since
    exact sfsBlockFree_since mounted since post
  · rw [shape, if_neg old] at since
    exact post t since

theorem sfsBmapNewEntry_classified {entp : Nat} (mounted : Mounted s) (since : Since s k new t)
    (shape : new = if ent ≠ entp then [ent] else []) (below : index < SFS_BLK_NENTRY) (nonzero : ent ≠ 0)
    (inside : ent < s.super.blocks) :
    Classified (sfsBmapNewEntry entp ent (4 * index)) s (AllocLeaks s k new) t := by
  have cleanup : ∀ {j : Nat} {v : SfsFs} (lost : List Nat), Since s j (new ++ lost) v →
      (∀ u, Since s j lost u → Report s (AllocLeaks s k new) u) →
      Spec (fun _ => ¬AllocLeaks s k new) (if ent ≠ entp then sfsBlockFree ent else pure ()) v
        (fun _ u => Report s (AllocLeaks s k new) u) fun _ u => Report s (AllocLeaks s k new) u :=
    fun lost taken report => failedCleanup_since mounted shape taken report
  have bound : 4 * index + 4 ≤ SFS_BLKSIZE := by
    simp only [SFS_BLK_NENTRY, SFS_BLKSIZE] at below ⊢
    omega
  simp only [Classified, sfsBmapNewEntry, spec_bind, spec_onError, spec_pure]
  refine sfsBlockAlloc_since since (fun full => ?_) (fun ino _ j u fault taken => ?_) fun ino u fine taken => ?_
  · refine cleanup [] (by rwa [List.append_nil]) fun v undone => .inr ⟨?_, k, undone⟩
    rintro ⟨⟨b, free, other⟩, -⟩
    exact other (full b free)
  · have distinct := List.nodup_cons.mp taken.nodup
    have swapped : Since s j (new ++ [ino]) u := by
      rw [shape] at taken ⊢
      by_cases own : ent ≠ entp
      · rw [if_pos own] at taken ⊢
        exact taken.swap
      · rw [if_neg own] at taken ⊢
        exact taken
    exact cleanup [ino] swapped fun v lost =>
      .inl ⟨⟨⟨ino, taken.fresh ino List.mem_cons_self, distinct.1⟩, fault⟩, j, ino, lost⟩
  · have undo : ∀ (j : Nat) (v : SfsFs), Since s j (ino :: new) v →
      Spec (fun _ => ¬AllocLeaks s k new) (sfsBlockFree ino) v
        (fun _ w => Spec (fun _ => ¬AllocLeaks s k new) (if ent ≠ entp then sfsBlockFree ent else pure ()) w
          (fun _ u => Report s (AllocLeaks s k new) u) fun _ u => Report s (AllocLeaks s k new) u)
        fun _ u => Report s (AllocLeaks s k new) u := by
      intro j v taken
      refine sfsBlockFree_since mounted taken fun w rest => cleanup [] (by rwa [List.append_nil]) fun x undone => ?_
      exact .inr ⟨fun leak => fine leak.2, j, undone⟩
    refine sfsWbuf_spec ⟨by omega, by simpa using bound⟩ nonzero (by rw [taken.blocks]; exact inside) (fun _ _ => ?_)
      fun _ _ => fun leak => fine leak.2
    exact ⟨undo _ u taken, undo _ u.tick taken.tick, undo _ u.tick.tick taken.tick.tick⟩

/-- Clearing a new entry block fails, or clearing the new block for the entry. -/
def SubLeaks (s : SfsFs) (entp index : Nat) (create : Bool) : Prop :=
  create = true ∧
    if entp ≠ 0 then ofLe (slice (s.dev.blocks entp) (4 * index) 4) = 0 ∧ ¬Fault s 0 ∧ AllocLeaks s 1 []
    else AllocLeaks s 0 [] ∨ (∃ a b, a ≠ b ∧ s.freemap.free a = true ∧ s.freemap.free b = true) ∧ ¬Fault s 0 ∧ Fault s 1

theorem Classified.congr {op : Op SfsFs α} {leaks leaks' : Prop} (same : leaks ↔ leaks')
    (classified : Classified op s leaks t) :
    Classified op s leaks' t := propext same ▸ classified

theorem sfsBmapGetSubNolock_classified {entp : Nat} (mounted : Mounted s) (below : index < SFS_BLK_NENTRY)
    (inside : entp < s.super.blocks) :
    Classified (sfsBmapGetSubNolock entp index create) s (SubLeaks s entp index create) s := by
  have since := Since.refl mounted
  have bound : 4 * index + 4 ≤ SFS_BLKSIZE := by
    simp only [SFS_BLK_NENTRY, SFS_BLKSIZE] at below ⊢
    omega
  simp only [Classified, sfsBmapGetSubNolock, spec_bind, spec_ensure_of below, spec_ite, spec_pure]
  refine ⟨fun old => ?_, fun none => ⟨fun off => ?_, fun on => ?_⟩⟩
  · refine sfsRbuf_spec ⟨by omega, bound⟩ old inside (fun fails _ => ?_) fun fine => ⟨fun keep => ?_, fun fresh => ?_⟩
    · have fault := (since.fails_iff inside).mp fails
      have clean : ¬SubLeaks s entp index create := by
        rintro ⟨-, leak⟩
        rw [if_pos old] at leak
        exact leak.2.1 fault
      exact ⟨.inr ⟨clean, 0, since⟩, .inr ⟨clean, 1, since.tick⟩⟩
    · rintro ⟨on, leak⟩
      rw [if_pos old] at leak
      rcases keep with used | off
      · exact used leak.1
      · rw [on] at off
        cases off
    · obtain ⟨zero, on⟩ := not_or.mp fresh
      refine (sfsBmapNewEntry_classified mounted since.tick (by simp) below old inside).congr ?_
      rw [SubLeaks, if_pos old]
      have ready : ¬Fault s 0 := fun fault => fine ((since.fails_iff inside).mpr fault)
      have made : create = true := Bool.not_eq_false _ ▸ on
      exact ⟨fun leak => ⟨made, not_not.mp zero, ready, leak⟩, fun leak => leak.2.2.2⟩
  · rintro ⟨on, -⟩
    rw [on] at off
    cases off
  · have made : create = true := Bool.not_eq_false _ ▸ on
    have zero : entp = 0 := not_not.mp none
    have leaks : SubLeaks s entp index create ↔ AllocLeaks s 0 [] ∨
        (∃ a b, a ≠ b ∧ s.freemap.free a = true ∧ s.freemap.free b = true) ∧ ¬Fault s 0 ∧ Fault s 1 := by
      rw [SubLeaks, if_neg none]
      exact and_iff_right made
    rw [leaks]
    refine sfsBlockAlloc_since since (fun full => .inr ⟨?_, 0, since⟩)
      (fun ino e j u fault taken => .inl ⟨.inl ?_, j, ino, taken⟩)
      fun ent u fine taken => ?_
    · rintro (⟨⟨b, free, -⟩, -⟩ | ⟨⟨a, b, -, free, -⟩, -⟩)
      · exact absurd (full b free) List.not_mem_nil
      · exact absurd (full a free) List.not_mem_nil
    · exact ⟨⟨ino, taken.fresh ino List.mem_cons_self, List.not_mem_nil⟩, fault⟩
    · have free := taken.fresh ent List.mem_cons_self
      obtain ⟨nonzero, within⟩ := mounted.bounds ent free
      refine (sfsBmapNewEntry_classified mounted taken (by simp [zero, nonzero]) below nonzero within).congr ?_
      constructor
      · rintro ⟨⟨b, other, different⟩, fault⟩
        exact .inr ⟨⟨ent, b, fun same => different (same ▸ List.mem_cons_self), free, other⟩, fine, fault⟩
      · rintro (leak | ⟨⟨a, b, different, first, second⟩, -, fault⟩)
        · exact absurd leak.2 fine
        · by_cases same : a = ent
          · exact ⟨⟨b, second, fun here => different (same.trans (List.mem_singleton.mp here).symm)⟩, fault⟩
          · exact ⟨⟨a, first, fun here => same (List.mem_singleton.mp here)⟩, fault⟩

theorem assertInuse_any {Q : Unit → SfsFs → Prop} (stops : ∀ p, allowed p) (post : Q () t) :
    Spec allowed (assertInuse ino) t Q E := by
  simp only [assertInuse, sfsBlockInuse, spec_bind, spec_get, spec_ite, spec_pure, spec_stop]
  refine ⟨fun _ => ?_, fun _ => stops _⟩
  rw [onFreemap, spec_focus]
  simp only [bitmapTest, bitmapTranslate, spec_bind, spec_get, spec_ensure, spec_pure]
  exact ⟨fun _ => ⟨fun _ => post, fun _ => stops _⟩, fun _ => stops _⟩

theorem assertZeroOrInuse_any {Q : Unit → SfsFs → Prop} (stops : ∀ p, allowed p) (post : Q () t) :
    Spec allowed (assertZeroOrInuse ino) t Q E := by
  rw [assertZeroOrInuse, spec_ite]
  exact ⟨fun _ => post, fun _ => assertInuse_any stops post⟩

/-- Clearing one of the blocks taken for the index fails. -/
def GetLeaks (s : SfsFs) (sin index : Nat) (create : Bool) : Prop :=
  if index < SFS_NDIRECT then create = true ∧ (s.nodes sin).din.direct.getD index 0 = 0 ∧ AllocLeaks s 0 []
  else index - SFS_NDIRECT < SFS_BLK_NENTRY ∧ SubLeaks s (s.nodes sin).din.indirect (index - SFS_NDIRECT) create

theorem sfsBmapGetNolock_classified {sin : Nat} (mounted : Mounted s)
    (inside : (s.nodes sin).din.indirect < s.super.blocks) :
    Classified (sfsBmapGetNolock sin index create) s (GetLeaks s sin index create) s := by
  simp only [Classified, sfsBmapGetNolock, spec_bind, spec_get, spec_ite, spec_pure, spec_modify, spec_stop]
  refine ⟨fun direct => ⟨fun fresh => ?_, fun keep => ?_⟩, fun indirect => ⟨fun below => ?_, fun beyond => ?_⟩⟩
  · have leaks : AllocLeaks s 0 [] ↔ GetLeaks s sin index create := by
      rw [GetLeaks, if_pos direct]
      exact ⟨fun leak => ⟨fresh.2, fresh.1, leak⟩, fun leak => leak.2.2⟩
    refine Spec.mono ((sfsBlockAlloc_classified mounted).congr leaks) (fun ino t fine => ?_) fun _ _ report => report
    exact assertZeroOrInuse_any (fun _ => fine) fine
  · have fine : ¬GetLeaks s sin index create := by
      rw [GetLeaks, if_pos direct]
      exact fun leak => keep ⟨leak.2.1, leak.1⟩
    exact assertZeroOrInuse_any (fun _ => fine) fine
  · have leaks : SubLeaks s (s.nodes sin).din.indirect (index - SFS_NDIRECT) create ↔ GetLeaks s sin index create := by
      rw [GetLeaks, if_neg indirect]
      exact (and_iff_right below).symm
    refine Spec.mono ((sfsBmapGetSubNolock_classified mounted below inside).congr leaks) (fun found t fine => ?_)
      fun _ _ report => report
    simp only [spec_ensure]
    exact ⟨fun _ => ⟨fun _ => assertZeroOrInuse_any (fun _ => fine) fine, fun _ => fine⟩,
      fun _ => assertZeroOrInuse_any (fun _ => fine) fine⟩
  · rw [GetLeaks, if_neg indirect]
    exact fun leak => beyond leak.1

/-- A failed call has changed nothing, unless what failed was to clear a block just taken. -/
theorem errors_atomic_iff (mounted : Mounted s) :
    (Atomic sfsBlockAlloc s ↔ ¬AllocLeaks s 0 []) ∧
    (∀ entp index create, index < SFS_BLK_NENTRY → entp < s.super.blocks →
      (Atomic (sfsBmapGetSubNolock entp index create) s ↔ ¬SubLeaks s entp index create)) ∧
    ∀ sin index create, (s.nodes sin).din.indirect < s.super.blocks →
      (Atomic (sfsBmapGetNolock sin index create) s ↔ ¬GetLeaks s sin index create) :=
  ⟨(sfsBlockAlloc_classified mounted).atomic_iff,
    fun _ _ _ below inside => (sfsBmapGetSubNolock_classified mounted below inside).atomic_iff,
    fun _ _ _ inside => (sfsBmapGetNolock_classified mounted inside).atomic_iff⟩

/-- On the small disk nothing fails. -/
theorem errors_atomic_iff_smallDisk : Atomic sfsBlockAlloc smallDisk ∧ Atomic (sfsBmapGetSubNolock 0 0 true) smallDisk ∧
    Atomic (sfsBmapGetNolock 0 12 true) smallDisk := by
  have fine : ∀ k, ¬Fault smallDisk k := fun k fault => by simp [Fault, smallDisk] at fault
  have sub : ¬SubLeaks smallDisk 0 0 true := by
    rintro ⟨-, leak⟩
    rw [if_neg (not_not.mpr rfl)] at leak
    exact leak.elim (fun leak => fine 0 leak.2) fun leak => fine 1 leak.2.2
  obtain ⟨alloc, getSub, getMap⟩ := errors_atomic_iff smallDisk_inv.mounted
  refine ⟨alloc.mpr fun leak => fine 0 leak.2, (getSub 0 0 true (by decide) (by decide)).mpr sub,
    (getMap 0 12 true (by decide)).mpr ?_⟩
  rw [GetLeaks, if_neg (by decide)]
  exact fun leak => sub leak.2

/-- The device fails as the last free block is cleared. -/
theorem errors_not_atomic : ¬Atomic sfsBlockAlloc { smallDisk with faults := [true] } := by
  have mounted : Mounted { smallDisk with faults := [true] } := by
    have mounted := smallDisk_inv.mounted
    exact ⟨mounted.full, mounted.sized, mounted.bounds, mounted.device, mounted.unused⟩
  have leak : AllocLeaks { smallDisk with faults := [true] } 0 [] := ⟨⟨4, by decide, List.not_mem_nil⟩, rfl⟩
  exact fun atomic => (sfsBlockAlloc_classified mounted).atomic_iff.mp atomic leak

end Ucore.Fs.AllocErrors
