import Ucore.Lib.Run
import Ucore.Mm.BuddyBlocks

/-! # Runs of the buddy manager

One region is given to the manager, then blocks are requested and freed in any order.
A freed block stays what it was only if the loop of `buddy_free_pages` stops at once,
and all pairs stay merged only if the other half of its pair is not free.
-/

namespace Ucore.Mm.BuddyRuns

open Lib.Run Lib.Ring Lib.Extents Libs.Assert Libs.List BuddyPmm BuddyBlocks

/-! ## Orders -/

theorem lowerOrder_le (n order : Nat) : lowerOrder n order ≤ order := by
  induction order with
  | zero => exact Nat.le_refl _
  | succ order ih =>
      rw [lowerOrder]
      split
      · omega
      · exact Nat.le_refl _

/-! ## Splitting -/

variable {s : Buddy} {region : Extent} {free : Nat → List Nat} {taken : List Extent}

theorem splitLoop_core {page order : Nat} (count : Nat) {s : Buddy} {free : Nat → List Nat}
    (core : Core s region free (block (order + count) page :: taken)) (below : order + count ≤ MAX_ORDER)
    (aligned : 2 ^ (order + count) ∣ page - region.base) (merged : Merged region.base free) :
    ∃ free', Core (splitLoop page order count s) region free' (block order page :: taken) ∧
      Merged region.base free' := by
  induction count generalizing s free with
  | zero => exact ⟨free, core, merged⟩
  | succ count ih =>
      have above : region.base ≤ page := (core.takenInside (block (order + (count + 1)) page) (by simp)).1
      have half : block (order + (count + 1)) page = ⟨page, 2 ^ (order + count) + 2 ^ (order + count)⟩ := by
        rw [block, ← Nat.add_assoc, Nat.pow_succ, Nat.mul_two]
      have lower : 2 ^ (order + count + 1) ∣ page - region.base := aligned
      rw [half] at core
      have halves := core.cut.perm (List.Perm.swap _ _ _)
      have upper : 2 ^ (order + count) ∣ page + 2 ^ (order + count) - region.base := by
        rw [show page + 2 ^ (order + count) - region.base = page - region.base + 2 ^ (order + count) by omega]
        exact Nat.dvd_add ((Nat.pow_dvd_pow 2 (Nat.le_succ _)).trans lower) (Nat.dvd_refl _)
      have taken' := halves.perm (List.Perm.swap (block (order + count) page)
        (block (order + count) (page + 2 ^ (order + count))) taken)
      refine ih (halves.add (by omega) upper) (by omega)
        ((Nat.pow_dvd_pow 2 (Nat.le_succ _)).trans lower)
        (merged.add (fun q member => (core.aligned _ q member).1) fun _ => ?_)
      rw [upper_half above lower]
      exact taken'.not_free _

theorem findOrder_spec {taken : List Extent} (core : Core s region free taken) (count order : Nat)
    (below : order + count = MAX_ORDER + 1) {current : Nat}
    (found : findOrder s count order = some current) :
    order ≤ current ∧ current ≤ MAX_ORDER ∧ free current ≠ [] := by
  induction count generalizing order with
  | zero => cases found
  | succ count ih =>
      rw [findOrder] at found
      split at found
      · obtain ⟨more, rest⟩ := ih (order + 1) (by omega) found
        exact ⟨by omega, rest⟩
      · rename_i nonempty
        obtain rfl := Option.some.inj found
        refine ⟨Nat.le_refl _, by omega, fun empty => nonempty ?_⟩
        exact (listEmpty_iff (core.ring order (by omega))).mpr (by rw [empty]; rfl)

theorem buddyAllocPages_core {n : Nat} (core : Core s region free taken) (merged : Merged region.base free) :
    ((buddyAllocPages s n).1 = none ∧ (buddyAllocPages s n).2 = s) ∨
    ∃ page free', (buddyAllocPages s n).1 = some page ∧ blockOrder n ≤ MAX_ORDER ∧
      2 ^ blockOrder n ∣ page - region.base ∧
      Core (buddyAllocPages s n).2 region free' (block (blockOrder n) page :: taken) ∧
      Merged region.base free' := by
  cases found : findOrder s (MAX_ORDER + 1 - blockOrder n) (blockOrder n) with
  | none => exact Or.inl (by simp [buddyAllocPages, found])
  | some current =>
      have below : blockOrder n ≤ MAX_ORDER := by
        by_contra above
        rw [show MAX_ORDER + 1 - blockOrder n = 0 by omega] at found
        cases found
      obtain ⟨reaches, known, nonempty⟩ := findOrder_spec core _ _ (by omega) found
      obtain ⟨page, rest, front⟩ := List.exists_cons_of_ne_nil nonempty
      have ring := core.ring current known
      rw [front, List.map_cons] at ring
      have aligned := (core.aligned current page (by simp [front])).2.1
      obtain ⟨free', split, merged'⟩ := splitLoop_core (current - blockOrder n)
        (by rw [Nat.add_sub_cancel' reaches]; exact core.remove front) (by omega)
        (by rw [Nat.add_sub_cancel' reaches]; exact aligned) (merged.remove front)
      refine Or.inr ⟨page, free', ?_, below, (Nat.pow_dvd_pow 2 reaches).trans aligned, ?_, merged'⟩
      · simp [buddyAllocPages, found, ring.next_head_cons]
      · simpa [buddyAllocPages, found, ring.next_head_cons] using split

/-! ## Freeing -/

/-- The first test of the loop of `buddy_free_pages` fails. -/
def StopsAtOnce (s : Buddy) (o p : Nat) : Prop :=
  (s.pages (p + 2 ^ o)).property ≠ 2 ^ o ∨ (s.pages (p + 2 ^ o)).pgReserved = true

/-- The page is the head of a free block of the order, as its descriptor has it. -/
def FreeHead (s : Buddy) (region : Extent) (o p : Nat) : Prop :=
  p ∈ region ∧ (s.pages p).property = 2 ^ o ∧ (s.pages p).pgProperty = true

theorem freeHead_of_mem (core : Core s region free taken) {o p : Nat} (member : p ∈ free o) :
    FreeHead s region o p := by
  obtain ⟨above, -, inside⟩ := core.aligned o p member
  have := Nat.two_pow_pos o
  exact ⟨⟨above, by omega⟩, core.property o p member⟩

theorem buddyFreePages_core {p n : Nat} (core : Core s region free (block (blockOrder n) p :: taken))
    (merged : Merged region.base free) (known : blockOrder n ≤ MAX_ORDER)
    (aligned : 2 ^ blockOrder n ∣ p - region.base) (stops : StopsAtOnce s (blockOrder n) p)
    (alone : blockOrder n < MAX_ORDER →
      ¬ FreeHead s region (blockOrder n) (otherHalf region.base (blockOrder n) p)) :
    ∃ free', Core (buddyFreePages s p n) region free' taken ∧ Merged region.base free' := by
  have one : MAX_ORDER + 1 - blockOrder n = MAX_ORDER - blockOrder n + 1 := by omega
  have run : buddyFreePages s p n = addBlock s (blockOrder n) p := by
    rw [buddyFreePages, one, mergeLoop, if_pos (show _ ∨ _ from stops)]
  rw [run]
  refine ⟨_, core.add known aligned, merged.add (fun q member => (core.aligned _ q member).1) ?_⟩
  exact fun below member => alone below (freeHead_of_mem core member)

/-! ## Initialisation -/

theorem listInit_rings (is : List Nat) (l : Links Entry) (i : Nat)
    (done : i ∈ is ∨ IsRing l (.freeList i) []) :
    IsRing (is.foldl (fun links i => listInit links (.freeList i)) l) (.freeList i) [] := by
  induction is generalizing l with
  | nil => simpa using done
  | cons j is ih =>
      refine ih _ ?_
      by_cases same : i = j
      · subst same
        exact Or.inr (listInit_ring _ _)
      · refine done.imp (fun inside => by simpa [same] using inside) fun ring => ?_
        exact listInit_congr ring (by simpa using Ne.symm same)

theorem buddyInit_core {raw : Buddy} (small : region.len < 2 ^ 64)
    (unmarked : ∀ p ∈ region, (raw.pages p).pgProperty = false) :
    Core (buddyInit raw) region (fun _ => []) [region] where
  ring o known := listInit_rings _ _ _ (Or.inl (List.mem_range.mpr (by omega)))
  none _ _ := rfl
  count o known := by simp [buddyInit, known]
  property := by simp
  flags p within flagged := by simp [buddyInit, unmarked p within] at flagged
  aligned := by simp
  apart := by simp
  takenApart := by simp
  takenPairs := List.pairwise_singleton _ _
  takenInside := by simp
  account := by simp [freePages]
  small := small

theorem initLoop_core {o : Nat} (known : o ≤ MAX_ORDER) {base : Nat} (begins : region.base = base)
    (count fuel n : Nat) {i : Nat} (enough : count < fuel) (left : i + count * 2 ^ o = n) (aligned : 2 ^ o ∣ i)
    {s : Buddy} {free : Nat → List Nat} (core : Core s region free [⟨base + i, count * 2 ^ o⟩])
    (only : ∀ o', o' ≠ o → free o' = []) :
    ∃ t free', initLoop base n o fuel i s = .ok t ∧ Core t region free' [] ∧
      ∀ o', o' ≠ o → free' o' = [] := by
  induction count generalizing fuel i s free with
  | zero =>
      obtain ⟨fuel, rfl⟩ : ∃ m, fuel = m + 1 := Nat.exists_eq_succ_of_ne_zero (by omega)
      rw [Nat.zero_mul] at core
      exact ⟨s, free, by rw [initLoop, if_neg (by omega)], core.drop, only⟩
  | succ count ih =>
      obtain ⟨fuel, rfl⟩ : ∃ m, fuel = m + 1 := Nat.exists_eq_succ_of_ne_zero (by omega)
      have positive := Nat.two_pow_pos o
      rw [Nat.add_mul, Nat.one_mul] at left
      rw [Nat.add_mul, Nat.one_mul, Nat.add_comm (count * 2 ^ o)] at core
      have inHand : Core s region free (block o (base + i) :: [⟨base + i + 2 ^ o, count * 2 ^ o⟩]) := core.cut
      have cleared : Core (s.setPage (base + i)
          { s.pages (base + i) with ref := 0, pgReserved := false, pgProperty := false })
          region free (block o (base + i) :: [⟨base + i + 2 ^ o, count * 2 ^ o⟩]) :=
        inHand.reset inHand.not_free rfl
      have added := cleared.add known (by rw [begins, Nat.add_sub_cancel_left]; exact aligned)
      rw [Nat.add_assoc] at added
      rw [initLoop, if_pos (by omega)]
      refine ih _ (by omega) (by omega) (Nat.dvd_add aligned (Nat.dvd_refl _)) added fun o' other => ?_
      rw [Function.update_of_ne other]
      exact only o' other

theorem lt_lowerOrder {n order : Nat} (lowered : lowerOrder n order < order) :
    n < 2 ^ (lowerOrder n order + 1) := by
  induction order with
  | zero => omega
  | succ order ih =>
      rw [lowerOrder] at lowered ⊢
      split at lowered
      · rename_i above
        rw [if_pos above]
        by_cases same : lowerOrder n order = order
        · rwa [same]
        · exact ih (Nat.lt_of_le_of_ne (lowerOrder_le n order) same)
      · omega

/-! ## The system -/

/-- The manager, and the blocks its callers hold with the sizes they asked for. -/
structure Sys where
  buddy : Buddy
  live : List (Nat × Nat)

inductive Call where
  | allocPages (n : Nat)
  | freePages (p n : Nat)
  deriving DecidableEq, Repr

def exec (s : Sys) : Call → Sys
  | .allocPages n =>
      let (page, buddy) := buddyAllocPages s.buddy n
      { buddy := buddy, live := page.elim s.live fun p => (p, n) :: s.live }
  | .freePages p n => { buddy := buddyFreePages s.buddy p n, live := s.live.erase (p, n) }

def Legal (s : Sys) : Call → Prop
  | .allocPages n => 0 < n
  | .freePages p n => (p, n) ∈ s.live

/-- The loop of `buddy_free_pages` does not take the block after the freed one for its
    buddy, and there is nothing it would have to merge. -/
def Sound (region : Extent) (s : Sys) : Call → Prop
  | .allocPages _ => True
  | .freePages p n => StopsAtOnce s.buddy (blockOrder n) p ∧ (blockOrder n < MAX_ORDER →
      ¬ FreeHead s.buddy region (blockOrder n) (otherHalf region.base (blockOrder n) p))

instance (s : Sys) (c : Call) : Decidable (Legal s c) :=
  match c with
  | .allocPages n => inferInstanceAs (Decidable (0 < n))
  | .freePages p n => inferInstanceAs (Decidable ((p, n) ∈ s.live))

instance (s : Buddy) (o p : Nat) : Decidable (StopsAtOnce s o p) := instDecidableOr

instance (s : Buddy) (region : Extent) (o p : Nat) : Decidable (FreeHead s region o p) := instDecidableAnd

instance (region : Extent) (s : Sys) (c : Call) : Decidable (Sound region s c) :=
  match c with
  | .allocPages _ => inferInstanceAs (Decidable True)
  | .freePages _ _ => instDecidableAnd

def Step (allowed : Sys → Call → Prop) (s t : Sys) : Prop :=
  ∃ c, Legal s c ∧ allowed s c ∧ t = exec s c

/-- The region is given to a fresh manager as `page_init` leaves the descriptors. -/
structure Initial (region : Extent) (s : Sys) : Prop where
  given : ∃ raw : Buddy, (∀ p ∈ region, (raw.pages p).pgReserved = true ∧ (raw.pages p).pgProperty = false) ∧
    buddyInitMemmap (buddyInit raw) region.base region.len = .ok s.buddy
  live : s.live = []

/-- The extents of the blocks handed out. -/
def liveBlocks (live : List (Nat × Nat)) : List Extent := live.map fun e => block (blockOrder e.2) e.1

/-- What a state of the buddy manager should be. -/
def WellFormed (region : Extent) (s : Sys) : Prop :=
  ∃ free : Nat → List Nat,
    (∀ o ≤ MAX_ORDER, IsRing s.buddy.links (.freeList o) ((free o).map .pageLink)) ∧
    (∀ o ≤ MAX_ORDER, ∀ p ∈ free o, (s.buddy.pages p).property = 2 ^ o ∧
      region.base ≤ p ∧ 2 ^ o ∣ p - region.base ∧ p + 2 ^ o ≤ region.stop) ∧
    (∀ o ≤ MAX_ORDER, ∀ p ∈ free o, ∀ o' ≤ MAX_ORDER, ∀ p' ∈ free o', (o, p) ≠ (o', p') →
      (block o p).Apart (block o' p')) ∧
    (∀ e ∈ liveBlocks s.live, ∀ o ≤ MAX_ORDER, ∀ p ∈ free o, e.Apart (block o p)) ∧
    Merged region.base free ∧
    buddyNrFreePages s.buddy + total (liveBlocks s.live) = region.len

structure Inv (region : Extent) (s : Sys) (free : Nat → List Nat) : Prop where
  core : Core s.buddy region free (liveBlocks s.live)
  merged : Merged region.base free
  known : ∀ e ∈ s.live, blockOrder e.2 ≤ MAX_ORDER ∧ 2 ^ blockOrder e.2 ∣ e.1 - region.base

theorem nrFreePages_eq (core : Core s region free taken) : buddyNrFreePages s = freePages free := by
  have small := core.small
  have account := core.account
  have same : ((List.range (MAX_ORDER + 1)).map fun i => s.nrFree i * 2 ^ i).sum = freePages free := by
    rw [freePages, ← List.sum_toFinset _ List.nodup_range, List.toFinset_range]
    refine Finset.sum_congr rfl fun o inside => ?_
    rw [core.count o (by simpa [Nat.lt_succ_iff] using inside)]
  rw [buddyNrFreePages, same]
  exact Nat.mod_eq_of_lt (by omega)

theorem Inv.wellFormed {s : Sys} (inv : Inv region s free) : WellFormed region s := by
  have core := inv.core
  refine ⟨free, core.ring, fun o _ p member => ⟨(core.property o p member).1, core.aligned o p member⟩,
    fun o _ p member o' _ p' member' => core.apart o p member o' p' member',
    fun e here o _ p member => core.takenApart e here o p member, inv.merged, ?_⟩
  rw [nrFreePages_eq core]
  exact core.account

theorem step_inv {s t : Sys} (inv : Inv region s free) (taken : Step (Sound region) s t) :
    ∃ free', Inv region t free' := by
  obtain ⟨c, legal, sound, rfl⟩ := taken
  cases c with
  | allocPages n =>
      rcases buddyAllocPages_core (n := n) inv.core inv.merged with ⟨refused, same⟩ |
        ⟨page, free', given, known, aligned, core, merged⟩
      · refine ⟨free, ?_⟩
        simp only [exec, refused, same, Option.elim_none]
        exact inv
      · refine ⟨free', ?_⟩
        simp only [exec, given, Option.elim_some]
        refine ⟨core, merged, fun e here => ?_⟩
        rcases List.mem_cons.mp here with rfl | old
        · exact ⟨known, aligned⟩
        · exact inv.known e old
  | freePages p n =>
      have held := List.perm_cons_erase legal
      have core := inv.core.perm (held.map fun e : Nat × Nat => block (blockOrder e.2) e.1)
      obtain ⟨known, aligned⟩ := inv.known (p, n) legal
      obtain ⟨free', core', merged'⟩ := buddyFreePages_core core inv.merged known aligned sound.1 sound.2
      exact ⟨free', core', merged', fun e here => inv.known e (List.mem_of_mem_erase here)⟩

theorem initial_inv {s : Sys} (whole : 2 ^ lowerOrder region.len MAX_ORDER ∣ region.len)
    (small : region.len < 2 ^ 64) (initial : Initial region s) : ∃ free, Inv region s free := by
  obtain ⟨⟨raw, fresh, runs⟩, live⟩ := initial
  obtain ⟨-, runs⟩ := assert_bind_ok.mp runs
  obtain ⟨count, size⟩ := whole
  have known := lowerOrder_le region.len MAX_ORDER
  have fits : count ≤ region.len := by
    have := Nat.le_mul_of_pos_left count (Nat.two_pow_pos (lowerOrder region.len MAX_ORDER))
    omega
  have start := buddyInit_core small fun p within => (fresh p within).2
  have entire : region = ⟨region.base + 0, count * 2 ^ lowerOrder region.len MAX_ORDER⟩ := by
    rw [Nat.mul_comm, ← size]
    rfl
  have whole : Core (buddyInit raw) region (fun _ => [])
      [⟨region.base + 0, count * 2 ^ lowerOrder region.len MAX_ORDER⟩] := entire ▸ start
  obtain ⟨t, free, loop, core, only⟩ := initLoop_core known rfl count (region.len + 1) region.len (by omega)
    (by rw [Nat.zero_add, Nat.mul_comm]; exact size.symm) (Nat.dvd_zero _) whole (fun _ _ => rfl)
  have same : s.buddy = t := Except.ok.inj (runs.symm.trans loop)
  refine ⟨free, by rw [live, same]; exact core, ?_, by simp [live]⟩
  intro o below p member _ pair
  by_cases same : o = lowerOrder region.len MAX_ORDER
  · have short := lt_lowerOrder (same ▸ below)
    rw [← same, Nat.pow_succ] at short
    have lower := core.aligned o p member
    have upper := core.aligned o _ pair
    simp only [Extent.stop] at upper
    omega
  · rw [only o same] at member
    cases member

/-- In a run whose frees all stop at once and have nothing to merge, every state is as
    it should be. -/
theorem soundRun_wellFormed {s : Sys} (whole : 2 ^ lowerOrder region.len MAX_ORDER ∣ region.len)
    (small : region.len < 2 ^ 64) (run : Reachable (Initial region) (Step (Sound region)) s) :
    WellFormed region s := by
  obtain ⟨free, inv⟩ := run.invariant (fun s => ∃ free, Inv region s free)
    (fun s initial => initial_inv whole small initial)
    fun s t ⟨free, inv⟩ taken => step_inv inv taken
  exact inv.wellFormed

/-! ## Concrete runs -/

def trial (allowed : Sys → Call → Prop) [∀ s c, Decidable (allowed s c)] (s : Sys) (c : Call) : Option Sys :=
  if Legal s c ∧ allowed s c then some (exec s c) else none

theorem trial_step {allowed : Sys → Call → Prop} [∀ s c, Decidable (allowed s c)] (s : Sys) (c : Call)
    (t : Sys) (taken : trial allowed s c = some t) : Step allowed s t := by
  unfold trial at taken
  split at taken
  · rename_i fine
    exact ⟨c, fine.1, fine.2, (Option.some.inj taken).symm⟩
  · cases taken

/-- Two pages, given to a fresh manager. -/
def booted : Sys where
  buddy := ((buddyInitMemmap (buddyInit ⟨fun _ => ⟨0, true, false, 0⟩, ⟨id, id⟩, fun _ => 0⟩) 0 2).toOption).getD
    ⟨fun _ => ⟨0, true, false, 0⟩, ⟨id, id⟩, fun _ => 0⟩
  live := []

theorem booted_initial : Initial ⟨0, 2⟩ booted := ⟨⟨_, fun _ _ => ⟨rfl, rfl⟩, rfl⟩, rfl⟩

/-- Both pages are handed out one by one, the first one comes back. -/
theorem soundRun_freeFirst : ∃ s, play (trial (Sound ⟨0, 2⟩)) booted
    [.allocPages 1, .allocPages 1, .freePages 0 1] = some s ∧ s.live = [(1, 1)] ∧ WellFormed ⟨0, 2⟩ s := by
  have played : (play (trial (Sound ⟨0, 2⟩)) booted
      [.allocPages 1, .allocPages 1, .freePages 0 1]).map Sys.live = some [(1, 1)] := by
    decide +kernel
  obtain ⟨s, played, live⟩ := Option.map_eq_some_iff.mp played
  exact ⟨s, played, live, soundRun_wellFormed (by decide +kernel) (by decide)
    (play_reachable trial_step (.start booted_initial) played)⟩

/-- One page is taken off the pair and freed again: the halves stay apart. -/
theorem allocFree_not_wellFormed : ¬∀ region s, 2 ^ lowerOrder region.len MAX_ORDER ∣ region.len →
    region.len < 2 ^ 64 → Reachable (Initial region) (Step fun _ _ => True) s → WellFormed region s := by
  intro always
  have played : (play (trial fun _ _ => True) booted [.allocPages 1, .freePages 0 1]).map (fun s =>
      (s.buddy.links.next (.freeList 0), s.buddy.links.next (.pageLink 0))) =
        some (.pageLink 0, .pageLink 1) := by
    decide +kernel
  obtain ⟨s, played, links⟩ := Option.map_eq_some_iff.mp played
  simp only [Prod.mk.injEq] at links
  obtain ⟨free, rings, -, -, -, merged, -⟩ := always ⟨0, 2⟩ s (by decide +kernel) (by decide)
    (play_reachable trial_step (.start booted_initial) played)
  have ring := rings 0 (Nat.zero_le _)
  have first := (ring.prev_next List.mem_cons_self).1
  rw [links.1] at first
  have second := (ring.prev_next first).1
  rw [links.2] at second
  exact merged 0 (by decide) 0 (by simpa using first) (Nat.dvd_zero _) (by simpa using second)

end Ucore.Mm.BuddyRuns
