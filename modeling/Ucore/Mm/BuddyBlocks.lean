import Ucore.Lib.Extents
import Ucore.Mm.BuddyPmm

/-! # The blocks of the buddy manager

The free blocks of each order, and the blocks that are taken: handed out, or in the
middle of being split. Taking a block off its list, halving a taken block and putting
one on a list each keep what is true of all blocks together.
-/

namespace Ucore.Mm.BuddyBlocks

open Lib.Ring Lib.Extents Libs.Assert Libs.List BuddyPmm

/-- The block of an order that begins at a page. -/
def block (order p : Nat) : Extent := ⟨p, 2 ^ order⟩

theorem block_apart {o o' p p' : Nat} :
    (block o p).Apart (block o' p') ↔ p + 2 ^ o ≤ p' ∨ p' + 2 ^ o' ≤ p := Iff.rfl

/-- The pages of the free blocks, by order. -/
def freePages (free : Nat → List Nat) : Nat := ∑ o ∈ Finset.range (MAX_ORDER + 1), (free o).length * 2 ^ o

/-- The free blocks and the taken extents make up the region. -/
structure Core (s : Buddy) (region : Extent) (free : Nat → List Nat) (taken : List Extent) : Prop where
  ring : ∀ o ≤ MAX_ORDER, IsRing s.links (.freeList o) ((free o).map .pageLink)
  none : ∀ o, MAX_ORDER < o → free o = []
  count : ∀ o ≤ MAX_ORDER, s.nrFree o = (free o).length
  property : ∀ o, ∀ p ∈ free o, (s.pages p).property = 2 ^ o ∧ (s.pages p).pgProperty = true
  flags : ∀ p ∈ region, (s.pages p).pgProperty = true → ∃ o, p ∈ free o
  aligned : ∀ o, ∀ p ∈ free o, region.base ≤ p ∧ 2 ^ o ∣ p - region.base ∧ p + 2 ^ o ≤ region.stop
  apart : ∀ o, ∀ p ∈ free o, ∀ o', ∀ p' ∈ free o', (o, p) ≠ (o', p') → (block o p).Apart (block o' p')
  takenApart : ∀ e ∈ taken, ∀ o, ∀ p ∈ free o, e.Apart (block o p)
  takenPairs : taken.Pairwise Extent.Apart
  takenInside : ∀ e ∈ taken, region.base ≤ e.base ∧ e.stop ≤ region.stop
  account : freePages free + total taken = region.len
  small : region.len < 2 ^ 64

theorem freePages_update (free : Nat → List Nat) {o : Nat} (known : o ≤ MAX_ORDER) (ps : List Nat) :
    freePages (Function.update free o ps) + (free o).length * 2 ^ o =
      freePages free + ps.length * 2 ^ o := by
  have inside : o ∈ Finset.range (MAX_ORDER + 1) := Finset.mem_range.mpr (by omega)
  have moved := Finset.sum_erase_add _ (fun i => (Function.update free o ps i).length * 2 ^ i) inside
  have before := Finset.sum_erase_add _ (fun i => (free i).length * 2 ^ i) inside
  have same : ∑ i ∈ (Finset.range (MAX_ORDER + 1)).erase o, (Function.update free o ps i).length * 2 ^ i =
      ∑ i ∈ (Finset.range (MAX_ORDER + 1)).erase o, (free i).length * 2 ^ i :=
    Finset.sum_congr rfl fun i other => by rw [Function.update_of_ne (Finset.ne_of_mem_erase other)]
  rw [Function.update_self] at moved
  simp only [freePages]
  omega

theorem mem_add {free : Nat → List Nat} {o o' p q : Nat} :
    q ∈ Function.update free o (p :: free o) o' ↔ o' = o ∧ q = p ∨ q ∈ free o' := by
  by_cases same : o' = o
  · subst same
    simp
  · simp [same]

theorem mem_remove {free : Nat → List Nat} {o o' p q : Nat} {rest : List Nat} (front : free o = p :: rest)
    (nodup : (free o).Nodup) :
    q ∈ Function.update free o rest o' ↔ q ∈ free o' ∧ ¬ (o' = o ∧ q = p) := by
  by_cases same : o' = o
  · subst same
    rw [front] at nodup ⊢
    have away := (List.nodup_cons.mp nodup).1
    by_cases itself : q = p
    · simp [itself, away]
    · simp [itself]
  · simp [same]

theorem pageLink_injective : Function.Injective Entry.pageLink := fun _ _ same => Entry.pageLink.inj same

namespace Core

variable {s : Buddy} {region : Extent} {free : Nat → List Nat} {taken : List Extent} {o p : Nat}

theorem known (core : Core s region free taken) (member : p ∈ free o) : o ≤ MAX_ORDER := by
  by_contra above
  rw [core.none o (by omega)] at member
  cases member

/-- A page is the head of one free block at most. -/
theorem unique (core : Core s region free taken) {o' : Nat} (first : p ∈ free o) (second : p ∈ free o') :
    o = o' := by
  by_contra other
  have apart := core.apart o p first o' p second (by simp [other])
  rw [block_apart] at apart
  have := Nat.two_pow_pos o
  have := Nat.two_pow_pos o'
  omega

theorem disjoint (core : Core s region free taken) {o' : Nat} (other : o ≠ o') :
    (Entry.freeList o :: (free o).map .pageLink).Disjoint (.freeList o' :: (free o').map .pageLink) := by
  intro e first second
  cases e with
  | freeList i =>
      have here : i = o := by simpa using first
      have there : i = o' := by simpa using second
      exact other (here.symm.trans there)
  | pageLink q => exact other (core.unique (p := q) (by simpa using first) (by simpa using second))

/-- A block in hand is no free block's. -/
theorem not_free (core : Core s region free (block o p :: taken)) (o' : Nat) : p ∉ free o' := by
  intro member
  have apart := core.takenApart (block o p) (by simp) o' p member
  rw [block_apart] at apart
  have := Nat.two_pow_pos o
  have := Nat.two_pow_pos o'
  omega

/-- Put a block on its list. -/
theorem add (core : Core s region free (block o p :: taken)) (known : o ≤ MAX_ORDER)
    (aligned : 2 ^ o ∣ p - region.base) :
    Core (addBlock s o p) region (Function.update free o (p :: free o)) taken := by
  have fresh := core.not_free
  have inside := core.takenInside (block o p) (by simp)
  have account := core.account
  have moved := freePages_update free known (p :: free o)
  have positive := Nat.two_pow_pos o
  rw [List.length_cons, Nat.add_mul, Nat.one_mul] at moved
  rw [total_cons] at account
  have size : (block o p).len = 2 ^ o := rfl
  have other : ∀ o', ∀ q ∈ free o', q ≠ p := fun o' q member same => fresh o' (same ▸ member)
  have offRing : ∀ o', Entry.pageLink p ∉ Entry.freeList o' :: (free o').map .pageLink := by
    intro o'
    simpa using fresh o'
  have total : freePages (Function.update free o (p :: free o)) + Lib.Extents.total taken = region.len := by
    omega
  have room : (free o).length + 1 < 2 ^ 64 := by
    have part : (free o).length * 2 ^ o ≤ freePages free :=
      Finset.single_le_sum (f := fun i => (free i).length * 2 ^ i) (fun _ _ => Nat.zero_le _)
        (Finset.mem_range.mpr (by omega))
    have small := core.small
    have := Nat.le_mul_of_pos_right ((free o).length + 1) positive
    rw [Nat.add_mul, Nat.one_mul] at this
    omega
  refine
    { ring := fun o' knownOther => ?_
      none := fun o' above => ?_
      count := fun o' knownOther => ?_
      property := fun o' q member => ?_
      flags := fun q within flagged => ?_
      aligned := fun o' q member => ?_
      apart := fun o' q member o'' q' member' different => ?_
      takenApart := fun e here o' q member => ?_
      takenPairs := (List.pairwise_cons.mp core.takenPairs).2
      takenInside := fun e here => core.takenInside e (by simp [here])
      account := total
      small := core.small }
  · by_cases same : o' = o
    · subst same
      rw [Function.update_self, List.map_cons]
      exact (core.ring o' known).insert_first (offRing o')
    · rw [Function.update_of_ne same]
      exact listAdd_frame (core.ring o known) (core.ring o' knownOther) (core.disjoint (Ne.symm same))
        (offRing o')
  · rw [Function.update_of_ne (by omega)]
    exact core.none o' above
  · by_cases same : o' = o
    · subst same
      simp only [addBlock, Function.update_self, inc64, core.count o' known, List.length_cons]
      exact Nat.mod_eq_of_lt room
    · simp only [addBlock, Function.update_of_ne same]
      exact core.count o' knownOther
  · rcases mem_add.mp member with ⟨same, itself⟩ | old
    · simp [addBlock, Buddy.setPage, same, itself]
    · simp only [addBlock, Buddy.setPage, Function.update_of_ne (other o' q old)]
      exact core.property o' q old
  · by_cases itself : q = p
    · exact ⟨o, mem_add.mpr (Or.inl ⟨rfl, itself⟩)⟩
    · have before : (s.pages q).pgProperty = true := by
        simpa [addBlock, Buddy.setPage, Function.update_of_ne itself] using flagged
      obtain ⟨o', member⟩ := core.flags q within before
      exact ⟨o', mem_add.mpr (Or.inr member)⟩
  · rcases mem_add.mp member with ⟨rfl, rfl⟩ | old
    · exact ⟨inside.1, aligned, inside.2⟩
    · exact core.aligned o' q old
  · have apart := core.takenApart (block o p) (by simp)
    rcases mem_add.mp member with ⟨rfl, rfl⟩ | old
    · rcases mem_add.mp member' with ⟨rfl, rfl⟩ | old'
      · exact absurd rfl different
      · exact apart o'' q' old'
    · rcases mem_add.mp member' with ⟨rfl, rfl⟩ | old'
      · exact (apart o' q old).symm
      · exact core.apart o' q old o'' q' old' different
  · rcases mem_add.mp member with ⟨rfl, rfl⟩ | old
    · exact ((List.pairwise_cons.mp core.takenPairs).1 e here).symm
    · exact core.takenApart e (by simp [here]) o' q old

theorem nodup (core : Core s region free taken) (known : o ≤ MAX_ORDER) : (free o).Nodup :=
  (List.nodup_map_iff pageLink_injective).mp (core.ring o known).nodes_nodup

/-- Take the first block off its list. -/
theorem remove (core : Core s region free taken) {rest : List Nat} (front : free o = p :: rest) :
    Core (removeBlock s o p) region (Function.update free o rest) (block o p :: taken) := by
  have member : p ∈ free o := by simp [front]
  have known := core.known member
  have moved := freePages_update free known rest
  have account := core.account
  have mem : ∀ o' q, q ∈ Function.update free o rest o' ↔ q ∈ free o' ∧ ¬ (o' = o ∧ q = p) :=
    fun _ _ => mem_remove front (core.nodup known)
  have kept : ∀ o' q, q ∈ Function.update free o rest o' → q ∈ free o' ∧ q ≠ p := by
    intro o' q left
    obtain ⟨old, other⟩ := (mem o' q).mp left
    exact ⟨old, fun itself => other ⟨core.unique (itself ▸ old) member, itself⟩⟩
  rw [front, List.length_cons, Nat.add_mul, Nat.one_mul] at moved
  have size : (block o p).len = 2 ^ o := rfl
  refine
    { ring := fun o' knownOther => ?_
      none := fun o' above => ?_
      count := fun o' knownOther => ?_
      property := fun o' q left => ?_
      flags := fun q within flagged => ?_
      aligned := fun o' q left => core.aligned o' q (kept o' q left).1
      apart := fun o' q left o'' q' left' =>
        core.apart o' q (kept o' q left).1 o'' q' (kept o'' q' left').1
      takenApart := fun e here o' q left => ?_
      takenPairs := List.pairwise_cons.mpr ⟨fun e here => (core.takenApart e here o p member).symm,
        core.takenPairs⟩
      takenInside := fun e here => ?_
      account := by rw [total_cons]; omega
      small := core.small }
  · by_cases same : o' = o
    · subst same
      rw [Function.update_self]
      have ring := core.ring o' known
      rw [front, List.map_cons] at ring
      exact listDel_ring (show IsRing _ _ ([] ++ Entry.pageLink p :: _) from ring)
    · rw [Function.update_of_ne same]
      exact listDel_frame (core.ring o known) (core.ring o' knownOther) (core.disjoint (Ne.symm same))
        (List.mem_cons_of_mem _ (List.mem_map_of_mem member))
  · rw [Function.update_of_ne (by omega)]
    exact core.none o' above
  · by_cases same : o' = o
    · subst same
      have count := core.count o' known
      have part : (free o').length * 2 ^ o' ≤ freePages free :=
        Finset.single_le_sum (f := fun i => (free i).length * 2 ^ i) (fun _ _ => Nat.zero_le _)
          (Finset.mem_range.mpr (by omega))
      have small := core.small
      have := Nat.le_mul_of_pos_right (free o').length (Nat.two_pow_pos o')
      rw [front, List.length_cons] at count this
      simp only [removeBlock, Function.update_self, dec64, count]
      rw [show rest.length + 1 + (2 ^ 64 - 1) = rest.length + 2 ^ 64 by omega, Nat.add_mod_right]
      refine Nat.mod_eq_of_lt ?_
      rw [front, List.length_cons] at part
      omega
    · simp only [removeBlock, Function.update_of_ne same]
      exact core.count o' knownOther
  · obtain ⟨old, other⟩ := kept o' q left
    simp only [removeBlock, Buddy.setPage, Function.update_of_ne other]
    exact core.property o' q old
  · have other : q ≠ p := fun itself => by simp [removeBlock, Buddy.setPage, itself] at flagged
    have before : (s.pages q).pgProperty = true := by
      simpa [removeBlock, Buddy.setPage, Function.update_of_ne other] using flagged
    obtain ⟨o', old⟩ := core.flags q within before
    exact ⟨o', (mem o' q).mpr ⟨old, fun both => other both.2⟩⟩
  · obtain ⟨old, other⟩ := kept o' q left
    rcases List.mem_cons.mp here with rfl | before
    · exact core.apart o p member o' q old fun same => other (Prod.mk.inj same).2.symm
    · exact core.takenApart e before o' q old
  · rcases List.mem_cons.mp here with rfl | before
    · have bounds := core.aligned o p member
      exact ⟨bounds.1, bounds.2.2⟩
    · exact core.takenInside e before

/-- Cut a taken extent in two. -/
theorem cut {base m len : Nat} (core : Core s region free (⟨base, m + len⟩ :: taken)) :
    Core s region free (⟨base, m⟩ :: ⟨base + m, len⟩ :: taken) := by
  obtain ⟨first, others⟩ := List.pairwise_cons.mp core.takenPairs
  have whole : ∀ o, ∀ p ∈ free o, base + (m + len) ≤ p ∨ p + 2 ^ o ≤ base :=
    core.takenApart ⟨base, m + len⟩ (by simp)
  have inside := core.takenInside ⟨base, m + len⟩ (by simp)
  simp only [Extent.Apart, Extent.stop] at first inside
  refine { core with
    takenApart := fun e here o p member => ?_
    takenPairs := ?_
    takenInside := fun e here => ?_
    account := ?_ }
  · rcases List.mem_cons.mp here with rfl | later
    · exact (whole o p member).imp (fun before => show base + m ≤ p by omega) id
    · rcases List.mem_cons.mp later with rfl | old
      · exact (whole o p member).imp (fun before => show base + m + len ≤ p by omega)
          (fun after => show p + 2 ^ o ≤ base + m by exact Nat.le_trans after (by omega))
      · exact core.takenApart e (by simp [old]) o p member
  · refine List.pairwise_cons.mpr ⟨fun e here => ?_, List.pairwise_cons.mpr ⟨fun e here => ?_, others⟩⟩
    · rcases List.mem_cons.mp here with rfl | old
      · exact Or.inl (Nat.le_refl _)
      · exact (first e old).imp (fun before => show base + m ≤ e.base by omega) id
    · exact (first e here).imp (fun before => show base + m + len ≤ e.base by omega)
        (fun after => show e.base + e.len ≤ base + m by omega)
  · rcases List.mem_cons.mp here with rfl | later
    · exact ⟨inside.1, show base + m ≤ region.base + region.len by omega⟩
    · rcases List.mem_cons.mp later with rfl | old
      · exact ⟨show region.base ≤ base + m by omega, show base + m + len ≤ region.base + region.len by omega⟩
      · exact core.takenInside e (by simp [old])
  · have account := core.account
    simp only [total_cons] at account ⊢
    omega

theorem drop {base : Nat} (core : Core s region free (⟨base, 0⟩ :: taken)) : Core s region free taken :=
  { core with
    takenApart := fun e here => core.takenApart e (by simp [here])
    takenPairs := (List.pairwise_cons.mp core.takenPairs).2
    takenInside := fun e here => core.takenInside e (by simp [here])
    account := by simpa using core.account }

/-- The descriptor of a page that is no head may change, as long as it does not look like one. -/
theorem reset (core : Core s region free taken) (away : ∀ o, p ∉ free o) {page : Page}
    (unmarked : page.pgProperty = false) : Core (s.setPage p page) region free taken := by
  refine { core with
    property := fun o q member => ?_
    flags := fun q within flagged => ?_ }
  · have other : q ≠ p := fun same => away o (same ▸ member)
    simp only [Buddy.setPage, Function.update_of_ne other]
    exact core.property o q member
  · have other : q ≠ p := fun same => by simp [Buddy.setPage, same, unmarked] at flagged
    exact core.flags q within (by simpa [Buddy.setPage, Function.update_of_ne other] using flagged)

/-- The order in which the taken extents are listed does not matter. -/
theorem perm {taken' : List Extent} (core : Core s region free taken) (same : taken.Perm taken') :
    Core s region free taken' :=
  { core with
    takenApart := fun e here => core.takenApart e (same.mem_iff.mpr here)
    takenPairs := (same.pairwise_iff Extent.Apart.symm).mp core.takenPairs
    takenInside := fun e here => core.takenInside e (same.mem_iff.mpr here)
    account := by rw [← core.account, total, total, (same.map _).sum_eq] }

end Core

/-! ## Buddies -/

/-- The other half of the pair a block belongs to. -/
def otherHalf (base o p : Nat) : Nat := if 2 ^ (o + 1) ∣ p - base then p + 2 ^ o else p - 2 ^ o

/-- Below the maximal order, no pair has both of its halves free. -/
def Merged (base : Nat) (free : Nat → List Nat) : Prop :=
  ∀ o < MAX_ORDER, ∀ p ∈ free o, 2 ^ (o + 1) ∣ p - base → p + 2 ^ o ∉ free o

theorem upper_half {base o p : Nat} (above : base ≤ p) (lower : 2 ^ (o + 1) ∣ p - base) :
    otherHalf base o (p + 2 ^ o) = p := by
  have odd : ¬ 2 ^ (o + 1) ∣ p + 2 ^ o - base := by
    rw [show p + 2 ^ o - base = (p - base) + 2 ^ o by omega, Nat.dvd_add_right lower]
    intro divides
    have := Nat.le_of_dvd (Nat.two_pow_pos o) divides
    rw [Nat.pow_succ] at this
    have := Nat.two_pow_pos o
    omega
  rw [otherHalf, if_neg odd]
  omega

theorem Merged.add {base o p : Nat} {free : Nat → List Nat} (merged : Merged base free)
    (above : ∀ q ∈ free o, base ≤ q) (alone : o < MAX_ORDER → otherHalf base o p ∉ free o) :
    Merged base (Function.update free o (p :: free o)) := by
  intro o' below q member lower pair
  rw [mem_add] at member pair
  have positive := Nat.two_pow_pos o'
  rcases member with ⟨rfl, rfl⟩ | old
  · have free' := alone below
    rw [otherHalf, if_pos lower] at free'
    rcases pair with ⟨-, itself⟩ | old
    · omega
    · exact free' old
  · rcases pair with ⟨rfl, rfl⟩ | old'
    · have free' := alone below
      rw [upper_half (above q old) lower] at free'
      exact free' old
    · exact merged o' below q old lower old'

theorem Merged.remove {base o : Nat} {free : Nat → List Nat} {p : Nat} {rest : List Nat}
    (merged : Merged base free) (front : free o = p :: rest) : Merged base (Function.update free o rest) := by
  have kept : ∀ o' q, q ∈ Function.update free o rest o' → q ∈ free o' := by
    intro o' q left
    by_cases same : o' = o
    · subst same
      rw [Function.update_self] at left
      simp [front, left]
    · rwa [Function.update_of_ne same] at left
  exact fun o' below q left lower pair => merged o' below q (kept o' q left) lower (kept o' _ pair)

end Ucore.Mm.BuddyBlocks
