import Ucore.Lib.Run
import Ucore.Mm.FirstFit
import Ucore.Mm.Mmu

/-! # Runs of the first-fit manager

The manager together with the page ranges it was given and the blocks its callers
hold. Calls come in any order; a caller frees only what it holds.
-/

namespace Ucore.Mm.FirstFitRuns

open Lib.Run Lib.Ring Lib.Extents Libs.Assert Libs.List Mmu DefaultPmm FirstFit

/-- The length of the array of page descriptors. -/
def pageCount : Nat := npage - nbase

structure Sys where
  pmm : Pmm
  given : List Extent
  live : List Extent

inductive Call where
  | initMemmap (e : Extent)
  | allocPages (n : Nat)
  | freePages (e : Extent)
  deriving DecidableEq, Repr

def exec (fuel : Nat) (s : Sys) : Call → Result Sys
  | .initMemmap e => do
      let pmm ← defaultInitMemmap fuel s.pmm e.base e.len
      pure { s with pmm := pmm, given := e :: s.given }
  | .allocPages n => do
      let (page, pmm) ← defaultAllocPages fuel s.pmm n
      pure { s with pmm := pmm, live := page.elim s.live fun p => ⟨p, n⟩ :: s.live }
  | .freePages e => do
      let pmm ← defaultFreePages fuel s.pmm e.base e.len
      pure { s with pmm := pmm, live := s.live.erase e }

/-- What the callers promise: nonempty requests, disjoint ranges of existing pages,
    and no free but of a live block. -/
def Legal (s : Sys) : Call → Prop
  | .initMemmap e => 0 < e.len ∧ e.stop ≤ pageCount ∧ ∀ g ∈ s.given, g.Apart e
  | .allocPages n => 0 < n
  | .freePages e => e ∈ s.live

instance (s : Sys) : (c : Call) → Decidable (Legal s c)
  | .initMemmap e => inferInstanceAs (Decidable (0 < e.len ∧ e.stop ≤ pageCount ∧ ∀ g ∈ s.given, g.Apart e))
  | .allocPages n => inferInstanceAs (Decidable (0 < n))
  | .freePages e => inferInstanceAs (Decidable (e ∈ s.live))

/-- The free list is empty, or its last block begins above `base`. -/
def roomAbove (s : Pmm) (base : Nat) : Bool :=
  listEmpty s.links .freeList ||
    match s.links.prev .freeList with
    | .freeList => false
    | .pageLink last => base < last

/-- The block a call inserts does not belong behind the last one. -/
def insertsBelowLast (s : Sys) : Call → Bool
  | .initMemmap e => roomAbove s.pmm e.base
  | .allocPages _ => true
  | .freePages e => roomAbove s.pmm e.base

/-- `default_init` after `page_init` has reserved every page. -/
def Initial (s : Sys) : Prop :=
  ∃ pmm, s = ⟨defaultInit pmm, [], []⟩ ∧ ∀ i < pageCount, (pmm.pages i).pgReserved = true

/-- One call that its caller may make, among those the run allows. -/
def Step (fuel : Nat) (allowed : Sys → Call → Bool) (s t : Sys) : Prop :=
  ∃ c, Legal s c ∧ allowed s c = true ∧ exec fuel s c = .ok t

/-- The free list is well formed and holds the blocks `bs`. -/
structure Holds (s : Pmm) (bs : List Extent) : Prop where
  ring : IsRing s.links .freeList (entries bs)
  ordered : Ordered bs
  head : ∀ b ∈ bs, (s.pages b.base).pgProperty = true ∧ (s.pages b.base).property = b.len
  nrFree : defaultNrFreePages s = total bs

/-- The free list is well formed, and no page is in two of the free and the live
    blocks. -/
def WellFormed (s : Sys) : Prop :=
  ∃ bs, Holds s.pmm bs ∧ bs.Pairwise Extent.Apart ∧ s.live.Pairwise Extent.Apart ∧
    ∀ l ∈ s.live, ∀ b ∈ bs, l.Apart b

/-- Between two states, the block `e` became free and was merged with every free
    block that touches it. -/
def Merged (s t : Sys) (e : Extent) : Prop :=
  ∃ bs bs', Holds s.pmm bs ∧ Holds t.pmm bs' ∧ (∃ m ∈ bs', ∀ i ∈ e, i ∈ m) ∧
    ∀ f ∈ bs, f.stop = e.base ∨ e.stop = f.base → ∃ m ∈ bs', ∀ i, i ∈ e ∨ i ∈ f → i ∈ m

/-- The invariant of the runs: the pages given are split between the free and the
    live blocks' owners, and only pages not given are reserved. -/
structure Inv (s : Sys) (bs : List Extent) : Prop where
  list : FreeList (fun i => ∃ g ∈ s.given, i ∈ g) s.pmm bs
  bounded : ∀ g ∈ s.given, g.stop ≤ pageCount
  live : s.live.Pairwise Extent.Apart
  positive : ∀ l ∈ s.live, 0 < l.len
  apart : ∀ l ∈ s.live, ∀ b ∈ bs, l.Apart b
  owned : ∀ l ∈ s.live, ∀ i ∈ l, ∃ g ∈ s.given, i ∈ g
  usable : ∀ i, (∃ g ∈ s.given, i ∈ g) → (s.pmm.pages i).pgReserved = false
  reserved : ∀ i < pageCount, ¬(∃ g ∈ s.given, i ∈ g) → (s.pmm.pages i).pgReserved = true

namespace Inv

variable {s : Sys} {bs : List Extent}

theorem managed_bound (inv : Inv s bs) {b : Extent} (member : b ∈ bs) : b.stop ≤ pageCount := by
  have positive := inv.list.ordered.positive b member
  obtain ⟨g, given, inside⟩ := inv.list.managed b member (b.base + b.len - 1) (by
    simp only [Extent.mem_def]
    omega)
  have := inv.bounded g given
  simp only [Extent.stop, Extent.mem_def] at *
  omega

theorem live_bound (inv : Inv s bs) {l : Extent} (held : l ∈ s.live) : l.stop ≤ pageCount := by
  have positive := inv.positive l held
  obtain ⟨g, given, inside⟩ := inv.owned l held (l.base + l.len - 1) (by
    simp only [Extent.mem_def]
    omega)
  have := inv.bounded g given
  simp only [Extent.stop, Extent.mem_def] at *
  omega

/-- A new block finds its place, and the counters do not overflow there. -/
theorem place (inv : Inv s bs) {e : Extent} (positive : 0 < e.len) (bound : e.stop ≤ pageCount)
    (apart : ∀ b ∈ bs, b.Apart e) {fuel : Nat} (enough : pageCount < fuel) :
    ∃ lo hi, bs = lo ++ hi ∧ Ordered (lo ++ e :: hi) ∧ total (lo ++ hi) + e.len < 2 ^ 32 ∧
      lo.length < fuel := by
  obtain ⟨lo, hi, rfl, placed⟩ := inv.list.ordered.split positive apart
  have below : ∀ b ∈ lo ++ e :: hi, b.stop ≤ pageCount := by
    intro b member
    by_cases same : b = e
    · exact same ▸ bound
    · refine inv.managed_bound ?_
      simp only [List.mem_append, List.mem_cons] at member ⊢
      tauto
  have fits := placed.total_le 0 (fun _ _ => Nat.zero_le _) below (Nat.zero_le _)
  have short := (Ordered.append_iff.mp placed).1.length_le_total
  have size : pageCount = 32768 := by decide +kernel
  simp only [total_append, total_cons] at fits ⊢
  exact ⟨lo, hi, rfl, placed, by omega, by omega⟩

theorem holds (inv : Inv s bs) : Holds s.pmm bs where
  ring := inv.list.ring
  ordered := inv.list.ordered
  head b member := by
    have positive := inv.list.ordered.positive b member
    have owned := inv.list.managed b member b.base (by simp [Extent.mem_def, positive])
    exact ⟨(inv.list.heads b.base owned).mpr (List.mem_map_of_mem member),
      inv.list.property b member⟩
  nrFree := inv.list.nrFree

theorem wellFormed (inv : Inv s bs) : WellFormed s :=
  ⟨bs, inv.holds, inv.list.ordered.increasing.imp fun h => Or.inl h, inv.live, inv.apart⟩

end Inv

theorem roomAbove_iff {owned : Nat → Prop} {s : Pmm} {bs : List Extent} {base : Nat}
    (list : FreeList owned s bs) : roomAbove s base = true ↔ NotLast bs base := by
  rw [roomAbove, Bool.or_eq_true, listEmpty_iff list.ring]
  rcases List.eq_nil_or_concat bs with rfl | ⟨lo, last, rfl⟩
  · simp [NotLast]
  · rw [List.concat_eq_append] at list ⊢
    have ring := list.ring
    rw [entries_append, entries_cons, entries_nil] at ring
    rw [ring.prev_head_concat]
    simp only [entries_append, entries_cons, entries_nil, List.append_eq_nil_iff, List.cons_ne_nil,
      and_false, false_or, decide_eq_true_eq, NotLast]
    constructor
    · intro above
      exact ⟨last, by simp, above⟩
    · rintro ⟨h, member, above⟩
      by_cases same : h = last
      · exact same ▸ above
      · have inFront : h ∈ lo := by simpa [same] using member
        have := (Ordered.append_iff.mp list.ordered).2.2 h inFront last (by simp)
        simp only [Extent.stop] at this
        omega

theorem defaultInit_inv {s : Sys} (initial : Initial s) : Inv s [] := by
  obtain ⟨pmm, rfl, reserved⟩ := initial
  refine ⟨⟨listInit_ring pmm.links .freeList, Ordered.nil, by simp, rfl, by simp, by simp, ?_⟩,
    by simp, by simp, by simp, by simp, by simp, by simp, fun i inside _ => reserved i inside⟩
  simp

theorem initMemmap_step {s : Sys} {bs : List Extent} {e : Extent} {fuel : Nat} (inv : Inv s bs)
    (legal : Legal s (.initMemmap e)) (room : roomAbove s.pmm e.base = true)
    (enough : pageCount < fuel) :
    ∃ t bs', exec fuel s (.initMemmap e) = .ok t ∧ Inv t bs' := by
  obtain ⟨positive, bound, fresh⟩ := legal
  have outside : ∀ i ∈ e, ¬∃ g ∈ s.given, i ∈ g := by
    rintro i inside ⟨g, given, inGiven⟩
    have := fresh g given
    simp only [Extent.Apart, Extent.stop, Extent.mem_def] at *
    omega
  have apart : ∀ b : Extent, 0 < b.len → (∀ i ∈ b, ∃ g ∈ s.given, i ∈ g) → b.Apart e := by
    intro b nonempty owned
    rw [Extent.apart_iff_disjoint nonempty positive]
    exact fun i both => outside i both.2 (owned i both.1)
  have apartFree : ∀ b ∈ bs, b.Apart e := fun b member =>
    apart b (inv.list.ordered.positive b member) (inv.list.managed b member)
  obtain ⟨lo, hi, rfl, placed, small, short⟩ := inv.place positive bound apartFree enough
  have reserved : ∀ i ∈ e, (s.pmm.pages i).pgReserved = true := fun i inside =>
    inv.reserved i (by simp only [Extent.stop, Extent.mem_def] at *; omega) (outside i inside)
  obtain ⟨pmm, run, list, flags⟩ := defaultInitMemmap_spec inv.list placed reserved
    ((roomAbove_iff inv.list).mp room) small short
  have owns : (fun i => (∃ g ∈ s.given, i ∈ g) ∨ i ∈ e) = fun i => ∃ g ∈ e :: s.given, i ∈ g := by
    funext i
    simp only [List.mem_cons, or_and_right, exists_or, exists_eq_left]
    rw [or_comm]
  rw [owns] at list
  refine ⟨{ s with pmm := pmm, given := e :: s.given }, _, ?_, list, ?_, inv.live, inv.positive,
    ?_, ?_, ?_, ?_⟩
  · simp only [exec, run]
    rfl
  · intro g given
    rcases List.mem_cons.mp given with rfl | given
    · exact bound
    · exact inv.bounded g given
  · intro l held b member
    by_cases same : b = e
    · exact same ▸ apart l (inv.positive l held) (inv.owned l held)
    · refine inv.apart l held b ?_
      simp only [List.mem_append, List.mem_cons] at member ⊢
      tauto
  · intro l held i inside
    obtain ⟨g, given, inGiven⟩ := inv.owned l held i inside
    exact ⟨g, List.mem_cons_of_mem _ given, inGiven⟩
  · rintro i ⟨g, given, inside⟩
    rw [flags]
    rcases List.mem_cons.mp given with rfl | given
    · exact if_pos inside
    · split
      · rfl
      · exact inv.usable i ⟨g, given, inside⟩
  · intro i bounded notGiven
    have notInside : i ∉ e := fun inside => notGiven ⟨e, by simp, inside⟩
    rw [flags, if_neg notInside]
    refine inv.reserved i bounded ?_
    rintro ⟨g, given, inside⟩
    exact notGiven ⟨g, List.mem_cons_of_mem _ given, inside⟩

theorem allocPages_step {s : Sys} {bs : List Extent} {n fuel : Nat} (inv : Inv s bs)
    (positive : 0 < n) (enough : pageCount < fuel) :
    ∃ t bs', exec fuel s (.allocPages n) = .ok t ∧ Inv t bs' := by
  have scan : findFit s.pmm n fuel .freeList =
      .ok ((bs.find? fun b => n ≤ b.len).map Extent.base) := by
    refine findFit_spec [] inv.list.ring inv.list.property ?_
    have short := inv.list.ordered.length_le_total
    have fits := inv.list.ordered.total_le 0 (fun _ _ => Nat.zero_le _)
      (fun b member => inv.managed_bound member) (Nat.zero_le _)
    omega
  have refused : defaultAllocPages fuel s.pmm n = .ok (none, s.pmm) →
      exec fuel s (.allocPages n) = .ok s := by
    intro none
    simp only [exec, none]
    rfl
  by_cases short : s.pmm.nrFree < n
  · refine ⟨s, bs, refused ?_, inv⟩
    rw [defaultAllocPages, assert_bind positive, if_pos short]
    rfl
  cases found : bs.find? fun b => n ≤ b.len with
  | none =>
      refine ⟨s, bs, refused ?_, inv⟩
      rw [defaultAllocPages, assert_bind positive, if_neg short, scan, found]
      rfl
  | some b =>
      obtain ⟨fits, lo, hi, rfl, -⟩ := List.find?_eq_some_iff_append.mp found
      have fits : n ≤ b.len := by simpa using fits
      have run : exec fuel s (.allocPages n) =
          .ok { s with pmm := takeFrom s.pmm b.base n, live := ⟨b.base, n⟩ :: s.live } := by
        simp only [exec]
        rw [defaultAllocPages, assert_bind positive, if_neg short, scan, found]
        rfl
      have taken : ∀ {i : Nat}, i ∈ (⟨b.base, n⟩ : Extent) → i ∈ b := by
        intro i inside
        simp only [Extent.mem_def] at *
        omega
      -- what stays free was free before, and outside the pages taken
      have remains : ∀ c ∈ lo ++ (rest b n ++ hi), c.Apart ⟨b.base, n⟩ ∧
          ∀ l ∈ s.live, l.Apart c := by
        intro c member
        rcases List.mem_append.mp member with inLo | member
        · refine ⟨?_, fun l held => inv.apart l held c (by simp [inLo])⟩
          exact Or.inl ((Ordered.append_iff.mp inv.list.ordered).2.2 c inLo b (by simp))
        rcases List.mem_append.mp member with inRest | inHi
        · unfold rest at inRest
          split at inRest
          · rw [List.mem_singleton.mp inRest]
            refine ⟨Or.inr le_rfl, fun l held => ?_⟩
            have := inv.apart l held b (by simp)
            simp only [Extent.Apart, Extent.stop] at *
            omega
          · simp at inRest
        · refine ⟨Or.inr ?_, fun l held => inv.apart l held c (by simp [inHi])⟩
          have := (Ordered.cons_iff.mp (Ordered.append_iff.mp inv.list.ordered).2.1).2.1 c inHi
          simp only [Extent.stop] at *
          omega
      refine ⟨_, lo ++ (rest b n ++ hi), run, takeFrom_spec inv.list positive fits, inv.bounded,
        ?_, ?_, ?_, ?_, ?_, ?_⟩
      · refine List.pairwise_cons.mpr ⟨fun l held => ?_, inv.live⟩
        have := inv.apart l held b (by simp)
        simp only [Extent.Apart, Extent.stop] at *
        omega
      · intro l held
        rcases List.mem_cons.mp held with rfl | held
        · exact positive
        · exact inv.positive l held
      · intro l held c member
        rcases List.mem_cons.mp held with rfl | held
        · exact (remains c member).1.symm
        · exact (remains c member).2 l held
      · intro l held i inside
        rcases List.mem_cons.mp held with rfl | held
        · exact inv.list.managed b (by simp) i (taken inside)
        · exact inv.owned l held i inside
      · intro i given
        exact (takeFrom_reserved ..).trans (inv.usable i given)
      · intro i bounded notGiven
        exact (takeFrom_reserved ..).trans (inv.reserved i bounded notGiven)

theorem freePages_step {s : Sys} {bs : List Extent} {e : Extent} {fuel : Nat} (inv : Inv s bs)
    (held : e ∈ s.live) (room : roomAbove s.pmm e.base = true) (enough : pageCount < fuel) :
    ∃ t bs', exec fuel s (.freePages e) = .ok t ∧ Inv t bs' ∧ Merged s t e := by
  have positive := inv.positive e held
  have owns := inv.owned e held
  obtain ⟨lo, hi, rfl, placed, small, short⟩ := inv.place positive (inv.live_bound held)
    (fun b member => (inv.apart e held b member).symm) enough
  obtain ⟨pmm, run, list, flags, -⟩ := defaultFreePages_spec inv.list placed owns
    (fun i inside => inv.usable i (owns i inside)) ((roomAbove_iff inv.list).mp room) small short
  have still : ∀ l ∈ s.live.erase e, l ∈ s.live := fun l => List.mem_of_mem_erase
  -- distinct live blocks are apart, so the freed one is not among the rest
  have gone : ∀ l ∈ s.live.erase e, l.Apart e := by
    have split := (List.perm_cons_erase held).pairwise_iff (R := Extent.Apart) fun h => h.symm
    exact fun l member => ((List.pairwise_cons.mp (split.mp inv.live)).1 l member).symm
  have next : Inv { s with pmm := pmm, live := s.live.erase e } (coalesce lo e hi) := by
    refine ⟨list, inv.bounded, inv.live.sublist List.erase_sublist,
      fun l member => inv.positive l (still l member), fun l member b merged => ?_,
      fun l member => inv.owned l (still l member), fun i given => (flags i).trans (inv.usable i given),
      fun i bounded notGiven => (flags i).trans (inv.reserved i bounded notGiven)⟩
    have nonempty := inv.positive l (still l member)
    rw [Extent.apart_iff_disjoint nonempty (list.ordered.positive b merged)]
    rintro i ⟨inLive, inBlock⟩
    have away : ∀ c : Extent, 0 < c.len → l.Apart c → i ∉ c := fun c filled apart inside =>
      (Extent.apart_iff_disjoint nonempty filled).mp apart i ⟨inLive, inside⟩
    rcases (coalesce_covers lo e hi i).mp ⟨b, merged, inBlock⟩ with ⟨c, inLo, inside⟩ | inside | ⟨c, inHi, inside⟩
    · exact away c (placed.positive c (by simp [inLo]))
        (inv.apart l (still l member) c (by simp [inLo])) inside
    · exact away e positive (gone l member) inside
    · exact away c (placed.positive c (by simp [inHi]))
        (inv.apart l (still l member) c (by simp [inHi])) inside
  refine ⟨_, _, ?_, next, lo ++ hi, _, inv.holds, next.holds, ?_, ?_⟩
  · simp only [exec, run]
    rfl
  · exact coalesce_keeps lo e hi
  · intro f member touch
    refine coalesce_absorbs placed ?_
    have filled := placed.positive f (by
      simp only [List.mem_append, List.mem_cons] at member ⊢
      tauto)
    obtain ⟨-, right, across⟩ := Ordered.append_iff.mp placed
    rcases List.mem_append.mp member with inLo | inHi
    · have := across f inLo e (by simp)
      simp only [Extent.stop] at *
      exact Or.inl ⟨inLo, by omega⟩
    · have := (Ordered.cons_iff.mp right).2.1 f inHi
      simp only [Extent.stop] at *
      exact Or.inr ⟨inHi, by omega⟩

theorem safeStep_inv {s t : Sys} {bs : List Extent} {fuel : Nat} (inv : Inv s bs)
    (enough : pageCount < fuel) (taken : Step fuel insertsBelowLast s t) : ∃ bs', Inv t bs' := by
  obtain ⟨c, legal, below, run⟩ := taken
  have unique : ∀ {u : Sys}, exec fuel s c = .ok u → u = t := fun other =>
    Except.ok.inj (other.symm.trans run)
  cases c with
  | initMemmap e =>
      obtain ⟨u, bs', other, next⟩ := initMemmap_step inv legal below enough
      exact ⟨bs', unique other ▸ next⟩
  | allocPages n =>
      obtain ⟨u, bs', other, next⟩ := allocPages_step inv legal enough
      exact ⟨bs', unique other ▸ next⟩
  | freePages e =>
      obtain ⟨u, bs', other, next, -⟩ := freePages_step inv legal below enough
      exact ⟨bs', unique other ▸ next⟩

theorem safeRun_inv {s : Sys} {fuel : Nat} (enough : pageCount < fuel)
    (reached : Reachable Initial (Step fuel insertsBelowLast) s) : ∃ bs, Inv s bs := by
  refine reached.invariant (fun s => ∃ bs, Inv s bs) (fun s initial => ?_) fun s t inv taken => ?_
  · exact ⟨[], defaultInit_inv initial⟩
  · obtain ⟨bs, inv⟩ := inv
    exact safeStep_inv inv enough taken

/-- In a run that inserts no block behind the last free one, every state is well
    formed; the next such call returns, and a free merges. -/
theorem safeRun_wellFormed {s : Sys} {fuel : Nat} (enough : pageCount < fuel)
    (reached : Reachable Initial (Step fuel insertsBelowLast) s) :
    WellFormed s ∧ ∀ c, Legal s c → insertsBelowLast s c = true →
      ∃ t, exec fuel s c = .ok t ∧ WellFormed t ∧ ∀ e, c = .freePages e → Merged s t e := by
  obtain ⟨bs, inv⟩ := safeRun_inv enough reached
  refine ⟨inv.wellFormed, fun c legal below => ?_⟩
  cases c with
  | initMemmap e =>
      obtain ⟨t, bs', run, next⟩ := initMemmap_step inv legal below enough
      exact ⟨t, run, next.wellFormed, by simp⟩
  | allocPages n =>
      obtain ⟨t, bs', run, next⟩ := allocPages_step inv legal enough
      exact ⟨t, run, next.wellFormed, by simp⟩
  | freePages e =>
      obtain ⟨t, bs', run, next, merged⟩ := freePages_step inv legal below enough
      refine ⟨t, run, next.wellFormed, fun e' same => ?_⟩
      obtain rfl : e = e' := by simpa using same
      exact merged

/-! ## Concrete runs -/

def trial (fuel : Nat) (allowed : Sys → Call → Bool) (s : Sys) (c : Call) : Option Sys :=
  if Legal s c ∧ allowed s c = true then (exec fuel s c).toOption else none

theorem trial_step {fuel : Nat} {allowed : Sys → Call → Bool} (s : Sys) (c : Call) (t : Sys)
    (taken : trial fuel allowed s c = some t) : Step fuel allowed s t := by
  unfold trial at taken
  split at taken
  · rename_i fine
    exact ⟨c, fine.1, fine.2, toOption_some.mp taken⟩
  · cases taken

/-- After `page_init` and `default_init`. -/
def booted : Sys := ⟨defaultInit ⟨fun _ => ⟨0, true, false, 0⟩, ⟨id, id⟩, 0⟩, [], []⟩

theorem booted_initial : Initial booted := ⟨_, rfl, fun _ _ => rfl⟩

/-- Three pages, the first two handed out and the first of these freed again. -/
theorem safeRun_wellFormed_freeFirst : ∃ s, play (trial 32769 insertsBelowLast) booted
    [.initMemmap ⟨0, 3⟩, .allocPages 1, .allocPages 1, .freePages ⟨0, 1⟩] = some s ∧
      s.live = [⟨1, 1⟩] ∧ WellFormed s := by
  have played : (play (trial 32769 insertsBelowLast) booted
      [.initMemmap ⟨0, 3⟩, .allocPages 1, .allocPages 1, .freePages ⟨0, 1⟩]).map Sys.live =
        some [⟨1, 1⟩] := by
    decide +kernel
  obtain ⟨s, played, live⟩ := Option.map_eq_some_iff.mp played
  exact ⟨s, played, live,
    (safeRun_wellFormed (by decide +kernel) (play_reachable trial_step (.start booted_initial) played)).1⟩

/-- Freed behind the first page, the third one becomes its own predecessor. -/
theorem freeFirstThenLast_not_wellFormed :
    ¬∀ s, Reachable Initial (Step 32769 fun _ _ => true) s → WellFormed s := by
  intro always
  have played : (play (trial 32769 fun _ _ => true) booted [.initMemmap ⟨0, 3⟩,
      .allocPages 1, .allocPages 1, .allocPages 1, .freePages ⟨0, 1⟩, .freePages ⟨2, 1⟩]).map (fun s =>
        (s.pmm.links.next .freeList, s.pmm.links.next (.pageLink 0), s.pmm.links.prev (.pageLink 2)))
      = some (.pageLink 0, .pageLink 2, .pageLink 2) := by
    decide +kernel
  obtain ⟨s, played, links⟩ := Option.map_eq_some_iff.mp played
  simp only [Prod.mk.injEq] at links
  obtain ⟨first, second, third⟩ := links
  obtain ⟨bs, holds, -⟩ := always s (play_reachable trial_step (.start booted_initial) played)
  have onRing := (holds.ring.prev_next List.mem_cons_self).1
  rw [first] at onRing
  have back := (holds.ring.prev_next onRing).2
  rw [second, third] at back
  simp at back

end Ucore.Mm.FirstFitRuns
