import Ucore.Libs.Assert
import Ucore.Libs.List

/-! # The clock swap manager

`swap_clock.c` of lab 3. The list runs through the `pra_page_link` fields, the page
added last behind the head. The loop of `_clock_swap_out_victim` walks it from its
oldest page and takes every entry it meets for a page's, the list head as well.
-/

namespace Ucore.Mm.SwapClock

open Lib.Ring Libs.Assert Libs.List

inductive Entry where
  | praListHead
  | praPageLink (page : Nat)
  deriving DecidableEq, Repr

/-- The links, and the word at the place of `visited` in the descriptor that `le2page`
    makes of an entry. For the list head this is some other word of memory. -/
structure Clock where
  links : Links Entry
  visited : Entry → Nat

def clockInitMm (s : Clock) : Clock := { s with links := listInit s.links .praListHead }

def clockMapSwappable (s : Clock) (page : Nat) : Clock where
  links := listAdd s.links .praListHead (.praPageLink page)
  visited := Function.update s.visited (.praPageLink page) 1

/-- The loop of `_clock_swap_out_victim`: the entry whose page is returned, the state,
    and the entries that were taken for a page's on the way. -/
def victimLoop : Nat → Entry → Clock → Result (Entry × Clock × List Entry)
  | 0, _, _ => .error .fuel
  | fuel + 1, temp, s =>
      let current := s.links.prev temp
      if s.visited current = 0 then .ok (current, { s with links := listDel s.links current }, [current])
      else do
        let visited := if s.visited current = 1 then Function.update s.visited current 0 else s.visited
        let (page, t, seen) ← victimLoop fuel current { s with visited := visited }
        pure (page, t, current :: seen)

def clockSwapOutVictim (fuel : Nat) (s : Clock) (inTick : Int) : Result (Entry × Clock × List Entry) := do
  assert (inTick = 0)
  victimLoop fuel .praListHead s

/-! ## The list of pages -/

/-- The entries of pages that are given with the oldest one first. -/
def entries (order : List Nat) : List Entry := order.reverse.map .praPageLink

/-- The list holds the pages, in the order in which they were made swappable. -/
def Swappable (s : Clock) (order : List Nat) : Prop := IsRing s.links .praListHead (entries order)

variable {s : Clock} {order : List Nat}

theorem clockInitMm_swappable (raw : Clock) : Swappable (clockInitMm raw) [] := listInit_ring raw.links .praListHead

theorem clockMapSwappable_swappable (swappable : Swappable s order) {page : Nat} (fresh : page ∉ order) :
    Swappable (clockMapSwappable s page) (order ++ [page]) := by
  have ring : IsRing s.links .praListHead (entries order) := swappable
  have off : Entry.praPageLink page ∉ Entry.praListHead :: entries order := by simpa [entries] using fresh
  have added := ring.insert_first off
  rwa [Swappable, entries, List.reverse_append, List.reverse_singleton, List.singleton_append, List.map_cons]

theorem Swappable.nodup (swappable : Swappable s order) : order.Nodup := by
  have ring : IsRing s.links .praListHead (entries order) := swappable
  exact List.nodup_reverse.mp ring.nodes_nodup.of_map

/-- The walk goes from one page to the next younger one, and from the last page to the head. -/
theorem Swappable.prev {done rest : List Nat} (swappable : Swappable s (done ++ rest)) :
    s.links.prev ((done.getLast?.map .praPageLink).getD .praListHead) =
      (rest.head?.map .praPageLink).getD .praListHead := by
  have ring : IsRing s.links .praListHead (entries rest ++ entries done) := by
    simpa [Swappable, entries] using swappable
  simpa [entries] using ring.prev_after

theorem Swappable.evict {before after : List Nat} {page : Nat} (swappable : Swappable s (before ++ page :: after))
    (visited : Entry → Nat) :
    Swappable ⟨listDel s.links (.praPageLink page), visited⟩ (before ++ after) := by
  have ring : IsRing s.links .praListHead (entries after ++ .praPageLink page :: entries before) := by
    simpa [Swappable, entries] using swappable
  have removed := listDel_ring ring
  simpa [Swappable, entries] using removed

/-! ## The walk -/

theorem victimLoop_spec {done : List Nat} (passed : List Nat) {victim : Nat} {after : List Nat}
    (swappable : Swappable s (done ++ (passed ++ victim :: after)))
    (spared : ∀ p ∈ passed, s.visited (.praPageLink p) = 1) (chosen : s.visited (.praPageLink victim) = 0)
    {fuel : Nat} (enough : passed.length < fuel) :
    victimLoop fuel ((done.getLast?.map .praPageLink).getD .praListHead) s =
      .ok (.praPageLink victim,
        { links := listDel s.links (.praPageLink victim)
          visited := fun e => if e ∈ passed.map .praPageLink then 0 else s.visited e },
        (passed ++ [victim]).map .praPageLink) := by
  induction passed generalizing done s fuel with
  | nil =>
      obtain ⟨fuel, rfl⟩ := Nat.exists_eq_add_of_lt enough
      have prev := swappable.prev
      simp [victimLoop, prev, chosen]
  | cons p passed ih =>
      obtain ⟨fuel, rfl⟩ := Nat.exists_eq_succ_of_ne_zero (Nat.ne_of_gt (Nat.zero_lt_of_lt enough))
      have prev := swappable.prev
      have here := spared p (by simp)
      have distinct := (List.nodup_append.mp swappable.nodup).2.1
      rw [List.cons_append, List.nodup_cons, List.mem_append, List.mem_cons, not_or, not_or] at distinct
      obtain ⟨⟨notPassed, notVictim, -⟩, -⟩ := distinct
      have next := @ih ⟨s.links, Function.update s.visited (.praPageLink p) 0⟩ (done ++ [p])
        (by simpa [Swappable] using swappable)
        (fun q inside => by
          have other : q ≠ p := fun same => notPassed (same ▸ inside)
          simp [other, spared q (by simp [inside])])
        (by simp [Ne.symm notVictim, chosen]) fuel (by simpa using enough)
      rw [List.getLast?_concat, Option.map_some, Option.getD_some] at next
      rw [List.cons_append, List.head?_cons, Option.map_some, Option.getD_some] at prev
      rw [victimLoop, prev]
      simp only [here, next, ok_bind, if_true, Nat.one_ne_zero, if_false]
      have cleared : (fun e => if e ∈ passed.map .praPageLink then 0 else
          Function.update s.visited (.praPageLink p) 0 e) =
          fun e => if e ∈ (p :: passed).map .praPageLink then 0 else s.visited e := by
        funext e
        by_cases itself : e = .praPageLink p
        · simp [itself]
        · simp [itself]
      rw [cleared]
      rfl

/-- When every page has been visited, the walk comes to the list head. -/
theorem victimLoop_head {done : List Nat} (rest : List Nat) (swappable : Swappable s (done ++ rest))
    (spared : ∀ p ∈ rest, s.visited (.praPageLink p) = 1) {fuel : Nat} {page : Entry} {t : Clock} {seen : List Entry}
    (run : victimLoop fuel ((done.getLast?.map .praPageLink).getD .praListHead) s = .ok (page, t, seen)) :
    .praListHead ∈ seen := by
  induction rest generalizing done s fuel page t seen with
  | nil =>
      cases fuel with
      | zero => cases run
      | succ fuel =>
          have prev := swappable.prev
          rw [List.head?_nil, Option.map_none, Option.getD_none] at prev
          rw [victimLoop, prev] at run
          split at run
          · cases run
            exact List.mem_cons_self
          · obtain ⟨⟨page', t', seen'⟩, -, run⟩ := bind_ok.mp run
            cases run
            exact List.mem_cons_self
  | cons p rest ih =>
      cases fuel with
      | zero => cases run
      | succ fuel =>
          have prev := swappable.prev
          have here := spared p (by simp)
          rw [List.head?_cons, Option.map_some, Option.getD_some] at prev
          rw [victimLoop, prev] at run
          simp only [here, if_true, Nat.one_ne_zero, if_false] at run
          obtain ⟨⟨page', t', seen'⟩, walk, run⟩ := bind_ok.mp run
          have distinct := List.nodup_cons.mp (List.nodup_append.mp swappable.nodup).2.1
          have onward := @ih ⟨s.links, Function.update s.visited (.praPageLink p) 0⟩ (done ++ [p])
            (by simpa [Swappable] using swappable)
            (fun q inside => by
              have other : q ≠ p := fun same => distinct.1 (same ▸ inside)
              simp [other, spared q (by simp [inside])])
            fuel page' t' seen'
            (by rwa [List.getLast?_concat, Option.map_some, Option.getD_some])
          cases run
          exact List.mem_cons_of_mem _ onward

/-! ## The victim -/

/-- The page has been visited since it was made swappable or passed over. -/
def Visited (s : Clock) (page : Nat) : Bool := s.visited (.praPageLink page) ≠ 0

/-- What a call should do: it evicts the oldest page that has not been visited, or the
    oldest of all, clears the bit of every page passed over, goes round at most twice,
    and takes nothing but the pages on the list for a page. -/
structure Evicted (s t : Clock) (order : List Nat) (page : Entry) (seen : List Entry) : Prop where
  victim : ∃ v ∈ order, page = .praPageLink v ∧ Swappable t (order.erase v) ∧
    some v = (order.find? (!Visited s ·)).or order.head?
  visited : t.visited = fun e => if e ∈ (order.takeWhile (Visited s)).map .praPageLink then 0 else s.visited e
  rounds : seen.length ≤ 2 * order.length
  inside : ∀ e ∈ seen, e ∈ order.map .praPageLink

/-- A call does so exactly if some page has not been visited. -/
theorem clockSwapOutVictim_evicted_iff (swappable : Swappable s order)
    (bits : ∀ p ∈ order, s.visited (.praPageLink p) = 0 ∨ s.visited (.praPageLink p) = 1) {fuel : Nat}
    (enough : 2 * order.length ≤ fuel) :
    (∃ page t seen, clockSwapOutVictim fuel s 0 = .ok (page, t, seen) ∧ Evicted s t order page seen) ↔
      ∃ p ∈ order, s.visited (.praPageLink p) = 0 := by
  have start : ∀ r, clockSwapOutVictim fuel s 0 = .ok r ↔ victimLoop fuel .praListHead s = .ok r := by
    intro r
    rw [clockSwapOutVictim, assert_bind rfl]
  constructor
  · rintro ⟨page, t, seen, run, evicted⟩
    by_contra all
    have spared : ∀ p ∈ order, s.visited (.praPageLink p) = 1 := fun p member =>
      (bits p member).resolve_left fun zero => all ⟨p, member, zero⟩
    have head := @victimLoop_head s [] order swappable spared _ _ _ _ ((start _).mp run)
    simpa using evicted.inside _ head
  · rintro ⟨p, member, zero⟩
    have found : (order.find? (!Visited s ·)).isSome := by
      rw [List.find?_isSome]
      exact ⟨p, member, by simp [Visited, zero]⟩
    obtain ⟨v, found⟩ := Option.isSome_iff_exists.mp found
    obtain ⟨chosen, before, after, rfl, spared⟩ := List.find?_eq_some_iff_append.mp found
    have chosen : s.visited (.praPageLink v) = 0 := by simpa [Visited] using chosen
    have spared : ∀ q ∈ before, s.visited (.praPageLink q) = 1 := by
      intro q inside
      have nonzero := spared q inside
      rw [Bool.not_not, Visited, decide_eq_true_eq] at nonzero
      exact (bits q (by simp [inside])).resolve_left nonzero
    have passed : (before ++ v :: after).takeWhile (Visited s) = before := by
      rw [List.takeWhile_append_of_pos (fun q inside => by simp [Visited, spared q inside])]
      simp [Visited, chosen]
    have distinct := swappable.nodup
    have notBefore : v ∉ before := fun inside =>
      (List.disjoint_of_nodup_append distinct) inside List.mem_cons_self
    have short : before.length < fuel := by
      simp only [List.length_append, List.length_cons] at enough
      omega
    have run := @victimLoop_spec s [] before v after swappable spared chosen fuel short
    refine ⟨_, _, _, (start _).mpr run, ⟨v, by simp, rfl, ?_, by rw [found]; rfl⟩, ?_, ?_, ?_⟩
    · rw [List.erase_append_right _ notBefore, List.erase_cons_head]
      exact swappable.evict _
    · rw [passed]
    · simp only [List.length_map, List.length_append, List.length_cons, List.length_nil]
      omega
    · intro e inside
      simp only [List.map_append, List.mem_append, List.map_cons, List.mem_cons, List.map_nil, List.not_mem_nil,
        or_false] at inside ⊢
      tauto

/-- Memory as it was before the manager's first call. -/
def raw : Clock := ⟨⟨id, id⟩, fun _ => 5⟩

/-- Pages 4, 7 and 9, of which the second has not been visited. -/
def threePages : Clock :=
  let s := clockMapSwappable (clockMapSwappable (clockMapSwappable (clockInitMm raw) 4) 7) 9
  { s with visited := Function.update s.visited (.praPageLink 7) 0 }

theorem threePages_swappable : Swappable threePages [4, 7, 9] :=
  clockMapSwappable_swappable (clockMapSwappable_swappable (clockMapSwappable_swappable
    (clockInitMm_swappable raw) List.not_mem_nil) (show 7 ∉ [4] by decide)) (show 9 ∉ [4, 7] by decide)

theorem clockSwapOutVictim_evicted_second :
    (∃ page t seen, clockSwapOutVictim 6 threePages 0 = .ok (page, t, seen) ∧
      Evicted threePages t [4, 7, 9] page seen) ↔ ∃ p ∈ [4, 7, 9], threePages.visited (.praPageLink p) = 0 :=
  clockSwapOutVictim_evicted_iff threePages_swappable (by decide) (by decide)

/-- A page that has just been made swappable counts as visited: next comes the list head. -/
theorem onePage_head : ¬∀ (s : Clock) (order : List Nat) (fuel : Nat), order ≠ [] → Swappable s order →
    (∀ p ∈ order, s.visited (.praPageLink p) = 0 ∨ s.visited (.praPageLink p) = 1) → 2 * order.length ≤ fuel →
    ∃ page t seen, clockSwapOutVictim fuel s 0 = .ok (page, t, seen) ∧ Evicted s t order page seen := by
  intro always
  have single : Swappable (clockMapSwappable (clockInitMm raw) 4) [4] :=
    clockMapSwappable_swappable (clockInitMm_swappable raw) List.not_mem_nil
  obtain ⟨page, t, seen, run, evicted⟩ := always (clockMapSwappable (clockInitMm raw) 4) [4] 2 (by decide) single
    (by decide) (by decide)
  rw [clockSwapOutVictim, assert_bind rfl] at run
  have head := @victimLoop_head _ [] [4] single (by decide) 2 page t seen run
  simpa using evicted.inside _ head

end Ucore.Mm.SwapClock
