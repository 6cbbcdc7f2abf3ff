import Ucore.Lib.Cycle
import Ucore.Lib.Extents
import Ucore.Mm.Kmalloc

/-! # The free list of the SLOB allocator

The free blocks as extents in the order of their addresses, linked in a circle, no two of
them adjacent. The loops of `kmalloc.c` go round it from `slobfree`.
-/

namespace Ucore.Mm.SlobHeap

open Lib.Cycle Lib.Extents Libs.Assert Kmalloc

variable {σ : Type} {M : PageAllocator σ} {s t : Slob σ} {lo hi bs : List Extent} {e : Extent}

def bases (bs : List Extent) : List Nat := bs.map Extent.base

@[simp] theorem bases_append (lo hi : List Extent) : bases (lo ++ hi) = bases lo ++ bases hi := List.map_append

@[simp] theorem bases_cons (e : Extent) (bs : List Extent) : bases (e :: bs) = e.base :: bases bs := rfl

@[simp] theorem bases_nil : bases [] = [] := rfl

/-- The first block is the one given apart. -/
structure FreeList (s : Slob σ) (first : Extent) (bs : List Extent) : Prop where
  ring : IsCycle s.next first.base (bases bs)
  positive : ∀ b ∈ first :: bs, 0 < b.len
  gaps : (first :: bs).Pairwise fun a b => a.stop < b.base
  units : ∀ b ∈ first :: bs, s.units b.base = b.len
  slobfree : s.slobfree ∈ bases (first :: bs)

/-! ## The place of a block -/

section Place

variable {b p : Nat} {above below : List Nat}

/-- Going round from the place of a block, one first meets the blocks above it. -/
structure Around (s : Slob σ) (b p : Nat) (above below : List Nat) : Prop where
  cycle : IsCycle s.next p (above ++ below)
  here : p < b
  beyond : ∀ x ∈ above, b < x
  upward : above.Pairwise (· < ·)
  climb : (below ++ [p]).Pairwise (· < ·)

theorem findPlace_here (around : Around s b p above below) (fuel : Nat) : findPlace b s (fuel + 1) p = .ok p := by
  have next := around.cycle.next_head
  rw [findPlace]
  cases above with
  | cons h above =>
      have high := around.beyond h List.mem_cons_self
      rw [List.cons_append, List.head?_cons, Option.getD_some] at next
      rw [next, if_pos ⟨around.here, high⟩]
  | nil =>
      have back : s.next p ≤ p := by
        rw [next]
        cases below with
        | nil => exact le_rfl
        | cons x below =>
            have low := (List.pairwise_cons.mp around.climb).1 p (by simp)
            exact le_of_lt low
      rw [if_neg fun both => absurd both.2 (Nat.not_lt.mpr (back.trans around.here.le)),
        if_pos ⟨back, .inl around.here⟩]

theorem findPlace_skip {cur : Nat} (around : Around s b p above below) (member : cur ∈ above ++ below) (fuel : Nat) :
    findPlace b s (fuel + 1) cur = findPlace b s fuel (s.next cur) := by
  have lower : ∀ x ∈ below ++ [p], x < b := by
    intro x inside
    rcases List.mem_append.mp inside with inBelow | last
    · exact (List.pairwise_append.mp around.climb).2.2 x inBelow p (List.mem_singleton_self p) |>.trans around.here
    · rw [List.mem_singleton.mp last]
      exact around.here
  rw [findPlace]
  rcases List.mem_append.mp member with inAbove | inBelow
  · have high := around.beyond cur inAbove
    obtain ⟨a, c, rfl⟩ := List.append_of_mem inAbove
    have next : s.next cur = (c ++ below).head?.getD p := by
      have cycle := around.cycle
      rw [List.append_assoc, List.cons_append] at cycle
      exact cycle.next_eq
    rw [if_neg fun both => absurd both.1 (Nat.not_lt.mpr high.le), if_neg]
    rintro ⟨down, low | beyond⟩
    · exact absurd low (Nat.not_lt.mpr high.le)
    · cases c with
      | cons h c =>
          rw [List.cons_append, List.head?_cons, Option.getD_some] at next
          have up := (List.pairwise_cons.mp (List.pairwise_append.mp around.upward).2.1).1 h List.mem_cons_self
          rw [next] at down
          exact absurd down (Nat.not_le.mpr up)
      | nil =>
          have inside : s.next cur ∈ below ++ [p] := by
            rw [next]
            cases below with
            | nil => simp
            | cons x below => simp
          exact absurd beyond (Nat.not_lt.mpr (lower _ inside).le)
  · obtain ⟨a, c, rfl⟩ := List.append_of_mem inBelow
    have next : s.next cur = c.head?.getD p := by
      have cycle := around.cycle
      rw [← List.append_assoc] at cycle
      exact cycle.next_eq
    have shape : (a ++ cur :: (c ++ [p])).Pairwise (· < ·) := by simpa using around.climb
    have onward := (List.pairwise_cons.mp (List.pairwise_append.mp shape).2.1).1
    have inside : s.next cur ∈ c ++ [p] := by
      rw [next]
      cases c with
      | nil => simp
      | cons x c => simp
    have up := onward _ inside
    have low := lower (s.next cur) (by simpa using .inr (.inr (by simpa using inside)))
    rw [if_neg fun both => absurd both.2 (Nat.not_lt.mpr low.le), if_neg fun both => absurd both.1 (Nat.not_le.mpr up)]

theorem findPlace_walk (around : Around s b p above below) (rest : List Nat) {cur : Nat} (done : List Nat)
    (split : above ++ below = done ++ cur :: rest) {fuel : Nat} (enough : rest.length + 2 ≤ fuel) :
    findPlace b s fuel cur = .ok p := by
  induction rest generalizing done cur fuel with
  | nil =>
      obtain ⟨fuel, rfl⟩ : ∃ k, fuel = k + 1 + 1 := Nat.exists_eq_add_of_le' enough
      have next : s.next cur = p := by
        have cycle := around.cycle
        rw [split] at cycle
        exact cycle.next_eq
      rw [findPlace_skip around (by simp [split]), next]
      exact findPlace_here around _
  | cons x rest ih =>
      obtain ⟨fuel, rfl⟩ := Nat.exists_eq_succ_of_ne_zero (Nat.ne_of_gt (Nat.zero_lt_of_lt enough))
      have next : s.next cur = x := by
        have cycle := around.cycle
        rw [split] at cycle
        exact cycle.next_eq
      rw [findPlace_skip around (by simp [split]), next]
      exact ih (done ++ [cur]) (by simpa using split) (Nat.le_of_succ_le_succ enough)

/-- The search ends at the place, wherever it starts. -/
theorem findPlace_spec (around : Around s b p above below) {cur : Nat} (member : cur ∈ p :: (above ++ below))
    {fuel : Nat} (enough : (above ++ below).length + 1 ≤ fuel) : findPlace b s fuel cur = .ok p := by
  rcases List.mem_cons.mp member with rfl | inside
  · obtain ⟨fuel, rfl⟩ := Nat.exists_eq_succ_of_ne_zero (Nat.ne_of_gt (Nat.zero_lt_of_lt enough))
    exact findPlace_here around fuel
  · obtain ⟨done, rest, split⟩ := List.append_of_mem inside
    refine findPlace_walk around rest done split ?_
    rw [split, List.length_append, List.length_cons] at enough
    omega

end Place

/-! ## Putting a block back -/

section PutBack

variable {first : Extent}

/-- The block in front of the place for a block that goes behind `lo`. -/
def prevBase (first : Extent) (lo : List Extent) : Nat := (bases lo).getLast?.getD first.base

/-- The block behind the place for a block that goes in front of `hi`. -/
def nextBase (first : Extent) (hi : List Extent) : Nat := (bases hi).head?.getD first.base

theorem FreeList.next_place (list : FreeList s first (lo ++ hi)) : s.next (prevBase first lo) = nextBase first hi := by
  have ring : IsCycle s.next first.base (bases lo ++ bases hi) := bases_append lo hi ▸ list.ring
  exact ring.next_before

theorem prevBase_mem (first : Extent) (lo : List Extent) : prevBase first lo ∈ bases (first :: lo) := by
  obtain ⟨front, last⟩ := cons_concat first.base (bases lo)
  rw [bases_cons, last]
  exact List.mem_append_right _ (List.mem_singleton_self _)

/-- The block has taken in the one it touches on the right. -/
theorem joinNext_spec (list : FreeList s first (lo ++ hi)) (sized : s.units e.base = e.len)
    (above : first.stop < e.base) :
    (joinNext (prevBase first lo) e.base s).units =
        Function.update s.units e.base (joinRight e hi).1.len ∧
      (joinNext (prevBase first lo) e.base s).next =
        Function.update s.next e.base (nextBase first (joinRight e hi).2) := by
  have next := list.next_place
  cases hi with
  | nil =>
      have apart : ¬e.base + s.units e.base = s.next (prevBase first lo) := by
        rw [next]
        simp only [nextBase, bases_nil, List.head?_nil, Option.getD_none, Extent.stop] at above ⊢
        omega
      rw [joinNext, if_neg apart, next]
      refine ⟨?_, rfl⟩
      rw [joinRight, ← sized, Function.update_eq_self]
      rfl
  | cons h hi =>
      have isNext : s.next (prevBase first lo) = h.base := next
      have length : s.units h.base = h.len := list.units h (by simp)
      have stop : e.base + e.len = e.stop := rfl
      rw [joinNext, isNext, sized, stop, joinRight]
      by_cases touch : e.stop = h.base
      · have behind : s.next h.base = nextBase first hi := by
          have ring : IsCycle s.next first.base (bases lo ++ h.base :: bases hi) := by
            have ring := list.ring
            rwa [bases_append, bases_cons] at ring
          exact ring.next_eq
        rw [if_pos touch, if_pos touch]
        simp only [Slob.setNext, Slob.setUnits, isNext, behind, length]
        exact ⟨rfl, trivial⟩
      · rw [if_neg touch, if_neg touch]
        refine ⟨?_, rfl⟩
        rw [← sized, Function.update_eq_self]
        rfl

theorem prevBase_nil (first : Extent) : prevBase first [] = first.base := rfl

theorem prevBase_concat (first : Extent) (lo : List Extent) (q : Extent) : prevBase first (lo ++ [q]) = q.base := by
  rw [prevBase, bases_append, bases_cons, bases_nil, List.getLast?_concat, Option.getD_some]

/-- The block stands between its neighbours, or for those on the right that it has taken in. -/
theorem joinPrev_apart {u : Slob σ} {e₁ : Extent} {old hi₁ : List Extent}
    (ring : IsCycle s.next first.base (bases lo ++ (bases old ++ bases hi₁)))
    (units : u.units = Function.update s.units e₁.base e₁.len)
    (next : u.next = Function.update s.next e₁.base (nextBase first hi₁))
    (sizes : ∀ b ∈ first :: (lo ++ hi₁), s.units b.base = b.len) {live : Nat → Prop}
    (runs : Runs (first :: (lo ++ e₁ :: hi₁)) live)
    (apart : prevBase first lo + u.units (prevBase first lo) ≠ e₁.base) :
    FreeList { joinPrev (prevBase first lo) e₁.base u with slobfree := prevBase first lo } first (lo ++ e₁ :: hi₁) := by
  have distinct : (first.base :: (bases lo ++ ([e₁.base] ++ bases hi₁))).Nodup := by
    have bases := runs.ordered.nodup_bases
    simpa [SlobHeap.bases] using bases
  have place := prevBase_mem first lo
  have fresh : ∀ x ∈ first.base :: (bases lo ++ bases hi₁), x ≠ e₁.base := by
    have perm : ((first.base :: bases lo) ++ e₁.base :: bases hi₁).Perm
        (e₁.base :: ((first.base :: bases lo) ++ bases hi₁)) := List.perm_middle
    rintro x inside rfl
    exact (List.nodup_cons.mp (perm.nodup_iff.mp distinct)).1 inside
  have off : prevBase first lo ≠ e₁.base := fresh _ (List.mem_append_left (bases hi₁) place)
  rw [joinPrev, if_neg apart]
  refine ⟨?_, runs.positive, runs.gaps, fun b inside => ?_, ?_⟩
  · rw [bases_append, bases_cons]
    refine ring.splice distinct (List.isChain_cons_cons.mpr ⟨?_, List.isChain_cons_cons.mpr ⟨?_, .singleton _⟩⟩)
      fun x member other => ?_
    · exact Function.update_self ..
    · refine (Function.update_of_ne (Ne.symm off) ..).trans ?_
      rw [next, Function.update_self]
      rfl
    · refine (Function.update_of_ne other ..).trans ?_
      rw [next, Function.update_of_ne (fresh x member)]
  · change u.units b.base = b.len
    rw [units]
    by_cases same : b = e₁
    · rw [same, Function.update_self]
    · have member : b ∈ first :: (lo ++ hi₁) := by
        simpa [same] using inside
      have away : b.base ≠ e₁.base := fresh _ (by simpa [bases] using List.mem_map_of_mem (f := Extent.base) member)
      rw [Function.update_of_ne away, sizes b member]
  · change prevBase first lo ∈ bases ((first :: lo) ++ e₁ :: hi₁)
    rw [bases_append]
    exact List.mem_append_left _ place

/-- The block in front has taken it in. -/
theorem joinPrev_touch {u : Slob σ} {q e₁ : Extent} {old hi₁ : List Extent}
    (ring : IsCycle s.next first.base (bases (lo ++ [q]) ++ (bases old ++ bases hi₁)))
    (units : u.units = Function.update s.units e₁.base e₁.len)
    (next : u.next = Function.update s.next e₁.base (nextBase first hi₁))
    (sizes : ∀ b ∈ first :: (lo ++ q :: hi₁), s.units b.base = b.len)
    (fresh : ∀ x ∈ first.base :: (bases (lo ++ [q]) ++ bases hi₁), x ≠ e₁.base) {live : Nat → Prop}
    (runs : Runs (first :: (lo ++ join q e₁ :: hi₁)) live) (touch : q.base + u.units q.base = e₁.base) :
    FreeList { joinPrev q.base e₁.base u with slobfree := q.base } first (lo ++ join q e₁ :: hi₁) := by
  have shape : bases (lo ++ join q e₁ :: hi₁) = bases (lo ++ [q]) ++ ([] ++ bases hi₁) := by
    simp [join]
  have place : (bases (lo ++ [q])).getLast?.getD first.base = q.base := prevBase_concat first lo q
  have distinct := runs.ordered.nodup_bases
  rw [joinPrev, if_pos touch]
  refine ⟨?_, runs.positive, runs.gaps, fun b inside => ?_, ?_⟩
  · rw [shape]
    refine ring.splice ?_ ?_ fun x member other => ?_
    · rw [← shape]
      exact distinct
    · rw [place]
      refine List.isChain_cons_cons.mpr ⟨(Function.update_self ..).trans ?_, .singleton _⟩
      change u.next e₁.base = _
      rw [next, Function.update_self]
      rfl
    · rw [place] at other
      refine (Function.update_of_ne other ..).trans ?_
      change u.next x = _
      rw [next, Function.update_of_ne (fresh x member)]
  · change Function.update u.units q.base (u.units q.base + u.units e₁.base) b.base = b.len
    have old : ∀ b ∈ first :: (lo ++ q :: hi₁), u.units b.base = b.len := by
      intro b member
      have node : b.base ∈ first.base :: (bases (lo ++ [q]) ++ bases hi₁) := by
        have mapped : b.base ∈ bases (first :: (lo ++ q :: hi₁)) := List.mem_map_of_mem member
        simpa using mapped
      rw [units, Function.update_of_ne (fresh _ node), sizes b member]
    by_cases same : b = join q e₁
    · subst same
      rw [show (join q e₁).base = q.base from rfl, Function.update_self, old q (by simp), units, Function.update_self]
      rfl
    · have other : b.base ≠ q.base := fun sameBase =>
        same (runs.ordered.base_injective inside (by simp) sameBase)
      rw [Function.update_of_ne other]
      refine old b ?_
      simp only [List.mem_cons, List.mem_append, same, false_or] at inside ⊢
      tauto
  · change q.base ∈ bases (first :: (lo ++ join q e₁ :: hi₁))
    simp [join]

/-- The extent that is put back leaves a gap to the first block. -/
theorem FreeList.putBack (list : FreeList s first (lo ++ hi)) (sized : s.units e.base = e.len)
    (above : first.stop < e.base) (positive : 0 < e.len) (left : ∀ a ∈ lo, a.stop ≤ e.base)
    (right : ∀ c ∈ hi, e.stop ≤ c.base) :
    FreeList (putBack (prevBase first lo) e.base s) first (coalesce lo e hi) := by
  obtain ⟨units, next⟩ := joinNext_spec list sized above
  obtain ⟨base, longer, old, split⟩ := joinRight_split e hi
  have ordered : Ordered ((first :: lo) ++ e :: hi) := by
    have whole : Ordered ((first :: lo) ++ hi) := ⟨list.positive, list.gaps.imp fun gap => le_of_lt gap⟩
    obtain ⟨front, back, across⟩ := Ordered.append_iff.mp whole
    refine Ordered.append_iff.mpr ⟨front, Ordered.cons_iff.mpr ⟨positive, right, back⟩, fun a before c member => ?_⟩
    rcases List.mem_cons.mp member with rfl | behind
    · rcases List.mem_cons.mp before with rfl | inLo
      · exact above.le
      · exact left a inLo
    · exact across a before c behind
  have runs : Runs ((first :: lo) ++ hi) fun i => ∃ b ∈ first :: (lo ++ hi), i ∈ b :=
    ⟨list.positive, list.gaps, fun _ => Iff.rfl⟩
  have joined := runs.coalesce ordered
  rw [coalesce_cons (Nat.ne_of_lt above)] at joined
  have nodes : ((first.base :: bases lo) ++ e.base :: bases hi).Nodup := by
    simpa [bases] using ordered.nodup_bases
  have perm : ((first.base :: bases lo) ++ e.base :: bases hi).Perm
      (e.base :: ((first.base :: bases lo) ++ bases hi)) := List.perm_middle
  have off := (List.nodup_cons.mp (perm.nodup_iff.mp nodes)).1
  rw [Kmalloc.putBack]
  generalize joinNext (prevBase first lo) e.base s = u at units next ⊢
  have sizes : ∀ b ∈ first :: (lo ++ hi), u.units b.base = b.len := by
    intro b member
    have node : b.base ∈ bases (first :: (lo ++ hi)) := List.mem_map_of_mem member
    rw [bases_cons, bases_append, ← List.cons_append] at node
    rw [units, Function.update_of_ne (fun same => off (by rwa [← same])), list.units b member]
  have ring := list.ring
  rw [bases_append] at ring
  have inside : ∀ b ∈ (joinRight e hi).2, b ∈ hi := fun b member => split ▸ List.mem_append_right old member
  have split' : bases hi = bases old ++ bases (joinRight e hi).2 := by rw [← bases_append, ← split]
  rw [split'] at ring off
  generalize he : (joinRight e hi).1 = e₁ at base units
  generalize hh : (joinRight e hi).2 = hi₁ at inside next ring off
  rw [← base] at units next off ⊢
  have fresh : ∀ x ∈ first.base :: (bases lo ++ bases hi₁), x ≠ e₁.base := by
    rintro x member rfl
    simp only [List.cons_append, List.mem_cons, List.mem_append, not_or] at off member
    tauto
  by_cases touch : prevBase first lo + u.units (prevBase first lo) = e₁.base
  · rcases List.eq_nil_or_concat lo with rfl | ⟨lo, q, rfl⟩
    · rw [prevBase_nil, sizes first List.mem_cons_self, base] at touch
      exact absurd touch (Nat.ne_of_lt above)
    · rw [List.concat_eq_append] at *
      have size := sizes q (by simp)
      rw [prevBase_concat, size, base] at touch
      rw [coalesce_touch touch, he, hh] at joined ⊢
      rw [prevBase_concat]
      refine joinPrev_touch ring units next (fun b member => list.units b ?_) fresh joined (by rw [size, touch, base])
      simp only [List.mem_cons, List.mem_append, List.not_mem_nil, or_false] at member ⊢
      have := inside b
      tauto
  · have alone : ∀ q, lo.getLast? = some q → q.stop ≠ e.base := by
      intro q last
      obtain ⟨front, rfl⟩ := List.getLast?_eq_some_iff.mp last
      rw [prevBase_concat, sizes q (by simp), base] at touch
      exact touch
    rw [coalesce_apart alone, he, hh] at joined ⊢
    refine joinPrev_apart ring units next (fun b member => list.units b ?_) joined touch
    simp only [List.mem_cons, List.mem_append] at member ⊢
    have := inside b
    tauto

theorem putBack_units {cur b x : Nat} (offCur : x ≠ cur) (offBlock : x ≠ b) :
    (Kmalloc.putBack cur b s).units x = s.units x := by
  have first : (joinNext cur b s).units x = s.units x := by
    rw [joinNext]
    split
    · exact Function.update_of_ne offBlock ..
    · rfl
  refine Eq.trans ?_ first
  rw [Kmalloc.putBack, joinPrev]
  split
  · exact Function.update_of_ne offCur ..
  · rfl

theorem putBack_rest (cur b : Nat) (s : Slob σ) :
    (Kmalloc.putBack cur b s).bigblocks = s.bigblocks ∧ (Kmalloc.putBack cur b s).pmm = s.pmm := by
  have first : (joinNext cur b s).bigblocks = s.bigblocks ∧ (joinNext cur b s).pmm = s.pmm := by
    rw [joinNext]
    split
    · exact ⟨rfl, rfl⟩
    · exact ⟨rfl, rfl⟩
  rw [Kmalloc.putBack, joinPrev]
  split
  · exact first
  · exact first

end PutBack

/-! ## `slob_free` -/

section Free

variable {first : Extent}

theorem FreeList.ordered (list : FreeList s first bs) : Ordered (first :: bs) :=
  ⟨list.positive, list.gaps.imp fun gap => le_of_lt gap⟩

theorem FreeList.ascending (list : FreeList s first bs) : (bases (first :: bs)).Pairwise (· < ·) := by
  refine List.pairwise_map.mpr (list.gaps.imp fun {a b} gap => ?_)
  exact (Nat.le_add_right a.base a.len).trans_lt gap

theorem around_place (list : FreeList s first (lo ++ hi)) (above : first.base < e.base)
    (left : ∀ a ∈ lo, a.base < e.base) (right : ∀ c ∈ hi, e.base < c.base) :
    ∃ front, first.base :: bases lo = front ++ [prevBase first lo] ∧
      Around s e.base (prevBase first lo) (bases hi) front := by
  obtain ⟨front, last⟩ : ∃ front, first.base :: bases lo = front ++ [prevBase first lo] :=
    cons_concat first.base (bases lo)
  have sorted : ((front ++ [prevBase first lo]) ++ bases hi).Pairwise (· < ·) := by
    have ascending := list.ascending
    rwa [bases_cons, bases_append, ← List.cons_append, last] at ascending
  obtain ⟨climb, upward, -⟩ := List.pairwise_append.mp sorted
  refine ⟨front, last, ?_, ?_, fun x inside => ?_, upward, climb⟩
  · have ring := list.ring
    rcases List.eq_nil_or_concat lo with rfl | ⟨lo, q, rfl⟩
    · obtain rfl : front = [] := by simpa [prevBase_nil] using last
      simpa [prevBase_nil] using ring
    · rw [List.concat_eq_append] at *
      rw [bases_append, bases_append, List.append_assoc] at ring
      have turned := IsCycle.rotate (e := q.base) ring
      rw [prevBase_concat] at last ⊢
      have start : first.base :: bases lo = front := by
        apply @List.append_cancel_right _ _ [q.base]
        rw [← last, bases_append, List.cons_append]
        rfl
      rwa [start] at turned
  · obtain ⟨a, member, same⟩ := List.mem_map.mp (prevBase_mem first lo)
    rw [← same]
    rcases List.mem_cons.mp member with rfl | inLo
    · exact above
    · exact left a inLo
  · obtain ⟨c, member, rfl⟩ := List.mem_map.mp inside
    exact right c member

theorem len_le_of_sub {m : Extent} (positive : 0 < e.len) (all : ∀ i ∈ e, i ∈ m) : e.len ≤ m.len := by
  have low := (all e.base ⟨le_rfl, Nat.lt_add_of_pos_right positive⟩).1
  have high := (all (e.base + e.len - 1) ⟨by omega, by simp only [Extent.stop]; omega⟩).2
  simp only [Extent.stop] at high
  omega

/-- What is known of the machine after `slob_free`. -/
structure Freed (s : Slob σ) (first e : Extent) (bs : List Extent) (t : Slob σ) (bs' : List Extent) : Prop where
  list : FreeList t first bs'
  covers : ∀ i, (∃ b ∈ bs', i ∈ b) ↔ (∃ b ∈ bs, i ∈ b) ∨ i ∈ e
  keeps : ∃ m ∈ bs', e.len ≤ m.len
  total : total bs' = total bs + e.len
  units : ∀ x, x ∉ e → (∀ b ∈ first :: bs, x ∉ b) → t.units x = s.units x
  bigblocks : t.bigblocks = s.bigblocks
  pmm : t.pmm = s.pmm
  length : bs'.length ≤ bs.length + 1

theorem slobFree_spec {size : Nat} (list : FreeList s first bs)
    (sized : if size ≠ 0 then slobUnits size = e.len else s.units e.base = e.len) (positive : 0 < e.len)
    (above : first.stop < e.base) (apart : ∀ b ∈ bs, b.Apart e) {fuel : Nat} (enough : bs.length + 1 ≤ fuel) :
    ∃ t bs', slobFree fuel e.base size s = .ok t ∧ Freed s first e bs t bs' := by
  have start : e.base ∈ e := ⟨le_rfl, Nat.lt_add_of_pos_right positive⟩
  obtain ⟨-, behind, ordered⟩ := Ordered.cons_iff.mp list.ordered
  obtain ⟨lo, hi, rfl, placed⟩ := ordered.split positive apart
  obtain ⟨front, back, across⟩ := Ordered.append_iff.mp placed
  obtain ⟨-, right, -⟩ := Ordered.cons_iff.mp back
  have left : ∀ a ∈ lo, a.stop ≤ e.base := fun a inside => across a inside e List.mem_cons_self
  have below : ∀ a ∈ first :: lo, a.base < e.base := by
    intro a inside
    rcases List.mem_cons.mp inside with rfl | inside
    · exact (Nat.le_add_right ..).trans_lt above
    · exact (Nat.lt_add_of_pos_right (front.positive a inside)).trans_le (left a inside)
  have beyond : ∀ c ∈ hi, e.base < c.base :=
    fun c inside => (Nat.lt_add_of_pos_right positive).trans_le (right c inside)
  have outside : ∀ b ∈ first :: (lo ++ hi), b.base ∉ e := by
    intro b inside member
    rw [Extent.mem_def] at member
    rcases List.mem_append.mp (show b ∈ (first :: lo) ++ hi from inside) with low | high
    · exact absurd (below b low) (Nat.not_lt.mpr member.1)
    · exact absurd (right b high) (Nat.not_le.mpr member.2)
  generalize hu : (if size ≠ 0 then s.setUnits e.base (slobUnits size) else s) = u
  have same : ∀ x, x ∉ e → u.units x = s.units x := by
    intro x away
    rw [← hu]
    split
    · exact Function.update_of_ne (fun here : x = e.base => away (here ▸ start)) ..
    · rfl
  have rest : u.next = s.next ∧ u.slobfree = s.slobfree ∧ u.bigblocks = s.bigblocks ∧ u.pmm = s.pmm := by
    rw [← hu]
    split
    · exact ⟨rfl, rfl, rfl, rfl⟩
    · exact ⟨rfl, rfl, rfl, rfl⟩
  have here : u.units e.base = e.len := by
    rw [← hu]
    split
    · rename_i given
      rw [if_pos given] at sized
      exact (Function.update_self ..).trans sized
    · rename_i given
      rwa [if_neg given] at sized
  have list' : FreeList u first (lo ++ hi) :=
    ⟨rest.1 ▸ list.ring, list.positive, list.gaps, fun b inside => (same _ (outside b inside)).trans
      (list.units b inside),
      rest.2.1 ▸ list.slobfree⟩
  obtain ⟨pre, last, around⟩ := around_place list' (below first List.mem_cons_self)
    (fun a inside => below a (List.mem_cons_of_mem _ inside)) beyond
  have nodes : (bases hi ++ pre).length = (lo ++ hi).length := by
    have lengths := congrArg List.length last
    simp only [bases, List.length_cons, List.length_map, List.length_append, List.length_nil] at lengths ⊢
    omega
  have found : findPlace e.base u fuel u.slobfree = .ok (prevBase first lo) := by
    refine findPlace_spec around ?_ (by rwa [nodes])
    have member : u.slobfree ∈ (first.base :: bases lo) ++ bases hi := by
      have inside := list'.slobfree
      rwa [bases_cons, bases_append, ← List.cons_append] at inside
    rw [last] at member
    simp only [List.mem_append, List.mem_cons, List.not_mem_nil, or_false] at member ⊢
    tauto
  refine ⟨Kmalloc.putBack (prevBase first lo) e.base u, coalesce lo e hi, ?_,
    list'.putBack here above positive left right, fun i => ?_, ?_, ?_, fun x away off => ?_, ?_, ?_,
    coalesce_length lo e hi⟩
  · rw [slobFree, hu, found]
    rfl
  · rw [coalesce_covers]
    simp only [List.mem_append, or_and_right, exists_or]
    rw [or_assoc, or_comm (a := i ∈ e)]
  · obtain ⟨m, member, all⟩ := coalesce_keeps lo e hi
    exact ⟨m, member, len_le_of_sub positive all⟩
  · rw [total_coalesce, total_append]
    omega
  · have offStart : x ≠ e.base := fun here => away (here ▸ start)
    rw [putBack_units (fun here => ?_) offStart, same x away]
    obtain ⟨b, inside, base⟩ := List.mem_map.mp (prevBase_mem first lo)
    have member : b ∈ first :: (lo ++ hi) := List.mem_append_left hi inside
    refine off b member ?_
    rw [here, ← base]
    exact ⟨le_rfl, Nat.lt_add_of_pos_right (list.positive b member)⟩
  · rw [(putBack_rest ..).1, rest.2.2.1]
  · rw [(putBack_rest ..).2, rest.2.2.2]

end Free

/-! ## `slob_alloc` -/

section Alloc

variable {first c : Extent} {n : Nat}

theorem takeBlock_eq {prev cur : Nat} (apart : prev ≠ cur) : takeBlock prev cur n 0 s =
    if s.units cur = n then (cur, { s with next := Function.update s.next prev (s.next cur), slobfree := prev })
    else (cur, { s with
      units := Function.update (Function.update s.units (cur + n) (s.units cur - n)) cur n
      next := Function.update (Function.update s.next prev (cur + n)) (cur + n) (s.next cur)
      slobfree := prev }) := by
  rw [takeBlock]
  simp only [ne_eq, not_true_eq_false, if_false]
  split
  · rfl
  · simp only [Slob.setNext, Slob.setUnits, Function.update_self, Function.update_of_ne (Ne.symm apart)]

/-- What is known of the machine after a block was cut. -/
structure Taken (s : Slob σ) (first : Extent) (lo : List Extent) (c : Extent) (hi : List Extent) (n : Nat)
    (t : Slob σ) : Prop where
  list : FreeList t first (lo ++ (rest c n ++ hi))
  header : t.units c.base = n
  units : ∀ x, x ∉ c → t.units x = s.units x
  bigblocks : t.bigblocks = s.bigblocks
  pmm : t.pmm = s.pmm

theorem takeBlock_spec (list : FreeList s first (lo ++ c :: hi)) (taken : 0 < n) (fits : n ≤ c.len) :
    ∃ t, takeBlock (prevBase first lo) c.base n 0 s = (c.base, t) ∧ Taken s first lo c hi n t := by
  have size : s.units c.base = c.len := list.units c (by simp)
  have behind : s.next c.base = nextBase first hi := by
    have ring := list.ring
    rw [bases_append, bases_cons] at ring
    exact ring.next_eq
  have runs : Runs ((first :: lo) ++ c :: hi) fun i => ∃ b ∈ first :: (lo ++ c :: hi), i ∈ b :=
    ⟨list.positive, list.gaps, fun _ => Iff.rfl⟩
  have cut := runs.cut taken fits
  have ordered : Ordered ((first :: lo) ++ c :: hi) := list.ordered
  have inside : c.base ∈ c := ⟨le_rfl, Nat.lt_add_of_pos_right (taken.trans_le fits)⟩
  have others : ∀ b ∈ first :: (lo ++ hi), ∀ x ∈ c, b.base ≠ x := by
    obtain ⟨front, back, across⟩ := Ordered.append_iff.mp ordered
    obtain ⟨-, right, -⟩ := Ordered.cons_iff.mp back
    rintro b member x ⟨low, high⟩ rfl
    rcases List.mem_append.mp (show b ∈ (first :: lo) ++ hi from member) with before | after
    · have ends := across b before c List.mem_cons_self
      have := front.positive b before
      simp only [Extent.stop] at ends
      omega
    · exact absurd (right b after) (Nat.not_le.mpr high)
  have apart : prevBase first lo ≠ c.base := by
    obtain ⟨b, member, base⟩ := List.mem_map.mp (prevBase_mem first lo)
    rw [← base]
    exact others b (List.mem_append_left hi member) _ inside
  have place : ∀ ws, prevBase first lo ∈ bases (first :: (lo ++ ws)) := by
    intro ws
    change _ ∈ bases ((first :: lo) ++ ws)
    rw [bases_append]
    exact List.mem_append_left _ (prevBase_mem first lo)
  have ring : IsCycle s.next first.base (bases lo ++ ([c.base] ++ bases hi)) := by
    have ring := list.ring
    rwa [bases_append, bases_cons] at ring
  have distinct := cut.ordered.nodup_bases
  rw [takeBlock_eq apart, size, behind]
  by_cases exact : c.len = n
  · have absent : rest c n = [] := by rw [rest, if_neg (Nat.not_lt.mpr exact.le)]
    rw [if_pos exact]
    rw [absent] at cut distinct
    refine ⟨_, rfl, ?_, size.trans exact, fun _ _ => rfl, rfl, rfl⟩
    rw [absent]
    refine ⟨?_, cut.positive, cut.gaps, fun b member => ?_, place _⟩
    · rw [bases_append, bases_append]
      refine ring.splice (by simpa [bases] using distinct)
        (List.isChain_cons_cons.mpr ⟨Function.update_self .., .singleton _⟩) fun x _ other => ?_
      exact Function.update_of_ne other ..
    · exact list.units b (by simp only [List.mem_cons, List.mem_append, List.nil_append] at member ⊢; tauto)
  · have nonzero : rest c n = [⟨c.base + n, c.len - n⟩] := by
      rw [rest, if_pos (Nat.lt_of_le_of_ne fits (Ne.symm exact))]
    have less : n < c.len := Nat.lt_of_le_of_ne fits (Ne.symm exact)
    have piece : c.base + n ∈ c := ⟨Nat.le_add_right .., Nat.add_lt_add_left less _⟩
    have apart' : prevBase first lo ≠ c.base + n := by
      obtain ⟨b, member, base⟩ := List.mem_map.mp (prevBase_mem first lo)
      rw [← base]
      exact others b (List.mem_append_left hi member) _ piece
    rw [if_neg exact]
    rw [nonzero] at cut distinct
    refine ⟨_, rfl, ?_, Function.update_self .., fun x away => ?_, rfl, rfl⟩
    · rw [nonzero]
      refine ⟨?_, cut.positive, cut.gaps, fun b member => ?_, place _⟩
      · rw [bases_append, bases_append]
        refine ring.splice (by simpa [bases] using distinct) (List.isChain_cons_cons.mpr ⟨?_,
          List.isChain_cons_cons.mpr ⟨Function.update_self .., .singleton _⟩⟩) fun x member other => ?_
        · exact (Function.update_of_ne apart' ..).trans (Function.update_self ..)
        · have away : x ≠ c.base + n := by
            obtain ⟨b, isNode, rfl⟩ := List.mem_map.mp (show x ∈ bases (first :: (lo ++ hi)) by simpa using member)
            exact others b isNode _ piece
          exact (Function.update_of_ne away ..).trans (Function.update_of_ne other ..)
      · change Function.update (Function.update s.units (c.base + n) (c.len - n)) c.base n b.base = b.len
        by_cases same : b = ⟨c.base + n, c.len - n⟩
        · have off : c.base + n ≠ c.base := Nat.ne_of_gt (Nat.lt_add_of_pos_right taken)
          rw [same, Function.update_of_ne off, Function.update_self]
        · have old : b ∈ first :: (lo ++ hi) := by
            simp only [List.mem_cons, List.mem_append, List.not_mem_nil, or_false, same, false_or] at member ⊢
            tauto
          rw [Function.update_of_ne (others b old _ inside), Function.update_of_ne (others b old _ piece)]
          exact list.units b (by simp only [List.mem_cons, List.mem_append] at old ⊢; tauto)
    · have offStart : x ≠ c.base := fun here => away (here ▸ inside)
      have offPiece : x ≠ c.base + n := fun here => away (here ▸ piece)
      exact (Function.update_of_ne offStart ..).trans (Function.update_of_ne offPiece ..)

/-! ### The loop -/

variable {size prev cur : Nat}

theorem slobAllocLoop_hit (room : slobUnits size ≤ s.units cur) (fuel : Nat) :
    slobAllocLoop M size 0 (fuel + 1) prev cur s =
      .ok (some (takeBlock prev cur (slobUnits size) 0 s).1, (takeBlock prev cur (slobUnits size) 0 s).2) := by
  rw [slobAllocLoop]
  exact if_pos room

theorem slobAllocLoop_skip (full : s.units cur < slobUnits size) (onward : cur ≠ s.slobfree) (fuel : Nat) :
    slobAllocLoop M size 0 (fuel + 1) prev cur s = slobAllocLoop M size 0 fuel cur (s.next cur) s := by
  rw [slobAllocLoop]
  exact (if_neg (Nat.not_le.mpr full)).trans (if_neg onward)

/-- Once round from `slobfree`: there is a block that is large enough, or `slobfree` itself comes up
    and none is. -/
theorem slobAllocLoop_walk {done todo : List Nat} (cycle : IsCycle s.next s.slobfree (done ++ todo)) (fuel : Nat) :
    (∃ p x, p ∈ s.slobfree :: (done ++ todo) ∧ x ∈ s.slobfree :: (done ++ todo) ∧ s.next p = x ∧
      slobUnits size ≤ s.units x ∧
      slobAllocLoop M size 0 (todo.length + 1 + fuel) (done.getLast?.getD s.slobfree) (todo.head?.getD s.slobfree) s =
        .ok (some (takeBlock p x (slobUnits size) 0 s).1, (takeBlock p x (slobUnits size) 0 s).2)) ∨
    (∀ x ∈ todo ++ [s.slobfree], s.units x < slobUnits size) ∧ ∃ p,
      slobAllocLoop M size 0 (todo.length + 1 + fuel) (done.getLast?.getD s.slobfree) (todo.head?.getD s.slobfree) s =
        slobAllocLoop M size 0 (fuel + 1) p s.slobfree s := by
  have next := cycle.next_before
  have member : done.getLast?.getD s.slobfree ∈ s.slobfree :: (done ++ todo) := by
    obtain ⟨front, last⟩ := cons_concat s.slobfree done
    have inside : done.getLast?.getD s.slobfree ∈ s.slobfree :: done := by
      rw [last]
      exact List.mem_append_right _ (List.mem_singleton_self _)
    exact List.mem_append_left todo inside
  induction todo generalizing done with
  | nil =>
      rw [List.length_nil, Nat.zero_add, Nat.add_comm 1 fuel]
      by_cases room : slobUnits size ≤ s.units s.slobfree
      · exact .inl ⟨_, s.slobfree, member, List.mem_cons_self, next, room, slobAllocLoop_hit room fuel⟩
      · exact .inr ⟨by simpa using room, _, rfl⟩
  | cons x todo ih =>
      by_cases room : slobUnits size ≤ s.units x
      · refine .inl ⟨_, x, member, by simp, next, room, ?_⟩
        rw [List.length_cons, Nat.add_right_comm]
        exact slobAllocLoop_hit room _
      · have away : x ≠ s.slobfree := by
          have distinct := cycle.nodup
          rintro rfl
          simp at distinct
        have shifted : IsCycle s.next s.slobfree ((done ++ [x]) ++ todo) := by simpa using cycle
        have behind : s.next x = todo.head?.getD s.slobfree := cycle.next_eq
        have step : slobAllocLoop M size 0 (todo.length + 1 + 1 + fuel) (done.getLast?.getD s.slobfree) x s =
            slobAllocLoop M size 0 (todo.length + 1 + fuel) x (todo.head?.getD s.slobfree) s := by
          rw [Nat.add_right_comm, slobAllocLoop_skip (Nat.not_le.mp room) away, behind]
        have later := ih shifted (by simpa using behind) (by simp)
        rw [List.getLast?_concat, Option.getD_some, List.append_assoc, List.singleton_append] at later
        rw [List.length_cons, List.head?_cons, Option.getD_some, step]
        refine later.imp_right fun ⟨full, p, run⟩ => ⟨fun y inside => ?_, p, run⟩
        rcases List.mem_cons.mp inside with rfl | inside
        · exact Nat.not_le.mp room
        · exact full y inside

/-- A search in the whole list. -/
theorem search_spec (list : FreeList s first bs) (more : first.len < slobUnits size) (positive : 0 < slobUnits size)
    (fuel : Nat) :
    (∃ lo c hi t, bs = lo ++ c :: hi ∧ slobUnits size ≤ c.len ∧
      slobAllocLoop M size 0 (bs.length + 1 + fuel) s.slobfree (s.next s.slobfree) s = .ok (some c.base, t) ∧
      Taken s first lo c hi (slobUnits size) t) ∨
    (∀ b ∈ first :: bs, b.len < slobUnits size) ∧ ∃ p,
      slobAllocLoop M size 0 (bs.length + 1 + fuel) s.slobfree (s.next s.slobfree) s =
        slobAllocLoop M size 0 (fuel + 1) p s.slobfree s := by
  obtain ⟨ws, cycle, perm⟩ := list.ring.turn list.slobfree
  have length : ws.length = bs.length := by
    simpa [bases] using perm.length_eq
  have start : s.next s.slobfree = ws.head?.getD s.slobfree := cycle.next_head
  have node : ∀ {x}, x ∈ s.slobfree :: ws → ∃ b ∈ first :: bs, b.base = x := fun inside =>
    List.mem_map.mp (perm.mem_iff.mp inside)
  have walk := @slobAllocLoop_walk σ M s size [] ws cycle fuel
  rw [List.getLast?_nil, Option.getD_none, List.nil_append, length, ← start] at walk
  rcases walk with ⟨p, x, source, target, link, room, run⟩ | ⟨full, run⟩
  · left
    obtain ⟨c, member, rfl⟩ := node target
    have size := list.units c member
    rw [size] at room
    rcases List.mem_cons.mp member with rfl | inside
    · exact absurd room (Nat.not_le.mpr more)
    · obtain ⟨lo, hi, rfl⟩ := List.append_of_mem inside
      have place : s.next (prevBase first lo) = c.base := list.next_place
      have onRing : prevBase first lo ∈ s.slobfree :: ws := by
        refine perm.mem_iff.mpr ?_
        change _ ∈ bases ((first :: lo) ++ c :: hi)
        rw [bases_append]
        exact List.mem_append_left _ (prevBase_mem first lo)
      have same : p = prevBase first lo := cycle.injective source onRing (link.trans place.symm)
      obtain ⟨t, cut, taken⟩ := takeBlock_spec list positive room
      rw [same, cut] at run
      exact ⟨lo, c, hi, t, rfl, room, run, taken⟩
  · right
    refine ⟨fun b member => ?_, run⟩
    have onRing : b.base ∈ s.slobfree :: ws := perm.mem_iff.mpr (List.mem_map_of_mem member)
    have small := full b.base (by simpa [or_comm] using onRing)
    rwa [list.units b member] at small

/-- A page that touches nothing of the free list. -/
structure NewPage (M : PageAllocator σ) (s : Slob σ) (first : Extent) (bs : List Extent) (page : Nat) (pmm : σ) :
    Prop where
  given : M.allocPages s.pmm 1 = (some page, pmm)
  above : first.stop < page * pageUnits
  apart : ∀ b ∈ bs, b.Apart ⟨page * pageUnits, pageUnits⟩

/-- The free list that a block is taken from: as it was, or with one page more. -/
inductive Stocked (M : PageAllocator σ) (s : Slob σ) (first : Extent) (bs : List Extent) (n : Nat) :
    Slob σ → List Extent → Prop
  | asItWas (room : ∃ b ∈ bs, n ≤ b.len) : Stocked M s first bs n s bs
  | grown {page : Nat} {pmm : σ} {u : Slob σ} {bs₁ : List Extent} (full : ∀ b ∈ bs, b.len < n)
      (fresh : NewPage M s first bs page pmm)
      (freed : Freed { s with pmm := pmm } first ⟨page * pageUnits, pageUnits⟩ bs u bs₁) : Stocked M s first bs n u bs₁

theorem slobAllocLoop_refused {pmm : σ} (list : FreeList s first bs)
    (full : ∀ b ∈ first :: bs, b.len < slobUnits size) (partly : size ≠ PAGE_SIZE)
    (refused : M.allocPages s.pmm 1 = (none, pmm)) (fuel : Nat) :
    slobAllocLoop M size 0 (fuel + 1) prev s.slobfree s = .ok (none, { s with pmm := pmm }) := by
  obtain ⟨b, member, base⟩ := List.mem_map.mp list.slobfree
  have short : s.units s.slobfree < slobUnits size := by
    rw [← base, list.units b member]
    exact full b member
  rw [slobAllocLoop, slobGetFreePages, pow_zero, refused]
  exact (if_neg (Nat.not_le.mpr short)).trans ((if_pos rfl).trans (if_neg partly))

/-- The loop with a page more in the list. -/
theorem slobAllocLoop_grown {page : Nat} {pmm : σ} (list : FreeList s first bs)
    (full : ∀ b ∈ first :: bs, b.len < slobUnits size) (partly : size ≠ PAGE_SIZE) (fits : slobUnits size ≤ pageUnits)
    (positive : 0 < slobUnits size) (fresh : NewPage M s first bs page pmm) (fuel : Nat) :
    ∃ u lo c hi t, slobAllocLoop M size 0 (bs.length + 2 + fuel + 1) prev s.slobfree s = .ok (some c.base, t) ∧
      Stocked M s first bs (slobUnits size) u (lo ++ c :: hi) ∧ slobUnits size ≤ c.len ∧
      Taken u first lo c hi (slobUnits size) t := by
  obtain ⟨b, member, base⟩ := List.mem_map.mp list.slobfree
  have short : s.units s.slobfree < slobUnits size := by
    rw [← base, list.units b member]
    exact full b member
  have list' : FreeList { s with pmm := pmm } first bs :=
    ⟨list.ring, list.positive, list.gaps, list.units, list.slobfree⟩
  have whole : slobUnits PAGE_SIZE = pageUnits := rfl
  have sized : if PAGE_SIZE ≠ 0 then slobUnits PAGE_SIZE = pageUnits else s.units (page * pageUnits) = pageUnits := by
    rw [if_pos (by decide), whole]
  have filled : 0 < pageUnits := by decide
  obtain ⟨u, bs₁, free, freed⟩ := @slobFree_spec σ { s with pmm := pmm } bs ⟨page * pageUnits, pageUnits⟩ first
    PAGE_SIZE list' sized filled fresh.above fresh.apart (bs.length + 2 + fuel) (by omega)
  have again : slobAllocLoop M size 0 (bs.length + 2 + fuel + 1) prev s.slobfree s =
      slobAllocLoop M size 0 (bs.length + 2 + fuel) u.slobfree (u.next u.slobfree) u := by
    rw [slobAllocLoop, slobGetFreePages, pow_zero, fresh.given]
    refine (if_neg (Nat.not_le.mpr short)).trans ((if_pos rfl).trans ((if_neg partly).trans ?_))
    dsimp only
    rw [free]
    rfl
  obtain ⟨m, member, long⟩ := freed.keeps
  have short : first.len < slobUnits size := full first List.mem_cons_self
  have shorter := freed.length
  obtain ⟨extra, count⟩ : ∃ k, bs.length + 2 + fuel = bs₁.length + 1 + k := Nat.exists_eq_add_of_le (by omega)
  rw [again, count]
  rcases search_spec freed.list short positive extra with ⟨lo, c, hi, t, rfl, room, run, taken⟩ | ⟨none, -⟩
  · have blocks : ∀ b ∈ bs, b.len < slobUnits size := fun b inside => full b (List.mem_cons_of_mem _ inside)
    exact ⟨u, lo, c, hi, t, run, .grown blocks fresh freed, room, taken⟩
  · exact absurd (fits.trans long) (Nat.not_le.mpr (none m (List.mem_cons_of_mem _ member)))

/-- All that `slob_alloc` can do, for a size that passes its check. -/
theorem slobAlloc_spec {pmm : σ} {given : Option Nat} (list : FreeList s first bs)
    (checked : size + SLOB_UNIT < PAGE_SIZE)
    (positive : 0 < slobUnits size) (more : first.len < slobUnits size) (answer : M.allocPages s.pmm 1 = (given, pmm))
    (fresh : ∀ page, given = some page → NewPage M s first bs page pmm) {fuel : Nat}
    (enough : 2 * bs.length + 4 ≤ fuel) :
    (∃ u lo c hi t, slobAlloc M fuel size 0 s = .ok (some c.base, t) ∧
      Stocked M s first bs (slobUnits size) u (lo ++ c :: hi) ∧ slobUnits size ≤ c.len ∧
      Taken u first lo c hi (slobUnits size) t) ∨
    (∀ b ∈ bs, b.len < slobUnits size) ∧ given = none ∧
      slobAlloc M fuel size 0 s = .ok (none, { s with pmm := pmm }) := by
  have partly : size ≠ PAGE_SIZE := by
    rintro rfl
    exact absurd checked (by decide)
  have fits : slobUnits size ≤ pageUnits := by
    simp only [slobUnits, pageUnits, SLOB_UNIT, PAGE_SIZE] at checked ⊢
    omega
  obtain ⟨extra, rfl⟩ : ∃ k, fuel = bs.length + 1 + (bs.length + 2 + k + 1) :=
    ⟨fuel - (2 * bs.length + 4), by omega⟩
  have loop : slobAlloc M (bs.length + 1 + (bs.length + 2 + extra + 1)) size 0 s =
      slobAllocLoop M size 0 (bs.length + 1 + (bs.length + 2 + extra + 1)) s.slobfree (s.next s.slobfree) s := by
    rw [slobAlloc, assert, if_pos checked]
    rfl
  rw [loop]
  have search := search_spec (M := M) list more positive (bs.length + 2 + extra + 1)
  rcases search with ⟨lo, c, hi, t, split, room, run, taken⟩ | ⟨full, p, run⟩
  · have member : c ∈ bs := by
      rw [split]
      exact List.mem_append_right lo List.mem_cons_self
    exact .inl ⟨s, lo, c, hi, t, run, split ▸ .asItWas ⟨c, member, room⟩, room, taken⟩
  · rw [run]
    cases given with
    | none =>
        have refused : slobAllocLoop M size 0 _ p s.slobfree s = _ :=
          slobAllocLoop_refused list full partly answer (bs.length + 2 + extra + 1)
        exact .inr ⟨fun b member => full b (List.mem_cons_of_mem _ member), rfl, refused⟩
    | some page =>
        obtain ⟨u, lo, c, hi, t, grown⟩ :=
          slobAllocLoop_grown list full partly fits positive (fresh page rfl) (extra + 1)
        exact .inl ⟨u, lo, c, hi, t, grown⟩

end Alloc

end Ucore.Mm.SlobHeap
