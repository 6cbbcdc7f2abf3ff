import Mathlib

/-! # Extents of consecutive numbers

An allocator that hands out runs of consecutive units keeps lists of extents.
Ordered lists of nonempty extents are the shape of an address-ordered free list;
`coalesce` is the abstract effect of returning one extent to such a list.
-/

namespace Ucore.Lib.Extents

/-- The numbers `base, …, base + len - 1`. -/
@[ext] structure Extent where
  base : Nat
  len : Nat
  deriving DecidableEq, Repr

namespace Extent

def stop (e : Extent) : Nat := e.base + e.len

instance : Membership Nat Extent := ⟨fun e i => e.base ≤ i ∧ i < e.stop⟩

theorem mem_def {e : Extent} {i : Nat} : i ∈ e ↔ e.base ≤ i ∧ i < e.base + e.len := Iff.rfl

instance (i : Nat) (e : Extent) : Decidable (i ∈ e) :=
  inferInstanceAs (Decidable (e.base ≤ i ∧ i < e.stop))

/-- One of the two ends before the other begins. -/
def Apart (a b : Extent) : Prop := a.stop ≤ b.base ∨ b.stop ≤ a.base

instance (a b : Extent) : Decidable (a.Apart b) :=
  inferInstanceAs (Decidable (a.stop ≤ b.base ∨ b.stop ≤ a.base))

theorem Apart.symm {a b : Extent} (h : a.Apart b) : b.Apart a := Or.symm h

instance : Std.Symm Apart := ⟨fun _ _ h => h.symm⟩

theorem apart_iff_disjoint {a b : Extent} (ha : 0 < a.len) (hb : 0 < b.len) :
    a.Apart b ↔ ∀ i, ¬(i ∈ a ∧ i ∈ b) := by
  simp only [Apart, stop, mem_def]
  constructor
  · intro h i
    omega
  · intro h
    have := h (max a.base b.base)
    omega

end Extent

/-- Nonempty extents, each one ending before the next one begins. -/
structure Ordered (es : List Extent) : Prop where
  positive : ∀ e ∈ es, 0 < e.len
  increasing : es.Pairwise (fun a b => a.stop ≤ b.base)

def total (es : List Extent) : Nat := (es.map Extent.len).sum

@[simp] theorem total_nil : total [] = 0 := rfl

@[simp] theorem total_cons (e : Extent) (es : List Extent) : total (e :: es) = e.len + total es := rfl

@[simp] theorem total_append (xs ys : List Extent) : total (xs ++ ys) = total xs + total ys := by
  simp [total]

theorem len_le_total {e : Extent} {es : List Extent} (member : e ∈ es) : e.len ≤ total es :=
  List.le_sum_of_mem (List.mem_map_of_mem member)

namespace Ordered

variable {lo hi : List Extent} {a b e : Extent} {es : List Extent}

theorem nil : Ordered [] := ⟨by simp, .nil⟩

theorem append_iff : Ordered (lo ++ hi) ↔
    Ordered lo ∧ Ordered hi ∧ ∀ a ∈ lo, ∀ b ∈ hi, a.stop ≤ b.base := by
  constructor
  · rintro ⟨positive, increasing⟩
    obtain ⟨left, right, across⟩ := List.pairwise_append.mp increasing
    exact ⟨⟨fun e h => positive e (by simp [h]), left⟩, ⟨fun e h => positive e (by simp [h]), right⟩,
      across⟩
  · rintro ⟨left, right, across⟩
    refine ⟨fun e h => ?_, List.pairwise_append.mpr ⟨left.increasing, right.increasing, across⟩⟩
    exact (List.mem_append.mp h).elim (left.positive e) (right.positive e)

theorem cons_iff : Ordered (e :: es) ↔ 0 < e.len ∧ (∀ b ∈ es, e.stop ≤ b.base) ∧ Ordered es := by
  constructor
  · rintro ⟨positive, increasing⟩
    obtain ⟨first, rest⟩ := List.pairwise_cons.mp increasing
    exact ⟨positive e (by simp), first, fun b h => positive b (by simp [h]), rest⟩
  · rintro ⟨here, first, rest⟩
    refine ⟨fun b h => ?_, List.pairwise_cons.mpr ⟨first, rest.increasing⟩⟩
    rcases List.mem_cons.mp h with rfl | h
    · exact here
    · exact rest.positive b h

theorem singleton (positive : 0 < e.len) : Ordered [e] :=
  cons_iff.mpr ⟨positive, by simp, nil⟩

/-- Ordered extents below a bound have no more units than the bound. -/
theorem total_le (ordered : Ordered es) (low : Nat) {high : Nat} (above : ∀ e ∈ es, low ≤ e.base)
    (below : ∀ e ∈ es, e.stop ≤ high) (le : low ≤ high) : low + total es ≤ high := by
  induction es generalizing low with
  | nil => simpa using le
  | cons e es ih =>
      obtain ⟨-, first, rest⟩ := cons_iff.mp ordered
      have start := above e (by simp)
      have := ih rest e.stop first (fun b h => below b (by simp [h])) (below e (by simp))
      simp only [Extent.stop, total_cons] at this ⊢
      omega

theorem apart (ordered : Ordered es) (ha : a ∈ es) (hb : b ∈ es) (different : a ≠ b) :
    a.Apart b := by
  have pairs : es.Pairwise Extent.Apart := ordered.increasing.imp fun h => Or.inl h
  exact pairs.forall ha hb different

theorem base_injective (ordered : Ordered es) (ha : a ∈ es) (hb : b ∈ es)
    (same : a.base = b.base) : a = b := by
  by_contra different
  have := ordered.apart ha hb different
  have := ordered.positive a ha
  have := ordered.positive b hb
  simp only [Extent.Apart, Extent.stop] at *
  omega

theorem nodup_bases (ordered : Ordered es) : (es.map Extent.base).Nodup := by
  rw [List.Nodup, List.pairwise_map]
  refine ordered.increasing.imp_of_mem fun {a b} ha _ h same => ?_
  have := ordered.positive a ha
  simp only [Extent.stop] at h
  omega

/-- An extent apart from all the others has a place among them. -/
theorem split (ordered : Ordered es) (positive : 0 < e.len) (apart : ∀ b ∈ es, b.Apart e) :
    ∃ lo hi, es = lo ++ hi ∧ Ordered (lo ++ e :: hi) := by
  induction es with
  | nil => exact ⟨[], [], rfl, singleton positive⟩
  | cons b es ih =>
      obtain ⟨filled, first, rest⟩ := cons_iff.mp ordered
      rcases apart b (by simp) with before | behind
      · obtain ⟨lo, hi, rfl, placed⟩ := ih rest fun c h => apart c (by simp [h])
        refine ⟨b :: lo, hi, rfl, cons_iff.mpr ⟨filled, fun c h => ?_, placed⟩⟩
        rcases List.mem_append.mp h with h | h
        · exact first c (by simp [h])
        · rcases List.mem_cons.mp h with rfl | h
          · exact before
          · exact first c (by simp [h])
      · refine ⟨[], b :: es, rfl, cons_iff.mpr ⟨positive, fun c h => ?_, ordered⟩⟩
        rcases List.mem_cons.mp h with rfl | h
        · exact behind
        · have := first c h
          simp only [Extent.stop] at *
          omega

theorem length_le_total (ordered : Ordered es) : es.length ≤ total es := by
  induction es with
  | nil => rfl
  | cons e es ih =>
      obtain ⟨filled, -, rest⟩ := cons_iff.mp ordered
      have := ih rest
      simp only [List.length_cons, total_cons]
      omega

end Ordered

/-- Two touching extents as one. -/
def join (a b : Extent) : Extent := ⟨a.base, a.len + b.len⟩

theorem mem_join {a b : Extent} (touch : a.stop = b.base) (i : Nat) :
    i ∈ join a b ↔ i ∈ a ∨ i ∈ b := by
  simp only [Extent.stop] at touch
  simp only [join, Extent.mem_def]
  omega

theorem Ordered.join {lo hi : List Extent} {a b : Extent} (ordered : Ordered (lo ++ a :: b :: hi))
    (touch : a.stop = b.base) : Ordered (lo ++ Extents.join a b :: hi) := by
  simp only [append_iff, cons_iff, List.mem_cons, forall_eq_or_imp, Extent.stop, Extents.join] at *
  refine ⟨ordered.1, ⟨by omega, fun c h => ?_, ordered.2.1.2.2.2.2⟩, fun c h => ?_⟩
  · have := ordered.2.1.2.2.2.1 c h
    omega
  · exact ⟨(ordered.2.2 c h).1, (ordered.2.2 c h).2.2⟩

/-- Join an extent with the last one before it when they touch. -/
def joinLeft (lo : List Extent) (e : Extent) : List Extent × Extent :=
  match lo.getLast? with
  | some p => if p.stop = e.base then (lo.dropLast, join p e) else (lo, e)
  | none => (lo, e)

/-- Join an extent with the first one after it when they touch. -/
def joinRight (e : Extent) (hi : List Extent) : Extent × List Extent :=
  match hi with
  | h :: rest => if e.stop = h.base then (join e h, rest) else (e, hi)
  | [] => (e, [])

/-- Put `e` between `lo` and `hi`, joined with every neighbour it touches. -/
def coalesce (lo : List Extent) (e : Extent) (hi : List Extent) : List Extent :=
  (joinLeft lo e).1 ++ (joinRight (joinLeft lo e).2 hi).1 :: (joinRight (joinLeft lo e).2 hi).2

theorem joinLeft_nil (e : Extent) : joinLeft [] e = ([], e) := rfl

theorem joinLeft_concat (lo : List Extent) (p e : Extent) :
    joinLeft (lo ++ [p]) e = if p.stop = e.base then (lo, join p e) else (lo ++ [p], e) := by
  simp [joinLeft]

theorem joinLeft_covers (lo : List Extent) (e : Extent) (i : Nat) :
    ((∃ b ∈ (joinLeft lo e).1, i ∈ b) ∨ i ∈ (joinLeft lo e).2) ↔ (∃ b ∈ lo, i ∈ b) ∨ i ∈ e := by
  rcases List.eq_nil_or_concat lo with rfl | ⟨lo, p, rfl⟩
  · rfl
  · rw [List.concat_eq_append, joinLeft_concat]
    split
    · rename_i touch
      simp only [mem_join touch, List.mem_append, List.mem_singleton, or_and_right, exists_or,
        exists_eq_left, or_assoc]
    · rfl

theorem joinRight_covers (e : Extent) (hi : List Extent) (i : Nat) :
    (i ∈ (joinRight e hi).1 ∨ ∃ b ∈ (joinRight e hi).2, i ∈ b) ↔ i ∈ e ∨ ∃ b ∈ hi, i ∈ b := by
  cases hi with
  | nil => rfl
  | cons h rest =>
      simp only [joinRight]
      split
      · rename_i touch
        simp only [mem_join touch, List.mem_cons, or_and_right, exists_or, exists_eq_left, or_assoc]
      · rfl

/-- Coalescing neither loses nor adds a unit. -/
theorem coalesce_covers (lo : List Extent) (e : Extent) (hi : List Extent) (i : Nat) :
    (∃ b ∈ coalesce lo e hi, i ∈ b) ↔ (∃ b ∈ lo, i ∈ b) ∨ i ∈ e ∨ ∃ b ∈ hi, i ∈ b := by
  have left := joinLeft_covers lo e i
  have right := joinRight_covers (joinLeft lo e).2 hi i
  simp only [coalesce, List.mem_append, List.mem_cons, or_and_right, exists_or, exists_eq_left]
  rw [right, ← or_assoc, left, or_assoc]

theorem joinLeft_sub (lo : List Extent) (e : Extent) (i : Nat) (inside : i ∈ e) :
    i ∈ (joinLeft lo e).2 := by
  rcases List.eq_nil_or_concat lo with rfl | ⟨lo, p, rfl⟩
  · exact inside
  · rw [List.concat_eq_append, joinLeft_concat]
    split
    · rename_i touch
      exact (mem_join touch i).mpr (Or.inr inside)
    · exact inside

theorem joinRight_sub (e : Extent) (hi : List Extent) (i : Nat) (inside : i ∈ e) :
    i ∈ (joinRight e hi).1 := by
  cases hi with
  | nil => exact inside
  | cons h rest =>
      simp only [joinRight]
      split
      · rename_i touch
        exact (mem_join touch i).mpr (Or.inl inside)
      · exact inside

theorem joinLeft_stop (lo : List Extent) (e : Extent) : (joinLeft lo e).2.stop = e.stop := by
  rcases List.eq_nil_or_concat lo with rfl | ⟨lo, p, rfl⟩
  · rfl
  · rw [List.concat_eq_append, joinLeft_concat]
    split
    · rename_i touch
      simp only [join, Extent.stop] at touch ⊢
      omega
    · rfl

theorem coalesce_keeps (lo : List Extent) (e : Extent) (hi : List Extent) :
    ∃ m ∈ coalesce lo e hi, ∀ i ∈ e, i ∈ m :=
  ⟨(joinRight (joinLeft lo e).2 hi).1, by simp [coalesce],
    fun _ inside => joinRight_sub _ _ _ (joinLeft_sub _ _ _ inside)⟩

/-- The extent put back and every neighbour it touches end up in one extent. -/
theorem coalesce_absorbs {lo hi : List Extent} {e f : Extent} (ordered : Ordered (lo ++ e :: hi))
    (neighbour : f ∈ lo ∧ f.stop = e.base ∨ f ∈ hi ∧ e.stop = f.base) :
    ∃ m ∈ coalesce lo e hi, ∀ i, i ∈ e ∨ i ∈ f → i ∈ m := by
  obtain ⟨left, right, across⟩ := Ordered.append_iff.mp ordered
  obtain ⟨filled, first, tail⟩ := Ordered.cons_iff.mp right
  refine ⟨(joinRight (joinLeft lo e).2 hi).1, by simp [coalesce], fun i inside => ?_⟩
  rcases inside with inside | inside
  · exact joinRight_sub _ _ _ (joinLeft_sub _ _ _ inside)
  · rcases neighbour with ⟨member, touch⟩ | ⟨member, touch⟩
    · refine joinRight_sub _ _ _ ?_
      rcases List.eq_nil_or_concat lo with rfl | ⟨lo, p, rfl⟩
      · simp at member
      · rw [List.concat_eq_append] at left member across ⊢
        -- an extent that touches `e` from below can only be the last one of `lo`
        have last : f = p := by
          by_contra different
          have inFront : f ∈ lo := by simpa [different] using member
          have := (Ordered.append_iff.mp left).2.2 f inFront p (by simp)
          have := (Ordered.append_iff.mp left).2.1.positive p (by simp)
          have := across p (by simp) e (by simp)
          simp only [Extent.stop] at *
          omega
        subst last
        rw [joinLeft_concat, if_pos touch]
        exact (mem_join touch i).mpr (Or.inl inside)
    · cases hi with
      | nil => simp at member
      | cons h rest =>
          have first' : f = h := by
            by_contra different
            have behind : f ∈ rest := by simpa [different] using member
            have := (Ordered.cons_iff.mp tail).2.1 f behind
            have := (Ordered.cons_iff.mp tail).1
            have := first h (by simp)
            simp only [Extent.stop] at *
            omega
          subst first'
          have touch' : (joinLeft lo e).2.stop = f.base := (joinLeft_stop lo e).trans touch
          simp only [joinRight, if_pos touch']
          exact (mem_join touch' i).mpr (Or.inr inside)

theorem total_joinLeft (lo : List Extent) (e : Extent) :
    total (joinLeft lo e).1 + (joinLeft lo e).2.len = total lo + e.len := by
  rcases List.eq_nil_or_concat lo with rfl | ⟨lo, p, rfl⟩
  · rfl
  · rw [List.concat_eq_append, joinLeft_concat]
    split
    · simp only [join, total_append, total_cons, total_nil]
      omega
    · rfl

theorem total_coalesce (lo : List Extent) (e : Extent) (hi : List Extent) :
    total (coalesce lo e hi) = total lo + e.len + total hi := by
  have left := total_joinLeft lo e
  cases hi with
  | nil =>
      simp only [coalesce, joinRight, total_append, total_cons, total_nil]
      omega
  | cons h hi =>
      simp only [coalesce, joinRight]
      split
      · simp only [join, total_append, total_cons]
        omega
      · simp only [total_append, total_cons]
        omega

/-- With nothing to touch on the left, only the right side is joined. -/
theorem coalesce_apart {lo hi : List Extent} {e : Extent} (apart : ∀ p, lo.getLast? = some p → p.stop ≠ e.base) :
    coalesce lo e hi = lo ++ (joinRight e hi).1 :: (joinRight e hi).2 := by
  have left : joinLeft lo e = (lo, e) := by
    rw [joinLeft]
    split
    · rename_i p last
      rw [if_neg (apart p last)]
    · rfl
  rw [coalesce, left]

theorem coalesce_touch {lo hi : List Extent} {p e : Extent} (touch : p.stop = e.base) :
    coalesce (lo ++ [p]) e hi = lo ++ join p (joinRight e hi).1 :: (joinRight e hi).2 := by
  have stop : (join p e).stop = e.stop := by
    simp only [join, Extent.stop] at touch ⊢
    omega
  rw [coalesce, joinLeft_concat, if_pos touch]
  cases hi with
  | nil => rfl
  | cons h hi =>
      simp only [joinRight, stop]
      split
      · simp only [join, Nat.add_assoc]
      · rfl

/-- A first extent that does not touch stays as it is. -/
theorem coalesce_cons {a : Extent} {lo hi : List Extent} {e : Extent} (apart : a.stop ≠ e.base) :
    coalesce (a :: lo) e hi = a :: coalesce lo e hi := by
  rcases List.eq_nil_or_concat lo with rfl | ⟨lo, p, rfl⟩
  · have alone : ∀ p, [a].getLast? = some p → p.stop ≠ e.base := fun p last => Option.some.inj last ▸ apart
    rw [coalesce_apart alone]
    rfl
  · rw [List.concat_eq_append]
    by_cases touch : p.stop = e.base
    · rw [← List.cons_append, coalesce_touch touch, coalesce_touch touch]
      rfl
    · have last : ∀ q, (lo ++ [p]).getLast? = some q → q.stop ≠ e.base := by
        intro q last
        rw [List.getLast?_concat] at last
        exact Option.some.inj last ▸ touch
      have last' : ∀ q, (a :: (lo ++ [p])).getLast? = some q → q.stop ≠ e.base := by
        intro q last'
        rw [← List.cons_append, List.getLast?_concat] at last'
        exact Option.some.inj last' ▸ touch
      rw [coalesce_apart last, coalesce_apart last']
      rfl

/-- Joining on the right takes at most one extent. -/
theorem joinRight_split (e : Extent) (hi : List Extent) :
    (joinRight e hi).1.base = e.base ∧ e.len ≤ (joinRight e hi).1.len ∧ ∃ mid, hi = mid ++ (joinRight e hi).2 := by
  cases hi with
  | nil => exact ⟨rfl, le_rfl, [], rfl⟩
  | cons h hi =>
      simp only [joinRight]
      split
      · exact ⟨rfl, Nat.le_add_right .., [h], rfl⟩
      · exact ⟨rfl, le_rfl, [], rfl⟩

theorem coalesce_length (lo : List Extent) (e : Extent) (hi : List Extent) :
    (coalesce lo e hi).length ≤ (lo ++ hi).length + 1 := by
  obtain ⟨-, -, mid, split⟩ := joinRight_split e hi
  have right : (joinRight e hi).2.length ≤ hi.length := by
    have same := congrArg List.length split
    rw [List.length_append] at same
    omega
  by_cases touch : ∃ p, lo.getLast? = some p ∧ p.stop = e.base
  · obtain ⟨p, last, touch⟩ := touch
    obtain ⟨front, rfl⟩ := List.getLast?_eq_some_iff.mp last
    rw [coalesce_touch touch]
    simp only [List.length_append, List.length_cons, List.length_nil]
    omega
  · rw [coalesce_apart fun p last touches => touch ⟨p, last, touches⟩]
    simp only [List.length_append, List.length_cons]
    omega

/-! ## Runs -/

/-- The maximal runs of a set of units, in order: between two of them there is a gap. -/
structure Runs (es : List Extent) (units : Nat → Prop) : Prop where
  positive : ∀ e ∈ es, 0 < e.len
  gaps : es.Pairwise fun a b => a.stop < b.base
  covers : ∀ i, (∃ e ∈ es, i ∈ e) ↔ units i

theorem Runs.ordered {es : List Extent} {units : Nat → Prop} (runs : Runs es units) : Ordered es :=
  ⟨runs.positive, runs.gaps.imp fun gap => le_of_lt gap⟩

theorem gaps_append {lo hi : List Extent} : (lo ++ hi).Pairwise (fun a b => a.stop < b.base) ↔
    lo.Pairwise (fun a b => a.stop < b.base) ∧ hi.Pairwise (fun a b => a.stop < b.base) ∧
      ∀ a ∈ lo, ∀ b ∈ hi, a.stop < b.base := List.pairwise_append

/-- Joined with what it touches on the left, an extent leaves a gap there. -/
theorem joinLeft_gaps {lo : List Extent} {e : Extent} (gaps : lo.Pairwise fun a b => a.stop < b.base)
    (positive : ∀ a ∈ lo, 0 < a.len) (before : ∀ a ∈ lo, a.stop ≤ e.base) :
    (joinLeft lo e).1.Pairwise (fun a b => a.stop < b.base) ∧
      (∀ a ∈ (joinLeft lo e).1, a ∈ lo) ∧ ∀ a ∈ (joinLeft lo e).1, a.stop < (joinLeft lo e).2.base := by
  rcases List.eq_nil_or_concat lo with rfl | ⟨lo, p, rfl⟩
  · simp [joinLeft_nil]
  · rw [List.concat_eq_append] at gaps positive before ⊢
    obtain ⟨front, -, last⟩ := gaps_append.mp gaps
    have filled := positive p (by simp)
    have ends := before p (by simp)
    have earlier : ∀ a ∈ lo, a.stop < p.base := fun a inside => last a inside p (by simp)
    rw [joinLeft_concat]
    split
    · exact ⟨front, fun a inside => by simp [inside], earlier⟩
    · rename_i apart
      refine ⟨gaps, fun _ inside => inside, fun a inside => ?_⟩
      rcases List.mem_append.mp inside with inside | itself
      · have := earlier a inside
        simp only [Extent.stop] at *
        omega
      · rw [List.mem_singleton.mp itself]
        exact Nat.lt_of_le_of_ne ends apart

theorem joinRight_gaps {hi : List Extent} {e : Extent} (gaps : hi.Pairwise fun a b => a.stop < b.base)
    (positive : ∀ b ∈ hi, 0 < b.len) (behind : ∀ b ∈ hi, e.stop ≤ b.base) :
    (joinRight e hi).2.Pairwise (fun a b => a.stop < b.base) ∧ (joinRight e hi).1.base = e.base ∧
      (∀ b ∈ (joinRight e hi).2, b ∈ hi) ∧ ∀ b ∈ (joinRight e hi).2, (joinRight e hi).1.stop < b.base := by
  cases hi with
  | nil => simp [joinRight]
  | cons h hi =>
      obtain ⟨first, rest⟩ := List.pairwise_cons.mp gaps
      have starts := behind h (by simp)
      have filled := positive h (by simp)
      simp only [joinRight]
      split
      · rename_i touch
        refine ⟨rest, rfl, fun b inside => List.mem_cons_of_mem _ inside, fun b inside => ?_⟩
        have := first b inside
        simp only [Extent.stop, join] at *
        omega
      · rename_i apart
        refine ⟨gaps, rfl, fun _ inside => inside, fun b inside => ?_⟩
        rcases List.mem_cons.mp inside with rfl | inside
        · exact Nat.lt_of_le_of_ne starts apart
        · have := first b inside
          simp only [Extent.stop] at *
          omega

/-- Coalescing an extent with the runs it lies between gives the runs of the union. -/
theorem Runs.coalesce {lo hi : List Extent} {e : Extent} {units : Nat → Prop} (runs : Runs (lo ++ hi) units)
    (ordered : Ordered (lo ++ e :: hi)) : Runs (coalesce lo e hi) fun i => units i ∨ i ∈ e := by
  obtain ⟨left, right, across⟩ := Ordered.append_iff.mp ordered
  obtain ⟨filled, first, tail⟩ := Ordered.cons_iff.mp right
  obtain ⟨gapsLo, gapsHi, between⟩ := gaps_append.mp runs.gaps
  have joined := joinLeft_gaps gapsLo left.positive fun a inside => across a inside e (by simp)
  obtain ⟨gapsLeft, subLeft, gapLeft⟩ := joined
  obtain ⟨gapsRight, sameBase, subRight, gapRight⟩ := joinRight_gaps (e := (joinLeft lo e).2) gapsHi tail.positive
    fun b inside => (joinLeft_stop lo e).trans_le (first b inside)
  have inMiddle : e.base ∈ (joinRight (joinLeft lo e).2 hi).1 :=
    joinRight_sub _ _ _ (joinLeft_sub _ _ _ ⟨Nat.le_refl _, by simp only [Extent.stop]; omega⟩)
  refine ⟨fun a inside => ?_, ?_, fun i => ?_⟩
  · rcases List.mem_append.mp inside with inside | inside
    · exact left.positive a (subLeft a inside)
    · rcases List.mem_cons.mp inside with rfl | inside
      · simp only [Extent.mem_def] at inMiddle
        omega
      · exact tail.positive a (subRight a inside)
  · refine gaps_append.mpr ⟨gapsLeft, List.pairwise_cons.mpr ⟨gapRight, gapsRight⟩, fun a inLo b inHi => ?_⟩
    rcases List.mem_cons.mp inHi with rfl | inHi
    · rw [sameBase]
      exact gapLeft a inLo
    · exact between a (subLeft a inLo) b (subRight b inHi)
  · rw [coalesce_covers, ← runs.covers]
    simp only [List.mem_append, or_and_right, exists_or]
    rw [or_assoc, or_comm (a := i ∈ e)]

/-! ## Cutting -/

/-- What is left of an extent when its first `n` units are taken. -/
def rest (b : Extent) (n : Nat) : List Extent :=
  if n < b.len then [⟨b.base + n, b.len - n⟩] else []

theorem total_rest {b : Extent} {n : Nat} (fits : n ≤ b.len) : total (rest b n) + n = b.len := by
  unfold rest
  split
  · simp only [total_cons, total_nil]
    omega
  · simp only [total_nil]
    omega

theorem mem_rest {b : Extent} {n i : Nat} :
    (∃ c ∈ rest b n, i ∈ c) ↔ b.base + n ≤ i ∧ i < b.base + b.len := by
  unfold rest
  split <;> simp only [List.mem_singleton, exists_eq_left, Extent.mem_def, List.not_mem_nil,
    false_and, exists_false, false_iff] <;> omega

theorem ordered_rest {lo hi : List Extent} {b : Extent} {n : Nat} (ordered : Ordered (lo ++ b :: hi)) :
    Ordered (lo ++ (rest b n ++ hi)) := by
  simp only [Ordered.append_iff, Ordered.cons_iff, List.mem_append, List.mem_cons,
    forall_eq_or_imp] at ordered ⊢
  obtain ⟨ordLo, ⟨positive, first, ordHi⟩, across⟩ := ordered
  unfold rest
  split
  · rename_i split
    refine ⟨ordLo, ⟨Ordered.singleton (by simp only; omega), ordHi, ?_⟩, fun a h c h' => ?_⟩
    · intro c h d h'
      have := first d h'
      rw [List.mem_singleton.mp h]
      simp only [Extent.stop] at *
      omega
    · rcases h' with h' | h'
      · have := (across a h).1
        rw [List.mem_singleton.mp h']
        simp only at *
        omega
      · exact (across a h).2 c h'
  · exact ⟨ordLo, ⟨Ordered.nil, ordHi, by simp⟩, fun a h c h' => (across a h).2 c (by simpa using h')⟩

theorem Runs.cut {lo hi : List Extent} {b : Extent} {n : Nat} {units : Nat → Prop} (runs : Runs (lo ++ b :: hi) units)
    (taken : 0 < n) (fits : n ≤ b.len) :
    Runs (lo ++ (rest b n ++ hi)) fun i => units i ∧ ¬(b.base ≤ i ∧ i < b.base + n) := by
  obtain ⟨gapsLo, gapsRight, across⟩ := gaps_append.mp runs.gaps
  obtain ⟨behind, gapsHi⟩ := List.pairwise_cons.mp gapsRight
  have piece : ∀ c ∈ rest b n, 0 < c.len ∧ b.base < c.base ∧ c.stop = b.stop := by
    intro c inside
    unfold rest at inside
    split at inside
    · rw [List.mem_singleton.mp inside]
      simp only [Extent.stop]
      omega
    · cases inside
  refine ⟨fun c inside => ?_, gaps_append.mpr ⟨gapsLo, gaps_append.mpr ⟨?_, gapsHi, fun c inside d inHi => ?_⟩,
    fun a inLo c inside => ?_⟩, fun i => ?_⟩
  · rcases List.mem_append.mp inside with inLo | inside
    · exact runs.positive c (List.mem_append_left _ inLo)
    · rcases List.mem_append.mp inside with inside | inHi
      · exact (piece c inside).1
      · exact runs.positive c (List.mem_append_right _ (List.mem_cons_of_mem _ inHi))
  · unfold rest
    split
    · exact List.pairwise_singleton ..
    · exact .nil
  · rw [(piece c inside).2.2]
    exact behind d inHi
  · rcases List.mem_append.mp inside with inside | inHi
    · exact (across a inLo b List.mem_cons_self).trans (piece c inside).2.1
    · exact across a inLo c (List.mem_cons_of_mem _ inHi)
  · have left : ∀ a ∈ lo, i ∈ a → ¬(b.base ≤ i ∧ i < b.base + n) := by
      intro a inLo inside
      have := across a inLo b List.mem_cons_self
      simp only [Extent.mem_def, Extent.stop] at *
      omega
    have right : ∀ c ∈ hi, i ∈ c → ¬(b.base ≤ i ∧ i < b.base + n) := by
      intro c inHi inside
      have := behind c inHi
      simp only [Extent.mem_def, Extent.stop] at *
      omega
    have middle : (∃ c ∈ rest b n, i ∈ c) ↔ i ∈ b ∧ ¬(b.base ≤ i ∧ i < b.base + n) := by
      rw [mem_rest, Extent.mem_def]
      omega
    rw [← runs.covers]
    simp only [List.mem_append, List.mem_cons, or_and_right, exists_or, exists_eq_left, middle]
    refine or_congr ?_ (or_congr Iff.rfl ?_)
    · exact ⟨fun ⟨a, inLo, inside⟩ => ⟨⟨a, inLo, inside⟩, left a inLo inside⟩, fun both => both.1⟩
    · exact ⟨fun ⟨c, inHi, inside⟩ => ⟨⟨c, inHi, inside⟩, right c inHi inside⟩, fun both => both.1⟩

/-! ## The best fit -/

/-- The lowest of the shortest extents that have at least `n` units. -/
structure BestFit (n : Nat) (es : List Extent) (e : Extent) : Prop where
  member : e ∈ es
  fits : n ≤ e.len
  shortest : ∀ c ∈ es, n ≤ c.len → e.len ≤ c.len
  lowest : ∀ c ∈ es, c.len = e.len → e.base ≤ c.base

theorem BestFit.keep {n : Nat} {es : List Extent} {e c : Extent} (best : BestFit n es e) (behind : e.base ≤ c.base)
    (worse : n ≤ c.len → e.len ≤ c.len) : BestFit n (es ++ [c]) e := by
  refine ⟨by simp [best.member], best.fits, fun a inside => ?_, fun a inside => ?_⟩
  · rcases List.mem_append.mp inside with inside | itself
    · exact best.shortest a inside
    · rwa [List.mem_singleton.mp itself]
  · rcases List.mem_append.mp inside with inside | itself
    · exact best.lowest a inside
    · rw [List.mem_singleton.mp itself]
      exact fun _ => behind

theorem BestFit.replace {n : Nat} {es : List Extent} {c : Extent} (fits : n ≤ c.len)
    (better : ∀ a ∈ es, n ≤ a.len → c.len < a.len) : BestFit n (es ++ [c]) c := by
  refine ⟨by simp, fits, fun a inside long => ?_, fun a inside same => ?_⟩
  · rcases List.mem_append.mp inside with inside | itself
    · exact (better a inside long).le
    · exact (List.mem_singleton.mp itself).symm ▸ Nat.le_refl _
  · rcases List.mem_append.mp inside with inside | itself
    · exact absurd same (Nat.ne_of_gt (better a inside (same ▸ fits)))
    · exact (List.mem_singleton.mp itself).symm ▸ Nat.le_refl _

end Ucore.Lib.Extents
