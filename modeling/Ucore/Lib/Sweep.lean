import Mathlib

/-! # Sweeping up parts

Parts belong to wholes. A sweep over a set of parts takes away those that are there,
and takes a whole away as soon as it finds in it every part it looks for. What else
the whole holds then is lost.
-/

namespace Ucore.Lib.Sweep

variable {ι : Type u} {κ : Type v}

@[ext]
structure Forest (ι : Type u) (κ : Type v) where
  wholes : Set κ
  parts : Set ι
  lost : Set ι

variable (whole : ι → κ)

/-- The sweep looks into the whole, and finds every part there. -/
def Complete (parts range : Set ι) (k : κ) : Prop :=
  (∃ i ∈ range, whole i = k) ∧ ∀ i ∈ range, whole i = k → i ∈ parts

def Forest.sweep (f : Forest ι κ) (range : Set ι) : Forest ι κ where
  wholes := {k | k ∈ f.wholes ∧ ¬Complete whole f.parts range k}
  parts := {i | i ∈ f.parts ∧ i ∉ range ∧ ¬Complete whole f.parts range (whole i)}
  lost := f.lost ∪ {i | i ∈ f.parts ∧ i ∉ range ∧ Complete whole f.parts range (whole i)}

def Forest.sweeps (f : Forest ι κ) (ranges : List (Set ι)) : Forest ι κ :=
  ranges.foldl (Forest.sweep whole) f

variable {whole} {f : Forest ι κ} {range range' : Set ι} {ranges : List (Set ι)} {k : κ}

theorem complete_congr {parts parts' : Set ι} (same : ∀ i ∈ range, whole i = k → (i ∈ parts' ↔ i ∈ parts)) :
    Complete whole parts' range k ↔ Complete whole parts range k :=
  and_congr_right fun _ => forall_congr' fun i =>
    ⟨fun all inside here => (same i inside here).mp (all inside here),
      fun all inside here => (same i inside here).mpr (all inside here)⟩

/-- Sweeps that look into different wholes make one sweep. -/
theorem sweep_sweep (apart : ∀ i ∈ range, ∀ j ∈ range', whole i ≠ whole j) :
    (f.sweep whole range).sweep whole range' = f.sweep whole (range ∪ range') := by
  have first : ∀ k, (∃ i ∈ range, whole i = k) →
      (Complete whole f.parts (range ∪ range') k ↔ Complete whole f.parts range k) := by
    rintro _ ⟨i, inside, rfl⟩
    constructor
    · exact fun all => ⟨⟨i, inside, rfl⟩, fun j member => all.2 j (.inl member)⟩
    · refine fun all => ⟨⟨i, .inl inside, rfl⟩, fun j member here => ?_⟩
      rcases member with member | member
      · exact all.2 j member here
      · exact absurd here.symm (apart i inside j member)
  have second : ∀ k, (∃ j ∈ range', whole j = k) →
      (Complete whole f.parts (range ∪ range') k ↔ Complete whole (f.sweep whole range).parts range' k) := by
    rintro _ ⟨j, inside, rfl⟩
    have outside : ∀ i, whole i = whole j → i ∉ range := fun i here member => apart i member j inside here
    have never : ¬Complete whole f.parts range (whole j) := by
      rintro ⟨⟨i, member, here⟩, -⟩
      exact outside i here member
    constructor
    · refine fun all => ⟨⟨j, inside, rfl⟩, fun i member here => ?_⟩
      exact ⟨all.2 i (.inr member) here, outside i here, here ▸ never⟩
    · refine fun all => ⟨⟨j, .inr inside, rfl⟩, fun i member here => ?_⟩
      rcases member with member | member
      · exact absurd member (outside i here)
      · exact (all.2 i member here).1
  have both : ∀ k, Complete whole f.parts (range ∪ range') k ↔
      Complete whole f.parts range k ∨ Complete whole (f.sweep whole range).parts range' k := by
    intro k
    constructor
    · intro all
      obtain ⟨i, member, here⟩ := all.1
      rcases member with member | member
      · exact .inl ((first k ⟨i, member, here⟩).mp all)
      · exact .inr ((second k ⟨i, member, here⟩).mp all)
    · rintro (all | all)
      · exact (first k all.1).mpr all
      · exact (second k all.1).mpr all
  ext x
  · simp only [Forest.sweep, Set.mem_ofPred_eq] at both ⊢
    rw [both x]
    tauto
  · simp only [Forest.sweep, Set.mem_ofPred_eq, Set.mem_union] at both ⊢
    rw [both (whole x)]
    tauto
  · have never : x ∈ range' → ¬Complete whole f.parts range (whole x) := by
      rintro member ⟨⟨i, inside, here⟩, -⟩
      exact apart i inside x member here
    have never' : x ∈ range → ¬Complete whole (f.sweep whole range).parts range' (whole x) := by
      rintro member ⟨⟨j, inside, here⟩, -⟩
      exact apart x member j inside here.symm
    simp only [Forest.sweep, Set.mem_ofPred_eq, Set.mem_union] at both never never' ⊢
    rw [both (whole x)]
    tauto

theorem sweep_empty : f.sweep whole ∅ = f := by
  have never : ∀ k, ¬Complete whole f.parts ∅ k := by
    rintro k ⟨⟨i, none, -⟩, -⟩
    exact none
  ext x <;> simp [Forest.sweep, never]

section OneWhole

variable (inside : ∀ i ∈ range, whole i = k)
include inside

/-- A sweep of one whole that does not find all parts. -/
theorem sweep_short (short : ∃ i ∈ range, i ∉ f.parts) :
    f.sweep whole range = { f with parts := f.parts \ range } := by
  have never : ∀ k', ¬Complete whole f.parts range k' := by
    rintro k' ⟨⟨i, member, rfl⟩, all⟩
    obtain ⟨j, member', absent⟩ := short
    exact absent (all j member' ((inside j member').trans (inside i member).symm))
  ext x <;> simp [Forest.sweep, never]

/-- A sweep of one whole that finds all parts. -/
theorem sweep_complete (nonempty : range.Nonempty) (all : ∀ i ∈ range, i ∈ f.parts) :
    f.sweep whole range =
      { wholes := f.wholes \ {k}
        parts := {i | i ∈ f.parts \ range ∧ whole i ≠ k}
        lost := f.lost ∪ {i | i ∈ f.parts \ range ∧ whole i = k} } := by
  have complete : ∀ k', Complete whole f.parts range k' ↔ k' = k := by
    intro k'
    constructor
    · rintro ⟨⟨i, member, rfl⟩, -⟩
      exact inside i member
    · rintro rfl
      obtain ⟨i, member⟩ := nonempty
      exact ⟨⟨i, member, inside i member⟩, fun j member' _ => all j member'⟩
  ext x <;> simp only [Forest.sweep, complete, Set.mem_ofPred_eq, Set.mem_sdiff, Set.mem_union,
    Set.mem_singleton_iff] <;> tauto

end OneWhole

/-! ## Sweeps that leave nothing behind -/

variable (whole) in
/-- After the sweeps `before`, this one is the first to take the whole away, and
    nothing of it is lost. -/
structure Completes (parts : Set ι) (before : List (Set ι)) (range : Set ι) (k : κ) : Prop where
  takes : Complete whole {i | i ∈ parts ∧ ∀ earlier ∈ before, i ∉ earlier} range k
  first : ∀ pre earlier post, before = pre ++ earlier :: post →
    ¬Complete whole {i | i ∈ parts ∧ ∀ r ∈ pre, i ∉ r} earlier k
  all : ∀ i ∈ parts, whole i = k → i ∈ range ∨ ∃ earlier ∈ before, i ∈ earlier

/-- Nothing of the whole is left, and nothing is lost. -/
def Clean (whole : ι → κ) (f : Forest ι κ) (k : κ) : Prop :=
  k ∉ f.wholes ∧ (∀ i ∈ f.parts, whole i ≠ k) ∧ ∀ i ∈ f.lost, whole i ≠ k

/-- A whole that is gone stays as it is. -/
theorem clean_sweeps_gone (gone : k ∉ f.wholes) (empty : ∀ i ∈ f.parts, whole i ≠ k) :
    Clean whole (f.sweeps whole ranges) k ↔ ∀ i ∈ f.lost, whole i ≠ k := by
  induction ranges generalizing f with
  | nil => exact ⟨fun clean => clean.2.2, fun none => ⟨gone, empty, none⟩⟩
  | cons range ranges ih =>
      rw [Forest.sweeps, List.foldl_cons, ← Forest.sweeps, ih]
      · simp only [Forest.sweep, Set.mem_union, Set.mem_ofPred_eq]
        exact ⟨fun none i lost => none i (.inl lost),
          fun none i lost => lost.elim (none i) fun was => empty i was.1⟩
      · exact fun still => gone still.1
      · exact fun i still => empty i still.1

theorem sweeps_clean (here : k ∈ f.wholes) (intact : ∀ i ∈ f.lost, whole i ≠ k) :
    Clean whole (f.sweeps whole ranges) k ↔
      ∃ before range after, ranges = before ++ range :: after ∧ Completes whole f.parts before range k := by
  induction ranges generalizing f with
  | nil => simp [Forest.sweeps, Clean, here]
  | cons range ranges ih =>
      rw [Forest.sweeps, List.foldl_cons, ← Forest.sweeps]
      have atFirst : Complete whole {i | i ∈ f.parts ∧ ∀ r ∈ ([] : List (Set ι)), i ∉ r} range k ↔
          Complete whole f.parts range k := by simp
      by_cases complete : Complete whole f.parts range k
      · have gone : k ∉ (f.sweep whole range).wholes := fun still => still.2 complete
        have empty : ∀ i ∈ (f.sweep whole range).parts, whole i ≠ k := fun i still inside =>
          still.2.2 (inside ▸ complete)
        rw [clean_sweeps_gone gone empty]
        simp only [Forest.sweep, Set.mem_union, Set.mem_ofPred_eq]
        constructor
        · intro none
          refine ⟨[], range, ranges, rfl, atFirst.mpr complete, by simp, fun i part inside => .inl ?_⟩
          by_contra outside
          exact none i (.inr ⟨part, outside, inside ▸ complete⟩) inside
        · rintro ⟨before, _, after, split, completes⟩ i (lost | ⟨part, outside, -⟩) inside
          · exact intact i lost inside
          · cases before with
            | nil =>
                obtain ⟨rfl, -⟩ := List.cons.inj split
                rcases completes.all i part inside with member | ⟨_, none, -⟩
                · exact outside member
                · cases none
            | cons head before =>
                obtain ⟨rfl, -⟩ := List.cons.inj split
                exact completes.first [] range before rfl (atFirst.mpr complete)
      · have next : ∀ i, whole i = k → (i ∈ (f.sweep whole range).parts ↔ i ∈ f.parts ∧ i ∉ range) := by
          rintro i rfl
          exact ⟨fun part => ⟨part.1, part.2.1⟩, fun part => ⟨part.1, part.2, complete⟩⟩
        have shift : ∀ pre, ∀ other,
            Complete whole {i | i ∈ f.parts ∧ ∀ r ∈ range :: pre, i ∉ r} other k ↔
              Complete whole {i | i ∈ (f.sweep whole range).parts ∧ ∀ r ∈ pre, i ∉ r} other k := by
          refine fun pre other => complete_congr fun i _ inside => ?_
          simp only [Set.mem_ofPred_eq, List.forall_mem_cons, next i inside, and_assoc]
        rw [ih]
        · constructor
          · rintro ⟨before, other, after, rfl, completes⟩
            refine ⟨range :: before, other, after, rfl, (shift ..).mpr completes.takes,
              fun pre earlier post split => ?_, fun i part inside => ?_⟩
            · cases pre with
              | nil =>
                  obtain ⟨rfl, -⟩ := List.cons.inj split
                  exact fun all => complete (atFirst.mp all)
              | cons head pre =>
                  obtain ⟨rfl, rfl⟩ := List.cons.inj split
                  exact fun all => completes.first pre earlier post rfl ((shift ..).mp all)
            · by_cases member : i ∈ range
              · exact .inr ⟨range, by simp, member⟩
              · rcases completes.all i ((next i inside).mpr ⟨part, member⟩) inside with there | ⟨r, was, there⟩
                · exact .inl there
                · exact .inr ⟨r, by simp [was], there⟩
          · rintro ⟨before, other, after, split, completes⟩
            cases before with
            | nil =>
                obtain ⟨rfl, -⟩ := List.cons.inj split
                exact absurd (atFirst.mp completes.takes) complete
            | cons head before =>
                obtain ⟨rfl, rfl⟩ := List.cons.inj split
                refine ⟨before, other, after, rfl, (shift ..).mp completes.takes,
                  fun pre earlier post split all => ?_, fun i part inside => ?_⟩
                · exact completes.first (range :: pre) earlier post (by rw [split]; rfl) ((shift ..).mpr all)
                · obtain ⟨part, outside⟩ := (next i inside).mp part
                  rcases completes.all i part inside with there | ⟨r, was, there⟩
                  · exact .inl there
                  · rcases List.mem_cons.mp was with rfl | was
                    · exact absurd there outside
                    · exact .inr ⟨r, was, there⟩
        · exact ⟨here, complete⟩
        · rintro i (lost | ⟨part, outside, all⟩) inside
          · exact intact i lost inside
          · exact complete (inside ▸ all)

end Ucore.Lib.Sweep
