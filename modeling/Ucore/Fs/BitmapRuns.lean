import Ucore.Fs.Bitmaps

/-! # A bitmap is a set of free indices

The set starts with all the indices and loses its least element with every allocation.
The words of the bitmap may hold more bits than there are indices; those at the end stay
clear from `bitmap_create` on.
-/

namespace Ucore.Fs.BitmapRuns

open Lib.Program Lib.Program.Prog Error Bitmaps

inductive Call where
  | alloc
  | free (index : Nat)
  | test (index : Nat)
  deriving DecidableEq, Repr

inductive Answer where
  /-- `bitmap_alloc` stored an index and returned 0. -/
  | index (i : Nat)
  /-- It returned an error. -/
  | failed (error : Err)
  | freed
  | bit (set : Bool)
  deriving DecidableEq, Repr

/-! ## The set -/

def step (F : Finset Nat) : Call → Answer × Finset Nat
  | .alloc => if some : F.Nonempty then (.index (F.min' some), F.erase (F.min' some)) else (.failed .noMem, F)
  | .free index => (.freed, insert index F)
  | .test index => (.bit (decide (index ∈ F)), F)

def steps (F : Finset Nat) : List Call → List Answer × Finset Nat
  | [] => ([], F)
  | call :: calls =>
      let (answer, F) := step F call
      let (answers, F) := steps F calls
      (answer :: answers, F)

/-- Only indices in use are freed, and only indices of the bitmap are asked for. -/
def Proper (nbits : Nat) (F : Finset Nat) : Call → Prop
  | .alloc => True
  | .free index => index < nbits ∧ index ∉ F
  | .test index => index < nbits

def AllProper (nbits : Nat) (F : Finset Nat) : List Call → Prop
  | [] => True
  | call :: calls => Proper nbits F call ∧ AllProper nbits (step F call).2 calls

theorem step_subset {nbits : Nat} {F : Finset Nat} {call : Call} (within : F ⊆ Finset.range nbits)
    (proper : Proper nbits F call) : (step F call).2 ⊆ Finset.range nbits := by
  cases call with
  | alloc =>
      rw [step]
      split
      · exact (Finset.erase_subset _ F).trans within
      · exact within
  | free index => exact Finset.insert_subset (Finset.mem_range.mpr proper.1) within
  | test index => exact within

/-- An index that is handed out is an index of the bitmap. -/
theorem index_lt {nbits : Nat} {F : Finset Nat} {calls : List Call} {i : Nat} (within : F ⊆ Finset.range nbits)
    (proper : AllProper nbits F calls) (answered : .index i ∈ (steps F calls).1) : i < nbits := by
  induction calls generalizing F with
  | nil => cases answered
  | cons call calls ih =>
      rw [steps, List.mem_cons] at answered
      cases answered with
      | inl first =>
          cases call with
          | alloc =>
              rw [step] at first
              split at first
              · cases first
                exact Finset.mem_range.mp (within (Finset.min'_mem F _))
              · cases first
          | free index => cases first
          | test index => cases first
      | inr later => exact ih (step_subset within proper.1) proper.2 later

/-! ## The calls -/

def call : Call → Op Bitmap Answer
  | .alloc => fun bitmap =>
      match bitmapAlloc bitmap with
      | .ok (.ok i, bitmap) => .ok (.ok (.index i), bitmap)
      | .ok (.error error, bitmap) => .ok (.ok (.failed error), bitmap)
      | .error stop => .error stop
  | .free index => do
      bitmapFree index
      pure .freed
  | .test index => do
      let set ← bitmapTest index
      pure (.bit set)

def run : List Call → Op Bitmap (List Answer)
  | [] => pure []
  | c :: calls => do
      let answer ← call c
      let answers ← run calls
      pure (answer :: answers)

/-- The bitmap stands for the set of the free indices. -/
structure Represents (nbits : Nat) (bitmap : Bitmap) (F : Finset Nat) : Prop where
  sized : bitmap.nbits = nbits
  held : nbits ≤ bitmap.map.length * WORD_BITS
  free : ∀ i, bitmap.free i = true ↔ i ∈ F
  within : F ⊆ Finset.range nbits

variable {nbits : Nat} {bitmap : Bitmap} {F : Finset Nat}

namespace Represents

theorem free_eq (rep : Represents nbits bitmap F) (i : Nat) : bitmap.free i = decide (i ∈ F) := by
  rw [Bool.eq_iff_iff, decide_eq_true_iff]
  exact rep.free i

theorem word (rep : Represents nbits bitmap F) {index : Nat} (inside : index < nbits) :
    index / WORD_BITS < bitmap.map.length := by
  rw [Nat.div_lt_iff_lt_mul (by decide)]
  exact Nat.lt_of_lt_of_le inside rep.held

theorem erase {after : Bitmap} {index : Nat} (rep : Represents nbits bitmap F) (sized : after.nbits = bitmap.nbits)
    (length : after.map.length = bitmap.map.length) (flipped : after.free = Function.update bitmap.free index false) :
    Represents nbits after (F.erase index) where
  sized := sized.trans rep.sized
  held := length ▸ rep.held
  free i := by
    rw [flipped, Finset.mem_erase, Function.update_apply]
    by_cases same : i = index
    · simp [same]
    · simp [same, rep.free i]
  within := (Finset.erase_subset _ F).trans rep.within

theorem insert {after : Bitmap} {index : Nat} (rep : Represents nbits bitmap F) (inside : index < nbits)
    (sized : after.nbits = bitmap.nbits) (length : after.map.length = bitmap.map.length)
    (flipped : after.free = Function.update bitmap.free index true) :
    Represents nbits after (insert index F) where
  sized := sized.trans rep.sized
  held := length ▸ rep.held
  free i := by
    rw [flipped, Finset.mem_insert, Function.update_apply]
    by_cases same : i = index
    · simp [same]
    · simp [same, rep.free i]
  within := Finset.insert_subset (Finset.mem_range.mpr inside) rep.within

end Represents

/-- A call answers what the set answers, and leaves a bitmap for what is left of the set. -/
theorem call_step (rep : Represents nbits bitmap F) {c : Call} (proper : Proper nbits F c) :
    ∃ after, call c bitmap = .ok (.ok (step F c).1, after) ∧ Represents nbits after (step F c).2 := by
  cases c with
  | alloc =>
      have spec : Spec (fun _ => False) bitmapAlloc bitmap
          (fun i after => ∃ some : F.Nonempty, i = F.min' some ∧ Represents nbits after (F.erase i))
          (fun error after => error = .noMem ∧ F = ∅ ∧ after = bitmap) := by
        refine bitmapAlloc_words ?_ ?_
        · intro clear
          refine ⟨rfl, Finset.eq_empty_of_forall_notMem fun i inside => ?_, rfl⟩
          rw [← rep.free, clear i] at inside
          cases inside
        · intro index after set least sized length flipped
          have member : index ∈ F := (rep.free index).mp set
          refine ⟨⟨index, member⟩, Nat.le_antisymm (Finset.le_min' F _ index fun j inside => ?_) ?_,
            rep.erase sized length flipped⟩
          · by_contra before
            have clear := least j (Nat.lt_of_not_le before)
            rw [(rep.free j).mpr inside] at clear
            cases clear
          · exact Finset.min'_le F index member
      unfold Spec at spec
      rw [step]
      split at spec
      · rename_i i after ran
        obtain ⟨some, rfl, kept⟩ := spec
        rw [dif_pos some]
        exact ⟨after, by simp only [call, ran], kept⟩
      · rename_i e after ran
        obtain ⟨rfl, rfl, rfl⟩ := spec
        rw [dif_neg Finset.not_nonempty_empty]
        exact ⟨after, by simp only [call, ran], rep⟩
      · cases spec
  | free index =>
      have clear : bitmap.free index = false := by simpa [rep.free_eq] using proper.2
      have spec : Spec (fun _ => False) (call (.free index)) bitmap
          (fun answer after => answer = .freed ∧ Represents nbits after (insert index F)) (fun _ _ => False) := by
        simp only [call, spec_bind, spec_pure]
        refine bitmapFree_words (rep.word proper.1) (rep.sized ▸ proper.1) clear fun after sized length flipped => ?_
        exact ⟨trivial, rep.insert proper.1 sized length flipped⟩
      unfold Spec at spec
      split at spec
      · rename_i answer after ran
        obtain ⟨rfl, kept⟩ := spec
        exact ⟨after, ran, kept⟩
      · cases spec
      · cases spec
  | test index =>
      have spec : Spec (fun _ => False) (call (.test index)) bitmap
          (fun answer after => answer = .bit (decide (index ∈ F)) ∧ after = bitmap) (fun _ _ => False) := by
        simp only [call, spec_bind, spec_pure]
        refine bitmapTest_spec (rep.sized ▸ proper) ⟨?_, rfl⟩
        rw [rep.free_eq]
      unfold Spec at spec
      split at spec
      · rename_i answer after ran
        obtain ⟨rfl, rfl⟩ := spec
        exact ⟨after, ran, rep⟩
      · cases spec
      · cases spec

theorem run_steps (rep : Represents nbits bitmap F) {calls : List Call} (proper : AllProper nbits F calls) :
    ∃ after, run calls bitmap = .ok (.ok (steps F calls).1, after) ∧ Represents nbits after (steps F calls).2 := by
  induction calls generalizing bitmap F with
  | nil => exact ⟨bitmap, rfl, rep⟩
  | cons c calls ih =>
      obtain ⟨middle, first, kept⟩ := call_step rep proper.1
      obtain ⟨after, later, kept'⟩ := ih kept proper.2
      refine ⟨after, ?_, kept'⟩
      simp only [run, bind, first, later, pure, steps]

/-! ## A new bitmap -/

/-- The bits from `overbits` on are flipped in the last word. -/
theorem foldl_mask (word : BitVec 32) {overbits count : Nat} (fits : overbits + count ≤ WORD_BITS) {i : Nat}
    (inside : i < WORD_BITS) :
    ((List.range' overbits count).foldl (fun word offset => word ^^^ mask offset) word).getLsbD i =
      if overbits ≤ i ∧ i < overbits + count then !word.getLsbD i else word.getLsbD i := by
  have below : i < 32 := inside
  induction count generalizing overbits word with
  | zero =>
      rw [List.range'_zero, List.foldl_nil, if_neg (by omega)]
  | succ count ih =>
      rw [List.range'_succ, List.foldl_cons, ih _ (by omega)]
      have flip : (word ^^^ mask overbits).getLsbD i = if i = overbits then !word.getLsbD i else word.getLsbD i := by
        by_cases same : i = overbits
        · subst same
          simp [mask, below]
        · simp [mask, BitVec.getLsbD_twoPow, same, Ne.symm same]
      rw [flip]
      by_cases same : i = overbits
      · rw [if_pos same, if_neg (by omega), if_pos (by omega)]
      · rw [if_neg same]
        by_cases flipped : overbits + 1 ≤ i ∧ i < overbits + 1 + count
        · rw [if_pos flipped, if_pos (by omega)]
        · rw [if_neg flipped, if_neg (by omega)]

theorem ones_free {words i : Nat} (nbits : Nat) (inside : i / WORD_BITS < words) :
    (⟨nbits, List.replicate words (BitVec.allOnes 32)⟩ : Bitmap).free i = true := by
  have low : i % 32 < 32 := Nat.mod_lt _ (by decide)
  rw [Bitmap.free, List.getD_eq_getElem _ _ (by simpa using inside), List.getElem_replicate, BitVec.getLsbD_allOnes]
  exact decide_eq_true low

theorem free_beyond {bitmap : Bitmap} {i : Nat} (beyond : bitmap.map.length * WORD_BITS ≤ i) :
    bitmap.free i = false := by
  refine free_eq_false_of_zero (List.getD_eq_default _ _ ?_)
  exact (Nat.le_div_iff_mul_le (by decide)).mpr beyond

/-- The new bitmap has all its indices free, and nothing but them. -/
theorem bitmapCreate_spec {σ : Type u} {kmalloc : Nat → Op σ Nat} {kfree : Nat → Op σ Unit} {allowed : Panic → Prop}
    {nbits : Nat} {s : σ} {Q : Nat × Nat × Bitmap → σ → Prop} {E : Err → σ → Prop} (positive : nbits ≠ 0)
    (fits : nbits < 2 ^ 32)
    (given : Spec allowed (kmalloc SIZEOF_BITMAP) s (fun p t => Spec allowed (kmalloc (4 * words nbits)) t
      (fun q u => ∀ bitmap, Represents nbits bitmap (Finset.range nbits) → Q (p, q, bitmap) u)
      fun error u => Spec allowed (kfree p) u (fun _ v => E error v) E) E) :
    Spec allowed (bitmapCreate kmalloc kfree nbits) s Q E := by
  have guard : nbits ≠ 0 ∧ nbits < (nbits + WORD_BITS) % 2 ^ 64 := by
    rw [Nat.mod_eq_of_lt (by simp only [WORD_BITS]; omega)]
    exact ⟨positive, Nat.lt_add_of_pos_right (by decide)⟩
  have atMost : words nbits * WORD_BITS < nbits + WORD_BITS := by
    simp only [words, WORD_BITS]
    omega
  have enough : nbits ≤ words nbits * WORD_BITS := by
    simp only [words, WORD_BITS]
    omega
  simp only [bitmapCreate, spec_bind, spec_ensure_of guard, spec_onError]
  refine given.mono (fun p t mapped => ?_) fun _ _ failed => failed
  refine mapped.mono (fun q u post => ?_) fun _ _ failed => failed
  clear mapped given
  generalize words nbits = nwords at atMost enough ⊢
  refine spec_ite.mpr ⟨fun exact => ?_, fun leftover => ?_⟩
  · refine spec_pure.mpr (post _
      { sized := rfl, held := by simpa using enough, free := fun i => ?_, within := subset_rfl })
    rw [Finset.mem_range]
    by_cases inside : i < nbits
    · simp only [inside, iff_true]
      exact ones_free nbits ((Nat.div_lt_iff_lt_mul (by decide)).mpr (by omega))
    · simp only [inside, iff_false, Bool.not_eq_true]
      exact free_beyond (by simp; omega)
  · have last : nbits / WORD_BITS = nwords - 1 := by
      simp only [WORD_BITS] at atMost enough leftover ⊢
      omega
    have bits : 0 < nbits - (nwords - 1) * WORD_BITS ∧ nbits - (nwords - 1) * WORD_BITS < WORD_BITS := by
      simp only [WORD_BITS] at atMost enough leftover ⊢
      omega
    simp only [spec_bind, spec_ensure_of last, spec_ensure_of bits, spec_pure]
    have held : nwords - 1 < nwords := by
      simp only [WORD_BITS] at atMost enough
      omega
    refine post _ { sized := rfl, held := by simpa using enough, free := fun i => ?_, within := subset_rfl }
    have low : i % WORD_BITS < WORD_BITS := Nat.mod_lt _ (by decide)
    have place := Nat.div_add_mod i WORD_BITS
    rw [Finset.mem_range, Bitmap.free]
    by_cases same : i / WORD_BITS = nwords - 1
    · -- The last word: its bits from the remainder of `nbits` on have been flipped.
      rw [same, List.getD_eq_getElem?_getD, List.getElem?_set_self (by simpa using held), Option.getD_some,
        foldl_mask _ (by omega) low, List.getD_eq_getElem _ _ (by simpa using held), List.getElem_replicate,
        BitVec.getLsbD_allOnes, decide_eq_true (show i % WORD_BITS < 32 from low)]
      rw [same, Nat.mul_comm] at place
      by_cases flipped : nbits - (nwords - 1) * WORD_BITS ≤ i % WORD_BITS
      · rw [if_pos ⟨flipped, by omega⟩]
        simp only [Bool.not_true, Bool.false_eq_true, false_iff]
        omega
      · rw [if_neg fun inside => flipped inside.1]
        simp only [true_iff]
        omega
    · rw [List.getD_eq_getElem?_getD, List.getElem?_set_ne (Ne.symm same), ← List.getD_eq_getElem?_getD]
      by_cases inside : i / WORD_BITS < nwords
      · have before : i < nbits := by
          simp only [WORD_BITS] at *
          omega
        simp only [before, iff_true]
        exact ones_free nbits inside
      · have beyond : nwords * WORD_BITS ≤ i := (Nat.le_div_iff_mul_le (by decide)).mp (Nat.le_of_not_lt inside)
        simp only [Nat.not_lt.mpr (Nat.le_trans enough beyond), iff_false, Bool.not_eq_true]
        exact @free_beyond ⟨nbits, List.replicate nwords (BitVec.allOnes 32)⟩ i (by simpa using beyond)

/-- From a bitmap with all its indices free on, every run of calls answers as the set of free
    indices does. -/
theorem calls_spec (rep : Represents nbits bitmap (Finset.range nbits)) {calls : List Call}
    (proper : AllProper nbits (Finset.range nbits) calls) :
    (∃ after, run calls bitmap = .ok (.ok (steps (Finset.range nbits) calls).1, after) ∧
      Represents nbits after (steps (Finset.range nbits) calls).2) ∧
    ∀ i, .index i ∈ (steps (Finset.range nbits) calls).1 → i < nbits :=
  ⟨run_steps rep proper, fun _ answered => index_lt subset_rfl proper answered⟩

end Ucore.Fs.BitmapRuns
