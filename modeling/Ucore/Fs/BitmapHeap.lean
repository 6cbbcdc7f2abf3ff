import Ucore.Fs.BitmapRuns
import Ucore.Mm.KmallocRuns

/-! # Bitmaps on the heap

`bitmap_create` takes the structure and the words from `kmalloc.c`. Where that serves the words
badly, the bitmap is no set of its own: an assertion fails, or the last words belong to whoever
gets the next page.
-/

namespace Ucore.Fs.BitmapHeap

open Lib.Extents Lib.Program Lib.Program.Prog Error Bitmaps BitmapRuns

open Mm.Kmalloc (PageAllocator Slob kmalloc kfree ksize)
open Mm.KmallocHeap (Object Heap Refused kmalloc_small kmalloc_large kmalloc_between)
open Mm.KmallocSizes (Serves Exact exact_iff serves_small serves_large unused booted booted_heap unused_granted)
open Mm.KmallocRuns (kmalloc_mono kfree_mono kfree_spec)

variable {σ : Type}

/-- A null pointer is the error; the call stops where `kmalloc` does, or is out of fuel. -/
def heapKmalloc (M : PageAllocator σ) (fuel size : Nat) : Op (Slob σ) Nat := fun s =>
  match kmalloc M fuel size s with
  | .ok (some block, t) => .ok (.ok block, t)
  | .ok (none, t) => .ok (.error .noMem, t)
  | .error _ => .error .assertion

def heapKfree (M : PageAllocator σ) (fuel block : Nat) : Op (Slob σ) Unit := fun s =>
  match kfree M fuel (some block) s with
  | .ok t => .ok (.ok (), t)
  | .error _ => .error .assertion

/-- The structure and the words are objects of their own on the heap, with room for them; and
    from then on every run of calls answers as the set of free indices does. -/
structure Created (M : PageAllocator σ) (arena : Nat) (objs : List Object) (nbits : Nat) (r : Nat × Nat × Bitmap)
    (t : Slob σ) : Prop where
  heap : ∃ o o' bs, o.pointer = r.1 ∧ o'.pointer = r.2.1 ∧ SIZEOF_BITMAP ≤ o.bytes ∧ 4 * words nbits ≤ o'.bytes ∧
    Heap M t arena bs (o' :: o :: objs)
  room : 4 * words nbits ≤ ksize t r.2.1
  start : Represents nbits r.2.2 (Finset.range nbits)
  calls : ∀ calls, AllProper nbits (Finset.range nbits) calls →
    (∃ after, run calls r.2.2 = .ok (.ok (steps (Finset.range nbits) calls).1, after) ∧
      Represents nbits after (steps (Finset.range nbits) calls).2) ∧
    ∀ i, .index i ∈ (steps (Finset.range nbits) calls).1 → i < nbits

/-- `kmalloc` returns a null pointer, for the structure or for the words. -/
def NoMemory (M : PageAllocator σ) (fuel nbits : Nat) (s : Slob σ) : Prop :=
  (∃ t, kmalloc M fuel SIZEOF_BITMAP s = .ok (none, t)) ∨
    ∃ p t u, kmalloc M fuel SIZEOF_BITMAP s = .ok (some p, t) ∧ kmalloc M fuel (4 * words nbits) t = .ok (none, u)

/-- On every heap `bitmap_create` returns a bitmap, or a null pointer where there is no memory, and
    then leaves nothing behind. -/
def Works (nbits : Nat) : Prop :=
  ∀ {σ : Type} (M : PageAllocator σ) (s : Slob σ) (arena : Nat) (bs : List Extent) (objs : List Object),
    Heap M s arena bs objs → ∃ enough, ∀ fuel ≥ enough,
      Spec (fun _ => False) (bitmapCreate (heapKmalloc M fuel) (heapKfree M fuel) nbits) s
        (Created M arena objs nbits)
        fun error t => error = .noMem ∧ NoMemory M fuel nbits s ∧ ∃ bs', Heap M t arena bs' objs

/-- The sizes that `kmalloc` has room for. -/
def Roomy (size : Nat) : Prop := size < 4064 ∨ 4080 ≤ size ∧ ∀ k, ¬(4096 * 2 ^ k < size ∧ size < 4097 * 2 ^ k)

variable {M : PageAllocator σ} {s : Slob σ} {arena size nbits : Nat} {bs : List Extent} {objs : List Object}

/-! ## One call of `kmalloc` -/

/-- With fuel enough, `kmalloc` returns a new object with room, or a null pointer. -/
theorem kmalloc_roomy (heap : Heap M s arena bs objs) (least : 1 ≤ size) (small : size < 2 ^ 31) (roomy : Roomy size) :
    ∃ enough p t, (∀ fuel ≥ enough, kmalloc M fuel size s = .ok (p, t)) ∧
      ((p = none ∧ ∃ bs', Heap M t arena bs' objs) ∨
        ∃ o bs', p = some o.pointer ∧ size ≤ ksize t o.pointer ∧ size ≤ o.bytes ∧ Heap M t arena bs' (o :: objs)) := by
  have header : Mm.Kmalloc.SLOB_UNIT = 16 := rfl
  have page : Mm.Kmalloc.PAGE_SIZE = 4096 := rfl
  obtain ⟨enough, serves⟩ : Serves M s arena objs size := by
    rcases roomy with below | ⟨above, exact⟩
    · exact serves_small heap least (by omega)
    · exact (serves_large heap (by omega)).mpr (.inr ⟨small, exact⟩)
  obtain ⟨p, t, run, holds⟩ := serves (max enough (2 * bs.length + 4)) (le_max_left ..)
  refine ⟨max enough (2 * bs.length + 4), p, t, fun fuel more => kmalloc_mono run more, ?_⟩
  cases p with
  | some block =>
      obtain ⟨sized, o, bs', pointer, bytes, heap'⟩ := holds block rfl
      exact .inr ⟨o, bs', congrArg some pointer.symm, pointer ▸ sized, bytes, heap'⟩
  | none =>
      refine .inl ⟨rfl, ?_⟩
      rcases roomy with below | ⟨above, -⟩
      · have fits : size + Mm.Kmalloc.SLOB_UNIT + Mm.Kmalloc.SLOB_UNIT < Mm.Kmalloc.PAGE_SIZE := by omega
        rcases kmalloc_small heap least fits (le_max_right ..) with ⟨e, t', bs', run', -⟩ | ⟨t', run', heap'⟩
        · cases run.symm.trans run'
        · obtain ⟨-, rfl⟩ := Prod.mk.inj (Except.ok.inj (run.symm.trans run'))
          exact ⟨bs, heap'⟩
      · have large : Mm.Kmalloc.PAGE_SIZE ≤ size + Mm.Kmalloc.SLOB_UNIT := by omega
        rcases kmalloc_large heap large (le_max_right ..) with ⟨-, e, q, t', bs', run', -⟩ | ⟨-, t', bs', run', heap'⟩
        · cases run.symm.trans run'
        · obtain ⟨-, rfl⟩ := Prod.mk.inj (Except.ok.inj (run.symm.trans run'))
          exact ⟨bs', heap'⟩

theorem heapKmalloc_spec {fuel : Nat} {p : Option Nat} {t : Slob σ} {Q : Nat → Slob σ → Prop} {E : Err → Slob σ → Prop}
    (run : kmalloc M fuel size s = .ok (p, t)) (failed : p = none → E .noMem t)
    (post : ∀ block, p = some block → Q block t) :
    Spec (fun _ => False) (heapKmalloc M fuel size) s Q E := by
  unfold Spec heapKmalloc
  rw [run]
  cases p with
  | none => exact failed rfl
  | some block => exact post block rfl

/-! ## `bitmap_create` -/

theorem words_bounds (positive : nbits ≠ 0) (fits : nbits < 2 ^ 32) :
    1 ≤ 4 * words nbits ∧ 4 * words nbits < 2 ^ 31 := by
  simp only [words, WORD_BITS]
  omega

theorem roomy_works (positive : nbits ≠ 0) (fits : nbits < 2 ^ 32) (roomy : Roomy (4 * words nbits)) : Works nbits := by
  intro σ M s arena bs objs heap
  obtain ⟨some, below⟩ := words_bounds positive fits
  obtain ⟨enough₁, p, t, run₁, first⟩ :=
    kmalloc_roomy heap (show 1 ≤ SIZEOF_BITMAP by decide) (by decide) (.inl (by decide))
  rcases first with ⟨rfl, bs', heap'⟩ | ⟨o, bs', rfl, -, room, heap'⟩
  · refine ⟨enough₁, fun fuel more => bitmapCreate_spec positive fits ?_⟩
    refine heapKmalloc_spec (run₁ fuel more) (fun _ => ⟨rfl, .inl ⟨t, run₁ fuel more⟩, bs', heap'⟩)
      fun block given => ?_
    cases given
  obtain ⟨enough₂, q, u, run₂, second⟩ := kmalloc_roomy heap' some below roomy
  rcases second with ⟨rfl, bs'', heap''⟩ | ⟨o', bs'', rfl, sized, room', heap''⟩
  · -- No memory for the words: the structure goes back.
    obtain ⟨v, bs₃, freed, -, heap₃⟩ := kfree_spec heap'' List.mem_cons_self (Nat.le_refl _)
    rw [List.erase_cons_head] at heap₃
    refine ⟨max (max enough₁ enough₂) (bs''.length + 1), fun fuel more => bitmapCreate_spec positive fits ?_⟩
    have run₁ := run₁ fuel (by omega)
    have run₂ := run₂ fuel (by omega)
    have freed := kfree_mono freed (show bs''.length + 1 ≤ fuel by omega)
    refine heapKmalloc_spec run₁ (fun none => absurd none (Option.some_ne_none _)) fun block given => ?_
    obtain rfl := Option.some.inj given
    refine heapKmalloc_spec run₂ (fun _ => ?_) fun block given => ?_
    · unfold Spec heapKfree
      rw [freed]
      exact ⟨rfl, .inr ⟨_, t, u, run₁, run₂⟩, bs₃, heap₃⟩
    · cases given
  · refine ⟨max enough₁ enough₂, fun fuel more => bitmapCreate_spec positive fits ?_⟩
    refine heapKmalloc_spec (run₁ fuel (by omega)) (fun none => absurd none (Option.some_ne_none _))
      fun block given => ?_
    obtain rfl := Option.some.inj given
    refine heapKmalloc_spec (run₂ fuel (by omega)) (fun none => absurd none (Option.some_ne_none _))
      fun block given => ?_
    obtain rfl := Option.some.inj given
    intro bitmap rep
    exact ⟨⟨o, o', bs'', rfl, rfl, room, room', heap''⟩, sized, rep, fun calls proper => calls_spec rep proper⟩

/-! ## Where there is no room -/

/-- On the heap at boot the structure gets the first units of a new page. -/
theorem booted_structure : ∃ t bs' o, (∀ fuel ≥ 8, kmalloc unused fuel SIZEOF_BITMAP booted = .ok (some 257, t)) ∧
    Heap unused t 16 bs' [o] := by
  obtain ⟨t, run⟩ : ∃ t, kmalloc unused 8 SIZEOF_BITMAP booted = .ok (some 257, t) := ⟨_, rfl⟩
  have enough : 2 * ([] : List Extent).length + 4 ≤ 8 := by decide
  rcases kmalloc_small booted_heap (show 1 ≤ SIZEOF_BITMAP by decide) (by decide) enough with
    ⟨e, t', bs', run', -, heap⟩ | ⟨t', run', -⟩
  · obtain ⟨-, rfl⟩ := Prod.mk.inj (Except.ok.inj (run.symm.trans run'))
    exact ⟨t, bs', _, fun fuel more => kmalloc_mono run more, heap⟩
  · cases run.symm.trans run'

/-- What `bitmap_create` returns comes from the two calls of `kmalloc`. -/
theorem created_given {σ : Type} {kmalloc : Nat → Op σ Nat} {kfree : Nat → Op σ Unit} {s : σ}
    {Q : Nat × Nat × Bitmap → σ → Prop} {E : Err → σ → Prop} (positive : nbits ≠ 0) (fits : nbits < 2 ^ 32)
    (spec : Spec (fun _ => False) (bitmapCreate kmalloc kfree nbits) s Q E) :
    Spec (fun _ => False) (kmalloc SIZEOF_BITMAP) s (fun p t => Spec (fun _ => False) (kmalloc (4 * words nbits)) t
      (fun q u => ∃ bitmap, Q (p, q, bitmap) u)
      fun error u => Spec (fun _ => False) (kfree p) u (fun _ v => E error v) E) E := by
  have guard : nbits ≠ 0 ∧ nbits < (nbits + WORD_BITS) % 2 ^ 64 := by
    simp only [WORD_BITS]
    omega
  simp only [bitmapCreate, spec_bind, spec_ensure_of guard, spec_onError] at spec
  refine spec.mono (fun p t inner => inner.mono (fun q u rest => ?_) fun _ _ failed => failed) fun _ _ failed => failed
  rw [spec_ite] at rest
  by_cases exact : nbits = words nbits * WORD_BITS
  · exact ⟨_, spec_pure.mp (rest.1 exact)⟩
  · have tail := rest.2 exact
    simp only [spec_bind, spec_ensure, spec_pure, imp_false, not_not] at tail
    obtain ⟨inner, ix⟩ := tail
    obtain ⟨post, bits⟩ := inner ix
    exact ⟨_, post bits⟩

theorem not_roomy {size : Nat} (bad : ¬Roomy size) :
    4064 ≤ size ∧ size < 4080 ∨ 4080 ≤ size ∧ ∃ k, 4096 * 2 ^ k < size ∧ size < 4097 * 2 ^ k := by
  rw [Roomy, not_or, not_and_or, not_forall] at bad
  obtain ⟨large, between | ⟨k, short⟩⟩ := bad
  · exact .inl (by omega)
  · rcases Nat.lt_or_ge size 4080 with between | above
    · exact .inl (by omega)
    · exact .inr ⟨above, k, not_not.mp short⟩

theorem not_works (positive : nbits ≠ 0) (fits : nbits < 2 ^ 32) (bad : ¬Roomy (4 * words nbits)) : ¬Works nbits := by
  intro works
  have header : Mm.Kmalloc.SLOB_UNIT = 16 := rfl
  have page : Mm.Kmalloc.PAGE_SIZE = 4096 := rfl
  obtain ⟨enough, spec⟩ := works unused booted 16 [] [] booted_heap
  obtain ⟨t, bs', o, run, heap⟩ := booted_structure
  obtain ⟨fuel, more, least, longer⟩ : ∃ fuel, enough ≤ fuel ∧ 8 ≤ fuel ∧ 2 * bs'.length + 4 ≤ fuel :=
    ⟨max enough (max 8 (2 * bs'.length + 4)), by omega, by omega, by omega⟩
  have given := created_given positive fits (spec fuel more)
  have first : heapKmalloc unused fuel SIZEOF_BITMAP booted = .ok (.ok 257, t) := by
    rw [heapKmalloc, run fuel least]
  have second := given.value first
  rcases not_roomy bad with ⟨low, high⟩ | ⟨above, k, short⟩
  · have fails : heapKmalloc unused fuel (4 * words nbits) t = .error .assertion := by
      rw [heapKmalloc, kmalloc_between (by omega) (by omega)]
    unfold Spec at second
    rw [fails] at second
    exact second
  · have large : Mm.Kmalloc.PAGE_SIZE ≤ 4 * words nbits + Mm.Kmalloc.SLOB_UNIT := by omega
    rcases kmalloc_large heap large longer with ⟨-, e, q, u, bs'', run', heap'⟩ | ⟨refused, -⟩
    · have gets : heapKmalloc unused fuel (4 * words nbits) t = .ok (.ok (q * Mm.Kmalloc.pageUnits), u) := by
        rw [heapKmalloc, run']
      obtain ⟨bitmap, created⟩ := second.value gets
      have room := created.room
      rw [Mm.KmallocHeap.ksize_large heap', Nat.shiftLeft_eq, Nat.mul_comm Mm.Kmalloc.PAGE_SIZE] at room
      exact ((exact_iff _).mp (room.trans (Nat.mod_le ..))).2 k short
    · exact unused_granted _ _ _ refused

/-- `bitmap_create` does what it should exactly where `kmalloc` has room for the words. -/
theorem bitmap_works_iff (positive : nbits ≠ 0) (fits : nbits < 2 ^ 32) :
    Works nbits ↔ 4 * words nbits < 4064 ∨
      4080 ≤ 4 * words nbits ∧ ∀ k, ¬(4096 * 2 ^ k < 4 * words nbits ∧ 4 * words nbits < 4097 * 2 ^ k) := by
  constructor
  · intro works
    by_contra bad
    exact not_works positive fits bad works
  · exact roomy_works positive fits

/-- On the heap at boot a bitmap of 33 bits is made, and one bit of its second word is in use from
    the start: there is no index 33. -/
theorem bitmap_works_iff_leftover : ∃ fuel r t,
    bitmapCreate (heapKmalloc unused fuel) (heapKfree unused fuel) 33 booted = .ok (.ok r, t) ∧
      ∃ after, run [.alloc, .test 0, .free 0, .alloc, .test 32] r.2.2 =
        .ok (.ok [.index 0, .bit false, .freed, .index 0, .bit true], after) := by
  have works : Works 33 := (bitmap_works_iff (by decide) (by decide)).mpr (.inl (by decide))
  obtain ⟨enough, spec⟩ := works unused booted 16 [] [] booted_heap
  have least : max enough 8 ≥ 8 := le_max_right ..
  have spec := spec (max enough 8) (le_max_left ..)
  obtain ⟨t, u, first, second⟩ : ∃ t u, kmalloc unused 8 SIZEOF_BITMAP booted = .ok (some 257, t) ∧
      kmalloc unused 8 (4 * words 33) t = .ok (some 259, u) := ⟨_, _, rfl, rfl⟩
  have first := kmalloc_mono first least
  have second := kmalloc_mono second least
  unfold Spec at spec
  split at spec
  · rename_i r v made
    refine ⟨_, r, v, made, ?_⟩
    have proper : AllProper 33 (Finset.range 33) [.alloc, .test 0, .free 0, .alloc, .test 32] := by
      simp only [AllProper, Proper]
      decide +kernel
    obtain ⟨⟨after, ran, -⟩, -⟩ := spec.calls _ proper
    refine ⟨after, ran.trans ?_⟩
    have answers : (steps (Finset.range 33) [.alloc, .test 0, .free 0, .alloc, .test 32]).1 =
        [.index 0, .bit false, .freed, .index 0, .bit true] := by decide +kernel
    rw [answers]
  · obtain ⟨-, ⟨v, refused⟩ | ⟨p, v, w, given, refused⟩, -⟩ := spec
    · exact absurd (Prod.mk.inj (Except.ok.inj (first.symm.trans refused))).1 (Option.some_ne_none _)
    · obtain ⟨-, rfl⟩ := Prod.mk.inj (Except.ok.inj (first.symm.trans given))
      exact absurd (Prod.mk.inj (Except.ok.inj (second.symm.trans refused))).1 (Option.some_ne_none _)
  · exact spec.elim

/-- For 32481 bits the assertion of `slob_alloc` fails, and the words of 262145 bits get a page less
    than they take. -/
theorem bitmap_not_works : ¬Works 32481 ∧ ¬Works 262145 := by
  refine ⟨not_works (by decide) (by decide) fun roomy => ?_, not_works (by decide) (by decide) fun roomy => ?_⟩
  · rcases roomy with below | ⟨above, -⟩
    · exact absurd below (by decide)
    · exact absurd above (by decide)
  · rcases roomy with below | ⟨-, exact⟩
    · exact absurd below (by decide)
    · exact exact 3 (by decide)

end Ucore.Fs.BitmapHeap
