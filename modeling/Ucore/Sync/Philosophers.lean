import Ucore.Lib.Run
import Ucore.Sync.CheckSync

/-! # Dining philosophers

What holds around the table at any time: of the mutex and who is inside, of the
states of neighbours, and of the semaphore each philosopher waits on for the forks.
-/

namespace Ucore.Sync.Philosophers

open Lib.Run Lib.Semaphore CheckSync

variable {N : Nat}

/-! ## Places -/

/-- Between the return of `down(&mutex)` and `up(&mutex)`. -/
def inside : Pc → Bool
  | .takeSet | .takeTest | .takeSignal | .takeUp => true
  | .putSet | .putTestLeft | .putSignalLeft | .putTestRight | .putSignalRight | .putUp => true
  | _ => false

/-- In `down(&mutex)`, without a unit so far. -/
def waits : Pc → Bool
  | .takeWait | .putWait => true
  | _ => false

/-- Past `down(&s[i])`, and `state_sema[i]` not set back yet. -/
def passed : Pc → Bool
  | .putDown | .putWait | .putSet => true
  | _ => false

/-- Whose `up(&s[j])` is the next step of `i`. -/
def signals (pc : Pc) (i : Fin N) : Option (Fin N) :=
  match pc with
  | .takeSignal => some i
  | .putSignalLeft => some (left i)
  | .putSignalRight => some (right i)
  | _ => none

/-- Whom `i` is still going to test before `up(&mutex)`. -/
def Tests (pc : Pc) (i j : Fin N) : Prop :=
  match pc with
  | .takeTest => j = i
  | .putTestLeft => j = left i ∨ j = right i
  | .putSignalLeft | .putTestRight => j = right i
  | _ => False

/-- The states a philosopher may have at a place. -/
def fits : Pc → PhState → Bool
  | .takeDown, state | .takeWait, state | .takeSet, state => state = .thinking
  | .takeTest, state => state = .hungry
  | .takeSignal, state => state = .eating
  | .takeUp, state | .forkDown, state | .forkWait, state => state ≠ .thinking
  | .putDown, state | .putWait, state | .putSet, state => state = .eating
  | _, state => state = .thinking

theorem right_left (i : Fin N) : right (left i) = i := by
  have := i.isLt
  apply Fin.ext
  simp only [right, left]
  by_cases zero : i.val = 0
  · rw [zero, Nat.zero_add, Nat.mod_eq_of_lt (show N - 1 < N by omega), show N - 1 + 1 = N by omega,
      Nat.mod_self]
  · rw [show i.val + N - 1 = i.val - 1 + N by omega, Nat.add_mod_right,
      Nat.mod_eq_of_lt (show i.val - 1 < N by omega), show i.val - 1 + 1 = i.val by omega,
      Nat.mod_eq_of_lt i.isLt]

theorem left_right (i : Fin N) : left (right i) = i := by
  have := i.isLt
  apply Fin.ext
  simp only [right, left]
  by_cases last : i.val + 1 = N
  · rw [last, Nat.mod_self, Nat.zero_add, Nat.mod_eq_of_lt (show N - 1 < N by omega)]
    omega
  · rw [Nat.mod_eq_of_lt (show i.val + 1 < N by omega), show i.val + 1 + N - 1 = i.val + N by omega,
      Nat.add_mod_right, Nat.mod_eq_of_lt i.isLt]

theorem right_ne {i : Fin N} (two : 2 ≤ N) : right i ≠ i := by
  intro same
  have value := congrArg Fin.val same
  have := i.isLt
  simp only [right] at value
  by_cases last : i.val + 1 = N
  · rw [last, Nat.mod_self] at value
    omega
  · rw [Nat.mod_eq_of_lt (by omega)] at value
    omega

/-! ## The mutex -/

/-- One philosopher moved. -/
theorem sum_move (f : Fin N → Pc → Nat) (pc : Fin N → Pc) (k : Fin N) (b : Pc) :
    ∑ i, f i (Function.update pc k b i) + f k (pc k) = ∑ i, f i (pc i) + f k b := by
  have moved := Finset.sum_erase_add Finset.univ (fun i => f i (Function.update pc k b i)) (Finset.mem_univ k)
  have before := Finset.sum_erase_add Finset.univ (fun i => f i (pc i)) (Finset.mem_univ k)
  have same : ∑ i ∈ Finset.univ.erase k, f i (Function.update pc k b i) =
      ∑ i ∈ Finset.univ.erase k, f i (pc i) :=
    Finset.sum_congr rfl fun i other => by rw [Function.update_of_ne (Finset.ne_of_mem_erase other)]
  rw [Function.update_self] at moved
  omega

/-- There is one unit: free, granted, or with the philosopher inside. -/
structure Locked (mutex : Sem (Fin N)) (pc : Fin N → Pc) : Prop where
  prompt : mutex.Prompt
  one : mutex.units + ∑ i, (inside (pc i)).toNat = 1
  queue : ∀ i, (mutex.waiting ++ mutex.granted).count i = (waits (pc i)).toNat

namespace Locked

variable {mutex : Sem (Fin N)} {pc : Fin N → Pc} {k : Fin N} {a b : Pc}

theorem move (locked : Locked mutex pc) (sameInside : inside b = inside (pc k))
    (sameWaits : waits b = waits (pc k)) : Locked mutex (Function.update pc k b) where
  prompt := locked.prompt
  one := by
    have moved := sum_move (fun _ pc => (inside pc).toNat) pc k b
    have one := locked.one
    simp only [sameInside] at moved
    omega
  queue i := by
    rw [locked.queue i, Function.update_apply]
    split
    · rename_i itself
      rw [itself, sameWaits]
    · rfl

theorem down (locked : Locked mutex pc) (outside : inside (pc k) = false) (idle : waits (pc k) = false)
    (aInside : inside a = true) (aIdle : waits a = false) (bOutside : inside b = false)
    (bWaits : waits b = true) :
    Locked (mutex.down k).1 (Function.update pc k (if (mutex.down k).2 then a else b)) := by
  have one := locked.one
  cases taken : (mutex.down k).2 with
  | true =>
      have units := Sem.down_units taken
      obtain ⟨waiting, granted⟩ := Sem.down_queue taken
      refine ⟨locked.prompt.down k, ?_, fun i => ?_⟩
      · have moved := sum_move (fun _ pc => (inside pc).toNat) pc k a
        simp only [outside, aInside, Bool.toNat_true, Bool.toNat_false] at moved
        simp only [if_true]
        omega
      · rw [waiting, granted, locked.queue i, if_pos rfl, Function.update_apply]
        split
        · rename_i itself
          rw [itself, idle, aIdle]
        · rfl
  | false =>
      obtain ⟨units, waiting, granted⟩ := Sem.down_waits taken
      refine ⟨locked.prompt.down k, ?_, fun i => ?_⟩
      · have moved := sum_move (fun _ pc => (inside pc).toNat) pc k b
        simp only [outside, bOutside, Bool.toNat_false] at moved
        simp only [Bool.false_eq_true, if_false]
        omega
      · have before := locked.queue i
        rw [List.count_append] at before
        rw [waiting, granted, if_neg (by simp)]
        by_cases itself : i = k
        · subst itself
          rw [idle, Bool.toNat_false] at before
          simp [bWaits]
          omega
        · rw [Function.update_of_ne itself, ← before]
          simp [Ne.symm itself]

theorem resume (locked : Locked mutex pc) (granted : k ∈ mutex.granted) (waited : waits (pc k) = true)
    (outside : inside (pc k) = false) (aInside : inside a = true) (aIdle : waits a = false) :
    Locked (mutex.resume k) (Function.update pc k a) := by
  have one := locked.one
  have units := Sem.resume_units granted
  refine ⟨fun positive => locked.prompt positive, ?_, fun i => ?_⟩
  · have moved := sum_move (fun _ pc => (inside pc).toNat) pc k a
    simp only [outside, aInside, Bool.toNat_true, Bool.toNat_false] at moved
    omega
  · have before := locked.queue i
    rw [List.count_append] at before
    by_cases itself : i = k
    · subst itself
      have := List.count_pos_iff.mpr granted
      rw [waited, Bool.toNat_true] at before
      simp [Sem.resume, aIdle]
      omega
    · rw [Function.update_of_ne itself, ← before]
      simp [Sem.resume, List.count_erase_of_ne itself]

theorem up (locked : Locked mutex pc) (within : inside (pc k) = true) (idle : waits (pc k) = false)
    (outside : inside b = false) (bIdle : waits b = false) :
    Locked mutex.up (Function.update pc k b) := by
  have one := locked.one
  refine ⟨locked.prompt.up, ?_, fun i => ?_⟩
  · have moved := sum_move (fun _ pc => (inside pc).toNat) pc k b
    simp only [within, outside, Bool.toNat_true, Bool.toNat_false] at moved
    rw [Sem.up_units]
    omega
  · rw [(Sem.up_perm mutex).count_eq, locked.queue i, Function.update_apply]
    split
    · rename_i itself
      rw [itself, idle, bIdle]
    · rfl

/-- At most one philosopher is inside. -/
theorem unique (locked : Locked mutex pc) {i j : Fin N} (first : inside (pc i) = true)
    (second : inside (pc j) = true) : i = j := by
  by_contra other
  have pair := Finset.sum_le_sum_of_subset (f := fun i => (inside (pc i)).toNat)
    (Finset.subset_univ {i, j})
  rw [Finset.sum_pair other, first, second] at pair
  have one := locked.one
  simp only [Bool.toNat_true] at pair
  omega

theorem nobody (locked : Locked mutex pc) (free : 0 < mutex.value) (i : Fin N) : inside (pc i) = false := by
  by_contra within
  have single := Finset.single_le_sum (f := fun i => (inside (pc i)).toNat) (fun _ _ => Nat.zero_le _)
    (Finset.mem_univ i)
  have one := locked.one
  simp only [Bool.not_eq_false] at within
  simp only [within, Bool.toNat_true, Sem.units] at single one
  omega

end Locked

/-! ## The forks -/

/-- `i` is eating, but has not passed its `down(&s[i])` yet. -/
def owed (state : Fin N → PhState) (pc : Fin N → Pc) (i : Fin N) : Nat :=
  if state i = .eating ∧ passed (pc i) = false then 1 else 0

/-- The steps `up(&s[i])` that come next. -/
def pending (pc : Fin N → Pc) (i : Fin N) : Nat :=
  ∑ j, if signals (pc j) j = some i then 1 else 0

/-- Each semaphore is used by one philosopher, and holds the unit it is owed. -/
structure Served (s : Fin N → Sem (Fin N)) (state : Fin N → PhState) (pc : Fin N → Pc) : Prop where
  prompt : ∀ i, (s i).Prompt
  queue : ∀ i, (s i).waiting ++ (s i).granted = if pc i = .forkWait then [i] else []
  units : ∀ i, (s i).units + pending pc i = owed state pc i

theorem pending_move (pc : Fin N → Pc) (k : Fin N) (b : Pc) (i : Fin N) :
    pending (Function.update pc k b) i + (if signals (pc k) k = some i then 1 else 0) =
      pending pc i + (if signals b k = some i then 1 else 0) :=
  sum_move (fun j pc => if signals pc j = some i then 1 else 0) pc k b

namespace Served

variable {s : Fin N → Sem (Fin N)} {state state' : Fin N → PhState} {pc : Fin N → Pc} {k : Fin N} {b : Pc}

/-- A step that leaves the semaphores alone. -/
theorem move (served : Served s state pc) (sameWait : b = .forkWait ↔ pc k = .forkWait)
    (owes : ∀ i, owed state' (Function.update pc k b) i + (if signals (pc k) k = some i then 1 else 0) =
      owed state pc i + (if signals b k = some i then 1 else 0)) :
    Served s state' (Function.update pc k b) where
  prompt := served.prompt
  queue i := by
    rw [served.queue i, Function.update_apply]
    by_cases itself : i = k
    · simp [itself, sameWait]
    · simp [itself]
  units i := by
    have moved := pending_move pc k b i
    have before := served.units i
    have := owes i
    omega

theorem quiet (served : Served s state pc) (noneBefore : signals (pc k) k = none)
    (noneAfter : signals b k = none) (samePassed : passed b = passed (pc k))
    (sameWait : b = .forkWait ↔ pc k = .forkWait) : Served s state (Function.update pc k b) := by
  refine served.move sameWait fun i => ?_
  rw [noneBefore, noneAfter, owed, owed, Function.update_apply]
  by_cases itself : i = k
  · simp [itself, samePassed]
  · simp [itself]

/-- The state of the philosopher itself changes, but it was not owed a unit and is not now. -/
theorem become (served : Served s state pc) {c : PhState} (noneBefore : signals (pc k) k = none)
    (noneAfter : signals b k = none) (settled : owed state pc k = 0) (notEating : c ≠ .eating)
    (sameWait : b = .forkWait ↔ pc k = .forkWait) :
    Served s (Function.update state k c) (Function.update pc k b) := by
  refine served.move sameWait fun i => ?_
  rw [noneBefore, noneAfter]
  by_cases itself : i = k
  · subst itself
    simp [owed, notEating] at settled ⊢
    exact settled
  · simp [owed, itself]

/-- A philosopher starts to eat, and its unit is on the way. -/
theorem enter (served : Served s state pc) {j : Fin N} (hungry : state j = .hungry)
    (noneBefore : signals (pc k) k = none) (signalsAfter : signals b k = some j)
    (notPassed : passed (if j = k then b else pc j) = false) (samePassed : passed b = passed (pc k))
    (sameWait : b = .forkWait ↔ pc k = .forkWait) :
    Served s (Function.update state j .eating) (Function.update pc k b) := by
  refine served.move sameWait fun i => ?_
  rw [noneBefore, signalsAfter]
  by_cases seat : i = j
  · subst seat
    have now : passed (Function.update pc k b i) = false := by
      rwa [Function.update_apply]
    simp [owed, now, hungry]
  · by_cases itself : i = k
    · subst itself
      simp [owed, seat, samePassed, Ne.symm seat]
    · simp [owed, seat, itself, Ne.symm seat]

/-- The unit arrives. -/
theorem send (served : Served s state pc) {j : Fin N} (signalsBefore : signals (pc k) k = some j)
    (noneAfter : signals b k = none) (samePassed : passed b = passed (pc k))
    (notWaiting : b ≠ .forkWait ∧ pc k ≠ .forkWait) :
    Served (Function.update s j (s j).up) state (Function.update pc k b) where
  prompt i := by
    by_cases seat : i = j
    · subst seat
      simpa using (served.prompt i).up
    · simpa [seat] using served.prompt i
  queue i := by
    have waits : (if Function.update pc k b i = .forkWait then [i] else []) =
        if pc i = .forkWait then [i] else [] := by
      by_cases itself : i = k
      · simp [itself, notWaiting]
      · simp [itself]
    rw [waits, ← served.queue i]
    by_cases seat : i = j
    · subst seat
      rw [Function.update_self]
      have queue := served.queue i
      have perm := (s i).up_perm
      rw [queue] at perm ⊢
      by_cases waiting : pc i = .forkWait
      · rw [if_pos waiting] at perm ⊢
        exact List.perm_singleton.mp perm
      · rw [if_neg waiting] at perm ⊢
        exact List.perm_nil.mp perm
    · rw [Function.update_of_ne seat]
  units i := by
    have moved := pending_move pc k b i
    have before := served.units i
    have owes : owed state (Function.update pc k b) i = owed state pc i := by
      rw [owed, owed, Function.update_apply]
      by_cases itself : i = k
      · simp [itself, samePassed]
      · simp [itself]
    rw [signalsBefore, noneAfter] at moved
    rw [owes]
    by_cases seat : i = j
    · subst seat
      simp only [if_true, Function.update_self, Sem.up_units] at moved ⊢
      simp at moved
      omega
    · simp [Ne.symm seat] at moved
      rw [Function.update_of_ne seat, moved]
      exact before

/-- The forks are taken: the unit a philosopher was owed is there. -/
theorem eats_of_units (served : Served s state pc) (positive : 0 < (s k).units) :
    state k = .eating ∧ passed (pc k) = false ∧ (s k).units = 1 := by
  have units := served.units k
  rw [owed] at units
  split at units
  · rename_i eats
    exact ⟨eats.1, eats.2, by omega⟩
  · omega

/-- A step of `k` at its own semaphore that passes it. -/
theorem pass (served : Served s state pc) {sem : Sem (Fin N)} (prompt : sem.Prompt)
    (queue : sem.waiting ++ sem.granted = []) (units : sem.units + 1 = (s k).units)
    (noneBefore : signals (pc k) k = none) (noneAfter : signals b k = none) (passedAfter : passed b = true)
    (goes : b ≠ .forkWait) : Served (Function.update s k sem) state (Function.update pc k b) where
  prompt i := by
    by_cases itself : i = k
    · subst itself
      simpa using prompt
    · simpa [itself] using served.prompt i
  queue i := by
    by_cases itself : i = k
    · subst itself
      simpa [goes] using queue
    · simpa [itself] using served.queue i
  units i := by
    have moved := pending_move pc k b i
    rw [noneBefore, noneAfter] at moved
    by_cases itself : i = k
    · subst itself
      obtain ⟨eats, notYet, one⟩ := served.eats_of_units (k := i) (by omega)
      have before := served.units i
      simp [owed, eats, notYet, passedAfter] at before moved ⊢
      omega
    · have before := served.units i
      simp [owed, itself] at before moved ⊢
      omega

theorem wait (served : Served s state pc) (empty : ((s k).down k).2 = false) (place : pc k = .forkDown) :
    Served (Function.update s k ((s k).down k).1) state (Function.update pc k .forkWait) where
  prompt i := by
    by_cases itself : i = k
    · subst itself
      simpa using (served.prompt i).down i
    · simpa [itself] using served.prompt i
  queue i := by
    by_cases itself : i = k
    · subst itself
      obtain ⟨-, waiting, granted⟩ := Sem.down_waits empty
      have queue := served.queue i
      simp [place] at queue
      simp [waiting, granted, queue]
    · simpa [itself] using served.queue i
  units i := by
    have moved := pending_move pc k .forkWait i
    have before := served.units i
    by_cases itself : i = k
    · subst itself
      obtain ⟨units, -, -⟩ := Sem.down_waits empty
      simp [owed, place, signals, passed, units] at before moved ⊢
      omega
    · simp [owed, itself, place, signals] at before moved ⊢
      omega

end Served

/-! ## The seats -/

/-- Some neighbour is eating. -/
def Beside (state : Fin N → PhState) (i : Fin N) : Prop :=
  state (left i) = .eating ∨ state (right i) = .eating

/-- No neighbours eat at once, and whoever is hungry sits beside one that eats or is
    going to be tested. -/
structure Seated (state : Fin N → PhState) (pc : Fin N → Pc) : Prop where
  fits : ∀ i, fits (pc i) (state i) = true
  apart : ∀ i, state i = .eating → state (right i) ≠ .eating
  hungry : ∀ i, state i = .hungry → Beside state i ∨ ∃ j, Tests (pc j) j i

namespace Seated

variable {state : Fin N → PhState} {pc : Fin N → Pc} {k j : Fin N} {a b : Pc}

/-- A step that changes no state and drops no test. -/
theorem move (seated : Seated state pc) (fitsNext : Philosophers.fits b (state k) = true)
    (kept : ∀ i, Tests (pc k) k i → Tests b k i) : Seated state (Function.update pc k b) where
  fits i := by
    by_cases itself : i = k
    · simpa [itself] using fitsNext
    · simpa [itself] using seated.fits i
  apart := seated.apart
  hungry i is := by
    refine (seated.hungry i is).imp_right fun ⟨j, tests⟩ => ⟨j, ?_⟩
    by_cases itself : j = k
    · subst itself
      simpa using kept i tests
    · simpa [itself] using tests

/-- A test that failed: who is hungry then sits beside one that eats. -/
theorem refuse (seated : Seated state pc) (fitsNext : Philosophers.fits b (state k) = true)
    (refused : ¬ CanEat state j) (kept : ∀ i, Tests (pc k) k i → i = j ∨ Tests b k i) :
    Seated state (Function.update pc k b) where
  fits i := by
    by_cases itself : i = k
    · simpa [itself] using fitsNext
    · simpa [itself] using seated.fits i
  apart := seated.apart
  hungry i is := by
    cases seated.hungry i is with
    | inl beside => exact Or.inl beside
    | inr tested =>
        obtain ⟨l, tests⟩ := tested
        by_cases itself : l = k
        · subst itself
          cases kept i tests with
          | inl same =>
              subst same
              refine Or.inl ?_
              by_contra free
              simp only [Beside, not_or] at free
              exact refused ⟨is, free.1, free.2⟩
          | inr later => exact Or.inr ⟨l, by simpa using later⟩
        · exact Or.inr ⟨l, by simpa [itself] using tests⟩

/-- A test that let `j` eat. -/
theorem enter (seated : Seated state pc) (can : CanEat state j) (two : right j ≠ j)
    (fitsNext : Philosophers.fits a (if k = j then .eating else state k) = true)
    (fitsOther : j ≠ k → Philosophers.fits (pc j) .eating = true)
    (kept : ∀ i, Tests (pc k) k i → i = j ∨ Tests a k i) :
    Seated (Function.update state j .eating) (Function.update pc k a) where
  fits i := by
    by_cases itself : i = k
    · subst itself
      simpa [Function.update_apply] using fitsNext
    · by_cases seat : i = j
      · subst seat
        simpa [itself] using fitsOther itself
      · simpa [itself, seat] using seated.fits i
  apart i eats := by
    obtain ⟨-, notLeft, notRight⟩ := can
    by_cases itself : i = j
    · subst itself
      rwa [Function.update_of_ne two]
    · rw [Function.update_of_ne itself] at eats
      by_cases next : right i = j
      · subst next
        rw [left_right] at notLeft
        exact absurd eats notLeft
      · rw [Function.update_of_ne next]
        exact seated.apart i eats
  hungry i is := by
    have other : i ≠ j := fun same => by simp [same] at is
    rw [Function.update_of_ne other] at is
    have more : ∀ l, state l = .eating → Function.update state j .eating l = .eating := by
      intro l eats
      rw [Function.update_apply]
      split
      · rfl
      · exact eats
    refine (seated.hungry i is).imp (Or.imp (more _) (more _)) fun ⟨l, tests⟩ => ⟨l, ?_⟩
    by_cases itself : l = k
    · subst itself
      simpa using (kept i tests).resolve_left other
    · simpa [itself] using tests

/-- A philosopher that sat down to wait, or that put the forks back. -/
theorem become (seated : Seated state pc) {c : PhState} (notEating : c ≠ .eating)
    (fitsNext : Philosophers.fits b c = true) (untested : ∀ i, ¬ Tests (pc k) k i)
    (hungryThen : c = .hungry → Tests b k k)
    (eatingBefore : state k = .eating → Tests b k (left k) ∧ Tests b k (right k)) :
    Seated (Function.update state k c) (Function.update pc k b) where
  fits i := by
    by_cases itself : i = k
    · simpa [itself] using fitsNext
    · simpa [itself] using seated.fits i
  apart i eats := by
    have other : i ≠ k := fun same => notEating (by simpa [same] using eats)
    rw [Function.update_of_ne other] at eats
    rw [Function.update_apply]
    split
    · exact notEating
    · exact seated.apart i eats
  hungry i is := by
    by_cases itself : i = k
    · subst itself
      exact Or.inr ⟨i, by simpa using hungryThen (by simpa using is)⟩
    · rw [Function.update_of_ne itself] at is
      have aside : ∀ l, state l = .eating → (l = k → Tests b k i) →
          Function.update state k c l = .eating ∨ ∃ j, Tests (Function.update pc k b j) j i := by
        intro l eats tested
        by_cases seat : l = k
        · exact Or.inr ⟨k, by simpa using tested seat⟩
        · exact Or.inl (by rwa [Function.update_of_ne seat])
      rcases seated.hungry i is with (eats | eats) | ⟨l, tests⟩
      · refine (aside _ eats fun same => ?_).imp_left Or.inl
        subst same
        have tested := (eatingBefore eats).2
        rwa [right_left] at tested
      · refine (aside _ eats fun same => ?_).imp_left Or.inr
        subst same
        have tested := (eatingBefore eats).1
        rwa [left_right] at tested
      · have other : l ≠ k := fun same => untested i (same ▸ tests)
        exact Or.inr ⟨l, by simpa [other] using tests⟩

end Seated

/-! ## Steps -/

structure Inv (t : Table N) : Prop where
  locked : Locked t.mutex t.pc
  served : Served t.s t.stateSema t.pc
  seated : Seated t.stateSema t.pc

theorem start_inv (N : Nat) : Inv (start N) where
  locked := ⟨Sem.init_prompt 1, by simp [start, inside], by simp [start, Sem.init, waits]⟩
  served :=
    ⟨fun _ => Sem.init_prompt 0, by simp [start, Sem.init], by simp [start, pending, signals, owed]⟩
  seated := ⟨by simp [start, fits], by simp [start], by simp [start]⟩

variable {t u : Table N} {k : Fin N} {a b : Pc}

/-- A move that has to do with the mutex at most. -/
structure Calm (k : Fin N) (a b : Pc) : Prop where
  before : signals a k = none
  after : signals b k = none
  passed : passed b = passed a
  wait : b = .forkWait ↔ a = .forkWait
  tests : ∀ i, Tests a k i → Tests b k i

theorem calm_inv (inv : Inv t) {mutex : Sem (Fin N)} (locked : Locked mutex (Function.update t.pc k b))
    (calm : Calm k (t.pc k) b) (fit : fits b (t.stateSema k) = true) :
    Inv ({ t with mutex := mutex }.go k b) where
  locked := locked
  served := inv.served.quiet calm.before calm.after calm.passed calm.wait
  seated := inv.seated.move fit calm.tests

/-- `down(&mutex)`, at the places `a` on return and `b` when it has to wait. -/
theorem downMutex_inv (inv : Inv t) (outside : inside (t.pc k) = false) (idle : waits (t.pc k) = false)
    (aInside : inside a = true) (aIdle : waits a = false) (bOutside : inside b = false)
    (bWaits : waits b = true) (aCalm : Calm k (t.pc k) a) (bCalm : Calm k (t.pc k) b)
    (aFits : fits a (t.stateSema k) = true) (bFits : fits b (t.stateSema k) = true) :
    Inv (downMutex t k a b) := by
  have locked := inv.locked.down outside idle aInside aIdle bOutside bWaits
  unfold downMutex
  cases taken : (t.mutex.down k).2 with
  | true =>
      rw [taken, if_pos rfl] at locked
      exact calm_inv inv locked aCalm aFits
  | false =>
      rw [taken, if_neg (by simp)] at locked
      exact calm_inv inv locked bCalm bFits

theorem resumeMutex_inv (inv : Inv t) (taken : resumeMutex t k a = some u) (waited : waits (t.pc k) = true)
    (outside : inside (t.pc k) = false) (aInside : inside a = true) (aIdle : waits a = false)
    (calm : Calm k (t.pc k) a) (fit : fits a (t.stateSema k) = true) : Inv u := by
  unfold resumeMutex at taken
  split at taken
  · rename_i granted
    obtain rfl := Option.some.inj taken
    exact calm_inv inv (inv.locked.resume granted waited outside aInside aIdle) calm fit
  · cases taken

theorem upMutex_inv (inv : Inv t) (within : inside (t.pc k) = true) (idle : waits (t.pc k) = false)
    (outside : inside b = false) (bIdle : waits b = false) (calm : Calm k (t.pc k) b)
    (fit : fits b (t.stateSema k) = true) : Inv (upMutex t k b) :=
  calm_inv inv (inv.locked.up within idle outside bIdle) calm fit

/-- A hungry philosopher that somebody else tests is past its own `up(&mutex)`. -/
theorem hungry_outside (inv : Inv t) {j : Fin N} (hungry : t.stateSema j = .hungry) (other : j ≠ k)
    (within : inside (t.pc k) = true) : t.pc j = .forkDown ∨ t.pc j = .forkWait := by
  have fit := inv.seated.fits j
  have outside : inside (t.pc j) = false := by
    by_contra both
    exact other (inv.locked.unique (by simpa using both) within)
  rw [hungry] at fit
  cases place : t.pc j <;> simp_all [fits, inside]

/-- `phi_test_sema(j)`, at the places `a` when `j` may eat and `b` otherwise. -/
theorem phiTest_inv (two : 2 ≤ N) (inv : Inv t) {j : Fin N} (within : inside (t.pc k) = true)
    (aInside : inside a = true) (idle : waits (t.pc k) = false ∧ waits a = false)
    (noneBefore : signals (t.pc k) k = none) (signalsAfter : signals a k = some j)
    (notPassed : passed (t.pc k) = false ∧ passed a = false)
    (notWaiting : t.pc k ≠ .forkWait ∧ a ≠ .forkWait)
    (aTests : ∀ i, Tests (t.pc k) k i → i = j ∨ Tests a k i)
    (aFits : fits a (if k = j then .eating else t.stateSema k) = true)
    (bInside : inside b = true) (bIdle : waits b = false) (bNone : signals b k = none)
    (bPassed : passed b = false) (bGoes : b ≠ .forkWait)
    (bTests : ∀ i, Tests (t.pc k) k i → i = j ∨ Tests b k i)
    (bFits : fits b (t.stateSema k) = true) : Inv (phiTest t k j a b) := by
  unfold phiTest
  split
  · rename_i can
    have place := fun other : j ≠ k => hungry_outside inv can.1 other within
    refine ⟨inv.locked.move (aInside.trans within.symm) (idle.2.trans idle.1.symm),
      inv.served.enter can.1 noneBefore signalsAfter ?_ (notPassed.2.trans notPassed.1.symm) (by simp [notWaiting]),
      inv.seated.enter can (right_ne two) aFits ?_ aTests⟩
    · split
      · exact notPassed.2
      · rename_i other
        rcases place other with is | is <;> rw [is] <;> rfl
    · intro other
      rcases place other with is | is <;> rw [is] <;> rfl
  · rename_i refused
    exact ⟨inv.locked.move (bInside.trans within.symm) (bIdle.trans idle.1.symm),
      inv.served.quiet noneBefore bNone (bPassed.trans notPassed.1.symm) (by simp [notWaiting, bGoes]),
      inv.seated.refuse bFits refused bTests⟩

/-- `up(&s[j])` in `phi_test_sema(j)`. -/
theorem phiSignal_inv (inv : Inv t) {j : Fin N} (sameInside : inside b = inside (t.pc k))
    (sameWaits : waits b = waits (t.pc k)) (signalsBefore : signals (t.pc k) k = some j)
    (noneAfter : signals b k = none) (samePassed : passed b = passed (t.pc k))
    (notWaiting : b ≠ .forkWait ∧ t.pc k ≠ .forkWait) (tests : ∀ i, Tests (t.pc k) k i → Tests b k i)
    (fit : fits b (t.stateSema k) = true) : Inv (phiSignal t k j b) where
  locked := inv.locked.move sameInside sameWaits
  served := inv.served.send signalsBefore noneAfter samePassed notWaiting
  seated := inv.seated.move fit tests

/-- `down(&s[i])` of philosopher `i`. -/
theorem forkDown_inv (inv : Inv t) (place : t.pc k = .forkDown) :
    Inv ({ t with s := Function.update t.s k ((t.s k).down k).1 }.go k
      (if ((t.s k).down k).2 then .putDown else .forkWait)) := by
  have fit := inv.seated.fits k
  have queue := inv.served.queue k
  rw [place] at fit queue
  cases taken : ((t.s k).down k).2 with
  | true =>
      have units := Sem.down_units taken
      obtain ⟨waiting, granted⟩ := Sem.down_queue taken
      have eats := (inv.served.eats_of_units (k := k) (by omega)).1
      refine ⟨inv.locked.move (by rw [place]; rfl) (by rw [place]; rfl),
        inv.served.pass ((inv.served.prompt k).down k) ?_ units (by rw [place]; rfl) rfl rfl (by simp),
        inv.seated.move (by rw [eats]; rfl) (by simp [place, Tests])⟩
      rw [waiting, granted, queue]
      rfl
  | false =>
      exact ⟨inv.locked.move (by rw [place]; rfl) (by rw [place]; rfl), inv.served.wait taken place,
        inv.seated.move fit (by simp [place, Tests])⟩

theorem forkWait_inv (inv : Inv t) (place : t.pc k = .forkWait) (granted : k ∈ (t.s k).granted) :
    Inv ({ t with s := Function.update t.s k ((t.s k).resume k) }.go k .putDown) := by
  have units := Sem.resume_units granted
  have queue := inv.served.queue k
  rw [place, if_pos rfl] at queue
  have eats := (inv.served.eats_of_units (k := k) (by omega)).1
  obtain ⟨waiting, granted⟩ : (t.s k).waiting = [] ∧ (t.s k).granted = [k] := by
    cases waiting : (t.s k).waiting with
    | nil => simpa [waiting] using queue
    | cons i rest =>
        rw [waiting] at queue
        simp at queue
        simp [queue] at granted
  refine ⟨inv.locked.move (by rw [place]; rfl) (by rw [place]; rfl),
    inv.served.pass (fun _ => waiting) ?_ units (by rw [place]; rfl) rfl rfl (by simp),
    inv.seated.move (by rw [eats]; rfl) (by simp [place, Tests])⟩
  simp [Sem.resume, waiting, granted]

theorem step_inv (two : 2 ≤ N) (inv : Inv t) (taken : step t k = some u) : Inv u := by
  have fit := inv.seated.fits k
  have apart : k ≠ left k ∧ k ≠ right k := by
    have right_ne := right_ne two (i := left k)
    rw [right_left] at right_ne
    exact ⟨right_ne, (Philosophers.right_ne two).symm⟩
  unfold step at taken
  cases place : t.pc k with
  | takeDown =>
      rw [place] at taken fit
      obtain rfl := Option.some.inj taken
      exact downMutex_inv inv (by rw [place]; rfl) (by rw [place]; rfl) rfl rfl rfl rfl
        ⟨by rw [place]; rfl, rfl, by rw [place]; rfl, by simp [place], by simp [place, Tests]⟩
        ⟨by rw [place]; rfl, rfl, by rw [place]; rfl, by simp [place], by simp [place, Tests]⟩ fit fit
  | takeWait =>
      rw [place] at taken fit
      exact resumeMutex_inv inv taken (by rw [place]; rfl) (by rw [place]; rfl) rfl rfl
        ⟨by rw [place]; rfl, rfl, by rw [place]; rfl, by simp [place], by simp [place, Tests]⟩ fit
  | takeSet =>
      rw [place] at taken fit
      obtain rfl := Option.some.inj taken
      have thinking : t.stateSema k = .thinking := by simpa [fits] using fit
      exact ⟨inv.locked.move (by rw [place]; rfl) (by rw [place]; rfl),
        inv.served.become (by rw [place]; rfl) rfl (by simp [owed, thinking]) (by simp) (by simp [place]),
        inv.seated.become (by simp) rfl (by simp [place, Tests]) (fun _ => rfl) (by simp [thinking])⟩
  | takeTest =>
      rw [place] at taken fit
      obtain rfl := Option.some.inj taken
      have hungry : t.stateSema k = .hungry := by simpa [fits] using fit
      exact phiTest_inv two inv (by rw [place]; rfl) rfl ⟨by rw [place]; rfl, rfl⟩ (by rw [place]; rfl) rfl
        ⟨by rw [place]; rfl, rfl⟩ (by simp [place]) (by simp [place, Tests]) (by simp [fits]) rfl rfl rfl rfl
        (by simp) (by simp [place, Tests]) (by simp [fits, hungry])
  | takeSignal =>
      rw [place] at taken fit
      obtain rfl := Option.some.inj taken
      have eats : t.stateSema k = .eating := by simpa [fits] using fit
      exact phiSignal_inv inv (by rw [place]; rfl) (by rw [place]; rfl) (by rw [place]; rfl) rfl (by rw [place]; rfl)
        (by simp [place]) (by simp [place, Tests])
        (by simp [fits, eats])
  | takeUp =>
      rw [place] at taken fit
      obtain rfl := Option.some.inj taken
      exact upMutex_inv inv (by rw [place]; rfl) (by rw [place]; rfl) rfl rfl
        ⟨by rw [place]; rfl, rfl, by rw [place]; rfl, by simp [place], by simp [place, Tests]⟩ fit
  | forkDown =>
      rw [place] at taken
      obtain rfl := Option.some.inj taken
      exact forkDown_inv inv place
  | forkWait =>
      rw [place] at taken
      simp only at taken
      split at taken
      · rename_i granted
        obtain rfl := Option.some.inj taken
        exact forkWait_inv inv place granted
      · cases taken
  | putDown =>
      rw [place] at taken fit
      obtain rfl := Option.some.inj taken
      exact downMutex_inv inv (by rw [place]; rfl) (by rw [place]; rfl) rfl rfl rfl rfl
        ⟨by rw [place]; rfl, rfl, by rw [place]; rfl, by simp [place], by simp [place, Tests]⟩
        ⟨by rw [place]; rfl, rfl, by rw [place]; rfl, by simp [place], by simp [place, Tests]⟩ fit fit
  | putWait =>
      rw [place] at taken fit
      exact resumeMutex_inv inv taken (by rw [place]; rfl) (by rw [place]; rfl) rfl rfl
        ⟨by rw [place]; rfl, rfl, by rw [place]; rfl, by simp [place], by simp [place, Tests]⟩ fit
  | putSet =>
      rw [place] at taken fit
      obtain rfl := Option.some.inj taken
      exact ⟨inv.locked.move (by rw [place]; rfl) (by rw [place]; rfl),
        inv.served.become (by rw [place]; rfl) rfl (by simp [owed, place, passed]) (by simp) (by simp [place]),
        inv.seated.become (by simp) rfl (by simp [place, Tests]) (by simp) fun _ => ⟨Or.inl rfl, Or.inr rfl⟩⟩
  | putTestLeft =>
      rw [place] at taken fit
      obtain rfl := Option.some.inj taken
      exact phiTest_inv two inv (by rw [place]; rfl) rfl ⟨by rw [place]; rfl, rfl⟩ (by rw [place]; rfl) rfl
        ⟨by rw [place]; rfl, rfl⟩ (by simp [place]) (by simp [place, Tests]) (by rw [if_neg apart.1]; exact fit)
        rfl rfl rfl rfl (by simp) (by simp [place, Tests]) fit
  | putSignalLeft =>
      rw [place] at taken fit
      obtain rfl := Option.some.inj taken
      exact phiSignal_inv inv (by rw [place]; rfl) (by rw [place]; rfl) (by rw [place]; rfl) rfl (by rw [place]; rfl)
        (by simp [place]) (by simp [place, Tests]) fit
  | putTestRight =>
      rw [place] at taken fit
      obtain rfl := Option.some.inj taken
      exact phiTest_inv two inv (by rw [place]; rfl) rfl ⟨by rw [place]; rfl, rfl⟩ (by rw [place]; rfl) rfl
        ⟨by rw [place]; rfl, rfl⟩ (by simp [place]) (by simp [place, Tests]) (by rw [if_neg apart.2]; exact fit)
        rfl rfl rfl rfl (by simp) (by simp [place, Tests]) fit
  | putSignalRight =>
      rw [place] at taken fit
      obtain rfl := Option.some.inj taken
      exact phiSignal_inv inv (by rw [place]; rfl) (by rw [place]; rfl) (by rw [place]; rfl) rfl (by rw [place]; rfl)
        (by simp [place]) (by simp [place, Tests]) fit
  | putUp =>
      rw [place] at taken fit
      obtain rfl := Option.some.inj taken
      exact upMutex_inv inv (by rw [place]; rfl) (by rw [place]; rfl) rfl rfl
        ⟨by rw [place]; rfl, rfl, by rw [place]; rfl, by simp [place], by simp [place, Tests]⟩ fit

/-! ## Runs -/

/-- Any philosopher that is not blocked may take the next step. -/
def Step (t u : Table N) : Prop := ∃ k, step t k = some u

theorem reached_inv (two : 2 ≤ N) (reached : Reachable (· = start N) Step t) : Inv t := by
  refine reached.invariant Inv ?_ ?_
  · intro t first
    exact first ▸ start_inv N
  · intro t u inv ⟨k, taken⟩
    exact step_inv two inv taken

theorem pending_eq_zero {pc : Fin N → Pc} (outside : ∀ j, inside (pc j) = false) (i : Fin N) :
    pending pc i = 0 := by
  refine Finset.sum_eq_zero fun j _ => if_neg ?_
  have notInside := outside j
  cases place : pc j <;> simp_all [signals, inside]

theorem no_tests {pc : Fin N → Pc} (outside : ∀ j, inside (pc j) = false) (i j : Fin N) :
    ¬ Tests (pc j) j i := by
  have notInside := outside j
  cases place : pc j <;> simp_all [Tests, inside]

/-- With nobody inside, whoever is hungry waits for a neighbour that eats. -/
theorem hungry_beside (inv : Inv t) (outside : ∀ j, inside (t.pc j) = false) {i : Fin N}
    (hungry : t.stateSema i = .hungry) : Beside t.stateSema i :=
  (inv.seated.hungry i hungry).resolve_right fun ⟨j, tests⟩ => no_tests outside i j tests

theorem step_blocked (blocked : step t k = none) :
    waits (t.pc k) = true ∧ k ∉ t.mutex.granted ∨ t.pc k = .forkWait ∧ k ∉ (t.s k).granted := by
  unfold step at blocked
  cases place : t.pc k <;> simp_all [resumeMutex, waits]

/-- Somebody who has left off thinking can go on. -/
theorem someone_moves (inv : Inv t) (leaves : t.pc k ≠ .takeDown) :
    ∃ i, t.pc i ≠ .takeDown ∧ (step t i).isSome = true := by
  by_contra stuck
  push Not at stuck
  have blocked : ∀ i, t.pc i ≠ .takeDown → step t i = none := fun i away => by
    simpa using stuck i away
  have outside : ∀ i, inside (t.pc i) = false := by
    intro i
    by_cases thinks : t.pc i = .takeDown
    · rw [thinks]
      rfl
    · rcases step_blocked (blocked i thinks) with ⟨waiting, -⟩ | ⟨place, -⟩
      · cases place : t.pc i <;> simp_all [inside, waits]
      · rw [place]
        rfl
  have away : ∀ i, waits (t.pc i) = true → t.pc i ≠ .takeDown := by
    intro i waiting thinks
    simp [thinks, waits] at waiting
  have granted : t.mutex.granted = [] := by
    refine List.eq_nil_iff_forall_not_mem.mpr fun i inList => ?_
    have queue := inv.locked.queue i
    have counted := List.count_pos_iff.mpr (List.mem_append_right t.mutex.waiting inList)
    have waiting : waits (t.pc i) = true := by
      by_contra idle
      simp only [Bool.not_eq_true] at idle
      rw [idle, Bool.toNat_false] at queue
      omega
    rcases step_blocked (blocked i (away i waiting)) with ⟨-, not⟩ | ⟨place, -⟩
    · exact not inList
    · simp [place, waits] at waiting
  have one := inv.locked.one
  simp only [outside, Bool.toNat_false, Finset.sum_const_zero, Sem.units, granted, List.length_nil] at one
  have empty := inv.locked.prompt (by omega)
  have waiting : ∀ i, t.pc i ≠ .takeDown → t.pc i = .forkWait ∧ (t.s i).units = 0 := by
    intro i leaves
    rcases step_blocked (blocked i leaves) with ⟨waiting, -⟩ | ⟨place, not⟩
    · have queue := inv.locked.queue i
      simp [empty, granted, waiting] at queue
    · refine ⟨place, ?_⟩
      have queue := inv.served.queue i
      have prompt := inv.served.prompt i
      rw [if_pos place] at queue
      cases first : (t.s i).waiting with
      | nil =>
          rw [first, List.nil_append] at queue
          simp [queue] at not
      | cons j rest =>
          rw [first] at queue
          have absent : (t.s i).granted = [] := by
            simp at queue
            exact queue.2.2
          have zero : (t.s i).value = 0 := by
            by_contra positive
            simp [prompt (Nat.pos_of_ne_zero positive)] at first
          simp [Sem.units, absent, zero]
  have notEating : ∀ i, t.stateSema i ≠ .eating := by
    intro i eats
    have fit := inv.seated.fits i
    have leaves : t.pc i ≠ .takeDown := fun thinks => by simp [thinks, eats, fits] at fit
    obtain ⟨place, none⟩ := waiting i leaves
    have units := inv.served.units i
    simp [none, pending_eq_zero outside, owed, eats, place, passed] at units
  obtain ⟨place, -⟩ := waiting k leaves
  have fit := inv.seated.fits k
  have hungry : t.stateSema k = .hungry := by
    cases state : t.stateSema k <;> simp_all [fits]
  exact (hungry_beside inv outside hungry).elim (notEating _) (notEating _)

/-- What holds around the table. The semaphore of a philosopher that eats and has not
    passed `down(&s[i])` holds its unit, or the `up` of it is the next step of the
    philosopher inside the mutex. -/
structure Dines (t : Table N) : Prop where
  apart : ∀ i, t.stateSema i = .eating → t.stateSema (left i) ≠ .eating ∧ t.stateSema (right i) ≠ .eating
  hungry : 0 < t.mutex.value → ∀ i, t.stateSema i = .hungry → Beside t.stateSema i
  returned : ∀ i, t.pc i = .putDown → t.stateSema i = .eating
  units : ∀ i, (t.s i).units + pending t.pc i = owed t.stateSema t.pc i
  free : 0 < t.mutex.value → ∀ i, (t.s i).units = owed t.stateSema t.pc i
  moves : ∀ i, t.pc i ≠ .takeDown → ∃ j, t.pc j ≠ .takeDown ∧ (step t j).isSome = true

theorem reached_dines (two : 2 ≤ N) (reached : Reachable (· = start N) Step t) : Dines t := by
  have inv := reached_inv two reached
  refine ⟨?_, ?_, ?_, inv.served.units, ?_, fun i => someone_moves inv⟩
  · intro i eats
    refine ⟨fun before => ?_, inv.seated.apart i eats⟩
    have after := inv.seated.apart (left i) before
    rw [right_left] at after
    exact after eats
  · intro free i hungry
    exact hungry_beside inv (inv.locked.nobody free) hungry
  · intro i place
    have fit := inv.seated.fits i
    simpa [place, fits] using fit
  · intro free i
    have units := inv.served.units i
    rwa [pending_eq_zero (inv.locked.nobody free)] at units

theorem play_reached {N : Nat} {u : Table N} {moves : List (Fin N)}
    (played : play step (start N) moves = some u) : Reachable (· = start N) Step u :=
  play_reachable (fun _ k _ taken => ⟨k, taken⟩) (.start rfl) played

/-- The second of five philosophers comes while the first is inside, and waits for its forks; the
    third eats too. -/
def meal : List (Fin 5) := [0, 0, 0, 1, 0, 0, 0, 1, 1, 1, 1, 1, 2, 2, 2, 2, 2, 2]

theorem meal_dines : ∃ t, play step (start 5) meal = some t ∧
    (t.stateSema 0 = .eating ∧ t.stateSema 1 = .hungry ∧ t.pc 1 = .forkWait ∧ t.stateSema 2 = .eating) ∧ Dines t := by
  have played : (play step (start 5) meal).map (fun t => decide (t.stateSema 0 = .eating ∧ t.stateSema 1 = .hungry ∧
      t.pc 1 = .forkWait ∧ t.stateSema 2 = .eating)) = some true := by decide +kernel
  obtain ⟨t, played, seen⟩ := Option.map_eq_some_iff.mp played
  exact ⟨t, played, of_decide_eq_true seen, reached_dines (by decide) (play_reached played)⟩

/-- Between `state_sema[i] = EATING` and `up(&s[i])` the unit is not there yet. -/
theorem eats_before_unit : ∃ t : Table 5, Reachable (· = start 5) Step t ∧
    t.stateSema 0 = .eating ∧ passed (t.pc 0) = false ∧ (t.s 0).units = 0 := by
  have played : (play step (start 5) [0, 0, 0]).map (fun t => (t.stateSema 0, t.pc 0, (t.s 0).units)) =
      some (.eating, .takeSignal, 0) := by decide
  obtain ⟨t, played, seen⟩ := Option.map_eq_some_iff.mp played
  obtain ⟨eats, place, none⟩ := (by simpa using seen : _ ∧ _ ∧ _)
  exact ⟨t, play_reached played, eats, by rw [place]; rfl, none⟩

end Ucore.Sync.Philosophers
