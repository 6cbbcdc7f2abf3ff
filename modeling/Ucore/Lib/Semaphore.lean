import Mathlib

/-! # Counting semaphores

A semaphore that hands its units over: a unit given while somebody waits goes to
the first waiter, who has been granted it from then on and picks it up later.
-/

namespace Ucore.Lib.Semaphore

variable {ι : Type u}

structure Sem (ι : Type u) where
  value : Nat
  waiting : List ι
  granted : List ι
  deriving DecidableEq, Repr

namespace Sem

def init (value : Nat) : Sem ι := ⟨value, [], []⟩

def up (s : Sem ι) : Sem ι :=
  match s.waiting with
  | [] => { s with value := s.value + 1 }
  | p :: rest => { s with waiting := rest, granted := s.granted ++ [p] }

/-- Take a unit, or wait for one; whether one was taken. -/
def down (s : Sem ι) (p : ι) : Sem ι × Bool :=
  if 0 < s.value then ({ s with value := s.value - 1 }, true)
  else ({ s with waiting := s.waiting ++ [p] }, false)

/-- Pick up a unit that was granted. -/
def resume [BEq ι] (s : Sem ι) (p : ι) : Sem ι := { s with granted := s.granted.erase p }

/-- The units there are, those granted and not yet picked up included. -/
def units (s : Sem ι) : Nat := s.value + s.granted.length

/-- Nobody waits while there is a unit to take. -/
def Prompt (s : Sem ι) : Prop := 0 < s.value → s.waiting = []

variable {s : Sem ι} {p : ι}

@[simp] theorem init_units (value : Nat) : (init value : Sem ι).units = value := rfl

theorem init_prompt (value : Nat) : (init value : Sem ι).Prompt := fun _ => rfl

@[simp] theorem up_units (s : Sem ι) : s.up.units = s.units + 1 := by
  unfold up units
  split
  · exact Nat.add_right_comm _ _ _
  · simp
    omega

theorem Prompt.up (prompt : s.Prompt) : s.up.Prompt := by
  cases waiting : s.waiting with
  | nil => simp [Sem.up, waiting, Prompt]
  | cons p rest =>
      intro positive
      have empty := prompt (by simpa [Sem.up, waiting] using positive)
      simp [waiting] at empty

/-- Who waits or was granted a unit: `up` only moves the first waiter on. -/
theorem up_perm (s : Sem ι) : (s.up.waiting ++ s.up.granted).Perm (s.waiting ++ s.granted) := by
  cases waiting : s.waiting with
  | nil => simp [up, waiting]
  | cons p rest =>
      simp only [up, waiting]
      rw [← List.append_assoc]
      exact List.perm_append_comm

theorem down_units (taken : (s.down p).2 = true) : (s.down p).1.units + 1 = s.units := by
  unfold down at taken ⊢
  split at taken
  · rename_i positive
    rw [if_pos positive]
    simp only [units]
    omega
  · cases taken

theorem down_queue (taken : (s.down p).2 = true) :
    (s.down p).1.waiting = s.waiting ∧ (s.down p).1.granted = s.granted := by
  unfold down at taken ⊢
  split at taken
  · rename_i positive
    rw [if_pos positive]
    exact ⟨rfl, rfl⟩
  · cases taken

theorem down_waits (waits : (s.down p).2 = false) :
    (s.down p).1.units = s.units ∧ (s.down p).1.waiting = s.waiting ++ [p] ∧
      (s.down p).1.granted = s.granted := by
  unfold down at waits ⊢
  split at waits
  · cases waits
  · rename_i empty
    rw [if_neg empty]
    exact ⟨rfl, rfl, rfl⟩

theorem Prompt.down (prompt : s.Prompt) (p : ι) : (s.down p).1.Prompt := by
  unfold Sem.down
  split
  · rename_i positive
    exact fun _ => prompt positive
  · rename_i empty
    exact fun positive => absurd positive empty

/-! ## The queue -/

/-- Who waits, or was granted a unit and has not picked it up. -/
def queue (s : Sem ι) : List ι := s.waiting ++ s.granted

theorem queue_taken (taken : (s.down p).2 = true) : (s.down p).1.queue = s.queue := by
  obtain ⟨waiting, granted⟩ := down_queue taken
  rw [queue, waiting, granted, queue]

section

variable [DecidableEq ι]

theorem queue_up (s : Sem ι) (q : ι) : s.up.queue.count q = s.queue.count q := (up_perm s).count_eq q

theorem queue_waits (waits : (s.down p).2 = false) (q : ι) :
    (s.down p).1.queue.count q = s.queue.count q + if q = p then 1 else 0 := by
  obtain ⟨-, waiting, granted⟩ := down_waits waits
  rw [queue, waiting, granted, queue, List.count_append, List.count_append, List.count_append]
  by_cases same : q = p
  · rw [same, List.count_singleton_self, if_pos rfl]
    omega
  · rw [List.count_singleton, if_neg (by simpa using Ne.symm same), if_neg same]
    omega

theorem queue_resume (granted : p ∈ s.granted) (q : ι) :
    (s.resume p).queue.count q + (if q = p then 1 else 0) = s.queue.count q := by
  simp only [queue, resume, List.count_append]
  by_cases same : q = p
  · have := List.count_pos_iff.mpr granted
    rw [same, List.count_erase_self, if_pos rfl]
    omega
  · rw [List.count_erase_of_ne same, if_neg same, Nat.add_zero]

end

variable [BEq ι] [LawfulBEq ι]

theorem resume_units (granted : p ∈ s.granted) : (s.resume p).units + 1 = s.units := by
  have length := List.length_erase_of_mem granted
  have positive := List.length_pos_of_mem granted
  simp only [units, resume]
  omega

end Sem

end Ucore.Lib.Semaphore
