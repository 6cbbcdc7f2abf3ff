import Mathlib.Data.List.Nodup
import Mathlib.Data.List.Perm.Basic
import Mathlib.Logic.Function.Basic
import Mathlib.Tactic.Common

/-! # Programs that may give up

A program over `Except` ends with a value or gives up. `Ends` says what holds of the value, if
there is one. Then the writes of such a program, each in the place of what was there before,
and what things hold together while one of them takes more.
-/

namespace Ucore.Lib.Outcome

variable {ε : Type u} {α β : Type v} {Q Q' : α → Prop} {m : Except ε α}

/-- The value, if there is one. -/
def Ends (m : Except ε α) (Q : α → Prop) : Prop := ∀ a, m = .ok a → Q a

theorem ends_ok {a : α} : Ends (.ok a : Except ε α) Q ↔ Q a :=
  ⟨fun ends => ends a rfl, fun holds _ same => Except.ok.inj same ▸ holds⟩

theorem ends_pure {a : α} : Ends (pure a : Except ε α) Q ↔ Q a := ends_ok

theorem ends_error {e : ε} : Ends (.error e : Except ε α) Q := by
  intro a same
  cases same

theorem ends_bind {f : α → Except ε β} {R : β → Prop} : Ends (m >>= f) R ↔ Ends m fun a => Ends (f a) R := by
  cases m with
  | error e => exact ⟨fun _ => ends_error, fun _ => ends_error⟩
  | ok a => exact ⟨fun ends => ends_ok.mpr ends, fun ends => ends a rfl⟩

theorem ends_ite {c : Prop} [Decidable c] {n : Except ε α} :
    Ends (if c then m else n) Q ↔ (c → Ends m Q) ∧ (¬ c → Ends n Q) := by
  by_cases h : c <;> simp [h]

theorem Ends.mono (ends : Ends m Q) (weaker : ∀ a, Q a → Q' a) : Ends m Q' := fun a same => weaker a (ends a same)

theorem Ends.and (left : Ends m Q) (right : Ends m Q') : Ends m fun a => Q a ∧ Q' a := fun a same =>
  ⟨left a same, right a same⟩

/-! ## Writes -/

variable {ι : Type u} [DecidableEq ι] {γ : Type v} {b : γ} {n : ι} {ws : List (ι × γ)}

def write (store : ι → γ) : List (ι × γ) → ι → γ
  | [] => store
  | w :: ws => write (Function.update store w.1 w.2) ws

theorem write_append (store : ι → γ) (ws ws' : List (ι × γ)) :
    write store (ws ++ ws') = write (write store ws) ws' := by
  induction ws generalizing store with
  | nil => rfl
  | cons w ws ih => exact ih _

theorem write_other (store : ι → γ) (apart : ∀ w ∈ ws, w.1 ≠ n) : write store ws n = store n := by
  induction ws generalizing store with
  | nil => rfl
  | cons w ws ih =>
      rw [write, ih _ fun v inside => apart v (List.mem_cons_of_mem _ inside)]
      exact Function.update_of_ne (Ne.symm (apart w List.mem_cons_self)) ..

/-- What is written to a place is there in the end, if nothing else is written there. -/
theorem write_mem (store : ι → γ) (inside : (n, b) ∈ ws) (same : ∀ w ∈ ws, w.1 = n → w.2 = b) :
    write store ws n = b := by
  induction ws generalizing store with
  | nil => cases inside
  | cons w ws ih =>
      have rest : ∀ v ∈ ws, v.1 = n → v.2 = b := fun v here => same v (List.mem_cons_of_mem _ here)
      by_cases again : (n, b) ∈ ws
      · exact ih _ again rest
      · obtain rfl : (n, b) = w := (List.mem_cons.mp inside).resolve_right again
        rw [write, write_other _ fun v here there => again ?_]
        · exact Function.update_self ..
        · rw [← there, ← rest v here there]
          exact here

/-! ## What things hold -/

omit [DecidableEq ι] in
/-- One thing takes more, and the others hold what they held. -/
theorem flatMap_perm {f g : ι → List γ} {things : List ι} {i : ι} {more : List γ} (distinct : things.Nodup)
    (inside : i ∈ things) (here : (g i).Perm (more ++ f i)) (others : ∀ j ∈ things, j ≠ i → g j = f j) :
    (things.flatMap g).Perm (more ++ things.flatMap f) := by
  induction things with
  | nil => cases inside
  | cons j things ih =>
      obtain ⟨new, distinct⟩ := List.nodup_cons.mp distinct
      rw [List.flatMap_cons, List.flatMap_cons]
      by_cases same : j = i
      · subst same
        have rest : things.flatMap g = things.flatMap f := List.flatMap_congr fun k there =>
          others k (List.mem_cons_of_mem _ there) fun same => new (same ▸ there)
        rw [rest, ← List.append_assoc]
        exact here.append_right _
      · have there : i ∈ things := (List.mem_cons.mp inside).resolve_left (Ne.symm same)
        have rest := ih distinct there fun k deep => others k (List.mem_cons_of_mem _ deep)
        rw [others j List.mem_cons_self same]
        refine (rest.append_left (f j)).trans ?_
        rw [← List.append_assoc, ← List.append_assoc]
        exact List.perm_append_comm.append_right _

end Ucore.Lib.Outcome
