import Mathlib

/-! # Outcomes of kernel functions

A kernel function returns, or stops: at a failed `assert`, at an explicit
`panic`, or, in a loop that follows pointers, by running out of the fuel given to
it. Running out of fuel is the model's word for not having returned yet.
-/

namespace Ucore.Libs.Assert

inductive Stop where
  | assertion
  | panic
  | fuel
  deriving DecidableEq, Repr

abbrev Result := Except Stop

/-- The `assert` macro. -/
def assert (c : Prop) [Decidable c] : Result Unit := if c then .ok () else .error .assertion

theorem assert_pos {c : Prop} [Decidable c] (h : c) : assert c = .ok () := if_pos h

theorem assert_bind_ok {c : Prop} [Decidable c] {f : Unit → Result α} {r : α} :
    (assert c >>= f) = .ok r ↔ c ∧ f () = .ok r := by
  by_cases h : c <;> simp [assert, h, bind, Except.bind]

theorem assert_bind {c : Prop} [Decidable c] {f : Unit → Result α} (h : c) :
    (assert c >>= f) = f () := by
  rw [assert_pos h]
  rfl

theorem bind_ok {x : Result α} {f : α → Result β} {r : β} :
    (x >>= f) = .ok r ↔ ∃ a, x = .ok a ∧ f a = .ok r := by
  cases x <;> simp [bind, Except.bind]

theorem ok_bind (a : α) (f : α → Result β) : ((.ok a : Result α) >>= f) = f a := rfl

theorem error_bind (stop : Stop) (f : α → Result β) : ((.error stop : Result α) >>= f) = .error stop := rfl

theorem bind_error {x : Result α} {f : α → Result β} {stop : Stop} :
    (x >>= f) = .error stop ↔ x = .error stop ∨ ∃ a, x = .ok a ∧ f a = .error stop := by
  cases x <;> simp [bind, Except.bind]

theorem toOption_some {x : Result α} {a : α} : x.toOption = some a ↔ x = .ok a := by
  cases x <;> simp [Except.toOption]

end Ucore.Libs.Assert
