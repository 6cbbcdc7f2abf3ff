import Ucore.Libs.Assert

/-! # `do … while` loops

The kernel's loops over address ranges: the body is run once before the condition
is looked at, and moves a position upwards.
-/

namespace Ucore.Libs.Loop

open Libs.Assert

variable {α : Type u}

def doWhile (again : Nat → α → Bool) (body : Nat → α → Result (Nat × α)) :
    Nat → Nat → α → Result α
  | 0, _, _ => .error .fuel
  | fuel + 1, pos, s => do
      let (pos, s) ← body pos s
      if again pos s then doWhile again body fuel pos s else pure s

theorem doWhile_ok {again : Nat → α → Bool} {body : Nat → α → Result (Nat × α)}
    {fuel pos next : Nat} {s t : α} (run : body pos s = .ok (next, t)) :
    doWhile again body (fuel + 1) pos s =
      if again next t then doWhile again body fuel next t else .ok t := by
  rw [doWhile, run]
  rfl

/-- A loop whose body moves up, and which ends before `stop`, reaches what its body
    establishes on leaving. -/
theorem doWhile_rule {again : Nat → α → Bool} {body : Nat → α → Result (Nat × α)} {stop : Nat}
    (inv : Nat → α → Prop) (post : α → Prop)
    (step : ∀ pos s, pos < stop → inv pos s → ∃ next t, body pos s = .ok (next, t) ∧ pos < next ∧
      (again next t = true → next < stop ∧ inv next t) ∧ (again next t = false → post t))
    {fuel pos : Nat} {s : α} (enough : stop ≤ pos + fuel) (inside : pos < stop) (start : inv pos s) :
    ∃ t, doWhile again body fuel pos s = .ok t ∧ post t := by
  induction fuel generalizing pos s with
  | zero => omega
  | succ fuel ih =>
      obtain ⟨next, t, run, up, stay, leave⟩ := step pos s inside start
      rw [doWhile_ok run]
      cases more : again next t with
      | true =>
          obtain ⟨below, kept⟩ := stay more
          exact ih (by omega) below kept
      | false => exact ⟨t, rfl, leave more⟩

/-- What the body keeps, round by round, holds where a loop that comes to an end leaves off. -/
theorem doWhile_partial {again : Nat → α → Bool} {body : Nat → α → Result (Nat × α)}
    (inv : Nat → α → Prop) (post : α → Prop)
    (step : ∀ pos s next t, inv pos s → body pos s = .ok (next, t) →
      (again next t = true → inv next t) ∧ (again next t = false → post t))
    {fuel pos : Nat} {s t : α} (start : inv pos s) (run : doWhile again body fuel pos s = .ok t) : post t := by
  induction fuel generalizing pos s with
  | zero => cases run
  | succ fuel ih =>
      rw [doWhile] at run
      obtain ⟨⟨next, u⟩, first, rest⟩ := bind_ok.mp run
      obtain ⟨stay, leave⟩ := step pos s next u start first
      dsimp only at rest
      cases more : again next u with
      | true =>
          rw [more, if_pos rfl] at rest
          exact ih (stay more) rest
      | false =>
          rw [more, if_neg Bool.false_ne_true] at rest
          cases rest
          exact leave more

end Ucore.Libs.Loop
