import Mathlib

/-! # Runs of a transition system

States reached from the initial ones by steps, and the rule that carries an
invariant along a run.
-/

namespace Ucore.Lib.Run

variable {σ : Type u}

inductive Reachable (init : σ → Prop) (step : σ → σ → Prop) : σ → Prop where
  | start {s : σ} (initial : init s) : Reachable init step s
  | next {s t : σ} (reached : Reachable init step s) (taken : step s t) : Reachable init step t

/-- What holds at the start and is kept by every step holds along every run. -/
theorem Reachable.invariant {init : σ → Prop} {step : σ → σ → Prop} {s : σ}
    (reached : Reachable init step s) (inv : σ → Prop) (starts : ∀ s, init s → inv s)
    (keeps : ∀ s t, inv s → step s t → inv t) : inv s := by
  induction reached with
  | start initial => exact starts _ initial
  | next _ taken ih => exact keeps _ _ ih taken

variable {ι : Type v}

/-! ## Labelled runs -/

/-- The steps of a run in order, each with its label. -/
inductive Trace (step : σ → ι → σ → Prop) : σ → List ι → σ → Prop where
  | nil (s : σ) : Trace step s [] s
  | cons {s t u : σ} {i : ι} {labels : List ι} (taken : step s i t) (later : Trace step t labels u) :
      Trace step s (i :: labels) u

theorem Trace.split {step : σ → ι → σ → Prop} {s u : σ} {first second : List ι}
    (run : Trace step s (first ++ second) u) :
    ∃ t, Trace step s first t ∧ Trace step t second u := by
  induction first generalizing s with
  | nil => exact ⟨s, .nil s, run⟩
  | cons i first ih =>
      cases run with
      | cons taken later =>
          obtain ⟨t, front, back⟩ := ih later
          exact ⟨t, .cons taken front, back⟩

theorem Trace.append {step : σ → ι → σ → Prop} {s t u : σ} {first second : List ι} (front : Trace step s first t)
    (back : Trace step t second u) : Trace step s (first ++ second) u := by
  induction front with
  | nil => exact back
  | cons taken _ ih => exact .cons taken (ih back)

/-- States reached by labelled steps. -/
abbrev Reached (init : σ → Prop) (step : σ → ι → σ → Prop) (s : σ) : Prop :=
  Reachable init (fun s t => ∃ i, step s i t) s

/-! ## Executions -/

/-- Make the moves in order, as long as each is possible. -/
def play (move : σ → ι → Option σ) (s : σ) (moves : List ι) : Option σ := moves.foldlM move s

theorem play_reachable {init : σ → Prop} {step : σ → σ → Prop} {move : σ → ι → Option σ}
    (sound : ∀ s i t, move s i = some t → step s t) {s t : σ} {moves : List ι}
    (reached : Reachable init step s) (played : play move s moves = some t) :
    Reachable init step t := by
  induction moves generalizing s with
  | nil =>
      obtain rfl : s = t := by simpa [play] using played
      exact reached
  | cons i moves ih =>
      simp only [play, List.foldlM_cons, Option.bind_eq_bind, Option.bind_eq_some_iff] at played
      obtain ⟨u, taken, later⟩ := played
      exact ih (reached.next (sound s i u taken)) later

end Ucore.Lib.Run
