import Mathlib.Logic.Basic

/-! # Programs that fail or stop

A program over a state leaves a value or an error, and a state either way, or it stops
for good. `Spec` says what holds of every way it can end; its rules follow the
constructs programs are built from.
-/

namespace Ucore.Lib.Program

/-- Stops are of type `π`, errors of type `ε`. -/
def Prog (π : Type u) (ε : Type v) (σ : Type w) (α : Type x) := σ → Except π (Except ε α × σ)

namespace Prog

variable {π : Type u} {ε : Type v} {σ : Type w} {α β : Type x}

def throw (e : ε) : Prog π ε σ α := fun s => .ok (.error e, s)

def stop (p : π) : Prog π ε σ α := fun _ => .error p

def ensure (c : Prop) [Decidable c] (p : π) : Prog π ε σ Unit := fun s => if c then .ok (.ok (), s) else .error p

def get : Prog π ε σ σ := fun s => .ok (.ok s, s)

def modify (f : σ → σ) : Prog π ε σ Unit := fun s => .ok (.ok (), f s)

/-- After an error of `m`, run the handler and fail with the same error. -/
def onError (m : Prog π ε σ α) (handler : Prog π ε σ Unit) : Prog π ε σ α := fun s =>
  match m s with
  | .ok (.error e, t) =>
      match handler t with
      | .ok (.ok (), u) => .ok (.error e, u)
      | .ok (.error e', u) => .ok (.error e', u)
      | .error p => .error p
  | other => other

/-- Run a program and pay no attention to its error. -/
def ignore (m : Prog π ε σ Unit) : Prog π ε σ Unit := fun s =>
  match m s with
  | .ok (_, t) => .ok (.ok (), t)
  | .error p => .error p

/-- Run a program on a component of the state. -/
def focus {τ : Type w} (view : σ → τ) (put : τ → σ → σ) (m : Prog π ε τ α) : Prog π ε σ α := fun s =>
  match m (view s) with
  | .ok (result, t) => .ok (result, put t s)
  | .error p => .error p

instance : Monad (Prog π ε σ) where
  pure a := fun s => .ok (.ok a, s)
  bind m f := fun s =>
    match m s with
    | .ok (.ok a, t) => f a t
    | .ok (.error e, t) => .ok (.error e, t)
    | .error p => .error p

/-- Every way the program ends from the state: with a value, with an error, or stopping. -/
def Spec (allowed : π → Prop) (m : Prog π ε σ α) (s : σ) (Q : α → σ → Prop) (E : ε → σ → Prop) : Prop :=
  match m s with
  | .ok (.ok a, t) => Q a t
  | .ok (.error e, t) => E e t
  | .error p => allowed p

variable {allowed : π → Prop} {s : σ} {E : ε → σ → Prop}

@[simp] theorem spec_pure {a : α} {Q : α → σ → Prop} : Spec allowed (pure a) s Q E ↔ Q a s := Iff.rfl

@[simp] theorem spec_throw {e : ε} {Q : α → σ → Prop} : Spec allowed (throw e) s Q E ↔ E e s := Iff.rfl

@[simp] theorem spec_stop {p : π} {Q : α → σ → Prop} : Spec allowed (stop p) s Q E ↔ allowed p := Iff.rfl

@[simp] theorem spec_get {Q : σ → σ → Prop} : Spec allowed get s Q E ↔ Q s s := Iff.rfl

@[simp] theorem spec_modify {f : σ → σ} {Q : Unit → σ → Prop} :
    Spec allowed (modify f) s Q E ↔ Q () (f s) := Iff.rfl

theorem spec_ensure {c : Prop} [Decidable c] {p : π} {Q : Unit → σ → Prop} :
    Spec allowed (ensure c p) s Q E ↔ (c → Q () s) ∧ (¬c → allowed p) := by
  by_cases h : c <;> simp [Spec, ensure, h]

theorem spec_ensure_of {c : Prop} [Decidable c] {p : π} {Q : Unit → σ → Prop} (holds : c) :
    Spec allowed (ensure c p) s Q E ↔ Q () s := by
  simp [spec_ensure, holds]

@[simp] theorem spec_bind {m : Prog π ε σ α} {f : α → Prog π ε σ β} {Q : β → σ → Prop} :
    Spec allowed (m >>= f) s Q E ↔ Spec allowed m s (fun a t => Spec allowed (f a) t Q E) E := by
  simp only [Spec, bind]
  cases m s with
  | error p => rfl
  | ok outcome =>
      obtain ⟨result, t⟩ := outcome
      cases result <;> rfl

theorem spec_onError {m : Prog π ε σ α} {handler : Prog π ε σ Unit} {Q : α → σ → Prop} :
    Spec allowed (onError m handler) s Q E ↔
      Spec allowed m s Q fun e t => Spec allowed handler t (fun _ u => E e u) E := by
  simp only [Spec, onError]
  cases m s with
  | error p => rfl
  | ok outcome =>
      obtain ⟨result, t⟩ := outcome
      cases result with
      | ok a => rfl
      | error e =>
          simp only
          cases handler t with
          | error p => rfl
          | ok outcome =>
              obtain ⟨result, u⟩ := outcome
              cases result <;> rfl

theorem spec_ignore {m : Prog π ε σ Unit} {Q : Unit → σ → Prop} :
    Spec allowed (ignore m) s Q E ↔ Spec allowed m s Q fun _ t => Q () t := by
  simp only [Spec, ignore]
  cases m s with
  | error p => rfl
  | ok outcome =>
      obtain ⟨result, t⟩ := outcome
      cases result <;> rfl

theorem spec_focus {τ : Type w} {view : σ → τ} {put : τ → σ → σ} {m : Prog π ε τ α} {Q : α → σ → Prop} :
    Spec allowed (focus view put m) s Q E ↔
      Spec allowed m (view s) (fun a t => Q a (put t s)) fun e t => E e (put t s) := by
  simp only [Spec, focus]
  cases m (view s) with
  | error p => rfl
  | ok outcome =>
      obtain ⟨result, t⟩ := outcome
      cases result <;> rfl

@[simp] theorem spec_ite {c : Prop} [Decidable c] {m n : Prog π ε σ α} {Q : α → σ → Prop} :
    Spec allowed (if c then m else n) s Q E ↔
      (c → Spec allowed m s Q E) ∧ (¬c → Spec allowed n s Q E) := by
  by_cases h : c <;> simp [h]

/-- A weaker postcondition. -/
theorem Spec.mono {m : Prog π ε σ α} {Q Q' : α → σ → Prop} {E' : ε → σ → Prop}
    (spec : Spec allowed m s Q E) (values : ∀ a t, Q a t → Q' a t) (errors : ∀ e t, E e t → E' e t) :
    Spec allowed m s Q' E' := by
  unfold Spec at spec ⊢
  cases run : m s with
  | error p => simpa only [run] using spec
  | ok outcome =>
      obtain ⟨result, t⟩ := outcome
      cases result with
      | ok a => exact values a t (by simpa only [run] using spec)
      | error e => exact errors e t (by simpa only [run] using spec)

/-- More stops are allowed. -/
theorem Spec.stops {allowed' : π → Prop} {m : Prog π ε σ α} {Q : α → σ → Prop} (spec : Spec allowed m s Q E)
    (more : ∀ p, allowed p → allowed' p) : Spec allowed' m s Q E := by
  unfold Spec at spec ⊢
  cases run : m s with
  | error p => exact more p (by simpa only [run] using spec)
  | ok outcome =>
      obtain ⟨result, t⟩ := outcome
      cases result <;> simpa only [run] using spec

/-- Two facts about one run. -/
theorem Spec.and {m : Prog π ε σ α} {Q Q' : α → σ → Prop} {E' : ε → σ → Prop}
    (first : Spec allowed m s Q E) (second : Spec allowed m s Q' E') :
    Spec allowed m s (fun a t => Q a t ∧ Q' a t) fun e t => E e t ∧ E' e t := by
  unfold Spec at first second ⊢
  cases run : m s with
  | error p => simpa only [run] using first
  | ok outcome =>
      obtain ⟨result, t⟩ := outcome
      cases result <;> exact ⟨by simpa only [run] using first, by simpa only [run] using second⟩

theorem Spec.value {m : Prog π ε σ α} {Q : α → σ → Prop} (spec : Spec allowed m s Q E) {a : α} {t : σ}
    (run : m s = .ok (.ok a, t)) : Q a t := by
  simpa only [Spec, run] using spec

theorem Spec.error {m : Prog π ε σ α} {Q : α → σ → Prop} (spec : Spec allowed m s Q E) {e : ε} {t : σ}
    (run : m s = .ok (.error e, t)) : E e t := by
  simpa only [Spec, run] using spec

theorem Spec.stopped {m : Prog π ε σ α} {Q : α → σ → Prop} (spec : Spec allowed m s Q E) {p : π}
    (run : m s = .error p) : allowed p := by
  simpa only [Spec, run] using spec

/-- A program that may not stop and may not fail ends with a value. -/
theorem Spec.returns {m : Prog π ε σ α} {Q : α → σ → Prop}
    (spec : Spec (fun _ => False) m s Q fun _ _ => False) : ∃ a t, m s = .ok (.ok a, t) ∧ Q a t := by
  unfold Spec at spec
  cases run : m s with
  | error p => simp only [run] at spec
  | ok outcome =>
      obtain ⟨result, t⟩ := outcome
      cases result with
      | ok a => exact ⟨a, t, rfl, by simpa only [run] using spec⟩
      | error e => simp only [run] at spec

end Prog

end Ucore.Lib.Program
