import Ucore.Lib.Run
import Ucore.Lib.Semaphore

/-! # Semaphores taken in order

Programs of processes that share semaphores and memory. A program sees of the memory only
what it reads, and as others write there it may read anything. When every program takes
semaphores in the order of their ranks, no run ends up with processes that wait for each
other in a circle.
-/

namespace Ucore.Lib.Locking

open Run Semaphore

variable {σ ι α β : Type}

/-- What a process does to the semaphores, as far as what it reads goes. -/
inductive Code (σ α : Type) where
  | pure (a : α)
  | down (sem : σ) (next : Code σ α)
  | up (sem : σ) (next : Code σ α)
  | read (next : Int → Code σ α)
  /-- It does not go on. -/
  | stop

namespace Code

def bind : Code σ α → (α → Code σ β) → Code σ β
  | .pure a, f => f a
  | .down sem next, f => .down sem (next.bind f)
  | .up sem next, f => .up sem (next.bind f)
  | .read next, f => .read fun n => (next n).bind f
  | .stop, _ => .stop

instance : Monad (Code σ) where
  pure := .pure
  bind := .bind

end Code

def down (sem : σ) : Code σ Unit := .down sem (.pure ())

def up (sem : σ) : Code σ Unit := .up sem (.pure ())

def read : Code σ Int := .read .pure

def stop : Code σ α := .stop

/-! ## Order -/

variable [DecidableEq σ] {rank : σ → Nat}

/-- With some semaphores held, only semaphores of higher rank are taken, only those that are
    held are given back, and what is left at the end is as wanted. -/
def Safe (rank : σ → Nat) (post : α → List σ → Prop) : List σ → Code σ α → Prop
  | held, .pure a => post a held
  | held, .down sem next => (∀ t ∈ held, rank t < rank sem) ∧ Safe rank post (sem :: held) next
  | held, .up sem next => sem ∈ held ∧ Safe rank post (held.erase sem) next
  | held, .read next => ∀ n, Safe rank post held (next n)
  | _, .stop => True

theorem Safe.bind {m : Code σ α} {f : α → Code σ β} {mid : α → List σ → Prop} {post : β → List σ → Prop}
    {held : List σ} (first : Safe rank mid held m) (rest : ∀ a held, mid a held → Safe rank post held (f a)) :
    Safe rank post held (m >>= f) := by
  change Safe rank post held (m.bind f)
  induction m generalizing held with
  | pure a => exact rest a held first
  | down sem next ih => exact ⟨first.1, ih first.2⟩
  | up sem next ih => exact ⟨first.1, ih first.2⟩
  | read next ih => exact fun n => ih n (first n)
  | stop => exact trivial

/-- Whatever of lower rank is held, only semaphores from a level on are taken, and all of them
    are given back. -/
def Above (rank : σ → Nat) (level : Nat) (m : Code σ α) : Prop :=
  ∀ held, (∀ t ∈ held, rank t < level) → Safe rank (fun _ left => left = held) held m

/-- The same for code that begins with a semaphore held and gives it back. -/
def Inside (rank : σ → Nat) (level : Nat) (sem : σ) (m : Code σ α) : Prop :=
  ∀ held, (∀ t ∈ held, rank t < level) → Safe rank (fun _ left => left = held) (sem :: held) m

variable {level : Nat} {sem : σ} {m m' : Code σ α} {f : α → Code σ β}

namespace Above

theorem pure (a : α) : Above rank level (Pure.pure a : Code σ α) := fun _ _ => rfl

theorem stop : Above rank level (Locking.stop : Code σ α) := fun _ _ => trivial

theorem read : Above rank level (Locking.read : Code σ Int) := fun _ _ _ => rfl

theorem bind (first : Above rank level m) (rest : ∀ a, Above rank level (f a)) : Above rank level (m >>= f) :=
  fun held low => (first held low).bind fun a _ same => same ▸ rest a held low

theorem ite {c : Prop} [Decidable c] (pos : Above rank level m) (neg : Above rank level m') :
    Above rank level (if c then m else m') := by
  split
  · exact pos
  · exact neg

theorem mono {level' : Nat} (above : Above rank level' m) (le : level ≤ level') : Above rank level m :=
  fun held low => above held fun t inside => (low t inside).trans_le le

/-- A semaphore is taken for a while. -/
theorem lock (low : level ≤ rank sem) (inside : Inside rank level sem m) :
    Above rank level (down sem >>= fun _ => m) :=
  fun held lower => ⟨fun t held => (lower t held).trans_le low, inside held lower⟩

end Above

namespace Inside

theorem unlock (rest : Above rank level m) : Inside rank level sem (up sem >>= fun _ => m) := by
  intro held low
  refine ⟨List.mem_cons_self, ?_⟩
  rw [List.erase_cons_head]
  exact rest held low

theorem bind (low : level ≤ rank sem) (first : Above rank (rank sem + 1) m)
    (rest : ∀ a, Inside rank level sem (f a)) : Inside rank level sem (m >>= f) := by
  intro held lower
  refine (first (sem :: held) fun t inside => ?_).bind fun a _ same => same ▸ rest a held lower
  rcases List.mem_cons.mp inside with rfl | inside
  · exact Nat.lt_succ_self _
  · exact (lower t inside).trans (Nat.lt_succ_of_le low)

theorem ite {c : Prop} [Decidable c] (pos : Inside rank level sem m) (neg : Inside rank level sem m') :
    Inside rank level sem (if c then m else m') := by
  split
  · exact pos
  · exact neg

end Inside

/-! ## Processes -/

inductive Task (σ : Type) where
  | running (code : Code σ Unit)
  | waiting (sem : σ) (next : Code σ Unit)

/-- The semaphores, what each process is at, and which semaphores it has taken and not given back. -/
structure Sys (σ ι : Type) where
  sems : σ → Sem ι
  tasks : ι → Task σ
  held : ι → List σ

variable [DecidableEq ι]

namespace Sys

def setSem (s : Sys σ ι) (sem : σ) (value : Sem ι) : Sys σ ι := { s with sems := Function.update s.sems sem value }

def become (s : Sys σ ι) (p : ι) (task : Task σ) (held : List σ) : Sys σ ι :=
  { s with tasks := Function.update s.tasks p task, held := Function.update s.held p held }

end Sys

/-- One process goes on. A process that is done begins any of the operations. -/
inductive Step (ops : Code σ Unit → Prop) (s : Sys σ ι) : Sys σ ι → Prop where
  | begins {p : ι} {op : Code σ Unit} (done : s.tasks p = .running (.pure ())) (known : ops op) :
      Step ops s (s.become p (.running op) (s.held p))
  | reads {p : ι} {next : Int → Code σ Unit} (n : Int) (here : s.tasks p = .running (.read next)) :
      Step ops s (s.become p (.running (next n)) (s.held p))
  | takes {p : ι} {sem : σ} {next : Code σ Unit} (here : s.tasks p = .running (.down sem next))
      (taken : ((s.sems sem).down p).2 = true) :
      Step ops s ((s.setSem sem ((s.sems sem).down p).1).become p (.running next) (sem :: s.held p))
  | waits {p : ι} {sem : σ} {next : Code σ Unit} (here : s.tasks p = .running (.down sem next))
      (waits : ((s.sems sem).down p).2 = false) :
      Step ops s ((s.setSem sem ((s.sems sem).down p).1).become p (.waiting sem next) (s.held p))
  | resumes {p : ι} {sem : σ} {next : Code σ Unit} (here : s.tasks p = .waiting sem next)
      (granted : p ∈ (s.sems sem).granted) :
      Step ops s ((s.setSem sem ((s.sems sem).resume p)).become p (.running next) (sem :: s.held p))
  | gives {p : ι} {sem : σ} {next : Code σ Unit} (here : s.tasks p = .running (.up sem next)) :
      Step ops s ((s.setSem sem (s.sems sem).up).become p (.running next) ((s.held p).erase sem))

/-- Nobody has begun anything, and each semaphore has one unit. -/
def Initial (s : Sys σ ι) : Prop :=
  (∀ sem, s.sems sem = Sem.init 1) ∧ ∀ p, s.tasks p = .running (.pure ()) ∧ s.held p = []

/-- A process waits until somebody gives a semaphore back. -/
def Waits (s : Sys σ ι) (p : ι) (sem : σ) : Prop := p ∈ (s.sems sem).waiting

/-- A process has a semaphore, or was handed it and has not noticed yet. -/
def Holds (s : Sys σ ι) (p : ι) (sem : σ) : Prop := sem ∈ s.held p ∨ p ∈ (s.sems sem).granted

def WaitsFor (s : Sys σ ι) (p q : ι) : Prop := ∃ sem, Waits s p sem ∧ Holds s q sem

/-! ## Every run -/

/-- What is left to do of a task. -/
def Task.code : Task σ → Code σ Unit
  | .running code => code
  | .waiting sem next => .down sem next

def Task.waitsOn : Task σ → Option σ
  | .running _ => none
  | .waiting sem _ => some sem

/-- Who waits for a semaphore, or was handed it and has not noticed yet. -/
def queue (s : Sys σ ι) (sem : σ) : List ι := (s.sems sem).waiting ++ (s.sems sem).granted

/-- A process is in the queue of the semaphore it waits for, once, and in no other one. -/
structure Inv (rank : σ → Nat) (s : Sys σ ι) : Prop where
  safe : ∀ p, Safe rank (fun _ left => left = []) (s.held p) (s.tasks p).code
  queued : ∀ p sem, (queue s sem).count p = if (s.tasks p).waitsOn = some sem then 1 else 0

variable {s t : Sys σ ι} {p q : ι}

/-- A process goes on, and the queues are as they have to be. -/
theorem Inv.become (inv : Inv rank s) (task : Task σ) {held : List σ}
    (safe : Safe rank (fun _ left => left = []) held task.code) {sems : σ → Sem ι}
    (other : ∀ q sem, q ≠ p → ((sems sem).waiting ++ (sems sem).granted).count q = (queue s sem).count q)
    (itself : ∀ sem, ((sems sem).waiting ++ (sems sem).granted).count p = if task.waitsOn = some sem then 1 else 0) :
    Inv rank (({ s with sems := sems } : Sys σ ι).become p task held) := by
  refine ⟨fun q => ?_, fun q sem => ?_⟩
  · by_cases same : q = p
    · rw [same]
      simpa [Sys.become] using safe
    · simpa [Sys.become, Function.update_of_ne same] using inv.safe q
  · by_cases same : q = p
    · rw [same]
      simpa [Sys.become, queue] using itself sem
    · simpa [Sys.become, queue, Function.update_of_ne same] using (other q sem same).trans (inv.queued q sem)

/-- A process goes on and does nothing to the semaphores. -/
theorem Inv.runs (inv : Inv rank s) {code : Code σ Unit} (running : (s.tasks p).waitsOn = none)
    (safe : Safe rank (fun _ left => left = []) (s.held p) code) :
    Inv rank (s.become p (.running code) (s.held p)) := by
  refine inv.become (.running code) safe (fun _ _ _ => rfl) fun sem => ?_
  have same := inv.queued p sem
  rw [running] at same
  exact same

theorem step_inv {ops : Code σ Unit → Prop} (ordered : ∀ op, ops op → Above rank 0 op) (inv : Inv rank s)
    (step : Step ops s t) : Inv rank t := by
  have changed : ∀ {sem : σ} {value : Sem ι} {other : σ}, other ≠ sem →
      Function.update s.sems sem value other = s.sems other := fun ne => Function.update_of_ne ne ..
  cases step with
  | @begins p op done known =>
      have safe := inv.safe p
      rw [done] at safe
      refine inv.runs (by rw [done]; rfl) ?_
      rw [show s.held p = [] from safe]
      exact ordered op known [] nofun
  | @reads p next n here =>
      have safe := inv.safe p
      rw [here] at safe
      exact inv.runs (by rw [here]; rfl) (safe n)
  | @takes p sem next here taken =>
      have safe := inv.safe p
      rw [here] at safe
      obtain ⟨waiting, granted⟩ := Sem.down_queue taken
      have same : ∀ q other, ((Function.update s.sems sem ((s.sems sem).down p).1 other).waiting ++
          (Function.update s.sems sem ((s.sems sem).down p).1 other).granted).count q = (queue s other).count q := by
        intro q other
        by_cases itself : other = sem
        · rw [itself, Function.update_self, waiting, granted]
          rfl
        · rw [changed itself]
          rfl
      refine inv.become (.running next) safe.2 (fun q other _ => same q other) fun other => (same p other).trans ?_
      rw [inv.queued, here]
      rfl
  | @waits p sem next here waits =>
      have safe := inv.safe p
      rw [here] at safe
      obtain ⟨-, waiting, granted⟩ := Sem.down_waits waits
      refine inv.become (.waiting sem next) safe (fun q other ne => ?_) fun other => ?_
      · by_cases itself : other = sem
        · rw [itself, Function.update_self, waiting, granted, List.append_assoc, List.count_append, List.count_append,
            List.count_singleton, if_neg (by simpa using ne.symm), Nat.zero_add, ← List.count_append]
          rfl
        · rw [changed itself]
          rfl
      · have old := inv.queued p other
        rw [here] at old
        by_cases itself : other = sem
        · rw [itself, Function.update_self, waiting, granted, List.append_assoc, List.count_append, List.count_append,
            List.count_singleton_self, Nat.add_left_comm, ← List.count_append]
          rw [itself] at old
          rw [show (s.sems sem).waiting ++ (s.sems sem).granted = queue s sem from rfl, old]
          simp [Task.waitsOn]
        · rw [changed itself, show (s.sems other).waiting ++ (s.sems other).granted = queue s other from rfl, old]
          simp [Task.waitsOn, Ne.symm itself]
  | @resumes p sem next here granted =>
      have safe := inv.safe p
      rw [here] at safe
      refine inv.become (.running next) safe.2 (fun q other ne => ?_) fun other => ?_
      · by_cases itself : other = sem
        · rw [itself, Function.update_self, queue, List.count_append, List.count_append, Sem.resume,
            List.count_erase_of_ne ne]
        · rw [changed itself]
          rfl
      · have old := inv.queued p other
        rw [here] at old
        by_cases itself : other = sem
        · rw [itself] at old ⊢
          rw [queue, List.count_append] at old
          rw [Function.update_self, List.count_append, Sem.resume, List.count_erase_self]
          have := List.count_pos_iff.mpr granted
          simp only [Task.waitsOn, if_true] at old
          simp only [Task.waitsOn]
          simp
          omega
        · rw [changed itself, show (s.sems other).waiting ++ (s.sems other).granted = queue s other from rfl, old]
          simp [Task.waitsOn, Ne.symm itself]
  | @gives p sem next here =>
      have safe := inv.safe p
      rw [here] at safe
      have same : ∀ q other, ((Function.update s.sems sem (s.sems sem).up other).waiting ++
          (Function.update s.sems sem (s.sems sem).up other).granted).count q = (queue s other).count q := by
        intro q other
        by_cases itself : other = sem
        · rw [itself, Function.update_self]
          exact (Sem.up_perm (s.sems sem)).count_eq q
        · rw [changed itself]
          rfl
      refine inv.become (.running next) safe.2 (fun q other _ => same q other) fun other => (same p other).trans ?_
      rw [inv.queued, here]
      rfl

theorem initial_inv (initial : Initial s) : Inv rank s := by
  refine ⟨fun p => ?_, fun p sem => ?_⟩
  · rw [(initial.2 p).1, (initial.2 p).2]
    rfl
  · rw [queue, initial.1, (initial.2 p).1]
    rfl

/-- What a process waits for ranks above all it holds. -/
theorem Inv.higher (inv : Inv rank s) {sem held : σ} (waits : Waits s p sem) (holds : Holds s p held) :
    rank held < rank sem := by
  have waiting : (s.tasks p).waitsOn = some sem := by
    by_contra other
    have absent := inv.queued p sem
    rw [if_neg other, List.count_eq_zero] at absent
    exact absent (List.mem_append_left _ waits)
  have queued := inv.queued p
  rcases holds with holds | granted
  · have safe := inv.safe p
    cases task : s.tasks p with
    | running code => simp [task, Task.waitsOn] at waiting
    | waiting sem' next =>
        rw [task] at safe waiting
        obtain rfl := Option.some_inj.mp waiting
        exact safe.1 held holds
  · by_cases same : held = sem
    · have once := queued sem
      rw [if_pos waiting, queue, List.count_append] at once
      have := List.count_pos_iff.mpr (show p ∈ (s.sems sem).waiting from waits)
      have := List.count_pos_iff.mpr (same ▸ granted : p ∈ (s.sems sem).granted)
      omega
    · have nothing := queued held
      rw [waiting, if_neg (by simpa using Ne.symm same), List.count_eq_zero] at nothing
      exact absurd (List.mem_append_right _ granted) nothing

/-- Along a chain of processes that wait for each other ranks go up. -/
theorem Inv.chain (inv : Inv rank s) (chain : Relation.TransGen (WaitsFor s) p q) :
    ∃ sem held, Waits s p sem ∧ Holds s q held ∧ rank sem ≤ rank held := by
  induction chain with
  | single waits =>
      obtain ⟨sem, waits, holds⟩ := waits
      exact ⟨sem, sem, waits, holds, le_rfl⟩
  | tail _ waits ih =>
      obtain ⟨first, last, begins, holds, le⟩ := ih
      obtain ⟨sem, waits, holds'⟩ := waits
      exact ⟨first, sem, begins, holds', le.trans (inv.higher waits holds).le⟩

/-- No processes wait for each other in a circle, and none for itself. -/
theorem Inv.no_circle (inv : Inv rank s) (p : ι) : ¬ Relation.TransGen (WaitsFor s) p p := by
  intro circle
  obtain ⟨sem, held, waits, holds, le⟩ := inv.chain circle
  exact absurd (inv.higher waits holds) (not_lt.mpr le)

theorem reached_inv {ops : Code σ Unit → Prop} (ordered : ∀ op, ops op → Above rank 0 op)
    (reached : Reachable Initial (Step ops) s) : Inv rank s :=
  reached.invariant (Inv rank) (fun _ => initial_inv) fun _ _ inv step => step_inv ordered inv step

end Ucore.Lib.Locking
