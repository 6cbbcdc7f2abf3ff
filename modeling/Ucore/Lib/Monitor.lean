import Ucore.Lib.Run
import Ucore.Lib.Semaphore

/-! # Operations under one lock

Programs of processes that share semaphores and memory, one access of the memory at a time.
When every operation touches what is shared only while it has one and the same semaphore, a run
of the processes is a run of a system in which each operation takes effect whole: it is called,
takes effect at some moment, and returns.
-/

namespace Ucore.Lib.Monitor

open Run Semaphore

variable {τ σ α β : Type}

inductive Code (τ σ α : Type) where
  | pure (a : α)
  | down (sem : τ) (next : Code τ σ α)
  | up (sem : τ) (next : Code τ σ α)
  /-- One access. What comes next goes by what was there before. -/
  | act (change : σ → σ) (next : σ → Code τ σ α)
  /-- It does not go on. -/
  | stop

namespace Code

def bind : Code τ σ α → (α → Code τ σ β) → Code τ σ β
  | .pure a, f => f a
  | .down sem next, f => .down sem (next.bind f)
  | .up sem next, f => .up sem (next.bind f)
  | .act change next, f => .act change fun s => (next s).bind f
  | .stop, _ => .stop

instance : Monad (Code τ σ) where
  pure := .pure
  bind := .bind

end Code

def down (sem : τ) : Code τ σ Unit := .down sem (.pure ())

def up (sem : τ) : Code τ σ Unit := .up sem (.pure ())

/-- Look at the memory. -/
def look (f : σ → α) : Code τ σ α := .act id fun s => .pure (f s)

def modify (f : σ → σ) : Code τ σ Unit := .act f fun _ => .pure ()

def stop : Code τ σ α := .stop

/-! ## One process alone -/

/-- Code that runs alone inside the lock ends with a value, and after each access the memory is
    as wanted. Of the other semaphores it takes only free ones, and gives back only what it has. -/
inductive Does (lock : τ) (along : σ → Prop) : List τ → σ → Code τ σ α → List τ → α → σ → Prop where
  | pure {held : List τ} {s : σ} {a : α} : Does lock along held s (.pure a) held a s
  | down {held held' : List τ} {s s' : σ} {a : α} {sem : τ} {next : Code τ σ α} (inner : sem ≠ lock)
      (free : sem ∉ held) (rest : Does lock along (sem :: held) s next held' a s') :
      Does lock along held s (.down sem next) held' a s'
  | up {left left' : List τ} {s s' : σ} {a : α} {sem : τ} {next : Code τ σ α} (held : sem ∉ left)
      (rest : Does lock along left s next left' a s') :
      Does lock along (sem :: left) s (.up sem next) left' a s'
  | act {held held' : List τ} {s s' : σ} {a : α} {change : σ → σ} {next : σ → Code τ σ α}
      (kept : along (change s)) (rest : Does lock along held (change s) (next s) held' a s') :
      Does lock along held s (.act change next) held' a s'

variable {lock : τ} {along : σ → Prop} {held held' held'' : List τ} {s s' s'' : σ} {a : α} {b : β}

namespace Does

theorem bind {m : Code τ σ α} {f : α → Code τ σ β} (first : Does lock along held s m held' a s')
    (rest : Does lock along held' s' (f a) held'' b s'') : Does lock along held s (m >>= f) held'' b s'' := by
  change Does lock along held s (m.bind f) held'' b s''
  induction first with
  | pure => exact rest
  | down inner free _ ih => exact .down inner free (ih rest)
  | up held _ ih => exact .up held (ih rest)
  | act kept _ ih => exact .act kept (ih rest)

theorem look (f : σ → α) (kept : along s) : Does lock along held s (Monitor.look f) held (f s) s :=
  .act kept .pure

theorem modify (f : σ → σ) (kept : along (f s)) : Does lock along held s (Monitor.modify f) held () (f s) :=
  .act kept .pure

/-- A semaphore is taken for a while. -/
theorem lock_inner {sem : τ} {m : Code τ σ α} (inner : sem ≠ lock) (free : sem ∉ held)
    (inside : Does lock along (sem :: held) s m held' a s') :
    Does lock along held s (Monitor.down sem >>= fun _ => m) held' a s' :=
  .down inner free inside

end Does

/-! ## Processes -/

inductive Task (τ σ α : Type) where
  | idle
  | running (code : Code τ σ α)
  | waiting (sem : τ) (next : Code τ σ α)

variable {ι κ ω μ γ : Type}

/-- The semaphores, what each process is at, the memory it has to itself, and the memory they share. -/
structure Sys (τ ι ω μ α : Type) where
  sems : τ → Sem ι
  tasks : ι → Task τ (ω × μ) α
  own : ι → ω
  shared : μ

/-- What can be seen of a run: which call a process makes, and what is returned to it, each with
    the memory it has to itself by then. -/
inductive Event (ι κ ω α : Type) where
  | calls (p : ι) (call : κ) (own : ω)
  | returns (p : ι) (a : α) (own : ω)

/-- What can be seen of the labels of a run. -/
def history (labels : List (Option (Event ι κ ω α))) : List (Event ι κ ω α) := labels.reduceOption

variable [DecidableEq τ] [DecidableEq ι]

namespace Sys

def become (s : Sys τ ι ω μ α) (p : ι) (task : Task τ (ω × μ) α) : Sys τ ι ω μ α :=
  { s with tasks := Function.update s.tasks p task }

def setSem (s : Sys τ ι ω μ α) (sem : τ) (value : Sem ι) : Sys τ ι ω μ α :=
  { s with sems := Function.update s.sems sem value }

def setOwn (s : Sys τ ι ω μ α) (p : ι) (own : ω) : Sys τ ι ω μ α := { s with own := Function.update s.own p own }

/-- The memory as a process sees it. -/
def view (s : Sys τ ι ω μ α) (p : ι) : ω × μ := (s.own p, s.shared)

def setView (s : Sys τ ι ω μ α) (p : ι) (view : ω × μ) : Sys τ ι ω μ α :=
  { s.setOwn p view.1 with shared := view.2 }

end Sys

/-- One process goes on. What it has done with the memory of its own between two calls shows in
    the next one. -/
inductive Step (valid : κ → Prop) (ops : κ → Code τ (ω × μ) α) (s : Sys τ ι ω μ α) :
    Option (Event ι κ ω α) → Sys τ ι ω μ α → Prop where
  | calls {p : ι} {call : κ} (own : ω) (idle : s.tasks p = .idle) (allowed : valid call) :
      Step valid ops s (some (.calls p call own)) ((s.setOwn p own).become p (.running (ops call)))
  | acts {p : ι} {change : ω × μ → ω × μ} {next : ω × μ → Code τ (ω × μ) α}
      (here : s.tasks p = .running (.act change next)) :
      Step valid ops s none ((s.setView p (change (s.view p))).become p (.running (next (s.view p))))
  | takes {p : ι} {sem : τ} {next : Code τ (ω × μ) α} (here : s.tasks p = .running (.down sem next))
      (taken : ((s.sems sem).down p).2 = true) :
      Step valid ops s none ((s.setSem sem ((s.sems sem).down p).1).become p (.running next))
  | waits {p : ι} {sem : τ} {next : Code τ (ω × μ) α} (here : s.tasks p = .running (.down sem next))
      (waits : ((s.sems sem).down p).2 = false) :
      Step valid ops s none ((s.setSem sem ((s.sems sem).down p).1).become p (.waiting sem next))
  | resumes {p : ι} {sem : τ} {next : Code τ (ω × μ) α} (here : s.tasks p = .waiting sem next)
      (granted : p ∈ (s.sems sem).granted) :
      Step valid ops s none ((s.setSem sem ((s.sems sem).resume p)).become p (.running next))
  | gives {p : ι} {sem : τ} {next : Code τ (ω × μ) α} (here : s.tasks p = .running (.up sem next)) :
      Step valid ops s none ((s.setSem sem (s.sems sem).up).become p (.running next))
  | returns {p : ι} {a : α} (done : s.tasks p = .running (.pure a)) :
      Step valid ops s (some (.returns p a (s.own p))) (s.become p .idle)

/-- No process has called anything, and each semaphore has one unit. -/
structure Initial (s : Sys τ ι ω μ α) : Prop where
  sems : ∀ sem, s.sems sem = Sem.init 1
  idle : ∀ p, s.tasks p = .idle

/-! ## Operations that take effect whole -/

inductive Status (κ α : Type) where
  | idle
  | called (call : κ)
  | done (a : α)

structure Whole (ι κ ω γ α : Type) where
  status : ι → Status κ α
  own : ι → ω
  value : γ

namespace Whole

def become (w : Whole ι κ ω γ α) (p : ι) (status : Status κ α) : Whole ι κ ω γ α :=
  { w with status := Function.update w.status p status }

def setOwn (w : Whole ι κ ω γ α) (p : ι) (own : ω) : Whole ι κ ω γ α :=
  { w with own := Function.update w.own p own }

/-- Nobody has called anything. -/
def start (own : ι → ω) (value : γ) : Whole ι κ ω γ α := ⟨fun _ => .idle, own, value⟩

inductive Step (valid : κ → Prop) (effect : κ → ω → γ → α × ω × γ) (w : Whole ι κ ω γ α) :
    Option (Event ι κ ω α) → Whole ι κ ω γ α → Prop where
  | calls {p : ι} {call : κ} (own : ω) (idle : w.status p = .idle) (allowed : valid call) :
      Step valid effect w (some (.calls p call own)) ((w.setOwn p own).become p (.called call))
  /-- All of a call happens at once. -/
  | happens {p : ι} {call : κ} {a : α} {own : ω} {value : γ} (called : w.status p = .called call)
      (now : effect call (w.own p) w.value = (a, own, value)) :
      Step valid effect w none ({ w.setOwn p own with value := value }.become p (.done a))
  | returns {p : ι} {a : α} (done : w.status p = .done a) :
      Step valid effect w (some (.returns p a (w.own p))) (w.become p .idle)

end Whole

/-- Each operation is a body between taking the lock and giving it back. From
    memory that stands for a value the body leads to memory that stands for the value its effect
    makes of it, and the memory is as wanted all the way. -/
structure Implements (lock : τ) (rep : μ → γ → Prop) (along : κ → γ → μ → Prop) (valid : κ → Prop)
    (effect : κ → ω → γ → α × ω × γ) (ops : κ → Code τ (ω × μ) α) : Prop where
  start : ∀ {call shared value}, rep shared value → along call value shared
  body : ∀ {call}, valid call → ∃ body : Code τ (ω × μ) α,
    ops call = (down lock >>= fun _ => body >>= fun a => up lock >>= fun _ => pure a) ∧
    ∀ own shared value, rep shared value → ∃ a own' shared' value',
      effect call own value = (a, own', value') ∧ rep shared' value' ∧
      Does lock (fun s => along call value s.2) [] (own, shared) body [] a (own', shared')

/-! ## Every run -/

/-- What is left inside the lock: a body, and giving the lock back. -/
def leaving (lock : τ) (body : Code τ σ α) : Code τ σ α := body.bind fun a => .up lock (.pure a)

def Task.waitsOn : Task τ σ α → Option τ
  | .waiting sem _ => some sem
  | _ => none

variable {lock : τ} {rep : μ → γ → Prop} {along : κ → γ → μ → Prop} {valid : κ → Prop}
  {effect : κ → ω → γ → α × ω × γ} {ops : κ → Code τ (ω × μ) α}
  {s t : Sys τ ι ω μ α} {w w' : Whole ι κ ω γ α} {p : ι}

/-- How a process that is not inside the lock stands to what it is at in the whole. -/
inductive Outside (lock : τ) (valid : κ → Prop) (ops : κ → Code τ (ω × μ) α) :
    Task τ (ω × μ) α → Status κ α → Prop where
  | idle : Outside lock valid ops .idle .idle
  | begins {call : κ} (allowed : valid call) : Outside lock valid ops (.running (ops call)) (.called call)
  | waits {call : κ} {next : Code τ (ω × μ) α} (allowed : valid call) (same : ops call = .down lock next) :
      Outside lock valid ops (.waiting lock next) (.called call)
  | done {a : α} : Outside lock valid ops (.running (.pure a)) (.done a)

/-- A process inside the lock has a body to go that leads to what its call has as effect. -/
structure Inside (lock : τ) (rep : μ → γ → Prop) (along : κ → γ → μ → Prop) (effect : κ → ω → γ → α × ω × γ)
    (s : Sys τ ι ω μ α) (w : Whole ι κ ω γ α) (p : ι) (call : κ) (body : Code τ (ω × μ) α) (held : List τ) :
    Prop where
  called : w.status p = .called call
  here : s.tasks p = .running (leaving lock body)
  inner : lock ∉ held
  sems : ∀ sem, sem ≠ lock → s.sems sem = if sem ∈ held then ⟨0, [], []⟩ else Sem.init 1
  kept : along call w.value s.shared
  does : ∃ a own' shared' value', effect call (w.own p) w.value = (a, own', value') ∧ rep shared' value' ∧
    Does lock (fun s => along call w.value s.2) held (s.view p) body [] a (own', shared')

/-- Whether somebody is inside the lock. -/
inductive Turn (lock : τ) (rep : μ → γ → Prop) (along : κ → γ → μ → Prop) (valid : κ → Prop)
    (effect : κ → ω → γ → α × ω × γ) (ops : κ → Code τ (ω × μ) α) (s : Sys τ ι ω μ α) (w : Whole ι κ ω γ α) :
    Prop where
  | free (units : (s.sems lock).units = 1) (sems : ∀ sem, sem ≠ lock → s.sems sem = Sem.init 1)
      (outside : ∀ q, Outside lock valid ops (s.tasks q) (w.status q)) (own : ∀ q, s.own q = w.own q)
      (stands : rep s.shared w.value)
  | taken (p : ι) (call : κ) (body : Code τ (ω × μ) α) (held : List τ) (units : (s.sems lock).units = 0)
      (inside : Inside lock rep along effect s w p call body held)
      (outside : ∀ q, q ≠ p → Outside lock valid ops (s.tasks q) (w.status q))
      (own : ∀ q, q ≠ p → s.own q = w.own q)

structure Related (lock : τ) (rep : μ → γ → Prop) (along : κ → γ → μ → Prop) (valid : κ → Prop)
    (effect : κ → ω → γ → α × ω × γ) (ops : κ → Code τ (ω × μ) α) (s : Sys τ ι ω μ α) (w : Whole ι κ ω γ α) :
    Prop where
  prompt : (s.sems lock).Prompt
  queued : ∀ q, (s.sems lock).queue.count q = if (s.tasks q).waitsOn = some lock then 1 else 0
  turn : Turn lock rep along valid effect ops s w

omit [DecidableEq τ] [DecidableEq ι] in
theorem Implements.begins (impl : Implements lock rep along valid effect ops) {call : κ} (allowed : valid call) :
    ∃ next, ops call = .down lock next := by
  obtain ⟨body, same, -⟩ := impl.body allowed
  exact ⟨_, same⟩

omit [DecidableEq τ] [DecidableEq ι] in
/-- Code of a process outside the lock begins with the lock, or is at its end. -/
theorem Outside.running (impl : Implements lock rep along valid effect ops) {code : Code τ (ω × μ) α}
    {status : Status κ α} (outside : Outside lock valid ops (.running code) status) :
    (∃ call next, valid call ∧ ops call = .down lock next ∧ code = .down lock next ∧ status = .called call) ∨
      ∃ a, code = .pure a ∧ status = .done a := by
  cases outside with
  | @begins call allowed =>
      obtain ⟨next, begins⟩ := impl.begins allowed
      exact .inl ⟨call, next, allowed, begins, begins, rfl⟩
  | @done a => exact .inr ⟨a, rfl, rfl⟩

section

omit [DecidableEq ι]

theorem Inside.not_outside (impl : Implements lock rep along valid effect ops) {call : κ}
    {body : Code τ (ω × μ) α} {held : List τ} (inside : Inside lock rep along effect s w p call body held) :
    ¬ Outside lock valid ops (s.tasks p) (w.status p) := by
  intro outside
  obtain ⟨a, own', shared', value', -, -, does⟩ := inside.does
  rw [inside.here, inside.called] at outside
  rcases outside.running impl with ⟨_, _, _, _, code, _⟩ | ⟨_, _, status⟩
  · cases does with
    | down inner => exact inner (Code.down.inj code).1
    | pure | up | act => cases code
  · cases status

/-- Others go on. -/
theorem Inside.frame {call : κ} {body : Code τ (ω × μ) α} {held : List τ}
    (inside : Inside lock rep along effect s w p call body held) (sems : ∀ sem, sem ≠ lock → t.sems sem = s.sems sem)
    (shared : t.shared = s.shared) (value : w'.value = w.value) (task : t.tasks p = s.tasks p)
    (status : w'.status p = w.status p) (own : t.own p = s.own p) (own' : w'.own p = w.own p) :
    Inside lock rep along effect t w' p call body held where
  called := status.trans inside.called
  here := task.trans inside.here
  inner := inside.inner
  sems sem ne := (sems sem ne).trans (inside.sems sem ne)
  kept := by
    rw [value, shared]
    exact inside.kept
  does := by
    rw [own', value, Sys.view, own, shared]
    exact inside.does

/-- A process outside the lock goes on outside the lock. -/
theorem Turn.elsewhere (impl : Implements lock rep along valid effect ops)
    (turn : Turn lock rep along valid effect ops s w) (outside : Outside lock valid ops (s.tasks p) (w.status p))
    (units : (t.sems lock).units = (s.sems lock).units) (sems : ∀ sem, sem ≠ lock → t.sems sem = s.sems sem)
    (shared : t.shared = s.shared) (value : w'.value = w.value)
    (others : ∀ q, q ≠ p → t.tasks q = s.tasks q ∧ w'.status q = w.status q ∧ t.own q = s.own q ∧ w'.own q = w.own q)
    (here : Outside lock valid ops (t.tasks p) (w'.status p)) (own : t.own p = w'.own p) :
    Turn lock rep along valid effect ops t w' := by
  have outsides : ∀ q, Outside lock valid ops (s.tasks q) (w.status q) →
      Outside lock valid ops (t.tasks q) (w'.status q) := by
    intro q before
    by_cases itself : q = p
    · rwa [itself]
    · obtain ⟨task, status, -⟩ := others q itself
      rwa [task, status]
  have owns : ∀ q, s.own q = w.own q → t.own q = w'.own q := by
    intro q before
    by_cases itself : q = p
    · rwa [itself]
    · obtain ⟨-, -, same, same'⟩ := others q itself
      rwa [same, same']
  cases turn with
  | free one free before same stands =>
      refine .free (units.trans one) (fun sem ne => (sems sem ne).trans (free sem ne)) (fun q => outsides q (before q))
        (fun q => owns q (same q)) ?_
      rwa [shared, value]
  | taken holder call body held none inside before same =>
      have other : holder ≠ p := by
        rintro rfl
        exact inside.not_outside impl outside
      obtain ⟨task, status, own, own'⟩ := others holder other
      exact .taken holder call body held (units.trans none) (inside.frame sems shared value task status own own')
        (fun q ne => outsides q (before q ne)) fun q ne => owns q (same q ne)

/-- A process outside the lock gets the lock. -/
theorem Turn.enters (impl : Implements lock rep along valid effect ops) {call : κ} {next : Code τ (ω × μ) α}
    (allowed : valid call) (same : ops call = .down lock next) (called : w.status p = .called call)
    (sems : ∀ sem, sem ≠ lock → s.sems sem = Sem.init 1)
    (outside : ∀ q, Outside lock valid ops (s.tasks q) (w.status q)) (own : ∀ q, s.own q = w.own q)
    (stands : rep s.shared w.value) (units : (t.sems lock).units = 0)
    (others : ∀ sem, sem ≠ lock → t.sems sem = s.sems sem) (shared : t.shared = s.shared) (owns : t.own = s.own)
    (tasks : ∀ q, q ≠ p → t.tasks q = s.tasks q) (here : t.tasks p = .running next) :
    Turn lock rep along valid effect ops t w := by
  obtain ⟨body, code, does⟩ := impl.body allowed
  obtain rfl : next = leaving lock body := (Code.down.inj (same.symm.trans code)).2
  refine .taken p call body [] units ⟨called, here, by simp, fun sem ne => ?_, ?_, ?_⟩ (fun q ne => ?_) fun q ne => ?_
  · rw [others sem ne, sems sem ne]
    simp
  · rw [shared]
    exact impl.start stands
  · rw [Sys.view, owns, shared, own]
    exact does (w.own p) s.shared w.value stands
  · rw [tasks q ne]
    exact outside q
  · rw [owns]
    exact own q

end

/-- A process is outside the lock, or inside and then the only one. -/
theorem Turn.either (turn : Turn lock rep along valid effect ops s w) (p : ι) :
    (Outside lock valid ops (s.tasks p) (w.status p) ∧ s.own p = w.own p) ∨
      ((s.sems lock).units = 0 ∧ ∃ call body held, Inside lock rep along effect s w p call body held ∧
        ∀ q, q ≠ p → Outside lock valid ops (s.tasks q) (w.status q) ∧ s.own q = w.own q) := by
  cases turn with
  | free one free outside own stands => exact .inl ⟨outside p, own p⟩
  | taken holder call body held none inside outside own =>
      by_cases itself : p = holder
      · rw [itself]
        exact .inr ⟨none, call, body, held, inside, fun q ne => ⟨outside q ne, own q ne⟩⟩
      · exact .inl ⟨outside p itself, own p itself⟩

/-- One process goes on, and the queue of the lock is as it has to be. -/
theorem Related.queue_kept (related : Related lock rep along valid effect ops s w)
    (others : ∀ q, q ≠ p → t.tasks q = s.tasks q)
    (count : ∀ q, (t.sems lock).queue.count q = (s.sems lock).queue.count q)
    (before : (s.tasks p).waitsOn ≠ some lock) (after : (t.tasks p).waitsOn ≠ some lock) (q : ι) :
    (t.sems lock).queue.count q = if (t.tasks q).waitsOn = some lock then 1 else 0 := by
  rw [count, related.queued]
  by_cases itself : q = p
  · rw [itself, if_neg before, if_neg after]
  · rw [others q itself]

/-- The steps of the whole that a step of the processes is: none, or one. -/
def Moves (valid : κ → Prop) (effect : κ → ω → γ → α × ω × γ) (w : Whole ι κ ω γ α)
    (label : Option (Event ι κ ω α)) (w' : Whole ι κ ω γ α) : Prop :=
  (label = none ∧ w' = w) ∨ Whole.Step valid effect w label w'

namespace Related

variable (impl : Implements lock rep along valid effect ops) (related : Related lock rep along valid effect ops s w)

include impl related

theorem calls {call : κ} (own : ω) (idle : s.tasks p = .idle) (allowed : valid call) :
    ∃ w', Moves valid effect w (some (.calls p call own)) w' ∧
      Related lock rep along valid effect ops ((s.setOwn p own).become p (.running (ops call))) w' := by
  rcases related.turn.either p with ⟨outside, -⟩ | ⟨-, _, _, _, inside, -⟩
  · have status : w.status p = .idle := by
      rw [idle] at outside
      generalize w.status p = status at outside
      cases outside
      rfl
    refine ⟨(w.setOwn p own).become p (.called call), .inr (.calls own status allowed), related.prompt, ?_, ?_⟩
    · refine related.queue_kept (p := p) (fun q ne => Function.update_of_ne ne ..) (fun _ => rfl) ?_ ?_
      · simp [idle, Task.waitsOn]
      · simp [Sys.become, Task.waitsOn]
    · refine related.turn.elsewhere impl outside rfl (fun _ _ => rfl) rfl rfl (fun q ne => ?_) ?_ ?_
      · simp [Sys.become, Sys.setOwn, Whole.become, Whole.setOwn, Function.update_of_ne ne]
      · simpa [Sys.become, Whole.become] using Outside.begins allowed
      · simp [Sys.become, Sys.setOwn, Whole.become, Whole.setOwn]
  · cases inside.here.symm.trans idle

theorem returns {a : α} (done : s.tasks p = .running (.pure a)) :
    ∃ w', Moves valid effect w (some (.returns p a (s.own p))) w' ∧
      Related lock rep along valid effect ops (s.become p .idle) w' := by
  rcases related.turn.either p with ⟨outside, own⟩ | ⟨-, _, body, _, inside, -⟩
  · have status : w.status p = .done a := by
      have outside := outside
      rw [done] at outside
      rcases outside.running impl with ⟨_, _, _, _, code, _⟩ | ⟨_, code, status⟩ <;> cases code
      exact status
    rw [own]
    refine ⟨w.become p .idle, .inr (.returns status), related.prompt, ?_, ?_⟩
    · refine related.queue_kept (p := p) (fun q ne => Function.update_of_ne ne ..) (fun _ => rfl) ?_ ?_
      · simp [done, Task.waitsOn]
      · simp [Sys.become, Task.waitsOn]
    · refine related.turn.elsewhere impl outside rfl (fun _ _ => rfl) rfl rfl (fun q ne => ?_) ?_ own
      · simp [Sys.become, Whole.become, Function.update_of_ne ne]
      · simpa [Sys.become, Whole.become] using Outside.idle
  · obtain ⟨a, own', shared', value', -, -, does⟩ := inside.does
    have code := inside.here.symm.trans done
    cases does <;> cases code

theorem acts {change : ω × μ → ω × μ} {next : ω × μ → Code τ (ω × μ) α}
    (here : s.tasks p = .running (.act change next)) :
    Related lock rep along valid effect ops
      ((s.setView p (change (s.view p))).become p (.running (next (s.view p)))) w := by
  refine ⟨related.prompt, related.queue_kept (p := p) (fun q ne => Function.update_of_ne ne ..)
    (fun _ => rfl) ?_ ?_, ?_⟩
  · simp [here, Task.waitsOn]
  · simp [Sys.become, Task.waitsOn]
  · rcases related.turn.either p with ⟨outside, -⟩ | ⟨none, call, body, held, inside, others⟩
    · rw [here] at outside
      rcases outside.running impl with ⟨_, _, _, _, code, _⟩ | ⟨_, code, _⟩ <;> cases code
    · obtain ⟨a, own', shared', value', now, stands, does⟩ := inside.does
      have code := inside.here.symm.trans here
      cases does with
      | @act _ _ _ _ _ _ next' kept rest =>
          cases code
          refine .taken p call (next' (s.view p)) held none
            ⟨inside.called, ?_, inside.inner, inside.sems, kept, a, own',
            shared', value', now, stands, ?_⟩ (fun q ne => ?_) fun q ne => ?_
          · simp [Sys.become, leaving]
          · simpa [Sys.become, Sys.view, Sys.setView, Sys.setOwn] using rest
          · simpa [Sys.become, Sys.setView, Sys.setOwn, Function.update_of_ne ne] using (others q ne).1
          · simpa [Sys.become, Sys.setView, Sys.setOwn, Function.update_of_ne ne] using (others q ne).2
      | pure | down | up => cases code

theorem takes {sem : τ} {next : Code τ (ω × μ) α} (here : s.tasks p = .running (.down sem next))
    (taken : ((s.sems sem).down p).2 = true) :
    Related lock rep along valid effect ops
      ((s.setSem sem ((s.sems sem).down p).1).become p (.running next)) w := by
  have units := Sem.down_units taken
  refine ⟨?_, related.queue_kept (p := p) (fun q ne => Function.update_of_ne ne ..) (fun q => ?_) ?_ ?_, ?_⟩
  · by_cases same : sem = lock
    · rw [same]
      simpa [Sys.become, Sys.setSem] using related.prompt.down p
    · simpa [Sys.become, Sys.setSem, Function.update_of_ne (Ne.symm same)] using related.prompt
  · by_cases same : sem = lock
    · rw [same] at taken ⊢
      simp [Sys.become, Sys.setSem, Sem.queue_taken taken]
    · simp [Sys.become, Sys.setSem, Function.update_of_ne (Ne.symm same)]
  · simp [here, Task.waitsOn]
  · simp [Sys.become, Task.waitsOn]
  · rcases related.turn.either p with ⟨outside, -⟩ | ⟨none, call, body, held, inside, others⟩
    · have outside := outside
      rw [here] at outside
      rcases outside.running impl with ⟨call, _, allowed, begins, code, called⟩ | ⟨_, code, _⟩ <;>
        cases code
      cases related.turn with
      | free one free outside own stands =>
          refine .enters impl allowed begins called free outside own stands ?_ (fun sem ne => ?_) rfl rfl
            (fun q ne => Function.update_of_ne ne ..) (Function.update_self ..)
          · simp only [Sys.become, Sys.setSem, Function.update_self]
            omega
          · simp [Sys.become, Sys.setSem, Function.update_of_ne ne]
      | taken _ _ _ _ none => omega
    · obtain ⟨a, own', shared', value', now, stands, does⟩ := inside.does
      have code := inside.here.symm.trans here
      cases does with
      | @down _ _ _ _ _ _ next' ne free rest =>
          cases code
          have one := inside.sems sem ne
          rw [if_neg free] at one
          refine .taken p call next' (sem :: held) ?_ ⟨inside.called, ?_, ?_, fun other ne' => ?_, inside.kept, a, own',
            shared', value', now, stands, rest⟩ (fun q ne => ?_) fun q ne => (others q ne).2
          · simpa [Sys.become, Sys.setSem, Function.update_of_ne ne.symm] using none
          · simp [Sys.become, leaving]
          · simpa [ne.symm] using inside.inner
          · by_cases same : other = sem
            · rw [same]
              simp [Sys.become, Sys.setSem, one, Sem.init, Sem.down]
            · simpa [Sys.become, Sys.setSem, Function.update_of_ne same, same] using inside.sems other ne'
          · simpa [Sys.become, Sys.setSem, Function.update_of_ne ne] using (others q ne).1
      | pure | act | up => cases code

theorem waits {sem : τ} {next : Code τ (ω × μ) α} (here : s.tasks p = .running (.down sem next))
    (waits : ((s.sems sem).down p).2 = false) :
    Related lock rep along valid effect ops
      ((s.setSem sem ((s.sems sem).down p).1).become p (.waiting sem next)) w := by
  rcases related.turn.either p with ⟨outside, own⟩ | ⟨-, call, body, held, inside, -⟩
  · have old := outside
    rw [here] at old
    rcases old.running impl with ⟨call, _, allowed, begins, code, called⟩ | ⟨_, code, _⟩ <;>
      cases code
    refine ⟨?_, fun q => ?_, ?_⟩
    · simpa [Sys.become, Sys.setSem] using related.prompt.down p
    · have count := related.queued q
      simp only [Sys.become, Sys.setSem, Function.update_self, Sem.queue_waits waits, count]
      by_cases itself : q = p
      · simp [itself, here, Task.waitsOn]
      · simp [itself]
    · refine related.turn.elsewhere impl outside ?_ (fun sem ne => ?_) rfl rfl (fun q ne => ?_) ?_ own
      · simpa [Sys.become, Sys.setSem] using (Sem.down_waits waits).1
      · simp [Sys.become, Sys.setSem, Function.update_of_ne ne]
      · simp [Sys.become, Sys.setSem, Function.update_of_ne ne]
      · simpa [Sys.become, called] using Outside.waits allowed begins
  · obtain ⟨a, own', shared', value', now, stands, does⟩ := inside.does
    have code := inside.here.symm.trans here
    cases does with
    | down ne free rest =>
        cases code
        have one := inside.sems sem ne
        rw [if_neg free] at one
        rw [one] at waits
        cases waits
    | pure | act | up => cases code

theorem resumes {sem : τ} {next : Code τ (ω × μ) α} (here : s.tasks p = .waiting sem next)
    (granted : p ∈ (s.sems sem).granted) :
    Related lock rep along valid effect ops
      ((s.setSem sem ((s.sems sem).resume p)).become p (.running next)) w := by
  rcases related.turn.either p with ⟨outside, -⟩ | ⟨-, call, body, held, inside, -⟩
  · have old := outside
    rw [here] at old
    generalize status : w.status p = status at old
    cases old with
    | @waits call _ allowed begins =>
        have units := Sem.resume_units granted
        refine ⟨?_, fun q => ?_, ?_⟩
        · simpa [Sys.become, Sys.setSem, Sem.resume, Sem.Prompt] using related.prompt
        · have count := Sem.queue_resume granted q
          rw [related.queued] at count
          simp only [Sys.become, Sys.setSem, Function.update_self]
          by_cases itself : q = p
          · simp only [itself, here, Task.waitsOn, Function.update_self, if_true] at count ⊢
            simpa using count
          · simpa [itself, Function.update_of_ne itself] using count
        · cases related.turn with
          | free one free outside own stands =>
              refine .enters impl allowed begins status free outside own stands ?_ (fun sem ne => ?_) rfl rfl
                (fun q ne => Function.update_of_ne ne ..) (Function.update_self ..)
              · simp only [Sys.become, Sys.setSem, Function.update_self]
                omega
              · simp [Sys.become, Sys.setSem, Function.update_of_ne ne]
          | taken _ _ _ _ none => omega
  · cases inside.here.symm.trans here

theorem gives {sem : τ} {next : Code τ (ω × μ) α} (here : s.tasks p = .running (.up sem next)) :
    ∃ w', Moves valid effect w none w' ∧
      Related lock rep along valid effect ops ((s.setSem sem (s.sems sem).up).become p (.running next)) w' := by
  have prompt : (((s.setSem sem (s.sems sem).up).become p (.running next)).sems lock).Prompt := by
    by_cases same : sem = lock
    · rw [same]
      simpa [Sys.become, Sys.setSem] using related.prompt.up
    · simpa [Sys.become, Sys.setSem, Function.update_of_ne (Ne.symm same)] using related.prompt
  have queued := related.queue_kept (p := p) (t := (s.setSem sem (s.sems sem).up).become p (.running next))
    (fun q ne => Function.update_of_ne ne ..) (fun q => by
      by_cases same : sem = lock
      · rw [same]
        simp [Sys.become, Sys.setSem, Sem.queue_up]
      · simp [Sys.become, Sys.setSem, Function.update_of_ne (Ne.symm same)])
    (by simp [here, Task.waitsOn]) (by simp [Sys.become, Task.waitsOn])
  rcases related.turn.either p with ⟨outside, -⟩ | ⟨none, call, body, held, inside, others⟩
  · rw [here] at outside
    rcases outside.running impl with ⟨_, _, _, _, code, _⟩ | ⟨_, code, _⟩ <;> cases code
  · obtain ⟨a, own', shared', value', now, stands, does⟩ := inside.does
    have code := inside.here.symm.trans here
    cases does with
    | pure =>
        cases code
        refine ⟨_, .inr (.happens inside.called now), prompt, queued, .free ?_ (fun other ne => ?_) (fun q => ?_)
          (fun q => ?_) stands⟩
        · simpa [Sys.become, Sys.setSem] using none
        · simpa [Sys.become, Sys.setSem, Function.update_of_ne ne] using inside.sems other ne
        · by_cases itself : q = p
          · rw [itself]
            simpa [Sys.become, Whole.become] using Outside.done
          · simpa [Sys.become, Sys.setSem, Whole.become, Whole.setOwn, Function.update_of_ne itself]
              using (others q itself).1
        · by_cases itself : q = p
          · rw [itself]
            simp [Sys.become, Sys.setSem, Whole.become, Whole.setOwn]
          · simpa [Sys.become, Sys.setSem, Whole.become, Whole.setOwn, Function.update_of_ne itself]
              using (others q itself).2
    | @up left _ _ _ _ _ next' fresh rest =>
        cases code
        have ne : sem ≠ lock := fun same => inside.inner (same ▸ List.mem_cons_self)
        have one := inside.sems sem ne
        rw [if_pos List.mem_cons_self] at one
        refine ⟨w, .inl ⟨rfl, rfl⟩, prompt, queued, .taken p call next' left ?_
          ⟨inside.called, ?_, ?_, fun other ne' => ?_, inside.kept, a, own', shared', value', now, stands, rest⟩
          (fun q ne => ?_) fun q ne => (others q ne).2⟩
        · simpa [Sys.become, Sys.setSem, Function.update_of_ne ne.symm] using none
        · simp [Sys.become, leaving]
        · exact fun inside' => inside.inner (List.mem_cons_of_mem _ inside')
        · by_cases same : other = sem
          · rw [same, if_neg fresh]
            simp [Sys.become, Sys.setSem, one, Sem.init, Sem.up]
          · simpa [Sys.become, Sys.setSem, Function.update_of_ne same, same] using inside.sems other ne'
        · simpa [Sys.become, Sys.setSem, Function.update_of_ne ne] using (others q ne).1
    | down | act => cases code

/-- Each step of the processes is a step of the whole, or none. -/
theorem step {label : Option (Event ι κ ω α)} (step : Step valid ops s label t) :
    ∃ w', Moves valid effect w label w' ∧ Related lock rep along valid effect ops t w' := by
  cases step with
  | calls own idle allowed => exact related.calls impl own idle allowed
  | returns done => exact related.returns impl done
  | gives here => exact related.gives impl here
  | acts here => exact ⟨w, .inl ⟨rfl, rfl⟩, related.acts impl here⟩
  | takes here taken => exact ⟨w, .inl ⟨rfl, rfl⟩, related.takes impl here taken⟩
  | waits here waits => exact ⟨w, .inl ⟨rfl, rfl⟩, related.waits impl here waits⟩
  | resumes here granted => exact ⟨w, .inl ⟨rfl, rfl⟩, related.resumes impl here granted⟩

/-- A run of the processes is a run of the whole, by what can be seen of it. -/
theorem run {labels : List (Option (Event ι κ ω α))} (run : Trace (Step valid ops) s labels t) :
    ∃ labels' w', Trace (Whole.Step valid effect) w labels' w' ∧ history labels' = history labels ∧
      Related lock rep along valid effect ops t w' := by
  induction run generalizing w with
  | nil => exact ⟨[], w, .nil w, rfl, related⟩
  | @cons _ _ _ label labels taken later ih =>
      obtain ⟨w', moves, next⟩ := related.step impl taken
      obtain ⟨labels', w'', run, same, last⟩ := ih next
      rcases moves with ⟨rfl, rfl⟩ | moves
      · exact ⟨labels', w'', run, same, last⟩
      · refine ⟨label :: labels', w'', .cons moves run, ?_, last⟩
        cases label with
        | none => exact same
        | some event => exact congrArg (event :: ·) same

end Related

/-- At the start the memory stands for a value, and no process has called anything. -/
theorem Initial.related (initial : Initial s) {value : γ} (stands : rep s.shared value) :
    Related lock rep along valid effect ops s (Whole.start s.own value) where
  prompt := by
    rw [initial.sems]
    exact Sem.init_prompt 1
  queued q := by
    rw [initial.sems, initial.idle]
    rfl
  turn := by
    refine .free ?_ (fun sem _ => initial.sems sem) (fun q => ?_) (fun _ => rfl) stands
    · rw [initial.sems]
      rfl
    · rw [initial.idle]
      exact .idle

namespace Related

variable (related : Related lock rep along valid effect ops s w)

include related

/-- No process stops. -/
theorem not_stopped (impl : Implements lock rep along valid effect ops) : s.tasks p ≠ .running .stop := by
  intro stopped
  rcases related.turn.either p with ⟨outside, -⟩ | ⟨-, call, body, held, inside, -⟩
  · rw [stopped] at outside
    rcases outside.running impl with ⟨_, _, _, _, code, _⟩ | ⟨_, code, _⟩ <;> cases code
  · obtain ⟨a, own', shared', value', -, -, does⟩ := inside.does
    have code := inside.here.symm.trans stopped
    cases does <;> cases code

/-- The memory stands for the value, or it is on the way there in a call that has not taken effect. -/
theorem stands : rep s.shared w.value ∨ ∃ p call, w.status p = .called call ∧ along call w.value s.shared := by
  cases related.turn with
  | free _ _ _ _ stands => exact .inl stands
  | taken p call _ _ _ inside => exact .inr ⟨p, call, inside.called, inside.kept⟩

/-- While there is a call under way some process can go on. -/
theorem progress (impl : Implements lock rep along valid effect ops) (busy : s.tasks p ≠ .idle) :
    ∃ label t, Step valid ops s label t ∧ ∀ q call own, label ≠ some (.calls q call own) := by
  cases related.turn with
  | taken holder call body held none inside =>
      obtain ⟨a, own', shared', value', -, -, does⟩ := inside.does
      have here := inside.here
      cases does with
      | pure => exact ⟨_, _, .gives here, by simp⟩
      | down ne free rest =>
          have one := inside.sems _ ne
          rw [if_neg free] at one
          exact ⟨_, _, .takes here (by rw [one]; rfl), by simp⟩
      | up => exact ⟨_, _, .gives here, by simp⟩
      | act => exact ⟨_, _, .acts here, by simp⟩
  | free one free outside own stands =>
      cases granted : (s.sems lock).granted with
      | cons q rest =>
          have count := related.queued q
          rw [Sem.queue, granted, List.count_append, List.count_cons_self] at count
          have waits : (s.tasks q).waitsOn = some lock := by
            by_contra other
            rw [if_neg other] at count
            omega
          cases here : s.tasks q with
          | waiting sem next =>
              rw [here] at waits
              cases waits
              exact ⟨_, _, .resumes here (granted ▸ List.mem_cons_self), by simp⟩
          | idle | running => simp [here, Task.waitsOn] at waits
      | nil =>
          have positive : 0 < (s.sems lock).value := by
            simp only [Sem.units, granted, List.length_nil] at one
            omega
          have outside := outside p
          generalize here : s.tasks p = task at outside
          generalize w.status p = status at outside
          cases outside with
          | idle => exact absurd here busy
          | @begins call allowed =>
              obtain ⟨next, begins⟩ := impl.begins allowed
              rw [begins] at here
              exact ⟨_, _, .takes here (by rw [Sem.down, if_pos positive]), by simp⟩
          | waits =>
              have count := related.queued p
              rw [Sem.queue, granted, related.prompt positive, here] at count
              simp [Task.waitsOn] at count
          | done => exact ⟨_, _, .returns here, by simp⟩

end Related

/-- A process that has stopped never goes on. -/
theorem Step.stopped {label : Option (Event ι κ ω α)} (step : Step valid ops s label t)
    (stopped : s.tasks p = .running .stop) : t.tasks p = .running .stop := by
  have other : ∀ {q task}, s.tasks q = task → task ≠ .running .stop → p ≠ q := by
    rintro q task here differs rfl
    exact differs (here.symm.trans stopped)
  cases step with
  | calls own idle => exact (Function.update_of_ne (other idle (by simp)) ..).trans stopped
  | returns done => exact (Function.update_of_ne (other done (by simp)) ..).trans stopped
  | acts here | takes here | waits here | resumes here | gives here =>
      exact (Function.update_of_ne (other here (by simp)) ..).trans stopped

/-! ## A process that waits for another -/

/-- What code does it does in a run in which no other process moves. -/
theorem Does.trace {view view' : ω × μ} {code : Code τ (ω × μ) α} {along : ω × μ → Prop}
    {next : α → Code τ (ω × μ) α} (valid : κ → Prop) (ops : κ → Code τ (ω × μ) α)
    (does : Does lock along held view code held' a view') (here : s.tasks p = .running (code.bind next))
    (seen : s.view p = view) (inner : lock ∉ held)
    (sems : ∀ sem, sem ≠ lock → s.sems sem = if sem ∈ held then ⟨0, [], []⟩ else Sem.init 1) :
    ∃ labels t, Trace (Step valid ops) s labels t ∧ history labels = [] ∧ t.tasks p = .running (next a) ∧
      t.view p = view' ∧ t.sems lock = s.sems lock ∧
      (∀ sem, sem ≠ lock → t.sems sem = if sem ∈ held' then ⟨0, [], []⟩ else Sem.init 1) ∧
      ∀ q, q ≠ p → t.tasks q = s.tasks q ∧ t.own q = s.own q := by
  induction does generalizing s with
  | pure => exact ⟨[], s, .nil s, rfl, here, seen, rfl, sems, fun q _ => ⟨rfl, rfl⟩⟩
  | @down held _ view _ _ sem code' ne free _ ih =>
      have one := sems sem ne
      rw [if_neg free] at one
      set t := (s.setSem sem ((s.sems sem).down p).1).become p (.running (code'.bind next)) with moved
      have taken : Step valid ops s none t := .takes here (by rw [one]; rfl)
      obtain ⟨labels, u, run, quiet, rest⟩ := @ih t (by simp [moved, Sys.become]) seen
        (by simpa [ne.symm] using inner) (fun other ne' => by
          by_cases same : other = sem
          · rw [same]
            simp [moved, Sys.become, Sys.setSem, one, Sem.init, Sem.down]
          · simpa [moved, Sys.become, Sys.setSem, Function.update_of_ne same, same] using sems other ne')
      refine ⟨none :: labels, u, .cons taken run, quiet, ?_⟩
      simpa +contextual [moved, Sys.become, Sys.setSem, Function.update_of_ne ne.symm, Function.update_of_ne] using rest
  | @up left _ view _ _ sem code' fresh _ ih =>
      have ne : sem ≠ lock := fun same => inner (same ▸ List.mem_cons_self)
      have one := sems sem ne
      rw [if_pos List.mem_cons_self] at one
      set t := (s.setSem sem (s.sems sem).up).become p (.running (code'.bind next)) with moved
      have taken : Step valid ops s none t := .gives here
      obtain ⟨labels, u, run, quiet, rest⟩ := @ih t (by simp [moved, Sys.become]) seen
        (fun inside => inner (List.mem_cons_of_mem _ inside)) (fun other ne' => by
          by_cases same : other = sem
          · rw [same, if_neg fresh]
            simp [moved, Sys.become, Sys.setSem, one, Sem.init, Sem.up]
          · simpa [moved, Sys.become, Sys.setSem, Function.update_of_ne same, same] using sems other ne')
      refine ⟨none :: labels, u, .cons taken run, quiet, ?_⟩
      simpa +contextual [moved, Sys.become, Sys.setSem, Function.update_of_ne ne.symm, Function.update_of_ne] using rest
  | @act held _ view _ _ change code' kept _ ih =>
      set t := (s.setView p (change (s.view p))).become p (.running ((code' (s.view p)).bind next)) with moved
      have taken : Step valid ops s none t := .acts here
      obtain ⟨labels, u, run, quiet, rest⟩ := @ih t (by simp [moved, Sys.become, seen])
        (by simp [moved, Sys.become, Sys.view, Sys.setView, Sys.setOwn, ← seen]) inner sems
      refine ⟨none :: labels, u, .cons taken run, quiet, ?_⟩
      simpa +contextual [moved, Sys.become, Sys.setView, Sys.setOwn, Function.update_of_ne] using rest

/-- One process calls and gets the lock, another calls and waits for it, and both calls return. -/
theorem Implements.overlap (impl : Implements lock rep along valid effect ops) (initial : Initial s) {value : γ}
    (stands : rep s.shared value) {q : ι} (other : q ≠ p) {x y : κ} (validX : valid x) (validY : valid y)
    (ownX ownY : ω) :
    ∃ labels t a b ownX' ownY' value' value'', Trace (Step valid ops) s labels t ∧
      history labels = [.calls p x ownX, .calls q y ownY, .returns p a ownX', .returns q b ownY'] ∧
      effect x ownX value = (a, ownX', value') ∧ effect y ownY value' = (b, ownY', value'') ∧ rep t.shared value'' := by
  obtain ⟨bodyX, codeX, doesX⟩ := impl.body validX
  obtain ⟨bodyY, codeY, doesY⟩ := impl.body validY
  obtain ⟨a, ownX', shared', value', nowX, stands', doesX⟩ := doesX ownX s.shared value stands
  obtain ⟨b, ownY', shared'', value'', nowY, stands'', doesY⟩ := doesY ownY shared' value' stands'
  set s₁ := (s.setOwn p ownX).become p (.running (ops x)) with at₁
  have calls₁ : Step valid ops s (some (.calls p x ownX)) s₁ := .calls ownX (initial.idle p) validX
  set s₂ := (s₁.setOwn q ownY).become q (.running (ops y)) with at₂
  have calls₂ : Step valid ops s₁ (some (.calls q y ownY)) s₂ :=
    .calls ownY (by simp [at₁, Sys.become, Sys.setOwn, Function.update_of_ne other, initial.idle]) validY
  have free : s₂.sems lock = Sem.init 1 := initial.sems lock
  set s₃ := (s₂.setSem lock ((s₂.sems lock).down p).1).become p (.running (leaving lock bodyX)) with at₃
  have takes₃ : Step valid ops s₂ none s₃ :=
    .takes (by simp [at₂, at₁, Sys.become, Sys.setOwn, Function.update_of_ne other.symm, codeX]; rfl)
      (by rw [free]; rfl)
  have mine₃ : s₃.tasks q = .running (.down lock (leaving lock bodyY)) := by
    simp [at₃, at₂, Sys.become, Sys.setSem, Function.update_of_ne other, codeY]
    rfl
  have lock₃ : s₃.sems lock = ⟨0, [], []⟩ := by
    simp [at₃, Sys.become, Sys.setSem, free, Sem.init, Sem.down]
  set s₄ := (s₃.setSem lock ((s₃.sems lock).down q).1).become q (.waiting lock (leaving lock bodyY)) with at₄
  have waits₄ : Step valid ops s₃ none s₄ := .waits mine₃ (by rw [lock₃]; rfl)
  have here₄ : s₄.tasks p = .running (leaving lock bodyX) := by
    simp [at₄, at₃, Sys.become, Sys.setSem, Function.update_of_ne other.symm]
  have view₄ : s₄.view p = (ownX, s.shared) := by
    simp [at₄, at₃, at₂, at₁, Sys.view, Sys.become, Sys.setSem, Sys.setOwn, Function.update_of_ne other.symm]
  have sems₄ : ∀ sem, sem ≠ lock → s₄.sems sem = Sem.init 1 := fun sem ne => by
    simp [at₄, at₃, at₂, at₁, Sys.become, Sys.setSem, Sys.setOwn, Function.update_of_ne ne, initial.sems]
  have task₄ : s₄.tasks q = .waiting lock (leaving lock bodyY) := by
    simp [at₄, Sys.become]
  have own₄ : s₄.own q = ownY := by
    simp [at₄, at₃, at₂, Sys.become, Sys.setSem, Sys.setOwn]
  have lock₄ : s₄.sems lock = ⟨0, [q], []⟩ := by
    simp [at₄, Sys.become, Sys.setSem, lock₃, Sem.down]
  obtain ⟨labels₅, s₅, run₅, quiet₅, here₅, view₅, lock₅, sems₅, others₅⟩ :=
    doesX.trace valid ops here₄ view₄ List.not_mem_nil (by simpa using sems₄)
  obtain ⟨task₅, own₅⟩ := others₅ q other
  set s₆ := (s₅.setSem lock (s₅.sems lock).up).become p (.running (.pure a)) with at₆
  have gives₆ : Step valid ops s₅ none s₆ := .gives here₅
  set s₇ := s₆.become p .idle with at₇
  have returns₇ : Step valid ops s₆ (some (.returns p a (s₆.own p))) s₇ := .returns (by simp [at₆, Sys.become])
  have lock₇ : s₇.sems lock = ⟨0, [], [q]⟩ := by
    simp [at₇, at₆, Sys.become, Sys.setSem, lock₅, lock₄, Sem.up]
  have task₇ : s₇.tasks q = .waiting lock (leaving lock bodyY) := by
    simp [at₇, at₆, Sys.become, Sys.setSem, Function.update_of_ne other, task₅, task₄]
  set s₈ := (s₇.setSem lock ((s₇.sems lock).resume q)).become q (.running (leaving lock bodyY)) with at₈
  have resumes₈ : Step valid ops s₇ none s₈ := .resumes task₇ (by simp [lock₇])
  have here₈ : s₈.tasks q = .running (leaving lock bodyY) := by
    simp [at₈, Sys.become]
  have view₈ : s₈.view q = (ownY, shared') := by
    have own₈ : s₈.own q = ownY := own₅.trans own₄
    have shared₈ : s₈.shared = shared' := congrArg Prod.snd view₅
    rw [Sys.view, own₈, shared₈]
  have sems₈ : ∀ sem, sem ≠ lock → s₈.sems sem = Sem.init 1 := fun sem ne => by
    simpa [at₈, at₇, at₆, Sys.become, Sys.setSem, Function.update_of_ne ne] using sems₅ sem ne
  obtain ⟨labels₉, s₉, run₉, quiet₉, here₉, view₉, -, -, -⟩ :=
    doesY.trace valid ops here₈ view₈ List.not_mem_nil (by simpa using sems₈)
  set s₁₀ := (s₉.setSem lock (s₉.sems lock).up).become q (.running (.pure b)) with at₁₀
  have gives₁₀ : Step valid ops s₉ none s₁₀ := .gives here₉
  have returns₁₁ : Step valid ops s₁₀ (some (.returns q b (s₁₀.own q))) (s₁₀.become q .idle) :=
    .returns (by simp [at₁₀, Sys.become])
  have own₁₀ : s₁₀.own q = ownY' := congrArg Prod.fst view₉
  have own₆ : s₆.own p = ownX' := congrArg Prod.fst view₅
  rw [own₁₀] at returns₁₁
  rw [own₆] at returns₇
  refine ⟨_, _, a, b, ownX', ownY', value', value'', .cons calls₁ (.cons calls₂ (.cons takes₃ (.cons waits₄
    (run₅.append (.cons gives₆ (.cons returns₇ (.cons resumes₈ (run₉.append (.cons gives₁₀
    (.cons returns₁₁ (.nil _))))))))))), ?_, nowX, nowY, ?_⟩
  · simp only [history] at quiet₅ quiet₉ ⊢
    simp [List.reduceOption_append, quiet₅, quiet₉]
  · rw [show (s₁₀.become q .idle).shared = shared'' from congrArg Prod.snd view₉]
    exact stands''

end Ucore.Lib.Monitor
