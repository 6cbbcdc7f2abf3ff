import Ucore.Libs.List
import Ucore.Lib.Run

/-! # The LRU swap manager

`swap_lru.c` of lab 3. A page is given by the address of its `pra_page_link`, and the
list head is the one `mm->sm_priv` points to. A page that is not on the list still has
links, which `list_del` stores through, wherever they lead.
-/

namespace Ucore.Mm.SwapLru

open Lib.Ring Lib.Run Libs.List

variable {α : Type} [DecidableEq α]

inductive Fault where
  | assertion
  /-- A store where there is no list entry: it traps at a null pointer, and elsewhere it hits
      memory that belongs to something else. -/
  | store
  deriving DecidableEq, Repr

abbrev Kernel := Except Fault

def ensure (c : Prop) [Decidable c] (fault : Fault) : Kernel Unit := if c then .ok () else .error fault

def lruInitMm (l : Links α) (head : α) : Links α := listInit l head

section Calls

variable (isEntry : α → Bool)

/-- `list_del`, which stores through both links of the entry. -/
def del (l : Links α) (entry : α) : Kernel (Links α) := do
  ensure (isEntry (l.prev entry) = true ∧ isEntry (l.next entry) = true) .store
  pure (listDel l entry)

/-- `list_add_before`, which stores through `prev` of the list head. -/
def addBefore (l : Links α) (head entry : α) : Kernel (Links α) := do
  ensure (isEntry (l.prev head) = true) .store
  pure (listAddBefore l head entry)

def lruMapSwappable (l : Links α) (head entry : α) : Kernel (Links α) := do
  let l ← del isEntry l entry
  addBefore isEntry l head entry

def lruSwapOutVictim (l : Links α) (head : α) (inTick : Int) : Kernel (Links α × Option α) := do
  ensure (inTick = 0) .assertion
  let entry := l.next head
  if entry ≠ head then do
    let l ← del isEntry l entry
    pure (l, some entry)
  else pure (l, none)

end Calls

/-! ## The queue the manager stands for -/

inductive Call (α : Type) where
  | mapSwappable (page : α)
  | swapOutVictim
  deriving DecidableEq, Repr

/-- The links in memory, and the pages made swappable and not evicted, in the order of
    their last `_lru_map_swappable`. -/
structure State (α : Type) where
  links : Links α
  order : List α

/-- The pages after a call. -/
def Call.order : Call α → List α → List α
  | .mapSwappable page, pages => pages.erase page ++ [page]
  | .swapOutVictim, pages => pages.tail

/-- The links after a call, and the page it returns. -/
def Call.exec (isEntry : α → Bool) (head : α) (links : Links α) : Call α → Kernel (Links α × Option α)
  | .mapSwappable page => do
      let links ← lruMapSwappable isEntry links head page
      pure (links, none)
  | .swapOutVictim => lruSwapOutVictim isEntry links head 0

/-- The links of the page lead to list entries and would not be missed: each neighbour they
    name is the page itself, or has the other one for its neighbour already, or is about to be
    written. -/
def Harmless (isEntry : α → Bool) (l : Links α) (head page : α) : Prop :=
  (isEntry (l.prev page) = true ∧ isEntry (l.next page) = true) ∧
    (l.prev page = page ∨ l.next (l.prev page) = l.next page ∨ l.prev page = l.prev head) ∧
      (l.next page = page ∨ l.prev (l.next page) = l.prev page)

instance (isEntry : α → Bool) (l : Links α) (head page : α) : Decidable (Harmless isEntry l head page) :=
  instDecidableAnd

/-- The page is on the list, or its links are harmless. -/
def Sound (isEntry : α → Bool) (head : α) (s : State α) : Call α → Prop
  | .mapSwappable page => page ∈ s.order ∨ Harmless isEntry s.links head page
  | .swapOutVictim => True

/-- Every call but one on the list head itself. -/
def Legal (isEntry : α → Bool) (head : α) : Call α → Prop
  | .mapSwappable page => page ≠ head ∧ isEntry page = true
  | .swapOutVictim => True

def Moves (isEntry : α → Bool) (head : α) (s : State α) (c : Call α) (t : State α) : Prop :=
  Legal isEntry head c ∧ (∃ victim, c.exec isEntry head s.links = .ok (t.links, victim)) ∧ t.order = c.order s.order

def Step (isEntry : α → Bool) (head : α) (s t : State α) : Prop :=
  ∃ c, Sound isEntry head s c ∧ Moves isEntry head s c t

/-- The state that `_lru_init_mm` leaves, whatever the links in memory are. -/
def Initial (isEntry : α → Bool) (head : α) (s : State α) : Prop :=
  (∃ l, s.links = lruInitMm l head) ∧ s.order = [] ∧ isEntry head = true

/-- Only the list head and pages on the list before or after have been written. -/
def Within (head : α) (s t : State α) : Prop :=
  ∀ x, x ∉ head :: s.order → x ∉ t.order → t.links.next x = s.links.next x ∧ t.links.prev x = s.links.prev x

/-- The list is the queue, and the call has written nothing else. -/
structure Refines (head : α) (s t : State α) : Prop where
  ring : IsRing t.links head t.order
  within : Within head s t

variable {isEntry : α → Bool} {l : Links α} {head e : α} {xs : List α} {s t : State α}

/-! ## One call -/

/-- The links after `_lru_map_swappable`, where nothing goes wrong. -/
def requeued (l : Links α) (head e : α) : Links α := listAddBefore (listDel l e) head e

theorem ensure_ok {c : Prop} [Decidable c] {fault : Fault} {f : Unit → Kernel β} {r : β} :
    (ensure c fault >>= f) = .ok r ↔ c ∧ f () = .ok r := by
  by_cases holds : c <;> simp [ensure, holds, bind, Except.bind]

theorem del_ok {l' : Links α} : del isEntry l e = .ok l' ↔
    (isEntry (l.prev e) = true ∧ isEntry (l.next e) = true) ∧ listDel l e = l' := by
  rw [del, ensure_ok]
  exact and_congr_right fun _ => iff_of_eq (Except.ok.injEq _ _)

theorem mapSwappable_ok {l' : Links α} : lruMapSwappable isEntry l head e = .ok l' ↔
    (isEntry (l.prev e) = true ∧ isEntry (l.next e) = true) ∧ isEntry ((listDel l e).prev head) = true ∧
      requeued l head e = l' := by
  rw [lruMapSwappable, del]
  by_cases found : isEntry (l.prev e) = true ∧ isEntry (l.next e) = true
  · by_cases last : isEntry ((listDel l e).prev head) = true
    · simp [ensure, addBefore, found, last, requeued, bind, Except.bind, pure, Except.pure]
    · simp [ensure, addBefore, found, last, bind, Except.bind, pure, Except.pure]
  · simp [ensure, found, bind, Except.bind]

theorem mapSwappable_wild (wild : ¬(isEntry (l.prev e) = true ∧ isEntry (l.next e) = true)) :
    lruMapSwappable isEntry l head e = .error .store := by
  rw [lruMapSwappable, del, ensure, if_neg wild]
  rfl

theorem harmless_last (harmless : Harmless isEntry l head e) (other : e ≠ head) :
    (listDel l e).prev head = l.prev head := by
  obtain ⟨-, -, after⟩ := harmless
  rw [listDel, Links.unlink_prev]
  split
  · rename_i same
    rw [← same] at after
    exact (after.resolve_left (Ne.symm other)).symm
  · rfl

/-- With harmless links, `list_del` is not noticed. -/
theorem requeued_harmless (harmless : Harmless isEntry l head e) (other : e ≠ head) :
    requeued l head e = l.link e (l.prev head) head := by
  have last := harmless_last harmless other
  obtain ⟨-, before, after⟩ := harmless
  have next : ∀ x, (requeued l head e).next x = (l.link e (l.prev head) head).next x := by
    intro x
    rw [requeued, listAddBefore, last, Links.link_next, Links.link_next, listDel, Links.unlink_next]
    split
    · rfl
    · split
      · rfl
      · split
        · rename_i away notLast same
          rw [same] at away notLast ⊢
          exact ((before.resolve_left away).resolve_right notLast).symm
        · rfl
  have prev : ∀ x, (requeued l head e).prev x = (l.link e (l.prev head) head).prev x := by
    intro x
    rw [requeued, listAddBefore, last, Links.link_prev, Links.link_prev, listDel, Links.unlink_prev]
    split
    · rfl
    · split
      · rfl
      · split
        · rename_i away _ same
          rw [same] at away ⊢
          exact (after.resolve_left away).symm
        · rfl
  exact congrArg₂ Links.mk (funext next) (funext prev)

/-- A page off the list comes to its end. -/
theorem requeued_off (ring : IsRing l head xs) (harmless : Harmless isEntry l head e) (fresh : e ∉ head :: xs) :
    IsRing (requeued l head e) head (xs ++ [e]) := by
  rw [requeued_harmless harmless fun same => fresh (same ▸ List.mem_cons_self)]
  exact ring.insert_last fresh

/-- A page on the list goes from its place to the end. -/
theorem requeued_on (ring : IsRing l head xs) (member : e ∈ xs) :
    IsRing (requeued l head e) head (xs.erase e ++ [e]) := by
  refine (listDel_erase ring member).insert_last ?_
  rintro (_ | ⟨_, inside⟩)
  · exact ring.head_not_mem member
  · exact ring.nodes_nodup.not_mem_erase inside

/-- What the call writes is its page, the list head, and the neighbours it finds. -/
theorem requeued_frame {x : α} (ring : IsRing l head xs) (sound : e ∈ xs ∨ Harmless isEntry l head e) (other : e ≠ head)
    (off : x ∉ head :: xs) (away : x ≠ e) :
    (requeued l head e).next x = l.next x ∧ (requeued l head e).prev x = l.prev x := by
  have notHead : x ≠ head := fun same => off (same ▸ List.mem_cons_self)
  have notLast : x ≠ l.prev head := fun same => off (same ▸ ring.prev_mem List.mem_cons_self)
  rcases sound with member | harmless
  · have inside := List.mem_cons_of_mem head member
    have notPrev : x ≠ l.prev e := fun same => off (same ▸ ring.prev_mem inside)
    have notNext : x ≠ l.next e := fun same => off (same ▸ (ring.prev_next inside).1)
    have last : x ≠ (listDel l e).prev head := by
      rw [listDel, Links.unlink_prev]
      split
      · exact notPrev
      · exact notLast
    rw [requeued, listAddBefore, Links.link_next, Links.link_prev, if_neg away, if_neg last, if_neg away,
      if_neg notHead, listDel, Links.unlink_next, Links.unlink_prev, if_neg notPrev, if_neg notNext]
    exact ⟨rfl, rfl⟩
  · rw [requeued_harmless harmless other, Links.link_next, Links.link_prev, if_neg away, if_neg notLast,
      if_neg away, if_neg notHead]
    exact ⟨rfl, rfl⟩

/-- Links that would be missed are noticed: in the list, or in memory outside it. -/
theorem harmless_of_refined (ring : IsRing l head xs) (entries : isEntry (l.prev e) = true ∧ isEntry (l.next e) = true)
    (fresh : e ∉ head :: xs)
    (ring' : IsRing (requeued l head e) head (xs ++ [e]))
    (frame : ∀ x, x ∉ head :: xs → x ≠ e → (requeued l head e).next x = l.next x ∧
      (requeued l head e).prev x = l.prev x) : Harmless isEntry l head e := by
  have other : e ≠ head := fun same => fresh (same ▸ List.mem_cons_self)
  have last : (listDel l e).prev head = l.prev head := by
    have found : (requeued l head e).prev e = (listDel l e).prev head := by
      rw [requeued, listAddBefore, Links.link_prev, if_pos rfl]
    rw [← found, ring'.prev_last, ring.prev_head]
  refine ⟨entries, ?_, ?_⟩
  · by_contra seen
    simp only [not_or] at seen
    obtain ⟨notSelf, differs, notLast⟩ := seen
    have written : (requeued l head e).next (l.prev e) = l.next e := by
      rw [requeued, listAddBefore, last, Links.link_next, if_neg notSelf, if_neg notLast, listDel,
        Links.unlink_next, if_pos rfl]
    by_cases inside : l.prev e ∈ head :: xs
    · exact differs ((ring.next_append ring' inside notLast).symm.trans written)
    · exact differs ((frame _ inside notSelf).1.symm.trans written)
  · by_contra seen
    simp only [not_or] at seen
    obtain ⟨notSelf, differs⟩ := seen
    by_cases isHead : l.next e = head
    · rw [listDel, Links.unlink_prev, isHead, if_pos rfl] at last
      exact differs (by rw [isHead, last])
    · have written : (requeued l head e).prev (l.next e) = l.prev e := by
        rw [requeued, listAddBefore, Links.link_prev, if_neg notSelf, if_neg isHead, listDel,
          Links.unlink_prev, if_pos rfl]
      by_cases inside : l.next e ∈ xs
      · exact differs ((ring.prev_append ring' inside).symm.trans written)
      · refine differs ((frame _ ?_ notSelf).2.symm.trans written)
        simpa [isHead] using inside

/-! ## Runs -/

/-- The list is the queue, of list entries. -/
structure Queue (isEntry : α → Bool) (head : α) (s : State α) : Prop where
  ring : IsRing s.links head s.order
  entries : ∀ x ∈ head :: s.order, isEntry x = true

omit [DecidableEq α] in
theorem del_mem (ring : IsRing l head xs) (entries : ∀ x ∈ head :: xs, isEntry x = true) (member : e ∈ head :: xs) :
    isEntry (l.prev e) = true ∧ isEntry (l.next e) = true :=
  ⟨entries _ (ring.prev_mem member), entries _ (ring.prev_next member).1⟩

theorem victim_spec (ring : IsRing l head xs) (entries : ∀ x ∈ head :: xs, isEntry x = true) :
    ∃ l', lruSwapOutVictim isEntry l head 0 = .ok (l', xs.head?) ∧ IsRing l' head xs.tail ∧
      ∀ x, x ∉ head :: xs → l'.next x = l.next x ∧ l'.prev x = l.prev x := by
  cases xs with
  | nil =>
      refine ⟨l, ensure_ok.mpr ⟨rfl, ?_⟩, ring, fun _ _ => ⟨rfl, rfl⟩⟩
      rw [ring.next_head_nil, if_neg (by simp)]
      rfl
  | cons n xs =>
      have away : n ≠ head := fun same => ring.head_not_mem (same ▸ List.mem_cons_self)
      have inside : n ∈ head :: n :: xs := List.mem_cons_of_mem head List.mem_cons_self
      have front : IsRing l head ([] ++ n :: xs) := ring
      have taken : del isEntry l n = .ok (listDel l n) := del_ok.mpr ⟨del_mem ring entries inside, rfl⟩
      refine ⟨listDel l n, ensure_ok.mpr ⟨rfl, ?_⟩, listDel_ring front, fun x off => ?_⟩
      · dsimp only
        rw [ring.next_head_cons, if_pos away, taken]
        rfl
      · have notPrev : x ≠ l.prev n := fun same => off (same ▸ ring.prev_mem inside)
        have notNext : x ≠ l.next n := fun same => off (same ▸ (ring.prev_next inside).1)
        rw [listDel, Links.unlink_next, Links.unlink_prev, if_neg notPrev, if_neg notNext]
        exact ⟨rfl, rfl⟩

/-- A page on the list, or one with harmless links, can be made swappable. -/
theorem mapSwappable_sound (queue : Queue isEntry head s) (legal : Legal isEntry head (.mapSwappable e))
    (sound : Sound isEntry head s (.mapSwappable e)) :
    lruMapSwappable isEntry s.links head e = .ok (requeued s.links head e) := by
  have last := queue.entries _ (queue.ring.prev_mem List.mem_cons_self)
  rcases sound with member | harmless
  · have inside := List.mem_cons_of_mem head member
    have found := del_mem queue.ring queue.entries inside
    refine mapSwappable_ok.mpr ⟨found, ?_, rfl⟩
    rw [listDel, Links.unlink_prev]
    split
    · exact found.1
    · exact last
  · refine mapSwappable_ok.mpr ⟨harmless.1, ?_, rfl⟩
    rwa [harmless_last harmless legal.1]

theorem soundMove_refines {c : Call α} (queue : Queue isEntry head s) (sound : Sound isEntry head s c)
    (moves : Moves isEntry head s c t) : Refines head s t ∧ Queue isEntry head t := by
  obtain ⟨legal, ⟨victim, run⟩, order⟩ := moves
  have ring := queue.ring
  cases c with
  | mapSwappable page =>
      have moved := mapSwappable_sound queue legal sound
      have links : requeued s.links head page = t.links := by
        simp only [Call.exec, moved, bind, Except.bind, pure, Except.pure, Except.ok.injEq, Prod.mk.injEq] at run
        exact run.1
      have after : t.order = s.order.erase page ++ [page] := order
      have away : page ≠ head := legal.1
      have ring' : IsRing t.links head t.order := by
        rw [after, ← links]
        by_cases member : page ∈ s.order
        · exact requeued_on ring member
        · rw [List.erase_of_not_mem member]
          exact requeued_off ring (sound.resolve_left member) (by simpa [member] using away)
      refine ⟨⟨ring', fun x off off' => ?_⟩, ring', fun x inside => ?_⟩
      · rw [← links]
        refine requeued_frame ring sound legal.1 off fun same => off' ?_
        rw [after, same]
        simp
      · rw [after] at inside
        rcases List.mem_cons.mp inside with rfl | inside
        · exact queue.entries _ List.mem_cons_self
        · rcases List.mem_append.mp inside with old | new
          · exact queue.entries _ (List.mem_cons_of_mem head (List.mem_of_mem_erase old))
          · exact List.mem_singleton.mp new ▸ legal.2
  | swapOutVictim =>
      obtain ⟨l', found, ring', frame⟩ := victim_spec ring queue.entries
      have same : l' = t.links := congrArg Prod.fst (Except.ok.inj (found.symm.trans run))
      subst same
      have after : t.order = s.order.tail := order
      rw [← after] at ring'
      refine ⟨⟨ring', fun x off _ => frame x off⟩, ring', fun x inside => ?_⟩
      rw [after] at inside
      rcases List.mem_cons.mp inside with rfl | inside
      · exact queue.entries _ List.mem_cons_self
      · exact queue.entries _ (List.mem_cons_of_mem head (List.mem_of_mem_tail inside))

theorem run_queue (run : Reachable (Initial isEntry head) (Step isEntry head) s) : Queue isEntry head s := by
  refine run.invariant (Queue isEntry head) (fun s initial => ?_) fun s t queue taken => ?_
  · obtain ⟨⟨l, links⟩, order, entry⟩ := initial
    refine ⟨?_, fun x inside => ?_⟩
    · rw [links, order]
      exact listInit_ring l head
    · rw [order] at inside
      exact List.mem_singleton.mp inside ▸ entry
  · obtain ⟨c, sound, moves⟩ := taken
    exact (soundMove_refines queue sound moves).2

/-- As long as every call is sound, the list is the queue of the pages made swappable, its
    first page is the next victim, and a call comes to its end and keeps it so, writing nothing
    else, exactly if it is sound. -/
theorem soundRun_lru (run : Reachable (Initial isEntry head) (Step isEntry head) s) :
    IsRing s.links head s.order ∧ (∃ l, lruSwapOutVictim isEntry s.links head 0 = .ok (l, s.order.head?)) ∧
      ∀ c, Legal isEntry head c →
        ((∃ t, Moves isEntry head s c t ∧ Refines head s t) ↔ Sound isEntry head s c) := by
  have queue := run_queue run
  have ring := queue.ring
  obtain ⟨l', found, -, -⟩ := victim_spec ring queue.entries
  refine ⟨ring, ⟨l', found⟩, fun c legal => ⟨?_, fun sound => ?_⟩⟩
  · rintro ⟨t, ⟨-, ⟨victim, run⟩, order⟩, refines⟩
    cases c with
    | swapOutVictim => exact trivial
    | mapSwappable page =>
        by_cases member : page ∈ s.order
        · exact Or.inl member
        obtain ⟨links, moved, same⟩ : ∃ links, lruMapSwappable isEntry s.links head page = .ok links ∧
          links = t.links := by
          cases moved : lruMapSwappable isEntry s.links head page with
          | error fault => simp [Call.exec, moved, bind, Except.bind] at run
          | ok links =>
              simp only [Call.exec, moved, bind, Except.bind, pure, Except.pure, Except.ok.injEq, Prod.mk.injEq] at run
              exact ⟨links, rfl, run.1⟩
        obtain ⟨entries, -, links'⟩ := mapSwappable_ok.mp moved
        have after : t.order = s.order ++ [page] := by
          rw [← List.erase_of_not_mem member]
          exact order
        have away : page ≠ head := legal.1
        refine Or.inr (harmless_of_refined ring entries (by simpa [member] using away) ?_ fun x off other => ?_)
        · rw [links', same, ← after]
          exact refines.ring
        · rw [links', same]
          refine refines.within x off ?_
          rw [after]
          simp only [List.mem_cons, not_or] at off
          simp [off.2, other]
  · cases c with
    | swapOutVictim =>
        have moves : Moves isEntry head s .swapOutVictim ⟨l', s.order.tail⟩ := ⟨trivial, ⟨_, found⟩, rfl⟩
        exact ⟨_, moves, (soundMove_refines queue sound moves).1⟩
    | mapSwappable page =>
        have moves : Moves isEntry head s (.mapSwappable page)
            ⟨requeued s.links head page, (Call.mapSwappable page).order s.order⟩ := by
          refine ⟨legal, ⟨none, ?_⟩, rfl⟩
          rw [Call.exec, mapSwappable_sound queue legal sound]
          rfl
        exact ⟨_, moves, (soundMove_refines queue sound moves).1⟩

/-! ## Pages 1 to 4, with the list head at 10

Address 0 is that of no list entry.
-/

def entry (a : Nat) : Bool := a ≠ 0

/-- No page on the list. The link fields of the first three pages point at the page itself, and
    those of page 4 are zero, as in the pages that the kernel clears. -/
def unmapped : State Nat := ⟨lruInitMm ⟨fun a => if a = 4 then 0 else a, fun a => if a = 4 then 0 else a⟩ 10, []⟩

def mapped (s : State Nat) (page : Nat) : State Nat :=
  ⟨requeued s.links 10 page, (Call.mapSwappable page).order s.order⟩

def evicted (s : State Nat) : State Nat := ⟨listDel s.links (s.links.next 10), s.order.tail⟩

theorem moves_mapped {s : State Nat} {page : Nat} (legal : Legal entry 10 (.mapSwappable page))
    (found : (entry (s.links.prev page) = true ∧ entry (s.links.next page) = true) ∧
      entry ((listDel s.links page).prev 10) = true) : Moves entry 10 s (.mapSwappable page) (mapped s page) := by
  refine ⟨legal, ⟨none, ?_⟩, rfl⟩
  rw [Call.exec, mapSwappable_ok.mpr ⟨found.1, found.2, rfl⟩]
  rfl

theorem moves_evicted {s : State Nat} (first : s.links.next 10 ≠ 10)
    (found : entry (s.links.prev (s.links.next 10)) = true ∧ entry (s.links.next (s.links.next 10)) = true) :
    Moves entry 10 s .swapOutVictim (evicted s) := by
  refine ⟨trivial, ⟨some (s.links.next 10), ensure_ok.mpr ⟨rfl, ?_⟩⟩, rfl⟩
  dsimp only
  rw [if_pos first, del_ok.mpr ⟨found, rfl⟩]
  rfl

/-- Three pages are mapped, and the first two of them evicted. -/
def twoEvicted : State Nat := evicted (evicted (mapped (mapped (mapped unmapped 1) 2) 3))

theorem step_mapped {s : State Nat} (page : Nat) (legal : Legal entry 10 (.mapSwappable page))
    (sound : page ∈ s.order ∨ Harmless entry s.links 10 page)
    (found : (entry (s.links.prev page) = true ∧ entry (s.links.next page) = true) ∧
      entry ((listDel s.links page).prev 10) = true) : Step entry 10 s (mapped s page) :=
  ⟨.mapSwappable page, sound, moves_mapped legal found⟩

theorem step_evicted {s : State Nat} (first : s.links.next 10 ≠ 10)
    (found : entry (s.links.prev (s.links.next 10)) = true ∧ entry (s.links.next (s.links.next 10)) = true) :
    Step entry 10 s (evicted s) :=
  ⟨.swapOutVictim, trivial, moves_evicted first found⟩

theorem reachable_twoEvicted : Reachable (Initial entry 10) (Step entry 10) twoEvicted := by
  have start : Reachable (Initial entry 10) (Step entry 10) unmapped := .start ⟨⟨_, rfl⟩, rfl, rfl⟩
  have three := ((start.next (step_mapped 1 ⟨by decide, rfl⟩ (by decide) (by decide))).next
    (step_mapped 2 ⟨by decide, rfl⟩ (by decide) (by decide))).next
      (step_mapped 3 ⟨by decide, rfl⟩ (by decide) (by decide))
  exact (three.next (step_evicted (by decide) (by decide))).next (step_evicted (by decide) (by decide))

theorem soundRun_lru_twoEvicted : IsRing twoEvicted.links 10 [3] ∧
    (∃ l, lruSwapOutVictim entry twoEvicted.links 10 0 = .ok (l, some 3)) ∧
    ¬∃ t, Moves entry 10 twoEvicted (.mapSwappable 4) t ∧ Refines 10 twoEvicted t := by
  obtain ⟨ring, victim, exact⟩ := soundRun_lru reachable_twoEvicted
  refine ⟨ring, victim, fun refined => ?_⟩
  have sound : 4 ∈ twoEvicted.order ∨ Harmless entry twoEvicted.links 10 4 :=
    (exact (.mapSwappable 4) ⟨by decide, rfl⟩).mp refined
  revert sound
  decide

/-- Mapping the first page again brings the second one back with it: it is the next victim,
    though it has been evicted and not mapped since. Mapping the page with zeroed links stores
    through a null pointer. -/
theorem mapAgain_splices : Reachable (Initial entry 10) (Step entry 10) twoEvicted ∧
    (Moves entry 10 twoEvicted (.mapSwappable 1) (mapped twoEvicted 1) ∧ (mapped twoEvicted 1).order = [3, 1] ∧
      (lruSwapOutVictim entry (mapped twoEvicted 1).links 10 0).toOption.map Prod.snd = some (some 2)) ∧
    Legal entry 10 (.mapSwappable 4) ∧ lruMapSwappable entry twoEvicted.links 10 4 = .error .store :=
  ⟨reachable_twoEvicted, ⟨moves_mapped ⟨by decide, rfl⟩ (by decide), by decide, by decide +kernel⟩,
    ⟨by decide, rfl⟩, mapSwappable_wild (by decide)⟩

end Ucore.Mm.SwapLru
