import Ucore.Mm.SwapFault

/-! # Allocation with no page free

In lab 3 `alloc_pages` asks `swap_out` for a page until it gets one. With the first-in,
first-out manager, the pages that are tried are the ones on its list in order, over and
over, since a page that could not be written goes back as the youngest.
-/

namespace Ucore.Mm.SwapPressure

open Lib.Ring Libs.Assert Libs.List Mmu Swap SwapFault

open Pmm (PmmManager pte2page)

open Vmm (MmStruct maxSwapOffset)

variable {σ : Type} {M : PmmManager σ} {s t : Machine σ (Links Entry)}

/-! ## The list -/

/-- The list holds the pages, the oldest first. -/
def Queue (links : Links Entry) (order : List Nat) : Prop :=
  IsRing links .praListHead (order.reverse.map .praPageLink)

section Queue

variable {links : Links Entry} {mm : MmStruct} {page : Nat} {order rest : List Nat}

theorem Queue.nodup (queue : Queue links order) : order.Nodup :=
  List.nodup_reverse.mp (List.Nodup.of_map _ (IsRing.nodes_nodup queue))

theorem Queue.split (queue : Queue links (page :: rest)) :
    IsRing links .praListHead (rest.reverse.map .praPageLink ++ .praPageLink page :: []) := by
  rwa [Queue, List.reverse_cons, List.map_append] at queue

theorem Queue.evict (queue : Queue links (page :: rest)) : Queue (listDel links (.praPageLink page)) rest := by
  have removed := listDel_ring queue.split
  rwa [List.append_nil] at removed

theorem Queue.renew (queue : Queue links rest) (fresh : page ∉ rest) :
    Queue (listAdd links .praListHead (.praPageLink page)) (rest ++ [page]) := by
  have ring : IsRing links .praListHead (rest.reverse.map .praPageLink) := queue
  have off : Entry.praPageLink page ∉ Entry.praListHead :: rest.reverse.map .praPageLink := by simpa using fresh
  have added := ring.insert_first off
  rwa [Queue, List.reverse_append, List.reverse_singleton, List.singleton_append, List.map_cons]

theorem victim_oldest (queue : Queue links (page :: rest)) (priv : mm.smPriv = true) :
    fifoSwapOutVictim (some mm) links = .ok (some page, listDel links (.praPageLink page)) := by
  rw [fifoSwapOutVictim, assert_bind priv, queue.split.prev_head_concat]
  rfl

theorem victim_empty (queue : Queue links []) (priv : mm.smPriv = true) :
    fifoSwapOutVictim (some mm) links = .ok (none, links) := by
  have ring : IsRing links .praListHead [] := queue
  rw [fifoSwapOutVictim, assert_bind priv, ring.prev_head_nil]
  rfl

theorem mapSwappable_youngest (priv : mm.smPriv = true) :
    fifoMapSwappable (some mm) links page = .ok (listAdd links .praListHead (.praPageLink page)) := by
  rw [fifoMapSwappable, assert_bind priv]
  rfl

end Queue

/-! ## One round -/

/-- The page could not be written and is the youngest now. -/
def refused (s : Machine σ (Links Entry)) (page : Nat) : Machine σ (Links Entry) :=
  { s with pra := listAdd (listDel s.pra (.praPageLink page)) .praListHead (.praPageLink page)
           writes := s.writes + 1
           victims := page :: s.victims }

/-- The page is on the device, its entry says so, and it is free. -/
def evicted (M : PmmManager σ) (pgdir page : Nat) (s : Machine σ (Links Entry)) : Machine σ (Links Entry) :=
  let v := s.praVaddr page
  let s := { s with pra := listDel s.pra (.praPageLink page)
                    swap := Function.update s.swap (v / PGSIZE + 1) (s.mem page)
                    writes := s.writes + 1
                    victims := page :: s.victims }
  freePage M (s.setPte pgdir (vpn v) (swapEntry v)) page

theorem swapEntry_offset (v : Nat) : swapEntry v >>> 8 = v / PGSIZE + 1 := Nat.shiftLeft_shiftRight _ _

theorem swapOutOne_ok_iff {mm : MmStruct} {page : Nat} {rest : List Nat} (queue : Queue s.pra (page :: rest))
    (priv : mm.smPriv = true) : swapOutOne M fifo (some mm) s = .ok t ↔
      (∃ w, entry s mm.pgdir (s.praVaddr page) = some w ∧ isValid w = true) ∧
      s.praVaddr page / PGSIZE + 1 < maxSwapOffset ∧
      t = if s.device s.writes then evicted M mm.pgdir page s else refused s page := by
  have chosen : fifo.swapOutVictim (some mm) s.pra = .ok (some page, listDel s.pra (.praPageLink page)) :=
    victim_oldest queue priv
  rw [swapOutOne, chosen, ok_bind]
  dsimp only
  cases found : (s.space mm.pgdir).lookup (s.praVaddr page) with
  | none =>
      rw [entry, found]
      simp
  | some slot =>
      obtain ⟨rfl, -⟩ := lookup_iff.mp found
      have here : entry s mm.pgdir (s.praVaddr page) = some ((s.space mm.pgdir).pte (vpn (s.praVaddr page))) := by
        rw [entry, found]
        rfl
      rw [assert_bind_ok, here, swapfsWrite, swapEntry_offset]
      simp only [Option.some.injEq, exists_eq_left', Nat.succ_pos, true_and]
      refine and_congr_right fun _ => ?_
      by_cases fits : s.praVaddr page / PGSIZE + 1 < maxSwapOffset
      · rw [if_pos fits]
        cases answer : s.device s.writes with
        | true =>
            simp only [if_true, ok_bind, fits, true_and]
            exact ⟨fun run => (Except.ok.inj run).symm, fun same => congrArg _ same.symm⟩
        | false =>
            have back : fifo.mapSwappable (some mm) (listDel s.pra (.praPageLink page)) page =
                .ok (listAdd (listDel s.pra (.praPageLink page)) .praListHead (.praPageLink page)) :=
              mapSwappable_youngest priv
            simp only [Bool.false_eq_true, if_false, ok_bind, back, fits, true_and]
            exact ⟨fun run => (Except.ok.inj run).symm, fun same => congrArg _ same.symm⟩
      · rw [if_neg fits, error_bind]
        simp [fits]

/-- A round that comes back had a page to try. -/
theorem swapOutOne_tries {mm : Option MmStruct} {order : List Nat}
    (queue : ∀ m, mm = some m → m.smPriv = true → Queue s.pra order) (run : swapOutOne M fifo mm s = .ok t) :
    ∃ m page rest, mm = some m ∧ m.smPriv = true ∧ order = page :: rest := by
  cases mm with
  | none => cases run
  | some m =>
      by_cases priv : m.smPriv = true
      · cases order with
        | nil =>
            have nobody : fifo.swapOutVictim (some m) s.pra = .ok (none, s.pra) :=
              victim_empty (queue m rfl priv) priv
            rw [swapOutOne, nobody] at run
            cases run
        | cons page rest => exact ⟨m, page, rest, rfl, priv, rfl⟩
      · obtain ⟨r, chosen, -⟩ := bind_ok.mp run
        exact absurd (assert_bind_ok.mp (show fifoSwapOutVictim (some m) s.pra = .ok r from chosen)).1 priv

/-! ## The loop -/

/-- The page is the one its entry points to. -/
def Mapped (s : Machine σ (Links Entry)) (mm : MmStruct) (page : Nat) : Prop :=
  ∃ w, entry s mm.pgdir (s.praVaddr page) = some w ∧ isValid w = true ∧ pte2page w = .ok page

/-- The manager of pages refuses only if none is free. -/
def Complete (M : PmmManager σ) : Prop := ∀ s t, M.allocPage s = (none, t) → ∀ p, ¬M.Free s p

/-- After some writes that fail one succeeds, and all pages tried until then are mapped
    and have a place on the device. -/
def Rescue (s : Machine σ (Links Entry)) (mm : MmStruct) (order : List Nat) : Prop :=
  ∃ k, (∀ j < k, s.device (s.writes + j) = false) ∧ s.device (s.writes + k) = true ∧
    ∀ j ≤ k, ∃ v, (order.rotate j).head? = some v ∧ Mapped s mm v ∧ s.praVaddr v / PGSIZE + 1 < maxSwapOffset

/-- What an allocation should leave: `tried` are the pages it took off the list, of which
    it may have evicted one. -/
structure Relieved (M : PmmManager σ) (mm : Option MmStruct) (order : List Nat) (s t : Machine σ (Links Entry))
    (page : Option Nat) (tried : List Nat) (gone : Option Nat) : Prop where
  victims : t.victims = tried ++ s.victims
  mapped : ∀ v ∈ tried, ∃ m, mm = some m ∧ Mapped s m v
  free : ∀ p, page = some p → M.Free s.pmm p ∨ gone = some p
  kept : ∀ m, mm = some m → ∀ v, Mapped s m v → gone ≠ some v → Mapped t m v
  swappable : ∀ m, mm = some m → m.smPriv = true → ∃ left, Queue t.pra left ∧ (gone.toList ++ left).Perm order
  mem : t.mem = s.mem
  saved : ∀ v, gone = some v → v ∈ tried ∧ t.swap (s.praVaddr v / PGSIZE + 1) = s.mem v ∧
    ∀ m, mm = some m → entry t m.pgdir (s.praVaddr v) = some (swapEntry (s.praVaddr v))

theorem allocPage_refuses {pmm : σ} (noFree : ∀ p, ¬M.Free pmm p) :
    ∃ pmm', M.allocPage pmm = (none, pmm') ∧ ∀ p, ¬M.Free pmm' p := by
  cases given : M.allocPage pmm with
  | mk page pmm' =>
      cases page with
      | some p => exact absurd (M.alloc_some given).1 (noFree p)
      | none => exact ⟨pmm', rfl, fun p free => noFree p ((M.alloc_none given p).mp free)⟩

theorem allocPage_round {pmm : σ} (refuses : M.allocPage s.pmm = (none, pmm)) (on : s.swapInitOk = true) (fuel : Nat) :
    allocPage M fifo (fuel + 1) s =
      (swapOutOne M fifo s.checkMmStruct { s with pmm := pmm } >>= allocPage M fifo fuel) := by
  rw [allocPage, refuses]
  dsimp only
  rw [if_pos on, swapOut]
  cases swapOutOne M fifo s.checkMmStruct { s with pmm := pmm } with
  | error stop => rfl
  | ok t => rfl

theorem Mapped.lt {mm : MmStruct} {page : Nat} (mapped : Mapped s mm page) : page < npage := by
  obtain ⟨w, -, valid, points⟩ := mapped
  rw [pte2page, if_pos valid, Pmm.pa2page] at points
  split at points
  · cases points
    assumption
  · cases points

/-- Two pages are not mapped by one entry. -/
theorem Mapped.unique {mm : MmStruct} {p q : Nat} (first : Mapped s mm p) (second : Mapped s mm q)
    (same : vpn (s.praVaddr p) = vpn (s.praVaddr q)) : p = q := by
  obtain ⟨w, here, -, points⟩ := first
  obtain ⟨w', there, -, points'⟩ := second
  rw [entry, Space.lookup, same] at here
  rw [entry, Space.lookup] at there
  obtain rfl := Option.some.inj (here.symm.trans there)
  exact Except.ok.inj (points.symm.trans points')

section Eviction

variable {mm : MmStruct} {page : Nat}

theorem evicted_entry (v : Nat) : entry (evicted M mm.pgdir page s) mm.pgdir v =
    if vpn v = vpn (s.praVaddr page) then (entry s mm.pgdir v).map fun _ => swapEntry (s.praVaddr page)
    else entry s mm.pgdir v := by
  simp only [entry, evicted, freePage, Machine.setPageRef, Machine.setPte, Machine.setSpace, Function.update_self,
    Space.lookup]
  split
  · simp only [Function.update_apply, Option.map_some]
    exact apply_ite some _ _ _
  · split
    · rfl
    · rfl

theorem evicted_mapped {v : Nat} (gone : Mapped s mm page) (mapped : Mapped s mm v) (other : page ≠ v) :
    Mapped (evicted M mm.pgdir page s) mm v := by
  obtain ⟨w, here, valid, points⟩ := mapped
  refine ⟨w, ?_, valid, points⟩
  change entry (evicted M mm.pgdir page s) mm.pgdir (s.praVaddr v) = some w
  rw [evicted_entry, if_neg, here]
  exact fun same => other (gone.unique ⟨w, here, valid, points⟩ same.symm)

/-- The page that was written is the one that is free now. -/
theorem evicted_given (complete : Complete M) (noFree : ∀ p, ¬M.Free s.pmm p) (gone : Mapped s mm page) :
    ∃ pmm, M.allocPage (evicted M mm.pgdir page s).pmm = (some page, pmm) := by
  have free : ∀ q, M.Free (M.freePage s.pmm page) q ↔ M.Free s.pmm q ∨ q = page :=
    M.free_page gone.lt (noFree page)
  cases given : M.allocPage (M.freePage s.pmm page) with
  | mk got pmm =>
      cases got with
      | none => exact absurd ((free page).mpr (.inr rfl)) (complete _ _ given page)
      | some p =>
          obtain rfl := ((free p).mp (M.alloc_some given).1).resolve_left (noFree p)
          exact ⟨pmm, given⟩

end Eviction

/-! ## Whole calls -/

section Calls

variable {mm : MmStruct} {page : Nat} {order rest : List Nat}

/-- With no page free, a call starts with a round that tries the oldest page. -/
theorem allocPage_first (queue : Queue s.pra (page :: rest)) (noFree : ∀ p, ¬M.Free s.pmm p)
    (on : s.swapInitOk = true) (check : s.checkMmStruct = some mm) (priv : mm.smPriv = true)
    (mapped : Mapped s mm page) (fits : s.praVaddr page / PGSIZE + 1 < maxSwapOffset) :
    ∃ pmm, (∀ p, ¬M.Free pmm p) ∧ ∀ fuel, allocPage M fifo (fuel + 1) s = allocPage M fifo fuel
      (if s.device s.writes then evicted M mm.pgdir page { s with pmm := pmm }
        else refused { s with pmm := pmm } page) := by
  obtain ⟨pmm, refuses, noFree'⟩ := allocPage_refuses noFree
  obtain ⟨w, here, valid, -⟩ := mapped
  refine ⟨pmm, noFree', fun fuel => ?_⟩
  have round := (@swapOutOne_ok_iff σ M { s with pmm := pmm } _ mm page rest queue priv).mpr
    ⟨⟨w, here, valid⟩, fits, rfl⟩
  rw [← check] at round
  rw [allocPage_round refuses on, round, ok_bind]

theorem evicted_relieved {pmm pmm' : σ} (queue : Queue s.pra (page :: rest)) (mapped : Mapped s mm page) :
    Relieved M (some mm) (page :: rest) s { evicted M mm.pgdir page { s with pmm := pmm } with pmm := pmm' }
      (some page) [page] (some page) where
  victims := rfl
  mapped v tried := by
    obtain rfl := List.mem_singleton.mp tried
    exact ⟨mm, rfl, mapped⟩
  free p given := .inr given
  kept m same v still other := by
    obtain rfl := Option.some.inj same
    have others := @evicted_mapped σ M { s with pmm := pmm } mm page v mapped still fun same => other (congrArg _ same)
    exact others
  swappable _ _ _ := ⟨rest, queue.evict, .refl _⟩
  mem := rfl
  saved v same := by
    obtain rfl := Option.some.inj same
    refine ⟨List.mem_singleton_self _, Function.update_self .., fun m same => ?_⟩
    obtain rfl := Option.some.inj same
    obtain ⟨w, here, -⟩ := mapped
    have now := @evicted_entry σ M { s with pmm := pmm } mm page (s.praVaddr page)
    rw [if_pos rfl] at now
    exact now.trans (congrArg _ here)

/-- What is left to do after a failed write. -/
theorem refused_relieved {t : Machine σ (Links Entry)} {pmm : σ} {got : Nat} {tried : List Nat}
    (mapped : Mapped s mm page)
    (later : Relieved M (some mm) (rest ++ [page]) (refused { s with pmm := pmm } page) t (some got) tried (some got)) :
    Relieved M (some mm) (page :: rest) s t (some got) (tried ++ [page]) (some got) where
  victims := by
    rw [later.victims, List.append_assoc]
    rfl
  mapped v inside := by
    rcases List.mem_append.mp inside with inside | last
    · exact later.mapped v inside
    · obtain rfl := List.mem_singleton.mp last
      exact ⟨mm, rfl, mapped⟩
  free p given := .inr given
  kept := later.kept
  swappable m same priv := by
    obtain ⟨left, queue, perm⟩ := later.swappable m same priv
    exact ⟨left, queue, perm.trans (List.perm_append_singleton page rest)⟩
  mem := later.mem
  saved v same := by
    obtain ⟨inside, copy, gone⟩ := later.saved v same
    exact ⟨List.mem_append_left _ inside, copy, gone⟩

theorem rescue_relieved (complete : Complete M) {k : Nat} (queue : Queue s.pra order)
    (noFree : ∀ p, ¬M.Free s.pmm p) (on : s.swapInitOk = true) (check : s.checkMmStruct = some mm)
    (priv : mm.smPriv = true) (fails : ∀ j < k, s.device (s.writes + j) = false)
    (done : s.device (s.writes + k) = true)
    (ready : ∀ j ≤ k, ∃ v, (order.rotate j).head? = some v ∧ Mapped s mm v ∧
      s.praVaddr v / PGSIZE + 1 < maxSwapOffset) :
    ∃ fuel page t tried, allocPage M fifo fuel s = .ok (some page, t) ∧
      Relieved M (some mm) order s t (some page) tried (some page) := by
  induction k generalizing s order with
  | zero =>
      obtain ⟨page, oldest, mapped, fits⟩ := ready 0 (le_refl 0)
      rw [List.rotate_zero] at oldest
      obtain ⟨rest, rfl⟩ := List.head?_eq_some_iff.mp oldest
      obtain ⟨pmm, noFree', first⟩ := allocPage_first queue noFree on check priv mapped fits
      rw [if_pos (show s.device s.writes = true from done)] at first
      obtain ⟨pmm', given⟩ := @evicted_given σ M { s with pmm := pmm } mm page complete noFree' mapped
      have run : allocPage M fifo 2 s =
          .ok (some page, { evicted M mm.pgdir page { s with pmm := pmm } with pmm := pmm' }) := by
        rw [first, allocPage, given]
      exact ⟨2, page, _, [page], run, evicted_relieved queue mapped⟩
  | succ k ih =>
      obtain ⟨page, oldest, mapped, fits⟩ := ready 0 (Nat.zero_le _)
      rw [List.rotate_zero] at oldest
      obtain ⟨rest, rfl⟩ := List.head?_eq_some_iff.mp oldest
      obtain ⟨pmm, noFree', first⟩ := allocPage_first queue noFree on check priv mapped fits
      have failed : ¬s.device s.writes = true := by
        rw [show s.device s.writes = false from fails 0 (Nat.succ_pos k)]
        exact Bool.false_ne_true
      rw [if_neg failed] at first
      have fresh := (List.nodup_cons.mp queue.nodup).1
      obtain ⟨fuel, got, t, tried, run, later⟩ := @ih (refused { s with pmm := pmm } page) (rest ++ [page])
        (queue.evict.renew fresh) noFree' on check
        (fun j less => by
          have earlier := fails (j + 1) (Nat.succ_lt_succ less)
          rwa [← Nat.add_assoc, Nat.add_right_comm] at earlier)
        (by rwa [← Nat.add_assoc, Nat.add_right_comm] at done)
        (fun j most => by
          obtain ⟨v, turn, rest⟩ := ready (j + 1) (Nat.succ_le_succ most)
          rw [List.rotate_cons_succ] at turn
          exact ⟨v, turn, rest⟩)
      exact ⟨fuel + 1, got, t, tried ++ [page], (first fuel).trans run, refused_relieved mapped later⟩

theorem Rescue.next {pmm : σ} (later : Rescue (refused { s with pmm := pmm } page) mm (rest ++ [page]))
    (failed : s.device s.writes = false) (mapped : Mapped s mm page)
    (fits : s.praVaddr page / PGSIZE + 1 < maxSwapOffset) : Rescue s mm (page :: rest) := by
  obtain ⟨k, fails, done, ready⟩ := later
  refine ⟨k + 1, fun j less => ?_, ?_, fun j most => ?_⟩
  · cases j with
    | zero => exact failed
    | succ j =>
        have earlier : s.device (s.writes + 1 + j) = false := fails j (Nat.lt_of_succ_lt_succ less)
        rwa [Nat.add_right_comm, Nat.add_assoc] at earlier
  · have done : s.device (s.writes + 1 + k) = true := done
    rwa [Nat.add_right_comm, Nat.add_assoc] at done
  · cases j with
    | zero => exact ⟨page, rfl, mapped, fits⟩
    | succ j =>
        obtain ⟨v, turn, there⟩ := ready j (Nat.le_of_succ_le_succ most)
        exact ⟨v, by rwa [List.rotate_cons_succ], there⟩

/-- A call that ends well with no page free was rescued. -/
theorem relieved_rescue {fuel : Nat} {page : Option Nat} {tried : List Nat} (noFree : ∀ p, ¬M.Free s.pmm p)
    (on : s.swapInitOk = true)
    (queue : ∀ mm, s.checkMmStruct = some mm → mm.smPriv = true → Queue s.pra order)
    (run : allocPage M fifo fuel s = .ok (page, t)) (victims : t.victims = tried ++ s.victims)
    (mapped : ∀ v ∈ tried, ∃ mm, s.checkMmStruct = some mm ∧ Mapped s mm v) :
    ∃ mm, s.checkMmStruct = some mm ∧ mm.smPriv = true ∧ Rescue s mm order := by
  induction fuel generalizing s order tried with
  | zero => cases run
  | succ fuel ih =>
      obtain ⟨pmm, refuses, noFree'⟩ := allocPage_refuses noFree
      rw [allocPage_round refuses on] at run
      obtain ⟨u, round, run⟩ := bind_ok.mp run
      obtain ⟨mm, oldest, rest, check, priv, rfl⟩ := @swapOutOne_tries σ M { s with pmm := pmm } u _ order queue round
      have turn : swapOutOne M fifo (some mm) { s with pmm := pmm } = .ok u := by rwa [← check]
      obtain ⟨-, fits, rfl⟩ :=
        (@swapOutOne_ok_iff σ M { s with pmm := pmm } u mm oldest rest (queue mm check priv) priv).mp turn
      obtain ⟨later, grown⟩ := (allocPage_frame run).victims
      have tries : tried = later ++ [oldest] := by
        refine List.append_cancel_right (show _ ++ s.victims = _ ++ s.victims from ?_)
        rw [← victims, ← grown, List.append_assoc]
        split
        · rfl
        · rfl
      have here : Mapped s mm oldest := by
        obtain ⟨m, same, here⟩ := mapped oldest (by simp [tries])
        obtain rfl := Option.some.inj (check.symm.trans same)
        exact here
      cases answer : s.device s.writes with
      | true =>
          refine ⟨mm, check, priv, 0, fun j less => absurd less (Nat.not_lt_zero j), answer, fun j most => ?_⟩
          obtain rfl := Nat.le_zero.mp most
          exact ⟨oldest, rfl, here, fits⟩
      | false =>
          rw [if_neg (by simp [answer])] at run grown
          have fresh := (List.nodup_cons.mp (queue mm check priv).nodup).1
          obtain ⟨m, same, -, rescue⟩ := @ih (refused { s with pmm := pmm } oldest) (rest ++ [oldest]) later noFree' on
            (fun _ _ _ => (queue mm check priv).evict.renew fresh) run grown.symm
            (fun v inside => mapped v (by simp [tries, inside]))
          obtain rfl := Option.some.inj (check.symm.trans same)
          exact ⟨mm, check, priv, rescue.next answer here fits⟩

end Calls

/-- A call ends well exactly if a page is free or the pages on the list come to its rescue. -/
theorem allocPage_relieved_iff {order : List Nat} (complete : Complete M) (on : s.swapInitOk = true)
    (queue : ∀ mm, s.checkMmStruct = some mm → mm.smPriv = true → Queue s.pra order) :
    (∃ fuel page t tried gone, allocPage M fifo fuel s = .ok (page, t) ∧
      Relieved M s.checkMmStruct order s t page tried gone) ↔
    (∃ p, M.Free s.pmm p) ∨ ∃ mm, s.checkMmStruct = some mm ∧ mm.smPriv = true ∧ Rescue s mm order := by
  by_cases some : ∃ p, M.Free s.pmm p
  · refine ⟨fun _ => .inl some, fun _ => ?_⟩
    obtain ⟨p, free⟩ := some
    cases given : M.allocPage s.pmm with
    | mk page pmm =>
        cases page with
        | none => exact absurd free (complete _ _ given p)
        | some q =>
            have run : allocPage M fifo 1 s = .ok (.some q, { s with pmm := pmm }) := by
              rw [allocPage, given]
            refine ⟨1, .some q, _, [], none, run, ?_⟩
            exact {
              victims := rfl
              mapped _ inside := absurd inside List.not_mem_nil
              free p same := .inl (Option.some.inj same ▸ (M.alloc_some given).1)
              kept _ _ _ mapped _ := mapped
              swappable m same priv := ⟨order, queue m same priv, .refl _⟩
              mem := rfl
              saved _ gone := by cases gone }
  · have noFree : ∀ p, ¬M.Free s.pmm p := not_exists.mp some
    constructor
    · rintro ⟨fuel, page, t, tried, gone, run, relieved⟩
      exact .inr (relieved_rescue noFree on queue run relieved.victims relieved.mapped)
    · intro rescued
      obtain ⟨mm, check, priv, k, fails, done, ready⟩ := rescued.resolve_left some
      obtain ⟨fuel, page, t, tried, run, relieved⟩ :=
        rescue_relieved complete (queue mm check priv) noFree on check priv fails done ready
      exact ⟨fuel, page, t, tried, page, run, check ▸ relieved⟩

/-- With an empty list the null pointer to a victim is followed. -/
theorem allocPage_empty {mm : MmStruct} (noFree : ∀ p, ¬M.Free s.pmm p) (on : s.swapInitOk = true)
    (check : s.checkMmStruct = some mm) (priv : mm.smPriv = true) (queue : Queue s.pra []) (fuel : Nat) :
    allocPage M fifo (fuel + 1) s = .error .panic := by
  obtain ⟨pmm, refuses, -⟩ := allocPage_refuses noFree
  have nobody : fifo.swapOutVictim (some mm) s.pra = .ok (none, s.pra) := victim_empty queue priv
  rw [← check] at nobody
  rw [allocPage_round refuses on, swapOutOne, nobody]
  rfl

theorem lowestFirst_complete : Complete Pmm.lowestFirst := by
  rintro ⟨pages, nodup, lt⟩ t given p free
  cases pages with
  | nil => cases free
  | cons q pages => cases given

/-! ## Two states without a free page -/

/-- No page is free, page 5 is mapped, and the first write to the device fails. -/
def full (pra : Links Entry) : Machine Pmm.PageList (Links Entry) where
  pmm := ⟨[], .nil, nofun⟩
  pra := pra
  ref _ := 1
  praVaddr _ := PGSIZE
  mem _ _ := 0
  swap _ _ := 0
  space _ := ⟨fun _ => some 1, fun _ => some 2, fun _ => pteCreate 5 (PTE_V ||| PTE_U)⟩
  swapInitOk := true
  checkMmStruct := some ⟨[], none, 100, 0, true⟩
  device n := n ≠ 0
  writes := 0
  victims := []
  swapReads := []

def emptyList : Links Entry := listInit ⟨id, id⟩ .praListHead

theorem emptyList_queue : Queue emptyList [] := listInit_ring _ _

/-- The page is written by the second try. -/
theorem allocPage_relieved_second : ∃ fuel page t tried gone,
    allocPage Pmm.lowestFirst fifo fuel (full (listAdd emptyList .praListHead (.praPageLink 5))) = .ok (page, t) ∧
      Relieved Pmm.lowestFirst (some ⟨[], none, 100, 0, true⟩) [5]
        (full (listAdd emptyList .praListHead (.praPageLink 5))) t page tried gone := by
  have mapped : Mapped (full (listAdd emptyList .praListHead (.praPageLink 5))) ⟨[], none, 100, 0, true⟩ 5 :=
    ⟨_, rfl, by decide, by decide +kernel⟩
  refine (allocPage_relieved_iff lowestFirst_complete rfl fun _ _ _ => ?_).mpr
    (.inr ⟨_, rfl, rfl, 1, fun j less => ?_, rfl, fun j most => ⟨5, ?_, mapped, by decide +kernel⟩⟩)
  · exact emptyList_queue.renew List.not_mem_nil
  · obtain rfl := Nat.lt_one_iff.mp less
    rfl
  · rw [List.rotate_singleton]
    rfl

theorem emptyList_not_relieved : ¬∀ (s : Machine Pmm.PageList (Links Entry)) (order : List Nat),
    s.swapInitOk = true → (∀ mm, s.checkMmStruct = some mm → mm.smPriv = true → Queue s.pra order) →
    ∃ fuel page t tried gone, allocPage Pmm.lowestFirst fifo fuel s = .ok (page, t) ∧
      Relieved Pmm.lowestFirst s.checkMmStruct order s t page tried gone := by
  intro always
  obtain ⟨fuel, page, t, tried, gone, run, -⟩ := always (full emptyList) [] rfl fun _ _ _ => emptyList_queue
  cases fuel with
  | zero => cases run
  | succ fuel =>
      have panics : allocPage Pmm.lowestFirst fifo (fuel + 1) (full emptyList) = .error .panic :=
        allocPage_empty (fun _ => List.not_mem_nil) rfl rfl rfl emptyList_queue fuel
      rw [panics] at run
      cases run

end Ucore.Mm.SwapPressure
