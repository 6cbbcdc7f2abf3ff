import Ucore.Mm.RefCounts

/-! # Copying a range of pages

What `copy_range` leaves behind for a child. Before anything else each round that meets a page
takes a fresh page. Where pages are shared nobody uses that one; where they are copied an
assertion on it fails.
-/

namespace Ucore.Mm.CopyRange

open Libs.Assert Libs.Loop Mmu Pmm PageTables PageRefs Unmap

variable {σ : Type} (M : PmmManager σ)

/-- The range has a page in it that `r` maps. -/
def Maps (s : Machine σ) (r start stop : Nat) : Prop :=
  ∃ la, start ≤ la ∧ la < stop ∧ isValid (pteOf s r la) = true

def Unmapped (s : Machine σ) (r start stop : Nat) : Prop :=
  ∀ la, start ≤ la → la < stop → isValid (pteOf s r la) = false

def freePages (s : Machine σ) : Set Nat := {p | M.Free s.pmm p}

/-- The pages that are full of entries below a root. -/
def tablesOf (s : Machine σ) (r : Nat) : Set Nat :=
  {p | ∃ la < USERTOP, target (s.load ⟨r, pdx1 la⟩) = some p ∨ ∃ slot, walk s r la = some slot ∧ slot.page = p}

def Reaches (s : Machine σ) (r p : Nat) : Prop := p ∈ tablesOf s r ∨ ∃ la < USERTOP, target (pteOf s r la) = some p

/-- How many pages of the range map a page. -/
def mappedIn (s : Machine σ) (r start stop p : Nat) : Nat :=
  ((Finset.Ico (start / PGSIZE) (stop / PGSIZE)).filter fun v => target (pteOf s r (v * PGSIZE)) = some p).card

/-- Nothing is taken from the allocator but tables of the child, and the child shares each page of
    the range, without the right to write. -/
structure SharesExactly (toDir fromDir start stop : Nat) (s t : Machine σ) : Prop where
  spent : (freePages M t).ncard + (tablesOf t toDir \ tablesOf s toDir).ncard = (freePages M s).ncard
  reached : ∀ p, M.Free s.pmm p → ¬M.Free t.pmm p → Reaches t toDir p
  mapped : ∀ la, start ≤ la → la < stop → isValid (pteOf s fromDir la) = true →
    target (pteOf t toDir la) = target (pteOf s fromDir la) ∧
      pteOf t toDir la &&& PTE_USER = withoutWrite (pteOf s fromDir la &&& PTE_USER)
  refs : ∀ p, 0 < mappedIn s fromDir start stop p → t.ref p = s.ref p + mappedIn s fromDir start stop p

/-- The child has a fresh page of its own for each page of the range, with the same words and the
    same rights, and the parent is as before. -/
structure CopiesExactly (roots : Finset Nat) (toDir fromDir start stop : Nat) (s t : Machine σ) : Prop where
  parent : ∀ la < USERTOP, pteOf t fromDir la = pteOf s fromDir la ∧
    ∀ p, target (pteOf s fromDir la) = some p → t.mem p = s.mem p
  copied : ∀ la, start ≤ la → la < stop → isValid (pteOf s fromDir la) = true → ∃ p,
    target (pteOf t toDir la) = some p ∧ M.Free s.pmm p ∧ t.ref p = 1 ∧
      (∀ r ∈ roots, ∀ la' < USERTOP, target (pteOf t r la') = some p → r = toDir ∧ la' / PGSIZE = la / PGSIZE) ∧
      t.mem p = s.mem (ptePpn (pteOf s fromDir la)) ∧
      pteOf t toDir la &&& PTE_USER = pteOf s fromDir la &&& PTE_USER

variable {M} {s t u : Machine σ} {role role' : Nat → Role} {roots : Finset Nat} {toDir fromDir start stop : Nat}
  {share : Bool} {ptep : Slot} {ret : Int}

/-! ## Rounds that meet no page -/

/-- A round that meets no page goes on to the next page, or to the next table. -/
theorem copyBody_skips (counted : Counted M roots 0 s role) (root : fromDir ∈ roots) (user : start < USERTOP)
    (aligned : start % PGSIZE = 0) (invalid : isValid (pteOf s fromDir start) = false) (r : Int) :
    ∃ next, copyBody M toDir fromDir share start (r, s) = .ok (next, 0, s) ∧ start < next ∧ next % PGSIZE = 0 ∧
      ∀ la, start ≤ la → la < next → isValid (pteOf s fromDir la) = false := by
  have lookup := getPte_lookup counted.layout ((counted.isRoot fromDir).mp root) user
  cases found : walk s fromDir start with
  | none =>
      obtain ⟨above, alignedNext, sameTable⟩ := nextTable aligned
      refine ⟨_, ?_, above, alignedNext, fun la low high => ?_⟩
      · rw [copyBody, lookup, found]
        rfl
      · rw [pteOf, walk_none_of_sameTable found (sameTable la low high).symm]
        exact isValid_zero
  | some slot =>
      rw [pteOf_walk found] at invalid
      refine ⟨start + PGSIZE, ?_, Nat.lt_add_of_pos_right PGSIZE_pos, by rw [Nat.add_mod_right, aligned],
        fun la low high => ?_⟩
      · rw [copyBody, lookup, found]
        simp [bind, Except.bind, pure, Except.pure, invalid]
      · have same : la / PGSIZE = start / PGSIZE := by
          simp only [PGSIZE] at *
          omega
        rw [pteOf, walk_congr same, found]
        exact invalid

/-- Where the range has no page there is nothing to do. -/
theorem copyRange_unmapped (counted : Counted M roots 0 s role) (root : fromDir ∈ roots)
    (aligned : start % PGSIZE = 0 ∧ stop % PGSIZE = 0) (access : userAccess start stop = true)
    (unmapped : Unmapped s fromDir start stop) : copyRange M toDir fromDir start stop share s = .ok (0, s) := by
  rw [copyRange, assert_bind aligned, assert_bind access]
  simp only [userAccess, Bool.and_eq_true, decide_eq_true_eq] at access
  have round : ∀ pos (r : Int × Machine σ), pos < stop → (start ≤ pos ∧ pos % PGSIZE = 0 ∧ r = (0, s)) →
      ∃ next t, copyBody M toDir fromDir share pos r = .ok (next, t) ∧ pos < next ∧
        ((t.1 = 0 && next ≠ 0 && next < stop) = true →
          next < stop ∧ start ≤ next ∧ next % PGSIZE = 0 ∧ t = (0, s)) ∧
        ((t.1 = 0 && next ≠ 0 && next < stop) = false → t = (0, s)) := by
    rintro pos r below ⟨low, alignedPos, rfl⟩
    obtain ⟨next, step, above, alignedNext, -⟩ : ∃ next, copyBody M toDir fromDir share pos (0, s) = _ ∧ _ :=
      copyBody_skips counted root (below.trans_le access.2) alignedPos (unmapped pos low below) 0
    refine ⟨next, (0, s), step, above, fun more => ?_, fun _ => rfl⟩
    simp only [Bool.and_eq_true, decide_eq_true_eq] at more
    exact ⟨more.2, by omega, alignedNext, rfl⟩
  obtain ⟨t, run, same⟩ := doWhile_rule _ _ round (Nat.le_add_left stop start) access.1.2 ⟨le_rfl, aligned.1, rfl⟩
  rw [run, same]

/-! ## Copies -/

/-- A page to be copied ends the call: without memory for tables with an error, else in a failed
    assertion. -/
theorem copyPage_private (run : copyPage M toDir fromDir start false ptep s = .ok (ret, t)) : ret ≠ 0 := by
  rw [copyPage] at run
  obtain ⟨⟨found, u⟩, -, rest⟩ := bind_ok.mp run
  cases found with
  | none =>
      cases rest
      decide
  | some nptep =>
      obtain ⟨page, -, rest⟩ := bind_ok.mp rest
      obtain ⟨⟨npage, v⟩, -, rest⟩ := bind_ok.mp rest
      obtain ⟨_, -, rest⟩ := bind_ok.mp rest
      rw [if_neg Bool.false_ne_true] at rest
      obtain ⟨_, -, rest⟩ := bind_ok.mp rest
      cases rest

/-- A round that meets a page is one of `copyPage`. -/
theorem copyBody_page (counted : Counted M roots 0 s role) (root : fromDir ∈ roots) (user : start < USERTOP)
    (valid : isValid (pteOf s fromDir start) = true) (r : Int) :
    ∃ ptep, walk s fromDir start = some ptep ∧ copyBody M toDir fromDir share start (r, s) =
      (copyPage M toDir fromDir start share ptep s >>= fun p => pure (start + PGSIZE, p.1, p.2)) := by
  have lookup := getPte_lookup counted.layout ((counted.isRoot fromDir).mp root) user
  cases found : walk s fromDir start with
  | none =>
      rw [pteOf, found, isValid_zero] at valid
      cases valid
  | some slot =>
      rw [pteOf_walk found] at valid
      refine ⟨slot, rfl, ?_⟩
      rw [copyBody, lookup, found]
      simp [bind, Except.bind, pure, Except.pure, valid]

/-- A call that returns has passed the checks and gone through the loop. -/
theorem copyRange_loop (run : copyRange M toDir fromDir start stop share s = .ok (ret, t)) :
    (start % PGSIZE = 0 ∧ stop % PGSIZE = 0) ∧ start < stop ∧ stop ≤ USERTOP ∧
      doWhile (fun start (p : Int × Machine σ) => p.1 = 0 && start ≠ 0 && start < stop)
        (copyBody M toDir fromDir share) stop start (0, s) = .ok (ret, t) := by
  rw [copyRange] at run
  obtain ⟨_, aligned, rest⟩ := bind_ok.mp run
  obtain ⟨_, access, loop⟩ := bind_ok.mp rest
  replace aligned : start % PGSIZE = 0 ∧ stop % PGSIZE = 0 := by
    by_contra wrong
    rw [assert, if_neg wrong] at aligned
    cases aligned
  replace access : userAccess start stop = true := by
    by_contra wrong
    rw [assert, if_neg wrong] at access
    cases access
  simp only [userAccess, Bool.and_eq_true, decide_eq_true_eq] at access
  exact ⟨aligned, access.1.2, access.2, loop⟩

theorem copyRange_private (counted : Counted M roots 0 s role) (root : fromDir ∈ roots)
    (run : copyRange M toDir fromDir start stop false s = .ok (0, t)) : Unmapped s fromDir start stop := by
  obtain ⟨aligned, order, inUser, loop⟩ := copyRange_loop run
  refine doWhile_partial (fun pos r => start ≤ pos ∧ pos < stop ∧ pos % PGSIZE = 0 ∧ r.2 = s ∧
    Unmapped s fromDir start pos)
    (fun r => r.1 = 0 → Unmapped s fromDir start stop) (fun pos r next v inv body => ?_)
    ⟨le_rfl, order, aligned.1, rfl, fun la low high => absurd low (not_le.mpr high)⟩ loop rfl
  obtain ⟨ret, now⟩ := r
  obtain ⟨low, below, alignedPos, rfl, sofar⟩ := inv
  have user : pos < USERTOP := below.trans_le inUser
  cases valid : isValid (pteOf now fromDir pos) with
  | true =>
      obtain ⟨ptep, -, page⟩ := copyBody_page (M := M) counted root user valid ret
      rw [page] at body
      obtain ⟨⟨ret', w⟩, copied, rest⟩ := bind_ok.mp body
      have failed := copyPage_private copied
      cases rest
      exact ⟨fun more => by simp [failed] at more, fun _ zero => absurd zero failed⟩
  | false =>
      obtain ⟨next', skip, above, alignedNext, invalid⟩ :=
        copyBody_skips (M := M) counted root user alignedPos valid ret
      rw [skip] at body
      cases body
      have upto : Unmapped now fromDir start next := by
        intro la lower upper
        by_cases before : la < pos
        · exact sofar la lower before
        · exact invalid la (not_lt.mp before) upper
      refine ⟨fun more => ?_, fun ends _ la lower upper => ?_⟩
      · simp only [Bool.and_eq_true, decide_eq_true_eq] at more
        exact ⟨by omega, more.2, alignedNext, rfl, upto⟩
      · simp only [decide_true, Bool.true_and, Bool.and_eq_false_iff, decide_eq_false_iff_not] at ends
        exact upto la lower (by omega)

/-- `copy_range` makes copies exactly where there is nothing to copy. -/
theorem copyRange_copies_iff (counted : Counted M roots 0 s role) (root : fromDir ∈ roots)
    (aligned : start % PGSIZE = 0 ∧ stop % PGSIZE = 0) (access : userAccess start stop = true) :
    (∃ t, copyRange M toDir fromDir start stop false s = .ok (0, t) ∧
    CopiesExactly M roots toDir fromDir start stop s t) ↔
      Unmapped s fromDir start stop := by
  constructor
  · rintro ⟨t, run, -⟩
    exact copyRange_private counted root run
  · intro unmapped
    refine ⟨s, copyRange_unmapped counted root aligned access unmapped, fun la _ => ⟨rfl, fun _ _ => rfl⟩,
      fun la low high valid => ?_⟩
    rw [unmapped la low high] at valid
    cases valid

/-! ## Pages taken for nothing -/

/-- A page is taken that the page tables have nothing to do with. -/
theorem takeOther {p : Nat} {pmm : σ} (counted : Counted M roots 0 s role) (given : M.allocPage s.pmm = (some p, pmm)) :
    Counted M roots 0 { s with pmm := pmm } (Function.update role p .other) where
  layout := by
    have free := counted.free_of_given given
    refine counted.layout.retag (fun _ _ _ => rfl) (fun q => ?_) (.inl free) (.inr (.inr rfl))
      (M.free_lt (M.alloc_some given).1) fun q i child place points => ?_
    · rw [(M.alloc_some given).2, counted.layout.free, Function.update_apply]
      split <;> simp [*]
    · exact place.ne_free.2 ((counted.layout.entry q i child p place points).symm.trans free)
  isRoot r := by
    rw [counted.isRoot, Function.update_apply]
    split
    · rename_i same
      simp [same, counted.free_of_given given]
    · rfl
  count q data := by
    have here : q ≠ p := by
      rintro rfl
      simp at data
    rw [Function.update_of_ne here] at data
    exact counted.count q data
  rest q free := by
    have here : q ≠ p := by
      rintro rfl
      simp at free
    rw [Function.update_of_ne here] at free
    exact counted.rest q free

/-- No entry of a root or below one leads to such a page. -/
theorem not_reaches {p : Nat} (counted : Counted M roots 0 s role) (root : toDir ∈ roots) (other : role p = .other) :
    ¬Reaches s toDir p := by
  have isRoot := (counted.isRoot toDir).mp root
  rintro (⟨la, user, first | ⟨slot, found, rfl⟩⟩ | ⟨la, user, maps⟩)
  · have dir := counted.layout.walk_dir isRoot user first
    rw [other] at dir
    cases dir
  · have table := (counted.layout.walk_role isRoot user found).1
    rw [other] at table
    cases table
  · have data := counted.layout.pte_data isRoot user maps
    rw [other] at data
    cases data

/-- From one state of the page tables to another no page has become free, and pages that the page
    tables have nothing to do with have stayed so. -/
structure Spends (role role' : Nat → Role) : Prop where
  free : ∀ p, role' p = .free → role p = .free
  other : ∀ p, role p = .other → role' p = .other

theorem Spends.refl (role : Nat → Role) : Spends role role := ⟨fun _ => id, fun _ => id⟩

theorem Spends.trans {role'' : Nat → Role} (first : Spends role role') (second : Spends role' role'') :
    Spends role role'' :=
  ⟨fun p free => first.free p (second.free p free), fun p other => second.other p (first.other p other)⟩

theorem Spends.of_edited (edit : Edited M roots 0 s role t role' []) : Spends role role' where
  free p free := by
    by_contra used
    exact used ((edit.kept p used (by simp)).symm.trans free)
  other p other := (edit.kept p (by simp [other]) (by simp)).trans other

/-- A page that was free is in use, and out of reach of the page tables. -/
def Leaks (role role' : Nat → Role) : Prop := ∃ p, role p = .free ∧ role' p = .other

theorem Leaks.after {role'' : Nat → Role} (spends : Spends role role') (leaks : Leaks role' role'') :
    Leaks role role'' := by
  obtain ⟨p, free, other⟩ := leaks
  exact ⟨p, spends.free p free, other⟩

theorem Leaks.before {role'' : Nat → Role} (leaks : Leaks role role') (spends : Spends role' role'') :
    Leaks role role'' := by
  obtain ⟨p, free, other⟩ := leaks
  exact ⟨p, free, spends.other p other⟩

/-- `page_insert` where the entry is there and does not map another page. -/
theorem pageInsert_keeps {r page la perm : Nat} {slot : Slot} (counted : Counted M roots 0 s role) (root : r ∈ roots)
    (user : la < USERTOP) (data : role page = .data) (small : perm < 1024) (found : walk s r la = some slot)
    (same : ∀ p, target (pteOf s r la) = some p → p = page) :
    ∃ t role', pageInsert M r page la perm s = .ok (0, t) ∧ Edited M roots 0 s role t role' [] ∧
      SetsPte roots s t r la (pteCreate page (PTE_V ||| perm)) := by
  have absent : pushedOut roots 0 s r page la = [] := by
    unfold pushedOut
    split
    · rename_i p maps
      rw [if_neg fun other => other.1 (same p maps)]
    · rfl
  rcases pageInsert_spec counted root user data small with
    ⟨-, -, missing⟩ | ⟨_, _, -, missing, -⟩ | ⟨t, role', run, edit, sets, -⟩
  · rw [found] at missing
    cases missing
  · rw [found] at missing
    cases missing
  · rw [absent] at edit
    exact ⟨t, role', run, edit, sets⟩

theorem perm_lt (w : Nat) : w &&& PTE_USER < 1024 := Nat.and_le_right.trans_lt (by decide)

theorem withoutWrite_lt {perm : Nat} (small : perm < 1024) : withoutWrite perm < 1024 := Nat.and_le_left.trans_lt small

/-- A page that is shared costs one more page, for good. -/
theorem copyPage_leaks (counted : Counted M roots 0 s role) (to' : toDir ∈ roots) (from' : fromDir ∈ roots)
    (user : start < USERTOP) (found : walk s fromDir start = some ptep) (valid : isValid (pteOf s fromDir start) = true)
    (unmapped : isValid (pteOf s toDir start) = false)
    (run : copyPage M toDir fromDir start true ptep s = .ok (ret, t)) :
    ret ≠ 0 ∨ (ret = 0 ∧ ∃ role', Counted M roots 0 t role' ∧ Spends role role' ∧ Leaks role role' ∧
      ∀ r ∈ roots, ∀ la < USERTOP, la / PGSIZE ≠ start / PGSIZE → pteOf t r la = pteOf s r la) := by
  have fromRoot := (counted.isRoot fromDir).mp from'
  have toRoot := (counted.isRoot toDir).mp to'
  have maps : target (pteOf s fromDir start) = some (ptePpn (pteOf s fromDir start)) := target_some.mpr ⟨valid, rfl⟩
  generalize ptePpn (pteOf s fromDir start) = page at maps
  have data := counted.layout.pte_data fromRoot user maps
  rw [copyPage] at run
  obtain ⟨⟨nptep, u⟩, grow, rest⟩ := bind_ok.mp run
  rcases getPte_create counted.layout toRoot user with ⟨stops, -⟩ | ⟨made, u', role', run', grown, -, points⟩
  · rw [stops] at grow
    cases grow
  rw [run'] at grow
  cases grow
  cases nptep with
  | none =>
      cases rest
      exact .inl (by decide)
  | some nptep =>
      have edit := Edited.of_grown counted grown
      have leaf : ∀ r ∈ roots, ∀ la < USERTOP, pteOf u r la = pteOf s r la :=
        fun r root la user => grown.leaf r la ((counted.isRoot r).mp root) user
      have foundU := grown.walks counted.layout fromRoot user found
      have entry : u.load ptep = pteOf s fromDir start := by rw [← pteOf_walk foundU, leaf fromDir from' start user]
      have dataU : role' page = .data := (grown.kept page (by simp [data])).trans data
      have isPage : pte2page (u.load ptep) = .ok page := by
        rw [entry, pte2page, if_pos valid, (target_some.mp maps).2, pa2page,
          if_pos (edit.counted.layout.lt page (by simp [dataU]))]
      dsimp only at rest
      rw [isPage] at rest
      obtain ⟨_, same, rest⟩ := bind_ok.mp rest
      cases same
      obtain ⟨⟨npage, v⟩, alloc, rest⟩ := bind_ok.mp rest
      obtain ⟨_, given, rest⟩ := bind_ok.mp rest
      dsimp only at given rest
      rw [if_pos rfl] at rest
      obtain ⟨⟨_, x⟩, inserts, rest⟩ := bind_ok.mp rest
      obtain ⟨⟨last, y⟩, inserts', rest⟩ := bind_ok.mp rest
      obtain ⟨_, -, rest⟩ := bind_ok.mp rest
      cases rest
      cases npage with
      | none => cases given
      | some npage =>
          obtain ⟨pmm, taken, rfl⟩ : ∃ pmm, M.allocPage u.pmm = (some npage, pmm) ∧ v = { u with pmm := pmm } := by
            rw [allocPage] at alloc
            split at alloc
            · rename_i p pmm taken
              cases alloc
              exact ⟨pmm, taken, rfl⟩
            · split at alloc <;> cases alloc
          have free := edit.counted.free_of_given taken
          have countedV := takeOther edit.counted taken
          have apart : page ≠ npage := by
            rintro rfl
            rw [free] at dataU
            cases dataU
          have spendsV : Spends role (Function.update role' npage .other) := by
            refine (Spends.of_edited edit).trans ⟨fun p free => ?_, fun p other => ?_⟩
            · by_cases here : p = npage
              · simp [here] at free
              · rwa [Function.update_of_ne here] at free
            · rw [Function.update_apply]
              split
              · rfl
              · exact other
          have small := perm_lt (u.load ptep)
          obtain ⟨x', role₁, insert₁, edit₁, sets₁⟩ := pageInsert_keeps countedV from' user
            (by rw [Function.update_of_ne apart]; exact dataU) (withoutWrite_lt small)
            (show walk { u with pmm := pmm } fromDir start = some ptep from foundU) fun p maps' => by
              have here : target (pteOf u fromDir start) = some p := maps'
              rw [leaf fromDir from' start user, maps] at here
              exact (Option.some_inj.mp here).symm
          rw [insert₁] at inserts
          cases inserts
          have data₁ : role₁ page = .data :=
            (edit₁.kept page (by simp [Function.update_of_ne apart, dataU]) (by simp)).trans
              (by rw [Function.update_of_ne apart]; exact dataU)
          have differ : toDir ≠ fromDir := by
            rintro rfl
            rw [valid] at unmapped
            cases unmapped
          have still : pteOf x toDir start = pteOf s toDir start :=
            (sets₁ toDir to' start user).trans ((if_neg fun both => differ both.1).trans (leaf toDir to' start user))
          obtain ⟨y', role₂, insert₂, edit₂, sets₂⟩ := pageInsert_keeps edit₁.counted to' user data₁
            (withoutWrite_lt small) (edit₁.walks toDir to' start user nptep (points nptep rfl)) fun p maps' => by
              rw [still, target_none.mpr unmapped] at maps'
              cases maps'
          rw [insert₂] at inserts'
          cases inserts'
          have later := (Spends.of_edited edit₁).trans (Spends.of_edited edit₂)
          refine .inr ⟨rfl, role₂, edit₂.counted, spendsV.trans later, ?_, fun r root la userLa away => ?_⟩
          · refine Leaks.before ⟨npage, ?_, Function.update_self ..⟩ later
            exact (Spends.of_edited edit).free npage free
          · rw [sets₂ r root la userLa, if_neg fun both => away both.2, sets₁ r root la userLa,
              if_neg fun both => away both.2]
            exact leaf r root la userLa

/-- How far a sharing call has come: below `pos` either nothing was shared or a page is lost, and
    the range from `pos` on is as it was. -/
structure Leaking (roots : Finset Nat) (toDir fromDir start stop : Nat) (s : Machine σ) (role : Nat → Role) (pos : Nat)
    (now : Machine σ) : Prop where
  low : start ≤ pos
  below : pos < stop
  aligned : pos % PGSIZE = 0
  ahead : ∀ la, pos ≤ la → la < stop → pteOf now fromDir la = pteOf s fromDir la ∧ isValid (pteOf now toDir la) = false
  counts : ∃ role', Counted M roots 0 now role' ∧ Spends role role' ∧
    (Unmapped s fromDir start pos ∨ Leaks role role')

/-- One round of a sharing call. -/
theorem copyBody_leaking {pos next : Nat} {now : Machine σ} {u : Int × Machine σ} (to' : toDir ∈ roots)
    (from' : fromDir ∈ roots)
    (inUser : stop ≤ USERTOP) (inv : Leaking (M := M) roots toDir fromDir start stop s role pos now)
    (body : copyBody M toDir fromDir true pos (ret, now) = .ok (next, u)) :
    u.1 ≠ 0 ∨ pos < next ∧ next % PGSIZE = 0 ∧
      (∀ la, next ≤ la → la < stop → pteOf u.2 fromDir la = pteOf s fromDir la ∧ isValid (pteOf u.2 toDir la) = false) ∧
      ∃ role', Counted M roots 0 u.2 role' ∧ Spends role role' ∧
        (Unmapped s fromDir start (min next stop) ∨ Leaks role role') := by
  obtain ⟨role', counted, spends, sofar⟩ := inv.counts
  have user : pos < USERTOP := inv.below.trans_le inUser
  cases valid : isValid (pteOf now fromDir pos) with
  | false =>
      obtain ⟨next', skip, above, alignedNext, invalid⟩ :=
        copyBody_skips (M := M) counted from' user inv.aligned valid ret
      rw [skip] at body
      cases body
      refine .inr ⟨above, alignedNext, fun la low => inv.ahead la (above.le.trans low), role', counted, spends, ?_⟩
      refine sofar.imp_left fun unmapped la lower upper => ?_
      by_cases before : la < pos
      · exact unmapped la lower before
      · rw [← (inv.ahead la (not_lt.mp before) (by omega)).1]
        exact invalid la (not_lt.mp before) (by omega)
  | true =>
      obtain ⟨ptep, found, page⟩ := copyBody_page (M := M) counted from' user valid ret
      rw [page] at body
      obtain ⟨⟨ret', v⟩, copied, rest⟩ := bind_ok.mp body
      have beside := (inv.ahead pos le_rfl inv.below).2
      rcases copyPage_leaks counted to' from' user found valid beside copied with failed | ⟨rfl, role'', counted',
        later, leaks, leaf⟩
      · cases rest
        exact .inl failed
      · cases rest
        have next : ∀ la, pos + PGSIZE ≤ la → la / PGSIZE ≠ pos / PGSIZE := fun la low => by
          simp only [PGSIZE] at *
          omega
        refine .inr ⟨Nat.lt_add_of_pos_right PGSIZE_pos, by rw [Nat.add_mod_right, inv.aligned], fun la low high => ?_,
          role'', counted', spends.trans later, .inr (leaks.after spends)⟩
        have unchanged := inv.ahead la (le_of_add_le_left low) high
        dsimp only
        rw [leaf fromDir from' la (high.trans_le inUser) (next la low), leaf toDir to' la (high.trans_le inUser)
          (next la low)]
        exact unchanged

/-- Every page that is shared costs a page that nobody has. -/
theorem copyRange_leaks (counted : Counted M roots 0 s role) (to' : toDir ∈ roots) (from' : fromDir ∈ roots)
    (unmapped : Unmapped s toDir start stop) (maps : Maps s fromDir start stop)
    (run : copyRange M toDir fromDir start stop true s = .ok (0, t)) :
    ∃ p, M.Free s.pmm p ∧ ¬M.Free t.pmm p ∧ ¬Reaches t toDir p := by
  obtain ⟨aligned, order, inUser, loop⟩ := copyRange_loop run
  have lost : ∃ role', Counted M roots 0 t role' ∧ Leaks role role' := by
    refine doWhile_partial (fun pos r => Leaking (M := M) roots toDir fromDir start stop s role pos r.2)
      (fun r => r.1 = 0 → ∃ role', Counted M roots 0 r.2 role' ∧ Leaks role role') (fun pos r next v inv body => ?_)
      ⟨le_rfl, order, aligned.1, fun la low high => ⟨rfl, unmapped la low high⟩, role, counted, .refl role,
        .inl fun la low high => absurd low (not_le.mpr high)⟩ loop rfl
    rcases copyBody_leaking to' from' inUser inv body with failed | ⟨above, alignedNext, ahead, role', counted',
      spends, sofar⟩
    · exact ⟨fun more => by simp [failed] at more, fun _ zero => absurd zero failed⟩
    · refine ⟨fun more => ?_, fun ends zero => ⟨role', counted', ?_⟩⟩
      · simp only [Bool.and_eq_true, decide_eq_true_eq] at more
        rw [min_eq_left more.2.le] at sofar
        exact ⟨inv.low.trans above.le, more.2, alignedNext, ahead, role', counted', spends, sofar⟩
      · simp only [zero, decide_true, Bool.true_and, Bool.and_eq_false_iff, decide_eq_false_iff_not] at ends
        have atEnd : stop ≤ next := by omega
        rw [min_eq_right atEnd] at sofar
        refine sofar.resolve_left fun none => ?_
        obtain ⟨la, low, high, valid⟩ := maps
        rw [none la low high] at valid
        cases valid
  obtain ⟨role', counted', p, free, other⟩ := lost
  refine ⟨p, (counted.layout.free p).mpr free, fun still => ?_, not_reaches counted' to' other⟩
  rw [counted'.layout.free, other] at still
  cases still

theorem tablesOf_self : (tablesOf s toDir \ tablesOf s toDir).ncard = 0 := by
  rw [Set.sdiff_self, Set.ncard_empty]

/-- A sharing call spends exactly what it should where there is nothing to share. -/
theorem copyRange_shares_iff (counted : Counted M roots 0 s role) (to' : toDir ∈ roots) (from' : fromDir ∈ roots)
    (unmapped : Unmapped s toDir start stop) (run : copyRange M toDir fromDir start stop true s = .ok (0, t)) :
    SharesExactly M toDir fromDir start stop s t ↔ Unmapped s fromDir start stop := by
  constructor
  · intro exactly la low high
    cases valid : isValid (pteOf s fromDir la) with
    | false => rfl
    | true =>
        obtain ⟨p, free, used, away⟩ := copyRange_leaks counted to' from' unmapped ⟨la, low, high, valid⟩ run
        exact absurd (exactly.reached p free used) away
  · intro nothing
    obtain ⟨aligned, order, inUser, -⟩ := copyRange_loop run
    have access : userAccess start stop = true := by
      rw [copyRange, assert_bind aligned] at run
      obtain ⟨_, checked, -⟩ := bind_ok.mp run
      by_contra wrong
      rw [assert, if_neg wrong] at checked
      cases checked
    have same : t = s := by
      rw [copyRange_unmapped counted from' aligned access nothing] at run
      cases run
      rfl
    subst same
    refine ⟨by rw [tablesOf_self, Nat.add_zero], fun p free used => absurd free used, fun la low high valid => ?_,
      fun p maps => ?_⟩
    · rw [nothing la low high] at valid
      cases valid
    · obtain ⟨v, inside⟩ := Finset.card_pos.mp maps
      obtain ⟨range, points⟩ := Finset.mem_filter.mp inside
      rw [Finset.mem_Ico] at range
      have valid := (target_some.mp points).1
      rw [nothing (v * PGSIZE)] at valid
      · cases valid
      · simp only [PGSIZE] at *
        omega
      · simp only [PGSIZE] at *
        omega

/-! ## A page table with one page, and one with none -/

section OnePage

open Lib.Run RefCounts

theorem unmapped_page {r : Nat} (empty : pteOf s r 0x200000 = 0) : Unmapped s r 0x200000 0x201000 := by
  intro la low high
  have same : la / PGSIZE = 0x200000 / PGSIZE := by
    simp only [PGSIZE]
    omega
  have entry : pteOf s r la = pteOf s r 0x200000 := by rw [pteOf, walk_congr same, ← pteOf]
  rw [entry, empty, isValid_zero]

/-- Two page tables, the first of which maps the page at `USERBASE` or does not. -/
theorem onePage : ∃ (s t : Machine PageList) (role role' : Nat → Role),
    Counted lowestFirst {100, 101} 0 s role ∧ Unmapped s 100 0x200000 0x201000 ∧ Unmapped s 101 0x200000 0x201000 ∧
    Counted lowestFirst {100, 101} 0 t role' ∧ Maps t 100 0x200000 0x201000 ∧ Unmapped t 101 0x200000 0x201000 ∧
    t.pmm.pages.length = 45 ∧ ∃ u, copyRange lowestFirst 101 100 0x200000 0x201000 true t = .ok (0, u) := by
  have played : (play (trial lowestFirst 0) (booted 50 (by decide)) [.setupPgdir, .setupPgdir]).map (fun s =>
      (s.roots, pteOf s.machine 100 0x200000, pteOf s.machine 101 0x200000)) = some ({100, 101}, 0, 0) := by
    decide +kernel
  have mapped : (play (trial lowestFirst 0) (booted 50 (by decide)) [.setupPgdir, .setupPgdir,
      .pgdirAllocPage 100 0x200000 0x1f]).map (fun s => (s.roots, isValid (pteOf s.machine 100 0x200000),
        pteOf s.machine 101 0x200000, s.machine.pmm.pages.length,
        (copyRange lowestFirst 101 100 0x200000 0x201000 true s.machine).toOption.map Prod.fst)) =
          some ({100, 101}, true, 0, 45, some 0) := by
    decide +kernel
  obtain ⟨s, played, found⟩ := Option.map_eq_some_iff.mp played
  obtain ⟨t, mapped, found'⟩ := Option.map_eq_some_iff.mp mapped
  simp only [Prod.mk.injEq, Option.map_eq_some_iff, toOption_some] at found found'
  obtain ⟨role, inv⟩ := run_inv (play_reachable trial_step (.start (booted_initial 50 (by decide))) played)
  obtain ⟨role', inv'⟩ := run_inv (play_reachable trial_step (.start (booted_initial 50 (by decide))) mapped)
  obtain ⟨⟨ret, u⟩, run, zero⟩ := found'.2.2.2.2
  cases zero
  exact ⟨s.machine, t.machine, role, role', found.1 ▸ inv.counted, unmapped_page found.2.1, unmapped_page found.2.2,
    found'.1 ▸ inv'.counted, ⟨0x200000, le_rfl, by decide, found'.2.1⟩, unmapped_page found'.2.2.1,
    found'.2.2.2.1, u, run⟩

theorem onePage_checks : (0x200000 % PGSIZE = 0 ∧ 0x201000 % PGSIZE = 0) ∧ userAccess 0x200000 0x201000 = true := by
  decide +kernel

theorem copyRange_shares_nothing : ∃ s : Machine PageList,
    SharesExactly lowestFirst 101 100 0x200000 0x201000 s s ∧ Unmapped s 100 0x200000 0x201000 := by
  obtain ⟨s, -, role, -, counted, empty, unmapped, -⟩ := onePage
  have run : copyRange lowestFirst 101 100 0x200000 0x201000 true s = .ok (0, s) :=
    copyRange_unmapped counted (by simp) onePage_checks.1 onePage_checks.2 empty
  exact ⟨s, (copyRange_shares_iff counted (by simp) (by simp) unmapped run).mpr empty, empty⟩

/-- The page at `USERBASE` is shared, and another one is gone. -/
theorem sharedPage_costs : ¬∀ (s t : Machine PageList) (roots : Finset Nat) (toDir fromDir start stop : Nat),
    (∃ role, Counted lowestFirst roots 0 s role) → toDir ∈ roots → fromDir ∈ roots → Unmapped s toDir start stop →
    copyRange lowestFirst toDir fromDir start stop true s = .ok (0, t) →
    SharesExactly lowestFirst toDir fromDir start stop s t := by
  intro always
  obtain ⟨-, s, -, role, -, -, -, counted, maps, unmapped, -, t, run⟩ := onePage
  have exactly := always s t {100, 101} 101 100 0x200000 0x201000 ⟨role, counted⟩ (by simp) (by simp) unmapped run
  obtain ⟨p, free, used, away⟩ := copyRange_leaks counted (by simp) (by simp) unmapped maps run
  exact away (exactly.reached p free used)

theorem copyRange_copies_nothing : ∃ s t : Machine PageList,
    copyRange lowestFirst 101 100 0x200000 0x201000 false s = .ok (0, t) ∧
      CopiesExactly lowestFirst {100, 101} 101 100 0x200000 0x201000 s t := by
  obtain ⟨s, -, role, -, counted, empty, -⟩ := onePage
  exact ⟨s, (copyRange_copies_iff counted (by simp) onePage_checks.1 onePage_checks.2).mpr empty⟩

/-- With pages left in plenty, no copy is made of the page at `USERBASE`. -/
theorem copiedPage_stops : ¬∀ (s : Machine PageList) (roots : Finset Nat) (toDir fromDir start stop : Nat),
    (∃ role, Counted lowestFirst roots 0 s role) → toDir ∈ roots → fromDir ∈ roots →
    (start % PGSIZE = 0 ∧ stop % PGSIZE = 0) → userAccess start stop = true → Unmapped s toDir start stop →
    2 * ((stop - start) / PGSIZE + 2) ≤ s.pmm.pages.length →
    ∃ t, copyRange lowestFirst toDir fromDir start stop false s = .ok (0, t) ∧
      CopiesExactly lowestFirst roots toDir fromDir start stop s t := by
  intro always
  obtain ⟨-, s, -, role, -, -, -, counted, ⟨la, low, high, valid⟩, unmapped, plenty, -⟩ := onePage
  obtain ⟨t, run, -⟩ := always s {100, 101} 101 100 0x200000 0x201000 ⟨role, counted⟩ (by simp) (by simp)
    onePage_checks.1 onePage_checks.2 unmapped (by rw [plenty]; decide +kernel)
  rw [copyRange_private counted (by simp) run la low high] at valid
  cases valid

end OnePage

end Ucore.Mm.CopyRange
