import Ucore.Process.LoadImage

/-! # What was in memory before

Two machines that differ in the contents of free pages go through the same steps, as no step
looks into a page that was free before it has been cleared or filled. Bytes that belong to no
segment are never cleared: what they held is what the new process finds there, on the stack
and around its segments.
-/

namespace Ucore.Process.OldMemory

open Lib.Bytes Libs.Assert Mm.Mmu Mm.Pmm Mm.PageTables Mm.PageRefs Mm.UserPages Mm.Vmm Mm.VmaList Mm.ExitMmap LoadIcode
  LoadPages LoadImage

variable {σ : Type} {M : PmmManager σ} {s s' t t' u u' : Machine σ} {role role' role₀ : Nat → Role} {roots : Finset Nat}
  {r la perm p fuel : Nat}

/-- Two machines in the midst of a call: tables are the same. -/
structure Twin (role : Nat → Role) (s s' : Machine σ) : Prop where
  pmm : s'.pmm = s.pmm
  ref : s'.ref = s.ref
  swapInitOk : s'.swapInitOk = s.swapInitOk
  tables : ∀ q, role q = .root ∨ (role q).inner = true → s'.mem q = s.mem q

variable (M) in
/-- From `s` to `t` and from `s'` to `t'` the same was done: a page was written to the same, or
    not at all. -/
structure Along (s s' t t' : Machine σ) : Prop where
  pmm : t'.pmm = t.pmm
  ref : t'.ref = t.ref
  swapInitOk : t'.swapInitOk = t.swapInitOk
  mem : ∀ q, t'.mem q = t.mem q ∨ t.mem q = s.mem q ∧ t'.mem q = s'.mem q
  taken : ∀ q, M.Free s.pmm q → ¬M.Free t.pmm q → t'.mem q = t.mem q

namespace Along

theorem refl (pmm : s'.pmm = s.pmm) (ref : s'.ref = s.ref) (swapInitOk : s'.swapInitOk = s.swapInitOk) :
    Along M s s' s s' where
  pmm := pmm
  ref := ref
  swapInitOk := swapInitOk
  mem _ := .inr ⟨rfl, rfl⟩
  taken _ free used := absurd free used

theorem trans (first : Along M s s' t t') (second : Along M t t' u u') : Along M s s' u u' where
  pmm := second.pmm
  ref := second.ref
  swapInitOk := second.swapInitOk
  mem q := by
    rcases second.mem q with same | ⟨left, right⟩
    · exact .inl same
    · rw [left, right]
      exact first.mem q
  taken q free used := by
    by_cases still : M.Free t.pmm q
    · exact second.taken q still used
    · have same := first.taken q free still
      rcases second.mem q with now | ⟨left, right⟩
      · exact now
      · rw [left, right, same]

end Along

namespace Twin

theorem refl_along (twin : Twin role s s') : Along M s s' s s' := .refl twin.pmm twin.ref twin.swapInitOk

/-- Both machines stay alike while free pages become tables. -/
theorem along (twin : Twin role s s') (layout : Layout M s role) (along : Along M s s' t t')
    (layout' : Layout M t role')
    (kept : ∀ q, role q ≠ .free → role' q = role q) : Twin role' t t' where
  pmm := along.pmm
  ref := along.ref
  swapInitOk := along.swapInitOk
  tables q upper := by
    have used : ¬M.Free t.pmm q := by
      intro free
      rw [layout'.free] at free
      rw [free] at upper
      rcases upper with upper | upper <;> cases upper
    by_cases free : role q = .free
    · exact along.taken q ((layout.free q).mpr free) used
    · have same := twin.tables q (by rwa [← kept q free])
      rcases along.mem q with now | ⟨left, right⟩
      · exact now
      · rw [left, right, same]

theorem pteOf (twin : Twin role s s') (counted : Counted M roots 0 s role) (root : r ∈ roots) (user : la < USERTOP) :
    pteOf s' r la = pteOf s r la :=
  pteOf_eq_of_tables counted.layout ((counted.isRoot r).mp root) user twin.tables

/-- What is known of one machine's pages is known of the other's. -/
theorem counted (twin : Twin role s s') (counted : Counted M roots 0 s role) : Counted M roots 0 s' role where
  layout := counted.layout.of_tables twin.pmm twin.tables
  isRoot := counted.isRoot
  count q data := by
    rw [twin.ref, mappings_congr fun r root la user => twin.pteOf counted root user]
    exact counted.count q data
  rest q free := by rw [twin.ref, counted.rest q free]

/-- Stores to a user page, of whatever words. -/
theorem setPage (twin : Twin role s s') (data : role p = .data) (words words' : Nat → Nat) :
    Twin role (s.setPage p words) (s'.setPage p words') where
  pmm := twin.pmm
  ref := twin.ref
  swapInitOk := twin.swapInitOk
  tables q upper := by
    have other : q ≠ p := by
      rintro rfl
      rw [data] at upper
      rcases upper with upper | upper <;> cases upper
    have same := twin.tables q upper
    simpa [Machine.setPage, other] using same

end Twin

/-! ## Steps of both machines -/

/-- One level of `get_pte`. -/
theorem getTable_along {slot : Slot} {found : Option Nat} (same : s'.mem slot.page = s.mem slot.page)
    (used : ¬M.Free s.pmm slot.page) (start : Along M s s' s s') (run : getTable M slot true s = .ok (found, t)) :
    ∃ t', getTable M slot true s' = .ok (found, t') ∧ Along M s s' t t' := by
  have load : s'.load slot = s.load slot := by
    rw [Machine.load, same]
    rfl
  by_cases valid : isValid (s.load slot) = true
  · rw [getTable, if_pos valid] at run
    obtain ⟨page, isPage, rest⟩ := bind_ok.mp run
    cases rest
    refine ⟨s', ?_, start⟩
    rw [getTable, load, if_pos valid, isPage]
    rfl
  · have absent : target (s.load slot) = none := target_none.mpr (by simpa using valid)
    rcases given : M.allocPage s.pmm with ⟨_ | p, pmm⟩
    · rw [getTable_refused absent given] at run
      split at run
      · cases run
      · rename_i quiet
        cases run
        refine ⟨{ s' with pmm := pmm }, ?_, ⟨rfl, start.ref, start.swapInitOk, fun q => .inr ⟨rfl, rfl⟩,
          fun q free taken => absurd ((M.alloc_none given q).mpr free) taken⟩⟩
        rw [getTable_refused (by rw [load]; exact absent) (by rw [start.pmm]; exact given), start.swapInitOk,
          if_neg quiet]
    · rw [getTable_given absent given] at run
      cases run
      obtain ⟨wasFree, nowFree⟩ := M.alloc_some given
      have other : slot.page ≠ p := by
        rintro rfl
        exact used wasFree
      refine ⟨newTable s' slot p pmm, ?_, ⟨rfl, ?_, start.swapInitOk, fun q => ?_, fun q free taken => ?_⟩⟩
      · exact getTable_given (by rw [load]; exact absent) (by rw [start.pmm]; exact given)
      · simp [newTable, Machine.store, Machine.setPage, Machine.setPageRef, start.ref]
      · by_cases here : q = slot.page
        · subst here
          left
          simp [newTable, Machine.store, Machine.setPage, Machine.setPageRef, other, same]
        · by_cases new : q = p
          · subst new
            left
            simp [newTable, Machine.store, Machine.setPage, Machine.setPageRef, here]
          · right
            simp [newTable, Machine.store, Machine.setPage, Machine.setPageRef, here, new]
      · obtain rfl : q = p := by
          by_contra new
          exact taken ((nowFree q).mpr ⟨free, new⟩)
        simp [newTable, Machine.store, Machine.setPage, Machine.setPageRef, Ne.symm other]

/-- `get_pte` of a root. -/
theorem getPte_twin {found : Option Slot} (twin : Twin role s s') (layout : Layout M s role) (root : role r = .root)
    (user : la < USERTOP) (run : getPte M r la true s = .ok (found, t)) :
    ∃ t' role', getPte M r la true s' = .ok (found, t') ∧ Along M s s' t t' ∧ Grown M s role t role' ∧ Twin role' t t' ∧
      ∀ slot, found = some slot → walk t r la = some slot := by
  have top : Child r (role r) (pdx1 la) (.dir r (pdx1 la)) := root ▸ .dir (pdx1_lt_of_user user)
  have usedRoot : ¬M.Free s.pmm r := by
    intro free
    rw [layout.free, root] at free
    cases free
  rw [getPte] at run
  obtain ⟨⟨dir, s₁⟩, first, rest⟩ := bind_ok.mp run
  obtain ⟨s₁', first', along₁⟩ := getTable_along (twin.tables r (.inl root)) usedRoot twin.refl_along first
  rcases getTable_create ⟨r, pdx1 la⟩ layout top rfl with ⟨stops, -⟩ | ⟨_, _, role₁, run₁, grown₁, -, points₁⟩
  · rw [stops] at first
    cases first
  rw [first] at run₁
  cases run₁
  have twin₁ := twin.along layout along₁ grown₁.layout grown₁.kept
  cases dir with
  | none =>
      cases rest
      refine ⟨s₁', role₁, ?_, along₁, grown₁, twin₁, by simp⟩
      rw [getPte, first']
      rfl
  | some pd0 =>
      have isDir := grown₁.layout.walk_dir (grown₁.root_after root) user (points₁ pd0 rfl)
      have mid : Child pd0 (role₁ pd0) (pdx0 la) (.table r (pdx1 la) (pdx0 la)) := isDir ▸ .table (pdx0_lt la)
      have usedDir : ¬M.Free s₁.pmm pd0 := by
        intro free
        rw [grown₁.layout.free, isDir] at free
        cases free
      obtain ⟨⟨pt, s₂⟩, second, rest⟩ := bind_ok.mp rest
      obtain ⟨s₂', second', along₂⟩ :=
        getTable_along (twin₁.tables pd0 (.inr (by rw [isDir]; rfl))) usedDir twin₁.refl_along
        second
      rcases getTable_create ⟨pd0, pdx0 la⟩ grown₁.layout mid rfl with ⟨stops, -⟩ | ⟨_, _, role₂, run₂, grown₂, -,
        points₂⟩
      · rw [stops] at second
        cases second
      rw [second] at run₂
      cases run₂
      have twin₂ := twin₁.along grown₁.layout along₂ grown₂.layout grown₂.kept
      have whole : getPte M r la true s' = .ok (pt.map fun pt => ⟨pt, ptx la⟩, s₂') := by
        rw [getPte, first', ok_bind]
        dsimp only
        rw [second', ok_bind]
        cases pt <;> rfl
      have ends : found = pt.map (fun pt => ⟨pt, ptx la⟩) ∧ t = s₂ := by
        cases pt <;> cases rest <;> exact ⟨rfl, rfl⟩
      obtain ⟨rfl, rfl⟩ := ends
      refine ⟨s₂', role₂, whole, along₁.trans along₂, grown₁.trans grown₂, twin₂, fun slot isSlot => ?_⟩
      obtain ⟨pt, rfl, rfl⟩ := Option.map_eq_some_iff.mp isSlot
      have still := grown₂.known ⟨r, pdx1 la⟩ pd0 (by simp [grown₁.root_after root]) (points₁ pd0 rfl)
      exact walk_some.mpr ⟨pd0, still, points₂ pt rfl, rfl⟩

/-- A page that is added in one machine is added in the other. -/
theorem pgdirAllocPage_twin (twin : Twin role s s') (counted : Counted M roots 0 s role) (root : r ∈ roots)
    (user : la < USERTOP) (unmapped : isValid (pteOf s r la) = false) (adds : Adds M roots r la perm p s role t role')
    (run : pgdirAllocPage M r la perm s = .ok (some p, t)) :
    ∃ t', pgdirAllocPage M r la perm s' = .ok (some p, t') ∧ Twin role' t t' := by
  rcases given : M.allocPage s.pmm with ⟨_ | p', pmm⟩
  · rw [pgdirAllocPage, allocPage, given] at run
    dsimp only at run
    split at run
    · cases run
    · cases run
  have alloc : allocPage M s = .ok (some p', { s with pmm := pmm }) := by simp [allocPage, given]
  have alloc' : allocPage M s' = .ok (some p', { s' with pmm := pmm }) := by simp [allocPage, twin.pmm, given]
  have taken := counted.takeData given rfl
  have free := counted.free_of_given given
  have twinFirst : Twin (Function.update role p' .data) { s with pmm := pmm } { s' with pmm := pmm } := by
    refine ⟨rfl, twin.ref, twin.swapInitOk, fun q upper => ?_⟩
    have other : q ≠ p' := by
      rintro rfl
      simp [Role.inner] at upper
    rw [Function.update_of_ne other] at upper
    exact twin.tables q upper
  rw [pgdirAllocPage, alloc, ok_bind] at run
  obtain ⟨⟨ret, u⟩, insert, rest⟩ := bind_ok.mp run
  dsimp only at rest
  split at rest
  · cases rest
  rename_i zero
  cases rest
  rw [pageInsert] at insert
  obtain ⟨⟨found, v⟩, lookup, rest⟩ := bind_ok.mp insert
  obtain ⟨v', role₁, lookup', along, grown, twin₁, points⟩ :=
    getPte_twin twinFirst taken.layout ((taken.isRoot r).mp root) user lookup
  cases found with
  | none =>
      cases rest
      exact absurd (by decide) zero
  | some slot =>
      have found := points slot rfl
      have isRoot := grown.root_after ((taken.isRoot r).mp root)
      have table := (grown.layout.walk_role isRoot user found).1
      have sameTable := twin₁.tables slot.page (.inr (by rw [table]; rfl))
      have usedTable : ¬M.Free v.pmm slot.page := by
        intro isFree
        rw [grown.layout.free, table] at isFree
        cases isFree
      have invalid : isValid (v.load slot) = false := by
        rw [← pteOf_walk found, grown.leaf r la ((taken.isRoot r).mp root) user, pteOf_of_eq rfl]
        exact unmapped
      have load' : v'.load slot = v.load slot := by
        rw [Machine.load, sameTable]
        rfl
      dsimp only at rest
      rw [if_neg (by rw [show (v.pageRefInc p).load slot = v.load slot from rfl, invalid]; decide)] at rest
      cases rest
      generalize hw : pteCreate p (PTE_V ||| perm) = w at *
      have last : Along M v v' ((v.pageRefInc p).store slot w) ((v'.pageRefInc p).store slot w) := by
        refine ⟨twin₁.pmm, ?_, twin₁.swapInitOk, fun q => ?_, fun q isFree used => absurd isFree used⟩
        · simp [Machine.store, Machine.setPage, Machine.pageRefInc, Machine.setPageRef, twin₁.ref]
        · by_cases here : q = slot.page
          · subst here
            left
            simp [Machine.store, Machine.setPage, Machine.pageRefInc, Machine.setPageRef, sameTable]
          · right
            simp [Machine.store, Machine.setPage, Machine.pageRefInc, Machine.setPageRef, here]
      refine ⟨(v'.pageRefInc p).store slot w, ?_, ?_⟩
      · rw [pgdirAllocPage, alloc', ok_bind]
        dsimp only
        rw [pageInsert, lookup', ok_bind]
        dsimp only
        rw [if_neg (by rw [show (v'.pageRefInc p).load slot = v'.load slot from rfl, load', invalid]; decide), hw]
        rfl
      · refine twinFirst.along taken.layout (along.trans last) adds.grows.counted.layout fun q inUse => ?_
        by_cases here : q = p
        · rw [here, Function.update_self, adds.data]
        · rw [Function.update_of_ne here] at inUse ⊢
          exact adds.grows.kept q inUse

/-! ## Loops of both machines -/

/-- The roots determine which pages are full of entries. -/
theorem inner_congr (first : Counted M roots 0 s role) (second : Counted M roots 0 s role') {q : Nat}
    (inner : (role q).inner = true) : role' q = role q := by
  have root : ∀ p, role p = .root → role' p = .root :=
    fun p isRoot => (second.isRoot p).mp ((first.isRoot p).mpr isRoot)
  have dir : ∀ p r i, role p = .dir r i → role' p = .dir r i := by
    intro p r i isDir
    obtain ⟨c, j, place, points⟩ := first.layout.link p (by rw [isDir]; rfl)
    rw [isDir] at place
    generalize up : role c = upper at place
    cases place with
    | dir inside => exact second.layout.entry _ _ _ _ (root _ up ▸ .dir inside) points
  obtain ⟨c, j, place, points⟩ := first.layout.link q inner
  generalize own : role q = child at *
  generalize up : role c = upper at place
  cases place with
  | dir inside => exact second.layout.entry _ _ _ _ (root _ up ▸ .dir inside) points
  | table inside => exact second.layout.entry _ _ _ _ (dir _ _ _ up ▸ .table inside) points
  | data inside => cases inner

theorem Twin.congr (twin : Twin role s s') (first : Counted M roots 0 s role) (second : Counted M roots 0 s role') :
    Twin role' s s' where
  pmm := twin.pmm
  ref := twin.ref
  swapInitOk := twin.swapInitOk
  tables q upper := by
    refine twin.tables q (upper.imp (fun root => ?_) fun inner => ?_)
    · exact (first.isRoot q).mp ((second.isRoot q).mpr root)
    · rwa [inner_congr second first inner]

section Fill

variable {lo hi first stop : Nat} {value : Nat → UInt8} {s₀ : Machine σ} {v w : Filling}
  {source : Nat → Nat → Result (List UInt8)}

theorem fillPages_twin (twin : Twin role s s') (filled : Filled M roots r lo hi first value s₀ role₀ v s role)
    (root : r ∈ roots) (small : perm < 1024) (inUser : hi ≤ USERTOP) (alignedHi : hi % PGSIZE = 0) (top : stop ≤ hi)
    (begins : v.start ≤ stop) (near : v.start < stop → v.la ≤ v.start) (gives : Gives source value stop v.src v.start)
    (run : fillPages M source r perm stop fuel v s = .ok (some w, t)) :
    ∃ t' role', fillPages M source r perm stop fuel v s' = .ok (some w, t') ∧
      Filled M roots r lo hi first value s₀ role₀ w t role' ∧ w.start = stop ∧ Twin role' t t' := by
  induction fuel generalizing v s s' role with
  | zero => cases run
  | succ fuel ih =>
      by_cases more : v.start < stop
      · have near := near more
        have page := filled.near
        have user : v.la < USERTOP := by omega
        have userLt : USERTOP < 2 ^ 64 := USERTOP_lt
        have unmapped := filled.above v.la le_rfl (by omega)
        have within : v.la + PGSIZE < 2 ^ 64 := by
          simp only [PGSIZE, USERTOP] at *
          omega
        rcases pgdirAllocPage_spec filled.grows.counted root user small unmapped with
          ⟨stops, -⟩ | ⟨_, _, none, -⟩ | ⟨p, u, role₁, added, adds⟩
        · rw [fillPages_refused more stops] at run
          cases run
        · rw [fillPages_none more none] at run
          cases run
        · obtain ⟨u', added', twin₁⟩ := pgdirAllocPage_twin twin filled.grows.counted root user unmapped adds added
          rw [fillPages_some more near page within added] at run
          obtain ⟨x, write, rest⟩ := bind_ok.mp run
          obtain ⟨next, gives'⟩ := filled.written root small inUser alignedHi more top near adds gives write
          obtain ⟨fits, q, bytes, last, isRead, rfl⟩ := writePage_ok write
          cases last
          have near' : min stop (v.la + PGSIZE) < stop → v.la + PGSIZE ≤ min stop (v.la + PGSIZE) := by omega
          obtain ⟨t', role', run', done⟩ := ih (twin₁.setPage adds.data _ _) next (min_le_left ..) near' gives' rest
          refine ⟨t', role', ?_, done⟩
          rw [fillPages_some more near page within added', isRead,
            writePage_given fits (adds.grows.counted.layout.lt p (by simp [adds.data])), ok_bind]
          exact run'
      · rw [fillPages, if_neg more] at run
        cases run
        refine ⟨s', role, ?_, filled, by omega, twin⟩
        rw [fillPages, if_neg more]
        rfl

theorem loadBss_twin (twin : Twin role s s') (filled : Filled M roots r lo hi first value s₀ role₀ v s role)
    (root : r ∈ roots) (small : perm < 1024) (inUser : hi ≤ USERTOP) (alignedHi : hi % PGSIZE = 0) (top : stop ≤ hi)
    (begins : v.start ≤ stop) (near : v.start < stop → v.la ≤ v.start)
    (zero : ∀ a, v.start ≤ a → a < stop → value a = 0)
    (run : loadBss M fuel r perm stop v s = .ok (0, t)) :
    ∃ t' role', loadBss M fuel r perm stop v s' = .ok (0, t') ∧ Counted M roots 0 t role' ∧ Twin role' t t' := by
  rw [loadBss] at run
  obtain ⟨⟨o, u⟩, fills, rest⟩ := bind_ok.mp run
  cases o with
  | none => cases rest
  | some w =>
      cases rest
      obtain ⟨t', role', fills', filled', -, twin'⟩ :=
        fillPages_twin twin filled root small inUser alignedHi top begins near (gives_zero zero) fills
      refine ⟨t', role', ?_, filled'.grows.counted, twin'⟩
      rw [loadBss, fills', ok_bind]
      rfl

end Fill

theorem zeroTail_twin {stop : Nat} {v w : Filling} (twin : Twin role s s') (counted : Counted M roots 0 s role)
    (data : ∀ q, v.page = some q → role q = .data) (run : zeroTail stop v s = .ok (w, t)) :
    ∃ t', zeroTail stop v s' = .ok (w, t') ∧ Twin role t t' := by
  rw [zeroTail] at run
  dsimp only at run
  obtain ⟨u, write, rest⟩ := bind_ok.mp run
  obtain ⟨_, holds, rest⟩ := bind_ok.mp rest
  cases rest
  obtain ⟨fits, p, bytes, last, isRead, rfl⟩ := writePage_ok write
  have isData := data p last
  refine ⟨s'.setPage p (wordsOf (patch (pageBlock (s'.mem p)) (wrapSub (v.start + PGSIZE) v.la) bytes)), ?_,
    twin.setPage isData _ _⟩
  rw [zeroTail]
  dsimp only
  rw [last, isRead, writePage_given fits (counted.layout.lt p (by simp [isData])), ok_bind, holds]
  rfl

variable {bin : Image} {mm mm' : MmStruct} {ph : Proghdr} {kmalloc : Nat → Bool} {memory : Bool} {addr count : Nat}

theorem loadPages_twin {hi : Nat} (twin : Twin role s s') (counted : Counted M roots 0 s role) (root : r ∈ roots)
    (inUser : hi ≤ USERTOP) (alignedHi : hi % PGSIZE = 0) (begins : ph.pFilesz ≤ ph.pMemsz)
    (top : ph.pVa + ph.pMemsz ≤ hi)
    (unmapped : ∀ a, roundDown ph.pVa PGSIZE ≤ a → a < hi → isValid (pteOf s r a) = false)
    (run : loadPages M bin fuel r ph s = .ok (0, t)) :
    ∃ t' role', loadPages M bin fuel r ph s' = .ok (0, t') ∧ Counted M roots 0 t role' ∧ Twin role' t t' := by
  have userLt := USERTOP_lt
  have endFile : wrap (ph.pVa + ph.pFilesz) = ph.pVa + ph.pFilesz := wrap_small (by omega)
  have endMem : wrap (ph.pVa + ph.pMemsz) = ph.pVa + ph.pMemsz := wrap_small (by omega)
  have page := segment_page ph.pVa
  have filled := filled_start counted bin top unmapped
  have beforeEnd : ph.pVa + ph.pFilesz ≤ hi := by omega
  rw [loadPages] at run
  dsimp only at run
  rw [endFile, endMem] at run
  obtain ⟨⟨o, u⟩, file, rest⟩ := bind_ok.mp run
  cases o with
  | none => cases rest
  | some w =>
      obtain ⟨u', role₁, file', filled₁, ends, twin₁⟩ := fillPages_twin twin filled root (permOf_lt _) inUser alignedHi
        beforeEnd (show ph.pVa ≤ ph.pVa + ph.pFilesz from Nat.le_add_right ..)
          (fun _ => page.1) (gives_file bin ph) file
      have begun : loadPages M bin fuel r ph s' =
          if w.start < w.la then
            if w.start = ph.pVa + ph.pMemsz then .ok (0, u')
            else zeroTail (ph.pVa + ph.pMemsz) w u' >>= fun next =>
              loadBss M fuel r (permOf (vmFlagsOf ph.pFlags)) (ph.pVa + ph.pMemsz) next.1 next.2
          else loadBss M fuel r (permOf (vmFlagsOf ph.pFlags)) (ph.pVa + ph.pMemsz) w u' := by
        rw [loadPages]
        dsimp only
        rw [endFile, endMem, file', ok_bind]
        rfl
      have bss : ∀ a, w.start ≤ a → a < ph.pVa + ph.pMemsz → segmentByte bin ph a = 0 := fun a low _ =>
        segmentByte_bss (ends.ge.trans low)
      dsimp only at rest
      rw [begun]
      by_cases short : w.start < w.la
      · rw [if_pos short] at rest ⊢
        by_cases done : w.start = ph.pVa + ph.pMemsz
        · rw [if_pos done] at rest ⊢
          cases rest
          exact ⟨u', role₁, rfl, filled₁.grows.counted, twin₁⟩
        · rw [if_neg done] at rest ⊢
          obtain ⟨v, clear, filled₂⟩ := zeroTail_filled filled₁ root inUser top short (by omega) bss
          obtain ⟨p, last, -, data, -⟩ := filled₁.page short
          obtain ⟨v', clear', twin₂⟩ := zeroTail_twin twin₁ filled₁.grows.counted (fun q isLast => by
            rw [last] at isLast
            cases isLast
            exact data) clear
          rw [clear, ok_bind] at rest
          rw [clear', ok_bind]
          refine loadBss_twin twin₂ filled₂ root (permOf_lt _) inUser alignedHi top (min_le_left ..) ?_
            (fun a low high => ?_)
            rest
          · dsimp only
            omega
          · dsimp only at low
            exact segmentByte_bss (by omega)
      · rw [if_neg short] at rest ⊢
        exact loadBss_twin twin₁ filled₁ root (permOf_lt _) inUser alignedHi top (by omega)
          (fun _ => not_lt.mp short) bss
          rest

/-- A segment that one machine loads is loaded in the other. -/
theorem loadSegment_twin (twin : Twin role s s') (loading : Loading M roots r mm s role)
    (small : ph.pVa + ph.pMemsz < 2 ^ 64) (run : loadSegment M bin fuel memory ph mm s = .ok (0, mm', t)) :
    ∃ t' role', loadSegment M bin fuel memory ph mm s' = .ok (0, mm', t') ∧ Loading M roots r mm' t role' ∧
      Twin role' t t' := by
  have known := run
  rcases loadSegment_loading loading small with ⟨_, _, _, role₁, run₁, loading₁, -⟩ | ⟨e, stops, -⟩
  · rw [run₁] at known
    cases known
    unfold loadSegment at run ⊢
    by_cases trimmed : ph.pMemsz < ph.pFilesz
    · rw [if_pos trimmed] at run
      cases run
    rw [if_neg trimmed] at run ⊢
    rcases mmMap_cases loading.sound small (vmFlagsOf ph.pFlags) memory with
      ⟨stops, -⟩ | ⟨ret, _, maps, negative, -⟩ | ⟨mm₁, maps, fits, -, -, pgdir⟩
    · rw [stops] at run
      cases run
    · rw [maps, ok_bind] at run
      dsimp only at run
      rw [if_pos negative.ne] at run
      cases run
      cases negative
    · rw [maps, ok_bind] at run ⊢
      dsimp only at run ⊢
      rw [if_neg (by simp), pgdir, loading.pgdir] at run ⊢
      obtain ⟨⟨ret, u⟩, pages, rest⟩ := bind_ok.mp run
      cases rest
      have alignedHi : roundUp (ph.pVa + ph.pMemsz) PGSIZE % PGSIZE = 0 :=
        (show AreaOk ⟨_, _, 0⟩ from areaOk_of_fits fits).1.2
      have top : ph.pVa + ph.pMemsz ≤ roundUp (ph.pVa + ph.pMemsz) PGSIZE := by
        simp only [roundUp, roundDown, PGSIZE]
        omega
      obtain ⟨t', role₂, pages', counted₂, twin₂⟩ :=
        loadPages_twin twin loading.counted loading.root fits.user.2 alignedHi
        (not_lt.mp trimmed) top (loading.unmapped fits) pages
      refine ⟨t', role₁, ?_, loading₁, twin₂.congr counted₂ loading₁.counted⟩
      rw [pages', ok_bind]
      rfl
  · rw [stops] at known
    cases known

theorem loadSegments_twin (twin : Twin role s s') (loading : Loading M roots r mm s role)
    (last : addr + 56 * count < 2 ^ 64) (straight : Straight bin addr count)
    (run : loadSegments M bin fuel kmalloc (addr + 56 * count) (count + 1) addr mm s = .ok (0, mm', t)) :
    ∃ t' role', loadSegments M bin fuel kmalloc (addr + 56 * count) (count + 1) addr mm s' = .ok (0, mm', t') ∧
      Loading M roots r mm' t role' ∧ Twin role' t t' := by
  induction count generalizing addr mm s s' role with
  | zero =>
      rw [loadSegments, if_neg (by simp)] at run ⊢
      cases run
      exact ⟨s', role, rfl, loading, twin⟩
  | succ count ih =>
      have next : wrap (addr + 56) = addr + 56 := wrap_small (by omega)
      have ends : addr + 56 * (count + 1) = addr + 56 + 56 * count := by omega
      have straight' : Straight bin (addr + 56) count := fun i inside ph loadable =>
        straight (i + 1) (by omega) ph (by rwa [show addr + 56 * (i + 1) = addr + 56 + 56 * i from by omega])
      rw [loadSegments, if_pos (by omega), next, ends] at run ⊢
      obtain ⟨pType, read, rest⟩ := bind_ok.mp run
      rw [read, ok_bind]
      by_cases load : pType = ELF_PT_LOAD
      · rw [if_neg (not_not.mpr load)] at rest ⊢
        obtain ⟨header, fields, rest⟩ := bind_ok.mp rest
        have small : header.pVa + header.pMemsz < 2 ^ 64 := by
          have same := proghdr_pType fields
          rw [read] at same
          cases same
          exact straight 0 (by omega) header ⟨fields, load⟩
        obtain ⟨⟨ret, mm₁, u⟩, segment, rest⟩ := bind_ok.mp rest
        dsimp only at rest
        by_cases zero : ret = 0
        · subst zero
          rw [if_neg (by simp)] at rest
          obtain ⟨u', role₁, segment', loading₁, twin₁⟩ := loadSegment_twin twin loading small segment
          obtain ⟨t', role₂, rest', done⟩ := ih twin₁ loading₁ (by omega) straight' rest
          refine ⟨t', role₂, ?_, done⟩
          rw [fields, ok_bind, segment', ok_bind]
          dsimp only
          rw [if_neg (by simp)]
          exact rest'
        · rw [if_pos zero] at rest
          cases rest
          exact absurd rfl zero
      · rw [if_pos load] at rest ⊢
        exact ih twin loading (by omega) straight' rest

theorem stackPages_twin {numbers : List Nat} (twin : Twin role s s') (counted : Counted M roots 0 s role)
    (root : r ∈ roots)
    (nodup : numbers.Nodup) (range : ∀ n ∈ numbers, 1 ≤ n ∧ n ≤ 256)
    (unmapped : ∀ n ∈ numbers, isValid (pteOf s r (USTACKTOP - n * PGSIZE)) = false)
    (run : stackPages M r numbers s = .ok t) :
    ∃ t' role', stackPages M r numbers s' = .ok t' ∧ Counted M roots 0 t role' ∧ Twin role' t t' := by
  induction numbers generalizing s s' role with
  | nil =>
      cases run
      exact ⟨s', role, rfl, counted, twin⟩
  | cons number rest ih =>
      rw [List.forall_mem_cons] at range unmapped
      rw [List.nodup_cons] at nodup
      have user := stackPage_lt range.1
      rw [stackPages] at run ⊢
      obtain ⟨⟨page, u⟩, alloc, run⟩ := bind_ok.mp run
      obtain ⟨_, given, run⟩ := bind_ok.mp run
      rcases pgdirAllocPage_spec counted root user PTE_USER_lt unmapped.1 with
        ⟨stops, -⟩ | ⟨_, _, none, -⟩ | ⟨p, _, role₁, some, adds⟩
      · rw [stops] at alloc
        cases alloc
      · rw [none] at alloc
        cases alloc
        cases given
      · rw [some] at alloc
        cases alloc
        obtain ⟨u', alloc', twin₁⟩ := pgdirAllocPage_twin twin counted root user unmapped.1 adds some
        obtain ⟨t', role₂, run', done⟩ := ih twin₁ adds.grows.counted nodup.2 range.2 (fun n member => by
          rw [adds.entry r root _ (stackPage_lt (range.2 n member)), if_neg]
          · exact unmapped.2 n member
          · rintro ⟨-, same⟩
            exact nodup.1 (stackPage_page (range.2 n member) range.1 same ▸ member)) run
        refine ⟨t', role₂, ?_, done⟩
        rw [alloc', ok_bind]
        dsimp only
        rw [given, ok_bind]
        exact run'

/-! ## Two machines before the call -/

variable (M) in
/-- Two machines that differ in what free pages hold, if at all. -/
structure SameButFree (s s' : Machine σ) : Prop where
  pmm : s'.pmm = s.pmm
  ref : s'.ref = s.ref
  swapInitOk : s'.swapInitOk = s.swapInitOk
  swap : s'.swap = s.swap
  frees : s'.frees = s.frees
  freedWords : s'.freedWords = s.freedWords
  mem : ∀ q, ¬M.Free s.pmm q → s'.mem q = s.mem q

/-- The byte at an address, if the process has access to it. -/
def visibleByte (s : Machine σ) (r la : Nat) : Option UInt8 :=
  if hasFlags (pteOf s r la) PTE_U then userByte s r la else none

variable (M) in
/-- What a process can see of its memory does not depend on what free pages held. -/
def Noninterfering (bootPgdir : Nat) (bin : Image) (fuel : Nat) (kmalloc : Nat → Bool) (current : ProcStruct)
    (s : Machine σ) : Prop :=
  ∀ s', SameButFree M s s' → ∀ next t next' t', loadIcode M bootPgdir bin fuel kmalloc current s = .ok (0, next, t) →
    loadIcode M bootPgdir bin fuel kmalloc current s' = .ok (0, next', t') → ∀ mm mm', next.mm = some mm →
    next'.mm = some mm' → ∀ la < USERTOP, visibleByte t' mm'.pgdir la = visibleByte t mm.pgdir la

variable {bootPgdir pgdir off num : Nat}

namespace SameButFree

variable (similar : SameButFree M s s') (counted : Counted M roots 0 s role)

include similar counted

theorem mem_eq {q : Nat} (used : role q ≠ .free) : s'.mem q = s.mem q :=
  similar.mem q fun free => used ((counted.layout.free q).mp free)

theorem twin : Twin role s s' where
  pmm := similar.pmm
  ref := similar.ref
  swapInitOk := similar.swapInitOk
  tables q upper := by
    refine similar.mem_eq counted fun free => ?_
    rw [free] at upper
    rcases upper with upper | upper <;> cases upper

end SameButFree

theorem setupPgdir_twin (twin : Twin role s s') (boot : s'.mem bootPgdir = s.mem bootPgdir)
    (run : setupPgdir M bootPgdir s = .ok (some pgdir, t)) :
    ∃ t', setupPgdir M bootPgdir s' = .ok (some pgdir, t') ∧ Twin (Function.update role pgdir .root) t t' := by
  obtain ⟨pmm, given, rfl⟩ := setupPgdir_some.mp run
  refine ⟨_, setupPgdir_some.mpr ⟨pmm, ?_, rfl⟩, rfl, twin.ref, twin.swapInitOk, fun q upper => ?_⟩
  · rw [twin.pmm]
    exact given
  · rw [boot]
    by_cases here : q = pgdir
    · simp [Machine.setPage, here]
    · rw [Function.update_of_ne here] at upper
      simp [Machine.setPage, here, twin.tables q upper]

/-- The headers of an image, none of whose segments wraps around. -/
structure Unwrapped (bin : Image) (off num : Nat) : Prop where
  phoff : bin.field (wrap (bin.binary + 32)) 8 = .ok off
  phnum : bin.field (wrap (bin.binary + 56)) 2 = .ok num
  headers : bin.binary + off + 56 * num < 2 ^ 64
  straight : Straight bin (bin.binary + off) num

namespace Unwrapped

variable (unwrapped : Unwrapped bin off num)

include unwrapped

theorem first_eq : wrap (bin.binary + off) = bin.binary + off :=
  wrap_small ((Nat.le_add_right ..).trans_lt unwrapped.headers)

theorem last_eq : wrap (bin.binary + off + 56 * num) = bin.binary + off + 56 * num := wrap_small unwrapped.headers

end Unwrapped

variable {current next : ProcStruct}

/-- A call that succeeds in one machine succeeds in the other, with the same page table. -/
theorem loadIcode_twin (counted : Counted M roots 0 s role) (used : role bootPgdir ≠ .free)
    (boot : ∀ i < 2, target (s.load ⟨bootPgdir, i⟩) = none) (unwrapped : Unwrapped bin off num)
    (similar : SameButFree M s s') (run : loadIcode M bootPgdir bin fuel kmalloc current s = .ok (0, next, t)) :
    ∃ t' mm, loadIcode M bootPgdir bin fuel kmalloc current s' = .ok (0, next, t') ∧ next.mm = some mm ∧
      ∀ la < USERTOP, pteOf t' mm.pgdir la = pteOf t mm.pgdir la := by
  obtain ⟨pgdir, first, off', num', mm₁, s₁, mm₂, steps⟩ := loadIcode_zero.mp run
  obtain rfl : off = off' := Except.ok.inj (unwrapped.phoff.symm.trans steps.phoff)
  obtain rfl : num = num' := Except.ok.inj (unwrapped.phnum.symm.trans steps.phnum)
  have loading := setupPgdir_loading counted boot steps.setup s.swapInitOk
  obtain ⟨first', setup', twin⟩ := setupPgdir_twin (similar.twin counted) (similar.mem_eq counted used) steps.setup
  have segments := steps.segments
  rw [unwrapped.first_eq, unwrapped.last_eq] at segments
  obtain ⟨s₁', role₁, segments', loading₁, twin₁⟩ := loadSegments_twin twin loading unwrapped.headers unwrapped.straight
    segments
  obtain ⟨vma, maps⟩ := steps.maps
  obtain ⟨loading₂, unmapped⟩ := stack_loading loading₁ maps
  have stack := steps.stack
  rw [loading₂.pgdir] at stack
  obtain ⟨t', role₂, stack', counted₂, twin₂⟩ :=
    stackPages_twin twin₁ loading₁.counted loading₁.root (by decide) (by decide)
    unmapped stack
  obtain ⟨entry, -, result⟩ := steps.result
  refine ⟨t', mm₂, loadIcode_zero.mpr ⟨pgdir, first', off, num, mm₁, s₁', mm₂,
    { steps with setup := setup', segments := ?_, stack := ?_ }⟩, by rw [result], fun la user => ?_⟩
  · rw [unwrapped.first_eq, unwrapped.last_eq, similar.swapInitOk]
    exact segments'
  · rw [loading₂.pgdir]
    exact stack'
  · rw [loading₂.pgdir]
    exact twin₂.pteOf counted₂ loading₁.root user

/-- What is mapped after a call that succeeds: pages that were free, which hold the segments, and
    beside these what they held before. -/
theorem loadIcode_bytes (counted : Counted M roots 0 s role) (boot : ∀ i < 2, target (s.load ⟨bootPgdir, i⟩) = none)
    (unwrapped : Unwrapped bin off num) (run : loadIcode M bootPgdir bin fuel kmalloc current s = .ok (0, next, t)) :
    ∃ mm, next.mm = some mm ∧ (∀ la < USERTOP, ∀ p, target (pteOf t mm.pgdir la) = some p → M.Free s.pmm p ∧
        (InSegment bin (bin.binary + off) num la ∨
          pageBlock (t.mem p) (la % PGSIZE) = pageBlock (s.mem p) (la % PGSIZE))) ∧
      (∀ i < num, ∀ ph, Loadable bin (bin.binary + off + 56 * i) ph → ∀ la < USERTOP, ph.pVa ≤ la →
        la < ph.pVa + ph.pMemsz → userByte t mm.pgdir la = some (segmentByte bin ph la)) ∧
      ∀ n ∈ [1, 2, 3, 4], ¬InSegment bin (bin.binary + off) num (USTACKTOP - n * PGSIZE) ∧
        ∃ p, pteOf t mm.pgdir (USTACKTOP - n * PGSIZE) = pteCreate p (PTE_V ||| PTE_USER) := by
  obtain ⟨pgdir, first, off', num', mm₁, s₁, mm₂, steps⟩ := loadIcode_zero.mp run
  obtain rfl : off = off' := Except.ok.inj (unwrapped.phoff.symm.trans steps.phoff)
  obtain rfl : num = num' := Except.ok.inj (unwrapped.phnum.symm.trans steps.phnum)
  have loading := setupPgdir_loading counted boot steps.setup s.swapInitOk
  have segments := steps.segments
  rw [unwrapped.first_eq, unwrapped.last_eq] at segments
  obtain ⟨role₁, loading₁, grows₁, negative | ⟨-, leaves₁, inMemory⟩⟩ :=
    loadSegments_loading loading unwrapped.headers unwrapped.straight segments
  · cases negative
  obtain ⟨vma, maps⟩ := steps.maps
  obtain ⟨loading₂, unmapped⟩ := stack_loading loading₁ maps
  have stack := steps.stack
  rw [loading₂.pgdir] at stack
  obtain ⟨role₂, grows₂, leaves₂, pages⟩ :=
    stackPages_grows loading₁.counted loading₁.root (by decide) (by decide) unmapped
    stack
  have leaves := leaves₁.trans grows₁ leaves₂
  obtain ⟨entry, -, result⟩ := steps.result
  have stackRange : ∀ n ∈ [1, 2, 3, 4], 1 ≤ n ∧ n ≤ 256 := by decide
  refine ⟨mm₂, by rw [result], fun la user p here => ?_, fun i inside ph loadable la user low high => ?_,
    fun n member => ⟨?_, ?_⟩⟩
  · rw [loading₂.pgdir] at here
    obtain ⟨pmm, given, rfl⟩ := setupPgdir_some.mp steps.setup
    have isFree : Function.update role pgdir Role.root p = .free := by
      refine (leaves.fresh la user p here).resolve_left fun before => ?_
      obtain ⟨b, member, -⟩ := loading.covered la user (target_some.mp before).1
      simp [mmCreate] at member
    have other : p ≠ pgdir := by
      rintro rfl
      simp at isFree
    rw [Function.update_of_ne other] at isFree
    refine ⟨(counted.layout.free p).mpr isFree, ?_⟩
    rcases leaves.old la user p here with (part | none) | same
    · exact .inl part
    · exact none.elim
    · rw [same]
      right
      simp [Machine.setPage, other]
  · have before := inMemory i inside ph loadable la low high
    rw [loading₂.pgdir, userByte_grows grows₂ loading₁.counted loading₁.root user (valid_of_userByte before), before]
  · rintro ⟨i, inside, ph, loadable, low, high⟩
    have valid := valid_of_userByte (inMemory i inside ph loadable _ low high)
    rw [unmapped n member] at valid
    cases valid
  · rw [loading₂.pgdir]
    exact pages n member

/-- After a successful call for two machines that differ in what free pages held, the same pages
    are mapped at the same addresses. They were free. Each byte of a segment is the same in both
    machines, and any other byte, be it beside a segment or on the stack, is in each machine as
    the page held it before. -/
theorem loadIcode_alike (counted : Counted M roots 0 s role) (used : role bootPgdir ≠ .free)
    (boot : ∀ i < 2, target (s.load ⟨bootPgdir, i⟩) = none) (unwrapped : Unwrapped bin off num)
    (similar : SameButFree M s s') (run : loadIcode M bootPgdir bin fuel kmalloc current s = .ok (0, next, t)) :
    ∃ t' mm, loadIcode M bootPgdir bin fuel kmalloc current s' = .ok (0, next, t') ∧ next.mm = some mm ∧
      ∀ la < USERTOP, pteOf t' mm.pgdir la = pteOf t mm.pgdir la ∧ ∀ p, target (pteOf t mm.pgdir la) = some p →
        M.Free s.pmm p ∧
        (InSegment bin (bin.binary + off) num la → userByte t' mm.pgdir la = userByte t mm.pgdir la) ∧
        (¬InSegment bin (bin.binary + off) num la →
          userByte t mm.pgdir la = some (pageBlock (s.mem p) (la % PGSIZE)) ∧
          userByte t' mm.pgdir la = some (pageBlock (s'.mem p) (la % PGSIZE))) := by
  obtain ⟨t', mm, run', isMm, same⟩ := loadIcode_twin counted used boot unwrapped similar run
  have boot' : ∀ i < 2, target (s'.load ⟨bootPgdir, i⟩) = none := by
    intro i inside
    rw [Machine.load, similar.mem_eq counted used]
    exact boot i inside
  obtain ⟨_, isMm₁, bytes, segments, -⟩ := loadIcode_bytes counted boot unwrapped run
  obtain ⟨_, isMm₂, bytes', segments', -⟩ :=
    loadIcode_bytes ((similar.twin counted).counted counted) boot' unwrapped run'
  rw [isMm] at isMm₁ isMm₂
  cases isMm₁
  cases isMm₂
  refine ⟨t', mm, run', isMm, fun la user => ⟨same la user, fun p maps => ?_⟩⟩
  have maps' : target (pteOf t' mm.pgdir la) = some p := by rw [same la user, maps]
  refine ⟨(bytes la user p maps).1, ?_, fun beside => ⟨?_, ?_⟩⟩
  · rintro ⟨i, inside, ph, loadable, low, high⟩
    rw [segments i inside ph loadable la user low high, segments' i inside ph loadable la user low high]
  · rw [userByte_some maps, (bytes la user p maps).2.resolve_left beside]
  · rw [userByte_some maps', (bytes' la user p maps').2.resolve_left beside]

theorem visibleByte_stack {n : Nat} (entry : pteOf s r (USTACKTOP - n * PGSIZE) = pteCreate p (PTE_V ||| PTE_USER)) :
    target (pteOf s r (USTACKTOP - n * PGSIZE)) = some p ∧
      visibleByte s r (USTACKTOP - n * PGSIZE) = some (pageBlock (s.mem p) ((USTACKTOP - n * PGSIZE) % PGSIZE)) := by
  have user : hasFlags (pteCreate p (PTE_V ||| PTE_USER)) PTE_U = true := by
    rw [show PTE_U = 2 ^ 4 from rfl, hasFlags_bit, pteCreate_testBit (by decide)]
    decide
  have maps : target (pteOf s r (USTACKTOP - n * PGSIZE)) = some p := by
    rw [entry]
    exact target_pteCreate (by decide)
  refine ⟨maps, ?_⟩
  rw [visibleByte, entry, if_pos user, userByte_some maps]

section OneSegment

open Mm.RefCounts

theorem smallImage_unwrapped : Unwrapped smallImage 64 1 where
  phoff := smallImage_formed.phoff
  phnum := smallImage_formed.phnum
  headers := by decide +kernel
  straight := smallImage_formed.straight

/-- The free pages of a machine with 50 of them are full of ones. -/
def littered : Machine PageList :=
  { (booted 50 (by decide)).machine with mem := fun q _ => if 100 ≤ q ∧ q < 150 then 1 else 0 }

theorem sameButFree_littered : SameButFree lowestFirst (booted 50 (by decide)).machine littered where
  pmm := rfl
  ref := rfl
  swapInitOk := rfl
  swap := rfl
  frees := rfl
  freedWords := rfl
  mem q used := by
    funext i
    exact if_neg fun inside => used (List.mem_range'_1.mpr inside)

theorem littered_page (free : lowestFirst.Free (booted 50 (by decide)).machine.pmm p) (off : Nat) :
    pageBlock ((booted 50 (by decide)).machine.mem p) off = 0 ∧ (off % 8 = 0 → pageBlock (littered.mem p) off = 1) := by
  have inside : 100 ≤ p ∧ p < 150 := List.mem_range'_1.mp free
  refine ⟨?_, fun aligned => ?_⟩
  · rw [pageBlock, show (booted 50 (by decide)).machine.mem p (off / 8) = 0 from rfl, Nat.zero_div]
    rfl
  · rw [pageBlock, show littered.mem p (off / 8) = 1 from if_pos inside, aligned]
    rfl

/-- The bytes of the file are the same in zeroed and in littered memory, those in front of them
    are not. -/
theorem loadIcode_alike_small : ∃ (next : ProcStruct) (t t' : Machine PageList) (mm : MmStruct),
    loadIcode lowestFirst 0 smallImage 10 (fun _ => true) idle (booted 50 (by decide)).machine = .ok (0, next, t) ∧
      loadIcode lowestFirst 0 smallImage 10 (fun _ => true) idle littered = .ok (0, next, t') ∧ next.mm = some mm ∧
      userByte t' mm.pgdir 0x800ffd = userByte t mm.pgdir 0x800ffd ∧
      userByte t mm.pgdir 0x800ff8 = some 0 ∧ userByte t' mm.pgdir 0x800ff8 = some 1 := by
  obtain ⟨next, t, run⟩ := smallImage_loads
  obtain ⟨role, inv⟩ : ∃ role, Inv lowestFirst 0 (booted 50 (by decide)) role :=
    Inv.start (booted_initial 50 (by decide))
  have header : Loadable smallImage (smallImage.binary + 64 + 56 * 0) smallSegment := ⟨smallImage_fields.2.2.2, rfl⟩
  obtain ⟨t', mm, run', isMm, alike⟩ :=
    loadIcode_alike inv.counted (by simp [inv.boot]) inv.user smallImage_unwrapped sameButFree_littered run
  obtain ⟨mm₁, isMm₁, -, segment, -⟩ := loadIcode_bytes inv.counted inv.user smallImage_unwrapped run
  rw [isMm] at isMm₁
  cases isMm₁
  have byte := segment 0 (by decide) smallSegment header 0x800ffd (by decide +kernel) (by decide) (by decide)
  obtain ⟨p, maps, -⟩ := Option.map_eq_some_iff.mp byte
  obtain ⟨-, within⟩ := alike 0x800ffd (by decide +kernel)
  obtain ⟨free, same, -⟩ := within p maps
  have page : target (pteOf t mm.pgdir 0x800ff8) = some p := by
    rw [← pteOf_page, show 0x800ff8 / PGSIZE = 0x800ffd / PGSIZE by decide +kernel, pteOf_page, maps]
  obtain ⟨-, -, beside⟩ := (alike 0x800ff8 (by decide +kernel)).2 p page
  have outside : ¬InSegment smallImage (smallImage.binary + 64) 1 0x800ff8 := by
    rintro ⟨i, inside, ph, loadable, low, -⟩
    obtain rfl : i = 0 := by omega
    obtain rfl : ph = smallSegment := Except.ok.inj (loadable.1.symm.trans header.1)
    exact absurd low (by decide)
  obtain ⟨zero, one⟩ := beside outside
  rw [(littered_page free _).1] at zero
  rw [(littered_page free _).2 (by decide +kernel)] at one
  exact ⟨next, t, t', mm, run, run', isMm, same ⟨0, by decide, smallSegment, header, by decide, by decide⟩, zero, one⟩

/-- A page of the stack shows whether memory was littered. -/
theorem smallStack_differs :
    ¬Noninterfering lowestFirst 0 smallImage 10 (fun _ => true) idle (booted 50 (by decide)).machine := by
  intro always
  obtain ⟨next, t, run⟩ := smallImage_loads
  obtain ⟨role, inv⟩ : ∃ role, Inv lowestFirst 0 (booted 50 (by decide)) role :=
    Inv.start (booted_initial 50 (by decide))
  have used : role 0 ≠ .free := by simp [inv.boot]
  have twin := sameButFree_littered.twin inv.counted
  have boot' : ∀ i < 2, target (littered.load ⟨0, i⟩) = none := fun _ _ => target_zero
  obtain ⟨t', mm, run', isMm, same⟩ :=
    loadIcode_twin inv.counted used inv.user smallImage_unwrapped sameButFree_littered run
  obtain ⟨_, isMm₁, bytes, -, stack⟩ := loadIcode_bytes inv.counted inv.user smallImage_unwrapped run
  obtain ⟨_, isMm₂, bytes', -⟩ := loadIcode_bytes (twin.counted inv.counted) boot' smallImage_unwrapped run'
  rw [isMm] at isMm₁ isMm₂
  cases isMm₁
  cases isMm₂
  obtain ⟨beside, p, entry⟩ := stack 1 (by decide)
  have user : USTACKTOP - 1 * PGSIZE < USERTOP := stackPage_lt (by decide)
  have entry' : pteOf t' mm.pgdir (USTACKTOP - 1 * PGSIZE) = pteCreate p (PTE_V ||| PTE_USER) := by
    rw [same _ user, entry]
  obtain ⟨maps, shown⟩ := visibleByte_stack entry
  obtain ⟨maps', shown'⟩ := visibleByte_stack entry'
  obtain ⟨free, old⟩ := bytes _ user p maps
  obtain ⟨-, old'⟩ := bytes' _ user p maps'
  have equal := always littered sameButFree_littered next t next t' run run' mm mm isMm isMm _ user
  rw [shown, shown', old.resolve_left beside, old'.resolve_left beside, (littered_page free _).1,
    (littered_page free _).2 (by decide +kernel)] at equal
  exact absurd equal (by decide)

end OneSegment

end Ucore.Process.OldMemory
