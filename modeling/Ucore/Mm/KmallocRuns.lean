import Ucore.Lib.Run
import Ucore.Mm.KmallocSizes

/-! # Runs of `kmalloc` and `kfree`

Any calls in any order, where `kfree` gets pointers that `kmalloc` has returned and that were
not freed since. The heap is sound after each of them, and each of them comes to an end.
-/

namespace Ucore.Mm.KmallocRuns

open Lib.Extents Lib.Run Libs.Assert Kmalloc SlobHeap KmallocHeap KmallocSizes

variable {σ : Type} {M : PageAllocator σ}

/-- The allocator, and the pointers that are in use. -/
structure State (σ : Type) where
  slob : Slob σ
  live : List Nat

inductive Call
  | kmalloc (size : Nat)
  | kfree (block : Option Nat)

def exec (M : PageAllocator σ) (fuel : Nat) (s : State σ) : Call → Result (State σ)
  | .kmalloc size => do
      let (block, slob) ← kmalloc M fuel size s.slob
      pure ⟨slob, block.toList ++ s.live⟩
  | .kfree block => do
      let slob ← kfree M fuel block s.slob
      pure ⟨slob, block.elim s.live s.live.erase⟩

/-- A size of at least one byte that the assertion of `slob_alloc` lets through, and pointers in use. -/
def Legal (s : State σ) : Call → Prop
  | .kmalloc size => 1 ≤ size ∧ (size + SLOB_UNIT + SLOB_UNIT < PAGE_SIZE ∨ PAGE_SIZE ≤ size + SLOB_UNIT)
  | .kfree block => ∀ p, block = some p → p ∈ s.live

def Step (M : PageAllocator σ) (s t : State σ) : Prop := ∃ c fuel, Legal s c ∧ exec M fuel s c = .ok t

/-- The static variables, with the pages above them. -/
structure Initial (M : PageAllocator σ) (arena : Nat) (s : State σ) : Prop where
  next : s.slob.next arena = arena
  units : s.slob.units arena = 1
  slobfree : s.slob.slobfree = arena
  bigblocks : s.slob.bigblocks = []
  held : M.held s.slob.pmm = 0
  above : ∀ q, M.Free s.slob.pmm q → arena + 1 < q * pageUnits
  live : s.live = []

variable {s t : Slob σ} {arena page : Nat} {bs : List Extent} {objs : List Object} {e : Extent} {fuel fuel' : Nat}

/-! ## Fuel -/

theorem findPlace_mono {b cur r : Nat} (run : findPlace b s fuel cur = .ok r) (more : fuel ≤ fuel') :
    findPlace b s fuel' cur = .ok r := by
  induction fuel generalizing cur fuel' with
  | zero => cases run
  | succ fuel ih =>
      obtain ⟨fuel', rfl⟩ := Nat.exists_eq_succ_of_ne_zero (Nat.ne_zero_of_lt more)
      rw [findPlace] at run ⊢
      split at run
      · rwa [if_pos ‹_›]
      · rw [if_neg ‹_›]
        split at run
        · rwa [if_pos ‹_›]
        · rw [if_neg ‹_›]
          exact ih run (Nat.le_of_succ_le_succ more)

theorem slobFree_mono {b size : Nat} (run : slobFree fuel b size s = .ok t) (more : fuel ≤ fuel') :
    slobFree fuel' b size s = .ok t := by
  rw [slobFree] at run ⊢
  obtain ⟨cur, found, rest⟩ := bind_ok.mp run
  exact bind_ok.mpr ⟨cur, findPlace_mono found more, rest⟩

theorem slobAllocLoop_mono {size align prev cur : Nat} {r : Option Nat × Slob σ}
    (run : slobAllocLoop M size align fuel prev cur s = .ok r) (more : fuel ≤ fuel') :
    slobAllocLoop M size align fuel' prev cur s = .ok r := by
  induction fuel generalizing prev cur s fuel' with
  | zero => cases run
  | succ fuel ih =>
      obtain ⟨fuel', rfl⟩ := Nat.exists_eq_succ_of_ne_zero (Nat.ne_zero_of_lt more)
      have more := Nat.le_of_succ_le_succ more
      rw [slobAllocLoop] at run ⊢
      dsimp only at run ⊢
      generalize (if align ≠ 0 then alignUp cur align - cur else 0) = delta at run ⊢
      split at run
      · rwa [if_pos ‹_›]
      rw [if_neg ‹_›]
      split at run
      · rw [if_pos ‹_›]
        split at run
        · rwa [if_pos ‹_›]
        rw [if_neg ‹_›]
        cases given : slobGetFreePages M 0 s with
        | mk page u =>
            rw [given] at run
            cases page with
            | none => exact run
            | some page =>
                obtain ⟨v, freed, rest⟩ := bind_ok.mp run
                exact bind_ok.mpr ⟨v, slobFree_mono freed more, ih rest more⟩
      · rw [if_neg ‹_›]
        exact ih run more

theorem slobAlloc_mono {size align : Nat} {r : Option Nat × Slob σ} (run : slobAlloc M fuel size align s = .ok r)
    (more : fuel ≤ fuel') : slobAlloc M fuel' size align s = .ok r := by
  rw [slobAlloc] at run ⊢
  obtain ⟨_, checked, rest⟩ := bind_ok.mp run
  exact bind_ok.mpr ⟨_, checked, slobAllocLoop_mono rest more⟩

theorem kmalloc_mono {size : Nat} {r : Option Nat × Slob σ} (run : kmalloc M fuel size s = .ok r)
    (more : fuel ≤ fuel') :
    kmalloc M fuel' size s = .ok r := by
  rw [kmalloc] at run ⊢
  split at run
  · rw [if_pos ‹_›]
    obtain ⟨given, alloc, rest⟩ := bind_ok.mp run
    exact bind_ok.mpr ⟨given, slobAlloc_mono alloc more, rest⟩
  · rw [if_neg ‹_›]
    obtain ⟨given, alloc, rest⟩ := bind_ok.mp run
    refine bind_ok.mpr ⟨given, slobAlloc_mono alloc more, ?_⟩
    cases given with
    | mk bb u =>
        cases bb with
        | none => exact rest
        | some bb =>
            dsimp only at rest ⊢
            cases pages : slobGetFreePages M (findOrder (toInt size)) u with
            | mk given v =>
                rw [pages] at rest
                cases given with
                | some page => exact rest
                | none =>
                    obtain ⟨w, freed, end'⟩ := bind_ok.mp rest
                    exact bind_ok.mpr ⟨w, slobFree_mono freed more, end'⟩

theorem kfree_mono {block : Option Nat} (run : kfree M fuel block s = .ok t) (more : fuel ≤ fuel') :
    kfree M fuel' block s = .ok t := by
  cases block with
  | none => exact run
  | some block =>
      rw [kfree] at run ⊢
      dsimp only at run ⊢
      split at run
      · exact slobFree_mono run more
      · exact slobFree_mono run more

theorem exec_mono {s t : State σ} {c : Call} (run : exec M fuel s c = .ok t) (more : fuel ≤ fuel') :
    exec M fuel' s c = .ok t := by
  cases c with
  | kmalloc size =>
      obtain ⟨r, alloc, rest⟩ := bind_ok.mp run
      exact bind_ok.mpr ⟨r, kmalloc_mono alloc more, rest⟩
  | kfree block =>
      obtain ⟨r, freed, rest⟩ := bind_ok.mp run
      exact bind_ok.mpr ⟨r, kfree_mono freed more, rest⟩

/-! ## `kfree` -/

/-- The large object's record with its size written down again, and its pages given back. -/
def parted (M : PageAllocator σ) (s : Slob σ) (e : Extent) (order page : Nat) : Slob σ :=
  { s.setUnits e.base e.len with
    bigblocks := s.bigblocks.eraseP (·.pages = page * pageUnits), pmm := M.freePages s.pmm page (2 ^ order) }

theorem detach {order : Nat} (heap : Heap M s arena bs (.large e order page :: objs)) :
    Heap M (parted M s e order page) arena bs (.small e :: objs) := by
  have shape : extents (.large e order page :: objs) =
    e :: ⟨page * pageUnits, 2 ^ order * pageUnits⟩ :: extents objs := rfl
  have shape' : extents (.small e :: objs) = e :: extents objs := rfl
  generalize whole : (⟨page * pageUnits, 2 ^ order * pageUnits⟩ : Extent) = p at shape
  have positive := shape ▸ heap.positive
  have apart := shape ▸ heap.apart
  obtain ⟨first, others⟩ := List.pairwise_cons.mp apart
  obtain ⟨second, rest⟩ := List.pairwise_cons.mp others
  have inside : ∀ {f}, f ∈ e :: extents objs → f ∈ extents (.large e order page :: objs) := by
    intro f member
    rw [shape]
    rcases List.mem_cons.mp member with rfl | member
    · exact List.mem_cons_self
    · exact List.mem_cons_of_mem _ (List.mem_cons_of_mem _ member)
  have record : e.len = slobUnits SIZEOF_BIGBLOCK := heap.sized _ List.mem_cons_self
  have filled : 0 < e.len := by
    rw [record]
    decide
  have start : e.base ∈ e := ⟨le_rfl, Nat.lt_add_of_pos_right filled⟩
  have mine : p ∈ extents (.large e order page :: objs) := by
    rw [shape]
    exact List.mem_cons_of_mem _ List.mem_cons_self
  -- A page that was given back holds no unit of another object or block.
  have freed : ∀ q, M.Free (M.freePages s.pmm page (2 ^ order)) q →
      M.Free s.pmm q ∨ ∀ i, i / pageUnits = q → i ∈ p := by
    intro q isFree
    refine (M.free_pages isFree).imp_right fun between i same => ?_
    rw [← whole, mem_page, same]
    exact between
  have off : ∀ f ∈ e :: extents objs, ∀ i ∈ f, i ∉ p := by
    intro f member i inF inP
    have one := positive p (shape ▸ mine)
    rcases List.mem_cons.mp member with rfl | member
    · exact (Extent.apart_iff_disjoint filled one).mp (first p List.mem_cons_self) i ⟨inF, inP⟩
    · have two := positive f (shape ▸ inside (List.mem_cons_of_mem e member))
      exact (Extent.apart_iff_disjoint one two).mp (second f member) i ⟨inP, inF⟩
  refine ⟨⟨heap.list.ring, heap.list.positive, heap.list.gaps, fun b block => ?_, heap.list.slobfree⟩,
    fun o member => ?_,
    List.pairwise_cons.mpr ⟨fun f member => first f (List.mem_cons_of_mem _ member), rest⟩,
    fun f member => heap.higher f (inside member), fun f member => heap.used f (inside member),
    fun f member i inF isFree => ?_, fun q isFree => ?_, ?_, ?_⟩
  · have other : b.base ≠ e.base := by
      intro same
      have own : b.base ∈ b := ⟨le_rfl, Nat.lt_add_of_pos_right (heap.list.positive b block)⟩
      exact heap.used e (inside List.mem_cons_self) _ start b block (same ▸ own)
    exact (Function.update_of_ne other ..).trans (heap.list.units b block)
  · rcases List.mem_cons.mp member with rfl | member
    · refine ⟨?_, Function.update_self ..⟩
      rw [record]
      decide
    · have sized := heap.sized o (List.mem_cons_of_mem _ member)
      cases o with
      | large record' order' page' => exact sized
      | small f =>
          have part : f ∈ extents objs := List.mem_flatMap.mpr ⟨_, member, mem_extents_small.mpr rfl⟩
          have other : f.base ≠ e.base := by
            intro same
            have own : f.base ∈ f := ⟨le_rfl, Nat.lt_add_of_pos_right (Nat.zero_lt_of_lt sized.1)⟩
            exact (Extent.apart_iff_disjoint filled (Nat.zero_lt_of_lt sized.1)).mp
              (first f (List.mem_cons_of_mem _ part)) e.base ⟨start, same ▸ own⟩
          exact ⟨sized.1, (Function.update_of_ne other ..).trans sized.2⟩
  · rcases freed _ isFree with old | new
    · rcases List.mem_append.mp member with block | use
      · exact heap.owned f (List.mem_append_left _ block) i inF old
      · exact heap.owned f (List.mem_append_right _ (inside use)) i inF old
    · rcases List.mem_append.mp member with block | use
      · exact heap.used p mine i (new i rfl) f (List.mem_cons_of_mem _ block) inF
      · exact off f use i inF (new i rfl)
  · rcases freed q isFree with old | new
    · exact heap.above q old
    · exact (heap.higher p mine).trans_le (new (q * pageUnits) (Nat.mul_div_cancel q pageUnits_pos)).1
  · have found := heap.find_large
    obtain ⟨bb, lo, hi, before, pages, split, erased⟩ := List.exists_of_eraseP
      (p := fun b : BigBlock => decide (b.pages = page * pageUnits)) (List.mem_of_find?_eq_some found)
        (decide_eq_true rfl)
    have absent : lo.find? (fun b : BigBlock => decide (b.pages = page * pageUnits)) = none :=
      List.find?_eq_none.mpr before
    rw [split, List.find?_append, absent, Option.none_or, List.find?_cons, pages] at found
    obtain rfl := Option.some.inj found
    have records : (lo ++ ⟨e.base, order, page * pageUnits⟩ :: hi).Perm
        (⟨e.base, order, page * pageUnits⟩ :: objs.filterMap Object.bigBlock) := split ▸ heap.records
    have shorter := (List.perm_middle.symm.trans records).cons_inv
    rw [show (parted M s e order page).bigblocks = _ from erased]
    exact shorter
  · have balance := heap.balance
    have given := M.held_free (s := s.pmm) (p := page) (n := 2 ^ order)
    simp only [extents_cons, total_append, total_large, total_small] at balance ⊢
    rw [show (parted M s e order page).pmm = M.freePages s.pmm page (2 ^ order) from rfl, given, Nat.sub_mul]
    omega

theorem slobFree_again {b size : Nat} (given : size ≠ 0) :
    slobFree fuel b size (s.setUnits b (slobUnits size)) = slobFree fuel b size s := by
  simp only [slobFree, if_pos given, Slob.setUnits, Function.update_idem]

/-- What `kfree` does to the pages: none of a small object is given back, all of a large one. -/
def Object.freePages (M : PageAllocator σ) (pmm : σ) : Object → σ
  | .small _ => pmm
  | .large _ order page => M.freePages pmm page (2 ^ order)

theorem slobFree_pmm {b size : Nat} (run : slobFree fuel b size s = .ok t) : t.pmm = s.pmm := by
  rw [slobFree] at run
  obtain ⟨cur, -, rest⟩ := bind_ok.mp run
  obtain rfl := Except.ok.inj rest
  rw [(putBack_rest cur b _).2]
  split
  · rfl
  · rfl

theorem kfree_spec {o : Object} (heap : Heap M s arena bs objs) (member : o ∈ objs) (enough : bs.length + 1 ≤ fuel) :
    ∃ t bs', kfree M fuel (some o.pointer) s = .ok t ∧ t.pmm = Object.freePages M s.pmm o ∧
      Heap M t arena bs' (objs.erase o) := by
  have heap := heap.reorder (List.perm_cons_erase member)
  cases o with
  | small e =>
      obtain ⟨t, bs', run, -, after⟩ := slobFree_heap heap (fun given => absurd rfl given) enough
      refine ⟨t, bs', ?_, slobFree_pmm run, after⟩
      have nothing : (if (e.base + 1) % pageUnits = 0 then s.bigblocks.find? (·.pages = e.base + 1) else none) =
        none := by
        rw [heap.find_small, ite_self]
      rw [show (Object.small e).pointer = e.base + 1 from rfl, kfree]
      dsimp only
      rw [nothing]
      exact run
  | large e order page =>
      have record : e.len = slobUnits SIZEOF_BIGBLOCK := heap.sized _ List.mem_cons_self
      have sized : SIZEOF_BIGBLOCK ≠ 0 → slobUnits SIZEOF_BIGBLOCK = e.len := fun _ => record.symm
      obtain ⟨t, bs', run, -, after⟩ := slobFree_heap (detach heap) sized enough
      refine ⟨t, bs', ?_, slobFree_pmm run, after⟩
      rw [show (Object.large e order page).pointer = page * pageUnits from rfl, kfree,
        if_pos (Nat.mul_mod_left page pageUnits),
        heap.find_large]
      dsimp only
      rw [slobFreePages, Nat.mul_div_cancel page pageUnits_pos, ← slobFree_again (by decide), ← record]
      exact run

/-- No two objects have one address. -/
theorem pointer_ne {o o' : Object} (heap : Heap M s arena bs (o :: objs)) (other : o' ∈ objs) :
    o'.pointer ≠ o.pointer := by
  have within : ∀ o : Object, o.Sized s.units → ∃ f ∈ o.extents, o.pointer ∈ f := by
    intro o sized
    cases o with
    | small e => exact ⟨e, List.mem_singleton_self e, Nat.le_succ _, Nat.add_lt_add_left sized.1 _⟩
    | large record order page =>
        refine ⟨_, List.mem_cons_of_mem _ (List.mem_singleton_self _), le_rfl, ?_⟩
        exact Nat.lt_add_of_pos_right (Nat.mul_pos (Nat.two_pow_pos order) pageUnits_pos)
  obtain ⟨f, mine, here⟩ := within o (heap.sized o List.mem_cons_self)
  obtain ⟨g, theirs, there⟩ := within o' (heap.sized o' (List.mem_cons_of_mem _ other))
  have rest : g ∈ extents objs := List.mem_flatMap.mpr ⟨o', other, theirs⟩
  have inside : f ∈ extents (o :: objs) ∧ g ∈ extents (o :: objs) := by
    rw [extents_cons]
    exact ⟨List.mem_append_left _ mine, List.mem_append_right _ rest⟩
  have apart := (List.pairwise_append.mp (extents_cons o objs ▸ heap.apart)).2.2 f mine g rest
  intro same
  exact (Extent.apart_iff_disjoint (heap.positive f inside.1) (heap.positive g inside.2)).mp apart _
    ⟨here, same ▸ there⟩

/-! ## Runs -/

/-- The pointers in use are those of the objects on the heap. -/
def Sound (M : PageAllocator σ) (arena : Nat) (s : State σ) : Prop :=
  ∃ bs objs, Heap M s.slob arena bs objs ∧ s.live.Perm (objs.map Object.pointer)

variable {s t : State σ}

theorem Initial.heap (initial : Initial M arena s) : Heap M s.slob arena [] [] where
  list := by
    refine ⟨⟨List.nodup_singleton arena, List.isChain_pair.mpr initial.next⟩, ?_, List.pairwise_singleton .., ?_, ?_⟩
    · simp
    · simpa using initial.units
    · simpa using initial.slobfree
  sized := by simp
  apart := .nil
  higher := by simp [extents]
  used := by simp [extents]
  owned := by simp [extents]
  above := initial.above
  records := by rw [initial.bigblocks]; exact .refl _
  balance := by rw [initial.held]; rfl

theorem exec_sound {c : Call} (sound : Sound M arena s) (legal : Legal s c) :
    ∃ fuel t, exec M fuel s c = .ok t ∧ Sound M arena t := by
  obtain ⟨bs, objs, heap, live⟩ := sound
  cases c with
  | kmalloc size =>
      obtain ⟨least, small | large⟩ := legal
      · rcases kmalloc_small heap least small (Nat.le_refl _) with ⟨e, u, bs', run, -, after⟩ | ⟨u, run, after⟩
        · exact ⟨_, _, bind_ok.mpr ⟨_, run, rfl⟩, bs', _, after, live.cons _⟩
        · exact ⟨_, _, bind_ok.mpr ⟨_, run, rfl⟩, bs, objs, after, live⟩
      · rcases kmalloc_large heap large (Nat.le_refl _) with ⟨-, e, page, u, bs', run, after⟩ | ⟨-, u, bs', run, after⟩
        · exact ⟨_, _, bind_ok.mpr ⟨_, run, rfl⟩, bs', _, after, live.cons _⟩
        · exact ⟨_, _, bind_ok.mpr ⟨_, run, rfl⟩, bs', objs, after, live⟩
  | kfree block =>
      cases block with
      | none => exact ⟨0, _, rfl, bs, objs, heap, live⟩
      | some p =>
          obtain ⟨o, member, rfl⟩ := List.mem_map.mp (live.mem_iff.mp (legal p rfl))
          obtain ⟨u, bs', run, -, after⟩ := kfree_spec heap member (Nat.le_refl _)
          refine ⟨_, _, bind_ok.mpr ⟨_, run, rfl⟩, bs', _, after, ?_⟩
          have whole := live.trans ((List.perm_cons_erase member).map Object.pointer)
          have shorter := whole.erase o.pointer
          rwa [List.map_cons, List.erase_cons_head] at shorter

theorem run_sound (reached : Reachable (Initial M arena) (Step M) s) : Sound M arena s := by
  refine reached.invariant (Sound M arena) (fun s initial => ?_) fun s t sound taken => ?_
  · exact ⟨[], [], initial.heap, by rw [initial.live]; exact .refl _⟩
  · obtain ⟨c, fuel, legal, run⟩ := taken
    obtain ⟨fuel', u, run', after⟩ := exec_sound sound legal
    have same := (exec_mono run (Nat.le_max_left fuel fuel')).symm.trans (exec_mono run' (Nat.le_max_right fuel fuel'))
    obtain rfl := Except.ok.inj same
    exact after

theorem run_ends {c : Call} (sound : Sound M arena s) (legal : Legal s c) :
    ∃ n t, ∀ fuel, n ≤ fuel → exec M fuel s c = .ok t := by
  obtain ⟨n, t, run, -⟩ := exec_sound sound legal
  exact ⟨n, t, fun fuel more => exec_mono run more⟩

/-- `kfree` takes the object of its pointer away: a small one goes to the free list, and of a large one
    the pages are given back. -/
theorem kfree_ends {o : Object} (heap : Heap M s.slob arena bs objs) (member : o ∈ objs) :
    ∃ n t bs', (∀ fuel, n ≤ fuel → kfree M fuel (some o.pointer) s.slob = .ok t) ∧
      t.pmm = Object.freePages M s.slob.pmm o ∧ Heap M t arena bs' (objs.erase o) := by
  obtain ⟨t, bs', run, pages, after⟩ := kfree_spec heap member (Nat.le_refl _)
  exact ⟨_, t, bs', fun fuel more => kfree_mono run more, pages, after⟩

/-- After any calls the free blocks and the objects in use are apart and together they are the pages
    that the heap holds, every legal call comes to an end, and `kfree` of a pointer in use takes the one
    object away that it points to. -/
theorem reached_heap (reached : Reachable (Initial M arena) (Step M) s) :
    ∃ bs objs, Heap M s.slob arena bs objs ∧ s.live.Perm (objs.map Object.pointer) ∧
      (∀ c, Legal s c → ∃ n t, ∀ fuel, n ≤ fuel → exec M fuel s c = .ok t) ∧
      ∀ o ∈ objs, (∀ o' ∈ objs.erase o, o'.pointer ≠ o.pointer) ∧
        ∃ n t bs', (∀ fuel, n ≤ fuel → kfree M fuel (some o.pointer) s.slob = .ok t) ∧
          t.pmm = Object.freePages M s.slob.pmm o ∧ Heap M t arena bs' (objs.erase o) := by
  obtain ⟨bs, objs, heap, perm⟩ := run_sound reached
  refine ⟨bs, objs, heap, perm, fun c legal => run_ends (run_sound reached) legal,
    fun o member => ⟨fun o' other => ?_, ?_⟩⟩
  · exact pointer_ne (heap.reorder (List.perm_cons_erase member)) other
  · exact kfree_ends heap member

theorem booted_initial : Initial unused 16 ⟨booted, []⟩ := ⟨rfl, rfl, rfl, rfl, rfl, booted_heap.above, rfl⟩

/-- A small and a large object, and another small one that was freed between them. -/
theorem reached_heap_mixed : ∃ s : State (Nat × Nat), s.live = [512, 257] ∧
    ∃ bs objs, Heap unused s.slob 16 bs objs ∧ s.live.Perm (objs.map Object.pointer) ∧
      (∀ c, Legal s c → ∃ n t, ∀ fuel, n ≤ fuel → exec unused fuel s c = .ok t) ∧
      ∀ o ∈ objs, (∀ o' ∈ objs.erase o, o'.pointer ≠ o.pointer) ∧
        ∃ n t bs', (∀ fuel, n ≤ fuel → kfree unused fuel (some o.pointer) s.slob = .ok t) ∧
          t.pmm = Object.freePages unused s.slob.pmm o ∧ Heap unused t 16 bs' (objs.erase o) := by
  obtain ⟨one, first, two, second, three, third, four, fourth⟩ :
      ∃ one, exec unused 12 ⟨booted, []⟩ (.kmalloc 1) = .ok ⟨one, [257]⟩ ∧
        ∃ two, exec unused 12 ⟨one, [257]⟩ (.kmalloc 40) = .ok ⟨two, [259, 257]⟩ ∧
          ∃ three, exec unused 12 ⟨two, [259, 257]⟩ (.kfree (some 259)) = .ok ⟨three, [257]⟩ ∧
            ∃ four, exec unused 12 ⟨three, [257]⟩ (.kmalloc 8192) = .ok ⟨four, [512, 257]⟩ :=
    ⟨_, rfl, _, rfl, _, rfl, _, rfl⟩
  have inUse : Legal ⟨two, [259, 257]⟩ (.kfree (some 259)) := by
    rintro p same
    obtain rfl := Option.some.inj same
    exact List.mem_cons_self
  have reached : Reachable (Initial unused 16) (Step unused) ⟨four, [512, 257]⟩ :=
    ((((Reachable.start booted_initial).next ⟨.kmalloc 1, 12, ⟨by decide, .inl (by decide)⟩, first⟩).next
      ⟨.kmalloc 40, 12, ⟨by decide, .inl (by decide)⟩, second⟩).next
      ⟨.kfree (some 259), 12, inUse, third⟩).next ⟨.kmalloc 8192, 12, ⟨by decide, .inr (by decide)⟩, fourth⟩
  exact ⟨_, rfl, reached_heap reached⟩

end Ucore.Mm.KmallocRuns
