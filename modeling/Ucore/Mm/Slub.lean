import Ucore.Lib.Memory
import Ucore.Libs.List

/-! # Objects of one size

`slub.c`: a cache cuts pages of the buddy system into objects. The objects of a slab, the
links of the free ones and the header of the slab share the page. A page stands for the
kernel address it is mapped at.
-/

namespace Ucore.Mm.Slub

open Lib.Bytes
open Lib.Memory
open Lib.Ring
open Libs.List

def PAGE_SIZE : Nat := 4096

/-- Places in a `slab_t`; behind the count there are the two links of `slab_link`. -/
def PAGE : Nat := 0

def FREELIST : Nat := 8

def OBJ_COUNT : Nat := 16

def SIZEOF_SLAB : Nat := 40

/-- The heads of the lists of a cache, and the `slab_link` of each slab. -/
inductive Entry where
  | freeList | partialList | fullList
  | slab (page : Nat)
  deriving DecidableEq, Repr

/-- What stops a call: an access through NULL, or an entry of a list that is no slab's. -/
inductive Fault where
  | null | stray
  deriving DecidableEq, Repr

abbrev Result := Except Fault

/-- A cache, the memory its slabs are in, and what is in use: the pages it has from the
    buddy system, and the objects that were handed out and not freed. -/
structure Cache where
  objSize : Nat
  memory : Block
  links : Links Entry
  pages : List Nat
  live : List Nat

/-! ## `slub.c` -/

def read (m : Block) (pointer offset : Nat) : Result Nat :=
  if pointer = 0 then .error .null else .ok (load m (pointer + offset))

def write (m : Block) (pointer offset v : Nat) : Result Block :=
  if pointer = 0 then .error .null else .ok (store m (pointer + offset) v)

def slubCacheInit (memory : Block) (links : Links Entry) (objSize : Nat) : Cache where
  objSize := objSize
  memory := memory
  links := listInit (listInit (listInit links .freeList) .partialList) .fullList
  pages := []
  live := []

/-- The loop of `allocate_slab`, with the objects left. -/
def linkLoop (page objSize : Nat) : Nat → Nat → Block → Result Block
  | 0, _, m => pure m
  | left + 1, obj, m => do
      let next := obj + objSize
      let next := if page + PAGE_SIZE ≤ next then 0 else next
      let m ← write m obj 0 next
      linkLoop page objSize left next m

/-- With what `buddy_alloc_pages` returns. -/
def allocateSlab (s : Cache) (page : Option Nat) : Result (Option Nat × Cache) :=
  match page with
  | none => pure (none, s)
  | some page => do
      let m ← write s.memory page PAGE page
      let m ← write m page OBJ_COUNT (PAGE_SIZE / s.objSize)
      let m ← write m page FREELIST (page + SIZEOF_SLAB)
      -- no object lies over the header, so the count the loop goes by stays
      let m ← linkLoop page s.objSize (PAGE_SIZE / s.objSize) (page + SIZEOF_SLAB) m
      pure (some page, { s with
        memory := m
        links := listAdd s.links .partialList (.slab page)
        pages := page :: s.pages })

def le2slab : Entry → Result Nat
  | .slab page => pure page
  | _ => throw .stray

/-- The object at the head of a slab's free list. -/
def takeObject (s : Cache) (slab : Nat) : Result (Nat × Cache) := do
  let obj ← read s.memory slab FREELIST
  let next ← read s.memory obj 0
  let m ← write s.memory slab FREELIST next
  let count ← read m slab OBJ_COUNT
  let count := (count + (2 ^ 64 - 1)) % 2 ^ 64
  let m ← write m slab OBJ_COUNT count
  if count = 0 then
    pure (obj, { s with memory := m, links := listAdd (listDel s.links (.slab slab)) .fullList (.slab slab) })
  else pure (obj, { s with memory := m })

def slubAlloc (s : Cache) (page : Option Nat) : Result (Nat × Cache) :=
  if ¬ listEmpty s.links .partialList then do
    let slab ← le2slab (s.links.next .partialList)
    takeObject s slab
  else if ¬ listEmpty s.links .freeList then do
    let slab ← le2slab (s.links.next .freeList)
    takeObject { s with links := listAdd (listDel s.links (.slab slab)) .partialList (.slab slab) } slab
  else do
    let (slab, s) ← allocateSlab s page
    match slab with
    | none => pure (0, s)
    | some slab => takeObject s slab

def kva2slab (obj : Nat) : Nat := obj - obj % PAGE_SIZE

def slubFree (s : Cache) (obj : Nat) : Result Cache := do
  let slab := kva2slab obj
  let first ← read s.memory slab FREELIST
  let m ← write s.memory obj 0 first
  let m ← write m slab FREELIST obj
  let count ← read m slab OBJ_COUNT
  let count := (count + 1) % 2 ^ 64
  let m ← write m slab OBJ_COUNT count
  let links := if count = 1 then listAdd (listDel s.links (.slab slab)) .partialList (.slab slab) else s.links
  if count = PAGE_SIZE / s.objSize then
    let page ← read m slab PAGE
    pure { s with memory := m, links := listDel links (.slab slab), pages := s.pages.erase page }
  else pure { s with memory := m, links := links }

/-! ## Slabs -/

/-- What the header of a slab says of the free objects. -/
structure Slab (m : Block) (page : Nat) (free : List Nat) (last : Nat) : Prop where
  own : load m (page + PAGE) = page
  chain : Chain m (load m (page + FREELIST)) free last
  count : load m (page + OBJ_COUNT) = free.length
  behind : ∀ obj ∈ free, page + SIZEOF_SLAB ≤ obj

variable {m m' : Block} {s : Cache} {page obj last objSize pointer offset v : Nat} {free : List Nat}

theorem read_ok (nonzero : pointer ≠ 0) : read m pointer offset = .ok (load m (pointer + offset)) := if_neg nonzero

theorem write_ok (nonzero : pointer ≠ 0) : write m pointer offset v = .ok (store m (pointer + offset) v) :=
    if_neg nonzero

/-- The fields of the header and the links of the free objects are all that matters. -/
theorem Slab.congr (slab : Slab m page free last) (header : ∀ i, page ≤ i → i < page + 24 → m' i = m i)
    (links : ∀ obj ∈ free, ∀ i, obj ≤ i → i < obj + 8 → m' i = m i) : Slab m' page free last := by
  have field : ∀ offset, offset ≤ 16 → load m' (page + offset) = load m (page + offset) := by
    intro offset low
    exact load_congr fun i above below => header i (by omega) (by omega)
  refine ⟨?_, ?_, ?_, slab.behind⟩
  · rw [field PAGE (by decide), slab.own]
  · rw [field FREELIST (by decide)]
    exact slab.chain.congr fun node inside => load_congr fun i => links node inside i
  · rw [field OBJ_COUNT (by decide), slab.count]

/-- The links of a slab after an object was taken from it. -/
def takenLinks (s : Cache) (slab : Nat) (rest : List Nat) : Links Entry :=
  if rest = [] then listAdd (listDel s.links (.slab slab)) .fullList (.slab slab) else s.links

theorem takeObject_spec (slab : Slab s.memory page (obj :: free) last) (mapped : page ≠ 0)
    (few : free.length < 2 ^ 64 - 1) :
    ∃ m, takeObject s page = .ok (obj, { s with memory := m, links := takenLinks s page free }) ∧
      Slab m page free last ∧ ∀ i, i < page + 8 ∨ page + 24 ≤ i → m i = s.memory i := by
  obtain ⟨first, rest⟩ := slab.chain
  have nonnull : obj ≠ 0 := by
    have := slab.behind obj List.mem_cons_self
    omega
  let next := load s.memory obj
  let m1 := store s.memory (page + FREELIST) next
  have count : load m1 (page + OBJ_COUNT) = free.length + 1 := by
    rw [load_store_apart (Or.inr (by simp [FREELIST, OBJ_COUNT])), slab.count, List.length_cons]
  have less : (free.length + 1 + (2 ^ 64 - 1)) % 2 ^ 64 = free.length := by
    rw [Nat.add_assoc, Nat.add_comm 1, Nat.sub_add_cancel (by decide), Nat.add_mod_right]
    exact Nat.mod_eq_of_lt (by omega)
  let m2 := store m1 (page + OBJ_COUNT) free.length
  have away : ∀ i, i < page + 8 ∨ page + 24 ≤ i → m2 i = s.memory i := by
    intro i outside
    exact (store_outside (by simp only [OBJ_COUNT]; omega)).trans (store_outside (by simp only [FREELIST]; omega))
  refine ⟨m2, ?_, ⟨?_, ?_, ?_, ?_⟩, away⟩
  · simp only [takeObject, read_ok mapped, first, read_ok nonnull, write_ok mapped, bind, Except.bind, Nat.add_zero]
    rw [show load (store s.memory (page + FREELIST) (load s.memory obj)) (page + OBJ_COUNT) = _ from count, less]
    simp only [takenLinks, List.length_eq_zero_iff]
    split <;> rfl
  · rw [load_congr fun i above below => away i (Or.inl (by simp only [PAGE] at below; omega))]
    exact slab.own
  · have link : load m2 (page + FREELIST) = next := by
      rw [load_store_apart (Or.inl (by simp [FREELIST, OBJ_COUNT])), load_store (load_lt ..)]
    rw [link]
    refine rest.congr fun node inside => load_congr fun i above below => away i (Or.inr ?_)
    have := slab.behind node (List.mem_cons_of_mem _ inside)
    simp only [SIZEOF_SLAB] at this
    omega
  · exact load_store (by omega)
  · exact fun node inside => slab.behind node (List.mem_cons_of_mem _ inside)

/-- The links of a slab after an object came back to it. -/
def givenLinks (s : Cache) (slab : Nat) (free : List Nat) : Links Entry :=
  if free = [] then listAdd (listDel s.links (.slab slab)) .partialList (.slab slab) else s.links

/-- The cache after an object came back to a slab; an empty slab goes to the buddy system. -/
def given (s : Cache) (m : Block) (slab : Nat) (free : List Nat) : Cache :=
  if free.length + 1 = PAGE_SIZE / s.objSize then
    { s with memory := m, links := listDel (givenLinks s slab free) (.slab slab), pages := s.pages.erase slab }
  else { s with memory := m, links := givenLinks s slab free }

theorem slubFree_spec (slab : Slab s.memory page free last) (home : kva2slab obj = page) (mapped : page ≠ 0)
    (few : free.length + 1 < 2 ^ 64) (behind : page + SIZEOF_SLAB ≤ obj) (small : obj < 2 ^ 64)
    (apart : ∀ node ∈ free, node + 8 ≤ obj ∨ obj + 8 ≤ node) :
    ∃ m, slubFree s obj = .ok (given s m page free) ∧ Slab m page (obj :: free) last ∧
      ∀ i, (i < page + 8 ∨ page + 24 ≤ i) → (i < obj ∨ obj + 8 ≤ i) → m i = s.memory i := by
  simp only [SIZEOF_SLAB] at behind
  have nonnull : obj ≠ 0 := by omega
  let first := load s.memory (page + FREELIST)
  let m1 := store s.memory obj first
  let m2 := store m1 (page + FREELIST) obj
  have count : load m2 (page + OBJ_COUNT) = free.length := by
    rw [load_store_apart (Or.inr (by simp [FREELIST, OBJ_COUNT])),
      load_store_apart (Or.inl (by simp only [OBJ_COUNT]; omega)), slab.count]
  let m3 := store m2 (page + OBJ_COUNT) (free.length + 1)
  have away : ∀ i, (i < page + 8 ∨ page + 24 ≤ i) → (i < obj ∨ obj + 8 ≤ i) → m3 i = s.memory i := by
    intro i header link
    exact ((store_outside (by simp only [OBJ_COUNT]; omega)).trans
      (store_outside (by simp only [FREELIST]; omega))).trans (store_outside link)
  have own : load m3 (page + PAGE) = page := by
    rw [load_congr fun i above below => away i (Or.inl (by simp only [PAGE] at below; omega))
      (Or.inl (by simp only [PAGE] at below; omega))]
    exact slab.own
  refine ⟨m3, ?_, ⟨own, ?_, load_store few, ?_⟩, away⟩
  · simp only [slubFree, home, read_ok mapped, write_ok nonnull, write_ok mapped, bind, Except.bind, Nat.add_zero]
    rw [show load (store (store s.memory obj (load s.memory (page + FREELIST))) (page + FREELIST) obj)
      (page + OBJ_COUNT) = _ from count, Nat.mod_eq_of_lt few,
      show load (store _ (page + OBJ_COUNT) (free.length + 1)) (page + PAGE) = page from own]
    simp only [given, givenLinks, Nat.add_eq_right, List.length_eq_zero_iff]
    split <;> rfl
  · have link : load m3 (page + FREELIST) = obj := by
      rw [load_store_apart (Or.inl (by simp [FREELIST, OBJ_COUNT])), load_store small]
    have next : load m3 obj = first := by
      rw [load_store_apart (Or.inr (by simp only [OBJ_COUNT]; omega)),
        load_store_apart (Or.inr (by simp only [FREELIST]; omega)), load_store (load_lt ..)]
    rw [link]
    refine ⟨rfl, ?_⟩
    rw [next]
    refine slab.chain.congr fun node inside => load_congr fun i above below => away i (Or.inr ?_) ?_
    · have := slab.behind node inside
      simp only [SIZEOF_SLAB] at this
      omega
    · rcases apart node inside with before | after
      · exact Or.inl (by omega)
      · exact Or.inr (by omega)
  · intro node inside
    rcases List.mem_cons.mp inside with rfl | inside
    · exact behind
    · exact slab.behind node inside

/-! ## New slabs -/

/-- Where `allocate_slab` sends a link. -/
def linkTo (page next : Nat) : Nat := if page + PAGE_SIZE ≤ next then 0 else next

/-- As long as the objects lie in the page, they are linked up in order. -/
theorem linkLoop_ok (mapped : page ≠ 0) (top : page + PAGE_SIZE < 2 ^ 64) (wide : 8 ≤ objSize) (left obj : Nat)
    (m : Block) (above : page < obj) (inside : ∀ j < left, obj + j * objSize < page + PAGE_SIZE) :
    ∃ m', linkLoop page objSize left (linkTo page obj) m = .ok m' ∧
      Chain m' (linkTo page obj) ((List.range left).map fun j => obj + j * objSize)
        (linkTo page (obj + left * objSize)) ∧
      ∀ i, i < obj ∨ (∀ j < left, obj + j * objSize + 8 ≤ i ∨ i < obj + j * objSize) → m' i = m i := by
  induction left generalizing obj m with
  | zero => exact ⟨m, rfl, by simp [Chain], fun _ _ => rfl⟩
  | succ left ih =>
      have here : obj < page + PAGE_SIZE := by simpa using inside 0 (Nat.succ_pos _)
      have same : linkTo page obj = obj := if_neg (by omega)
      have later : ∀ j, obj + objSize + j * objSize = obj + (j + 1) * objSize := by
        intro j
        rw [Nat.add_mul, Nat.one_mul]
        omega
      let next := linkTo page (obj + objSize)
      have fits : next < 2 ^ 64 := by
        simp only [next, linkTo]
        split <;> omega
      obtain ⟨m', run, chain, frame⟩ := ih (obj + objSize) (store m obj next) (by omega) fun j low => by
        rw [later]
        exact inside (j + 1) (by omega)
      simp only [later] at chain frame
      refine ⟨m', ?_, ?_, fun i outside => ?_⟩
      · rw [linkLoop, same, write_ok (by omega)]
        exact run
      · rw [List.range_succ_eq_map, List.map_cons, List.map_map, Nat.zero_mul, Nat.add_zero, same]
        refine ⟨rfl, ?_⟩
        rw [load_congr fun i _ below => frame i (Or.inl (by omega)), load_store fits]
        exact chain
      · have first := outside.imp_right fun all => all 0 (Nat.succ_pos _)
        rw [Nat.zero_mul, Nat.add_zero] at first
        rw [frame i ?_, store_outside (by omega)]
        rcases outside with before | all
        · exact Or.inl (by omega)
        · exact Or.inr fun j low => all (j + 1) (by omega)

/-- The objects of a slab. -/
def objects (objSize page : Nat) : List Nat :=
  (List.range (PAGE_SIZE / objSize)).map fun j => page + SIZEOF_SLAB + j * objSize

/-- What the last of the objects is linked to. -/
def tailLink (objSize page : Nat) : Nat := linkTo page (page + SIZEOF_SLAB + PAGE_SIZE / objSize * objSize)

/-- All objects begin in the page. -/
def Begin (objSize : Nat) : Prop := ∀ j < PAGE_SIZE / objSize, SIZEOF_SLAB + j * objSize < PAGE_SIZE

theorem allocateSlab_spec (starts : Begin s.objSize) (wide : 8 ≤ s.objSize) (mapped : page ≠ 0)
    (top : page + PAGE_SIZE < 2 ^ 64) :
    ∃ m, allocateSlab s (some page) = .ok (some page, { s with
        memory := m, links := listAdd s.links .partialList (.slab page), pages := page :: s.pages }) ∧
      Slab m page (objects s.objSize page) (tailLink s.objSize page) ∧
      ∀ i, i < page ∨ (page + SIZEOF_SLAB ≤ i ∧ ∀ obj ∈ objects s.objSize page, obj + 8 ≤ i ∨ i < obj) →
        m i = s.memory i := by
  let n := PAGE_SIZE / s.objSize
  let m1 := store s.memory (page + PAGE) page
  let m2 := store m1 (page + OBJ_COUNT) n
  let m3 := store m2 (page + FREELIST) (page + SIZEOF_SLAB)
  have small : n < 2 ^ 64 := Nat.lt_of_le_of_lt (Nat.div_le_self _ _) (by decide)
  have first : linkTo page (page + SIZEOF_SLAB) = page + SIZEOF_SLAB := if_neg (by simp [PAGE_SIZE, SIZEOF_SLAB])
  obtain ⟨m, run, chain, frame⟩ := linkLoop_ok mapped top wide n (page + SIZEOF_SLAB) m3 (by simp [SIZEOF_SLAB])
    fun j low => by
      have := starts j low
      omega
  rw [first] at run chain
  have field : ∀ offset, offset ≤ 16 → load m (page + offset) = load m3 (page + offset) := by
    intro offset low
    exact load_congr fun i _ below => frame i (Or.inl (by simp only [SIZEOF_SLAB]; omega))
  refine ⟨m, ?_, ⟨?_, ?_, ?_, ?_⟩, fun i outside => ?_⟩
  · simp only [allocateSlab, write_ok mapped, bind, Except.bind]
    rw [run]
    rfl
  · rw [field PAGE (by decide), load_store_apart (Or.inl (by simp [PAGE, FREELIST])),
      load_store_apart (Or.inl (by simp [PAGE, OBJ_COUNT])), load_store (by omega)]
  · rw [field FREELIST (by decide), load_store (by simp only [PAGE_SIZE, SIZEOF_SLAB] at top ⊢; omega)]
    exact chain
  · rw [field OBJ_COUNT (by decide), load_store_apart (Or.inr (by simp [OBJ_COUNT, FREELIST])), load_store small,
      objects, List.length_map, List.length_range]
  · intro obj member
    obtain ⟨j, -, rfl⟩ := List.mem_map.mp member
    exact Nat.le_add_right _ _
  · have header : i < page ∨ page + SIZEOF_SLAB ≤ i := outside.imp_right fun all => all.1
    have old : m3 i = s.memory i := by
      simp only [SIZEOF_SLAB] at header
      exact ((store_outside (by simp only [FREELIST]; omega)).trans
        (store_outside (by simp only [OBJ_COUNT]; omega))).trans (store_outside (by simp only [PAGE]; omega))
    rw [frame i, old]
    refine outside.imp (fun before => by omega) fun all j low => ?_
    exact all.2 _ (List.mem_map.mpr ⟨j, List.mem_range.mpr low, rfl⟩)

end Ucore.Mm.Slub
