import Ucore.Lib.Bytes

/-! # Words in memory, and lists threaded through them

Memory is one block of bytes. Pointers are eight bytes at any address, and a list is
threaded through the words at its nodes.
-/

namespace Ucore.Lib.Memory

open Bytes

/-- The eight-byte number at an address. -/
def load (m : Block) (addr : Nat) : Nat := ofLe (slice m addr 8)

def store (m : Block) (addr v : Nat) : Block := patch m addr (toLe 8 v)

variable {m m' : Block} {addr other v : Nat}

theorem load_store (fits : v < 2 ^ 64) : load (store m addr v) addr = v := by
  have same := slice_patch m addr (toLe 8 v)
  rw [length_toLe] at same
  rw [load, store, same, ofLe_toLe (by simpa using fits)]

theorem load_store_apart (apart : other + 8 ≤ addr ∨ addr + 8 ≤ other) :
    load (store m addr v) other = load m other := by
  rw [load, store, slice_patch_frame (by rwa [length_toLe]), load]

theorem store_outside {i : Nat} (outside : i < addr ∨ addr + 8 ≤ i) : store m addr v i = m i :=
  patch_outside (by rwa [length_toLe])

theorem load_congr (same : ∀ i, addr ≤ i → i < addr + 8 → m' i = m i) : load m' addr = load m addr := by
  rw [load, load, slice_congr same]

theorem load_lt (m : Block) (addr : Nat) : load m addr < 2 ^ 64 := by
  have := ofLe_lt (slice m addr 8)
  simpa [load] using this

/-! ## Threaded lists -/

/-- From `first` on, each node holds the address of the next one, and the last one `last`. -/
def Chain (m : Block) (first : Nat) : List Nat → Nat → Prop
  | [], last => first = last
  | node :: nodes, last => first = node ∧ Chain m (load m node) nodes last

theorem Chain.congr {first last : Nat} {nodes : List Nat} (chain : Chain m first nodes last)
    (same : ∀ node ∈ nodes, load m' node = load m node) : Chain m' first nodes last := by
  induction nodes generalizing first with
  | nil => exact chain
  | cons node nodes ih =>
      obtain ⟨here, rest⟩ := chain
      refine ⟨here, ?_⟩
      rw [same node List.mem_cons_self]
      exact ih rest fun node' inside => same node' (List.mem_cons_of_mem _ inside)

/-- How many nodes there are decides which. -/
theorem Chain.unique {first last last' : Nat} {nodes nodes' : List Nat} (chain : Chain m first nodes last)
    (chain' : Chain m first nodes' last') (length : nodes.length = nodes'.length) : nodes = nodes' ∧ last = last' := by
  induction nodes generalizing first nodes' with
  | nil =>
      cases nodes' with
      | nil => exact ⟨rfl, chain.symm.trans chain'⟩
      | cons node nodes' => exact nomatch length
  | cons node nodes ih =>
      cases nodes' with
      | nil => exact nomatch length
      | cons node' nodes' =>
          obtain ⟨rfl, rest⟩ := chain
          obtain ⟨rfl, rest'⟩ := chain'
          obtain ⟨rfl, rfl⟩ := ih rest rest' (Nat.succ.inj length)
          exact ⟨rfl, rfl⟩

end Ucore.Lib.Memory
