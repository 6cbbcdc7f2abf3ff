import Ucore.Lib.HashChain
import Ucore.Lib.Bytes

/-! # The caches of `mksfs`

The tool that builds an image keeps the inodes and the index blocks it has made in two
hash tables. `alloc_cache_block` hashes its argument, which is 0 when it is to take a
fresh number; the block is looked for under its number.
-/

namespace Ucore.Tools.Mksfs

open Lib.Bytes Lib.HashChain

/-- How the tool comes to an end before its time. -/
inductive Halt where
  | assertion
  /-- `bug`: a message, and `exit(-1)`. -/
  | bug
  deriving DecidableEq, Repr

def GOLDEN_RATIO_PRIME_32 : UInt32 := 0x9e370001

def HASH_SHIFT : UInt32 := 10

def hash32 (val : UInt32) : UInt32 := (val * GOLDEN_RATIO_PRIME_32) >>> (32 - HASH_SHIFT)

def hash64 (val : UInt64) : UInt32 := (val.toUInt32 * GOLDEN_RATIO_PRIME_32) >>> (32 - HASH_SHIFT)

def SFS_BLKSIZE : Nat := 4096

def SFS_BLKBITS : UInt32 := 32768

def SFS_MAX_NBLKS : UInt32 := 1024 * 512

def SFS_NDIRECT : Nat := 12

def SFS_TYPE_DIR : UInt16 := 2

def SFS_BLKN_ROOT : UInt32 := 1

def SFS_BLKN_FREEMAP : UInt32 := 2

/-- A block with an address of its own, from `safe_malloc`, as it is put into the cache. -/
structure CacheBlock where
  addr : Nat
  ino : UInt32
  cache : Block

structure Inode where
  size : UInt32 := 0
  type : UInt16
  nlinks : UInt16 := 0
  blocks : UInt32 := 0
  direct : List UInt32 := List.replicate SFS_NDIRECT 0
  indirect : UInt32 := 0
  dbIndirect : UInt32 := 0

structure CacheInode where
  addr : Nat
  inode : Inode
  real : UInt64
  ino : UInt32
  nblks : UInt32 := 0
  l1 : Option CacheBlock := none
  l2 : Option CacheBlock := none

/-- The chains linked by `hash_next` are lists. `mallocs` counts the records allocated. -/
structure SfsFs where
  unusedBlocks : UInt32
  ninos : UInt32
  nextIno : UInt32
  inodes : UInt32 → List CacheInode
  blocks : UInt32 → List CacheBlock
  mallocs : Nat

def sfsAllocIno (sfs : SfsFs) : Except Halt (UInt32 × SfsFs) :=
  if sfs.nextIno < sfs.ninos then
    .ok (sfs.nextIno, { sfs with unusedBlocks := sfs.unusedBlocks - 1, nextIno := sfs.nextIno + 1 })
  else .error .bug

/-- `(ino != 0) ? ino : sfs_alloc_ino(sfs)` -/
def chooseIno (sfs : SfsFs) (ino : UInt32) : Except Halt (UInt32 × SfsFs) :=
  if ino ≠ 0 then .ok (ino, sfs) else sfsAllocIno sfs

def allocCacheBlock (sfs : SfsFs) (ino : UInt32) : Except Halt (CacheBlock × SfsFs) := do
  let (number, sfs) ← chooseIno sfs ino
  let cb : CacheBlock := { addr := sfs.mallocs, ino := number, cache := fun _ => 0 }
  -- The bucket is that of the argument.
  pure (cb, { sfs with blocks := push sfs.blocks (hash32 ino) cb, mallocs := sfs.mallocs + 1 })

def searchCacheBlock (sfs : SfsFs) (ino : UInt32) : Option CacheBlock :=
  search CacheBlock.ino sfs.blocks (hash32 ino) ino

def allocCacheInode (sfs : SfsFs) (real : UInt64) (ino : UInt32) (type : UInt16) :
    Except Halt (CacheInode × SfsFs) := do
  let (number, sfs) ← chooseIno sfs ino
  let ci : CacheInode := { addr := sfs.mallocs, inode := { type }, real, ino := number }
  pure (ci, { sfs with inodes := push sfs.inodes (hash64 real) ci, mallocs := sfs.mallocs + 1 })

def searchCacheInode (sfs : SfsFs) (real : UInt64) : Option CacheInode :=
  search CacheInode.real sfs.inodes (hash64 real) real

/-- How many blocks of a file of the size are used: the quotient in 32 bits, or the limit. -/
def imageBlocks (stSize : Nat) : UInt32 :=
  let ninos := UInt32.ofNat (stSize / SFS_BLKSIZE)
  if ninos > SFS_MAX_NBLKS then SFS_MAX_NBLKS else ninos

def firstIno (ninos : UInt32) : UInt32 := SFS_BLKN_FREEMAP + (ninos + SFS_BLKBITS - 1) / SFS_BLKBITS

/-- A new image over a file of the size, and its root. -/
def createSfs (stSize : Nat) : Except Halt (CacheInode × SfsFs) :=
  if firstIno (imageBlocks stSize) ≥ imageBlocks stSize then .error .bug
  else allocCacheInode
    { unusedBlocks := imageBlocks stSize - firstIno (imageBlocks stSize), ninos := imageBlocks stSize,
      nextIno := firstIno (imageBlocks stSize), inodes := fun _ => [], blocks := fun _ => [], mallocs := 0 }
    0 SFS_BLKN_ROOT SFS_TYPE_DIR

/-- What `cbp` and `inop` are left with. -/
def updateCache (sfs : SfsFs) (cbp : Option CacheBlock) (inop : UInt32) :
    Except Halt ((Option CacheBlock × UInt32) × SfsFs) :=
  if inop = 0 then do
    let (cb, sfs) ← allocCacheBlock sfs 0
    pure ((some cb, cb.ino), sfs)
  else if cbp.all fun cb => cb.ino ≠ inop then
    let cb := searchCacheBlock sfs inop
    if cb.any fun cb => cb.ino = inop then .ok ((cb, inop), sfs) else .error .assertion
  else .ok ((cbp, inop), sfs)

/-! ## Allocation histories -/

/-- The states after calls with distinct keys, with the blocks and the inodes allocated so far,
    and the fresh numbers blocks have been given. -/
inductive Allocated : SfsFs → List CacheBlock → List CacheInode → List UInt32 → Prop where
  | created {stSize : Nat} {root : CacheInode} {sfs : SfsFs} (ran : createSfs stSize = .ok (root, sfs)) :
      Allocated sfs [] [root] []
  | block {sfs t : SfsFs} {cb : CacheBlock} {bs : List CacheBlock} {cs : List CacheInode} {fresh : List UInt32}
      (earlier : Allocated sfs bs cs fresh) (ino : UInt32) (ran : allocCacheBlock sfs ino = .ok (cb, t))
      (distinct : cb.ino ∉ bs.map CacheBlock.ino) :
      Allocated t (cb :: bs) cs (if ino = 0 then sfs.nextIno :: fresh else fresh)
  | inode {sfs t : SfsFs} {ci : CacheInode} {bs : List CacheBlock} {cs : List CacheInode} {fresh : List UInt32}
      (earlier : Allocated sfs bs cs fresh) (real : UInt64) (ino : UInt32) (type : UInt16)
      (ran : allocCacheInode sfs real ino type = .ok (ci, t)) (distinct : real ∉ cs.map CacheInode.real) :
      Allocated t bs (ci :: cs) fresh

/-- The bucket a block has been put in. -/
def bucket (fresh : List UInt32) (cb : CacheBlock) : UInt32 := if cb.ino ∈ fresh then hash32 0 else hash32 cb.ino

variable {sfs t : SfsFs} {bs : List CacheBlock} {cs : List CacheInode} {fresh : List UInt32}

theorem chooseIno_eq {ino number : UInt32} (ran : chooseIno sfs ino = .ok (number, t)) :
    number = (if ino = 0 then sfs.nextIno else ino) ∧ t.inodes = sfs.inodes ∧ t.blocks = sfs.blocks := by
  rw [chooseIno] at ran
  split at ran
  · rename_i given
    cases ran
    exact ⟨(if_neg given).symm, rfl, rfl⟩
  · rename_i zero
    rw [sfsAllocIno] at ran
    split at ran
    · cases ran
      exact ⟨(if_pos (Classical.not_not.mp zero)).symm, rfl, rfl⟩
    · cases ran

theorem allocCacheBlock_eq {ino : UInt32} {cb : CacheBlock} (ran : allocCacheBlock sfs ino = .ok (cb, t)) :
    cb.ino = (if ino = 0 then sfs.nextIno else ino) ∧ t.inodes = sfs.inodes ∧
      t.blocks = push sfs.blocks (hash32 ino) cb := by
  rw [allocCacheBlock] at ran
  cases chosen : chooseIno sfs ino with
  | error halt =>
      rw [chosen] at ran
      cases ran
  | ok result =>
      obtain ⟨number, u⟩ := result
      rw [chosen] at ran
      obtain ⟨value, inodes, blocks⟩ := chooseIno_eq chosen
      cases ran
      exact ⟨value, inodes, congrArg (push · (hash32 ino) _) blocks⟩

theorem allocCacheInode_eq {real : UInt64} {ino : UInt32} {type : UInt16} {ci : CacheInode}
    (ran : allocCacheInode sfs real ino type = .ok (ci, t)) :
    ci.real = real ∧ t.blocks = sfs.blocks ∧ t.inodes = push sfs.inodes (hash64 real) ci := by
  rw [allocCacheInode] at ran
  cases chosen : chooseIno sfs ino with
  | error halt =>
      rw [chosen] at ran
      cases ran
  | ok result =>
      obtain ⟨number, u⟩ := result
      rw [chosen] at ran
      obtain ⟨-, inodes, blocks⟩ := chooseIno_eq chosen
      cases ran
      exact ⟨rfl, blocks, congrArg (push · (hash64 real) _) inodes⟩

/-- The tables hold what has been allocated: every inode in the bucket of its key, every block
    in the bucket of the argument it was asked for with. -/
structure Cached (sfs : SfsFs) (bs : List CacheBlock) (cs : List CacheInode) (fresh : List UInt32) : Prop where
  blocks : Holds CacheBlock.ino (bucket fresh) sfs.blocks bs
  inodes : Holds CacheInode.real (fun ci => hash64 ci.real) sfs.inodes cs
  known : fresh ⊆ bs.map CacheBlock.ino

theorem Cached.block {ino : UInt32} {cb : CacheBlock} (cached : Cached sfs bs cs fresh)
    (ran : allocCacheBlock sfs ino = .ok (cb, t)) (distinct : cb.ino ∉ bs.map CacheBlock.ino) :
    Cached t (cb :: bs) cs (if ino = 0 then sfs.nextIno :: fresh else fresh) := by
  obtain ⟨number, inodes, blocks⟩ := allocCacheBlock_eq ran
  have stale : cb.ino ∉ fresh := fun inside => distinct (cached.known inside)
  have apart : ∀ w ∈ bs, w.ino ≠ cb.ino := fun w inside same => distinct (List.mem_map.mpr ⟨w, inside, same⟩)
  by_cases zero : ino = 0
  · subst zero
    rw [if_pos rfl] at number ⊢
    refine { blocks := ?_, inodes := inodes ▸ cached.inodes, known := ?_ }
    · rw [blocks]
      refine cached.blocks.push distinct (fun w inside => ?_) ?_
      · simp [bucket, ← number, apart w inside]
      · simp [bucket, number]
    · rw [← number, List.map_cons]
      exact List.cons_subset_cons _ cached.known
  · rw [if_neg zero] at number ⊢
    refine { blocks := ?_, inodes := inodes ▸ cached.inodes, known := ?_ }
    · rw [blocks]
      refine cached.blocks.push distinct (fun w _ => rfl) ?_
      rw [bucket, if_neg stale, number]
    · exact List.subset_cons_of_subset _ cached.known

theorem Cached.inode {real : UInt64} {ino : UInt32} {type : UInt16} {ci : CacheInode}
    (cached : Cached sfs bs cs fresh) (ran : allocCacheInode sfs real ino type = .ok (ci, t))
    (distinct : real ∉ cs.map CacheInode.real) : Cached t bs (ci :: cs) fresh := by
  obtain ⟨key, blocks, inodes⟩ := allocCacheInode_eq ran
  refine { blocks := blocks ▸ cached.blocks, inodes := ?_, known := cached.known }
  rw [inodes]
  exact cached.inodes.push (key ▸ distinct) (fun w _ => rfl) (by rw [key])

theorem Allocated.cached (allocated : Allocated sfs bs cs fresh) : Cached sfs bs cs fresh := by
  induction allocated with
  | created ran =>
      rw [createSfs] at ran
      split at ran
      · cases ran
      · refine Cached.inode ?_ ran List.not_mem_nil
        exact { blocks := .empty _ _, inodes := .empty _ _, known := List.Subset.refl _ }
  | block earlier ino ran distinct ih => exact ih.block ran distinct
  | inode earlier real ino type ran distinct ih => exact ih.inode ran distinct

/-! ## What can be found -/

/-- How `update_cache` may end: with a cached block and its number, the one asked for if there
    was one, or for want of a fresh number. -/
def Updated (sfs : SfsFs) (inop : UInt32) : Except Halt ((Option CacheBlock × UInt32) × SfsFs) → Prop
  | .ok ((some cb, ino), t) => cb.ino = ino ∧ (∃ b, cb ∈ t.blocks b) ∧ (inop ≠ 0 → ino = inop)
  | .ok ((none, _), _) => False
  | .error .bug => inop = 0 ∧ sfs.ninos ≤ sfs.nextIno
  | .error .assertion => False

structure Findable (sfs : SfsFs) (bs : List CacheBlock) (cs : List CacheInode) : Prop where
  block : ∀ cb ∈ bs, searchCacheBlock sfs cb.ino = some cb
  noBlock : ∀ n ∉ bs.map CacheBlock.ino, searchCacheBlock sfs n = none
  inode : ∀ ci ∈ cs, searchCacheInode sfs ci.real = some ci
  noInode : ∀ real ∉ cs.map CacheInode.real, searchCacheInode sfs real = none
  update : ∀ cbp : Option CacheBlock, (∀ cb, cbp = some cb → cb ∈ bs) → ∀ inop : UInt32,
    inop = 0 ∨ inop ∈ bs.map CacheBlock.ino → Updated sfs inop (updateCache sfs cbp inop)

theorem updateCache_zero (sfs : SfsFs) (cbp : Option CacheBlock) : Updated sfs 0 (updateCache sfs cbp 0) := by
  rw [updateCache, if_pos rfl]
  cases ran : allocCacheBlock sfs 0 with
  | error halt =>
      rw [allocCacheBlock, chooseIno, if_neg (by decide), sfsAllocIno] at ran
      split at ran
      · cases ran
      · rename_i full
        cases ran
        exact ⟨rfl, UInt32.not_lt.mp full⟩
  | ok result =>
      obtain ⟨cb, t⟩ := result
      have blocks := (allocCacheBlock_eq ran).2.2
      refine ⟨rfl, ⟨hash32 0, ?_⟩, fun other => absurd rfl other⟩
      rw [blocks, push, Function.update_self]
      exact List.mem_cons_self

/-- With a block to be found under the number, the assertion holds. -/
theorem updateCache_found {cb : CacheBlock} {cbp : Option CacheBlock}
    (remembered : ∀ cb, cbp = some cb → ∃ b, cb ∈ sfs.blocks b) (inside : ∃ b, cb ∈ sfs.blocks b)
    (found : searchCacheBlock sfs cb.ino = some cb) (numbered : cb.ino ≠ 0) :
    Updated sfs cb.ino (updateCache sfs cbp cb.ino) := by
  rw [updateCache, if_neg numbered]
  split
  · rw [found]
    simp only [Option.any_some, decide_true, if_true]
    exact ⟨rfl, inside, fun _ => rfl⟩
  · rename_i same
    cases cbp with
    | none => exact absurd rfl same
    | some old =>
        have here : old.ino = cb.ino := by simpa using same
        exact ⟨here, remembered old rfl, fun _ => rfl⟩

theorem Cached.findable (cached : Cached sfs bs cs fresh) (placed : ∀ cb ∈ bs, bucket fresh cb = hash32 cb.ino) :
    Findable sfs bs cs := by
  have block : ∀ cb ∈ bs, searchCacheBlock sfs cb.ino = some cb := fun cb inside =>
    (cached.blocks.search_key inside _).mpr (placed cb inside)
  have stored : ∀ cb ∈ bs, ∃ b, cb ∈ sfs.blocks b :=
    fun cb inside => ⟨_, (cached.blocks.mem_iff _ cb).mpr ⟨inside, rfl⟩⟩
  refine
    { block := block
      noBlock := fun n absent => cached.blocks.search_none absent _
      inode := fun ci inside => (cached.inodes.search_key inside _).mpr rfl
      noInode := fun real absent => cached.inodes.search_none absent _
      update := fun cbp remembered inop asked => ?_ }
  by_cases zero : inop = 0
  · subst zero
    exact updateCache_zero sfs cbp
  · obtain ⟨cb, inside, rfl⟩ := List.mem_map.mp (asked.resolve_left zero)
    exact updateCache_found (fun old same => stored old (remembered old same)) (stored cb inside) (block cb inside) zero

theorem hash32_zero : hash32 0 = 0 := by decide

/-- After calls with distinct keys, everything can be found exactly when every fresh number a
    block was given has the hash of 0. -/
theorem caches_findable_iff (allocated : Allocated sfs bs cs fresh) :
    Findable sfs bs cs ↔ ∀ n ∈ fresh, hash32 n = 0 := by
  have cached := allocated.cached
  constructor
  · intro findable n given
    obtain ⟨cb, inside, rfl⟩ := List.mem_map.mp (cached.known given)
    have placed := (cached.blocks.search_key inside (hash32 cb.ino)).mp (findable.block cb inside)
    rw [bucket, if_pos given, hash32_zero] at placed
    exact placed.symm
  · intro zero
    refine cached.findable fun cb _ => ?_
    rw [bucket]
    split
    · rename_i given
      rw [zero cb.ino given, hash32_zero]
    · rfl

/-- An image of forty blocks: the root is block 1, the first fresh number is 3. -/
def image : SfsFs where
  unusedBlocks := 37
  ninos := 40
  nextIno := 3
  inodes := push (fun _ => []) (hash64 0)
    { addr := 0, inode := { type := SFS_TYPE_DIR }, real := 0, ino := SFS_BLKN_ROOT }
  blocks := fun _ => []
  mallocs := 1

theorem image_allocated : ∃ root, Allocated image [] [root] [] := ⟨_, @Allocated.created (40 * 4096) _ image rfl⟩

/-- Directories take the fresh numbers from 3 on. -/
theorem dirs_allocated {count : Nat} (few : count ≤ 230) : ∃ sfs cs, Allocated sfs [] cs [] ∧
    sfs.nextIno = UInt32.ofNat (3 + count) ∧ sfs.ninos = 1000 ∧ ∀ ci ∈ cs, ci.real.toNat ≤ count := by
  induction count with
  | zero =>
      refine ⟨_, _, @Allocated.created (1000 * 4096) _ _ rfl, rfl, rfl, fun ci inside => ?_⟩
      rw [List.mem_singleton.mp inside]
      exact Nat.le_refl 0
  | succ count ih =>
      obtain ⟨sfs, cs, allocated, next, all, keys⟩ := ih (by omega)
      have room : sfs.nextIno < sfs.ninos := by
        rw [next, all, UInt32.lt_iff_toNat_lt, UInt32.toNat_ofNat', Nat.mod_eq_of_lt (by omega)]
        exact show 3 + count < 1000 by omega
      have key : (UInt64.ofNat (count + 1)).toNat = count + 1 := by
        rw [UInt64.toNat_ofNat', Nat.mod_eq_of_lt (by omega)]
      obtain ⟨ci, t, ran, value, fresh, same⟩ : ∃ ci t,
        allocCacheInode sfs (UInt64.ofNat (count + 1)) 0 SFS_TYPE_DIR = .ok (ci, t) ∧
          ci.real = UInt64.ofNat (count + 1) ∧ t.nextIno = sfs.nextIno + 1 ∧ t.ninos = sfs.ninos := by
        rw [allocCacheInode, chooseIno, if_neg (by decide), sfsAllocIno, if_pos room]
        exact ⟨_, _, rfl, rfl, rfl, rfl⟩
      refine ⟨t, ci :: cs, allocated.inode _ 0 SFS_TYPE_DIR ran fun inside => ?_, ?_, same.trans all,
        fun ci inside => ?_⟩
      · obtain ⟨ci, old, same⟩ := List.mem_map.mp inside
        have low := keys ci old
        rw [same, key] at low
        omega
      · rw [fresh, next]
        exact (UInt32.ofNat_add (3 + count) 1).symm
      · rcases List.mem_cons.mp inside with rfl | old
        · exact (value ▸ key).le
        · exact (keys ci old).trans (Nat.le_succ count)

/-- The fresh number 233 has the hash of 0, so a block with it is found, as one with a given number is. -/
theorem caches_findable_iff_fresh : ∃ sfs u t cb cb' cs, allocCacheBlock sfs 0 = .ok (cb, u) ∧ cb.ino = 233 ∧
    allocCacheBlock u 7 = .ok (cb', t) ∧ Findable t [cb', cb] cs := by
  obtain ⟨sfs, cs, allocated, next, all, -⟩ := dirs_allocated (Nat.le_refl 230)
  have room : sfs.nextIno < sfs.ninos := by
    rw [next, all]
    decide
  obtain ⟨cb, u, ran⟩ : ∃ cb u, allocCacheBlock sfs 0 = .ok (cb, u) := by
    rw [allocCacheBlock, chooseIno, if_neg (by decide), sfsAllocIno, if_pos room]
    exact ⟨_, _, rfl⟩
  have number : cb.ino = 233 := by
    rw [(allocCacheBlock_eq ran).1, if_pos rfl, next]
    rfl
  have first := allocated.block 0 ran List.not_mem_nil
  obtain ⟨cb', t, ran'⟩ : ∃ cb' t, allocCacheBlock u 7 = .ok (cb', t) := ⟨_, _, rfl⟩
  have number' : cb'.ino = 7 := (allocCacheBlock_eq ran').1
  have second := first.block 7 ran' (by rw [List.map_singleton, number, number']; decide)
  refine ⟨sfs, u, t, cb, cb', cs, ran, number, ran', (caches_findable_iff second).mpr fun n given => ?_⟩
  rw [if_neg (by decide), if_pos rfl, next] at given
  rw [List.mem_singleton.mp given]
  decide

/-- A block with a fresh number is not: `update_cache` stops at its assertion. -/
theorem fresh_block_lost :
    ∃ cb t root, Allocated t [cb] [root] [3] ∧ cb.ino = 3 ∧ searchCacheBlock t 3 = none ∧
      updateCache t none 3 = .error .assertion ∧ ¬ Findable t [cb] [root] := by
  obtain ⟨root, start⟩ := image_allocated
  refine ⟨_, _, root, start.block 0 rfl List.not_mem_nil, rfl, rfl, rfl, fun findable => ?_⟩
  have lost := findable.block _ List.mem_cons_self
  cases lost

end Ucore.Tools.Mksfs
