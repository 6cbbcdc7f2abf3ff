import Ucore.Tools.MksfsImage
import Ucore.Lib.Outcome

/-! # The blocks of an image in the making

Every number that has been given out is in one place: it is that of an inode, of an index
block, or one of the numbers in the map of a file. So writing to one block leaves what is in
the others as it is. This is followed as far as a file has one index block at most.
-/

namespace Ucore.Tools.MksfsBlocks

open Lib.Bytes Lib.HashChain Lib.Outcome Mksfs MksfsImage

/-- The number in the map of a file at an index. -/
def mapped (body : Body) (cache : Nat → Block) (k : Nat) : Nat :=
  if k < SFS_NDIRECT then (body.inode.direct.getD k 0).toNat
  else body.l1.elim 0 fun l1 => word (cache l1.addr) (k - SFS_NDIRECT)

def numbers (t : Tool) (file : Nat) : List Nat :=
  (List.range (t.body file).nblks.toNat).map (mapped (t.body file) t.cache)

def indexes (body : Body) : List Nat := body.l1.toList.map fun l1 => l1.ino.toNat

/-- The numbers of the blocks of a file, that of its inode first. -/
def own (t : Tool) (ci : CacheInode) : List Nat := ci.ino.toNat :: (indexes (t.body ci.addr) ++ numbers t ci.addr)

/-- An inode with one index block at most, and nothing behind the last block. -/
structure Shape (body : Body) (cache : Nat → Block) : Prop where
  blocks : body.inode.blocks = body.nblks
  few : body.nblks.toNat ≤ SFS_L1_NBLKS
  direct : body.inode.direct.length = SFS_NDIRECT
  spare : ∀ k, body.nblks.toNat ≤ k → k < SFS_L1_NBLKS → mapped body cache k = 0
  index : body.l1.isSome = true ↔ SFS_NDIRECT < body.nblks.toNat
  indirect : body.inode.indirect = body.l1.elim 0 CacheBlock.ino

structure Counted (sfs : SfsFs) : Prop where
  first : (firstIno sfs.ninos).toNat ≤ sfs.nextIno.toNat
  below : sfs.nextIno.toNat ≤ sfs.ninos.toNat
  size : sfs.ninos ≤ SFS_MAX_NBLKS
  unused : sfs.unusedBlocks.toNat = sfs.ninos.toNat - sfs.nextIno.toNat

/-- The numbers given out: that of the root, and those behind the freemap. -/
def given (sfs : SfsFs) : List Nat :=
  1 :: List.range' (firstIno sfs.ninos).toNat (sfs.nextIno.toNat - (firstIno sfs.ninos).toNat)

/-- The inodes `made` are in the cache with their index blocks, and every number given out is
    in one place there, or `held`. -/
structure Sound (t : Tool) (made : List CacheInode) (held : List Nat) : Prop where
  counted : Counted t.sfs
  inodes : ∀ ci, (∃ b, ci ∈ t.sfs.inodes b) ↔ ci ∈ made
  blocks : ∀ cb, (∃ b, cb ∈ t.sfs.blocks b) ↔ ∃ ci ∈ made, (t.body ci.addr).l1 = some cb
  buckets : ∀ b : UInt32, HASH_LIST_SIZE ≤ b.toNat → t.sfs.inodes b = [] ∧ t.sfs.blocks b = []
  addrs : (made.map CacheInode.addr).Nodup
  old : ∀ ci ∈ made, ci.addr < t.sfs.mallocs ∧ ∀ cb, (t.body ci.addr).l1 = some cb → cb.addr < t.sfs.mallocs
  apart : ∀ ci ∈ made, ∀ di ∈ made, ∀ x y, (t.body ci.addr).l1 = some x → (t.body di.addr).l1 = some y →
    x.addr = y.addr → ci = di
  shape : ∀ ci ∈ made, Shape (t.body ci.addr) t.cache
  numbers : (held ++ made.flatMap (own t)).Perm (given t.sfs)

variable {t t' : Tool} {made : List CacheInode} {held : List Nat} {ci : CacheInode}

theorem firstIno_toNat {ninos : UInt32} (size : ninos ≤ SFS_MAX_NBLKS) :
    (firstIno ninos).toNat = 2 + (ninos.toNat + 32767) / 32768 := by
  have bound : ninos.toNat ≤ 1024 * 512 := UInt32.le_iff_toNat_le.mp size
  have small : ninos.toNat + 32768 < 2 ^ 32 := by omega
  simp only [firstIno, SFS_BLKN_FREEMAP, SFS_BLKBITS, UInt32.toNat_add, UInt32.toNat_div, UInt32.toNat_sub,
    UInt32.toNat_ofNat, Nat.reducePow, Nat.reduceMod]
  omega

namespace Counted

variable {sfs : SfsFs}

theorem one_lt (counted : Counted sfs) : 1 < (firstIno sfs.ninos).toNat := by
  rw [firstIno_toNat counted.size]
  omega

theorem nodup_given (counted : Counted sfs) : (given sfs).Nodup := by
  refine List.nodup_cons.mpr ⟨fun inside => ?_, List.nodup_range'⟩
  have := (List.mem_range'_1.mp inside).1
  exact absurd counted.one_lt (by omega)

theorem mem_given (counted : Counted sfs) {n : Nat} :
    n ∈ given sfs ↔ n = 1 ∨ ((firstIno sfs.ninos).toNat ≤ n ∧ n < sfs.nextIno.toNat) := by
  have := counted.first
  rw [given, List.mem_cons, List.mem_range'_1]
  omega

end Counted

/-! ## Numbers -/

/-- The state after the next number has been given out. -/
def takeIno (sfs : SfsFs) : SfsFs := { sfs with unusedBlocks := sfs.unusedBlocks - 1, nextIno := sfs.nextIno + 1 }

theorem sfsAllocIno_ends {sfs : SfsFs} (counted : Counted sfs) :
    Ends (sfsAllocIno sfs) fun r => r = (sfs.nextIno, takeIno sfs) ∧ Counted (takeIno sfs) ∧
      (given (takeIno sfs)).Perm (sfs.nextIno.toNat :: given sfs) := by
  rw [sfsAllocIno, ends_ite]
  refine ⟨fun room => ends_ok.mpr ⟨rfl, ?_, ?_⟩, fun _ => ends_error⟩
  all_goals
    have room := UInt32.lt_iff_toNat_lt.mp room
    have first := counted.first
    have size := UInt32.le_iff_toNat_le.mp counted.size
    have unused := counted.unused
    have next : (sfs.nextIno + 1).toNat = sfs.nextIno.toNat + 1 := by
      rw [UInt32.toNat_add, UInt32.toNat_one]
      exact Nat.mod_eq_of_lt (by simp [SFS_MAX_NBLKS] at size; omega)
  · refine ⟨?_, ?_, counted.size, ?_⟩
    · simp only [takeIno]
      omega
    · simp only [takeIno]
      omega
    · simp only [takeIno]
      rw [UInt32.toNat_sub_of_le, next, unused, UInt32.toNat_one]
      · omega
      · apply UInt32.le_iff_toNat_le.mpr
        rw [UInt32.toNat_one]
        omega
  · have count : sfs.nextIno.toNat + 1 - (firstIno sfs.ninos).toNat =
        sfs.nextIno.toNat - (firstIno sfs.ninos).toNat + 1 := by omega
    have last : (firstIno sfs.ninos).toNat + (sfs.nextIno.toNat - (firstIno sfs.ninos).toNat) = sfs.nextIno.toNat := by
      omega
    simp only [given, takeIno]
    rw [next, count, List.range'_1_concat, last, ← List.cons_append]
    exact List.perm_append_comm

theorem allocIno_ends (sound : Sound t made held) :
    Ends (allocIno t) fun r => r = (t.sfs.nextIno, { t with sfs := takeIno t.sfs }) ∧
      Sound { t with sfs := takeIno t.sfs } made (t.sfs.nextIno.toNat :: held) := by
  rw [allocIno, ends_bind]
  refine (sfsAllocIno_ends sound.counted).mono ?_
  rintro r ⟨rfl, counted, more⟩
  refine ends_pure.mpr ⟨rfl, { sound with counted := counted, numbers := ?_ }⟩
  exact (sound.numbers.cons t.sfs.nextIno.toNat).trans more.symm

/-! ## A block goes into a file -/

/-- What a file becomes when the number in hand goes into its map, along with what becomes of
    the caches. `fresh` has the number of a new index block. -/
structure Grown (t t' : Tool) (file ino : Nat) (body' : Body) (fresh : List Nat) : Prop where
  inodes : t'.sfs.inodes = t.sfs.inodes
  ninos : t'.sfs.ninos = t.sfs.ninos
  counted : Counted t'.sfs
  given : (given t'.sfs).Perm (fresh ++ given t.sfs)
  body : t'.body = Function.update t.body file body'
  shape : Shape body' t'.cache
  nblks : body'.nblks.toNat = (t.body file).nblks.toNat + 1
  mapped : ∀ k ≤ (t.body file).nblks.toNat, mapped body' t'.cache k =
    if k = (t.body file).nblks.toNat then ino else mapped (t.body file) t.cache k
  indexes : indexes body' = fresh ++ indexes (t.body file)
  cache : ∀ addr, (∀ l1, body'.l1 = some l1 → l1.addr ≠ addr) → t'.cache addr = t.cache addr
  mallocs : t.sfs.mallocs ≤ t'.sfs.mallocs
  blocks : ∀ cb, (∃ b, cb ∈ t'.sfs.blocks b) ↔ (∃ b, cb ∈ t.sfs.blocks b) ∨ body'.l1 = some cb
  buckets : ∀ b : UInt32, HASH_LIST_SIZE ≤ b.toNat → t.sfs.blocks b = [] → t'.sfs.blocks b = []
  index : body'.l1 = (t.body file).l1 ∨
    (t.body file).l1 = none ∧ ∀ l1, body'.l1 = some l1 → t.sfs.mallocs ≤ l1.addr ∧ l1.addr < t'.sfs.mallocs

namespace Grown

variable {ino : Nat} {body' : Body} {fresh : List Nat}

theorem body_self (grown : Grown t t' ci.addr ino body' fresh) : t'.body ci.addr = body' := by
  rw [grown.body, Function.update_self]

theorem body_of_ne (grown : Grown t t' ci.addr ino body' fresh) {file : Nat} (other : file ≠ ci.addr) :
    t'.body file = t.body file := by
  rw [grown.body, Function.update_of_ne other]

theorem numbers_self (grown : Grown t t' ci.addr ino body' fresh) :
    numbers t' ci.addr = numbers t ci.addr ++ [ino] := by
  rw [numbers, grown.body_self, grown.nblks, List.range_succ, List.map_append, numbers]
  congr 1
  · refine List.map_congr_left fun k below => ?_
    have below := List.mem_range.mp below
    rw [grown.mapped k below.le, if_neg below.ne]
  · rw [List.map_singleton, grown.mapped _ (Nat.le_refl _), if_pos rfl]

/-- The index blocks of other files are as they were. -/
theorem cache_other (sound : Sound t made held) (member : ci ∈ made) (grown : Grown t t' ci.addr ino body' fresh)
    {di : CacheInode} (other : di ∈ made) (ne : di ≠ ci) {l1 : CacheBlock} (index : (t.body di.addr).l1 = some l1) :
    t'.cache l1.addr = t.cache l1.addr := by
  refine grown.cache _ fun mine same clash => ?_
  rcases grown.index with old | ⟨-, new⟩
  · exact ne (sound.apart ci member di other mine l1 (old ▸ same) index clash).symm
  · exact absurd ((sound.old di other).2 l1 index) (by have := (new mine same).1; omega)

theorem mapped_other (sound : Sound t made held) (member : ci ∈ made) (grown : Grown t t' ci.addr ino body' fresh)
    {di : CacheInode} (other : di ∈ made) (ne : di ≠ ci) :
    MksfsBlocks.mapped (t.body di.addr) t'.cache = MksfsBlocks.mapped (t.body di.addr) t.cache := by
  funext k
  cases index : (t.body di.addr).l1 with
  | none => simp only [MksfsBlocks.mapped, index, Option.elim_none]
  | some l1 =>
      simp only [MksfsBlocks.mapped, index, Option.elim_some, grown.cache_other sound member other ne index]

theorem apart_addr (sound : Sound t made held) (member : ci ∈ made) {di : CacheInode} (other : di ∈ made)
    (ne : di ≠ ci) : di.addr ≠ ci.addr := fun same =>
  ne (List.inj_on_of_nodup_map sound.addrs other member same)

theorem numbers_other (sound : Sound t made held) (member : ci ∈ made) (grown : Grown t t' ci.addr ino body' fresh)
    {di : CacheInode} (other : di ∈ made) (ne : di ≠ ci) : numbers t' di.addr = numbers t di.addr := by
  rw [numbers, grown.body_of_ne (apart_addr sound member other ne), grown.mapped_other sound member other ne, numbers]

theorem sound (sound : Sound t made (ino :: held)) (member : ci ∈ made)
    (grown : Grown t t' ci.addr ino body' fresh) : Sound t' made held := by
  have body : ∀ di ∈ made, di ≠ ci → t'.body di.addr = t.body di.addr := fun di other ne =>
    grown.body_of_ne (apart_addr sound member other ne)
  have fresh_index : ∀ di ∈ made, ∀ y, (t'.body di.addr).l1 = some y →
      y.addr < t'.sfs.mallocs ∧ (di ≠ ci → (t.body di.addr).l1 = some y ∧ y.addr < t.sfs.mallocs) := by
    intro di other y index
    by_cases here : di = ci
    · subst here
      refine ⟨?_, fun ne => absurd rfl ne⟩
      rw [grown.body_self] at index
      rcases grown.index with old | ⟨-, new⟩
      · exact Nat.lt_of_lt_of_le ((sound.old di other).2 y (old ▸ index)) grown.mallocs
      · exact (new y index).2
    · rw [body di other here] at index
      have bound := (sound.old di other).2 y index
      exact ⟨Nat.lt_of_lt_of_le bound grown.mallocs, fun _ => ⟨index, bound⟩⟩
  -- The address of the index block of this file is that of no other one.
  have mine_apart : ∀ di ∈ made, di ≠ ci → ∀ x y, (t'.body ci.addr).l1 = some x → (t'.body di.addr).l1 = some y →
      x.addr ≠ y.addr := by
    intro di other ne x y mine theirs clash
    obtain ⟨index, bound⟩ := (fresh_index di other y theirs).2 ne
    rw [grown.body_self] at mine
    rcases grown.index with old | ⟨-, new⟩
    · exact ne (sound.apart ci member di other x y (old ▸ mine) index clash).symm
    · have := (new x mine).1
      omega
  refine
    { counted := grown.counted
      inodes := fun di => by rw [grown.inodes]; exact sound.inodes di
      blocks := fun cb => ?_
      buckets := fun b high => ?_
      addrs := sound.addrs
      old := fun di other => ⟨Nat.lt_of_lt_of_le (sound.old di other).1 grown.mallocs, fun y index =>
        (fresh_index di other y index).1⟩
      apart := fun di other ei another x y left right clash => ?_
      shape := fun di other => ?_
      numbers := ?_ }
  · rw [grown.blocks, sound.blocks]
    constructor
    · rintro (⟨di, other, index⟩ | new)
      · by_cases here : di = ci
        · subst here
          refine ⟨di, other, ?_⟩
          rw [grown.body_self]
          rcases grown.index with old | ⟨before, -⟩
          · rw [old, index]
          · rw [before] at index
            cases index
        · exact ⟨di, other, by rw [body di other here, index]⟩
      · exact ⟨ci, member, by rw [grown.body_self, new]⟩
    · rintro ⟨di, other, index⟩
      by_cases here : di = ci
      · subst here
        rw [grown.body_self] at index
        exact .inr index
      · exact .inl ⟨di, other, by rw [← body di other here, index]⟩
  · rw [grown.inodes]
    exact ⟨(sound.buckets b high).1, grown.buckets b high (sound.buckets b high).2⟩
  · by_cases first : di = ci
    · by_cases second : ei = ci
      · rw [first, second]
      · subst first
        exact absurd clash (mine_apart ei another second x y left right)
    · by_cases second : ei = ci
      · subst second
        exact absurd clash.symm (mine_apart di other first y x right left)
      · exact sound.apart di other ei another x y ((fresh_index di other x left).2 first).1
          ((fresh_index ei another y right).2 second).1 clash
  · by_cases here : di = ci
    · rw [here, grown.body_self]
      exact grown.shape
    · have shape := sound.shape di other
      rw [body di other here]
      exact ⟨shape.blocks, shape.few,
        shape.direct, by rw [grown.mapped_other sound member other here]; exact shape.spare,
        shape.index, shape.indirect⟩
  · have changed : (made.flatMap (own t')).Perm ((ino :: fresh) ++ made.flatMap (own t)) := by
      refine flatMap_perm sound.addrs.of_map member ?_ fun di other ne => ?_
      · rw [own, own, grown.numbers_self, grown.body_self, grown.indexes]
        rw [List.perm_iff_count]
        intro n
        simp only [List.count_cons, List.count_append, List.count_nil]
        omega
      · rw [own, own, body di other ne, grown.numbers_other sound member other ne]
    have before := sound.numbers
    have after := grown.given
    rw [List.perm_iff_count] at before after changed ⊢
    intro n
    have before := before n
    have after := after n
    have changed := changed n
    simp only [List.count_cons, List.count_append] at before after changed ⊢
    omega

end Grown

/-! ## `append_block` -/

/-- A block that is new in the cache. -/
def newBlock (sfs : SfsFs) : CacheBlock := ⟨sfs.mallocs, sfs.nextIno, zeros⟩

def pushBlock (sfs : SfsFs) : SfsFs :=
  { takeIno sfs with blocks := push sfs.blocks (hash32 0) (newBlock sfs), mallocs := sfs.mallocs + 1 }

theorem update_new (cbp : Option CacheBlock) (counted : Counted t.sfs) :
    Ends (update t cbp 0) fun r =>
      r = (newBlock t.sfs, t.sfs.nextIno,
          { t with sfs := pushBlock t.sfs, cache := Function.update t.cache t.sfs.mallocs zeros }) ∧
        Counted (pushBlock t.sfs) ∧ (given (pushBlock t.sfs)).Perm (t.sfs.nextIno.toNat :: given t.sfs) := by
  rw [update, updateCache, if_pos rfl, allocCacheBlock, chooseIno, if_neg (by simp)]
  simp only [ends_bind]
  refine (sfsAllocIno_ends counted).mono ?_
  rintro r ⟨rfl, counted, more⟩
  simp only [ends_pure, if_true]
  exact ⟨rfl, ⟨counted.first, counted.below, counted.size, counted.unused⟩, more⟩

theorem update_old {cb : CacheBlock} (nonzero : cb.ino ≠ 0) : update t (.some cb) cb.ino = .ok (cb, cb.ino, t) := by
  rw [update, updateCache, if_neg nonzero]
  simp only [Option.all_some, ne_eq, not_true_eq_false, decide_false, Bool.false_eq_true, if_false]
  change (pure _ : Except Halt _) = _
  rw [if_neg nonzero]
  rfl

theorem hash32_lt (v : UInt32) : (hash32 v).toNat < HASH_LIST_SIZE := by
  have bound := (v * GOLDEN_RATIO_PRIME_32).toNat_lt
  simp only [hash32, HASH_SHIFT, UInt32.toNat_shiftRight, HASH_LIST_SIZE]
  rw [show (32 - 10 : UInt32).toNat % 32 = 22 from rfl, Nat.shiftRight_eq_div_pow]
  omega

theorem hash64_lt (v : UInt64) : (Mksfs.hash64 v).toNat < HASH_LIST_SIZE := hash32_lt v.toUInt32

/-- A bucket beyond the table stays empty. -/
theorem push_high {chains : UInt32 → List ν} {b c : UInt32} {v : ν} (low : b.toNat < HASH_LIST_SIZE)
    (high : HASH_LIST_SIZE ≤ c.toNat) (empty : chains c = []) : push chains b v c = [] := by
  rw [push, Function.update_of_ne, empty]
  rintro rfl
  omega

theorem Shape.push {body body' : Body} {cache cache' : Nat → Block} {ino : Nat} (shape : Shape body cache)
    (room : body.nblks.toNat < SFS_L1_NBLKS) (nblks : body'.nblks = body.nblks + 1)
    (blocks : body'.inode.blocks = body.inode.blocks + 1) (direct : body'.inode.direct.length = SFS_NDIRECT)
    (mapped : ∀ k < SFS_L1_NBLKS, mapped body' cache' k =
      if k = body.nblks.toNat then ino else mapped body cache k)
    (index : body'.l1.isSome = true ↔ SFS_NDIRECT ≤ body.nblks.toNat)
    (indirect : body'.inode.indirect = body'.l1.elim 0 CacheBlock.ino) :
    Shape body' cache' ∧ body'.nblks.toNat = body.nblks.toNat + 1 := by
  have next : body'.nblks.toNat = body.nblks.toNat + 1 := by
    rw [nblks, UInt32.toNat_add, UInt32.toNat_one]
    exact Nat.mod_eq_of_lt (by have : SFS_L1_NBLKS = 1036 := rfl; omega)
  refine ⟨⟨by rw [blocks, nblks, shape.blocks], by omega, direct, fun k behind inside => ?_, ?_, indirect⟩, next⟩
  · rw [mapped k inside, if_neg (by omega)]
    exact shape.spare k (by omega) inside
  · rw [index]
    omega

/-- The file is longer by one block, the rest of its inode is the same. -/
structure Longer (body body' : Body) (size : Nat) : Prop where
  type : body'.inode.type = body.inode.type
  nlinks : body'.inode.nlinks = body.inode.nlinks
  size : body'.inode.size = body.inode.size + UInt32.ofNat size

theorem Sound.index_ne_zero (sound : Sound t made held) (member : ci ∈ made) {l1 : CacheBlock}
    (index : (t.body ci.addr).l1 = some l1) : l1.ino ≠ 0 := by
  intro zero
  have mine : (0 : Nat) ∈ own t ci := by
    rw [own, indexes, index]
    simp [zero]
  have inside := sound.numbers.mem_iff.mp (List.mem_append_right held (List.mem_flatMap.mpr ⟨ci, member, mine⟩))
  rcases (sound.counted.mem_given).mp inside with one | high
  · cases one
  · have := sound.counted.one_lt
    omega

/-- The last statements of `append_block`. -/
def lengthen (body : Body) (size : Nat) : Body :=
  { body with
    nblks := body.nblks + 1
    inode := { body.inode with size := body.inode.size + UInt32.ofNat size, blocks := body.inode.blocks + 1 } }

theorem appendBlock_eq {file size : Nat} {ino : UInt32} (few : (t.body file).nblks.toNat < SFS_L1_NBLKS) :
    Ends (appendBlock t file size ino) Q ↔
      (size ≤ SFS_BLKSIZE → Ends (place t file ino) fun u => Q (u.setBody file (lengthen (u.body file) size))) := by
  have small : ¬ SFS_LN_NBLKS ≤ (t.body file).nblks.toNat := by
    have : SFS_L1_NBLKS < SFS_LN_NBLKS := by decide
    omega
  rw [appendBlock, if_neg small]
  by_cases big : SFS_BLKSIZE < size
  · rw [if_pos big]
    exact ⟨fun _ fits => absurd big (Nat.not_lt.mpr fits), fun _ => ends_error⟩
  · rw [if_neg big, ends_bind]
    simp only [ends_pure]
    exact ⟨fun ends _ => ends, fun ends => ends (Nat.not_lt.mp big)⟩

variable {ino : UInt32}

/-- One of the first blocks of a file. -/
theorem grown_direct (size : Nat) (sound : Sound t made (ino.toNat :: held)) (member : ci ∈ made)
    (low : (t.body ci.addr).nblks.toNat < SFS_L0_NBLKS) :
    ∃ u, place t ci.addr ino = .ok u ∧ u.img = t.img ∧ u.name = t.name ∧ ∃ fresh,
      Grown t (u.setBody ci.addr (lengthen (u.body ci.addr) size)) ci.addr ino.toNat
        (lengthen (u.body ci.addr) size) fresh ∧
        Longer (t.body ci.addr) (lengthen (u.body ci.addr) size) size := by
  have shape := sound.shape ci member
  have few : (t.body ci.addr).nblks.toNat < SFS_NDIRECT := low
  refine ⟨_, if_pos low, rfl, rfl, [], ?_⟩
  simp only [Tool.setBody, Function.update_self, Function.update_idem]
  set body' := lengthen { (t.body ci.addr) with inode := { (t.body ci.addr).inode with
    direct := (t.body ci.addr).inode.direct.set (t.body ci.addr).nblks.toNat ino } } size with same
  have changed : ∀ k, mapped body' t.cache k =
      if k = (t.body ci.addr).nblks.toNat then ino.toNat else mapped (t.body ci.addr) t.cache k := by
    intro k
    by_cases here : k = (t.body ci.addr).nblks.toNat
    · subst here
      rw [if_pos rfl, mapped, if_pos few, List.getD_eq_getElem?_getD]
      exact congrArg (UInt32.toNat ·)
        (by rw [same, lengthen, List.getElem?_set_self (by rw [shape.direct]; exact few)]; rfl)
    · rw [if_neg here, mapped, mapped]
      simp only [same, lengthen, List.getD_eq_getElem?_getD, List.getElem?_set_ne (Ne.symm here)]
  have index : (t.body ci.addr).l1.isSome = true ↔ SFS_NDIRECT ≤ (t.body ci.addr).nblks.toNat := by
    rw [shape.index]
    omega
  obtain ⟨shape', next⟩ := shape.push (few.trans (by decide)) rfl rfl
    (by rw [same, lengthen, List.length_set, shape.direct])
    (fun k _ => changed k) index shape.indirect
  exact
    ⟨{ inodes := rfl
       ninos := rfl
       counted := sound.counted
       given := List.Perm.refl _
       body := rfl
       shape := shape'
       nblks := next
       mapped := fun k _ => changed k
       indexes := rfl
       cache := fun _ _ => rfl
       mallocs := Nat.le_refl _
       blocks := fun cb => ⟨.inl, fun either => either.elim id fun index => (sound.blocks cb).mpr ⟨ci, member, index⟩⟩
       buckets := fun _ _ empty => empty
       index := .inl rfl }, rfl, rfl, rfl⟩

/-- What `update_cache` does for the index block of a file. -/
structure Indexed (t u : Tool) (file : Body) (l1 : CacheBlock) (fresh : List Nat) : Prop where
  body : u.body = t.body
  img : u.img = t.img
  name : u.name = t.name
  inodes : u.sfs.inodes = t.sfs.inodes
  ninos : u.sfs.ninos = t.sfs.ninos
  counted : Counted u.sfs
  given : (given u.sfs).Perm (fresh ++ given t.sfs)
  mapped : ∀ k, mapped { file with l1 := some l1 } u.cache k = mapped file t.cache k
  indexes : [l1.ino.toNat] = fresh ++ indexes file
  cache : ∀ addr, l1.addr ≠ addr → u.cache addr = t.cache addr
  mallocs : t.sfs.mallocs ≤ u.sfs.mallocs
  blocks : ∀ cb, (∃ b, cb ∈ u.sfs.blocks b) ↔ (∃ b, cb ∈ t.sfs.blocks b) ∨ some l1 = some cb
  buckets : ∀ b : UInt32, HASH_LIST_SIZE ≤ b.toNat → t.sfs.blocks b = [] → u.sfs.blocks b = []
  index : some l1 = file.l1 ∨ file.l1 = none ∧ t.sfs.mallocs ≤ l1.addr ∧ l1.addr < u.sfs.mallocs

theorem update_indexed (sound : Sound t made held) (member : ci ∈ made) :
    Ends (update t (t.body ci.addr).l1 (t.body ci.addr).inode.indirect) fun r =>
      r.2.1 = r.1.ino ∧ ∃ fresh, Indexed t r.2.2 (t.body ci.addr) r.1 fresh := by
  have shape := sound.shape ci member
  cases index : (t.body ci.addr).l1 with
  | none =>
      rw [shape.indirect, index, Option.elim_none]
      refine (update_new none sound.counted).mono ?_
      rintro r ⟨rfl, counted, more⟩
      refine ⟨rfl, [t.sfs.nextIno.toNat], ?_⟩
      exact
        { body := rfl
          img := rfl
          name := rfl
          inodes := rfl
          ninos := rfl
          counted := counted
          given := more
          mapped := fun k => by simp [mapped, index, newBlock]
          indexes := by rw [indexes, index]; rfl
          cache := fun addr other => Function.update_of_ne (Ne.symm other) ..
          mallocs := Nat.le_succ _
          blocks := fun cb => by
            rw [pushBlock, mem_push]
            simp only [Option.some.injEq, eq_comm, or_comm, takeIno]
          buckets := fun b high empty => push_high (hash32_lt 0) high empty
          index := .inr ⟨index, Nat.le_refl _, Nat.lt_succ_self _⟩ }
  | some l1 =>
      rw [shape.indirect, index, Option.elim_some, update_old (sound.index_ne_zero member index), ends_ok]
      refine ⟨rfl, [], ?_⟩
      exact
        { body := rfl
          img := rfl
          name := rfl
          inodes := rfl
          ninos := rfl
          counted := sound.counted
          given := List.Perm.refl _
          mapped := fun k => by simp only [mapped, index]
          indexes := by rw [indexes, index]; rfl
          cache := fun _ _ => rfl
          mallocs := Nat.le_refl _
          blocks := fun cb => by
            rw [sound.blocks]
            refine ⟨.inl, fun either => either.elim id fun same => ⟨ci, member, by rw [index, same]⟩⟩
          buckets := fun _ _ empty => empty
          index := .inl index.symm }

/-- One of the blocks of a file that its index block knows. -/
theorem grown_index (size : Nat) (sound : Sound t made (ino.toNat :: held)) (member : ci ∈ made)
    (high : ¬ (t.body ci.addr).nblks.toNat < SFS_L0_NBLKS) (low : (t.body ci.addr).nblks.toNat < SFS_L1_NBLKS) :
    Ends (place t ci.addr ino) fun u => u.img = t.img ∧ u.name = t.name ∧ ∃ fresh,
      Grown t (u.setBody ci.addr (lengthen (u.body ci.addr) size)) ci.addr ino.toNat
        (lengthen (u.body ci.addr) size) fresh ∧
        Longer (t.body ci.addr) (lengthen (u.body ci.addr) size) size := by
  have shape := sound.shape ci member
  have beyond : SFS_NDIRECT ≤ (t.body ci.addr).nblks.toNat := Nat.not_lt.mp high
  rw [place, if_neg high, if_pos low, ends_bind]
  refine (update_indexed sound member).mono ?_
  rintro ⟨l1, indirect, u⟩ ⟨number, fresh, indexed⟩
  obtain rfl : indirect = l1.ino := number
  simp only [ends_pure, Tool.setWord, Tool.setBody, Function.update_self, Function.update_idem]
  refine ⟨indexed.img, indexed.name, fresh, ?_⟩
  set body' := lengthen
    { (t.body ci.addr) with l1 := some l1, inode := { (t.body ci.addr).inode with indirect := l1.ino } } size with same
  set cache' := Function.update u.cache l1.addr
    (patch (u.cache l1.addr) (4 * ((t.body ci.addr).nblks.toNat - SFS_L0_NBLKS)) (toLe 4 ino.toNat)) with there
  have changed : ∀ k, mapped body' cache' k =
      if k = (t.body ci.addr).nblks.toNat then ino.toNat else mapped (t.body ci.addr) t.cache k := by
    intro k
    have entry : cache' l1.addr = patch (u.cache l1.addr) (4 * ((t.body ci.addr).nblks.toNat - SFS_NDIRECT)) (toLe 4
      ino.toNat) :=
      Function.update_self ..
    by_cases direct : k < SFS_NDIRECT
    · rw [if_neg (by omega), ← indexed.mapped k, mapped, mapped, if_pos direct, if_pos direct]
      rfl
    · rw [mapped, if_neg direct]
      change word (cache' l1.addr) (k - SFS_NDIRECT) = _
      rw [entry]
      by_cases here : k = (t.body ci.addr).nblks.toNat
      · rw [if_pos here, ← here, word_patch ino.toNat_lt]
      · rw [if_neg here, word_patch_of_ne (by omega), ← indexed.mapped k, mapped, if_neg direct]
        rfl
  obtain ⟨shape', next⟩ : Shape body' cache' ∧ body'.nblks.toNat = (t.body ci.addr).nblks.toNat + 1 :=
    shape.push low rfl rfl shape.direct (fun k _ => changed k) ⟨fun _ => beyond, fun _ => rfl⟩ rfl
  exact
    ⟨{ inodes := indexed.inodes
       ninos := indexed.ninos
       counted := indexed.counted
       given := indexed.given
       body := by rw [indexed.body]
       shape := shape'
       nblks := next
       mapped := fun k _ => changed k
       indexes := indexed.indexes
       cache := fun addr other => by
        have ne : l1.addr ≠ addr := other l1 rfl
        exact (Function.update_of_ne (Ne.symm ne) ..).trans (indexed.cache addr ne)
       mallocs := indexed.mallocs
       blocks := indexed.blocks
       buckets := indexed.buckets
       index := indexed.index.imp id fun new => ⟨new.1, fun l same => Option.some.inj same ▸ new.2⟩ }, rfl, rfl, rfl⟩

theorem appendBlock_ends (size : Nat) (sound : Sound t made (ino.toNat :: held)) (member : ci ∈ made)
    (room : (t.body ci.addr).nblks.toNat < SFS_L1_NBLKS) :
    Ends (appendBlock t ci.addr size ino) fun t' => t'.img = t.img ∧ t'.name = t.name ∧
      ∃ body' fresh, Grown t t' ci.addr ino.toNat body' fresh ∧ Longer (t.body ci.addr) body' size := by
  rw [appendBlock_eq room]
  intro _
  by_cases low : (t.body ci.addr).nblks.toNat < SFS_L0_NBLKS
  · obtain ⟨u, ran, img, name, fresh, grown⟩ := grown_direct size sound member low
    rw [ran, ends_ok]
    exact ⟨img, name, _, fresh, grown⟩
  · refine (grown_index size sound member low room).mono ?_
    rintro u ⟨img, name, fresh, grown⟩
    exact ⟨img, name, _, fresh, grown⟩

end Ucore.Tools.MksfsBlocks
