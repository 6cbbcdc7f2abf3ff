import Ucore.Tools.MksfsTree

/-! # Closing an image

The freemap, the superblock, the index blocks and the inodes are written in the end, each to a
block that nothing else is written to. The blocks of data stay as they are.
-/

namespace Ucore.Tools.MksfsClose

open Lib.Bytes Lib.HashChain Lib.Outcome Mksfs MksfsImage MksfsBlocks MksfsNodes MksfsTree

/-- The number of blocks of the freemap. -/
def turns (ninos : UInt32) : Nat := (ninos.toNat + SFS_BLKBITS.toNat - 1) / SFS_BLKBITS.toNat

/-- What is written to a block when the image is closed. -/
inductive Closing (t : Tool) (made : List CacheInode) (junk : List UInt8) : Nat → Block → Prop where
  | freemap (j : Nat) (inside : j < turns t.sfs.ninos) : Closing t made junk (SFS_BLKN_FREEMAP.toNat + j)
      (patch zeros 0 (freemapBytes (SFS_BLKBITS.toNat * j) t.sfs.ninos.toNat t.sfs.nextIno.toNat))
  | super : Closing t made junk 0 (patch zeros 0 (superBytes t.sfs junk))
  | index {ci : CacheInode} {cb : CacheBlock} (member : ci ∈ made) (l1 : (t.body ci.addr).l1 = some cb) :
      Closing t made junk cb.ino.toNat (patch zeros 0 (slice (t.cache cb.addr) 0 SFS_BLKSIZE))
  | inode {ci : CacheInode} (member : ci ∈ made) :
      Closing t made junk ci.ino.toNat (patch zeros 0 (inodeBytes (t.body ci.addr).inode))

/-- Only the image has changed, by these writes. -/
def Wrote (t t' : Tool) (P : Nat → Block → Prop) : Prop :=
  ∃ ws, t' = { t with img := write t.img ws } ∧ ∀ w, w ∈ ws ↔ P w.1 w.2

variable {t t' u : Tool} {made : List CacheInode} {junk : List UInt8} {P P' : Nat → Block → Prop}
variable {ci di : CacheInode} {b b' : Block} {n : Nat}

theorem Wrote.refl (t : Tool) : Wrote t t fun _ _ => False := ⟨[], rfl, fun _ => by simp⟩

theorem Wrote.trans (first : Wrote t u P) (second : Wrote u t' P') : Wrote t t' fun n b => P n b ∨ P' n b := by
  obtain ⟨ws, rfl, all⟩ := first
  obtain ⟨ws', rfl, all'⟩ := second
  exact ⟨ws ++ ws', by rw [write_append], fun w => by rw [List.mem_append, all, all']⟩

theorem Wrote.congr (wrote : Wrote t t' P) (same : ∀ n b, P n b ↔ P' n b) : Wrote t t' P' := by
  obtain ⟨ws, rfl, all⟩ := wrote
  exact ⟨ws, rfl, fun w => (all w).trans (same w.1 w.2)⟩

theorem Wrote.sfs (wrote : Wrote t t' P) : t'.sfs = t.sfs := by
  obtain ⟨ws, rfl, -⟩ := wrote
  rfl

theorem Wrote.body (wrote : Wrote t t' P) : t'.body = t.body := by
  obtain ⟨ws, rfl, -⟩ := wrote
  rfl

theorem Wrote.cache (wrote : Wrote t t' P) : t'.cache = t.cache := by
  obtain ⟨ws, rfl, -⟩ := wrote
  rfl

theorem writeBlock_wrote (t : Tool) (data : List UInt8) (ino : UInt32) :
    Ends (writeBlock t data ino) fun t' => Wrote t t' fun n b => n = ino.toNat ∧ b = patch zeros 0 data := by
  rw [writeBlock, ends_ite]
  refine ⟨fun _ => ends_ok.mpr ⟨[(ino.toNat, patch zeros 0 data)], rfl, fun w => ?_⟩, fun _ => ends_error⟩
  rw [List.mem_singleton, Prod.ext_iff]

/-- The writes of a loop over the blocks of the freemap. -/
theorem freemapLoop_wrote {count i : Nat} {ino : UInt32} (fits : ino.toNat + count < 2 ^ 32) :
    Ends (freemapLoop count i ino t) fun t' => Wrote t t' fun n b => ∃ j < count, n = ino.toNat + j ∧
      b = patch zeros 0 (freemapBytes (i + SFS_BLKBITS.toNat * j) t.sfs.ninos.toNat t.sfs.nextIno.toNat) := by
  induction count generalizing i ino t with
  | zero =>
      rw [freemapLoop, ends_ok]
      exact (Wrote.refl t).congr fun _ _ => by simp
  | succ count ih =>
      rw [freemapLoop, ends_bind]
      refine (writeBlock_wrote _ _ _).mono fun u first => ?_
      have next : (ino + 1).toNat = ino.toNat + 1 := by
        rw [UInt32.toNat_add, UInt32.toNat_one]
        exact Nat.mod_eq_of_lt (by omega)
      refine (ih (by omega)).mono fun t' rest => ?_
      rw [first.sfs, next] at rest
      refine (first.trans rest).congr fun n b => ?_
      have shift : ∀ j, i + SFS_BLKBITS.toNat + SFS_BLKBITS.toNat * j = i + SFS_BLKBITS.toNat * (j + 1) := fun j => by
        rw [Nat.mul_succ]
        omega
      simp only [shift, Nat.add_assoc, Nat.add_comm 1]
      constructor
      · rintro (⟨here, block⟩ | ⟨j, below, here, block⟩)
        · exact ⟨0, Nat.succ_pos _, here, block⟩
        · exact ⟨j + 1, Nat.succ_lt_succ below, here, block⟩
      · rintro ⟨j, below, here, block⟩
        cases j with
        | zero => exact .inl ⟨here, block⟩
        | succ j => exact .inr ⟨j, Nat.lt_of_succ_lt_succ below, here, block⟩

theorem flushBlocks_wrote (chain : List CacheBlock) (t : Tool) :
    Ends (flushBlocks chain t) fun t' => Wrote t t' fun n b => ∃ cb ∈ chain, n = cb.ino.toNat ∧
      b = patch zeros 0 (slice (t.cache cb.addr) 0 SFS_BLKSIZE) := by
  induction chain generalizing t with
  | nil =>
      rw [flushBlocks, ends_ok]
      exact (Wrote.refl t).congr fun _ _ => by simp
  | cons cb chain ih =>
      rw [flushBlocks, ends_bind]
      refine (writeBlock_wrote _ _ _).mono fun u first => (ih u).mono fun t' rest => ?_
      rw [first.cache] at rest
      refine (first.trans rest).congr fun n b => ?_
      rw [List.exists_mem_cons_iff]

theorem flushInodes_wrote (chain : List CacheInode) (t : Tool) :
    Ends (flushInodes chain t) fun t' => Wrote t t' fun n b => ∃ ci ∈ chain, n = ci.ino.toNat ∧
      b = patch zeros 0 (inodeBytes (t.body ci.addr).inode) := by
  induction chain generalizing t with
  | nil =>
      rw [flushInodes, ends_ok]
      exact (Wrote.refl t).congr fun _ _ => by simp
  | cons ci chain ih =>
      rw [flushInodes, ends_bind]
      refine (writeBlock_wrote _ _ _).mono fun u first => (ih u).mono fun t' rest => ?_
      rw [first.body] at rest
      refine (first.trans rest).congr fun n b => ?_
      rw [List.exists_mem_cons_iff]

/-- The writes for what is in a bucket. -/
def Bucket (t : Tool) (i : UInt32) (n : Nat) (b : Block) : Prop :=
  (∃ cb ∈ t.sfs.blocks i, n = cb.ino.toNat ∧ b = patch zeros 0 (slice (t.cache cb.addr) 0 SFS_BLKSIZE)) ∨
    ∃ ci ∈ t.sfs.inodes i, n = ci.ino.toNat ∧ b = patch zeros 0 (inodeBytes (t.body ci.addr).inode)

theorem flushLoop_wrote {count : Nat} {i : UInt32} (fits : i.toNat + count ≤ HASH_LIST_SIZE) :
    Ends (flushLoop count i t) fun t' => Wrote t t' fun n b =>
      ∃ k : UInt32, i.toNat ≤ k.toNat ∧ k.toNat < i.toNat + count ∧ Bucket t k n b := by
  induction count generalizing i t with
  | zero =>
      rw [flushLoop, ends_ok]
      exact (Wrote.refl t).congr fun _ _ => ⟨False.elim, fun none => by obtain ⟨k, low, high, -⟩ := none; omega⟩
  | succ count ih =>
      rw [flushLoop, ends_bind]
      refine (flushBlocks_wrote _ t).mono fun u first => ?_
      rw [ends_bind]
      refine (flushInodes_wrote _ u).mono fun v second => ?_
      have next : (i + 1).toNat = i.toNat + 1 := by
        rw [UInt32.toNat_add, UInt32.toNat_one]
        exact Nat.mod_eq_of_lt (by have : HASH_LIST_SIZE = 1024 := rfl; omega)
      refine (ih (by omega)).mono fun t' rest => ?_
      have here := first.trans second
      simp only [Bucket, here.sfs, here.cache, here.body, next] at rest
      rw [first.sfs, first.body] at here
      refine (here.trans rest).congr fun n b => ?_
      constructor
      · rintro (here | ⟨k, low, high, there⟩)
        · exact ⟨i, Nat.le_refl _, by omega, here⟩
        · exact ⟨k, by omega, by omega, there⟩
      · rintro ⟨k, low, high, there⟩
        by_cases same : k = i
        · exact .inl (same ▸ there)
        · have ne : k.toNat ≠ i.toNat := fun equal => same (UInt32.toNat_inj.mp equal)
          exact .inr ⟨k, by omega, by omega, there⟩

/-! ## No block is written twice -/

theorem turns_eq {ninos : UInt32} (size : ninos ≤ SFS_MAX_NBLKS) : (firstIno ninos).toNat = 2 + turns ninos := by
  rw [firstIno_toNat size, turns]
  rfl

theorem own_given (sound : Sound t made []) (member : ci ∈ made) (mine : n ∈ own t ci) :
    n = 1 ∨ (2 + turns t.sfs.ninos ≤ n ∧ n < t.sfs.nextIno.toNat) := by
  rw [← turns_eq sound.counted.size, ← sound.counted.mem_given, ← sound.numbers.mem_iff, List.nil_append]
  exact List.mem_flatMap.mpr ⟨ci, member, mine⟩

theorem own_nodup (sound : Sound t made []) : (made.flatMap (own t)).Nodup :=
  sound.numbers.nodup_iff.mpr sound.counted.nodup_given

/-- A number is in one place of one file. -/
theorem own_unique (sound : Sound t made []) (left : ci ∈ made) (right : di ∈ made) (mine : n ∈ own t ci)
    (theirs : n ∈ own t di) : ci = di := by
  by_contra ne
  obtain ⟨front, back, split⟩ := List.append_of_mem left
  have distinct := own_nodup sound
  have rest : di ∈ front ++ back := by
    rw [split, List.mem_append, List.mem_cons] at right
    rw [List.mem_append]
    tauto
  have moved : (ci :: (front ++ back)).Perm made := split ▸ List.perm_middle.symm
  rw [← (moved.flatMap_right (own t)).nodup_iff, List.flatMap_cons] at distinct
  exact (List.nodup_append.mp distinct).2.2 n mine n (List.mem_flatMap.mpr ⟨di, rest, theirs⟩) rfl

theorem mem_own_index {cb : CacheBlock} (index : (t.body ci.addr).l1 = some cb) : cb.ino.toNat ∈ own t ci := by
  rw [own, indexes, index]
  simp

/-- The inode, the index block and the data of a file are apart. -/
theorem own_apart (sound : Sound t made []) (member : ci ∈ made) :
    ci.ino.toNat ∉ indexes (t.body ci.addr) ∧ ci.ino.toNat ∉ numbers t ci.addr ∧
      ∀ n ∈ indexes (t.body ci.addr), n ∉ numbers t ci.addr := by
  have distinct := (List.nodup_flatMap.mp (own_nodup sound)).1 ci member
  rw [own, List.nodup_cons, List.mem_append, not_or] at distinct
  exact ⟨distinct.1.1, distinct.1.2, fun n here there => (List.nodup_append.mp distinct.2).2.2 n here n there rfl⟩

theorem Closing.unique (sound : Sound t made []) (first : Closing t made junk n b) (second : Closing t made junk n b') :
    b = b' := by
  have inode : ∀ di ∈ made, di.ino.toNat ∈ own t di := fun di _ => List.mem_cons_self
  have low : ∀ di ∈ made, ∀ m ∈ own t di, m ≠ 0 ∧ ∀ j < turns t.sfs.ninos, m ≠ SFS_BLKN_FREEMAP.toNat + j := by
    intro di inside m mine
    have := own_given sound inside mine
    have two : SFS_BLKN_FREEMAP.toNat = 2 := rfl
    exact ⟨by omega, fun j below => by omega⟩
  generalize same : n = m at second
  cases first with
  | freemap j inside =>
      cases second with
      | freemap k inside' =>
          obtain rfl : j = k := Nat.add_left_cancel same
          rfl
      | super => exact absurd same (by simp [SFS_BLKN_FREEMAP])
      | index member l1 => exact absurd same.symm ((low _ member _ (mem_own_index l1)).2 j inside)
      | inode member => exact absurd same.symm ((low _ member _ (inode _ member)).2 j inside)
  | super =>
      cases second with
      | freemap k inside => exact absurd same.symm (by simp [SFS_BLKN_FREEMAP])
      | super => rfl
      | index member l1 => exact absurd same.symm (low _ member _ (mem_own_index l1)).1
      | inode member => exact absurd same.symm (low _ member _ (inode _ member)).1
  | index member l1 =>
      have mine := mem_own_index l1
      cases second with
      | freemap k inside => exact absurd same ((low _ member _ mine).2 k inside)
      | super => exact absurd same (low _ member _ mine).1
      | index member' l1' =>
          obtain rfl := own_unique sound member member' mine (same ▸ mem_own_index l1')
          rw [Option.some.inj (l1.symm.trans l1')]
      | inode member' =>
          obtain rfl := own_unique sound member member' mine (same ▸ inode _ member')
          refine absurd ?_ (own_apart sound member).1
          rw [indexes, l1, ← same]
          simp
  | inode member =>
      have mine := inode _ member
      cases second with
      | freemap k inside => exact absurd same ((low _ member _ mine).2 k inside)
      | super => exact absurd same (low _ member _ mine).1
      | index member' l1 =>
          obtain rfl := own_unique sound member member' mine (same ▸ mem_own_index l1)
          refine absurd ?_ (own_apart sound member).1
          rw [indexes, l1, same]
          simp
      | inode member' =>
          rw [ino_injective sound member member' same]

/-- The data of files is not written over. -/
theorem Closing.not_data (sound : Sound t made []) (member : ci ∈ made) (mine : n ∈ numbers t ci.addr) :
    ¬ Closing t made junk n b := by
  intro closing
  have owned : n ∈ own t ci := List.mem_cons_of_mem _ (List.mem_append_right _ mine)
  have place := own_given sound member owned
  cases closing with
  | freemap j inside =>
      have two : SFS_BLKN_FREEMAP.toNat = 2 := rfl
      omega
  | super => omega
  | index member' l1 =>
      obtain rfl := own_unique sound member member' owned (mem_own_index l1)
      refine (own_apart sound member).2.2 _ ?_ mine
      rw [indexes, l1]
      simp
  | inode member' =>
      obtain rfl := own_unique sound member member' owned List.mem_cons_self
      exact (own_apart sound member).2.1 mine

/-- What the image has in the end, block by block. -/
structure Closed (t : Tool) (made : List CacheInode) (junk : List UInt8) (img : Nat → Block) : Prop where
  written : ∀ n b, Closing t made junk n b → img n = b
  data : ∀ ci ∈ made, ∀ n ∈ numbers t ci.addr, img n = t.img n

theorem closeSfs_ends (sound : Sound t made []) : Ends (closeSfs junk t) fun t' => Closed t made junk t'.img := by
  have size := UInt32.le_iff_toNat_le.mp sound.counted.size
  have few : turns t.sfs.ninos ≤ 16 := by
    have : t.sfs.ninos.toNat ≤ 1024 * 512 := size
    have bits : SFS_BLKBITS.toNat = 32768 := rfl
    rw [turns, bits]
    omega
  rw [closeSfs, ends_bind]
  have fits : SFS_BLKN_FREEMAP.toNat + turns t.sfs.ninos < 2 ^ 32 := by
    have two : SFS_BLKN_FREEMAP.toNat = 2 := rfl
    omega
  have zero : (0 : UInt32).toNat = 0 := rfl
  refine (freemapLoop_wrote fits).mono fun u first => ?_
  rw [ends_bind]
  refine (writeBlock_wrote _ _ _).mono fun v second => ?_
  refine (flushLoop_wrote (Nat.le_of_eq (Nat.zero_add _))).mono fun t' third => ?_
  have before := first.trans second
  rw [first.sfs] at before
  simp only [Bucket, before.sfs, before.cache, before.body] at third
  have all : Wrote t t' (Closing t made junk) := by
    refine (before.trans third).congr fun n b => ⟨?_, ?_⟩
    · rintro ((⟨j, below, rfl, rfl⟩ | ⟨rfl, rfl⟩) | ⟨k, -, -, ⟨cb, inside, rfl, rfl⟩ | ⟨ci, inside, rfl, rfl⟩⟩)
      · rw [Nat.zero_add]
        exact .freemap j below
      · exact .super
      · obtain ⟨ci, member, index⟩ := (sound.blocks cb).mp ⟨k, inside⟩
        exact .index member index
      · exact .inode ((sound.inodes ci).mp ⟨k, inside⟩)
    · intro closing
      cases closing with
      | freemap j below => exact .inl (.inl ⟨j, below, rfl, by rw [Nat.zero_add]⟩)
      | super => exact .inl (.inr ⟨rfl, rfl⟩)
      | index member l1 =>
          obtain ⟨k, inside⟩ := (sound.blocks _).mpr ⟨_, member, l1⟩
          refine .inr ⟨k, Nat.zero_le _, ?_, .inl ⟨_, inside, rfl, rfl⟩⟩
          by_contra high
          have absent := (sound.buckets k (by omega)).2
          rw [absent] at inside
          cases inside
      | inode member =>
          obtain ⟨k, inside⟩ := (sound.inodes _).mpr member
          refine .inr ⟨k, Nat.zero_le _, ?_, .inr ⟨_, inside, rfl, rfl⟩⟩
          by_contra high
          have nothing := (sound.buckets k (by omega)).1
          rw [nothing] at inside
          cases inside
  obtain ⟨ws, rfl, written⟩ := all
  refine ⟨fun n b closing => ?_, fun ci member n mine => ?_⟩
  · exact write_mem _ ((written (n, b)).mpr closing) fun w inside same => by
      subst same
      exact Closing.unique sound ((written w).mp inside) closing
  · exact write_other _ fun w inside same => by
      subst same
      exact Closing.not_data sound member mine ((written w).mp inside)

end Ucore.Tools.MksfsClose
