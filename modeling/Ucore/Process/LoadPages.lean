import Ucore.Mm.UserPages
import Ucore.Process.LoadIcode

/-! # The pages of a segment

What the page loops of `load_icode` leave in memory: from the first byte of a segment up to
`start` every byte is as it should be, and the pages from `la` on are not there yet. The page
made last may be filled in part only, and is mapped nowhere else.
-/

namespace Ucore.Process.LoadPages

open Lib.Bytes Libs.Assert Mm.Mmu Mm.Pmm Mm.PageTables Mm.PageRefs Mm.UserPages Mm.VmaList LoadIcode

variable {σ : Type} {M : PmmManager σ} {s s₀ t : Machine σ} {role role₀ role' : Nat → Role} {roots : Finset Nat}
  {r la lo hi first stop fuel perm : Nat} {value : Nat → UInt8} {v w : Filling}
  {source : Nat → Nat → Result (List UInt8)}

/-! ## Bytes -/

theorem pageBlock_wordsOf (b : Block) : pageBlock (wordsOf b) = b := by
  funext off
  have inside : off % 8 < (slice b (8 * (off / 8)) 8).length := by simp [Nat.mod_lt]
  rw [pageBlock, wordsOf, ofLe_byte inside]
  have found : (slice b (8 * (off / 8)) 8)[off % 8]? = some (b (8 * (off / 8) + off % 8)) :=
    slice_getElem? (Nat.mod_lt _ (by decide))
  rw [List.getElem?_eq_getElem inside, Nat.div_add_mod] at found
  exact Option.some.inj found

/-- The byte that a process finds at an address. -/
def userByte (s : Machine σ) (r la : Nat) : Option UInt8 :=
  (target (pteOf s r la)).map fun p => pageBlock (s.mem p) (la % PGSIZE)

theorem userByte_some {p : Nat} (maps : target (pteOf s r la) = some p) :
    userByte s r la = some (pageBlock (s.mem p) (la % PGSIZE)) := by
  rw [userByte, maps]
  rfl

theorem valid_of_userByte {b : UInt8} (found : userByte s r la = some b) : isValid (pteOf s r la) = true := by
  obtain ⟨p, maps, -⟩ := Option.map_eq_some_iff.mp found
  exact (target_some.mp maps).1

/-- Growth does not touch what was mapped before. -/
theorem userByte_grows (grows : Grows M roots s role t role') (counted : Counted M roots 0 s role) (root : r ∈ roots)
    (user : la < USERTOP) (valid : isValid (pteOf s r la) = true) : userByte t r la = userByte s r la := by
  have maps : target (pteOf s r la) = some (ptePpn (pteOf s r la)) := target_some.mpr ⟨valid, rfl⟩
  have data := counted.layout.pte_data ((counted.isRoot r).mp root) user maps
  have maps' : target (pteOf t r la) = some (ptePpn (pteOf s r la)) := by
    rw [grows.leaf r root la user valid, maps]
  rw [userByte_some maps, userByte_some maps', grows.mem _ (.inr data)]

theorem writePage_ok {page : Option Nat} {off size : Nat} {read : Result (List UInt8)}
    (run : writePage page off size read s = .ok t) : off + size ≤ PGSIZE ∧ ∃ p bytes, page = some p ∧ read = .ok bytes ∧
      t = s.setPage p (wordsOf (patch (pageBlock (s.mem p)) off bytes)) := by
  unfold writePage at run
  split at run
  · rename_i fits
    obtain ⟨p, kva, rest⟩ := bind_ok.mp run
    obtain ⟨bytes, isRead, rest⟩ := bind_ok.mp rest
    cases rest
    refine ⟨fits, p, bytes, ?_, isRead, rfl⟩
    cases page with
    | none => cases kva
    | some q =>
        rw [page2kva, pa2page] at kva
        split at kva
        · cases kva
          rfl
        · cases kva
  · cases run

/-! ## What pages held before -/

/-- From `s` to `t` only free pages became mapped below `r`, and the bytes of them and of all other
    pages are as they were, but for the part of the addresses that was written. -/
structure Leaves (r : Nat) (part : Nat → Prop) (s : Machine σ) (role : Nat → Role) (t : Machine σ) : Prop where
  fresh : ∀ a < USERTOP, ∀ p, target (pteOf t r a) = some p → target (pteOf s r a) = some p ∨ role p = .free
  old : ∀ a < USERTOP, ∀ p, target (pteOf t r a) = some p →
    part a ∨ pageBlock (t.mem p) (a % PGSIZE) = pageBlock (s.mem p) (a % PGSIZE)

namespace Leaves

variable {part part' : Nat → Prop} {u : Machine σ}

theorem refl : Leaves r part s role s where
  fresh _ _ _ maps := .inl maps
  old _ _ _ _ := .inr rfl

theorem mono (leaves : Leaves r part s role t) (more : ∀ a, part a → part' a) : Leaves r part' s role t where
  fresh := leaves.fresh
  old a user p maps := (leaves.old a user p maps).imp_left (more a)

theorem trans (first : Leaves r part s role t) (grows : Grows M roots s role t role')
    (second : Leaves r part' t role' u) :
    Leaves r (fun a => part a ∨ part' a) s role u where
  fresh a user p maps := by
    rcases second.fresh a user p maps with before | free
    · exact first.fresh a user p before
    · exact .inr (grows.free_before free)
  old a user p maps := by
    rcases second.old a user p maps with written | same
    · exact .inl (.inr written)
    · rw [same]
      rcases second.fresh a user p maps with before | free
      · exact (first.old a user p before).imp_left .inl
      · rw [grows.mem p (.inl free)]
        exact .inr rfl

/-- Tables alone change nothing here. -/
theorem of_tables (counted : Counted M roots 0 s role) (root : r ∈ roots) (grows : Grows M roots s role t role')
    (same : ∀ la < USERTOP, pteOf t r la = pteOf s r la) : Leaves r part s role t where
  fresh a user p maps := .inl (by rwa [← same a user])
  old a user p maps := by
    rw [same a user] at maps
    rw [grows.mem p (.inr (counted.layout.pte_data ((counted.isRoot r).mp root) user maps))]
    exact .inr rfl

theorem of_adds {p : Nat} (counted : Counted M roots 0 s role) (root : r ∈ roots) (small : perm < 1024)
    (adds : Adds M roots r la perm p s role t role') : Leaves r part s role t := by
  have cases : ∀ a < USERTOP, ∀ q, target (pteOf t r a) = some q → q = p ∨ target (pteOf s r a) = some q := by
    intro a user q maps
    rw [adds.entry r root a user] at maps
    split at maps
    · rw [target_pteCreate (Nat.or_lt_two_pow (n := 10) (by decide) small)] at maps
      exact .inl (Option.some.inj maps).symm
    · exact .inr maps
  refine ⟨fun a user q maps => ?_, fun a user q maps => ?_⟩
  · rcases cases a user q maps with rfl | before
    · exact .inr adds.fresh
    · exact .inl before
  · right
    rcases cases a user q maps with rfl | before
    · rw [adds.kept]
    · rw [adds.grows.mem q (.inr (counted.layout.pte_data ((counted.isRoot r).mp root) user before))]

/-- Bytes are stored to a page that is mapped in one place. -/
theorem of_store {p : Nat} (off : Nat) (bytes : List UInt8) (counted : Counted M roots 0 s role) (root : r ∈ roots)
    (data : role p = .data) (aligned : la % PGSIZE = 0)
    (only : ∀ a < USERTOP, target (pteOf s r a) = some p → a / PGSIZE = la / PGSIZE) :
    Leaves r (fun a => la + off ≤ a ∧ a < la + off + bytes.length) s role
      (s.setPage p (wordsOf (patch (pageBlock (s.mem p)) off bytes))) := by
  refine ⟨fun a user q maps => .inl ?_, fun a user q maps => ?_⟩
  · rwa [pteOf_setPage counted data root user] at maps
  · rw [pteOf_setPage counted data root user] at maps
    by_cases here : q = p
    · subst here
      have page := only a user maps
      by_cases inside : la + off ≤ a ∧ a < la + off + bytes.length
      · exact .inl inside
      · right
        rw [show (s.setPage q _).mem q = _ from Function.update_self .., pageBlock_wordsOf, patch_outside]
        simp only [PGSIZE] at *
        omega
    · rw [show (s.setPage p _).mem q = _ from Function.update_of_ne here ..]
      exact .inr rfl

end Leaves

/-! ## What is filled so far -/

variable (M) in
/-- The segment begins at `first`, and its pages are those from `lo` up to `hi`. `value` tells
    what is to be in it. -/
structure Filled (roots : Finset Nat) (r lo hi first : Nat) (value : Nat → UInt8) (s₀ : Machine σ) (role₀ : Nat → Role)
    (v : Filling) (s : Machine σ) (role : Nat → Role) : Prop where
  grows : Grows M roots s₀ role₀ s role
  src : v.src < 2 ^ 64
  aligned : v.la % PGSIZE = 0
  low : lo ≤ v.la
  high : v.la ≤ hi
  start : first ≤ v.start
  within : v.start ≤ hi
  near : v.start < v.la + PGSIZE
  bytes : ∀ a, first ≤ a → a < v.start → userByte s r a = some (value a)
  above : ∀ a, v.la ≤ a → a < hi → isValid (pteOf s r a) = false
  below : ∀ a < USERTOP, isValid (pteOf s r a) = true → isValid (pteOf s₀ r a) = true ∨ lo ≤ a ∧ a < v.la
  page : v.start < v.la → ∃ p, v.page = some p ∧ role₀ p = .free ∧ role p = .data ∧ v.la ≤ v.start + PGSIZE ∧
    target (pteOf s r v.start) = some p ∧
    ∀ a < USERTOP, target (pteOf s r a) = some p → a / PGSIZE = v.start / PGSIZE
  leaves : Leaves r (fun a => first ≤ a ∧ a < v.start) s₀ role₀ s

/-- Storing some of the bytes that are missing in the page made last. -/
theorem store_page {p size next : Nat} {bytes : List UInt8} (counted : Counted M roots 0 s role) (root : r ∈ roots)
    (data : role p = .data) (la' : Nat) (aligned : la' % PGSIZE = 0) (low : la' ≤ v.start) (top : next ≤ la' + PGSIZE)
    (inUser : la' + PGSIZE ≤ USERTOP) (upto : next = v.start + size) (length : bytes.length = size)
    (fresh : ∀ i (inside : i < bytes.length), bytes[i] = value (v.start + i))
    (maps : target (pteOf s r la') = some p)
    (only : ∀ a < USERTOP, target (pteOf s r a) = some p → a / PGSIZE = la' / PGSIZE)
    (old : ∀ a, first ≤ a → a < v.start → userByte s r a = some (value a)) (a : Nat) (after : first ≤ a)
    (before : a < next) :
    userByte (s.setPage p (wordsOf (patch (pageBlock (s.mem p)) (v.start - la') bytes))) r a = some (value a) := by
  have user : a < USERTOP := by omega
  have same : pteOf (s.setPage p (wordsOf (patch (pageBlock (s.mem p)) (v.start - la') bytes))) r a = pteOf s r a :=
    pteOf_setPage counted data root user
  by_cases inside : v.start ≤ a
  · have page : a / PGSIZE = la' / PGSIZE := by
      simp only [PGSIZE] at *
      omega
    have offset : a % PGSIZE = (v.start - la') + (a - v.start) := by
      simp only [PGSIZE] at *
      omega
    have here : target (pteOf s r a) = some p := by rw [← pteOf_page, page, pteOf_page, maps]
    have isByte : a - v.start < bytes.length := by omega
    rw [userByte_some (by rw [same, here]), show (s.setPage p _).mem p = _ from Function.update_self ..,
      pageBlock_wordsOf, offset, patch_inside isByte, fresh _ isByte, Nat.add_sub_cancel' inside]
  · have earlier := old a after (not_le.mp inside)
    obtain ⟨q, here, isByte⟩ := Option.map_eq_some_iff.mp earlier
    rw [userByte_some (same ▸ here), ← isByte]
    by_cases atPage : q = p
    · -- before the bytes that are stored, in the same page
      subst atPage
      have page := only a user here
      rw [show (s.setPage q _).mem q = _ from Function.update_self .., pageBlock_wordsOf, patch_outside]
      left
      simp only [PGSIZE] at *
      omega
    · rw [show (s.setPage p _).mem q = _ from Function.update_of_ne atPage ..]

theorem wrap_small {n : Nat} (small : n < 2 ^ 64) : wrap n = n := Nat.mod_eq_of_lt small

theorem wrapSub_le {a b : Nat} (le : b ≤ a) (small : a < 2 ^ 64) : wrapSub a b = a - b := by
  unfold wrapSub
  omega

theorem USERTOP_lt : USERTOP < 2 ^ 64 := by decide +kernel

namespace Filled

variable (filled : Filled M roots r lo hi first value s₀ role₀ v s role) (root : r ∈ roots)

include filled root

/-- A page is added, and the next bytes are put into it. -/
theorem round {p src : Nat} {bytes : List UInt8} (srcLt : src < 2 ^ 64) (small : perm < 1024) (inUser : hi ≤ USERTOP)
    (alignedHi : hi % PGSIZE = 0)
    (more : v.start < stop) (top : stop ≤ hi) (near : v.la ≤ v.start) (adds : Adds M roots r v.la perm p s role t role')
    (length : bytes.length = min stop (v.la + PGSIZE) - v.start)
    (fresh : ∀ i (inside : i < bytes.length), bytes[i] = value (v.start + i)) :
    Filled M roots r lo hi first value s₀ role₀ ⟨min stop (v.la + PGSIZE), src, v.la + PGSIZE, some p⟩
      (t.setPage p (wordsOf (patch (pageBlock (t.mem p)) (v.start - v.la) bytes))) role' := by
  have counted := filled.grows.counted
  have after := adds.grows.counted
  have aligned := filled.aligned
  have low := filled.low
  have start := filled.start
  have near' := filled.near
  have inside : v.la + PGSIZE ≤ hi := by
    simp only [PGSIZE] at *
    omega
  have user : v.la < USERTOP := by omega
  have maps := adds.maps small root user
  have free := filled.grows.free_before adds.fresh
  have leaf : ∀ words, ∀ a < USERTOP, pteOf (t.setPage p words) r a =
      if a / PGSIZE = v.la / PGSIZE then pteCreate p (PTE_V ||| perm) else pteOf s r a := by
    intro words a userA
    rw [pteOf_setPage after adds.data root userA, adds.entry r root a userA]
    simp only [true_and]
  refine ⟨(filled.grows.trans adds.grows).setPage free adds.data, srcLt, by rw [Nat.add_mod_right, aligned],
    low.trans (Nat.le_add_right ..), inside, ?_, ?_, ?_, fun a low high => ?_, fun a low high => ?_,
      fun a userA valid => ?_,
    fun short => ⟨p, rfl, free, adds.data, ?_, ?_, fun a userA here => ?_⟩, ?_⟩
  · dsimp only
    omega
  · exact (min_le_left ..).trans top
  · dsimp only
    simp only [PGSIZE] at *
    omega
  · have upto : min stop (v.la + PGSIZE) = v.start + (min stop (v.la + PGSIZE) - v.start) := by omega
    refine store_page after root adds.data v.la aligned near (min_le_right ..) (inside.trans inUser) upto length fresh
      maps (fun a userA here => (adds.only counted root userA here).2) (fun a low high => ?_) a low high
    have before := filled.bytes a low high
    rw [userByte_grows adds.grows counted root (by omega) (valid_of_userByte before), before]
  · dsimp only at low
    rw [leaf _ a (by omega), if_neg]
    · exact filled.above a (by omega) high
    · simp only [PGSIZE] at *
      omega
  · rw [leaf _ a userA] at valid
    split at valid
    · rename_i page
      refine .inr ?_
      dsimp only
      simp only [PGSIZE] at *
      omega
    · refine (filled.below a userA valid).imp_right fun inLow => ⟨inLow.1, ?_⟩
      dsimp only
      omega
  · dsimp only at *
    omega
  · dsimp only at *
    have page : min stop (v.la + PGSIZE) / PGSIZE = v.la / PGSIZE := by
      simp only [PGSIZE] at *
      omega
    rw [leaf _ _ (by omega), if_pos page, ← adds.maps small root user, adds.entry r root v.la user, if_pos ⟨rfl, rfl⟩]
  · dsimp only at *
    rw [pteOf_setPage after adds.data root userA] at here
    have page := (adds.only counted root userA here).2
    simp only [PGSIZE] at *
    omega
  · have stored := Leaves.of_store (v.start - v.la) bytes after root adds.data aligned
      fun a userA here => (adds.only counted root userA here).2
    have added : Leaves r (fun a => first ≤ a ∧ a < v.start) s role t := .of_adds counted root small adds
    refine ((filled.leaves.trans filled.grows added).trans (filled.grows.trans adds.grows) stored).mono
      fun a inside => ?_
    dsimp only at *
    omega

/-- Tables alone change nothing here. -/
theorem keep (inUser : hi ≤ USERTOP) (grows : Grows M roots s role t role')
    (same : ∀ r ∈ roots, ∀ la < USERTOP, pteOf t r la = pteOf s r la) :
    Filled M roots r lo hi first value s₀ role₀ v t role' where
  grows := filled.grows.trans grows
  src := filled.src
  aligned := filled.aligned
  low := filled.low
  high := filled.high
  start := filled.start
  within := filled.within
  near := filled.near
  bytes a low high := by
    have before := filled.bytes a low high
    rw [userByte_grows grows filled.grows.counted root (high.trans_le (filled.within.trans inUser))
      (valid_of_userByte before), before]
  above a low high := by
    rw [same r root a (by omega)]
    exact filled.above a low high
  below a user valid := filled.below a user (by rwa [← same r root a user])
  page short := by
    obtain ⟨p, last, fresh, data, behind, maps, only⟩ := filled.page short
    have user : v.start < USERTOP := short.trans_le (filled.high.trans inUser)
    refine ⟨p, last, fresh, grows.data_after data, behind, by rw [same r root _ user, maps], fun a userA here => ?_⟩
    exact only a userA (by rwa [← same r root a userA])
  leaves := by
    have tables : Leaves r (fun a => first ≤ a ∧ a < v.start) s role t :=
      .of_tables filled.grows.counted root grows (same r root)
    exact (filled.leaves.trans filled.grows tables).mono fun a inside => inside.elim id id

end Filled

/-- The bytes that a source gives are the right ones, as long as they come before `stop`. -/
def Gives (source : Nat → Nat → Result (List UInt8)) (value : Nat → UInt8) (stop src start : Nat) : Prop :=
  ∀ k n, (∀ bytes, source (wrap (src + k)) n = .ok bytes → start + k + n ≤ stop →
      bytes = (List.range n).map fun i => value (start + k + i)) ∧
    source (wrap (src + k)) n ≠ .error .assertion

theorem Gives.next {src start size : Nat} (gives : Gives source value stop src start) :
    Gives source value stop (wrap (src + size)) (start + size) := by
  intro k n
  have same : wrap (wrap (src + size) + k) = wrap (src + (size + k)) := by
    simp only [wrap]
    omega
  rw [same, Nat.add_assoc start]
  exact gives (size + k) n

/-- What a round stores reaches to the end of the segment's bytes or to the end of the page. -/
theorem round_size {start : Nat} (near : la ≤ start) (page : start < la + PGSIZE) (more : start < stop)
    (small : la + PGSIZE < 2 ^ 64) :
    (if stop < la + PGSIZE then wrapSub (wrapSub PGSIZE (start - la)) (wrapSub (la + PGSIZE) stop)
      else wrapSub PGSIZE (start - la)) = min stop (la + PGSIZE) - start := by
  have whole : wrapSub PGSIZE (start - la) = la + PGSIZE - start := by
    rw [wrapSub_le]
    · omega
    · omega
    · omega
  rw [whole]
  split
  · rename_i short
    have rest : wrapSub (la + PGSIZE) stop = la + PGSIZE - stop := wrapSub_le short.le small
    rw [rest, wrapSub_le]
    · omega
    · omega
    · omega
  · omega

section Rounds

variable {p : Nat}

theorem fillPages_refused (more : v.start < stop) (stops : pgdirAllocPage M r v.la perm s = .error .panic) :
    fillPages M source r perm stop (fuel + 1) v s = .error .panic := by
  rw [fillPages, if_pos more, stops, error_bind]

theorem fillPages_none (more : v.start < stop) (refused : pgdirAllocPage M r v.la perm s = .ok (none, t)) :
    fillPages M source r perm stop (fuel + 1) v s = .ok (Option.none, t) := by
  rw [fillPages, if_pos more, refused, ok_bind]
  rfl

theorem fillPages_some (more : v.start < stop) (near : v.la ≤ v.start) (page : v.start < v.la + PGSIZE)
    (small : v.la + PGSIZE < 2 ^ 64) (added : pgdirAllocPage M r v.la perm s = .ok (some p, t)) :
    fillPages M source r perm stop (fuel + 1) v s =
      (writePage (some p) (v.start - v.la) (min stop (v.la + PGSIZE) - v.start)
          (source v.src (min stop (v.la + PGSIZE) - v.start)) t >>= fun u =>
        fillPages M source r perm stop fuel ⟨min stop (v.la + PGSIZE),
          wrap (v.src + (min stop (v.la + PGSIZE) - v.start)), v.la + PGSIZE, some p⟩ u) := by
  have offset : wrapSub v.start v.la = v.start - v.la := wrapSub_le near (by omega)
  have next : wrap (v.la + PGSIZE) = v.la + PGSIZE := wrap_small small
  have size := round_size near page more small
  have reached : wrap (v.start + (min stop (v.la + PGSIZE) - v.start)) = min stop (v.la + PGSIZE) := by
    rw [wrap_small]
    · omega
    · omega
  rw [fillPages, if_pos more, added, ok_bind]
  dsimp only
  rw [offset, next, size, reached]

end Rounds

theorem writePage_stops {page : Option Nat} {off size : Nat} {read : Result (List UInt8)}
    (reads : read ≠ .error .assertion) : writePage page off size read s ≠ .error .assertion := by
  unfold writePage
  split
  · intro stops
    cases page with
    | none => cases stops
    | some p =>
        rw [page2kva, pa2page] at stops
        split at stops
        · rw [ok_bind] at stops
          cases read with
          | ok bytes => cases stops
          | error e =>
              rw [error_bind] at stops
              cases stops
              exact reads rfl
        · cases stops
  · simp

/-- A round of a page loop. -/
theorem Filled.written {p : Nat} (filled : Filled M roots r lo hi first value s₀ role₀ v s role) (root : r ∈ roots)
    (small : perm < 1024) (inUser : hi ≤ USERTOP) (alignedHi : hi % PGSIZE = 0) (more : v.start < stop)
    (top : stop ≤ hi)
    (near : v.la ≤ v.start) (adds : Adds M roots r v.la perm p s role t role')
    (gives : Gives source value stop v.src v.start)
    {u : Machine σ} (write : writePage (some p) (v.start - v.la) (min stop (v.la + PGSIZE) - v.start)
      (source v.src (min stop (v.la + PGSIZE) - v.start)) t = .ok u) :
    Filled M roots r lo hi first value s₀ role₀ ⟨min stop (v.la + PGSIZE),
      wrap (v.src + (min stop (v.la + PGSIZE) - v.start)), v.la + PGSIZE, some p⟩ u role' ∧
    Gives source value stop (wrap (v.src + (min stop (v.la + PGSIZE) - v.start))) (min stop (v.la + PGSIZE)) := by
  have page := filled.near
  have upto : v.start + (min stop (v.la + PGSIZE) - v.start) = min stop (v.la + PGSIZE) := by omega
  have here := (gives 0 (min stop (v.la + PGSIZE) - v.start)).1
  rw [Nat.add_zero, Nat.add_zero, wrap_small filled.src, upto] at here
  obtain ⟨-, q, bytes, last, isRead, rfl⟩ := writePage_ok write
  cases last
  have read := here bytes isRead (min_le_left ..)
  have next : Gives source value stop (wrap (v.src + (min stop (v.la + PGSIZE) - v.start)))
      (v.start + (min stop (v.la + PGSIZE) - v.start)) := gives.next
  rw [upto] at next
  refine ⟨filled.round root (Nat.mod_lt _ (by decide)) small inUser alignedHi more top near adds ?_ ?_, next⟩
  · rw [read]
    simp
  · intro i inside
    simp [read]

/-- A page loop fills the segment up to `stop`, or gives up for want of memory. No assertion is
    in its way. -/
theorem fillPages_filled (filled : Filled M roots r lo hi first value s₀ role₀ v s role) (root : r ∈ roots)
    (small : perm < 1024) (inUser : hi ≤ USERTOP) (alignedHi : hi % PGSIZE = 0) (top : stop ≤ hi)
    (begins : v.start ≤ stop) (near : v.start < stop → v.la ≤ v.start)
    (gives : Gives source value stop v.src v.start) :
    (∃ o t w role', fillPages M source r perm stop fuel v s = .ok (o, t) ∧
      Filled M roots r lo hi first value s₀ role₀ w t role' ∧ (o = none ∨ o = some w ∧ w.start = stop)) ∨
    ∃ e, fillPages M source r perm stop fuel v s = .error e ∧ e ≠ .assertion := by
  induction fuel generalizing v s role with
  | zero => exact .inr ⟨.fuel, rfl, by decide⟩
  | succ fuel ih =>
      by_cases more : v.start < stop
      · have near := near more
        have page := filled.near
        have user : v.la < USERTOP := by omega
        have userLt : USERTOP < 2 ^ 64 := USERTOP_lt
        rcases pgdirAllocPage_spec filled.grows.counted root user small (filled.above v.la le_rfl (by omega)) with
          ⟨stops, -⟩ | ⟨t, role', run, grows, same⟩ | ⟨p, t, role', run, adds⟩
        · exact .inr ⟨.panic, fillPages_refused more stops, by decide⟩
        · exact .inl ⟨none, t, v, role', fillPages_none more run, filled.keep root inUser grows same, .inl rfl⟩
        · have inside : v.la + PGSIZE ≤ hi := by
            have aligned := filled.aligned
            simp only [PGSIZE] at *
            omega
          have here := (gives 0 (min stop (v.la + PGSIZE) - v.start)).2
          rw [Nat.add_zero, wrap_small filled.src] at here
          rw [fillPages_some more near page (by omega) run]
          cases write : writePage (some p) (v.start - v.la) (min stop (v.la + PGSIZE) - v.start)
              (source v.src (min stop (v.la + PGSIZE) - v.start)) t with
          | error e =>
              refine .inr ⟨e, error_bind .., ?_⟩
              rintro rfl
              exact writePage_stops here write
          | ok u =>
              rw [ok_bind]
              obtain ⟨next, gives'⟩ := filled.written root small inUser alignedHi more top near adds gives write
              refine ih next (min_le_left ..) ?_ gives'
              dsimp only
              omega
      · rw [fillPages, if_neg more]
        have ends : v.start = stop := by omega
        exact .inl ⟨some v, s, v, role, rfl, filled, .inr ⟨rfl, ends⟩⟩

/-! ## The page in which the file's bytes end -/

theorem writePage_given {p off size : Nat} {bytes : List UInt8} (fits : off + size ≤ PGSIZE) (lt : p < npage) :
    writePage (some p) off size (.ok bytes) s =
      .ok (s.setPage p (wordsOf (patch (pageBlock (s.mem p)) off bytes))) := by
  rw [writePage, if_pos fits, page2kva, pa2page, if_pos lt, ok_bind, ok_bind]
  rfl

/-- The rest of that page is cleared, as far as the segment reaches, and the assertion that
    follows holds. -/
theorem zeroTail_filled (filled : Filled M roots r lo hi first value s₀ role₀ v s role) (root : r ∈ roots)
    (inUser : hi ≤ USERTOP) (top : stop ≤ hi) (short : v.start < v.la) (more : v.start < stop)
    (zero : ∀ a, v.start ≤ a → a < stop → value a = 0) :
    ∃ t, zeroTail stop v s = .ok ({ v with start := min stop v.la }, t) ∧
      Filled M roots r lo hi first value s₀ role₀ { v with start := min stop v.la } t role := by
  obtain ⟨p, last, fresh, data, behind, maps, only⟩ := filled.page short
  have counted := filled.grows.counted
  have aligned := filled.aligned
  have high := filled.high
  have userLt := USERTOP_lt
  have user : v.start < USERTOP := by omega
  have onPage : PGSIZE ≤ v.la := by
    simp only [PGSIZE] at *
    omega
  obtain ⟨la, here⟩ : ∃ la, v.la = la + PGSIZE := ⟨v.la - PGSIZE, by omega⟩
  have alignedLa : la % PGSIZE = 0 := by rwa [here, Nat.add_mod_right] at aligned
  have low : la ≤ v.start := by omega
  have offset : wrapSub (v.start + PGSIZE) v.la = v.start - la := by
    rw [wrapSub_le behind]
    · omega
    · simp only [PGSIZE] at *
      omega
  have size := round_size low (by omega : v.start < la + PGSIZE) more (by omega)
  rw [← here] at size
  have reached : wrap (v.start + (min stop v.la - v.start)) = min stop v.la := by
    rw [wrap_small]
    · omega
    · omega
  have page : v.start / PGSIZE = la / PGSIZE := by
    simp only [PGSIZE] at *
    omega
  have mapsLa : target (pteOf s r la) = some p := by rw [← pteOf_page, ← page, pteOf_page, maps]
  have onlyLa : ∀ a < USERTOP, target (pteOf s r a) = some p → a / PGSIZE = la / PGSIZE :=
    fun a userA points => page ▸ only a userA points
  generalize hBytes : List.replicate (min stop v.la - v.start) (0 : UInt8) = bytes
  have length : bytes.length = min stop v.la - v.start := by simp [← hBytes]
  have zeros : ∀ i (inside : i < bytes.length), bytes[i] = value (v.start + i) := by
    intro i inside
    rw [zero _ (Nat.le_add_right ..) (by omega)]
    subst hBytes
    exact List.getElem_replicate ..
  refine ⟨s.setPage p (wordsOf (patch (pageBlock (s.mem p)) (v.start - la) bytes)), ?_, ?_⟩
  · rw [zeroTail]
    dsimp only
    rw [offset, size, reached, last, zeroBytes, hBytes, writePage_given (by omega)
      (counted.layout.lt p (by simp [data])),
      ok_bind, assert_bind (by omega)]
    rfl
  · have leaf : ∀ words, ∀ a < USERTOP, pteOf (s.setPage p words) r a = pteOf s r a := fun words a userA =>
      pteOf_setPage counted data root userA
    refine ⟨filled.grows.setPage fresh data, filled.src, aligned, filled.low, high, ?_, ?_, ?_, fun a low' high' => ?_,
      fun a low' high' => ?_, fun a userA valid => ?_, fun stillShort =>
        ⟨p, last, fresh, data, ?_, ?_, fun a userA points => ?_⟩, ?_⟩
    · have := filled.start
      dsimp only
      omega
    · exact (min_le_left ..).trans top
    · dsimp only
      omega
    · have upto : min stop v.la = v.start + (min stop v.la - v.start) := by omega
      exact store_page counted root data la alignedLa low (here ▸ min_le_right ..)
        (here ▸ high.trans inUser) upto length
        zeros mapsLa onlyLa filled.bytes a low' high'
    · rw [leaf _ a (by omega)]
      exact filled.above a low' high'
    · rw [leaf _ a userA] at valid
      exact filled.below a userA valid
    · dsimp only
      omega
    · dsimp only at *
      have same : min stop v.la / PGSIZE = la / PGSIZE := by
        simp only [PGSIZE] at *
        omega
      rw [leaf _ _ (by omega), ← pteOf_page, same, pteOf_page, mapsLa]
    · dsimp only at *
      rw [leaf _ a userA] at points
      rw [onlyLa a userA points]
      simp only [PGSIZE] at *
      omega
    · have stored := Leaves.of_store (v.start - la) bytes counted root data alignedLa onlyLa
      refine (filled.leaves.trans filled.grows stored).mono fun a inside => ?_
      have := filled.start
      dsimp only at *
      omega

/-! ## Both kinds of pages -/

theorem permOf_lt (vmFlags : Nat) : permOf vmFlags < 1024 := by
  unfold permOf
  split <;> split <;> split <;> decide

theorem gives_zero {stop src start : Nat} (zero : ∀ a, start ≤ a → a < stop → value a = 0) :
    Gives zeroBytes value stop src start := by
  refine fun k n => ⟨fun bytes isRead inside => ?_, by simp [zeroBytes]⟩
  cases isRead
  refine (List.ext_getElem (by simp) fun i _ _ => ?_).symm
  simp only [List.getElem_map, List.getElem_range, List.getElem_replicate]
  rename_i _ short
  rw [List.length_replicate] at short
  exact zero _ (by omega) (by omega)

variable {bin : Image}

/-- The byte at an address inside the image. -/
def byteAt (bin : Image) (addr : Nat) : UInt8 := bin.bytes.getD (addr - bin.binary) 0

theorem read_ok {addr count : Nat} {bytes : List UInt8} (run : bin.read addr count = .ok bytes) :
    bin.binary ≤ addr ∧ addr + count ≤ bin.binary + bin.bytes.length ∧
      bytes = (List.range count).map fun i => byteAt bin (addr + i) := by
  unfold Image.read at run
  split at run
  · rename_i inside
    cases run
    refine ⟨inside.1, inside.2, List.ext_getElem ?_ fun i low high => ?_⟩
    · simp only [List.length_take, List.length_drop, List.length_map, List.length_range]
      omega
    · simp only [List.length_map, List.length_range] at high
      simp only [List.getElem_take, List.getElem_drop, List.getElem_map, List.getElem_range, byteAt]
      rw [List.getD_eq_getElem _ _ (by omega)]
      congr 1
      omega
  · cases run

theorem gives_read {stop src start : Nat}
    (value_eq : ∀ a, start ≤ a → a < stop → value a = byteAt bin (wrap (src + (a - start)))) :
    Gives bin.read value stop src start := by
  refine fun k n => ⟨fun bytes isRead inside => ?_, fun stops => ?_⟩
  · obtain ⟨-, within, rfl⟩ := read_ok isRead
    refine List.map_congr_left fun i member => ?_
    rw [List.mem_range] at member
    rw [value_eq _ (by omega) (by omega)]
    congr 1
    have := bin.inside
    simp only [wrap] at *
    omega
  · unfold Image.read at stops
    split at stops <;> cases stops

/-- What is to be in a segment. -/
def segmentByte (bin : Image) (ph : Proghdr) (a : Nat) : UInt8 :=
  if a < ph.pVa + ph.pFilesz then byteAt bin (wrap (wrap (bin.binary + ph.pOffset) + (a - ph.pVa))) else 0

/-- The BSS loop from where the bytes are to be zero. -/
theorem loadBss_filled (filled : Filled M roots r lo hi first value s₀ role₀ v s role) (root : r ∈ roots)
    (small : perm < 1024) (inUser : hi ≤ USERTOP) (alignedHi : hi % PGSIZE = 0) (top : stop ≤ hi)
    (begins : v.start ≤ stop)
    (near : v.start < stop → v.la ≤ v.start) (zero : ∀ a, v.start ≤ a → a < stop → value a = 0) :
    (∃ ret t w role', loadBss M fuel r perm stop v s = .ok (ret, t) ∧
      Filled M roots r lo hi first value s₀ role₀ w t role' ∧ (ret = -E_NO_MEM ∨ ret = 0 ∧ w.start = stop)) ∨
    ∃ e, loadBss M fuel r perm stop v s = .error e ∧ e ≠ .assertion := by
  unfold loadBss
  rcases fillPages_filled (M := M) filled root small inUser alignedHi top begins near (gives_zero zero) with
    ⟨_, t, w, role', run, filled', rfl | ⟨rfl, ends⟩⟩ | ⟨e, run, harmless⟩
  · rw [run, ok_bind]
    exact .inl ⟨-E_NO_MEM, t, w, role', rfl, filled', .inl rfl⟩
  · rw [run, ok_bind]
    exact .inl ⟨0, t, w, role', rfl, filled', .inr ⟨rfl, ends⟩⟩
  · rw [run, error_bind]
    exact .inr ⟨e, rfl, harmless⟩

theorem segmentByte_bss {ph : Proghdr} {a : Nat} (past : ph.pVa + ph.pFilesz ≤ a) : segmentByte bin ph a = 0 :=
  if_neg (not_lt.mpr past)

theorem gives_file (bin : Image) (ph : Proghdr) :
    Gives bin.read (segmentByte bin ph) (ph.pVa + ph.pFilesz) (wrap (bin.binary + ph.pOffset)) ph.pVa :=
  gives_read fun _ _ high => if_pos high

theorem segment_page (a : Nat) :
    roundDown a PGSIZE ≤ a ∧ a < roundDown a PGSIZE + PGSIZE ∧ roundDown a PGSIZE % PGSIZE = 0 := by
  simp only [roundDown, PGSIZE]
  omega

/-- Nothing is filled yet. -/
theorem filled_start {ph : Proghdr} (counted : Counted M roots 0 s role) (bin : Image) (top : ph.pVa + ph.pMemsz ≤ hi)
    (unmapped : ∀ a, roundDown ph.pVa PGSIZE ≤ a → a < hi → isValid (pteOf s r a) = false) :
    Filled M roots r (roundDown ph.pVa PGSIZE) hi ph.pVa (segmentByte bin ph) s role
      ⟨ph.pVa, wrap (bin.binary + ph.pOffset), roundDown ph.pVa PGSIZE, none⟩ s role := by
  have page := segment_page ph.pVa
  refine ⟨.refl counted, Nat.mod_lt _ (by decide), page.2.2, le_rfl, ?_, le_rfl, ?_, page.2.1,
    fun a low high => absurd low (not_le.mpr high), unmapped, fun a user valid => .inl valid,
    fun short => absurd short (not_lt.mpr page.1), .refl⟩
  · dsimp only
    omega
  · dsimp only
    omega

/-- The page loops of a segment whose addresses do not wrap around. -/
theorem loadPages_filled {ph : Proghdr} (counted : Counted M roots 0 s role) (root : r ∈ roots) (inUser : hi ≤ USERTOP)
    (alignedHi : hi % PGSIZE = 0) (begins : ph.pFilesz ≤ ph.pMemsz) (top : ph.pVa + ph.pMemsz ≤ hi)
    (unmapped : ∀ a, roundDown ph.pVa PGSIZE ≤ a → a < hi → isValid (pteOf s r a) = false) :
    (∃ ret t w role', loadPages M bin fuel r ph s = .ok (ret, t) ∧
      Filled M roots r (roundDown ph.pVa PGSIZE) hi ph.pVa (segmentByte bin ph) s role w t role' ∧
      (ret = -E_NO_MEM ∨ ret = 0 ∧ w.start = ph.pVa + ph.pMemsz)) ∨
    ∃ e, loadPages M bin fuel r ph s = .error e ∧ e ≠ .assertion := by
  have userLt := USERTOP_lt
  have endFile : wrap (ph.pVa + ph.pFilesz) = ph.pVa + ph.pFilesz := wrap_small (by omega)
  have endMem : wrap (ph.pVa + ph.pMemsz) = ph.pVa + ph.pMemsz := wrap_small (by omega)
  have page := segment_page ph.pVa
  have filled := filled_start counted bin top unmapped
  rw [loadPages]
  dsimp only
  rw [endFile, endMem]
  have beforeEnd : ph.pVa + ph.pFilesz ≤ hi := by omega
  rcases fillPages_filled (M := M) filled root (permOf_lt (vmFlagsOf ph.pFlags)) inUser alignedHi beforeEnd
    (show ph.pVa ≤ ph.pVa + ph.pFilesz from Nat.le_add_right ..) (fun _ => page.1) (gives_file bin ph) with
    ⟨_, t, w, role', run, filled', rfl | ⟨rfl, ends⟩⟩ | ⟨e, run, harmless⟩
  · rw [run, ok_bind]
    exact .inl ⟨-E_NO_MEM, t, w, role', rfl, filled', .inl rfl⟩
  · rw [run, ok_bind]
    dsimp only
    have rest : ∀ a, w.start ≤ a → a < ph.pVa + ph.pMemsz → segmentByte bin ph a = 0 := fun a low _ =>
      segmentByte_bss (ends.ge.trans low)
    by_cases short : w.start < w.la
    · rw [if_pos short]
      by_cases done : w.start = ph.pVa + ph.pMemsz
      · rw [if_pos done]
        exact .inl ⟨0, t, w, role', rfl, filled', .inr ⟨rfl, done⟩⟩
      · rw [if_neg done]
        obtain ⟨u, clear, filled''⟩ := zeroTail_filled filled' root inUser top short (by omega) rest
        rw [clear, ok_bind]
        refine loadBss_filled filled'' root (permOf_lt _) inUser alignedHi top (min_le_left ..) ?_ ?_
        · dsimp only
          omega
        · intro a low high
          dsimp only at low
          exact segmentByte_bss (by omega)
    · rw [if_neg short]
      exact loadBss_filled filled' root (permOf_lt _) inUser alignedHi top (by omega) (fun _ => by omega) rest
  · rw [run, error_bind]
    exact .inr ⟨e, rfl, harmless⟩

end Ucore.Process.LoadPages
