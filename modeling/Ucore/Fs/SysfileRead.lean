import Ucore.Fs.Descriptors
import Ucore.Fs.DevStdin
import Ucore.Mm.CopyString

/-! # Reading into user space

`sysfile_read` reads by way of a buffer of its own, 4096 bytes at a time, and only then looks
whether the user's buffer can take what was read.
-/

namespace Ucore.Fs.SysfileRead

open Lib.Bytes Lib.Run Mm.Mmu Descriptors
open Mm.Vmm (MmStruct VM_READ VM_WRITE)
open Mm.CopyString (userMemCheck_sound)
open Mm.VmaList (Allowed Sound KERNBASE KERNTOP kernAccess userMemCheck userMemCheck_exact wrap)

def IOBUF_SIZE : Nat := 4096

def E_NO_MEM : Int := 4

/-- What an `int` holds of a number. -/
def intOf (n : Nat) : Int := (n : Int).bmod (2 ^ 32)

/-- The files and the memory of the process that calls, with the bytes stored in its memory. -/
structure Caller (ω : Type) where
  files : Files ω
  mm : Option MmStruct
  stored : List (Nat × UInt8)

variable {ω : Type}

def fileTestfd (s : Files ω) (fd : Int) (readable writable : Bool) : Bool :=
  match fd2file s fd with
  | .none => false
  | some i =>
      if readable = true ∧ (s.fdArray i).readable = false then false
      else if writable = true ∧ (s.fdArray i).writable = false then false
      else true

/-- The bytes with their addresses. -/
def place (base : Nat) (bytes : List UInt8) : List (Nat × UInt8) := (List.range' base bytes.length).zip bytes

def copyToUser (c : Caller ω) (dst : Nat) (bytes : List UInt8) : Result (Bool × Caller ω) :=
  match userMemCheck (bytes.length + 1) c.mm dst bytes.length true with
  | .ok (ok, mm) =>
      pure (ok, { c with mm := mm, stored := if ok then c.stored ++ place dst bytes else c.stored })
  | .error _ => throw .assertion

/-- The loop of `sysfile_read`, with fuel. It ends with `ret` and `copied`; `buffer` is what the
    inode's operation put into the kernel's buffer. -/
def readLoop (b : Below ω) (buffer : ω → Block) (fd : Int) :
    Nat → Caller ω → (base len copied : Nat) → Result ((Int × Nat) × Caller ω)
  | 0, _, _, _, _ => throw .inside
  | fuel + 1, c, base, len, copied =>
      if len = 0 then pure ((0, copied), c)
      else do
        let ((ret, alen), files) ← fileRead b c.files fd (if IOBUF_SIZE > len then len else IOBUF_SIZE)
        let c := { c with files := files }
        if alen ≠ 0 then do
          let (ok, c) ← copyToUser c base (slice (buffer files.below) 0 alen)
          if ok then do
            assert (len ≥ alen)
            if ret ≠ 0 then pure ((ret, copied + alen), c)
            else readLoop b buffer fd fuel c (base + alen) (len - alen) (copied + alen)
          else pure ((if ret = 0 then -E_INVAL else ret, copied), c)
        else pure ((ret, copied), c)

/-- `memory` says whether there is memory for the kernel's buffer. -/
def sysfileRead (b : Below ω) (buffer : ω → Block) (memory : Bool) (c : Caller ω) (fd : Int) (base len : Nat) :
    Result (Int × Caller ω) :=
  if len = 0 then pure (0, c)
  else if fileTestfd c.files fd true false = false then pure (-E_INVAL, c)
  else if memory = false then pure (-E_NO_MEM, c)
  else do
    let ((ret, copied), c) ← readLoop b buffer fd (len + 1) c base len 0
    pure (if copied ≠ 0 then intOf copied else ret, c)

/-! ## What a call should account for -/

variable {b : Below ω} {buffer : ω → Block} {consumed : ω → Nat} {c t : Caller ω} {fd : Int} {base len n i : Nat}
  {node : Inode} {memory : Bool}

/-- What the operations promise: they hand over no more than was asked for, the code is positive only with
    bytes to count, and the input counts as consumed by what was handed over. -/
structure Counting (b : Below ω) (consumed : ω → Nat) : Prop where
  short : ∀ {node pos len w ret n w'}, b.io node pos len false w = some ((ret, n), w') → n ≤ len
  code : ∀ {node pos len w ret w'}, b.io node pos len false w = some ((ret, 0), w') → ret ≤ 0
  consumes : ∀ {node pos len w ret n w'}, b.io node pos len false w = some ((ret, n), w') →
    consumed w' = consumed w + n

def Caller.pos (c : Caller ω) (fd : Int) : Int := (c.files.fdArray fd.toNat).pos

/-- As many bytes as the call returns are stored, and the file has moved on by as many. -/
def Accounts (consumed : ω → Nat) (fd : Int) (base : Nat) (c t : Caller ω) (r : Int) : Prop :=
  (0 ≤ r → (∃ bytes : List UInt8, bytes.length = r ∧ t.stored = c.stored ++ place base bytes) ∧
      t.pos fd = offT (c.pos fd + r) ∧ (consumed t.files.below : Int) = consumed c.files.below + r) ∧
    (r < 0 → t.pos fd = c.pos fd ∧ consumed t.files.below = consumed c.files.below)

/-- The process may write to the bytes, of which there is one at least. -/
def Writable (mm : Option MmStruct) (base n : Nat) : Prop :=
  match mm with
  | some mm => Allowed mm base n true
  | none => KERNBASE ≤ base ∧ 0 < n ∧ base + n ≤ KERNTOP

/-- How many bytes an inode has to give, in pieces, to a reader that has room for all of them. -/
def served (b : Below ω) (node : Inode) : Nat → Int → Nat → ω → Nat
  | 0, _, _, _ => 0
  | fuel + 1, pos, len, w =>
      if len = 0 then 0
      else match b.io node pos (min IOBUF_SIZE len) false w with
        | some ((ret, n), w') => n + if ret = 0 ∧ n ≠ 0 then served b node fuel (offT (pos + n)) (len - n) w' else 0
        | .none => 0

/-- The bytes an open file has to give. -/
def offered (b : Below ω) (memory : Bool) (c : Caller ω) (fd : Int) (len : Nat) : Nat :=
  match fd2file c.files fd with
  | some i =>
      match (c.files.fdArray i).node with
      | some node =>
          if (c.files.fdArray i).readable = true ∧ memory = true then
            served b node (len + 1) (c.files.fdArray i).pos len c.files.below
          else 0
      | .none => 0
  | .none => 0

/-! ## Writable bytes -/

theorem Writable.positive {mm : Option MmStruct} (writable : Writable mm base n) : 0 < n := by
  cases mm with
  | none => exact writable.2.1
  | some mm => exact Allowed.nonempty writable

theorem writable_none : Writable none base n ↔
    0xFFFFFFFFC0200000 ≤ base ∧ 0 < n ∧ base + n ≤ 0xFFFFFFFFC8000000 := Iff.rfl

/-- User memory and kernel memory are both smaller than what an `int` counts. -/
theorem Writable.small {mm : Option MmStruct} (writable : Writable mm base n) : n < 2 ^ 31 ∧ base + n < 2 ^ 64 := by
  cases mm with
  | none =>
      rw [writable_none] at writable
      omega
  | some mm =>
      have user := Allowed.user writable
      simp only [USERBASE, USERTOP] at user
      omega

theorem Allowed.append {mm : MmStruct} {m : Nat} {write : Bool} (first : 0 < n) (rest : 0 < m) :
    Allowed mm base (n + m) write ↔ Allowed mm base n write ∧ Allowed mm (base + n) m write := by
  constructor
  · intro whole
    obtain ⟨user, -, covered, guarded⟩ := whole
    refine ⟨⟨?_, first, fun x low high => ?_, fun writes x low high => ?_⟩,
      ⟨?_, rest, fun x low high => ?_, fun writes x low high => ?_⟩⟩
    · omega
    · exact covered x low (by omega)
    · exact guarded writes x low (by omega)
    · omega
    · exact covered x (by omega) (by omega)
    · exact guarded writes x (by omega) (by omega)
  · rintro ⟨left, right⟩
    have user := left.user
    have user' := right.user
    refine ⟨by omega, by omega, fun x low high => ?_, fun writes x low high => ?_⟩
    · by_cases here : x < base + n
      · exact left.covered x low here
      · exact right.covered x (by omega) (by omega)
    · by_cases here : x < base + n
      · exact left.guarded writes x low here
      · exact right.guarded writes x (by omega) (by omega)

theorem Writable.append {mm : Option MmStruct} {m : Nat} (first : 0 < n) (rest : 0 < m) :
    Writable mm base (n + m) ↔ Writable mm base n ∧ Writable mm (base + n) m := by
  cases mm with
  | none =>
      simp only [writable_none]
      omega
  | some mm => exact Allowed.append first rest

/-- The same areas, whatever the cache holds. -/
inductive SameAreas : Option MmStruct → Option MmStruct → Prop where
  | kernel : SameAreas none none
  | user {mm mm' : MmStruct} (list : mm'.mmapList = mm.mmapList) : SameAreas (some mm) (some mm')

theorem SameAreas.writable {mm mm' : Option MmStruct} (same : SameAreas mm mm') :
    Writable mm' base n ↔ Writable mm base n := by
  cases same with
  | kernel => exact Iff.rfl
  | user list =>
      constructor
      · rintro ⟨user, nonempty, covered, guarded⟩
        exact ⟨user, nonempty, list ▸ covered, list ▸ guarded⟩
      · rintro ⟨user, nonempty, covered, guarded⟩
        exact ⟨user, nonempty, list ▸ covered, list ▸ guarded⟩

/-- The areas of the process are in order. -/
def SoundAreas (mm : Option MmStruct) : Prop := ∀ m, mm = some m → Sound m

theorem copyToUser_spec {bytes : List UInt8} (sound : SoundAreas c.mm) (small : base < 2 ^ 64)
    (size : bytes.length < 2 ^ 64) : ∃ ok mm, copyToUser c base bytes =
      .ok (ok, { c with mm := mm, stored := if ok then c.stored ++ place base bytes else c.stored }) ∧
      SameAreas c.mm mm ∧ SoundAreas mm ∧ (ok = true ↔ Writable c.mm base bytes.length) := by
  rw [copyToUser]
  cases areas : c.mm with
  | none =>
      refine ⟨kernAccess base (wrap (base + bytes.length)), none, rfl, .kernel, nofun, ?_⟩
      have bottom : KERNBASE = 0xFFFFFFFFC0200000 := rfl
      have top : KERNTOP = 0xFFFFFFFFC8000000 := rfl
      rw [writable_none, kernAccess, bottom, top, wrap]
      simp only [Bool.and_eq_true, decide_eq_true_eq]
      omega
  | some mm =>
      have sound := sound mm areas
      obtain ⟨ok, mm', run, list, exact⟩ := userMemCheck_exact sound true small size (Nat.lt_succ_self _)
      rw [run]
      refine ⟨ok, some mm', rfl, .user list, fun m same => ?_, exact⟩
      obtain rfl := Option.some.inj same
      exact userMemCheck_sound sound run

/-! ## One piece -/

/-- An open file that can be read. -/
structure Open (s : Files ω) (fd : Int) (i : Nat) (node : Inode) : Prop where
  found : fd2file s fd = some i
  held : Held s i node
  readable : (s.fdArray i).readable = true

/-- After a read of `n` bytes. -/
def movedOn (s : Files ω) (i n : Nat) (w : ω) : Files ω :=
  ({ s with below := w } : Files ω).setFile i { s.fdArray i with pos := offT ((s.fdArray i).pos + n) }

variable {s : Files ω} {w : ω}

@[simp] theorem movedOn_pos : ((movedOn s i n w).fdArray i).pos = offT ((s.fdArray i).pos + n) := by
  rw [movedOn, setFile_self]

@[simp] theorem movedOn_below : (movedOn s i n w).below = w := rfl

theorem Open.index (isOpen : Open s fd i node) : fd.toNat = i := by
  have found := isOpen.found
  rw [fd2file] at found
  split at found
  · exact Option.some.inj found
  · cases found

theorem Open.movedOn (isOpen : Open s fd i node) : Open (movedOn s i n w) fd i node := by
  obtain ⟨found, ⟨fd', status, count, here, dir⟩, readable⟩ := isOpen
  obtain rfl : fd.toNat = i := Open.index ⟨found, ⟨fd', status, count, here, dir⟩, readable⟩
  refine ⟨?_, ⟨?_, ?_, ?_, ?_, ?_⟩, ?_⟩
  · rw [fd2file] at found ⊢
    simpa only [SysfileRead.movedOn, setFile_self] using found
  all_goals
    rw [SysfileRead.movedOn, setFile_self]
    assumption

/-- What `file_read` does on an open file. -/
theorem fileRead_eq (isOpen : Open s fd i node) (len : Nat) : fileRead b s fd len =
    if Vop.read ∈ node.kind.ops then
      match b.io node (s.fdArray i).pos len false s.below with
      | some ((ret, n), w) => .ok ((ret, n), movedOn s i n w)
      | .none => .error .inside
    else .error .unimplemented := by
  have held := isOpen.held
  rw [fileRead, isOpen.found]
  dsimp only
  rw [if_pos isOpen.readable]
  split
  · rename_i has
    rw [callFile, acquire_ok held]
    cases ran : b.io node (s.fdArray i).pos len false s.below with
    | none =>
        have run : inside (s.setFile i (acquired (s.fdArray i)))
            (b.io node (acquired (s.fdArray i)).pos len false) = .error .inside := by
          simp only [inside, Files.setFile, acquired, ran]
        simp only [bind, Except.bind, setFile_self, held.nodeOf, vopOp, if_pos has, run]
    | some result =>
        obtain ⟨⟨ret, n⟩, w⟩ := result
        have run : inside (s.setFile i (acquired (s.fdArray i)))
            (b.io node (acquired (s.fdArray i)).pos len false) =
            .ok ((ret, n), ({ s with below := w } : Files ω).setFile i (acquired (s.fdArray i))) := by
          simp only [inside, Files.setFile, acquired, ran]
        have moves : moveOn (ret, n) (acquired (s.fdArray i)) =
            { acquired (s.fdArray i) with pos := offT ((s.fdArray i).pos + n) } := if_pos held.status
        have released := release_ok (b := b) { s with below := w } i
          { acquired (s.fdArray i) with pos := offT ((s.fdArray i).pos + n) } held.status
          (by simp [acquired, held.openCount])
        have count : (1 : Int) = (s.fdArray i).openCount := held.openCount.symm
        simp only [bind, Except.bind, setFile_self, held.nodeOf, vopOp, if_pos has, run, setFile_setFile, moves,
          released]
        simp only [acquired, count]
        rfl
  · rename_i lacks
    exact callFile_unimplemented held lacks

/-! ## The loop -/

theorem place_append (base : Nat) (xs ys : List UInt8) :
    place base (xs ++ ys) = place base xs ++ place (base + xs.length) ys := by
  rw [place, List.length_append, ← List.range'_append_1, List.zip_append (by simp)]
  rfl

theorem offT_offT (x : Int) (m : Nat) : offT (offT x + m) = offT (x + m) := Int.bmod_add_bmod

theorem Writable.left {mm : Option MmStruct} {m : Nat} (first : 0 < n) (writable : Writable mm base (n + m)) :
    Writable mm base n := by
  cases m with
  | zero => exact writable
  | succ m => exact ((Writable.append first (Nat.succ_pos m)).mp writable).1

/-- Once the first bytes could be written, it is up to the other ones. -/
theorem writable_rest {mm : Option MmStruct} {m : Nat} (writable : Writable mm base n) :
    (0 < n + m → Writable mm base (n + m)) ↔ (0 < m → Writable mm (base + n) m) := by
  cases m with
  | zero => exact iff_of_true (fun _ => writable) fun none => absurd none (Nat.lt_irrefl 0)
  | succ m =>
      have split : Writable mm base (n + (m + 1)) ↔ Writable mm base n ∧ Writable mm (base + n) (m + 1) :=
        Writable.append writable.positive (Nat.succ_pos m)
      constructor
      · intro whole _
        exact (split.mp (whole (by omega))).2
      · intro rest _
        exact split.mpr ⟨writable, rest (Nat.succ_pos m)⟩

/-- What the loop has done with what it was offered: `bytes` were stored, and `lost` more were read and
    not stored. -/
structure Looped (consumed : ω → Nat) (i : Nat) (c c' : Caller ω) (base offer : Nat) (bytes : List UInt8) (lost : Nat) :
    Prop where
  stored : c'.stored = c.stored ++ place base bytes
  pos : (c'.files.fdArray i).pos = offT ((c.files.fdArray i).pos + (bytes.length + lost : Nat))
  input : consumed c'.files.below = consumed c.files.below + (bytes.length + lost)
  piece : lost ≤ IOBUF_SIZE
  fits : bytes ≠ [] → Writable c.mm base bytes.length
  exact : lost = 0 ↔ (0 < offer → Writable c.mm base offer)

variable {mm : Option MmStruct} {data bytes : List UInt8} {rest lost offer : Nat}

theorem Looped.nothing (stored : t.stored = c.stored)
    (pos : (t.files.fdArray i).pos = offT (c.files.fdArray i).pos)
    (input : consumed t.files.below = consumed c.files.below) : Looped consumed i c t base 0 [] 0 where
  stored := stored.trans (List.append_nil _).symm
  pos := by simpa using pos
  input := input
  piece := Nat.zero_le _
  fits some := absurd rfl some
  exact := iff_of_true rfl fun none => absurd none (Nat.lt_irrefl 0)

/-- What was read is refused by the user's buffer. -/
theorem Looped.refused (nonzero : n ≠ 0) (short : n ≤ IOBUF_SIZE) (moved : consumed w = consumed c.files.below + n)
    (refused : ¬Writable c.mm base n) :
    Looped consumed i c { files := movedOn c.files i n w, mm := mm, stored := c.stored } base (n + rest) [] n where
  stored := (List.append_nil _).symm
  pos := by simp
  input := by simpa using moved
  piece := short
  fits nonzero := absurd rfl nonzero
  exact := by
    refine iff_of_false nonzero fun whole => refused ?_
    exact (whole (by omega)).left (Nat.pos_of_ne_zero nonzero)

/-- What was read is stored, and the loop goes on behind it. -/
theorem Looped.stores (same : SameAreas c.mm mm) (moved : consumed w = consumed c.files.below + data.length)
    (writable : Writable c.mm base data.length)
    (later : Looped consumed i
      { files := movedOn c.files i data.length w, mm := mm, stored := c.stored ++ place base data } t
      (base + data.length) rest bytes lost) :
    Looped consumed i c t base (data.length + rest) (data ++ bytes) lost where
  stored := by rw [later.stored, place_append, List.append_assoc]
  pos := by
    rw [later.pos, movedOn_pos, offT_offT, List.length_append]
    congr 1
    push_cast
    ring
  input := by
    rw [later.input, movedOn_below, moved, List.length_append]
    ring
  piece := later.piece
  fits _ := by
    rw [List.length_append]
    by_cases more : bytes = []
    · rwa [more]
    · have rest := same.writable.mp (later.fits more)
      exact (Writable.append writable.positive rest.positive).mpr ⟨writable, rest⟩
  exact := by rw [later.exact, writable_rest writable, same.writable]

theorem readLoop_looped (counting : Counting b consumed) (fuel : Nat) (isOpen : Open c.files fd i node)
    (off : offT (c.files.fdArray i).pos = (c.files.fdArray i).pos) (sound : SoundAreas c.mm) (small : base < 2 ^ 64)
    {copied total : Nat} {ret : Int} (run : readLoop b buffer fd fuel c base len copied = .ok ((ret, total), t)) :
    ∃ bytes lost, total = copied + bytes.length ∧ (bytes = [] → lost = 0 → ret ≤ 0) ∧
      Looped consumed i c t base (served b node fuel (c.files.fdArray i).pos len c.files.below) bytes lost := by
  induction fuel generalizing c base len copied with
  | zero => exact nomatch run
  | succ fuel ih =>
      rw [readLoop] at run
      rw [served]
      split at run
      · rename_i done
        cases run
        rw [if_pos done]
        exact ⟨[], 0, rfl, fun _ _ => le_rfl, .nothing rfl off.symm rfl⟩
      rename_i more
      have amount : (if IOBUF_SIZE > len then len else IOBUF_SIZE) = min IOBUF_SIZE len := by
        split <;> omega
      rw [amount] at run
      obtain ⟨⟨⟨ret', n⟩, files⟩, read, run⟩ := bind_ok.mp run
      rw [fileRead_eq isOpen] at read
      rw [if_neg more]
      cases handed : b.io node (c.files.fdArray i).pos (min IOBUF_SIZE len) false c.files.below with
      | none =>
          rw [handed] at read
          split at read <;> exact nomatch read
      | some result =>
          obtain ⟨⟨ret'', m⟩, w⟩ := result
          rw [handed] at read
          split at read
          swap
          · exact nomatch read
          cases read
          have short : n ≤ IOBUF_SIZE := (counting.short handed).trans (min_le_left ..)
          have moved := counting.consumes handed
          have off' : offT ((movedOn c.files i n w).fdArray i).pos = ((movedOn c.files i n w).fdArray i).pos := by
            rw [movedOn_pos]
            exact Int.bmod_bmod
          dsimp only at run ⊢
          by_cases nothing : n = 0
          · rw [if_neg (not_not.mpr nothing)] at run
            cases run
            subst nothing
            rw [if_neg (fun both => both.2 rfl)]
            exact ⟨[], 0, rfl, fun _ _ => counting.code handed, .nothing rfl (by simp) moved⟩
          · rw [if_pos nothing] at run
            obtain ⟨⟨answer, c'⟩, copy, run⟩ := bind_ok.mp run
            have length : (slice (buffer w) 0 n).length = n := length_slice ..
            have size : (slice (buffer w) 0 n).length < 2 ^ 64 := by
              simp only [IOBUF_SIZE] at short
              omega
            obtain ⟨ok, mm, copied', same, sound', exact⟩ :=
              copyToUser_spec (c := { c with files := movedOn c.files i n w }) sound small size
            obtain ⟨rfl, rfl⟩ := Prod.mk.inj (Except.ok.inj (copied'.symm.trans copy))
            rw [length] at exact
            cases ok with
            | false =>
                have refused : ¬Writable c.mm base n := fun writable => nomatch exact.mpr writable
                cases run
                exact ⟨[], n, rfl, fun _ none => absurd none nothing, .refused nothing short moved refused⟩
            | true =>
                have writable : Writable c.mm base n := exact.mp rfl
                have behind : base + n < 2 ^ 64 := writable.small.2
                have nonzero : ∀ bytes, slice (buffer w) 0 n ++ bytes ≠ [] := fun bytes none => by
                  rw [(List.append_eq_nil_iff.mp none).1] at length
                  exact nothing length.symm
                obtain ⟨-, -, run⟩ := bind_ok.mp run
                rw [← length] at moved writable
                dsimp only at run
                split at run
                · rename_i failed
                  cases run
                  have last : (if ret = 0 ∧ n ≠ 0 then served b node fuel (offT ((c.files.fdArray i).pos + n))
                      (len - n) w else 0) = 0 := if_neg fun both => failed both.1
                  rw [last]
                  refine ⟨slice (buffer w) 0 n ++ [], 0, by simp, fun none => absurd none (nonzero []), ?_⟩
                  have whole := Looped.stores (c := c) (i := i)
                    (t := ⟨movedOn c.files i n w, mm, _⟩) same moved writable
                    (.nothing rfl (by rw [length]; exact off'.symm) (by rw [length]))
                  rwa [length] at whole
                · rename_i fine
                  rw [not_not] at fine
                  obtain ⟨bytes, lost, count, -, later⟩ := ih isOpen.movedOn off' sound' behind run
                  rw [if_pos ⟨fine, nothing⟩]
                  refine ⟨slice (buffer w) 0 n ++ bytes, lost, ?_, fun none => absurd none (nonzero bytes), ?_⟩
                  · rw [count, List.length_append, length]
                    omega
                  · rw [movedOn_pos, movedOn_below] at later
                    have whole := Looped.stores (c := c) (i := i) (t := t) same moved writable
                      (by rw [length]; exact later)
                    rwa [length] at whole

/-! ## The whole call -/

theorem intOf_small (small : n < 2 ^ 31) : intOf n = n := Int.bmod_eq_of_le_mul_two (by omega) (by omega)

/-- The position tells by how much a file has moved on. -/
theorem offT_inj {p : Int} {x y : Nat} (left : x < 2 ^ 63) (right : y < 2 ^ 63) :
    offT (p + x) = offT (p + y) ↔ x = y := by
  have fits : ∀ {z : Nat}, z < 2 ^ 63 → (z : Int).bmod (2 ^ 64) = z := fun small =>
    Int.bmod_eq_of_le_mul_two (by omega) (by omega)
  rw [offT, offT, Int.bmod_add_cancel_left, fits left, fits right, Int.natCast_inj]

theorem Looped.accounts {ret r : Int} (index : fd.toNat = i)
    (off : offT (c.files.fdArray i).pos = (c.files.fdArray i).pos)
    (looped : Looped consumed i c t base offer bytes lost)
    (code : bytes = [] → lost = 0 → ret ≤ 0) (result : r = if bytes.length ≠ 0 then intOf bytes.length else ret) :
    Accounts consumed fd base c t r ↔ lost = 0 := by
  have piece := looped.piece
  have pos := looped.pos
  have input := looped.input
  simp only [IOBUF_SIZE] at piece
  unfold Accounts Caller.pos
  rw [index]
  have moved : ∀ x : Nat, x < 2 ^ 31 → bytes.length < 2 ^ 31 →
      (t.files.fdArray i).pos = offT ((c.files.fdArray i).pos + x) → bytes.length + lost = x :=
        fun x small short here => by
    rw [pos] at here
    exact (offT_inj (by omega) (by omega)).mp here
  by_cases none : bytes = []
  · subst none
    rw [if_neg (by simp)] at result
    subst result
    constructor
    · intro accounts
      by_cases positive : 0 ≤ r
      · obtain ⟨⟨more, count, stored⟩, here, -⟩ := accounts.1 positive
        rw [looped.stored, List.append_cancel_left_eq] at stored
        have empty : more.length = 0 := by
          have := congrArg List.length stored
          simpa [place] using this.symm
        rw [← count, empty] at here
        simpa using moved 0 (by decide) (by simp) here
      · have here := (accounts.2 (by omega)).1
        rw [← off] at here
        simpa using moved 0 (by decide) (by simp) (by simpa using here)
    · rintro rfl
      have negative := code rfl rfl
      refine ⟨fun low => ?_, fun _ => ?_⟩
      · obtain rfl : r = 0 := le_antisymm negative low
        exact ⟨⟨[], rfl, looped.stored⟩, pos, by simpa using congrArg Int.ofNat input⟩
      · exact ⟨by rw [pos]; simpa using off, input⟩
  · have short := (looped.fits none).small.1
    have given : bytes.length ≠ 0 := fun empty => none (List.length_eq_zero_iff.mp empty)
    rw [if_pos given, intOf_small short] at result
    subst result
    constructor
    · intro accounts
      have := moved _ short short (accounts.1 (Int.natCast_nonneg _)).2.1
      omega
    · rintro rfl
      refine ⟨fun _ => ⟨⟨bytes, rfl, looped.stored⟩, pos, ?_⟩,
        fun negative => absurd negative (Int.natCast_nonneg _).not_gt⟩
      rw [input]
      push_cast
      rfl

theorem accounts_nothing {r : Int} (off : offT (c.pos fd) = c.pos fd) (negative : r ≤ 0) :
    Accounts consumed fd base c c r := by
  refine ⟨fun low => ?_, fun _ => ⟨rfl, rfl⟩⟩
  obtain rfl : r = 0 := le_antisymm negative low
  exact ⟨⟨[], rfl, (List.append_nil _).symm⟩, by rw [Int.add_zero, off], (Int.add_zero _).symm⟩

theorem fileTestfd_opens (inv : Inv s) (opened : ¬fileTestfd s fd true false = false) : ∃ i node, Open s fd i node := by
  rw [fileTestfd] at opened
  split at opened
  · exact absurd rfl opened
  · rename_i i found
    obtain ⟨node, held⟩ := inv.held found
    exact ⟨i, node, found, held, by simpa using opened⟩

theorem reached_inv (reached : Reachable Initial (Step b) s) : Inv s :=
  reached.invariant Inv (fun _ fresh => fresh.inv) fun _ _ inv step => step.inv inv

/-- Only what can be read is offered. -/
theorem offered_nothing (closed : ∀ i, fd2file c.files fd = some i →
    ¬((c.files.fdArray i).readable = true ∧ memory = true)) : offered b memory c fd len = 0 := by
  rw [offered]
  split
  · rename_i i found
    split
    · exact if_neg (closed i found)
    · rfl
  · rfl

/-- A call accounts for every byte exactly when the user's buffer takes what the file has to give. -/
theorem sysfileRead_accounts_iff (counting : Counting b consumed) (reached : Reachable Initial (Step b) c.files)
    (off : offT (c.pos fd) = c.pos fd) (sound : SoundAreas c.mm) (small : base < 2 ^ 64) {r : Int}
    (run : sysfileRead b buffer memory c fd base len = .ok (r, t)) :
    Accounts consumed fd base c t r ↔
      (0 < offered b memory c fd len → Writable c.mm base (offered b memory c fd len)) := by
  have nothing : ∀ {code : Int}, offered b memory c fd len = 0 → code ≤ 0 →
    (.ok (code, c) : Result (Int × Caller ω)) = .ok (r, t) →
      (Accounts consumed fd base c t r ↔
        (0 < offered b memory c fd len → Writable c.mm base (offered b memory c fd len))) := by
    intro code none negative same
    cases same
    exact iff_of_true (accounts_nothing off negative) fun some => absurd some (by omega)
  rw [sysfileRead] at run
  split at run
  · rename_i done
    refine nothing ?_ le_rfl run
    rw [offered]
    split
    · split
      · rw [served, if_pos done]
        exact ite_self 0
      · rfl
    · rfl
  split at run
  · rename_i closed
    refine nothing (offered_nothing fun i found both => ?_) (by decide) run
    rw [fileTestfd, found] at closed
    simp [both.1] at closed
  rename_i opened
  split at run
  · rename_i no
    exact nothing (offered_nothing fun i _ both => by simp [no] at both) (by decide) run
  rename_i there
  obtain ⟨⟨⟨ret, copied⟩, t'⟩, loop, last⟩ := bind_ok.mp run
  cases last
  obtain ⟨i, node, isOpen⟩ := fileTestfd_opens (reached_inv reached) opened
  have index := isOpen.index
  have off : offT (c.files.fdArray i).pos = (c.files.fdArray i).pos := by
    rw [← index]
    exact off
  obtain ⟨bytes, lost, count, code, looped⟩ := readLoop_looped counting _ isOpen off sound small loop
  have offer : offered b memory c fd len = served b node (len + 1) (c.files.fdArray i).pos len c.files.below := by
    rw [offered, isOpen.found]
    dsimp only
    rw [isOpen.held.here]
    exact if_pos ⟨isOpen.readable, by simpa using there⟩
  rw [offer, looped.accounts index off code (by rw [count, Nat.zero_add]), looped.exact]

/-! ## A call returns -/

theorem readLoop_returns (counting : Counting b consumed) (returns : b.Returns) (fuel : Nat) (enough : len < fuel)
    (isOpen : Open c.files fd i node) (has : Vop.read ∈ node.kind.ops) (sound : SoundAreas c.mm) (small : base < 2 ^ 64)
    (copied : Nat) : ∃ ret total t, readLoop b buffer fd fuel c base len copied = .ok ((ret, total), t) := by
  induction fuel generalizing c base len copied with
  | zero => exact absurd enough (Nat.not_lt_zero _)
  | succ fuel ih =>
      rw [readLoop]
      by_cases done : len = 0
      · rw [if_pos done]
        exact ⟨_, _, _, rfl⟩
      rw [if_neg done, fileRead_eq isOpen, if_pos has]
      generalize wanted : (if IOBUF_SIZE > len then len else IOBUF_SIZE) = want
      have most : want ≤ len ∧ want ≤ IOBUF_SIZE := by
        rw [← wanted]
        split <;> omega
      cases handed : b.io node (c.files.fdArray i).pos want false c.files.below with
      | none => exact (returns.io _ _ _ _ _ handed).elim
      | some result =>
          obtain ⟨⟨ret, n⟩, w⟩ := result
          have short := counting.short handed
          have size : (slice (buffer w) 0 n).length < 2 ^ 64 := by
            rw [length_slice]
            simp only [IOBUF_SIZE] at most
            omega
          dsimp only [bind, Except.bind]
          by_cases nothing : n = 0
          · rw [if_neg (not_not.mpr nothing)]
            exact ⟨_, _, _, rfl⟩
          obtain ⟨ok, mm, copy, same, sound', exact⟩ :=
            copyToUser_spec (c := { c with files := movedOn c.files i n w }) sound small size
          rw [if_pos nothing, movedOn_below, copy]
          cases ok with
          | false => exact ⟨_, _, _, rfl⟩
          | true =>
              have behind := (exact.mp rfl).small.2
              rw [length_slice] at behind
              have inside : assert (len ≥ n) = .ok () := if_pos (short.trans most.1)
              dsimp only
              rw [if_pos rfl, inside]
              dsimp only
              split
              · exact ⟨_, _, _, rfl⟩
              · exact ih (by omega) isOpen.movedOn sound' behind _

/-- A call returns unless it is made on a directory, or what it is sent to does not. -/
theorem sysfileRead_returns (counting : Counting b consumed) (returns : b.Returns)
    (reached : Reachable Initial (Step b) c.files) (supported : ¬Unsupported c.files (.read fd len))
    (sound : SoundAreas c.mm) (small : base < 2 ^ 64) :
    ∃ r t, sysfileRead b buffer memory c fd base len = .ok (r, t) := by
  rw [sysfileRead]
  split
  · exact ⟨_, _, rfl⟩
  split
  · exact ⟨_, _, rfl⟩
  rename_i opened
  split
  · exact ⟨_, _, rfl⟩
  obtain ⟨i, node, isOpen⟩ := fileTestfd_opens (reached_inv reached) opened
  have has : Vop.read ∈ node.kind.ops := by
    cases kind : node.kind with
    | dir => exact absurd ⟨i, node, isOpen.found, isOpen.held.here, isOpen.readable, kind⟩ supported
    | file => decide
    | device dev => simp [Kind.ops, devNodeOps]
  obtain ⟨ret, total, t, run⟩ :=
    readLoop_returns counting returns (len + 1) (Nat.lt_succ_self _) isOpen has sound small 0
  rw [run]
  exact ⟨_, _, rfl⟩

/-! ## Standard input -/

/-- `stdin_io` for a reader that does not have to wait. -/
def stdinIo (len : Nat) (write : Bool) (w : DevStdin.Stdin × Block) : Option ((Int × Nat) × (DevStdin.Stdin × Block)) :=
  if write then some ((-E_INVAL, 0), w)
  else
    let (stdin, bytes) := DevStdin.copyUnread len w.1
    if bytes.length < len then none else some ((bytes.length, bytes.length), (stdin, patch w.2 0 bytes))

def onlyStdin : Below (DevStdin.Stdin × Block) where
  lookup := fun _ w => some ((0, ⟨.device .stdin, 0⟩), w)
  lookupParent := fun _ w => some ((0, ⟨.device .stdin, 0⟩), w)
  refInc := fun _ w => w
  refDec := fun _ w => some w
  openInc := fun _ w => w
  openDec := fun _ w => some w
  io := fun _ _ len write w => stdinIo len write w
  tryseek := fun _ _ w => some (-E_INVAL, w)
  truncate := fun _ _ w => some (-E_INVAL, w)
  fsync := fun _ w => some (0, w)
  getdirentry := fun _ _ w => some ((0, 0), w)
  size := fun _ _ => 0

theorem copyUnread_counts (left : Nat) (stdin : DevStdin.Stdin) :
    (DevStdin.copyUnread left stdin).2.length ≤ left ∧
      (DevStdin.copyUnread left stdin).1.rpos = stdin.rpos + (DevStdin.copyUnread left stdin).2.length := by
  induction left generalizing stdin with
  | zero => exact ⟨le_rfl, rfl⟩
  | succ left ih =>
      rw [DevStdin.copyUnread]
      split
      · obtain ⟨most, moved⟩ := ih { stdin with rpos := stdin.rpos + 1 }
        refine ⟨Nat.succ_le_succ most, ?_⟩
        rw [List.length_cons, moved]
        exact Nat.add_right_comm ..
      · exact ⟨Nat.zero_le _, rfl⟩

/-- What is read from the keyboard counts as consumed. -/
theorem onlyStdin_counting : Counting onlyStdin fun w => w.1.rpos := by
  have reads : ∀ {len w ret n w'}, stdinIo len false w = some ((ret, n), w') →
      n ≤ len ∧ ret = n ∧ w'.1.rpos = w.1.rpos + n := by
    intro len w ret n w' ran
    obtain ⟨most, moved⟩ := copyUnread_counts len w.1
    simp only [stdinIo, Bool.false_eq_true, if_false] at ran
    split at ran
    · exact nomatch ran
    · cases ran
      exact ⟨most, rfl, moved⟩
  exact ⟨fun ran => (reads ran).1, fun ran => (reads ran).2.1.le, fun ran => (reads ran).2.2⟩

/-- Two bytes were typed, and the process that reads them has one page. -/
def beforeTyped : Files (DevStdin.Stdin × Block) where
  fdArray := fun i => ⟨.none, false, false, i, 0, .none, 0⟩
  below := ((DevStdin.typed 2).stdin, zeros)

def twoTyped : Caller (DevStdin.Stdin × Block) where
  files := beforeTyped.setFile 0 ⟨.opened, true, false, 0, 0, some ⟨.device .stdin, 0⟩, 1⟩
  mm := some ⟨[⟨0x400000, 0x401000, VM_READ ||| VM_WRITE⟩], none, 0, 1, true⟩
  stored := []

theorem twoTyped_reachable : Reachable Initial (Step onlyStdin) twoTyped.files := by
  refine .next (.start (s := beforeTyped) fun i _ => ⟨rfl, rfl, rfl⟩) ⟨.open [0x2e] O_RDONLY, 0, ?_⟩
  change Except.ok _ = Except.ok _
  simp only [twoTyped, Files.setFile, Function.update_idem]
  rfl

theorem twoTyped_sound : SoundAreas twoTyped.mm := by
  intro mm same
  cases same
  exact ⟨by simp, by simp, by simp, rfl⟩

/-- What a call on the two bytes returns and stores, and what it has consumed. -/
def outcome (base len : Nat) : Option (Int × List (Nat × UInt8) × Nat) :=
  match sysfileRead onlyStdin (·.2) true twoTyped 0 base len with
  | .ok (r, t) => some (r, t.stored, t.files.below.1.rpos)
  | .error _ => none

theorem sysfileRead_accounts_iff_typed : ∃ r t, sysfileRead onlyStdin (·.2) true twoTyped 0 0x400000 2 = .ok (r, t) ∧
    (Accounts (fun w => w.1.rpos) 0 0x400000 twoTyped t r ↔
      (0 < offered onlyStdin true twoTyped 0 2 →
      Writable twoTyped.mm 0x400000 (offered onlyStdin true twoTyped 0 2))) := by
  have returns : (outcome 0x400000 2).isSome = true := by decide +kernel
  unfold outcome at returns
  cases run : sysfileRead onlyStdin (·.2) true twoTyped 0 0x400000 2 with
  | error stop =>
      rw [run] at returns
      cases returns
  | ok result =>
      obtain ⟨r, t⟩ := result
      exact ⟨r, t, rfl, sysfileRead_accounts_iff onlyStdin_counting twoTyped_reachable rfl twoTyped_sound
        (by decide) run⟩

/-- The last byte of a page and the one behind it: both bytes are consumed, none is stored, and the call
    returns two. -/
theorem sysfileRead_loses : ∃ r t, Reachable Initial (Step onlyStdin) twoTyped.files ∧ SoundAreas twoTyped.mm ∧
    sysfileRead onlyStdin (·.2) true twoTyped 0 0x400fff 2 = .ok (r, t) ∧ r = 2 ∧ t.stored = [] ∧
    t.files.below.1.rpos = 2 ∧ ¬Accounts (fun w => w.1.rpos) 0 0x400fff twoTyped t r := by
  have returns : outcome 0x400fff 2 = some (2, [], 2) := by decide +kernel
  unfold outcome at returns
  cases run : sysfileRead onlyStdin (·.2) true twoTyped 0 0x400fff 2 with
  | error stop =>
      rw [run] at returns
      cases returns
  | ok result =>
      obtain ⟨r, t⟩ := result
      rw [run] at returns
      obtain ⟨two, nothing, consumed⟩ : r = 2 ∧ t.stored = [] ∧ t.files.below.1.rpos = 2 := by simpa using returns
      refine ⟨r, t, twoTyped_reachable, twoTyped_sound, rfl, two, nothing, consumed, fun accounts => ?_⟩
      obtain ⟨⟨bytes, count, stored⟩, -⟩ := accounts.1 (by omega)
      rw [nothing, show twoTyped.stored = [] from rfl, List.nil_append] at stored
      have absent : bytes.length = 0 := by simpa [place] using congrArg List.length stored.symm
      omega

end Ucore.Fs.SysfileRead
