import Ucore.Fs.Iobuf

/-! # Reading a directory

A caller reads a directory one name at a time, and says by an offset which. The offset counts
the entries in use; it is a number of 64 bits that becomes an `int` on its way.
-/

namespace Ucore.Fs.Getdirentry

open Lib.Bytes Lib.Program Lib.Program.Prog Error Sfs SfsIo Ownership Volumes Directory Iobuf Descriptors
open TruncRuns (withFaults)

/-- `sfs_dentry_size` -/
def sfsDentrySize : Nat := SFS_MAX_FNAME_LEN + 1

/-- A number as an `uint32_t`. -/
@[irreducible] def uintOf (n : Int) : Nat := (n % 2 ^ 32).toNat

/-- `offset / sfs_dentry_size` -/
def indexOf (offset : Int) : Nat := (offset / sfsDentrySize).toNat

def sfsGetdirentry (sin : Nat) : Op Transfer Unit := do
  onFs (attempt .noMem)
  let t ← get
  let offset := t.iob.ioOffset
  if offset < 0 ∨ offset % sfsDentrySize ≠ 0 then throw .inval
  else
    let slot := intOf (indexOf offset)
    -- compared as numbers without sign
    if (t.fs.nodes sin).din.blocks < uintOf slot then throw .noEnt
    else
      let entry ← onFs (sfsGetdirentrySubNolock sin slot)
      iobufMove entry.name

/-- What is below the descriptors. -/
structure World where
  fs : SfsFs
  mem : Block

/-- `offsetof(struct dirent, name)` -/
def direntName : Nat := 8

/-- `vop_getdirentry` on a directory, for the `name` of a `struct dirent`. An operation that fails
    has used nothing of it. -/
def vopGetdirentry (direntp sin : Nat) (offset : Int) (w : World) : Option ((Int × Nat) × World) :=
  match sfsGetdirentry sin ⟨w.fs, w.mem, iobufInit (direntp + direntName) (SFS_MAX_FNAME_LEN + 1) offset⟩ with
  | .ok (.ok (), t) => some ((0, iobufUsed t.iob), ⟨t.fs, t.mem⟩)
  | .ok (.error e, t) => some ((e.ret, iobufUsed t.iob), ⟨t.fs, t.mem⟩)
  | .error _ => none

/-- Directories below the descriptors are these. -/
def Serves (b : Below World) (direntp : Nat) : Prop :=
  ∀ sin offset w, b.getdirentry ⟨.dir, sin⟩ offset w = vopGetdirentry direntp sin offset w

/-- The name in the `struct dirent`. -/
def nameAt (mem : Block) (direntp : Nat) : List UInt8 :=
    string (slice mem (direntp + direntName) (SFS_MAX_FNAME_LEN + 1))

/-- What a call is to answer that comes to this number for its offset. -/
def answer (vol : Volume) (dir : Nat) (offset : Int) (k : Nat) : Except Err DiskEntry :=
  if offset < 0 ∨ offset % sfsDentrySize ≠ 0 then .error .inval
  else match (used vol dir)[k]? with
    | some entry => .ok entry
    | none => .error .noEnt

/-- The answer has this code, and with the code 0 the name. -/
def Answers (promise : Except Err DiskEntry) (direntp : Nat) (ret : Int) (w : World) : Prop :=
  match promise with
  | .ok entry => ret = 0 ∧ nameAt w.mem direntp = string entry.name
  | .error e => ret = e.ret

variable {vol : Volume} {p : Nat} {allowed : Panic → Prop} {E : Err → Transfer → Prop}

theorem uintOf_intOf (n : Nat) : uintOf (intOf n) = n % 2 ^ 32 := by
  unfold uintOf intOf
  have whole : Int.bmod n (2 ^ 32) % ((2 ^ 32 : Nat) : Int) = (n : Int) % ((2 ^ 32 : Nat) : Int) := Int.bmod_emod
  rw [show (2 : Int) ^ 32 = ((2 ^ 32 : Nat) : Int) by norm_num, whole, ← Int.natCast_emod, Int.toNat_natCast]

/-- A number that looks small as an `uint32_t` is that number as an `int`. -/
theorem intOf_of_small {n : Nat} (small : n % 2 ^ 32 < 2 ^ 31) : intOf n = (n % 2 ^ 32 : Nat) := by
  have same : intOf n = intOf (n % 2 ^ 32) := by
    unfold intOf
    rw [Int.natCast_emod, Int.emod_bmod]
  rw [same, intOf_small small]

theorem slots_name {dir : Nat} {entry : DiskEntry} (inside : entry ∈ slots vol dir) :
    entry.name.length = SFS_MAX_FNAME_LEN + 1 := by
  obtain ⟨b, -, rfl⟩ := List.mem_map.mp inside
  simp [readEntry, terminate, DiskEntry.ofBytes, part, DiskEntry.sizeof]

theorem sfsGetdirentry_spec {t : Transfer} {Q : Unit → Transfer → Prop} (holds : Holds t.fs vol) (dir : Dir t.fs p)
    (room : SFS_MAX_FNAME_LEN + 1 ≤ t.iob.ioResid)
    (failed : ∀ e fs, Quiet t.fs fs → Failing t.fs fs → E e { t with fs := fs })
    (refused : ∀ e, answer vol (t.fs.nodes p).ino t.iob.ioOffset (indexOf t.iob.ioOffset % 2 ^ 32) = .error e →
      ∀ fs, Quiet t.fs fs → E e { t with fs := fs })
    (post : ∀ entry, answer vol (t.fs.nodes p).ino t.iob.ioOffset (indexOf t.iob.ioOffset % 2 ^ 32) = .ok entry →
      entry.name.length = SFS_MAX_FNAME_LEN + 1 → ∀ fs, Quiet t.fs fs →
      Q () ⟨fs, patch t.mem t.iob.ioBase entry.name, skipped t.iob (SFS_MAX_FNAME_LEN + 1)⟩) :
    Spec allowed (sfsGetdirentry p) t Q E := by
  have first := Quiet.tick t.fs
  simp only [sfsGetdirentry, spec_bind, spec_onFs]
  refine attempt_due (fun fault => failed _ _ first (failing_tick fault)) ?_
  simp only [spec_get, spec_ite, spec_throw]
  refine ⟨fun bad => refused _ (by rw [answer, if_pos bad]) _ first, fun good => ?_⟩
  rw [answer, if_neg good] at refused post
  have length := slots_length holds dir.member
  have few : (used vol (t.fs.nodes p).ino).length ≤ (t.fs.nodes p).din.blocks := by
    rw [← length]
    exact List.length_filter_le ..
  rw [uintOf_intOf]
  refine ⟨fun beyond => refused _ ?_ _ first, fun within => ?_⟩
  · rw [List.getElem?_eq_none (Nat.le_of_lt (Nat.lt_of_le_of_lt few beyond))]
  · have short := holds.short dir.member
    have small : indexOf t.iob.ioOffset % 2 ^ 32 < 2 ^ 31 := by
      change ¬ (t.fs.nodes p).din.blocks < _ at within
      omega
    rw [intOf_of_small small, spec_bind, spec_onFs]
    refine sfsGetdirentrySubNolock_spec holds.tick (dir.quiet first) ?_ (fun out fs quiet => ?_)
      fun entry here fs quiet => ?_
    · exact fun e fs _ quiet failing => failed e fs (first.trans quiet) (failing.after first.faults)
    · change (used vol (t.fs.nodes p).ino)[_]? = none at out
      rw [out] at refused
      exact refused _ rfl fs (first.trans quiet)
    · change (used vol (t.fs.nodes p).ino)[_]? = some entry at here
      rw [here] at post
      have name := slots_name (List.mem_of_mem_filter (List.mem_of_getElem? here))
      have done := post entry rfl name fs (first.trans quiet)
      rw [← name] at done
      exact iobufMove_spec (by rw [name]; decide) (by rw [name]; exact room) done

/-- What the call answers: the number of the entry has only 32 bits. -/
theorem vopGetdirentry_spec {w : World} {direntp : Nat} (holds : Holds w.fs vol) (dir : Dir w.fs p) (offset : Int) :
    ∃ ret used w', vopGetdirentry direntp p offset w = some ((ret, used), w') ∧ Quiet w.fs w'.fs ∧
      (ret ≠ 0 ∧ used = 0 ∧ w'.mem = w.mem ∧ Failing w.fs w'.fs ∨
        Answers (answer vol (w.fs.nodes p).ino offset (indexOf offset % 2 ^ 32)) direntp ret w' ∧
          used = if ret = 0 then SFS_MAX_FNAME_LEN + 1 else 0) := by
  have spec : Spec (fun _ => False) (sfsGetdirentry p)
      ⟨w.fs, w.mem, iobufInit (direntp + direntName) (SFS_MAX_FNAME_LEN + 1) offset⟩
      (fun _ t => ∃ entry, answer vol (w.fs.nodes p).ino offset (indexOf offset % 2 ^ 32) = .ok entry ∧
        Quiet w.fs t.fs ∧ nameAt t.mem direntp = string entry.name ∧ iobufUsed t.iob = SFS_MAX_FNAME_LEN + 1)
      fun e t => t.mem = w.mem ∧ iobufUsed t.iob = 0 ∧ Quiet w.fs t.fs ∧ (Failing w.fs t.fs ∨
        answer vol (w.fs.nodes p).ino offset (indexOf offset % 2 ^ 32) = .error e) := by
    refine sfsGetdirentry_spec holds dir le_rfl (fun e fs quiet failing => ⟨rfl, Nat.sub_self _, quiet, .inl failing⟩)
      (fun e refused fs quiet => ⟨rfl, Nat.sub_self _, quiet, .inr refused⟩) fun entry here name fs quiet => ?_
    refine ⟨entry, here, quiet, ?_, Nat.sub_sub_self le_rfl⟩
    rw [nameAt, ← name]
    exact congrArg string (slice_patch ..)
  cases run : sfsGetdirentry p ⟨w.fs, w.mem, iobufInit (direntp + direntName) (SFS_MAX_FNAME_LEN + 1) offset⟩ with
  | error stop => exact (spec.stopped run).elim
  | ok outcome =>
      obtain ⟨result, t⟩ := outcome
      cases result with
      | ok done =>
          obtain ⟨entry, here, quiet, name, all⟩ := spec.value run
          refine ⟨0, iobufUsed t.iob, ⟨t.fs, t.mem⟩, by rw [vopGetdirentry, run], quiet, .inr ⟨?_, all⟩⟩
          rw [here]
          exact ⟨rfl, name⟩
      | error e =>
          obtain ⟨same, idle, quiet, why⟩ := spec.error run
          have code : e.ret ≠ 0 := by cases e <;> decide
          refine ⟨e.ret, iobufUsed t.iob, ⟨t.fs, t.mem⟩, by rw [vopGetdirentry, run], quiet, ?_⟩
          rcases why with failing | refused
          · exact .inl ⟨code, idle, same, failing⟩
          · refine .inr ⟨by rw [refused]; rfl, by rw [if_neg code, idle]⟩

/-! ## With a descriptor -/

/-- The descriptor is open on the directory. -/
def OpenDir (s : Files World) (fd : Int) (p : Nat) : Prop :=
  ∃ i, fd2file s fd = some i ∧ (s.fdArray i).node = some ⟨.dir, p⟩

/-- The same state with this in store for the device and the allocator. -/
def facing (s : Files World) (faults : List Bool) : Files World :=
  { s with below := { s.below with fs := withFaults s.below.fs faults } }

/-- Repeated calls, each with the offset the one before has left. -/
def readDir (b : Below World) (direntp : Nat) (fd : Int) :
    Nat → Int → Files World → Result (List (Except Int (List UInt8)) × Files World)
  | 0, _, s => pure ([], s)
  | count + 1, offset, s => do
      let ((ret, used), s) ← fileGetdirentry b s fd offset
      if ret = 0 then
        let (rest, t) ← readDir b direntp fd count (offT (offset + used)) s
        pure (.ok (nameAt s.below.mem direntp) :: rest, t)
      else
        let (rest, t) ← readDir b direntp fd count offset s
        pure (.error ret :: rest, t)

variable {b : Below World} {s t : Files World} {fd : Int} {direntp : Nat}

/-- The table of descriptors is as before. -/
theorem fileGetdirentry_below (serves : Serves b direntp) (inv : Descriptors.Inv s) (opened : OpenDir s fd p)
    {offset : Int} {r : Int × Nat} {w : World} (answered : vopGetdirentry direntp p offset s.below = some (r, w)) :
    fileGetdirentry b s fd offset = .ok (r, { s with below := w }) := by
  obtain ⟨i, found, node⟩ := opened
  obtain ⟨node', held⟩ := inv.held found
  obtain rfl : node' = ⟨.dir, p⟩ := Option.some_inj.mp (held.here.symm.trans node)
  have released := release_ok (b := b) { s with below := w } i (acquired (s.fdArray i)) held.status (by
    rw [acquired, held.openCount]
    rfl)
  have same : { acquired (s.fdArray i) with openCount := 1 } = s.fdArray i := by
    rw [acquired, ← held.openCount]
  rw [same] at released
  have kept : Files.setFile { s with below := w } i (s.fdArray i) = { s with below := w } := by
    rw [Files.setFile]
    exact congrArg (fun fdArray => Files.mk fdArray w) (Function.update_eq_self i s.fdArray)
  rw [kept] at released
  rw [fileGetdirentry, found]
  simp only [callFile, acquire_ok held, bind, Except.bind, setFile_self, held.nodeOf, vopOp]
  rw [if_pos (show Vop.getdirentry ∈ Kind.dir.ops by decide)]
  simp only [inside, serves p offset, show (s.setFile i (acquired (s.fdArray i))).below = s.below from rfl, answered]
  have once : Files.setFile { s.setFile i (acquired (s.fdArray i)) with below := w } i (acquired (s.fdArray i)) =
      Files.setFile { s with below := w } i (acquired (s.fdArray i)) :=
    congrArg (fun fdArray => Files.mk fdArray w) (Function.update_idem ..)
  rw [setFile_self, once, released]
  rfl

/-- With a descriptor: the call answers, or an operation has failed. -/
theorem fileGetdirentry_spec {vol : Volume} (serves : Serves b direntp) (inv : Descriptors.Inv s)
    (opened : OpenDir s fd p)
    (holds : Holds s.below.fs vol) (dir : Dir s.below.fs p) (offset : Int) :
    ∃ ret used w, fileGetdirentry b s fd offset = .ok ((ret, used), { s with below := w }) ∧
      Quiet s.below.fs w.fs ∧ (ret ≠ 0 ∧ Failing s.below.fs w.fs ∨
        Answers (answer vol (s.below.fs.nodes p).ino offset (indexOf offset % 2 ^ 32)) direntp ret w ∧
          used = if ret = 0 then SFS_MAX_FNAME_LEN + 1 else 0) := by
  obtain ⟨ret, used, w, answered, quiet, outcome⟩ := vopGetdirentry_spec holds dir offset
  refine ⟨ret, used, w, fileGetdirentry_below serves inv opened answered, quiet, ?_⟩
  exact outcome.imp_left fun failed => ⟨failed.1, failed.2.2.2⟩

/-- What a number of calls are to answer: the names in their order, and then that there are no more. -/
def listing : List DiskEntry → Nat → List (Except Int (List UInt8))
  | _, 0 => []
  | [], count + 1 => .error Err.noEnt.ret :: listing [] count
  | entry :: rest, count + 1 => .ok (string entry.name) :: listing rest count

theorem listing_all (entries : List DiskEntry) (more : Nat) : listing entries (entries.length + more) =
    entries.map (fun entry => .ok (string entry.name)) ++ List.replicate more (.error Err.noEnt.ret) := by
  induction entries with
  | nil =>
      rw [List.length_nil, Nat.zero_add]
      induction more with
      | zero => rfl
      | succ more ih => rw [listing, ih, List.replicate_succ, List.map_nil, List.nil_append, List.nil_append]
  | cons entry rest ih =>
      rw [List.length_cons, Nat.add_right_comm, listing, ih]
      rfl

theorem answer_index {vol : Volume} {dir i : Nat} (small : i < 2 ^ 32) :
    answer vol dir (sfsDentrySize * i) (indexOf (sfsDentrySize * i) % 2 ^ 32) =
      match (used vol dir)[i]? with
      | some entry => .ok entry
      | none => .error .noEnt := by
  have index : indexOf (sfsDentrySize * i) = i := by
    rw [indexOf, Int.mul_ediv_cancel_left _ (by decide), Int.toNat_natCast]
  rw [answer, if_neg, index, Nat.mod_eq_of_lt small]
  simp only [Int.mul_emod_right, ne_eq, not_true_eq_false, or_false, not_lt]
  positivity

/-- The entries from the `i`-th on come one by one, and then there are no more; unless an operation fails. -/
theorem readDir_spec {vol : Volume} (serves : Serves b direntp) (inv : Descriptors.Inv s) (opened : OpenDir s fd p)
    (holds : Holds s.below.fs vol) (dir : Dir s.below.fs p) (count : Nat) {i : Nat}
    (within : i ≤ (used vol (s.below.fs.nodes p).ino).length) :
    ∃ names t, readDir b direntp fd count (sfsDentrySize * i) s = .ok (names, t) ∧ Quiet s.below.fs t.below.fs ∧
      (Failing s.below.fs t.below.fs ∨ names = listing ((used vol (s.below.fs.nodes p).ino).drop i) count) := by
  induction count generalizing i s with
  | zero => exact ⟨[], s, rfl, Quiet.refl _, .inr (by rw [listing])⟩
  | succ count ih =>
      have short := holds.short dir.member
      have few : (used vol (s.below.fs.nodes p).ino).length ≤ (s.below.fs.nodes p).din.blocks := by
        rw [← slots_length holds dir.member]
        exact List.length_filter_le ..
      obtain ⟨ret, used', w, call, quiet, outcome⟩ :=
        fileGetdirentry_spec serves inv opened holds dir (sfsDentrySize * i)
      rw [answer_index (by omega)] at outcome
      have onward := fun j => ih (s := { s with below := w }) (i := j) inv opened (quiet.now holds).holds
        (dir.quiet quiet)
      simp only [quiet.nodes] at onward
      have again : ret ≠ 0 → ∃ names t, readDir b direntp fd (count + 1) (sfsDentrySize * i) s =
        .ok (.error ret :: names, t) ∧
          Quiet s.below.fs t.below.fs ∧ (Failing w.fs t.below.fs ∨
            names = listing ((used vol (s.below.fs.nodes p).ino).drop i) count) ∧
              t.below.fs.faults <:+ w.fs.faults := by
        intro code
        obtain ⟨names, t, run, more, rest⟩ := onward i within
        refine ⟨names, t, ?_, quiet.trans more, rest, more.faults⟩
        rw [readDir, call]
        simp only [bind, Except.bind, if_neg code, run]
        rfl
      rcases outcome with ⟨code, failing⟩ | ⟨answers, move⟩
      · obtain ⟨names, t, run, more, -, later⟩ := again code
        exact ⟨_, t, run, more, .inl (failing.before later)⟩
      · by_cases more : i < (used vol (s.below.fs.nodes p).ino).length
        · rw [List.getElem?_eq_getElem more] at answers
          obtain ⟨rfl, name⟩ := answers
          obtain ⟨names, t, run, later, rest⟩ := onward (i + 1) more
          have next : offT (sfsDentrySize * i + used') = sfsDentrySize * (i + 1 : Nat) := by
            rw [move, if_pos rfl, offT, sfsDentrySize, SFS_MAX_FNAME_LEN]
            exact (Int.bmod_eq_of_le_mul_two (by omega) (by omega)).trans (by omega)
          refine ⟨.ok (nameAt w.mem direntp) :: names, t, ?_, quiet.trans later, ?_⟩
          · rw [readDir, call]
            simp only [bind, Except.bind, if_true, next, run]
            rfl
          · rcases rest with failing | rest
            · exact .inl (failing.after quiet.faults)
            · exact .inr (by rw [rest, name, List.drop_eq_getElem_cons more, listing])
        · rw [List.getElem?_eq_none (Nat.not_lt.mp more)] at answers
          have code : ret ≠ 0 := by
            rw [show ret = Err.noEnt.ret from answers]
            decide
          obtain ⟨names, t, run, later, rest, suffix⟩ := again code
          refine ⟨_, t, run, later, ?_⟩
          rcases rest with failing | rest
          · exact .inl (failing.after quiet.faults)
          · rw [List.drop_eq_nil_of_le (Nat.not_lt.mp more)] at rest ⊢
            exact .inr (by rw [rest, listing, show ret = Err.noEnt.ret from answers])

/-- Whatever fails, the call with the offset returns the code of what has failed, or it answers for the
    entry the offset asks for. -/
def Lists (b : Below World) (direntp : Nat) (vol : Volume) (p : Nat) (s : Files World) (fd offset : Int) : Prop :=
  ∀ faults, ∃ ret used' t, fileGetdirentry b (facing s faults) fd offset = .ok ((ret, used'), t) ∧
    (ret ≠ 0 ∧ Failing (facing s faults).below.fs t.below.fs ∨
      Answers (answer vol (s.below.fs.nodes p).ino offset (indexOf offset)) direntp ret t.below)

theorem fileGetdirentry_facing {vol : Volume} (serves : Serves b direntp) (inv : Descriptors.Inv s)
    (opened : OpenDir s fd p) (holds : Holds s.below.fs vol) (dir : Dir s.below.fs p) (offset : Int)
    (faults : List Bool) :
    ∃ ret used' w, fileGetdirentry b (facing s faults) fd offset = .ok ((ret, used'), { s with below := w }) ∧
      (ret ≠ 0 ∧ Failing (facing s faults).below.fs w.fs ∨
        Answers (answer vol (s.below.fs.nodes p).ino offset (indexOf offset % 2 ^ 32)) direntp ret w) := by
  obtain ⟨ret, used', w, call, -, outcome⟩ := fileGetdirentry_spec (s := facing s faults) serves inv opened
    (holds.withFaults faults) ⟨dir.member, dir.type⟩ offset
  exact ⟨ret, used', w, call, outcome.imp_right And.left⟩

/-- The number of the entry is cut down to 32 bits: a call answers for the entry its offset asks for just when
    that number has no more, or does not name an entry without the rest of its bits. The entries can be read
    one by one, each once. -/
theorem fileGetdirentry_lists_iff {vol : Volume} (serves : Serves b direntp) (inv : Descriptors.Inv s)
    (opened : OpenDir s fd p) (holds : Holds s.below.fs vol) (dir : Dir s.below.fs p) :
    (∀ offset, Lists b direntp vol p s fd offset ↔
      offset < 0 ∨ offset % sfsDentrySize ≠ 0 ∨ indexOf offset < 2 ^ 32 ∨
        (used vol (s.below.fs.nodes p).ino).length ≤ indexOf offset % 2 ^ 32) ∧
    ∀ faults more, ∃ names t,
      readDir b direntp fd ((used vol (s.below.fs.nodes p).ino).length + more) 0 (facing s faults) = .ok (names, t) ∧
        (Failing (facing s faults).below.fs t.below.fs ∨
          names = (used vol (s.below.fs.nodes p).ino).map (fun entry => .ok (string entry.name)) ++
            List.replicate more (.error Err.noEnt.ret)) := by
  have short := holds.short dir.member
  have few : (used vol (s.below.fs.nodes p).ino).length ≤ (s.below.fs.nodes p).din.blocks := by
    rw [← slots_length holds dir.member]
    exact List.length_filter_le ..
  refine ⟨fun offset => ⟨fun lists => ?_, fun fits faults => ?_⟩, fun faults more => ?_⟩
  · by_contra wrong
    simp only [not_or, not_not, not_le] at wrong
    obtain ⟨positive, whole, large, names⟩ := wrong
    obtain ⟨ret, used', t, call, claimed⟩ := lists []
    obtain ⟨ret', used'', w, call', answers⟩ := fileGetdirentry_facing serves inv opened holds dir offset []
    obtain ⟨⟨rfl, -⟩, rfl⟩ := Prod.mk.inj (Except.ok.inj (call.symm.trans call')) |>.imp_left Prod.mk.inj
    have good : ¬ (offset < 0 ∨ offset % sfsDentrySize ≠ 0) := by
      rintro (negative | odd)
      · exact positive negative
      · exact odd whole
    rcases answers with ⟨-, failing⟩ | answers
    · exact not_failing rfl failing
    rw [answer, if_neg good, List.getElem?_eq_getElem names] at answers
    rcases claimed with ⟨-, failing⟩ | claimed
    · exact not_failing rfl failing
    rw [answer, if_neg good, List.getElem?_eq_none (by omega)] at claimed
    have refused : ret = Err.noEnt.ret := claimed
    rw [answers.1] at refused
    cases refused
  · obtain ⟨ret, used', w, call, answers⟩ := fileGetdirentry_facing serves inv opened holds dir offset faults
    refine ⟨ret, used', _, call, answers.imp_right fun answers => ?_⟩
    have same : answer vol (s.below.fs.nodes p).ino offset (indexOf offset) =
        answer vol (s.below.fs.nodes p).ino offset (indexOf offset % 2 ^ 32) := by
      rw [answer, answer]
      by_cases bad : offset < 0 ∨ offset % sfsDentrySize ≠ 0
      · rw [if_pos bad, if_pos bad]
      · rw [if_neg bad, if_neg bad]
        by_cases small : indexOf offset < 2 ^ 32
        · rw [Nat.mod_eq_of_lt small]
        · have beyond : (used vol (s.below.fs.nodes p).ino).length ≤ indexOf offset % 2 ^ 32 := by tauto
          rw [List.getElem?_eq_none beyond, List.getElem?_eq_none (beyond.trans (Nat.mod_le ..))]
    rw [same]
    exact answers
  · obtain ⟨names, t, run, -, outcome⟩ :=
      readDir_spec (s := facing s faults) serves inv opened (holds.withFaults faults)
      ⟨dir.member, dir.type⟩ ((used vol (s.below.fs.nodes p).ino).length + more) (i := 0) (Nat.zero_le _)
    refine ⟨names, t, by simpa using run, outcome.imp_right fun listed => ?_⟩
    rw [listed, List.drop_zero]
    exact listing_all _ more

/-! ## The root directory of the small tree -/

def onlyDirs (direntp : Nat) : Below World where
  lookup _ w := some ((0, ⟨.dir, 0⟩), w)
  lookupParent _ w := some ((0, ⟨.dir, 0⟩), w)
  refInc _ w := w
  refDec _ w := some w
  openInc _ w := w
  openDec _ w := some w
  io _ _ _ _ w := some ((0, 0), w)
  tryseek _ _ w := some (0, w)
  truncate _ _ w := some (0, w)
  fsync _ w := some (0, w)
  getdirentry node offset w := vopGetdirentry direntp node.id offset w
  size _ _ := 0

/-- The root directory is open. -/
def rootOpen : Files World where
  fdArray i := if i = 0 then ⟨.opened, true, false, 0, 0, some ⟨.dir, 0⟩, 1⟩ else ⟨.none, false, false, i, 0, none, 0⟩
  below := ⟨treeDisk, zeros⟩

theorem rootOpen_inv : Descriptors.Inv rootOpen := by
  intro i inside
  by_cases first : i = 0
  · subst first
    exact ⟨rfl, .inr ⟨rfl, rfl, _, rfl, fun _ => rfl⟩⟩
  · refine ⟨?_, .inl ⟨?_, ?_⟩⟩ <;> simp [rootOpen, first]

theorem rootOpen_openDir : OpenDir rootOpen 0 0 := ⟨0, by decide, rfl⟩

theorem fileGetdirentry_lists_iff_root :
    (∃ ret used' t, fileGetdirentry (onlyDirs 0) (facing rootOpen []) 0 512 = .ok ((ret, used'), t) ∧
      ret = 0 ∧ nameAt t.below.mem 0 = [0x61]) ∧
    ∃ names t, readDir (onlyDirs 0) 0 0 5 0 (facing rootOpen []) = .ok (names, t) ∧
      names = [.ok [0x2e], .ok [0x2e, 0x2e], .ok [0x61], .ok [0x64], .error (-16)] := by
  have serves : Serves (onlyDirs 0) 0 := fun _ _ _ => rfl
  obtain ⟨each, all⟩ := fileGetdirentry_lists_iff serves rootOpen_inv
    rootOpen_openDir treeDisk_holds treeDisk_root
  constructor
  · obtain ⟨ret, used', t, call, outcome⟩ := (each 512).mpr (.inr (.inr (.inl (by decide)))) []
    refine ⟨ret, used', t, call, ?_⟩
    rcases outcome with ⟨-, failing⟩ | answers
    · exact absurd failing (not_failing rfl)
    · have third : ((used tree 1)[2]?).map (fun entry => string entry.name) = some [0x61] := by decide +kernel
      obtain ⟨entry, here, name⟩ := Option.map_eq_some_iff.mp third
      rw [show (rootOpen.below.fs.nodes 0).ino = 1 from rfl, show indexOf 512 = 2 by decide, answer, if_neg (by decide),
        here] at answers
      exact ⟨answers.1, answers.2.trans name⟩
  · obtain ⟨names, t, run, outcome⟩ := all [] 1
    have four : (used tree 1).length = 4 := by decide +kernel
    rw [show (rootOpen.below.fs.nodes 0).ino = 1 from rfl, four] at run
    refine ⟨names, t, run, ?_⟩
    rcases outcome with failing | listed
    · exact absurd failing (not_failing rfl)
    · have names := congrArg (List.map fun entry => (Except.ok entry.2 : Except Int (List UInt8))) tree_used
      rw [List.map_map] at names
      rw [listed, show (rootOpen.below.fs.nodes 0).ino = 1 from rfl]
      exact congrArg (· ++ [.error (-16)]) names

/-- The entry behind the last one of 2 ^ 32 is the first one again. -/
theorem getdirentry_wraps : ¬ Lists (onlyDirs 0) 0 tree 0 rootOpen 0 (2 ^ 40) := by
  intro lists
  obtain ⟨ret, used', t, call, claimed⟩ := lists []
  have serves : Serves (onlyDirs 0) 0 := fun _ _ _ => rfl
  obtain ⟨ret', used'', w, call', answers⟩ :=
    fileGetdirentry_facing serves rootOpen_inv rootOpen_openDir treeDisk_holds treeDisk_root (2 ^ 40) []
  obtain ⟨⟨rfl, -⟩, rfl⟩ := Prod.mk.inj (Except.ok.inj (call.symm.trans call')) |>.imp_left Prod.mk.inj
  have index : indexOf (2 ^ 40) = 2 ^ 32 := by decide
  have four : (used tree 1).length = 4 := by decide +kernel
  rw [show (rootOpen.below.fs.nodes 0).ino = 1 from rfl, index, answer, if_neg (by decide)] at claimed answers
  rcases answers with ⟨-, failing⟩ | answers
  · exact not_failing rfl failing
  rw [Nat.mod_self, List.getElem?_eq_getElem (by omega)] at answers
  rcases claimed with ⟨-, failing⟩ | claimed
  · exact not_failing rfl failing
  rw [List.getElem?_eq_none (by omega)] at claimed
  have refused : ret = Err.noEnt.ret := claimed
  rw [answers.1] at refused
  cases refused

end Ucore.Fs.Getdirentry
