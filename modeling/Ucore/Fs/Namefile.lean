import Ucore.Fs.Iobuf

/-! # The path of a directory

`sfs_namefile` goes up from a directory to the root, and looks in each directory on the way
for the name of the one it has come from. The path grows from the end of the buffer
towards its front, and is moved there in the end.
-/

namespace Ucore.Fs.Namefile

open Lib.Bytes Lib.Counts Lib.Program Lib.Program.Prog Error Sfs SfsIo SfsInode InodeCalls Ownership BlockSpecs
open Volumes Directory Iobuf

def slash : UInt8 := 0x2f

/-- The name of a directory in itself. -/
def dot : List UInt8 := [0x2e]

/-- The name of its parent. -/
def dotdot : List UInt8 := [0x2e, 0x2e]

/-- A turn of the loop, up to the name: the directory above with its name for this one, unless
    this one is the root. -/
def climb (node : Nat) : Op Transfer (Option (Nat × List UInt8)) := do
  let parent ← onFs (onError (sfsLookupOnce node dotdot) (inodeRefDec node))
  let t ← get
  let ino := (t.fs.nodes node).ino
  onFs (inodeRefDec node)
  if node = parent then
    onFs (inodeRefDec node)
    pure none
  else
    let t ← get
    ensure (ino ≠ (t.fs.nodes parent).ino ∧ (t.fs.nodes parent).din.type = SFS_TYPE_DIR) .assertion
    let entry ← onFs (onError (sfsDirentFindinoNolock parent ino) (inodeRefDec parent))
    pure (some (parent, string entry.name))

/-- The loop. It leaves the room there still is, and the place of the path. -/
def namefileLoop (node resid ptr : Nat) : Op Transfer (Nat × Nat) := do
  match ← climb node with
  | none => pure (resid, ptr)
  | some (parent, name) =>
      let alen := name.length + 1
      if _ : alen ≤ resid then
        modify fun t => { t with mem := patch t.mem (ptr - alen) (name ++ [slash]) }
        namefileLoop parent (resid - alen) (ptr - alen)
      else
        onFs (inodeRefDec parent)
        throw .noMem
  termination_by resid
  decreasing_by omega

def sfsNamefile (node : Nat) : Op Transfer Unit := do
  let t ← get
  if t.iob.ioResid ≤ 2 then throw .noMem
  else
    onFs (attempt .noMem)
    onFs (inodeRefInc node)
    let (resid, ptr) ← namefileLoop node (t.iob.ioResid - 2) (t.iob.ioBase + t.iob.ioResid)
    let alen := t.iob.ioResid - resid - 2
    modify fun t =>
      let moved := patch t.mem (t.iob.ioBase + 1) (slice t.mem ptr alen)
      { t with mem := patch (patch moved t.iob.ioBase [slash]) (t.iob.ioBase + 1 + alen) [0] }
    iobufSkip alen

/-! ## Trees -/

/-- The entries of a directory but those for itself and its parent. -/
def children (vol : Volume) (dir : Nat) : List DiskEntry :=
  (used vol dir).filter fun entry => string entry.name ≠ dot ∧ string entry.name ≠ dotdot

/-- The directories are a tree: names are unique, and every directory but the root has one name,
    in the directory it calls its parent. -/
structure WellFormed (vol : Volume) : Prop extends Tree vol where
  distinct : ∀ dir ∈ vol.files, dir.2.type = SFS_TYPE_DIR → ((used vol dir.1).map fun entry => string entry.name).Nodup
  self : ∀ dir ∈ vol.files, dir.2.type = SFS_TYPE_DIR → ∀ entry ∈ used vol dir.1, string entry.name = dot →
    entry.ino = dir.1
  top : lookup vol SFS_BLKN_ROOT dotdot = some SFS_BLKN_ROOT
  up : ∀ dir ∈ vol.files, dir.2.type = SFS_TYPE_DIR → ∀ entry ∈ children vol dir.1, ∀ din,
    (entry.ino, din) ∈ vol.files → din.type = SFS_TYPE_DIR →
      entry.ino ≠ SFS_BLKN_ROOT ∧ lookup vol entry.ino dotdot = some dir.1
  single : ∀ dir ∈ vol.files, dir.2.type = SFS_TYPE_DIR → ∀ entry ∈ children vol dir.1, ∀ other ∈ children vol dir.1,
    entry.ino = other.ino → ∀ din, (entry.ino, din) ∈ vol.files → din.type = SFS_TYPE_DIR →
      string entry.name = string other.name

/-- A directory, and the names on the way to it from the root. -/
inductive At (vol : Volume) : Nat → List (List UInt8) → Prop where
  | root : At vol SFS_BLKN_ROOT []
  | child {dir ino : Nat} {names : List (List UInt8)} {entry : DiskEntry} {din : DiskInode} :
      At vol dir names → entry ∈ children vol dir → entry.ino = ino → (ino, din) ∈ vol.files →
      din.type = SFS_TYPE_DIR → At vol ino (names ++ [string entry.name])

/-- The names, each with a slash behind it. -/
def joined (names : List (List UInt8)) : List UInt8 := names.flatMap fun name => name ++ [slash]

/-- `/n1/.../nk/` -/
def path (names : List (List UInt8)) : List UInt8 := slash :: joined names

variable {vol : Volume} {d : Nat} {names : List (List UInt8)} {allowed : Panic → Prop}

theorem joined_concat (names : List (List UInt8)) (name : List UInt8) :
    joined (names ++ [name]) = joined names ++ (name ++ [slash]) := by
  simp [joined]

theorem mem_used {dir : Nat} {entry : DiskEntry} : entry ∈ used vol dir ↔ entry ∈ slots vol dir ∧ entry.ino ≠ 0 := by
  simp [used]

theorem mem_children {dir : Nat} {entry : DiskEntry} :
    entry ∈ children vol dir ↔ entry ∈ used vol dir ∧ string entry.name ≠ dot ∧ string entry.name ≠ dotdot := by
  simp [children]

namespace At

/-- There is such a directory. -/
theorem file (tree : WellFormed vol) (here : At vol d names) :
    ∃ din, (d, din) ∈ vol.files ∧ din.type = SFS_TYPE_DIR := by
  cases here with
  | root =>
      obtain ⟨din, inside, type, -⟩ := tree.root
      exact ⟨din, inside, type⟩
  | child _ _ _ inside type => exact ⟨_, inside, type⟩

/-- The root is above itself, and every other directory has a name in the one above. -/
theorem root_or_child (tree : WellFormed vol) (here : At vol d names) :
    d = SFS_BLKN_ROOT ∧ names = [] ∧ lookup vol d dotdot = some d ∨
      d ≠ SFS_BLKN_ROOT ∧ ∃ dir before, ∃ entry ∈ children vol dir, names = before ++ [string entry.name] ∧
        At vol dir before ∧ entry.ino = d ∧ lookup vol d dotdot = some dir := by
  cases here with
  | root => exact .inl ⟨rfl, rfl, tree.top⟩
  | child before inside same file type =>
      obtain ⟨din, parent, kind⟩ := before.file tree
      rw [← same] at file ⊢
      obtain ⟨low, above⟩ := tree.up _ parent kind _ inside _ file type
      exact .inr ⟨low, _, _, _, inside, rfl, before, rfl, above⟩

/-- A directory has one path. -/
theorem unique (tree : WellFormed vol) {names' : List (List UInt8)} (here : At vol d names) (there : At vol d names') :
    names = names' := by
  induction here generalizing names' with
  | root =>
      rcases there.root_or_child tree with ⟨-, empty, -⟩ | ⟨other, -⟩
      · exact empty.symm
      · exact absurd rfl other
  | child before inside same file type ih =>
      obtain ⟨din, parent, kind⟩ := before.file tree
      rw [← same] at file
      obtain ⟨low, above⟩ := tree.up _ parent kind _ inside _ file type
      rcases there.root_or_child tree with ⟨top, -⟩ | ⟨-, dir', before', entry', inside', rfl, above', same', up⟩
      · exact absurd (same.trans top) low
      · rw [← same, above] at up
        obtain rfl := Option.some_inj.mp up
        rw [ih above', tree.single _ parent kind _ inside _ inside' (same.trans same'.symm) _ file type]

/-- The directory above. -/
theorem above (tree : WellFormed vol) (here : At vol d names) :
    ∃ up names', lookup vol d dotdot = some up ∧ At vol up names' := by
  rcases here.root_or_child tree with ⟨-, -, up⟩ | ⟨-, dir, before, -, -, -, at', -, up⟩
  · exact ⟨d, names, up, here⟩
  · exact ⟨dir, before, up, at'⟩

end At

theorem lookup_of_mem {dir : Nat} {entry : DiskEntry}
    (distinct : ((used vol dir).map fun entry => string entry.name).Nodup) (inside : entry ∈ used vol dir) :
    lookup vol dir (string entry.name) = some entry.ino := by
  refine Option.map_eq_some_iff.mpr ?_
  have found : ((used vol dir).find? fun other => string entry.name = string other.name).isSome :=
    List.find?_isSome.mpr ⟨entry, inside, by simp⟩
  obtain ⟨other, search⟩ := Option.isSome_iff_exists.mp found
  have same : string entry.name = string other.name := by simpa using List.find?_some search
  have equal := List.inj_on_of_nodup_map distinct inside (List.mem_of_find?_eq_some search) same
  exact ⟨other, search, by rw [equal]⟩

/-- The search for a directory in the one above ends at its name. -/
theorem find_child (tree : WellFormed vol) {dir : Nat} {before : List (List UInt8)} {entry : DiskEntry}
    (above : At vol dir before) (inside : entry ∈ children vol dir)
    (here : At vol entry.ino (before ++ [string entry.name])) :
    ∃ e, (slots vol dir).find? (fun e => e.ino = entry.ino) = some e ∧ string e.name = string entry.name := by
  obtain ⟨din, parent, kind⟩ := above.file tree
  obtain ⟨din', file, type⟩ := here.file tree
  have known := mem_used.mp (mem_children.mp inside).1
  have found : ((slots vol dir).find? fun e => e.ino = entry.ino).isSome :=
    List.find?_isSome.mpr ⟨entry, known.1, by simp⟩
  obtain ⟨e, search⟩ := Option.isSome_iff_exists.mp found
  have same : e.ino = entry.ino := by simpa using List.find?_some search
  have taken : e ∈ used vol dir := mem_used.mpr ⟨List.mem_of_find?_eq_some search, same ▸ known.2⟩
  refine ⟨e, search, ?_⟩
  -- an entry for the directory itself or the one above would give this one a second path
  have child : e ∈ children vol dir := by
    refine mem_children.mpr ⟨taken, fun self => ?_, fun up => ?_⟩
    · have again : dir = entry.ino := (tree.self _ parent kind e taken self).symm.trans same
      have paths := (again ▸ above).unique tree here
      simp at paths
    · have upper := lookup_of_mem (tree.distinct _ parent kind) taken
      rw [up, same] at upper
      rcases above.root_or_child tree with ⟨rfl, rfl, top⟩ | ⟨-, dir', before', entry', -, rfl, above', -, up'⟩
      · rw [top] at upper
        have paths := (Option.some_inj.mp upper ▸ above).unique tree here
        simp at paths
      · rw [up'] at upper
        have paths := (Option.some_inj.mp upper ▸ above').unique tree here
        simp at paths
  exact tree.single _ parent kind e child entry inside same din' (same ▸ file) type

/-! ## Going up -/

variable {t : Transfer} {p : Nat} {E : Err → Transfer → Prop}

/-- What the tree says about a directory in memory. -/
theorem inMemory {s : SfsFs} (holds : Holds s vol) (tree : WellFormed vol) (member : p ∈ s.inodeList)
    (here : At vol (s.nodes p).ino names) : Dir s p ∧ (s.nodes p).din.nlinks ≠ 0 := by
  have mine := holds.mem_files member
  obtain ⟨din, file, type⟩ := here.file tree
  have same := congrArg Prod.snd (holds.unique mine file rfl)
  refine ⟨⟨member, by rw [show (s.nodes p).din = din from same, type]⟩, ?_⟩
  have linked : ∃ din, ((s.nodes p).ino, din) ∈ vol.files ∧ din.nlinks ≠ 0 := by
    rcases here.root_or_child tree with ⟨top, -⟩ | ⟨-, dir, before, entry, inside, -, above, same, -⟩
    · obtain ⟨din, file, -, linked⟩ := tree.root
      exact ⟨din, top ▸ file, linked⟩
    · obtain ⟨din, parent, kind⟩ := above.file tree
      rw [← same]
      exact tree.named _ parent kind entry (mem_children.mp inside).1
  obtain ⟨din', file', linked⟩ := linked
  rwa [show (s.nodes p).din = din' from congrArg Prod.snd (holds.unique mine file' rfl)]

/-- Directories of the tree have names, so giving up the last reference removes none. -/
theorem drop_spec {s : SfsFs} {Q : Unit → SfsFs → Prop} {E : Err → SfsFs → Prop} (holds : Holds s vol)
    (tree : WellFormed vol) (held : 0 < refs s p) (here : At vol (s.nodes p).ino names)
    (post : ∀ t, Now vol s (lose (refs s) p) t → Q () t) : Spec allowed (inodeRefDec p) s Q E :=
  inodeRefDec_spec holds held (inMemory holds tree (mem_of_refs held) here).2 post

/-- A number in memory stays the number of the same file. -/
theorem ino_kept {s t : SfsFs} {counts : Nat → Nat} (now : Now vol s counts t) (holds : Holds s vol)
    (member : p ∈ s.inodeList) : (t.nodes p).ino = (s.nodes p).ino :=
  now.onward.inos p (holds.fresh p member)

/-- A turn of the loop gives the reference to a directory up, for one to the directory above. -/
theorem climb_spec {Q : Option (Nat × List UInt8) → Transfer → Prop} (holds : Holds t.fs vol) (tree : WellFormed vol)
    (held : 0 < refs t.fs p) (here : At vol (t.fs.nodes p).ino names)
    (failed : ∀ e fs, Now vol t.fs (lose (refs t.fs) p) fs → Failing t.fs fs → E e { t with fs := fs })
    (top : names = [] → ∀ fs, Now vol t.fs (lose (refs t.fs) p) fs → Q none { t with fs := fs })
    (post : ∀ before name q fs, names = before ++ [name] → Now vol t.fs (gain (lose (refs t.fs) p) q) fs →
      At vol (fs.nodes q).ino before → Q (some (q, name)) { t with fs := fs }) :
    Spec allowed (climb p) t Q E := by
  have member := mem_of_refs held
  obtain ⟨up, names', upper, above⟩ := here.above tree
  simp only [climb, spec_bind, spec_onFs, spec_onError]
  refine sfsLookupOnce_spec holds tree.toTree (inMemory holds tree member here).1 (fun long => absurd (by decide) long)
    ?_ ?_ ?_ ?_
  · intro file inside found odd
    obtain ⟨din, known, type⟩ := above.file tree
    rw [upper] at found
    have same := congrArg Prod.snd (holds.unique inside known (Option.some_inj.mp found).symm)
    exact absurd (.inl (by rw [show file.2 = din from same, type])) odd
  · intro e fs _ now failing
    refine drop_spec now.holds tree (by rwa [now.counted]) (by rwa [ino_kept now holds member]) fun fs' dropped => ?_
    rw [now.counted] at dropped
    exact failed e fs' (Now.trans now.onward dropped) (failing.before dropped.onward.faults)
  · intro absent
    rw [upper] at absent
    cases absent
  · intro file _ _ found _ q fs₁ now memberq same
    rw [upper] at found
    obtain rfl := Option.some_inj.mp found
    have number : (fs₁.nodes p).ino = (t.fs.nodes p).ino := ino_kept now holds member
    have parent : (fs₁.nodes q).ino = file.1 := congrArg Prod.fst same
    have here₁ : At vol (fs₁.nodes p).ino names := by rwa [number]
    have held₁ : 0 < refs fs₁ p := by
      rw [now.counted]
      exact Nat.lt_of_lt_of_le held (le_gain ..)
    simp only [spec_get, number]
    refine drop_spec now.holds tree held₁ here₁ fun fs₂ now₂ => ?_
    rw [now.counted] at now₂
    have number₂ : (fs₂.nodes p).ino = (t.fs.nodes p).ino := (ino_kept now₂ now.holds (mem_of_refs held₁)).trans number
    simp only [spec_ite]
    refine ⟨fun root => ?_, fun other => ?_⟩
    · subst root
      have empty : names = [] := by
        rcases here.root_or_child tree with ⟨-, empty, -⟩ | ⟨-, dir, before, entry, -, rfl, at', -, above'⟩
        · exact empty
        · rw [upper, ← parent, number] at above'
          have paths := (Option.some_inj.mp above' ▸ at').unique tree here
          simp at paths
      simp only [spec_bind, spec_onFs, spec_pure]
      refine drop_spec now₂.holds tree ?_ (by rwa [number₂]) fun fs₃ now₃ => ?_
      · rw [now₂.counted, lose_gain]
        exact held
      · rw [now₂.counted, lose_gain] at now₃
        exact top empty fs₃ (Now.trans (now.onward.trans now₂.onward) now₃)
    · have apart : (fs₁.nodes p).ino ≠ file.1 := by
        rw [← parent]
        exact fun equal => other (now.holds.once (mem_of_refs held₁) memberq equal)
      have parent₂ : (fs₂.nodes q).ino = file.1 := (ino_kept now₂ now.holds memberq).trans parent
      have now₂ := Now.trans now.onward now₂
      rw [lose_gain_of_ne _ other] at now₂
      have held₂ : 0 < refs fs₂ q := by
        rw [now₂.counted, gain_self]
        exact Nat.succ_pos _
      rcases here.root_or_child tree with ⟨-, -, self⟩ | ⟨-, dir, before, entry, inside, rfl, at', child, above'⟩
      · rw [upper] at self
        exact absurd (number.trans (Option.some_inj.mp self).symm) apart
      · rw [upper] at above'
        obtain rfl := Option.some_inj.mp above'
        have here₂ : At vol (fs₂.nodes q).ino before := by rwa [parent₂]
        have dir₂ := (inMemory now₂.holds tree (mem_of_refs held₂) here₂).1
        obtain ⟨e, search, same⟩ := find_child tree at' inside (child ▸ here)
        rw [child, ← parent₂] at search
        simp only [spec_bind, spec_get, spec_onFs, spec_onError, spec_pure]
        rw [← parent₂] at apart
        rw [spec_ensure_of (And.intro apart dir₂.type)]
        refine sfsDirentFindinoNolock_spec now₂.holds dir₂ (fun code fs₃ _ quiet failing => ?_) (fun absent => ?_)
          fun found found' fs₃ quiet => ?_
        · have now₃ := quiet.now now₂.holds
          refine drop_spec now₃.holds tree (by rwa [now₃.counted]) (by rwa [quiet.nodes]) fun fs₄ now₄ => ?_
          rw [now₃.counted, now₂.counted, lose_gain] at now₄
          refine failed code fs₄ (Now.trans (now₂.onward.trans now₃.onward) now₄) ?_
          exact (failing.after now₂.onward.faults).before now₄.onward.faults
        · rw [search] at absent
          cases absent
        · rw [search] at found'
          obtain rfl := Option.some_inj.mp found'
          have now₃ := quiet.now now₂.holds
          rw [now₂.counted] at now₃
          rw [same]
          exact post before _ q fs₃ rfl (Now.trans now₂.onward now₃) (by rwa [quiet.nodes])

/-- Bytes outside of a part of memory are as before. -/
def Outside (low high : Nat) (mem mem' : Block) : Prop := ∀ a, a < low ∨ high ≤ a → mem' a = mem a

theorem Outside.patch {low high offset : Nat} {mem mem' : Block} {bytes : List UInt8}
    (outside : Outside low high (patch mem offset bytes) mem') {low' high' : Nat} (down : low' ≤ low)
    (up : high ≤ high') (from' : low' ≤ offset) (to' : offset + bytes.length ≤ high') :
    Outside low' high' mem mem' := fun a away =>
  (outside a (by omega)).trans (patch_outside (by omega))

/-- The loop gives the reference up that it was handed, and leaves the names in the room there was. -/
theorem namefileLoop_spec {Q : Nat × Nat → Transfer → Prop} {resid ptr : Nat} (holds : Holds t.fs vol)
    (tree : WellFormed vol) (held : 0 < refs t.fs p) (here : At vol (t.fs.nodes p).ino names) (room : resid ≤ ptr)
    (failed : ∀ e fs mem, Now vol t.fs (lose (refs t.fs) p) fs → Outside (ptr - resid) ptr t.mem mem →
      Failing t.fs fs ∨ e = .noMem ∧ resid < (joined names).length → E e ⟨fs, mem, t.iob⟩)
    (post : ∀ fs mem, Now vol t.fs (lose (refs t.fs) p) fs → Outside (ptr - resid) ptr t.mem mem →
      (joined names).length ≤ resid → slice mem (ptr - (joined names).length) (joined names).length = joined names →
        Q (resid - (joined names).length, ptr - (joined names).length) ⟨fs, mem, t.iob⟩) :
    Spec allowed (namefileLoop p resid ptr) t Q E := by
  induction names using List.reverseRecOn generalizing t p resid ptr with
  | nil =>
      rw [namefileLoop, spec_bind]
      refine climb_spec holds tree held here (fun e fs now failing => ?_) (fun _ fs now => ?_) ?_
      · exact failed e fs t.mem now (fun _ _ => rfl) (.inl failing)
      · exact post fs t.mem now (fun _ _ => rfl) (Nat.zero_le _) rfl
      · intro before name q fs split
        simp at split
  | append_singleton names name ih =>
      have length : (joined (names ++ [name])).length = (joined names).length + (name.length + 1) := by
        simp [joined_concat]
      rw [namefileLoop, spec_bind]
      refine climb_spec holds tree held here (fun e fs now failing => ?_) (fun empty => ?_) ?_
      · exact failed e fs t.mem now (fun _ _ => rfl) (.inl failing)
      · simp at empty
      · intro before name' q fs split now here'
        obtain ⟨rfl, last⟩ := List.append_inj' split rfl
        obtain rfl : name = name' := by simpa using last
        have held' : 0 < refs fs q := by
          rw [now.counted, gain_self]
          exact Nat.succ_pos _
        dsimp only
        by_cases fits : name.length + 1 ≤ resid
        · rw [dif_pos fits]
          simp only [spec_bind, spec_modify]
          have counts : lose (refs fs) q = lose (refs t.fs) p := by rw [now.counted, lose_gain]
          have written : (name ++ [slash]).length = name.length + 1 := List.length_append ..
          refine ih (t := ⟨fs, _, t.iob⟩) now.holds held' here' (by omega) (fun e fs' mem now' outside why => ?_)
            fun fs' mem now' outside enough got => ?_
          · rw [counts] at now'
            refine failed e fs' mem (Now.trans now.onward now') (outside.patch (by omega) (by omega) (by omega)
              (by omega)) ?_
            rcases why with failing | ⟨rfl, short⟩
            · exact .inl (failing.after now.onward.faults)
            · exact .inr ⟨rfl, by omega⟩
          · rw [counts] at now'
            have done := post fs' mem (Now.trans now.onward now') (outside.patch (by omega) (by omega) (by omega)
              (by omega)) (by omega) ?_
            · rw [length] at done
              rwa [Nat.sub_sub, Nat.sub_sub, Nat.add_comm (name.length + 1)]
            · have tail : slice mem (ptr - (name.length + 1)) (name.length + 1) = name ++ [slash] := by
                rw [slice_congr fun a low _ => outside a (.inr low), ← written]
                exact slice_patch ..
              rw [length, joined_concat, slice_append]
              have front : ptr - ((joined names).length + (name.length + 1)) + (joined names).length =
                  ptr - (name.length + 1) := by omega
              rw [Nat.sub_sub, Nat.add_comm (name.length + 1)] at got
              rw [front, tail, got]
        · rw [dif_neg fits]
          simp only [spec_bind, spec_onFs, spec_throw]
          refine drop_spec now.holds tree held' here' fun fs' now' => ?_
          rw [now.counted, lose_gain] at now'
          exact failed .noMem fs' t.mem (Now.trans now.onward now') (fun _ _ => rfl) (.inr ⟨rfl, by omega⟩)

/-! ## The whole path -/

/-- The references are as before, and so is the memory but for the buffer. -/
structure Kept (vol : Volume) (t u : Transfer) : Prop where
  now : Now vol t.fs (refs t.fs) u.fs
  outside : Outside t.iob.ioBase (t.iob.ioBase + t.iob.ioResid) t.mem u.mem

/-- The path is in the buffer, with a zero behind it, if there is room for it; else the call has no memory.
    An operation that fails may end it as well. -/
def Named (vol : Volume) (names : List (List UInt8)) (t : Transfer) (p : Nat) : Prop :=
  Spec (fun _ => False) (sfsNamefile p) t
    (fun _ u => Kept vol t u ∧ (path names).length + 1 ≤ t.iob.ioResid ∧
      slice u.mem t.iob.ioBase ((path names).length + 1) = path names ++ [0])
    fun e u => Kept vol t u ∧ (Failing t.fs u.fs ∨ e = .noMem ∧ t.iob.ioResid < (path names).length + 1)

theorem length_path (names : List (List UInt8)) : (path names).length = (joined names).length + 1 := rfl

theorem joined_pos (names : List (List UInt8)) (name : List UInt8) : 0 < (joined (names ++ [name])).length := by
  simp [joined_concat]

/-- The path is moved to the front, between a slash and a zero. -/
theorem slice_moved (mem : Block) (base : Nat) (names : List (List UInt8)) :
    slice (patch (patch (patch mem (base + 1) (joined names)) base [slash]) (base + 1 + (joined names).length) [0])
      base ((path names).length + 1) = path names ++ [0] := by
  have front : slice (patch (patch (patch mem (base + 1) (joined names)) base [slash])
      (base + 1 + (joined names).length) [0]) base 1 = [slash] := by
    rw [slice_patch_frame (.inl (by omega))]
    exact slice_patch ..
  have middle : slice (patch (patch (patch mem (base + 1) (joined names)) base [slash])
      (base + 1 + (joined names).length) [0]) (base + 1) (joined names).length = joined names := by
    rw [slice_patch_frame (.inl le_rfl), slice_patch_frame (.inr (by simp))]
    exact slice_patch ..
  have back : slice (patch (patch (patch mem (base + 1) (joined names)) base [slash])
      (base + 1 + (joined names).length) [0]) (base + 1 + (joined names).length) 1 = [0] := slice_patch ..
  have split : (path names).length + 1 = 1 + (joined names).length + 1 := by
    rw [length_path]
    omega
  rw [split, slice_append, slice_append, front, middle, ← Nat.add_assoc, back]
  rfl

theorem sfsNamefile_spec (holds : Holds t.fs vol) (tree : WellFormed vol) (held : 0 < refs t.fs p)
    (here : At vol (t.fs.nodes p).ino names) (large : ¬ t.iob.ioResid ≤ 2) : Named vol names t p := by
  have first := Now.tick holds
  simp only [Named, sfsNamefile, spec_bind, spec_get, if_neg large, spec_onFs]
  refine attempt_due (fun fault => ?_) ?_
  · exact ⟨⟨first, fun _ _ => rfl⟩, .inl (failing_tick fault)⟩
  refine inodeRefInc_spec first.holds (by rwa [first.counted]) fun fs now => ?_
  rw [first.counted] at now
  have taken : 0 < refs fs p := by
    rw [now.counted, gain_self]
    exact Nat.succ_pos _
  have back : lose (refs fs) p = refs t.fs := by rw [now.counted, lose_gain]
  have number : (fs.nodes p).ino = (t.fs.nodes p).ino :=
    ino_kept (s := t.fs.tick) now first.holds (mem_of_refs (s := t.fs) held)
  have onward : ∀ {fs'}, Now vol fs (lose (refs fs) p) fs' → Now vol t.fs (refs t.fs) fs' := fun now' =>
    Now.trans (first.onward.trans now.onward) (back ▸ now')
  refine namefileLoop_spec (t := ⟨fs, t.mem, t.iob⟩) now.holds tree taken (by rwa [number]) (by omega) ?_ ?_
  · intro e fs' mem now' outside why
    refine ⟨⟨onward now', fun a away => outside a (by omega)⟩, ?_⟩
    rcases why with failing | ⟨rfl, short⟩
    · exact .inl (failing.after (first.onward.trans now.onward).faults)
    · rw [length_path]
      exact .inr ⟨rfl, by omega⟩
  · intro fs' mem now' outside enough got
    have all : t.iob.ioResid - (t.iob.ioResid - 2 - (joined names).length) - 2 = (joined names).length := by omega
    simp only [spec_modify, iobufSkip, spec_bind, spec_get, all, got]
    rw [spec_ensure_of (by omega)]
    refine ⟨⟨onward now', fun a away => ?_⟩, by rw [length_path]; omega, slice_moved ..⟩
    refine (patch_outside ?_).trans ((patch_outside ?_).trans ((patch_outside ?_).trans (outside a ?_)))
    · rw [List.length_singleton]
      omega
    · rw [List.length_singleton]
      omega
    · omega
    · omega

/-- At the root a buffer of two bytes has room for the path, and is refused. -/
theorem sfsNamefile_named_iff (holds : Holds t.fs vol) (tree : WellFormed vol) (held : 0 < refs t.fs p)
    (here : At vol (t.fs.nodes p).ino names) :
    Named vol names t p ↔ ¬ ((t.fs.nodes p).ino = SFS_BLKN_ROOT ∧ t.iob.ioResid = 2) := by
  by_cases large : t.iob.ioResid ≤ 2
  · simp only [Named, sfsNamefile, spec_bind, spec_get, if_pos large]
    change Kept vol t t ∧ _ ↔ _
    have kept : Kept vol t t := ⟨Now.refl holds, fun _ _ => rfl⟩
    have idle : ¬ Failing t.fs t.fs := by
      rintro ⟨used, split, failed⟩
      rw [List.append_left_eq_self.mp split] at failed
      cases failed
    rw [length_path]
    rcases here.root_or_child tree with ⟨top, rfl, -⟩ | ⟨low, dir, before, entry, -, rfl, -⟩
    · constructor
      · rintro ⟨-, failing | ⟨-, short⟩⟩
        · exact absurd failing idle
        · exact fun exact' => by simp [joined, exact'.2] at short
      · intro other
        refine ⟨kept, .inr ⟨rfl, ?_⟩⟩
        have : t.iob.ioResid ≠ 2 := fun two => other ⟨top, two⟩
        simp only [joined, List.flatMap_nil, List.length_nil]
        omega
    · have some := joined_pos before (string entry.name)
      exact iff_of_true ⟨kept, .inr ⟨rfl, by omega⟩⟩ fun root => low root.1
  · have other : ¬ ((t.fs.nodes p).ino = SFS_BLKN_ROOT ∧ t.iob.ioResid = 2) := by omega
    exact iff_of_true (sfsNamefile_spec holds tree held here large) other

/-! ## The small tree -/

theorem tree_kinds {dir : Nat × DiskInode} (inside : dir ∈ tree.files) (type : dir.2.type = SFS_TYPE_DIR) :
    dir = (1, rootInode) ∨ dir = (8, dirInode) := by
  have known : dir = (1, rootInode) ∨ dir = (6, fileInode) ∨ dir = (8, dirInode) := by
    simpa [tree, treeFiles] using inside
  rcases known with rfl | rfl | rfl
  · exact .inl rfl
  · exact absurd type (by decide)
  · exact .inr rfl

theorem tree_dir : (used tree 8).map (fun entry => (entry.ino, string entry.name)) =
    [(8, [0x2e]), (1, [0x2e, 0x2e])] := by
  decide +kernel

theorem mem_pairs {dir : Nat} {entry : DiskEntry} {pairs : List (Nat × List UInt8)}
    (same : (used vol dir).map (fun entry => (entry.ino, string entry.name)) = pairs) (inside : entry ∈ used vol dir) :
    (entry.ino, string entry.name) ∈ pairs :=
  same ▸ List.mem_map_of_mem inside

theorem tree_children {dir : Nat × DiskInode} (inside : dir ∈ tree.files) (type : dir.2.type = SFS_TYPE_DIR)
    {entry : DiskEntry} (child : entry ∈ children tree dir.1) :
    dir.1 = 1 ∧ (entry.ino = 6 ∨ entry.ino = 8 ∧ string entry.name = [0x64]) := by
  obtain ⟨used, self, up⟩ := mem_children.mp child
  rcases tree_kinds inside type with rfl | rfl
  · have known := mem_pairs tree_used used
    simp only [List.mem_cons, List.not_mem_nil, Prod.mk.injEq, or_false] at known
    rcases known with ⟨-, name⟩ | ⟨-, name⟩ | ⟨ino, -⟩ | ⟨ino, name⟩
    · exact absurd name self
    · exact absurd name up
    · exact ⟨rfl, .inl ino⟩
    · exact ⟨rfl, .inr ⟨ino, name⟩⟩
  · have known := mem_pairs tree_dir used
    simp only [List.mem_cons, List.not_mem_nil, Prod.mk.injEq, or_false] at known
    rcases known with ⟨-, name⟩ | ⟨-, name⟩
    · exact absurd name self
    · exact absurd name up

theorem tree_wellFormed : WellFormed tree where
  root := ⟨rootInode, by decide, rfl, by decide⟩
  named dir inside type entry used := by
    have known : entry.ino = 1 ∨ entry.ino = 6 ∨ entry.ino = 8 := by
      rcases tree_kinds inside type with rfl | rfl
      · have known := mem_pairs tree_used used
        simp only [List.mem_cons, List.not_mem_nil, Prod.mk.injEq, or_false] at known
        tauto
      · have known := mem_pairs tree_dir used
        simp only [List.mem_cons, List.not_mem_nil, Prod.mk.injEq, or_false] at known
        tauto
    rcases known with one | six | eight
    · exact ⟨rootInode, one ▸ by decide, by decide⟩
    · exact ⟨fileInode, six ▸ by decide, by decide⟩
    · exact ⟨dirInode, eight ▸ by decide, by decide⟩
  distinct dir inside type := by
    rcases tree_kinds inside type with rfl | rfl
    · have names : (used tree 1).map (fun entry => string entry.name) = _ :=
        List.map_map.symm.trans (congrArg (List.map Prod.snd) tree_used)
      rw [names]
      decide
    · have names : (used tree 8).map (fun entry => string entry.name) = _ :=
        List.map_map.symm.trans (congrArg (List.map Prod.snd) tree_dir)
      rw [names]
      decide
  self dir inside type entry used name := by
    rcases tree_kinds inside type with rfl | rfl
    · have known := mem_pairs tree_used used
      simpa [name, dot] using known
    · have known := mem_pairs tree_dir used
      simpa [name, dot] using known
  top := by decide +kernel
  up dir inside type entry child din file kind := by
    obtain ⟨top, six | ⟨eight, -⟩⟩ := tree_children inside type child
    · rw [six] at file
      rcases tree_kinds file kind with same | same <;> cases same
    · rw [top, eight]
      exact ⟨by decide, by decide +kernel⟩
  single dir inside type entry child other child' same din file kind := by
    obtain ⟨-, six | ⟨eight, name⟩⟩ := tree_children inside type child
    · rw [six] at file
      rcases tree_kinds file kind with same | same <;> cases same
    · obtain ⟨-, six | ⟨-, name'⟩⟩ := tree_children inside type child'
      · rw [eight, six] at same
        cases same
      · rw [name, name']

/-- The directory `d` has come into memory. -/
def inside (resid : Nat) : Transfer :=
  ⟨loaded treeDisk (8, dirInode), zeros, iobufInit 100 resid 0⟩

theorem inside_holds (resid : Nat) : Holds (inside resid).fs tree :=
  (now_loaded treeDisk_holds (by decide) (by decide) (.inl rfl)).holds

theorem inside_at : At tree 8 [[0x64]] := by
  have entry : ∃ entry ∈ children tree 1, entry.ino = 8 ∧ string entry.name = [0x64] := by
    have some : (children tree 1).any fun entry => entry.ino = 8 ∧ string entry.name = [0x64] := by decide +kernel
    simpa using some
  obtain ⟨entry, child, ino, name⟩ := entry
  have here := At.child .root child ino (show (8, dirInode) ∈ tree.files by decide) rfl
  rwa [name] at here

/-- `/d/` and a zero. -/
theorem sfsNamefile_named_iff_inside : ∃ u, sfsNamefile 1 (inside 4) = .ok (.ok (), u) ∧
    slice u.mem 100 4 = [0x2f, 0x64, 0x2f, 0] ∧ refs u.fs = refs (inside 4).fs := by
  have held : 0 < refs (inside 4).fs 1 := by decide
  have named := (sfsNamefile_named_iff (inside_holds 4) tree_wellFormed held inside_at).mpr (by decide)
  have spec : Spec (fun _ => False) (sfsNamefile 1) (inside 4) (fun _ u => slice u.mem 100 4 = [0x2f, 0x64, 0x2f, 0] ∧
      refs u.fs = refs (inside 4).fs) fun _ _ => False := by
    refine named.mono (fun _ u done => ⟨done.2.2, done.1.now.counted⟩) fun e u wrong => ?_
    rcases wrong.2 with failing | short
    · exact not_failing rfl failing
    · exact absurd short.2 (by decide)
  obtain ⟨_, u, run, done⟩ := spec.returns
  exact ⟨u, run, done⟩

/-- `/` and a zero would fit. -/
theorem namefile_root_refused : ¬ Named tree [] ⟨treeDisk, zeros, iobufInit 100 2 0⟩ 0 := by
  intro named
  have refused : sfsNamefile 0 ⟨treeDisk, zeros, iobufInit 100 2 0⟩ =
      .ok (.error .noMem, ⟨treeDisk, zeros, iobufInit 100 2 0⟩) := rfl
  obtain ⟨-, failing | ⟨-, short⟩⟩ := named.error refused
  · exact not_failing rfl failing
  · exact absurd short (by decide)

end Ucore.Fs.Namefile
