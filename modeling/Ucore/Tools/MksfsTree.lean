import Ucore.Tools.MksfsNodes

/-! # The tree in an image

What the host lists is what a directory of the image shows: an entry for everything that is
not hidden, in the order of the listing, that leads to a file with the same bytes, a link with
the same target, or a directory that shows what the host lists there.

A directory is open while the loop is in it. Files and directories that are not open any more
stay as they are.
-/

namespace Ucore.Tools.MksfsTree

open Lib.Bytes Lib.HashChain Lib.Outcome Mksfs MksfsImage MksfsBlocks MksfsNodes

/-- What the reads of a file gave is in its blocks. -/
structure IsFile (node : Node) (reads : List (List UInt8)) : Prop where
  type : node.type = SFS_TYPE_FILE
  size : node.size = fileSize reads
  contents : node.contents = reads.map (patch zeros 0)
  full : Full SFS_BLKSIZE reads

structure IsLink (node : Node) (target : List UInt8) : Prop where
  type : node.type = SFS_TYPE_LINK
  size : node.size = UInt32.ofNat target.length
  contents : node.contents = [patch zeros 0 target]
  fits : target.length ≤ SFS_BLKSIZE

/-- A directory with its own number and the one above it. -/
structure IsDir (node : Node) (ino parent : UInt32) (shows : List Block → Prop) : Prop where
  type : node.type = SFS_TYPE_DIR
  size : node.size = UInt32.ofNat (SIZEOF_NAME * node.contents.length)
  contents : ∃ self above entries, node.contents = self :: above :: entries ∧ Entry ino dot self ∧
    Entry parent dotdot above ∧ shows entries

/-- If the name is not hidden, the first entry and where it leads; the others come behind it. -/
def Leads (see : Nat → Node → Prop) (name : List UInt8) (kind : UInt32 → Node → Prop) (shows : List Block → Prop)
    (blocks : List Block) : Prop :=
  if skipped name then shows blocks
  else ∃ b others ino node, blocks = b :: others ∧ Entry ino name b ∧ see ino.toNat node ∧ kind ino node ∧ shows others

/-- The blocks of the directory `dir` show the listing, with the files that can be seen under
    their numbers. -/
def Shows (see : Nat → Node → Prop) : Listing → UInt32 → List Block → Prop
  | .done, _, blocks => blocks = []
  | .file name _ reads rest, dir, blocks => Leads see name (fun _ node => IsFile node reads) (Shows see rest dir) blocks
  | .link name _ target rest, dir, blocks =>
      Leads see name (fun _ node => IsLink node target) (Shows see rest dir) blocks
  | .dir name _ entries rest, dir, blocks =>
      Leads see name (fun ino node => IsDir node ino dir (Shows see entries ino)) (Shows see rest dir) blocks
  | .other _ rest, dir, blocks => Shows see rest dir blocks

variable {see see' : Nat → Node → Prop}

theorem Leads.mono {name : List UInt8} {kind kind' : UInt32 → Node → Prop} {shows shows' : List Block → Prop}
    {blocks : List Block} (leads : Leads see name kind shows blocks) (more : ∀ n node, see n node → see' n node)
    (kinds : ∀ ino node, kind ino node → kind' ino node) (rest : ∀ others, shows others → shows' others) :
    Leads see' name kind' shows' blocks := by
  rw [Leads] at leads ⊢
  split at leads
  · rename_i hidden
    rw [if_pos hidden]
    exact rest _ leads
  · rename_i shown
    rw [if_neg shown]
    obtain ⟨b, others, ino, node, same, entry, seen, is, behind⟩ := leads
    exact ⟨b, others, ino, node, same, entry, more _ _ seen, kinds _ _ is, rest _ behind⟩

theorem IsDir.mono {node : Node} {ino parent : UInt32} {shows shows' : List Block → Prop}
    (dir : IsDir node ino parent shows) (more : ∀ entries, shows entries → shows' entries) :
    IsDir node ino parent shows' := by
  obtain ⟨self, above, entries, same, first, second, rest⟩ := dir.contents
  exact ⟨dir.type, dir.size, self, above, entries, same, first, second, more _ rest⟩

/-- The more can be seen, the more is shown. -/
theorem Shows.mono {listing : Listing} {dir : UInt32} {blocks : List Block} (shows : Shows see listing dir blocks)
    (more : ∀ n node, see n node → see' n node) : Shows see' listing dir blocks := by
  induction listing generalizing dir blocks with
  | done => exact shows
  | file name real reads rest ih => exact Leads.mono shows more (fun _ _ is => is) fun _ behind => ih behind
  | link name real target rest ih => exact Leads.mono shows more (fun _ _ is => is) fun _ behind => ih behind
  | dir name real entries rest inner ih =>
      exact Leads.mono shows more (fun _ _ is => is.mono fun _ below => inner below) fun _ behind => ih behind
  | other name rest ih => exact ih shows

/-! ## What the host has -/

/-- What the reads of a file give depends on its `st_ino`, and this is that of no link or
    directory. -/
def Agrees (host : UInt64 → Option (List (List UInt8))) : Listing → Prop
  | .done => True
  | .file name real reads rest => (skipped name = false → host real = some reads) ∧ Agrees host rest
  | .link name real _ rest => (skipped name = false → host real = none) ∧ Agrees host rest
  | .dir name real entries rest => (skipped name = false → host real = none ∧ Agrees host entries) ∧ Agrees host rest
  | .other _ rest => Agrees host rest

/-- How many entries are made for a listing. -/
def visible : Listing → Nat
  | .done => 0
  | .file name _ _ rest => (if skipped name then 0 else 1) + visible rest
  | .link name _ _ rest => (if skipped name then 0 else 1) + visible rest
  | .dir name _ _ rest => (if skipped name then 0 else 1) + visible rest
  | .other _ rest => visible rest

/-- No file below needs more than one index block. -/
def Small : Listing → Prop
  | .done => True
  | .file name _ reads rest => (skipped name = false → reads.length ≤ SFS_L1_NBLKS) ∧ Small rest
  | .link _ _ _ rest => Small rest
  | .dir name _ entries rest =>
      (skipped name = false → 2 + visible entries ≤ SFS_L1_NBLKS ∧ Small entries) ∧ Small rest
  | .other _ rest => Small rest

/-! ## What the tool has made -/

/-- What is not open can be seen under its number. -/
def seen (t : Tool) (made opens : List CacheInode) (n : Nat) (v : Node) : Prop :=
  ∃ ci ∈ made, ci ∉ opens ∧ ci.ino.toNat = n ∧ node t ci.addr = v

/-- What has been copied of the files of the host is whole. -/
def Kept (host : UInt64 → Option (List (List UInt8))) (t : Tool) (made opens : List CacheInode) : Prop :=
  ∀ ci ∈ made, ∀ reads, host ci.real = some reads → ci ∉ opens ∧ IsFile (node t ci.addr) reads

/-- The numbers that the entries of a directory name. -/
def named (node : Node) : List Nat := if node.type = SFS_TYPE_DIR then node.contents.map fun b => word b 0 else []

def names (t : Tool) (made : List CacheInode) : List Nat := made.flatMap fun ci => named (node t ci.addr)

/-- The link counts are the numbers of entries, in 16 bits. -/
structure Linked (t : Tool) (made : List CacheInode) : Prop where
  known : ∀ n ∈ names t made, ∃ ci ∈ made, ci.ino.toNat = n
  count : ∀ ci ∈ made, links t ci.addr = UInt16.ofNat ((names t made).count ci.ino.toNat)

/-- What is true after each turn of the loop in `current`, the directories in `opens` being open. -/
structure State (host : UInt64 → Option (List (List UInt8))) (t : Tool) (made opens : List CacheInode) : Prop where
  sound : Sound t made []
  kept : Kept host t made opens
  linked : Linked t made
  opens : ∀ ci ∈ opens, ci ∈ made

/-- How it has become so: `current` has the blocks in addition, and what was there is still there. -/
structure After (host : UInt64 → Option (List (List UInt8))) (t t' : Tool) (made made' opens : List CacheInode)
    (current : CacheInode) (blocks : List Block) : Prop where
  state : State host t' made' opens
  ninos : t'.sfs.ninos = t.sfs.ninos
  more : ∀ ci ∈ made, ci ∈ made'
  self : node t' current.addr = (node t current.addr).append blocks (UInt32.ofNat (SIZEOF_NAME * blocks.length))
  others : ∀ ci ∈ made, ci ≠ current → node t' ci.addr = node t ci.addr

variable {host : UInt64 → Option (List (List UInt8))} {t t' u : Tool} {made made' made'' opens : List CacheInode}
variable {current ci fi : CacheInode} {blocks blocks' : List Block}

theorem After.refl (state : State host t made opens) (current : CacheInode) :
    After host t t made made opens current [] :=
  ⟨state, rfl, fun _ inside => inside, (Node.append_nil _).symm, fun _ _ _ => rfl⟩

theorem After.trans (first : After host t u made made' opens current blocks)
    (second : After host u t' made' made'' opens current blocks') :
    After host t t' made made'' opens current (blocks ++ blocks') where
  state := second.state
  ninos := second.ninos.trans first.ninos
  more ci inside := second.more ci (first.more ci inside)
  self := by
    rw [second.self, first.self, Node.append_append, ← UInt32.ofNat_add, ← Nat.mul_add, ← List.length_append]
  others ci inside ne := (second.others ci (first.more ci inside) ne).trans (first.others ci inside ne)

theorem After.seen (after : After host t t' made made' opens current blocks) (open' : current ∈ opens) (n : Nat)
    (v : Node) (seen : MksfsTree.seen t made opens n v) : MksfsTree.seen t' made' opens n v := by
  obtain ⟨ci, inside, closed, number, same⟩ := seen
  refine ⟨ci, after.more ci inside, closed, number, ?_⟩
  rw [after.others ci inside fun here => closed (here ▸ open'), same]

/-- Two inodes have not the same number. -/
theorem ino_injective (sound : Sound t made []) (left : ci ∈ made) (right : fi ∈ made)
    (same : ci.ino.toNat = fi.ino.toNat) : ci = fi := by
  have distinct := sound.numbers.nodup_iff.mpr sound.counted.nodup_given
  rw [List.nil_append, List.nodup_flatMap] at distinct
  have nodup : (made.map fun ci => ci.ino.toNat).Nodup := by
    refine List.pairwise_map.mpr (distinct.2.imp fun {a b} apart clash => ?_)
    refine apart (a := a.ino.toNat) List.mem_cons_self ?_
    rw [clash]
    exact List.mem_cons_self
  exact List.inj_on_of_nodup_map nodup left right same

/-! ## Link counts -/

theorem entryBytes_eq (ino : UInt32) (name : Block) : entryBytes ino name = toLe 4 ino.toNat ++ slice name 0 252 := by
  rw [entryBytes, show SIZEOF_NAME = 252 + 4 from rfl, slice_append, ← List.append_assoc]
  exact List.take_left' (by simp)

theorem Entry.word {ino : UInt32} {name : List UInt8} {b : Block} (entry : Entry ino name b) :
    word b 0 = ino.toNat := by
  obtain ⟨before, rfl⟩ := entry
  have front := slice_patch_prefix zeros (toLe 4 ino.toNat) (slice (patch before 0 (name ++ [0])) 0 252) 0
  rw [length_toLe] at front
  rw [Lib.Bytes.word, entryBytes_eq, front, ofLe_toLe ino.toNat_lt]

theorem names_dir {size : UInt32} (sound : Sound t made []) (adds : Adds t t' made ci blocks size) (member : ci ∈ made)
    (type : (node t ci.addr).type = SFS_TYPE_DIR) :
    (names t' made).Perm (blocks.map (fun b => Lib.Bytes.word b 0) ++ names t made) := by
  refine flatMap_perm sound.addrs.of_map member ?_ fun di inside ne => by rw [adds.others di inside ne]
  rw [adds.self, named, named, Node.append, if_pos type, if_pos type, List.map_append]
  exact List.perm_append_comm

theorem names_file {size : UInt32} (adds : Adds t t' made ci blocks size)
    (type : (node t ci.addr).type ≠ SFS_TYPE_DIR) :
    names t' made = names t made := by
  refine List.flatMap_congr fun di inside => ?_
  by_cases here : di = ci
  · rw [here, adds.self, named, named, Node.append, if_neg type, if_neg type]
  · rw [adds.others di inside here]

theorem Linked.file {size : UInt32} (linked : Linked t made) (adds : Adds t t' made ci blocks size)
    (type : (node t ci.addr).type ≠ SFS_TYPE_DIR) (same : links t' = links t) : Linked t' made := by
  constructor
  · rw [names_file adds type]
    exact linked.known
  · rw [names_file adds type, same]
    exact linked.count

/-- The names of the inodes that were there, when there is a new one. -/
theorem names_made {real : UInt64} {type : UInt16} (new : Made t t' made ci real type) :
    names t' (ci :: made) = names t made := by
  rw [names, List.flatMap_cons, new.self]
  have absent : named ⟨type, 0, []⟩ = [] := by simp [named]
  rw [absent, List.nil_append]
  exact List.flatMap_congr fun di inside => by rw [new.others di inside]

theorem Linked.inode {real : UInt64} {type : UInt16} (linked : Linked t made) (new : Made t t' made ci real type) :
    Linked t' (ci :: made) := by
  constructor
  · intro n inside
    rw [names_made new] at inside
    obtain ⟨di, member, number⟩ := linked.known n inside
    exact ⟨di, List.mem_cons_of_mem _ member, number⟩
  · intro di inside
    rw [names_made new]
    rcases List.mem_cons.mp inside with rfl | inside
    · have absent : di.ino.toNat ∉ names t made := by
        intro here
        obtain ⟨fi, member, number⟩ := linked.known _ here
        have same := ino_injective new.sound (List.mem_cons_of_mem _ member) List.mem_cons_self number
        exact new.new (same ▸ member)
      rw [new.link, List.count_eq_zero_of_not_mem absent]
      rfl
    · rw [new.links di inside]
      exact linked.count di inside

theorem Linked.entry {size : UInt32} {name : List UInt8} {b : Block} (linked : Linked t made) (sound : Sound t made [])
    (adds : Adds t t' made ci [b] size) (member : ci ∈ made) (type : (node t ci.addr).type = SFS_TYPE_DIR)
    (entry : Entry fi.ino name b) (file : fi ∈ made)
    (more : links t' = Function.update (links t) fi.addr (links t fi.addr + 1)) : Linked t' made := by
  have perm := names_dir sound adds member type
  rw [List.map_singleton, Entry.word entry] at perm
  constructor
  · intro n inside
    rcases List.mem_cons.mp (perm.mem_iff.mp inside) with rfl | inside
    · exact ⟨fi, file, rfl⟩
    · exact linked.known n inside
  · intro di inside
    rw [more, perm.count_eq, List.singleton_append, List.count_cons]
    by_cases here : di = fi
    · subst here
      rw [Function.update_self, linked.count di inside]
      simp
    · have ne : fi.ino.toNat ≠ di.ino.toNat := fun same => here (ino_injective sound inside file same.symm)
      have apart : di.addr ≠ fi.addr := Grown.apart_addr sound file inside here
      rw [Function.update_of_ne apart, linked.count di inside]
      simp [ne]

/-! ## One file after the other -/

theorem addEntry_after {name : List UInt8} (state : State host t made opens) (open' : current ∈ opens)
    (file : fi ∈ made)
    (room : (node t current.addr).contents.length < SFS_L1_NBLKS) :
    Ends (addEntry t current.addr fi name) fun t' => ∃ b, Entry fi.ino name b ∧
      After host t t' made made opens current [b] := by
  have member := state.opens current open'
  refine (addEntry_ends state.sound member room).mono ?_
  rintro t' ⟨b, entry, adds, more, type⟩
  refine ⟨b, entry, ⟨adds.sound, fun ci inside reads real => ?_, ?_, state.opens⟩, adds.ninos,
    fun _ inside => inside, ?_, adds.others⟩
  · obtain ⟨closed, is⟩ := state.kept ci inside reads real
    refine ⟨closed, ?_⟩
    rw [adds.others ci inside fun here => closed (here ▸ open')]
    exact is
  · exact state.linked.entry state.sound adds member type entry file more
  · rw [adds.self]
    rfl

/-- A file or a link with what is in it. -/
theorem made_after {real : UInt64} {type : UInt16} {size : UInt32} (state : State host t made opens)
    (open' : current ∈ opens)
    (new : Made t u made fi real type) (adds : Adds u t' (fi :: made) fi blocks' size) (same : links t' = links u)
    (other : type ≠ SFS_TYPE_DIR) (content : ∀ reads, host real = some reads → IsFile (node t' fi.addr) reads) :
    After host t t' made (fi :: made) opens current [] ∧
    node t' fi.addr = (⟨type, 0, []⟩ : Node).append blocks' size := by
  have old : ∀ ci ∈ made, ci ≠ fi := fun ci inside here => new.new (here ▸ inside)
  have kept : ∀ ci ∈ made, node t' ci.addr = node t ci.addr := fun ci inside =>
    (adds.others ci (List.mem_cons_of_mem _ inside) (old ci inside)).trans (new.others ci inside)
  refine ⟨⟨⟨adds.sound, fun ci inside reads here => ?_, ?_, fun ci inside => List.mem_cons_of_mem _
    (state.opens ci inside)⟩,
    adds.ninos.trans new.ninos, fun _ inside => List.mem_cons_of_mem _ inside, ?_, fun ci inside _ => kept ci inside⟩,
      ?_⟩
  · rcases List.mem_cons.mp inside with rfl | inside
    · refine ⟨fun inside => new.new (state.opens ci inside), content reads ?_⟩
      rw [← new.real]
      exact here
    · rw [kept ci inside]
      exact state.kept ci inside reads here
  · refine (state.linked.inode new).file adds ?_ same
    rw [new.self]
    exact other
  · rw [kept current (state.opens current open')]
    exact (Node.append_nil _).symm
  · rw [adds.self, new.self]

theorem room_after {t' : Tool} (after : After host t t' made made' opens current blocks) :
    (node t' current.addr).contents.length = (node t current.addr).contents.length + blocks.length := by
  rw [after.self]
  simp [Node.append]

theorem search_real {real : UInt64} (sound : Sound t made []) (found : searchCacheInode t.sfs real = some fi) :
    fi ∈ made ∧ fi.real = real := by
  have inside := List.mem_of_find?_eq_some found
  exact ⟨(sound.inodes fi).mp ⟨_, inside⟩, by simpa using List.find?_some found⟩

/-- The file is copied, if no other name has led to it before. -/
theorem addFile_after {name : List UInt8} {real : UInt64} {reads : List (List UInt8)} (state : State host t made opens)
    (open' : current ∈ opens) (agrees : host real = some reads) (few : reads.length ≤ SFS_L1_NBLKS)
    (room : (node t current.addr).contents.length < SFS_L1_NBLKS) :
    Ends (addFile t current.addr name real reads)
      fun t' => ∃ made' b ino v, After host t t' made made' opens current [b] ∧
      Entry ino name b ∧ seen t' made' opens ino.toNat v ∧ IsFile v reads := by
  have member := state.opens current open'
  rw [addFile]
  cases search : searchCacheInode t.sfs real with
  | some fi =>
      obtain ⟨file, same⟩ := search_real state.sound search
      obtain ⟨closed, is⟩ := state.kept fi file reads (same ▸ agrees)
      refine (addEntry_after state open' file room).mono ?_
      rintro t' ⟨b, entry, after⟩
      exact ⟨made, b, fi.ino, _, after, entry, after.seen open' _ _ ⟨fi, file, closed, rfl, rfl⟩, is⟩
  | none =>
      simp only [ends_bind]
      refine (allocInode_ends state.sound real SFS_TYPE_FILE).mono ?_
      rintro ⟨fi, u⟩ new
      simp only at new ⊢
      have empty : (node u fi.addr).contents.length + reads.length ≤ SFS_L1_NBLKS := by
        rw [new.self]
        simpa using few
      refine (openFile_ends reads SFS_BLKSIZE new.sound List.mem_cons_self empty).mono ?_
      rintro w ⟨adds, linked, full⟩
      have content : IsFile (node w fi.addr) reads := by
        rw [adds.self, new.self]
        exact ⟨rfl, UInt32.zero_add _, List.nil_append _, full⟩
      have first := (made_after state open' new adds linked (by decide) fun other here => by
        rw [Option.some.inj (agrees.symm.trans here)] at content
        exact content).1
      refine (addEntry_after first.state open' List.mem_cons_self (by rw [room_after first]; exact room)).mono ?_
      rintro t' ⟨b, entry, second⟩
      refine ⟨fi :: made, b, fi.ino, _, first.trans second, entry, ?_, content⟩
      exact second.seen open' _ _ ⟨fi, List.mem_cons_self, fun here => new.new (state.opens fi here), rfl, rfl⟩

theorem addLink_after {name target : List UInt8} {real : UInt64} (state : State host t made opens)
    (open' : current ∈ opens) (agrees : host real = none)
    (room : (node t current.addr).contents.length < SFS_L1_NBLKS) :
    Ends (addLink t current.addr name real target)
      fun t' => ∃ made' b ino v, After host t t' made made' opens current [b] ∧
      Entry ino name b ∧ seen t' made' opens ino.toNat v ∧ IsLink v target := by
  rw [addLink]
  simp only [ends_bind]
  refine (allocInode_ends state.sound real SFS_TYPE_LINK).mono ?_
  rintro ⟨fi, u⟩ new
  simp only at new ⊢
  have empty : (node u fi.addr).contents.length < SFS_L1_NBLKS := by
    rw [new.self]
    decide
  refine (openLink_ends new.sound List.mem_cons_self empty).mono ?_
  rintro w ⟨adds, linked, fits⟩
  have content : IsLink (node w fi.addr) target := by
    rw [adds.self, new.self]
    exact ⟨rfl, UInt32.zero_add _, List.nil_append _, fits⟩
  have first := (made_after state open' new adds linked (by decide) fun other here => by
    rw [agrees] at here
    cases here).1
  refine (addEntry_after first.state open' List.mem_cons_self (by rw [room_after first]; exact room)).mono ?_
  rintro t' ⟨b, entry, second⟩
  refine ⟨fi :: made, b, fi.ino, _, first.trans second, entry, ?_, content⟩
  exact second.seen open' _ _ ⟨fi, List.mem_cons_self, fun here => new.new (state.opens fi here), rfl, rfl⟩

/-- A directory that is new is the one that is open last. -/
theorem made_open {real : UInt64} (state : State host t made opens) (new : Made t u made ci real SFS_TYPE_DIR)
    (agrees : host real = none) : State host u (ci :: made) (ci :: opens) := by
  refine ⟨new.sound, fun di inside reads here => ?_, state.linked.inode new, fun di inside => ?_⟩
  · rcases List.mem_cons.mp inside with rfl | inside
    · rw [new.real, agrees] at here
      cases here
    · obtain ⟨closed, is⟩ := state.kept di inside reads here
      refine ⟨fun either => ?_, by rw [new.others di inside]; exact is⟩
      rcases List.mem_cons.mp either with same | before
      · exact new.new (same ▸ inside)
      · exact closed before
  · rcases List.mem_cons.mp inside with rfl | inside
    · exact List.mem_cons_self
    · exact List.mem_cons_of_mem _ (state.opens di inside)

/-- Then it is closed, and nothing has become of the others. -/
theorem After.close {real : UInt64} (state : State host t made opens) (open' : current ∈ opens)
    (new : Made t u made ci real SFS_TYPE_DIR) (after : After host u t' (ci :: made) made' (ci :: opens) ci blocks) :
    After host t t' made made' opens current [] := by
  have ne : ∀ di ∈ made, di ≠ ci := fun di inside here => new.new (here ▸ inside)
  have kept : ∀ di ∈ made, node t' di.addr = node t di.addr := fun di inside =>
    (after.others di (List.mem_cons_of_mem _ inside) (ne di inside)).trans (new.others di inside)
  refine ⟨⟨after.state.sound, fun di inside reads here => ?_, after.state.linked, fun di inside => ?_⟩,
    after.ninos.trans new.ninos, fun di inside => after.more di (List.mem_cons_of_mem _ inside), ?_,
      fun di inside _ => kept di inside⟩
  · obtain ⟨closed, is⟩ := after.state.kept di inside reads here
    exact ⟨fun inside => closed (List.mem_cons_of_mem _ inside), is⟩
  · exact after.state.opens di (List.mem_cons_of_mem _ inside)
  · rw [kept current (state.opens current open')]
    exact (Node.append_nil _).symm

/-- The loop has been over the listing: there is an entry for everything in it that is not hidden. -/
def Done (host : UInt64 → Option (List (List UInt8))) (t : Tool) (made opens : List CacheInode) (current : CacheInode)
    (listing : Listing) (t' : Tool) : Prop :=
  ∃ made' blocks, After host t t' made made' opens current blocks ∧ blocks.length = visible listing ∧
    Shows (seen t' made' opens) listing current.ino blocks

variable {listing rest : Listing} {name : List UInt8} {kind : (Nat → Node → Prop) → UInt32 → Node → Prop}

theorem Done.hidden (done : Done host t made opens current rest t') (hidden : skipped name = true)
    (count : visible listing = (if skipped name then 0 else 1) + visible rest)
    (shows : ∀ see blocks, Shows see listing current.ino blocks =
      Leads see name (kind see) (Shows see rest current.ino) blocks) :
    Done host t made opens current listing t' := by
  obtain ⟨made', blocks, after, length, behind⟩ := done
  refine ⟨made', blocks, after, by rw [count, if_pos hidden, length, Nat.zero_add], ?_⟩
  rw [shows, Leads, if_pos hidden]
  exact behind

/-- One turn of the loop, and then the others. -/
theorem Done.shown {ino : UInt32} {v : Node} {b : Block} (shown : ¬ skipped name = true) (open' : current ∈ opens)
    (first : After host t u made made' opens current [b]) (entry : Entry ino name b)
    (here : seen u made' opens ino.toNat v)
    (done : Done host u made' opens current rest t')
    (is : ∀ made'' blocks, After host u t' made' made'' opens current blocks → kind (seen t' made'' opens) ino v)
    (count : visible listing = (if skipped name then 0 else 1) + visible rest)
    (shows : ∀ see blocks, Shows see listing current.ino blocks =
      Leads see name (kind see) (Shows see rest current.ino) blocks) :
    Done host t made opens current listing t' := by
  obtain ⟨made'', blocks, second, length, behind⟩ := done
  refine ⟨made'', b :: blocks, first.trans second, ?_, ?_⟩
  · rw [count, if_neg shown, List.length_cons, length, Nat.add_comm]
  · rw [shows, Leads, if_neg shown]
    exact ⟨b, blocks, ino, v, rfl, entry, second.seen open' _ _ here, is made'' blocks second, behind⟩

/-- There is room for the rest of a listing after the first entry. -/
theorem room_rest {b : Block} (first : After host t u made made' opens current [b])
    (room : (node t current.addr).contents.length + (1 + visible rest) ≤ SFS_L1_NBLKS) :
    (node u current.addr).contents.length + visible rest ≤ SFS_L1_NBLKS := by
  rw [room_after first, List.length_singleton, Nat.add_assoc]
  exact room

/-- `add_dir`, with the loop in the directory that is new. -/
theorem addDir_after {entries : Listing} {real : UInt64}
    (inner : ∀ {t : Tool} {made opens : List CacheInode} {current : CacheInode}, State host t made opens →
    current ∈ opens →
      (node t current.addr).contents.length + visible entries ≤ SFS_L1_NBLKS →
      Ends (readLoop entries t current) (Done host t made opens current entries))
    (state : State host t made opens) (open' : current ∈ opens) (alone : host real = none)
    (fits : 2 + visible entries ≤ SFS_L1_NBLKS) (room : (node t current.addr).contents.length < SFS_L1_NBLKS) :
    Ends (allocInode t real 0 SFS_TYPE_DIR) fun r => Ends (addEntry r.2 r.1.addr r.1 dot) fun a =>
      Ends (addEntry a r.1.addr current dotdot) fun a => Ends (readLoop entries a r.1) fun a =>
        Ends (addEntry a current.addr r.1 name) fun u => ∃ made' b v, After host t u made made' opens current [b] ∧
          Entry r.1.ino name b ∧ seen u made' opens r.1.ino.toNat v ∧
          IsDir v r.1.ino current.ino (Shows (seen u made' opens) entries r.1.ino) := by
  refine (allocInode_ends state.sound real SFS_TYPE_DIR).mono ?_
  rintro ⟨child, a⟩ new
  simp only at new ⊢
  have state' := made_open state new alone
  have empty : (node a child.addr).contents.length = 0 := by
    rw [new.self]
    rfl
  refine (addEntry_after state' List.mem_cons_self List.mem_cons_self (by rw [empty]; decide)).mono ?_
  rintro b ⟨self, entrySelf, one⟩
  have above : current ∈ child :: made := List.mem_cons_of_mem _ (state.opens current open')
  have first : (node b child.addr).contents.length = 1 := by rw [room_after one, empty, List.length_singleton]
  refine (addEntry_after one.state List.mem_cons_self above (by rw [first]; decide)).mono ?_
  rintro c ⟨up, entryUp, two⟩
  have second : (node c child.addr).contents.length = 2 := by rw [room_after two, first, List.length_singleton]
  refine (inner two.state List.mem_cons_self (by rw [second]; exact fits)).mono ?_
  rintro d ⟨made', inside, three, -, shows⟩
  have whole := (one.trans two).trans three
  have closed := whole.close state open' new
  have still : child ∈ made' := whole.more child List.mem_cons_self
  refine (addEntry_after closed.state open' still (by rw [room_after closed]; exact room)).mono ?_
  rintro u ⟨b, entry, last⟩
  refine ⟨made', b, node d child.addr, closed.trans last, entry, last.seen open' _ _ ⟨child, still, ?_, rfl, rfl⟩, ?_,
    ?_, ?_⟩
  · exact fun here => new.new (state.opens child here)
  · rw [whole.self, new.self]
    rfl
  · rw [whole.self, new.self]
    exact UInt32.zero_add _
  · refine ⟨self, up, inside, ?_, entrySelf, entryUp, shows.mono ?_⟩
    · rw [whole.self, new.self]
      rfl
    · rintro n v ⟨di, member, shut, number, same⟩
      exact last.seen open' n v ⟨di, member, fun here => shut (List.mem_cons_of_mem _ here), number, same⟩

/-- The loop over a listing adds an entry for everything in it that is not hidden. -/
theorem readLoop_done (listing : Listing) (state : State host t made opens) (open' : current ∈ opens)
    (agrees : Agrees host listing) (small : Small listing)
    (room : (node t current.addr).contents.length + visible listing ≤ SFS_L1_NBLKS) :
    Ends (readLoop listing t current) (Done host t made opens current listing) := by
  induction listing generalizing t made opens current with
  | done =>
      rw [readLoop, ends_ok]
      exact ⟨made, [], After.refl state current, rfl, rfl⟩
  | other name rest ih =>
      rw [readLoop, ends_ite, ends_ite]
      have rest := ih state open' agrees small room
      exact ⟨fun _ => rest, fun _ => ⟨fun _ => ends_error, fun _ => rest⟩⟩
  | file name real reads rest ih =>
      rw [visible] at room
      rw [readLoop, ends_ite, ends_ite]
      refine ⟨fun hidden => ?_, fun shown => ⟨fun _ => ends_error, fun _ => ?_⟩⟩
      · rw [if_pos hidden, Nat.zero_add] at room
        exact (ih state open' agrees.2 small.2 room).mono fun t' done => done.hidden hidden rfl fun _ _ => rfl
      · have visible' : skipped name = false := by simpa using shown
        rw [if_neg shown] at room
        rw [ends_bind]
        refine (addFile_after state open' (agrees.1 visible') (small.1 visible') (by omega)).mono ?_
        rintro u ⟨made', b, ino, v, first, entry, here, is⟩
        refine (ih first.state open' agrees.2 small.2 (room_rest first room)).mono fun t' done => ?_
        exact done.shown shown open' first entry here (fun _ _ _ => is) rfl fun _ _ => rfl
  | link name real target rest ih =>
      rw [visible] at room
      rw [readLoop, ends_ite, ends_ite]
      refine ⟨fun hidden => ?_, fun shown => ⟨fun _ => ends_error, fun _ => ?_⟩⟩
      · rw [if_pos hidden, Nat.zero_add] at room
        exact (ih state open' agrees.2 small room).mono fun t' done => done.hidden hidden rfl fun _ _ => rfl
      · have visible' : skipped name = false := by simpa using shown
        rw [if_neg shown] at room
        rw [ends_bind]
        refine (addLink_after state open' (agrees.1 visible') (by omega)).mono ?_
        rintro u ⟨made', b, ino, v, first, entry, here, is⟩
        refine (ih first.state open' agrees.2 small (room_rest first room)).mono fun t' done => ?_
        exact done.shown shown open' first entry here (fun _ _ _ => is) rfl fun _ _ => rfl
  | dir name real entries rest inner ih =>
      rw [visible] at room
      rw [readLoop, ends_ite, ends_ite, ends_ite]
      refine ⟨fun hidden => ?_, fun shown => ⟨fun _ => ends_error, fun _ => ⟨fun _ => ends_error, fun _ => ?_⟩⟩⟩
      · rw [if_pos hidden, Nat.zero_add] at room
        exact (ih state open' agrees.2 small.2 room).mono fun t' done => done.hidden hidden rfl fun _ _ => rfl
      · have visible' : skipped name = false := by simpa using shown
        obtain ⟨alone, below⟩ := agrees.1 visible'
        obtain ⟨fits, small'⟩ := small.1 visible'
        rw [if_neg shown] at room
        simp only [ends_bind]
        refine (addDir_after (fun state open' room => inner state open' below small' room) state open' alone fits
          (by omega)).mono fun r ends => ends.mono fun a ends => ends.mono fun a ends => ends.mono fun a ends =>
            ends.mono fun u turned => ?_
        obtain ⟨made', b, v, first, entry, here, is⟩ := turned
        refine (ih first.state open' agrees.2 small.2 (room_rest first room)).mono fun t' done => ?_
        exact done.shown shown open' first entry here (fun made'' blocks second => is.mono fun _ shows =>
          shows.mono (second.seen open')) rfl fun _ _ => rfl

/-! ## From the root -/

/-- The state in which the image is closed. -/
structure Built (t : Tool) (made : List CacheInode) (home : Listing) : Prop where
  sound : Sound t made []
  linked : Linked t made
  root : ∃ root ∈ made, root.ino = SFS_BLKN_ROOT ∧
    IsDir (node t root.addr) SFS_BLKN_ROOT SFS_BLKN_ROOT (Shows (seen t made []) home SFS_BLKN_ROOT)

theorem opened_ends (img : Nat → Block) (stSize : Nat) (nothing : host 0 = none) :
    Ends (opened img stSize) fun r => State host r.2 [r.1] [r.1] ∧ node r.2 r.1.addr = ⟨SFS_TYPE_DIR, 0, []⟩ ∧
      r.1.ino = SFS_BLKN_ROOT ∧ r.2.sfs.ninos = imageBlocks stSize := by
  have size : imageBlocks stSize ≤ SFS_MAX_NBLKS := by
    rw [imageBlocks]
    split
    · exact UInt32.le_refl _
    · exact UInt32.not_lt.mp ‹_›
  rw [opened, ends_bind, createSfs, ends_ite]
  refine ⟨fun _ => ends_error, fun room => ?_⟩
  rw [allocCacheInode, chooseIno, if_pos (by decide)]
  change Ends (Except.ok _) _
  rw [ends_ok, ends_pure]
  have room := UInt32.lt_iff_toNat_lt.mp (UInt32.not_le.mp room)
  refine ⟨⟨?_, fun ci inside reads real => ?_, ⟨fun n inside => ?_, fun ci inside => ?_⟩, fun ci inside => inside⟩,
    rfl, rfl, rfl⟩
  · refine
      { counted := ⟨Nat.le_refl _, room.le, size, UInt32.toNat_sub_of_le _ _ (UInt32.le_iff_toNat_le.mpr room.le)⟩
        inodes := fun ci => ?_
        blocks := fun cb => ?_
        buckets := fun b high => ⟨push_high (hash64_lt 0) high rfl, rfl⟩
        addrs := List.nodup_singleton _
        old := fun ci inside => ?_
        apart := fun ci left di right x y first => ?_
        shape := fun ci inside => ?_
        numbers := ?_ }
    · rw [mem_push]
      simp
    · simp
    · obtain rfl := List.mem_singleton.mp inside
      exact ⟨Nat.zero_lt_one, fun cb index => by cases index⟩
    · cases first
    · obtain rfl := List.mem_singleton.mp inside
      refine ⟨rfl, Nat.zero_le _, rfl, fun k _ _ => ?_, by simp, rfl⟩
      by_cases low : k < SFS_NDIRECT
      · rw [mapped, if_pos low, List.getD_eq_getElem?_getD, List.getElem?_replicate]
        simp [low]
      · rw [mapped, if_neg low]
        rfl
    · simp only [given, Nat.sub_self, List.range'_zero]
      exact List.Perm.refl _
  · obtain rfl := List.mem_singleton.mp inside
    rw [nothing] at real
    cases real
  · simp [names, named, node, numbers] at inside
  · obtain rfl := List.mem_singleton.mp inside
    rfl

theorem openDir_ends {root : CacheInode} {home : Listing} (state : State host t [root] [root])
    (empty : node t root.addr = ⟨SFS_TYPE_DIR, 0, []⟩) (number : root.ino = SFS_BLKN_ROOT) (agrees : Agrees host home)
    (small : Small home) (room : 2 + visible home ≤ SFS_L1_NBLKS) :
    Ends (openDir home t root root) fun t' => t'.sfs.ninos = t.sfs.ninos ∧ ∃ made, Built t' made home := by
  have member : root ∈ [root] := List.mem_cons_self
  rw [openDir, ends_bind]
  refine (addEntry_after state member member (by rw [empty]; decide)).mono ?_
  rintro a ⟨self, entrySelf, one⟩
  rw [ends_bind]
  have first : (node a root.addr).contents.length = 1 := by rw [room_after one, empty]; rfl
  refine (addEntry_after one.state member member (by rw [first]; decide)).mono ?_
  rintro b ⟨up, entryUp, two⟩
  have second : (node b root.addr).contents.length = 2 := by rw [room_after two, first]; rfl
  refine (readLoop_done home two.state member agrees small (by rw [second]; exact room)).mono ?_
  rintro t' ⟨made, blocks, three, -, shows⟩
  have whole := (one.trans two).trans three
  refine ⟨whole.ninos, made, whole.state.sound, whole.state.linked, root, whole.more root member, number, ?_⟩
  rw [whole.self, empty, ← number]
  refine ⟨rfl, UInt32.zero_add _, self, up, blocks, rfl, entrySelf, entryUp, shows.mono ?_⟩
  rintro n v ⟨ci, inside, -, number, same⟩
  exact ⟨ci, inside, List.not_mem_nil, number, same⟩

end Ucore.Tools.MksfsTree
