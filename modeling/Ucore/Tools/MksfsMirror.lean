import Ucore.Tools.MksfsVolume

/-! # The tree the kernel finds

A volume mirrors a directory of the host when the entries the kernel reads lead to what the
host lists, in the same order. Names come back without what is behind the 252nd character.
-/

namespace Ucore.Tools.MksfsMirror

open Lib.Bytes Lib.Outcome Fs
open Mksfs (CacheInode CacheBlock)
open MksfsImage MksfsBlocks MksfsNodes MksfsTree MksfsClose MksfsVolume
open Sfs (Device DiskInode DiskEntry)
open Volumes (Volume Holds fileData)
open Directory (readEntry slots used lookup string)

/-- How many characters of a name are in its entry. -/
def SHOWN : Nat := 252

/-- The entry has the number, and the name as far as it is there. -/
def Names (entry : DiskEntry) (ino : Nat) (name : List UInt8) : Prop :=
  entry.ino = ino ∧ string entry.name = name.take SHOWN

/-- The file of the number holds these bytes. -/
def FileAt (vol : Volume) (type ino : Nat) (bytes : List UInt8) : Prop :=
  ∃ din, (ino, din) ∈ vol.files ∧ din.type = type ∧ din.size = bytes.length ∧
    ∀ k < bytes.length, ∃ b, (vol.data ino)[k / Sfs.SFS_BLKSIZE]? = some b ∧ bytes[k]? = some (b (k % Sfs.SFS_BLKSIZE))

/-- The number is that of a directory with its own entry and the one above it. -/
def DirAt (vol : Volume) (ino parent : Nat) (shows : List DiskEntry → Prop) : Prop :=
  ∃ din, (ino, din) ∈ vol.files ∧ din.type = Sfs.SFS_TYPE_DIR ∧ ∃ self above entries,
    slots vol ino = self :: above :: entries ∧ Names self ino dot ∧ Names above parent dotdot ∧ shows entries

/-- If the name is not hidden, the first entry and where it leads; the others come behind it. -/
def LeadsTo (name : List UInt8) (kind : Nat → Prop) (shows : List DiskEntry → Prop) (entries : List DiskEntry) : Prop :=
  if skipped name then shows entries
  else ∃ entry others, entries = entry :: others ∧ Names entry entry.ino name ∧ kind entry.ino ∧ shows others

def Mirrors (vol : Volume) : Listing → Nat → List DiskEntry → Prop
  | .done, _, entries => entries = []
  | .file name _ reads rest, dir, entries =>
      LeadsTo name (fun ino => FileAt vol Sfs.SFS_TYPE_FILE ino reads.flatten) (Mirrors vol rest dir) entries
  | .link name _ target rest, dir, entries =>
      LeadsTo name (fun ino => FileAt vol Sfs.SFS_TYPE_LINK ino target) (Mirrors vol rest dir) entries
  | .dir name _ entries' rest, dir, entries =>
      LeadsTo name (fun ino => DirAt vol ino dir (Mirrors vol entries' ino)) (Mirrors vol rest dir) entries
  | .other _ rest, dir, entries => Mirrors vol rest dir entries

/-- No name that is not hidden has a character 0. -/
def Plain : Listing → Prop
  | .done => True
  | .file name _ _ rest => (skipped name = false → 0 ∉ name) ∧ Plain rest
  | .link name _ _ rest => (skipped name = false → 0 ∉ name) ∧ Plain rest
  | .dir name _ entries rest => (skipped name = false → 0 ∉ name ∧ Plain entries) ∧ Plain rest
  | .other _ rest => Plain rest

/-! ## Entries -/

theorem string_zero {xs : List UInt8} (plain : 0 ∉ xs) (ys : List UInt8) : string (xs ++ 0 :: ys) = xs := by
  have all : ∀ x ∈ xs, (decide (x ≠ 0)) = true := fun x inside => decide_eq_true fun zero => plain (zero ▸ inside)
  rw [string, List.takeWhile_append_of_pos all, List.takeWhile_cons_of_neg (by simp), List.append_nil]

/-- The part of the name that is written, and what the kernel puts behind it. -/
theorem string_slice {name : List UInt8} (plain : 0 ∉ name) (before : Block) (tail : List UInt8) :
    string (slice (patch before 0 (name ++ [0])) 0 SHOWN ++ 0 :: tail) = name.take SHOWN := by
  have size : SHOWN = 252 := rfl
  by_cases short : name.length < SHOWN
  · have whole := slice_patch before 0 (name ++ [0])
    rw [List.length_append, List.length_singleton] at whole
    rw [show SHOWN = (name.length + 1) + (SHOWN - (name.length + 1)) by omega, slice_append, whole, List.append_assoc,
      List.append_assoc, List.singleton_append, string_zero plain, List.take_of_length_le (by omega)]
  · have front := slice_patch_prefix before (name.take SHOWN) (name.drop SHOWN ++ [0]) 0
    rw [← List.append_assoc, List.take_append_drop, List.length_take, Nat.min_eq_left (Nat.not_lt.mp short)] at front
    rw [front, string_zero fun zero => plain (List.mem_of_mem_take zero)]

theorem readEntry_ino (b : Block) : (readEntry b).ino = word b 0 := by
  change ofLe (Sfs.part (slice b 0 DiskEntry.sizeof) 0 4) = _
  rw [show DiskEntry.sizeof = 4 + 256 from rfl, slice_append, Sfs.part_append_left (length_slice _ _ _), word]

theorem readEntry_name (b : Block) : (readEntry b).name = slice b 4 255 ++ [0] := by
  change (Sfs.part (slice b 0 DiskEntry.sizeof) 4 256).set 255 0 = _
  rw [show DiskEntry.sizeof = 4 + 256 from rfl, slice_append, Sfs.part_append_right (length_slice _ _ _)
    (Nat.le_refl _),
    Nat.sub_self, Sfs.part_all (length_slice _ _ _), Nat.zero_add, show 256 = 255 + 1 from rfl, slice_append,
    List.set_append_right _ _ (by simp), length_slice, Nat.sub_self]
  rfl

/-- What `add_entry` writes is what `sfs_dirent_read_nolock` reads, up to the end of the block written. -/
theorem Entry.names {ino : UInt32} {name : List UInt8} {b : Block} (entry : Entry ino name b) (plain : 0 ∉ name) :
    Names (readEntry b) ino.toNat name := by
  refine ⟨(readEntry_ino b).trans (Entry.word entry), ?_⟩
  obtain ⟨before, rfl⟩ := entry
  set written := slice (patch before 0 (name ++ [0])) 0 SHOWN with same
  have length : written.length = SHOWN := length_slice _ _ _
  have bytes : slice (patch zeros 0 (entryBytes ino (patch before 0 (name ++ [0])))) 4 252 = written := by
    rw [entryBytes_eq, slice_written (by simp), Sfs.part_append_right (length_toLe _ _) (Nat.le_refl _), Nat.sub_self]
    exact Sfs.part_all length
  have behind : slice (patch zeros 0 (entryBytes ino (patch before 0 (name ++ [0])))) 256 3 = [0, 0, 0] := by
    rw [entryBytes_eq, slice_patch_frame (.inr (by simp))]
    rfl
  rw [readEntry_name, show 255 = 252 + 3 from rfl, slice_append, bytes, behind, List.append_assoc]
  exact string_slice plain before [0, 0, 0]

/-! ## Files -/

theorem fileSize_toNat {reads : List (List UInt8)} (fits : reads.flatten.length < 2 ^ 32) :
    (fileSize reads).toNat = reads.flatten.length := by
  induction reads with
  | nil => rfl
  | cons data reads ih =>
      rw [List.flatten_cons, List.length_append] at fits ⊢
      have rest := ih (by omega)
      rw [fileSize] at rest ⊢
      rw [List.map_cons, List.sum_cons, UInt32.toNat_add, rest, UInt32.toNat_ofNat', Nat.mod_eq_of_lt
        (by omega : data.length < _),
        Nat.mod_eq_of_lt fits]

/-- Where a byte of a file is. -/
theorem full_get {last k : Nat} {reads : List (List UInt8)} (full : Full last reads)
    (inside : k < reads.flatten.length) :
    ∃ data, reads[k / Sfs.SFS_BLKSIZE]? = some data ∧ k % Sfs.SFS_BLKSIZE < data.length ∧
      reads.flatten[k]? = data[k % Sfs.SFS_BLKSIZE]? := by
  have size : Sfs.SFS_BLKSIZE = 4096 := rfl
  have size' : Mksfs.SFS_BLKSIZE = 4096 := rfl
  induction reads generalizing last k with
  | nil => cases inside
  | cons data reads ih =>
      obtain ⟨-, fits, rest⟩ := full
      rw [List.flatten_cons, List.length_append] at inside
      rw [List.flatten_cons, List.getElem?_append]
      by_cases here : k < data.length
      · have first : k / Sfs.SFS_BLKSIZE = 0 := by rw [size]; omega
        have same : k % Sfs.SFS_BLKSIZE = k := by rw [size]; omega
        rw [first, same, if_pos here]
        exact ⟨data, rfl, here, rfl⟩
      · have whole : data.length = 4096 := by
          cases reads with
          | nil => simp at inside; omega
          | cons more reads => exact rest.1
        have next : k / Sfs.SFS_BLKSIZE = (k - 4096) / Sfs.SFS_BLKSIZE + 1 := by rw [size]; omega
        have same : k % Sfs.SFS_BLKSIZE = (k - 4096) % Sfs.SFS_BLKSIZE := by rw [size]; omega
        rw [next, same, if_neg here, whole, List.getElem?_cons_succ]
        exact ih rest (by omega)

theorem full_length {last : Nat} {reads : List (List UInt8)} (full : Full last reads) :
    reads.flatten.length ≤ Sfs.SFS_BLKSIZE * reads.length := by
  have size : Sfs.SFS_BLKSIZE = Mksfs.SFS_BLKSIZE := rfl
  induction reads generalizing last with
  | nil => exact Nat.zero_le _
  | cons data reads ih =>
      obtain ⟨-, fits, rest⟩ := full
      have := ih rest
      rw [List.flatten_cons, List.length_append, List.length_cons, Nat.mul_succ, size] at *
      omega

/-- A file of the tool, as the kernel has it under its number. -/
def Sees (vol : Volume) (n : Nat) (v : Node) : Prop :=
  v.contents.length ≤ SFS_L1_NBLKS ∧ ∃ din, (n, din) ∈ vol.files ∧ din.type = v.type.toNat ∧ din.size = v.size.toNat ∧
    vol.data n = v.contents

variable {vol : Volume} {n : Nat} {v : Node}

theorem IsFile.at {reads : List (List UInt8)} (is : IsFile v reads) (sees : Sees vol n v) :
    FileAt vol Sfs.SFS_TYPE_FILE n reads.flatten := by
  obtain ⟨few, din, inside, type, size, data⟩ := sees
  have count : v.contents.length = reads.length := by rw [is.contents, List.length_map]
  have bytes := full_length is.full
  have block : Sfs.SFS_BLKSIZE = 4096 := rfl
  have most : SFS_L1_NBLKS = 1036 := rfl
  refine ⟨din, inside, by rw [type, is.type]; rfl, ?_, fun k below => ?_⟩
  · rw [size, is.size, fileSize_toNat]
    rw [block] at bytes
    omega
  · obtain ⟨bs, read, low, same⟩ := full_get is.full below
    refine ⟨patch zeros 0 bs, ?_, ?_⟩
    · rw [data, is.contents, List.getElem?_map, read]
      rfl
    · have byte : patch zeros 0 bs (0 + k % Sfs.SFS_BLKSIZE) = bs[k % Sfs.SFS_BLKSIZE] := patch_inside low
      rw [Nat.zero_add] at byte
      rw [same, byte, List.getElem?_eq_getElem low]

theorem IsLink.at {target : List UInt8} (is : IsLink v target) (sees : Sees vol n v) :
    FileAt vol Sfs.SFS_TYPE_LINK n target := by
  obtain ⟨-, din, inside, type, size, data⟩ := sees
  have block : Sfs.SFS_BLKSIZE = 4096 := rfl
  have fits : target.length ≤ 4096 := is.fits
  refine ⟨din, inside, by rw [type, is.type]; rfl, ?_, fun k below => ?_⟩
  · rw [size, is.size, UInt32.toNat_ofNat', Nat.mod_eq_of_lt (by omega)]
  · have first : k / Sfs.SFS_BLKSIZE = 0 := by rw [block]; omega
    have same : k % Sfs.SFS_BLKSIZE = k := by rw [block]; omega
    have byte : patch zeros 0 target (0 + k) = target[k] := patch_inside below
    rw [Nat.zero_add] at byte
    refine ⟨patch zeros 0 target, ?_, ?_⟩
    · rw [data, is.contents, first]
      rfl
    · rw [same, byte, List.getElem?_eq_getElem below]

theorem Leads.to {see : Nat → Node → Prop} {name : List UInt8} {kind : UInt32 → Node → Prop} {kind' : Nat → Prop}
    {shows : List Block → Prop} {shows' : List DiskEntry → Prop} {blocks : List Block}
    (leads : Leads see name kind shows blocks) (plain : skipped name = false → 0 ∉ name)
    (kinds : ∀ ino v, skipped name = false → see ino.toNat v → kind ino v → kind' ino.toNat)
    (rest : ∀ others, shows others → shows' (others.map readEntry)) :
    LeadsTo name kind' shows' (blocks.map readEntry) := by
  rw [Leads] at leads
  rw [LeadsTo]
  split at leads
  · rename_i hidden
    rw [if_pos hidden]
    exact rest _ leads
  · rename_i shown
    rw [if_neg shown]
    obtain ⟨b, others, ino, v, rfl, entry, seen, is, behind⟩ := leads
    have visible' : skipped name = false := by simpa using shown
    obtain ⟨number, chars⟩ := Entry.names entry (plain visible')
    refine ⟨readEntry b, others.map readEntry, rfl, ⟨rfl, chars⟩, ?_, rest _ behind⟩
    rw [number]
    exact kinds ino v visible' seen is

theorem IsDir.at {ino parent : UInt32} {shows : List Block → Prop} {shows' : List DiskEntry → Prop}
    (is : IsDir v ino parent shows) (sees : Sees vol ino.toNat v)
    (below : ∀ entries, shows entries → shows' (entries.map readEntry)) :
    DirAt vol ino.toNat parent.toNat shows' := by
  obtain ⟨-, din, inside, type, -, data⟩ := sees
  obtain ⟨self, above, entries, contents, first, second, rest⟩ := is.contents
  refine ⟨din, inside, by rw [type, is.type]; rfl, readEntry self, readEntry above, entries.map readEntry, ?_, ?_, ?_,
    below _ rest⟩
  · rw [slots, data, contents]
    rfl
  · exact Entry.names first (by decide)
  · exact Entry.names second (by decide)

/-- What the tool shows, the kernel finds. -/
theorem Shows.mirrors {listing : Listing} {dir : UInt32} {blocks : List Block}
    (shows : Shows (Sees vol) listing dir blocks)
    (plain : Plain listing) : Mirrors vol listing dir.toNat (blocks.map readEntry) := by
  induction listing generalizing dir blocks with
  | done =>
      rw [Shows] at shows
      rw [shows]
      rfl
  | file name real reads rest ih =>
      exact Leads.to shows plain.1 (fun _ _ _ seen is => IsFile.at is seen) fun _ behind => ih behind plain.2
  | link name real target rest ih =>
      exact Leads.to shows plain.1 (fun _ _ _ seen is => IsLink.at is seen) fun _ behind => ih behind plain.2
  | dir name real entries rest inner ih =>
      refine Leads.to shows (fun visible' => (plain.1 visible').1) (fun ino v visible' seen is => ?_) fun _ behind =>
        ih behind plain.2
      exact IsDir.at is seen fun _ below => inner below (plain.1 visible').2
  | other name rest ih => exact ih shows plain

/-! ## The image -/

/-- What is asked of the host. -/
structure Suits (host : UInt64 → Option (List (List UInt8))) (home : Listing) : Prop where
  nothing : host 0 = none
  agrees : Agrees host home
  small : Small home
  room : 2 + visible home ≤ SFS_L1_NBLKS
  plain : Plain home

variable {host : UInt64 → Option (List (List UInt8))} {home : Listing} {img final : Nat → Block} {stSize : Nat}
variable {junk : List UInt8} {dev : Device} {t : Tool} {made : List CacheInode}

theorem createImg_closed (suits : Suits host home) (ran : createImg img stSize junk home = .ok final) :
    ∃ t made, t.sfs.ninos = Mksfs.imageBlocks stSize ∧ Built t made home ∧ Closed t made junk final := by
  have ends : Ends (createImg img stSize junk home) fun final =>
      ∃ t made, t.sfs.ninos = Mksfs.imageBlocks stSize ∧ Built t made home ∧ Closed t made junk final := by
    rw [createImg, ends_bind]
    refine (opened_ends img stSize suits.nothing).mono ?_
    rintro ⟨root, t⟩ ⟨state, empty, number, size⟩
    simp only at state empty number size ⊢
    rw [ends_bind]
    refine (openDir_ends state empty number suits.agrees suits.small suits.room).mono ?_
    rintro u ⟨same, made, built⟩
    rw [ends_bind]
    refine (closeSfs_ends built.sound).mono fun w closed => ends_pure.mpr ?_
    exact ⟨u, made, same.trans size, built, closed⟩
  exact ends final ran

theorem sees (sound : Sound t made []) (closed : Closed t made junk final) (seen : seen t made [] n v) :
    Sees (volume final (made.map (fileOf t))) n v := by
  obtain ⟨ci, member, -, rfl, rfl⟩ := seen
  refine ⟨?_, toDisk (t.body ci.addr).inode, List.mem_map_of_mem member, rfl, rfl, ?_⟩
  · rw [length_contents]
    exact (sound.shape ci member).few
  · rw [← fileData_eq sound closed member, ← stored sound closed member]
    rfl

/-! ## Link counts -/

/-- The numbers that the entries of all directories name. -/
def entriesOf (vol : Volume) : List Nat :=
  vol.files.flatMap fun file => if file.2.type = Sfs.SFS_TYPE_DIR then (slots vol file.1).map DiskEntry.ino else []

/-- Every entry leads to a file, and every file knows how many entries lead to it, in 16 bits. -/
structure LinkCounts (vol : Volume) : Prop where
  known : ∀ n ∈ entriesOf vol, ∃ din, (n, din) ∈ vol.files
  count : ∀ file ∈ vol.files, file.2.nlinks = (entriesOf vol).count file.1 % 2 ^ 16

theorem entriesOf_eq (sound : Sound t made []) (closed : Closed t made junk final) :
    entriesOf (volume final (made.map (fileOf t))) = names t made := by
  rw [entriesOf, names, volume, List.flatMap_map]
  refine List.flatMap_congr fun ci member => ?_
  have data : fileData final (DiskInode.ofBytes (slice (final ci.ino.toNat) 0 DiskInode.sizeof)) =
    (node t ci.addr).contents := by
    rw [stored sound closed member, fileData_eq sound closed member]
  have type : (toDisk (t.body ci.addr).inode).type = Sfs.SFS_TYPE_DIR ↔ (node t ci.addr).type = Mksfs.SFS_TYPE_DIR :=
    ⟨fun same => UInt16.toNat_inj.mp same, fun same => congrArg UInt16.toNat same⟩
  simp only [fileOf, slots, data, named, List.map_map]
  by_cases dir : (node t ci.addr).type = Mksfs.SFS_TYPE_DIR
  · rw [if_pos dir, if_pos (type.mpr dir)]
    exact List.map_congr_left fun b _ => readEntry_ino b
  · rw [if_neg dir, if_neg fun same => dir (type.mp same)]

theorem linkCounts (sound : Sound t made []) (linked : Linked t made) (closed : Closed t made junk final) :
    LinkCounts (volume final (made.map (fileOf t))) := by
  constructor
  · intro n inside
    rw [entriesOf_eq sound closed] at inside
    obtain ⟨ci, member, rfl⟩ := linked.known n inside
    exact ⟨_, List.mem_map_of_mem member⟩
  · intro file inside
    obtain ⟨ci, member, rfl⟩ := List.mem_map.mp inside
    rw [entriesOf_eq sound closed]
    change (links t ci.addr).toNat = _
    rw [linked.count ci member]
    exact UInt16.toNat_ofNat'

/-- There are fewer entries than blocks. -/
theorem names_length (sound : Sound t made []) : (names t made).length < t.sfs.ninos.toNat := by
  have each : ∀ ci ∈ made, (named (node t ci.addr)).length ≤ (own t ci).length := by
    intro ci _
    have count : (named (node t ci.addr)).length ≤ (numbers t ci.addr).length := by
      rw [named]
      split <;> simp [node]
    rw [own, List.length_cons, List.length_append]
    omega
  have total : (names t made).length ≤ (made.flatMap (own t)).length := by
    rw [names, List.length_flatMap, List.length_flatMap]
    exact List.sum_le_sum each
  have perm := sound.numbers.length_eq
  have first := ninos_pos sound
  rw [List.nil_append, given, List.length_cons, List.length_range', turns_eq sound.counted.size] at perm
  omega

/-! ## From the host to the kernel -/

/-- The root of the volume, with what the host lists there. -/
def RootShows (vol : Volume) (home : Listing) : Prop :=
  DirAt vol Sfs.SFS_BLKN_ROOT Sfs.SFS_BLKN_ROOT (Mirrors vol home Sfs.SFS_BLKN_ROOT)

theorem built_shows (built : Built t made home) (closed : Closed t made junk final) (plain : Plain home) :
    RootShows (volume final (made.map (fileOf t))) home := by
  obtain ⟨root, member, number, is⟩ := built.root
  have here := sees built.sound closed ⟨root, member, List.not_mem_nil, rfl, rfl⟩
  rw [number] at here
  exact IsDir.at is here fun entries shows =>
    Shows.mirrors (shows.mono fun n v seen => sees built.sound closed seen) plain

/-- In an image of less than 2^16 blocks no link count is too small. -/
theorem built_tree (built : Built t made home) (closed : Closed t made junk final) (small : t.sfs.ninos.toNat < 2 ^ 16)
    (plain : Plain home) : Directory.Tree (volume final (made.map (fileOf t))) := by
  have counts := linkCounts built.sound built.linked closed
  have linked : ∀ n ∈ entriesOf (volume final (made.map (fileOf t))), ∃ din,
      (n, din) ∈ (volume final (made.map (fileOf t))).files ∧ din.nlinks ≠ 0 := by
    intro n inside
    obtain ⟨din, file⟩ := counts.known n inside
    have count : din.nlinks = (entriesOf (volume final (made.map (fileOf t)))).count n % 2 ^ 16 := counts.count _ file
    have positive := List.count_pos_iff.mpr inside
    have most := names_length built.sound
    rw [entriesOf_eq built.sound closed] at count positive
    have few : (names t made).count n ≤ (names t made).length := List.count_le_length
    rw [Nat.mod_eq_of_lt (by omega)] at count
    exact ⟨din, file, by omega⟩
  have entries : ∀ dir ∈ (volume final (made.map (fileOf t))).files, dir.2.type = Sfs.SFS_TYPE_DIR →
      ∀ entry ∈ slots (volume final (made.map (fileOf t))) dir.1, entry.ino ∈
        entriesOf (volume final (made.map (fileOf t))) := by
    intro dir inside type entry here
    refine List.mem_flatMap.mpr ⟨dir, inside, ?_⟩
    rw [if_pos type]
    exact List.mem_map_of_mem here
  refine ⟨?_, fun dir inside type entry here => linked _ (entries dir inside type entry (List.mem_of_mem_filter here))⟩
  obtain ⟨din, inside, type, self, above, rest, all, first, -⟩ := built_shows built closed plain
  obtain ⟨other, file, links⟩ := linked _ (entries _ inside type self (by rw [all]; exact List.mem_cons_self))
  rw [first.1] at file
  obtain ⟨ci, member, same⟩ := List.mem_map.mp inside
  obtain ⟨di, member', same'⟩ := List.mem_map.mp file
  have number : ci.ino.toNat = di.ino.toNat := (congrArg Prod.fst same).trans (congrArg Prod.fst same').symm
  obtain rfl := ino_injective built.sound member member' number
  have equal : din = other := congrArg Prod.snd (same.symm.trans same')
  exact ⟨din, inside, type, equal ▸ links⟩

theorem createImg_mounts (suits : Suits host home) (ran : createImg img stSize junk home = .ok final)
    (same : dev.blocks = final) (room : (Mksfs.imageBlocks stSize).toNat ≤ dev.dBlocks) :
    ∃ t made s, t.sfs.ninos = Mksfs.imageBlocks stSize ∧ Built t made home ∧ Closed t made junk final ∧
      Mounts dev (volume final (made.map (fileOf t))) s := by
  obtain ⟨t, made, size, built, closed⟩ := createImg_closed suits ran
  obtain ⟨s, mounts⟩ := fresh_mounts built.sound closed same (by rw [size]; exact room)
  exact ⟨t, made, s, size, built, closed, mounts⟩

/-- An image can be mounted, and the kernel finds the tree of the host in it. -/
theorem createImg_mirrors (suits : Suits host home) (ran : createImg img stSize junk home = .ok final)
    (same : dev.blocks = final) (room : (Mksfs.imageBlocks stSize).toNat ≤ dev.dBlocks) :
    ∃ vol s, Mounts dev vol s ∧ RootShows vol home ∧ LinkCounts vol := by
  obtain ⟨t, made, s, -, built, closed, mounts⟩ := createImg_mounts suits ran same room
  exact ⟨_, s, mounts, built_shows built closed suits.plain, linkCounts built.sound built.linked closed⟩

/-! ## A small image -/

/-- A directory `d` with a file `b` in it, a file `a`, and a hidden file. -/
def sample : Listing :=
  .dir [0x64] 5 (.file [0x62] 7 [[0x68, 0x69]] .done) (.file [0x61] 6 [[0x68, 0x6f]] (.file [0x2e, 0x78] 8 [] .done))

def sampleHost (real : UInt64) : Option (List (List UInt8)) :=
  if real = 6 then some [[0x68, 0x6f]] else if real = 7 then some [[0x68, 0x69]] else none

theorem sample_suits : Suits sampleHost sample where
  nothing := by decide
  agrees := by simp [sample, Agrees, sampleHost, skipped]
  small := by
    simp only [sample, MksfsTree.Small, visible]
    decide
  room := by decide
  plain := by simp [sample, Plain, skipped]

theorem sample_made : ∃ final, createImg (fun _ => zeros) (40 * 4096) [] sample = .ok final := by
  have made : (createImg (fun _ => zeros) (40 * 4096) [] sample).toOption.isSome = true := by decide +kernel
  cases ran : createImg (fun _ => zeros) (40 * 4096) [] sample with
  | ok final => exact ⟨final, rfl⟩
  | error halt =>
      rw [ran] at made
      cases made

/-- The device the image is on. -/
def imageDevice (blocks : Nat → Block) : Device := ⟨40, blocks, by decide⟩

theorem imageDevice_room (blocks : Nat → Block) :
    (Mksfs.imageBlocks (40 * 4096)).toNat ≤ (imageDevice blocks).dBlocks :=
  show (Mksfs.imageBlocks (40 * 4096)).toNat ≤ 40 by decide

theorem createImg_mirrors_sample : ∃ final vol s, createImg (fun _ => zeros) (40 * 4096) [] sample = .ok final ∧
    Mounts (imageDevice final) vol s ∧ RootShows vol sample ∧ LinkCounts vol := by
  obtain ⟨final, ran⟩ := sample_made
  obtain ⟨vol, s, shown⟩ := @createImg_mirrors _ _ _ _ _ _ (imageDevice final) sample_suits ran rfl
    (imageDevice_room final)
  exact ⟨final, vol, s, ran, shown⟩

end Ucore.Tools.MksfsMirror
