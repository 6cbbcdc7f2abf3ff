import Ucore.Tools.MksfsMirror

/-! # Names in an image

What the kernel finds when it looks for a name in a directory of an image: the file of that
name on the host, if there is not too much of it, and nothing else but the entries every
directory has.
-/

namespace Ucore.Tools.MksfsLookup

open Lib.Bytes Lib.Counts Lib.Program.Prog Fs
open MksfsImage MksfsVolume MksfsMirror
open Sfs (Device DiskEntry DiskInode)
open InodeCalls (sfsLoadInode)
open Volumes (Volume Holds Now Regular refs)
open Directory (Dir Tree slots used lookup string sfsLookupOnce)

/-- What may have a name. -/
inductive Item where
  | file (reads : List (List UInt8))
  | link (target : List UInt8)
  | dir (entries : Listing)

/-- What is listed and not hidden, with the names. -/
def items : Listing → List (List UInt8 × Item)
  | .done => []
  | .file name _ reads rest => if skipped name then items rest else (name, .file reads) :: items rest
  | .link name _ target rest => if skipped name then items rest else (name, .link target) :: items rest
  | .dir name _ entries rest => if skipped name then items rest else (name, .dir entries) :: items rest
  | .other _ rest => items rest

def Kind (vol : Volume) (dir : Nat) : Item → Nat → Prop
  | .file reads, ino => FileAt vol Sfs.SFS_TYPE_FILE ino reads.flatten
  | .link target, ino => FileAt vol Sfs.SFS_TYPE_LINK ino target
  | .dir entries, ino => DirAt vol ino dir (Mirrors vol entries ino)

/-- The part of a name that is in its entry. -/
def cut (item : List UInt8 × Item) : List UInt8 := item.1.take SHOWN

def Matches (vol : Volume) (dir : Nat) (item : List UInt8 × Item) (entry : DiskEntry) : Prop :=
  string entry.name = cut item ∧ Kind vol dir item.2 entry.ino

variable {vol : Volume} {s : Sfs.SfsFs} {dir parent : Nat} {listing : Listing} {item : List UInt8 × Item}
variable {entries : List DiskEntry} {its : List (List UInt8 × Item)} {name : List UInt8} {ino : Nat}

theorem leadsTo_matches (thing : Item) {rest : Listing} {shows : List DiskEntry → Prop}
    (leads : LeadsTo name (Kind vol dir thing) shows entries)
    (behind : ∀ others, shows others → List.Forall₂ (Matches vol dir) (items rest) others) :
    List.Forall₂ (Matches vol dir) (if skipped name then items rest else (name, thing) :: items rest) entries := by
  rw [LeadsTo] at leads
  split at leads
  · rename_i hidden
    rw [if_pos hidden]
    exact behind _ leads
  · rename_i shown
    rw [if_neg shown]
    obtain ⟨entry, others, rfl, names, kind, more⟩ := leads
    exact .cons ⟨names.2, kind⟩ (behind _ more)

/-- The entries are those of the items, one by one. -/
theorem mirrors_matches (mirrors : Mirrors vol listing dir entries) :
    List.Forall₂ (Matches vol dir) (items listing) entries := by
  induction listing generalizing entries with
  | done =>
      rw [Mirrors] at mirrors
      rw [mirrors]
      exact .nil
  | file name real reads rest ih => exact leadsTo_matches (.file reads) mirrors fun _ behind => ih behind
  | link name real target rest ih => exact leadsTo_matches (.link target) mirrors fun _ behind => ih behind
  | dir name real inside rest _ ih => exact leadsTo_matches (.dir inside) mirrors fun _ behind => ih behind
  | other name rest ih => exact ih mirrors

theorem items_shown (member : item ∈ items listing) : skipped item.1 = false := by
  induction listing with
  | done => cases member
  | other name rest ih => exact ih member
  | file name real reads rest ih | link name real target rest ih | dir name real inside rest _ ih =>
      rw [items] at member
      split at member
      · exact ih member
      · rename_i shown
        rcases List.mem_cons.mp member with rfl | member
        · simpa using shown
        · exact ih member

/-- A name that is shown is that of no entry every directory has. -/
theorem cut_ne (member : item ∈ items listing) : cut item ≠ dot ∧ cut item ≠ dotdot := by
  have shown := items_shown member
  have head : item.1.head? = (cut item).head? := by
    rw [cut, List.head?_take, if_neg (by decide)]
  rw [skipped, head, decide_eq_false_iff_not] at shown
  refine ⟨fun same => shown ?_, fun same => shown ?_⟩
  · rw [same]
    rfl
  · rw [same]
    rfl

theorem kind_file {thing : Item} (kind : Kind vol dir thing ino) : ∃ din, (ino, din) ∈ vol.files := by
  cases thing with
  | file reads =>
      obtain ⟨din, inside, -⟩ := kind
      exact ⟨din, inside⟩
  | link target =>
      obtain ⟨din, inside, -⟩ := kind
      exact ⟨din, inside⟩
  | dir entries =>
      obtain ⟨din, inside, -⟩ := kind
      exact ⟨din, inside⟩

/-- No file has the number 0. -/
theorem file_ne_zero (holds : Holds s vol) {din : DiskInode} (inside : (ino, din) ∈ vol.files) : ino ≠ 0 := by
  obtain ⟨others, held, inv, perm⟩ := holds.inv
  exact (inv.inuse_of_file (perm.mem_iff.mpr inside) List.mem_cons_self).1

/-- The entry is that of the name: what `lookup` asks of it. -/
def Hits (name : List UInt8) (entry : DiskEntry) : Prop := entry.ino ≠ 0 ∧ name = string entry.name

instance (name : List UInt8) (entry : DiskEntry) : Decidable (Hits name entry) := inferInstanceAs (Decidable (_ ∧ _))

theorem lookup_eq (vol : Volume) (dir : Nat) (name : List UInt8) :
    lookup vol dir name = ((slots vol dir).find? fun entry => Hits name entry).map DiskEntry.ino := by
  rw [lookup, used, List.find?_filter]
  congr 2
  funext entry
  by_cases zero : entry.ino = 0 <;> simp [Hits, zero]

/-- With distinct names, the first entry of a name is that of its item. -/
theorem find_matches (all : List.Forall₂ (Matches vol dir) its entries) (distinct : (its.map cut).Nodup)
    (nonzero : ∀ entry ∈ entries, entry.ino ≠ 0) (member : item ∈ its) :
    ∃ entry, entries.find? (fun entry => Hits (cut item) entry) = some entry ∧ Matches vol dir item entry := by
  induction all with
  | nil => cases member
  | @cons first entry its entries matched rest ih =>
      obtain ⟨new, distinct⟩ := List.nodup_cons.mp distinct
      rw [List.find?_cons]
      rcases List.mem_cons.mp member with rfl | member
      · have hits : Hits (cut item) entry := ⟨nonzero entry List.mem_cons_self, matched.1.symm⟩
        exact ⟨entry, by rw [decide_eq_true hits], matched⟩
      · have misses : ¬ Hits (cut item) entry := fun hits =>
          new (by rw [← matched.1, ← hits.2]; exact List.mem_map_of_mem member)
        rw [decide_eq_false misses]
        exact ih distinct (fun e inside => nonzero e (List.mem_cons_of_mem _ inside)) member

theorem entry_item {entry : DiskEntry} (all : List.Forall₂ (Matches vol dir) its entries) (inside : entry ∈ entries) :
    ∃ item ∈ its, Matches vol dir item entry := by
  induction all with
  | nil => cases inside
  | @cons first other its others matched rest ih =>
      rcases List.mem_cons.mp inside with rfl | inside
      · exact ⟨first, List.mem_cons_self, matched⟩
      · obtain ⟨item, member, matched⟩ := ih inside
        exact ⟨item, List.mem_cons_of_mem _ member, matched⟩

/-- The search for a name passes over the entries every directory has. -/
theorem lookup_past {self above : DiskEntry} (slots : slots vol dir = self :: above :: entries)
    (first : Names self dir dot)
    (second : Names above parent dotdot) (here : name ≠ dot) (up : name ≠ dotdot) :
    lookup vol dir name = (entries.find? fun entry => Hits name entry).map DiskEntry.ino := by
  have one : ¬ Hits name self := fun hits => here (hits.2.trans first.2)
  have two : ¬ Hits name above := fun hits => up (hits.2.trans second.2)
  rw [lookup_eq, slots, List.find?_cons, decide_eq_false one, List.find?_cons, decide_eq_false two]

theorem lookup_cut (holds : Holds s vol) (at' : DirAt vol dir parent (Mirrors vol listing dir))
    (distinct : ((items listing).map cut).Nodup) (member : item ∈ items listing) :
    ∃ ino, lookup vol dir (cut item) = some ino ∧ Kind vol dir item.2 ino := by
  obtain ⟨din, -, -, self, above, entries, slots, first, second, mirrors⟩ := at'
  have all := mirrors_matches mirrors
  have nonzero : ∀ entry ∈ entries, entry.ino ≠ 0 := by
    intro entry inside
    obtain ⟨item, -, matched⟩ := entry_item all inside
    obtain ⟨din, file⟩ := kind_file matched.2
    exact file_ne_zero holds file
  obtain ⟨entry, found, matched⟩ := find_matches all distinct nonzero member
  have past := lookup_past slots first second (cut_ne member).1 (cut_ne member).2
  exact ⟨entry.ino, by rw [past, found, Option.map_some], matched.2⟩

/-- The volume in a small image. -/
theorem sample_volume : ∃ vol s, Holds s vol ∧ s.faults = [] ∧ RootShows vol sample ∧ Tree vol := by
  obtain ⟨final, ran⟩ := sample_made
  obtain ⟨t, made, s, size, built, closed, mounts⟩ :=
    @createImg_mounts _ _ _ _ _ _ (imageDevice final) sample_suits ran rfl (imageDevice_room final)
  refine ⟨_, s, mounts.holds, mounts.fresh.faults, built_shows built closed sample_suits.plain, ?_⟩
  exact built_tree built closed (by rw [size]; decide) sample_suits.plain

theorem sample_distinct : ((items sample).map cut).Nodup := by decide

/-- A file of the host is found under its name exactly when the whole name is in its entry. -/
theorem lookup_mirrored (holds : Holds s vol) (at' : DirAt vol dir parent (Mirrors vol listing dir))
    (distinct : ((items listing).map cut).Nodup) (member : item ∈ items listing) :
    (∃ ino, lookup vol dir item.1 = some ino ∧ Kind vol dir item.2 ino) ↔ item.1.length ≤ SHOWN := by
  constructor
  · rintro ⟨ino, found, -⟩
    obtain ⟨din, -, -, self, above, entries, slots, first, second, mirrors⟩ := at'
    rw [lookup_eq, slots] at found
    obtain ⟨entry, search, -⟩ := Option.map_eq_some_iff.mp found
    have hits : Hits item.1 entry := by simpa using List.find?_some search
    have short : (string entry.name).length ≤ SHOWN := by
      rcases List.mem_cons.mp (List.mem_of_find?_eq_some search) with rfl | later
      · rw [first.2]
        exact List.length_take_le ..
      · rcases List.mem_cons.mp later with rfl | later
        · rw [second.2]
          exact List.length_take_le ..
        · obtain ⟨other, -, matched⟩ := entry_item (mirrors_matches mirrors) later
          rw [matched.1]
          exact List.length_take_le ..
    rw [hits.2]
    exact short
  · intro short
    have whole : cut item = item.1 := List.take_of_length_le short
    rw [← whole]
    exact lookup_cut holds at' distinct member

theorem lookup_mirrored_sample : ∃ vol, ∃ ino, lookup vol Sfs.SFS_BLKN_ROOT [0x61] = some ino ∧
    FileAt vol Sfs.SFS_TYPE_FILE ino [0x68, 0x6f] := by
  obtain ⟨vol, s, holds, -, root, -⟩ := sample_volume
  have listed : (([0x61], .file [[0x68, 0x6f]]) : List UInt8 × Item) ∈ items sample := by simp [sample, items, skipped]
  exact ⟨vol, (lookup_mirrored holds root sample_distinct listed).mpr (by decide)⟩

/-- What is found under a name is the directory, the one above it, or what is listed under a
    name that begins like this. -/
theorem lookup_only (at' : DirAt vol dir parent (Mirrors vol listing dir)) (found : lookup vol dir name = some ino) :
    name = dot ∧ ino = dir ∨ name = dotdot ∧ ino = parent ∨ ∃ item ∈ items listing, name = cut item ∧
    Kind vol dir item.2 ino := by
  obtain ⟨din, -, -, self, above, entries, slots, first, second, mirrors⟩ := at'
  rw [lookup_eq, slots] at found
  obtain ⟨entry, search, rfl⟩ := Option.map_eq_some_iff.mp found
  have hits : Hits name entry := by simpa using List.find?_some search
  rcases List.mem_cons.mp (List.mem_of_find?_eq_some search) with rfl | later
  · exact .inl ⟨hits.2.trans first.2, first.1⟩
  · rcases List.mem_cons.mp later with rfl | later
    · exact .inr (.inl ⟨hits.2.trans second.2, second.1⟩)
    · obtain ⟨item, member, matched⟩ := entry_item (mirrors_matches mirrors) later
      exact .inr (.inr ⟨item, member, hits.2.trans matched.1, matched.2⟩)

theorem lookup_only_sample : ∃ vol, ∀ ino, lookup vol Sfs.SFS_BLKN_ROOT [0x61] = some ino →
    ∃ item ∈ items sample, [0x61] = cut item ∧ Kind vol Sfs.SFS_BLKN_ROOT item.2 ino := by
  obtain ⟨vol, s, -, -, root, -⟩ := sample_volume
  refine ⟨vol, fun ino found => ?_⟩
  rcases lookup_only root found with ⟨same, -⟩ | ⟨same, -⟩ | listed
  · exact absurd same (by decide)
  · exact absurd same (by decide)
  · exact listed

/-! ## Looking up -/

/-- The file that has been looked up, in the state after it. -/
structure Found (vol : Volume) (dir : Nat) (thing : Item) (q : Nat) (t : Sfs.SfsFs) : Prop where
  holds : Holds t vol
  works : t.faults = []
  member : q ∈ t.inodeList
  kind : Kind vol dir thing (t.nodes q).ino

end Ucore.Tools.MksfsLookup
