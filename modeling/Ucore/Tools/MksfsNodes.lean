import Ucore.Tools.MksfsBlocks

/-! # The files of an image in the making

What the tool knows of a file, apart from where its blocks are. Each function adds blocks to
one file, and leaves the other files as they are.
-/

namespace Ucore.Tools.MksfsNodes

open Lib.Bytes Lib.HashChain Lib.Outcome Mksfs MksfsImage MksfsBlocks

/-- A file with what is in its blocks, in order. -/
@[ext] structure Node where
  type : UInt16
  size : UInt32
  contents : List Block

def Node.append (node : Node) (blocks : List Block) (size : UInt32) : Node :=
  { node with size := node.size + size, contents := node.contents ++ blocks }

def node (t : Tool) (file : Nat) : Node where
  type := (t.body file).inode.type
  size := (t.body file).inode.size
  contents := (numbers t file).map t.img

def links (t : Tool) (file : Nat) : UInt16 := (t.body file).inode.nlinks

variable {t t' u : Tool} {made : List CacheInode} {held : List Nat} {ci di fi : CacheInode}
variable {blocks blocks' : List Block} {size size' : UInt32} {Q : Tool → Prop}

theorem Node.append_append (node : Node) : (node.append blocks size).append blocks' size' =
    node.append (blocks ++ blocks') (size + size') := by
  simp only [Node.append, List.append_assoc, UInt32.add_assoc]

theorem Node.append_nil (node : Node) : node.append [] 0 = node := by
  simp only [Node.append, List.append_nil, UInt32.add_zero]

theorem length_contents (t : Tool) (file : Nat) : (node t file).contents.length = (t.body file).nblks.toNat := by
  simp [node, numbers]

/-- One file has more blocks. -/
structure Adds (t t' : Tool) (made : List CacheInode) (ci : CacheInode) (blocks : List Block) (size : UInt32) :
    Prop where
  sound : Sound t' made []
  ninos : t'.sfs.ninos = t.sfs.ninos
  self : node t' ci.addr = (node t ci.addr).append blocks size
  others : ∀ di ∈ made, di ≠ ci → node t' di.addr = node t di.addr

theorem Adds.refl (sound : Sound t made []) (ci : CacheInode) : Adds t t made ci [] 0 :=
  ⟨sound, rfl, (Node.append_nil _).symm, fun _ _ _ => rfl⟩

theorem Adds.trans (first : Adds t u made ci blocks size) (second : Adds u t' made ci blocks' size') :
    Adds t t' made ci (blocks ++ blocks') (size + size') where
  sound := second.sound
  ninos := second.ninos.trans first.ninos
  self := by rw [second.self, first.self, Node.append_append]
  others di inside ne := (second.others di inside ne).trans (first.others di inside ne)

/-- What is in hand is not among the numbers of a file. -/
theorem held_apart {n : Nat} (sound : Sound t made (n :: held)) (inside : di ∈ made) : n ∉ numbers t di.addr := by
  intro mine
  have distinct := sound.numbers.nodup_iff.mpr sound.counted.nodup_given
  rw [List.cons_append, List.nodup_cons] at distinct
  refine distinct.1 (List.mem_append_right _ (List.mem_flatMap.mpr ⟨di, inside, ?_⟩))
  exact List.mem_cons_of_mem _ (List.mem_append_right _ mine)

/-- A block of data is taken, written, and put at the end of a file. -/
theorem store_ends (data : List UInt8) (length : Nat) (sound : Sound t made []) (member : ci ∈ made)
    (room : (node t ci.addr).contents.length < SFS_L1_NBLKS)
    (post : ∀ t', data.length ≤ SFS_BLKSIZE → Adds t t' made ci [patch zeros 0 data] (UInt32.ofNat length) →
      links t' = links t → Q t') :
    Ends (allocIno t) fun r => Ends (writeBlock r.2 data r.1) fun u => Ends (appendBlock u ci.addr length r.1) Q := by
  refine (allocIno_ends sound).mono ?_
  rintro r ⟨rfl, taken⟩
  rw [writeBlock, ends_ite]
  refine ⟨fun fits => ends_ok.mpr ?_, fun _ => ends_error⟩
  set w : Tool := { t with
    sfs := takeIno t.sfs
    img := Function.update t.img t.sfs.nextIno.toNat (patch zeros 0 data) } with written
  have soundw : Sound w made (t.sfs.nextIno.toNat :: []) := { taken with }
  have few : (w.body ci.addr).nblks.toNat < SFS_L1_NBLKS := by
    rw [← length_contents]
    simpa [node, numbers] using room
  refine (appendBlock_ends length soundw member few).mono ?_
  rintro t' ⟨img, -, body', fresh, grown, longer⟩
  have same : ∀ di ∈ made, (numbers w di.addr).map w.img = (numbers t di.addr).map t.img := by
    intro di inside
    refine List.map_congr_left fun n mine => ?_
    have ne : n ≠ t.sfs.nextIno.toNat := by
      rintro rfl
      exact held_apart soundw inside mine
    exact Function.update_of_ne ne ..
  refine post t' fits.1 ⟨grown.sound soundw member, grown.ninos, ?_, fun di inside ne => ?_⟩ ?_
  · ext1
    · exact (congrArg (·.inode.type) grown.body_self).trans longer.type
    · exact (congrArg (·.inode.size) grown.body_self).trans longer.size
    · simp only [node, Node.append]
      rw [grown.numbers_self, List.map_append, img, same ci member, List.map_singleton]
      simp only [written, Function.update_self]
  · have body : t'.body di.addr = t.body di.addr := grown.body_of_ne (Grown.apart_addr soundw member inside ne)
    simp only [node, body, grown.numbers_other soundw member inside ne, img, same di inside]
  · funext file
    by_cases here : file = ci.addr
    · subst here
      exact (congrArg (·.inode.nlinks) grown.body_self).trans longer.nlinks
    · exact congrArg (·.inode.nlinks) (grown.body_of_ne here)

/-! ## New inodes -/

theorem pushInode_sound {sfs : SfsFs} {real : UInt64} {type : UInt16}
    (sound : Sound { t with sfs := sfs } made [ci.ino.toNat]) (addr : ci.addr = sfs.mallocs) :
    Sound { t with
      sfs := { sfs with inodes := push sfs.inodes (Mksfs.hash64 real) ci, mallocs := sfs.mallocs + 1 }
      body := Function.update t.body ci.addr ⟨{ type }, 0, none, none⟩ } (ci :: made) [] := by
  have new : ∀ di ∈ made, di.addr ≠ ci.addr := by
    intro di inside same
    have := (sound.old di inside).1
    simp only [same, addr] at this
    omega
  have body : ∀ di ∈ made, Function.update t.body ci.addr ⟨{ type }, 0, none, none⟩ di.addr = t.body di.addr :=
    fun di inside => Function.update_of_ne (new di inside) ..
  have mine : Function.update t.body ci.addr ⟨{ type }, 0, none, none⟩ ci.addr = ⟨{ type }, 0, none, none⟩ :=
    Function.update_self ..
  have counted := sound.counted
  refine
    { counted := ⟨counted.first, counted.below, counted.size, counted.unused⟩
      inodes := fun di => ?_
      blocks := fun cb => ?_
      buckets := fun b high => ⟨push_high (hash64_lt real) high (sound.buckets b high).1, (sound.buckets b high).2⟩
      addrs := ?_
      old := fun di inside => ?_
      apart := fun di left ei right x y first second clash => ?_
      shape := fun di inside => ?_
      numbers := ?_ }
  · change (∃ b, di ∈ push sfs.inodes (Mksfs.hash64 real) ci b) ↔ _
    rw [mem_push, List.mem_cons, ← sound.inodes]
  · rw [List.exists_mem_cons_iff]
    simp only [mine, reduceCtorEq, false_or]
    refine (sound.blocks cb).trans (exists_congr fun di => and_congr_right fun inside => ?_)
    rw [body di inside]
  · rw [List.map_cons, List.nodup_cons]
    refine ⟨fun here => ?_, sound.addrs⟩
    obtain ⟨di, inside, same⟩ := List.mem_map.mp here
    exact new di inside same
  · rcases List.mem_cons.mp inside with rfl | inside
    · refine ⟨by simp [addr], fun cb index => ?_⟩
      simp only [mine, reduceCtorEq] at index
    · have bound := sound.old di inside
      simp only [body di inside]
      exact ⟨Nat.lt_succ_of_lt bound.1, fun cb index => Nat.lt_succ_of_lt (bound.2 cb index)⟩
  · rcases List.mem_cons.mp left with rfl | left
    · simp only [mine, reduceCtorEq] at first
    · rcases List.mem_cons.mp right with rfl | right
      · simp only [mine, reduceCtorEq] at second
      · simp only [body _ left, body _ right] at first second
        exact sound.apart di left ei right x y first second clash
  · rcases List.mem_cons.mp inside with rfl | inside
    · simp only [mine]
      refine ⟨rfl, Nat.zero_le _, rfl, fun k _ _ => ?_, by simp, rfl⟩
      by_cases low : k < SFS_NDIRECT
      · rw [mapped, if_pos low, List.getD_eq_getElem?_getD, List.getElem?_replicate]
        simp [low]
      · rw [mapped, if_neg low]
        rfl
    · simp only [body di inside]
      exact sound.shape di inside
  · rw [List.flatMap_cons, List.nil_append]
    have fresh : own { t with
        sfs := { sfs with inodes := push sfs.inodes (Mksfs.hash64 real) ci, mallocs := sfs.mallocs + 1 }
        body := Function.update t.body ci.addr ⟨{ type }, 0, none, none⟩ } ci = [ci.ino.toNat] := by
      simp only [own, numbers, indexes, mine]
      rfl
    have old := List.flatMap_congr (l := made) (f := own { t with
        sfs := { sfs with inodes := push sfs.inodes (Mksfs.hash64 real) ci, mallocs := sfs.mallocs + 1 }
        body := Function.update t.body ci.addr ⟨{ type }, 0, none, none⟩ }) (g := own { t with sfs := sfs })
      fun di inside => by simp only [own, numbers, body di inside]
    rw [fresh, old]
    exact sound.numbers

/-- An inode with a fresh number and nothing in it. -/
structure Made (t t' : Tool) (made : List CacheInode) (ci : CacheInode) (real : UInt64) (type : UInt16) : Prop where
  sound : Sound t' (ci :: made) []
  ninos : t'.sfs.ninos = t.sfs.ninos
  new : ci ∉ made
  real : ci.real = real
  self : node t' ci.addr = ⟨type, 0, []⟩
  others : ∀ di ∈ made, node t' di.addr = node t di.addr
  link : links t' ci.addr = 0
  links : ∀ di ∈ made, links t' di.addr = links t di.addr

theorem allocInode_ends (sound : Sound t made []) (real : UInt64) (type : UInt16) :
    Ends (allocInode t real 0 type) fun r => Made t r.2 made r.1 real type := by
  rw [allocInode, allocCacheInode, chooseIno, if_neg (by simp)]
  simp only [ends_bind]
  refine (sfsAllocIno_ends sound.counted).mono ?_
  rintro r ⟨rfl, counted, more⟩
  simp only [ends_pure]
  have taken : Sound { t with sfs := takeIno t.sfs } made [t.sfs.nextIno.toNat] :=
    { sound with counted := counted, numbers := (sound.numbers.cons _).trans more.symm }
  set ci : CacheInode := { addr := t.sfs.mallocs, inode := { type }, real, ino := t.sfs.nextIno } with fresh
  have new : ∀ di ∈ made, di.addr ≠ (takeIno t.sfs).mallocs := by
    intro di inside same
    have := (sound.old di inside).1
    rw [same] at this
    exact absurd this (Nat.lt_irrefl _)
  refine
    { sound := pushInode_sound taken (show ci.addr = _ from rfl)
      ninos := rfl
      new := fun inside => new ci inside rfl
      real := rfl
      self := ?_
      others := fun di inside => ?_
      link := ?_
      links := fun di inside => ?_ }
  · simp only [node, numbers, Function.update_self]
    rfl
  · simp only [node, numbers, Function.update_of_ne (new di inside)]
  · simp only [MksfsNodes.links, Function.update_self]
  · simp only [MksfsNodes.links, Function.update_of_ne (new di inside)]

/-! ## Files and entries -/

/-- Each call of `read` but the last has filled its buffer. -/
def Full (last : Nat) : List (List UInt8) → Prop
  | [] => True
  | data :: reads => last = SFS_BLKSIZE ∧ data.length ≤ SFS_BLKSIZE ∧ Full data.length reads

def fileSize (reads : List (List UInt8)) : UInt32 := (reads.map fun data => UInt32.ofNat data.length).sum

theorem openFile_ends (reads : List (List UInt8)) (last : Nat) (sound : Sound t made []) (member : ci ∈ made)
    (room : (node t ci.addr).contents.length + reads.length ≤ SFS_L1_NBLKS) :
    Ends (openFile ci.addr reads last t) fun t' => Adds t t' made ci (reads.map (patch zeros 0)) (fileSize reads) ∧
      links t' = links t ∧ Full last reads := by
  induction reads generalizing t last with
  | nil =>
      rw [openFile, ends_ok]
      exact ⟨Adds.refl sound ci, rfl, trivial⟩
  | cons data reads ih =>
      rw [openFile, ends_ite]
      refine ⟨fun _ => ends_error, fun full => ?_⟩
      rw [List.length_cons] at room
      simp only [ends_bind]
      refine store_ends data data.length sound member (by omega) fun u fits added linked => ?_
      have longer : (node u ci.addr).contents.length = (node t ci.addr).contents.length + 1 := by
        rw [added.self]
        simp [Node.append]
      refine (ih data.length added.sound (by omega)).mono ?_
      rintro t' ⟨rest, linked', full'⟩
      exact ⟨added.trans rest, linked'.trans linked, Classical.not_not.mp full, fits, full'⟩

theorem openLink_ends {target : List UInt8} (sound : Sound t made []) (member : ci ∈ made)
    (room : (node t ci.addr).contents.length < SFS_L1_NBLKS) :
    Ends (openLink t ci.addr target) fun t' =>
      Adds t t' made ci [patch zeros 0 target] (UInt32.ofNat target.length) ∧ links t' = links t ∧
        target.length ≤ SFS_BLKSIZE := by
  rw [openLink, ends_bind]
  refine (store_ends target target.length sound member room
    fun t' fits added linked => And.intro added (And.intro linked fits)).mono ?_
  intro r ends
  rw [ends_ite, ends_bind]
  exact ⟨fun _ => ends_error, fun _ => ends⟩

/-- The block of an entry, with what may be left in it of names longer than this one. -/
def Entry (ino : UInt32) (name : List UInt8) (b : Block) : Prop :=
  ∃ before : Block, b = patch zeros 0 (entryBytes ino (patch before 0 (name ++ [0])))

/-- `file->inode.nlinks ++` -/
def relink (t : Tool) (file : Nat) : Tool :=
  t.setBody file { (t.body file) with inode := { (t.body file).inode with nlinks := (t.body file).inode.nlinks + 1 } }

theorem relink_body (t : Tool) (file a : Nat) : (relink t file).body a =
    { (t.body a) with inode := { (t.body a).inode with
      nlinks := Function.update (links t) file (links t file + 1) a } } := by
  by_cases here : a = file
  · subst here
    simp only [relink, Tool.setBody, Function.update_self, links]
  · simp only [relink, Tool.setBody, Function.update_of_ne here, links]

theorem numbers_relink (t : Tool) (file a : Nat) : numbers (relink t file) a = numbers t a := by
  simp only [numbers, relink_body]
  rfl

theorem node_relink (t : Tool) (file a : Nat) : node (relink t file) a = node t a := by
  simp only [node, numbers_relink, relink_body]
  rfl

theorem links_relink (t : Tool) (file : Nat) :
    links (relink t file) = Function.update (links t) file (links t file + 1) := by
  funext a
  rw [links, relink_body]

theorem relink_sound (sound : Sound t made held) (file : Nat) : Sound (relink t file) made held := by
  have same : own (relink t file) = own t := by
    funext di
    simp only [own, indexes, numbers_relink, relink_body]
  refine
    { sound with
      blocks := fun cb => by simp only [relink_body]; exact sound.blocks cb
      old := fun di inside => by simp only [relink_body]; exact sound.old di inside
      apart := fun di left ei right x y => by simp only [relink_body]; exact sound.apart di left ei right x y
      shape := fun di inside => ?_
      numbers := by rw [same]; exact sound.numbers }
  have shape := sound.shape di inside
  simp only [relink_body]
  exact ⟨shape.blocks, shape.few, shape.direct, shape.spare, shape.index, shape.indirect⟩

theorem addEntry_ends {name : List UInt8} (sound : Sound t made []) (member : ci ∈ made)
    (room : (node t ci.addr).contents.length < SFS_L1_NBLKS) :
    Ends (addEntry t ci.addr fi name) fun t' => ∃ b, Entry fi.ino name b ∧
      Adds t t' made ci [b] (UInt32.ofNat SIZEOF_NAME) ∧
      links t' = Function.update (links t) fi.addr (links t fi.addr + 1) ∧ (node t ci.addr).type = SFS_TYPE_DIR := by
  rw [addEntry, ends_ite]
  refine ⟨fun allowed => ?_, fun _ => ends_error⟩
  simp only [ends_bind]
  have named : Sound { t with name := patch t.name 0 (name ++ [0]) } made [] := { sound with }
  have here : (node { t with name := patch t.name 0 (name ++ [0]) } ci.addr).contents.length < SFS_L1_NBLKS := by
    simpa only [node, numbers] using room
  have stored := store_ends (entryBytes fi.ino (patch t.name 0 (name ++ [0]))) SIZEOF_NAME named member here
    fun u _ added linked => And.intro added linked
  refine ((allocIno_ends named).and stored).mono ?_
  rintro r ⟨⟨rfl, -⟩, ends⟩
  refine ends.mono fun v ends => ends.mono fun u added => ends_pure.mpr ?_
  obtain ⟨added, linked⟩ := added
  refine ⟨_, ⟨t.name, rfl⟩, ⟨relink_sound added.sound fi.addr, added.ninos, ?_, fun di inside ne => ?_⟩, ?_, allowed.1⟩
  · rw [← relink, node_relink, added.self]
    rfl
  · rw [← relink, node_relink, added.others di inside ne]
    rfl
  · rw [← relink, links_relink, linked]
    rfl

end Ucore.Tools.MksfsNodes
