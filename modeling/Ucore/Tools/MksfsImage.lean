import Ucore.Tools.Mksfs

/-! # How `mksfs` makes an image

The rest of `mksfs.c`. The inodes and index blocks in the caches have addresses; the fields of
an inode that change after it was made, and the bytes of an index block, are kept by address.
What the host answers, when it lists a directory or reads a file, is given.
-/

namespace Ucore.Tools.MksfsImage

open Lib.Bytes Mksfs

def SFS_MAGIC : Nat := 0x2f8dbe2a
def SFS_MAX_FNAME_LEN : Nat := 255
def SFS_MAX_FILE_SIZE : Nat := 1024 * 1024 * 128
def SFS_TYPE_FILE : UInt16 := 1
def SFS_TYPE_LINK : UInt16 := 3
def SFS_BLKN_SUPER : UInt32 := 0

def SFS_BLK_NENTRY : Nat := SFS_BLKSIZE / 4
def SFS_L0_NBLKS : Nat := SFS_NDIRECT
def SFS_L1_NBLKS : Nat := SFS_BLK_NENTRY + SFS_L0_NBLKS
def SFS_L2_NBLKS : Nat := SFS_BLK_NENTRY * SFS_BLK_NENTRY + SFS_L1_NBLKS
def SFS_LN_NBLKS : Nat := SFS_MAX_FILE_SIZE / SFS_BLKSIZE

/-- `sizeof(entry->name)` -/
def SIZEOF_NAME : Nat := SFS_MAX_FNAME_LEN + 1

/-- The fields of a cached inode that change. -/
structure Body where
  inode : Inode
  nblks : UInt32
  l1 : Option CacheBlock
  l2 : Option CacheBlock

/-- `name` is that of the static entry, with what earlier names have left behind in it. -/
structure Tool where
  sfs : SfsFs
  body : Nat → Body
  cache : Nat → Block
  name : Block
  img : Nat → Block

namespace Tool

def setBody (t : Tool) (file : Nat) (body : Body) : Tool := { t with body := Function.update t.body file body }

/-- `data[k] = ino` for the bytes of a cached block. -/
def setWord (t : Tool) (addr k : Nat) (ino : UInt32) : Tool :=
  { t with cache := Function.update t.cache addr (patch (t.cache addr) (4 * k) (toLe 4 ino.toNat)) }

end Tool

def writeBlock (t : Tool) (data : List UInt8) (ino : UInt32) : Except Halt Tool :=
  if data.length ≤ SFS_BLKSIZE ∧ ino < t.sfs.ninos then
    .ok { t with img := Function.update t.img ino.toNat (patch zeros 0 data) }
  else .error .assertion

def allocIno (t : Tool) : Except Halt (UInt32 × Tool) := do
  let (ino, sfs) ← sfsAllocIno t.sfs
  pure (ino, { t with sfs := sfs })

def allocInode (t : Tool) (real : UInt64) (ino : UInt32) (type : UInt16) : Except Halt (CacheInode × Tool) := do
  let (ci, sfs) ← allocCacheInode t.sfs real ino type
  pure (ci, { t with sfs := sfs, body := Function.update t.body ci.addr ⟨ci.inode, ci.nblks, ci.l1, ci.l2⟩ })

/-- `update_cache`, and the bytes of a block that is new. -/
def update (t : Tool) (cbp : Option CacheBlock) (inop : UInt32) : Except Halt (CacheBlock × UInt32 × Tool) := do
  let ((cbp, ino), sfs) ← updateCache t.sfs cbp inop
  match cbp with
  | none => .error .assertion
  | some cb =>
      let cache := if inop = 0 then Function.update t.cache cb.addr cb.cache else t.cache
      pure (cb, ino, { t with sfs := sfs, cache := cache })

/-- The block goes into the map of the file. -/
def place (t : Tool) (file : Nat) (ino : UInt32) : Except Halt Tool :=
  let body := t.body file
  let nblks := body.nblks.toNat
  if nblks < SFS_L0_NBLKS then
    .ok (t.setBody file { body with inode := { body.inode with direct := body.inode.direct.set nblks ino } })
  else if nblks < SFS_L1_NBLKS then do
    let (l1, indirect, t) ← update t body.l1 body.inode.indirect
    let t := t.setBody file { body with l1 := some l1, inode := { body.inode with indirect := indirect } }
    pure (t.setWord l1.addr (nblks - SFS_L0_NBLKS) ino)
  else if nblks < SFS_L2_NBLKS then do
    let nblks := nblks - SFS_L1_NBLKS
    let (l2, dbIndirect, t) ← update t body.l2 body.inode.dbIndirect
    let (l1, entry, t) ← update t body.l1 (UInt32.ofNat (word (t.cache l2.addr) (nblks / SFS_BLK_NENTRY)))
    let t := t.setWord l2.addr (nblks / SFS_BLK_NENTRY) entry
    let t := t.setBody file
      { body with l1 := some l1, l2 := some l2, inode := { body.inode with dbIndirect := dbIndirect } }
    pure (t.setWord l1.addr (nblks % SFS_BLK_NENTRY) ino)
  else .ok t

def appendBlock (t : Tool) (file size : Nat) (ino : UInt32) : Except Halt Tool :=
  if SFS_BLKSIZE < size then .error .assertion
  else if SFS_LN_NBLKS ≤ (t.body file).nblks.toNat then .error .bug
  else do
    let t ← place t file ino
    let body := t.body file
    pure (t.setBody file { body with
      nblks := body.nblks + 1
      inode := { body.inode with size := body.inode.size + UInt32.ofNat size, blocks := body.inode.blocks + 1 } })

/-- The first bytes of the entry are written, as many as there are in its name. -/
def entryBytes (ino : UInt32) (name : Block) : List UInt8 :=
  (toLe 4 ino.toNat ++ slice name 0 SIZEOF_NAME).take SIZEOF_NAME

def addEntry (t : Tool) (current : Nat) (file : CacheInode) (name : List UInt8) : Except Halt Tool :=
  if (t.body current).inode.type = SFS_TYPE_DIR ∧ name.length ≤ SFS_MAX_FNAME_LEN then do
    -- `strcpy`
    let t := { t with name := patch t.name 0 (name ++ [0]) }
    let (entryIno, t) ← allocIno t
    let t ← writeBlock t (entryBytes file.ino t.name) entryIno
    let t ← appendBlock t current SIZEOF_NAME entryIno
    let body := t.body file.addr
    pure (t.setBody file.addr { body with inode := { body.inode with nlinks := body.inode.nlinks + 1 } })
  else .error .assertion

/-- What `read` gives, call by call, until it gives nothing. -/
def openFile (file : Nat) : List (List UInt8) → Nat → Tool → Except Halt Tool
  | [], _, t => .ok t
  | data :: reads, last, t =>
      if last ≠ SFS_BLKSIZE then .error .assertion
      else do
        let (ino, t) ← allocIno t
        let t ← writeBlock t data ino
        let t ← appendBlock t file data.length ino
        openFile file reads data.length t

def openLink (t : Tool) (file : Nat) (target : List UInt8) : Except Halt Tool := do
  let (ino, t) ← allocIno t
  if target.length = SFS_BLKSIZE then .error .bug
  else do
    let t ← writeBlock t target ino
    appendBlock t file target.length ino

/-- What `readdir` lists, with `st_ino` and what is found there. -/
inductive Listing where
  | done
  | file (name : List UInt8) (real : UInt64) (reads : List (List UInt8)) (rest : Listing)
  | link (name : List UInt8) (real : UInt64) (target : List UInt8) (rest : Listing)
  | dir (name : List UInt8) (real : UInt64) (entries : Listing) (rest : Listing)
  | other (name : List UInt8) (rest : Listing)

/-- `.`, `..` and hidden files. -/
def skipped (name : List UInt8) : Bool := name.head? = some 0x2e

def dot : List UInt8 := [0x2e]

def dotdot : List UInt8 := [0x2e, 0x2e]

def addFile (t : Tool) (current : Nat) (name : List UInt8) (real : UInt64) (reads : List (List UInt8)) :
    Except Halt Tool :=
  match searchCacheInode t.sfs real with
  | some file => addEntry t current file name
  | none => do
      let (file, t) ← allocInode t real 0 SFS_TYPE_FILE
      let t ← openFile file.addr reads SFS_BLKSIZE t
      addEntry t current file name

def addLink (t : Tool) (current : Nat) (name : List UInt8) (real : UInt64) (target : List UInt8) :
    Except Halt Tool := do
  let (file, t) ← allocInode t real 0 SFS_TYPE_LINK
  let t ← openLink t file.addr target
  addEntry t current file name

/-- The loop of `open_dir`. The calls of `add_dir` and `open_dir` in it are those for a directory. -/
def readLoop : Listing → Tool → CacheInode → Except Halt Tool
  | .done, t, _ => .ok t
  | .file name real reads rest, t, current =>
      if skipped name then readLoop rest t current
      else if SFS_MAX_FNAME_LEN < name.length then .error .bug
      else do
        let t ← addFile t current.addr name real reads
        readLoop rest t current
  | .link name real target rest, t, current =>
      if skipped name then readLoop rest t current
      else if SFS_MAX_FNAME_LEN < name.length then .error .bug
      else do
        let t ← addLink t current.addr name real target
        readLoop rest t current
  | .dir name real entries rest, t, current =>
      if skipped name then readLoop rest t current
      else if SFS_MAX_FNAME_LEN < name.length then .error .bug
      else if (searchCacheInode t.sfs real).isSome then .error .assertion
      else do
        let (child, t) ← allocInode t real 0 SFS_TYPE_DIR
        let t ← addEntry t child.addr child dot
        let t ← addEntry t child.addr current dotdot
        let t ← readLoop entries t child
        let t ← addEntry t current.addr child name
        readLoop rest t current
  | .other name rest, t, current =>
      if skipped name then readLoop rest t current
      else if SFS_MAX_FNAME_LEN < name.length then .error .bug
      else readLoop rest t current

def openDir (entries : Listing) (t : Tool) (current parent : CacheInode) : Except Halt Tool := do
  let t ← addEntry t current.addr current dot
  let t ← addEntry t current.addr parent dotdot
  readLoop entries t current

/-! ## The end -/

/-- `data[j / bits] |= (1 << (j % bits))` from `j` on. -/
def setBits : Nat → Nat → (Nat → BitVec 32) → Nat → BitVec 32
  | 0, _, data => data
  | count + 1, j, data =>
      setBits count (j + 1) (Function.update data (j / 32) (data (j / 32) ||| BitVec.twoPow 32 (j % 32)))

/-- The words of the freemap block that begins with the bit of the block `i`. -/
def freemapWords (i ninos nextIno : Nat) : Nat → BitVec 32 :=
  if nextIno < i + SFS_BLKBITS.toNat then
    let start := if i < nextIno then nextIno - i else 0
    let stop := if ninos < i + SFS_BLKBITS.toNat then ninos - i else SFS_BLKBITS.toNat
    setBits (stop - start) start fun _ => 0
  else fun _ => 0

def freemapBytes (i ninos nextIno : Nat) : List UInt8 :=
  (List.range SFS_BLK_NENTRY).flatMap fun k => toLe 4 (freemapWords i ninos nextIno k).toNat

/-- The loop over the blocks of the freemap, with `count` turns to go. -/
def freemapLoop : Nat → Nat → UInt32 → Tool → Except Halt Tool
  | 0, _, _, t => .ok t
  | count + 1, i, ino, t => do
      let t ← writeBlock t (freemapBytes i t.sfs.ninos.toNat t.sfs.nextIno.toNat) ino
      freemapLoop count (i + SFS_BLKBITS.toNat) (ino + 1) t

/-- `simple file system` -/
def info : List UInt8 := "simple file system".toList.map fun c => UInt8.ofNat c.toNat

/-- What is behind the text has never been written. -/
def superBytes (sfs : SfsFs) (junk : List UInt8) : List UInt8 :=
  toLe 4 SFS_MAGIC ++ (toLe 4 sfs.ninos.toNat ++ (toLe 4 sfs.unusedBlocks.toNat ++ (info ++ 0 :: junk)))

def inodeBytes (inode : Inode) : List UInt8 :=
  toLe 4 inode.size.toNat ++ (toLe 2 inode.type.toNat ++ (toLe 2 inode.nlinks.toNat ++ (toLe 4 inode.blocks.toNat ++
    (inode.direct.flatMap (fun ino => toLe 4 ino.toNat) ++
      (toLe 4 inode.indirect.toNat ++ toLe 4 inode.dbIndirect.toNat)))))

def flushBlocks : List CacheBlock → Tool → Except Halt Tool
  | [], t => .ok t
  | cb :: chain, t => do
      let t ← writeBlock t (slice (t.cache cb.addr) 0 SFS_BLKSIZE) cb.ino
      flushBlocks chain t

def flushInodes : List CacheInode → Tool → Except Halt Tool
  | [], t => .ok t
  | ci :: chain, t => do
      let t ← writeBlock t (inodeBytes (t.body ci.addr).inode) ci.ino
      flushInodes chain t

/-- The loop over the hash tables, with `count` buckets to go. -/
def flushLoop : Nat → UInt32 → Tool → Except Halt Tool
  | 0, _, t => .ok t
  | count + 1, i, t => do
      let t ← flushBlocks (t.sfs.blocks i) t
      let t ← flushInodes (t.sfs.inodes i) t
      flushLoop count (i + 1) t

def HASH_LIST_SIZE : Nat := 1024

def closeSfs (junk : List UInt8) (t : Tool) : Except Halt Tool := do
  let turns := (t.sfs.ninos.toNat + SFS_BLKBITS.toNat - 1) / SFS_BLKBITS.toNat
  let t ← freemapLoop turns 0 SFS_BLKN_FREEMAP t
  let t ← writeBlock t (superBytes t.sfs junk) SFS_BLKN_SUPER
  flushLoop HASH_LIST_SIZE 0 t

/-- The state after `create_sfs`, over a file with the bytes `img`. -/
def opened (img : Nat → Block) (stSize : Nat) : Except Halt (CacheInode × Tool) := do
  let (root, sfs) ← createSfs stSize
  let body : Body := ⟨root.inode, root.nblks, root.l1, root.l2⟩
  pure (root, ⟨sfs, fun _ => body, fun _ => zeros, zeros, img⟩)

/-- The bytes of the image file in the end. -/
def createImg (img : Nat → Block) (stSize : Nat) (junk : List UInt8) (home : Listing) : Except Halt (Nat → Block) := do
  let (root, t) ← opened img stSize
  let t ← openDir home t root root
  let t ← closeSfs junk t
  pure t.img

end Ucore.Tools.MksfsImage
