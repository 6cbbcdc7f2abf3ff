import Ucore.Lib.Locking

/-! # The semaphores of the file system

The functions of the device and of SFS, by what they do to semaphores. What they read of the
memory they share may be anything, so each test of it may come out either way, and loops over
it take any number of rounds. A panic ends a process where it is.
-/

namespace Ucore.Fs.SfsLocks

open Lib.Locking

/-- The `sem` of an inode goes by the inode, `files_sem` by its `files_struct`. -/
inductive Semaphore where
  | vdevList
  | bootfs
  | files (filesp : Int)
  | fs (sfs : Int)
  | sin (node : Int)
  | io (sfs : Int)
  | disk0
  deriving DecidableEq, Repr

def rank : Semaphore → Nat
  | .vdevList | .bootfs | .files _ => 0
  | .fs _ => 1
  | .sin _ => 2
  | .io _ => 3
  | .disk0 => 4

abbrev Op := Code Semaphore

/-- The functions that take semaphores from a level of the order on. -/
abbrev From (level : Nat) (m : Op α) : Prop := Above rank level m

/-! ## What is read -/

/-- A test. -/
def test : Op Bool := do
  let n ← read
  pure (decide (n ≠ 0))

/-- How many rounds a loop takes. -/
def rounds : Op Nat := do
  let n ← read
  pure n.toNat

/-- An assertion, or anything else that may panic. -/
def assert : Op Unit := do
  if (← test) then pure () else stop

variable {level : Nat} {sem : Semaphore} {α : Type} {m m' : Op α}

theorem test_from : From level test := .bind .read fun _ => .pure _

theorem rounds_from : From level rounds := .bind .read fun _ => .pure _

theorem branch (pos : From level m) (neg : From level m') : From level (test >>= fun b => if b = true then m else m') :=
  test_from.bind fun _ => .ite pos neg

theorem branch_inside (low : level ≤ rank sem) (pos : Inside rank level sem m) (neg : Inside rank level sem m') :
    Inside rank level sem (test >>= fun b => if b = true then m else m') :=
  .bind low test_from fun _ => .ite pos neg

theorem assert_from : From level assert := branch (.pure _) .stop

/-! ## Codes -/

def E_INVAL : Int := 3

def E_NO_MEM : Int := 4

def E_NO_DEV : Int := 13

def E_NA_DEV : Int := 14

def E_BUSY : Int := 15

def E_NOENT : Int := 16

def E_NOTDIR : Int := 18

def E_EXISTS : Int := 23

/-! ## `dev_disk0.c` -/

/-- Each round transfers blocks, or panics. -/
def disk0Loop : Nat → Op Unit
  | 0 => pure ()
  | left + 1 => do
      assert
      disk0Loop left

def disk0Io : Op Int := do
  if (← test) then pure (-E_INVAL)
  else if (← test) then pure (-E_INVAL)
  else if (← test) then pure 0
  else
    down .disk0
    disk0Loop (← rounds)
    up .disk0
    pure 0

theorem disk0Loop_from (left : Nat) : From level (disk0Loop left) := by
  induction left with
  | zero => exact .pure _
  | succ left ih => exact assert_from.bind fun _ => ih

theorem disk0Io_from : From 4 disk0Io :=
  branch (.pure _) (branch (.pure _) (branch (.pure _) (.lock le_rfl
    (.bind le_rfl rounds_from fun left => .bind le_rfl (disk0Loop_from left) fun _ => .unlock (.pure _)))))

/-! ## `sfs_io.c` -/

def sfsRwblockNolock : Op Int := do
  assert
  disk0Io

def rwblockLoop : Nat → Op Int
  | 0 => pure 0
  | nblks + 1 => do
      let ret ← sfsRwblockNolock
      if ret ≠ 0 then pure ret else rwblockLoop nblks

def sfsRwblock (sfs : Int) (nblks : Nat) : Op Int := do
  down (.io sfs)
  let ret ← rwblockLoop nblks
  up (.io sfs)
  pure ret

def sfsWblock (sfs : Int) (nblks : Nat) : Op Int := sfsRwblock sfs nblks

def sfsRbuf (sfs : Int) : Op Int := do
  assert
  down (.io sfs)
  let ret ← sfsRwblockNolock
  up (.io sfs)
  pure ret

def sfsWbuf (sfs : Int) : Op Int := do
  assert
  down (.io sfs)
  let ret ← sfsRwblockNolock
  let ret ← (if ret = 0 then sfsRwblockNolock else pure ret)
  up (.io sfs)
  pure ret

def sfsSyncSuper (sfs : Int) : Op Int := do
  down (.io sfs)
  let ret ← sfsRwblockNolock
  up (.io sfs)
  pure ret

def sfsSyncFreemap (sfs : Int) : Op Int := do
  sfsWblock sfs (← rounds)

def sfsClearBlock (sfs : Int) (nblks : Nat) : Op Int := do
  down (.io sfs)
  let ret ← rwblockLoop nblks
  up (.io sfs)
  pure ret

theorem sfsRwblockNolock_from : From 4 sfsRwblockNolock := assert_from.bind fun _ => disk0Io_from

theorem rwblockLoop_from (nblks : Nat) : From 4 (rwblockLoop nblks) := by
  induction nblks with
  | zero => exact .pure _
  | succ nblks ih => exact sfsRwblockNolock_from.bind fun _ => .ite (.pure _) ih

theorem sfsRwblock_from (sfs : Int) (nblks : Nat) : From 3 (sfsRwblock sfs nblks) :=
  .lock le_rfl (.bind le_rfl (rwblockLoop_from nblks) fun _ => .unlock (.pure _))

theorem sfsRbuf_from (sfs : Int) : From 3 (sfsRbuf sfs) :=
  assert_from.bind fun _ => .lock le_rfl (.bind le_rfl sfsRwblockNolock_from fun _ => .unlock (.pure _))

theorem sfsWbuf_from (sfs : Int) : From 3 (sfsWbuf sfs) :=
  assert_from.bind fun _ => .lock le_rfl (.bind le_rfl sfsRwblockNolock_from fun _ =>
    .bind le_rfl (.ite sfsRwblockNolock_from (.pure _)) fun _ => .unlock (.pure _))

theorem sfsSyncSuper_from (sfs : Int) : From 3 (sfsSyncSuper sfs) :=
  .lock le_rfl (.bind le_rfl sfsRwblockNolock_from fun _ => .unlock (.pure _))

theorem sfsSyncFreemap_from (sfs : Int) : From 3 (sfsSyncFreemap sfs) :=
  rounds_from.bind fun nblks => sfsRwblock_from sfs nblks

theorem sfsClearBlock_from (sfs : Int) (nblks : Nat) : From 3 (sfsClearBlock sfs nblks) := sfsRwblock_from sfs nblks

/-! ## `sfs_inode.c`: blocks -/

def sfsBlockInuse : Op Bool := do
  assert
  test

def sfsBlockAlloc (sfs : Int) : Op Int := do
  let ret ← read
  if ret ≠ 0 then pure ret
  else
    assert
    let inuse ← sfsBlockInuse
    if inuse then sfsClearBlock sfs 1 else stop

def sfsBlockFree : Op Unit := do
  let inuse ← sfsBlockInuse
  if inuse then assert else stop

/-- `failed_cleanup`: an index block that was made goes. -/
def failedCleanup (ret : Int) : Op Int := do
  if (← test) then
    sfsBlockFree
    pure ret
  else pure ret

/-- The end of `sfs_bmap_get_sub_nolock`, where a block is made. -/
def newEntry (sfs : Int) : Op Int := do
  let ret ← sfsBlockAlloc sfs
  if ret ≠ 0 then failedCleanup ret
  else
    let ret ← sfsWbuf sfs
    if ret ≠ 0 then
      sfsBlockFree
      failedCleanup ret
    else pure 0

def sfsBmapGetSubNolock (sfs : Int) (create : Bool) : Op Int := do
  assert
  if (← test) then
    let ret ← sfsRbuf sfs
    if ret ≠ 0 then pure ret
    else if (← test) then pure 0
    else if create then newEntry sfs
    else pure 0
  else if create then
    let ret ← sfsBlockAlloc sfs
    if ret ≠ 0 then pure ret else newEntry sfs
  else pure 0

def sfsBmapGetNolock (sfs : Int) (create : Bool) : Op Int := do
  if (← test) then
    if (← test) then
      assert
      pure 0
    else if create then
      let ret ← sfsBlockAlloc sfs
      if ret ≠ 0 then pure ret
      else
        assert
        pure 0
    else
      assert
      pure 0
  else if (← test) then
    let ret ← sfsBmapGetSubNolock sfs create
    if ret ≠ 0 then pure ret
    else
      assert
      assert
      pure 0
  else stop

def sfsBmapFreeSubNolock (sfs : Int) : Op Int := do
  assert
  let ret ← sfsRbuf sfs
  if ret ≠ 0 then pure ret
  else if (← test) then
    let ret ← sfsWbuf sfs
    if ret ≠ 0 then pure ret
    else
      sfsBlockFree
      pure 0
  else pure 0

def sfsBmapFreeNolock (sfs : Int) : Op Int := do
  if (← test) then
    if (← test) then
      sfsBlockFree
      pure 0
    else pure 0
  else if (← test) then
    if (← test) then sfsBmapFreeSubNolock sfs else pure 0
  else pure 0

def sfsBmapLoadNolock (sfs : Int) : Op Int := do
  assert
  let create ← test
  let ret ← sfsBmapGetNolock sfs create
  if ret ≠ 0 then pure ret
  else
    assert
    pure 0

def sfsBmapTruncateNolock (sfs : Int) : Op Int := do
  assert
  sfsBmapFreeNolock sfs

theorem sfsBlockInuse_from : From level sfsBlockInuse := assert_from.bind fun _ => test_from

theorem sfsBlockAlloc_from (sfs : Int) : From 3 (sfsBlockAlloc sfs) :=
  .bind .read fun _ => .ite (.pure _) (assert_from.bind fun _ =>
    sfsBlockInuse_from.bind fun _ => .ite (sfsClearBlock_from sfs 1) .stop)

theorem sfsBlockFree_from : From level sfsBlockFree := sfsBlockInuse_from.bind fun _ => .ite assert_from .stop

theorem failedCleanup_from (ret : Int) : From level (failedCleanup ret) :=
  branch (sfsBlockFree_from.bind fun _ => .pure _) (.pure _)

theorem newEntry_from (sfs : Int) : From 3 (newEntry sfs) :=
  (sfsBlockAlloc_from sfs).bind fun ret => .ite (failedCleanup_from ret) ((sfsWbuf_from sfs).bind fun ret =>
    .ite (sfsBlockFree_from.bind fun _ => failedCleanup_from ret) (.pure _))

theorem sfsBmapGetSubNolock_from (sfs : Int) (create : Bool) : From 3 (sfsBmapGetSubNolock sfs create) :=
  assert_from.bind fun _ => branch
    ((sfsRbuf_from sfs).bind fun _ => .ite (.pure _) (branch (.pure _) (.ite (newEntry_from sfs) (.pure _))))
    (.ite ((sfsBlockAlloc_from sfs).bind fun _ => .ite (.pure _) (newEntry_from sfs)) (.pure _))

theorem sfsBmapGetNolock_from (sfs : Int) (create : Bool) : From 3 (sfsBmapGetNolock sfs create) :=
  branch
    (branch (assert_from.bind fun _ => .pure _) (.ite
      ((sfsBlockAlloc_from sfs).bind fun _ => .ite (.pure _) (assert_from.bind fun _ => .pure _))
      (assert_from.bind fun _ => .pure _)))
    (branch ((sfsBmapGetSubNolock_from sfs create).bind fun _ => .ite (.pure _)
      (assert_from.bind fun _ => assert_from.bind fun _ => .pure _)) .stop)

theorem sfsBmapFreeSubNolock_from (sfs : Int) : From 3 (sfsBmapFreeSubNolock sfs) :=
  assert_from.bind fun _ => (sfsRbuf_from sfs).bind fun _ => .ite (.pure _) (branch
    ((sfsWbuf_from sfs).bind fun _ => .ite (.pure _) (sfsBlockFree_from.bind fun _ => .pure _)) (.pure _))

theorem sfsBmapFreeNolock_from (sfs : Int) : From 3 (sfsBmapFreeNolock sfs) :=
  branch (branch (sfsBlockFree_from.bind fun _ => .pure _) (.pure _))
    (branch (branch (sfsBmapFreeSubNolock_from sfs) (.pure _)) (.pure _))

theorem sfsBmapLoadNolock_from (sfs : Int) : From 3 (sfsBmapLoadNolock sfs) :=
  assert_from.bind fun _ => test_from.bind fun create => (sfsBmapGetNolock_from sfs create).bind fun _ =>
    .ite (.pure _) (assert_from.bind fun _ => .pure _)

theorem sfsBmapTruncateNolock_from (sfs : Int) : From 3 (sfsBmapTruncateNolock sfs) :=
  assert_from.bind fun _ => sfsBmapFreeNolock_from sfs

/-! ## `sfs_inode.c`: entries of directories -/

def sfsDirentReadNolock (sfs : Int) : Op Int := do
  assert
  let ret ← sfsBmapLoadNolock sfs
  if ret ≠ 0 then pure ret
  else
    assert
    sfsRbuf sfs

/-- Slot after slot is read until one is the one that is looked for. -/
def searchLoop (sfs : Int) : Nat → Op Int
  | 0 => pure (-E_NOENT)
  | nslots + 1 => do
      let ret ← sfsDirentReadNolock sfs
      if ret ≠ 0 then pure ret
      else if (← test) then pure 0
      else searchLoop sfs nslots

def sfsDirentSearchNolock (sfs : Int) : Op Int := do
  assert
  if (← test) then pure (-E_NO_MEM)
  else
    let nslots ← rounds
    searchLoop sfs nslots

def sfsDirentFindinoNolock (sfs : Int) : Op Int := do
  let nslots ← rounds
  searchLoop sfs nslots

def sfsGetdirentrySubNolock (sfs : Int) : Op Int := do
  let nslots ← rounds
  searchLoop sfs nslots

/-- With the inode if the code is 0. -/
def sfsLoadInode (sfs : Int) : Op (Int × Int) := do
  down (.fs sfs)
  let node ← read
  if node ≠ 0 then
    up (.fs sfs)
    pure (0, node)
  else if (← test) then
    up (.fs sfs)
    pure (-E_NO_MEM, 0)
  else
    assert
    let ret ← sfsRbuf sfs
    if ret ≠ 0 then
      up (.fs sfs)
      pure (ret, 0)
    else
      assert
      if (← test) then
        up (.fs sfs)
        pure (-E_NO_MEM, 0)
      else
        let node ← read
        up (.fs sfs)
        pure (0, node)

def sfsLookupOnce (sfs node : Int) : Op (Int × Int) := do
  down (.sin node)
  let ret ← sfsDirentSearchNolock sfs
  up (.sin node)
  if ret = 0 then sfsLoadInode sfs else pure (ret, 0)

theorem sfsDirentReadNolock_from (sfs : Int) : From 3 (sfsDirentReadNolock sfs) :=
  assert_from.bind fun _ => (sfsBmapLoadNolock_from sfs).bind fun _ =>
    .ite (.pure _) (assert_from.bind fun _ => sfsRbuf_from sfs)

theorem searchLoop_from (sfs : Int) (nslots : Nat) : From 3 (searchLoop sfs nslots) := by
  induction nslots with
  | zero => exact .pure _
  | succ nslots ih => exact (sfsDirentReadNolock_from sfs).bind fun _ => .ite (.pure _) (branch (.pure _) ih)

theorem sfsDirentSearchNolock_from (sfs : Int) : From 3 (sfsDirentSearchNolock sfs) :=
  assert_from.bind fun _ => branch (.pure _) (rounds_from.bind fun nslots => searchLoop_from sfs nslots)

theorem sfsDirentFindinoNolock_from (sfs : Int) : From 3 (sfsDirentFindinoNolock sfs) :=
  rounds_from.bind fun nslots => searchLoop_from sfs nslots

theorem sfsGetdirentrySubNolock_from (sfs : Int) : From 3 (sfsGetdirentrySubNolock sfs) :=
  rounds_from.bind fun nslots => searchLoop_from sfs nslots

theorem sfsLoadInode_from (sfs : Int) : From 1 (sfsLoadInode sfs) :=
  .lock le_rfl (.bind le_rfl .read fun _ => .ite (.unlock (.pure _)) (branch_inside le_rfl (.unlock (.pure _))
    (.bind le_rfl assert_from fun _ => .bind le_rfl ((sfsRbuf_from sfs).mono (by simp [rank])) fun _ =>
      .ite (.unlock (.pure _)) (.bind le_rfl assert_from fun _ => branch_inside le_rfl (.unlock (.pure _))
        (.bind le_rfl .read fun _ => .unlock (.pure _))))))

theorem sfsLookupOnce_from (sfs node : Int) : From 1 (sfsLookupOnce sfs node) :=
  .lock (by simp [rank]) (.bind (by simp [rank]) (sfsDirentSearchNolock_from sfs) fun _ =>
    .unlock (.ite (sfsLoadInode_from sfs) (.pure _)))

/-! ## `sfs_inode.c`: operations of inodes -/

def sfsIoNolock : Op Int := do
  assert
  read

def sfsIo (node : Int) : Op Int := do
  down (.sin node)
  let ret ← sfsIoNolock
  assert
  up (.sin node)
  pure ret

def sfsFsync (node : Int) : Op Int := do
  let sfs ← read
  if (← test) then
    down (.sin node)
    let dirty ← test
    let ret ← (if dirty then sfsWbuf sfs else pure 0)
    up (.sin node)
    pure ret
  else pure 0

def growLoop (sfs : Int) : Nat → Op Int
  | 0 => pure 0
  | nblks + 1 => do
      let ret ← sfsBmapLoadNolock sfs
      if ret ≠ 0 then pure ret else growLoop sfs nblks

def shrinkLoop (sfs : Int) : Nat → Op Int
  | 0 => pure 0
  | nblks + 1 => do
      let ret ← sfsBmapTruncateNolock sfs
      if ret ≠ 0 then pure ret else shrinkLoop sfs nblks

def sfsTruncfile (node : Int) : Op Int := do
  if (← test) then pure (-E_INVAL)
  else
    let sfs ← read
    if (← test) then
      assert
      pure 0
    else
      down (.sin node)
      let nblks ← rounds
      let more ← test
      let ret ← (if more then growLoop sfs nblks else shrinkLoop sfs nblks)
      if ret ≠ 0 then
        up (.sin node)
        pure ret
      else
        assert
        up (.sin node)
        pure 0

/-! The assertion of `__vop_op`, and with it what the table of the inode is. -/

def vopTruncate (node : Int) : Op Int := do
  assert
  sfsTruncfile node

def vopFsync (node : Int) : Op Int := do
  assert
  sfsFsync node

def sfsReclaim (node : Int) : Op Int := do
  let sfs ← read
  down (.fs sfs)
  assert
  if (← test) then
    up (.fs sfs)
    pure (-E_BUSY)
  else
    let unlinked ← test
    let ret ← (if unlinked then vopTruncate node else pure 0)
    if ret ≠ 0 then
      up (.fs sfs)
      pure ret
    else
      let dirty ← test
      let ret ← (if dirty then vopFsync node else pure 0)
      if ret ≠ 0 then
        up (.fs sfs)
        pure ret
      else
        up (.fs sfs)
        if (← test) then
          sfsBlockFree
          let indirect ← test
          (if indirect then sfsBlockFree else pure ())
          assert
          pure 0
        else
          assert
          pure 0

def vopReclaim (node : Int) : Op Int := do
  assert
  sfsReclaim node

/-- `vop_ref_dec` -/
def inodeRefDec (node : Int) : Op Unit := do
  assert
  if (← test) then
    let _ ← vopReclaim node
    pure ()
  else pure ()

/-- `vop_close`: that of devices comes to nothing. -/
def vopClose (node : Int) : Op Int := do
  assert
  if (← test) then vopFsync node else pure 0

/-- `vop_open_dec` -/
def inodeOpenDec (node : Int) : Op Unit := do
  assert
  if (← test) then
    let _ ← vopClose node
    pure ()
  else pure ()

def sfsTryseek (node : Int) : Op Int := do
  if (← test) then pure (-E_INVAL)
  else if (← test) then vopTruncate node
  else pure 0

def sfsGetdirentry (node : Int) : Op Int := do
  if (← test) then pure (-E_NO_MEM)
  else
    let sfs ← read
    if (← test) then pure (-E_INVAL)
    else if (← test) then pure (-E_NOENT)
    else
      down (.sin node)
      let ret ← sfsGetdirentrySubNolock sfs
      if ret ≠ 0 then
        up (.sin node)
        pure ret
      else
        up (.sin node)
        read

/-- One directory up in each round; it takes as many as there are. -/
def namefileLoop (sfs : Int) : Nat → Int → Op Int
  | 0, _ => stop
  | left + 1, node => do
      let (ret, parent) ← sfsLookupOnce sfs node
      if ret ≠ 0 then
        inodeRefDec node
        pure ret
      else
        inodeRefDec node
        if node = parent then
          inodeRefDec node
          pure 0
        else
          assert
          down (.sin parent)
          let ret ← sfsDirentFindinoNolock sfs
          up (.sin parent)
          if ret ≠ 0 then
            inodeRefDec parent
            pure ret
          else if (← test) then
            inodeRefDec parent
            pure (-E_NO_MEM)
          else namefileLoop sfs left parent

def sfsNamefile (node : Int) : Op Int := do
  if (← test) then pure (-E_NO_MEM)
  else
    let sfs ← read
    let left ← rounds
    namefileLoop sfs left node

def sfsLookup (node : Int) : Op (Int × Int) := do
  let sfs ← read
  assert
  if (← test) then
    inodeRefDec node
    pure (-E_NOTDIR, 0)
  else
    let found ← sfsLookupOnce sfs node
    inodeRefDec node
    pure found

theorem sfsIoNolock_from : From level sfsIoNolock := assert_from.bind fun _ => .read

theorem sfsIo_from (node : Int) : From 2 (sfsIo node) :=
  .lock le_rfl (.bind le_rfl sfsIoNolock_from fun _ => .bind le_rfl assert_from fun _ => .unlock (.pure _))

theorem sfsFsync_from (node : Int) : From 2 (sfsFsync node) :=
  .bind .read fun sfs => branch (.lock le_rfl (.bind le_rfl test_from fun _ =>
    .bind le_rfl (.ite (sfsWbuf_from sfs) (.pure _)) fun _ => .unlock (.pure _))) (.pure _)

theorem growLoop_from (sfs : Int) (nblks : Nat) : From 3 (growLoop sfs nblks) := by
  induction nblks with
  | zero => exact .pure _
  | succ nblks ih => exact (sfsBmapLoadNolock_from sfs).bind fun _ => .ite (.pure _) ih

theorem shrinkLoop_from (sfs : Int) (nblks : Nat) : From 3 (shrinkLoop sfs nblks) := by
  induction nblks with
  | zero => exact .pure _
  | succ nblks ih => exact (sfsBmapTruncateNolock_from sfs).bind fun _ => .ite (.pure _) ih

theorem sfsTruncfile_from (node : Int) : From 2 (sfsTruncfile node) :=
  branch (.pure _) (.bind .read fun sfs => branch (assert_from.bind fun _ => .pure _)
    (.lock le_rfl (.bind le_rfl rounds_from fun nblks => .bind le_rfl test_from fun _ =>
      .bind le_rfl (.ite (growLoop_from sfs nblks) (shrinkLoop_from sfs nblks)) fun _ =>
        .ite (.unlock (.pure _)) (.bind le_rfl assert_from fun _ => .unlock (.pure _)))))

theorem vopTruncate_from (node : Int) : From 2 (vopTruncate node) := assert_from.bind fun _ => sfsTruncfile_from node

theorem vopFsync_from (node : Int) : From 2 (vopFsync node) := assert_from.bind fun _ => sfsFsync_from node

theorem sfsReclaim_from (node : Int) : From 1 (sfsReclaim node) :=
  .bind .read fun _ => .lock le_rfl (.bind le_rfl assert_from fun _ => branch_inside le_rfl (.unlock (.pure _))
    (.bind le_rfl test_from fun _ => .bind le_rfl (.ite (vopTruncate_from node) (.pure _)) fun _ =>
      .ite (.unlock (.pure _)) (.bind le_rfl test_from fun _ =>
        .bind le_rfl (.ite (vopFsync_from node) (.pure _)) fun _ => .ite (.unlock (.pure _))
          (.unlock (branch
            (sfsBlockFree_from.bind fun _ => test_from.bind fun _ => .bind (.ite sfsBlockFree_from (.pure _)) fun _ =>
              assert_from.bind fun _ => .pure _)
            (assert_from.bind fun _ => .pure _))))))

theorem vopReclaim_from (node : Int) : From 1 (vopReclaim node) := assert_from.bind fun _ => sfsReclaim_from node

theorem inodeRefDec_from (node : Int) : From 1 (inodeRefDec node) :=
  assert_from.bind fun _ => branch ((vopReclaim_from node).bind fun _ => .pure _) (.pure _)

theorem vopClose_from (node : Int) : From 2 (vopClose node) :=
  assert_from.bind fun _ => branch (vopFsync_from node) (.pure _)

theorem inodeOpenDec_from (node : Int) : From 2 (inodeOpenDec node) :=
  assert_from.bind fun _ => branch ((vopClose_from node).bind fun _ => .pure _) (.pure _)

theorem sfsTryseek_from (node : Int) : From 2 (sfsTryseek node) :=
  branch (.pure _) (branch (vopTruncate_from node) (.pure _))

theorem sfsGetdirentry_from (node : Int) : From 2 (sfsGetdirentry node) :=
  branch (.pure _) (.bind .read fun sfs => branch (.pure _) (branch (.pure _)
    (.lock le_rfl (.bind le_rfl (sfsGetdirentrySubNolock_from sfs) fun _ =>
      .ite (.unlock (.pure _)) (.unlock .read)))))

theorem namefileLoop_from (sfs : Int) (left : Nat) (node : Int) : From 1 (namefileLoop sfs left node) := by
  induction left generalizing node with
  | zero => exact .stop
  | succ left ih =>
      refine (sfsLookupOnce_from sfs node).bind fun found => .ite ((inodeRefDec_from node).bind fun _ => .pure _)
        ((inodeRefDec_from node).bind fun _ => .ite ((inodeRefDec_from node).bind fun _ => .pure _)
          (assert_from.bind fun _ => .lock (by simp [rank]) ?_))
      exact .bind (by simp [rank]) (sfsDirentFindinoNolock_from sfs) fun _ => .unlock (.ite
        ((inodeRefDec_from found.2).bind fun _ => .pure _)
        (branch ((inodeRefDec_from found.2).bind fun _ => .pure _) (ih found.2)))

theorem sfsNamefile_from (node : Int) : From 1 (sfsNamefile node) :=
  branch (.pure _) (.bind .read fun sfs => rounds_from.bind fun left => namefileLoop_from sfs left node)

theorem sfsLookup_from (node : Int) : From 1 (sfsLookup node) :=
  .bind .read fun sfs => assert_from.bind fun _ => branch ((inodeRefDec_from node).bind fun _ => .pure _)
    ((sfsLookupOnce_from sfs node).bind fun _ => (inodeRefDec_from node).bind fun _ => .pure _)

end Ucore.Fs.SfsLocks
