import Ucore.Fs.SfsLocks

/-! # Lock order

The functions of the VFS and of `file.c` by what they do to semaphores, and the order all of
them keep: first `vdev_list_sem` and `files_sem`, then `fs_sem`, the `sem` of an inode, `io_sem`
and `disk0_sem`.
-/

namespace Ucore.Fs.LockOrder

open Lib.Locking Lib.Run SfsLocks

variable {level : Nat}

/-! ## `sfs_fs.c` -/

def syncLoop : Nat → Op Unit
  | 0 => pure ()
  | left + 1 => do
      let node ← read
      let _ ← vopFsync node
      syncLoop left

def sfsSync (sfs : Int) : Op Int := do
  down (.fs sfs)
  let left ← rounds
  syncLoop left
  up (.fs sfs)
  if (← test) then
    let ret ← sfsSyncSuper sfs
    if ret ≠ 0 then pure ret else sfsSyncFreemap sfs
  else pure 0

def sfsGetRoot (sfs : Int) : Op Int := do
  let (ret, node) ← sfsLoadInode sfs
  if ret ≠ 0 then stop else pure node

def sfsUnmount : Op Int := do
  if (← test) then pure (-E_BUSY)
  else
    assert
    pure 0

def cleanupLoop (sfs : Int) : Nat → Op Unit
  | 0 => pure ()
  | left + 1 => do
      let ret ← sfsSync sfs
      if ret = 0 then pure () else cleanupLoop sfs left

def sfsCleanup (sfs : Int) : Op Unit := cleanupLoop sfs 32

def initFreemapLoop : Nat → Op Int
  | 0 => pure 0
  | nblks + 1 => do
      let ret ← disk0Io
      if ret ≠ 0 then pure ret else initFreemapLoop nblks

def sfsDoMount : Op Int := do
  if (← test) then pure (-E_NA_DEV)
  else if (← test) then pure (-E_NO_MEM)
  else
    let ret ← disk0Io
    if ret ≠ 0 then pure ret
    else if (← test) then pure (-E_INVAL)
    else if (← test) then pure (-E_NO_MEM)
    else
      let nblks ← rounds
      let ret ← initFreemapLoop nblks
      if ret ≠ 0 then pure ret
      else
        assert
        pure 0

theorem syncLoop_from (left : Nat) : From 2 (syncLoop left) := by
  induction left with
  | zero => exact .pure _
  | succ left ih => exact .bind .read fun node => (vopFsync_from node).bind fun _ => ih

theorem sfsSync_from (sfs : Int) : From 1 (sfsSync sfs) :=
  .lock le_rfl (.bind le_rfl rounds_from fun left => .bind le_rfl (syncLoop_from left) fun _ => .unlock
    (branch (.bind ((sfsSyncSuper_from sfs).mono (by decide)) fun _ =>
      .ite (.pure _) ((sfsSyncFreemap_from sfs).mono (by decide))) (.pure _)))

theorem sfsGetRoot_from (sfs : Int) : From 1 (sfsGetRoot sfs) :=
  (sfsLoadInode_from sfs).bind fun _ => .ite .stop (.pure _)

theorem sfsUnmount_from : From level sfsUnmount := branch (.pure _) (assert_from.bind fun _ => .pure _)

theorem cleanupLoop_from (sfs : Int) (left : Nat) : From 1 (cleanupLoop sfs left) := by
  induction left with
  | zero => exact .pure _
  | succ left ih => exact (sfsSync_from sfs).bind fun _ => .ite (.pure _) ih

theorem initFreemapLoop_from (nblks : Nat) : From 4 (initFreemapLoop nblks) := by
  induction nblks with
  | zero => exact .pure _
  | succ nblks ih => exact disk0Io_from.bind fun _ => .ite (.pure _) ih

theorem sfsDoMount_from : From 4 sfsDoMount :=
  branch (.pure _) (branch (.pure _) (disk0Io_from.bind fun _ => .ite (.pure _) (branch (.pure _) (branch (.pure _)
    (rounds_from.bind fun nblks => (initFreemapLoop_from nblks).bind fun _ =>
      .ite (.pure _) (assert_from.bind fun _ => .pure _))))))

/-! ## Operations of any inode -/

/-- Of SFS or of a device. -/
def vopLookup (node : Int) : Op (Int × Int) := do
  assert
  if (← test) then sfsLookup node
  else if (← test) then pure (-E_NOENT, 0)
  else pure (0, node)

def vopNamefile (node : Int) : Op Int := do
  assert
  sfsNamefile node

def vopGetdirentry (node : Int) : Op Int := do
  assert
  sfsGetdirentry node

/-- `vop_read` and `vop_write`: of a file, of `disk0:`, and of the other devices. -/
def vopIo (node : Int) : Op Int := do
  assert
  if (← test) then sfsIo node
  else if (← test) then disk0Io
  else read

def vopTryseek (node : Int) : Op Int := do
  assert
  if (← test) then sfsTryseek node else read

/-- `vop_open`, `vop_gettype` and `vop_fstat` take no semaphore. -/
def vopPlain : Op Int := do
  assert
  read

theorem vopLookup_from (node : Int) : From 1 (vopLookup node) :=
  assert_from.bind fun _ => branch (sfsLookup_from node) (branch (.pure _) (.pure _))

theorem vopNamefile_from (node : Int) : From 1 (vopNamefile node) := assert_from.bind fun _ => sfsNamefile_from node

theorem vopGetdirentry_from (node : Int) : From 2 (vopGetdirentry node) :=
  assert_from.bind fun _ => sfsGetdirentry_from node

theorem vopIo_from (node : Int) : From 2 (vopIo node) :=
  assert_from.bind fun _ => branch (sfsIo_from node) (branch (disk0Io_from.mono (by decide)) .read)

theorem vopTryseek_from (node : Int) : From 2 (vopTryseek node) :=
  assert_from.bind fun _ => branch (sfsTryseek_from node) .read

theorem vopPlain_from : From level vopPlain := assert_from.bind fun _ => .read

/-! ## `vfs.c`, `vfsdev.c` and `vfslookup.c` -/

def vfsGetCurdir : Op (Int × Int) := do
  let node ← read
  if node ≠ 0 then pure (0, node) else pure (-E_NOENT, 0)

def vfsGetBootfs : Op (Int × Int) := do
  if (← test) then
    down .bootfs
    let node ← read
    up .bootfs
    if node = 0 then pure (-E_NOENT, 0) else pure (0, node)
  else pure (-E_NOENT, 0)

/-- The loop of `vfs_get_root`, with how many devices are left. -/
def getRootLoop : Nat → Op (Int × Int)
  | 0 => pure (-E_NO_DEV, 0)
  | left + 1 => do
      if (← test) then
        if (← test) then
          let sfs ← read
          let node ← sfsGetRoot sfs
          if node ≠ 0 then pure (0, node) else pure (-E_NA_DEV, 0)
        else if (← test) then
          let node ← read
          pure (0, node)
        else pure (-E_NA_DEV, 0)
      else getRootLoop left

def vfsGetRoot : Op (Int × Int) := do
  assert
  if (← test) then pure (-E_NO_DEV, 0)
  else
    down .vdevList
    let left ← rounds
    let found ← getRootLoop left
    up .vdevList
    pure found

def getDevice : Op (Int × Int) := do
  if (← test) then vfsGetCurdir
  else if (← test) then vfsGetRoot
  else if (← test) then vfsGetBootfs
  else
    assert
    let (ret, node) ← vfsGetCurdir
    if ret ≠ 0 then pure (ret, 0)
    else
      assert
      let sfs ← read
      let root ← sfsGetRoot sfs
      inodeRefDec node
      pure (0, root)

def vfsLookup : Op (Int × Int) := do
  let (ret, node) ← getDevice
  if ret ≠ 0 then pure (ret, 0)
  else if (← test) then
    let found ← vopLookup node
    inodeRefDec node
    pure found
  else pure (0, node)

def vfsLookupParent : Op (Int × Int) := getDevice

theorem vfsGetCurdir_from : From level vfsGetCurdir := .bind .read fun _ => .ite (.pure _) (.pure _)

theorem vfsGetBootfs_from : From 0 vfsGetBootfs :=
  branch (.lock le_rfl (.bind le_rfl .read fun _ => .unlock (.ite (.pure _) (.pure _)))) (.pure _)

theorem getRootLoop_from (left : Nat) : From 1 (getRootLoop left) := by
  induction left with
  | zero => exact .pure _
  | succ left ih =>
      exact branch (branch
        (.bind .read fun sfs => (sfsGetRoot_from sfs).bind fun _ => .ite (.pure _) (.pure _))
        (branch (.bind .read fun _ => .pure _) (.pure _))) ih

theorem vfsGetRoot_from : From 0 vfsGetRoot :=
  assert_from.bind fun _ => branch (.pure _) (.lock le_rfl (.bind le_rfl rounds_from fun left =>
    .bind le_rfl (getRootLoop_from left) fun _ => .unlock (.pure _)))

theorem getDevice_from : From 0 getDevice :=
  branch vfsGetCurdir_from (branch vfsGetRoot_from (branch vfsGetBootfs_from (assert_from.bind fun _ =>
    vfsGetCurdir_from.bind fun found => .ite (.pure _) (assert_from.bind fun _ => .bind .read fun sfs =>
      .bind ((sfsGetRoot_from sfs).mono (by decide)) fun _ =>
        .bind ((inodeRefDec_from found.2).mono (by decide)) fun _ => .pure _))))

theorem vfsLookup_from : From 0 vfsLookup :=
  getDevice_from.bind fun found => .ite (.pure _) (branch
    (.bind ((vopLookup_from found.2).mono (by decide)) fun _ =>
      .bind ((inodeRefDec_from found.2).mono (by decide)) fun _ => .pure _)
    (.pure _))

/-! ## Mounts -/

def vfsMount : Op Int := do
  down .vdevList
  if (← test) then
    up .vdevList
    pure (-E_NO_DEV)
  else if (← test) then
    up .vdevList
    pure (-E_BUSY)
  else
    assert
    let ret ← sfsDoMount
    assert
    up .vdevList
    pure ret

def vfsUnmount : Op Int := do
  down .vdevList
  if (← test) then
    up .vdevList
    pure (-E_NO_DEV)
  else if (← test) then
    up .vdevList
    pure (-E_INVAL)
  else
    assert
    let sfs ← read
    let ret ← sfsSync sfs
    if ret ≠ 0 then
      up .vdevList
      pure ret
    else
      let ret ← sfsUnmount
      up .vdevList
      pure ret

def unmountAllLoop : Nat → Op Unit
  | 0 => pure ()
  | left + 1 => do
      if (← test) then
        let sfs ← read
        let ret ← sfsSync sfs
        if ret ≠ 0 then unmountAllLoop left
        else
          let _ ← sfsUnmount
          unmountAllLoop left
      else unmountAllLoop left

def vfsUnmountAll : Op Int := do
  if (← test) then pure 0
  else
    down .vdevList
    let left ← rounds
    unmountAllLoop left
    up .vdevList
    pure 0

def vfsCleanupLoop : Nat → Op Unit
  | 0 => pure ()
  | left + 1 => do
      if (← test) then
        let sfs ← read
        sfsCleanup sfs
        vfsCleanupLoop left
      else vfsCleanupLoop left

def vfsCleanup : Op Unit := do
  if (← test) then pure ()
  else
    down .vdevList
    let left ← rounds
    vfsCleanupLoop left
    up .vdevList
    pure ()

theorem vfsMount_from : From 0 vfsMount :=
  .lock le_rfl (branch_inside le_rfl (.unlock (.pure _)) (branch_inside le_rfl (.unlock (.pure _))
    (.bind le_rfl assert_from fun _ => .bind le_rfl (sfsDoMount_from.mono (by decide)) fun _ =>
      .bind le_rfl assert_from fun _ => .unlock (.pure _))))

theorem vfsUnmount_from : From 0 vfsUnmount :=
  .lock le_rfl (branch_inside le_rfl (.unlock (.pure _)) (branch_inside le_rfl (.unlock (.pure _))
    (.bind le_rfl assert_from fun _ => .bind le_rfl .read fun sfs => .bind le_rfl (sfsSync_from sfs) fun _ =>
      .ite (.unlock (.pure _)) (.bind le_rfl sfsUnmount_from fun _ => .unlock (.pure _)))))

theorem unmountAllLoop_from (left : Nat) : From 1 (unmountAllLoop left) := by
  induction left with
  | zero => exact .pure _
  | succ left ih =>
      exact branch (.bind .read fun sfs => (sfsSync_from sfs).bind fun _ =>
        .ite ih (sfsUnmount_from.bind fun _ => ih)) ih

theorem vfsUnmountAll_from : From 0 vfsUnmountAll :=
  branch (.pure _) (.lock le_rfl (.bind le_rfl rounds_from fun left =>
    .bind le_rfl (unmountAllLoop_from left) fun _ => .unlock (.pure _)))

theorem vfsCleanupLoop_from (left : Nat) : From 1 (vfsCleanupLoop left) := by
  induction left with
  | zero => exact .pure _
  | succ left ih => exact branch (.bind .read fun sfs => (cleanupLoop_from sfs 32).bind fun _ => ih) ih

theorem vfsCleanup_from : From 0 vfsCleanup :=
  branch (.pure _) (.lock le_rfl (.bind le_rfl rounds_from fun left =>
    .bind le_rfl (vfsCleanupLoop_from left) fun _ => .unlock (.pure _)))

/-! ## `vfspath.c` -/

/-- The end of `vfs_set_curdir`. -/
def leaveCwd (filesp old : Int) : Op Int := do
  if old ≠ 0 then
    inodeRefDec old
    up (.files filesp)
    pure 0
  else
    up (.files filesp)
    pure 0

def vfsSetCurdir (filesp dir : Int) : Op Int := do
  down (.files filesp)
  let old ← read
  if old = dir then
    up (.files filesp)
    pure 0
  else if dir = 0 then leaveCwd filesp old
  else
    let ret ← vopPlain
    if ret ≠ 0 then
      up (.files filesp)
      pure ret
    else if (← test) then
      up (.files filesp)
      pure (-E_NOTDIR)
    else leaveCwd filesp old

def vfsChdir (filesp : Int) : Op Int := do
  let (ret, node) ← vfsLookup
  if ret ≠ 0 then pure ret
  else
    let ret ← vfsSetCurdir filesp node
    inodeRefDec node
    pure ret

def vfsGetcwd : Op Int := do
  let (ret, node) ← vfsGetCurdir
  if ret ≠ 0 then pure ret
  else
    assert
    if (← test) then
      inodeRefDec node
      pure (-E_NO_MEM)
    else
      let ret ← vopNamefile node
      inodeRefDec node
      pure ret

def changeBootfs : Op Unit := do
  down .bootfs
  let old ← read
  up .bootfs
  if old ≠ 0 then inodeRefDec old else pure ()

def vfsSetBootfs (filesp : Int) : Op Int := do
  if (← test) then
    changeBootfs
    pure 0
  else if (← test) then pure (-E_INVAL)
  else
    let ret ← vfsChdir filesp
    if ret ≠ 0 then pure ret
    else
      let (ret, _) ← vfsGetCurdir
      if ret ≠ 0 then pure ret
      else
        changeBootfs
        pure 0

theorem leaveCwd_inside (filesp old : Int) : Inside rank 0 (.files filesp) (leaveCwd filesp old) :=
  .ite (.bind le_rfl (inodeRefDec_from old) fun _ => .unlock (.pure _)) (.unlock (.pure _))

theorem vfsSetCurdir_from (filesp dir : Int) : From 0 (vfsSetCurdir filesp dir) :=
  .lock le_rfl (.bind le_rfl .read fun old => .ite (.unlock (.pure _)) (.ite (leaveCwd_inside filesp old)
    (.bind le_rfl vopPlain_from fun _ => .ite (.unlock (.pure _))
      (branch_inside le_rfl (.unlock (.pure _)) (leaveCwd_inside filesp old)))))

theorem vfsChdir_from (filesp : Int) : From 0 (vfsChdir filesp) :=
  vfsLookup_from.bind fun found => .ite (.pure _) ((vfsSetCurdir_from filesp found.2).bind fun _ =>
    .bind ((inodeRefDec_from found.2).mono (by decide)) fun _ => .pure _)

theorem vfsGetcwd_from : From 1 vfsGetcwd :=
  vfsGetCurdir_from.bind fun found => .ite (.pure _) (assert_from.bind fun _ => branch
    ((inodeRefDec_from found.2).bind fun _ => .pure _)
    ((vopNamefile_from found.2).bind fun _ => (inodeRefDec_from found.2).bind fun _ => .pure _))

theorem changeBootfs_from : From 0 changeBootfs :=
  .lock le_rfl (.bind le_rfl .read fun old => .unlock (.ite ((inodeRefDec_from old).mono (by decide)) (.pure _)))

theorem vfsSetBootfs_from (filesp : Int) : From 0 (vfsSetBootfs filesp) :=
  branch (changeBootfs_from.bind fun _ => .pure _) (branch (.pure _) ((vfsChdir_from filesp).bind fun _ =>
    .ite (.pure _) (vfsGetCurdir_from.bind fun _ => .ite (.pure _) (changeBootfs_from.bind fun _ => .pure _))))

/-! ## `vfsfile.c` and `file.c` -/

/-- The end of `vfs_open`, for an inode that was found. -/
def openFound (node : Int) : Op (Int × Int) := do
  assert
  let ret ← vopPlain
  if ret ≠ 0 then
    inodeRefDec node
    pure (ret, 0)
  else if (← test) then
    let ret ← vopTruncate node
    if ret ≠ 0 then
      inodeOpenDec node
      inodeRefDec node
      pure (ret, 0)
    else pure (0, node)
  else pure (0, node)

def vfsOpen : Op (Int × Int) := do
  if (← test) then pure (-E_INVAL, 0)
  else
    let (ret, node) ← vfsLookup
    if ret ≠ 0 then
      if (← test) then
        let (ret, _) ← vfsLookupParent
        -- no table has `vop_create`
        if ret ≠ 0 then pure (ret, 0) else stop
      else pure (ret, 0)
    else if (← test) then pure (-E_EXISTS, 0)
    else openFound node

def vfsClose (node : Int) : Op Unit := do
  inodeOpenDec node
  inodeRefDec node

def fdArrayFree : Op Unit := do
  assert
  assert
  if (← test) then
    let node ← read
    vfsClose node
  else pure ()

/-- `fd_array_release`, and `fd_array_close`. -/
def fdArrayRelease : Op Unit := do
  assert
  assert
  if (← test) then fdArrayFree else pure ()

def fileOpen : Op Int := do
  if (← test) then pure (-E_INVAL)
  else
    assert
    let ret ← read
    if ret ≠ 0 then pure ret
    else
      let (ret, node) ← vfsOpen
      if ret ≠ 0 then
        fdArrayFree
        pure ret
      else if (← test) then
        let ret ← vopPlain
        if ret ≠ 0 then
          vfsClose node
          fdArrayFree
          pure ret
        else
          assert
          read
      else
        assert
        read

def fileClose : Op Int := do
  if (← test) then pure (-E_INVAL)
  else
    fdArrayRelease
    pure 0

/-- What the calls on an open file have in common. -/
def callFile (op : Int → Op Int) : Op Int := do
  if (← test) then pure (-E_INVAL)
  else
    assert
    let node ← read
    let ret ← op node
    fdArrayRelease
    pure ret

/-- `file_read` and `file_write` -/
def fileIo : Op Int := callFile vopIo

def fileSeek : Op Int := callFile fun node => do
  if (← test) then
    let ret ← vopPlain
    if ret = 0 then vopTryseek node else pure ret
  else if (← test) then vopTryseek node
  else pure (-E_INVAL)

def fileFstat : Op Int := callFile fun _ => vopPlain

def fileFsync : Op Int := callFile vopFsync

def fileGetdirentry : Op Int := callFile vopGetdirentry

def closeLoop : Nat → Op Unit
  | 0 => pure ()
  | left + 1 => do
      if (← test) then
        fdArrayRelease
        closeLoop left
      else closeLoop left

/-- `files_closeall`, and `files_destroy` with the working directory before it. -/
def filesDestroy : Op Unit := do
  assert
  let pwd ← read
  (if pwd ≠ 0 then inodeRefDec pwd else pure ())
  let left ← rounds
  closeLoop left

theorem openFound_from (node : Int) : From 1 (openFound node) :=
  assert_from.bind fun _ => vopPlain_from.bind fun _ => .ite ((inodeRefDec_from node).bind fun _ => .pure _) (branch
    (.bind ((vopTruncate_from node).mono (by decide)) fun _ => .ite
      (.bind ((inodeOpenDec_from node).mono (by decide)) fun _ => (inodeRefDec_from node).bind fun _ => .pure _)
      (.pure _))
    (.pure _))

theorem vfsOpen_from : From 0 vfsOpen :=
  branch (.pure _) (vfsLookup_from.bind fun found => .ite
    (branch (getDevice_from.bind fun _ => .ite (.pure _) .stop) (.pure _))
    (branch (.pure _) ((openFound_from found.2).mono (by decide))))

theorem vfsClose_from (node : Int) : From 1 (vfsClose node) :=
  .bind ((inodeOpenDec_from node).mono (by decide)) fun _ => inodeRefDec_from node

theorem fdArrayFree_from : From 1 fdArrayFree :=
  assert_from.bind fun _ => assert_from.bind fun _ => branch (.bind .read fun node => vfsClose_from node) (.pure _)

theorem fdArrayRelease_from : From 1 fdArrayRelease :=
  assert_from.bind fun _ => assert_from.bind fun _ => branch fdArrayFree_from (.pure _)

theorem fileOpen_from : From 0 fileOpen :=
  branch (.pure _) (assert_from.bind fun _ => .bind .read fun _ => .ite (.pure _) (vfsOpen_from.bind fun found => .ite
    (.bind (fdArrayFree_from.mono (by decide)) fun _ => .pure _)
    (branch (vopPlain_from.bind fun _ => .ite
      (.bind ((vfsClose_from found.2).mono (by decide)) fun _ =>
        .bind (fdArrayFree_from.mono (by decide)) fun _ => .pure _)
      (assert_from.bind fun _ => .read)) (assert_from.bind fun _ => .read))))

theorem fileClose_from : From 1 fileClose := branch (.pure _) (fdArrayRelease_from.bind fun _ => .pure _)

theorem callFile_from {op : Int → Op Int} (each : ∀ node, From 1 (op node)) : From 1 (callFile op) :=
  branch (.pure _) (assert_from.bind fun _ => .bind .read fun node => (each node).bind fun _ =>
    fdArrayRelease_from.bind fun _ => .pure _)

theorem fileIo_from : From 1 fileIo := callFile_from fun node => (vopIo_from node).mono (by decide)

theorem fileSeek_from : From 1 fileSeek := by
  have seek : ∀ node, From 1 (vopTryseek node) := fun node => (vopTryseek_from node).mono (by decide)
  exact callFile_from fun node => branch (vopPlain_from.bind fun _ => .ite (seek node) (.pure _))
    (branch (seek node) (.pure _))

theorem fileFstat_from : From 1 fileFstat := callFile_from fun _ => vopPlain_from

theorem fileFsync_from : From 1 fileFsync := callFile_from fun node => (vopFsync_from node).mono (by decide)

theorem fileGetdirentry_from : From 1 fileGetdirentry :=
  callFile_from fun node => (vopGetdirentry_from node).mono (by decide)

theorem closeLoop_from (left : Nat) : From 1 (closeLoop left) := by
  induction left with
  | zero => exact .pure _
  | succ left ih => exact branch (fdArrayRelease_from.bind fun _ => ih) ih

theorem filesDestroy_from : From 1 filesDestroy :=
  assert_from.bind fun _ => .bind .read fun pwd => .bind (.ite (inodeRefDec_from pwd) (.pure _)) fun _ =>
    rounds_from.bind fun left => closeLoop_from left

/-! ## Operations -/

/-- What processes do; the files and the working directory are those of a `files_struct`. -/
inductive Operation where
  | lookup
  | openFile
  | close
  | io
  | seek
  | fstat
  | fsync
  | getdirentry
  | getcwd
  | chdir (filesp : Int)
  | setBootfs (filesp : Int)
  | destroy
  | mount
  | unmount
  | unmountAll
  | sync (sfs : Int)
  | cleanup
  | loadInode (sfs : Int)
  | truncate (node : Int)
  | reclaim (node : Int)
  deriving DecidableEq, Repr

def drop (m : Op α) : Op Unit := m >>= fun _ => pure ()

def Operation.code : Operation → Op Unit
  | .lookup => drop vfsLookup
  | .openFile => drop fileOpen
  | .close => drop fileClose
  | .io => drop fileIo
  | .seek => drop fileSeek
  | .fstat => drop fileFstat
  | .fsync => drop fileFsync
  | .getdirentry => drop fileGetdirentry
  | .getcwd => drop vfsGetcwd
  | .chdir filesp => drop (vfsChdir filesp)
  | .setBootfs filesp => drop (vfsSetBootfs filesp)
  | .destroy => filesDestroy
  | .mount => drop vfsMount
  | .unmount => drop vfsUnmount
  | .unmountAll => drop vfsUnmountAll
  | .sync sfs => drop (sfsSync sfs)
  | .cleanup => vfsCleanup
  | .loadInode sfs => drop (sfsLoadInode sfs)
  | .truncate node => drop (vopTruncate node)
  | .reclaim node => inodeRefDec node

def Known (m : Op Unit) : Prop := ∃ operation : Operation, m = operation.code

theorem drop_from {m : Op α} {above : Nat} (ordered : From above m) : From 0 (drop m) :=
  .bind (ordered.mono (Nat.zero_le _)) fun _ => .pure _

theorem code_from (operation : Operation) : From 0 operation.code := by
  cases operation with
  | lookup => exact drop_from vfsLookup_from
  | openFile => exact drop_from fileOpen_from
  | close => exact drop_from fileClose_from
  | io => exact drop_from fileIo_from
  | seek => exact drop_from fileSeek_from
  | fstat => exact drop_from fileFstat_from
  | fsync => exact drop_from fileFsync_from
  | getdirentry => exact drop_from fileGetdirentry_from
  | getcwd => exact drop_from vfsGetcwd_from
  | chdir filesp => exact drop_from (vfsChdir_from filesp)
  | setBootfs filesp => exact drop_from (vfsSetBootfs_from filesp)
  | destroy => exact filesDestroy_from.mono (Nat.zero_le _)
  | mount => exact drop_from vfsMount_from
  | unmount => exact drop_from vfsUnmount_from
  | unmountAll => exact drop_from vfsUnmountAll_from
  | sync sfs => exact drop_from (sfsSync_from sfs)
  | cleanup => exact vfsCleanup_from
  | loadInode sfs => exact drop_from (sfsLoadInode_from sfs)
  | truncate node => exact drop_from (vopTruncate_from node)
  | reclaim node => exact (inodeRefDec_from node).mono (Nat.zero_le _)

/-- However the operations of any processes are interleaved, no processes wait for each other's
    semaphores in a circle, and none for a semaphore of its own. -/
theorem reached_ordered {ι : Type} [DecidableEq ι] (s : Sys Semaphore ι)
    (reached : Reachable Initial (Step Known) s) :
    (∀ p, ¬ Relation.TransGen (WaitsFor s) p p) ∧ ∀ p sem, Waits s p sem → ¬ Holds s p sem := by
  have inv : Inv rank s := reached_inv (fun m ⟨operation, same⟩ => same ▸ code_from operation) reached
  refine ⟨inv.no_circle, fun p sem waits holds => ?_⟩
  exact absurd (inv.higher waits holds) (lt_irrefl _)

def idle : Sys Semaphore Bool := ⟨fun _ => .init 1, fun _ => .running (.pure ()), fun _ => []⟩

/-- Two processes load inodes of one file system, and one of them has its `fs_sem`. -/
theorem contended_reached : ∃ s : Sys Semaphore Bool, Reachable Initial (Step Known) s ∧
    Holds s false (.fs 0) ∧ Waits s true (.fs 0) := by
  have start : Reachable Initial (Step Known) idle := .start ⟨fun _ => rfl, fun _ => ⟨rfl, rfl⟩⟩
  have first := start.next (.begins (p := false) rfl ⟨.loadInode 0, rfl⟩)
  have second := first.next (.begins (p := true) rfl ⟨.loadInode 0, rfl⟩)
  have third := second.next (.takes (p := false) rfl rfl)
  have fourth := third.next (.waits (p := true) rfl rfl)
  exact ⟨_, fourth, Or.inl List.mem_cons_self, List.mem_singleton.mpr rfl⟩

theorem reached_ordered_contended : ∃ s : Sys Semaphore Bool, WaitsFor s true false ∧
    (∀ p, ¬ Relation.TransGen (WaitsFor s) p p) ∧ ∀ p sem, Waits s p sem → ¬ Holds s p sem := by
  obtain ⟨s, reached, holds, waits⟩ := contended_reached
  exact ⟨s, ⟨.fs 0, waits, holds⟩, reached_ordered s reached⟩

end Ucore.Fs.LockOrder
