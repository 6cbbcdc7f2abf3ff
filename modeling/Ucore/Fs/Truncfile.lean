import Ucore.Fs.BmapSpecs

/-! # Changing the size of a file

`sfs_truncfile` adds or removes blocks one at a time. What it leaves behind when it gets
to the end, and when an operation on the way fails.
-/

namespace Ucore.Fs.Truncfile

open Lib.Bytes Lib.Program Lib.Program.Prog Error Bitmaps Sfs SfsIo SfsInode Ownership BlockSpecs BmapSpecs

variable {s t u : SfsFs} {others : List (Nat × DiskInode)} {held : List Nat} {sin : Nat}
variable {allowed : Panic → Prop} {E : Err → SfsFs → Prop}

/-- A file after some of its blocks have come or gone. -/
structure Resized (node node' : SfsInode) : Prop where
  ino : node'.ino = node.ino
  size : node'.din.size = node.din.size
  type : node'.din.type = node.din.type
  nlinks : node'.din.nlinks = node.din.nlinks
  refCount : node'.refCount = node.refCount
  reclaimCount : node'.reclaimCount = node.reclaimCount
  fits : node.din.Fits → node'.din.Fits

theorem Resized.refl (node : SfsInode) : Resized node node := ⟨rfl, rfl, rfl, rfl, rfl, rfl, id⟩

theorem Resized.trans {a b c : SfsInode} (first : Resized a b) (second : Resized b c) : Resized a c :=
  ⟨second.ino.trans first.ino, second.size.trans first.size, second.type.trans first.type,
    second.nlinks.trans first.nlinks, second.refCount.trans first.refCount,
    second.reclaimCount.trans first.reclaimCount, second.fits ∘ first.fits⟩

theorem Resized.of_grown {a b : SfsInode} (grown : Grown a b) : Resized a b :=
  ⟨grown.ino, grown.size, grown.type, grown.nlinks, grown.refCount, grown.reclaimCount, grown.fits⟩

theorem Resized.of_shrunk {a b : SfsInode} (shrunk : Shrunk a b) : Resized a b :=
  ⟨shrunk.ino, shrunk.size, shrunk.type, shrunk.nlinks, shrunk.refCount, shrunk.reclaimCount, shrunk.fits⟩

/-- How many blocks `count` more of them take. -/
def neededFor (din : DiskInode) (count : Nat) : Nat :=
  if SFS_NDIRECT < din.blocks + count ∧ din.indirect = 0 then count + 1 else count

/-- The operations of the device that `count` more blocks take. -/
def growOps (din : DiskInode) (count : Nat) : Nat :=
  (min (din.blocks + count) SFS_NDIRECT - din.blocks) + 4 * (din.blocks + count - max din.blocks SFS_NDIRECT)

/-- The operations of the device that `count` blocks less take. -/
def shrinkOps (din : DiskInode) (count : Nat) : Nat := 3 * (din.blocks - max (din.blocks - count) SFS_NDIRECT)

/-- Up to which number of blocks a call that sets the size gets. -/
def target (len : Nat) : Nat := min (blocksOf len) (SFS_NDIRECT + SFS_BLK_NENTRY)

/-- The file has `moved` more blocks. -/
structure More (others : List (Nat × DiskInode)) (moved : Nat) (s : SfsFs) (sin : Nat) (t : SfsFs) : Prop where
  nodes : ∃ node', t.nodes = Function.update s.nodes sin node' ∧ Resized (s.nodes sin) node' ∧
    node'.din.blocks = (s.nodes sin).din.blocks + moved ∧
    ((s.nodes sin).dirty = true → node'.dirty = true) ∧
    (node' = s.nodes sin ∨ node'.dirty = true ∨
      0 < moved ∧ SFS_NDIRECT ≤ (s.nodes sin).din.blocks ∧ (s.nodes sin).din.indirect ≠ 0)
  frame : Frame others s t

/-- The file has `moved` blocks less. -/
structure Less (others : List (Nat × DiskInode)) (moved : Nat) (s : SfsFs) (sin : Nat) (t : SfsFs) : Prop where
  nodes : ∃ node', t.nodes = Function.update s.nodes sin node' ∧ Resized (s.nodes sin) node' ∧
    node'.din.blocks + moved = (s.nodes sin).din.blocks ∧ (node' = s.nodes sin ∨ node'.dirty = true)
  frame : Frame others s t

theorem More.of_same (nodes : t.nodes = s.nodes) (frame : Frame others s t) : More others 0 s sin t :=
  ⟨⟨s.nodes sin, by rw [nodes, Function.update_eq_self], Resized.refl _, rfl, id, Or.inl rfl⟩, frame⟩

theorem Less.of_same (nodes : t.nodes = s.nodes) (frame : Frame others s t) : Less others 0 s sin t :=
  ⟨⟨s.nodes sin, by rw [nodes, Function.update_eq_self], Resized.refl _, rfl, Or.inl rfl⟩, frame⟩

/-- A block more, and then some. -/
theorem More.step {moved : Nat} (more : More others moved t sin u) (loaded : Loaded others held s sin t) :
    More others (moved + 1) s sin u := by
  obtain ⟨first, nodes, grown⟩ := loaded.nodes
  obtain ⟨last, nodes', resized, blocks, kept, dirty⟩ := more.nodes
  have here : t.nodes sin = first := by rw [nodes, Function.update_self]
  have grew := grown.blocks
  rw [here] at resized blocks kept dirty
  have keeps : (s.nodes sin).dirty = true → last.dirty = true := fun marked =>
    kept (grown.dirty.elim id fun ⟨_, _, _, same⟩ => same.trans marked)
  refine ⟨⟨last, by rw [nodes', nodes, Function.update_idem], (Resized.of_grown grown).trans resized,
    by omega, keeps, ?_⟩, loaded.frame.trans more.frame⟩
  rcases grown.dirty with marked | ⟨up, present, -⟩
  · exact Or.inr (Or.inl (kept marked))
  · exact Or.inr (Or.inr ⟨Nat.succ_pos _, up, present⟩)

theorem Less.step {moved : Nat} (less : Less others moved t sin u) (truncated : Truncated others held s sin t) :
    Less others (moved + 1) s sin u := by
  obtain ⟨first, nodes, shrunk⟩ := truncated.nodes
  obtain ⟨last, nodes', resized, blocks, dirty⟩ := less.nodes
  have here : t.nodes sin = first := by rw [nodes, Function.update_self]
  have lost := shrunk.blocks
  rw [here] at resized blocks dirty
  refine ⟨⟨last, by rw [nodes', nodes, Function.update_idem], (Resized.of_shrunk shrunk).trans resized,
    by omega, Or.inr (dirty.elim (fun same => same ▸ shrunk.dirty) id)⟩, truncated.frame.trans less.frame⟩

/-! ## The loops -/

/-- A loop over blocks that has failed has lost no block unless one of its `ops` operations
    of the device failed. -/
def Stopped (others : List (Nat × DiskInode)) (held : List Nat) (s t : SfsFs) (ops : Nat) (why : Prop) : Prop :=
  ∃ lost, Inv t others (lost ++ held) ∧ (Fine ops s → lost = [] ∧ why)

theorem load_out_of_range {Q : Nat → SfsFs → Prop} (full : (s.nodes sin).din.blocks = SFS_NDIRECT + SFS_BLK_NENTRY)
    (panics : allowed .range) : Spec allowed (sfsBmapLoadNolock sin (s.nodes sin).din.blocks) s Q E := by
  simp only [sfsBmapLoadNolock, spec_bind, spec_get, spec_ensure_of (Nat.le_refl _), sfsBmapGetNolock]
  rw [if_neg (by omega), if_neg (by omega)]
  exact panics

theorem growLoop_spec {Q : Unit → SfsFs → Prop} (count : Nat) (inv : Inv s others held) (member : sin ∈ s.inodeList)
    (range : (s.nodes sin).din.blocks + count ≤ SFS_NDIRECT + SFS_BLK_NENTRY ∨ allowed .range)
    (failed : ∀ e t moved, moved < min count (SFS_NDIRECT + SFS_BLK_NENTRY - (s.nodes sin).din.blocks) →
      More others moved s sin t → Stopped others held s t
        (growOps (s.nodes sin).din (min count (SFS_NDIRECT + SFS_BLK_NENTRY - (s.nodes sin).din.blocks)))
        (s.freemap.freeCount < neededFor (s.nodes sin).din
          (min count (SFS_NDIRECT + SFS_BLK_NENTRY - (s.nodes sin).din.blocks))) → E e t)
    (post : ∀ t, More others count s sin t → Inv t others held → Q () t) :
    Spec allowed (growLoop sin count (s.nodes sin).din.blocks) s Q E := by
  induction count generalizing s with
  | zero => exact post s (More.of_same rfl (Frame.refl _ _)) inv
  | succ count ih =>
      have short := (inv.file member).short
      simp only [growLoop, spec_bind]
      by_cases room : (s.nodes sin).din.blocks < SFS_NDIRECT + SFS_BLK_NENTRY
      · refine sfsBmapLoadNolock_grows inv member room (fun e t fails => ?_) fun ino u loaded => ?_
        · obtain ⟨lost, lostInv, why⟩ := fails.inv
          refine failed e t 0 (by omega) (More.of_same fails.nodes fails.frame) ⟨lost, lostInv, fun fine => ?_⟩
          have few := why (fine.mono ?_)
          · refine ⟨few.1, Nat.lt_of_lt_of_le few.2 ?_⟩
            simp only [needed, neededFor]
            split <;> split <;> omega
          · simp only [loadOps, growOps]
            split <;> omega
        · obtain ⟨first, nodes, grown⟩ := loaded.nodes
          have here : u.nodes sin = first := by rw [nodes, Function.update_self]
          have next : (s.nodes sin).din.blocks + 1 = (u.nodes sin).din.blocks := by rw [here, grown.blocks]
          rw [next]
          refine ih loaded.inv (loaded.frame.inodeList ▸ member) (range.imp (fun fits => by omega) id)
            (fun e t moved below more stopped => ?_) fun t more inv' => post t (more.step loaded) inv'
          refine failed e t (moved + 1) (by omega) (more.step loaded) ?_
          obtain ⟨lost, lostInv, why⟩ := stopped
          refine ⟨lost, lostInv, fun fine => ?_⟩
          have ops : loadOps (s.nodes sin).din + growOps (u.nodes sin).din
              (min count (SFS_NDIRECT + SFS_BLK_NENTRY - (u.nodes sin).din.blocks)) =
              growOps (s.nodes sin).din
                (min (count + 1) (SFS_NDIRECT + SFS_BLK_NENTRY - (s.nodes sin).din.blocks)) := by
            rw [← next]
            simp only [loadOps, growOps]
            split <;> omega
          obtain ⟨none, few⟩ := why ((fine_add loaded.paid).mp (by rw [ops]; exact fine))
          refine ⟨none, ?_⟩
          have count' := loaded.count
          have low := grown.low
          have indirect := grown.indirect
          rw [here] at few
          simp only [needed, neededFor, grown.blocks] at few count' ⊢
          by_cases up : SFS_NDIRECT ≤ (s.nodes sin).din.blocks
          · have present := indirect up
            simp only [up, present, and_false, if_false, true_and] at few count'
            split at count' <;> split <;> omega
          · rw [low (by omega)] at few
            simp only [up, false_and, if_false] at count'
            split at few <;> split <;> omega
      · refine load_out_of_range (by omega) (range.elim (fun fits => ?_) id)
        omega

theorem shrinkLoop_spec {Q : Unit → SfsFs → Prop} (count : Nat) (inv : Inv s others held)
    (member : sin ∈ s.inodeList) (enough : count ≤ (s.nodes sin).din.blocks)
    (failed : ∀ e t moved, moved < count → Less others moved s sin t →
      Stopped others held s t (shrinkOps (s.nodes sin).din count) False → E e t)
    (post : ∀ t, Less others count s sin t → Inv t others held → Q () t) :
    Spec allowed (shrinkLoop sin count) s Q E := by
  induction count generalizing s with
  | zero => exact post s (Less.of_same rfl (Frame.refl _ _)) inv
  | succ count ih =>
      simp only [shrinkLoop, spec_bind]
      refine sfsBmapTruncateNolock_spec inv member (by omega) (fun e t fails => ?_) fun u truncated => ?_
      · obtain ⟨lost, lostInv, why⟩ := fails.inv
        refine failed e t 0 (Nat.succ_pos _) (Less.of_same fails.nodes fails.frame) ⟨lost, lostInv, fun fine => ?_⟩
        refine absurd (why (fine.mono ?_)).2 (Nat.not_lt_zero _)
        simp only [truncateOps, shrinkOps]
        split <;> omega
      · obtain ⟨first, nodes, shrunk⟩ := truncated.nodes
        have here : u.nodes sin = first := by rw [nodes, Function.update_self]
        have lost := shrunk.blocks
        refine ih truncated.inv (truncated.frame.inodeList ▸ member) (by rw [here]; omega)
          (fun e t moved below less stopped => ?_) fun t less inv' => post t (less.step truncated) inv'
        obtain ⟨gone, lostInv, why⟩ := stopped
        refine failed e t (moved + 1) (Nat.succ_lt_succ below) (less.step truncated) ⟨gone, lostInv, fun fine => ?_⟩
        refine why ((fine_add truncated.paid).mp (fine.mono ?_))
        rw [here]
        simp only [truncateOps, shrinkOps]
        split <;> omega

/-! ## The whole call -/

/-- The file has the new size. -/
structure Settled (others : List (Nat × DiskInode)) (len : Nat) (s : SfsFs) (sin : Nat) (t : SfsFs) : Prop where
  nodes : ∃ node', t.nodes = Function.update s.nodes sin node' ∧ node'.ino = (s.nodes sin).ino ∧
    node'.din.size = len ∧ node'.din.blocks = blocksOf len ∧ node'.din.type = (s.nodes sin).din.type ∧
    node'.din.nlinks = (s.nodes sin).din.nlinks ∧
    node'.refCount = (s.nodes sin).refCount ∧ node'.reclaimCount = (s.nodes sin).reclaimCount ∧
    ((s.nodes sin).din.Fits → node'.din.Fits) ∧ node'.dirty = true
  frame : Frame others s t

/-- The call has failed on the way. -/
inductive Broken (others : List (Nat × DiskInode)) (held : List Nat) (len : Nat) (s : SfsFs) (sin : Nat)
    (t : SfsFs) : Prop where
  | growing (moved : Nat) (below : (s.nodes sin).din.blocks + moved < target len)
      (more : More others moved s sin t)
      (stopped : Stopped others held s t (growOps (s.nodes sin).din (target len - (s.nodes sin).din.blocks))
        (s.freemap.freeCount < neededFor (s.nodes sin).din (target len - (s.nodes sin).din.blocks)))
  | shrinking (moved : Nat) (above : blocksOf len + moved < (s.nodes sin).din.blocks)
      (less : Less others moved s sin t)
      (stopped : Stopped others held s t (shrinkOps (s.nodes sin).din ((s.nodes sin).din.blocks - blocksOf len)) False)

theorem Settled.of_sized {len : Nat} (frame : Frame others s t) (small : len < 2 ^ 32)
    (sized : (t.nodes sin).din.blocks = blocksOf len)
    (nodes : ∃ node', t.nodes = Function.update s.nodes sin node' ∧ Resized (s.nodes sin) node') :
    Settled others len s sin (t.setNode sin fun node =>
      { node with din := { node.din with size := len }, dirty := true }) := by
  obtain ⟨node', nodes, resized⟩ := nodes
  have here : t.nodes sin = node' := by rw [nodes, Function.update_self]
  refine ⟨⟨{ node' with din := { node'.din with size := len }, dirty := true }, ?_, resized.ino, rfl,
    by rw [← sized, here], resized.type, resized.nlinks, resized.refCount,
    resized.reclaimCount, fun fits => ?_, rfl⟩, frame.trans (Frame.setNode rfl)⟩
  · rw [SfsFs.setNode, here, nodes, Function.update_idem]
  · have fits := resized.fits fits
    exact ⟨small, fits.type, fits.nlinks, fits.blocks, fits.direct, fits.slots, fits.indirect⟩

/-- The new size does not enter into the owners of the blocks. -/
theorem inv_setSize (inv : Inv s others held) (member : sin ∈ s.inodeList) (len : Nat) :
    Inv (s.setNode sin fun node => { node with din := { node.din with size := len }, dirty := true })
      others held := by
  have ok := inv.file member
  exact inv.change member rfl rfl rfl rfl rfl (fun _ _ _ => rfl)
    ⟨ok.direct, ok.short, ok.reach, ok.spare⟩ (List.Perm.refl _)

theorem sfsTruncfile_spec {Q : Unit → SfsFs → Prop} {len : Int} (inv : Inv s others held)
    (member : sin ∈ s.inodeList)
    (range : blocksOf len.toNat ≤ SFS_NDIRECT + SFS_BLK_NENTRY ∨ allowed .range)
    (sizes : (s.nodes sin).din.size = len.toNat → blocksOf len.toNat = (s.nodes sin).din.blocks ∨ allowed .blocks)
    (inval : E .inval s) (same : (s.nodes sin).din.size = len.toNat → Q () s)
    (done : ∀ t, Settled others len.toNat s sin t → Inv t others held → Q () t)
    (failed : ∀ e t, Broken others held len.toNat s sin t → E e t) :
    Spec allowed (sfsTruncfile sin len) s Q E := by
  simp only [sfsTruncfile, spec_ite, spec_throw, spec_bind, spec_get]
  refine ⟨fun _ => inval, fun accepted => ⟨fun unchanged => ?_, fun changed => ?_⟩⟩
  · rw [spec_ensure]
    exact ⟨fun _ => same unchanged, fun differ => (sizes unchanged).resolve_left differ⟩
  have small : len.toNat < 2 ^ 32 := by
    simp only [SFS_MAX_FILE_SIZE] at accepted
    omega
  have finish : ∀ t, Frame others s t → Inv t others held →
      (∃ node', t.nodes = Function.update s.nodes sin node' ∧ Resized (s.nodes sin) node' ∧
        node'.din.blocks = blocksOf len.toNat) →
      Spec allowed (ensure ((t.nodes sin).din.blocks = blocksOf len.toNat) .blocks) t
        (fun _ t => Spec allowed (Prog.modify fun s => s.setNode sin fun node =>
          { node with din := { node.din with size := len.toNat }, dirty := true }) t Q E) E := by
    intro t frame inv' nodes
    obtain ⟨node', nodes, resized, blocks⟩ := nodes
    have sized : (t.nodes sin).din.blocks = blocksOf len.toNat := by rw [nodes, Function.update_self, blocks]
    rw [spec_ensure_of sized, spec_modify]
    exact done _ (Settled.of_sized frame small sized ⟨node', nodes, resized⟩)
      (inv_setSize inv' (frame.inodeList ▸ member) _)
  refine ⟨fun grows => ?_, fun shrinks => ?_⟩
  · have reach : min (blocksOf len.toNat - (s.nodes sin).din.blocks)
        (SFS_NDIRECT + SFS_BLK_NENTRY - (s.nodes sin).din.blocks) = target len.toNat - (s.nodes sin).din.blocks := by
      rw [target]
      omega
    refine growLoop_spec _ inv member (range.imp (fun fits => by omega) id)
      (fun e t moved below more stopped => failed e t (.growing moved (by omega) more (reach ▸ stopped)))
      fun t more inv' => finish t more.frame inv' ?_
    obtain ⟨node', nodes, resized, blocks, -⟩ := more.nodes
    exact ⟨node', nodes, resized, by omega⟩
  · refine shrinkLoop_spec _ inv member (Nat.sub_le _ _)
      (fun e t moved below less stopped => failed e t (.shrinking moved (by omega) less stopped))
      fun t less inv' => finish t less.frame inv' ?_
    obtain ⟨node', nodes, resized, blocks, -⟩ := less.nodes
    exact ⟨node', nodes, resized, by omega⟩

end Ucore.Fs.Truncfile
