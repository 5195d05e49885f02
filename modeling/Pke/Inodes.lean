import Pke.FileSpec

/-!
# Well-formed RFS states

What a single function of `rfs.c` may assume of the state it is called
in, with no history: every inode lists its own data blocks, all of them
marked in the freemap, and its size fits them (`WellFormed`). The inode
of a number is the vinode in memory when there is one, and the disk
inode otherwise (`State.Inode`); what counts as the contents of a file
is read through that.

The second half runs the primitives of `Rfs.lean` from such a state, as
equations.
-/

namespace Pke

open Exec (Post get modify fault bind_of_ok)

/-! ## Files through their block lists -/

/-- Byte `p` of the file with the block list `addrs`. -/
def dataAt (d : Nat → Block) (addrs : Fin directBlknum → Int) (p : Nat) : UInt8 :=
  d (addrOf addrs (p / 4096)).toNat (p % 4096)

/-- The first `size` bytes of the blocks of an inode. -/
def Dinode.contents (d : Nat → Block) (di : Dinode) : List UInt8 :=
  (List.range di.size.toNat).map (dataAt d di.addrs)

/-- Block `blk` is in the block list. -/
def Dinode.HasBlock (di : Dinode) (blk : Int) : Prop :=
  ∃ i : Nat, (i : Int) < di.blocks ∧ addrOf di.addrs i = blk

/-- An inode by itself: its size fits its blocks, and these are different data
blocks that the freemap marks. -/
structure Dinode.Placed (di : Dinode) (freemap : Nat → Int) : Prop where
  size : 0 ≤ di.size ∧ di.size ≤ di.blocks * 4096
  blocks : 0 ≤ di.blocks ∧ di.blocks ≤ 10
  data : ∀ i : Nat, (i : Int) < di.blocks → 12 ≤ addrOf di.addrs i ∧ addrOf di.addrs i < 112
  used : ∀ i : Nat, (i : Int) < di.blocks → freemap (addrOf di.addrs i - 12).toNat ≠ 0
  inj : ∀ i j : Nat, (i : Int) < di.blocks → (j : Int) < di.blocks →
    addrOf di.addrs i = addrOf di.addrs j → i = j

/-- The vinode at `w` is loaded for inode `n` of the file system `sb`. -/
structure State.Loaded (s : State) (sb : Ptr) (n : Int) (w : Ptr) (v : Vinode) : Prop where
  vinode : s.vinode w = some v
  rfs : v.iOps = .rfs
  sb : v.sb = sb
  inum : v.inum = n

/-- The inode of number `n`: the vinode in memory, or else the disk inode. -/
inductive State.Inode (s : State) (sb : Ptr) (n : Int) : Dinode → Prop
  | loaded {w : Ptr} {v : Vinode} (h : s.Loaded sb n w v) : Inode s sb n v.toDinode
  | onDisk (h : ∀ w v, ¬s.Loaded sb n w v) (hn : InodeNum n)
      (htype : (diskInode s.disk n).type ≠ rFree) : Inode s sb n (diskInode s.disk n)

/-- The file system of the superblock `sb` is well formed. -/
structure WellFormed (s : State) (sb : Ptr) (B : SuperBlock) : Prop where
  superBlock : s.superBlock sb = some B
  nblocks : B.nblocks = 100
  inum : ∀ n w v, s.Loaded sb n w v → InodeNum n
  one : ∀ n w v w' v', s.Loaded sb n w v → s.Loaded sb n w' v' → w = w'
  shape : ∀ n di, s.Inode sb n di → di.Placed B.freemap
  apart : ∀ n n' di di', s.Inode sb n di → s.Inode sb n' di' → n ≠ n' →
    ∀ blk, di.HasBlock blk → ¬di'.HasBlock blk

section

variable {s s' : State} {sb w : Ptr} {n : Int} {v : Vinode} {di : Dinode} {B : SuperBlock}

theorem Dinode.contents_congr {d d' : Nat → Block} {m : Nat → Int} (hs : di.Placed m)
    (h : ∀ blk : Int, di.HasBlock blk → d' blk.toNat = d blk.toNat) :
    di.contents d' = di.contents d := by
  refine List.map_congr_left fun p hp => ?_
  have hp := List.mem_range.mp hp
  have hsize := hs.size.2
  unfold dataAt
  rw [h _ ⟨p / 4096, by omega, rfl⟩]

/-- The vinode in memory is the inode of its number. -/
theorem State.Loaded.inode (h : s.Loaded sb n w v) : s.Inode sb n v.toDinode := .loaded h

/-- Two states have the same vinode for `n`, and the same disk inode. -/
theorem State.Inode.congr (hv : ∀ w v, s'.Loaded sb n w v ↔ s.Loaded sb n w v)
    (hd : diskInode s'.disk n = diskInode s.disk n) : s'.Inode sb n di ↔ s.Inode sb n di := by
  constructor
  · rintro (⟨h⟩ | ⟨h, hn, ht⟩)
    · exact .loaded ((hv _ _).mp h)
    · rw [hd] at ht ⊢
      exact .onDisk (fun w v hl => h w v ((hv w v).mpr hl)) hn ht
  · rintro (⟨h⟩ | ⟨h, hn, ht⟩)
    · exact .loaded ((hv _ _).mpr h)
    · rw [← hd] at ht ⊢
      exact .onDisk (fun w v hl => h w v ((hv w v).mp hl)) hn ht

/-! ## One inode replaced -/

/-- The vinode `v` at `f` has become `v'`; other vinodes and the disk inodes of
other numbers are as they were. -/
structure Replaces (s s' : State) (f : Ptr) (v v' : Vinode) : Prop where
  self : s'.vinode f = some v'
  other : ∀ w, w ≠ f → s'.vinode w = s.vinode w
  same : v'.inum = v.inum ∧ v'.sb = v.sb ∧ v'.iOps = v.iOps
  disk : ∀ n, n ≠ v.inum → diskInode s'.disk n = diskInode s.disk n

namespace Replaces

variable {f : Ptr} {v' : Vinode} {B' : SuperBlock}

theorem loaded_iff (hr : Replaces s s' f v v') (hf : s.Loaded sb v.inum f v) {u : Vinode} :
    s'.Loaded sb n w u ↔ (w = f ∧ u = v' ∧ n = v.inum) ∨ (w ≠ f ∧ s.Loaded sb n w u) := by
  by_cases hw : w = f
  · subst hw
    constructor
    · intro hl
      obtain rfl := Option.some.inj (hr.self.symm.trans hl.vinode)
      exact .inl ⟨rfl, rfl, hl.inum.symm.trans hr.same.1⟩
    · rintro (⟨-, rfl, rfl⟩ | ⟨hne, -⟩)
      · exact ⟨hr.self, hr.same.2.2.trans hf.rfs, hr.same.2.1.trans hf.sb, hr.same.1⟩
      · exact absurd rfl hne
  · have hsame := hr.other w hw
    constructor
    · intro hl
      exact .inr ⟨hw, hsame ▸ hl.vinode, hl.rfs, hl.sb, hl.inum⟩
    · rintro (⟨heq, -⟩ | ⟨-, hl⟩)
      · exact absurd heq hw
      · exact ⟨hsame ▸ hl.vinode, hl.rfs, hl.sb, hl.inum⟩

theorem loaded (hr : Replaces s s' f v v') (hf : s.Loaded sb v.inum f v) :
    s'.Loaded sb v.inum f v' :=
  (hr.loaded_iff hf).mpr (.inl ⟨rfl, rfl, rfl⟩)

/-- Other inodes are what they were. -/
theorem inode_ne (hr : Replaces s s' f v v') (hf : s.Loaded sb v.inum f v) (hn : n ≠ v.inum) :
    s'.Inode sb n di ↔ s.Inode sb n di := by
  refine State.Inode.congr (fun w u => ?_) (hr.disk n hn)
  rw [hr.loaded_iff hf]
  constructor
  · rintro (⟨-, -, heq⟩ | ⟨-, hl⟩)
    · exact absurd heq hn
    · exact hl
  · intro hl
    refine .inr ⟨fun heq => hn ?_, hl⟩
    subst heq
    rw [← hl.inum, Option.some.inj (hl.vinode.symm.trans hf.vinode)]

theorem inode_self (hr : Replaces s s' f v v') (h : WellFormed s sb B)
    (hf : s.Loaded sb v.inum f v) (hi : s'.Inode sb v.inum di) : di = v'.toDinode := by
  rcases hi with ⟨hl⟩ | ⟨hno, -, -⟩
  · rcases (hr.loaded_iff hf).mp hl with ⟨-, rfl, -⟩ | ⟨hne, hl'⟩
    · rfl
    · exact absurd (h.one _ _ _ _ _ hl' hf) hne
  · exact absurd (hr.loaded hf) (hno _ _)

/-- The state stays well formed when the new inode is, next to the others. -/
theorem wellFormed (hr : Replaces s s' f v v') (h : WellFormed s sb B)
    (hf : s.Loaded sb v.inum f v) (hB : s'.superBlock sb = some B') (hnb : B'.nblocks = 100)
    (hself : v'.toDinode.Placed B'.freemap)
    (hothers : ∀ n di, n ≠ v.inum → s.Inode sb n di → di.Placed B'.freemap ∧
      ∀ blk, v'.toDinode.HasBlock blk → ¬di.HasBlock blk) : WellFormed s' sb B' where
  superBlock := hB
  nblocks := hnb
  inum n w u hl := by
    rcases (hr.loaded_iff hf).mp hl with ⟨-, -, rfl⟩ | ⟨-, hl'⟩
    · exact h.inum _ _ _ hf
    · exact h.inum _ _ _ hl'
  one n w u w' u' hl hl' := by
    rcases (hr.loaded_iff hf).mp hl with ⟨rfl, -, rfl⟩ | ⟨hne, hl⟩
    · rcases (hr.loaded_iff hf).mp hl' with ⟨rfl, -, -⟩ | ⟨hne', hl'⟩
      · rfl
      · exact absurd (h.one _ _ _ _ _ hl' hf) hne'
    · rcases (hr.loaded_iff hf).mp hl' with ⟨rfl, -, rfl⟩ | ⟨-, hl'⟩
      · exact absurd (h.one _ _ _ _ _ hl hf) hne
      · exact h.one _ _ _ _ _ hl hl'
  shape n di hi := by
    by_cases hn : n = v.inum
    · subst hn
      rw [hr.inode_self h hf hi]
      exact hself
    · exact (hothers n di hn ((hr.inode_ne hf hn).mp hi)).1
  apart n n' di di' hi hi' hne blk hblk hblk' := by
    by_cases hn : n = v.inum
    · subst hn
      obtain rfl := hr.inode_self h hf hi
      exact (hothers n' di' (Ne.symm hne) ((hr.inode_ne hf (Ne.symm hne)).mp hi')).2 blk hblk hblk'
    · have hi := (hr.inode_ne hf hn).mp hi
      by_cases hn' : n' = v.inum
      · subst hn'
        obtain rfl := hr.inode_self h hf hi'
        exact (hothers n di hn hi).2 blk hblk' hblk
      · exact h.apart _ _ _ _ hi ((hr.inode_ne hf hn').mp hi') hne blk hblk hblk'

end Replaces

end

/-! ## Running the primitives -/

section

variable {s : State} {w : Ptr}

theorem getDentry_run {x : Dentry} (h : s.dentry w = some x) : getDentry w s = .ok (x, s) :=
  Exec.get_ofOption h

theorem getVinode_run {v : Vinode} (h : s.vinode w = some v) : getVinode w s = .ok (v, s) :=
  Exec.get_ofOption h

theorem getFile_run {f : File} (h : s.file w = some f) : getFile w s = .ok (f, s) :=
  Exec.get_ofOption h

theorem getSuperBlock_run {B : SuperBlock} (h : s.superBlock w = some B) :
    getSuperBlock w s = .ok (B, s) :=
  Exec.get_ofOption h

theorem getDirCache_run {c : DirCache} (h : s.dirCache w = some c) :
    getDirCache w s = .ok (c, s) :=
  Exec.get_ofOption h

theorem rfsR1block_run {nBlock : Int} (h : 0 ≤ nBlock ∧ nBlock < 128) :
    rfsR1block nBlock s = .ok (0, { s with iobuffer := s.disk nBlock.toNat }) := by
  have hne : ¬(nBlock < 0 ∨ nBlock ≥ (128 : Int)) := by omega
  simp only [rfsR1block, ramdiskRead, if_neg hne]
  rfl

theorem rfsW1block_run {nBlock : Int} (h : 0 ≤ nBlock ∧ nBlock < 128) :
    rfsW1block nBlock s = .ok (0, { s with disk := upd s.disk nBlock.toNat s.iobuffer }) := by
  have hne : ¬(nBlock < 0 ∨ nBlock ≥ (128 : Int)) := by omega
  simp only [rfsW1block, ramdiskWrite, if_neg hne]
  rfl

theorem setIobuffer_run (g : Block → Block) :
    setIobuffer g s = .ok ((), { s with iobuffer := g s.iobuffer }) := rfl

theorem addrAt_run {addrs : Fin directBlknum → Int} {i : Nat} (h : i < 10) :
    addrAt addrs i s = .ok (addrOf addrs i, s) := by
  have hi : 0 ≤ (i : Int) ∧ (i : Int) < directBlknum := ⟨by omega, Int.ofNat_lt.mpr h⟩
  simp only [addrAt, dif_pos hi, addrOf, dif_pos (show i < directBlknum from h), Int.toNat_natCast]
  rfl

theorem rfsWriteDinode_run {di : Dinode} {n : Int} (hn : InodeNum n) :
    rfsWriteDinode di n s = .ok (0, { s with
      disk := writeInode s.disk di n
      iobuffer := memcpy (s.disk (inodeBlock n)) (inodeOff n) dinodeSize di.byte }) := by
  obtain ⟨hblk, hblkEq, hoff, hoffEq⟩ := inode_place hn
  unfold rfsWriteDinode
  rw [bind_of_ok (rfsR1block_run hblk), if_neg hoff, bind_of_ok (setIobuffer_run _),
    rfsW1block_run hblk, hblkEq, hoffEq]
  rfl

theorem rfsWriteBackVinode_run {v : Vinode} (hv : s.vinode w = some v) (hn : InodeNum v.inum) :
    rfsWriteBackVinode w s = .ok (0, { s with
      disk := writeInode s.disk v.toDinode v.inum
      iobuffer := memcpy (s.disk (inodeBlock v.inum)) (inodeOff v.inum) dinodeSize
        v.toDinode.byte }) := by
  unfold rfsWriteBackVinode
  rw [bind_of_ok (getVinode_run hv), bind_of_ok (rfsWriteDinode_run hn)]
  rfl

/-- `addrs` with one entry replaced. -/
def withAddr (addrs : Fin directBlknum → Int) (i : Nat) (a : Int) : Fin directBlknum → Int :=
  fun k => if (k : Int) = i then a else addrs k

theorem setAddr_run {addrs : Fin directBlknum → Int} {i : Nat} {a : Int} (h : i < 10) :
    setAddr addrs i a s = .ok (withAddr addrs i a, s) := by
  have hi : 0 ≤ (i : Int) ∧ (i : Int) < directBlknum := ⟨by omega, Int.ofNat_lt.mpr h⟩
  simp only [setAddr, if_pos hi]
  rfl

theorem addrOf_withAddr {addrs : Fin directBlknum → Int} {i j : Nat} {a : Int} (hi : i < 10) :
    addrOf (withAddr addrs i a) j = if j = i then a else addrOf addrs j := by
  unfold addrOf withAddr
  by_cases hj : j < directBlknum
  · simp only [dif_pos hj, Int.natCast_inj]
  · have hne : j ≠ i := fun heq => hj (heq ▸ hi)
    simp only [dif_neg hj, if_neg hne]

end

end Pke
