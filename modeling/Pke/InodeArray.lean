import Pke.Splice

/-!
# Disk inodes as an array

The inodes of the disk are packed, 32 to a block, and both functions that
reach them go through the I/O buffer of the device: `rfs_read_dinode` copies
one out of its block, `rfs_write_dinode` reads the block, overwrites one slot
and writes the block back. Together they are the two operations of an array
(`StoresInode`): what is written at a number is read there, and neither
another number nor a block outside the inode's own sees the write. Nothing
is asked of the state, its disk or what the buffer holds.

Reading takes a page for the copy. The statements say which one it is, so
that a read that finds no page is the same before and after.
-/

namespace Pke

open Exec (bind_of_ok bind_of_error)

/-! ## Pages and the device -/

/-- `alloc_page` does not look at the disk. -/
theorem allocPage_device (s : State) (d : Nat → Block) (b : Block) :
    allocPage { s with disk := d, iobuffer := b } =
      (allocPage s).map fun r => (r.1, { r.2 with disk := d, iobuffer := b }) := by
  unfold allocPage
  rw [Exec.bind_get, Exec.bind_get]
  dsimp only
  cases s.freePages with
  | nil => rfl
  | cons p rest =>
      dsimp only
      split <;> rfl

/-- A page that `alloc_page` hands out was free before, and the bounds that
`free_page` checks stay. -/
theorem allocPage_takes {s s1 : State} {p : Ptr} (h : allocPage s = .ok (p, s1)) :
    s.pages p = .free ∧ s1 = { s.setPage p .raw with freePages := s1.freePages } := by
  have hpost : Exec.Post allocPage s (fun p s1 => s.pages p = .free ∧
      s1 = { s.setPage p .raw with freePages := s1.freePages }) fun _ => True := by
    unfold allocPage
    refine .bindGet ?_
    split
    · exact .fault trivial
    · refine .ite (fun hp => .bindModify (.pure ⟨?_, rfl⟩)) fun _ => .fault trivial
      exact Page.eq_free hp
  exact hpost.of_ok h

/-- `free_page` looks at the bounds of the memory only. -/
theorem freePage_bounds {s s1 t : State} {p : Ptr} (h : freePage p s = .ok ((), s1))
    (hstart : t.freeMemStart = s.freeMemStart) (hend : t.freeMemEnd = s.freeMemEnd) :
    freePage p t = .ok ((), { t.setPage p .free with freePages := p :: t.freePages }) := by
  unfold freePage at *
  rw [Exec.bind_get] at h
  rw [Exec.bind_get, hstart, hend]
  split at h
  · cases h
  · rw [if_neg (by assumption)]
    rfl

/-! ## Reading -/

section

variable {s : State} {n : Int}

theorem rfsReadDinode_eq (hn : InodeNum n) : rfsReadDinode n s = (allocPage s).map fun r =>
    (some (r.1, diskInode s.disk n),
      { r.2 with disk := s.disk, iobuffer := s.disk (inodeBlock n) }) := by
  obtain ⟨hblk, hblkEq, hoff, hoffEq⟩ := inode_place hn
  unfold rfsReadDinode
  rw [bind_of_ok (rfsR1block_run hblk), if_neg (by decide), hblkEq]
  have halloc := allocPage_device s s.disk (s.disk (inodeBlock n))
  cases hs : allocPage s with
  | error e =>
      rw [hs] at halloc
      exact bind_of_error halloc
  | ok r =>
      rw [hs] at halloc
      rw [bind_of_ok halloc, if_neg hoff, hoffEq, diskInode, if_pos hn]
      rfl

/-- What `rfs_read_dinode` returns: the page and the inode in it. -/
def readInode (n : Int) (s : State) : Except Fault (Option (Ptr × Dinode)) :=
  (rfsReadDinode n s).map Prod.fst

theorem readInode_eq (hn : InodeNum n) :
    readInode n s = (allocPage s).map fun r => some (r.1, diskInode s.disk n) := by
  rw [readInode, rfsReadDinode_eq hn]
  cases allocPage s <;> rfl

end

/-! ## Writing -/

/-- Disk inode `n` becomes `di` between two states, and nothing else on the
disk changes. -/
structure StoresInode (s s1 : State) (n : Int) (di : Dinode) : Prop where
  self : readInode n s1 = (allocPage s).map fun r => some (r.1, di)
  others : ∀ m, InodeNum m → m ≠ n → readInode m s1 = readInode m s
  block : 1 ≤ inodeBlock n ∧ inodeBlock n ≤ 10
  blocks : ∀ blk, blk ≠ inodeBlock n → s1.disk blk = s.disk blk

section

variable {s : State} {n : Int} {di : Dinode}

theorem StoresInode.write (hn : InodeNum n) (hfits : di.Fits) (b : Block) :
    StoresInode s { s with disk := writeInode s.disk di n, iobuffer := b } n di := by
  have hpage := allocPage_device s (writeInode s.disk di n) b
  refine ⟨?_, fun m hm hmn => ?_, inodeBlock_range hn, fun blk hblk => upd_ne hblk⟩
  · rw [readInode_eq hn, hpage, diskInode_write hn hfits, upd_self]
    cases allocPage s <;> rfl
  · rw [readInode_eq hm, readInode_eq hm, hpage, diskInode_write_ne hn hmn]
    cases allocPage s <;> rfl

/-- `rfs_update_vinode` when a page can be taken for the copy and given back. -/
theorem rfsUpdateVinode_run {w p : Ptr} {v : Vinode} {s1 s2 : State} (hv : s.vinode w = some v)
    (hn : InodeNum v.inum) (htake : allocPage s = .ok (p, s1)) (hgive : freePage p s1 = .ok ((), s2)) :
    ∃ s3, rfsUpdateVinode w s = .ok (0, s3) ∧
      s3.vinode w = some (v.load (diskInode s.disk v.inum)) := by
  obtain ⟨hfree, hs1⟩ := allocPage_takes htake
  -- the page taken is not the vinode's, so giving it back does not touch the vinode
  have hne : w ≠ p := by
    rintro rfl
    rw [State.vinode, hfree] at hv
    cases hv
  have hread := rfsReadDinode_eq (s := s) hn
  rw [htake] at hread
  unfold rfsUpdateVinode
  rw [bind_of_ok (getVinode_run hv), bind_of_ok hread]
  have hset : ∀ (x : Vinode) (t : State), setVinode w x t = .ok ((), t.setPage w (.vinode x)) :=
    fun _ _ => rfl
  refine ⟨_, (bind_of_ok (hset _ _)).trans (bind_of_ok (freePage_bounds hgive rfl rfl)), ?_⟩
  simp only [State.vinode, State.setPage, upd_ne hne, upd_self]
  rfl

end

theorem inode_array (s : State) {n : Int} {di : Dinode} (hn : InodeNum n) (hfits : di.Fits) :
    (∃ s1, rfsWriteDinode di n s = .ok (0, s1) ∧ StoresInode s s1 n di) ∧
    ∀ w w' v v', s.vinode w = some v → s.vinode w' = some v' → v.inum = n → v'.inum = n →
      v.toDinode = di →
      ∃ s1, rfsWriteBackVinode w s = .ok (0, s1) ∧ StoresInode s s1 n di ∧
        ∀ p s2 s3, allocPage s = .ok (p, s2) → freePage p s2 = .ok ((), s3) →
          ∃ s4, rfsUpdateVinode w' s1 = .ok (0, s4) ∧ s4.vinode w' = some (v'.load di) := by
  refine ⟨⟨_, rfsWriteDinode_run hn, .write hn hfits _⟩, ?_⟩
  rintro w w' v v' hv hv' rfl hinum rfl
  refine ⟨_, rfsWriteBackVinode_run hv hn, .write hn hfits _, ?_⟩
  intro p s2 s3 htake hgive
  generalize memcpy (s.disk (inodeBlock v.inum)) _ _ _ = b
  -- the pages are those of `s`: only the disk and the buffer have changed
  have htake' := allocPage_device s (writeInode s.disk v.toDinode v.inum) b
  rw [htake] at htake'
  obtain ⟨s4, hrun, hs4⟩ := rfsUpdateVinode_run
    (s := { s with disk := writeInode s.disk v.toDinode v.inum, iobuffer := b }) hv'
    (hinum ▸ hn) htake' (freePage_bounds hgive rfl rfl)
  refine ⟨s4, hrun, ?_⟩
  rw [hs4, hinum, diskInode_write hn hfits, upd_self]

/-- A vinode of the same file that has not been loaded yet. -/
def unloadedFile : Vinode := { twoBytesFile with size := 0, blocks := 0, addrs := fun _ => 0 }

/-- The state with both vinodes and one free page. -/
def twoVinodes : State :=
  { twoBytes.setPage 12288 (.vinode unloadedFile) with freePages := [16384], freeMemEnd := 20480 }

theorem inode_array_two : ∃ s1 s4, rfsWriteBackVinode 8192 twoVinodes = .ok (0, s1) ∧
    rfsUpdateVinode 12288 s1 = .ok (0, s4) ∧ s4.vinode 12288 = some twoBytesFile := by
  obtain ⟨s1, hwrite, -, hupdate⟩ := (inode_array twoVinodes (n := 1) (by decide)
    twoBytesFile_fits).2 8192 12288 twoBytesFile unloadedFile rfl rfl rfl rfl rfl
  obtain ⟨s4, hrun, hs4⟩ := hupdate 16384 _ _ rfl rfl
  exact ⟨s1, s4, hwrite, hrun, hs4⟩

end Pke
