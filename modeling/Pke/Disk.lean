import Pke.Rfs

/-!
# What is on the disk

The disk as the file system reads it: the disk inode of a number
(`diskInode`) and the entries of a directory (`dirEnts`), both functions
of the bytes of the blocks. The lemmas say what the writes of `rfs.c`
do to them: writing a disk inode changes that inode (`diskInode_write`)
and no entry of another directory, writing an entry at the end of a
directory appends it (`direntries_append`), and moving the entries after
one forward removes it (`direntries_erase`).
-/

namespace Pke

/-! ## Disk inodes -/

/-- What is read for a number that no disk inode has. -/
def Dinode.none : Dinode :=
  { size := 0, type := rFree, nlinks := 0, blocks := 0, addrs := fun _ => 0 }

/-- `addrs[i]`, and 0 past the end. -/
def addrOf (addrs : Fin directBlknum → Int) (i : Nat) : Int :=
  if h : i < directBlknum then addrs ⟨i, h⟩ else 0

/-- The block of a disk inode. -/
def inodeBlock (n : Int) : Nat := (n / 32 + 1).toNat

/-- The place of a disk inode in its block. -/
def inodeOff (n : Int) : Nat := (n % 32 * 128).toNat

def InodeNum (n : Int) : Prop := 0 ≤ n ∧ n < 320

instance (n : Int) : Decidable (InodeNum n) := inferInstanceAs (Decidable (_ ∧ _))

def diskInode (d : Nat → Block) (n : Int) : Dinode :=
  if InodeNum n then getDinode (d (inodeBlock n)) (inodeOff n) else .none

/-- The disk after `rfs_write_dinode`. -/
def writeInode (d : Nat → Block) (di : Dinode) (n : Int) : Nat → Block :=
  upd d (inodeBlock n) (memcpy (d (inodeBlock n)) (inodeOff n) dinodeSize di.byte)

/-- Every field fits an `int`. -/
def Dinode.Fits (di : Dinode) : Prop := ∀ k < 14, IsInt32 (di.word k)

variable {di : Dinode} {k i : Nat} {b : Block} {d : Nat → Block} {n inum : Int} {name : Name}

theorem Dinode.fits_mk (hsize : IsInt32 di.size) (htype : IsInt32 di.type)
    (hnlinks : IsInt32 di.nlinks) (hblocks : IsInt32 di.blocks) (haddrs : ∀ i, IsInt32 (di.addrs i))
    : di.Fits := by
  intro k hk
  match k with
  | 0 => exact hsize
  | 1 => exact htype
  | 2 => exact hnlinks
  | 3 => exact hblocks
  | k + 4 =>
      have hk' : k < directBlknum := by simp only [directBlknum]; omega
      simp only [Dinode.word, dif_pos hk']
      exact haddrs _

namespace Dinode.Fits

variable {di : Dinode} (h : di.Fits)

include h

theorem size : IsInt32 di.size := h 0 (by decide)
theorem type : IsInt32 di.type := h 1 (by decide)
theorem nlinks : IsInt32 di.nlinks := h 2 (by decide)
theorem blocks : IsInt32 di.blocks := h 3 (by decide)

theorem addrs (i : Fin directBlknum) : IsInt32 (di.addrs i) := by
  have hlt : (i : Nat) + 4 < 14 := by
    have := i.isLt
    simp only [directBlknum] at this
    omega
  simpa only [Dinode.word, dif_pos i.isLt] using h (i + 4) hlt

end Dinode.Fits

theorem getInt_inode (b : Block) (off : Nat) (hfits : di.Fits) (hk : k < 14) :
    getInt (memcpy b off dinodeSize di.byte) (off + 4 * k) = di.word k := by
  refine leInt_intByte (hfits k hk) fun i hi => ?_
  have hlt : 4 * k + i < dinodeSize := by simp only [dinodeSize]; omega
  rw [Nat.add_assoc, memcpy_in hlt, Dinode.byte, show (4 * k + i) / 4 = k by omega,
    show (4 * k + i) % 4 = i by omega]

/-- An inode that is written reads back. -/
theorem getDinode_memcpy {off : Nat} (hfits : di.Fits) :
    getDinode (memcpy b off dinodeSize di.byte) off = di := by
  have haddr : ∀ i : Fin directBlknum,
      getInt (memcpy b off dinodeSize di.byte) (off + 16 + 4 * i) = di.addrs i := by
    intro i
    have hi : (i : Nat) < 10 := i.isLt
    have := getInt_inode b off hfits (k := i + 4) (by omega)
    rw [show off + 4 * ((i : Nat) + 4) = off + 16 + 4 * i by omega] at this
    rw [this]
    simp only [Dinode.word, dif_pos i.isLt]
  unfold getDinode
  rw [funext haddr]
  have h0 := getInt_inode b off hfits (k := 0) (by omega)
  have h1 := getInt_inode b off hfits (k := 1) (by omega)
  have h2 := getInt_inode b off hfits (k := 2) (by omega)
  have h3 := getInt_inode b off hfits (k := 3) (by omega)
  simp only [Nat.mul_zero, Nat.add_zero, Nat.mul_one, Nat.reduceMul] at h0 h1 h2 h3
  rw [h0, h1, h2, h3]
  rfl

theorem getDinode_congr {b' : Block} {off : Nat} (h : ∀ k < dinodeSize, b (off + k) = b' (off + k))
    : getDinode b off = getDinode b' off := by
  have hint : ∀ k ≤ 52, getInt b (off + k) = getInt b' (off + k) := by
    intro k hk
    refine getInt_congr fun i hi => ?_
    rw [Nat.add_assoc]
    exact h _ (by simp only [dinodeSize]; omega)
  have haddr : ∀ i : Fin directBlknum,
      getInt b (off + 16 + 4 * i) = getInt b' (off + 16 + 4 * i) := by
    intro i
    have hi : (i : Nat) < 10 := i.isLt
    rw [Nat.add_assoc]
    exact hint _ (by omega)
  unfold getDinode
  rw [funext haddr, hint 4 (by omega), hint 8 (by omega), hint 12 (by omega),
    show getInt b off = getInt b' off from hint 0 (by omega)]

theorem fits_diskInode (d : Nat → Block) (n : Int) : (diskInode d n).Fits := by
  unfold diskInode
  split
  · have hint : ∀ off, IsInt32 (getInt (d (inodeBlock n)) off) := isInt32_getInt _
    refine Dinode.fits_mk ?_ ?_ ?_ ?_ fun i => ?_ <;> simp only [getDinode] <;> exact hint _
  · refine Dinode.fits_mk ?_ ?_ ?_ ?_ fun i => ?_ <;>
      simp only [Dinode.none, IsInt32] <;> decide

/-- Writing a disk inode leaves the others alone, those in its block included. -/
theorem diskInode_write_ne {m : Int} (hn : InodeNum n) (hmn : m ≠ n) :
    diskInode (writeInode d di n) m = diskInode d m := by
  obtain ⟨hn0, hn1⟩ := hn
  unfold diskInode
  split
  · rename_i hm
    obtain ⟨hm0, hm1⟩ := hm
    refine getDinode_congr fun k hk => ?_
    simp only [dinodeSize] at hk
    by_cases hblk : inodeBlock m = inodeBlock n
    · rw [hblk, writeInode, upd_self]
      refine memcpy_out ?_
      unfold inodeBlock at hblk
      simp only [inodeOff, dinodeSize]
      omega
    · rw [writeInode, upd_ne hblk]
  · rfl

theorem diskInode_write (hn : InodeNum n) (hfits : di.Fits) :
    diskInode (writeInode d di n) = upd (diskInode d) n di := by
  funext m
  rcases eq_or_ne m n with rfl | hmn
  · rw [upd_self, diskInode, if_pos hn, writeInode, upd_self]
    exact getDinode_memcpy hfits
  · rw [upd_ne hmn, diskInode_write_ne hn hmn]

theorem inodeBlock_range (hn : InodeNum n) : 1 ≤ inodeBlock n ∧ inodeBlock n ≤ 10 := by
  obtain ⟨h0, h1⟩ := hn
  unfold inodeBlock
  omega

/-- Writing a block that holds no inodes. -/
theorem diskInode_data {blk : Nat} (hblk : 11 ≤ blk) (b : Block) :
    diskInode (upd d blk b) = diskInode d := by
  funext n
  unfold diskInode
  split
  · rename_i hn
    have := (inodeBlock_range hn).2
    rw [upd_ne (by omega)]
  · rfl

theorem diskInode_congr {d' : Nat → Block} (h : ∀ blk < 12, d' blk = d blk) :
    diskInode d' n = diskInode d n := by
  unfold diskInode
  by_cases hn : InodeNum n
  · have := inodeBlock_range hn
    rw [h _ (by omega)]
  · rw [if_neg hn, if_neg hn]

/-! ## Directory entries -/

/-- Entry `i` of a directory block. -/
def direntry (b : Block) (i : Nat) : Int × Name :=
  (getInt b (32 * i), cstr b (32 * i + 4) rfsMaxFileNameLen)

def direntryCount (size : Int) : Nat := (size / 32).toNat

/-- The first `n` entries of a directory block. -/
def direntries (b : Block) (n : Nat) : List (Int × Name) := (List.range n).map (direntry b)

/-- The entries of directory `n`; none when there is no such directory. -/
def dirEnts (d : Nat → Block) (n : Int) : List (Int × Name) :=
  let di := diskInode d n
  if di.type = rDir then direntries (d (addrOf di.addrs 0).toNat) (direntryCount di.size) else []

/-- What can be stored as a name. -/
def NameOk (name : Name) : Prop := 0 ∉ name ∧ name.length < rfsMaxFileNameLen

theorem direntry_congr {b' : Block} {i' : Nat} (h : ∀ k < 32, b (32 * i + k) = b' (32 * i' + k)) :
    direntry b i = direntry b' i' := by
  have hint : getInt b (32 * i) = getInt b' (32 * i') :=
    getInt_congr fun k hk => h k (by omega)
  have hstr : cstr b (32 * i + 4) rfsMaxFileNameLen =
      cstr b' (32 * i' + 4) rfsMaxFileNameLen := by
    refine cstr_congr fun k hk => ?_
    simp only [rfsMaxFileNameLen] at hk
    rw [Nat.add_assoc, Nat.add_assoc]
    exact h _ (by omega)
  rw [direntry, direntry, hint, hstr]

/-- The directory block after `rfs_add_direntry` has stored entry `k`. -/
def putDirentry (b : Block) (k : Nat) (inum : Int) (name : Name) : Block :=
  memcpy (putInt b (32 * k) inum) (32 * k + 4) (name.length + 1) (strBytes name)

theorem direntry_put_self (hinum : IsInt32 inum) (hname : NameOk name) :
    direntry (putDirentry b k inum name) k = (inum, name) := by
  obtain ⟨hnul, hlen⟩ := hname
  simp only [rfsMaxFileNameLen] at hlen
  have hint : getInt (putDirentry b k inum name) (32 * k) = inum := by
    refine leInt_intByte hinum fun i hi => ?_
    rw [putDirentry, memcpy_out (by omega), putInt, memcpy_in hi]
  have hstr : cstr (putDirentry b k inum name) (32 * k + 4) rfsMaxFileNameLen = name := by
    refine cstr_of_bytes hnul hlen fun i hi => ?_
    rw [putDirentry, memcpy_in (by omega)]
  rw [direntry, hint, hstr]

theorem direntry_put_ne (hname : NameOk name) (hik : i ≠ k) :
    direntry (putDirentry b k inum name) i = direntry b i := by
  have hlen := hname.2
  simp only [rfsMaxFileNameLen] at hlen
  refine direntry_congr fun j hj => ?_
  rw [putDirentry, memcpy_out (by omega), putInt, memcpy_out (by omega)]

theorem direntries_append (hinum : IsInt32 inum) (hname : NameOk name) :
    direntries (putDirentry b k inum name) (k + 1) = direntries b k ++ [(inum, name)] := by
  have hsame : (List.range k).map (direntry (putDirentry b k inum name)) =
      (List.range k).map (direntry b) :=
    List.map_congr_left fun i hi =>
      direntry_put_ne hname (Nat.ne_of_lt (List.mem_range.mp hi))
  unfold direntries
  rw [List.range_succ, List.map_append, List.map_singleton, direntry_put_self hinum hname,
    hsame]

/-- The directory block after `rfs_unlink` has removed entry `k`. -/
def eraseDirentry (b : Block) (k : Nat) : Block :=
  memmove b (k * 32) ((k + 1) * 32) ((128 - k - 1) * 32)

theorem direntry_erase (hi : i < 127) :
    direntry (eraseDirentry b k) i = direntry b (if i < k then i else i + 1) := by
  refine direntry_congr fun j hj => ?_
  rw [eraseDirentry, memmove]
  split
  · rw [memcpy_out (by omega)]
  · rw [show 32 * i + j = k * 32 + (32 * i + j - k * 32) by omega, memcpy_in (by omega)]
    congr 1
    omega

theorem direntries_erase {n : Nat} (hk : k < n) (hn : n ≤ 128) :
    direntries (eraseDirentry b k) (n - 1) = (direntries b n).eraseIdx k := by
  refine List.ext_getElem ?_ fun i hi hi' => ?_
  · simp [direntries, List.length_eraseIdx, hk]
  · simp only [direntries, List.length_map, List.length_range] at hi
    rw [List.getElem_eraseIdx]
    simp only [direntries, List.getElem_map, List.getElem_range]
    rw [direntry_erase (by omega)]
    split <;> rfl

end Pke
