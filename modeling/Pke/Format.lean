import Pke.VfsSpec

/-!
# A fresh volume

`rfs_format_dev` leaves a disk that is `Formatted`: a super block, an
inode table with the root directory and nothing else, and a bitmap with
the block of the root marked. `rfs_get_superblock` reads the super
block, the root inode and the bitmap of whatever disk it finds.
-/

namespace Pke

open Exec (Post)

/-! ## Integers in a block -/

theorem getInt_putInt {b : Block} {off : Nat} {v : Int} (h : IsInt32 v) :
    getInt (putInt b off v) off = v :=
  leInt_intByte h fun _ hk => memcpy_in hk

theorem getInt_putInt_ne {b : Block} {off off' : Nat} {v : Int}
    (h : off' + 4 ≤ off ∨ off + 4 ≤ off') : getInt (putInt b off v) off' = getInt b off' :=
  getInt_congr fun k hk => memcpy_out (by omega)

theorem getInt_zero {b : Block} {off : Nat} (h : ∀ k < 4, b (off + k) = 0) : getInt b off = 0 := by
  have hzero : ∀ k < 4, intByte 0 k = 0 := by decide
  exact leInt_intByte (by decide) fun k hk => by rw [h k hk, hzero k hk]

/-! ## The inode table -/

theorem getInt_formatInodes_out : ∀ {n : Nat} {b : Block} {off : Nat}, n * 128 ≤ off →
    getInt (formatInodes n b) off = getInt b off
  | 0, _, _, _ => rfl
  | n + 1, b, off, h => by
      rw [formatInodes, getInt_formatInodes_out (by omega), getInt_putInt_ne (by omega),
        getInt_putInt_ne (by omega), getInt_putInt_ne (by omega), getInt_putInt_ne (by omega)]

/-- The inodes of a fresh inode block are free and have no links. -/
theorem getInt_formatInodes : ∀ {n : Nat} {b : Block} {i : Nat}, i < n →
    getInt (formatInodes n b) (i * 128 + 4) = rFree ∧ getInt (formatInodes n b) (i * 128 + 8) = 0
  | n + 1, b, i, h => by
      rw [formatInodes]
      rcases Nat.lt_succ_iff_lt_or_eq.mp h with hlt | rfl
      · exact getInt_formatInodes hlt
      · rw [getInt_formatInodes_out (by omega), getInt_formatInodes_out (by omega)]
        constructor
        · rw [getInt_putInt_ne (by omega), getInt_putInt_ne (by omega), getInt_putInt (by decide)]
        · rw [getInt_putInt_ne (by omega), getInt_putInt (by decide)]

theorem type_diskInode {d : Nat → Block} {n : Int} (hn : InodeNum n) :
    (diskInode d n).type = getInt (d (inodeBlock n)) (inodeOff n + 4) ∧
      (diskInode d n).nlinks = getInt (d (inodeBlock n)) (inodeOff n + 8) := by
  simp only [diskInode, if_pos hn, getDinode, and_self]

section

variable {s : State} {o : Objs} {d : Nat → Block} {b : Block} {R : List Ptr} {E : Fault → Prop}

theorem formatInodeBlocks_post : ∀ {n i : Nat} {s : State} {d : Nat → Block}, i + n ≤ 10 →
    Holds s o d b R → Post (formatInodeBlocks n i) s (fun _ s' => ∃ d', Holds s' o d' b R ∧
      (∀ j, i < j → j ≤ i + n → d' j = b) ∧ ∀ j, j ≤ i ∨ i + n < j → d' j = d j) E
  | 0, i, s, d, _, h => .pure ⟨d, h, fun j h1 h2 => by omega, fun _ _ => rfl⟩
  | n + 1, i, s, d, hle, h => by
      unfold formatInodeBlocks
      refine .bind (rfsW1block_post h fun hout => absurd (by simp only [rfsBlkOffsetInode]; omega)
        hout) ?_
      rintro _ s1 ⟨rfl, -, h1⟩
      rw [if_neg (by decide), show (i : Int) + 1 = ((i + 1 : Nat) : Int) by omega]
      rw [show (rfsBlkOffsetInode + (i : Int)).toNat = i + 1 by simp only [rfsBlkOffsetInode]; omega]
        at h1
      refine (formatInodeBlocks_post (by omega) h1).mono ?_
      rintro _ s2 ⟨d2, h2, hin, hout⟩
      refine ⟨d2, h2, fun j hj1 hj2 => ?_, fun j hj => ?_⟩
      · by_cases hj : j = i + 1
        · rw [hout j (by omega), hj, upd_self]
        · exact hin j (by omega) (by omega)
      · rw [hout j (by omega), upd_ne (by omega)]

/-! ## Formatting -/

structure Formatted (d : Nat → Block) : Prop where
  magic : getInt (d 0) 0 = rfsMagic
  nblocks : getInt (d 0) 8 = 100
  root : ∃ addrs, diskInode d 0 = ⟨0, rDir, 1, 1, addrs⟩ ∧ addrOf addrs 0 = 12
  free : ∀ n, n ≠ 0 → (diskInode d n).type = rFree
  unlinked : ∀ n, n ≠ 0 → (diskInode d n).nlinks = 0
  bitmap : getInt (d 11) 0 = 1 ∧ ∀ k, 0 < k → k < 1024 → getInt (d 11) (4 * k) = 0

theorem rfsFormatDev_post {stack : Block} (h : Holds s o d b R) :
    Post (rfsFormatDev stack) s (fun _ s' => ∃ d', Ends s' o d' R ∧ Formatted d') E := by
  refine post_setIobuffer h fun s1 h1 => ?_
  refine .bind (rfsW1block_post h1 fun hout => absurd (by decide) hout) ?_
  rintro _ s2 ⟨rfl, -, h2⟩
  rw [if_neg (by decide)]
  refine post_setIobuffer h2 fun s3 h3 => ?_
  refine .bind (formatInodeBlocks_post (n := 10) (i := 0) (by omega) h3) ?_
  rintro _ s4 ⟨d4, h4, hin, hout⟩
  refine .bind (setAddr_post fun hc => absurd (by decide) hc) ?_
  rintro addrs _ ⟨rfl, -, rfl⟩
  refine .bind (rfsWriteDinode_post h4 (by decide)) ?_
  rintro _ s5 ⟨rfl, b5, h5⟩
  rw [if_neg (by decide)]
  refine post_setIobuffer h5 fun s6 h6 => ?_
  refine .bind (rfsW1block_post h6 fun hc => absurd (by decide) hc) ?_
  rintro _ s7 ⟨rfl, -, h7⟩
  rw [if_neg (by decide)]
  refine .pure ⟨_, ⟨_, h7⟩, ?_⟩
  generalize haddrs : (fun k : Fin directBlknum =>
    if (k : Int) = 0 then rfsBlkOffsetFree else getInt stack (4 * k)) = addrs at *
  have haddr : ∀ k, IsInt32 (addrs k) := by
    intro k
    rw [← haddrs]
    dsimp only
    split
    · decide
    · exact isInt32_getInt _ _
  have hfits : (⟨0, rDir, 1, 1, addrs⟩ : Dinode).Fits :=
    Dinode.fits_mk (show IsInt32 0 by decide) (show IsInt32 rDir by decide)
      (show IsInt32 1 by decide) (show IsInt32 1 by decide) haddr
  have hino : diskInode (upd (writeInode d4 ⟨0, rDir, 1, 1, addrs⟩ 0) 11
      (putInt (memcpy b5 0 4096 fun _ => 0) 0 1)) =
        upd (diskInode d4) 0 ⟨0, rDir, 1, 1, addrs⟩ := by
    rw [diskInode_data (Nat.le_refl 11), diskInode_write (by decide) hfits]
  have hsuper : upd (writeInode d4 ⟨0, rDir, 1, 1, addrs⟩ 0) 11
      (putInt (memcpy b5 0 4096 fun _ => 0) 0 1) 0 =
        putInt (putInt (putInt (putInt b 0 rfsMagic) 4 112) 8 100) 12 320 := by
    rw [upd_ne (by decide), writeInode, upd_ne (by decide), hout 0 (by omega)]
    rfl
  have hfresh : ∀ n, n ≠ 0 → (diskInode d4 n).type = rFree ∧ (diskInode d4 n).nlinks = 0 := by
    intro n hn
    by_cases hnum : InodeNum n
    · obtain ⟨hlo, hhi⟩ := inodeBlock_range hnum
      have hoff : inodeOff n = (n % 32).toNat * 128 := by
        unfold inodeOff
        omega
      obtain ⟨ht, hl⟩ := type_diskInode (d := d4) hnum
      rw [ht, hl, hin _ (by omega) (by omega), hoff]
      exact getInt_formatInodes (by omega)
    · rw [diskInode, if_neg hnum]
      exact ⟨rfl, rfl⟩
  refine ⟨?_, ?_, ⟨addrs, ?_, ?_⟩, fun n hn => ?_, fun n hn => ?_, ?_, fun k hk hk' => ?_⟩
  · show getInt (upd (writeInode d4 _ 0) 11 _ 0) 0 = rfsMagic
    rw [hsuper, getInt_putInt_ne (by decide), getInt_putInt_ne (by decide),
      getInt_putInt_ne (by decide), getInt_putInt (by decide)]
  · show getInt (upd (writeInode d4 _ 0) 11 _ 0) 8 = 100
    rw [hsuper, getInt_putInt_ne (by decide), getInt_putInt (by decide)]
  · exact (congrFun hino 0).trans (upd_self _ _ _)
  · rw [← haddrs]
    rfl
  · refine (congrArg Dinode.type (congrFun hino n)).trans ?_
    rw [upd_ne hn]
    exact (hfresh n hn).1
  · refine (congrArg Dinode.nlinks (congrFun hino n)).trans ?_
    rw [upd_ne hn]
    exact (hfresh n hn).2
  · show getInt (upd _ 11 _ 11) 0 = 1
    rw [upd_self, getInt_putInt (by decide)]
  · show getInt (upd _ 11 _ 11) (4 * k) = 0
    rw [upd_self, getInt_putInt_ne (by omega)]
    exact getInt_zero fun j hj => memcpy_zero (by omega)

/-! ## Reading it back -/

/-- The super block `rfs_get_superblock` builds from a disk. -/
def superBlockOf (d : Nat → Block) (sRoot : Ptr) : SuperBlock where
  magic := getInt (d 0) 0
  size := getInt (d 0) 4
  nblocks := getInt (d 0) 8
  ninodes := getInt (d 0) 12
  sRoot := sRoot
  freemap := fun i => getInt (d 11) (4 * i)

theorem freemap_superBlockOf (d : Nat → Block) (sRoot : Ptr) :
    (superBlockOf d sRoot).freemap = fun i => getInt (d 11) (4 * i) := by
  rw [superBlockOf]

theorem nblocks_superBlockOf (d : Nat → Block) (sRoot : Ptr) :
    (superBlockOf d sRoot).nblocks = getInt (d 0) 8 := by
  rw [superBlockOf]

theorem rfsGetSuperblock_post (h : Holds s o d b []) (hmagic : getInt (d 0) 0 = rfsMagic)
    (hE : E .nullPage) :
    Post rfsGetSuperblock s (fun sb s' => ∃ w t, o.superBlock sb = none ∧ o.vinode w = none ∧
      w ≠ 0 ∧ o.dentry t = none ∧ t ≠ 0 ∧ Ends s' { o with
        superBlock := upd o.superBlock sb (some (superBlockOf d t))
        vinode := upd o.vinode w (some { loadedVinode sb 0 (diskInode d 0) with ref := 1 })
        dentry := upd o.dentry t (some ⟨rootName, 0, w, 0⟩) } d []) E := by
  refine .bind (rfsR1block_post h fun hout => absurd (by decide) hout) ?_
  rintro _ s1 ⟨rfl, -, h1⟩
  rw [if_neg (by decide)]
  refine .bindGet ?_
  have hio : s1.iobuffer = d 0 := h1.io
  rw [hio]
  refine .bind (allocPage_post h1 hE) ?_
  intro sb s2 hs2
  have h2 := hs2.1
  have hsb := hs2.2.1
  dsimp only
  rw [if_neg (not_not.mpr hmagic)]
  refine .bind (rfsLoadVinode_post h2 (by decide) hE) ?_
  rintro ⟨w, ret⟩ s3 ⟨-, hw, hw0, hwR, b3, h3⟩
  refine .bind (allocVfsDentry_inode h3 (upd_self _ _ _) hE) ?_
  rintro t s4 ⟨ht, ht0, htR, h4⟩
  refine .bind (rfsR1block_post h4 fun hout => absurd (by decide) hout) ?_
  rintro _ s5 ⟨rfl, -, h5⟩
  rw [if_neg (by decide)]
  refine .bind (allocPage_post h5 hE) ?_
  rintro page s6 ⟨h6, -, -, hpage⟩
  refine .bindGet ?_
  have hio6 : s6.iobuffer = d 11 := h6.io
  rw [hio6]
  -- the page of the freemap is never used; the map is kept in the super block
  have h7 : Holds s6 _ d _ [sb] := h6.leak (by simp)
  refine post_setNew superBlockKind h7 (by simp) fun s8 h8 => .pure ?_
  refine ⟨w, t, hsb.superBlock, hw.vinode, hw0, ht.dentry, ht0, _, h8.cast ?_⟩
  simp only [Objs.setV, Objs.setD, upd_upd]
  rfl

end

end Pke
