import Pke.Heap
import Pke.Disk

/-!
# What the functions of RFS do

One specification per function of `rfs.c`, in terms of the objects in
memory and the blocks of the disk. They ask for no more than each
function needs to run (a pointer to a vinode, an inode number that
exists); what the directory entries and block lists mean is not their
concern. Where a function can stop, the fault is a side condition, so
that the same statement serves the proofs that exclude it and those that
do not care.
-/

namespace Pke

open Exec

/-- `Holds` with any I/O buffer and no page owned. -/
def Ends (s : State) (o : Objs) (d : Nat → Block) (R : List Ptr) : Prop := ∃ b, Holds s o d b R

/-- Faults other than a failed assertion. -/
def NoAssert (e : Fault) : Prop := ∀ cond, e ≠ .assertion cond

theorem noAssert_panic (msg : String) : NoAssert (.panic msg) := nofun
theorem noAssert_ub (what : String) : NoAssert (.ub what) := nofun
theorem noAssert_nullPage : NoAssert .nullPage := nofun

variable {n inum : Int} {w sb parent sub : Ptr} {v : Vinode} {B : SuperBlock} {x : Dentry} {k : Nat}

section

variable {s : State} {o : Objs} {d : Nat → Block} {b : Block} {R : List Ptr}
  {E : Fault → Prop}

/-! ## Blocks -/

theorem rfsR1block_post {nBlock : Int} (h : Holds s o d b R)
    (hout : ¬(0 ≤ nBlock ∧ nBlock < 128) →
      E (.panic "ramdisk_read: read block No out of range!")) :
    Post (rfsR1block nBlock) s (fun ret s' => ret = 0 ∧ (0 ≤ nBlock ∧ nBlock < 128) ∧
      Holds s' o d (d nBlock.toNat) R) E := by
  unfold rfsR1block ramdiskRead
  refine .ite (fun hc => .fault (hout ?_)) fun hc => .bindModify (.pure ⟨rfl, ?_, ?_⟩)
  · simp only [ramdiskBlockCount] at hc
    omega
  · simp only [ramdiskBlockCount] at hc
    omega
  · obtain rfl := h.disk
    exact h.withIo _

theorem rfsW1block_post {nBlock : Int} (h : Holds s o d b R)
    (hout : ¬(0 ≤ nBlock ∧ nBlock < 128) →
      E (.panic "ramdisk_write: write block No out of range!")) :
    Post (rfsW1block nBlock) s (fun ret s' => ret = 0 ∧ (0 ≤ nBlock ∧ nBlock < 128) ∧
      Holds s' o (upd d nBlock.toNat b) b R) E := by
  unfold rfsW1block ramdiskWrite
  refine .ite (fun hc => .fault (hout ?_)) fun hc => .bindModify (.pure ⟨rfl, ?_, ?_⟩)
  · simp only [ramdiskBlockCount] at hc
    omega
  · simp only [ramdiskBlockCount] at hc
    omega
  · obtain rfl := h.disk
    obtain rfl := h.io
    exact h.withDisk _

theorem post_setIobuffer {α : Type} {Q : α → State → Prop} {g : Block → Block}
    {f : Unit → Kern α} (h : Holds s o d b R)
    (hf : ∀ s', Holds s' o d (g b) R → Post (f ()) s' Q E) :
    Post (setIobuffer g >>= f) s Q E := by
  refine .bindModify (hf _ ?_)
  rw [← h.io]
  exact h.withIo _

theorem addrAt_post {addrs : Fin directBlknum → Int} {i : Int}
    (hout : ¬(0 ≤ i ∧ i < 10) → E (.ub "addrs")) :
    Post (addrAt addrs i) s
      (fun a s' => s' = s ∧ (0 ≤ i ∧ i < 10) ∧ a = addrOf addrs i.toNat) E := by
  unfold addrAt
  split
  · rename_i hi
    have hlt : i.toNat < directBlknum := by simp only [directBlknum] at hi ⊢; omega
    exact .pure ⟨rfl, hi, by rw [addrOf, dif_pos hlt]⟩
  · exact .fault (hout (by assumption))

theorem setAddr_post {addrs : Fin directBlknum → Int} {i v : Int}
    (hout : ¬(0 ≤ i ∧ i < 10) → E (.ub "addrs")) :
    Post (setAddr addrs i v) s (fun a s' => s' = s ∧ (0 ≤ i ∧ i < 10) ∧
      a = fun k : Fin directBlknum => if (k : Int) = i then v else addrs k) E := by
  unfold setAddr
  exact .ite (fun hi => .pure ⟨rfl, hi, rfl⟩) fun hi => .fault (hout hi)

/-! ## Disk inodes -/

/-- The block number and the place in the block as the source computes them. -/
theorem inode_place (hn : InodeNum n) :
    (0 ≤ n.tdiv 32 + rfsBlkOffsetInode ∧ n.tdiv 32 + rfsBlkOffsetInode < 128) ∧
      (n.tdiv 32 + rfsBlkOffsetInode).toNat = inodeBlock n ∧
      ¬n.tmod 32 < 0 ∧ (n.tmod 32 * rfsInodesize).toNat = inodeOff n := by
  obtain ⟨h0, h1⟩ := hn
  rw [Int.tdiv_eq_ediv_of_nonneg h0, Int.tmod_eq_emod_of_nonneg h0]
  refine ⟨?_, rfl, by omega, rfl⟩
  simp only [rfsBlkOffsetInode]
  omega

theorem rfsReadDinode_post (h : Holds s o d b R) (hn : InodeNum n) (hE : E .nullPage) :
    Post (rfsReadDinode n) s (fun r s' => ∃ page, r = some (page, diskInode d n) ∧
      page ∉ R ∧ Holds s' o d (d (inodeBlock n)) (page :: R)) E := by
  obtain ⟨hblk, hblkEq, hoff, hoffEq⟩ := inode_place hn
  refine .bind (rfsR1block_post h fun hc => absurd hblk hc) ?_
  rintro _ s1 ⟨rfl, -, h1⟩
  rw [if_neg (by decide), hblkEq] at *
  refine .bind (allocPage_post h1 hE) ?_
  rintro page s2 ⟨h2, -, -, hpage⟩
  rw [if_neg hoff]
  refine .bindGet (.pure ⟨page, ?_, hpage, h2⟩)
  rw [h2.io, hoffEq, diskInode, if_pos hn]

theorem rfsWriteDinode_post {di : Dinode} (h : Holds s o d b R) (hn : InodeNum n) :
    Post (rfsWriteDinode di n) s
      (fun ret s' => ret = 0 ∧ Ends s' o (writeInode d di n) R) E := by
  obtain ⟨hblk, hblkEq, hoff, hoffEq⟩ := inode_place hn
  refine .bind (rfsR1block_post h fun hc => absurd hblk hc) ?_
  rintro _ s1 ⟨rfl, -, h1⟩
  rw [if_neg hoff]
  refine post_setIobuffer h1 fun s2 h2 => ?_
  refine (rfsW1block_post h2 fun hc => absurd hblk hc).mono ?_
  rintro _ s3 ⟨rfl, -, h3⟩
  rw [hblkEq, hoffEq] at h3
  exact ⟨rfl, _, h3⟩

theorem rfsWriteBackVinode_post (h : Holds s o d b R) (hv : o.vinode w = some v)
    (hn : InodeNum v.inum) : Post (rfsWriteBackVinode w) s
      (fun ret s' => ret = 0 ∧ Ends s' o (writeInode d v.toDinode v.inum) R) E := by
  refine post_known vinodeKind h hv ?_
  refine .bind (rfsWriteDinode_post h hn) ?_
  rintro _ s1 ⟨rfl, h1⟩
  rw [if_neg (by decide)]
  exact .pure ⟨rfl, h1⟩

/-- A vinode with the fields of a disk inode. -/
def Vinode.load (v : Vinode) (di : Dinode) : Vinode :=
  { v with
    size := di.size, nlinks := di.nlinks, blocks := di.blocks, type := di.type,
    addrs := di.addrs }

theorem rfsUpdateVinode_post (h : Holds s o d b R) (hv : o.vinode w = some v) (hn : InodeNum v.inum)
    (hE : E .nullPage) : Post (rfsUpdateVinode w) s (fun ret s' => ret = 0 ∧
      Ends s' { o with vinode := upd o.vinode w (some (v.load (diskInode d v.inum))) } d R) E := by
  refine post_known vinodeKind h hv ?_
  refine .bind (rfsReadDinode_post h hn hE) ?_
  rintro _ s1 ⟨page, rfl, hpage, h1⟩
  refine post_set vinodeKind h1 hv fun s2 h2 => ?_
  exact .bind (freePage_raw h2 hpage) fun _ s3 h3 => .pure ⟨rfl, _, h3⟩

/-- The vinode of a disk inode that has just been read. -/
def loadedVinode (sb : Ptr) (n : Int) (di : Dinode) : Vinode :=
  { inum := n, ref := 0, size := di.size, type := di.type, nlinks := di.nlinks,
    blocks := di.blocks, addrs := di.addrs, iFsInfo := 0, sb := sb, iOps := .rfs }

theorem rfsLoadVinode_post (h : Holds s o d b R) (hn : InodeNum n) (hE : E .nullPage) :
    Post (rfsLoadVinode sb n) s (fun r s' => r.2 = 0 ∧ o.Fresh r.1 ∧ r.1 ≠ 0 ∧ r.1 ∉ R ∧
      Ends s' { o with
        vinode := upd o.vinode r.1 (some (loadedVinode sb n (diskInode d n))) } d R) E := by
  refine .bind (R := fun w s' => o.Fresh w ∧ w ≠ 0 ∧ w ∉ R ∧ ∃ v : Vinode,
    Holds s' { o with vinode := upd o.vinode w (some v) } d b R ∧
    ∀ n di, { v with inum := n }.load di = loadedVinode sb n di) ?_ ?_
  · refine .bind (allocPage_post h hE) ?_
    rintro w s1 ⟨h1, hfresh, hw, hR⟩
    exact post_setNew vinodeKind h1 hR fun s2 h2 => .pure ⟨hfresh, hw, hR, _, h2, fun _ _ => rfl⟩
  · rintro w s1 ⟨hfresh, hw, hR, v, h1, hload⟩
    have hv : (upd o.vinode w (some v)) w = some v := upd_self _ _ _
    refine post_known vinodeKind h1 hv ?_
    refine post_set vinodeKind h1 hv fun s2 h2 => ?_
    refine .bind (rfsUpdateVinode_post h2 (upd_self _ _ _) hn hE) ?_
    rintro _ s3 ⟨rfl, h3⟩
    refine .pure ⟨rfl, hfresh, hw, hR, ?_⟩
    simpa only [upd_upd, hload] using h3

/-! ## Data blocks -/

theorem findFreeBlock_some {freemap : Nat → Int} : ∀ {n k j : Nat},
    findFreeBlock freemap n k = some j → k ≤ j ∧ j < k + n ∧ freemap j = 0
  | 0, _, _, h => by cases h
  | n + 1, k, j, h => by
      unfold findFreeBlock at h
      split at h
      · obtain rfl : k = j := Option.some.inj h
        exact ⟨Nat.le_refl _, by omega, by assumption⟩
      · obtain ⟨h1, h2, h3⟩ := findFreeBlock_some h
        exact ⟨by omega, by omega, h3⟩

theorem findFreeBlock_none {freemap : Nat → Int} : ∀ {n k : Nat},
    findFreeBlock freemap n k = none → ∀ j, k ≤ j → j < k + n → freemap j ≠ 0
  | 0, _, _, _, h1, h2 => by omega
  | n + 1, k, h, j, h1, h2 => by
      unfold findFreeBlock at h
      split at h
      · cases h
      · rcases Nat.eq_or_lt_of_le h1 with rfl | hlt
        · assumption
        · exact findFreeBlock_none h j hlt (by omega)

/-- The objects after the freemap of `sb` has changed. -/
def Objs.withMap (o : Objs) (sb : Ptr) (B : SuperBlock) (m : Nat → Int) : Objs :=
  { o with superBlock := upd o.superBlock sb (some { B with freemap := m }) }

theorem Objs.Fresh.of_withMap {m : Nat → Int} (h : (o.withMap sb B m).Fresh w) : o.Fresh w :=
  ⟨h.dentry, h.vinode, h.file, (upd_some_none h.superBlock).2, h.hashNode, h.dirBlock, h.dirCache⟩

theorem rfsAllocBlock_post (h : Holds s o d b R) (hB : o.superBlock sb = some B)
    (hfull : (∀ k < B.nblocks.toNat, B.freemap k ≠ 0) →
      E (.panic "rfs_alloc_block: no more free block!")) :
    Post (rfsAllocBlock sb) s (fun ret s' => ∃ k : Nat, k < B.nblocks.toNat ∧
      B.freemap k = 0 ∧ ret = 12 + k ∧ Holds s' (o.withMap sb B (upd B.freemap k 1)) d b R) E := by
  refine post_known superBlockKind h hB ?_
  split
  · rename_i hnone
    exact .fault (hfull fun k hk => findFreeBlock_none hnone k (Nat.zero_le _) (by omega))
  · rename_i k hk
    obtain ⟨-, hlt, hzero⟩ := findFreeBlock_some hk
    refine post_set superBlockKind h hB fun s1 h1 => .pure ⟨k, by omega, hzero, rfl, h1⟩

theorem rfsFreeBlock_post {blk : Int} (h : Holds s o d b R) (hB : o.superBlock sb = some B)
    (hblk : 12 ≤ blk ∧ blk < 112) : Post (rfsFreeBlock sb blk) s (fun _ s' =>
      Holds s' (o.withMap sb B (upd B.freemap (blk - 12).toNat 0)) d b R) E := by
  refine post_known superBlockKind h hB ?_
  rw [if_neg (by simp only [rfsBlkOffsetFree]; omega)]
  exact .modify (h.set (K := superBlockKind) hB _)

/-! ## Directories -/

theorem totalDirentrys_eq {size : Int} (h0 : 0 ≤ size) (h1 : size ≤ 2147483647) :
    totalDirentrys size = direntryCount size := by
  simp only [totalDirentrys, direntryCount, direntrySize]
  rw [Int.emod_eq_of_lt h0 (by omega), wrap32_of_isInt32]
  unfold IsInt32
  omega

/-- Entry `i` of a directory file carries the name. -/
def nameAt (d : Nat → Block) (addrs : Fin directBlknum → Int) (name : Name) (i : Nat) : Bool :=
  strcmpEq (d (addrOf addrs (i / 128)).toNat) (32 * (i % 128) + 4) name

/-- The blocks of the entries before `n` can be read. -/
def Browsable (addrs : Fin directBlknum → Int) (n : Nat) : Prop :=
  ∀ i < n, i / 128 < 10 ∧ 0 ≤ addrOf addrs (i / 128) ∧ addrOf addrs (i / 128) < 128

/-- The scan stops at the first entry from `i` on that carries the name, with
its block in the I/O buffer, or after the last one. -/
theorem rfsBrowse_post {addrs : Fin directBlknum → Int} {name : Name} :
    ∀ {n i : Nat} {p : Option Nat} {s : State} {b : Block}, Holds s o d b R →
      Browsable addrs (i + n) →
      (i % 128 ≠ 0 → p = some (32 * (i % 128)) ∧ b = d (addrOf addrs (i / 128)).toNat) →
      Post (rfsBrowse addrs name n i p) s (fun r s' => ∃ b', Holds s' o d b' R ∧
        ((r.1 = i + n ∧ ∀ j, i ≤ j → j < i + n → nameAt d addrs name j = false) ∨
          (i ≤ r.1 ∧ r.1 < i + n ∧ nameAt d addrs name r.1 = true ∧
            (∀ j, i ≤ j → j < r.1 → nameAt d addrs name j = false) ∧
            r.2 = some (32 * (r.1 % 128)) ∧ b' = d (addrOf addrs (r.1 / 128)).toNat))) E
  | 0, i, p, s, b, h, _, _ => .pure ⟨b, h, .inl ⟨rfl, fun j h1 h2 => by omega⟩⟩
  | n + 1, i, p, s, b, h, hbr, hp => by
      obtain ⟨hi10, hlo, hhi⟩ := hbr i (by omega)
      unfold rfsBrowse
      refine .bind (R := fun q s' => q = some (32 * (i % 128)) ∧
        Holds s' o d (d (addrOf addrs (i / 128)).toNat) R) ?_ ?_
      · unfold rfsBrowseBlock
        refine .ite (fun hc => ?_) fun hc => ?_
        · refine .bind (addrAt_post fun hout => absurd ⟨by omega, by omega⟩ hout) ?_
          rintro _ _ ⟨rfl, -, rfl⟩
          rw [Int.toNat_natCast]
          refine .bind (rfsR1block_post h fun hout => absurd ⟨hlo, hhi⟩ hout) ?_
          rintro _ s1 ⟨rfl, -, h1⟩
          exact .pure ⟨by rw [hc], h1⟩
        · obtain ⟨rfl, rfl⟩ := hp hc
          exact .pure ⟨rfl, h⟩
      · rintro _ s1 ⟨rfl, h1⟩
        refine .bindOption nofun fun off hoff => .bindGet ?_
        obtain rfl : 32 * (i % 128) = off := Option.some.inj hoff
        rw [h1.io]
        refine .ite (fun hc => .pure ⟨_, h1, .inr ⟨Nat.le_refl _, by omega, hc, ?_, rfl, rfl⟩⟩)
          fun hc => ?_
        · intro j h1 h2
          omega
        · have hfalse : nameAt d addrs name i = false := by simpa [nameAt] using hc
          refine (rfsBrowse_post (n := n) (i := i + 1) h1 ?_ ?_).mono ?_
          · rwa [show i + 1 + n = i + (n + 1) by omega]
          · intro hne
            rw [show (i + 1) % 128 = i % 128 + 1 by omega, show (i + 1) / 128 = i / 128 by omega]
            exact ⟨rfl, rfl⟩
          · rintro ⟨r, q⟩ s2 ⟨b', h2, hr⟩
            have hlater : ∀ {k : Nat}, (∀ j, i + 1 ≤ j → j < k → nameAt d addrs name j = false) →
                ∀ j, i ≤ j → j < k → nameAt d addrs name j = false := by
              intro k hk j hj1 hj2
              rcases Nat.eq_or_lt_of_le hj1 with rfl | hlt
              · exact hfalse
              · exact hk j hlt hj2
            refine ⟨b', h2, ?_⟩
            rcases hr with ⟨hend, hnone⟩ | ⟨hge, hlt, htrue, hbefore, hrest⟩
            · exact .inl ⟨by omega, hlater (by rwa [show i + (n + 1) = i + 1 + n by omega])⟩
            · exact .inr ⟨by omega, by omega, htrue, hlater hbefore, hrest⟩

theorem rfsLookup_miss (h : Holds s o d b R) (hv : o.vinode parent = some v)
    (hx : o.dentry sub = some x) (hbr : Browsable v.addrs (totalDirentrys v.size))
    (hmiss : ∀ i < totalDirentrys v.size, nameAt d v.addrs x.name i = false) :
    Post (rfsLookup parent sub) s (fun r s' => r = none ∧ Ends s' o d R) E := by
  refine post_known vinodeKind h hv ?_
  refine post_known dentryKind h hx ?_
  refine .bind (rfsBrowse_post h (by simpa using hbr) (fun h0 => absurd rfl h0)) ?_
  rintro ⟨i, p⟩ s1 ⟨b1, h1, hr⟩
  simp only [Nat.zero_add] at hr
  rcases hr with ⟨hend, -⟩ | ⟨-, hlt, htrue, -⟩
  · dsimp only
    rw [if_pos hend]
    exact .pure ⟨rfl, b1, h1⟩
  · rw [hmiss i hlt] at htrue
    cases htrue

theorem rfsLookup_found {i : Nat} (h : Holds s o d b R) (hv : o.vinode parent = some v)
    (hx : o.dentry sub = some x) (hbr : Browsable v.addrs (totalDirentrys v.size))
    (hi : i < totalDirentrys v.size) (hname : nameAt d v.addrs x.name i = true)
    (hbefore : ∀ j < i, nameAt d v.addrs x.name j = false)
    (hn : InodeNum (getInt (d (addrOf v.addrs (i / 128)).toNat) (32 * (i % 128))))
    (hE : E .nullPage) :
    Post (rfsLookup parent sub) s (fun r s' => ∃ w, r = some w ∧ o.Fresh w ∧ w ≠ 0 ∧ w ∉ R ∧
      ∃ n, n = getInt (d (addrOf v.addrs (i / 128)).toNat) (32 * (i % 128)) ∧
        Ends s' { o with
          vinode := upd o.vinode w (some (loadedVinode v.sb n (diskInode d n))) } d R) E := by
  refine post_known vinodeKind h hv ?_
  refine post_known dentryKind h hx ?_
  refine .bind (rfsBrowse_post h (by simpa using hbr) (fun h0 => absurd rfl h0)) ?_
  rintro ⟨i', p⟩ s1 ⟨b1, h1, hr⟩
  simp only [Nat.zero_add, Nat.zero_le, true_implies] at hr
  rcases hr with ⟨-, hnone⟩ | ⟨-, hlt, htrue, hfirst, rfl, rfl⟩
  · rw [hnone i hi] at hname
    cases hname
  · obtain rfl : i = i' := by
      rcases Nat.lt_trichotomy i i' with hlt | heq | hgt
      · rw [hfirst i hlt] at hname
        cases hname
      · exact heq
      · rw [hbefore i' hgt] at htrue
        cases htrue
    dsimp only
    rw [if_neg (Nat.ne_of_lt hlt)]
    refine .bindOption nofun fun off hoff => .bindGet ?_
    obtain rfl : 32 * (i % 128) = off := Option.some.inj hoff
    rw [h1.io]
    refine .bind (rfsLoadVinode_post h1 hn hE) ?_
    rintro ⟨w, ret⟩ s2 ⟨rfl, hfresh, hw, hR, h2⟩
    dsimp only
    rw [if_neg (by decide)]
    exact .pure ⟨w, rfl, hfresh, hw, hR, _, rfl, h2⟩

/-- The disk after an entry has been added to the directory `v`. -/
def addEntry (d : Nat → Block) (v : Vinode) (name : Name) (inum : Int) : Nat → Block :=
  writeInode
    (upd d (addrOf v.addrs 0).toNat
      (putDirentry (d (addrOf v.addrs 0).toNat) (direntryCount v.size) inum name))
    { v with size := v.size + 32 }.toDinode v.inum

/-- A directory that is full goes on in the next block of its list, which it
does not have; the disk is then not described. -/
theorem rfsAddDirentry_post {dir : Ptr} {name : Name} (h : Holds s o d b R)
    (hv : o.vinode dir = some v) (hdir : v.type = dirI) (hn : InodeNum v.inum) :
    Post (rfsAddDirentry dir name inum) s (fun ret s' => ret = 0 ∧ ∃ d',
      Ends s' { o with vinode := upd o.vinode dir (some { v with size := v.size + 32 }) } d' R ∧
      (v.size < 4096 → 32 ∣ v.size → d' = addEntry d v name inum)) NoAssert := by
  refine post_known vinodeKind h hv ?_
  rw [if_neg (by simp [hdir])]
  refine .bind (addrAt_post fun _ => noAssert_ub _) ?_
  rintro blk _ ⟨rfl, hidx, rfl⟩
  refine .bind (rfsR1block_post h fun _ => noAssert_panic _) ?_
  rintro _ s1 ⟨rfl, -, h1⟩
  rw [if_neg (by decide)]
  refine .ite (fun _ => .fault (noAssert_ub _)) fun hc => ?_
  simp only [not_or, not_lt, ge_iff_le, not_le] at hc
  refine post_setIobuffer h1 fun s2 h2 => ?_
  refine .bind (rfsW1block_post h2 fun _ => noAssert_panic _) ?_
  rintro _ s3 ⟨rfl, -, h3⟩
  rw [if_neg (by decide)]
  refine post_set vinodeKind h3 hv fun s4 h4 => ?_
  refine .bind (rfsWriteBackVinode_post (v := { v with size := v.size + 32 }) h4
    (upd_self _ _ _) hn) ?_
  rintro _ s5 ⟨rfl, h5⟩
  rw [if_neg (by decide)]
  refine .pure ⟨rfl, _, h5, fun hroom hdvd => ?_⟩
  have hblk : (v.size.tdiv rfsBlksize).toNat = 0 := by
    rw [Int.tdiv_eq_ediv_of_nonneg hc.1]
    simp only [rfsBlksize]
    omega
  have haddr : (v.size % rfsBlksize).toNat = 32 * direntryCount v.size := by
    simp only [rfsBlksize, direntryCount]
    omega
  rw [hblk, haddr]
  rfl

theorem rfsAddDirentry_file {dir : Ptr} {name : Name} (hv : s.vinode dir = some v)
    (hfile : v.type ≠ dirI) : rfsAddDirentry dir name inum s = .ok (-1, s) := by
  have hget : getVinode dir s = .ok (v, s) := Exec.get_ofOption hv
  rw [rfsAddDirentry, Exec.bind_of_ok hget, if_pos hfile]
  rfl

/-! ## Creation -/

theorem rfsFindFreeInode_post (hE : E .nullPage) (hub : E (.ub "free_dinode")) :
    ∀ {n : Nat} {i : Int} {s : State} {b : Block}, Holds s o d b R → 0 ≤ i → i + n ≤ 320 →
      Post (rfsFindFreeInode n i) s (fun r s' => InodeNum r.1 ∧
        (diskInode d r.1).type = rFree ∧ r.2.2 = diskInode d r.1 ∧ r.2.1 ∉ R ∧
        Ends s' o d (r.2.1 :: R)) E
  | 0, _, _, _, _, _, _ => .fault hub
  | n + 1, i, s, b, h, h0, h1 => by
      have hi : InodeNum i := ⟨h0, by omega⟩
      unfold rfsFindFreeInode
      refine .bind (rfsReadDinode_post h hi hE) ?_
      rintro _ s1 ⟨page, rfl, hpage, h1⟩
      refine .bindOption (fun _ => hub) fun r hr => ?_
      obtain rfl := Option.some.inj hr
      refine .ite (fun hc => .pure ⟨hi, hc, rfl, hpage, _, h1⟩) fun hc => ?_
      refine .bind (freePage_raw h1 hpage) fun _ s2 h2 => ?_
      exact rfsFindFreeInode_post hE hub h2 (by omega) (by omega)

/-- The disk inode of a new file or directory with one block. -/
def freshInode (type blk : Int) (addrs : Fin directBlknum → Int) : Dinode :=
  { size := 0, type := type, nlinks := 1, blocks := 1,
    addrs := fun k => if (k : Int) = 0 then blk else addrs k }

theorem rfsNewInode_post {type : Int} (h : Holds s o d b R) (hB : o.superBlock sb = some B) :
    Post (rfsNewInode sb type) s (fun n s' => InodeNum n ∧ (diskInode d n).type = rFree ∧
      ∃ k : Nat, k < B.nblocks.toNat ∧ B.freemap k = 0 ∧
        Ends s' (o.withMap sb B (upd B.freemap k 1))
          (writeInode d (freshInode type (12 + k) (diskInode d n).addrs) n) R) NoAssert := by
  refine .bind (rfsFindFreeInode_post noAssert_nullPage (noAssert_ub _) h
    (Int.le_refl 0) (by decide)) ?_
  rintro ⟨n, page, di⟩ s1 ⟨hn, hfree, hdi, hpage, b1, h1⟩
  dsimp only at *
  subst hdi
  refine .bind (rfsAllocBlock_post h1 hB fun _ => noAssert_panic _) ?_
  rintro _ s2 ⟨k, hk, hzero, rfl, h2⟩
  refine .bind (setAddr_post fun hc => absurd ⟨by decide, by decide⟩ hc) ?_
  rintro addrs _ ⟨rfl, -, rfl⟩
  refine .bind (rfsWriteDinode_post h2 hn) ?_
  rintro _ s3 ⟨rfl, b3, h3⟩
  exact .bind (freePage_raw h3 hpage) fun _ s4 h4 => .pure ⟨hn, hfree, k, hk, hzero, _, h4⟩

/-- A directory with room for one more entry. -/
def Vinode.HasRoom (v : Vinode) : Prop :=
  v.size < 4096 ∧ 32 ∣ v.size ∧ 12 ≤ addrOf v.addrs 0

/-- What `rfs_create` and `rfs_mkdir` leave: inode `n` with block `12 + k`, the
entry for it, and its vinode at `w`. -/
structure NewEntry (o : Objs) (d : Nat → Block) (v : Vinode) (B : SuperBlock) (parent : Ptr)
    (name : Name) (type : Int) (w : Ptr) (n : Int) (k : Nat) (o' : Objs)
    (d' : Nat → Block) : Prop where
  inum : InodeNum n
  free : (diskInode d n).type = rFree
  lt : k < B.nblocks.toNat
  zero : B.freemap k = 0
  fresh : o.Fresh w
  pos : w ≠ 0
  dir : v.type = dirI
  objs : ∃ di, o' = { o.withMap v.sb B (upd B.freemap k 1) with
      vinode := upd (upd o.vinode w (some (loadedVinode v.sb n di))) parent
        (some { v with size := v.size + 32 }) } ∧
    (v.HasRoom → n ≠ v.inum → di = freshInode type (12 + k) (diskInode d n).addrs)
  disk : v.HasRoom → d' =
    addEntry (writeInode d (freshInode type (12 + k) (diskInode d n).addrs) n) v name n

theorem fits_freshInode {type : Int} {addrs : Fin directBlknum → Int} (htype : IsInt32 type)
    (hk : k < 100) (haddrs : ∀ i, IsInt32 (addrs i)) : (freshInode type (12 + k) addrs).Fits := by
  have h0 : IsInt32 0 := by decide
  have h1 : IsInt32 1 := by decide
  refine Dinode.fits_mk h0 htype h1 h1 fun i => ?_
  simp only [freshInode]
  split
  · unfold IsInt32
    omega
  · exact haddrs i

theorem diskInode_addEntry {name : Name} (hn : InodeNum v.inum) (hblk : 12 ≤ addrOf v.addrs 0)
    (hfits : { v with size := v.size + 32 }.toDinode.Fits) : diskInode (addEntry d v name inum) =
      upd (diskInode d) v.inum { v with size := v.size + 32 }.toDinode := by
  rw [addEntry, diskInode_write hn hfits, diskInode_data (by omega)]

section

variable (h : Holds s o d b R) (hv : o.vinode parent = some v) (hn : InodeNum v.inum)

include h hv hn

theorem rfsCreate_post (hx : o.dentry sub = some x) (hB : o.superBlock v.sb = some B)
    (hBn : B.nblocks = 100) :
    Post (rfsCreate parent sub) s (fun r s' => ∀ w, r = some w → ∃ n k o' d',
      Ends s' o' d' R ∧ NewEntry o d v B parent x.name rFile w n k o' d') NoAssert := by
  refine post_known vinodeKind h hv ?_
  refine .bind (rfsNewInode_post h hB) ?_
  rintro n s1 ⟨hnum, hfree, k, hk, hzero, b1, h1⟩
  have hfits : (freshInode rFile (12 + k) (diskInode d n).addrs).Fits :=
    fits_freshInode (by decide) (by rw [hBn] at hk; exact hk) (fits_diskInode d n).addrs
  refine .bind (rfsLoadVinode_post h1 hnum noAssert_nullPage) ?_
  rintro ⟨w, ret⟩ s2 ⟨-, hfresh, hw, hR, b2, h2⟩
  have hwp : w ≠ parent := by
    rintro rfl
    have := hfresh.vinode
    rw [show (o.withMap v.sb B _).vinode w = o.vinode w from rfl, hv] at this
    cases this
  have hv2 : (upd o.vinode w (some (loadedVinode v.sb n
      (diskInode (writeInode d (freshInode rFile (12 + k) (diskInode d n).addrs) n) n)))) parent =
      some v := by
    rw [upd_ne hwp.symm, hv]
  refine post_known dentryKind h2 hx ?_
  by_cases hdir : v.type = dirI
  · refine .bind (rfsAddDirentry_post h2 hv2 hdir hn) ?_
    rintro _ s3 ⟨rfl, d', h3, hd'⟩
    rw [if_neg (by decide)]
    refine .pure fun w' hw' => ?_
    obtain rfl : w = w' := Option.some.inj hw'
    refine ⟨n, k, _, d', h3, ⟨hnum, hfree, hk, hzero, hfresh.of_withMap, hw, hdir,
      ⟨_, rfl, ?_⟩, ?_⟩⟩
    · intro _ _
      rw [diskInode_write hnum hfits, upd_self]
    · exact fun hroom => hd' hroom.1 hroom.2.1
  · refine .step (rfsAddDirentry_file (h2.view (K := vinodeKind) hv2) hdir) ?_
    rw [if_pos rfl]
    exact .pure nofun

/-- When the parent is not a directory, `rfs_mkdir` fails after it has made the
inode; nothing names it. -/
theorem rfsMkdir_post (hx : o.dentry sub = some x) (hB : o.superBlock v.sb = some B)
    (hBn : B.nblocks = 100) (hfv : { v with size := v.size + 32 }.toDinode.Fits)
    : Post (rfsMkdir parent sub) s (fun r s' =>
      (∀ w, r = some w → ∃ n k o' d', Ends s' o' d' R ∧
        NewEntry o d v B parent x.name rDir w n k o' d') ∧
      (r = none → v.type ≠ dirI ∧ ∃ n : Int, ∃ k : Nat, InodeNum n ∧
        (diskInode d n).type = rFree ∧ k < B.nblocks.toNat ∧ B.freemap k = 0 ∧
        Ends s' (o.withMap v.sb B (upd B.freemap k 1))
          (writeInode d (freshInode rDir (12 + k) (diskInode d n).addrs) n) R)) NoAssert := by
  refine post_known vinodeKind h hv ?_
  refine .bind (rfsNewInode_post h hB) ?_
  rintro n s1 ⟨hnum, hfree, k, hk, hzero, b1, h1⟩
  have hfits : (freshInode rDir (12 + k) (diskInode d n).addrs).Fits :=
    fits_freshInode (by decide) (by rw [hBn] at hk; exact hk) (fits_diskInode d n).addrs
  refine post_known dentryKind h1 hx ?_
  by_cases hdir : v.type = dirI
  · refine .bind (rfsAddDirentry_post h1 hv hdir hn) ?_
    rintro _ s2 ⟨rfl, d', ⟨b2, h2⟩, hd'⟩
    rw [if_neg (by decide)]
    refine .bind (rfsLoadVinode_post h2 hnum noAssert_nullPage) ?_
    rintro ⟨w, ret⟩ s3 ⟨-, hfresh, hw, hR, b3, h3⟩
    obtain ⟨hwp, hwo⟩ := upd_some_none hfresh.vinode
    refine .pure ⟨fun w' hw' => ?_, nofun⟩
    obtain rfl : w = w' := Option.some.inj hw'
    have hfresh' : (o.withMap v.sb B (upd B.freemap k 1)).Fresh w :=
      ⟨hfresh.dentry, hwo, hfresh.file, hfresh.superBlock, hfresh.hashNode, hfresh.dirBlock,
        hfresh.dirCache⟩
    refine ⟨n, k, _, d', ⟨b3, h3⟩, ⟨hnum, hfree, hk, hzero, hfresh'.of_withMap, hw, hdir,
      ⟨diskInode d' n, ?_, ?_⟩, ?_⟩⟩
    · rw [upd_comm hwp]
      rfl
    · intro hroom hne
      rw [hd' hroom.1 hroom.2.1, diskInode_addEntry hn hroom.2.2 hfv, upd_ne hne, diskInode_write hnum hfits, upd_self]
    · exact fun hroom => hd' hroom.1 hroom.2.1
  · refine .step (rfsAddDirentry_file (h1.view (K := vinodeKind) hv) hdir) ?_
    rw [if_pos rfl]
    exact .pure ⟨nofun, fun _ => ⟨hdir, n, k, hnum, hfree, hk, hzero, b1, h1⟩⟩

/-! ## Links -/

theorem rfsLink_post {l : Ptr} {lv : Vinode} (hdir : v.type = dirI) (hl : o.vinode l = some lv)
    (hln : InodeNum lv.inum) (hlp : l ≠ parent) (hx : o.dentry sub = some x) :
    Post (rfsLink parent sub l) s (fun ret s' => ret = 0 ∧ ∃ d',
      Ends s' { o with
        vinode := upd (upd o.vinode l (some { lv with nlinks := lv.nlinks + 1 }))
          parent (some { v with size := v.size + 32 }) } d' R ∧
      (v.HasRoom → d' = writeInode (addEntry d v x.name lv.inum)
        { lv with nlinks := lv.nlinks + 1 }.toDinode lv.inum)) NoAssert := by
  refine post_known vinodeKind h hl ?_
  refine post_set vinodeKind h hl fun s1 h1 => ?_
  refine post_known dentryKind h1 hx ?_
  have hv1 : (upd o.vinode l (some { lv with nlinks := lv.nlinks + 1 })) parent = some v := by
    rw [upd_ne hlp.symm, hv]
  refine .bind (rfsAddDirentry_post h1 hv1 hdir hn) ?_
  rintro _ s2 ⟨rfl, d', ⟨b2, h2⟩, hd'⟩
  rw [if_neg (by decide)]
  have hl2 : (upd (upd o.vinode l (some { lv with nlinks := lv.nlinks + 1 })) parent
      (some { v with size := v.size + 32 })) l = some { lv with nlinks := lv.nlinks + 1 } := by
    rw [upd_ne hlp, upd_self]
  refine .bind (rfsWriteBackVinode_post h2 hl2 hln) ?_
  rintro _ s3 ⟨rfl, h3⟩
  rw [if_neg (by decide)]
  refine .pure ⟨rfl, _, h3, fun hroom => ?_⟩
  rw [hd' hroom.1 hroom.2.1]

end

/-- The freemap after the blocks `addrs[i]`, ... (`n` of them) have been freed. -/
def clearBlocks (addrs : Fin directBlknum → Int) : (n i : Nat) → (Nat → Int) → Nat → Int
  | 0, _, m => m
  | n + 1, i, m => clearBlocks addrs n (i + 1) (upd m (addrOf addrs i - 12).toNat 0)

theorem Objs.withMap_self (hB : o.superBlock sb = some B) : o.withMap sb B B.freemap = o := by
  unfold Objs.withMap
  rw [upd_eq_self hB]

theorem rfsFreeBlocks_post {sb : Ptr} {addrs : Fin directBlknum → Int} :
    ∀ {n i : Nat} {s : State} {o : Objs} {B : SuperBlock}, Holds s o d b R →
      o.superBlock sb = some B →
      (∀ j, i ≤ j → j < i + n → j < 10 ∧ 12 ≤ addrOf addrs j ∧ addrOf addrs j < 112) →
      Post (rfsFreeBlocks sb addrs n i) s (fun _ s' =>
        Holds s' (o.withMap sb B (clearBlocks addrs n i B.freemap)) d b R) E
  | 0, _, _, o, _, h, hB, _ => by
      refine .pure ?_
      show Holds _ (o.withMap sb _ _) d b R
      rwa [clearBlocks, Objs.withMap_self hB]
  | n + 1, i, s, o, B, h, hB, hblk => by
      obtain ⟨hi, hlo, hhi⟩ := hblk i (Nat.le_refl i) (by omega)
      refine .bind (addrAt_post fun hc => absurd ⟨by omega, by omega⟩ hc) ?_
      rintro _ _ ⟨rfl, -, rfl⟩
      rw [Int.toNat_natCast]
      refine .bind (rfsFreeBlock_post h hB ⟨hlo, hhi⟩) fun _ s1 h1 => ?_
      refine (rfsFreeBlocks_post (n := n) (i := i + 1) h1 (upd_self _ _ _) ?_).mono ?_
      · exact fun j h1 h2 => hblk j (by omega) (by omega)
      · intro _ s2 h2
        simpa only [Objs.withMap, upd_upd, clearBlocks] using h2

/-- A disk inode that has lost a name and has `nl` left. -/
def dropInode (di : Dinode) (nl : Int) : Dinode :=
  { di with nlinks := nl, type := if nl = 0 then rFree else di.type }

/-- The freemap when the inode has lost a name: it loses its blocks with the
last one. -/
def dropMap (di : Dinode) (nl : Int) (m : Nat → Int) : Nat → Int :=
  if nl = 0 then clearBlocks di.addrs di.blocks.toNat 0 m else m

/-- The blocks of a disk inode are data blocks. -/
def Dinode.Freeable (di : Dinode) : Prop :=
  ∀ j < di.blocks.toNat, j < 10 ∧ 12 ≤ addrOf di.addrs j ∧ addrOf di.addrs j < 112

theorem rfsDropLink_post {u : Ptr} {uv : Vinode} (h : Holds s o d b R)
    (hB : o.superBlock sb = some B) (hu : o.vinode u = some uv) (hn : InodeNum inum)
    (hnl : uv.nlinks = (diskInode d inum).nlinks) (hfree : (diskInode d inum).Freeable)
    : Post (rfsDropLink sb inum u) s (fun _ s' =>
      Ends s' ({ o with vinode := upd o.vinode u (some { uv with nlinks := uv.nlinks - 1 }) }.withMap
          sb B (dropMap (diskInode d inum) (uv.nlinks - 1) B.freemap))
        (writeInode d (dropInode (diskInode d inum) (uv.nlinks - 1)) inum) R) NoAssert := by
  refine .bind (rfsReadDinode_post h hn noAssert_nullPage) ?_
  rintro _ s1 ⟨page, rfl, hpage, h1⟩
  refine .bindOption nofun fun r hr => ?_
  obtain rfl := Option.some.inj hr
  refine post_known vinodeKind h1 hu ?_
  rw [if_neg (by simp [hnl])]
  refine post_set vinodeKind h1 hu fun s2 h2 => ?_
  refine .ite (fun hzero => ?_) fun hpos => ?_
  · refine .bind (rfsFreeBlocks_post h2 hB fun j _ hj => hfree j (by simpa using hj)) ?_
    intro _ s3 h3
    refine .bind (rfsWriteDinode_post h3 hn) ?_
    rintro _ s4 ⟨rfl, b4, h4⟩
    refine (freePage_raw h4 hpage).mono fun _ s5 h5 => ⟨b4, ?_⟩
    rw [dropMap, dropInode, if_pos hzero, if_pos hzero]
    exact h5
  · refine .bind (rfsWriteDinode_post h2 hn) ?_
    rintro _ s4 ⟨rfl, b4, h4⟩
    refine (freePage_raw h4 hpage).mono fun _ s5 h5 => ⟨b4, ?_⟩
    have hself := Objs.withMap_self (o := { o with
      vinode := upd o.vinode u (some { uv with nlinks := uv.nlinks - 1 }) }) hB
    rw [dropMap, dropInode, if_neg hpos, if_neg hpos, hself]
    exact h5

/-- The disk after entry `k` of the directory `v` has been removed. -/
def removeEntry (d : Nat → Block) (v : Vinode) (k : Nat) : Nat → Block :=
  writeInode
    (upd d (addrOf v.addrs 0).toNat (eraseDirentry (d (addrOf v.addrs 0).toNat) k))
    { v with size := v.size - 32 }.toDinode v.inum

theorem rfsShrinkDir_post {last : Int} {total : Nat} (h : Holds s o d b R)
    (hv : o.vinode parent = some v) (hone : v.blocks = 1) :
    Post (rfsShrinkDir parent v last total) s (fun _ s' => Holds s'
      { o with vinode := upd o.vinode parent (some { v with size := v.size - 32 }) } d b R) E := by
  unfold rfsShrinkDir
  rw [if_neg (by rw [hone]; omega)]
  exact .modify (h.set (K := vinodeKind) hv _)

theorem rfsRemoveDirentry_post {total : Nat} (h : Holds s o d b R) (hv : o.vinode parent = some v)
    (hn : InodeNum v.inum) (hone : v.blocks = 1) (hk : k < 128)
    (ha : 0 ≤ addrOf v.addrs 0 ∧ addrOf v.addrs 0 < 128) (hE : E .nullPage) :
    Post (rfsRemoveDirentry parent k total) s (fun ret s' => ret = 0 ∧
      Ends s' { o with vinode := upd o.vinode parent (some { v with size := v.size - 32 }) }
        (removeEntry d v k) R) E := by
  have hk0 : k / 128 = 0 := by omega
  have hlast : v.blocks - 1 = 0 := by rw [hone]; rfl
  have hshift : (v.blocks - (((0 : Nat) : Int) + 1)).toNat = 0 := by rw [hone]; rfl
  refine post_known vinodeKind h hv ?_
  rw [hk0, hlast]
  refine .bind (addrAt_post fun hc => absurd ⟨by decide, by decide⟩ hc) ?_
  rintro _ _ ⟨rfl, -, rfl⟩
  refine .bind (rfsR1block_post h fun hc => absurd ha hc) ?_
  rintro _ s1 ⟨rfl, -, h1⟩
  refine post_setIobuffer h1 fun s2 h2 => ?_
  refine .bind (allocPage_post h2 hE) ?_
  rintro page s3 ⟨h3, -, -, hpage⟩
  refine .bindGet ?_
  rw [hshift]
  refine .step rfl (post_setIobuffer h3 fun s4 h4 => ?_)
  refine .bind (addrAt_post fun hc => absurd ⟨by decide, by decide⟩ hc) ?_
  rintro _ _ ⟨rfl, -, rfl⟩
  refine .bind (rfsW1block_post h4 fun hc => absurd ha hc) ?_
  rintro _ s5 ⟨rfl, -, h5⟩
  refine .bind (freePage_raw h5 hpage) fun _ s6 h6 => ?_
  refine .bind (rfsShrinkDir_post h6 hv hone) fun _ s7 h7 => ?_
  refine .bind (rfsWriteBackVinode_post h7 (upd_self _ _ _) hn) ?_
  rintro _ s8 ⟨rfl, b8, h8⟩
  rw [if_neg (by decide)]
  rw [h3.io, Nat.mod_eq_of_lt hk] at h8
  exact .pure ⟨rfl, b8, h8⟩

/-- `rfs_unlink` of entry `k`, when that is the entry of the unlinked vinode. -/
theorem rfsUnlink_post {u : Ptr} {uv : Vinode} (h : Holds s o d b R) (hv : o.vinode parent = some v)
    (hn : InodeNum v.inum) (hone : v.blocks = 1)
    (ha : 0 ≤ addrOf v.addrs 0 ∧ addrOf v.addrs 0 < 128) (hsize : 0 ≤ v.size ∧ v.size ≤ 4096)
    (hx : o.dentry sub = some x) (hu : o.vinode u = some uv) (hup : u ≠ parent)
    (hun : InodeNum uv.inum) (hB : o.superBlock v.sb = some B) (hk : k < direntryCount v.size)
    (hname : nameAt d v.addrs x.name k = true)
    (hbefore : ∀ j < k, nameAt d v.addrs x.name j = false)
    (hinum : getInt (d (addrOf v.addrs 0).toNat) (32 * k) = uv.inum)
    (hnl : uv.nlinks = (diskInode d uv.inum).nlinks) (hfree : (diskInode d uv.inum).Freeable)
    : Post (rfsUnlink parent sub u) s (fun ret s' => ret = 0 ∧
      Ends s' ({ o with
          vinode := upd (upd o.vinode u (some { uv with nlinks := uv.nlinks - 1 })) parent
            (some { v with size := v.size - 32 }) }.withMap
          v.sb B (dropMap (diskInode d uv.inum) (uv.nlinks - 1) B.freemap))
        (removeEntry (writeInode d (dropInode (diskInode d uv.inum) (uv.nlinks - 1)) uv.inum)
          v k) R) NoAssert := by
  have htotal : totalDirentrys v.size = direntryCount v.size :=
    totalDirentrys_eq hsize.1 (by omega)
  have hcount : direntryCount v.size ≤ 128 := by
    unfold direntryCount
    omega
  have hbr : Browsable v.addrs (direntryCount v.size) := by
    intro i hi
    rw [show i / 128 = 0 by omega]
    exact ⟨by decide, ha⟩
  refine post_known vinodeKind h hv ?_
  refine post_known dentryKind h hx ?_
  rw [htotal]
  refine .bind (rfsBrowse_post h (by simpa using hbr) (fun h0 => absurd rfl h0)) ?_
  rintro ⟨k', p⟩ s1 ⟨b1, h1, hr⟩
  simp only [Nat.zero_add, Nat.zero_le, true_implies] at hr
  rcases hr with ⟨-, hnone⟩ | ⟨-, hlt, htrue, hfirst, rfl, rfl⟩
  · rw [hnone k hk] at hname
    cases hname
  obtain rfl : k = k' := by
    rcases Nat.lt_trichotomy k k' with hlt | heq | hgt
    · rw [hfirst k hlt] at hname
      cases hname
    · exact heq
    · rw [hbefore k' hgt] at htrue
      cases htrue
  dsimp only
  refine .bindOption nofun fun off hoff => .bindGet ?_
  obtain rfl := Option.some.inj hoff
  rw [if_neg (Nat.ne_of_lt hlt), h1.io, show k % 128 = k by omega, show k / 128 = 0 by omega,
    hinum]
  refine .bind (rfsDropLink_post h1 hB hu hun hnl hfree) ?_
  rintro _ s2 ⟨b2, h2⟩
  have hv2 : (upd o.vinode u (some { uv with nlinks := uv.nlinks - 1 })) parent = some v := by
    rw [upd_ne hup.symm, hv]
  exact rfsRemoveDirentry_post h2 hv2 hn hone (by omega) ha noAssert_nullPage

/-! ## Directory caches -/

/-- A directory has one block, and so has its copy. -/
theorem rfsCacheBlocks_post {addrs : Fin directBlknum → Int} (h : Holds s o d b R) :
    Post (rfsCacheBlocks addrs 1 0) s (fun pdire s' => o.Fresh pdire ∧ Ends s'
      { o with dirBlock := upd o.dirBlock pdire (some (d (addrOf addrs 0).toNat)) } d R) NoAssert := by
  refine .bind (allocPage_post h noAssert_nullPage) ?_
  rintro page s1 ⟨h1, hfresh, -, hpage⟩
  refine .ite (fun _ => .fault (noAssert_panic _)) fun _ => ?_
  refine .bind (addrAt_post fun _ => noAssert_ub _) ?_
  rintro blk _ ⟨rfl, -, rfl⟩
  refine .bind (rfsR1block_post h1 fun _ => noAssert_panic _) ?_
  rintro _ s2 ⟨rfl, -, h2⟩
  have h3 := h2.setNew (K := dirBlockKind) hpage s2.iobuffer
  rw [h2.io, Nat.cast_zero, Int.toNat_zero] at h3
  refine .bindModify (.pure ⟨hfresh, d (addrOf addrs 0).toNat, ?_⟩)
  rw [h2.io, Nat.cast_zero, Int.toNat_zero]
  exact h3

theorem rfsHookOpendir_post (h : Holds s o d b R) (hv : o.vinode w = some v) (hone : v.blocks = 1) :
    Post (rfsHookOpendir w) s (fun _ s' => ∃ base p, o.dirBlock base = none ∧
      o.dirCache p = none ∧ Ends s' { o with
        dirBlock := upd o.dirBlock base (some (d (addrOf v.addrs 0).toNat))
        dirCache := upd o.dirCache p (some ⟨v.blocks, base⟩)
        vinode := upd o.vinode w (some { v with iFsInfo := p }) } d R) NoAssert := by
  refine post_known vinodeKind h hv ?_
  rw [show v.blocks.toNat = 1 by rw [hone]; rfl]
  refine .bind (rfsCacheBlocks_post h) ?_
  rintro base s1 ⟨hbase, b1, h1⟩
  refine .bind (allocPage_post h1 noAssert_nullPage) ?_
  rintro page s2 ⟨h2, hfresh, -, hpage⟩
  refine post_setNew dirCacheKind h2 hpage fun s3 h3 => ?_
  refine post_set vinodeKind h3 hv fun s4 h4 => .pure ?_
  exact ⟨base, page, hbase.dirBlock, hfresh.dirCache, _, h4⟩

/-- The pages a directory cache refers to have not been given back. -/
def Objs.Cached (o : Objs) (base : Ptr) (n i : Nat) : Prop :=
  ∀ j, i ≤ j → j < i + n → ∃ blk, o.dirBlock (base + j * 4096) = some blk

theorem rfsHookClosedir_post (h : Holds s o d b R) (hv : o.vinode w = some v)
    (hc : ∀ c, o.dirCache v.iFsInfo = some c → c.blockCount = 1 ∧
      o.Cached c.dirBaseAddr c.blockCount.toNat 0) :
    Post (rfsHookClosedir w) s (fun _ s' => ∃ c, o.dirCache v.iFsInfo = some c ∧
      Ends s' { o with dirBlock := upd o.dirBlock c.dirBaseAddr none } d R) NoAssert := by
  refine post_known vinodeKind h hv ?_
  refine post_follow dirCacheKind h (fun _ => noAssert_ub _) fun c hcache => ?_
  obtain ⟨hone, hcached⟩ := hc c hcache
  rw [show c.blockCount.toNat = 1 by rw [hone]; rfl] at hcached ⊢
  obtain ⟨blk, hblk⟩ := hcached 0 (Nat.le_refl 0) Nat.one_pos
  refine .bind ?_ fun _ _ h1 => .pure ⟨c, hcache, h1⟩
  refine .bind (freePage_post (K := dirBlockKind) h hblk nofun) fun _ s1 h1 => .pure ⟨b, ?_⟩
  rw [Nat.zero_mul, Nat.add_zero] at h1
  exact h1

end

end Pke
