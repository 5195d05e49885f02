import Pke.Lookup

/-!
# Reading and writing files

`byteAt` is the byte of a file at an offset, through its block list.
`rfs_write` is a sequence of the changes `grow`, `data` and `size`
(`rfsWrite_post`), and `rfs_read` changes nothing (`rfsRead_post`). What
they do to the bytes of one file is the subject of `Splice.lean` and
`BlockWalk.lean`.
-/

namespace Pke

open Exec (Post)

def byteAt (d : Nat → Block) (v : Vinode) (p : Nat) : UInt8 :=
  d (addrOf v.addrs (p / 4096)).toNat (p % 4096)

theorem tmod_rfsBlksize (n : Nat) : (n : Int).tmod rfsBlksize = ((n % 4096 : Nat) : Int) := by
  rw [Int.tmod_eq_emod_of_nonneg (by omega)]
  simp only [rfsBlksize]
  omega

theorem tdiv_rfsBlksize (n : Nat) : (n : Int).tdiv rfsBlksize = ((n / 4096 : Nat) : Int) := by
  rw [Int.tdiv_eq_ediv_of_nonneg (by omega)]
  simp only [rfsBlksize]
  omega

variable {i : Nat} {buf : List UInt8}

/-! ## One file being written -/

/-- The vinode at `w` is that of a file of RFS, and a descriptor goes to it if the run cares. -/
structure FileAt (M : Mount) (care : Care) (w : Ptr) (o : Objs) (d : Nat → Block) (v : Vinode) :
    Prop where
  inv : Inv M o d
  vinode : o.vinode w = some v
  rfs : v.iOps = .rfs
  file : v.type = fileI
  uses : care.fds → o.Uses w

/-- What writing to the file at `w` has done so far. -/
structure Rewrote (M : Mount) (care : Care) (w : Ptr) (o : Objs) (d : Nat → Block) (v : Vinode)
    (o' : Objs) (d' : Nat → Block) (v' : Vinode) : Prop where
  steps : Steps M care (o, d) (o', d')
  vinode : o'.vinode w = some v'
  dentry : o'.dentry = o.dentry
  file : o'.file = o.file
  rest : v' = { v with addrs := v'.addrs, blocks := v'.blocks }
  blocks : v.blocks ≤ v'.blocks

section

variable {M : Mount} {care : Care} {s : State} {o o1 o2 : Objs} {d d1 d2 : Nat → Block} {b : Block}
  {R : List Ptr} {E : Fault → Prop} {w : Ptr} {v v1 v2 : Vinode}

theorem Rewrote.refl (hw : o.vinode w = some v) : Rewrote M care w o d v o d v :=
  ⟨.refl, hw, rfl, rfl, rfl, Int.le_refl _⟩

theorem Rewrote.trans (h : Rewrote M care w o d v o1 d1 v1) (h' : Rewrote M care w o1 d1 v1 o2 d2 v2) :
    Rewrote M care w o d v o2 d2 v2 := by
  refine ⟨Relation.ReflTransGen.trans h.steps h'.steps, h'.vinode, h'.dentry.trans h.dentry,
    h'.file.trans h.file, ?_, h.blocks.trans h'.blocks⟩
  rw [h'.rest, h.rest]

theorem Rewrote.fileAt (h : Rewrote M care w o d v o1 d1 v1) (hf : FileAt M care w o d v) :
    FileAt M care w o1 d1 v1 := by
  refine ⟨h.steps.inv hf.inv, h.vinode, ?_, ?_, fun hc => ?_⟩
  · rw [h.rest]
    exact hf.rfs
  · rw [h.rest]
    exact hf.file
  · unfold Objs.Uses
    rw [h.dentry, h.file]
    exact hf.uses hc

/-- The block at place `i` of a file. -/
theorem Inv.file_addr (h : Inv M o d) (hw : o.vinode w = some v) (hrfs : v.iOps = .rfs)
    (hi : (i : Int) < v.blocks) : 12 ≤ addrOf v.addrs i ∧ addrOf v.addrs i < 112 := by
  have hcur := h.cur_eq hw hrfs
  obtain ⟨hlo, hhi, -⟩ := h.blocks.owned v.inum i (h.live hw hrfs) (by rw [hcur]; exact hi)
  rw [hcur] at hlo hhi
  exact ⟨hlo, hhi⟩

/-- One block of the file is replaced. -/
theorem FileAt.data (hf : FileAt M care w o d v) (hlt : (i : Int) < v.blocks) (blk : Block) :
    Rewrote M care w o d v o (upd d (addrOf v.addrs i).toNat blk) v :=
  ⟨.single (.data w v i blk hf.vinode hf.rfs hf.file hlt), hf.vinode, rfl, rfl, rfl, Int.le_refl _⟩

theorem rfsGrow_post (h : Holds s o d b R) (hf : FileAt M care w o d v)
    (hle : (i : Int) ≤ v.blocks) :
    Post (rfsGrow w i) s (fun _ s' => ∃ o' v', Holds s' o' d b R ∧
      Rewrote M care w o d v o' d v' ∧ (i : Int) < v'.blocks) NoAssert := by
  refine post_known vinodeKind h hf.vinode ?_
  by_cases heq : (i : Int) = v.blocks
  · rw [if_pos heq]
    obtain ⟨B, hB, hnb⟩ := hf.inv.sb
    have hsb := hf.inv.sb_eq hf.vinode hf.rfs
    refine .bind (rfsAllocBlock_post h (by rw [hsb]; exact hB) fun _ => noAssert_panic _) ?_
    rintro blk s1 ⟨k, hk, hzero, rfl, h1⟩
    rw [hsb] at h1
    refine .bind (setAddr_post fun _ => noAssert_ub _) ?_
    rintro addrs _ ⟨rfl, hidx, rfl⟩
    refine .modify ?_
    have h2 := h1.set (K := vinodeKind) hf.vinode
      { v with
        addrs := fun j => if (j : Int) = v.blocks then 12 + (k : Int) else v.addrs j
        blocks := v.blocks + 1 }
    simp only [heq]
    refine ⟨_, _, h2, ⟨.single (.grow w v B k hf.vinode hf.rfs hf.file hf.uses (by omega)
      (by rwa [hnb] at hk) hB hzero), upd_self _ _ _, rfl, rfl, rfl, ?_⟩, ?_⟩
    · show v.blocks ≤ v.blocks + 1
      omega
    · show v.blocks < v.blocks + 1
      omega
  · rw [if_neg heq]
    exact .pure ⟨o, v, h, .refl hf.vinode, by omega⟩

/-! ## The parts of `rfs_write` -/

theorem rfsWriteBlock_post {bo n : Int} (h : Holds s o d b R) (hf : FileAt M care w o d v)
    (hle : (i : Int) ≤ v.blocks) :
    Post (rfsWriteBlock w buf bo i n) s (fun _ s' => ∃ o' d' v', Ends s' o' d' R ∧
      Rewrote M care w o d v o' d' v' ∧ (i : Int) < v'.blocks) NoAssert := by
  refine .bind (rfsGrow_post h hf hle) ?_
  rintro _ s1 ⟨o1, v1, h1, hgrow, hlt⟩
  refine post_known vinodeKind h1 hgrow.vinode ?_
  refine .bind (addrAt_post fun _ => noAssert_ub _) ?_
  rintro blk _ ⟨rfl, -, rfl⟩
  refine post_setIobuffer h1 fun s2 h2 => ?_
  refine .bind (rfsW1block_post h2 fun _ => noAssert_panic _) ?_
  rintro _ s3 ⟨-, -, h3⟩
  exact .pure ⟨o1, _, v1, ⟨_, h3⟩, hgrow.trans ((hgrow.fileAt hf).data hlt _), hlt⟩

theorem rfsWriteBlocks_post :
    ∀ {n i : Nat} {bo : Int} {s : State} {o : Objs} {d : Nat → Block} {b : Block} {v : Vinode},
      Holds s o d b R → FileAt M care w o d v → (i : Int) ≤ v.blocks →
      Post (rfsWriteBlocks w buf n bo i) s (fun r s' => r.2 = ((i + n : Nat) : Int) ∧
        ∃ o' d' v', Ends s' o' d' R ∧ Rewrote M care w o d v o' d' v' ∧
          ((i + n : Nat) : Int) ≤ v'.blocks) NoAssert
  | 0, i, bo, s, o, d, b, v, h, hf, hle => .pure ⟨rfl, o, d, v, ⟨b, h⟩, .refl hf.vinode, hle⟩
  | n + 1, i, bo, s, o, d, b, v, h, hf, hle => by
      unfold rfsWriteBlocks
      refine .bind (rfsWriteBlock_post h hf hle) ?_
      rintro _ s1 ⟨o1, d1, v1, ⟨b1, h1⟩, hre, hlt⟩
      rw [show (i : Int) + 1 = ((i + 1 : Nat) : Int) by omega]
      refine (rfsWriteBlocks_post h1 (hre.fileAt hf) (by omega)).mono ?_
      rintro r s2 ⟨hr, o2, d2, v2, h2, hre2, hle2⟩
      rw [show i + 1 + n = i + (n + 1) by omega] at hr hle2
      exact ⟨hr, o2, d2, v2, h2, hre.trans hre2, hle2⟩

/-- The blocks written from their start: `t` complete ones and a part. -/
theorem rfsWriteRest_post {t rem : Nat} {bo : Int} (h : Holds s o d b R) (hf : FileAt M care w o d v)
    (hle : (i : Int) ≤ v.blocks) (hrem : rem < 4096) :
    Post (rfsWriteRest w buf bo i t rem) s (fun _ s' => ∃ o' d' v', Ends s' o' d' R ∧
      Rewrote M care w o d v o' d' v' ∧
      ((i * 4096 + (t * 4096 + rem) : Nat) : Int) ≤ v'.blocks * 4096) NoAssert := by
  unfold rfsWriteRest
  rw [if_pos (by omega), Int.toNat_natCast]
  refine .bind (rfsWriteBlocks_post h hf hle) ?_
  rintro ⟨bo1, _⟩ s1 ⟨rfl, o1, d1, v1, ⟨b1, h1⟩, hre, hle1⟩
  dsimp only
  by_cases hpos : 0 < rem
  · rw [if_pos (by omega)]
    refine (rfsWriteBlock_post h1 (hre.fileAt hf) hle1).mono ?_
    rintro _ s2 ⟨o2, d2, v2, h2, hre2, hlt2⟩
    exact ⟨o2, d2, v2, h2, hre.trans hre2, by omega⟩
  · rw [if_neg (by omega)]
    exact .pure ⟨o1, d1, v1, ⟨b1, h1⟩, hre, by omega⟩

/-- The rest of a block that has been written before. -/
theorem rfsWriteFirst_post {a q : Nat} {t : Int} (h : Holds s o d b R) (hf : FileAt M care w o d v)
    (hlt : (q : Int) < v.blocks) (ha : a ≠ 0) :
    Post (rfsWriteFirst v.addrs buf a q t) s (fun r s' => r.2 = (((q + 1 : Nat) : Int), t - 1) ∧
      ∃ d', Ends s' o d' R ∧ Rewrote M care w o d v o d' v) NoAssert := by
  unfold rfsWriteFirst
  rw [if_pos (by omega)]
  refine .bind (addrAt_post fun _ => noAssert_ub _) ?_
  rintro blk _ ⟨rfl, -, rfl⟩
  refine .bind (rfsR1block_post h fun _ => noAssert_panic _) ?_
  rintro _ s1 ⟨-, -, h1⟩
  refine post_setIobuffer h1 fun s2 h2 => ?_
  refine .bind (rfsW1block_post h2 fun _ => noAssert_panic _) ?_
  rintro _ s3 ⟨-, -, h3⟩
  exact .pure ⟨rfl, _, ⟨_, h3⟩, hf.data hlt _⟩

/-! ## `rfs_write` -/

/-- What `rfs_write` has done: the file reaches to `stop`. -/
structure Wrote (M : Mount) (care : Care) (w : Ptr) (o : Objs) (d : Nat → Block) (stop : Nat)
    (o' : Objs) (d' : Nat → Block) (v' : Vinode) : Prop where
  steps : Steps M care (o, d) (o', d')
  vinode : o'.vinode w = some v'
  dentry : o'.dentry = o.dentry
  file : o'.file = o.file
  size : stop ≤ v'.size

/-- The end of `rfs_write`: the file grows to its new size. -/
theorem rfsWrite_end {off len : Nat} (h : Ends s o1 d1 R) (hf : FileAt M care w o d v)
    (hre : Rewrote M care w o d v o1 d1 v1)
    (hblocks : ((off + len : Nat) : Int) ≤ v1.blocks * 4096) :
    Post (getVinode w >>= fun v => setVinode w
      { v with size := if v.size < off + len then off + len else v.size } >>=
        fun _ => Pure.pure ((len : Int), (off : Int) + len)) s
      (fun r s' => r.2 = ((off + len : Nat) : Int) ∧
        ∃ o' d' v', Ends s' o' d' R ∧ Wrote M care w o d (off + len) o' d' v') E := by
  obtain ⟨b1, h1⟩ := h
  have hf1 := hre.fileAt hf
  have hsize : v1.size ≤ v1.blocks * 4096 := (hf1.inv.shape hf1.vinode hf1.rfs).size.2
  refine post_known vinodeKind h1 hf1.vinode ?_
  refine post_set vinodeKind h1 hf1.vinode fun s2 h2 => ?_
  refine .pure ⟨by simp, _, d1, _, ⟨b1, h2⟩, hre.steps.tail (.size w v1 _ hf1.vinode hf1.rfs hf1.file
    hf1.uses ?_ ?_), upd_self _ _ _, hre.dentry, hre.file, ?_⟩
  · split <;> omega
  · split <;> omega
  · show ((off + len : Nat) : Int) ≤ if v1.size < off + len then (off : Int) + len else v1.size
    split <;> omega

theorem rfsWrite_post {off : Nat} (h : Holds s o d b R) (hf : FileAt M care w o d v) :
    Post (rfsWrite w buf off) s (fun r s' => r.2 = ((off + buf.length : Nat) : Int) ∧
      ∃ o' d' v', Ends s' o' d' R ∧ Wrote M care w o d (off + buf.length) o' d' v') NoAssert := by
  have hsize : v.size ≤ v.blocks * 4096 := (hf.inv.shape hf.vinode hf.rfs).size.2
  unfold rfsWrite
  refine post_known vinodeKind h hf.vinode ?_
  refine .ite (fun _ => .fault (noAssert_panic _)) fun hoff => ?_
  dsimp only
  rw [tmod_rfsBlksize, tdiv_rfsBlksize, ← Nat.cast_add, tdiv_rfsBlksize, tmod_rfsBlksize]
  by_cases ha : off % 4096 = 0
  · -- from the start of a block
    unfold rfsWriteFirst
    rw [if_neg (by omega)]
    refine .step rfl (.bind (rfsWriteRest_post h hf (by omega) (by omega)) ?_)
    rintro _ s1 ⟨o1, d1, v1, h1, hre, hblocks⟩
    exact rfsWrite_end h1 hf hre (by omega)
  · -- from inside a block, which the file has
    refine .bind (rfsWriteFirst_post h hf (by omega) ha) ?_
    rintro ⟨bo, _⟩ s1 ⟨rfl, d1, ⟨b1, h1⟩, hre⟩
    dsimp only
    by_cases hone : (buf.length + off % 4096) / 4096 = 0
    · rw [rfsWriteRest, if_neg (by omega)]
      exact .step rfl (rfsWrite_end ⟨b1, h1⟩ hf hre (by omega))
    · rw [show (((buf.length + off % 4096) / 4096 : Nat) : Int) - 1 =
        (((buf.length + off % 4096) / 4096 - 1 : Nat) : Int) by omega]
      refine .bind (rfsWriteRest_post h1 (hre.fileAt hf) (by omega) (by omega)) ?_
      rintro _ s2 ⟨o2, d2, v2, h2, hre2, hblocks⟩
      exact rfsWrite_end h2 hf (hre.trans hre2) (by omega)

/-! ## `rfs_read` -/

theorem rfsReadBlocks_post {addrs : Fin directBlknum → Int} :
    ∀ {n : Nat} {bo i : Int} {s : State} {b buf : Block}, Holds s o d b R →
      Post (rfsReadBlocks rfsR1block addrs n buf bo i) s (fun _ s' => Ends s' o d R) NoAssert
  | 0, _, _, _, b, _, h => .pure ⟨b, h⟩
  | n + 1, _, _, _, _, _, h => by
      unfold rfsReadBlocks
      refine .bind (addrAt_post fun _ => noAssert_ub _) ?_
      rintro blk _ ⟨rfl, -, -⟩
      refine .bind (rfsR1block_post h fun _ => noAssert_panic _) ?_
      rintro _ s1 ⟨-, -, h1⟩
      exact .bindGet (rfsReadBlocks_post h1)

theorem rfsReadRest_post {addrs : Fin directBlknum → Int} {t rem bo i : Int} {buf : Block}
    (h : Holds s o d b R) :
    Post (rfsReadRest rfsR1block addrs t rem buf bo i) s (fun _ s' => Ends s' o d R) NoAssert := by
  refine .ite (fun _ => .bind (rfsReadBlocks_post h) ?_) fun _ => .pure ⟨b, h⟩
  rintro ⟨buf1, bo1, i1⟩ s1 ⟨b1, h1⟩
  refine .ite (fun _ => .bind (addrAt_post fun _ => noAssert_ub _) ?_) fun _ => .pure ⟨b1, h1⟩
  rintro blk _ ⟨rfl, -, -⟩
  refine .bind (rfsR1block_post h1 fun _ => noAssert_panic _) ?_
  rintro _ s2 ⟨-, -, h2⟩
  exact .bindGet (.pure ⟨_, h2⟩)

/-- `rfs_read` leaves the offset inside the file. -/
theorem rfsRead_post {off len : Nat} {stack : Block} (h : Holds s o d b R)
    (hw : o.vinode w = some v) :
    Post (rfsRead w len off stack) s (fun r s' => 0 ≤ r.2.1 ∧ r.2.1 ≤ v.size ∧ Ends s' o d R) NoAssert := by
  refine .bind (R := fun r s' => 0 ≤ off + r.1 ∧ off + r.1 ≤ v.size ∧ Ends s' o d R) ?_
    fun _ _ hr => .pure hr
  refine post_known vinodeKind h hw ?_
  refine .ite (fun _ => .fault (noAssert_panic _)) fun hoff => ?_
  refine .bind (addrAt_post fun _ => noAssert_ub _) ?_
  rintro blk _ ⟨rfl, -, -⟩
  refine .bind (rfsR1block_post h fun _ => noAssert_panic _) ?_
  rintro _ s1 ⟨-, -, h1⟩
  refine .bindGet (.bind (rfsReadRest_post h1) fun buf' s2 h2 => .pure ⟨?_, ?_, h2⟩)
  · dsimp only
    split <;> omega
  · dsimp only
    split <;> omega

end

end Pke
