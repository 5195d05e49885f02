import Pke.BlockWalk

/-!
# The block table of a file

A vinode lists at most ten blocks. `rfs_write` takes the next entry of
the list without asking whether there is one, so it stays inside the
table exactly when what it writes ends within ten blocks
(`rfs_write_in_table_iff`). `rfs_read` reads the block of its offset
before it knows how much there is to read: at the end of a file that
fills its last block this is the entry behind the last
(`rfs_read_own_iff`).
-/

namespace Pke

open Exec (Post bind_of_ok fault)

/-! ## Writing -/

variable {buf : List UInt8} {i off : Nat}

namespace Writer

section

variable {s : State} {f sb : Ptr} {B : SuperBlock} {x : Writer}

/-- The block after the tenth. -/
theorem rfsWriteBlock_over (buf : List UInt8) (bo n : Nat) (hne : f ≠ sb) (hB : B.nblocks = 100)
    (hsb : x.vinode.sb = sb) (hten : x.vinode.blocks = 10) (hspace : x.space ≠ 0) :
    rfsWriteBlock f buf bo (10 : Nat) n (x.state s f sb B) = .error (.ub "addrs") := by
  obtain ⟨_, _, halloc, k, -, -, rfl, rfl⟩ := (rfsAllocBlock_spec (s := s) (E := fun _ => False)
    hne hB hspace).returns nofun
  have hgrow : rfsGrow f (10 : Nat) (x.state s f sb B) = .error (.ub "addrs") := by
    unfold rfsGrow
    rw [bind_of_ok (getVinode_run vinode_state), if_pos (by omega), hsb, bind_of_ok halloc]
    rfl
  unfold rfsWriteBlock
  simp only [Bind.bind, Exec.bind, hgrow]

/-- One byte more than ten blocks, in a file with room on the disk for eleven. -/
theorem rfsWrite_over (buf : List UInt8) (hne : f ≠ sb) (hB : B.nblocks = 100)
    (hsb : x.vinode.sb = sb) (hx : x.Placed) (hlen : buf.length = 40961) (hspace : 10 < x.vinode.blocks + x.space) :
    rfsWrite f buf (0 : Nat) (x.state s f sb B) = .error (.ub "addrs") := by
  have hsize : 0 ≤ x.vinode.size := hx.size.1
  have hblocks : 0 ≤ x.vinode.blocks ∧ x.vinode.blocks ≤ 10 := hx.blocks
  have hten : Post (rfsWriteBlocks f buf 10 (0 : Nat) (0 : Nat)) (x.state s f sb B) _
      fun _ => False := rfsWriteBlocks_spec hne hB hsb hx (by omega) (by omega) (by omega)
  obtain ⟨_, _, hrun, y, rfl, rfl, hgrew, hy, hyblocks, -⟩ := hten.returns nofun
  have hysb : y.vinode.sb = sb := by rw [hgrew.vinode]; exact hsb
  have hyspace := hgrew.space
  have hover := rfsWriteBlock_over (s := s) buf 40960 1 hne hB hysb (by omega) (by omega)
  unfold rfsWrite
  rw [bind_of_ok (getVinode_run vinode_state), if_neg (by omega), hlen]
  refine (bind_of_ok rfl).trans (Exec.bind_of_error ?_)
  exact (bind_of_ok hrun).trans hover

end

end Writer

/-- A write says that it has written everything. -/
theorem rfsWrite_length {f : Ptr} {off : Int} {s s' : State} {r : Int × Int}
    (h : rfsWrite f buf off s = .ok (r, s')) : r.1 = buf.length := by
  have hpost : Post (rfsWrite f buf off) s (fun r _ => r.1 = buf.length) fun _ => True := by
    unfold rfsWrite
    refine .bind .any fun v _ _ => .ite (fun _ => .fault trivial) fun _ => ?_
    refine .bind .any fun _ _ _ => .bind .any fun _ _ _ => .bind .any fun _ _ _ => ?_
    exact .bind .any fun _ _ _ => .pure rfl
  exact hpost.of_ok h

/-- The write stays inside the block table, and one that does not fit is refused or
shortened. -/
structure WriteInTable (s : State) (f : Ptr) (buf : List UInt8) (off : Nat) : Prop where
  index : rfsWrite f buf off s ≠ .error (.ub "addrs")
  blocks : ∀ r s' v', rfsWrite f buf off s = .ok (r, s') → s'.vinode f = some v' →
    v'.blocks ≤ directBlknum
  short : directBlknum * 4096 < off + buf.length →
    ∃ r s', rfsWrite f buf off s = .ok (r, s') ∧ r.1 < buf.length

theorem rfs_write_in_table_iff {s : State} {sb f : Ptr} {B : SuperBlock} {v : Vinode}
    (h : WellFormed s sb B) (hf : s.Loaded sb v.inum f v) {off : Nat}
    (hoff : (off : Int) ≤ v.size) (buf : List UInt8) :
    WriteInTable s f buf off ↔ off + buf.length ≤ directBlknum * 4096 := by
  constructor
  · intro hin
    by_contra hlong
    obtain ⟨r, s', hrun, hlt⟩ := hin.short (by omega)
    have := rfsWrite_length hrun
    omega
  · intro hcap
    have hpost := Writer.rfsWrite_spec (s := s) (x := writerOf s B v)
      (E := fun e => e = Writer.noFreeBlock) (h.ne_sb hf) h.nblocks hf.sb (h.shape _ _ hf.inode) hoff
      hcap fun _ => rfl
    rw [state_writerOf h hf] at hpost
    refine ⟨fun herr => (nomatch hpost.of_error herr), fun r s' v' hrun hv' => ?_,
      fun hlong => by omega⟩
    obtain ⟨-, y, hw, rfl⟩ := hpost.of_ok hrun
    obtain rfl := Option.some.inj (Writer.vinode_state.symm.trans hv')
    exact hw.placed.blocks.2

theorem rfs_write_in_table_iff_two :
    WriteInTable twoBytes 8192 [9] 1 ↔ 1 + [(9 : UInt8)].length ≤ directBlknum * 4096 :=
  rfs_write_in_table_iff twoBytes_wellFormed twoBytes_loaded (by decide) [9]

/-- One byte more than ten blocks: the eleventh block is entered behind the table. -/
theorem rfs_write_overruns : WellFormed twoBytes 4096 twoBytesSb ∧
    twoBytes.Loaded 4096 twoBytesFile.inum 8192 twoBytesFile ∧
    rfsWrite 8192 (List.replicate 40961 0) (0 : Nat) twoBytes = .error (.ub "addrs") ∧
    ¬WriteInTable twoBytes 8192 (List.replicate 40961 0) 0 := by
  have herr : rfsWrite 8192 (List.replicate 40961 0) (0 : Nat) twoBytes = .error (.ub "addrs") := by
    have hrun := Writer.rfsWrite_over (s := twoBytes) (x := writerOf twoBytes twoBytesSb twoBytesFile)
      (List.replicate 40961 0) (twoBytes_wellFormed.ne_sb twoBytes_loaded) twoBytes_wellFormed.nblocks
      rfl (twoBytes_wellFormed.shape _ _ twoBytes_loaded.inode) List.length_replicate (by decide)
    rw [state_writerOf twoBytes_wellFormed twoBytes_loaded] at hrun
    exact hrun
  exact ⟨twoBytes_wellFormed, twoBytes_loaded, herr, fun h => h.index herr⟩

/-! ## Reading -/

/-- The block is one of the file. -/
def Vinode.Owns (v : Vinode) (n : Int) : Prop :=
  ∃ i : Fin directBlknum, ((i : Nat) : Int) < v.blocks ∧ addrOf v.addrs i = n

instance (v : Vinode) (n : Int) : Decidable (v.Owns n) := inferInstanceAs (Decidable (∃ _, _))

/-- A transfer that stops at a block that is not one of the file. -/
def ownBlock (v : Vinode) (n : Int) : Kern Int :=
  if v.Owns n then rfsR1block n else fault (.ub "a block of another file")

/-- Every block `rfs_read` reads is one of the file, and no read panics. -/
def ReadsOwn (s : State) (f : Ptr) (v : Vinode) (len off : Nat) (stack : Block) : Prop :=
  ∃ r s', rfsReadBy (ownBlock v) f len off stack s = .ok (r, s') ∧
    rfsRead f len off stack s = .ok (r, s')

section

variable {s : State} {f : Ptr} {v : Vinode}

theorem Vinode.FileTable.fetches_own (h : v.FileTable) : v.Fetches (ownBlock v) := by
  intro i hi s
  have hten : v.blocks ≤ 10 := h.blocks.2
  have hlt : i < 10 := by omega
  rw [ownBlock, if_pos ⟨⟨i, hlt⟩, hi, rfl⟩]
  exact h.fetches i hi s

/-- A read that starts before the end of the blocks. -/
theorem Vinode.FileTable.readsOwn (h : v.FileTable) (hv : s.vinode f = some v)
    (hoff : (off : Int) ≤ v.size) (hin : (off : Int) < v.blocks * 4096) (len : Nat) (stack : Block)
    : ReadsOwn s f v len off stack := by
  obtain ⟨io, hrun⟩ := h.gather hv hoff hin len stack
  exact ⟨_, _,
    bind_of_ok (hrun _ h.fetches_own),
    bind_of_ok (hrun _ h.fetches)⟩

/-- A read at the end of a file that fills its blocks: the entry behind the last is
read, and no other. -/
theorem rfsReadBy_end (hv : s.vinode f = some v) (hsize : v.size = off)
    (hend : (off : Int) = v.blocks * 4096) (r1 : Int → Kern Int) (len : Nat) (stack : Block) :
    rfsReadBy r1 f len off stack s =
      (do
        let block ← addrAt v.addrs v.blocks
        let _ ← r1 block
        pure ((0 : Int), (off : Int), [0])) s := by
  have hlen : (if v.size < (off : Int) + len then v.size - off else (len : Int)) = 0 := by
    split <;> omega
  have halign : (off : Int).tmod rfsBlksize = 0 := by
    rw [tmod_rfsBlksize]
    omega
  have hblock : (off : Int).tdiv rfsBlksize = v.blocks := by
    rw [tdiv_rfsBlksize]
    omega
  rw [rfsReadBy, rfsGather, Exec.bind_assoc, bind_of_ok (getVinode_run hv), if_neg (by omega)]
  dsimp only
  rw [hlen, halign, hblock]
  simp only [rfsReadRest, add_zero, Int.zero_tdiv, zero_sub, Int.reduceNeg, Int.neg_nonneg,
    Int.reduceLE, ↓reduceIte, Int.toNat_zero, zero_add, Exec.bind_assoc]
  rfl

theorem rfs_read_own_iff (hv : s.vinode f = some v) (h : v.FileTable) {off : Nat}
    (hoff : (off : Int) ≤ v.size) (len : Nat) (stack : Block) :
    ReadsOwn s f v len off stack ↔ (off : Int) < v.blocks * 4096 ∨
      (v.blocks < directBlknum ∧ v.Owns (addrOf v.addrs v.blocks.toNat)) := by
  have hsize := h.size
  have hblocks : 1 ≤ v.blocks ∧ v.blocks ≤ 10 := h.blocks
  by_cases hin : (off : Int) < v.blocks * 4096
  · exact iff_of_true (h.readsOwn hv hoff hin len stack) (.inl hin)
  have hsz : v.size = off := by omega
  have hend := rfsReadBy_end hv hsz (by omega)
  by_cases hfull : v.blocks < 10
  · have haddr : addrAt v.addrs v.blocks s = .ok (addrOf v.addrs v.blocks.toNat, s) := by
      have hrun : addrAt v.addrs (v.blocks.toNat : Int) s = _ := addrAt_run (by omega)
      rwa [Int.toNat_of_nonneg (by omega)] at hrun
    simp only [bind_of_ok haddr] at hend
    rw [or_iff_right hin, and_iff_right (show v.blocks < directBlknum from hfull)]
    constructor
    · rintro ⟨r, s', hrun, -⟩
      by_contra hother
      rw [hend, ownBlock, if_neg hother] at hrun
      cases hrun
    · intro hown
      obtain ⟨i, hi, heq⟩ := hown
      have hread := h.fetches i hi s
      have hown := h.fetches_own i hi s
      rw [heq] at hread hown
      exact ⟨((0 : Int), (off : Int), [0]), _, (hend ..).trans (bind_of_ok hown),
        (hend ..).trans (bind_of_ok hread)⟩
  · -- there is no entry behind the tenth
    have hnot : ¬v.blocks < directBlknum := hfull
    refine iff_of_false ?_ fun hcase => ?_
    · rintro ⟨r, s', hrun, -⟩
      have hten : v.blocks = 10 := by omega
      rw [hend, hten] at hrun
      cases hrun
    · rcases hcase with hcase | hcase
      · exact hin hcase
      · exact hnot hcase.1

/-- A file of one block that is full; the entry behind it is that of block 0. -/
def fullBlockFile : Vinode :=
  { twoBytesFile with size := 4096, addrs := fun i => if i = 0 then 13 else 0 }

theorem fullBlockFile_table : fullBlockFile.FileTable := by
  refine ⟨by decide, by decide, fun i hi => ?_⟩
  have hzero : i = 0 := by
    have : (i : Int) < 1 := hi
    omega
  subst hzero
  decide

def fullBlock : State := twoBytes.setPage 8192 (.vinode fullBlockFile)

theorem rfs_read_own_iff_full : ReadsOwn fullBlock 8192 fullBlockFile 10 4095 (fun _ => 0) ↔
    ((4095 : Nat) : Int) < fullBlockFile.blocks * 4096 ∨ (fullBlockFile.blocks < directBlknum ∧
      fullBlockFile.Owns (addrOf fullBlockFile.addrs fullBlockFile.blocks.toNat)) :=
  rfs_read_own_iff rfl fullBlockFile_table (by decide) 10 fun _ => 0

/-- At the end of the file the superblock of the disk is read. -/
theorem rfs_read_foreign : fullBlock.vinode 8192 = some fullBlockFile ∧
    fullBlockFile.FileTable ∧ ((4096 : Nat) : Int) ≤ fullBlockFile.size ∧
    rfsReadBy (ownBlock fullBlockFile) 8192 (10 : Nat) (4096 : Nat) (fun _ => 0) fullBlock =
      .error (.ub "a block of another file") ∧
    ¬ReadsOwn fullBlock 8192 fullBlockFile 10 4096 fun _ => 0 := by
  have herr : rfsReadBy (ownBlock fullBlockFile) 8192 (10 : Nat) (4096 : Nat) (fun _ => 0)
      fullBlock = .error (.ub "a block of another file") := by
    rw [rfsReadBy_end rfl rfl rfl]
    rfl
  refine ⟨rfl, fullBlockFile_table, by decide, herr, ?_⟩
  rintro ⟨r, s', hrun, -⟩
  rw [herr] at hrun
  cases hrun

end

end Pke
