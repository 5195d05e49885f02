import Pke.Splice

/-!
# Adding an entry to a directory of any size

`rfs_add_direntry` on a directory of several blocks, from any
well-formed state. Entry `i` of a directory is in slot `i % 128` of block
`addrs[i / 128]` (`dirEntryAt`), as `rfs_lookup` finds it.

The function takes the block to write from `addrs[size / RFS_BLKSIZE]`.
That is a block of the directory as long as the last one has room. When
it is full, the entry of the block list behind the last one is used as
it is: no block is allocated, and `blocks` does not grow with `size`.
-/

namespace Pke

open Exec (bind_of_ok)

/-! ## Entries by block and slot -/

/-- Entry `i` of the directory with the block list `addrs`. -/
def dirEntryAt (d : Nat → Block) (addrs : Fin directBlknum → Int) (i : Nat) : Int × Name :=
  direntry (d (addrOf addrs (i / 128)).toNat) (i % 128)

/-- The entries of a directory, in the order `rfs_lookup` browses them. -/
def Dinode.entries (d : Nat → Block) (di : Dinode) : List (Int × Name) :=
  (List.range (direntryCount di.size)).map (dirEntryAt d di.addrs)

/-- A well-formed state whose directories hold complete entries. -/
structure DirsFormed (s : State) (sb : Ptr) (B : SuperBlock) : Prop where
  formed : WellFormed s sb B
  whole : ∀ n di, s.Inode sb n di → di.type = rDir → 32 ∣ di.size

/-! ## The run -/

variable {blk : Nat} {size : Int} {di : Dinode}

section

variable {s : State} {dir : Ptr} {v : Vinode} {name : Name} {inum : Int}

/-- The state `rfs_add_direntry` leaves when it writes to block `blk`. -/
def addedState (s : State) (dir : Ptr) (v : Vinode) (name : Name) (inum : Int) (blk : Nat) :
    State :=
  let d := upd s.disk blk
    (memcpy (putInt (s.disk blk) (v.size % 4096).toNat inum) ((v.size % 4096).toNat + 4)
      (name.length + 1) (strBytes name))
  { s.setPage dir (.vinode { v with size := v.size + 32 }) with
    disk := writeInode d { v with size := v.size + 32 }.toDinode v.inum
    iobuffer := memcpy (d (inodeBlock v.inum)) (inodeOff v.inum) dinodeSize
      { v with size := v.size + 32 }.toDinode.byte }

theorem rfsAddDirentry_run (inum : Int) (hv : s.vinode dir = some v) (hdir : v.type = dirI)
    (hn : InodeNum v.inum) (hsize : 0 ≤ v.size) (hidx : v.size / 4096 < 10)
    (hblk : 0 ≤ addrOf v.addrs (v.size / 4096).toNat ∧ addrOf v.addrs (v.size / 4096).toNat < 128)
    (hname : name.length < rfsMaxFileNameLen) :
    rfsAddDirentry dir name inum s =
      .ok (0, addedState s dir v name inum (addrOf v.addrs (v.size / 4096).toNat).toNat) := by
  have hdiv : v.size.tdiv rfsBlksize = ((v.size / 4096).toNat : Int) := by
    rw [Int.tdiv_eq_ediv_of_nonneg hsize]
    exact (Int.toNat_of_nonneg (Int.ediv_nonneg hsize (by decide))).symm
  unfold rfsAddDirentry
  rw [bind_of_ok (getVinode_run hv), if_neg (by simp [hdir]), hdiv,
    bind_of_ok (addrAt_run (by omega)), bind_of_ok (rfsR1block_run hblk), if_neg (by decide),
    if_neg (by omega), bind_of_ok (setIobuffer_run _), bind_of_ok (rfsW1block_run hblk),
    if_neg (by decide)]
  refine (bind_of_ok rfl).trans ?_
  refine (bind_of_ok (rfsWriteBackVinode_run (v := { v with size := v.size + 32 }) ?_ hn)).trans ?_
  · simp [State.setPage, State.vinode, Page.asVinode]
  · rfl

/-- When it returns, the block it wrote to was one of the disk. -/
theorem rfsAddDirentry_blk {ret : Int} {s' : State} (hv : s.vinode dir = some v)
    (hdir : v.type = dirI) (hsize : 0 ≤ v.size) (hidx : v.size / 4096 < 11)
    (hrun : rfsAddDirentry dir name inum s = .ok (ret, s')) :
    v.size / 4096 < 10 ∧ 0 ≤ addrOf v.addrs (v.size / 4096).toNat ∧
      addrOf v.addrs (v.size / 4096).toNat < 128 := by
  have hdiv : v.size.tdiv rfsBlksize = ((v.size / 4096).toNat : Int) := by
    rw [Int.tdiv_eq_ediv_of_nonneg hsize]
    exact (Int.toNat_of_nonneg (Int.ediv_nonneg hsize (by decide))).symm
  unfold rfsAddDirentry at hrun
  rw [bind_of_ok (getVinode_run hv), if_neg (by simp [hdir]), hdiv] at hrun
  obtain ⟨blk, s1, haddr, hrun⟩ := Exec.bind_ok hrun
  have hten : (v.size / 4096).toNat < 10 := by
    by_contra hge
    have hout : ¬(0 ≤ ((v.size / 4096).toNat : Int) ∧ ((v.size / 4096).toNat : Int) < (10 : Nat)) := by
      omega
    rw [addrAt, dif_neg hout] at haddr
    cases haddr
  rw [addrAt_run hten] at haddr
  cases haddr
  refine ⟨by omega, ?_⟩
  by_contra hout
  have hfault : addrOf v.addrs (v.size / 4096).toNat < 0 ∨
      addrOf v.addrs (v.size / 4096).toNat ≥ (128 : Int) := by omega
  obtain ⟨_, s2, hread, -⟩ := Exec.bind_ok hrun
  rw [rfsR1block, ramdiskRead, if_pos hfault] at hread
  cases hread

/-! ## What is added -/

variable {sb : Ptr} {B : SuperBlock}

/-- Exactly one entry has been added, inside the blocks of the directory. -/
structure Added (s s' : State) (sb : Ptr) (B : SuperBlock) (dir : Ptr) (v : Vinode) (name : Name)
    (inum : Int) : Prop where
  entries : ∃ v', s'.vinode dir = some v' ∧
    v'.toDinode.entries s'.disk = v.toDinode.entries s.disk ++ [(inum, name)]
  blocks : ∀ blk : Nat, s'.disk blk ≠ s.disk blk →
    blk = inodeBlock v.inum ∨ v.toDinode.HasBlock blk
  formed : DirsFormed s' sb B

theorem addedState_replaces (hn : InodeNum v.inum) (hblk : 12 ≤ blk) :
    Replaces s (addedState s dir v name inum blk) dir v { v with size := v.size + 32 } where
  self := by simp [addedState, State.vinode, State.setPage, Page.asVinode]
  other w hw := by simp [addedState, State.vinode, State.setPage, upd_ne hw]
  same := ⟨rfl, rfl, rfl⟩
  disk n hne := by
    simp only [addedState]
    rw [diskInode_write_ne hn hne, diskInode_data (by omega)]

theorem addedState_loaded (hdir : s.Loaded sb v.inum dir v) :
    (addedState s dir v name inum blk).Loaded sb v.inum dir { v with size := v.size + 32 } :=
  ⟨by simp [addedState, State.vinode, State.setPage, Page.asVinode], hdir.rfs, hdir.sb, rfl⟩

/-- Blocks other than the one written and the inode block. -/
theorem addedState_frame {j : Nat} (hj : j ≠ inodeBlock v.inum) (hne : j ≠ blk) :
    (addedState s dir v name inum blk).disk j = s.disk j := by
  simp only [addedState, writeInode]
  rw [upd_ne hj, upd_ne hne]

/-- The block that holds the new entry. -/
theorem addedState_blk (hn : InodeNum v.inum) (hblk : 12 ≤ blk) (hsize : 0 ≤ v.size)
    (hdvd : 32 ∣ v.size) : (addedState s dir v name inum blk).disk blk =
      putDirentry (s.disk blk) (direntryCount v.size % 128) inum name := by
  have hinode := inodeBlock_range hn
  have hoff : (v.size % 4096).toNat = 32 * (direntryCount v.size % 128) := by
    unfold direntryCount
    omega
  simp only [addedState, writeInode]
  rw [upd_ne (by omega), upd_self, hoff]
  rfl

/-- With room in the last block, the new entry comes after the old ones. -/
theorem entries_addedState (hp : v.toDinode.Placed B.freemap) (hn : InodeNum v.inum)
    (hdvd : 32 ∣ v.size) (hroom : v.size < v.blocks * 4096) (hinum : IsInt32 inum)
    (hname : NameOk name) :
    Dinode.entries (addedState s dir v name inum (addrOf v.addrs (v.size / 4096).toNat).toNat).disk
      { v with size := v.size + 32 }.toDinode = v.toDinode.entries s.disk ++ [(inum, name)] := by
  have hsize : 0 ≤ v.size := hp.size.1
  have hq : ((v.size / 4096).toNat : Int) < v.blocks := by omega
  have hblk : 12 ≤ addrOf v.addrs (v.size / 4096).toNat := (hp.data _ hq).1
  have hinode := inodeBlock_range hn
  have hcount : direntryCount (v.size + 32) = direntryCount v.size + 1 := by
    unfold direntryCount
    omega
  have hdiv : direntryCount v.size / 128 = (v.size / 4096).toNat := by
    unfold direntryCount
    omega
  have hself : dirEntryAt (addedState s dir v name inum
      (addrOf v.addrs (v.size / 4096).toNat).toNat).disk v.addrs (direntryCount v.size) =
      (inum, name) := by
    unfold dirEntryAt
    rw [hdiv, addedState_blk hn (by omega) hsize hdvd, direntry_put_self hinum hname]
  have hold : ∀ i ∈ List.range (direntryCount v.size), dirEntryAt (addedState s dir v name inum
      (addrOf v.addrs (v.size / 4096).toNat).toNat).disk v.addrs i = dirEntryAt s.disk v.addrs i := by
    intro i hi
    have hi := List.mem_range.mp hi
    have hib : ((i / 128 : Nat) : Int) < v.blocks := by
      unfold direntryCount at hi
      omega
    have hia : 12 ≤ addrOf v.addrs (i / 128) := (hp.data _ hib).1
    unfold dirEntryAt
    by_cases hsame : i / 128 = (v.size / 4096).toNat
    · -- an earlier slot of the same block
      rw [hsame, addedState_blk hn (by omega) hsize hdvd, direntry_put_ne hname (by omega)]
    · rw [addedState_frame (by omega) fun heq => hsame (hp.inj _ _ hib hq ?_)]
      show addrOf v.addrs (i / 128) = addrOf v.addrs (v.size / 4096).toNat
      omega
  simp only [Dinode.entries, Vinode.toDinode, hcount, List.range_succ, List.map_append,
    List.map_cons, List.map_nil, hself, List.map_congr_left hold]

/-- `rfs_add_direntry` appends its entry inside the directory exactly when the
last block of the directory has room. -/
theorem rfs_add_direntry_appends_iff (h : DirsFormed s sb B) (hdir : s.Loaded sb v.inum dir v)
    (htype : v.type = dirI) (hname : NameOk name) (hinum : IsInt32 inum) {s' : State}
    (hrun : rfsAddDirentry dir name inum s = .ok (0, s')) :
    Added s s' sb B dir v name inum ↔ v.size < v.blocks * 4096 := by
  have hn := h.formed.inum _ _ _ hdir
  have hp : v.toDinode.Placed B.freemap := h.formed.shape _ _ hdir.inode
  have hsize : 0 ≤ v.size ∧ v.size ≤ v.blocks * 4096 := hp.size
  have hblocks : v.blocks ≤ 10 := hp.blocks.2
  have hdvd : 32 ∣ v.size := h.whole _ _ hdir.inode htype
  obtain ⟨hidx, hblk⟩ := rfsAddDirentry_blk hdir.vinode htype hsize.1 (by omega) hrun
  rw [rfsAddDirentry_run inum hdir.vinode htype hn hsize.1 hidx hblk hname.2] at hrun
  obtain rfl : addedState s dir v name inum _ = s' := congrArg Prod.snd (Except.ok.inj hrun)
  have hne := h.formed.ne_sb hdir
  constructor
  · -- a directory that was full is longer than its blocks
    intro hadd
    have hfit : v.size + 32 ≤ v.blocks * 4096 :=
      (hadd.formed.formed.shape _ _ (addedState_loaded hdir).inode).size.2
    omega
  · intro hroom
    have hq : ((v.size / 4096).toNat : Int) < v.blocks := by omega
    have hdata : 12 ≤ addrOf v.addrs (v.size / 4096).toNat := (hp.data _ hq).1
    have hr : Replaces s (addedState s dir v name inum _) dir v { v with size := v.size + 32 } :=
      addedState_replaces hn (by omega : 12 ≤ (addrOf v.addrs (v.size / 4096).toNat).toNat)
    refine ⟨⟨_, hr.self, entries_addedState hp hn hdvd hroom hinum hname⟩, fun blk hchange => ?_, ?_, ?_⟩
    · by_contra hother
      rw [not_or] at hother
      refine hchange (addedState_frame hother.1 fun heq => hother.2 ⟨_, hq, ?_⟩)
      show addrOf v.addrs (v.size / 4096).toNat = _
      omega
    · refine hr.wellFormed h.formed hdir ?_ h.formed.nblocks ?_ fun n di hnv hdi => ?_
      · simpa [addedState, State.superBlock, State.setPage, upd_ne (Ne.symm hne)] using
          h.formed.superBlock
      · refine ⟨⟨?_, ?_⟩, hp.blocks, hp.data, hp.used, hp.inj⟩
        · show 0 ≤ v.size + 32
          omega
        · show v.size + 32 ≤ v.blocks * 4096
          omega
      · have hapart := h.formed.apart _ _ _ _ hdir.inode hdi (Ne.symm hnv)
        exact ⟨h.formed.shape n di hdi, hapart⟩
    · intro n di hdi htypeDi
      by_cases hnv : n = v.inum
      · subst hnv
        obtain rfl := hr.inode_self h.formed hdir hdi
        show 32 ∣ v.size + 32
        omega
      · exact h.whole n di ((hr.inode_ne hdir hnv).mp hdi) htypeDi

/-! ## A directory next to the file of two bytes -/

/-- A directory in block 12. Its block list has the number 13 behind the end,
left from a time when it had a second block. -/
def oneBlockDir (size : Int) : Vinode where
  inum := 0
  ref := 1
  size := size
  type := dirI
  nlinks := 1
  blocks := 1
  addrs i := if i = 0 then 12 else 13
  iFsInfo := 0
  sb := 4096
  iOps := .rfs

def twoBytesDir (size : Int) : State := twoBytes.setPage 12288 (.vinode (oneBlockDir size))

theorem twoBytesDir_vinode {w : Ptr} {u : Vinode} (h : (twoBytesDir size).vinode w = some u) :
    (w = 8192 ∧ u = twoBytesFile) ∨ (w = 12288 ∧ u = oneBlockDir size) := by
  by_cases hw : w = 12288
  · subst hw
    simp only [twoBytesDir, State.vinode, State.setPage, upd_self, Page.asVinode] at h
    exact .inr ⟨rfl, (Option.some.inj h).symm⟩
  · simp only [twoBytesDir, State.vinode, State.setPage, upd_ne hw] at h
    exact .inl (twoBytes_vinode h)

theorem twoBytesDir_loaded (size : Int) :
    (twoBytesDir size).Loaded 4096 (oneBlockDir size).inum 12288 (oneBlockDir size) :=
  ⟨rfl, rfl, rfl, rfl⟩

theorem twoBytesDir_only :
    OnlyInodes (twoBytesDir size) 4096 [(8192, twoBytesFile), (12288, oneBlockDir size)] := by
  refine ⟨fun w v h => ?_, fun n hn _ => twoBytes_onDisk hn⟩
  rcases twoBytesDir_vinode h with ⟨rfl, rfl⟩ | ⟨rfl, rfl⟩ <;> simp

theorem twoBytesDir_formed (h0 : 0 ≤ size) (h1 : size ≤ 4096) (hdvd : 32 ∣ size) :
    DirsFormed (twoBytesDir size) 4096 twoBytesSb where
  formed := by
    have hdir : (oneBlockDir size).toDinode.Placed twoBytesSb.freemap :=
      placed_one rfl ⟨h0, h1⟩ (by decide : (12 : Int) ≤ 12 ∧ (12 : Int) < 112)
        (by decide : twoBytesSb.freemap (12 - 12 : Int).toNat ≠ 0)
    have hapart : twoBytesFile.Apart (oneBlockDir size) := by
      refine ⟨by simp [twoBytesFile, oneBlockDir], fun blk hblk hblk' => ?_⟩
      have h13 : blk = 13 := hasBlock_one rfl hblk
      have h12 : blk = 12 := hasBlock_one rfl hblk'
      omega
    refine twoBytesDir_only.wellFormed rfl rfl ?_ ?_ (List.pairwise_pair.mpr hapart)
    · simp [show InodeNum twoBytesFile.inum by decide, show InodeNum (oneBlockDir size).inum from
        (by decide : InodeNum 0)]
    · simpa using ⟨twoBytesFile_placed, hdir⟩
  whole n di h ht := by
    rcases twoBytesDir_only.inode h with ⟨p, hp, -, rfl⟩ | ⟨hsize, -⟩
    · simp only [List.mem_cons, List.not_mem_nil, or_false] at hp
      rcases hp with rfl | rfl
      · exact absurd ht (by decide)
      · exact hdvd
    · rw [hsize]
      exact dvd_zero _

/-- A full directory: the entry goes to block 13, which is the file's, and the
directory is then longer than its blocks. -/
theorem rfs_add_direntry_overruns : DirsFormed (twoBytesDir 4096) 4096 twoBytesSb ∧
    (twoBytesDir 4096).Loaded 4096 0 12288 (oneBlockDir 4096) ∧
    ∃ s', rfsAddDirentry 12288 [97] 5 (twoBytesDir 4096) = .ok (0, s') ∧
      twoBytesFile.toDinode.contents s'.disk ≠
        twoBytesFile.toDinode.contents (twoBytesDir 4096).disk ∧
      ¬Added (twoBytesDir 4096) s' 4096 twoBytesSb 12288 (oneBlockDir 4096) [97] 5 := by
  refine ⟨twoBytesDir_formed (by decide) (by decide) (by decide), twoBytesDir_loaded 4096, ?_⟩
  have hrun : ((rfsAddDirentry 12288 [97] 5 (twoBytesDir 4096)).toOption.map fun r =>
      (r.1, (r.2.vinode 12288).map (·.size), twoBytesFile.toDinode.contents r.2.disk)) =
      some (0, some 4128, [5, 0]) := by decide
  have hold : twoBytesFile.toDinode.contents (twoBytesDir 4096).disk = [1, 2] := by decide
  have hres := rfsAddDirentry_run 5 (twoBytesDir_loaded 4096).vinode rfl
    (by decide) (by decide) (by decide) (by decide) (by decide : [(97 : UInt8)].length < _)
  rw [hres] at hrun ⊢
  simp only [Except.toOption, Option.map_some, Option.some.injEq, Prod.mk.injEq] at hrun
  refine ⟨_, rfl, ?_, fun hadd => ?_⟩
  · rw [hrun.2.2, hold]
    decide
  · have hfit := hadd.formed.formed.shape _ _ (addedState_loaded (twoBytesDir_loaded 4096)).inode
    exact absurd hfit.size.2 (by decide)

theorem rfs_add_direntry_appends_iff_second :
    ∃ s', rfsAddDirentry 12288 [97] 5 (twoBytesDir 32) = .ok (0, s') ∧
      (Added (twoBytesDir 32) s' 4096 twoBytesSb 12288 (oneBlockDir 32) [97] 5 ↔
        (32 : Int) < 1 * 4096) := by
  have hres := rfsAddDirentry_run 5 (twoBytesDir_loaded 32).vinode rfl
    (by decide) (by decide) (by decide) (by decide) (by decide : [(97 : UInt8)].length < _)
  exact ⟨_, hres, rfs_add_direntry_appends_iff
    (twoBytesDir_formed (by decide) (by decide) (by decide)) (twoBytesDir_loaded 32) rfl
    ⟨by decide, by decide⟩ (by decide) hres⟩

end

end Pke
