import Pke.Readdir

/-!
# Space that is given back

`rfs_unlink` frees the blocks the inode has on disk. A file that is open
or has another name in the cache may have more blocks in memory than on
disk, and those it has only in memory stay marked: all space is given
back exactly when disk and memory agree on the number of blocks
(`unlink_frees_iff`).
-/

namespace Pke

open Exec (Post)

/-! ## Freeing blocks -/

/-- The blocks that are marked. -/
def usedBlocks (m : Nat → Int) : Finset Nat := (Finset.range 100).filter fun k => m k ≠ 0

theorem mem_usedBlocks {m : Nat → Int} {k : Nat} : k ∈ usedBlocks m ↔ k < 100 ∧ m k ≠ 0 := by
  simp [usedBlocks]

/-- The numbers of the first `n` blocks of a file. -/
def blockSet (addrs : Fin directBlknum → Int) (n : Nat) : Finset Nat :=
  (Finset.range n).image fun i => (addrOf addrs i - 12).toNat

theorem usedBlocks_clear {addrs : Fin directBlknum → Int} {n : Nat} {m : Nat → Int} :
    usedBlocks (clearBlocks addrs n 0 m) = usedBlocks m \ blockSet addrs n := by
  ext k
  rw [Finset.mem_sdiff, mem_usedBlocks, mem_usedBlocks]
  by_cases hk : k ∈ blockSet addrs n
  · obtain ⟨i, hi, rfl⟩ := Finset.mem_image.mp hk
    have hlt : i < 0 + n := by simpa using hi
    have hzero : clearBlocks addrs n 0 m (addrOf addrs i - 12).toNat = 0 :=
      BlockInv.clearBlocks_self (Nat.zero_le i) hlt
    simp [hk, hzero]
  · have hother : clearBlocks addrs n 0 m k = m k := by
      refine BlockInv.clearBlocks_other fun j _ hj heq => hk (Finset.mem_image.mpr ⟨j, ?_, heq⟩)
      simpa using hj
    simp [hk, hother]

namespace Inv

variable {M : Mount} {o : Objs} {d : Nat → Block} {n : Int}

/-- The blocks of a file are marked, and there are as many as it says. -/
theorem blockSet_used (h : Inv M o d) (hn : Live (diskInode d) n) {k : Nat}
    (hk : (k : Int) ≤ (curInode (diskInode d) (o.mem M) n).blocks) :
    blockSet (curInode (diskInode d) (o.mem M) n).addrs k ⊆ usedBlocks (o.freemap M) ∧
      (blockSet (curInode (diskInode d) (o.mem M) n).addrs k).card = k := by
  constructor
  · intro b hb
    obtain ⟨i, hi, rfl⟩ := Finset.mem_image.mp hb
    have hik := Finset.mem_range.mp hi
    obtain ⟨hlo, hhi, hone⟩ := h.blocks.owned n i hn (by omega)
    exact mem_usedBlocks.mpr ⟨by omega, by rw [hone]; decide⟩
  · rw [blockSet, Finset.card_image_of_injOn, Finset.card_range]
    intro i hi j hj heq
    have hik : i < k := by simpa using hi
    have hjk : j < k := by simpa using hj
    have hloi := (h.blocks.owned n i hn (by omega)).1
    have hloj := (h.blocks.owned n j hn (by omega)).1
    have heq' : addrOf (curInode (diskInode d) (o.mem M) n).addrs i =
        addrOf (curInode (diskInode d) (o.mem M) n).addrs j := by
      dsimp only at heq
      omega
    exact (h.blocks.excl n n i j hn hn (by omega) (by omega) heq').2

/-- The blocks an inode has on disk are the first of those it has in memory. -/
theorem blockSet_disk (h : Inv M o d) (hn : Live (diskInode d) n) :
    (diskInode d n).blocks ≤ (curInode (diskInode d) (o.mem M) n).blocks ∧
      blockSet (diskInode d n).addrs (diskInode d n).blocks.toNat =
        blockSet (curInode (diskInode d) (o.mem M) n).addrs (diskInode d n).blocks.toNat := by
  unfold curInode
  cases hc : o.mem M n with
  | none => exact ⟨le_rfl, rfl⟩
  | some c =>
      obtain ⟨hle, hsame⟩ := (h.blocks.ok n hn).ahead c hc
      refine ⟨hle, Finset.image_congr fun i hi => ?_⟩
      have hik : i < (diskInode d n).blocks.toNat := by simpa using hi
      rw [hsame i (by omega)]
      rfl

theorem nlinks_disk (h : Inv M o d) (n : Int) :
    (diskInode d n).nlinks = (curInode (diskInode d) (o.mem M) n).nlinks := by
  unfold curInode
  cases hc : o.mem M n with
  | none => rfl
  | some c => exact h.vol.nlinks_eq hc

end Inv

/-! ## Unlinking the last name -/

/-- All blocks of the inode `di` are given back between `s` and `s'`. -/
structure SpaceBack (M : Mount) (s s' : State) (di : Dinode) : Prop where
  free : ∀ i : Nat, (i : Int) < di.blocks →
    s'.objs.freemap M (addrOf di.addrs i - rfsBlkOffsetFree).toNat = 0
  count : ((usedBlocks (s'.objs.freemap M)).card : Int) + di.blocks =
    (usedBlocks (s.objs.freemap M)).card

/-- The path leads to inode `n`. -/
def State.LeadsTo (s : State) (path : Path) (n : Int) : Prop :=
  ∃ tokens, RfsPath path tokens ∧ resolve s.disk tokens = (n, [])

theorem Inv.spaceBack_iff {M : Mount} {s s' : State} {n : Int} {di : Dinode}
    (h : Inv M s.objs s.disk) (hdi : s.liveInode M n = some di)
    (hmap : s'.objs.freemap M = clearBlocks (diskInode s.disk n).addrs
      (diskInode s.disk n).blocks.toNat 0 (s.objs.freemap M)) :
    SpaceBack M s s' di ↔ (diskInode s.disk n).blocks = di.blocks := by
  obtain ⟨hlive, rfl⟩ := h.liveInode hdi
  obtain ⟨hle, hset⟩ := h.blockSet_disk hlive
  have hpos : 1 ≤ (diskInode s.disk n).blocks := (h.blocks.ok n hlive).shape.blocks.1
  have hused : usedBlocks (s'.objs.freemap M) = usedBlocks (s.objs.freemap M) \
      blockSet (curInode (diskInode s.disk) (s.objs.mem M) n).addrs
        (diskInode s.disk n).blocks.toNat := by
    rw [hmap, usedBlocks_clear, hset]
  obtain ⟨hsub, hcard⟩ := h.blockSet_used hlive
    (k := (diskInode s.disk n).blocks.toNat) (by omega)
  have hcount : (usedBlocks (s'.objs.freemap M)).card + (diskInode s.disk n).blocks.toNat =
      (usedBlocks (s.objs.freemap M)).card := by
    have hsum := Finset.card_sdiff_add_card_eq_card hsub
    rwa [hcard, ← hused] at hsum
  constructor
  · intro hback
    have := hback.count
    omega
  · intro heq
    refine ⟨fun i hi => ?_, by omega⟩
    obtain ⟨hlo, hhi, -⟩ := h.blocks.owned n i hlive hi
    by_contra hne
    have hmem : (addrOf (curInode (diskInode s.disk) (s.objs.mem M) n).addrs i - 12).toNat ∈
        usedBlocks (s'.objs.freemap M) := mem_usedBlocks.mpr ⟨by omega, hne⟩
    rw [hused, Finset.mem_sdiff] at hmem
    exact hmem.2 (Finset.mem_image.mpr ⟨i, Finset.mem_range.mpr (by omega), rfl⟩)

theorem unlink_frees_iff {b : Boot} {host : VinodeOps} {s0 s s' : State} {path : Path} {n : Int}
    {di : Dinode} (h0 : b.Starts s0) (hrun : Run host (CountedCalls s0.mount) s0 s)
    (hop : CountedCalls s0.mount s (.unlink path)) (hcall : vfsUnlink host path s = .ok (0, s'))
    (hn : s.LeadsTo path n) (hdi : s.liveInode s0.mount n = some di) (hlast : di.nlinks = 1) :
    SpaceBack s0.mount s s' di ↔ (diskInode s.disk n).blocks = di.blocks := by
  obtain ⟨hs, -⟩ := hrun.steps (fun _ _ hop => hop) h0.sound
  obtain ⟨tokens, hp, hstop, -⟩ := hop
  obtain ⟨bio, h⟩ := hs.holds
  obtain ⟨o', d', hend, -, hok⟩ := (vfsUnlink_post .none h hs.inv hp
    hstop).of_ok hcall
  obtain ⟨m, hun⟩ := hok rfl
  obtain ⟨rfl, -⟩ := hend.here
  have hmn : m = n := by
    obtain ⟨tokens', hp', hres⟩ := hn
    obtain rfl : tokens = tokens' := (List.cons.inj (Eq.symm hp |>.trans hp')).2
    exact (Prod.mk.inj (Eq.symm hun.name |>.trans hres)).1
  subst hmn
  refine hs.inv.spaceBack_iff hdi ?_
  obtain ⟨hlive, rfl⟩ := hs.inv.liveInode hdi
  have hnl : (diskInode s.disk m).nlinks - 1 = 0 := by
    rw [hs.inv.nlinks_disk m, hlast]
    rfl
  rw [hun.map, dropMap, if_pos hnl]

/-- `vfs_unlink` of `path` succeeds in `s`, and `P` holds of the states before and after it. -/
def unlinkPasses (path : Path) (P : State → State → Bool) (s : State) : Bool :=
  match vfsUnlink noHost path s with
  | .ok (r, s') => r == 0 && P s s'
  | .error _ => false

theorem of_unlinkPasses {path : Path} {P : State → State → Bool} {s : State}
    (h : unlinkPasses path P s = true) :
    ∃ s', vfsUnlink noHost path s = .ok (0, s') ∧ P s s' = true := by
  unfold unlinkPasses at h
  split at h
  · rename_i r s' hcall
    obtain ⟨hr, hP⟩ := (Bool.and_eq_true _ _).mp h
    rw [beq_iff_eq.mp hr] at hcall
    exact ⟨s', hcall, hP⟩
  · cases h

/-- `name` is the only name of inode 1, which has two blocks in memory and `k` on disk. -/
def lastName (name : Name) (k : Int) (s : State) : Bool :=
  resolve s.disk [name] == (1, []) && (diskInode s.disk 1).blocks == k &&
    decide (∃ di ∈ s.liveInode smallBoot.state.mount 1, di.nlinks = 1 ∧ di.blocks = 2)

theorem of_lastName {path : Path} {name : Name} {k : Int} {s : State} (h : lastName name k s = true)
    (hp : RfsPath path [name]) : s.LeadsTo path 1 ∧ (diskInode s.disk 1).blocks = k ∧
      ∃ di, s.liveInode smallBoot.state.mount 1 = some di ∧ di.nlinks = 1 ∧ di.blocks = 2 := by
  obtain ⟨h, hdi⟩ := (Bool.and_eq_true _ _).mp h
  obtain ⟨hres, hk⟩ := (Bool.and_eq_true _ _).mp h
  exact ⟨⟨[name], hp, beq_iff_eq.mp hres⟩, beq_iff_eq.mp hk, of_decide_eq_true hdi⟩

/-- A file of two blocks is written, closed and unlinked. -/
theorem unlink_frees_two : ∃ s s' di, Run noHost FileCalls smallBoot.state s ∧
    vfsUnlink noHost pathA s = .ok (0, s') ∧ s.LeadsTo pathA 1 ∧
    s.liveInode smallBoot.state.mount 1 = some di ∧ di.nlinks = 1 ∧ di.blocks = 2 ∧
    SpaceBack smallBoot.state.mount s s' di := by
  obtain ⟨s, hrun, hpass⟩ := run_with noHost FileCalls
    [.open pathA rdwrCreat, .write 81920 (List.replicate 4097 7), .close 81920] smallBoot.state
    (fun s => unlinkPasses pathA (fun s _ => lastName [97] 2 s) s &&
      decide (FileCalls s (.unlink pathA))) (by decide +kernel)
  obtain ⟨hpass, hop⟩ := (Bool.and_eq_true _ _).mp hpass
  obtain ⟨s', hcall, hlast⟩ := of_unlinkPasses hpass
  obtain ⟨hleads, hblocks, di, hdi, hone, htwo⟩ := of_lastName hlast (show pathA.tokens = _ by decide)
  have hguard := FileCalls.guard smallBoot.state.mount .none id id id
  have hrun' : Run noHost (CountedCalls smallBoot.state.mount) smallBoot.state s :=
    hrun.mono fun _ _ ⟨op, r, hop, hcall⟩ => ⟨op, r, hguard _ op hop, hcall⟩
  refine ⟨s, s', di, hrun, hcall, hleads, hdi, hone, htwo, ?_⟩
  exact (unlink_frees_iff (Boot.starts smallBoot_boots) hrun'
    (hguard _ _ (of_decide_eq_true hop)) hcall hleads hdi hone).mpr (by rw [hblocks, htwo])

/-- The name `b` keeps the vinode in memory when `a` is closed, so the second
block never reaches the disk inode. -/
theorem unlink_leaks : ∃ s s' di, Run noHost FileCalls smallBoot.state s ∧
    FileCalls s (.unlink pathB) ∧ vfsUnlink noHost pathB s = .ok (0, s') ∧ s.LeadsTo pathB 1 ∧
    s.liveInode smallBoot.state.mount 1 = some di ∧ di.nlinks = 1 ∧
    ¬SpaceBack smallBoot.state.mount s s' di := by
  obtain ⟨s, hrun, hpass⟩ := run_with noHost FileCalls
    [.open pathA rdwrCreat, .link pathA pathB, .write 81920 (List.replicate 4097 7), .close 81920,
      .unlink pathA] smallBoot.state
    (fun s => unlinkPasses pathB (fun s s' => lastName [98] 1 s &&
      (usedBlocks (s.objs.freemap smallBoot.state.mount)).card == 3 &&
      (usedBlocks (s'.objs.freemap smallBoot.state.mount)).card == 2) s &&
      decide (FileCalls s (.unlink pathB))) (by decide +kernel)
  obtain ⟨hpass, hop⟩ := (Bool.and_eq_true _ _).mp hpass
  obtain ⟨s', hcall, hlast⟩ := of_unlinkPasses hpass
  obtain ⟨hlast, hafter⟩ := (Bool.and_eq_true _ _).mp hlast
  obtain ⟨hlast, hbefore⟩ := (Bool.and_eq_true _ _).mp hlast
  obtain ⟨hleads, -, di, hdi, hone, htwo⟩ := of_lastName hlast (show pathB.tokens = _ by decide)
  refine ⟨s, s', di, hrun, of_decide_eq_true hop, hcall, hleads, hdi, hone, fun hback => ?_⟩
  have hcount := hback.count
  rw [beq_iff_eq.mp hbefore, beq_iff_eq.mp hafter, htwo] at hcount
  cases hcount

end Pke
