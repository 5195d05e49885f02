import Pke.Replay

/-!
# Blocks and who owns them

In every state of every run each block of a live inode is marked in the
freemap, and belongs to that inode alone (`blocks_exclusive`).
-/

namespace Pke

/-! ## Live inodes -/

/-- The current version of inode `n`, when it is in use: what the cache has of
it, or else the disk. -/
def State.liveInode (s : State) (M : Mount) (n : Int) : Option Dinode :=
  match s.objs.cached M n with
  | some v => some v.toDinode
  | none => if (diskInode s.disk n).type = rFree then none else some (diskInode s.disk n)

theorem Inv.liveInode {M : Mount} {s : State} {n : Int} {di : Dinode}
    (h : Inv M s.objs s.disk) (hn : s.liveInode M n = some di) :
    Live (diskInode s.disk) n ∧ curInode (diskInode s.disk) (s.objs.mem M) n = di := by
  have hmem : s.objs.mem M n = (s.objs.cached M n).map Vinode.toDinode := rfl
  unfold State.liveInode at hn
  cases hc : s.objs.cached M n with
  | some v =>
      rw [hc] at hn hmem
      obtain rfl := Option.some.inj hn
      exact ⟨h.blocks.live_of_mem hmem, by rw [curInode, hmem]; rfl⟩
  | none =>
      rw [hc] at hn hmem
      dsimp only at hn
      split at hn
      · cases hn
      · rename_i hlive
        obtain rfl := Option.some.inj hn
        exact ⟨hlive, by rw [curInode, hmem]; rfl⟩

/-! ## One owner for each block -/

/-- Every block of a live inode is a marked data block, and no block is listed
twice. -/
structure BlocksOwned (M : Mount) (s : State) : Prop where
  marked : ∀ n di (i : Nat), s.liveInode M n = some di → (i : Int) < di.blocks →
    ∃ B, s.superBlock M.sb = some B ∧ rfsBlkOffsetFree ≤ addrOf di.addrs i ∧
      addrOf di.addrs i < rfsBlkOffsetFree + B.nblocks ∧
      B.freemap (addrOf di.addrs i - rfsBlkOffsetFree).toNat = 1
  once : ∀ n m di dj (i j : Nat), s.liveInode M n = some di → s.liveInode M m = some dj →
    (i : Int) < di.blocks → (j : Int) < dj.blocks → addrOf di.addrs i = addrOf dj.addrs j →
    n = m ∧ i = j

theorem Inv.blocksOwned {M : Mount} {s : State} (h : Inv M s.objs s.disk) : BlocksOwned M s where
  marked n di i hn hi := by
    obtain ⟨hlive, rfl⟩ := h.liveInode hn
    obtain ⟨B, hB, hnb⟩ := h.sb
    obtain ⟨hlo, hhi, hone⟩ := h.blocks.owned n i hlive hi
    rw [freemap_eq hB] at hone
    refine ⟨B, hB, hlo, ?_, hone⟩
    rw [hnb]
    exact hhi
  once n m di dj i j hn hm hi hj heq := by
    obtain ⟨hlive, rfl⟩ := h.liveInode hn
    obtain ⟨hlive', rfl⟩ := h.liveInode hm
    exact h.blocks.excl n m i j hlive hlive' hi hj heq

/-- The calls on files, by paths that do not go through files. -/
def FileCalls (s : State) (op : Op) : Prop := op.OnFiles ∧ op.DirPaths s.disk

instance (s : State) (op : Op) : Decidable (FileCalls s op) :=
  inferInstanceAs (Decidable (_ ∧ _))

theorem FileCalls.guard (M : Mount) (care : Care) (hfds : ¬care.fds) (hmay : ¬care.still)
    (hheld : ¬care.held) (s : State) (op : Op) (h : FileCalls s op) : op.Guard M care s.objs s.disk :=
  Op.guard_of_files h.1 h.2 (fun hc => absurd hc hfds) hmay fun _ _ => hheld

theorem blocks_exclusive {b : Boot} {host : VinodeOps} {s0 s : State} (h0 : b.Starts s0)
    (hrun : Run host FileCalls s0 s) : BlocksOwned s0.mount s := by
  have hok := FileCalls.guard s0.mount ⟨False, True, False, False, False⟩ id id id
  exact (hrun.steps hok h0.sound).1.inv.blocksOwned

/-- A file of two blocks, with two names. -/
theorem blocks_exclusive_two : ∃ s, Run noHost FileCalls smallBoot.state s ∧
    (s.liveInode smallBoot.state.mount 1).any (fun di => di.blocks == 2 && di.nlinks == 2) = true ∧
    BlocksOwned smallBoot.state.mount s := by
  obtain ⟨s, hrun, htwo⟩ := run_with noHost FileCalls
    [.open pathA rdwrCreat, .write 81920 (List.replicate 5000 7), .link pathA pathB]
    smallBoot.state (fun s => (s.liveInode smallBoot.state.mount 1).any
      fun di => di.blocks == 2 && di.nlinks == 2) (by decide +kernel)
  exact ⟨s, hrun, htwo, blocks_exclusive (Boot.starts smallBoot_boots) hrun⟩

end Pke
