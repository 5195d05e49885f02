import Pke.RfsSpec
import Pke.Links
import Mathlib.Order.Interval.Finset.Basic
import Mathlib.Data.Int.Interval

/-!
# A volume: blocks and names

What RFS promises about the disk and the inodes it keeps in memory,
without the code that keeps the promise. An inode is on disk (`ino`) and
may be in memory (`mem`), where it can be ahead of the disk; the current
version is the one in memory (`curInode`).

`BlockInv` is the ownership of data blocks: every block in the list of a
live inode is marked in the freemap and is in no other place of any
list. `LinkInv` is the agreement of names and link counts. Each is kept
by the changes the operations of RFS are made of, one lemma per change.
-/

namespace Pke

/-! ## Blocks -/

/-- Two inodes with the same list of blocks. -/
def SameBlocks (a b : Dinode) : Prop :=
  a.blocks = b.blocks ∧ ∀ i : Nat, (i : Int) < a.blocks → addrOf a.addrs i = addrOf b.addrs i

theorem SameBlocks.refl (a : Dinode) : SameBlocks a a := ⟨rfl, fun _ _ => rfl⟩

structure Dinode.Shape (di : Dinode) : Prop where
  type : di.type = rFile ∨ di.type = rDir
  blocks : 1 ≤ di.blocks ∧ di.blocks ≤ 10
  size : 0 ≤ di.size ∧ di.size ≤ di.blocks * 4096
  dir : di.type = rDir → di.blocks = 1 ∧ 32 ∣ di.size
  fits : di.Fits

/-- A live inode on disk and what memory has of it. -/
structure InodeOk (di : Dinode) (m : Option Dinode) : Prop where
  shape : di.Shape
  cached : ∀ c, m = some c → c.Shape ∧ c.type = di.type ∧ c.nlinks = di.nlinks
  ahead : ∀ c, m = some c → di.blocks ≤ c.blocks ∧
    ∀ i : Nat, (i : Int) < di.blocks → addrOf di.addrs i = addrOf c.addrs i
  dir : ∀ c, m = some c → c.type = rDir → c = di

variable {di c : Dinode} {ino : Int → Dinode} {n type p : Int} {i k : Nat} {name : Name}
  {v : Vinode}

theorem InodeOk.uncached (h : di.Shape) : InodeOk di none where
  shape := h
  cached _ hc := by cases hc
  ahead _ hc := by cases hc
  dir _ hc := by cases hc

theorem InodeOk.loaded (h : di.Shape) (hc : c.Shape) (htype : c.type = di.type)
    (hnl : c.nlinks = di.nlinks) (hahead : di.blocks ≤ c.blocks ∧ ∀ i : Nat, (i : Int) < di.blocks →
      addrOf di.addrs i = addrOf c.addrs i) (hdir : c.type = rDir → c = di) :
    InodeOk di (some c) := by
  refine ⟨h, ?_, ?_, ?_⟩ <;> rintro _ ⟨⟩
  · exact ⟨hc, htype, hnl⟩
  · exact hahead
  · exact hdir

theorem InodeOk.same (h : c.Shape) : InodeOk c (some c) :=
  .loaded h h rfl rfl ⟨Int.le_refl _, fun _ _ => rfl⟩ fun _ => rfl

def Live (ino : Int → Dinode) (n : Int) : Prop := (ino n).type ≠ rFree

def curInode (ino : Int → Dinode) (mem : Int → Option Dinode) (n : Int) : Dinode :=
  (mem n).getD (ino n)

/-- An inode that is not in memory is loaded. -/
theorem curInode_load {mem : Int → Option Dinode} (hm : mem n = none) :
    curInode ino (upd mem n (some (ino n))) = curInode ino mem := by
  funext q
  unfold curInode
  rcases eq_or_ne q n with rfl | hq
  · rw [upd_self, hm]
    rfl
  · rw [upd_ne hq]

structure BlockInv (ino : Int → Dinode) (map : Nat → Int) (mem : Int → Option Dinode) : Prop where
  num : ∀ n, Live ino n → InodeNum n
  ok : ∀ n, Live ino n → InodeOk (ino n) (mem n)
  dead : ∀ n, ¬Live ino n → mem n = none
  owned : ∀ n (i : Nat), Live ino n → (i : Int) < (curInode ino mem n).blocks →
    12 ≤ addrOf (curInode ino mem n).addrs i ∧ addrOf (curInode ino mem n).addrs i < 112 ∧
      map (addrOf (curInode ino mem n).addrs i - 12).toNat = 1
  excl : ∀ n m (i j : Nat), Live ino n → Live ino m →
    (i : Int) < (curInode ino mem n).blocks → (j : Int) < (curInode ino mem m).blocks →
    addrOf (curInode ino mem n).addrs i = addrOf (curInode ino mem m).addrs j → n = m ∧ i = j

theorem Dinode.Shape.live (h : di.Shape) : di.type ≠ rFree := by
  rcases h.type with ht | ht <;> rw [ht] <;> decide

namespace BlockInv

variable {ino : Int → Dinode} {map : Nat → Int} {mem : Int → Option Dinode}

theorem live_of_mem (h : BlockInv ino map mem) (hc : mem n = some c) : Live ino n := by
  by_contra hn
  rw [h.dead n hn] at hc
  cases hc

theorem curShape (h : BlockInv ino map mem) (hn : Live ino n) : (curInode ino mem n).Shape := by
  have hok := h.ok n hn
  unfold curInode
  cases hm : mem n with
  | none => exact hok.shape
  | some c => exact (hok.cached c hm).1

/-- The blocks of the disk inode are the first ones of the current one. -/
theorem cur_ahead (h : BlockInv ino map mem) (hn : Live ino n) :
    (ino n).blocks ≤ (curInode ino mem n).blocks ∧ ∀ i : Nat, (i : Int) < (ino n).blocks →
      addrOf (ino n).addrs i = addrOf (curInode ino mem n).addrs i := by
  unfold curInode
  cases hm : mem n with
  | none => exact ⟨Int.le_refl _, fun _ _ => rfl⟩
  | some c => exact (h.ok n hn).ahead c hm

/-- No list has a block that the freemap has as free. -/
theorem addr_ne (h : BlockInv ino map mem) (hn : Live ino n)
    (hi : (i : Int) < (curInode ino mem n).blocks) (hk : map k = 0) :
    addrOf (curInode ino mem n).addrs i ≠ 12 + k := by
  intro heq
  obtain ⟨-, -, hone⟩ := h.owned n i hn hi
  rw [heq, show ((12 : Int) + k - 12).toNat = k by omega, hk] at hone
  cases hone

/-- The blocks stay marked when another one is given out. -/
theorem marked_upd (h : BlockInv ino map mem) (hn : Live ino n)
    (hi : (i : Int) < (curInode ino mem n).blocks) (hk : map k = 0) :
    upd map k 1 (addrOf (curInode ino mem n).addrs i - 12).toNat = 1 := by
  have hne := h.addr_ne hn hi hk
  obtain ⟨hlo, -, hone⟩ := h.owned n i hn hi
  rw [upd_ne (by omega), hone]

/-- Every place in the lists is an old one that is still marked, or it is the place `i`
of `n` and has the block `k`, which has been free. -/
theorem replace (h : BlockInv ino map mem) {ino' : Int → Dinode} {map' : Nat → Int}
    {mem' : Int → Option Dinode} (n : Int) (i k : Nat) (hnum : ∀ q, Live ino' q → InodeNum q)
    (hok : ∀ q, Live ino' q → InodeOk (ino' q) (mem' q)) (hdead : ∀ q, ¬Live ino' q → mem' q = none)
    (hplace : ∀ q (j : Nat), Live ino' q → (j : Int) < (curInode ino' mem' q).blocks →
      (Live ino q ∧ (j : Int) < (curInode ino mem q).blocks ∧ addrOf (curInode ino' mem' q).addrs j =
          addrOf (curInode ino mem q).addrs j ∧
        map' (addrOf (curInode ino mem q).addrs j - 12).toNat = 1) ∨
      (q = n ∧ j = i ∧ k < 100 ∧ map k = 0 ∧ map' k = 1 ∧
        addrOf (curInode ino' mem' q).addrs j = 12 + k)) : BlockInv ino' map' mem' := by
  refine ⟨hnum, hok, hdead, fun q j hq hj => ?_, fun q r j l hq hr hj hl heq => ?_⟩
  · rcases hplace q j hq hj with ⟨hlive, hlt, haddr, hone⟩ | ⟨-, -, hk, -, hone, haddr⟩
    · obtain ⟨hlo, hhi, -⟩ := h.owned q j hlive hlt
      rw [haddr]
      exact ⟨hlo, hhi, hone⟩
    · rw [haddr, show ((12 : Int) + k - 12).toNat = k by omega]
      exact ⟨by omega, by omega, hone⟩
  · rcases hplace q j hq hj with ⟨hlive, hlt, haddr, -⟩ | ⟨rfl, rfl, -, hzero, -, haddr⟩
    · rcases hplace r l hr hl with ⟨hlive', hlt', haddr', -⟩ | ⟨-, -, -, hzero, -, haddr'⟩
      · rw [haddr, haddr'] at heq
        exact h.excl q r j l hlive hlive' hlt hlt' heq
      · exact absurd (haddr.symm.trans (heq.trans haddr')) (h.addr_ne hlive hlt hzero)
    · rcases hplace r l hr hl with ⟨hlive', hlt', haddr', -⟩ | ⟨rfl, rfl, -⟩
      · exact absurd (haddr'.symm.trans (heq.symm.trans haddr)) (h.addr_ne hlive' hlt' hzero)
      · exact ⟨rfl, rfl⟩

/-- Changing an inode, on disk and in memory, but not the list of its blocks. -/
theorem change (h : BlockInv ino map mem) (di : Dinode) (m : Option Dinode) (hn : Live ino n)
    (hok : InodeOk di m) (hsame : SameBlocks (curInode ino mem n) (m.getD di)) :
    BlockInv (upd ino n di) map (upd mem n m) := by
  have hlive : ∀ q, Live (upd ino n di) q ↔ Live ino q := by
    intro q
    unfold Live
    rcases eq_or_ne q n with rfl | hq
    · rw [upd_self]
      exact iff_of_true hok.shape.live hn
    · rw [upd_ne hq]
  have hcur : ∀ q, SameBlocks (curInode ino mem q) (curInode (upd ino n di) (upd mem n m) q) := by
    intro q
    rcases eq_or_ne q n with rfl | hq
    · have : curInode (upd ino q di) (upd mem q m) q = m.getD di := by simp [curInode]
      rwa [this]
    · have : curInode (upd ino n di) (upd mem n m) q = curInode ino mem q := by
        simp only [curInode, upd_ne hq]
      rw [this]
      exact SameBlocks.refl _
  refine h.replace n 0 0 (fun q hq => h.num q ((hlive q).mp hq)) (fun q hq => ?_) (fun q hq => ?_)
    fun q j hq hj => .inl ?_
  · rcases eq_or_ne q n with rfl | hqn
    · rwa [upd_self, upd_self]
    · rw [upd_ne hqn, upd_ne hqn]
      exact h.ok q ((hlive q).mp hq)
  · have hqn : q ≠ n := fun hqn => hq ((hlive q).mpr (hqn ▸ hn))
    rw [upd_ne hqn]
    exact h.dead q fun hq' => hq ((hlive q).mpr hq')
  · obtain ⟨hb, ha⟩ := hcur q
    rw [← hb] at hj
    have hq' := (hlive q).mp hq
    exact ⟨hq', hj, (ha j hj).symm, (h.owned q j hq' hj).2.2⟩

/-! ### The changes that keep every block list -/

theorem load (h : BlockInv ino map mem) (hn : Live ino n) (hm : mem n = none) :
    BlockInv ino map (upd mem n (some (ino n))) := by
  have hc := h.change (ino n) (some (ino n)) hn (.same (h.ok n hn).shape) ?_
  · rwa [upd_eq_self rfl] at hc
  · rw [curInode, hm]
    exact SameBlocks.refl _

/-- A directory grows or shrinks, on disk and in memory. -/
theorem setDirSize (h : BlockInv ino map mem) (size : Int) (hm : mem n = some c)
    (hdir : c.type = rDir) (h0 : 0 ≤ size) (h1 : size ≤ 4096) (hdvd : 32 ∣ size) :
    BlockInv (upd ino n { c with size := size }) map
      (upd mem n (some { c with size := size })) := by
  have hn := h.live_of_mem hm
  have hok := h.ok n hn
  obtain ⟨hsh, -, -⟩ := hok.cached c hm
  have hone := (hsh.dir hdir).1
  have hfits : IsInt32 size := by
    unfold IsInt32
    omega
  have hshape : ({ c with size := size } : Dinode).Shape :=
    ⟨.inr hdir, hsh.blocks, ⟨h0, by show size ≤ c.blocks * 4096; omega⟩, fun _ => ⟨hone, hdvd⟩,
      Dinode.fits_mk hfits hsh.fits.type hsh.fits.nlinks hsh.fits.blocks hsh.fits.addrs⟩
  refine h.change _ _ hn (.same hshape) ?_
  rw [curInode, hm]
  exact ⟨rfl, fun _ _ => rfl⟩

theorem Shape.setLinks (h : c.Shape) {nl : Int} (hnl : IsInt32 nl) :
    ({ c with nlinks := nl } : Dinode).Shape :=
  ⟨h.type, h.blocks, h.size, h.dir,
    Dinode.fits_mk h.fits.size h.fits.type hnl h.fits.blocks h.fits.addrs⟩

/-- The link count changes, on disk and in memory. -/
theorem setLinks (h : BlockInv ino map mem) (nl : Int) (hm : mem n = some c)
    (hfile : c.type = rFile) (hnl : IsInt32 nl) :
    BlockInv (upd ino n { ino n with nlinks := nl }) map
      (upd mem n (some { c with nlinks := nl })) := by
  have hn := h.live_of_mem hm
  have hok := h.ok n hn
  obtain ⟨hsh, htype, -⟩ := hok.cached c hm
  refine h.change _ _ hn (.loaded (Shape.setLinks hok.shape hnl) (Shape.setLinks hsh hnl) htype rfl
    (hok.ahead c hm) fun hdir => absurd (hfile.symm.trans hdir) (by decide)) ?_
  rw [curInode, hm]
  exact ⟨rfl, fun _ _ => rfl⟩

/-- The inode in memory is written to disk. -/
theorem sync (h : BlockInv ino map mem) (hm : mem n = some c) : BlockInv (upd ino n c) map mem := by
  have hn := h.live_of_mem hm
  obtain ⟨hsh, -, -⟩ := (h.ok n hn).cached c hm
  have hc := h.change c (some c) hn (.same hsh) ?_
  · rwa [upd_eq_self hm] at hc
  · rw [curInode, hm]
    exact SameBlocks.refl _

/-- The inode leaves memory after it has been written to disk. -/
theorem evict (h : BlockInv ino map mem) (hm : mem n = some (ino n)) :
    BlockInv ino map (upd mem n none) := by
  have hn := h.live_of_mem hm
  have hc := h.change (ino n) none hn ⟨(h.ok n hn).shape, nofun, nofun, nofun⟩ ?_
  · rwa [upd_eq_self rfl] at hc
  · rw [curInode, hm]
    exact SameBlocks.refl _

/-- A file in memory gets another size, within its blocks. -/
theorem setSize (h : BlockInv ino map mem) {size : Int} (hm : mem n = some c)
    (hfile : c.type = rFile) (h0 : 0 ≤ size) (h1 : size ≤ c.blocks * 4096) :
    BlockInv ino map (upd mem n (some { c with size := size })) := by
  have hn := h.live_of_mem hm
  have hok := h.ok n hn
  obtain ⟨hsh, htype, hnl⟩ := hok.cached c hm
  have hblocks := hsh.blocks
  have hfits : IsInt32 size := by
    unfold IsInt32
    omega
  have hshape : ({ c with size := size } : Dinode).Shape :=
    ⟨.inl hfile, hsh.blocks, ⟨h0, h1⟩, fun hdir => absurd (hfile.symm.trans hdir) (by decide),
      Dinode.fits_mk hfits hsh.fits.type hsh.fits.nlinks hsh.fits.blocks hsh.fits.addrs⟩
  have hc := h.change (ino n) (some { c with size := size }) hn (.loaded hok.shape hshape htype hnl
    (hok.ahead c hm) fun hdir => absurd (hfile.symm.trans hdir) (by decide)) ?_
  · rwa [upd_eq_self rfl] at hc
  · rw [curInode, hm]
    exact ⟨rfl, fun _ _ => rfl⟩

/-! ### The changes that give out blocks and take them back -/

theorem shape_freshInode {addrs : Fin directBlknum → Int} (htype : type = rFile ∨ type = rDir)
    (hk : k < 100) (haddrs : ∀ i, IsInt32 (addrs i)) : (freshInode type (12 + k) addrs).Shape := by
  have hfits : IsInt32 type := by
    rcases htype with rfl | rfl <;> decide
  exact ⟨htype, ⟨Int.le_refl 1, show (1 : Int) ≤ 10 by decide⟩,
    ⟨Int.le_refl 0, show (0 : Int) ≤ 1 * 4096 by decide⟩,
    fun _ => ⟨rfl, show (32 : Int) ∣ 0 by decide⟩, fits_freshInode hfits hk haddrs⟩

/-- A new inode with one block. -/
theorem newInode (h : BlockInv ino map mem) {addrs : Fin directBlknum → Int} (hn : ¬Live ino n)
    (hnum : InodeNum n) (htype : type = rFile ∨ type = rDir) (hk : k < 100) (hzero : map k = 0)
    (haddrs : ∀ i, IsInt32 (addrs i)) :
    BlockInv (upd ino n (freshInode type (12 + k) addrs)) (upd map k 1) mem := by
  have hmem := h.dead n hn
  have hlive : ∀ {q}, q ≠ n → (Live (upd ino n (freshInode type (12 + k) addrs)) q ↔ Live ino q) := by
    intro q hqn
    unfold Live
    rw [upd_ne hqn]
  refine h.replace n 0 k (fun q hq => ?_) (fun q hq => ?_) (fun q hq => ?_) fun q j hq hj => ?_
  · rcases eq_or_ne q n with rfl | hqn
    · exact hnum
    · exact h.num q ((hlive hqn).mp hq)
  · rcases eq_or_ne q n with rfl | hqn
    · rw [upd_self, hmem]
      exact .uncached (shape_freshInode htype hk haddrs)
    · rw [upd_ne hqn]
      exact h.ok q ((hlive hqn).mp hq)
  · rcases eq_or_ne q n with rfl | hqn
    · exact hmem
    · exact h.dead q fun hq' => hq ((hlive hqn).mpr hq')
  · rcases eq_or_ne q n with rfl | hqn
    · have hcur : curInode (upd ino q (freshInode type (12 + k) addrs)) mem q =
          freshInode type (12 + k) addrs := by simp [curInode, hmem]
      rw [hcur] at hj ⊢
      have hj0 : (j : Int) < 1 := hj
      obtain rfl : j = 0 := by omega
      exact .inr ⟨rfl, rfl, hk, hzero, upd_self .., rfl⟩
    · have hcur : curInode (upd ino n (freshInode type (12 + k) addrs)) mem q =
          curInode ino mem q := by simp only [curInode, upd_ne hqn]
      rw [hcur] at hj ⊢
      have hq' := (hlive hqn).mp hq
      exact .inl ⟨hq', hj, rfl, h.marked_upd hq' hj hzero⟩

theorem clearBlocks_other {addrs : Fin directBlknum → Int} : ∀ {n i : Nat} {m : Nat → Int} {k : Nat},
    (∀ j, i ≤ j → j < i + n → (addrOf addrs j - 12).toNat ≠ k) → clearBlocks addrs n i m k = m k
  | 0, _, _, _, _ => rfl
  | n + 1, i, m, k, h => by
      have hne := h i (Nat.le_refl i) (by omega)
      rw [clearBlocks, clearBlocks_other fun j h1 h2 => h j (by omega) (by omega), upd_ne hne.symm]

theorem clearBlocks_self {addrs : Fin directBlknum → Int} : ∀ {n i : Nat} {m : Nat → Int} {j : Nat},
    i ≤ j → j < i + n → clearBlocks addrs n i m (addrOf addrs j - 12).toNat = 0
  | 0, _, _, _, h1, h2 => by omega
  | n + 1, i, m, j, h1, h2 => by
      rw [clearBlocks]
      by_cases hlater : ∃ t, i + 1 ≤ t ∧ t < i + 1 + n ∧
          (addrOf addrs t - 12).toNat = (addrOf addrs j - 12).toNat
      · obtain ⟨t, ht1, ht2, heq⟩ := hlater
        rw [← heq]
        exact clearBlocks_self ht1 ht2
      · obtain rfl : j = i := by
          by_contra hji
          exact hlater ⟨j, by omega, by omega, rfl⟩
        rw [clearBlocks_other fun t ht1 ht2 heq => hlater ⟨t, ht1, ht2, heq⟩, upd_self]

/-- The last name of an inode is gone: the blocks of the disk inode are free
again. Blocks that only the inode in memory had stay marked. -/
theorem free (h : BlockInv ino map mem) (hn : Live ino n) :
    BlockInv (upd ino n (dropInode (ino n) 0))
      (clearBlocks (ino n).addrs (ino n).blocks.toNat 0 map) (upd mem n none) := by
  have hlive : ∀ {q}, Live (upd ino n (dropInode (ino n) 0)) q → q ≠ n ∧ Live ino q := by
    intro q hq
    unfold Live at hq
    rcases eq_or_ne q n with rfl | hqn
    · rw [upd_self] at hq
      exact absurd rfl hq
    · rw [upd_ne hqn] at hq
      exact ⟨hqn, hq⟩
  have hcur : ∀ {q}, q ≠ n →
      curInode (upd ino n (dropInode (ino n) 0)) (upd mem n none) q = curInode ino mem q := by
    intro q hqn
    simp only [curInode, upd_ne hqn]
  obtain ⟨hle, hahead⟩ := h.cur_ahead hn
  refine h.replace n 0 0 (fun q hq => h.num q (hlive hq).2) (fun q hq => ?_) (fun q hq => ?_)
    fun q i hq hi => .inl ?_
  · obtain ⟨hqn, hq'⟩ := hlive hq
    rw [upd_ne hqn, upd_ne hqn]
    exact h.ok q hq'
  · rcases eq_or_ne q n with rfl | hqn
    · exact upd_self _ _ _
    · rw [upd_ne hqn]
      refine h.dead q fun hq' => hq ?_
      unfold Live
      rwa [upd_ne hqn]
  · obtain ⟨hqn, hq'⟩ := hlive hq
    rw [hcur hqn] at hi ⊢
    refine ⟨hq', hi, rfl, ?_⟩
    obtain ⟨hlo, -, hone⟩ := h.owned q i hq' hi
    rw [clearBlocks_other, hone]
    intro j _ hj heq
    have hjlt : (j : Int) < (ino n).blocks := by omega
    have hjcur : (j : Int) < (curInode ino mem n).blocks := by omega
    obtain ⟨hlo', -, -⟩ := h.owned n j hn hjcur
    rw [hahead j hjlt] at heq
    have haddr : addrOf (curInode ino mem n).addrs j = addrOf (curInode ino mem q).addrs i := by
      omega
    exact hqn (h.excl n q j i hn hq' hjcur hi haddr).1.symm

/-- An inode with one more block. -/
def growInode (c : Dinode) (k : Nat) : Dinode :=
  { c with
    addrs := fun j => if (j : Int) = c.blocks then 12 + k else c.addrs j
    blocks := c.blocks + 1 }

theorem addrOf_growInode (h0 : 0 ≤ c.blocks) (h10 : c.blocks < 10) :
    addrOf (growInode c k).addrs i =
      if (i : Int) = c.blocks then 12 + (k : Int) else addrOf c.addrs i := by
  unfold addrOf
  by_cases hi : i < directBlknum
  · rw [dif_pos hi, dif_pos hi]
    rfl
  · rw [dif_neg hi, dif_neg hi, if_neg]
    simp only [directBlknum] at hi
    omega

/-- A file in memory gets a new block at the end of its list. -/
theorem grow (h : BlockInv ino map mem) (hm : mem n = some c) (hfile : c.type = rFile)
    (h10 : c.blocks < 10) (hk : k < 100) (hzero : map k = 0) :
    BlockInv ino (upd map k 1) (upd mem n (some (growInode c k))) := by
  have hn := h.live_of_mem hm
  have hok := h.ok n hn
  obtain ⟨hsh, htype, hnl⟩ := hok.cached c hm
  obtain ⟨hb1, hb10⟩ := hsh.blocks
  have haddr : ∀ i : Nat, addrOf (growInode c k).addrs i =
      if (i : Int) = c.blocks then 12 + (k : Int) else addrOf c.addrs i :=
    fun i => addrOf_growInode (by omega) h10
  have hshape : (growInode c k).Shape := by
    refine ⟨.inl hfile, ⟨?_, ?_⟩, ⟨hsh.size.1, ?_⟩,
      fun hdir => absurd (hfile.symm.trans hdir) (by decide),
      Dinode.fits_mk hsh.fits.size hsh.fits.type hsh.fits.nlinks ?_ fun i => ?_⟩
    · show 1 ≤ c.blocks + 1
      omega
    · show c.blocks + 1 ≤ 10
      omega
    · show c.size ≤ (c.blocks + 1) * 4096
      have := hsh.size.2
      omega
    · show IsInt32 (c.blocks + 1)
      unfold IsInt32
      omega
    · show IsInt32 (if (i : Int) = c.blocks then 12 + (k : Int) else c.addrs i)
      split
      · unfold IsInt32
        omega
      · exact hsh.fits.addrs i
  refine h.replace n c.blocks.toNat k h.num (fun q hq => ?_) (fun q hq => ?_) fun q j hq hj => ?_
  · rcases eq_or_ne q n with rfl | hqn
    · obtain ⟨hle, hpre⟩ := hok.ahead c hm
      rw [upd_self]
      refine .loaded hok.shape hshape htype hnl ⟨by show _ ≤ c.blocks + 1; omega, fun i hi => ?_⟩
        fun hdir => absurd (hfile.symm.trans hdir) (by decide)
      rw [haddr i, if_neg (by omega)]
      exact hpre i hi
    · rw [upd_ne hqn]
      exact h.ok q hq
  · have hqn : q ≠ n := fun hqn => hq (hqn ▸ hn)
    rw [upd_ne hqn]
    exact h.dead q hq
  · rcases eq_or_ne q n with rfl | hqn
    · -- a place in the new list is the new block or a place in the old one
      have hcurn : curInode ino (upd mem q (some (growInode c k))) q = growInode c k := by
        simp [curInode]
      have hcurc : curInode ino mem q = c := by simp [curInode, hm]
      rw [hcurn] at hj ⊢
      change (j : Int) < c.blocks + 1 at hj
      rw [haddr j]
      by_cases hjb : (j : Int) = c.blocks
      · exact .inr ⟨rfl, by omega, hk, hzero, upd_self .., if_pos hjb⟩
      · have hlt : (j : Int) < (curInode ino mem q).blocks := by rw [hcurc]; omega
        exact .inl ⟨hq, hlt, by rw [if_neg hjb, hcurc], h.marked_upd hq hlt hzero⟩
    · have hcur : curInode ino (upd mem n (some (growInode c k))) q = curInode ino mem q := by
        simp only [curInode, upd_ne hqn]
      rw [hcur] at hj ⊢
      exact .inl ⟨hq, hj, rfl, h.marked_upd hq hj hzero⟩

end BlockInv

/-! ## Names -/

/-- The numbers disk inodes have. -/
def inodeNums : Finset Int := (Finset.range 320).map ⟨Int.ofNat, @Int.ofNat.inj⟩

theorem mem_inodeNums : n ∈ inodeNums ↔ InodeNum n := by
  rw [inodeNums, Finset.mem_map]
  constructor
  · rintro ⟨k, hk, rfl⟩
    exact ⟨Int.natCast_nonneg k, Int.ofNat_lt.mpr (Finset.mem_range.mp hk)⟩
  · rintro ⟨hpos, hlt⟩
    exact ⟨n.toNat, Finset.mem_range.mpr (by omega), Int.toNat_of_nonneg hpos⟩

/-- Names and link counts: `kind` and `nl` are the types and the link counts of
the inodes, `ents` the entries of the directories. -/
structure LinkInv (kind nl : Int → Int) (ents : Int → List (Int × Name)) : Prop where
  names : ∀ p, ((ents p).map Prod.snd).Nodup
  target : ∀ p e, e ∈ ents p → 0 < e.1 ∧ kind e.1 ≠ rFree
  holder : ∀ p e, e ∈ ents p → kind p = rDir ∧ InodeNum p
  file : ∀ n, kind n = rFile → nl n = links inodeNums ents n ∧ 1 ≤ nl n
  dir : ∀ n, kind n = rDir → nl n = 1 ∧ links inodeNums ents n ≤ 1
  root : kind 0 = rDir

/-- Every directory but the root has its one name. -/
def DirsNamed (kind : Int → Int) (ents : Int → List (Int × Name)) : Prop :=
  ∀ n, n ≠ 0 → kind n = rDir → links inodeNums ents n = 1

namespace LinkInv

variable {kind nl : Int → Int} {ents : Int → List (Int × Name)}

theorem links_free (h : LinkInv kind nl ents) (hn : kind n = rFree) :
    links inodeNums ents n = 0 := by
  by_contra hne
  obtain ⟨p, -, a, hmem⟩ := exists_of_links_pos (Nat.pos_iff_ne_zero.mpr hne)
  exact (h.target p _ hmem).2 hn

theorem pos_of_free (h : LinkInv kind nl ents) (hn : kind n = rFree) (hnum : InodeNum n) :
    0 < n := by
  rcases Int.lt_or_eq_of_le hnum.1 with hlt | rfl
  · exact hlt
  · rw [h.root] at hn
    exact absurd hn (by decide)

theorem names_append {l : List (Int × Name)} (h : (l.map Prod.snd).Nodup)
    (hnew : ∀ e ∈ l, e.2 ≠ name) : ((l ++ [(n, name)]).map Prod.snd).Nodup := by
  rw [List.map_append, List.nodup_append]
  refine ⟨h, by simp, ?_⟩
  intro a ha b hb
  obtain ⟨e, he, rfl⟩ := List.mem_map.mp ha
  obtain rfl : b = name := by simpa using hb
  exact hnew e he

/-- The lists after an entry has been added to one of them. -/
theorem names_upd_append (h : LinkInv kind nl ents) (hnew : ∀ e ∈ ents p, e.2 ≠ name) (q : Int) :
    ((upd ents p (ents p ++ [(n, name)]) q).map Prod.snd).Nodup := by
  rcases eq_or_ne q p with rfl | hqp
  · rw [upd_self]
    exact names_append (h.names q) hnew
  · rw [upd_ne hqp]
    exact h.names q

theorem mem_upd_append {q : Int} {e : Int × Name} (he : e ∈ upd ents p (ents p ++ [(n, name)]) q) :
    e ∈ ents q ∨ (q = p ∧ e = (n, name)) := by
  rcases eq_or_ne q p with rfl | hqp
  · rw [upd_self] at he
    rcases List.mem_append.mp he with he | he
    · exact .inl he
    · exact .inr ⟨rfl, List.mem_singleton.mp he⟩
  · rw [upd_ne hqp] at he
    exact .inl he

/-- A new inode and its first name. -/
theorem create (h : LinkInv kind nl ents) (hn : kind n = rFree) (hnum : InodeNum n)
    (hp : kind p = rDir) (hpnum : InodeNum p) (htype : type = rFile ∨ type = rDir)
    (hnew : ∀ e ∈ ents p, e.2 ≠ name) :
    LinkInv (upd kind n type) (upd nl n 1) (upd ents p (ents p ++ [(n, name)])) := by
  have hpos := h.pos_of_free hn hnum
  have hpn : p ≠ n := fun hpn => absurd (hp.symm.trans (hpn ▸ hn)) (by decide)
  have hlinks := links_append (E := ents) (mem_inodeNums.mpr hpnum) n name
  have hzero := h.links_free hn
  have hkeep : ∀ {m}, kind m ≠ rFree → upd kind n type m = kind m := by
    intro m hm
    exact upd_ne fun hmn => hm (hmn ▸ hn)
  refine ⟨h.names_upd_append hnew, fun q e he => ?_, fun q e he => ?_, fun m hm => ?_,
    fun m hm => ?_, ?_⟩
  · rcases mem_upd_append he with he | ⟨-, rfl⟩
    · obtain ⟨hpos', hlive⟩ := h.target q e he
      exact ⟨hpos', by rwa [hkeep hlive]⟩
    · refine ⟨hpos, ?_⟩
      rw [upd_self]
      rcases htype with rfl | rfl <;> decide
  · rcases mem_upd_append he with he | ⟨rfl, -⟩
    · obtain ⟨hdir, hq⟩ := h.holder q e he
      exact ⟨by rwa [hkeep (by rw [hdir]; decide)], hq⟩
    · exact ⟨by rwa [upd_ne hpn], hpnum⟩
  · rw [hlinks m]
    rcases eq_or_ne m n with rfl | hmn
    · rw [upd_self, hzero, if_pos rfl]
      exact ⟨rfl, Int.le_refl 1⟩
    · rw [upd_ne hmn] at hm ⊢
      rw [if_neg hmn.symm, Nat.add_zero]
      exact h.file m hm
  · rw [hlinks m]
    rcases eq_or_ne m n with rfl | hmn
    · rw [upd_self, hzero, if_pos rfl]
      exact ⟨rfl, Nat.le_refl 1⟩
    · rw [upd_ne hmn] at hm ⊢
      rw [if_neg hmn.symm, Nat.add_zero]
      exact h.dir m hm
  · rw [upd_ne (Int.ne_of_lt hpos), h.root]

/-- A new directory that gets no name. -/
theorem orphan (h : LinkInv kind nl ents) (hn : kind n = rFree) (hnum : InodeNum n) :
    LinkInv (upd kind n rDir) (upd nl n 1) ents := by
  have hpos := h.pos_of_free hn hnum
  have hkeep : ∀ {m}, kind m ≠ rFree → upd kind n rDir m = kind m := by
    intro m hm
    exact upd_ne fun hmn => hm (hmn ▸ hn)
  refine ⟨h.names, fun q e he => ?_, fun q e he => ?_, fun m hm => ?_, fun m hm => ?_, ?_⟩
  · obtain ⟨hpos', hlive⟩ := h.target q e he
    exact ⟨hpos', by rwa [hkeep hlive]⟩
  · obtain ⟨hdir, hq⟩ := h.holder q e he
    exact ⟨by rwa [hkeep (by rw [hdir]; decide)], hq⟩
  · rcases eq_or_ne m n with rfl | hmn
    · rw [upd_self] at hm
      exact absurd hm (by decide)
    · rw [upd_ne hmn] at hm ⊢
      exact h.file m hm
  · rcases eq_or_ne m n with rfl | hmn
    · rw [upd_self, h.links_free hn]
      exact ⟨rfl, Nat.zero_le 1⟩
    · rw [upd_ne hmn] at hm ⊢
      exact h.dir m hm
  · rw [upd_ne (Int.ne_of_lt hpos), h.root]

/-- One more name for a file. -/
theorem link (h : LinkInv kind nl ents) (hn : kind n = rFile) (hpos : 0 < n) (hp : kind p = rDir)
    (hpnum : InodeNum p) (hnew : ∀ e ∈ ents p, e.2 ≠ name) :
    LinkInv kind (upd nl n (nl n + 1)) (upd ents p (ents p ++ [(n, name)])) := by
  have hlinks := links_append (E := ents) (mem_inodeNums.mpr hpnum) n name
  refine ⟨h.names_upd_append hnew, fun q e he => ?_, fun q e he => ?_, fun m hm => ?_,
    fun m hm => ?_, h.root⟩
  · rcases mem_upd_append he with he | ⟨-, rfl⟩
    · exact h.target q e he
    · exact ⟨hpos, by rw [hn]; decide⟩
  · rcases mem_upd_append he with he | ⟨rfl, -⟩
    · exact h.holder q e he
    · exact ⟨hp, hpnum⟩
  · rw [hlinks m]
    rcases eq_or_ne m n with rfl | hmn
    · obtain ⟨heq, hone⟩ := h.file m hm
      rw [upd_self, if_pos rfl]
      exact ⟨by rw [heq]; rfl, by omega⟩
    · rw [upd_ne hmn, if_neg hmn.symm, Nat.add_zero]
      exact h.file m hm
  · have hmn : m ≠ n := fun hmn => absurd (hm.symm.trans (hmn ▸ hn)) (by decide)
    rw [hlinks m, upd_ne hmn, if_neg hmn.symm, Nat.add_zero]
    exact h.dir m hm

theorem mem_upd_eraseIdx {q : Int} {e : Int × Name} (he : e ∈ upd ents p ((ents p).eraseIdx k) q) :
    e ∈ ents q := by
  rcases eq_or_ne q p with rfl | hqp
  · rw [upd_self] at he
    exact List.mem_of_mem_eraseIdx he
  · rwa [upd_ne hqp] at he

theorem names_upd_eraseIdx (h : LinkInv kind nl ents) (q : Int) :
    ((upd ents p ((ents p).eraseIdx k) q).map Prod.snd).Nodup := by
  rcases eq_or_ne q p with rfl | hqp
  · rw [upd_self]
    exact (h.names q).sublist ((List.eraseIdx_sublist _ k).map Prod.snd)
  · rw [upd_ne hqp]
    exact h.names q

/-- One name less for a file, which keeps another. -/
theorem unlinkKeep (h : LinkInv kind nl ents) (hk : (ents p)[k]? = some (n, name))
    (hn : kind n = rFile) (hmore : nl n - 1 ≠ 0) :
    LinkInv kind (upd nl n (nl n - 1)) (upd ents p ((ents p).eraseIdx k)) := by
  have hmem : (n, name) ∈ ents p := List.mem_of_getElem? hk
  have hpnum := (h.holder p _ hmem).2
  have hlinks := links_eraseIdx (E := ents) (mem_inodeNums.mpr hpnum) hk
  refine ⟨h.names_upd_eraseIdx, fun q e he => h.target q e (mem_upd_eraseIdx he),
    fun q e he => h.holder q e (mem_upd_eraseIdx he), fun m hm => ?_, fun m hm => ?_, h.root⟩
  · have hl := hlinks m
    obtain ⟨heq, hone⟩ := h.file m hm
    rcases eq_or_ne m n with rfl | hmn
    · rw [if_pos rfl] at hl
      rw [upd_self]
      omega
    · rw [if_neg hmn.symm] at hl
      rw [upd_ne hmn]
      omega
  · have hmn : m ≠ n := fun hmn => absurd (hm.symm.trans (hmn ▸ hn)) (by decide)
    have hl := hlinks m
    rw [if_neg hmn.symm] at hl
    rw [upd_ne hmn]
    have := h.dir m hm
    omega

/-- The last name of a file goes, and the file with it. -/
theorem unlinkLast (h : LinkInv kind nl ents) (hk : (ents p)[k]? = some (n, name))
    (hn : kind n = rFile) (hlast : nl n - 1 = 0) :
    LinkInv (upd kind n rFree) (upd nl n 0) (upd ents p ((ents p).eraseIdx k)) := by
  have hmem : (n, name) ∈ ents p := List.mem_of_getElem? hk
  obtain ⟨hpdir, hpnum⟩ := h.holder p _ hmem
  have hlinks := links_eraseIdx (E := ents) (mem_inodeNums.mpr hpnum) hk
  have hzero : links inodeNums (upd ents p ((ents p).eraseIdx k)) n = 0 := by
    have hl := hlinks n
    rw [if_pos rfl] at hl
    have := h.file n hn
    omega
  have hnot : ∀ {q : Int} {e : Int × Name}, e ∈ upd ents p ((ents p).eraseIdx k) q → e.1 ≠ n := by
    intro q e he heq
    have hq := (h.holder q e (mem_upd_eraseIdx he)).2
    have hpos : 0 < links inodeNums (upd ents p ((ents p).eraseIdx k)) n :=
      links_pos (mem_inodeNums.mpr hq) (a := e.2) (by rw [← heq]; exact he)
    omega
  refine ⟨h.names_upd_eraseIdx, fun q e he => ?_, fun q e he => ?_, fun m hm => ?_,
    fun m hm => ?_, ?_⟩
  · rw [upd_ne (hnot he)]
    exact h.target q e (mem_upd_eraseIdx he)
  · obtain ⟨hdir, hq⟩ := h.holder q e (mem_upd_eraseIdx he)
    have hqn : q ≠ n := fun hqn => absurd (hdir.symm.trans (hqn ▸ hn)) (by decide)
    exact ⟨by rwa [upd_ne hqn], hq⟩
  · rcases eq_or_ne m n with rfl | hmn
    · rw [upd_self] at hm
      exact absurd hm (by decide)
    · have hl := hlinks m
      rw [if_neg hmn.symm, Nat.add_zero] at hl
      rw [upd_ne hmn] at hm ⊢
      rw [hl]
      exact h.file m hm
  · rcases eq_or_ne m n with rfl | hmn
    · rw [upd_self] at hm
      exact absurd hm (by decide)
    · have hl := hlinks m
      rw [if_neg hmn.symm, Nat.add_zero] at hl
      rw [upd_ne hmn] at hm ⊢
      rw [hl]
      exact h.dir m hm
  · have h0n : (0 : Int) ≠ n := fun h0 => absurd (h.root.symm.trans (h0 ▸ hn)) (by decide)
    rw [upd_ne h0n, h.root]

end LinkInv

/-! ## Directories on the disk -/

/-- Every directory has a data block of its own. -/
structure DirBlocks (d : Nat → Block) : Prop where
  range : ∀ m, (diskInode d m).type = rDir → 12 ≤ addrOf (diskInode d m).addrs 0
  inj : ∀ m m', (diskInode d m).type = rDir → (diskInode d m').type = rDir →
    addrOf (diskInode d m).addrs 0 = addrOf (diskInode d m').addrs 0 → m = m'

section

variable {d : Nat → Block} {map : Nat → Int} {mem : Int → Option Dinode}

/-- The directories that are left keep their blocks. -/
theorem DirBlocks.mono {d' : Nat → Block} (h : DirBlocks d)
    (hsub : ∀ m, (diskInode d' m).type = rDir → (diskInode d m).type = rDir ∧
      addrOf (diskInode d' m).addrs 0 = addrOf (diskInode d m).addrs 0) : DirBlocks d' := by
  refine ⟨fun m hm => ?_, fun m m' hm hm' heq => ?_⟩
  · obtain ⟨hdir, haddr⟩ := hsub m hm
    rw [haddr]
    exact h.range m hdir
  · obtain ⟨hdir, haddr⟩ := hsub m hm
    obtain ⟨hdir', haddr'⟩ := hsub m' hm'
    rw [haddr, haddr'] at heq
    exact h.inj m m' hdir hdir' heq

theorem live_of_dir (h : (ino n).type = rDir) : Live ino n := by
  unfold Live
  rw [h]
  decide

/-- The block of a directory is the first one of its list, on disk and in memory. -/
theorem BlockInv.dir_addr (h : BlockInv ino map mem) (hn : (ino n).type = rDir) :
    (0 : Int) < (curInode ino mem n).blocks ∧
      addrOf (ino n).addrs 0 = addrOf (curInode ino mem n).addrs 0 := by
  have hlive := live_of_dir hn
  obtain ⟨hle, hpre⟩ := h.cur_ahead hlive
  have hb := (h.ok n hlive).shape.blocks.1
  exact ⟨by omega, hpre 0 (by omega)⟩

theorem BlockInv.dirBlocks (h : BlockInv (diskInode d) map mem) : DirBlocks d := by
  refine ⟨fun m hm => ?_, fun m m' hm hm' heq => ?_⟩
  · obtain ⟨hpos, haddr⟩ := h.dir_addr hm
    rw [haddr]
    exact (h.owned m 0 (live_of_dir hm) hpos).1
  · obtain ⟨hpos, haddr⟩ := h.dir_addr hm
    obtain ⟨hpos', haddr'⟩ := h.dir_addr hm'
    rw [haddr, haddr'] at heq
    exact (h.excl m m' 0 0 (live_of_dir hm) (live_of_dir hm') hpos hpos' heq).1

/-- A block of a file is no directory's. -/
theorem BlockInv.dir_ne (h : BlockInv (diskInode d) map mem) {m : Int} (hn : Live (diskInode d) n)
    (hi : (i : Int) < (curInode (diskInode d) mem n).blocks) (hm : (diskInode d m).type = rDir)
    (hne : m ≠ n) : (addrOf (diskInode d m).addrs 0).toNat ≠
      (addrOf (curInode (diskInode d) mem n).addrs i).toNat := by
  obtain ⟨hpos, haddr⟩ := h.dir_addr hm
  obtain ⟨hlo, -, -⟩ := h.owned n i hn hi
  have hlo' := h.dirBlocks.range m hm
  intro heq
  have : addrOf (curInode (diskInode d) mem m).addrs 0 =
      addrOf (curInode (diskInode d) mem n).addrs i := by
    rw [← haddr]
    omega
  exact hne (h.excl m n 0 i (live_of_dir hm) hn hpos hi this).1

theorem dirEnts_nil (h : (diskInode d n).type ≠ rDir) : dirEnts d n = [] := by
  unfold dirEnts
  exact if_neg h

theorem dirEnts_dir (h : (diskInode d n).type = rDir) :
    dirEnts d n = direntries (d (addrOf (diskInode d n).addrs 0).toNat)
      (direntryCount (diskInode d n).size) := by
  unfold dirEnts
  exact if_pos h

theorem dirEnts_congr {d' : Nat → Block} (hino : diskInode d' n = diskInode d n)
    (hblk : (diskInode d n).type = rDir → d' (addrOf (diskInode d n).addrs 0).toNat =
      d (addrOf (diskInode d n).addrs 0).toNat) : dirEnts d' n = dirEnts d n := by
  unfold dirEnts
  rw [hino]
  dsimp only
  split
  · rename_i hdir
    rw [hblk hdir]
  · rfl

theorem writeInode_data {blk : Int} (hn : InodeNum n) (hblk : 12 ≤ blk) :
    writeInode d di n blk.toNat = d blk.toNat := by
  have := (inodeBlock_range hn).2
  exact upd_ne (by omega)

/-- Writing an inode changes the entries of that inode only. -/
theorem dirEnts_writeInode (h : DirBlocks d) (hn : InodeNum n) (hfits : di.Fits)
    (hdi : di.type = rDir → 12 ≤ addrOf di.addrs 0) :
    dirEnts (writeInode d di n) = upd (dirEnts d) n (if di.type = rDir then
      direntries (d (addrOf di.addrs 0).toNat) (direntryCount di.size) else []) := by
  have hino := diskInode_write (d := d) hn hfits
  funext m
  rcases eq_or_ne m n with rfl | hmn
  · have hself : diskInode (writeInode d di m) m = di := by rw [hino, upd_self]
    rw [upd_self]
    split
    · rename_i hdir
      rw [dirEnts_dir (by rw [hself]; exact hdir), hself, writeInode_data hn (hdi hdir)]
    · rename_i hdir
      exact dirEnts_nil (by rw [hself]; exact hdir)
  · rw [upd_ne hmn]
    exact dirEnts_congr (by rw [hino, upd_ne hmn]) fun hdir => writeInode_data hn (h.range m hdir)

/-- Writing an inode that is no directory, and was none. -/
theorem dirEnts_writeInode_file (h : DirBlocks d) (hn : InodeNum n) (hfits : di.Fits)
    (hold : (diskInode d n).type ≠ rDir) (hnew : di.type ≠ rDir) :
    dirEnts (writeInode d di n) = dirEnts d := by
  rw [dirEnts_writeInode h hn hfits fun hdir => absurd hdir hnew, if_neg hnew]
  exact upd_eq_self (dirEnts_nil hold)

/-- Writing a block that is no directory's. -/
theorem dirEnts_data {blk : Nat} {b : Block} (hblk : 11 ≤ blk)
    (hno : ∀ m, (diskInode d m).type = rDir → (addrOf (diskInode d m).addrs 0).toNat ≠ blk) :
    dirEnts (upd d blk b) = dirEnts d := by
  funext m
  refine dirEnts_congr (by rw [diskInode_data hblk]) fun hdir => ?_
  exact upd_ne (hno m hdir)

section

variable (h : DirBlocks d) (hn : InodeNum v.inum) (hv : diskInode d v.inum = v.toDinode)
  (hdir : v.type = dirI)

include h hn hv hdir

/-- Replacing the block of a directory and its size. -/
theorem dirEnts_setBlock {size : Int} {b : Block}
    (hfits : ({ v with size := size } : Vinode).toDinode.Fits) :
    dirEnts (writeInode (upd d (addrOf v.addrs 0).toNat b)
        ({ v with size := size } : Vinode).toDinode v.inum) =
      upd (dirEnts d) v.inum (direntries b (direntryCount size)) := by
  have hdisk : (diskInode d v.inum).type = rDir := by rw [hv]; exact hdir
  have haddr : addrOf (diskInode d v.inum).addrs 0 = addrOf v.addrs 0 := by rw [hv]; rfl
  have hlo : 12 ≤ addrOf v.addrs 0 := haddr ▸ h.range _ hdisk
  have hino : diskInode (upd d (addrOf v.addrs 0).toNat b) = diskInode d :=
    diskInode_data (by omega) b
  have hblocks : DirBlocks (upd d (addrOf v.addrs 0).toNat b) :=
    h.mono fun m hm => by rw [hino] at hm ⊢; exact ⟨hm, rfl⟩
  rw [dirEnts_writeInode hblocks hn hfits fun _ => hlo]
  funext m
  rcases eq_or_ne m v.inum with rfl | hm
  · rw [upd_self, upd_self, if_pos (show ({ v with size := size } : Vinode).toDinode.type = rDir
      from hdir)]
    show direntries (upd d (addrOf v.addrs 0).toNat b (addrOf v.addrs 0).toNat) _ = _
    rw [upd_self]
    rfl
  · rw [upd_ne hm, upd_ne hm]
    refine dirEnts_congr (by rw [hino]) fun hmdir => upd_ne fun heq => hm ?_
    refine h.inj m v.inum hmdir hdisk ?_
    have := h.range m hmdir
    rw [haddr]
    omega

theorem dirEnts_addEntry {inum : Int} (h0 : 0 ≤ v.size) (hroom : v.HasRoom) (hinum : IsInt32 inum)
    (hname : NameOk name) (hfits : ({ v with size := v.size + 32 } : Vinode).toDinode.Fits) :
    dirEnts (addEntry d v name inum) =
      upd (dirEnts d) v.inum (dirEnts d v.inum ++ [(inum, name)]) := by
  obtain ⟨hlt, hdvd, -⟩ := hroom
  have hdisk : (diskInode d v.inum).type = rDir := by rw [hv]; exact hdir
  have hcount : direntryCount (v.size + 32) = direntryCount v.size + 1 := by
    unfold direntryCount
    omega
  have hents : dirEnts d v.inum =
      direntries (d (addrOf v.addrs 0).toNat) (direntryCount v.size) := by
    rw [dirEnts_dir hdisk, hv]
    rfl
  rw [addEntry, dirEnts_setBlock h hn hv hdir hfits, hcount, direntries_append hinum hname, hents]

theorem dirEnts_removeEntry (hsize : 0 ≤ v.size ∧ v.size ≤ 4096) (hdvd : 32 ∣ v.size)
    (hk : k < direntryCount v.size)
    (hfits : ({ v with size := v.size - 32 } : Vinode).toDinode.Fits) :
    dirEnts (removeEntry d v k) = upd (dirEnts d) v.inum ((dirEnts d v.inum).eraseIdx k) := by
  have hdisk : (diskInode d v.inum).type = rDir := by rw [hv]; exact hdir
  have hcount : direntryCount (v.size - 32) = direntryCount v.size - 1 := by
    unfold direntryCount
    omega
  have hents : dirEnts d v.inum =
      direntries (d (addrOf v.addrs 0).toNat) (direntryCount v.size) := by
    rw [dirEnts_dir hdisk, hv]
    rfl
  have hle : direntryCount v.size ≤ 128 := by
    unfold direntryCount
    omega
  rw [removeEntry, dirEnts_setBlock h hn hv hdir hfits, hcount, direntries_erase hk hle, hents]

end

theorem diskInode_removeEntry (hn : InodeNum v.inum) (hblk : 12 ≤ addrOf v.addrs 0)
    (hfits : ({ v with size := v.size - 32 } : Vinode).toDinode.Fits) :
    diskInode (removeEntry d v k) =
      upd (diskInode d) v.inum ({ v with size := v.size - 32 } : Vinode).toDinode := by
  rw [removeEntry, diskInode_write hn hfits, diskInode_data (by omega)]

end

end Pke
