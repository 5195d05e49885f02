import Pke.Inodes

/-!
# What `rfs_write` leaves in a file

`rfs_write` works on four things: the vinode of the file, the freemap,
the disk and the I/O buffer (`Writer`). Within ten blocks each of its
parts has one fault, that of a full disk, and what it does to the bytes
of the file is given exactly, the bytes behind the written ones included:
a block that is written from its start is filled up with what the I/O
buffer held before, and only the first block is read before it is
written.

So the bytes of the file behind the written range survive unless they
share the last block with it and that block was written from its start
(`leftover`); they are then replaced by the leftovers of the transfer
before.
-/

namespace Pke

open Exec (Post bind_of_ok)

/-- The free data blocks of a freemap. -/
def freeBlocks (m : Nat → Int) : Finset Nat := (Finset.range 100).filter fun k => m k = 0

theorem mem_freeBlocks {m : Nat → Int} {k : Nat} : k ∈ freeBlocks m ↔ k < 100 ∧ m k = 0 := by
  simp [freeBlocks]

theorem card_freeBlocks_take {m : Nat → Int} {k : Nat} (hk : k < 100) (hzero : m k = 0) :
    (freeBlocks (upd m k 1)).card + 1 = (freeBlocks m).card := by
  have herase : freeBlocks (upd m k 1) = (freeBlocks m).erase k := by
    ext j
    rw [Finset.mem_erase, mem_freeBlocks, mem_freeBlocks]
    rcases eq_or_ne j k with rfl | hjk
    · simp
    · simp [upd_ne hjk, hjk]
  rw [herase, Finset.card_erase_add_one (mem_freeBlocks.mpr ⟨hk, hzero⟩)]

/-- What `rfs_write` works on. -/
structure Writer where
  vinode : Vinode
  freemap : Nat → Int
  disk : Nat → Block
  iobuffer : Block

variable {y : Writer} {i p off : Nat} {c : Nat → UInt8} {b : Block} {buf : List UInt8} {n : Int}

namespace Writer

/-- The state `s` with these in place: the vinode at `f`, the freemap in the
superblock at `sb`. -/
def state (s : State) (f sb : Ptr) (B : SuperBlock) (x : Writer) : State :=
  { s with
    disk := x.disk
    iobuffer := x.iobuffer
    pages := upd (upd s.pages sb (.superBlock { B with freemap := x.freemap })) f
      (.vinode x.vinode) }

def byte (x : Writer) (p : Nat) : UInt8 := dataAt x.disk x.vinode.addrs p

def Placed (x : Writer) : Prop := x.vinode.toDinode.Placed x.freemap

def space (x : Writer) : Int := (freeBlocks x.freemap).card

/-- Blocks have been added to the file and its blocks have been written;
nothing else has changed. -/
structure Grew (x x' : Writer) : Prop where
  vinode : x'.vinode = { x.vinode with addrs := x'.vinode.addrs, blocks := x'.vinode.blocks }
  le : x.vinode.blocks ≤ x'.vinode.blocks
  old : ∀ i : Nat, (i : Int) < x.vinode.blocks →
    addrOf x'.vinode.addrs i = addrOf x.vinode.addrs i
  used : ∀ k, x.freemap k ≠ 0 → x'.freemap k ≠ 0
  fresh : ∀ i : Nat, x.vinode.blocks ≤ i → (i : Int) < x'.vinode.blocks →
    x.freemap (addrOf x'.vinode.addrs i - 12).toNat = 0
  frame : ∀ blk : Nat, (∀ i : Nat, (i : Int) < x'.vinode.blocks →
    (addrOf x'.vinode.addrs i).toNat ≠ blk) → x'.disk blk = x.disk blk
  space : x'.vinode.blocks + x'.space = x.vinode.blocks + x.space

theorem Grew.refl (x : Writer) : Grew x x :=
  ⟨rfl, le_rfl, fun _ _ => rfl, fun _ h => h, fun _ h h' => absurd h' (not_lt.mpr h),
    fun _ _ => rfl, rfl⟩

theorem Grew.trans {x z : Writer} (h : Grew x y) (h' : Grew y z) : Grew x z where
  vinode := by
    rw [h'.vinode, h.vinode]
  le := h.le.trans h'.le
  old i hi := (h'.old i (hi.trans_le h.le)).trans (h.old i hi)
  used k hk := h'.used k (h.used k hk)
  fresh i hi hi' := by
    by_cases hy : (i : Int) < y.vinode.blocks
    · rw [h'.old i hy]
      exact h.fresh i hi hy
    · by_contra hne
      exact h.used _ hne (h'.fresh i (not_lt.mp hy) hi')
  frame blk hblk := by
    refine (h'.frame blk hblk).trans (h.frame blk fun i hi => ?_)
    rw [← h'.old i hi]
    exact hblk i (hi.trans_le h'.le)
  space := h'.space.trans h.space

/-- The fault of a full disk. -/
abbrev noFreeBlock : Fault := .panic "rfs_alloc_block: no more free block!"

section

variable {s : State} {f sb : Ptr} {B : SuperBlock} {x : Writer} {E : Fault → Prop}

theorem vinode_state : (x.state s f sb B).vinode f = some x.vinode := by
  simp [state, State.vinode, Page.asVinode]

theorem superBlock_state (hne : f ≠ sb) :
    (x.state s f sb B).superBlock sb = some { B with freemap := x.freemap } := by
  simp [state, State.superBlock, upd_ne hne.symm, Page.asSuperBlock]

theorem state_setVinode (v : Vinode) :
    (x.state s f sb B).setPage f (.vinode v) = { x with vinode := v }.state s f sb B := by
  simp [state, State.setPage]

theorem state_setSuperBlock (hne : f ≠ sb) (m : Nat → Int) :
    (x.state s f sb B).setPage sb (.superBlock { B with freemap := m }) =
      { x with freemap := m }.state s f sb B := by
  simp [state, State.setPage, upd_comm hne]

/-! ## A new block -/

theorem rfsAllocBlock_spec (hne : f ≠ sb) (hB : B.nblocks = 100)
    (hfull : x.space = 0 → E noFreeBlock) :
    Post (rfsAllocBlock sb) (x.state s f sb B) (fun r s' => ∃ k : Nat, k < 100 ∧ x.freemap k = 0 ∧
      r = 12 + k ∧ s' = { x with freemap := upd x.freemap k 1 }.state s f sb B) E := by
  unfold rfsAllocBlock
  refine .step (getSuperBlock_run (superBlock_state hne)) ?_
  have hn : B.nblocks.toNat = 100 := by rw [hB]; rfl
  cases hk : findFreeBlock x.freemap B.nblocks.toNat 0 with
  | none =>
      have hnone := findFreeBlock_none hk
      refine .fault (hfull ?_)
      simp only [space, Int.natCast_eq_zero, Finset.card_eq_zero]
      refine Finset.eq_empty_of_forall_notMem fun k hmem => ?_
      obtain ⟨hlt, hzero⟩ := mem_freeBlocks.mp hmem
      exact hnone k (Nat.zero_le k) (by omega) hzero
  | some k =>
      obtain ⟨-, hlt, hzero⟩ := findFreeBlock_some hk
      exact .bindModify (.pure ⟨k, by omega, hzero, rfl, state_setSuperBlock hne _⟩)

/-- A block is added when the file has none at place `i` yet. -/
theorem rfsGrow_spec (hne : f ≠ sb) (hB : B.nblocks = 100) (hsb : x.vinode.sb = sb) (hx : x.Placed)
    (hle : (i : Int) ≤ x.vinode.blocks) (hi : i < 10)
    (hfull : x.vinode.blocks + x.space ≤ i → E noFreeBlock) :
    Post (rfsGrow f i) (x.state s f sb B) (fun _ s' => ∃ x' : Writer, s' = x'.state s f sb B ∧
      Grew x x' ∧ x'.Placed ∧ x'.vinode.blocks = max x.vinode.blocks (i + 1) ∧ x'.disk = x.disk ∧
      x'.iobuffer = x.iobuffer) E := by
  subst hsb
  unfold rfsGrow
  refine .step (getVinode_run vinode_state) ?_
  by_cases heq : (i : Int) = x.vinode.blocks
  · rw [if_pos heq]
    refine .bind (rfsAllocBlock_spec hne hB fun hzero => hfull (by omega)) ?_
    rintro _ _ ⟨k, hk, hzero, rfl, rfl⟩
    refine .step (setAddr_run hi) (.modify ?_)
    have hnew : addrOf (withAddr x.vinode.addrs i (12 + k)) i = 12 + k := by
      rw [addrOf_withAddr hi, if_pos rfl]
    have hold : ∀ j : Nat, (j : Int) < x.vinode.blocks →
        addrOf (withAddr x.vinode.addrs i (12 + k)) j = addrOf x.vinode.addrs j := by
      intro j hj
      rw [addrOf_withAddr hi, if_neg (by omega)]
    -- the new block is not one the file has: those are marked
    have hother : ∀ j : Nat, (j : Int) < x.vinode.blocks → addrOf x.vinode.addrs j ≠ 12 + k := by
      intro j hj hjk
      have hused : x.freemap (addrOf x.vinode.addrs j - 12).toNat ≠ 0 := hx.used j hj
      rw [hjk] at hused
      exact hused (by simpa using hzero)
    have hcases : ∀ j : Nat, (j : Int) < x.vinode.blocks + 1 → (j : Int) < x.vinode.blocks ∨ j = i := by
      omega
    refine ⟨⟨{ x.vinode with
        addrs := withAddr x.vinode.addrs i (12 + k), blocks := x.vinode.blocks + 1 },
      upd x.freemap k 1, x.disk, x.iobuffer⟩, state_setVinode _, ?_, ?_, by simp only; omega, rfl, rfl⟩
    · refine ⟨rfl, by simp only; omega, hold, fun j hj => ?_, fun j hj hj' => ?_, fun _ _ => rfl, ?_⟩
      · by_cases hjk : j = k <;> simp_all [upd]
      · obtain rfl : j = i := by simp only at hj'; omega
        simpa [hnew] using hzero
      · have hcard := card_freeBlocks_take hk hzero
        simp only [space]
        omega
    · refine ⟨⟨hx.size.1, ?_⟩, ⟨?_, ?_⟩, fun j hj => ?_, fun j hj => ?_, fun j l hj hl hjl => ?_⟩
      · have := hx.size.2
        simp only [Vinode.toDinode] at this ⊢
        omega
      · have := hx.blocks.1
        simp only [Vinode.toDinode] at this ⊢
        omega
      · simp only [Vinode.toDinode]
        omega
      · rcases hcases j hj with hj | rfl
        · simp only [Vinode.toDinode, hold j hj]
          exact hx.data j hj
        · simp only [Vinode.toDinode, hnew]
          omega
      · rcases hcases j hj with hj | rfl
        · simp only [Vinode.toDinode, hold j hj, upd]
          split
          · exact one_ne_zero
          · exact hx.used j hj
        · simp [Vinode.toDinode, hnew]
      · simp only [Vinode.toDinode] at hjl
        rcases hcases j hj with hj' | rfl <;> rcases hcases l hl with hl' | rfl
        · rw [hold j hj', hold l hl'] at hjl
          exact hx.inj j l hj' hl' hjl
        · rw [hold j hj', hnew] at hjl
          exact absurd hjl (hother j hj')
        · rw [hold l hl', hnew] at hjl
          exact absurd hjl.symm (hother l hl')
        · rfl
  · rw [if_neg heq]
    exact .pure ⟨x, rfl, .refl x, hx, by omega, rfl, rfl⟩

/-! ## The parts of `rfs_write` -/

/-- The bytes of the file after block `i` has been written. -/
theorem byte_write (hx : x.Placed) (hi : (i : Int) < x.vinode.blocks)
    (hp : (p : Int) < x.vinode.blocks * 4096) (b : Block) :
    byte { x with disk := upd x.disk (addrOf x.vinode.addrs i).toNat b, iobuffer := b } p =
      if p / 4096 = i then b (p % 4096) else x.byte p := by
  have hlt : ((p / 4096 : Nat) : Int) < x.vinode.blocks := by omega
  simp only [byte, dataAt]
  by_cases hpi : p / 4096 = i
  · rw [hpi, upd_self, if_pos rfl]
  · rw [if_neg hpi, upd_ne fun heq => hpi (hx.inj _ _ hlt hi ?_)]
    have h1 : 12 ≤ addrOf x.vinode.addrs (p / 4096) := (hx.data _ hlt).1
    have h2 : 12 ≤ addrOf x.vinode.addrs i := (hx.data _ hi).1
    show addrOf x.vinode.addrs (p / 4096) = addrOf x.vinode.addrs i
    omega

theorem grew_write (hi : (i : Int) < x.vinode.blocks) (b : Block) :
    Grew x { x with disk := upd x.disk (addrOf x.vinode.addrs i).toNat b, iobuffer := b } :=
  { Grew.refl x with frame := fun _ hblk => upd_ne fun heq => hblk i hi heq.symm }

/-- One block written from its start: what the buffer does not fill is what
the I/O buffer held. -/
theorem rfsWriteBlock_spec {bo n : Nat} (hne : f ≠ sb) (hB : B.nblocks = 100)
    (hsb : x.vinode.sb = sb) (hx : x.Placed) (hle : (i : Int) ≤ x.vinode.blocks) (hi : i < 10)
    (hfull : x.vinode.blocks + x.space ≤ i → E noFreeBlock) :
    Post (rfsWriteBlock f buf bo i n) (x.state s f sb B) (fun _ s' => ∃ x' : Writer,
      s' = x'.state s f sb B ∧
      Grew x x' ∧ x'.Placed ∧ x'.vinode.blocks = max x.vinode.blocks (i + 1) ∧
      x'.iobuffer = memcpy x.iobuffer 0 n (fun j => buf.getD (bo + j) 0) ∧
      ∀ p : Nat, (p : Int) < x'.vinode.blocks * 4096 →
        x'.byte p = if p / 4096 = i then x'.iobuffer (p % 4096) else x.byte p) E := by
  refine .bind (rfsGrow_spec hne hB hsb hx hle hi hfull) ?_
  rintro _ _ ⟨y, rfl, hgrew, hy, hblocks, hdisk, hio⟩
  have hlt : (i : Int) < y.vinode.blocks := by omega
  have haddr : 12 ≤ addrOf y.vinode.addrs i ∧ addrOf y.vinode.addrs i < 112 := hy.data i hlt
  refine .step (getVinode_run vinode_state) (.step (addrAt_run hi) (.step (setIobuffer_run _)
    (.step (rfsW1block_run (by omega)) (.pure ?_))))
  refine ⟨{ y with
      disk := upd y.disk (addrOf y.vinode.addrs i).toNat
        (memcpy y.iobuffer 0 n fun j => buf.getD (bo + j) 0)
      iobuffer := memcpy y.iobuffer 0 n fun j => buf.getD (bo + j) 0 },
    rfl, hgrew.trans (grew_write hlt _), hy, hblocks, by rw [hio], fun p hp => ?_⟩
  rw [byte_write hy hlt hp]
  by_cases hpi : p / 4096 = i
  · rw [if_pos hpi, if_pos hpi]
  · rw [if_neg hpi, if_neg hpi]
    have hold : ((p / 4096 : Nat) : Int) < x.vinode.blocks := by
      simp only at hp
      omega
    simp only [byte, dataAt, hgrew.old _ hold, hdisk]

/-- Complete blocks, one after the other. -/
theorem rfsWriteBlocks_spec (hne : f ≠ sb) (hB : B.nblocks = 100) :
    ∀ {n bo i : Nat} {x : Writer}, x.vinode.sb = sb → x.Placed →
      (i : Int) ≤ x.vinode.blocks → i + n ≤ 10 →
      (x.vinode.blocks + x.space < (i + n : Nat) → E noFreeBlock) →
      Post (rfsWriteBlocks f buf n bo i) (x.state s f sb B) (fun r s' => ∃ x' : Writer,
        r = (((bo + n * 4096 : Nat) : Int), ((i + n : Nat) : Int)) ∧ s' = x'.state s f sb B ∧
        Grew x x' ∧ x'.Placed ∧ x'.vinode.blocks = max x.vinode.blocks (i + n : Nat) ∧
        (∀ j < 4096, x'.iobuffer j =
          if n = 0 then x.iobuffer j else buf.getD (bo + ((n - 1) * 4096 + j)) 0) ∧
        ∀ p : Nat, (p : Int) < x'.vinode.blocks * 4096 → x'.byte p =
          if i ≤ p / 4096 ∧ p / 4096 < i + n then buf.getD (bo + (p - i * 4096)) 0
          else x.byte p) E
  | 0, bo, i, x, _, hx, hle, _, _ => by
      refine .pure ⟨x, by simp, rfl, .refl x, hx, by omega, by simp, fun p hp => ?_⟩
      rw [if_neg (by omega)]
  | n + 1, bo, i, x, hsb, hx, hle, hi, hfull => by
      refine .bind (rfsWriteBlock_spec (n := 4096) hne hB hsb hx hle (by omega)
        fun h => hfull (by omega)) ?_
      rintro _ _ ⟨y, rfl, hgrew, hy, hblocks, hio, hbyte⟩
      have hysb : y.vinode.sb = sb := by rw [hgrew.vinode]; exact hsb
      have hyspace := hgrew.space
      have hbo : (bo : Int) + rfsBlksize = ((bo + 4096 : Nat) : Int) := by simp [rfsBlksize]
      rw [hbo, show (i : Int) + 1 = ((i + 1 : Nat) : Int) by omega]
      refine (rfsWriteBlocks_spec hne hB hysb hy (by omega) (by omega)
        fun h => hfull (by omega)).mono ?_
      rintro _ _ ⟨z, rfl, rfl, hgrew', hz, hblocks', hio', hbyte'⟩
      refine ⟨z, ?_, rfl, hgrew.trans hgrew', hz, by omega, fun j hj => ?_, fun p hp => ?_⟩
      · rw [show bo + (n + 1) * 4096 = bo + 4096 + n * 4096 by omega,
          show i + (n + 1) = i + 1 + n by omega]
      · rw [hio' j hj, if_neg (Nat.succ_ne_zero n), Nat.add_sub_cancel]
        by_cases hn : n = 0
        · rw [if_pos hn, hio, memcpy_zero hj, hn]
          congr 1
          omega
        · rw [if_neg hn]
          congr 1
          have : (n - 1) * 4096 + 4096 = n * 4096 := by
            rw [Nat.sub_mul]
            omega
          omega
      · rw [hbyte' p hp]
        by_cases h : i + 1 ≤ p / 4096 ∧ p / 4096 < i + 1 + n
        · have hin : i ≤ p / 4096 ∧ p / 4096 < i + (n + 1) := ⟨by omega, by omega⟩
          rw [if_pos h, if_pos hin]
          congr 1
          omega
        · rw [if_neg h, hbyte p (by omega)]
          by_cases hpi : p / 4096 = i
          · have hin : i ≤ p / 4096 ∧ p / 4096 < i + (n + 1) := ⟨by omega, by omega⟩
            have hoff : p % 4096 = p - i * 4096 := by omega
            rw [if_pos hpi, if_pos hin, hio, memcpy_zero (Nat.mod_lt _ (by omega)), hoff]
          · have hout : ¬(i ≤ p / 4096 ∧ p / 4096 < i + (n + 1)) := by omega
            rw [if_neg hpi, if_neg hout]

/-- The number of blocks `n` bytes need. -/
def blocksFor (n : Nat) : Nat := (n + 4095) / 4096

/-- The blocks written from their start: `t` complete ones and a part, which is
filled up with what the I/O buffer held. -/
theorem rfsWriteRest_spec (bo : Nat) {t rem : Nat} (hne : f ≠ sb)
    (hB : B.nblocks = 100) (hsb : x.vinode.sb = sb) (hx : x.Placed)
    (hle : (i : Int) ≤ x.vinode.blocks) (hrem : rem < 4096) (hten : i + t + blocksFor rem ≤ 10)
    (hfull : x.vinode.blocks + x.space < (i + t + blocksFor rem : Nat) → E noFreeBlock) :
    Post (rfsWriteRest f buf bo i t rem) (x.state s f sb B) (fun _ s' => ∃ x' : Writer,
      s' = x'.state s f sb B ∧ Grew x x' ∧ x'.Placed ∧ x'.vinode.blocks = max x.vinode.blocks (i + t + blocksFor rem : Nat) ∧
      ∀ p : Nat, (p : Int) < x'.vinode.blocks * 4096 → x'.byte p =
        if i ≤ p / 4096 ∧ p < (i + t) * 4096 + rem then buf.getD (bo + (p - i * 4096)) 0
        else if rem ≠ 0 ∧ p / 4096 = i + t then
          if t = 0 then x.iobuffer (p % 4096) else buf.getD (bo + ((t - 1) * 4096 + p % 4096)) 0
        else x.byte p) E := by
  unfold rfsWriteRest
  rw [if_pos (by omega), Int.toNat_natCast]
  refine .bind (rfsWriteBlocks_spec hne hB hsb hx hle (by omega) fun h => hfull (by omega)) ?_
  rintro _ _ ⟨y, rfl, rfl, hgrew, hy, hblocks, hio, hbyte⟩
  dsimp only
  by_cases hzero : rem = 0
  · subst hzero
    have hfor : blocksFor 0 = 0 := by decide
    refine .pure ⟨y, rfl, hgrew, hy, by rw [hblocks, hfor]; rfl, fun p hp => ?_⟩
    rw [hbyte p hp, if_neg (not_and.mpr fun h => absurd rfl h)]
    by_cases h : i ≤ p / 4096 ∧ p / 4096 < i + t
    · have hin : i ≤ p / 4096 ∧ p < (i + t) * 4096 + 0 := ⟨h.1, by omega⟩
      rw [if_pos h, if_pos hin]
    · have hout : ¬(i ≤ p / 4096 ∧ p < (i + t) * 4096 + 0) := fun h' => h ⟨h'.1, by omega⟩
      rw [if_neg h, if_neg hout]
  · have hfor : blocksFor rem = 1 := by unfold blocksFor; omega
    have hysb : y.vinode.sb = sb := by rw [hgrew.vinode]; exact hsb
    have hyspace := hgrew.space
    rw [hfor] at hten hfull ⊢
    rw [if_pos (by omega)]
    refine (rfsWriteBlock_spec hne hB hysb hy (by omega) (by omega) fun h => hfull (by omega)).mono ?_
    rintro _ _ ⟨z, rfl, hgrew', hz, hblocks', hio', hbyte'⟩
    refine ⟨z, rfl, hgrew.trans hgrew', hz, by omega, fun p hp => ?_⟩
    rw [hbyte' p hp, hio']
    have hmod : p % 4096 < 4096 := Nat.mod_lt _ (by omega)
    by_cases hlast : p / 4096 = i + t
    · rw [if_pos hlast]
      by_cases hpr : p % 4096 < rem
      · have hin : i ≤ p / 4096 ∧ p < (i + t) * 4096 + rem := ⟨by omega, by omega⟩
        have hoff : bo + t * 4096 + p % 4096 = bo + (p - i * 4096) := by
          have : i * 4096 + t * 4096 = (i + t) * 4096 := (Nat.add_mul i t 4096).symm
          omega
        rw [memcpy_zero hpr, if_pos hin, hoff]
      · have hout : ¬(i ≤ p / 4096 ∧ p < (i + t) * 4096 + rem) := fun h => hpr (by omega)
        rw [memcpy_out (by omega), if_neg hout, if_pos ⟨hzero, hlast⟩, hio _ hmod]
    · have hnot : ¬(rem ≠ 0 ∧ p / 4096 = i + t) := fun h => hlast h.2
      rw [if_neg hlast, hbyte p (by omega), if_neg hnot]
      by_cases h : i ≤ p / 4096 ∧ p / 4096 < i + t
      · have hin : i ≤ p / 4096 ∧ p < (i + t) * 4096 + rem := ⟨h.1, by omega⟩
        rw [if_pos h, if_pos hin]
      · have hout : ¬(i ≤ p / 4096 ∧ p < (i + t) * 4096 + rem) :=
          fun h' => h ⟨h'.1, by omega⟩
        rw [if_neg h, if_neg hout]

/-- The block the offset lies in is read, changed and written back. -/
theorem rfsWriteFirst_run (s : State) (f sb : Ptr) (B : SuperBlock) (buf : List UInt8)
    {a q : Nat} (len : Nat) (t : Int) (hx : x.Placed) (hq : (q : Int) < x.vinode.blocks) (ha : a ≠ 0) (hlen : a + len ≤ 4096)
    (hfirst : (if t = 0 then (buf.length : Int) else rfsBlksize - a) = len) :
    ∃ x', rfsWriteFirst x.vinode.addrs buf a q t (x.state s f sb B) =
        .ok (((len : Int), ((q + 1 : Nat) : Int), t - 1), x'.state s f sb B) ∧
      Grew x x' ∧ x'.Placed ∧ x'.vinode = x.vinode ∧
      (∀ j < 4096, x'.iobuffer j = x'.byte (q * 4096 + j)) ∧
      ∀ p : Nat, (p : Int) < x.vinode.blocks * 4096 → x'.byte p =
        if q * 4096 + a ≤ p ∧ p < q * 4096 + a + len then buf.getD (p - (q * 4096 + a)) 0
        else x.byte p := by
  have hten : x.vinode.blocks ≤ 10 := hx.blocks.2
  have haddr : 12 ≤ addrOf x.vinode.addrs q ∧ addrOf x.vinode.addrs q < 112 := hx.data q hq
  refine ⟨{ x with
      disk := upd x.disk (addrOf x.vinode.addrs q).toNat
        (memcpy (x.disk (addrOf x.vinode.addrs q).toNat) a len fun j => buf.getD j 0)
      iobuffer := memcpy (x.disk (addrOf x.vinode.addrs q).toNat) a len fun j => buf.getD j 0 },
    ?_, grew_write hq _, hx, rfl, fun j hj => ?_, fun p hp => ?_⟩
  · unfold rfsWriteFirst
    rw [if_pos (by omega), hfirst, bind_of_ok (addrAt_run (by omega)),
      bind_of_ok (rfsR1block_run (by omega)), bind_of_ok (setIobuffer_run _),
      bind_of_ok (rfsW1block_run (by omega))]
    rfl
  · have hdiv : (q * 4096 + j) / 4096 = q := by omega
    have hmod : (q * 4096 + j) % 4096 = j := by omega
    rw [byte_write hx hq (by omega), if_pos hdiv, hmod]
  · rw [byte_write hx hq hp]
    by_cases hpq : p / 4096 = q
    · rw [if_pos hpq]
      by_cases hin : q * 4096 + a ≤ p ∧ p < q * 4096 + a + len
      · have hoff : p % 4096 = a + (p - (q * 4096 + a)) := by omega
        rw [if_pos hin, hoff, memcpy_in (by omega)]
      · rw [if_neg hin, memcpy_out (by omega)]
        simp only [byte, dataAt, hpq]
    · have hout : ¬(q * 4096 + a ≤ p ∧ p < q * 4096 + a + len) := by omega
      rw [if_neg hpq, if_neg hout]

/-! ## The whole write -/

/-- Byte `p` is behind the written range and in the last block of it, and that
block has been written from its start. -/
def Filled (off len p : Nat) : Prop :=
  off + len ≤ p ∧ p / 4096 = (off + len) / 4096 ∧ (off + len) % 4096 ≠ 0 ∧
    (off % 4096 = 0 ∨ off / 4096 ≠ (off + len) / 4096)

instance (off len p : Nat) : Decidable (Filled off len p) := inferInstanceAs (Decidable (_ ∧ _))

/-- What the I/O buffer holds at the place of byte `p` when the last block is
written: what it held at the start, or the block before. -/
def leftover (c : Nat → UInt8) (b : Block) (off : Nat) (buf : List UInt8) (p : Nat) : UInt8 :=
  if off / 4096 = (off + buf.length) / 4096 then b (p % 4096)
  else if off ≤ p - 4096 then buf.getD (p - 4096 - off) 0
  else c (p - 4096)

/-- Byte `p` of the file after the write. -/
def written (c : Nat → UInt8) (b : Block) (off : Nat) (buf : List UInt8) (p : Nat) : UInt8 :=
  if off ≤ p ∧ p < off + buf.length then buf.getD (p - off) 0
  else if Filled off buf.length p then leftover c b off buf p
  else c p

/-- The blocks from the start of one on, for an offset there. -/
theorem written_aligned (ha : off % 4096 = 0) : (if off / 4096 ≤ p / 4096 ∧
        p < (off / 4096 + buf.length / 4096) * 4096 + buf.length % 4096 then
      buf.getD (0 + (p - off / 4096 * 4096)) 0
    else if buf.length % 4096 ≠ 0 ∧ p / 4096 = off / 4096 + buf.length / 4096 then
      if buf.length / 4096 = 0 then b (p % 4096)
      else buf.getD (0 + ((buf.length / 4096 - 1) * 4096 + p % 4096)) 0
    else c p) = written c b off buf p := by
  have hiff : (off / 4096 ≤ p / 4096 ∧
      p < (off / 4096 + buf.length / 4096) * 4096 + buf.length % 4096) ↔
      (off ≤ p ∧ p < off + buf.length) := by omega
  unfold written
  by_cases hin : off ≤ p ∧ p < off + buf.length
  · rw [if_pos (hiff.mpr hin), if_pos hin]
    congr 1
    omega
  · rw [if_neg fun h => hin (hiff.mp h), if_neg hin]
    have hfill : (buf.length % 4096 ≠ 0 ∧ p / 4096 = off / 4096 + buf.length / 4096) ↔
        Filled off buf.length p := by
      unfold Filled
      omega
    by_cases hf : Filled off buf.length p
    · rw [if_pos (hfill.mpr hf), if_pos hf]
      obtain ⟨-, hlast⟩ := hfill.mpr hf
      unfold leftover
      by_cases ht : buf.length / 4096 = 0
      · rw [if_pos ht, if_pos (by omega)]
      · rw [if_neg ht, if_neg (by omega), if_pos (by omega)]
        congr 1
        omega
    · rw [if_neg fun h => hf (hfill.mp h), if_neg hf]

theorem prev_block {q : Nat} (h : p / 4096 = q + 1) : q * 4096 + p % 4096 = p - 4096 := by
  omega

/-- The bytes a write changes. -/
def Touched (off len p : Nat) : Prop := (off ≤ p ∧ p < off + len) ∨ Filled off len p

/-- The blocks after the first, for an offset inside a block. `c'` and `b'` are
the bytes and the I/O buffer after the first block has been written. -/
theorem written_crossing {c' : Nat → UInt8} {b' : Block} {t : Nat}
    (ht : (buf.length + off % 4096) / 4096 = t + 1)
    (hb : ∀ j < 4096, b' j = c' (off / 4096 * 4096 + j))
    (hc : ∀ q, q / 4096 = off / 4096 ∨ q = p ∧ ¬Touched off buf.length p →
      c' q = if off ≤ q ∧ q < off + (4096 - off % 4096) then buf.getD (q - off) 0 else c q) :
    (if off / 4096 + 1 ≤ p / 4096 ∧
        p < (off / 4096 + 1 + t) * 4096 + (buf.length + off % 4096) % 4096 then
      buf.getD (4096 - off % 4096 + (p - (off / 4096 + 1) * 4096)) 0
    else if (buf.length + off % 4096) % 4096 ≠ 0 ∧ p / 4096 = off / 4096 + 1 + t then
      if t = 0 then b' (p % 4096)
      else buf.getD (4096 - off % 4096 + ((t - 1) * 4096 + p % 4096)) 0
    else c' p) = written c b off buf p := by
  have hmod : p % 4096 < 4096 := Nat.mod_lt _ (by omega)
  have hend : (off / 4096 + 1 + t) * 4096 + (buf.length + off % 4096) % 4096 =
      off + buf.length := by omega
  rw [hend]
  unfold written
  by_cases hin : off / 4096 + 1 ≤ p / 4096 ∧ p < off + buf.length
  · rw [if_pos hin, if_pos (by omega)]
    congr 1
    omega
  · rw [if_neg hin]
    have hfill : ((buf.length + off % 4096) % 4096 ≠ 0 ∧ p / 4096 = off / 4096 + 1 + t) ↔
        Filled off buf.length p := by
      unfold Filled
      omega
    by_cases hf : Filled off buf.length p
    · have hout : ¬(off ≤ p ∧ p < off + buf.length) := fun h => absurd h.2 (not_lt.mpr hf.1)
      obtain ⟨-, hlast⟩ := hfill.mpr hf
      rw [if_pos (hfill.mpr hf), if_neg hout, if_pos hf]
      unfold leftover
      rw [if_neg (by omega : ¬off / 4096 = (off + buf.length) / 4096)]
      by_cases ht0 : t = 0
      · have hprev := prev_block (p := p) (q := off / 4096) (by omega)
        rw [if_pos ht0, hb _ hmod, hprev, hc _ (.inl (by omega))]
        by_cases hq : off ≤ p - 4096
        · rw [if_pos hq, if_pos ⟨hq, by omega⟩]
        · rw [if_neg hq, if_neg fun h => hq h.1]
      · rw [if_neg ht0, if_pos (by omega : off ≤ p - 4096)]
        congr 1
        omega
    · have hp : p / 4096 = off / 4096 ∨ p = p ∧ ¬Touched off buf.length p := by
        by_cases hfirst : p / 4096 = off / 4096
        · exact .inl hfirst
        · exact .inr ⟨rfl, fun h => h.elim (fun h => hin ⟨by omega, h.2⟩) hf⟩
      rw [if_neg fun h => hf (hfill.mp h), hc p hp]
      by_cases hfirst : off ≤ p ∧ p < off + (4096 - off % 4096)
      · rw [if_pos hfirst, if_pos ⟨hfirst.1, by omega⟩]
      · rw [if_neg hfirst, if_neg (by omega), if_neg hf]

/-- What the blocks of `rfs_write` have left: the file has `buf` at `off`. -/
structure Wrote (x : Writer) (off : Nat) (buf : List UInt8) (y : Writer) : Prop where
  grew : Grew x y
  placed : y.Placed
  blocks : y.vinode.blocks = max x.vinode.blocks (blocksFor (off + buf.length))
  bytes : ∀ p : Nat, (p : Int) < y.vinode.blocks * 4096 →
    y.byte p = written x.byte x.iobuffer off buf p

/-- `y` with the size of the file after the write. -/
def sized (x : Writer) (stop : Nat) (y : Writer) : Writer :=
  { y with vinode := { y.vinode with size := max x.vinode.size stop } }

/-- The end of `rfs_write`, when its blocks have been written. -/
theorem rfsWrite_end (hw : Wrote x off buf y) :
    Post (getVinode f >>= fun v => setVinode f
      { v with size := if v.size < off + buf.length then off + buf.length else v.size } >>=
        fun _ => Pure.pure ((buf.length : Int), (off : Int) + buf.length)) (y.state s f sb B)
      (fun r s' => r = ((buf.length : Int), ((off + buf.length : Nat) : Int)) ∧
        ∃ y, Wrote x off buf y ∧ s' = (sized x (off + buf.length) y).state s f sb B) E := by
  have hys : y.vinode.size = x.vinode.size := by rw [hw.grew.vinode]
  have hmax : (if y.vinode.size < (off : Int) + buf.length then (off : Int) + buf.length
      else y.vinode.size) = max x.vinode.size (off + buf.length : Nat) := by
    rw [hys]
    split <;> omega
  refine .step (getVinode_run vinode_state) (.bindModify (.pure ⟨by rw [Nat.cast_add], y, hw, ?_⟩))
  rw [hmax, state_setVinode]
  rfl

/-- Within ten blocks `rfs_write` stores `buf` at `off`, unless the disk is full. -/
theorem rfsWrite_spec (hne : f ≠ sb) (hB : B.nblocks = 100)
    (hsb : x.vinode.sb = sb) (hx : x.Placed) (hoff : (off : Int) ≤ x.vinode.size)
    (hcap : off + buf.length ≤ 40960)
    (hfull : x.vinode.blocks + x.space < blocksFor (off + buf.length) → E noFreeBlock) :
    Post (rfsWrite f buf off) (x.state s f sb B)
      (fun r s' => r = ((buf.length : Int), ((off + buf.length : Nat) : Int)) ∧
        ∃ y, Wrote x off buf y ∧ s' = (sized x (off + buf.length) y).state s f sb B) E := by
  have hsize : x.vinode.size ≤ x.vinode.blocks * 4096 := hx.size.2
  unfold rfsWrite
  refine .step (getVinode_run vinode_state) ?_
  rw [if_neg (by omega)]
  dsimp only
  rw [tmod_rfsBlksize, tdiv_rfsBlksize, ← Nat.cast_add, tdiv_rfsBlksize, tmod_rfsBlksize]
  by_cases ha : off % 4096 = 0
  · -- from the start of a block
    have hfor : off / 4096 + buf.length / 4096 + blocksFor (buf.length % 4096) =
        blocksFor (off + buf.length) := by
      unfold blocksFor
      omega
    unfold rfsWriteFirst
    rw [if_neg (by omega), ha, Nat.add_zero]
    refine .step rfl (.bind (rfsWriteRest_spec 0 hne hB hsb hx (by omega)
      (Nat.mod_lt buf.length (by omega : 4096 > 0)) (by rw [hfor]; unfold blocksFor; omega)
      (by rw [hfor]; exact hfull)) ?_)
    rintro _ _ ⟨y, rfl, hgrew, hy, hblocks, hbyte⟩
    exact rfsWrite_end ⟨hgrew, hy, by rw [hblocks, hfor], fun p hp =>
      (hbyte p hp).trans (written_aligned ha)⟩
  · have hq : ((off / 4096 : Nat) : Int) < x.vinode.blocks := by omega
    have hpos : off / 4096 * 4096 + off % 4096 = off := by omega
    by_cases hone : (buf.length + off % 4096) / 4096 = 0
    · -- inside one block
      obtain ⟨y, hrun, hgrew, hy, hv, -, hbyte⟩ := rfsWriteFirst_run s f sb B buf buf.length
        ((buf.length + off % 4096) / 4096 : Nat) hx hq ha (by omega) (by rw [if_pos (by omega)])
      refine .step hrun ?_
      dsimp only
      rw [rfsWriteRest, if_neg (by omega)]
      refine .step rfl (rfsWrite_end ⟨hgrew, hy, ?_, fun p hp => ?_⟩)
      · rw [hv]
        unfold blocksFor
        omega
      · rw [hv] at hp
        rw [hbyte p hp, hpos]
        have hnot : ¬Filled off buf.length p := by
          unfold Filled
          omega
        simp only [written, if_neg hnot]
    · -- across the end of the block
      obtain ⟨t, ht⟩ : ∃ t, (buf.length + off % 4096) / 4096 = t + 1 :=
        ⟨(buf.length + off % 4096) / 4096 - 1, by omega⟩
      have hfor : off / 4096 + 1 + t + blocksFor ((buf.length + off % 4096) % 4096) =
          blocksFor (off + buf.length) := by
        unfold blocksFor
        omega
      obtain ⟨y, hrun, hgrew, hy, hv, hio, hbyte⟩ := rfsWriteFirst_run s f sb B buf
        (4096 - off % 4096) (t + 1 : Nat) hx hq ha (by omega)
        (by rw [if_neg (by omega)]; show (4096 : Int) - _ = _; omega)
      have hyspace := hgrew.space
      rw [hv] at hyspace
      rw [ht]
      refine .step hrun ?_
      dsimp only
      rw [show ((t + 1 : Nat) : Int) - 1 = t by omega]
      refine .bind (rfsWriteRest_spec _ hne hB (by rw [hv]; exact hsb) hy (by rw [hv]; omega)
        (Nat.mod_lt (buf.length + off % 4096) (by omega : 4096 > 0))
        (by rw [hfor]; unfold blocksFor; omega) (by rw [hfor, hv]; exact fun h => hfull (by omega))) ?_
      rintro _ _ ⟨z, rfl, hgrew', hz, hblocks, hbyte'⟩
      refine rfsWrite_end ⟨hgrew.trans hgrew', hz, by rw [hblocks, hv, hfor], fun p hp => ?_⟩
      rw [hbyte' p hp]
      refine written_crossing ht hio fun q hcase => ?_
      have hqlt : (q : Int) < x.vinode.blocks * 4096 := by
        rcases hcase with hfirst | ⟨rfl, hnot⟩
        · omega
        · -- a block added to the file is written, so its bytes are touched
          by_contra hge
          refine hnot ?_
          rw [hblocks, hv, hfor] at hp
          unfold blocksFor at hp
          unfold Touched Filled
          omega
      rw [hbyte q hqlt, hpos]

end

end Writer

/-! ## On a well-formed state -/

section

variable {s : State} {sb f : Ptr} {B : SuperBlock} {v : Vinode}

/-- What `rfs_write` works on in the state `s`. -/
def writerOf (s : State) (B : SuperBlock) (v : Vinode) : Writer :=
  ⟨v, B.freemap, s.disk, s.iobuffer⟩

theorem WellFormed.ne_sb (h : WellFormed s sb B) (hf : s.Loaded sb n f v) : f ≠ sb := by
  rintro rfl
  have hv := hf.vinode
  have hB := h.superBlock
  unfold State.vinode at hv
  unfold State.superBlock at hB
  cases hpage : s.pages f <;> simp_all [Page.asVinode, Page.asSuperBlock]

theorem state_writerOf (h : WellFormed s sb B) (hf : s.Loaded sb n f v) :
    (writerOf s B v).state s f sb B = s := by
  have hpage : s.pages f = .vinode v := vinodeKind.eq_inj hf.vinode
  have hpage' : s.pages sb = .superBlock B := superBlockKind.eq_inj h.superBlock
  simp only [Writer.state, writerOf]
  rw [upd_eq_self (f := s.pages) hpage', upd_eq_self hpage]

/-- The file at `f` has been spliced: it holds `buf` at `off`, its old bytes
before and after, and no other file or directory has changed. -/
structure Spliced (s s' : State) (sb f : Ptr) (v : Vinode) (off : Nat) (buf : List UInt8) :
    Prop where
  file : ∃ v', s'.vinode f = some v' ∧ v'.size = max v.size (off + buf.length : Nat) ∧
    v'.toDinode.contents s'.disk = (v.toDinode.contents s.disk).take off ++ buf ++
      (v.toDinode.contents s.disk).drop (off + buf.length)
  others : ∀ n di, n ≠ v.inum → s.Inode sb n di →
    s'.Inode sb n di ∧ di.contents s'.disk = di.contents s.disk

/-- No byte of the file behind the written range is replaced by what the I/O
buffer happens to hold. -/
def TailKept (s : State) (v : Vinode) (off : Nat) (buf : List UInt8) : Prop :=
  ∀ p : Nat, (p : Int) < v.size → Writer.Filled off buf.length p →
    Writer.leftover (dataAt s.disk v.addrs) s.iobuffer off buf p = dataAt s.disk v.addrs p

/-- The bytes of a spliced file, by position. -/
theorem map_eq_splice_iff {g : Nat → UInt8} {size : Nat} (hoff : off ≤ size) :
    (List.range (max size (off + buf.length))).map g =
        ((List.range size).map c).take off ++ buf ++
          ((List.range size).map c).drop (off + buf.length) ↔
      ∀ p < max size (off + buf.length),
        g p = if off ≤ p ∧ p < off + buf.length then buf.getD (p - off) 0 else c p := by
  have hsplice : ((List.range size).map c).take off ++ buf ++
      ((List.range size).map c).drop (off + buf.length) =
      (List.range (max size (off + buf.length))).map fun p =>
        if off ≤ p ∧ p < off + buf.length then buf.getD (p - off) 0 else c p := by
    refine List.ext_getElem (by simp; omega) fun p hp hp' => ?_
    simp only [List.length_map, List.length_range] at hp'
    simp only [List.getElem_map, List.getElem_range]
    by_cases hlt : p < off
    · rw [if_neg (by omega), List.getElem_append_left (by simp; omega),
        List.getElem_append_left (by simp; omega)]
      simp
    · by_cases hin : p < off + buf.length
      · rw [if_pos ⟨by omega, hin⟩, List.getElem_append_left (by simp; omega),
          List.getElem_append_right (by simp; omega)]
        simp [min_eq_left hoff, List.getD_eq_getElem?_getD, List.getElem?_eq_getElem
          (show p - off < buf.length by omega)]
      · rw [if_neg (by omega), List.getElem_append_right (by simp; omega)]
        simp only [List.getElem_drop, List.getElem_map, List.getElem_range, List.length_append,
          List.length_take, List.length_map, List.length_range]
        congr 1
        omega
  rw [hsplice, List.map_inj_left]
  simp

theorem written_eq_splice_iff {size : Nat} :
    (∀ p < max size (off + buf.length), Writer.written c b off buf p =
        if off ≤ p ∧ p < off + buf.length then buf.getD (p - off) 0 else c p) ↔
      ∀ p < size, Writer.Filled off buf.length p → Writer.leftover c b off buf p = c p := by
  constructor
  · intro h p hp hf
    have hout : ¬(off ≤ p ∧ p < off + buf.length) := fun h => absurd h.2 (not_lt.mpr hf.1)
    simpa only [Writer.written, if_neg hout, if_pos hf] using h p (by omega)
  · intro h p hp
    by_cases hin : off ≤ p ∧ p < off + buf.length
    · simp only [Writer.written, if_pos hin]
    · by_cases hf : Writer.Filled off buf.length p
      · have := hf.1
        simp only [Writer.written, if_neg hin, if_pos hf]
        exact h p (by omega) hf
      · simp only [Writer.written, if_neg hin, if_neg hf]

/-- Only the vinode of the file is replaced. -/
theorem Writer.Grew.replaces {v' : Vinode} (h : WellFormed s sb B)
    (hg : Writer.Grew (writerOf s B v) y) (hy : y.Placed)
    (hsame : v'.inum = v.inum ∧ v'.sb = v.sb ∧ v'.iOps = v.iOps) :
    Replaces s ({ y with vinode := v' }.state s f sb B) f v v' where
  self := Writer.vinode_state
  other w hw := by
    by_cases hws : w = sb
    · subst hws
      have hpage : s.pages w = .superBlock B := superBlockKind.eq_inj h.superBlock
      simp [Writer.state, State.vinode, upd_ne hw, hpage, Page.asVinode]
    · simp [Writer.state, State.vinode, upd_ne hw, upd_ne hws]
  same := hsame
  disk n hn := by
    refine diskInode_congr fun blk hblk => hg.frame blk fun i hi => ?_
    have : 12 ≤ addrOf y.vinode.addrs i := (hy.data i hi).1
    omega

/-- Growing one file leaves the contents of every other inode alone. -/
theorem Writer.Grew.contents (h : WellFormed s sb B) (hf : s.Loaded sb v.inum f v)
    (hg : Writer.Grew (writerOf s B v) y) (hy : y.Placed) {di : Dinode} (hn : n ≠ v.inum)
    (hdi : s.Inode sb n di) : di.contents y.disk = di.contents s.disk := by
  have hplaced := h.shape n di hdi
  refine Dinode.contents_congr hplaced fun blk hblk => hg.frame _ fun i hi heq => ?_
  have h12 : 12 ≤ addrOf y.vinode.addrs i := (hy.data i hi).1
  obtain ⟨j, hj, rfl⟩ := hblk
  have hjd := hplaced.data j hj
  have haddr : addrOf y.vinode.addrs i = addrOf di.addrs j := by omega
  by_cases hold : (i : Int) < v.blocks
  · refine h.apart _ _ _ _ hf.inode hdi (Ne.symm hn) _ ⟨i, hold, ?_⟩ ⟨j, hj, rfl⟩
    rw [← haddr, hg.old i hold]
    rfl
  · have hfree := hg.fresh i (not_lt.mp hold) hi
    rw [haddr] at hfree
    exact hplaced.used j hj hfree

/-- `rfs_write` returns the length of what it wrote, and what it leaves is the
splice exactly when no old byte behind the written range is lost. -/
theorem rfs_write_splices_iff (h : WellFormed s sb B) (hf : s.Loaded sb v.inum f v) {off : Nat}
    (hoff : (off : Int) ≤ v.size) {buf : List UInt8}
    (hcap : off + buf.length ≤ directBlknum * 4096)
    (hspace : (Writer.blocksFor (off + buf.length) : Int) ≤ v.blocks + (freeBlocks B.freemap).card) :
    ∃ s', rfsWrite f buf off s =
        .ok (((buf.length : Int), ((off + buf.length : Nat) : Int)), s') ∧
      (Spliced s s' sb f v off buf ↔ TailKept s v off buf) := by
  have hx : (writerOf s B v).Placed := h.shape _ _ hf.inode
  have hsize : v.size ≤ v.blocks * 4096 := hx.size.2
  obtain ⟨_, _, hrun, rfl, y, ⟨hgrew, hy, hblocks, hbyte⟩, rfl⟩ := (Writer.rfsWrite_spec (s := s)
    (x := writerOf s B v) (E := fun _ => False) (h.ne_sb hf) h.nblocks hf.sb hx hoff hcap
    (not_lt.mpr hspace)).returns nofun
  rw [state_writerOf h hf] at hrun
  refine ⟨_, hrun, ?_⟩
  have hmax : (max v.size ((off + buf.length : Nat) : Int)).toNat =
      max v.size.toNat (off + buf.length) := by omega
  have hbound : max v.size.toNat (off + buf.length) ≤ (y.vinode.blocks * 4096).toNat := by
    rw [hblocks]
    have : (writerOf s B v).vinode.blocks = v.blocks := rfl
    unfold Writer.blocksFor
    omega
  -- the new contents by position
  have hcontents : ((List.range (max v.size ((off + buf.length : Nat) : Int)).toNat).map
      (dataAt y.disk y.vinode.addrs) = (v.toDinode.contents s.disk).take off ++ buf ++
        (v.toDinode.contents s.disk).drop (off + buf.length)) ↔ TailKept s v off buf := by
    rw [hmax]
    refine (map_eq_splice_iff (c := dataAt s.disk v.addrs) (by omega)).trans ?_
    refine Iff.trans (forall₂_congr fun p hp => ?_)
      ((written_eq_splice_iff (c := dataAt s.disk v.addrs) (b := s.iobuffer)).trans
        (forall_congr' fun p => ?_))
    · have hpy : dataAt y.disk y.vinode.addrs p = _ := hbyte p (by omega)
      rw [hpy]
      rfl
    · rw [Int.lt_toNat]
  constructor
  · rintro ⟨⟨v', hv', -, hc⟩, -⟩
    obtain rfl := Option.some.inj (Writer.vinode_state.symm.trans hv')
    exact hcontents.mp hc
  · intro hkept
    have hr : Replaces s _ f v
        { y.vinode with size := max v.size ((off + buf.length : Nat) : Int) } :=
      hgrew.replaces h hy (by rw [hgrew.vinode]; exact ⟨rfl, rfl, rfl⟩)
    exact ⟨⟨_, hr.self, rfl, hcontents.mpr hkept⟩, fun n di hn hdi =>
      ⟨(hr.inode_ne hf hn).mpr hdi, hgrew.contents h hf hy hn hdi⟩⟩

/-! ## Images with few inodes -/

/-- The inodes are those of the vinodes `L`; the others have no data. -/
structure OnlyInodes (s : State) (sb : Ptr) (L : List (Ptr × Vinode)) : Prop where
  vinode : ∀ w v, s.vinode w = some v → (w, v) ∈ L
  onDisk : ∀ n, InodeNum n → (∀ w v, ¬s.Loaded sb n w v) →
    (diskInode s.disk n).size = 0 ∧ (diskInode s.disk n).blocks = 0

/-- Two inodes without a common block. -/
def Vinode.Apart (v v' : Vinode) : Prop :=
  v.inum ≠ v'.inum ∧ ∀ blk, v.toDinode.HasBlock blk → ¬v'.toDinode.HasBlock blk

section

variable {L : List (Ptr × Vinode)} {sb : Ptr} {B : SuperBlock} {di : Dinode}

theorem OnlyInodes.inode (h : OnlyInodes s sb L) (hdi : s.Inode sb n di) :
    (∃ p ∈ L, p.2.inum = n ∧ di = p.2.toDinode) ∨ (di.size = 0 ∧ di.blocks = 0) := by
  rcases hdi with ⟨hl⟩ | ⟨hno, hn, -⟩
  · exact .inl ⟨_, h.vinode _ _ hl.vinode, hl.inum, rfl⟩
  · exact .inr (h.onDisk n hn hno)

theorem OnlyInodes.wellFormed (h : OnlyInodes s sb L) (hsb : s.superBlock sb = some B)
    (hnb : B.nblocks = 100) (hnum : ∀ p ∈ L, InodeNum p.2.inum)
    (hplaced : ∀ p ∈ L, p.2.toDinode.Placed B.freemap)
    (hapart : L.Pairwise fun p q => p.2.Apart q.2) : WellFormed s sb B := by
  have hsymm : Std.Symm fun p q : Ptr × Vinode => p.2.Apart q.2 :=
    ⟨fun _ _ hpq => ⟨hpq.1.symm, fun blk hq hp => hpq.2 blk hp hq⟩⟩
  refine ⟨hsb, hnb, fun n w v hl => ?_, fun n w v w' v' hl hl' => ?_, fun n di hdi => ?_,
    fun n n' di di' hdi hdi' hne blk hblk hblk' => ?_⟩
  · rw [← hl.inum]
    exact hnum _ (h.vinode _ _ hl.vinode)
  · by_contra hw
    exact (hapart.forall (h.vinode _ _ hl.vinode) (h.vinode _ _ hl'.vinode)
      fun heq => hw (congrArg Prod.fst heq)).1 (hl.inum.trans hl'.inum.symm)
  · rcases h.inode hdi with ⟨p, hp, -, rfl⟩ | ⟨hsize, hblocks⟩
    · exact hplaced p hp
    · exact ⟨by omega, by omega, fun i hi => by omega, fun i hi => by omega,
        fun i j hi hj _ => by omega⟩
  · rcases h.inode hdi with ⟨p, hp, hn, rfl⟩ | ⟨-, hz⟩
    · rcases h.inode hdi' with ⟨q, hq, hn', rfl⟩ | ⟨-, hz⟩
      · have hpq : p ≠ q := fun heq => hne (by rw [← hn, ← hn', heq])
        exact (hapart.forall hp hq hpq).2 blk hblk hblk'
      · obtain ⟨i, hi, -⟩ := hblk'
        omega
    · obtain ⟨i, hi, -⟩ := hblk
      omega

/-- One block in use, at place 0 of the block list. -/
theorem placed_one {m : Nat → Int} (hblocks : di.blocks = 1) (hsize : 0 ≤ di.size ∧ di.size ≤ 4096)
    (haddr : 12 ≤ addrOf di.addrs 0 ∧ addrOf di.addrs 0 < 112)
    (hused : m (addrOf di.addrs 0 - 12).toNat ≠ 0) : di.Placed m := by
  have hzero : ∀ i : Nat, (i : Int) < di.blocks → i = 0 := fun i hi => by omega
  refine ⟨by omega, by omega, fun i hi => ?_, fun i hi => ?_, fun i j hi hj _ => ?_⟩
  · rw [hzero i hi]
    exact haddr
  · rw [hzero i hi]
    exact hused
  · rw [hzero i hi, hzero j hj]

theorem hasBlock_one {blk : Int} (hblocks : di.blocks = 1) (h : di.HasBlock blk) :
    blk = addrOf di.addrs 0 := by
  obtain ⟨i, hi, rfl⟩ := h
  obtain rfl : i = 0 := by omega
  rfl

end

/-! ## A file of two bytes -/

/-- The vinode of a file with the bytes 1 and 2 in block 13. -/
def twoBytesFile : Vinode where
  inum := 1
  ref := 1
  size := 2
  type := fileI
  nlinks := 1
  blocks := 1
  addrs _ := 13
  iFsInfo := 0
  sb := 4096
  iOps := .rfs

theorem twoBytesFile_fits : twoBytesFile.toDinode.Fits :=
  Dinode.fits_mk (by decide) (by decide) (by decide) (by decide) (by decide)

/-- The superblock; the blocks 12 and 13 are in use. -/
def twoBytesSb : SuperBlock where
  magic := rfsMagic
  size := 112
  nblocks := 100
  ninodes := 320
  sRoot := 0
  freemap k := if k < 2 then 1 else 0

/-- A state with that file, whose last transfer left zeros in the I/O buffer. -/
def twoBytes : State :=
  { State.zero with
    disk := fun blk j => if blk = 13 then UInt8.ofNat (j + 1) else 0
    pages := fun p => if p = 4096 then .superBlock twoBytesSb
      else if p = 8192 then .vinode twoBytesFile else .free
    vfsSbList := [4096] }

theorem twoBytes_vinode {w : Ptr} {u : Vinode} (h : twoBytes.vinode w = some u) :
    w = 8192 ∧ u = twoBytesFile := by
  simp only [State.vinode, twoBytes] at h
  split at h
  · simp [Page.asVinode] at h
  · split at h
    · rename_i hw
      exact ⟨hw, by simpa [Page.asVinode] using h.symm⟩
    · simp [Page.asVinode] at h

theorem twoBytes_loaded : twoBytes.Loaded 4096 twoBytesFile.inum 8192 twoBytesFile :=
  ⟨rfl, rfl, rfl, rfl⟩

/-- The inodes on disk are empty files. -/
theorem twoBytes_onDisk (hn : InodeNum n) :
    (diskInode twoBytes.disk n).size = 0 ∧ (diskInode twoBytes.disk n).blocks = 0 := by
  have hblk := inodeBlock_range hn
  have hzero : twoBytes.disk (inodeBlock n) = fun _ => 0 := by
    funext j
    simp only [twoBytes]
    rw [if_neg (by omega)]
  have hint : ∀ off, getInt (fun _ => 0) off = 0 := by
    intro off
    simp only [getInt]
    decide
  simp only [diskInode, if_pos hn, hzero, getDinode, hint, and_self]

theorem twoBytesFile_placed : twoBytesFile.toDinode.Placed twoBytesSb.freemap :=
  placed_one rfl (by decide) (by decide) (by decide)

theorem twoBytes_wellFormed : WellFormed twoBytes 4096 twoBytesSb := by
  have honly : OnlyInodes twoBytes 4096 [(8192, twoBytesFile)] :=
    ⟨fun w v h => by simp [twoBytes_vinode h], fun n hn _ => twoBytes_onDisk hn⟩
  refine honly.wellFormed rfl rfl ?_ ?_ (List.pairwise_singleton _ _)
  · simp [show InodeNum twoBytesFile.inum by decide]
  · simpa using twoBytesFile_placed

/-- A byte written at the start of the file, which loses the other one. -/
theorem rfs_write_loses_tail : WellFormed twoBytes 4096 twoBytesSb ∧
    twoBytes.Loaded 4096 twoBytesFile.inum 8192 twoBytesFile ∧
    ∃ s', rfsWrite 8192 [9] 0 twoBytes = .ok ((1, 1), s') ∧
      ¬Spliced twoBytes s' 4096 8192 twoBytesFile 0 [9] := by
  refine ⟨twoBytes_wellFormed, twoBytes_loaded, ?_⟩
  have hrun : ((rfsWrite 8192 [9] 0 twoBytes).toOption.map fun r =>
      (r.1, (r.2.vinode 8192).map fun u => u.toDinode.contents r.2.disk)) =
      some ((1, 1), some [9, 0]) := by decide
  have hold : twoBytesFile.toDinode.contents twoBytes.disk = [1, 2] := by decide
  cases hres : rfsWrite 8192 [9] 0 twoBytes with
  | error e => simp [hres, Except.toOption] at hrun
  | ok r =>
      simp only [hres, Except.toOption, Option.map_some, Option.some.injEq, Prod.mk.injEq] at hrun
      refine ⟨r.2, by rw [← hrun.1], fun hs => ?_⟩
      obtain ⟨u, hu, -, hc⟩ := hs.file
      rw [hu, Option.map_some, hc, hold] at hrun
      exact absurd hrun.2 (by decide)

theorem rfs_write_splices_iff_two : ∃ s', rfsWrite 8192 [9, 8] (0 : Nat) twoBytes =
      .ok (((2 : Nat), ((0 + 2 : Nat) : Int)), s') ∧
    (Spliced twoBytes s' 4096 8192 twoBytesFile 0 [9, 8] ↔
      TailKept twoBytes twoBytesFile 0 [9, 8]) :=
  rfs_write_splices_iff twoBytes_wellFormed twoBytes_loaded (by decide) (by decide) (by decide)

end

end Pke
