import Pke.Splice

/-!
# The block walk of `rfs_read`

`rfs_read` gathers the bytes of the request in a local buffer, block by
block, and only then copies them out. The buffer `rfsGather` leaves
is one `memcpy` of the file's bytes and the terminating zero
(`Vinode.FileTable.gather`), whatever the alignment of the request and
whichever way the blocks of the file are fetched.
-/

namespace Pke

open Exec (fault get ofOption bind_of_ok)

/-! ## One copy -/

/-- Two copies next to each other are one. -/
theorem memcpy_append (dst : Block) (off a b : Nat) (src : Nat → UInt8) :
    memcpy (memcpy dst off a src) (off + a) b (fun j => src (a + j)) =
      memcpy dst off (a + b) src := by
  funext j
  simp only [memcpy]
  split
  · rw [if_pos (by omega), show a + (j - (off + a)) = j - off by omega]
  · split
    · rw [if_pos (by omega)]
    · rw [if_neg (by omega)]

theorem memcpy_congr {dst : Block} {off len : Nat} {src src' : Nat → UInt8}
    (h : ∀ j < len, src j = src' j) : memcpy dst off len src = memcpy dst off len src' := by
  funext j
  simp only [memcpy]
  split
  · exact h _ (by omega)
  · rfl

/-- Byte `j` of the block at `i` is byte `i * 4096 + j` of the file. -/
theorem byteAt_block (d : Nat → Block) (v : Vinode) {i j : Nat} (h : j < 4096) :
    d (addrOf v.addrs i).toNat j = byteAt d v (i * 4096 + j) := by
  unfold byteAt
  rw [show (i * 4096 + j) / 4096 = i by omega, show (i * 4096 + j) % 4096 = j by omega]

/-- The vinode of a file: its size fits its blocks, and these are blocks of the disk. -/
structure Vinode.FileTable (v : Vinode) : Prop where
  size : v.size ≤ v.blocks * 4096
  blocks : 1 ≤ v.blocks ∧ v.blocks ≤ directBlknum
  data : ∀ i : Nat, (i : Int) < v.blocks →
    0 ≤ addrOf v.addrs i ∧ addrOf v.addrs i < ramdiskBlockCount

/-- A transfer that brings each block of the file into the device's buffer. -/
def Vinode.Fetches (v : Vinode) (r1block : Int → Kern Int) : Prop :=
  ∀ i : Nat, (i : Int) < v.blocks → ∀ s : State, r1block (addrOf v.addrs i) s =
    .ok (0, { s with iobuffer := s.disk (addrOf v.addrs i).toNat })

/-- How much of a file is read. -/
def readLen (size : Int) (off len : Nat) : Nat := min len (size - off).toNat

section

variable {s : State} {f : Ptr} {v : Vinode}

namespace Vinode.FileTable

theorem fetches (h : v.FileTable) : v.Fetches rfsR1block :=
  fun i hi _ => rfsR1block_run (h.data i hi)

/-- The loop over `readtimes` ends after as many blocks, and has copied all of them. -/
theorem gatherBlocks (h : v.FileTable) {n : Nat} :
    ∀ (i bo : Nat) (buf : Block) (s : State), ((i + n : Nat) : Int) ≤ v.blocks →
      ∃ io, ∀ r1, v.Fetches r1 → rfsReadBlocks r1 v.addrs n buf bo i s =
        .ok ((memcpy buf bo (n * 4096) fun j => byteAt s.disk v (i * 4096 + j),
          ((bo + n * 4096 : Nat) : Int), ((i + n : Nat) : Int)), { s with iobuffer := io }) := by
  have hten : v.blocks ≤ 10 := h.blocks.2
  induction n with
  | zero =>
      intro i bo buf s _
      refine ⟨s.iobuffer, fun r1 _ => ?_⟩
      have hnone : memcpy buf bo (0 * 4096) (fun j => byteAt s.disk v (i * 4096 + j)) = buf := by
        funext j
        exact memcpy_out (by omega)
      rw [hnone]
      rfl
  | succ n ih =>
      intro i bo buf s hle
      let blk : Block := s.disk (addrOf v.addrs i).toNat
      obtain ⟨io, hrest⟩ := ih (i + 1) (bo + 4096) (memcpy buf bo 4096 blk)
        { s with iobuffer := blk } (by omega)
      refine ⟨io, fun r1 hr1 => ?_⟩
      have hblk : memcpy buf bo 4096 blk =
          memcpy buf bo 4096 fun j => byteAt s.disk v (i * 4096 + j) :=
        memcpy_congr fun j hj => byteAt_block s.disk v hj
      have hjoin := memcpy_append buf bo 4096 (n * 4096) fun j => byteAt s.disk v (i * 4096 + j)
      have hnext : (fun j => byteAt s.disk v (i * 4096 + (4096 + j))) =
          fun j => byteAt s.disk v ((i + 1) * 4096 + j) := by
        funext j
        rw [show i * 4096 + (4096 + j) = (i + 1) * 4096 + j by omega]
      rw [hnext, ← hblk] at hjoin
      rw [show (n + 1) * 4096 = 4096 + n * 4096 by omega, ← hjoin, ← Nat.add_assoc bo,
        show i + (n + 1) = i + 1 + n by omega, ← hrest r1 hr1, rfsReadBlocks,
        bind_of_ok (addrAt_run (by omega)), bind_of_ok (hr1 i (by omega) s)]
      rfl

/-- The complete blocks and the rest of the last one. -/
theorem gatherRest (h : v.FileTable) (i t rem bo : Nat) (buf : Block) (s : State)
    (hrem : rem < 4096)
    (hle : ((i * 4096 + (t * 4096 + rem) : Nat) : Int) ≤ v.blocks * 4096) :
    ∃ io, ∀ r1, v.Fetches r1 → rfsReadRest r1 v.addrs ((t + 1 : Nat) : Int) rem buf bo i s =
      .ok (memcpy buf bo (t * 4096 + rem) fun j => byteAt s.disk v (i * 4096 + j),
        { s with iobuffer := io }) := by
  have hten : v.blocks ≤ 10 := h.blocks.2
  obtain ⟨io, hblocks⟩ := h.gatherBlocks (n := t) i bo buf s (by omega)
  have hstart : ∀ r1, v.Fetches r1 → rfsReadRest r1 v.addrs ((t + 1 : Nat) : Int) rem buf bo i s =
      (if (rem : Int) > 0 then do
        let block ← addrAt v.addrs (i + t : Nat)
        let _ ← r1 block
        let s' ← get
        pure (memcpy (memcpy buf bo (t * 4096) fun j => byteAt s.disk v (i * 4096 + j))
          (bo + t * 4096) rem s'.iobuffer)
      else pure (memcpy buf bo (t * 4096) fun j => byteAt s.disk v (i * 4096 + j)))
        { s with iobuffer := io } := by
    intro r1 hr1
    rw [rfsReadRest, if_pos (by omega), show (((t + 1 : Nat) : Int) - 1).toNat = t by omega,
      bind_of_ok (hblocks r1 hr1)]
    rfl
  by_cases hzero : rem = 0
  · subst hzero
    refine ⟨io, fun r1 hr1 => ?_⟩
    rw [hstart r1 hr1, if_neg (by omega), Nat.add_zero]
    rfl
  · have hlast : memcpy (memcpy buf bo (t * 4096) fun j => byteAt s.disk v (i * 4096 + j))
        (bo + t * 4096) rem (s.disk (addrOf v.addrs (i + t)).toNat) =
        memcpy buf bo (t * 4096 + rem) fun j => byteAt s.disk v (i * 4096 + j) := by
      rw [← memcpy_append]
      refine memcpy_congr fun j hj => ?_
      rw [byteAt_block s.disk v (by omega),
        show (i + t) * 4096 + j = i * 4096 + (t * 4096 + j) by omega]
    refine ⟨s.disk (addrOf v.addrs (i + t)).toNat, fun r1 hr1 => ?_⟩
    rw [hstart r1 hr1, if_pos (by omega), bind_of_ok (addrAt_run (by omega)),
      bind_of_ok (hr1 (i + t) (by omega) _), ← hlast]
    rfl

/-- The whole walk is one copy of the file's bytes and a zero behind it. -/
theorem gather (h : v.FileTable) (hv : s.vinode f = some v) {off : Nat}
    (hoff : (off : Int) ≤ v.size) (hin : (off : Int) < v.blocks * 4096) (len : Nat)
    (buffer : Block) : ∃ io, ∀ r1, v.Fetches r1 → rfsGather r1 f len off buffer s =
      .ok (((readLen v.size off len : Nat),
        upd (memcpy buffer 0 (readLen v.size off len) fun j => byteAt s.disk v (off + j))
          (readLen v.size off len) 0), { s with iobuffer := io }) := by
  have hten : v.blocks ≤ 10 := h.blocks.2
  have hsize := h.size
  have hlen : (if v.size < (off : Int) + len then v.size - off else (len : Int)) =
      (readLen v.size off len : Int) := by
    unfold readLen
    split <;> omega
  have hfit : ((off + readLen v.size off len : Nat) : Int) ≤ v.size := by
    unfold readLen
    omega
  generalize readLen v.size off len = n at hlen hfit
  let blk : Block := s.disk (addrOf v.addrs (off / 4096)).toNat
  have hstart : ∀ r1, v.Fetches r1 → rfsGather r1 f len off buffer s =
      (do
        let buffer ← rfsReadRest r1 v.addrs (((off % 4096 + n) / 4096 : Nat) : Int)
          (((off % 4096 + n) % 4096 : Nat) : Int)
          (memcpy buffer 0
            (if (off % 4096 + n) / 4096 = 0 then n else 4096 - off % 4096)
            fun j => blk (off % 4096 + j))
          ((if (off % 4096 + n) / 4096 = 0 then n else 4096 - off % 4096 : Nat) : Int)
          ((off / 4096 + 1 : Nat) : Int)
        pure ((n : Int), upd buffer n 0) : Kern (Int × Block)) { s with iobuffer := blk } := by
    intro r1 hr1
    rw [rfsGather, bind_of_ok (getVinode_run hv), if_neg (by omega)]
    simp only [hlen]
    simp only [tmod_rfsBlksize, tdiv_rfsBlksize, ← Int.natCast_add]
    rw [bind_of_ok (addrAt_run (by omega)), bind_of_ok (hr1 _ (by omega) s)]
    have hfirst : (if (((off % 4096 + n) / 4096 : Nat) : Int) = 0 then (n : Int)
        else rfsBlksize - ((off % 4096 : Nat) : Int)) =
        ((if (off % 4096 + n) / 4096 = 0 then n else 4096 - off % 4096 : Nat) : Int) := by
      simp only [rfsBlksize]
      split <;> split <;> omega
    rw [hfirst]
    rfl
  have hblk : ∀ len' ≤ 4096 - off % 4096, memcpy buffer 0 len' (fun j => blk (off % 4096 + j)) =
      memcpy buffer 0 len' fun j => byteAt s.disk v (off + j) := by
    intro len' hlen'
    refine memcpy_congr fun j hj => ?_
    show s.disk (addrOf v.addrs (off / 4096)).toNat (off % 4096 + j) = _
    rw [byteAt_block s.disk v (by omega),
      show off / 4096 * 4096 + (off % 4096 + j) = off + j by omega]
  by_cases hone : (off % 4096 + n) / 4096 = 0
  · -- the request ends in the first block, before its end
    refine ⟨blk, fun r1 hr1 => ?_⟩
    rw [hstart r1 hr1, hone, if_pos rfl, hblk n (by omega), rfsReadRest, if_neg (by omega)]
    rfl
  · obtain ⟨t, ht⟩ := Nat.exists_eq_succ_of_ne_zero hone
    obtain ⟨io, hrest⟩ := h.gatherRest (off / 4096 + 1) t ((off % 4096 + n) % 4096)
      (4096 - off % 4096) (memcpy buffer 0 (4096 - off % 4096) fun j => byteAt s.disk v (off + j))
      { s with iobuffer := blk } (by omega) (by omega)
    refine ⟨io, fun r1 hr1 => ?_⟩
    rw [hstart r1 hr1, if_neg hone, hblk _ (le_refl _), ht, bind_of_ok (hrest r1 hr1)]
    have hjoin := memcpy_append buffer 0 (4096 - off % 4096) (t * 4096 + (off % 4096 + n) % 4096)
      fun j => byteAt s.disk v (off + j)
    have hnext : (fun j => byteAt s.disk v (off + (4096 - off % 4096 + j))) =
        fun j => byteAt s.disk v ((off / 4096 + 1) * 4096 + j) := by
      funext j
      rw [show off + (4096 - off % 4096 + j) = (off / 4096 + 1) * 4096 + j by omega]
    rw [hnext, Nat.zero_add,
      show 4096 - off % 4096 + (t * 4096 + (off % 4096 + n) % 4096) = n by omega] at hjoin
    show Except.ok (((n : Int), upd (memcpy (memcpy _ _ _ _) _ _ fun j =>
      byteAt s.disk v _) n 0), _) = _
    rw [hjoin]

end Vinode.FileTable

/-- What a read of `n` bytes at `off` leaves in the local buffer: the bytes of the file,
the zero, and behind it what was there. -/
structure Gathered (d : Nat → Block) (v : Vinode) (off n : Nat) (buffer buffer' : Block) :
    Prop where
  bytes : ∀ j < n, buffer' j = byteAt d v (off + j)
  stop : buffer' n = 0
  past : ∀ j > n, buffer' j = buffer j

theorem gathered_memcpy (d : Nat → Block) (v : Vinode) (off n : Nat) (buffer : Block) :
    Gathered d v off n buffer
      (upd (memcpy buffer 0 n fun j => byteAt d v (off + j)) n 0) where
  bytes j hj := by rw [upd_ne (by omega), memcpy_zero hj]
  stop := upd_self ..
  past j hj := by rw [upd_ne (by omega), memcpy_out (by omega)]

/-- For every file whose size fits its blocks and every offset before its end, `rfs_read`
returns the length `n = min (len, size - offset)` and adds it to the offset, and its local
buffer then holds bytes `offset .. offset + n - 1` of the file's blocks, with nothing
changed behind the zero at `n`. -/
theorem rfs_read_gathers (hv : s.vinode f = some v) (hsize : v.size ≤ v.blocks * rfsBlksize)
    (hblocks : v.blocks ≤ directBlknum)
    (hdata : ∀ i : Nat, (i : Int) < v.blocks →
      0 ≤ addrOf v.addrs i ∧ addrOf v.addrs i < ramdiskBlockCount)
    {off : Nat} (hoff : (off : Int) < v.size) (len : Nat) (buffer : Block) :
    ∃ (n : Nat) (buffer' io : Block), (n : Int) = min (len : Int) (v.size - off) ∧
      rfsGather rfsR1block f len off buffer s = .ok (((n : Int), buffer'), { s with iobuffer := io }) ∧
      Gathered s.disk v off n buffer buffer' ∧
      rfsRead f len off buffer s =
        .ok (((n : Int), (off : Int) + n, cstr buffer' 0 n ++ [0]), { s with iobuffer := io }) := by
  have htable : v.FileTable := by
    simp only [rfsBlksize] at hsize
    exact ⟨hsize, ⟨by omega, hblocks⟩, hdata⟩
  obtain ⟨io, hgather⟩ := htable.gather hv hoff.le (hoff.trans_le hsize) len buffer
  have hrun := hgather _ htable.fetches
  refine ⟨readLen v.size off len, _, io, ?_, hrun, gathered_memcpy s.disk v off _ buffer, ?_⟩
  · unfold readLen
    omega
  · rw [rfsRead, rfsReadBy, bind_of_ok hrun]
    rfl

end

/-- A file of two blocks, the second not full. -/
def acrossFile : Vinode :=
  { twoBytesFile with size := 5000, blocks := 2, addrs := fun i => if i = 0 then 15 else 13 }

def across : State := twoBytes.setPage 8192 (.vinode acrossFile)

theorem rfs_read_gathers_across : ((4000 : Nat) : Int) < acrossFile.size ∧
    ∃ (n : Nat) (buffer' io : Block), (n : Int) = min ((2000 : Nat) : Int) (5000 - (4000 : Nat)) ∧
      rfsGather rfsR1block 8192 (2000 : Nat) (4000 : Nat) (fun _ => 1) across =
        .ok (((n : Int), buffer'), { across with iobuffer := io }) ∧
      Gathered across.disk acrossFile 4000 n (fun _ => 1) buffer' ∧
      rfsRead 8192 (2000 : Nat) (4000 : Nat) (fun _ => 1) across =
        .ok (((n : Int), ((4000 : Nat) : Int) + n, cstr buffer' 0 n ++ [0]),
          { across with iobuffer := io }) := by
  have hdata : ∀ i : Nat, (i : Int) < acrossFile.blocks →
      0 ≤ addrOf acrossFile.addrs i ∧ addrOf acrossFile.addrs i < ramdiskBlockCount := by
    intro i hi
    have hi : (i : Int) < 2 := hi
    have hcases : i = 0 ∨ i = 1 := by omega
    rcases hcases with rfl | rfl <;> decide
  exact ⟨by decide, rfs_read_gathers rfl (by decide) (by decide) hdata (by decide) 2000 fun _ => 1⟩

end Pke
