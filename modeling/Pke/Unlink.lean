import Pke.DirEntries

/-!
# Removing an entry from a directory of any size

`rfs_unlink` closes the gap an entry leaves by moving every later entry
one slot forward, block by block: the block of the entry is shifted from
its slot on, every later block from its start, and the slot that becomes
free at the end of a block is filled with the first entry of the next
one (`closedBlock`). Read by position (`dirEntryAt`) the directory has lost
one entry.

The statements are about runs that return, so they put no condition on
the disk inode of the unlinked file beyond what the code looks at.
-/

namespace Pke

open Exec (Post)

/-- If `x` returns, it returns into `Q`. -/
abbrev Returns {α : Type} (x : Kern α) (s : State) (Q : α → State → Prop) : Prop :=
  Post x s Q fun _ => True

variable {i k n : Nat} {B : SuperBlock} {parent : Ptr} {v : Vinode}

section

variable {s : State} {o : Objs} {d : Nat → Block} {b : Block} {R : List Ptr}

theorem returns_addr {α : Type} {Q : α → State → Prop} {addrs : Fin directBlknum → Int}
    {f : Int → Kern α} (hf : Returns (f (addrOf addrs i)) s Q) :
    Returns (addrAt addrs i >>= f) s Q := by
  refine .bind (addrAt_post fun _ => trivial) ?_
  rintro _ _ ⟨rfl, -, rfl⟩
  exact hf

/-! ## The name dropped from its inode -/

/-- Freeing blocks changes the freemap only at these blocks. -/
def ClearsOnly (addrs : Fin directBlknum → Int) (n i : Nat) (m m' : Nat → Int) : Prop :=
  ∀ k : Nat, (∀ j, i ≤ j → j < i + n → addrOf addrs j ≠ 12 + k) → m' k = m k

theorem rfsFreeBlock_returns {sb : Ptr} {blk : Int} (h : Holds s o d b R)
    (hB : o.superBlock sb = some B) : Returns (rfsFreeBlock sb blk) s fun _ s' => 12 ≤ blk ∧
      Holds s' (o.withMap sb B (upd B.freemap (blk - 12).toNat 0)) d b R := by
  refine post_known superBlockKind h hB (.ite (fun _ => .fault trivial) fun hin => ?_)
  exact .modify ⟨not_lt.mp (not_or.mp hin).1, h.set (K := superBlockKind) hB _⟩

theorem rfsFreeBlocks_returns {sb : Ptr} {addrs : Fin directBlknum → Int} :
    ∀ {n i : Nat} {s : State} {o : Objs} {B : SuperBlock}, Holds s o d b R →
      o.superBlock sb = some B →
      Returns (rfsFreeBlocks sb addrs n i) s fun _ s' =>
        ∃ m, ClearsOnly addrs n i B.freemap m ∧ Holds s' (o.withMap sb B m) d b R
  | 0, i, s, o, B, h, hB => by
      refine .pure ⟨B.freemap, fun _ _ => rfl, ?_⟩
      rw [Objs.withMap_self hB]
      exact h
  | n + 1, i, s, o, B, h, hB => by
      unfold rfsFreeBlocks
      refine returns_addr ((rfsFreeBlock_returns h hB).bind ?_)
      rintro _ s1 ⟨hlo, h1⟩
      have hB1 : (o.withMap sb B (upd B.freemap (addrOf addrs i - 12).toNat 0)).superBlock sb =
          some { B with freemap := upd B.freemap (addrOf addrs i - 12).toNat 0 } := upd_self _ _ _
      refine (rfsFreeBlocks_returns (n := n) (i := i + 1) h1 hB1).mono fun _ s2 hm => ?_
      obtain ⟨m, hclear, h2⟩ := hm
      refine ⟨m, fun k hk => ?_, ?_⟩
      · rw [hclear k fun j hj hj' => hk j (by omega) (by omega)]
        have hne := hk i (by omega) (by omega)
        exact upd_ne (by omega)
      · simpa [Objs.withMap] using h2

/-- The objects after `rfs_unlink` has taken a name from the vinode at `u`. -/
def dropObjs (o : Objs) (sb u : Ptr) (B : SuperBlock) (uv : Vinode) (m : Nat → Int) : Objs :=
  { o with vinode := upd o.vinode u (some { uv with nlinks := uv.nlinks - 1 }) }.withMap sb B m

theorem rfsDropLink_returns {sb u : Ptr} {inum : Int} {uv : Vinode} (h : Holds s o d b R)
    (hB : o.superBlock sb = some B) (hu : o.vinode u = some uv) (hn : InodeNum inum) :
    Returns (rfsDropLink sb inum u) s fun _ s' => ∃ di m,
      ClearsOnly (diskInode d inum).addrs (diskInode d inum).blocks.toNat 0 B.freemap m ∧
      Ends s' (dropObjs o sb u B uv m) (writeInode d di inum) R := by
  refine (rfsReadDinode_post h hn trivial).bind ?_
  rintro _ s1 ⟨page, rfl, hpage, h1⟩
  refine .bindOption nofun fun r hr => ?_
  obtain rfl := Option.some.inj hr
  refine post_known vinodeKind h1 hu (.ite (fun _ => .fault trivial) fun _ => ?_)
  refine post_set vinodeKind h1 hu fun s2 h2 => .ite (fun _ => ?_) fun _ => ?_
  · refine (rfsFreeBlocks_returns h2 hB).bind fun _ s3 hm => ?_
    obtain ⟨m, hclear, h3⟩ := hm
    refine (rfsWriteDinode_post h3 hn).bind ?_
    rintro _ s4 ⟨rfl, b4, h4⟩
    exact (freePage_raw h4 hpage).mono fun _ s5 h5 => ⟨_, m, hclear, b4, h5⟩
  · refine (rfsWriteDinode_post h2 hn).bind ?_
    rintro _ s4 ⟨rfl, b4, h4⟩
    refine (freePage_raw h4 hpage).mono fun _ s5 h5 =>
      ⟨{ diskInode d inum with nlinks := uv.nlinks - 1 }, B.freemap, fun _ _ => rfl, b4, ?_⟩
    have hself := Objs.withMap_self (o := { o with
      vinode := upd o.vinode u (some { uv with nlinks := uv.nlinks - 1 }) }) hB
    rw [dropObjs, hself]
    exact h5

/-! ## The gap closed -/

/-- Block `j` of a directory with the entries after `k` moved forward by one,
but for the slot at its end. -/
def shiftedBlock (d : Nat → Block) (addrs : Fin directBlknum → Int) (k j : Nat) : Block :=
  eraseDirentry (d (addrOf addrs j).toNat) (if j = k / 128 then k % 128 else 0)

/-- Block `j` of a directory of `n` blocks after the removal of entry `k`: the
slot at its end is filled from the next block. -/
def closedBlock (d : Nat → Block) (addrs : Fin directBlknum → Int) (n k j : Nat) : Block :=
  if j + 1 < n then memcpy (shiftedBlock d addrs k j) (127 * 32) 32 (d (addrOf addrs (j + 1)).toNat)
  else shiftedBlock d addrs k j

/-- The blocks of a directory are different ones. -/
def Distinct (addrs : Fin directBlknum → Int) (n : Nat) : Prop :=
  ∀ i j, i < n → j < n → (addrOf addrs i).toNat = (addrOf addrs j).toNat → i = j

/-- Blocks `c`, ... of the directory are closed, up to and without `n`; no other
block has changed. -/
def Closes (addrs : Fin directBlknum → Int) (d0 d d' : Nat → Block) (total k c n : Nat) : Prop :=
  (∀ j, c ≤ j → j < n → d' (addrOf addrs j).toNat = closedBlock d0 addrs total k j) ∧
    ∀ blk, (∀ j, c ≤ j → j < n → (addrOf addrs j).toNat ≠ blk) → d' blk = d blk

/-- The loop of `rfs_unlink`, when `c` is the block that has been copied and
shifted last. `d0` is the disk before the loop. -/
theorem rfsShiftBlocks_returns {addrs : Fin directBlknum → Int} {d0 : Nat → Block} {n k : Nat}
    (hinj : Distinct addrs n) :
    ∀ {m c : Nat} {s : State} {d : Nat → Block} {b : Block} {page : Ptr}, c + 1 + m = n →
      k / 128 ≤ c → Holds s o d b (page :: R) → page ∉ R →
      (∀ j, c ≤ j → j < n → d (addrOf addrs j).toNat = d0 (addrOf addrs j).toNat) →
      Returns (rfsShiftBlocks addrs m (c + 1 : Nat) page (shiftedBlock d0 addrs k c)) s fun r s' =>
        r.2 = shiftedBlock d0 addrs k (n - 1) ∧ r.1 ∉ R ∧
          ∃ d', Ends s' o d' (r.1 :: R) ∧ Closes addrs d0 d d' n k c (n - 1)
  | 0, c, s, d, b, page, hm, hk, h, hpage, hd => by
      refine .pure ⟨?_, hpage, d, ⟨b, h⟩, fun j hj hj' => by omega, fun _ _ => rfl⟩
      rw [show n - 1 = c by omega]
  | m + 1, c, s, d, b, page, hm, hk, h, hpage, hd => by
      unfold rfsShiftBlocks
      refine returns_addr ((rfsR1block_post h fun _ => trivial).bind ?_)
      rintro _ s1 ⟨rfl, -, h1⟩
      refine (allocPage_post h1 trivial).bind ?_
      rintro this s2 ⟨h2, -, -, hthis⟩
      refine .bindGet ?_
      have hprev : ((c + 1 : Nat) : Int) - 1 = (c : Nat) := by omega
      rw [hprev]
      refine returns_addr (post_setIobuffer h2 fun s3 h3 => ?_)
      refine (rfsW1block_post h3 fun _ => trivial).bind ?_
      rintro _ s4 ⟨rfl, -, h4⟩
      have hswap : page ∉ this :: R := by
        rw [List.mem_cons, not_or]
        exact ⟨fun heq => hthis (heq ▸ List.mem_cons_self), hpage⟩
      have hsub : page :: this :: R ⊆ this :: page :: R := (List.Perm.swap _ _ _).subset
      refine (freePage_raw (h4.leak hsub) hswap).bind fun _ s5 h5 => ?_
      have hnext := hd (c + 1) (by omega) (by omega)
      have hmoved : memmove s2.iobuffer 0 32 (127 * 32) = shiftedBlock d0 addrs k (c + 1) := by
        rw [h2.io, hnext, shiftedBlock, if_neg (by omega)]
        rfl
      rw [hmoved]
      have hstay : ∀ j, c + 1 ≤ j → j < n →
          upd d (addrOf addrs c).toNat
            (memcpy (shiftedBlock d0 addrs k c) (127 * 32) 32 (d (addrOf addrs (c + 1 : Nat)).toNat))
            (addrOf addrs j).toNat = d0 (addrOf addrs j).toNat := by
        intro j hj hjn
        rw [upd_ne fun heq => ?_, hd j (by omega) hjn]
        have := hinj j c hjn (by omega) heq
        omega
      refine (rfsShiftBlocks_returns hinj (m := m) (c := c + 1) (by omega) (by omega) h5
        (fun hmem => hthis (List.mem_cons_of_mem _ hmem)) hstay).mono ?_
      rintro r s6 ⟨hr, hr1, d', h6, hclosed, hframe⟩
      refine ⟨hr, hr1, d', h6, fun j hj hjn => ?_, fun blk hblk => ?_⟩
      · rcases Nat.eq_or_lt_of_le hj with rfl | hlt
        · rw [hframe, upd_self, closedBlock, if_pos (by omega), hnext]
          intro i hi hin heq
          have := hinj i c (by omega) (by omega) heq
          omega
        · exact hclosed j hlt hjn
      · rw [hframe blk fun j hj hjn => hblk j (by omega) hjn,
          upd_ne (hblk c le_rfl (by omega)).symm]

/-! ## The directory shortened -/

/-- The directory inode after the removal of one of `total` entries. -/
def shrunk (v : Vinode) (total : Nat) : Vinode :=
  if (total - 1) % 128 = 0 ∧ v.blocks > 1 then
    { v with blocks := v.blocks - 1, size := v.size - 32 }
  else { v with size := v.size - 32 }

/-- The freemap then. -/
def shrunkMap (v : Vinode) (total : Nat) (m : Nat → Int) : Nat → Int :=
  if (total - 1) % 128 = 0 ∧ v.blocks > 1 then
    upd m (addrOf v.addrs (v.blocks.toNat - 1) - 12).toNat 0
  else m

/-- The objects then. -/
def shrunkObjs (o : Objs) (parent : Ptr) (v : Vinode) (B : SuperBlock) (total : Nat) : Objs :=
  { o.withMap v.sb B (shrunkMap v total B.freemap) with
    vinode := upd o.vinode parent (some (shrunk v total)) }

theorem rfsShrinkDir_returns {total : Nat} (h : Holds s o d b R) (hv : o.vinode parent = some v)
    (hB : o.superBlock v.sb = some B) :
    Returns (rfsShrinkDir parent v (addrOf v.addrs (v.blocks.toNat - 1)) total) s fun _ s' =>
      Holds s' (shrunkObjs o parent v B total) d b R := by
  unfold rfsShrinkDir shrunkObjs shrunk shrunkMap
  refine .ite (fun hc => ?_) fun hc => ?_
  · rw [if_pos hc, if_pos hc]
    refine (rfsFreeBlock_returns h hB).bind ?_
    rintro _ s1 ⟨-, h1⟩
    exact .modify (h1.set (K := vinodeKind) hv _)
  · rw [if_neg hc, if_neg hc, Objs.withMap_self hB]
    exact .modify (h.set (K := vinodeKind) hv _)

theorem shrunk_inum (v : Vinode) (total : Nat) : (shrunk v total).inum = v.inum := by
  unfold shrunk
  split <;> rfl

theorem shrunk_size (v : Vinode) (total : Nat) : (shrunk v total).size = v.size - 32 := by
  unfold shrunk
  split <;> rfl

theorem shrunk_addrs (v : Vinode) (total : Nat) : (shrunk v total).addrs = v.addrs := by
  unfold shrunk
  split <;> rfl

theorem rfsRemoveDirentry_returns {total : Nat} (h : Holds s o d b R)
    (hv : o.vinode parent = some v) (hB : o.superBlock v.sb = some B) (hblocks : v.blocks = n)
    (hk : k / 128 < n) (hinj : Distinct v.addrs n) (hn : InodeNum v.inum) :
    Returns (rfsRemoveDirentry parent k total) s fun r s' => r = 0 ∧ ∃ dd,
      Closes v.addrs d d dd n k (k / 128) n ∧
      Ends s' (shrunkObjs o parent v B total) (writeInode dd (shrunk v total).toDinode v.inum) R := by
  refine post_known vinodeKind h hv (returns_addr ?_)
  refine (rfsR1block_post h fun _ => trivial).bind ?_
  rintro _ s1 ⟨rfl, -, h1⟩
  refine post_setIobuffer h1 fun s2 h2 => (allocPage_post h2 trivial).bind ?_
  rintro page s3 ⟨h3, -, -, hpage⟩
  refine .bindGet ?_
  have hfirst : s3.iobuffer = shiftedBlock d v.addrs k (k / 128) := by
    rw [h3.io, shiftedBlock, if_pos rfl]
    rfl
  have hcount : (v.blocks - (((k / 128 : Nat) : Int) + 1)).toNat = n - (k / 128 + 1) := by omega
  rw [hfirst, hcount, show ((k / 128 : Nat) : Int) + 1 = (k / 128 + 1 : Nat) by omega]
  refine (rfsShiftBlocks_returns hinj (m := n - (k / 128 + 1)) (by omega) le_rfl h3 hpage
    fun _ _ _ => rfl).bind ?_
  rintro ⟨p, previous⟩ s4 ⟨rfl, hp, d4, ⟨b4, h4⟩, hclosed, hframe⟩
  refine post_setIobuffer h4 fun s5 h5 => ?_
  have hlast : v.blocks - 1 = ((n - 1 : Nat) : Int) := by omega
  rw [hlast]
  refine returns_addr ((rfsW1block_post h5 fun _ => trivial).bind ?_)
  rintro _ s6 ⟨rfl, -, h6⟩
  refine (freePage_raw h6 hp).bind fun _ s7 h7 => ?_
  have hnat : n - 1 = v.blocks.toNat - 1 := by omega
  rw [hnat]
  refine (rfsShrinkDir_returns h7 hv hB).bind fun _ s8 h8 => ?_
  have hnew : (shrunkObjs o parent v B total).vinode parent = some (shrunk v total) := upd_self _ _ _
  refine (rfsWriteBackVinode_post h8 hnew (by rwa [shrunk_inum])).bind ?_
  rintro _ s9 ⟨rfl, h9⟩
  rw [if_neg (by decide)]
  rw [shrunk_inum] at h9
  refine .pure ⟨rfl, _, ⟨fun j hj hjn => ?_, fun blk hblk => ?_⟩, h9⟩
  · by_cases hj' : j = n - 1
    · rw [hj', upd_self, closedBlock, if_neg (by omega)]
    · rw [upd_ne fun heq => hj' (hinj j (n - 1) hjn (by omega) heq), hclosed j hj (by omega)]
  · rw [upd_ne (hblk (n - 1) (by omega) (by omega)).symm,
      hframe blk fun j hj hjn => hblk j hj (by omega)]

/-! ## Entries after the removal -/

theorem direntry_carry {src : Nat → UInt8} :
    direntry (memcpy b (127 * 32) 32 src) 127 = direntry src 0 := by
  refine direntry_congr fun j hj => ?_
  rw [show 32 * 127 + j = 127 * 32 + j by omega, memcpy_in hj, Nat.mul_zero, Nat.zero_add]

theorem direntry_closedBlock {addrs : Fin directBlknum → Int} {j : Nat} (hi : i < 127) :
    direntry (closedBlock d addrs n k j) i = direntry (d (addrOf addrs j).toNat)
      (if i < (if j = k / 128 then k % 128 else 0) then i else i + 1) := by
  rw [← direntry_erase hi]
  unfold closedBlock shiftedBlock
  split
  · exact direntry_congr fun l hl => memcpy_out (by omega)
  · rfl

/-- Entries before `k` are where they were, the others one slot further on. -/
theorem dirEntryAt_closes {addrs : Fin directBlknum → Int} {d' : Nat → Block}
    (h : Closes addrs d d d' n k (k / 128) n) (hinj : Distinct addrs n) (hi : i + 1 < 128 * n) :
    dirEntryAt d' addrs i = dirEntryAt d addrs (if i < k then i else i + 1) := by
  unfold dirEntryAt
  by_cases hj : k / 128 ≤ i / 128
  · rw [h.1 _ hj (by omega)]
    by_cases hlast : i % 128 < 127
    · rw [direntry_closedBlock hlast]
      by_cases hik : i < k
      · rw [if_pos (by split <;> omega), if_pos hik]
      · rw [if_neg (by split <;> omega), if_neg hik, show (i + 1) / 128 = i / 128 by omega,
          show (i + 1) % 128 = i % 128 + 1 by omega]
    · rw [if_neg (by omega), show i % 128 = 127 by omega, closedBlock, if_pos (by omega),
        direntry_carry, show (i + 1) / 128 = i / 128 + 1 by omega, show (i + 1) % 128 = 0 by omega]
  · rw [if_pos (by omega), h.2]
    intro j hj' hjn heq
    have := hinj j (i / 128) hjn (by omega) heq
    omega

theorem map_range_eraseIdx {α : Type} {f g : Nat → α} (hk : k < n)
    (hg : ∀ i < n - 1, g i = f (if i < k then i else i + 1)) :
    (List.range (n - 1)).map g = ((List.range n).map f).eraseIdx k := by
  refine List.ext_getElem ?_ fun i hi hi' => ?_
  · simp [List.length_eraseIdx, hk]
  · simp only [List.length_map, List.length_range] at hi
    rw [List.getElem_eraseIdx]
    simp only [List.getElem_map, List.getElem_range, hg i hi]
    split <;> rfl

/-- Comparing a name with an entry tells whether the entry has that name. -/
def Reads (d : Nat → Block) (v : Vinode) (name : Name) : Prop :=
  ∀ i < direntryCount v.size, nameAt d v.addrs name i = ((dirEntryAt d v.addrs i).2 == name)

theorem dirEntryAt_inum {addrs : Fin directBlknum → Int} (i : Nat) :
    getInt (d (addrOf addrs (i / 128)).toNat) (32 * (i % 128)) = (dirEntryAt d addrs i).1 := by
  simp only [dirEntryAt, direntry]

/-- The first entry of a name, as `rfs_unlink` finds it. -/
structure FirstAt (d : Nat → Block) (v : Vinode) (name : Name) (k : Nat) : Prop where
  lt : k < direntryCount v.size
  found : nameAt d v.addrs name k = true
  before : ∀ j < k, nameAt d v.addrs name j = false

section

variable {v : Vinode} {name : Name} {k : Nat}

theorem length_entries : (v.toDinode.entries d).length = direntryCount v.size := by
  simp [Dinode.entries, Vinode.toDinode]

theorem getElem_entries (hi : i < (v.toDinode.entries d).length) :
    (v.toDinode.entries d)[i] = dirEntryAt d v.addrs i := by
  simp only [Dinode.entries, List.getElem_map, List.getElem_range]
  rfl

theorem Reads.of_terminated (hnul : 0 ∉ name)
    (h : ∀ e ∈ v.toDinode.entries d, e.2.length < rfsMaxFileNameLen) : Reads d v name := by
  intro i hi
  have hlen : i < (v.toDinode.entries d).length := length_entries ▸ hi
  have hterm := h _ (List.getElem_mem hlen)
  rw [getElem_entries] at hterm
  rw [Bool.eq_iff_iff, beq_iff_eq]
  exact strcmpEq_iff_of_terminated hnul hterm

theorem FirstAt.eraseP (h : FirstAt d v name k) (hr : Reads d v name) :
    (v.toDinode.entries d).eraseP (·.2 == name) = (v.toDinode.entries d).eraseIdx k := by
  have hfind : (v.toDinode.entries d).findIdx? (·.2 == name) = some k := by
    rw [List.findIdx?_eq_some_iff_getElem]
    refine ⟨length_entries ▸ h.lt, ?_, fun j hj => ?_⟩
    · rw [getElem_entries, ← hr k h.lt, h.found]
    · rw [getElem_entries, ← hr j (hj.trans h.lt), h.before j hj]
      decide
  rw [List.eraseP_eq_eraseIdx, hfind]

theorem FirstAt.find (h : FirstAt d v name k) (hr : Reads d v name) :
    (v.toDinode.entries d).find? (·.2 == name) = some (dirEntryAt d v.addrs k) := by
  rw [List.find?_eq_some_iff_getElem]
  refine ⟨by rw [← hr k h.lt, h.found], k, length_entries ▸ h.lt, getElem_entries _,
    fun j hj => ?_⟩
  rw [getElem_entries, ← hr j (hj.trans h.lt), h.before j hj]
  rfl

/-- A name that some entry carries has a first entry. -/
theorem exists_firstAt (hr : Reads d v name)
    (h : ∃ e ∈ v.toDinode.entries d, e.2 = name) : ∃ k, FirstAt d v name k := by
  cases hfind : (v.toDinode.entries d).findIdx? (·.2 == name) with
  | none =>
      obtain ⟨e, he, heq⟩ := h
      have := List.findIdx?_eq_none_iff.mp hfind e he
      simp [heq] at this
  | some k =>
      obtain ⟨hlt, hk, hbefore⟩ := List.findIdx?_eq_some_iff_getElem.mp hfind
      have hk' : k < direntryCount v.size := length_entries ▸ hlt
      refine ⟨k, hk', ?_, fun j hj => ?_⟩
      · rw [hr k hk', ← getElem_entries hlt, hk]
      · rw [hr j (hj.trans hk'), ← getElem_entries (hj.trans hlt)]
        simpa using hbefore j hj

theorem not_nameAt_of_find (hr : Reads d v name)
    (h : (v.toDinode.entries d).find? (·.2 == name) = none) (hi : i < direntryCount v.size) :
    nameAt d v.addrs name i = false := by
  have hlen : i < (v.toDinode.entries d).length := length_entries ▸ hi
  have := List.find?_eq_none.mp h _ (List.getElem_mem hlen)
  rw [hr i hi, ← getElem_entries hlen]
  simpa using this

/-- Removing the first entry of a name does not change what is found under
another one. -/
theorem find_eraseP_ne {l : List (Int × Name)} {name' : Name} (hne : name' ≠ name) :
    (l.eraseP (·.2 == name)).find? (·.2 == name') = l.find? (·.2 == name') := by
  induction l with
  | nil => rfl
  | cons e l ih =>
      by_cases he : e.2 = name
      · simp [he, hne.symm]
      · simp [he, List.find?_cons, ih]

end

/-! ## Lookup through the entries -/

/-- The inode number of the vinode a lookup returns. -/
def inumOf (s : State) (r : Option Ptr) : Option Int := (r.bind s.vinode).map (·.inum)

theorem rfsLookup_find {sub : Ptr} {x : Dentry} (h : Holds s o d b R)
    (hv : o.vinode parent = some v) (hx : o.dentry sub = some x) (hr : Reads d v x.name)
    (hsize : 0 ≤ v.size ∧ v.size ≤ 40960) (hbr : Browsable v.addrs (direntryCount v.size))
    (hnums : ∀ e ∈ v.toDinode.entries d, InodeNum e.1) : Post (rfsLookup parent sub) s
      (fun r s' => inumOf s' r = ((v.toDinode.entries d).find? (·.2 == x.name)).map (·.1))
      (· = .nullPage) := by
  have htotal := totalDirentrys_eq hsize.1 (by omega)
  cases hfind : (v.toDinode.entries d).find? (·.2 == x.name) with
  | none =>
      refine (rfsLookup_miss h hv hx (htotal ▸ hbr) fun i hi =>
        not_nameAt_of_find hr hfind (htotal ▸ hi)).mono ?_
      rintro _ s' ⟨rfl, -⟩
      rfl
  | some e =>
      have hmem := List.mem_of_find?_eq_some hfind
      obtain ⟨k, hk⟩ := exists_firstAt hr ⟨e, hmem, by simpa using List.find?_some hfind⟩
      obtain rfl := Option.some.inj ((hk.find hr).symm.trans hfind)
      have hnum := hnums _ hmem
      rw [← dirEntryAt_inum] at hnum
      refine (rfsLookup_found (E := (· = .nullPage)) h hv hx (htotal ▸ hbr) (htotal ▸ hk.lt)
        hk.found hk.before hnum rfl).mono ?_
      rintro _ s' ⟨w, rfl, -, -, -, n, hn, b', h'⟩
      have hw : s'.vinode w = some (loadedVinode v.sb n (diskInode d n)) := by
        show s'.objs.vinode w = _
        rw [h'.objs]
        exact upd_self _ _ _
      simp only [inumOf, Option.bind_some, hw, Option.map_some, loadedVinode, hn, dirEntryAt_inum]

/-! ## The whole run -/

/-- What `rfs_unlink` leaves when entry `k` is the first of the name: the name
is dropped from its inode, giving `di` and the freemap `m`, and the
directory is closed, giving the blocks `dd`. -/
structure GapClosed (o : Objs) (d : Nat → Block) (parent u : Ptr) (v uv : Vinode) (B : SuperBlock)
    (k : Nat) (di : Dinode) (m : Nat → Int) (dd : Nat → Block) (s' : State) : Prop where
  clears : ClearsOnly (diskInode d uv.inum).addrs (diskInode d uv.inum).blocks.toNat 0 B.freemap m
  closes : Closes v.addrs (writeInode d di uv.inum) (writeInode d di uv.inum) dd v.blocks.toNat k
    (k / 128) v.blocks.toNat
  ends : Ends s' (shrunkObjs (dropObjs o v.sb u B uv m) parent v { B with freemap := m }
    (direntryCount v.size)) (writeInode dd (shrunk v (direntryCount v.size)).toDinode v.inum) []

theorem rfsUnlink_returns {sub u : Ptr} {uv : Vinode} {x : Dentry} (h : Holds s o d b [])
    (hv : o.vinode parent = some v) (hn : InodeNum v.inum) (hx : o.dentry sub = some x)
    (hu : o.vinode u = some uv) (hup : u ≠ parent) (hun : InodeNum uv.inum)
    (hB : o.superBlock v.sb = some B) (hsize : 0 ≤ v.size ∧ v.size ≤ 40960)
    (hbr : Browsable v.addrs (direntryCount v.size)) (hk : FirstAt d v x.name k)
    (hinum : (dirEntryAt d v.addrs k).1 = uv.inum) (hblocks : 0 ≤ v.blocks)
    (hlt : k / 128 < v.blocks.toNat) (hinj : Distinct v.addrs v.blocks.toNat) :
    Returns (rfsUnlink parent sub u) s fun _ s' =>
      ∃ di m dd, GapClosed o d parent u v uv B k di m dd s' := by
  have htotal := totalDirentrys_eq hsize.1 (by omega)
  refine post_known vinodeKind h hv (post_known dentryKind h hx ?_)
  rw [htotal]
  refine (rfsBrowse_post h (by simpa using hbr) fun h0 => absurd rfl h0).bind ?_
  rintro ⟨i, p⟩ s1 ⟨b1, h1, hr⟩
  simp only [Nat.zero_add, Nat.zero_le, true_implies] at hr
  rcases hr with ⟨-, hnone⟩ | ⟨-, hi, htrue, hfirst, rfl, rfl⟩
  · exact absurd ((hnone k hk.lt).symm.trans hk.found) (by decide)
  · obtain rfl : i = k := by
      rcases Nat.lt_trichotomy i k with hlt | heq | hgt
      · exact absurd ((hk.before i hlt).symm.trans htrue) (by decide)
      · exact heq
      · exact absurd ((hfirst k hgt).symm.trans hk.found) (by decide)
    refine .bindOption nofun fun off hoff => .bindGet ?_
    obtain rfl : 32 * (i % 128) = off := Option.some.inj hoff
    rw [h1.io, dirEntryAt_inum, hinum, if_neg (Nat.ne_of_lt hi)]
    refine (rfsDropLink_returns h1 hB hu hun).bind ?_
    rintro _ s2 ⟨di, m, hclear, b2, h2⟩
    have hv2 : (dropObjs o v.sb u B uv m).vinode parent = some v := (upd_ne hup.symm).trans hv
    refine (rfsRemoveDirentry_returns (n := v.blocks.toNat) h2 hv2 (upd_self _ _ _) (by omega) hlt
      hinj hn).mono ?_
    rintro _ s3 ⟨-, dd, hcloses, h3⟩
    exact ⟨di, m, dd, hclear, hcloses, h3⟩

end

/-! ## What is removed -/

/-- A directory `v` at `parent` of a well-formed state, with the file `uv` at
`u` as the first entry of the name that the dentry `sub` carries. -/
structure Unlinkable (s : State) (sb parent sub u : Ptr) (v uv : Vinode) (x : Dentry)
    (B : SuperBlock) : Prop where
  mem : MemInv s
  formed : WellFormed s sb B
  dir : s.Loaded sb v.inum parent v
  type : v.type = dirI
  whole : 32 ∣ v.size
  blocks : v.blocks.toNat = max 1 ((direntryCount v.size + 127) / 128)
  entries : ∀ e ∈ v.toDinode.entries s.disk, InodeNum e.1 ∧ e.2.length < rfsMaxFileNameLen
  dentry : s.dentry sub = some x
  nul : 0 ∉ x.name
  entry : (v.toDinode.entries s.disk).find? (·.2 == x.name) = some (uv.inum, x.name)
  file : s.Loaded sb uv.inum u uv
  other : uv.inum ≠ v.inum
  apart : ∀ j : Nat, (j : Int) < (diskInode s.disk uv.inum).blocks →
    ¬v.toDinode.HasBlock (addrOf (diskInode s.disk uv.inum).addrs j)

/-- Without one entry, the last of several blocks of the directory is empty. -/
def Vinode.Empties (v : Vinode) : Prop :=
  direntryCount v.size - 1 ≤ 128 * (v.blocks.toNat - 1) ∧ 1 < v.blocks

instance (v : Vinode) : Decidable v.Empties := inferInstanceAs (Decidable (_ ∧ _))

/-- Exactly the first entry of the name is gone. -/
structure EntryRemoved (s s' : State) (sb parent : Ptr) (v : Vinode) (inum : Int) (name : Name) :
    Prop where
  entries : ∃ v', s'.vinode parent = some v' ∧
    v'.toDinode.entries s'.disk = (v.toDinode.entries s.disk).eraseP (·.2 == name) ∧
    v'.size = v.size - 32 ∧ v'.addrs = v.addrs ∧
    v'.blocks = if v.Empties then v.blocks - 1 else v.blocks
  freemap : ∃ B', s'.superBlock sb = some B' ∧ ∀ i : Nat, (i : Int) < v.blocks →
    (B'.freemap (addrOf v.addrs i - 12).toNat = 0 ↔ (i : Int) + 1 = v.blocks ∧ v.Empties)
  lookup : ∀ q y, s.dentry q = some y → 0 ∉ y.name → y.name ≠ name →
    Post (rfsLookup parent q) s'
      (fun r' t' => ∀ r t, rfsLookup parent q s = .ok (r, t) → inumOf t' r' = inumOf t r)
      (· = .nullPage)
  others : ∀ n di, n ≠ v.inum → s.Inode sb n di → ∀ blk : Int, di.HasBlock blk →
    s'.disk blk.toNat = s.disk blk.toNat
  inodes : ∀ n, n ≠ v.inum → n ≠ inum → diskInode s'.disk n = diskInode s.disk n

theorem dirEntryAt_writeInode {d : Nat → Block} {addrs : Fin directBlknum → Int} {di : Dinode}
    {n : Int} (hn : InodeNum n) (hblk : 12 ≤ addrOf addrs (i / 128)) :
    dirEntryAt (writeInode d di n) addrs i = dirEntryAt d addrs i := by
  unfold dirEntryAt
  rw [writeInode_data hn hblk]

namespace Unlinkable

variable {s s' : State} {sb parent sub u : Ptr} {v uv : Vinode} {x : Dentry} {B : SuperBlock}
  {k : Nat} {di : Dinode} {m : Nat → Int} {dd : Nat → Block}

section

variable (h : Unlinkable s sb parent sub u v uv x B)

include h

theorem placed : v.toDinode.Placed B.freemap :=
  h.formed.shape _ _ h.dir.inode

theorem reads {name : Name} (hnul : 0 ∉ name) : Reads s.disk v name :=
  .of_terminated hnul fun e he => (h.entries e he).2

theorem distinct : Distinct v.addrs v.blocks.toNat := by
  intro i j hi hj heq
  have hi : (i : Int) < v.toDinode.blocks := by
    show (i : Int) < v.blocks
    omega
  have hj : (j : Int) < v.toDinode.blocks := by
    show (j : Int) < v.blocks
    omega
  have h1 : 12 ≤ addrOf v.addrs i := (h.placed.data i hi).1
  have h2 : 12 ≤ addrOf v.addrs j := (h.placed.data j hj).1
  refine h.placed.inj i j hi hj ?_
  show addrOf v.addrs i = addrOf v.addrs j
  omega

/-- Every entry is in a data block. -/
theorem data (hi : i < 128 * v.blocks.toNat) :
    i / 128 < v.blocks.toNat ∧ 12 ≤ addrOf v.addrs (i / 128) ∧ addrOf v.addrs (i / 128) < 112 := by
  have hlt : ((i / 128 : Nat) : Int) < v.toDinode.blocks := by
    show ((i / 128 : Nat) : Int) < v.blocks
    omega
  exact ⟨by omega, h.placed.data _ hlt⟩

theorem count :
    direntryCount v.size ≤ 128 * v.blocks.toNat ∧ (direntryCount v.size : Int) * 32 = v.size ∧
      v.blocks.toNat ≤ 10 := by
  have hsize : 0 ≤ v.size ∧ v.size ≤ v.blocks * 4096 := h.placed.size
  have hblocks : v.blocks ≤ 10 := h.placed.blocks.2
  have hwhole := h.whole
  unfold direntryCount
  exact ⟨by omega, by omega, by omega⟩

theorem browsable (hn : n ≤ direntryCount v.size) : Browsable v.addrs n := by
  intro i hi
  have hcount := h.count
  obtain ⟨hlt, hlo, hhi⟩ := h.data (i := i) (by omega)
  exact ⟨by omega, by omega, by omega⟩

/-- The test of the source is whether the last block becomes empty. -/
theorem empties_iff (hk : k < direntryCount v.size) :
    (direntryCount v.size - 1) % 128 = 0 ∧ v.blocks > 1 ↔ v.Empties := by
  have hblocks := h.blocks
  unfold Vinode.Empties
  omega

theorem entries_eq (hk : FirstAt s.disk v x.name k)
    (hu : GapClosed s.objs s.disk parent u v uv B k di m dd s') :
    (shrunk v (direntryCount v.size)).toDinode.entries s'.disk =
      (v.toDinode.entries s.disk).eraseP (·.2 == x.name) := by
  have hn := h.formed.inum _ _ _ h.dir
  have hun := h.formed.inum _ _ _ h.file
  have hcount := h.count
  have hlt := hk.lt
  obtain ⟨b', hends⟩ := hu.ends
  have hless : direntryCount (v.size - 32) = direntryCount v.size - 1 := by
    unfold direntryCount at *
    omega
  rw [hk.eraseP (h.reads h.nul), hends.disk]
  simp only [Dinode.entries, Vinode.toDinode, shrunk_size, shrunk_addrs, hless]
  refine map_range_eraseIdx hlt fun i hi => ?_
  rw [dirEntryAt_writeInode hn (h.data (i := i) (by omega)).2.1,
    dirEntryAt_closes hu.closes h.distinct (by omega)]
  refine dirEntryAt_writeInode hun (h.data ?_).2.1
  split <;> omega

theorem blocks_eq (hk : k < direntryCount v.size) :
    (shrunk v (direntryCount v.size)).blocks = if v.Empties then v.blocks - 1 else v.blocks := by
  unfold shrunk
  simp only [h.empties_iff hk]
  split <;> rfl

/-- The blocks of the directory stay in use, but for the last one when it is
given back. -/
theorem freemap_iff (hk : k < direntryCount v.size)
    (hclear : ClearsOnly (diskInode s.disk uv.inum).addrs (diskInode s.disk uv.inum).blocks.toNat 0
      B.freemap m) (hi : (i : Int) < v.blocks) :
    shrunkMap v (direntryCount v.size) m (addrOf v.addrs i - 12).toNat = 0 ↔
      (i : Int) + 1 = v.blocks ∧ v.Empties := by
  have hdata : 12 ≤ addrOf v.addrs i := (h.placed.data i hi).1
  have hused : m (addrOf v.addrs i - 12).toNat ≠ 0 := by
    rw [hclear _ fun j _ hj heq => h.apart j (by omega) ⟨i, hi, ?_⟩]
    · exact h.placed.used i hi
    · show addrOf v.addrs i = _
      omega
  unfold shrunkMap
  simp only [h.empties_iff hk]
  by_cases hempty : v.Empties
  · rw [if_pos hempty]
    by_cases hlast : (i : Int) + 1 = v.blocks
    · rw [show v.blocks.toNat - 1 = i by omega, upd_self]
      exact ⟨fun _ => ⟨hlast, hempty⟩, fun _ => rfl⟩
    · have hnum : ((v.blocks.toNat - 1 : Nat) : Int) < v.toDinode.blocks := by
        show ((v.blocks.toNat - 1 : Nat) : Int) < v.blocks
        omega
      have hdata' : 12 ≤ addrOf v.addrs (v.blocks.toNat - 1) := (h.placed.data _ hnum).1
      have hne : addrOf v.addrs i ≠ addrOf v.addrs (v.blocks.toNat - 1) := fun heq => hlast (by
        have := h.placed.inj i _ hi hnum heq
        omega)
      rw [upd_ne (by omega)]
      exact ⟨fun h0 => absurd h0 hused, fun h0 => absurd h0.1 hlast⟩
  · rw [if_neg hempty]
    exact ⟨fun h0 => absurd h0 hused, fun h0 => absurd h0.2 hempty⟩

/-- A data block that is not the directory's does not change. -/
theorem disk_eq (hu : GapClosed s.objs s.disk parent u v uv B k di m dd s') {blk : Int}
    (hblk : 12 ≤ blk) (hout : ¬v.toDinode.HasBlock blk) : s'.disk blk.toNat = s.disk blk.toNat := by
  obtain ⟨b', hends⟩ := hu.ends
  rw [hends.disk, writeInode_data (h.formed.inum _ _ _ h.dir) hblk, hu.closes.2,
    writeInode_data (h.formed.inum _ _ _ h.file) hblk]
  intro j _ hj heq
  have hj : (j : Int) < v.toDinode.blocks := by
    show (j : Int) < v.blocks
    omega
  have hdata : 12 ≤ addrOf v.addrs j := (h.placed.data j hj).1
  refine hout ⟨j, hj, ?_⟩
  show addrOf v.addrs j = blk
  omega

theorem diskInode_eq (hu : GapClosed s.objs s.disk parent u v uv B k di m dd s') {n : Int}
    (hn : n ≠ v.inum) (hun : n ≠ uv.inum) : diskInode s'.disk n = diskInode s.disk n := by
  obtain ⟨b', hends⟩ := hu.ends
  rw [hends.disk, diskInode_write_ne (h.formed.inum _ _ _ h.dir) hn,
    diskInode_congr (d := writeInode s.disk di uv.inum) fun blk hblk => ?_,
    diskInode_write_ne (h.formed.inum _ _ _ h.file) hun]
  refine hu.closes.2 blk fun j _ hj heq => ?_
  have hdata : 12 ≤ addrOf v.addrs j := (h.placed.data j (by
    show (j : Int) < v.blocks
    omega)).1
  omega

/-- Other names are found as before. -/
theorem lookup_eq (hk : FirstAt s.disk v x.name k)
    (hu : GapClosed s.objs s.disk parent u v uv B k di m dd s') {q : Ptr} {y : Dentry}
    (hq : s.dentry q = some y) (hnul : 0 ∉ y.name) (hne : y.name ≠ x.name) :
    Post (rfsLookup parent q) s'
      (fun r' t' => ∀ r t, rfsLookup parent q s = .ok (r, t) → inumOf t' r' = inumOf t r)
      (· = .nullPage) := by
  have hsize : 0 ≤ v.size ∧ v.size ≤ v.blocks * 4096 := h.placed.size
  have hcount := h.count
  have hlt := hk.lt
  obtain ⟨b', hends⟩ := hu.ends
  have hentries := h.entries_eq hk hu
  have hless : direntryCount (v.size - 32) ≤ direntryCount v.size := by
    unfold direntryCount
    omega
  -- the lookup before, and the one after
  have hbefore := rfsLookup_find (⟨rfl, rfl, rfl, h.mem, by simp⟩ : Holds s s.objs s.disk
    s.iobuffer []) h.dir.vinode hq (h.reads hnul) (by omega) (h.browsable le_rfl)
    fun e he => (h.entries e he).1
  have hsub : ∀ e ∈ (shrunk v (direntryCount v.size)).toDinode.entries s'.disk,
      e ∈ v.toDinode.entries s.disk := by
    rw [hentries]
    exact fun e he => List.mem_of_mem_eraseP he
  have hafter := rfsLookup_find (v := shrunk v (direntryCount v.size)) hends (upd_self _ _ _)
    (x := y) hq
    (.of_terminated hnul fun e he => (h.entries e (hsub e (hends.disk ▸ he))).2)
    (by rw [shrunk_size]; unfold direntryCount at hlt; omega)
    (by rw [shrunk_size, shrunk_addrs]; exact h.browsable hless)
    fun e he => (h.entries e (hsub e (hends.disk ▸ he))).1
  refine hafter.mono fun r' t' hr' r t hrun => ?_
  rw [Post, hrun] at hbefore
  rw [hr', hbefore, ← hends.disk, hentries, find_eraseP_ne hne]

end

end Unlinkable

/-- `rfs_unlink` removes the first entry of the name from the directory, and
nothing else. -/
theorem rfs_unlink_removes_first {s s' : State} {sb parent sub u : Ptr} {v uv : Vinode} {x : Dentry}
    {B : SuperBlock} (h : Unlinkable s sb parent sub u v uv x B)
    (hrun : rfsUnlink parent sub u s = .ok (0, s')) :
    EntryRemoved s s' sb parent v uv.inum x.name := by
  have hsize : 0 ≤ v.size ∧ v.size ≤ v.blocks * 4096 := h.placed.size
  have hcount := h.count
  have hup : u ≠ parent := by
    rintro rfl
    exact h.other (congrArg _ (Option.some.inj (h.file.vinode.symm.trans h.dir.vinode)))
  obtain ⟨k, hk⟩ := exists_firstAt (h.reads h.nul) ⟨_, List.mem_of_find?_eq_some h.entry, rfl⟩
  have hinum : (dirEntryAt s.disk v.addrs k).1 = uv.inum :=
    congrArg Prod.fst (Option.some.inj ((hk.find (h.reads h.nul)).symm.trans h.entry))
  have hlt := hk.lt
  have hsb : s.superBlock v.sb = some B := h.dir.sb ▸ h.formed.superBlock
  have hpost := rfsUnlink_returns (⟨rfl, rfl, rfl, h.mem, by simp⟩ : Holds s s.objs s.disk
    s.iobuffer []) h.dir.vinode (h.formed.inum _ _ _ h.dir) h.dentry h.file.vinode hup
    (h.formed.inum _ _ _ h.file) hsb (by omega) (h.browsable le_rfl) hk hinum h.placed.blocks.1
    (by omega) h.distinct
  rw [Returns, Post, hrun] at hpost
  obtain ⟨di, m, dd, hu⟩ := hpost
  obtain ⟨b', hends⟩ := id hu.ends
  refine ⟨⟨_, ?_, h.entries_eq hk hu, shrunk_size _ _, shrunk_addrs _ _, h.blocks_eq hlt⟩,
    ⟨{ B with freemap := shrunkMap v (direntryCount v.size) m }, ?_,
      fun i hi => h.freemap_iff hlt hu.clears hi⟩,
    fun q y hq hnul hne => h.lookup_eq hk hu hq hnul hne, fun n di' hn hdi blk hblk => ?_,
    fun n hn hn' => h.diskInode_eq hu hn hn'⟩
  · show s'.objs.vinode parent = _
    rw [hends.objs]
    exact upd_self _ _ _
  · show s'.objs.superBlock sb = _
    rw [hends.objs, ← h.dir.sb]
    exact upd_self _ _ _
  · obtain ⟨j, hj, rfl⟩ := hblk
    have hdata := ((h.formed.shape n di' hdi).data j hj).1
    exact h.disk_eq hu hdata fun hin => h.formed.apart _ _ _ _ h.dir.inode hdi (Ne.symm hn) _ hin
      ⟨j, hj, rfl⟩

/-! ## A directory of two blocks with the file of two bytes in it -/

/-- A directory of 129 entries, in blocks 12 and 14. -/
def twoBlockDir : Vinode :=
  { oneBlockDir 4128 with blocks := 2, addrs := fun i => if i = 0 then 12 else 14 }

/-- Its entry `i`, by bytes. The file is number 5, and every other entry has a name and an
inode number of its own. -/
def twoBlockEntry (i off : Nat) : UInt8 :=
  if off = 0 then if i = 5 then 1 else UInt8.ofNat (i + 10)
  else if off = 4 then if i = 5 then 97 else 98
  else if off = 5 ∧ i ≠ 5 then UInt8.ofNat (i + 1)
  else 0

def twoBlockSb : SuperBlock := { twoBytesSb with freemap := fun k => if k < 3 then 1 else 0 }

def twoBytesEntry : Dentry where
  name := [97]
  dRef := 0
  dentryInode := 8192
  parent := 0

/-- The file is on disk too. -/
def twoBlocks : State :=
  { twoBytes with
    disk := writeInode (upd (upd twoBytes.disk 12 fun j => twoBlockEntry (j / 32) (j % 32))
      14 fun j => twoBlockEntry (128 + j / 32) (j % 32)) twoBytesFile.toDinode 1
    pages := fun p => if p = 4096 then .superBlock twoBlockSb
      else if p = 8192 then .vinode twoBytesFile
      else if p = 12288 then .vinode twoBlockDir
      else if p = 16384 then .dentry twoBytesEntry else .free
    freePages := [20480, 24576, 28672]
    freeMemStart := 4096
    freeMemEnd := 32768 }

theorem twoBlocks_page {p : Ptr} (h : twoBlocks.pages p ≠ .free) :
    p = 4096 ∨ p = 8192 ∨ p = 12288 ∨ p = 16384 := by
  by_contra hno
  simp only [not_or] at hno
  exact h (by simp [twoBlocks, hno])

theorem twoBlocks_vinode {w : Ptr} {u : Vinode} (h : twoBlocks.vinode w = some u) :
    (w = 8192 ∧ u = twoBytesFile) ∨ (w = 12288 ∧ u = twoBlockDir) := by
  have hused : twoBlocks.pages w ≠ .free := by
    intro hfree
    rw [State.vinode, hfree] at h
    cases h
  rcases twoBlocks_page hused with rfl | rfl | rfl | rfl
  · cases h
  · exact .inl ⟨rfl, (Option.some.inj h).symm⟩
  · exact .inr ⟨rfl, (Option.some.inj h).symm⟩
  · cases h

theorem twoBlocks_only :
    OnlyInodes twoBlocks 4096 [(8192, twoBytesFile), (12288, twoBlockDir)] := by
  refine ⟨fun w v h => ?_, fun n hn hno => ?_⟩
  · rcases twoBlocks_vinode h with ⟨rfl, rfl⟩ | ⟨rfl, rfl⟩ <;> simp
  · have hne : n ≠ 1 := by
      rintro rfl
      exact hno 8192 twoBytesFile ⟨rfl, rfl, rfl, rfl⟩
    rw [show diskInode twoBlocks.disk n = diskInode twoBytes.disk n from
      (diskInode_write_ne (by decide) hne).trans (by
        rw [diskInode_data (by decide), diskInode_data (by decide)])]
    exact twoBytes_onDisk hn

theorem twoBlockDir_placed : twoBlockDir.toDinode.Placed twoBlockSb.freemap := by
  have hblock : ∀ i : Nat, (i : Int) < twoBlockDir.toDinode.blocks → i = 0 ∨ i = 1 := by
    intro i hi
    have : (i : Int) < 2 := hi
    omega
  refine ⟨by decide, by decide, fun i hi => ?_, fun i hi => ?_, fun i j hi hj heq => ?_⟩
  · rcases hblock i hi with rfl | rfl <;> decide
  · rcases hblock i hi with rfl | rfl <;> decide
  · rcases hblock i hi with rfl | rfl <;> rcases hblock j hj with rfl | rfl <;>
      first | rfl | exact absurd heq (by decide)

/-- The blocks of the directory are not the file's. -/
theorem twoBlockDir_block {blk : Int} (h : twoBlockDir.toDinode.HasBlock blk) : blk ≠ 13 := by
  obtain ⟨i, hi, rfl⟩ := h
  have : (i : Int) < 2 := hi
  obtain rfl | rfl : i = 0 ∨ i = 1 := by omega
  · decide
  · decide

theorem twoBlocks_formed : WellFormed twoBlocks 4096 twoBlockSb := by
  refine twoBlocks_only.wellFormed rfl rfl ?_ ?_ (List.pairwise_pair.mpr ⟨by decide, ?_⟩)
  · simp [show InodeNum twoBytesFile.inum by decide, show InodeNum twoBlockDir.inum by decide]
  · have hfile : twoBytesFile.toDinode.Placed twoBlockSb.freemap :=
      placed_one rfl (by decide) (by decide) (by decide)
    simpa using ⟨hfile, twoBlockDir_placed⟩
  · exact fun blk hblk hblk' => twoBlockDir_block hblk' (hasBlock_one rfl hblk)

theorem twoBlocks_mem : MemInv twoBlocks := by
  have hok : ∀ p : Ptr, p % 4096 = 0 ∧ 4096 ≤ p ∧ p < 32768 → PageOk twoBlocks p := fun p hp => hp
  have hlist : ∀ p ∈ twoBlocks.freePages, p = 20480 ∨ p = 24576 ∨ p = 28672 := by
    intro p hp
    simpa [twoBlocks] using hp
  refine ⟨by decide, fun p hp => ?_, fun p hp => hok p ?_, fun p hp => .inl (hok p ?_), by decide⟩
  · rcases hlist p hp with rfl | rfl | rfl <;> rfl
  · rcases hlist p hp with rfl | rfl | rfl <;> decide
  · rcases twoBlocks_page hp with rfl | rfl | rfl | rfl <;> decide

theorem twoBlocks_unlinkable : Unlinkable twoBlocks 4096 12288 16384 8192 twoBlockDir twoBytesFile
    twoBytesEntry twoBlockSb where
  mem := twoBlocks_mem
  formed := twoBlocks_formed
  dir := ⟨rfl, rfl, rfl, rfl⟩
  type := rfl
  whole := by decide
  blocks := by decide
  entries := by decide +kernel
  dentry := rfl
  nul := by decide
  entry := by decide +kernel
  file := ⟨rfl, rfl, rfl, rfl⟩
  other := by decide
  apart j hj hblk := by
    have hdisk : diskInode twoBlocks.disk twoBytesFile.inum = twoBytesFile.toDinode :=
      (congrFun (diskInode_write (by decide : InodeNum 1) twoBytesFile_fits) 1).trans
        (upd_self _ _ _)
    rw [hdisk] at hj hblk
    obtain rfl : j = 0 := by
      have : (j : Int) < 1 := hj
      omega
    exact twoBlockDir_block hblk rfl

/-- The entries behind the file move up, one of them into the first block, and the second
block is given back. -/
theorem rfs_unlink_removes_first_two_blocks :
    ∃ s', rfsUnlink 12288 16384 8192 twoBlocks = .ok (0, s') ∧
      EntryRemoved twoBlocks s' 4096 12288 twoBlockDir 1 [97] ∧ twoBlockDir.Empties ∧
      (twoBlockDir.toDinode.entries twoBlocks.disk)[128]? = some (138, [98, 129]) ∧
      ((twoBlockDir.toDinode.entries twoBlocks.disk).eraseP (·.2 == [97]))[127]? =
        some (138, [98, 129]) := by
  have hrun : ((rfsUnlink 12288 16384 8192 twoBlocks).toOption.map (·.1)) = some 0 := by
    decide +kernel
  cases hres : rfsUnlink 12288 16384 8192 twoBlocks with
  | error e =>
      rw [hres] at hrun
      cases hrun
  | ok r =>
      obtain ⟨ret, s'⟩ := r
      rw [hres] at hrun
      obtain rfl : ret = 0 := by simpa [Except.toOption] using hrun
      exact ⟨s', rfl, rfs_unlink_removes_first twoBlocks_unlinkable hres, by decide,
        by decide +kernel, by decide +kernel⟩

end Pke
