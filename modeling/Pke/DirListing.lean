import Pke.DirEntries
import Pke.Inodes
import Pke.Readdir

/-!
# Listing a directory of several blocks

`rfs_hook_opendir` copies the blocks of a directory from the last to the
first, each to a page of its own, and stops unless every page lies just below
the one before it. What it leaves is one array of entries, which `rfs_readdir`
indexes without minding the blocks (`DirReader`). As long as nobody touches
the pages a descriptor goes through, its calls list the entries of the disk in
their order and then report the end, and `rfs_hook_closedir` gives back the
pages of the copy and no others (`ListsAll`).
-/

namespace Pke

open Exec (Post bind_of_ok)

/-! ## Directories -/

/-- A well-formed RFS directory, of any number of blocks. -/
structure Vinode.Directory (v : Vinode) (d : Nat → Block) : Prop where
  type : v.type = dirI
  rfs : v.iOps = .rfs
  blocks : 0 ≤ v.blocks ∧ v.blocks ≤ directBlknum
  size : 0 ≤ v.size ∧ v.size ≤ v.blocks * rfsBlksize
  names : ∀ i < direntryCount v.size, NameOk (dirEntryAt d v.addrs i).2

/-- What call number `k` of `vfs_readdir` is to return. -/
def listed (d : Nat → Block) (v : Vinode) (k : Nat) : Int × Option Dir :=
  if k < direntryCount v.size then (0, some (toDir (dirEntryAt d v.addrs k))) else (-1, none)

/-- At the end all calls return the same. -/
theorem listed_min (d : Nat → Block) (v : Vinode) (n : Nat) :
    listed d v (min n (direntryCount v.size)) = listed d v n := by
  unfold listed
  by_cases hlt : n < direntryCount v.size
  · rw [Nat.min_eq_left hlt.le]
  · rw [if_neg (by omega), if_neg hlt]

/-! ## Pages -/

/-- The free list has pages of the memory `pmm.c` manages. -/
def State.FreeOk (s : State) : Prop := 0 < s.freeMemStart ∧ ∀ p ∈ s.freePages, PageOk s p

/-- From `s` to `s'` pages have been taken from the free list and filled. -/
structure OnlyAllocates (s s' : State) : Prop where
  disk : s'.disk = s.disk
  used : ∀ p, s.pages p ≠ .free → s'.pages p = s.pages p
  start : s'.freeMemStart = s.freeMemStart
  stop : s'.freeMemEnd = s.freeMemEnd
  free : ∀ p ∈ s'.freePages, p ∈ s.freePages

variable {s s' : State} {d : Nat → Block} {v : Vinode} {base : Ptr} {n : Nat}

theorem OnlyAllocates.trans {s1 s2 : State} (h : OnlyAllocates s s1) (h' : OnlyAllocates s1 s2) :
    OnlyAllocates s s2 where
  disk := h'.disk.trans h.disk
  used p hp := by rw [h'.used p (by rwa [h.used p hp]), h.used p hp]
  start := h'.start.trans h.start
  stop := h'.stop.trans h.stop
  free p hp := h.free p (h'.free p hp)

theorem OnlyAllocates.freeOk (h : OnlyAllocates s s') (hok : s.FreeOk) : s'.FreeOk := by
  refine ⟨h.start ▸ hok.1, fun p hp => ?_⟩
  unfold PageOk
  rw [h.start, h.stop]
  exact hok.2 p (h.free p hp)

/-- A page that was free may be filled with anything. -/
theorem OnlyAllocates.fill (h : OnlyAllocates s s') {p : Ptr} (hp : s.pages p = .free) (c : Page) :
    OnlyAllocates s (s'.setPage p c) where
  disk := h.disk
  used q hq := by
    have hne : q ≠ p := by
      rintro rfl
      exact hq hp
    rw [State.setPage_ne hne, h.used q hq]
  start := h.start
  stop := h.stop
  free := h.free

theorem allocPage_fills : Post allocPage s (fun p s' => p ∈ s.freePages ∧
    s.pages p = .free ∧ OnlyAllocates s s') fun _ => True := by
  unfold allocPage
  refine .bindGet ?_
  split
  · exact .fault trivial
  · rename_i p rest hfree
    refine .ite (fun hp => .bindModify (.pure ?_)) fun _ => .fault trivial
    have hpage : s.pages p = .free := Page.eq_free hp
    refine ⟨hfree ▸ List.mem_cons_self .., hpage, ?_⟩
    have hrest : OnlyAllocates s { s with freePages := rest } :=
      ⟨rfl, fun _ _ => rfl, rfl, rfl, fun q hq => hfree ▸ List.mem_cons_of_mem _ hq⟩
    exact hrest.fill hpage .raw

/-! ## The copy -/

/-- The pages from `base` on hold the first `n` blocks of the directory. -/
structure CopyAt (s : State) (d : Nat → Block) (v : Vinode) (base : Ptr) (n : Nat) : Prop where
  block : ∀ i < n, s.pages (base + 4096 * i) = .dirBlock (d (addrOf v.addrs i).toNat)
  ok : ∀ i < n, PageOk s (base + 4096 * i)

theorem CopyAt.congr (h : CopyAt s d v base n)
    (hpages : ∀ i < n, s'.pages (base + 4096 * i) = s.pages (base + 4096 * i))
    (hstart : s'.freeMemStart = s.freeMemStart) (hstop : s'.freeMemEnd = s.freeMemEnd) :
    CopyAt s' d v base n where
  block i hi := (hpages i hi).trans (h.block i hi)
  ok i hi := by
    unfold PageOk
    rw [hstart, hstop]
    exact h.ok i hi

theorem CopyAt.used (h : CopyAt s d v base n) (ha : OnlyAllocates s s') : CopyAt s' d v base n :=
  h.congr (fun i hi => ha.used _ (dirBlockKind.used (h.block i hi))) ha.start ha.stop

theorem addrAt_addrOf {addrs : Fin directBlknum → Int} :
    Post (addrAt addrs n) s (fun a s' => a = addrOf addrs n ∧ s' = s) fun _ => True := by
  unfold addrAt addrOf
  split
  · rename_i h
    have hlt : n < directBlknum := by exact_mod_cast h.2
    rw [dif_pos hlt]
    exact .pure ⟨by simp, rfl⟩
  · exact .fault trivial

theorem rfsR1block_reads {nBlock : Int} :
    Post (rfsR1block nBlock) s (fun _ s' => s' = { s with iobuffer := s.disk nBlock.toNat })
      fun _ => True := by
  unfold rfsR1block ramdiskRead
  exact .ite (fun _ => .fault trivial) fun _ => .bindModify (.pure rfl)

/-- The loop of `rfs_hook_opendir`. The induction is on the blocks left; the page before the
first of them lies just above the last. -/
theorem rfsCacheBlocks_copies {v : Vinode} : ∀ {n : Nat} {previous : Ptr} {s : State}, s.FreeOk →
    Post (rfsCacheBlocks v.addrs n previous) s (fun p s' => OnlyAllocates s s' ∧
      CopyAt s' s.disk v p n ∧ (n = 0 → p = previous) ∧
      (0 < n → previous ≠ 0 → previous = p + 4096 * n)) fun _ => True
  | 0, previous, s, _ =>
      .pure ⟨⟨rfl, fun _ _ => rfl, rfl, rfl, fun _ h => h⟩, ⟨fun _ hi => (by cases hi), fun _ hi => (by cases hi)⟩,
        fun _ => rfl, fun h0 => by cases h0⟩
  | n + 1, previous, s, hok => by
      unfold rfsCacheBlocks
      refine .bind allocPage_fills ?_
      rintro q s0 ⟨hmem, hq, ha⟩
      refine .ite (fun _ => .fault trivial) fun hprev => ?_
      refine .bind addrAt_addrOf ?_
      rintro _ s1 ⟨rfl, rfl⟩
      refine .bind rfsR1block_reads ?_
      rintro _ s2 rfl
      refine .bindModify ?_
      set blk : Block := s1.disk (addrOf v.addrs n).toNat with hblk
      have ha1 : OnlyAllocates s { s1 with iobuffer := blk } :=
        ⟨ha.disk, ha.used, ha.start, ha.stop, ha.free⟩
      have ha2 := ha1.fill hq (.dirBlock blk)
      refine (@rfsCacheBlocks_copies v n q _ (ha2.freeOk hok)).mono ?_
      rintro p s3 ⟨ha3, hcopy, hzero, hpos⟩
      have hqok := hok.2 q hmem
      have hne : q ≠ 0 := (Nat.lt_of_lt_of_le hok.1 hqok.2.1).ne'
      have hat : q = p + 4096 * n := by
        rcases Nat.eq_zero_or_pos n with rfl | hn
        · rw [hzero rfl]
          rfl
        · exact hpos hn hne
      have ha' := ha2.trans ha3
      refine ⟨ha', ⟨fun i hi => ?_, fun i hi => ?_⟩, fun h0 => (by cases h0), fun _ hp => ?_⟩
      · rcases Nat.lt_succ_iff_lt_or_eq.mp hi with hlt | rfl
        · rw [hcopy.block i hlt]
          exact congrArg (fun d : Nat → Block => Page.dirBlock (d (addrOf v.addrs i).toNat)) ha.disk
        · rw [← hat, ha3.used q (dirBlockKind.used (State.setPage_self ..)), State.setPage_self, hblk,
            ha.disk]
      · rcases Nat.lt_succ_iff_lt_or_eq.mp hi with hlt | rfl
        · exact hcopy.ok i hlt
        · unfold PageOk
          rw [← hat, ha'.start, ha'.stop]
          exact hqok
      · have hprev : previous = q + 4096 := by
          by_contra hc
          exact hprev ⟨hp, hc⟩
        rw [hprev, hat, Nat.mul_succ, Nat.add_assoc]

/-! ## Opening -/

/-- The descriptor `file` is at entry `k` of the directory `v`, whose vinode is at `w` and
whose copy starts at `base`. -/
structure DirReader (s : State) (d : Nat → Block) (v : Vinode) (file w base : Ptr) (k : Nat) :
    Prop where
  file : ∃ f x, s.pages file = .file f ∧ f.offset = k ∧ s.pages f.fDentry = .dentry x ∧
    x.dentryInode = w
  vinode : ∃ c, s.pages w = .vinode { v with iFsInfo := c } ∧
    s.pages c = .dirCache ⟨v.blocks, base⟩
  copy : CopyAt s d v base v.blocks.toNat

theorem allocVfsFile_opens {dentry : Ptr} {x : Dentry} {readable writable : Bool}
    (hx : s.pages dentry = .dentry x) :
    Post (allocVfsFile dentry readable writable) s (fun file s' =>
      s'.pages file = .file ⟨.opened, readable, writable, 0, dentry⟩ ∧
      OnlyAllocates (s.setPage dentry (.dentry { x with dRef := x.dRef + 1 })) s')
      fun _ => True := by
  refine .bind allocPage_fills ?_
  rintro file s1 ⟨hmem, hfree, ha⟩
  have hx1 : s1.pages dentry = .dentry x := (ha.used dentry (dentryKind.used hx)).trans hx
  have hne : dentry ≠ file := by
    rintro rfl
    rw [hx] at hfree
    cases hfree
  refine .step (getDentry_run (congrArg Page.asDentry hx1)) (.bindModify (.bindModify (.pure ⟨upd_self .., ?_⟩)))
  have hfile : (s.setPage dentry (.dentry { x with dRef := x.dRef + 1 })).pages file = .free :=
    (State.setPage_ne hne.symm).trans hfree
  have hdentry : OnlyAllocates (s.setPage dentry (.dentry { x with dRef := x.dRef + 1 }))
      (s1.setPage dentry (.dentry { x with dRef := x.dRef + 1 })) := by
    refine ⟨ha.disk, fun p hp => ?_, ha.start, ha.stop, ha.free⟩
    rcases eq_or_ne p dentry with rfl | hpd
    · rw [State.setPage_self, State.setPage_self]
    · rw [State.setPage_ne hpd] at hp ⊢
      rw [ha.used p hp, State.setPage_ne hpd]
  exact hdentry.fill hfile _

theorem rfsHookOpendir_copies {w : Ptr} (hv : s.pages w = .vinode v) (hok : s.FreeOk) :
    Post (rfsHookOpendir w) s (fun _ s' => ∃ c base, s'.pages w = .vinode { v with iFsInfo := c } ∧
      s'.pages c = .dirCache ⟨v.blocks, base⟩ ∧ CopyAt s' s.disk v base v.blocks.toNat ∧
      ∀ p, p ≠ w → s.pages p ≠ .free → s'.pages p = s.pages p) fun _ => True := by
  refine .step (getVinode_run (congrArg Page.asVinode hv)) ?_
  refine .bind (rfsCacheBlocks_copies hok) ?_
  rintro base s1 ⟨ha, hcopy, -, -⟩
  refine .bind allocPage_fills ?_
  rintro c s2 ⟨-, hfree, ha2⟩
  refine .bindModify (.bindModify (.pure ?_))
  have hw1 : s1.pages w = .vinode v := (ha.used w (vinodeKind.used hv)).trans hv
  have hcw : c ≠ w := by
    rintro rfl
    rw [hw1] at hfree
    cases hfree
  have ha3 : OnlyAllocates s1 (s2.setPage c (.dirCache ⟨v.blocks, base⟩)) := ha2.fill hfree _
  have hcopy3 := hcopy.used ha3
  have hpages : ∀ p, p ≠ w → ((s2.setPage c (.dirCache ⟨v.blocks, base⟩)).setPage w
      (.vinode { v with iFsInfo := c })).pages p =
      (s2.setPage c (.dirCache ⟨v.blocks, base⟩)).pages p := fun p hp => State.setPage_ne hp
  refine ⟨c, base, upd_self .., ?_, ?_, fun p hp hused => ?_⟩
  · rw [hpages c hcw]
    exact upd_self ..
  · refine hcopy3.congr (fun i hi => hpages _ ?_) rfl rfl
    intro hiw
    have hblock := hcopy.block i hi
    rw [hiw, hw1] at hblock
    cases hblock
  · rw [hpages p hp, (ha.trans ha3).used p hused]

theorem vfsOpendir_reader {host : VinodeOps} {path : Path} {s1 : State} {r : LookupResult}
    {dentry : Ptr} {x : Dentry} (hlookup : lookupFinalDentry host path s = .ok (r, s1))
    (hr : r.dentry = some dentry) (hx : s1.dentry dentry = some x)
    (hv : s1.vinode x.dentryInode = some v) (hdir : v.Directory s1.disk) (hok : s1.FreeOk) :
    Post (vfsOpendir host path) s (fun q s2 => ∀ file, q = some file →
      ∃ base, DirReader s2 s1.disk v file x.dentryInode base 0) fun _ => True := by
  have hxp : s1.pages dentry = .dentry x := dentryKind.eq_inj hx
  have hvp : s1.pages x.dentryInode = .vinode v := vinodeKind.eq_inj hv
  have hne : x.dentryInode ≠ dentry := by
    intro heq
    rw [heq, hxp] at hvp
    cases hvp
  refine .step hlookup ?_
  rw [hr]
  refine .step (getDentry_run hx) (.step (getVinode_run hv) ?_)
  rw [if_neg (not_not.mpr hdir.type), hdir.rfs]
  refine .bind (allocVfsFile_opens hxp) ?_
  rintro file s2 ⟨hfile, ha⟩
  have hv2 : s2.pages x.dentryInode = .vinode v := by
    rw [ha.used _ (vinodeKind.used ((State.setPage_ne hne).trans hvp)), State.setPage_ne hne, hvp]
  have hx2 : s2.pages dentry = .dentry { x with dRef := x.dRef + 1 } := by
    rw [ha.used _ (dentryKind.used (State.setPage_self ..)), State.setPage_self]
  refine .bind (R := fun _ s3 => ∃ base, DirReader s3 s1.disk v file x.dentryInode base 0) ?_ ?_
  · refine .bind (rfsHookOpendir_copies hv2 (ha.freeOk hok)) ?_
    rintro _ s3 ⟨c, base, hw3, hc3, hcopy, hkeep⟩
    refine .pure ⟨base, ⟨_, _, (hkeep file ?_ ?_).trans hfile, rfl, (hkeep dentry hne.symm ?_).trans hx2, rfl⟩,
      ⟨c, hw3, hc3⟩, ?_⟩
    · rintro rfl
      rw [hfile] at hv2
      cases hv2
    · exact fileKind.used hfile
    · exact dentryKind.used hx2
    · rwa [ha.disk] at hcopy
  · rintro _ s3 ⟨base, hreader⟩
    refine .pure ?_
    rintro _ ⟨⟩
    exact ⟨base, hreader⟩

/-! ## Reading -/

section

variable {s : State} {d : Nat → Block} {v : Vinode} {file w base : Ptr} {k : Nat}

/-- Entry `k` of the copy is entry `k` of the directory on the disk. -/
theorem CopyAt.readDirentry (h : CopyAt s d v base v.blocks.toNat) (hdir : v.Directory d)
    (hk : k < direntryCount v.size) :
    Pke.readDirentry (base + direntrySize * k) s = .ok (toDir (dirEntryAt d v.addrs k), s) := by
  have hsize := hdir.size
  have hlt : k / 128 < v.blocks.toNat := by
    simp only [direntryCount, rfsBlksize] at hk hsize
    omega
  have hblock : s.dirBlock (base + 4096 * (k / 128)) =
      some (d (addrOf v.addrs (k / 128)).toNat) := congrArg Page.asDirBlock (h.block _ hlt)
  have hplace : (base : Int) + direntrySize * k =
      ((base + 4096 * (k / 128) : Nat) : Int) + direntrySize * ((k % 128 : Nat) : Int) := by
    simp only [direntrySize]
    omega
  rw [hplace]
  exact readDirentry_run (h.ok _ hlt).1 hblock (Nat.mod_lt _ (by omega)) (hdir.names k hk)

/-- One call of `vfs_readdir`: the entry the descriptor is at, or the end. -/
theorem DirReader.readdir (h : DirReader s d v file w base k) (hdir : v.Directory d)
    (host : VinodeOps) : ∃ s', vfsReaddir host file s = .ok (listed d v k, s') ∧
      DirReader s' d v file w base (if k < direntryCount v.size then k + 1 else k) := by
  obtain ⟨f, x, hf, hoff, hx, rfl⟩ := h.file
  obtain ⟨c, hv, hc⟩ := h.vinode
  have hsize := hdir.size
  have hten : v.blocks ≤ 10 := hdir.blocks.2
  have htotal : wrap32 (v.size % 2 ^ 64 / direntrySize) = direntryCount v.size := by
    simp only [wrap32, direntrySize, direntryCount, rfsBlksize] at hsize ⊢
    omega
  have hrun : rfsReaddir x.dentryInode f.offset s =
      .ok (((listed d v k).1, (listed d v k).2,
        ((if k < direntryCount v.size then k + 1 else k : Nat) : Int)), s) := by
    rw [rfsReaddir, bind_of_ok (getVinode_run (congrArg Page.asVinode hv)), hoff]
    dsimp only
    rw [htotal]
    by_cases hk : k < direntryCount v.size
    · rw [if_neg (by omega), bind_of_ok (getDirCache_run (congrArg Page.asDirCache hc)),
        bind_of_ok (h.copy.readDirentry hdir hk), listed, if_pos hk, if_pos hk]
      rfl
    · rw [if_pos (by omega), listed, if_neg hk, if_neg hk]
      rfl
  have hother : ∀ p, (∀ g, s.pages p ≠ .file g) → ∀ g, (s.setPage file (.file g)).pages p =
      s.pages p := by
    intro p hp g
    refine State.setPage_ne ?_
    rintro rfl
    exact hp f hf
  refine ⟨s.setPage file (.file { f with
      offset := ((if k < direntryCount v.size then k + 1 else k : Nat) : Int) }), ?_, ?_⟩
  · rw [vfsReaddir, bind_of_ok (getFile_run (congrArg Page.asFile hf)),
      bind_of_ok (getDentry_run (congrArg Page.asDentry hx)),
      bind_of_ok (getVinode_run (congrArg Page.asVinode hv)), if_neg (not_not.mpr hdir.type)]
    dsimp only
    rw [hdir.rfs]
    exact bind_of_ok hrun
  · refine ⟨⟨_, x, State.setPage_self .., rfl, ?_, rfl⟩, ⟨c, ?_, ?_⟩, ?_⟩
    · exact (hother _ (fun g hg => by rw [hx] at hg; cases hg) _).trans hx
    · exact (hother _ (fun g hg => by rw [hv] at hg; cases hg) _).trans hv
    · exact (hother _ (fun g hg => by rw [hc] at hg; cases hg) _).trans hc
    · exact h.copy.congr (fun i hi => hother _ (fun g hg => by rw [h.copy.block i hi] at hg; cases hg) _) rfl rfl

/-- The pages a descriptor on a directory goes through. -/
def State.UsedBy (s : State) (file p : Ptr) : Prop :=
  p = file ∨ ∃ f, s.file file = some f ∧ (p = f.fDentry ∨
    ∃ x, s.dentry f.fDentry = some x ∧ (p = x.dentryInode ∨
      ∃ u, s.vinode x.dentryInode = some u ∧ (p = u.iFsInfo ∨
        ∃ c, s.dirCache u.iFsInfo = some c ∧
          ∃ i : Nat, (i : Int) < c.blockCount ∧ p = c.dirBaseAddr + 4096 * i)))

/-- What others do while the directory is neither changed nor opened again: nothing to the
pages of the descriptor. -/
structure Spares (file : Ptr) (s s' : State) : Prop where
  pages : ∀ p, s.UsedBy file p → s'.pages p = s.pages p
  start : s'.freeMemStart = s.freeMemStart
  stop : s'.freeMemEnd = s.freeMemEnd

theorem DirReader.spared (h : DirReader s d v file w base k) (hs : Spares file s s') :
    DirReader s' d v file w base k := by
  obtain ⟨f, x, hf, hoff, hx, rfl⟩ := h.file
  obtain ⟨c, hv, hc⟩ := h.vinode
  have hf' : s.file file = some f := congrArg Page.asFile hf
  have hx' : s.dentry f.fDentry = some x := congrArg Page.asDentry hx
  have hv' : s.vinode x.dentryInode = some { v with iFsInfo := c } := congrArg Page.asVinode hv
  have hc' : s.dirCache c = some ⟨v.blocks, base⟩ := congrArg Page.asDirCache hc
  refine ⟨⟨f, x, ?_, hoff, ?_, rfl⟩, ⟨c, ?_, ?_⟩, h.copy.congr (fun i hi => ?_) hs.start hs.stop⟩
  · exact (hs.pages file (.inl rfl)).trans hf
  · exact (hs.pages _ (.inr ⟨f, hf', .inl rfl⟩)).trans hx
  · exact (hs.pages _ (.inr ⟨f, hf', .inr ⟨x, hx', .inl rfl⟩⟩)).trans hv
  · exact (hs.pages _ (.inr ⟨f, hf', .inr ⟨x, hx', .inr ⟨_, hv', .inl rfl⟩⟩⟩)).trans hc
  · refine hs.pages _ (.inr ⟨f, hf', .inr ⟨x, hx', .inr ⟨_, hv', .inr ⟨_, hc', i, ?_, rfl⟩⟩⟩⟩)
    dsimp only
    omega

/-! ## Closing -/

/-- The state with the pages `ps` given back, one after the other. -/
def State.gaveBack (s : State) (ps : List Ptr) : State :=
  { s with
    pages := fun p => if p ∈ ps then .free else s.pages p
    freePages := ps.reverse ++ s.freePages }

theorem State.gaveBack_cons (s : State) (p : Ptr) (ps : List Ptr) :
    ({ s.setPage p .free with freePages := p :: s.freePages } : State).gaveBack ps =
      s.gaveBack (p :: ps) := by
  have hpages : (fun q => if q ∈ ps then Page.free else (s.setPage p .free).pages q) =
      fun q => if q ∈ p :: ps then Page.free else s.pages q := by
    funext q
    rcases eq_or_ne q p with rfl | hne
    · simp [State.setPage]
    · simp [State.setPage_ne hne, hne]
  simp only [State.gaveBack, hpages, List.reverse_cons, List.append_assoc, List.singleton_append]
  rfl

/-- The pages of a copy of `n` blocks, from block `i` on. -/
def copyPages (base : Ptr) (i n : Nat) : List Ptr :=
  (List.range' i n).map fun j => base + 4096 * j

theorem freeDirBlocks_run : ∀ {n i : Nat} {s : State},
    (∀ j, i ≤ j → j < i + n → PageOk s (base + 4096 * j)) →
    freeDirBlocks base n i s = .ok ((), s.gaveBack (copyPages base i n))
  | 0, _, _, _ => rfl
  | n + 1, i, s, hok => by
      have hfirst : freePage (base + i * 4096) s = .ok ((), { s.setPage (base + 4096 * i) .free with
          freePages := (base + 4096 * i) :: s.freePages }) := by
        obtain ⟨hmod, hlo, hhi⟩ := hok i (Nat.le_refl i) (by omega)
        rw [Nat.mul_comm i, freePage, Exec.bind_get,
          if_neg (by push Not; exact ⟨hmod, hlo, hhi⟩)]
        rfl
      rw [freeDirBlocks, bind_of_ok hfirst, freeDirBlocks_run fun j hij hj => ?_,
        State.gaveBack_cons]
      · rfl
      · exact hok j (by omega) (by omega)

theorem DirReader.closedir (h : DirReader s d v file w base k) :
    rfsHookClosedir w s = .ok (0, s.gaveBack (copyPages base 0 v.blocks.toNat)) := by
  obtain ⟨c, hv, hc⟩ := h.vinode
  rw [rfsHookClosedir, bind_of_ok (getVinode_run (congrArg Page.asVinode hv)),
    bind_of_ok (getDirCache_run (congrArg Page.asDirCache hc)),
    bind_of_ok (freeDirBlocks_run fun j _ hj => h.copy.ok j (by simpa using hj))]
  rfl

end

/-! ## A whole listing -/

/-- A listing of the descriptor `file` from `s` on: the results of its calls of
`vfs_readdir`, and the state now. -/
inductive Undisturbed (host : VinodeOps) (file : Ptr) (s : State) :
    List (Int × Option Dir) → State → Prop
  | opened : Undisturbed host file s [] s
  | readdir {rs : List (Int × Option Dir)} {t t' : State} {r : Int × Option Dir}
      (h : Undisturbed host file s rs t) (hrun : vfsReaddir host file t = .ok (r, t')) :
      Undisturbed host file s (rs ++ [r]) t'
  | others {rs : List (Int × Option Dir)} {t t' : State} (h : Undisturbed host file s rs t)
      (hspares : Spares file t t') : Undisturbed host file s rs t'

theorem Undisturbed.reader {host : VinodeOps} {t : State} {file w : Ptr}
    {rs : List (Int × Option Dir)} (h : Undisturbed host file s rs t)
    (hs : DirReader s d v file w base 0) (hdir : v.Directory d) :
    rs = (List.range rs.length).map (listed d v) ∧
      DirReader t d v file w base (min rs.length (direntryCount v.size)) := by
  induction h with
  | opened => exact ⟨rfl, by simpa using hs⟩
  | @readdir rs t t' r _ hrun ih =>
      obtain ⟨hrs, hreader⟩ := ih
      obtain ⟨t1, hrun1, hreader1⟩ := hreader.readdir hdir host
      obtain ⟨rfl, rfl⟩ : listed d v (min rs.length (direntryCount v.size)) = r ∧ t1 = t' := by
        simpa using hrun1.symm.trans hrun
      refine ⟨?_, ?_⟩
      · rw [List.length_append, List.length_singleton, List.range_succ, List.map_append, ← hrs,
          listed_min]
        rfl
      · have hnext : (if min rs.length (direntryCount v.size) < direntryCount v.size
            then min rs.length (direntryCount v.size) + 1
            else min rs.length (direntryCount v.size)) =
            min (rs.length + 1) (direntryCount v.size) := by
          split <;> omega
        rw [List.length_append, List.length_singleton]
        rwa [hnext] at hreader1
  | others _ hspares ih => exact ⟨ih.1, ih.2.spared hspares⟩

/-- The listing of a directory that had the vinode `v` at `w` and the disk `d` when it was
opened: every result so far is the next entry or the end, so is the next one, and closing
gives back the pages that hold the copied blocks. -/
structure ListsAll (host : VinodeOps) (file w : Ptr) (d : Nat → Block) (v : Vinode)
    (rs : List (Int × Option Dir)) (t : State) : Prop where
  results : rs = (List.range rs.length).map (listed d v)
  next : ∃ t', vfsReaddir host file t = .ok (listed d v rs.length, t')
  close : ∃ base, (∀ i < v.blocks.toNat, t.pages (base + 4096 * i) =
      .dirBlock (d (addrOf v.addrs i).toNat)) ∧
    rfsHookClosedir w t = .ok (0, t.gaveBack (copyPages base 0 v.blocks.toNat))

/-- A directory of any number of blocks that `vfs_opendir` has opened is listed completely
and in order, as long as nobody touches it. -/
theorem opendir_lists_all {host : VinodeOps} {path : Path} {s s1 s2 t : State} {r : LookupResult}
    {dentry file : Ptr} {x : Dentry} {v : Vinode} {rs : List (Int × Option Dir)}
    (hlookup : lookupFinalDentry host path s = .ok (r, s1)) (hr : r.dentry = some dentry)
    (hx : s1.dentry dentry = some x) (hv : s1.vinode x.dentryInode = some v)
    (hdir : v.Directory s1.disk) (hok : s1.FreeOk)
    (hopen : vfsOpendir host path s = .ok (some file, s2))
    (hrun : Undisturbed host file s2 rs t) :
    ListsAll host file x.dentryInode s1.disk v rs t := by
  obtain ⟨base, hreader⟩ := (vfsOpendir_reader hlookup hr hx hv hdir hok).of_ok hopen file rfl
  obtain ⟨hresults, hnow⟩ := hrun.reader hreader hdir
  obtain ⟨t', hnext, -⟩ := hnow.readdir hdir host
  refine ⟨hresults, ⟨t', ?_⟩, base, hnow.copy.block, hnow.closedir⟩
  rw [hnext, listed_min]

/-- The vinode of a root directory of 129 entries, in two blocks. -/
def wideDir : Vinode :=
  { inum := 0, ref := 1, size := 4128, type := dirI, nlinks := 1, blocks := 2,
    addrs := fun i => if i = 0 then 12 else 13, iFsInfo := 0, sb := 24576, iOps := .rfs }

/-- A kernel with that directory on an empty disk, and the free pages from the last to the
first, as `create_freepage_list` leaves them. -/
def wideBoot : State :=
  { smallBoot.state.setPage 28672 (.vinode wideDir) with
    disk := fun _ _ => 0
    freePages := smallBoot.state.freePages.reverse }

theorem wideDir_directory : wideDir.Directory wideBoot.disk := by
  refine ⟨rfl, rfl, by decide, by decide, fun i _ => ?_⟩
  have hempty : (dirEntryAt wideBoot.disk wideDir.addrs i).2 = [] := rfl
  rw [hempty]
  exact ⟨List.not_mem_nil, by decide⟩

theorem wideBoot_lookup : lookupFinalDentry noHost pathRoot wideBoot =
    .ok (⟨some 32768, wideBoot.vfsRootDentry, []⟩, wideBoot) := rfl

theorem wideBoot_freeOk : wideBoot.FreeOk := by
  refine ⟨by decide, ?_⟩
  unfold PageOk
  decide

theorem opendir_lists_all_wide : ∃ s2, vfsOpendir noHost pathRoot wideBoot = .ok (some 491520, s2) ∧
    ListsAll noHost 491520 28672 wideBoot.disk wideDir [] s2 := by
  obtain ⟨s2, hopen⟩ : ∃ s2, vfsOpendir noHost pathRoot wideBoot = .ok (some 491520, s2) := by
    have hfile : (match vfsOpendir noHost pathRoot wideBoot with
        | .ok (q, _) => q
        | .error _ => none) = some 491520 := by decide +kernel
    split at hfile
    · rename_i q s2 hrun
      exact ⟨s2, hfile ▸ hrun⟩
    · cases hfile
  have hx : wideBoot.dentry 32768 = some ⟨ramdiskName, 0, 28672, 12288⟩ := rfl
  exact ⟨s2, hopen, opendir_lists_all wideBoot_lookup rfl hx rfl wideDir_directory
    wideBoot_freeOk hopen .opened⟩

end Pke
