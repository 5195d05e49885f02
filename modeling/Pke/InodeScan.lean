import Pke.Inodes
import Pke.Ownership

/-!
# The scan for a free inode

`rfs_create` and `rfs_mkdir` look through all disk inodes for a free one, and
their check that one was found cannot fail: the pointer it tests is that of the
last inode read. There are more inodes than data blocks, though, and every
inode in use has a block of its own (`Inv.exists_free`). So the scan finds an
inode as long as the kernel has a page to read it into (`ScanFinds`), and when
the disk is full it is `rfs_alloc_block` that panics.
-/

namespace Pke

open Exec (Post bind_of_ok bind_of_error)

/-! ## More inodes than blocks -/

variable {M : Mount} {o : Objs} {s t : State}

theorem Inv.exists_free {d : Nat → Block} (h : Inv M o d) :
    ∃ n, InodeNum n ∧ 0 < n ∧ (diskInode d n).type = rFree := by
  by_contra hnone
  have hlive : ∀ n, InodeNum n → Live (diskInode d) n := by
    intro n hn hfree
    exact hnone ⟨n, hn, h.links.pos_of_free hfree hn, hfree⟩
  -- the first block of each inode, among the data blocks
  let first : Int → Int := fun n => addrOf (curInode (diskInode d) (o.mem M) n).addrs 0
  have hmaps : ∀ n ∈ inodeNums, first n ∈ Finset.Ico (12 : Int) 112 := by
    intro n hn
    have hn := hlive n (mem_inodeNums.mp hn)
    obtain ⟨hlo, hhi, -⟩ := h.blocks.owned n 0 hn (h.blocks.curShape hn).blocks.1
    exact Finset.mem_Ico.mpr ⟨hlo, hhi⟩
  obtain ⟨n, hn, m, hm, hne, heq⟩ :=
    Finset.exists_ne_map_eq_of_card_lt_of_maps_to (by simp [inodeNums]) hmaps
  have hn := hlive n (mem_inodeNums.mp hn)
  have hm := hlive m (mem_inodeNums.mp hm)
  exact hne (h.blocks.excl n m 0 0 hn hm (h.blocks.curShape hn).blocks.1
    (h.blocks.curShape hm).blocks.1 heq).1

/-! ## Pages of the scan -/

section

variable {s : State} {o : Objs} {d : Nat → Block} {b : Block} {R : List Ptr}

/-- `alloc_page` fails for want of pages only. -/
theorem allocPage_short (h : Holds s o d b R) : Post allocPage s
    (fun p s' => s.freePages = p :: s'.freePages) fun e => e = .nullPage ∧ s.freePages = [] := by
  unfold allocPage
  refine .bindGet ?_
  split
  · exact .fault ⟨rfl, ‹_›⟩
  · rename_i p rest hfree
    have hp := h.mem.free p (hfree ▸ List.mem_cons_self ..)
    rw [if_pos (by rw [hp]; rfl)]
    exact .bindModify (.pure hfree)

theorem freePage_short {p : Ptr} : Post (freePage p) s
    (fun _ s' => s'.freePages = p :: s.freePages) fun _ => True := by
  unfold freePage
  refine .bindGet (.ite (fun _ => .fault trivial) fun _ => .modify rfl)

theorem rfsReadDinode_short {n : Int} (h : Holds s o d b R) (hn : InodeNum n) :
    Post (rfsReadDinode n) s (fun r s' => ∃ page, r = some (page, diskInode d n) ∧
      s.freePages = page :: s'.freePages ∧ page ∉ R ∧ Holds s' o d (d (inodeBlock n)) (page :: R))
      fun e => e = .nullPage ∧ s.freePages = [] := by
  obtain ⟨hblk, -, hoff, -⟩ := inode_place hn
  have hpages : Post (rfsReadDinode n) s
      (fun r s' => ∀ page di, r = some (page, di) → s.freePages = page :: s'.freePages)
      fun e => e = .nullPage ∧ s.freePages = [] := by
    have hread := rfsR1block_run (s := s) hblk
    have h1 := (rfsR1block_post (E := fun _ => True) h fun _ => trivial).of_ok hread
    refine .step hread ?_
    rw [if_neg (by decide)]
    refine .bind (allocPage_short h1.2.2) fun page s2 hfree => ?_
    rw [if_neg hoff]
    refine .bindGet (.pure ?_)
    rintro _ _ ⟨rfl, rfl⟩
    exact hfree
  refine ((rfsReadDinode_post (E := (· = .nullPage)) h hn rfl).and hpages).mono ?_ |>.monoFault
    fun e he => he.2
  rintro _ s1 ⟨⟨page, rfl, hpage, h1⟩, hfree⟩
  exact ⟨page, rfl, hfree _ _ rfl, hpage, h1⟩

/-- The scan returns the first free inode and its page, or there is no page to read into.
The induction is on the inodes left, with a free one among them. -/
theorem rfsFindFreeInode_finds : ∀ {n : Nat} {i : Int} {s : State} {b : Block},
    Holds s o d b R → 0 ≤ i → i + n ≤ 320 →
    (∃ m, i ≤ m ∧ m < i + n ∧ (diskInode d m).type = rFree) →
    Post (rfsFindFreeInode n i) s (fun r s' => InodeNum r.1 ∧
      (diskInode d r.1).type = rFree ∧ Ends s' o d (r.2.1 :: R))
      fun e => e = .nullPage ∧ s.freePages = []
  | 0, i, _, _, _, _, _, ⟨m, hle, hlt, _⟩ => by omega
  | n + 1, i, s, b, h, h0, h1, ⟨m, hle, hlt, hm⟩ => by
      have hi : InodeNum i := ⟨h0, by omega⟩
      unfold rfsFindFreeInode
      refine .bind (rfsReadDinode_short h hi) ?_
      rintro _ s1 ⟨page, rfl, hpages, hpage, h1⟩
      refine .bindOption (fun hr => by cases hr) fun r hr => ?_
      obtain rfl := Option.some.inj hr
      refine .ite (fun hc => .pure ⟨hi, hc, _, h1⟩) fun hc => ?_
      have hne : m ≠ i := fun hmi => hc (hmi ▸ hm)
      refine .bind ((freePage_raw (E := fun _ => False) h1 hpage).and freePage_short |>.monoFault
        fun _ hf => hf.1.elim) ?_
      rintro _ s2 ⟨h2, hback⟩
      have hrest := rfsFindFreeInode_finds (n := n) h2 (i := i + 1) (by omega) (by omega)
        ⟨m, by omega, by omega, hm⟩
      rwa [hback, ← hpages] at hrest

end

/-! ## The scan of the two creating functions -/

/-- What the scan of `rfs_create` and `rfs_mkdir` does in `t`: there is a free inode other
than 0, the scan ends at one unless there is no page to read an inode into, and on a full
disk the panic is that of `rfs_alloc_block`, with nothing written yet. -/
structure ScanFinds (t : State) : Prop where
  free : ∃ n, InodeNum n ∧ n ≠ 0 ∧ (diskInode t.disk n).type = rFree
  scan : Post (rfsFindFreeInode rfsInodeCount 0) t
    (fun r t' => InodeNum r.1 ∧ r.1 ≠ 0 ∧ (diskInode t.disk r.1).type = rFree ∧ t'.disk = t.disk)
    fun e => e = .nullPage ∧ t.freePages = []
  full : ∀ parent sub v B, t.vinode parent = some v → t.superBlock v.sb = some B →
    (∀ k < B.nblocks.toNat, B.freemap k ≠ 0) → t.freePages ≠ [] →
    ∃ r t', rfsFindFreeInode rfsInodeCount 0 t = .ok (r, t') ∧ t'.disk = t.disk ∧
      rfsAllocBlock v.sb t' = .error (.panic "rfs_alloc_block: no more free block!") ∧
      rfsCreate parent sub t = .error (.panic "rfs_alloc_block: no more free block!") ∧
      rfsMkdir parent sub t = .error (.panic "rfs_alloc_block: no more free block!")

theorem rfsAllocBlock_full {sb : Ptr} {B : SuperBlock} (hB : s.superBlock sb = some B)
    (hfull : ∀ k < B.nblocks.toNat, B.freemap k ≠ 0) :
    rfsAllocBlock sb s = .error (.panic "rfs_alloc_block: no more free block!") := by
  have hnone : findFreeBlock B.freemap B.nblocks.toNat 0 = none := by
    cases hfind : findFreeBlock B.freemap B.nblocks.toNat 0 with
    | none => rfl
    | some k =>
        obtain ⟨-, hlt, hzero⟩ := findFreeBlock_some hfind
        exact absurd hzero (hfull k (by omega))
  rw [rfsAllocBlock, bind_of_ok (getSuperBlock_run hB), hnone]
  rfl

theorem Holds.scanFinds {d : Nat → Block} {b : Block} (h : Holds t o d b [])
    (hfree : ∃ n, InodeNum n ∧ 0 < n ∧ (diskInode d n).type = rFree)
    (hnonzero : ∀ n, InodeNum n → (diskInode d n).type = rFree → 0 < n) : ScanFinds t := by
  obtain ⟨n, hn, hpos, htype⟩ := hfree
  have hscan := rfsFindFreeInode_finds (n := 320) h (Int.le_refl 0) (by decide)
    ⟨n, hn.1, by have := hn.2; omega, htype⟩
  have hdisk : t.disk = d := h.disk
  subst hdisk
  refine ⟨⟨n, hn, by omega, htype⟩, hscan.mono ?_, fun parent sub v B hv hB hfull hpages => ?_⟩
  · rintro r t' ⟨hr, hrfree, b', h'⟩
    exact ⟨hr, (hnonzero _ hr hrfree).ne', hrfree, h'.disk⟩
  · cases hrun : rfsFindFreeInode rfsInodeCount 0 t with
    | error e => exact absurd (hscan.of_error hrun).2 hpages
    | ok r =>
        obtain ⟨r, t'⟩ := r
        obtain ⟨-, -, b', h'⟩ := hscan.of_ok hrun
        have hsame : t'.objs = t.objs := h'.objs.trans h.objs.symm
        have hB' : t'.superBlock v.sb = some B :=
          (congrFun (congrArg Objs.superBlock hsame) v.sb).trans hB
        have halloc := rfsAllocBlock_full hB' hfull
        have hnew : ∀ type, rfsNewInode v.sb type t =
            .error (.panic "rfs_alloc_block: no more free block!") := by
          intro type
          rw [rfsNewInode, bind_of_ok hrun]
          exact bind_of_error halloc
        refine ⟨r, t', rfl, h'.disk, halloc, ?_, ?_⟩
        · rw [rfsCreate, bind_of_ok (getVinode_run hv)]
          exact bind_of_error (hnew rFile)
        · rw [rfsMkdir, bind_of_ok (getVinode_run hv)]
          exact bind_of_error (hnew rDir)

/-- In `t` the creating call on `path` that started in `s` is about to look for an inode:
the walk has missed the name, and there is a dentry for it. -/
def ScansIn (host : VinodeOps) (path : Path) (s t : State) : Prop :=
  ∃ r s1 name s2 dentry, lookupFinalDentry host path s = .ok (r, s1) ∧ r.dentry = none ∧
    getBaseName path s1 = .ok (name, s2) ∧ allocVfsDentry name 0 r.parent s2 = .ok (dentry, t)

theorem getBaseName_same {path : Path} {s' : State} {name : Name}
    (h : getBaseName path s = .ok (name, s')) : s' = s := by
  have hpost : Post (getBaseName path) s (fun _ t => t = s) fun _ => True := by
    refine .bind (R := fun _ t => t = s) (.ite (fun _ => .pure rfl) fun _ => .fault trivial) ?_
    rintro _ _ rfl
    exact .ofOption (fun _ => trivial) fun _ _ => rfl
  exact hpost.of_ok h

/-- The walk of a creating call changes the cache only. -/
theorem ScansIn.holds {host : VinodeOps} {path : Path} (h : ScansIn host path s t) (hs : Sound M s)
    (hpath : DirPath s.disk path) : ∃ o b, Holds t o s.disk b [] := by
  obtain ⟨r, s1, name, s2, dentry, hlookup, -, hname, halloc⟩ := h
  obtain ⟨tokens, hp, hdir⟩ := hpath
  obtain ⟨b, hholds⟩ := hs.holds
  obtain ⟨-, o1, ⟨b1, h1⟩, -⟩ := (lookupFinalDentry_post (E := fun _ => True)
    .none hholds hs.inv hp hdir.stopOk trivial
    fun _ => trivial).of_ok hlookup
  obtain rfl := getBaseName_same hname
  exact ⟨_, _, ((allocVfsDentry_null (E := fun _ => True) h1 trivial).of_ok halloc).2.2.2⟩

theorem Sound.scanFinds {b : Block} (hs : Sound M s) (h : Holds t o s.disk b []) : ScanFinds t :=
  h.scanFinds hs.inv.exists_free fun _ hn hfree => hs.inv.links.pos_of_free hfree hn

/-- In every state of every run the scan finds a free inode, also where a call that creates
a name comes to it. -/
theorem inode_scan_finds {b : Boot} {host : VinodeOps} {s0 s : State} (h0 : b.Starts s0)
    (hrun : Run host FileCalls s0 s) :
    ScanFinds s ∧ ∀ path t, DirPath s.disk path → ScansIn host path s t →
      t.disk = s.disk ∧ ScanFinds t := by
  have hok := FileCalls.guard s0.mount ⟨False, True, False, False, False⟩ id id id
  have hs : Sound s0.mount s := (hrun.steps hok h0.sound).1
  obtain ⟨b, hholds⟩ := hs.holds
  refine ⟨hs.scanFinds hholds, fun path t hpath hscan => ?_⟩
  obtain ⟨o, b', h'⟩ := hscan.holds hs hpath
  exact ⟨h'.disk, hs.scanFinds h'⟩

/-- A run that has made a file and a directory. -/
theorem inode_scan_finds_two : ∃ s, Run noHost FileCalls smallBoot.state s ∧
    (diskInode s.disk 2).type = rDir ∧ (ScanFinds s ∧
      ∀ path t, DirPath s.disk path → ScansIn noHost path s t → t.disk = s.disk ∧ ScanFinds t) := by
  obtain ⟨s, hrun, hdir⟩ := run_with noHost FileCalls [.open pathA rdwrCreat, .mkdir pathB]
    smallBoot.state (fun s => decide ((diskInode s.disk 2).type = rDir)) (by decide +kernel)
  exact ⟨s, hrun, of_decide_eq_true hdir, inode_scan_finds (Boot.starts smallBoot_boots) hrun⟩

end Pke
