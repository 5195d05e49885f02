import Pke.Creation
import Pke.Ownership
import Pke.Seek

/-!
# Creations that fail

`rfs_create` and `rfs_mkdir` take a disk inode and a block before
`rfs_add_direntry` can refuse the new entry, which it does when the parent is
not a directory, and do not give them back (`Claimed`). So a failed creation
leaves everything as it was exactly when it fails before that
(`failed_creation_iff`): the path exists already, or a component before the
last is missing. The lookup itself may bring vinodes into the cache; the walk
of `Seek` says which, in the state before the call.
-/

namespace Pke

open Exec (Post bind_of_ok)

/-! ## What is to stay -/

/-- The entries of directory `n`, in all its blocks. -/
def diskEntries (d : Nat → Block) (n : Int) : List (Int × Name) :=
  (List.range (direntryCount (diskInode d n).size)).map (dirEntryAt d (diskInode d n).addrs)

/-- The same vinodes are cached. -/
def SameCached (s s' : State) : Prop := ∀ k, (s'.cachedAt k).isSome = (s.cachedAt k).isSome

structure SameFs (s s' : State) : Prop where
  freemap : ∀ p B, s.superBlock p = some B →
    ∃ B', s'.superBlock p = some B' ∧ B'.freemap = B.freemap
  inodes : ∀ n, diskInode s'.disk n = diskInode s.disk n
  entries : ∀ n, diskEntries s'.disk n = diskEntries s.disk n
  cached : SameCached s s'

variable {fs : Ptr → FsType} {s s' s1 : State} {name : Name} {parent : Ptr} {path : Path}

theorem Walked.sameFs_iff (h : Walked s s') : SameFs s s' ↔ SameCached s s' := by
  refine ⟨SameFs.cached, fun hcached => ⟨fun p B hB => ?_, fun n => ?_, fun n => ?_, hcached⟩⟩
  · exact ⟨B, (h.superBlock p).trans hB, rfl⟩
  · rw [h.disk]
  · rw [h.disk]

/-- A lookup leaves the cache as it was when it finds only what the cache has. -/
theorem Met.sameCached_iff {k : Seek} {t : Ptr} (h : Met fs s k t s') :
    SameCached s s' ↔ ∀ w ∈ k.found, 0 ≤ w.inum → s.cachedAt w.key ≠ none := by
  refine ⟨fun hsame w hw hpos hnone => ?_, fun hall key => ?_⟩
  · cases hk : k.foundAt w.key with
    | none =>
        have hnot := List.find?_eq_none.mp hk w hw
        exact hnot (decide_eq_true ⟨rfl, hpos⟩)
    | some u =>
        obtain ⟨p, v, hp, -⟩ := h.cached _ u hnone hk
        have heq := hsame w.key
        rw [hp, hnone] at heq
        cases heq
  · cases h0 : s.cachedAt key with
    | some p => rw [h.walked.cachedAt h0]
    | none =>
        cases hk : k.foundAt key with
        | none => rw [h.absent key h0 hk]
        | some w =>
            have hmatch := List.find?_some hk
            obtain ⟨rfl, hpos⟩ := of_decide_eq_true hmatch
            exact absurd h0 (hall w (List.mem_of_find?_eq_some hk) hpos)

/-- A block has been taken. -/
def Claimed (s s' : State) : Prop :=
  ∃ sb B B' k, s.superBlock sb = some B ∧ s'.superBlock sb = some B' ∧ B.freemap k = 0 ∧
    B'.freemap k = 1

theorem Claimed.not_sameFs (h : Claimed s s') : ¬SameFs s s' := by
  obtain ⟨sb, B, B', k, hB, hB', hzero, hone⟩ := h
  intro hsame
  obtain ⟨B1, hB1, hmap⟩ := hsame.freemap sb B hB
  obtain rfl := Option.some.inj (hB'.symm.trans hB1)
  rw [hmap, hzero] at hone
  cases hone

theorem Claimed.walked {s2 : State} (h : Claimed s s1) (hw : Walked s1 s2) : Claimed s s2 := by
  obtain ⟨sb, B, B', k, hB, hB', hmap⟩ := h
  exact ⟨sb, B, B', k, hB, (hw.superBlock sb).trans hB', hmap⟩

theorem Claimed.of_walked {s0 : State} (hw : Walked s0 s) (h : Claimed s s1) : Claimed s0 s1 := by
  obtain ⟨sb, B, B', k, hB, hB', hmap⟩ := h
  exact ⟨sb, B, B', k, (hw.superBlock sb).symm.trans hB, hB', hmap⟩

/-! ## Taking an inode and a block -/

theorem Fetched.rfsFindFreeInode {s0 : State} : ∀ {n : Nat} {i : Int} {s : State}, Fetched s0 s →
    Post (Pke.rfsFindFreeInode n i) s
      (fun r s' => Fetched s0 s' ∧ s0.pages r.2.1 = .free) fun _ => True
  | 0, _, _, _ => .fault trivial
  | n + 1, i, s, h => by
      refine .bind h.rfsReadDinode ?_
      rintro r s1 ⟨h1, hread⟩
      refine .bindOption (fun _ => trivial) fun q hq => ?_
      have hpage := h.fresh (hread q hq).1
      refine .ite (fun _ => .pure ⟨h1, hpage⟩) fun _ => ?_
      exact .bind (h1.freePage hpage) fun _ s2 h2 => h2.2.rfsFindFreeInode

/-- Writing a disk inode does not touch memory. -/
theorem rfsWriteDinode_pages {di : Dinode} {n : Int} :
    Post (rfsWriteDinode di n) s (fun ret s' => ret = 0 ∧ s'.pages = s.pages) fun _ => True := by
  refine .bind rfsR1block_reads ?_
  rintro _ _ rfl
  refine .ite (fun _ => .fault trivial) fun _ => .bindModify ?_
  exact .ite (fun _ => .fault trivial) fun _ => .bindModify (.pure ⟨rfl, rfl⟩)

theorem rfsAllocBlock_takes {sb : Ptr} : Post (rfsAllocBlock sb) s (fun _ s' =>
    ∃ B k, s.superBlock sb = some B ∧ B.freemap k = 0 ∧
      s' = s.setPage sb (.superBlock { B with freemap := upd B.freemap k 1 })) fun _ => True := by
  refine .bindRead trivial fun B hB => ?_
  split
  · exact .fault trivial
  · rename_i k hk
    obtain ⟨-, -, hzero⟩ := findFreeBlock_some hk
    exact .bindModify (.pure ⟨B, k, hB, hzero, rfl⟩)

theorem setAddr_same {addrs : Fin directBlknum → Int} {i v : Int} :
    Post (setAddr addrs i v) s (fun _ s' => s' = s) fun _ => True := by
  unfold setAddr
  split
  · exact .pure rfl
  · exact .fault trivial

/-- `rfs_create` and `rfs_mkdir` up to the entry: a block is taken, and the names and
vinodes are what they were. -/
structure Claims (s s' : State) : Prop where
  claimed : Claimed s s'
  vinode : ∀ p v, s.vinode p = some v → s'.vinode p = some v
  dentry : ∀ p x, s.dentry p = some x → s'.dentry p = some x

theorem rfsNewInode_claims {sb : Ptr} {type : Int} :
    Post (rfsNewInode sb type) s (fun _ s' => Claims s s') fun _ => True := by
  refine .bind (Fetched.refl s).rfsFindFreeInode ?_
  rintro ⟨n, page, di⟩ s1 ⟨h1, hpage⟩
  refine .bind rfsAllocBlock_takes ?_
  rintro _ _ ⟨B, k, hB, hzero, rfl⟩
  refine .bind setAddr_same ?_
  rintro _ _ rfl
  refine .bind rfsWriteDinode_pages ?_
  rintro _ s3 ⟨-, hpages⟩
  have hsb : s.pages sb = .superBlock B := h1.super sb B (superBlockKind.eq_inj hB)
  -- the page of the inode was free, so it is no page of interest
  have hkeep : ∀ p, s.pages p ≠ .free → (s3.setPage page .free).pages p = s3.pages p := by
    intro p hp
    refine State.setPage_ne ?_
    rintro rfl
    exact hp hpage
  have hother : ∀ p, s.pages p ≠ .free → p ≠ sb →
      (s3.setPage page .free).pages p = s1.pages p := by
    intro p hp hne
    rw [hkeep p hp, hpages, State.setPage_ne hne]
  refine .bind (R := fun _ s4 => s4.pages = (s3.setPage page .free).pages) ?_ ?_
  · exact .bindGet (.ite (fun _ => .fault trivial) fun _ => .modify rfl)
  · intro _ s4 h4
    refine .pure ⟨⟨sb, B, { B with freemap := upd B.freemap k 1 }, k, ?_, ?_, hzero, upd_self ..⟩,
      fun p v hv => ?_, fun p x hx => ?_⟩
    · exact congrArg Page.asSuperBlock hsb
    · rw [State.superBlock, h4, hkeep sb (superBlockKind.used hsb), hpages, State.setPage_self]
      rfl
    · have hp : s.pages p = .vinode v := vinodeKind.eq_inj hv
      have hne : p ≠ sb := by
        rintro rfl
        rw [hsb] at hp
        cases hp
      rw [State.vinode, h4, hother p (vinodeKind.used hp) hne]
      exact Kept.vinode h1.toFrame hv
    · have hp : s.pages p = .dentry x := dentryKind.eq_inj hx
      have hne : p ≠ sb := by
        rintro rfl
        rw [hsb] at hp
        cases hp
      rw [State.dentry, h4, hother p (dentryKind.used hp) hne]
      exact Kept.dentry h1.toFrame hx

/-! ## The entry -/

theorem rfsWriteBackVinode_zero {w : Ptr} :
    Post (rfsWriteBackVinode w) s (fun ret _ => ret = 0) fun _ => True := by
  refine .bindRead trivial fun v hv => .bind rfsWriteDinode_pages ?_
  rintro _ s1 ⟨rfl, -⟩
  rw [if_neg (by decide)]
  exact .pure rfl

/-- In a directory no entry is refused. -/
theorem rfsAddDirentry_dir {dir : Ptr} {v : Vinode} {inum : Int} (hv : s.vinode dir = some v)
    (hdir : v.type = dirI) :
    Post (rfsAddDirentry dir name inum) s (fun ret _ => ret = 0) fun _ => True := by
  refine .step (getVinode_run hv) ?_
  rw [if_neg (not_not.mpr hdir)]
  refine .bind (R := fun _ _ => True) (.mono .any fun _ _ _ => trivial) fun n s1 _ => ?_
  refine .bind (R := fun ret _ => ret = 0) ?_ ?_
  · exact .ite (fun _ => .fault trivial) fun _ => .bindModify (.pure rfl)
  rintro _ s2 rfl
  rw [if_neg (by decide)]
  refine .ite (fun _ => .fault trivial) fun _ => .bindModify ?_
  refine .bind (R := fun ret _ => ret = 0) ?_ ?_
  · exact .ite (fun _ => .fault trivial) fun _ => .bindModify (.pure rfl)
  rintro _ s3 rfl
  rw [if_neg (by decide)]
  refine .bindModify (.bind rfsWriteBackVinode_zero ?_)
  rintro _ s4 rfl
  rw [if_neg (by decide)]
  exact .pure rfl

/-- How `rfs_create` and `rfs_mkdir` end. -/
def CreationEnds (s : State) (parent : Ptr) (q : Option Ptr) (s' : State) : Prop :=
  ∃ v, s.vinode parent = some v ∧
    ((v.type = dirI ∧ q ≠ none) ∨ (v.type ≠ dirI ∧ q = none ∧ Claimed s s'))

theorem rfsCreate_ends {sub : Ptr} :
    Post (rfsCreate parent sub) s (CreationEnds s parent) fun _ => True := by
  refine .bindRead trivial fun v hv => .bind rfsNewInode_claims fun n s1 h1 => ?_
  refine .bind (Fetched.refl s1).rfsLoadVinode ?_
  rintro ⟨w, ret⟩ s2 ⟨-, h2, -⟩
  refine .bindRead trivial fun x hx => ?_
  have hv2 := Kept.vinode h2.toFrame (h1.vinode parent v hv)
  by_cases hdir : v.type = dirI
  · refine .bind (rfsAddDirentry_dir hv2 hdir) ?_
    rintro _ s3 rfl
    rw [if_neg (by decide)]
    exact .pure ⟨v, hv, .inl ⟨hdir, nofun⟩⟩
  · refine .step (rfsAddDirentry_file hv2 hdir) ?_
    rw [if_pos rfl]
    exact .pure ⟨v, hv, .inr ⟨hdir, rfl, h1.claimed.walked h2.toWalked⟩⟩

theorem rfsMkdir_ends {sub : Ptr} :
    Post (rfsMkdir parent sub) s (CreationEnds s parent) fun _ => True := by
  refine .bindRead trivial fun v hv => .bind rfsNewInode_claims fun n s1 h1 => ?_
  refine .bindRead trivial fun x hx => ?_
  have hv1 := h1.vinode parent v hv
  by_cases hdir : v.type = dirI
  · refine .bind (rfsAddDirentry_dir hv1 hdir) ?_
    rintro _ s2 rfl
    rw [if_neg (by decide)]
    refine .bind (Fetched.refl s2).rfsLoadVinode fun r s3 _ => ?_
    exact .pure ⟨v, hv, .inl ⟨hdir, nofun⟩⟩
  · refine .step (rfsAddDirentry_file hv1 hdir) ?_
    rw [if_pos rfl]
    exact .pure ⟨v, hv, .inr ⟨hdir, rfl, h1.claimed⟩⟩

theorem CreationEnds.iff {q : Option Ptr} (h : CreationEnds s parent q s') :
    (q = none → SameFs s s') ↔ ∃ v, s.vinode parent = some v ∧ v.type = dirI := by
  obtain ⟨v, hv, ⟨hdir, hsome⟩ | ⟨hfile, rfl, hclaimed⟩⟩ := h
  · exact ⟨fun _ => ⟨v, hv, hdir⟩, fun _ hnone => absurd hnone hsome⟩
  · refine ⟨fun hsame => absurd (hsame rfl) hclaimed.not_sameFs, ?_⟩
    rintro ⟨u, hu, hdir⟩
    obtain rfl := Option.some.inj (hv.symm.trans hu)
    exact absurd hdir hfile

/-! ## `vfs_mkdir` -/

/-- The walk misses the last component, and only that. -/
def StopsAtLast (path : Path) (rest : List Name) : Prop :=
  rest ≠ [] ∧ rest.head? = path.tokens.getLast?

instance (path : Path) (rest : List Name) : Decidable (StopsAtLast path rest) :=
  inferInstanceAs (Decidable (_ ∧ _))

/-- How `vfs_mkdir` ends, by the walk. -/
def MkdirEnds (fs : Ptr → FsType) (path : Path) (s : State) (k : Seek) (rest : List Name) (q : Int)
    (s' : State) : Prop :=
  (StopsAtLast path rest ∧
    (k.node.type = dirI ∧ q = 0 ∨ k.node.type ≠ dirI ∧ q = -1 ∧ Claimed s s')) ∨
  (¬StopsAtLast path rest ∧ q = -1 ∧ ∃ t, Met fs s k t s')

theorem getBaseName_reads : Post (getBaseName path) s
    (fun name s' => s' = s ∧ path.tokens.getLast? = some name) fun _ => True := by
  refine .bind (R := fun _ s' => s' = s)
    (.ite (fun _ => .pure rfl) fun _ => .fault trivial) ?_
  rintro _ s ⟨rfl⟩
  exact .ofOption (fun _ => trivial) fun name hname => ⟨rfl, hname⟩

/-- The pages of others are not touched when the dentry of a failed creation is freed. -/
theorem Claimed.freePage {s s1 : State} {t : Ptr} {x : Dentry} (h : Claimed s s1)
    (ht : s.dentry t = some x) : Post (freePage t) s1 (fun _ s2 => Claimed s s2) fun _ => True := by
  obtain ⟨sb, B, B', k, hB, hB', hmap⟩ := h
  have hne : sb ≠ t := by
    rintro rfl
    rw [State.dentry, show s.pages sb = .superBlock B from superBlockKind.eq_inj hB] at ht
    cases ht
  refine .bindGet (.ite (fun _ => .fault trivial) fun _ => .modify ⟨sb, B, B', k, hB, ?_, hmap⟩)
  exact (congrArg Page.asSuperBlock (State.setPage_ne hne)).trans hB'

theorem mkdirDentry_ends {r : LookupResult} {k : Seek} {token : Name} {rest : List Name}
    (h : Met fs s k r.parent s1) (hmiss : r.missName = token) (hrfs : k.node.iOps = .rfs) :
    Post (mkdirDentry hostfsIOps path r) s1 (MkdirEnds fs path s k (token :: rest)) fun _ => True := by
  subst hmiss
  refine .bind getBaseName_reads ?_
  rintro name s2 ⟨hs, hname⟩
  obtain rfl : s1 = s2 := hs.symm
  by_cases hlast : r.missName = name
  · have hstop : StopsAtLast path (r.missName :: rest) := ⟨nofun, by rw [hname, ← hlast]; rfl⟩
    subst hlast
    rw [if_neg (not_not.mpr rfl)]
    refine .bind (Fetched.refl s1).allocVfsDentry ?_
    rintro t s2 ⟨-, -, hself, h2⟩
    obtain ⟨x, v, hx, hv, hplain⟩ := h.there
    have hv2 := Kept.vinode h2.toFrame hv
    have htype : v.plain.type = k.node.type := congrArg Vinode.type hplain
    have hops : v.plain.iOps = k.node.iOps := congrArg Vinode.iOps hplain
    refine .step (getDentry_run (Kept.dentry h2.toFrame hx)) (.bind (opsOf_reads trivial) ?_)
    rintro _ s3 ⟨hs, w, hw, rfl⟩
    obtain rfl : s2 = s3 := hs.symm
    obtain rfl := Option.some.inj (hv2.symm.trans hw)
    rw [show v.iOps = .rfs from hops.trans hrfs]
    refine .bind rfsMkdir_ends ?_
    rintro q s3 ⟨u, hu, hends⟩
    obtain rfl := Option.some.inj (hv2.symm.trans hu)
    rcases hends with ⟨hdir, hsome⟩ | ⟨hfile, rfl, hclaimed⟩
    · obtain ⟨w, rfl⟩ := Option.ne_none_iff_exists'.mp hsome
      refine .bind (R := fun _ _ => True) (.mono .any fun _ _ _ => trivial) fun _ s4 _ => ?_
      exact .pure (.inl ⟨hstop, .inl ⟨htype ▸ hdir, rfl⟩⟩)
    · refine .bind (hclaimed.freePage hself) fun _ s4 h4 => ?_
      refine .pure (.inl ⟨hstop, .inr ⟨htype ▸ hfile, rfl, ?_⟩⟩)
      exact h4.of_walked (h.walked.trans h2.toWalked)
  · rw [if_pos hlast]
    refine .pure (.inr ⟨fun hstop => hlast ?_, rfl, _, h⟩)
    exact Option.some.inj (hstop.2.trans hname)

theorem vfsMkdir_ends (hok : CacheOk fs s) : Post (vfsMkdir hostfsIOps path) s (fun q s' =>
    ∃ k rest, s.seek path = some (k, rest) ∧ MkdirEnds fs path s k rest q s') fun _ => True := by
  refine .bind (lookupFinalDentry_looked hok) ?_
  rintro r s1 ⟨k, rest, hseek, hlooked⟩
  cases rest with
  | nil =>
      obtain ⟨t, hr, h⟩ := hlooked
      rw [hr]
      exact .pure ⟨k, [], hseek, .inr ⟨fun hstop => hstop.1 rfl, rfl, t, h⟩⟩
  | cons token rest =>
      obtain ⟨hr, hmiss, hrfs, h⟩ := hlooked
      rw [hr]
      exact (mkdirDentry_ends h hmiss hrfs).mono fun q s' hends => ⟨k, _, hseek, hends⟩

/-- The walk along the path misses the last component in a directory, where `vfs_mkdir` does not
fail; or it ends otherwise, and finds only inodes that the cache has. -/
def MkdirHarmless (s : State) (path : Path) : Prop :=
  ∃ k rest, s.seek path = some (k, rest) ∧
    ((StopsAtLast path rest ∧ k.node.type = dirI) ∨
      (¬StopsAtLast path rest ∧ ∀ w ∈ k.found, 0 ≤ w.inum → s.cachedAt w.key ≠ none))

theorem vfsMkdir_iff {q : Int} (hok : CacheOk fs s)
    (hrun : vfsMkdir hostfsIOps path s = .ok (q, s')) :
    (q = -1 → SameFs s s') ↔ MkdirHarmless s path := by
  obtain ⟨k, rest, hseek, hends⟩ := (vfsMkdir_ends hok).of_ok hrun
  have hthis : MkdirHarmless s path ↔ (StopsAtLast path rest ∧ k.node.type = dirI) ∨
      (¬StopsAtLast path rest ∧ ∀ w ∈ k.found, 0 ≤ w.inum → s.cachedAt w.key ≠ none) := by
    refine ⟨?_, fun h => ⟨k, rest, hseek, h⟩⟩
    rintro ⟨k', rest', hseek', h⟩
    obtain ⟨rfl, rfl⟩ : k = k' ∧ rest = rest' := by simpa using hseek.symm.trans hseek'
    exact h
  rw [hthis]
  rcases hends with ⟨hstop, ⟨hdir, rfl⟩ | ⟨hfile, rfl, hclaimed⟩⟩ | ⟨hstop, rfl, t, hmet⟩
  · exact ⟨fun _ => .inl ⟨hstop, hdir⟩, fun _ hq => nomatch hq⟩
  · refine ⟨fun hsame => absurd (hsame rfl) hclaimed.not_sameFs, ?_⟩
    rintro (⟨-, hdir⟩ | ⟨hnot, -⟩)
    · exact absurd hdir hfile
    · exact absurd hstop hnot
  · rw [show ((-1 : Int) = -1 → SameFs s s') ↔ SameFs s s' from ⟨fun h => h rfl, fun h _ => h⟩,
      hmet.walked.sameFs_iff, hmet.sameCached_iff]
    exact ⟨fun hall => .inr ⟨hstop, hall⟩, fun h => h.elim (fun hl => absurd hl.1 hstop) (·.2)⟩

/-- `vfs_mkdir` below the file `a` fails, and the block that was free is not. -/
def losesBlock (s : State) : Bool :=
  match vfsMkdir hostfsIOps pathAA s with
  | .ok (q, s') => q == -1 && (s.superBlock 24576).any fun B => (s'.superBlock 24576).any fun B' =>
      B.freemap 2 == 0 && B'.freemap 2 == 1
  | .error _ => false

theorem of_losesBlock (h : losesBlock s = true) : ∃ s',
    vfsMkdir hostfsIOps pathAA s = .ok (-1, s') ∧ Claimed s s' := by
  unfold losesBlock at h
  split at h
  · rename_i q s' hrun
    simp only [Bool.and_eq_true, beq_iff_eq, Option.any_eq_true] at h
    obtain ⟨rfl, B, hB, B', hB', hzero, hone⟩ := h
    exact ⟨s', hrun, 24576, B, B', 2, hB, hB', hzero, hone⟩
  · cases h

/-- In a state with an empty file `a`, the call on a path through it. -/
theorem file_losesBlock : ∃ s, Run hostfsIOps FileCalls smallBoot.state s ∧ losesBlock s = true :=
  run_with hostfsIOps FileCalls [.open pathA rdwrCreat] smallBoot.state losesBlock (by decide +kernel)

end Pke
