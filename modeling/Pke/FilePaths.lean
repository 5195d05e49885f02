import Pke.Creation
import Pke.Inodes

/-!
# Paths that go on below a file

Neither `lookup_final_dentry` nor `rfs_lookup` looks at the type of the
inode a name is looked for in. Below a regular file the bytes of the
file are read as directory entries: a file with an entry for the next
name of the path in its data is taken for a directory that has it, and
a dentry and a vinode are made from its bytes.

`refused_iff` says when a path below a file is refused as it should be:
when no slot of 32 bytes of the file carries the next name. A call of
`vfs_open` that is to create the name stops the kernel even then.
-/

namespace Pke

open Exec (Post bind_of_ok)

/-! ## Lookups in two parts -/

variable {path : Path} {s : State} {v : Vinode}

section

variable {host : VinodeOps}

theorem lookupTokens_append (rest : List Name) : ∀ (pre : List Name) (this parent : Ptr) (s : State),
    lookupTokens host (pre ++ rest) this parent s =
      (lookupTokens host pre this parent >>= fun r =>
        match r.dentry with
        | some t => lookupTokens host rest t r.parent
        | none => Exec.pure r) s
  | [], this, parent, s => rfl
  | token :: pre, this, parent, s => by
      simp only [List.cons_append, lookupTokens, Bind.bind, Exec.bind]
      cases lookupToken host this token s with
      | error e => rfl
      | ok r =>
          obtain ⟨next, s1⟩ := r
          cases next with
          | none => rfl
          | some next => exact lookupTokens_append rest pre next this s1

theorem lookupFinalDentry_run (hlen : path.bytes.length < maxPathLen) :
    lookupFinalDentry host path s =
      lookupTokens host path.tokens s.vfsRootDentry s.vfsRootDentry s := by
  unfold lookupFinalDentry copyPath
  rw [if_pos hlen]
  rfl

theorem lookupFinalDentry_long (hlen : ¬path.bytes.length < maxPathLen) :
    lookupFinalDentry host path s = .error (.ub "path_copy") := by
  unfold lookupFinalDentry copyPath
  rw [if_neg hlen]
  rfl

theorem getBaseName_run {last : Name} (hlen : path.bytes.length < maxPathLen)
    (hlast : path.tokens.getLast? = some last) : getBaseName path s = .ok (last, s) := by
  unfold getBaseName copyPath
  rw [if_pos hlen, hlast]
  rfl

end

/-! ## The file on the way -/

/-- The names `pre` of the path lead to the file `n`; `token` and `rest` come
after them. -/
structure Through (d : Nat → Block) (path : Path) (pre : List Name) (token : Name)
    (rest : List Name) (n : Int) : Prop where
  path : RfsPath path (pre ++ token :: rest)
  names : walk (dirEnts d) 0 pre = (n, [])
  file : (diskInode d n).type = rFile

/-- The dentry `t` of inode `n`, in a state that has the same files. -/
structure AtInode (M : Mount) (s s1 : State) (t : Ptr) (n : Int) : Prop where
  sound : Sound M s1
  disk : s1.disk = s.disk
  cur : curInode (diskInode s.disk) (s1.objs.mem M) = curInode (diskInode s.disk) (s.objs.mem M)
  dentry : ∃ y u, s1.objs.dentry t = some y ∧ s1.objs.vinode y.dentryInode = some u ∧
    u.iOps = .rfs ∧ u.inum = n

section

variable {M : Mount} {host : VinodeOps} {s s1 : State} {path : Path} {pre rest : List Name}
  {token : Name} {n : Int} {t : Ptr}

theorem Through.walk (h : Through s.disk path pre token rest n) :
    Pke.walk (dirEnts s.disk) 0 (pre ++ token :: rest) = (n, token :: rest) := by
  have hnil : dirEnts s.disk n = [] := dirEnts_nil (by rw [h.file]; decide)
  rw [walk_append h.names, Pke.walk, hnil]
  rfl

theorem Through.stopOk (h : Through s.disk path pre token rest n)
    (hmiss : FileMiss M s.objs s.disk n token) :
    StopOk M s.objs s.disk 0 (pre ++ token :: rest) := by
  intro m a left hwalk _
  rw [h.walk] at hwalk
  obtain ⟨rfl, rfl, -⟩ : n = m ∧ token = a ∧ rest = left := by simpa using hwalk
  exact hmiss

/-- The lookup gets to the file. -/
theorem Through.reach (h : Through s.disk path pre token rest n) (hs : Sound M s)
    (hlen : path.bytes.length < maxPathLen) :
    Post (lookupTokens host (ramdiskName :: pre) s.vfsRootDentry s.vfsRootDentry) s
      (fun r s1 => ∃ t, r.dentry = some t ∧ AtInode M s s1 t n) (· = .nullPage) := by
  obtain ⟨b, hholds⟩ := hs.holds
  have hstop : StopDir s.disk 0 pre := fun m a left hwalk => by
    rw [h.names] at hwalk
    cases hwalk
  have hnames : ∀ a ∈ pre, NameOk a := fun a ha =>
    nameOk_of_path h.path hlen a (List.mem_append_left _ ha)
  refine (lookupMount_post (E := (· = .nullPage)) .none hholds hs.inv
    hnames hstop.stopOk rfl).mono ?_
  rintro r s1 ⟨o1, hends, hr⟩
  obtain ⟨t, y, u, ht, hy, hu, hrfs, hnum, -⟩ := hr.found n h.names
  obtain ⟨rfl, hdisk, hhere⟩ := hends.here
  refine ⟨t, ht, ⟨hhere, ?_⟩, hdisk, hr.cur, y, u, hy, hu, hrfs, hnum⟩
  rw [hdisk]
  exact hr.steps.inv hs.inv

/-- A name that the data of the file does not have is not found, and nothing is
made for it. -/
theorem AtInode.miss (h : AtInode M s s1 t n) (hname : NameOk token)
    (hfile : (diskInode s.disk n).type = rFile) (hmiss : FileMiss M s.objs s.disk n token) :
    Post (lookupToken host t token) s1
      (fun r s2 => r = none ∧ s2.objs = s1.objs ∧ s2.disk = s1.disk) (· = .nullPage) := by
  obtain ⟨b, hholds⟩ := h.sound.holds
  obtain ⟨y, u, hy, hu, hrfs, rfl⟩ := h.dentry
  have hnil : dirEnts s1.disk u.inum = [] := by
    rw [h.disk]
    exact dirEnts_nil (by rw [hfile]; decide)
  have hmiss' : FileMiss M s1.objs s1.disk u.inum token := by
    unfold FileMiss
    rw [h.disk, h.cur]
    exact hmiss
  refine (lookupToken_miss (E := (· = .nullPage)) hholds h.sound.inv hy hu hrfs hname
    (by rw [hnil]; rfl) (fun _ => hmiss') rfl).mono ?_
  rintro r s2 ⟨rfl, hends⟩
  obtain ⟨ho, hd, -⟩ := hends.here
  exact ⟨rfl, ho, hd⟩

theorem rfsLookup_hit {o : Objs} {d : Nat → Block} {b : Block} {parent sub : Ptr} {x : Dentry}
    (h : Holds s o d b []) (hv : o.vinode parent = some v) (hx : o.dentry sub = some x)
    (hbr : Browsable v.addrs (totalDirentrys v.size)) {i : Nat} (hi : i < totalDirentrys v.size)
    (hhit : nameAt d v.addrs x.name i = true) :
    Post (rfsLookup parent sub) s (fun r _ => r ≠ none) fun _ => True := by
  refine post_known vinodeKind h hv (post_known dentryKind h hx ?_)
  refine .bind (rfsBrowse_post h (by simpa using hbr) fun h0 => absurd rfl h0) ?_
  rintro ⟨j, p⟩ s1 ⟨b1, h1, hr⟩
  simp only [Nat.zero_add, Nat.zero_le, true_implies] at hr
  rcases hr with ⟨-, hnone⟩ | ⟨-, hlt, -⟩
  · exact absurd ((hnone i hi).symm.trans hhit) (by decide)
  · dsimp only
    rw [if_neg (Nat.ne_of_lt hlt)]
    refine .bindOption (fun _ => trivial) fun off _ => .bindGet (.bind .any fun r s2 _ => ?_)
    exact .ite (fun _ => .fault trivial) fun _ => .pure nofun

/-- A name that the data of the file has is found. -/
theorem AtInode.hit (h : AtInode M s s1 t n) (hmiss : ¬FileMiss M s.objs s.disk n token) :
    Post (lookupToken host t token) s1 (fun r _ => r ≠ none) fun _ => True := by
  obtain ⟨b, hholds⟩ := h.sound.holds
  obtain ⟨y, u, hy, hu, hrfs, rfl⟩ := h.dentry
  have hi := h.sound.inv
  -- the slot with the name
  have hslot : ∃ i < totalDirentrys u.size, nameAt s1.disk u.addrs token i = true := by
    unfold FileMiss at hmiss
    rw [← h.cur, ← h.disk, hi.cur_eq hu hrfs] at hmiss
    simpa [Vinode.toDinode] using hmiss
  obtain ⟨i, hlt, hname⟩ := hslot
  refine .step (defaultGet_ok dentryView hholds _) ?_
  cases (dentryView.look s1.objs).find? dentryTable.ops ⟨t, token⟩ with
  | some e => exact .pure nofun
  | none =>
      refine .bind (allocVfsDentry_null hholds trivial) ?_
      rintro t' s2 ⟨hfresh, -, -, h2⟩
      have hne : t ≠ t' := ne_of_none hfresh.dentry hy
      refine post_known dentryKind h2 ((upd_ne hne).trans hy) (post_opsOf h2 hu hrfs ?_)
      refine .bind (rfsLookup_hit h2 hu (upd_self _ _ _) (hi.browsable hu hrfs) hlt hname) ?_
      intro r s3 hr
      cases r with
      | none => exact absurd rfl hr
      | some found => exact .bind .any fun _ _ _ => .pure nofun

end

/-! ## The lookup of such a path -/

/-- After the names up to the file, the next one is not found, nothing has been
made for it, and the lookup of the path returns `NULL`. -/
structure LookupRefused (host : VinodeOps) (path : Path) (pre : List Name) (token : Name)
    (s : State) : Prop where
  refused : ∃ r t s1 s2, r.dentry = some t ∧
    lookupTokens host (ramdiskName :: pre) s.vfsRootDentry s.vfsRootDentry s = .ok (r, s1) ∧
    lookupToken host t token s1 = .ok (none, s2) ∧ s2.objs = s1.objs ∧ s2.disk = s1.disk ∧
    ∃ r', lookupFinalDentry host path s = .ok (r', s2) ∧ r'.dentry = none

section

variable {M : Mount} {host : VinodeOps} {s : State} {path : Path} {pre rest : List Name}
  {token : Name} {n : Int}

theorem Through.run (h : Through s.disk path pre token rest n)
    (hlen : path.bytes.length < maxPathLen) : lookupFinalDentry host path s =
      (lookupTokens host (ramdiskName :: pre) s.vfsRootDentry s.vfsRootDentry >>= fun r =>
        match r.dentry with
        | some t => lookupTokens host (token :: rest) t r.parent
        | none => Exec.pure r) s := by
  rw [lookupFinalDentry_run hlen, h.path, ← List.cons_append, lookupTokens_append]

theorem lookupRefused_iff (hs : Sound M s) (h : Through s.disk path pre token rest n) :
    LookupRefused host path pre token s ↔ path.bytes.length < maxPathLen ∧
      FileMiss M s.objs s.disk n token ∧ lookupFinalDentry host path s ≠ .error .nullPage := by
  constructor
  · rintro ⟨r, t, s1, s2, ht, hpre, htoken, -, -, r', hlookup, -⟩
    have hlen : path.bytes.length < maxPathLen := by
      by_contra hlong
      rw [lookupFinalDentry_long hlong] at hlookup
      cases hlookup
    refine ⟨hlen, ?_, by rw [hlookup]; exact nofun⟩
    by_contra hmiss
    obtain ⟨t', ht', hat⟩ := (h.reach hs hlen).of_ok hpre
    obtain rfl : t' = t := Option.some.inj (ht'.symm.trans ht)
    exact (hat.hit hmiss).of_ok htoken rfl
  · rintro ⟨hlen, hmiss, hpages⟩
    have hname : NameOk token := nameOk_of_path h.path hlen token (by simp)
    rw [h.run hlen] at hpages
    cases hpre : lookupTokens host (ramdiskName :: pre) s.vfsRootDentry s.vfsRootDentry s with
    | error e =>
        obtain rfl := (h.reach hs hlen).of_error hpre
        simp [Bind.bind, Exec.bind, hpre] at hpages
    | ok p =>
        obtain ⟨r, s1⟩ := p
        obtain ⟨t, ht, hat⟩ := (h.reach hs hlen).of_ok hpre
        rw [bind_of_ok hpre] at hpages
        simp only [ht, lookupTokens] at hpages
        cases htoken : lookupToken host t token s1 with
        | error e =>
            obtain rfl := (hat.miss hname h.file hmiss).of_error htoken
            simp [Bind.bind, Exec.bind, htoken] at hpages
        | ok q =>
            obtain ⟨found, s2⟩ := q
            obtain ⟨rfl, hobjs, hdisk⟩ := (hat.miss hname h.file hmiss).of_ok htoken
            refine ⟨r, t, s1, s2, ht, hpre, htoken, hobjs, hdisk, ⟨none, t, token⟩, ?_, rfl⟩
            rw [h.run hlen, bind_of_ok hpre]
            simp only [ht, lookupTokens]
            rw [bind_of_ok htoken]
            rfl

end

/-! ## The calls -/

/-- A call with the path, for `vfs_link` as the old or as the new one. -/
inductive PathCall where
  | lookup
  | «open» (flags : Nat)
  | unlink
  | linkFrom (newpath : Path)
  | linkTo (oldpath : Path)

/-- The call; whether it has failed. -/
def PathCall.exec (host : VinodeOps) (path : Path) : PathCall → Kern Bool
  | .lookup => do
      let r ← lookupFinalDentry host path
      pure r.dentry.isNone
  | .open flags => do
      let f ← vfsOpen host path flags
      pure f.isNone
  | .unlink => do
      let r ← vfsUnlink host path
      pure (r == -1)
  | .linkFrom newpath => do
      let r ← vfsLink host path newpath
      pure (r == -1)
  | .linkTo oldpath => do
      let r ← vfsLink host oldpath path
      pure (r == -1)

/-- The other path of `vfs_link` is below the mount point, and its names are not
looked for in a file that has them in its data. -/
def PathCall.OldOk (M : Mount) (s : State) : PathCall → Prop
  | .linkTo oldpath => oldpath.bytes.length < maxPathLen ∧
      PathOk M .none s.objs s.disk oldpath
  | .lookup | .open _ | .unlink | .linkFrom _ => True

/-- The call is to create the name `token`, when the path ends with it. -/
def PathCall.Makes (token : Name) (rest : List Name) : PathCall → Prop
  | .open flags => flags &&& oCreat ≠ 0 ∧ (token :: rest).getLast? = some token
  | .lookup | .unlink | .linkFrom _ | .linkTo _ => False

/-- The bytes of file `n`. -/
def State.contents (s : State) (M : Mount) (n : Int) : List UInt8 :=
  (curInode (diskInode s.disk) (s.objs.mem M) n).contents s.disk

/-- The link count of inode `n`, on disk and as it is known in memory. -/
def State.linkCounts (s : State) (M : Mount) (n : Int) : Int × Int :=
  ((diskInode s.disk n).nlinks, (curInode (diskInode s.disk) (s.objs.mem M) n).nlinks)

/-- The disk and the inodes are the same. -/
structure SameFiles (M : Mount) (s s' : State) : Prop where
  disk : s'.disk = s.disk
  cur : curInode (diskInode s.disk) (s'.objs.mem M) = curInode (diskInode s.disk) (s.objs.mem M)

namespace SameFiles

variable {M : Mount} {s s' s'' : State}

theorem trans (h : SameFiles M s s') (h' : SameFiles M s' s'') : SameFiles M s s'' :=
  ⟨h'.disk.trans h.disk, by rw [← h.cur, ← h.disk]; exact h'.cur⟩

theorem contents (h : SameFiles M s s') (n : Int) : s'.contents M n = s.contents M n := by
  unfold State.contents
  rw [h.disk, h.cur]

theorem linkCounts (h : SameFiles M s s') (n : Int) : s'.linkCounts M n = s.linkCounts M n := by
  unfold State.linkCounts
  rw [h.disk, h.cur]

theorem fileMiss (h : SameFiles M s s') {n : Int} {token : Name}
    (hmiss : FileMiss M s.objs s.disk n token) : FileMiss M s'.objs s'.disk n token := by
  unfold FileMiss
  rw [h.disk, h.cur]
  exact hmiss

end SameFiles

section

variable {M : Mount} {host : VinodeOps} {s : State} {path : Path} {pre rest : List Name}
  {token : Name} {n : Int}

/-- What the lookup of the path leaves: the file as the parent, and the name that
is missing there. -/
structure Stopped (M : Mount) (s s1 : State) (token : Name) (n : Int) (r : LookupResult)
    (p : Dentry) (v : Vinode) : Prop where
  none : r.dentry = none
  name : r.missName = token
  sound : Sound M s1
  same : SameFiles M s s1
  grown : Grown s.objs s1.objs
  missing : Missing s1.objs s1.disk r p v
  inum : v.inum = n

theorem Through.stopped (h : Through s.disk path pre token rest n) (hs : Sound M s)
    (hlen : path.bytes.length < maxPathLen) (hmiss : FileMiss M s.objs s.disk n token) :
    Post (lookupFinalDentry host path) s (fun r s1 => ∃ p v, Stopped M s s1 token n r p v)
      (· = .nullPage) := by
  obtain ⟨b, hholds⟩ := hs.holds
  refine (lookupFinalDentry_post (E := (· = .nullPage)) .none hholds
    hs.inv h.path (h.stopOk hmiss) rfl fun hlong => absurd hlen hlong).mono ?_
  rintro r s1 ⟨-, o1, hends, hr⟩
  obtain ⟨hnone, p, v, hm, rfl⟩ := hr.missing_at h.path hlen h.walk
  have hname := (hr.missing _ _ _ h.walk).2.1
  obtain ⟨rfl, hdisk, hhere⟩ := hends.here
  refine ⟨p, v, hnone, hname, ⟨hhere, ?_⟩, ⟨hdisk, hr.cur⟩, hr.grown, ?_, rfl⟩
  · rw [hdisk]
    exact hr.steps.inv hs.inv
  · rw [hdisk]
    exact hm

theorem Through.getLast (h : Through s.disk path pre token rest n) :
    path.tokens.getLast? = (token :: rest).getLast? := by
  rw [h.path, List.getLast?_cons, List.getLast?_append_of_ne_nil _ (by simp)]
  simp [List.getLast?_cons]

theorem Stopped.type {s1 : State} {r : LookupResult} {p : Dentry} (h : Stopped M s s1 token n r p v)
    (hfile : (diskInode s.disk n).type = rFile) : v.type ≠ dirI := by
  rw [← h.sound.inv.type_eq h.missing.vinode h.missing.rfs, h.same.disk, h.inum, hfile]
  decide

/-! ### Opening -/

section

variable (h : Through s.disk path pre token rest n) (hs : Sound M s)
  (hlen : path.bytes.length < maxPathLen) (hmiss : FileMiss M s.objs s.disk n token)

include h hs hlen hmiss

theorem vfsOpen_refused {flags : Nat} (hmakes : ¬(PathCall.open flags).Makes token rest) :
    Post (vfsOpen host path flags) s (fun f s' => f = none ∧ SameFiles M s s') (· = .nullPage) := by
  refine (h.stopped hs hlen hmiss).bind ?_
  rintro r s1 ⟨p, v, hr⟩
  rw [hr.none]
  refine .ite (fun _ => .pure ⟨rfl, hr.same⟩) fun hcreat => ?_
  cases hbase : (token :: rest).getLast? with
  | none => simp at hbase
  | some last =>
      have hne : r.missName ≠ last := by
        rw [hr.name]
        rintro rfl
        exact hmakes ⟨hcreat, hbase⟩
      refine .bind (R := fun q s' => q = none ∧ s' = s1) ?_ ?_
      · refine .step (getBaseName_run hlen (h.getLast.trans hbase)) ?_
        rw [if_pos hne]
        exact .pure ⟨rfl, rfl⟩
      · rintro _ _ ⟨rfl, rfl⟩
        exact .pure ⟨rfl, hr.same⟩

/-- To create a name below a file stops the kernel. -/
theorem vfsOpen_stops {flags : Nat} (hmakes : (PathCall.open flags).Makes token rest) :
    Post (vfsOpen host path flags) s (fun _ _ => False) NoAssert := by
  refine ((h.stopped hs hlen hmiss).monoFault fun _ he => he ▸ noAssert_nullPage).bind ?_
  rintro r s1 ⟨p, v, hr⟩
  rw [hr.none, if_neg hmakes.1]
  refine .bind (R := fun _ _ => False) ?_ nofun
  refine .step (getBaseName_run hlen (h.getLast.trans hmakes.2)) ?_
  rw [if_neg (not_not.mpr hr.name)]
  obtain ⟨b, hholds⟩ := hr.sound.holds
  have hi := hr.sound.inv
  obtain ⟨B, hB, hBn⟩ := hi.sb
  refine .bind (allocVfsDentry_null hholds noAssert_nullPage) ?_
  rintro t s2 ⟨hfresh, -, -, h2⟩
  have hne : r.parent ≠ t := ne_of_none hfresh.dentry hr.missing.parent
  refine post_known dentryKind h2 ((upd_ne hne).trans hr.missing.parent) ?_
  refine post_opsOf h2 hr.missing.vinode hr.missing.rfs ?_
  refine .bind (rfsCreate_post h2 hr.missing.vinode (hi.num hr.missing.vinode hr.missing.rfs)
    (upd_self _ _ _) (by rw [hi.sb_eq hr.missing.vinode hr.missing.rfs]; exact hB)
    hBn) ?_
  intro q s3 hq
  cases q with
  | none => exact .fault (noAssert_panic _)
  | some w =>
      obtain ⟨_, _, _, _, -, hnew⟩ := hq w rfl
      exact absurd hnew.dir (hr.type h.file)

/-! ### Unlinking and linking -/

theorem vfsUnlink_refused :
    Post (vfsUnlink host path) s (fun r s' => r = -1 ∧ SameFiles M s s') (· = .nullPage) := by
  refine (h.stopped hs hlen hmiss).bind ?_
  rintro r s1 ⟨p, v, hr⟩
  rw [hr.none]
  exact .pure ⟨rfl, hr.same⟩

theorem vfsLink_from_refused (newpath : Path) : Post (vfsLink host path newpath) s
      (fun r s' => r = -1 ∧ SameFiles M s s') (· = .nullPage) := by
  refine (h.stopped hs hlen hmiss).bind ?_
  rintro r s1 ⟨p, v, hr⟩
  rw [hr.none]
  exact .pure ⟨rfl, hr.same⟩

end

/-- `rfs_link` into a file takes the link back. -/
theorem rfsLink_refused {o : Objs} {d : Nat → Block} {b : Block} {R : List Ptr} {E : Fault → Prop}
    {parent sub l : Ptr} {lv : Vinode} {x : Dentry} (h : Holds s o d b R)
    (hv : o.vinode parent = some v) (hfile : v.type ≠ dirI) (hl : o.vinode l = some lv)
    (hx : o.dentry sub = some x) :
    Post (rfsLink parent sub l) s (fun r s' => r = -1 ∧ Holds s' o d b R) E := by
  refine post_known vinodeKind h hl (post_set vinodeKind h hl fun s1 h1 => ?_)
  refine post_known dentryKind h1 hx ?_
  have hparent : ∃ v', upd o.vinode l (some { lv with nlinks := lv.nlinks + 1 }) parent = some v' ∧
      v'.type ≠ dirI := by
    by_cases heq : parent = l
    · subst heq
      obtain rfl : lv = v := Option.some.inj (hl.symm.trans hv)
      exact ⟨_, upd_self _ _ _, hfile⟩
    · exact ⟨v, (upd_ne heq).trans hv, hfile⟩
  obtain ⟨v', hv', hfile'⟩ := hparent
  refine .bind (R := fun r s' => r = -1 ∧ s' = s1) ?_ ?_
  · refine post_known vinodeKind h1 hv' ?_
    rw [if_pos hfile']
    exact .pure ⟨rfl, rfl⟩
  · rintro _ _ ⟨rfl, rfl⟩
    rw [if_pos (by decide)]
    refine post_known vinodeKind h1 (upd_self _ _ _) ?_
    refine post_set vinodeKind h1 (upd_self _ _ _) fun s2 h2 => .pure ⟨rfl, h2.cast ?_⟩
    have hback : { lv with nlinks := lv.nlinks + 1 - 1 } = lv := by
      rw [Int.add_sub_cancel]
    simp only [upd_upd, hback]
    rw [upd_eq_self hl]

/-- The rest of `vfs_link` after the lookups, when the new name is missing in a
file. -/
theorem linkDentry_refused {s1 : State} (h : Through s.disk path pre token rest n)
    (hlen : path.bytes.length < maxPathLen) {r : LookupResult} {p y : Dentry} {u : Vinode}
    {old : Ptr} (hr : Stopped M s s1 token n r p v) (hy : s1.objs.dentry old = some y)
    (hu : s1.objs.vinode y.dentryInode = some u) (hrfs : u.iOps = .rfs) :
    Post (linkDentry host old path r) s1 (fun q s' => q = -1 ∧ SameFiles M s1 s')
      (· = .nullPage) := by
  obtain ⟨b, hholds⟩ := hr.sound.holds
  have hi := hr.sound.inv
  cases hbase : (token :: rest).getLast? with
  | none => simp at hbase
  | some last =>
      refine .step (getBaseName_run hlen (h.getLast.trans hbase)) ?_
      refine .ite (fun _ => .pure ⟨rfl, rfl, rfl⟩) fun _ => ?_
      refine post_known dentryKind hholds hy ?_
      refine .bind (allocVfsDentry_inode hholds hu rfl) ?_
      rintro t s2 ⟨hfresh, -, -, h2⟩
      have hne : r.parent ≠ t := ne_of_none hfresh.dentry hr.missing.parent
      refine post_known dentryKind h2 ((upd_ne hne).trans hr.missing.parent) ?_
      -- the file may be the one that is linked
      have hparent : ∃ v', upd s1.objs.vinode y.dentryInode (some { u with ref := u.ref + 1 })
          p.dentryInode = some v' ∧ v'.iOps = .rfs ∧ v'.type ≠ dirI := by
        by_cases heq : p.dentryInode = y.dentryInode
        · rw [heq, upd_self]
          obtain rfl : u = v := Option.some.inj (hu.symm.trans (heq ▸ hr.missing.vinode))
          exact ⟨_, rfl, hrfs, hr.type h.file⟩
        · rw [upd_ne heq]
          exact ⟨v, hr.missing.vinode, hr.missing.rfs, hr.type h.file⟩
      obtain ⟨v', hv', hrfs', hfile'⟩ := hparent
      refine post_opsOf h2 hv' hrfs' ?_
      refine .bind (rfsLink_refused h2 hv' hfile' (upd_self _ _ _) (upd_self _ _ _)) ?_
      rintro _ s3 ⟨rfl, h3⟩
      rw [if_pos (by decide)]
      refine .pure ⟨rfl, h3.disk, ?_⟩
      rw [h3.objs]
      exact congrArg _ (mem_setV_same hi.cache { u with ref := u.ref + 1 } hu (hi.sb_eq hu hrfs)
        (hi.inum_nonneg hu hrfs) rfl)

theorem vfsLink_to_refused (h : Through s.disk path pre token rest n) (hs : Sound M s)
    (hlen : path.bytes.length < maxPathLen) (hmiss : FileMiss M s.objs s.disk n token)
    {oldpath : Path} (hold : (PathCall.linkTo oldpath).OldOk M s) :
    Post (vfsLink host oldpath path) s (fun r s' => r = -1 ∧ SameFiles M s s')
      (· = .nullPage) := by
  obtain ⟨holdlen, old, hpold, hstop, -⟩ := hold
  obtain ⟨b, hholds⟩ := hs.holds
  refine .bind (lookupFinalDentry_post (E := (· = .nullPage)) .none
    hholds hs.inv hpold hstop rfl fun hlong => absurd holdlen hlong) ?_
  rintro r s1 ⟨-, o1, hends, hr⟩
  obtain ⟨rfl, hdisk, hhere⟩ := hends.here
  have hsame : SameFiles M s s1 := ⟨hdisk, hr.cur⟩
  rcases hwalk : walk (dirEnts s.disk) 0 old with ⟨m, left⟩
  cases left with
  | cons a left =>
      rw [(hr.missing m a left hwalk).1]
      exact .pure ⟨rfl, hsame⟩
  | nil =>
      obtain ⟨t, y, u, ht, hy, hu, hrfs, -⟩ := hr.found m hwalk
      obtain ⟨b1, h1⟩ := hends
      rw [ht]
      refine post_known dentryKind h1 hy (post_known vinodeKind h1 hu ?_)
      refine .ite (fun _ => .pure ⟨rfl, hsame⟩) fun _ => ?_
      have hs1 : Sound M s1 := ⟨hhere, by rw [hdisk]; exact hr.steps.inv hs.inv⟩
      have h1 : Through s1.disk path pre token rest n := by
        rw [hdisk]
        exact h
      refine (h1.stopped hs1 hlen (hsame.fileMiss hmiss)).bind ?_
      rintro r2 s2 ⟨p, v, hr2⟩
      rw [hr2.none]
      obtain ⟨ref, hu2⟩ := hr2.grown.vinode _ _ hu
      refine (linkDentry_refused h1 hlen hr2 (hr2.grown.dentry _ _ hy) hu2 hrfs).mono ?_
      rintro q s3 ⟨rfl, hsame3⟩
      exact ⟨rfl, (hsame.trans hr2.same).trans hsame3⟩

end

/-! ## When a path below a file is refused -/

/-- The path is not resolved, nothing is made from the bytes of the file `n`, and
the call fails and leaves the file and all link counts as they were. -/
structure Refused (host : VinodeOps) (M : Mount) (path : Path) (pre : List Name) (token : Name)
    (n : Int) (s : State) (call : PathCall) : Prop where
  lookup : LookupRefused host path pre token s
  call : ∃ s', call.exec host path s = .ok (true, s') ∧ s'.contents M n = s.contents M n ∧
    ∀ m, s'.linkCounts M m = s.linkCounts M m

/-- No slot of the file carries the next name, the call does not create it, and
there are pages for the call. -/
structure Harmless (host : VinodeOps) (M : Mount) (path : Path) (token : Name) (rest : List Name)
    (n : Int) (s : State) (call : PathCall) : Prop where
  len : path.bytes.length < maxPathLen
  miss : FileMiss M s.objs s.disk n token
  makes : ¬call.Makes token rest
  pages : lookupFinalDentry host path s ≠ .error .nullPage ∧
    call.exec host path s ≠ .error .nullPage

section

variable {M : Mount} {host : VinodeOps} {s : State} {path : Path} {pre rest : List Name}
  {token : Name} {n : Int} {call : PathCall}

theorem PathCall.exec_post (h : Through s.disk path pre token rest n) (hs : Sound M s)
    (hlen : path.bytes.length < maxPathLen) (hmiss : FileMiss M s.objs s.disk n token)
    (hmakes : ¬call.Makes token rest) (hold : call.OldOk M s) :
    Post (call.exec host path) s (fun r s' => r = true ∧ SameFiles M s s') (· = .nullPage) := by
  cases call with
  | lookup =>
      refine (h.stopped hs hlen hmiss).bind ?_
      rintro r s1 ⟨p, v, hr⟩
      exact .pure ⟨by rw [hr.none]; rfl, hr.same⟩
  | «open» flags =>
      refine (vfsOpen_refused h hs hlen hmiss hmakes).bind ?_
      rintro _ s1 ⟨rfl, hsame⟩
      exact .pure ⟨rfl, hsame⟩
  | unlink =>
      refine (vfsUnlink_refused h hs hlen hmiss).bind ?_
      rintro _ s1 ⟨rfl, hsame⟩
      exact .pure ⟨rfl, hsame⟩
  | linkFrom newpath =>
      refine (vfsLink_from_refused h hs hlen hmiss newpath).bind ?_
      rintro _ s1 ⟨rfl, hsame⟩
      exact .pure ⟨rfl, hsame⟩
  | linkTo oldpath =>
      refine (vfsLink_to_refused h hs hlen hmiss hold).bind ?_
      rintro _ s1 ⟨rfl, hsame⟩
      exact .pure ⟨rfl, hsame⟩

end

/-- A path that goes on below a file is refused exactly when the bytes of the
file do not carry the next name, and the call is not to create it. -/
theorem refused_iff {b : Boot} {host : VinodeOps} {s0 s : State} {path : Path}
    {pre rest : List Name} {token : Name} {n : Int} {call : PathCall} (h0 : b.Starts s0)
    (hrun : Run host (CountedCalls s0.mount) s0 s) (h : Through s.disk path pre token rest n)
    (hold : call.OldOk s0.mount s) :
    Refused host s0.mount path pre token n s call ↔
      Harmless host s0.mount path token rest n s call := by
  obtain ⟨hs, -⟩ := hrun.steps (fun _ _ hop => hop) h0.sound
  constructor
  · rintro ⟨hlookup, s', hcall, -⟩
    obtain ⟨hlen, hmiss, hpages⟩ := (lookupRefused_iff hs h).mp hlookup
    refine ⟨hlen, hmiss, fun hmakes => ?_, hpages, by rw [hcall]; exact nofun⟩
    cases call with
    | «open» flags =>
        obtain ⟨f, s1, hopen, -⟩ := Exec.bind_ok hcall
        exact (vfsOpen_stops h hs hlen hmiss hmakes).of_ok hopen
    | lookup | unlink | linkFrom newpath | linkTo oldpath => exact hmakes
  · rintro ⟨hlen, hmiss, hmakes, hlookup, hpages⟩
    refine ⟨(lookupRefused_iff hs h).mpr ⟨hlen, hmiss, hlookup⟩, ?_⟩
    have hpost : Post (call.exec host path) s _ _ := PathCall.exec_post h hs hlen hmiss hmakes hold
    cases hexec : call.exec host path s with
    | error e =>
        obtain rfl := hpost.of_error hexec
        exact absurd hexec hpages
    | ok r =>
        obtain ⟨q, s'⟩ := r
        obtain ⟨rfl, hsame⟩ := hpost.of_ok hexec
        exact ⟨s', rfl, hsame.contents n, hsame.linkCounts⟩

/-- The path `/RAMDISK0/a/x` goes through inode 1, as `/RAMDISK0/a`. -/
def throughA (s : State) : Bool :=
  decide (walk (dirEnts s.disk) 0 [[97]] = (1, [])) && (diskInode s.disk 1).type == rFile

theorem through_of_throughA (h : throughA s = true) : Through s.disk pathAX [[97]] [120] [] 1 := by
  obtain ⟨hwalk, htype⟩ := (Bool.and_eq_true _ _).mp h
  exact ⟨(by decide : pathAX.tokens = _), of_decide_eq_true hwalk, beq_iff_eq.mp htype⟩

/-- The lookup of `/RAMDISK0/a/x` finds something. -/
def lookupFinds (s : State) : Bool :=
  match PathCall.lookup.exec noHost pathAX s with
  | .ok (false, _) => true
  | _ => false

/-- The file `a` holds the 32 bytes of an entry `x` for inode 1, its own. Then
`/RAMDISK0/a/x` is resolved. -/
theorem resolves_through_file : ∃ s, Run noHost (CountedCalls smallBoot.state.mount)
    smallBoot.state s ∧ Through s.disk pathAX [[97]] [120] [] 1 ∧
      (∃ s', PathCall.lookup.exec noHost pathAX s = .ok (false, s')) ∧
      ¬Refused noHost smallBoot.state.mount pathAX [[97]] [120] 1 s .lookup := by
  obtain ⟨s, hrun, hP⟩ := run_with noHost FileCalls
    [.open pathA rdwrCreat, .write 81920 ([1, 0, 0, 0, 120] ++ List.replicate 27 0)]
    smallBoot.state (fun s => throughA s && lookupFinds s) (by decide +kernel)
  obtain ⟨hthrough, hfound⟩ := (Bool.and_eq_true _ _).mp hP
  have hrun' := counted_of_files smallBoot.state.mount hrun
  unfold lookupFinds at hfound
  split at hfound
  · rename_i s' heq
    refine ⟨s, hrun', through_of_throughA hthrough, ⟨s', heq⟩, fun hrefused => ?_⟩
    obtain ⟨s2, hfail, -⟩ := hrefused.call
    rw [heq] at hfail
    cases hfail
  · cases hfound

/-- The bytes of an entry `y` for inode 1. -/
def entryY : List UInt8 := [1, 0, 0, 0, 121] ++ List.replicate 27 0

/-- The file `a` holds that entry, and the lookup and the unlink of `/RAMDISK0/a/x` end. -/
def holdsY (s : State) : Bool :=
  throughA s && s.contents smallBoot.state.mount 1 == entryY &&
    (List.range 1).all (fun i =>
      nameAt s.disk (curInode (diskInode s.disk) (s.objs.mem smallBoot.state.mount) 1).addrs [120] i
        == false) &&
    totalDirentrys (curInode (diskInode s.disk) (s.objs.mem smallBoot.state.mount) 1).size == 1 &&
    (lookupFinalDentry noHost pathAX s).toOption.isSome &&
    (PathCall.unlink.exec noHost pathAX s).toOption.isSome

/-- A file with an entry for another name in its data. -/
theorem refused_iff_other : ∃ s, Run noHost (CountedCalls smallBoot.state.mount)
    smallBoot.state s ∧ s.contents smallBoot.state.mount 1 = entryY ∧
      Refused noHost smallBoot.state.mount pathAX [[97]] [120] 1 s .unlink := by
  obtain ⟨s, hrun, hP⟩ := run_with noHost FileCalls
    [.open pathA rdwrCreat, .write 81920 entryY] smallBoot.state holdsY (by decide +kernel)
  have hrun' := counted_of_files smallBoot.state.mount hrun
  simp only [holdsY, Bool.and_eq_true, beq_iff_eq, List.all_eq_true] at hP
  obtain ⟨⟨⟨⟨⟨hthrough, hbytes⟩, hnames⟩, htotal⟩, hlookup⟩, hunlink⟩ := hP
  have hiff : Refused noHost smallBoot.state.mount pathAX [[97]] [120] 1 s .unlink ↔ _ :=
    refused_iff (Boot.starts smallBoot_boots) hrun' (through_of_throughA hthrough) trivial
  refine ⟨s, hrun', hbytes, hiff.mpr ⟨by decide, fun i hi => ?_, id, ?_, ?_⟩⟩
  · exact hnames i (List.mem_range.mpr (htotal ▸ hi))
  · intro herr
    rw [herr] at hlookup
    cases hlookup
  · intro herr
    rw [herr] at hunlink
    cases hunlink

end Pke
