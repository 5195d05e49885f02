import Pke.Coherence

/-!
# Reading a directory

`vfs_readdir` reads from the copy that was made when the directory was
opened, but asks the vinode of today how many entries there are. The two
go together as long as the offset is inside both or outside both: then a
session returns the entries the directory had when it was opened, each
of them once and in their order (`Session.results`).
-/

namespace Pke

open Exec (Post)

/-! ## Names on disk -/

variable {M : Mount} {care : Care} {o o' : Objs} {d d' : Nat → Block} {blk : Block} {k : Nat}
  {file : Ptr} {n : Int}

/-- What a change does to the entries of the directories. -/
theorem Change.ents (hc : Change M care o d o' d') (h : Inv M o d) : dirEnts d' = dirEnts d ∨
    (∃ p e, NameOk e.2 ∧ dirEnts d' = upd (dirEnts d) p (dirEnts d p ++ [e])) ∨
    ∃ p k, dirEnts d' = upd (dirEnts d) p ((dirEnts d p).eraseIdx k) := by
  cases hc with
  | create pw w node pv B n k type name hpv hprfs hdir hroom hname hnew htype hn hfree hk hB hzero =>
      exact .inr (.inl ⟨pv.inum, (n, name), hname, (h.disk_create hpv hprfs hdir hroom hname hn hfree
        htype hk (by rw [freemap_eq hB]; exact hzero)).2⟩)
  | orphan B n k hloose hn hfree hk => exact .inl (h.disk_newInode hn hfree (.inr rfl) hk).2
  | link pw lw pv lv name hpv hprfs hdir hroom hname hnew hlv hlrfs hfile =>
      exact .inr (.inl ⟨pv.inum, (lv.inum, name), hname,
        (h.disk_link hpv hprfs hdir hroom hname hlv hlrfs hfile).2⟩)
  | unlink pw lw pv lv k name hpv hprfs hdir hlv hlrfs hfile hk hgone hmore =>
      have hbound := h.links_bound hlv hlrfs hfile
      exact .inr (.inr ⟨pv.inum, k, (h.disk_unlink (lv.nlinks - 1) hpv hprfs hdir hlv hlrfs hfile hk
        (by unfold IsInt32; omega)).2⟩)
  | unlinkLast pw lw pv lv B k name e hpv hprfs hdir hlv hlrfs hfile hk =>
      exact .inr (.inr ⟨pv.inum, k,
        (h.disk_unlink 0 hpv hprfs hdir hlv hlrfs hfile hk (by decide)).2⟩)
  | evict w v e hw hrfs hfile => exact .inl (h.disk_evict hw hrfs hfile).2
  | data w v i b hw hrfs hfile hi => exact .inl (h.disk_data b hw hrfs hfile hi).2
  | load | bind | drop | grow | size | opened | dirOpened | moved | copied | closed | dirFreed
  | hostMount => exact .inl rfl

/-- Every name in a directory is one that can be stored. -/
def NamesOk (d : Nat → Block) : Prop := ∀ p, ∀ e ∈ dirEnts d p, NameOk e.2

theorem Change.namesOk (hc : Change M care o d o' d') (hi : Inv M o d) (h : NamesOk d) :
    NamesOk d' := by
  intro p e he
  rcases hc.ents hi with heq | ⟨q, a, ha, heq⟩ | ⟨q, k, heq⟩
  · exact h p e (heq ▸ he)
  · rw [heq] at he
    rcases eq_or_ne p q with rfl | hne
    · rw [upd_self] at he
      rcases List.mem_append.mp he with he | he
      · exact h p e he
      · rw [List.mem_singleton.mp he]
        exact ha
    · rw [upd_ne hne] at he
      exact h p e he
  · rw [heq] at he
    rcases eq_or_ne p q with rfl | hne
    · rw [upd_self] at he
      exact h p e (List.mem_of_mem_eraseIdx he)
    · rw [upd_ne hne] at he
      exact h p e he

/-- A string that ends inside `n` bytes is the same when more bytes are read. -/
theorem cstr_extend {b : Block} : ∀ {n m off : Nat}, (cstr b off n).length < n → n ≤ m →
    cstr b off m = cstr b off n
  | n + 1, 0, off, _, hm => by omega
  | n + 1, m + 1, off, hlen, hm => by
      simp only [cstr] at hlen ⊢
      split
      · rfl
      · rename_i hne
        rw [if_neg hne, List.length_cons] at hlen
        exact congrArg _ (cstr_extend (Nat.lt_of_succ_lt_succ hlen) (Nat.le_of_succ_le_succ hm))

/-! ## One call -/

def toDir (e : Int × Name) : Dir := ⟨e.2, e.1⟩

section

variable {M : Mount} {s : State} {o : Objs} {d : Nat → Block} {b : Block} {E : Fault → Prop}

theorem readDirentry_run {base : Ptr} (hmod : base % 4096 = 0) (hblk : s.dirBlock base = some blk)
    (hk : k < 128) (hname : NameOk (direntry blk k).2) :
    readDirentry (base + direntrySize * k) s = .ok (toDir (direntry blk k), s) := by
  have hlen := hname.2
  have hbase : (base : Int) % 4096 = 0 := by exact_mod_cast hmod
  have hdiv : ((base : Int) + direntrySize * k) / 4096 * 4096 = base := by
    simp only [direntrySize]
    omega
  have hrem : (((base : Int) + direntrySize * k) % 4096).toNat = 32 * k := by
    simp only [direntrySize]
    omega
  have hstr : cstr blk (32 * k + 4) (4096 - (32 * k + 4)) = (direntry blk k).2 :=
    cstr_extend hlen (by simp only [rfsMaxFileNameLen]; omega)
  simp only [rfsMaxFileNameLen] at hlen
  have hget : getDirBlock base s = .ok (blk, s) := Exec.get_ofOption hblk
  have hinum : getInt blk (32 * k) = (direntry blk k).1 := by rw [direntry]
  unfold readDirentry
  rw [hdiv, hrem, Int.toNat_natCast, Exec.bind_of_ok hget, hstr, hinum]
  generalize direntry blk k = e at hlen
  have hshort : ¬e.2.length = 4096 - (32 * k + 4) := by omega
  have hfits : ¬e.2.length ≥ maxFileNameLen := by
    simp only [maxFileNameLen]
    omega
  rw [if_neg hshort, if_neg hfits]
  rfl

theorem readDirentry_copy {base : Ptr} (h : Holds s o d b []) (hblk : o.dirBlock base = some blk)
    (hk : k < 128) (hname : NameOk (direntry blk k).2) :
    readDirentry (base + direntrySize * k) s = .ok (toDir (direntry blk k), s) := by
  have hpage := h.page (K := dirBlockKind) hblk
  obtain ⟨hmod, -, -⟩ := h.mem.ok (dirBlockKind.used hpage) fun f hf => by rw [hpage] at hf; cases hf
  have hsome : s.dirBlock base = some blk := by
    rw [State.dirBlock, hpage]
    rfl
  exact readDirentry_run hmod hsome hk hname

/-- The number of entries `rfs_readdir` computes is that of the directory. -/
theorem Inv.dirCount (hi : Inv M o d) {w : Ptr} {v : Vinode} (hv : o.vinode w = some v)
    (hrfs : v.iOps = .rfs) (hdir : v.type = dirI) :
    wrap32 (v.size % 2 ^ 64 / direntrySize) = (dirEnts d v.inum).length ∧
      (dirEnts d v.inum).length ≤ 128 := by
  obtain ⟨-, ⟨hs0, hs1⟩, -⟩ := hi.dir_bounds hv hrfs hdir
  have hlen : (dirEnts d v.inum).length = (v.size / 32).toNat := by
    rw [dirEnts_dir ((hi.type_eq hv hrfs).trans hdir), hi.dir_eq hv hrfs hdir]
    simp [direntries, direntryCount, Vinode.toDinode]
  rw [hlen]
  unfold wrap32 direntrySize
  omega

/-- `vfs_readdir` of a descriptor that is at entry `k` of a copy: an entry of the
copy, when the directory has more than `k` entries now. -/
theorem vfsReaddir_at (care : Care) {host : VinodeOps} (h : Holds s o d b []) (hi : Inv M o d)
    (hr : o.ReadsAt file n k blk) (hmay : ¬care.still)
    (hname : k < (dirEnts d n).length → NameOk (direntry blk k).2) :
    Post (vfsReaddir host file) s (fun r s' => ∃ o', Ends s' o' d [] ∧
      Steps M care (o, d) (o', d) ∧
      ((k < (dirEnts d n).length ∧ r.2 = some (toDir (direntry blk k)) ∧
          o'.ReadsAt file n (k + 1 : Nat) blk) ∨
        ((dirEnts d n).length ≤ k ∧ r.2 = none ∧ o'.ReadsAt file n k blk))) E := by
  obtain ⟨f, x, v, c, hf, hst, hk, hx, hv, hrfs, hdir, rfl, hc, hblk⟩ := hr
  obtain ⟨hcount, hcap⟩ := hi.dirCount hv hrfs hdir
  refine post_known fileKind h hf ?_
  refine post_known dentryKind h hx ?_
  refine post_known vinodeKind h hv ?_
  have hin : ∀ {off : Int}, off = f.offset ∨ ∀ x v, o.dentry f.fDentry = some x →
      o.vinode x.dentryInode = some v → v.type = fileI → off ≤ v.size := by
    refine .inr fun x' v' hx' hv' hfile => ?_
    obtain rfl := Option.some.inj (hx.symm.trans hx')
    obtain rfl := Option.some.inj (hv.symm.trans hv')
    exact absurd (hdir.symm.trans hfile) (by decide)
  have hat : ∀ {o' : Objs} {m : Nat},
      o' = { o with file := upd o.file file (some { f with offset := m }) } →
        o'.ReadsAt file v.inum m blk := by
    rintro o' m rfl
    exact ⟨_, x, v, c, upd_self _ _ _, hst, rfl, hx, hv, hrfs, hdir, rfl, hc, hblk⟩
  rw [if_neg (not_not.mpr hdir), hrfs]
  by_cases hlt : k < (dirEnts d v.inum).length
  · refine .bind (R := fun r s' => r = (0, some (toDir (direntry blk k)), ((k + 1 : Nat) : Int)) ∧
      s' = s) ?_ ?_
    · refine post_known vinodeKind h hv ?_
      rw [hcount, hk, if_neg (by omega)]
      refine post_known dirCacheKind h hc ?_
      exact .step (readDirentry_copy h hblk (by omega) (hname hlt)) (.pure ⟨rfl, rfl⟩)
    · rintro ⟨ret, dir, off⟩ s1 ⟨heq, rfl⟩
      obtain ⟨-, rfl, rfl⟩ : _ ∧ _ ∧ _ := by simpa using heq
      refine post_set fileKind h hf fun s2 h2 => .pure ⟨_, ⟨b, h2⟩, .single ?_, .inl ⟨hlt, rfl, ?_⟩⟩
      · exact .moved file f _ hf (Int.natCast_nonneg _) hin hmay
      · exact hat rfl
  · refine .bind (R := fun r s' => r = (-1, none, (k : Int)) ∧ s' = s) ?_ ?_
    · refine post_known vinodeKind h hv ?_
      rw [hcount, hk, if_pos (by omega)]
      exact .pure ⟨rfl, rfl⟩
    · rintro ⟨ret, dir, off⟩ s1 ⟨heq, rfl⟩
      obtain ⟨-, rfl, rfl⟩ : _ ∧ _ ∧ _ := by simpa using heq
      refine post_set fileKind h hf fun s2 h2 => .pure ⟨_, ⟨b, h2⟩, .single ?_,
        .inr ⟨Nat.le_of_not_lt hlt, rfl, ?_⟩⟩
      · exact .moved file f _ hf (Int.natCast_nonneg _) hin hmay
      · exact hat rfl

end

/-! ## The other calls do not touch the copy -/

theorem Objs.ReadsAt.frame {P : Prop} {k : Int} (h : o.ReadsAt file n k blk)
    (hfile : o'.file file = o.file file)
    (hdentry : ∀ t x, o.OpenOn t file → o.dentry t = some x →
      ∃ y, o'.dentry t = some y ∧ y.dentryInode = x.dentryInode)
    (hkeep : KeepsRfs P o.dentry o.vinode o'.vinode) (hP : P) (hcache : o'.dirCache = o.dirCache)
    (hblock : o'.dirBlock = o.dirBlock) : o'.ReadsAt file n k blk := by
  obtain ⟨f, x, v, c, hf, hst, hk, hx, hv, hrfs, hdir, hnum, hc, hblk⟩ := h
  obtain ⟨y, hy, heq⟩ := hdentry f.fDentry x ⟨f, hf, hst, rfl⟩ hx
  obtain ⟨u, hu, hvu⟩ := hkeep f.fDentry x v hx hv hrfs
  refine ⟨f, y, u, c, hfile.trans hf, hst, hk, hy, heq ▸ hu, hvu.iOps.trans hrfs,
    hvu.type.trans hdir, hvu.inum.trans hnum, ?_, hblock ▸ hblk⟩
  rw [hvu.info hP, hcache]
  exact hc

theorem Change.readsAt {k : Int} (hstill : care.still) (hc : Change M care o d o' d')
    (hi : Inv M o d) (ho : OpenInv o) (h : o.ReadsAt file n k blk) : o'.ReadsAt file n k blk := by
  have hkeep := hc.keepsRfs hi
  cases hc with
  | load | create | orphan | link | unlink | unlinkLast | evict | grow | data | size =>
      exact h.frame rfl (fun t x _ hx => ⟨x, hx, rfl⟩) hkeep rfl rfl rfl
  | bind node t x p v pv ht =>
      refine h.frame rfl (fun t' y _ hy => ?_) hkeep rfl rfl rfl
      have hne : t' ≠ t := ne_of_none ht hy
      exact ⟨y, (upd_ne hne).trans hy, rfl⟩
  | drop t x v e ht hidle =>
      refine h.frame rfl (fun t' y hq hy => ?_) hkeep rfl rfl rfl
      have hne : t' ≠ t := fun heq => ho.counts.idle ht hidle file (heq ▸ hq)
      exact ⟨y, (upd_ne hne).trans hy, rfl⟩
  | opened p t f x hnew ht =>
      obtain ⟨g, -, -, -, hg, -⟩ := id h
      have hne : file ≠ p := ne_of_none hnew hg
      refine h.frame (upd_ne hne) (fun t' y _ hy => ?_) hkeep rfl rfl rfl
      rcases eq_or_ne t' t with rfl | hne'
      · obtain rfl := Option.some.inj (ht.symm.trans hy)
        exact ⟨_, upd_self _ _ _, rfl⟩
      · exact ⟨y, (upd_ne hne').trans hy, rfl⟩
  | hostMount sb w t node B v x l _ hw _ ht =>
      refine h.frame rfl (fun t' y _ hy => ?_) hkeep rfl rfl rfl
      have hne : t' ≠ t := ne_of_none ht hy
      exact ⟨y, (upd_ne hne).trans hy, rfl⟩
  | closed file f x hf hopen hx hmay => exact absurd hstill hmay
  | dirOpened | moved | copied | dirFreed =>
      rename_i hmay
      exact absurd hstill hmay

/-! ## Sessions -/

/-- The calls that change names. -/
def Op.ChangesNames : Op → Prop
  | .open _ _ | .link _ _ | .unlink _ | .mkdir _ => True
  | _ => False

/-- A session of the descriptor `file`, opened in the state `s`: what the calls
of `vfs_readdir` have returned, the states that have been passed through, and
the state now. Names may change between the calls; `ok` is what each call of
`vfs_readdir` is made under. -/
inductive Session (host : VinodeOps) (file : Ptr) (ok : State → Prop) (s : State) :
    List (Option Dir) → List State → State → Prop
  | opened : Session host file ok s [] [s] s
  | readdir {rs : List (Option Dir)} {ts : List State} {t t' : State} {r : Int × Option Dir}
      (hs : Session host file ok s rs ts t) (hok : ok t)
      (hrun : vfsReaddir host file t = .ok (r, t')) :
      Session host file ok s (rs ++ [r.2]) (ts ++ [t']) t'
  | names {rs : List (Option Dir)} {ts : List State} {t t' : State} {op : Op} {r : Int}
      (hs : Session host file ok s rs ts t) (hop : op.ChangesNames) (hpaths : op.DirPaths t.disk) (hrun : op.exec host t = .ok (r, t')) (hcap : t'.DirCap) :
      Session host file ok s rs (ts ++ [t']) t'

/-- `n` is the inode of the directory the descriptor is open on. -/
def State.DirOf (s : State) (file : Ptr) (n : Int) : Prop :=
  ∃ f ∈ s.file file, ∃ x ∈ s.dentry f.fDentry, ∃ v ∈ s.vinode x.dentryInode, v.inum = n

/-- The offset is inside the directory now exactly when it is inside the copy
that was made in the state `s`. -/
def SameEnd (s : State) (file : Ptr) (n : Int) (t : State) : Prop :=
  ∀ f ∈ t.file file, f.offset < (dirEnts t.disk n).length ↔ f.offset < (dirEnts s.disk n).length

/-- What the first `m` calls of `vfs_readdir` return of the entries `es`. -/
def listing (es : List (Int × Name)) (m : Nat) : List (Option Dir) :=
  (List.range m).map fun i => es[i]?.map toDir

theorem listing_succ (es : List (Int × Name)) (m : Nat) :
    listing es (m + 1) = listing es m ++ [es[m]?.map toDir] := by
  simp [listing, List.range_succ]

theorem OpenCalls.names_guard {op : Op} (hop : op.ChangesNames) (hpaths : op.DirPaths d) :
    op.Guard M ⟨True, True, False, True, False⟩ o d := by
  cases op with
  | «open» | unlink | mkdir => exact DirPath.pathOk hpaths
  | link => exact ⟨hpaths.1.pathOk, hpaths.2⟩
  | read | lseek | write | close | readdir | closedir | opendir | mount => exact hop.elim

/-- A session lists the entries the directory had when it was opened. -/
theorem Session.results {host : VinodeOps} {s t : State} {rs : List (Option Dir)} {ts : List State}
    (hs : Sound M s) (ho : OpenInv s.objs) (hr : s.objs.ReadsAt file n 0 (dirBlockOf s.disk n))
    (hnames : NamesOk s.disk) (h : Session host file (SameEnd s file n) s rs ts t) :
    s ∈ ts ∧ rs = listing (dirEnts s.disk n) rs.length ∧ Sound M t ∧ OpenInv t.objs ∧
      t.objs.ReadsAt file n (min rs.length (dirEnts s.disk n).length : Nat)
        (dirBlockOf s.disk n) := by
  have hents : dirEnts s.disk n = direntries (dirBlockOf s.disk n)
      (direntryCount (diskInode s.disk n).size) := by
    obtain ⟨f, x, v, c, -, -, -, -, hv, hrfs, hdir, rfl, -⟩ := hr
    exact dirEnts_dir ((hs.inv.type_eq hv hrfs).trans hdir)
  have hget : ∀ k, k < (dirEnts s.disk n).length →
      (dirEnts s.disk n)[k]? = some (direntry (dirBlockOf s.disk n) k) := by
    intro k hk
    rw [hents] at hk ⊢
    simp only [direntries, List.length_map, List.length_range] at hk
    simp [direntries, hk]
  induction h with
  | opened => exact ⟨by simp, rfl, hs, ho, by simpa using hr⟩
  | @readdir rs ts t t' r _ hok hrun ih =>
      obtain ⟨hmem, hlist, hst, hot, hat⟩ := ih
      have hend : min rs.length (dirEnts s.disk n).length < (dirEnts t.disk n).length ↔
          min rs.length (dirEnts s.disk n).length < (dirEnts s.disk n).length := by
        obtain ⟨f, -, -, -, hf, -, hoff, -⟩ := hat
        have := hok f hf
        rw [hoff] at this
        omega
      obtain ⟨b, hb⟩ := hst.holds
      have hname : min rs.length (dirEnts s.disk n).length < (dirEnts t.disk n).length → NameOk
          (direntry (dirBlockOf s.disk n) (min rs.length (dirEnts s.disk n).length)).2 := fun hlt =>
        hnames n _ (List.mem_of_getElem? (hget _ (hend.mp hlt)))
      have hpost : Post (vfsReaddir host file) t _ fun _ => True :=
        vfsReaddir_at ⟨True, True, False, False, False⟩ hb hst.inv hat id hname
      obtain ⟨o', hend', hsteps, hcase⟩ := hpost.of_ok hrun
      obtain ⟨rfl, hdisk, hends⟩ := hend'.here
      have hot' : OpenInv t'.objs := hsteps.keeps (P := fun a => OpenInv a.1) hst.inv hot
        fun hi h hc => hc.openInv trivial hi h
      have hinv : Inv M t'.objs t'.disk := by
        rw [hdisk]
        exact hsteps.inv hst.inv
      refine ⟨List.mem_append_left _ hmem, ?_, ⟨hends, hinv⟩, hot', ?_⟩
      · rw [List.length_append, List.length_singleton, listing_succ, ← hlist]
        rcases hcase with ⟨hlt, hres, -⟩ | ⟨hle, hres, -⟩
        · have hlt' := hend.mp hlt
          have hmin : min rs.length (dirEnts s.disk n).length = rs.length := by omega
          rw [hmin] at hres hlt'
          rw [hres, hget _ hlt']
          rfl
        · have hge : (dirEnts s.disk n).length ≤ rs.length := by
            have := mt hend.mpr (Nat.not_lt.mpr hle)
            omega
          rw [hres, List.getElem?_eq_none hge]
          rfl
      · rcases hcase with ⟨hlt, -, hnext⟩ | ⟨hle, -, hnext⟩
        · have hlt' := hend.mp hlt
          rw [List.length_append, List.length_singleton,
            show min (rs.length + 1) (dirEnts s.disk n).length =
              min rs.length (dirEnts s.disk n).length + 1 by omega]
          exact hnext
        · have hge := mt hend.mpr (Nat.not_lt.mpr hle)
          rw [List.length_append, List.length_singleton,
            show min (rs.length + 1) (dirEnts s.disk n).length =
              min rs.length (dirEnts s.disk n).length by omega]
          exact hnext
  | @names rs ts t t' op r _ hop hpaths hrun hcap ih =>
      obtain ⟨hmem, hlist, hst, hot, hat⟩ := ih
      obtain ⟨hst', hsteps⟩ := hst.exec (OpenCalls.names_guard hop hpaths) hrun hcap
      have hkeep := hsteps.keeps (P := fun a => OpenInv a.1 ∧ a.1.ReadsAt file n
        (min rs.length (dirEnts s.disk n).length : Nat) (dirBlockOf s.disk n)) hst.inv ⟨hot, hat⟩
        fun hi h hc => ⟨hc.openInv trivial hi h.1, hc.readsAt trivial hi h.1 h.2⟩
      exact ⟨List.mem_append_left _ hmem, hlist, hst', hkeep⟩

/-- What is returned was an entry of directory `n` at some moment, and an entry
that stays is returned once before the end. -/
structure ReaddirExact (n : Int) (ts : List State) (rs : List (Option Dir)) : Prop where
  real : ∀ dir, some dir ∈ rs → ∃ t ∈ ts, (dir.inum, dir.name) ∈ dirEnts t.disk n
  complete : ∀ e, (∀ t ∈ ts, e ∈ dirEnts t.disk n) → ∀ k, rs[k]? = some none →
    (∀ j < k, rs[j]? ≠ some none) → (rs.take k).count (some (toDir e)) = 1

theorem toDir_injective : Function.Injective toDir := by
  intro a b h
  obtain ⟨h2, h1⟩ := Dir.mk.injEq .. |>.mp h
  exact Prod.ext h1 h2

theorem getElem?_listing {es : List (Int × Name)} {m : Nat} (hk : k < m) :
    (listing es m)[k]? = some (es[k]?.map toDir) := by
  simp [listing, hk]

/-- The first call that returns nothing is the one after the last entry. -/
theorem listing_end {es : List (Int × Name)} {m : Nat} (hk : (listing es m)[k]? = some none)
    (hbefore : ∀ j < k, (listing es m)[j]? ≠ some none) :
    (listing es m).take k = es.map fun e => some (toDir e) := by
  have hkm : k < m := by
    by_contra hge
    rw [List.getElem?_eq_none (by simp [listing]; omega)] at hk
    cases hk
  have hlen : k = es.length := by
    rw [getElem?_listing hkm] at hk
    have hle : es.length ≤ k := by simpa using hk
    by_contra hne
    have hlt : es.length < k := by omega
    exact hbefore es.length hlt (by rw [getElem?_listing (by omega)]; simp)
  refine List.ext_getElem? fun i => ?_
  rw [List.getElem?_take]
  split
  · rename_i hi
    rw [getElem?_listing (by omega), List.getElem?_map]
    obtain ⟨e, he⟩ : ∃ e, es[i]? = some e := ⟨es[i], List.getElem?_eq_getElem (by omega)⟩
    rw [he]
    rfl
  · rw [List.getElem?_map, List.getElem?_eq_none (by omega)]
    rfl

theorem Session.exact {M : Mount} {host : VinodeOps} {file : Ptr} {s t : State} {n : Int}
    {rs : List (Option Dir)} {ts : List State} (hs : Sound M s) (ho : OpenInv s.objs)
    (hr : s.objs.ReadsAt file n 0 (dirBlockOf s.disk n)) (hnames : NamesOk s.disk)
    (h : Session host file (SameEnd s file n) s rs ts t) : ReaddirExact n ts rs := by
  obtain ⟨hmem, hlist, -⟩ := h.results hs ho hr hnames
  constructor
  · intro dir hdir
    refine ⟨s, hmem, ?_⟩
    rw [hlist] at hdir
    obtain ⟨i, -, hi⟩ := List.mem_map.mp hdir
    obtain ⟨e, he, rfl⟩ := Option.map_eq_some_iff.mp hi
    exact List.mem_of_getElem? he
  · intro e hstay k hk hbefore
    rw [hlist] at hk hbefore ⊢
    have hinj : Function.Injective fun e => some (toDir e) :=
      (Option.some_injective _).comp toDir_injective
    rw [listing_end hk hbefore, List.count_map_of_injective _ _ hinj]
    have hnodup : (dirEnts s.disk n).Nodup := .of_map _ (hs.inv.links.names n)
    exact List.count_eq_one_of_mem hnodup (hstay s hmem)

theorem readdir_exact {b : Boot} {host : VinodeOps} {s0 s1 s t : State} {path : Path} {file : Ptr}
    {n : Int} {rs : List (Option Dir)} {ts : List State} (h0 : b.Starts s0)
    (hrun : Run host SessionCalls s0 s1) (hpath : DirPath s1.disk path)
    (hopen : vfsOpendir host path s1 = .ok (some file, s)) (hn : s.DirOf file n)
    (h : Session host file (SameEnd s file n) s rs ts t) : ReaddirExact n ts rs := by
  obtain ⟨hs1, ⟨ho1, -⟩, hsteps⟩ := SessionCalls.keeps h0 hrun
  have hnames : NamesOk s1.disk := by
    refine hsteps.keeps (P := fun a => NamesOk a.2) h0.sound.inv (fun p e he => ?_)
      fun hi hP hc => hc.namesOk hi hP
    rw [h0.booted.2.disk.dirEnts_eq] at he
    cases he
  obtain ⟨tokens, hp, hdir⟩ := hpath
  obtain ⟨b1, h1⟩ := hs1.holds
  obtain ⟨o, hend, hsteps, hreads⟩ := (vfsOpendir_post ⟨True, True, False, False, False⟩ h1 hs1.inv hp
    hdir.stopOk id).of_ok hopen
  obtain ⟨rfl, hdisk, hends⟩ := hend.here
  obtain ⟨m, hat⟩ := hreads file rfl
  have hmn : m = n := by
    obtain ⟨f, x, v, -, hf, -, -, hx, hv, -, -, rfl, -⟩ := hat
    obtain ⟨g, hg, y, hy, u, hu, rfl⟩ := hn
    obtain rfl := Option.some.inj (Eq.symm hf |>.trans hg)
    obtain rfl := Option.some.inj (Eq.symm hx |>.trans hy)
    obtain rfl := Option.some.inj (Eq.symm hv |>.trans hu)
    rfl
  have hs : Sound s0.mount s := ⟨hends, by rw [hdisk]; exact hsteps.inv hs1.inv⟩
  have ho : OpenInv s.objs := hsteps.keeps (P := fun a => OpenInv a.1) hs1.inv ho1
    fun hi h hc => hc.openInv trivial hi h
  rw [hmn, ← hdisk] at hat
  exact h.exact hs ho hat (hdisk ▸ hnames)

/-! ## Replaying a session -/

instance (s : State) (file : Ptr) (n : Int) : DecidablePred (SameEnd s file n) := fun t =>
  inferInstanceAs (Decidable (∀ f ∈ t.file file,
    f.offset < (dirEnts t.disk n).length ↔ f.offset < (dirEnts s.disk n).length))

instance (s : State) (file : Ptr) (n : Int) : Decidable (s.DirOf file n) :=
  inferInstanceAs (Decidable (∃ f ∈ s.file file, ∃ x ∈ s.dentry f.fDentry,
    ∃ v ∈ s.vinode x.dentryInode, v.inum = n))

instance : (op : Op) → Decidable op.ChangesNames
  | .open _ _ | .link _ _ | .unlink _ | .mkdir _ => .isTrue trivial
  | .read _ _ _ | .write _ _ | .lseek _ _ _ | .close _ | .opendir _ | .readdir _ | .closedir _
  | .mount _ _ => .isFalse id

section

variable (host : VinodeOps) (file : Ptr) (ok : State → Prop) [DecidablePred ok]

/-- Go on with a session; `none` is a call of `vfs_readdir`. -/
def playSession : List (Option Op) → List (Option Dir) × List State × State →
    Option (List (Option Dir) × List State × State)
  | [], a => some a
  | none :: rest, (rs, ts, t) =>
      if ok t then
        match vfsReaddir host file t with
        | .ok (r, t') => playSession rest (rs ++ [r.2], ts ++ [t'], t')
        | .error _ => none
      else none
  | some op :: rest, (rs, ts, t) =>
      if op.ChangesNames ∧ op.DirPaths t.disk then
        match op.exec host t with
        | .ok (_, t') => if t'.DirCap then playSession rest (rs, ts ++ [t'], t') else none
        | .error _ => none
      else none

theorem session_of_play {s : State} {calls : List (Option Op)} :
    ∀ {a c : List (Option Dir) × List State × State}, Session host file ok s a.1 a.2.1 a.2.2 →
      playSession host file ok calls a = some c → Session host file ok s c.1 c.2.1 c.2.2 := by
  induction calls with
  | nil =>
      intro a c hs h
      obtain rfl := Option.some.inj h
      exact hs
  | cons call rest ih =>
      rintro ⟨rs, ts, t⟩ c hs h
      cases call with
      | none =>
          simp only [playSession] at h
          split at h
          · rename_i hok
            split at h
            · rename_i r t' hrun
              exact ih (.readdir hs hok hrun) h
            · cases h
          · cases h
      | some op =>
          simp only [playSession] at h
          split at h
          · rename_i hop
            split at h
            · rename_i r t' hrun
              split at h
              · rename_i hcap
                exact ih (.names hs hop.1 hop.2 hrun hcap) h
              · cases h
            · cases h
          · cases h

end

/-- A session on the root directory, after other calls. -/
def RootSession (ok : State → Ptr → State → Prop) (rs : List (Option Dir)) (ts : List State) :
    Prop :=
  ∃ s1 s t file, Run noHost SessionCalls smallBoot.state s1 ∧ DirPath s1.disk pathRoot ∧
    vfsOpendir noHost pathRoot s1 = .ok (some file, s) ∧ s.DirOf file 0 ∧
    Session noHost file (ok s file) s rs ts t

section

variable (ok : State → Ptr → State → Prop) [∀ s file, DecidablePred (ok s file)]

def playRoot (before : List Op) (calls : List (Option Op)) :
    Option (List (Option Dir) × List State) :=
  match replay noHost SessionCalls before smallBoot.state with
  | none => none
  | some s1 =>
      if DirPath s1.disk pathRoot then
        match vfsOpendir noHost pathRoot s1 with
        | .ok (some file, s) =>
            if s.DirOf file 0 then
              (playSession noHost file (ok s file) calls ([], [s], s)).map fun c => (c.1, c.2.1)
            else none
        | _ => none
      else none

theorem session_with (before : List Op) (calls : List (Option Op))
    (P : List (Option Dir) → List State → Bool)
    (h : (playRoot ok before calls).any (fun a => P a.1 a.2) = true) :
    ∃ rs ts, RootSession ok rs ts ∧ P rs ts = true := by
  obtain ⟨⟨rs, ts⟩, hplay, hP⟩ := (Option.any_eq_true _ _).mp h
  refine ⟨rs, ts, ?_, hP⟩
  unfold playRoot at hplay
  split at hplay
  · cases hplay
  · rename_i s1 hrun
    split at hplay
    · rename_i hpath
      split at hplay
      · rename_i file s hopen
        split at hplay
        · rename_i hn
          obtain ⟨⟨rs', ts', t⟩, hc, heq⟩ := Option.map_eq_some_iff.mp hplay
          obtain ⟨rfl, rfl⟩ := Prod.mk.injEq .. |>.mp heq
          exact ⟨s1, s, t, file, run_of_replay _ _ hrun, hpath, hopen, hn,
            session_of_play _ _ _ .opened hc⟩
        · cases hplay
      · cases hplay
    · cases hplay

end

/-- `"/RAMDISK0/c"`. -/
def pathC : Path := ⟨slash :: ramdiskName ++ [slash, 99], by decide⟩

/-- `"/RAMDISK0/d"`. -/
def pathD : Path := ⟨slash :: ramdiskName ++ [slash, 100], by decide⟩

/-- Two entries are listed while one is added and one removed. -/
theorem readdir_exact_two : ∃ rs ts, RootSession (fun s file => SameEnd s file 0) rs ts ∧
    rs = [some ⟨[97], 1⟩, some ⟨[98], 2⟩, none] ∧ ReaddirExact 0 ts rs := by
  obtain ⟨rs, ts, hses, hrs⟩ := session_with (fun s file => SameEnd s file 0)
    [.open pathA rdwrCreat, .close 81920, .open pathB rdwrCreat]
    [none, some (.open pathC rdwrCreat), some (.unlink pathA), none, none]
    (fun rs _ => rs == [some ⟨[97], 1⟩, some ⟨[98], 2⟩, none]) (by decide +kernel)
  obtain ⟨s1, s, t, file, hrun, hpath, hopen, hn, h⟩ := id hses
  exact ⟨rs, ts, hses, beq_iff_eq.mp hrs,
    readdir_exact (Boot.starts smallBoot_boots) hrun hpath hopen hn h⟩

/-- When a name is removed the session ends too early, and `b` is not listed;
when names are added it goes on after the end of the copy, and lists an entry
without a name. -/
theorem readdir_inexact : ∃ rs ts, RootSession (fun _ _ _ => True) rs ts ∧
    (∃ dir, some dir ∈ rs ∧ ∀ t ∈ ts, (dir.inum, dir.name) ∉ dirEnts t.disk 0) ∧
    (∃ e k, (∀ t ∈ ts, e ∈ dirEnts t.disk 0) ∧ rs[k]? = some none ∧
      (∀ j < k, rs[j]? ≠ some none) ∧ (rs.take k).count (some (toDir e)) = 0) ∧
    ¬ReaddirExact 0 ts rs := by
  obtain ⟨rs, ts, hses, hbad⟩ := session_with (fun _ _ _ => True)
    [.open pathA rdwrCreat, .close 81920, .open pathB rdwrCreat]
    [some (.unlink pathA), none, none, some (.open pathC rdwrCreat), some (.open pathD rdwrCreat),
      none, none]
    (fun rs ts => rs == [some ⟨[97], 1⟩, none, some ⟨[98], 2⟩, some ⟨[], 0⟩] &&
      ts.all fun t => (dirEnts t.disk 0).contains (2, [98]) &&
        !(dirEnts t.disk 0).contains (0, [])) (by decide +kernel)
  obtain ⟨hrs, hts⟩ := (Bool.and_eq_true _ _).mp hbad
  have hmem : ∀ t ∈ ts, (2, [98]) ∈ dirEnts t.disk 0 ∧ (0, []) ∉ dirEnts t.disk 0 := by
    simpa using hts
  obtain rfl := beq_iff_eq.mp hrs
  have hmiss : ∀ t ∈ ts, ((2 : Int), ([98] : Name)) ∈ dirEnts t.disk 0 := fun t ht => (hmem t ht).1
  have hfirst : ∀ j < 1, ([some ⟨[97], 1⟩, none, some ⟨[98], 2⟩, some ⟨[], 0⟩] :
      List (Option Dir))[j]? ≠ some none := by decide
  refine ⟨_, ts, hses, ⟨⟨[], 0⟩, by simp, fun t ht => (hmem t ht).2⟩,
    ⟨(2, [98]), 1, hmiss, rfl, hfirst, by decide⟩, fun hexact => ?_⟩
  have hone := hexact.complete (2, [98]) hmiss 1 rfl hfirst
  exact absurd hone (by decide)

end Pke
