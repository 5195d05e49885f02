import Pke.Hostfs
import Pke.VfsSpec

/-!
# What the functions of the host file system do

`PathAt` is the path of a dentry as `path_backtrack` puts it together,
`HostFound` what `hostfs_lookup` makes of a path: a vinode for the file
the host has opened, or a vinode that passes for a directory. There is
no third answer, so a lookup below the root of the host always finds
something (`lookupToken_host`).

Nothing here excludes a fault: the lemmas say what a call has done when
it returns.
-/

namespace Pke

open Exec (Post)

/-! ## Handles and their addresses -/

theorem handlePtr_inj {f g : Fin maxFiles} (h : handlePtr f = handlePtr g) : f = g := by
  have h' : 2147549184 + 8 * f.val = 2147549184 + 8 * g.val := h
  exact Fin.ext (by omega)

theorem handleAt_some {p : Ptr} {f : Fin maxFiles} (h : handleAt p = some f) : p = handlePtr f := by
  have := List.find?_some h
  simp only [beq_iff_eq] at this
  exact this.symm

theorem handleAt_handlePtr (f : Fin maxFiles) : handleAt (handlePtr f) = some f := by
  cases h : handleAt (handlePtr f) with
  | none =>
      have := List.find?_eq_none.mp h f (List.mem_finRange f)
      simp at this
  | some g => rw [handlePtr_inj (handleAt_some h)]

theorem isErrPtr_handlePtr (f : Fin maxFiles) : isErrPtr (handlePtr f) = false := by
  have hf : f.val < 128 := f.isLt
  have hlt : ¬2 ^ 63 ≤ 2147549184 + 8 * f.val := by omega
  exact decide_eq_false hlt

theorem handlePtr_ne_zero (f : Fin maxFiles) : handlePtr f ≠ 0 := by
  have : 2147549184 + 8 * f.val ≠ 0 := by omega
  exact this

@[simp] theorem Spike.tree_decref (sp : Spike) (f : Fin maxFiles) :
    (sp.spikeFileDecref f).host.tree = sp.host.tree := by
  unfold Spike.spikeFileDecref
  dsimp only
  split
  · exact Host.tree_close _ _
  · rfl

/-! ## Opening a path of the host -/

/-- The vinode made for what the host does not open. -/
def dirVinode (sb : Ptr) (e : Int) : Vinode where
  inum := -1
  ref := 0
  size := 0
  type := dirI
  nlinks := 0
  blocks := 0
  addrs := fun _ => 0
  iFsInfo := errPtr e
  sb := sb
  iOps := .hostfs

/-- The vinode made for a file of the host. -/
def fileVinode (sb : Ptr) (f : Fin maxFiles) (i : HostInode) : Vinode where
  inum := wrap32 i.ino
  ref := 0
  size := wrap32 i.data.length
  type := fileI
  nlinks := wrap32 i.nlink
  blocks := wrap32 i.blocks
  addrs := fun _ => 0
  iFsInfo := handlePtr f
  sb := sb
  iOps := .hostfs

/-- What `hostfs_lookup` makes of a path: the handles after it, and the vinode.
A path the host refuses keeps the handle that was taken for it. -/
inductive HostFound (sp : Spike) (sb : Ptr) (path : List UInt8) : Spike → Vinode → Prop
  | full (hfull : sp.freeFile = none) : HostFound sp sb path sp (dirVinode sb (-12))
  | refused (f : Fin maxFiles) (e : Int) (hf : sp.freeFile = some f)
      (hnode : ∀ id, sp.host.tree.node path ≠ some (.file id)) :
      HostFound sp sb path (sp.setFile f ⟨(sp.files f).kfd, 2⟩) (dirVinode sb e)
  | opened (f : Fin maxFiles) (id : Nat) (fd : Int) (host : Host) (hf : sp.freeFile = some f)
      (hnode : sp.host.tree.node path = some (.file id))
      (hopen : sp.host.Opens id fd host.toHostState) :
      HostFound sp sb path { sp.setFile f ⟨fd, 3⟩ with host := host }
        (fileVinode sb f (sp.host.files id))

namespace HostFound

variable {sp sp' : Spike} {sb : Ptr} {path : List UInt8} {v : Vinode}

theorem tree (h : HostFound sp sb path sp' v) : sp'.host.tree = sp.host.tree := by
  cases h with
  | full | refused => rfl
  | opened f id fd host hf hnode hopen => exact hopen.tree

theorem host (h : HostFound sp sb path sp' v) :
    v.iOps = .hostfs ∧ v.sb = sb ∧ v.ref = 0 := by
  cases h <;> exact ⟨rfl, rfl, rfl⟩

/-- What has a number is a file, and a file has a handle. -/
theorem kind (h : HostFound sp sb path sp' v) :
    (0 ≤ v.inum → v.type = fileI) ∧ (v.type = fileI → ∃ f, v.iFsInfo = handlePtr f) := by
  cases h with
  | full | refused =>
      have hnum : ¬(0 : Int) ≤ -1 := by decide
      have hdir : ¬(1 : Int) = 0 := by decide
      exact ⟨fun h => absurd h hnum, fun h => absurd h hdir⟩
  | opened f id => exact ⟨fun _ => rfl, fun _ => ⟨f, rfl⟩⟩

/-- What passes for a file is one. -/
theorem file (h : HostFound sp sb path sp' v) (hfile : v.type = fileI ∨ 0 ≤ v.inum) :
    ∃ id, sp.host.tree.node path = some (.file id) := by
  cases h with
  | full | refused =>
      have hdir : ¬((1 : Int) = 0 ∨ (0 : Int) ≤ -1) := by decide
      exact absurd hfile hdir
  | opened f id fd host hf hnode => exact ⟨id, hnode⟩

end HostFound

/-- A handle that is taken and given back by a refused open. -/
theorem spikeFileDecref_taken (sp : Spike) (f : Fin maxFiles) :
    (sp.setFile f { sp.files f with refcnt := initFileRef }).spikeFileDecref f =
      sp.setFile f ⟨(sp.files f).kfd, 2⟩ := by
  have h3 : initFileRef ≠ 2 := by decide
  have h2 : (initFileRef + 2 ^ 32 - 1) % 2 ^ 32 = 2 := by decide
  simp only [Spike.spikeFileDecref, Spike.setFile, upd_self, upd_upd, if_neg h3, h2]

/-- The answers of `spike_file_open`, with the vinode each of them leads to. -/
theorem spikeFileOpen_found (sp : Spike) (sb : Ptr) (path : List UInt8) :
    (∃ e, (sp.spikeFileOpen path false).1 = .error e ∧ isErrPtr (errPtr e) = true ∧
      HostFound sp sb path (sp.spikeFileOpen path false).2 (dirVinode sb e)) ∨
    ∃ f fd, (sp.spikeFileOpen path false).1 = .ok f ∧
      (sp.spikeFileOpen path false).2.host.fdAt ((sp.spikeFileOpen path false).2.files f).kfd =
        some fd ∧
      HostFound sp sb path (sp.spikeFileOpen path false).2
        (fileVinode sb f ((sp.spikeFileOpen path false).2.host.files fd.file)) := by
  cases hf : sp.freeFile with
  | none =>
      have hopen : sp.spikeFileOpen path false = (.error (-12), sp) := by
        simp only [Spike.spikeFileOpen, Spike.spikeFileGetFree, hf, Option.map_none]
      rw [hopen]
      exact .inl ⟨-12, rfl, by decide, .full hf⟩
  | some f =>
      -- the handle is taken, then the host is asked
      have hopen : ∀ {ret : Int} {host : Host}, sp.host.openat path false = (ret, host) →
          sp.spikeFileOpen path false =
            if 0 ≤ ret then (.ok f, { sp.setFile f ⟨ret, 3⟩ with host := host })
            else (.error ret, Spike.spikeFileDecref
              { sp.setFile f { sp.files f with refcnt := initFileRef } with host := host } f) := by
        intro ret host hask
        simp only [Spike.spikeFileOpen, Spike.spikeFileGetFree, hf, Option.map_some]
        rw [show (sp.setFile f { sp.files f with refcnt := initFileRef }).host = sp.host from rfl, hask]
        simp only [Spike.setFile, upd_self, upd_upd]
      by_cases hfile : ∃ id, sp.host.tree.node path = some (.file id)
      · obtain ⟨id, hnode⟩ := hfile
        have hopens := sp.host.usual.opens _ _ _ hnode
        rw [hopen rfl, if_pos hopens.nonneg]
        refine .inr ⟨f, ⟨id, 0⟩, rfl, ?_, ?_⟩
        · dsimp only [Spike.setFile]
          rw [upd_self]
          exact (hopens.fdAt _).trans (if_pos rfl)
        · show HostFound _ _ _ _ (fileVinode sb f ((sp.host.openat path false).2.files id))
          rw [show (sp.host.openat path false).2.files = sp.host.files from hopens.files]
          exact .opened f id _ _ hf hnode hopens
      · obtain ⟨e, hlo, hneg, hask⟩ := sp.host.usual.refuses _ _ (not_exists.mp hfile)
        have hask : sp.host.openat path false = (e, sp.host) := by
          rw [Host.openat, hask]
        rw [hopen hask, if_neg (not_le.mpr hneg)]
        refine .inl ⟨e, rfl, ?_, ?_⟩
        · have hlt : 2 ^ 63 ≤ (e % 2 ^ 64).toNat := by omega
          exact decide_eq_true hlt
        · have hleft : HostFound sp sb path _ (dirVinode sb e) :=
            .refused f _ hf (not_exists.mp hfile)
          rwa [← spikeFileDecref_taken] at hleft

/-! ## Paths -/

/-- What is appended to the path of a dentry for the names below it. -/
def pathString (tokens : List Name) : List UInt8 := tokens.flatMap fun token => slash :: token

theorem pathString_snoc (names : List Name) (name : Name) :
    pathString (names ++ [name]) = pathString names ++ slash :: name := by
  simp [pathString]

/-- From the root, the dentries of `names` lead to `t`. -/
inductive DentryChain (s : State) : Ptr → List Name → Prop
  | root {t : Ptr} {x : Dentry} (ht : s.dentry t = some x) (hroot : x.parent = 0) :
      DentryChain s t []
  | kid {t : Ptr} {x : Dentry} {names : List Name} (ht : s.dentry t = some x)
      (hkid : x.parent ≠ 0) (hchain : DentryChain s x.parent names) :
      DentryChain s t (names ++ [x.name])

/-- A chain is not touched by what happens outside of dentries. -/
theorem DentryChain.frame {s s' : State} {t : Ptr} {names : List Name} (h : DentryChain s t names)
    (hkeep : ∀ t x, s.dentry t = some x → s'.dentry t = some x) : DentryChain s' t names := by
  induction h with
  | root ht hroot => exact .root (hkeep _ _ ht) hroot
  | kid ht hkid _ ih => exact .kid (hkeep _ _ ht) hkid ih

/-- The path of a dentry from the root, as `path_backtrack` puts it together. -/
inductive PathAt (o : Objs) : Ptr → List UInt8 → Prop
  | root {t : Ptr} {x : Dentry} (ht : o.dentry t = some x) (hroot : x.parent = 0) : PathAt o t []
  | kid {t : Ptr} {x : Dentry} {path : List UInt8} (ht : o.dentry t = some x)
      (hkid : x.parent ≠ 0) (hpath : PathAt o x.parent path) : PathAt o t (path ++ slash :: x.name)

namespace PathAt

variable {o o' : Objs} {t : Ptr} {p q : List UInt8}

theorem unique (hp : PathAt o t p) (hq : PathAt o t q) : p = q := by
  induction hp generalizing q with
  | root ht hroot =>
      cases hq with
      | root => rfl
      | kid ht' hkid hpath =>
          obtain rfl := Option.some.inj (ht.symm.trans ht')
          exact absurd hroot hkid
  | kid ht hkid hpath ih =>
      cases hq with
      | root ht' hroot =>
          obtain rfl := Option.some.inj (ht.symm.trans ht')
          exact absurd hroot hkid
      | kid ht' hkid' hpath' =>
          obtain rfl := Option.some.inj (ht.symm.trans ht')
          rw [ih hpath']

/-- The path stays as long as the dentries do. -/
theorem mono (h : PathAt o t p)
    (hkeep : ∀ t x, o.dentry t = some x → ∃ y, o'.dentry t = some y ∧ y.key = x.key) :
    PathAt o' t p := by
  induction h with
  | root ht hroot =>
      obtain ⟨y, hy, hkey⟩ := hkeep _ _ ht
      exact .root hy ((congrArg DentryKey.parent hkey).trans hroot)
  | @kid t x path ht hkid hpath ih =>
      obtain ⟨y, hy, hkey⟩ := hkeep _ _ ht
      have hpar : y.parent = x.parent := congrArg DentryKey.parent hkey
      have hname : y.name = x.name := congrArg DentryKey.name hkey
      rw [← hname]
      exact .kid hy (hpar ▸ hkid) (hpar ▸ ih)

/-- The path stays when a dentry with nothing below it goes. -/
theorem without {r : Ptr} (h : PathAt o t p) (hd : o'.dentry = upd o.dentry r none)
    (hleaf : ∀ q y, o.dentry q = some y → y.parent ≠ r) (hne : t ≠ r) : PathAt o' t p := by
  induction h with
  | root ht hroot => exact .root (by rw [hd, upd_ne hne, ht]) hroot
  | kid ht hkid hpath ih =>
      exact .kid (by rw [hd, upd_ne hne, ht]) hkid (ih (hleaf _ _ ht))

end PathAt

variable {v pv : Vinode} {t : Ptr} {x : Dentry}

section

variable {s : State} {o : Objs} {d : Nat → Block} {b : Block} {R : List Ptr} {E : Fault → Prop}

theorem pathBacktrack_post (h : Holds s o d b R) : ∀ (depth : Nat) (t : Ptr),
    Post (pathBacktrack depth t) s (fun path s' => s' = s ∧ PathAt o t path) AnyFault
  | 0, t => .fault trivial
  | depth + 1, t => by
      refine post_follow dentryKind h (fun _ => trivial) fun x hx => ?_
      refine .ite (fun h0 => .pure ⟨rfl, .root hx h0⟩) fun h0 => ?_
      refine .bind (pathBacktrack_post h depth x.parent) ?_
      rintro path _ ⟨rfl, hpath⟩
      exact .pure ⟨rfl, .kid hx h0 hpath⟩

theorem getPathString_post (h : Holds s o d b R) (t : Ptr) :
    Post (getPathString t) s (fun r s' => s' = s ∧ ∃ path, PathAt o t path ∧ r = hRootDir ++ path)
      AnyFault := by
  refine .bind (pathBacktrack_post h _ t) ?_
  rintro path _ ⟨rfl, hpath⟩
  exact .ite (fun _ => .pure ⟨rfl, path, hpath, rfl⟩) fun _ => .fault trivial

/-! ## Lookup -/

theorem hostfsAllocVinode_post {sb : Ptr} (h : Holds s o d b R) (hE : E .nullPage) :
    Post (hostfsAllocVinode sb) s (fun w s' => o.Fresh w ∧ w ∉ R ∧
      Holds s' (o.setV w { dirVinode sb 0 with type := 0 }) d b R) E := by
  refine .bind (R := fun w s' => o.Fresh w ∧ w ∉ R ∧ Holds s' (o.setV w
    ⟨0, 0, 0, 0, 0, 0, fun _ => 0, 0, sb, .hostfs⟩) d b R) ?_ ?_
  · refine .bind (allocPage_post h hE) ?_
    rintro w s1 ⟨h1, hfresh, -, hR⟩
    exact post_setNew vinodeKind h1 hR fun s2 h2 => .pure ⟨hfresh, hR, h2⟩
  rintro w s1 ⟨hfresh, hR, h1⟩
  refine post_known vinodeKind h1 (upd_self _ _ _) ?_
  refine post_set vinodeKind h1 (upd_self _ _ _) fun s2 h2 => .pure ⟨hfresh, hR, h2.cast ?_⟩
  simp only [Objs.setV, upd_upd]
  rfl

/-- A handle, or an error, and the vinode that is made with it. -/
def Loads (sp : Spike) (sb p : Ptr) (v : Vinode) : Prop :=
  (∃ e, p = errPtr e ∧ isErrPtr p = true ∧ v = dirVinode sb e) ∨
    ∃ f fd, p = handlePtr f ∧ sp.host.fdAt (sp.files f).kfd = some fd ∧
      v = fileVinode sb f (sp.host.files fd.file)

theorem openHandle_post (sb : Ptr) (path : List UInt8) (h : Holds s o d b R) :
    Post (openHandle path false) s (fun p s' => ∃ sp v, HostFound o.spike sb path sp v ∧
      Loads sp sb p v ∧ Holds s' { o with spike := sp } d b R) E := by
  have hspike : s.spike = o.spike := congrArg Objs.spike h.objs
  have h1 := h.withSpike (o.spike.spikeFileOpen path false).2
  refine .bindGet (.bindModify ?_)
  rw [hspike]
  rcases spikeFileOpen_found o.spike sb path with ⟨e, hopen, herr, hfound⟩ |
    ⟨f, fd, hopen, hfd, hfound⟩
  · rw [hopen]
    exact .pure ⟨_, _, hfound, .inl ⟨e, rfl, herr, rfl⟩, h1⟩
  · rw [hopen]
    exact .pure ⟨_, _, hfound, .inr ⟨f, fd, rfl, hfd, rfl⟩, h1⟩

theorem hostfsLoadVinode_post {sb p : Ptr} (h : Holds s o d b R) (hload : Loads o.spike sb p v)
    (hE : E .nullPage) : Post (hostfsLoadVinode sb p) s (fun r s' => o.Fresh r.1 ∧
      Holds s' (o.setV r.1 v) d b R) E := by
  refine .bind (hostfsAllocVinode_post h hE) ?_
  rintro w s1 ⟨hfresh, -, h1⟩
  refine post_known vinodeKind h1 (upd_self _ _ _) ?_
  refine post_set vinodeKind h1 (upd_self _ _ _) fun s2 h2 => ?_
  refine .bind (R := fun _ s' => Holds s' (o.setV w v) d b R) ?_
    fun _ s3 h3 => .pure ⟨hfresh, h3⟩
  refine post_known vinodeKind h2 (upd_self _ _ _) ?_
  rcases hload with ⟨e, rfl, herr, rfl⟩ | ⟨f, fd, rfl, hfd, rfl⟩
  · rw [if_pos herr]
    refine post_set vinodeKind h2 (upd_self _ _ _) fun s3 h3 => .pure (h3.cast ?_)
    simp only [Objs.setV, upd_upd]
    rfl
  · rw [if_neg (by rw [isErrPtr_handlePtr]; exact Bool.false_ne_true), getHandle,
      handleAt_handlePtr]
    refine .step rfl (.bindGet ?_)
    have hspike : s2.spike = o.spike := congrArg Objs.spike h2.objs
    rw [hspike, Spike.spikeFileStat, Host.fstat, o.spike.host.usual.stats _ _ _ hfd]
    refine .step rfl ?_
    refine post_set vinodeKind h2 (upd_self _ _ _) fun s3 h3 => .pure (h3.cast ?_)
    simp only [Objs.setV, upd_upd]
    rfl

/-- `hostfs_lookup` returns a vinode whatever the host has. -/
theorem hostfsLookup_post {pw : Ptr} (h : Holds s o d b R) (hp : o.vinode pw = some pv) :
    Post (hostfsLookup pw t) s (fun r s' => ∃ path w sp v, PathAt o t path ∧
      HostFound o.spike pv.sb (hRootDir ++ path) sp v ∧ r = some w ∧ o.Fresh w ∧
      Holds s' (Objs.setV { o with spike := sp } w v) d b R) AnyFault := by
  refine .bind (getPathString_post h t) ?_
  rintro _ s ⟨rfl, path, hpath, rfl⟩
  refine .bind (openHandle_post pv.sb (hRootDir ++ path) h) ?_
  rintro p s1 ⟨sp, v, hfound, hload, h1⟩
  refine post_known vinodeKind h1 hp ?_
  refine .bind (hostfsLoadVinode_post h1 hload trivial) ?_
  rintro ⟨w, ret⟩ s2 ⟨hfresh, h2⟩
  refine post_known vinodeKind h2 (upd_self _ _ _) ?_
  refine post_set vinodeKind h2 (upd_self _ _ _) fun s3 h3 => ?_
  have hfresh' : o.Fresh w := ⟨hfresh.dentry, hfresh.vinode, hfresh.file, hfresh.superBlock,
    hfresh.hashNode, hfresh.dirBlock, hfresh.dirCache⟩
  refine .pure ⟨path, w, sp, v, hpath, hfound, rfl, hfresh', h3.cast ?_⟩
  have href : { v with ref := 0 } = v := by
    rw [← hfound.host.2.2]
  simp only [Objs.setV, upd_upd, href]

/-! ## One component of a path -/

/-- What the lookup of a name below `this` leaves: the dentry the table has, or a
new one for what the host made of its path. -/
inductive NameFound (o : Objs) (this : Ptr) (token : Name) : Ptr → Objs → Prop
  | cached (e : HashNode DentryKey Ptr) (he : o.findD ⟨this, token⟩ = some e) :
      NameFound o this token e.value o
  | new (t node q : Ptr) (x : Dentry) (pv v u : Vinode) (path : List UInt8) (sp : Spike) (o1 : Objs)
      (hnew : o.findD ⟨this, token⟩ = none) (hx : o.dentry this = some x)
      (hpv : o.vinode x.dentryInode = some pv) (hpath : PathAt o this path)
      (hfound : HostFound o.spike pv.sb (hRootDir ++ path ++ slash :: token) sp v)
      (hin : Entered { o with spike := sp } v q u o1) (ht : o.dentry t = none) (ht0 : t ≠ 0)
      (hnode : o1.hashNode node = none) :
      NameFound o this token t ((o1.setV q { u with ref := u.ref + 1 }).addD node t
        ⟨token, 0, q, this⟩)

/-- What a new name changes: the dentry `t` is new, it points to the vinode `q`, and
that is new too or has been there. -/
structure NewName (o : Objs) (this : Ptr) (token : Name) (sb : Ptr) (path : List UInt8) (t q : Ptr)
    (v u : Vinode) (sp : Spike) (o' : Objs) : Prop where
  fresh : o.dentry t = none ∧ t ≠ 0
  dentry : o'.dentry = upd o.dentry t (some ⟨token, 0, q, this⟩)
  vinode : o'.vinode = upd o.vinode q (some { u with ref := u.ref + 1 })
  was : o.vinode q = none ∧ u = v ∨ o.vinode q = some u ∧ u.key = v.key ∧ 0 ≤ u.inum
  found : HostFound o.spike sb path sp v
  cache : CacheInv o'
  rest : o'.file = o.file ∧ o'.root = o.root ∧ o'.spike = sp

theorem NameFound.newName {this : Ptr} {token : Name} {path : List UInt8} {o' : Objs}
    (h : NameFound o this token t o') (hc : CacheInv o) (hx : o.dentry this = some x)
    (hpv : o.vinode x.dentryInode = some pv) (hpath : PathAt o this path) :
    (o' = o ∧ ∃ e, o.findD ⟨this, token⟩ = some e ∧ e.value = t) ∨ ∃ q v u sp,
      NewName o this token pv.sb (hRootDir ++ path ++ slash :: token) t q v u sp o' := by
  cases h with
  | cached e he => exact .inl ⟨rfl, e, he, rfl⟩
  | new _ node q x' pv' v u path' sp o1 hnew hx' hpv' hpath' hfound hin ht ht0 hnode =>
      obtain rfl := Option.some.inj (hx.symm.trans hx')
      obtain rfl := Option.some.inj (hpv.symm.trans hpv')
      rw [← hpath.unique hpath'] at hfound
      have hc' : CacheInv { o with spike := sp } := hc.congr rfl rfl rfl rfl rfl
      have ht1 : o1.dentry t = none := by
        rw [hin.dentry]
        exact ht
      refine .inr ⟨q, v, u, sp, ⟨ht, ht0⟩, ?_, ?_, hin.was hc', hfound,
        (hin.cache hc' hfound.host.2.2).addD (x := ⟨token, 0, q, this⟩) ht1 hnode
          ((hin.findD _).trans hnew) hin.vinode, hin.rest⟩
      · show upd o1.dentry t _ = _
        rw [hin.dentry]
      · funext w
        rcases eq_or_ne w q with rfl | hne
        · exact (upd_self _ _ _).trans (upd_self _ _ _).symm
        · rw [upd_ne hne]
          exact (upd_ne hne).trans (hin.vinode_ne hne)

/-- A lookup below a host dentry finds something. -/
theorem lookupToken_host {this : Ptr} {token : Name} {path : List UInt8} (h : Holds s o d b [])
    (hc : CacheInv o) (hx : o.dentry this = some x) (hpv : o.vinode x.dentryInode = some pv)
    (hhost : pv.iOps = .hostfs) (hpath : PathAt o this path) :
    Post (lookupToken hostfsIOps this token) s (fun r s' => ∃ t o', r = some t ∧
      NameFound o this token t o' ∧ Holds s' o' d b []) AnyFault := by
  refine .step (defaultGet_ok dentryView h _) ?_
  rw [show (dentryView.look o).find? dentryTable.ops ⟨this, token⟩ = o.findD ⟨this, token⟩ from rfl]
  cases hf : o.findD ⟨this, token⟩ with
  | some e => exact .pure ⟨e.value, o, rfl, .cached e hf, h⟩
  | none =>
      refine .bind (allocVfsDentry_null h trivial) ?_
      rintro t s1 ⟨hfresh, ht0, -, h1⟩
      have hkeep : ∀ q y, o.dentry q = some y →
          (o.setD t ⟨token, 0, 0, this⟩).dentry q = some y := by
        intro q y hq
        have hne : q ≠ t := ne_of_none hfresh.dentry hq
        exact (upd_ne hne).trans hq
      refine post_known dentryKind h1 (hkeep this x hx) ?_
      refine .bind (R := fun ops s' => ops = hostfsIOps ∧ s' = s1) ?_ ?_
      · refine post_known vinodeKind h1 hpv (.pure ⟨?_, rfl⟩)
        rw [hhost]
        rfl
      rintro _ s1 ⟨rfl, rfl⟩
      refine .bind (hostfsLookup_post h1 hpv) ?_
      rintro _ s2 ⟨path', w, sp, v, hpath', hfound, rfl, hw, h2⟩
      -- the path of the new dentry is the one of its parent and the name
      have hthis0 : this ≠ 0 := h.ne_zero (K := dentryKind) hx
      have hpath1 : PathAt (o.setD t ⟨token, 0, 0, this⟩) this path :=
        hpath.mono fun q y hq => ⟨y, hkeep q y hq, rfl⟩
      have heq : path' = path ++ slash :: token :=
        hpath'.unique (.kid (x := ⟨token, 0, 0, this⟩) (upd_self _ _ _) hthis0 hpath1)
      rw [heq, ← List.append_assoc] at hfound
      have h2' : Holds s2 ((Objs.setD { o with spike := sp } t ⟨token, 0, 0, this⟩).setV w v)
        d b [] := h2
      have hc' : CacheInv { o with spike := sp } := hc.congr rfl rfl rfl rfl rfl
      refine .bind (cacheFound_entered h2' hc' hw.vinode hf trivial) ?_
      rintro _ s3 ⟨q, u, o1, node, hin, hnode, h3⟩
      exact .pure ⟨t, _, rfl, .new t node q x pv v u path sp o1 hf hx hpv hpath hfound hin
        hfresh.dentry ht0 hnode, h3⟩

/-! ## Opening and closing -/

/-- The end of `vfs_open`, for a file of the host that has a handle already. -/
theorem openDentry_host {flags : Nat} (h : Holds s o d b []) (ht : o.dentry t = some x)
    (hv : o.vinode x.dentryInode = some v) (hhost : v.iOps = .hostfs)
    (hhandle : v.type = fileI → ∃ f, v.iFsInfo = handlePtr f) :
    Post (openDentry hostfsIOps t flags) s (fun r s' => (r = none ∧ v.type ≠ fileI ∧
        Holds s' o d b []) ∨ v.type = fileI ∧ ∃ file f, r = some file ∧ o.Fresh file ∧
      f.fDentry = t ∧ f.status = .opened ∧ Holds s' { o.setD t { x with dRef := x.dRef + 1 } with
        file := upd o.file file (some f) } d b []) AnyFault := by
  refine post_known dentryKind h ht ?_
  refine post_known vinodeKind h hv ?_
  refine .ite (fun hdir => .pure (.inl ⟨rfl, hdir, h⟩)) fun hfile => ?_
  have hfile' : v.type = fileI := not_not.mp hfile
  refine .ite (fun _ => .fault trivial) fun _ => ?_
  refine .bind (allocVfsFile_post h ht trivial) ?_
  rintro file s1 ⟨hfresh, -, h1⟩
  -- the hook finds the handle of the lookup
  refine .bind (R := fun _ s' => s' = s1) ?_ ?_
  · rw [hhost]
    refine .bind (R := fun _ s' => s' = s1) ?_ fun _ _ hs => .pure hs
    refine post_known vinodeKind h1 hv ?_
    obtain ⟨f, hf⟩ := hhandle hfile'
    rw [hf, if_pos (handlePtr_ne_zero f)]
    exact .pure rfl
  rintro _ _ rfl
  exact .pure (.inr ⟨hfile', file, _, rfl, hfresh, rfl, rfl, h1⟩)

/-- What is left of the dentry `x` at `t` and of its vinode `v` when a descriptor
has let go of them. -/
structure LetGo (o : Objs) (t : Ptr) (x : Dentry) (v : Vinode) (o' : Objs) : Prop where
  cache : CacheInv o'
  kept : x.dRef ≠ 0 → o' = o
  dentry : x.dRef = 0 → o'.dentry = upd o.dentry t none
  vinode : x.dRef = 0 → o'.vinode = upd o.vinode x.dentryInode
    (if v.ref = 1 then none else some { v with ref := v.ref - 1 })
  rest : o'.file = o.file ∧ o'.root = o.root ∧ o'.spike = o.spike

theorem releaseDentry_host (h : Holds s o d b []) (hc : CacheInv o) (ht : o.dentry t = some x)
    (hidle : x.dRef = 0) (hv : o.vinode x.dentryInode = some v) (hhost : v.iOps = .hostfs) :
    Post (releaseDentry hostfsIOps t x.dentryInode) s (fun _ s' => ∃ o', Holds s' o' d b [] ∧
      LetGo o t x v o') E := by
  obtain ⟨e, he, -⟩ := hc.dhashed t x ht
  have hnode := (hc.dentries e (findD_mem he).1).1
  have hcd := hc.dropD ht he hv
  refine eraseDentry_post h ht (by omega) he hnode fun _ s1 h1 => ?_
  refine .bind (addRef_post h1 hv) fun _ s2 h2 => ?_
  have hv2 : (((o.dropD e.node t x).setV x.dentryInode
      { v with ref := v.ref + -1 }).vinode x.dentryInode) =
      some { v with ref := v.ref + -1 } := upd_self _ _ _
  refine post_known vinodeKind h2 hv2 ?_
  by_cases href : v.ref = 1
  · have hzero : v.ref + -1 = 0 := by omega
    rw [if_pos hzero, hhost]
    refine .step rfl ?_
    rw [if_neg (by decide)]
    by_cases hnum : 0 ≤ v.inum
    · obtain ⟨e', he', -⟩ := hc.vhashed _ v hv hnum
      have hnode' := (hc.vinodes e' (findV_mem he').1).1
      have hne : e'.node ≠ e.node := fun heq => by
        rw [heq, hnode] at hnode'
        cases hnode'
      refine (eraseVinode_post h2 hv2 hnum he' ((upd_ne hne).trans hnode')).mono fun _ s4 h4 => ?_
      refine ⟨_, h4, hcd.dropV (upd_self _ _ _) he' hzero, fun hbusy => absurd hidle hbusy,
        fun _ => rfl, fun _ => ?_, rfl, rfl, rfl⟩
      rw [if_pos href]
      exact upd_upd _ _ _ _
    · refine .bind (R := fun _ s' => s' = s2) ?_ ?_
      · refine post_known vinodeKind h2 hv2 ?_
        rw [if_pos (show v.inum < 0 from not_le.mp hnum)]
        exact .pure rfl
      rintro _ s2 ⟨rfl⟩
      refine (freePage_post (K := vinodeKind) h2 hv2 nofun).mono fun _ s4 h4 => ?_
      refine ⟨_, h4, hcd.dropUnnumbered (upd_self _ _ _) (not_le.mp hnum) hzero,
        fun hbusy => absurd hidle hbusy, fun _ => rfl, fun _ => ?_, rfl, rfl, rfl⟩
      rw [if_pos href]
      exact upd_upd _ _ _ _
  · have hmore : v.ref + -1 ≠ 0 := by omega
    rw [if_neg hmore]
    refine .pure ⟨_, h2, hcd, fun hbusy => absurd hidle hbusy, fun _ => rfl, fun _ => ?_,
      rfl, rfl, rfl⟩
    rw [if_neg href]
    rfl

/-- The handles after the hook of `vfs_close` for a file with handle `f`. -/
def Spike.afterClose (sp : Spike) (f : Fin maxFiles) : Spike :=
  match sp.spikeFileClose f with
  | none => sp
  | some (_, sp') => sp'

@[simp] theorem Spike.tree_afterClose (sp : Spike) (f : Fin maxFiles) :
    (sp.afterClose f).host.tree = sp.host.tree := by
  unfold Spike.afterClose
  cases hclose : sp.spikeFileClose f with
  | none => rfl
  | some r =>
      unfold Spike.spikeFileClose at hclose
      dsimp only at hclose
      split at hclose
      · split at hclose
        · obtain rfl := Option.some.inj hclose
          simp
        · obtain rfl := Option.some.inj hclose
          simp
      · cases hclose

/-- `vfs_close` of a descriptor on the host: it refuses what is not a file, and
otherwise closes the handle and lets go of the dentry. -/
theorem vfsClose_host {file : Ptr} (h : Holds s o d b []) (hc : CacheInv o)
    (hhost : ∀ f x v, o.file file = some f → o.dentry f.fDentry = some x →
      o.vinode x.dentryInode = some v → v.type = fileI →
        v.iOps = .hostfs ∧ ∃ g, v.iFsInfo = handlePtr g) :
    Post (vfsClose hostfsIOps file) s (fun r s' => (r = -1 ∧ Holds s' o d b []) ∨
      r = 0 ∧ ∃ f x v g o', o.file file = some f ∧ o.dentry f.fDentry = some x ∧
        o.vinode x.dentryInode = some v ∧ v.type = fileI ∧ v.iFsInfo = handlePtr g ∧
        (o.spike.spikeFileClose g).isSome ∧ LetGo (Objs.setD { o with spike := o.spike.afterClose g } f.fDentry
          { x with dRef := x.dRef - 1 }) f.fDentry { x with dRef := x.dRef - 1 } v o' ∧
        Holds s' { o' with file := upd o.file file (some { f with status := .none }) } d b []) AnyFault := by
  refine post_file h (fun _ => trivial) fun f x v hf hx hv => ?_
  refine .ite (fun _ => .pure (.inl ⟨rfl, h⟩)) fun hfile => ?_
  have hfile' : v.type = fileI := not_not.mp hfile
  obtain ⟨hops, g, hg⟩ := hhost f x v hf hx hv hfile'
  have hspike : s.spike = o.spike := congrArg Objs.spike h.objs
  refine .bind (R := fun _ s' => (o.spike.spikeFileClose g).isSome ∧
    Holds s' { o with spike := o.spike.afterClose g } d b []) ?_ ?_
  · rw [hops]
    refine .bind (R := fun _ s' => (o.spike.spikeFileClose g).isSome ∧
      Holds s' { o with spike := o.spike.afterClose g } d b []) ?_ fun _ _ hs => .pure hs
    refine post_known vinodeKind h hv ?_
    rw [hg, if_neg (handlePtr_ne_zero g), getHandle, handleAt_handlePtr]
    refine .step rfl (.bindGet ?_)
    refine .bindOption (fun _ => trivial) fun r hr => ?_
    refine .bindModify (.pure ?_)
    rw [hspike] at hr
    have hafter : o.spike.afterClose g = r.2 := by
      rw [Spike.afterClose, hr]
    rw [hafter]
    exact ⟨Option.isSome_iff_exists.mpr ⟨r, hr⟩, h.withSpike _⟩
  rintro _ s1 ⟨hsome, h1⟩
  have hc1 : CacheInv { o with spike := o.spike.afterClose g } := hc.congr rfl rfl rfl rfl rfl
  refine .bind (R := fun _ s' => ∃ o', Holds s' o' d b [] ∧ LetGo (Objs.setD
    { o with spike := o.spike.afterClose g } f.fDentry { x with dRef := x.dRef - 1 }) f.fDentry
      { x with dRef := x.dRef - 1 } v o') ?_ ?_
  · refine post_known dentryKind h1 hx ?_
    refine post_set dentryKind h1 hx fun s2 h2 => ?_
    have hc2 := hc1.setD { x with dRef := x.dRef - 1 } hx rfl rfl
    refine .ite (fun hidle => ?_) fun hbusy => ?_
    · exact releaseDentry_host h2 hc2 (upd_self _ _ _) hidle hv hops
    · exact .pure ⟨_, h2, hc2, fun _ => rfl, fun hidle => absurd hidle hbusy,
        fun hidle => absurd hidle hbusy, rfl, rfl, rfl⟩
  rintro _ s2 ⟨o', h2, hgo⟩
  have hfile2 : o'.file = o.file := hgo.rest.1
  have hf2 : o'.file file = some f := by
    rw [hfile2]
    exact hf
  refine post_set fileKind h2 hf2 fun s3 h3 => .pure (.inr ⟨rfl, f, x, v, g, o', hf, hx, hv, hfile',
    hg, hsome, hgo, h3.cast ?_⟩)
  show { o' with file := upd o'.file file _ } = _
  rw [hfile2]

end

end Pke
