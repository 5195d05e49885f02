import Pke.WalkFrame

/-!
# A lookup, told of the state before it

`Seek.run` walks a path through the state a lookup starts in, without a step of
the kernel: along the dentries of the table as far as they go, then through the
directory entries on disk, or by asking the host. `found` collects the vinodes
that the file systems make for names that are not in the table; each of them is
bound to the vinode the cache has for it, or enters the cache.

A lookup that returns has walked this way (`lookupFinalDentry_looked`): it ends
where the walk ends, the cache has what it had and what was found, and a vinode
has more references than before exactly when something found is bound to it
(`Met`).
-/

namespace Pke

open Exec (Post)

/-- Where the walk stands: the dentry there if it is one of the table, the names, the inode, the
handles, and what has been found. -/
structure Seek where
  here : Option Ptr
  names : List Name
  node : Vinode
  spike : Spike
  found : List Vinode

/-- The vinode of a dentry. -/
def State.inodeAt (s : State) (t : Ptr) : Option Vinode :=
  (s.dentry t).bind fun x => s.vinode x.dentryInode

namespace Seek

variable (s0 : State) (k : Seek)

/-- The path of the host for the next name. -/
def pathTo (token : Name) : List UInt8 := hRootDir ++ pathString (k.names ++ [token])

/-- What the file system answers for the next name. -/
def finds (token : Name) : Option (Vinode × Spike) :=
  match k.node.iOps with
  | .rfs => (entryFor s0.disk k.node token).map fun n =>
      (loadedVinode k.node.sb n (dinodeAt s0.disk n), k.spike)
  | .hostfs => (hostFinds k.spike k.node.sb (k.pathTo token)).map fun w =>
      (w, (k.spike.spikeFileOpen (k.pathTo token) false).2)

/-- What has been found for an inode that can be cached. -/
def foundAt (key : VinodeKey) : Option Vinode :=
  k.found.find? fun w => decide (key = w.key ∧ 0 ≤ w.inum)

/-- The vinode a name is bound to: that of the cache, one found before, or its own. -/
def bound (w : Vinode) : Vinode :=
  match (s0.cachedAt w.key).bind s0.vinode with
  | some v => v.plain
  | none => (k.foundAt w.key).getD w

/-- The walk over one name that is not in the table. -/
def fetch (token : Name) : Option Seek :=
  (k.finds s0 token).map fun r =>
    ⟨none, k.names ++ [token], k.bound s0 r.1, r.2, k.found ++ [r.1]⟩

/-- The walk over one name; nothing when it is missing. -/
def step (token : Name) : Option Seek :=
  match k.here.bind fun t => s0.dentryHash.find? dentryHashOps ⟨t, token⟩ with
  | some e => (s0.inodeAt e.value).map fun v =>
      { k with here := some e.value, names := k.names ++ [token], node := v.plain }
  | none => k.fetch s0 token

/-- The walk over the names, with those that are left when one is missing. -/
def run (k : Seek) : List Name → Seek × List Name
  | [] => (k, [])
  | token :: rest =>
      match k.step s0 token with
      | none => (k, token :: rest)
      | some k' => run k' rest

/-- The root of the tree. -/
def start (v : Vinode) : Seek := ⟨some s0.vfsRootDentry, [], v.plain, s0.spike, []⟩

end Seek

/-- The walk along a path from the root. -/
def State.seek (s : State) (path : Path) : Option (Seek × List Name) :=
  (s.inodeAt s.vfsRootDentry).map fun v => (Seek.start s v).run s path.tokens

namespace Seek

variable {s0 : State} {k k' : Seek} {token : Name}

/-- One name on, the handles may have changed but not the tree of the host. On the host, what is
found is the host's answer. -/
theorem step_some (h : k.step s0 token = some k') : k'.names = k.names ++ [token] ∧
    k'.spike.host.tree = k.spike.host.tree ∧ (k.node.iOps = .hostfs → ∀ w ∈ k'.found,
      w ∈ k.found ∨ hostFinds k.spike k.node.sb (k.pathTo token) = some w) := by
  unfold step at h
  split at h
  · obtain ⟨v, -, rfl⟩ := Option.map_eq_some_iff.mp h
    exact ⟨rfl, rfl, fun _ w hw => .inl hw⟩
  · obtain ⟨⟨w, sp⟩, hfinds, rfl⟩ := Option.map_eq_some_iff.mp h
    unfold finds at hfinds
    cases hops : k.node.iOps with
    | rfs =>
        rw [hops] at hfinds
        obtain ⟨n, -, heq⟩ := Option.map_eq_some_iff.mp hfinds
        exact ⟨rfl, congrArg (·.host.tree) (congrArg Prod.snd heq).symm, nofun⟩
    | hostfs =>
        rw [hops] at hfinds
        obtain ⟨u, hu, heq⟩ := Option.map_eq_some_iff.mp hfinds
        obtain ⟨rfl, rfl⟩ := Prod.mk.inj heq
        refine ⟨rfl, spikeFileOpen_tree .., fun _ w hw => ?_⟩
        rcases List.mem_append.mp hw with hw | hw
        · exact .inl hw
        · exact .inr (List.mem_singleton.mp hw ▸ hu)

/-- No name is lost. -/
theorem run_names : ∀ (tokens : List Name) (k : Seek),
    (k.run s0 tokens).1.names ++ (k.run s0 tokens).2 = k.names ++ tokens
  | [], _ => rfl
  | token :: rest, k => by
      rw [run]
      cases hstep : k.step s0 token with
      | none => rfl
      | some k' =>
          refine (run_names rest k').trans ?_
          rw [(step_some hstep).1, List.append_assoc]
          rfl

end Seek

theorem State.seek_names {s : State} {path : Path} {k : Seek} {rest : List Name}
    (h : s.seek path = some (k, rest)) : k.names ++ rest = path.tokens := by
  obtain ⟨v, -, hrun⟩ := Option.map_eq_some_iff.mp h
  have hnames : ((Seek.start s v).run s path.tokens).1.names ++ _ = _ :=
    Seek.run_names path.tokens (Seek.start s v)
  rwa [hrun] at hnames

/-! ## What a lookup relies on -/

/-- The dentries of the table, under their keys, have vinodes and parents, and the vinode cache
has vinodes. Which file system a vinode is of is told by its super block, and what is on the
host has its parent on the host. -/
structure CacheOk (fs : Ptr → FsType) (s : State) : Prop where
  nonnull : s.Nonnull
  root : s.vfsRootDentry ≠ 0 ∧ ∃ x v, s.dentry s.vfsRootDentry = some x ∧ x.parent = 0 ∧
    s.vinode x.dentryInode = some v ∧ v.iOps = fs v.sb
  hashed : ∀ k e, s.dentryHash.find? dentryHashOps k = some e → e.value ≠ 0 ∧
    ∃ x v, s.dentry e.value = some x ∧ x.key = k ∧ s.vinode x.dentryInode = some v ∧
      v.iOps = fs v.sb ∧ (k.parent = 0 ∨ ∃ y u, s.dentry k.parent = some y ∧
        s.vinode y.dentryInode = some u ∧ (v.iOps = .hostfs → u.iOps = .hostfs))
  vinodes : ∀ k p, s.cachedAt k = some p → ∃ v, s.vinode p = some v ∧ v.sb = k.sb ∧
    v.iOps = fs v.sb

theorem loadedVinode_plain (sb : Ptr) (n : Int) (di : Dinode) :
    (loadedVinode sb n di).plain = loadedVinode sb n di := rfl

variable {fs : Ptr → FsType} {s0 s s' s1 : State} {k k' : Seek} {d t this found : Ptr}
  {token : Name} {names : List Name} {x : Dentry} {v f u : Vinode}

theorem DentryChain.child (h : DentryChain s d names) (hd : d ≠ 0) (hx : s.dentry t = some x)
    (hkey : x.key = ⟨d, token⟩) : DentryChain s t (names ++ [token]) := by
  obtain rfl : x.parent = d := congrArg DentryKey.parent hkey
  obtain rfl : x.name = token := congrArg DentryKey.name hkey
  exact .kid hx hd h

/-- What `path_backtrack` puts together, if it returns. -/
theorem DentryChain.backtrack (h : DentryChain s t names) : ∀ {n : Nat} {p : List UInt8},
    pathBacktrack n t s = .ok (p, s1) → p = pathString names := by
  induction h generalizing s1 with
  | @root t x ht hroot =>
      intro n p hp
      cases n with
      | zero => cases hp
      | succ n =>
          rw [pathBacktrack, Exec.bind_of_ok (getDentry_run ht), if_pos hroot] at hp
          cases hp
          rfl
  | @kid t x names ht hkid _ ih =>
      intro n p hp
      cases n with
      | zero => cases hp
      | succ n =>
          rw [pathBacktrack, Exec.bind_of_ok (getDentry_run ht), if_neg hkid] at hp
          obtain ⟨p0, s3, hp0, hrest⟩ := Exec.bind_ok hp
          have hpath := ih hp0
          cases hrest
          rw [hpath, pathString_snoc]

theorem CacheOk.fetched (h : CacheOk fs s) (hf : Fetched s s') : CacheOk fs s' where
  nonnull := hf.toFrame.nonnull h.nonnull
  root := by
    obtain ⟨h0, x, v, hx, hpar, hv, hops⟩ := h.root
    rw [hf.root]
    exact ⟨h0, x, v, Kept.dentry hf.toFrame hx, hpar, Kept.vinode hf.toFrame hv, hops⟩
  hashed k e he := by
    obtain ⟨h0, x, v, hx, hkey, hv, hops, hpar⟩ := h.hashed k e (hf.names ▸ he)
    refine ⟨h0, x, v, Kept.dentry hf.toFrame hx, hkey, Kept.vinode hf.toFrame hv, hops, ?_⟩
    refine hpar.imp_right fun ⟨y, u, hy, hu, hhost⟩ => ⟨y, u, ?_, Kept.vinode hf.toFrame hu, hhost⟩
    exact Kept.dentry hf.toFrame hy
  vinodes k p hp := by
    rw [State.cachedAt, hf.vinodes] at hp
    obtain ⟨v, hv, hkind⟩ := h.vinodes k p hp
    exact ⟨v, Kept.vinode hf.toFrame hv, hkind⟩

/-! ## The lookup against the walk -/

/-- The lookup has come to `d`: what the walk `k` says of the state. -/
structure Met (fs : Ptr → FsType) (s0 : State) (k : Seek) (d : Ptr) (s : State) : Prop where
  ok : CacheOk fs s
  walked : Walked s0 s
  chain : DentryChain s d k.names
  kind : k.node.iOps = fs k.node.sb
  there : ∃ x v, s.dentry d = some x ∧ s.vinode x.dentryInode = some v ∧ v.plain = k.node
  absent : ∀ key, s0.cachedAt key = none → k.foundAt key = none → s.cachedAt key = none
  cached : ∀ key w, s0.cachedAt key = none → k.foundAt key = some w →
    ∃ p v, s.cachedAt key = some p ∧ s0.pages p = .free ∧ s.vinode p = some v ∧ v.plain = w
  refs : ∀ p v, s0.vinode p = some v → ∃ n, s.vinode p = some { v with ref := n } ∧ v.ref ≤ n ∧
    (n = v.ref ↔ ∀ w ∈ k.found, s0.cachedAt w.key ≠ some p)

/-- And it can go on from there. -/
structure Sought (fs : Ptr → FsType) (s0 : State) (k : Seek) (d : Ptr) (s : State) : Prop
    extends Met fs s0 k d s where
  here : ∀ t, k.here = some t → t = d ∧ s.dentryHash = s0.dentryHash
  leaf : k.here = none → ∀ token, s.dentryHash.find? dentryHashOps ⟨d, token⟩ = none
  spike : s.spike = k.spike
  nonzero : d ≠ 0

theorem Walked.cachedAt (h : Walked s0 s) {key : VinodeKey} {p : Ptr} (hp : s0.cachedAt key = some p) :
    s.cachedAt key = some p := by
  unfold State.cachedAt at hp ⊢
  split at hp
  · cases hp
  · rename_i hneg
    obtain ⟨e, he, rfl⟩ := Option.map_eq_some_iff.mp hp
    rw [if_neg hneg, h.cached key e he]
    rfl

theorem Fetched.cachedAt (h : Fetched s0 s) (key : VinodeKey) : s.cachedAt key = s0.cachedAt key := by
  rw [State.cachedAt, h.vinodes]
  rfl

/-- What is stored in free pages changes nothing of it. -/
theorem Met.fetched (h : Met fs s0 k d s) (hf : Fetched s s') : Met fs s0 k d s' where
  ok := h.ok.fetched hf
  walked := h.walked.trans hf.toWalked
  chain := h.chain.frame fun _ _ hy => Kept.dentry hf.toFrame hy
  kind := h.kind
  there := by
    obtain ⟨x, v, hx, hv, hplain⟩ := h.there
    exact ⟨x, v, Kept.dentry hf.toFrame hx, Kept.vinode hf.toFrame hv, hplain⟩
  absent key h0 hk := (hf.cachedAt key).trans (h.absent key h0 hk)
  cached key w h0 hk := by
    obtain ⟨p, v, hp, hfree, hv, hplain⟩ := h.cached key w h0 hk
    exact ⟨p, v, (hf.cachedAt key).trans hp, hfree, Kept.vinode hf.toFrame hv, hplain⟩
  refs p v hv := by
    obtain ⟨n, hn, hle, hiff⟩ := h.refs p v hv
    exact ⟨n, Kept.vinode hf.toFrame hn, hle, hiff⟩

/-- Nor does a question to the host. -/
theorem Sought.withSpike (h : Sought fs s0 k d s) (sp : Spike)
    (htree : sp.host.tree = s.spike.host.tree) :
    Sought fs s0 { k with spike := sp } d { s with spike := sp } :=
  { ok := ⟨h.ok.nonnull, h.ok.root, h.ok.hashed, h.ok.vinodes⟩
    walked := h.walked.trans (.withSpike htree), chain := h.chain.frame fun _ _ hy => hy
    kind := h.kind, there := h.there, absent := h.absent, cached := h.cached, refs := h.refs
    here := h.here, leaf := h.leaf, spike := rfl, nonzero := h.nonzero }

/-- What `bindFound` does with the vinode `f` at `found`: `this` goes to `target`, and that is the
vinode of the cache, if it has one for `f`. -/
structure Binds (s : State) (this found : Ptr) (x : Dentry) (f : Vinode) (target : Ptr) (u : Vinode)
    (s' : State) : Prop where
  chosen : s.cachedAt f.key = some target ∨ s.cachedAt f.key = none ∧ target = found
  before : s.vinode target = some u
  vinode : s'.vinode target = some { u with ref := u.ref + 1 }
  dentry : s'.dentry this = some { x with dentryInode := target }
  used : ∀ p, s.pages p ≠ .free → p ≠ this → p ≠ found → p ≠ target → s'.pages p = s.pages p
  spike : s'.spike = s.spike
  names : s'.dentryHash = s.dentryHash
  cached : ∀ key, s'.cachedAt key = (s.cachedAt key).or
    (if key = f.key ∧ 0 ≤ f.inum then some found else none)

theorem bindFound_binds (hf : s.vinode found = some f) (hx : s.dentry this = some x)
    (hcached : s.cachedAt f.key ≠ some found) :
    Post (bindFound this found) s (fun _ s' => ∃ target u, Binds s this found x f target u s')
      fun _ => True := by
  have hne : ∀ {q w}, s.vinode q = some w → q ≠ this := by
    rintro q w hq rfl
    rw [State.vinode, dentryKind.eq_inj hx] at hq
    cases hq
  have hset : ∀ {q w}, (s.setPage this (.dentry { x with dentryInode := q })).vinode q = some w →
      q ≠ this ∧ s.vinode q = some w := by
    intro q w hq
    have hq' : q ≠ this := by
      rintro rfl
      rw [State.vinode, State.setPage_self] at hq
      cases hq
    exact ⟨hq', (congrArg Page.asVinode (State.setPage_ne hq')).symm.trans hq⟩
  refine .step (getVinode_run hf) (.step (getDentry_run hx) (.bind hashGetVinode_same ?_))
  rintro q s1 ⟨hs, hq⟩
  obtain rfl : s = s1 := hs.symm
  cases q with
  | some same =>
      refine .bindModify (.bind (R := fun _ s1 => ∃ u, s.vinode same = some u ∧ same ≠ this ∧
        s1 = (s.setPage this (.dentry { x with dentryInode := same })).setPage same
          (.vinode { u with ref := u.ref + 1 })) ?_ ?_)
      · refine .bindRead trivial fun u hu => .modify ⟨u, (hset hu).2, (hset hu).1, rfl⟩
      rintro _ _ ⟨u, hu, hthis, rfl⟩
      have hfound : same ≠ found := by
        rintro rfl
        exact hcached hq.symm
      refine .bindGet (.ite (fun _ => .fault trivial) fun _ => .modify ⟨same, u, ?_⟩)
      refine ⟨.inl hq.symm, hu, ?_, ?_, fun p hp h1 h2 h3 => ?_, rfl, rfl, fun key => ?_⟩
      · exact congrArg Page.asVinode ((upd_ne hfound).trans (State.setPage_self ..))
      · change Page.asDentry (upd (upd (upd s.pages this _) same _) found .free this) = _
        rw [upd_ne (hne hf).symm, upd_ne hthis.symm, upd_self]
        rfl
      · exact (upd_ne h2).trans ((upd_ne h3).trans (upd_ne h1))
      · change s.cachedAt key = _
        by_cases hkey : key = f.key ∧ 0 ≤ f.inum
        · rw [hkey.1, show s.cachedAt f.key = some same from hq.symm]
          rfl
        · rw [if_neg hkey, Option.or_none]
  | none =>
      refine .bindModify (.bind (R := fun _ s1 =>
        s1 = (s.setPage this (.dentry { x with dentryInode := found })).setPage found
          (.vinode { f with ref := f.ref + 1 })) ?_ ?_)
      · refine .bindRead trivial fun u hu => .modify ?_
        obtain rfl := Option.some.inj (hf.symm.trans (hset hu).2)
        rfl
      rintro _ _ rfl
      refine .bind (hashPutVinode_kept (congrArg Page.asVinode (State.setPage_self ..))) ?_
      rintro _ s2 ⟨h2, hspike, hnames, hput⟩
      have hd : ((s.setPage this (.dentry { x with dentryInode := found })).setPage found
          (.vinode { f with ref := f.ref + 1 })).dentry this = some { x with dentryInode := found } :=
        congrArg Page.asDentry ((upd_ne (hne hf).symm).trans (State.setPage_self ..))
      refine .pure ⟨found, f, .inr ⟨hq.symm, rfl⟩, hf, ?_, Kept.dentry h2 hd, fun p hp h1 h3 _ => ?_,
        hspike, hnames, hput⟩
      · exact Kept.vinode h2 (congrArg Page.asVinode (State.setPage_self ..))
      · have hsame : ((s.setPage this (.dentry { x with dentryInode := found })).setPage found
            (.vinode { f with ref := f.ref + 1 })).pages p = s.pages p :=
          (upd_ne h3).trans (upd_ne h1)
        rw [← h2.used p (by rwa [hsame]), hsame]

/-- The vinodes the cache has are in use, and those the state before has not are none of its
pages. -/
theorem Met.target (h : Met fs s0 k d s) {key : VinodeKey} {p : Ptr} (hp : s.cachedAt key = some p) :
    s.pages p ≠ .free ∧ (s0.pages p ≠ .free → s0.cachedAt key = some p) := by
  obtain ⟨v, hv, -⟩ := h.ok.vinodes key p hp
  refine ⟨vinodeKind.used (vinodeKind.eq_inj hv), fun hused => ?_⟩
  cases h0 : s0.cachedAt key with
  | some q => exact (h.walked.cachedAt h0).symm.trans hp
  | none =>
      cases hk : k.foundAt key with
      | none => exact nomatch (h.absent key h0 hk).symm.trans hp
      | some w =>
          obtain ⟨q, -, hq, hfree, -⟩ := h.cached key w h0 hk
          obtain rfl := Option.some.inj (hq.symm.trans hp)
          exact absurd hfree hused

/-- How the lookup of a component ends, when the walk goes on to `next`. What is on the host has
been reached on the host. -/
def Stepped (fs : Ptr → FsType) (s0 : State) (k : Seek) (d : Ptr) (next : Option Seek)
    (q : Option Ptr) (s : State) : Prop :=
  (q = none ∧ next = none ∧ k.node.iOps = .rfs ∧ Met fs s0 k d s) ∨
    ∃ t k', q = some t ∧ next = some k' ∧ (k'.node.iOps = .hostfs → k.node.iOps = .hostfs) ∧
      Sought fs s0 k' t s

section

variable (hok : CacheOk fs s0)

include hok

/-- The vinode a found name is bound to is what the walk says. -/
theorem Met.bound_eq (h : Met fs s0 k d s) {target : Ptr} (hf : f.plain = v)
    (hchosen : s.cachedAt f.key = some target ∨ s.cachedAt f.key = none ∧ target = found)
    (hbefore : s1.vinode target = some u) (hfound : s1.vinode found = some f)
    (hkept : Fetched s s1) : u.plain = k.bound s0 v := by
  subst hf
  change u.plain = match (s0.cachedAt f.key).bind s0.vinode with
    | some v => v.plain
    | none => (k.foundAt f.key).getD f.plain
  cases h0 : s0.cachedAt f.key with
  | some q =>
      obtain ⟨w, hw, -⟩ := hok.vinodes _ q h0
      have hq := h.walked.cachedAt h0
      obtain rfl : q = target := by
        rcases hchosen with hc | ⟨hc, -⟩
        · exact Option.some.inj (hq.symm.trans hc)
        · exact nomatch hq.symm.trans hc
      obtain ⟨n, hn⟩ := h.walked.vinode hw
      obtain rfl := Option.some.inj ((Kept.vinode hkept.toFrame hn).symm.trans hbefore)
      rw [Option.bind_some, hw]
      rfl
  | none =>
      cases hk : k.foundAt f.key with
      | none =>
          obtain ⟨-, rfl⟩ := hchosen.resolve_left fun hc => nomatch (h.absent _ h0 hk).symm.trans hc
          obtain rfl := Option.some.inj (hfound.symm.trans hbefore)
          rfl
      | some w =>
          obtain ⟨q, v, hq, -, hv, rfl⟩ := h.cached _ w h0 hk
          obtain rfl : q = target := by
            rcases hchosen with hc | ⟨hc, -⟩
            · exact Option.some.inj (hq.symm.trans hc)
            · exact nomatch hq.symm.trans hc
          obtain rfl := Option.some.inj ((Kept.vinode hkept.toFrame hv).symm.trans hbefore)
          rfl

/-- The file system has found the name: its dentry and its vinode go to the cache. -/
theorem Sought.caches (h : Sought fs s0 k d s) (hf : Fetched s s1) (hthis : s.pages this = .free)
    (hmem : this ∈ s.freePages) (hfound : s.pages found = .free)
    (hx : s1.dentry this = some ⟨token, 0, 0, d⟩) (hv : s1.vinode found = some f)
    (hsb : f.sb = k.node.sb) (hops : f.iOps = k.node.iOps) :
    Post (cacheFound this found) s1 (fun _ s' => (k.bound s0 f.plain).iOps = k.node.iOps ∧
      Sought fs s0 ⟨none, k.names ++ [token], k.bound s0 f.plain, k.spike, k.found ++ [f.plain]⟩
        this s') fun _ => True := by
  have hnot : s1.cachedAt f.key ≠ some found := by
    rw [hf.cachedAt]
    exact fun hc => (h.toMet.target hc).1 hfound
  refine .bind ((bindFound_binds hv hx hnot).and (hf.toWalked.bindFound hthis hfound)
    |>.monoFault fun _ _ => trivial) ?_
  rintro _ s2 ⟨⟨target, u, hb⟩, hw2⟩
  refine .bind (hashPutDentry_kept hb.dentry) ?_
  rintro _ s3 ⟨h3, hspike, hvh, hnames⟩
  have hw3 : Walked s s3 := hw2.trans (Kept.walked h3 fun _ _ he => hvh ▸ he)
  have hchosen : s.cachedAt f.key = some target ∨ s.cachedAt f.key = none ∧ target = found := by
    rw [← hf.cachedAt]
    exact hb.chosen
  have hcached : ∀ key, s3.cachedAt key = (s.cachedAt key).or
      (if key = f.key ∧ 0 ≤ f.inum then some found else none) := by
    intro key
    rw [← hf.cachedAt, ← hb.cached, State.cachedAt, hvh]
    rfl
  have hfounds : ∀ key, Seek.foundAt ⟨none, k.names ++ [token], k.bound s0 f.plain, k.spike,
      k.found ++ [f.plain]⟩ key = (k.foundAt key).or
        (if key = f.key ∧ 0 ≤ f.inum then some f.plain else none) := by
    intro key
    simp only [Seek.foundAt, List.find?_append, List.find?_singleton, decide_eq_true_eq]
    rfl
  have hfree : s0.pages found = .free := by
    by_contra hne
    exact h.walked.used_ne hne hfound
  have hnonzero : this ≠ 0 := by
    rintro rfl
    exact h.ok.nonnull.1 hmem
  obtain ⟨y, w, hy, hw, hplain⟩ := h.there
  have hthis3 := Kept.dentry h3 hb.dentry
  have hbound : u.plain = k.bound s0 f.plain := h.toMet.bound_eq hok rfl hchosen hb.before hv hf
  -- the vinode it is bound to is of the file system that was asked
  have hukind : u.sb = k.node.sb ∧ u.iOps = fs u.sb := by
    rcases hchosen with hc | ⟨-, rfl⟩
    · obtain ⟨u', hu', husb, huops⟩ := h.ok.vinodes _ _ hc
      obtain rfl := Option.some.inj ((Kept.vinode hf.toFrame hu').symm.trans hb.before)
      exact ⟨husb.trans hsb, huops⟩
    · obtain rfl := Option.some.inj (hv.symm.trans hb.before)
      exact ⟨hsb, hops.trans (h.kind.trans (congrArg fs hsb.symm))⟩
  have huops : u.iOps = k.node.iOps := hukind.2.trans ((congrArg fs hukind.1).trans h.kind.symm)
  have hsame : w.plain.iOps = u.iOps := (congrArg Vinode.iOps hplain).trans huops.symm
  refine .pure ⟨hbound ▸ huops,
    { ok := ⟨hw3.toFrame.nonnull h.ok.nonnull, ?_, ?_, ?_⟩, walked := h.walked.trans hw3, chain := ?_,
      kind := hbound ▸ hukind.2, there := ⟨_, _, hthis3, Kept.vinode h3 hb.vinode, hbound⟩,
      absent := ?_, cached := ?_, refs := ?_, here := fun _ hnone => (by cases hnone), leaf := ?_,
      spike := hspike.trans (hb.spike.trans (hf.spike.trans h.spike)), nonzero := hnonzero }⟩
  · obtain ⟨h0, x, v, hx, hpar, hv, hops⟩ := h.ok.root
    obtain ⟨n, hn⟩ := hw3.vinode hv
    rw [hw3.root]
    exact ⟨h0, x, _, hw3.dentry hx, hpar, hn, hops⟩
  · intro key e he
    rcases hnames key e he with hold | ⟨rfl, rfl⟩
    · rw [hb.names, hf.names] at hold
      obtain ⟨h0, x, v, hx, hkey, hv, hops, hpar⟩ := h.ok.hashed key e hold
      obtain ⟨n, hn⟩ := hw3.vinode hv
      refine ⟨h0, x, _, hw3.dentry hx, hkey, hn, hops, hpar.imp_right ?_⟩
      rintro ⟨y, u, hy, hu, hhost⟩
      obtain ⟨m, hm⟩ := hw3.vinode hu
      exact ⟨y, _, hw3.dentry hy, hm, hhost⟩
    · obtain ⟨m, hm⟩ := hw3.vinode hw
      exact ⟨hnonzero, _, _, hthis3, rfl, Kept.vinode h3 hb.vinode, hukind.2,
        .inr ⟨y, _, hw3.dentry hy, hm, fun hhost => hsame.trans hhost⟩⟩
  · intro key p hp
    rw [hcached] at hp
    cases hold : s.cachedAt key with
    | some q =>
        rw [hold] at hp
        obtain rfl := Option.some.inj hp
        obtain ⟨v, hv, hkind⟩ := h.ok.vinodes key q hold
        obtain ⟨n, hn⟩ := hw3.vinode hv
        exact ⟨_, hn, hkind⟩
    | none =>
        rw [hold, Option.none_or] at hp
        split at hp
        · rename_i hcond
          obtain ⟨rfl, -⟩ := hcond
          obtain rfl := Option.some.inj hp
          obtain ⟨-, rfl⟩ := hchosen.resolve_left fun hc => by cases hold.symm.trans hc
          obtain rfl := Option.some.inj (hv.symm.trans hb.before)
          exact ⟨_, Kept.vinode h3 hb.vinode, rfl, hukind.2⟩
        · cases hp
  · exact (h.chain.frame fun _ _ hz => hw3.dentry hz).child h.nonzero hthis3 rfl
  · intro key h0 hk
    rw [hfounds, Option.or_eq_none_iff] at hk
    rw [hcached, h.absent key h0 hk.1]
    split at hk
    · cases hk.2
    · rename_i hcond
      rw [if_neg hcond]
      rfl
  · intro key w h0 hk
    rw [hfounds] at hk
    rw [hcached]
    cases hold : k.foundAt key with
    | some w' =>
        rw [hold] at hk
        obtain rfl := Option.some.inj hk
        obtain ⟨p, v, hp, hfree, hv, rfl⟩ := h.cached key w' h0 hold
        obtain ⟨n, hn⟩ := hw3.vinode hv
        exact ⟨p, _, by rw [hp]; rfl, hfree, hn, rfl⟩
    | none =>
        rw [hold, Option.none_or] at hk
        split at hk
        · rename_i hcond
          obtain ⟨rfl, hpos⟩ := hcond
          obtain rfl := Option.some.inj hk
          have hnone := h.absent _ h0 hold
          obtain ⟨-, rfl⟩ := hchosen.resolve_left fun hc => by cases hnone.symm.trans hc
          obtain rfl := Option.some.inj (hv.symm.trans hb.before)
          refine ⟨target, _, ?_, hfree, Kept.vinode h3 hb.vinode, rfl⟩
          rw [hnone, if_pos ⟨rfl, hpos⟩]
          rfl
        · cases hk
  · intro p v0 hv0
    obtain ⟨n, hn, hle, hiff⟩ := h.refs p v0 hv0
    have hp0 : s0.pages p ≠ .free := vinodeKind.used (vinodeKind.eq_inj hv0)
    have hps : s.pages p ≠ .free := h.walked.used_ne hp0
    have hn1 : s1.vinode p = some { v0 with ref := n } := Kept.vinode hf.toFrame hn
    rcases eq_or_ne p target with rfl | hpt
    · obtain rfl := Option.some.inj (hn1.symm.trans hb.before)
      refine ⟨n + 1, Kept.vinode h3 hb.vinode, by omega, fun heq => by omega, fun hall => ?_⟩
      rcases hchosen with hc | ⟨-, rfl⟩
      · exact absurd ((h.toMet.target hc).2 hp0)
          (hall f.plain (List.mem_append_right _ (List.mem_singleton_self _)))
      · exact absurd hfound hps
    · refine ⟨n, Kept.vinode h3 ?_, hle, hiff.trans ?_⟩
      · rw [State.vinode, hb.used p (vinodeKind.used (vinodeKind.eq_inj hn1))
          (fun heq => hps (heq ▸ hthis)) (fun heq => hps (heq ▸ hfound)) hpt]
        exact hn1
      · have hlast : s0.cachedAt f.plain.key ≠ some p := by
          intro hc
          have hs := h.walked.cachedAt hc
          rcases hchosen with ht | ⟨hnone, -⟩
          · exact hpt (Option.some.inj (hs.symm.trans ht))
          · cases hs.symm.trans hnone
        simp only [List.mem_append, List.mem_singleton, or_imp, forall_and, forall_eq]
        exact (and_iff_left hlast).symm
  · intro _ token'
    by_contra hne
    obtain ⟨e, he⟩ := Option.ne_none_iff_exists'.mp hne
    rcases hnames _ e he with hold | ⟨hkey, -⟩
    · rw [hb.names, hf.names] at hold
      obtain ⟨_, _, _, _, _, _, _, hpar⟩ := h.ok.hashed _ e hold
      rcases hpar with hzero | ⟨z, _, hz, -⟩
      · exact hnonzero hzero
      · exact dentryKind.used (dentryKind.eq_inj hz) hthis
    · obtain rfl : this = d := congrArg DentryKey.parent hkey
      exact dentryKind.used (dentryKind.eq_inj hy) hthis

/-- A name that is not in the table. -/
theorem Sought.fetch (h : Sought fs s0 k d s)
    (hmiss : s.dentryHash.find? dentryHashOps ⟨d, token⟩ = none) :
    Post (lookupToken hostfsIOps d token) s (Stepped fs s0 k d (k.fetch s0 token)) fun _ => True := by
  refine .bind (R := fun q s' => s' = s ∧ q = none)
    (.bindGet (.pure ⟨rfl, congrArg (Option.map (·.value)) hmiss⟩)) ?_
  rintro _ _ ⟨rfl, rfl⟩
  refine .bind (Fetched.refl _).allocVfsDentry ?_
  rintro this s1 ⟨hthis, hmem, hdentry, h1⟩
  obtain ⟨x, v, hx, hv, hplain⟩ := h.there
  have hv1 := Kept.vinode h1.toFrame hv
  refine .step (getDentry_run (Kept.dentry h1.toFrame hx)) (.bind (opsOf_reads trivial) ?_)
  rintro _ s2 ⟨hs, w, hw, rfl⟩
  obtain rfl : s1 = s2 := hs.symm
  obtain rfl := Option.some.inj (hv1.symm.trans hw)
  have hdisk : s1.disk = s0.disk := h1.disk.trans h.walked.disk
  have hsb : v.plain.sb = k.node.sb := congrArg Vinode.sb hplain
  have hops : v.plain.iOps = k.node.iOps := congrArg Vinode.iOps hplain
  cases hfs : v.iOps with
  | rfs =>
      have hanswer : k.finds s0 token = (entryFor s0.disk v token).map fun n =>
          (loadedVinode v.sb n (dinodeAt s0.disk n), k.spike) := by
        rw [Seek.finds, ← hplain, show v.plain.iOps = .rfs from hfs]
        rfl
      rw [← hdisk] at hanswer
      have hrfs : k.node.iOps = .rfs := hops.symm.trans hfs
      refine .bind ((Fetched.refl s1).rfsLookup hv1 hdentry) ?_
      rintro q s2 ⟨h2, ⟨hnone, rfl⟩ | ⟨n, found, hn, rfl, hfound, hload⟩⟩
      · refine .bind ((h1.trans h2).freePage hthis) ?_
        rintro _ s3 ⟨-, h3⟩
        refine .pure (.inl ⟨rfl, ?_, hrfs, h.toMet.fetched h3⟩)
        rw [Seek.fetch, hanswer, hnone]
        rfl
      · refine .bind (h.caches hok (h1.trans h2) hthis hmem (h1.fresh hfound)
          (Kept.dentry h2.toFrame hdentry) hload hsb hrfs.symm) ?_
        rintro _ s3 ⟨hsame, h3⟩
        refine .pure (.inr ⟨this, _, rfl, ?_, fun hhost => hsame.symm.trans hhost, h3⟩)
        rw [Seek.fetch, hanswer, hn, Option.map_some, Option.map_some, loadedVinode_plain]
  | hostfs =>
      refine .bind (hostfsLookup_fetched hv1) ?_
      rintro _ s2 ⟨found, path, u, rfl, hfound, hpath, h2, hu, hfinds⟩
      obtain rfl : k.pathTo token = path := by
        obtain ⟨p, s4, hp, hrest⟩ := Exec.bind_ok hpath
        have hnew : DentryChain s1 this (k.names ++ [token]) :=
          (h.chain.frame fun _ _ hy => Kept.dentry h1.toFrame hy).child h.nonzero hdentry rfl
        rw [hnew.backtrack hp] at hrest
        split at hrest
        · cases hrest
          rfl
        · cases hrest
      have hspike : s1.spike = k.spike := h1.spike.trans h.spike
      rw [hspike] at h2 hfinds
      have hsp := h.withSpike (k.spike.spikeFileOpen (k.pathTo token) false).2
        (by rw [h.spike]; exact spikeFileOpen_tree ..)
      obtain ⟨husb, huops⟩ := hostFinds_kind hfinds
      refine .bind (hsp.caches hok ((h1.withSpike _).trans h2) hthis hmem (h1.fresh hfound)
        (Kept.dentry h2.toFrame hdentry) hu (husb.trans hsb) (huops.trans (hfs.symm.trans hops))) ?_
      rintro _ s3 ⟨hsame, h3⟩
      refine .pure (.inr ⟨this, _, rfl, ?_, fun hhost => hsame.symm.trans hhost, h3⟩)
      rw [Seek.fetch, Seek.finds, ← hplain, show v.plain.iOps = .hostfs from hfs]
      dsimp only
      rw [show v.plain.sb = v.sb from rfl, hfinds]
      rfl

/-- One component. -/
theorem Sought.step (h : Sought fs s0 k d s) :
    Post (lookupToken hostfsIOps d token) s (Stepped fs s0 k d (k.step s0 token)) fun _ => True := by
  cases hhere : k.here with
  | none =>
      rw [show k.step s0 token = k.fetch s0 token by rw [Seek.step, hhere]; rfl]
      exact h.fetch hok (h.leaf hhere token)
  | some t =>
      obtain ⟨rfl, hnames⟩ := h.here t hhere
      cases hfind : s0.dentryHash.find? dentryHashOps ⟨t, token⟩ with
      | none =>
          rw [Seek.step, hhere, Option.bind_some, hfind]
          exact h.fetch hok (hnames ▸ hfind)
      | some e =>
          obtain ⟨h0, x, v, hx, hkey, hv, hops, hpar⟩ := hok.hashed _ e hfind
          have hstep : k.step s0 token = some
              { k with here := some e.value, names := k.names ++ [token], node := v.plain } := by
            rw [Seek.step, hhere, Option.bind_some, hfind]
            simp [State.inodeAt, hx, hv]
          obtain ⟨n, hn⟩ := h.walked.vinode hv
          have hxs := h.walked.dentry hx
          have hback : v.iOps = .hostfs → k.node.iOps = .hostfs := by
            intro hhost
            obtain ⟨y, u, hy, hu, himp⟩ := hpar.resolve_left h.nonzero
            obtain ⟨y', u', hy', hu', hplain⟩ := h.there
            obtain rfl := Option.some.inj ((h.walked.dentry hy).symm.trans hy')
            obtain ⟨m, hm⟩ := h.walked.vinode hu
            obtain rfl := Option.some.inj (hm.symm.trans hu')
            exact (congrArg Vinode.iOps hplain).symm.trans (himp hhost)
          refine .step (?_ : _ = Except.ok (some e.value, s))
            (.pure (.inr ⟨e.value, _, rfl, hstep, hback, ?_⟩))
          · exact congrArg (fun q => Except.ok (Option.map (·.value) q, s)) (hnames ▸ hfind)
          · exact { ok := h.ok, walked := h.walked, chain := h.chain.child h.nonzero hxs hkey
                    kind := hops, there := ⟨x, _, hxs, hn, rfl⟩, absent := h.absent
                    cached := h.cached, refs := h.refs, leaf := nofun
                    here := fun t ht => ⟨(Option.some.inj ht).symm, hnames⟩, spike := h.spike
                    nonzero := h0 }

/-- How a lookup ends, by the walk. -/
def Looked (fs : Ptr → FsType) (s0 : State) (k : Seek) (rest : List Name) (r : LookupResult)
    (s : State) : Prop :=
  match rest with
  | [] => ∃ t, r.dentry = some t ∧ Met fs s0 k t s
  | token :: _ => r.dentry = none ∧ r.missName = token ∧ k.node.iOps = .rfs ∧ Met fs s0 k r.parent s

/-- The induction is on the components left. -/
theorem lookupTokens_looked : ∀ {tokens : List Name} {this parent : Ptr} {s : State} {k : Seek},
    Sought fs s0 k this s → Post (lookupTokens hostfsIOps tokens this parent) s
      (fun r s' => Looked fs s0 (k.run s0 tokens).1 (k.run s0 tokens).2 r s') fun _ => True
  | [], this, _, _, _, h => .pure ⟨this, rfl, h.toMet⟩
  | token :: rest, this, parent, s, k, h => by
      refine .bind (h.step hok) ?_
      rintro q s1 (⟨rfl, hstep, hrfs, hmet⟩ | ⟨t, k', rfl, hstep, -, hnext⟩)
      · rw [Seek.run, hstep]
        exact .pure ⟨rfl, rfl, hrfs, hmet⟩
      · rw [Seek.run, hstep]
        exact lookupTokens_looked hnext

/-- The root, before the first component. -/
theorem CacheOk.sought : ∃ v, s0.inodeAt s0.vfsRootDentry = some v ∧
    Sought fs s0 (Seek.start s0 v) s0.vfsRootDentry s0 := by
  obtain ⟨h0, x, v, hx, hpar, hv, hops⟩ := hok.root
  refine ⟨v, by simp [State.inodeAt, hx, hv], ?_⟩
  exact { ok := hok, walked := .refl s0, chain := .root hx hpar, kind := hops
          there := ⟨x, v, hx, hv, rfl⟩, absent := fun _ h _ => h, cached := nofun
          refs := fun p u hu => ⟨u.ref, hu, Int.le_refl _, fun _ => nofun, fun _ => rfl⟩
          here := fun t ht => ⟨(Option.some.inj ht).symm, rfl⟩, leaf := nofun, spike := rfl
          nonzero := h0 }

theorem lookupFinalDentry_looked {path : Path} :
    Post (lookupFinalDentry hostfsIOps path) s0 (fun r s' => ∃ k rest,
      s0.seek path = some (k, rest) ∧ Looked fs s0 k rest r s') fun _ => True := by
  obtain ⟨v, hroot, hstart⟩ := hok.sought
  refine .bind copyPath_same ?_
  rintro _ s1 hs
  obtain rfl : s0 = s1 := hs.symm
  refine .bindGet ((lookupTokens_looked hok hstart).mono fun r s' h => ⟨_, _, ?_, h⟩)
  rw [State.seek, hroot]
  rfl

end

/-! ## Every state of a run is one a lookup can rely on -/

/-- The file system of a super block, when RFS is mounted once. -/
def Mount.fsOf (M : Mount) (sb : Ptr) : FsType := if sb = M.sb then .rfs else .hostfs

theorem TreeInv.ops {M : Mount} {o : Objs} {ents : Int → List (Int × Name)} (h : TreeInv M o ents)
    {w : Ptr} {v : Vinode} (hw : o.vinode w = some v) : v.iOps = M.fsOf v.sb := by
  cases hops : v.iOps with
  | rfs => exact (if_pos (h.rfsV w v hw hops).1).symm
  | hostfs => exact (if_neg (h.hostV w v hw hops).2.2).symm

theorem Sound.cacheOk {M : Mount} (h : Sound M s) : CacheOk M.fsOf s := by
  obtain ⟨b, hmem⟩ := h.holds
  have hc := h.inv.cache
  have ht := h.inv.tree
  obtain ⟨rx, rv, hrx, hrv, hrops, hrpar⟩ := ht.rootD
  refine ⟨⟨fun h0 => ?_, hmem.mem.start⟩, ⟨?_, ?_⟩, fun key e he => ?_, fun key p hp => ?_⟩
  · obtain ⟨-, hle, -⟩ := hmem.mem.listed 0 h0
    exact absurd hle (Nat.not_le.mpr hmem.mem.start)
  · intro h0
    rw [← show s.vfsRootDentry = M.root from ht.root, h0, ht.zero.1] at hrx
    cases hrx
  · exact ⟨rx, rv, (show s.vfsRootDentry = M.root from ht.root) ▸ hrx, hrpar, hrv, ht.ops hrv⟩
  · obtain ⟨hmem, hkey⟩ := findD_mem (o := s.objs) he
    obtain ⟨-, x, hx, hxkey⟩ := hc.dentries e hmem
    obtain ⟨v, hv⟩ := hc.inode e.value x hx
    have hk : x.key = key := hxkey.trans hkey
    have hparent : x.parent = key.parent := congrArg DentryKey.parent hk
    have hunder : x.parent = M.root → ∃ y u, s.dentry x.parent = some y ∧
        s.vinode y.dentryInode = some u ∧ (v.iOps = .hostfs → u.iOps = .hostfs) :=
      fun hpar => ⟨rx, rv, hpar ▸ hrx, hrv, fun _ => hrops⟩
    refine ⟨?_, x, v, hx, hk, hv, ht.ops hv, hparent ▸ ?_⟩
    · rintro h0
      rw [h0, ht.zero.1] at hx
      cases hx
    cases hops : v.iOps with
    | hostfs => exact (ht.hostKid _ x v hx hv hops).imp_right (hops ▸ hunder)
    | rfs =>
        by_cases hroot : e.value = M.rfsRoot
        · obtain ⟨y, -, hy, -, -, -, hykey⟩ := ht.rfsD
          obtain rfl := Option.some.inj ((hroot ▸ hx).symm.trans hy)
          exact .inr (hops ▸ hunder (congrArg DentryKey.parent hykey))
        · obtain ⟨y, u, hy, hu, -⟩ := ht.kid _ x v hx hv hops hroot
          exact .inr ⟨y, u, hy, hu, nofun⟩
  · unfold State.cachedAt at hp
    split at hp
    · cases hp
    · obtain ⟨e, he, rfl⟩ := Option.map_eq_some_iff.mp hp
      obtain ⟨he, hkey⟩ := findV_mem (o := s.objs) he
      obtain ⟨-, v, hv, hvkey, -⟩ := hc.vinodes e he
      exact ⟨v, hv, congrArg VinodeKey.sb (hvkey.trans hkey), ht.ops hv⟩

end Pke
