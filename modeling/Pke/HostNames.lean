import Pke.HostSpec
import Pke.Replay

/-!
# Names of the host

The dentries outside the RAM disk, and what the host has at their paths.
`HostNames` is the invariant of runs whose calls ask for names the host
has: every dentry has a path from the root, the host has something
there, and what the cache takes for a file is one.

`hostfs_lookup` does not say that a name is missing, so neither does
`lookup_final_dentry`: it agrees with the host exactly on the paths the
host has (`lookup_agrees_iff`).
-/

namespace Pke

open Exec (Post)

/-! ## Paths of the host -/

/-- The path the host is asked for. -/
def Path.hostPath (p : Path) : List UInt8 := hRootDir ++ pathString p.tokens

theorem slash_not_mem_strtokAll : ∀ {n : Nat} {cur : Option (List UInt8)} {token : Name},
    token ∈ strtokAll n cur → slash ∉ token
  | 0, _, _, h => by cases h
  | n + 1, cur, token, h => by
      unfold strtokAll at h
      split at h
      · cases h
      · rename_i first rest heq
        rcases List.mem_cons.mp h with rfl | h
        · cases cur with
          | none => cases heq
          | some l => exact (strtok_split heq).2.1
        · exact slash_not_mem_strtokAll h

/-- A tree that has a path has the directories on it. -/
theorem HostTree.parents (t : HostTree) : ∀ {tokens : List Name} {path : List UInt8},
    (∀ token ∈ tokens, slash ∉ token) → t.node (path ++ pathString tokens) ≠ none →
    t.node path ≠ none
  | [], path, _, h => by simpa [pathString] using h
  | token :: rest, path, hclean, h => by
      have hrest : t.node (path ++ slash :: token) ≠ none := by
        have hall : ∀ u ∈ rest, slash ∉ u := fun u hu => hclean u (List.mem_cons_of_mem _ hu)
        exact t.parents hall (by simpa [pathString] using h)
      rw [t.closed path token (hclean token (List.mem_cons_self ..)) hrest]
      exact Option.some_ne_none _

/-- What lies below a path of the tree makes it a directory. -/
theorem HostTree.dir_of_below (t : HostTree) (path : List UInt8) {token : Name} {rest : List Name}
    (hclean : ∀ u ∈ token :: rest, slash ∉ u)
    (h : t.node (path ++ pathString (token :: rest)) ≠ none) : t.node path = some .dir := by
  refine t.closed path token (hclean token (List.mem_cons_self ..)) ?_
  exact t.parents (fun u hu => hclean u (List.mem_cons_of_mem _ hu)) (by simpa [pathString] using h)

/-! ## The invariant -/

/-- The dentries and vinodes of the host, next to the mount point of the RAM disk. -/
structure HostCache (M : Mount) (o : Objs) : Prop where
  cache : CacheInv o
  zero : o.dentry 0 = none
  root : o.root = M.root
  rootD : ∃ x v, o.dentry M.root = some x ∧ o.vinode x.dentryInode = some v ∧ v.type = dirI ∧
    x.parent = 0
  rfsD : ∃ x v, o.dentry M.rfsRoot = some x ∧ o.vinode x.dentryInode = some v ∧ v.type = dirI ∧
    x.key = ⟨M.root, ramdiskName⟩
  host : ∀ t x v, o.dentry t = some x → o.vinode x.dentryInode = some v →
    (v.iOps = .hostfs ↔ t ≠ M.rfsRoot)
  sbs : ∀ w v, o.vinode w = some v → (v.iOps = .hostfs ↔ v.sb ≠ M.sb)
  kinds : ∀ w v, o.vinode w = some v → v.iOps = .hostfs → (0 ≤ v.inum → v.type = fileI) ∧
    (v.type = fileI → ∃ f, v.iFsInfo = handlePtr f)
  files : ∀ p f, o.file p = some f → f.fDentry ≠ M.rfsRoot

/-- What the host has at a path, and the type of the vinode that stands for it. -/
def Stands (n : Option HostNode) (type : Int) : Prop :=
  n ≠ none ∧ (type = fileI → ∃ id, n = some (.file id))

structure HostNames (M : Mount) (o : Objs) : Prop extends HostCache M o where
  clean : ∀ t x, o.dentry t = some x → x.parent ≠ 0 → slash ∉ x.name
  named : ∀ t x v, o.dentry t = some x → o.vinode x.dentryInode = some v →
    ∃ path, PathAt o t path ∧
      (t ≠ M.rfsRoot → Stands (o.spike.host.tree.node (hRootDir ++ path)) v.type)

/-- The same dentries, up to their counts. -/
def SameNames (o o' : Objs) : Prop :=
  ∀ t, (o'.dentry t).map (fun x => (x.key, x.dentryInode)) =
    (o.dentry t).map fun x => (x.key, x.dentryInode)

namespace SameNames

variable {o o' : Objs} {t : Ptr}

theorem old (h : SameNames o o') {x' : Dentry} (ht : o'.dentry t = some x') :
    ∃ x, o.dentry t = some x ∧ x'.key = x.key ∧ x'.dentryInode = x.dentryInode := by
  have heq := h t
  rw [ht, Option.map_some] at heq
  obtain ⟨x, hx, hpair⟩ := Option.map_eq_some_iff.mp heq.symm
  obtain ⟨hkey, hino⟩ := Prod.mk.injEq .. |>.mp hpair
  exact ⟨x, hx, hkey.symm, hino.symm⟩

theorem keep (h : SameNames o o') {x : Dentry} (ht : o.dentry t = some x) :
    ∃ x', o'.dentry t = some x' ∧ x'.key = x.key ∧ x'.dentryInode = x.dentryInode := by
  have heq := h t
  rw [ht, Option.map_some] at heq
  obtain ⟨x', hx', hpair⟩ := Option.map_eq_some_iff.mp heq
  obtain ⟨hkey, hino⟩ := Prod.mk.injEq .. |>.mp hpair
  exact ⟨x', hx', hkey, hino⟩

theorem setD {x : Dentry} (ht : o.dentry t = some x) (r : Int) (hd : o'.dentry =
    upd o.dentry t (some { x with dRef := r })) : SameNames o o' := by
  intro q
  rw [hd]
  rcases eq_or_ne q t with rfl | hne
  · rw [upd_self, ht]
    rfl
  · rw [upd_ne hne]

end SameNames

variable {sb q file : Ptr} {v u : Vinode} {sp : Spike} {p : Path} {f : File} {M : Mount} {s : State}

namespace HostCache

variable {M : Mount} {o o' : Objs}

theorem root_ne (h : HostCache M o) : M.root ≠ M.rfsRoot := by
  intro heq
  obtain ⟨x, v, hx, -, -, hpar⟩ := h.rootD
  obtain ⟨y, u, hy, -, -, hkey⟩ := h.rfsD
  rw [heq, hy] at hx
  obtain rfl := Option.some.inj hx
  have hpar' : y.parent = M.root := congrArg DentryKey.parent hkey
  have h0 : M.root = 0 := hpar'.symm.trans hpar
  obtain ⟨x, -, hx, -⟩ := h.rootD
  rw [h0, h.zero] at hx
  cases hx

/-- A cached name below the host is not the mount point. -/
theorem kid_ne (h : HostCache M o) {t this : Ptr} {y : Dentry} {token : Name}
    (ht : o.dentry t = some y) (hkey : y.key = ⟨this, token⟩)
    (hout : this = M.root → token ≠ ramdiskName) : t ≠ M.rfsRoot := by
  rintro rfl
  obtain ⟨x, v, hx, -, -, hxkey⟩ := h.rfsD
  obtain rfl := Option.some.inj (ht.symm.trans hx)
  have heq := hkey.symm.trans hxkey
  exact hout (congrArg DentryKey.parent heq) (congrArg DentryKey.name heq)

/-- Dentries with other counts, and other files. -/
theorem congr (h : HostCache M o) (hcache : CacheInv o') (hroot : o'.root = o.root)
    (hvinode : o'.vinode = o.vinode) (hsame : SameNames o o')
    (hfile : ∀ p f, o'.file p = some f → f.fDentry ≠ M.rfsRoot) : HostCache M o' where
  cache := hcache
  zero := by
    cases h0 : o'.dentry 0 with
    | none => rfl
    | some x' =>
        obtain ⟨x, hx, -⟩ := hsame.old h0
        rw [h.zero] at hx
        cases hx
  root := hroot.trans h.root
  rootD := by
    obtain ⟨x, v, hx, hv, hdir, hpar⟩ := h.rootD
    obtain ⟨x', hx', hkey, hino⟩ := hsame.keep hx
    exact ⟨x', v, hx', by rw [hvinode, hino, hv], hdir,
      (congrArg DentryKey.parent hkey).trans hpar⟩
  rfsD := by
    obtain ⟨x, v, hx, hv, hdir, hk⟩ := h.rfsD
    obtain ⟨x', hx', hkey, hino⟩ := hsame.keep hx
    exact ⟨x', v, hx', by rw [hvinode, hino, hv], hdir, hkey.trans hk⟩
  host t x' v ht hv := by
    obtain ⟨x, hx, -, hino⟩ := hsame.old ht
    exact h.host t x v hx (by rw [← hino, ← hvinode, hv])
  sbs w v hw := h.sbs w v (hvinode ▸ hw)
  kinds w v hw := h.kinds w v (hvinode ▸ hw)
  files := hfile

/-- A new name below a dentry of the host. -/
theorem newName (h : HostCache M o) {this t : Ptr} {token : Name} {path : List UInt8}
    (hsb : sb ≠ M.sb) (hn : NewName o this token sb path t q v u sp o') :
    HostCache M o' ∧ t ≠ M.rfsRoot := by
  obtain ⟨hfile, hroot, -⟩ := hn.rest
  obtain ⟨hhost, hvsb, -⟩ := hn.found.host
  have hmnt : t ≠ M.rfsRoot := by
    rintro rfl
    obtain ⟨y, -, hy, -⟩ := h.rfsD
    rw [hn.fresh.1] at hy
    cases hy
  -- the vinode of the name is one of the host
  have hu : u.iOps = .hostfs ∧ u.sb ≠ M.sb ∧ (0 ≤ u.inum → u.type = fileI) ∧
      (u.type = fileI → ∃ f, u.iFsInfo = handlePtr f) := by
    rcases hn.was with ⟨-, rfl⟩ | ⟨hq, hkey, -⟩
    · exact ⟨hhost, hvsb ▸ hsb, hn.found.kind⟩
    · have hsame : u.sb = v.sb := congrArg VinodeKey.sb hkey
      have husb : u.sb ≠ M.sb := by
        rw [hsame, hvsb]
        exact hsb
      have huhost := (h.sbs _ _ hq).mpr husb
      exact ⟨huhost, husb, h.kinds _ _ hq huhost⟩
  obtain ⟨huhost, husb, hukind⟩ := hu
  have hkeepD : ∀ {r y}, o.dentry r = some y → o'.dentry r = some y := by
    intro r y hr
    have hrt : r ≠ t := ne_of_none hn.fresh.1 hr
    rw [hn.dentry, upd_ne hrt, hr]
  have hkeepV : ∀ {w z}, o.vinode w = some z → ∃ z', o'.vinode w = some z' ∧
      z'.type = z.type := by
    intro w z hw
    rw [hn.vinode]
    rcases eq_or_ne w q with rfl | hwq
    · rcases hn.was with ⟨hnone, -⟩ | ⟨hq, -⟩
      · rw [hnone] at hw
        cases hw
      · obtain rfl := Option.some.inj (hq.symm.trans hw)
        exact ⟨_, upd_self _ _ _, rfl⟩
    · exact ⟨z, (upd_ne hwq).trans hw, rfl⟩
  refine ⟨⟨hn.cache, ?_, hroot.trans h.root, ?_, ?_, ?_, ?_, ?_, ?_⟩, hmnt⟩
  · rw [hn.dentry, upd_ne hn.fresh.2.symm, h.zero]
  · obtain ⟨y, z, hy, hz, hdir, hpar⟩ := h.rootD
    obtain ⟨z', hz', htype⟩ := hkeepV hz
    exact ⟨y, z', hkeepD hy, hz', htype.trans hdir, hpar⟩
  · obtain ⟨y, z, hy, hz, hdir, hkey⟩ := h.rfsD
    obtain ⟨z', hz', htype⟩ := hkeepV hz
    exact ⟨y, z', hkeepD hy, hz', htype.trans hdir, hkey⟩
  · intro r y z hr hz
    rw [hn.dentry] at hr
    rw [hn.vinode] at hz
    rcases upd_some hr with ⟨rfl, rfl⟩ | ⟨-, hr'⟩
    · rw [upd_self] at hz
      obtain rfl := Option.some.inj hz
      exact ⟨fun _ => hmnt, fun _ => huhost⟩
    · rcases upd_some hz with ⟨hwq, rfl⟩ | ⟨-, hz'⟩
      · rcases hn.was with ⟨hnone, -⟩ | ⟨hq, -⟩
        · obtain ⟨z, hz⟩ := h.cache.inode r y hr'
          rw [hwq, hnone] at hz
          cases hz
        · exact h.host r y u hr' (hwq ▸ hq)
      · exact h.host r y z hr' hz'
  · intro w z hw
    rw [hn.vinode] at hw
    rcases upd_some hw with ⟨-, rfl⟩ | ⟨-, hw'⟩
    · exact ⟨fun _ => husb, fun _ => huhost⟩
    · exact h.sbs w z hw'
  · intro w z hw hz
    rw [hn.vinode] at hw
    rcases upd_some hw with ⟨-, rfl⟩ | ⟨-, hw'⟩
    · exact hukind
    · exact h.kinds w z hw' hz
  · intro p f hp
    exact h.files p f (hfile ▸ hp)

end HostCache

/-! ## Whole paths -/

/-- The lookup of `tokens` below the dentry `this` at `path`, one name after the
other. -/
inductive NamesFound (M : Mount) : Objs → Ptr → List UInt8 → List Name → Ptr → Objs → Prop
  | nil {o : Objs} {this : Ptr} {path : List UInt8} : NamesFound M o this path [] this o
  | cached {o o' : Objs} {this t : Ptr} {path : List UInt8} {token : Name} {rest : List Name}
      (e : HashNode DentryKey Ptr) (he : o.findD ⟨this, token⟩ = some e)
      (hrest : NamesFound M o e.value (path ++ slash :: token) rest t o') :
      NamesFound M o this path (token :: rest) t o'
  | new {o o1 o' : Objs} {this t : Ptr} {path : List UInt8} {token : Name} {rest : List Name}
      (sb t1 q : Ptr) (v u : Vinode) (sp : Spike) (hsb : sb ≠ M.sb)
      (hn : NewName o this token sb (hRootDir ++ path ++ slash :: token) t1 q v u sp o1)
      (hrest : NamesFound M o1 t1 (path ++ slash :: token) rest t o') :
      NamesFound M o this path (token :: rest) t o'

section

variable {M : Mount} {s : State} {o o' : Objs} {d : Nat → Block} {b : Block} {E : Fault → Prop}
  {this t : Ptr} {path : List UInt8} {token : Name} {x : Dentry}

theorem NewName.kid_path {full : List UInt8} (hn : NewName o this token sb full t q v u sp o')
    (hpath : PathAt o this path) (hthis : this ≠ 0) : PathAt o' t (path ++ slash :: token) := by
  have hkeep : ∀ r y, o.dentry r = some y → ∃ y', o'.dentry r = some y' ∧ y'.key = y.key := by
    intro r y hr
    have hrt : r ≠ t := ne_of_none hn.fresh.1 hr
    exact ⟨y, by rw [hn.dentry, upd_ne hrt, hr], rfl⟩
  exact .kid (x := ⟨token, 0, q, this⟩) (by rw [hn.dentry, upd_self]) hthis (hpath.mono hkeep)

theorem CacheInv.kid_path (hc : CacheInv o) {e : HashNode DentryKey Ptr}
    (he : o.findD ⟨this, token⟩ = some e) (hpath : PathAt o this path) (hthis : this ≠ 0) :
    PathAt o e.value (path ++ slash :: token) := by
  obtain ⟨y, hy, hkey⟩ := hc.findD_some he
  obtain rfl : y.parent = this := congrArg DentryKey.parent hkey
  obtain rfl : y.name = token := congrArg DentryKey.name hkey
  exact .kid hy hthis hpath

/-- A new name the host has. -/
theorem HostNames.newName (h : HostNames M o) (hsb : sb ≠ M.sb)
    (hn : NewName o this token sb (hRootDir ++ path ++ slash :: token) t q v u sp o')
    (hpath : PathAt o this path) (hthis : this ≠ 0) (hclean : slash ∉ token)
    (hhas : o.spike.host.tree.node (hRootDir ++ path ++ slash :: token) ≠ none) :
    HostNames M o' := by
  obtain ⟨hcache, -⟩ := h.toHostCache.newName hsb hn
  have htree : o'.spike.host.tree = o.spike.host.tree := by
    rw [hn.rest.2.2, hn.found.tree]
  refine ⟨hcache, fun r y hr hpar => ?_, fun r y z hr hz => ?_⟩
  · rw [hn.dentry] at hr
    rcases upd_some hr with ⟨-, rfl⟩ | ⟨-, hr'⟩
    · exact hclean
    · exact h.clean r y hr' hpar
  · rw [hn.dentry] at hr
    rw [hn.vinode] at hz
    rw [htree]
    rcases upd_some hr with ⟨rfl, rfl⟩ | ⟨hrt, hr'⟩
    · rw [upd_self] at hz
      obtain rfl := Option.some.inj hz
      refine ⟨_, hn.kid_path hpath hthis, fun _ => ?_⟩
      rw [← List.append_assoc]
      refine ⟨hhas, fun hfile => hn.found.file ?_⟩
      rcases hn.was with ⟨-, rfl⟩ | ⟨-, hkey, hnum⟩
      · exact .inl hfile
      · have hsame : u.inum = v.inum := congrArg VinodeKey.inum hkey
        exact .inr (hsame ▸ hnum)
    · -- the other dentries have their vinodes and paths still
      have hold : ∃ z', o.vinode y.dentryInode = some z' ∧ z'.type = z.type := by
        rcases upd_some hz with ⟨hyq, rfl⟩ | ⟨-, hz'⟩
        · rcases hn.was with ⟨hnone, -⟩ | ⟨hq, -⟩
          · obtain ⟨z, hz⟩ := h.cache.inode r y hr'
            rw [hyq, hnone] at hz
            cases hz
          · exact ⟨u, hyq ▸ hq, rfl⟩
        · exact ⟨z, hz', rfl⟩
      obtain ⟨z', hz', htype⟩ := hold
      obtain ⟨p, hp, hstands⟩ := h.named r y z' hr' hz'
      refine ⟨p, hp.mono fun a c hac => ⟨c, ?_, rfl⟩, htype ▸ hstands⟩
      have hat : a ≠ t := ne_of_none hn.fresh.1 hac
      rw [hn.dentry, upd_ne hat, hac]

/-- The lookup of a path the host has. -/
theorem NamesFound.names {tokens : List Name} (hf : NamesFound M o this path tokens t o')
    (h : HostNames M o) (hpath : PathAt o this path) (hthis : this ≠ 0)
    (hclean : ∀ token ∈ tokens, slash ∉ token)
    (hhas : o.spike.host.tree.node (hRootDir ++ path ++ pathString tokens) ≠ none) :
    HostNames M o' ∧ PathAt o' t (path ++ pathString tokens) ∧
      o'.spike.host.tree = o.spike.host.tree := by
  induction hf with
  | nil => exact ⟨h, by simpa [pathString] using hpath, rfl⟩
  | @cached o o' this t path token rest e he hrest ih =>
      have hne : e.value ≠ 0 := by
        obtain ⟨y, hy, -⟩ := h.cache.findD_some he
        intro heq
        rw [heq, h.zero] at hy
        cases hy
      have hhas' : o.spike.host.tree.node (hRootDir ++ (path ++ slash :: token) ++ pathString rest) ≠
          none := by
        simpa [pathString] using hhas
      have hr := ih h (h.cache.kid_path he hpath hthis) hne
        (fun u hu => hclean u (List.mem_cons_of_mem _ hu)) hhas'
      simpa [pathString] using hr
  | @new o o1 o' this t path token rest sb t1 q v u sp hsb hn hrest ih =>
      have hrestclean : ∀ u ∈ rest, slash ∉ u := fun u hu => hclean u (List.mem_cons_of_mem _ hu)
      have hhas' : o.spike.host.tree.node (hRootDir ++ path ++ slash :: token ++ pathString rest) ≠
          none := by
        simpa [pathString] using hhas
      have htree : o1.spike.host.tree = o.spike.host.tree := by
        rw [hn.rest.2.2, hn.found.tree]
      have h1 := h.newName hsb hn hpath hthis (hclean token (List.mem_cons_self ..))
        (HostTree.parents _ hrestclean hhas')
      have hr := ih h1 (hn.kid_path hpath hthis) hn.fresh.2 hrestclean
        (by rw [htree]; simpa [pathString] using hhas)
      rw [htree] at hr
      simpa [pathString] using hr

theorem HostNames.congr (h : HostNames M o) (hcache : CacheInv o') (hroot : o'.root = o.root)
    (hvinode : o'.vinode = o.vinode) (hsame : SameNames o o')
    (htree : o'.spike.host.tree = o.spike.host.tree)
    (hfile : ∀ p f, o'.file p = some f → f.fDentry ≠ M.rfsRoot) : HostNames M o' := by
  refine ⟨h.toHostCache.congr hcache hroot hvinode hsame hfile, fun r y hr hpar => ?_,
    fun r y z hr hz => ?_⟩
  · obtain ⟨x, hx, hkey, -⟩ := hsame.old hr
    have hname : y.name = x.name := congrArg DentryKey.name hkey
    have hpar' : y.parent = x.parent := congrArg DentryKey.parent hkey
    rw [hname]
    exact h.clean r x hx (hpar' ▸ hpar)
  · obtain ⟨x, hx, hkey, hino⟩ := hsame.old hr
    rw [hvinode, hino] at hz
    obtain ⟨p, hp, hstands⟩ := h.named r x z hx hz
    rw [htree]
    exact ⟨p, hp.mono fun a c hac => (hsame.keep hac).imp fun _ h => ⟨h.1, h.2.1⟩, hstands⟩

/-- The dentry of a file has nothing below it. -/
theorem HostNames.leaf (h : HostNames M o) (ht : o.dentry t = some x)
    (hv : o.vinode x.dentryInode = some v) (hfile : v.type = fileI) (r : Ptr) (y : Dentry)
    (hr : o.dentry r = some y) : y.parent ≠ t := by
  rintro rfl
  have hne : y.parent ≠ 0 := ne_of_none h.zero ht
  have hmnt : y.parent ≠ M.rfsRoot := by
    intro heq
    obtain ⟨z, u, hz, hu, hdir, -⟩ := h.rfsD
    rw [heq, hz] at ht
    obtain rfl := Option.some.inj ht
    obtain rfl := Option.some.inj (hu.symm.trans hv)
    exact absurd (hfile.symm.trans hdir) (by decide)
  have hroot : y.parent ≠ M.root := by
    intro heq
    obtain ⟨z, u, hz, hu, hdir, -⟩ := h.rootD
    rw [heq, hz] at ht
    obtain rfl := Option.some.inj ht
    obtain rfl := Option.some.inj (hu.symm.trans hv)
    exact absurd (hfile.symm.trans hdir) (by decide)
  -- only the root has the mount point below it, so `r` is a name of the host
  have hrmnt : r ≠ M.rfsRoot := by
    rintro rfl
    obtain ⟨z, -, hz, -, -, hkey⟩ := h.rfsD
    obtain rfl := Option.some.inj (hr.symm.trans hz)
    exact hroot (congrArg DentryKey.parent hkey)
  obtain ⟨p, hp, hstands⟩ := h.named _ _ _ ht hv
  obtain ⟨u, hu⟩ := h.cache.inode r y hr
  obtain ⟨p', hp', hstands'⟩ := h.named r y u hr hu
  obtain ⟨id, hid⟩ := (hstands hmnt).2 hfile
  have hpath : p' = p ++ slash :: y.name := hp'.unique (.kid hr hne hp)
  have hhas := (hstands' hrmnt).1
  rw [hpath, ← List.append_assoc] at hhas
  have hdir := o.spike.host.tree.closed _ _ (h.clean r y hr hne) hhas
  rw [hid] at hdir
  cases hdir

/-- A descriptor lets go of a file. -/
theorem HostNames.letGo (h : HostNames M o) (ht : o.dentry t = some x)
    (hv : o.vinode x.dentryInode = some v) (hfile : v.type = fileI) (hgo : LetGo o t x v o') :
    HostNames M o' := by
  by_cases hbusy : x.dRef ≠ 0
  · rw [hgo.kept hbusy]
    exact h
  have hidle : x.dRef = 0 := not_not.mp hbusy
  obtain ⟨hfiles, hroot, hspike⟩ := hgo.rest
  have holdD : ∀ {r y}, o'.dentry r = some y → r ≠ t ∧ o.dentry r = some y := by
    intro r y hr
    rw [hgo.dentry hidle] at hr
    rcases upd_cases hr with ⟨-, heq⟩ | hold
    · cases heq
    · exact hold
  have hkeepD : ∀ {r y}, o.dentry r = some y → r ≠ t → o'.dentry r = some y := by
    intro r y hr hne
    rw [hgo.dentry hidle, upd_ne hne, hr]
  have holdV : ∀ {w z}, o'.vinode w = some z →
      ∃ z', o.vinode w = some z' ∧ z = { z' with ref := z.ref } := by
    intro w z hw
    rw [hgo.vinode hidle] at hw
    rcases upd_cases hw with ⟨rfl, heq⟩ | ⟨-, hold⟩
    · split at heq
      · cases heq
      · obtain rfl := Option.some.inj heq
        exact ⟨v, hv, rfl⟩
    · exact ⟨z, hold, rfl⟩
  -- a directory keeps its dentry and its vinode
  have hdirD : ∀ {r y z}, o.dentry r = some y → o.vinode y.dentryInode = some z → z.type = dirI →
      ∃ z', o'.dentry r = some y ∧ o'.vinode y.dentryInode = some z' ∧ z'.type = dirI := by
    intro r y z hr hz hdir
    have hne : r ≠ t := by
      rintro rfl
      obtain rfl := Option.some.inj (ht.symm.trans hr)
      obtain rfl := Option.some.inj (hv.symm.trans hz)
      exact absurd (hfile.symm.trans hdir) (by decide)
    obtain ⟨z', hz'⟩ := hgo.cache.inode r y (hkeepD hr hne)
    obtain ⟨z0, hz0, heq⟩ := holdV hz'
    obtain rfl := Option.some.inj (hz.symm.trans hz0)
    exact ⟨z', hkeepD hr hne, hz', by rw [heq]; exact hdir⟩
  refine ⟨⟨hgo.cache, ?_, hroot.trans h.root, ?_, ?_, fun r y z hr hz => ?_, fun w z hw => ?_,
    fun w z hw => ?_, fun p f hp => h.files p f (hfiles ▸ hp)⟩, fun r y hr => h.clean r y (holdD hr).2,
    fun r y z hr hz => ?_⟩
  · cases h0 : o'.dentry 0 with
    | none => rfl
    | some y =>
        have hy := (holdD h0).2
        rw [h.zero] at hy
        cases hy
  · obtain ⟨y, z, hy, hz, hdir, hpar⟩ := h.rootD
    obtain ⟨z', hy', hz', hdir'⟩ := hdirD hy hz hdir
    exact ⟨y, z', hy', hz', hdir', hpar⟩
  · obtain ⟨y, z, hy, hz, hdir, hkey⟩ := h.rfsD
    obtain ⟨z', hy', hz', hdir'⟩ := hdirD hy hz hdir
    exact ⟨y, z', hy', hz', hdir', hkey⟩
  · obtain ⟨z', hz', heq⟩ := holdV hz
    rw [heq]
    exact h.host r y z' (holdD hr).2 hz'
  · obtain ⟨z', hz', heq⟩ := holdV hw
    rw [heq]
    exact h.sbs w z' hz'
  · obtain ⟨z', hz', heq⟩ := holdV hw
    rw [heq]
    exact h.kinds w z' hz'
  · obtain ⟨z', hz', heq⟩ := holdV hz
    obtain ⟨hrt, hr'⟩ := holdD hr
    obtain ⟨p, hp, hstands⟩ := h.named r y z' hr' hz'
    rw [hspike, heq]
    exact ⟨p, hp.without (hgo.dentry hidle) (h.leaf ht hv hfile) hrt, hstands⟩

/-- A lookup below a dentry of the host finds a dentry, whatever the host has. -/
theorem lookupTokens_host : ∀ {tokens : List Name} {this parent : Ptr} {s : State}
    {o : Objs} {x : Dentry} {path : List UInt8}, Holds s o d b [] → HostCache M o →
    o.dentry this = some x → this ≠ M.rfsRoot → parent ≠ M.rfsRoot →
    (this = M.root → tokens.head? ≠ some ramdiskName) → PathAt o this path →
    Post (lookupTokens hostfsIOps tokens this parent) s (fun r s' => ∃ t o', r.dentry = some t ∧
      Holds s' o' d b [] ∧ HostCache M o' ∧ t ≠ M.rfsRoot ∧ r.parent ≠ M.rfsRoot ∧
      (∃ y, o'.dentry t = some y) ∧ NamesFound M o this path tokens t o') AnyFault
  | [], this, parent, s, o, x, path, h, hi, hx, hne, hpne, hout, hpath =>
      .pure ⟨this, o, rfl, h, hi, hne, hpne, ⟨x, hx⟩, .nil⟩
  | token :: rest, this, parent, s, o, x, path, h, hi, hx, hne, hpne, hout, hpath => by
      obtain ⟨pv, hpv⟩ := hi.cache.inode this x hx
      have hhost := (hi.host this x pv hx hpv).mpr hne
      have hout' : this = M.root → token ≠ ramdiskName := fun hroot heq =>
        hout hroot (by rw [heq]; rfl)
      have hthis : this ≠ 0 := h.ne_zero (K := dentryKind) hx
      refine .bind (lookupToken_host h hi.cache hx hpv hhost hpath) ?_
      rintro _ s1 ⟨t1, o1, rfl, hf, h1⟩
      rcases hf.newName hi.cache hx hpv hpath with ⟨rfl, e, he, rfl⟩ | ⟨q, v, u, sp, hn⟩
      · obtain ⟨y, hy, hkey⟩ := hi.cache.findD_some he
        -- a dentry with a parent is not the root
        have hroot : e.value ≠ M.root := by
          intro heq
          obtain ⟨z, -, hz, -, -, hpar⟩ := hi.rootD
          rw [heq, hz] at hy
          obtain rfl := Option.some.inj hy
          exact hthis ((congrArg DentryKey.parent hkey).symm.trans hpar)
        refine (lookupTokens_host h1 hi hy (hi.kid_ne hy hkey hout') hne
          (fun heq => absurd heq hroot) (hi.cache.kid_path he hpath hthis)).mono ?_
        rintro r s2 ⟨t, o', hr, h2, hi2, hne2, hpne2, hy2, hrest⟩
        exact ⟨t, o', hr, h2, hi2, hne2, hpne2, hy2, .cached e he hrest⟩
      · have hsb : pv.sb ≠ M.sb := (hi.sbs _ _ hpv).mp hhost
        obtain ⟨hi1, hmnt⟩ := hi.newName hsb hn
        have ht1 : o1.dentry t1 = some ⟨token, 0, q, this⟩ := by rw [hn.dentry, upd_self]
        have hroot : t1 ≠ M.root := by
          intro heq
          obtain ⟨z, -, hz, -⟩ := hi.rootD
          rw [← heq, hn.fresh.1] at hz
          cases hz
        refine (lookupTokens_host h1 hi1 ht1 hmnt hne (fun heq => absurd heq hroot)
          (hn.kid_path hpath hthis)).mono ?_
        rintro r s2 ⟨t, o', hr, h2, hi2, hne2, hpne2, hy2, hrest⟩
        exact ⟨t, o', hr, h2, hi2, hne2, hpne2, hy2, .new pv.sb t1 q v u sp hsb hn hrest⟩

/-- The path does not go to the RAM disk. -/
def Path.Outside (p : Path) : Prop := p.tokens.head? ≠ some ramdiskName

instance (p : Path) : Decidable p.Outside := inferInstanceAs (Decidable (¬_))

theorem lookupFinalDentry_host (h : Holds s o d b []) (hi : HostCache M o) (hout : p.Outside) :
    Post (lookupFinalDentry hostfsIOps p) s (fun r s' => ∃ t o', r.dentry = some t ∧
      Holds s' o' d b [] ∧ HostCache M o' ∧ t ≠ M.rfsRoot ∧ r.parent ≠ M.rfsRoot ∧
      (∃ y, o'.dentry t = some y) ∧ NamesFound M o M.root [] p.tokens t o') AnyFault := by
  unfold lookupFinalDentry
  refine .bind (R := fun _ s' => s' = s) ?_ ?_
  · exact .ite (fun _ => .pure rfl) fun _ => .fault trivial
  rintro _ s ⟨rfl⟩
  refine .bindGet ?_
  have hroot : s.vfsRootDentry = M.root := (congrArg Objs.root h.objs).trans hi.root
  rw [hroot]
  obtain ⟨x, v, hx, -, -, hpar⟩ := hi.rootD
  exact lookupTokens_host h hi hx hi.root_ne hi.root_ne (fun _ => hout) (.root hx hpar)

/-! ## Calls -/

/-- The host has the path, and it is not one of the RAM disk. -/
def HostHas (t : HostTree) (p : Path) : Prop := p.Outside ∧ t.node p.hostPath ≠ none

/-- The calls that ask for what the host has, and those on descriptors. -/
def Op.HostHas (t : HostTree) : Op → Prop
  | .open path _ | .opendir path | .unlink path | .mkdir path => Pke.HostHas t path
  | .link oldpath newpath => Pke.HostHas t oldpath ∧ Pke.HostHas t newpath
  | .mount _ _ => False
  | .read _ _ _ | .write _ _ | .lseek _ _ _ | .close _ | .readdir _ | .closedir _ => True

/-- A state in which the names of the host are in order, on the same host tree. -/
def NamesIn (M : Mount) (t : HostTree) (d : Nat → Block) (b : Block) (s : State) : Prop :=
  ∃ o, Holds s o d b [] ∧ HostNames M o ∧ o.spike.host.tree = t

theorem lookupFinalDentry_names (h : Holds s o d b []) (hi : HostNames M o)
    (hhas : HostHas o.spike.host.tree p) :
    Post (lookupFinalDentry hostfsIOps p) s (fun r s' => ∃ t o' x v, r.dentry = some t ∧
      Holds s' o' d b [] ∧ HostNames M o' ∧ o'.spike.host.tree = o.spike.host.tree ∧
      o'.dentry t = some x ∧ o'.vinode x.dentryInode = some v ∧ t ≠ M.rfsRoot ∧
      r.parent ≠ M.rfsRoot) AnyFault := by
  refine (lookupFinalDentry_host h hi.toHostCache hhas.1).mono ?_
  rintro r s' ⟨t, o', hr, h', -, hne, hpne, ⟨x, hx⟩, hf⟩
  obtain ⟨rx, rv, hrx, -, -, hpar⟩ := hi.rootD
  have hroot0 : M.root ≠ 0 := h.ne_zero (K := dentryKind) hrx
  obtain ⟨hi', -, htree⟩ := hf.names hi (.root hrx hpar) hroot0
    (fun token hmem => slash_not_mem_strtokAll hmem) (by simpa [Path.hostPath] using hhas.2)
  obtain ⟨v, hv⟩ := hi'.cache.inode t x hx
  exact ⟨t, o', x, v, hr, h', hi', htree, hx, hv, hne, hpne⟩

/-- One more descriptor on a dentry of the host. -/
theorem HostNames.openOn (h : HostNames M o) (ht : o.dentry t = some x) (hne : t ≠ M.rfsRoot)
    (hf : f.fDentry = t) : HostNames M { o.setD t { x with dRef := x.dRef + 1 } with
      file := upd o.file file (some f) } := by
  refine h.congr ((h.cache.setD { x with dRef := x.dRef + 1 } ht rfl rfl).congr rfl rfl rfl rfl rfl)
    rfl rfl (.setD ht _ rfl) rfl fun p g hp => ?_
  rcases upd_some hp with ⟨-, rfl⟩ | ⟨-, hold⟩
  · rw [hf]
    exact hne
  · exact h.files p g hold

/-- A descriptor keeps its dentry. -/
theorem HostNames.setFile (h : HostNames M o) {g : File} (hf : o.file file = some f)
    (hg : g.fDentry = f.fDentry) (hsp : sp.host.tree = o.spike.host.tree) :
    HostNames M { o with spike := sp, file := upd o.file file (some g) } := by
  refine h.congr (h.cache.congr rfl rfl rfl rfl rfl) rfl rfl (fun _ => rfl) hsp fun p g' hp => ?_
  rcases upd_some hp with ⟨-, rfl⟩ | ⟨-, hold⟩
  · rw [hg]
    exact h.files file f hf
  · exact h.files p g' hold

section

variable (h : Holds s o d b []) (hi : HostNames M o) (hhas : HostHas o.spike.host.tree p)

include h hi hhas

theorem vfsOpen_names {flags : Nat} : Post (vfsOpen hostfsIOps p flags) s
      (fun _ s' => NamesIn M o.spike.host.tree d b s') AnyFault := by
  refine .bind (lookupFinalDentry_names h hi hhas) ?_
  rintro r s1 ⟨t, o1, x, v, hr, h1, hi1, htree, hx, hv, hne, hpne⟩
  rw [hr]
  have hhost := (hi1.host t x v hx hv).mpr hne
  refine (openDentry_host h1 hx hv hhost (hi1.kinds _ _ hv hhost).2).mono ?_
  rintro _ s2 (⟨-, -, h2⟩ | ⟨-, file, f, -, -, hf, -, h2⟩)
  · exact ⟨o1, h2, hi1, htree⟩
  · exact ⟨_, h2, hi1.openOn hx hne hf, htree⟩

theorem vfsOpendir_names :
    Post (vfsOpendir hostfsIOps p) s (fun _ s' => NamesIn M o.spike.host.tree d b s') AnyFault := by
  refine .bind (lookupFinalDentry_names h hi hhas) ?_
  rintro r s1 ⟨t, o1, x, v, hr, h1, hi1, htree, hx, hv, hne, hpne⟩
  rw [hr]
  refine post_known dentryKind h1 hx ?_
  refine post_known vinodeKind h1 hv ?_
  refine .ite (fun _ => .pure ⟨o1, h1, hi1, htree⟩) fun _ => ?_
  refine .bind (allocVfsFile_post h1 hx trivial) ?_
  rintro file s2 ⟨-, -, h2⟩
  rw [(hi1.host t x v hx hv).mpr hne]
  exact .step rfl (.pure ⟨_, h2, hi1.openOn hx hne rfl, htree⟩)

theorem vfsUnlink_names :
    Post (vfsUnlink hostfsIOps p) s (fun _ s' => NamesIn M o.spike.host.tree d b s') AnyFault := by
  refine .bind (lookupFinalDentry_names h hi hhas) ?_
  rintro r s1 ⟨t, o1, x, v, hr, h1, hi1, htree, hx, hv, hne, hpne⟩
  rw [hr]
  refine post_known dentryKind h1 hx ?_
  refine post_known vinodeKind h1 hv ?_
  have hend : NamesIn M o.spike.host.tree d b s1 := ⟨o1, h1, hi1, htree⟩
  refine .ite (fun _ => .pure hend) fun _ => .ite (fun _ => .pure hend) fun _ => ?_
  refine post_follow dentryKind h1 (fun _ => trivial) fun y hy => ?_
  obtain ⟨u, hu⟩ := hi1.cache.inode _ y hy
  refine .bind (R := fun ops _ => ops = hostfsIOps) ?_ ?_
  · refine post_known vinodeKind h1 hu (.pure ?_)
    rw [(hi1.host _ y u hy hu).mpr hpne]
    rfl
  rintro _ s2 rfl
  exact .bind (R := fun _ _ => False) (.fault trivial) nofun

theorem vfsMkdir_names :
    Post (vfsMkdir hostfsIOps p) s (fun _ s' => NamesIn M o.spike.host.tree d b s') AnyFault := by
  refine .bind (lookupFinalDentry_names h hi hhas) ?_
  rintro r s1 ⟨t, o1, x, v, hr, h1, hi1, htree, -⟩
  rw [hr]
  exact .pure ⟨o1, h1, hi1, htree⟩

theorem vfsLink_names {p' : Path} (hhas' : HostHas o.spike.host.tree p') :
    Post (vfsLink hostfsIOps p p') s (fun _ s' => NamesIn M o.spike.host.tree d b s') AnyFault := by
  refine .bind (lookupFinalDentry_names h hi hhas) ?_
  rintro r s1 ⟨t, o1, x, v, hr, h1, hi1, htree, hx, hv, -⟩
  rw [hr]
  refine post_known dentryKind h1 hx ?_
  refine post_known vinodeKind h1 hv ?_
  refine .ite (fun _ => .pure ⟨o1, h1, hi1, htree⟩) fun _ => ?_
  refine .bind (lookupFinalDentry_names h1 hi1 (htree ▸ hhas')) ?_
  rintro r2 s2 ⟨t2, o2, x2, v2, hr2, h2, hi2, htree2, -⟩
  rw [hr2]
  exact .pure ⟨o2, h2, hi2, htree2.trans htree⟩

end

/-! ## Calls on descriptors -/

/-- What a descriptor goes to is the host's. -/
theorem HostNames.host_of_file (h : HostNames M o) (hf : o.file file = some f)
    (hx : o.dentry f.fDentry = some x) (hv : o.vinode x.dentryInode = some v) : v.iOps = .hostfs :=
  (h.host _ x v hx hv).mpr (h.files file f hf)

/-- A call that reads and moves the position of the handle. -/
theorem HostNames.moved (h : HostNames M o) (hs : Holds s o d b []) {g : File}
    (hf : o.file file = some f) (hg : g.fDentry = f.fDentry)
    (hsp : sp.host.tree = o.spike.host.tree) :
    NamesIn M o.spike.host.tree d b ({ s with spike := sp }.setPage file (.file g)) :=
  ⟨_, (hs.withSpike sp).set (K := fileKind) hf g, h.setFile hf hg hsp, hsp⟩

theorem vfsRead_names {count : Int} {stack : Block} (h : Holds s o d b []) (hi : HostNames M o) :
    Post (vfsRead hostfsIOps file count stack) s (fun _ s' => NamesIn M o.spike.host.tree d b s') AnyFault := by
  have hend : NamesIn M o.spike.host.tree d b s := ⟨o, h, hi, rfl⟩
  have hspike : s.spike = o.spike := congrArg Objs.spike h.objs
  refine post_follow fileKind h (fun _ => trivial) fun f hf => ?_
  refine .ite (fun _ => .pure hend) fun _ => ?_
  refine post_follow dentryKind h (fun _ => trivial) fun x hx => ?_
  refine post_follow vinodeKind h (fun _ => trivial) fun v hv => ?_
  refine .ite (fun _ => .pure hend) fun _ => ?_
  rw [hi.host_of_file hf hx hv]
  refine .bind (R := fun _ s' => ∃ sp : Spike, sp.host.tree = o.spike.host.tree ∧
    s' = { s with spike := sp }) ?_ ?_
  · refine post_known vinodeKind h hv ?_
    refine .bindOption (fun _ => trivial) fun g _ => .bindGet (.bindModify (.pure ⟨_, ?_, rfl⟩))
    simp [Spike.spikeFileRead, Spike.spikeFileLseek, hspike]
  rintro r s1 ⟨sp, hsp, rfl⟩
  exact .bindModify (.pure (hi.moved h hf rfl hsp))

theorem vfsWrite_names {buf : List UInt8} (h : Holds s o d b []) (hi : HostNames M o) :
    Post (vfsWrite hostfsIOps file buf) s (fun _ s' => NamesIn M o.spike.host.tree d b s') AnyFault := by
  have hend : NamesIn M o.spike.host.tree d b s := ⟨o, h, hi, rfl⟩
  have hspike : s.spike = o.spike := congrArg Objs.spike h.objs
  refine post_follow fileKind h (fun _ => trivial) fun f hf => ?_
  refine .ite (fun _ => .pure hend) fun _ => ?_
  refine post_follow dentryKind h (fun _ => trivial) fun x hx => ?_
  refine post_follow vinodeKind h (fun _ => trivial) fun v hv => ?_
  refine .ite (fun _ => .pure hend) fun _ => ?_
  rw [hi.host_of_file hf hx hv]
  refine .bind (R := fun _ s' => ∃ sp : Spike, sp.host.tree = o.spike.host.tree ∧
    s' = { s with spike := sp }) ?_ ?_
  · refine post_known vinodeKind h hv ?_
    refine .bindOption (fun _ => trivial) fun g _ => .bindGet (.bindModify (.pure ⟨_, ?_, rfl⟩))
    simp [Spike.spikeFileWrite, Spike.spikeFileLseek, hspike]
  rintro r s1 ⟨sp, hsp, rfl⟩
  exact .bindModify (.pure (hi.moved h hf rfl hsp))

theorem vfsLseek_names {offset whence : Int} (h : Holds s o d b []) (hi : HostNames M o) :
    Post (vfsLseek hostfsIOps file offset whence) s (fun _ s' => NamesIn M o.spike.host.tree d b s') AnyFault := by
  have hspike : s.spike = o.spike := congrArg Objs.spike h.objs
  refine post_file h (fun _ => trivial) fun f x v hf hx hv => ?_
  refine .ite (fun _ => .pure ⟨o, h, hi, rfl⟩) fun _ => ?_
  rw [hi.host_of_file hf hx hv]
  refine .bind (R := fun _ s' => ∃ sp : Spike, sp.host.tree = o.spike.host.tree ∧
    s' = { s with spike := sp }) ?_ ?_
  · refine post_known vinodeKind h hv ?_
    refine .bindOption (fun _ => trivial) fun g _ => .bindGet (.bindModify ?_)
    have hsp : (s.spike.spikeFileLseek g offset whence).2.host.tree = o.spike.host.tree := by
      simp [Spike.spikeFileLseek, hspike]
    exact .ite (fun _ => .pure ⟨_, hsp, rfl⟩) fun _ => .pure ⟨_, hsp, rfl⟩
  rintro r s1 ⟨sp, hsp, rfl⟩
  have hend : ∀ g : File, g.fDentry = f.fDentry → NamesIn M o.spike.host.tree d b
      ({ s with spike := sp }.setPage file (.file g)) := fun g hg => hi.moved h hf hg hsp
  exact .bindModify (.ite (fun _ => .pure (hend _ rfl)) fun _ => .pure (hend _ rfl))

/-- A descriptor on a file is closed. -/
theorem HostNames.closed (h : HostNames M o) (hf : o.file file = some f)
    (hx : o.dentry f.fDentry = some x) (hv : o.vinode x.dentryInode = some v)
    (hfile : v.type = fileI) (hsp : sp.host.tree = o.spike.host.tree)
    (hgo : LetGo (Objs.setD { o with spike := sp } f.fDentry { x with dRef := x.dRef - 1 })
      f.fDentry { x with dRef := x.dRef - 1 } v o') :
    HostNames M { o' with file := upd o.file file (some { f with status := .none }) } := by
  have hc1 : CacheInv { o with spike := sp } := h.cache.congr rfl rfl rfl rfl rfl
  have h1 : HostNames M (Objs.setD { o with spike := sp } f.fDentry
      { x with dRef := x.dRef - 1 }) :=
    h.congr (hc1.setD _ hx rfl rfl) rfl rfl (.setD hx _ rfl) hsp h.files
  have h2 := h1.letGo (upd_self _ _ _) hv hfile hgo
  have hfiles : o'.file = o.file := hgo.rest.1
  have hf2 : o'.file file = some f := by
    rw [hfiles]
    exact hf
  have h3 : HostNames M { o' with
      file := upd o'.file file (some { f with status := .none }) } := h2.setFile hf2 rfl rfl
  rw [hfiles] at h3
  exact h3

theorem vfsClose_names (h : Holds s o d b []) (hi : HostNames M o) :
    Post (vfsClose hostfsIOps file) s (fun _ s' => NamesIn M o.spike.host.tree d b s') AnyFault := by
  refine (vfsClose_host h hi.cache (fun f x v hf hx hv hfile => ?_)).mono ?_
  · have hhost := hi.host_of_file hf hx hv
    exact ⟨hhost, (hi.kinds _ _ hv hhost).2 hfile⟩
  rintro _ s' (⟨-, h'⟩ | ⟨-, f, x, v, g, o', hf, hx, hv, hfile, -, -, hgo, h'⟩)
  · exact ⟨o, h', hi, rfl⟩
  have htree : o'.spike.host.tree = o.spike.host.tree := by
    rw [hgo.rest.2.2]
    exact Spike.tree_afterClose _ _
  exact ⟨_, h', hi.closed hf hx hv hfile (Spike.tree_afterClose _ _) hgo, htree⟩

theorem vfsClosedir_names (h : Holds s o d b []) (hi : HostNames M o) :
    Post (vfsClosedir hostfsIOps file) s (fun _ s' => NamesIn M o.spike.host.tree d b s') AnyFault := by
  refine post_file h (fun _ => trivial) fun f x v hf hx hv => ?_
  refine .ite (fun _ => .pure ⟨o, h, hi, rfl⟩) fun _ => ?_
  refine post_set dentryKind h hx fun s1 h1 => ?_
  refine post_set fileKind h1 hf fun s2 h2 => ?_
  rw [hi.host_of_file hf hx hv]
  have hi1 : HostNames M (o.setD f.fDentry { x with dRef := x.dRef - 1 }) :=
    hi.congr (hi.cache.setD _ hx rfl rfl) rfl rfl (.setD hx _ rfl) rfl hi.files
  exact .step rfl (.pure ⟨_, h2, hi1.setFile hf rfl rfl, rfl⟩)

theorem vfsReaddir_names (h : Holds s o d b []) (hi : HostNames M o) :
    Post (vfsReaddir hostfsIOps file) s (fun _ s' => NamesIn M o.spike.host.tree d b s') AnyFault := by
  refine post_file h (fun _ => trivial) fun f x v hf hx hv => ?_
  refine .ite (fun _ => .pure ⟨o, h, hi, rfl⟩) fun _ => ?_
  rw [hi.host_of_file hf hx hv]
  exact .bind (R := fun _ _ => False) (.fault trivial) nofun

theorem Op.exec_names {op : Op} (h : Holds s o d b []) (hi : HostNames M o)
    (hop : op.HostHas o.spike.host.tree) :
    Post (op.exec hostfsIOps) s (fun _ s' => NamesIn M o.spike.host.tree d b s') AnyFault := by
  cases op with
  | «open» path flags => exact .bind (vfsOpen_names h hi hop) fun _ _ hs => .pure hs
  | read file count stack => exact .bind (vfsRead_names h hi) fun _ _ hs => .pure hs
  | write file buf => exact vfsWrite_names h hi
  | lseek file offset whence => exact vfsLseek_names h hi
  | close file => exact vfsClose_names h hi
  | link oldpath newpath => exact vfsLink_names h hi hop.1 hop.2
  | unlink path => exact vfsUnlink_names h hi hop
  | mkdir path => exact vfsMkdir_names h hi hop
  | opendir path => exact .bind (vfsOpendir_names h hi hop) fun _ _ hs => .pure hs
  | readdir file => exact .bind (vfsReaddir_names h hi) fun _ _ hs => .pure hs
  | closedir file => exact vfsClosedir_names h hi
  | mount devName mntType => exact hop.elim

end

/-! ## Runs -/

/-- The runs of calls under the condition `ok`, on a machine with a host. -/
def HostRun (ok : State → Op → Prop) : State → State → Prop :=
  Reaches fun s s' => ∃ op r, ok s op ∧ op.exec hostfsIOps s = .ok (r, s')

/-- The calls whose paths the host has. -/
def HostCalls (s : State) (op : Op) : Prop := op.HostHas s.spike.host.tree

structure HostSound (M : Mount) (s : State) : Prop where
  holds : Holds s s.objs s.disk s.iobuffer []
  names : HostNames M s.objs

theorem NamesIn.sound {t : HostTree} {d : Nat → Block} {b : Block} (h : NamesIn M t d b s) :
    HostSound M s := by
  obtain ⟨o, h, hi, -⟩ := h
  obtain rfl := h.objs
  obtain rfl := h.disk
  obtain rfl := h.io
  exact ⟨h, hi⟩

/-- After boot the root and the mount point are all there is. -/
theorem Booted.hostNames {o : Objs} {d : Nat → Block} (hb : Booted M o d) : HostNames M o := by
  have htree := hb.inv.tree
  obtain ⟨rx, rv, hrx, hrv, hrhost, hrpar⟩ := htree.rootD
  obtain ⟨fx, fv, hfx, hfv, hfrfs, -, hfkey⟩ := htree.rfsD
  have hdir : ∀ {w v}, o.vinode w = some v → v.type = dirI := fun hw => hb.dirs _ _ hw
  have hnofile : ∀ {w v}, o.vinode w = some v → v.type ≠ fileI := fun hw hfile =>
    absurd (hfile.symm.trans (hdir hw)) (by decide)
  have hfpar : fx.parent = M.root := congrArg DentryKey.parent hfkey
  have hroot0 : M.root ≠ 0 := ne_of_none htree.zero.1 hrx
  have hne : M.root ≠ M.rfsRoot := by
    intro heq
    rw [heq, hfx] at hrx
    obtain rfl := Option.some.inj hrx
    exact hroot0 (hfpar.symm.trans hrpar)
  refine ⟨⟨hb.inv.cache, htree.zero.1, htree.root, ⟨rx, rv, hrx, hrv, hdir hrv, hrpar⟩,
    ⟨fx, fv, hfx, hfv, hdir hfv, hfkey⟩, fun t x v ht hv => ?_, fun w v hw => ?_,
    fun w v hw hhost => ?_, fun p f hp => ?_⟩, fun t x ht hpar => ?_, fun t x v ht hv => ?_⟩
  · rcases hb.names t x ht with rfl | rfl
    · obtain rfl := Option.some.inj (hrx.symm.trans ht)
      obtain rfl := Option.some.inj (hrv.symm.trans hv)
      exact ⟨fun _ => hne, fun _ => hrhost⟩
    · obtain rfl := Option.some.inj (hfx.symm.trans ht)
      obtain rfl := Option.some.inj (hfv.symm.trans hv)
      rw [hfrfs]
      exact ⟨nofun, fun hcon => absurd rfl hcon⟩
  · refine ⟨fun hhost => (htree.hostV w v hw hhost).2.2, fun hsb => ?_⟩
    cases hops : v.iOps with
    | hostfs => rfl
    | rfs => exact absurd (htree.rfsV w v hw hops).1 hsb
  · refine ⟨fun hnum => ?_, fun hfile => absurd hfile (hnofile hw)⟩
    have := (htree.hostV w v hw hhost).1
    omega
  · rw [hb.files p] at hp
    cases hp
  · rcases hb.names t x ht with rfl | rfl
    · obtain rfl := Option.some.inj (hrx.symm.trans ht)
      exact absurd hrpar hpar
    · obtain rfl := Option.some.inj (hfx.symm.trans ht)
      have hname : fx.name = ramdiskName := congrArg DentryKey.name hfkey
      rw [hname]
      decide
  · have hrpath : PathAt o M.root [] := .root hrx hrpar
    rcases hb.names t x ht with rfl | rfl
    · refine ⟨[], hrpath, fun _ => ⟨?_, fun hfile => absurd hfile (hnofile hv)⟩⟩
      rw [List.append_nil, o.spike.host.tree.root]
      exact nofun
    · obtain rfl := Option.some.inj (hfx.symm.trans ht)
      exact ⟨_, .kid hfx (hfpar ▸ hroot0) (hfpar ▸ hrpath), fun hcon => absurd rfl hcon⟩

theorem HostRun.sound {b : Boot} {s0 : State} (h0 : b.Starts s0) (hrun : HostRun HostCalls s0 s) :
    HostSound s0.mount s := by
  refine Reaches.invariant ?_ ?_ hrun
  · obtain ⟨⟨c, hend⟩, hb⟩ := h0.booted
    have hio := hend.io
    exact ⟨hio ▸ hend, hb.hostNames⟩
  · rintro s s' hs ⟨op, r, hop, hcall⟩
    have hpost : NamesIn s0.mount _ _ _ s' :=
      (Op.exec_names hs.holds hs.names hop).of_ok hcall
    exact hpost.sound

/-! ## Where the lookup agrees with the host -/

/-- What the host has at a path. -/
def State.hostNode (s : State) (p : Path) : Option HostNode := s.spike.host.tree.node p.hostPath

/-- The host has the directory of the last name of the path. -/
def State.HostParent (s : State) (p : Path) : Prop :=
  p.tokens ≠ [] ∧ s.spike.host.tree.node (hRootDir ++ pathString p.tokens.dropLast) = some .dir

instance (s : State) (p : Path) : Decidable (s.HostParent p) := inferInstanceAs (Decidable (_ ∧ _))

/-- The table holds no dentry for what the host does not have. -/
def State.NamesExist (s : State) (M : Mount) : Prop :=
  ∀ k e t x path, s.objs.findD k = some e → e.value = t → s.dentry t = some x → t ≠ M.rfsRoot →
    PathAt s.objs t path → s.spike.host.tree.node (hRootDir ++ path) ≠ none

/-- The calls answer for a path as the host would. -/
structure HostAgrees (M : Mount) (s : State) (p : Path) : Prop where
  lookup : s.hostNode p = none →
    ∃ r s', lookupFinalDentry hostfsIOps p s = .ok (r, s') ∧ r.dentry = none
  creates : s.hostNode p = none → s.HostParent p → ∀ flags : Nat, flags &&& oCreat ≠ 0 →
    flags % 4 ≠ 3 → ∃ file f x v s', vfsOpen hostfsIOps p flags s = .ok (some file, s') ∧
      s'.file file = some f ∧ s'.dentry f.fDentry = some x ∧ s'.vinode x.dentryInode = some v ∧
      v.type = fileI
  opens : s.hostNode p = none → ∀ flags : Nat, flags &&& oCreat = 0 →
    ∃ s', vfsOpen hostfsIOps p flags s = .ok (none, s')
  opendirs : s.hostNode p = none → ∃ s', vfsOpendir hostfsIOps p s = .ok (none, s')
  names : ∀ r s', lookupFinalDentry hostfsIOps p s = .ok (r, s') → s'.NamesExist M

theorem HostSound.namesExist (h : HostSound M s) : s.NamesExist M := by
  intro k e t x path _ _ ht hne hpath
  obtain ⟨v, hv⟩ := h.names.cache.inode t x ht
  obtain ⟨p, hp, hstands⟩ := h.names.named t x v ht hv
  rw [hpath.unique hp]
  exact (hstands hne).1

theorem lookup_agrees_iff {b : Boot} {s0 s : State} {p : Path} (h0 : b.Starts s0)
    (hrun : HostRun HostCalls s0 s) (hout : p.Outside) :
    HostAgrees s0.mount s p ↔ s.hostNode p ≠ none := by
  have hs := HostRun.sound h0 hrun
  constructor
  · intro h hmiss
    obtain ⟨r, s', hlookup, hnone⟩ := h.lookup hmiss
    have hpost : Post (lookupFinalDentry hostfsIOps p) s _ fun _ => True :=
      lookupFinalDentry_host hs.holds hs.names.toHostCache hout
    obtain ⟨t, o', hr, -⟩ := hpost.of_ok hlookup
    rw [hnone] at hr
    cases hr
  · intro hhas
    refine ⟨fun hmiss => absurd hmiss hhas, fun hmiss => absurd hmiss hhas,
      fun hmiss => absurd hmiss hhas, fun hmiss => absurd hmiss hhas, fun r s' hlookup => ?_⟩
    have hpost : Post (lookupFinalDentry hostfsIOps p) s _ fun _ => True :=
      lookupFinalDentry_names hs.holds hs.names ⟨hout, hhas⟩
    obtain ⟨t, o', x, v, -, h', hi', htree, -⟩ := hpost.of_ok hlookup
    exact (NamesIn.sound ⟨o', h', hi', htree⟩).namesExist

/-- `"/g"`, which the host does not have. -/
def pathG : Path := ⟨[slash, 103], by decide⟩

/-- A name the host does not have is found: it passes for a directory, its file
cannot be created, and its dentry stays in the table. -/
theorem missing_name_is_found : smallBoot.Starts smallBoot.state ∧ pathG.Outside ∧
    smallBoot.state.hostNode pathG = none ∧ smallBoot.state.HostParent pathG ∧
    endsWith (lookupFinalDentry hostfsIOps pathG) smallBoot.state (fun r s' => r.dentry.any
      fun t => (s'.objs.findD ⟨s'.vfsRootDentry, [103]⟩).any fun e => e.value == t) = true ∧
    endsWith (vfsOpen hostfsIOps pathG rdwrCreat) smallBoot.state (fun r _ => r.isNone) = true ∧
    endsWith (vfsOpendir hostfsIOps pathG) smallBoot.state (fun r _ => r.isSome) = true ∧
    ¬HostAgrees smallBoot.state.mount smallBoot.state pathG := by
  have hmiss : smallBoot.state.hostNode pathG = none := by decide
  have hparent : smallBoot.state.HostParent pathG := by
    unfold State.HostParent
    decide
  have hdir : endsWith (vfsOpendir hostfsIOps pathG) smallBoot.state
      (fun r _ => r.isSome) = true := by
    decide +kernel
  refine ⟨Boot.starts smallBoot_boots, by decide, hmiss, hparent, by decide +kernel,
    by decide +kernel, hdir, fun h => ?_⟩
  obtain ⟨s', hnone⟩ := h.opendirs hmiss
  exact absurd (endsWith_ok hdir hnone) (by decide)

instance (t : HostTree) (p : Path) : Decidable (HostHas t p) :=
  inferInstanceAs (Decidable (_ ∧ _))

instance (t : HostTree) : (op : Op) → Decidable (op.HostHas t)
  | .open path _ | .opendir path | .unlink path | .mkdir path =>
      inferInstanceAs (Decidable (HostHas t path))
  | .link oldpath newpath => inferInstanceAs (Decidable (HostHas t oldpath ∧ HostHas t newpath))
  | .mount _ _ => .isFalse id
  | .read _ _ _ | .write _ _ | .lseek _ _ _ | .close _ | .readdir _ | .closedir _ => .isTrue trivial

instance (s : State) (op : Op) : Decidable (HostCalls s op) :=
  inferInstanceAs (Decidable (op.HostHas _))

theorem HostRun.of_run {ok : State → Op → Prop} {s' : State} (h : Run hostfsIOps ok s s') :
    HostRun ok s s' :=
  h.mono fun _ _ ⟨op, r, hop, hcall, _⟩ => ⟨op, r, hop, hcall⟩

/-- `"/f"`, the one file of the host of `smallBoot`. -/
def pathF : Path := ⟨[slash, 102], by decide⟩

/-- The file has been opened, and another name is asked for. -/
theorem lookup_agrees_iff_open : ∃ s, HostRun HostCalls smallBoot.state s ∧
    (s.file 81920).any (fun f => f.status == .opened) = true ∧
    (HostAgrees smallBoot.state.mount s pathG ↔ s.hostNode pathG ≠ none) := by
  obtain ⟨s, hrun, hfile⟩ := run_with hostfsIOps HostCalls [.open pathF oRdwr] smallBoot.state
    (fun s => (s.file 81920).any fun f => f.status == .opened) (by decide +kernel)
  have hrun' := HostRun.of_run hrun
  exact ⟨s, hrun', hfile, lookup_agrees_iff (Boot.starts smallBoot_boots) hrun' (by decide)⟩

end Pke
