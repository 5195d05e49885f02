import Pke.Cache
import Pke.Volume
import Pke.Runs

/-!
# The cached part of the directory tree

`TreeInv` ties the dentries in memory to the directory entries on disk:
below the mount point every cached name is a name on disk, in the
directory its parent dentry stands for, and a directory has one dentry at
most. It is kept by the changes of the cache, and by changes of the disk
that leave the names that are cached.

`Objs.mem` is what memory has of an inode: the vinode the table holds
for it.
-/

namespace Pke

/-- Where RFS is mounted: its super block, the dentry of the mount point, and
the root of the tree, which belongs to the host. -/
structure Mount where
  sb : Ptr
  root : Ptr
  rfsRoot : Ptr

namespace Objs

/-- The vinode the cache has for inode `n`. -/
def cached (o : Objs) (M : Mount) (n : Int) : Option Vinode :=
  (o.findV ⟨n, M.sb⟩).bind fun e => o.vinode e.value

def mem (o : Objs) (M : Mount) (n : Int) : Option Dinode := (o.cached M n).map Vinode.toDinode

def freemap (o : Objs) (M : Mount) : Nat → Int :=
  ((o.superBlock M.sb).map SuperBlock.freemap).getD fun _ => 0

end Objs

/-! ## Inodes in memory -/

variable {B : SuperBlock} {sb w node t : Ptr} {v : Vinode} {x : Dentry}

section

variable {M : Mount} {o : Objs}

theorem freemap_eq (hB : o.superBlock M.sb = some B) : o.freemap M = B.freemap := by
  simp [Objs.freemap, hB]

theorem freemap_withMap (B : SuperBlock) (m : Nat → Int) : (o.withMap M.sb B m).freemap M = m := by
  simp [Objs.freemap, Objs.withMap]

theorem CacheInv.withMap (h : CacheInv o) (B : SuperBlock) (m : Nat → Int) :
    CacheInv (o.withMap sb B m) := h.congr rfl rfl rfl rfl rfl

section

variable (hc : CacheInv o)

include hc

theorem cached_of_vinode (hw : o.vinode w = some v) (hsb : v.sb = M.sb) (hnum : 0 ≤ v.inum) :
    o.cached M v.inum = some v := by
  obtain ⟨e, he, rfl⟩ := hc.vhashed w v hw hnum
  have hkey : v.key = ⟨v.inum, M.sb⟩ := by rw [Vinode.key, hsb]
  rw [hkey] at he
  simp [Objs.cached, he, hw]

theorem vinode_of_cached {n : Int} (h : o.cached M n = some v) :
    ∃ w, o.vinode w = some v ∧ v.inum = n ∧ v.sb = M.sb := by
  obtain ⟨e, he, hv⟩ := Option.bind_eq_some_iff.mp h
  obtain ⟨u, hu, hkey, -⟩ := hc.findV_some he
  rw [hv] at hu
  obtain rfl := Option.some.inj hu
  exact ⟨e.value, hv, congrArg VinodeKey.inum hkey, congrArg VinodeKey.sb hkey⟩

theorem mem_of_vinode (hw : o.vinode w = some v) (hsb : v.sb = M.sb) (hnum : 0 ≤ v.inum) :
    o.mem M v.inum = some v.toDinode := by
  rw [Objs.mem, cached_of_vinode hc hw hsb hnum]
  rfl

/-- Away from the one vinode that changed, the mounted inodes are as they were. -/
theorem mem_frame {o' : Objs} {n : Int} (hfind : o'.findV ⟨n, M.sb⟩ = o.findV ⟨n, M.sb⟩)
    (hv : ∀ q, q ≠ w → o'.vinode q = o.vinode q) (hw : ∀ v, o.vinode w = some v → n ≠ v.inum) :
    o'.mem M n = o.mem M n := by
  unfold Objs.mem Objs.cached
  rw [hfind]
  cases hf : o.findV ⟨n, M.sb⟩ with
  | none => rfl
  | some e =>
      obtain ⟨u, hu, huk, -⟩ := hc.findV_some hf
      have hne : e.value ≠ w := fun heq =>
        hw u (heq ▸ hu) (congrArg VinodeKey.inum huk).symm
      rw [Option.bind_some, Option.bind_some, hv e.value hne]

theorem mem_setV (v' : Vinode) (hw : o.vinode w = some v) (hsb : v.sb = M.sb) (hnum : 0 ≤ v.inum) :
    (o.setV w v').mem M = upd (o.mem M) v.inum (some v'.toDinode) := by
  obtain ⟨e, he, rfl⟩ := hc.vhashed w v hw hnum
  have hkey : v.key = ⟨v.inum, M.sb⟩ := by rw [Vinode.key, hsb]
  rw [hkey] at he
  funext n
  by_cases hn : n = v.inum
  · subst hn
    rw [upd_self]
    have hlook : (o.setV e.value v').findV ⟨v.inum, M.sb⟩ = some e := he
    simp only [Objs.mem, Objs.cached, hlook, Option.bind_some]
    rw [show (o.setV e.value v').vinode e.value = some v' from upd_self _ _ _]
    rfl
  · rw [upd_ne hn]
    exact mem_frame hc rfl (fun _ hq => upd_ne hq) fun u hu => by
      rwa [← Option.some.inj (hw.symm.trans hu)]

/-- A change that is not kept on disk. -/
theorem mem_setV_same (v' : Vinode) (hw : o.vinode w = some v) (hsb : v.sb = M.sb)
    (hnum : 0 ≤ v.inum) (hsame : v'.toDinode = v.toDinode) : (o.setV w v').mem M = o.mem M := by
  rw [mem_setV hc v' hw hsb hnum, hsame]
  exact upd_eq_self (mem_of_vinode hc hw hsb hnum)

theorem mem_addV (hw : o.vinode w = none) (hsb : v.sb = M.sb) :
    (o.addV node w v).mem M = upd (o.mem M) v.inum (some v.toDinode) := by
  funext n
  by_cases hn : n = v.inum
  · subst hn
    unfold Objs.mem Objs.cached
    rw [findV_addV, upd_self, if_pos (by rw [Vinode.key, hsb]), Option.bind_some]
    rw [show (o.addV node w v).vinode w = some v from upd_self _ _ _]
    rfl
  · rw [upd_ne hn]
    refine mem_frame hc ?_ (fun _ hq => upd_ne hq) fun u hu => by rw [hw] at hu; cases hu
    rw [findV_addV, if_neg fun hk => hn (congrArg VinodeKey.inum hk).symm]

theorem mem_addHost {l : List Ptr} (hw : o.vinode w = none) :
    (o.addHost sb B w v l).mem M = o.mem M := by
  funext n
  exact mem_frame hc rfl (fun _ hq => upd_ne hq) fun u hu => by rw [hw] at hu; cases hu

theorem mem_dropV (hw : o.vinode w = some v) (hsb : v.sb = M.sb) :
    (o.dropV node w v).mem M = upd (o.mem M) v.inum none := by
  funext n
  by_cases hn : n = v.inum
  · subst hn
    unfold Objs.mem Objs.cached
    rw [findV_dropV hc.vwf, upd_self, if_pos (by rw [Vinode.key, hsb])]
    rfl
  · rw [upd_ne hn]
    refine mem_frame hc ?_ (fun _ hq => upd_ne hq) fun u hu => by
      rwa [← Option.some.inj (hw.symm.trans hu)]
    rw [findV_dropV hc.vwf, if_neg fun hk => hn (congrArg VinodeKey.inum hk).symm]

end

end

/-! ## The tree -/

structure TreeInv (M : Mount) (o : Objs) (ents : Int → List (Int × Name)) : Prop where
  zero : o.dentry 0 = none ∧ o.vinode 0 = none
  root : o.root = M.root
  rootD : ∃ x v, o.dentry M.root = some x ∧ o.vinode x.dentryInode = some v ∧
    v.iOps = .hostfs ∧ x.parent = 0
  rfsD : ∃ x v, o.dentry M.rfsRoot = some x ∧ o.vinode x.dentryInode = some v ∧
    v.iOps = .rfs ∧ v.inum = 0 ∧ x.key = ⟨M.root, ramdiskName⟩
  rfsV : ∀ w v, o.vinode w = some v → v.iOps = .rfs → v.sb = M.sb ∧ 0 ≤ v.inum
  hostV : ∀ w v, o.vinode w = some v → v.iOps = .hostfs →
    v.inum = -1 ∧ v.type = dirI ∧ v.sb ≠ M.sb
  kid : ∀ t x v, o.dentry t = some x → o.vinode x.dentryInode = some v → v.iOps = .rfs →
    t ≠ M.rfsRoot → ∃ p pv, o.dentry x.parent = some p ∧ o.vinode p.dentryInode = some pv ∧
      pv.iOps = .rfs ∧ (v.inum, x.name) ∈ ents pv.inum
  hostKid : ∀ t x v, o.dentry t = some x → o.vinode x.dentryInode = some v → v.iOps = .hostfs →
    x.parent = 0 ∨ x.parent = M.root
  oneDir : ∀ t t' x x' v, o.dentry t = some x → o.dentry t' = some x' →
    x.dentryInode = x'.dentryInode → o.vinode x.dentryInode = some v → v.iOps = .rfs →
    v.type = rDir → t = t'

namespace TreeInv

variable {M : Mount} {o : Objs} {ents ents' : Int → List (Int × Name)}

section

variable (h : TreeInv M o ents)

include h

/-- The names that are cached stay on disk. -/
theorem ofEnts
    (hkeep : ∀ t x v p pv, o.dentry t = some x → o.vinode x.dentryInode = some v →
      v.iOps = .rfs → o.dentry x.parent = some p → o.vinode p.dentryInode = some pv →
      pv.iOps = .rfs → (v.inum, x.name) ∈ ents pv.inum → (v.inum, x.name) ∈ ents' pv.inum) :
    TreeInv M o ents' := by
  refine ⟨h.zero, h.root, h.rootD, h.rfsD, h.rfsV, h.hostV, fun t x v ht hv hrfs hne => ?_,
    h.hostKid, h.oneDir⟩
  obtain ⟨p, pv, hp, hpv, hprfs, hmem⟩ := h.kid t x v ht hv hrfs hne
  exact ⟨p, pv, hp, hpv, hprfs, hkeep t x v p pv ht hv hrfs hp hpv hprfs hmem⟩

/-- A new name on disk. -/
theorem append (q : Int) (e : Int × Name) : TreeInv M o (upd ents q (ents q ++ [e])) := by
  refine h.ofEnts fun t x v p pv _ _ _ _ _ _ hmem => ?_
  rcases eq_or_ne pv.inum q with rfl | hne
  · rw [upd_self]
    exact List.mem_append_left _ hmem
  · rw [upd_ne hne]
    exact hmem

theorem setV (v' : Vinode) (hw : o.vinode w = some v) (hkey : v'.key = v.key)
    (hops : v'.iOps = v.iOps) (htype : v'.type = v.type) : TreeInv M (o.setV w v') ents := by
  have hinum : v'.inum = v.inum := congrArg VinodeKey.inum hkey
  have hsb : v'.sb = v.sb := congrArg VinodeKey.sb hkey
  have hback : ∀ {q u}, (o.setV w v').vinode q = some u → ∃ u', o.vinode q = some u' ∧
      u.inum = u'.inum ∧ u.sb = u'.sb ∧ u.iOps = u'.iOps ∧ u.type = u'.type := by
    intro q u hq
    rcases upd_some hq with ⟨rfl, rfl⟩ | ⟨-, heq⟩
    · exact ⟨v, hw, hinum, hsb, hops, htype⟩
    · exact ⟨u, heq, rfl, rfl, rfl, rfl⟩
  have hforth : ∀ {q u}, o.vinode q = some u → ∃ u', (o.setV w v').vinode q = some u' ∧
      u'.inum = u.inum ∧ u'.iOps = u.iOps := by
    intro q u hq
    by_cases hqw : q = w
    · subst hqw
      rw [hw] at hq
      obtain rfl := Option.some.inj hq
      exact ⟨v', upd_self _ _ _, hinum, hops⟩
    · exact ⟨u, (upd_ne hqw).trans hq, rfl, rfl⟩
  have hw0 : w ≠ 0 := ne_of_none h.zero.2 hw
  obtain ⟨rx, rv, hrx, hrv, hrops, hrpar⟩ := h.rootD
  obtain ⟨fx, fv, hfx, hfv, hfops, hfnum, hfkey⟩ := h.rfsD
  refine ⟨⟨h.zero.1, (upd_ne hw0.symm).trans h.zero.2⟩, h.root, ?_, ?_, fun q u hq hr => ?_,
    fun q u hq hh => ?_, fun t x u ht hu hr hne => ?_, fun t x u ht hu hh => ?_,
    fun t t' x x' u ht ht' heq hu hr hdir => ?_⟩
  · obtain ⟨rv', hrv', -, hops'⟩ := hforth hrv
    exact ⟨rx, rv', hrx, hrv', hops'.trans hrops, hrpar⟩
  · obtain ⟨fv', hfv', hnum', hops'⟩ := hforth hfv
    exact ⟨fx, fv', hfx, hfv', hops'.trans hfops, hnum'.trans hfnum, hfkey⟩
  · obtain ⟨u', hu', hn', hs', ho', -⟩ := hback hq
    obtain ⟨h1, h2⟩ := h.rfsV q u' hu' (ho' ▸ hr)
    exact ⟨hs'.trans h1, by omega⟩
  · obtain ⟨u', hu', hn', hs', ho', ht'⟩ := hback hq
    rw [hn', ht', hs']
    exact h.hostV q u' hu' (ho' ▸ hh)
  · obtain ⟨u', hu', hn', -, ho', -⟩ := hback hu
    obtain ⟨p, pv, hp, hpv, hpr, hmem⟩ := h.kid t x u' ht hu' (ho' ▸ hr) hne
    obtain ⟨pv', hpv', hpn, hpo⟩ := hforth hpv
    exact ⟨p, pv', hp, hpv', hpo.trans hpr, by rw [hn', hpn]; exact hmem⟩
  · obtain ⟨u', hu', -, -, ho', -⟩ := hback hu
    exact h.hostKid t x u' ht hu' (ho' ▸ hh)
  · obtain ⟨u', hu', -, -, ho', ht'y⟩ := hback hu
    exact h.oneDir t t' x x' u' ht ht' heq hu' (ho' ▸ hr) (ht'y ▸ hdir)

theorem setD (x' : Dentry) (ht : o.dentry t = some x) (hkey : x'.key = x.key)
    (hino : x'.dentryInode = x.dentryInode) : TreeInv M (o.setD t x') ents := by
  have hpar : x'.parent = x.parent := congrArg DentryKey.parent hkey
  have hname : x'.name = x.name := congrArg DentryKey.name hkey
  have hback : ∀ {q y}, (o.setD t x').dentry q = some y → ∃ y', o.dentry q = some y' ∧
      y.parent = y'.parent ∧ y.name = y'.name ∧ y.dentryInode = y'.dentryInode := by
    intro q y hq
    rcases upd_some hq with ⟨rfl, rfl⟩ | ⟨-, heq⟩
    · exact ⟨x, ht, hpar, hname, hino⟩
    · exact ⟨y, heq, rfl, rfl, rfl⟩
  have hforth : ∀ {q y}, o.dentry q = some y → ∃ y', (o.setD t x').dentry q = some y' ∧
      y'.key = y.key ∧ y'.dentryInode = y.dentryInode := by
    intro q y hq
    by_cases hqt : q = t
    · subst hqt
      rw [ht] at hq
      obtain rfl := Option.some.inj hq
      exact ⟨x', upd_self _ _ _, hkey, hino⟩
    · exact ⟨y, (upd_ne hqt).trans hq, rfl, rfl⟩
  have ht0 : t ≠ 0 := ne_of_none h.zero.1 ht
  obtain ⟨rx, rv, hrx, hrv, hrops, hrpar⟩ := h.rootD
  obtain ⟨fx, fv, hfx, hfv, hfops, hfnum, hfkey⟩ := h.rfsD
  refine ⟨⟨(upd_ne ht0.symm).trans h.zero.1, h.zero.2⟩, h.root, ?_, ?_, h.rfsV, h.hostV,
    fun q y u hq hu hr hne => ?_, fun q y u hq hu hh => ?_,
    fun q q' y y' u hq hq' heq hu hr hdir => ?_⟩
  · obtain ⟨rx', hrx', hk', hi'⟩ := hforth hrx
    refine ⟨rx', rv, hrx', hi' ▸ hrv, hrops, ?_⟩
    rw [show rx'.parent = rx.parent from congrArg DentryKey.parent hk', hrpar]
  · obtain ⟨fx', hfx', hk', hi'⟩ := hforth hfx
    exact ⟨fx', fv, hfx', hi' ▸ hfv, hfops, hfnum, hk'.trans hfkey⟩
  · obtain ⟨y', hy', hp', hn', hi'⟩ := hback hq
    obtain ⟨p, pv, hp, hpv, hpr, hmem⟩ := h.kid q y' u hy' (hi' ▸ hu) hr hne
    obtain ⟨p', hp'', -, hpi⟩ := hforth hp
    exact ⟨p', pv, hp' ▸ hp'', hpi ▸ hpv, hpr, by rw [hn']; exact hmem⟩
  · obtain ⟨y', hy', hp', -, hi'⟩ := hback hq
    rw [hp']
    exact h.hostKid q y' u hy' (hi' ▸ hu) hh
  · obtain ⟨z, hz, -, -, hi⟩ := hback hq
    obtain ⟨z', hz', -, -, hi'⟩ := hback hq'
    exact h.oneDir q q' z z' u hz hz' (hi ▸ hi' ▸ heq) (hi ▸ hu) hr hdir

/-- Only the dentries, the vinodes and the root matter. -/
theorem congr {o' : Objs} (hd : o'.dentry = o.dentry) (hv : o'.vinode = o.vinode)
    (hr : o'.root = o.root) : TreeInv M o' ents := by
  obtain ⟨d, v, f, s, n, db, dc, dh, vh, r, sl, dl⟩ := o'
  obtain rfl : d = o.dentry := hd
  obtain rfl : v = o.vinode := hv
  obtain rfl : r = o.root := hr
  exact ⟨h.zero, h.root, h.rootD, h.rfsD, h.rfsV, h.hostV, h.kid, h.hostKid, h.oneDir⟩

theorem withMap (B : SuperBlock) (m : Nat → Int) :
    TreeInv M (o.withMap sb B m) ents := h.congr rfl rfl rfl

/-- A new vinode, which no dentry points to. -/
theorem newV (hc : CacheInv o) (hw : o.vinode w = none) (hw0 : w ≠ 0)
    (hrfs : v.iOps = .rfs → v.sb = M.sb ∧ 0 ≤ v.inum)
    (hhost : v.iOps = .hostfs → v.inum = -1 ∧ v.type = dirI ∧ v.sb ≠ M.sb) :
    TreeInv M (o.setV w v) ents := by
  have hforth : ∀ {q u}, o.vinode q = some u → (o.setV w v).vinode q = some u := by
    intro q u hq
    exact upd_fresh hw hq
  have hback : ∀ {t x u}, o.dentry t = some x → (o.setV w v).vinode x.dentryInode = some u →
      o.vinode x.dentryInode = some u := by
    intro t x u ht hu
    obtain ⟨u', hu'⟩ := hc.inode t x ht
    rw [hforth hu'] at hu
    rw [hu', Option.some.inj hu]
  obtain ⟨rx, rv, hrx, hrv, hrops, hrpar⟩ := h.rootD
  obtain ⟨fx, fv, hfx, hfv, hfops, hfnum, hfkey⟩ := h.rfsD
  refine ⟨⟨h.zero.1, (upd_ne hw0.symm).trans h.zero.2⟩, h.root,
    ⟨rx, rv, hrx, hforth hrv, hrops, hrpar⟩, ⟨fx, fv, hfx, hforth hfv, hfops, hfnum, hfkey⟩,
    fun q u hq hr => ?_, fun q u hq hh => ?_, fun t x u ht hu hr hne => ?_,
    fun t x u ht hu hh => h.hostKid t x u ht (hback ht hu) hh,
    fun t t' x x' u ht ht' heq hu hr hdir => h.oneDir t t' x x' u ht ht' heq (hback ht hu) hr hdir⟩
  · rcases upd_some hq with ⟨-, rfl⟩ | ⟨-, hq'⟩
    · exact hrfs hr
    · exact h.rfsV q u hq' hr
  · rcases upd_some hq with ⟨-, rfl⟩ | ⟨-, hq'⟩
    · exact hhost hh
    · exact h.hostV q u hq' hh
  · obtain ⟨p, pv, hp, hpv, hpr, hmem⟩ := h.kid t x u ht (hback ht hu) hr hne
    exact ⟨p, pv, hp, hforth hpv, hpr, hmem⟩

theorem addV (hc : CacheInv o) (hw : o.vinode w = none) (hw0 : w ≠ 0) (hops : v.iOps = .rfs)
    (hsb : v.sb = M.sb) (hnum : 0 ≤ v.inum) : TreeInv M (o.addV node w v) ents :=
  (h.newV hc hw hw0 (fun _ => ⟨hsb, hnum⟩) fun hh => by rw [hops] at hh; cases hh).congr rfl rfl rfl

/-- The root vinode of another host file system, and its dentry at the top. -/
theorem addHost (hc : CacheInv o) {l : List Ptr} (hw : o.vinode w = none) (hw0 : w ≠ 0)
    (hops : v.iOps = .hostfs) (hnum : v.inum = -1) (htype : v.type = dirI) (hsb : v.sb ≠ M.sb) :
    TreeInv M (o.addHost sb B w v l) ents :=
  (h.newV hc hw hw0 (fun hr => by rw [hops] at hr; cases hr) fun _ => ⟨hnum, htype, hsb⟩).congr
    rfl rfl rfl

theorem dropV (hfree : ∀ t x, o.dentry t = some x → x.dentryInode ≠ w) :
    TreeInv M (o.dropV node w v) ents := by
  have hback : ∀ {q u}, (o.dropV node w v).vinode q = some u → o.vinode q = some u := by
    intro q u hq
    obtain ⟨-, hq'⟩ := upd_none hq
    exact hq'
  have hforth : ∀ {t x u}, o.dentry t = some x → o.vinode x.dentryInode = some u →
      (o.dropV node w v).vinode x.dentryInode = some u :=
    fun ht hu => (upd_ne (hfree _ _ ht)).trans hu
  obtain ⟨rx, rv, hrx, hrv, hrops, hrpar⟩ := h.rootD
  obtain ⟨fx, fv, hfx, hfv, hfops, hfnum, hfkey⟩ := h.rfsD
  refine ⟨⟨h.zero.1, ?_⟩, h.root, ⟨rx, rv, hrx, hforth hrx hrv, hrops, hrpar⟩,
    ⟨fx, fv, hfx, hforth hfx hfv, hfops, hfnum, hfkey⟩, fun q u hq => h.rfsV q u (hback hq),
    fun q u hq => h.hostV q u (hback hq), fun t x u ht hu hr hne => ?_,
    fun t x u ht hu => h.hostKid t x u ht (hback hu),
    fun t t' x x' u ht ht' heq hu => h.oneDir t t' x x' u ht ht' heq (hback hu)⟩
  · by_cases h0 : 0 = w
    · subst h0
      exact upd_self o.vinode 0 none
    · exact (upd_ne h0).trans h.zero.2
  · obtain ⟨p, pv, hp, hpv, hpr, hmem⟩ := h.kid t x u ht (hback hu) hr hne
    exact ⟨p, pv, hp, hforth hp hpv, hpr, hmem⟩

/-- A new dentry, with what its vinode asks for. -/
theorem newD (ht : o.dentry t = none) (ht0 : t ≠ 0) (hv : o.vinode x.dentryInode = some v)
    (hrfs : v.iOps = .rfs → ∃ p pv, o.dentry x.parent = some p ∧ o.vinode p.dentryInode = some pv ∧
      pv.iOps = .rfs ∧ (v.inum, x.name) ∈ ents pv.inum)
    (hhost : v.iOps = .hostfs → x.parent = M.root)
    (hdir : v.iOps = .rfs → v.type = rDir →
      ∀ t' x', o.dentry t' = some x' → x'.dentryInode ≠ x.dentryInode) :
    TreeInv M (o.addD node t x) ents := by
  have hforth : ∀ {q y}, o.dentry q = some y → (o.addD node t x).dentry q = some y := by
    intro q y hq
    exact upd_fresh ht hq
  obtain ⟨rx, rv, hrx, hrv, hrops, hrpar⟩ := h.rootD
  obtain ⟨fx, fv, hfx, hfv, hfops, hfnum, hfkey⟩ := h.rfsD
  refine ⟨⟨(upd_ne ht0.symm).trans h.zero.1, h.zero.2⟩, h.root,
    ⟨rx, rv, hforth hrx, hrv, hrops, hrpar⟩, ⟨fx, fv, hforth hfx, hfv, hfops, hfnum, hfkey⟩,
    h.rfsV, h.hostV, fun q y u hq hu hr hne => ?_, fun q y u hq hu hh => ?_,
    fun q q' y y' u hq hq' heq hu hr hd => ?_⟩
  · rcases upd_some hq with ⟨-, rfl⟩ | ⟨-, hq'⟩
    · obtain rfl : v = u := Option.some.inj (hv.symm.trans hu)
      obtain ⟨p, pv, hp, hrest⟩ := hrfs hr
      exact ⟨p, pv, hforth hp, hrest⟩
    · obtain ⟨p', pv', hp', hpv', hpr, hmem'⟩ := h.kid q y u hq' hu hr hne
      exact ⟨p', pv', hforth hp', hpv', hpr, hmem'⟩
  · rcases upd_some hq with ⟨-, rfl⟩ | ⟨-, hq'⟩
    · obtain rfl : v = u := Option.some.inj (hv.symm.trans hu)
      exact .inr (hhost hh)
    · exact h.hostKid q y u hq' hu hh
  · rcases upd_cases hq with ⟨rfl, hqx⟩ | ⟨-, hqo⟩
    · obtain rfl := Option.some.inj hqx
      obtain rfl : v = u := Option.some.inj (hv.symm.trans hu)
      rcases upd_cases hq' with ⟨rfl, -⟩ | ⟨-, hqo'⟩
      · rfl
      · exact absurd heq.symm (hdir hr hd q' y' hqo')
    · rcases upd_cases hq' with ⟨rfl, hqx'⟩ | ⟨-, hqo'⟩
      · obtain rfl := Option.some.inj hqx'
        rw [heq] at hu
        obtain rfl : v = u := Option.some.inj (hv.symm.trans hu)
        exact absurd heq (hdir hr hd q y hqo)
      · exact h.oneDir q q' y y' u hqo hqo' heq hu hr hd

theorem addHostD (ht : o.dentry t = none) (ht0 : t ≠ 0) (hv : o.vinode x.dentryInode = some v)
    (hops : v.iOps = .hostfs) (hpar : x.parent = M.root) : TreeInv M (o.addD node t x) ents := by
  have hne : v.iOps ≠ .rfs := fun hr => by rw [hops] at hr; cases hr
  exact h.newD ht ht0 hv (fun hr => absurd hr hne) (fun _ => hpar) fun hr => absurd hr hne

/-- A name that is on disk enters the cache. -/
theorem addD {p : Dentry} {pv : Vinode} (ht : o.dentry t = none) (ht0 : t ≠ 0)
    (hv : o.vinode x.dentryInode = some v) (hops : v.iOps = .rfs) (hp : o.dentry x.parent = some p)
    (hpv : o.vinode p.dentryInode = some pv) (hpops : pv.iOps = .rfs)
    (hmem : (v.inum, x.name) ∈ ents pv.inum)
    (hdir : v.type = rDir → ∀ t' x', o.dentry t' = some x' → x'.dentryInode ≠ x.dentryInode) :
    TreeInv M (o.addD node t x) ents :=
  h.newD ht ht0 hv (fun _ => ⟨p, pv, hp, hpv, hpops, hmem⟩) (fun hh => by rw [hops] at hh; cases hh)
    fun _ => hdir

/-- A name without names below it leaves the cache. -/
theorem dropD (hroot : t ≠ M.root) (hrfs : t ≠ M.rfsRoot)
    (hleaf : ∀ t' x', o.dentry t' = some x' → x'.parent ≠ t) :
    TreeInv M (o.dropD node t x) ents := by
  have hback : ∀ {q y}, (o.dropD node t x).dentry q = some y → o.dentry q = some y := by
    intro q y hq
    obtain ⟨-, hq'⟩ := upd_none hq
    exact hq'
  have hforth : ∀ {q y}, q ≠ t → o.dentry q = some y → (o.dropD node t x).dentry q = some y :=
    fun hqt hq => (upd_ne hqt).trans hq
  obtain ⟨rx, rv, hrx, hrv, hrops, hrpar⟩ := h.rootD
  obtain ⟨fx, fv, hfx, hfv, hfops, hfnum, hfkey⟩ := h.rfsD
  refine ⟨⟨?_, h.zero.2⟩, h.root, ⟨rx, rv, hforth hroot.symm hrx, hrv, hrops, hrpar⟩,
    ⟨fx, fv, hforth hrfs.symm hfx, hfv, hfops, hfnum, hfkey⟩, h.rfsV, h.hostV,
    fun q y u hq hu hr hne => ?_, fun q y u hq => h.hostKid q y u (hback hq),
    fun q q' y y' u hq hq' => h.oneDir q q' y y' u (hback hq) (hback hq')⟩
  · by_cases h0 : 0 = t
    · subst h0
      exact upd_self o.dentry 0 none
    · exact (upd_ne h0).trans h.zero.1
  · obtain ⟨p, pv, hp, hpv, hpr, hmem⟩ := h.kid q y u (hback hq) hu hr hne
    exact ⟨p, pv, hforth (hleaf q y (hback hq)) hp, hpv, hpr, hmem⟩

end

end TreeInv

end Pke
