import Pke.Tree
import Pke.VolStep

/-!
# The invariant of the file system, and the changes that keep it

`Inv` is everything the file system maintains between two calls, over
the objects in memory and the blocks of the disk. `Change` lists the
elementary changes the calls are made of: a vinode is loaded, a name is
bound to it, an inode is created with its first name, and so on. Each
keeps the invariant (`Change.inv`), and so does any sequence of them.
What the calls do is then said once, as a sequence of changes, and every
property of all runs is an induction over `Change`.
-/

namespace Pke

/-- The volume of a state. -/
def Objs.vol (o : Objs) (M : Mount) (d : Nat → Block) : Vol :=
  ⟨diskInode d, o.freemap M, o.mem M, dirEnts d⟩

structure Inv (M : Mount) (o : Objs) (d : Nat → Block) : Prop where
  cache : CacheInv o
  tree : TreeInv M o (dirEnts d)
  sb : ∃ B, o.superBlock M.sb = some B ∧ B.nblocks = 100
  vol : (o.vol M d).Inv
  files : ∀ p f, o.file p = some f → 0 ≤ f.offset
  copies : ∀ p c, o.dirCache p = some c → c.blockCount = 1

variable {o : Objs} {w t pw lw : Ptr} {v pv lv : Vinode} {x p : Dentry} {n : Int} {k : Nat}
  {name : Name}

theorem Inv.blocks {M : Mount} {d : Nat → Block} (h : Inv M o d) :
    BlockInv (diskInode d) (o.freemap M) (o.mem M) := h.vol.blocks

theorem Inv.links {M : Mount} {d : Nat → Block} (h : Inv M o d) :
    LinkInv (inodeTypes (diskInode d)) (inodeLinks (diskInode d)) (dirEnts d) := h.vol.links

/-- An open file goes through the vinode at `w`. -/
def Objs.Uses (o : Objs) (w : Ptr) : Prop :=
  ∃ p f x, o.file p = some f ∧ f.status = .opened ∧ o.dentry f.fDentry = some x ∧
    x.dentryInode = w

/-- The descriptor at `p` is open and goes to inode `n`. -/
def Objs.GoesTo (o : Objs) (p : Ptr) (n : Int) : Prop :=
  ∃ f x v, o.file p = some f ∧ f.status = .opened ∧ o.dentry f.fDentry = some x ∧
    o.vinode x.dentryInode = some v ∧ v.iOps = .rfs ∧ v.inum = n

def Objs.OpenNum (o : Objs) (n : Int) : Prop := ∃ p, o.GoesTo p n

theorem Objs.Uses.openNum (h : o.Uses w) (hw : o.vinode w = some v) (hrfs : v.iOps = .rfs) :
    o.OpenNum v.inum := by
  obtain ⟨p, f, x, hf, hst, hx, rfl⟩ := h
  exact ⟨p, f, x, v, hf, hst, hx, hw, hrfs, rfl⟩

/-- The descriptor at `p` is open on the dentry at `t`. -/
def Objs.OpenOn (o : Objs) (t p : Ptr) : Prop :=
  ∃ f, o.file p = some f ∧ f.status = .opened ∧ f.fDentry = t

/-- The descriptor at `p` reads the directory `v` at `w`. -/
def Objs.Reads (o : Objs) (p w : Ptr) (v : Vinode) : Prop :=
  v.type = dirI ∧ o.vinode w = some v ∧ ∃ t x, o.OpenOn t p ∧ o.dentry t = some x ∧
    x.dentryInode = w

/-- The copy of the directory `v` is in memory. -/
def Objs.HasCopy (o : Objs) (v : Vinode) : Prop :=
  ∃ c blk, o.dirCache v.iFsInfo = some c ∧ o.dirBlock c.dirBaseAddr = some blk

/-- The block `blk` of the directory at `w` is copied to `base`, and the cache at
`p` refers to it. -/
def Objs.addCopy (o : Objs) (w : Ptr) (v : Vinode) (p base : Ptr) (blk : Block) : Objs :=
  { o.setV w { v with iFsInfo := p } with
    dirBlock := upd o.dirBlock base (some blk)
    dirCache := upd o.dirCache p (some ⟨v.blocks, base⟩) }

/-- How careful the callers are: `fds` says that descriptors are used until they
are closed and not after, `paths` that no path goes through a file, `dirs` that
the copy of a directory is freed when nobody reads it any more, `still` that no
descriptor is moved or closed and no directory is opened, and `held` that no
descriptor is closed. -/
structure Care where
  fds : Prop
  paths : Prop
  dirs : Prop
  still : Prop
  held : Prop

/-- Callers that promise nothing of this. -/
abbrev Care.none : Care := ⟨False, False, False, False, False⟩

/-- The elementary changes. -/
inductive Change (M : Mount) (care : Care) (o : Objs) (d : Nat → Block) :
    Objs → (Nat → Block) → Prop
  | load (n : Int) (w node : Ptr) (hlive : Live (diskInode d) n)
      (hnew : o.findV ⟨n, M.sb⟩ = none) (hw : o.vinode w = none) (hw0 : w ≠ 0)
      (hnode : o.hashNode node = none) :
      Change M care o d (o.addV node w (loadedVinode M.sb n (diskInode d n))) d
  | bind (node t : Ptr) (x p : Dentry) (v pv : Vinode) (ht : o.dentry t = none) (ht0 : t ≠ 0)
      (hnode : o.hashNode node = none) (hnew : o.findD x.key = none) (href : x.dRef = 0)
      (hv : o.vinode x.dentryInode = some v) (hrfs : v.iOps = .rfs)
      (hp : o.dentry x.parent = some p) (hpv : o.vinode p.dentryInode = some pv)
      (hprfs : pv.iOps = .rfs) (hent : (v.inum, x.name) ∈ dirEnts d pv.inum) :
      Change M care o d ((o.setV x.dentryInode { v with ref := v.ref + 1 }).addD node t x) d
  | create (pw w node : Ptr) (pv : Vinode) (B : SuperBlock) (n : Int) (k : Nat) (type : Int)
      (name : Name) (hpv : o.vinode pw = some pv) (hprfs : pv.iOps = .rfs)
      (hdir : pv.type = dirI) (hroom : pv.HasRoom) (hname : NameOk name)
      (hnew : ∀ e ∈ dirEnts d pv.inum, e.2 ≠ name) (htype : type = rFile ∨ type = rDir)
      (hn : InodeNum n) (hfree : (diskInode d n).type = rFree) (hk : k < 100)
      (hB : o.superBlock M.sb = some B) (hzero : B.freemap k = 0) (hw : o.vinode w = none)
      (hw0 : w ≠ 0) (hnode : o.hashNode node = none) :
      Change M care o d
        (((o.withMap M.sb B (upd B.freemap k 1)).setV pw { pv with size := pv.size + 32 }).addV
          node w (loadedVinode M.sb n (freshInode type (12 + k) (diskInode d n).addrs)))
        (addEntry (writeInode d (freshInode type (12 + k) (diskInode d n).addrs) n) pv name n)
  | orphan (B : SuperBlock) (n : Int) (k : Nat) (hloose : ¬care.paths) (hn : InodeNum n)
      (hfree : (diskInode d n).type = rFree) (hk : k < 100) (hB : o.superBlock M.sb = some B)
      (hzero : B.freemap k = 0) :
      Change M care o d (o.withMap M.sb B (upd B.freemap k 1))
        (writeInode d (freshInode rDir (12 + k) (diskInode d n).addrs) n)
  | link (pw lw : Ptr) (pv lv : Vinode) (name : Name) (hpv : o.vinode pw = some pv)
      (hprfs : pv.iOps = .rfs) (hdir : pv.type = dirI) (hroom : pv.HasRoom)
      (hname : NameOk name) (hnew : ∀ e ∈ dirEnts d pv.inum, e.2 ≠ name)
      (hlv : o.vinode lw = some lv) (hlrfs : lv.iOps = .rfs) (hfile : lv.type = fileI) :
      Change M care o d
        ((o.setV lw { lv with nlinks := lv.nlinks + 1 }).setV pw { pv with size := pv.size + 32 })
        (writeInode (addEntry d pv name lv.inum) { lv with nlinks := lv.nlinks + 1 }.toDinode
          lv.inum)
  | unlink (pw lw : Ptr) (pv lv : Vinode) (k : Nat) (name : Name) (hpv : o.vinode pw = some pv)
      (hprfs : pv.iOps = .rfs) (hdir : pv.type = dirI) (hlv : o.vinode lw = some lv)
      (hlrfs : lv.iOps = .rfs) (hfile : lv.type = fileI)
      (hk : (dirEnts d pv.inum)[k]? = some (lv.inum, name))
      (hgone : ∀ t x p, o.dentry t = some x → o.dentry x.parent = some p →
        p.dentryInode = pw → x.name ≠ name) (hmore : lv.nlinks - 1 ≠ 0) :
      Change M care o d
        ((o.setV lw { lv with nlinks := lv.nlinks - 1 }).setV pw { pv with size := pv.size - 32 })
        (removeEntry (writeInode d (dropInode (diskInode d lv.inum) (lv.nlinks - 1)) lv.inum) pv k)
  | unlinkLast (pw lw : Ptr) (pv lv : Vinode) (B : SuperBlock) (k : Nat) (name : Name)
      (e : HashNode VinodeKey Ptr) (hpv : o.vinode pw = some pv) (hprfs : pv.iOps = .rfs)
      (hdir : pv.type = dirI) (hlv : o.vinode lw = some lv) (hlrfs : lv.iOps = .rfs)
      (hfile : lv.type = fileI) (hk : (dirEnts d pv.inum)[k]? = some (lv.inum, name))
      (hgone : ∀ t x p, o.dentry t = some x → o.dentry x.parent = some p →
        p.dentryInode = pw → x.name ≠ name) (hlast : lv.nlinks - 1 = 0) (href : lv.ref = 0)
      (he : o.findV lv.key = some e) (hB : o.superBlock M.sb = some B) :
      Change M care o d
        (((o.withMap M.sb B (clearBlocks (diskInode d lv.inum).addrs
          (diskInode d lv.inum).blocks.toNat 0 B.freemap)).setV pw
            { pv with size := pv.size - 32 }).dropV e.node lw lv)
        (removeEntry (writeInode d (dropInode (diskInode d lv.inum) 0) lv.inum) pv k)
  | drop (t : Ptr) (x : Dentry) (v : Vinode) (e : HashNode DentryKey Ptr)
      (ht : o.dentry t = some x) (hidle : x.dRef ≤ 0) (he : o.findD x.key = some e)
      (hv : o.vinode x.dentryInode = some v) (hrfs : v.iOps = .rfs) (hfile : v.type = fileI) :
      Change M care o d ((o.setV x.dentryInode { v with ref := v.ref - 1 }).dropD e.node t x) d
  | evict (w : Ptr) (v : Vinode) (e : HashNode VinodeKey Ptr) (hw : o.vinode w = some v)
      (hrfs : v.iOps = .rfs) (hfile : v.type = fileI) (href : v.ref = 0)
      (he : o.findV v.key = some e) (hheld : ¬care.held) :
      Change M care o d (o.dropV e.node w v) (writeInode d v.toDinode v.inum)
  | grow (w : Ptr) (v : Vinode) (B : SuperBlock) (k : Nat) (hw : o.vinode w = some v)
      (hrfs : v.iOps = .rfs) (hfile : v.type = fileI) (huse : care.fds → o.Uses w)
      (h10 : v.blocks < 10) (hk : k < 100) (hB : o.superBlock M.sb = some B)
      (hzero : B.freemap k = 0) :
      Change M care o d ((o.withMap M.sb B (upd B.freemap k 1)).setV w
        { v with
          addrs := fun j => if (j : Int) = v.blocks then 12 + (k : Int) else v.addrs j
          blocks := v.blocks + 1 }) d
  | data (w : Ptr) (v : Vinode) (i : Nat) (b : Block) (hw : o.vinode w = some v)
      (hrfs : v.iOps = .rfs) (hfile : v.type = fileI) (hi : (i : Int) < v.blocks) :
      Change M care o d o (upd d (addrOf v.addrs i).toNat b)
  | size (w : Ptr) (v : Vinode) (sz : Int) (hw : o.vinode w = some v) (hrfs : v.iOps = .rfs)
      (hfile : v.type = fileI) (huse : care.fds → o.Uses w) (h0 : v.size ≤ sz)
      (h1 : sz ≤ v.blocks * 4096) :
      Change M care o d (o.setV w { v with size := sz }) d
  | opened (file t : Ptr) (f : File) (x : Dentry) (hnew : o.file file = none)
      (ht : o.dentry t = some x) (hf : f.fDentry = t) (hopen : f.status = .opened)
      (hoff : f.offset = 0) (hfile : ∃ v, o.vinode x.dentryInode = some v ∧ v.iOps = .rfs ∧
        v.type = fileI) :
      Change M care o d
        { o.setD t { x with dRef := x.dRef + 1 } with file := upd o.file file (some f) } d
  | moved (file : Ptr) (f : File) (off : Int) (hf : o.file file = some f) (hoff : 0 ≤ off)
      (hin : off = f.offset ∨ ∀ x v, o.dentry f.fDentry = some x →
        o.vinode x.dentryInode = some v → v.type = fileI → off ≤ v.size) (hmay : ¬care.still) :
      Change M care o d { o with file := upd o.file file (some { f with offset := off }) } d
  | copied (p q : Ptr) (f : File) (hp : o.file p = some f) (hne : p ≠ q)
      (hq : ∀ g, o.file q = some g → g.status = .none) (hmay : ¬care.still) :
      Change M care o d { o with file := upd (upd o.file p none) q (some f) } d
  | closed (file : Ptr) (f : File) (x : Dentry) (hf : o.file file = some f)
      (hopen : care.fds → f.status = .opened) (hx : o.dentry f.fDentry = some x)
      (hmay : ¬care.still) (hheld : ¬care.held) :
      Change M care o d
        { o.setD f.fDentry { x with dRef := x.dRef - 1 } with
          file := upd o.file file (some { f with status := .none }) } d
  | dirOpened (file t : Ptr) (f : File) (x : Dentry) (v : Vinode) (p base : Ptr)
      (hnew : o.file file = none) (ht : o.dentry t = some x) (hf : f.fDentry = t)
      (hopen : f.status = .opened) (hoff : f.offset = 0)
      (hv : o.vinode x.dentryInode = some v) (hrfs : v.iOps = .rfs) (hdir : v.type = dirI)
      (hp : o.dirCache p = none) (hbase : o.dirBlock base = none) (hmay : ¬care.still) :
      Change M care o d
        { (o.addCopy x.dentryInode v p base (d (addrOf v.addrs 0).toNat)).setD t
            { x with dRef := x.dRef + 1 } with file := upd o.file file (some f) } d
  | dirFreed (w : Ptr) (v : Vinode) (c : DirCache) (hw : o.vinode w = some v)
      (hrfs : v.iOps = .rfs) (hc : o.dirCache v.iFsInfo = some c)
      (hsole : care.dirs → ∀ p u v' c', o.Reads p u v' → o.dirCache v'.iFsInfo = some c' →
        c'.dirBaseAddr ≠ c.dirBaseAddr) (hmay : ¬care.still) :
      Change M care o d { o with dirBlock := upd o.dirBlock c.dirBaseAddr none } d
  | hostMount (sb w t node : Ptr) (B : SuperBlock) (v : Vinode) (x : Dentry) (l : List Ptr)
      (hsb : o.superBlock sb = none) (hw : o.vinode w = none) (hw0 : w ≠ 0)
      (ht : o.dentry t = none) (ht0 : t ≠ 0) (hnode : o.hashNode node = none)
      (hnew : o.findD x.key = none) (hxw : x.dentryInode = w) (hpar : x.parent = M.root)
      (hidle : x.dRef = 0) (hhost : v.iOps = .hostfs) (hnum : v.inum = -1) (htype : v.type = dirI)
      (href : v.ref = 0) (hvsb : v.sb = sb) :
      Change M care o d
        (((o.addHost sb B w v l).setV w { v with ref := v.ref + 1 }).addD node t x) d

namespace Inv

variable {M : Mount} {o : Objs} {d : Nat → Block}

/-! ## What the invariant says of one vinode -/

section

variable (h : Inv M o d) {w : Ptr} {v : Vinode} (hw : o.vinode w = some v) (hrfs : v.iOps = .rfs)

include h hw hrfs

theorem mem_eq : o.mem M v.inum = some v.toDinode := by
  obtain ⟨hsb, hnum⟩ := h.tree.rfsV w v hw hrfs
  exact mem_of_vinode h.cache hw hsb hnum

theorem live : Live (diskInode d) v.inum := h.blocks.live_of_mem (h.mem_eq hw hrfs)

theorem num : InodeNum v.inum := h.blocks.num _ (h.live hw hrfs)

theorem shape : v.toDinode.Shape := h.vol.shape (h.mem_eq hw hrfs)

theorem type_eq : (diskInode d v.inum).type = v.type := h.vol.type_eq (h.mem_eq hw hrfs)

theorem nlinks_eq : (diskInode d v.inum).nlinks = v.nlinks := h.vol.nlinks_eq (h.mem_eq hw hrfs)

theorem dir_eq (hdir : v.type = dirI) : diskInode d v.inum = v.toDinode :=
  h.vol.dir_eq (h.mem_eq hw hrfs) hdir

theorem cur_eq : curInode (diskInode d) (o.mem M) v.inum = v.toDinode := by
  rw [curInode, h.mem_eq hw hrfs]
  rfl

theorem sb_eq : v.sb = M.sb := (h.tree.rfsV w v hw hrfs).1

theorem inum_nonneg : 0 ≤ v.inum := (h.tree.rfsV w v hw hrfs).2

/-- There is one vinode for an inode. -/
theorem same_ptr {w' : Ptr} {v' : Vinode} (hw' : o.vinode w' = some v') (hrfs' : v'.iOps = .rfs)
    (heq : v.inum = v'.inum) : w = w' := by
  refine h.cache.vinode_eq hw hw' (h.inum_nonneg hw hrfs) ?_
  rw [Vinode.key, Vinode.key, heq, h.sb_eq hw hrfs, h.sb_eq hw' hrfs']

end

/-- A file has no names below it. -/
theorem leaf (h : Inv M o d) (ht : o.dentry t = some x) (hv : o.vinode x.dentryInode = some v)
    (hrfs : v.iOps = .rfs) (hfile : v.type = fileI) (t' : Ptr) (x' : Dentry)
    (ht' : o.dentry t' = some x') : x'.parent ≠ t := by
  intro hpar
  obtain ⟨v', hv'⟩ := h.cache.inode t' x' ht'
  obtain ⟨rx, rv, hrx, hrv, hrhost, -⟩ := h.tree.rootD
  have hroot : t ≠ M.root := by
    rintro rfl
    rw [ht] at hrx
    obtain rfl := Option.some.inj hrx
    rw [hv] at hrv
    obtain rfl := Option.some.inj hrv
    rw [hrfs] at hrhost
    cases hrhost
  cases hops : v'.iOps with
  | hostfs =>
      rcases h.tree.hostKid t' x' v' ht' hv' hops with h0 | hr
      · rw [← hpar, h0, h.tree.zero.1] at ht
        cases ht
      · exact hroot (hpar.symm.trans hr)
  | rfs =>
      by_cases hrf : t' = M.rfsRoot
      · subst hrf
        obtain ⟨fx, -, hfx, -, -, -, hkey⟩ := h.tree.rfsD
        rw [ht'] at hfx
        obtain rfl := Option.some.inj hfx
        exact hroot (hpar.symm.trans (congrArg DentryKey.parent hkey))
      · obtain ⟨p, pv, hp, hpv, hpr, hmem⟩ := h.tree.kid t' x' v' ht' hv' hops hrf
        rw [hpar, ht] at hp
        obtain rfl := Option.some.inj hp
        rw [hv] at hpv
        obtain rfl := Option.some.inj hpv
        have hdir := (h.links.holder _ _ hmem).1
        rw [inodeTypes, h.type_eq hv hrfs, hfile] at hdir
        exact absurd hdir (by decide)

/-- A free inode is not in memory. -/
theorem findV_none (h : Inv M o d) (hn : ¬Live (diskInode d) n) : o.findV ⟨n, M.sb⟩ = none := by
  cases hf : o.findV ⟨n, M.sb⟩ with
  | none => rfl
  | some =>
      obtain ⟨v, hv, hk, hnum⟩ := h.cache.findV_some hf
      have hmem := mem_of_vinode h.cache hv (congrArg VinodeKey.sb hk) hnum
      rw [show v.inum = n from congrArg VinodeKey.inum hk, h.blocks.dead n hn] at hmem
      cases hmem

theorem mem_none (hf : o.findV ⟨n, M.sb⟩ = none) : o.mem M n = none := by
  simp [Objs.mem, Objs.cached, hf]

/-! ## Binding a name and forgetting it -/

section

variable (h : Inv M o d)

include h

/-- The dentries of an inode that has one name on disk all have that name. -/
theorem same_name {t' : Ptr} {x' : Dentry} (hone : Pke.links inodeNums (dirEnts d) v.inum ≤ 1)
    (hv : o.vinode x.dentryInode = some v) (hrfs : v.iOps = .rfs) (hp : o.dentry x.parent = some p)
    (hpv : o.vinode p.dentryInode = some pv) (hprfs : pv.iOps = .rfs)
    (hent : (v.inum, x.name) ∈ dirEnts d pv.inum) (ht' : o.dentry t' = some x')
    (heq : x'.dentryInode = x.dentryInode) : x'.key = x.key := by
  by_cases hroot : t' = M.rfsRoot
  · obtain ⟨fx, fv, hfx, hfv, -, hzero, -⟩ := h.tree.rfsD
    rw [← hroot, ht'] at hfx
    obtain rfl := Option.some.inj hfx
    rw [heq, hv] at hfv
    obtain rfl := Option.some.inj hfv
    have := (h.links.target _ _ hent).1
    omega
  · obtain ⟨p', pv', hp', hpv', hprfs', hent'⟩ := h.tree.kid t' x' v ht' (heq ▸ hv) hrfs hroot
    obtain ⟨hsame, hname⟩ := eq_of_links_le_one hone (mem_inodeNums.mpr (h.num hpv' hprfs'))
      (mem_inodeNums.mpr (h.num hpv hprfs)) hent' hent
    have hpp : p'.dentryInode = p.dentryInode := h.same_ptr hpv' hprfs' hpv hprfs hsame
    have hpdir : pv'.type = rDir := by
      rw [← h.type_eq hpv' hprfs']
      exact (h.links.holder _ _ hent').1
    have hpar : x'.parent = x.parent := h.tree.oneDir _ _ p' p pv' hp' hp hpp hpv' hprfs' hpdir
    rw [Dentry.key, Dentry.key, hpar, hname]

/-- A directory has one name on disk: when that name is not cached, the
directory has no dentry. -/
theorem unbound (hnew : o.findD x.key = none) (hv : o.vinode x.dentryInode = some v)
    (hrfs : v.iOps = .rfs) (hp : o.dentry x.parent = some p)
    (hpv : o.vinode p.dentryInode = some pv) (hprfs : pv.iOps = .rfs)
    (hent : (v.inum, x.name) ∈ dirEnts d pv.inum) (hdir : v.type = rDir) (t' : Ptr) (x' : Dentry)
    (ht' : o.dentry t' = some x') : x'.dentryInode ≠ x.dentryInode := by
  intro heq
  have hkind : inodeTypes (diskInode d) v.inum = rDir := (h.type_eq hv hrfs).trans hdir
  have hkey := h.same_name (h.links.dir _ hkind).2 hv hrfs hp hpv hprfs hent ht' heq
  obtain ⟨e, he, -⟩ := h.cache.dhashed t' x' ht'
  rw [hkey, hnew] at he
  cases he

theorem tree_bind {node : Ptr} (ht : o.dentry t = none) (ht0 : t ≠ 0) (hnew : o.findD x.key = none)
    (hv : o.vinode x.dentryInode = some v) (hrfs : v.iOps = .rfs) (hp : o.dentry x.parent = some p)
    (hpv : o.vinode p.dentryInode = some pv) (hprfs : pv.iOps = .rfs)
    (hent : (v.inum, x.name) ∈ dirEnts d pv.inum) :
    TreeInv M ((o.setV x.dentryInode { v with ref := v.ref + 1 }).addD node t x) (dirEnts d) := by
  have hv' : (o.setV x.dentryInode { v with ref := v.ref + 1 }).vinode x.dentryInode =
      some { v with ref := v.ref + 1 } := upd_self _ _ _
  obtain ⟨qv, hqv, hqops, hqnum⟩ : ∃ qv,
      (o.setV x.dentryInode { v with ref := v.ref + 1 }).vinode p.dentryInode = some qv ∧
        qv.iOps = .rfs ∧ qv.inum = pv.inum := by
    by_cases hpx : p.dentryInode = x.dentryInode
    · rw [hpx, hv] at hpv
      obtain rfl := Option.some.inj hpv
      exact ⟨_, (congrArg _ hpx).trans hv', hrfs, rfl⟩
    · exact ⟨pv, (upd_ne hpx).trans hpv, hprfs, rfl⟩
  have hone := h.unbound hnew hv hrfs hp hpv hprfs hent
  exact (h.tree.setV { v with ref := v.ref + 1 } hv rfl rfl rfl).addD ht ht0 hv' hrfs hp
    hqv hqops (by rw [hqnum]; exact hent) hone

/-- A file is neither root. -/
theorem not_mount (ht : o.dentry t = some x) (hv : o.vinode x.dentryInode = some v)
    (hrfs : v.iOps = .rfs) (hfile : v.type = fileI) : t ≠ M.root ∧ t ≠ M.rfsRoot := by
  constructor
  · rintro rfl
    obtain ⟨rx, rv, hrx, hrv, hrhost, -⟩ := h.tree.rootD
    rw [ht] at hrx
    obtain rfl := Option.some.inj hrx
    rw [hv] at hrv
    obtain rfl := Option.some.inj hrv
    rw [hrfs] at hrhost
    cases hrhost
  · rintro rfl
    obtain ⟨fx, fv, hfx, hfv, -, hzero, -⟩ := h.tree.rfsD
    rw [ht] at hfx
    obtain rfl := Option.some.inj hfx
    rw [hv] at hfv
    obtain rfl := Option.some.inj hfv
    have hdir := h.links.root
    rw [← hzero, inodeTypes, h.type_eq hv hrfs, hfile] at hdir
    exact absurd hdir (by decide)

theorem tree_drop {node : Ptr} (ht : o.dentry t = some x) (hv : o.vinode x.dentryInode = some v)
    (hrfs : v.iOps = .rfs) (hfile : v.type = fileI) :
    TreeInv M ((o.setV x.dentryInode { v with ref := v.ref - 1 }).dropD node t x) (dirEnts d) := by
  obtain ⟨hroot, hrfsRoot⟩ := h.not_mount ht hv hrfs hfile
  exact (h.tree.setV { v with ref := v.ref - 1 } hv rfl rfl rfl).dropD hroot hrfsRoot
    (h.leaf ht hv hrfs hfile)

/-- No dentry points to a vinode without references. -/
theorem unreferenced (hw : o.vinode w = some v) (href : v.ref = 0) (t : Ptr) (x : Dentry)
    (ht : o.dentry t = some x) : x.dentryInode ≠ w := by
  rintro rfl
  have hpos := h.cache.refCount_pos ht
  have := h.cache.ref _ v hw
  omega

/-- The cached names stay when another one is removed. -/
theorem tree_erase (hpv : o.vinode pw = some pv) (hprfs : pv.iOps = .rfs)
    (hk : (dirEnts d pv.inum)[k]? = some (n, name))
    (hgone : ∀ t x p, o.dentry t = some x → o.dentry x.parent = some p →
      p.dentryInode = pw → x.name ≠ name) :
    TreeInv M o (upd (dirEnts d) pv.inum ((dirEnts d pv.inum).eraseIdx k)) := by
  refine h.tree.ofEnts fun t x v p qv ht hv hrfs hp hqv hqrfs hmem => ?_
  rcases eq_or_ne qv.inum pv.inum with heq | hne
  · rw [heq] at hmem ⊢
    rw [upd_self]
    have hname := hgone t x p ht hp (h.same_ptr hqv hqrfs hpv hprfs heq)
    obtain ⟨i, hi⟩ := List.mem_iff_getElem?.mp hmem
    refine List.mem_eraseIdx_iff_getElem?.mpr ⟨i, fun hik => hname ?_, hi⟩
    rw [hik, hk] at hi
    exact (congrArg Prod.snd (Option.some.inj hi)).symm
  · rw [upd_ne hne]
    exact hmem

/-! ## What the changes do to the disk -/

/-- A directory and a file are two vinodes, of two inodes. -/
theorem ne_of_type (hpv : o.vinode pw = some pv) (hprfs : pv.iOps = .rfs) (hdir : pv.type = dirI)
    (hlv : o.vinode lw = some lv) (hlrfs : lv.iOps = .rfs) (hfile : lv.type = fileI) :
    pw ≠ lw ∧ pv.inum ≠ lv.inum := by
  have htype : pv.type ≠ lv.type := by
    rw [hdir, hfile]
    decide
  refine ⟨fun heq => htype ?_, fun heq => htype ?_⟩
  · rw [heq, hlv] at hpv
    rw [Option.some.inj hpv]
  · rw [← h.type_eq hpv hprfs, ← h.type_eq hlv hlrfs, heq]

/-- What memory has after two inodes have changed. -/
theorem mem_two (pv' lv' : Vinode) (hpv : o.vinode pw = some pv) (hprfs : pv.iOps = .rfs)
    (hlv : o.vinode lw = some lv) (hlrfs : lv.iOps = .rfs) (hne : pw ≠ lw) (hkey : lv'.key = lv.key)
    (href : lv'.ref = lv.ref) : ((o.setV lw lv').setV pw pv').mem M =
      upd (upd (o.mem M) lv.inum (some lv'.toDinode)) pv.inum (some pv'.toDinode) := by
  have hpv' : (o.setV lw lv').vinode pw = some pv := (upd_ne hne).trans hpv
  rw [mem_setV (h.cache.setV lv' hlv hkey href) pv' hpv' (h.sb_eq hpv hprfs)
    (h.inum_nonneg hpv hprfs), mem_setV h.cache lv' hlv (h.sb_eq hlv hlrfs)
    (h.inum_nonneg hlv hlrfs)]

theorem links_bound (hw : o.vinode w = some v) (hrfs : v.iOps = .rfs) (hfile : v.type = fileI) :
    1 ≤ v.nlinks ∧ v.nlinks ≤ 40960 := by
  rw [← h.nlinks_eq hw hrfs]
  exact h.vol.nlinks_bound ((h.type_eq hw hrfs).trans hfile)

/-- The bounds on a directory in memory, and where it is. -/
theorem dir_bounds (hw : o.vinode w = some v) (hrfs : v.iOps = .rfs) (hdir : v.type = dirI) :
    v.blocks = 1 ∧ (0 ≤ v.size ∧ v.size ≤ 4096) ∧ 32 ∣ v.size ∧
      12 ≤ addrOf v.addrs 0 ∧ addrOf v.addrs 0 < 112 := by
  obtain ⟨h0, h1, hdvd⟩ := h.vol.dir_size (h.mem_eq hw hrfs) hdir
  have hone : v.blocks = 1 := ((h.shape hw hrfs).dir hdir).1
  have hcur := h.cur_eq hw hrfs
  have hpos : ((0 : Nat) : Int) < (curInode (diskInode d) (o.mem M) v.inum).blocks := by
    rw [hcur]
    show (0 : Int) < v.blocks
    omega
  obtain ⟨hlo, hhi, -⟩ := h.blocks.owned v.inum 0 (h.live hw hrfs) hpos
  rw [hcur] at hlo hhi
  exact ⟨hone, ⟨h0, h1⟩, hdvd, hlo, hhi⟩

theorem fits_size (hw : o.vinode w = some v) (hrfs : v.iOps = .rfs) (size : Int) (h0 : -4096 ≤ size)
    (h1 : size ≤ 65536) : ({ v with size := size } : Vinode).toDinode.Fits := by
  have hf := (h.shape hw hrfs).fits
  refine Dinode.fits_mk ?_ hf.type hf.nlinks hf.blocks hf.addrs
  show IsInt32 size
  unfold IsInt32
  omega

theorem isInt32_inum (hw : o.vinode w = some v) (hrfs : v.iOps = .rfs) : IsInt32 v.inum := by
  have hn := h.num hw hrfs
  unfold InodeNum at hn
  unfold IsInt32
  omega

theorem disk_newInode {type : Int} (hn : InodeNum n) (hfree : (diskInode d n).type = rFree)
    (htype : type = rFile ∨ type = rDir) (hk : k < 100) :
    diskInode (writeInode d (freshInode type (12 + k) (diskInode d n).addrs) n) =
        upd (diskInode d) n (freshInode type (12 + k) (diskInode d n).addrs) ∧
      dirEnts (writeInode d (freshInode type (12 + k) (diskInode d n).addrs) n) = dirEnts d := by
  have hfresh := BlockInv.shape_freshInode htype hk (fits_diskInode d n).addrs
  refine ⟨diskInode_write hn hfresh.fits, ?_⟩
  rw [dirEnts_writeInode h.blocks.dirBlocks hn hfresh.fits fun _ => ?_]
  · refine upd_eq_self ?_
    rw [dirEnts_nil (by rw [hfree]; decide)]
    split <;> rfl
  · show (12 : Int) ≤ 12 + k
    omega

theorem disk_create {type : Int} (hpv : o.vinode pw = some pv) (hprfs : pv.iOps = .rfs)
    (hdir : pv.type = dirI) (hroom : pv.HasRoom) (hname : NameOk name) (hn : InodeNum n)
    (hfree : (diskInode d n).type = rFree) (htype : type = rFile ∨ type = rDir) (hk : k < 100)
    (hzero : o.freemap M k = 0) :
    diskInode (addEntry (writeInode d (freshInode type (12 + k) (diskInode d n).addrs) n)
        pv name n) =
      upd (upd (diskInode d) n (freshInode type (12 + k) (diskInode d n).addrs)) pv.inum
        { pv with size := pv.size + 32 }.toDinode ∧
    dirEnts (addEntry (writeInode d (freshInode type (12 + k) (diskInode d n).addrs) n)
        pv name n) = upd (dirEnts d) pv.inum (dirEnts d pv.inum ++ [(n, name)]) := by
  obtain ⟨-, ⟨hs0, hs1⟩, -, hlo, -⟩ := h.dir_bounds hpv hprfs hdir
  have hnlive : ¬Live (diskInode d) n := fun hl => hl hfree
  have hpn : pv.inum ≠ n := fun heq => hnlive (heq ▸ h.live hpv hprfs)
  have hfits := h.fits_size hpv hprfs (pv.size + 32) (by omega) (by omega)
  obtain ⟨hino, hents⟩ := h.disk_newInode hn hfree htype hk
  have hblocks := h.blocks.newInode hnlive hn htype hk hzero (fits_diskInode d n).addrs
  rw [← hino] at hblocks
  have hdisk : diskInode (writeInode d (freshInode type (12 + k) (diskInode d n).addrs) n) pv.inum =
      pv.toDinode := by
    rw [hino, upd_ne hpn, h.dir_eq hpv hprfs hdir]
  have hn32 : IsInt32 n := by
    unfold InodeNum at hn
    unfold IsInt32
    omega
  constructor
  · rw [diskInode_addEntry (h.num hpv hprfs) hlo hfits, hino]
  · rw [dirEnts_addEntry hblocks.dirBlocks (h.num hpv hprfs) hdisk hdir hs0 hroom hn32 hname hfits,
      hents]

theorem disk_link (hpv : o.vinode pw = some pv) (hprfs : pv.iOps = .rfs) (hdir : pv.type = dirI)
    (hroom : pv.HasRoom) (hname : NameOk name) (hlv : o.vinode lw = some lv)
    (hlrfs : lv.iOps = .rfs) (hfile : lv.type = fileI) :
    diskInode (writeInode (addEntry d pv name lv.inum)
        { lv with nlinks := lv.nlinks + 1 }.toDinode lv.inum) =
      upd (upd (diskInode d) pv.inum { pv with size := pv.size + 32 }.toDinode) lv.inum
        { lv with nlinks := lv.nlinks + 1 }.toDinode ∧
    dirEnts (writeInode (addEntry d pv name lv.inum)
        { lv with nlinks := lv.nlinks + 1 }.toDinode lv.inum) =
      upd (dirEnts d) pv.inum (dirEnts d pv.inum ++ [(lv.inum, name)]) := by
  obtain ⟨-, ⟨hs0, hs1⟩, -, hlo, -⟩ := h.dir_bounds hpv hprfs hdir
  have hfits := h.fits_size hpv hprfs (pv.size + 32) (by omega) (by omega)
  have hdisk := h.dir_eq hpv hprfs hdir
  have hino : diskInode (addEntry d pv name lv.inum) =
      upd (diskInode d) pv.inum { pv with size := pv.size + 32 }.toDinode :=
    diskInode_addEntry (h.num hpv hprfs) hlo hfits
  have hents := dirEnts_addEntry h.blocks.dirBlocks (h.num hpv hprfs) hdisk hdir hs0 hroom
    (h.isInt32_inum hlv hlrfs) hname hfits
  have hne := (h.ne_of_type hpv hprfs hdir hlv hlrfs hfile).2.symm
  have hbound := h.links_bound hlv hlrfs hfile
  have hlfits : ({ lv with nlinks := lv.nlinks + 1 } : Vinode).toDinode.Fits := by
    have hf := (h.shape hlv hlrfs).fits
    refine Dinode.fits_mk hf.size hf.type ?_ hf.blocks hf.addrs
    show IsInt32 (lv.nlinks + 1)
    unfold IsInt32
    omega
  have hblocks : DirBlocks (addEntry d pv name lv.inum) := by
    refine h.blocks.dirBlocks.mono fun m hm => ?_
    rw [hino] at hm ⊢
    rcases eq_or_ne m pv.inum with rfl | hmp
    · rw [upd_self, hdisk]
      exact ⟨hdir, rfl⟩
    · rw [upd_ne hmp] at hm ⊢
      exact ⟨hm, rfl⟩
  constructor
  · rw [diskInode_write (h.num hlv hlrfs) hlfits, hino]
  · rw [dirEnts_writeInode_file hblocks (h.num hlv hlrfs) hlfits, hents]
    · rw [hino, upd_ne hne, h.type_eq hlv hlrfs, hfile]
      decide
    · show lv.type ≠ rDir
      rw [hfile]
      decide

theorem disk_unlink (nl : Int) (hpv : o.vinode pw = some pv) (hprfs : pv.iOps = .rfs)
    (hdir : pv.type = dirI) (hlv : o.vinode lw = some lv) (hlrfs : lv.iOps = .rfs)
    (hfile : lv.type = fileI) (hk : (dirEnts d pv.inum)[k]? = some (lv.inum, name))
    (hnl : IsInt32 nl) :
    diskInode (removeEntry (writeInode d (dropInode (diskInode d lv.inum) nl) lv.inum) pv k) =
      upd (upd (diskInode d) lv.inum (dropInode (diskInode d lv.inum) nl)) pv.inum
        { pv with size := pv.size - 32 }.toDinode ∧
    dirEnts (removeEntry (writeInode d (dropInode (diskInode d lv.inum) nl) lv.inum) pv k) =
      upd (dirEnts d) pv.inum ((dirEnts d pv.inum).eraseIdx k) := by
  obtain ⟨-, hs, hdvd, hlo, -⟩ := h.dir_bounds hpv hprfs hdir
  have hfits := h.fits_size hpv hprfs (pv.size - 32) (by omega) (by omega)
  have hdisk := h.dir_eq hpv hprfs hdir
  have hldisk : (diskInode d lv.inum).type = fileI := (h.type_eq hlv hlrfs).trans hfile
  have hne := (h.ne_of_type hpv hprfs hdir hlv hlrfs hfile).2
  have hnodir : (dropInode (diskInode d lv.inum) nl).type ≠ rDir := by
    show (if nl = 0 then rFree else (diskInode d lv.inum).type) ≠ rDir
    rw [hldisk]
    split <;> decide
  have hdfits : (dropInode (diskInode d lv.inum) nl).Fits := by
    have hf := fits_diskInode d lv.inum
    refine Dinode.fits_mk hf.size ?_ hnl hf.blocks hf.addrs
    show IsInt32 (if nl = 0 then rFree else (diskInode d lv.inum).type)
    rw [hldisk]
    split <;> decide
  have hino := diskInode_write (d := d) (h.num hlv hlrfs) hdfits
  have hents := dirEnts_writeInode_file h.blocks.dirBlocks (h.num hlv hlrfs) hdfits
    (by rw [hldisk]; decide) hnodir
  have hblocks : DirBlocks (writeInode d (dropInode (diskInode d lv.inum) nl) lv.inum) := by
    refine h.blocks.dirBlocks.mono fun m hm => ?_
    rw [hino] at hm ⊢
    rcases eq_or_ne m lv.inum with rfl | hml
    · rw [upd_self] at hm
      exact absurd hm hnodir
    · rw [upd_ne hml] at hm ⊢
      exact ⟨hm, rfl⟩
  have hdisk' : diskInode (writeInode d (dropInode (diskInode d lv.inum) nl) lv.inum) pv.inum =
      pv.toDinode := by
    rw [hino, upd_ne hne, hdisk]
  have hcount : k < direntryCount pv.size := by
    have hlen := h.vol.count pv.inum ((h.type_eq hpv hprfs).trans hdir)
    obtain ⟨hlt, -⟩ := List.getElem?_eq_some_iff.mp hk
    change (dirEnts d pv.inum).length = direntryCount (diskInode d pv.inum).size at hlen
    rw [hdisk] at hlen
    exact hlen ▸ hlt
  constructor
  · rw [diskInode_removeEntry (h.num hpv hprfs) hlo hfits, hino]
  · rw [dirEnts_removeEntry hblocks (h.num hpv hprfs) hdisk' hdir hs hdvd hcount hfits, hents]

theorem disk_evict (hw : o.vinode w = some v) (hrfs : v.iOps = .rfs) (hfile : v.type = fileI) :
    diskInode (writeInode d v.toDinode v.inum) = upd (diskInode d) v.inum v.toDinode ∧
      dirEnts (writeInode d v.toDinode v.inum) = dirEnts d := by
  have hfits := (h.shape hw hrfs).fits
  refine ⟨diskInode_write (h.num hw hrfs) hfits, ?_⟩
  refine dirEnts_writeInode_file h.blocks.dirBlocks (h.num hw hrfs) hfits ?_ ?_
  · rw [h.type_eq hw hrfs, hfile]
    decide
  · show v.type ≠ rDir
    rw [hfile]
    decide

theorem disk_data {i : Nat} (b : Block) (hw : o.vinode w = some v) (hrfs : v.iOps = .rfs)
    (hfile : v.type = fileI) (hi : (i : Int) < v.blocks) :
    diskInode (upd d (addrOf v.addrs i).toNat b) = diskInode d ∧
      dirEnts (upd d (addrOf v.addrs i).toNat b) = dirEnts d := by
  have hlive := h.live hw hrfs
  have hcur := h.cur_eq hw hrfs
  have hi' : (i : Int) < (curInode (diskInode d) (o.mem M) v.inum).blocks := by
    rw [hcur]
    exact hi
  have hlo := (h.blocks.owned v.inum i hlive hi').1
  rw [hcur] at hlo
  change 12 ≤ addrOf v.addrs i at hlo
  refine ⟨diskInode_data (by omega) b, dirEnts_data (by omega) fun m hm => ?_⟩
  have hne : m ≠ v.inum := by
    rintro rfl
    rw [h.type_eq hw hrfs, hfile] at hm
    exact absurd hm (by decide)
  have := h.blocks.dir_ne hlive hi' hm hne
  rwa [hcur] at this

end

end Inv

/-! ## Every change keeps the invariant -/

section

variable {M : Mount} {care : Care} {o o' : Objs} {d d' : Nat → Block}

theorem vol_step {named held : Prop} {used : Int → Prop} {v v' : Vol}
    (hs : v.Step named held used v')
    (hino : diskInode d' = v'.ino)
    (hmap : o'.freemap M = v'.map) (hmem : o'.mem M = v'.mem) (hents : dirEnts d' = v'.ents) :
    Relation.ReflGen (Vol.Step named held used) v (o'.vol M d') := by
  have heq : o'.vol M d' = v' := by
    rw [Objs.vol, hino, hmap, hmem, hents]
  rw [heq]
  exact .single hs

theorem vol_same {named held : Prop} {used : Int → Prop}
    (hino : diskInode d' = diskInode d) (hmap : o'.freemap M = o.freemap M)
    (hmem : o'.mem M = o.mem M) (hents : dirEnts d' = dirEnts d) :
    Relation.ReflGen (Vol.Step named held used) (o.vol M d) (o'.vol M d') := by
  rw [Objs.vol, Objs.vol, hino, hmap, hmem, hents]

/-- A change is a step of the volume, or none. -/
theorem Change.vol (hc : Change M care o d o' d') (h : Inv M o d) :
    Relation.ReflGen (Vol.Step care.paths care.held fun n => care.fds → o.OpenNum n)
      (o.vol M d) (o'.vol M d') := by
  cases hc with
  | load n w node hlive hnew hw =>
      exact vol_step (.load n hlive (Inv.mem_none hnew)) rfl rfl (mem_addV h.cache hw rfl) rfl
  | bind node t x p v pv ht ht0 hnode hnew href hv hrfs =>
      exact vol_same rfl rfl (mem_setV_same h.cache { v with ref := v.ref + 1 } hv
        (h.sb_eq hv hrfs) (h.inum_nonneg hv hrfs) rfl) rfl
  | create pw w node pv B n k type name hpv hprfs hdir hroom hname hnew htype hn hfree hk hB hzero
      hw =>
      have hmap := freemap_eq hB
      have hpn : pv.inum ≠ n := fun heq => h.live hpv hprfs (heq ▸ hfree)
      obtain ⟨hino, hents⟩ := h.disk_create hpv hprfs hdir hroom hname hn hfree htype hk
        (by rw [hmap]; exact hzero)
      have hcache : CacheInv ((o.withMap M.sb B (upd B.freemap k 1)).setV pw
          { pv with size := pv.size + 32 }) :=
        (h.cache.withMap B _).setV { pv with size := pv.size + 32 } hpv rfl rfl
      have hw' : ((o.withMap M.sb B (upd B.freemap k 1)).setV pw
          { pv with size := pv.size + 32 }).vinode w = none :=
        (upd_ne (ne_of_none hw hpv).symm).trans hw
      refine vol_step (.create n pv.inum k type name pv.toDinode hn hfree
        (fits_diskInode d n).addrs htype hk (by show o.freemap M k = 0; rw [hmap]; exact hzero)
        (h.mem_eq hpv hprfs) hdir hroom.1 hnew) hino ?_ ?_ hents
      · show (o.withMap M.sb B (upd B.freemap k 1)).freemap M = upd (o.freemap M) k 1
        rw [freemap_withMap, hmap]
      · rw [mem_addV hcache hw' rfl]
        have hset : ((o.withMap M.sb B (upd B.freemap k 1)).setV pw
            { pv with size := pv.size + 32 }).mem M =
            upd (o.mem M) pv.inum (some { pv with size := pv.size + 32 }.toDinode) :=
          mem_setV h.cache _ hpv (h.sb_eq hpv hprfs) (h.inum_nonneg hpv hprfs)
        rw [hset]
        exact upd_comm hpn
  | orphan B n k hloose hn hfree hk hB hzero =>
      have hmap := freemap_eq hB
      obtain ⟨hino, hents⟩ := h.disk_newInode hn hfree (.inr rfl) hk
      refine vol_step (.orphan n k hloose hn hfree (fits_diskInode d n).addrs hk
        (by show o.freemap M k = 0; rw [hmap]; exact hzero)) hino ?_ rfl hents
      show (o.withMap M.sb B (upd B.freemap k 1)).freemap M = upd (o.freemap M) k 1
      rw [freemap_withMap, hmap]
  | link pw lw pv lv name hpv hprfs hdir hroom hname hnew hlv hlrfs hfile =>
      obtain ⟨hino, hents⟩ := h.disk_link hpv hprfs hdir hroom hname hlv hlrfs hfile
      have hne := h.ne_of_type hpv hprfs hdir hlv hlrfs hfile
      refine vol_step (.link lv.inum pv.inum name lv.toDinode pv.toDinode (h.mem_eq hlv hlrfs)
        hfile (h.mem_eq hpv hprfs) hdir hroom.1 hnew) hino rfl ?_ hents
      rw [h.mem_two _ { lv with nlinks := lv.nlinks + 1 } hpv hprfs hlv hlrfs hne.1 rfl rfl]
      exact upd_comm hne.2.symm
  | unlink pw lw pv lv k name hpv hprfs hdir hlv hlrfs hfile hk hgone hmore =>
      have hbound := h.links_bound hlv hlrfs hfile
      obtain ⟨hino, hents⟩ := h.disk_unlink (lv.nlinks - 1) hpv hprfs hdir hlv hlrfs hfile hk
        (by unfold IsInt32; omega)
      have hne := h.ne_of_type hpv hprfs hdir hlv hlrfs hfile
      refine vol_step (.unlink lv.inum pv.inum k name lv.toDinode pv.toDinode (h.mem_eq hlv hlrfs)
        hfile (h.mem_eq hpv hprfs) hdir hk hmore) ?_ rfl 
        (h.mem_two _ { lv with nlinks := lv.nlinks - 1 } hpv hprfs hlv hlrfs hne.1 rfl rfl) hents
      rw [hino, dropInode, if_neg hmore]
      rfl
  | unlinkLast pw lw pv lv B k name e hpv hprfs hdir hlv hlrfs hfile hk hgone hlast href he hB =>
      obtain ⟨hino, hents⟩ := h.disk_unlink 0 hpv hprfs hdir hlv hlrfs hfile hk (by decide)
      have hne := h.ne_of_type hpv hprfs hdir hlv hlrfs hfile
      have hmap := freemap_eq hB
      refine vol_step (.unlinkLast lv.inum pv.inum k name lv.toDinode pv.toDinode
        (h.mem_eq hlv hlrfs) hfile (h.mem_eq hpv hprfs) hdir hk hlast) hino ?_ ?_ hents
      · show (o.withMap M.sb B _).freemap M = clearBlocks _ _ 0 (o.freemap M)
        rw [freemap_withMap, hmap]
        rfl
      · have hcache : CacheInv (o.setV pw { pv with size := pv.size - 32 }) :=
          h.cache.setV { pv with size := pv.size - 32 } hpv rfl rfl
        have hlv' : (o.setV pw { pv with size := pv.size - 32 }).vinode lw = some lv :=
          (upd_ne hne.1.symm).trans hlv
        have hdrop : ((o.setV pw { pv with size := pv.size - 32 }).dropV e.node lw lv).mem M =
            upd ((o.setV pw { pv with size := pv.size - 32 }).mem M) lv.inum none :=
          mem_dropV hcache hlv' (h.sb_eq hlv hlrfs)
        rw [mem_setV h.cache _ hpv (h.sb_eq hpv hprfs) (h.inum_nonneg hpv hprfs)] at hdrop
        exact hdrop.trans (upd_comm hne.2)
  | drop t x v e ht hidle he hv hrfs =>
      exact vol_same rfl rfl (mem_setV_same h.cache { v with ref := v.ref - 1 } hv
        (h.sb_eq hv hrfs) (h.inum_nonneg hv hrfs) rfl) rfl
  | evict w v e hw hrfs hfile href he hheld =>
      obtain ⟨hino, hents⟩ := h.disk_evict hw hrfs hfile
      exact vol_step (.evict v.inum v.toDinode (h.mem_eq hw hrfs) hfile hheld) hino rfl
        (mem_dropV h.cache hw (h.sb_eq hw hrfs)) hents
  | grow w v B k hw hrfs hfile huse h10 hk hB hzero =>
      have hmap := freemap_eq hB
      refine vol_step (.grow v.inum v.toDinode k (h.mem_eq hw hrfs) hfile h10 hk
        (by show o.freemap M k = 0; rw [hmap]; exact hzero)
        fun hfds => (huse hfds).openNum hw hrfs) rfl ?_ ?_ rfl
      · show (o.withMap M.sb B (upd B.freemap k 1)).freemap M = upd (o.freemap M) k 1
        rw [freemap_withMap, hmap]
      · exact mem_setV h.cache _ hw (h.sb_eq hw hrfs) (h.inum_nonneg hw hrfs)
  | data w v i b hw hrfs hfile hi =>
      obtain ⟨hino, hents⟩ := h.disk_data b hw hrfs hfile hi
      exact vol_same hino rfl rfl hents
  | size w v sz hw hrfs hfile huse h0 h1 =>
      have hpos : 0 ≤ v.size := (h.shape hw hrfs).size.1
      exact vol_step (.size v.inum v.toDinode sz (h.mem_eq hw hrfs) hfile (by omega) h1
        fun hfds => (huse hfds).openNum hw hrfs) rfl rfl
        (mem_setV h.cache _ hw (h.sb_eq hw hrfs) (h.inum_nonneg hw hrfs)) rfl
  | opened | moved | copied | closed | dirFreed => exact vol_same rfl rfl rfl rfl
  | dirOpened file t f x v p base hnew ht hf hopen hoff hv hrfs =>
      exact vol_same rfl rfl (mem_setV_same h.cache { v with iFsInfo := p } hv
        (h.sb_eq hv hrfs) (h.inum_nonneg hv hrfs) rfl) rfl
  | hostMount sb w t node B v x l hsb hw =>
      refine vol_same rfl ?_ ?_ rfl
      · obtain ⟨B', hB', -⟩ := h.sb
        have hne : M.sb ≠ sb := fun heq => by rw [← heq, hB'] at hsb; cases hsb
        show ((upd o.superBlock sb (some B) M.sb).map SuperBlock.freemap).getD _ = _
        rw [upd_ne hne]
        rfl
      · have hset : (o.addHost sb B w v l).setV w { v with ref := v.ref + 1 } =
            o.addHost sb B w { v with ref := v.ref + 1 } l := by
          simp only [Objs.setV, Objs.addHost, upd_upd]
        show ((o.addHost sb B w v l).setV w { v with ref := v.ref + 1 }).mem M = _
        rw [hset]
        exact mem_addHost h.cache hw

theorem Change.cache (hc : Change M care o d o' d') (h : Inv M o d) : CacheInv o' := by
  cases hc with
  | load n w node hlive hnew hw hw0 hnode =>
      exact h.cache.addV hw hnode hnew (h.blocks.num n hlive).1 rfl
  | bind node t x p v pv ht ht0 hnode hnew href hv =>
      exact h.cache.addD ht hnode hnew hv
  | create pw w node pv B n k type name hpv hprfs hdir hroom hname hnew htype hn hfree hk hB hzero
      hw hw0 hnode =>
      refine ((h.cache.withMap B _).setV { pv with size := pv.size + 32 } hpv rfl rfl).addV ?_ hnode
        (h.findV_none fun hl => hl hfree) hn.1 rfl
      exact (upd_ne (ne_of_none hw hpv).symm).trans hw
  | orphan B => exact h.cache.withMap B _
  | link pw lw pv lv name hpv hprfs hdir hroom hname hnew hlv hlrfs hfile =>
      have hne := h.ne_of_type hpv hprfs hdir hlv hlrfs hfile
      exact (h.cache.setV { lv with nlinks := lv.nlinks + 1 } hlv rfl rfl).setV _
        ((upd_ne hne.1).trans hpv) rfl rfl
  | unlink pw lw pv lv k name hpv hprfs hdir hlv hlrfs hfile =>
      have hne := h.ne_of_type hpv hprfs hdir hlv hlrfs hfile
      exact (h.cache.setV { lv with nlinks := lv.nlinks - 1 } hlv rfl rfl).setV _
        ((upd_ne hne.1).trans hpv) rfl rfl
  | unlinkLast pw lw pv lv B k name e hpv hprfs hdir hlv hlrfs hfile hk hgone hlast href he =>
      have hne := h.ne_of_type hpv hprfs hdir hlv hlrfs hfile
      exact ((h.cache.withMap B _).setV { pv with size := pv.size - 32 } hpv rfl rfl).dropV
        ((upd_ne hne.1.symm).trans hlv) he href
  | drop t x v e ht hidle he hv => exact h.cache.dropD ht he hv
  | evict w v e hw hrfs hfile href he => exact h.cache.dropV hw he href
  | grow w v B k hw => exact (h.cache.withMap B _).setV _ hw rfl rfl
  | data => exact h.cache
  | size w v sz hw => exact h.cache.setV _ hw rfl rfl
  | opened file t f x hnew ht =>
      exact (h.cache.setD { x with dRef := x.dRef + 1 } ht rfl rfl).congr rfl rfl rfl rfl rfl
  | moved | copied | dirFreed => exact h.cache.congr rfl rfl rfl rfl rfl
  | closed file f x hf hopen hx =>
      exact (h.cache.setD { x with dRef := x.dRef - 1 } hx rfl rfl).congr rfl rfl rfl rfl rfl
  | dirOpened file t f x v p base hnew ht hf hopen hoff hv =>
      exact ((h.cache.setV { v with iFsInfo := p } hv rfl rfl).setD { x with dRef := x.dRef + 1 } ht
        rfl rfl).congr rfl rfl rfl rfl rfl
  | hostMount sb w t node B v x l hsb hw hw0 ht ht0 hnode hnew hxw hpar hidle hhost hnum htype
      href =>
      have hadd : CacheInv (o.addHost sb B w v l) := h.cache.addHost hw (by omega) href
      subst hxw
      exact hadd.addD ht hnode hnew (upd_self _ _ _)

/-- The names that are cached are on disk after the change. -/
theorem Change.tree (hc : Change M care o d o' d') (h : Inv M o d) :
    TreeInv M o' (dirEnts d') := by
  cases hc with
  | load n w node hlive hnew hw hw0 =>
      exact h.tree.addV h.cache hw hw0 rfl rfl (h.blocks.num n hlive).1
  | bind node t x p v pv ht ht0 hnode hnew href hv hrfs hp hpv hprfs hent =>
      exact h.tree_bind ht ht0 hnew hv hrfs hp hpv hprfs hent
  | create pw w node pv B n k type name hpv hprfs hdir hroom hname hnew htype hn hfree hk hB hzero
      hw hw0 =>
      obtain ⟨-, hents⟩ := h.disk_create hpv hprfs hdir hroom hname hn hfree htype hk
        (by rw [freemap_eq hB]; exact hzero)
      rw [hents]
      have hkeep := h.tree.append pv.inum (n, name)
      refine ((hkeep.withMap B _).setV { pv with size := pv.size + 32 } hpv rfl rfl rfl).addV
        ((h.cache.withMap B _).setV { pv with size := pv.size + 32 } hpv rfl rfl) ?_ hw0 rfl rfl hn.1
      exact (upd_ne (ne_of_none hw hpv).symm).trans hw
  | orphan B n k hloose hn hfree hk =>
      rw [(h.disk_newInode hn hfree (.inr rfl) hk).2]
      exact h.tree.withMap B _
  | link pw lw pv lv name hpv hprfs hdir hroom hname hnew hlv hlrfs hfile =>
      have hne := h.ne_of_type hpv hprfs hdir hlv hlrfs hfile
      rw [(h.disk_link hpv hprfs hdir hroom hname hlv hlrfs hfile).2]
      exact ((h.tree.append pv.inum (lv.inum, name)).setV { lv with nlinks := lv.nlinks + 1 } hlv
        rfl rfl rfl).setV _ ((upd_ne hne.1).trans hpv) rfl rfl rfl
  | unlink pw lw pv lv k name hpv hprfs hdir hlv hlrfs hfile hk hgone =>
      have hne := h.ne_of_type hpv hprfs hdir hlv hlrfs hfile
      have hbound := h.links_bound hlv hlrfs hfile
      rw [(h.disk_unlink (lv.nlinks - 1) hpv hprfs hdir hlv hlrfs hfile hk
        (by unfold IsInt32; omega)).2]
      exact ((h.tree_erase hpv hprfs hk hgone).setV { lv with nlinks := lv.nlinks - 1 } hlv
        rfl rfl rfl).setV _ ((upd_ne hne.1).trans hpv) rfl rfl rfl
  | unlinkLast pw lw pv lv B k name e hpv hprfs hdir hlv hlrfs hfile hk hgone hlast href =>
      rw [(h.disk_unlink 0 hpv hprfs hdir hlv hlrfs hfile hk (by decide)).2]
      exact (((h.tree_erase hpv hprfs hk hgone).withMap B _).setV { pv with size := pv.size - 32 }
        hpv rfl rfl rfl).dropV (h.unreferenced hlv href)
  | drop t x v e ht hidle he hv hrfs hfile => exact h.tree_drop ht hv hrfs hfile
  | evict w v e hw hrfs hfile href =>
      rw [(h.disk_evict hw hrfs hfile).2]
      exact h.tree.dropV (h.unreferenced hw href)
  | grow w v B k hw =>
      exact (h.tree.withMap B _).setV _ hw rfl rfl rfl
  | data w v i b hw hrfs hfile hi =>
      rw [(h.disk_data b hw hrfs hfile hi).2]
      exact h.tree
  | size w v sz hw => exact h.tree.setV _ hw rfl rfl rfl
  | opened file t f x hnew ht =>
      exact (h.tree.setD { x with dRef := x.dRef + 1 } ht rfl rfl).congr rfl rfl rfl
  | moved | copied | dirFreed => exact h.tree.congr rfl rfl rfl
  | closed file f x hf hopen hx =>
      exact (h.tree.setD { x with dRef := x.dRef - 1 } hx rfl rfl).congr rfl rfl rfl
  | dirOpened file t f x v p base hnew ht hf hopen hoff hv =>
      exact ((h.tree.setV { v with iFsInfo := p } hv rfl rfl rfl).setD { x with dRef := x.dRef + 1 } ht
        rfl rfl).congr rfl rfl rfl
  | hostMount sb w t node B v x l hsb hw hw0 ht ht0 hnode hnew hxw hpar hidle hhost hnum htype
      href hvsb =>
      obtain ⟨B0, hB0, -⟩ := h.sb
      have htree : TreeInv M (o.addHost sb B w v l) (dirEnts d) :=
        h.tree.addHost h.cache hw hw0 hhost hnum htype
          (hvsb ▸ (ne_of_none hsb hB0).symm)
      have hset := htree.setV { v with ref := v.ref + 1 } (upd_self _ _ _) rfl rfl rfl
      exact hset.addHostD ht ht0 (v := { v with ref := v.ref + 1 })
        (by rw [hxw]; exact upd_self _ _ _) hhost hpar

theorem Change.sb (hc : Change M care o d o' d') (h : Inv M o d) :
    ∃ B, o'.superBlock M.sb = some B ∧ B.nblocks = 100 := by
  obtain ⟨B0, hB0, hnb⟩ := h.sb
  have hmap : ∀ {B m}, o.superBlock M.sb = some B →
      ∃ B', (o.withMap M.sb B m).superBlock M.sb = some B' ∧ B'.nblocks = 100 := by
    intro B m hB
    rw [hB0] at hB
    obtain rfl := Option.some.inj hB
    exact ⟨_, upd_self _ _ _, hnb⟩
  cases hc with
  | create pw w node pv B n k type name hpv hprfs hdir hroom hname hnew htype hn hfree hk hB => exact hmap hB
  | orphan B n k hloose hn hfree hk hB => exact hmap hB
  | unlinkLast pw lw pv lv B k name e hpv hprfs hdir hlv hlrfs hfile hk hgone hlast href he hB =>
      exact hmap hB
  | grow w v B k hw hrfs hfile huse h10 hk hB => exact hmap hB
  | hostMount sb w t node B v x l hsb =>
      exact ⟨B0, (upd_ne fun heq => by rw [← heq, hB0] at hsb; cases hsb).trans hB0, hnb⟩
  | load | bind | link | unlink | drop | evict | data | size | opened | moved | copied | closed
  | dirOpened | dirFreed =>
      exact ⟨B0, hB0, hnb⟩

theorem Change.files (hc : Change M care o d o' d') (h : Inv M o d) :
    ∀ p f, o'.file p = some f → 0 ≤ f.offset := by
  have hset : ∀ {file f}, 0 ≤ f.offset → ∀ p g, upd o.file file (some f) p = some g →
      0 ≤ g.offset := by
    intro file f hoff p g hp
    rcases upd_some hp with ⟨-, rfl⟩ | ⟨-, hp'⟩
    · exact hoff
    · exact h.files p g hp'
  cases hc with
  | opened => exact hset (by omega)
  | dirOpened => exact hset (by omega)
  | moved file f off hf hoff => exact hset hoff
  | copied p q f hp =>
      intro r g hr
      rcases upd_cases hr with ⟨-, heq⟩ | ⟨-, hr'⟩
      · exact Option.some.inj heq ▸ h.files p f hp
      · obtain ⟨-, hr''⟩ := upd_none hr'
        exact h.files r g hr''
  | closed file f x hf => exact hset (h.files file f hf)
  | load | bind | create | orphan | link | unlink | unlinkLast | drop | evict | grow | data | size
  | dirFreed | hostMount => exact h.files

/-- The copy of a directory has one block, as the directory. -/
theorem Change.copies (hc : Change M care o d o' d') (h : Inv M o d) :
    ∀ p c, o'.dirCache p = some c → c.blockCount = 1 := by
  cases hc with
  | dirOpened file t f x v p base hnew ht hf hopen hoff hv hrfs hdir =>
      intro q c hq
      rcases upd_cases hq with ⟨-, heq⟩ | ⟨-, hq'⟩
      · rw [← Option.some.inj heq]
        exact ((h.shape hv hrfs).dir hdir).1
      · exact h.copies q c hq'
  | load | bind | create | orphan | link | unlink | unlinkLast | drop | evict | grow | data | size
  | opened | moved | copied | closed | dirFreed | hostMount => exact h.copies

theorem Change.inv (hc : Change M care o d o' d') (h : Inv M o d) : Inv M o' d' :=
  ⟨hc.cache h, hc.tree h, hc.sb h, Vol.inv_of_reflGen (hc.vol h) h.vol, hc.files h, hc.copies h⟩

end

end Pke
