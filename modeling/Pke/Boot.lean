import Pke.DirOps
import Pke.Format

/-!
# Boot

`fs_init` establishes the invariant: the host file system is the root,
the RAM disk is formatted and mounted below it, and nothing else is in
memory.
-/

namespace Pke

open Exec (Post)

section

variable {s : State} {o : Objs} {d : Nat → Block} {b : Block} {E : Fault → Prop}

/-! ## The two mounts -/

theorem mountRoot_post (devName : Name) {dev : Device} (h : Holds s o d b [])
    (hdev : o.devList.find? (fun x => x.devName == devName) = some dev)
    (hhost : dev.fsType = .hostfs) (hnew : o.findD ⟨0, rootName⟩ = none) :
    Post (vfsMount devName .asRoot) s (fun sb s' => ∃ w t v B node, HostRoot o sb w t v B ∧
      o.hashNode node = none ∧ Holds s' { ((o.addHost sb B w v (o.sbList ++ [sb])).setV w
        { v with ref := v.ref + 1 }).addD node t ⟨rootName, 0, w, 0⟩ with root := t } d b []) NoAssert := by
  unfold vfsMount
  refine .bindGet ?_
  have hdevs : s.vfsDevList = o.devList := congrArg Objs.devList h.objs
  rw [hdevs, hdev]
  dsimp only
  rw [hhost]
  refine .bind (hostfsGetSuperblock_post h noAssert_nullPage) ?_
  rintro sb s1 ⟨w, t, v, B, hr, h1⟩
  refine post_known superBlockKind h1 (upd_self _ _ _) ?_
  rw [hr.sRoot]
  refine post_known dentryKind h1 (upd_self _ _ _) ?_
  refine .bind (R := fun _ s' => s' = s1) ?_ ?_
  · refine post_known vinodeKind h1 (upd_self _ _ _) ?_
    rw [if_pos (by show v.inum < 0; rw [hr.inum]; decide)]
    exact .pure rfl
  rintro _ s2 rfl
  refine .bindGet (.ite (fun _ => .fault (noAssert_panic _)) fun _ => ?_)
  refine .bindModify (.bindModify ?_)
  have hlist : s2.vfsSbList = o.sbList := congrArg Objs.sbList h1.objs
  have h2 := (h1.withSbList (s2.vfsSbList ++ [sb])).withRoot t
  refine .bind (hashPutDentry_post (x := ⟨rootName, 0, w, 0⟩) h2 (upd_self _ _ _) hnew
    noAssert_nullPage) ?_
  rintro _ s3 ⟨node, hnode, h3⟩
  refine .pure ⟨w, t, v, B, node, hr, hnode, h3.cast ?_⟩
  simp only [Objs.addD, Objs.addHost, Objs.setV, upd_upd, hlist]

/-- What the mount of an RFS device leaves: its super block at `sb`, its root
vinode at `w` and its root dentry at `t`. -/
structure RfsRoot (o : Objs) (d : Nat → Block) (sb w t nv nd : Ptr) (name : Name)
    (o' : Objs) : Prop where
  superBlock : o.superBlock sb = none
  vinode : o.vinode w = none ∧ w ≠ 0
  dentry : o.dentry t = none ∧ t ≠ 0
  nodeV : o.hashNode nv = none
  nodeD : o.hashNode nd = none ∧ nd ≠ nv
  objs : o' = ((({ o with
      superBlock := upd o.superBlock sb (some (superBlockOf d t))
      sbList := o.sbList ++ [sb] }).addV nv w (loadedVinode sb 0 (diskInode d 0))).setV w
        { loadedVinode sb 0 (diskInode d 0) with
          ref := (loadedVinode sb 0 (diskInode d 0)).ref + 1 }).addD nd t ⟨name, 0, w, o.root⟩

theorem mountRfs_post (devName : Name) {dev : Device} (h : Holds s o d b [])
    (hdev : o.devList.find? (fun x => x.devName == devName) = some dev)
    (hrfs : dev.fsType = .rfs) (hmagic : getInt (d 0) 0 = rfsMagic) (hroot : o.root ≠ 0)
    (hnew : o.findD ⟨o.root, dev.devName⟩ = none) (hnewV : ∀ sb, o.findV ⟨0, sb⟩ = none) :
    Post (vfsMount devName .default) s (fun sb s' => ∃ w t nodeV nodeD o',
      RfsRoot o d sb w t nodeV nodeD dev.devName o' ∧ Ends s' o' d []) NoAssert := by
  unfold vfsMount
  refine .bindGet ?_
  have hdevs : s.vfsDevList = o.devList := congrArg Objs.devList h.objs
  rw [hdevs, hdev]
  dsimp only
  rw [hrfs]
  refine .bind (rfsGetSuperblock_post h hmagic noAssert_nullPage) ?_
  rintro sb s1 ⟨w, t, hsb, hw, hw0, ht, ht0, b1, h1⟩
  refine post_known superBlockKind h1 (upd_self _ _ _) ?_
  rw [show (superBlockOf d t).sRoot = t from rfl]
  refine post_known dentryKind h1 (upd_self _ _ _) ?_
  refine .bind (hashPutVinode_post h1 (upd_self _ _ _) (Int.le_refl 0) (hnewV sb)
    noAssert_nullPage) ?_
  rintro _ s2 ⟨nodeV, hnodeV, h2⟩
  refine .bindGet (.ite (fun _ => .fault (noAssert_panic _)) fun _ => ?_)
  have hr0 : s2.vfsRootDentry = o.root := congrArg Objs.root h2.objs
  have hlist : s2.vfsSbList = o.sbList := congrArg Objs.sbList h2.objs
  rw [hr0]
  refine .bindModify ?_
  have h3 := h2.withSbList (s2.vfsSbList ++ [sb])
  rw [if_neg hroot]
  refine post_set dentryKind h3 (upd_self _ _ _) fun s4 h4 => ?_
  refine .bind (hashPutDentry_post (x := ⟨dev.devName, 0, w, o.root⟩) h4 (upd_self _ _ _) hnew
    noAssert_nullPage) ?_
  rintro _ s5 ⟨nodeD, hnodeD, h5⟩
  obtain ⟨hne, hnodeD'⟩ := upd_some_none hnodeD
  refine .pure ⟨w, t, nodeV, nodeD, _, ⟨hsb, ⟨hw, hw0⟩, ⟨ht, ht0⟩, hnodeV, ⟨hnodeD', hne⟩, rfl⟩, b1,
    h5.cast ?_⟩
  simp only [Objs.addD, Objs.addV, Objs.setV, upd_upd, hlist]
  rfl

end

/-! ## What the boot leaves -/

theorem Boot.holds (b : Boot) : Holds b.init b.init.objs b.disk b.iobuffer [] where
  objs := rfl
  disk := rfl
  io := rfl
  mem :=
    { nodup := b.nodup
      free := fun _ _ => rfl
      listed := b.inRange
      used := fun _ h => absurd rfl h
      start := b.startPos }
  raw := nofun

theorem Boot.cache (b : Boot) : CacheInv b.init.objs where
  dwf := HashTable.wf_empty
  vwf := HashTable.wf_empty
  dentries e he := by simp [Objs.dentries, State.objs, Boot.init, HashTable.entries, HashTable.empty] at he
  vinodes e he := by simp [Objs.vinodes, State.objs, Boot.init, HashTable.entries, HashTable.empty] at he
  dhashed t x ht := by cases ht
  vhashed w v hw := by cases hw
  inode t x ht := by cases ht
  ref w v hw := by cases hw

/-- The state of the file system after boot. -/
structure Booted (M : Mount) (o : Objs) (d : Nat → Block) : Prop where
  inv : Inv M o d
  disk : Formatted d
  files : ∀ p, o.file p = none
  idle : ∀ t x, o.dentry t = some x → x.dRef = 0
  dirs : ∀ w v, o.vinode w = some v → v.type = dirI
  sbList : o.sbList[1]? = some M.sb
  names : ∀ t x, o.dentry t = some x → t = M.root ∨ t = M.rfsRoot

namespace Formatted

variable {d : Nat → Block} (hd : Formatted d)

include hd

theorem live {n : Int} (hn : Live (diskInode d) n) : n = 0 := by
  by_contra hne
  exact hn (hd.free n hne)

theorem dirEnts_eq : dirEnts d = fun _ => [] := by
  obtain ⟨addrs, hroot, -⟩ := hd.root
  funext n
  rcases eq_or_ne n 0 with rfl | hne
  · rw [dirEnts_dir (by rw [hroot]), hroot]
    rfl
  · exact dirEnts_nil (by rw [hd.free n hne]; decide)

theorem blocks : BlockInv (diskInode d) (fun i => getInt (d 11) (4 * i))
    (upd (fun _ => none) 0 (some (diskInode d 0))) := by
  obtain ⟨addrs, hroot, haddr⟩ := hd.root
  have hfits : (⟨0, rDir, 1, 1, addrs⟩ : Dinode).Fits := hroot ▸ fits_diskInode d 0
  have hshape : (⟨0, rDir, 1, 1, addrs⟩ : Dinode).Shape :=
    ⟨.inr rfl, ⟨Int.le_refl 1, by show (1 : Int) ≤ 10; decide⟩,
      ⟨Int.le_refl 0, by show (0 : Int) ≤ 1 * 4096; decide⟩, fun _ => ⟨rfl, ⟨0, rfl⟩⟩, hfits⟩
  have hcur : curInode (diskInode d) (upd (fun _ => none) 0 (some (diskInode d 0))) 0 =
      ⟨0, rDir, 1, 1, addrs⟩ := by
    rw [curInode, upd_self, hroot]
    rfl
  have hzero : ∀ {i : Nat}, (i : Int) <
      (curInode (diskInode d) (upd (fun _ => none) 0 (some (diskInode d 0))) 0).blocks → i = 0 := by
    intro i hi
    rw [hcur] at hi
    change (i : Int) < 1 at hi
    omega
  refine ⟨fun n hn => ?_, fun n hn => ?_, fun n hn => ?_, fun n i hn hi => ?_,
    fun n m i j hn hm hi hj _ => ?_⟩
  · rw [hd.live hn]
    decide
  · rw [hd.live hn, upd_self, hroot]
    refine ⟨hshape, fun c hc => ?_, fun c hc => ?_, fun c hc => ?_⟩ <;>
      obtain rfl := Option.some.inj hc
    · exact ⟨hshape, rfl, rfl⟩
    · exact ⟨Int.le_refl _, fun _ _ => rfl⟩
    · exact fun _ => rfl
  · refine upd_ne fun heq => hn ?_
    rw [heq, Live, hroot]
    show rDir ≠ rFree
    decide
  · obtain rfl := hd.live hn
    rw [hzero hi, hcur, haddr]
    exact ⟨Int.le_refl _, by decide, hd.bitmap.1⟩
  · obtain rfl := hd.live hn
    obtain rfl := hd.live hm
    exact ⟨rfl, (hzero hi).trans (hzero hj).symm⟩

theorem links : LinkInv (inodeTypes (diskInode d)) (inodeLinks (diskInode d)) (dirEnts d) := by
  obtain ⟨addrs, hroot, -⟩ := hd.root
  have hlinks : ∀ n, Pke.links inodeNums (dirEnts d) n = 0 := fun n => by
    rw [hd.dirEnts_eq]
    simp [Pke.links]
  have hnone : ∀ {p e}, e ∉ dirEnts d p := fun {p e} he => by
    rw [hd.dirEnts_eq] at he
    cases he
  have hdead : ∀ {n type}, inodeTypes (diskInode d) n = type → type ≠ rFree → n = 0 :=
    fun {n type} hn hne => hd.live fun hfree => hne (hn.symm.trans hfree)
  refine ⟨fun p => ?_, fun p e he => absurd he hnone, fun p e he => absurd he hnone,
    fun n hn => ?_, fun n hn => ?_, ?_⟩
  · rw [hd.dirEnts_eq]
    exact List.nodup_nil
  · obtain rfl := hdead hn (by decide)
    rw [inodeTypes, hroot] at hn
    exact absurd (show rDir = rFile from hn) (by decide)
  · obtain rfl := hdead hn (by decide)
    rw [hlinks, inodeLinks, hroot]
    exact ⟨rfl, Nat.zero_le _⟩
  · rw [inodeTypes, hroot]

/-- The volume of a formatted disk whose root is in memory. -/
theorem vol : Vol.Inv ⟨diskInode d, fun i => getInt (d 11) (4 * i),
    upd (fun _ => none) 0 (some (diskInode d 0)), dirEnts d⟩ := by
  refine .of_parts hd.blocks hd.links fun p hp => ?_
  obtain ⟨addrs, hroot, -⟩ := hd.root
  have hp0 : p = 0 := hd.live fun hfree => by
    rw [hp] at hfree
    exact absurd hfree (by decide)
  rw [hp0, hd.dirEnts_eq, hroot]
  rfl

end Formatted

/-- The host file system is mounted as the root, and nothing else is. -/
structure RootOnly (o : Objs) (t w : Ptr) (x : Dentry) (v : Vinode) : Prop where
  cache : CacheInv o
  dentry : o.dentry = upd (fun _ => none) t (some x)
  vinode : o.vinode = upd (fun _ => none) w (some v)
  pos : t ≠ 0 ∧ w ≠ 0
  node : x = ⟨rootName, 0, w, 0⟩
  iOps : v.iOps = .hostfs
  inum : v.inum = -1
  type : v.type = dirI
  root : o.root = t
  empty : o.vinodeHash = .empty
  file : ∀ p, o.file p = none
  dirCache : ∀ p, o.dirCache p = none
  sbList : o.sbList.length = 1
  sb : o.superBlock v.sb ≠ none

theorem RootOnly.unbound {o : Objs} {t w : Ptr} {x : Dentry} {v : Vinode}
    (ho : RootOnly o t w x v) : o.findD ⟨o.root, ramdiskName⟩ = none := by
  cases hf : o.findD ⟨o.root, ramdiskName⟩ with
  | none => rfl
  | some e =>
      obtain ⟨y, hy, hkey⟩ := ho.cache.findD_some hf
      rw [ho.dentry] at hy
      rcases upd_some hy with ⟨-, rfl⟩ | ⟨-, hnone⟩
      · have hname : x.name = ramdiskName := congrArg DentryKey.name hkey
        rw [ho.node] at hname
        exact absurd (show rootName = ramdiskName from hname) (by decide)
      · cases hnone

section

variable {o o' : Objs} {d : Nat → Block} {t w sb w' t' nv nd : Ptr} {x : Dentry} {v : Vinode}
  (ho : RootOnly o t w x v) (hr : RfsRoot o d sb w' t' nv nd ramdiskName o')

include ho hr

theorem RfsRoot.dentry_eq : o'.dentry =
    upd (upd (fun _ => none) t (some ⟨rootName, 0, w, 0⟩)) t' (some ⟨ramdiskName, 0, w', t⟩) := by
  rw [hr.objs, ← ho.node, ← ho.dentry, ← ho.root]
  rfl

theorem RfsRoot.vinode_eq : o'.vinode = upd (upd (fun _ => none) w (some v)) w'
    (some { loadedVinode sb 0 (diskInode d 0) with ref := 1 }) := by
  rw [hr.objs, ← ho.vinode]
  exact upd_upd _ _ _ _

theorem RfsRoot.ne : t' ≠ t ∧ w' ≠ w := by
  have ht := hr.dentry.1
  have hw := hr.vinode.1
  rw [ho.dentry] at ht
  rw [ho.vinode] at hw
  exact ⟨(upd_some_none ht).1, (upd_some_none hw).1⟩

/-- The root vinode is loaded, and its dentry is new. -/
theorem RfsRoot.cache : CacheInv o' ∧
    o'.mem ⟨sb, t, t'⟩ = upd (fun _ => none) 0 (some (diskInode d 0)) := by
  have hobjs := hr.objs
  generalize diskInode d 0 = di at hobjs ⊢
  have hfindV : ∀ k, o.findV k = none := fun k => by
    rw [Objs.findV, ho.empty]
    rfl
  have hc1 : CacheInv { o with
      superBlock := upd o.superBlock sb (some (superBlockOf d t'))
      sbList := o.sbList ++ [sb] } := ho.cache.congr rfl rfl rfl rfl rfl
  have hc2 := hc1.addV (v := loadedVinode sb 0 di) hr.vinode.1 hr.nodeV (hfindV _)
    (Int.le_refl 0) rfl
  constructor
  · rw [hobjs]
    exact hc2.addD (x := ⟨ramdiskName, 0, w', o.root⟩) hr.dentry.1
      ((upd_ne hr.nodeD.2).trans hr.nodeD.1) ho.unbound (upd_self _ _ _)
  · rw [hobjs]
    have hset := mem_setV_same (M := ⟨sb, t, t'⟩) hc2
      { loadedVinode sb 0 di with ref := 1 } (upd_self _ _ _) rfl (Int.le_refl 0) rfl
    refine hset.trans ((mem_addV hc1 hr.vinode.1 rfl).trans ?_)
    have hmem : ({ o with
        superBlock := upd o.superBlock sb (some (superBlockOf d t'))
        sbList := o.sbList ++ [sb] } : Objs).mem ⟨sb, t, t'⟩ = fun _ => none := by
      funext n
      exact Inv.mem_none (hfindV _)
    rw [hmem]
    rfl

theorem RfsRoot.tree (ents : Int → List (Int × Name)) : TreeInv ⟨sb, t, t'⟩ o' ents := by
  obtain ⟨htne, hwne⟩ := hr.ne ho
  have hdentry := hr.dentry_eq ho
  have hvinode := hr.vinode_eq ho
  have hx : o'.dentry t = some ⟨rootName, 0, w, 0⟩ := by
    rw [hdentry, upd_ne htne.symm, upd_self]
  have hx' : o'.dentry t' = some ⟨ramdiskName, 0, w', t⟩ := by
    rw [hdentry, upd_self]
  have hv : o'.vinode w = some v := by
    rw [hvinode, upd_ne hwne.symm, upd_self]
  have hv' : o'.vinode w' = some { loadedVinode sb 0 (diskInode d 0) with ref := 1 } := by
    rw [hvinode, upd_self]
  -- there are two dentries and two vinodes
  have hD : ∀ {q y}, o'.dentry q = some y → (q = t' ∧ y = ⟨ramdiskName, 0, w', t⟩) ∨
      (q = t ∧ y = ⟨rootName, 0, w, 0⟩) := by
    intro q y hq
    rw [hdentry] at hq
    rcases upd_cases hq with ⟨rfl, heq⟩ | ⟨-, hq'⟩
    · exact .inl ⟨rfl, (Option.some.inj heq).symm⟩
    · rcases upd_cases hq' with ⟨rfl, heq⟩ | ⟨-, hnone⟩
      · exact .inr ⟨rfl, (Option.some.inj heq).symm⟩
      · cases hnone
  have hV : ∀ {q u}, o'.vinode q = some u →
      u = { loadedVinode sb 0 (diskInode d 0) with ref := 1 } ∨ u = v := by
    intro q u hq
    rw [hvinode] at hq
    rcases upd_cases hq with ⟨rfl, heq⟩ | ⟨-, hq'⟩
    · exact .inl (Option.some.inj heq).symm
    · rcases upd_cases hq' with ⟨rfl, heq⟩ | ⟨-, hnone⟩
      · exact .inr (Option.some.inj heq).symm
      · cases hnone
  have hdir : v.iOps ≠ .rfs := by
    rw [ho.iOps]
    decide
  refine ⟨⟨?_, ?_⟩, ?_, ⟨_, v, hx, hv, ho.iOps, rfl⟩, ⟨_, _, hx', hv', rfl, rfl, rfl⟩,
    fun q u hq hrfs => ?_, fun q u hq hhost => ?_, fun q y u hq hu hrfs hne => ?_,
    fun q y u hq hu hhost => ?_, fun q q' y y' u hq hq' heq hu hrfs _ => ?_⟩
  · rw [hdentry, upd_ne hr.dentry.2.symm, upd_ne ho.pos.1.symm]
  · rw [hvinode, upd_ne hr.vinode.2.symm, upd_ne ho.pos.2.symm]
  · rw [hr.objs]
    exact ho.root
  · rcases hV hq with rfl | rfl
    · exact ⟨rfl, Int.le_refl 0⟩
    · exact absurd hrfs hdir
  · rcases hV hq with rfl | rfl
    · cases hhost
    · exact ⟨ho.inum, ho.type, fun hsame => ho.sb (hsame ▸ hr.superBlock)⟩
  · rcases hD hq with ⟨rfl, -⟩ | ⟨-, rfl⟩
    · exact absurd rfl hne
    · obtain rfl := Option.some.inj (hv.symm.trans hu)
      exact absurd hrfs hdir
  · rcases hD hq with ⟨-, rfl⟩ | ⟨-, rfl⟩
    · exact .inr rfl
    · exact .inl rfl
  · -- only the root of RFS is an RFS dentry
    have hone : ∀ {q y}, o'.dentry q = some y → y.dentryInode = w' → q = t' := by
      intro q y hq hnode
      rcases hD hq with ⟨rfl, -⟩ | ⟨-, rfl⟩
      · rfl
      · exact absurd hnode.symm hwne
    have hnode : y.dentryInode = w' := by
      rcases hD hq with ⟨-, rfl⟩ | ⟨-, rfl⟩
      · rfl
      · obtain rfl := Option.some.inj (hv.symm.trans hu)
        exact absurd hrfs hdir
    rw [hone hq hnode, hone hq' (heq ▸ hnode)]

theorem booted_of_roots (hd : Formatted d) : Booted ⟨sb, t, t'⟩ o' d := by
  obtain ⟨hcache, hmem⟩ := hr.cache ho
  have hsb : o'.superBlock sb = some (superBlockOf d t') := by
    rw [hr.objs]
    exact upd_self _ _ _
  have hfile : ∀ p, o'.file p = none := by
    rw [hr.objs]
    exact ho.file
  have hvol : (o'.vol ⟨sb, t, t'⟩ d).Inv := by
    rw [Objs.vol, hmem, freemap_eq hsb, freemap_superBlockOf]
    exact hd.vol
  have hnblocks := (nblocks_superBlockOf d t').trans hd.nblocks
  refine ⟨⟨hcache, hr.tree ho _, ⟨_, hsb, hnblocks⟩, hvol, fun p f hp => ?_, fun p c hp => ?_⟩,
    hd, hfile, fun q y hq => ?_, fun q u hq => ?_, ?_, fun q y hq => ?_⟩
  · rw [hfile p] at hp
    cases hp
  · have hnone : o'.dirCache p = none := by
      rw [hr.objs]
      exact ho.dirCache p
    rw [hnone] at hp
    cases hp
  · rw [hr.dentry_eq ho] at hq
    rcases upd_cases hq with ⟨-, heq⟩ | ⟨-, hq'⟩
    · rw [← Option.some.inj heq]
    · rcases upd_cases hq' with ⟨-, heq⟩ | ⟨-, hnone⟩
      · rw [← Option.some.inj heq]
      · cases hnone
  · rw [hr.vinode_eq ho] at hq
    rcases upd_cases hq with ⟨-, heq⟩ | ⟨-, hq'⟩
    · obtain ⟨addrs, hroot, -⟩ := hd.root
      rw [← Option.some.inj heq, hroot]
      rfl
    · rcases upd_cases hq' with ⟨-, heq⟩ | ⟨-, hnone⟩
      · rw [← Option.some.inj heq, ho.type]
      · cases hnone
  · rw [hr.objs]
    show (o.sbList ++ [sb])[1]? = some sb
    rw [List.getElem?_append_right (by rw [ho.sbList]), ho.sbList]
    rfl
  · rw [hr.dentry_eq ho] at hq
    rcases upd_cases hq with ⟨rfl, -⟩ | ⟨-, hq'⟩
    · exact .inr rfl
    · rcases upd_cases hq' with ⟨rfl, -⟩ | ⟨-, hnone⟩
      · exact .inl rfl
      · cases hnone

end

theorem HostRoot.rootOnly {b : Boot} {sb w t : Ptr} {v : Vinode} {B : SuperBlock}
    (hr : HostRoot b.init.objs sb w t v B) (node : Ptr) :
    RootOnly { ((b.init.objs.addHost sb B w v (b.init.objs.sbList ++ [sb])).setV w
      { v with ref := v.ref + 1 }).addD node t ⟨rootName, 0, w, 0⟩ with root := t }
      t w ⟨rootName, 0, w, 0⟩ { v with ref := v.ref + 1 } where
  cache := by
    have hnum : v.inum < 0 := by
      rw [hr.inum]
      decide
    have hc : CacheInv (b.init.objs.addHost sb B w v (b.init.objs.sbList ++ [sb])) :=
      b.cache.addHost hr.vinode.1 hnum hr.ref
    have hd : CacheInv (((b.init.objs.addHost sb B w v (b.init.objs.sbList ++ [sb])).setV w
        { v with ref := v.ref + 1 }).addD node t ⟨rootName, 0, w, 0⟩) :=
      hc.addD hr.dentry.1 rfl rfl (upd_self _ _ _)
    exact hd.congr rfl rfl rfl rfl rfl
  dentry := rfl
  vinode := upd_upd _ _ _ _
  pos := ⟨hr.dentry.2, hr.vinode.2⟩
  node := rfl
  iOps := hr.iOps
  inum := hr.inum
  type := hr.type
  root := rfl
  empty := rfl
  file _ := rfl
  dirCache _ := rfl
  sbList := rfl
  sb := by
    show upd b.init.objs.superBlock sb (some B) v.sb ≠ none
    rw [hr.sb, upd_self]
    exact nofun

/-- `fs_init` ends in a state in which the file system is empty. -/
theorem fsInit_post (b : Boot) :
    Post (fsInit b.stack) b.init (fun _ s => ∃ M o d, Ends s o d [] ∧ Booted M o d ∧
      o.spike = .boot b.host) NoAssert := by
  refine .bind (mountRoot_post hostdevName b.holds rfl rfl rfl) ?_
  rintro _ s1 ⟨w, t, v, B, node, hr, -, h1⟩
  have ho : RootOnly _ t w _ _ := hr.rootOnly node
  refine .bind (rfsFormatDev_post h1) ?_
  rintro _ s2 ⟨d, ⟨b2, h2⟩, hd⟩
  refine .bind (mountRfs_post ramdiskName h2 rfl rfl hd.magic hr.dentry.2 ho.unbound
    (fun _ => rfl)) ?_
  rintro sb s3 ⟨w', t', nv, nd, o', hr', h3⟩
  refine .pure ⟨⟨sb, t, t'⟩, o', d, h3, booted_of_roots ho hr' hd, ?_⟩
  rw [hr'.objs]
  rfl

end Pke
