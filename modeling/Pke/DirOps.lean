import Pke.NameOps

/-!
# The calls on directories, and mounting

`vfs_opendir` and `vfs_closedir`, which keep a copy of the directory in
pages of its own, and `vfs_mount` of the host file system below the
root.
-/

namespace Pke

open Exec (Post)

section

variable {M : Mount} {care : Care} {s : State} {o : Objs} {d : Nat → Block} {b : Block}
  {E : Fault → Prop} {host : VinodeOps}

/-! ## Directories -/

/-- The descriptor `file` is at entry `k` of the copy `blk` of directory `n`. -/
def Objs.ReadsAt (o : Objs) (file : Ptr) (n k : Int) (blk : Block) : Prop :=
  ∃ f x v c, o.file file = some f ∧ f.status = .opened ∧ f.offset = k ∧
    o.dentry f.fDentry = some x ∧ o.vinode x.dentryInode = some v ∧ v.iOps = .rfs ∧
    v.type = dirI ∧ v.inum = n ∧ o.dirCache v.iFsInfo = some c ∧ o.dirBlock c.dirBaseAddr = some blk

/-- The block directory `n` has on disk. -/
def dirBlockOf (d : Nat → Block) (n : Int) : Block := d (addrOf (diskInode d n).addrs 0).toNat

theorem vfsOpendir_post (care : Care) {path : Path} {tokens : List Name} (h : Holds s o d b [])
    (hi : Inv M o d) (hp : RfsPath path tokens) (hstop : StopOk M o d 0 tokens)
    (hmay : ¬care.still) :
    Post (vfsOpendir host path) s (fun r s' => ∃ o', Ends s' o' d [] ∧
      Steps M care (o, d) (o', d) ∧
      ∀ file, r = some file → ∃ n, o'.ReadsAt file n 0 (dirBlockOf d n)) NoAssert := by
  refine post_lookup care h hi hp hstop ?_ ?_
  swap
  · intro s1 o1 b1 r _ _ _ h1 _ hr _ hnone _ _
    rw [hnone]
    exact .pure ⟨o1, ⟨b1, h1⟩, hr.steps, nofun⟩
  intro s1 o1 b1 r t y u h1 hi1 hr _ hdentry hy hu hrfs _
  rw [hdentry]
  refine post_known dentryKind h1 hy ?_
  refine post_known vinodeKind h1 hu ?_
  refine .ite (fun _ => .pure ⟨o1, ⟨b1, h1⟩, hr.steps, nofun⟩) fun hdir => ?_
  rw [hrfs]
  refine .bind (allocVfsFile_post h1 hy noAssert_nullPage) ?_
  rintro file s2 ⟨hfresh, -, h2⟩
  have hdir' : u.type = dirI := not_not.mp hdir
  have hone : u.blocks = 1 := ((hi1.shape hu hrfs).dir hdir').1
  refine .bind (R := fun _ s' => ∃ o', Ends s' o' d [] ∧ Steps M care (o, d) (o', d) ∧
    ∃ n, o'.ReadsAt file n 0 (dirBlockOf d n)) ?_ ?_
  · refine .bind (rfsHookOpendir_post h2 hu hone) ?_
    rintro _ s3 ⟨base, p, hbase, hp, h3⟩
    refine .pure ⟨_, h3, hr.steps.tail (.dirOpened file t ⟨.opened, true, false, 0, t⟩ y u p base
      hfresh.file hy rfl rfl rfl hu hrfs hdir' hp hbase hmay), u.inum, ?_⟩
    rw [dirBlockOf, hi1.dir_eq hu hrfs hdir']
    exact ⟨_, _, _, _, upd_self _ _ _, rfl, rfl, upd_self _ _ _, upd_self _ _ _, hrfs, hdir', rfl,
      upd_self _ _ _, upd_self _ _ _⟩
  · rintro _ s3 ⟨o', hend, hsteps, hreads⟩
    refine .pure ⟨o', hend, hsteps, fun file' heq => ?_⟩
    obtain rfl := Option.some.inj heq
    exact hreads

/-- A directory that is read is one of RFS. -/
def Objs.ReadDirOk (o : Objs) (file : Ptr) : Prop :=
  ∀ f x v, o.file file = some f → o.dentry f.fDentry = some x →
    o.vinode x.dentryInode = some v → v.type = dirI → v.iOps = .rfs

theorem readDirentry_post {p : Int} (h : Holds s o d b []) :
    Post (readDirentry p) s (fun _ s' => s' = s) NoAssert := by
  refine post_follow dirBlockKind h (fun _ => noAssert_ub _) fun blk _ => ?_
  refine .ite (fun _ => .fault (noAssert_ub _)) fun _ => ?_
  exact .ite (fun _ => .fault (noAssert_ub _)) fun _ => .pure rfl

theorem vfsReaddir_post (care : Care) {file : Ptr} (h : Holds s o d b []) (hi : Inv M o d)
    (hok : o.ReadDirOk file) (hmay : ¬care.still) :
    Post (vfsReaddir host file) s (fun _ s' => ∃ o', Ends s' o' d [] ∧
      Steps M care (o, d) (o', d)) NoAssert := by
  refine post_file h noAssert_ub fun f x v hf hx hv => ?_
  by_cases hdir : v.type = dirI
  · rw [if_neg (not_not.mpr hdir), hok f x v hf hx hv hdir]
    have hoff := hi.files file f hf
    refine .bind (R := fun r s' => s' = s ∧ 0 ≤ r.2.2) ?_ ?_
    · refine post_known vinodeKind h hv ?_
      refine .ite (fun _ => .pure ⟨rfl, hoff⟩) fun _ => ?_
      refine post_follow dirCacheKind h (fun _ => noAssert_ub _) fun c _ => ?_
      refine .bind (readDirentry_post h) ?_
      rintro e _ rfl
      refine .pure ⟨rfl, ?_⟩
      show 0 ≤ f.offset + 1
      omega
    · rintro ⟨ret, dir, off⟩ _ ⟨rfl, hpos⟩
      refine post_set fileKind h hf fun s2 h2 => .pure ⟨_, ⟨b, h2⟩, .single ?_⟩
      refine .moved file f off hf hpos (.inr fun x' v' hx' hv' hfile => ?_) hmay
      obtain rfl := Option.some.inj (hx.symm.trans hx')
      obtain rfl := Option.some.inj (hv.symm.trans hv')
      rw [hdir] at hfile
      exact absurd hfile (by decide)
  · rw [if_pos hdir]
    exact .pure ⟨o, ⟨b, h⟩, .refl⟩

/-- What `vfs_closedir` needs: the descriptor is of an RFS directory, and the
pages of its copy have not been given back yet. -/
def Objs.CloseDirOk (o : Objs) (file : Ptr) : Prop :=
  ∀ f ∈ o.file file, ∀ x ∈ o.dentry f.fDentry, ∀ v ∈ o.vinode x.dentryInode, v.type = dirI →
    v.iOps = .rfs ∧ ∀ c ∈ o.dirCache v.iFsInfo, o.Cached c.dirBaseAddr c.blockCount.toNat 0

/-- Nobody else reads the copy the descriptor reads. -/
def Objs.CopyUnread (o : Objs) (file : Ptr) : Prop :=
  ∀ f x v c, o.file file = some f → o.dentry f.fDentry = some x →
    o.vinode x.dentryInode = some v → v.type = dirI → o.dirCache v.iFsInfo = some c →
      ∀ p ≠ file, ∀ w u c', o.Reads p w u → o.dirCache u.iFsInfo = some c' →
        c'.dirBaseAddr ≠ c.dirBaseAddr

theorem Objs.Reads.of_close {file p w : Ptr} {f : File} {x : Dentry} {v : Vinode}
    (hx : o.dentry f.fDentry = some x) (h : (o.close file f x).Reads p w v) :
    p ≠ file ∧ o.Reads p w v := by
  obtain ⟨hdir, hv, t, y, ⟨g, hg, hst, hgt⟩, hy, hw⟩ := h
  have hpg : p ≠ file ∧ o.file p = some g := by
    rcases upd_cases hg with ⟨-, hsome⟩ | ⟨hne, hg'⟩
    · rw [← Option.some.inj hsome] at hst
      cases hst
    · exact ⟨hne, hg'⟩
  refine ⟨hpg.1, hdir, hv, t, ?_⟩
  rcases upd_cases hy with ⟨rfl, hsome⟩ | ⟨-, hy'⟩
  · exact ⟨x, ⟨g, hpg.2, hst, hgt⟩, hx, by rw [← hw, ← Option.some.inj hsome]⟩
  · exact ⟨y, ⟨g, hpg.2, hst, hgt⟩, hy', hw⟩

theorem vfsClosedir_post {file : Ptr} (h : Holds s o d b []) (hi : Inv M o d)
    (hok : o.CloseDirOk file) (hopen : care.fds → ∀ f, o.file file = some f → f.status = .opened)
    (hlast : care.dirs → o.CopyUnread file) (hmay : ¬care.still) (hheld : ¬care.held) :
    Post (vfsClosedir host file) s (fun _ s' => ∃ o', Ends s' o' d [] ∧
      Steps M care (o, d) (o', d)) NoAssert := by
  refine post_file h noAssert_ub fun f x v hf hx hv => ?_
  by_cases hdir : v.type = dirI
  · obtain ⟨hrfs, hcached⟩ := hok f hf x hx v hv hdir
    rw [if_neg (not_not.mpr hdir), hrfs]
    refine post_set dentryKind h hx fun s1 h1 => ?_
    refine post_set fileKind h1 hf fun s2 h2 => ?_
    have hclosed : Steps M care (o, d) (o.close file f x, d) :=
      .single (.closed file f x hf (fun hc => hopen hc f hf) hx hmay hheld)
    refine .bind (R := fun _ s' => ∃ o', Ends s' o' d [] ∧ Steps M care (o, d) (o', d)) ?_ ?_
    · refine .bind (rfsHookClosedir_post h2 hv (fun c hc => ⟨hi.copies _ c hc, hcached c hc⟩)) ?_
      rintro _ s3 ⟨c, hc, hend⟩
      refine .pure ⟨_, hend, hclosed.tail (.dirFreed x.dentryInode v c hv hrfs hc ?_ hmay)⟩
      intro hd p w u c' hreads hc'
      obtain ⟨hne, hreads'⟩ := Objs.Reads.of_close hx hreads
      exact hlast hd f x v c hf hx hv hdir hc p hne w u c' hreads' hc'
    · rintro _ s3 hend
      exact .pure hend
  · rw [if_pos hdir]
    exact .pure ⟨o, ⟨b, h⟩, .refl⟩

/-! ## Mounting the host -/

/-- The super block at `sb`, the root vinode at `w` and the root dentry at `t` of
a new host file system. -/
structure HostRoot (o : Objs) (sb w t : Ptr) (v : Vinode) (B : SuperBlock) : Prop where
  superBlock : o.superBlock sb = none
  vinode : o.vinode w = none ∧ w ≠ 0
  dentry : o.dentry t = none ∧ t ≠ 0
  iOps : v.iOps = .hostfs
  inum : v.inum = -1
  type : v.type = dirI
  ref : v.ref = 0
  sRoot : B.sRoot = t
  sb : v.sb = sb

theorem hostfsGetSuperblock_post (h : Holds s o d b []) (hE : E .nullPage) :
    Post hostfsGetSuperblock s (fun sb s' => ∃ w t v B, HostRoot o sb w t v B ∧
      Holds s' { o with
        superBlock := upd o.superBlock sb (some B)
        vinode := upd o.vinode w (some { v with ref := v.ref + 1 })
        dentry := upd o.dentry t (some ⟨rootName, 0, w, 0⟩) } d b []) E := by
  refine .bind (allocPage_post h hE) ?_
  rintro sb s1 ⟨h1, hsb, -, -⟩
  refine .bind (R := fun w s' => ∃ v : Vinode, o.Fresh w ∧ w ≠ 0 ∧ v.iOps = .hostfs ∧ v.ref = 0 ∧
    v.sb = sb ∧ Holds s' (o.setV w v) d b [sb]) ?_ ?_
  · refine .bind (allocPage_post h1 hE) ?_
    rintro w s2 ⟨h2, hw, hw0, hR⟩
    exact post_setNew vinodeKind h2 hR fun s3 h3 => .pure ⟨_, hw, hw0, rfl, rfl, rfl, h3⟩
  rintro w s2 ⟨v, hw, hw0, hhost, href, hvsb, h2⟩
  refine post_known vinodeKind h2 (upd_self _ _ _) ?_
  refine post_set vinodeKind h2 (upd_self _ _ _) fun s3 h3 => ?_
  refine .bind (allocVfsDentry_inode h3 (upd_self _ _ _) hE) ?_
  rintro t s4 ⟨ht, ht0, -, h4⟩
  refine post_setNew superBlockKind h4 (by simp) fun s5 h5 => .pure ?_
  refine ⟨w, t, { v with inum := -1, type := dirI }, ⟨0, 0, 0, 0, t, fun _ => 0⟩,
    ⟨hsb.superBlock, ⟨hw.vinode, hw0⟩, ⟨ht.dentry, ht0⟩, hhost, rfl, rfl, href, rfl, hvsb⟩,
    h5.cast ?_⟩
  simp only [Objs.setV, Objs.setD, upd_upd]

/-- What a mount of the host needs: the name is not bound below the root yet. -/
def Objs.MountOk (o : Objs) (devName : Name) (mntType : MountType) : Prop :=
  ∀ dev, o.devList.find? (fun x => x.devName == devName) = some dev →
    dev.fsType = .hostfs ∧ mntType = .default ∧ o.findD ⟨o.root, dev.devName⟩ = none

theorem vfsMount_post (care : Care) {devName : Name} {mntType : MountType} (h : Holds s o d b [])
    (hi : Inv M o d) (hok : o.MountOk devName mntType) :
    Post (vfsMount devName mntType) s (fun _ s' => ∃ o', Ends s' o' d [] ∧
      Steps M care (o, d) (o', d)) NoAssert := by
  unfold vfsMount
  refine .bindGet ?_
  have hdevs : s.vfsDevList = o.devList := congrArg Objs.devList h.objs
  rw [hdevs]
  cases hdev : o.devList.find? (fun x => x.devName == devName) with
  | none => exact .fault (noAssert_panic _)
  | some dev =>
      obtain ⟨hhost, rfl, hnew⟩ := hok dev hdev
      have hroot : o.root = M.root := hi.tree.root
      dsimp only
      rw [hhost]
      refine .bind (hostfsGetSuperblock_post h noAssert_nullPage) ?_
      rintro sb s1 ⟨w, t, v, B, hr, h1⟩
      refine post_known superBlockKind h1 (upd_self _ _ _) ?_
      rw [hr.sRoot]
      refine post_known dentryKind h1 (upd_self _ _ _) ?_
      -- the root vinode has no inode number and stays out of the table
      refine .bind (R := fun _ s' => s' = s1) ?_ ?_
      · refine post_known vinodeKind h1 (upd_self _ _ _) ?_
        rw [if_pos (by show v.inum < 0; rw [hr.inum]; decide)]
        exact .pure rfl
      rintro _ s2 rfl
      refine .bindGet ?_
      refine .ite (fun _ => .fault (noAssert_panic _)) fun _ => ?_
      obtain ⟨rx, -, hrx, -⟩ := hi.tree.rootD
      have hr0 : s2.vfsRootDentry = M.root := (congrArg Objs.root h1.objs).trans hroot
      have hne : M.root ≠ 0 := h.ne_zero (K := dentryKind) hrx
      rw [hr0]
      refine .bindModify ?_
      have h2 := h1.withSbList (s2.vfsSbList ++ [sb])
      rw [if_neg hne]
      refine post_set dentryKind h2 (upd_self _ _ _) fun s3 h3 => ?_
      rw [hroot] at hnew
      refine .bind (hashPutDentry_post (x := ⟨dev.devName, 0, w, M.root⟩) h3 (upd_self _ _ _) hnew
        noAssert_nullPage) ?_
      rintro _ s4 ⟨node, hnode, h4⟩
      have h5 : Holds s4 (((o.addHost sb B w v (s2.vfsSbList ++ [sb])).setV w
          { v with ref := v.ref + 1 }).addD node t ⟨dev.devName, 0, w, M.root⟩) d b [] := by
        refine h4.cast ?_
        simp only [Objs.addD, Objs.addHost, Objs.setV, upd_upd]
      refine .pure ⟨_, ⟨b, h5⟩, .single ?_⟩
      exact .hostMount sb w t node B v ⟨dev.devName, 0, w, M.root⟩ _ hr.superBlock hr.vinode.1
        hr.vinode.2 hr.dentry.1 hr.dentry.2 hnode hnew rfl rfl rfl hr.iOps hr.inum hr.type hr.ref hr.sb

end

end Pke
