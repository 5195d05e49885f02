import Pke.FileOps

/-!
# The calls on names

`vfs_open`, `vfs_mkdir`, `vfs_link` and `vfs_unlink`. Each is a lookup
and then the changes `create`, `link`, `unlink` and those to the names
in the cache. A directory that has run over its one block is written
outside of it; the calls are sequences of changes as long as that has
not happened (`Objs.DirCap`).
-/

namespace Pke

open Exec (Post)

/-- The directories in memory fit into their block. -/
def Objs.DirCap (o : Objs) : Prop :=
  ∀ w v, o.vinode w = some v → v.iOps = .rfs → v.type = dirI → v.size ≤ 4096

variable {w t : Ptr} {v pv : Vinode} {o' : Objs} {n : Int} {p x : Dentry} {path : Path}
  {tokens : List Name} {r : LookupResult}

section

variable {M : Mount} {care : Care} {s : State} {o : Objs} {d : Nat → Block} {b : Block}
  {E : Fault → Prop} {host : VinodeOps}

theorem Inv.hasRoom (hi : Inv M o d) (hw : o.vinode w = some v) (hrfs : v.iOps = .rfs)
    (hdir : v.type = dirI) (hcap : v.size + 32 ≤ 4096) : v.HasRoom := by
  obtain ⟨-, -, hdvd, hlo, -⟩ := hi.dir_bounds hw hrfs hdir
  exact ⟨by omega, hdvd, hlo⟩

/-! ## Creating -/

/-- Directory `m` has got the entry of inode `n` under `name`. -/
structure EntryMade (M : Mount) (care : Care) (o : Objs) (d : Nat → Block) (m : Int) (name : Name)
    (n : Int) (o' : Objs) (d' : Nat → Block) : Prop where
  steps : Steps M care (o, d) (o', d')
  ents : dirEnts d' = upd (dirEnts d) m (dirEnts d m ++ [(n, name)])

theorem EntryMade.after {o1 o'' : Objs} {d' : Nat → Block} {m : Int} {name : Name}
    (h : EntryMade M care o1 d m name n o' d') (hbefore : Steps M care (o, d) (o1, d))
    (hafter : Steps M care (o', d') (o'', d')) : EntryMade M care o d m name n o'' d' :=
  ⟨(hbefore.trans h.steps).trans hafter, h.ents⟩

/-- A directory with room for one more entry in its block. -/
def DirRoom (d : Nat → Block) (m : Int) : Prop :=
  (diskInode d m).type = rDir ∧ direntryCount (diskInode d m).size < 128

theorem Inv.hasRoom_of_dirRoom (hi : Inv M o d) (hw : o.vinode w = some v) (hrfs : v.iOps = .rfs)
    (hroom : DirRoom d v.inum) : v.type = dirI ∧ v.HasRoom := by
  have hdir : v.type = dirI := (hi.type_eq hw hrfs).symm.trans hroom.1
  have hcount := hroom.2
  rw [hi.dir_eq hw hrfs hdir] at hcount
  have hcount : direntryCount v.size < 128 := hcount
  obtain ⟨-, hsize, hdvd, -⟩ := hi.dir_bounds hw hrfs hdir
  unfold direntryCount at hcount
  exact ⟨hdir, hi.hasRoom hw hrfs hdir (by omega)⟩

/-- What a call has made of a path that was missing from `token` on: an entry
for `token`, where the walk stopped, for an inode with `P`. -/
structure Creates (M : Mount) (care : Care) (o : Objs) (d : Nat → Block) (tokens : List Name)
    (P : Int → Prop) (o' : Objs) (d' : Nat → Block) : Prop where
  made : ∃ m token rest, walk (dirEnts d) 0 tokens = (m, token :: rest) ∧
    (DirRoom d m → ∃ n, P n ∧ EntryMade M care o d m token n o' d')

/-- The new inode and its name enter the cache. -/
theorem cacheCreated_post (care : Care) {parent pw : Ptr} {B : SuperBlock} {name : Name}
    {type : Int} {k : Nat} {o1 : Objs} {d1 : Nat → Block} (h : Holds s o1 d1 b [])
    (hnew : NewEntry (o.setD t ⟨name, 0, 0, parent⟩) d pv B pw name type w n k o1 d1)
    (hi : Inv M o d) (ht : o.dentry t = none) (ht0 : t ≠ 0) (hp : o.dentry parent = some p)
    (hpw : p.dentryInode = pw) (hpv : o.vinode pw = some pv) (hprfs : pv.iOps = .rfs)
    (hB : o.superBlock M.sb = some B) (hBn : B.nblocks = 100) (hname : NameOk name)
    (hmiss : entryOf (dirEnts d pv.inum) name = none) (htype : type = rFile ∨ type = rDir)
    (hE : E .nullPage) : Post (cacheCreated t w) s (fun _ s' => ∃ o', Ends s' o' d1 [] ∧
      (∃ x v, o'.dentry t = some x ∧ o'.vinode x.dentryInode = some v ∧ v.iOps = .rfs) ∧
      (o'.DirCap → pv.HasRoom) ∧
      (pv.HasRoom → EntryMade M care o d pv.inum name n o' d1)) E := by
  obtain ⟨di, rfl, hdi⟩ := hnew.objs
  have hsb : pv.sb = M.sb := hi.sb_eq hpv hprfs
  have hw : o.vinode w = none := hnew.fresh.vinode
  have hpwne : pw ≠ w := ne_of_none hw hpv
  have hfind : o.findD ⟨parent, name⟩ = none := hi.findD_none hp (hpw ▸ hpv) hprfs hmiss
  have hdead : ¬Live (diskInode d) n := fun hl => hl hnew.free
  have hnpv : n ≠ pv.inum := fun heq => hdead (heq ▸ hi.live hpv hprfs)
  have hfindV : o.findV ⟨n, pv.sb⟩ = none := by
    rw [hsb]
    exact hi.findV_none hdead
  unfold cacheCreated
  refine post_known dentryKind h (upd_self _ _ _) ?_
  refine post_set dentryKind h (upd_self _ _ _) fun s1 h1 => ?_
  refine .bind (addRef_post (v := loadedVinode pv.sb n di) h1
    ((upd_ne hpwne.symm).trans (upd_self _ _ _))) fun _ s2 h2 => ?_
  refine .bind (hashPutDentry_post (x := ⟨name, 0, w, parent⟩) h2 (upd_self _ _ _) hfind hE) ?_
  rintro _ s3 ⟨node, hnode, h3⟩
  refine .bind (hashPutVinode_post (v := { loadedVinode pv.sb n di with ref := 1 }) h3
    (upd_self _ _ _) hnew.inum.1 hfindV hE) ?_
  rintro _ s4 ⟨node', hnode', h4⟩
  obtain ⟨hnodes, hnode''⟩ := upd_some_none hnode'
  have h5 : Holds s4 (((((o.withMap M.sb B (upd B.freemap k 1)).setV pw
      { pv with size := pv.size + 32 }).addV node' w (loadedVinode M.sb n di)).setV w
        { loadedVinode M.sb n di with ref := (loadedVinode M.sb n di).ref + 1 }).addD node t
          ⟨name, 0, w, parent⟩) d1 b [] := by
    refine h4.cast ?_
    rw [← hsb]
    simp only [Objs.addV, Objs.addD, Objs.setV, Objs.setD, Objs.withMap, upd_upd]
    rw [upd_comm hpwne, upd_upd, upd_comm hpwne.symm, upd_comm hnodes]
    rfl
  refine .pure ⟨_, ⟨b, h5⟩, ⟨_, _, upd_self _ _ _, upd_self _ _ _, rfl⟩, fun hcap =>
    hi.hasRoom hpv hprfs hnew.dir (hcap pw { pv with size := pv.size + 32 }
      ((upd_ne hpwne).trans ((upd_ne hpwne).trans (upd_self _ _ _))) hprfs hnew.dir),
    fun hroom => ?_⟩
  obtain rfl := hdi hroom hnpv
  rw [hnew.disk hroom]
  have hk : k < 100 := by
    have := hnew.lt
    rwa [hBn] at this
  have hcreate : Steps M care (o, d) (((o.withMap M.sb B (upd B.freemap k 1)).setV pw
      { pv with size := pv.size + 32 }).addV node' w (loadedVinode M.sb n
        (freshInode type (12 + k) (diskInode d n).addrs)),
      addEntry (writeInode d (freshInode type (12 + k) (diskInode d n).addrs) n) pv name n) :=
    .single (.create pw w node' pv B n k type name hpv hprfs hnew.dir hroom hname
      (entryOf_none.mp hmiss) htype hnew.inum hnew.free hk hB hnew.zero hw hnew.pos hnode'')
  have hents := (hi.disk_create hpv hprfs hnew.dir hroom hname hnew.inum hnew.free htype hk
    (by rw [freemap_eq hB]; exact hnew.zero)).2
  refine ⟨hcreate.tail (.bind node t ⟨name, 0, w, parent⟩ p _ { pv with size := pv.size + 32 } ht ht0
    ((upd_ne hnodes.symm).trans hnode) hfind rfl (upd_self _ _ _) rfl hp ?_ hprfs ?_), hents⟩
  · rw [hpw]
    exact (upd_ne hpwne).trans (upd_self _ _ _)
  · show (n, name) ∈ dirEnts _ pv.inum
    rw [hents, upd_self]
    exact List.mem_append_right _ (List.mem_singleton_self _)

/-- A path below the mount point has a last component. -/
theorem post_getBaseName {α : Type} {Q : α → State → Prop} {f : Name → Kern α}
    (hp : RfsPath path tokens) (hlen : path.bytes.length < maxPathLen)
    (hf : ∀ base, Post (f base) s Q E) : Post (getBaseName path >>= f) s Q E := by
  refine .bind (R := fun _ s' => s' = s) ?_ ?_
  · unfold getBaseName copyPath
    rw [if_pos hlen]
    refine .step rfl (.ofOption (fun hnone => ?_) fun _ _ => rfl)
    rw [hp] at hnone
    exact absurd (List.getLast?_eq_none_iff.mp hnone) (by simp)
  · rintro base _ rfl
    exact hf base

/-- Where a name is missing in a lookup that has been made. -/
structure Missing (o : Objs) (d : Nat → Block) (r : LookupResult) (p : Dentry) (v : Vinode) :
    Prop where
  parent : o.dentry r.parent = some p
  vinode : o.vinode p.dentryInode = some v
  rfs : v.iOps = .rfs
  entry : entryOf (dirEnts d v.inum) r.missName = none
  name : NameOk r.missName

theorem Resolved.missing_at {m : Int} {token : Name} {rest : List Name}
    (hr : Resolved M care o d 0 tokens r o') (hp : RfsPath path tokens)
    (hlen : path.bytes.length < maxPathLen) (hwalk : walk (dirEnts d) 0 tokens = (m, token :: rest)) :
    r.dentry = none ∧ ∃ p v, Missing o' d r p v ∧ v.inum = m := by
  obtain ⟨hnone, rfl, p, v, hpar, hv, hrfs, rfl⟩ := hr.missing m token rest hwalk
  obtain ⟨hent, hmem⟩ := walk_missing hwalk
  exact ⟨hnone, p, v, ⟨hpar, hv, hrfs, hent, nameOk_of_path hp hlen _ hmem⟩, rfl⟩

/-- A call that looks a path up, by what the lookup comes to. -/
theorem post_lookup (care : Care) {α : Type} {f : LookupResult → Kern α} {Q : α → State → Prop}
    (h : Holds s o d b []) (hi : Inv M o d) (hp : RfsPath path tokens)
    (hstop : StopOk M o d 0 tokens)
    (hfound : ∀ s1 o1 b1 r t y u, Holds s1 o1 d b1 [] → Inv M o1 d →
      Resolved M care o d 0 tokens r o1 → walk (dirEnts d) 0 tokens = (u.inum, []) →
      r.dentry = some t → o1.dentry t = some y → o1.vinode y.dentryInode = some u →
      u.iOps = .rfs → y.parent = r.parent ∧ NameOk y.name → Post (f r) s1 Q NoAssert)
    (hmiss : ∀ s1 o1 b1 r rest p pv, Holds s1 o1 d b1 [] → Inv M o1 d →
      Resolved M care o d 0 tokens r o1 →
      walk (dirEnts d) 0 tokens = (pv.inum, r.missName :: rest) → r.dentry = none →
      path.bytes.length < maxPathLen → Missing o1 d r p pv → Post (f r) s1 Q NoAssert) :
    Post (lookupFinalDentry host path >>= f) s Q NoAssert := by
  refine .bind (lookupFinalDentry_post care h hi hp hstop noAssert_nullPage
    fun _ => noAssert_ub _) ?_
  rintro r s1 ⟨hlen, o1, ⟨b1, h1⟩, hr⟩
  have hi1 : Inv M o1 d := hr.steps.inv hi
  rcases hwalk : walk (dirEnts d) 0 tokens with ⟨m, rest⟩
  cases rest with
  | nil =>
      obtain ⟨t, y, u, hdentry, hy, hu, hrfs, rfl, hlast⟩ := hr.found m hwalk
      exact hfound s1 o1 b1 r t y u h1 hi1 hr hwalk hdentry hy hu hrfs hlast
  | cons token rest =>
      obtain rfl := (hr.missing m token rest hwalk).2.1
      obtain ⟨hnone, p, pv, hm, rfl⟩ := hr.missing_at hp hlen hwalk
      exact hmiss s1 o1 b1 r rest p pv h1 hi1 hr hwalk hnone hlen hm

theorem openCreate_post (care : Care) (h : Holds s o d b []) (hi : Inv M o d)
    (hp : RfsPath path tokens) (hlen : path.bytes.length < maxPathLen) (hm : Missing o d r p pv) :
    Post (openCreate host path r) s (fun q s' => ∃ o' d', Ends s' o' d' [] ∧
      (∀ t, q = some t → ∃ x v, o'.dentry t = some x ∧ o'.vinode x.dentryInode = some v ∧
        v.iOps = .rfs) ∧ (o'.DirCap → Steps M care (o, d) (o', d')) ∧
      (q ≠ none → pv.HasRoom → ∃ n, (diskInode d n).type = rFree ∧
        EntryMade M care o d pv.inum r.missName n o' d')) NoAssert := by
  refine post_getBaseName hp hlen fun base => ?_
  by_cases hbase : r.missName = base
  · subst hbase
    rw [if_neg (not_not.mpr rfl)]
    obtain ⟨B, hB, hBn⟩ := hi.sb
    refine .bind (allocVfsDentry_null h noAssert_nullPage) ?_
    rintro t s1 ⟨hfresh, ht0, -, h1⟩
    have hne : r.parent ≠ t := ne_of_none hfresh.dentry hm.parent
    refine post_known dentryKind h1 ((upd_ne hne).trans hm.parent) ?_
    refine post_opsOf h1 hm.vinode hm.rfs ?_
    refine .bind (rfsCreate_post h1 hm.vinode (hi.num hm.vinode hm.rfs) (upd_self _ _ _)
      (by rw [hi.sb_eq hm.vinode hm.rfs]; exact hB) hBn) ?_
    intro q s2 hq
    cases q with
    | none => exact .fault (noAssert_panic _)
    | some w =>
        obtain ⟨n, k, o2, d2, ⟨b2, h2⟩, hnew⟩ := hq w rfl
        refine .bind (cacheCreated_post care h2 hnew hi hfresh.dentry ht0 hm.parent rfl hm.vinode hm.rfs
          hB hBn hm.name hm.entry (.inl rfl) noAssert_nullPage) ?_
        rintro _ s3 ⟨o3, h3, hx, hcap, hmade⟩
        refine .pure ⟨o3, d2, h3, fun t' ht' => ?_, fun hc => (hmade (hcap hc)).steps,
          fun _ hroom => ⟨n, hnew.free, hmade hroom⟩⟩
        obtain rfl := Option.some.inj ht'
        exact hx
  · rw [if_pos hbase]
    exact .pure ⟨o, d, ⟨b, h⟩, nofun, fun _ => .refl, fun hne => absurd rfl hne⟩

theorem vfsOpen_post (care : Care) {flags : Nat} (h : Holds s o d b []) (hi : Inv M o d)
    (hp : RfsPath path tokens) (hstop : StopOk M o d 0 tokens) :
    Post (vfsOpen host path flags) s (fun q s' => ∃ o' d', Ends s' o' d' [] ∧
      (o'.DirCap → Steps M care (o, d) (o', d')) ∧
      (q ≠ none → (walk (dirEnts d) 0 tokens).2 ≠ [] →
        Creates M care o d tokens (fun n => (diskInode d n).type = rFree) o' d')) NoAssert := by
  refine post_lookup care h hi hp hstop ?_ ?_
  · intro s1 o1 b1 r t y u h1 _ hr hwalk hdentry hy hu hrfs _
    rw [hdentry]
    refine (openDentry_post M care h1 hy hu (fun _ => hrfs)).mono ?_
    rintro _ s2 ⟨o2, h2, -, hsteps⟩
    exact ⟨o2, d, h2, fun _ => hr.steps.trans hsteps, fun _ hne => absurd (by rw [hwalk]) hne⟩
  · intro s1 o1 b1 r rest p pv h1 hi1 hr hwalk hnone hlen hm
    rw [hnone]
    refine .ite (fun _ => .pure ⟨o1, d, ⟨b1, h1⟩, fun _ => hr.steps, fun hne => absurd rfl hne⟩)
      fun _ => ?_
    refine .bind (openCreate_post care h1 hi1 hp hlen hm) ?_
    rintro q s2 ⟨o2, d2, ⟨b2, h2⟩, hx, hsteps, hmade⟩
    cases q with
    | none =>
        exact .pure ⟨o2, d2, ⟨b2, h2⟩, fun hcap => hr.steps.trans (hsteps hcap),
          fun hne => absurd rfl hne⟩
    | some t =>
        obtain ⟨x, v, hx, hv, hrfs⟩ := hx t rfl
        refine (openDentry_post M care h2 hx hv (fun _ => hrfs)).mono ?_
        rintro _ s3 ⟨o3, h3, hsame, hopen⟩
        refine ⟨o3, d2, h3, fun hcap => ?_, fun _ _ => ⟨_, _, rest, hwalk, fun hroom => ?_⟩⟩
        · have hcap2 : o2.DirCap := by
            unfold Objs.DirCap
            rw [← hsame]
            exact hcap
          exact (hr.steps.trans (hsteps hcap2)).trans hopen
        · obtain ⟨-, hroom⟩ := hi1.hasRoom_of_dirRoom hm.vinode hm.rfs hroom
          obtain ⟨n, hfree, hmade⟩ := hmade nofun hroom
          exact ⟨n, hfree, hmade.after hr.steps hopen⟩

/-- A path whose lookup stops in a directory. -/
def StopDir (d : Nat → Block) (n : Int) (tokens : List Name) : Prop :=
  ∀ m token rest, walk (dirEnts d) n tokens = (m, token :: rest) → (diskInode d m).type = rDir

theorem StopDir.stopOk (h : StopDir d n tokens) : StopOk M o d n tokens :=
  fun m token rest hwalk hne => absurd (h m token rest hwalk) hne

theorem mkdirDentry_post (h : Holds s o d b []) (hi : Inv M o d) (hp : RfsPath path tokens)
    (hlen : path.bytes.length < maxPathLen) (hm : Missing o d r p pv)
    (hdir : care.paths → pv.type = dirI) :
    Post (mkdirDentry host path r) s (fun q s' => ∃ o' d', Ends s' o' d' [] ∧
      (o'.DirCap → Steps M care (o, d) (o', d')) ∧
      (q = 0 → pv.HasRoom → ∃ n, (diskInode d n).type = rFree ∧
        EntryMade M care o d pv.inum r.missName n o' d')) NoAssert := by
  refine post_getBaseName hp hlen fun base => ?_
  by_cases hbase : r.missName = base
  · subst hbase
    rw [if_neg (not_not.mpr rfl)]
    obtain ⟨B, hB, hBn⟩ := hi.sb
    have hsb := hi.sb_eq hm.vinode hm.rfs
    refine .bind (allocVfsDentry_null h noAssert_nullPage) ?_
    rintro t s1 ⟨hfresh, ht0, -, h1⟩
    have hne : r.parent ≠ t := ne_of_none hfresh.dentry hm.parent
    have hs0 : 0 ≤ pv.size := (hi.shape hm.vinode hm.rfs).size.1
    have hs1 : pv.size ≤ pv.blocks * 4096 := (hi.shape hm.vinode hm.rfs).size.2
    have hten : pv.blocks ≤ 10 := (hi.shape hm.vinode hm.rfs).blocks.2
    have hfits := hi.fits_size hm.vinode hm.rfs (pv.size + 32) (by omega) (by omega)
    refine post_known dentryKind h1 ((upd_ne hne).trans hm.parent) ?_
    refine post_opsOf h1 hm.vinode hm.rfs ?_
    refine .bind (rfsMkdir_post h1 hm.vinode (hi.num hm.vinode hm.rfs) (upd_self _ _ _)
      (by rw [hsb]; exact hB) hBn hfits) ?_
    rintro q s2 ⟨hsome, hnone⟩
    cases q with
    | none =>
        obtain ⟨hfile, n, k, hn, hfree, hk, hzero, b2, h2⟩ := hnone rfl
        refine .bind (freePage_post (K := dentryKind) h2 (upd_self _ _ _) fun f hf => by cases hf) fun _ s3 h3 => ?_
        have h4 : Holds s3 (o.withMap M.sb B (upd B.freemap k 1))
            (writeInode d (freshInode rDir (12 + k) (diskInode d n).addrs) n) b2 [] := by
          refine h3.cast ?_
          simp only [Objs.withMap, Objs.setD, upd_upd, hsb]
          rw [upd_eq_self hfresh.dentry]
        refine .pure ⟨_, _, ⟨b2, h4⟩, fun _ => .single ?_, fun hq => by cases hq⟩
        exact .orphan B n k (fun hc => hfile (hdir hc)) hn hfree (by rwa [hBn] at hk) hB hzero
    | some w =>
        obtain ⟨n, k, o2, d2, ⟨b2, h2⟩, hnew⟩ := hsome w rfl
        refine .bind (cacheCreated_post care h2 hnew hi hfresh.dentry ht0 hm.parent rfl hm.vinode
          hm.rfs hB hBn hm.name hm.entry (.inr rfl) noAssert_nullPage) ?_
        rintro _ s3 ⟨o3, h3, -, hcap, hmade⟩
        exact .pure ⟨o3, d2, h3, fun hc => (hmade (hcap hc)).steps,
          fun _ hroom => ⟨n, hnew.free, hmade hroom⟩⟩
  · rw [if_pos hbase]
    exact .pure ⟨o, d, ⟨b, h⟩, fun _ => .refl, fun hq => by cases hq⟩

theorem vfsMkdir_post (h : Holds s o d b []) (hi : Inv M o d) (hp : RfsPath path tokens)
    (hstop : StopOk M o d 0 tokens) (hdir : care.paths → StopDir d 0 tokens) :
    Post (vfsMkdir host path) s (fun q s' => ∃ o' d', Ends s' o' d' [] ∧
      (o'.DirCap → Steps M care (o, d) (o', d')) ∧
      (q = 0 → Creates M care o d tokens (fun n => (diskInode d n).type = rFree) o' d')) NoAssert := by
  refine post_lookup care h hi hp hstop ?_ ?_
  · intro s1 o1 b1 r t y u h1 _ hr _ hdentry _ _ _ _
    rw [hdentry]
    exact .pure ⟨o1, d, ⟨b1, h1⟩, fun _ => hr.steps, nofun⟩
  · intro s1 o1 b1 r rest p pv h1 hi1 hr hwalk hnone hlen hm
    rw [hnone]
    have hpdir : care.paths → pv.type = dirI := fun hc => by
      rw [← hi1.type_eq hm.vinode hm.rfs]
      exact hdir hc _ _ _ hwalk
    refine (mkdirDentry_post h1 hi1 hp hlen hm hpdir).mono ?_
    rintro q s2 ⟨o2, d2, h2, hsteps, hmade⟩
    refine ⟨o2, d2, h2, fun hcap => hr.steps.trans (hsteps hcap), fun hq =>
      ⟨_, _, rest, hwalk, fun hroom => ?_⟩⟩
    obtain ⟨-, hroom⟩ := hi1.hasRoom_of_dirRoom hm.vinode hm.rfs hroom
    obtain ⟨n, hfree, hmade⟩ := hmade hq hroom
    exact ⟨n, hfree, hmade.after hr.steps .refl⟩

/-! ## Linking -/

theorem linkDentry_post (care : Care) {old : Ptr} {lv : Vinode} (h : Holds s o d b [])
    (hi : Inv M o d) (hp : RfsPath path tokens) (hlen : path.bytes.length < maxPathLen)
    (hx : o.dentry old = some x) (hlv : o.vinode x.dentryInode = some lv) (hfile : lv.type = fileI)
    (hm : Missing o d r p pv) (hdir : pv.type = dirI) :
    Post (linkDentry host old path r) s (fun q s' => ∃ o' d', Ends s' o' d' [] ∧
      (o'.DirCap → Steps M care (o, d) (o', d')) ∧
      (q = 0 → pv.HasRoom → EntryMade M care o d pv.inum r.missName lv.inum o' d')) NoAssert := by
  have hlrfs := hi.rfs_of_file hlv hfile
  obtain ⟨hne, -⟩ := hi.ne_of_type hm.vinode hm.rfs hdir hlv hlrfs hfile
  refine post_getBaseName hp hlen fun base => ?_
  by_cases hbase : r.missName = base
  · subst hbase
    rw [if_neg (not_not.mpr rfl)]
    refine post_known dentryKind h hx ?_
    refine .bind (allocVfsDentry_inode h hlv noAssert_nullPage) ?_
    rintro t s1 ⟨hfresh, ht0, -, h1⟩
    have hnet : r.parent ≠ t := fun heq => by
      have := hm.parent
      rw [heq, hfresh.dentry] at this
      cases this
    refine post_known dentryKind h1 ((upd_ne hnet).trans hm.parent) ?_
    have hpv1 := (upd_ne (f := o.vinode) (v := some { lv with ref := lv.ref + 1 }) hne).trans hm.vinode
    refine post_opsOf h1 hpv1 hm.rfs ?_
    have hlnum : InodeNum lv.inum := hi.num hlv hlrfs
    refine .bind (rfsLink_post h1 hpv1 (hi.num hm.vinode hm.rfs) hdir (upd_self _ _ _)
      hlnum hne.symm (upd_self _ _ _)) ?_
    rintro _ s2 ⟨rfl, d2, ⟨b2, h2⟩, hd2⟩
    rw [if_neg (by decide)]
    have hfind : o.findD ⟨r.parent, r.missName⟩ = none :=
      hi.findD_none hm.parent hm.vinode hm.rfs hm.entry
    refine .bind (hashPutDentry_post (x := ⟨r.missName, 0, x.dentryInode, r.parent⟩) h2
      (upd_self _ _ _) hfind noAssert_nullPage) ?_
    rintro _ s3 ⟨node, hnode, h3⟩
    have h4 : Holds s3 ((((o.setV x.dentryInode { lv with nlinks := lv.nlinks + 1 }).setV
        p.dentryInode { pv with size := pv.size + 32 }).setV x.dentryInode
          { lv with nlinks := lv.nlinks + 1, ref := lv.ref + 1 }).addD node t
            ⟨r.missName, 0, x.dentryInode, r.parent⟩) d2 b2 [] := by
      refine h3.cast ?_
      simp only [Objs.addD, Objs.setV, Objs.setD, upd_upd]
      rw [upd_comm hne, upd_upd, upd_comm hne.symm]
    -- with room for the entry, the link and its name are two changes
    refine (fun hmade => .pure ⟨_, d2, ⟨b2, h4⟩, fun hcap => (hmade (hi.hasRoom hm.vinode hm.rfs hdir
      (hcap p.dentryInode { pv with size := pv.size + 32 }
        ((upd_ne hne).trans (upd_self _ _ _)) hm.rfs hdir))).steps, fun _ => hmade⟩ :
      (pv.HasRoom → EntryMade M care o d pv.inum r.missName lv.inum _ d2) → _) fun hroom => ?_
    rw [hd2 hroom]
    have hlink : Steps M care (o, d) ((o.setV x.dentryInode { lv with nlinks := lv.nlinks + 1 }).setV
        p.dentryInode { pv with size := pv.size + 32 },
        writeInode (addEntry d pv r.missName lv.inum)
          { lv with nlinks := lv.nlinks + 1 }.toDinode lv.inum) :=
      .single (.link p.dentryInode x.dentryInode pv lv r.missName hm.vinode hm.rfs hdir hroom hm.name
        (entryOf_none.mp hm.entry) hlv hlrfs hfile)
    have hents := (hi.disk_link hm.vinode hm.rfs hdir hroom hm.name hlv hlrfs hfile).2
    refine ⟨hlink.tail (.bind node t ⟨r.missName, 0, x.dentryInode, r.parent⟩ p
      { lv with nlinks := lv.nlinks + 1 } { pv with size := pv.size + 32 } hfresh.dentry ht0 hnode
      hfind rfl ((upd_ne hne.symm).trans (upd_self _ _ _)) hlrfs hm.parent (upd_self _ _ _) hm.rfs ?_),
      hents⟩
    show (lv.inum, r.missName) ∈ dirEnts _ pv.inum
    rw [hents, upd_self]
    exact List.mem_append_right _ (List.mem_singleton_self _)
  · rw [if_pos hbase]
    exact .pure ⟨o, d, ⟨b, h⟩, fun _ => .refl, fun hq => by cases hq⟩

/-- A path that leads to a file. -/
def LeadsToFile (d : Nat → Block) (tokens : List Name) : Prop :=
  ∃ n, walk (dirEnts d) 0 tokens = (n, []) ∧ (diskInode d n).type = rFile

/-- The second path is looked up only when the first one leads to a file. -/
theorem vfsLink_post (care : Care) {oldpath newpath : Path} {old new : List Name}
    (h : Holds s o d b []) (hi : Inv M o d) (hp : RfsPath oldpath old)
    (hstop : StopOk M o d 0 old)
    (hnew : LeadsToFile d old → RfsPath newpath new ∧ StopDir d 0 new) :
    Post (vfsLink host oldpath newpath) s (fun q s' => ∃ o' d', Ends s' o' d' [] ∧
      (o'.DirCap → Steps M care (o, d) (o', d')) ∧
      (q = 0 → Creates M care o d new (fun n => walk (dirEnts d) 0 old = (n, [])) o' d')) NoAssert := by
  refine post_lookup care h hi hp hstop ?_ ?_
  swap
  · intro s1 o1 b1 r _ _ _ h1 _ hr _ hnone _ _
    rw [hnone]
    exact .pure ⟨o1, d, ⟨b1, h1⟩, fun _ => hr.steps, nofun⟩
  intro s1 o1 b1 r t y u h1 hi1 hr hwalk hdentry hy hu hrfs _
  rw [hdentry]
  refine post_known dentryKind h1 hy ?_
  refine post_known vinodeKind h1 hu ?_
  refine .ite (fun _ => .pure ⟨o1, d, ⟨b1, h1⟩, fun _ => hr.steps, nofun⟩) fun hfile => ?_
  obtain ⟨hp', hdir⟩ := hnew ⟨u.inum, hwalk, (hi1.type_eq hu hrfs).trans (not_not.mp hfile)⟩
  refine post_lookup care h1 hi1 hp' hdir.stopOk ?_ ?_
  · intro s2 o2 b2 r' t' _ _ h2 _ hr' _ hdentry' _ _ _ _
    rw [hdentry']
    exact .pure ⟨o2, d, ⟨b2, h2⟩, fun _ => hr.steps.trans hr'.steps, nofun⟩
  · intro s2 o2 b2 r' rest p pv h2 hi2 hr' hwalk' hnone hlen hm
    rw [hnone]
    have hsteps := hr.steps.trans hr'.steps
    obtain ⟨ref, hu2⟩ := hr'.grown.vinode _ _ hu
    have hpdir : pv.type = dirI := by
      rw [← hi2.type_eq hm.vinode hm.rfs]
      exact hdir _ _ _ hwalk'
    refine (linkDentry_post care h2 hi2 hp' hlen (hr'.grown.dentry _ _ hy) hu2
      (not_not.mp hfile) hm hpdir).mono ?_
    rintro q s3 ⟨o3, d3, h3, hlink, hmade⟩
    refine ⟨o3, d3, h3, fun hcap => hsteps.trans (hlink hcap), fun hq =>
      ⟨_, _, rest, hwalk', fun hroom => ⟨u.inum, hwalk, ?_⟩⟩⟩
    obtain ⟨-, hroom⟩ := hi2.hasRoom_of_dirRoom hm.vinode hm.rfs hroom
    exact (hmade hq hroom).after hsteps .refl

/-! ## Unlinking -/

/-- The blocks of an inode on disk are among those it has in memory. -/
theorem Inv.freeable (hi : Inv M o d) (hn : Live (diskInode d) n) : (diskInode d n).Freeable := by
  intro j hj
  obtain ⟨hle, hahead⟩ := hi.blocks.cur_ahead hn
  have hlt : (j : Int) < (diskInode d n).blocks := by omega
  obtain ⟨hlo, hhi, -⟩ := hi.blocks.owned n j hn (by omega)
  rw [← hahead j hlt] at hlo hhi
  have hten : (diskInode d n).blocks ≤ 10 := (hi.blocks.ok n hn).shape.blocks.2
  exact ⟨by omega, hlo, hhi⟩

/-- The name of a file has been dropped from the cache: no other dentry has
it. -/
theorem Inv.gone (hi : Inv M o d) (o' : Objs) (ht : o.dentry t = some x)
    (hp : o.dentry x.parent = some p) (hpv : o.vinode p.dentryInode = some pv)
    (hprfs : pv.iOps = .rfs) (hdir : pv.type = dirI) (hdrop : o'.dentry = upd o.dentry t none)
    (t' : Ptr) (x' p' : Dentry) (ht' : o'.dentry t' = some x') (hp' : o'.dentry x'.parent = some p')
    (hpw : p'.dentryInode = p.dentryInode) : x'.name ≠ x.name := by
  intro hname
  rw [hdrop] at ht' hp'
  obtain ⟨hne, ht''⟩ := upd_none ht'
  obtain ⟨-, hp''⟩ := upd_none hp'
  have hpar : x'.parent = x.parent :=
    hi.tree.oneDir _ _ p' p pv hp'' hp hpw (by rw [hpw]; exact hpv) hprfs hdir
  exact hne (hi.cache.dentry_eq ht'' ht (by rw [Dentry.key, Dentry.key, hpar, hname]))

/-- The dentry that goes with the last name of a file was its only one. -/
theorem Inv.last_ref (hi : Inv M o d) (ht : o.dentry t = some x)
    (hv : o.vinode x.dentryInode = some v) (hrfs : v.iOps = .rfs) (hfile : v.type = fileI)
    (hp : o.dentry x.parent = some p) (hpv : o.vinode p.dentryInode = some pv)
    (hprfs : pv.iOps = .rfs) (hent : (v.inum, x.name) ∈ dirEnts d pv.inum)
    (hlast : v.nlinks - 1 = 0) (hdrop : o'.dentry = upd o.dentry t none) (hc : CacheInv o') :
    o'.refCount x.dentryInode = 0 := by
  refine hc.refCount_zero fun t' x' ht' heq => ?_
  rw [hdrop] at ht'
  obtain ⟨hne, ht''⟩ := upd_none ht'
  have hkind : inodeTypes (diskInode d) v.inum = rFile := (hi.type_eq hv hrfs).trans hfile
  have hlinks : inodeLinks (diskInode d) v.inum = Pke.links inodeNums (dirEnts d) v.inum :=
    (hi.links.file _ hkind).1
  rw [inodeLinks, hi.nlinks_eq hv hrfs] at hlinks
  have hkey := hi.same_name (by omega) hv hrfs hp hpv hprfs hent ht'' heq
  exact hne (hi.cache.dentry_eq ht'' ht hkey)

theorem unlinkDentry_post (care : Care) (h : Holds s o d b []) (hi : Inv M o d)
    (ht : o.dentry t = some x) (hname : NameOk x.name) (hv : o.vinode x.dentryInode = some v) :
    Post (unlinkDentry host t x.parent) s (fun r s' => ∃ o' d', Ends s' o' d' [] ∧
      Steps M care (o, d) (o', d') ∧ (r = 0 → v.type = fileI ∧
        o'.freemap M = dropMap (diskInode d v.inum) (v.nlinks - 1) (o.freemap M))) NoAssert := by
  have hsame : Ends s o d [] ∧ Steps M care (o, d) (o, d) := ⟨⟨b, h⟩, .refl⟩
  refine post_known dentryKind h ht ?_
  refine post_known vinodeKind h hv ?_
  by_cases hfile : v.type = fileI
  swap
  · rw [if_pos hfile]
    exact .pure ⟨o, d, hsame.1, hsame.2, nofun⟩
  rw [if_neg (not_not.mpr hfile)]
  refine .ite (fun _ => .pure ⟨o, d, hsame.1, hsame.2, nofun⟩) fun hbusy => ?_
  have hrfs := hi.rfs_of_file hv hfile
  obtain ⟨p, pv, hp, hpv, hprfs, hent⟩ :=
    hi.tree.kid t x v ht hv hrfs (hi.not_mount ht hv hrfs hfile).2
  obtain ⟨hdir, k, hk, hget, htrue, hbefore, hint⟩ :=
    hi.browse_found hpv hprfs hname (entryOf_of_mem (hi.links.names _) hent)
  obtain ⟨hone, hsize, -, hlo, hhi⟩ := hi.dir_bounds hpv hprfs hdir
  obtain ⟨B, hB, hBn⟩ := hi.sb
  obtain ⟨hne, -⟩ := hi.ne_of_type hpv hprfs hdir hv hrfs hfile
  have hsb := hi.sb_eq hpv hprfs
  rw [totalDirentrys_eq hsize.1 (by omega)] at hk
  have hk128 : k < 128 := by
    unfold direntryCount at hk
    omega
  rw [Nat.div_eq_of_lt hk128, Nat.mod_eq_of_lt hk128] at hint
  refine post_known dentryKind h hp ?_
  refine post_opsOf h hpv hprfs ?_
  refine .bind (rfsUnlink_post h hpv (hi.num hpv hprfs) hone (by omega) hsize ht hv hne.symm
    (hi.num hv hrfs) (by rw [hsb]; exact hB) hk htrue hbefore hint (hi.nlinks_eq hv hrfs).symm
    (hi.freeable (hi.live hv hrfs))) ?_
  rintro _ s1 ⟨rfl, b1, h1⟩
  rw [if_neg (by decide)]
  -- the name leaves the cache
  obtain ⟨e, he, -⟩ := hi.cache.dhashed t x ht
  have hnode := (hi.cache.dentries e (findD_mem he).1).1
  have hdrop : Steps M care (o, d)
      ((o.setV x.dentryInode { v with ref := v.ref - 1 }).dropD e.node t x, d) :=
    .single (.drop t x v e ht (by omega) he hv hrfs hfile)
  have hiD := hdrop.inv hi
  have hvD : ((o.setV x.dentryInode { v with ref := v.ref - 1 }).dropD e.node t x).vinode
      x.dentryInode = some { v with ref := v.ref - 1 } := upd_self _ _ _
  have hpvD : ((o.setV x.dentryInode { v with ref := v.ref - 1 }).dropD e.node t x).vinode
      p.dentryInode = some pv := (upd_ne hne).trans hpv
  have hgone := hi.gone ((o.setV x.dentryInode { v with ref := v.ref - 1 }).dropD e.node t x) ht hp
    hpv hprfs hdir rfl
  refine .bind (R := fun _ s' => ∃ o' d', Ends s' o' d' [] ∧ Steps M care (o, d) (o', d') ∧
    o'.freemap M = dropMap (diskInode d v.inum) (v.nlinks - 1) (o.freemap M)) ?_ ?_
  swap
  · rintro _ s2 ⟨o2, d2, h2, hsteps, hmap⟩
    exact .pure ⟨o2, d2, h2, hsteps, fun _ => ⟨hfile, hmap⟩⟩
  refine eraseDentry_post h1 ht (by omega) he hnode fun _ s2 h2 => ?_
  have hv2 : (upd (upd o.vinode x.dentryInode (some { v with nlinks := v.nlinks - 1 }))
      p.dentryInode (some { pv with size := pv.size - 32 })) x.dentryInode =
      some { v with nlinks := v.nlinks - 1 } := (upd_ne hne.symm).trans (upd_self _ _ _)
  refine .bind (addRef_post h2 hv2) fun _ s3 h3 => ?_
  refine post_known vinodeKind h3 (upd_self _ _ _) ?_
  by_cases hlast : v.nlinks - 1 = 0
  · rw [if_pos hlast]
    have hzero : v.ref - 1 = 0 := by
      have hcount := hi.last_ref ht hv hrfs hfile hp hpv hprfs hent hlast rfl hiD.cache
      have href := hiD.cache.ref _ _ hvD
      rw [hcount] at href
      exact href
    refine .ite (fun href => absurd hzero href) fun _ => ?_
    have hnum : 0 ≤ v.inum := hi.inum_nonneg hv hrfs
    obtain ⟨e', he', -⟩ := hi.cache.vhashed _ v hv hnum
    have hnode' := (hi.cache.vinodes e' (findV_mem he').1).1
    have hnodes : e'.node ≠ e.node := fun heq => by
      rw [heq, hnode] at hnode'
      cases hnode'
    refine (eraseVinode_post h3 (upd_self _ _ _) hnum he'
      ((upd_ne hnodes).trans hnode')).mono fun _ s4 h4 => ?_
    have h5 : Holds s4 (((((o.setV x.dentryInode { v with ref := v.ref - 1 }).dropD e.node t x).withMap
        M.sb B (clearBlocks (diskInode d v.inum).addrs (diskInode d v.inum).blocks.toNat 0
          B.freemap)).setV p.dentryInode { pv with size := pv.size - 32 }).dropV e'.node x.dentryInode
            { v with ref := v.ref - 1 }) (removeEntry (writeInode d
              (dropInode (diskInode d v.inum) 0) v.inum) pv k) b1 [] := by
      rw [hlast] at h4
      refine h4.cast ?_
      rw [dropMap, if_pos rfl, ← hsb]
      simp only [Objs.dropD, Objs.dropV, Objs.setV, Objs.withMap, upd_upd]
      rw [upd_comm hne, upd_upd, upd_comm hne, upd_upd]
      rfl
    refine ⟨_, _, ⟨b1, h5⟩, hdrop.tail (.unlinkLast p.dentryInode x.dentryInode pv
      { v with ref := v.ref - 1 } B k x.name e' hpvD hprfs hdir hvD hrfs hfile hget hgone hlast hzero
      he' hB), ?_⟩
    rw [dropMap, if_pos hlast, freemap_eq hB]
    exact freemap_withMap (M := M) B _
  · rw [if_neg hlast]
    have h4 : Holds s3 ((((o.setV x.dentryInode { v with ref := v.ref - 1 }).dropD e.node t x).setV
        x.dentryInode { v with ref := v.ref - 1, nlinks := v.nlinks - 1 }).setV p.dentryInode
          { pv with size := pv.size - 32 }) (removeEntry (writeInode d
            (dropInode (diskInode d v.inum) (v.nlinks - 1)) v.inum) pv k) b1 [] := by
      refine h3.cast ?_
      have hself : upd o.superBlock pv.sb (some { B with freemap := B.freemap }) = o.superBlock :=
        upd_eq_self (by rw [hsb]; exact hB)
      rw [dropMap, if_neg hlast]
      simp only [Objs.dropD, Objs.setV, Objs.withMap, upd_upd, hself]
      rw [upd_comm hne, upd_upd]
      rfl
    refine .pure ⟨_, _, ⟨b1, h4⟩, hdrop.tail (.unlink p.dentryInode x.dentryInode pv
      { v with ref := v.ref - 1 } k x.name hpvD hprfs hdir hvD hrfs hfile hget hgone hlast), ?_⟩
    rw [dropMap, if_neg hlast]
    rfl

/-- What a successful `vfs_unlink` does to the freemap. -/
structure Unlinked (M : Mount) (o : Objs) (d : Nat → Block) (tokens : List Name) (n : Int)
    (o' : Objs) : Prop where
  name : walk (dirEnts d) 0 tokens = (n, [])
  file : (diskInode d n).type = rFile
  map : o'.freemap M =
    dropMap (diskInode d n) ((diskInode d n).nlinks - 1) (o.freemap M)

theorem vfsUnlink_post (care : Care) (h : Holds s o d b []) (hi : Inv M o d)
    (hp : RfsPath path tokens) (hstop : StopOk M o d 0 tokens) :
    Post (vfsUnlink host path) s (fun r s' => ∃ o' d', Ends s' o' d' [] ∧
      Steps M care (o, d) (o', d') ∧ (r = 0 → ∃ n, Unlinked M o d tokens n o')) NoAssert := by
  refine post_lookup care h hi hp hstop ?_ ?_
  · intro s1 o1 b1 r t y u h1 hi1 hr hwalk hdentry hy hu hrfs hlast
    obtain ⟨hpar, hname⟩ := hlast
    rw [hdentry]
    dsimp only
    rw [← hpar]
    refine (unlinkDentry_post care h1 hi1 hy hname hu).mono ?_
    rintro ret s2 ⟨o2, d2, h2, hsteps, hok⟩
    refine ⟨o2, d2, h2, hr.steps.trans hsteps, fun hret => ?_⟩
    obtain ⟨hfile, hmap⟩ := hok hret
    refine ⟨u.inum, hwalk, (hi1.type_eq hu hrfs).trans hfile, ?_⟩
    have hsame : o1.freemap M = o.freemap M := by
      rw [Objs.freemap, Objs.freemap, hr.grown.superBlock]
    rw [hmap, hsame, hi1.nlinks_eq hu hrfs]
  · intro s1 o1 b1 r _ _ _ h1 _ hr _ hnone _ _
    rw [hnone]
    exact .pure ⟨o1, d, ⟨b1, h1⟩, hr.steps, fun hret => by cases hret⟩

end

end Pke
