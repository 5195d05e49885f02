import Pke.FileSpec

/-!
# The calls on open files

`vfs_read`, `vfs_write`, `vfs_lseek` and `vfs_close`, and the end of
`vfs_open`. Only RFS has files in memory (`Inv.rfs_of_file`), so
whatever descriptor they are given, these calls go to RFS. `Closing`
says what a close leaves of the name and the vinode it went through.
-/

namespace Pke

open Exec (Post)

variable {v : Vinode} {o' : Objs} {d' : Nat → Block} {t : Ptr} {x : Dentry}

section

variable {M : Mount} {care : Care} {s : State} {o : Objs} {d : Nat → Block} {b : Block}
  {E : Fault → Prop} {host : VinodeOps}

/-! ## Reading, writing, seeking -/

theorem vfsRead_post (care : Care) {file : Ptr} {count : Nat} {stack : Block}
    (h : Holds s o d b []) (hi : Inv M o d) (hmay : ¬care.still) :
    Post (vfsRead host file count stack) s (fun _ s' => ∃ o', Ends s' o' d [] ∧
      Steps M care (o, d) (o', d)) NoAssert := by
  have hsame : Ends s o d [] ∧ Steps M care (o, d) (o, d) := ⟨⟨b, h⟩, .refl⟩
  refine post_follow fileKind h (fun _ => noAssert_ub _) fun f hf => ?_
  by_cases hread : f.readable = false
  · rw [if_pos hread]
    exact .pure ⟨o, hsame⟩
  rw [if_neg hread]
  refine post_follow dentryKind h (fun _ => noAssert_ub _) fun x hx => ?_
  refine post_follow vinodeKind h (fun _ => noAssert_ub _) fun v hv => ?_
  by_cases hfile : v.type = fileI
  · obtain ⟨off, hoff⟩ := Int.eq_ofNat_of_zero_le (hi.files file f hf)
    have hrfs := hi.rfs_of_file hv hfile
    rw [if_neg (not_not.mpr hfile), hrfs, hoff]
    refine .bind (rfsRead_post h hv) ?_
    rintro r s1 ⟨hlo, hin, b1, h1⟩
    refine post_set fileKind h1 hf fun s2 h2 => .pure ⟨_, ⟨b1, h2⟩, .single ?_⟩
    refine .moved file f _ hf hlo (.inr fun x' v' hx' hv' _ => ?_) hmay
    obtain rfl := Option.some.inj (hx.symm.trans hx')
    obtain rfl := Option.some.inj (hv.symm.trans hv')
    exact hin
  · rw [if_pos hfile]
    exact .pure ⟨o, hsame⟩

theorem vfsWrite_post {file : Ptr} {buf : List UInt8} (h : Holds s o d b []) (hi : Inv M o d)
    (huse : care.fds → ∀ f, o.file file = some f → f.status = .opened) (hmay : ¬care.still) :
    Post (vfsWrite host file buf) s (fun _ s' => ∃ o' d', Ends s' o' d' [] ∧
      Steps M care (o, d) (o', d')) NoAssert := by
  have hsame : Ends s o d [] ∧ Steps M care (o, d) (o, d) := ⟨⟨b, h⟩, .refl⟩
  refine post_follow fileKind h (fun _ => noAssert_ub _) fun f hf => ?_
  by_cases hwrite : f.writable = false
  · rw [if_pos hwrite]
    exact .pure ⟨o, d, hsame⟩
  rw [if_neg hwrite]
  refine post_follow dentryKind h (fun _ => noAssert_ub _) fun x hx => ?_
  refine post_follow vinodeKind h (fun _ => noAssert_ub _) fun v hv => ?_
  by_cases hfile : v.type = fileI
  · obtain ⟨off, hoff⟩ := Int.eq_ofNat_of_zero_le (hi.files file f hf)
    have hrfs := hi.rfs_of_file hv hfile
    rw [if_neg (not_not.mpr hfile), hrfs, hoff]
    have hat : FileAt M care x.dentryInode o d v :=
      ⟨hi, hv, hrfs, hfile, fun hc => ⟨file, f, x, hf, huse hc f hf, hx, rfl⟩⟩
    refine .bind (rfsWrite_post h hat) ?_
    rintro ⟨len, _⟩ s1 ⟨rfl, o1, d1, v1, ⟨b1, h1⟩, hw⟩
    have hf1 : o1.file file = some f := by
      rw [hw.file]
      exact hf
    refine post_set fileKind h1 hf1 fun s2 h2 => .pure ⟨_, d1, ⟨b1, h2⟩, hw.steps.tail ?_⟩
    refine .moved file f _ hf1 (Int.natCast_nonneg _) (.inr fun x' v' hx' hv' _ => ?_) hmay
    rw [hw.dentry] at hx'
    obtain rfl := Option.some.inj (hx.symm.trans hx')
    obtain rfl := Option.some.inj (hw.vinode.symm.trans hv')
    exact hw.size
  · rw [if_pos hfile]
    exact .pure ⟨o, d, hsame⟩

/-- `rfs_lseek` leaves the offset or moves it to a place in the file. -/
theorem rfsLseek_post {w : Ptr} {newOffset whence offset : Int} {R : List Ptr} (h : Holds s o d b R)
    (hw : o.vinode w = some v) (hoff : 0 ≤ offset) :
    Post (rfsLseek w newOffset whence offset) s (fun r s' => Holds s' o d b R ∧ 0 ≤ r.2 ∧
      (r.2 = offset ∨ r.2 ≤ v.size) ∧
      (whence = lseekSet → 0 ≤ newOffset → newOffset ≤ v.size → r = (0, newOffset))) E := by
  refine post_known vinodeKind h hw ?_
  by_cases hset : whence = lseekSet
  · rw [if_pos hset]
    refine .ite (fun hout => .pure ⟨h, hoff, .inl rfl, fun _ h0 h1 => ?_⟩) fun hin =>
      .pure ⟨h, ?_, .inr ?_, fun _ _ _ => rfl⟩
    · omega
    · show 0 ≤ newOffset
      omega
    · show newOffset ≤ v.size
      omega
  · rw [if_neg hset]
    refine .ite (fun _ => ?_) fun _ => .pure ⟨h, hoff, .inl rfl, fun hc => absurd hc hset⟩
    refine .ite (fun _ => .pure ⟨h, hoff, .inl rfl, fun hc => absurd hc hset⟩) fun hin =>
      .pure ⟨h, ?_, .inr ?_, fun hc => absurd hc hset⟩
    · show 0 ≤ offset + newOffset
      omega
    · show offset + newOffset ≤ v.size
      omega

theorem vfsLseek_post (care : Care) {file : Ptr} {offset whence : Int} (h : Holds s o d b [])
    (hi : Inv M o d) (hmay : ¬care.still) :
    Post (vfsLseek host file offset whence) s (fun _ s' => ∃ o', Ends s' o' d [] ∧
      Steps M care (o, d) (o', d)) NoAssert := by
  refine post_file h noAssert_ub fun f x v hf hx hv => ?_
  by_cases hfile : v.type = fileI
  · rw [if_neg (not_not.mpr hfile), hi.rfs_of_file hv hfile]
    refine .bind (rfsLseek_post h hv (hi.files file f hf)) ?_
    rintro ⟨ret, off⟩ s1 ⟨h1, hoff, hin, -⟩
    have hin' : off = f.offset ∨ ∀ x v, o.dentry f.fDentry = some x →
        o.vinode x.dentryInode = some v → v.type = fileI → off ≤ v.size := by
      refine hin.imp_right fun hle x' v' hx' hv' _ => ?_
      obtain rfl := Option.some.inj (hx.symm.trans hx')
      obtain rfl := Option.some.inj (hv.symm.trans hv')
      exact hle
    have hmove : Change M care o d _ d := .moved file f off hf hoff hin' hmay
    refine post_set fileKind h1 hf fun s2 h2 => ?_
    have hend : ∃ o', Ends s2 o' d [] ∧ Steps M care (o, d) (o', d) :=
      ⟨_, ⟨b, h2⟩, .single hmove⟩
    exact .ite (fun _ => .pure hend) fun _ => .pure hend
  · rw [if_pos hfile]
    exact .pure ⟨o, ⟨b, h⟩, .refl⟩

/-! ## Closing -/

/-- The objects after a descriptor has let go of its dentry. -/
def Objs.close (o : Objs) (file : Ptr) (f : File) (x : Dentry) : Objs :=
  { o.setD f.fDentry { x with dRef := x.dRef - 1 } with
    file := upd o.file file (some { f with status := .none }) }

/-- What happens to the dentry `x` at `t` and the vinode `v` it points to, after
a descriptor has let go of them: they stay, or the name goes, or both. -/
inductive Closing (o : Objs) (d : Nat → Block) (t : Ptr) (x : Dentry) (v : Vinode) :
    Objs → (Nat → Block) → Prop
  | kept (hbusy : x.dRef ≠ 0) : Closing o d t x v o d
  | dropped (e : HashNode DentryKey Ptr) (hidle : x.dRef = 0) (he : o.findD x.key = some e)
      (href : v.ref - 1 ≠ 0) :
      Closing o d t x v ((o.setV x.dentryInode { v with ref := v.ref - 1 }).dropD e.node t x) d
  | evicted (e : HashNode DentryKey Ptr) (e' : HashNode VinodeKey Ptr) (hidle : x.dRef = 0)
      (he : o.findD x.key = some e) (href : v.ref - 1 = 0) (he' : o.findV v.key = some e') :
      Closing o d t x v
        (((o.setV x.dentryInode { v with ref := v.ref - 1 }).dropD e.node t x).dropV e'.node
          x.dentryInode { v with ref := v.ref - 1 })
        (writeInode d v.toDinode v.inum)

theorem Closing.steps (care : Care) (hc : Closing o d t x v o' d') (ht : o.dentry t = some x)
    (hv : o.vinode x.dentryInode = some v) (hrfs : v.iOps = .rfs) (hfile : v.type = fileI)
    (hheld : ¬care.held) : Steps M care (o, d) (o', d') := by
  cases hc with
  | kept => exact .refl
  | dropped e hidle he href => exact .single (.drop t x v e ht (by omega) he hv hrfs hfile)
  | evicted e e' hidle he href he' =>
      have hdrop : Steps M care (o, d)
          ((o.setV x.dentryInode { v with ref := v.ref - 1 }).dropD e.node t x, d) :=
        .single (.drop t x v e ht (by omega) he hv hrfs hfile)
      exact hdrop.tail
        (.evict x.dentryInode { v with ref := v.ref - 1 } e' (upd_self _ _ _) hrfs hfile href he'
          hheld)

/-- The files have no part in it. -/
theorem Closing.withFile (hc : Closing o d t x v o' d') (g : Ptr → Option File) :
    Closing { o with file := g } d t x v { o' with file := g } d' := by
  cases hc with
  | kept hbusy => exact .kept hbusy
  | dropped e hidle he href => exact .dropped e hidle he href
  | evicted e e' hidle he href he' => exact .evicted e e' hidle he href he'

theorem Closing.file (hc : Closing o d t x v o' d') : o'.file = o.file := by
  cases hc <;> rfl

theorem releaseDentry_post (h : Holds s o d b []) (hc : CacheInv o) (ht : o.dentry t = some x)
    (hidle : x.dRef = 0) (hv : o.vinode x.dentryInode = some v) (hrfs : v.iOps = .rfs)
    (hnum : InodeNum v.inum) :
    Post (releaseDentry host t x.dentryInode) s (fun _ s' => ∃ o' d', Ends s' o' d' [] ∧
      Closing o d t x v o' d') E := by
  obtain ⟨e, he, -⟩ := hc.dhashed t x ht
  have hnode := (hc.dentries e (findD_mem he).1).1
  refine eraseDentry_post h ht (by omega) he hnode fun _ s1 h1 => ?_
  refine .bind (addRef_post h1 hv) fun _ s2 h2 => ?_
  have hv2 : (((o.dropD e.node t x).setV x.dentryInode
      { v with ref := v.ref + -1 }).vinode x.dentryInode) =
      some { v with ref := v.ref + -1 } := upd_self _ _ _
  refine post_known vinodeKind h2 hv2 ?_
  by_cases href : v.ref + -1 = 0
  · rw [if_pos href]
    refine .bind (R := fun ret s' => ret = 0 ∧ Ends s' ((o.dropD e.node t x).setV x.dentryInode
      { v with ref := v.ref + -1 }) (writeInode d v.toDinode v.inum) []) ?_ ?_
    · have hops : iOps host v.iOps = rfsIOps := by
        rw [hrfs]
        rfl
      rw [hops]
      exact rfsWriteBackVinode_post (v := { v with ref := v.ref + -1 }) h2 hv2 hnum
    rintro _ s3 ⟨rfl, b3, h3⟩
    rw [if_neg (by decide)]
    obtain ⟨e', he', -⟩ := hc.vhashed _ v hv hnum.1
    have hnode' := (hc.vinodes e' (findV_mem he').1).1
    have hne : e'.node ≠ e.node := fun heq => by
      rw [heq, hnode] at hnode'
      cases hnode'
    refine (eraseVinode_post h3 hv2 hnum.1 he' ((upd_ne hne).trans hnode')).mono fun _ s4 h4 => ?_
    exact ⟨_, _, ⟨b3, h4⟩, .evicted e e' hidle he href he'⟩
  · rw [if_neg href]
    exact .pure ⟨_, d, ⟨b, h2⟩, .dropped e hidle he href⟩

/-- `vfs_close` refuses what is not a file, and otherwise lets go of it. -/
theorem vfsClose_post {file : Ptr} (h : Holds s o d b []) (hi : Inv M o d) :
    Post (vfsClose host file) s (fun r s' => ∃ o' d', Ends s' o' d' [] ∧
      ((r = -1 ∧ o' = o ∧ d' = d) ∨ r = 0 ∧ ∃ f x v, o.file file = some f ∧
        o.dentry f.fDentry = some x ∧ o.vinode x.dentryInode = some v ∧ v.type = fileI ∧
        Closing (o.close file f x) d f.fDentry { x with dRef := x.dRef - 1 } v o' d')) NoAssert := by
  refine post_file h noAssert_ub fun f x v hf hx hv => ?_
  by_cases hfile : v.type = fileI
  · have hrfs := hi.rfs_of_file hv hfile
    rw [if_neg (not_not.mpr hfile), hrfs]
    refine .step rfl ?_
    -- the status is set last, but nothing looks at it before
    refine .bind (R := fun _ s' => ∃ o' d', Ends s' o' d' [] ∧
      Closing (o.setD f.fDentry { x with dRef := x.dRef - 1 }) d f.fDentry
        { x with dRef := x.dRef - 1 } v o' d') ?_ ?_
    · refine post_known dentryKind h hx ?_
      refine post_set dentryKind h hx fun s1 h1 => ?_
      refine .ite (fun hidle => ?_) fun hbusy => .pure ⟨_, d, ⟨b, h1⟩, .kept hbusy⟩
      have hcache := hi.cache.setD { x with dRef := x.dRef - 1 } hx rfl rfl
      exact releaseDentry_post (x := { x with dRef := x.dRef - 1 }) h1 hcache (upd_self _ _ _) hidle
        hv hrfs (hi.num hv hrfs)
    · rintro _ s1 ⟨o1, d1, ⟨b1, h1⟩, hc⟩
      have hf1 : o1.file file = some f := by
        rw [hc.file]
        exact hf
      refine post_set fileKind h1 hf1 fun s2 h2 => .pure ⟨_, d1, ⟨b1, h2⟩, .inr ⟨rfl, f, x, v, hf, hx,
        hv, hfile, ?_⟩⟩
      show Closing _ _ _ _ _ { o1 with file := upd o1.file file _ } d1
      rw [hc.file]
      exact hc.withFile _
  · rw [if_pos hfile]
    exact .pure ⟨o, d, ⟨b, h⟩, .inl ⟨rfl, rfl, rfl⟩⟩

theorem Closing.steps_close {file : Ptr} {f : File} (hi : Inv M o d) (hf : o.file file = some f)
    (hx : o.dentry f.fDentry = some x) (hv : o.vinode x.dentryInode = some v)
    (hfile : v.type = fileI) (hopen : care.fds → f.status = .opened) (hmay : ¬care.still)
    (hheld : ¬care.held)
    (hc : Closing (o.close file f x) d f.fDentry { x with dRef := x.dRef - 1 } v o' d') :
    Steps M care (o, d) (o', d') := by
  have hclosed : Steps M care (o, d) (o.close file f x, d) :=
    .single (.closed file f x hf hopen hx hmay hheld)
  exact hclosed.trans (hc.steps care (upd_self _ _ _) hv (hi.rfs_of_file hv hfile) hfile hheld)

/-! ## Opening -/

/-- The end of `vfs_open`. -/
theorem openDentry_post (M : Mount) (care : Care) {flags : Nat} (h : Holds s o d b [])
    (ht : o.dentry t = some x) (hv : o.vinode x.dentryInode = some v)
    (hrfs : v.type = fileI → v.iOps = .rfs) :
    Post (openDentry host t flags) s (fun _ s' => ∃ o', Ends s' o' d [] ∧ o'.vinode = o.vinode ∧
      Steps M care (o, d) (o', d)) NoAssert := by
  refine post_known dentryKind h ht ?_
  refine post_known vinodeKind h hv ?_
  by_cases hfile : v.type = fileI
  · rw [if_neg (not_not.mpr hfile), hrfs hfile]
    refine .ite (fun _ => .fault (noAssert_panic _)) fun _ => ?_
    refine .bind (allocVfsFile_post h ht noAssert_nullPage) ?_
    rintro file s1 ⟨hfresh, -, h1⟩
    refine .step rfl (.pure ⟨_, ⟨b, h1⟩, rfl, .single ?_⟩)
    exact .opened file t _ x hfresh.file ht rfl rfl rfl ⟨v, hv, hrfs hfile, hfile⟩
  · rw [if_pos hfile]
    exact .pure ⟨o, ⟨b, h⟩, rfl, .refl⟩

end

end Pke
