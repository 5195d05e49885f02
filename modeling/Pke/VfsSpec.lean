import Pke.Cache
import Pke.RfsSpec
import Pke.Runs

/-!
# The small functions of `vfs.c`

One lemma for each function the VFS calls are built from: what it does
to the objects it gets, when they are there.
-/

namespace Pke

open Exec (Post)

variable {w t : Ptr} {v : Vinode} {x : Dentry}

section

variable {s : State} {o : Objs} {d : Nat → Block} {b : Block} {R : List Ptr} {E : Fault → Prop}
  {host : VinodeOps}

/-! ## References and operation tables -/

section

variable (h : Holds s o d b R)

include h

theorem addRef_post {n : Int} (hw : o.vinode w = some v) :
    Post (addRef w n) s (fun _ s' => Holds s' (o.setV w { v with ref := v.ref + n }) d b R) E :=
  post_known vinodeKind h hw (.modify (h.set (K := vinodeKind) hw _))

theorem post_opsOf {α : Type} {Q : α → State → Prop} {f : VinodeOps → Kern α}
    (hw : o.vinode w = some v) (hrfs : v.iOps = .rfs) (hf : Post (f rfsIOps) s Q E) :
    Post (opsOf host w >>= f) s Q E := by
  refine .bind (R := fun ops s' => ops = rfsIOps ∧ s' = s) ?_ ?_
  · refine post_known vinodeKind h hw (.pure ⟨?_, rfl⟩)
    rw [hrfs]
    rfl
  · rintro _ _ ⟨rfl, rfl⟩
    exact hf

/-! ## Dentries and files -/

theorem allocVfsDentry_null {name : Name} {parent : Ptr} (hE : E .nullPage) :
    Post (allocVfsDentry name 0 parent) s (fun t s' => o.Fresh t ∧ t ≠ 0 ∧ t ∉ R ∧
      Holds s' (o.setD t ⟨name, 0, 0, parent⟩) d b R) E := by
  refine .bind (allocPage_post h hE) ?_
  rintro t s1 ⟨h1, hfresh, ht, hR⟩
  refine post_setNew dentryKind h1 hR fun s2 h2 => ?_
  rw [if_neg (by simp)]
  exact .pure ⟨hfresh, ht, hR, h2⟩

theorem allocVfsDentry_inode {name : Name} {parent : Ptr} (hw : o.vinode w = some v)
    (hE : E .nullPage) :
    Post (allocVfsDentry name w parent) s (fun t s' => o.Fresh t ∧ t ≠ 0 ∧ t ∉ R ∧
      Holds s' ((o.setD t ⟨name, 0, w, parent⟩).setV w { v with ref := v.ref + 1 }) d b R) E := by
  refine .bind (allocPage_post h hE) ?_
  rintro t s1 ⟨h1, hfresh, ht, hR⟩
  refine post_setNew dentryKind h1 hR fun s2 h2 => ?_
  rw [if_pos (h.ne_zero (K := vinodeKind) hw)]
  exact .bind (addRef_post h2 hw) fun _ s3 h3 => .pure ⟨hfresh, ht, hR, h3⟩

theorem freeVfsDentry_post (ht : o.dentry t = some x) (hidle : x.dRef ≤ 0) :
    Post (freeVfsDentry t) s (fun _ s' =>
      Holds s' { o with dentry := upd o.dentry t none } d b R) E := by
  refine post_known dentryKind h ht ?_
  rw [if_neg (by omega)]
  exact .bind (freePage_post (K := dentryKind) h ht nofun) fun _ s1 h1 => .pure h1

theorem allocVfsFile_post {readable writable : Bool} (ht : o.dentry t = some x) (hE : E .nullPage) :
    Post (allocVfsFile t readable writable) s (fun file s' => o.Fresh file ∧ file ≠ 0 ∧
      Holds s' { o.setD t { x with dRef := x.dRef + 1 } with
        file := upd o.file file (some ⟨.opened, readable, writable, 0, t⟩) } d b R) E := by
  refine .bind (allocPage_post h hE) ?_
  rintro file s1 ⟨h1, hfresh, hne, hR⟩
  refine post_known dentryKind h1 ht ?_
  refine post_set dentryKind h1 ht fun s2 h2 => ?_
  exact post_setNew fileKind h2 hR fun s3 h3 => .pure ⟨hfresh, hne, h3⟩

/-! ## The tables -/

theorem hashPutDentry_post (ht : o.dentry t = some x) (hnew : o.findD x.key = none)
    (hE : E .nullPage) : Post (hashPutDentry t) s (fun _ s' => ∃ node, o.hashNode node = none ∧
      Holds s' (o.addD node t x) d b R) E := by
  refine post_known dentryKind h ht ?_
  refine (hashPut_new dentryView h hE hnew).mono ?_
  rintro _ s1 ⟨-, node, hfresh, -, h1⟩
  refine ⟨node, hfresh.hashNode, ?_⟩
  unfold Objs.addD
  rw [upd_eq_self ht]
  exact h1

theorem hashPutVinode_post (hw : o.vinode w = some v) (hnum : 0 ≤ v.inum)
    (hnew : o.findV v.key = none) (hE : E .nullPage) :
    Post (hashPutVinode w) s (fun _ s' => ∃ node, o.hashNode node = none ∧
      Holds s' (o.addV node w v) d b R) E := by
  refine post_known vinodeKind h hw ?_
  rw [if_neg (by omega)]
  refine (hashPut_new vinodeView h hE hnew).mono ?_
  rintro _ s1 ⟨-, node, hfresh, -, h1⟩
  refine ⟨node, hfresh.hashNode, ?_⟩
  unfold Objs.addV
  rw [upd_eq_self hw]
  exact h1

end

/-! ## What a file system found for a name -/

/-- The vinode a new name gets when the file system has found `v` for it: the one
the table has for the inode, or `v` itself, which enters the table when it has a
number. -/
inductive Entered (o : Objs) (v : Vinode) : Ptr → Vinode → Objs → Prop
  | cached (e : HashNode VinodeKey Ptr) (u : Vinode) (hnum : 0 ≤ v.inum)
      (he : o.findV v.key = some e) (hu : o.vinode e.value = some u) : Entered o v e.value u o
  | numbered (w node : Ptr) (hw : o.vinode w = none) (hnode : o.hashNode node = none)
      (hnum : 0 ≤ v.inum) (hnew : o.findV v.key = none) : Entered o v w v (o.addV node w v)
  | unnumbered (w : Ptr) (hw : o.vinode w = none) (hnum : v.inum < 0) :
      Entered o v w v (o.setV w v)

namespace Entered

variable {v u : Vinode} {q : Ptr} {o1 : Objs}

section

variable (h : Entered o v q u o1)

include h

theorem vinode : o1.vinode q = some u := by
  cases h with
  | cached e u hnum he hu => exact hu
  | numbered w node | unnumbered w => exact upd_self _ _ _

theorem dentry : o1.dentry = o.dentry := by
  cases h <;> rfl

theorem findD (k : DentryKey) : o1.findD k = o.findD k := by
  cases h <;> rfl

theorem cache (hc : CacheInv o) (href : v.ref = 0) : CacheInv o1 := by
  cases h with
  | cached e u hnum he hu => exact hc
  | numbered w node hw hnode hnum hnew => exact hc.addV hw hnode hnew hnum href
  | unnumbered w hw hnum => exact hc.addUnnumbered hw hnum href

/-- The other vinodes stay. -/
theorem vinode_ne (hne : w ≠ q) : o1.vinode w = o.vinode w := by
  cases h with
  | cached e u hnum he hu => rfl
  | numbered | unnumbered => exact upd_ne hne

/-- The vinode of the name is the one found, or one of the same inode. -/
theorem was (hc : CacheInv o) :
    o.vinode q = none ∧ u = v ∨ o.vinode q = some u ∧ u.key = v.key ∧ 0 ≤ u.inum := by
  cases h with
  | cached e u hnum he hu =>
      obtain ⟨u', hu', hkey, hpos⟩ := hc.findV_some he
      obtain rfl := Option.some.inj (hu.symm.trans hu')
      exact .inr ⟨hu, hkey, hpos⟩
  | numbered q node hq | unnumbered q hq => exact .inl ⟨hq, rfl⟩

/-- Nothing else changes. -/
theorem rest : o1.file = o.file ∧ o1.root = o.root ∧ o1.spike = o.spike := by
  cases h <;> exact ⟨rfl, rfl, rfl⟩

end

end Entered

/-- The new dentry `x` at `t` is pointed to the vinode `v` the file system has made
at `w`, or to the one the table has. -/
theorem bindFound_post (h : Holds s ((o.setD t x).setV w v) d b []) (hc : CacheInv o)
    (hw : o.vinode w = none) (hE : E .nullPage) :
    Post (bindFound t w) s (fun _ s' => ∃ q u o1, Entered o v q u o1 ∧
      Holds s' ((o1.setV q { u with ref := u.ref + 1 }).setD t { x with dentryInode := q })
        d b []) E := by
  have hw1 : ((o.setD t x).setV w v).vinode w = some v := upd_self _ _ _
  have ht1 : ((o.setD t x).setV w v).dentry t = some x := upd_self _ _ _
  refine post_known vinodeKind h hw1 ?_
  refine post_known dentryKind h ht1 ?_
  have hlook : hashGetVinode v.sb v.inum s =
      .ok (if v.inum < 0 then none else (o.findV v.key).map (·.value), s) := by
    unfold hashGetVinode
    split
    · rfl
    · exact defaultGet_ok vinodeView h _
  refine .step hlook ?_
  by_cases hnum : v.inum < 0
  · rw [if_pos hnum]
    refine post_set dentryKind h ht1 fun s1 h1 => ?_
    refine .bind (addRef_post h1 hw1) fun _ s2 h2 => ?_
    refine .bind (R := fun _ s' => s' = s2) ?_ ?_
    · refine post_known vinodeKind h2 (upd_self _ _ _) ?_
      rw [if_pos (show v.inum < 0 from hnum)]
      exact .pure rfl
    · rintro _ _ rfl
      refine .pure ⟨w, v, _, .unnumbered w hw hnum, h2.cast ?_⟩
      simp only [Objs.setV, Objs.setD, upd_upd]
  · rw [if_neg hnum]
    cases hf : o.findV v.key with
    | some e =>
        obtain ⟨u, hu, hkey, -⟩ := hc.findV_some hf
        have hne : e.value ≠ w := ne_of_none hw hu
        refine post_set dentryKind h ht1 fun s1 h1 => ?_
        refine .bind (addRef_post h1 ((upd_ne hne).trans hu)) fun _ s2 h2 => ?_
        refine (freePage_post (K := vinodeKind) h2 ((upd_ne hne.symm).trans hw1) fun f hf => by cases hf).mono ?_
        intro _ s3 h3
        refine ⟨e.value, u, o, .cached e u (not_lt.mp hnum) hf hu, h3.cast ?_⟩
        have hvin : upd (upd (upd o.vinode w (some v)) e.value (some { u with ref := u.ref + 1 }))
            w none = upd o.vinode e.value (some { u with ref := u.ref + 1 }) := by
          rw [upd_comm hne, upd_upd, upd_eq_self hw]
        simp only [Objs.setV, Objs.setD, upd_upd, hvin]
    | none =>
        refine post_set dentryKind h ht1 fun s1 h1 => ?_
        refine .bind (addRef_post h1 hw1) fun _ s2 h2 => ?_
        refine .bind (hashPutVinode_post (v := { v with ref := v.ref + 1 }) h2 (upd_self _ _ _)
          (not_lt.mp hnum) hf hE) ?_
        rintro _ s3 ⟨node, hnode, h3⟩
        refine .pure ⟨w, v, _, .numbered w node hw hnode (not_lt.mp hnum) hf, h3.cast ?_⟩
        simp only [Objs.addV, Objs.setV, Objs.setD, upd_upd]
        rfl

theorem cacheFound_entered (h : Holds s ((o.setD t x).setV w v) d b []) (hc : CacheInv o)
    (hw : o.vinode w = none) (hnew : o.findD x.key = none) (hE : E .nullPage) :
    Post (cacheFound t w) s (fun _ s' => ∃ q u o1 node, Entered o v q u o1 ∧
      o1.hashNode node = none ∧ Holds s' ((o1.setV q { u with ref := u.ref + 1 }).addD node t
        { x with dentryInode := q }) d b []) E := by
  refine .bind (bindFound_post h hc hw hE) ?_
  rintro _ s1 ⟨q, u, o1, hin, h1⟩
  have hnew1 : o1.findD x.key = none := (hin.findD _).trans hnew
  refine .bind (hashPutDentry_post (x := { x with dentryInode := q }) h1 (upd_self _ _ _) hnew1
    hE) ?_
  rintro _ s2 ⟨node, hnode, h2⟩
  refine .pure ⟨q, u, o1, node, hin, hnode, h2.cast ?_⟩
  simp only [Objs.addD, Objs.setD, upd_upd]

/-- A dentry leaves the table and its page. -/
theorem eraseDentry_post {α : Type} {Q : α → State → Prop} {e : HashNode DentryKey Ptr}
    {k : HashKey} {f : Int → Kern α} (h : Holds s o d b R) (ht : o.dentry t = some x)
    (hidle : x.dRef ≤ 0) (he : o.findD x.key = some e) (hnode : o.hashNode e.node = some k)
    (hf : ∀ ret s', Holds s' (o.dropD e.node t x) d b R → Post (f ret) s' Q E) :
    Post (hashEraseDentry t >>= fun _ => freeVfsDentry t >>= f) s Q E := by
  refine .bind (post_known dentryKind h ht (defaultErase_post dentryView h he hnode)) ?_
  rintro _ s1 ⟨-, h1⟩
  exact .bind (freeVfsDentry_post h1 ht hidle) hf

/-- A vinode leaves the table and its page. -/
theorem eraseVinode_post {e : HashNode VinodeKey Ptr} {k : HashKey} (h : Holds s o d b R)
    (hw : o.vinode w = some v) (hnum : 0 ≤ v.inum) (he : o.findV v.key = some e)
    (hnode : o.hashNode e.node = some k) :
    Post (hashEraseVinode w >>= fun _ => freePage w) s (fun _ s' =>
      Holds s' (o.dropV e.node w v) d b R) E := by
  refine .bind (R := fun _ s' => Holds s' { o with
      hashNode := upd o.hashNode e.node none
      vinodeHash := o.vinodeHash.remove vinodeHashOps v.key } d b R) ?_ ?_
  · refine post_known vinodeKind h hw ?_
    rw [if_neg (by omega)]
    refine (defaultErase_post vinodeView h he hnode).mono ?_
    rintro _ s1 ⟨-, h1⟩
    exact h1
  · rintro _ s1 h1
    exact freePage_post (K := vinodeKind) h1 hw nofun

end

end Pke
