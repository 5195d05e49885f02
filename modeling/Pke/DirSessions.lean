import Pke.Descriptors

/-!
# Directory sessions

A directory that is opened is copied to pages of its own, and the copy is
freed when the directory is closed. The vinode has room for one copy
only, so the pages are safe as long as a directory is closed when nobody
else reads it: then every descriptor finds the copy it reads, and no two
directories share one (`DirInv`).
-/

namespace Pke

open Exec (Post)

/-! ## Copies of directories -/

structure DirInv (o : Objs) : Prop where
  copy : ∀ p w v, o.Reads p w v → o.HasCopy v
  apart : ∀ p q w w' v v' c c', o.Reads p w v → o.Reads q w' v' →
    o.dirCache v.iFsInfo = some c → o.dirCache v'.iFsInfo = some c' →
    c.dirBaseAddr = c'.dirBaseAddr → w = w'

theorem Objs.Reads.back {o o' : Objs} {P : Prop} {p w : Ptr} {u : Vinode} (h : o'.Reads p w u)
    (ho : OpenInv o) (hopen : ∀ t, o'.OpenOn t p → ∃ q, o.OpenOn t q)
    (hdentry : ∀ t q x, o.OpenOn t q → o'.dentry t = some x → o.dentry t = some x)
    (hkeep : KeepsRfs P o.dentry o.vinode o'.vinode) (hP : P) :
    ∃ q v, o.Reads q w v ∧ v.iFsInfo = u.iFsInfo := by
  obtain ⟨hdir, hu, t, x, hp, hx, rfl⟩ := h
  obtain ⟨q, hq⟩ := hopen t hp
  obtain ⟨y, v, hy, hv, hrfs⟩ := ho.bound t q hq
  obtain rfl := Option.some.inj ((hdentry t q x hq hx).symm.trans hy)
  obtain ⟨u', hu', hkept⟩ := hkeep t x v hy hv hrfs
  obtain rfl := Option.some.inj (hu.symm.trans hu')
  exact ⟨q, v, ⟨hkept.type.symm.trans hdir, hv, t, x, hq, hy, rfl⟩, (hkept.info hP).symm⟩

/-- Who reads another directory than the one a new descriptor is for did so
before. -/
theorem Objs.Reads.of_open {o : Objs} {file t p w : Ptr} {f : File} {x : Dentry} {r : Int}
    {u : Vinode} (h : Objs.Reads { o.setD t { x with dRef := r } with
      file := upd o.file file (some f) } p w u) (hf : f.fDentry = t) (hne : w ≠ x.dentryInode) :
    o.Reads p w u := by
  obtain ⟨hdir, hu, t', y, ⟨g, hg, hst, hgt⟩, hy, hw⟩ := h
  have htt : t' ≠ t := by
    rintro rfl
    rw [show Objs.dentry _ t' = _ from upd_self _ _ _] at hy
    exact hne (hw.symm.trans (by rw [← Option.some.inj hy]))
  have hg' : o.file p = some g := by
    rcases upd_cases hg with ⟨-, heq⟩ | ⟨-, hg'⟩
    · rw [← Option.some.inj heq, hf] at hgt
      exact absurd hgt.symm htt
    · exact hg'
  exact ⟨hdir, hu, t', y, ⟨g, hg', hst, hgt⟩, (upd_ne htt).symm.trans hy, hw⟩

namespace DirInv

variable {o o' : Objs}

/-- Changes that leave the copies alone. -/
theorem frame (h : DirInv o) (hcache : o'.dirCache = o.dirCache) (hblock : o'.dirBlock = o.dirBlock)
    (hback : ∀ p w u, o'.Reads p w u → ∃ q v, o.Reads q w v ∧ v.iFsInfo = u.iFsInfo) :
    DirInv o' := by
  constructor
  · intro p w u hp
    obtain ⟨q, v, hq, hinfo⟩ := hback p w u hp
    obtain ⟨c, blk, hc, hblk⟩ := h.copy q w v hq
    exact ⟨c, blk, by rw [hcache, ← hinfo, hc], by rw [hblock, hblk]⟩
  · intro p q w w' u u' c c' hp hq hc hc' heq
    obtain ⟨p1, v, hp1, hinfo⟩ := hback p w u hp
    obtain ⟨q1, v', hq1, hinfo'⟩ := hback q w' u' hq
    rw [hcache, ← hinfo] at hc
    rw [hcache, ← hinfo'] at hc'
    exact h.apart p1 q1 w w' v v' c c' hp1 hq1 hc hc' heq

/-- Changes of the vinodes, and of the dentries nobody has open. -/
theorem names {P : Prop} (h : DirInv o) (ho : OpenInv o) (hfile : o'.file = o.file)
    (hcache : o'.dirCache = o.dirCache) (hblock : o'.dirBlock = o.dirBlock)
    (hdentry : ∀ t q x, o.OpenOn t q → o'.dentry t = some x → o.dentry t = some x)
    (hkeep : KeepsRfs P o.dentry o.vinode o'.vinode) (hP : P) : DirInv o' := by
  have hopen : o'.OpenOn = o.OpenOn := by
    funext t p
    rw [Objs.OpenOn, Objs.OpenOn, hfile]
  exact h.frame hcache hblock fun p w u hp =>
    hp.back ho (fun t ht => ⟨p, hopen ▸ ht⟩) hdentry hkeep hP

/-- The directory `v` at `x.dentryInode` is copied to the new page `base`, and a
new descriptor reads it. -/
theorem opened (h : DirInv o) {file t p base : Ptr} {f : File} {x : Dentry} {v : Vinode}
    {blk : Block} (hf : f.fDentry = t) (hp : o.dirCache p = none) (hbase : o.dirBlock base = none) :
    DirInv { (o.addCopy x.dentryInode v p base blk).setD t { x with dRef := x.dRef + 1 } with
      file := upd o.file file (some f) } := by
  -- who reads another directory did so before, from another page
  have hold : ∀ q w u, Objs.Reads { (o.addCopy x.dentryInode v p base blk).setD t
      { x with dRef := x.dRef + 1 } with file := upd o.file file (some f) } q w u →
        (w = x.dentryInode ∧ u = { v with iFsInfo := p }) ∨
        (w ≠ x.dentryInode ∧ o.Reads q w u ∧ u.iFsInfo ≠ p ∧
          ∀ c, o.dirCache u.iFsInfo = some c → c.dirBaseAddr ≠ base) := by
    intro q w u hq
    rcases eq_or_ne w x.dentryInode with heq | hne
    · refine .inl ⟨heq, ?_⟩
      have hu := hq.2.1
      rw [heq] at hu
      exact (Option.some.inj ((upd_self _ _ _).symm.trans hu)).symm
    · obtain ⟨hdir, hu, hopen⟩ :=
        Objs.Reads.of_open (o := o.addCopy x.dentryInode v p base blk) hq hf hne
      have hreads : o.Reads q w u := ⟨hdir, (upd_ne hne).symm.trans hu, hopen⟩
      obtain ⟨c, blk', hc, hblk⟩ := h.copy q w u hreads
      refine .inr ⟨hne, hreads, ?_, ?_⟩
      · intro heq
        rw [heq, hp] at hc
        cases hc
      · intro c' hc' heq
        obtain rfl := Option.some.inj (hc.symm.trans hc')
        rw [heq, hbase] at hblk
        cases hblk
  constructor
  · intro q w u hq
    rcases hold q w u hq with ⟨rfl, rfl⟩ | ⟨-, hreads, hinfo, hapart⟩
    · exact ⟨_, blk, upd_self _ _ _, upd_self _ _ _⟩
    · obtain ⟨c, blk', hc, hblk⟩ := h.copy q w u hreads
      exact ⟨c, blk', (upd_ne hinfo).trans hc, (upd_ne (hapart c hc)).trans hblk⟩
  · intro q q' w w' u u' c c' hq hq' hc hc' heq
    have hnew : ∀ {c}, upd o.dirCache p (some ⟨v.blocks, base⟩) p = some c →
        c.dirBaseAddr = base := by
      intro c hc
      rw [upd_self] at hc
      rw [← Option.some.inj hc]
    rcases hold q w u hq with ⟨rfl, rfl⟩ | ⟨-, hreads, hinfo, hapart⟩ <;>
    rcases hold q' w' u' hq' with ⟨rfl, rfl⟩ | ⟨-, hreads', hinfo', hapart'⟩
    · rfl
    · have hc'' := (upd_ne hinfo').symm.trans hc'
      exact absurd (heq.symm.trans (hnew hc)) (hapart' c' hc'')
    · have hc'' := (upd_ne hinfo).symm.trans hc
      exact absurd (heq.trans (hnew hc')) (hapart c hc'')
    · exact h.apart q q' w w' u u' c c' hreads hreads' ((upd_ne hinfo).symm.trans hc)
        ((upd_ne hinfo').symm.trans hc') heq

/-- A copy nobody reads is freed. -/
theorem freed (h : DirInv o) {base : Ptr}
    (hsole : ∀ p w v c, o.Reads p w v → o.dirCache v.iFsInfo = some c → c.dirBaseAddr ≠ base) :
    DirInv { o with dirBlock := upd o.dirBlock base none } := by
  constructor
  · intro p w v hp
    obtain ⟨c, blk, hc, hblk⟩ := h.copy p w v hp
    exact ⟨c, blk, hc, (upd_ne (hsole p w v c hp hc)).trans hblk⟩
  · exact h.apart

end DirInv

theorem Change.dirInv {M : Mount} {care : Care} {o o' : Objs} {d d' : Nat → Block}
    (hdirs : care.dirs) (hc : Change M care o d o' d') (hi : Inv M o d) (ho : OpenInv o)
    (h : DirInv o) : DirInv o' := by
  have hkeep := hc.keepsRfs hi
  have hnew : ∀ {D : Ptr → Option Dentry} {t t' : Ptr} {x y : Dentry} {q : Ptr},
      o.OpenOn t' q → o.dentry t = none → upd D t (some y) t' = some x → D t' = some x := by
    intro D t t' x y q hq hnone hx
    have hne : t' ≠ t := fun heq => ho.counts.none_open hnone q (heq ▸ hq)
    exact (upd_ne hne).symm.trans hx
  cases hc with
  | load | create | orphan | link | unlink | unlinkLast | evict | grow | data | size =>
      exact h.names ho rfl rfl rfl (fun _ _ _ _ hx => hx) hkeep rfl
  | bind node t x p v pv ht =>
      exact h.names ho rfl rfl rfl (fun _ _ _ hq hx => hnew hq ht hx) hkeep rfl
  | drop t x v e ht hidle =>
      refine h.names ho rfl rfl rfl (fun t' q y hq hy => ?_) hkeep rfl
      have hne : t' ≠ t := fun heq => ho.counts.idle ht hidle q (heq ▸ hq)
      exact (upd_ne hne).symm.trans hy
  | opened file t f x _ ht hf hopen hoff hfile =>
      obtain ⟨v, hv, -, hfile⟩ := hfile
      refine h.frame rfl rfl fun p w u hp => ?_
      have hne : w ≠ x.dentryInode := by
        rintro rfl
        obtain rfl := Option.some.inj (hv.symm.trans hp.2.1)
        exact absurd (hfile.symm.trans hp.1) (by decide)
      exact ⟨p, u, hp.of_open hf hne, rfl⟩
  | dirOpened file t f x v p base _ ht hf hopen hoff hv hrfs hdir hp hbase =>
      exact h.opened hf hp hbase
  | moved file f off hf =>
      have hopen := Objs.openOn_moved off hf
      exact h.frame rfl rfl fun p w u hp =>
        hp.back ho (fun t ht => ⟨p, (hopen t p).mp ht⟩) (fun _ _ _ _ hx => hx) hkeep rfl
  | copied p q f hp hne hq =>
      refine h.frame rfl rfl fun r w u hr => hr.back ho ?_ (fun _ _ _ _ hx => hx) hkeep rfl
      rintro t ⟨g, hg, hst, hgt⟩
      rcases upd_some hg with ⟨-, rfl⟩ | ⟨-, hg'⟩
      · exact ⟨p, f, hp, hst, hgt⟩
      · obtain ⟨-, hg''⟩ := upd_none hg'
        exact ⟨r, g, hg'', hst, hgt⟩
  | closed file f x hf hopen hx =>
      refine h.frame rfl rfl fun p w u hp => ?_
      obtain ⟨-, hreads⟩ := Objs.Reads.of_close hx hp
      exact ⟨p, u, hreads, rfl⟩
  | dirFreed w v c hw hrfs hc hsole => exact h.freed (hsole hdirs)
  | hostMount sb w t node B v x l _ hw _ ht =>
      exact h.names ho rfl rfl rfl (fun _ _ _ hq hx => hnew hq ht hx) hkeep rfl

/-! ## In every state -/

/-- The descriptor is the last one on its directory: `d_ref`, which counts them
(`OpenInv.count`), is 1. -/
def Objs.LastReader (o : Objs) (file : Ptr) : Prop :=
  ∀ f ∈ o.file file, ∀ x ∈ o.dentry f.fDentry, x.dRef = 1

/-- The descriptor the call closes is the last one on its directory. -/
def Op.ClosesLast (o : Objs) : Op → Prop
  | .closedir file => o.LastReader file
  | _ => True

/-- All calls but `vfs_mount`. -/
def Op.Unmounted : Op → Prop
  | .mount _ _ => False
  | _ => True

/-- Calls by paths that do not go through files, on open descriptors. -/
def OpenCalls (s : State) (op : Op) : Prop :=
  op.Unmounted ∧ op.DirPaths s.disk ∧ op.FdOpen s.objs

/-- The same, with every directory closed when nobody else reads it. -/
def SessionCalls (s : State) (op : Op) : Prop := OpenCalls s op ∧ op.ClosesLast s.objs

section

variable {M : Mount} {o : Objs} {d : Nat → Block} {file : Ptr}

theorem OpenInv.readDirOk (ho : OpenInv o) (hopen : o.Opened file) : o.ReadDirOk file := by
  intro f x v hf hx hv _
  obtain ⟨y, u, hy, hu, hrfs⟩ := ho.bound f.fDentry file ⟨f, hf, hopen f hf, rfl⟩
  obtain rfl := Option.some.inj (hx.symm.trans hy)
  obtain rfl := Option.some.inj (hv.symm.trans hu)
  exact hrfs

theorem DirInv.closeDirOk (h : DirInv o) (hi : Inv M o d) (ho : OpenInv o)
    (hopen : o.Opened file) : o.CloseDirOk file := by
  intro f hf x hx v hv hdir
  refine ⟨ho.readDirOk hopen f x v hf hx hv hdir, fun c hc j _ hj => ?_⟩
  obtain ⟨c', blk, hc', hblk⟩ := h.copy file x.dentryInode v
    ⟨hdir, hv, f.fDentry, x, ⟨f, hf, hopen f hf, rfl⟩, hx, rfl⟩
  obtain rfl := Option.some.inj (hc.symm.trans hc')
  rw [hi.copies _ c hc] at hj
  obtain rfl : j = 0 := by
    have : ((1 : Int).toNat) = 1 := rfl
    omega
  exact ⟨blk, by rw [Nat.zero_mul, Nat.add_zero]; exact hblk⟩

/-- The last descriptor on a directory is the only one that reads its copy. -/
theorem DirInv.copyUnread (h : DirInv o) (hi : Inv M o d) (ho : OpenInv o)
    (hopen : o.Opened file) (hlast : o.LastReader file) : o.CopyUnread file := by
  intro f x v c hf hx hv hdir hc p hne w u c' hp hc' heq
  have hself : o.OpenOn f.fDentry file := ⟨f, hf, hopen f hf, rfl⟩
  have hrfs := ho.readDirOk hopen f x v hf hx hv hdir
  obtain rfl : w = x.dentryInode := h.apart p file w x.dentryInode u v c' c hp
    ⟨hdir, hv, f.fDentry, x, hself, hx, rfl⟩ hc' hc heq
  obtain ⟨-, -, t, y, hpt, hy, hyx⟩ := hp
  -- a directory has one dentry
  obtain rfl : t = f.fDentry :=
    hi.tree.oneDir t f.fDentry y x v hy hx hyx (by rw [hyx]; exact hv) hrfs hdir
  have hcard := ho.count _ x hx
  rw [hlast f hf x hx] at hcard
  have hone : Set.ncard {q | o.OpenOn f.fDentry q} = 1 := by omega
  obtain ⟨q, hq⟩ := Set.ncard_eq_one.mp hone
  have hmem : ∀ {r}, o.OpenOn f.fDentry r → r = q := fun {r} hr => by
    have : r ∈ ({q} : Set Ptr) := hq ▸ hr
    exact this
  exact hne ((hmem hpt).trans (hmem hself).symm)

theorem SessionCalls.guard (M : Mount) (s : State) (op : Op) (hi : Inv M s.objs s.disk)
    (hP : OpenInv s.objs ∧ DirInv s.objs) (h : SessionCalls s op) :
    op.Guard M ⟨True, True, True, False, False⟩ s.objs s.disk := by
  obtain ⟨⟨hop, hpaths, hfd⟩, hlast⟩ := h
  cases op with
  | «open» | unlink | mkdir => exact DirPath.pathOk hpaths
  | opendir => exact ⟨id, DirPath.pathOk hpaths⟩
  | link => exact ⟨hpaths.1.pathOk, hpaths.2⟩
  | read | lseek => exact id
  | write => exact ⟨id, fun _ => hfd⟩
  | close => exact ⟨id, id, fun _ => hfd⟩
  | readdir => exact ⟨id, hP.1.readDirOk hfd⟩
  | closedir =>
      exact ⟨id, id, hP.2.closeDirOk hi hP.1 hfd, fun _ => hfd,
        fun _ => hP.2.copyUnread hi hP.1 hfd hlast⟩
  | mount => exact hop.elim

end

theorem Booted.dirInv {M : Mount} {o : Objs} {d : Nat → Block} (hb : Booted M o d) :
    DirInv o := by
  have hnone : ∀ p w v, ¬o.Reads p w v := by
    rintro p w v ⟨-, -, t, x, ⟨f, hf, -⟩, -⟩
    rw [hb.files p] at hf
    cases hf
  exact ⟨fun p w v hp => absurd hp (hnone p w v),
    fun p q w w' v v' c c' hp => absurd hp (hnone p w v)⟩

theorem SessionCalls.keeps {b : Boot} {host : VinodeOps} {s0 s : State} (h0 : b.Starts s0)
    (hrun : Run host SessionCalls s0 s) :
    Sound s0.mount s ∧ (OpenInv s.objs ∧ DirInv s.objs) ∧
      Steps s0.mount ⟨True, True, True, False, False⟩ (s0.objs, s0.disk) (s.objs, s.disk) := by
  exact hrun.keeps (P := fun a => OpenInv a.1 ∧ DirInv a.1)
    (fun s op hs hP hop => SessionCalls.guard s0.mount s op hs.inv hP hop)
    (fun hi hP hc => ⟨hc.openInv trivial hi hP.1, hc.dirInv trivial hi hP.1 hP.2⟩)
    h0.sound ⟨h0.booted.2.openInv, h0.booted.2.dirInv⟩

/-- No page is on the free list twice, and none that a descriptor reads a
directory from. -/
structure SessionsSafe (s : State) : Prop where
  nodup : s.freePages.Nodup
  kept : ∀ p w v, s.objs.Reads p w v → ∃ c, s.dirCache v.iFsInfo = some c ∧
    v.iFsInfo ∉ s.freePages ∧
    ∀ i : Nat, (i : Int) < c.blockCount → c.dirBaseAddr + i * 4096 ∉ s.freePages

theorem sessions_safe {b : Boot} {host : VinodeOps} {s0 s : State} (h0 : b.Starts s0)
    (hrun : Run host SessionCalls s0 s) : SessionsSafe s := by
  obtain ⟨hs, ⟨-, hd⟩, -⟩ := SessionCalls.keeps h0 hrun
  obtain ⟨b, h⟩ := hs.holds
  refine ⟨h.mem.nodup, fun p w v hp => ?_⟩
  obtain ⟨c, blk, hc, hblk⟩ := hd.copy p w v hp
  refine ⟨c, hc, fun hfree => ?_, fun i hi hfree => ?_⟩
  · have hpage := h.page (K := dirCacheKind) hc
    rw [h.mem.free _ hfree] at hpage
    cases hpage
  · rw [hs.inv.copies _ c hc] at hi
    obtain rfl : i = 0 := by omega
    rw [Nat.zero_mul, Nat.add_zero] at hfree
    have hpage := h.page (K := dirBlockKind) hblk
    rw [h.mem.free _ hfree] at hpage
    cases hpage

instance (o : Objs) (file : Ptr) : Decidable (o.LastReader file) :=
  inferInstanceAs (Decidable (∀ f ∈ o.file file, ∀ x ∈ o.dentry f.fDentry, x.dRef = 1))

instance (o : Objs) : (op : Op) → Decidable (op.ClosesLast o)
  | .closedir file => inferInstanceAs (Decidable (o.LastReader file))
  | .open _ _ | .read _ _ _ | .write _ _ | .lseek _ _ _ | .close _ | .link _ _ | .unlink _
  | .mkdir _ | .opendir _ | .readdir _ | .mount _ _ => .isTrue trivial

instance : (op : Op) → Decidable op.Unmounted
  | .mount _ _ => .isFalse id
  | .open _ _ | .read _ _ _ | .write _ _ | .lseek _ _ _ | .close _ | .link _ _ | .unlink _
  | .mkdir _ | .opendir _ | .readdir _ | .closedir _ => .isTrue trivial

instance (s : State) (op : Op) : Decidable (OpenCalls s op) :=
  inferInstanceAs (Decidable (_ ∧ _))

instance (s : State) (op : Op) : Decidable (SessionCalls s op) :=
  inferInstanceAs (Decidable (_ ∧ _))

/-- `"/RAMDISK0"`. -/
def pathRoot : Path := ⟨slash :: ramdiskName, by decide⟩

/-- A directory that is read by two. -/
theorem sessions_safe_two : ∃ s, Run noHost SessionCalls smallBoot.state s ∧
    (s.file 57344).any (fun f => f.status == .opened) = true ∧
    (s.file 69632).any (fun f => f.status == .opened) = true ∧ SessionsSafe s := by
  obtain ⟨s, hrun, htwo⟩ := run_with noHost SessionCalls
    [.opendir pathRoot, .opendir pathRoot, .open pathA rdwrCreat, .readdir 57344]
    smallBoot.state (fun s => (s.file 57344).any (fun f => f.status == .opened) &&
      (s.file 69632).any fun f => f.status == .opened) (by decide +kernel)
  obtain ⟨h1, h2⟩ := (Bool.and_eq_true _ _).mp htwo
  exact ⟨s, hrun, h1, h2, sessions_safe (Boot.starts smallBoot_boots) hrun⟩

/-- When both close it, the copy of the second is freed twice, and that of the
first never. -/
theorem sessions_overlap : ∃ s, Run noHost OpenCalls smallBoot.state s ∧ ¬SessionsSafe s := by
  obtain ⟨s, hrun, htwice⟩ := run_with noHost OpenCalls
    [.opendir pathRoot, .opendir pathRoot, .closedir 57344, .closedir 69632]
    smallBoot.state (fun s => !decide s.freePages.Nodup) (by decide +kernel)
  refine ⟨s, hrun, fun h => ?_⟩
  rw [decide_eq_true h.nodup] at htwice
  cases htwice

end Pke
