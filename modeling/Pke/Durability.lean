import Pke.Space

/-!
# What reaches the disk

The size and the blocks of a file change in memory first. They reach the
disk when `vfs_close` drops the last reference to the vinode, and a name
that is only cached counts as a reference. So closing the last descriptor
of a file makes it durable exactly when its vinode has no other name in
the cache, or had nothing to write (`close_durable`).
-/

namespace Pke

open Exec (Post)

/-! ## Inodes that agree -/

/-- Two versions of an inode agree on everything that is in use. -/
structure Dinode.Same (a b : Dinode) : Prop where
  size : a.size = b.size
  blocks : a.blocks = b.blocks
  nlinks : a.nlinks = b.nlinks
  addrs : ∀ i : Nat, (i : Int) < a.blocks → addrOf a.addrs i = addrOf b.addrs i

theorem Dinode.Same.refl (a : Dinode) : a.Same a := ⟨rfl, rfl, rfl, fun _ _ => rfl⟩

theorem Dinode.Same.withLinks {a b : Dinode} (h : a.Same b) (k : Int) :
    { a with nlinks := k }.Same { b with nlinks := k } :=
  ⟨h.size, h.blocks, rfl, h.addrs⟩

variable {named held : Prop} {used : Int → Prop} {v v' : Vol} {n : Int} {M : Mount} {care : Care}
  {o o' : Objs} {d d' : Nat → Block} {s : State} {last : Int → Option Dinode}

namespace Vol

/-- If memory has the file, it agrees with the disk. -/
def Clean (v : Vol) (n : Int) : Prop :=
  ∀ c, v.mem n = some c → c.type = rFile → c.Same (v.ino n)

/-- A file nobody has open stays clean. -/
theorem Step.clean (hs : v.Step named held used v') (h : v.Inv) (hn : ¬used n) (hc : v.Clean n) :
    v'.Clean n := by
  intro c' hm hfile'
  -- a directory whose entries change is no file
  have hdir : ∀ {c : Dinode} {sz : Int}, c.type = rDir →
      some { c with size := sz } = some c' → False := by
    intro c sz hdir heq
    rw [← Option.some.inj heq] at hfile'
    exact absurd (hdir.symm.trans hfile') (by decide)
  cases hs with
  | load m hlive hmem =>
      rcases upd_cases hm with ⟨rfl, heq⟩ | ⟨-, hm'⟩
      · rw [← Option.some.inj heq]
        exact .refl _
      · exact hc c' hm' hfile'
  | create m p k type name c hm0 hfree haddrs htype hk hzero hp hd hroom hnew =>
      rcases upd_cases hm with ⟨-, heq⟩ | ⟨hnp, hm'⟩
      · exact (hdir hd heq).elim
      · show c'.Same (upd _ _ _ n)
        rw [upd_ne hnp]
        rcases upd_cases hm' with ⟨rfl, heq⟩ | ⟨hne, hm''⟩
        · rw [upd_self, ← Option.some.inj heq]
          exact .refl _
        · rw [upd_ne hne]
          exact hc c' hm'' hfile'
  | orphan m k hloose hm0 hfree =>
      have hne : n ≠ m := fun heq => (h.live hm) (heq ▸ hfree)
      show c'.Same (upd _ _ _ n)
      rw [upd_ne hne]
      exact hc c' hm hfile'
  | link m p name b c hb hfile hp hd hroom hnew =>
      show c'.Same (upd _ _ _ n)
      rcases upd_cases hm with ⟨rfl, heq⟩ | ⟨hne, hm'⟩
      · rw [upd_self, ← Option.some.inj heq]
        exact .refl _
      · rw [upd_ne hne]
        rcases upd_cases hm' with ⟨-, heq⟩ | ⟨hnp, hm''⟩
        · exact (hdir hd heq).elim
        · rw [upd_ne hnp]
          exact hc c' hm'' hfile'
  | unlink m p k name b c hb hfile hp hd hk hmore =>
      show c'.Same (upd _ _ _ n)
      rcases upd_cases hm with ⟨-, heq⟩ | ⟨hnp, hm'⟩
      · exact (hdir hd heq).elim
      · rw [upd_ne hnp]
        rcases upd_cases hm' with ⟨rfl, heq⟩ | ⟨hne, hm''⟩
        · rw [upd_self, ← Option.some.inj heq]
          exact (hc b hb hfile).withLinks _
        · rw [upd_ne hne]
          exact hc c' hm'' hfile'
  | unlinkLast m p k name b c hb hfile hp hd hk hlast =>
      show c'.Same (upd _ _ _ n)
      rcases upd_cases hm with ⟨-, heq⟩ | ⟨hnp, hm'⟩
      · exact (hdir hd heq).elim
      · rw [upd_ne hnp]
        rcases upd_cases hm' with ⟨rfl, heq⟩ | ⟨hne, hm''⟩
        · cases heq
        · rw [upd_ne hne]
          exact hc c' hm'' hfile'
  | evict m c hc0 hfile =>
      show c'.Same (upd _ _ _ n)
      obtain ⟨hne, hm'⟩ := upd_none hm
      rw [upd_ne hne]
      exact hc c' hm' hfile'
  | grow m c k hc0 hfile h10 hk hzero huse =>
      have hne : n ≠ m := fun heq => hn (heq ▸ huse)
      exact hc c' ((upd_ne hne).symm.trans hm) hfile'
  | size m c sz hc0 hfile h0 h1 huse =>
      have hne : n ≠ m := fun heq => hn (heq ▸ huse)
      exact hc c' ((upd_ne hne).symm.trans hm) hfile'

theorem clean_of_reflGen (hs : Relation.ReflGen (Step named held used) v v') (h : v.Inv)
    (hn : ¬used n) (hc : v.Clean n) : v'.Clean n := by
  cases hs with
  | refl => exact hc
  | single hs => exact hs.clean h hn hc

/-- As long as nothing is evicted, a file that is not in memory was not there
before and is as it was. -/
theorem Step.absent (hs : v.Step named held used v') (hheld : held) (hm : v'.mem n = none)
    (hfile : (v'.ino n).type = rFile) : v.mem n = none ∧ v'.ino n = v.ino n := by
  cases hs with
  | load m => exact ⟨(upd_some_none hm).2, rfl⟩
  | create m p =>
      obtain ⟨hnp, hm'⟩ := upd_some_none hm
      obtain ⟨hne, hm''⟩ := upd_some_none hm'
      exact ⟨hm'', (upd_ne hnp).trans (upd_ne hne)⟩
  | orphan m k =>
      refine ⟨hm, upd_ne ?_⟩
      rintro rfl
      change (upd v.ino n _ n).type = rFile at hfile
      rw [upd_self] at hfile
      exact absurd (show rDir = rFile from hfile) (by decide)
  | link m p =>
      obtain ⟨hne, hm'⟩ := upd_some_none hm
      obtain ⟨hnp, hm''⟩ := upd_some_none hm'
      exact ⟨hm'', (upd_ne hne).trans (upd_ne hnp)⟩
  | unlink m p =>
      obtain ⟨hnp, hm'⟩ := upd_some_none hm
      obtain ⟨hne, hm''⟩ := upd_some_none hm'
      exact ⟨hm'', (upd_ne hnp).trans (upd_ne hne)⟩
  | unlinkLast m p =>
      obtain ⟨hnp, hm'⟩ := upd_some_none hm
      rcases eq_or_ne n m with rfl | hne
      · change (upd (upd v.ino n (dropInode (v.ino n) 0)) p _ n).type = rFile at hfile
        rw [upd_ne hnp, upd_self] at hfile
        exact absurd (show rFree = rFile from hfile) (by decide)
      · exact ⟨(upd_ne hne).symm.trans hm', (upd_ne hnp).trans (upd_ne hne)⟩
  | evict m c hm0 hf hmay => exact absurd hheld hmay
  | grow m => exact ⟨(upd_some_none hm).2, rfl⟩
  | size m => exact ⟨(upd_some_none hm).2, rfl⟩

theorem absent_of_reflGen (hs : Relation.ReflGen (Step named held used) v v') (hheld : held)
    (hm : v'.mem n = none) (hfile : (v'.ino n).type = rFile) :
    v.mem n = none ∧ v'.ino n = v.ino n := by
  cases hs with
  | refl => exact ⟨hm, rfl⟩
  | single hs => exact hs.absent hheld hm hfile

end Vol

/-! ## Who has a file open -/

namespace Objs.GoesTo

variable {o o' : Objs} {p : Ptr} {n : Int}

/-- A descriptor that stays open goes where it went. -/
theorem keep {P : Prop} (h : o.GoesTo p n) (hkeep : KeepsRfs P o.dentry o.vinode o'.vinode) {q : Ptr}
    (hfile : ∀ t, o.OpenOn t p → o'.OpenOn t q)
    (hdentry : ∀ t x, o.OpenOn t p → o.dentry t = some x →
      ∃ y, o'.dentry t = some y ∧ y.dentryInode = x.dentryInode) : o'.OpenNum n := by
  obtain ⟨f, x, v, hf, hst, hx, hv, hrfs, hn⟩ := h
  have hp : o.OpenOn f.fDentry p := ⟨f, hf, hst, rfl⟩
  obtain ⟨g, hg, hgst, hgd⟩ := hfile _ hp
  obtain ⟨y, hy, hyx⟩ := hdentry _ x hp hx
  obtain ⟨u, hu, hvu⟩ := hkeep _ x v hx hv hrfs
  exact ⟨q, g, y, u, hg, hgst, by rw [hgd, hy], by rw [hyx, hu], hvu.iOps.trans hrfs,
    hvu.inum.trans hn⟩

end Objs.GoesTo

theorem Change.openNum (hheld : care.held) (hc : Change M care o d o' d') (hi : Inv M o d)
    (ho : OpenInv o) (h : o.OpenNum n) : o'.OpenNum n := by
  obtain ⟨p, hp⟩ := h
  have hkeep := hc.keepsRfs hi
  have hsame : ∀ t x, o.dentry t = some x → ∃ y, o.dentry t = some y ∧
      y.dentryInode = x.dentryInode := fun t x hx => ⟨x, hx, rfl⟩
  -- a dentry that is new, or one more or less in use
  have hset : ∀ {t : Ptr} {y : Dentry}, (∀ x, o.dentry t = some x → y.dentryInode = x.dentryInode) →
      ∀ q x, o.dentry q = some x →
        ∃ z, upd o.dentry t (some y) q = some z ∧ z.dentryInode = x.dentryInode := by
    intro t y hy q x hx
    rcases eq_or_ne q t with rfl | hne
    · exact ⟨y, upd_self _ _ _, hy x hx⟩
    · exact ⟨x, (upd_ne hne).trans hx, rfl⟩
  cases hc with
  | load | create | orphan | link | unlink | unlinkLast | grow | data | size | dirFreed =>
      exact hp.keep hkeep (fun _ ht => ht) fun t x _ hx => hsame t x hx
  | evict w v e hw hrfs hfile href he hmay => exact absurd hheld hmay
  | closed file f x hf hopen hx hmay hmay' => exact absurd hheld hmay'
  | bind node t x q v pv ht =>
      exact hp.keep hkeep (fun _ ht => ht) fun t x _ hx =>
        hset (fun x hx => by rw [ht] at hx; cases hx) t x hx
  | hostMount sb w t node B v x l _ hw _ ht =>
      exact hp.keep hkeep (fun _ ht => ht) fun t x _ hx =>
        hset (fun x hx => by rw [ht] at hx; cases hx) t x hx
  | drop t x v e ht hidle =>
      refine hp.keep hkeep (fun _ ht => ht) fun q y hq hy => ?_
      have hne : q ≠ t := fun heq => ho.counts.idle ht hidle p (heq ▸ hq)
      exact ⟨y, (upd_ne hne).trans hy, rfl⟩
  | opened file t f x hnew ht hf =>
      refine hp.keep (q := p) hkeep (fun q hq => ?_) fun q y _ hy => hset ?_ q y hy
      · obtain ⟨g, hg, hst, hd⟩ := hq
        have hne : p ≠ file := ne_of_none hnew hg
        exact ⟨g, (upd_ne hne).trans hg, hst, hd⟩
      · intro y hy
        rw [ht] at hy
        rw [← Option.some.inj hy]
  | dirOpened file t f x v q base hnew ht hf =>
      refine hp.keep (q := p) hkeep (fun q hq => ?_) fun q y _ hy => hset ?_ q y hy
      · obtain ⟨g, hg, hst, hd⟩ := hq
        have hne : p ≠ file := ne_of_none hnew hg
        exact ⟨g, (upd_ne hne).trans hg, hst, hd⟩
      · intro y hy
        rw [ht] at hy
        rw [← Option.some.inj hy]
  | moved file f off hf hoff hin =>
      exact hp.keep hkeep (fun t ht => (Objs.openOn_moved off hf t p).mpr ht)
        fun t x _ hx => hsame t x hx
  | copied q r f hq hne hr =>
      rcases eq_or_ne p q with rfl | hpq
      · refine hp.keep (q := r) hkeep (fun t ht => ?_) fun t x _ hx => hsame t x hx
        obtain ⟨g, hg, hst, hd⟩ := ht
        obtain rfl := Option.some.inj (hq.symm.trans hg)
        exact ⟨f, upd_self _ _ _, hst, hd⟩
      · refine hp.keep (q := p) hkeep (fun t ht => ?_) fun t x _ hx => hsame t x hx
        obtain ⟨g, hg, hst, hd⟩ := ht
        have hpr : p ≠ r := by
          rintro rfl
          rw [hr g hg] at hst
          cases hst
        exact ⟨g, (upd_ne hpr).trans ((upd_ne hpq).trans hg), hst, hd⟩

/-! ## A call that closes nothing -/

/-- The files nobody has open are clean. -/
def Objs.IdleClean (M : Mount) (o : Objs) (d : Nat → Block) : Prop :=
  ∀ n, ¬o.OpenNum n → (o.vol M d).Clean n

theorem Change.idleClean (hfds : care.fds) (hheld : care.held) (hc : Change M care o d o' d')
    (hi : Inv M o d) (ho : OpenInv o) (h : o.IdleClean M d) : o'.IdleClean M d' := by
  intro n hn
  have hidle : ¬o.OpenNum n := fun hopen => hn (hc.openNum hheld hi ho hopen)
  exact Vol.clean_of_reflGen (hc.vol hi) hi.vol (fun huse => hidle (huse hfds)) (h n hidle)

theorem Change.absent (hheld : care.held) (hc : Change M care o d o' d') (hi : Inv M o d)
    (hm : o'.mem M n = none) (hfile : (diskInode d' n).type = rFile) :
    o.mem M n = none ∧ diskInode d' n = diskInode d n :=
  Vol.absent_of_reflGen (hc.vol hi) hheld hm hfile

/-- No file that is absent in the end was there before. -/
theorem Steps.absent (hheld : care.held) (hs : Steps M care (o, d) (o', d')) (hi : Inv M o d)
    (n : Int) (hm : o'.mem M n = none) (hfile : (diskInode d' n).type = rFile) :
    o.mem M n = none ∧ diskInode d' n = diskInode d n := by
  have hkeeps : ∀ n, o'.mem M n = none → (diskInode d' n).type = rFile →
      o.mem M n = none ∧ diskInode d' n = diskInode d n := by
    refine hs.keeps (P := fun q => ∀ n, q.1.mem M n = none → (diskInode q.2 n).type = rFile →
      o.mem M n = none ∧ diskInode q.2 n = diskInode d n) hi (fun n hm _ => ⟨hm, rfl⟩) ?_
    intro o1 d1 o2 d2 hi1 hP hc n hm2 hfile2
    obtain ⟨hm1, hino⟩ := hc.absent hheld hi1 hm2 hfile2
    obtain ⟨hm0, hino0⟩ := hP n hm1 (by rw [← hino]; exact hfile2)
    exact ⟨hm0, hino.trans hino0⟩
  exact hkeeps n hm hfile

/-! ## Closing -/

section

variable {M : Mount} {o o' : Objs} {d d' : Nat → Block} {file : Ptr} {f : File} {x : Dentry}
  {v : Vinode}

namespace Closing

variable (hc : Closing (o.close file f x) d f.fDentry { x with dRef := x.dRef - 1 } v o' d')
  (hx : o.dentry f.fDentry = some x) (hv : o.vinode x.dentryInode = some v)

include hc

theorem dentry_back (hx : o.dentry f.fDentry = some x) {t : Ptr} {y : Dentry}
    (hy : o'.dentry t = some y) :
    ∃ z, o.dentry t = some z ∧ z.dentryInode = y.dentryInode := by
  have hclose : ∀ {y}, (o.close file f x).dentry t = some y →
      ∃ z, o.dentry t = some z ∧ z.dentryInode = y.dentryInode := by
    intro y hy
    rcases upd_cases hy with ⟨rfl, heq⟩ | ⟨-, hy'⟩
    · exact ⟨x, hx, by rw [← Option.some.inj heq]⟩
    · exact ⟨y, hy', rfl⟩
  cases hc with
  | kept => exact hclose hy
  | dropped | evicted =>
      obtain ⟨-, hy'⟩ := upd_none hy
      exact hclose hy'

theorem vinode_back (hv : o.vinode x.dentryInode = some v) {w : Ptr} {u : Vinode}
    (hu : o'.vinode w = some u) : ∃ z, o.vinode w = some z ∧ z.iOps = u.iOps ∧ z.inum = u.inum := by
  have hset : ∀ {u}, (o.setV x.dentryInode { v with ref := v.ref - 1 }).vinode w = some u →
      ∃ z, o.vinode w = some z ∧ z.iOps = u.iOps ∧ z.inum = u.inum := by
    intro u hu
    rcases upd_cases hu with ⟨rfl, heq⟩ | ⟨-, hu'⟩
    · exact ⟨v, hv, by rw [← Option.some.inj heq], by rw [← Option.some.inj heq]⟩
    · exact ⟨u, hu', rfl, rfl⟩
  cases hc with
  | kept => exact ⟨u, hu, rfl, rfl⟩
  | dropped => exact hset hu
  | evicted =>
      obtain ⟨-, hu'⟩ := upd_none hu
      exact hset hu'

/-- The other descriptors go where they went. -/
theorem goesTo_iff (hx : o.dentry f.fDentry = some x) (hv : o.vinode x.dentryInode = some v)
    (ho : OpenInv o') {p : Ptr} : o'.GoesTo p n ↔ p ≠ file ∧ o.GoesTo p n := by
  have hfile : o'.file = upd o.file file (some { f with status := .none }) := hc.file
  constructor
  · rintro ⟨g, y, u, hg, hst, hy, hu, hrfs, hn⟩
    obtain ⟨z, hz, hzy⟩ := hc.dentry_back hx hy
    obtain ⟨u', hu', hops, hnum⟩ := hc.vinode_back hv hu
    rw [hfile] at hg
    rcases upd_cases hg with ⟨-, heq⟩ | ⟨hne, hg'⟩
    · rw [← Option.some.inj heq] at hst
      cases hst
    · exact ⟨hne, g, z, u', hg', hst, hz, by rw [hzy, hu'], hops.trans hrfs, hnum.trans hn⟩
  · rintro ⟨hne, g, y, u, hg, hst, hy, hu, hrfs, hn⟩
    have hg' : o'.file p = some g := by
      rw [hfile, upd_ne hne, hg]
    obtain ⟨y', u', hy', hu', hrfs'⟩ := ho.bound g.fDentry p ⟨g, hg', hst, rfl⟩
    obtain ⟨z, hz, hzy⟩ := hc.dentry_back hx hy'
    obtain ⟨w, hw, -, hnum⟩ := hc.vinode_back hv hu'
    obtain rfl := Option.some.inj (hy.symm.trans hz)
    rw [← hzy, hu] at hw
    obtain rfl := Option.some.inj hw
    exact ⟨g, y', u', hg', hst, hy', hu', hrfs', hnum.symm.trans hn⟩

/-- What memory and the disk have of the inodes: nothing happens, or the file is
written back and leaves memory. -/
theorem mem (hi : Inv M o d) (hf : o.file file = some f) (hx : o.dentry f.fDentry = some x)
    (hv : o.vinode x.dentryInode = some v) (hfile : v.type = fileI) :
    (o'.mem M = o.mem M ∧ d' = d ∧ (x.dRef = 1 → v.ref ≠ 1)) ∨
      (o'.mem M = upd (o.mem M) v.inum none ∧
        diskInode d' = upd (diskInode d) v.inum v.toDinode ∧ v.ref = 1) := by
  have hrfs := hi.rfs_of_file hv hfile
  have hset : (o.setV x.dentryInode { v with ref := v.ref - 1 }).mem M = o.mem M :=
    mem_setV_same hi.cache { v with ref := v.ref - 1 } hv (hi.sb_eq hv hrfs)
      (hi.inum_nonneg hv hrfs) rfl
  cases hc with
  | kept hbusy => exact .inl ⟨rfl, rfl, fun hone => absurd (by rw [hone]; rfl) hbusy⟩
  | dropped e hidle he href => exact .inl ⟨hset, rfl, fun _ hone => href (by rw [hone]; rfl)⟩
  | evicted e e' hidle he href he' =>
      have hclosed : Change M .none o d (o.close file f x) d :=
        .closed file f x hf False.elim hx id id
      have hdrop : Change M .none (o.close file f x) d _ d :=
        .drop f.fDentry { x with dRef := x.dRef - 1 } v e (upd_self _ _ _) (le_of_eq hidle) he hv
          hrfs hfile
      have hsb := hi.sb_eq hv hrfs
      refine .inr ⟨(mem_dropV (w := x.dentryInode) (hdrop.cache (hclosed.inv hi)) (upd_self _ _ _)
        (by exact hsb)).trans ?_, (hi.disk_evict hv hrfs hfile).1, by omega⟩
      exact congrArg (fun m => upd m v.inum none) hset

end Closing

end

/-! ## Runs with a record -/

/-- What memory knew last: the vinodes that are there now, and of the other
inodes what the record `last` says. -/
def State.recall (s : State) (M : Mount) (last : Int → Option Dinode) (n : Int) : Option Dinode :=
  ((s.objs.cached M n).map Vinode.toDinode).or (last n)

/-- The states reached by calls, each with the record of the last version of
every inode that was in memory. -/
inductive Recorded (host : VinodeOps) (ok : State → Op → Prop) (M : Mount) (s0 : State) :
    State → (Int → Option Dinode) → Prop
  | start : Recorded host ok M s0 s0 (s0.recall M fun _ => none)
  | call {s s' : State} {last : Int → Option Dinode} (h : Recorded host ok M s0 s last)
      (hcall : Call host ok s s') : Recorded host ok M s0 s' (s'.recall M last)

/-- Every file nobody has open is on disk as memory knew it last. -/
def Durable (s : State) (last : Int → Option Dinode) : Prop :=
  ∀ n di, (diskInode s.disk n).type = rFile → ¬s.objs.OpenNum n → last n = some di →
    di.Same (diskInode s.disk n)

/-- When `file` is the last descriptor of its inode, the vinode has no other
name in the cache, or has nothing to write. -/
def Objs.CloseClean (o : Objs) (d : Nat → Block) (file : Ptr) : Prop :=
  ∀ f x v, o.file file = some f → o.dentry f.fDentry = some x → o.vinode x.dentryInode = some v →
    v.type = fileI → (∀ p, o.GoesTo p v.inum → p = file) →
    v.ref = 1 ∨ v.toDinode.Same (diskInode d v.inum)

/-- What holds between two calls. -/
structure Settled (M : Mount) (s : State) (last : Int → Option Dinode) : Prop where
  sound : Sound M s
  opens : OpenInv s.objs
  clean : s.objs.IdleClean M s.disk
  known : ∀ n c, s.objs.mem M n = some c → last n = some c
  absent : ∀ n di, s.objs.mem M n = none → (diskInode s.disk n).type = rFile → last n = some di →
    di.Same (diskInode s.disk n)

theorem State.recall_some {c : Dinode} (h : s.objs.mem M n = some c) :
    s.recall M last n = some c := by
  have hmem : (s.objs.cached M n).map Vinode.toDinode = some c := h
  rw [State.recall, hmem, Option.some_or]

theorem State.recall_none (h : s.objs.mem M n = none) : s.recall M last n = last n := by
  have hmem : (s.objs.cached M n).map Vinode.toDinode = none := h
  rw [State.recall, hmem, Option.none_or]

namespace Settled

variable {M : Mount} {s s' : State} {last : Int → Option Dinode} {host : VinodeOps}

theorem durable (h : Settled M s last) : Durable s last := by
  intro n di hfile hidle hlast
  cases hm : s.objs.mem M n with
  | none => exact h.absent n di hm hfile hlast
  | some c =>
      have heq := h.known n c hm
      rw [hlast] at heq
      obtain rfl := Option.some.inj heq
      exact h.clean n hidle di hm ((h.sound.inv.vol.type_eq hm).symm.trans hfile)

/-- A call that closes nothing. -/
theorem step {op : Op} {r : Int} (h : Settled M s last)
    (hg : op.Guard M ⟨True, True, False, False, True⟩ s.objs s.disk)
    (hrun : op.exec host s = .ok (r, s')) (hcap : s'.DirCap) :
    Settled M s' (s'.recall M last) := by
  obtain ⟨hs', hsteps⟩ := h.sound.exec hg hrun hcap
  obtain ⟨ho', hclean'⟩ := hsteps.keeps (P := fun q => OpenInv q.1 ∧ q.1.IdleClean M q.2)
    h.sound.inv ⟨h.opens, h.clean⟩ fun hi hP hc =>
      ⟨hc.openInv trivial hi hP.1, hc.idleClean trivial trivial hi hP.1 hP.2⟩
  refine ⟨hs', ho', hclean', fun n c hm => State.recall_some hm, fun n di hm hfile hlast => ?_⟩
  rw [State.recall_none hm] at hlast
  obtain ⟨hm0, hino⟩ := hsteps.absent trivial h.sound.inv n hm hfile
  rw [hino] at hfile ⊢
  exact h.absent n di hm0 hfile hlast

section

variable {file : Ptr} {f : File} {x : Dentry} {v : Vinode} (h : Settled M s last)
  (hf : s.objs.file file = some f) (hst : f.status = .opened)
  (hx : s.objs.dentry f.fDentry = some x) (hv : s.objs.vinode x.dentryInode = some v)
  (hfile : v.type = fileI)

include h hf hst hx hv hfile

/-- The last descriptor of an inode is the last of its dentry. -/
theorem dRef_one (honly : ∀ p, s.objs.GoesTo p v.inum → p = file) : x.dRef = 1 := by
  have hself : s.objs.OpenOn f.fDentry file := ⟨f, hf, hst, rfl⟩
  have hset : {p | s.objs.OpenOn f.fDentry p} = {file} := by
    ext p
    constructor
    · rintro ⟨g, hg, hgst, hgd⟩
      exact honly p ⟨g, x, v, hg, hgst, hgd ▸ hx, hv, h.sound.inv.rfs_of_file hv hfile, rfl⟩
    · rintro rfl
      exact hself
  rw [h.opens.count _ x hx, hset, Set.ncard_singleton]
  rfl

theorem closing (hend : Ends s' s'.objs s'.disk [])
    (hc : Closing (s.objs.close file f x) s.disk f.fDentry { x with dRef := x.dRef - 1 } v s'.objs
      s'.disk) :
    (s.objs.CloseClean s.disk file → Settled M s' (s'.recall M last)) ∧
      (Durable s' (s'.recall M last) → s.objs.CloseClean s.disk file) := by
  have hi := h.sound.inv
  have hrfs := hi.rfs_of_file hv hfile
  have hsteps : Steps M ⟨True, True, False, False, False⟩ (s.objs, s.disk) (s'.objs, s'.disk) :=
    hc.steps_close hi hf hx hv hfile (fun _ => hst) id id
  have ho' : OpenInv s'.objs := hsteps.keeps (P := fun q => OpenInv q.1) hi h.opens
    fun hi hP hc => hc.openInv trivial hi hP
  have hgoes : ∀ p n, s'.objs.GoesTo p n ↔ p ≠ file ∧ s.objs.GoesTo p n :=
    fun p n => hc.goesTo_iff hx hv ho'
  have hmem0 : s.objs.mem M v.inum = some v.toDinode := hi.mem_eq hv hrfs
  have hmem := hc.mem hi hf hx hv hfile
  constructor
  · intro hcond
    refine ⟨⟨hend, hsteps.inv hi⟩, ho', fun n hidle c hm hctype => ?_,
      fun n c hm => State.recall_some hm, fun n di hm hf' hlast => ?_⟩
    · change s'.objs.mem M n = some c at hm
      show c.Same (diskInode s'.disk n)
      have honly : ∀ p, s.objs.GoesTo p n → p = file := fun p hp => by
        by_contra hne
        exact hidle ⟨p, (hgoes p n).mpr ⟨hne, hp⟩⟩
      rcases eq_or_ne n v.inum with rfl | hne
      · rcases hmem with ⟨hsame, hdisk, hkept⟩ | ⟨hgone, -, -⟩
        · rw [hsame, hmem0] at hm
          rw [hdisk, ← Option.some.inj hm]
          exact (hcond f x v hf hx hv hfile honly).resolve_left
            (hkept (h.dRef_one hf hst hx hv hfile honly))
        · rw [hgone, upd_self] at hm
          cases hm
      · -- the descriptor goes to another inode
        have hidle0 : ¬s.objs.OpenNum n := by
          rintro ⟨p, hp⟩
          obtain rfl := honly p hp
          obtain ⟨g, y, u, hg, -, hy, hu, -, hn⟩ := hp
          obtain rfl := Option.some.inj (hf.symm.trans hg)
          obtain rfl := Option.some.inj (hx.symm.trans hy)
          obtain rfl := Option.some.inj (hv.symm.trans hu)
          exact hne hn.symm
        rcases hmem with ⟨hsame, hdisk, -⟩ | ⟨hgone, hino, -⟩
        · rw [hsame] at hm
          rw [hdisk]
          exact h.clean n hidle0 c hm hctype
        · rw [hgone, upd_ne hne] at hm
          rw [hino, upd_ne hne]
          exact h.clean n hidle0 c hm hctype
    · rw [State.recall_none hm] at hlast
      rcases hmem with ⟨hsame, hdisk, -⟩ | ⟨hgone, hino, -⟩
      · rw [hsame] at hm
        rw [hdisk] at hf' ⊢
        exact h.absent n di hm hf' hlast
      · rw [hino] at hf' ⊢
        rcases eq_or_ne n v.inum with rfl | hne
        · rw [h.known _ _ hmem0] at hlast
          rw [upd_self, ← Option.some.inj hlast]
          exact .refl _
        · rw [hgone, upd_ne hne] at hm
          rw [upd_ne hne] at hf' ⊢
          exact h.absent n di hm hf' hlast
  · intro hdur f' x' v' hf' hx' hv' _ honly
    obtain rfl := Option.some.inj (hf.symm.trans hf')
    obtain rfl := Option.some.inj (hx.symm.trans hx')
    obtain rfl := Option.some.inj (hv.symm.trans hv')
    rcases hmem with ⟨hsame, hdisk, -⟩ | ⟨-, -, hone⟩
    · refine .inr ?_
      have hidle : ¬s'.objs.OpenNum v.inum := by
        rintro ⟨p, hp⟩
        obtain ⟨hne, hp'⟩ := (hgoes p _).mp hp
        exact hne (honly p hp')
      have htype : (diskInode s'.disk v.inum).type = rFile := by
        rw [hdisk, hi.type_eq hv hrfs, hfile]
      have hres := hdur v.inum v.toDinode htype hidle (State.recall_some (by rw [hsame, hmem0]))
      rwa [hdisk] at hres
    · exact .inl hone

end

/-- `vfs_close` leaves the files durable exactly if it closes clean. -/
theorem close {file : Ptr} {r : Int} (h : Settled M s last) (hopen : s.objs.Opened file)
    (hrun : vfsClose host file s = .ok (r, s')) :
    (s.objs.CloseClean s.disk file → Settled M s' (s'.recall M last)) ∧
      (r = 0 → Durable s' (s'.recall M last) → s.objs.CloseClean s.disk file) := by
  obtain ⟨b, hb⟩ := h.sound.holds
  obtain ⟨o', d', hend, hres⟩ := (vfsClose_post hb h.sound.inv).of_ok hrun
  obtain ⟨rfl, rfl, hend'⟩ := hend.here
  rcases hres with ⟨rfl, hobjs, hdisk⟩ | ⟨-, f, x, v, hf, hx, hv, hfile, hc⟩
  · refine ⟨fun _ => ?_, fun h0 => absurd h0 (by decide)⟩
    refine ⟨⟨hend', ?_⟩, ?_, ?_, fun n c hm => State.recall_some hm, fun n di hm hf hlast => ?_⟩
    · rw [hobjs, hdisk]
      exact h.sound.inv
    · rw [hobjs]
      exact h.opens
    · rw [hobjs, hdisk]
      exact h.clean
    · rw [State.recall_none hm] at hlast
      rw [hobjs] at hm
      rw [hdisk] at hf ⊢
      exact h.absent n di hm hf hlast
  · obtain ⟨hto, hfrom⟩ := h.closing hf (hopen f hf) hx hv hfile hend' hc
    exact ⟨hto, fun _ => hfrom⟩

theorem start {b : Boot} (h0 : b.Starts s) : Settled s.mount s (s.recall s.mount fun _ => none) := by
  have hb := h0.booted.2
  -- there are no files yet
  have hnone : ∀ n, (diskInode s.disk n).type ≠ rFile := by
    intro n hn
    have hlive : Live (diskInode s.disk) n := by
      rw [Live, hn]
      decide
    obtain ⟨addrs, hroot, -⟩ := hb.disk.root
    rw [hb.disk.live hlive, hroot] at hn
    exact absurd (show rDir = rFile from hn) (by decide)
  refine ⟨h0.sound, hb.openInv, fun n _ c hm hfile => ?_, fun n c hm => State.recall_some hm,
    fun n di _ hfile _ => absurd hfile (hnone n)⟩
  exact absurd ((h0.sound.inv.vol.type_eq hm).trans hfile) (hnone n)

end Settled

/-- The calls on files and open descriptors, by paths that do not go through
files, that close clean. -/
def DurableCalls (s : State) (op : Op) : Prop :=
  OpenFileCalls s op ∧ ∀ file, op = .close file → s.objs.CloseClean s.disk file

theorem DurableCalls.settled {b : Boot} {host : VinodeOps} {s0 : State} (h0 : b.Starts s0)
    (hrun : Recorded host DurableCalls s0.mount s0 s last) : Settled s0.mount s last := by
  induction hrun with
  | start => exact .start h0
  | call _ hcall ih =>
      obtain ⟨op, r, ⟨⟨⟨hop, hpaths⟩, hfd⟩, hclean⟩, hrun, hcap⟩ := hcall
      by_cases hclose : ∃ file, op = .close file
      · obtain ⟨file, rfl⟩ := hclose
        exact (ih.close hfd hrun).1 (hclean file rfl)
      · exact ih.step (Op.guard_of_files hop hpaths (fun _ => hfd) id
          fun file heq => absurd ⟨file, heq⟩ hclose) hrun hcap

theorem close_durable {b : Boot} {host : VinodeOps} {s0 s : State} {last : Int → Option Dinode}
    (h0 : b.Starts s0) (hrun : Recorded host DurableCalls s0.mount s0 s last) :
    Durable s last ∧ ∀ file s', s.objs.Opened file → vfsClose host file s = .ok (0, s') →
      (Durable s' (s'.recall s0.mount last) ↔ s.objs.CloseClean s.disk file) := by
  have h := DurableCalls.settled h0 hrun
  refine ⟨h.durable, fun file s' hopen hclose => ?_⟩
  obtain ⟨hto, hfrom⟩ := h.close hopen hclose
  exact ⟨hfrom rfl, fun hclean => (hto hclean).durable⟩

/-- Every run has a record. -/
theorem Run.recorded {host : VinodeOps} {ok : State → Op → Prop} (M : Mount) {s0 : State}
    (hrun : Run host ok s0 s) : ∃ last, Recorded host ok M s0 s last ∧
      ∀ n c, s.objs.mem M n = some c → last n = some c := by
  induction hrun with
  | refl => exact ⟨_, .start, fun _ _ hm => State.recall_some hm⟩
  | tail _ hcall ih =>
      obtain ⟨last, hrec, -⟩ := ih
      exact ⟨_, .call hrec hcall, fun _ _ hm => State.recall_some hm⟩

/-- When no dentry is in use, nothing is open. -/
theorem OpenInv.idle_all (h : OpenInv o) (hc : CacheInv o)
    (hidle : ∀ e ∈ o.dentries, ∀ x ∈ o.dentry e.value, x.dRef = 0) (n : Int) : ¬o.OpenNum n := by
  rintro ⟨p, f, x, v, hf, hst, hx, -⟩
  obtain ⟨e, he, hval⟩ := hc.dhashed _ x hx
  refine h.counts.idle hx (le_of_eq (hidle e (findD_mem he).1 x ?_)) p ⟨f, hf, hst, rfl⟩
  rw [hval]
  exact hx

/-- A close finds one name of its vinode in the cache. -/
def Op.ClosesAlone (o : Objs) : Op → Prop
  | .close file => ∀ f ∈ o.file file, ∀ x ∈ o.dentry f.fDentry, ∀ v ∈ o.vinode x.dentryInode,
      v.ref = 1
  | _ => True

instance (o : Objs) : (op : Op) → Decidable (op.ClosesAlone o)
  | .close file => inferInstanceAs (Decidable (∀ f ∈ o.file file, _))
  | .open _ _ | .read _ _ _ | .write _ _ | .lseek _ _ _ | .link _ _ | .unlink _ | .mkdir _
  | .opendir _ | .readdir _ | .closedir _ | .mount _ _ => .isTrue trivial

/-- A file of two blocks is closed by its only name. -/
theorem close_durable_two : ∃ s last, Recorded noHost DurableCalls smallBoot.state.mount
    smallBoot.state s last ∧ (diskInode s.disk 1).blocks = 2 ∧ Durable s last := by
  obtain ⟨s, hrun, htwo⟩ := run_with noHost
    (fun s op => OpenFileCalls s op ∧ op.ClosesAlone s.objs)
    [.open pathA rdwrCreat, .write 81920 (List.replicate 4097 7), .close 81920] smallBoot.state
    (fun s => (diskInode s.disk 1).blocks == 2) (by decide +kernel)
  have hrun' : Run noHost DurableCalls smallBoot.state s := by
    refine hrun.mono fun t _ ⟨op, r, ⟨hop, halone⟩, hcall⟩ => ⟨op, r, ⟨hop, ?_⟩, hcall⟩
    rintro file rfl f x v hf hx hv - -
    exact .inl (halone f hf x hx v hv)
  obtain ⟨last, hrec, -⟩ := hrun'.recorded smallBoot.state.mount
  exact ⟨s, last, hrec, beq_iff_eq.mp htwo, (close_durable (Boot.starts smallBoot_boots) hrec).1⟩

/-- The name `b` was looked up by nobody but `vfs_link`, and still keeps `a` from
being written back. -/
theorem close_loses : ∃ s last, Recorded noHost OpenFileCalls smallBoot.state.mount
    smallBoot.state s last ∧ ¬Durable s last := by
  obtain ⟨s, hrun, hpass⟩ := run_with noHost OpenFileCalls
    [.open pathA rdwrCreat, .link pathA pathB, .write 81920 (List.replicate 4097 7), .close 81920]
    smallBoot.state (fun s => decide (∀ e ∈ s.objs.dentries, ∀ x ∈ s.objs.dentry e.value,
      x.dRef = 0) && (diskInode s.disk 1).type == rFile && (diskInode s.disk 1).blocks == 1 &&
      (s.objs.mem smallBoot.state.mount 1).any fun c => c.blocks == 2) (by decide +kernel)
  obtain ⟨hpass, hmem⟩ := (Bool.and_eq_true _ _).mp hpass
  obtain ⟨hpass, hone⟩ := (Bool.and_eq_true _ _).mp hpass
  obtain ⟨hidle, hfile⟩ := (Bool.and_eq_true _ _).mp hpass
  obtain ⟨c, hm, htwo⟩ := (Option.any_eq_true _ _).mp hmem
  obtain ⟨last, hrec, hlast⟩ := hrun.recorded smallBoot.state.mount
  obtain ⟨hs, hopen⟩ := OpenFileCalls.openInv (Boot.starts smallBoot_boots) hrun
  refine ⟨s, last, hrec, fun hdur => ?_⟩
  have hsame := hdur 1 c (beq_iff_eq.mp hfile)
    (hopen.idle_all hs.inv.cache (of_decide_eq_true hidle) 1) (hlast 1 c hm)
  have hblocks := hsame.blocks
  rw [beq_iff_eq.mp htwo, beq_iff_eq.mp hone] at hblocks
  cases hblocks

end Pke
