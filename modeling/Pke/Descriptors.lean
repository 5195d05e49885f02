import Mathlib.Data.Set.Card
import Pke.LinkCounts

/-!
# Open descriptors

`d_ref` of a dentry is the number of descriptors that are open on it, as
long as descriptors are used only until they are closed (`OpenInv`). So a
dentry that is in use is never freed, and neither is its vinode: two
descriptors of one inode always meet in one vinode
(`descriptors_coherent`). Files never shrink while they are open, so the
offset of a descriptor stays inside its file.
-/

namespace Pke

/-! ## The vinodes that have a name stay -/

/-- What no change takes from a vinode with a name: its kind and number, and the
length of a file. When `P` holds, the copy of a directory stays too. -/
structure Vinode.Kept (P : Prop) (v u : Vinode) : Prop where
  iOps : u.iOps = v.iOps
  type : u.type = v.type
  inum : u.inum = v.inum
  size : v.type = fileI → v.size ≤ u.size
  info : P → u.iFsInfo = v.iFsInfo

namespace Vinode.Kept

variable {P : Prop} {v u : Vinode}

theorem refl : v.Kept P v := ⟨rfl, rfl, rfl, fun _ => le_rfl, fun _ => rfl⟩

theorem trans {u' : Vinode} (h1 : v.Kept P u) (h2 : u.Kept P u') : v.Kept P u' where
  iOps := h2.iOps.trans h1.iOps
  type := h2.type.trans h1.type
  inum := h2.inum.trans h1.inum
  size hfile := (h1.size hfile).trans (h2.size (h1.type.trans hfile))
  info hp := (h2.info hp).trans (h1.info hp)

/-- A directory may change its size. -/
theorem dir (hdir : v.type = dirI) (sz : Int) : v.Kept P { v with size := sz } :=
  ⟨rfl, rfl, rfl, fun hfile => absurd (hdir.symm.trans hfile) (by decide), fun _ => rfl⟩

end Vinode.Kept

/-- The vinodes of RFS the dentries `D` point to stay. -/
def KeepsRfs (P : Prop) (D : Ptr → Option Dentry) (f g : Ptr → Option Vinode) : Prop :=
  ∀ t x v, D t = some x → f x.dentryInode = some v → v.iOps = .rfs →
    ∃ u, g x.dentryInode = some u ∧ v.Kept P u

variable {w t file : Ptr} {v : Vinode} {o : Objs} {M : Mount} {d : Nat → Block} {x : Dentry}
  {f : File}

namespace KeepsRfs

variable {P : Prop} {D : Ptr → Option Dentry} {f g k : Ptr → Option Vinode}

theorem refl : KeepsRfs P D f f := fun _ _ v _ hv _ => ⟨v, hv, .refl⟩

theorem trans (h1 : KeepsRfs P D f g) (h2 : KeepsRfs P D g k) : KeepsRfs P D f k := by
  intro t x v ht hv hrfs
  obtain ⟨u, hu, hvu⟩ := h1 t x v ht hv hrfs
  obtain ⟨u', hu', huu⟩ := h2 t x u ht hu (hvu.iOps.trans hrfs)
  exact ⟨u', hu', hvu.trans huu⟩

/-- A vinode is changed. -/
theorem set (h : KeepsRfs P D f g) {v' : Vinode} (hw : g w = some v) (hkept : v.Kept P v') :
    KeepsRfs P D f (upd g w (some v')) := by
  refine h.trans fun t x u _ hu hrfs => ?_
  rcases eq_or_ne x.dentryInode w with heq | hne
  · rw [heq, hw] at hu
    obtain rfl := Option.some.inj hu
    exact ⟨v', by rw [heq, upd_self], hkept⟩
  · exact ⟨u, (upd_ne hne).trans hu, .refl⟩

/-- A vinode is put where none is. -/
theorem add (h : KeepsRfs P D f g) (hw : g w = none) : KeepsRfs P D f (upd g w (some v)) := by
  refine h.trans fun t x u _ hu hrfs => ?_
  have hne : x.dentryInode ≠ w := ne_of_none hw hu
  exact ⟨u, (upd_ne hne).trans hu, .refl⟩

/-- A vinode without names is dropped. -/
theorem erase (h : KeepsRfs P D f g) (hfree : ∀ t x, D t = some x → x.dentryInode ≠ w) :
    KeepsRfs P D f (upd g w none) :=
  h.trans fun t x u ht hu _ => ⟨u, (upd_ne (hfree t x ht)).trans hu, .refl⟩

end KeepsRfs

theorem CacheInv.unused (hc : CacheInv o) (hw : o.vinode w = some v) (href : v.ref = 0) (t : Ptr)
    (x : Dentry) (ht : o.dentry t = some x) : x.dentryInode ≠ w := by
  intro heq
  have hpos := hc.refCount_pos ht
  have := hc.ref w v hw
  rw [heq] at hpos
  omega

theorem Change.keepsRfs {care : Care} {o' : Objs} {d' : Nat → Block} (hc : Change M care o d o' d')
    (hi : Inv M o d) : KeepsRfs (o'.dirCache = o.dirCache) o.dentry o.vinode o'.vinode := by
  cases hc with
  | load n w node hlive hnew hw => exact .add .refl hw
  | bind node t x p v pv ht ht0 hnode hnew href hv =>
      exact .set .refl hv ⟨rfl, rfl, rfl, fun _ => le_rfl, fun _ => rfl⟩
  | create pw w node pv B n k type name hpv _ hdir _ _ _ _ _ _ _ _ _ hw =>
      have hne : w ≠ pw := (ne_of_none hw hpv).symm
      exact .add (.set .refl hpv (.dir hdir _)) ((upd_ne hne).trans hw)
  | link pw lw pv lv name hpv hprfs hdir _ _ _ hlv hlrfs hfile =>
      have hne : pw ≠ lw := (hi.ne_of_type hpv hprfs hdir hlv hlrfs hfile).1
      exact .set (.set .refl hlv (by exact ⟨rfl, rfl, rfl, fun _ => le_rfl, fun _ => rfl⟩))
        ((upd_ne hne).trans hpv) (.dir hdir _)
  | unlink pw lw pv lv k name hpv hprfs hdir hlv hlrfs hfile =>
      have hne : pw ≠ lw := (hi.ne_of_type hpv hprfs hdir hlv hlrfs hfile).1
      exact .set (.set .refl hlv (by exact ⟨rfl, rfl, rfl, fun _ => le_rfl, fun _ => rfl⟩))
        ((upd_ne hne).trans hpv) (.dir hdir _)
  | unlinkLast pw lw pv lv B k name e hpv hprfs hdir hlv hlrfs hfile _ _ _ href =>
      exact .erase (.set .refl hpv (.dir hdir _)) (hi.cache.unused hlv href)
  | drop t x v e ht hidle he hv =>
      exact .set .refl hv ⟨rfl, rfl, rfl, fun _ => le_rfl, fun _ => rfl⟩
  | evict w v e hw hrfs hfile href => exact .erase .refl (hi.cache.unused hw href)
  | grow w v B k hw => exact .set .refl hw ⟨rfl, rfl, rfl, fun _ => le_rfl, fun _ => rfl⟩
  | size w v sz hw _ _ _ h0 => exact .set .refl hw ⟨rfl, rfl, rfl, fun _ => h0, fun _ => rfl⟩
  | dirOpened file t f x v p base hnew ht hf hopen hoff hv hrfs hdir hp =>
      refine .set .refl hv ⟨rfl, rfl, rfl, fun _ => le_rfl, fun hsame => ?_⟩
      have hnew : upd o.dirCache p (some ⟨v.blocks, base⟩) p = o.dirCache p := congrFun hsame p
      rw [upd_self, hp] at hnew
      cases hnew
  | hostMount sb w t node B v x l _ hw =>
      exact .set (.add .refl hw) (upd_self _ _ _) ⟨rfl, rfl, rfl, fun _ => le_rfl, fun _ => rfl⟩
  | orphan | data | opened | moved | copied | closed | dirFreed => exact .refl

/-! ## Counting the descriptors of a dentry -/

/-- `d_ref` of a dentry is the number of its open descriptors. -/
structure Counts (o : Objs) : Prop where
  finite : ∀ t, Set.Finite {p | o.OpenOn t p}
  bound : ∀ t p, o.OpenOn t p → ∃ x, o.dentry t = some x
  count : ∀ t x, o.dentry t = some x → x.dRef = Set.ncard {p | o.OpenOn t p}

namespace Counts

variable {o o' : Objs}

/-- A dentry nobody has is not in use. -/
theorem none_open (h : Counts o) (ht : o.dentry t = none) (p : Ptr) : ¬o.OpenOn t p := by
  intro hp
  obtain ⟨x, hx⟩ := h.bound t p hp
  rw [ht] at hx
  cases hx

theorem ncard_zero (h : ∀ p, ¬o.OpenOn t p) : Set.ncard {p | o.OpenOn t p} = 0 := by
  rw [Set.eq_empty_of_forall_notMem (s := {p | o.OpenOn t p}) h, Set.ncard_empty]

/-- A dentry that is not counted is not in use. -/
theorem idle (h : Counts o) (ht : o.dentry t = some x) (hx : x.dRef ≤ 0) (p : Ptr) :
    ¬o.OpenOn t p := by
  intro hp
  have hpos : 0 < Set.ncard {p | o.OpenOn t p} := (Set.ncard_pos (h.finite t)).mpr ⟨p, hp⟩
  have := h.count t x ht
  omega

/-- A dentry that is counted is in use. -/
theorem busy (h : Counts o) (ht : o.dentry t = some x) (hx : x.dRef ≠ 0) : ∃ p, o.OpenOn t p := by
  by_contra hnone
  have := h.count t x ht
  rw [ncard_zero (not_exists.mp hnone)] at this
  exact hx this

/-- Changes that leave the descriptors and the dentries they use alone. -/
theorem frame (h : Counts o) (hfile : o'.file = o.file)
    (hold : ∀ t x, o'.dentry t = some x → o.dentry t = some x ∨ (o.dentry t = none ∧ x.dRef = 0))
    (hused : ∀ t x, (∃ p, o.OpenOn t p) → o.dentry t = some x → o'.dentry t = some x) :
    Counts o' := by
  have hopen : o'.OpenOn = o.OpenOn := by
    funext t p
    rw [Objs.OpenOn, Objs.OpenOn, hfile]
  refine ⟨fun t => hopen ▸ h.finite t, fun t p hp => ?_, fun t x hx => ?_⟩
  · rw [hopen] at hp
    obtain ⟨x, hx⟩ := h.bound t p hp
    exact ⟨x, hused t x ⟨p, hp⟩ hx⟩
  · rw [hopen]
    rcases hold t x hx with hx' | ⟨hnone, hzero⟩
    · exact h.count t x hx'
    · rw [hzero, ncard_zero (h.none_open hnone)]
      rfl

/-- One descriptor more, or one less. -/
theorem setFile (h : Counts o) {r : Int} (hf : f.fDentry = t) (hold : ∀ q, o.OpenOn q file → q = t)
    (hcount : r = Set.ncard {p | p ≠ file ∧ o.OpenOn t p ∨ p = file ∧ f.status = .opened}) :
    Counts { o.setD t { x with dRef := r } with file := upd o.file file (some f) } := by
  have hopen : ∀ q p, Objs.OpenOn
      { o.setD t { x with dRef := r } with file := upd o.file file (some f) } q p ↔
        (p ≠ file ∧ o.OpenOn q p ∨ p = file ∧ f.status = .opened ∧ q = t) := by
    intro q p
    constructor
    · rintro ⟨g, hg, hst, hd⟩
      rcases upd_some hg with ⟨rfl, rfl⟩ | ⟨hne, hg'⟩
      · exact .inr ⟨rfl, hst, hd.symm.trans hf⟩
      · exact .inl ⟨hne, g, hg', hst, hd⟩
    · rintro (⟨hne, g, hg, hst, hd⟩ | ⟨rfl, hst, rfl⟩)
      · exact ⟨g, (upd_ne hne).trans hg, hst, hd⟩
      · exact ⟨f, upd_self _ _ _, hst, hf⟩
  have hother : ∀ q, q ≠ t → {p | Objs.OpenOn
      { o.setD t { x with dRef := r } with file := upd o.file file (some f) } q p} =
        {p | o.OpenOn q p} := by
    intro q hq
    ext p
    simp only [Set.mem_ofPred_eq, hopen]
    constructor
    · rintro (⟨-, hp⟩ | ⟨-, -, hqt⟩)
      · exact hp
      · exact absurd hqt hq
    · intro hp
      exact .inl ⟨fun heq => hq (hold q (heq ▸ hp)), hp⟩
  have hself : {p | Objs.OpenOn
      { o.setD t { x with dRef := r } with file := upd o.file file (some f) } t p} =
        {p | p ≠ file ∧ o.OpenOn t p ∨ p = file ∧ f.status = .opened} := by
    ext p
    simp only [Set.mem_ofPred_eq, hopen, and_true]
  refine ⟨fun q => ?_, fun q p hp => ?_, fun q y hy => ?_⟩
  · refine ((h.finite q).insert file).subset fun p hp => ?_
    rcases (hopen q p).mp hp with ⟨-, hp⟩ | ⟨rfl, -⟩
    · exact Set.mem_insert_of_mem _ hp
    · exact Set.mem_insert _ _
  · rcases eq_or_ne q t with rfl | hne
    · exact ⟨_, upd_self _ _ _⟩
    · rcases (hopen q p).mp hp with ⟨-, hp⟩ | ⟨-, -, hqt⟩
      · obtain ⟨y, hy⟩ := h.bound q p hp
        exact ⟨y, (upd_ne hne).trans hy⟩
      · exact absurd hqt hne
  · rcases upd_cases hy with ⟨rfl, heq⟩ | ⟨hne, hy'⟩
    · rw [← Option.some.inj heq, hself]
      exact hcount
    · rw [hother q hne]
      exact h.count q y hy'

/-- A descriptor more on the dentry at `t`. -/
theorem opened (h : Counts o) (ht : o.dentry t = some x) (hnew : o.file file = none)
    (hf : f.fDentry = t) (hopen : f.status = .opened) :
    Counts { o.setD t { x with dRef := x.dRef + 1 } with file := upd o.file file (some f) } := by
  have hnot : ∀ q, ¬o.OpenOn q file := by
    rintro q ⟨g, hg, -⟩
    rw [hnew] at hg
    cases hg
  refine h.setFile hf (fun q hq => absurd hq (hnot q)) ?_
  have hset : {p | p ≠ file ∧ o.OpenOn t p ∨ p = file ∧ f.status = .opened} =
      insert file {p | o.OpenOn t p} := by
    ext p
    simp only [Set.mem_ofPred_eq, Set.mem_insert_iff, hopen, and_true]
    constructor
    · rintro (⟨-, hp⟩ | hp)
      · exact .inr hp
      · exact .inl hp
    · rintro (hp | hp)
      · exact .inr hp
      · exact .inl ⟨fun heq => hnot t (heq ▸ hp), hp⟩
  have hcard : Set.ncard (insert file {p | o.OpenOn t p}) = Set.ncard {p | o.OpenOn t p} + 1 :=
    Set.ncard_insert_of_notMem (s := {p | o.OpenOn t p}) (hnot t) (h.finite t)
  rw [hset, hcard, h.count t x ht]
  rfl

/-- A descriptor less on its dentry. -/
theorem closed (h : Counts o) (hf : o.file file = some f) (hopen : f.status = .opened)
    (hx : o.dentry f.fDentry = some x) :
    Counts { o.setD f.fDentry { x with dRef := x.dRef - 1 } with
      file := upd o.file file (some { f with status := .none }) } := by
  have hself : o.OpenOn f.fDentry file := ⟨f, hf, hopen, rfl⟩
  refine h.setFile rfl (fun q hq => ?_) ?_
  · obtain ⟨g, hg, -, rfl⟩ := hq
    rw [hf] at hg
    rw [Option.some.inj hg]
  · have hset : {p | p ≠ file ∧ o.OpenOn f.fDentry p ∨ p = file ∧ FdStatus.none = .opened} =
        {p | o.OpenOn f.fDentry p} \ {file} := by
      ext p
      simp [and_comm]
    have hpos := (Set.ncard_pos (h.finite f.fDentry)).mpr ⟨file, hself⟩
    have hcard := Set.ncard_sdiff_singleton_of_mem (s := {p | o.OpenOn f.fDentry p}) hself
    rw [hset, hcard, h.count _ x hx]
    omega

end Counts

structure OpenInv (o : Objs) : Prop where
  finite : ∀ t, Set.Finite {p | o.OpenOn t p}
  bound : ∀ t p, o.OpenOn t p → ∃ x v, o.dentry t = some x ∧
    o.vinode x.dentryInode = some v ∧ v.iOps = .rfs
  count : ∀ t x, o.dentry t = some x → x.dRef = Set.ncard {p | o.OpenOn t p}
  within : ∀ p f x v, o.file p = some f → f.status = .opened → o.dentry f.fDentry = some x →
    o.vinode x.dentryInode = some v → v.type = fileI → f.offset ≤ v.size

namespace OpenInv

variable {o o' : Objs}

theorem counts (h : OpenInv o) : Counts o where
  finite := h.finite
  count := h.count
  bound t p hp := by
    obtain ⟨x, -, hx, -⟩ := h.bound t p hp
    exact ⟨x, hx⟩

/-- Changes that leave the descriptors and the dentries they use alone. -/
theorem frame {P : Prop} (h : OpenInv o) (hfile : o'.file = o.file)
    (hold : ∀ t x, o'.dentry t = some x → o.dentry t = some x ∨ (o.dentry t = none ∧ x.dRef = 0))
    (hused : ∀ t x, (∃ p, o.OpenOn t p) → o.dentry t = some x → o'.dentry t = some x)
    (hkeep : KeepsRfs P o.dentry o.vinode o'.vinode) : OpenInv o' := by
  have hc := h.counts.frame hfile hold hused
  refine ⟨hc.finite, fun t p hp => ?_, hc.count, ?_⟩
  · rw [Objs.OpenOn, hfile] at hp
    obtain ⟨x, v, hx, hv, hrfs⟩ := h.bound t p hp
    obtain ⟨u, hu, hvu⟩ := hkeep t x v hx hv hrfs
    exact ⟨x, u, hused t x ⟨p, hp⟩ hx, hu, hvu.iOps.trans hrfs⟩
  · intro p f x u hf hst hx hu htype
    rw [hfile] at hf
    have hp : o.OpenOn f.fDentry p := ⟨f, hf, hst, rfl⟩
    obtain ⟨y, v, hy, hv, hrfs⟩ := h.bound _ p hp
    obtain ⟨u', hu', hvu⟩ := hkeep _ y v hy hv hrfs
    rw [hused _ y ⟨p, hp⟩ hy] at hx
    obtain rfl := Option.some.inj hx
    rw [hu] at hu'
    obtain rfl := Option.some.inj hu'
    have htype' : v.type = fileI := hvu.type.symm.trans htype
    have := h.within p f y v hf hst hy hv htype'
    have := hvu.size htype'
    omega

/-- Changes of the vinodes only. -/
theorem vinodes {P : Prop} (h : OpenInv o) (hfile : o'.file = o.file) (hdentry : o'.dentry = o.dentry)
    (hkeep : KeepsRfs P o.dentry o.vinode o'.vinode) : OpenInv o' := by
  refine h.frame hfile (fun t x hx => .inl ?_) (fun t x _ hx => ?_) hkeep
  · rw [← hdentry]
    exact hx
  · rw [hdentry]
    exact hx

/-- One descriptor more, or one less. -/
theorem setFile (h : OpenInv o) {r : Int}
    (hc : Counts { o.setD t { x with dRef := r } with file := upd o.file file (some f) })
    (ht : o.dentry t = some x) (hrfs : ∃ v, o.vinode x.dentryInode = some v ∧ v.iOps = .rfs)
    (hf : f.fDentry = t)
    (hin : ∀ v, o.vinode x.dentryInode = some v → v.type = fileI → f.status = .opened →
      f.offset ≤ v.size) :
    OpenInv { o.setD t { x with dRef := r } with file := upd o.file file (some f) } := by
  refine ⟨hc.finite, fun q p hp => ?_, hc.count, fun p g y v hg hst hy hv htype => ?_⟩
  · rcases eq_or_ne q t with rfl | hne
    · obtain ⟨v, hv, hvrfs⟩ := hrfs
      exact ⟨_, v, upd_self _ _ _, hv, hvrfs⟩
    · obtain ⟨g, hg, hst, hd⟩ := hp
      rcases upd_cases hg with ⟨-, heq⟩ | ⟨-, hg'⟩
      · exact absurd (hd.symm.trans (Option.some.inj heq ▸ hf)) hne
      · obtain ⟨y, v, hy, hv, hvrfs⟩ := h.bound q p ⟨g, hg', hst, hd⟩
        exact ⟨y, v, (upd_ne hne).trans hy, hv, hvrfs⟩
  · obtain ⟨z, hz, hinode⟩ : ∃ z, o.dentry g.fDentry = some z ∧ z.dentryInode = y.dentryInode := by
      rcases upd_cases hy with ⟨heqt, heq⟩ | ⟨-, hy'⟩
      · exact ⟨x, heqt ▸ ht, by rw [← Option.some.inj heq]⟩
      · exact ⟨y, hy', rfl⟩
    rw [← hinode] at hv
    rcases upd_some hg with ⟨-, rfl⟩ | ⟨-, hg'⟩
    · rw [hf, ht] at hz
      obtain rfl := Option.some.inj hz
      exact hin v hv htype hst
    · exact h.within p g z v hg' hst hz hv htype

/-- The entry of a descriptor is copied to another place. -/
theorem copied (h : OpenInv o) {p q : Ptr} (hp : o.file p = some f) (hne : p ≠ q)
    (hq : ∀ g, o.file q = some g → g.status = .none) :
    OpenInv { o with file := upd (upd o.file p none) q (some f) } := by
  -- the permutation of the addresses that exchanges the two carries the sets over
  have hopen : ∀ t r, Objs.OpenOn { o with file := upd (upd o.file p none) q (some f) } t r ↔
      o.OpenOn t (Equiv.swap p q r) := by
    intro t r
    have hqnot : ¬o.OpenOn t q := by
      rintro ⟨g, hg, hst, -⟩
      rw [hq g hg] at hst
      cases hst
    by_cases hrq : r = q
    · rw [hrq, Equiv.swap_apply_right]
      simp [Objs.OpenOn, hp]
    · by_cases hrp : r = p
      · rw [hrp, Equiv.swap_apply_left]
        refine iff_of_false ?_ hqnot
        simp [Objs.OpenOn, upd_ne hne]
      · rw [Equiv.swap_apply_of_ne_of_ne hrp hrq]
        simp [Objs.OpenOn, upd_ne hrq, upd_ne hrp]
  have himage : ∀ t, {r | Objs.OpenOn { o with file := upd (upd o.file p none) q (some f) } t r} =
      Equiv.swap p q '' {r | o.OpenOn t r} := by
    intro t
    ext r
    rw [Set.mem_image_equiv, Equiv.symm_swap]
    exact hopen t r
  refine ⟨fun t => ?_, fun t r hr => h.bound t _ ((hopen t r).mp hr), fun t x hx => ?_, ?_⟩
  · rw [himage]
    exact (h.finite t).image _
  · rw [himage, Set.ncard_image_of_injective _ (Equiv.injective _)]
    exact h.count t x hx
  · intro r g x v hg hst hx hv htype
    rcases upd_some hg with ⟨-, rfl⟩ | ⟨-, hg'⟩
    · exact h.within p f x v hp hst hx hv htype
    · obtain ⟨-, hg'⟩ := upd_none hg'
      exact h.within r g x v hg' hst hx hv htype

end OpenInv

/-! ## Every change keeps the counts -/

theorem Objs.openOn_moved (off : Int) (hf : o.file file = some f) (t p : Ptr) :
    Objs.OpenOn { o with file := upd o.file file (some { f with offset := off }) } t p ↔
      o.OpenOn t p := by
  rcases eq_or_ne p file with rfl | hne
  · simp [Objs.OpenOn, hf]
  · simp [Objs.OpenOn, upd_ne hne]

theorem OpenInv.moved (h : OpenInv o) {off : Int} (hf : o.file file = some f)
    (hin : off = f.offset ∨ ∀ x v, o.dentry f.fDentry = some x →
      o.vinode x.dentryInode = some v → v.type = fileI → off ≤ v.size) :
    OpenInv { o with file := upd o.file file (some { f with offset := off }) } := by
  have hopen := Objs.openOn_moved off hf
  refine ⟨fun t => ?_, fun t p hp => h.bound t p ((hopen t p).mp hp), fun t x hx => ?_, ?_⟩
  · simp only [hopen]
    exact h.finite t
  · simp only [hopen]
    exact h.count t x hx
  · intro p g x v hg hst hx hv htype
    rcases upd_some hg with ⟨-, rfl⟩ | ⟨-, hg'⟩
    · rcases hin with rfl | hin
      · exact h.within file f x v hf hst hx hv htype
      · exact hin x v hx hv htype
    · exact h.within p g x v hg' hst hx hv htype

/-- A descriptor more on the dentry at `t`. -/
theorem OpenInv.opened (h : OpenInv o) (hi : Inv M o d) (ht : o.dentry t = some x)
    (hv : o.vinode x.dentryInode = some v) (hrfs : v.iOps = .rfs) (hnew : o.file file = none)
    (hf : f.fDentry = t) (hopen : f.status = .opened) (hoff : f.offset = 0) :
    OpenInv { o.setD t { x with dRef := x.dRef + 1 } with file := upd o.file file (some f) } := by
  refine h.setFile (h.counts.opened ht hnew hf hopen) ht ⟨v, hv, hrfs⟩ hf fun u hu _ _ => ?_
  obtain rfl := Option.some.inj (hv.symm.trans hu)
  rw [hoff]
  exact (hi.shape hv hrfs).size.1

theorem Change.openInv {care : Care} {o' : Objs} {d' : Nat → Block} (hcare : care.fds)
    (hc : Change M care o d o' d') (hi : Inv M o d) (h : OpenInv o) : OpenInv o' := by
  have hkeep := hc.keepsRfs hi
  cases hc with
  | load | create | orphan | link | unlink | unlinkLast | evict | grow | data | size | dirFreed =>
      exact h.vinodes rfl rfl hkeep
  | bind node t x p v pv ht ht0 hnode hnew href =>
      refine h.frame rfl (fun q y hy => ?_) (fun q y _ hy => ?_) hkeep
      · rcases upd_cases hy with ⟨rfl, heq⟩ | ⟨-, hy'⟩
        · exact .inr ⟨ht, Option.some.inj heq ▸ href⟩
        · exact .inl hy'
      · have hne : q ≠ t := ne_of_none ht hy
        exact (upd_ne hne).trans hy
  | drop t x v e ht hidle =>
      refine h.frame rfl (fun q y hy => ?_) (fun q y hq hy => ?_) hkeep
      · obtain ⟨-, hy'⟩ := upd_none hy
        exact .inl hy'
      · obtain ⟨p, hp⟩ := hq
        have hne : q ≠ t := fun heq => h.counts.idle ht hidle p (heq ▸ hp)
        exact (upd_ne hne).trans hy
  | opened file t f x hnew ht hf hopen hoff hfile =>
      obtain ⟨v, hv, hrfs, -⟩ := hfile
      exact h.opened hi ht hv hrfs hnew hf hopen hoff
  | dirOpened file t f x v p base hnew ht hf hopen hoff hv hrfs =>
      have h1 := h.opened hi ht hv hrfs hnew hf hopen hoff
      exact h1.vinodes (P := False) rfl rfl
        (.set .refl hv ⟨rfl, rfl, rfl, fun _ => le_rfl, False.elim⟩)
  | moved file f off hf _ hin => exact h.moved hf hin
  | copied p q f hp hne hq => exact h.copied hp hne hq
  | closed file f x hf hopen hx =>
      obtain ⟨y, v, hy, hv, hrfs⟩ := h.bound _ file ⟨f, hf, hopen hcare, rfl⟩
      rw [hx] at hy
      obtain rfl := Option.some.inj hy
      exact h.setFile (h.counts.closed hf (hopen hcare) hx) hx ⟨v, hv, hrfs⟩ rfl (fun _ _ _ => nofun)
  | hostMount sb w t node B v x l _ hw _ ht _ _ _ _ _ hidle =>
      refine h.frame rfl (fun q y hy => ?_) (fun q y _ hy => ?_) hkeep
      · rcases upd_cases hy with ⟨rfl, heq⟩ | ⟨-, hy'⟩
        · exact .inr ⟨ht, Option.some.inj heq ▸ hidle⟩
        · exact .inl hy'
      · have hne : q ≠ t := ne_of_none ht hy
        exact (upd_ne hne).trans hy

theorem Booted.openInv (hb : Booted M o d) : OpenInv o := by
  have hnone : ∀ t p, ¬o.OpenOn t p := by
    rintro t p ⟨f, hf, -⟩
    rw [hb.files p] at hf
    cases hf
  have hempty : ∀ t, {p | o.OpenOn t p} = ∅ := fun t => Set.eq_empty_of_forall_notMem (hnone t)
  refine ⟨fun t => ?_, fun t p hp => absurd hp (hnone t p), fun t x hx => ?_, ?_⟩
  · rw [hempty]
    exact Set.finite_empty
  · rw [hempty, Set.ncard_empty, hb.idle t x hx]
    rfl
  · intro p f x v hf
    rw [hb.files p] at hf
    cases hf

/-! ## In every state -/

/-- The calls on files, on descriptors that are open and by paths that do not
go through files. -/
def OpenFileCalls (s : State) (op : Op) : Prop := FileCalls s op ∧ op.FdOpen s.objs

theorem OpenFileCalls.guard (M : Mount) (s : State) (op : Op) (h : OpenFileCalls s op) :
    op.Guard M ⟨True, True, False, False, False⟩ s.objs s.disk :=
  Op.guard_of_files h.1.1 h.1.2 (fun _ => h.2) id fun _ _ => id

theorem OpenFileCalls.openInv {b : Boot} {host : VinodeOps} {s0 s : State} (h0 : b.Starts s0)
    (hrun : Run host OpenFileCalls s0 s) : Sound s0.mount s ∧ OpenInv s.objs := by
  obtain ⟨hs, hsteps⟩ := hrun.steps (OpenFileCalls.guard s0.mount) h0.sound
  exact ⟨hs, hsteps.keeps (P := fun a => OpenInv a.1) h0.sound.inv h0.booted.2.openInv
    fun hi h hc => hc.openInv trivial hi h⟩

/-- The dentry of an open descriptor and its vinode are in the tables, and
there is one vinode for an inode. -/
structure DescriptorsCoherent (s : State) : Prop where
  present : ∀ p f, s.file p = some f → f.status = .opened →
    ∃ x v e e', s.dentry f.fDentry = some x ∧ s.objs.findD x.key = some e ∧
      e.value = f.fDentry ∧ s.vinode x.dentryInode = some v ∧ s.objs.findV v.key = some e' ∧
      e'.value = x.dentryInode
  shared : ∀ p q f g x y v u, s.file p = some f → f.status = .opened → s.file q = some g →
    g.status = .opened → s.dentry f.fDentry = some x → s.dentry g.fDentry = some y →
    s.vinode x.dentryInode = some v → s.vinode y.dentryInode = some u → v.inum = u.inum →
    x.dentryInode = y.dentryInode

theorem OpenInv.coherent {s : State} (hi : Inv M s.objs s.disk) (h : OpenInv s.objs) :
    DescriptorsCoherent s where
  present p f hf hst := by
    obtain ⟨x, v, hx, hv, hrfs⟩ := h.bound f.fDentry p ⟨f, hf, hst, rfl⟩
    obtain ⟨e, he, hval⟩ := hi.cache.dhashed _ x hx
    obtain ⟨e', he', hval'⟩ := hi.cache.vhashed _ v hv (hi.inum_nonneg hv hrfs)
    exact ⟨x, v, e, e', hx, he, hval, hv, he', hval'⟩
  shared p q f g x y v u hf hfst hg hgst hx hy hv hu hnum := by
    obtain ⟨x', v', hx', hv', hrfs⟩ := h.bound f.fDentry p ⟨f, hf, hfst, rfl⟩
    obtain ⟨y', u', hy', hu', hrfs'⟩ := h.bound g.fDentry q ⟨g, hg, hgst, rfl⟩
    obtain rfl := Option.some.inj (hx.symm.trans hx')
    obtain rfl := Option.some.inj (hy.symm.trans hy')
    obtain rfl := Option.some.inj (hv.symm.trans hv')
    obtain rfl := Option.some.inj (hu.symm.trans hu')
    exact hi.same_ptr hv hrfs hu hrfs' hnum

theorem descriptors_coherent {b : Boot} {host : VinodeOps} {s0 s : State} (h0 : b.Starts s0)
    (hrun : Run host OpenFileCalls s0 s) : DescriptorsCoherent s := by
  obtain ⟨hs, hopen⟩ := OpenFileCalls.openInv h0 hrun
  exact hopen.coherent hs.inv

instance (o : Objs) (file : Ptr) : Decidable (o.Opened file) :=
  match h : o.file file with
  | none => .isTrue fun f hf => by rw [h] at hf; cases hf
  | some f =>
      if hst : f.status = .opened then .isTrue fun g hg => by
        rw [h] at hg
        exact Option.some.inj hg ▸ hst
      else .isFalse fun hall => hst (hall f h)

instance (o : Objs) : (op : Op) → Decidable (op.FdOpen o)
  | .read file _ _ | .write file _ | .lseek file _ _ | .close file | .readdir file
  | .closedir file => inferInstanceAs (Decidable (o.Opened file))
  | .open _ _ | .link _ _ | .unlink _ | .mkdir _ | .opendir _ | .mount _ _ => .isTrue trivial

instance (s : State) (op : Op) : Decidable (OpenFileCalls s op) :=
  inferInstanceAs (Decidable (_ ∧ _))

/-- Two descriptors of one file, opened by two names. -/
theorem descriptors_coherent_two : ∃ s, Run noHost OpenFileCalls smallBoot.state s ∧
    (s.file 81920).any (fun f => f.fDentry == 57344 && f.status == .opened) = true ∧
    (s.file 98304).any (fun f => f.fDentry == 86016 && f.status == .opened) = true ∧
    DescriptorsCoherent s := by
  obtain ⟨s, hrun, htwo⟩ := run_with noHost OpenFileCalls
    [.open pathA rdwrCreat, .link pathA pathB, .open pathB 2, .write 81920 (List.replicate 5000 7)]
    smallBoot.state (fun s => (s.file 81920).any (fun f => f.fDentry == 57344 &&
      f.status == .opened) && (s.file 98304).any fun f => f.fDentry == 86016 &&
      f.status == .opened) (by decide +kernel)
  obtain ⟨h1, h2⟩ := (Bool.and_eq_true _ _).mp htwo
  exact ⟨s, hrun, h1, h2, descriptors_coherent (Boot.starts smallBoot_boots) hrun⟩

end Pke
