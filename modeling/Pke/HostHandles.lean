import Pke.Descriptors
import Pke.HostNames

/-!
# How long a handle of the host lives

The handle of a host file is taken by the lookup of its name and shared by
the descriptors of its dentry. `spike_file_get_free` starts its count at
three, every `vfs_close` takes one off, and the close that finds two gives
the handle back. So the handle goes with the last descriptor when there
were two of them, and neither when there was one nor when there were
three: `handles_live` is about the runs in which each close finds one
reference more than there are descriptors.

`Handles` says which handles are taken: those of the three streams, and one
for each dentry of a file. A directory that is looked up takes one too, which
`spike_file_open` never gives back; the runs of `handles_live` look up none.
-/

namespace Pke

open Exec (Post)

/-! ## The table of handles -/

/-- The handles that are taken when the files have the handles `H`. -/
structure Handles (sp : Spike) (H : Ptr → Fin maxFiles → Prop) : Prop where
  streams : ∀ g : Fin maxFiles, g.val < 3 → (sp.files g).refcnt ≠ 0
  stdFds : ∀ i g, sp.fds i = some g → g.val < 3
  live : ∀ t g, H t g → 3 ≤ g.val ∧ sp.host.fdAt (sp.files g).kfd ≠ none ∧
    ((sp.files g).refcnt = 2 ∨ (sp.files g).refcnt = 3)
  apart : ∀ t t' g g', H t g → H t' g' → (sp.files g).kfd = (sp.files g').kfd → t = t'
  fds : ∀ k, sp.host.fdAt k ≠ none → k < 3 ∨ ∃ t g, H t g ∧ (sp.files g).kfd = k
  taken : ∀ g : Fin maxFiles, 3 ≤ g.val → (sp.files g).refcnt ≠ 0 → ∃ t, H t g

variable {sp : Spike} {o : Objs} {r file : Ptr} {x : Dentry} {s : State} {M : Mount}

/-- What is found free is free. -/
theorem Spike.freeFile_refcnt {g : Fin maxFiles} (h : sp.freeFile = some g) :
    (sp.files g).refcnt = 0 := by
  have := List.find?_some h
  simpa using this

@[simp] theorem Spike.files_setFile_self (sp : Spike) (f : Fin maxFiles) (x : SpikeFile) :
    (sp.setFile f x).files f = x := upd_self _ _ _

theorem Spike.files_setFile_ne (sp : Spike) {f g : Fin maxFiles} (x : SpikeFile) (h : g ≠ f) :
    (sp.setFile f x).files g = sp.files g := upd_ne h

namespace Handles

variable {sp : Spike} {H H' : Ptr → Fin maxFiles → Prop} {f g : Fin maxFiles} {t : Ptr}

section

variable (h : Handles sp H)

include h

theorem free_ge (hf : sp.freeFile = some f) : 3 ≤ f.val := by
  by_contra hlt
  exact h.streams f (by omega) (Spike.freeFile_refcnt hf)

/-- A free handle is nobody's. -/
theorem free_none (hf : (sp.files f).refcnt = 0) (t : Ptr) : ¬H t f := by
  intro ht
  have := (h.live t f ht).2.2
  omega

theorem ne_free (hf : sp.freeFile = some f) (hg : H t g) : g ≠ f := by
  rintro rfl
  exact h.free_none (Spike.freeFile_refcnt hf) t hg

/-- A handle is taken for a file that is opened. -/
theorem takeFile (hf : sp.freeFile = some f) {id : Nat} {fd : Int} {host : Host}
    (hopen : sp.host.Opens id fd host.toHostState) (hH : ∀ r g, H' r g ↔ H r g ∨ r = t ∧ g = f) :
    Handles { sp.setFile f ⟨fd, 3⟩ with host := host } H' := by
  have hkeep : ∀ {r g}, H r g → (sp.setFile f ⟨fd, 3⟩).files g = sp.files g :=
    fun hr => Spike.files_setFile_ne sp _ (h.ne_free hf hr)
  -- the host gives a number that is not in use
  have hnew : ∀ {r g}, H r g → (sp.files g).kfd ≠ fd := by
    intro r g hr heq
    apply (h.live r g hr).2.1
    rw [heq, hopen.unused]
  refine ⟨fun g hg => ?_, h.stdFds, fun r g hr => ?_, fun r r' g g' hr hr' hk => ?_,
    fun i hi => ?_, fun g hge hbusy => ?_⟩
  · have hne : g ≠ f := by
      rintro rfl
      have := h.free_ge hf
      omega
    dsimp only
    rw [Spike.files_setFile_ne sp _ hne]
    exact h.streams g hg
  · dsimp only
    rcases (hH r g).mp hr with hr | ⟨-, rfl⟩
    · rw [hkeep hr, hopen.fdAt, if_neg (hnew hr)]
      exact h.live r g hr
    · simp [hopen.fdAt, h.free_ge hf]
  · dsimp only at hk
    rcases (hH r g).mp hr with hr | ⟨rfl, rfl⟩ <;> rcases (hH r' g').mp hr' with hr' | ⟨rfl, rfl⟩
    · rw [hkeep hr, hkeep hr'] at hk
      exact h.apart r r' g g' hr hr' hk
    · rw [hkeep hr, Spike.files_setFile_self] at hk
      exact absurd hk (hnew hr)
    · rw [hkeep hr', Spike.files_setFile_self] at hk
      exact absurd hk.symm (hnew hr')
    · rfl
  · dsimp only at hi ⊢
    rw [hopen.fdAt] at hi
    by_cases hnewfd : i = fd
    · exact .inr ⟨t, f, (hH t f).mpr (.inr ⟨rfl, rfl⟩), by rw [Spike.files_setFile_self, hnewfd]⟩
    · rw [if_neg hnewfd] at hi
      rcases h.fds i hi with hlt | ⟨r, g, hr, hk⟩
      · exact .inl hlt
      · exact .inr ⟨r, g, (hH r g).mpr (.inl hr), by rw [hkeep hr]; exact hk⟩
  · by_cases hne : g = f
    · exact ⟨t, (hH t g).mpr (.inr ⟨rfl, hne⟩)⟩
    · dsimp only at hbusy
      rw [Spike.files_setFile_ne sp _ hne] at hbusy
      obtain ⟨r, hr⟩ := h.taken g hge hbusy
      exact ⟨r, (hH r g).mpr (.inl hr)⟩

/-- The last reference but one. -/
theorem decref (hg : H t g) : Handles (sp.setFile g ⟨(sp.files g).kfd, 2⟩) H := by
  have hkfd : ∀ i, ((sp.setFile g ⟨(sp.files g).kfd, 2⟩).files i).kfd = (sp.files i).kfd := by
    intro i
    by_cases hne : i = g
    · rw [hne, Spike.files_setFile_self]
    · rw [Spike.files_setFile_ne sp _ hne]
  have hge := (h.live t g hg).1
  refine ⟨fun i hi => ?_, h.stdFds, fun r i hr => ?_, fun r r' i i' hr hr' => ?_, fun k hk => ?_,
    fun i hi hbusy => ?_⟩
  · rw [Spike.files_setFile_ne sp _ (fun heq => by subst heq; omega)]
    exact h.streams i hi
  · rw [hkfd]
    refine ⟨(h.live r i hr).1, (h.live r i hr).2.1, ?_⟩
    by_cases hne : i = g
    · rw [hne, Spike.files_setFile_self]
      exact .inl rfl
    · rw [Spike.files_setFile_ne sp _ hne]
      exact (h.live r i hr).2.2
  · rw [hkfd, hkfd]
    exact h.apart r r' i i' hr hr'
  · simp only [hkfd]
    exact h.fds k hk
  · by_cases hne : i = g
    · exact ⟨t, hne ▸ hg⟩
    · rw [Spike.files_setFile_ne sp _ hne] at hbusy
      exact h.taken i hi hbusy

/-- The last reference: the handle is free, and the host has closed its descriptor. -/
theorem drop (hg : H t g) (hone : ∀ i, H t i → i = g) (hH : ∀ r i, H' r i ↔ H r i ∧ r ≠ t) :
    Handles { sp.setFile g ⟨(sp.files g).kfd, 0⟩ with host := sp.host.close (sp.files g).kfd }
      H' := by
  have hge := (h.live t g hg).1
  have hkeep : ∀ {r i}, H' r i → (sp.setFile g ⟨(sp.files g).kfd, 0⟩).files i = sp.files i := by
    intro r i hr
    obtain ⟨hr, hne⟩ := (hH r i).mp hr
    refine Spike.files_setFile_ne sp _ ?_
    rintro rfl
    exact hne (h.apart r t i i hr hg rfl)
  have hother : ∀ {r i}, H' r i → (sp.files i).kfd ≠ (sp.files g).kfd := by
    intro r i hr heq
    obtain ⟨hr, hne⟩ := (hH r i).mp hr
    exact hne (h.apart r t i g hr hg heq)
  refine ⟨fun i hi => ?_, h.stdFds, fun r i hr => ?_, fun r r' i i' hr hr' => ?_, fun k hk => ?_,
    fun i hi hbusy => ?_⟩
  · dsimp only
    rw [Spike.files_setFile_ne sp _ (fun heq => by subst heq; omega)]
    exact h.streams i hi
  · dsimp only
    rw [hkeep hr, Host.fdAt_close, if_neg (hother hr)]
    exact h.live r i ((hH r i).mp hr).1
  · dsimp only
    rw [hkeep hr, hkeep hr']
    exact h.apart r r' i i' ((hH r i).mp hr).1 ((hH r' i').mp hr').1
  · dsimp only at hk ⊢
    rw [Host.fdAt_close] at hk
    by_cases hsame : k = (sp.files g).kfd
    · rw [if_pos hsame] at hk
      exact absurd rfl hk
    · rw [if_neg hsame] at hk
      rcases h.fds k hk with hlt | ⟨r, i, hr, hki⟩
      · exact .inl hlt
      · have hr' : H' r i := by
          refine (hH r i).mpr ⟨hr, ?_⟩
          rintro rfl
          rw [hone i hr] at hki
          exact hsame hki.symm
        exact .inr ⟨r, i, hr', by rw [hkeep hr']; exact hki⟩
  · dsimp only at hbusy
    have hne : i ≠ g := by
      rintro rfl
      rw [Spike.files_setFile_self] at hbusy
      exact hbusy rfl
    rw [Spike.files_setFile_ne sp _ hne] at hbusy
    obtain ⟨r, hr⟩ := h.taken i hi hbusy
    refine ⟨r, (hH r i).mpr ⟨hr, ?_⟩⟩
    rintro rfl
    exact hne (hone i hr)

end

end Handles

/-! ## Handles and dentries -/

/-- The dentry at `t` is that of a file with handle `g`. -/
def Objs.HandleOf (o : Objs) (t : Ptr) (g : Fin maxFiles) : Prop :=
  ∃ x v, o.dentry t = some x ∧ o.vinode x.dentryInode = some v ∧ v.type = fileI ∧
    v.iFsInfo = handlePtr g

theorem Objs.HandleOf.unique {t : Ptr} {g g' : Fin maxFiles} (h : o.HandleOf t g)
    (h' : o.HandleOf t g') : g' = g := by
  obtain ⟨x, v, hx, hv, -, hg⟩ := h
  obtain ⟨x', v', hx', hv', -, hg'⟩ := h'
  rw [hx] at hx'
  cases hx'
  rw [hv] at hv'
  cases hv'
  exact handlePtr_inj (hg'.symm.trans hg)

/-- The handles, and the descriptors that have them: the dentries of files are open,
all but the one at `t` if there is an exception. -/
structure HandleInv (o : Objs) (except : Option Ptr) : Prop where
  handles : Handles o.spike o.HandleOf
  counts : Counts o
  used : ∀ t g, some t ≠ except → o.HandleOf t g → ∃ p, o.OpenOn t p
  bound : ∀ t p, o.OpenOn t p → ∃ g, o.HandleOf t g

section

variable {o o' : Objs} {this sb t q : Ptr} {token : Name} {path : List UInt8} {v u : Vinode}
  {sp : Spike}

section

variable (hn : NewName o this token sb path t q v u sp o')

include hn

theorem NewName.self :
    o'.dentry t = some ⟨token, 0, q, this⟩ ∧ o'.vinode q = some { u with ref := u.ref + 1 } := by
  rw [hn.dentry, hn.vinode]
  exact ⟨upd_self _ _ _, upd_self _ _ _⟩

theorem NewName.keep (hq : o.vinode q = none) {w : Vinode} (hr : o.dentry r = some x)
    (hw : o.vinode x.dentryInode = some w) :
    r ≠ t ∧ o'.dentry r = some x ∧ o'.vinode x.dentryInode = some w := by
  have hne : r ≠ t := ne_of_none hn.fresh.1 hr
  have hneq : x.dentryInode ≠ q := ne_of_none hq hw
  rw [hn.dentry, hn.vinode, upd_ne hne, upd_ne hneq]
  exact ⟨hne, hr, hw⟩

/-- The handles of the dentries after a new name with a vinode of its own. -/
theorem NewName.handleOf (hc : CacheInv o) (hq : o.vinode q = none) (huv : u = v) (r : Ptr)
    (g : Fin maxFiles) :
    o'.HandleOf r g ↔ o.HandleOf r g ∨ r = t ∧ v.type = fileI ∧ v.iFsInfo = handlePtr g := by
  subst huv
  constructor
  · rintro ⟨x, w, hx, hw, htype, hg⟩
    rw [hn.dentry] at hx
    rcases upd_cases hx with ⟨rfl, heq⟩ | ⟨hne, hold⟩
    · cases heq
      rw [hn.self.2] at hw
      cases hw
      exact .inr ⟨rfl, htype, hg⟩
    · obtain ⟨w', hw'⟩ := hc.inode r x hold
      rw [(hn.keep hq hold hw').2.2] at hw
      cases hw
      exact .inl ⟨x, w, hold, hw', htype, hg⟩
  · rintro (⟨x, w, hx, hw, htype, hg⟩ | ⟨rfl, htype, hg⟩)
    · obtain ⟨-, hx', hw'⟩ := hn.keep hq hx hw
      exact ⟨x, w, hx', hw', htype, hg⟩
    · exact ⟨_, _, hn.self.1, hn.self.2, htype, hg⟩

theorem NewName.counts (h : Counts o) : Counts o' := by
  refine h.frame hn.rest.1 (fun r x hr => ?_) fun r x _ hr => ?_
  · rw [hn.dentry] at hr
    rcases upd_cases hr with ⟨rfl, heq⟩ | ⟨-, hold⟩
    · cases heq
      exact .inr ⟨hn.fresh.1, rfl⟩
    · exact .inl hold
  · rw [hn.dentry, upd_ne (ne_of_none hn.fresh.1 hr)]
    exact hr

theorem NewName.openOn : o'.OpenOn = o.OpenOn := by
  funext r p
  simp only [Objs.OpenOn, hn.rest.1]

end

/-- What the name of a file does to the handles, when its vinode is new. -/
theorem Handles.newName {id : Nat} (h : Handles o.spike o.HandleOf) (hc : CacheInv o)
    (hn : NewName o this token sb path t q v u sp o') (hq : o.vinode q = none) (huv : u = v)
    (hfile : o.spike.host.tree.node path = some (.file id)) : Handles o'.spike o'.HandleOf := by
  have hof := hn.handleOf hc hq huv
  subst huv
  rw [hn.rest.2.2]
  cases hn.found with
  | full hfull =>
      -- no handle is left, and the name passes for a directory
      have hsame : o'.HandleOf = o.HandleOf := by
        funext r g
        have hno : dirI ≠ fileI := by decide
        simp [hof, dirVinode, hno]
      rw [hsame]
      exact h
  | refused f e hf hnode => exact absurd hfile (hnode _)
  | opened f id fd host hf hnode hopen =>
      refine h.takeFile (t := t) hf hopen fun r g => ?_
      rw [hof]
      have hptr : handlePtr f = handlePtr g ↔ g = f :=
        ⟨fun heq => (handlePtr_inj heq).symm, fun heq => heq ▸ rfl⟩
      simp [fileVinode, hptr]

/-- A new name is the exception until it is opened. -/
theorem HandleInv.newName {id : Nat} (h : HandleInv o none) (hc : CacheInv o)
    (hn : NewName o this token sb path t q v u sp o') (hq : o.vinode q = none) (huv : u = v)
    (hfile : o.spike.host.tree.node path = some (.file id)) : HandleInv o' (some t) := by
  have hof := hn.handleOf hc hq huv
  refine ⟨h.handles.newName hc hn hq huv hfile, hn.counts h.counts, fun r g hne hr => ?_,
    fun r p hp => ?_⟩
  · rw [hn.openOn]
    rcases (hof r g).mp hr with hold | ⟨rfl, -⟩
    · exact h.used r g nofun hold
    · exact absurd rfl hne
  · rw [hn.openOn] at hp
    obtain ⟨g, hg⟩ := h.bound r p hp
    exact ⟨g, (hof r g).mpr (.inl hg)⟩

theorem HandleInv.except (h : HandleInv o none) (t : Ptr) : HandleInv o (some t) :=
  ⟨h.handles, h.counts, fun r g _ hr => h.used r g nofun hr, h.bound⟩

end

/-! ## Looking up a file -/

/-- The table has a dentry for each of the names below `this`. -/
def Objs.hasNames (o : Objs) : Ptr → List Name → Bool
  | _, [] => true
  | this, token :: rest =>
      match o.findD ⟨this, token⟩ with
      | none => false
      | some e => o.hasNames e.value rest

/-- The table has a vinode of the host with the inode number `n`. -/
def Objs.Numbered (o : Objs) (n : Int) : Prop :=
  ∃ e ∈ o.vinodes, e.key.inum = n ∧ (o.vinode e.value).any (·.iOps == .hostfs) = true

instance (o : Objs) (n : Int) : Decidable (o.Numbered n) :=
  inferInstanceAs (Decidable (∃ e ∈ o.vinodes, _))

section

variable {M : Mount} {o o' : Objs} {this sb t q : Ptr} {token : Name} {path : List UInt8}
  {v u : Vinode} {sp : Spike}

theorem CacheInv.numbered (hc : CacheInv o) {w : Ptr} (hw : o.vinode w = some u)
    (hhost : u.iOps = .hostfs) (hnum : 0 ≤ u.inum) : o.Numbered u.inum := by
  obtain ⟨e, he, rfl⟩ := hc.vhashed w u hw hnum
  obtain ⟨hmem, hkey⟩ := findV_mem he
  refine ⟨e, hmem, congrArg VinodeKey.inum hkey, ?_⟩
  simp [hw, hhost]

/-- A name is new only if the table does not have it. -/
theorem NewName.not_cached (hn : NewName o this token sb path t q v u sp o') (hc : CacheInv o) :
    o.findD ⟨this, token⟩ = none := by
  cases he : o.findD ⟨this, token⟩ with
  | none => rfl
  | some e =>
      obtain ⟨y, hy, hkey⟩ := hc.findD_some he
      have hne : e.value ≠ t := ne_of_none hn.fresh.1 hy
      have hy' : o'.dentry e.value = some y := by
        rw [hn.dentry, upd_ne hne]
        exact hy
      -- both dentries would be the one the new table finds under the key
      obtain ⟨e1, he1, hv1⟩ := hn.cache.dhashed _ _ hy'
      obtain ⟨e2, he2, hv2⟩ := hn.cache.dhashed _ _ hn.self.1
      rw [hkey] at he1
      cases he1.symm.trans he2
      exact absurd (hv1.symm.trans hv2) hne

/-- Names that are all there are found, and nothing changes. -/
theorem NamesFound.cached_all {tokens : List Name} (hf : NamesFound M o this path tokens t o')
    (hall : o.hasNames this tokens = true) (hc : CacheInv o) : o' = o := by
  induction hf with
  | nil => rfl
  | cached e he hrest ih =>
      rw [Objs.hasNames, he] at hall
      exact ih hall hc
  | new sb t1 q v u sp hsb hn hrest ih =>
      rw [Objs.hasNames, hn.not_cached hc] at hall
      cases hall

/-- The vinode of a new name is new, unless it is one of a file the table knows. -/
theorem NewName.new_vinode (hn : NewName o this token sb path t q v u sp o') (hc : HostCache M o)
    (hsb : sb ≠ M.sb) (halone : ∀ id, o.spike.host.tree.node path = some (.file id) →
      ¬o.Numbered (wrap32 (o.spike.host.files id).ino)) : o.vinode q = none ∧ u = v := by
  rcases hn.was with hnew | ⟨hu, hkey, hpos⟩
  · exact hnew
  have hinum : u.inum = v.inum := congrArg VinodeKey.inum hkey
  have husb : u.sb = sb := (congrArg VinodeKey.sb hkey).trans hn.found.host.2.1
  have hhost : u.iOps = .hostfs := (hc.sbs q u hu).mpr (husb ▸ hsb)
  have hnum := hc.cache.numbered hu hhost hpos
  cases hn.found with
  | full | refused =>
      have hneg : u.inum = -1 := hinum
      omega
  | opened f id fd host hf hnode =>
      simp only [fileVinode] at hinum
      rw [hinum] at hnum
      exact absurd hnum (halone id hnode)

/-- The lookup of a file whose directories are cached: only the dentry it ends at may be without
a descriptor. -/
theorem NamesFound.handles {tokens : List Name} {id : Nat}
    (hf : NamesFound M o this path tokens t o') (h : HandleInv o none) (hi : HostNames M o)
    (hnode : o.spike.host.tree.node (hRootDir ++ path ++ pathString tokens) = some (.file id))
    (hdirs : o.hasNames this tokens.dropLast = true)
    (halone : ¬o.Numbered (wrap32 (o.spike.host.files id).ino)) :
    HandleInv o' (some t) ∧ (∀ r g, o.HandleOf r g → o'.HandleOf r g) ∧ o'.file = o.file := by
  induction hf with
  | nil => exact ⟨h.except _, fun _ _ hr => hr, rfl⟩
  | @cached o o' this t path token rest e he hrest ih =>
      have hbelow : o.hasNames e.value rest.dropLast = true := by
        cases rest with
        | nil => rfl
        | cons next rest =>
            rw [List.dropLast_cons_cons, Objs.hasNames, he] at hdirs
            exact hdirs
      exact ih h hi (by simpa [pathString] using hnode) hbelow halone
  | @new o o1 o' this t path token rest sb t1 q v u sp hsb hn hrest ih =>
      cases rest with
      | nil =>
          cases hrest
          have hnode' : o.spike.host.tree.node (hRootDir ++ path ++ slash :: token) =
              some (.file id) := by
            simpa [pathString] using hnode
          obtain ⟨hq, huv⟩ := hn.new_vinode hi.toHostCache hsb fun id' hid' => by
            rw [hnode'] at hid'
            cases hid'
            exact halone
          exact ⟨h.newName hi.cache hn hq huv hnode',
            fun r g hr => (hn.handleOf hi.cache hq huv r g).mpr (.inl hr), hn.rest.1⟩
      | cons next rest =>
          rw [List.dropLast_cons_cons, Objs.hasNames, hn.not_cached hi.cache] at hdirs
          cases hdirs

end

/-! ## Opening -/

section

variable {o o' : Objs} {file t : Ptr} {f : File} {x : Dentry} {v : Vinode} {g : Fin maxFiles}

/-- Only counts of dentries, descriptors and handles have changed. -/
theorem Objs.handleOf_congr (o o' : Objs) (hv : o'.vinode = o.vinode) (hsame : SameNames o o') :
    o'.HandleOf = o.HandleOf := by
  funext r i
  refine propext ⟨?_, ?_⟩
  · rintro ⟨y, w, hy, hw, hfile⟩
    obtain ⟨z, hz, -, hinode⟩ := hsame.old hy
    rw [hv, hinode] at hw
    exact ⟨z, w, hz, hw, hfile⟩
  · rintro ⟨y, w, hy, hw, hfile⟩
    obtain ⟨z, hz, -, hinode⟩ := hsame.keep hy
    rw [← hv, ← hinode] at hw
    exact ⟨z, w, hz, hw, hfile⟩

/-- A dentry keeps its handle when it is counted. -/
theorem Objs.handleOf_setD {F : Ptr → Option File} {k : Int} {i : Fin maxFiles}
    (hx : o.dentry t = some x) (h : o.HandleOf r i) :
    Objs.HandleOf { o.setD t { x with dRef := k } with file := F, spike := sp } r i := by
  have hsame := (Objs.handleOf_congr o
    { o.setD t { x with dRef := k } with file := F, spike := sp } rfl (.setD hx k rfl))
  rw [hsame]
  exact h

/-- The dentry that had no descriptor gets one. -/
theorem HandleInv.openOn (h : HandleInv o (some t)) (ht : o.dentry t = some x)
    (hg : o.HandleOf t g) (hnew : o.file file = none) (hf : f.fDentry = t)
    (hopen : f.status = .opened) :
    HandleInv { o.setD t { x with dRef := x.dRef + 1 } with
      file := upd o.file file (some f) } none := by
  have hof := Objs.handleOf_congr o { o.setD t { x with
    dRef := x.dRef + 1 } with file := upd o.file file (some f) } rfl (.setD ht _ rfl)
  refine ⟨?_, h.counts.opened ht hnew hf hopen, fun r i _ hr => ?_, fun r p hp => ?_⟩
  · rw [hof]
    exact h.handles
  · rw [hof] at hr
    by_cases hrt : r = t
    · exact ⟨file, f, upd_self _ _ _, hopen, hf.trans hrt.symm⟩
    · obtain ⟨p, k, hk, hst, hd⟩ := h.used r i (by simpa using hrt) hr
      refine ⟨p, k, (upd_ne ?_).trans hk, hst, hd⟩
      rintro rfl
      rw [hnew] at hk
      cases hk
  · rw [hof]
    obtain ⟨k, hk, hst, hd⟩ := hp
    rcases upd_some hk with ⟨-, rfl⟩ | ⟨-, hold⟩
    · exact ⟨g, hd ▸ hf ▸ hg⟩
    · exact h.bound r p ⟨k, hold, hst, hd⟩

/-! ## Closing -/

theorem Spike.decref_three (h : (sp.files g).refcnt = 3) :
    sp.spikeFileDecref g = sp.setFile g ⟨(sp.files g).kfd, 2⟩ := by
  simp [Spike.spikeFileDecref, h]

theorem Spike.decref_two (h : (sp.files g).refcnt = 2) : sp.spikeFileDecref g =
      { sp.setFile g ⟨(sp.files g).kfd, 0⟩ with host := sp.host.close (sp.files g).kfd } := by
  simp [Spike.spikeFileDecref, Spike.setFile, h, upd_upd]

/-- `spike_fds` has the streams only, so a close takes off one reference. -/
theorem Handles.afterClose {H : Ptr → Fin maxFiles → Prop} (h : Handles sp H)
    (hg : H t g) (hsome : (sp.spikeFileClose g).isSome) :
    sp.afterClose g = sp.spikeFileDecref g := by
  have hge := (h.live t g hg).1
  unfold Spike.afterClose
  unfold Spike.spikeFileClose at hsome ⊢
  dsimp only at hsome ⊢
  split at hsome
  · rename_i hrange
    rw [dif_pos hrange, if_neg]
    intro hfd
    have := h.stdFds _ g hfd
    omega
  · cases hsome

/-- The descriptors after one has been closed. -/
theorem Objs.openOn_closed (hfile : o'.file = upd o.file file (some { f with status := .none }))
    (r p : Ptr) : o'.OpenOn r p ↔ p ≠ file ∧ o.OpenOn r p := by
  rw [Objs.OpenOn, hfile]
  by_cases hp : p = file
  · subst hp
    simp
  · simp [upd_ne hp, hp, Objs.OpenOn]

/-- One of two descriptors is closed. -/
theorem HandleInv.closeFirst (h : HandleInv o none) (hf : o.file file = some f)
    (hopen : f.status = .opened) (hx : o.dentry f.fDentry = some x) (hg : o.HandleOf f.fDentry g)
    (hmore : x.dRef - 1 ≠ 0) :
    HandleInv { o.setD f.fDentry { x with dRef := x.dRef - 1 } with
      file := upd o.file file (some { f with status := .none })
      spike := o.spike.setFile g ⟨(o.spike.files g).kfd, 2⟩ } none := by
  set o' : Objs := { o.setD f.fDentry { x with dRef := x.dRef - 1 } with
      file := upd o.file file (some { f with status := .none })
      spike := o.spike.setFile g ⟨(o.spike.files g).kfd, 2⟩ }
  have hof := Objs.handleOf_congr o o' rfl (.setD hx _ rfl)
  have hopenOn : ∀ r p, o'.OpenOn r p ↔ p ≠ file ∧ o.OpenOn r p := Objs.openOn_closed rfl
  have hcounts : Counts o' := (h.counts.closed hf hopen hx).frame rfl (fun _ _ hy => .inl hy)
    fun _ _ _ hy => hy
  refine ⟨?_, hcounts, fun r i _ hr => ?_, fun r p hp => ?_⟩
  · rw [hof]
    exact h.handles.decref hg
  · by_cases hrt : r = f.fDentry
    · rw [hrt]
      exact hcounts.busy (upd_self _ _ _) hmore
    · rw [hof] at hr
      obtain ⟨p, hp⟩ := h.used r i nofun hr
      refine ⟨p, (hopenOn r p).mpr ⟨?_, hp⟩⟩
      rintro rfl
      obtain ⟨k, hk, -, hd⟩ := hp
      rw [hf] at hk
      cases hk
      exact hrt hd.symm
  · rw [hof]
    exact h.bound r p ((hopenOn r p).mp hp).2

/-- What is left of the dentries and vinodes when the last descriptor of a file lets go
of them. -/
theorem LetGo.handleOf {o1 : Objs} (hgo : LetGo o1 t x v o') (hidle : x.dRef = 0)
    (hx : o1.dentry t = some x) (hv : o1.vinode x.dentryInode = some v)
    (hone : ∀ r i, o1.HandleOf r i → o1.HandleOf t i → r = t) (r : Ptr) (i : Fin maxFiles) :
    o'.HandleOf r i ↔ o1.HandleOf r i ∧ r ≠ t := by
  have hd := hgo.dentry hidle
  have hw := hgo.vinode hidle
  constructor
  · rintro ⟨y, w, hy, hyw, htype, hi⟩
    rw [hd] at hy
    obtain ⟨hne, hold⟩ := upd_none hy
    refine ⟨?_, hne⟩
    rw [hw] at hyw
    rcases upd_cases hyw with ⟨heq, hval⟩ | ⟨-, hold'⟩
    · split at hval
      · cases hval
      · cases hval
        exact ⟨y, v, hold, heq ▸ hv, htype, hi⟩
    · exact ⟨y, w, hold, hold', htype, hi⟩
  · rintro ⟨⟨y, w, hy, hyw, htype, hi⟩, hne⟩
    have hneq : y.dentryInode ≠ x.dentryInode := by
      intro heq
      rw [heq] at hyw
      exact hne (hone r i ⟨y, w, hy, heq ▸ hyw, htype, hi⟩ ⟨x, w, hx, hyw, htype, hi⟩)
    refine ⟨y, w, ?_, ?_, htype, hi⟩
    · rw [hd, upd_ne hne]
      exact hy
    · rw [hw, upd_ne hneq]
      exact hyw

/-- The handles of the dentries when the last descriptor of a file is closed. -/
theorem HandleInv.handleOf_last (h : HandleInv o none) (hx : o.dentry t = some x)
    (hv : o.vinode x.dentryInode = some v) (hlast : x.dRef - 1 = 0)
    (hgo : LetGo (Objs.setD { o with spike := sp } t { x with dRef := x.dRef - 1 }) t
      { x with dRef := x.dRef - 1 } v o') (r : Ptr)
    (i : Fin maxFiles) : o'.HandleOf r i ↔ o.HandleOf r i ∧ r ≠ t := by
  have hof := (Objs.handleOf_congr o (Objs.setD { o with spike := sp } t
    { x with dRef := x.dRef - 1 }) rfl (.setD hx _ rfl))
  have hiff := hgo.handleOf hlast (upd_self _ _ _) hv (fun r i hr ht => by
    rw [hof] at hr ht
    exact h.handles.apart _ _ _ _ hr ht rfl) r i
  rw [hof] at hiff
  exact hiff

/-- The last descriptor is closed. -/
theorem HandleInv.closeLast (h : HandleInv o none) (hf : o.file file = some f)
    (hopen : f.status = .opened) (hx : o.dentry f.fDentry = some x)
    (hv : o.vinode x.dentryInode = some v) (hfile : v.type = fileI) (hg : v.iFsInfo = handlePtr g)
    (hlast : x.dRef - 1 = 0)
    (hsp : sp = { o.spike.setFile g ⟨(o.spike.files g).kfd, 0⟩ with
      host := o.spike.host.close (o.spike.files g).kfd })
    (hgo : LetGo (Objs.setD { o with spike := sp } f.fDentry { x with dRef := x.dRef - 1 })
      f.fDentry { x with dRef := x.dRef - 1 } v o') :
    HandleInv { o' with file := upd o.file file (some { f with status := .none }) } none := by
  have hof := h.handleOf_last hx hv hlast hgo
  set o1 : Objs := Objs.setD { o with spike := sp } f.fDentry { x with dRef := x.dRef - 1 }
  set o2 : Objs := { o' with file := upd o.file file (some { f with status := .none }) }
  have hgt : o.HandleOf f.fDentry g := ⟨x, v, hx, hv, hfile, hg⟩
  have hof2 : ∀ r i, o2.HandleOf r i ↔ o.HandleOf r i ∧ r ≠ f.fDentry := hof
  have hopenOn : ∀ r p, o2.OpenOn r p ↔ p ≠ file ∧ o.OpenOn r p := Objs.openOn_closed rfl
  have hcounts1 := h.counts.closed hf hopen hx
  have hidle : ∀ p, ¬o2.OpenOn f.fDentry p := by
    intro p hp
    exact hcounts1.idle (t := f.fDentry) (upd_self _ _ _) (le_of_eq hlast) p
      ((Objs.openOn_closed rfl f.fDentry p).mpr ((hopenOn f.fDentry p).mp hp))
  refine ⟨?_, hcounts1.frame rfl (fun r y hy => ?_) (fun r y hr hy => ?_), fun r i _ hr => ?_,
    fun r p hp => ?_⟩
  · have hspike : o2.spike = sp := hgo.rest.2.2
    rw [hspike, hsp]
    exact h.handles.drop hgt (fun i hi => hgt.unique hi) hof2
  · have hy' : o'.dentry r = some y := hy
    rw [hgo.dentry hlast] at hy'
    obtain ⟨-, hold⟩ := upd_none hy'
    exact .inl hold
  · have hne : r ≠ f.fDentry := by
      rintro rfl
      obtain ⟨p, hp⟩ := hr
      exact hcounts1.idle (t := f.fDentry) (upd_self _ _ _) (le_of_eq hlast) p hp
    show o'.dentry r = some y
    rw [hgo.dentry hlast, upd_ne hne]
    exact hy
  · obtain ⟨hr, hne⟩ := (hof2 r i).mp hr
    obtain ⟨p, hp⟩ := h.used r i nofun hr
    refine ⟨p, (hopenOn r p).mpr ⟨?_, hp⟩⟩
    rintro rfl
    obtain ⟨k, hk, -, hd⟩ := hp
    rw [hf] at hk
    cases hk
    exact hne hd.symm
  · obtain ⟨i, hi⟩ := h.bound r p ((hopenOn r p).mp hp).2
    refine ⟨i, (hof2 r i).mpr ⟨hi, ?_⟩⟩
    rintro rfl
    exact hidle p hp

end

/-! ## Calls -/

/-- The descriptor at `p` is open and has the handle `g`. -/
def Objs.HasHandle (o : Objs) (p : Ptr) (g : Fin maxFiles) : Prop := ∃ t, o.OpenOn t p ∧ o.HandleOf t g

/-- A handle that has lost its last descriptor is free, and the host has closed its
descriptor. -/
def Released (o o' : Objs) : Prop :=
  ∀ g, (∃ p, o.HasHandle p g) → (∀ p, ¬o'.HasHandle p g) →
    (o'.spike.files g).refcnt = 0 ∧ o'.spike.host.fdAt (o.spike.files g).kfd = none

theorem HandleInv.hasHandle_iff (h : HandleInv o none) (g : Fin maxFiles) :
    (∃ p, o.HasHandle p g) ↔ ∃ t, o.HandleOf t g := by
  constructor
  · rintro ⟨p, t, -, ht⟩
    exact ⟨t, ht⟩
  · rintro ⟨t, ht⟩
    obtain ⟨p, hp⟩ := h.used t g nofun ht
    exact ⟨p, t, hp, ht⟩

/-- A state in which the handles are in order, reached from the objects `o`. -/
def HandlesIn (M : Mount) (o : Objs) (d : Nat → Block) (b : Block) (s : State) : Prop :=
  ∃ o', Holds s o' d b [] ∧ HostNames M o' ∧ HandleInv o' none ∧ Released o o'

/-- Handles that stay with their dentries are not released. -/
theorem Released.of_keep {o' : Objs} (h : HandleInv o none) (h' : HandleInv o' none)
    (hkeep : ∀ t g, o.HandleOf t g → o'.HandleOf t g) : Released o o' := by
  intro g hused hnone
  obtain ⟨t, ht⟩ := (h.hasHandle_iff g).mp hused
  obtain ⟨p, hp⟩ := (h'.hasHandle_iff g).mpr ⟨t, hkeep t g ht⟩
  exact absurd hp (hnone p)

section

variable {M : Mount} {s : State} {o : Objs} {d : Nat → Block} {b : Block} {E : Fault → Prop}

theorem lookupFinalDentry_handles {p : Path} {id : Nat} (h : Holds s o d b []) (hi : HostNames M o)
    (hh : HandleInv o none) (hout : p.Outside)
    (hnode : o.spike.host.tree.node p.hostPath = some (.file id))
    (hdirs : o.hasNames o.root p.tokens.dropLast = true)
    (halone : o.hasNames o.root p.tokens = true ∨
      ¬o.Numbered (wrap32 (o.spike.host.files id).ino)) :
    Post (lookupFinalDentry hostfsIOps p) s (fun r s' => ∃ t o' x, r.dentry = some t ∧
      Holds s' o' d b [] ∧ HostNames M o' ∧ HandleInv o' (some t) ∧ o'.dentry t = some x ∧
      t ≠ M.rfsRoot ∧ ∀ r g, o.HandleOf r g → o'.HandleOf r g) AnyFault := by
  refine (lookupFinalDentry_host h hi.toHostCache hout).mono ?_
  rintro r s' ⟨t, o', hr, h', -, hne, -, ⟨x, hx⟩, hf⟩
  obtain ⟨rx, rv, hrx, -, -, hpar⟩ := hi.rootD
  have hroot0 : M.root ≠ 0 := h.ne_zero (K := dentryKind) hrx
  have hclean : ∀ token ∈ p.tokens, slash ∉ token := fun _ hmem => slash_not_mem_strtokAll hmem
  have hnode' : o.spike.host.tree.node (hRootDir ++ [] ++ pathString p.tokens) =
      some (.file id) := by
    simpa [Path.hostPath] using hnode
  obtain ⟨hi', -⟩ := hf.names hi (.root hrx hpar) hroot0 hclean (by rw [hnode']; exact Option.some_ne_none _)
  rcases halone with hall | halone
  · rw [hi.root] at hall
    obtain rfl := hf.cached_all hall hi.cache
    exact ⟨t, o', x, hr, h', hi', hh.except t, hx, hne, fun _ _ hr => hr⟩
  · rw [hi.root] at hdirs
    obtain ⟨hh', hkeep, -⟩ := hf.handles hh hi hnode' hdirs halone
    exact ⟨t, o', x, hr, h', hi', hh', hx, hne, hkeep⟩

theorem vfsOpen_handles {p : Path} {id flags : Nat} (h : Holds s o d b []) (hi : HostNames M o)
    (hh : HandleInv o none) (hout : p.Outside)
    (hnode : o.spike.host.tree.node p.hostPath = some (.file id))
    (hdirs : o.hasNames o.root p.tokens.dropLast = true)
    (halone : o.hasNames o.root p.tokens = true ∨
      ¬o.Numbered (wrap32 (o.spike.host.files id).ino)) :
    Post (vfsOpen hostfsIOps p flags) s (fun _ s' => HandlesIn M o d b s') AnyFault := by
  refine .bind (lookupFinalDentry_handles h hi hh hout hnode hdirs halone) ?_
  rintro r s1 ⟨t, o1, x, hr, h1, hi1, hh1, hx, hne, hkeep⟩
  rw [hr]
  obtain ⟨v, hv⟩ := hi1.cache.inode t x hx
  have hhost := (hi1.host t x v hx hv).mpr hne
  have hkinds := (hi1.kinds _ _ hv hhost).2
  refine (openDentry_host h1 hx hv hhost hkinds).mono ?_
  rintro _ s2 (⟨-, hdir, h2⟩ | ⟨hfile, file, f, -, hfresh, hf, hopen, h2⟩)
  · have hh2 : HandleInv o1 none := by
      refine ⟨hh1.handles, hh1.counts, fun r g _ hr => hh1.used r g ?_ hr, hh1.bound⟩
      rintro ⟨rfl⟩
      obtain ⟨y, w, hy, hw, htype, -⟩ := hr
      rw [hx] at hy
      cases hy
      rw [hv] at hw
      cases hw
      exact hdir htype
    exact ⟨o1, h2, hi1, hh2, .of_keep hh hh2 hkeep⟩
  · obtain ⟨g, hg⟩ := hkinds hfile
    have hh2 := hh1.openOn hx ⟨x, v, hx, hv, hfile, hg⟩ hfresh.file hf hopen
    refine ⟨_, h2, hi1.openOn hx hne hf, hh2, .of_keep hh hh2 fun r i hr => ?_⟩
    exact Objs.handleOf_setD hx (hkeep r i hr)

/-- Closing a descriptor whose file has one reference more than descriptors. -/
theorem vfsClose_handles {f : File} {v : Vinode} {g : Fin maxFiles} (h : Holds s o d b [])
    (hi : HostNames M o) (hh : HandleInv o none) (hf : o.file file = some f)
    (hopen : f.status = .opened) (hx : o.dentry f.fDentry = some x)
    (hv : o.vinode x.dentryInode = some v) (hg : v.iFsInfo = handlePtr g)
    (hcount : ((o.spike.files g).refcnt : Int) = x.dRef + 1) :
    Post (vfsClose hostfsIOps file) s (fun _ s' => HandlesIn M o d b s') AnyFault := by
  have hfileT : v.type = fileI := by
    obtain ⟨i, y, w, hy, hw, htype, -⟩ := hh.bound f.fDentry file ⟨f, hf, hopen, rfl⟩
    rw [hx] at hy
    cases hy
    rw [hv] at hw
    cases hw
    exact htype
  refine (vfsClose_host h hi.cache (fun f x v hf hx hv hfile => ?_)).mono ?_
  · have hhost := hi.host_of_file hf hx hv
    exact ⟨hhost, (hi.kinds _ _ hv hhost).2 hfile⟩
  rintro _ s' (⟨-, h'⟩ | ⟨-, f', x', v', g', o', hf', hx', hv', -, hg', hsome, hgo, h'⟩)
  · exact ⟨o, h', hi, hh, .of_keep hh hh fun _ _ hr => hr⟩
  rw [hf] at hf'
  cases hf'
  rw [hx] at hx'
  cases hx'
  rw [hv] at hv'
  cases hv'
  cases handlePtr_inj (hg.symm.trans hg')
  have hgt : o.HandleOf f.fDentry g := ⟨x, v, hx, hv, hfileT, hg⟩
  have hnames := hi.closed hf hx hv hfileT (Spike.tree_afterClose _ _) hgo
  have hafter := hh.handles.afterClose hgt hsome
  rcases (hh.handles.live _ _ hgt).2.2 with htwo | hthree
  · have hlast : x.dRef - 1 = 0 := by omega
    rw [Spike.decref_two htwo] at hafter
    have hh' := hh.closeLast hf hopen hx hv hfileT hg hlast hafter hgo
    refine ⟨_, h', hnames, hh', fun i hused hnone => ?_⟩
    obtain ⟨r, hr⟩ := (hh.hasHandle_iff i).mp hused
    have hrt : r = f.fDentry := by
      by_contra hne
      obtain ⟨p, hp⟩ := (hh'.hasHandle_iff i).mpr
        ⟨r, (hh.handleOf_last hx hv hlast hgo r i).mpr ⟨hr, hne⟩⟩
      exact hnone p hp
    subst hrt
    obtain rfl := hgt.unique hr
    have hspike : o'.spike = o.spike.afterClose i := hgo.rest.2.2
    rw [hspike, hafter]
    simp [Host.fdAt_close]
  · have hmore : x.dRef - 1 ≠ 0 := by omega
    rw [Spike.decref_three hthree] at hafter
    obtain rfl := hgo.kept hmore
    have hh' := hh.closeFirst hf hopen hx hgt hmore
    rw [← hafter] at hh'
    exact ⟨_, h', hnames, hh', .of_keep hh hh' fun r i hr => Objs.handleOf_setD hx hr⟩

end

/-! ## Runs -/

/-- The file of the host at a path. -/
def State.hostFile (s : State) (p : Path) : Option Nat :=
  match s.hostNode p with
  | some (.file id) => some id
  | _ => none

/-- The dentry and the handle of a descriptor that is open on a file. -/
def State.descriptor (s : State) (file : Ptr) : Option (Dentry × Fin maxFiles) := do
  let f ← s.file file
  let x ← s.dentry f.fDentry
  let v ← s.vinode x.dentryInode
  let g ← handleAt v.iFsInfo
  if f.status = .opened ∧ v.type = fileI then some (x, g) else none

theorem State.descriptor_some {g : Fin maxFiles} (h : s.descriptor file = some (x, g)) :
    ∃ f v, s.file file = some f ∧ f.status = .opened ∧
      s.dentry f.fDentry = some x ∧ s.vinode x.dentryInode = some v ∧ v.type = fileI ∧
      v.iFsInfo = handlePtr g := by
  simp only [State.descriptor, Option.bind_eq_bind, Option.bind_eq_some_iff] at h
  obtain ⟨f, hf, x, hx, v, hv, g, hg, h⟩ := h
  split at h
  · rename_i hopen
    cases h
    exact ⟨f, v, hf, hopen.1, hx, hv, hopen.2, handleAt_some hg⟩
  · cases h

/-- A regular file of the host is opened, or a descriptor that is open is closed. -/
def HostFileCalls (s : State) : Op → Prop
  | .open p _ => p.Outside ∧ (s.hostFile p).isSome = true
  | .close file => (s.file file).any (·.status == .opened) = true
  | _ => False

/-- A file is opened under one name, with no directory on the way that has not been looked up,
and a close finds one reference more than there are descriptors. -/
def HandleMatched (s : State) : Op → Prop
  | .open p _ => s.objs.hasNames s.vfsRootDentry p.tokens.dropLast = true ∧
      (s.objs.hasNames s.vfsRootDentry p.tokens = true ∨
        ∀ id ∈ s.hostFile p, ¬s.objs.Numbered (wrap32 (s.spike.host.files id).ino))
  | .close file =>
      (s.descriptor file).any (fun c => ((s.spike.files c.2).refcnt : Int) == c.1.dRef + 1) = true
  | _ => True

instance (s : State) : (op : Op) → Decidable (HostFileCalls s op)
  | .open _ _ => inferInstanceAs (Decidable (_ ∧ _))
  | .close _ => inferInstanceAs (Decidable (_ = true))
  | .read _ _ _ | .write _ _ | .lseek _ _ _ | .opendir _ | .readdir _ | .closedir _ | .unlink _
  | .mkdir _ | .link _ _ | .mount _ _ => .isFalse id

instance (s : State) : (op : Op) → Decidable (HandleMatched s op)
  | .open _ _ => inferInstanceAs (Decidable (_ ∧ (_ ∨ ∀ id ∈ _, _)))
  | .close _ => inferInstanceAs (Decidable (_ = true))
  | .read _ _ _ | .write _ _ | .lseek _ _ _ | .opendir _ | .readdir _ | .closedir _ | .unlink _
  | .mkdir _ | .link _ _ | .mount _ _ => .isTrue trivial

/-- The handles live as long as their descriptors: those of open descriptors are counted and open
on the host, and no others are but those of the streams. The table is full only when each of
its handles has an open descriptor. -/
structure HandlesLive (o : Objs) : Prop where
  live : ∀ t p, o.OpenOn t p → ∃ g, o.HasHandle p g ∧ (o.spike.files g).refcnt ≠ 0 ∧
    o.spike.host.fdAt (o.spike.files g).kfd ≠ none
  fds : ∀ k, 3 ≤ k → o.spike.host.fdAt k ≠ none →
    ∃ p g, o.HasHandle p g ∧ (o.spike.files g).kfd = k
  slots : ∀ g : Fin maxFiles, 3 ≤ g.val → (o.spike.files g).refcnt ≠ 0 → ∃ p, o.HasHandle p g
  room : o.spike.freeFile = none → ∀ g : Fin maxFiles, 3 ≤ g.val → ∃ p, o.HasHandle p g

theorem HandleInv.handlesLive (h : HandleInv o none) : HandlesLive o := by
  have hslots : ∀ g : Fin maxFiles, 3 ≤ g.val → (o.spike.files g).refcnt ≠ 0 →
      ∃ p, o.HasHandle p g := fun g hge hbusy => (h.hasHandle_iff g).mpr (h.handles.taken g hge hbusy)
  refine ⟨fun t p hp => ?_, fun k hk hfd => ?_, hslots, fun hfull g hge => hslots g hge ?_⟩
  · obtain ⟨g, hg⟩ := h.bound t p hp
    obtain ⟨-, hfd, hcount⟩ := h.handles.live t g hg
    exact ⟨g, ⟨t, hp, hg⟩, by omega, hfd⟩
  · rcases h.handles.fds k hfd with hlt | ⟨t, g, hg, hkfd⟩
    · omega
    · obtain ⟨p, hp⟩ := (h.hasHandle_iff g).mpr ⟨t, hg⟩
      exact ⟨p, g, hp, hkfd⟩
  · have hused := List.find?_eq_none.mp hfull g (List.mem_finRange g)
    simpa using hused

theorem Spike.initStream_host (sp : Spike) (h : Host) (i : Int) :
    Spike.initStream { sp with host := h } i = { sp.initStream i with host := h } := by
  have hfree : Spike.freeFile { sp with host := h } = sp.freeFile := rfl
  unfold Spike.initStream Spike.spikeFileGetFree
  rw [hfree]
  cases sp.freeFile with
  | none => rfl
  | some f =>
      dsimp only [Option.map]
      unfold Spike.spikeFileDup
      dsimp only [Spike.setFile]
      split <;> rfl

/-- The handles at boot do not depend on the host. -/
theorem Spike.boot_eq (h : Host) : Spike.boot h = { Spike.boot oneFileHost with host := h } := by
  have hstart : (⟨fun _ => ⟨-1, 0⟩, fun _ => none, h⟩ : Spike) =
      { (⟨fun _ => ⟨-1, 0⟩, fun _ => none, oneFileHost⟩ : Spike) with host := h } := rfl
  rw [Spike.boot, Spike.spikeFileInit, hstart, Spike.initStream_host, Spike.initStream_host,
    Spike.initStream_host]
  rfl

/-- At boot the three streams have the only handles. -/
theorem Spike.boot_files (h : Host) (g : Fin maxFiles) :
    ((Spike.boot h).files g).refcnt = if g.val < 3 then 4 else 0 := by
  have hall : ∀ g, ((Spike.boot oneFileHost).files g).refcnt = if g.val < 3 then 4 else 0 := by
    decide +kernel
  rw [Spike.boot_eq]
  exact hall g

theorem Spike.boot_fds (h : Host) (i : Fin maxFds) (g : Fin maxFiles)
    (hg : (Spike.boot h).fds i = some g) : g.val < 3 := by
  have hall : ∀ i, ((Spike.boot oneFileHost).fds i).all (·.val < 3) = true := by
    decide +kernel
  rw [Spike.boot_eq] at hg
  have := hall i
  dsimp only at hg
  rw [hg] at this
  simpa using this

theorem Booted.handleInv {d : Nat → Block} {b : Boot} (hb : Booted M o d)
    (hsp : o.spike = .boot b.host) : HandleInv o none := by
  have hnone : ∀ t g, ¬o.HandleOf t g := by
    rintro t g ⟨x, v, -, hv, hfile, -⟩
    exact absurd (hfile.symm.trans (hb.dirs _ _ hv)) (by decide)
  have hclosed : ∀ t p, ¬o.OpenOn t p := by
    rintro t p ⟨f, hf, -⟩
    rw [hb.files p] at hf
    cases hf
  refine ⟨⟨fun g hg => ?_, fun i g hg => ?_, fun t g hg => absurd hg (hnone t g),
    fun t t' g g' hg => absurd hg (hnone t g), fun k hk => .inl ?_, fun g hge hbusy => ?_⟩,
    hb.openInv.counts, fun t g _ hg => absurd hg (hnone t g),
    fun t p hp => absurd hp (hclosed t p)⟩
  · rw [hsp, Spike.boot_files, if_pos hg]
    decide
  · rw [hsp] at hg
    exact Spike.boot_fds b.host i g hg
  · have hhost : o.spike.host = b.host := by
      rw [hsp, Spike.boot_eq]
    rw [hhost] at hk
    exact ((b.streams k).mp hk).2
  · rw [hsp, Spike.boot_files, if_neg (by omega)] at hbusy
    exact absurd rfl hbusy

structure HandleSound (M : Mount) (s : State) : Prop extends HostSound M s where
  handles : HandleInv s.objs none

theorem HandlesIn.sound {d : Nat → Block} {b : Block} (h : HandlesIn M o d b s) :
    HandleSound M s ∧ Released o s.objs := by
  obtain ⟨o', h, hi, hh, hrel⟩ := h
  obtain rfl := h.objs
  obtain rfl := h.disk
  obtain rfl := h.io
  exact ⟨⟨⟨h, hi⟩, hh⟩, hrel⟩

/-- One call. -/
theorem HandleSound.step {s' : State} {op : Op} {r : Int} (h : HandleSound M s)
    (hop : HostFileCalls s op) (hok : HandleMatched s op)
    (hcall : op.exec hostfsIOps s = .ok (r, s')) : HandleSound M s' ∧ Released s.objs s'.objs := by
  have hpost : Post (op.exec hostfsIOps) s
      (fun _ s' => HandlesIn M s.objs s.disk s.iobuffer s') fun _ => True := by
    cases op with
    | «open» p flags =>
        obtain ⟨hout, hfile⟩ := hop
        obtain ⟨id, hid⟩ := Option.isSome_iff_exists.mp hfile
        have hnode : s.hostNode p = some (.file id) := by
          unfold State.hostFile at hid
          split at hid
          · rename_i hn
            rw [hn, Option.some.inj hid]
          · cases hid
        exact .bind (vfsOpen_handles h.holds h.names h.handles hout hnode hok.1
          (hok.2.imp_right fun hall => hall id hid)) fun _ _ hs => .pure hs
    | close file =>
        obtain ⟨⟨x, g⟩, hc, hcount⟩ := (Option.any_eq_true _ _).mp hok
        obtain ⟨f, v, hf, hopen, hx, hv, -, hg⟩ := State.descriptor_some hc
        exact vfsClose_handles h.holds h.names h.handles hf hopen hx hv hg
          (beq_iff_eq.mp hcount)
    | _ => exact hop.elim
  exact (hpost.of_ok hcall).sound

theorem handles_live {b : Boot} {s0 s : State} (h0 : b.Starts s0)
    (hrun : HostRun (fun s op => HostFileCalls s op ∧ HandleMatched s op) s0 s) :
    HandlesLive s.objs ∧ ∀ op r s', HostFileCalls s op → HandleMatched s op →
      op.exec hostfsIOps s = .ok (r, s') → Released s.objs s'.objs := by
  have hs : HandleSound s0.mount s := by
    refine Reaches.invariant ?_ ?_ hrun
    · obtain ⟨⟨c, hend⟩, hb⟩ := h0.booted
      have hio := hend.io
      exact ⟨⟨hio ▸ hend, hb.hostNames⟩, hb.handleInv h0.spike⟩
    · rintro s s' hs ⟨op, r, ⟨hop, hok⟩, hcall⟩
      exact (hs.step hop hok hcall).1
  exact ⟨hs.handles.handlesLive, fun op r s' hop hok hcall => (hs.step hop hok hcall).2⟩

/-- Two descriptors of the file are open, and one of them is closed. -/
theorem handles_live_two : ∃ s, HostRun (fun s op => HostFileCalls s op ∧ HandleMatched s op)
    smallBoot.state s ∧ (s.spike.files 3).refcnt = 2 ∧ HandlesLive s.objs := by
  obtain ⟨s, hrun, hcount⟩ := run_with hostfsIOps (fun s op => HostFileCalls s op ∧
    HandleMatched s op) [.open pathF oRdwr, .open pathF oRdwr, .close 81920] smallBoot.state
    (fun s => (s.spike.files 3).refcnt == 2) (by decide +kernel)
  have hrun' := HostRun.of_run hrun
  exact ⟨s, hrun', beq_iff_eq.mp hcount, (handles_live (Boot.starts smallBoot_boots) hrun').1⟩

/-- The handle of an open descriptor is not free. -/
theorem HandlesLive.counted (h : HandlesLive s.objs) {g : Fin maxFiles}
    (hfile : s.descriptor file = some (x, g)) : (s.spike.files g).refcnt ≠ 0 := by
  obtain ⟨f, v, hf, hopen, hx, hv, htype, hg⟩ := State.descriptor_some hfile
  obtain ⟨g', ⟨t, ⟨f', hf', -, rfl⟩, hg'⟩, hbusy, -⟩ :=
    h.live f.fDentry file ⟨f, hf, hopen, rfl⟩
  cases hf.symm.trans hf'
  obtain rfl := Objs.HandleOf.unique ⟨x, v, hx, hv, htype, hg⟩ hg'
  exact hbusy

/-- After three opens and two closes the third descriptor has a handle that is free;
after one open and one close the handle is still taken and the host has its descriptor
open. -/
theorem handle_outlives_or_dies :
    (∃ s, HostRun HostFileCalls smallBoot.state s ∧
      (s.descriptor 90112).any (fun c => (s.spike.files c.2).refcnt == 0) = true ∧
      ¬HandlesLive s.objs) ∧
    ∃ s, HostRun HostFileCalls smallBoot.state s ∧
      (s.file 81920).any (fun f => f.status == .none) = true ∧
      (s.spike.files 3).refcnt = 2 ∧ (s.spike.host.fdAt 3).isSome = true := by
  constructor
  · obtain ⟨s, hrun, hfree⟩ := run_with hostfsIOps HostFileCalls [.open pathF oRdwr,
      .open pathF oRdwr, .open pathF oRdwr, .close 81920, .close 86016] smallBoot.state
      (fun s => (s.descriptor 90112).any fun c => (s.spike.files c.2).refcnt == 0)
      (by decide +kernel)
    refine ⟨s, HostRun.of_run hrun, hfree, fun hlive => ?_⟩
    obtain ⟨c, hc, hzero⟩ := (Option.any_eq_true _ _).mp hfree
    exact hlive.counted hc (beq_iff_eq.mp hzero)
  · obtain ⟨s, hrun, hleft⟩ := run_with hostfsIOps HostFileCalls [.open pathF oRdwr,
      .close 81920] smallBoot.state (fun s => (s.file 81920).any (fun f => f.status == .none) &&
      (s.spike.files 3).refcnt == 2 && (s.spike.host.fdAt 3).isSome) (by decide +kernel)
    simp only [Bool.and_eq_true, beq_iff_eq] at hleft
    exact ⟨s, HostRun.of_run hrun, hleft.1.1, hleft.1.2, hleft.2⟩

end Pke
