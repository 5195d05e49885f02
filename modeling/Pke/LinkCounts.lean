import Pke.Ownership

/-!
# Link counts

In every state of every run the link count of an inode is the number of
its names, on disk and in memory, an inode is free exactly when it has
no name, and no directory has two entries of one name
(`links_exact`). The invariant of the volume says most of this; what is
left is `Named`: no directory is without a name, and the count of a free
inode is zero.
-/

namespace Pke

/-! ## No inode without a name -/

structure Named (kind nl : Int → Int) (ents : Int → List (Int × Name)) : Prop where
  dirs : DirsNamed kind ents
  free : ∀ n, kind n = rFree → nl n = 0

namespace Named

variable {kind nl : Int → Int} {ents : Int → List (Int × Name)} {n p : Int} {name : Name}

theorem create (h : Named kind nl ents) (hl : LinkInv kind nl ents) {type : Int}
    (hn : kind n = rFree) (hpnum : InodeNum p) (htype : type = rFile ∨ type = rDir) :
    Named (upd kind n type) (upd nl n 1) (upd ents p (ents p ++ [(n, name)])) := by
  have hlinks := links_append (E := ents) (mem_inodeNums.mpr hpnum) n name
  constructor
  · intro m hm hdir
    rw [hlinks m]
    rcases eq_or_ne m n with rfl | hmn
    · rw [hl.links_free hn, if_pos rfl]
    · rw [upd_ne hmn] at hdir
      rw [if_neg hmn.symm, h.dirs m hm hdir]
  · intro m hm
    rcases eq_or_ne m n with rfl | hmn
    · rw [upd_self] at hm
      rcases htype with rfl | rfl <;> exact absurd hm (by decide)
    · rw [upd_ne hmn] at hm ⊢
      exact h.free m hm

theorem link (h : Named kind nl ents) (hn : kind n = rFile) (hpnum : InodeNum p) :
    Named kind (upd nl n (nl n + 1)) (upd ents p (ents p ++ [(n, name)])) := by
  have hlinks := links_append (E := ents) (mem_inodeNums.mpr hpnum) n name
  constructor
  · intro m hm hdir
    have hmn : m ≠ n := fun heq => absurd (hdir.symm.trans (heq ▸ hn)) (by decide)
    rw [hlinks m, if_neg hmn.symm, h.dirs m hm hdir]
  · intro m hm
    have hmn : m ≠ n := fun heq => absurd (hm.symm.trans (heq ▸ hn)) (by decide)
    rw [upd_ne hmn]
    exact h.free m hm

theorem unlinkKeep (h : Named kind nl ents) {k : Nat} (hn : kind n = rFile) (hpnum : InodeNum p)
    (hk : (ents p)[k]? = some (n, name)) :
    Named kind (upd nl n (nl n - 1)) (upd ents p ((ents p).eraseIdx k)) := by
  have hlinks := links_eraseIdx (E := ents) (mem_inodeNums.mpr hpnum) hk
  constructor
  · intro m hm hdir
    have hmn : m ≠ n := fun heq => absurd (hdir.symm.trans (heq ▸ hn)) (by decide)
    have hold := hlinks m
    rw [if_neg hmn.symm, Nat.add_zero, h.dirs m hm hdir] at hold
    exact hold
  · intro m hm
    have hmn : m ≠ n := fun heq => absurd (hm.symm.trans (heq ▸ hn)) (by decide)
    rw [upd_ne hmn]
    exact h.free m hm

theorem unlinkLast (h : Named kind nl ents) {k : Nat} (hpnum : InodeNum p)
    (hk : (ents p)[k]? = some (n, name)) :
    Named (upd kind n rFree) (upd nl n 0) (upd ents p ((ents p).eraseIdx k)) := by
  have hlinks := links_eraseIdx (E := ents) (mem_inodeNums.mpr hpnum) hk
  constructor
  · intro m hm hdir
    rcases eq_or_ne m n with rfl | hmn
    · rw [upd_self] at hdir
      exact absurd hdir (by decide)
    · rw [upd_ne hmn] at hdir
      have hold := hlinks m
      rw [if_neg hmn.symm, Nat.add_zero, h.dirs m hm hdir] at hold
      exact hold
  · intro m hm
    rcases eq_or_ne m n with rfl | hmn
    · exact upd_self _ _ _
    · rw [upd_ne hmn] at hm ⊢
      exact h.free m hm

end Named

/-! ## Every step keeps the names -/

def Vol.Named (v : Vol) : Prop := Pke.Named (inodeTypes v.ino) (inodeLinks v.ino) v.ents

theorem Vol.Step.keepNamed {held : Prop} {used : Int → Prop} {v v' : Vol}
    (hs : v.Step True held used v') (h : v.Inv) (hn : v.Named) :
    v'.Named := by
  have hdirs : ∀ {n p b c}, v.mem n = some b → b.type = rFile → v.mem p = some c →
      c.type = rDir → p ≠ n := by
    rintro n p b c hb hfile hc hdir rfl
    rw [hb] at hc
    obtain rfl := Option.some.inj hc
    exact absurd (hfile.symm.trans hdir) (by decide)
  unfold Vol.Named at hn ⊢
  cases hs with
  | load | grow | size => exact hn
  | create n p k type name c hnum hfree haddrs htype hk hzero hp hdir hroom hnew =>
      have hpn : p ≠ n := fun heq => (heq ▸ h.live hp) hfree
      obtain ⟨ht, hl⟩ := h.kinds_two (freshInode type (12 + k) (v.ino n).addrs) hp hpn
      rw [ht, hl]
      exact hn.create h.links hfree (h.blocks.num p (h.live hp)) htype
  | orphan n k hloose => exact absurd trivial hloose
  | link n p name b c hb hfile hp hdir hroom hnew =>
      have hfile' : inodeTypes v.ino n = rFile := (h.type_eq hb).trans hfile
      have hstep : Pke.Named _ _ (upd v.ents p (v.ents p ++ [(n, name)])) :=
        hn.link hfile' (h.blocks.num p (h.live hp))
      rw [show inodeLinks v.ino n = b.nlinks from h.nlinks_eq hb] at hstep
      rw [inodeTypes_upd, inodeLinks_upd, Vol.Inv.types_dir (h.type_eq hp),
        Vol.Inv.links_dir (h.nlinks_eq hp), upd_eq_self (f := inodeTypes v.ino) (h.type_eq hb)]
      exact hstep
  | unlink n p k name b c hb hfile hp hdir hk hmore =>
      obtain ⟨ht, hl⟩ := h.kinds_two { v.ino n with nlinks := b.nlinks - 1 } hp
        (hdirs hb hfile hp hdir)
      have hfile' : inodeTypes v.ino n = rFile := (h.type_eq hb).trans hfile
      have hstep := hn.unlinkKeep hfile' (h.blocks.num p (h.live hp)) hk
      rw [show inodeLinks v.ino n = b.nlinks from h.nlinks_eq hb] at hstep
      rw [ht, hl]
      show Pke.Named (upd (inodeTypes v.ino) n (inodeTypes v.ino n)) _ _
      rw [upd_eq_self rfl]
      exact hstep
  | unlinkLast n p k name b c hb hfile hp hdir hk hlast =>
      obtain ⟨ht, hl⟩ := h.kinds_two (dropInode (v.ino n) 0) hp (hdirs hb hfile hp hdir)
      rw [ht, hl]
      exact hn.unlinkLast (h.blocks.num p (h.live hp)) hk
  | evict n c hm hfile =>
      rw [inodeTypes_upd, inodeLinks_upd, upd_eq_self (f := inodeTypes v.ino) (h.type_eq hm),
        upd_eq_self (f := inodeLinks v.ino) (h.nlinks_eq hm)]
      exact hn

theorem Vol.named_of_reflGen {held : Prop} {used : Int → Prop} {v v' : Vol}
    (hs : Relation.ReflGen (Vol.Step True held used) v v') (h : v.Inv) (hn : v.Named) : v'.Named := by
  cases hs with
  | refl => exact hn
  | single hs => exact hs.keepNamed h hn

theorem Change.keepNamed {M : Mount} {care : Care} {o o' : Objs} {d d' : Nat → Block}
    (hcare : care.paths) (hc : Change M care o d o' d') (hi : Inv M o d)
    (hn : (o.vol M d).Named) : (o'.vol M d').Named := by
  have hvol := hc.vol hi
  rw [eq_true hcare] at hvol
  exact Vol.named_of_reflGen hvol hi.vol hn

theorem Formatted.named {d : Nat → Block} (hd : Formatted d) :
    Named (inodeTypes (diskInode d)) (inodeLinks (diskInode d)) (dirEnts d) where
  dirs n hn hdir := absurd ((hd.free n hn).symm.trans hdir) (by decide)
  free n hn := by
    rcases eq_or_ne n 0 with rfl | hne
    · obtain ⟨addrs, hroot, -⟩ := hd.root
      rw [inodeTypes, hroot] at hn
      exact absurd (show rDir = rFree from hn) (by decide)
    · exact hd.unlinked n hne

/-! ## In every state -/

/-- The number of directory entries, over all directories, that name inode
`n`. -/
def State.names (s : State) (n : Int) : Nat := links inodeNums (dirEnts s.disk) n

structure LinksExact (M : Mount) (s : State) : Prop where
  disk : ∀ n, InodeNum n → n ≠ 0 → (diskInode s.disk n).nlinks = s.names n
  cached : ∀ n v, s.objs.cached M n = some v → v.nlinks = (diskInode s.disk n).nlinks
  free : ∀ n, InodeNum n → n ≠ 0 → ((diskInode s.disk n).type = rFree ↔ s.names n = 0)
  distinct : ∀ p, ((dirEnts s.disk p).map Prod.snd).Nodup

theorem Inv.linksExact {M : Mount} {s : State} (h : Inv M s.objs s.disk)
    (hn : (s.objs.vol M s.disk).Named) : LinksExact M s := by
  have hkind : ∀ n, n ≠ 0 → ((diskInode s.disk n).type = rFree ∧
      (diskInode s.disk n).nlinks = 0 ∧ s.names n = 0) ∨ ((diskInode s.disk n).type ≠ rFree ∧
      (diskInode s.disk n).nlinks = s.names n ∧ s.names n ≠ 0) := by
    intro n hne
    by_cases hfree : (diskInode s.disk n).type = rFree
    · exact .inl ⟨hfree, hn.free n hfree, h.links.links_free hfree⟩
    · rcases (h.blocks.ok n hfree).shape.type with hfile | hdir
      · obtain ⟨heq, hone⟩ := h.links.file n hfile
        have heq' : (diskInode s.disk n).nlinks = s.names n := heq
        have hone' : 1 ≤ (diskInode s.disk n).nlinks := hone
        exact .inr ⟨hfree, heq', by omega⟩
      · have hone : s.names n = 1 := hn.dirs n hne hdir
        have hnl : (diskInode s.disk n).nlinks = 1 := (h.links.dir n hdir).1
        exact .inr ⟨hfree, by omega, by omega⟩
  refine ⟨fun n _ hne => ?_, fun n v hv => ?_, fun n _ hne => ?_, h.links.names⟩
  · rcases hkind n hne with ⟨-, hzero, hnames⟩ | ⟨-, heq, -⟩
    · omega
    · exact heq
  · obtain ⟨w, hw, rfl, hsb⟩ := vinode_of_cached h.cache hv
    have hmem : s.objs.mem M v.inum = some v.toDinode := congrArg (Option.map _) hv
    exact (h.vol.nlinks_eq hmem).symm
  · rcases hkind n hne with ⟨hfree, -, hnames⟩ | ⟨hlive, -, hnames⟩
    · exact ⟨fun _ => hnames, fun _ => hfree⟩
    · exact ⟨fun hf => absurd hf hlive, fun hz => absurd hz hnames⟩

/-- Link counts are exact, and no assertion about them fails. -/
theorem links_exact {b : Boot} {host : VinodeOps} {s0 s : State} (h0 : b.Starts s0)
    (hrun : Run host FileCalls s0 s) : LinksExact s0.mount s ∧
      ∀ op cond, FileCalls s op → op.exec host s ≠ .error (.assertion cond) := by
  have hok := FileCalls.guard s0.mount ⟨False, True, False, False, False⟩ id id id
  obtain ⟨hs, hsteps⟩ := hrun.steps hok h0.sound
  have hnamed : (s.objs.vol s0.mount s.disk).Named :=
    hsteps.keeps (P := fun a => (a.1.vol s0.mount a.2).Named) h0.sound.inv h0.booted.2.disk.named
      fun hi hn hc => hc.keepNamed trivial hi hn
  exact ⟨hs.inv.linksExact hnamed, fun op cond hop herr =>
    hs.exec_error (hok s op hop) herr cond rfl⟩

/-- A file with two names. -/
theorem links_exact_two : ∃ s, Run noHost FileCalls smallBoot.state s ∧ s.names 1 = 2 ∧
    LinksExact smallBoot.state.mount s := by
  obtain ⟨s, hrun, htwo⟩ := run_with noHost FileCalls
    [.open pathA rdwrCreat, .link pathA pathB, .close 81920] smallBoot.state
    (fun s => (diskInode s.disk 1).nlinks == 2) (by decide +kernel)
  have hlinks := (links_exact (Boot.starts smallBoot_boots) hrun).1
  have hnum := hlinks.disk 1 (by decide) (by decide)
  rw [beq_iff_eq.mp htwo] at hnum
  exact ⟨s, hrun, by omega, hlinks⟩

end Pke
