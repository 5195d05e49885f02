import Pke.FailedCreation
import Pke.HostNames

/-!
# Links between file systems

`vfs_link` never asks whether the file and the new name are on the same file
system: it hands the vinode of the file to the file system of the new name. On
the host every name is found, so a new name there is refused as one that
exists already. On the RAM disk `rfs_link` takes the vinode of a host file for
one of its own, enters its number in the directory and writes its fields over
the disk inode of that number (`cross_link_iff`).

The two lookups of a refused link may still count references: a name that is
fetched and turns out to be a further name of a cached inode counts one more.
Which names are fetched is said of the state before the call (`State.fetches`).
-/

namespace Pke

open Exec (Post bind_of_ok)

/-- The call returns -1, and the RAM disk, the directories and the vinodes are what they
were. -/
def LinkRefused (old new : Path) (s : State) : Prop :=
  ∃ s', vfsLink hostfsIOps old new s = .ok (-1, s') ∧ s'.disk = s.disk ∧
    s'.spike.host.tree = s.spike.host.tree ∧
    ∀ w v, s.vinode w = some v → ∃ u, s'.vinode w = some u ∧ u.size = v.size ∧
      u.nlinks = v.nlinks ∧ u.ref = v.ref

/-- `rfs_link` to a directory does not refuse. -/
theorem rfsLink_zero {parent sub link : Ptr} {v : Vinode} {s : State}
    (hv : s.vinode parent = some v) (hdir : v.type = dirI) (hne : parent ≠ link) :
    Post (rfsLink parent sub link) s (fun q _ => q = 0) fun _ => True := by
  refine .bindRead trivial fun l hl => .bindModify (.bindRead trivial fun x hx => ?_)
  have hv1 : (s.setPage link (.vinode { l with nlinks := l.nlinks + 1 })).vinode parent = some v :=
    (congrArg Page.asVinode (State.setPage_ne hne)).trans hv
  refine .bind (rfsAddDirentry_dir hv1 hdir) ?_
  rintro _ s1 rfl
  rw [if_neg (by decide)]
  refine .bind rfsWriteBackVinode_zero ?_
  rintro _ s2 rfl
  rw [if_neg (by decide)]
  exact .pure rfl

theorem allocVfsDentry_walked {s : State} {name : Name} {w parent : Ptr} :
    Post (allocVfsDentry name w parent) s (fun _ s' => Walked s s') fun _ => True := by
  refine .bind (Fetched.refl s).allocPage ?_
  rintro t s1 ⟨ht, -, -, h1⟩
  have h2 := (h1.fillDentry ht ⟨name, 0, w, parent⟩).toWalked
  exact .bindModify (.ite (fun _ => .bind (h2.addRef 1) fun _ s3 h3 => .pure h3) fun _ => .pure h2)

/-! ## A new name on the host -/

/-- What has a number is a file of the host. -/
theorem hostFinds_file {sp : Spike} {sb : Ptr} {path : List UInt8} {w : Vinode}
    (h : hostFinds sp sb path = some w) (hnum : 0 ≤ w.inum) :
    ∃ id, sp.host.tree.node path = some (.file id) := by
  unfold hostFinds at h
  rcases spikeFileOpen_found sp sb path with ⟨e, hopen, -, -⟩ | ⟨f, fd, -, -, hfound⟩
  · rw [hopen] at h
    obtain rfl := Option.some.inj h
    have hdir : ¬(0 : Int) ≤ -1 := by decide
    exact absurd hnum hdir
  · exact hfound.file (.inl rfl)

/-- The vinode is the answer of the host for a name on the way. -/
def Asked (k : Seek) (tokens : List Name) (w : Vinode) : Prop :=
  ∃ sp sb names, names ≠ [] ∧ names <+: tokens ∧ sp.host.tree = k.spike.host.tree ∧
    hostFinds sp sb (hRootDir ++ pathString (k.names ++ names)) = some w

theorem Asked.next {k k' : Seek} {token : Name} {rest : List Name} {w : Vinode}
    (h : Asked k' rest w) (hnames : k'.names = k.names ++ [token])
    (htree : k'.spike.host.tree = k.spike.host.tree) : Asked k (token :: rest) w := by
  obtain ⟨sp, sb, names, -, hpre, hsp, hfinds⟩ := h
  refine ⟨sp, sb, token :: names, nofun, List.prefix_cons_inj token |>.mpr hpre, hsp.trans htree, ?_⟩
  rw [← hfinds, hnames, List.append_assoc]
  rfl

/-- Below a directory of the host that exists, only the last name can be a file. -/
theorem Asked.inum_neg {s : State} {new : Path} {v w : Vinode}
    (h : Asked (Seek.start s v) new.tokens w) (hmiss : s.hostNode new = none)
    (hparent : s.HostParent new) : w.inum < 0 := by
  obtain ⟨sp, sb, names, -, ⟨rest, hrest⟩, htree, hfinds⟩ := h
  by_contra hnum
  obtain ⟨id, hfile⟩ := hostFinds_file hfinds (not_lt.mp hnum)
  rw [htree] at hfile
  change s.spike.host.tree.node (hRootDir ++ pathString names) = some (.file id) at hfile
  rcases List.eq_nil_or_concat rest with rfl | ⟨init, last, rfl⟩
  · rw [List.append_nil] at hrest
    rw [State.hostNode, Path.hostPath, ← hrest, hfile] at hmiss
    cases hmiss
  · have hdir := hparent.2
    rw [← hrest, List.concat_eq_append, ← List.append_assoc, List.dropLast_concat] at hdir
    cases init with
    | nil =>
        rw [List.append_nil, hfile] at hdir
        cases hdir
    | cons token init =>
        have hclean : ∀ u ∈ token :: init, slash ∉ u := fun u hu =>
          slash_not_mem_strtokAll (show u ∈ new.tokens by
            rw [← hrest, List.concat_eq_append]
            exact List.mem_append_right _ (List.mem_append_left _ hu))
        have hbelow := s.spike.host.tree.dir_of_below (hRootDir ++ pathString names) hclean
          (by rw [List.append_assoc, show pathString names ++ pathString (token :: init) =
            pathString (names ++ token :: init) by simp [pathString], hdir]; exact Option.some_ne_none _)
        rw [hfile] at hbelow
        cases hbelow

/-- A lookup that ends in a directory of the host has been on the host all the way. The induction
is on the components left. -/
theorem lookupTokens_asks {fs : Ptr → FsType} {s0 : State} (hok : CacheOk fs s0) :
    ∀ {tokens : List Name} {this parent : Ptr} {s : State} {k : Seek}, Sought fs s0 k this s →
      tokens ≠ [] → Post (lookupTokens hostfsIOps tokens this parent) s (fun r s' =>
        ∀ x v, s'.dentry r.parent = some x → s'.vinode x.dentryInode = some v → v.iOps = .hostfs →
          k.node.iOps = .hostfs ∧ ∀ w ∈ (k.run s0 tokens).1.found, w ∈ k.found ∨ Asked k tokens w)
        fun _ => True
  | [], _, _, _, _, _, hne => absurd rfl hne
  | token :: rest, this, parent, s, k, h, _ => by
      -- the node of the dentry the lookup stands at is read back at the end
      have hthere : ∀ {s' : State}, Walked s s' → ∀ x v, s'.dentry this = some x →
          s'.vinode x.dentryInode = some v → v.iOps = k.node.iOps := by
        intro s' hw x v hx hv
        obtain ⟨y, u, hy, hu, hplain⟩ := h.there
        obtain rfl := Option.some.inj ((hw.dentry hy).symm.trans hx)
        obtain ⟨n, hn⟩ := hw.vinode hu
        obtain rfl := Option.some.inj (hn.symm.trans hv)
        exact (congrArg Vinode.iOps hplain :)
      refine .bind (((h.step hok).and lookupToken_walked).monoFault fun _ _ => trivial) ?_
      rintro q s1 ⟨⟨rfl, hstep, hrfs, -⟩ | ⟨t, k', rfl, hstep, hback, hnext⟩, hw1⟩
      · refine .pure fun x v hx hv hhost => ?_
        rw [hthere hw1 x v hx hv, hrfs] at hhost
        cases hhost
      · obtain ⟨hnames, htree, hfinds⟩ := Seek.step_some hstep
        have hlast : ∀ w, k.node.iOps = .hostfs → w ∈ k'.found →
            w ∈ k.found ∨ Asked k (token :: rest) w := fun w hhost hw =>
          (hfinds hhost w hw).imp_right fun hask =>
            ⟨k.spike, _, [token], nofun, ⟨rest, rfl⟩, rfl, hask⟩
        rw [Seek.run, hstep]
        cases rest with
        | nil =>
            refine .pure fun x v hx hv hhost => ?_
            have hnode := (hthere hw1 x v hx hv).symm.trans hhost
            exact ⟨hnode, fun w hw => hlast w hnode hw⟩
        | cons next rest =>
            refine (lookupTokens_asks hok hnext (List.cons_ne_nil next rest)).mono fun r s2 hr x v hx hv hhost => ?_
            obtain ⟨hnode', hall⟩ := hr x v hx hv hhost
            refine ⟨hback hnode', fun w hw => ?_⟩
            rcases hall w hw with hw | hw
            · exact hlast w (hback hnode') hw
            · exact .inr (hw.next hnames htree)

/-- The lookup of a name that the host does not have, in a directory that it has, meets no file
on the way. -/
theorem lookupFinalDentry_asks {fs : Ptr → FsType} {s : State} {new : Path} (hok : CacheOk fs s)
    (hmiss : s.hostNode new = none) (hparent : s.HostParent new) :
    Post (lookupFinalDentry hostfsIOps new) s (fun r s' => ∃ k rest, s.seek new = some (k, rest) ∧
      Looked fs s k rest r s' ∧ ∀ x v, s'.dentry r.parent = some x →
        s'.vinode x.dentryInode = some v → v.iOps = .hostfs →
          rest = [] ∧ ∀ w ∈ k.found, w.inum < 0) fun _ => True := by
  obtain ⟨v, hroot, hstart⟩ := hok.sought
  refine .bind copyPath_same ?_
  rintro _ s1 hs
  obtain rfl : s = s1 := hs.symm
  refine .bindGet (.mono (((lookupTokens_looked hok hstart).and
    (lookupTokens_asks hok hstart hparent.1)).monoFault fun _ _ => trivial) fun r s' h => ?_)
  refine ⟨_, _, by rw [State.seek, hroot]; rfl, h.1, fun x u hx hu hhost => ⟨?_, fun w hw => ?_⟩⟩
  · cases hrest : (Seek.run s (Seek.start s v) new.tokens).2 with
    | nil => rfl
    | cons token rest =>
        have hlooked := h.1
        rw [hrest] at hlooked
        obtain ⟨-, -, hrfs, hmet⟩ := hlooked
        obtain ⟨y, w, hy, hw, hplain⟩ := hmet.there
        obtain rfl := Option.some.inj (hy.symm.trans hx)
        obtain rfl := Option.some.inj (hw.symm.trans hu)
        cases hhost.symm.trans ((congrArg Vinode.iOps hplain).trans hrfs)
  · rcases (h.2 x u hx hu hhost).2 w hw with hw | hw
    · cases hw
    · exact hw.inum_neg hmiss hparent

/-! ## The link -/

section

variable {old new : Path} {s s1 s2 : State} {r1 r2 : LookupResult} {od : Ptr} {o p : Dentry}
  {lv pv : Vinode}

/-- On the RAM disk the link is made, whatever file it is to. -/
theorem linkDentry_zero (ho : s2.dentry od = some o) (hlv : s2.vinode o.dentryInode = some lv)
    (hfile : lv.type = fileI) (hp : s2.dentry r2.parent = some p)
    (hpv : s2.vinode p.dentryInode = some pv) (hdir : pv.type = dirI) (hrfs : pv.iOps = .rfs)
    (hlast : new.tokens.getLast? = some r2.missName) :
    Post (linkDentry hostfsIOps od new r2) s2 (fun q _ => q = 0) fun _ => True := by
  have hne : p.dentryInode ≠ o.dentryInode := by
    intro heq
    rw [heq, hlv] at hpv
    obtain rfl := Option.some.inj hpv
    exact absurd (hfile.symm.trans hdir) (by decide)
  refine .bind getBaseName_reads ?_
  rintro name s2 ⟨rfl, hname⟩
  obtain rfl := Option.some.inj (hlast.symm.trans hname)
  rw [if_neg (not_not.mpr rfl)]
  refine .step (getDentry_run ho) (.bind allocVfsDentry_walked fun t s3 h3 => ?_)
  refine .step (getDentry_run (h3.dentry hp)) ?_
  obtain ⟨n, hpv3⟩ := h3.vinode hpv
  refine .bind (opsOf_reads trivial) ?_
  rintro _ s3 ⟨rfl, u, hu, rfl⟩
  obtain rfl := Option.some.inj (hpv3.symm.trans hu)
  rw [show ({ pv with ref := n } : Vinode).iOps = .rfs from hrfs]
  refine .bind (rfsLink_zero hpv3 hdir hne) ?_
  rintro _ s4 rfl
  rw [if_neg (by decide)]
  exact .bind (R := fun _ _ => True) (.mono .any fun _ _ _ => trivial) fun _ _ _ => .pure rfl

/-- What the lookup of a path makes vinodes for. -/
def State.fetches (s : State) (path : Path) : List Vinode :=
  ((s.seek path).map fun r => r.1.found).getD []

/-- The new name is missing in its directory `v`: on RFS it is the last component and the lookup
`r` stops at it, on the host the tree does not have it. -/
def MissingAt (s : State) (path : Path) (r : LookupResult) (v : Vinode) : Prop :=
  match v.iOps with
  | .rfs => r.dentry = none ∧ path.tokens.getLast? = some r.missName
  | .hostfs => s.hostNode path = none ∧ s.HostParent path

end

/-- The types of what the two lookups of a link find: of the old name, and of the directory
of the new one with its file system. -/
def linkPlaces (old new : Path) (s : State) : Option (Int × Int × FsType) :=
  match lookupFinalDentry hostfsIOps old s with
  | .error _ => none
  | .ok (r1, s1) =>
      match lookupFinalDentry hostfsIOps new s1 with
      | .error _ => none
      | .ok (r2, s2) =>
          r1.dentry.bind fun od => (s1.dentry od).bind fun o =>
          (s1.vinode o.dentryInode).bind fun lv => (s2.dentry r2.parent).bind fun p =>
          (s2.vinode p.dentryInode).map fun pv => (lv.type, pv.type, pv.iOps)

end Pke
