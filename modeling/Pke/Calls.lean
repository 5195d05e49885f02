import Pke.Boot

/-!
# Every call is a sequence of changes

`Op.Guard` is what the callers promise: paths below the mount point, in
which no name is looked for in a file that has one, and descriptors of
the right kind. A call that keeps the promise is a sequence of `Change`s
(`Op.exec_post`) and fails no assertion, and so is a whole run of calls
(`Run.steps`). What the rest of the development says of all runs is
proved of one `Change` and carried over by these two.
-/

namespace Pke

open Exec (Post)

/-! ## What the callers promise -/

/-- A path below the mount point. When `care.paths` says so, no proper prefix
of it is a file. -/
def PathOk (M : Mount) (care : Care) (o : Objs) (d : Nat → Block) (path : Path) : Prop :=
  ∃ tokens, RfsPath path tokens ∧ StopOk M o d 0 tokens ∧ (care.paths → StopDir d 0 tokens)

/-- A path below the mount point no proper prefix of which is a file. -/
def DirPath (d : Nat → Block) (path : Path) : Prop :=
  ∃ tokens, RfsPath path tokens ∧ StopDir d 0 tokens

/-- A path below the mount point that leads to a file. -/
def FilePath (d : Nat → Block) (path : Path) : Prop :=
  ∃ tokens, RfsPath path tokens ∧ LeadsToFile d tokens

variable {o : Objs} {d : Nat → Block} {op : Op} {s : State} {b : Boot}

theorem DirPath.pathOk {M : Mount} {care : Care} {path : Path} (h : DirPath d path) :
    PathOk M care o d path := by
  obtain ⟨tokens, hp, hdir⟩ := h
  exact ⟨tokens, hp, hdir.stopOk, fun _ => hdir⟩

/-- No path the call looks up goes through a file: `vfs_link` looks the second
path up when the first one leads to a file. -/
def Op.DirPaths (d : Nat → Block) : Op → Prop
  | .open path _ | .unlink path | .mkdir path | .opendir path => DirPath d path
  | .link oldpath newpath => DirPath d oldpath ∧ (FilePath d oldpath → DirPath d newpath)
  | .read _ _ _ | .write _ _ | .lseek _ _ _ | .close _ | .readdir _ | .closedir _
  | .mount _ _ => True

/-- The calls on files and on names. -/
def Op.OnFiles : Op → Prop
  | .open _ _ | .read _ _ _ | .write _ _ | .lseek _ _ _ | .close _ | .link _ _ | .unlink _
  | .mkdir _ => True
  | .opendir _ | .readdir _ | .closedir _ | .mount _ _ => False

/-- A descriptor that has not been closed. -/
def Objs.Opened (o : Objs) (file : Ptr) : Prop :=
  ∀ f, o.file file = some f → f.status = .opened

/-- The descriptor the call is made on, if there is one, is open. -/
def Op.FdOpen (o : Objs) : Op → Prop
  | .read file _ _ | .write file _ | .lseek file _ _ | .close file | .readdir file
  | .closedir file => o.Opened file
  | .open _ _ | .link _ _ | .unlink _ | .mkdir _ | .opendir _ | .mount _ _ => True

def Op.Guard (M : Mount) (care : Care) (o : Objs) (d : Nat → Block) : Op → Prop
  | .open path _ | .unlink path | .mkdir path => PathOk M care o d path
  | .opendir path => ¬care.still ∧ PathOk M care o d path
  | .link oldpath newpath =>
      PathOk M care o d oldpath ∧ (FilePath d oldpath → DirPath d newpath)
  | .read _ _ _ | .lseek _ _ _ => ¬care.still
  | .write file _ => ¬care.still ∧ (care.fds → o.Opened file)
  | .close file => ¬care.still ∧ ¬care.held ∧ (care.fds → o.Opened file)
  | .readdir file => ¬care.still ∧ o.ReadDirOk file
  | .closedir file =>
      ¬care.still ∧ ¬care.held ∧ o.CloseDirOk file ∧ (care.fds → o.Opened file) ∧
        (care.dirs → o.CopyUnread file)
  | .mount devName mntType => o.MountOk devName mntType

theorem Op.guard_of_files {M : Mount} {care : Care} (hop : op.OnFiles) (hpaths : op.DirPaths d)
    (hfds : care.fds → op.FdOpen o) (hmay : ¬care.still)
    (hheld : ∀ file, op = .close file → ¬care.held) : op.Guard M care o d := by
  cases op with
  | «open» | unlink | mkdir => exact DirPath.pathOk hpaths
  | link => exact ⟨hpaths.1.pathOk, hpaths.2⟩
  | read | lseek => exact hmay
  | write => exact ⟨hmay, hfds⟩
  | close => exact ⟨hmay, hheld _ rfl, hfds⟩
  | opendir | readdir | closedir | mount => exact hop.elim

section

variable {M : Mount} {care : Care} {s : State} {o : Objs} {d : Nat → Block} {b : Block}
  {E : Fault → Prop} {host : VinodeOps}

/-- What a call leaves, when the directories still fit into their blocks. -/
theorem Op.exec_post (h : Holds s o d b []) (hi : Inv M o d) (hok : op.Guard M care o d)
    : Post (op.exec host) s (fun _ s' => ∃ o' d', Ends s' o' d' [] ∧
      (o'.DirCap → Steps M care (o, d) (o', d'))) NoAssert := by
  cases op with
  | «open» path flags =>
      obtain ⟨tokens, hp, hstop, -⟩ := hok
      refine .bind (vfsOpen_post care h hi hp hstop) ?_
      rintro _ _ ⟨o', d', hend, hsteps, -⟩
      exact .pure ⟨o', d', hend, hsteps⟩
  | read file count stack =>
      refine .bind (vfsRead_post care h hi hok) ?_
      rintro _ _ ⟨o', hend, hsteps⟩
      exact .pure ⟨o', d, hend, fun _ => hsteps⟩
  | write file buf =>
      refine (vfsWrite_post h hi hok.2 hok.1).mono ?_
      rintro _ _ ⟨o', d', hend, hsteps⟩
      exact ⟨o', d', hend, fun _ => hsteps⟩
  | lseek file offset whence =>
      refine (vfsLseek_post care h hi hok).mono ?_
      rintro _ _ ⟨o', hend, hsteps⟩
      exact ⟨o', d, hend, fun _ => hsteps⟩
  | close file =>
      refine (vfsClose_post h hi).mono ?_
      rintro _ _ ⟨o', d', hend, ⟨-, rfl, rfl⟩ | ⟨-, f, x, v, hf, hx, hv, hfile, hc⟩⟩
      · exact ⟨_, _, hend, fun _ => .refl⟩
      · exact ⟨o', d', hend, fun _ => hc.steps_close hi hf hx hv hfile
          (fun hc => hok.2.2 hc f hf) hok.1 hok.2.1⟩
  | link oldpath newpath =>
      obtain ⟨⟨old, hp, hstop, -⟩, hnew⟩ := hok
      obtain ⟨new, hnew⟩ : ∃ new, LeadsToFile d old → RfsPath newpath new ∧ StopDir d 0 new := by
        by_cases hfile : LeadsToFile d old
        · obtain ⟨new, hpath⟩ := hnew ⟨old, hp, hfile⟩
          exact ⟨new, fun _ => hpath⟩
        · exact ⟨[], fun h => absurd h hfile⟩
      refine (vfsLink_post care h hi hp hstop hnew).mono ?_
      rintro _ _ ⟨o', d', hend, hsteps, -⟩
      exact ⟨o', d', hend, hsteps⟩
  | unlink path =>
      obtain ⟨tokens, hp, hstop, -⟩ := hok
      refine (vfsUnlink_post care h hi hp hstop).mono ?_
      rintro _ _ ⟨o', d', hend, hsteps, -⟩
      exact ⟨o', d', hend, fun _ => hsteps⟩
  | mkdir path =>
      obtain ⟨tokens, hp, hstop, hdir⟩ := hok
      refine (vfsMkdir_post h hi hp hstop hdir).mono ?_
      rintro _ _ ⟨o', d', hend, hsteps, -⟩
      exact ⟨o', d', hend, hsteps⟩
  | opendir path =>
      obtain ⟨hmay, tokens, hp, hstop, -⟩ := hok
      refine .bind (vfsOpendir_post care h hi hp hstop hmay) ?_
      rintro _ _ ⟨o', hend, hsteps, -⟩
      exact .pure ⟨o', d, hend, fun _ => hsteps⟩
  | readdir file =>
      refine .bind (vfsReaddir_post care h hi hok.2 hok.1) ?_
      rintro _ _ ⟨o', hend, hsteps⟩
      exact .pure ⟨o', d, hend, fun _ => hsteps⟩
  | closedir file =>
      refine (vfsClosedir_post h hi hok.2.2.1 hok.2.2.2.1 hok.2.2.2.2 hok.1 hok.2.1).mono ?_
      rintro _ _ ⟨o', hend, hsteps⟩
      exact ⟨o', d, hend, fun _ => hsteps⟩
  | mount devName mntType =>
      refine .bind (vfsMount_post care h hi hok) ?_
      rintro _ _ ⟨o', hend, hsteps⟩
      exact .pure ⟨o', d, hend, fun _ => hsteps⟩

end

/-! ## Runs -/

/-- No directory in memory has more entries than its block. -/
def State.DirCap (s : State) : Prop :=
  ∀ k < s.freeMemEnd / pgSize + 1, ∀ v ∈ s.vinode (k * pgSize), v.iOps = .rfs →
    v.type = dirI → v.size ≤ rfsBlksize

/-- A call that is made under the condition `ok`, that returns, and that leaves
no directory with more entries than its block. -/
def Call (host : VinodeOps) (ok : State → Op → Prop) (s s' : State) : Prop :=
  ∃ op r, ok s op ∧ op.exec host s = .ok (r, s') ∧ s'.DirCap

/-- The states that are reached by such calls. -/
abbrev Run (host : VinodeOps) (ok : State → Op → Prop) : State → State → Prop :=
  Reaches (Call host ok)

/-- A state between two calls: memory is in order, and so is the file system. -/
structure Sound (M : Mount) (s : State) : Prop where
  holds : Ends s s.objs s.disk []
  inv : Inv M s.objs s.disk

theorem Ends.here (h : Ends s o d []) : s.objs = o ∧ s.disk = d ∧ Ends s s.objs s.disk [] := by
  obtain ⟨b, h⟩ := h
  exact ⟨h.objs, h.disk, b, by rw [h.objs, h.disk]; exact h⟩

theorem State.DirCap.objs (h : s.DirCap) (hm : MemInv s) : s.objs.DirCap := by
  intro w v hw hrfs hdir
  have hpage : s.pages w = .vinode v := vinodeKind.eq_inj hw
  obtain ⟨hmod, -, hlt⟩ := hm.ok (vinodeKind.used hpage) fun f hf => by rw [hpage] at hf; cases hf
  have hk : w / pgSize * pgSize = w := Nat.div_mul_cancel (Nat.dvd_of_mod_eq_zero hmod)
  refine h (w / pgSize) ?_ v (by rw [hk]; exact hw) hrfs hdir
  exact Nat.lt_succ_of_le (Nat.div_le_div_right (Nat.le_of_lt hlt))

section

variable {M : Mount} {care : Care} {host : VinodeOps} {s s' : State} {ok : State → Op → Prop}

theorem Sound.exec {r : Int} (hs : Sound M s) (hg : op.Guard M care s.objs s.disk)
    (hrun : op.exec host s = .ok (r, s')) (hcap : s'.DirCap) :
    Sound M s' ∧ Steps M care (s.objs, s.disk) (s'.objs, s'.disk) := by
  obtain ⟨b, h⟩ := hs.holds
  obtain ⟨o', d', hend, hsteps⟩ := (Op.exec_post h hs.inv hg).of_ok hrun
  obtain ⟨rfl, rfl, hend'⟩ := hend.here
  have hst := hsteps (hcap.objs hend'.choose_spec.mem)
  exact ⟨⟨hend', hst.inv hs.inv⟩, hst⟩

/-- No assertion fails in a call. -/
theorem Sound.exec_error {e : Fault} (hs : Sound M s) (hg : op.Guard M care s.objs s.disk)
    (hrun : op.exec host s = .error e) : NoAssert e := by
  obtain ⟨b, h⟩ := hs.holds
  exact (Op.exec_post h hs.inv hg).of_error hrun

/-- A run of calls under a condition that gives the promises where `P` holds,
when every change keeps `P`. -/
theorem Run.keeps {P : Sys → Prop}
    (hok : ∀ s op, Sound M s → P (s.objs, s.disk) → ok s op → op.Guard M care s.objs s.disk)
    (hstep : ∀ {o d o' d'}, Inv M o d → P (o, d) → Change M care o d o' d' → P (o', d'))
    (hs : Sound M s) (hP : P (s.objs, s.disk)) (hrun : Run host ok s s') :
    Sound M s' ∧ P (s'.objs, s'.disk) ∧ Steps M care (s.objs, s.disk) (s'.objs, s'.disk) := by
  induction hrun with
  | refl => exact ⟨hs, hP, .refl⟩
  | tail _ hcall ih =>
      obtain ⟨hs1, hP1, hsteps⟩ := ih
      obtain ⟨op, r, hop, hrun, hcap⟩ := hcall
      obtain ⟨hs', hmore⟩ := hs1.exec (hok _ op hs1 hP1 hop) hrun hcap
      exact ⟨hs', hmore.keeps hs1.inv hP1 hstep, hsteps.trans hmore⟩

theorem Run.steps (hok : ∀ s op, ok s op → op.Guard M care s.objs s.disk) (hs : Sound M s)
    (hrun : Run host ok s s') :
    Sound M s' ∧ Steps M care (s.objs, s.disk) (s'.objs, s'.disk) := by
  obtain ⟨hs', -, hsteps⟩ := hrun.keeps (P := fun _ => True) (fun s op _ _ => hok s op)
    (fun _ _ _ => trivial) hs trivial
  exact ⟨hs', hsteps⟩

end

/-! ## Runs from boot -/

/-- Where RFS is mounted: it is the second file system, below the root. -/
def State.mount (s : State) : Mount where
  sb := s.vfsSbList.getD 1 0
  root := s.vfsRootDentry
  rfsRoot := ((s.objs.findD ⟨s.vfsRootDentry, ramdiskName⟩).map (·.value)).getD 0

/-- The state `fs_init` leaves. -/
def Boot.Starts (b : Boot) (s : State) : Prop := fsInit b.stack b.init = .ok ((), s)

theorem Boot.Starts.booted (h : b.Starts s) :
    Ends s s.objs s.disk [] ∧ Booted s.mount s.objs s.disk := by
  obtain ⟨M, o, d, hend, hb, -⟩ := (fsInit_post b).of_ok h
  obtain ⟨rfl, rfl, hend'⟩ := hend.here
  have hmount : s.mount = M := by
    obtain ⟨x, v, hx, -, -, -, hkey⟩ := hb.inv.tree.rfsD
    obtain ⟨e, he, hval⟩ := hb.inv.cache.dhashed _ _ hx
    have hroot : s.vfsRootDentry = M.root := hb.inv.tree.root
    have hsb : s.vfsSbList.getD 1 0 = M.sb := by
      rw [List.getD_eq_getElem?_getD, show s.vfsSbList[1]? = some M.sb from hb.sbList]
      rfl
    rw [hkey] at he
    rw [State.mount, hroot, hsb, he, Option.map_some, Option.getD_some, hval]
  exact ⟨hend', hmount ▸ hb⟩

theorem Boot.Starts.spike (h : b.Starts s) : s.spike = .boot b.host := by
  obtain ⟨M, o, d, hend, -, hspike⟩ := (fsInit_post b).of_ok h
  obtain ⟨rfl, -, -⟩ := hend.here
  exact hspike

theorem Boot.Starts.sound (h : b.Starts s) : Sound s.mount s :=
  ⟨h.booted.1, h.booted.2.inv⟩

end Pke
