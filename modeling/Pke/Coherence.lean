import Pke.DirSessions

/-!
# The cache agrees with the disk

A path that is looked up through the two tables leads where it leads on
disk (`lookup_agrees`), and the count of references of a vinode is the
number of its names in the table (`refs_exact`). Both rest on the
invariant and hold as long as the calls keep their promises; the ones
the code does not check are that `vfs_closedir` does not free a copy that
has been freed, that `vfs_link` makes names in directories only, and that
`vfs_mount` does not mount below a name that is taken.
-/

namespace Pke

open Exec (Post)

/-! ## Looking up a path -/

/-- Where the names `tokens` lead on disk, from the root directory: the last
inode that is reached, and the names that are left. -/
def resolve (d : Nat → Block) (tokens : List Name) : Int × List Name := walk (dirEnts d) 0 tokens

/-- The dentry at `t` is of inode `n` of RFS. -/
def State.DentryOf (s : State) (t : Ptr) (n : Int) : Prop :=
  ∃ x v, s.dentry t = some x ∧ s.vinode x.dentryInode = some v ∧ v.iOps = .rfs ∧ v.inum = n

/-- What `lookup_final_dentry` returns agrees with the disk: the dentry of the
inode the path leads to, or the first name that is missing and the dentry of
the directory it is missing in. -/
structure LooksUp (d : Nat → Block) (tokens : List Name) (r : LookupResult) (s : State) : Prop where
  found : ∀ n, resolve d tokens = (n, []) → ∃ t, r.dentry = some t ∧ s.DentryOf t n
  missing : ∀ n token rest, resolve d tokens = (n, token :: rest) →
    r.dentry = none ∧ r.missName = token ∧ s.DentryOf r.parent n

/-- Looking up a path none of whose proper prefixes is a file agrees with the
disk, unless memory is exhausted. -/
def LookupAgrees (host : VinodeOps) (s : State) : Prop :=
  ∀ path tokens, RfsPath path tokens → path.bytes.length < maxPathLen → StopDir s.disk 0 tokens →
    Post (lookupFinalDentry host path) s (fun r s' => LooksUp s.disk tokens r s') (· = .nullPage)

theorem Sound.lookupAgrees {M : Mount} {host : VinodeOps} {s : State} (hs : Sound M s) :
    LookupAgrees host s := by
  intro path tokens hp hlen hdir
  obtain ⟨b, h⟩ := hs.holds
  refine (lookupFinalDentry_post (E := (· = .nullPage)) .none h hs.inv hp
    hdir.stopOk rfl fun hlong => absurd hlen hlong).mono ?_
  rintro r s' ⟨-, o', hend, hr⟩
  obtain ⟨rfl, -⟩ := hend.here
  constructor
  · intro n hn
    obtain ⟨t, x, v, ht, hx, hv, hrfs, hnum, -⟩ := hr.found n hn
    exact ⟨t, ht, x, v, hx, hv, hrfs, hnum⟩
  · intro n token rest hn
    obtain ⟨hnone, hmiss, x, v, hx, hv, hrfs, hnum⟩ := hr.missing n token rest hn
    exact ⟨hnone, hmiss, x, v, hx, hv, hrfs, hnum⟩

/-- The calls on files and names, and the opening and closing of directories. -/
def Op.OnNames : Op → Prop
  | .readdir _ | .mount _ _ => False
  | _ => True

/-- The copy the call frees has not been freed before. -/
def Op.ClosesCopied (o : Objs) : Op → Prop
  | .closedir file => o.CloseDirOk file
  | _ => True

/-- Calls by paths that do not go through files. -/
def NameCalls (s : State) (op : Op) : Prop := op.OnNames ∧ op.DirPaths s.disk

/-- The same, with the copy of a directory freed once. -/
def CopyCalls (s : State) (op : Op) : Prop := NameCalls s op ∧ op.ClosesCopied s.objs

theorem CopyCalls.guard (M : Mount) (s : State) (op : Op) (h : CopyCalls s op) :
    op.Guard M ⟨False, True, False, False, False⟩ s.objs s.disk := by
  obtain ⟨⟨hop, hpaths⟩, hcopied⟩ := h
  cases op with
  | «open» | unlink | mkdir => exact DirPath.pathOk hpaths
  | opendir => exact ⟨id, DirPath.pathOk hpaths⟩
  | link => exact ⟨hpaths.1.pathOk, hpaths.2⟩
  | read | lseek => exact id
  | write => exact ⟨id, False.elim⟩
  | close => exact ⟨id, id, False.elim⟩
  | closedir => exact ⟨id, id, hcopied, False.elim, False.elim⟩
  | readdir | mount => exact hop.elim

theorem lookup_agrees {b : Boot} {host : VinodeOps} {s0 s : State} (h0 : b.Starts s0)
    (hrun : Run host CopyCalls s0 s) : LookupAgrees host s :=
  (hrun.steps (CopyCalls.guard s0.mount) h0.sound).1.lookupAgrees

instance (o : Objs) (base : Ptr) (n i : Nat) : Decidable (o.Cached base n i) :=
  decidable_of_iff (∀ j < i + n, i ≤ j → (o.dirBlock (base + j * 4096)).isSome = true) <| by
    simp only [Objs.Cached, Option.isSome_iff_exists]
    exact ⟨fun h j hi hj => h j hj hi, fun h j hj hi => h j hi hj⟩

instance (o : Objs) (file : Ptr) : Decidable (o.CloseDirOk file) :=
  inferInstanceAs (Decidable (∀ f ∈ o.file file, ∀ x ∈ o.dentry f.fDentry,
    ∀ v ∈ o.vinode x.dentryInode, v.type = dirI → v.iOps = .rfs ∧
      ∀ c ∈ o.dirCache v.iFsInfo, o.Cached c.dirBaseAddr c.blockCount.toNat 0))

instance : (op : Op) → Decidable op.OnNames
  | .readdir _ | .mount _ _ => .isFalse id
  | .open _ _ | .read _ _ _ | .write _ _ | .lseek _ _ _ | .close _ | .link _ _ | .unlink _
  | .mkdir _ | .opendir _ | .closedir _ => .isTrue trivial

instance (o : Objs) : (op : Op) → Decidable (op.ClosesCopied o)
  | .closedir file => inferInstanceAs (Decidable (o.CloseDirOk file))
  | .open _ _ | .read _ _ _ | .write _ _ | .lseek _ _ _ | .close _ | .link _ _ | .unlink _
  | .mkdir _ | .opendir _ | .readdir _ | .mount _ _ => .isTrue trivial

instance (s : State) (op : Op) : Decidable (NameCalls s op) :=
  inferInstanceAs (Decidable (_ ∧ _))

instance (s : State) (op : Op) : Decidable (CopyCalls s op) :=
  inferInstanceAs (Decidable (_ ∧ _))

/-- The name of a file is found again after the file and the directory have been
closed. -/
theorem lookup_agrees_closed : ∃ s, Run noHost CopyCalls smallBoot.state s ∧
    DirPath s.disk pathA ∧ (resolve s.disk [[97]]).2 = [] ∧ LookupAgrees noHost s := by
  obtain ⟨s, hrun, hfound⟩ := run_with noHost CopyCalls
    [.open pathA rdwrCreat, .close 81920, .opendir pathRoot, .closedir 61440] smallBoot.state
    (fun s => checkPath s.disk pathA && (resolve s.disk [[97]]).2 == []) (by decide +kernel)
  obtain ⟨hpath, hend⟩ := (Bool.and_eq_true _ _).mp hfound
  exact ⟨s, hrun, checkPath_iff.mp hpath, beq_iff_eq.mp hend,
    lookup_agrees (Boot.starts smallBoot_boots) hrun⟩

/-- After the copy of a directory has been freed twice, the pages of a lookup are
handed out twice. -/
theorem lookup_disagrees : ∃ s, Run noHost NameCalls smallBoot.state s ∧
    ¬LookupAgrees noHost s := by
  obtain ⟨s, hrun, hfault⟩ := run_with noHost NameCalls
    [.open pathA rdwrCreat, .close 81920, .opendir pathRoot, .opendir pathRoot, .closedir 61440,
      .closedir 69632] smallBoot.state
    (fun s => checkPath s.disk pathA && match lookupFinalDentry noHost pathA s with
      | .error (.ub _) => true
      | _ => false) (by decide +kernel)
  obtain ⟨hpath, hub⟩ := (Bool.and_eq_true _ _).mp hfault
  obtain ⟨tokens, hp, hdir⟩ := checkPath_iff.mp hpath
  refine ⟨s, hrun, fun hagree => ?_⟩
  have hpost := hagree pathA tokens hp (by decide) hdir
  split at hub
  · rename_i what herr
    have hnull := hpost.of_error herr
    cases hnull
  · cases hub

/-! ## Counting references -/

/-- The paths of the call are below the mount point. -/
def Op.RfsPaths : Op → Prop
  | .open path _ | .unlink path | .mkdir path | .opendir path => ∃ tokens, RfsPath path tokens
  | .link oldpath newpath =>
      (∃ tokens, RfsPath oldpath tokens) ∧ ∃ tokens, RfsPath newpath tokens
  | .read _ _ _ | .write _ _ | .lseek _ _ _ | .close _ | .readdir _ | .closedir _
  | .mount _ _ => True

/-- The count of references of every vinode in the table is the number of
dentries in the table that point to it. -/
def RefsExact (s : State) : Prop :=
  ∀ e ∈ s.objs.vinodes, ∀ v, s.vinode e.value = some v → v.ref = s.objs.refCount e.value

/-- Calls that keep the promises the code does not check: no path goes on below
a file that has an entry for the next name, `vfs_link` makes a name in a
directory, `vfs_closedir` frees a copy that has not been freed, and `vfs_mount`
takes a name that is not taken. -/
def CountedCalls (M : Mount) (s : State) (op : Op) : Prop :=
  op.Guard M .none s.objs s.disk

theorem counted_of_files {host : VinodeOps} {s s' : State} (M : Mount)
    (h : Run host FileCalls s s') : Run host (CountedCalls M) s s' :=
  h.mono fun _ _ ⟨op, r, hop, hcall⟩ => ⟨op, r, FileCalls.guard _ _ id id id _ op hop, hcall⟩

theorem refs_exact {b : Boot} {host : VinodeOps} {s0 s : State} (h0 : b.Starts s0)
    (hrun : Run host (CountedCalls s0.mount) s0 s) : RefsExact s ∧
      ∀ op cond, CountedCalls s0.mount s op → op.exec host s ≠ .error (.assertion cond) := by
  obtain ⟨hs, -⟩ := hrun.steps (fun _ _ hop => hop) h0.sound
  refine ⟨fun e _ v hv => hs.inv.cache.ref e.value v hv, fun op cond hop herr => ?_⟩
  exact hs.exec_error hop herr cond rfl

instance (path : Path) : Decidable (∃ tokens, RfsPath path tokens) :=
  match h : path.tokens with
  | [] => .isFalse fun ⟨_, hp⟩ => by
      rw [RfsPath, h] at hp
      cases hp
  | first :: tokens =>
      if heq : first = ramdiskName then .isTrue ⟨tokens, by rw [RfsPath, h, heq]⟩
      else .isFalse fun ⟨_, hp⟩ => heq (by
        rw [RfsPath, h] at hp
        exact (List.cons.inj hp).1)

instance : (op : Op) → Decidable op.RfsPaths
  | .open path _ | .unlink path | .mkdir path | .opendir path =>
      inferInstanceAs (Decidable (∃ tokens, RfsPath path tokens))
  | .link oldpath newpath =>
      inferInstanceAs (Decidable ((∃ tokens, RfsPath oldpath tokens) ∧
        ∃ tokens, RfsPath newpath tokens))
  | .read _ _ _ | .write _ _ | .lseek _ _ _ | .close _ | .readdir _ | .closedir _
  | .mount _ _ => .isTrue trivial

/-- A file with two names, one of them open. -/
theorem refs_exact_two : ∃ s, Run noHost (CountedCalls smallBoot.state.mount) smallBoot.state s ∧
    s.objs.refCount 61440 = 2 ∧ RefsExact s := by
  obtain ⟨s, hrun, htwo⟩ := run_with noHost FileCalls
    [.open pathA rdwrCreat, .link pathA pathB, .open pathB 2] smallBoot.state
    (fun s => s.objs.refCount 61440 == 2) (by decide +kernel)
  have hrun' := counted_of_files smallBoot.state.mount hrun
  exact ⟨s, hrun', beq_iff_eq.mp htwo, (refs_exact (Boot.starts smallBoot_boots) hrun').1⟩

/-- `"/RAMDISK0/a/x"`. -/
def pathAX : Path := ⟨slash :: ramdiskName ++ [slash, 97, slash, 120], by decide⟩

/-- A link that is refused because `a` is a file leaves a reference behind, and
the file cannot be unlinked any more. -/
theorem refs_leak : ∃ s, Run noHost (fun _ op => op.RfsPaths) smallBoot.state s ∧ ¬RefsExact s ∧
    (Op.unlink pathB).RfsPaths ∧ (Op.unlink pathB).exec noHost s =
      .error (.assertion "unlinked_vinode->ref == 0") := by
  obtain ⟨s, hrun, hleak⟩ := run_with noHost (fun _ op => op.RfsPaths)
    [.open pathA rdwrCreat, .open pathB rdwrCreat, .link pathB pathAX, .close 110592]
    smallBoot.state (fun s => (s.objs.vinodes.any fun e => (s.vinode e.value).any
      fun v => v.ref != (s.objs.refCount e.value : Int)) &&
      match (Op.unlink pathB).exec noHost s with
      | .error e => e == .assertion "unlinked_vinode->ref == 0"
      | .ok _ => false) (by decide +kernel)
  obtain ⟨hne, hfault⟩ := (Bool.and_eq_true _ _).mp hleak
  refine ⟨s, hrun, fun hexact => ?_, by decide, ?_⟩
  · obtain ⟨e, he, hv⟩ := List.any_eq_true.mp hne
    obtain ⟨v, hv, href⟩ := (Option.any_eq_true _ _).mp hv
    exact bne_iff_ne.mp href (hexact e he v hv)
  · split at hfault
    · rename_i e herr
      rw [herr, beq_iff_eq.mp hfault]
    · cases hfault

end Pke
