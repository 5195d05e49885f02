import Pke.Seek

/-!
# Paths of the host and their buffers

The path the host is asked for is put together from the names of the
dentries up to the root, behind the directory the host file system lives
in. The names are those of the path the user gave, one dentry for each
component of it (`lookupFinalDentry_chain`). The path has room in a buffer
of `MAX_PATH_LEN` bytes; with the directory in front the names need not have
room in the next one (`host_path_iff`).
-/

namespace Pke

open Exec (Post)

section

variable {s s' : State} {t : Ptr} {names : List Name}

/-! ## The dentries of a path -/

/-- The dentry a lookup or a creation makes for the next name. -/
theorem allocVfsDentry_chain {this : Ptr} {token : Name} (h : DentryChain s this names)
    (h0 : this ≠ 0) :
    Post (allocVfsDentry token 0 this) s (fun t s' => DentryChain s' t (names ++ [token]))
      AnyFault := by
  refine (Fetched.refl s).allocVfsDentry.mono ?_
  rintro t s1 ⟨-, -, hdentry, h1⟩
  exact (h.frame fun _ _ hy => Kept.dentry h1.toFrame hy).child h0 hdentry rfl

/-- The dentry that `lookup_final_dentry` returns is reached from the root by the components of
the path. The chain grows by one name with each of them (`Sought.step`), whether its dentry was in
the table or is new. -/
theorem lookupFinalDentry_chain {fs : Ptr → FsType} {path : Path} (hok : CacheOk fs s) :
    Post (lookupFinalDentry hostfsIOps path) s
      (fun r s' => ∀ t, r.dentry = some t → DentryChain s' t path.tokens) AnyFault := by
  refine (lookupFinalDentry_looked hok).mono ?_
  rintro r s' ⟨k, rest, hseek, hlooked⟩ t ht
  have hnames := State.seek_names hseek
  cases rest with
  | nil =>
      obtain ⟨t', ht', hmet⟩ := hlooked
      obtain rfl := Option.some.inj (ht.symm.trans ht')
      rw [List.append_nil] at hnames
      exact hnames ▸ hmet.chain
  | cons token rest =>
      rw [hlooked.1] at ht
      cases ht

/-! ## The path -/

theorem length_pathString (names : List Name) :
    (pathString names).length = (names.map fun name => name.length + 1).sum := by
  simp [pathString, List.length_flatMap]

theorem length_le_pathString (names : List Name) : names.length ≤ (pathString names).length := by
  induction names with
  | nil => simp
  | cons name rest ih =>
      have hcons : pathString (name :: rest) = slash :: (name ++ pathString rest) := rfl
      rw [hcons, List.length_cons, List.length_cons, List.length_append]
      omega

/-- With room to recurse, `path_backtrack` appends the names of the chain. -/
theorem pathBacktrack_chain (h : DentryChain s t names) : ∀ {depth : Nat}, names.length < depth →
    pathBacktrack depth t s = .ok (pathString names, s) := by
  induction h with
  | @root t x ht hroot =>
      intro depth hdepth
      obtain ⟨n, rfl⟩ := Nat.exists_eq_succ_of_ne_zero (Nat.ne_of_gt hdepth)
      rw [pathBacktrack, Exec.bind_of_ok (getDentry_run ht), if_pos hroot]
      rfl
  | @kid t x names ht hkid _ ih =>
      intro depth hdepth
      obtain ⟨n, rfl⟩ := Nat.exists_eq_succ_of_ne_zero (Nat.ne_of_gt (Nat.zero_lt_of_lt hdepth))
      rw [List.length_append, List.length_singleton] at hdepth
      rw [pathBacktrack, Exec.bind_of_ok (getDentry_run ht), if_neg hkid, Exec.bind_of_ok (ih (by omega)),
        pathString_snoc]
      rfl

end

/-- The path of the dentry of `p` is put together, in its buffer. -/
def HostPathExact (s : State) (t : Ptr) (p : Path) : Prop :=
  getPathString t s = .ok (hRootDir ++ pathString p.tokens, s) ∧
    (hRootDir ++ pathString p.tokens).length + 1 ≤ maxPathLen

theorem DentryChain.path_iff {s : State} {t : Ptr} {p : Path} (h : DentryChain s t p.tokens) :
    HostPathExact s t p ↔
      hRootDir.length + (p.tokens.map fun name => name.length + 1).sum + 1 ≤ maxPathLen := by
  rw [← length_pathString, ← List.length_append]
  constructor
  · exact fun hexact => hexact.2
  · intro hfits
    have hshort : p.tokens.length < maxPathLen := by
      have := length_le_pathString p.tokens
      rw [List.length_append] at hfits
      omega
    refine ⟨?_, hfits⟩
    rw [getPathString, Exec.bind_of_ok (pathBacktrack_chain h hshort),
      if_pos (Nat.lt_of_succ_le hfits)]
    rfl

/-- The path is exact and has room exactly when the names are short enough for the
directory in front of them. -/
theorem host_path_iff {s : State} {t : Ptr} {p : Path} (h : DentryChain s t p.tokens) :
    HostPathExact s t p ↔
      hRootDir.length + (p.tokens.map fun name => name.length + 1).sum + 1 ≤ maxPathLen :=
  h.path_iff

/-- Of the dentry a lookup has returned. -/
theorem lookup_path_iff {fs : Ptr → FsType} {s s' : State} {p : Path} {r : LookupResult} {t : Ptr}
    (hok : CacheOk fs s) (hrun : lookupFinalDentry hostfsIOps p s = .ok (r, s'))
    (ht : r.dentry = some t) : HostPathExact s' t p ↔
      hRootDir.length + (p.tokens.map fun name => name.length + 1).sum + 1 ≤ maxPathLen :=
  ((lookupFinalDentry_chain hok).of_ok hrun t ht).path_iff

/-- A path of one name of `n` letters. -/
def longPath (n : Nat) : Path := ⟨slash :: List.replicate n 97, by
  rw [List.mem_cons, List.mem_replicate]
  simp [slash]⟩

/-- The dentry a lookup after boot makes below the root. -/
theorem chain_smallBoot (token : Name) (hmade : endsWith (allocVfsDentry token 0
    smallBoot.state.vfsRootDentry) smallBoot.state (fun _ _ => true) = true) :
    ∃ t s, allocVfsDentry token 0 smallBoot.state.vfsRootDentry smallBoot.state = .ok (t, s) ∧
      DentryChain s t [token] := by
  obtain ⟨h0, x, -, hx, hroot, -⟩ := (Boot.starts smallBoot_boots).sound.cacheOk.root
  cases hrun : allocVfsDentry token 0 smallBoot.state.vfsRootDentry smallBoot.state with
  | error e =>
      rw [endsWith, hrun] at hmade
      cases hmade
  | ok r => exact ⟨r.1, r.2, rfl, (allocVfsDentry_chain (.root hx hroot) h0).of_ok hrun⟩

/-- A name of fifteen letters has room: the path of the dentry its lookup returns is exact. -/
theorem host_path_iff_fifteen : ∃ r t s,
    lookupFinalDentry hostfsIOps (longPath 15) smallBoot.state = .ok (r, s) ∧ r.dentry = some t ∧
    DentryChain s t (longPath 15).tokens ∧ HostPathExact s t (longPath 15) := by
  have hfound : endsWith (lookupFinalDentry hostfsIOps (longPath 15)) smallBoot.state
      (fun r _ => r.dentry.isSome) = true := by decide +kernel
  cases hrun : lookupFinalDentry hostfsIOps (longPath 15) smallBoot.state with
  | error e =>
      rw [endsWith, hrun] at hfound
      cases hfound
  | ok q =>
      have hsome := endsWith_ok hfound hrun
      obtain ⟨t, ht⟩ := Option.isSome_iff_exists.mp hsome
      have hchain := (lookupFinalDentry_chain
        (Boot.starts smallBoot_boots).sound.cacheOk).of_ok hrun t ht
      have htokens : (longPath 15).tokens = [List.replicate 15 97] := by decide
      exact ⟨q.1, t, q.2, rfl, ht, hchain, (host_path_iff hchain).mpr (by rw [htokens]; decide)⟩

/-- How a call fails. -/
def faultOf {α : Type} (x : Kern α) (s : State) : Option Fault :=
  match x s with
  | .ok _ => none
  | .error e => some e

theorem error_of_faultOf {α : Type} {x : Kern α} {s : State} {e : Fault} (h : faultOf x s = some e) :
    x s = .error e := by
  unfold faultOf at h
  split at h
  · cases h
  · rw [← Option.some.inj h]
    assumption

/-- A path of seventeen characters, one name of sixteen letters below the root: its lookup
writes past the buffer. -/
theorem host_path_overflows : (longPath 16).bytes.length < maxPathLen ∧
    (∃ t s, DentryChain s t (longPath 16).tokens ∧ ¬HostPathExact s t (longPath 16)) ∧
    lookupFinalDentry hostfsIOps (longPath 16) smallBoot.state = .error (.ub "path") := by
  have htokens : (longPath 16).tokens = [List.replicate 16 97] := by decide
  obtain ⟨t, s, -, hchain⟩ := chain_smallBoot (List.replicate 16 97) (by decide)
  rw [← htokens] at hchain
  refine ⟨by decide, ⟨t, s, hchain, fun hexact => ?_⟩, error_of_faultOf (by decide)⟩
  have hlen := hexact.2
  rw [htokens] at hlen
  exact absurd hlen (by decide)

end Pke
