import Pke.Coherence

/-!
# Creating a path

`vfs_open` with `O_CREAT`, `vfs_mkdir` and `vfs_link` make a name when
the lookup of the path has failed and the name it failed at is the last
component of the path. The two names are compared, not their places: a
path whose last component is also the name of a missing directory of it
is taken for one that only misses its end, and the name is made where
the walk stopped (`Creates`).

`creates_its_path_iff` says when the call has made the path it was asked
to make: when the walk stops at the last component, in a directory that
has room for the entry.
-/

namespace Pke

open Exec (Post)

/-! ## Walks and new entries -/

section

variable {ents : Int → List (Int × Name)}

/-- A walk that misses only the last name. -/
theorem walk_last : ∀ {tokens : List Name} {k m : Int} {token : Name},
    walk ents k tokens = (m, [token]) → ∃ init, tokens = init ++ [token] ∧
      walk ents k init = (m, []) ∧ entryOf (ents m) token = none
  | [], k, m, token, h => by simp [walk] at h
  | a :: rest, k, m, token, h => by
      rw [walk] at h
      cases hent : entryOf (ents k) a with
      | none =>
          simp only [hent, Prod.mk.injEq, List.cons.injEq] at h
          obtain ⟨rfl, rfl, rfl⟩ := h
          exact ⟨[], rfl, rfl, hent⟩
      | some k' =>
          rw [hent] at h
          obtain ⟨init, rfl, hinit, hnone⟩ := walk_last h
          exact ⟨a :: init, rfl, by rw [walk, hent]; exact hinit, hnone⟩

theorem walk_append : ∀ {init rest : List Name} {k m : Int}, walk ents k init = (m, []) →
    walk ents k (init ++ rest) = walk ents m rest
  | [], rest, k, m, h => by
      obtain rfl : k = m := congrArg Prod.fst h
      rfl
  | a :: init, rest, k, m, h => by
      rw [walk] at h
      cases hent : entryOf (ents k) a with
      | none => simp [hent] at h
      | some k' =>
          rw [hent] at h
          rw [List.cons_append, walk, hent]
          exact walk_append h

theorem entryOf_append_some {l : List (Int × Name)} {e : Int × Name} {name : Name} {n : Int}
    (h : entryOf l name = some n) : entryOf (l ++ [e]) name = some n := by
  unfold entryOf at h ⊢
  cases hfind : l.find? fun e => e.2 = name with
  | none => simp [hfind] at h
  | some e' => simpa [List.find?_append, hfind] using h

theorem entryOf_append_none {l : List (Int × Name)} {name : Name} {n : Int}
    (h : entryOf l name = none) : entryOf (l ++ [(n, name)]) name = some n := by
  have hfind : l.find? (fun e => e.2 = name) = none := Option.map_eq_none_iff.mp h
  simp [entryOf, List.find?_append, hfind]

/-- A new entry does not change where the names lead that were there. -/
theorem walk_upd_append {p : Int} {e : Int × Name} : ∀ {init : List Name} {k m : Int},
    walk ents k init = (m, []) → walk (upd ents p (ents p ++ [e])) k init = (m, [])
  | [], k, m, h => h
  | a :: init, k, m, h => by
      rw [walk] at h ⊢
      cases hent : entryOf (ents k) a with
      | none => simp [hent] at h
      | some k' =>
          rw [hent] at h
          have hnew : entryOf (upd ents p (ents p ++ [e]) k) a = some k' := by
            by_cases hk : k = p
            · subst hk
              rw [upd_self]
              exact entryOf_append_some hent
            · rw [upd_ne hk, hent]
          rw [hnew]
          exact walk_upd_append h

end

/-! ## The calls that create -/

inductive Creation where
  | «open» (flags : Nat)
  | mkdir
  | link (oldpath : Path)

namespace Creation

/-- The call has made something: `vfs_open` a file under a path that did not
exist, `vfs_mkdir` and `vfs_link` what they return 0 for. -/
def Makes (host : VinodeOps) (path : Path) (tokens : List Name) (s s' : State) : Creation → Prop
  | .open flags => flags &&& oCreat ≠ 0 ∧ (walk (dirEnts s.disk) 0 tokens).2 ≠ [] ∧
      ∃ file, vfsOpen host path flags s = .ok (some file, s')
  | .mkdir => vfsMkdir host path s = .ok (0, s')
  | .link oldpath => vfsLink host oldpath path s = .ok (0, s')

/-- The inode the new name should stand for: one that was free, or the one of
the old name. -/
def Target (d : Nat → Block) (n : Int) : Creation → Prop
  | .open _ | .mkdir => (diskInode d n).type = rFree
  | .link oldpath => ∃ old, RfsPath oldpath old ∧ walk (dirEnts d) 0 old = (n, [])

/-- The old name is looked for below the mount point, and not in a file that
has it in its data. -/
def OldOk (M : Mount) (s : State) : Creation → Prop
  | .open _ | .mkdir => True
  | .link oldpath => PathOk M .none s.objs s.disk oldpath

end Creation

/-- The entries in the block of directory `n`. -/
def blockEnts (d : Nat → Block) (n : Int) : List (Int × Name) := (dirEnts d n).take 128

/-- All of the path but its end was there, exactly one entry has been added,
for `n` under the last name of the path where the rest of it leads to, and the
path now stands for `n`. -/
structure CreatedAt (host : VinodeOps) (path : Path) (tokens : List Name) (s s' : State) (n : Int) :
    Prop where
  entry : ∃ init last m, tokens = init ++ [last] ∧ walk (dirEnts s.disk) 0 init = (m, []) ∧
    (diskInode s.disk m).type = rDir ∧
    blockEnts s'.disk = upd (blockEnts s.disk) m (blockEnts s.disk m ++ [(n, last)])
  lookup : Post (lookupFinalDentry host path) s' (fun r t => ∃ q y u, r.dentry = some q ∧
    t.dentry q = some y ∧ t.vinode y.dentryInode = some u ∧ u.iOps = .rfs ∧ u.inum = n)
    (· = .nullPage)

section

variable {M : Mount} {host : VinodeOps} {s s' : State} {path : Path} {tokens : List Name}
  {call : Creation}

theorem Creates.mono {care : Care} {o o' : Objs} {d d' : Nat → Block} {P Q : Int → Prop}
    (h : Creates M care o d tokens P o' d') (hPQ : ∀ n, P n → Q n) :
    Creates M care o d tokens Q o' d' := by
  obtain ⟨m, token, rest, hwalk, hmade⟩ := h
  refine ⟨m, token, rest, hwalk, fun hroom => ?_⟩
  obtain ⟨n, hn, hentry⟩ := hmade hroom
  exact ⟨n, hPQ n hn, hentry⟩

/-- What a call under a path that leads to a directory has made, by the
specification of each of the three. -/
theorem Creation.Makes.creates (h : call.Makes host path tokens s s') (hs : Sound M s)
    (hp : RfsPath path tokens) (hold : call.OldOk M s) (hstop : StopDir s.disk 0 tokens) :
    ∃ o' d', Ends s' o' d' [] ∧ Creates M .none s.objs s.disk tokens
      (fun n => call.Target s.disk n) o' d' := by
  obtain ⟨b, hholds⟩ := hs.holds
  cases call with
  | «open» flags =>
      obtain ⟨-, hne, file, hrun⟩ := h
      obtain ⟨o', d', hends, -, hcreates⟩ := Post.of_ok (vfsOpen_post
        .none hholds hs.inv hp hstop.stopOk) hrun
      exact ⟨o', d', hends, hcreates nofun hne⟩
  | mkdir =>
      have hrun : vfsMkdir host path s = .ok (0, s') := h
      obtain ⟨o', d', hends, -, hcreates⟩ := Post.of_ok (vfsMkdir_post hholds
        hs.inv hp hstop.stopOk fun _ => hstop) hrun
      exact ⟨o', d', hends, hcreates rfl⟩
  | link oldpath =>
      have hrun : vfsLink host oldpath path s = .ok (0, s') := h
      obtain ⟨old, hpold, hstopold, -⟩ := hold
      obtain ⟨o', d', hends, -, hcreates⟩ := Post.of_ok (vfsLink_post
        .none hholds hs.inv hpold hstopold (fun _ => ⟨hp, hstop⟩)) hrun
      exact ⟨o', d', hends, (hcreates rfl).mono fun n hn => ⟨old, hpold, hn⟩⟩

/-- A path that a call has made something of did not resolve before. -/
theorem Creation.Makes.unresolved (h : call.Makes host path tokens s s') (hs : Sound M s)
    (hp : RfsPath path tokens) (hold : call.OldOk M s) :
    (walk (dirEnts s.disk) 0 tokens).2 ≠ [] := by
  intro hall
  have hstop : StopDir s.disk 0 tokens := fun m token rest hwalk => by
    rw [hwalk] at hall
    cases hall
  obtain ⟨o', d', -, m, token, rest, hwalk, -⟩ := h.creates hs hp hold hstop
  rw [hwalk] at hall
  cases hall

/-- A block of a directory has 128 entries at most, so the one that was added
had room. -/
theorem CreatedAt.room {n : Int} (h : CreatedAt host path tokens s s' n)
    (hnew : (walk (dirEnts s.disk) 0 tokens).2 ≠ []) :
    ∃ m token, walk (dirEnts s.disk) 0 tokens = (m, [token]) ∧ DirRoom s.disk m := by
  obtain ⟨init, last, m, rfl, hwalk, hdir, hents⟩ := h.entry
  rw [walk_append hwalk] at hnew ⊢
  refine ⟨m, last, ?_, hdir, ?_⟩
  · rw [walk] at hnew ⊢
    cases hent : entryOf (dirEnts s.disk m) last with
    | none => rfl
    | some k =>
        rw [hent] at hnew
        exact absurd rfl hnew
  · have hlen := congrArg (fun f => (f m).length) hents
    simp only [upd_self, blockEnts, List.length_append, List.length_take, List.length_singleton,
      dirEnts_dir hdir, direntries, List.length_map, List.length_range] at hlen
    omega

/-- In a sound state a new entry is found where it was made. -/
theorem EntryMade.createdAt {care : Care} {o' : Objs} {d' : Nat → Block} {m n : Int} {token : Name}
    (h : EntryMade M care s.objs s.disk m token n o' d') (hs : Sound M s) (hends : Ends s' o' d' [])
    (hp : RfsPath path tokens) (hlen : path.bytes.length < maxPathLen)
    (hwalk : walk (dirEnts s.disk) 0 tokens = (m, [token])) (hroom : DirRoom s.disk m) :
    CreatedAt host path tokens s s' n := by
  obtain ⟨init, rfl, hinit, hnone⟩ := walk_last hwalk
  obtain ⟨rfl, rfl, b, hholds⟩ := hends.here
  have hi : Inv M s'.objs s'.disk := h.steps.inv hs.inv
  refine ⟨⟨init, token, m, rfl, hinit, hroom.1, ?_⟩, ?_⟩
  · have hshort : (dirEnts s.disk m).length < 128 := by
      simpa [dirEnts_dir hroom.1, direntries] using hroom.2
    funext p
    by_cases hpm : p = m
    · subst hpm
      simp only [blockEnts, h.ents, upd_self]
      rw [List.take_of_length_le (by simpa using hshort), List.take_of_length_le hshort.le]
    · simp only [blockEnts, h.ents, upd_ne hpm]
  · have hwalk' : walk (dirEnts s'.disk) 0 (init ++ [token]) = (n, []) := by
      rw [h.ents, walk_append (walk_upd_append hinit), walk, upd_self, entryOf_append_none hnone]
      rfl
    have hstop : StopDir s'.disk 0 (init ++ [token]) := fun m' a rest hleft => by
      rw [hwalk'] at hleft
      cases hleft
    refine (lookupFinalDentry_post (E := (· = .nullPage)) care hholds hi hp hstop.stopOk rfl
      fun hlong => absurd hlen hlong).mono ?_
    rintro r t ⟨-, o2, hends2, hr⟩
    obtain ⟨q, y, u, hq, hy, hu, hrfs, hnum, -⟩ := hr.found n hwalk'
    obtain ⟨rfl, -⟩ := hends2.here
    exact ⟨q, y, u, hq, hy, hu, hrfs, hnum⟩

end

/-- A call that creates has created its path exactly when the walk of the path
stops at its last component, in a directory with room. -/
theorem creates_its_path_iff {b : Boot} {host : VinodeOps} {s0 s s' : State} {path : Path}
    {tokens : List Name} {call : Creation} (h0 : b.Starts s0)
    (hrun : Run host (CountedCalls s0.mount) s0 s) (hp : RfsPath path tokens)
    (hlen : path.bytes.length < maxPathLen) (hold : call.OldOk s0.mount s)
    (hmakes : call.Makes host path tokens s s') :
    (∃ n, call.Target s.disk n ∧ CreatedAt host path tokens s s' n) ↔
      ∃ m token, walk (dirEnts s.disk) 0 tokens = (m, [token]) ∧ DirRoom s.disk m := by
  obtain ⟨hs, -⟩ := hrun.steps (fun _ _ hop => hop) h0.sound
  constructor
  · rintro ⟨n, -, hn⟩
    exact hn.room (hmakes.unresolved hs hp hold)
  · rintro ⟨m, token, hwalk, hroom⟩
    have hstop : StopDir s.disk 0 tokens := by
      intro m' a rest hleft
      rw [hwalk] at hleft
      obtain rfl : m = m' := congrArg Prod.fst hleft
      exact hroom.1
    obtain ⟨o', d', hends, m', token', rest, hwalk', hmade⟩ := hmakes.creates hs hp hold hstop
    rw [hwalk] at hwalk'
    obtain ⟨rfl, rfl, rfl⟩ : m = m' ∧ token = token' ∧ rest = [] := by simpa using hwalk'
    obtain ⟨n, hn, hentry⟩ := hmade hroom
    exact ⟨n, hn, hentry.createdAt hs hends hp hlen hwalk hroom⟩

/-- `"/RAMDISK0/a/a"`. -/
def pathAA : Path := ⟨slash :: ramdiskName ++ [slash, 97, slash, 97], by decide⟩

/-- What `vfs_open` of a new file leaves after boot, with the entries of the
root. -/
theorem boot_opens (path : Path) (l : List (Int × Name))
    (h : (match vfsOpen noHost path rdwrCreat smallBoot.state with
      | .ok (some _, s') => decide (dirEnts s'.disk 0 = l)
      | _ => false) = true) :
    ∃ file s', vfsOpen noHost path rdwrCreat smallBoot.state = .ok (some file, s') ∧
      dirEnts s'.disk 0 = l := by
  split at h
  · rename_i file s' heq
    exact ⟨file, s', heq, of_decide_eq_true h⟩
  · cases h

/-- With `/RAMDISK0/a` missing, `vfs_open` of `/RAMDISK0/a/a` makes a file
`/RAMDISK0/a`. -/
theorem creates_elsewhere : smallBoot.Starts smallBoot.state ∧
    RfsPath pathAA [[97], [97]] ∧ pathAA.bytes.length < maxPathLen ∧
    ∃ s', (Creation.open rdwrCreat).Makes noHost pathAA [[97], [97]] smallBoot.state s' ∧
      dirEnts s'.disk 0 = [(1, [97])] ∧
      ¬∃ n, (Creation.open rdwrCreat).Target smallBoot.state.disk n ∧
        CreatedAt noHost pathAA [[97], [97]] smallBoot.state s' n := by
  have hwalk : walk (dirEnts smallBoot.state.disk) 0 [[97], [97]] = (0, [[97], [97]]) := by
    decide
  obtain ⟨file, s', hrun, hents⟩ := boot_opens pathAA [(1, [97])] (by decide +kernel)
  have hnew : (walk (dirEnts smallBoot.state.disk) 0 [[97], [97]]).2 ≠ [] := by
    rw [hwalk]
    exact nofun
  have hp : RfsPath pathAA [[97], [97]] := (by decide : pathAA.tokens = _)
  refine ⟨Boot.starts smallBoot_boots, hp, by decide, s', ⟨by decide, hnew, file, hrun⟩,
    hents, ?_⟩
  rintro ⟨n, -, hn⟩
  obtain ⟨m, token, hlast, -⟩ := hn.room hnew
  rw [hwalk] at hlast
  cases hlast

theorem creates_its_path_iff_first :
    ∃ s', (Creation.open rdwrCreat).Makes noHost pathA [[97]] smallBoot.state s' ∧
      ((∃ n, (Creation.open rdwrCreat).Target smallBoot.state.disk n ∧
        CreatedAt noHost pathA [[97]] smallBoot.state s' n) ↔
      ∃ m token, walk (dirEnts smallBoot.state.disk) 0 [[97]] = (m, [token]) ∧
        DirRoom smallBoot.state.disk m) := by
  obtain ⟨file, s', hrun, -⟩ := boot_opens pathA [(1, [97])] (by decide +kernel)
  have hnew : (walk (dirEnts smallBoot.state.disk) 0 [[97]]).2 ≠ [] := by decide
  have hp : RfsPath pathA [[97]] := (by decide : pathA.tokens = _)
  exact ⟨s', ⟨by decide, hnew, file, hrun⟩, creates_its_path_iff (Boot.starts smallBoot_boots) .refl
    hp (by decide) trivial ⟨by decide, hnew, file, hrun⟩⟩

end Pke
