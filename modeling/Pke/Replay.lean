import Pke.Calls

/-!
# Replaying a run

What a run of given calls from a given boot does can be computed:
`replay` executes the calls and checks the condition each of them is made
under. When it succeeds there is such a run (`run_of_replay`). The
concrete runs of the development are replayed from `smallBoot`.
-/

namespace Pke

/-! ## Boot -/

/-- The state after `fs_init`, when it returns. -/
def Boot.state (b : Boot) : State :=
  match fsInit b.stack b.init with
  | .ok (_, s) => s
  | .error _ => b.init

def Boot.boots (b : Boot) : Bool :=
  match fsInit b.stack b.init with
  | .ok _ => true
  | .error _ => false

theorem Boot.starts {b : Boot} (h : b.boots = true) : b.Starts b.state := by
  unfold Boot.boots at h
  unfold Boot.Starts Boot.state
  split at h
  · rename_i r heq
    rw [heq]
  · cases h

/-- A machine with a disk of zeros and 120 free pages, on a host with one file. -/
def smallBoot : Boot where
  disk := fun _ _ => 0
  iobuffer := fun _ => 0
  stack := fun _ => 0
  freePages := (List.range 120).map fun k => (k + 1) * pgSize
  freeMemStart := pgSize
  freeMemEnd := 121 * pgSize
  nodup := List.nodup_range.map fun _ _ h => Nat.succ.inj (Nat.eq_of_mul_eq_mul_right (by decide) h)
  inRange p hp := by
    obtain ⟨k, hk, rfl⟩ := List.mem_map.mp hp
    have hk' := List.mem_range.mp hk
    exact ⟨Nat.mul_mod_left _ _, Nat.le_mul_of_pos_left _ (Nat.succ_pos k),
      Nat.mul_lt_mul_of_pos_right (Nat.succ_lt_succ hk') (by decide)⟩
  startPos := by decide
  host := oneFileHost
  streams := oneFileHost_streams

theorem smallBoot_boots : smallBoot.boots = true := by decide +kernel

/-- The host file system of a machine on which nothing is asked of it. -/
def noHost : VinodeOps where
  viopRead _ _ _ _ := Exec.fault (.ub "hostfs")
  viopWrite _ _ _ := Exec.fault (.ub "hostfs")
  viopCreate _ _ := Exec.fault (.ub "hostfs")
  viopLseek _ _ _ _ := Exec.fault (.ub "hostfs")
  viopLink _ _ _ := Exec.fault (.ub "hostfs")
  viopUnlink _ _ _ := Exec.fault (.ub "hostfs")
  viopLookup _ _ := Exec.fault (.ub "hostfs")
  viopMkdir _ _ := Exec.fault (.ub "hostfs")
  viopReaddir _ _ := Exec.fault (.ub "hostfs")
  viopDiskStat _ := Exec.fault (.ub "hostfs")
  viopWriteBackVinode _ := Exec.fault (.ub "hostfs")
  viopHookOpen := none
  viopHookClose := none
  viopHookOpendir := none
  viopHookClosedir := none

/-- `"/RAMDISK0/a"`. -/
def pathA : Path := ⟨slash :: ramdiskName ++ [slash, 97], by decide⟩

/-- `"/RAMDISK0/b"`. -/
def pathB : Path := ⟨slash :: ramdiskName ++ [slash, 98], by decide⟩

/-- `O_RDWR | O_CREAT`. -/
def rdwrCreat : Nat := 66

/-! ## Calls -/

instance (s : State) : Decidable s.DirCap :=
  inferInstanceAs (Decidable (∀ k < s.freeMemEnd / pgSize + 1, ∀ v ∈ s.vinode (k * pgSize),
    v.iOps = .rfs → v.type = dirI → v.size ≤ rfsBlksize))

/-- Where the walk of a path that stays in directories can stop. -/
def stopsInDir (d : Nat → Block) (tokens : List Name) : Bool :=
  match walk (dirEnts d) 0 tokens with
  | (_, []) => true
  | (m, _ :: _) => (diskInode d m).type == rDir

theorem stopsInDir_iff {d : Nat → Block} {tokens : List Name} :
    stopsInDir d tokens = true ↔ StopDir d 0 tokens := by
  unfold stopsInDir StopDir
  rcases hwalk : walk (dirEnts d) 0 tokens with ⟨m, rest⟩
  cases rest with
  | nil => simp
  | cons token rest => simp

def checkPath (d : Nat → Block) (path : Path) : Bool :=
  match path.tokens with
  | [] => false
  | first :: tokens => first == ramdiskName && stopsInDir d tokens

theorem checkPath_iff {d : Nat → Block} {path : Path} :
    checkPath d path = true ↔ DirPath d path := by
  unfold checkPath DirPath RfsPath
  cases path.tokens with
  | nil => simp
  | cons first tokens => simp [stopsInDir_iff]

instance (d : Nat → Block) (path : Path) : Decidable (DirPath d path) :=
  decidable_of_iff _ checkPath_iff

def checkFile (d : Nat → Block) (path : Path) : Bool :=
  match path.tokens with
  | [] => false
  | first :: tokens => first == ramdiskName && match walk (dirEnts d) 0 tokens with
      | (n, []) => (diskInode d n).type == rFile
      | (_, _ :: _) => false

theorem checkFile_iff {d : Nat → Block} {path : Path} :
    checkFile d path = true ↔ FilePath d path := by
  unfold checkFile FilePath RfsPath LeadsToFile
  cases path.tokens with
  | nil => simp
  | cons first tokens =>
      rcases hwalk : walk (dirEnts d) 0 tokens with ⟨n, rest⟩
      cases rest with
      | nil => simp [hwalk]
      | cons token rest => simp [hwalk]

instance (d : Nat → Block) (path : Path) : Decidable (FilePath d path) :=
  decidable_of_iff _ checkFile_iff

instance : (op : Op) → Decidable op.OnFiles
  | .open _ _ | .read _ _ _ | .write _ _ | .lseek _ _ _ | .close _ | .link _ _ | .unlink _
  | .mkdir _ => .isTrue trivial
  | .opendir _ | .readdir _ | .closedir _ | .mount _ _ => .isFalse id

instance (d : Nat → Block) : (op : Op) → Decidable (op.DirPaths d)
  | .open path _ | .unlink path | .mkdir path | .opendir path =>
      inferInstanceAs (Decidable (DirPath d path))
  | .link oldpath newpath =>
      inferInstanceAs (Decidable (DirPath d oldpath ∧ (FilePath d oldpath → DirPath d newpath)))
  | .read _ _ _ | .write _ _ | .lseek _ _ _ | .close _ | .readdir _ | .closedir _
  | .mount _ _ => .isTrue trivial

section

variable (host : VinodeOps) (ok : State → Op → Prop) [∀ s op, Decidable (ok s op)]

/-- Make the calls one after the other, each under the condition `ok`. -/
def replay : List Op → State → Option State
  | [], s => some s
  | op :: rest, s =>
      if ok s op then
        match op.exec host s with
        | .ok (_, s') => if s'.DirCap then replay rest s' else none
        | .error _ => none
      else none

theorem run_of_replay : ∀ {ops : List Op} {s s' : State}, replay host ok ops s = some s' →
    Run host ok s s'
  | [], s, s', h => by
      obtain rfl := Option.some.inj h
      exact .refl
  | op :: rest, s, s', h => by
      rw [replay] at h
      split at h
      · rename_i hok
        split at h
        · rename_i r s1 hrun
          split at h
          · rename_i hcap
            exact .head ⟨op, r, hok, hrun, hcap⟩ (run_of_replay h)
          · cases h
        · cases h
      · cases h

theorem run_with (ops : List Op) (s : State) (P : State → Bool)
    (h : (replay host ok ops s).any P = true) : ∃ s', Run host ok s s' ∧ P s' = true := by
  cases hrun : replay host ok ops s with
  | none =>
      rw [hrun] at h
      cases h
  | some s' =>
      rw [hrun] at h
      exact ⟨s', run_of_replay host ok hrun, h⟩

end

/-- Whether a call ends with a result of a kind. -/
def endsWith {α : Type} (x : Kern α) (s : State) (P : α → State → Bool) : Bool :=
  match x s with
  | .ok (r, s') => P r s'
  | .error _ => false

section

variable {α : Type} {x : Kern α} {s : State} {P : α → State → Bool}

theorem endsWith_some (h : endsWith x s P = true) : ∃ r s', x s = .ok (r, s') ∧ P r s' = true := by
  unfold endsWith at h
  split at h
  · rename_i r s' hr
    exact ⟨r, s', hr, h⟩
  · cases h

theorem endsWith_ok {s' : State} {r : α} (h : endsWith x s P = true) (hr : x s = .ok (r, s')) :
    P r s' = true := by
  rw [endsWith, hr] at h
  exact h

end

end Pke
