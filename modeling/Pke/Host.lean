import Pke.Bytes
import Pke.Exec

/-!
# The host

Below the kernel there is a host: the names it has, the files they stand
for, and its own descriptors, each with one position. Its code is no part
of the kernel. `HostOs` has the system calls that are passed on to it, and
`HostOs.Usual` what is assumed of them: without `O_CREAT`, `openat` opens
the files and refuses everything else; a descriptor it gives was not in
use, and `close` takes it back; `fstat` tells about the file; reading,
writing and seeking leave the names as they are. What is proved of the
kernel is proved for every host of that kind.

What a name stands for is a function of the whole path. `HostTree` keeps
the two facts about it that make it a tree: the directory the kernel
takes for its root is there, and whatever has a name below a path, the
path is a directory.
-/

namespace Pke

/-- `H_ROOT_DIR`, `"./hostfs_root"`. -/
def hRootDir : List UInt8 := [46, 47, 104, 111, 115, 116, 102, 115, 95, 114, 111, 111, 116]

/-! ## What it keeps -/

inductive HostNode where
  | dir
  | file (id : Nat)
deriving DecidableEq, Repr

structure HostTree where
  node : List UInt8 → Option HostNode
  root : node hRootDir = some .dir
  closed : ∀ path name, slash ∉ name → node (path ++ slash :: name) ≠ none →
    node path = some .dir

/-- A regular file of the host. -/
structure HostInode where
  ino : Nat
  nlink : Nat
  blocks : Nat
  data : List UInt8

/-- The kinds `st_mode` tells apart. -/
inductive HostMode where
  | dir
  | reg
  | other
deriving DecidableEq, Repr

/-- The fields of `struct stat` that are read. -/
structure Stat where
  ino : Nat
  mode : HostMode
  nlink : Nat
  size : Nat
  blocks : Nat

/-- An open descriptor of the host. -/
structure HostFd where
  file : Nat
  pos : Nat
deriving DecidableEq

/-- What the host keeps: its tree, the files by the numbers the tree gives them, the table of
descriptors, and whatever else it remembers. -/
structure HostState where
  tree : HostTree
  files : Nat → HostInode
  fds : List (Int × HostFd)
  rest : Nat

namespace HostState

/-- The open descriptor of number `fd`. -/
def fdAt (h : HostState) (fd : Int) : Option HostFd := h.fds.lookup fd

def statOf (h : HostState) (id : Nat) : Stat :=
  ⟨(h.files id).ino, .reg, (h.files id).nlink, (h.files id).data.length, (h.files id).blocks⟩

/-- File `id` has been opened, at its start, as a descriptor that was not in use. -/
structure Opens (h : HostState) (id : Nat) (fd : Int) (h' : HostState) : Prop where
  nonneg : 0 ≤ fd
  unused : h.fdAt fd = none
  fdAt : ∀ k, h'.fdAt k = if k = fd then some ⟨id, 0⟩ else h.fdAt k
  tree : h'.tree = h.tree
  files : h'.files = h.files

end HostState

/-! ## What is asked of it -/

/-- The system calls of the host, for reading and writing; the flag of `openat` is `O_CREAT`. -/
structure HostOs where
  openat : HostState → List UInt8 → Bool → Int × HostState
  close : HostState → Int → HostState
  fstat : HostState → Int → Option Stat
  read : HostState → Int → Nat → Int × List UInt8 × HostState
  write : HostState → Int → List UInt8 → Int × HostState
  lseek : HostState → Int → Int → Int → Int × HostState

/-- What is assumed of them. -/
structure HostOs.Usual (os : HostOs) : Prop where
  opens : ∀ (h : HostState) path id, h.tree.node path = some (.file id) →
    h.Opens id (os.openat h path false).1 (os.openat h path false).2
  refuses : ∀ (h : HostState) path, (∀ id, h.tree.node path ≠ some (.file id)) →
    ∃ e, -4096 < e ∧ e < 0 ∧ os.openat h path false = (e, h)
  closes : ∀ (h : HostState) fd k, (os.close h fd).fdAt k = if k = fd then none else h.fdAt k
  close_tree : ∀ (h : HostState) fd, (os.close h fd).tree = h.tree
  stats : ∀ (h : HostState) fd f, h.fdAt fd = some f → os.fstat h fd = some (h.statOf f.file)
  read_tree : ∀ (h : HostState) fd n, (os.read h fd n).2.2.tree = h.tree
  write_tree : ∀ (h : HostState) fd bytes, (os.write h fd bytes).2.tree = h.tree
  lseek_tree : ∀ (h : HostState) fd offset whence, (os.lseek h fd offset whence).2.tree = h.tree

/-- A host. -/
structure Host extends HostState where
  os : HostOs
  usual : os.Usual

namespace Host

def openat (h : Host) (path : List UInt8) (creat : Bool) : Int × Host :=
  let r := h.os.openat h.toHostState path creat
  (r.1, { h with toHostState := r.2 })

def close (h : Host) (fd : Int) : Host :=
  { h with toHostState := h.os.close h.toHostState fd }

def fstat (h : Host) (fd : Int) : Option Stat := h.os.fstat h.toHostState fd

def read (h : Host) (fd : Int) (n : Nat) : Int × List UInt8 × Host :=
  let r := h.os.read h.toHostState fd n
  (r.1, r.2.1, { h with toHostState := r.2.2 })

def write (h : Host) (fd : Int) (bytes : List UInt8) : Int × Host :=
  let r := h.os.write h.toHostState fd bytes
  (r.1, { h with toHostState := r.2 })

def lseek (h : Host) (fd offset whence : Int) : Int × Host :=
  let r := h.os.lseek h.toHostState fd offset whence
  (r.1, { h with toHostState := r.2 })

@[simp] theorem tree_close (h : Host) (fd : Int) : (h.close fd).tree = h.tree :=
  h.usual.close_tree _ _

@[simp] theorem tree_read (h : Host) (fd : Int) (n : Nat) : (h.read fd n).2.2.tree = h.tree :=
  h.usual.read_tree _ _ _

@[simp] theorem tree_write (h : Host) (fd : Int) (bytes : List UInt8) :
    (h.write fd bytes).2.tree = h.tree := h.usual.write_tree _ _ _

@[simp] theorem tree_lseek (h : Host) (fd offset whence : Int) :
    (h.lseek fd offset whence).2.tree = h.tree := h.usual.lseek_tree _ _ _ _

theorem fdAt_close (h : Host) (fd k : Int) :
    (h.close fd).fdAt k = if k = fd then none else h.fdAt k := h.usual.closes _ _ _

end Host

/-! ## A plain host -/

/-- A number above those of a table. -/
def freeFd (fds : List (Int × HostFd)) : Int := fds.foldr (fun p n => max (p.1 + 1) n) 0

theorem freeFd_nonneg : ∀ fds, 0 ≤ freeFd fds
  | [] => Int.le_refl 0
  | _ :: fds => le_max_of_le_right (freeFd_nonneg fds)

theorem lookup_cons_if (k : Int) (p : Int × HostFd) (fds : List (Int × HostFd)) :
    (p :: fds).lookup k = if k = p.1 then some p.2 else fds.lookup k := by
  rw [List.lookup_cons]
  by_cases hk : k = p.1
  · simp [hk]
  · rw [if_neg hk, beq_eq_false_iff_ne.mpr hk]

theorem lookup_ge_freeFd {k : Int} : ∀ {fds}, freeFd fds ≤ k → fds.lookup k = none
  | [], _ => rfl
  | (fd, f) :: fds, hk => by
      obtain ⟨hfd, hk⟩ := max_le_iff.mp hk
      rw [lookup_cons_if, if_neg (by simp only; omega)]
      exact lookup_ge_freeFd hk

theorem lookup_filter (fd k : Int) : ∀ fds : List (Int × HostFd),
    (fds.filter (·.1 != fd)).lookup k = if k = fd then none else fds.lookup k
  | [] => by simp
  | (i, f) :: fds => by
      have ih := lookup_filter fd k fds
      by_cases hi : i = fd
      · rw [List.filter_cons_of_neg (by simp [hi]), ih, lookup_cons_if, hi]
        split <;> rfl
      · rw [List.filter_cons_of_pos (by simp [hi]), lookup_cons_if, lookup_cons_if, ih]
        by_cases hk : k = i
        · simp [hk, hi]
        · simp [hk]

/-- A host that has its files and no space for more: it opens, closes and reads them. -/
def plainOs : HostOs where
  openat h path _ :=
    match h.tree.node path with
    | some .dir => (-21, h)
    | some (.file id) => (freeFd h.fds, { h with fds := (freeFd h.fds, ⟨id, 0⟩) :: h.fds })
    | none => (-2, h)
  close h fd := { h with fds := h.fds.filter (·.1 != fd) }
  fstat h fd := (h.fdAt fd).map fun f => h.statOf f.file
  read h fd n :=
    match h.fdAt fd with
    | none => (-9, [], h)
    | some f =>
        let bytes := ((h.files f.file).data.drop f.pos).take n
        (bytes.length, bytes, { h with fds := (fd, ⟨f.file, f.pos + bytes.length⟩) :: h.fds })
  write h _ _ := (-28, h)
  lseek h _ _ _ := (-22, h)

theorem plainOs_usual : plainOs.Usual where
  opens h path id hnode := by
    have hopen : plainOs.openat h path false =
        (freeFd h.fds, { h with fds := (freeFd h.fds, ⟨id, 0⟩) :: h.fds }) := by
      simp [plainOs, hnode]
    rw [hopen]
    exact ⟨freeFd_nonneg _, lookup_ge_freeFd (Int.le_refl _), fun k => lookup_cons_if k _ _, rfl,
      rfl⟩
  refuses h path hnode := by
    cases hpath : h.tree.node path with
    | none => exact ⟨-2, by decide, by decide, by simp [plainOs, hpath]⟩
    | some node =>
        cases node with
        | dir => exact ⟨-21, by decide, by decide, by simp [plainOs, hpath]⟩
        | file id => exact absurd hpath (hnode id)
  closes h fd k := lookup_filter fd k h.fds
  close_tree _ _ := rfl
  stats h fd f hf := by simp [plainOs, hf]
  read_tree h fd n := by
    cases hf : h.fdAt fd <;> simp [plainOs, hf]
  write_tree _ _ _ := rfl
  lseek_tree _ _ _ _ := rfl

/-- The directory part of a path. -/
def parentOf (path : List UInt8) : List UInt8 :=
  (path.reverse.dropWhile (· != slash)).tail.reverse

theorem parentOf_append {path name : List UInt8} (h : slash ∉ name) :
    parentOf (path ++ slash :: name) = path := by
  have hall : ∀ c ∈ name.reverse, (c != slash) = true := by
    intro c hc
    rw [List.mem_reverse] at hc
    simp only [bne_iff_ne, ne_eq]
    rintro rfl
    exact h hc
  simp [parentOf, List.dropWhile_append_of_pos hall]

/-- `"./hostfs_root/f"`. -/
def hostPathF : List UInt8 := hRootDir ++ [slash, 102]

/-- A host with one file of three bytes, `f` in the root directory. -/
def oneFileHost : Host where
  tree :=
    { node := fun path =>
        if path = hostPathF then some (.file 0)
        else if path = hRootDir ∨ path = [46] then some .dir else none
      root := by decide
      closed := fun path name hname h => by
        have hparent : parentOf (path ++ slash :: name) = path := parentOf_append hname
        by_cases hf : path ++ slash :: name = hostPathF
        · rw [hf] at hparent
          rw [← hparent]
          decide
        · by_cases hr : path ++ slash :: name = hRootDir
          · rw [hr] at hparent
            rw [← hparent]
            decide
          · have hdot : path ++ slash :: name ≠ [46] := by
              intro hd
              have hmem : slash ∈ [(46 : UInt8)] := hd ▸ by simp
              exact absurd hmem (by decide)
            simp [hf, hr, hdot] at h }
  files := fun _ => ⟨7, 1, 8, [1, 2, 3]⟩
  fds := [(0, ⟨1, 0⟩), (1, ⟨1, 0⟩), (2, ⟨1, 0⟩)]
  rest := 0
  os := plainOs
  usual := plainOs_usual

/-- It has the three standard streams open. -/
theorem oneFileHost_streams (k : Int) : oneFileHost.fdAt k ≠ none ↔ 0 ≤ k ∧ k < 3 := by
  have hfd : oneFileHost.fdAt k = [(0, ⟨1, 0⟩), (1, ⟨1, 0⟩), (2, ⟨1, 0⟩)].lookup k := rfl
  rw [hfd, lookup_cons_if, lookup_cons_if, lookup_cons_if, List.lookup_nil]
  split_ifs <;> simp <;> omega

end Pke
