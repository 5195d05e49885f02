import Pke.Exec
import Pke.HashTable
import Pke.Spike

/-!
# Kernel state: pages, VFS objects, hash tables, the RAM disk

The state the file system code works on. Memory is a map from page
addresses to what the page holds: every VFS object (`vfs.h`) lives in a
page of its own, obtained from `alloc_page` and given back with
`free_page`, and so do the nodes of the two hash tables and the
directory caches of RFS. Following a pointer into a page that holds
something else, or nothing, is undefined behaviour in C and a fault
here. The free list is kept as the list of pages `alloc_page` will hand
out, in order.

The RAM disk is its blocks with the one I/O buffer all block transfers
go through (`ramdev.h`). There is one of it: `fs_init` creates no other.

`panic`, `assert`, running out of pages and undefined behaviour are the
faults a run can stop with.
-/

namespace Pke

/-! ## Constants of the headers

`types.h`, `vfs.h`, `hash_table.h`, `ramdev.h` and `rfs.h`, in that order. -/

abbrev pgSize : Nat := 4096

abbrev fileI : Int := 0
abbrev dirI : Int := 1
abbrev lseekSet : Int := 0
abbrev lseekCur : Int := 1
abbrev oRdonly : Nat := 0
abbrev oWronly : Nat := 1
abbrev oRdwr : Nat := 2
abbrev oCreat : Nat := 64

abbrev maxPathLen : Nat := 30
abbrev maxMounts : Nat := 10
abbrev directBlknum : Nat := 10

instance neZeroDirectBlknum : NeZero directBlknum := ⟨by decide⟩

/-- `MAX_FILE_NAME_LEN`. -/
abbrev maxFileNameLen : Nat := 32

abbrev hashTableSize : Nat := 128

abbrev ramdiskBlockCount : Int := 128

abbrev rfsMagic : Int := 0xBEAF
abbrev rfsBlksize : Int := 4096
abbrev rfsInodesize : Int := 128
abbrev rfsMaxFileNameLen : Nat := 28
abbrev rfsBlkOffsetSuper : Int := 0
abbrev rfsBlkOffsetInode : Int := 1
abbrev rfsBlkOffsetBitmap : Int := 11
abbrev rfsBlkOffsetFree : Int := 12
abbrev rFile : Int := fileI
abbrev rDir : Int := dirI
abbrev rFree : Int := 2

/-- `sizeof(struct rfs_direntry)`. -/
abbrev direntrySize : Int := 32

/-- `RFS_BLKSIZE / RFS_INODESIZE * RFS_MAX_INODE_BLKNUM`. -/
abbrev rfsInodeCount : Nat := 320

/-! ## Objects -/

/-- A page address; `NULL` is 0. -/
abbrev Ptr := Nat

/-- A C string without its terminator. -/
abbrev Name := List UInt8

/-- `struct dentry`. -/
structure Dentry where
  name : Name
  dRef : Int
  dentryInode : Ptr
  parent : Ptr

/-- The table `i_ops` of a vinode points to. -/
inductive FsType where
  | rfs
  | hostfs
deriving DecidableEq, Repr

/-- `struct rfs_dinode`. -/
structure Dinode where
  size : Int
  type : Int
  nlinks : Int
  blocks : Int
  addrs : Fin directBlknum → Int

/-- `struct vinode`. -/
structure Vinode where
  inum : Int
  ref : Int
  size : Int
  type : Int
  nlinks : Int
  blocks : Int
  addrs : Fin directBlknum → Int
  iFsInfo : Ptr
  sb : Ptr
  iOps : FsType

inductive FdStatus where
  | none
  | opened
deriving DecidableEq, Repr

/-- `struct file`. -/
structure File where
  status : FdStatus
  readable : Bool
  writable : Bool
  offset : Int
  fDentry : Ptr

/-- `struct device`. -/
structure Device where
  devName : Name
  fsType : FsType
deriving DecidableEq

/-- `struct super_block`; for RFS `s_fs_info` is the freemap. -/
structure SuperBlock where
  magic : Int
  size : Int
  nblocks : Int
  ninodes : Int
  sRoot : Ptr
  freemap : Nat → Int

/-- `struct rfs_dir_cache`. -/
structure DirCache where
  blockCount : Int
  dirBaseAddr : Ptr

/-- `struct istat`. -/
structure Istat where
  stInum : Int
  stSize : Int
  stType : Int
  stNlinks : Int
  stBlocks : Int
deriving DecidableEq

/-- `struct dir`. -/
structure Dir where
  name : Name
  inum : Int
deriving DecidableEq

/-- `proc_file_management` without the files, which are objects of their own
at the addresses `fdAddr` of the table. -/
structure ProcFiles where
  cwd : Ptr
  nfiles : Int

/-- `struct dentry_key`. -/
structure DentryKey where
  parent : Ptr
  name : Name
deriving DecidableEq

/-- `struct vinode_key`. -/
structure VinodeKey where
  inum : Int
  sb : Ptr
deriving DecidableEq

/-- The key of a hash node, of either table. -/
inductive HashKey where
  | dentry (k : DentryKey)
  | vinode (k : VinodeKey)
deriving DecidableEq

/-- What a page holds. `raw` pages are allocated and their contents are
not followed by any pointer of the model (hash keys, disk inode buffers,
block copies). -/
inductive Page where
  | free
  | raw
  | dentry (d : Dentry)
  | vinode (v : Vinode)
  | file (f : File)
  | superBlock (b : SuperBlock)
  | hashNode (k : HashKey)
  | dirBlock (b : Block)
  | dirCache (c : DirCache)
  | procFiles (m : ProcFiles)

namespace Page

def isFree : Page → Bool
  | .free => true
  | _ => false

theorem eq_free {g : Page} (h : g.isFree = true) : g = .free := by
  cases g <;> first | rfl | cases h

def asDentry : Page → Option Dentry
  | .dentry d => some d
  | _ => none

def asVinode : Page → Option Vinode
  | .vinode v => some v
  | _ => none

def asFile : Page → Option File
  | .file f => some f
  | _ => none

def asSuperBlock : Page → Option SuperBlock
  | .superBlock b => some b
  | _ => none

def asHashNode : Page → Option HashKey
  | .hashNode k => some k
  | _ => none

def asDirBlock : Page → Option Block
  | .dirBlock b => some b
  | _ => none

def asDirCache : Page → Option DirCache
  | .dirCache c => some c
  | _ => none

def asProcFiles : Page → Option ProcFiles
  | .procFiles m => some m
  | _ => none

end Page

/-! ## State and faults -/

/-- The globals of `vfs.c` and `pmm.c`, memory, the RAM disk, and the files of
the host. -/
structure State where
  disk : Nat → Block
  iobuffer : Block
  pages : Ptr → Page
  freePages : List Ptr
  freeMemStart : Nat
  freeMemEnd : Nat
  dentryHash : HashTable DentryKey Ptr
  vinodeHash : HashTable VinodeKey Ptr
  vfsRootDentry : Ptr
  vfsSbList : List Ptr
  vfsDevList : List Device
  spike : Spike

/-- A file system with nothing in it. -/
def State.zero : State where
  disk _ _ := 0
  iobuffer _ := 0
  pages _ := .free
  freePages := []
  freeMemStart := 0
  freeMemEnd := 0
  dentryHash := .empty
  vinodeHash := .empty
  vfsRootDentry := 0
  vfsSbList := []
  vfsDevList := []
  spike := .boot oneFileHost

inductive Fault where
  | panic (msg : String)
  | assertion (cond : String)
  | nullPage
  | ub (what : String)
deriving DecidableEq, Repr

/-- A call may stop for any reason. -/
abbrev AnyFault : Fault → Prop := fun _ => True

/-- Kernel code. -/
abbrev Kern := Exec State Fault

open Exec (get modify fault ofOption)

namespace State

def dentry (s : State) (p : Ptr) : Option Dentry := (s.pages p).asDentry
def vinode (s : State) (p : Ptr) : Option Vinode := (s.pages p).asVinode
def file (s : State) (p : Ptr) : Option File := (s.pages p).asFile
def superBlock (s : State) (p : Ptr) : Option SuperBlock := (s.pages p).asSuperBlock
def hashNode (s : State) (p : Ptr) : Option HashKey := (s.pages p).asHashNode
def dirBlock (s : State) (p : Ptr) : Option Block := (s.pages p).asDirBlock
def dirCache (s : State) (p : Ptr) : Option DirCache := (s.pages p).asDirCache
def procFiles (s : State) (p : Ptr) : Option ProcFiles := (s.pages p).asProcFiles

/-- The state with the contents of a page replaced. -/
def setPage (s : State) (p : Ptr) (c : Page) : State :=
  { s with pages := upd s.pages p c }

theorem setPage_self (s : State) (p : Ptr) (c : Page) : (s.setPage p c).pages p = c :=
  upd_self ..

theorem setPage_ne {s : State} {p q : Ptr} {c : Page} (h : q ≠ p) :
    (s.setPage p c).pages q = s.pages q :=
  upd_ne h

end State

/-! ## Pages (`pmm.c`) -/

/-- `alloc_page`. A page handed out while it is still in use is shared by
two objects from then on, which no caller is prepared for. -/
def allocPage : Kern Ptr := do
  let s ← get
  match s.freePages with
  | [] => fault .nullPage
  | p :: rest =>
      if (s.pages p).isFree then do
        modify fun s => { s.setPage p .raw with freePages := rest }
        pure p
      else fault (.ub "alloc_page hands out a page in use")

/-- `free_page`. -/
def freePage (p : Ptr) : Kern Unit := do
  let s ← get
  if p % pgSize ≠ 0 ∨ p < s.freeMemStart ∨ p ≥ s.freeMemEnd then
    fault (.panic "free_page")
  else
    modify fun s => { s.setPage p .free with freePages := p :: s.freePages }

/-! ## Following a pointer -/

def getDentry (p : Ptr) : Kern Dentry := do
  let s ← get
  ofOption (.ub "dentry") (s.dentry p)

def getVinode (p : Ptr) : Kern Vinode := do
  let s ← get
  ofOption (.ub "vinode") (s.vinode p)

def getFile (p : Ptr) : Kern File := do
  let s ← get
  ofOption (.ub "file") (s.file p)

def getSuperBlock (p : Ptr) : Kern SuperBlock := do
  let s ← get
  ofOption (.ub "super_block") (s.superBlock p)

def getDirCache (p : Ptr) : Kern DirCache := do
  let s ← get
  ofOption (.ub "rfs_dir_cache") (s.dirCache p)

def getDirBlock (p : Ptr) : Kern Block := do
  let s ← get
  ofOption (.ub "rfs_direntry") (s.dirBlock p)

def setDentry (p : Ptr) (d : Dentry) : Kern Unit := modify fun s => s.setPage p (.dentry d)
def setVinode (p : Ptr) (v : Vinode) : Kern Unit := modify fun s => s.setPage p (.vinode v)
def setFile (p : Ptr) (f : File) : Kern Unit := modify fun s => s.setPage p (.file f)
def setSuperBlock (p : Ptr) (b : SuperBlock) : Kern Unit :=
  modify fun s => s.setPage p (.superBlock b)

/-! ## The two hash tables (`hash_table.c`, `vfs.c`) -/

/-- A table of the kernel: its functions, where it is kept, and how its keys
are stored in a node. -/
structure Table (K : Type) where
  ops : HashOps K
  read : State → HashTable K Ptr
  write : HashTable K Ptr → State → State
  tag : K → HashKey

/-- `dentry_hash_equal` and `dentry_hash_func`. -/
def dentryHashOps : HashOps DentryKey where
  equal k1 k2 := k1.name == k2.name && k1.parent == k2.parent
  hash k :=
    let hash := k.name.foldl (fun hash c => (hash * 32 + hash + c.toNat) % 2 ^ 64) 5381
    (hash * 32 + hash + k.parent) % 2 ^ 64 % hashTableSize

/-- `vinode_hash_equal` and `vinode_hash_func`. -/
def vinodeHashOps : HashOps VinodeKey where
  equal k1 k2 := k1.inum == k2.inum && k1.sb == k2.sb
  hash k := (k.inum % hashTableSize).toNat

def dentryTable : Table DentryKey where
  ops := dentryHashOps
  read s := s.dentryHash
  write t s := { s with dentryHash := t }
  tag := .dentry

def vinodeTable : Table VinodeKey where
  ops := vinodeHashOps
  read s := s.vinodeHash
  write t s := { s with vinodeHash := t }
  tag := .vinode

section

variable {K : Type} (T : Table K)

/-- `defalut_get`. -/
def defaultGet (k : K) : Kern (Option Ptr) := do
  let s ← get
  pure (((T.read s).find? T.ops k).map (·.value))

/-- `default_put`: the node is allocated before the key is looked up, and is
not given back when the key is taken. -/
def defaultPut (k : K) (value : Ptr) : Kern Int := do
  let node ← allocPage
  match ← defaultGet T k with
  | some _ => pure (-1)
  | none =>
      modify fun s => T.write ((T.read s).insert T.ops ⟨node, k, value⟩)
        (s.setPage node (.hashNode (T.tag k)))
      pure 0

/-- `default_erase`. -/
def defaultErase (k : K) : Kern Int := do
  let s ← get
  match (T.read s).find? T.ops k with
  | none => pure (-1)
  | some e =>
      modify fun s => T.write ((T.read s).remove T.ops k) s
      freePage e.node
      pure 0

/-- `hash_put_dentry` and `hash_put_vinode` after the key has been filled in:
the key has a page of its own, given back when the table refuses it. -/
def hashPut (k : K) (value : Ptr) : Kern Int := do
  let key ← allocPage
  let ret ← defaultPut T k value
  if ret ≠ 0 then do
    freePage key
    pure ret
  else pure ret

end

def hashGetDentry (parent : Ptr) (name : Name) : Kern (Option Ptr) :=
  defaultGet dentryTable ⟨parent, name⟩

def hashPutDentry (dentry : Ptr) : Kern Int := do
  let d ← getDentry dentry
  hashPut dentryTable ⟨d.parent, d.name⟩ dentry

def hashEraseDentry (dentry : Ptr) : Kern Int := do
  let d ← getDentry dentry
  defaultErase dentryTable ⟨d.parent, d.name⟩

def hashGetVinode (sb : Ptr) (inum : Int) : Kern (Option Ptr) :=
  if inum < 0 then pure none else defaultGet vinodeTable ⟨inum, sb⟩

def hashPutVinode (vinode : Ptr) : Kern Int := do
  let v ← getVinode vinode
  if v.inum < 0 then pure (-1) else hashPut vinodeTable ⟨v.inum, v.sb⟩ vinode

def hashEraseVinode (vinode : Ptr) : Kern Int := do
  let v ← getVinode vinode
  if v.inum < 0 then pure (-1) else defaultErase vinodeTable ⟨v.inum, v.sb⟩

end Pke
