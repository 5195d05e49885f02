import Pke.Vfs

/-!
# The host file system (`hostfs.c`)

The operations of the vinodes that stand for files and directories of
the host. A host file is reached by its path, put together from the
names of the dentries up to the root, and through the handle kept in
`i_fs_info`, or the error the host answered with, as a negative number.
-/

namespace Pke

open Exec (get modify fault ofOption)

/-! ## Pointers to handles -/

/-- The address of `spike_files`. -/
abbrev spikeFilesAddr : Ptr := 0x80010000

def handlePtr (f : Fin maxFiles) : Ptr := spikeFilesAddr + 8 * f

/-- `ERR_PTR`, as an address. -/
def errPtr (e : Int) : Ptr := (e % 2 ^ 64).toNat

/-- `(int64)f < 0`. -/
def isErrPtr (p : Ptr) : Bool := 2 ^ 63 ≤ p

def handleAt (p : Ptr) : Option (Fin maxFiles) :=
  (List.finRange maxFiles).find? fun f => handlePtr f == p

def getHandle (p : Ptr) : Kern (Fin maxFiles) := ofOption (.ub "spike_file_t") (handleAt p)

/-- `spike_file_open`: the address of the handle, or the error. -/
def openHandle (path : List UInt8) (creat : Bool) : Kern Ptr := do
  let s ← get
  modify fun s => { s with spike := (s.spike.spikeFileOpen path creat).2 }
  match (s.spike.spikeFileOpen path creat).1 with
  | .ok f => pure (handlePtr f)
  | .error e => pure (errPtr e)

/-! ## Paths -/

/-- `path_backtrack`: what is appended to the path. A tree deeper than the
buffer is long overflows it. -/
def pathBacktrack : (depth : Nat) → Ptr → Kern (List UInt8)
  | 0, _ => fault (.ub "path")
  | depth + 1, dentry => do
      let d ← getDentry dentry
      if d.parent = 0 then pure []
      else do
        let path ← pathBacktrack depth d.parent
        pure (path ++ slash :: d.name)

/-- `get_path_string`, into a buffer of `MAX_PATH_LEN` bytes. -/
def getPathString (dentry : Ptr) : Kern (List UInt8) := do
  let path ← pathBacktrack maxPathLen dentry
  if (hRootDir ++ path).length < maxPathLen then pure (hRootDir ++ path)
  else fault (.ub "path")

/-! ## Vinodes -/

/-- `hostfs_alloc_vinode`. -/
def hostfsAllocVinode (sb : Ptr) : Kern Ptr := do
  let vinode ← defaultAllocVinode sb .hostfs
  let v ← getVinode vinode
  setVinode vinode { v with inum := -1, iFsInfo := 0 }
  pure vinode

/-- `hostfs_update_vinode`. -/
def hostfsUpdateVinode (vinode : Ptr) : Kern Int := do
  let v ← getVinode vinode
  if isErrPtr v.iFsInfo then do
    setVinode vinode { v with type := dirI }
    pure (-1)
  else do
    let f ← getHandle v.iFsInfo
    let s ← get
    let stat ← ofOption (.ub "stat") (s.spike.spikeFileStat f)
    let v' := { v with
      inum := wrap32 stat.ino
      size := wrap32 stat.size
      nlinks := wrap32 stat.nlink
      blocks := wrap32 stat.blocks }
    match stat.mode with
    | .dir => do
        setVinode vinode { v' with type := dirI }
        pure 0
    | .reg => do
        setVinode vinode { v' with type := fileI }
        pure 0
    | .other => do
        setVinode vinode v'
        pure (-1)

/-- A fresh vinode with a handle or an error in it, and what
`hostfs_update_vinode` returned. -/
def hostfsLoadVinode (sb f : Ptr) : Kern (Ptr × Int) := do
  let vinode ← hostfsAllocVinode sb
  let v ← getVinode vinode
  setVinode vinode { v with iFsInfo := f }
  let ret ← hostfsUpdateVinode vinode
  pure (vinode, ret)

/-- `hostfs_lookup`; it never returns `NULL`. -/
def hostfsLookup (parent subDentry : Ptr) : Kern (Option Ptr) := do
  let path ← getPathString subDentry
  let f ← openHandle path false
  let p ← getVinode parent
  let (child, _) ← hostfsLoadVinode p.sb f
  let v ← getVinode child
  setVinode child { v with ref := 0 }
  pure (some child)

/-- `hostfs_create`. -/
def hostfsCreate (parent subDentry : Ptr) : Kern (Option Ptr) := do
  let path ← getPathString subDentry
  let f ← openHandle path true
  if isErrPtr f then pure none
  else do
    let p ← getVinode parent
    let (new, ret) ← hostfsLoadVinode p.sb f
    if ret ≠ 0 then pure none
    else do
      let v ← getVinode new
      setVinode new { v with ref := 0 }
      pure (some new)

/-! ## Reading, writing, seeking -/

/-- `hostfs_read`. The test `pf < 0` on a pointer is never true. -/
def hostfsRead (inode : Ptr) (len _offset : Int) (_stack : Block) :
    Kern (Int × Int × List UInt8) := do
  let v ← getVinode inode
  let f ← getHandle v.iFsInfo
  let s ← get
  let read := s.spike.spikeFileRead f (len % 2 ^ 64).toNat
  let seek := read.2.2.spikeFileLseek f 0 1
  modify fun s => { s with spike := seek.2 }
  pure (wrap32 read.1, wrap32 seek.1, read.2.1)

/-- `hostfs_write`. -/
def hostfsWrite (inode : Ptr) (buf : List UInt8) (_offset : Int) : Kern (Int × Int) := do
  let v ← getVinode inode
  let f ← getHandle v.iFsInfo
  let s ← get
  let write := s.spike.spikeFileWrite f buf
  let seek := write.2.spikeFileLseek f 0 1
  modify fun s => { s with spike := seek.2 }
  pure (wrap32 write.1, wrap32 seek.1)

/-- `hostfs_lseek`. -/
def hostfsLseek (inode : Ptr) (newOffset whence _offset : Int) : Kern (Int × Int) := do
  let v ← getVinode inode
  let f ← getHandle v.iFsInfo
  let s ← get
  let seek := s.spike.spikeFileLseek f newOffset whence
  modify fun s => { s with spike := seek.2 }
  if 0 ≤ wrap32 seek.1 then pure (0, wrap32 seek.1) else pure (-1, wrap32 seek.1)

/-! ## Hooks -/

/-- `hostfs_hook_open`. -/
def hostfsHookOpen (inode dentry : Ptr) : Kern Int := do
  let v ← getVinode inode
  if v.iFsInfo ≠ 0 then pure 0
  else do
    let path ← getPathString dentry
    let f ← openHandle path false
    if isErrPtr f then pure (-1)
    else do
      let v ← getVinode inode
      setVinode inode { v with iFsInfo := f }
      pure 0

/-- `hostfs_hook_close`. -/
def hostfsHookClose (inode _dentry : Ptr) : Kern Int := do
  let v ← getVinode inode
  if v.iFsInfo = 0 then pure 0
  else do
    let f ← getHandle v.iFsInfo
    let s ← get
    let closed ← ofOption (.ub "spike_fds") (s.spike.spikeFileClose f)
    modify fun s => { s with spike := closed.2 }
    pure 0

/-- `hostfs_i_ops`. It has no `viop_disk_stat`. -/
def hostfsIOps : VinodeOps where
  viopRead := hostfsRead
  viopWrite := hostfsWrite
  viopCreate := hostfsCreate
  viopLseek := hostfsLseek
  viopLink _ _ _ := fault (.panic "hostfs_link not implemented!")
  viopUnlink _ _ _ := fault (.panic "hostfs_unlink not implemented!")
  viopLookup := hostfsLookup
  viopMkdir _ _ := fault (.panic "hostfs_mkdir not implemented!")
  viopReaddir _ _ := fault (.panic "hostfs_readdir not implemented!")
  viopDiskStat _ := fault (.ub "viop_disk_stat")
  viopWriteBackVinode _ := pure 0
  viopHookOpen := some hostfsHookOpen
  viopHookClose := some hostfsHookClose
  viopHookOpendir := none
  viopHookClosedir := none

end Pke
