import Pke.Rfs

/-!
# The virtual file system (`vfs.c`)

Paths, the dentry cache, and the file and directory operations, over the
operation tables of the mounted file systems. The table of RFS is the
one of `rfs.c`; the table of the host file system is a parameter, since
what it does is decided outside the kernel. A descriptor is the page of
its `struct file`.
-/

namespace Pke

open Exec (get modify fault ofOption)

/-! ## Operation tables -/

/-- `struct vinode_ops`. Offsets are passed in and handed back. -/
structure VinodeOps where
  viopRead : Ptr → (len offset : Int) → Block → Kern (Int × Int × List UInt8)
  viopWrite : Ptr → List UInt8 → (offset : Int) → Kern (Int × Int)
  viopCreate : (parent subDentry : Ptr) → Kern (Option Ptr)
  viopLseek : Ptr → (newOffset whence offset : Int) → Kern (Int × Int)
  viopLink : (parent subDentry linkNode : Ptr) → Kern Int
  viopUnlink : (parent subDentry unlinkNode : Ptr) → Kern Int
  viopLookup : (parent subDentry : Ptr) → Kern (Option Ptr)
  viopMkdir : (parent subDentry : Ptr) → Kern (Option Ptr)
  viopReaddir : Ptr → (offset : Int) → Kern (Int × Option Dir × Int)
  viopDiskStat : Ptr → Kern (Int × Option Istat)
  viopWriteBackVinode : Ptr → Kern Int
  viopHookOpen : Option (Ptr → Ptr → Kern Int)
  viopHookClose : Option (Ptr → Ptr → Kern Int)
  viopHookOpendir : Option (Ptr → Ptr → Kern Int)
  viopHookClosedir : Option (Ptr → Ptr → Kern Int)

/-- `rfs_i_ops`. -/
def rfsIOps : VinodeOps where
  viopRead := rfsRead
  viopWrite := rfsWrite
  viopCreate := rfsCreate
  viopLseek := rfsLseek
  viopLink := rfsLink
  viopUnlink := rfsUnlink
  viopLookup := rfsLookup
  viopMkdir := rfsMkdir
  viopReaddir := rfsReaddir
  viopDiskStat := rfsDiskStat
  viopWriteBackVinode := rfsWriteBackVinode
  viopHookOpen := none
  viopHookClose := none
  viopHookOpendir := some fun v _ => rfsHookOpendir v
  viopHookClosedir := some fun v _ => rfsHookClosedir v

/-! ## Paths -/

/-- A path: a C string. -/
structure Path where
  bytes : List UInt8
  nulFree : 0 ∉ bytes

/-- `strtok` on the characters left: the next token, and what it leaves in
its static `current` (nothing for `NULL`). -/
def strtok (current : Option (List UInt8)) : Option (Name × Option (List UInt8)) :=
  match current with
  | none => none
  | some cur =>
      let start := cur.dropWhile (· == slash)
      if start = [] then none
      else
        let rest := start.dropWhile (· != slash)
        some (start.takeWhile (· != slash), if rest = [] then none else some rest.tail)

/-- The tokens of successive calls of `strtok`. -/
def strtokAll : (n : Nat) → Option (List UInt8) → List Name
  | 0, _ => []
  | n + 1, current =>
      match strtok current with
      | none => []
      | some (token, current) => token :: strtokAll n current

def Path.tokens (p : Path) : List Name := strtokAll (p.bytes.length + 1) (some p.bytes)

/-- The copy into a buffer of `MAX_PATH_LEN` bytes that starts every use of a
path. -/
def copyPath (p : Path) : Kern Unit :=
  if p.bytes.length < maxPathLen then pure () else fault (.ub "path_copy")

/-- `get_base_name`. -/
def getBaseName (p : Path) : Kern Name := do
  copyPath p
  ofOption (.ub "get_base_name: no component") p.tokens.getLast?

/-! ## Dentries and files -/

/-- `inode->ref += n`. -/
def addRef (inode : Ptr) (n : Int) : Kern Unit := do
  let v ← getVinode inode
  setVinode inode { v with ref := v.ref + n }

/-- `alloc_vfs_dentry`. -/
def allocVfsDentry (name : Name) (inode parent : Ptr) : Kern Ptr := do
  let dentry ← allocPage
  setDentry dentry { name := name, dRef := 0, dentryInode := inode, parent := parent }
  if inode ≠ 0 then do
    addRef inode 1
    pure dentry
  else pure dentry

/-- `free_vfs_dentry`. -/
def freeVfsDentry (dentry : Ptr) : Kern Int := do
  let d ← getDentry dentry
  if d.dRef > 0 then pure (-1)
  else do
    freePage dentry
    pure 0

/-- `alloc_vfs_file`. -/
def allocVfsFile (fileDentry : Ptr) (readable writable : Bool) : Kern Ptr := do
  let file ← allocPage
  let d ← getDentry fileDentry
  setDentry fileDentry { d with dRef := d.dRef + 1 }
  setFile file
    { status := .opened, readable := readable, writable := writable, offset := 0,
      fDentry := fileDentry }
  pure file

/-- A hook of the file system, when it has one. -/
def runHook (hook : Option (Ptr → Ptr → Kern Int)) (inode dentry : Ptr) : Kern Unit :=
  match hook with
  | some hook => do
      let _ ← hook inode dentry
      pure ()
  | none => pure ()

section

variable (host : VinodeOps)

/-- The operations of a vinode. -/
def iOps : FsType → VinodeOps
  | .rfs => rfsIOps
  | .hostfs => host

def opsOf (vinode : Ptr) : Kern VinodeOps := do
  let v ← getVinode vinode
  pure (iOps host v.iOps)

/-! ## Path lookup -/

/-- Point the new dentry `this` to the vinode `found` the file system returned
for it, or to the one the cache has for the same inode. -/
def bindFound (this found : Ptr) : Kern Unit := do
  let f ← getVinode found
  let d ← getDentry this
  match ← hashGetVinode f.sb f.inum with
  | some same => do
      setDentry this { d with dentryInode := same }
      addRef same 1
      freePage found
  | none => do
      setDentry this { d with dentryInode := found }
      addRef found 1
      let _ ← hashPutVinode found
      pure ()

/-- Bring what the file system found for a component into the cache. -/
def cacheFound (this found : Ptr) : Kern Unit := do
  bindFound this found
  let _ ← hashPutDentry this
  pure ()

/-- One component of a lookup: the dentry of `token` under `parent`, or
nothing. -/
def lookupToken (parent : Ptr) (token : Name) : Kern (Option Ptr) := do
  match ← hashGetDentry parent token with
  | some this => pure (some this)
  | none => do
      let this ← allocVfsDentry token 0 parent
      let p ← getDentry parent
      let ops ← opsOf host p.dentryInode
      match ← ops.viopLookup p.dentryInode this with
      | none => do
          freePage this
          pure none
      | some found => do
          cacheFound this found
          pure (some this)

/-- What `lookup_final_dentry` leaves: the dentry it returns, `*parent`, and
`miss_name` when it returns `NULL`. -/
structure LookupResult where
  dentry : Option Ptr
  parent : Ptr
  missName : Name

/-- The loop of `lookup_final_dentry`. -/
def lookupTokens : List Name → (this parent : Ptr) → Kern LookupResult
  | [], this, parent => pure ⟨some this, parent, []⟩
  | token :: rest, this, _ => do
      match ← lookupToken host this token with
      | none => pure ⟨none, this, token⟩
      | some next => lookupTokens rest next this

/-- `lookup_final_dentry`, from the root as every caller starts it. -/
def lookupFinalDentry (path : Path) : Kern LookupResult := do
  copyPath path
  let s ← get
  lookupTokens host path.tokens s.vfsRootDentry s.vfsRootDentry

/-! ## Opening and creating -/

/-- The part of `vfs_open` and `vfs_mkdir` that puts what the file system
created into the cache. -/
def cacheCreated (dentry inode : Ptr) : Kern Unit := do
  let d ← getDentry dentry
  setDentry dentry { d with dentryInode := inode }
  addRef inode 1
  let _ ← hashPutDentry dentry
  let _ ← hashPutVinode inode
  pure ()

/-- The part of `vfs_open` that creates a missing file. -/
def openCreate (path : Path) (r : LookupResult) : Kern (Option Ptr) := do
  let basename ← getBaseName path
  if r.missName ≠ basename then pure none
  else do
    let dentry ← allocVfsDentry basename 0 r.parent
    let p ← getDentry r.parent
    let ops ← opsOf host p.dentryInode
    match ← ops.viopCreate p.dentryInode dentry with
    | none => fault (.panic "vfs_open: cannot create file!")
    | some inode => do
        cacheCreated dentry inode
        pure (some dentry)

/-- The part of `vfs_open` after the dentry of the file is known. -/
def openDentry (fileDentry : Ptr) (flags : Nat) : Kern (Option Ptr) := do
  let d ← getDentry fileDentry
  let v ← getVinode d.dentryInode
  if v.type ≠ fileI then pure none
  else if flags % 4 = 3 then fault (.panic "fs_open: invalid open flags!")
  else do
    let file ← allocVfsFile fileDentry (flags % 4 ≠ oWronly) (flags % 4 ≠ oRdonly)
    runHook (iOps host v.iOps).viopHookOpen d.dentryInode fileDentry
    pure (some file)

/-- `vfs_open`. -/
def vfsOpen (path : Path) (flags : Nat) : Kern (Option Ptr) := do
  let r ← lookupFinalDentry host path
  match r.dentry with
  | some d => openDentry host d flags
  | none =>
      if flags &&& oCreat = 0 then pure none
      else do
        match ← openCreate host path r with
        | none => pure none
        | some d => openDentry host d flags

/-! ## Reading, writing, seeking -/

/-- `vfs_read`: the result and the bytes stored in `buf`. -/
def vfsRead (file : Ptr) (count : Int) (stack : Block) : Kern (Int × List UInt8) := do
  let f ← getFile file
  if f.readable = false then pure (-1, [])
  else do
    let d ← getDentry f.fDentry
    let v ← getVinode d.dentryInode
    if v.type ≠ fileI then pure (-1, [])
    else do
      let (len, offset, bytes) ←
        (iOps host v.iOps).viopRead d.dentryInode count f.offset stack
      setFile file { f with offset := offset }
      pure (len, bytes)

/-- `vfs_write`. -/
def vfsWrite (file : Ptr) (buf : List UInt8) : Kern Int := do
  let f ← getFile file
  if f.writable = false then pure (-1)
  else do
    let d ← getDentry f.fDentry
    let v ← getVinode d.dentryInode
    if v.type ≠ fileI then pure (-1)
    else do
      let (len, offset) ← (iOps host v.iOps).viopWrite d.dentryInode buf f.offset
      setFile file { f with offset := offset }
      pure len

/-- `vfs_lseek`. -/
def vfsLseek (file : Ptr) (offset whence : Int) : Kern Int := do
  let f ← getFile file
  let d ← getDentry f.fDentry
  let v ← getVinode d.dentryInode
  if v.type ≠ fileI then pure (-1)
  else do
    let (ret, offset) ← (iOps host v.iOps).viopLseek d.dentryInode offset whence f.offset
    setFile file { f with offset := offset }
    if ret ≠ 0 then pure (-1) else pure offset

/-- `vfs_stat`. -/
def vfsStat (file : Ptr) : Kern (Int × Option Istat) := do
  let f ← getFile file
  let d ← getDentry f.fDentry
  let v ← getVinode d.dentryInode
  pure (0, some ⟨v.inum, v.size, v.type, v.nlinks, v.blocks⟩)

/-- `vfs_disk_stat`. -/
def vfsDiskStat (file : Ptr) : Kern (Int × Option Istat) := do
  let f ← getFile file
  let d ← getDentry f.fDentry
  let ops ← opsOf host d.dentryInode
  ops.viopDiskStat d.dentryInode

/-! ## Links -/

/-- The part of `vfs_link` after both lookups. -/
def linkDentry (oldDentry : Ptr) (newpath : Path) (r : LookupResult) : Kern Int := do
  let basename ← getBaseName newpath
  if r.missName ≠ basename then pure (-1)
  else do
    let o ← getDentry oldDentry
    let new ← allocVfsDentry basename o.dentryInode r.parent
    let p ← getDentry r.parent
    let ops ← opsOf host p.dentryInode
    if (← ops.viopLink p.dentryInode new o.dentryInode) ≠ 0 then pure (-1)
    else do
      let _ ← hashPutDentry new
      pure 0

/-- `vfs_link`. -/
def vfsLink (oldpath newpath : Path) : Kern Int := do
  let r ← lookupFinalDentry host oldpath
  match r.dentry with
  | none => pure (-1)
  | some old => do
      let o ← getDentry old
      let v ← getVinode o.dentryInode
      if v.type ≠ fileI then pure (-1)
      else do
        let r ← lookupFinalDentry host newpath
        match r.dentry with
        | some _ => pure (-1)
        | none => linkDentry host old newpath r

/-- The part of `vfs_unlink` that forgets the unlinked name, and the inode
when it was its last. -/
def forgetDentry (fileDentry inode : Ptr) : Kern Unit := do
  let _ ← hashEraseDentry fileDentry
  let _ ← freeVfsDentry fileDentry
  addRef inode (-1)
  let v ← getVinode inode
  if v.nlinks = 0 then
    if v.ref ≠ 0 then fault (.assertion "unlinked_vinode->ref == 0")
    else do
      let _ ← hashEraseVinode inode
      freePage inode
  else pure ()

/-- The part of `vfs_unlink` after the lookup. -/
def unlinkDentry (fileDentry parent : Ptr) : Kern Int := do
  let d ← getDentry fileDentry
  let v ← getVinode d.dentryInode
  if v.type ≠ fileI then pure (-1)
  else if d.dRef > 0 then pure (-1)
  else do
    let p ← getDentry parent
    let ops ← opsOf host p.dentryInode
    if (← ops.viopUnlink p.dentryInode fileDentry d.dentryInode) ≠ 0 then pure (-1)
    else do
      forgetDentry fileDentry d.dentryInode
      pure 0

/-- `vfs_unlink`. -/
def vfsUnlink (path : Path) : Kern Int := do
  let r ← lookupFinalDentry host path
  match r.dentry with
  | none => pure (-1)
  | some d => unlinkDentry host d r.parent

/-! ## Closing -/

/-- The part of `vfs_close` for a dentry no open file points to any more. -/
def releaseDentry (dentry inode : Ptr) : Kern Unit := do
  let _ ← hashEraseDentry dentry
  let _ ← freeVfsDentry dentry
  addRef inode (-1)
  let v ← getVinode inode
  if v.ref = 0 then do
    if (← (iOps host v.iOps).viopWriteBackVinode inode) ≠ 0 then
      fault (.panic "vfs_close: free inode failed!")
    else do
      let _ ← hashEraseVinode inode
      freePage inode
  else pure ()

/-- The part of `vfs_close` that drops the reference to the dentry. -/
def closeDentry (dentry : Ptr) : Kern Unit := do
  let d ← getDentry dentry
  setDentry dentry { d with dRef := d.dRef - 1 }
  if d.dRef - 1 = 0 then releaseDentry host dentry d.dentryInode else pure ()

/-- `vfs_close`. -/
def vfsClose (file : Ptr) : Kern Int := do
  let f ← getFile file
  let d ← getDentry f.fDentry
  let v ← getVinode d.dentryInode
  if v.type ≠ fileI then pure (-1)
  else do
    runHook (iOps host v.iOps).viopHookClose d.dentryInode f.fDentry
    closeDentry host f.fDentry
    setFile file { f with status := .none }
    pure 0

/-! ## Directories -/

/-- `vfs_opendir`. -/
def vfsOpendir (path : Path) : Kern (Option Ptr) := do
  let r ← lookupFinalDentry host path
  match r.dentry with
  | none => pure none
  | some dentry => do
      let d ← getDentry dentry
      let v ← getVinode d.dentryInode
      if v.type ≠ dirI then pure none
      else do
        let file ← allocVfsFile dentry true false
        runHook (iOps host v.iOps).viopHookOpendir d.dentryInode dentry
        pure (some file)

/-- `vfs_readdir`: the result and what is stored in `dir`. -/
def vfsReaddir (file : Ptr) : Kern (Int × Option Dir) := do
  let f ← getFile file
  let d ← getDentry f.fDentry
  let v ← getVinode d.dentryInode
  if v.type ≠ dirI then pure (-1, none)
  else do
    let (ret, dir, offset) ← (iOps host v.iOps).viopReaddir d.dentryInode f.offset
    setFile file { f with offset := offset }
    pure (ret, dir)

/-- The part of `vfs_mkdir` after the lookup. -/
def mkdirDentry (path : Path) (r : LookupResult) : Kern Int := do
  let basename ← getBaseName path
  if r.missName ≠ basename then pure (-1)
  else do
    let dentry ← allocVfsDentry basename 0 r.parent
    let p ← getDentry r.parent
    let ops ← opsOf host p.dentryInode
    match ← ops.viopMkdir p.dentryInode dentry with
    | none => do
        freePage dentry
        pure (-1)
    | some inode => do
        cacheCreated dentry inode
        pure 0

/-- `vfs_mkdir`. -/
def vfsMkdir (path : Path) : Kern Int := do
  let r ← lookupFinalDentry host path
  match r.dentry with
  | some _ => pure (-1)
  | none => mkdirDentry host path r

/-- `vfs_closedir`. -/
def vfsClosedir (file : Ptr) : Kern Int := do
  let f ← getFile file
  let d ← getDentry f.fDentry
  let v ← getVinode d.dentryInode
  if v.type ≠ dirI then pure (-1)
  else do
    setDentry f.fDentry { d with dRef := d.dRef - 1 }
    setFile file { f with status := .none }
    runHook (iOps host v.iOps).viopHookClosedir d.dentryInode f.fDentry
    pure 0

end

/-! ## Mounting -/

/-- The name `"/"`. -/
def rootName : Name := [slash]

/-- `rfs_get_superblock`. -/
def rfsGetSuperblock : Kern Ptr := do
  if (← rfsR1block rfsBlkOffsetSuper) ≠ 0 then
    fault (.panic "RFS: failed to read superblock!")
  else do
    let s ← get
    let sb ← allocPage
    let magic := getInt s.iobuffer 0
    let size := getInt s.iobuffer 4
    let nblocks := getInt s.iobuffer 8
    let ninodes := getInt s.iobuffer 12
    if magic ≠ rfsMagic then fault (.panic "rfs_get_superblock: wrong ramdisk device!")
    else do
      let (rootInode, _) ← rfsLoadVinode sb 0
      let rootDentry ← allocVfsDentry rootName rootInode 0
      if (← rfsR1block rfsBlkOffsetBitmap) ≠ 0 then
        fault (.panic "RFS: failed to read bitmap!")
      else do
        let _ ← allocPage
        let s ← get
        setSuperBlock sb
          { magic := magic, size := size, nblocks := nblocks, ninodes := ninodes,
            sRoot := rootDentry, freemap := fun i => getInt s.iobuffer (4 * i) }
        pure sb

/-- `hostfs_get_superblock`. -/
def hostfsGetSuperblock : Kern Ptr := do
  let sb ← allocPage
  let rootInode ← defaultAllocVinode sb .hostfs
  let v ← getVinode rootInode
  setVinode rootInode { v with inum := -1, type := dirI }
  let rootDentry ← allocVfsDentry rootName rootInode 0
  setSuperBlock sb
    { magic := 0, size := 0, nblocks := 0, ninodes := 0, sRoot := rootDentry,
      freemap := fun _ => 0 }
  pure sb

def getSuperblockOf : FsType → Kern Ptr
  | .rfs => rfsGetSuperblock
  | .hostfs => hostfsGetSuperblock

/-- The two values of `mnt_type`. -/
inductive MountType where
  | default
  | asRoot
deriving DecidableEq, Repr

/-- `vfs_mount`. -/
def vfsMount (devName : Name) (mntType : MountType) : Kern Ptr := do
  let s ← get
  match s.vfsDevList.find? (·.devName == devName) with
  | none => fault (.panic "vfs_mount: cannot find the device entry!")
  | some dev => do
      let sb ← getSuperblockOf dev.fsType
      let b ← getSuperBlock sb
      let d ← getDentry b.sRoot
      let _ ← hashPutVinode d.dentryInode
      let s ← get
      if s.vfsSbList.length ≥ maxMounts then fault (.panic "vfs_mount: too many mounts!")
      else do
        modify fun s => { s with vfsSbList := s.vfsSbList ++ [sb] }
        match mntType with
        | .asRoot => do
            modify fun s => { s with vfsRootDentry := b.sRoot }
            let _ ← hashPutDentry b.sRoot
            pure sb
        | .default =>
            if s.vfsRootDentry = 0 then
              fault (.panic "vfs_mount: root dentry not found, please mount the root device first!")
            else do
              setDentry b.sRoot { d with name := dev.devName, parent := s.vfsRootDentry }
              let _ ← hashPutDentry b.sRoot
              pure sb

end Pke
