import Pke.Vfs

/-!
# Runs of the file system

`fsInit` is the boot of the file system (`fs_init`): the host file system
mounted as the root, the RAM disk formatted and mounted under it. An
`Op` is a call into the VFS with its arguments, `Op.exec` is the call,
and a run is a list of operations executed one after the other.
-/

namespace Pke

open Exec (get modify fault ofOption)

/-! ## Boot -/

/-- `"HOSTDEV"`. -/
def hostdevName : Name := [72, 79, 83, 84, 68, 69, 86]

/-- `"RAMDISK0"`. -/
def ramdiskName : Name := [82, 65, 77, 68, 73, 83, 75, 48]

/-- What the file system finds at boot: whatever is in the memory of the RAM
disk, its I/O buffer and the kernel stack, the pages that are free after the
devices have been set up, each of them once, and a host that has the three
standard streams open. -/
structure Boot where
  disk : Nat → Block
  iobuffer : Block
  stack : Block
  freePages : List Ptr
  freeMemStart : Nat
  freeMemEnd : Nat
  nodup : freePages.Nodup
  inRange : ∀ p ∈ freePages, p % pgSize = 0 ∧ freeMemStart ≤ p ∧ p < freeMemEnd
  startPos : 0 < freeMemStart
  host : Host
  streams : ∀ k, host.fdAt k ≠ none ↔ 0 ≤ k ∧ k < 3

namespace Boot

/-- The state after `vfs_init` and the registration of the two devices. -/
def init (b : Boot) : State where
  disk := b.disk
  iobuffer := b.iobuffer
  pages := fun _ => .free
  freePages := b.freePages
  freeMemStart := b.freeMemStart
  freeMemEnd := b.freeMemEnd
  dentryHash := .empty
  vinodeHash := .empty
  vfsRootDentry := 0
  vfsSbList := []
  vfsDevList := [⟨hostdevName, .hostfs⟩, ⟨ramdiskName, .rfs⟩]
  spike := .boot b.host

end Boot

/-- `fs_init`. -/
def fsInit (stack : Block) : Kern Unit := do
  let _ ← vfsMount hostdevName .asRoot
  let _ ← rfsFormatDev stack
  let _ ← vfsMount ramdiskName .default
  pure ()

/-! ## Operations -/

/-- A call into the VFS. -/
inductive Op where
  | open (path : Path) (flags : Nat)
  | read (file : Ptr) (count : Nat) (stack : Block)
  | write (file : Ptr) (buf : List UInt8)
  | lseek (file : Ptr) (offset whence : Int)
  | close (file : Ptr)
  | link (oldpath newpath : Path)
  | unlink (path : Path)
  | mkdir (path : Path)
  | opendir (path : Path)
  | readdir (file : Ptr)
  | closedir (file : Ptr)
  | mount (devName : Name) (mntType : MountType)

/-- The call; its result as an integer (a pointer for `open`, `opendir` and
`mount`, 0 for `NULL`). -/
def Op.exec (host : VinodeOps) : Op → Kern Int
  | .open path flags => do
      let f ← vfsOpen host path flags
      pure ((f.getD 0 : Nat) : Int)
  | .read file count stack => do
      let (len, _) ← vfsRead host file count stack
      pure len
  | .write file buf => vfsWrite host file buf
  | .lseek file offset whence => vfsLseek host file offset whence
  | .close file => vfsClose host file
  | .link oldpath newpath => vfsLink host oldpath newpath
  | .unlink path => vfsUnlink host path
  | .mkdir path => vfsMkdir host path
  | .opendir path => do
      let f ← vfsOpendir host path
      pure ((f.getD 0 : Nat) : Int)
  | .readdir file => do
      let (ret, _) ← vfsReaddir host file
      pure ret
  | .closedir file => vfsClosedir host file
  | .mount devName mntType => do
      let sb ← vfsMount devName mntType
      pure ((sb : Nat) : Int)

end Pke
