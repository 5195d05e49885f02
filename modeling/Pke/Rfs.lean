import Pke.Kernel

/-!
# RFS, the RAM disk file system (`ramdev.c`, `rfs.c`)

The disk holds a superblock, ten blocks of disk inodes, the bitmap and
the data blocks. Blocks are bytes; inodes and directory entries are
read out of them and written into them through the I/O buffer of the
device, in the layout of `rfs.h`.

Two parts of `rfs.c` that occur twice there occur once here: the scan
of a directory for a name (`rfsBrowse`, in `rfs_lookup` and
`rfs_unlink`) and the choice and initialisation of a free disk inode
(`rfsNewInode`, in `rfs_create` and `rfs_mkdir`). Console output is
left out.
-/

namespace Pke

open Exec (get modify fault ofOption)

/-! ## Block transfers -/

/-- `ramdisk_read`. -/
def ramdiskRead (blkno : Int) : Kern Int :=
  if blkno < 0 ∨ blkno ≥ ramdiskBlockCount then
    fault (.panic "ramdisk_read: read block No out of range!")
  else do
    modify fun s => { s with iobuffer := s.disk blkno.toNat }
    pure 0

/-- `ramdisk_write`. -/
def ramdiskWrite (blkno : Int) : Kern Int :=
  if blkno < 0 ∨ blkno ≥ ramdiskBlockCount then
    fault (.panic "ramdisk_write: write block No out of range!")
  else do
    modify fun s => { s with disk := upd s.disk blkno.toNat s.iobuffer }
    pure 0

def rfsR1block (nBlock : Int) : Kern Int := ramdiskRead nBlock

def rfsW1block (nBlock : Int) : Kern Int := ramdiskWrite nBlock

def setIobuffer (f : Block → Block) : Kern Unit :=
  modify fun s => { s with iobuffer := f s.iobuffer }

/-! ## Layout of inodes and directory entries -/

/-- Store an `int`. -/
def putInt (b : Block) (off : Nat) (v : Int) : Block := memcpy b off 4 (intByte v)

namespace Dinode

/-- Field `k` of the structure, all of them `int`s. -/
def word (d : Dinode) : Nat → Int
  | 0 => d.size
  | 1 => d.type
  | 2 => d.nlinks
  | 3 => d.blocks
  | k + 4 => if h : k < directBlknum then d.addrs ⟨k, h⟩ else 0

def byte (d : Dinode) (j : Nat) : UInt8 := intByte (d.word (j / 4)) (j % 4)

end Dinode

/-- `sizeof(struct rfs_dinode)`. -/
abbrev dinodeSize : Nat := 56

def getDinode (b : Block) (off : Nat) : Dinode where
  size := getInt b off
  type := getInt b (off + 4)
  nlinks := getInt b (off + 8)
  blocks := getInt b (off + 12)
  addrs i := getInt b (off + 16 + 4 * i)

/-- The part of a vinode that is kept on disk. -/
def Vinode.toDinode (v : Vinode) : Dinode where
  size := v.size
  type := v.type
  nlinks := v.nlinks
  blocks := v.blocks
  addrs := v.addrs

/-- `addrs[i]`, for an index the array has. -/
def addrAt (addrs : Fin directBlknum → Int) (i : Int) : Kern Int :=
  if h : 0 ≤ i ∧ i < directBlknum then pure (addrs ⟨i.toNat, by omega⟩)
  else fault (.ub "addrs")

/-- `addrs` with `addrs[i] = v` stored. -/
def setAddr (addrs : Fin directBlknum → Int) (i v : Int) : Kern (Fin directBlknum → Int) :=
  if 0 ≤ i ∧ i < directBlknum then pure fun k => if (k : Int) = i then v else addrs k
  else fault (.ub "addrs")

/-! ## Disk inodes -/

/-- `rfs_read_dinode`: a page with a copy of the disk inode. -/
def rfsReadDinode (nInode : Int) : Kern (Option (Ptr × Dinode)) := do
  let nBlock := nInode.tdiv 32 + rfsBlkOffsetInode
  let offset := nInode.tmod 32
  if (← rfsR1block nBlock) ≠ 0 then pure none
  else do
    let dinode ← allocPage
    if offset < 0 then fault (.ub "rfs_read_dinode: inode number")
    else do
      let s ← get
      pure (some (dinode, getDinode s.iobuffer (offset * rfsInodesize).toNat))

/-- `rfs_write_dinode`. -/
def rfsWriteDinode (dinode : Dinode) (nInode : Int) : Kern Int := do
  let nBlock := nInode.tdiv 32 + rfsBlkOffsetInode
  let offset := nInode.tmod 32
  let _ ← rfsR1block nBlock
  if offset < 0 then fault (.ub "rfs_write_dinode: inode number")
  else do
    setIobuffer fun b => memcpy b (offset * rfsInodesize).toNat dinodeSize dinode.byte
    rfsW1block nBlock

/-- `rfs_write_back_vinode`. -/
def rfsWriteBackVinode (vinode : Ptr) : Kern Int := do
  let v ← getVinode vinode
  if (← rfsWriteDinode v.toDinode v.inum) ≠ 0 then pure (-1) else pure 0

/-- `rfs_update_vinode`. -/
def rfsUpdateVinode (vinode : Ptr) : Kern Int := do
  let v ← getVinode vinode
  match ← rfsReadDinode v.inum with
  | none => pure (-1)
  | some (page, d) => do
      setVinode vinode { v with
        size := d.size, nlinks := d.nlinks, blocks := d.blocks, type := d.type,
        addrs := d.addrs }
      freePage page
      pure 0

/-- `default_alloc_vinode`; the fields it leaves alone hold no value yet. -/
def defaultAllocVinode (sb : Ptr) (iOps : FsType) : Kern Ptr := do
  let vinode ← allocPage
  setVinode vinode
    { inum := 0, ref := 0, size := 0, type := 0, nlinks := 0, blocks := 0,
      addrs := fun _ => 0, iFsInfo := 0, sb := sb, iOps := iOps }
  pure vinode

/-- `rfs_alloc_vinode`. -/
def rfsAllocVinode (sb : Ptr) : Kern Ptr := defaultAllocVinode sb .rfs

/-- A fresh vinode loaded with disk inode `inum`, and what `rfs_update_vinode`
returned. -/
def rfsLoadVinode (sb : Ptr) (inum : Int) : Kern (Ptr × Int) := do
  let vinode ← rfsAllocVinode sb
  let v ← getVinode vinode
  setVinode vinode { v with inum := inum }
  let ret ← rfsUpdateVinode vinode
  pure (vinode, ret)

/-! ## Data blocks -/

/-- The first free block at or after `block`, among `n`. -/
def findFreeBlock (freemap : Nat → Int) : (n block : Nat) → Option Nat
  | 0, _ => none
  | n + 1, block =>
      if freemap block = 0 then some block else findFreeBlock freemap n (block + 1)

/-- `rfs_alloc_block`. -/
def rfsAllocBlock (sb : Ptr) : Kern Int := do
  let b ← getSuperBlock sb
  match findFreeBlock b.freemap b.nblocks.toNat 0 with
  | none => fault (.panic "rfs_alloc_block: no more free block!")
  | some block => do
      setSuperBlock sb { b with freemap := upd b.freemap block 1 }
      pure (rfsBlkOffsetFree + block)

/-- `rfs_free_block`. -/
def rfsFreeBlock (sb : Ptr) (blockNum : Int) : Kern Unit := do
  let b ← getSuperBlock sb
  if blockNum < rfsBlkOffsetFree ∨ blockNum ≥ rfsBlkOffsetFree + 1024 then
    fault (.ub "freemap")
  else
    setSuperBlock sb
      { b with freemap := upd b.freemap (blockNum - rfsBlkOffsetFree).toNat 0 }

/-! ## Directories -/

/-- `dir->size / sizeof(struct rfs_direntry)`, an unsigned division. -/
def totalDirentrys (size : Int) : Nat := (wrap32 (size % 2 ^ 64 / direntrySize)).toNat

/-- `rfs_add_direntry`. -/
def rfsAddDirentry (dir : Ptr) (name : Name) (inum : Int) : Kern Int := do
  let v ← getVinode dir
  if v.type ≠ dirI then pure (-1)
  else do
    let nBlock ← addrAt v.addrs (v.size.tdiv rfsBlksize)
    if (← rfsR1block nBlock) ≠ 0 then pure (-1)
    else if v.size < 0 ∨ name.length ≥ rfsMaxFileNameLen then
      fault (.ub "rfs_add_direntry: name")
    else do
      let addr := (v.size % rfsBlksize).toNat
      setIobuffer fun b =>
        memcpy (putInt b addr inum) (addr + 4) (name.length + 1) (strBytes name)
      if (← rfsW1block nBlock) ≠ 0 then pure (-1)
      else do
        setVinode dir { v with size := v.size + direntrySize }
        if (← rfsWriteBackVinode dir) ≠ 0 then pure (-1) else pure 0

/-- Before entry `i` is looked at: read its block when it is the first entry
there. `p` is where `p_direntry` points in the I/O buffer. -/
def rfsBrowseBlock (addrs : Fin directBlknum → Int) (i : Nat) (p : Option Nat) :
    Kern (Option Nat) :=
  if i % 128 = 0 then do
    let block ← addrAt addrs (i / 128 : Nat)
    let _ ← rfsR1block block
    pure (some 0)
  else pure p

/-- Browse directory entries `i`, `i + 1`, ... for `name`: the index of the
first match (or the end), and where `p_direntry` points. -/
def rfsBrowse (addrs : Fin directBlknum → Int) (name : Name) :
    (n i : Nat) → Option Nat → Kern (Nat × Option Nat)
  | 0, i, p => pure (i, p)
  | n + 1, i, p => do
      let p ← rfsBrowseBlock addrs i p
      let off ← ofOption (.ub "p_direntry") p
      let s ← get
      if strcmpEq s.iobuffer (off + 4) name then pure (i, some off)
      else rfsBrowse addrs name n (i + 1) (some (off + 32))

/-- `rfs_lookup`. -/
def rfsLookup (parent subDentry : Ptr) : Kern (Option Ptr) := do
  let v ← getVinode parent
  let d ← getDentry subDentry
  let total := totalDirentrys v.size
  let (i, p) ← rfsBrowse v.addrs d.name total 0 none
  if i = total then pure none
  else do
    let off ← ofOption (.ub "p_direntry") p
    let s ← get
    let (child, ret) ← rfsLoadVinode v.sb (getInt s.iobuffer off)
    if ret ≠ 0 then fault (.panic "rfs_lookup: read inode failed!")
    else pure (some child)

/-! ## Creation -/

/-- The scan for a free disk inode. When it finds none, `free_dinode` is left
pointing to a page that has been given back. -/
def rfsFindFreeInode : (n : Nat) → (i : Int) → Kern (Int × Ptr × Dinode)
  | 0, _ => fault (.ub "free_dinode")
  | n + 1, i => do
      let (page, d) ← ofOption (.ub "free_dinode") (← rfsReadDinode i)
      if d.type = rFree then pure (i, page, d)
      else do
        freePage page
        rfsFindFreeInode n (i + 1)

/-- Choose a free disk inode, give it one data block and write it to disk. -/
def rfsNewInode (sb : Ptr) (type : Int) : Kern Int := do
  let (freeInum, page, d) ← rfsFindFreeInode rfsInodeCount 0
  let block ← rfsAllocBlock sb
  let addrs ← setAddr d.addrs 0 block
  let _ ← rfsWriteDinode
    { size := 0, type := type, nlinks := 1, blocks := 1, addrs := addrs } freeInum
  freePage page
  pure freeInum

/-- `rfs_create`. -/
def rfsCreate (parent subDentry : Ptr) : Kern (Option Ptr) := do
  let v ← getVinode parent
  let freeInum ← rfsNewInode v.sb rFile
  let (newVinode, _) ← rfsLoadVinode v.sb freeInum
  let d ← getDentry subDentry
  if (← rfsAddDirentry parent d.name freeInum) = -1 then pure none
  else pure (some newVinode)

/-- `rfs_mkdir`. -/
def rfsMkdir (parent subDentry : Ptr) : Kern (Option Ptr) := do
  let v ← getVinode parent
  let freeInum ← rfsNewInode v.sb rDir
  let d ← getDentry subDentry
  if (← rfsAddDirentry parent d.name freeInum) = -1 then pure none
  else do
    let (subVinode, _) ← rfsLoadVinode v.sb freeInum
    pure (some subVinode)

/-! ## Links -/

/-- `rfs_link`. -/
def rfsLink (parent subDentry linkNode : Ptr) : Kern Int := do
  let l ← getVinode linkNode
  setVinode linkNode { l with nlinks := l.nlinks + 1 }
  let d ← getDentry subDentry
  if (← rfsAddDirentry parent d.name l.inum) ≠ 0 then do
    let l ← getVinode linkNode
    setVinode linkNode { l with nlinks := l.nlinks - 1 }
    pure (-1)
  else if (← rfsWriteBackVinode linkNode) ≠ 0 then pure (-1)
  else pure 0

/-- Free the blocks `addrs[i]`, ..., `n` of them. -/
def rfsFreeBlocks (sb : Ptr) (addrs : Fin directBlknum → Int) : (n i : Nat) → Kern Unit
  | 0, _ => pure ()
  | n + 1, i => do
      let block ← addrAt addrs i
      rfsFreeBlock sb block
      rfsFreeBlocks sb addrs n (i + 1)

/-- Move the entries of the blocks `addrs[i]`, ... (`n` of them) forward by
one. `page` and `previous` are the copy of the block before. -/
def rfsShiftBlocks (addrs : Fin directBlknum → Int) :
    (n : Nat) → (i : Int) → (page : Ptr) → (previous : Block) → Kern (Ptr × Block)
  | 0, _, page, previous => pure (page, previous)
  | n + 1, i, page, previous => do
      let block ← addrAt addrs i
      let _ ← rfsR1block block
      let thisPage ← allocPage
      let s ← get
      let before ← addrAt addrs (i - 1)
      setIobuffer fun b => memcpy previous (127 * 32) 32 b
      let _ ← rfsW1block before
      freePage page
      rfsShiftBlocks addrs n (i + 1) thisPage (memmove s.iobuffer 0 32 (127 * 32))

/-- The part of `rfs_unlink` that drops the name from its inode, and the inode
and its blocks with the last name. -/
def rfsDropLink (sb : Ptr) (inum : Int) (unlinkVinode : Ptr) : Kern Unit := do
  let (page, d) ← ofOption (.ub "unlink_dinode") (← rfsReadDinode inum)
  let u ← getVinode unlinkVinode
  if u.nlinks ≠ d.nlinks then
    fault (.assertion "unlink_vinode->nlinks == unlink_dinode->nlinks")
  else do
    setVinode unlinkVinode { u with nlinks := u.nlinks - 1 }
    if u.nlinks - 1 = 0 then do
      rfsFreeBlocks sb d.addrs d.blocks.toNat 0
      let _ ← rfsWriteDinode { d with nlinks := u.nlinks - 1, type := rFree } inum
      freePage page
    else do
      let _ ← rfsWriteDinode { d with nlinks := u.nlinks - 1 } inum
      freePage page

/-- The last step of `rfs_unlink`: give back the last block when it has become
empty, and shorten the directory. -/
def rfsShrinkDir (parent : Ptr) (v : Vinode) (last : Int) (total : Nat) : Kern Unit :=
  if (total - 1) % 128 = 0 ∧ v.blocks > 1 then do
    rfsFreeBlock v.sb last
    setVinode parent { v with blocks := v.blocks - 1, size := v.size - direntrySize }
  else setVinode parent { v with size := v.size - direntrySize }

/-- The part of `rfs_unlink` that removes entry `deleteIndex` from the
directory file. -/
def rfsRemoveDirentry (parent : Ptr) (deleteIndex total : Nat) : Kern Int := do
  let v ← getVinode parent
  let deleteBlockIndex : Int := (deleteIndex / 128 : Nat)
  let first ← addrAt v.addrs deleteBlockIndex
  let _ ← rfsR1block first
  let offset := deleteIndex % 128
  setIobuffer fun b => memmove b (offset * 32) ((offset + 1) * 32) ((128 - offset - 1) * 32)
  let page ← allocPage
  let s ← get
  let (page, previous) ← rfsShiftBlocks v.addrs (v.blocks - (deleteBlockIndex + 1)).toNat
    (deleteBlockIndex + 1) page s.iobuffer
  setIobuffer fun _ => previous
  let last ← addrAt v.addrs (v.blocks - 1)
  let _ ← rfsW1block last
  freePage page
  rfsShrinkDir parent v last total
  if (← rfsWriteBackVinode parent) ≠ 0 then pure (-1) else pure 0

/-- `rfs_unlink`. -/
def rfsUnlink (parent subDentry unlinkVinode : Ptr) : Kern Int := do
  let v ← getVinode parent
  let d ← getDentry subDentry
  let total := totalDirentrys v.size
  let (deleteIndex, p) ← rfsBrowse v.addrs d.name total 0 none
  let off ← ofOption (.ub "p_direntry") p
  let s ← get
  let inum := getInt s.iobuffer off
  if deleteIndex = total then pure (-1)
  else do
    rfsDropLink v.sb inum unlinkVinode
    rfsRemoveDirentry parent deleteIndex total

/-! ## File data -/

/-- The complete blocks `rfs_read` copies after the first one, each read with
`r1block`. -/
def rfsReadBlocks (r1block : Int → Kern Int) (addrs : Fin directBlknum → Int) :
    (n : Nat) → (buffer : Block) → (bufOffset blockOffset : Int) →
      Kern (Block × Int × Int)
  | 0, buffer, bufOffset, blockOffset => pure (buffer, bufOffset, blockOffset)
  | n + 1, buffer, bufOffset, blockOffset => do
      let block ← addrAt addrs blockOffset
      let _ ← r1block block
      let s ← get
      rfsReadBlocks r1block addrs n
        (memcpy buffer bufOffset.toNat rfsBlksize.toNat s.iobuffer)
        (bufOffset + rfsBlksize) (blockOffset + 1)

/-- The blocks `rfs_read` copies after the first one, when there are any. -/
def rfsReadRest (r1block : Int → Kern Int) (addrs : Fin directBlknum → Int)
    (readtimes remain : Int) (buffer : Block) (bufOffset blockOffset : Int) : Kern Block :=
  if readtimes - 1 ≥ 0 then do
    let (buffer, bufOffset, blockOffset) ←
      rfsReadBlocks r1block addrs (readtimes - 1).toNat buffer bufOffset blockOffset
    if remain > 0 then do
      let block ← addrAt addrs blockOffset
      let _ ← r1block block
      let s ← get
      pure (memcpy buffer bufOffset.toNat remain.toNat s.iobuffer)
    else pure buffer
  else pure buffer

/-- The body of `rfs_read` up to its `strcpy`, with `r1block` for the transfers and the
uninitialised contents of its local `buffer`: the length, and the buffer. -/
def rfsGather (r1block : Int → Kern Int) (fInode : Ptr) (len offset : Int) (buffer : Block) :
    Kern (Int × Block) := do
  let v ← getVinode fInode
  if v.size < offset then fault (.panic "rfs_read:offset should less than file size!")
  else do
    let len := if v.size < offset + len then v.size - offset else len
    let align := offset.tmod rfsBlksize
    let blockOffset := offset.tdiv rfsBlksize
    let readtimes := (align + len).tdiv rfsBlksize
    let remain := (align + len).tmod rfsBlksize
    let first ← addrAt v.addrs blockOffset
    let _ ← r1block first
    let firstBlockLen := if readtimes = 0 then len else rfsBlksize - align
    let s ← get
    let buffer := memcpy buffer 0 firstBlockLen.toNat fun j => s.iobuffer (align.toNat + j)
    let buffer ← rfsReadRest r1block v.addrs readtimes remain buffer firstBlockLen
      (blockOffset + 1)
    pure (len, upd buffer len.toNat 0)

/-- The body of `rfs_read`: the length, the new offset, and the bytes `strcpy` stores in
`r_buf`. -/
def rfsReadBy (r1block : Int → Kern Int) (fInode : Ptr) (len offset : Int) (buffer : Block) :
    Kern (Int × Int × List UInt8) := do
  let r ← rfsGather r1block fInode len offset buffer
  pure (r.1, offset + r.1, cstr r.2 0 r.1.toNat ++ [0])

/-- `rfs_read`. -/
def rfsRead (fInode : Ptr) (len offset : Int) (buffer : Block) : Kern (Int × Int × List UInt8) :=
  rfsReadBy rfsR1block fInode len offset buffer

/-- A new block at the end of the block list, when `blockOffset` is there. -/
def rfsGrow (fInode : Ptr) (blockOffset : Int) : Kern Unit := do
  let v ← getVinode fInode
  if blockOffset = v.blocks then do
    let block ← rfsAllocBlock v.sb
    let addrs ← setAddr v.addrs blockOffset block
    setVinode fInode { v with addrs := addrs, blocks := v.blocks + 1 }
  else pure ()

/-- One block of `rfs_write` that is written from its start: allocated when
it is the block after the last, then filled with `len` bytes of `w_buf`. -/
def rfsWriteBlock (fInode : Ptr) (wBuf : List UInt8) (bufOffset blockOffset len : Int) :
    Kern Unit := do
  rfsGrow fInode blockOffset
  let v ← getVinode fInode
  let block ← addrAt v.addrs blockOffset
  setIobuffer fun b => memcpy b 0 len.toNat fun j => wBuf.getD (bufOffset.toNat + j) 0
  let _ ← rfsW1block block
  pure ()

/-- The complete blocks of `rfs_write`. -/
def rfsWriteBlocks (fInode : Ptr) (wBuf : List UInt8) :
    (n : Nat) → (bufOffset blockOffset : Int) → Kern (Int × Int)
  | 0, bufOffset, blockOffset => pure (bufOffset, blockOffset)
  | n + 1, bufOffset, blockOffset => do
      rfsWriteBlock fInode wBuf bufOffset blockOffset rfsBlksize
      rfsWriteBlocks fInode wBuf n (bufOffset + rfsBlksize) (blockOffset + 1)

/-- The part of `rfs_write` for an `offset` inside a block: the bytes written,
the next block, and the complete blocks left. -/
def rfsWriteFirst (addrs : Fin directBlknum → Int) (wBuf : List UInt8)
    (align blockOffset writetimes : Int) : Kern (Int × Int × Int) :=
  if align ≠ 0 then do
    let first ← addrAt addrs blockOffset
    let _ ← rfsR1block first
    let firstBlockLen := if writetimes = 0 then (wBuf.length : Int) else rfsBlksize - align
    setIobuffer fun b => memcpy b align.toNat firstBlockLen.toNat fun j => wBuf.getD j 0
    let _ ← rfsW1block first
    pure (firstBlockLen, blockOffset + 1, writetimes - 1)
  else pure (0, blockOffset, writetimes)

/-- The part of `rfs_write` from the first block on that is written from its
start. -/
def rfsWriteRest (fInode : Ptr) (wBuf : List UInt8)
    (bufOffset blockOffset writetimes remain : Int) : Kern Unit :=
  if writetimes ≥ 0 then do
    let (bufOffset, blockOffset) ←
      rfsWriteBlocks fInode wBuf writetimes.toNat bufOffset blockOffset
    if remain > 0 then rfsWriteBlock fInode wBuf bufOffset blockOffset remain
    else pure ()
  else pure ()

/-- `rfs_write` of the bytes `wBuf`: the length and the new offset. -/
def rfsWrite (fInode : Ptr) (wBuf : List UInt8) (offset : Int) : Kern (Int × Int) := do
  let len : Int := wBuf.length
  let v ← getVinode fInode
  if v.size < offset then fault (.panic "rfs_write:offset should less than file size!")
  else do
    let align := offset.tmod rfsBlksize
    let writetimes := (len + align).tdiv rfsBlksize
    let remain := (len + align).tmod rfsBlksize
    let (bufOffset, blockOffset, writetimes) ←
      rfsWriteFirst v.addrs wBuf align (offset.tdiv rfsBlksize) writetimes
    rfsWriteRest fInode wBuf bufOffset blockOffset writetimes remain
    let v ← getVinode fInode
    setVinode fInode
      { v with size := if v.size < offset + len then offset + len else v.size }
    pure (len, offset + len)

/-- `rfs_lseek`: its result and the offset it leaves. -/
def rfsLseek (fInode : Ptr) (newOffset whence offset : Int) : Kern (Int × Int) := do
  let v ← getVinode fInode
  if whence = lseekSet then
    if newOffset < 0 ∨ newOffset > v.size then pure (-1, offset) else pure (0, newOffset)
  else if whence = lseekCur then
    if offset + newOffset < 0 ∨ offset + newOffset > v.size then pure (-1, offset)
    else pure (0, offset + newOffset)
  else pure (-1, offset)

/-! ## Directory caches -/

/-- The loop of `rfs_hook_opendir`, over the blocks `n - 1`, ..., `0`. -/
def rfsCacheBlocks (addrs : Fin directBlknum → Int) : (n : Nat) → (pdire : Ptr) → Kern Ptr
  | 0, pdire => pure pdire
  | n + 1, previous => do
      let pdire ← allocPage
      if previous ≠ 0 ∧ previous ≠ pdire + 4096 then
        fault (.panic "rfs_hook_opendir: memory discontinuity")
      else do
        let block ← addrAt addrs n
        let _ ← rfsR1block block
        modify fun s => s.setPage pdire (.dirBlock s.iobuffer)
        rfsCacheBlocks addrs n pdire

/-- `rfs_hook_opendir`. -/
def rfsHookOpendir (dirVinode : Ptr) : Kern Int := do
  let v ← getVinode dirVinode
  let pdire ← rfsCacheBlocks v.addrs v.blocks.toNat 0
  let dirCache ← allocPage
  modify fun s => s.setPage dirCache (.dirCache ⟨v.blocks, pdire⟩)
  setVinode dirVinode { v with iFsInfo := dirCache }
  pure 0

/-- Give back the `n` pages from `base + i * RFS_BLKSIZE` on. -/
def freeDirBlocks (base : Ptr) : (n i : Nat) → Kern Unit
  | 0, _ => pure ()
  | n + 1, i => do
      freePage (base + i * 4096)
      freeDirBlocks base n (i + 1)

/-- `rfs_hook_closedir`. The page of the cache itself is not given back, and
the vinode keeps pointing to it. -/
def rfsHookClosedir (dirVinode : Ptr) : Kern Int := do
  let v ← getVinode dirVinode
  let c ← getDirCache v.iFsInfo
  freeDirBlocks c.dirBaseAddr c.blockCount.toNat 0
  pure 0

/-- The entry `p_direntry` points to, as `strcpy` and the assignment to
`dir->inum` copy it out of the page it lies in. -/
def readDirentry (pDirentry : Int) : Kern Dir := do
  let b ← getDirBlock (pDirentry / 4096 * 4096).toNat
  let off := (pDirentry % 4096).toNat
  let name := cstr b (off + 4) (4096 - (off + 4))
  if name.length = 4096 - (off + 4) then fault (.ub "p_direntry->name")
  else if name.length ≥ maxFileNameLen then fault (.ub "dir->name")
  else pure ⟨name, getInt b off⟩

/-- `rfs_readdir`: the result, what is stored in `dir`, and the new offset. -/
def rfsReaddir (dirVinode : Ptr) (offset : Int) : Kern (Int × Option Dir × Int) := do
  let v ← getVinode dirVinode
  if offset ≥ wrap32 (v.size % 2 ^ 64 / direntrySize) then pure (-1, none, offset)
  else do
    let c ← getDirCache v.iFsInfo
    let dir ← readDirentry (c.dirBaseAddr + direntrySize * offset)
    pure (0, some dir, offset + 1)

/-- `rfs_disk_stat`. -/
def rfsDiskStat (vinode : Ptr) : Kern (Int × Option Istat) := do
  let v ← getVinode vinode
  match ← rfsReadDinode v.inum with
  | none => pure (-1, none)
  | some (page, dinode) => do
      freePage page
      pure (0, some ⟨v.inum, dinode.size, dinode.type, dinode.nlinks, dinode.blocks⟩)

/-! ## Formatting and mounting -/

/-- The first four fields of the empty disk inodes of a fresh inode block. -/
def formatInodes : (n : Nat) → Block → Block
  | 0, b => b
  | n + 1, b =>
      formatInodes n <|
        putInt (putInt (putInt (putInt b (n * 128) 0) (n * 128 + 4) rFree) (n * 128 + 8) 0)
          (n * 128 + 12) 0

/-- Write the I/O buffer to the inode blocks `i`, ..., `n` of them. -/
def formatInodeBlocks : (n : Nat) → (i : Int) → Kern Unit
  | 0, _ => pure ()
  | n + 1, i => do
      if (← rfsW1block (rfsBlkOffsetInode + i)) ≠ 0 then
        fault (.panic "RFS: failed to initialize empty inodes!")
      else formatInodeBlocks n (i + 1)

/-- `rfs_format_dev`; `stack` is where its local `root_dinode` finds the
values of the fields it does not set. -/
def rfsFormatDev (stack : Block) : Kern Int := do
  setIobuffer fun b =>
    putInt (putInt (putInt (putInt b 0 rfsMagic) 4 112) 8 100) 12 320
  if (← rfsW1block rfsBlkOffsetSuper) ≠ 0 then
    fault (.panic "RFS: failed to write superblock!")
  else do
    setIobuffer (formatInodes 32)
    formatInodeBlocks 10 0
    let addrs ← setAddr (fun i => getInt stack (4 * i)) 0 rfsBlkOffsetFree
    let rootDinode : Dinode :=
      { size := 0, type := rDir, nlinks := 1, blocks := 1, addrs := addrs }
    if (← rfsWriteDinode rootDinode 0) ≠ 0 then pure (-1)
    else do
      setIobuffer fun b => putInt (memcpy b 0 4096 fun _ => 0) 0 1
      if (← rfsW1block rfsBlkOffsetBitmap) ≠ 0 then pure (-1) else pure 0

end Pke
