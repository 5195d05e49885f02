import Pke.Process

/-!
# Loading a program (`elf.c`, `kernel.c`)

The host file is its bytes. `elf_load` reads the program headers from it
one after the other; for each loadable one it maps fresh pages, copies the
bytes of the file into them page by page, and records the region.
-/

namespace Pke

/-- A file on the host. -/
structure HostFile where
  bytes : Mem
  size : Nat

/-- `elf_status`. -/
inductive ElfStatus where
  | ok
  | eio
  | enomem
  | notelf
  | err
deriving DecidableEq, Repr

def load16 (m : Mem) (a : Nat) : Nat := leNat (fun i => m (a + i)) 2
def load32 (m : Mem) (a : Nat) : Nat := leNat (fun i => m (a + i)) 4

/-- The fields of `elf_header` that are read. -/
structure ElfHeader where
  magic : Nat
  entry : Nat
  phoff : Nat
  phnum : Nat

/-- The fields of `elf_prog_header` that are read. -/
structure ProgHeader where
  type : Nat
  flags : Nat
  off : Nat
  vaddr : Nat
  filesz : Nat
  memsz : Nat
deriving DecidableEq

def elfHeaderSize : Nat := 64
def progHeaderSize : Nat := 56

def elfHeader (m : Mem) : ElfHeader :=
  ⟨load32 m 0, load64 m 24, load64 m 32, load16 m 56⟩

def progHeader (m : Mem) (a : Nat) : ProgHeader :=
  ⟨load32 m a, load32 m (a + 4), load64 m (a + 8), load64 m (a + 16), load64 m (a + 32),
    load64 m (a + 40)⟩

/-- `ELF_MAGIC`. -/
def elfMagic : Nat := 1179403647

/-- `ELF_PROG_LOAD`. -/
def elfProgLoad : Nat := 1

def segmentReadable : Nat := 4
def segmentExecutable : Nat := 1
def segmentWritable : Nat := 2

/-- The number of bytes `spike_file_pread` returns. -/
def HostFile.pread (f : HostFile) (nb offset : Nat) : Nat := min nb (f.size - offset)

/-- `ROUNDUP` of a 64-bit number. -/
def roundUp64 (a b : Nat) : Nat := (sub64 a 1 / b + 1) * b % 2 ^ 64

namespace Machine

open Exec (Post get modify)

/-- The permissions of a segment. -/
def segmentProt (flags : Nat) : Nat :=
  (if flags &&& segmentReadable ≠ 0 then protRead else 0) |||
    (if flags &&& segmentWritable ≠ 0 then protWrite else 0) |||
    (if flags &&& segmentExecutable ≠ 0 then protExec else 0)

/-- The loop of `elf_alloc_mb`, from page `i` on. -/
def elfAllocFrom (p : Pid) (segmentStart prot : Nat) : Nat → Nat → ProcM Unit
  | 0, _ => pure ()
  | n + 1, i => do
      let pa ← allocPage
      if pa = 0 then fault (.panic "uvmalloc mem alloc falied")
      else do
        memset pa 0 pgSize
        let k ← get
        inPhys (Phys.userVmMap (k.procs p).pagetable (segmentStart + i * pgSize) pgSize pa
          (protToType prot true))
        elfAllocFrom p segmentStart prot n (i + 1)

/-- How many pages a segment takes. -/
def segmentPages (elfVa size : Nat) : Nat :=
  sub64 (roundUp64 ((elfVa + size) % 2 ^ 64) pgSize) (roundDown elfVa pgSize) / pgSize

/-- `elf_alloc_mb`. -/
def elfAllocMb (p : Pid) (elfVa size flags : Nat) : ProcM Nat := do
  elfAllocFrom p (roundDown elfVa pgSize) (segmentProt flags) (segmentPages elfVa size) 0
  pure (segmentPages elfVa size)

/-- The loop that copies a segment from the file, with fuel. -/
def elfCopyFrom (p : Pid) (f : HostFile) (ph : ProgHeader) : Nat → Nat → ProcM ElfStatus
  | 0, loaded => if loaded < ph.filesz then fault (.ub "fuel") else pure .ok
  | fuel + 1, loaded =>
      if loaded < ph.filesz then do
        let va := ph.vaddr + loaded
        let pageVa := roundDown va pgSize
        let pageOffset := va - pageVa
        let k ← get
        let pa ← inPhys (Phys.lookupPa (k.procs p).pagetable pageVa)
        let bytes := min (ph.filesz - loaded) (pgSize - pageOffset)
        let off := (ph.off + loaded) % 2 ^ 64
        if pa = 0 then pure .eio
        else do
          inPhys (modify fun s => { s with
            mem := Pke.memcpy s.mem (pa + pageOffset) (f.pread bytes off) fun i =>
              f.bytes (off + i) })
          if f.pread bytes off ≠ bytes then pure .eio
          else elfCopyFrom p f ph fuel (loaded + bytes)
      else pure .ok

/-- The first region whose address is `0`. -/
def freeRegion (regions : Fin 256 → MappedRegion) : Option (Fin 256) :=
  (List.finRange 256).find? fun j => (regions j).va = 0

/-- The type of a segment with these permissions. -/
def segmentType (flags : Nat) : Option SegmentType :=
  if flags = (segmentReadable ||| segmentExecutable) then some .code
  else if flags = (segmentReadable ||| segmentWritable) then some .data
  else none

/-- The end of the body of the loop of `elf_load`: the region is recorded. -/
def recordRegion (p : Pid) (ph : ProgHeader) (npages : Nat) : ProcM Unit := do
  let k ← get
  match freeRegion (k.procs p).regions with
  | none => fault (.ub "mapped_info")
  | some j =>
      modifyProc p fun q => setRegion q j { q.regions j with va := ph.vaddr, npages := npages }
      match segmentType ph.flags with
      | none => fault (.panic "unknown program segment encountered, segment flag:%d.")
      | some type => do
          modifyProc p fun q => setRegion q j { q.regions j with segType := type }
          modifyProc p fun q => { q with totalMappedRegion := q.totalMappedRegion + 1 }

/-- The body of the loop of `elf_load`, for a program header that has been read. -/
def elfLoadSegment (p : Pid) (f : HostFile) (ph : ProgHeader) : ProcM ElfStatus := do
  if ph.type ≠ elfProgLoad then pure .ok
  else if ph.memsz < ph.filesz then pure .err
  else if (ph.vaddr + ph.memsz) % 2 ^ 64 < ph.vaddr then pure .err
  else do
    let npages ← elfAllocMb p ph.vaddr ph.memsz ph.flags
    match ← elfCopyFrom p f ph (ph.filesz / pgSize + 2) 0 with
    | .ok => do
        recordRegion p ph npages
        pure .ok
    | status => pure status

/-- The offset `off` as the argument of `elf_fpread`. -/
def fileOffset (off : Int) : Nat := (off % 2 ^ 64).toNat

/-- The loop of `elf_load`. -/
def elfLoadFrom (p : Pid) (f : HostFile) : Nat → Int → ProcM ElfStatus
  | 0, _ => pure .ok
  | n + 1, off =>
      if f.pread progHeaderSize (fileOffset off) ≠ progHeaderSize then pure .eio
      else do
        match ← elfLoadSegment p f (progHeader f.bytes (fileOffset off)) with
        | .ok => elfLoadFrom p f n (wrap32 (off + progHeaderSize))
        | status => pure status

/-- `elf_load`. -/
def elfLoad (p : Pid) (f : HostFile) : ProcM ElfStatus :=
  elfLoadFrom p f (elfHeader f.bytes).phnum (wrap32 (elfHeader f.bytes).phoff)

/-- `elf_init`. -/
def elfInit (f : HostFile) : ElfStatus :=
  if f.pread elfHeaderSize 0 ≠ elfHeaderSize then .eio
  else if (elfHeader f.bytes).magic ≠ elfMagic then .notelf
  else .ok

/-- `load_bincode_from_host_elf`, for the file that has been opened. -/
def loadBincodeFromHostElf (p : Pid) (f : HostFile) : ProcM Unit := do
  if elfInit f ≠ .ok then fault (.panic "fail to init elfloader.")
  else do
    if (← elfLoad p f) ≠ .ok then fault (.panic "Fail on loading elf.")
    else modifyProc p fun q => { q with frame := { q.frame with epc := (elfHeader f.bytes).entry } }

/-- `load_user_program`. -/
def loadUserProgram (f : HostFile) : ProcM Pid := do
  let p ← allocProcess
  loadBincodeFromHostElf p f
  pure p

/-- `s_start`, after the memory and the file system have been set up. -/
def sStart (f : HostFile) : ProcM Unit := do
  initProcPool
  let p ← loadUserProgram f
  insertToReadyQueue p
  schedule

end Machine

end Pke
