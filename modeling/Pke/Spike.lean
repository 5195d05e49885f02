import Pke.Host

/-!
# Handles for the files of the host (`spike_file.c`)

The kernel reaches the files of the host through `spike_files`, a table of
handles with counts of references, and `spike_fds`, which refers to the
handles of the three standard streams.
-/

namespace Pke

abbrev maxFiles : Nat := 128
abbrev maxFds : Nat := 128
abbrev initFileRef : Nat := 3

/-- `spike_file_t`. -/
structure SpikeFile where
  kfd : Int
  refcnt : Nat
deriving DecidableEq

/-- `spike_files`, `spike_fds` and the host. -/
structure Spike where
  files : Fin maxFiles → SpikeFile
  fds : Fin maxFds → Option (Fin maxFiles)
  host : Host

namespace Spike

def setFile (s : Spike) (f : Fin maxFiles) (x : SpikeFile) : Spike :=
  { s with files := upd s.files f x }

/-- The first handle nobody uses. -/
def freeFile (s : Spike) : Option (Fin maxFiles) :=
  (List.finRange maxFiles).find? fun f => (s.files f).refcnt == 0

/-- `spike_file_get_free`. -/
def spikeFileGetFree (s : Spike) : Option (Fin maxFiles × Spike) :=
  s.freeFile.map fun f => (f, s.setFile f { s.files f with refcnt := initFileRef })

/-- `spike_file_decref`. -/
def spikeFileDecref (s : Spike) (f : Fin maxFiles) : Spike :=
  let file := s.files f
  let s := s.setFile f { file with refcnt := (file.refcnt + 2 ^ 32 - 1) % 2 ^ 32 }
  if file.refcnt = 2 then
    { s.setFile f { file with refcnt := 0 } with host := s.host.close file.kfd }
  else s

/-- `spike_file_dup`. -/
def spikeFileDup (s : Spike) (f : Fin maxFiles) : Spike :=
  match (List.finRange maxFds).find? fun i => (s.fds i).isNone with
  | none => s
  | some i =>
      let file := s.files f
      { s.setFile f { file with refcnt := (file.refcnt + 1) % 2 ^ 32 } with
        fds := upd s.fds i (some f) }

/-- One round of `spike_file_init`. -/
def initStream (s : Spike) (i : Int) : Spike :=
  match s.spikeFileGetFree with
  | none => s
  | some (f, s) => spikeFileDup (s.setFile f { s.files f with kfd := i }) f

/-- `spike_file_init`. -/
def spikeFileInit (s : Spike) : Spike := ((s.initStream 0).initStream 1).initStream 2

/-- The handles at boot. -/
def boot (h : Host) : Spike := spikeFileInit ⟨fun _ => ⟨-1, 0⟩, fun _ => none, h⟩

/-- `spike_file_open`: a handle, or the error of the host (`ENOMEM` when there
is no handle left). -/
def spikeFileOpen (s : Spike) (fn : List UInt8) (creat : Bool) :
    Except Int (Fin maxFiles) × Spike :=
  match s.spikeFileGetFree with
  | none => (.error (-12), s)
  | some (f, s) =>
      let (ret, host) := s.host.openat fn creat
      let s := { s with host := host }
      if 0 ≤ ret then (.ok f, s.setFile f { s.files f with kfd := ret })
      else (.error ret, s.spikeFileDecref f)

/-- `spike_file_close`; nothing when `kfd` is outside `spike_fds`. -/
def spikeFileClose (s : Spike) (f : Fin maxFiles) : Option (Int × Spike) :=
  let kfd := (s.files f).kfd
  if h : 0 ≤ kfd ∧ kfd < maxFds then
    let i : Fin maxFds := ⟨kfd.toNat, by omega⟩
    if s.fds i = some f then
      some (0, spikeFileDecref (spikeFileDecref { s with fds := upd s.fds i none } f) f)
    else some (-1, s.spikeFileDecref f)
  else none

/-- `spike_file_stat`. -/
def spikeFileStat (s : Spike) (f : Fin maxFiles) : Option Stat := s.host.fstat (s.files f).kfd

/-- `spike_file_read`. -/
def spikeFileRead (s : Spike) (f : Fin maxFiles) (size : Nat) : Int × List UInt8 × Spike :=
  let r := s.host.read (s.files f).kfd size
  (r.1, r.2.1, { s with host := r.2.2 })

/-- `spike_file_write`. -/
def spikeFileWrite (s : Spike) (f : Fin maxFiles) (buf : List UInt8) : Int × Spike :=
  let r := s.host.write (s.files f).kfd buf
  (r.1, { s with host := r.2 })

/-- `spike_file_lseek`. -/
def spikeFileLseek (s : Spike) (f : Fin maxFiles) (ptr dir : Int) : Int × Spike :=
  let r := s.host.lseek (s.files f).kfd ptr dir
  (r.1, { s with host := r.2 })

end Spike

end Pke
