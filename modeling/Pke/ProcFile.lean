import Pke.Hostfs

/-!
# Files of a process (`proc_file.c`)

A process has a page with its open files, an array of `MAX_FILES` entries.
An entry is a `struct file` at an address inside that page, and the
functions of the VFS take its address as they take that of any other file.
`do_open` and `do_opendir` copy the file the VFS has made into an entry;
the page it was made in is not used again.

`get_opened_file` looks for the entry with the number of the descriptor and
takes the last one when there is none. It does not look at the entry. An
entry that has never been opened has a status, which is `FD_NONE`, and no
other value: there is no file at its address. The entries are part of the
page: when it is no table any more, nothing is known of them.
-/

namespace Pke

open Exec (get modify fault ofOption)

/-- `&pfiles->opened_files[i]`. -/
def fdAddr (pfiles i : Nat) : Nat := pfiles + 8 + 24 * i

def getProcFiles (p : Ptr) : Kern ProcFiles := do
  let s ← get
  ofOption (.ub "proc_file_management") (s.procFiles p)

def setProcFiles (p : Ptr) (m : ProcFiles) : Kern Unit := modify fun s => s.setPage p (.procFiles m)

/-! ## The table -/

/-- The status of entry `i` is `FD_OPENED`. -/
def State.entryOpen (s : State) (pfiles : Ptr) (i : Nat) : Bool :=
  (s.file (fdAddr pfiles i)).any (·.status == .opened)

/-- The state with the status of entry `i` set to `FD_NONE`. -/
def State.clearEntry (s : State) (pfiles : Ptr) (i : Nat) : State :=
  match s.file (fdAddr pfiles i) with
  | some f => s.setPage (fdAddr pfiles i) (.file { f with status := .none })
  | none => s

/-- The loop of `init_proc_file_management` over the first `n` entries. -/
def clearEntries (pfiles : Ptr) : (n : Nat) → Kern Unit
  | 0 => pure ()
  | n + 1 => do
      clearEntries pfiles n
      modify fun s => s.clearEntry pfiles n

/-- What `init_proc_file_management` does to its page. -/
def clearTable (pfiles : Ptr) : Kern Unit := do
  let s ← get
  setProcFiles pfiles ⟨s.vfsRootDentry, 0⟩
  clearEntries pfiles maxFiles

/-- `init_proc_file_management`. -/
def initProcFileManagement : Kern Ptr := do
  let pfiles ← allocPage
  clearTable pfiles
  pure pfiles

/-- The loop of `get_opened_file`, over `n` entries from `i` on. -/
def scanEntries (pfiles : Ptr) (fd : Int) : (n i : Nat) → (pfile : Option Ptr) → Option Ptr
  | 0, _, pfile => pfile
  | n + 1, i, _ =>
      if (i : Int) = fd then some (fdAddr pfiles i)
      else scanEntries pfiles fd n (i + 1) (some (fdAddr pfiles i))

/-- `get_opened_file`. -/
def getOpenedFile (pfiles : Ptr) (fd : Int) : Kern Ptr := do
  let _ ← getProcFiles pfiles
  ofOption (.panic "do_read: invalid fd!") (scanEntries pfiles fd maxFiles 0 none)

/-- The loop that looks for an entry that is `FD_NONE`, over `n` entries from `fd` on. -/
def freeEntry (pfiles : Ptr) : (n fd : Nat) → Kern Nat
  | 0, fd => pure fd
  | n + 1, fd => do
      let s ← get
      if s.entryOpen pfiles fd = false then pure fd else freeEntry pfiles n (fd + 1)

/-- `memcpy(pfile, opened_file, sizeof(struct file))`. -/
def moveFile (pfile openedFile : Ptr) : Kern Unit := do
  let f ← getFile openedFile
  modify fun s => s.setPage openedFile .raw
  setFile pfile f

/-- The end of `do_open` and `do_opendir`. -/
def installFile (pfiles openedFile : Ptr) (fd : Nat) : Kern Int := do
  moveFile (fdAddr pfiles (min fd (maxFiles - 1))) openedFile
  let m ← getProcFiles pfiles
  setProcFiles pfiles { m with nfiles := m.nfiles + 1 }
  pure fd

/-! ## Calls -/

section

variable (host : VinodeOps) (pfiles : Ptr)

/-- `do_open`. -/
def doOpen (pathname : Path) (flags : Nat) : Kern Int := do
  match ← vfsOpen host pathname flags with
  | none => pure (-1)
  | some openedFile => do
      let m ← getProcFiles pfiles
      if m.nfiles ≥ maxFiles then fault (.panic "do_open: no file entry for current process!")
      else do
        let fd ← freeEntry pfiles maxFiles 0
        installFile pfiles openedFile fd

/-- `do_read`: the result, and what is stored at `buf`. `buffer` and `stack` are what is in
the local arrays of `do_read` and of the file system before. -/
def doRead (fd : Int) (count : Nat) (buffer stack : Block) : Kern (Int × List UInt8) := do
  let pfile ← getOpenedFile pfiles fd
  let f ← getFile pfile
  if f.readable = false then fault (.panic "do_read: no readable file!")
  else do
    let (len, bytes) ← vfsRead host pfile count stack
    let buffer := upd (memcpy buffer 0 bytes.length fun j => bytes.getD j 0) count 0
    pure (wrap32 len, cstr buffer 0 count ++ [0])

/-- `do_write`. -/
def doWrite (fd : Int) (buf : List UInt8) : Kern Int := do
  let pfile ← getOpenedFile pfiles fd
  let f ← getFile pfile
  if f.writable = false then fault (.panic "do_write: cannot write file!")
  else do
    let len ← vfsWrite host pfile buf
    pure (wrap32 len)

/-- `do_lseek`. -/
def doLseek (fd offset whence : Int) : Kern Int := do
  let pfile ← getOpenedFile pfiles fd
  let off ← vfsLseek host pfile offset whence
  pure (wrap32 off)

/-- `do_stat`. -/
def doStat (fd : Int) : Kern (Int × Option Istat) := do
  let pfile ← getOpenedFile pfiles fd
  vfsStat pfile

/-- `do_disk_stat`. -/
def doDiskStat (fd : Int) : Kern (Int × Option Istat) := do
  let pfile ← getOpenedFile pfiles fd
  vfsDiskStat host pfile

/-- `do_close`. -/
def doClose (fd : Int) : Kern Int := do
  let pfile ← getOpenedFile pfiles fd
  vfsClose host pfile

/-- `do_opendir`. -/
def doOpendir (pathname : Path) : Kern Int := do
  match ← vfsOpendir host pathname with
  | none => pure (-1)
  | some openedFile => do
      let _ ← getProcFiles pfiles
      let fd ← freeEntry pfiles maxFiles 0
      let s ← get
      if s.entryOpen pfiles (min fd (maxFiles - 1)) then
        fault (.panic "do_opendir: no file entry for current process!")
      else installFile pfiles openedFile fd

/-- `do_readdir`. -/
def doReaddir (fd : Int) : Kern (Int × Option Dir) := do
  let pfile ← getOpenedFile pfiles fd
  vfsReaddir host pfile

/-- `do_closedir`. -/
def doClosedir (fd : Int) : Kern Int := do
  let pfile ← getOpenedFile pfiles fd
  vfsClosedir host pfile

end

/-! ## Which entry is taken -/

/-- The entry `get_opened_file` takes. -/
def fdIndex (fd : Int) : Nat := if 0 ≤ fd ∧ fd < maxFiles then fd.toNat else maxFiles - 1

theorem scanEntries_eq {pfiles : Ptr} {fd : Int} : ∀ {n i : Nat}, 0 < n → i + n = maxFiles →
    (fd < 0 ∨ i ≤ fd) → ∀ pfile, scanEntries pfiles fd n i pfile = some (fdAddr pfiles (fdIndex fd))
  | 0, _, hn, _, _, _ => absurd hn (Nat.lt_irrefl 0)
  | n + 1, i, _, hi, hfd, pfile => by
      rw [scanEntries]
      split
      · rename_i heq
        have hindex : fdIndex fd = i := by
          rw [fdIndex, if_pos (by omega)]
          omega
        rw [hindex]
      · rename_i hne
        rcases Nat.eq_zero_or_pos n with rfl | hpos
        · -- the last entry stays when none has the number
          have hindex : fdIndex fd = i := by
            rw [fdIndex, if_neg (by omega)]
            omega
          rw [scanEntries, hindex]
        · exact scanEntries_eq hpos (by omega) (by omega) _

theorem getOpenedFile_run {pfiles : Ptr} {s : State} {m : ProcFiles}
    (h : s.procFiles pfiles = some m) (fd : Int) :
    getOpenedFile pfiles fd s = .ok (fdAddr pfiles (fdIndex fd), s) := by
  have hget : getProcFiles pfiles s = .ok (m, s) := Exec.get_ofOption h
  rw [getOpenedFile, Exec.bind_of_ok hget, scanEntries_eq (by decide) (by decide) (by omega) none]
  rfl

theorem fdAddr_inj {pfiles i j : Nat} (h : fdAddr pfiles i = fdAddr pfiles j) : i = j := by
  unfold fdAddr at h
  omega

theorem fdAddr_ne (pfiles i : Nat) : fdAddr pfiles i ≠ pfiles := by
  unfold fdAddr
  omega

/-- An entry is inside the page of the table. -/
theorem fdAddr_mod {pfiles i : Nat} (h : pfiles % pgSize = 0) (hi : i < maxFiles) :
    fdAddr pfiles i % pgSize = 8 + 24 * i := by
  unfold fdAddr pgSize maxFiles at *
  omega

theorem fdAddr_inside {pfiles i : Nat} (h : pfiles % pgSize = 0) (hi : i < maxFiles) :
    fdAddr pfiles i % pgSize ≠ 0 := by
  rw [fdAddr_mod h hi]
  omega

end Pke
