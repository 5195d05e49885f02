import Pke.Print
import Pke.UserIo

/-!
# System calls and traps (`syscall.c`, `strap.c`)

The nineteen system calls and the traps a process can cause. A call of the
file system runs on `files`, with paths and buffers translated to physical
addresses. What it stores for the user goes through memory; a store that
hits what the kernel keeps apart from it (`Reserved`) is a fault here.

The contents of local arrays and the number of turns a transfer takes are
arguments of the calls that depend on them. A handler that ends in
`schedule` does not come back: it returns `none`.
-/

namespace Pke

/-- The bytes of an `int`. -/
def intBytes (v : Int) : List UInt8 := (List.range 4).map (intByte v)

def Istat.bytes (st : Istat) : List UInt8 :=
  [st.stInum, st.stSize, st.stType, st.stNlinks, st.stBlocks].flatMap intBytes

/-- The system calls for files and directories. -/
inductive FileCall where
  | openFile (pathva flags : Nat)
  | read (fd : Int) (bufva count : Nat) (arrays : Nat → Block × Block) (turns : Nat)
  | write (fd : Int) (bufva count turns : Nat)
  | lseek (fd offset whence : Int)
  | stat (fd : Int) (istat : Nat)
  | diskStat (fd : Int) (istat : Nat)
  | close (fd : Int)
  | opendir (pathva : Nat)
  | readdir (fd : Int) (vdir : Nat)
  | mkdir (pathva : Nat)
  | closedir (fd : Int)
  | link (vfn1 vfn2 : Nat)
  | unlink (vfn : Nat)

/-- The system calls. -/
inductive ProcCall where
  | print (buf n : Nat) (out : Block) (args : Nat → UInt64)
  | exit (code : Nat)
  | allocatePage
  | freePage (va : Nat)
  | fork (garbage : Fin 32 → Int)
  | yield
  | file (call : FileCall)
  | unknown (a0 : Int)

namespace Machine

open Exec (Post get modify)

/-! ## Processes and their memory -/

/-- `sys_user_exit`. -/
def sysUserExit (_code : Nat) : ProcM Unit := do
  let i ← currentProc
  freeProcess i
  schedule

/-- The virtual address `sys_user_allocate_page` maps. -/
def heapPage (i : Pid) : ProcM Nat := do
  let k ← get
  let heap := (k.procs i).userHeap
  if 0 < heap.freePagesCount then
    if hc : heap.freePagesCount - 1 < 32 then do
      let va := heap.freePagesAddress ⟨heap.freePagesCount - 1, hc⟩
      modifyProc i fun p => { p with userHeap := { p.userHeap with
        freePagesCount := heap.freePagesCount - 1 } }
      if va < heap.heapTop then pure va
      else fault (.assertion "va < current->user_heap.heap_top")
    else fault (.ub "free_pages_address")
  else do
    modifyProc i fun p => { p with userHeap := { p.userHeap with heapTop := heap.heapTop + pgSize } }
    modifyProc i fun p => setRegion p 3 { p.regions 3 with npages := (p.regions 3).npages + 1 }
    pure heap.heapTop

/-- `sys_user_allocate_page`. -/
def sysUserAllocatePage : ProcM Nat := do
  let i ← currentProc
  let pa ← allocPage
  let va ← heapPage i
  let k ← get
  inPhys (Phys.userVmMap (k.procs i).pagetable va pgSize pa (protToType protRW true))
  pure va

/-- `sys_user_free_page`. -/
def sysUserFreePage (va : Nat) : ProcM Unit := do
  let i ← currentProc
  let k ← get
  inPhys (Phys.userVmUnmap (k.procs i).pagetable va pgSize true)
  let count := (k.procs i).userHeap.freePagesCount
  if hc : count < 32 then
    modifyProc i fun p => { p with userHeap := { p.userHeap with
      freePagesAddress := upd p.userHeap.freePagesAddress ⟨count, hc⟩ va
      freePagesCount := count + 1 } }
  else fault (.ub "free_pages_address")

/-- `sys_user_fork`. -/
def sysUserFork (garbage : Fin 32 → Int) : ProcM Nat := do
  let i ← currentProc
  doFork i garbage

/-- `sys_user_yield`. -/
def sysUserYield : ProcM Unit := do
  let i ← currentProc
  modifyProc i fun p => { p with status := .ready }
  insertToReadyQueue i
  schedule

/-! ## Files -/

/-- What is at `a` is not kept in memory: data of the kernel, a page of the kernel for a
process, or an object of the file system. -/
def Reserved (k : Machine) (a : Nat) : Prop :=
  a < k.phys.freeMemStart ∨ k.phys.freeMemEnd ≤ a ∨
    (∃ i, roundDown a pgSize ∈ [(k.procs i).trapframe, (k.procs i).kstack - pgSize,
      (k.procs i).mappedInfo, (k.procs i).pfiles]) ∨
    (k.files.pages (roundDown a pgSize)).isFree = false

instance (k : Machine) (a : Nat) : Decidable (k.Reserved a) :=
  inferInstanceAs (Decidable (_ ∨ _ ∨ _ ∨ _))

/-- A store of a system call for the user. -/
def storeUser (pa : Nat) (bytes : List UInt8) : ProcM Unit := do
  let k ← get
  if ∃ j < bytes.length, k.Reserved (pa + j) then fault (.ub "data of the kernel")
  else inPhys (modify fun s => { s with
    mem := Pke.memcpy s.mem pa bytes.length fun j => bytes.getD j 0 })

/-- `user_va_to_pa` in the page table of `current`. -/
def userPtr (va : Nat) : ProcM Nat := do
  let i ← currentProc
  let k ← get
  inPhys (Phys.userVaToPa (k.procs i).pagetable va)

/-- The string at an address of the user. -/
def userPath (va : Nat) : ProcM Path := do
  let pa ← userPtr va
  access pa
  let k ← get
  pure ⟨cstr k.phys.mem pa (2 ^ 64 - pa), notMem_cstr⟩

/-- Code of the file system with the open files of `current`. -/
def onFiles {α : Type} (f : (pfiles : Ptr) → Kern α) : ProcM α := do
  let i ← currentProc
  let k ← get
  inFiles (f (k.procs i).pfiles)

/-- `sys_user_open`. -/
def sysUserOpen (pathva flags : Nat) : ProcM Int := do
  let path ← userPath pathva
  onFiles fun pfiles => doOpen hostfsIOps pfiles path flags

/-- The body shared by `sys_user_read` and `sys_user_write`. -/
def userTransfer (io : (pa off len : Nat) → ProcM Int) (bufva count turns : Nat) : ProcM Int := do
  let i ← currentProc
  let k ← get
  userIo (fun va => inPhys (Phys.lookupPa (k.procs i).pagetable va)) io (.fault (.ub "turns"))
    bufva count turns 0

/-- `sys_user_read`. The local arrays of a piece are those for its address. -/
def sysUserRead (fd : Int) (bufva count : Nat) (arrays : Nat → Block × Block) (turns : Nat) :
    ProcM Int :=
  userTransfer (fun pa off len => do
    let (r, bytes) ← onFiles fun pfiles => doRead hostfsIOps pfiles fd len
      (arrays (pa + off)).1 (arrays (pa + off)).2
    access pa
    storeUser (pa + off) bytes
    pure r) bufva count turns

/-- `sys_user_write`. -/
def sysUserWrite (fd : Int) (bufva count turns : Nat) : ProcM Int :=
  userTransfer (fun pa off len => do
    access pa
    let k ← get
    onFiles fun pfiles => doWrite hostfsIOps pfiles fd
      ((List.range len).map fun j => k.phys.mem (pa + off + j))) bufva count turns

/-- `sys_user_lseek`. -/
def sysUserLseek (fd offset whence : Int) : ProcM Int :=
  onFiles fun pfiles => doLseek hostfsIOps pfiles fd offset whence

/-- The body shared by `sys_user_stat` and `sys_user_disk_stat`. -/
def userStat (stat : (pfiles : Ptr) → Kern (Int × Option Istat)) (istat : Nat) : ProcM Int := do
  let pa ← userPtr istat
  let (r, st) ← onFiles stat
  match st with
  | none => pure r
  | some st => do
      access pa
      storeUser pa st.bytes
      pure r

/-- `sys_user_stat`. -/
def sysUserStat (fd : Int) (istat : Nat) : ProcM Int := userStat (doStat · fd) istat

/-- `sys_user_disk_stat`. -/
def sysUserDiskStat (fd : Int) (istat : Nat) : ProcM Int :=
  userStat (doDiskStat hostfsIOps · fd) istat

/-- `sys_user_close`. -/
def sysUserClose (fd : Int) : ProcM Int := onFiles fun pfiles => doClose hostfsIOps pfiles fd

/-- `sys_user_opendir`. -/
def sysUserOpendir (pathva : Nat) : ProcM Int := do
  let path ← userPath pathva
  onFiles fun pfiles => doOpendir hostfsIOps pfiles path

/-- `sys_user_readdir`. -/
def sysUserReaddir (fd : Int) (vdir : Nat) : ProcM Int := do
  let pa ← userPtr vdir
  let (r, dir) ← onFiles fun pfiles => doReaddir hostfsIOps pfiles fd
  match dir with
  | none => pure r
  | some dir => do
      access pa
      storeUser pa (dir.name ++ [0])
      storeUser (pa + maxFileNameLen) (intBytes dir.inum)
      pure r

/-- `sys_user_mkdir`. -/
def sysUserMkdir (pathva : Nat) : ProcM Int := do
  let path ← userPath pathva
  inFiles (vfsMkdir hostfsIOps path)

/-- `sys_user_closedir`. -/
def sysUserClosedir (fd : Int) : ProcM Int := onFiles fun pfiles => doClosedir hostfsIOps pfiles fd

/-- `sys_user_link`. -/
def sysUserLink (vfn1 vfn2 : Nat) : ProcM Int := do
  let pfn1 ← userPath vfn1
  let pfn2 ← userPath vfn2
  inFiles (vfsLink hostfsIOps pfn1 pfn2)

/-- `sys_user_unlink`. -/
def sysUserUnlink (vfn : Nat) : ProcM Int := do
  let pfn ← userPath vfn
  inFiles (vfsUnlink hostfsIOps pfn)

/-- The cases of `do_syscall` for files. -/
def doFileCall : FileCall → ProcM Int
  | .openFile pathva flags => sysUserOpen pathva flags
  | .read fd bufva count arrays turns => sysUserRead fd bufva count arrays turns
  | .write fd bufva count turns => sysUserWrite fd bufva count turns
  | .lseek fd offset whence => sysUserLseek fd offset whence
  | .stat fd istat => sysUserStat fd istat
  | .diskStat fd istat => sysUserDiskStat fd istat
  | .close fd => sysUserClose fd
  | .opendir pathva => sysUserOpendir pathva
  | .readdir fd vdir => sysUserReaddir fd vdir
  | .mkdir pathva => sysUserMkdir pathva
  | .closedir fd => sysUserClosedir fd
  | .link vfn1 vfn2 => sysUserLink vfn1 vfn2
  | .unlink vfn => sysUserUnlink vfn

/-! ## Traps -/

/-- `do_syscall`, with the value for `a0` if the call returns. -/
def doSyscall : ProcCall → ProcM (Option Nat)
  | .print buf n out args => do
      let _ ← sysUserPrint buf n out args
      pure (some 0)
  | .exit code => do
      sysUserExit code
      pure none
  | .allocatePage => do
      let va ← sysUserAllocatePage
      pure (some va)
  | .freePage va => do
      sysUserFreePage va
      pure (some 0)
  | .fork garbage => do
      let pid ← sysUserFork garbage
      pure (some pid)
  | .yield => do
      sysUserYield
      pure none
  | .file call => do
      let r ← doFileCall call
      pure (some (u64 r))
  | .unknown _ => fault (.panic "Unknown syscall")

/-- `rrsched`, with whether it returns. -/
def rrsched : ProcM Bool := do
  let i ← currentProc
  modifyProc i fun p => { p with tickCount := p.tickCount + 1 }
  let k ← get
  if (k.procs i).tickCount ≥ timeSliceLen then do
    modifyProc i fun p => { p with tickCount := 0 }
    modifyProc i fun p => { p with status := .ready }
    insertToReadyQueue i
    schedule
    pure false
  else pure true

def causeLoadPageFault : Nat := 13
def causeStorePageFault : Nat := 15

/-- `handle_user_page_fault`. Only a store is given a page. -/
def handleUserPageFault (mcause stval : Nat) : ProcM Unit :=
  if mcause = causeStorePageFault then do
    let pa ← allocPage
    if pa = 0 then fault (.panic "cannot allocate a physical page for user stack.")
    else do
      let i ← currentProc
      let k ← get
      inPhys (Phys.userVmMap (k.procs i).pagetable (roundDown stval pgSize) pgSize pa
        (protToType protRW true))
  else pure ()

/-- Why a process traps. -/
inductive Cause where
  | ecall (call : ProcCall)
  | timer
  | storeFault (stval : UInt64)
  | loadFault (stval : UInt64)
  | other (scause : Nat)

/-- `switch_to(current)`. -/
def switchToCurrent : ProcM Unit := do
  let i ← currentProc
  switchTo i

/-- `smode_trap_handler`. -/
def smodeTrapHandler (sepc : Nat) (cause : Cause) : ProcM Unit := do
  let i ← currentProc
  modifyProc i fun p => { p with frame := { p.frame with epc := sepc } }
  match cause with
  | .ecall call => do
      modifyProc i fun p => { p with frame := { p.frame with epc := p.frame.epc + 4 } }
      match ← doSyscall call with
      | none => pure ()
      | some a0 => do
          modifyProc i fun p => { p with frame := { p.frame with a0 := a0 } }
          switchToCurrent
  | .timer => do
      if ← rrsched then switchToCurrent else pure ()
  | .storeFault stval => do
      handleUserPageFault causeStorePageFault stval.toNat
      switchToCurrent
  | .loadFault stval => do
      handleUserPageFault causeLoadPageFault stval.toNat
      switchToCurrent
  | .other _ => fault (.panic "unexpected exception happened.")

end Machine

end Pke
