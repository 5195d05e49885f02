import Pke.ProcFile
import Pke.Vmm

/-!
# Processes (`process.c`, `sched.c`)

The process table and the ready queue. A process is known by its index in
`procs`. The page tables and the pages of the users are in the memory of
`Phys`; what the kernel keeps in pages of its own (the trap frame and the
mapped regions of a process) is kept in the process itself, beside the
address of the page. The objects of the file system are in `files`, which
has its own list of pages; only the tables of open files are made in pages
of processes.
-/

namespace Pke

/-- An index of `procs`, which has `NPROC` elements. -/
abbrev Pid := Fin 32

/-- `enum proc_status`. -/
inductive ProcStatus where
  | free
  | ready
  | running
  | blocked
  | zombie
deriving DecidableEq, Repr

/-- `enum segment_type`. -/
inductive SegmentType where
  | stack
  | context
  | system
  | heap
  | code
  | data
deriving DecidableEq, Repr

/-- `mapped_region`. -/
structure MappedRegion where
  va : Nat
  npages : Nat
  segType : SegmentType
deriving DecidableEq

/-- A region of a page of zeros. -/
def MappedRegion.zero : MappedRegion := ⟨0, 0, .stack⟩

/-- `MAX_HEAP_PAGES`. -/
def maxHeapPages : Nat := 32

/-- `process_heap_manager`. -/
structure HeapManager where
  heapTop : Nat
  heapBottom : Nat
  freePagesAddress : Fin 32 → Nat
  freePagesCount : Nat

/-- `riscv_regs`. -/
structure RiscvRegs where
  ra : Nat
  sp : Nat
  gp : Nat
  tp : Nat
  t0 : Nat
  t1 : Nat
  t2 : Nat
  s0 : Nat
  s1 : Nat
  a0 : Nat
  a1 : Nat
  a2 : Nat
  a3 : Nat
  a4 : Nat
  a5 : Nat
  a6 : Nat
  a7 : Nat
  s2 : Nat
  s3 : Nat
  s4 : Nat
  s5 : Nat
  s6 : Nat
  s7 : Nat
  s8 : Nat
  s9 : Nat
  s10 : Nat
  s11 : Nat
  t3 : Nat
  t4 : Nat
  t5 : Nat
  t6 : Nat

/-- `trapframe`. -/
structure Trapframe extends RiscvRegs where
  kernelSp : Nat
  kernelTrap : Nat
  epc : Nat
  kernelSatp : Nat

/-- A trap frame of zeros. -/
def Trapframe.zero : Trapframe :=
  ⟨⟨0, 0, 0, 0, 0, 0, 0, 0, 0, 0, 0, 0, 0, 0, 0, 0, 0, 0, 0, 0, 0, 0, 0, 0, 0, 0, 0, 0, 0, 0, 0⟩,
    0, 0, 0, 0⟩

/-- `process`. -/
structure Process where
  kstack : Nat
  pagetable : Nat
  trapframe : Nat
  /-- What is in the page `trapframe`. -/
  frame : Trapframe
  mappedInfo : Nat
  /-- What is in the page `mappedInfo`, which has room for 256 regions. -/
  regions : Fin 256 → MappedRegion
  totalMappedRegion : Nat
  userHeap : HeapManager
  pid : Nat
  status : ProcStatus
  parent : Option Pid
  queueNext : Option Pid
  tickCount : Nat
  pfiles : Nat

/-- A process of zeros but for its number. -/
def Process.zero (pid : Nat) : Process :=
  ⟨0, 0, 0, .zero, 0, fun _ => .zero, 0, ⟨0, 0, fun _ => 0, 0⟩, pid, .free, none, none, 0, 0⟩

/-- The machine: memory, the file system, the process table and the registers the kernel reads. -/
structure Machine where
  phys : Phys
  files : State
  procs : Pid → Process
  current : Option Pid
  readyQueueHead : Option Pid
  trapSecStart : Nat
  satp : Nat
  smodeTrapHandlerAddr : Nat
  /-- Whether `alloc_page` has returned `NULL` to one of the functions below. -/
  oom : Bool

/-- The end of a run. -/
inductive Stop where
  | shutdown (code : Int)
  | fault (f : Fault)
  /-- A fault in the code of the file system. -/
  | files (f : Fault)
deriving DecidableEq

abbrev ProcM := Exec Machine Stop

/-- `USER_STACK_TOP`. -/
def userStackTop : Nat := 2147479552

/-- `USER_FREE_ADDRESS_START`. -/
def userFreeAddressStart : Nat := 4194304

/-- `TIME_SLICE_LEN`. -/
def timeSliceLen : Nat := 2

namespace Machine

open Exec (Post get modify)

def fault {α : Type} (f : Fault) : ProcM α := Exec.fault (.fault f)

/-- Code that only uses physical memory. -/
def inPhys {α : Type} (x : PhysM α) : ProcM α := fun k =>
  match x k.phys with
  | .ok (a, phys) => .ok (a, { k with phys := phys })
  | .error f => .error (.fault f)

theorem post_inPhys {α : Type} {x : PhysM α} {k : Machine} {Q : α → Machine → Prop}
    {E : Stop → Prop} (h : Post x k.phys (fun a s => Q a { k with phys := s }) fun f => E (.fault f)) :
    Post (inPhys x) k Q E := by
  unfold Post inPhys at *
  cases hr : x k.phys with
  | ok r => simpa only [hr] using h
  | error f => simpa only [hr] using h

/-- Code of the file system. -/
def inFiles {α : Type} (x : Kern α) : ProcM α := fun k =>
  match x k.files with
  | .ok (a, files) => .ok (a, { k with files := files })
  | .error f => .error (.files f)

/-- Nothing else changes in it. -/
theorem post_inFiles {α : Type} {x : Kern α} {k : Machine} {Q : α → Machine → Prop} {E : Stop → Prop}
    (h : ∀ a files, Q a { k with files := files }) (hE : ∀ f, E (.files f)) :
    Post (inFiles x) k Q E := by
  unfold Post inFiles
  cases x k.files with
  | ok r => exact h r.1 r.2
  | error f => exact hE f

def setProc (k : Machine) (i : Pid) (f : Process → Process) : Machine :=
  { k with procs := upd k.procs i (f (k.procs i)) }

def modifyProc (i : Pid) (f : Process → Process) : ProcM Unit := modify fun k => k.setProc i f

/-- `mapped_info` has an entry `0`. -/
instance neZeroMappedInfo : NeZero 256 := ⟨by decide⟩

def setRegion (p : Process) (i : Fin 256) (r : MappedRegion) : Process :=
  { p with regions := upd p.regions i r }

def allocPage : ProcM Nat := do
  let p ← inPhys Phys.allocPage
  if p = 0 then modify fun k => { k with oom := true }
  pure p

/-- An access to a page: nothing is mapped at `NULL`. -/
def access (p : Nat) : ProcM Unit := if p = 0 then fault .nullPage else pure ()

def memset (p : Nat) (byte : UInt8) (len : Nat) : ProcM Unit := do
  access p
  inPhys (modify fun s => { s with mem := Pke.memset s.mem p byte len })

def memcpy (dest src len : Nat) : ProcM Unit := do
  access dest
  access src
  inPhys (modify fun s => { s with mem := Pke.memcpy s.mem dest len fun i => s.mem (src + i) })

/-! ## `process.c` -/

/-- `switch_to`. -/
def switchTo (i : Pid) : ProcM Unit := do
  modify fun k => { k with current := some i }
  let k ← get
  modifyProc i fun p => { p with frame := { p.frame with
    kernelSp := p.kstack, kernelSatp := k.satp, kernelTrap := k.smodeTrapHandlerAddr } }

/-- `init_proc_pool`. -/
def initProcPool : ProcM Unit := modify fun k => { k with procs := fun i => .zero i }

/-- `init_proc_file_management`. -/
def initProcFileManagement : ProcM Nat := do
  let pfiles ← allocPage
  access pfiles
  inFiles (clearTable pfiles)
  pure pfiles

/-- The first process that is `FREE`. -/
def firstFree (k : Machine) : Option Pid := (List.finRange 32).find? fun i =>
  (k.procs i).status = .free

def protRW : Nat := protRead ||| protWrite
def protRX : Nat := protRead ||| protExec

/-- The part of `alloc_process` that takes the pages, with the page of the user stack. -/
def allocPages (i : Pid) : ProcM Nat := do
  let tf ← allocPage
  modifyProc i fun p => { p with trapframe := tf }
  access tf
  modifyProc i fun p => { p with frame := .zero }
  let pt ← allocPage
  modifyProc i fun p => { p with pagetable := pt }
  memset pt 0 pgSize
  let ks ← allocPage
  modifyProc i fun p => { p with kstack := ks + pgSize }
  let userStack ← allocPage
  modifyProc i fun p => { p with frame := { p.frame with sp := userStackTop } }
  let mi ← allocPage
  modifyProc i fun p => { p with mappedInfo := mi }
  access mi
  modifyProc i fun p => { p with regions := fun _ => .zero }
  pure userStack

/-- The part of `alloc_process` that maps the pages. -/
def mapSegments (i : Pid) (userStack : Nat) : ProcM Unit := do
  let k ← get
  let pt := (k.procs i).pagetable
  let tf := (k.procs i).trapframe
  inPhys (Phys.userVmMap pt (userStackTop - pgSize) pgSize userStack (protToType protRW true))
  modifyProc i fun p => setRegion p 0 ⟨userStackTop - pgSize, 1, .stack⟩
  inPhys (Phys.userVmMap pt tf pgSize tf (protToType protRW false))
  modifyProc i fun p => setRegion p 1 ⟨tf, 1, .context⟩
  inPhys (Phys.userVmMap pt k.trapSecStart pgSize k.trapSecStart (protToType protRX false))
  modifyProc i fun p => setRegion p 2 ⟨k.trapSecStart, 1, .system⟩

/-- `alloc_process`. -/
def allocProcess : ProcM Pid := do
  let k ← get
  match firstFree k with
  | none => fault (.panic "cannot find any free process structure.")
  | some i => do
      let userStack ← allocPages i
      mapSegments i userStack
      modifyProc i fun p => { p with userHeap := { p.userHeap with
        heapTop := userFreeAddressStart, heapBottom := userFreeAddressStart, freePagesCount := 0 } }
      modifyProc i fun p => setRegion p 3 ⟨userFreeAddressStart, 0, .heap⟩
      modifyProc i fun p => { p with totalMappedRegion := 4 }
      let pfiles ← initProcFileManagement
      modifyProc i fun p => { p with pfiles := pfiles }
      pure i

/-- `free_process`. -/
def freeProcess (i : Pid) : ProcM Unit := modifyProc i fun p => { p with status := .zombie }

/-! ## `sched.c` -/

/-- The loop of `insert_to_ready_queue`: the last element of the queue, or `none` if
the loop has met `proc`. It has fuel for more elements than there are processes. -/
def lastFrom (proc : Pid) : Nat → Pid → ProcM (Option Pid)
  | 0, _ => fault (.ub "insert_to_ready_queue")
  | fuel + 1, p => do
      let k ← get
      match (k.procs p).queueNext with
      | none => pure (some p)
      | some q => if p = proc then pure none else lastFrom proc fuel q

/-- `insert_to_ready_queue`. -/
def insertToReadyQueue (proc : Pid) : ProcM Unit := do
  let k ← get
  match k.readyQueueHead with
  | none => do
      modifyProc proc fun p => { p with status := .ready, queueNext := none }
      modify fun k => { k with readyQueueHead := some proc }
  | some head => do
      match ← lastFrom proc 33 head with
      | none => pure ()
      | some p =>
          if p = proc then pure ()
          else do
            modifyProc p fun p => { p with queueNext := some proc }
            modifyProc proc fun p => { p with status := .ready }
            modifyProc proc fun p => { p with queueNext := none }

def Finished (s : ProcStatus) : Prop := s = .free ∨ s = .zombie

instance (s : ProcStatus) : Decidable (Finished s) := by unfold Finished; infer_instance

/-- `schedule`. -/
def schedule : ProcM Unit := do
  let k ← get
  match k.readyQueueHead with
  | none =>
      if ∀ i, Finished (k.procs i).status then Exec.fault (.shutdown 0)
      else fault (.panic "Not handled: we should let system wait for unfinished processes.")
  | some p => do
      modify fun k => { k with current := some p }
      if (k.procs p).status ≠ .ready then fault (.assertion "current->status == READY")
      else do
        modify fun k => { k with readyQueueHead := (k.procs p).queueNext }
        modifyProc p fun p => { p with status := .running }
        switchTo p

/-! ## `do_fork` -/

/-- The array `free_block_filter`. The call of `memset` clears 32 bytes of it, which
are its first eight elements; the others are what is on the stack. -/
def clearedFilter (garbage : Fin 32 → Int) : Fin 32 → Int := fun i => if i < 8 then 0 else garbage i

/-- The loop that marks the free pages of the heap, from index `i` on. -/
def markFree (heap : HeapManager) : Nat → Nat → (Fin 32 → Int) → ProcM (Fin 32 → Int)
  | 0, _, filter => pure filter
  | n + 1, i, filter =>
      if hi : i < 32 then
        let index := sub64 (heap.freePagesAddress ⟨i, hi⟩) heap.heapBottom / pgSize
        if hx : index < 32 then markFree heap n (i + 1) (upd filter ⟨index, hx⟩ 1)
        else fault (.ub "free_block_filter")
      else fault (.ub "free_pages_address")

/-- The loop that copies the heap, with fuel. -/
def copyHeap (parent child : Pid) (heapBottom heapTop : Nat) (filter : Fin 32 → Int) :
    Nat → Nat → ProcM Unit
  | 0, block => if block < heapTop then fault (.ub "fuel") else pure ()
  | fuel + 1, block =>
      if block < heapTop then
        let index := sub64 block heapBottom / pgSize
        if hx : index < 32 then
          if filter ⟨index, hx⟩ ≠ 0 then
            copyHeap parent child heapBottom heapTop filter fuel (block + pgSize)
          else do
            let childPa ← allocPage
            let k ← get
            let pa ← inPhys (Phys.lookupPa (k.procs parent).pagetable block)
            memcpy childPa pa pgSize
            inPhys (Phys.userVmMap (k.procs child).pagetable block pgSize childPa
              (protToType protRW true))
            copyHeap parent child heapBottom heapTop filter fuel (block + pgSize)
        else fault (.ub "free_block_filter")
      else pure ()

/-- The case `HEAP_SEGMENT`. The blocks are those of `current`. -/
def forkHeap (parent child : Pid) (garbage : Fin 32 → Int) : ProcM Unit := do
  let k ← get
  let heap := (k.procs parent).userHeap
  let filter ← markFree heap heap.freePagesCount 0 (clearedFilter garbage)
  match k.current with
  | none => fault .nullPage
  | some cur => do
      let top := (k.procs cur).userHeap.heapTop
      let bottom := (k.procs cur).userHeap.heapBottom
      copyHeap parent child heap.heapBottom top filter ((top - bottom) / pgSize + 1) bottom
      let k ← get
      modifyProc child fun p => setRegion p 3
        { p.regions 3 with npages := ((k.procs parent).regions 3).npages }
      modifyProc child fun p => { p with userHeap := (k.procs parent).userHeap }

/-- The case `CODE_SEGMENT`. -/
def forkCode (parent child : Pid) (r : MappedRegion) : ProcM Unit := do
  let k ← get
  let pa ← inPhys (Phys.lookupPa (k.procs parent).pagetable r.va)
  if pa = 0 then fault (.panic "cannot find the physical page of parent's code segment.")
  else do
    inPhys (Phys.userVmMap (k.procs child).pagetable r.va pgSize pa (protToType protRX true))
    let total := (k.procs child).totalMappedRegion
    if ht : total < 256 then do
      modifyProc child fun p => setRegion p ⟨total, ht⟩ { r with segType := .code }
      modifyProc child fun p => { p with totalMappedRegion := total + 1 }
    else fault (.ub "mapped_info")

/-- The body of the loop of `do_fork`. -/
def forkRegion (parent child : Pid) (garbage : Fin 32 → Int) (i : Nat) : ProcM Unit := do
  let k ← get
  if hi : i < 256 then
    let r := (k.procs parent).regions ⟨i, hi⟩
    match r.segType with
    | .context => modifyProc child fun p => { p with frame := (k.procs parent).frame }
    | .stack => do
        let dest ← inPhys (Phys.lookupPa (k.procs child).pagetable ((k.procs child).regions 0).va)
        let src ← inPhys (Phys.lookupPa (k.procs parent).pagetable r.va)
        memcpy dest src pgSize
    | .heap => forkHeap parent child garbage
    | .code => forkCode parent child r
    | .system => pure ()
    | .data => pure ()
  else fault (.ub "mapped_info")

def forkRegions (parent child : Pid) (garbage : Fin 32 → Int) : Nat → Nat → ProcM Unit
  | 0, _ => pure ()
  | n + 1, i => do
      forkRegion parent child garbage i
      forkRegions parent child garbage n (i + 1)

/-- `do_fork`. -/
def doFork (parent : Pid) (garbage : Fin 32 → Int) : ProcM Nat := do
  let child ← allocProcess
  let k ← get
  forkRegions parent child garbage (k.procs parent).totalMappedRegion 0
  modifyProc child fun p => { p with status := .ready }
  modifyProc child fun p => { p with frame := { p.frame with a0 := 0 } }
  modifyProc child fun p => { p with parent := some parent }
  insertToReadyQueue child
  let k ← get
  pure (k.procs child).pid

/-- The index `current` points to. -/
def currentProc : ProcM Pid := do
  let k ← get
  match k.current with
  | none => fault (.assertion "current")
  | some i => pure i

end Machine

end Pke
