import Mathlib.Data.Fintype.Card
import Mathlib.Data.List.TakeWhile
import Pke.Linked
import Pke.Elf
import Pke.Syscall

/-!
# The ready queue

What the scheduler sees of the machine is the status of each process, the
links of the queue, its head and the current process (`Sched`). Nearly
everything the kernel does leaves that as it is (`Quiet`); the functions
of `sched.c` append to the queue and take its first element. So between
two traps the queue is a list without repetitions of the processes that
are ready (`Sched.Inv`), and along a run it is first in, first out.
-/

namespace Pke

/-- What the scheduler sees. -/
structure Sched where
  status : Pid → ProcStatus
  next : Pid → Option Pid
  head : Option Pid
  current : Option Pid

variable {k k' : Machine} {i parent child p c : Pid} {va dir perm size : Nat}
  {garbage : Fin 32 → Int} {f : HostFile} {ph : ProgHeader} {l l' : List Pid} {cause : Cause}
  {e : Stop} {α : Type} {tr : List Machine}

namespace Machine

open Exec (Post get modify)

def sched (k : Machine) : Sched :=
  ⟨fun i => (k.procs i).status, fun i => (k.procs i).queueNext, k.readyQueueHead, k.current⟩

theorem sched_status (k : Machine) (i : Pid) : k.sched.status i = (k.procs i).status := rfl

theorem sched_next (k : Machine) (i : Pid) : k.sched.next i = (k.procs i).queueNext := rfl

theorem sched_head (k : Machine) : k.sched.head = k.readyQueueHead := rfl

theorem sched_current (k : Machine) : k.sched.current = k.current := rfl

theorem sched_set (k : Machine) (i : Pid) (f : Process → Process) :
    (k.setProc i f).sched = { k.sched with
      status := upd k.sched.status i (f (k.procs i)).status
      next := upd k.sched.next i (f (k.procs i)).queueNext } := by
  have hproc : ∀ j, ((k.setProc i f).procs j).status = upd k.sched.status i (f (k.procs i)).status j ∧
      ((k.setProc i f).procs j).queueNext = upd k.sched.next i (f (k.procs i)).queueNext j := by
    intro j
    simp only [setProc]
    by_cases hj : j = i
    · subst hj
      simp
    · simp [upd_ne hj, sched_status, sched_next]
  simp only [sched, hproc]
  rfl

/-- A change of a process that the scheduler does not see. -/
theorem sched_setProc {f : Process → Process}
    (hf : ∀ p, (f p).status = p.status ∧ (f p).queueNext = p.queueNext) :
    (k.setProc i f).sched = k.sched := by
  rw [sched_set, (hf _).1, (hf _).2, upd_eq_self (sched_status k i), upd_eq_self (sched_next k i)]

theorem sched_setStatus (k : Machine) (i : Pid) (st : ProcStatus) :
    (k.setProc i fun p => { p with status := st }).sched =
      { k.sched with status := upd k.sched.status i st } := by
  rw [sched_set, upd_eq_self (sched_next k i)]

theorem sched_setNext (k : Machine) (i : Pid) (n : Option Pid) :
    (k.setProc i fun p => { p with queueNext := n }).sched =
      { k.sched with next := upd k.sched.next i n } := by
  rw [sched_set, upd_eq_self (sched_status k i)]

/-! ## What the scheduler does not see -/

/-- The faults of the scheduler, and its shutdown. -/
def SchedStop (e : Stop) : Prop :=
  e = .shutdown 0 ∨ e = .fault (.assertion "current->status == READY") ∨
    e = .fault (.panic "Not handled: we should let system wait for unfinished processes.") ∨
    e = .fault (.ub "insert_to_ready_queue")

instance (e : Stop) : Decidable (SchedStop e) := inferInstanceAs (Decidable (_ ∨ _ ∨ _ ∨ _))

/-- The faults of code that only uses memory: panics, but not that of the scheduler. -/
def MemFault (f : Fault) : Prop :=
  ∃ msg, f = .panic msg ∧ msg ≠ "Not handled: we should let system wait for unfinished processes."

theorem MemFault.panic {msg : String}
    (h : msg ≠ "Not handled: we should let system wait for unfinished processes.") :
    MemFault (.panic msg) := ⟨msg, rfl, h⟩

theorem MemFault.not_stop {f : Fault} (h : MemFault f) : ¬SchedStop (.fault f) := by
  obtain ⟨msg, rfl, hmsg⟩ := h
  simp [SchedStop, hmsg]

/-- The scheduler sees no difference, and no tick is counted. -/
structure Aside (k k' : Machine) : Prop where
  sched : k'.sched = k.sched
  ticks : ∀ i, (k'.procs i).tickCount = (k.procs i).tickCount

theorem Aside.of_procs (h : k'.procs = k.procs) (hs : k'.sched = k.sched) :
    Aside k k' := ⟨hs, fun i => by rw [h]⟩

instance : Std.Refl Aside := ⟨fun _ => .of_procs rfl rfl⟩

instance : Trans Aside Aside Aside :=
  ⟨fun h h' => ⟨h'.sched.trans h.sched, fun i => (h'.ticks i).trans (h.ticks i)⟩⟩

/-- `R` and `E` allow whatever happens in memory and in the file system. -/
class Lenient (R : Machine → Machine → Prop) (E : Stop → Prop) : Prop where
  memory : ∀ k phys oom, R k { k with phys := phys, oom := oom }
  files : ∀ k files, R k { k with files := files }
  fault : ∀ f, MemFault f ∨ f = .nullPage ∨ f = .assertion "current" → E (.fault f)
  inFiles : ∀ f, E (.files f)

/-- Code that leaves the scheduler alone. -/
abbrev Quiet {α : Type} (x : ProcM α) : Prop := Exec.Along Aside (fun e => ¬SchedStop e) x

instance : Lenient Aside fun e => ¬SchedStop e where
  memory _ _ _ := .of_procs rfl rfl
  files _ _ := .of_procs rfl rfl
  fault f h := by
    rcases h with h | rfl | rfl
    · exact h.not_stop
    · decide
    · decide
  inFiles _ := by simp [SchedStop]

theorem quiet_set {i : Pid} {f : Process → Process}
    (hf : ∀ p, (f p).status = p.status ∧ (f p).queueNext = p.queueNext ∧
      (f p).tickCount = p.tickCount) : Quiet (modifyProc i f) := by
  refine fun k => .modify ⟨sched_setProc fun p => ⟨(hf p).1, (hf p).2.1⟩, fun j => ?_⟩
  simp only [setProc]
  by_cases hj : j = i
  · rw [hj, upd_self, (hf _).2.2]
  · rw [upd_ne hj]

theorem allocPage_faults (s : Phys) : Post Phys.allocPage s (fun _ _ => True) MemFault := by
  refine .bindGet ?_
  dsimp only
  split
  · exact .bindModify (.pure trivial)
  · exact .pure trivial

theorem walkFrom_faults {alloc : Bool} : ∀ {level pt : Nat} (s : Phys),
    Post (Phys.walkFrom va alloc level pt) s (fun _ _ => True) MemFault := by
  intro level
  induction level with
  | zero => exact fun _ => .pure trivial
  | succ level ih =>
      intro pt s
      rw [Phys.walkFrom]
      refine .bindGet (.ite (fun _ => ih s) fun _ => .ite (fun _ => ?_) fun _ => .pure trivial)
      refine .bind (allocPage_faults s) fun p s1 _ => .ite (fun _ => ?_) fun _ => .pure trivial
      exact .bindModify (.bindModify (ih _))

theorem pageWalk_faults {alloc : Bool} (s : Phys) :
    Post (Phys.pageWalk dir va alloc) s (fun _ _ => True) MemFault :=
  .ite (fun _ => .fault (MemFault.panic (by decide))) fun _ => walkFrom_faults s

theorem lookupPa_faults (s : Phys) : Post (Phys.lookupPa dir va) s (fun _ _ => True) MemFault := by
  refine .ite (fun _ => .pure trivial) fun _ => .bind (pageWalk_faults s) fun _ _ _ => .bindGet ?_
  exact .ite (fun _ => .pure trivial) fun _ => .pure trivial

theorem userVaToPa_faults (s : Phys) : Post (Phys.userVaToPa dir va) s (fun _ _ => True) MemFault := by
  refine .bind (pageWalk_faults s) fun _ _ _ => .bindGet ?_
  exact .ite (fun _ => .pure trivial) fun _ => .pure trivial

/-- The loop of `map_pages` has fuel enough. -/
theorem mapFrom_faults {last : Nat} : ∀ {fuel first pa : Nat} (s : Phys),
    last < first + fuel * pgSize →
    Post (Phys.mapFrom dir last perm fuel first pa) s (fun _ _ => True) MemFault := by
  intro fuel
  induction fuel with
  | zero =>
      intro first pa s hfuel
      rw [Phys.mapFrom, if_neg (by omega)]
      exact .pure trivial
  | succ fuel ih =>
      intro first pa s hfuel
      rw [Phys.mapFrom]
      refine .ite (fun _ => .bind (pageWalk_faults s) fun pte s1 _ => ?_) fun _ => .pure trivial
      refine .ite (fun _ => .pure trivial) fun _ => .bindGet (.ite (fun _ => ?_) fun _ => ?_)
      · exact .fault (.panic (by decide))
      · refine .bindModify (ih _ ?_)
        rw [Nat.succ_mul] at hfuel
        omega

theorem userVmMap_faults {pa : Nat} (s : Phys) :
    Post (Phys.userVmMap dir va size pa perm) s (fun _ _ => True) MemFault := by
  refine .bind (mapFrom_faults s ?_) fun r s1 _ => .ite (fun _ => ?_) fun _ => .pure trivial
  · unfold roundDown pgSize
    omega
  · exact .fault (.panic (by decide))

theorem freePage_faults {p : Nat} (s : Phys) :
    Post (Phys.freePage p) s (fun _ _ => True) MemFault :=
  .bindGet (.ite (fun _ => .fault (MemFault.panic (by decide))) fun _ => .modify trivial)

theorem userVmUnmap_faults {free : Bool} (s : Phys) :
    Post (Phys.userVmUnmap dir va size free) s (fun _ _ => True) MemFault := by
  refine .bind (pageWalk_faults s) fun pte s1 _ => .bindGet ?_
  refine .ite (fun _ => .pure trivial) fun _ => ?_
  cases free with
  | false => exact .modify trivial
  | true => exact .bind (freePage_faults s1) fun _ _ _ => .modify trivial

/-! ### Code that only uses memory and files -/

end Machine

open Machine

namespace Exec.Along

variable {R : Machine → Machine → Prop} {E : Stop → Prop} [Lenient R E]

theorem inPhys {x : PhysM α} (h : ∀ s, Post x s (fun _ _ => True) MemFault) :
    Along R E (inPhys x) := fun k =>
  post_inPhys (((h k.phys).mono fun _ s _ => Lenient.memory E k s k.oom).monoFault
    fun f hf => Lenient.fault R f (.inl hf))

theorem inFiles {x : Kern α} : Along R E (inFiles x) := fun k =>
  post_inFiles (fun _ => Lenient.files E k) (Lenient.inFiles R)

theorem lookupPa : Along R E (Machine.inPhys (Phys.lookupPa dir va)) := inPhys lookupPa_faults

theorem userVmMap {pa : Nat} : Along R E (Machine.inPhys (Phys.userVmMap dir va size pa perm)) :=
  inPhys userVmMap_faults

variable [Std.Refl R]

theorem access {p : Nat} : Along R E (access p) :=
  .ite (fun _ => .fault (Lenient.fault R _ (.inr (.inl rfl)))) fun _ => .pure

theorem currentProc : Along R E currentProc := by
  refine .bindGet fun k => ?_
  cases k.current with
  | none => exact .fault (Lenient.fault R _ (.inr (.inr rfl)))
  | some i => exact .pure

variable [Trans R R R]

theorem allocPage : Along R E Machine.allocPage := by
  refine .bind (inPhys allocPage_faults) fun p => ?_
  dsimp only
  split
  · exact .bind (fun k => .modify (Lenient.memory E k k.phys true)) fun _ => .pure
  · exact .pure

theorem memset {p len : Nat} {byte : UInt8} : Along R E (Machine.memset p byte len) :=
  .bind access fun _ => inPhys fun _ => .modify trivial

theorem memcpy {dest src len : Nat} : Along R E (Machine.memcpy dest src len) :=
  .bind access fun _ => .bind access fun _ => inPhys fun _ => .modify trivial

theorem initProcFileManagement : Along R E Machine.initProcFileManagement := by
  unfold Machine.initProcFileManagement
  -- the loop over the entries is not to be unrolled
  generalize clearTable = clear
  exact .bind allocPage fun p => .bind access fun _ => .bind inFiles fun _ => .pure

theorem elfAllocFrom {start prot : Nat} :
    ∀ {n i : Nat}, Along R E (elfAllocFrom p start prot n i)
  | 0, _ => .pure
  | n + 1, i => by
      refine .bind allocPage fun pa => .ite (fun _ => ?_) fun _ => ?_
      · exact .fault (Lenient.fault R _ (.inl (.panic (by decide))))
      · exact .bind memset fun _ => .bindGet fun k => .bind userVmMap fun _ => elfAllocFrom

/-- The loop that copies a segment has fuel enough. -/
theorem elfCopyFrom : ∀ {fuel loaded : Nat},
    (loaded < ph.filesz → ph.filesz + (ph.vaddr + loaded) % pgSize ≤ loaded + fuel * pgSize) →
    Along R E (elfCopyFrom p f ph fuel loaded) := by
  intro fuel
  induction fuel with
  | zero =>
      intro loaded hfuel
      rw [Machine.elfCopyFrom, if_neg (by omega)]
      exact .pure
  | succ fuel ih =>
      intro loaded hfuel
      rw [Machine.elfCopyFrom]
      refine .ite (fun hlt => .bindGet fun k => .bind lookupPa fun pa => ?_) fun _ => .pure
      refine .ite (fun _ => .pure) fun _ => .bind (inPhys fun _ => .modify trivial) fun _ => ?_
      refine .ite (fun _ => .pure) fun _ => ih ?_
      have := hfuel hlt
      simp only [roundDown, pgSize] at this ⊢
      omega

theorem elfCopy : Along R E (Machine.elfCopyFrom p f ph (ph.filesz / pgSize + 2) 0) :=
  elfCopyFrom fun _ => by
    simp only [pgSize]
    omega

theorem userPtr : Along R E (userPtr va) :=
  .bind currentProc fun _ => .bindGet fun _ => inPhys userVaToPa_faults

theorem userPath : Along R E (userPath va) :=
  .bind userPtr fun _ => .bind access fun _ => .bindGet fun _ => .pure

theorem onFiles {f : Ptr → Kern α} : Along R E (onFiles f) :=
  .bind currentProc fun _ => .bindGet fun _ => inFiles

end Exec.Along

namespace Machine

open Exec (Post get modify)

/-! ### Processes -/

theorem quiet_allocPages (i : Pid) : Quiet (allocPages i) := by
  unfold allocPages
  refine .bind .allocPage fun tf => .bind (quiet_set fun _ => ⟨rfl, rfl, rfl⟩) fun _ => ?_
  refine .bind .access fun _ => .bind (quiet_set fun _ => ⟨rfl, rfl, rfl⟩) fun _ => ?_
  refine .bind .allocPage fun pt => .bind (quiet_set fun _ => ⟨rfl, rfl, rfl⟩) fun _ => ?_
  refine .bind .memset fun _ => .bind .allocPage fun ks => ?_
  refine .bind (quiet_set fun _ => ⟨rfl, rfl, rfl⟩) fun _ => .bind .allocPage fun userStack => ?_
  refine .bind (quiet_set fun _ => ⟨rfl, rfl, rfl⟩) fun _ => .bind .allocPage fun mi => ?_
  refine .bind (quiet_set fun _ => ⟨rfl, rfl, rfl⟩) fun _ => .bind .access fun _ => ?_
  exact .bind (quiet_set fun _ => ⟨rfl, rfl, rfl⟩) fun _ => .pure

theorem quiet_mapSegments (i : Pid) (userStack : Nat) : Quiet (mapSegments i userStack) := by
  unfold mapSegments
  refine .bindGet fun k => ?_
  refine .bind .userVmMap fun _ => .bind (quiet_set fun _ => ⟨rfl, rfl, rfl⟩) fun _ => ?_
  refine .bind .userVmMap fun _ => .bind (quiet_set fun _ => ⟨rfl, rfl, rfl⟩) fun _ => ?_
  exact .bind .userVmMap fun _ => quiet_set fun _ => ⟨rfl, rfl, rfl⟩

theorem firstFree_some (h : firstFree k = some i) : (k.procs i).status = .free := by
  simpa [firstFree] using List.find?_some h

/-- A new process is one that was free, and the scheduler does not see it yet. -/
theorem allocProcess_quiet (k : Machine) :
    Post allocProcess k (fun i k' => k'.sched = k.sched ∧ k.sched.status i = .free)
      fun e => ¬SchedStop e := by
  refine .bindGet ?_
  cases hfree : firstFree k with
  | none => exact .fault (by decide)
  | some i =>
      refine Post.mono (Q := fun j k' => k'.sched = k.sched ∧ j = i) ?_ fun j k' hj =>
        ⟨hj.1, by rw [hj.2]; exact firstFree_some hfree⟩
      refine .bind (quiet_allocPages i k) fun userStack k1 h1 => ?_
      refine .bind (quiet_mapSegments i userStack k1) fun _ k2 h2 => ?_
      refine .bindModify (.bindModify (.bindModify ?_))
      have hinit : Quiet initProcFileManagement := .initProcFileManagement
      refine .bind (hinit _) fun pfiles k3 h3 => .bindModify (.pure ⟨?_, rfl⟩)
      rw [sched_setProc, h3.sched, sched_setProc, sched_setProc, sched_setProc, h2.sched, h1.sched]
      all_goals exact fun _ => ⟨rfl, rfl⟩

theorem quiet_markFree {heap : HeapManager} : ∀ {n i : Nat} {filter : Fin 32 → Int},
    Quiet (markFree heap n i filter) := by
  intro n
  induction n with
  | zero => exact .pure
  | succ n ih =>
      intro i filter
      rw [markFree]
      refine .dite (fun hi => ?_) fun _ => .fault (by decide)
      exact .dite (fun _ => ih) fun _ => .fault (by decide)

theorem quiet_copyHeap {bottom top : Nat} {filter : Fin 32 → Int} :
    ∀ {fuel block : Nat}, Quiet (copyHeap parent child bottom top filter fuel block) := by
  intro fuel
  induction fuel with
  | zero =>
      intro block
      rw [copyHeap]
      exact .ite (fun _ => .fault (by decide)) fun _ => .pure
  | succ fuel ih =>
      intro block
      rw [copyHeap]
      refine .ite (fun _ => .dite (fun hx => .ite (fun _ => ih) fun _ => ?_) fun _ => ?_) fun _ => .pure
      · refine .bind .allocPage fun childPa => .bindGet fun k => .bind .lookupPa fun pa => ?_
        exact .bind .memcpy fun _ => .bind .userVmMap fun _ => ih
      · exact .fault (by decide)

theorem quiet_forkHeap : Quiet (forkHeap parent child garbage) := by
  refine .bindGet fun k => .bind quiet_markFree fun filter => ?_
  cases k.current with
  | none => exact .fault (by decide)
  | some cur =>
      refine .bind quiet_copyHeap fun _ => .bindGet fun k => .bind (quiet_set fun _ => ⟨rfl, rfl, rfl⟩) fun _ => ?_
      exact quiet_set fun _ => ⟨rfl, rfl, rfl⟩

theorem quiet_forkCode {r : MappedRegion} : Quiet (forkCode parent child r) := by
  refine .bindGet fun k => .bind .lookupPa fun pa => .ite (fun _ => .fault (by decide)) fun _ => ?_
  refine .bind .userVmMap fun _ => .dite (fun ht => ?_) fun _ => .fault (by decide)
  exact .bind (quiet_set fun _ => ⟨rfl, rfl, rfl⟩) fun _ => quiet_set fun _ => ⟨rfl, rfl, rfl⟩

theorem quiet_forkRegion {i : Nat} : Quiet (forkRegion parent child garbage i) := by
  refine .bindGet fun k => .dite (fun hi => ?_) fun _ => .fault (by decide)
  dsimp only
  split
  case h_1 => exact quiet_set fun _ => ⟨rfl, rfl, rfl⟩
  case h_2 => exact .bind .lookupPa fun dest => .bind .lookupPa fun src => .memcpy
  case h_3 => exact quiet_forkHeap
  case h_4 => exact quiet_forkCode
  all_goals exact .pure

theorem quiet_forkRegions : ∀ {n i : Nat}, Quiet (forkRegions parent child garbage n i) := by
  intro n
  induction n with
  | zero => exact .pure
  | succ n ih => exact .bind quiet_forkRegion fun _ => ih

/-! ### Loading -/

theorem quiet_recordRegion {npages : Nat} : Quiet (recordRegion p ph npages) := by
  refine .bindGet fun k => ?_
  cases freeRegion (k.procs p).regions with
  | none => exact .fault (by decide)
  | some j =>
      refine .bind (quiet_set fun _ => ⟨rfl, rfl, rfl⟩) fun _ => ?_
      cases segmentType ph.flags with
      | none => exact .fault (by decide)
      | some type =>
          exact .bind (quiet_set fun _ => ⟨rfl, rfl, rfl⟩) fun _ => quiet_set fun _ => ⟨rfl, rfl, rfl⟩

theorem quiet_elfLoadSegment : Quiet (elfLoadSegment p f ph) := by
  refine .ite (fun _ => .pure) fun _ => .ite (fun _ => .pure) fun _ => ?_
  refine .ite (fun _ => .pure) fun _ => .bind (.bind .elfAllocFrom fun _ => .pure) fun npages => ?_
  refine .bind .elfCopy fun status => ?_
  cases status with
  | ok => exact .bind quiet_recordRegion fun _ => .pure
  | eio => exact .pure
  | enomem => exact .pure
  | notelf => exact .pure
  | err => exact .pure

theorem quiet_elfLoadFrom : ∀ {n : Nat} {off : Int}, Quiet (elfLoadFrom p f n off) := by
  intro n
  induction n with
  | zero => exact .pure
  | succ n ih =>
      intro off
      rw [elfLoadFrom]
      refine .ite (fun _ => .pure) fun _ => .bind quiet_elfLoadSegment fun status => ?_
      cases status with
      | ok => exact ih
      | eio => exact .pure
      | enomem => exact .pure
      | notelf => exact .pure
      | err => exact .pure

theorem quiet_loadBincode : Quiet (loadBincodeFromHostElf p f) := by
  refine .ite (fun _ => .fault (by decide)) fun _ => .bind quiet_elfLoadFrom fun status => ?_
  exact .ite (fun _ => .fault (by decide)) fun _ => quiet_set fun _ => ⟨rfl, rfl, rfl⟩

/-! ## The queue -/

end Machine

open Machine (Finished)

/-- The processes of the queue are those of `l`, in this order. -/
structure Sched.Queue (q : Sched) (l : List Pid) : Prop where
  list : Linked q.next q.head l
  ready : ∀ i ∈ l, q.status i = .ready

theorem Sched.Queue.length_le {q : Sched} (h : q.Queue l) : l.length ≤ 32 := by
  simpa using h.list.nodup.length_le_card

namespace Machine

open Exec (Post get modify)

/-- The loop of `insert_to_ready_queue` finds the last element. -/
theorem lastFrom_post : ∀ {fuel : Nat} {p : Pid} {l : List Pid},
    Linked k.sched.next (some p) l → c ∉ l → l.length ≤ fuel →
    Post (lastFrom c fuel p) k (fun r k' => k' = k ∧ ∃ l0 b, l = l0 ++ [b] ∧ r = some b)
      fun _ => False := by
  intro fuel
  induction fuel with
  | zero =>
      intro p l hl hc hfuel
      rw [List.eq_nil_of_length_eq_zero (Nat.le_zero.mp hfuel)] at hl
      cases hl
  | succ fuel ih =>
      intro p l hl hc hfuel
      obtain ⟨rest, rfl, hrest⟩ := hl.pop
      refine .bindGet ?_
      cases hnext : (k.procs p).queueNext with
      | none =>
          have hnil : rest = [] := by
            rw [hrest.eq_nil_iff]
            exact hnext
          exact .pure ⟨rfl, [], p, by rw [hnil]; rfl, rfl⟩
      | some q =>
          simp only [List.mem_cons, not_or] at hc
          rw [sched_next, hnext] at hrest
          refine .ite (fun heq => absurd heq.symm hc.1) fun _ => ?_
          refine (ih hrest hc.2 (by simpa using hfuel)).mono fun r k' => ?_
          rintro ⟨rfl, l0, b, rfl, rfl⟩
          exact ⟨rfl, p :: l0, b, rfl, rfl⟩

/-- `insert_to_ready_queue` appends. -/
theorem insertToReadyQueue_post (h : k.sched.Queue l) (hc : c ∉ l) :
    Post (insertToReadyQueue c) k (fun _ k' => k'.sched.Queue (l ++ [c]) ∧
      k'.sched.current = k.sched.current ∧ k'.sched.status = upd k.sched.status c .ready)
      fun _ => False := by
  have hready : ∀ i ∈ l ++ [c], upd k.sched.status c .ready i = .ready := by
    intro i hi
    by_cases hic : i = c
    · subst hic
      simp
    · rw [upd_ne hic]
      exact h.ready i (by simpa [hic] using hi)
  refine .bindGet ?_
  cases hhead : k.readyQueueHead with
  | none =>
      obtain rfl : l = [] := h.list.eq_nil_iff.mpr hhead
      refine .bindModify (.modify ?_)
      have hsched : Machine.sched { k.setProc c fun p => { p with status := .ready, queueNext := none }
          with readyQueueHead := some c } = ⟨upd k.sched.status c .ready, upd k.sched.next c none,
            some c, k.sched.current⟩ := by
        have hset := sched_set k c fun p => { p with status := .ready, queueNext := none }
        simp only [sched] at hset ⊢
        injection hset with hstatus hnext
        rw [hstatus, hnext]
        rfl
      rw [hsched]
      exact ⟨⟨⟨rfl, by simp⟩, hready⟩, rfl, rfl⟩
  | some head =>
      have hlist := h.list
      rw [sched_head, hhead] at hlist
      refine .bind (lastFrom_post hlist hc (h.length_le.trans (by decide))) ?_
      rintro r k1 ⟨rfl, l0, b, rfl, rfl⟩
      simp only [List.mem_append, List.mem_singleton, not_or] at hc
      refine .ite (fun heq => absurd heq.symm hc.2) fun _ => .bindModify (.bindModify (.modify ?_))
      rw [sched_setNext, sched_setStatus, sched_setNext]
      refine ⟨⟨h.list.snoc ?_ ?_ fun i hi => ?_, hready⟩, rfl, rfl⟩
      · show upd (upd _ b (some c)) c none b = some c
        rw [upd_ne (Ne.symm hc.2), upd_self]
      · exact upd_self _ _ _
      · have hib : i ≠ b := by
          have hnodup := h.list.nodup
          rw [List.nodup_append] at hnodup
          exact hnodup.2.2 i hi b (by simp)
        have hic : i ≠ c := fun heq => hc.1 (heq ▸ hi)
        show upd (upd _ b (some c)) c none i = _
        rw [upd_ne hic, upd_ne hib]

theorem switchTo_post {E : Stop → Prop} :
    Post (switchTo i) k (fun _ k' => k'.sched = { k.sched with current := some i }) E := by
  refine .bindModify (.bindGet (.modify ?_))
  rw [sched_setProc fun _ => ⟨?_, ?_⟩]
  all_goals rfl

/-- `schedule` takes the first process of the queue, and shuts down if there is none. -/
theorem schedule_post (h : k.sched.Queue l) (hall : ∀ i, Finished (k.sched.status i) ∨ i ∈ l) :
    Post schedule k (fun _ k' => ∃ p rest, l = p :: rest ∧ k'.sched.Queue rest ∧
      k'.sched.current = some p ∧ k'.sched.status = upd k.sched.status p .running)
      fun e => e = .shutdown 0 ∧ l = [] := by
  refine .bindGet ?_
  cases hhead : k.readyQueueHead with
  | none =>
      obtain rfl : l = [] := h.list.eq_nil_iff.mpr hhead
      have hfin : ∀ i, Finished (k.procs i).status := by
        intro i
        exact (hall i).resolve_right (by simp)
      dsimp only
      rw [if_pos hfin]
      exact .fault ⟨rfl, rfl⟩
  | some p =>
      have hlist := h.list
      rw [sched_head, hhead] at hlist
      obtain ⟨rest, rfl, hrest⟩ := hlist.pop
      have hp : (k.procs p).status = .ready := h.ready p (by simp)
      refine .bindModify (.ite (fun hne => absurd hp hne) fun _ => .bindModify (.bindModify ?_))
      refine switchTo_post.mono fun _ k' hk' => ⟨p, rest, rfl, ?_⟩
      rw [sched_setStatus] at hk'
      rw [hk']
      refine ⟨⟨hrest, fun i hi => ?_⟩, rfl, rfl⟩
      have hne : i ≠ p := fun heq => (List.nodup_cons.mp h.list.nodup).1 (heq ▸ hi)
      show upd _ p ProcStatus.running i = _
      rw [upd_ne hne]
      exact h.ready i (by simp [hi])

end Machine

/-! ## Traps -/

/-- The scheduler between two traps: `c` is running and `l` is the queue. -/
structure Sched.Inv (q : Sched) (c : Pid) (l : List Pid) : Prop where
  queue : q.Queue l
  current : q.current = some c
  running : q.status c = .running
  all : ∀ i, Finished (q.status i) ∨ i = c ∨ i ∈ l

theorem Sched.Inv.setProc {f : Process → Process} (h : k.sched.Inv c l)
    (hf : ∀ p, (f p).status = p.status ∧ (f p).queueNext = p.queueNext) :
    (k.setProc i f).sched.Inv c l := by
  rw [Machine.sched_setProc hf]
  exact h

theorem Sched.Inv.notMem {q : Sched} (h : q.Inv c l) : c ∉ l := by
  intro hc
  have := h.queue.ready c hc
  rw [h.running] at this
  cases this

namespace Machine

open Exec (Post get modify)

/-- What a trap does to the queue `l` and the running process `c`, which has had
`ticks` ticks. -/
def Moves (ticks : Nat) (c : Pid) (l : List Pid) : Cause → List Pid → Pid → Prop
  | .ecall (.exit _), l', c' => l = c' :: l'
  | .ecall .yield, l', c' => l ++ [c] = c' :: l'
  | .ecall (.fork _), l', c' => c' = c ∧ ∃ i, i ∉ l ∧ i ≠ c ∧ l' = l ++ [i]
  | .timer, l', c' =>
      if ticks + 1 ≥ timeSliceLen then l ++ [c] = c' :: l' else c' = c ∧ l' = l
  | _, l', c' => c' = c ∧ l' = l

/-- How a trap can end the run. -/
def TrapStop (l : List Pid) (cause : Cause) (e : Stop) : Prop :=
  (SchedStop e → e = .shutdown 0 ∧ l = [] ∧ ∃ code, cause = .ecall (.exit code)) ∧
    ((∃ code, cause = .ecall (.exit code)) → e = .shutdown 0)

theorem TrapStop.of_quiet (h : ¬SchedStop e) (hexit : ∀ code, cause ≠ .ecall (.exit code)) :
    TrapStop l cause e :=
  ⟨fun hs => absurd hs h, fun ⟨code, hc⟩ => absurd hc (hexit code)⟩

section

variable {k : Machine} {c : Pid} {l : List Pid}

theorem currentProc_eq (h : k.sched.current = some c) : currentProc k = .ok (c, k) := by
  unfold currentProc
  rw [Exec.bind_of_ok (show (get : ProcM Machine) k = .ok (k, k) from rfl)]
  rw [sched_current] at h
  simp only [h]
  rfl

/-- A change of the status of the running process. -/
theorem queue_setStatus {k1 : Machine} {st : ProcStatus} (h : k.sched.Inv c l)
    (hk1 : k1.sched = { k.sched with status := upd k.sched.status c st }) :
    k1.sched.Queue l := by
  rw [hk1]
  refine ⟨h.queue.list, fun i hi => ?_⟩
  have hne : i ≠ c := fun heq => h.notMem (heq ▸ hi)
  show upd _ c st i = _
  rw [upd_ne hne]
  exact h.queue.ready i hi

/-- `schedule` when all processes that are not finished are on the queue. -/
theorem schedule_inv (h : k.sched.Queue l) (hall : ∀ i, Finished (k.sched.status i) ∨ i ∈ l) :
    Post schedule k (fun _ k' => ∃ c' l', k'.sched.Inv c' l' ∧ l = c' :: l')
      fun e => e = .shutdown 0 ∧ l = [] := by
  refine (schedule_post h hall).mono fun _ k' => ?_
  rintro ⟨p, rest, rfl, hq, hcur, hst⟩
  refine ⟨p, rest, ⟨hq, hcur, by rw [hst, upd_self], fun i => ?_⟩, rfl⟩
  rw [hst]
  by_cases hip : i = p
  · exact .inr (.inl hip)
  · rw [upd_ne hip]
    exact (hall i).imp id fun hi => .inr (by simpa [hip] using hi)

/-- The running process, which is ready again, goes to the end of the queue. -/
theorem requeue_post {k1 : Machine} (h : k.sched.Inv c l)
    (hk1 : k1.sched = { k.sched with status := upd k.sched.status c .ready }) :
    Post (insertToReadyQueue c) k1 (fun _ k' => k'.sched.Queue (l ++ [c]) ∧
      ∀ i, Finished (k'.sched.status i) ∨ i ∈ l ++ [c]) fun _ => False := by
  refine (insertToReadyQueue_post (queue_setStatus h hk1) h.notMem).mono fun _ k2 => ?_
  rintro ⟨hq2, -, hstatus⟩
  refine ⟨hq2, fun i => ?_⟩
  rw [hstatus, hk1]
  simp only [upd_upd]
  by_cases hic : i = c
  · exact .inr (by simp [hic])
  · rw [upd_ne hic]
    refine (h.all i).imp id fun hi => ?_
    simp [hi.resolve_left hic]

theorem snoc_fault (h : e = .shutdown 0 ∧ l ++ [c] = []) : False := by
  simpa using h.2

theorem sysUserYield_post (h : k.sched.Inv c l) : Post sysUserYield k (fun _ k' => ∃ c' l',
    k'.sched.Inv c' l' ∧ l ++ [c] = c' :: l') fun _ => False := by
  refine .step (currentProc_eq h.current) (.bindModify ?_)
  refine .bind (requeue_post h (sched_setStatus k c .ready)) fun _ k2 h2 => ?_
  exact (schedule_inv h2.1 h2.2).monoFault fun _ => snoc_fault

theorem rrsched_post (h : k.sched.Inv c l) : Post rrsched k (fun r k' =>
    if (k.procs c).tickCount + 1 ≥ timeSliceLen then
      r = false ∧ ∃ c' l', k'.sched.Inv c' l' ∧ l ++ [c] = c' :: l'
    else r = true ∧ k'.sched = k.sched) fun _ => False := by
  refine .step (currentProc_eq h.current) (.bindModify (.bindGet ?_))
  have htick : ((k.setProc c fun p => { p with tickCount := p.tickCount + 1 }).procs c).tickCount =
      (k.procs c).tickCount + 1 := by simp [setProc]
  rw [htick]
  split
  · refine .bindModify (.bindModify (.bind (requeue_post h ?_) fun _ k2 h2 => ?_))
    · rw [sched_setStatus, sched_setProc, sched_setProc]
      all_goals exact fun _ => ⟨rfl, rfl⟩
    · refine .bind ((schedule_inv h2.1 h2.2).monoFault fun _ => snoc_fault) fun _ k3 h3 => ?_
      exact .pure ⟨rfl, h3⟩
  · exact .pure ⟨rfl, sched_setProc fun _ => ⟨rfl, rfl⟩⟩

theorem sysUserExit_post (h : k.sched.Inv c l) {code : Nat} :
    Post (sysUserExit code) k (fun _ k' => ∃ c' l', k'.sched.Inv c' l' ∧ l = c' :: l')
      fun e => e = .shutdown 0 ∧ l = [] := by
  refine .step (currentProc_eq h.current) (.bindModify ?_)
  have hk1 := sched_setStatus k c .zombie
  refine schedule_inv (queue_setStatus h hk1) fun i => ?_
  rw [hk1]
  show Finished (upd _ c ProcStatus.zombie i) ∨ _
  by_cases hic : i = c
  · subst hic
    exact .inl (by simp [Finished])
  · rw [upd_ne hic]
    exact (h.all i).imp id fun hi => hi.resolve_left hic

/-- The child of a fork is a new last element. -/
theorem doFork_post (h : k.sched.Inv c l) :
    Post (doFork c garbage) k (fun _ k' => ∃ i, i ∉ l ∧ i ≠ c ∧ k'.sched.Inv c (l ++ [i]))
      fun e => ¬SchedStop e := by
  refine .bind (allocProcess_quiet k) ?_
  rintro i k1 ⟨h1, hfree⟩
  have hil : i ∉ l := by
    intro hi
    have := h.queue.ready i hi
    rw [hfree] at this
    cases this
  have hic : i ≠ c := by
    rintro rfl
    have := h.running
    rw [hfree] at this
    cases this
  refine .bindGet (.bind (quiet_forkRegions k1) fun _ k2 h2 => .bindModify (.bindModify (.bindModify ?_)))
  have hk3 : (((k2.setProc i fun p => { p with status := .ready }).setProc i fun p =>
      { p with frame := { p.frame with a0 := 0 } }).setProc i fun p =>
      { p with parent := some c }).sched = { k.sched with status := upd k.sched.status i .ready } := by
    rw [sched_setProc, sched_setProc, sched_setStatus, h2.sched, h1]
    all_goals exact fun _ => ⟨rfl, rfl⟩
  generalize ((k2.setProc i fun p => { p with status := .ready }).setProc i fun p =>
      { p with frame := { p.frame with a0 := 0 } }).setProc i (fun p =>
      { p with parent := some c }) = k3 at hk3
  have hqueue : k3.sched.Queue l := by
    rw [hk3]
    refine ⟨h.queue.list, fun j hj => ?_⟩
    have hne : j ≠ i := fun heq => hil (heq ▸ hj)
    show upd _ i ProcStatus.ready j = _
    rw [upd_ne hne]
    exact h.queue.ready j hj
  refine .bind ((insertToReadyQueue_post hqueue hil).monoFault nofun) ?_
  rintro _ k4 ⟨hq4, hcur, hstatus⟩
  refine .bindGet (.pure ⟨i, hil, hic, hq4, ?_, ?_, fun j => ?_⟩)
  · rw [hcur, hk3]
    exact h.current
  · rw [hstatus, hk3]
    simp only [upd_upd]
    rw [upd_ne (Ne.symm hic)]
    exact h.running
  · rw [hstatus, hk3]
    simp only [upd_upd]
    by_cases hji : j = i
    · exact .inr (.inr (by simp [hji]))
    · rw [upd_ne hji]
      refine (h.all j).imp id fun hj => hj.imp id fun hj => ?_
      simp [hj]

theorem quiet_heapPage (i : Pid) : Quiet (heapPage i) := by
  refine .bindGet fun k => .ite (fun _ => .dite (fun hc => ?_) fun _ => ?_) fun _ => ?_
  · refine .bind (quiet_set fun _ => ⟨rfl, rfl, rfl⟩) fun _ => .ite (fun _ => .pure) fun _ => ?_
    exact .fault (by decide)
  · exact .fault (by decide)
  · exact .bind (quiet_set fun _ => ⟨rfl, rfl, rfl⟩) fun _ => .bind (quiet_set fun _ => ⟨rfl, rfl, rfl⟩) fun _ => .pure

theorem quiet_allocatePage : Quiet sysUserAllocatePage := by
  refine .bind .currentProc fun i => .bind .allocPage fun pa => .bind (quiet_heapPage i) fun va => ?_
  exact .bindGet fun k => .bind .userVmMap fun _ => .pure

theorem quiet_freePage (va : Nat) : Quiet (sysUserFreePage va) := by
  refine .bind .currentProc fun i => .bindGet fun k => .bind (.inPhys userVmUnmap_faults) fun _ => ?_
  exact .dite (fun _ => quiet_set fun _ => ⟨rfl, rfl, rfl⟩) fun _ => .fault (by decide)

theorem quiet_userPageFault (mcause stval : Nat) : Quiet (handleUserPageFault mcause stval) := by
  refine .ite (fun _ => .bind .allocPage fun pa => ?_) fun _ => .pure
  refine .ite (fun _ => .fault (by decide)) fun _ => ?_
  exact .bind .currentProc fun i => .bindGet fun k => .userVmMap

theorem quiet_print {buf n : Nat} {out : Block} {args : Nat → UInt64} :
    Quiet (sysUserPrint buf n out args) := by
  refine .bind .currentProc fun i => .bindGet fun k => .bind (.inPhys userVaToPa_faults) fun pa => ?_
  refine .bind .access fun _ => ?_
  split
  · exact .pure
  · rename_i f hf
    rcases sprint_error hf with rfl | rfl <;> exact .fault (by decide)

/-! ### Files -/

theorem quiet_storeUser {pa : Nat} {bytes : List UInt8} : Quiet (storeUser pa bytes) :=
  .bindGet fun _ => .ite (fun _ => .fault (by decide)) fun _ => .inPhys fun _ => .modify trivial

/-- A transfer is as quiet as its pieces. -/
theorem quiet_userTransfer {io : (pa off len : Nat) → ProcM Int} {bufva count turns : Nat}
    (hio : ∀ pa off len, Quiet (io pa off len)) : Quiet (userTransfer io bufva count turns) := by
  refine .bind .currentProc fun i => .bindGet fun k => ?_
  generalize (0 : Int) = n
  induction turns generalizing n with
  | zero => exact .fault (by decide)
  | succ turns ih =>
      refine .ite (fun _ => .bind .lookupPa fun pa => .bind (hio _ _ _) fun r => ?_) fun _ => .pure
      exact .ite (fun _ => .pure) fun _ => ih _

theorem quiet_userStat {stat : Ptr → Kern (Int × Option Istat)} {istat : Nat} :
    Quiet (userStat stat istat) := by
  refine .bind .userPtr fun pa => .bind .onFiles fun r => ?_
  obtain ⟨r, st⟩ := r
  cases st with
  | none => exact .pure
  | some st => exact .bind .access fun _ => .bind quiet_storeUser fun _ => .pure

theorem quiet_readdir {fd : Int} {vdir : Nat} : Quiet (sysUserReaddir fd vdir) := by
  refine .bind .userPtr fun pa => .bind .onFiles fun r => ?_
  obtain ⟨r, dir⟩ := r
  cases dir with
  | none => exact .pure
  | some dir =>
      exact .bind .access fun _ => .bind quiet_storeUser fun _ => .bind quiet_storeUser fun _ => .pure

/-- The file system does not touch the scheduler. -/
theorem quiet_fileCall (call : FileCall) : Quiet (doFileCall call) := by
  cases call with
  | openFile pathva flags => exact .bind .userPath fun _ => .onFiles
  | read fd bufva count arrays turns =>
      refine quiet_userTransfer fun pa off len => .bind .onFiles fun r => .bind .access fun _ => ?_
      exact .bind quiet_storeUser fun _ => .pure
  | write fd bufva count turns =>
      exact quiet_userTransfer fun pa off len => .bind .access fun _ => .bindGet fun _ => .onFiles
  | stat fd istat => exact quiet_userStat
  | diskStat fd istat => exact quiet_userStat
  | opendir pathva => exact .bind .userPath fun _ => .onFiles
  | readdir fd vdir => exact quiet_readdir
  | mkdir pathva => exact .bind .userPath fun _ => .inFiles
  | link vfn1 vfn2 => exact .bind .userPath fun _ => .bind .userPath fun _ => .inFiles
  | unlink vfn => exact .bind .userPath fun _ => .inFiles
  | lseek | close | closedir =>
      simp only [doFileCall, sysUserLseek, sysUserClose, sysUserClosedir]
      exact .onFiles

theorem switchToCurrent_post (h : k.sched.Inv c l) {E : Stop → Prop} :
    Post switchToCurrent k (fun _ k' => k'.sched.Inv c l) E := by
  refine .step (currentProc_eq h.current) (switchTo_post.mono fun _ k' hk' => ?_)
  rw [hk', ← h.current]
  exact h

/-- A step that the scheduler does not see, in a handler that returns. -/
theorem Quiet.inv {x : ProcM α} (hx : Quiet x) (h : k.sched.Inv c l)
    (hexit : ∀ code, cause ≠ .ecall (.exit code)) :
    Post x k (fun _ k' => k'.sched.Inv c l) (TrapStop l cause) := by
  refine ((hx k).mono fun _ k' hk' => ?_).monoFault fun e he => .of_quiet he hexit
  rw [hk'.sched]
  exact h

theorem doSyscall_post (h : k.sched.Inv c l) (call : ProcCall) (ticks : Nat) :
    Post (doSyscall call) k (fun _ k' => ∃ c' l', k'.sched.Inv c' l' ∧
      Moves ticks c l (.ecall call) l' c') (TrapStop l (.ecall call)) := by
  have hquiet : ∀ {α : Type} {x : ProcM α} {f : α → Option Nat}, Quiet x →
      (∀ code, call ≠ .exit code) → (∀ l' c', Moves ticks c l (.ecall call) l' c' ↔ c' = c ∧ l' = l) →
      Post (x >>= fun a => pure (f a)) k (fun _ k' => ∃ c' l', k'.sched.Inv c' l' ∧
        Moves ticks c l (.ecall call) l' c') (TrapStop l (.ecall call)) := by
    intro α x f hx hexit hmoves
    refine .bind (hx.inv h fun code heq => hexit code (Cause.ecall.inj heq)) fun a k' hk' => ?_
    exact .pure ⟨c, l, hk', (hmoves l c).mpr ⟨rfl, rfl⟩⟩
  cases call with
  | exit code =>
      refine .bind ((sysUserExit_post h).monoFault fun e he => ?_) fun _ k' hk' => .pure hk'
      exact ⟨fun _ => ⟨he.1, he.2, code, rfl⟩, fun _ => he.1⟩
  | print buf n out args => exact hquiet quiet_print nofun fun _ _ => .rfl
  | allocatePage => exact hquiet quiet_allocatePage nofun fun _ _ => .rfl
  | freePage va => exact hquiet (quiet_freePage va) nofun fun _ _ => .rfl
  | file call => exact hquiet (quiet_fileCall call) nofun fun _ _ => .rfl
  | unknown a0 => exact .fault (.of_quiet (by decide) nofun)
  | fork garbage =>
      refine .bind (.step (currentProc_eq h.current) ?_) fun pid k' hk' => .pure hk'
      refine ((doFork_post h).mono fun _ k' => ?_).monoFault fun e he => .of_quiet he nofun
      rintro ⟨i, hil, hic, hinv⟩
      exact ⟨c, _, hinv, rfl, i, hil, hic, rfl⟩
  | yield =>
      exact .bind ((sysUserYield_post h).monoFault nofun) fun _ k' hk' => .pure hk'

theorem rrsched_trap (h : k.sched.Inv c l) :
    Post (rrsched >>= fun r => if r then switchToCurrent else pure ()) k
      (fun _ k' => ∃ c' l', k'.sched.Inv c' l' ∧ Moves (k.procs c).tickCount c l .timer l' c')
      (TrapStop l .timer) := by
  refine .bind ((rrsched_post h).monoFault nofun) fun r k1 hk1 => ?_
  split at hk1
  · rename_i hslice
    obtain ⟨rfl, c', l', hinv, hl⟩ := hk1
    exact .pure ⟨c', l', hinv, by simpa [Moves, hslice] using hl⟩
  · rename_i hslice
    obtain ⟨rfl, hk1⟩ := hk1
    rw [← hk1] at h
    exact (switchToCurrent_post h).mono fun _ k' hk' => ⟨c, l, hk', by simp [Moves, hslice]⟩

/-- A trap keeps the invariant, and moves the queue as it should. -/
theorem trap_post (h : k.sched.Inv c l) (sepc : Nat) (cause : Cause) :
    Post (smodeTrapHandler sepc cause) k (fun _ k' => ∃ c' l', k'.sched.Inv c' l' ∧
      Moves (k.procs c).tickCount c l cause l' c') (TrapStop l cause) := by
  refine .step (currentProc_eq h.current) (.bindModify ?_)
  have h1 : (k.setProc c fun p => { p with frame := { p.frame with epc := sepc } }).sched.Inv c l :=
    h.setProc fun _ => ⟨rfl, rfl⟩
  have hticks : ((k.setProc c fun p => { p with frame := { p.frame with epc := sepc } }).procs c).tickCount =
      (k.procs c).tickCount := by simp [setProc]
  generalize (k.setProc c fun p => { p with frame := { p.frame with epc := sepc } }) = k1 at *
  cases cause with
  | ecall call =>
      refine .bindModify (.bind (doSyscall_post (h1.setProc (by exact fun _ => ⟨rfl, rfl⟩)) call
        (k.procs c).tickCount) ?_)
      rintro r k2 ⟨c', l', h2, hm⟩
      cases r with
      | none => exact .pure ⟨c', l', h2, hm⟩
      | some a0 =>
          refine .bindModify ?_
          have h3 : (k2.setProc c fun p => { p with frame := { p.frame with a0 := a0 } }).sched.Inv
              c' l' := h2.setProc fun _ => ⟨rfl, rfl⟩
          exact (switchToCurrent_post h3).mono fun _ k' hk' => ⟨c', l', hk', hm⟩
  | timer =>
      rw [← hticks]
      exact rrsched_trap h1
  | storeFault stval =>
      refine .bind ((quiet_userPageFault _ stval.toNat).inv h1 (by simp)) fun _ k2 h2 => ?_
      exact (switchToCurrent_post h2).mono fun _ k' hk' => ⟨c, l, hk', rfl, rfl⟩
  | loadFault stval =>
      refine .bind ((quiet_userPageFault _ stval.toNat).inv h1 (by simp)) fun _ k2 h2 => ?_
      exact (switchToCurrent_post h2).mono fun _ k' hk' => ⟨c, l, hk', rfl, rfl⟩
  | other scause => exact .fault (.of_quiet (by decide) (by simp))

end

theorem loadUserProgram_quiet :
    Post (loadUserProgram f) k (fun _ k' => k'.sched = k.sched) fun e => ¬SchedStop e := by
  refine .bind (allocProcess_quiet k) fun i k1 h1 => .bind (quiet_loadBincode k1) fun _ k2 h2 => ?_
  exact .pure (h2.sched.trans h1.1)

/-- The first process is put on the queue and taken from it. -/
theorem sStart_post (hhead : k.readyQueueHead = none) (f : HostFile) :
    Post (sStart f) k (fun _ k' => ∃ c, k'.sched.Inv c []) fun e => ¬SchedStop e := by
  refine .bindModify (.bind loadUserProgram_quiet fun i k1 h1 => ?_)
  have h1 : k1.sched = ⟨fun _ => .free, fun _ => none, none, k.current⟩ := by
    rw [h1]
    show Sched.mk _ _ k.readyQueueHead _ = _
    rw [hhead]
    rfl
  have hqueue : k1.sched.Queue [] := by
    rw [h1]
    exact ⟨rfl, by simp⟩
  refine .bind ((insertToReadyQueue_post hqueue (by simp)).monoFault nofun) ?_
  rintro _ k2 ⟨hq2, -, hstatus⟩
  have hall : ∀ j, Finished (k2.sched.status j) ∨ j ∈ [] ++ [i] := by
    intro j
    rw [hstatus, h1]
    by_cases hj : j = i
    · exact .inr (by simp [hj])
    · rw [upd_ne hj]
      exact .inl (.inl rfl)
  refine ((schedule_inv hq2 hall).mono fun _ k' => ?_).monoFault fun e he => ?_
  · rintro ⟨c', l', hinv, hl⟩
    simp only [List.nil_append, List.cons.injEq] at hl
    obtain ⟨-, rfl⟩ := hl
    exact ⟨c', hinv⟩
  · exact absurd he.2 (by simp)

/-! ## Runs -/

/-- The states between the traps of a run, the last one first. -/
inductive SchedRun (f : HostFile) : List Machine → Prop
  | start {k0 k : Machine} (hhead : k0.readyQueueHead = none) (hrun : sStart f k0 = .ok ((), k)) :
      SchedRun f [k]
  | trap {k k' : Machine} {tr : List Machine} {sepc : Nat} {cause : Cause}
      (hprev : SchedRun f (k :: tr)) (hrun : smodeTrapHandler sepc cause k = .ok ((), k')) :
      SchedRun f (k' :: k :: tr)

/-- The process `i` is on the ready queue. -/
def OnQueue (k : Machine) (i : Pid) : Prop :=
  ∃ l, Linked (fun i => (k.procs i).queueNext) k.readyQueueHead l ∧ i ∈ l

/-- In each of the last `n` states of a run, `i` was on the queue. -/
def Waited (tr : List Machine) (n : Nat) (i : Pid) : Prop := ∀ k ∈ tr.take n, k.OnQueue i

theorem onQueue_iff (h : k.sched.Queue l) : k.OnQueue i ↔ i ∈ l := by
  constructor
  · rintro ⟨l', hl', hi⟩
    rwa [h.list.unique hl']
  · exact fun hi => ⟨l, h.list, hi⟩

theorem waited_succ {n : Nat} : Waited (k :: tr) (n + 1) i ↔ k.OnQueue i ∧ Waited tr n i := by
  simp [Waited]

/-- Whoever is further ahead has waited at least as long. -/
def Fair (tr : List Machine) (l : List Pid) : Prop :=
  l.Pairwise fun i j => ∀ n, Waited tr n j → Waited tr n i

/-- The traps that call `schedule`. -/
def Reschedules (ticks : Nat) : Cause → Prop
  | .ecall (.exit _) => True
  | .ecall .yield => True
  | .timer => ticks + 1 ≥ timeSliceLen
  | _ => False

/-- A trap that calls `schedule` takes the first one from the queue, to whose end the
running process may have come before. Any other trap leaves that process on the CPU, and
someone new may come to the end. -/
theorem Moves.split {ticks : Nat} {c c' : Pid} {l l' : List Pid} {cause : Cause}
    (h : Moves ticks c l cause l' c') :
    (Reschedules ticks cause ∧ ∃ xs, (xs = [] ∨ xs = [c]) ∧ l ++ xs = c' :: l') ∨
      ¬Reschedules ticks cause ∧ c' = c ∧ ∃ xs, xs.length ≤ 1 ∧ (∀ x ∈ xs, x ∉ l) ∧ l' = l ++ xs := by
  have hsame : c' = c ∧ l' = l → c' = c ∧ ∃ xs, xs.length ≤ 1 ∧ (∀ x ∈ xs, x ∉ l) ∧ l' = l ++ xs :=
    fun ⟨hc, hl⟩ => ⟨hc, [], by simp [hl]⟩
  cases cause with
  | ecall call =>
      cases call with
      | exit code => exact .inl ⟨trivial, [], .inl rfl, by rw [List.append_nil]; exact h⟩
      | yield => exact .inl ⟨trivial, [c], .inr rfl, h⟩
      | fork garbage =>
          obtain ⟨hc, i, hil, -, hl⟩ := h
          exact .inr ⟨id, hc, [i], by simp, by simpa using hil, hl⟩
      | print | allocatePage | freePage | file | unknown => exact .inr ⟨id, hsame h⟩
  | timer =>
      simp only [Moves] at h
      split at h
      · exact .inl ⟨‹_›, [c], .inr rfl, h⟩
      · exact .inr ⟨‹_›, hsame h⟩
  | storeFault | loadFault | other => exact .inr ⟨id, hsame h⟩

/-- What a trap does to the queue: someone who was not on it may come to its end,
and the first one may leave. -/
theorem Moves.suffix {ticks : Nat} {c' : Pid} (h : Moves ticks c l cause l' c') (hc : c ∉ l) :
    ∃ xs : List Pid, xs.length ≤ 1 ∧ (∀ x ∈ xs, x ∉ l) ∧ l' <:+ l ++ xs := by
  rcases h.split with ⟨-, xs, hxs, heq⟩ | ⟨-, -, xs, hlen, hnew, rfl⟩
  · refine ⟨xs, ?_, ?_, heq ▸ List.suffix_cons _ _⟩
    · rcases hxs with rfl | rfl <;> simp
    · rcases hxs with rfl | rfl <;> simp [hc]
  · exact ⟨xs, hlen, hnew, List.suffix_refl _⟩

/-- One trap keeps the order of arrival. -/
theorem Fair.step {xs : List Pid} (h : Fair (k :: tr) l) (hk : k.sched.Queue l)
    (hk' : k'.sched.Queue l') (hlen : xs.length ≤ 1) (hxs : ∀ x ∈ xs, x ∉ l) (hsuf : l' <:+ l ++ xs)
    : Fair (k' :: k :: tr) l' := by
  have hall : (l ++ xs).Pairwise fun i j =>
      j ∉ l ∨ ∀ n, Waited (k :: tr) n j → Waited (k :: tr) n i := by
    rw [List.pairwise_append]
    refine ⟨h.imp fun hij => .inr hij, ?_, fun i _ j hj => .inl (hxs j hj)⟩
    match xs, hlen with
    | [], _ => exact .nil
    | [x], _ => exact List.pairwise_singleton _ _
  refine (hall.sublist hsuf.sublist).imp_of_mem fun {i j} hi hj hij n hn => ?_
  cases n with
  | zero => simp [Waited]
  | succ n =>
      rw [waited_succ] at hn ⊢
      refine ⟨(onQueue_iff hk').mpr hi, ?_⟩
      rcases hij with hjl | hij
      · -- `j` has just come, so it was not on the queue before
        cases n with
        | zero => simp [Waited]
        | succ n => exact absurd ((onQueue_iff hk).mp (waited_succ.mp hn.2).1) hjl
      · exact hij n hn.2

theorem SchedRun.inv (h : SchedRun f tr) :
    ∃ k tr', tr = k :: tr' ∧ ∃ c l, k.sched.Inv c l ∧ Fair tr l := by
  induction h with
  | start hhead hrun =>
      obtain ⟨c, hinv⟩ := (sStart_post hhead f).of_ok hrun
      exact ⟨_, _, rfl, c, [], hinv, .nil⟩
  | trap hprev hrun ih =>
      obtain ⟨k, tr, heq, c, l, hinv, hfair⟩ := ih
      obtain ⟨rfl, rfl⟩ := List.cons.inj heq
      obtain ⟨c', l', hinv', hmoves⟩ := (trap_post hinv _ _).of_ok hrun
      obtain ⟨xs, hlen, hxs, hsuf⟩ := hmoves.suffix hinv.notMem
      exact ⟨_, _, rfl, c', l', hinv', hfair.step hinv.queue hinv'.queue hlen hxs hsuf⟩

/-- The process `schedule` takes is the first one of the queue, or the one that has
just been put on it. -/
theorem Moves.head {ticks : Nat} {c' : Pid} (h : Moves ticks c l cause l' c')
    (hre : Reschedules ticks cause) : (∃ rest, l = c' :: rest) ∨ l = [] ∧ c' = c := by
  rcases h.split with ⟨-, xs, hxs, heq⟩ | ⟨hstay, -⟩
  · cases l with
    | cons i l => exact .inl ⟨l, by rw [(List.cons.inj heq).1]⟩
    | nil =>
        rcases hxs with rfl | rfl
        · cases heq
        · exact .inr ⟨rfl, (List.cons.inj heq).1.symm⟩
  · exact absurd hre hstay

/-- The ready queue between two traps. -/
structure ReadyQueue (k : Machine) (c : Pid) (l : List Pid) : Prop where
  chain : Linked (fun i => (k.procs i).queueNext) k.readyQueueHead l
  nodup : l.Nodup
  ready : ∀ i ∈ l, (k.procs i).status = .ready
  current : k.current = some c
  running : (k.procs c).status = .running
  off : c ∉ l
  all : ∀ i, Finished (k.procs i).status ∨ i = c ∨ i ∈ l

/-- What the traps from a state of a run can do. -/
structure SchedSafe (k : Machine) (tr : List Machine) (c : Pid) (l : List Pid) : Prop where
  longest : ∀ sepc cause k', Reschedules (k.procs c).tickCount cause →
    smodeTrapHandler sepc cause k = .ok ((), k') → ∃ p, k'.current = some p ∧
      (p ∈ l ∨ l = [] ∧ p = c) ∧ ∀ q ∈ l, ∀ n, Waited (k :: tr) n q → Waited (k :: tr) n p
  faults : ∀ sepc cause e, smodeTrapHandler sepc cause k = .error e → SchedStop e →
    e = .shutdown 0
  shutdown : ∀ sepc cause, smodeTrapHandler sepc cause k = .error (.shutdown 0) ↔
    (∃ code, cause = .ecall (.exit code)) ∧ ∀ i, i = c ∨ Finished (k.procs i).status

theorem inv_readyQueue (h : k.sched.Inv c l) : ReadyQueue k c l :=
  ⟨h.queue.list, h.queue.list.nodup, h.queue.ready, h.current, h.running, h.notMem, h.all⟩

theorem Fair.head {rest : List Pid} (h : Fair tr (p :: rest)) {q : Pid} (hq : q ∈ p :: rest)
    (n : Nat) (hn : Waited tr n q) : Waited tr n p := by
  rcases List.mem_cons.mp hq with rfl | hq'
  · exact hn
  · exact List.rel_of_pairwise_cons h hq' n hn

theorem inv_safe (h : k.sched.Inv c l) (hfair : Fair (k :: tr) l) : SchedSafe k tr c l where
  longest sepc cause k' hre hrun := by
    obtain ⟨c', l', hinv, hmoves⟩ := (trap_post h sepc cause).of_ok hrun
    refine ⟨c', hinv.current, ?_⟩
    rcases hmoves.head hre with ⟨rest, rfl⟩ | ⟨rfl, rfl⟩
    · exact ⟨.inl (by simp), fun q hq n hn => hfair.head hq n hn⟩
    · exact ⟨.inr ⟨rfl, rfl⟩, by simp⟩
  faults sepc cause e hrun hstop := (((trap_post h sepc cause).of_error hrun).1 hstop).1
  shutdown sepc cause := by
    constructor
    · intro hrun
      obtain ⟨-, rfl, hexit⟩ := ((trap_post h sepc cause).of_error hrun).1 (.inl rfl)
      refine ⟨hexit, fun i => ?_⟩
      rcases h.all i with hf | hi | hi
      · exact .inr hf
      · exact .inl hi
      · simp at hi
    · rintro ⟨⟨code, rfl⟩, hall⟩
      have hnil : l = [] := by
        refine List.eq_nil_iff_forall_not_mem.mpr fun i hi => ?_
        have hready := h.queue.ready i hi
        rcases hall i with rfl | hf
        · exact h.notMem hi
        · rw [sched_status] at hready
          rw [hready] at hf
          simp [Finished] at hf
      cases hrun : smodeTrapHandler sepc (.ecall (.exit code)) k with
      | ok r =>
          obtain ⟨c', l', -, hmoves⟩ := (trap_post h sepc _).of_ok hrun
          have hcons : l = c' :: l' := hmoves
          rw [hnil] at hcons
          cases hcons
      | error e => rw [((trap_post h sepc _).of_error hrun).2 ⟨code, rfl⟩]

/-- The ready queue is as it should be in every state of every run. -/
theorem ready_queue (f : HostFile) :
    (∀ k0 e, k0.readyQueueHead = none → sStart f k0 = .error e → ¬SchedStop e) ∧
    ∀ k tr, SchedRun f (k :: tr) → ∃ c l, ReadyQueue k c l ∧ SchedSafe k tr c l := by
  refine ⟨fun k0 e hhead hrun => (sStart_post hhead f).of_error hrun, fun k tr hrun => ?_⟩
  obtain ⟨k1, tr1, heq, c, l, hinv, hfair⟩ := hrun.inv
  obtain ⟨rfl, rfl⟩ := List.cons.inj heq
  exact ⟨c, l, inv_readyQueue hinv, inv_safe hinv hfair⟩

/-- Memory in which the `n` pages after the first one of the kernel are free. -/
def smallPhys (n : Nat) : Phys where
  mem a := if a % pgSize < 8 ∧ roundDown a pgSize ≠ kernBase + pgSize then
    natByte (roundDown a pgSize - pgSize) (a % pgSize) else 0
  gFreeMemList := kernBase + n * pgSize
  freeMemStart := kernBase + pgSize
  freeMemEnd := kernBase + (n + 1) * pgSize

def smallMachine (n : Nat) : Machine :=
  ⟨smallPhys n, .zero, fun i => .zero i, none, none, kernBase, 0, 0, false⟩

/-- A program without segments. -/
def emptyElf : HostFile := ⟨fun a => if a < 4 then natByte elfMagic a else 0, 64⟩

/-- What a run returns. -/
def valueOf {α : Type} (x : ProcM α) (k : Machine) : Option α :=
  match x k with
  | .ok (a, _) => some a
  | .error _ => none

theorem ok_of_valueOf {α : Type} {x : ProcM α} {k : Machine} {a : α} (h : valueOf x k = some a) :
    ∃ k', x k = .ok (a, k') := by
  unfold valueOf at h
  split at h
  · rename_i hrun
    rw [← Option.some.inj h]
    exact ⟨_, hrun⟩
  · cases h

/-- After a fork, a yield and a tick the child runs and its parent waits. -/
theorem ready_queue_two : ∃ k tr, SchedRun emptyElf (k :: tr) ∧ tr.length = 3 ∧
    ReadyQueue k 1 [0] ∧ SchedSafe k tr 1 [0] := by
  have hrun : valueOf (do
      sStart emptyElf
      smodeTrapHandler 0 (.ecall (.fork fun _ => 0))
      smodeTrapHandler 0 (.ecall .yield)
      smodeTrapHandler 0 .timer
      let k ← get
      pure (k.current, k.readyQueueHead, (k.procs 0).queueNext)) (smallMachine 40) =
      some (some 1, some 0, none) := by decide +kernel
  obtain ⟨k4, h⟩ := ok_of_valueOf hrun
  obtain ⟨⟨⟩, k0, hstart, h⟩ := Exec.bind_ok h
  obtain ⟨⟨⟩, k1, hfork, h⟩ := Exec.bind_ok h
  obtain ⟨⟨⟩, k2, hyield, h⟩ := Exec.bind_ok h
  obtain ⟨⟨⟩, k, htick, h⟩ := Exec.bind_ok h
  have hvals : ((k.current, k.readyQueueHead, (k.procs 0).queueNext), k) =
      ((some 1, some 0, none), k4) := Except.ok.inj h
  simp only [Prod.mk.injEq] at hvals
  obtain ⟨⟨hcur, hhead, hnext⟩, -⟩ := hvals
  have hreach : SchedRun emptyElf [k, k2, k1, k0] :=
    .trap (.trap (.trap (.start rfl hstart) hfork) hyield) htick
  have hlist : Linked (fun i => (k.procs i).queueNext) k.readyQueueHead [0] := by
    rw [hhead]
    exact ⟨rfl, hnext⟩
  obtain ⟨c, l, hqueue, hsafe⟩ := (ready_queue emptyElf).2 k _ hreach
  obtain rfl := Option.some.inj (hqueue.current.symm.trans hcur)
  obtain rfl := hqueue.chain.unique hlist
  exact ⟨k, _, hreach, rfl, hqueue, hsafe⟩

end Machine

end Pke
