import Pke.Sched

/-!
# The records of processes

What the kernel keeps about the heap and the regions of a process does
not depend on memory, and it is what the bounds of the kernel's arrays
rest on: `mapped_info` has room for 256 regions, and the lists of a heap
manager for `MAX_HEAP_PAGES` pages. `RecInv` is the invariant of the
records; under it no function leaves an array (`NoUb`).
-/

namespace Pke

variable {k k' k1 : Machine} {i : Pid} {p : Process}

namespace Machine

open Exec (Post get modify)

/-- No array is left and no loop runs on. -/
def NoUb (e : Stop) : Prop := ∀ what, e ≠ .fault (.ub what)

theorem noUb_panic {msg : String} : NoUb (.fault (.panic msg)) := nofun

theorem noUb_nullPage : NoUb (.fault .nullPage) := nofun

/-- The same records. -/
structure SameRec (k k' : Machine) : Prop where
  procs : k'.procs = k.procs
  current : k'.current = k.current
  trap : k'.trapSecStart = k.trapSecStart
  head : k'.readyQueueHead = k.readyQueueHead

theorem SameRec.trans {k'' : Machine} (h : SameRec k k') (h' : SameRec k' k'') : SameRec k k'' :=
  ⟨h'.procs.trans h.procs, h'.current.trans h.current, h'.trap.trans h.trap, h'.head.trans h.head⟩

instance : Std.Refl SameRec := ⟨fun _ => ⟨rfl, rfl, rfl, rfl⟩⟩

instance : Trans SameRec SameRec SameRec := ⟨SameRec.trans⟩

/-- Code that leaves the records alone. -/
abbrev OffRecord {α : Type} (x : ProcM α) : Prop := Exec.Along SameRec NoUb x

instance : Lenient SameRec NoUb where
  memory _ _ _ := ⟨rfl, rfl, rfl, rfl⟩
  files _ _ := ⟨rfl, rfl, rfl, rfl⟩
  fault f h := by
    rcases h with ⟨msg, rfl, -⟩ | rfl | rfl
    · exact noUb_panic
    · exact noUb_nullPage
    · exact nofun
  inFiles _ := nofun

/-! ## New processes -/

/-- Nothing has changed but what the scheduler and the traps change. -/
structure OnlySched (k k' : Machine) : Prop where
  phys : k'.phys = k.phys
  oom : k'.oom = k.oom
  trap : k'.trapSecStart = k.trapSecStart
  procs : ∀ j, ∃ frame st next,
    k'.procs j = { k.procs j with frame := frame, status := st, queueNext := next }

theorem OnlySched.trans {k'' : Machine} (h : OnlySched k k') (h' : OnlySched k' k'') :
    OnlySched k k'' := by
  refine ⟨h'.phys.trans h.phys, h'.oom.trans h.oom, h'.trap.trans h.trap, fun j => ?_⟩
  obtain ⟨frame, st, next, hj⟩ := h.procs j
  obtain ⟨frame', st', next', hj'⟩ := h'.procs j
  exact ⟨frame', st', next', by rw [hj', hj]⟩

theorem OnlySched.set {f : Process → Process}
    (hf : ∀ q, ∃ frame st next, f q = { q with frame := frame, status := st, queueNext := next }) :
    OnlySched k (k.setProc i f) := by
  refine ⟨rfl, rfl, rfl, fun j => ?_⟩
  by_cases hj : j = i
  · subst hj
    simp only [setProc, upd_self]
    exact hf _
  · simp only [setProc, upd_ne hj]
    exact ⟨_, _, _, rfl⟩

/-- Only the record of process `i` has changed, to `p`. -/
structure OneRec (k k' : Machine) (i : Pid) (p : Process) : Prop where
  procs : k'.procs = upd k.procs i p
  current : k'.current = k.current
  trap : k'.trapSecStart = k.trapSecStart
  head : k'.readyQueueHead = k.readyQueueHead

theorem OneRec.self (h : OneRec k k' i p) : k'.procs i = p := by rw [h.procs, upd_self]

theorem OneRec.ne {j : Pid} (h : OneRec k k' i p) (hj : j ≠ i) :
    k'.procs j = k.procs j := by rw [h.procs, upd_ne hj]

theorem OneRec.refl (k : Machine) (i : Pid) : OneRec k k i (k.procs i) :=
  ⟨(upd_eq_self rfl).symm, rfl, rfl, rfl⟩

theorem OneRec.same {k2 : Machine} (h : OneRec k k1 i p) (h' : SameRec k1 k2) : OneRec k k2 i p :=
  ⟨h'.procs.trans h.procs, h'.current.trans h.current, h'.trap.trans h.trap, h'.head.trans h.head⟩

theorem OneRec.set (h : OneRec k k1 i p) (f : Process → Process) :
    OneRec k (k1.setProc i f) i (f p) := by
  refine ⟨?_, h.current, h.trap, h.head⟩
  simp only [setProc, h.procs, upd_upd, upd_self]

/-- The regions of a new process with its trap frame at `tf`. -/
def newRegions (tf trap : Nat) : Fin 256 → MappedRegion :=
  upd (upd (upd (upd (fun _ => .zero) 0 ⟨userStackTop - pgSize, 1, .stack⟩) 1 ⟨tf, 1, .context⟩)
    2 ⟨trap, 1, .system⟩) 3 ⟨userFreeAddressStart, 0, .heap⟩

/-- The record `alloc_process` makes of `q`. -/
def newRecord (q : Process) (tf pt ks mi pfiles trap : Nat) : Process :=
  { q with
    trapframe := tf, frame := { Trapframe.zero with sp := userStackTop }, pagetable := pt
    kstack := ks + pgSize, mappedInfo := mi, regions := newRegions tf trap, totalMappedRegion := 4
    userHeap := { q.userHeap with
      heapTop := userFreeAddressStart, heapBottom := userFreeAddressStart, freePagesCount := 0 }
    pfiles := pfiles }

theorem access_post {p : Nat} (k : Machine) : Post (access p) k (fun _ k' => p ≠ 0 ∧ k' = k) NoUb :=
  .ite (fun _ => .fault noUb_nullPage) fun hp => .pure ⟨hp, rfl⟩

/-- What `allocPages` leaves of `q`. -/
def pagesRecord (q : Process) (tf pt ks mi : Nat) : Process :=
  { q with
    trapframe := tf, frame := { Trapframe.zero with sp := userStackTop }, pagetable := pt
    kstack := ks + pgSize, mappedInfo := mi, regions := fun _ => .zero }

theorem allocPages_rec (i : Pid) (k : Machine) : Post (allocPages i) k
    (fun _ k' => ∃ tf pt ks mi, tf ≠ 0 ∧ OneRec k k' i (pagesRecord (k.procs i) tf pt ks mi))
    NoUb := by
  unfold allocPages
  have halloc : OffRecord allocPage := .allocPage
  have hmemset : ∀ {p len : Nat} {byte : UInt8}, OffRecord (memset p byte len) := .memset
  have h0 := OneRec.refl k i
  refine .bind (halloc k) fun tf k1 h1 => .bindModify ?_
  have h1 := (h0.same h1).set fun p => { p with trapframe := tf }
  refine .bind (access_post _) fun _ k2 h2 => .bindModify ?_
  obtain ⟨htf, rfl⟩ := h2
  have h2 := h1.set fun p => { p with frame := .zero }
  refine .bind (halloc _) fun pt k3 h3 => .bindModify ?_
  have h3 := (h2.same h3).set fun p => { p with pagetable := pt }
  refine .bind (hmemset _) fun _ k4 h4 => ?_
  refine .bind (halloc k4) fun ks k5 h5 => .bindModify ?_
  have h5 := ((h3.same h4).same h5).set fun p => { p with kstack := ks + pgSize }
  refine .bind (halloc _) fun us k6 h6 => .bindModify ?_
  have h6 := (h5.same h6).set fun p => { p with frame := { p.frame with sp := userStackTop } }
  refine .bind (halloc _) fun mi k7 h7 => .bindModify ?_
  have h7 := (h6.same h7).set fun p => { p with mappedInfo := mi }
  refine .bind (access_post _) fun _ k8 h8 => .bindModify (.pure ?_)
  obtain ⟨-, rfl⟩ := h8
  exact ⟨tf, pt, ks, mi, htf, h7.set fun p => { p with regions := fun _ => .zero }⟩

theorem mapSegments_rec {us : Nat} (h : OneRec k k1 i p) : Post (mapSegments i us) k1
      (fun _ k' => OneRec k k' i (setRegion (setRegion (setRegion p
        0 ⟨userStackTop - pgSize, 1, .stack⟩) 1 ⟨p.trapframe, 1, .context⟩)
        2 ⟨k.trapSecStart, 1, .system⟩)) NoUb := by
  refine .bindGet ?_
  dsimp only
  rw [h.self, h.trap]
  have hmap : ∀ {dir va size pa perm : Nat},
      OffRecord (inPhys (Phys.userVmMap dir va size pa perm)) := .userVmMap
  refine .bind (hmap k1) fun _ k2 h2 => .bindModify ?_
  have h2 := (h.same h2).set fun p => setRegion p 0 ⟨userStackTop - pgSize, 1, .stack⟩
  refine .bind (hmap _) fun _ k3 h3 => .bindModify ?_
  have h3 := (h2.same h3).set fun p' => setRegion p' 1 ⟨p.trapframe, 1, .context⟩
  refine .bind (hmap _) fun _ k4 h4 => .modify ?_
  exact (h3.same h4).set fun p => setRegion p 2 ⟨k.trapSecStart, 1, .system⟩

theorem allocProcess_rec (k : Machine) : Post allocProcess k
    (fun i k' => ∃ tf pt ks mi pfiles, tf ≠ 0 ∧ firstFree k = some i ∧
      OneRec k k' i (newRecord (k.procs i) tf pt ks mi pfiles k.trapSecStart)) NoUb := by
  refine .bindGet ?_
  cases hi : firstFree k with
  | none => exact .fault noUb_panic
  | some i =>
      refine .bind (allocPages_rec i k) fun us k1 ⟨tf, pt, ks, mi, htf, h1⟩ => ?_
      refine .bind (mapSegments_rec h1) fun _ k2 h2 => .bindModify (.bindModify (.bindModify ?_))
      have h2 := ((h2.set fun p => { p with userHeap := { p.userHeap with
          heapTop := userFreeAddressStart, heapBottom := userFreeAddressStart
          freePagesCount := 0 } }).set
        fun p => setRegion p 3 ⟨userFreeAddressStart, 0, .heap⟩).set
        fun p => { p with totalMappedRegion := 4 }
      have hinit : OffRecord initProcFileManagement := .initProcFileManagement
      refine .bind (hinit _) fun pf k3 h3 => .bindModify (.pure ?_)
      exact ⟨tf, pt, ks, mi, pf, htf, rfl, (h2.same h3).set fun p => { p with pfiles := pf }⟩

end Machine

end Pke
