import Pke.Fork
import Pke.Regions

/-!
# Time slices

A process is put on the CPU by `schedule` and keeps it until it yields,
exits or `rrsched` takes it away. Only `rrsched` touches `tick_count`
(`trap_ticks`), and it clears it only when it preempts. So the length of a
slice depends on the ticks the process had when the slice began: the slice
is full exactly when it had none (`full_slices`). A process that yields
after a tick takes that tick into its next slice (`short_slice`).
-/

namespace Pke

variable {cause : Cause} {f : HostFile} {k1 : Machine} {ok : Machine → Cause → Prop}
  {cs : List Cause} {n : Nat}

namespace Machine

open Exec (Post get modify)

/-! ## Code that does not count ticks -/

/-- The ticks are as before, no process has become free, and only `p` and processes that
were free are newly ready. -/
structure Waits (p : Pid) (k k' : Machine) : Prop where
  ticks : ∀ i, (k'.procs i).tickCount = (k.procs i).tickCount
  free : ∀ i, (k'.procs i).status = .free → (k.procs i).status = .free
  ready : ∀ i, (k'.procs i).status = .ready →
    (k.procs i).status = .ready ∨ (k.procs i).status = .free ∨ i = p

section

variable {p : Pid} {k k' : Machine}

theorem Waits.of_procs (h : k'.procs = k.procs) : Waits p k k' := by
  refine ⟨fun i => ?_, fun i => ?_, fun i => ?_⟩
  · rw [h]
  · rw [h]
    exact id
  · rw [h]
    exact .inl

theorem Waits.trans {k'' : Machine} (h : Waits p k k') (h' : Waits p k' k'') : Waits p k k'' where
  ticks i := (h'.ticks i).trans (h.ticks i)
  free i hi := h.free i (h'.free i hi)
  ready i hi := by
    rcases h'.ready i hi with hr | hf | hp
    · exact h.ready i hr
    · exact .inr (.inl (h.free i hf))
    · exact .inr (.inr hp)

/-- A change of one process that leaves its ticks. -/
theorem Waits.set {i : Pid} {f : Process → Process} (ht : ∀ q, (f q).tickCount = q.tickCount)
    (hf : ∀ q, (f q).status = .free → q.status = .free)
    (hr : ∀ q, (f q).status = .ready → q.status = .ready ∨ q.status = .free ∨ i = p) :
    Waits p k (k.setProc i f) := by
  refine ⟨fun j => ?_, fun j => ?_, fun j => ?_⟩ <;> simp only [setProc] <;>
    by_cases hj : j = i
  · rw [hj, upd_self, ht]
  · rw [upd_ne hj]
  · rw [hj, upd_self]
    exact hf _
  · rw [upd_ne hj]
    exact id
  · rw [hj, upd_self]
    exact hr _
  · rw [upd_ne hj]
    exact .inl

instance : Std.Refl (Waits p) := ⟨fun _ => .of_procs rfl⟩

instance : Trans (Waits p) (Waits p) (Waits p) := ⟨Waits.trans⟩

/-- Code that counts no tick, and makes no process ready but `p` and free ones. -/
abbrev Steady (p : Pid) {α : Type} (x : ProcM α) : Prop := Exec.Along (Waits p) (fun _ => True) x

end

section

variable {α β : Type} {p : Pid}

theorem steady_modify {f : Machine → Machine} (hf : ∀ k, (f k).procs = k.procs) :
    Steady p (modify f) := fun k => .modify (.of_procs (hf k))

theorem steady_set {i : Pid} {f : Process → Process}
    (hf : ∀ q, (f q).tickCount = q.tickCount ∧ (f q).status = q.status) :
    Steady p (modifyProc i f) :=
  fun _ => .modify (.set (fun q => (hf q).1) (fun q hq => by rwa [(hf q).2] at hq)
    fun q hq => .inl (by rwa [(hf q).2] at hq))

theorem steady_setSelf {f : Process → Process} (ht : ∀ q, (f q).tickCount = q.tickCount)
    (hf : ∀ q, (f q).status ≠ .free) : Steady p (Machine.modifyProc p f) :=
  fun _ => .modify (.set ht (fun q hq => absurd hq (hf q)) fun _ _ => .inr (.inr rfl))

theorem Quiet.steady {x : ProcM α} (hx : Quiet x) : Steady p x := by
  refine fun k => ((hx k).mono fun _ k' h => ?_).monoFault fun _ _ => trivial
  have hstatus : ∀ i, (k'.procs i).status = (k.procs i).status := fun i => by
    rw [← sched_status, h.sched, sched_status]
  exact ⟨h.ticks, fun i hi => hstatus i ▸ hi, fun i hi => .inl (hstatus i ▸ hi)⟩

/-! ### The queue -/

theorem steady_lastFrom {proc : Pid} : ∀ {fuel : Nat} {i : Pid}, Steady p (lastFrom proc fuel i)
  | 0, _ => .fault trivial
  | fuel + 1, i => by
      refine .bindGet fun k => ?_
      cases (k.procs i).queueNext with
      | none => exact .pure
      | some j => exact .ite (fun _ => .pure) fun _ => steady_lastFrom

theorem steady_setReady : Steady p (modifyProc p fun q => { q with status := .ready }) :=
  steady_setSelf (fun _ => rfl) nofun

theorem steady_insertToReadyQueue : Steady p (insertToReadyQueue p) := by
  refine .bindGet fun k => ?_
  cases k.readyQueueHead with
  | none => exact .bind (steady_setSelf (fun _ => rfl) nofun) fun _ => steady_modify fun _ => rfl
  | some head =>
      refine .bind steady_lastFrom fun last => ?_
      cases last with
      | none => exact .pure
      | some j =>
          refine .ite (fun _ => .pure) fun _ => .bind (steady_set fun _ => ⟨rfl, rfl⟩) fun _ => ?_
          exact .bind steady_setReady fun _ => steady_set fun _ => ⟨rfl, rfl⟩

theorem steady_switchTo {i : Pid} : Steady p (switchTo i) :=
  .bind (steady_modify fun _ => rfl) fun _ => .bindGet fun _ => steady_set fun _ => ⟨rfl, rfl⟩

theorem steady_schedule : Steady p schedule := by
  refine .bindGet fun k => ?_
  cases k.readyQueueHead with
  | none => exact .ite (fun _ => .fault trivial) fun _ => .fault trivial
  | some i =>
      refine .bind (steady_modify fun _ => rfl) fun _ => .ite (fun _ => .fault trivial) fun _ => ?_
      refine .bind (steady_modify fun _ => rfl) fun _ => ?_
      refine .bind (fun k => .modify ?_) fun _ => steady_switchTo
      exact .set (fun _ => rfl) nofun nofun

theorem steady_requeue : Steady p (insertToReadyQueue p >>= fun _ => schedule) :=
  steady_insertToReadyQueue.bind fun _ => steady_schedule

theorem steady_switchToCurrent : Steady p switchToCurrent :=
  .bind (Quiet.steady .currentProc) fun _ => steady_switchTo

end

/-! ## Traps -/

/-- The ticks of the running process after a trap. -/
def ticksAfter (ticks : Nat) : Cause → Nat
  | .timer => if ticks + 1 ≥ timeSliceLen then 0 else ticks + 1
  | _ => ticks

/-- What a trap of process `c` does to the ticks, and which processes it makes ready. -/
structure TrapTicks (c : Pid) (cause : Cause) (k k' : Machine) : Prop where
  self : (k'.procs c).tickCount = ticksAfter (k.procs c).tickCount cause
  other : ∀ i, i ≠ c → (k'.procs i).tickCount = (k.procs i).tickCount
  free : ∀ i, (k'.procs i).status = .free → (k.procs i).status = .free
  ready : ∀ i, (k'.procs i).status = .ready →
    (k.procs i).status = .ready ∨ (k.procs i).status = .free ∨ i = c

section

variable {c : Pid} {k k1 k' : Machine}

theorem Waits.trapTicks (h : Waits c k k')
    (ht : ticksAfter (k.procs c).tickCount cause = (k.procs c).tickCount) :
    TrapTicks c cause k k' :=
  ⟨(h.ticks c).trans ht.symm, fun i _ => h.ticks i, h.free, h.ready⟩

theorem allocProcess_waits (k : Machine) : Post allocProcess k
    (fun i k1 => (k.procs i).status = .free ∧ Waits i k k1) fun _ => True := by
  refine ((allocProcess_rec k).mono fun i k1 => ?_).monoFault fun _ _ => trivial
  rintro ⟨tf, pt, ks, mi, pf, -, hfree, hrec⟩
  have hfree := firstFree_some hfree
  refine ⟨hfree, fun j => ?_, fun j hj => ?_, fun j hj => ?_⟩ <;> by_cases hji : j = i
  · rw [hji, hrec.self]
    rfl
  · rw [hrec.ne hji]
  · rw [hji]
    exact hfree
  · rwa [hrec.ne hji] at hj
  · exact .inr (.inr hji)
  · rw [hrec.ne hji] at hj
    exact .inl hj

/-- A child was free, so it is no exception. -/
theorem doFork_waits {garbage : Fin 32 → Int} : Steady c (doFork c garbage) := by
  intro k
  refine .bind (allocProcess_waits k) ?_
  rintro i k1 ⟨hfree, h1⟩
  have hrest : Steady i (do
      let k ← get
      forkRegions c i garbage (k.procs c).totalMappedRegion 0
      modifyProc i fun p => { p with status := .ready }
      modifyProc i fun p => { p with frame := { p.frame with a0 := 0 } }
      modifyProc i fun p => { p with parent := some c }
      insertToReadyQueue i
      let k ← get
      pure (k.procs i).pid) := by
    refine .bindGet fun k => .bind quiet_forkRegions.steady fun _ => ?_
    refine .bind steady_setReady fun _ => .bind (steady_set fun _ => ⟨rfl, rfl⟩) fun _ => ?_
    refine .bind (steady_set fun _ => ⟨rfl, rfl⟩) fun _ => .bind steady_insertToReadyQueue fun _ => ?_
    exact .bindGet fun _ => .pure
  refine (hrest k1).mono fun _ k2 h2 => ?_
  have h := h1.trans h2
  refine ⟨h.ticks, h.free, fun j hj => ?_⟩
  rcases h.ready j hj with hr | hf | rfl
  · exact .inl hr
  · exact .inr (.inl hf)
  · exact .inr (.inl hfree)

theorem steady_doSyscall (hc : k.current = some c) (call : ProcCall) :
    Post (doSyscall call) k (fun _ k' => Waits c k k') fun _ => True := by
  cases call with
  | exit code =>
      have hexit : Steady c (freeProcess c) := steady_setSelf (fun _ => rfl) nofun
      refine .bind (.step (currentProc_eq hc) ?_) fun _ k' h => .pure h
      exact hexit.bind (fun _ => steady_schedule) k
  | print buf n out args => exact .bind (quiet_print.steady k) fun _ k' h => .pure h
  | allocatePage => exact .bind (quiet_allocatePage.steady k) fun _ k' h => .pure h
  | freePage va => exact .bind ((quiet_freePage va).steady k) fun _ k' h => .pure h
  | file call => exact .bind ((quiet_fileCall call).steady k) fun _ k' h => .pure h
  | unknown a0 => exact .fault trivial
  | fork garbage =>
      exact .bind (.step (currentProc_eq hc) (doFork_waits k)) fun _ k' h => .pure h
  | yield =>
      refine .bind (.step (currentProc_eq hc) ?_) fun _ k' h => .pure h
      exact (steady_setReady.bind fun _ => steady_requeue) k

/-- The ticks of `c` have been set before. -/
theorem Waits.after (h : Waits c k1 k') (hne : ∀ i, i ≠ c → k1.procs i = k.procs i)
    (hst : (k1.procs c).status = (k.procs c).status)
    (ht : (k1.procs c).tickCount = ticksAfter (k.procs c).tickCount cause) :
    TrapTicks c cause k k' := by
  have hstatus : ∀ i, (k1.procs i).status = (k.procs i).status := by
    intro i
    by_cases hi : i = c
    · rw [hi, hst]
    · rw [hne i hi]
  refine ⟨(h.ticks c).trans ht, fun i hi => ?_, fun i hi => ?_, fun i hi => ?_⟩
  · rw [h.ticks, hne i hi]
  · rw [← hstatus]
    exact h.free i hi
  · rw [← hstatus]
    exact h.ready i hi

/-- `rrsched` counts the tick, and starts again when it preempts. -/
theorem rrsched_ticks (hc : k.current = some c) :
    Post rrsched k (fun _ k' => TrapTicks c .timer k k') fun _ => True := by
  refine .step (currentProc_eq hc) (.bindModify (.bindGet ?_))
  have htick : ((k.setProc c fun p => { p with tickCount := p.tickCount + 1 }).procs c).tickCount =
      (k.procs c).tickCount + 1 := by simp [setProc]
  rw [htick]
  refine .ite (fun hslice => .bindModify ?_) fun hslice => .pure ?_
  · have hrest : Steady c (do
        modifyProc c fun p => { p with status := .ready }
        insertToReadyQueue c
        schedule
        pure false) := by
      refine steady_setReady.bind fun _ => steady_insertToReadyQueue.bind fun _ => ?_
      exact steady_schedule.bind fun _ => .pure
    refine (hrest _).mono fun _ k' h => h.after (fun i hi => ?_) ?_ ?_
    · simp only [setProc, upd_ne hi]
    · simp only [setProc, upd_self]
    · simp only [setProc, upd_self, ticksAfter, if_pos hslice]
  · refine Waits.after (.of_procs rfl) (fun i hi => ?_) ?_ ?_
    · simp only [setProc, upd_ne hi]
    · simp only [setProc, upd_self]
    · simp only [setProc, upd_self, ticksAfter, if_neg hslice]

theorem TrapTicks.waits {k2 : Machine} (h : TrapTicks c cause k k1) (h' : Waits c k1 k2) :
    TrapTicks c cause k k2 where
  self := (h'.ticks c).trans h.self
  other i hi := (h'.ticks i).trans (h.other i hi)
  free i hi := h.free i (h'.free i hi)
  ready i hi := by
    rcases h'.ready i hi with hr | hf | hc
    · exact h.ready i hr
    · exact .inr (.inl (h.free i hf))
    · exact .inr (.inr hc)

theorem Waits.trap (h : Waits c k k1) (h' : TrapTicks c cause k1 k') : TrapTicks c cause k k' where
  self := by rw [h'.self, h.ticks]
  other i hi := (h'.other i hi).trans (h.ticks i)
  free i hi := h.free i (h'.free i hi)
  ready i hi := by
    rcases h'.ready i hi with hr | hf | hc
    · exact h.ready i hr
    · exact .inr (.inl (h.free i hf))
    · exact .inr (.inr hc)

/-- A change of the trap frame of `c`. -/
theorem waits_setFrame {f : Process → Trapframe} :
    Waits c k (k.setProc c fun p => { p with frame := f p }) :=
  .set (fun _ => rfl) (fun _ => id) fun _ => .inl

/-- Only `rrsched` counts. -/
theorem trap_ticks (hc : k.current = some c) (sepc : Nat) (cause : Cause) :
    Post (smodeTrapHandler sepc cause) k (fun _ k' => TrapTicks c cause k k') fun _ => True := by
  refine .step (currentProc_eq hc) (.bindModify ?_)
  refine Post.mono (Q := fun _ k' => TrapTicks c cause
    (k.setProc c fun p => { p with frame := { p.frame with epc := sepc } }) k') ?_
    fun _ k' h => waits_setFrame.trap h
  have hc1 : (k.setProc c fun p =>
      { p with frame := { p.frame with epc := sepc } }).current = some c := hc
  generalize (k.setProc c fun p => { p with frame := { p.frame with epc := sepc } }) = k1 at *
  have hswitch : Steady c switchToCurrent := steady_switchToCurrent
  have hfault : ∀ mcause stval,
      ticksAfter (k1.procs c).tickCount cause = (k1.procs c).tickCount →
      Post (handleUserPageFault mcause stval >>= fun _ => switchToCurrent) k1
        (fun _ k' => TrapTicks c cause k1 k') fun _ => True := by
    intro mcause stval ht
    have hquiet : Steady c (handleUserPageFault mcause stval) := (quiet_userPageFault _ _).steady
    refine .bind (hquiet k1) fun _ k2 h2 => ?_
    exact (hswitch k2).mono fun _ k' h' => (h2.trans h').trapTicks ht
  cases cause with
  | ecall call =>
      refine .bindModify (.bind (steady_doSyscall (by exact hc1) call) fun r k2 h2 => ?_)
      have h2 := waits_setFrame.trans h2
      cases r with
      | none => exact .pure (h2.trapTicks rfl)
      | some a0 =>
          refine .bindModify ((hswitch _).mono fun _ k' h' => ?_)
          exact ((h2.trans waits_setFrame).trans h').trapTicks rfl
  | timer =>
      refine .bind (rrsched_ticks hc1) fun r k2 h2 => ?_
      cases r with
      | false => exact .pure h2
      | true => exact (hswitch k2).mono fun _ k' h' => h2.waits h'
  | storeFault stval => exact hfault _ stval.toNat rfl
  | loadFault stval => exact hfault _ stval.toNat rfl
  | other scause => exact .fault trivial

end

/-! ## Slices -/

/-- From `k` on, the traps `cs` have been handled, the last one first, and none of them
has called `schedule`. -/
inductive Slice (k : Machine) : List Cause → Machine → Prop
  | nil : Slice k [] k
  | cons {k' k'' : Machine} {c : Pid} {cs : List Cause} {sepc : Nat} {cause : Cause}
      (hslice : Slice k cs k') (hcur : k'.current = some c)
      (hstay : ¬Reschedules (k'.procs c).tickCount cause)
      (hrun : smodeTrapHandler sepc cause k' = .ok ((), k'')) : Slice k (cause :: cs) k''

def Cause.isTimer : Cause → Bool
  | .timer => true
  | _ => false

/-- The timer ticks among some traps. -/
def tickTraps (cs : List Cause) : Nat := cs.countP Cause.isTimer

/-- A trap that is allowed. -/
def TrapStep (ok : Machine → Cause → Prop) (k k' : Machine) : Prop :=
  ∃ sepc cause, ok k cause ∧ smodeTrapHandler sepc cause k = .ok ((), k')

/-- The machine after `s_start`. -/
def Started (f : HostFile) (k : Machine) : Prop :=
  ∃ k0, k0.readyQueueHead = none ∧ sStart f k0 = .ok ((), k)

/-- The states of a run in which `schedule` has just put a process on the CPU. -/
inductive Dispatched (f : HostFile) (ok : Machine → Cause → Prop) : Machine → Prop
  | first {k : Machine} (hstart : Started f k) : Dispatched f ok k
  | next {k1 k k' : Machine} {c : Pid} {sepc : Nat} {cause : Cause} (hstart : Started f k1)
      (hreach : Reaches (TrapStep ok) k1 k) (hcur : k.current = some c) (hok : ok k cause)
      (hre : Reschedules (k.procs c).tickCount cause)
      (hrun : smodeTrapHandler sepc cause k = .ok ((), k')) : Dispatched f ok k'

/-- `schedule` has put `c` on the CPU in `k`, and `rrsched` preempts it after `n` ticks. -/
def Preempted (f : HostFile) (ok : Machine → Cause → Prop) (k : Machine) (c : Pid) (n : Nat) :
    Prop :=
  ∃ cs k' k'' sepc, Dispatched f ok k ∧ k.current = some c ∧ Slice k cs k' ∧ k'.current = some c ∧
    Reschedules (k'.procs c).tickCount .timer ∧ smodeTrapHandler sepc .timer k' = .ok ((), k'') ∧
    n = tickTraps (.timer :: cs)

/-- A process that yields has had no tick in its slice. -/
def YieldsFresh (k : Machine) (cause : Cause) : Prop :=
  cause = .ecall .yield → ∀ c, k.current = some c → (k.procs c).tickCount = 0

/-- Between two traps no process has the ticks of a whole slice. -/
structure SliceInv (k : Machine) (c : Pid) (l : List Pid) : Prop where
  sched : k.sched.Inv c l
  bound : ∀ i, (k.procs i).tickCount < timeSliceLen

/-- And those that wait have none. -/
structure FreshInv (k : Machine) (c : Pid) (l : List Pid) : Prop extends SliceInv k c l where
  queued : ∀ i ∈ l, (k.procs i).tickCount = 0
  unborn : ∀ i, (k.procs i).status = .free → (k.procs i).tickCount = 0

section

variable {k k' : Machine} {c c' : Pid} {l l' : List Pid} {cause : Cause} {sepc : Nat}

theorem ticksAfter_lt {ticks : Nat} (h : ticks < timeSliceLen) :
    ticksAfter ticks cause < timeSliceLen := by
  unfold ticksAfter
  split
  · split
    · decide
    · omega
  · exact h

theorem SliceInv.trap (h : SliceInv k c l) (hrun : smodeTrapHandler sepc cause k = .ok ((), k')) :
    ∃ c' l', SliceInv k' c' l' ∧ TrapTicks c cause k k' ∧
      Moves (k.procs c).tickCount c l cause l' c' := by
  obtain ⟨c', l', hinv, hmoves⟩ := (trap_post h.sched sepc cause).of_ok hrun
  have hticks := (trap_ticks h.sched.current sepc cause).of_ok hrun
  refine ⟨c', l', ⟨hinv, fun i => ?_⟩, hticks, hmoves⟩
  by_cases hi : i = c
  · rw [hi, hticks.self]
    exact ticksAfter_lt (h.bound c)
  · rw [hticks.other i hi]
    exact h.bound i

/-- A process that goes on the queue again, or comes from it at once, has no ticks. -/
theorem YieldsFresh.self (h : SliceInv k c l) (hok : YieldsFresh k cause)
    (hm : Moves (k.procs c).tickCount c l cause l' c')
    (hself : c ∈ l' ∨ Reschedules (k.procs c).tickCount cause ∧ c' = c) :
    ticksAfter (k.procs c).tickCount cause = 0 := by
  have hnot := h.sched.notMem
  match cause, hm, hself, hok with
  | .ecall .yield, _, _, hok => exact hok rfl c h.sched.current
  | .timer, hm, hself, _ =>
      rw [ticksAfter]
      split
      · rfl
      · rename_i hslice
        simp only [Moves, if_neg hslice] at hm
        rcases hself with hmem | ⟨hre, -⟩
        · exact absurd (hm.2 ▸ hmem) hnot
        · exact absurd hre hslice
  | .ecall (.exit _), hm, hself, _ =>
      have hm : l = c' :: l' := hm
      rw [hm, List.mem_cons, not_or] at hnot
      rcases hself with hmem | ⟨-, heq⟩
      · exact absurd hmem hnot.2
      · exact absurd heq.symm hnot.1
  | .ecall (.fork _), hm, hself, _ =>
      obtain ⟨-, i, -, hic, rfl⟩ := hm
      rcases hself with hmem | ⟨hre, -⟩
      · rcases List.mem_append.mp hmem with hmem | hmem
        · exact absurd hmem hnot
        · exact absurd (List.mem_singleton.mp hmem).symm hic
      · exact absurd hre id
  | .ecall (.print ..), hm, hself, _ | .ecall .allocatePage, hm, hself, _
  | .ecall (.freePage _), hm, hself, _ | .ecall (.file _), hm, hself, _
  | .ecall (.unknown _), hm, hself, _ | .storeFault _, hm, hself, _ | .loadFault _, hm, hself, _
  | .other _, hm, hself, _ =>
      rcases hself with hmem | ⟨hre, -⟩
      · exact absurd (hm.2 ▸ hmem) hnot
      · exact absurd hre id

theorem FreshInv.trap (h : FreshInv k c l) (hok : YieldsFresh k cause)
    (hrun : smodeTrapHandler sepc cause k = .ok ((), k')) :
    ∃ c' l', FreshInv k' c' l' ∧ (Reschedules (k.procs c).tickCount cause →
      (k'.procs c').tickCount = 0) := by
  obtain ⟨c', l', hinv, hticks, hmoves⟩ := h.toSliceInv.trap hrun
  refine ⟨c', l', ⟨hinv, fun i hi => ?_, fun i hi => ?_⟩, fun hre => ?_⟩
  · by_cases hic : i = c
    · rw [hic] at hi ⊢
      rw [hticks.self]
      exact hok.self h.toSliceInv hmoves (.inl hi)
    · rw [hticks.other i hic]
      rcases hticks.ready i (hinv.sched.queue.ready i hi) with hready | hfree | heq
      · refine h.queued i ?_
        have hready : k.sched.status i = .ready := hready
        rcases h.sched.all i with hfin | heq | hmem
        · rw [hready] at hfin
          simp [Finished] at hfin
        · exact absurd heq hic
        · exact hmem
      · exact h.unborn i hfree
      · exact absurd heq hic
  · have hfree := hticks.free i hi
    have hic : i ≠ c := by
      rintro rfl
      have hrunning : (k.procs i).status = .running := h.sched.running
      rw [hrunning] at hfree
      cases hfree
    rw [hticks.other i hic]
    exact h.unborn i hfree
  · by_cases hcc : c' = c
    · rw [hcc, hticks.self]
      exact hok.self h.toSliceInv hmoves (.inr ⟨hre, hcc⟩)
    · rw [hticks.other c' hcc]
      rcases hmoves.head hre with ⟨rest, hl⟩ | ⟨-, heq⟩
      · exact h.queued c' (by simp [hl])
      · exact absurd heq hcc

theorem sStart_ticks {k0 : Machine} (hrun : sStart f k0 = .ok ((), k)) (i : Pid) :
    (k.procs i).tickCount = 0 := by
  obtain ⟨⟨⟩, k1, hinit, hrun⟩ := Exec.bind_ok hrun
  have h1 : ∀ i, (k1.procs i).tickCount = 0 := by
    cases hinit
    exact fun _ => rfl
  obtain ⟨p, k2, hload, hrun⟩ := Exec.bind_ok hrun
  obtain ⟨q, ka, halloc, hload⟩ := Exec.bind_ok hload
  obtain ⟨⟨⟩, kb, hbin, hload⟩ := Exec.bind_ok hload
  obtain ⟨⟨⟩, k3, hinsert, hsched⟩ := Exec.bind_ok hrun
  cases hload
  have h2 := (allocProcess_waits k1).of_ok halloc
  have h3 : Waits p ka k2 := Exec.Post.of_ok (quiet_loadBincode.steady ka) hbin
  have h4 : Waits p k2 k3 := (steady_insertToReadyQueue k2).of_ok hinsert
  have h5 : Waits p k3 k := Exec.Post.of_ok (steady_schedule k3) hsched
  rw [((h2.2.trans h3).trans (h4.trans h5)).ticks, h1]

theorem Started.fresh (h : Started f k) : ∃ c, FreshInv k c [] := by
  obtain ⟨k0, hhead, hrun⟩ := h
  obtain ⟨c, hinv⟩ := (sStart_post hhead f).of_ok hrun
  refine ⟨c, ⟨hinv, fun i => ?_⟩, by simp, fun i _ => sStart_ticks hrun i⟩
  rw [sStart_ticks hrun]
  decide

theorem reaches_slice (h : Started f k1) (hreach : Reaches (TrapStep ok) k1 k) :
    ∃ c l, SliceInv k c l := by
  obtain ⟨c, hfresh⟩ := h.fresh
  refine hreach.invariant (I := fun k => ∃ c l, SliceInv k c l) ⟨c, [], hfresh.toSliceInv⟩ ?_
  rintro k k' ⟨c, l, hinv⟩ ⟨sepc, cause, -, hrun⟩
  obtain ⟨c', l', hinv', -⟩ := hinv.trap hrun
  exact ⟨c', l', hinv'⟩

theorem reaches_fresh (h : Started f k1) (hreach : Reaches (TrapStep YieldsFresh) k1 k) :
    ∃ c l, FreshInv k c l := by
  obtain ⟨c, hfresh⟩ := h.fresh
  refine hreach.invariant (I := fun k => ∃ c l, FreshInv k c l) ⟨c, [], hfresh⟩ ?_
  rintro k k' ⟨c, l, hinv⟩ ⟨sepc, cause, hok, hrun⟩
  obtain ⟨c', l', hinv', -⟩ := hinv.trap hok hrun
  exact ⟨c', l', hinv'⟩

theorem Dispatched.slice (h : Dispatched f ok k) : ∃ c l, SliceInv k c l := by
  cases h with
  | first hstart =>
      obtain ⟨c, hfresh⟩ := hstart.fresh
      exact ⟨c, [], hfresh.toSliceInv⟩
  | next hstart hreach _ hok _ hrun => exact reaches_slice hstart (.tail hreach ⟨_, _, hok, hrun⟩)

theorem Moves.stay {ticks : Nat} (h : Moves ticks c l cause l' c')
    (hstay : ¬Reschedules ticks cause) : c' = c := by
  rcases h.split with ⟨hre, -⟩ | ⟨-, hc, -⟩
  · exact absurd hre hstay
  · exact hc

theorem ticksAfter_stay {ticks : Nat} (hstay : ¬Reschedules ticks cause) :
    ticksAfter ticks cause = ticks + tickTraps [cause] := by
  cases cause with
  | timer =>
      have hslice : ¬ticks + 1 ≥ timeSliceLen := hstay
      rw [ticksAfter, if_neg hslice]
      rfl
  | ecall | storeFault | loadFault | other => rfl

theorem tickTraps_cons (cs : List Cause) :
    tickTraps (cause :: cs) = tickTraps cs + tickTraps [cause] := by
  simp [tickTraps, List.countP_cons]

/-- The ticks of a slice add up. -/
theorem Slice.ticks (h : Slice k cs k') (hk : SliceInv k c l) :
    ∃ l', SliceInv k' c l' ∧ (k'.procs c).tickCount = (k.procs c).tickCount + tickTraps cs := by
  induction h with
  | nil => exact ⟨l, hk, rfl⟩
  | cons _ hcur hstay hrun ih =>
      obtain ⟨l1, hinv, hsum⟩ := ih
      obtain rfl := Option.some.inj (hcur.symm.trans hinv.sched.current)
      obtain ⟨c2, l2, hinv2, hticks, hmoves⟩ := hinv.trap hrun
      obtain rfl := hmoves.stay hstay
      refine ⟨l2, hinv2, ?_⟩
      rw [hticks.self, ticksAfter_stay hstay, hsum, Nat.add_assoc, ← tickTraps_cons]

/-- What is missing in a slice is what its process brought along. -/
theorem Preempted.length (h : Preempted f ok k c n) : (k.procs c).tickCount + n = timeSliceLen := by
  obtain ⟨cs, k', k'', sepc, hdisp, hcur, hslice, -, hre, -, rfl⟩ := h
  obtain ⟨c0, l, hinv⟩ := hdisp.slice
  obtain rfl := Option.some.inj (hcur.symm.trans hinv.sched.current)
  obtain ⟨l', hinv', hsum⟩ := hslice.ticks hinv
  have hbound := hinv'.bound c
  have hre : (k'.procs c).tickCount + 1 ≥ timeSliceLen := hre
  have hone : tickTraps [.timer] = 1 := rfl
  rw [tickTraps_cons, hone]
  omega

theorem Dispatched.fresh (h : Dispatched f YieldsFresh k) (hcur : k.current = some c) :
    (k.procs c).tickCount = 0 := by
  cases h with
  | first hstart =>
      obtain ⟨k0, -, hrun⟩ := hstart
      exact sStart_ticks hrun c
  | next hstart hreach hcur' hok hre hrun =>
      obtain ⟨c0, l, hinv⟩ := reaches_fresh hstart hreach
      obtain rfl := Option.some.inj (hcur'.symm.trans hinv.sched.current)
      obtain ⟨c1, l1, hinv1, hzero⟩ := hinv.trap hok hrun
      obtain rfl := Option.some.inj (hcur.symm.trans hinv1.sched.current)
      exact hzero hre

end

/-- A slice has full length exactly when its process starts it without ticks, and that is
so for all slices of a run in which processes yield only before their first tick. -/
theorem full_slices (f : HostFile) :
    (∀ k c n, Preempted f (fun _ _ => True) k c n →
      (n = timeSliceLen ↔ (k.procs c).tickCount = 0)) ∧
    ∀ k c n, Preempted f YieldsFresh k c n → n = timeSliceLen := by
  constructor
  · intro k c n h
    have := h.length
    omega
  · intro k c n h
    have hlength := h.length
    obtain ⟨-, -, -, -, hdisp, hcur, -⟩ := h
    rw [hdisp.fresh hcur, Nat.zero_add] at hlength
    exact hlength

/-- The process that runs, and its ticks. -/
def runningTicks (k : Machine) : Option (Pid × Nat) :=
  k.current.map fun c => (c, (k.procs c).tickCount)

theorem of_runningTicks {k : Machine} {c : Pid} (h : runningTicks k = some (c, n)) :
    k.current = some c ∧ (k.procs c).tickCount = n := by
  obtain ⟨c', hcur, heq⟩ := Option.map_eq_some_iff.mp h
  obtain ⟨rfl, rfl⟩ := Prod.mk.inj heq
  exact ⟨hcur, rfl⟩

/-- A process that is never disturbed has two ticks in its slice. -/
theorem full_slices_two : ∃ k c, Preempted emptyElf YieldsFresh k c 2 ∧ 2 = timeSliceLen := by
  have hrun : valueOf (do
      sStart emptyElf
      let k ← get
      smodeTrapHandler 0 .timer
      let k' ← get
      smodeTrapHandler 0 .timer
      pure (runningTicks k, runningTicks k')) (smallMachine 20) =
      some (some (0, 0), some (0, 1)) := by decide +kernel
  obtain ⟨k3, h⟩ := ok_of_valueOf hrun
  obtain ⟨⟨⟩, k, hstart, h⟩ := Exec.bind_ok h
  rw [Exec.bind_of_ok (show (get : ProcM Machine) k = .ok (k, k) from rfl)] at h
  obtain ⟨⟨⟩, k1, htick, h⟩ := Exec.bind_ok h
  rw [Exec.bind_of_ok (show (get : ProcM Machine) k1 = .ok (k1, k1) from rfl)] at h
  obtain ⟨⟨⟩, k2, hpreempt, h⟩ := Exec.bind_ok h
  have hpair : ((runningTicks k, runningTicks k1), k2) = ((some (0, 0), some (0, 1)), k3) :=
    Except.ok.inj h
  simp only [Prod.mk.injEq] at hpair
  obtain ⟨hcur, hzero⟩ := of_runningTicks hpair.1.1
  obtain ⟨hcur1, hone⟩ := of_runningTicks hpair.1.2
  have hslice : Preempted emptyElf YieldsFresh k 0 2 := by
    refine ⟨[.timer], k1, k2, 0, .first ⟨_, rfl, hstart⟩, hcur, .cons .nil hcur ?_ htick, hcur1, ?_,
      hpreempt, rfl⟩
    · rw [hzero]
      show ¬(0 + 1 ≥ timeSliceLen)
      decide
    · rw [hone]
      show 1 + 1 ≥ timeSliceLen
      decide
  exact ⟨k, 0, hslice, (full_slices emptyElf).2 k 0 2 hslice⟩

/-- A process that yields after its first tick is preempted after one tick. -/
theorem short_slice : ∃ k c n, Preempted emptyElf (fun _ _ => True) k c n ∧ n ≠ timeSliceLen := by
  have hrun : valueOf (do
      sStart emptyElf
      smodeTrapHandler 0 .timer
      let k ← get
      smodeTrapHandler 0 (.ecall .yield)
      let k' ← get
      smodeTrapHandler 0 .timer
      pure (runningTicks k, runningTicks k')) (smallMachine 20) =
      some (some (0, 1), some (0, 1)) := by decide +kernel
  obtain ⟨k4, h⟩ := ok_of_valueOf hrun
  obtain ⟨⟨⟩, k, hstart, h⟩ := Exec.bind_ok h
  obtain ⟨⟨⟩, k1, htick, h⟩ := Exec.bind_ok h
  rw [Exec.bind_of_ok (show (get : ProcM Machine) k1 = .ok (k1, k1) from rfl)] at h
  obtain ⟨⟨⟩, k2, hyield, h⟩ := Exec.bind_ok h
  rw [Exec.bind_of_ok (show (get : ProcM Machine) k2 = .ok (k2, k2) from rfl)] at h
  obtain ⟨⟨⟩, k3, hpreempt, h⟩ := Exec.bind_ok h
  have hpair : ((runningTicks k1, runningTicks k2), k3) = ((some (0, 1), some (0, 1)), k4) :=
    Except.ok.inj h
  simp only [Prod.mk.injEq] at hpair
  obtain ⟨hcur1, -⟩ := of_runningTicks hpair.1.1
  obtain ⟨hcur2, hone⟩ := of_runningTicks hpair.1.2
  have hre : Reschedules (k1.procs 0).tickCount (.ecall .yield) := trivial
  refine ⟨k2, 0, 1, ⟨[], k2, k3, 0, ?_, hcur2, .nil, hcur2, ?_, hpreempt, rfl⟩, by decide⟩
  · exact .next ⟨_, rfl, hstart⟩ (.tail .refl ⟨0, .timer, trivial, htick⟩) hcur1 trivial hre hyield
  · rw [hone]
    show 1 + 1 ≥ timeSliceLen
    decide

/-! ## Waiting for the CPU -/

/-- From `k` on, the traps `cs` have been handled, the last one first, and `p` has not
been on the CPU. -/
inductive Waiting (p : Pid) (k : Machine) : List Cause → Machine → Prop
  | nil (hoff : k.current ≠ some p) : Waiting p k [] k
  | cons {k' k'' : Machine} {cs : List Cause} {sepc : Nat} {cause : Cause}
      (hwait : Waiting p k cs k') (hrun : smodeTrapHandler sepc cause k' = .ok ((), k''))
      (hoff : k''.current ≠ some p) : Waiting p k (cause :: cs) k''

/-- The ticks after which the one with `n` others ahead of it is on the CPU, while `c` runs. -/
def ticksLeft (k : Machine) (c : Pid) (n : Nat) : Nat :=
  n * timeSliceLen + (timeSliceLen - (k.procs c).tickCount)

section

variable {k k' : Machine} {p c : Pid} {l : List Pid} {n : Nat}

theorem tickTraps_le (cause : Cause) : tickTraps [cause] ≤ 1 := List.countP_le_length

/-- A tick is one of those that are left, and other traps do not add to them. -/
theorem SliceInv.wait {sepc : Nat} (h : SliceInv k c l) (hp : l[n]? = some p)
    (hrun : smodeTrapHandler sepc cause k = .ok ((), k')) (hoff : k'.current ≠ some p) :
    ∃ c' l' n', SliceInv k' c' l' ∧ l'[n']? = some p ∧
      k'.ticksLeft c' n' + tickTraps [cause] ≤ k.ticksLeft c n := by
  obtain ⟨c', l', hinv, hticks, hmoves⟩ := h.trap hrun
  have hbound := h.bound c
  have hbound' := hinv.bound c'
  rcases hmoves.split with ⟨-, xs, -, heq⟩ | ⟨hstay, rfl, xs, -, -, rfl⟩
  · -- everybody moves up by one, and the first one is off the queue
    have hmem : (c' :: l')[n]? = some p := by
      rw [← heq, List.getElem?_append_left (List.getElem?_eq_some_iff.mp hp).1, hp]
    cases n with
    | zero => exact absurd (hinv.sched.current.trans hmem) hoff
    | succ n =>
        have hone := tickTraps_le cause
        refine ⟨c', l', n, hinv, hmem, ?_⟩
        unfold ticksLeft
        rw [Nat.succ_mul]
        omega
  · refine ⟨c', l ++ xs, n, hinv, ?_, ?_⟩
    · rw [List.getElem?_append_left (List.getElem?_eq_some_iff.mp hp).1, hp]
    · unfold ticksLeft
      rw [hticks.self, ticksAfter_stay hstay]
      rw [hticks.self, ticksAfter_stay hstay] at hbound'
      omega

theorem Waiting.ticks (hw : Waiting p k cs k') (h : SliceInv k c l) (hp : l[n]? = some p) :
    ∃ c' l' n', SliceInv k' c' l' ∧ l'[n']? = some p ∧
      k'.ticksLeft c' n' + tickTraps cs ≤ k.ticksLeft c n := by
  induction hw with
  | nil => exact ⟨c, l, n, h, hp, le_rfl⟩
  | cons _ hrun hoff ih =>
      obtain ⟨c1, l1, n1, hinv, hp1, hle⟩ := ih
      obtain ⟨c2, l2, n2, hinv2, hp2, hle2⟩ := hinv.wait hp1 hrun hoff
      refine ⟨c2, l2, n2, hinv2, hp2, ?_⟩
      rw [tickTraps_cons]
      omega

end

end Machine

end Pke
