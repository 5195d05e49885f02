import Pke.Fork
import Pke.UserHeap

/-!
# The program of a child

What `do_fork` makes of the memory of a program outside its heap. The
program has been built by `elf_load` and has run, with any number of store
page faults. Its data segments are not copied, nor the pages the stack has
grown by, and of a code segment only the page of its address is mapped;
`fork_reproduces_iff` says which programs are reproduced all the same.
-/

namespace Pke

variable {f : HostFile} {r : MappedRegion} {x v : Nat} {garbage : Fin 32 → Int} {n : NewPages}

namespace Machine

open Exec (Post get modify)
open Paging (Forkable Forks lastStack)

/-! ## Programs that run -/

/-- What the program of process `i` does by itself, or by a store to a page that is not there. -/
inductive UserStep (i : Pid) : Machine → Machine → Prop
  | registers {k : Machine} (frame : Trapframe) :
      UserStep i k (k.setProc i fun q => { q with frame := frame })
  | store {k : Machine} {v e : Nat} (byte : UInt8) : v < maxVA →
      entry k.phys.mem (k.procs i).pagetable v = some e → e &&& pteU ≠ 0 → e &&& pteW ≠ 0 →
      UserStep i k { k with phys := { k.phys with
        mem := Pke.memcpy k.phys.mem (pte2pa e + v % pgSize) 1 fun _ => byte } }
  | pageFault {k k' : Machine} {sepc : Nat} {stval : UInt64} :
      smodeTrapHandler sepc (.storeFault stval) k = .ok ((), k') → UserStep i k k'

/-- A program that has not asked for pages of the heap. -/
structure Running (i : Pid) (k : Machine) (l : List Nat) (P : Paging) : Prop where
  current : k.current = some i
  status : (k.procs i).status ≠ .free
  refines : k.phys.Refines l P []
  start : HasStart P (k.procs i).pagetable k.trapSecStart
  trap : k.trapSecStart % pgSize = 0 ∧ k.trapSecStart < 2 ^ 64
  regions : 1 < (k.procs i).totalMappedRegion ∧ ((k.procs i).regions 0).segType = .stack ∧
    ((k.procs i).regions 1).segType = .context
  heap : (k.procs i).userHeap.heapBottom = userFreeAddressStart ∧
    (k.procs i).userHeap.heapTop = userFreeAddressStart

variable {i : Pid} {k k' : Machine} {l : List Nat} {P : Paging}

/-- What the scheduler and the traps change does not matter. -/
theorem Running.sched (h : Running i k l P) (honly : OnlySched k k') (hcurrent : k'.current = some i)
    (hstatus : (k'.procs i).status ≠ .free) : Running i k' l P := by
  obtain ⟨frame, st, next, hrec⟩ := honly.procs i
  refine ⟨hcurrent, hstatus, honly.phys ▸ h.refines, ?_, honly.trap ▸ h.trap, ?_, ?_⟩
  · rw [hrec, honly.trap]
    exact h.start
  · rw [hrec]
    exact h.regions
  · rw [hrec]
    exact h.heap

theorem Loaded.running (h : Loaded f i k) (htrap : k.trapSecStart ≠ 0) :
    ∃ l P, Running i k l P := by
  obtain ⟨l, P, hrefines, hstart, -⟩ := h.hasStart
  have hheap := h.freshHeap
  obtain ⟨k0, l0, k1, k2, hk0, hnew, hload, honly⟩ := h.built
  have hkept := ((offHeap_elfLoadFrom k1).of_ok hload).trans honly.keepsHeaps
  obtain ⟨tf, pt, ks, mi, pfiles, -, -, hrec⟩ := (allocProcess_rec k0).of_ok hnew
  have htrap0 : k.trapSecStart = k0.trapSecStart := hkept.trap.trans hrec.trap
  obtain ⟨hused, hrecorded⟩ := recorded_new (htrap0 ▸ htrap) hnew
  obtain ⟨hrecorded, -⟩ := (elfLoadFrom_post hused hrecorded).of_ok hload rfl
  obtain ⟨frame, st, next, hsame⟩ := honly.procs i
  refine ⟨l, P, h.current, h.status, hrefines, hstart, htrap0 ▸ ⟨hk0.page, hk0.lt⟩, ?_, hheap.bottom,
    hheap.top⟩
  rw [hsame]
  refine ⟨?_, ?_, ?_⟩
  · show 1 < (k2.procs i).totalMappedRegion
    rw [hrecorded.total]
    omega
  · show ((k2.procs i).regions 0).segType = _
    rw [hrecorded.regions, entries_low (by decide), hrec.self]
    rfl
  · show ((k2.procs i).regions 1).segType = _
    rw [hrecorded.regions, entries_low (by decide), hrec.self]
    rfl

/-- A page is mapped that was not. -/
theorem HasStart.grow {d trap m p perm : Nat} {page : Nat → UInt8} (h : HasStart P d trap)
    (hp : Unused P p) (hperm : perm < 1024) (hnone : P.entries d m = none) :
    HasStart ((P.use p page).map d m (Phys.leafPte p perm)) d trap := by
  have hold : ∀ n e, P.entries d n = some e →
      ((P.use p page).map d m (Phys.leafPte p perm)).entries d n = some e := by
    intro n e he
    rw [Paging.map_entries, if_neg]
    · exact he
    · rintro rfl
      cases he.symm.trans hnone
  obtain ⟨us, hus, hus64, hstack⟩ := h.stack
  exact ⟨(h.own.grow hp hperm).1, ⟨us, hus, hus64, hold _ _ hstack⟩, hold _ _ h.trap⟩

theorem Running.storeFault {stval : Nat} (h : Running i k l P) (hstval : stval < 2 ^ 64)
    (hrun : handleUserPageFault causeStorePageFault stval k = .ok ((), k')) :
    ∃ l' P', Running i k' l' P' := by
  rw [handleUserPageFault, if_pos rfl] at hrun
  obtain ⟨pa, k1, halloc, hrun⟩ := Exec.bind_ok hrun
  obtain ⟨hsame, hcase⟩ := (allocPage_refines (E := fun _ => True) h.refines).of_ok halloc
  have hcurrent : k1.current = some i := hsame.current.trans h.current
  split at hrun
  · cases hrun
  · rename_i hpa
    obtain ⟨rest, rfl, -, -, hrefines, -⟩ := hcase.resolve_left fun hzero => hpa hzero.1
    rw [Exec.bind_of_ok (currentProc_run hcurrent),
      Exec.bind_of_ok (show (get : ProcM Machine) k1 = .ok (k1, k1) from rfl), hsame.procs] at hrun
    have hheld := Pages.held (F := fun _ => True) (k := k1) ⟨⟨rest, hrefines⟩, trivial⟩
      (List.mem_cons_self ..)
    have hva : roundDown stval pgSize < 2 ^ 64 := (Nat.div_mul_le_self _ _).trans_lt hstval
    have hperm : protToType protRW true < 1024 := Phys.protToType_lt _ _
    have hmap : Post (Phys.userVmMap (k.procs i).pagetable (roundDown stval pgSize) pgSize pa
        (protToType protRW true)) k1.phys _ _ :=
      hrefines.map h.start.own.dir (Nat.mul_mod_left _ _) hva hheld.2.1 hperm
    refine Post.of_ok (Q := fun _ k' => ∃ l' P', Running i k' l' P') (E := fun _ => True) (post_inPhys
      ((hmap.mono fun _ s hs => ?_).monoFault fun _ _ => trivial)) hrun
    obtain ⟨l', hs, -, hnone, -⟩ := hs
    have hunused : Unused P pa :=
      ⟨hheld.1, hheld.2.1, (hrefines.held pa (by simp)).2.1, hrefines.source pa (.inr (by simp))⟩
    have huse : s.Refines l' ((P.use pa fun i => s.mem (pa + i)).map (k.procs i).pagetable
        (roundDown stval pgSize / pgSize) (Phys.leafPte pa (protToType protRW true))) [] :=
      hs.use fun _ _ => rfl
    refine ⟨l', _, hcurrent, ?_, huse, ?_, ?_, ?_, ?_⟩
    · rw [hsame.procs]
      exact h.status
    · rw [hsame.procs, hsame.trap]
      exact h.start.grow hunused hperm hnone
    · rw [hsame.trap]
      exact h.trap
    · rw [hsame.procs]
      exact h.regions
    · rw [hsame.procs]
      exact h.heap

theorem Running.step (h : Running i k l P) (hstep : UserStep i k k') :
    ∃ l' P', Running i k' l' P' := by
  cases hstep with
  | registers frame =>
      refine ⟨l, P, h.sched (.set fun _ => ⟨_, _, _, rfl⟩) h.current ?_⟩
      simp only [setProc, upd_self]
      exact h.status
  | store byte hv he hU hW =>
      rename_i v e
      have hlen : v % pgSize + 1 ≤ pgSize := Nat.mod_lt _ (by decide)
      rw [h.refines.entry _ h.start.own.dir v hv] at he
      obtain ⟨us, hus, hus64, hstack⟩ := h.start.stack
      exact ⟨l, _, h.current, h.status, h.refines.copy (h.start.own.data _ e he) hlen,
        ⟨(h.start.own.copy he hlen).1, ⟨us, hus, hus64, hstack⟩, h.start.trap⟩, h.trap, h.regions,
        h.heap⟩
  | pageFault hrun =>
      rename_i sepc stval
      rw [smodeTrapHandler, Exec.bind_of_ok (currentProc_run h.current)] at hrun
      obtain ⟨⟨⟩, k1, hepc, hrun⟩ := Exec.bind_ok hrun
      obtain ⟨⟨⟩, k2, hfault, hrun⟩ := Exec.bind_ok hrun
      have h1 : Running i k1 l P := by
        cases hepc
        refine h.sched (.set fun _ => ⟨_, _, _, rfl⟩) h.current ?_
        simp only [setProc, upd_self]
        exact h.status
      obtain ⟨l', P', h2⟩ := h1.storeFault stval.toNat_lt hfault
      rw [switchToCurrent, Exec.bind_of_ok (currentProc_run h2.current)] at hrun
      obtain ⟨hcurrent, hstatus, honly⟩ := (switchTo_only (E := fun _ => True) k2).of_ok hrun
      exact ⟨l', P', h2.sched honly hcurrent (hstatus ▸ h2.status)⟩

theorem Running.run {k0 : Machine} (h : ∃ l P, Running i k0 l P) (hrun : Reaches (UserStep i) k0 k) :
    ∃ l P, Running i k l P := by
  refine Reaches.invariant (I := fun k => ∃ l P, Running i k l P) h ?_ hrun
  rintro k k' ⟨l, P, h⟩ hstep
  exact h.step hstep

/-! ## What is asked of a fork -/

/-- A page of process `i` that its program can use. -/
def UserPage (k : Machine) (i : Pid) (v e : Nat) : Prop :=
  entry k.phys.mem (k.procs i).pagetable v = some e ∧ e &&& pteU ≠ 0

/-- The entry `e'` gives at least the rights of `e`. -/
def Grants (e e' : Nat) : Prop :=
  (e &&& pteR ≠ 0 → e' &&& pteR ≠ 0) ∧ (e &&& pteW ≠ 0 → e' &&& pteW ≠ 0) ∧
    (e &&& pteX ≠ 0 → e' &&& pteX ≠ 0)

/-- The page `p` was free, and is now the page of the child at `v` and nothing else. -/
structure Private (parent child : Pid) (l : List Nat) (k' : Machine) (v p : Nat) : Prop where
  taken : p ∈ l
  notFree : ∀ l', k'.phys.Pool l' → p ∉ l'
  notTable : p ∉ tables k'.phys.mem (k'.procs parent).pagetable ∧
    p ∉ tables k'.phys.mem (k'.procs child).pagetable
  kernel : p + pgSize ≠ (k'.procs child).kstack ∧ p ≠ (k'.procs child).mappedInfo ∧
    p ≠ (k'.procs child).pfiles ∧ p ≠ (k'.procs child).trapframe
  once : ∀ v' < maxVA, ∀ e, entry k'.phys.mem (k'.procs child).pagetable v' = some e →
    pte2pa e = p → v' / pgSize = v / pgSize

/-- The child has the program of the parent. -/
structure Reproduced (parent child : Pid) (l : List Nat) (k k' : Machine) : Prop where
  pages : ∀ v < maxVA, ¬((k.procs parent).userHeap.heapBottom ≤ v ∧
      v < (k.procs parent).userHeap.heapTop) → ∀ e, UserPage k parent v e →
    ∃ e', UserPage k' child v e' ∧ Grants e e' ∧
      (∀ j < pgSize, k'.phys.mem (pte2pa e' + j) = k.phys.mem (pte2pa e + j)) ∧
      (pte2pa e' = pte2pa e ∧ e &&& pteW = 0 ∧ e' &&& pteW = 0 ∨
        Private parent child l k' v (pte2pa e'))
  only : ∀ v < maxVA, ¬((k.procs parent).userHeap.heapBottom ≤ v ∧
      v < (k.procs parent).userHeap.heapTop) → ∀ e', UserPage k' child v e' →
    ∃ e, UserPage k parent v e
  frame : (k'.procs child).frame = { (k.procs parent).frame with a0 := 0 }

/-- The regions `do_fork` goes through. -/
def regionsOf (k : Machine) (i : Pid) : List MappedRegion :=
  regionsFrom (k.procs i).regions (k.procs i).totalMappedRegion 0

/-- The physical page that is mapped at page `x` for the code region `r`. -/
def codePa (k : Machine) (i : Pid) (r : MappedRegion) (x : Nat) : Nat :=
  (Phys.lookup k.phys.mem (k.procs i).pagetable r.va + (x * pgSize - roundDown r.va pgSize)) % 2 ^ 64

/-- A program that consists of the stack and of pages that are mapped for a code region. -/
structure Plain (k : Machine) (i : Pid) : Prop where
  pages : ∀ v < maxVA, ∀ e, UserPage k i v e → v / pgSize = stackPage ∨ e &&& pteW = 0 ∧
    ∃ r ∈ regionsOf k i, r.segType = .code ∧ CodePage r.va (v / pgSize) ∧
      pte2pa e = codePa k i r (v / pgSize)
  code : ∀ r ∈ regionsOf k i, r.segType = .code → ∀ x, CodePage r.va x → x * pgSize < maxVA →
    ∃ e, UserPage k i (x * pgSize) e
  stack : ∀ r, lastStack (regionsOf k i) = some r → ∀ e,
    entry k.phys.mem (k.procs i).pagetable (userStackTop - pgSize) = some e → ∀ j < pgSize,
      k.phys.mem (Phys.lookup k.phys.mem (k.procs i).pagetable r.va + j) = k.phys.mem (pte2pa e + j)

/-! ## The entries of the child -/

/-- The entry of a page that the program can read and execute, and not write. -/
def IsCode (e : Nat) : Prop :=
  e &&& pteU ≠ 0 ∧ e &&& pteR ≠ 0 ∧ e &&& pteX ≠ 0 ∧ e &&& pteW = 0

theorem isCode_codePte (pa va n : Nat) : IsCode (codePte pa va n) := by
  obtain ⟨hR, hW, hX, hU⟩ := leafPte_rights ((pa + (n * pgSize - roundDown va pgSize)) % 2 ^ 64)
    (Phys.protToType_lt protRX true)
  unfold IsCode codePte
  rw [hR, hW, hX, hU]
  decide

theorem stackPte_rights (us : Nat) : stackPte us &&& pteU ≠ 0 ∧ stackPte us &&& pteR ≠ 0 ∧
    stackPte us &&& pteW ≠ 0 ∧ stackPte us &&& pteX = 0 := by
  obtain ⟨hR, hW, hX, hU⟩ := leafPte_rights us (Phys.protToType_lt protRW true)
  unfold stackPte
  rw [hR, hW, hX, hU]
  decide

/-- What `do_fork` has made of the memory of a program without a heap. The stack of the child is the
page `us` and its trap frame the page `tf`. -/
structure ForkView (parent child : Pid) (l : List Nat) (k k' : Machine) (us tf : Nat) : Prop where
  cases : ∀ v < maxVA, ∀ e, entry k'.phys.mem (k'.procs child).pagetable v = some e →
    (∃ r ∈ regionsOf k parent, r.segType = .code ∧ CodePage r.va (v / pgSize) ∧
      pte2pa e = codePa k parent r (v / pgSize) ∧ IsCode e) ∨
    v / pgSize = stackPage ∧ e = stackPte us ∨
    e &&& pteU = 0 ∧ (pte2pa e = tf ∨ pte2pa e = k.trapSecStart)
  code : ∀ r ∈ regionsOf k parent, r.segType = .code → ∀ x, CodePage r.va x → x * pgSize < maxVA →
    x ≠ stackPage ∧ ∃ e, entry k'.phys.mem (k'.procs child).pagetable (x * pgSize) = some e ∧
      pte2pa e = codePa k parent r x ∧ IsCode e
  stack : entry k'.phys.mem (k'.procs child).pagetable (userStackTop - pgSize) = some (stackPte us)
  stackPa : pte2pa (stackPte us) = us
  taken : us ∈ l ∧ us ≠ tf ∧ us ≠ k.trapSecStart
  notFree : ∀ l', k'.phys.Pool l' → us ∉ l'
  notTable : us ∉ tables k'.phys.mem (k'.procs parent).pagetable ∧
    us ∉ tables k'.phys.mem (k'.procs child).pagetable
  kernel : us + pgSize ≠ (k'.procs child).kstack ∧ us ≠ (k'.procs child).mappedInfo ∧
    us ≠ (k'.procs child).pfiles ∧ us ≠ (k'.procs child).trapframe
  /-- No other page was taken for the program. -/
  all : ∀ v p, Private parent child l k' v p → p = us
  bytes : ∀ v < maxVA, ∀ e, entry k.phys.mem (k.procs parent).pagetable v = some e →
    pte2pa e ∉ l ∧ Phys.SamePage k.phys.mem k'.phys.mem (pte2pa e)
  stackBytes : ∀ r, lastStack (regionsOf k parent) = some r → ∀ j < pgSize,
    k'.phys.mem (us + j) = k.phys.mem (Phys.lookup k.phys.mem (k.procs parent).pagetable r.va + j)
  frame : (k'.procs child).frame = { (k.procs parent).frame with a0 := 0 }

section

variable {parent child : Pid} {us us0 tf : Nat}

theorem stack_div : (userStackTop - pgSize) / pgSize = stackPage := rfl

/-- In a plain program a page that is mapped for a code region is the page of the parent. -/
theorem ForkView.code_parent (h : ForkView parent child l k k' us tf) (hplain : Plain k parent)
    (hr : r ∈ regionsOf k parent) (hcode : r.segType = .code) (hx : CodePage r.va x)
    (hlt : x * pgSize < maxVA) :
    ∃ e, UserPage k parent (x * pgSize) e ∧ codePa k parent r x = pte2pa e := by
  obtain ⟨e, he⟩ := hplain.code r hr hcode x hx hlt
  obtain ⟨hne, e1, he1, hpa1, -⟩ := h.code r hr hcode x hx hlt
  have hdiv : x * pgSize / pgSize = x := Nat.mul_div_cancel _ (by decide)
  rcases hplain.pages _ hlt e he with hstack | ⟨-, r2, hr2, hcode2, hx2, hpa⟩
  · exact absurd (hdiv.symm.trans hstack) hne
  · rw [hdiv] at hx2 hpa
    -- the other region has mapped the same entry
    obtain ⟨-, e2, he2, hpa2, -⟩ := h.code r2 hr2 hcode2 x hx2 hlt
    cases he1.symm.trans he2
    exact ⟨e, he, hpa1.symm.trans (hpa2.trans hpa.symm)⟩

/-- The stack of the child is its own. -/
theorem ForkView.private_stack (h : ForkView parent child l k k' us tf) (hplain : Plain k parent)
    (hv : v / pgSize = stackPage) : Private parent child l k' v us := by
  refine ⟨h.taken.1, h.notFree, h.notTable, h.kernel, fun v' hv' e he hpa => ?_⟩
  rcases h.cases v' hv' e he with ⟨r, hr, hcode, hx, hpa', -⟩ | ⟨hstack, -⟩ | ⟨-, hother⟩
  · have hlt : v' / pgSize * pgSize < maxVA := (Nat.div_mul_le_self _ _).trans_lt hv'
    obtain ⟨e2, ⟨he2, -⟩, hpa2⟩ := h.code_parent hplain hr hcode hx hlt
    refine absurd h.taken.1 ?_
    rw [← hpa, hpa', hpa2]
    exact (h.bytes _ hlt e2 he2).1
  · exact hstack.trans hv.symm
  · rcases hother with hother | hother
    · exact absurd (hpa.symm.trans hother) h.taken.2.1
    · exact absurd (hpa.symm.trans hother) h.taken.2.2

theorem ForkView.reproduced (h : ForkView parent child l k k' us tf) (hplain : Plain k parent)
    (hstack : entry k.phys.mem (k.procs parent).pagetable (userStackTop - pgSize) = some (stackPte us0))
    {r0 : MappedRegion} (hlast : lastStack (regionsOf k parent) = some r0) :
    Reproduced parent child l k k' := by
  have hstackAt : ∀ {v}, v / pgSize = stackPage →
      entry k.phys.mem (k.procs parent).pagetable v = some (stackPte us0) ∧
      entry k'.phys.mem (k'.procs child).pagetable v = some (stackPte us) := fun hv =>
    ⟨(entry_congr (hv.trans stack_div.symm)).trans hstack,
      (entry_congr (hv.trans stack_div.symm)).trans h.stack⟩
  refine ⟨fun v hv _ e he => ?_, fun v hv _ e' he' => ?_, h.frame⟩
  · rcases hplain.pages v hv e he with hpage | ⟨hW, r, hr, hcode, hx, hpa⟩
    · obtain ⟨hold, hnew⟩ := hstackAt hpage
      cases he.1.symm.trans hold
      obtain ⟨hU, hR, hW, hX⟩ := stackPte_rights us
      refine ⟨stackPte us, ⟨hnew, hU⟩, ⟨fun _ => hR, fun _ => hW, ?_⟩, fun j hj => ?_, .inr ?_⟩
      · exact fun hX' => absurd (stackPte_rights us0).2.2.2 hX'
      · rw [h.stackPa, h.stackBytes r0 hlast j hj, hplain.stack r0 hlast _ hstack j hj]
      · rw [h.stackPa]
        exact h.private_stack hplain hpage
    · have hlt : v / pgSize * pgSize < maxVA := (Nat.div_mul_le_self _ _).trans_lt hv
      obtain ⟨-, e', he', hpa', hU, hR, hX, hW'⟩ := h.code r hr hcode _ hx hlt
      rw [entry_congr (Nat.mul_div_cancel _ (by decide))] at he'
      have hsame : pte2pa e' = pte2pa e := hpa'.trans hpa.symm
      refine ⟨e', ⟨he', hU⟩, ⟨fun _ => hR, fun h => absurd hW h, fun _ => hX⟩, ?_, .inl ⟨hsame, hW, hW'⟩⟩
      rw [hsame]
      exact (h.bytes v hv e he.1).2
  · rcases h.cases v hv e' he'.1 with ⟨r, hr, hcode, hx, -⟩ | ⟨hpage, -⟩ | ⟨hU, -⟩
    · have hlt : v / pgSize * pgSize < maxVA := (Nat.div_mul_le_self _ _).trans_lt hv
      obtain ⟨e, he, hU⟩ := hplain.code r hr hcode _ hx hlt
      rw [entry_congr (Nat.mul_div_cancel _ (by decide))] at he
      exact ⟨e, he, hU⟩
    · exact ⟨_, (hstackAt hpage).1, (stackPte_rights us0).1⟩
    · exact absurd hU he'.2

theorem ForkView.plain (h : ForkView parent child l k k' us tf)
    (hheap : (k.procs parent).userHeap.heapTop = (k.procs parent).userHeap.heapBottom)
    (hstack : entry k.phys.mem (k.procs parent).pagetable (userStackTop - pgSize) = some (stackPte us0))
    (hrep : Reproduced parent child l k k') : Plain k parent := by
  have hout : ∀ v, ¬((k.procs parent).userHeap.heapBottom ≤ v ∧
      v < (k.procs parent).userHeap.heapTop) := by
    intro v hv
    omega
  refine ⟨fun v hv e he => ?_, fun r hr hcode x hx hlt => ?_, fun r hlast e he j hj => ?_⟩
  · obtain ⟨e', he', hgrants, -, hshared⟩ := hrep.pages v hv (hout v) e he
    rcases h.cases v hv e' he'.1 with ⟨r, hr, hcode, hx, hpa, -, -, -, hW⟩ | ⟨hpage, -⟩ | ⟨hU, -⟩
    · rcases hshared with ⟨hsame, hW, -⟩ | hprivate
      · exact .inr ⟨hW, r, hr, hcode, hx, hsame.symm.trans hpa⟩
      · -- a page of its own could only be the stack
        refine .inl ?_
        have hus := h.all v _ hprivate
        exact (hprivate.once _ (by decide) _ h.stack (h.stackPa.trans hus.symm)).symm
    · exact .inl hpage
    · exact absurd hU he'.2
  · obtain ⟨-, e', he', -, hU, -⟩ := h.code r hr hcode x hx hlt
    exact hrep.only _ hlt (hout _) e' ⟨he', hU⟩
  · cases he.symm.trans hstack
    obtain ⟨e', he', -, hbytes, -⟩ :=
      hrep.pages _ (by decide) (hout _) _ ⟨hstack, (stackPte_rights us0).1⟩
    cases he'.1.symm.trans h.stack
    rw [← hbytes j hj, h.stackPa, h.stackBytes r hlast j hj]

/-- Nothing is copied of a heap that is empty. -/
theorem copiedPages_nil {heap : HeapManager} (h : heap.heapTop = heap.heapBottom) :
    copiedPages heap garbage = [] := by
  rw [copiedPages, copiedFrom, if_neg (by omega)]

theorem pte2pa_codePte {pa va n : Nat} (hpa : pa % pgSize = 0) :
    pte2pa (codePte pa va n) = (pa + (n * pgSize - roundDown va pgSize)) % 2 ^ 64 := by
  refine Phys.pte2pa_leafPte (Phys.protToType_lt _ _) ?_ (Nat.mod_lt _ (by decide))
  unfold roundDown pgSize at *
  omega

theorem childRecord_kept : (childRecord k parent child n).kstack = n.kstack + pgSize ∧
    (childRecord k parent child n).mappedInfo = n.mappedInfo ∧
    (childRecord k parent child n).pfiles = n.pfiles ∧
    (childRecord k parent child n).trapframe = n.frame := by
  have hkept : ∀ q0 q r, (forkRecord q0 q r).kstack = q.kstack ∧
      (forkRecord q0 q r).mappedInfo = q.mappedInfo ∧ (forkRecord q0 q r).pfiles = q.pfiles ∧
      (forkRecord q0 q r).trapframe = q.trapframe := by
    intro q0 q r
    unfold forkRecord
    cases r.segType with
    | code => dsimp only; split <;> exact ⟨rfl, rfl, rfl, rfl⟩
    | _ => exact ⟨rfl, rfl, rfl, rfl⟩
  exact ⟨foldl_kept Process.kstack fun q r => (hkept _ q r).1,
    foldl_kept Process.mappedInfo fun q r => (hkept _ q r).2.1,
    foldl_kept Process.pfiles fun q r => (hkept _ q r).2.2.1,
    foldl_kept Process.trapframe fun q r => (hkept _ q r).2.2.2⟩

theorem childRecord_frame {j : Fin 256} (hj : j.val < (k.procs parent).totalMappedRegion)
    (hcontext : ((k.procs parent).regions j).segType = .context) :
    (childRecord k parent child n).frame = (k.procs parent).frame := by
  refine foldl_forkRecord Process.frame (fun q r => ?_) (.inl ⟨_, mem_regions hj, hcontext⟩)
  unfold forkRecord
  cases r.segType with
  | code => dsimp only; split <;> rfl
  | _ => rfl

/-- Where the records of the parent and of the child lead. -/
theorem Forked.records {T P' : Paging} (hf : Forked parent child garbage k k' T P' n) :
    (k'.procs parent).pagetable = (k.procs parent).pagetable ∧
      (k'.procs child).pagetable = n.dir ∧ (k'.procs child).kstack = n.kstack + pgSize ∧
      (k'.procs child).mappedInfo = n.mappedInfo ∧ (k'.procs child).pfiles = n.pfiles ∧
      (k'.procs child).trapframe = n.frame := by
  obtain ⟨st, next, hrec⟩ := hf.record
  obtain ⟨st', next', hother⟩ := hf.procs parent hf.ne
  rw [hrec, hother]
  exact ⟨rfl, childRecord_pagetable, childRecord_kept⟩

section

variable {garbage : Fin 32 → Int} {T P' : Paging} {n : NewPages} {stack frame : Nat → UInt8}
  (hk : CanFork parent k l T) (hf : Forked parent child garbage k k' T P' n)
  (hfork : Forkable (T.spawn n.dir n.stack n.frame k.trapSecStart stack frame)
    (k.procs parent).pagetable n.dir n.stack)
  (hforks : Forks (k.procs parent).pagetable n.dir [] (regionsOf k parent)
    (T.spawn n.dir n.stack n.frame k.trapSecStart stack frame) P')

include hk hfork hforks

theorem child_code (hr : r ∈ regionsOf k parent) (hcode : r.segType = .code) (hx : CodePage r.va x)
    : x ≠ stackPage ∧
      ∃ e, P'.entries n.dir x = some e ∧ pte2pa e = codePa k parent r x ∧ IsCode e := by
  obtain ⟨hsrc, hnone, hentry⟩ := hforks.code hfork hr hcode hx
  rw [Paging.spawn_lookup hfork.ne] at hsrc hentry
  have hpage : T.lookup (k.procs parent).pagetable r.va % pgSize = 0 := by
    obtain ⟨-, e, -, hpa⟩ := Paging.exists_of_lookup rfl hsrc
    rw [hpa]
    exact pte2pa_mod e
  refine ⟨?_, _, hentry, ?_, isCode_codePte _ _ _⟩
  · rintro rfl
    cases hfork.stack.symm.trans hnone
  · rw [pte2pa_codePte hpage, codePa, hk.refines.lookup_eq hk.dir]

theorem child_cases {e : Nat} (he : P'.entries n.dir x = some e) :
    (∃ r ∈ regionsOf k parent, r.segType = .code ∧ CodePage r.va x ∧
      pte2pa e = codePa k parent r x ∧ IsCode e) ∨
    x = stackPage ∧ e = stackPte n.stack ∨ e = framePte n.frame ∨ e = trapPte k.trapSecStart := by
  by_cases hcode : ∃ r ∈ regionsOf k parent, r.segType = .code ∧ CodePage r.va x
  · obtain ⟨r, hr, hcode, hx⟩ := hcode
    obtain ⟨-, e', he', hpa, hbits⟩ := child_code hk hfork hforks hr hcode hx
    cases he.symm.trans he'
    exact .inl ⟨r, hr, hcode, hx, hpa, hbits⟩
  · right
    rw [hforks.entry_eq List.not_mem_nil fun r hr htype hx => hcode ⟨r, hr, htype, hx⟩,
      Paging.spawn_entries] at he
    split at he
    · exact .inr (.inr (Option.some.inj he).symm)
    · split at he
      · exact .inr (.inl (Option.some.inj he).symm)
      · split at he
        · exact .inl ⟨‹_›, (Option.some.inj he).symm⟩
        · cases he

include hf

/-- A page of the parent keeps its bytes. -/
theorem parent_page {q : Nat} (hq : q ∈ T.data) (hpage : q % pgSize = 0) :
    Phys.SamePage k.phys.mem k'.phys.mem q := by
  obtain ⟨l', hrefines⟩ := hf.refines
  have habove := hforks.above hfork
  have hmem : q ∈ (T.spawn n.dir n.stack n.frame k.trapSecStart stack frame).data := .inr (.inr hq)
  have hus : q ≠ n.stack := fun heq => hf.spawned.stack.notMem (heq ▸ hq)
  intro i hi
  rw [(hrefines.data q (habove.data hmem)).2 i hi, habove.bytes q hmem hpage hus i hi,
    Paging.spawn_bytes hf.spawned hq hpage i hi, (hk.refines.data q hq).2 i hi]

theorem child_stack (hr : lastStack (regionsOf k parent) = some r) :
    ∀ j < pgSize, k'.phys.mem (n.stack + j) =
      k.phys.mem (Phys.lookup k.phys.mem (k.procs parent).pagetable r.va + j) := by
  obtain ⟨l', hrefines⟩ := hf.refines
  obtain ⟨hsrc, hbytes⟩ := hforks.stack hfork hr
  rw [Paging.spawn_lookup hfork.ne] at hsrc hbytes
  obtain ⟨-, e, he, hpa⟩ := Paging.exists_of_lookup rfl hsrc
  have hold := hk.data _ e he
  intro j hj
  rw [hk.refines.lookup_eq hk.dir, (hrefines.data _ ((hforks.above hfork).data hfork.mem)).2 j hj,
    hbytes j hj, hpa, Paging.spawn_bytes hf.spawned hold (pte2pa_mod e) j hj,
    (hk.refines.data _ hold).2 j hj]

omit hk in
/-- The stack of the child is used for nothing else. -/
theorem child_alone : (∀ l', k'.phys.Pool l' → n.stack ∉ l') ∧
    (n.stack ∉ tables k'.phys.mem (k'.procs parent).pagetable ∧
      n.stack ∉ tables k'.phys.mem (k'.procs child).pagetable) ∧
    n.stack + pgSize ≠ (k'.procs child).kstack ∧ n.stack ≠ (k'.procs child).mappedInfo ∧
      n.stack ≠ (k'.procs child).pfiles ∧ n.stack ≠ (k'.procs child).trapframe := by
  obtain ⟨l', hrefines⟩ := hf.refines
  have habove := hforks.above hfork
  have hmem : n.stack ∈ P'.data := habove.data hfork.mem
  obtain ⟨⟨-, hfree, htable⟩, -⟩ := hrefines.data _ hmem
  have hheld : ∀ p ∈ [n.pfiles, n.mappedInfo, n.kstack], n.stack ≠ p := fun p hp heq =>
    (hrefines.held p hp).2.1 (heq ▸ hmem)
  obtain ⟨hdir, hdir', hkstack, hmapped, hpfiles, htf⟩ := hf.records
  rw [hdir, hdir', hkstack, hmapped, hpfiles, htf]
  refine ⟨fun l'' hl'' => ?_, ⟨?_, ?_⟩, fun heq => ?_, hheld _ (by simp), hheld _ (by simp),
    hf.spawned.ne⟩
  · rw [hl''.list.unique hrefines.spaces.pool.list]
    exact hfree
  · exact htable _ (habove.dirs ▸ hfork.parent)
  · exact htable _ (habove.dirs ▸ hfork.child)
  · exact hheld n.kstack (by simp) (Nat.add_right_cancel heq)

omit hk in
/-- The pages that were free and are not the stack are used by the kernel. -/
theorem child_all (hdirs : T.dirs = {(k.procs parent).pagetable}) (hpages : T.pages = {q | q ∈ l})
    (hdata : ∀ q ∈ T.data, q ∉ l) {p : Nat} (hp : Private parent child l k' v p) : p = n.stack := by
  obtain ⟨l', hrefines⟩ := hf.refines
  have habove := hforks.above hfork
  obtain ⟨hdir, hdir', hkstack, hmapped, hpfiles, htf⟩ := hf.records
  obtain ⟨htaken, hfree, htable, hkernel, -⟩ := hp
  rw [hdir, hdir'] at htable
  rw [hkstack, hmapped, hpfiles, htf] at hkernel
  have haccount : p ∈ P'.pages := by
    rw [habove.pages]
    exact hpages.symm ▸ htaken
  rcases hrefines.all p haccount with (hp | ⟨d, hd, hp⟩) | hp | hp
  · exact absurd hp (hfree l' hrefines.spaces.pool)
  · rw [habove.dirs] at hd
    rcases hd with rfl | hd
    · exact absurd hp htable.2
    · have hd : d ∈ T.dirs := hd
      rw [hdirs] at hd
      exact absurd (hd ▸ hp) htable.1
  · simp only [List.mem_cons, List.not_mem_nil, or_false] at hp
    rcases hp with rfl | rfl | rfl
    · exact absurd rfl hkernel.2.2.1
    · exact absurd rfl hkernel.2.1
    · exact absurd rfl hkernel.1
  · rw [hforks.data_eq] at hp
    rcases hp with rfl | rfl | hp
    · rfl
    · exact absurd rfl hkernel.2.2.2
    · exact absurd htaken (hdata p hp)

end

theorem Running.view {pid : Nat} (h : Running parent k l P) (hchild : firstFree k = some child)
    (hrun : doFork parent garbage k = .ok (pid, k')) (hoom : k'.oom = false) :
    ∃ us tf, ForkView parent child l k k' us tf := by
  have hspace : ForkSpace parent k l := .of_own h.current h.status h.refines h.start.own h.trap
  have hk := hspace.canFork (by rw [h.heap.1]; decide)
  obtain ⟨child', P', n, hf⟩ := doFork_forks hk hrun hoom
  obtain rfl : child' = child := Option.some.inj (hf.first.symm.trans hchild)
  obtain ⟨stack, frame, hfork, hforks⟩ := hf.filled hk
  rw [copiedPages_nil (h.heap.2.trans h.heap.1.symm)] at hforks
  obtain ⟨st, next, hrec⟩ := hf.record
  obtain ⟨hfree, htable, hkernel⟩ := child_alone hf hfork hforks
  have htf : pte2pa (framePte n.frame) = n.frame :=
    Phys.pte2pa_leafPte (by decide) hf.spawned.frame.page hf.spawned.frame.lt
  have htrap : pte2pa (trapPte k.trapSecStart) = k.trapSecStart :=
    Phys.pte2pa_leafPte (by decide) h.trap.1 h.trap.2
  refine ⟨n.stack, n.frame, fun v hv e he => ?_, fun r hr hcode x hx hlt => ?_, ?_, hfork.pte2pa_stack,
    ⟨hf.spawned.stack.source, hf.spawned.ne, ?_⟩, hfree, htable, hkernel, fun v p => ?_,
    fun v hv e he => ?_, fun r hr => child_stack hk hf hfork hforks hr, ?_⟩
  · rw [hf.entry_eq hk hv] at he
    rcases child_cases hk hfork hforks he with hcode | hstack | rfl | rfl
    · exact .inl hcode
    · exact .inr (.inl hstack)
    · exact .inr (.inr ⟨framePte_user _, .inl htf⟩)
    · exact .inr (.inr ⟨trapPte_user _, .inr htrap⟩)
  · obtain ⟨hne, e, he, hcode⟩ := child_code hk hfork hforks hr hcode hx
    refine ⟨hne, e, ?_, hcode⟩
    rw [hf.entry_eq hk hlt, Nat.mul_div_cancel _ (by decide), he]
  · rw [hf.entry_eq hk (by decide), stack_div]
    exact (hforks.above hfork).mono _ _ hfork.stack
  · -- the trap section is in use, so it was not free
    rintro heq
    have hused := h.start.own.data _ _ h.start.trap
    rw [htrap] at hused
    exact (h.refines.data _ hused).1.taken (heq ▸ hf.spawned.stack.source)
  · refine child_all hf hfork hforks rfl rfl ?_
    rintro q ⟨v, hv, e, he, rfl⟩
    exact (hspace.inUse v hv e he).1
  · exact ⟨(hspace.inUse v hv e he).1,
      parent_page hk hf hfork hforks ⟨v, hv, e, he, rfl⟩ (pte2pa_mod e)⟩
  · rw [hrec]
    show ({ (childRecord k parent child' n).frame with a0 := 0 } : Trapframe) = _
    rw [childRecord_frame h.regions.1 h.regions.2.2]

/-- A program is built if `mapped_info` has room for its segments; and however it has run since, a
child has the same program exactly if the parent is plain. -/
theorem fork_reproduces_iff (f : HostFile) :
    (∀ k0 k p, k0.trapSecStart ≠ 0 → allocProcess k0 = .ok (p, k) → LoadsAll p f k →
      ((∃ k', elfLoad p f k = .ok (.ok, k')) ↔ RoomFor f)) ∧
    ∀ {parent child k0 k k' l garbage pid}, Loaded f parent k0 → k0.trapSecStart ≠ 0 →
      Reaches (UserStep parent) k0 k → k.phys.Pool l → firstFree k = some child →
      doFork parent garbage k = .ok (pid, k') → k'.oom = false →
      (Reproduced parent child l k k' ↔ Plain k parent) := by
  refine ⟨fun k0 k p htrap hnew hloads => loads_iff_room htrap hnew hloads, ?_⟩
  intro parent child k0 k k' l garbage pid hload htrap hsteps hl hchild hrun hoom
  obtain ⟨l1, P, h⟩ := Running.run (hload.running htrap) hsteps
  obtain rfl : l1 = l := h.refines.spaces.pool.list.unique hl.list
  obtain ⟨us, tf, hview⟩ := h.view hchild hrun hoom
  obtain ⟨us0, -, -, hstack⟩ := h.start.stack
  rw [← stack_div, ← h.refines.entry _ h.start.own.dir _ (by decide)] at hstack
  have hlast : ∃ r, lastStack (regionsOf k parent) = some r := by
    refine Option.ne_none_iff_exists'.mp fun hnone => ?_
    have hmem : (k.procs parent).regions 0 ∈ regionsOf k parent :=
      mem_regions (by have := h.regions.1; show 0 < _; omega)
    exact Paging.lastStack_none hnone _ hmem h.regions.2.1
  obtain ⟨r0, hlast⟩ := hlast
  exact ⟨hview.plain (h.heap.2.trans h.heap.1.symm) hstack,
    fun hplain => hview.reproduced hplain hstack hlast⟩

end

/-! ## Two programs -/

/-- The first process calls `fork`. The result says what `check` sees before and after. -/
def startFork (f : HostFile) (check : Pid → Machine → Machine → Bool) :
    ProcM (Bool × Nat × Option Pid × Bool × Bool) := do
  sStart f
  let k ← get
  let i ← currentProc
  let _ ← doFork i fun _ => 0
  let k' ← get
  pure (k.oom, k.trapSecStart, firstFree k, k'.oom, check i k k')

theorem startFork_run {check : Pid → Machine → Machine → Bool} (hsize : f.size < 2 ^ 64)
    (h : valueOf (startFork f check) largeMachine = some (false, kernBase, some 1, false, true)) :
    ∃ i k l pid k', Loaded f i k ∧ k.trapSecStart ≠ 0 ∧ k.phys.Pool l ∧ firstFree k = some 1 ∧
      doFork i (fun _ => 0) k = .ok (pid, k') ∧ k'.oom = false ∧ check i k k' = true := by
  obtain ⟨kend, h⟩ := ok_of_valueOf h
  obtain ⟨⟨⟩, k, hstart, h⟩ := Exec.bind_ok h
  rw [Exec.bind_of_ok (show (get : ProcM Machine) k = .ok (k, k) from rfl)] at h
  obtain ⟨i, k1, hcurrent, h⟩ := Exec.bind_ok h
  obtain ⟨pid, k', hfork, h⟩ := Exec.bind_ok h
  have hpair : ((k.oom, k.trapSecStart, firstFree k, k'.oom, check i k k'), k') =
    ((false, kernBase, some 1, false, true), kend) := Except.ok.inj h
  simp only [Prod.mk.injEq] at hpair
  obtain ⟨⟨hoom, htrap, hfirst, hoom', hcheck⟩, rfl⟩ := hpair
  have hspawn : CanSpawn largeMachine (Phys.pagesFrom (kernBase + pgSize) 60) :=
    smallMachine_canSpawn (by decide) (by decide)
  obtain ⟨j, hloaded⟩ := loaded_sStart hspawn rfl hsize hstart hoom
  rw [currentProc_run hloaded.current] at hcurrent
  obtain ⟨rfl, rfl⟩ : j = i ∧ k = k1 := by
    simpa only [Except.ok.injEq, Prod.mk.injEq] using hcurrent
  obtain ⟨l, P, hrefines, -⟩ := hloaded.hasStart
  exact ⟨j, k, l, pid, k', hloaded, by rw [htrap]; decide, hrefines.spaces.pool, hfirst, hfork, hoom',
    hcheck⟩

/-- A program with two pages of code, which are not next to each other. -/
def codeFile : HostFile := headerFile [codeAt 65536, codeAt 131072]

/-- The page `n` of process `i` is one that `do_fork` maps for a code region. -/
def codeShared (k : Machine) (i : Pid) (n : Nat) : Bool :=
  (entry k.phys.mem (k.procs i).pagetable (n * pgSize)).any fun e =>
    e &&& pteU != 0 && e &&& pteW == 0 && (regionsOf k i).any fun r =>
      r.segType == .code && decide (CodePage r.va n) && pte2pa e == codePa k i r n

theorem of_codeShared {n : Nat} (h : codeShared k i n = true) :
    ∃ e, UserPage k i (n * pgSize) e ∧ e &&& pteW = 0 ∧ ∃ r ∈ regionsOf k i, r.segType = .code ∧
      CodePage r.va n ∧ pte2pa e = codePa k i r n := by
  simp only [codeShared, Option.any_eq_true, Bool.and_eq_true, bne_iff_ne, beq_iff_eq,
    List.any_eq_true, decide_eq_true_eq] at h
  obtain ⟨e, he, ⟨hU, hW⟩, r, hr, ⟨htype, hpage⟩, hpa⟩ := h
  exact ⟨e, ⟨he, hU⟩, hW, r, hr, htype, hpage, hpa⟩

theorem codeFile_page {n : Nat} (h : ∃ ph ∈ loadable codeFile, InSegment ph n) : n = 16 ∨ n = 32 := by
  obtain ⟨ph, hph, hlo, hhi⟩ := h
  rw [show loadable codeFile = [codeAt 65536, codeAt 131072] by decide, List.mem_cons,
    List.mem_singleton] at hph
  rcases hph with rfl | rfl
  · rw [show segmentPages (codeAt 65536).vaddr (codeAt 65536).memsz = 1 by decide +kernel] at hhi
    rw [show (codeAt 65536).vaddr / pgSize = 16 from rfl] at hlo hhi
    omega
  · rw [show segmentPages (codeAt 131072).vaddr (codeAt 131072).memsz = 1 by decide +kernel] at hhi
    rw [show (codeAt 131072).vaddr / pgSize = 32 from rfl] at hlo hhi
    omega

theorem fork_reproduces_iff_code : ∃ f parent child k0 k l garbage pid k',
    (loadable f).length = 2 ∧ Loaded f parent k0 ∧
    k0.trapSecStart ≠ 0 ∧ Reaches (UserStep parent) k0 k ∧ k.phys.Pool l ∧ firstFree k = some child ∧
    doFork parent garbage k = .ok (pid, k') ∧ k'.oom = false ∧
    Reproduced parent child l k k' := by
  have hrun : valueOf (startFork codeFile fun i k _ => decide
      ((∀ r ∈ regionsOf k i, r.segType = .code → r.va = 65536 ∨ r.va = 131072) ∧
        (lastStack (regionsOf k i)).map (·.va) = some (userStackTop - pgSize) ∧
        codeShared k i 16 = true ∧ codeShared k i 32 = true)) largeMachine =
      some (false, kernBase, some 1, false, true) := by decide +kernel
  obtain ⟨i, k, l, pid, k', hloaded, htrap, hl, hfirst, hfork, hoom, hcheck⟩ :=
    startFork_run (by decide) hrun
  obtain ⟨hcode, hlast, h16, h32⟩ := of_decide_eq_true hcheck
  obtain ⟨l1, P, hrefines, hstart, hpages⟩ := hloaded.hasStart
  refine ⟨codeFile, i, 1, k, k, l, _, pid, k', by decide, hloaded, htrap, .refl, hl, hfirst, hfork,
    hoom, ((fork_reproduces_iff codeFile).2 hloaded htrap .refl hl hfirst hfork hoom).mpr
      ⟨?_, ?_, ?_⟩⟩
  · rintro v hv e ⟨he, hU⟩
    have hentry := hrefines.entry _ hstart.own.dir v hv
    refine (hpages _ e (hentry.symm.trans he) hU).imp_right fun hseg => ?_
    -- the entry of the page is that of its first address
    have hthis : ∀ {n}, v / pgSize = n → codeShared k i n = true → e &&& pteW = 0 ∧
        ∃ r ∈ regionsOf k i, r.segType = .code ∧ CodePage r.va (v / pgSize) ∧
          pte2pa e = codePa k i r (v / pgSize) := by
      rintro n rfl hshared
      obtain ⟨e', ⟨he', -⟩, hW, hr⟩ := of_codeShared hshared
      rw [hrefines.entry _ hstart.own.dir _ (Nat.lt_of_le_of_lt (Nat.div_mul_le_self ..) hv),
        Nat.mul_div_cancel _ (by decide), ← hentry, he] at he'
      obtain rfl := Option.some.inj he'
      exact ⟨hW, hr⟩
    rcases codeFile_page hseg with hn | hn
    · exact hthis hn h16
    · exact hthis hn h32
  · intro r hr htype x hx _
    have hfirst : x = 16 ∨ x = 32 := by
      rcases hcode r hr htype with hva | hva <;> rw [hva] at hx <;>
        simp only [CodePage, roundDown, pgSize] at hx <;> omega
    rcases hfirst with rfl | rfl
    · obtain ⟨e, he, -⟩ := of_codeShared h16
      exact ⟨e, he⟩
    · obtain ⟨e, he, -⟩ := of_codeShared h32
      exact ⟨e, he⟩
  · intro r hr e he j hj
    rw [hr] at hlast
    obtain ⟨us, -, -, hstack⟩ := hstart.stack
    rw [← stack_div, ← hrefines.entry _ hstart.own.dir _ (by decide)] at hstack
    cases he.symm.trans hstack
    have hlookup : Phys.lookup k.phys.mem (k.procs i).pagetable (userStackTop - pgSize) =
        pte2pa (stackPte us) := by
      rw [Phys.lookup, if_neg (by decide), hstack]
      exact if_neg fun h => (stackPte_rights us).2.1 h.1
    rw [show r.va = userStackTop - pgSize from Option.some.inj hlast, hlookup]

/-- A program with one page of data. -/
def dataFile : HostFile := headerFile [⟨elfProgLoad, 6, 0, 65536, 0, pgSize⟩]

/-- The data of a program is not in the child. -/
theorem fork_loses_data : ∃ f parent child k0 k l garbage pid k', Loaded f parent k0 ∧
    k0.trapSecStart ≠ 0 ∧ Reaches (UserStep parent) k0 k ∧ k.phys.Pool l ∧ firstFree k = some child ∧
    doFork parent garbage k = .ok (pid, k') ∧ k'.oom = false ∧
    ¬Reproduced parent child l k k' := by
  have hrun : valueOf (startFork dataFile fun i k k' => decide
      ((entry k.phys.mem (k.procs i).pagetable 65536).map (· &&& pteU) = some pteU ∧
        entry k'.phys.mem (k'.procs 1).pagetable 65536 = none)) largeMachine =
      some (false, kernBase, some 1, false, true) := by decide +kernel
  obtain ⟨i, k, l, pid, k', hloaded, htrap, hl, hfirst, hfork, hoom, hcheck⟩ :=
    startFork_run (by decide) hrun
  obtain ⟨hmapped, hnone⟩ := of_decide_eq_true hcheck
  obtain ⟨e, he, hU⟩ := Option.map_eq_some_iff.mp hmapped
  refine ⟨dataFile, i, 1, k, k, l, _, pid, k', hloaded, htrap, .refl, hl, hfirst, hfork, hoom,
    fun hrep => ?_⟩
  have hout : ¬((k.procs i).userHeap.heapBottom ≤ 65536 ∧ 65536 < (k.procs i).userHeap.heapTop) := by
    rw [hloaded.freshHeap.bottom, hloaded.freshHeap.top]
    decide
  obtain ⟨e', ⟨he', -⟩, -⟩ := hrep.pages 65536 (by decide) hout e ⟨he, by rw [hU]; decide⟩
  cases he'.symm.trans hnone

end Machine

end Pke
