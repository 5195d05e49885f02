import Pke.Fork
import Pke.UserHeap

/-!
# The heap of a child

`do_fork` turns the stack of free pages into an array of marks and copies
the pages of the heap that are not marked. `mem_copiedPages` says which
pages these are. The call of `memset` that clears the marks is given the
number of elements of the array and not its size, so from the ninth on the
marks are what was on the kernel stack.
-/

namespace Pke

/-! ## Programs on a heap -/

/-- A system call for the heap. -/
inductive HeapCall where
  | allocate
  | free (va : Nat)

variable {n m : Nat}

namespace HeapManager

/-- A page that has been given back. -/
def OnStack (h : HeapManager) (v : Nat) : Prop :=
  ∃ j : Fin 32, j.val < h.freePagesCount ∧ h.freePagesAddress j = v

instance (h : HeapManager) (v : Nat) : Decidable (h.OnStack v) :=
  inferInstanceAs (Decidable (∃ j : Fin 32, j.val < h.freePagesCount ∧ h.freePagesAddress j = v))

/-- The pages of the heap that a program has. -/
def usedPages (h : HeapManager) : Set Nat := {v | h.InHeap v ∧ ¬h.OnStack v}

/-- The page that the next allocation maps. -/
def next (h : HeapManager) : Nat :=
  if hc : 0 < h.freePagesCount ∧ h.freePagesCount - 1 < 32 then
    h.freePagesAddress ⟨h.freePagesCount - 1, hc.2⟩
  else h.heapTop

/-- The heap after the next allocation. -/
def allocate (h : HeapManager) : HeapManager :=
  if 0 < h.freePagesCount then { h with freePagesCount := h.freePagesCount - 1 }
  else { h with heapTop := h.heapTop + pgSize }

/-- The heap after the page `va` has been given back. -/
def free (h : HeapManager) (va : Nat) : HeapManager :=
  if hc : h.freePagesCount < 32 then
    { h with
      freePagesAddress := upd h.freePagesAddress ⟨h.freePagesCount, hc⟩ va
      freePagesCount := h.freePagesCount + 1 }
  else h

/-- Calls that a process with the pages `M` can make: the page that is to be mapped is not mapped
yet, what is freed is a page of the heap that is mapped, and the stack is not full. -/
def Legal (h : HeapManager) (M : Set Nat) : List HeapCall → Prop
  | [] => True
  | .allocate :: calls => h.next ∉ M ∧ h.allocate.Legal (insert h.next M) calls
  | .free va :: calls => h.InHeap va ∧ va ∈ M ∧ h.freePagesCount < maxHeapPages ∧
      (h.free va).Legal (M \ {va}) calls

/-- A page that an allocation of a process with the pages `M` can ask for without one being refused
before: a page on the stack, or one that the heap can grow to. -/
def CanTake (h : HeapManager) (M : Set Nat) (v : Nat) : Prop :=
  h.OnStack v ∨ ∃ x, v = h.heapTop + x * pgSize ∧ ∀ y ≤ x, h.heapTop + y * pgSize ∉ M

/-- A process with the pages `M'` can do what one with the pages `M` can. -/
structure Sim (h : HeapManager) (M M' : Set Nat) : Prop where
  count : h.freePagesCount ≤ 32
  le : h.heapBottom ≤ h.heapTop
  top : h.heapTop % pgSize = 0
  stack : ∀ v, h.OnStack v → h.InHeap v
  inside : ∀ v, h.InHeap v → (v ∈ M' ↔ v ∈ M)
  above : ∀ x, (∀ y ≤ x, h.heapTop + y * pgSize ∉ M) → h.heapTop + x * pgSize ∉ M'

variable {h : HeapManager} {M M' : Set Nat} {va : Nat}

theorem next_grow (hcount : h.freePagesCount = 0) : h.next = h.heapTop :=
  dif_neg fun hc => absurd hcount hc.1.ne'

theorem allocate_grow (hcount : h.freePagesCount = 0) :
    h.allocate = { h with heapTop := h.heapTop + pgSize } :=
  if_neg (by omega)

theorem next_pop (hcount : h.freePagesCount = n + 1) (hn : n < 32) :
    h.next = h.freePagesAddress ⟨n, hn⟩ := by
  have hlast : h.freePagesCount - 1 = n := by omega
  rw [next, dif_pos ⟨by omega, hlast.trans_lt hn⟩]
  exact congrArg h.freePagesAddress (Fin.ext hlast)

theorem next_onStack (hcount : h.freePagesCount = n + 1) (hn : n < 32) : h.OnStack h.next :=
  ⟨⟨n, hn⟩, by show n < h.freePagesCount; omega, (next_pop hcount hn).symm⟩

theorem allocate_pop (hcount : h.freePagesCount = n + 1) :
    h.allocate = { h with freePagesCount := n } := by
  rw [allocate, if_pos (by omega), hcount]
  rfl

theorem above_succ (top x : Nat) : top + pgSize + x * pgSize = top + (x + 1) * pgSize := by
  rw [Nat.succ_mul]
  omega

theorem InHeap.ne_above {v : Nat} (hv : h.InHeap v) (x : Nat) : h.heapTop + x * pgSize ≠ v := by
  have hlt := hv.2.2
  omega

/-- One allocation. -/
theorem Sim.allocate (hs : h.Sim M M') (hnext : h.next ∉ M) :
    h.next ∉ M' ∧ h.allocate.Sim (insert h.next M) (insert h.next M') := by
  obtain ⟨hcount, hle, htop, hstack, hinside, habove⟩ := hs
  cases hc : h.freePagesCount with
  | zero =>
      rw [next_grow hc] at hnext ⊢
      have hnext' : h.heapTop ∉ M' := by
        have hself := habove 0 fun y hy => by rwa [Nat.le_zero.mp hy, Nat.zero_mul]
        rwa [Nat.zero_mul] at hself
      rw [allocate_grow hc]
      refine ⟨hnext', ?_, hle.trans (Nat.le_add_right _ _), ?_, ?_, ?_, fun x hx => ?_⟩
      · exact hcount
      · show (h.heapTop + pgSize) % pgSize = 0
        rw [Nat.add_mod_right, htop]
      · rintro v ⟨j, hj, -⟩
        have hj : j.val < h.freePagesCount := hj
        omega
      · rintro v ⟨hpage, hlow, hhigh⟩
        have hhigh : v < h.heapTop + pgSize := hhigh
        by_cases hv : v = h.heapTop
        · simp [hv]
        · have hin : h.InHeap v := by
            refine ⟨hpage, hlow, ?_⟩
            unfold pgSize at *
            omega
          simp only [Set.mem_insert_iff, hv, false_or]
          exact hinside v hin
      · -- the page is one further from the old end
        show h.heapTop + pgSize + x * pgSize ∉ _
        have hold : h.heapTop + (x + 1) * pgSize ∉ M' := by
          refine habove (x + 1) fun y hy => ?_
          cases y with
          | zero => rwa [Nat.zero_mul]
          | succ y =>
              have hy' : h.heapTop + pgSize + y * pgSize ∉ insert h.heapTop M := hx y (by omega)
              rw [above_succ] at hy'
              exact fun hmem => hy' (.inr hmem)
        rw [above_succ]
        rintro (heq | hmem)
        · unfold pgSize at heq
          omega
        · exact hold hmem
  | succ n =>
      have hin := hstack _ (next_onStack hc (by omega))
      rw [allocate_pop hc]
      refine ⟨fun hmem => hnext ((hinside _ hin).mp hmem), ?_, hle, htop, ?_, ?_, fun x hx => ?_⟩
      · show n ≤ 32
        omega
      · rintro v ⟨j, hj, hv⟩
        have hj : j.val < n := hj
        exact hstack v ⟨j, by omega, hv⟩
      · intro v hv
        rw [Set.mem_insert_iff, Set.mem_insert_iff, hinside v hv]
      · rintro (heq | hmem)
        · exact hin.ne_above x heq
        · exact habove x (fun y hy hmem' => hx y hy (.inr hmem')) hmem

/-- A page is given back. -/
theorem Sim.free (hs : h.Sim M M') (hva : h.InHeap va) (hcount : h.freePagesCount < 32) :
    (h.free va).Sim (M \ {va}) ( M' \ {va}) := by
  obtain ⟨-, hle, htop, hstack, hinside, habove⟩ := hs
  rw [HeapManager.free, dif_pos hcount]
  refine ⟨hcount, hle, htop, ?_, ?_, fun x hx => ?_⟩
  · rintro v ⟨j, hj, hv⟩
    have hv : upd h.freePagesAddress ⟨h.freePagesCount, hcount⟩ va j = v := hv
    by_cases hlast : j = ⟨h.freePagesCount, hcount⟩
    · rw [hlast, upd_self] at hv
      exact hv ▸ hva
    · rw [upd_ne hlast] at hv
      have hj : j.val < h.freePagesCount + 1 := hj
      have hne : j.val ≠ h.freePagesCount := fun heq => hlast (Fin.ext heq)
      exact hstack v ⟨j, by omega, hv⟩
  · intro v hv
    rw [Set.mem_sdiff, Set.mem_sdiff, hinside v hv]
  · have hold := habove x fun y hy hmem => hx y hy ⟨hmem, hva.ne_above y⟩
    exact fun hmem => hold hmem.1

theorem Legal.sim {calls : List HeapCall} (hs : h.Sim M M') (hl : h.Legal M calls) :
    h.Legal M' calls := by
  induction calls generalizing h M M' with
  | nil => trivial
  | cons call calls ih =>
      cases call with
      | allocate =>
          obtain ⟨hnext, hrest⟩ := hl
          obtain ⟨hnext', hs'⟩ := hs.allocate hnext
          exact ⟨hnext', ih hs' hrest⟩
      | free va =>
          obtain ⟨hin, hmem, hcount, hrest⟩ := hl
          exact ⟨hin, (hs.inside va hin).mpr hmem, hcount, ih (hs.free hin hcount) hrest⟩

/-- A row of allocations that takes the pages on the stack and the next `m` after the heap. -/
theorem Legal.above (hn : n = h.freePagesCount + m) (hl : h.Legal M (List.replicate n .allocate)) :
    ∀ x < m, h.heapTop + x * pgSize ∉ M := by
  induction n generalizing h M m with
  | zero => exact fun x hx => by omega
  | succ n ih =>
      obtain ⟨hnext, hrest⟩ := hl
      cases hc : h.freePagesCount with
      | zero =>
          rw [allocate_grow hc] at hrest
          rw [next_grow hc] at hnext hrest
          intro x hx
          cases x with
          | zero => rwa [Nat.zero_mul]
          | succ x =>
              have hx' := ih (m := m - 1) (h := { h with heapTop := h.heapTop + pgSize })
                (by show n = h.freePagesCount + _; omega) hrest x (by omega)
              rw [← above_succ]
              exact fun hmem => hx' (.inr hmem)
      | succ c =>
          rw [allocate_pop hc] at hrest
          intro x hx hmem
          exact ih (m := m) (h := { h with freePagesCount := c }) (by show n = c + m; omega) hrest x hx
            (.inr hmem)

theorem legal_allocations (hn : n = h.freePagesCount + m) {A : Set Nat} (ht : h.Tracks A)
    (hfree : ∀ v, h.OnStack v → v ∉ M) (habove : ∀ x < m, h.heapTop + x * pgSize ∉ M) :
    h.Legal M (List.replicate n .allocate) := by
  induction n generalizing h M m A with
  | zero => trivial
  | succ n ih =>
      cases hc : h.freePagesCount with
      | zero =>
          refine ⟨?_, ?_⟩
          · rw [next_grow hc]
            have hself := habove 0 (by omega)
            rwa [Nat.zero_mul] at hself
          · rw [next_grow hc, allocate_grow hc]
            refine ih (m := m - 1) (by show n = h.freePagesCount + _; omega) (ht.grow hc) ?_ ?_
            · rintro v ⟨j, hj, -⟩
              have hj : j.val < h.freePagesCount := hj
              omega
            · intro x hx
              show h.heapTop + pgSize + x * pgSize ∉ _
              rw [above_succ]
              rintro (heq | hmem)
              · unfold pgSize at heq
                omega
              · exact habove (x + 1) (by omega) hmem
      | succ c =>
          have hcount := ht.count
          have hstack := next_onStack hc (by omega)
          refine ⟨hfree _ hstack, ?_⟩
          have hpop : Tracks { h with freePagesCount := c }
              (insert (h.freePagesAddress ⟨c, by omega⟩) A) := ht.pop hc
          rw [allocate_pop hc]
          refine ih (m := m) (by show n = c + m; omega) hpop ?_ ?_
          · rintro v ⟨j, hj, hv⟩ (heq | hmem)
            · have hj : j.val < c := hj
              have heq' : h.freePagesAddress j = h.freePagesAddress ⟨c, by omega⟩ :=
                hv.trans (heq.trans (next_pop hc (by omega)))
              have hjc := congrArg Fin.val (ht.inj _ _ (by omega) (by show c < _; omega) heq')
              have hjc : j.val = c := hjc
              omega
            · have hj : j.val < c := hj
              exact hfree v ⟨j, by omega, hv⟩ hmem
          · rintro x hx (heq | hmem)
            · obtain ⟨j, hj, hv⟩ := hstack
              exact (ht.free j hj).1.ne_above x (heq.trans hv.symm)
            · exact habove x hx hmem

end HeapManager

namespace Machine

open Exec (Post get modify)
open Paging (Forkable Forks)

variable {heap : HeapManager} {A : Set Nat} {garbage filter : Fin 32 → Int} {v : Nat}

/-! ## The pages that are copied -/

/-- Page `x` of the heap. -/
def heapAddr (heap : HeapManager) (x : Nat) : Nat := heap.heapBottom + x * pgSize

theorem mem_copiedFrom (hbottom : heap.heapBottom % pgSize = 0)
    (htop : heap.heapTop ≤ heapAddr heap 32) :
    ∀ {fuel i : Nat}, n ∈ copiedFrom heap.heapBottom heap.heapTop filter fuel (heapAddr heap i) ↔
      ∃ x : Fin 32, i ≤ x ∧ x < i + fuel ∧ heapAddr heap x < heap.heapTop ∧ filter x = 0 ∧
        n = heapAddr heap x / pgSize := by
  intro fuel
  induction fuel with
  | zero =>
      intro i
      simp only [copiedFrom, List.not_mem_nil, false_iff]
      rintro ⟨x, hle, hlt, -⟩
      omega
  | succ fuel ih =>
      intro i
      have hnext : heapAddr heap i + pgSize = heapAddr heap (i + 1) := by
        unfold heapAddr
        rw [Nat.succ_mul]
        omega
      rw [copiedFrom]
      by_cases hlt : heapAddr heap i < heap.heapTop
      · have hindex : sub64 (heapAddr heap i) heap.heapBottom / pgSize = i := by
          unfold sub64 heapAddr pgSize at *
          omega
        have hi : i < 32 := by
          unfold heapAddr pgSize at *
          omega
        have hx : sub64 (heapAddr heap i) heap.heapBottom / pgSize < 32 := hindex.trans_lt hi
        have hself : (⟨_, hx⟩ : Fin 32) = ⟨i, hi⟩ := Fin.ext hindex
        rw [if_pos hlt, dif_pos hx, hself, hnext]
        by_cases hzero : filter ⟨i, hi⟩ = 0
        · rw [if_neg (not_not.mpr hzero), List.mem_cons, ih]
          constructor
          · rintro (rfl | ⟨x, hle, hlt', hrest⟩)
            · exact ⟨⟨i, hi⟩, le_rfl, Nat.lt_add_of_pos_right (Nat.succ_pos _), hlt, hzero, rfl⟩
            · exact ⟨x, by omega, by omega, hrest⟩
          · rintro ⟨x, hle, hlt', hbelow, hfilter, rfl⟩
            by_cases hxi : x.val = i
            · exact .inl (by rw [hxi])
            · exact .inr ⟨x, by omega, by omega, hbelow, hfilter, rfl⟩
        · rw [if_pos hzero, ih]
          constructor
          · rintro ⟨x, hle, hlt', hrest⟩
            exact ⟨x, by omega, by omega, hrest⟩
          · rintro ⟨x, hle, hlt', hbelow, hfilter, rfl⟩
            have hxi : x.val ≠ i := by
              rintro rfl
              exact hzero hfilter
            exact ⟨x, by omega, by omega, hbelow, hfilter, rfl⟩
      · rw [if_neg hlt]
        simp only [List.not_mem_nil, false_iff]
        rintro ⟨x, hle, -, hbelow, -⟩
        unfold heapAddr pgSize at *
        omega

/-- The marks of a heap whose free pages are pages of it. -/
theorem mark_eq_zero (h : heap.Tracks A) (htop : heap.heapTop ≤ heapAddr heap 32) (x : Fin 32) :
    markFrom heap 0 heap.freePagesCount (clearedFilter garbage) x = 0 ↔
      ¬heap.OnStack (heapAddr heap x) ∧ (8 ≤ x.val → garbage x = 0) := by
  have hindex : ∀ j : Fin 32, j.val < heap.freePagesCount →
      (sub64 (heap.freePagesAddress j) heap.heapBottom / pgSize = x ↔
        heap.freePagesAddress j = heapAddr heap x) := by
    intro j hj
    obtain ⟨⟨hpage, hle, hlt⟩, -⟩ := h.free j hj
    have hbottom := h.bottom
    unfold sub64 heapAddr pgSize at *
    omega
  unfold markFrom clearedFilter
  by_cases hfree : heap.OnStack (heapAddr heap x)
  · obtain ⟨j, hj, heq⟩ := id hfree
    rw [if_pos ⟨j, Nat.zero_le _, by omega, (hindex j hj).mpr heq⟩]
    simp only [one_ne_zero, hfree, not_true_eq_false, false_and]
  · rw [if_neg]
    · rw [ite_eq_left_iff, Fin.lt_def, not_lt]
      exact ⟨fun hclear => ⟨hfree, hclear⟩, fun hclear => hclear.2⟩
    · rintro ⟨j, -, hj, heq⟩
      exact hfree ⟨j, by omega, (hindex j (by omega)).mp heq⟩

/-- The pages of the heap that `do_fork` copies. -/
theorem mem_copiedPages (h : heap.Tracks A) (htop : heap.heapTop ≤ heapAddr heap 32) :
    n ∈ copiedPages heap garbage ↔ ∃ x : Fin 32, heapAddr heap x < heap.heapTop ∧
      ¬heap.OnStack (heapAddr heap x) ∧ (8 ≤ x.val → garbage x = 0) ∧ n = heapAddr heap x / pgSize := by
  have hstart : heapAddr heap 0 = heap.heapBottom := by
    unfold heapAddr
    omega
  have hpages : copiedPages heap garbage = copiedFrom heap.heapBottom heap.heapTop
      (markFrom heap 0 heap.freePagesCount (clearedFilter garbage))
      ((heap.heapTop - heap.heapBottom) / pgSize + 1) (heapAddr heap 0) := by
    rw [hstart, copiedPages]
  rw [hpages, mem_copiedFrom h.bottom htop]
  constructor
  · rintro ⟨x, -, -, hlt, hzero, hn⟩
    obtain ⟨hno, hclear⟩ := (mark_eq_zero h htop x).mp hzero
    exact ⟨x, hlt, hno, hclear, hn⟩
  · rintro ⟨x, hlt, hno, hclear, hn⟩
    refine ⟨x, Nat.zero_le _, ?_, hlt, (mark_eq_zero h htop x).mpr ⟨hno, hclear⟩, hn⟩
    unfold heapAddr pgSize at *
    omega

/-- A page of the heap has a number. -/
theorem exists_heapAddr (h : heap.Tracks A) (htop : heap.heapTop ≤ heapAddr heap 32)
    (hv : heap.InHeap v) : ∃ x : Fin 32, v = heapAddr heap x := by
  obtain ⟨hpage, hle, hlt⟩ := hv
  have hbottom := h.bottom
  refine ⟨⟨(v - heap.heapBottom) / pgSize, ?_⟩, ?_⟩
  · unfold heapAddr pgSize at *
    omega
  · unfold heapAddr pgSize at *
    show v = heap.heapBottom + (v - heap.heapBottom) / 4096 * 4096
    omega

/-! ## The heap of the child -/

/-- A process whose heap has at most `MAX_HEAP_PAGES` pages, of which those on the stack are not
mapped, and the others are. -/
structure HeapParent (parent : Pid) (k : Machine) (l : List Nat) : Prop extends
    ForkSpace parent k l where
  kernel : kernBase ≤ k.phys.freeMemStart ∧ kernBase ≤ k.trapSecStart
  stack : entry k.phys.mem (k.procs parent).pagetable (userStackTop - pgSize) ≠ none
  region : 3 < (k.procs parent).totalMappedRegion ∧ ((k.procs parent).regions 3).segType = .heap
  bottom : (k.procs parent).userHeap.heapBottom = userFreeAddressStart
  top : (k.procs parent).userHeap.heapTop ≤ heapAddr (k.procs parent).userHeap maxHeapPages
  tracks : (k.procs parent).userHeap.Tracks (k.procs parent).userHeap.usedPages
  used : ∀ v ∈ (k.procs parent).userHeap.usedPages,
    Phys.lookup k.phys.mem (k.procs parent).pagetable v ≠ 0
  free : ∀ v, (k.procs parent).userHeap.OnStack v →
    entry k.phys.mem (k.procs parent).pagetable v = none

/-- The virtual pages that process `i` has. -/
def mappedPages (k : Machine) (i : Pid) : Set Nat :=
  {v | entry k.phys.mem (k.procs i).pagetable v ≠ none}

theorem mem_mappedPages {k : Machine} {i : Pid} {e : Nat}
    (h : entry k.phys.mem (k.procs i).pagetable v = some e) : v ∈ mappedPages k i := by
  show entry _ _ _ ≠ none
  rw [h]
  exact Option.some_ne_none e

/-- The child has the heap of the parent, on pages that were free. -/
structure HeapForked (parent child : Pid) (l : List Nat) (k k' : Machine) : Prop where
  copied : ∀ v ∈ (k.procs parent).userHeap.usedPages,
    ∃ e e', entry k.phys.mem (k.procs parent).pagetable v = some e ∧
      entry k'.phys.mem (k'.procs child).pagetable v = some e' ∧
      pteFlags e' = protToType protRW true ||| pteV ∧ pte2pa e' ∈ l ∧ pte2pa e' ≠ pte2pa e ∧
      ∀ i < pgSize, k'.phys.mem (pte2pa e' + i) = k.phys.mem (pte2pa e + i)
  apart : ∀ v ∈ (k.procs parent).userHeap.usedPages, ∀ v' ∈ (k.procs parent).userHeap.usedPages,
    v ≠ v' → ∀ e e', entry k'.phys.mem (k'.procs child).pagetable v = some e →
      entry k'.phys.mem (k'.procs child).pagetable v' = some e' → pte2pa e ≠ pte2pa e'
  free : ∀ v, (k.procs parent).userHeap.OnStack v →
    entry k'.phys.mem (k'.procs child).pagetable v = none
  heap : (k'.procs child).userHeap = (k.procs parent).userHeap
  legal : ∀ calls, (k.procs parent).userHeap.Legal (mappedPages k parent) calls →
    (k'.procs child).userHeap.Legal (mappedPages k' child) calls

/-- The marks that are not cleared are `0` where they are read for a page that is not free. -/
def StackClear (heap : HeapManager) (garbage : Fin 32 → Int) : Prop :=
  ∀ x : Fin 32, 8 ≤ x.val → heapAddr heap x ∈ heap.usedPages → garbage x = 0

/-- No page is mapped for a code region that a later allocation can ask for. -/
def CodeClear (k : Machine) (i : Pid) : Prop :=
  ∀ r ∈ regionsFrom (k.procs i).regions (k.procs i).totalMappedRegion 0, r.segType = .code →
    ∀ n, CodePage r.va n → ¬(k.procs i).userHeap.CanTake (mappedPages k i) (n * pgSize)

section

variable {parent child : Pid} {k k' : Machine} {l : List Nat} {P P' : Paging} {n : NewPages} {x : Nat}

theorem HeapParent.canFork (h : HeapParent parent k l) :
    CanFork parent k l (Phys.tablePaging k.phys l (k.procs parent).pagetable) :=
  h.toForkSpace.canFork h.tracks.bottom

/-- A page below the stack of a new process that is not mapped for a region. -/
theorem Forked.entry_none (h : Forked parent child garbage k k' P P' n)
    (hsource : ∀ q ∈ P.source, kernBase ≤ q) (htrap : kernBase ≤ k.trapSecStart)
    (hx : x < stackPage) (hheap : x ∉ copiedPages (k.procs parent).userHeap garbage)
    (hcode : ∀ r ∈ regionsFrom (k.procs parent).regions (k.procs parent).totalMappedRegion 0,
      r.segType = .code → ¬CodePage r.va x) : P'.entries n.dir x = none := by
  obtain ⟨stack, frame, hforks⟩ := h.forks
  have hframe := hsource _ h.spawned.frame.source
  rw [hforks.entry_eq hheap hcode, Paging.spawn_entries, if_neg, if_neg, if_neg hx.ne]
  all_goals
    rintro rfl
    unfold stackPage kernBase pgSize userStackTop at *
    omega

section

variable (h : Forked parent child garbage k k' P P' n) (hk : CanFork parent k l P)
  (hregion : 3 < (k.procs parent).totalMappedRegion ∧ ((k.procs parent).regions 3).segType = .heap)

include h hk hregion

/-- A page of the heap that is copied. -/
theorem Forked.copied (hv : v % pgSize = 0)
    (hcopied : v / pgSize ∈ copiedPages (k.procs parent).userHeap garbage) :
    ∃ p ∈ P.source, p ∉ P.data ∧ p % pgSize = 0 ∧ p < 2 ^ 64 ∧
      P'.entries n.dir (v / pgSize) = some (stackPte p) ∧
      Phys.lookup k.phys.mem (k.procs parent).pagetable v ≠ 0 ∧
      ∀ i < pgSize, k'.phys.mem (p + i) =
        k.phys.mem (Phys.lookup k.phys.mem (k.procs parent).pagetable v + i) := by
  obtain ⟨stack, frame, hfork, hforks⟩ := h.filled hk
  obtain ⟨l', hrefines⟩ := h.refines
  obtain ⟨p, hp⟩ := hforks.copied hfork (mem_regions hregion.1) hregion.2 hcopied
  have hpage : v / pgSize * pgSize = v := Nat.div_mul_cancel (Nat.dvd_of_mod_eq_zero hv)
  obtain ⟨hentry, hp0, hp64, hnew, hsource, hmem, hsrc, hbytes⟩ := hp
  rw [hpage, Paging.spawn_lookup hfork.ne] at hsrc hbytes
  rw [hk.refines.lookup_eq hk.dir]
  obtain ⟨-, e, he, hpa⟩ := Paging.exists_of_lookup rfl hsrc
  have hold : pte2pa e ∈ P.data := hk.data _ e he
  have hold0 : pte2pa e % pgSize = 0 := pte2pa_mod e
  refine ⟨p, hsource, fun hin => hnew (.inr (.inr hin)), hp0, hp64, hentry, hsrc, fun i hi => ?_⟩
  rw [(hrefines.data p hmem).2 i hi, hbytes i hi, hpa,
    Paging.spawn_bytes h.spawned hold hold0 i hi, (hk.refines.data _ hold).2 i hi]

/-- Two pages of the heap are copied to different pages. -/
theorem Forked.apart {e e' : Nat} (hm : m ∈ copiedPages (k.procs parent).userHeap garbage)
    (hx : x ∈ copiedPages (k.procs parent).userHeap garbage) (hne : m ≠ x)
    (he : P'.entries n.dir m = some e) (he' : P'.entries n.dir x = some e') :
    pte2pa e ≠ pte2pa e' := by
  obtain ⟨stack, frame, hfork, hforks⟩ := h.filled hk
  obtain ⟨p, q, hp, hq, hpq⟩ := hforks.apart hfork (mem_regions hregion.1) hregion.2 hm hx hne
  cases he.symm.trans hp.entry
  cases he'.symm.trans hq.entry
  rwa [stackPte, stackPte, Phys.pte2pa_leafPte (by decide) hp.page hp.lt,
    Phys.pte2pa_leafPte (by decide) hq.page hq.lt]

end

theorem below_stack (h : v / pgSize < stackPage) : v < maxVA := by
  unfold stackPage userStackTop pgSize at h
  unfold maxVA
  omega

/-- A page of the heap is below the stack. -/
theorem HeapParent.below (h : HeapParent parent k l) (hv : (k.procs parent).userHeap.InHeap v) :
    v < maxVA ∧ v / pgSize < stackPage ∧ ∃ x : Fin 32, v = heapAddr (k.procs parent).userHeap x := by
  have hbottom := h.bottom
  have htop := h.top
  have hlt := hv.2.2
  have hlow : v / pgSize < stackPage := by
    unfold stackPage userStackTop userFreeAddressStart heapAddr maxHeapPages pgSize at *
    omega
  exact ⟨below_stack hlow, hlow, exists_heapAddr h.tracks h.top hv⟩

/-- The heap cannot grow beyond the stack. -/
theorem HeapParent.grow_below (h : HeapParent parent k l)
    (hx : ∀ y ≤ x, (k.procs parent).userHeap.heapTop + y * pgSize ∉ mappedPages k parent) :
    ((k.procs parent).userHeap.heapTop + x * pgSize) / pgSize < stackPage := by
  have hbottom := h.bottom
  have htop := h.top
  have htop0 := h.tracks.top
  by_contra hge
  refine hx ((userStackTop - pgSize - (k.procs parent).userHeap.heapTop) / pgSize) ?_ ?_
  · unfold stackPage userStackTop userFreeAddressStart heapAddr maxHeapPages pgSize at *
    omega
  · have hplace : (k.procs parent).userHeap.heapTop +
        (userStackTop - pgSize - (k.procs parent).userHeap.heapTop) / pgSize * pgSize =
          userStackTop - pgSize := by
      unfold stackPage userStackTop userFreeAddressStart heapAddr maxHeapPages pgSize at *
      omega
    rw [hplace]
    exact h.stack

theorem HeapParent.copied_iff (h : HeapParent parent k l)
    (hv : v ∈ (k.procs parent).userHeap.usedPages) {x : Fin 32}
    (hx : v = heapAddr (k.procs parent).userHeap x) :
    v / pgSize ∈ copiedPages (k.procs parent).userHeap garbage ↔ (8 ≤ x.val → garbage x = 0) := by
  rw [mem_copiedPages h.tracks h.top]
  constructor
  · rintro ⟨x', -, -, hclear, heq⟩
    have hsame : x' = x := by
      have hbottom := h.tracks.bottom
      refine Fin.ext ?_
      rw [hx] at heq
      unfold heapAddr pgSize at *
      omega
    exact hsame ▸ hclear
  · intro hclear
    exact ⟨x, hx ▸ hv.1.2.2, hx ▸ hv.2, hclear, by rw [hx]⟩

/-- Only pages in use are copied. -/
theorem HeapParent.used_of_copied (h : HeapParent parent k l) (hv : v % pgSize = 0)
    (hcopied : v / pgSize ∈ copiedPages (k.procs parent).userHeap garbage) :
    v ∈ (k.procs parent).userHeap.usedPages := by
  obtain ⟨x, hlt, hno, -, heq⟩ := (mem_copiedPages h.tracks h.top).mp hcopied
  have hbottom := h.tracks.bottom
  have hself : v = heapAddr (k.procs parent).userHeap x := by
    unfold heapAddr pgSize at *
    omega
  rw [hself] at hv ⊢
  exact ⟨⟨hv, Nat.le_add_right _ _, hlt⟩, hno⟩

/-- A page for a code region. -/
theorem Forked.code (h : Forked parent child garbage k k' P P' n) (hk : CanFork parent k l P)
    {r : MappedRegion}
    (hr : r ∈ regionsFrom (k.procs parent).regions (k.procs parent).totalMappedRegion 0)
    (hcode : r.segType = .code) (hx : CodePage r.va x) :
    ∃ e, P'.entries n.dir x = some e ∧ pteFlags e = protToType protRX true ||| pteV := by
  obtain ⟨stack, frame, hfork, hforks⟩ := h.filled hk
  exact ⟨_, (hforks.code hfork hr hcode hx).2.2, Phys.pteFlags_leafPte (by decide)⟩

variable (h : HeapParent parent k l) (hf : Forked parent child garbage k k'
  (Phys.tablePaging k.phys l (k.procs parent).pagetable) P' n)

include h hf

/-- A page below the stack that is not copied and not for a code region is not mapped. -/
theorem HeapParent.entry_none (hv : v / pgSize < stackPage)
    (hcopied : v / pgSize ∉ copiedPages (k.procs parent).userHeap garbage)
    (hcode : ∀ r ∈ regionsFrom (k.procs parent).regions (k.procs parent).totalMappedRegion 0,
      r.segType = .code → ¬CodePage r.va (v / pgSize)) :
    entry k'.phys.mem (k'.procs child).pagetable v = none := by
  have hsource : ∀ q ∈ l, kernBase ≤ q := fun q hq =>
    h.kernel.1.trans (h.space.pool.page q hq).2.1
  rw [hf.entry_eq h.canFork (below_stack hv)]
  exact hf.entry_none hsource h.kernel.2 hv hcopied hcode

/-- A page that a later allocation can ask for is not mapped. -/
theorem HeapParent.canTake_none (hclear : CodeClear k parent)
    (hv : (k.procs parent).userHeap.CanTake (mappedPages k parent) v) :
    entry k'.phys.mem (k'.procs child).pagetable v = none := by
  have hpage : v % pgSize = 0 ∧ v / pgSize < stackPage ∧ v ∉ (k.procs parent).userHeap.usedPages := by
    rcases id hv with ⟨j, hj, rfl⟩ | ⟨x, rfl, hx⟩
    · have hin := (h.tracks.free j hj).1
      exact ⟨hin.1, (h.below hin).2.1, (h.tracks.free j hj).2⟩
    · refine ⟨?_, h.grow_below hx, fun hused => hused.1.ne_above x rfl⟩
      rw [Nat.add_mul_mod_self_right, h.tracks.top]
  obtain ⟨h0, hlow, hunused⟩ := hpage
  refine h.entry_none hf hlow (fun hmem => hunused (h.used_of_copied h0 hmem)) fun r hr hcode hx => ?_
  refine hclear r hr hcode _ hx ?_
  rwa [Nat.div_mul_cancel (Nat.dvd_of_mod_eq_zero h0)]

/-- The child of a process for which the marks and the code regions are as they should be. -/
theorem HeapParent.forked (hstack : StackClear (k.procs parent).userHeap garbage)
    (hclear : CodeClear k parent) : HeapForked parent child l k k' := by
  have hk := h.canFork
  obtain ⟨st, next, hrec⟩ := hf.record
  have hheap : (k'.procs child).userHeap = (k.procs parent).userHeap := by
    rw [hrec]
    exact childRecord_userHeap h.region.1 h.region.2
  have hcopied : ∀ v ∈ (k.procs parent).userHeap.usedPages,
      v / pgSize ∈ copiedPages (k.procs parent).userHeap garbage := by
    intro v hv
    obtain ⟨x, hx⟩ := (h.below hv.1).2.2
    exact (h.copied_iff hv hx).mpr fun h8 => hstack x h8 (hx ▸ hv)
  have hfresh : ∀ v, (k.procs parent).userHeap.OnStack v →
      entry k'.phys.mem (k'.procs child).pagetable v = none :=
    fun v hv => h.canTake_none hf hclear (.inl hv)
  have hused : ∀ v ∈ (k.procs parent).userHeap.usedPages,
      ∃ e e', entry k.phys.mem (k.procs parent).pagetable v = some e ∧
        entry k'.phys.mem (k'.procs child).pagetable v = some e' ∧
        pteFlags e' = protToType protRW true ||| pteV ∧ pte2pa e' ∈ l ∧ pte2pa e' ≠ pte2pa e ∧
        ∀ i < pgSize, k'.phys.mem (pte2pa e' + i) = k.phys.mem (pte2pa e + i) := by
    intro v hv
    obtain ⟨hlt, -, -⟩ := h.below hv.1
    obtain ⟨p, hsource, hnew, hp0, hp64, hentry, hsrc, hbytes⟩ :=
      hf.copied hk h.region hv.1.1 (hcopied v hv)
    have hpa : pte2pa (stackPte p) = p := Phys.pte2pa_leafPte (by decide) hp0 hp64
    rw [hk.refines.lookup_eq hk.dir] at hsrc hbytes
    obtain ⟨-, e, he, hsrcPa⟩ := Paging.exists_of_lookup rfl hsrc
    rw [← hk.refines.entry _ hk.dir v hlt] at he
    refine ⟨e, stackPte p, he, ?_, Phys.pteFlags_leafPte (by decide), ?_, ?_, ?_⟩
    · rw [hf.entry_eq hk hlt, hentry]
    · exact hpa.symm ▸ hsource
    · rw [hpa]
      rintro rfl
      exact (h.inUse v hlt e he).1 hsource
    · rwa [hpa, ← hsrcPa]
  refine ⟨hused, ?_, hfresh, hheap, fun calls hlegal => ?_⟩
  · intro v hv v' hv' hne e e' he he'
    rw [hf.entry_eq hk (h.below hv.1).1] at he
    rw [hf.entry_eq hk (h.below hv'.1).1] at he'
    exact hf.apart hk h.region (hcopied v hv) (hcopied v' hv')
      (fun heq => hne (page_eq_of_div hv.1.1 hv'.1.1 heq)) he he'
  · rw [hheap]
    refine hlegal.sim ⟨h.tracks.count, h.tracks.le, h.tracks.top, ?_, ?_, ?_⟩
    · rintro v ⟨j, hj, rfl⟩
      exact (h.tracks.free j hj).1
    · intro v hv
      by_cases hon : (k.procs parent).userHeap.OnStack v
      · exact iff_of_false (not_not.mpr (hfresh v hon)) (not_not.mpr (h.free v hon))
      · obtain ⟨e, e', he, he', -⟩ := hused v ⟨hv, hon⟩
        exact iff_of_true (mem_mappedPages he') (mem_mappedPages he)
    · intro x hx
      exact not_not.mpr (h.canTake_none hf hclear (.inr ⟨x, rfl, hx⟩))

/-- Otherwise the child does not have the heap. -/
theorem HeapParent.clear (hforked : HeapForked parent child l k k') :
    StackClear (k.procs parent).userHeap garbage ∧ CodeClear k parent := by
  have hk := h.canFork
  constructor
  · intro x h8 hused
    by_contra hmark
    obtain ⟨hlt, hlow, -⟩ := h.below hused.1
    obtain ⟨e, e', -, he', hflags, -⟩ := hforked.copied _ hused
    have hnot : heapAddr (k.procs parent).userHeap x / pgSize ∉
        copiedPages (k.procs parent).userHeap garbage :=
      fun hmem => hmark ((h.copied_iff hused rfl).mp hmem h8)
    -- what is not copied can only be mapped for a code region, and then without write permission
    have hnone := h.entry_none hf hlow hnot fun r hr hcode hx => by
      obtain ⟨f, hentry, hflags'⟩ := hf.code hk hr hcode hx
      rw [hf.entry_eq hk hlt, hentry] at he'
      cases he'
      rw [hflags] at hflags'
      exact absurd hflags' (by decide)
    cases he'.symm.trans hnone
  · intro r hr hcode x hx htake
    obtain ⟨f, hentry, -⟩ := hf.code hk hr hcode hx
    have hmapped : x * pgSize < maxVA →
        entry k'.phys.mem (k'.procs child).pagetable (x * pgSize) = some f := by
      intro hlt
      rw [hf.entry_eq hk hlt, Nat.mul_div_cancel _ (by decide), hentry]
    rcases htake with hon | ⟨y, hy, hgrow⟩
    · obtain ⟨j, hj, heq⟩ := id hon
      have hlt := (h.below (h.tracks.free j hj).1).1
      cases (hmapped (heq ▸ hlt)).symm.trans (hforked.free _ hon)
    · have hlt := below_stack (h.grow_below hgrow)
      have hlegal : (k.procs parent).userHeap.Legal (mappedPages k parent)
          (List.replicate ((k.procs parent).userHeap.freePagesCount + (y + 1)) .allocate) :=
        HeapManager.legal_allocations rfl h.tracks (fun v hv => not_not.mpr (h.free v hv))
          fun z hz => hgrow z (by omega)
      have hlegal' := hforked.legal _ hlegal
      rw [hforked.heap] at hlegal'
      have hnone := hlegal'.above rfl y (by omega)
      rw [← hy] at hlt hnone
      exact hnone (mem_mappedPages (hmapped hlt))

omit h hf

end

/-! ## Two programs -/

/-- What has to be looked up to see that process `i` is a `HeapParent`. -/
def ForkReady (i : Pid) (k : Machine) : Prop :=
  (k.procs i).status ≠ .free ∧ (k.trapSecStart % pgSize = 0 ∧ k.trapSecStart < 2 ^ 64) ∧
    (kernBase ≤ k.phys.freeMemStart ∧ kernBase ≤ k.trapSecStart) ∧
    entry k.phys.mem (k.procs i).pagetable (userStackTop - pgSize) ≠ none ∧
    (3 < (k.procs i).totalMappedRegion ∧ ((k.procs i).regions 3).segType = .heap) ∧
    (k.procs i).userHeap.heapBottom = userFreeAddressStart ∧
    (k.procs i).userHeap.heapTop ≤ heapAddr (k.procs i).userHeap maxHeapPages ∧
    ∀ x : Fin 32, entry k.phys.mem (k.procs i).pagetable (heapAddr (k.procs i).userHeap x) ≠ none →
      Phys.lookup k.phys.mem (k.procs i).pagetable (heapAddr (k.procs i).userHeap x) ≠ 0

instance (i : Pid) (k : Machine) : Decidable (ForkReady i k) := by
  unfold ForkReady
  infer_instance

theorem HeapInv.heapParent {i : Pid} {k : Machine} {l : List Nat} {P : Paging}
    (h : HeapInv i k A l P) (hown : P.Own (k.procs i).pagetable) (hready : ForkReady i k) :
    HeapParent i k l := by
  obtain ⟨hstatus, htrap, hkernel, hstack, hregion, hbottom, htop, hlookup⟩ := hready
  have hused : (k.procs i).userHeap.usedPages = A := by
    ext v
    constructor
    · rintro ⟨hin, hno⟩
      exact (h.tracks.all v hin).resolve_right hno
    · intro hv
      refine ⟨h.tracks.used v hv, ?_⟩
      rintro ⟨j, hj, rfl⟩
      exact (h.tracks.free j hj).2 hv
  refine ⟨.of_own h.current hstatus h.refines hown htrap, hkernel, hstack, hregion, hbottom, htop,
    hused ▸ h.tracks, fun v hv => ?_, ?_⟩
  · obtain ⟨x, rfl⟩ := exists_heapAddr h.tracks htop hv.1
    obtain ⟨-, e, he⟩ := (h.exact _).mp (hused ▸ hv)
    exact hlookup x (he ▸ Option.some_ne_none e)
  · rintro v ⟨j, hj, rfl⟩
    obtain ⟨hin, hno⟩ := h.tracks.free j hj
    rw [h.refines.entry _ h.dir _ (hin.2.2.trans_le h.below)]
    exact h.unmapped _ hin hno

/-- A program that takes nine pages, gives the first back and calls `fork`. -/
def forkNine (garbage : Fin 32 → Int) (check : Pid → Machine → Bool) :
    ProcM (Bool × Bool × Option Pid × Bool) := do
  let vas ← allocMany 9
  freeMany (vas.take 1)
  let k ← get
  let i ← currentProc
  let _ ← doFork i garbage
  let k' ← get
  pure (decide (ForkReady i k), check i k, firstFree k, k'.oom)

theorem forkNine_run {check : Pid → Machine → Bool} {child : Pid}
    (h : valueOf (afterStart (forkNine garbage check)) largeMachine =
      some (false, true, true, some child, false)) :
    ∃ parent k l pid k', HeapParent parent k l ∧ check parent k = true ∧ firstFree k = some child ∧
      doFork parent garbage k = .ok (pid, k') ∧ k'.oom = false := by
  obtain ⟨i, k0, kend, hfresh, ⟨l0, P0, hrefines, hown⟩, hrun⟩ := afterStart_run h
  obtain ⟨vas, k1, halloc, hrun⟩ := Exec.bind_ok hrun
  obtain ⟨⟨⟩, k, hfree, hrun⟩ := Exec.bind_ok hrun
  obtain ⟨A1, hreach1, -, hmem⟩ := reaches_allocMany (A := ∅) halloc
  have hnodup : (vas.take 1).Nodup := by
    cases vas with
    | nil => exact List.nodup_nil
    | cons v vas => exact List.nodup_singleton v
  obtain ⟨A, hreach, -⟩ := reaches_freeMany hnodup (fun v hv => hmem v (List.mem_of_mem_take hv)) hfree
  obtain ⟨l, P, hinv, hown⟩ := HeapInv.run_own hfresh hrefines hown (hreach1.trans hreach)
  rw [Exec.bind_of_ok (show (get : ProcM Machine) k = .ok (k, k) from rfl),
    Exec.bind_of_ok (currentProc_run hinv.current)] at hrun
  obtain ⟨pid, k', hfork, hrun⟩ := Exec.bind_ok hrun
  have hpair : ((decide (ForkReady i k), check i k, firstFree k, k'.oom), k') =
    ((true, true, some child, false), kend) := Except.ok.inj hrun
  simp only [Prod.mk.injEq, decide_eq_true_eq] at hpair
  obtain ⟨⟨hready, hcheck, hfirst, hoom⟩, rfl⟩ := hpair
  exact ⟨i, k, l, pid, k', hinv.heapParent hown hready, hcheck, hfirst, hfork, hoom⟩

end Machine

end Pke
