import Pke.ElfImage

/-!
# The heap of a process (`sys_user_allocate_page`, `sys_user_free_page`)

The heap manager is a pointer to the end of the heap and a stack of pages
that have been given back. A program that frees only what it has keeps the
two in step with its page table (`HeapInv`): the pages of the heap are
those it has, which are mapped, and those on the stack, which are not. What
can go wrong in such a program is exactly that the stack is full, or that
the page after the heap is taken (`heap_works_iff`). In a program that frees
anything else nothing is checked (`free_never_harmless`), and neither is the
result of `alloc_page` (`alloc_never_fails_cleanly`).
-/

namespace Pke

/-! ## The heap manager -/

namespace HeapManager

/-- A page between the bottom and the top of the heap. -/
def InHeap (h : HeapManager) (v : Nat) : Prop :=
  v % pgSize = 0 ∧ h.heapBottom ≤ v ∧ v < h.heapTop

/-- The pages of the heap are the pages `A` and those on the stack. -/
structure Tracks (h : HeapManager) (A : Set Nat) : Prop where
  bottom : h.heapBottom % pgSize = 0
  top : h.heapTop % pgSize = 0
  le : h.heapBottom ≤ h.heapTop
  count : h.freePagesCount ≤ 32
  inj : ∀ i j : Fin 32, i.val < h.freePagesCount → j.val < h.freePagesCount →
    h.freePagesAddress i = h.freePagesAddress j → i = j
  free : ∀ j : Fin 32, j.val < h.freePagesCount →
    h.InHeap (h.freePagesAddress j) ∧ h.freePagesAddress j ∉ A
  used : ∀ v ∈ A, h.InHeap v
  all : ∀ v, h.InHeap v → v ∈ A ∨ ∃ j : Fin 32, j.val < h.freePagesCount ∧ h.freePagesAddress j = v

variable {h : HeapManager} {A : Set Nat} {v : Nat}

/-- A heap that has not been used. -/
theorem Tracks.fresh (hbottom : h.heapBottom % pgSize = 0) (htop : h.heapTop = h.heapBottom)
    (hcount : h.freePagesCount = 0) : h.Tracks ∅ where
  bottom := hbottom
  top := htop ▸ hbottom
  le := htop.ge
  count := by omega
  inj := by omega
  free := by omega
  used := nofun
  all v hv := by
    obtain ⟨-, hle, hlt⟩ := hv
    omega

/-- The top of the stack is used again. -/
theorem Tracks.pop {n : Nat} {hn : n < 32} (ht : h.Tracks A) (hcount : h.freePagesCount = n + 1) :
    Tracks { h with freePagesCount := n } (insert (h.freePagesAddress ⟨n, hn⟩) A) where
  bottom := ht.bottom
  top := ht.top
  le := ht.le
  count := hn.le
  inj i j hi hj := by
    have hi : i.val < n := hi
    have hj : j.val < n := hj
    exact ht.inj i j (by omega) (by omega)
  free j hj := by
    have hj : j.val < n := hj
    obtain ⟨hin, hnot⟩ := ht.free j (by omega)
    refine ⟨hin, ?_⟩
    rintro (heq | hmem)
    · have := ht.inj j ⟨n, hn⟩ (by omega) (by simp [hcount]) heq
      subst this
      exact lt_irrefl _ hj
    · exact hnot hmem
  used := by
    rintro v (rfl | hv)
    · exact (ht.free ⟨n, hn⟩ (by simp [hcount])).1
    · exact ht.used v hv
  all v hv := by
    rcases ht.all v hv with hmem | ⟨j, hj, rfl⟩
    · exact .inl (.inr hmem)
    · by_cases heq : j = ⟨n, hn⟩
      · rw [heq]
        exact .inl (.inl rfl)
      · have hne : j.val ≠ n := fun hval => heq (Fin.ext hval)
        exact .inr ⟨j, show j.val < n by omega, rfl⟩

/-- The heap grows. -/
theorem Tracks.grow (ht : h.Tracks A) (hcount : h.freePagesCount = 0) :
    Tracks { h with heapTop := h.heapTop + pgSize } (insert h.heapTop A) where
  bottom := ht.bottom
  top := by
    show (h.heapTop + pgSize) % pgSize = 0
    rw [Nat.add_mod_right, ht.top]
  le := ht.le.trans (Nat.le_add_right _ _)
  count := ht.count
  inj := ht.inj
  free j hj := by
    have : j.val < h.freePagesCount := hj
    omega
  used := by
    rintro v (rfl | hv)
    · exact ⟨ht.top, ht.le, Nat.lt_add_of_pos_right (by decide)⟩
    · obtain ⟨hpage, hle, hlt⟩ := ht.used v hv
      exact ⟨hpage, hle, hlt.trans_le (Nat.le_add_right _ _)⟩
  all v hv := by
    obtain ⟨hpage, hle, hlt⟩ := hv
    by_cases hold : v < h.heapTop
    · exact (ht.all v ⟨hpage, hle, hold⟩).imp .inr id
    · refine .inl (.inl ?_)
      have htop := ht.top
      have hlt : v < h.heapTop + pgSize := hlt
      unfold pgSize at *
      omega

theorem Tracks.top_notMem (ht : h.Tracks A) : h.heapTop ∉ A :=
  fun hmem => lt_irrefl _ (ht.used _ hmem).2.2

/-- A page that was in use goes to the top of the stack. -/
theorem Tracks.push (ht : h.Tracks A) (hv : v ∈ A) (hn : h.freePagesCount < 32) :
    Tracks { h with freePagesAddress := upd h.freePagesAddress ⟨h.freePagesCount, hn⟩ v,
                    freePagesCount := h.freePagesCount + 1 } (A \ {v}) where
  bottom := ht.bottom
  top := ht.top
  le := ht.le
  count := hn
  inj i j hi hj heq := by
    have hold : ∀ m : Fin 32, m ≠ ⟨h.freePagesCount, hn⟩ → m.val < h.freePagesCount + 1 →
        m.val < h.freePagesCount ∧ h.freePagesAddress m ≠ v := by
      intro m hm hlt
      have hlt : m.val < h.freePagesCount := by
        have : m.val ≠ h.freePagesCount := fun hval => hm (Fin.ext hval)
        omega
      exact ⟨hlt, fun heq => (ht.free m hlt).2 (heq ▸ hv)⟩
    rcases upd_cases heq with ⟨hi', hjv⟩ | ⟨hi', hjv⟩ <;> rcases upd_cases hjv.symm with hj' | hj'
    · exact hi'.trans hj'.1.symm
    · exact absurd hj'.2 (hold j hj'.1 hj).2
    · exact absurd hj'.2.symm (hold i hi' hi).2
    · exact ht.inj i j (hold i hi' hi).1 (hold j hj'.1 hj).1 hj'.2.symm
  free j hj := by
    show h.InHeap (upd h.freePagesAddress ⟨h.freePagesCount, hn⟩ v j) ∧
      upd h.freePagesAddress ⟨h.freePagesCount, hn⟩ v j ∉ A \ {v}
    by_cases heq : j = ⟨h.freePagesCount, hn⟩
    · subst heq
      simpa using ht.used v hv
    · have hne : j.val ≠ h.freePagesCount := fun hval => heq (Fin.ext hval)
      have hj : j.val < h.freePagesCount + 1 := hj
      obtain ⟨hin, hnot⟩ := ht.free j (by omega)
      rw [upd_ne heq]
      exact ⟨hin, fun hmem => hnot hmem.1⟩
  used w hw := ht.used w hw.1
  all w hw := by
    rcases ht.all w hw with hmem | ⟨j, hj, rfl⟩
    · by_cases heq : w = v
      · exact .inr ⟨⟨h.freePagesCount, hn⟩, Nat.lt_succ_self _, (upd_self ..).trans heq.symm⟩
      · exact .inl ⟨hmem, heq⟩
    · have hne : j ≠ ⟨h.freePagesCount, hn⟩ := by
        rintro rfl
        exact lt_irrefl _ hj
      exact .inr ⟨j, Nat.lt_succ_of_lt hj, upd_ne hne⟩

end HeapManager

variable {E : Stop → Prop} {k0 : Machine} {α : Type} {f : HostFile}

namespace Machine

open Exec (Post get modify)

/-! ## The two system calls -/

variable {i : Pid} {k k' : Machine} {A : Set Nat} {l : List Nat} {P : Paging} {hs : List Nat} {va : Nat}

/-- The heap of process `i`, of which the program has the pages `A`. -/
structure HeapInv (i : Pid) (k : Machine) (A : Set Nat) (l : List Nat) (P : Paging) : Prop where
  current : k.current = some i
  refines : k.phys.Refines l P []
  dir : (k.procs i).pagetable ∈ P.dirs
  tracks : (k.procs i).userHeap.Tracks A
  below : (k.procs i).userHeap.heapTop ≤ maxVA
  mapped : ∀ v ∈ A, ∃ e, P.entries (k.procs i).pagetable (v / pgSize) = some e ∧
    pte2pa e ∈ P.data ∧ k.phys.InRange (pte2pa e)
  private_ : ∀ v ∈ A, ∀ v' ∈ A, ∀ e e', P.entries (k.procs i).pagetable (v / pgSize) = some e →
    P.entries (k.procs i).pagetable (v' / pgSize) = some e' → pte2pa e = pte2pa e' → v = v'
  unmapped : ∀ v, (k.procs i).userHeap.InHeap v → v ∉ A →
    P.entries (k.procs i).pagetable (v / pgSize) = none

theorem allocPage_refines (h : k.phys.Refines l P hs) : Post allocPage k (fun p k1 => SameRec k k1 ∧
      (p = 0 ∧ k1.oom = true ∧ k1.phys.Refines l P hs ∨
        ∃ rest, l = p :: rest ∧ p ≠ 0 ∧ k1.oom = k.oom ∧ k1.phys.Refines rest P (p :: hs) ∧
          k1.phys.freeMemStart = k.phys.freeMemStart ∧ k1.phys.freeMemEnd = k.phys.freeMemEnd)) E := by
  refine .bind (R := fun p k1 => ∃ s, k1 = { k with phys := s } ∧
    (p = 0 ∧ s = k.phys ∨ ∃ rest, l = p :: rest ∧ p ≠ 0 ∧ s.Refines rest P (p :: hs) ∧
      s.freeMemStart = k.phys.freeMemStart ∧ s.freeMemEnd = k.phys.freeMemEnd))
    (post_inPhys ((Phys.allocPage_post h.spaces.pool).mono fun p s => ?_)) ?_
  · rintro (⟨hp, -, hs⟩ | ⟨rest, hl, hp, hmem, hstart, hend, hpool⟩)
    · exact ⟨s, rfl, .inl ⟨hp, hs⟩⟩
    · rw [hl] at h
      exact ⟨s, rfl, .inr ⟨rest, hl, hp, h.alloc hmem hstart hend hpool, hstart, hend⟩⟩
  · rintro p k1 ⟨s, rfl, ⟨rfl, rfl⟩ | ⟨rest, hl, hp, hrefines, hbounds⟩⟩
    · exact .bindModify (.pure ⟨⟨rfl, rfl, rfl, rfl⟩, .inl ⟨rfl, rfl, h⟩⟩)
    · dsimp only
      rw [if_neg hp]
      exact .pure ⟨⟨rfl, rfl, rfl, rfl⟩, .inr ⟨rest, hl, hp, rfl, hrefines, hbounds⟩⟩

/-- What `sys_user_allocate_page` has done to the record of process `i` to get the page `va`. -/
structure TakesPage (i : Pid) (k k' : Machine) (A : Set Nat) (va : Nat) : Prop where
  current : k'.current = k.current
  dir : (k'.procs i).pagetable = (k.procs i).pagetable
  tracks : (k'.procs i).userHeap.Tracks (insert va A)
  bottom : (k'.procs i).userHeap.heapBottom = (k.procs i).userHeap.heapBottom
  fresh : va ∉ A
  old : (k.procs i).userHeap.freePagesCount ≠ 0 ∧ (k.procs i).userHeap.InHeap va ∧
      (k'.procs i).userHeap.heapTop = (k.procs i).userHeap.heapTop ∨
    (k.procs i).userHeap.freePagesCount = 0 ∧ va = (k.procs i).userHeap.heapTop ∧
      (k'.procs i).userHeap.heapTop = (k.procs i).userHeap.heapTop + pgSize

theorem TakesPage.same {k1 : Machine} (h : TakesPage i k1 k' A va) (hs : SameRec k k1) :
    TakesPage i k k' A va := by
  obtain ⟨hcurrent, hdir, htracks, hbottom, hfresh, hold⟩ := h
  rw [hs.procs] at hdir hbottom hold
  exact ⟨hcurrent.trans hs.current, hdir, htracks, hbottom, hfresh, hold⟩

theorem heapPage_post (h : (k.procs i).userHeap.Tracks A) :
    Post (heapPage i) k (fun va k' => TakesPage i k k' A va ∧ k'.phys = k.phys ∧ k'.oom = k.oom) E := by
  refine .bindGet (.ite (fun hpos => ?_) fun hzero => ?_)
  · obtain ⟨n, hn⟩ := Nat.exists_eq_succ_of_ne_zero hpos.ne'
    have hn32 : n < 32 := by
      have := h.count
      omega
    have hpred : (k.procs i).userHeap.freePagesCount - 1 = n := by omega
    simp only [hpred]
    rw [dif_pos hn32]
    obtain ⟨hin, hnot⟩ := h.free ⟨n, hn32⟩ (by simp [hn])
    refine .bindModify (.ite (fun _ => .pure ?_) fun htop => absurd hin.2.2 htop)
    refine ⟨⟨rfl, ?_, ?_, ?_, hnot, .inl ⟨hpos.ne', hin, ?_⟩⟩, rfl, rfl⟩ <;>
      simp only [setProc, upd_self]
    exact h.pop hn
  · have hzero : (k.procs i).userHeap.freePagesCount = 0 := by omega
    refine .bindModify (.bindModify (.pure ?_))
    refine ⟨⟨rfl, ?_, ?_, ?_, h.top_notMem, .inr ⟨hzero, rfl, ?_⟩⟩, rfl, rfl⟩ <;>
      simp only [setProc, setRegion, upd_self]
    exact h.grow hzero

theorem currentProc_run (h : k.current = some i) : currentProc k = .ok (i, k) := by
  unfold currentProc
  rw [Exec.bind_of_ok (show (get : ProcM Machine) k = .ok (k, k) from rfl), h]
  rfl

/-- Nothing is in the way when the heap has to grow. -/
def CanGrow (i : Pid) (k : Machine) : Prop :=
  (k.procs i).userHeap.freePagesCount = 0 → (k.procs i).userHeap.heapTop < maxVA ∧
    entry k.phys.mem (k.procs i).pagetable (k.procs i).userHeap.heapTop = none

theorem page_eq_of_div {v v' : Nat} (hv : v % pgSize = 0) (hv' : v' % pgSize = 0)
    (h : v / pgSize = v' / pgSize) : v = v' := by
  unfold pgSize at *
  omega

/-- The page that is handed out is not mapped. -/
theorem HeapInv.fresh (h : HeapInv i k A l P) (hgrow : CanGrow i k) (hk' : TakesPage i k k' A va) :
    va < maxVA ∧ va % pgSize = 0 ∧ P.entries (k.procs i).pagetable (va / pgSize) = none ∧
      (k'.procs i).userHeap.heapTop ≤ maxVA := by
  have hbelow := h.below
  rcases hk'.old with ⟨-, hin, htop⟩ | ⟨hzero, rfl, htop⟩
  · refine ⟨hin.2.2.trans_le hbelow, hin.1, h.unmapped va hin hk'.fresh, ?_⟩
    rwa [htop]
  · obtain ⟨hlt, hnone⟩ := hgrow hzero
    have hpage := h.tracks.top
    refine ⟨hlt, hpage, ?_, ?_⟩
    · rw [← h.refines.entry _ h.dir _ hlt, hnone]
    · rw [htop]
      unfold maxVA pgSize at *
      omega

/-- The page `p` has been mapped at `va`. -/
theorem HeapInv.mapPage {s : Phys} {l' : List Nat} {p : Nat} (h : HeapInv i k A l P)
    (hk' : TakesPage i k k' A va) (hva : va % pgSize = 0)
    (htop : (k'.procs i).userHeap.heapTop ≤ maxVA)
    (hfresh : P.entries (k.procs i).pagetable (va / pgSize) = none) (hp64 : p < 2 ^ 64)
    (hs : s.Refines l' (P.map (k.procs i).pagetable (va / pgSize)
      (Phys.leafPte p (protToType protRW true))) [p])
    (hstart : s.freeMemStart = k.phys.freeMemStart) (hend : s.freeMemEnd = k.phys.freeMemEnd) :
    ∃ P', HeapInv i { k' with phys := s } (insert va A) l' P' ∧
      (P.Own (k.procs i).pagetable → P'.Own (k'.procs i).pagetable) := by
  obtain ⟨-, hpd, hrange⟩ := hs.held p (by simp)
  have hperm := Phys.protToType_lt protRW true
  have hpte : pte2pa (Phys.leafPte p (protToType protRW true)) = p :=
    Phys.pte2pa_leafPte hperm hrange.1 hp64
  have hold : ∀ v ∈ A, v / pgSize ≠ va / pgSize := by
    intro v hv heq
    obtain ⟨e, he, -⟩ := h.mapped v hv
    rw [heq, hfresh] at he
    cases he
  -- the page of an address the program had before is not `p`
  have hne : ∀ v ∈ A, ∀ e, (if v / pgSize = va / pgSize then
      some (Phys.leafPte p (protToType protRW true))
      else P.entries (k.procs i).pagetable (v / pgSize)) = some e → pte2pa e ≠ p := by
    intro v hv e he hep
    obtain ⟨e', he', hdata, -⟩ := h.mapped v hv
    rw [if_neg (hold v hv), he'] at he
    obtain rfl := Option.some.inj he
    exact hpd (hep ▸ hdata)
  have huse : s.Refines l' (Paging.use _ p fun i => s.mem (p + i)) [] := hs.use fun _ _ => rfl
  have hunused : Unused P p := ⟨hrange.1, hp64, hpd, hs.source p (.inr (by simp))⟩
  have hgrow : P.Own (k.procs i).pagetable → Paging.Own
      ((P.use p fun i => s.mem (p + i)).map (k.procs i).pagetable (va / pgSize)
        (Phys.leafPte p (protToType protRW true))) (k'.procs i).pagetable :=
    fun hown => hk'.dir.symm ▸ (hown.grow hunused hperm).1
  refine ⟨_, ⟨?_, huse, ?_, hk'.tracks, htop, ?_, ?_, ?_⟩, hgrow⟩
  · exact hk'.current.trans h.current
  · exact hk'.dir.symm ▸ h.dir
  all_goals
    simp only [hk'.dir, Paging.use_entries, Paging.map_entries]
  · rintro v (rfl | hv)
    · refine ⟨_, if_pos rfl, ?_⟩
      rw [hpte]
      exact ⟨.inl rfl, hrange⟩
    · obtain ⟨e, he, hdata, hr⟩ := h.mapped v hv
      exact ⟨e, (if_neg (hold v hv)).trans he, .inr hdata, hr.of_bounds hstart hend⟩
  · rintro v (rfl | hv) v' (rfl | hv') e e' he he' heq
    · rfl
    · rw [if_pos rfl] at he
      obtain rfl := Option.some.inj he
      exact absurd (heq.symm.trans hpte) (hne v' hv' e' he')
    · rw [if_pos rfl] at he'
      obtain rfl := Option.some.inj he'
      exact absurd (heq.trans hpte) (hne v hv e he)
    · rw [if_neg (hold v hv)] at he
      rw [if_neg (hold v' hv')] at he'
      exact h.private_ v hv v' hv' e e' he he' heq
  · intro v hv hnot
    have hneq : v ≠ va := fun heq => hnot (.inl heq)
    rw [if_neg fun heq => hneq (page_eq_of_div hv.1 hva heq)]
    refine h.unmapped v ⟨hv.1, hk'.bottom ▸ hv.2.1, ?_⟩ fun hmem => hnot (.inr hmem)
    have hlt : v < (k'.procs i).userHeap.heapTop := hv.2.2
    rcases hk'.old with ⟨-, -, htop⟩ | ⟨-, rfl, htop⟩
    · rwa [← htop]
    · have hpage := hv.1
      have hpage' := h.tracks.top
      unfold pgSize at *
      omega

/-- What is asked of `sys_user_allocate_page` when the program has the pages `A`. It may only fail
when the free pages run out. -/
def AllocWorks (i : Pid) (k : Machine) (A : Set Nat) : Prop :=
  Post sysUserAllocatePage k
    (fun va k' => k'.oom = false → (k'.procs i).userHeap.InHeap va ∧ va ∉ A)
    (fun e => e = .fault (.panic "fail to user_vm_map .") ∧ ∃ l, k.phys.Pool l ∧ l.length < 3)

theorem HeapInv.alloc (h : HeapInv i k A l P) (hgrow : CanGrow i k) :
    Post sysUserAllocatePage k
      (fun va k' => k'.oom = false → (k'.procs i).userHeap.InHeap va ∧ va ∉ A ∧
        ∃ l' P', HeapInv i k' (insert va A) l' P' ∧
          (P.Own (k.procs i).pagetable → P'.Own (k'.procs i).pagetable))
      (fun e => e = .fault (.panic "fail to user_vm_map .") ∧ l.length < 3) := by
  refine .step (currentProc_run h.current) (.bind (allocPage_refines h.refines) ?_)
  rintro p k1 ⟨hsame, hcase⟩
  have htracks : (k1.procs i).userHeap.Tracks A := by
    rw [hsame.procs]
    exact h.tracks
  refine .bind (heapPage_post htracks) ?_
  rintro va k2 ⟨h2, hphys, hoom⟩
  have h2 : TakesPage i k k2 A va := h2.same hsame
  obtain ⟨hlt, hpage, hnone, htop⟩ := h.fresh hgrow h2
  have hva64 : va < 2 ^ 64 := by
    unfold maxVA at hlt
    omega
  have hin : (k2.procs i).userHeap.InHeap va := h2.tracks.used va (Set.mem_insert va A)
  refine .bindGet (.bind (R := fun _ k' => k'.oom = false → (k'.procs i).userHeap.InHeap va ∧ va ∉ A ∧
    ∃ l' P', HeapInv i k' (insert va A) l' P' ∧ (P.Own (k.procs i).pagetable →
      P'.Own (k'.procs i).pagetable)) (post_inPhys ?_) fun _ k' hk' => .pure hk')
  rw [h2.dir, hphys]
  rcases hcase with ⟨rfl, hfull, hrefines⟩ | ⟨rest, rfl, hp, -, hrefines, hstart, hend⟩
  · have hfresh := (hrefines.entry _ h.dir va hlt).trans hnone
    refine ((hrefines.spaces.map_faults hpage hva64 h.dir hlt hfresh).mono fun _ s _ hfalse => ?_).monoFault
      fun e he => ⟨congrArg _ he.1, he.2.trans_le (by decide)⟩
    rw [show ({ k2 with phys := s } : Machine).oom = k2.oom from rfl, hoom, hfull] at hfalse
    cases hfalse
  · have hfresh := (hrefines.entry _ h.dir va hlt).trans hnone
    have hp64 := (Pages.held (F := fun _ => True) (k := k1) ⟨⟨rest, hrefines⟩, trivial⟩
      (List.mem_cons_self ..)).2.1
    refine (((hrefines.map h.dir hpage hva64 hp64 (Phys.protToType_lt _ _)).and
      (hrefines.spaces.map_faults hpage hva64 h.dir hlt hfresh)).mono fun _ s hs _ => ?_).monoFault
      fun e he => ⟨congrArg _ he.2.1, ?_⟩
    · obtain ⟨⟨l', hs, -, -, hstart', hend'⟩, -⟩ := hs
      exact ⟨hin, h2.fresh, l', h.mapPage h2 hpage htop hnone hp64 hs (hstart'.trans hstart)
        (hend'.trans hend)⟩
    · have := he.2.2
      simp only [List.length_cons]
      omega

/-- Nothing else can be done about a page that is in the way. -/
theorem HeapInv.alloc_fails (h : HeapInv i k A l P) (hgrow : ¬CanGrow i k) :
    Post sysUserAllocatePage k (fun _ _ => False)
      (fun e => e ≠ .fault (.panic "fail to user_vm_map .")) := by
  obtain ⟨hzero, hgrow⟩ := Classical.not_imp.mp hgrow
  refine .step (currentProc_run h.current) (.bind (allocPage_refines h.refines) ?_)
  rintro p k1 ⟨hsame, hcase⟩
  have htracks : (k1.procs i).userHeap.Tracks A := by
    rw [hsame.procs]
    exact h.tracks
  refine .bind (heapPage_post htracks) ?_
  rintro va k2 ⟨h2, hphys, -⟩
  have h2 : TakesPage i k k2 A va := h2.same hsame
  refine .bindGet (.bind (R := fun _ _ => False) (post_inPhys ?_) fun _ _ hfalse => hfalse.elim)
  rw [h2.dir, hphys]
  have hrefines : ∃ l' hs, k1.phys.Refines l' P hs := by
    rcases hcase with ⟨-, -, hrefines⟩ | ⟨rest, -, -, -, hrefines, -⟩
    · exact ⟨_, _, hrefines⟩
    · exact ⟨_, _, hrefines⟩
  obtain ⟨l', hs, hrefines⟩ := hrefines
  -- the stack is empty, so the page is the one after the heap
  obtain ⟨-, rfl, -⟩ := h2.old.resolve_left fun hpop => hpop.1 hzero
  have hva64 : (k.procs i).userHeap.heapTop < 2 ^ 64 := h.below.trans_lt (by decide)
  have htaken : maxVA ≤ (k.procs i).userHeap.heapTop ∨
      ∃ e, entry k1.phys.mem (k.procs i).pagetable (k.procs i).userHeap.heapTop = some e := by
    by_cases hlt : (k.procs i).userHeap.heapTop < maxVA
    · rw [hrefines.entry _ h.dir _ hlt, ← h.refines.entry _ h.dir _ hlt]
      exact .inr (Option.ne_none_iff_exists'.mp fun hnone => hgrow ⟨hlt, hnone⟩)
    · exact .inl (Nat.not_lt.mp hlt)
  refine (hrefines.spaces.map_taken h.tracks.top hva64 h.dir htaken).monoFault ?_
  rintro e (rfl | rfl)
  · decide
  · decide

/-- What is asked of `sys_user_free_page`. -/
def FreeWorks (va : Nat) (k : Machine) : Prop := ∃ k', sysUserFreePage va k = .ok ((), k')

theorem HeapInv.free (h : HeapInv i k A l P) (hva : va ∈ A) :
    Post (sysUserFreePage va) k
      (fun _ k' => (k.procs i).userHeap.freePagesCount < 32 ∧
        ∃ l' P', HeapInv i k' (A \ {va}) l' P' ∧
          (P.Own (k.procs i).pagetable → P'.Own (k'.procs i).pagetable))
      (fun e => e = .fault (.ub "free_pages_address") ∧ ¬(k.procs i).userHeap.freePagesCount < 32) := by
  obtain ⟨e, he, hdata, hrange⟩ := h.mapped va hva
  obtain ⟨hpage, -, htop⟩ := h.tracks.used va hva
  obtain ⟨s, hrun, hrefines, hstart, hend⟩ := h.refines.unmap h.dir pgSize
    (htop.trans_le h.below) he hdata hrange
  refine .step (currentProc_run h.current) (.bindGet (.bind (R := fun _ k1 => k1 = { k with phys := s })
    (post_inPhys ?_) ?_))
  · rw [Post, hrun]
  rintro _ k1 rfl
  dsimp only
  have hne : ∀ v ∈ A \ {va}, v / pgSize ≠ va / pgSize :=
    fun v hv heq => hv.2 (page_eq_of_div (h.tracks.used v hv.1).1 hpage heq)
  by_cases hcount : (k.procs i).userHeap.freePagesCount < 32
  · rw [dif_pos hcount]
    refine .modify ⟨hcount, _, _, ⟨h.current, hrefines, ?_, ?_, ?_, ?_, ?_, ?_⟩, ?_⟩ <;>
      simp only [setProc, upd_self, Paging.unmap_entries]
    · exact h.dir
    · exact h.tracks.push hva hcount
    · exact h.below
    · intro v hv
      obtain ⟨e', he', hdata', hrange'⟩ := h.mapped v hv.1
      refine ⟨e', (if_neg (hne v hv)).trans he', ⟨hdata', fun heq => hv.2 ?_⟩,
        hrange'.of_bounds hstart hend⟩
      exact h.private_ v hv.1 va hva e' e he' he heq
    · intro v hv v' hv' e1 e2 he1 he2 heq
      rw [if_neg (hne v hv)] at he1
      rw [if_neg (hne v' hv')] at he2
      exact h.private_ v hv.1 v' hv'.1 e1 e2 he1 he2 heq
    · intro v hv hnot
      split
      · rfl
      · rename_i hdiv
        refine h.unmapped v hv fun hmem => hnot ⟨hmem, ?_⟩
        rintro rfl
        exact hdiv rfl
    · exact fun hown => hown.unmap he
  · rw [dif_neg hcount]
    exact .fault ⟨rfl, hcount⟩

/-! ## Programs -/

/-- A process that has not called `sys_user_allocate_page`. -/
structure FreshHeap (i : Pid) (k : Machine) : Prop where
  current : k.current = some i
  space : ∃ l, k.phys.Space l (k.procs i).pagetable
  bottom : (k.procs i).userHeap.heapBottom = userFreeAddressStart
  top : (k.procs i).userHeap.heapTop = userFreeAddressStart
  count : (k.procs i).userHeap.freePagesCount = 0

/-- A call that returns. The program has the pages it got and did not free since, and frees only
those. -/
inductive HeapStep : Machine × Set Nat → Machine × Set Nat → Prop
  | alloc {k k' : Machine} {A : Set Nat} {va : Nat} : sysUserAllocatePage k = .ok (va, k') →
      k'.oom = false → HeapStep (k, A) (k', insert va A)
  | free {k k' : Machine} {A : Set Nat} {va : Nat} : va ∈ A → sysUserFreePage va k = .ok ((), k') →
      HeapStep (k, A) (k', A \ {va})

theorem FreshHeap.inv (h : FreshHeap i k) (hrefines : k.phys.Refines l P [])
    (hdir : (k.procs i).pagetable ∈ P.dirs) : HeapInv i k ∅ l P := by
  refine ⟨h.current, hrefines, hdir, ?_, ?_, nofun, nofun, ?_⟩
  · refine .fresh ?_ (h.top.trans h.bottom.symm) h.count
    rw [h.bottom]
    decide
  · rw [h.top]
    decide
  · rintro v ⟨-, hle, hlt⟩
    rw [h.bottom] at hle
    rw [h.top] at hlt
    omega

/-- A step keeps the invariant, and pages of the table that are its own. -/
theorem HeapInv.step {A' : Set Nat} (h : HeapInv i k A l P) (hstep : HeapStep (k, A) (k', A')) :
    ∃ l' P', HeapInv i k' A' l' P' ∧
      (P.Own (k.procs i).pagetable → P'.Own (k'.procs i).pagetable) := by
  cases hstep with
  | alloc hrun hoom =>
      by_cases hgrow : CanGrow i k
      · exact ((h.alloc hgrow).of_ok hrun hoom).2.2
      · exact ((h.alloc_fails hgrow).of_ok hrun).elim
  | free hva hrun => exact ((h.free hva).of_ok hrun).2

theorem HeapInv.run (h0 : FreshHeap i k0) (hrun : Reaches HeapStep (k0, ∅) (k, A)) :
    ∃ l P, HeapInv i k A l P := by
  obtain ⟨l, hspace⟩ := h0.space
  refine Reaches.invariant (I := fun s => ∃ l P, HeapInv i s.1 s.2 l P)
    ⟨l, _, h0.inv hspace.refines rfl⟩ ?_ hrun
  rintro _ _ ⟨l, P, h⟩ hstep
  obtain ⟨l', P', h', -⟩ := h.step hstep
  exact ⟨l', P', h'⟩

/-- A run of a process whose pages are its own. -/
theorem HeapInv.run_own (h0 : FreshHeap i k0) (hrefines : k0.phys.Refines l P [])
    (hown : P.Own (k0.procs i).pagetable) (hrun : Reaches HeapStep (k0, ∅) (k, A)) :
    ∃ l' P', HeapInv i k A l' P' ∧ P'.Own (k.procs i).pagetable := by
  refine Reaches.invariant (I := fun s => ∃ l P, HeapInv i s.1 s.2 l P ∧
    P.Own (s.1.procs i).pagetable) ⟨l, P, h0.inv hrefines hown.dir, hown⟩ ?_ hrun
  rintro _ _ ⟨l, P, h, hown⟩ hstep
  obtain ⟨l', P', h', hown'⟩ := h.step hstep
  exact ⟨l', P', h', hown' hown⟩

theorem HeapInv.exact (h : HeapInv i k A l P) (v : Nat) : v ∈ A ↔
    (k.procs i).userHeap.InHeap v ∧ ∃ e, entry k.phys.mem (k.procs i).pagetable v = some e := by
  have hentry : (k.procs i).userHeap.InHeap v → entry k.phys.mem (k.procs i).pagetable v =
      P.entries (k.procs i).pagetable (v / pgSize) :=
    fun hin => h.refines.entry _ h.dir v (hin.2.2.trans_le h.below)
  constructor
  · intro hv
    have hin := h.tracks.used v hv
    obtain ⟨e, he, -⟩ := h.mapped v hv
    exact ⟨hin, e, (hentry hin).trans he⟩
  · rintro ⟨hin, e, he⟩
    by_contra hv
    rw [hentry hin, h.unmapped v hin hv] at he
    cases he

/-! ## The first process -/

/-- The heaps and the page tables of all processes, and the trap section. -/
structure KeepsHeaps (k k' : Machine) : Prop where
  procs : ∀ j, (k'.procs j).userHeap = (k.procs j).userHeap ∧
    (k'.procs j).pagetable = (k.procs j).pagetable
  trap : k'.trapSecStart = k.trapSecStart

instance : Std.Refl KeepsHeaps := ⟨fun _ => ⟨fun _ => ⟨rfl, rfl⟩, rfl⟩⟩

theorem KeepsHeaps.trans {k'' : Machine} (h : KeepsHeaps k k') (h' : KeepsHeaps k' k'') :
    KeepsHeaps k k'' :=
  ⟨fun j => ⟨(h'.procs j).1.trans (h.procs j).1, (h'.procs j).2.trans (h.procs j).2⟩,
    h'.trap.trans h.trap⟩

theorem KeepsHeaps.set {f : Process → Process} (hf : ∀ q, (f q).userHeap = q.userHeap ∧
    (f q).pagetable = q.pagetable) : KeepsHeaps k (k.setProc i f) := by
  refine ⟨fun j => ?_, rfl⟩
  by_cases hj : j = i
  · subst hj
    simp only [setProc, upd_self]
    exact hf _
  · simp only [setProc, upd_ne hj, and_self]

theorem OnlySched.keepsHeaps (h : OnlySched k k') : KeepsHeaps k k' := by
  refine ⟨fun j => ?_, h.trap⟩
  obtain ⟨frame, st, next, hj⟩ := h.procs j
  rw [hj]
  exact ⟨rfl, rfl⟩

/-- Code that leaves the heaps alone. -/
abbrev OffHeap {α : Type} (x : ProcM α) : Prop := Exec.Along KeepsHeaps (fun _ => True) x

instance : Trans KeepsHeaps KeepsHeaps KeepsHeaps := ⟨KeepsHeaps.trans⟩

instance : Lenient KeepsHeaps fun _ => True where
  memory _ _ _ := ⟨fun _ => ⟨rfl, rfl⟩, rfl⟩
  files _ _ := ⟨fun _ => ⟨rfl, rfl⟩, rfl⟩
  fault _ _ := trivial
  inFiles _ := trivial

theorem offHeap_modifyProc {f : Process → Process} (hf : ∀ q, (f q).userHeap = q.userHeap ∧
    (f q).pagetable = q.pagetable) : OffHeap (modifyProc i f) := fun _ => .modify (.set hf)

theorem offHeap_recordRegion {ph : ProgHeader} {npages : Nat} : OffHeap (recordRegion i ph npages) := by
  refine .bindGet fun k1 => ?_
  cases freeRegion (k1.procs i).regions with
  | none => exact .fault trivial
  | some j =>
      refine .bind (offHeap_modifyProc fun _ => ⟨rfl, rfl⟩) fun _ => ?_
      cases segmentType ph.flags with
      | none => exact .fault trivial
      | some type =>
          exact .bind (offHeap_modifyProc fun _ => ⟨rfl, rfl⟩)
            fun _ => offHeap_modifyProc fun _ => ⟨rfl, rfl⟩

theorem offHeap_elfLoadSegment {ph : ProgHeader} : OffHeap (elfLoadSegment i f ph) := by
  refine .ite (fun _ => .pure) fun _ => .ite (fun _ => .pure) fun _ => ?_
  refine .ite (fun _ => .pure) fun _ => .bind (.bind .elfAllocFrom fun _ => .pure) fun n => ?_
  refine .bind .elfCopy fun st => ?_
  cases st with
  | ok => exact .bind offHeap_recordRegion fun _ => .pure
  | _ => exact .pure

theorem offHeap_elfLoadFrom : ∀ {n : Nat} {off : Int}, OffHeap (elfLoadFrom i f n off) := by
  intro n
  induction n with
  | zero => exact .pure
  | succ n ih =>
      intro off
      rw [elfLoadFrom]
      refine .ite (fun _ => .pure) fun _ => .bind offHeap_elfLoadSegment fun st => ?_
      cases st with
      | ok => exact ih
      | _ => exact .pure

theorem insertToReadyQueue_none (h : k.readyQueueHead = none) : Post (insertToReadyQueue i) k
    (fun _ k' => k'.readyQueueHead = some i ∧ OnlySched k k') fun _ => True := by
  refine .bindGet ?_
  rw [h]
  have hset : OnlySched k (k.setProc i fun p => { p with status := .ready, queueNext := none }) :=
    .set fun _ => ⟨_, _, _, rfl⟩
  exact .bindModify (.modify ⟨rfl, hset.phys, hset.oom, hset.trap, hset.procs⟩)

theorem switchTo_only (k : Machine) : Post (switchTo i) k
    (fun _ k' => k'.current = some i ∧ (k'.procs i).status = (k.procs i).status ∧ OnlySched k k') E := by
  have hset : OnlySched k (k.setProc i fun p => { p with frame := { p.frame with
      kernelSp := p.kstack, kernelSatp := k.satp, kernelTrap := k.smodeTrapHandlerAddr } }) :=
    .set fun _ => ⟨_, _, _, rfl⟩
  refine .bindModify (.bindGet (.modify ⟨rfl, ?_, hset.phys, hset.oom, hset.trap, hset.procs⟩))
  simp only [setProc, upd_self]

theorem schedule_some (h : k.readyQueueHead = some i) : Post schedule k
    (fun _ k' => k'.current = some i ∧ (k'.procs i).status = .running ∧ OnlySched k k')
    fun _ => True := by
  refine .bindGet ?_
  simp only [h]
  refine .bindModify (.ite (fun _ => .fault trivial) fun _ => .bindModify (.bindModify ?_))
  refine (switchTo_only _).mono fun _ k' hk' => ?_
  obtain ⟨hcurrent, hstatus, honly⟩ := hk'
  have hrun : OnlySched k (k.setProc i fun p => { p with status := .running }) :=
    .set fun _ => ⟨_, _, _, rfl⟩
  refine ⟨hcurrent, ?_, hrun.trans ⟨honly.phys, honly.oom, honly.trap, honly.procs⟩⟩
  rw [hstatus]
  simp only [setProc, upd_self]

theorem loadBincode_ok (h : loadBincodeFromHostElf i f k = .ok ((), k')) :
    ∃ k1, elfLoad i f k = .ok (.ok, k1) ∧ OnlySched k1 k' := by
  unfold loadBincodeFromHostElf at h
  split at h
  · cases h
  · obtain ⟨st, k1, hload, h⟩ := Exec.bind_ok h
    split at h
    · cases h
    · rename_i hst
      rw [not_not.mp hst] at hload
      cases h
      exact ⟨k1, hload, .set fun _ => ⟨_, _, _, rfl⟩⟩

/-- Process `i` has been built from the file `f`, and runs. -/
structure Loaded (f : HostFile) (i : Pid) (k : Machine) : Prop where
  built : ∃ k0 l k1 k2, CanSpawn k0 l ∧ allocProcess k0 = .ok (i, k1) ∧
    elfLoad i f k1 = .ok (.ok, k2) ∧ OnlySched k2 k
  size : f.size < 2 ^ 64
  oom : k.oom = false
  current : k.current = some i
  status : (k.procs i).status ≠ .free

/-- The process that `s_start` starts. -/
theorem loaded_sStart (hk0 : CanSpawn k0 l) (hhead : k0.readyQueueHead = none)
    (hsize : f.size < 2 ^ 64) (hrun : sStart f k0 = .ok ((), k)) (hoom : k.oom = false) :
    ∃ i, Loaded f i k := by
  obtain ⟨⟨⟩, k1, hinit, hrun⟩ := Exec.bind_ok hrun
  obtain ⟨i, k3, hload, hrun⟩ := Exec.bind_ok hrun
  have hhead3 : k3.readyQueueHead = none := by
    have hsched := loadUserProgram_quiet.of_ok hload
    cases hinit
    exact (congrArg Sched.head hsched).trans hhead
  obtain ⟨⟨⟩, k5, hinsert, hrun⟩ := Exec.bind_ok hrun
  obtain ⟨hhead5, honly5⟩ := (insertToReadyQueue_none hhead3).of_ok hinsert
  obtain ⟨hcurrent, hstatus, honly⟩ := (schedule_some hhead5).of_ok hrun
  obtain ⟨_, k2, hnew, hload⟩ := Exec.bind_ok hload
  obtain ⟨⟨⟩, _, hload, hpure⟩ := Exec.bind_ok hload
  cases hpure
  obtain ⟨k4, hload, honly4⟩ := loadBincode_ok hload
  have hk1 : CanSpawn k1 l := by
    cases hinit
    exact ⟨hk0.pool, hk0.page, hk0.lt, hk0.notFree⟩
  exact ⟨i, ⟨k1, l, k2, k4, hk1, hnew, hload, honly4.trans (honly5.trans honly)⟩, hsize, hoom, hcurrent,
    by rw [hstatus]; decide⟩

/-- The memory of a process that has been built. -/
theorem Loaded.hasStart (h : Loaded f i k) :
    ∃ l P, k.phys.Refines l P [] ∧ HasStart P (k.procs i).pagetable k.trapSecStart ∧
      UserPages f P (k.procs i).pagetable := by
  obtain ⟨k0, l, k1, k2, hk0, hnew, hload, honly⟩ := h.built
  obtain ⟨-, -, P, l', -, -, hrefines, hstart, hpages, -⟩ :=
    hk0.load hnew h.size hload (honly.oom.symm.trans h.oom)
  have hkept := ((offHeap_elfLoadFrom k1).of_ok hload).trans honly.keepsHeaps
  obtain ⟨tf, pt, ks, mi, pfiles, -, -, hrec⟩ := (allocProcess_rec k0).of_ok hnew
  rw [honly.phys, (hkept.procs i).2, hkept.trap, hrec.trap]
  exact ⟨l', P, hrefines, hstart, hpages⟩

theorem Loaded.freshHeap (h : Loaded f i k) : FreshHeap i k := by
  obtain ⟨l, P, hrefines, hstart, -⟩ := h.hasStart
  obtain ⟨k0, -, k1, k2, -, hnew, hload, honly⟩ := h.built
  have hkept := ((offHeap_elfLoadFrom k1).of_ok hload).trans honly.keepsHeaps
  obtain ⟨tf, pt, ks, mi, pfiles, -, -, hrec⟩ := (allocProcess_rec k0).of_ok hnew
  have hheap := (hkept.procs i).1
  rw [hrec.self] at hheap
  exact ⟨h.current, ⟨l, hrefines.spaces.space hstart.own.dir⟩, by rw [hheap]; rfl, by rw [hheap]; rfl,
    by rw [hheap]; rfl⟩

/-- A program that frees only what it has. -/
theorem heap_works_iff {k0 : Machine} (h0 : FreshHeap i k0)
    (hrun : Reaches HeapStep (k0, ∅) (k, A)) :
    (∀ v, v ∈ A ↔ (k.procs i).userHeap.InHeap v ∧
      ∃ e, entry k.phys.mem (k.procs i).pagetable v = some e) ∧
    (AllocWorks i k A ↔ CanGrow i k) ∧
    ∀ va ∈ A, (FreeWorks va k ↔ (k.procs i).userHeap.freePagesCount < maxHeapPages) := by
  obtain ⟨l, P, h⟩ := HeapInv.run h0 hrun
  refine ⟨h.exact, ⟨fun hworks => ?_, fun hgrow => ?_⟩, fun va hva => ⟨?_, fun hcount => ?_⟩⟩
  · by_contra hgrow
    have hfails := h.alloc_fails hgrow
    cases hr : sysUserAllocatePage k with
    | ok r => exact hfails.of_ok hr
    | error e => exact hfails.of_error hr (Post.of_error hworks hr).1
  · refine ((h.alloc hgrow).mono fun va k' hk' hoom => ?_).monoFault fun e he => ?_
    · exact ⟨(hk' hoom).1, (hk' hoom).2.1⟩
    · exact ⟨he.1, l, h.refines.spaces.pool, he.2⟩
  · rintro ⟨k', hfree⟩
    exact ((h.free hva).of_ok hfree).1
  · cases hr : sysUserFreePage va k with
    | ok r => exact ⟨r.2, hr⟩
    | error e => exact absurd hcount ((h.free hva).of_error hr).2

/-- Whatever the address is, it is pushed on the stack. -/
theorem freePage_pushes (hi : k.current = some i) : Post (sysUserFreePage va) k
    (fun _ k' => ∃ hn : (k.procs i).userHeap.freePagesCount < 32, (k'.procs i).userHeap =
      { (k.procs i).userHeap with
        freePagesAddress := upd (k.procs i).userHeap.freePagesAddress ⟨_, hn⟩ va
        freePagesCount := (k.procs i).userHeap.freePagesCount + 1 })
    fun _ => True := by
  refine .step (currentProc_run hi) (.bindGet (.bind
    (Exec.Along.inPhys (R := KeepsHeaps) userVmUnmap_faults k) fun _ k1 hsame => ?_))
  dsimp only
  split
  · rename_i hn
    refine .modify ⟨hn, ?_⟩
    simp only [setProc, upd_self, (hsame.procs i).1]
  · exact .fault trivial

/-- Calls of `sys_user_allocate_page` in which no allocation fails. -/
def allocMany : Nat → ProcM (List Nat)
  | 0 => pure []
  | n + 1 => do
      let va ← sysUserAllocatePage
      let k ← get
      if k.oom then fault .nullPage
      else do
        let vas ← allocMany n
        pure (va :: vas)

def freeMany : List Nat → ProcM Unit
  | [] => pure ()
  | va :: vas => do
      sysUserFreePage va
      freeMany vas

theorem reaches_allocMany : ∀ {n : Nat} {k k' : Machine} {A : Set Nat} {vas : List Nat},
    allocMany n k = .ok (vas, k') → ∃ A', Reaches HeapStep (k, A) (k', A') ∧ A ⊆ A' ∧ ∀ v ∈ vas, v ∈ A'
  | 0, k, _, A, _, hrun => by
      cases hrun
      exact ⟨A, .refl, subset_rfl, nofun⟩
  | n + 1, k, k', A, vas, hrun => by
      obtain ⟨va, k1, hfirst, hrun⟩ := Exec.bind_ok hrun
      rw [Exec.bind_of_ok (show (get : ProcM Machine) k1 = .ok (k1, k1) from rfl)] at hrun
      split at hrun
      · cases hrun
      · rename_i hoom
        obtain ⟨rest, k2, hrest, hrun⟩ := Exec.bind_ok hrun
        cases hrun
        obtain ⟨A', hreach, hsub, hmem⟩ := reaches_allocMany (A := insert va A) hrest
        refine ⟨A', .head (.alloc hfirst (by simpa using hoom)) hreach,
          (Set.subset_insert va A).trans hsub, ?_⟩
        exact List.forall_mem_cons.mpr ⟨hsub (Set.mem_insert va A), hmem⟩

theorem reaches_freeMany : ∀ {vas : List Nat} {k k' : Machine} {A : Set Nat}, vas.Nodup →
    (∀ v ∈ vas, v ∈ A) → freeMany vas k = .ok ((), k') →
    ∃ A', Reaches HeapStep (k, A) (k', A') ∧ ∀ v ∈ A, v ∉ vas → v ∈ A'
  | [], k, _, A, _, _, hrun => by
      cases hrun
      exact ⟨A, .refl, fun v hv _ => hv⟩
  | va :: vas, k, k', A, hnodup, hmem, hrun => by
      obtain ⟨hnot, hnodup⟩ := List.nodup_cons.mp hnodup
      obtain ⟨hva, hmem⟩ := List.forall_mem_cons.mp hmem
      obtain ⟨⟨⟩, k1, hfirst, hrun⟩ := Exec.bind_ok hrun
      obtain ⟨A', hreach, hkeep⟩ := reaches_freeMany (A := A \ {va}) hnodup
        (fun v hv => ⟨hmem v hv, fun heq => hnot (heq ▸ hv)⟩) hrun
      refine ⟨A', .head (.free hva hfirst) hreach, fun v hv hnotin => ?_⟩
      rw [List.mem_cons, not_or] at hnotin
      exact hkeep v ⟨hv, hnotin.1⟩ hnotin.2

/-- A run of the first process, and whether no allocation had failed when it started. -/
def afterStart {α : Type} (x : ProcM α) : ProcM (Bool × α) := do
  sStart emptyElf
  let k ← get
  let a ← x
  pure (k.oom, a)

/-- Memory with room for a program that takes many pages. -/
def largeMachine : Machine := smallMachine 60

theorem afterStart_loaded {x : ProcM α} {a : α} (hspawn : CanSpawn k0 l)
    (hqueue : k0.readyQueueHead = none) (h : valueOf (afterStart x) k0 = some (false, a)) :
    ∃ i k k', FreshHeap i k ∧ (∃ l P, k.phys.Refines l P [] ∧ P.Own (k.procs i).pagetable) ∧
      x k = .ok (a, k') := by
  obtain ⟨k2, h⟩ := ok_of_valueOf h
  obtain ⟨⟨⟩, k, hstart, h⟩ := Exec.bind_ok h
  rw [Exec.bind_of_ok (show (get : ProcM Machine) k = .ok (k, k) from rfl)] at h
  obtain ⟨a', k', hx, h⟩ := Exec.bind_ok h
  have hpair : ((k.oom, a'), k') = ((false, a), k2) := Except.ok.inj h
  simp only [Prod.mk.injEq] at hpair
  obtain ⟨⟨hoom, rfl⟩, rfl⟩ := hpair
  obtain ⟨i, hloaded⟩ := loaded_sStart hspawn hqueue (by decide) hstart hoom
  obtain ⟨l, P, hrefines, hmem, -⟩ := hloaded.hasStart
  exact ⟨i, k, k', hloaded.freshHeap, ⟨l, P, hrefines, hmem.own⟩, hx⟩

theorem afterStart_run {x : ProcM α} {a : α}
    (h : valueOf (afterStart x) largeMachine = some (false, a)) :
    ∃ i k k', FreshHeap i k ∧ (∃ l P, k.phys.Refines l P [] ∧ P.Own (k.procs i).pagetable) ∧
      x k = .ok (a, k') := by
  have hspawn : CanSpawn largeMachine (Phys.pagesFrom (kernBase + pgSize) 60) :=
    smallMachine_canSpawn (by decide) (by decide)
  exact afterStart_loaded hspawn rfl h

/-- The number of pages on the stack of the process that runs. -/
def stackHeight (k : Machine) : Option Nat :=
  k.current.map fun i => (k.procs i).userHeap.freePagesCount

theorem count_of_stackHeight {n : Nat} (h : k.current = some i) (hn : stackHeight k = some n) :
    (k.procs i).userHeap.freePagesCount = n := by
  rw [stackHeight, h] at hn
  exact Option.some.inj hn

/-- Three pages are taken and the second is given back; the first can still be freed. -/
theorem heap_works_iff_three : ∃ i k0 k A, FreshHeap i k0 ∧ Reaches HeapStep (k0, ∅) (k, A) ∧
    userFreeAddressStart ∈ A ∧ userFreeAddressStart + pgSize ∉ A ∧
    userFreeAddressStart + 2 * pgSize ∈ A ∧ FreeWorks userFreeAddressStart k := by
  have hrun : valueOf (afterStart do
      let vas ← allocMany 3
      sysUserFreePage (userFreeAddressStart + pgSize)
      let k ← get
      pure (vas, stackHeight k)) largeMachine =
      some (false, (List.range 3).map (fun j => userFreeAddressStart + j * pgSize), some 1) := by
    decide +kernel
  obtain ⟨i, k0, k', hfresh, -, hrun⟩ := afterStart_run hrun
  obtain ⟨vas, k1, halloc, hrun⟩ := Exec.bind_ok hrun
  obtain ⟨⟨⟩, k2, hfree, hrun⟩ := Exec.bind_ok hrun
  have hpair : ((vas, stackHeight k2), k2) =
    (((List.range 3).map (fun j => userFreeAddressStart + j * pgSize), some 1), k') :=
    Except.ok.inj hrun
  simp only [Prod.mk.injEq] at hpair
  obtain ⟨⟨rfl, hheight⟩, rfl⟩ := hpair
  obtain ⟨A, hreach, -, hmem⟩ := reaches_allocMany (A := ∅) halloc
  have hreach : Reaches HeapStep (k0, ∅) (k2, A \ {userFreeAddressStart + pgSize}) :=
    .tail hreach (.free (hmem _ (by decide)) hfree)
  have hva : userFreeAddressStart ∈ A \ {userFreeAddressStart + pgSize} :=
    ⟨hmem _ (by decide), by decide⟩
  obtain ⟨l, P, hinv⟩ := HeapInv.run hfresh hreach
  refine ⟨i, k0, k2, _, hfresh, hreach, hva, by simp, ⟨hmem _ (by decide), by decide⟩,
    ((heap_works_iff hfresh hreach).2.2 _ hva).mpr ?_⟩
  rw [count_of_stackHeight hinv.current hheight]
  decide

/-- Pages can be freed as long as the stack has room for them. -/
theorem HeapInv.freeAll : ∀ (vas : List Nat) {k : Machine} {A : Set Nat} {l : List Nat} {P : Paging},
    HeapInv i k A l P → vas.Nodup → (∀ v ∈ vas, v ∈ A) →
    (k.procs i).userHeap.freePagesCount + vas.length ≤ maxHeapPages →
    ∃ k' A', Reaches HeapStep (k, A) (k', A') ∧ (∀ v ∈ A, v ∉ vas → v ∈ A') ∧
      (k'.procs i).userHeap.freePagesCount = (k.procs i).userHeap.freePagesCount + vas.length
  | [], k, A, _, _, _, _, _, _ => ⟨k, A, .refl, fun v hv _ => hv, rfl⟩
  | va :: vas, k, A, l, P, h, hnodup, hmem, hroom => by
      obtain ⟨hnot, hnodup⟩ := List.nodup_cons.mp hnodup
      obtain ⟨hva, hmem⟩ := List.forall_mem_cons.mp hmem
      have hlt : (k.procs i).userHeap.freePagesCount < 32 := by
        unfold maxHeapPages at hroom
        simp only [List.length_cons] at hroom
        omega
      cases hfree : sysUserFreePage va k with
      | error e => exact absurd hlt ((h.free hva).of_error hfree).2
      | ok r =>
          obtain ⟨⟨⟩, k1⟩ := r
          obtain ⟨-, l1, P1, h1, -⟩ := (h.free hva).of_ok hfree
          obtain ⟨_, hpush⟩ := (freePage_pushes h.current).of_ok hfree
          have hcount := congrArg HeapManager.freePagesCount hpush
          dsimp only at hcount
          obtain ⟨k', A', hreach, hkeep, htotal⟩ := h1.freeAll vas hnodup
            (fun v hv => ⟨hmem v hv, fun heq => hnot (heq ▸ hv)⟩)
            (by rw [hcount]; simp only [List.length_cons] at hroom; omega)
          refine ⟨k', A', .head (.free hva hfree) hreach, fun v hv hnotin => ?_, ?_⟩
          · rw [List.mem_cons, not_or] at hnotin
            exact hkeep v ⟨hv, hnotin.1⟩ hnotin.2
          · rw [htotal, hcount, List.length_cons]
            omega

/-- A program of 33 pages that frees them all writes past the array. -/
theorem heap_stack_overflows : ∃ i k0 k A va, FreshHeap i k0 ∧
    Reaches HeapStep (k0, ∅) (k, A) ∧ va ∈ A ∧ (k.procs i).userHeap.freePagesCount = maxHeapPages ∧
    sysUserFreePage va k = .error (.fault (.ub "free_pages_address")) := by
  have hrun : valueOf (afterStart do
      let vas ← allocMany 33
      let k ← get
      pure (vas, stackHeight k)) largeMachine =
      some (false, (List.range 33).map (fun j => userFreeAddressStart + j * pgSize), some 0) := by
    decide +kernel
  obtain ⟨i, k0, k', hfresh, -, hrun⟩ := afterStart_run hrun
  obtain ⟨vas, k1, halloc, hrun⟩ := Exec.bind_ok hrun
  have hpair : ((vas, stackHeight k1), k1) =
    (((List.range 33).map (fun j => userFreeAddressStart + j * pgSize), some 0), k') :=
    Except.ok.inj hrun
  simp only [Prod.mk.injEq] at hpair
  obtain ⟨⟨rfl, hheight⟩, rfl⟩ := hpair
  obtain ⟨A1, hreach1, -, hmem⟩ := reaches_allocMany (A := ∅) halloc
  obtain ⟨l1, P1, hinv1⟩ := HeapInv.run hfresh hreach1
  have hzero := count_of_stackHeight hinv1.current hheight
  -- all pages but the last fill the stack
  obtain ⟨k, A, hreach, hkeep, hfull⟩ := hinv1.freeAll
    ((List.range 32).map fun j => userFreeAddressStart + j * pgSize) (by decide)
    (fun v hv => hmem v (List.map_subset _ (List.range_subset.mpr (by decide)) hv))
    (by rw [hzero]; decide)
  have hva : userFreeAddressStart + 32 * pgSize ∈ A := hkeep _ (hmem _ (by decide)) (by decide)
  obtain ⟨l, P, hinv⟩ := HeapInv.run hfresh (hreach1.trans hreach)
  have hcount : (k.procs i).userHeap.freePagesCount = maxHeapPages := by
    rw [hfull, hzero]
    decide
  refine ⟨i, k0, k, A, _, hfresh, hreach1.trans hreach, hva, hcount, ?_⟩
  cases hr : sysUserFreePage (userFreeAddressStart + 32 * pgSize) k with
  | ok r => exact absurd ((hinv.free hva).of_ok hr).1 (by rw [hcount]; decide)
  | error e => rw [((hinv.free hva).of_error hr).1]

/-! ## Addresses that are not allocated -/

/-- What is asked of `sys_user_free_page` for an address the program does not have. -/
def FreeHarmless (va : Nat) (k : Machine) : Prop := ∃ i k', k.current = some i ∧
  sysUserFreePage va k = .ok ((), k') ∧
  (∀ v < maxVA, entry k'.phys.mem (k.procs i).pagetable v = entry k.phys.mem (k.procs i).pagetable v) ∧
  (∀ l, k'.phys.Pool l ↔ k.phys.Pool l) ∧ (k'.procs i).userHeap = (k.procs i).userHeap

/-- No address is rejected. -/
theorem free_never_harmless (va : Nat) (k : Machine) : ¬FreeHarmless va k := by
  rintro ⟨i, k', hi, hrun, -, -, hheap⟩
  obtain ⟨hn, hpush⟩ := (freePage_pushes hi).of_ok hrun
  have hcount := congrArg HeapManager.freePagesCount (hpush.symm.trans hheap)
  simp at hcount

/-- The address `0` is freed, and then the heap has a page there. -/
theorem free_null_then_alloc : ∃ i k k' k'', FreshHeap i k ∧ sysUserFreePage 0 k = .ok ((), k') ∧
    (k'.procs i).userHeap ≠ (k.procs i).userHeap ∧ 0 < (k'.procs i).userHeap.heapBottom ∧
    sysUserAllocatePage k' = .ok (0, k'') := by
  have hrun : valueOf (afterStart do
      sysUserFreePage 0
      sysUserAllocatePage) largeMachine = some (false, 0) := by decide +kernel
  obtain ⟨i, k, k'', hfresh, -, hrun⟩ := afterStart_run hrun
  obtain ⟨⟨⟩, k', hfree, halloc⟩ := Exec.bind_ok hrun
  obtain ⟨hn, hpush⟩ := (freePage_pushes hfresh.current).of_ok hfree
  refine ⟨i, k, k', k'', hfresh, hfree, fun heq => ?_, ?_, halloc⟩
  · have hcount := congrArg HeapManager.freePagesCount (hpush.symm.trans heq)
    simp at hcount
  · rw [congrArg HeapManager.heapBottom hpush, hfresh.bottom]
    decide

/-! ## Running out of memory -/

/-- The call returns something that is no page of the heap, and the heap and the page
table are as before. -/
def AllocFailsCleanly (k : Machine) : Prop := ∃ i va k', k.current = some i ∧
  sysUserAllocatePage k = .ok (va, k') ∧ ¬(k'.procs i).userHeap.InHeap va ∧
  (k'.procs i).userHeap.heapTop = (k.procs i).userHeap.heapTop ∧
  (k'.procs i).userHeap.freePagesCount = (k.procs i).userHeap.freePagesCount ∧
  ((k'.procs i).regions 3).npages = ((k.procs i).regions 3).npages ∧
  ∀ v < maxVA, entry k'.phys.mem (k.procs i).pagetable v = entry k.phys.mem (k.procs i).pagetable v

/-- The heap manager is changed before anything can go wrong. -/
structure HeapMoves (i : Pid) (k k' : Machine) : Prop where
  phys : k'.phys = k.phys
  dir : (k'.procs i).pagetable = (k.procs i).pagetable
  moved : (k'.procs i).userHeap.heapTop ≠ (k.procs i).userHeap.heapTop ∨
    (k'.procs i).userHeap.freePagesCount ≠ (k.procs i).userHeap.freePagesCount

theorem heapPage_moves (k : Machine) :
    Post (heapPage i) k (fun _ k' => HeapMoves i k k') fun _ => True := by
  refine .bindGet (.ite (fun hpos => ?_) fun _ => ?_)
  · dsimp only
    split
    · refine .bindModify (.ite (fun _ => .pure ⟨rfl, ?_, .inr ?_⟩) fun _ => .fault trivial)
      · simp only [setProc, upd_self]
      · simp only [setProc, upd_self]
        omega
    · exact .fault trivial
  · refine .bindModify (.bindModify (.pure ⟨rfl, ?_, .inl ?_⟩))
    · simp only [setProc, setRegion, upd_self]
    · simp only [setProc, setRegion, upd_self, pgSize]
      omega

theorem allocatePage_moves (hi : k.current = some i) :
    Post sysUserAllocatePage k (fun _ k' =>
      (k'.procs i).userHeap.heapTop ≠ (k.procs i).userHeap.heapTop ∨
      (k'.procs i).userHeap.freePagesCount ≠ (k.procs i).userHeap.freePagesCount)
    fun _ => True := by
  refine .step (currentProc_run hi) (.bind (Exec.Along.allocPage (R := KeepsHeaps) k) ?_)
  intro pa k1 hsame
  refine .bind (heapPage_moves k1) fun va k2 hmoves => .bindGet ?_
  refine .bind (Exec.Along.userVmMap (R := KeepsHeaps) k2) fun _ k3 hsame' => .pure ?_
  rw [(hsame'.procs i).1, ← (hsame.procs i).1]
  exact hmoves.moved

theorem allocPage_none (h : k.phys.gFreeMemList = 0) :
    allocPage k = .ok (0, { k with oom := true }) := by
  have hphys : Phys.allocPage k.phys = .ok (0, k.phys) := by
    rw [Phys.allocPage, Exec.bind_of_ok (show (get : PhysM Phys) k.phys = .ok (k.phys, k.phys) from rfl)]
    simp only [h, ne_eq, not_true_eq_false, if_false]
    rfl
  have hin : inPhys Phys.allocPage k = .ok (0, k) := by
    rw [inPhys, hphys]
  rw [allocPage, Exec.bind_of_ok hin]
  rfl

/-- With no page left the call maps page zero. -/
theorem allocatePage_zero (hi : k.current = some i)
    (hspace : k.phys.Space [] (k.procs i).pagetable) :
    Post sysUserAllocatePage k (fun va k' => va < maxVA →
      entry k'.phys.mem (k.procs i).pagetable va = some (Phys.leafPte 0 (protToType protRW true)))
    fun _ => True := by
  have hnone := allocPage_none (hspace.pool.head_eq_zero.mpr rfl)
  refine .step (currentProc_run hi) (.step hnone (.bind (heapPage_moves _) fun va k2 hmoves => ?_))
  have hdir : (k2.procs i).pagetable = (k.procs i).pagetable := hmoves.dir
  have hphys : k2.phys = k.phys := hmoves.phys
  refine .bindGet (.bind (post_inPhys ?_) fun _ k3 hk3 => .pure hk3)
  rw [hdir, hphys]
  refine .bind ((Phys.mapPages_post hspace (Phys.protToType_lt _ _) (by decide)).monoFault
    fun _ _ => trivial) fun r s1 hmaps => .ite (fun _ => .fault trivial) fun hr => .pure fun hva => ?_
  obtain ⟨l', -, hmap⟩ := hmaps
  have hlast : roundDown va pgSize ≤ roundDown (sub64 (va + pgSize) 1) pgSize := by
    unfold roundDown pgSize sub64
    unfold maxVA at hva
    omega
  rw [(hmap (not_not.mp hr)).entry va hva, Phys.mappedEntry, if_pos ⟨Nat.le_refl _, hlast⟩,
    Nat.sub_self, Nat.zero_add, Nat.zero_mod]

theorem not_allocFailsCleanly (k : Machine) : ¬AllocFailsCleanly k := by
  rintro ⟨i, va, k', hi, hrun, -, htop, hcount, -⟩
  exact ((allocatePage_moves hi).of_ok hrun).elim (fun h => h htop) fun h => h hcount

/-- The call never fails cleanly, and when there is no page left and it returns, the
process has page zero. -/
theorem alloc_never_fails_cleanly (k : Machine) : ¬AllocFailsCleanly k ∧
    ∀ i va k', k.current = some i → k.phys.Space [] (k.procs i).pagetable →
      sysUserAllocatePage k = .ok (va, k') → va < maxVA →
      entry k'.phys.mem (k.procs i).pagetable va = some (Phys.leafPte 0 (protToType protRW true)) := by
  refine ⟨not_allocFailsCleanly k, fun i va k' hi hspace hrun hva => ?_⟩
  exact (allocatePage_zero hi hspace).of_ok hrun hva

/-- The physical address the process that runs has at `va`. -/
def seenAt (va : Nat) (k : Machine) : Option Nat :=
  k.current.bind fun i => ((Phys.userVaToPa (k.procs i).pagetable va k.phys).toOption.map Prod.fst)

/-- In a machine with memory for one page of the heap, the second page is page zero. -/
theorem page_zero_handed_out : ∃ i k k' k'', FreshHeap i k ∧
    sysUserAllocatePage k = .ok (userFreeAddressStart, k') ∧ k'.phys.gFreeMemList = 0 ∧
    sysUserAllocatePage k' = .ok (userFreeAddressStart + pgSize, k'') ∧
    seenAt (userFreeAddressStart + pgSize + 8) k'' = some 8 ∧ ¬AllocFailsCleanly k' := by
  have hspawn : CanSpawn (smallMachine 13) (Phys.pagesFrom (kernBase + pgSize) 13) :=
    smallMachine_canSpawn (by decide) (by decide)
  have hrun : valueOf (afterStart do
      let va ← sysUserAllocatePage
      let k ← get
      let va' ← sysUserAllocatePage
      let k' ← get
      pure (va, k.phys.gFreeMemList, va', seenAt (userFreeAddressStart + pgSize + 8) k'))
      (smallMachine 13) = some (false, userFreeAddressStart, 0, userFreeAddressStart + pgSize, some 8) := by
    decide +kernel
  obtain ⟨i, k, kend, hfresh, -, hrun⟩ := afterStart_loaded hspawn rfl hrun
  obtain ⟨va, k', halloc, hrun⟩ := Exec.bind_ok hrun
  rw [Exec.bind_of_ok (show (get : ProcM Machine) k' = .ok (k', k') from rfl)] at hrun
  obtain ⟨va', k'', halloc', hrun⟩ := Exec.bind_ok hrun
  have hpair : ((va, k'.phys.gFreeMemList, va', seenAt (userFreeAddressStart + pgSize + 8) k''), k'') =
    ((userFreeAddressStart, 0, userFreeAddressStart + pgSize, some 8), kend) := Except.ok.inj hrun
  simp only [Prod.mk.injEq] at hpair
  obtain ⟨⟨rfl, hlist, rfl, hseen⟩, rfl⟩ := hpair
  exact ⟨i, k, k', k'', hfresh, halloc, hlist, halloc', hseen, not_allocFailsCleanly k'⟩

end Machine

end Pke
