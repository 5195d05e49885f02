import Mathlib.Data.Finset.Card
import Pke.Word
import Pke.Linked
import Pke.Kernel

/-!
# The physical page allocator (`pmm.c`)

The free pages are a linked list whose links are the first words of the
pages themselves. `Pool s l` says that the list is `l` and that its pages
are where they should be; what a client writes into the pages it has does
not touch the links (`Pool.frame`). From there on the allocator is a list:
`alloc_page` takes the first page, `free_page` puts one back in front.
`alloc_safe` is what this gives over whole runs, and `Pool.allocPage` and
`Pool.freePage` connect it to the list of free pages the file system is
modelled with.
-/

namespace Pke

/-- `ROUNDUP`. -/
def roundUp (a b : Nat) : Nat := ((a - 1) / b + 1) * b

/-- `ROUNDDOWN`. -/
def roundDown (a b : Nat) : Nat := a / b * b

/-- `KERN_BASE`, which is also `DRAM_BASE`. -/
def kernBase : Nat := 2147483648

/-- `PKE_MAX_ALLOWABLE_RAM`. -/
def pkeMaxAllowableRam : Nat := 128 * 1024 * 1024

/-- Physical memory and the globals of `pmm.c`. -/
structure Phys where
  mem : Mem
  gFreeMemList : Nat
  freeMemStart : Nat
  freeMemEnd : Nat

abbrev PhysM := Exec Phys Fault

variable {s : Phys} {p start fin : Nat} {m : Mem} {l : List Nat} {E : Fault → Prop}

namespace Phys

open Exec (Post get modify fault)

/-- `free_page`. -/
def freePage (pa : Nat) : PhysM Unit := do
  let s ← get
  if pa % pgSize ≠ 0 ∨ pa < s.freeMemStart ∨ pa ≥ s.freeMemEnd then fault (.panic "free_page")
  else modify fun s => { s with mem := store64 s.mem pa s.gFreeMemList, gFreeMemList := pa }

/-- `alloc_page`, with `0` for `NULL`. -/
def allocPage : PhysM Nat := do
  let s ← get
  let n := s.gFreeMemList
  if n ≠ 0 then modify fun s => { s with gFreeMemList := load64 s.mem n }
  pure n

/-- The loop of `create_freepage_list`, with fuel. -/
def freeFrom (fin : Nat) : Nat → Nat → PhysM Unit
  | 0, p => if p + pgSize < fin then fault (.ub "fuel") else pure ()
  | fuel + 1, p =>
      if p + pgSize < fin then do
        freePage p
        freeFrom fin fuel (p + pgSize)
      else pure ()

/-- `create_freepage_list`. -/
def createFreepageList (start fin : Nat) : PhysM Unit := do
  modify fun s => { s with gFreeMemList := 0 }
  freeFrom fin (fin / pgSize) (roundUp start pgSize)

/-- `pmm_init`, for a kernel that ends at `kernelEnd` on a machine with `memSize`
bytes of memory. -/
def pmmInit (kernelEnd memSize : Nat) : PhysM Unit := do
  let pkeKernelSize := sub64 kernelEnd kernBase
  let start := roundUp kernelEnd pgSize
  modify fun s => { s with freeMemStart := start }
  let gMemSize := min pkeMaxAllowableRam memSize
  if gMemSize < pkeKernelSize then
    fault (.panic "Error when recomputing physical memory size (g_mem_size).")
  else do
    let fin := gMemSize + kernBase
    modify fun s => { s with freeMemEnd := fin }
    createFreepageList start fin

/-! ## The list of free pages -/

/-- A pointer, or `NULL`. -/
def ptr? (a : Nat) : Option Nat := if a = 0 then none else some a

theorem ptr?_of_ne {a : Nat} (h : a ≠ 0) : ptr? a = some a := if_neg h

theorem ptr?_eq_some {a b : Nat} : ptr? a = some b ↔ a = b ∧ b ≠ 0 := by
  unfold ptr?
  split <;> simp_all
  intro h
  omega

/-- The link in a free page. -/
def nextPage (m : Mem) (p : Nat) : Option Nat := ptr? (load64 m p)

theorem nextPage_eq (m : Mem) (p : Nat) : nextPage m p = ptr? (load64 m p) := rfl

/-- A page of the memory the allocator manages. -/
def InRange (s : Phys) (p : Nat) : Prop := p % pgSize = 0 ∧ s.freeMemStart ≤ p ∧ p < s.freeMemEnd

theorem InRange.of_bounds {s' : Phys} (h : s.InRange p) (hstart : s'.freeMemStart = s.freeMemStart)
    (hend : s'.freeMemEnd = s.freeMemEnd) : s'.InRange p := by
  rw [InRange, hstart, hend]
  exact h

/-- The free pages are those of `l`, in this order. -/
structure Pool (s : Phys) (l : List Nat) : Prop where
  list : Linked (nextPage s.mem) (ptr? s.gFreeMemList) l
  page : ∀ p ∈ l, s.InRange p
  low : 0 < s.freeMemStart
  high : s.freeMemEnd ≤ 2 ^ 64

/-- The page at `p` has the same bytes. -/
def SamePage (m m' : Mem) (p : Nat) : Prop := ∀ i < pgSize, m' (p + i) = m (p + i)

theorem SamePage.load {m' : Mem} {k : Nat} (h : SamePage m m' p) (hk : k + 8 ≤ pgSize) :
    load64 m' (p + k) = load64 m (p + k) := by
  refine load64_congr fun i hi => ?_
  have := h (k + i) (by omega)
  rwa [← Nat.add_assoc] at this

namespace Pool

variable {s : Phys} {l : List Nat}

theorem nodup (h : s.Pool l) : l.Nodup := h.list.nodup

/-- What is written outside the free pages does not change the list. -/
theorem frame (h : s.Pool l) (hm : ∀ p ∈ l, SamePage s.mem m p) : Pool { s with mem := m } l := by
  refine ⟨h.list.frame fun p hp => ?_, h.page, h.low, h.high⟩
  have hload : load64 m (p + 0) = load64 s.mem (p + 0) := (hm p hp).load (by decide)
  exact congrArg ptr? hload

theorem head_eq_zero (h : s.Pool l) : s.gFreeMemList = 0 ↔ l = [] := by
  rw [h.list.eq_nil_iff, ptr?]
  split <;> simp_all

end Pool

theorem allocPage_post (h : s.Pool l) :
    Post allocPage s (fun p s' => (p = 0 ∧ l = [] ∧ s' = s) ∨ ∃ rest, l = p :: rest ∧ p ≠ 0 ∧
      s'.mem = s.mem ∧ s'.freeMemStart = s.freeMemStart ∧ s'.freeMemEnd = s.freeMemEnd ∧
      s'.Pool rest) E := by
  refine .bindGet ?_
  dsimp only
  by_cases hz : s.gFreeMemList = 0
  · simp only [hz, ne_eq, not_true_eq_false, if_false]
    exact .pure (.inl ⟨rfl, h.head_eq_zero.mp hz, rfl⟩)
  · rw [if_pos hz]
    refine .bindModify (.pure (.inr ?_))
    have hlist := h.list
    rw [ptr?_of_ne hz] at hlist
    obtain ⟨rest, rfl, hrest⟩ := hlist.pop
    rw [nextPage_eq] at hrest
    exact ⟨rest, rfl, hz, rfl, rfl, rfl, hrest,
      fun p hp => (h.page p (by simp [hp])).of_bounds rfl rfl, h.low, h.high⟩

theorem freePage_run (hp : s.InRange p) : freePage p s =
    .ok ((), { s with mem := store64 s.mem p s.gFreeMemList, gFreeMemList := p }) := by
  obtain ⟨hmod, hlo, hhi⟩ := hp
  unfold freePage
  rw [Exec.bind_get, if_neg (by omega)]
  rfl

theorem freePage_post (h : s.Pool l) (hp : s.InRange p) (hnew : p ∉ l) :
    Post (freePage p) s (fun _ s' => s'.mem = store64 s.mem p s.gFreeMemList ∧
      s'.freeMemStart = s.freeMemStart ∧ s'.freeMemEnd = s.freeMemEnd ∧ s'.Pool (p :: l)) E := by
  rw [Post, freePage_run hp]
  refine ⟨rfl, rfl, rfl, ?_⟩
  obtain ⟨hmod, hlo, hhi⟩ := hp
  have hp0 : p ≠ 0 := by
    have := h.low
    omega
  have hhead : s.gFreeMemList < 2 ^ 64 := by
    cases l with
    | nil =>
        rw [h.head_eq_zero.mpr rfl]
        decide
    | cons q l =>
        obtain ⟨heq, -⟩ := ptr?_eq_some.mp h.list.1
        have := (h.page q (by simp)).2.2
        have := h.high
        omega
  refine ⟨?_, ?_, h.low, h.high⟩
  · show Linked _ (ptr? p) (p :: l)
    rw [ptr?_of_ne hp0]
    refine h.list.push ?_ fun q hq => ?_
    · show ptr? (load64 (store64 s.mem p s.gFreeMemList) p) = _
      rw [load64_store64, Nat.mod_eq_of_lt hhead]
    · have hne : q ≠ p := fun heq => hnew (heq ▸ hq)
      have hqmod : q % 4096 = 0 := (h.page q hq).1
      have hpmod : p % 4096 = 0 := hmod
      show ptr? (load64 (store64 s.mem p s.gFreeMemList) q) = _
      rw [load64_store64_ne (by omega)]
      rfl
  · intro q hq
    rcases List.mem_cons.mp hq with rfl | hq'
    · exact ⟨hmod, hlo, hhi⟩
    · exact h.page q hq'

/-! ## The pages at the start -/

/-- The pages `create_freepage_list` frees, the last one first. -/
def pagesFrom (start : Nat) : Nat → List Nat
  | 0 => []
  | n + 1 => (start + n * pgSize) :: pagesFrom start n

theorem mem_pagesFrom {n : Nat} : p ∈ pagesFrom start n ↔ ∃ k < n, p = start + k * pgSize := by
  induction n with
  | zero => simp [pagesFrom]
  | succ n ih =>
      rw [pagesFrom, List.mem_cons, ih]
      constructor
      · rintro (rfl | ⟨k, hk, rfl⟩)
        · exact ⟨n, by omega, rfl⟩
        · exact ⟨k, by omega, rfl⟩
      · rintro ⟨k, hk, rfl⟩
        rcases Nat.lt_succ_iff_lt_or_eq.mp hk with hk | rfl
        · exact .inr ⟨k, hk, rfl⟩
        · exact .inl rfl

@[simp] theorem length_pagesFrom (start n : Nat) : (pagesFrom start n).length = n := by
  induction n with
  | zero => rfl
  | succ n ih => simp [pagesFrom, ih]

/-- How many pages there are between `start` and `fin`: the loop stops one page
before the end. -/
def pageCount (start fin : Nat) : Nat := (fin - start - 1) / pgSize

theorem freeFrom_post (hmod : start % pgSize = 0) :
    ∀ {fuel n : Nat} {s : Phys}, s.Pool (pagesFrom start n) → s.freeMemStart ≤ start →
      n ≤ pageCount start s.freeMemEnd → pageCount start s.freeMemEnd ≤ n + fuel →
      Post (freeFrom s.freeMemEnd fuel (start + n * pgSize)) s (fun _ s' =>
        s'.freeMemStart = s.freeMemStart ∧ s'.freeMemEnd = s.freeMemEnd ∧
        s'.Pool (pagesFrom start (pageCount start s.freeMemEnd))) E := by
  intro fuel
  induction fuel with
  | zero =>
      intro n s h hlo hle hfuel
      obtain rfl : n = pageCount start s.freeMemEnd := by omega
      have hstop : ¬start + pageCount start s.freeMemEnd * pgSize + pgSize < s.freeMemEnd := by
        unfold pageCount pgSize
        omega
      unfold freeFrom
      rw [if_neg hstop]
      exact .pure ⟨rfl, rfl, h⟩
  | succ fuel ih =>
      intro n s h hlo hle hfuel
      unfold freeFrom
      refine .ite (fun hmore => ?_) fun hstop => ?_
      · have hrange : s.InRange (start + n * pgSize) := by
          refine ⟨?_, by omega, by omega⟩
          rw [Nat.add_mul_mod_self_right, hmod]
        have hnew : start + n * pgSize ∉ pagesFrom start n := by
          intro hmem
          obtain ⟨k, hk, heq⟩ := mem_pagesFrom.mp hmem
          unfold pgSize at heq
          omega
        refine .bind (freePage_post h hrange hnew) ?_
        rintro _ s1 ⟨-, hstart, hend, h1⟩
        have hlt : n + 1 ≤ pageCount start s1.freeMemEnd := by
          rw [hend]
          unfold pageCount pgSize at *
          omega
        have hrest := ih (n := n + 1) (s := s1) h1 (by omega) hlt (by rw [hend]; omega)
        rw [hend, hstart] at hrest
        rwa [Nat.add_assoc, ← Nat.succ_mul]
      · have hn : n = pageCount start s.freeMemEnd := by
          unfold pageCount pgSize at *
          omega
        subst hn
        exact .pure ⟨rfl, rfl, h⟩

theorem roundUp_mod (a : Nat) : roundUp a pgSize % pgSize = 0 := by
  unfold roundUp
  exact Nat.mul_mod_left _ _

theorem roundUp_of_mod (hmod : start % pgSize = 0) (hlow : 0 < start) :
    roundUp start pgSize = start := by
  unfold roundUp pgSize at *
  omega

theorem createFreepageList_post (hmod : start % pgSize = 0) (hlow : 0 < start)
    (hs : s.freeMemStart = start ∧ s.freeMemEnd = fin) (hhigh : fin ≤ 2 ^ 64) :
    Post (createFreepageList start fin) s (fun _ s' => s'.freeMemStart = start ∧
      s'.freeMemEnd = fin ∧ s'.Pool (pagesFrom start (pageCount start fin))) E := by
  refine .bindModify ?_
  rw [roundUp_of_mod hmod hlow]
  obtain ⟨rfl, rfl⟩ := hs
  have hpool : Pool { s with gFreeMemList := 0 } (pagesFrom s.freeMemStart 0) :=
    ⟨rfl, fun p hp => absurd hp (by simp [pagesFrom]), hlow, hhigh⟩
  have hcount : pageCount s.freeMemStart s.freeMemEnd ≤ 0 + s.freeMemEnd / pgSize := by
    unfold pageCount pgSize
    omega
  have hfree := freeFrom_post (E := E) hmod hpool le_rfl (Nat.zero_le _) hcount
  rwa [Nat.zero_mul, Nat.add_zero] at hfree

/-- `pmm_init` leaves the pages between the kernel and the end of memory, and
panics only where the kernel does not fit. -/
theorem pmmInit_post (kernelEnd memSize : Nat) (s : Phys) :
    Post (pmmInit kernelEnd memSize) s (fun _ s' => s'.freeMemStart = roundUp kernelEnd pgSize ∧
      s'.freeMemEnd = min pkeMaxAllowableRam memSize + kernBase ∧
      s'.Pool (pagesFrom s'.freeMemStart (pageCount s'.freeMemStart s'.freeMemEnd)))
      fun e => min pkeMaxAllowableRam memSize < sub64 kernelEnd kernBase ∧
        e = .panic "Error when recomputing physical memory size (g_mem_size)." := by
  unfold pmmInit
  dsimp only
  refine .bindModify (.ite (fun hsmall => .fault ⟨hsmall, rfl⟩) fun _ => .bindModify ?_)
  have hlow : 0 < roundUp kernelEnd pgSize := by
    unfold roundUp
    exact Nat.mul_pos (Nat.succ_pos _) (by decide)
  have hhigh : min pkeMaxAllowableRam memSize + kernBase ≤ 2 ^ 64 := by
    have := Nat.min_le_left pkeMaxAllowableRam memSize
    unfold pkeMaxAllowableRam kernBase at *
    omega
  refine .mono (createFreepageList_post (roundUp_mod kernelEnd) hlow ?_ hhigh) fun _ s' hs' => ?_
  · exact ⟨rfl, rfl⟩
  obtain ⟨hstart, hend, hpool⟩ := hs'
  rw [hstart, hend]
  exact ⟨rfl, rfl, hpool⟩

/-! ## What the loop of `create_freepage_list` leaves out

The loop asks for `p + PGSIZE < end`. A last page that ends exactly at `end`
fails the test, though `free_page` would take it. -/

/-- The free pages are those that lie wholly in `[start, fin)`, each once and
the highest first. -/
def FreeListExact (s : Phys) (start fin : Nat) : Prop :=
  ∃ l, Linked (nextPage s.mem) (ptr? s.gFreeMemList) l ∧ l.Pairwise (· > ·) ∧
    ∀ p, p ∈ l ↔ p % pgSize = 0 ∧ start ≤ p ∧ p + pgSize ≤ fin

theorem pairwise_pagesFrom (start n : Nat) : (pagesFrom start n).Pairwise (· > ·) := by
  induction n with
  | zero => exact .nil
  | succ n ih =>
      refine .cons (fun p hp => ?_) ih
      obtain ⟨k, hk, rfl⟩ := mem_pagesFrom.mp hp
      unfold pgSize
      omega

theorem mem_pagesFrom_pageCount (hmod : start % pgSize = 0) :
    p ∈ pagesFrom start (pageCount start fin) ↔
      p % pgSize = 0 ∧ start ≤ p ∧ p + pgSize < fin := by
  rw [mem_pagesFrom]
  unfold pageCount pgSize at *
  constructor
  · rintro ⟨k, hk, rfl⟩
    omega
  · rintro ⟨hp, hlo, hhi⟩
    exact ⟨(p - start) / 4096, by omega, by omega⟩

/-- The list is exact for the pages `create_freepage_list` frees unless there is
one that ends at `fin`. -/
theorem Pool.exact_iff (hmod : start % pgSize = 0)
    (h : s.Pool (pagesFrom start (pageCount start fin))) :
    s.FreeListExact start fin ↔ fin % pgSize ≠ 0 ∨ fin < start + pgSize := by
  constructor
  · rintro ⟨l, hlist, -, hmem⟩
    obtain rfl := hlist.unique h.list
    by_contra hcon
    -- the page that ends at `fin` is aligned and inside, and the loop has not freed it
    have hlast := hmem (fin - pgSize)
    rw [mem_pagesFrom_pageCount hmod] at hlast
    unfold pgSize at *
    omega
  · intro hwhen
    refine ⟨_, h.list, pairwise_pagesFrom _ _, fun p => ?_⟩
    rw [mem_pagesFrom_pageCount hmod]
    unfold pgSize at *
    omega

theorem createFreepageList_run (start fin : Nat) (s : Phys) (hlow : 0 < start)
    (hmod : start % pgSize = 0) (hs : s.freeMemStart = start ∧ s.freeMemEnd = fin)
    (hhigh : fin ≤ 2 ^ 64) :
    ∃ s', createFreepageList start fin s = .ok ((), s') ∧
      (s'.FreeListExact start fin ↔ fin % pgSize ≠ 0 ∨ fin < start + pgSize) := by
  have hpost : Post (createFreepageList start fin) s _ fun _ => False :=
    createFreepageList_post hmod hlow hs hhigh
  cases hrun : createFreepageList start fin s with
  | error e => exact (hpost.of_error hrun).elim
  | ok r =>
      obtain ⟨-, -, hpool⟩ := hpost.of_ok hrun
      exact ⟨r.2, rfl, hpool.exact_iff hmod⟩

theorem createFreepageList_exact_iff (start fin : Nat) (s : Phys) (hlow : 0 < start)
    (hmod : start % pgSize = 0) (hs : s.freeMemStart = start ∧ s.freeMemEnd = fin)
    (hwrap : start + pgSize ≤ 2 ^ 64 ∧ fin + pgSize ≤ 2 ^ 64) :
    (∃ s', createFreepageList start fin s = .ok ((), s') ∧ s'.FreeListExact start fin) ↔
      fin % pgSize ≠ 0 ∨ fin < start + pgSize := by
  obtain ⟨s', hrun, hiff⟩ := createFreepageList_run start fin s hlow hmod hs (by omega)
  rw [← hiff, hrun]
  constructor
  · rintro ⟨s1, heq, hexact⟩
    cases heq
    exact hexact
  · intro hexact
    exact ⟨s', rfl, hexact⟩

/-- A memory that ends within a page. -/
theorem createFreepageList_exact_iff_partial : ∃ s',
    createFreepageList 2147487744 2147520000 ⟨fun _ => 0, 0, 2147487744, 2147520000⟩ =
      .ok ((), s') ∧ s'.FreeListExact 2147487744 2147520000 :=
  (createFreepageList_exact_iff 2147487744 2147520000 ⟨fun _ => 0, 0, 2147487744, 2147520000⟩
    (by decide) (by decide) ⟨rfl, rfl⟩ (by decide)).mpr (.inl (by decide))

/-- With 128 MiB of memory and a kernel of one page, the last page of memory is
not free. -/
theorem createFreepageList_loses_page : ∃ s',
    createFreepageList 2147487744 2281701376 ⟨fun _ => 0, 0, 2147487744, 2281701376⟩ =
      .ok ((), s') ∧ ¬s'.FreeListExact 2147487744 2281701376 := by
  obtain ⟨s', hrun, hiff⟩ := createFreepageList_run 2147487744 2281701376
    ⟨fun _ => 0, 0, 2147487744, 2281701376⟩ (by decide) (by decide) ⟨rfl, rfl⟩ (by decide)
  refine ⟨s', hrun, ?_⟩
  rw [hiff]
  decide

/-! ## Runs -/

/-- The allocator with the pages that are in use. -/
abbrev Clients := Phys × Finset Nat

/-- What clients can do: take a page, give back one they have, and write anything
into the pages they have. -/
inductive ClientStep : Clients → Clients → Prop
  | alloc {s s' : Phys} {used : Finset Nat} {p : Nat} (hrun : allocPage s = .ok (p, s'))
      (hp : p ≠ 0) : ClientStep (s, used) (s', insert p used)
  | allocNull {s s' : Phys} {used : Finset Nat} (hrun : allocPage s = .ok (0, s')) :
      ClientStep (s, used) (s', used)
  | free {s s' : Phys} {used : Finset Nat} {p : Nat} (hp : p ∈ used)
      (hrun : freePage p s = .ok ((), s')) : ClientStep (s, used) (s', used.erase p)
  | write {s : Phys} {used : Finset Nat} {m : Mem}
      (hm : ∀ a, roundDown a pgSize ∉ used → m a = s.mem a) :
      ClientStep (s, used) ({ s with mem := m }, used)

/-- The allocator between two steps: each of `pages` is free or in use, and none
is both. -/
structure Balanced (pages : List Nat) (start fin : Nat) (c : Clients) (l : List Nat) : Prop where
  pool : c.1.Pool l
  bounds : c.1.freeMemStart = start ∧ c.1.freeMemEnd = fin
  used : ∀ p ∈ c.2, c.1.InRange p
  apart : ∀ p ∈ l, p ∉ c.2
  all : ∀ p, p ∈ pages ↔ p ∈ l ∨ p ∈ c.2
  count : c.2.card + l.length = pages.length

theorem samePage_of_write {m' : Mem} {used : Finset Nat}
    (hm : ∀ a, roundDown a pgSize ∉ used → m' a = m a) (hmod : p % pgSize = 0) (hp : p ∉ used) :
    SamePage m m' p := by
  intro i hi
  refine hm _ fun hmem => hp ?_
  have hround : roundDown (p + i) pgSize = p := by
    unfold roundDown pgSize at *
    omega
  rwa [hround] at hmem

theorem Balanced.step {pages : List Nat} {c c' : Clients} (h : Balanced pages start fin c l)
    (hs : ClientStep c c') : ∃ l', Balanced pages start fin c' l' := by
  cases hs with
  | @alloc s s' used p hrun hp =>
      have hpost : Post allocPage s _ fun _ => True := allocPage_post h.pool
      rcases hpost.of_ok hrun with ⟨hzero, -, -⟩ | ⟨rest, rfl, -, hmem, hstart, hend, hpool⟩
      · exact absurd hzero hp
      · have hpage := h.pool.page p (by simp)
        have hfresh : p ∉ used := h.apart p (by simp)
        refine ⟨rest, hpool, ⟨hstart.trans h.bounds.1, hend.trans h.bounds.2⟩, fun q hq => ?_,
          fun q hq => ?_, fun q => ?_, ?_⟩
        · rcases Finset.mem_insert.mp hq with rfl | hq'
          · exact hpage.of_bounds hstart hend
          · exact (h.used q hq').of_bounds hstart hend
        · have hne : q ≠ p := fun heq => (List.nodup_cons.mp h.pool.nodup).1 (heq ▸ hq)
          simp only [Finset.mem_insert, hne, false_or]
          exact h.apart q (by simp [hq])
        · rw [h.all q, List.mem_cons, Finset.mem_insert]
          exact ⟨fun hq => hq.elim (fun hq => hq.elim (fun hq => .inr (.inl hq)) .inl)
            fun hq => .inr (.inr hq), fun hq => hq.elim (fun hq => .inl (.inr hq))
            fun hq => hq.elim (fun hq => .inl (.inl hq)) .inr⟩
        · have hcount := h.count
          rw [Finset.card_insert_of_notMem hfresh]
          simp only [List.length_cons] at hcount
          omega
  | @allocNull s s' used hrun =>
      have hpost : Post allocPage s _ fun _ => True := allocPage_post h.pool
      rcases hpost.of_ok hrun with ⟨-, -, rfl⟩ | ⟨rest, rfl, hne, -⟩
      · exact ⟨l, h⟩
      · exact absurd rfl hne
  | @free s s' used p hp hrun =>
      have hnew : p ∉ l := fun hmem => h.apart p hmem hp
      have hpost : Post (freePage p) s _ fun _ => True := freePage_post h.pool (h.used p hp) hnew
      obtain ⟨-, hstart, hend, hpool⟩ := hpost.of_ok hrun
      refine ⟨p :: l, hpool, ⟨hstart.trans h.bounds.1, hend.trans h.bounds.2⟩, fun q hq => ?_,
        fun q hq => ?_, fun q => ?_, ?_⟩
      · exact (h.used q (Finset.mem_of_mem_erase hq)).of_bounds hstart hend
      · rcases List.mem_cons.mp hq with rfl | hq'
        · exact Finset.notMem_erase _ _
        · exact fun hmem => h.apart q hq' (Finset.mem_of_mem_erase hmem)
      · rw [h.all q, List.mem_cons, Finset.mem_erase]
        rcases eq_or_ne q p with rfl | hne
        · simp [hp]
        · simp [hne]
      · have hcount := h.count
        have hpos := Finset.card_pos.mpr ⟨p, hp⟩
        rw [Finset.card_erase_of_mem hp, List.length_cons]
        dsimp only at hcount
        omega
  | @write s used m hm =>
      exact ⟨l, h.pool.frame fun p hp => samePage_of_write hm (h.pool.page p hp).1 (h.apart p hp),
        h.bounds, h.used, h.apart, h.all, h.count⟩

theorem Balanced.run {pages : List Nat} {c c' : Clients} (h : Balanced pages start fin c l)
    (hrun : Reaches ClientStep c c') : ∃ l', Balanced pages start fin c' l' :=
  hrun.invariant (I := fun c => ∃ l, Balanced pages start fin c l) ⟨l, h⟩
    fun _ _ ⟨_, h⟩ hs => h.step hs

/-- The pages there are after `pmm_init`. -/
def managed (s : Phys) : List Nat :=
  pagesFrom s.freeMemStart (pageCount s.freeMemStart s.freeMemEnd)

theorem pmmInit_balanced {kernelEnd memSize : Nat} {s0 : Phys}
    (hinit : pmmInit kernelEnd memSize s = .ok ((), s0)) :
    Balanced s0.managed s0.freeMemStart s0.freeMemEnd (s0, ∅) s0.managed := by
  obtain ⟨-, -, hpool⟩ := (pmmInit_post kernelEnd memSize s).of_ok hinit
  exact ⟨hpool, ⟨rfl, rfl⟩, by simp, by simp, by simp, by simp⟩

/-- What the clients of the allocator rely on. -/
structure AllocSafe (s0 s : Phys) (used : Finset Nat) : Prop where
  alloc : ∀ p s', allocPage s = .ok (p, s') → p ≠ 0 →
    p ∉ used ∧ p % pgSize = 0 ∧ s0.freeMemStart ≤ p ∧ p < s0.freeMemEnd
  null : ∀ s', allocPage s = .ok (0, s') → ∀ p, p ∈ s0.managed ↔ p ∈ used
  free : ∀ p ∈ used, ∃ s', freePage p s = .ok ((), s')
  count : ∃ l, Linked (nextPage s.mem) (ptr? s.gFreeMemList) l ∧
    used.card + l.length = s0.managed.length

theorem Balanced.safe {s0 : Phys} {used : Finset Nat}
    (h : Balanced s0.managed s0.freeMemStart s0.freeMemEnd (s, used) l) : AllocSafe s0 s used where
  alloc p s' hrun hp := by
    have hpost : Post allocPage s _ fun _ => True := allocPage_post h.pool
    rcases hpost.of_ok hrun with ⟨hzero, -, -⟩ | ⟨rest, rfl, -⟩
    · exact absurd hzero hp
    · obtain ⟨hmod, hlo, hhi⟩ := h.pool.page p (by simp)
      obtain ⟨hstart, hend⟩ := h.bounds
      dsimp only at hstart hend hlo hhi
      exact ⟨h.apart p (by simp), hmod, hstart ▸ hlo, hend ▸ hhi⟩
  null s' hrun p := by
    have hpost : Post allocPage s _ fun _ => True := allocPage_post h.pool
    rcases hpost.of_ok hrun with ⟨-, rfl, -⟩ | ⟨rest, rfl, hne, -⟩
    · simpa using h.all p
    · exact absurd rfl hne
  free p hp := by
    have hpost : Post (freePage p) s _ fun _ => False :=
      freePage_post h.pool (h.used p hp) fun hmem => h.apart p hmem hp
    cases hrun : freePage p s with
    | ok r => exact ⟨r.2, rfl⟩
    | error e => exact (hpost.of_error hrun).elim
  count := ⟨l, h.pool.list, h.count⟩

theorem alloc_safe {kernelEnd memSize : Nat} {s s0 : Phys} {c : Clients}
    (hinit : pmmInit kernelEnd memSize s = .ok ((), s0))
    (hrun : Reaches ClientStep (s0, ∅) c) : AllocSafe s0 c.1 c.2 := by
  obtain ⟨l, h⟩ := (pmmInit_balanced hinit).run hrun
  exact h.safe

/-- Two pages are taken, the first is filled and given back, and one is taken again. -/
def takeTwo : PhysM (Nat × Nat × Nat) := do
  let p ← allocPage
  let q ← allocPage
  modify fun s => { s with mem := fun a => if roundDown a pgSize = p then 255 else s.mem a }
  freePage p
  let r ← allocPage
  pure (p, q, r)

/-- On a machine with eight pages after a kernel of one page, the page that was given back is
taken again, whatever was written into it. -/
theorem alloc_safe_reused : ∃ s0 s p q, p ≠ q ∧
    pmmInit (kernBase + 4096) 36864 ⟨fun _ => 0, 0, 0, 0⟩ = .ok ((), s0) ∧
    Reaches ClientStep (s0, ∅) (s, {p, q}) ∧ AllocSafe s0 s {p, q} := by
  have hvals : ((pmmInit (kernBase + 4096) 36864 >>= fun _ => takeTwo)
      ⟨fun _ => 0, 0, 0, 0⟩).toOption.map Prod.fst =
      some (kernBase + 28672, kernBase + 24576, kernBase + 28672) := by decide +kernel
  cases hrun : (pmmInit (kernBase + 4096) 36864 >>= fun _ => takeTwo) ⟨fun _ => 0, 0, 0, 0⟩ with
  | error e =>
      rw [hrun] at hvals
      cases hvals
  | ok r =>
      rw [hrun] at hvals
      obtain ⟨⟨⟩, s0, hinit, hrun⟩ := Exec.bind_ok hrun
      obtain ⟨p, s1, halloc, hrun⟩ := Exec.bind_ok hrun
      obtain ⟨q, s2, halloc', hrun⟩ := Exec.bind_ok hrun
      obtain ⟨⟨⟩, s3, hwrite, hrun⟩ := Exec.bind_ok hrun
      obtain ⟨⟨⟩, s4, hfree, hrun⟩ := Exec.bind_ok hrun
      obtain ⟨p', s5, hagain, hrun⟩ := Exec.bind_ok hrun
      have hr : ((p, q, p'), s5) = r := Except.ok.inj hrun
      rw [← hr] at hvals
      obtain ⟨rfl, rfl, rfl⟩ : p = kernBase + 28672 ∧ q = kernBase + 24576 ∧
          p' = kernBase + 28672 := by simpa [Except.toOption] using hvals
      have hfill : ClientStep (s2, {kernBase + 24576, kernBase + 28672})
          (s3, {kernBase + 24576, kernBase + 28672}) := by
        rw [← (Prod.mk.inj (Except.ok.inj hwrite)).2]
        exact .write fun a ha => if_neg fun heq => ha (by simp [heq])
      have htaken : Reaches ClientStep (s0, ∅) (s2, {kernBase + 24576, kernBase + 28672}) :=
        .tail (.tail .refl (.alloc halloc (by decide))) (.alloc halloc' (by decide))
      have hreach : Reaches ClientStep (s0, ∅) (s5, {kernBase + 28672, kernBase + 24576}) :=
        ((htaken.tail hfill).tail (.free (by decide) hfree)).tail (.alloc hagain (by decide))
      exact ⟨s0, s5, _, _, by decide, hinit, hreach, alloc_safe hinit hreach⟩

end Phys

end Pke
