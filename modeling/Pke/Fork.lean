import Pke.Image

/-!
# What `do_fork` does to memory

`do_fork` makes a new process and then goes through the regions of the
parent. `ForkStep` is what one region does to memory, as a relation between
page tables and data, and `Forks` what all of them do; the functions of the
model refine it (`doFork_forks`). What is asked of a fork is then a question
about `Forks`, without the machine.
-/

namespace Pke

open Machine (protRW protRX Unused)

/-- The pages `user_vm_map` maps for a code region at `va`. -/
def CodePage (va n : Nat) : Prop :=
  roundDown va pgSize ≤ n * pgSize ∧ n * pgSize ≤ roundDown (va + pgSize - 1) pgSize

instance (va n : Nat) : Decidable (CodePage va n) := inferInstanceAs (Decidable (_ ∧ _))

/-- The entry of the page `n` that is mapped for a code region at `va`. -/
def codePte (pa va n : Nat) : Nat :=
  Phys.leafPte ((pa + (n * pgSize - roundDown va pgSize)) % 2 ^ 64) (protToType protRX true)

variable {va src i : Nat} {r : MappedRegion} {k : Machine} {parent : Pid}

namespace Paging

/-- The page `src` is copied to the page `p`, which is mapped at `n`. -/
def copyTo (P : Paging) (c n p src : Nat) : Paging :=
  (P.use p fun i => P.bytes (src + i)).map c n (stackPte p)

/-- The pages of a code region at `va` are mapped. -/
def mapCode (P : Paging) (c va pa : Nat) : Paging :=
  P.mapRange c (roundDown va pgSize) (roundDown (va + pgSize - 1) pgSize) pa (protToType protRX true)

/-- The pages `ns` of the table `d` are copied for the table `c`. -/
inductive HeapCopy (d c : Nat) : List Nat → Paging → Paging → Prop
  | nil {P : Paging} : HeapCopy d c [] P P
  | cons {P P' : Paging} {n p : Nat} {ns : List Nat} : Unused P p → P.entries c n = none →
      P.lookup d (n * pgSize) ≠ 0 → HeapCopy d c ns (P.copyTo c n p (P.lookup d (n * pgSize))) P' →
      HeapCopy d c (n :: ns) P P'

/-- What the region `r` of a process with the table `d` does to its child with the table `c`. Of the
heap the pages `ns` are copied. -/
inductive ForkStep (d c : Nat) (ns : List Nat) (r : MappedRegion) : Paging → Paging → Prop
  | skip {P : Paging} : r.segType = .context ∨ r.segType = .system ∨ r.segType = .data →
      ForkStep d c ns r P P
  | stack {P : Paging} : r.segType = .stack → P.lookup d r.va ≠ 0 → ForkStep d c ns r P
      (P.copy (P.lookup c (userStackTop - pgSize)) pgSize fun i => P.bytes (P.lookup d r.va + i))
  | heap {P P' : Paging} : r.segType = .heap → HeapCopy d c ns P P' → ForkStep d c ns r P P'
  | code {P : Paging} : r.segType = .code → P.lookup d r.va ≠ 0 →
      (∀ n, CodePage r.va n → P.entries c n = none) →
      ForkStep d c ns r P (P.mapCode c r.va (P.lookup d r.va))

inductive Forks (d c : Nat) (ns : List Nat) : List MappedRegion → Paging → Paging → Prop
  | nil {P : Paging} : Forks d c ns [] P P
  | cons {P P1 P' : Paging} {r : MappedRegion} {rs : List MappedRegion} : ForkStep d c ns r P P1 →
      Forks d c ns rs P1 P' → Forks d c ns (r :: rs) P P'

/-- What is needed to copy the pages of the table `d` for the table `c`, whose stack is `us`. -/
structure Forkable (P : Paging) (d c us : Nat) : Prop where
  parent : d ∈ P.dirs
  child : c ∈ P.dirs
  ne : d ≠ c
  data : ∀ n e, P.entries d n = some e → pte2pa e ∈ P.data
  apart : ∀ n e, P.entries d n = some e → pte2pa e ≠ us
  stack : P.entries c stackPage = some (stackPte us)
  mem : us ∈ P.data
  page : us % pgSize = 0
  lt : us < 2 ^ 64

variable {P P' : Paging} {d c us n p : Nat} {ns : List Nat} {r : MappedRegion} {rs : List MappedRegion}

theorem Forkable.mem_of_lookup (h : Forkable P d c us) (hne : P.lookup d va ≠ 0) :
    va < maxVA ∧ P.lookup d va ∈ P.data ∧ P.lookup d va % pgSize = 0 ∧ P.lookup d va ≠ us := by
  obtain ⟨hva, e, he, hpa⟩ := exists_of_lookup rfl hne
  rw [hpa]
  exact ⟨hva, h.data _ e he, pte2pa_page e, h.apart _ e he⟩

theorem Forkable.pte2pa_stack (h : Forkable P d c us) : pte2pa (stackPte us) = us :=
  Phys.pte2pa_leafPte (by decide) h.page h.lt

theorem Forkable.lookup_stack (h : Forkable P d c us) : P.lookup c (userStackTop - pgSize) = us := by
  have hR : stackPte us &&& pteR = protToType protRW true &&& pteR :=
    Phys.leafPte_bit (i := 1) (by decide) (by decide) (by decide)
  rw [lookup, if_neg (by decide), show (userStackTop - pgSize) / pgSize = stackPage from rfl, h.stack]
  dsimp only
  rw [if_neg (fun hzero => absurd (hR.symm.trans hzero.1) (by decide)), h.pte2pa_stack]

/-! ## What a fork keeps -/

/-- The table `c` has grown, and nothing else has changed but the page `us`. -/
structure Above (c us : Nat) (P P' : Paging) : Prop where
  dirs : P'.dirs = P.dirs
  other : ∀ d ≠ c, P'.entries d = P.entries d
  mono : ∀ n e, P.entries c n = some e → P'.entries c n = some e
  data : P.data ⊆ P'.data
  bytes : ∀ q ∈ P.data, q % pgSize = 0 → q ≠ us → Phys.SamePage P.bytes P'.bytes q
  source : P'.source = P.source
  pages : P'.pages = P.pages

theorem Above.refl : Above c us P P :=
  ⟨rfl, fun _ _ => rfl, fun _ _ h => h, subset_rfl, fun _ _ _ _ _ _ => rfl, rfl, rfl⟩

theorem Above.trans {P'' : Paging} (h : Above c us P P') (h' : Above c us P' P'') :
    Above c us P P'' where
  dirs := h'.dirs.trans h.dirs
  other d hd := (h'.other d hd).trans (h.other d hd)
  mono n e he := h'.mono n e (h.mono n e he)
  data := h.data.trans h'.data
  bytes q hq hpage hne := (h.bytes q hq hpage hne).trans (h'.bytes q (h.data hq) hpage hne)
  source := h'.source.trans h.source
  pages := h'.pages.trans h.pages

theorem Above.lookup (h : Above c us P P') (hne : d ≠ c) (va : Nat) :
    P'.lookup d va = P.lookup d va := by
  simp only [Paging.lookup, h.other d hne]

theorem Forkable.above (hf : Forkable P d c us) (h : Above c us P P') : Forkable P' d c us where
  parent := h.dirs ▸ hf.parent
  child := h.dirs ▸ hf.child
  ne := hf.ne
  data n e he := by
    rw [h.other d hf.ne] at he
    exact h.data (hf.data n e he)
  apart n e he := by
    rw [h.other d hf.ne] at he
    exact hf.apart n e he
  stack := h.mono _ _ hf.stack
  mem := h.data hf.mem
  page := hf.page
  lt := hf.lt

@[simp] theorem copyTo_bytes :
    (P.copyTo c n p src).bytes = memcpy P.bytes p pgSize fun i => P.bytes (src + i) := rfl

@[simp] theorem copy_bytes {a len : Nat} {src : Nat → UInt8} :
    (P.copy a len src).bytes = memcpy P.bytes a len src := rfl

theorem mapCode_entries {pa : Nat} : (P.mapCode c va pa).entries c n =
    if CodePage va n then some (codePte pa va n) else P.entries c n := mapRange_entries

theorem above_copyTo (hp : Unused P p) (hn : P.entries c n = none) :
    Above c us P (P.copyTo c n p src) where
  dirs := rfl
  other d hd := map_entries_ne hd
  mono m e he := by
    have hne : m ≠ n := ne_of_none hn he
    rw [copyTo, map_entries, if_neg hne]
    exact he
  data := Set.subset_insert p P.data
  bytes q hq hpage _ := by
    rw [copyTo_bytes]
    exact samePage_page hp.page hpage fun heq => hp.notMem (heq ▸ hq)
  source := rfl
  pages := rfl

theorem HeapCopy.above (h : HeapCopy d c ns P P') : Above c us P P' := by
  induction h with
  | nil => exact .refl
  | cons hp hn _ _ ih => exact (above_copyTo hp hn).trans ih

theorem ForkStep.above (hf : Forkable P d c us) (h : ForkStep d c ns r P P') : Above c us P P' := by
  cases h with
  | skip _ => exact .refl
  | stack _ _ =>
      rw [hf.lookup_stack]
      refine ⟨rfl, fun _ _ => rfl, fun _ _ h => h, subset_rfl, fun q _ hpage hne => ?_, rfl, rfl⟩
      rw [copy_bytes]
      exact samePage_page hf.page hpage hne
  | heap _ hcopy => exact hcopy.above
  | code _ _ hfresh =>
      refine ⟨rfl, fun d hd => mapRange_entries_ne hd, fun n e he => ?_, subset_rfl,
        fun _ _ _ _ _ _ => rfl, rfl, rfl⟩
      rw [mapCode_entries, if_neg]
      · exact he
      · intro hn
        rw [hfresh n hn] at he
        cases he

theorem Forks.above (hf : Forkable P d c us) (h : Forks d c ns rs P P') : Above c us P P' := by
  induction h with
  | nil => exact .refl
  | cons hstep _ ih =>
      have habove := hstep.above hf
      exact habove.trans (ih (hf.above habove))

/-- A page of the parent keeps its bytes. -/
theorem Above.bytes_lookup (h : Above c us P P') (hf : Forkable P d c us) (hne : P.lookup d va ≠ 0)
    (hi : i < pgSize) : P'.bytes (P.lookup d va + i) = P.bytes (P.lookup d va + i) := by
  obtain ⟨-, hmem, hpage, hus⟩ := hf.mem_of_lookup hne
  exact h.bytes _ hmem hpage hus i hi

/-! ## The pages of the child -/

/-- The page `n` of the child is its own, with the bytes the parent has there. -/
structure Copied (P P' : Paging) (d c n p : Nat) : Prop where
  entry : P'.entries c n = some (stackPte p)
  page : p % pgSize = 0
  lt : p < 2 ^ 64
  new : p ∉ P.data
  source : p ∈ P.source
  mem : p ∈ P'.data
  src : P.lookup d (n * pgSize) ≠ 0
  bytes : ∀ i < pgSize, P'.bytes (p + i) = P.bytes (P.lookup d (n * pgSize) + i)

theorem Copied.above {P1 : Paging} (h : Copied P P1 d c n p) (hf : Forkable P d c us)
    (h' : Above c us P1 P') : Copied P P' d c n p where
  entry := h'.mono _ _ h.entry
  page := h.page
  lt := h.lt
  new := h.new
  source := h.source
  mem := h'.data h.mem
  src := h.src
  bytes i hi := by
    rw [h'.bytes p h.mem h.page (fun heq => h.new (heq ▸ hf.mem)) i hi]
    exact h.bytes i hi

theorem Copied.below {P1 : Paging} (h : Copied P1 P' d c n p) (hf : Forkable P d c us)
    (h' : Above c us P P1) : Copied P P' d c n p := by
  obtain ⟨hentry, hpage, hlt, hnew, hsource, hmem, hsrc, hbytes⟩ := h
  rw [h'.lookup hf.ne] at hsrc hbytes
  exact ⟨hentry, hpage, hlt, fun hp => hnew (h'.data hp), h'.source ▸ hsource, hmem, hsrc,
    fun i hi => (hbytes i hi).trans (h'.bytes_lookup hf hsrc hi)⟩

/-- The first page of a list. -/
theorem HeapCopy.copied_head (hf : Forkable P d c us) (hp : Unused P p)
    (hsrc : P.lookup d (n * pgSize) ≠ 0)
    (hrest : HeapCopy d c ns (P.copyTo c n p (P.lookup d (n * pgSize))) P') :
    Copied P P' d c n p := by
  have hrest' : Above c us _ P' := hrest.above
  have hus : p ≠ us := fun heq => hp.notMem (heq ▸ hf.mem)
  have hmem : p ∈ (P.copyTo c n p (P.lookup d (n * pgSize))).data := Set.mem_insert p _
  refine ⟨hrest'.mono _ _ ?_, hp.page, hp.lt, hp.notMem, hp.source, hrest'.data hmem, hsrc,
    fun i hi => ?_⟩
  · rw [copyTo, map_entries, if_pos rfl]
  · rw [hrest'.bytes p hmem hp.page hus i hi, copyTo_bytes]
    exact Phys.memcpy_page hi

theorem HeapCopy.copied (h : HeapCopy d c ns P P') (hf : Forkable P d c us) (hn : n ∈ ns) :
    ∃ p, Copied P P' d c n p := by
  induction h with
  | nil => cases hn
  | cons hp hnone hsrc hrest ih =>
      rename_i P P' k p ns
      rcases List.mem_cons.mp hn with rfl | hn
      · exact ⟨p, copied_head hf hp hsrc hrest⟩
      · have habove : Above c us P (P.copyTo c k p (P.lookup d (k * pgSize))) := above_copyTo hp hnone
        obtain ⟨q, hq⟩ := ih (hf.above habove) hn
        exact ⟨q, hq.below hf habove⟩

/-- Different pages are copied to different pages. -/
theorem HeapCopy.apart {m : Nat} (h : HeapCopy d c ns P P') (hf : Forkable P d c us) (hn : n ∈ ns)
    (hm : m ∈ ns) (hne : n ≠ m) : ∃ p q, Copied P P' d c n p ∧ Copied P P' d c m q ∧ p ≠ q := by
  induction h with
  | nil => cases hn
  | cons hp hnone hsrc hrest ih =>
      rename_i P P' k p ns
      have habove : Above c us P (P.copyTo c k p (P.lookup d (k * pgSize))) := above_copyTo hp hnone
      have hf' := hf.above habove
      have hhead := copied_head hf hp hsrc hrest
      -- a page that is copied later is not the page `p`, which is data by then
      have hlater : ∀ {x}, x ∈ ns → ∃ q, Copied P P' d c x q ∧ p ≠ q := fun hx => by
        obtain ⟨q, hq⟩ := hrest.copied hf' hx
        exact ⟨q, hq.below hf habove, fun heq => hq.new (heq ▸ Set.mem_insert p _)⟩
      rcases List.mem_cons.mp hn with rfl | hn'
      · obtain ⟨q, hq, hpq⟩ := hlater ((List.mem_cons.mp hm).resolve_left hne.symm)
        exact ⟨p, q, hhead, hq, hpq⟩
      rcases List.mem_cons.mp hm with rfl | hm'
      · obtain ⟨q, hq, hpq⟩ := hlater hn'
        exact ⟨q, p, hq, hhead, hpq.symm⟩
      · obtain ⟨q, q', hq, hq', hqq⟩ := ih hf' hn' hm'
        exact ⟨q, q', hq.below hf habove, hq'.below hf habove, hqq⟩

/-- The step for one of the regions. -/
theorem Forks.stepAt (h : Forks d c ns rs P P') (hf : Forkable P d c us) (hr : r ∈ rs) :
    ∃ P1 P2, Above c us P P1 ∧ ForkStep d c ns r P1 P2 ∧ Above c us P2 P' := by
  induction h with
  | nil => cases hr
  | cons hstep hrest ih =>
      have habove := hstep.above hf
      rcases List.mem_cons.mp hr with rfl | hr
      · exact ⟨_, _, .refl, hstep, hrest.above (hf.above habove)⟩
      · obtain ⟨P1, P2, hbefore, hat, hafter⟩ := ih (hf.above habove) hr
        exact ⟨P1, P2, habove.trans hbefore, hat, hafter⟩

theorem ForkStep.heapCopy (h : ForkStep d c ns r P P') (hheap : r.segType = .heap) :
    HeapCopy d c ns P P' := by
  cases h with
  | heap _ hcopy => exact hcopy
  | skip hother => rw [hheap] at hother; simp at hother
  | stack hother => rw [hheap] at hother; cases hother
  | code hother => rw [hheap] at hother; cases hother

/-- The pages of the heap are copied, each to a page of its own. -/
theorem Forks.copied (h : Forks d c ns rs P P') (hf : Forkable P d c us) (hr : r ∈ rs)
    (hheap : r.segType = .heap) (hn : n ∈ ns) : ∃ p, Copied P P' d c n p := by
  obtain ⟨P1, P2, hbefore, hat, hafter⟩ := h.stepAt hf hr
  obtain ⟨p, hp⟩ := (hat.heapCopy hheap).copied (hf.above hbefore) hn
  exact ⟨p, (hp.above (hf.above hbefore) hafter).below hf hbefore⟩

theorem Forks.apart {m : Nat} (h : Forks d c ns rs P P') (hf : Forkable P d c us) (hr : r ∈ rs)
    (hheap : r.segType = .heap) (hn : n ∈ ns) (hm : m ∈ ns) (hne : n ≠ m) :
    ∃ p q, Copied P P' d c n p ∧ Copied P P' d c m q ∧ p ≠ q := by
  obtain ⟨P1, P2, hbefore, hat, hafter⟩ := h.stepAt hf hr
  have hf1 := hf.above hbefore
  obtain ⟨p, q, hp, hq, hpq⟩ := (hat.heapCopy hheap).apart hf1 hn hm hne
  exact ⟨p, q, (hp.above hf1 hafter).below hf hbefore, (hq.above hf1 hafter).below hf hbefore, hpq⟩

/-- A page of a code region is mapped to the page of the parent that has the same distance from the
beginning of the region. -/
theorem Forks.code (h : Forks d c ns rs P P') (hf : Forkable P d c us) (hr : r ∈ rs)
    (hcode : r.segType = .code) (hn : CodePage r.va n) :
    P.lookup d r.va ≠ 0 ∧ P.entries c n = none ∧
      P'.entries c n = some (codePte (P.lookup d r.va) r.va n) := by
  obtain ⟨P1, P2, hbefore, hat, hafter⟩ := h.stepAt hf hr
  rw [← hbefore.lookup hf.ne]
  cases hat with
  | code _ hpa hfresh =>
      refine ⟨hpa, ?_, hafter.mono _ _ ?_⟩
      · -- an entry of the child that was there before would still be there
        by_contra hsome
        obtain ⟨e, he⟩ := Option.ne_none_iff_exists'.mp hsome
        cases (hbefore.mono n e he).symm.trans (hfresh n hn)
      · rw [mapCode_entries, if_pos hn]
  | skip hother => rw [hcode] at hother; simp at hother
  | stack hother => rw [hcode] at hother; cases hother
  | heap hother => rw [hcode] at hother; cases hother

theorem HeapCopy.entry_eq (h : HeapCopy d c ns P P') (hn : n ∉ ns) : P'.entries c n = P.entries c n := by
  induction h with
  | nil => rfl
  | cons _ _ _ _ ih =>
      rw [List.mem_cons, not_or] at hn
      rw [ih hn.2, copyTo, map_entries, if_neg hn.1]
      rfl

/-- The other pages of the child are those of a new process. -/
theorem Forks.entry_eq (h : Forks d c ns rs P P') (hn : n ∉ ns)
    (hcode : ∀ r ∈ rs, r.segType = .code → ¬CodePage r.va n) : P'.entries c n = P.entries c n := by
  induction h with
  | nil => rfl
  | cons hstep _ ih =>
      rw [ih fun r hr => hcode r (List.mem_cons_of_mem _ hr)]
      cases hstep with
      | skip _ => rfl
      | stack _ _ => rfl
      | heap _ hcopy => exact hcopy.entry_eq hn
      | code htype _ _ =>
          rw [mapCode_entries, if_neg]
          exact hcode _ (List.mem_cons_self ..) htype

/-- Nothing else becomes data when no page of the heap is copied. -/
theorem Forks.data_eq (h : Forks d c [] rs P P') : P'.data = P.data := by
  induction h with
  | nil => rfl
  | cons hstep _ ih =>
      rw [ih]
      cases hstep with
      | heap _ hcopy =>
          cases hcopy
          rfl
      | _ => rfl

/-! ## The stack of the child -/

theorem HeapCopy.stack_eq (h : HeapCopy d c ns P P') (hf : Forkable P d c us) :
    Phys.SamePage P.bytes P'.bytes us := by
  induction h with
  | nil => exact fun _ _ => rfl
  | cons hp hn _ _ ih =>
      have hus := hf.mem
      refine Phys.SamePage.trans ?_ (ih (hf.above (above_copyTo hp hn)))
      rw [copyTo_bytes]
      exact samePage_page hp.page hf.page fun heq => hp.notMem (heq ▸ hus)

theorem Forks.stack_eq (h : Forks d c ns rs P P') (hf : Forkable P d c us)
    (hrs : ∀ r ∈ rs, r.segType ≠ .stack) : Phys.SamePage P.bytes P'.bytes us := by
  induction h with
  | nil => exact fun _ _ => rfl
  | cons hstep _ ih =>
      refine Phys.SamePage.trans ?_ (ih (hf.above (hstep.above hf))
        fun r hr => hrs r (List.mem_cons_of_mem _ hr))
      cases hstep with
      | skip _ => exact fun _ _ => rfl
      | stack htype _ => exact absurd htype (hrs _ (List.mem_cons_self ..))
      | heap _ hcopy => exact hcopy.stack_eq hf
      | code _ _ _ => exact fun _ _ => rfl

/-- The last of the regions that are taken for a stack. -/
def lastStack : List MappedRegion → Option MappedRegion
  | [] => none
  | r :: rs => (lastStack rs).or (if r.segType = .stack then some r else none)

theorem lastStack_none : ∀ {rs : List MappedRegion}, lastStack rs = none →
    ∀ r ∈ rs, r.segType ≠ .stack
  | [], _ => nofun
  | r :: rs, h => by
      simp only [lastStack, Option.or_eq_none_iff, ite_eq_right_iff, reduceCtorEq, imp_false] at h
      exact List.forall_mem_cons.mpr ⟨h.2, lastStack_none h.1⟩

/-- The stack of the child is the page of the parent at that region. -/
theorem Forks.stack (h : Forks d c ns rs P P') (hf : Forkable P d c us) (hlast : lastStack rs = some r) :
    P.lookup d r.va ≠ 0 ∧ ∀ i < pgSize, P'.bytes (us + i) = P.bytes (P.lookup d r.va + i) := by
  induction h with
  | nil => cases hlast
  | cons hstep hrest ih =>
      have habove := hstep.above hf
      rw [lastStack] at hlast
      cases hrs : lastStack _ with
      | some r' =>
          rw [hrs, Option.some_or] at hlast
          obtain ⟨hne, hbytes⟩ := ih (hf.above habove) (hrs.trans hlast)
          rw [habove.lookup hf.ne] at hne hbytes
          exact ⟨hne, fun i hi => (hbytes i hi).trans (habove.bytes_lookup hf hne hi)⟩
      | none =>
          rw [hrs, Option.none_or, Option.ite_none_right_eq_some] at hlast
          obtain ⟨htype, hreq⟩ := hlast
          obtain rfl := Option.some.inj hreq
          have hkept := hrest.stack_eq (hf.above habove) (lastStack_none hrs)
          cases hstep with
          | stack _ hne =>
              refine ⟨hne, fun i hi => (hkept i hi).trans ?_⟩
              rw [hf.lookup_stack, copy_bytes]
              exact Phys.memcpy_page hi
          | skip hother => rw [htype] at hother; simp at hother
          | heap hother => rw [htype] at hother; cases hother
          | code hother => rw [htype] at hother; cases hother

end Paging

namespace Machine

open Exec (Post get modify)
open Paging (Forkable HeapCopy ForkStep Forks)

/-! ## The functions of the model -/

section

variable {P : Paging} {hs : List Nat} {F : Machine → Prop} {p d us : Nat} {k0 : Machine}
  {parent child : Pid} {q : Process} {c : Prop}

/-- What is read from memory is what the data pages hold. -/
theorem memcpy_data {s : Phys} {l : List Nat} {dest : Nat} (h : s.Refines l P hs)
    (hsrc : src ∈ P.data) : Pke.memcpy s.mem dest pgSize (fun i => s.mem (src + i)) =
      Pke.memcpy s.mem dest pgSize fun i => P.bytes (src + i) := by
  funext a
  unfold Pke.memcpy
  split
  · rename_i hin
    exact (h.data src hsrc).2 _ (by omega)
  · rfl

/-- A data page is copied to a page that has been taken. -/
theorem pages_copyNew (hF : Stable F) (hsrc : ∀ k, F k → src ≠ 0 → src ∈ P.data) :
    Triple (Pages P (p :: hs) F) (memcpy p src pgSize) fun _ =>
      Pages (P.use p fun i => P.bytes (src + i)) hs fun k => F k ∧ Unused P p ∧ src ≠ 0 := by
  refine .bind triple_access fun _ => .bind triple_access fun _ => .inPhys fun k hk => .modify ?_
  obtain ⟨⟨hk, -⟩, hne⟩ := hk
  have hp := hk.held (List.mem_cons_self ..)
  obtain ⟨⟨l, h⟩, hFk⟩ := hk
  have hpage := (h.held p (by simp)).1.page
  rw [memcpy_data h (hsrc k hFk hne)]
  have hwrite := h.write (m := Pke.memcpy k.phys.mem p pgSize fun i => P.bytes (src + i)) (by simp)
    fun q hq hne => samePage_page hpage hq hne
  have hbytes : ∀ i < pgSize, Pke.memcpy k.phys.mem p pgSize (fun i => P.bytes (src + i)) (p + i) =
      P.bytes (src + i) := fun i hi => Phys.memcpy_page hi
  exact ⟨⟨l, hwrite.use hbytes⟩, hF k _ k.oom hFk, ⟨hp.1, hp.2.1, (h.held p (by simp)).2.1,
    h.source p (.inr (by simp))⟩, hne⟩

/-- A data page is copied to another. -/
theorem pages_copyData (hF : Stable F) {dest : Nat} (hdest : ∀ k, F k → dest ∈ P.data)
    (hsrc : ∀ k, F k → src ≠ 0 → src ∈ P.data) :
    Triple (Pages P hs F) (memcpy dest src pgSize) fun _ =>
      Pages (P.copy dest pgSize fun i => P.bytes (src + i)) hs fun k => F k ∧ src ≠ 0 := by
  refine .bind triple_access fun _ => .bind triple_access fun _ => .inPhys fun k hk => .modify ?_
  obtain ⟨⟨⟨⟨l, h⟩, hFk⟩, -⟩, hne⟩ := hk
  rw [memcpy_data h (hsrc k hFk hne)]
  have hcopy : Phys.Refines { k.phys with mem := Pke.memcpy k.phys.mem (dest + 0) pgSize _ } l
      (P.copy (dest + 0) pgSize fun i => P.bytes (src + i)) hs :=
    h.copy (hdest k hFk) (Nat.zero_add _).le
  exact ⟨⟨l, hcopy⟩, hF k _ k.oom hFk, hne⟩

/-- The state that is read has the record. -/
theorem pages_bindGet {α : Type} {f : Machine → ProcM α} {Q : α → Machine → Prop}
    (h : ∀ k1, Triple (Pages P hs (Rec k0 child q (c ∧ OneRec k0 k1 child q))) (f k1) Q) :
    Triple (Pages P hs (Rec k0 child q c)) (get >>= f) Q := by
  refine .bindGet fun k1 => (h k1).mono ?_ fun _ _ h => h
  rintro k ⟨hk, rfl⟩
  exact hk.imp fun hrec => ⟨hrec.1, hrec.2, hrec.1⟩

/-- The marks of `free_block_filter` for the free pages from the `i`-th on. -/
def markFrom (heap : HeapManager) (i n : Nat) (filter : Fin 32 → Int) : Fin 32 → Int := fun x =>
  if ∃ j : Fin 32, i ≤ j ∧ j < i + n ∧
    sub64 (heap.freePagesAddress j) heap.heapBottom / pgSize = x then 1 else filter x

theorem markFrom_zero (heap : HeapManager) (i : Nat) (filter : Fin 32 → Int) :
    markFrom heap i 0 filter = filter := by
  funext x
  exact if_neg fun ⟨j, hle, hlt, _⟩ => by omega

theorem markFrom_succ {heap : HeapManager} {n : Nat} {filter : Fin 32 → Int} (hi : i < 32)
    (hx : sub64 (heap.freePagesAddress ⟨i, hi⟩) heap.heapBottom / pgSize < 32) :
    markFrom heap (i + 1) n (upd filter ⟨_, hx⟩ 1) = markFrom heap i (n + 1) filter := by
  funext x
  unfold markFrom
  by_cases hrest : ∃ j : Fin 32, i + 1 ≤ j ∧ j < i + 1 + n ∧
      sub64 (heap.freePagesAddress j) heap.heapBottom / pgSize = x
  · obtain ⟨j, hle, hlt, heq⟩ := hrest
    rw [if_pos ⟨j, hle, hlt, heq⟩, if_pos ⟨j, by omega, by omega, heq⟩]
  · rw [if_neg hrest]
    by_cases hself : x = ⟨_, hx⟩
    · rw [hself, upd_self, if_pos ⟨⟨i, hi⟩, le_rfl, by simp, rfl⟩]
    · rw [upd_ne hself, if_neg]
      rintro ⟨j, hle, hlt, heq⟩
      by_cases hj : j.val = i
      · obtain rfl : j = ⟨i, hi⟩ := Fin.ext hj
        exact hself (Fin.ext heq.symm)
      · exact hrest ⟨j, by omega, by omega, heq⟩

theorem triple_markFree {R : Machine → Prop} {heap : HeapManager} : ∀ {n i : Nat}
    {filter : Fin 32 → Int}, Triple R (markFree heap n i filter) fun f k =>
      R k ∧ f = markFrom heap i n filter
  | 0, i, filter => .pure fun k hk => ⟨hk, (markFrom_zero heap i filter).symm⟩
  | n + 1, i, filter => by
      rw [markFree]
      refine .dite (fun hi => ?_) fun _ => .fault
      dsimp only
      refine .dite (fun hx => ?_) fun _ => .fault
      rw [← markFrom_succ hi hx]
      exact triple_markFree

/-- The pages the loop over the heap copies, from `block` on. -/
def copiedFrom (heapBottom heapTop : Nat) (filter : Fin 32 → Int) : Nat → Nat → List Nat
  | 0, _ => []
  | fuel + 1, block =>
      if block < heapTop then
        if hx : sub64 block heapBottom / pgSize < 32 then
          if filter ⟨_, hx⟩ ≠ 0 then copiedFrom heapBottom heapTop filter fuel (block + pgSize)
          else block / pgSize :: copiedFrom heapBottom heapTop filter fuel (block + pgSize)
        else []
      else []

variable (hne : parent ≠ child)

include hne in
theorem pages_copyHeap {heapBottom heapTop : Nat} {filter : Fin 32 → Int} :
    ∀ {fuel block : Nat} {P : Paging} {c : Prop},
    (c → Forkable P (k0.procs parent).pagetable q.pagetable us ∧ block % pgSize = 0) →
    Triple (Pages P hs (Rec k0 child q c))
      (copyHeap parent child heapBottom heapTop filter fuel block) fun _ k => ∃ P',
        Pages P' hs (Rec k0 child q (c ∧ HeapCopy (k0.procs parent).pagetable q.pagetable
          (copiedFrom heapBottom heapTop filter fuel block) P P')) k := by
  intro fuel
  induction fuel with
  | zero =>
      intro block P c hc
      rw [copyHeap]
      refine .ite (fun _ => .fault) fun _ => .pure fun k hk => ⟨P, hk.imp fun h => ⟨h.1, h.2, .nil⟩⟩
  | succ fuel ih =>
      intro block P c hc
      rw [copyHeap, copiedFrom]
      refine .ite (fun hlt => ?_) fun hge => ?_
      case' refine_2 =>
        rw [if_neg hge]
        exact .pure fun k hk => ⟨P, hk.imp fun h => ⟨h.1, h.2, .nil⟩⟩
      rw [if_pos hlt]
      dsimp only
      refine .dite (fun hx => ?_) fun _ => .fault
      rw [dif_pos hx]
      refine .ite (fun hskip => ?_) fun hcopy => ?_
      · rw [if_pos hskip]
        refine ih fun h => ⟨(hc h).1, ?_⟩
        rw [Nat.add_mod_right]
        exact (hc h).2
      rw [if_neg hcopy]
      refine .bind pages_alloc fun p => pages_bindGet fun k1 => ?_
      refine .bind (pages_lookupPa (k0.procs parent).pagetable block fun k h => ?_) fun pa => ?_
      · exact ⟨by rw [h.2.2.ne hne], rfl, (hc h.2.1).1.parent⟩
      refine .bind (pages_copyNew (stable_rec.and _) fun k h hne => ?_) fun _ => ?_
      · have hfork := (hc h.1.2.1).1
        rw [h.2] at hne ⊢
        exact (hfork.mem_of_lookup hne).2.1
      refine .bind (pages_map q.pagetable block p ((stable_rec.and _).and _) (by decide) fun k h => ?_)
        fun _ => ?_
      · obtain ⟨⟨hrec, hpa⟩, hp, hnz⟩ := h.2
        have hfork := hc hrec.2.1
        rw [hpa] at hnz
        have hlt := (hfork.1.mem_of_lookup hnz).1
        refine ⟨by rw [hrec.2.2.self], rfl, rfl, hfork.1.child, hfork.2, ?_, hp.lt⟩
        unfold maxVA at hlt
        omega
      refine (ih (P := P.copyTo q.pagetable (block / pgSize) p
        (P.lookup (k0.procs parent).pagetable (block / pgSize * pgSize)))
        (c := c ∧ Unused P p ∧ P.entries q.pagetable (block / pgSize) = none ∧
          P.lookup (k0.procs parent).pagetable (block / pgSize * pgSize) ≠ 0) ?_).mono ?_ ?_
      · rintro ⟨hc', hp, hnone, -⟩
        refine ⟨(hc hc').1.above (Paging.above_copyTo hp hnone), ?_⟩
        rw [Nat.add_mod_right]
        exact (hc hc').2
      · rintro k ⟨hk, ⟨⟨hrec, rfl⟩, hp, hnz⟩, -, hnone⟩
        have hblock : block / pgSize * pgSize = block :=
          Nat.div_mul_cancel (Nat.dvd_of_mod_eq_zero (hc hrec.2.1).2)
        rw [hblock]
        exact ⟨hk, hrec.1, hrec.2.1, hp, hnone, hnz⟩
      · rintro _ k ⟨P', hk⟩
        exact ⟨P', hk.imp fun h => ⟨h.1, h.2.1.1, .cons h.2.1.2.1 h.2.1.2.2.1 h.2.1.2.2.2 h.2.2⟩⟩

/-- The pages of the heap that `do_fork` copies. -/
def copiedPages (heap : HeapManager) (garbage : Fin 32 → Int) : List Nat :=
  copiedFrom heap.heapBottom heap.heapTop
    (markFrom heap 0 heap.freePagesCount (clearedFilter garbage))
    ((heap.heapTop - heap.heapBottom) / pgSize + 1) heap.heapBottom

/-- The record of the child after the region `r` of the process `q0`. -/
def forkRecord (q0 : Process) (q : Process) (r : MappedRegion) : Process :=
  match r.segType with
  | .context => { q with frame := q0.frame }
  | .heap => { setRegion q 3 { q.regions 3 with npages := (q0.regions 3).npages } with
      userHeap := q0.userHeap }
  | .code =>
      if ht : q.totalMappedRegion < 256 then
        { setRegion q ⟨_, ht⟩ { r with segType := .code } with
          totalMappedRegion := q.totalMappedRegion + 1 }
      else q
  | _ => q

variable {garbage : Fin 32 → Int} (hcur : k0.current = some parent)
  (hbottom : (k0.procs parent).userHeap.heapBottom % pgSize = 0)

include hne hcur hbottom in
theorem pages_forkHeap (hr : r.segType = .heap)
    (hc : c → Forkable P (k0.procs parent).pagetable q.pagetable us) :
    Triple (Pages P hs (Rec k0 child q c)) (forkHeap parent child garbage) fun _ k => ∃ P',
      Pages P' hs (Rec k0 child (forkRecord (k0.procs parent) q r)
        (c ∧ ForkStep (k0.procs parent).pagetable q.pagetable
          (copiedPages (k0.procs parent).userHeap garbage) r P P')) k := by
  refine pages_bindGet fun k1 => .bind triple_markFree fun filter => ?_
  cases hk1 : k1.current with
  | none => exact .fault
  | some cur =>
      refine Triple.mono (P := Pages P hs (Rec k0 child q ((c ∧ OneRec k0 k1 child q) ∧
        filter = markFrom (k1.procs parent).userHeap 0 (k1.procs parent).userHeap.freePagesCount
          (clearedFilter garbage) ∧ cur = parent))) ?_ ?_ fun _ _ h => h
      · refine .bind (pages_copyHeap hne fun h => ⟨hc h.1.1, ?_⟩) fun _ => .exists_ fun P' => ?_
        · rw [h.2.2, h.1.2.ne hne]
          exact hbottom
        refine pages_bindGet fun k2 => .bind (pages_setRec _) fun _ => ?_
        refine (pages_setRec _).mono (fun _ h => h) fun _ k hk => ⟨P', hk.imp ?_⟩
        rintro ⟨hrec, ⟨⟨⟨hc', h1⟩, hfilter, hcur'⟩, hcopy⟩, h2⟩
        rw [h2.ne hne] at hrec
        rw [hfilter, hcur', h1.ne hne] at hcopy
        refine ⟨?_, hc', .heap hr hcopy⟩
        simpa only [forkRecord, hr] using hrec
      · rintro k ⟨hk, hfilter⟩
        refine hk.imp fun h => ⟨h.1, h.2, hfilter, ?_⟩
        rw [h.2.2.current, hcur] at hk1
        exact (Option.some.inj hk1).symm

theorem sub64_page (hva : va < maxVA) : sub64 (va + pgSize) 1 = va + pgSize - 1 := by
  unfold sub64 maxVA pgSize at *
  omega

include hne in
theorem pages_forkCode {ns : List Nat} (hr : r.segType = .code)
    (hc : c → Forkable P (k0.procs parent).pagetable q.pagetable us) :
    Triple (Pages P hs (Rec k0 child q c)) (forkCode parent child r) fun _ k => ∃ P',
      Pages P' hs (Rec k0 child (forkRecord (k0.procs parent) q r)
        (c ∧ ForkStep (k0.procs parent).pagetable q.pagetable ns r P P')) k := by
  refine pages_bindGet fun k1 => ?_
  refine .bind (pages_lookupPa (k0.procs parent).pagetable r.va fun k h => ?_) fun pa => ?_
  · exact ⟨by rw [h.2.2.ne hne], rfl, (hc h.2.1).parent⟩
  refine .ite (fun _ => .fault) fun hpa => ?_
  refine .bind (pages_mapRange q.pagetable r.va (P.lookup (k0.procs parent).pagetable r.va)
    (stable_rec.and _) (by decide) fun k h => ?_) fun _ => ?_
  · exact ⟨by rw [h.1.2.2.self], rfl, h.2, (hc h.1.2.1).child, P.lookup_lt _⟩
  dsimp only
  refine .dite (fun ht => ?_) fun _ => .fault
  let P' := P.mapCode q.pagetable r.va (P.lookup (k0.procs parent).pagetable r.va)
  refine Triple.mono (P := Pages P' hs (Rec k0 child q (c ∧ OneRec k0 k1 child q ∧
    ForkStep (k0.procs parent).pagetable q.pagetable ns r P P'))) ?_ ?_ fun _ _ h => h
  · refine .bind (pages_setRec _) fun _ => (pages_setRec _).mono (fun _ h => h) fun _ k hk => ?_
    refine ⟨P', hk.imp ?_⟩
    rintro ⟨hrec, hc', h1, hstep⟩
    obtain rfl := h1.self
    refine ⟨?_, hc', hstep⟩
    rw [forkRecord, hr]
    dsimp only
    rw [dif_pos ht]
    exact hrec
  · rintro k ⟨hk, ⟨hrec, heq⟩, hfresh⟩
    rw [heq] at hpa
    have hva := ((hc hrec.2.1).mem_of_lookup hpa).1
    rw [sub64_page hva] at hk hfresh
    exact ⟨hk, hrec.1, hrec.2.1, hrec.2.2, .code hr hpa fun n hn => hfresh n hn.1 hn.2⟩

include hne in
theorem pages_forkStack {ns : List Nat} {k1 : Machine} (hr : r.segType = .stack)
    (hc : c → Forkable P (k0.procs parent).pagetable q.pagetable us ∧ OneRec k0 k1 child q)
    (hq : q.regions 0 = ⟨userStackTop - pgSize, 1, .stack⟩) :
    Triple (Pages P hs (Rec k0 child q c)) (do
      let dest ← inPhys (Phys.lookupPa (k1.procs child).pagetable ((k1.procs child).regions 0).va)
      let src ← inPhys (Phys.lookupPa (k1.procs parent).pagetable r.va)
      memcpy dest src pgSize) fun _ k => ∃ P',
        Pages P' hs (Rec k0 child (forkRecord (k0.procs parent) q r)
          (c ∧ ForkStep (k0.procs parent).pagetable q.pagetable ns r P P')) k := by
  refine .bind (pages_lookupPa q.pagetable (userStackTop - pgSize) fun k h => ?_) fun dest => ?_
  · obtain ⟨hfork, h1⟩ := hc h.2
    rw [h1.self, hq]
    exact ⟨rfl, rfl, hfork.child⟩
  refine .bind (pages_lookupPa (k0.procs parent).pagetable r.va fun k h => ?_) fun src => ?_
  · obtain ⟨hfork, h1⟩ := hc h.1.2
    exact ⟨by rw [h1.ne hne], rfl, hfork.parent⟩
  refine (pages_copyData ((stable_rec.and _).and _) ?_ ?_).mono (fun _ h => h) fun _ k hk => ?_
  · rintro k ⟨⟨hrec, rfl⟩, -⟩
    have hfork := (hc hrec.2).1
    rw [hfork.lookup_stack]
    exact hfork.mem
  · rintro k ⟨⟨hrec, -⟩, rfl⟩ hnz
    exact ((hc hrec.2).1.mem_of_lookup hnz).2.1
  · obtain ⟨hk, ⟨⟨hrec, rfl⟩, rfl⟩, hnz⟩ := hk
    refine ⟨_, hk, ?_, hrec.2, .stack hr hnz⟩
    simpa only [forkRecord, hr] using hrec.1

include hne hcur hbottom in
/-- One region. -/
theorem pages_forkRegion (hi : i < 256)
    (hc : c → Forkable P (k0.procs parent).pagetable q.pagetable us)
    (hq : q.regions 0 = ⟨userStackTop - pgSize, 1, .stack⟩) :
    Triple (Pages P hs (Rec k0 child q c)) (forkRegion parent child garbage i) fun _ k => ∃ P',
      Pages P' hs (Rec k0 child
        (forkRecord (k0.procs parent) q ((k0.procs parent).regions ⟨i, hi⟩))
        (c ∧ ForkStep (k0.procs parent).pagetable q.pagetable
          (copiedPages (k0.procs parent).userHeap garbage)
          ((k0.procs parent).regions ⟨i, hi⟩) P P')) k := by
  refine pages_bindGet fun k1 => ?_
  rw [dif_pos hi]
  -- the region that has been read is that of the parent
  refine Triple.mono (Q := fun _ k => ∃ P', Pages P' hs (Rec k0 child
    (forkRecord (k0.procs parent) q ((k1.procs parent).regions ⟨i, hi⟩))
    ((c ∧ OneRec k0 k1 child q) ∧ ForkStep (k0.procs parent).pagetable q.pagetable
      (copiedPages (k0.procs parent).userHeap garbage) ((k1.procs parent).regions ⟨i, hi⟩) P P')) k)
    ?_ (fun _ h => h) ?_
  case' refine_2 =>
    rintro _ k ⟨P', hk, hrec, ⟨hc', h1⟩, hstep⟩
    rw [h1.ne hne] at hrec hstep
    exact ⟨P', hk, hrec, hc', hstep⟩
  have hc1 : c ∧ OneRec k0 k1 child q → Forkable P (k0.procs parent).pagetable q.pagetable us :=
    fun h => hc h.1
  dsimp only
  generalize hr : (k1.procs parent).regions ⟨i, hi⟩ = r
  cases htype : r.segType with
  | context =>
      refine (pages_setRec _).mono (fun _ h => h) fun _ k hk => ⟨P, hk.imp ?_⟩
      rintro ⟨hrec, hc', h1⟩
      rw [h1.ne hne] at hrec
      refine ⟨?_, ⟨hc', h1⟩, .skip (.inl htype)⟩
      simpa only [forkRecord, htype] using hrec
  | stack => exact pages_forkStack hne htype (fun h => ⟨hc1 h, h.2⟩) hq
  | heap => exact pages_forkHeap hne hcur hbottom htype hc1
  | code => exact pages_forkCode hne htype hc1
  | system =>
      refine .pure fun k hk => ⟨P, hk.imp fun h => ⟨?_, h.2, .skip (.inr (.inl htype))⟩⟩
      simpa only [forkRecord, htype] using h.1
  | data =>
      refine .pure fun k hk => ⟨P, hk.imp fun h => ⟨?_, h.2, .skip (.inr (.inr htype))⟩⟩
      simpa only [forkRecord, htype] using h.1

@[simp] theorem forkRecord_pagetable (q0 q : Process) (r : MappedRegion) :
    (forkRecord q0 q r).pagetable = q.pagetable := by
  unfold forkRecord
  split
  · rfl
  · rfl
  · split <;> rfl
  · rfl

/-- The record of a process with a stack region. -/
def HasStack (q : Process) : Prop :=
  q.regions 0 = ⟨userStackTop - pgSize, 1, .stack⟩ ∧ 0 < q.totalMappedRegion

theorem HasStack.forkRecord (h : HasStack q) (q0 : Process) (r : MappedRegion) :
    HasStack (forkRecord q0 q r) := by
  unfold Machine.forkRecord
  split
  · exact h
  · refine ⟨?_, h.2⟩
    simp only [setRegion, upd_ne (show (0 : Fin 256) ≠ 3 by decide), h.1]
  · split
    · rename_i ht
      have hne : (0 : Fin 256) ≠ ⟨q.totalMappedRegion, ht⟩ := by
        intro heq
        have hval : 0 = q.totalMappedRegion := congrArg Fin.val heq
        have := h.2
        omega
      refine ⟨?_, Nat.succ_pos _⟩
      simp only [setRegion, upd_ne hne, h.1]
    · exact h
  · exact h

/-- `n` of the regions of a process, from the `i`-th on. -/
def regionsFrom (regions : Fin 256 → MappedRegion) : Nat → Nat → List MappedRegion
  | 0, _ => []
  | n + 1, i => (if hi : i < 256 then regions ⟨i, hi⟩ else .zero) :: regionsFrom regions n (i + 1)

include hne hcur hbottom in
theorem pages_forkRegions : ∀ {n i : Nat} {P : Paging} {q : Process} {c : Prop},
    (c → Forkable P (k0.procs parent).pagetable q.pagetable us) → HasStack q →
    Triple (Pages P hs (Rec k0 child q c)) (forkRegions parent child garbage n i) fun _ k => ∃ P',
      Pages P' hs (Rec k0 child ((regionsFrom (k0.procs parent).regions n i).foldl
          (forkRecord (k0.procs parent)) q)
        (c ∧ Forks (k0.procs parent).pagetable q.pagetable
          (copiedPages (k0.procs parent).userHeap garbage)
          (regionsFrom (k0.procs parent).regions n i) P P')) k := by
  intro n
  induction n with
  | zero => exact fun _ _ => .pure fun k hk => ⟨_, hk.imp fun h => ⟨h.1, h.2, .nil⟩⟩
  | succ n ih =>
      intro i P q c hc hq
      rw [forkRegions, regionsFrom]
      by_cases hi : i < 256
      · rw [dif_pos hi]
        refine .bind (pages_forkRegion hne hcur hbottom hi hc hq.1) fun _ => .exists_ fun P1 => ?_
        refine (ih (fun h => ?_) (hq.forkRecord _ _)).mono (fun _ h => h) fun _ k => ?_
        · rw [forkRecord_pagetable]
          exact (hc h.1).above (h.2.above (hc h.1))
        · rintro ⟨P', hk⟩
          refine ⟨P', hk.imp fun h => ⟨h.1, h.2.1.1, .cons h.2.1.2 ?_⟩⟩
          have hforks := h.2.2
          rwa [forkRecord_pagetable] at hforks
      · intro k
        refine Post.bind (R := fun _ _ => False) (.bindGet ?_) fun _ _ hfalse => hfalse.elim
        rw [dif_neg hi]
        exact .fault trivial

end

/-! ## The queue -/

/-- The queue has changed, and nothing else. -/
structure OnlyQueue (k k' : Machine) : Prop where
  phys : k'.phys = k.phys
  oom : k'.oom = k.oom
  procs : ∀ j, ∃ st next, k'.procs j = { k.procs j with status := st, queueNext := next }

instance : Std.Refl OnlyQueue := ⟨fun _ => ⟨rfl, rfl, fun _ => ⟨_, _, rfl⟩⟩⟩

theorem OnlyQueue.trans {k' k'' : Machine} (h : OnlyQueue k k') (h' : OnlyQueue k' k'') :
    OnlyQueue k k'' := by
  refine ⟨h'.phys.trans h.phys, h'.oom.trans h.oom, fun j => ?_⟩
  obtain ⟨st, next, hj⟩ := h.procs j
  obtain ⟨st', next', hj'⟩ := h'.procs j
  rw [hj] at hj'
  exact ⟨st', next', hj'⟩

instance : Trans OnlyQueue OnlyQueue OnlyQueue := ⟨OnlyQueue.trans⟩

theorem OnlyQueue.set {i : Pid} {f : Process → Process}
    (hf : ∀ q, ∃ st next, f q = { q with status := st, queueNext := next }) :
    OnlyQueue k (k.setProc i f) := by
  refine ⟨rfl, rfl, fun j => ?_⟩
  by_cases hj : j = i
  · subst hj
    simp only [setProc, upd_self]
    exact hf _
  · simp only [setProc, upd_ne hj]
    exact ⟨_, _, rfl⟩

theorem along_lastFrom {p : Pid} : ∀ {fuel : Nat} {i : Pid},
    Exec.Along OnlyQueue (fun _ => True) (lastFrom p fuel i)
  | 0, _ => .fault trivial
  | fuel + 1, i => by
      refine .bindGet fun k => ?_
      cases (k.procs i).queueNext with
      | none => exact .pure
      | some j => exact .ite (fun _ => .pure) fun _ => along_lastFrom

theorem along_insertToReadyQueue {p : Pid} :
    Exec.Along OnlyQueue (fun _ => True) (insertToReadyQueue p) := by
  have hset : ∀ {i : Pid} {f : Process → Process},
      (∀ q, ∃ st next, f q = { q with status := st, queueNext := next }) →
      Exec.Along OnlyQueue (fun _ => True) (modifyProc i f) := fun hf _ => .modify (.set hf)
  refine .bindGet fun k => ?_
  cases k.readyQueueHead with
  | none => exact .bind (hset fun _ => ⟨_, _, rfl⟩) fun _ k => .modify ⟨rfl, rfl, fun _ => ⟨_, _, rfl⟩⟩
  | some head =>
      refine .bind along_lastFrom fun last => ?_
      cases last with
      | none => exact .pure
      | some j =>
          refine .ite (fun _ => .pure) fun _ => .bind (hset fun _ => ⟨_, _, rfl⟩) fun _ => ?_
          exact .bind (hset fun _ => ⟨_, _, rfl⟩) fun _ => hset fun _ => ⟨_, _, rfl⟩

/-! ## The whole call -/

/-- A process whose pages can be copied. -/
structure CanFork (parent : Pid) (k : Machine) (l : List Nat) (P : Paging) : Prop where
  current : k.current = some parent
  status : (k.procs parent).status ≠ .free
  refines : k.phys.Refines l P []
  dir : (k.procs parent).pagetable ∈ P.dirs
  data : ∀ n e, P.entries (k.procs parent).pagetable n = some e → pte2pa e ∈ P.data
  trap : k.trapSecStart % pgSize = 0 ∧ k.trapSecStart < 2 ^ 64
  bottom : (k.procs parent).userHeap.heapBottom % pgSize = 0

/-- The pages of a new process. -/
structure NewPages where
  dir : Nat
  stack : Nat
  frame : Nat
  kstack : Nat
  mappedInfo : Nat
  pfiles : Nat

/-- The record of the child before it is made ready. -/
def childRecord (k : Machine) (parent child : Pid) (n : NewPages) : Process :=
  (regionsFrom (k.procs parent).regions (k.procs parent).totalMappedRegion 0).foldl
    (forkRecord (k.procs parent)) (newRecord (k.procs child) n.frame n.dir n.kstack n.mappedInfo
      n.pfiles k.trapSecStart)

theorem mem_regionsFrom {regions : Fin 256 → MappedRegion} : ∀ {n i : Nat},
    r ∈ regionsFrom regions n i ↔ ∃ j, i ≤ j ∧ j < i + n ∧
      r = if hj : j < 256 then regions ⟨j, hj⟩ else .zero := by
  intro n
  induction n with
  | zero =>
      intro i
      simp only [regionsFrom, List.not_mem_nil, false_iff]
      rintro ⟨j, hle, hlt, -⟩
      omega
  | succ n ih =>
      intro i
      rw [regionsFrom, List.mem_cons, ih]
      constructor
      · rintro (hr | ⟨j, hle, hlt, hr⟩)
        · exact ⟨i, le_rfl, by omega, hr⟩
        · exact ⟨j, by omega, by omega, hr⟩
      · rintro ⟨j, hle, hlt, hr⟩
        by_cases hj : j = i
        · exact .inl (hj ▸ hr)
        · exact .inr ⟨j, by omega, by omega, hr⟩

/-- A region of the process. -/
theorem mem_regions {q : Process} {j : Fin 256} (hj : j.val < q.totalMappedRegion) :
    q.regions j ∈ regionsFrom q.regions q.totalMappedRegion 0 := by
  refine mem_regionsFrom.mpr ⟨j, Nat.zero_le _, by omega, ?_⟩
  rw [dif_pos j.isLt]

/-- What a field of the record of the child is in the end, if one kind of region sets it. -/
theorem foldl_forkRecord {β : Type} {q0 : Process} {b : β} {t : SegmentType} (field : Process → β)
    (hset : ∀ q r, field (forkRecord q0 q r) = if r.segType = t then b else field q) :
    ∀ {rs : List MappedRegion} {q : Process}, (∃ r ∈ rs, r.segType = t) ∨ field q = b →
      field (rs.foldl (forkRecord q0) q) = b := by
  intro rs
  induction rs with
  | nil =>
      rintro q (⟨r, hr, -⟩ | hq)
      · cases hr
      · exact hq
  | cons r0 rs ih =>
      intro q hq
      refine ih ?_
      rw [hset]
      by_cases h0 : r0.segType = t
      · exact .inr (if_pos h0)
      · rw [if_neg h0]
        refine hq.imp_left ?_
        rintro ⟨r, hr, ht⟩
        rcases List.mem_cons.mp hr with rfl | hr
        · exact absurd ht h0
        · exact ⟨r, hr, ht⟩

theorem foldl_kept {β : Type} {q0 : Process} (field : Process → β)
    (hkept : ∀ q r, field (forkRecord q0 q r) = field q) : ∀ {rs : List MappedRegion} {q : Process},
    field (rs.foldl (forkRecord q0) q) = field q
  | [], _ => rfl
  | r :: rs, q => by
      rw [List.foldl_cons, foldl_kept field hkept, hkept]

theorem childRecord_pagetable {child : Pid} {n : NewPages} :
    (childRecord k parent child n).pagetable = n.dir :=
  foldl_kept Process.pagetable fun _ _ => forkRecord_pagetable _ _ _

theorem childRecord_userHeap {child : Pid} {n : NewPages} {j : Fin 256}
    (hj : j.val < (k.procs parent).totalMappedRegion)
    (hheap : ((k.procs parent).regions j).segType = .heap) :
    (childRecord k parent child n).userHeap = (k.procs parent).userHeap := by
  refine foldl_forkRecord Process.userHeap (fun q r => ?_) (.inl ⟨_, mem_regions hj, hheap⟩)
  unfold forkRecord
  cases h : r.segType with
  | code => dsimp only; split <;> rfl
  | _ => rfl

/-- What `do_fork` has done. -/
structure Forked (parent child : Pid) (garbage : Fin 32 → Int) (k k' : Machine) (P P' : Paging)
    (n : NewPages) : Prop where
  ne : parent ≠ child
  first : firstFree k = some child
  spawned : Spawned P n.dir n.stack n.frame k.trapSecStart
  forks : ∃ stack frame, Forks (k.procs parent).pagetable n.dir
    (copiedPages (k.procs parent).userHeap garbage)
    (regionsFrom (k.procs parent).regions (k.procs parent).totalMappedRegion 0)
    (P.spawn n.dir n.stack n.frame k.trapSecStart stack frame) P'
  refines : ∃ l', k'.phys.Refines l' P' [n.pfiles, n.mappedInfo, n.kstack]
  procs : ∀ j ≠ child, ∃ st next, k'.procs j = { k.procs j with status := st, queueNext := next }
  record : ∃ st next, k'.procs child = { childRecord k parent child n with
    frame := { (childRecord k parent child n).frame with a0 := 0 }
    parent := some parent, status := st, queueNext := next }

/-- A new process can be filled. -/
theorem forkable_spawn {P : Paging} {d pt us tf trap : Nat} {stack frame : Nat → UInt8}
    (h : Spawned P pt us tf trap) (hd : d ∈ P.dirs)
    (hdata : ∀ n e, P.entries d n = some e → pte2pa e ∈ P.data) :
    Forkable (P.spawn pt us tf trap stack frame) d pt us := by
  have hne : d ≠ pt := fun heq => h.dir (heq ▸ hd)
  have hentries : (P.spawn pt us tf trap stack frame).entries d = P.entries d :=
    Paging.spawn_entries_ne hne
  have hplaces := h.places
  simp only [List.nodup_cons, List.mem_cons, List.not_mem_nil, or_false, not_or] at hplaces
  refine ⟨Set.mem_insert_of_mem _ hd, Set.mem_insert _ _, hne, fun n e he => ?_, fun n e he => ?_, ?_,
    Set.mem_insert _ _, h.stack.page, h.stack.lt⟩
  · rw [hentries] at he
    exact Set.mem_insert_of_mem _ (Set.mem_insert_of_mem _ (hdata n e he))
  · rw [hentries] at he
    exact fun heq => h.stack.notMem (heq ▸ hdata n e he)
  · rw [Paging.spawn_entries, if_neg hplaces.1.2, if_neg hplaces.1.1, if_pos rfl]

theorem doFork_forks {garbage : Fin 32 → Int} {k' : Machine} {l : List Nat} {P : Paging} {pid : Nat}
    (h : CanFork parent k l P) (hrun : doFork parent garbage k = .ok (pid, k'))
    (hoom : k'.oom = false) : ∃ child P' n, Forked parent child garbage k k' P P' n := by
  obtain ⟨child, k1, hnew, hrun⟩ := Exec.bind_ok hrun
  rw [Exec.bind_of_ok (show (get : ProcM Machine) k1 = .ok (k1, k1) from rfl)] at hrun
  obtain ⟨⟨⟩, k2, hregions, hrun⟩ := Exec.bind_ok hrun
  obtain ⟨⟨⟩, k3, hready, hrun⟩ := Exec.bind_ok hrun
  obtain ⟨⟨⟩, k4, ha0, hrun⟩ := Exec.bind_ok hrun
  obtain ⟨⟨⟩, k5, hparent, hrun⟩ := Exec.bind_ok hrun
  obtain ⟨⟨⟩, k6, hinsert, hlast⟩ := Exec.bind_ok hrun
  have hqueue := (along_insertToReadyQueue k5).of_ok hinsert
  cases hlast
  clear hrun hinsert
  cases hready
  cases ha0
  cases hparent
  have hoom2 : k2.oom = false := hqueue.oom.symm.trans hoom
  -- the child is another process
  obtain ⟨tf, pt, ks, mi, pf, -, hfree, hrec⟩ := (allocProcess_rec k).of_ok hnew
  have hne : parent ≠ child := by
    rintro rfl
    exact h.status (firstFree_some hfree)
  rw [hrec.ne hne] at hregions
  have hloop : ∀ (us : Nat) (hs : List Nat) (P : Paging) (q : Process) (c : Prop),
      (c → Forkable P (k.procs parent).pagetable q.pagetable us) → HasStack q →
      k1.oom = false ∧ (Pages P hs (Rec k child q c) k1 → _) :=
    fun us hs P q c hc hq => (pages_forkRegions hne h.current h.bottom hc hq).of_ok hregions hoom2
  have hstack : ∀ q tf pt ks mi pf trap, HasStack (newRecord q tf pt ks mi pf trap) :=
    fun _ _ _ _ _ _ _ => ⟨rfl, Nat.succ_pos 3⟩
  have hoom1 := (hloop 0 [] P (newRecord (k.procs child) tf pt ks mi pf 0) False nofun (hstack ..)).1
  obtain ⟨pt, us, tf, ks, mi, pf, stack, frame, hk1⟩ :=
    ((pages_allocProcess h.trap.1 h.trap.2).of_ok hnew hoom1).2 ⟨⟨l, h.refines⟩, rfl⟩
  obtain ⟨P', ⟨l', hrefines⟩, hone, hspawned, hforks⟩ := (hloop us _ _ _ _
    (fun hs => forkable_spawn hs h.dir h.data) (hstack ..)).2 hk1
  refine ⟨child, P', ⟨pt, us, tf, ks, mi, pf⟩, hne, hfree, hspawned, ⟨stack, frame, hforks⟩, ⟨l', ?_⟩,
    fun j hj => ?_, ?_⟩
  · rw [hqueue.phys]
    exact hrefines
  · obtain ⟨st, next, hj'⟩ := hqueue.procs j
    simp only [setProc, upd_ne hj, hone.ne hj] at hj'
    exact ⟨st, next, hj'⟩
  · obtain ⟨st, next, hchild⟩ := hqueue.procs child
    simp only [setProc, upd_self, hone.self] at hchild
    exact ⟨st, next, hchild⟩

/-! ## A process that can be copied -/

/-- A process that runs, whose page table leads to pages in use. -/
structure ForkSpace (parent : Pid) (k : Machine) (l : List Nat) : Prop where
  current : k.current = some parent
  status : (k.procs parent).status ≠ .free
  space : k.phys.Space l (k.procs parent).pagetable
  inUse : ∀ v < maxVA, ∀ e, entry k.phys.mem (k.procs parent).pagetable v = some e →
    pte2pa e ∉ l ∧ pte2pa e ∉ tables k.phys.mem (k.procs parent).pagetable
  trap : k.trapSecStart % pgSize = 0 ∧ k.trapSecStart < 2 ^ 64

section

variable {parent child : Pid} {garbage : Fin 32 → Int} {k k' : Machine} {l : List Nat}
  {P P' : Paging} {n : NewPages}

theorem ForkSpace.of_own (hcurrent : k.current = some parent)
    (hstatus : (k.procs parent).status ≠ .free) (hrefines : k.phys.Refines l P [])
    (hown : P.Own (k.procs parent).pagetable)
    (htrap : k.trapSecStart % pgSize = 0 ∧ k.trapSecStart < 2 ^ 64) : ForkSpace parent k l := by
  refine ⟨hcurrent, hstatus, hrefines.spaces.space hown.dir, fun v hv e he => ?_, htrap⟩
  rw [hrefines.entry _ hown.dir v hv] at he
  have hin := (hrefines.data _ (hown.data _ e he)).1
  exact ⟨hin.taken, hin.data _ hown.dir⟩

theorem ForkSpace.canFork (h : ForkSpace parent k l)
    (hbottom : (k.procs parent).userHeap.heapBottom % pgSize = 0) :
    CanFork parent k l (Phys.tablePaging k.phys l (k.procs parent).pagetable) where
  current := h.current
  status := h.status
  refines := h.space.refines_data h.inUse
  dir := rfl
  data n e he := by
    obtain ⟨hlt, he⟩ := Option.ite_none_right_eq_some.mp he
    exact ⟨_, hlt, e, he, rfl⟩
  trap := h.trap
  bottom := hbottom

/-- The child can be filled from the parent, and has been. -/
theorem Forked.filled (h : Forked parent child garbage k k' P P' n) (hk : CanFork parent k l P) :
    ∃ stack frame, let P0 := P.spawn n.dir n.stack n.frame k.trapSecStart stack frame
      Forkable P0 (k.procs parent).pagetable n.dir n.stack ∧
      Forks (k.procs parent).pagetable n.dir (copiedPages (k.procs parent).userHeap garbage)
        (regionsFrom (k.procs parent).regions (k.procs parent).totalMappedRegion 0) P0 P' := by
  obtain ⟨stack, frame, hforks⟩ := h.forks
  exact ⟨stack, frame, forkable_spawn h.spawned hk.dir hk.data, hforks⟩

/-- The page table of the child. -/
theorem Forked.entry_eq (h : Forked parent child garbage k k' P P' n) (hk : CanFork parent k l P)
    {v : Nat} (hv : v < maxVA) :
    entry k'.phys.mem (k'.procs child).pagetable v = P'.entries n.dir (v / pgSize) := by
  obtain ⟨stack, frame, hfork, hforks⟩ := h.filled hk
  obtain ⟨l', hrefines⟩ := h.refines
  obtain ⟨st, next, hrec⟩ := h.record
  have hdir : n.dir ∈ P'.dirs := (hforks.above hfork).dirs ▸ hfork.child
  rw [hrec]
  show entry _ (childRecord k parent child n).pagetable v = _
  rw [childRecord_pagetable, hrefines.entry _ hdir v hv]

end

end Machine

end Pke
