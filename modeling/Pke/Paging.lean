import Pke.Spaces
import Pke.Triple

/-!
# Memory as page tables and data

What memory means: a set of page tables, each a map from virtual pages to
entries, and a set of data pages with their bytes (`Paging`). `Refines`
says that physical memory is such a thing, together with the free list and
the pages `hs` that have been taken and are nothing yet. Each operation of
the kernel on memory is one on `Paging`; the rules at the end say so for
code that runs with no failed allocation.
-/

namespace Pke

/-- Page tables and data pages. -/
structure Paging where
  dirs : Set Nat
  /-- The entry of a directory for the number of a virtual page. -/
  entries : Nat → Nat → Option Nat
  data : Set Nat
  bytes : Mem
  /-- The pages that are accounted for. -/
  pages : Set Nat
  /-- The pages an allocation can return. -/
  source : Set Nat

instance : Nonempty Paging := ⟨⟨∅, fun _ _ => none, ∅, fun _ => 0, ∅, ∅⟩⟩

variable {va pa perm len : Nat} {m : Mem} {src : Nat → UInt8}

namespace Paging

/-- The entry of the page `n` in the table `d` is set. -/
def map (P : Paging) (d n e : Nat) : Paging :=
  { P with entries := upd P.entries d (upd (P.entries d) n (some e)) }

/-- The pages from `first` to `last` are mapped to the pages from `pa` on. -/
def mapRange (P : Paging) (d first last pa perm : Nat) : Paging :=
  { P with entries := upd P.entries d fun n =>
      if first ≤ n * pgSize ∧ n * pgSize ≤ last then
        some (Phys.leafPte ((pa + (n * pgSize - first)) % 2 ^ 64) perm)
      else P.entries d n }

/-- The page `p` that is mapped at `n` in the table `d` is given back. -/
def unmap (P : Paging) (d n p : Nat) : Paging :=
  { P with
    entries := upd P.entries d (upd (P.entries d) n none)
    data := P.data \ {p}
    source := insert p P.source }

/-- A new table without entries. -/
def newDir (P : Paging) (d : Nat) : Paging :=
  { P with dirs := insert d P.dirs, entries := upd P.entries d fun _ => none }

/-- The bytes `src` are written at `a`. -/
def copy (P : Paging) (a len : Nat) (src : Nat → UInt8) : Paging :=
  { P with bytes := memcpy P.bytes a len src }

/-- The page `p` is used for data. -/
def use (P : Paging) (p : Nat) (page : Nat → UInt8) : Paging :=
  { P with data := insert p P.data, bytes := memcpy P.bytes p pgSize page }

/-- What `lookup_pa` returns. -/
def lookup (P : Paging) (d va : Nat) : Nat :=
  if va ≥ maxVA then 0
  else match P.entries d (va / pgSize) with
    | some e => if e &&& pteR = 0 ∧ e &&& pteW = 0 then 0 else pte2pa e
    | none => 0

variable {P : Paging} {d d' n n' e p a len : Nat} {src page : Nat → UInt8}

theorem exists_of_lookup (h : P.lookup d va = pa) (hne : pa ≠ 0) :
    va < maxVA ∧ ∃ e, P.entries d (va / pgSize) = some e ∧ pa = pte2pa e := by
  unfold lookup at h
  split at h
  · exact absurd h.symm hne
  · rename_i hva
    split at h
    · rename_i e he
      split at h
      · exact absurd h.symm hne
      · exact ⟨Nat.lt_of_not_le hva, e, he, h.symm⟩
    · exact absurd h.symm hne

theorem lookup_lt (va : Nat) : P.lookup d va < 2 ^ 64 := by
  by_cases hzero : P.lookup d va = 0
  · rw [hzero]
    decide
  · obtain ⟨-, e, -, hpa⟩ := exists_of_lookup rfl hzero
    rw [hpa]
    exact pte2pa_lt e

@[simp] theorem map_bytes : (P.map d n e).bytes = P.bytes := rfl
@[simp] theorem copy_entries : (P.copy a len src).entries = P.entries := rfl
@[simp] theorem use_entries : (P.use p page).entries = P.entries := rfl

theorem map_entries : (P.map d n e).entries d n' = if n' = n then some e else P.entries d n' := by
  simp [map, upd]

theorem ne_of_map_none (h : (P.map d n e).entries d n' = none) : n' ≠ n := by
  rintro rfl
  rw [map_entries, if_pos rfl] at h
  cases h

theorem none_of_map_none (h : (P.map d n e).entries d n' = none) : P.entries d n' = none := by
  have hne := ne_of_map_none h
  rwa [map_entries, if_neg hne] at h

theorem map_entries_ne (h : d' ≠ d) : (P.map d n e).entries d' = P.entries d' := upd_ne h

theorem mapRange_entries {first last : Nat} :
    (P.mapRange d first last pa perm).entries d n = if first ≤ n * pgSize ∧ n * pgSize ≤ last then
      some (Phys.leafPte ((pa + (n * pgSize - first)) % 2 ^ 64) perm) else P.entries d n := by
  simp [mapRange]

theorem mapRange_entries_ne {first last : Nat} (h : d' ≠ d) :
    (P.mapRange d first last pa perm).entries d' = P.entries d' := upd_ne h

theorem unmap_entries :
    (P.unmap d n p).entries d n' = if n' = n then none else P.entries d n' := by
  simp [unmap, upd]

theorem unmap_entries_ne (h : d' ≠ d) : (P.unmap d n p).entries d' = P.entries d' := upd_ne h

@[simp] theorem newDir_entries : (P.newDir d).entries d = fun _ => none := upd_self _ _ _

theorem newDir_entries_ne (h : d' ≠ d) : (P.newDir d).entries d' = P.entries d' := upd_ne h

end Paging

namespace Phys

open Exec (Post get modify fault)

/-- Memory with the free list `l` is `P`, and the pages `hs` are used for nothing yet. -/
structure Refines (s : Phys) (l : List Nat) (P : Paging) (hs : List Nat) : Prop where
  spaces : Spaces s l P.dirs
  entry : ∀ d ∈ P.dirs, ∀ v < maxVA, entry s.mem d v = P.entries d (v / pgSize)
  data : ∀ q ∈ P.data, InUse s l P.dirs q ∧ SamePage P.bytes s.mem q
  nodup : hs.Nodup
  held : ∀ p ∈ hs, InUse s l P.dirs p ∧ p ∉ P.data ∧ s.InRange p
  all : ∀ p ∈ P.pages, p ∈ s.reserved l P.dirs ∨ p ∈ hs ∨ p ∈ P.data
  source : ∀ p, p ∈ l ∨ p ∈ hs → p ∈ P.source

variable {s s' : Phys} {l l' : List Nat} {P : Paging} {hs : List Nat} {p d : Nat}

theorem memcpy_congr {m' : Mem} {a x : Nat} (h : m' x = m x) :
    memcpy m' a len src x = memcpy m a len src x := by
  simp only [memcpy, h]

theorem memcpy_page {page : Nat → UInt8} {i : Nat} (hi : i < pgSize) :
    memcpy m p pgSize page (p + i) = page i := memcpy_in hi

/-- The tables and the free list change, and the data does not. -/
theorem Refines.keeps {ents : Nat → Nat → Option Nat} {hs' : List Nat} (h : Refines s l P hs)
    (hkeeps : Keeps P.dirs s l s' l')
    (hent : ∀ d ∈ P.dirs, ∀ v < maxVA, Pke.entry s'.mem d v = ents d (v / pgSize))
    (hnodup : hs'.Nodup)
    (hheld : ∀ p ∈ hs', p ∈ hs ∨ InUse s' l' P.dirs p ∧ p ∉ P.data ∧ s'.InRange p)
    (hall : ∀ p ∈ P.pages, p ∈ s'.reserved l' P.dirs ∨ p ∈ hs' ∨ p ∈ P.data)
    (hsource : ∀ p ∈ hs', p ∈ P.source) : Refines s' l' { P with entries := ents } hs' := by
  refine ⟨hkeeps.spaces, hent, fun q hq => ?_, hnodup, fun q hq => ?_, hall, fun q hq => ?_⟩
  · obtain ⟨huse, hsame⟩ := h.data q hq
    exact ⟨(hkeeps.inUse q huse).1, hsame.trans (hkeeps.inUse q huse).2⟩
  · rcases hheld q hq with hold | hnew
    · obtain ⟨huse, hnot, hrange⟩ := h.held q hold
      exact ⟨(hkeeps.inUse q huse).1, hnot, hrange.of_bounds hkeeps.bounds.1 hkeeps.bounds.2⟩
    · exact hnew
  · exact hq.elim (fun hmem => h.source q (.inl (hkeeps.suffix.subset hmem))) (hsource q)

/-- The first free page is taken. -/
theorem Refines.alloc (h : Refines s (p :: l) P hs) (hmem : s'.mem = s.mem)
    (hstart : s'.freeMemStart = s.freeMemStart) (hend : s'.freeMemEnd = s.freeMemEnd)
    (hpool : s'.Pool l) : Refines s' l P (p :: hs) := by
  obtain ⟨hkeeps, huse⟩ := h.spaces.alloc hmem hstart hend hpool
  have hfree : p ∈ p :: l := by simp
  refine h.keeps hkeeps (fun d hd v hv => ?_) (List.nodup_cons.mpr ⟨fun hin => ?_, h.nodup⟩)
    (fun q hq => ?_) (fun q hq => ?_) fun q hq => ?_
  · rw [hmem, h.entry d hd v hv]
  · exact (h.held p hin).1.taken hfree
  · rcases List.mem_cons.mp hq with rfl | hq'
    · refine .inr ⟨huse, fun hdata => (h.data q hdata).1.taken hfree, ?_⟩
      exact (h.spaces.pool.page q hfree).of_bounds hstart hend
    · exact .inl hq'
  · rcases h.all q hq with (hq' | hq') | hq' | hq'
    · rcases List.mem_cons.mp hq' with rfl | hq'
      · exact .inr (.inl (by simp))
      · exact .inl (.inl hq')
    · rw [← hmem] at hq'
      exact .inl (.inr hq')
    · exact .inr (.inl (by simp [hq']))
    · exact .inr (.inr hq')
  · rcases List.mem_cons.mp hq with rfl | hq'
    · exact h.source q (.inl hfree)
    · exact h.source q (.inr hq')

/-- A page that is not used yet is written. -/
theorem Refines.write (h : Refines s l P hs) (hp : p ∈ hs)
    (hm : ∀ q, q % pgSize = 0 → q ≠ p → SamePage s.mem m q) :
    Refines { s with mem := m } l P hs := by
  obtain ⟨hspaces, huse, hent, hpool⟩ := h.spaces.write (h.held p hp).1 hm
  refine ⟨hspaces, fun d hd v hv => (hent d hd v).trans (h.entry d hd v hv), fun q hq => ?_, h.nodup,
    fun q hq => ?_, fun q hq => (h.all q hq).imp (fun hmem => hpool hmem) id, h.source⟩
  · obtain ⟨hq1, hsame⟩ := h.data q hq
    refine ⟨huse q hq1, hsame.trans (hm q hq1.page ?_)⟩
    rintro rfl
    exact (h.held q hp).2.1 hq
  · obtain ⟨hq1, hnot, hrange⟩ := h.held q hq
    exact ⟨huse q hq1, hnot, hrange.of_bounds rfl rfl⟩

/-- A data page is written. -/
theorem Refines.copy (h : Refines s l P hs) (hp : p ∈ P.data) {off : Nat}
    (hlen : off + len ≤ pgSize) :
    Refines { s with mem := memcpy s.mem (p + off) len src } l (P.copy (p + off) len src) hs := by
  have hpage := (h.data p hp).1.page
  obtain ⟨hspaces, huse, hent, hpool⟩ := h.spaces.write (m := memcpy s.mem (p + off) len src)
    (h.data p hp).1 fun q hq hne => samePage_memcpy hpage hq hne hlen
  refine ⟨hspaces, fun d hd v hv => (hent d hd v).trans (h.entry d hd v hv), fun q hq => ?_, h.nodup,
    fun q hq => ?_, fun q hq => (h.all q hq).imp (fun hmem => hpool hmem) id, h.source⟩
  · obtain ⟨hq1, hsame⟩ := h.data q hq
    exact ⟨huse q hq1, fun i hi => memcpy_congr (hsame i hi)⟩
  · obtain ⟨hq1, hnot, hrange⟩ := h.held q hq
    exact ⟨huse q hq1, hnot, hrange.of_bounds rfl rfl⟩

/-- A page that has been taken is used for data. -/
theorem Refines.use (h : Refines s l P (p :: hs)) {page : Nat → UInt8}
    (hbytes : ∀ i < pgSize, s.mem (p + i) = page i) : Refines s l (P.use p page) hs := by
  obtain ⟨hnot, hnodup⟩ := List.nodup_cons.mp h.nodup
  obtain ⟨hp, hpd, -⟩ := h.held p (by simp)
  refine ⟨h.spaces, h.entry, ?_, hnodup, fun q hq => ?_, fun q hq => ?_,
    fun q hq => h.source q (hq.imp id (List.mem_cons_of_mem p))⟩
  · rintro q (rfl | hq)
    · exact ⟨hp, fun i hi => (hbytes i hi).trans (memcpy_page hi).symm⟩
    · obtain ⟨hq1, hsame⟩ := h.data q hq
      have hne : q ≠ p := fun heq => hpd (heq ▸ hq)
      refine ⟨hq1, fun i hi => (hsame i hi).trans ?_⟩
      exact (samePage_page hp.page hq1.page hne i hi).symm
  · obtain ⟨hq1, hqd, hrange⟩ := h.held q (List.mem_cons_of_mem p hq)
    refine ⟨hq1, ?_, hrange⟩
    rintro (rfl | hmem)
    · exact hnot hq
    · exact hqd hmem
  · rcases h.all q hq with hq' | hq' | hq'
    · exact .inl hq'
    · rcases List.mem_cons.mp hq' with rfl | hq'
      · exact .inr (.inr (Set.mem_insert _ _))
      · exact .inr (.inl hq')
    · exact .inr (.inr (Set.mem_insert_of_mem _ hq'))

/-- A page of zeros becomes a table. -/
theorem Refines.newDir (h : Refines s l P (p :: hs)) (hne : p ≠ 0)
    (hzero : ∀ k, pteAt s.mem p k = 0) : Refines s l (P.newDir p) hs := by
  obtain ⟨hnot, hnodup⟩ := List.nodup_cons.mp h.nodup
  obtain ⟨hp, hpd, -⟩ := h.held p (by simp)
  have huse : ∀ q, InUse s l P.dirs q → q ≠ p → InUse s l (insert p P.dirs) q := by
    refine fun q hq hqp => ⟨hq.page, hq.taken, ?_⟩
    rintro d (rfl | hd) hmem
    · exact hqp (tables_of_zero hzero hmem)
    · exact hq.data d hd hmem
  refine ⟨h.spaces.insert hp hne hzero, ?_, fun q hq => ?_, hnodup, fun q hq => ?_, fun q hq => ?_,
    fun q hq => h.source q (hq.imp id (List.mem_cons_of_mem p))⟩
  · rintro d hd v hv
    by_cases heq : d = p
    · rw [heq, entry_of_zero hzero, Paging.newDir_entries]
    · rw [Paging.newDir_entries_ne heq]
      exact h.entry d (hd.resolve_left heq) v hv
  · obtain ⟨hq1, hsame⟩ := h.data q hq
    exact ⟨huse q hq1 fun heq => hpd (heq ▸ hq), hsame⟩
  · obtain ⟨hq1, hqd, hrange⟩ := h.held q (List.mem_cons_of_mem p hq)
    exact ⟨huse q hq1 fun heq => hnot (heq ▸ hq), hqd, hrange⟩
  · rcases h.all q hq with (hq' | ⟨d, hd, hq'⟩) | hq' | hq'
    · exact .inl (.inl hq')
    · exact .inl (.inr ⟨d, Set.mem_insert_of_mem _ hd, hq'⟩)
    · rcases List.mem_cons.mp hq' with rfl | hq'
      · exact .inl (.inr ⟨q, Set.mem_insert _ _, ⟨.root, rfl⟩⟩)
      · exact .inr (.inl hq')
    · exact .inr (.inr hq')

/-- The pages that have been taken are forgotten, where no account is kept. -/
theorem Refines.forget (h : Refines s l P hs) (hpages : P.pages = ∅) : Refines s l P [] := by
  refine ⟨h.spaces, h.entry, h.data, List.nodup_nil, nofun, fun q hq => ?_,
    fun q hq => h.source q (hq.imp id nofun)⟩
  rw [hpages] at hq
  exact hq.elim

/-- Memory without page tables, of which one page is in use. -/
theorem Pool.refines (h : s.Pool l) (hp : p % pgSize = 0) (hpl : p ∉ l) :
    Refines s l ⟨∅, fun _ _ => none, {p}, s.mem, ∅, {q | q ∈ l}⟩ [] := by
  refine ⟨⟨h, nofun, nofun, nofun⟩, nofun, ?_, List.nodup_nil, nofun, nofun, fun q hq => ?_⟩
  · rintro q rfl
    exact ⟨⟨hp, hpl, nofun⟩, fun _ _ => rfl⟩
  · exact hq.resolve_right nofun

/-- One page table. -/
theorem Space.refines (h : s.Space l d) :
    Refines s l ⟨{d}, fun d n => Pke.entry s.mem d (n * pgSize), ∅, s.mem, ∅, {q | q ∈ l}⟩ [] := by
  refine ⟨⟨h.pool, ?_, ?_, ?_⟩, ?_, nofun, List.nodup_nil, nofun, nofun,
    fun q hq => hq.resolve_right nofun⟩
  · rintro _ rfl
    exact h.tree
  · rintro _ rfl
    exact h.apart
  · rintro _ rfl _ rfl _ _ _
    rfl
  · rintro _ rfl v -
    exact entry_congr (Nat.mul_div_cancel _ (by decide)).symm

/-- The memory a page table leads to. -/
def tablePaging (s : Phys) (l : List Nat) (d : Nat) : Paging where
  dirs := {d}
  entries d n := if n * pgSize < maxVA then Pke.entry s.mem d (n * pgSize) else none
  data := {q | ∃ v < maxVA, ∃ e, Pke.entry s.mem d v = some e ∧ q = pte2pa e}
  bytes := s.mem
  pages := {q | q ∈ l}
  source := {q | q ∈ l}

/-- A page table that leads neither to free pages nor to its own. -/
theorem Space.refines_data (h : s.Space l d) (huse : ∀ v < maxVA, ∀ e, Pke.entry s.mem d v = some e →
    pte2pa e ∉ l ∧ pte2pa e ∉ tables s.mem d) : Refines s l (tablePaging s l d) [] := by
  refine ⟨h.refines.spaces, ?_, ?_, List.nodup_nil, nofun, fun q hq => .inl (.inl hq),
    fun q hq => hq.resolve_right nofun⟩
  · rintro _ rfl v hv
    have hle : v / pgSize * pgSize ≤ v := Nat.div_mul_le_self v pgSize
    show _ = if _ then _ else _
    rw [if_pos (hle.trans_lt hv)]
    exact entry_congr (Nat.mul_div_cancel _ (by decide)).symm
  · rintro q ⟨v, hv, e, he, rfl⟩
    obtain ⟨hl, ht⟩ := huse v hv e he
    refine ⟨⟨pte2pa_mod e, hl, ?_⟩, fun _ _ => rfl⟩
    rintro _ rfl
    exact ht

/-- A page is mapped. -/
theorem Refines.map (h : Refines s l P hs) (hd : d ∈ P.dirs) (hva : va % pgSize = 0)
    (hva64 : va < 2 ^ 64) (hpa64 : pa < 2 ^ 64) (hperm : perm < 1024) :
    Post (userVmMap d va pgSize pa perm) s
      (fun _ s' => ∃ l', Refines s' l' (P.map d (va / pgSize) (leafPte pa perm)) hs ∧
        va < maxVA ∧ P.entries d (va / pgSize) = none ∧
        s'.freeMemStart = s.freeMemStart ∧ s'.freeMemEnd = s.freeMemEnd)
      fun _ => True := by
  refine (h.spaces.map hd hperm hpa64).mono fun _ s' => ?_
  rintro ⟨l', hkeeps, hmaps, hother, hpool⟩
  obtain ⟨hbelow, hfresh, hself⟩ := hmaps.page hva hva64 hpa64
  rw [h.entry d hd va hbelow] at hfresh
  refine ⟨l', h.keeps hkeeps (fun d' hd' v hv => ?_) h.nodup (fun _ => .inl)
    (fun q hq => (h.all q hq).imp (fun hmem => hpool hmem) id) fun q hq => h.source q (.inr hq),
    hbelow, hfresh, hkeeps.bounds⟩
  by_cases heq : d' = d
  · rw [heq, hself v hv, h.entry d hd v hv]
    exact Paging.map_entries.symm
  · rw [hother d' hd' heq, h.entry d' hd' v hv]
    exact congrFun (Paging.map_entries_ne heq).symm _

/-- Some pages are mapped. -/
theorem Refines.mapRange (h : Refines s l P hs) (hd : d ∈ P.dirs) {size : Nat} (hpa64 : pa < 2 ^ 64)
    (hperm : perm < 1024) : Post (userVmMap d va size pa perm) s
      (fun _ s' => ∃ l', Refines s' l' (P.mapRange d (roundDown va pgSize)
          (roundDown (sub64 (va + size) 1) pgSize) pa perm) hs ∧
        ∀ n, roundDown va pgSize ≤ n * pgSize →
          n * pgSize ≤ roundDown (sub64 (va + size) 1) pgSize → P.entries d n = none)
      fun _ => True := by
  refine (h.spaces.map hd hperm hpa64).mono fun _ s' => ?_
  rintro ⟨l', hkeeps, hmaps, hother, hpool⟩
  refine ⟨l', h.keeps hkeeps (fun d' hd' v hv => ?_) h.nodup (fun _ => .inl)
    (fun q hq => (h.all q hq).imp (fun hmem => hpool hmem) id) fun q hq => h.source q (.inr hq),
    fun n hfirst hlast => ?_⟩
  · by_cases heq : d' = d
    · rw [heq, hmaps.entry v hv, mappedEntry, h.entry d hd v hv]
      exact Paging.mapRange_entries.symm
    · rw [hother d' hd' heq, h.entry d' hd' v hv]
      exact congrFun (Paging.mapRange_entries_ne heq).symm _
  · have hlt : n * pgSize < maxVA := hlast.trans_lt (hmaps.below (hfirst.trans hlast))
    have hround : roundDown (n * pgSize) pgSize = n * pgSize := roundDown_page (Nat.mul_mod_left _ _)
    have hnone := hmaps.fresh _ hlt (hfirst.trans hround.ge) (hround.le.trans hlast)
    rwa [h.entry d hd _ hlt, Nat.mul_div_cancel _ (by decide)] at hnone

/-- A data page is unmapped and given back. -/
theorem Refines.unmap (h : Refines s l P hs) (hd : d ∈ P.dirs) (size : Nat) {e : Nat}
    (hva : va < maxVA) (he : P.entries d (va / pgSize) = some e) (hp : pte2pa e ∈ P.data)
    (hrange : s.InRange (pte2pa e)) : ∃ s', userVmUnmap d va size true s = .ok ((), s') ∧
      Refines s' (pte2pa e :: l) (P.unmap d (va / pgSize) (pte2pa e)) hs ∧
      s'.freeMemStart = s.freeMemStart ∧ s'.freeMemEnd = s.freeMemEnd := by
  have hent := (h.entry d hd va hva).trans he
  cases hslot : slot s.mem d va with
  | none =>
      rw [entry_of_slot_none hslot] at hent
      cases hent
  | some a =>
      rw [entry_of_slot hslot, Option.ite_none_right_eq_some] at hent
      obtain ⟨hvalid, heq⟩ := hent
      obtain rfl := Option.some.inj heq
      refine ⟨_, userVmUnmap_run (h.spaces.tree d hd) hva hslot hvalid hrange, ?_, rfl, rfl⟩
      generalize pte2pa (load64 s.mem a) = p at *
      have huse := (h.data p hp).1
      -- first the page goes to the free list, then the entry is cleared
      obtain ⟨-, -, -, hpool⟩ := (freePage_post (E := fun _ => False) h.spaces.pool hrange
        huse.taken).of_ok (freePage_run hrange)
      obtain ⟨hspaces, hkeep, hsame, hall⟩ := h.spaces.free huse hrange rfl hpool
      have hslot1 : slot (store64 s.mem p s.gFreeMemList) d va = some a :=
        (slot_frame (frame_of_notMem (h.spaces.tree d hd) huse.page (huse.data d hd))).trans hslot
      obtain ⟨hkeeps, hother, hall'⟩ := hspaces.extend hd ((hspaces.space hd).set (e := 0) hslot1)
      refine ⟨hkeeps.spaces, fun d' hd' v hv => ?_, fun q hq => ?_, h.nodup, fun q hq => ?_,
        fun q hq => ?_, fun q hq => ?_⟩
      · by_cases hdd : d' = d
        · rw [hdd, entry_set (hspaces.tree d hd) hva hv hslot1, Paging.unmap_entries]
          refine if_congr Iff.rfl rfl ?_
          exact (hsame d hd v).trans (h.entry d hd v hv)
        · rw [Paging.unmap_entries_ne hdd, ← h.entry d' hd' v hv, ← hsame d' hd' v]
          exact hother d' hd' hdd v
      · obtain ⟨hq1, hsame1⟩ := h.data q hq.1
        obtain ⟨hq2, hsame2⟩ := hkeep q hq1 hq.2
        obtain ⟨hq3, hsame3⟩ := hkeeps.inUse q hq2
        exact ⟨hq3, hsame1.trans (hsame2.trans hsame3)⟩
      · obtain ⟨hq1, hqd, hqr⟩ := h.held q hq
        have hne : q ≠ p := fun heq => hqd (heq ▸ hp)
        exact ⟨(hkeeps.inUse q (hkeep q hq1 hne).1).1, fun hmem => hqd hmem.1, hqr⟩
      · rcases h.all q hq with hq' | hq' | hq'
        · exact .inl (hall' (hall (Set.mem_insert_of_mem _ hq')))
        · exact .inr (.inl hq')
        · by_cases hne : q = p
          · exact .inl (hall' (hall (hne ▸ Set.mem_insert _ _)))
          · exact .inr (.inr ⟨hq', hne⟩)
      · rcases hq with hq | hq
        · rcases List.mem_cons.mp hq with rfl | hq
          · exact .inl rfl
          · exact .inr (h.source q (.inl hq))
        · exact .inr (h.source q (.inr hq))

theorem Refines.lookup_eq (h : Refines s l P hs) (hd : d ∈ P.dirs) (va : Nat) :
    lookup s.mem d va = P.lookup d va := by
  rw [lookup, Paging.lookup]
  by_cases hva : va ≥ maxVA
  · rw [if_pos hva, if_pos hva]
  · have hentry := h.entry d hd va (Nat.lt_of_not_le hva)
    cases he : P.entries d (va / pgSize) <;> simp only [if_neg hva, hentry, he]

theorem Refines.lookupPa (h : Refines s l P hs) (hd : d ∈ P.dirs) {va : Nat} :
    lookupPa d va s = .ok (P.lookup d va, s) := by
  rw [lookupPa_eq (h.spaces.tree d hd), h.lookup_eq hd]

end Phys

namespace Machine

open Exec (Post get modify)

/-- Memory is `P`, the pages `hs` have been taken, and `F` is known of the records. -/
def Pages (P : Paging) (hs : List Nat) (F : Machine → Prop) (k : Machine) : Prop :=
  (∃ l, k.phys.Refines l P hs) ∧ F k

variable {P : Paging} {hs : List Nat} {F G : Machine → Prop} {p d : Nat}

theorem Stable.and (hF : Stable F) (c : Prop) : Stable fun k => F k ∧ c :=
  fun k s o hk => ⟨hF k s o hk.1, hk.2⟩

theorem Pages.imp {k : Machine} (h : Pages P hs F k) (hFG : F k → G k) : Pages P hs G k :=
  ⟨h.1, hFG h.2⟩

/-- The pages that have been taken are pages. -/
theorem Pages.held {k : Machine} (h : Pages P hs F k) (hp : p ∈ hs) :
    p % pgSize = 0 ∧ p < 2 ^ 64 ∧ p ≠ 0 := by
  obtain ⟨⟨l, h⟩, -⟩ := h
  have hlow := h.spaces.pool.low
  have hhigh := h.spaces.pool.high
  obtain ⟨hpage, hstart, hend⟩ := (h.held p hp).2.2
  exact ⟨hpage, hend.trans_le hhigh, by omega⟩

theorem pages_allocPage (hF : Stable F) :
    Triple (Pages P hs F) allocPage fun p k => Pages P (p :: hs) F k ∧ p ≠ 0 := by
  refine triple_alloc fun k hk => ?_
  obtain ⟨⟨l, h⟩, hFk⟩ := hk
  refine (Phys.allocPage_post h.spaces.pool).mono fun p s => ?_
  rintro (⟨rfl, -⟩ | ⟨rest, rfl, -, hmem, hstart, hend, hpool⟩) hp
  · exact absurd rfl hp
  · exact ⟨⟨⟨rest, h.alloc hmem hstart hend hpool⟩, hF k s k.oom hFk⟩, hp⟩

/-- A record is changed. -/
theorem pages_record {i : Pid} {f : Process → Process} (hFG : ∀ k, F k → G (k.setProc i f)) :
    Triple (Pages P hs F) (modifyProc i f) fun _ => Pages P hs G :=
  .modifyProc fun k hk => ⟨hk.1, hFG k hk.2⟩

/-- A page from an allocation that is not used for data. -/
structure Unused (P : Paging) (p : Nat) : Prop where
  page : p % pgSize = 0
  lt : p < 2 ^ 64
  notMem : p ∉ P.data
  source : p ∈ P.source

/-- A page that is not used yet is filled, and used. -/
theorem pages_memset (hF : Stable F) {byte : UInt8} :
    Triple (Pages P (p :: hs) F) (memset p byte pgSize) fun _ =>
      Pages (P.use p fun _ => byte) hs fun k => F k ∧ Unused P p := by
  refine .bind triple_access fun _ => .inPhys fun k hk => .modify ?_
  obtain ⟨⟨⟨l, h⟩, hFk⟩, -⟩ := hk
  have hpage := (h.held p (by simp)).1.page
  have hwrite := h.write (m := Pke.memset k.phys.mem p byte pgSize) (by simp)
    fun q hq hne => samePage_memset hpage hq hne
  have hbytes : ∀ i < pgSize, Pke.memset k.phys.mem p byte pgSize (p + i) = byte :=
    fun i hi => Phys.memcpy_page hi
  have hp := Pages.held (F := F) (k := k) ⟨⟨l, h⟩, hFk⟩ (List.mem_cons_self ..)
  exact ⟨⟨l, hwrite.use hbytes⟩, hF k _ k.oom hFk, hp.1, hp.2.1, (h.held p (by simp)).2.1,
    h.source p (.inr (by simp))⟩

/-- A page is mapped. What the arguments are may follow from the state. -/
theorem pages_map (d0 va0 pa0 : Nat) (hF : Stable F) (hperm : perm < 1024)
    (hargs : ∀ k, Pages P hs F k → d = d0 ∧ va = va0 ∧ pa = pa0 ∧ d0 ∈ P.dirs ∧
      va0 % pgSize = 0 ∧ va0 < 2 ^ 64 ∧ pa0 < 2 ^ 64) :
    Triple (Pages P hs F) (inPhys (Phys.userVmMap d va pgSize pa perm)) fun _ =>
      Pages (P.map d0 (va0 / pgSize) (Phys.leafPte pa0 perm)) hs fun k =>
        F k ∧ va0 < maxVA ∧ P.entries d0 (va0 / pgSize) = none := by
  refine .inPhys fun k hk => ?_
  obtain ⟨rfl, rfl, rfl, hd, hva, hva64, hpa64⟩ := hargs k hk
  obtain ⟨⟨l, h⟩, hFk⟩ := hk
  refine (h.map hd hva hva64 hpa64 hperm).mono fun _ s => ?_
  rintro ⟨l', h', hbelow, hfresh, -⟩
  exact ⟨⟨l', h'⟩, hF k s k.oom hFk, hbelow, hfresh⟩

/-- Some pages are mapped. -/
theorem pages_mapRange (d0 va0 pa0 : Nat) {size : Nat} (hF : Stable F) (hperm : perm < 1024)
    (hargs : ∀ k, F k → d = d0 ∧ va = va0 ∧ pa = pa0 ∧ d0 ∈ P.dirs ∧ pa0 < 2 ^ 64) :
    Triple (Pages P hs F) (inPhys (Phys.userVmMap d va size pa perm)) fun _ =>
      Pages (P.mapRange d0 (roundDown va0 pgSize) (roundDown (sub64 (va0 + size) 1) pgSize) pa0 perm)
        hs fun k => F k ∧ ∀ n, roundDown va0 pgSize ≤ n * pgSize →
          n * pgSize ≤ roundDown (sub64 (va0 + size) 1) pgSize → P.entries d0 n = none := by
  refine .inPhys fun k hk => ?_
  obtain ⟨rfl, rfl, rfl, hd, hpa64⟩ := hargs k hk.2
  obtain ⟨⟨l, h⟩, hFk⟩ := hk
  refine (h.mapRange hd hpa64 hperm).mono fun _ s => ?_
  rintro ⟨l', h', hfresh⟩
  exact ⟨⟨l', h'⟩, hF k s k.oom hFk, hfresh⟩

/-- A data page is written. -/
theorem pages_copy (hF : Stable F) {off : Nat} (hlen : off + len ≤ pgSize)
    (hpa : ∀ k, F k → pa ∈ P.data) : Triple (Pages P hs F)
      (inPhys (modify fun s => { s with mem := Pke.memcpy s.mem (pa + off) len src }))
      fun _ => Pages (P.copy (pa + off) len src) hs F := by
  refine .inPhys fun k hk => .modify ?_
  obtain ⟨⟨l, h⟩, hFk⟩ := hk
  exact ⟨⟨l, h.copy (hpa k hFk) hlen⟩, hF k _ k.oom hFk⟩

theorem pages_lookupPa (d0 va0 : Nat) (hargs : ∀ k, F k → d = d0 ∧ va = va0 ∧ d0 ∈ P.dirs) :
    Triple (Pages P hs F) (inPhys (Phys.lookupPa d va)) fun pa =>
      Pages P hs fun k => F k ∧ pa = P.lookup d0 va0 := by
  refine .inPhys fun k hk => ?_
  obtain ⟨⟨l, h⟩, hFk⟩ := hk
  obtain ⟨rfl, rfl, hd⟩ := hargs k hFk
  rw [Post, h.lookupPa hd]
  exact ⟨⟨l, h⟩, hFk, rfl⟩

end Machine

end Pke
