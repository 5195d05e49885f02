import Pke.Vmm

/-!
# Several page tables in one memory

`Spaces s l D` says that the directories in `D` are page tables that share
no page with each other or with the free list `l`. All other pages are in
use (`InUse`): nothing the kernel does to the tables or the list writes
into them, and they stay in use (`Keeps`). From there on a table is the map
from virtual pages to entries that `entry` reads, and each of the changes
the kernel makes is an update of one of these maps.
-/

namespace Pke

namespace Phys

open Exec (Post get modify fault)

/-- The page tables `D` and the free list `l` share no page. -/
structure Spaces (s : Phys) (l : List Nat) (D : Set Nat) : Prop where
  pool : s.Pool l
  tree : ∀ d ∈ D, Tree s.mem d
  apart : ∀ d ∈ D, ∀ p ∈ l, p ∉ tables s.mem d
  disjoint : ∀ d ∈ D, ∀ d' ∈ D, ∀ p ∈ tables s.mem d, p ∈ tables s.mem d' → d = d'

/-- A page that is neither free nor a table. -/
structure InUse (s : Phys) (l : List Nat) (D : Set Nat) (q : Nat) : Prop where
  page : q % pgSize = 0
  taken : q ∉ l
  data : ∀ d ∈ D, q ∉ tables s.mem d

/-- The pages that are free or tables. -/
def reserved (s : Phys) (l : List Nat) (D : Set Nat) : Set Nat := {p | p ∈ l ∨ ∃ d ∈ D, p ∈ tables s.mem d}

/-- The pages in use before are in use after, with the same bytes. -/
structure Keeps (D : Set Nat) (s : Phys) (l : List Nat) (s' : Phys) (l' : List Nat) : Prop where
  spaces : Spaces s' l' D
  suffix : l' <:+ l
  inUse : ∀ q, InUse s l D q → InUse s' l' D q ∧ SamePage s.mem s'.mem q
  bounds : s'.freeMemStart = s.freeMemStart ∧ s'.freeMemEnd = s.freeMemEnd

variable {s s' s'' : Phys} {l l' l'' : List Nat} {D : Set Nat} {d p : Nat}

theorem Spaces.space (h : Spaces s l D) (hd : d ∈ D) : s.Space l d :=
  ⟨h.pool, h.tree d hd, h.apart d hd⟩

/-- The tables stay where they are when their pages keep their bytes. -/
theorem Spaces.congr (h : Spaces s l D) (hpool : s'.Pool l')
    (hmem : ∀ d ∈ D, ∀ p ∈ tables s.mem d, SamePage s.mem s'.mem p)
    (hapart : ∀ d ∈ D, ∀ p ∈ l', p ∉ tables s.mem d) : Spaces s' l' D := by
  have htab : ∀ d ∈ D, tables s'.mem d = tables s.mem d :=
    fun d hd => tables_congr (tableAt_frame (hmem d hd))
  refine ⟨hpool, fun d hd => (h.tree d hd).congr (tableAt_frame (hmem d hd)), fun d hd p hp => ?_,
    fun d hd d' hd' p hp hp' => ?_⟩
  · rw [htab d hd]
    exact hapart d hd p hp
  · rw [htab d hd] at hp
    rw [htab d' hd'] at hp'
    exact h.disjoint d hd d' hd' p hp hp'

/-- The first free page is taken. -/
theorem Spaces.alloc (h : Spaces s (p :: l) D) (hmem : s'.mem = s.mem)
    (hstart : s'.freeMemStart = s.freeMemStart) (hend : s'.freeMemEnd = s.freeMemEnd)
    (hpool : s'.Pool l) : Keeps D s (p :: l) s' l ∧ InUse s' l D p := by
  have hspaces : Spaces s' l D := by
    refine h.congr hpool (fun d hd q hq i hi => by rw [hmem]) fun d hd q hq => ?_
    exact h.apart d hd q (List.mem_cons_of_mem p hq)
  refine ⟨⟨hspaces, List.suffix_cons p l, fun q hq => ⟨⟨hq.page, fun hmem' => ?_, ?_⟩, ?_⟩, hstart,
    hend⟩, (h.pool.page p (by simp)).1, (List.nodup_cons.mp h.pool.nodup).1, ?_⟩
  · exact hq.taken (List.mem_cons_of_mem p hmem')
  · rw [hmem]
    exact hq.data
  · rw [hmem]
    exact fun _ _ => rfl
  · rw [hmem]
    exact fun d hd => h.apart d hd p (by simp)

/-- A page in use is written. -/
theorem Spaces.write (h : Spaces s l D) (hp : InUse s l D p) {m : Mem}
    (hm : ∀ q, q % pgSize = 0 → q ≠ p → SamePage s.mem m q) :
    Spaces { s with mem := m } l D ∧
      (∀ q, InUse s l D q → InUse { s with mem := m } l D q) ∧
      (∀ d ∈ D, ∀ v, entry m d v = entry s.mem d v) ∧ s.reserved l D ⊆ reserved { s with mem := m } l D := by
  have htab : ∀ d ∈ D, ∀ q ∈ tables s.mem d, SamePage s.mem m q := by
    intro d hd q hq
    refine hm q ((h.tree d hd).page q hq).1 ?_
    rintro rfl
    exact hp.data d hd hq
  refine ⟨h.congr (h.pool.frame fun q hq => ?_) htab h.apart, fun q hq => ⟨hq.page, hq.taken, ?_⟩,
    fun d hd => entry_frame (htab d hd), fun q hq => hq.imp id ?_⟩
  · refine hm q (h.pool.page q hq).1 ?_
    rintro rfl
    exact hp.taken hq
  · intro d hd hmem
    rw [tables_congr (tableAt_frame (htab d hd))] at hmem
    exact hq.data d hd hmem
  · rintro ⟨d, hd, hq⟩
    rw [← tables_congr (tableAt_frame (htab d hd))] at hq
    exact ⟨d, hd, hq⟩

/-- A page in use is given back. -/
theorem Spaces.free (h : Spaces s l D) (hp : InUse s l D p) (hrange : s.InRange p)
    (hmem : s'.mem = store64 s.mem p s.gFreeMemList) (hpool : s'.Pool (p :: l)) :
    Spaces s' (p :: l) D ∧
      (∀ q, InUse s l D q → q ≠ p → InUse s' (p :: l) D q ∧ SamePage s.mem s'.mem q) ∧
      (∀ d ∈ D, ∀ v, entry s'.mem d v = entry s.mem d v) ∧
      insert p (s.reserved l D) ⊆ s'.reserved (p :: l) D := by
  have hother : ∀ q, q % pgSize = 0 → q ≠ p → SamePage s.mem s'.mem q := by
    intro q hq hne
    rw [hmem]
    exact samePage_store (k := 0) hrange.1 hq hne (by decide)
  have htab : ∀ d ∈ D, ∀ q ∈ tables s.mem d, SamePage s.mem s'.mem q := by
    intro d hd q hq
    refine hother q ((h.tree d hd).page q hq).1 ?_
    rintro rfl
    exact hp.data d hd hq
  have htables : ∀ d ∈ D, tables s'.mem d = tables s.mem d :=
    fun d hd => tables_congr (tableAt_frame (htab d hd))
  refine ⟨h.congr hpool htab fun d hd q hq => ?_,
    fun q hq hne => ⟨⟨hq.page, ?_, ?_⟩, hother q hq.page hne⟩,
    fun d hd => entry_frame (htab d hd), ?_⟩
  · rcases List.mem_cons.mp hq with rfl | hq'
    · exact hp.data d hd
    · exact h.apart d hd q hq'
  · intro hmem'
    rcases List.mem_cons.mp hmem' with rfl | hmem'
    · exact hne rfl
    · exact hq.taken hmem'
  · intro d hd hmem'
    rw [htables d hd] at hmem'
    exact hq.data d hd hmem'
  · rintro q (rfl | hq | ⟨d, hd, hq⟩)
    · exact .inl (by simp)
    · exact .inl (by simp [hq])
    · rw [← htables d hd] at hq
      exact .inr ⟨d, hd, hq⟩

/-- One of the tables has grown. -/
theorem Spaces.extend (h : Spaces s l D) (hd : d ∈ D) (hext : Extends d s l s' l') :
    Keeps D s l s' l' ∧ (∀ d' ∈ D, d' ≠ d → ∀ v, entry s'.mem d' v = entry s.mem d' v) ∧
      s.reserved l D ⊆ s'.reserved l' D := by
  have hother : ∀ d' ∈ D, d' ≠ d → ∀ q ∈ tables s.mem d', SamePage s.mem s'.mem q := by
    intro d' hd' hne q hq
    refine hext.frame q ((h.tree d' hd').page q hq).1 (fun hqd => ?_) fun hql => ?_
    · exact hne (h.disjoint d' hd' d hd q hq hqd)
    · exact h.apart d' hd' q hql hq
  have htab : ∀ d' ∈ D, d' ≠ d → tables s'.mem d' = tables s.mem d' :=
    fun d' hd' hne => tables_congr (tableAt_frame (hother d' hd' hne))
  have hsub : ∀ q ∈ l', q ∈ l := fun q hq => hext.suffix.subset hq
  -- the tables of `d` are old ones and pages that were free
  have hcross : ∀ d' ∈ D, d' ≠ d → ∀ q ∈ tables s.mem d', q ∉ tables s'.mem d := by
    intro d' hd' hne q hq hqd
    rcases hext.new q hqd with hold | hnew
    · exact hne (h.disjoint d' hd' d hd q hq hold)
    · exact h.apart d' hd' q hnew hq
  have hspaces : Spaces s' l' D := by
    refine ⟨hext.space.pool, fun d' hd' => ?_, fun d' hd' q hq => ?_, fun d1 h1 d2 h2 q hq1 hq2 => ?_⟩
    · by_cases hne : d' = d
      · rw [hne]
        exact hext.space.tree
      · exact (h.tree d' hd').congr (tableAt_frame (hother d' hd' hne))
    · by_cases hne : d' = d
      · rw [hne]
        exact hext.space.apart q hq
      · rw [htab d' hd' hne]
        exact h.apart d' hd' q (hsub q hq)
    · by_cases hne1 : d1 = d <;> by_cases hne2 : d2 = d
      · rw [hne1, hne2]
      · rw [htab d2 h2 hne2] at hq2
        rw [hne1] at hq1
        exact absurd hq1 (hcross d2 h2 hne2 q hq2)
      · rw [htab d1 h1 hne1] at hq1
        rw [hne2] at hq2
        exact absurd hq2 (hcross d1 h1 hne1 q hq1)
      · rw [htab d1 h1 hne1] at hq1
        rw [htab d2 h2 hne2] at hq2
        exact h.disjoint d1 h1 d2 h2 q hq1 hq2
  refine ⟨⟨hspaces, hext.suffix, fun q hq => ⟨⟨hq.page, fun hmem => hq.taken (hsub q hmem), ?_⟩, ?_⟩,
    hext.bounds⟩, fun d' hd' hne => entry_frame (hother d' hd' hne), ?_⟩
  · intro d' hd' hmem
    by_cases hne : d' = d
    · rw [hne] at hmem
      rcases hext.new q hmem with hold | hnew
      · exact hq.data d hd hold
      · exact hq.taken hnew
    · rw [htab d' hd' hne] at hmem
      exact hq.data d' hd' hmem
  · exact hext.frame q hq.page (hq.data d hd) hq.taken
  · rintro q (hq | ⟨d', hd', hq⟩)
    · exact (hext.grown q hq).imp id fun hq' => ⟨d, hd, hq'⟩
    · by_cases hne : d' = d
      · rw [hne] at hq
        exact .inr ⟨d, hd, hext.old q hq⟩
      · rw [← htab d' hd' hne] at hq
        exact .inr ⟨d', hd', hq⟩

theorem tables_of_zero {m : Mem} (hzero : ∀ k, pteAt m p k = 0) {q : Nat} (hq : q ∈ tables m p) :
    q = p := by
  obtain ⟨n, hn⟩ := hq
  exact (tableAt_of_zero hzero hn).2

/-- A page of zeros becomes a page table without entries. -/
theorem Spaces.insert (h : Spaces s l D) (hp : InUse s l D p) (hne : p ≠ 0)
    (hzero : ∀ k, pteAt s.mem p k = 0) : Spaces s l (Insert.insert p D) := by
  refine ⟨h.pool, ?_, ?_, ?_⟩
  · rintro d (rfl | hd)
    · refine ⟨fun q hq => ?_, fun n n' q hn hn' => ?_⟩
      · rw [tables_of_zero hzero hq]
        exact ⟨hp.page, hne⟩
      · rw [(tableAt_of_zero hzero hn).1, (tableAt_of_zero hzero hn').1]
    · exact h.tree d hd
  · rintro d (rfl | hd) q hq
    · intro hmem
      rw [tables_of_zero hzero hmem] at hq
      exact hp.taken hq
    · exact h.apart d hd q hq
  · rintro d (rfl | hd) d' (rfl | hd') q hq hq'
    · rfl
    · rw [tables_of_zero hzero hq] at hq'
      exact absurd hq' (hp.data d' hd')
    · rw [tables_of_zero hzero hq'] at hq
      exact absurd hq (hp.data d hd)
    · exact h.disjoint d hd d' hd' q hq hq'

/-! ## Mapping -/

/-- `user_vm_map` changes the entries of one table. -/
theorem Spaces.map (h : Spaces s l D) (hd : d ∈ D) {va size pa perm : Nat} (hperm : perm < 1024)
    (h64 : pa < 2 ^ 64) : Post (userVmMap d va size pa perm) s
      (fun _ s' => ∃ l', Keeps D s l s' l' ∧
        Maps d (roundDown va pgSize) (roundDown (sub64 (va + size) 1) pgSize) pa perm s.mem s'.mem ∧
        (∀ d' ∈ D, d' ≠ d → ∀ v, entry s'.mem d' v = entry s.mem d' v) ∧
        s.reserved l D ⊆ s'.reserved l' D)
      fun _ => True := by
  refine .bind ((mapPages_post (h.space hd) hperm h64).monoFault fun _ _ => trivial) ?_
  rintro r s' ⟨l', hext, hmaps⟩
  refine .ite (fun _ => .fault trivial) fun hr => .pure ?_
  obtain ⟨hkeeps, hother⟩ := h.extend hd hext
  exact ⟨l', hkeeps, hmaps (by simpa using hr), hother⟩

theorem roundDown_page {va : Nat} (hva : va % pgSize = 0) : roundDown va pgSize = va := by
  unfold roundDown pgSize at *
  omega

section

variable {va pa perm : Nat} (hva : va % pgSize = 0) (hva64 : va < 2 ^ 64)

include hva hva64

theorem roundDown_last : roundDown (sub64 (va + pgSize) 1) pgSize = va := by
  have hmod : va % 4096 = 0 := hva
  have hsub : sub64 (va + 4096) 1 = va + 4095 := by
    unfold sub64
    omega
  show sub64 (va + 4096) 1 / 4096 * 4096 = va
  rw [hsub]
  omega

/-- The entry of one page has been set, which was not valid. -/
theorem Maps.page {m m' : Mem} (hpa64 : pa < 2 ^ 64)
    (h : Maps d (roundDown va pgSize) (roundDown (sub64 (va + pgSize) 1) pgSize) pa perm m m') :
    va < maxVA ∧ Pke.entry m d va = none ∧ ∀ v < maxVA, Pke.entry m' d v =
      if v / pgSize = va / pgSize then some (leafPte pa perm) else Pke.entry m d v := by
  rw [roundDown_page hva, roundDown_last hva hva64] at h
  have hbelow : va < maxVA := h.below le_rfl
  have hself := roundDown_page hva
  refine ⟨hbelow, h.fresh va hbelow (le_of_eq hself.symm) (le_of_eq hself), fun v hv => ?_⟩
  rw [h.entry v hv, mappedEntry]
  have hiff : va ≤ roundDown v pgSize ∧ roundDown v pgSize ≤ va ↔ v / pgSize = va / pgSize := by
    unfold roundDown pgSize at *
    omega
  by_cases heq : v / pgSize = va / pgSize
  · have hround : roundDown v pgSize - va = 0 := by
      have := hiff.mpr heq
      omega
    rw [if_pos (hiff.mpr heq), if_pos heq, hround, Nat.add_zero, Nat.mod_eq_of_lt hpa64]
  · rw [if_neg (fun hin => heq (hiff.mp hin)), if_neg heq]

/-- A page that is not mapped can be mapped, unless the free pages run out. -/
theorem Spaces.map_faults (h : Spaces s l D) (hd : d ∈ D) (hlt : va < maxVA)
    (hfresh : entry s.mem d va = none) : Post (userVmMap d va pgSize pa perm) s (fun _ _ => True)
      (fun e => e = .panic "fail to user_vm_map ." ∧ l.length < 2) := by
  refine .bind (R := fun r _ => r = 0 ∨ l.length < 2) ?_ fun r s' hr =>
    .ite (fun hne => .fault ⟨rfl, hr.resolve_left hne⟩) fun _ => .pure trivial
  rw [mapPages, roundDown_page hva, roundDown_last hva hva64, Nat.sub_self, Nat.zero_div, mapFrom,
    if_pos le_rfl]
  refine .bind (pageWalk_post (h.space hd) hlt) ?_
  rintro pte s1 ⟨l1, hext, hentry, hpte⟩
  refine .ite (fun hz => .pure (.inr ?_)) fun hz => .bindGet (.ite (fun hvalid => ?_) fun _ => ?_)
  · exact (hpte.resolve_right fun hslot => slot_ne_zero hext.space.tree hslot hz).2
  · have hnone := (hentry va).trans hfresh
    rw [entry_of_slot (hpte.resolve_left fun h0 => hz h0.1), if_pos hvalid] at hnone
    cases hnone
  · refine .bindModify ?_
    rw [mapFrom, if_neg (by unfold pgSize; omega)]
    exact .pure (.inl rfl)

/-- A page that is mapped, or beyond `MAXVA`, can not be mapped. -/
theorem Spaces.map_taken (h : Spaces s l D) (hd : d ∈ D)
    (htaken : maxVA ≤ va ∨ ∃ e, entry s.mem d va = some e) :
    Post (userVmMap d va pgSize pa perm) s (fun _ _ => False) MapFault := by
  refine .bind (R := fun _ _ => False) ?_ fun _ _ hfalse => hfalse.elim
  rw [mapPages, roundDown_page hva, roundDown_last hva hva64, Nat.sub_self, Nat.zero_div, mapFrom,
    if_pos le_rfl]
  by_cases hlt : va < maxVA
  · obtain ⟨e, he⟩ := htaken.resolve_left (Nat.not_le.mpr hlt)
    cases hslot : slot s.mem d va with
    | none =>
        rw [entry_of_slot_none hslot] at he
        cases he
    | some a =>
        rw [entry_of_slot hslot, Option.ite_none_right_eq_some] at he
        refine .step (pageWalk_slot hlt hslot) (.ite (fun hz => ?_) fun _ => .bindGet ?_)
        · exact absurd hz (slot_ne_zero (h.tree d hd) hslot)
        · exact .ite (fun _ => .fault (.inr rfl)) fun hinvalid => absurd he.1 hinvalid
  · exact .bind (R := fun _ _ => False) (pageWalk_fault (Nat.not_lt.mp hlt) (.inl rfl))
      fun _ _ hfalse => hfalse.elim

end

end Phys

end Pke
