import Pke.Vmm

/-!
# The kernel's page table (`kern_vm_init`)

At boot the kernel maps all of memory to itself, in two calls of `map_pages`
that meet at `_etext`. The page table it builds covers less than a gigabyte,
so its tables hang at few places of the tree (`kernNodes`): every page that
leaves the free list is the table of one of them (`Grown.count`). With that
many pages free the construction succeeds, and it leaves the rest of the list
as it was (`kernVmInit_post`). Console output is left out.
-/

namespace Pke

/-- `PHYS_TOP`. -/
def physTop : Nat := kernBase + pkeMaxAllowableRam

namespace Phys

open Exec (Post get modify fault)

/-- `kern_vm_map`. -/
def kernVmMap (dir va pa size perm : Nat) : PhysM Unit := do
  if (← mapPages dir va size pa perm) ≠ 0 then fault (.panic "kern_vm_map")
  else pure ()

/-- `kern_vm_init`, for a kernel whose text ends at `etext`. -/
def kernVmInit (etext : Nat) : PhysM Nat := do
  let dir ← allocPage
  if dir = 0 then fault .nullPage
  else do
    modify fun s => { s with mem := memset s.mem dir 0 pgSize }
    kernVmMap dir kernBase kernBase (sub64 etext kernBase) (protToType (protRead ||| protExec) false)
    kernVmMap dir etext etext (sub64 physTop etext) (protToType (protRead ||| protWrite) false)
    pure dir

/-! ## The tables of the kernel -/

/-- The places of the tree that the addresses of the kernel lead to, the root
apart. -/
def kernNodes : List Node :=
  .mid (px 2 kernBase) ::
    (List.range 64).map fun j => .leaf (px 2 kernBase) (px 1 (kernBase + j * 2097152))

theorem below_kern {va : Nat} (hlo : kernBase ≤ va) (hhi : va < physTop) {n : Node}
    (hn : n ∈ below va .root) : n ∈ kernNodes := by
  unfold physTop kernBase pkeMaxAllowableRam at *
  have htop : px 2 va = px 2 kernBase := Fin.ext (by rw [px_val, px_val, kernBase]; omega)
  have hmid : px 1 va = px 1 (kernBase + (va - 2147483648) / 2097152 * 2097152) :=
    Fin.ext (by rw [px_val, px_val, kernBase]; omega)
  rcases List.mem_cons.mp hn with rfl | hn
  · rw [htop]
    exact List.mem_cons_self ..
  · obtain rfl := List.mem_singleton.mp hn
    refine List.mem_cons_of_mem _ (List.mem_map.mpr ⟨(va - 2147483648) / 2097152, ?_, ?_⟩)
    · exact List.mem_range.mpr (by omega)
    · rw [htop, hmid]

/-- Pages have been taken for tables of the kernel, and for nothing else. -/
structure Grown (dir : Nat) (s0 : Phys) (l0 : List Nat) (s : Phys) (l : List Nat) : Prop where
  ext : Extends dir s0 l0 s l
  nodes : ∀ n ∉ kernNodes, tableAt s.mem dir n = tableAt s0.mem dir n

section

variable {dir : Nat} {s0 s : Phys} {l0 l : List Nat}

theorem Grown.count (h0 : s0.Space l0 dir) (h : Grown dir s0 l0 s l) :
    l0.length ≤ l.length + 65 := by
  obtain ⟨taken, rfl⟩ := h.ext.suffix
  have hnodup := List.nodup_append.mp h0.pool.nodup
  -- each page taken is the table at one of the places
  have hsub : taken ⊆ kernNodes.filterMap (tableAt s.mem dir) := by
    intro p hp
    have hmem : p ∈ taken ++ l := List.mem_append_left _ hp
    obtain ⟨n, hn⟩ := (h.ext.grown p hmem).resolve_left fun hl => hnodup.2.2 p hp p hl rfl
    refine List.mem_filterMap.mpr ⟨n, ?_, hn⟩
    by_contra hout
    exact h0.apart p hmem ⟨n, (h.nodes n hout).symm.trans hn⟩
  have hle := (hnodup.1.subperm hsub).length_le
  have hplaces : (kernNodes.filterMap (tableAt s.mem dir)).length ≤ 65 :=
    (List.length_filterMap_le _ _).trans (by simp [kernNodes])
  rw [List.length_append]
  omega

/-- A leaf entry is stored in a table that is there. -/
theorem Grown.set (h : Grown dir s0 l0 s l) {va a e : Nat} (ha : slot s.mem dir va = some a) :
    Grown dir s0 l0 { s with mem := store64 s.mem a e } l := by
  refine ⟨h.ext.trans (h.ext.space.set ha), fun n hn => ?_⟩
  unfold slot at ha
  obtain ⟨pt, hpt, rfl⟩ := Option.map_eq_some_iff.mp ha
  exact (tableAt_setLeaf h.ext.space.tree hpt n).trans (h.nodes n hn)

/-- A walk to an address of the kernel, with two pages more than its tables can
take. -/
theorem Grown.walk (h0 : s0.Space l0 dir) (hlen : 67 ≤ l0.length) (h : Grown dir s0 l0 s l)
    {va : Nat} (hlo : kernBase ≤ va) (hhi : va < physTop) {E : Fault → Prop} :
    Post (pageWalk dir va true) s (fun a s' => ∃ l', Grown dir s0 l0 s' l' ∧
      slot s'.mem dir va = some a ∧ ∀ v, entry s'.mem dir v = entry s.mem dir v) E := by
  have hva : va < maxVA := hhi.trans (by decide)
  refine (pageWalk_nodes h.ext.space hva).mono fun a s' => ?_
  rintro ⟨l', hext, hentry, hnodes, hslot⟩
  have hcount := h.count h0
  refine ⟨l', ⟨h.ext.trans hext, fun n hn => ?_⟩, hslot.resolve_left fun hz => by omega, hentry⟩
  exact (hnodes n fun hmem => hn (below_kern hlo hhi hmem)).trans (h.nodes n hn)

/-- Addresses of the kernel that are not mapped yet can be mapped. -/
theorem mapFrom_grown (h0 : s0.Space l0 dir) (hlen : 67 ≤ l0.length) {last perm : Nat}
    (hhi : last < physTop) {fuel : Nat} : ∀ {first pa : Nat} {s : Phys} {l : List Nat},
    Grown dir s0 l0 s l → first % pgSize = 0 → kernBase ≤ first → last < first + fuel * pgSize →
    (∀ v < maxVA, first ≤ roundDown v pgSize → roundDown v pgSize ≤ last →
      entry s.mem dir v = none) →
    Post (mapFrom dir last perm fuel first pa) s
      (fun r s' => r = 0 ∧ ∃ l', Grown dir s0 l0 s' l') fun _ => False := by
  induction fuel with
  | zero =>
      intro first pa s l h hmod hlo hfuel hfresh
      rw [mapFrom, if_neg (by omega)]
      exact .pure ⟨rfl, l, h⟩
  | succ fuel ih =>
      intro first pa s l h hmod hlo hfuel hfresh
      rw [mapFrom]
      refine .ite (fun hle => ?_) fun _ => .pure ⟨rfl, l, h⟩
      have hva : first < maxVA := (hle.trans_lt hhi).trans (by decide)
      refine .bind (h.walk h0 hlen hlo (hle.trans_lt hhi)) ?_
      rintro a s1 ⟨l1, h1, hslot, hentry⟩
      rw [if_neg (slot_ne_zero h1.ext.space.tree hslot)]
      -- the entry is the one of `first`, which is not mapped
      have hround : roundDown first pgSize = first := by
        unfold roundDown pgSize at *
        omega
      have hnone := hfresh first hva (by rw [hround]) (by rw [hround]; exact hle)
      have hinvalid : ¬load64 s1.mem a &&& pteV ≠ 0 := by
        intro hvalid
        rw [← hentry, entry_of_slot hslot, if_pos hvalid] at hnone
        cases hnone
      refine .bindGet ?_
      rw [if_neg hinvalid]
      refine .bindModify (ih (h1.set hslot) ?_ ?_ ?_ fun v hv hlo' hhi' => ?_)
      · rw [Nat.add_mod_right, hmod]
      · omega
      · rw [Nat.succ_mul] at hfuel
        omega
      · rw [entry_set h1.ext.space.tree hva hv hslot, if_neg, hentry]
        · exact hfresh v hv (by omega) hhi'
        · unfold roundDown pgSize at *
          omega

theorem kernVmMap_grown (h0 : s0.Space l0 dir) (hlen : 67 ≤ l0.length)
    (h : Grown dir s0 l0 s l) {va size perm : Nat} (hmod : va % pgSize = 0)
    (hlo : kernBase ≤ va) (hhi : va + size ≤ physTop) (hperm : perm < 1024)
    (hfresh : ∀ v < maxVA, va ≤ roundDown v pgSize → roundDown v pgSize < va + size →
      entry s.mem dir v = none) :
    Post (kernVmMap dir va va size perm) s (fun _ s' => ∃ l', Grown dir s0 l0 s' l' ∧
      ∀ v < maxVA, va + size ≤ roundDown v pgSize → entry s'.mem dir v = entry s.mem dir v)
      fun _ => False := by
  have hpos : 0 < kernBase := by decide
  have htop : physTop < 2 ^ 64 := by decide
  have hfirst : roundDown va pgSize = va := by
    unfold roundDown pgSize at *
    omega
  have hlast : sub64 (va + size) 1 = va + size - 1 := by
    unfold sub64
    omega
  have hend : roundDown (va + size - 1) pgSize < va + size := by
    unfold roundDown pgSize
    omega
  have hgrown : Post (mapPages dir va size va perm) s
      (fun r s' => r = 0 ∧ ∃ l', Grown dir s0 l0 s' l') fun _ => False := by
    unfold mapPages
    dsimp only
    rw [hfirst, hlast]
    refine mapFrom_grown h0 hlen (by omega) h hmod hlo ?_ fun v hv hlo' hhi' =>
      hfresh v hv hlo' (by omega)
    unfold roundDown pgSize at *
    omega
  have hmapped := hgrown.and (mapPages_post h.ext.space hperm (by omega))
  refine .bind (hmapped.monoFault fun _ he => he.1) ?_
  rintro r s' ⟨⟨rfl, l', h'⟩, l'', -, hmaps⟩
  refine .pure ⟨l', h', fun v hv hout => ?_⟩
  rw [(hmaps rfl).entry v hv, mappedEntry, hlast, if_neg (by omega)]

end

theorem Space.ofZero {s : Phys} {l : List Nat} {dir : Nat} (h : s.Pool l) (hmod : dir % pgSize = 0)
    (hne : dir ≠ 0) (hzero : ∀ k, pteAt s.mem dir k = 0) (hnew : dir ∉ l) : s.Space l dir where
  pool := h
  tree := by
    refine ⟨?_, fun n n' p hn hn' => ?_⟩
    · rintro p ⟨n, hn⟩
      rw [(tableAt_of_zero hzero hn).2]
      exact ⟨hmod, hne⟩
    · rw [(tableAt_of_zero hzero hn).1, (tableAt_of_zero hzero hn').1]
  apart := by
    rintro p hp ⟨n, hn⟩
    exact hnew ((tableAt_of_zero hzero hn).2 ▸ hp)

/-- `kern_vm_init` takes the page directory and the pages for its tables from
the front of the free list. -/
theorem kernVmInit_post {s : Phys} {l : List Nat} {etext : Nat} (h : s.Pool l)
    (hlen : 68 ≤ l.length) (hmod : etext % pgSize = 0) (hlo : kernBase ≤ etext)
    (hhi : etext ≤ physTop) :
    Post (kernVmInit etext) s (fun dir s' => ∃ l', s'.Space l' dir ∧ l' <:+ l ∧
      l.length ≤ l'.length + 66 ∧ (∀ p ∈ tables s'.mem dir, p ∈ l) ∧
      s'.freeMemStart = s.freeMemStart ∧ s'.freeMemEnd = s.freeMemEnd) fun _ => False := by
  refine .bind (allocPage_post h) ?_
  rintro dir s1 (⟨-, rfl, -⟩ | ⟨rest, rfl, hne, hmem, hstart, hend, hpool⟩)
  · exact absurd hlen (by decide)
  rw [if_neg hne]
  refine .bindModify ?_
  have hdir := h.page dir (by simp)
  have hnew : dir ∉ rest := (List.nodup_cons.mp h.nodup).1
  have hzero : ∀ k, pteAt (memset s1.mem dir 0 pgSize) dir k = 0 := fun k =>
    load64_memset_zero (Nat.le_add_right _ _) (by have := ix_bound k; omega)
  have hspace : Space { s1 with mem := memset s1.mem dir 0 pgSize } rest dir := by
    refine .ofZero (hpool.frame fun p hp => ?_) hdir.1 hne hzero hnew
    refine samePage_memset hdir.1 (h.page p (by simp [hp])).1 ?_
    exact fun heq => hnew (heq ▸ hp)
  have hrest : 67 ≤ rest.length := by simpa using hlen
  have htext : sub64 etext kernBase = etext - kernBase ∧ sub64 physTop etext = physTop - etext := by
    unfold sub64 physTop kernBase pkeMaxAllowableRam at *
    omega
  rw [htext.1, htext.2]
  refine .bind (kernVmMap_grown hspace hrest ⟨hspace.extends_refl, fun _ _ => rfl⟩ (by decide)
    le_rfl (by omega) (protToType_lt _ _) fun v _ _ _ => entry_of_zero hzero v) ?_
  rintro _ s3 ⟨l3, h3, hkept⟩
  refine .bind (kernVmMap_grown hspace hrest h3 hmod hlo (by omega) (protToType_lt _ _)
    fun v hv hfrom _ => ?_) ?_
  · rw [hkept v hv (by omega)]
    exact entry_of_zero hzero v
  · rintro _ s4 ⟨l4, h4, -⟩
    refine .pure ⟨l4, h4.ext.space, h4.ext.suffix.trans (List.suffix_cons ..), ?_, fun p hp => ?_,
      h4.ext.bounds.1.trans hstart, h4.ext.bounds.2.trans hend⟩
    · have hcount := h4.count hspace
      rw [List.length_cons]
      omega
    · rcases h4.ext.new p hp with ⟨n, hn⟩ | hp'
      · rw [(tableAt_of_zero hzero hn).2]
        exact List.mem_cons_self ..
      · exact List.mem_cons_of_mem _ hp'

end Phys

end Pke
