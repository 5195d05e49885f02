import Mathlib.Data.List.Infix
import Pke.PageTable

/-!
# Virtual memory (`vmm.c`)

The functions that walk and change page tables, over the memory and the
allocator of `pmm.c`. A walk that may allocate takes pages from the free
list and hangs them into the tree (`walkFrom_post`); the pages that are
neither in the tree nor free are not touched (`Extends.frame`). What a
page table means for the user is a map from virtual pages to entries, and
`map_pages` and `user_vm_unmap` are updates of that map
(`sv39_map`).
-/

namespace Pke

def protRead : Nat := 1
def protWrite : Nat := 2
def protExec : Nat := 4

/-- `prot_to_type`. -/
def protToType (prot : Nat) (user : Bool) : Nat :=
  let perm := if prot &&& protRead ≠ 0 then pteR ||| pteA else 0
  let perm := if prot &&& protWrite ≠ 0 then perm ||| (pteW ||| pteD) else perm
  let perm := if prot &&& protExec ≠ 0 then perm ||| (pteX ||| pteA) else perm
  let perm := if perm = 0 then pteR else perm
  if user then perm ||| pteU else perm

variable {s s' : Phys} {va level pt dir a p e v pa perm size : Nat} {alloc : Bool} {m m' : Mem}
  {n : Node} {E : Fault → Prop} {l : List Nat}

namespace Phys

open Exec (Post get modify fault)

/-- The loop of `page_walk`, from the table `pt` of the given level. -/
def walkFrom (va : Nat) (alloc : Bool) : Nat → Nat → PhysM Nat
  | 0, pt => pure (pt + 8 * px 0 va)
  | level + 1, pt => do
      let s ← get
      let pte := pt + 8 * px (level + 1) va
      if load64 s.mem pte &&& pteV ≠ 0 then walkFrom va alloc level (pte2pa (load64 s.mem pte))
      else if alloc then do
        let p ← allocPage
        if p ≠ 0 then do
          modify fun s => { s with mem := memset s.mem p 0 pgSize }
          modify fun s => { s with mem := store64 s.mem pte (pa2pte p ||| pteV) }
          walkFrom va alloc level p
        else pure 0
      else pure 0

/-- `page_walk`: the address of the entry, or `0`. -/
def pageWalk (dir va : Nat) (alloc : Bool) : PhysM Nat :=
  if va ≥ maxVA then fault (.panic "page_walk") else walkFrom va alloc 2 dir

/-- `lookup_pa`. -/
def lookupPa (dir va : Nat) : PhysM Nat :=
  if va ≥ maxVA then pure 0
  else do
    let pte ← pageWalk dir va false
    let s ← get
    if pte = 0 ∨ load64 s.mem pte &&& pteV = 0 ∨
        (load64 s.mem pte &&& pteR = 0 ∧ load64 s.mem pte &&& pteW = 0) then pure 0
    else pure (pte2pa (load64 s.mem pte))

/-- The loop of `map_pages`, with fuel. -/
def mapFrom (dir last perm : Nat) : Nat → Nat → Nat → PhysM Int
  | 0, first, _ => if first ≤ last then fault (.ub "fuel") else pure 0
  | fuel + 1, first, pa =>
      if first ≤ last then do
        let pte ← pageWalk dir first true
        if pte = 0 then pure (-1)
        else do
          let s ← get
          if load64 s.mem pte &&& pteV ≠ 0 then
            fault (.panic "map_pages fails on mapping va (0x%lx) to pa (0x%lx)")
          else do
            modify fun s => { s with mem := store64 s.mem pte (pa2pte pa ||| perm ||| pteV) }
            mapFrom dir last perm fuel (first + pgSize) ((pa + pgSize) % 2 ^ 64)
      else pure 0

/-- `map_pages`. -/
def mapPages (dir va size pa perm : Nat) : PhysM Int :=
  let first := roundDown va pgSize
  let last := roundDown (sub64 (va + size) 1) pgSize
  mapFrom dir last perm ((last - first) / pgSize + 1) first pa

/-- `user_va_to_pa`. -/
def userVaToPa (dir va : Nat) : PhysM Nat := do
  let pte ← pageWalk dir va false
  let s ← get
  if pte = 0 ∨ load64 s.mem pte &&& pteV = 0 then pure 0
  else pure (pte2pa (load64 s.mem pte) + (va &&& (pgSize - 1)))

/-- `user_vm_map`. -/
def userVmMap (dir va size pa perm : Nat) : PhysM Unit := do
  if (← mapPages dir va size pa perm) ≠ 0 then fault (.panic "fail to user_vm_map .")
  else pure ()

/-- `user_vm_unmap`: one page, whatever the size. -/
def userVmUnmap (dir va _size : Nat) (free : Bool) : PhysM Unit := do
  let pte ← pageWalk dir va false
  let s ← get
  if pte = 0 ∨ load64 s.mem pte &&& pteV = 0 then pure ()
  else do
    let pa := pte2pa (load64 s.mem pte)
    if free then freePage pa
    modify fun s => { s with mem := store64 s.mem pte 0 }

/-! ## Walking without allocating -/

/-- The address of the entry of `va`. -/
def slot (m : Mem) (dir va : Nat) : Option Nat :=
  (tableAt m dir (.leaf (px 2 va) (px 1 va))).map (· + 8 * px 0 va)

theorem walkFrom_read :
    walkFrom va false (level + 1) pt s = match child s.mem pt (px (level + 1) va) with
      | some pt' => walkFrom va false level pt' s
      | none => .ok (0, s) := by
  rw [walkFrom, Exec.bind_get, child, pteAt]
  split
  · rfl
  · rfl

theorem pageWalk_read (hva : va < maxVA) :
    pageWalk dir va false s = .ok ((slot s.mem dir va).getD 0, s) := by
  rw [pageWalk, if_neg (Nat.not_le.mpr hva), walkFrom_read, slot]
  cases h2 : tableAt s.mem dir (.mid (px 2 va)) with
  | none =>
      rw [tableAt_leaf_none h2, show child s.mem dir (px (1 + 1) va) = none from h2]
      rfl
  | some pt =>
      rw [tableAt_leaf h2, show child s.mem dir (px (1 + 1) va) = some pt from h2]
      dsimp only
      rw [walkFrom_read]
      cases child s.mem pt (px 1 va) <;> rfl

/-- A walk does not allocate where there is a table. -/
theorem walkFrom_child {pt' : Nat} (h : child s.mem pt (px (level + 1) va) = some pt') :
    walkFrom va alloc (level + 1) pt s = walkFrom va alloc level pt' s := by
  rw [child, Option.ite_none_right_eq_some] at h
  obtain ⟨hvalid, hpt⟩ := h
  rw [walkFrom, Exec.bind_get,
    show load64 s.mem (pt + 8 * px (level + 1) va) = pteAt s.mem pt (px (level + 1) va) from rfl,
    if_pos hvalid, Option.some.inj hpt]

theorem pageWalk_slot (hva : va < maxVA) (h : slot s.mem dir va = some a) :
    pageWalk dir va alloc s = .ok (a, s) := by
  obtain ⟨leaf, hleaf, rfl⟩ := Option.map_eq_some_iff.mp h
  obtain ⟨mid, hmid, hchild⟩ := Option.bind_eq_some_iff.mp hleaf
  rw [pageWalk, if_neg (Nat.not_le.mpr hva), walkFrom_child hmid, walkFrom_child hchild]
  rfl

/-- What `lookup_pa` returns. -/
def lookup (m : Mem) (dir va : Nat) : Nat :=
  if va ≥ maxVA then 0
  else match entry m dir va with
    | some e => if e &&& pteR = 0 ∧ e &&& pteW = 0 then 0 else pte2pa e
    | none => 0

theorem entry_of_slot (h : slot m dir va = some a) :
    entry m dir va = if load64 m a &&& pteV ≠ 0 then some (load64 m a) else none := by
  unfold slot at h
  obtain ⟨pt, hpt, rfl⟩ := Option.map_eq_some_iff.mp h
  rw [entry, entryAt, hpt]
  rfl

theorem entry_of_slot_none (h : slot m dir va = none) : entry m dir va = none := by
  unfold slot at h
  rw [entry, entryAt, Option.map_eq_none_iff.mp h]
  rfl

theorem slot_ne_zero (ht : Tree m dir) (h : slot m dir va = some a) : a ≠ 0 := by
  unfold slot at h
  obtain ⟨pt, hpt, rfl⟩ := Option.map_eq_some_iff.mp h
  have := (ht.page pt ⟨_, hpt⟩).2
  omega

theorem lookupPa_eq (ht : Tree s.mem dir) : lookupPa dir va s = .ok (lookup s.mem dir va, s) := by
  unfold lookupPa lookup
  split
  · rfl
  · rename_i hva
    rw [Exec.bind_of_ok (pageWalk_read (Nat.not_le.mp hva)),
      Exec.bind_get]
    cases hslot : slot s.mem dir va with
    | none =>
        rw [entry_of_slot_none hslot]
        rfl
    | some a =>
        have ha := slot_ne_zero ht hslot
        rw [entry_of_slot hslot]
        simp only [Option.getD_some, ha, false_or]
        by_cases hv : load64 s.mem a &&& pteV = 0
        · simp only [hv, true_or, if_true, ne_eq, not_true_eq_false, if_false]
          rfl
        · simp only [hv, false_or, ne_eq, not_false_eq_true, if_true]
          split <;> rfl

/-! ## Walking and allocating -/

/-- A page table whose pages are not free. -/
structure Space (s : Phys) (l : List Nat) (dir : Nat) : Prop where
  pool : s.Pool l
  tree : Tree s.mem dir
  apart : ∀ p ∈ l, p ∉ tables s.mem dir

/-- Some of the free pages `l` have become tables of `dir`, and no page has changed
that was neither free nor a table. -/
structure Extends (dir : Nat) (s : Phys) (l : List Nat) (s' : Phys) (l' : List Nat) : Prop where
  space : s'.Space l' dir
  suffix : l' <:+ l
  old : ∀ p ∈ tables s.mem dir, p ∈ tables s'.mem dir
  new : ∀ p ∈ tables s'.mem dir, p ∈ tables s.mem dir ∨ p ∈ l
  grown : ∀ p ∈ l, p ∈ l' ∨ p ∈ tables s'.mem dir
  frame : ∀ q, q % pgSize = 0 → q ∉ tables s.mem dir → q ∉ l → SamePage s.mem s'.mem q
  bounds : s'.freeMemStart = s.freeMemStart ∧ s'.freeMemEnd = s.freeMemEnd

section

variable {dir : Nat} {s s' s'' : Phys} {l l' l'' : List Nat}

theorem Space.extends_refl (h : s.Space l dir) : Extends dir s l s l :=
  ⟨h, List.suffix_refl l, fun _ hp => hp, fun _ hp => .inl hp, fun _ hp => .inl hp,
    fun _ _ _ _ _ _ => rfl, rfl, rfl⟩

theorem Extends.trans (h : Extends dir s l s' l') (h' : Extends dir s' l' s'' l'') :
    Extends dir s l s'' l'' where
  space := h'.space
  suffix := h'.suffix.trans h.suffix
  old p hp := h'.old p (h.old p hp)
  new p hp := by
    rcases h'.new p hp with hp' | hp'
    · exact h.new p hp'
    · exact .inr (h.suffix.subset hp')
  grown p hp := by
    rcases h.grown p hp with hp' | hp'
    · exact h'.grown p hp'
    · exact .inr (h'.old p hp')
  frame q hq hqt hql := by
    refine (h.frame q hq hqt hql).trans (h'.frame q hq (fun hmem => ?_) fun hmem => ?_)
    · exact (h.new q hmem).elim hqt hql
    · exact hql (h.suffix.subset hmem)
  bounds := ⟨h'.bounds.1.trans h.bounds.1, h'.bounds.2.trans h.bounds.2⟩

/-- A new table from the free list. -/
theorem Space.grow {k : Ix} (h : s.Space (p :: l) dir) (hpt : pt ∈ tables s.mem dir)
    (hs' : s'.mem = Pke.grow s.mem pt k p) (hpool : Pool { s' with mem := s.mem } l)
    (hbounds : s'.freeMemStart = s.freeMemStart ∧ s'.freeMemEnd = s.freeMemEnd)
    (hgrown : NewTable s.mem (Pke.grow s.mem pt k p) dir p) : Extends dir s (p :: l) s' l := by
  have hp := h.pool.page p (by simp)
  have hfree : ∀ q ∈ l, SamePage s.mem (Pke.grow s.mem pt k p) q := by
    intro q hq
    refine samePage_grow hp.1 (h.tree.page pt hpt).1 (h.pool.page q (by simp [hq])).1 ?_ ?_
    · exact fun heq => (List.nodup_cons.mp h.pool.nodup).1 (heq ▸ hq)
    · exact fun heq => h.apart q (by simp [hq]) (heq ▸ hpt)
  obtain ⟨m, head, start, fin⟩ := s'
  obtain rfl : m = _ := hs'
  refine ⟨⟨hpool.frame hfree, hgrown.tree, fun q hq => ?_⟩, List.suffix_cons p l, fun q hq => ?_,
    fun q hq => ?_, fun q hq => ?_, fun q hq hqt hql => ?_, hbounds⟩
  · rw [hgrown.tables, Set.mem_insert_iff, not_or]
    exact ⟨fun heq => (List.nodup_cons.mp h.pool.nodup).1 (heq ▸ hq), h.apart q (by simp [hq])⟩
  · rw [hgrown.tables]
    exact Set.mem_insert_of_mem _ hq
  · rw [hgrown.tables] at hq
    rcases Set.mem_insert_iff.mp hq with rfl | hq'
    · exact .inr (by simp)
    · exact .inl hq'
  · rcases List.mem_cons.mp hq with rfl | hq'
    · rw [hgrown.tables]
      exact .inr (Set.mem_insert _ _)
    · exact .inl hq'
  · refine samePage_grow hp.1 (h.tree.page pt hpt).1 hq ?_ ?_
    · exact fun heq => hql (by simp [heq])
    · exact fun heq => hqt (heq ▸ hpt)

end

/-- The place a walk for `va` ends at. -/
def leafOf (va : Nat) : Node → Node
  | .root => .leaf (px 2 va) (px 1 va)
  | .mid i => .leaf i (px 1 va)
  | .leaf i j => .leaf i j

theorem leafOf_down (h : n.level = level + 1) :
    leafOf va (n.down (px (level + 1) va)) = leafOf va n := by
  cases n with
  | root =>
      obtain rfl : level = 1 := by simpa [Node.level] using h.symm
      rfl
  | mid i =>
      obtain rfl : level = 0 := by simpa [Node.level] using h.symm
      rfl
  | leaf i j => simp [Node.level] at h

/-- The places a walk for `va` that is at `n` still has to pass. -/
def below (va : Nat) : Node → List Node
  | .root => [.mid (px 2 va), .leaf (px 2 va) (px 1 va)]
  | .mid i => [.leaf i (px 1 va)]
  | .leaf _ _ => []

theorem below_down (h : n.level = level + 1) :
    below va n = n.down (px (level + 1) va) :: below va (n.down (px (level + 1) va)) := by
  cases n with
  | root =>
      obtain rfl : level = 1 := by simpa [Node.level] using h.symm
      rfl
  | mid i =>
      obtain rfl : level = 0 := by simpa [Node.level] using h.symm
      rfl
  | leaf i j => simp [Node.level] at h

/-- A walk that allocates keeps all entries, and returns the place of the entry
it was asked for, or `0` when it has run out of pages. New tables hang on its
way only. -/
theorem walkFrom_post : ∀ {level : Nat} {n : Node} {pt : Nat}
    {s : Phys} {l : List Nat}, s.Space l dir → n.level = level → tableAt s.mem dir n = some pt →
    Post (walkFrom va true level pt) s (fun r s' => ∃ l', Extends dir s l s' l' ∧
      (∀ v, entry s'.mem dir v = entry s.mem dir v) ∧
      (∀ n' ∉ below va n, tableAt s'.mem dir n' = tableAt s.mem dir n') ∧
      (r = 0 ∧ l.length < level ∨ ∃ q,
        tableAt s'.mem dir (leafOf va n) = some q ∧ r = q + 8 * px 0 va)) E := by
  intro level
  induction level with
  | zero =>
      intro n pt s l h hn hpt
      cases n with
      | root => simp [Node.level] at hn
      | mid i => simp [Node.level] at hn
      | leaf i j =>
          exact .pure ⟨l, h.extends_refl, fun _ => rfl, fun _ _ => rfl, .inr ⟨pt, hpt, rfl⟩⟩
  | succ level ih =>
      intro n pt s l h hn hpt
      have hdown := tableAt_down hn hpt (px (level + 1) va)
      have hnext := Node.level_down (k := px (level + 1) va) hn
      rw [← leafOf_down hn]
      rw [walkFrom]
      refine .bindGet (.ite (fun hv => ?_) fun hv => ?_)
      · rw [child, pteAt, if_pos hv] at hdown
        refine (ih h hnext hdown).mono fun r s' => ?_
        rintro ⟨l', hext, hentry, hnodes, hr⟩
        refine ⟨l', hext, hentry, fun n' hn' => hnodes n' fun hmem => hn' ?_,
          hr.imp (fun hz => ⟨hz.1, hz.2.trans (Nat.lt_succ_self _)⟩) id⟩
        rw [below_down hn]
        exact List.mem_cons_of_mem _ hmem
      rw [child, pteAt, if_neg hv] at hdown
      rw [if_pos rfl]
      refine .bind (allocPage_post h.pool) ?_
      rintro p s1 (⟨rfl, rfl, rfl⟩ | ⟨rest, rfl, hp0, hmem, hstart, hend, hpool⟩)
      · exact .pure ⟨[], h.extends_refl, fun _ => rfl, fun _ _ => rfl, .inl ⟨rfl, Nat.succ_pos _⟩⟩
      rw [if_pos hp0]
      refine .bindModify (.bindModify ?_)
      have hp := h.pool.page p (by simp)
      have h64 : p < 2 ^ 64 := hp.2.2.trans_le h.pool.high
      have hnew := h.apart p (by simp)
      have hgrown := grown_down hn hpt h.tree ⟨hp.1, hp0⟩ h64 hnew hdown
      have hgrow := tableAt_grow hn hpt h.tree ⟨hp.1, hp0⟩ h64 hnew hdown
      obtain ⟨m, head, start, fin⟩ := s1
      obtain rfl : m = s.mem := hmem
      have hext : Extends dir s (p :: rest)
          ⟨grow s.mem pt (px (level + 1) va) p, head, start, fin⟩ rest :=
        h.grow ⟨n, hpt⟩ rfl hpool ⟨hstart, hend⟩ hgrown
      refine (ih hext.space hnext ((hgrow _).trans (if_pos rfl))).mono fun r s' => ?_
      rintro ⟨l', hext', hentry, hnodes, hr⟩
      refine ⟨l', hext.trans hext', fun v => (hentry v).trans (hgrown.entry v), fun n' hn' => ?_,
        hr.imp (fun hz => ⟨hz.1, Nat.succ_lt_succ hz.2⟩) id⟩
      rw [below_down hn, List.mem_cons, not_or] at hn'
      exact (hnodes n' hn'.2).trans ((hgrow n').trans (if_neg hn'.1))

theorem pageWalk_fault {Q : Nat → Phys → Prop} (hva : maxVA ≤ va) (he : E (.panic "page_walk")) :
    Post (pageWalk dir va alloc) s Q E := by
  rw [pageWalk, if_pos hva]
  exact .fault he

theorem pageWalk_nodes (h : s.Space l dir) (hva : va < maxVA) :
    Post (pageWalk dir va true) s (fun r s' => ∃ l', Extends dir s l s' l' ∧
      (∀ v, entry s'.mem dir v = entry s.mem dir v) ∧
      (∀ n ∉ below va .root, tableAt s'.mem dir n = tableAt s.mem dir n) ∧
      (r = 0 ∧ l.length < 2 ∨ slot s'.mem dir va = some r)) E := by
  rw [pageWalk, if_neg (Nat.not_le.mpr hva)]
  refine (walkFrom_post (n := .root) h rfl rfl).mono fun r s' => ?_
  rintro ⟨l', hext, hentry, hnodes, hr⟩
  refine ⟨l', hext, hentry, hnodes, hr.imp id ?_⟩
  rintro ⟨q, hq, rfl⟩
  have hq' : tableAt s'.mem dir (.leaf (px 2 va) (px 1 va)) = some q := hq
  rw [slot, hq']
  rfl

theorem pageWalk_post (h : s.Space l dir) (hva : va < maxVA) :
    Post (pageWalk dir va true) s (fun r s' => ∃ l', Extends dir s l s' l' ∧
      (∀ v, entry s'.mem dir v = entry s.mem dir v) ∧
      (r = 0 ∧ l.length < 2 ∨ slot s'.mem dir va = some r)) E := by
  refine (pageWalk_nodes h hva).mono fun r s' => ?_
  rintro ⟨l', hext, hentry, -, hr⟩
  exact ⟨l', hext, hentry, hr⟩

/-! ## Setting an entry -/

/-- The table with the entry of `va` set to `e`. -/
theorem Space.set (h : s.Space l dir) (ha : slot s.mem dir va = some a) :
    Extends dir s l { s with mem := store64 s.mem a e } l := by
  unfold slot at ha
  obtain ⟨pt, hpt, rfl⟩ := Option.map_eq_some_iff.mp ha
  have hat := tableAt_setLeaf (k := px 0 va) (v := e) h.tree hpt
  have hpage := h.tree.page pt ⟨_, hpt⟩
  have hframe : ∀ q, q % pgSize = 0 → q ∉ tables s.mem dir →
      SamePage s.mem (store64 s.mem (pt + 8 * px 0 va) e) q := by
    intro q hq hqt
    exact samePage_store hpage.1 hq (fun heq => hqt (heq ▸ ⟨_, hpt⟩)) (ix_bound _)
  refine ⟨⟨h.pool.frame fun q hq => hframe q (h.pool.page q hq).1 (h.apart q hq),
    h.tree.congr hat, ?_⟩, List.suffix_refl l, ?_, ?_, fun _ hp => .inl hp,
    fun q hq hqt _ => hframe q hq hqt, rfl, rfl⟩
  · rw [tables_congr hat]
    exact h.apart
  · rw [tables_congr hat]
    exact fun _ hp => hp
  · rw [tables_congr hat]
    exact fun _ hp => .inl hp

theorem entry_set (ht : Tree m dir) (hva : va < maxVA) (hv : v < maxVA)
    (ha : slot m dir va = some a) : entry (store64 m a e) dir v = if v / pgSize = va / pgSize then
      (if e % 2 ^ 64 &&& pteV ≠ 0 then some (e % 2 ^ 64) else none) else entry m dir v := by
  unfold slot at ha
  obtain ⟨pt, hpt, rfl⟩ := Option.map_eq_some_iff.mp ha
  rw [entry, entryAt_setLeaf ht hpt]
  refine if_congr ⟨fun heq => px_inj hv hva heq.1 heq.2.1 heq.2.2, fun heq => ?_⟩ rfl rfl
  exact ⟨px_congr heq 2, px_congr heq 1, px_congr heq 0⟩

/-! ## Mapping -/

/-- The entry `map_pages` stores. -/
def leafPte (pa perm : Nat) : Nat := pa2pte pa ||| perm ||| pteV

section

variable {pa perm : Nat} (hperm : perm < 1024)

include hperm

theorem flags_lt : perm ||| pteV < 1024 := Nat.or_lt_two_pow (n := 10) hperm (by decide)

theorem leafPte_lt (h64 : pa < 2 ^ 64) : leafPte pa perm < 2 ^ 64 := by
  rw [leafPte, Nat.or_assoc]
  exact mk_lt h64 (flags_lt hperm)

theorem pteFlags_leafPte : pteFlags (leafPte pa perm) = perm ||| pteV := by
  rw [leafPte, Nat.or_assoc]
  exact pteFlags_mk (flags_lt hperm)

theorem pte2pa_leafPte (hpa : pa % pgSize = 0) (h64 : pa < 2 ^ 64) :
    pte2pa (leafPte pa perm) = pa := by
  rw [leafPte, Nat.or_assoc]
  exact pte2pa_mk hpa h64 (flags_lt hperm)

theorem leafPte_and {i : Nat} (hi : i < 10) :
    leafPte pa perm &&& 2 ^ i = (perm ||| pteV) &&& 2 ^ i := by
  rw [leafPte, Nat.or_assoc]
  exact and_flag_mk (flags_lt hperm) hi

/-- The flags of an entry, the valid bit apart. -/
theorem leafPte_bit {i : Nat} (h0 : i ≠ 0) (hi : i < 10) : leafPte pa perm &&& 2 ^ i = perm &&& 2 ^ i := by
  have hv : pteV &&& 2 ^ i = 0 := by
    rw [Nat.and_two_pow, show pteV = 2 ^ 0 from rfl, Nat.testBit_two_pow]
    simp [Ne.symm h0]
  rw [leafPte_and hperm hi, Nat.and_comm, Nat.and_or_distrib_left, Nat.and_comm (2 ^ i) pteV,
    hv, Nat.or_zero, Nat.and_comm]

theorem leafPte_valid : leafPte pa perm &&& pteV ≠ 0 := by
  have hbit : leafPte pa perm &&& 2 ^ 0 = (perm ||| pteV) &&& 2 ^ 0 := leafPte_and hperm (by decide)
  rw [show 2 ^ 0 = pteV from rfl] at hbit
  rw [hbit, Nat.and_comm, Nat.and_or_distrib_left, Nat.and_self]
  exact fun h => absurd (Nat.or_eq_zero_iff.mp h).2 (by decide)

end

/-- The entry of `v` when the pages from `first` to `last` are mapped to `pa`. -/
def mappedEntry (m : Mem) (dir first last pa perm v : Nat) : Option Nat :=
  if first ≤ roundDown v pgSize ∧ roundDown v pgSize ≤ last then
    some (leafPte ((pa + (roundDown v pgSize - first)) % 2 ^ 64) perm)
  else entry m dir v

theorem mappedEntry_next {first last : Nat} (hfirst : first % pgSize = 0) (hle : first ≤ last)
    (h64 : pa < 2 ^ 64)
    (hm' : entry m' dir v = if v / pgSize = first / pgSize then some (leafPte pa perm)
      else entry m dir v) :
    mappedEntry m' dir (first + pgSize) last ((pa + pgSize) % 2 ^ 64) perm v =
      mappedEntry m dir first last pa perm v := by
  unfold mappedEntry
  rw [hm']
  have hfirst' : first % 4096 = 0 := hfirst
  unfold roundDown pgSize
  by_cases hv : v / 4096 = first / 4096
  · have hround : v / 4096 * 4096 = first := by omega
    rw [hround, if_neg (by omega), if_pos hv, if_pos ⟨le_rfl, hle⟩, Nat.sub_self, Nat.add_zero,
      Nat.mod_eq_of_lt h64]
  · rw [if_neg hv]
    refine if_ctx_congr (by omega) (fun hin => ?_) fun _ => rfl
    have hpa : ((pa + 4096) % 2 ^ 64 + (v / 4096 * 4096 - (first + 4096))) % 2 ^ 64 =
        (pa + (v / 4096 * 4096 - first)) % 2 ^ 64 := by omega
    rw [hpa]

/-- The faults of `map_pages`. -/
def MapFault (e : Fault) : Prop :=
  e = .panic "page_walk" ∨ e = .panic "map_pages fails on mapping va (0x%lx) to pa (0x%lx)"

/-- What `map_pages` does to the entries when it returns `0`. -/
structure Maps (dir first last pa perm : Nat) (m m' : Mem) : Prop where
  entry : ∀ v < maxVA, entry m' dir v = mappedEntry m dir first last pa perm v
  fresh : ∀ v < maxVA, first ≤ roundDown v pgSize → roundDown v pgSize ≤ last → Pke.entry m dir v = none
  below : first ≤ last → last < maxVA

/-- The loop of `map_pages` maps the pages up to `last`. -/
theorem mapFrom_post {last : Nat} (hperm : perm < 1024) (hlast : last % pgSize = 0) :
    ∀ {fuel first pa : Nat} {s : Phys} {l : List Nat}, s.Space l dir → first % pgSize = 0 →
      pa < 2 ^ 64 → last < first + fuel * pgSize →
      Post (mapFrom dir last perm fuel first pa) s (fun r s' => ∃ l', Extends dir s l s' l' ∧
        (r = 0 → Maps dir first last pa perm s.mem s'.mem)) MapFault := by
  have hdone : ∀ {first pa : Nat} {s : Phys} {l : List Nat}, s.Space l dir → ¬first ≤ last →
      ∃ l', Extends dir s l s l' ∧ ((0 : Int) = 0 → Maps dir first last pa perm s.mem s.mem) := by
    intro first pa s l h hstop
    refine ⟨l, h.extends_refl, fun _ => ⟨fun v _ => ?_, fun v _ hlo hhi => ?_, fun hle => ?_⟩⟩
    · rw [mappedEntry, if_neg (by omega)]
    · exact absurd (hlo.trans hhi) hstop
    · exact absurd hle hstop
  intro fuel
  induction fuel with
  | zero =>
      intro first pa s l h hfirst h64 hfuel
      rw [mapFrom, if_neg (by omega)]
      exact .pure (hdone h (by omega))
  | succ fuel ih =>
      intro first pa s l h hfirst h64 hfuel
      rw [mapFrom]
      refine .ite (fun hle => ?_) fun hstop => .pure (hdone h hstop)
      by_cases hva : first < maxVA
      case neg =>
        refine .bind (R := fun _ _ => False) (pageWalk_fault (Nat.not_lt.mp hva) (.inl rfl)) ?_
        exact fun _ _ hfalse => hfalse.elim
      refine .bind (pageWalk_post h hva) ?_
      rintro pte s1 ⟨l1, hext, hentry, hpte⟩
      refine .ite (fun hz => .pure ⟨l1, hext, fun hr => absurd hr (by decide)⟩) fun hz => ?_
      have hslot := hpte.resolve_left fun h0 => hz h0.1
      refine .bindGet (.ite (fun _ => .fault (.inr rfl)) fun hinvalid => .bindModify ?_)
      have hset := hext.space.set (e := leafPte pa perm) hslot
      have h64' : (pa + pgSize) % 2 ^ 64 < 2 ^ 64 := Nat.mod_lt _ (by decide)
      have hfirst' : (first + pgSize) % pgSize = 0 := by rw [Nat.add_mod_right, hfirst]
      have hfuel' : last < first + pgSize + fuel * pgSize := by
        rw [Nat.succ_mul] at hfuel
        omega
      refine (ih hset.space hfirst' h64' hfuel').mono fun r s' => ?_
      rintro ⟨l', hext', hmap⟩
      refine ⟨l', (hext.trans hset).trans hext', fun hr => ?_⟩
      have hstored : ∀ v < maxVA, entry (store64 s1.mem pte (leafPte pa perm)) dir v =
          if v / pgSize = first / pgSize then some (leafPte pa perm) else entry s.mem dir v := by
        intro v hv
        rw [entry_set hext.space.tree hva hv hslot, hentry,
          Nat.mod_eq_of_lt (leafPte_lt hperm h64), if_pos (leafPte_valid hperm)]
      refine ⟨fun v hv => ?_, fun v hv hlo hhi => ?_, fun _ => ?_⟩
      · rw [(hmap hr).entry v hv]
        exact mappedEntry_next hfirst hle h64 (hstored v hv)
      · by_cases heq : v / pgSize = first / pgSize
        · rw [entry_congr heq, ← hentry, entry_of_slot hslot, if_neg hinvalid]
        · have hlo' : first + pgSize ≤ roundDown v pgSize := by
            unfold roundDown pgSize at *
            omega
          have hnone := (hmap hr).fresh v hv hlo' hhi
          rwa [hstored v hv, if_neg heq] at hnone
      · by_cases hmore : first + pgSize ≤ last
        · exact (hmap hr).below hmore
        · unfold pgSize at *
          omega

theorem mapPages_post (h : s.Space l dir) (hperm : perm < 1024) (h64 : pa < 2 ^ 64) :
    Post (mapPages dir va size pa perm) s (fun r s' => ∃ l', Extends dir s l s' l' ∧
      (r = 0 → Maps dir (roundDown va pgSize) (roundDown (sub64 (va + size) 1) pgSize) pa perm
        s.mem s'.mem)) MapFault := by
  rw [mapPages]
  refine mapFrom_post hperm (Nat.mul_mod_left _ _) h (Nat.mul_mod_left _ _) h64 ?_
  unfold roundDown pgSize
  omega

-- the unifier would unroll the loop wherever the sizes are closed terms
attribute [irreducible] mapFrom

/-! ## Unmapping -/

/-- A page that is no table may be written. -/
theorem frame_of_notMem (ht : Tree m dir) (hp : p % pgSize = 0) (hnew : p ∉ tables m dir) :
    ∀ q ∈ tables m dir, SamePage m (store64 m p v) q := by
  intro q hq
  exact samePage_store (k := 0) hp (ht.page q hq).1 (fun heq => hnew (heq ▸ hq)) (by decide)

theorem slot_frame (h : ∀ p ∈ tables m dir, SamePage m m' p) : slot m' dir va = slot m dir va := by
  rw [slot, slot, tableAt_frame h]

/-- A valid entry is cleared, after its page has been given back. -/
theorem userVmUnmap_run (ht : Tree s.mem dir) (hva : va < maxVA) (ha : slot s.mem dir va = some a)
    (hvalid : load64 s.mem a &&& pteV ≠ 0) (hrange : s.InRange (pte2pa (load64 s.mem a))) :
    userVmUnmap dir va size true s =
      .ok ((), { s with
        mem := store64 (store64 s.mem (pte2pa (load64 s.mem a)) s.gFreeMemList) a 0
        gFreeMemList := pte2pa (load64 s.mem a) }) := by
  unfold userVmUnmap
  rw [Exec.bind_of_ok (pageWalk_read hva),
    Exec.bind_get, ha, Option.getD_some,
    if_neg (not_or.mpr ⟨slot_ne_zero ht ha, hvalid⟩)]
  dsimp only
  rw [if_pos rfl, Exec.bind_of_ok (freePage_run hrange)]
  rfl

theorem userVmUnmap_post {free : Bool} (ht : Tree s.mem dir) (hva : va < maxVA)
    (he : entry s.mem dir va = some e)
    (hfree : free = true → s.InRange (pte2pa e) ∧ pte2pa e ∉ tables s.mem dir) :
    Post (userVmUnmap dir va size free) s (fun _ s' => Tree s'.mem dir ∧
      ∀ v < maxVA, entry s'.mem dir v =
        if v / pgSize = va / pgSize then none else entry s.mem dir v) E := by
  cases hslot : slot s.mem dir va with
  | none =>
      rw [entry_of_slot_none hslot] at he
      cases he
  | some a =>
      rw [entry_of_slot hslot, Option.ite_none_right_eq_some] at he
      obtain ⟨hvalid, he⟩ := he
      obtain rfl := Option.some.inj he
      unfold userVmUnmap
      refine .step (pageWalk_read hva) (.bindGet ?_)
      rw [hslot, Option.getD_some, if_neg (not_or.mpr ⟨slot_ne_zero ht hslot, hvalid⟩)]
      -- the page goes back first, and that is not seen in the tables
      have hclear : ∀ {s1 : Phys}, (∀ q ∈ tables s.mem dir, SamePage s.mem s1.mem q) →
          Post (modify fun s => { s with mem := store64 s.mem a 0 }) s1 (fun _ s' =>
            Tree s'.mem dir ∧ ∀ v < maxVA, entry s'.mem dir v =
              if v / pgSize = va / pgSize then none else entry s.mem dir v) E := by
        intro s1 hsame
        have ht1 := ht.congr (tableAt_frame hsame)
        have hslot1 : slot s1.mem dir va = some a := (slot_frame hsame).trans hslot
        refine .modify ⟨?_, fun v hv => ?_⟩
        · obtain ⟨pt, hpt, rfl⟩ := Option.map_eq_some_iff.mp hslot1
          exact ht1.congr (tableAt_setLeaf ht1 hpt)
        · rw [entry_set ht1 hva hv hslot1, entry_frame hsame]
          rfl
      cases free with
      | false => exact hclear fun _ _ _ _ => rfl
      | true =>
          obtain ⟨hrange, hnew⟩ := hfree rfl
          refine .step (freePage_run hrange) (hclear ?_)
          exact frame_of_notMem ht hrange.1 hnew

/-! ## The map from virtual pages to entries -/

theorem lookup_congr (h : v < maxVA → entry m' dir v = entry m dir v) :
    lookup m' dir v = lookup m dir v := by
  unfold lookup
  split
  · rfl
  · rw [h (Nat.not_le.mp ‹_›)]

theorem protToType_lt (prot : Nat) (user : Bool) : protToType prot user < 1024 := by
  unfold protToType
  dsimp only
  split_ifs <;> decide

/-- The page `q` meets the `size` bytes at `va`. -/
def InPages (va size q : Nat) : Prop :=
  q % pgSize = 0 ∧ roundDown va pgSize ≤ q ∧ q ≤ roundDown (va + size - 1) pgSize

/-- The virtual address `v` means the same in both states. -/
structure SameAt (dir v : Nat) (s s' : Phys) : Prop where
  entry : v < maxVA → entry s'.mem dir v = entry s.mem dir v
  lookup : ∃ pa, lookupPa dir v s = .ok (pa, s) ∧ lookupPa dir v s' = .ok (pa, s')

/-- What `map_pages` is for. -/
structure MapsTo (dir va size pa perm : Nat) (s s' : Phys) : Prop where
  inside : ∀ q, InPages va size q →
    lookupPa dir q s' = .ok ((pa + (q - roundDown va pgSize)) % 2 ^ 64, s') ∧
    ∃ e, entry s'.mem dir q = some e ∧ pteFlags e = perm ||| pteV
  outside : ∀ v, ¬InPages va size (roundDown v pgSize) → SameAt dir v s s'
  space : ∃ l, s'.Space l dir

/-- What `user_vm_unmap` is for. -/
structure Unmaps (dir q : Nat) (s s' : Phys) : Prop where
  gone : lookupPa dir q s' = .ok (0, s')
  others : ∀ v, roundDown v pgSize ≠ roundDown q pgSize → SameAt dir v s s'

theorem SameAt.of_entry (ht : Tree s.mem dir) (ht' : Tree s'.mem dir)
    (h : v < maxVA → Pke.entry s'.mem dir v = Pke.entry s.mem dir v) : SameAt dir v s s' := by
  refine ⟨h, _, lookupPa_eq ht, ?_⟩
  rw [lookupPa_eq ht', lookup_congr h]

theorem lookup_leafPte (hv : v < maxVA) (hperm : perm < 1024)
    (hrw : perm &&& pteR ≠ 0 ∨ perm &&& pteW ≠ 0) (hpa : pa % pgSize = 0) (h64 : pa < 2 ^ 64)
    (he : entry m dir v = some (leafPte pa perm)) : lookup m dir v = pa := by
  have hR : leafPte pa perm &&& pteR = perm &&& pteR :=
    leafPte_bit (i := 1) hperm (by decide) (by decide)
  have hW : leafPte pa perm &&& pteW = perm &&& pteW :=
    leafPte_bit (i := 2) hperm (by decide) (by decide)
  have hset : ¬(leafPte pa perm &&& pteR = 0 ∧ leafPte pa perm &&& pteW = 0) := by
    rw [not_and_or, hR, hW]
    exact hrw
  rw [lookup, if_neg (Nat.not_le.mpr hv), he]
  dsimp only
  rw [if_neg hset, pte2pa_leafPte hperm hpa h64]

theorem mapPages_mapsTo (h : s.Space l dir) (hsize : 1 ≤ size) (hva : va + size ≤ maxVA)
    (hpa : pa % pgSize = 0) (h64 : pa < 2 ^ 64) (hperm : perm < 1024)
    (hrw : perm &&& pteR ≠ 0 ∨ perm &&& pteW ≠ 0)
    (hrun : mapPages dir va size pa perm s = .ok (0, s')) : MapsTo dir va size pa perm s s' := by
  have hsub : sub64 (va + size) 1 = va + size - 1 := by
    unfold maxVA at hva
    unfold sub64
    omega
  obtain ⟨l', hext, hmap⟩ := (mapPages_post h hperm h64).of_ok hrun
  have hentry := (hmap rfl).entry
  rw [hsub] at hentry
  refine ⟨fun q hq => ?_, fun v hv => ?_, l', hext.space⟩
  · obtain ⟨hmod, hlo, hhi⟩ := hq
    have hround : roundDown q pgSize = q := by
      unfold roundDown pgSize at *
      omega
    have hlt : q < maxVA := by
      have := Nat.div_mul_le_self (va + size - 1) pgSize
      unfold roundDown at hhi
      omega
    have he := hentry q hlt
    rw [mappedEntry, hround, if_pos ⟨hlo, hhi⟩] at he
    refine ⟨?_, _, he, pteFlags_leafPte hperm⟩
    have hpa' : (pa + (q - roundDown va pgSize)) % 2 ^ 64 % pgSize = 0 := by
      unfold roundDown pgSize at *
      omega
    rw [lookupPa_eq hext.space.tree, lookup_leafPte hlt hperm hrw hpa' (Nat.mod_lt _ (by decide)) he]
  · refine .of_entry h.tree hext.space.tree fun hlt => ?_
    rw [hentry v hlt, mappedEntry, if_neg]
    exact fun hin => hv ⟨Nat.mul_mod_left _ _, hin.1, hin.2⟩

theorem userVmUnmap_unmaps {q : Nat} {free : Bool} (ht : Tree s.mem dir) (hq : q < maxVA)
    (he : entry s.mem dir q = some e)
    (hfree : free = true → s.InRange (pte2pa e) ∧ pte2pa e ∉ tables s.mem dir)
    (hrun : userVmUnmap dir q size free s = .ok ((), s')) : Unmaps dir q s s' := by
  have hpost : Post (userVmUnmap dir q size free) s _ fun _ => True :=
    userVmUnmap_post ht hq he hfree
  obtain ⟨ht', hentry⟩ := hpost.of_ok hrun
  refine ⟨?_, fun v hv => .of_entry ht ht' fun hlt => ?_⟩
  · rw [lookupPa_eq ht', lookup, if_neg (Nat.not_le.mpr hq), hentry q hq, if_pos rfl]
  · rw [hentry v hlt, if_neg]
    exact fun heq => hv (congrArg (· * pgSize) heq)

/-- Page tables as a map from virtual pages to a physical page and permissions. -/
theorem sv39_map {s : Phys} {l : List Nat} {dir : Nat} (h : s.Space l dir) :
    (∀ va size pa prot user s', 1 ≤ size → va + size ≤ maxVA → pa % pgSize = 0 → pa < 2 ^ 64 →
      (protToType prot user &&& pteR ≠ 0 ∨ protToType prot user &&& pteW ≠ 0) →
      mapPages dir va size pa (protToType prot user) s = .ok (0, s') →
      MapsTo dir va size pa (protToType prot user) s s') ∧
    (∀ q e free, q < maxVA → entry s.mem dir q = some e →
      (free = true → s.InRange (pte2pa e) ∧ pte2pa e ∉ tables s.mem dir) →
      ∃ s', userVmUnmap dir q pgSize free s = .ok ((), s') ∧ Unmaps dir q s s') := by
  refine ⟨fun va size pa prot user s' hsize hva hpa h64 hrw hrun => ?_,
    fun q e free hq he hfree => ?_⟩
  · exact mapPages_mapsTo h hsize hva hpa h64 (protToType_lt prot user) hrw hrun
  · have hpost : Post (userVmUnmap dir q pgSize free) s _ fun _ => False :=
      userVmUnmap_post h.tree hq he hfree
    cases hrun : userVmUnmap dir q pgSize free s with
    | error e => exact (hpost.of_error hrun).elim
    | ok r => exact ⟨r.2, rfl, userVmUnmap_unmaps h.tree hq he hfree hrun⟩

/-- An empty directory with two free pages. -/
def emptyDir : Phys :=
  ⟨store64 (fun _ => 0) 12288 8192, 12288, 8192, 32768⟩

theorem emptyDir_root (h : tableAt emptyDir.mem 4096 n = some p) : n = .root ∧ p = 4096 := by
  have hzero : ∀ i, child emptyDir.mem 4096 i = none := by
    intro i
    have hload : pteAt emptyDir.mem 4096 i = 0 := by
      have := i.isLt
      rw [pteAt, emptyDir, load64_store64_ne (by omega), load64, leNat_zero]
    rw [child, hload, Nat.zero_and, if_neg (not_not.mpr rfl)]
  cases n with
  | root => exact ⟨rfl, (Option.some.inj h).symm⟩
  | mid i =>
      rw [tableAt_mid, hzero] at h
      cases h
  | leaf i j =>
      rw [tableAt_leaf_none (hzero i)] at h
      cases h

theorem emptyDir_space : emptyDir.Space [12288, 8192] 4096 := by
  refine ⟨⟨?_, ?_, by decide, by decide⟩, ⟨?_, ?_⟩, ?_⟩
  · have hnext : nextPage emptyDir.mem 12288 = some 8192 := by decide
    have hlast : nextPage emptyDir.mem 8192 = none := by decide
    exact ⟨rfl, hnext, hlast⟩
  · simp [InRange, emptyDir, pgSize]
  · rintro p ⟨n, hn⟩
    obtain ⟨-, rfl⟩ := emptyDir_root hn
    decide
  · intro n n' p hn hn'
    rw [(emptyDir_root hn).1, (emptyDir_root hn').1]
  · rintro p hp ⟨n, hn⟩
    obtain ⟨-, rfl⟩ := emptyDir_root hn
    simp at hp

theorem emptyDir_entry (v : Nat) : entry emptyDir.mem 4096 v = none := by
  rw [entry, entryAt]
  cases h : tableAt emptyDir.mem 4096 (.leaf (px 2 v) (px 1 v)) with
  | none => rfl
  | some p => cases (emptyDir_root h).1

/-- One page is mapped there. -/
theorem mapPages_emptyDir : ∃ s l, Extends 4096 emptyDir [12288, 8192] s l ∧
    mapPages 4096 65536 10 16384 (protToType 3 true) emptyDir = .ok (0, s) ∧
    entry s.mem 4096 65536 = some (leafPte 16384 (protToType 3 true)) ∧
    16384 ∉ tables s.mem 4096 ∧ ∀ v < maxVA, entry s.mem 4096 v =
      if roundDown v pgSize = 65536 then some (leafPte 16384 (protToType 3 true)) else none := by
  have hok : (mapPages 4096 65536 10 16384 (protToType 3 true) emptyDir).toOption.any
      (fun r => r.1 == 0) = true := by decide +kernel
  cases hrun : mapPages 4096 65536 10 16384 (protToType 3 true) emptyDir with
  | error e =>
      rw [hrun] at hok
      cases hok
  | ok r =>
      obtain ⟨r, s⟩ := r
      rw [hrun] at hok
      obtain rfl : r = 0 := by simpa [Except.toOption] using hok
      obtain ⟨l, hext, hmap⟩ := (mapPages_post emptyDir_space (protToType_lt 3 true)
        (by decide)).of_ok hrun
      have hentry : ∀ v < maxVA, entry s.mem 4096 v =
          if roundDown v pgSize = 65536 then some (leafPte 16384 (protToType 3 true)) else none := by
        intro v hv
        have hfirst : roundDown 65536 pgSize = 65536 := by decide
        have hlast : roundDown (sub64 (65536 + 10) 1) pgSize = 65536 := by decide +kernel
        rw [(hmap rfl).entry v hv, mappedEntry, emptyDir_entry, hfirst, hlast]
        by_cases hpage : roundDown v pgSize = 65536
        · rw [if_pos hpage, if_pos ⟨hpage.ge, hpage.le⟩, hpage, Nat.sub_self, Nat.add_zero,
            Nat.mod_eq_of_lt (by decide)]
        · rw [if_neg hpage, if_neg fun h => hpage (Nat.le_antisymm h.2 h.1)]
      refine ⟨s, l, hext, rfl, hentry 65536 (by decide), fun hmem => ?_, hentry⟩
      rcases hext.new _ hmem with ⟨n, hn⟩ | hfree
      · exact absurd (emptyDir_root hn).2 (by decide)
      · simp at hfree

theorem pte2pa_small : pte2pa (leafPte 16384 (protToType 3 true)) = 16384 :=
  pte2pa_leafPte (protToType_lt 3 true) (by decide) (by decide)

/-- The page is unmapped again. -/
theorem sv39_map_page : ∃ s1 s2, emptyDir.Space [12288, 8192] 4096 ∧
    mapPages 4096 65536 10 16384 (protToType 3 true) emptyDir = .ok (0, s1) ∧
    MapsTo 4096 65536 10 16384 (protToType 3 true) emptyDir s1 ∧
    userVmUnmap 4096 65536 pgSize true s1 = .ok ((), s2) ∧ Unmaps 4096 65536 s1 s2 := by
  obtain ⟨s1, l, hext, hrun, he, hnew, -⟩ := mapPages_emptyDir
  have hmaps := (sv39_map emptyDir_space).1 65536 10 16384 3 true s1 (by decide) (by decide)
    (by decide) (by decide) (by decide) hrun
  have hrange : s1.InRange 16384 := by
    rw [InRange, hext.bounds.1, hext.bounds.2]
    decide
  obtain ⟨s2, hrun2, hunmaps⟩ := (sv39_map hext.space).2 65536 _ true (by decide) he
    fun _ => pte2pa_small.symm ▸ ⟨hrange, hnew⟩
  exact ⟨s1, s2, emptyDir_space, hrun, hmaps, hrun2, hunmaps⟩

/-! ## The two translations -/

/-- An entry that lets the kernel read or write a page other than page zero. -/
def Translates (e : Nat) : Prop := (e &&& pteR ≠ 0 ∨ e &&& pteW ≠ 0) ∧ pte2pa e ≠ 0

/-- `lookup_pa` and `user_va_to_pa` return the page of `va` and the address in it, or
both find nothing. -/
def SameTranslation (dir va : Nat) (s : Phys) : Prop :=
  ∃ page pa, lookupPa dir va s = .ok (page, s) ∧ userVaToPa dir va s = .ok (pa, s) ∧
    (pa = 0 ↔ page = 0) ∧ (page ≠ 0 → pa = page + va % pgSize)

theorem userVaToPa_eq (ht : Tree s.mem dir) (hva : va < maxVA) : userVaToPa dir va s =
      .ok (((entry s.mem dir va).map fun e => pte2pa e + va % pgSize).getD 0, s) := by
  rw [userVaToPa, Exec.bind_of_ok (pageWalk_read hva),
    Exec.bind_get]
  cases hslot : slot s.mem dir va with
  | none =>
      rw [entry_of_slot_none hslot]
      rfl
  | some a =>
      have ha := slot_ne_zero ht hslot
      rw [entry_of_slot hslot]
      simp only [Option.getD_some, ha, false_or]
      by_cases hv : load64 s.mem a &&& pteV = 0
      · simp only [hv, if_true, ne_eq, not_true_eq_false, if_false]
        rfl
      · simp only [hv, if_false, ne_eq, not_false_eq_true, if_true]
        rw [show pgSize - 1 = 2 ^ 12 - 1 from rfl, Nat.and_two_pow_sub_one_eq_mod]
        rfl

theorem userVaToPa_above (hva : maxVA ≤ va) :
    userVaToPa dir va s = .error (.panic "page_walk") := by
  rw [userVaToPa, pageWalk, if_pos hva]
  rfl

/-- The two functions differ on an entry exactly when `lookup_pa` does not accept it. -/
theorem sameTranslation_below (ht : Tree s.mem dir) (hva : va < maxVA) :
    SameTranslation dir va s ↔ ∀ e, entry s.mem dir va = some e →
      Translates e ∨ pte2pa e + va % pgSize = 0 := by
  unfold SameTranslation
  rw [lookupPa_eq ht, userVaToPa_eq ht hva, lookup, if_neg (Nat.not_le.mpr hva)]
  cases he : entry s.mem dir va with
  | none => simp
  | some e =>
      simp only [Except.ok.injEq, Prod.mk.injEq, and_true, Option.map_some, Option.getD_some,
        Option.some.injEq, forall_eq']
      constructor
      · rintro ⟨page, pa, rfl, rfl, hzero, heq⟩
        by_cases haccess : e &&& pteR = 0 ∧ e &&& pteW = 0
        · rw [if_pos haccess] at hzero
          exact .inr (hzero.mpr rfl)
        · rw [if_neg haccess] at hzero
          by_cases hpage : pte2pa e = 0
          · exact .inr (hzero.mpr hpage)
          · exact .inl ⟨by tauto, hpage⟩
      · rintro (⟨haccess, hpage⟩ | hnull)
        · rw [if_neg (by tauto)]
          exact ⟨_, _, rfl, rfl, by omega, fun _ => rfl⟩
        · have hpage : pte2pa e = 0 := by omega
          refine ⟨0, _, ?_, rfl, by omega, fun h => absurd rfl h⟩
          split
          · rfl
          · exact hpage

/-- When every user entry of a page table can be read or written and maps a page other
than page zero, the two translations agree on the addresses below `MAXVA`, unless a
supervisor entry is in the way, and on no others. -/
theorem same_translation_iff {s : Phys} {dir va : Nat} (ht : Tree s.mem dir)
    (huser : ∀ v e, v < maxVA → entry s.mem dir v = some e → e &&& pteU ≠ 0 → Translates e) :
    SameTranslation dir va s ↔ va < maxVA ∧ ∀ e, entry s.mem dir va = some e → e &&& pteU = 0 →
      Translates e ∨ pte2pa e + va % pgSize = 0 := by
  by_cases hva : va < maxVA
  · rw [sameTranslation_below ht hva]
    constructor
    · exact fun h => ⟨hva, fun e he _ => h e he⟩
    · rintro ⟨-, h⟩ e he
      by_cases hu : e &&& pteU = 0
      · exact h e he hu
      · exact .inl (huser va e hva he hu)
  · refine iff_of_false ?_ fun h => hva h.1
    rintro ⟨_, _, -, hrun, -⟩
    rw [userVaToPa_above (Nat.not_lt.mp hva)] at hrun
    cases hrun

/-- The directory with one page for the user, readable and writable. -/
theorem mapPages_emptyDir_user : ∃ s, Tree s.mem 4096 ∧
    mapPages 4096 65536 10 16384 (protToType 3 true) emptyDir = .ok (0, s) ∧
    entry s.mem 4096 65541 = some (leafPte 16384 (protToType 3 true)) ∧
    ∀ v e, v < maxVA → entry s.mem 4096 v = some e → e &&& pteU ≠ 0 ∧ Translates e := by
  obtain ⟨s, l, hext, hrun, -, -, hentry⟩ := mapPages_emptyDir
  refine ⟨s, hext.space.tree, hrun, hentry 65541 (by decide), fun v e hv he => ?_⟩
  rw [hentry v hv] at he
  split at he
  · cases he
    exact ⟨by decide, by decide, fun hzero => nomatch pte2pa_small.symm.trans hzero⟩
  · cases he

/-- An address within the page: both find it, and the same address where nothing is mapped
in the next page is `0` for both. -/
theorem same_translation_iff_page : ∃ s,
    mapPages 4096 65536 10 16384 (protToType 3 true) emptyDir = .ok (0, s) ∧
    SameTranslation 4096 65541 s ∧ lookupPa 4096 65541 s = .ok (16384, s) ∧
    userVaToPa 4096 65541 s = .ok (16389, s) ∧ SameTranslation 4096 69637 s := by
  obtain ⟨s, htree, hrun, he, huser⟩ := mapPages_emptyDir_user
  have hsame : ∀ va, va < maxVA → SameTranslation 4096 va s := by
    intro va hva
    refine (same_translation_iff htree fun v e hv he _ => (huser v e hv he).2).mpr
      ⟨hva, fun e he hsuper => ?_⟩
    exact absurd hsuper (huser va e hva he).1
  refine ⟨s, hrun, hsame _ (by decide), ?_, ?_, hsame _ (by decide)⟩
  · rw [lookupPa_eq htree, lookup, if_neg (by decide), he]
    dsimp only
    rw [if_neg (by decide), pte2pa_small]
  · rw [userVaToPa_eq htree (by decide), he, Option.map_some, Option.getD_some, pte2pa_small]
    rfl

/-- The first address above the range is nowhere mapped: `lookup_pa` returns `0`, and
`user_va_to_pa` panics. -/
theorem user_va_to_pa_panics : ∃ s, Tree s.mem 4096 ∧
    entry s.mem 4096 65541 = some (leafPte 16384 (protToType 3 true)) ∧
    (∀ v e, v < maxVA → entry s.mem 4096 v = some e → e &&& pteU ≠ 0 ∧ Translates e) ∧
    lookupPa 4096 maxVA s = .ok (0, s) ∧
    userVaToPa 4096 maxVA s = .error (.panic "page_walk") ∧ ¬SameTranslation 4096 maxVA s := by
  obtain ⟨s, htree, -, he, huser⟩ := mapPages_emptyDir_user
  have hpanics : userVaToPa 4096 maxVA s = .error (.panic "page_walk") :=
    userVaToPa_above (Nat.le_refl _)
  refine ⟨s, htree, he, huser, rfl, hpanics, ?_⟩
  rintro ⟨_, _, -, hrun, -⟩
  rw [hpanics] at hrun
  cases hrun

end Phys

end Pke
