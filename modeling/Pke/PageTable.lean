import Mathlib.Data.Nat.Bitwise
import Mathlib.Data.Set.Basic
import Pke.Pmm

/-!
# Sv39 page tables in memory

A page table is a tree of pages: the directory, the middle tables its
valid entries point to, and the leaf tables theirs point to. `tableAt`
names the page at each place of the tree, and `Tree` says that no page is
at two places. Three changes of memory are all the code makes: a change
elsewhere (`tableAt_frame`), a store into a leaf entry (`tableAt_setLeaf`),
and a new empty table (`tableAt_grow`). What the tree means is the entry
of each virtual page (`entry`).
-/

namespace Pke

/-! ## Entries -/

def pteV : Nat := 1
def pteR : Nat := 2
def pteW : Nat := 4
def pteX : Nat := 8
def pteU : Nat := 16
def pteA : Nat := 64
def pteD : Nat := 128

/-- `PA2PTE`. -/
def pa2pte (pa : Nat) : Nat := (pa >>> 12) <<< 10

/-- `PTE2PA`. -/
@[irreducible] def pte2pa (pte : Nat) : Nat := ((pte >>> 10) <<< 12) % 2 ^ 64

/-- `PTE_FLAGS`. -/
def pteFlags (pte : Nat) : Nat := pte &&& 1023

variable {pa f dir pt va va' p q v : Nat} {m : Mem} {i j k k' : Ix}

theorem pa2pte_or (hf : f < 1024) : pa2pte pa ||| f = 1024 * (pa / 4096) + f := by
  have hor := Nat.two_pow_add_eq_or_of_lt (i := 10) hf (pa / 4096)
  have hpte : pa2pte pa = 2 ^ 10 * (pa / 4096) := by
    simp [pa2pte, Nat.shiftRight_eq_div_pow, Nat.shiftLeft_eq, Nat.mul_comm]
  rw [hpte, ← hor]

theorem pte2pa_mk (hpa : pa % 4096 = 0) (h64 : pa < 2 ^ 64) (hf : f < 1024) :
    pte2pa (pa2pte pa ||| f) = pa := by
  rw [pa2pte_or hf, pte2pa, Nat.shiftRight_eq_div_pow, Nat.shiftLeft_eq]
  omega

theorem pteFlags_mk (hf : f < 1024) : pteFlags (pa2pte pa ||| f) = f := by
  rw [pa2pte_or hf, pteFlags, show 1023 = 2 ^ 10 - 1 from rfl, Nat.and_two_pow_sub_one_eq_mod]
  omega

theorem and_flag_mk {i : Nat} (hf : f < 1024) (hi : i < 10) :
    (pa2pte pa ||| f) &&& 2 ^ i = f &&& 2 ^ i := by
  rw [pa2pte_or hf, Nat.and_two_pow, Nat.and_two_pow, show 1024 = 2 ^ 10 from rfl,
    Nat.testBit_two_pow_mul_add _ hf, if_pos hi]

theorem mk_lt (h64 : pa < 2 ^ 64) (hf : f < 1024) : pa2pte pa ||| f < 2 ^ 64 := by
  rw [pa2pte_or hf]
  omega

theorem pte2pa_mod (pte : Nat) : pte2pa pte % 4096 = 0 := by
  rw [pte2pa, Nat.shiftLeft_eq]
  omega

theorem pte2pa_lt (pte : Nat) : pte2pa pte < 2 ^ 64 := by
  rw [pte2pa]
  exact Nat.mod_lt _ (by decide)

/-! ## The tree -/

/-- An index into a table. -/
abbrev Ix := Fin 512

/-- `PX`. -/
def px (level va : Nat) : Ix := ⟨(va >>> (12 + 9 * level)) &&& 511, by
  rw [show 511 = 2 ^ 9 - 1 from rfl, Nat.and_two_pow_sub_one_eq_mod]
  exact Nat.mod_lt _ (by decide)⟩

theorem px_val (level va : Nat) : (px level va : Nat) = va / 2 ^ (12 + 9 * level) % 512 := by
  rw [px]
  show (va >>> (12 + 9 * level)) &&& 511 = _
  rw [show 511 = 2 ^ 9 - 1 from rfl, Nat.and_two_pow_sub_one_eq_mod, Nat.shiftRight_eq_div_pow]

/-- `MAXVA`. -/
def maxVA : Nat := 2 ^ 38

/-- The places of the tree. -/
inductive Node where
  | root
  | mid (i : Ix)
  | leaf (i j : Ix)
deriving DecidableEq

/-- The entry at index `i` of the table at `pt`. -/
def pteAt (m : Mem) (pt : Nat) (i : Ix) : Nat := load64 m (pt + 8 * i)

/-- The table that entry points to, if it is valid. -/
def child (m : Mem) (pt : Nat) (i : Ix) : Option Nat :=
  if pteAt m pt i &&& pteV ≠ 0 then some (pte2pa (pteAt m pt i)) else none

/-- The page at a place of the tree. -/
def tableAt (m : Mem) (dir : Nat) : Node → Option Nat
  | .root => some dir
  | .mid i => child m dir i
  | .leaf i j => (child m dir i).bind fun pt => child m pt j

/-- The pages of the tree. -/
def tables (m : Mem) (dir : Nat) : Set Nat := {p | ∃ n, tableAt m dir n = some p}

/-- A tree of pages, each at one place. -/
structure Tree (m : Mem) (dir : Nat) : Prop where
  page : ∀ p ∈ tables m dir, p % pgSize = 0 ∧ p ≠ 0
  inj : ∀ n n' p, tableAt m dir n = some p → tableAt m dir n' = some p → n = n'

/-- The valid entry for the indices `i`, `j` and `k`. -/
def entryAt (m : Mem) (dir : Nat) (i j k : Ix) : Option Nat :=
  (tableAt m dir (.leaf i j)).bind fun pt =>
    if pteAt m pt k &&& pteV ≠ 0 then some (pteAt m pt k) else none

/-- The valid entry of the virtual page at `va`. -/
def entry (m : Mem) (dir va : Nat) : Option Nat := entryAt m dir (px 2 va) (px 1 va) (px 0 va)

theorem tableAt_mid : tableAt m dir (.mid i) = child m dir i := rfl

theorem tableAt_leaf (h : tableAt m dir (.mid i) = some pt) :
    tableAt m dir (.leaf i j) = child m pt j := by
  show (child m dir i).bind _ = _
  rw [← tableAt_mid, h]
  rfl

theorem tableAt_leaf_none (h : tableAt m dir (.mid i) = none) :
    tableAt m dir (.leaf i j) = none := by
  show (child m dir i).bind _ = _
  rw [← tableAt_mid, h]
  rfl

/-- Two addresses in one page have the same indices. -/
theorem px_inj (h : va < maxVA) (h' : va' < maxVA) (h2 : px 2 va = px 2 va')
    (h1 : px 1 va = px 1 va') (h0 : px 0 va = px 0 va') : va / 4096 = va' / 4096 := by
  have e2 := congrArg Fin.val h2
  have e1 := congrArg Fin.val h1
  have e0 := congrArg Fin.val h0
  simp only [px_val] at e2 e1 e0
  norm_num at e2 e1 e0
  unfold maxVA at h h'
  omega

theorem px_congr (h : va / 4096 = va' / 4096) (level : Nat) : px level va = px level va' := by
  apply Fin.ext
  rw [px_val, px_val, Nat.pow_add, ← Nat.div_div_eq_div_mul, ← Nat.div_div_eq_div_mul]
  norm_num
  rw [h]

theorem entry_congr (h : va / 4096 = va' / 4096) : entry m dir va = entry m dir va' := by
  rw [entry, entry, px_congr h, px_congr h, px_congr h]

/-- The only table of a directory of zeros is the directory. -/
theorem tableAt_of_zero (hzero : ∀ k, pteAt m p k = 0) {n : Node} (hq : tableAt m p n = some q) :
    n = .root ∧ q = p := by
  have hchild : ∀ k, child m p k = none := by
    intro k
    rw [child, hzero, if_neg (by decide)]
  cases n with
  | root => exact ⟨rfl, (Option.some.inj hq).symm⟩
  | mid i =>
      rw [tableAt_mid, hchild] at hq
      cases hq
  | leaf i j =>
      rw [tableAt_leaf_none (hchild i)] at hq
      cases hq

theorem entry_of_zero (hzero : ∀ k, pteAt m p k = 0) (v : Nat) : entry m p v = none := by
  cases ht : tableAt m p (.leaf (px 2 v) (px 1 v)) with
  | none => rw [entry, entryAt, ht]; rfl
  | some q => exact absurd (tableAt_of_zero hzero ht).1 nofun

/-! ## Changes of memory -/

theorem ix_bound (k : Ix) : 8 * (k : Nat) + 8 ≤ pgSize := by
  have := k.isLt
  unfold pgSize
  omega

section

variable {m m' : Mem} {dir : Nat}

theorem pteAt_congr (h : Phys.SamePage m m' pt) (i : Ix) : pteAt m' pt i = pteAt m pt i :=
  h.load (ix_bound i)

theorem child_congr (h : pteAt m' pt i = pteAt m pt i) : child m' pt i = child m pt i := by
  rw [child, child, h]

/-- A change outside the pages of the tree. -/
theorem tableAt_frame (h : ∀ p ∈ tables m dir, Phys.SamePage m m' p) (n : Node) :
    tableAt m' dir n = tableAt m dir n := by
  have hmid : ∀ i, tableAt m' dir (.mid i) = tableAt m dir (.mid i) := fun i =>
    child_congr (pteAt_congr (h dir ⟨.root, rfl⟩) i)
  cases n with
  | root => rfl
  | mid i => exact hmid i
  | leaf i j =>
      cases hpt : tableAt m dir (.mid i) with
      | none => rw [tableAt_leaf_none hpt, tableAt_leaf_none ((hmid i).trans hpt)]
      | some pt =>
          rw [tableAt_leaf hpt, tableAt_leaf ((hmid i).trans hpt)]
          exact child_congr (pteAt_congr (h pt ⟨_, hpt⟩) j)

theorem tables_congr (h : ∀ n, tableAt m' dir n = tableAt m dir n) : tables m' dir = tables m dir := by
  simp only [tables, h]

theorem Tree.congr (ht : Tree m dir) (h : ∀ n, tableAt m' dir n = tableAt m dir n) :
    Tree m' dir := by
  refine ⟨?_, ?_⟩
  · rw [tables_congr h]
    exact ht.page
  · simpa only [h] using ht.inj

theorem entryAt_congr (h : ∀ n, tableAt m' dir n = tableAt m dir n)
    (hk : ∀ pt, tableAt m dir (.leaf i j) = some pt → pteAt m' pt k = pteAt m pt k) :
    entryAt m' dir i j k = entryAt m dir i j k := by
  rw [entryAt, entryAt, h]
  cases hpt : tableAt m dir (.leaf i j) with
  | none => simp only [Option.bind_none]
  | some pt => simp only [Option.bind_some, hk pt hpt]

theorem entry_frame (h : ∀ p ∈ tables m dir, Phys.SamePage m m' p) (va : Nat) :
    entry m' dir va = entry m dir va :=
  entryAt_congr (tableAt_frame h) fun pt hpt => pteAt_congr (h pt ⟨_, hpt⟩) _

end

section

variable (hp : p % pgSize = 0) (hq : q % pgSize = 0) (hne : q ≠ p)

include hp hq hne

/-- A store into one page is not seen in another. -/
theorem samePage_store {k : Nat} (hk : k + 8 ≤ pgSize) :
    Phys.SamePage m (store64 m (p + k) v) q := by
  intro i hi
  have hp' : p % 4096 = 0 := hp
  have hq' : q % 4096 = 0 := hq
  exact store64_out (by unfold pgSize at *; omega)

theorem samePage_memcpy {off len : Nat} {src : Nat → UInt8} (hlen : off + len ≤ pgSize) :
    Phys.SamePage m (Pke.memcpy m (p + off) len src) q := by
  intro i hi
  have hp' : p % 4096 = 0 := hp
  have hq' : q % 4096 = 0 := hq
  exact memcpy_out (by unfold pgSize at *; omega)

/-- One whole page is written. -/
theorem samePage_page {src : Nat → UInt8} : Phys.SamePage m (memcpy m p pgSize src) q := by
  have hcopy : Phys.SamePage m (memcpy m (p + 0) pgSize src) q :=
    samePage_memcpy hp hq hne (Nat.le_of_eq (Nat.zero_add _))
  exact hcopy

theorem samePage_memset {byte : UInt8} : Phys.SamePage m (memset m p byte pgSize) q :=
  samePage_page hp hq hne

end

theorem Phys.SamePage.trans {m' m'' : Mem} (h : Phys.SamePage m m' p) (h' : Phys.SamePage m' m'' p)
    : Phys.SamePage m m'' p :=
  fun i hi => (h' i hi).trans (h i hi)

theorem pteAt_store_self :
    pteAt (store64 m (pt + 8 * k) v) pt k = v % 2 ^ 64 := load64_store64 _ _ _

theorem pteAt_store_ne (h : k' ≠ k) : pteAt (store64 m (pt + 8 * k) v) pt k' = pteAt m pt k' := by
  have hne : (k' : Nat) ≠ k := fun heq => h (Fin.ext heq)
  exact load64_store64_ne (by omega)

section

variable {m : Mem} {dir : Nat} (ht : Tree m dir)

include ht

/-- A store into an entry of a leaf table keeps the tree. -/
theorem tableAt_setLeaf (hpt : tableAt m dir (.leaf i j) = some pt) (n : Node) :
    tableAt (store64 m (pt + 8 * k) v) dir n = tableAt m dir n := by
  have hk := ix_bound k
  -- the tables that are no leaves are other pages
  have hother : ∀ {n p}, tableAt m dir n = some p → n ≠ .leaf i j →
      Phys.SamePage m (store64 m (pt + 8 * k) v) p := by
    intro n p hp hn
    refine samePage_store (ht.page pt ⟨_, hpt⟩).1 (ht.page p ⟨_, hp⟩).1 (fun heq => hn ?_) hk
    exact ht.inj _ _ _ hp (heq ▸ hpt)
  have hmid : ∀ i', tableAt (store64 m (pt + 8 * k) v) dir (.mid i') = tableAt m dir (.mid i') :=
    fun i' => child_congr (pteAt_congr (hother (n := .root) rfl nofun) i')
  cases n with
  | root => rfl
  | mid i' => exact hmid i'
  | leaf i' j' =>
      cases hq : tableAt m dir (.mid i') with
      | none => rw [tableAt_leaf_none hq, tableAt_leaf_none ((hmid i').trans hq)]
      | some q =>
          rw [tableAt_leaf hq, tableAt_leaf ((hmid i').trans hq)]
          exact child_congr (pteAt_congr (hother hq nofun) j')

/-- The entry that is stored, and the others. -/
theorem entryAt_setLeaf {i' j' : Ix} (hpt : tableAt m dir (.leaf i j) = some pt) :
    entryAt (store64 m (pt + 8 * k) v) dir i' j' k' =
      if i' = i ∧ j' = j ∧ k' = k then (if v % 2 ^ 64 &&& pteV ≠ 0 then some (v % 2 ^ 64) else none)
      else entryAt m dir i' j' k' := by
  split
  · rename_i heq
    obtain ⟨rfl, rfl, rfl⟩ := heq
    rw [entryAt, tableAt_setLeaf ht hpt, hpt]
    simp only [Option.bind_some, pteAt_store_self]
  · rename_i hne
    refine entryAt_congr (tableAt_setLeaf ht hpt) fun q hq => ?_
    by_cases hqp : q = pt
    · subst hqp
      have heq := ht.inj _ _ _ hq hpt
      simp only [Node.leaf.injEq] at heq
      exact pteAt_store_ne fun hk => hne ⟨heq.1, heq.2, hk⟩
    · refine pteAt_congr (samePage_store (ht.page pt ⟨_, hpt⟩).1 (ht.page q ⟨_, hq⟩).1 hqp
        (ix_bound k)) _

end

/-! ## A new table -/

/-- Memory after the empty table `p` has been hung in at entry `k` of `pt`. -/
def grow (m : Mem) (pt : Nat) (k : Ix) (p : Nat) : Mem :=
  store64 (memset m p 0 pgSize) (pt + 8 * k) (pa2pte p ||| pteV)

section

variable {m : Mem} {dir pt p : Nat} {k : Ix} (hp : p % pgSize = 0)

include hp

theorem samePage_grow (hpt : pt % pgSize = 0) (hq : q % pgSize = 0) (hqp : q ≠ p) (hqt : q ≠ pt) :
    Phys.SamePage m (grow m pt k p) q :=
  (samePage_memset hp hq hqp).trans (samePage_store hpt hq hqt (ix_bound k))

theorem pteAt_grow_ne (hpt : pt % pgSize = 0) (hne : pt ≠ p) (hk : k' ≠ k) :
    pteAt (grow m pt k p) pt k' = pteAt m pt k' :=
  (pteAt_store_ne hk).trans (pteAt_congr (samePage_memset hp hpt hne) k')

theorem pteAt_grow_new (hpt : pt % pgSize = 0) (hne : pt ≠ p) (k' : Ix) :
    pteAt (grow m pt k p) p k' = 0 := by
  have hsame := samePage_store (m := memset m p 0 pgSize) (v := pa2pte p ||| pteV) hpt hp
    (Ne.symm hne) (ix_bound k)
  rw [grow, pteAt_congr hsame]
  have := ix_bound k'
  exact load64_memset_zero (by omega) (by omega)

theorem child_grow_self (h64 : p < 2 ^ 64) : child (grow m pt k p) pt k = some p := by
  have hv : pteV < 1024 := by decide
  have hload : pteAt (grow m pt k p) pt k = pa2pte p ||| pteV := by
    rw [grow, pteAt_store_self, Nat.mod_eq_of_lt (mk_lt h64 hv)]
  have hvalid : (pa2pte p ||| pteV) &&& pteV ≠ 0 := by
    have hflag : (pa2pte p ||| pteV) &&& 2 ^ 0 = pteV &&& 2 ^ 0 := and_flag_mk hv (by decide)
    rw [show pteV = 2 ^ 0 from rfl] at hflag ⊢
    rw [hflag]
    decide
  rw [child, hload, if_pos hvalid, pte2pa_mk hp h64 hv]

theorem child_grow_new (hpt : pt % pgSize = 0) (hne : pt ≠ p) (k' : Ix) :
    child (grow m pt k p) p k' = none := by
  rw [child, pteAt_grow_new hp hpt hne, if_neg (by decide)]

/-- The new table is at one place, and everything else is where it was. -/
theorem tableAt_grow_mid (ht : Tree m dir) (h64 : p < 2 ^ 64) (hnew : p ∉ tables m dir)
    (hk : tableAt m dir (.mid k) = none) (n : Node) :
    tableAt (grow m dir k p) dir n = if n = .mid k then some p else tableAt m dir n := by
  have hdir := (ht.page dir ⟨.root, rfl⟩).1
  have hne : dir ≠ p := fun heq => hnew (heq ▸ ⟨.root, rfl⟩)
  have hmid : ∀ i, i ≠ k → tableAt (grow m dir k p) dir (.mid i) = tableAt m dir (.mid i) :=
    fun i hi => child_congr (pteAt_grow_ne hp hdir hne hi)
  have hself : tableAt (grow m dir k p) dir (.mid k) = some p := child_grow_self hp h64
  cases n with
  | root => rfl
  | mid i =>
      rcases eq_or_ne i k with rfl | hi
      · rw [if_pos rfl, hself]
      · rw [if_neg (by simpa using hi), hmid i hi]
  | leaf i j =>
      rw [if_neg nofun]
      rcases eq_or_ne i k with rfl | hi
      · rw [tableAt_leaf hself, child_grow_new hp hdir hne, tableAt_leaf_none hk]
      · cases hq : tableAt m dir (.mid i) with
        | none => rw [tableAt_leaf_none hq, tableAt_leaf_none ((hmid i hi).trans hq)]
        | some q =>
            rw [tableAt_leaf hq, tableAt_leaf ((hmid i hi).trans hq)]
            refine child_congr (pteAt_congr (samePage_grow hp hdir (ht.page q ⟨_, hq⟩).1 ?_ ?_) j)
            · exact fun heq => hnew (heq ▸ ⟨_, hq⟩)
            · intro heq
              exact absurd (ht.inj _ .root _ hq (by rw [heq]; rfl)) nofun

theorem tableAt_grow_leaf (ht : Tree m dir) (h64 : p < 2 ^ 64) (hnew : p ∉ tables m dir)
    (hpt : tableAt m dir (.mid i) = some pt) (hk : tableAt m dir (.leaf i k) = none) (n : Node) :
    tableAt (grow m pt k p) dir n = if n = .leaf i k then some p else tableAt m dir n := by
  have hptp := (ht.page pt ⟨_, hpt⟩).1
  have hne : pt ≠ p := fun heq => hnew (heq ▸ ⟨_, hpt⟩)
  have hsame : ∀ {n q}, tableAt m dir n = some q → n ≠ .mid i →
      Phys.SamePage m (grow m pt k p) q := by
    intro n q hq hn
    refine samePage_grow hp hptp (ht.page q ⟨_, hq⟩).1 (fun heq => hnew (heq ▸ ⟨_, hq⟩)) ?_
    exact fun heq => hn (ht.inj _ _ _ hq (heq ▸ hpt))
  have hmid : ∀ i', tableAt (grow m pt k p) dir (.mid i') = tableAt m dir (.mid i') :=
    fun i' => child_congr (pteAt_congr (hsame (n := .root) rfl nofun) i')
  cases n with
  | root => rfl
  | mid i' =>
      rw [if_neg nofun]
      exact hmid i'
  | leaf i' j =>
      rcases eq_or_ne i' i with rfl | hi
      · rw [tableAt_leaf ((hmid i').trans hpt)]
        rcases eq_or_ne j k with rfl | hj
        · rw [if_pos rfl, child_grow_self hp h64]
        · rw [if_neg (by simpa using hj), tableAt_leaf hpt]
          exact child_congr (pteAt_grow_ne hp hptp hne hj)
      · rw [if_neg (by simp [hi])]
        cases hq : tableAt m dir (.mid i') with
        | none => rw [tableAt_leaf_none hq, tableAt_leaf_none ((hmid i').trans hq)]
        | some q =>
            rw [tableAt_leaf hq, tableAt_leaf ((hmid i').trans hq)]
            exact child_congr (pteAt_congr (hsame hq (by simpa using hi)) j)

end

/-- The tree `m'` has the table `p` more than `m`, and the same entries. -/
structure NewTable (m m' : Mem) (dir p : Nat) : Prop where
  tree : Tree m' dir
  tables : tables m' dir = insert p (tables m dir)
  entry : ∀ va, entry m' dir va = entry m dir va

theorem NewTable.of_tableAt {m' : Mem} {n0 : Node} (ht : Tree m dir) (hp : p % pgSize = 0 ∧ p ≠ 0)
    (hnew : p ∉ Pke.tables m dir) (hn0 : tableAt m dir n0 = none)
    (hat : ∀ n, tableAt m' dir n = if n = n0 then some p else tableAt m dir n)
    (hleaf : ∀ i j q, tableAt m dir (.leaf i j) = some q → Phys.SamePage m m' q)
    (hzero : ∀ k, pteAt m' p k = 0) : NewTable m m' dir p := by
  have hold : ∀ {n q}, tableAt m dir n = some q → tableAt m' dir n = some q := by
    intro n q hq
    have hne : n ≠ n0 := ne_of_none hn0 hq
    rw [hat, if_neg hne, hq]
  have hcases : ∀ {n q}, tableAt m' dir n = some q →
      (n = n0 ∧ q = p) ∨ tableAt m dir n = some q := by
    intro n q hq
    rw [hat] at hq
    split at hq
    · exact .inl ⟨‹_›, (Option.some.inj hq).symm⟩
    · exact .inr hq
  have htables : Pke.tables m' dir = insert p (Pke.tables m dir) := by
    ext q
    constructor
    · rintro ⟨n, hn⟩
      rcases hcases hn with ⟨-, rfl⟩ | hn'
      · exact Set.mem_insert _ _
      · exact Set.mem_insert_of_mem _ ⟨n, hn'⟩
    · intro hq
      rcases Set.mem_insert_iff.mp hq with rfl | ⟨n, hn⟩
      · exact ⟨n0, by rw [hat, if_pos rfl]⟩
      · exact ⟨n, hold hn⟩
  refine ⟨⟨?_, ?_⟩, htables, fun va => ?_⟩
  · rw [htables]
    intro q hq
    rcases Set.mem_insert_iff.mp hq with rfl | hq'
    · exact hp
    · exact ht.page q hq'
  · intro n n' q hn hn'
    rcases hcases hn with ⟨rfl, rfl⟩ | h <;> rcases hcases hn' with ⟨rfl, heq⟩ | h'
    · rfl
    · exact absurd ⟨_, h'⟩ hnew
    · exact absurd ⟨_, heq ▸ h⟩ hnew
    · exact ht.inj _ _ _ h h'
  · unfold Pke.entry entryAt
    cases hq : tableAt m dir (.leaf (px 2 va) (px 1 va)) with
    | some q =>
        rw [hold hq]
        simp only [Option.bind_some, pteAt_congr (hleaf _ _ q hq)]
    | none =>
        cases hq' : tableAt m' dir (.leaf (px 2 va) (px 1 va)) with
        | none => simp only [Option.bind_none]
        | some q' =>
            rcases hcases hq' with ⟨-, rfl⟩ | h
            · simp [hzero]
            · rw [hq] at h
              cases h

/-! ## One level down -/

/-- The level of the table at a place. -/
def Node.level : Node → Nat
  | .root => 2
  | .mid _ => 1
  | .leaf _ _ => 0

/-- The place that the entry `k` of a table leads to. -/
def Node.down : Node → Ix → Node
  | .root, k => .mid k
  | .mid i, k => .leaf i k
  | .leaf i j, _ => .leaf i j

theorem Node.level_down {n : Node} {level : Nat} (h : n.level = level + 1) :
    (n.down k).level = level := by
  cases n <;> simp_all [Node.level, Node.down]

section

variable {m : Mem} {dir pt : Nat} {n : Node} {level : Nat} (hn : n.level = level + 1)
  (hpt : tableAt m dir n = some pt)

include hn hpt

theorem tableAt_down (k : Ix) : tableAt m dir (n.down k) = child m pt k := by
  cases n with
  | root =>
      obtain rfl := Option.some.inj hpt
      rfl
  | mid i => exact tableAt_leaf hpt
  | leaf i j => simp [Node.level] at hn

variable {p : Nat} {k : Ix} (ht : Tree m dir) (hp : p % pgSize = 0 ∧ p ≠ 0) (h64 : p < 2 ^ 64)
  (hnew : p ∉ tables m dir) (hk : tableAt m dir (n.down k) = none)

include ht hp h64 hnew hk

theorem tableAt_grow (n' : Node) :
    tableAt (grow m pt k p) dir n' = if n' = n.down k then some p else tableAt m dir n' := by
  cases n with
  | root =>
      obtain rfl := Option.some.inj hpt
      exact tableAt_grow_mid hp.1 ht h64 hnew hk n'
  | mid i => exact tableAt_grow_leaf hp.1 ht h64 hnew hpt hk n'
  | leaf i j => simp [Node.level] at hn

theorem grown_down : NewTable m (grow m pt k p) dir p := by
  have hptp := (ht.page pt ⟨_, hpt⟩).1
  have hne : pt ≠ p := fun heq => hnew (heq ▸ ⟨_, hpt⟩)
  refine .of_tableAt ht hp hnew hk (tableAt_grow hn hpt ht hp h64 hnew hk) ?_
    (pteAt_grow_new hp.1 hptp hne)
  intro i j q hq
  refine samePage_grow hp.1 hptp (ht.page q ⟨_, hq⟩).1 (fun heq => hnew (heq ▸ ⟨_, hq⟩)) ?_
  intro heq
  have hleaf : Node.leaf i j = n := ht.inj _ n _ hq (by rw [heq]; exact hpt)
  simp [← hleaf, Node.level] at hn

end

end Pke
