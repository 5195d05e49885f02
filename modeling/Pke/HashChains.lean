import Pke.Heap
import Pke.Linked

/-!
# The hash table as nodes and pointers (`hash_table.c`)

`Kernel.lean` keeps the chains of a hash table as lists. This is the
code they stand for: an array of sentinel nodes, pages that hold a key,
a value and the next node, a put that links a node behind the sentinel,
and an erase that walks to the predecessor and unlinks.

Two steps lead from here to the finite map a caller thinks of. `Chains`
relates the nodes to the lists of `HashTable.lean`, and each operation
on the nodes is the operation on the lists (`defaultGet_chains`,
`defaultPut_chains`, `defaultErase_chains`). On the lists the lemmas of
`HashTable.lean` give the map, `HashTable.Stands`, and a run of calls
carries both along.
-/

namespace Pke

open Exec (get modify fault)

namespace HashChains

/-! ## Nodes -/

/-- `struct hash_node`; `NULL` is no next node. -/
structure Node (K : Type) where
  next : Option Ptr
  key : K
  value : Ptr

/-- The nodes of a table and the pages it can get: `next` of the sentinels
`head[i]`, what the pages hold, and the pool of `pmm.c`. -/
structure Store (K : Type) where
  head : Nat → Option Ptr
  node : Ptr → Node K
  freePages : List Ptr
  freeMemStart : Nat
  freeMemEnd : Nat

/-- Table code. -/
abbrev TableM (K : Type) := Exec (Store K) Fault

section

variable {K : Type}

/-- `alloc_page`; its callers do not look at the result before they store
through it. -/
def allocPage : TableM K Ptr := do
  let t ← get
  match t.freePages with
  | [] => fault .nullPage
  | p :: rest => do
      modify fun t => { t with freePages := rest }
      pure p

/-- `free_page`. -/
def freePage (p : Ptr) : TableM K Unit := do
  let t ← get
  if p % pgSize ≠ 0 ∨ p < t.freeMemStart ∨ p ≥ t.freeMemEnd then fault (.panic "free_page")
  else modify fun t => { t with freePages := p :: t.freePages }

/-- What `head` points to in `default_erase`: a sentinel or a node. -/
inductive Place where
  | head (index : Nat)
  | node (p : Ptr)

def Store.next (t : Store K) : Place → Option Ptr
  | .head i => t.head i
  | .node p => (t.node p).next

def Store.setNext (t : Store K) (next : Option Ptr) : Place → Store K
  | .head i => { t with head := upd t.head i next }
  | .node p => { t with node := upd t.node p { t.node p with next := next } }

/-- Fill the page `p` with a node and link it behind the sentinel of a bucket. -/
def Store.link (t : Store K) (index : Nat) (p : Ptr) (k : K) (value : Ptr) : Store K :=
  { t with
    node := upd t.node p { next := t.head index, key := k, value := value }
    head := upd t.head index (some p) }

variable (ops : HashOps K)

/-- The loop of `defalut_get`, for at most `fuel` nodes; `NULL` is 0. -/
def walk (t : Store K) (k : K) : (fuel : Nat) → Option Ptr → Option Ptr
  | _, none => some 0
  | 0, some _ => none
  | fuel + 1, some p =>
      if ops.equal (t.node p).key k then some (t.node p).value
      else walk t k fuel (t.node p).next

/-- `defalut_get`. -/
def defaultGet (fuel : Nat) (k : K) : TableM K Ptr := do
  let t ← get
  Exec.ofOption (.ub "defalut_get") (walk ops t k fuel (t.head (ops.hash k)))

/-- `default_put`. -/
def defaultPut (fuel : Nat) (k : K) (value : Ptr) : TableM K Int := do
  let node ← allocPage
  if (← defaultGet ops fuel k) ≠ 0 then pure (-1)
  else do
    modify fun t => t.link (ops.hash k) node k value
    pure 0

/-- The loop of `default_erase`: the place behind which the key is, or the
last one. -/
def seek (t : Store K) (k : K) : (fuel : Nat) → Place → Option Place
  | 0, _ => none
  | fuel + 1, place =>
      match t.next place with
      | none => some place
      | some p => if ops.equal (t.node p).key k then some place else seek t k fuel (.node p)

/-- `default_erase`. -/
def defaultErase (fuel : Nat) (k : K) : TableM K Int := do
  let t ← get
  let place ← Exec.ofOption (.ub "default_erase") (seek ops t k fuel (.head (ops.hash k)))
  match t.next place with
  | none => pure (-1)
  | some p => do
      modify fun t => t.setNext (t.node p).next place
      freePage p
      pure 0

end

/-- `hash_table_init` with `NULL` for `put`, `get` and `erase`, as every
caller has it: the result, and the functions installed. -/
def hashTableInit {K : Type} [DecidableEq K] (equal : Option (K → K → Bool))
    (func : Option (K → Nat)) : TableM K (Int × Option (HashOps K)) := do
  modify fun t => { t with head := fun i => if i < hashTableSize then none else t.head i }
  match func with
  | none => pure (-1, none)
  | some hash => pure (0, some ⟨equal.getD fun k k' => decide (k = k'), hash⟩)

/-! ## Chains of nodes and lists -/

section

variable {K : Type} {ops : HashOps K} {t : Store K} {h : HashTable K Ptr} {e : HashNode K Ptr}
  {l : List (HashNode K Ptr)} {k : K} {fuel : Nat} {p : Ptr} {m : K → Option Ptr}

/-- Page `e.node` holds the key and the value of `e`. -/
def Stored (t : Store K) (e : HashNode K Ptr) : Prop :=
  (t.node e.node).key = e.key ∧ (t.node e.node).value = e.value

/-- Following `next` from `h` meets the nodes of a chain. -/
def Chain (t : Store K) (h : Option Ptr) (l : List (HashNode K Ptr)) : Prop :=
  Linked (fun p => (t.node p).next) h (l.map (·.node)) ∧ ∀ e ∈ l, Stored t e

/-- A page the pool can hold. -/
def InPool (t : Store K) (p : Ptr) : Prop :=
  p % pgSize = 0 ∧ t.freeMemStart ≤ p ∧ p < t.freeMemEnd

instance (t : Store K) (p : Ptr) : Decidable (InPool t p) := inferInstanceAs (Decidable (_ ∧ _))

/-- The pages the table or the pool has. -/
def pagesOf (size : Nat) (t : Store K) (h : HashTable K Ptr) : List Ptr :=
  (h.entries size).map (·.node) ++ t.freePages

/-- The nodes in memory are the chains of `h`, in pages of their own. -/
structure Chains (t : Store K) (h : HashTable K Ptr) : Prop where
  chain : ∀ i < hashTableSize, Chain t (t.head i) (h.buckets i)
  pages : (pagesOf hashTableSize t h).Nodup
  pool : ∀ p ∈ pagesOf hashTableSize t h, InPool t p

theorem Chain.nil_iff {h : Option Ptr} : Chain t h [] ↔ h = none := by
  simp [Chain]

theorem Chain.cons_iff {h : Option Ptr} :
    Chain t h (e :: l) ↔ h = some e.node ∧ Stored t e ∧ Chain t (t.node e.node).next l := by
  simp only [Chain, List.map_cons, Linked.cons_iff, List.mem_cons, forall_eq_or_imp]
  constructor
  · rintro ⟨⟨hh, hl⟩, he, hrest⟩
    exact ⟨hh, he, hl, hrest⟩
  · rintro ⟨hh, he, hl, hrest⟩
    exact ⟨⟨hh, hl⟩, he, hrest⟩

/-- A chain does not notice changes of other pages. -/
theorem Chain.frame {t' : Store K} {h : Option Ptr} (hc : Chain t h l)
    (hsame : ∀ e ∈ l, t'.node e.node = t.node e.node) : Chain t' h l := by
  refine ⟨hc.1.frame fun p hp => ?_, fun e he => ?_⟩
  · obtain ⟨e, he, rfl⟩ := List.mem_map.mp hp
    rw [hsame e he]
  · rw [Stored, hsame e he]
    exact hc.2 e he

/-! ## Get -/

/-- The loop finds the first node of the chain with an equal key. -/
theorem walk_chain {h : Option Ptr} (hc : Chain t h l) (hfuel : l.length ≤ fuel) :
    walk ops t k fuel h = some ((l.find? fun e => ops.equal e.key k).elim 0 (·.value)) := by
  induction l generalizing h fuel with
  | nil =>
      obtain rfl := Chain.nil_iff.mp hc
      cases fuel <;> rfl
  | cons e l ih =>
      obtain ⟨rfl, ⟨hkey, hvalue⟩, hrest⟩ := Chain.cons_iff.mp hc
      cases fuel with
      | zero => simp at hfuel
      | succ fuel =>
          have ih := ih hrest (by simpa using hfuel)
          by_cases he : ops.equal e.key k
          · simp [walk, hkey, hvalue, he]
          · simp [walk, hkey, he, ih]

theorem defaultGet_chains (law : ops.Lawful hashTableSize) (hc : Chains t h)
    (hfuel : (h.entries hashTableSize).length ≤ fuel) :
    defaultGet ops fuel k t = .ok ((h.find? ops k).elim 0 (·.value), t) := by
  have hlen : (h.buckets (ops.hash k)).length ≤ fuel :=
    (h.length_bucket_le (law.hash_lt k)).trans hfuel
  have hw : walk ops t k fuel (t.head (ops.hash k)) = _ :=
    walk_chain (hc.chain _ (law.hash_lt k)) hlen
  unfold defaultGet
  rw [Exec.bind_of_ok (show Exec.get t = .ok (t, t) from rfl), hw]
  rfl

/-! ## Put -/

/-- A free page less. -/
theorem Chains.drop {rest : List Ptr} (hc : Chains t h) (hfree : t.freePages = p :: rest) :
    Chains { t with freePages := rest } h := by
  have hsub : (pagesOf hashTableSize { t with freePages := rest } h).Sublist
      (pagesOf hashTableSize t h) := by
    simp only [pagesOf, hfree]
    exact (List.Sublist.refl _).append (List.sublist_cons_self p rest)
  exact ⟨fun i hi => (hc.chain i hi).frame fun _ _ => rfl, hc.pages.sublist hsub,
    fun q hq => hc.pool q (hsub.subset hq)⟩

/-- A node in the page `p` behind the sentinel of its bucket. -/
theorem Chains.link {rest : List Ptr} (law : ops.Lawful hashTableSize) (hc : Chains t h)
    (hfree : t.freePages = p :: rest) (k : K) (v : Ptr) :
    Chains (Store.link { t with freePages := rest } (ops.hash k) p k v)
      (h.insert ops ⟨p, k, v⟩) := by
  have hperm : (pagesOf hashTableSize t h).Perm
      (((h.insert ops ⟨p, k, v⟩).entries hashTableSize).map (·.node) ++ rest) := by
    have hins := (HashTable.entries_insert law (t := h) (e := ⟨p, k, v⟩)).map (·.node)
    rw [pagesOf, hfree]
    exact List.perm_middle.trans (hins.symm.append_right rest)
  have hfresh : ∀ i < hashTableSize, ∀ e ∈ h.buckets i, e.node ≠ p := by
    rintro i hi e he rfl
    have hdis := List.disjoint_of_nodup_append hc.pages
    exact hdis (List.mem_map_of_mem (HashTable.mem_entries.mpr ⟨i, hi, he⟩)) (by simp [hfree])
  refine ⟨fun i hi => ?_, hperm.nodup_iff.mp hc.pages, fun q hq => hc.pool q (hperm.mem_iff.mpr hq)⟩
  have hold : Chain (Store.link { t with freePages := rest } (ops.hash k) p k v) (t.head i)
      (h.buckets i) := (hc.chain i hi).frame fun e he => upd_ne (hfresh i hi e he)
  by_cases hik : i = ops.hash k
  · subst hik
    simp only [HashTable.insert, if_true, Store.link, upd_self]
    exact Chain.cons_iff.mpr ⟨rfl, by simp [Stored], by simpa [Store.link] using hold⟩
  · simpa only [HashTable.insert, if_neg hik, Store.link, upd_ne hik] using hold

/-- What the node-level put leaves: the list-level table with the key bound
when it was not, the same table otherwise. -/
theorem defaultPut_chains {v : Ptr} (law : ops.Lawful hashTableSize) (hc : Chains t h)
    (hvalue : ∀ e ∈ h.entries hashTableSize, e.value ≠ 0)
    (hfuel : (h.entries hashTableSize).length ≤ fuel) : Exec.Post (defaultPut ops fuel k v) t
      (fun ret t' =>
        (∃ e, h.find? ops k = some e ∧ ret = -1 ∧ Chains t' h) ∨
        (∃ p, h.find? ops k = none ∧ ret = 0 ∧ Chains t' (h.insert ops ⟨p, k, v⟩)))
      (· = .nullPage) := by
  unfold defaultPut
  cases hfree : t.freePages with
  | nil =>
      have ha : (allocPage : TableM K Ptr) t = .error .nullPage := by
        simp [allocPage, Bind.bind, Exec.bind, Exec.get, hfree, Exec.fault]
      simp [Exec.Post, Bind.bind, Exec.bind, ha]
  | cons p rest =>
      have ha : (allocPage : TableM K Ptr) t = .ok (p, { t with freePages := rest }) := by
        simp [allocPage, Bind.bind, Exec.bind, Exec.get, hfree, Exec.modify, Pure.pure, Exec.pure]
      refine Exec.Post.step ha (Exec.Post.step (defaultGet_chains law (hc.drop hfree) hfuel) ?_)
      cases hfind : h.find? ops k with
      | some e =>
          have hne := hvalue e (HashTable.mem_entries_of_find? law hfind)
          simp only [Option.elim_some, ne_eq, hne, not_false_eq_true, if_true]
          exact .pure (.inl ⟨e, rfl, rfl, hc.drop hfree⟩)
      | none =>
          rw [Option.elim_none, if_neg (by simp)]
          exact .bindModify (.pure (.inr ⟨p, rfl, rfl, hc.link law hfree k v⟩))

/-! ## Erase -/

section

variable {t : Store K} {place place' : Place} {next : Option Ptr}

@[simp] theorem next_setNext_self : (t.setNext next place).next place = next := by
  cases place <;> simp [Store.setNext, Store.next]

theorem next_setNext_ne (h : place' ≠ place) :
    (t.setNext next place).next place' = t.next place' := by
  cases place <;> cases place' <;> simp_all [Store.setNext, Store.next, upd]

theorem node_setNext_ne (h : Place.node p ≠ place) : (t.setNext next place).node p = t.node p := by
  cases place <;> simp_all [Store.setNext, upd]

theorem stored_setNext : Stored (t.setNext next place) e ↔ Stored t e := by
  cases place with
  | head i => rfl
  | node p => by_cases h : e.node = p <;> simp [Stored, Store.setNext, upd, h]

end

/-- Where the loop of the erase stops in a chain: before the end when no key
is equal, else before the first node with an equal key, and unlinking that
node leaves the chain without it. -/
theorem seek_chain (ops : HashOps K) (k : K) (place : Place) (hc : Chain t (t.next place) l)
    (hplace : ∀ e ∈ l, place ≠ .node e.node) (hfuel : l.length < fuel) :
    ∃ stop, seek ops t k fuel place = some stop ∧
      (stop = place ∨ ∃ e ∈ l, stop = .node e.node) ∧
      match l.find? fun e => ops.equal e.key k with
      | none => t.next stop = none
      | some e => t.next stop = some e.node ∧
          Chain (t.setNext (t.node e.node).next stop)
            ((t.setNext (t.node e.node).next stop).next place)
            (l.eraseP fun e => ops.equal e.key k) := by
  induction l generalizing place fuel with
  | nil =>
      have hnext := Chain.nil_iff.mp hc
      obtain ⟨fuel, rfl⟩ : ∃ n, fuel = n + 1 := ⟨fuel - 1, by simp at hfuel; omega⟩
      exact ⟨place, by simp [seek, hnext], .inl rfl, by simpa using hnext⟩
  | cons a l ih =>
      obtain ⟨fuel, rfl⟩ : ∃ n, fuel = n + 1 := ⟨fuel - 1, by simp at hfuel; omega⟩
      obtain ⟨hnext, hstored, hrest⟩ := Chain.cons_iff.mp hc
      have hnodup : (a.node :: l.map (·.node)).Nodup := hc.1.nodup
      have ha : ∀ e ∈ l, Place.node a.node ≠ .node e.node := by
        intro e he heq
        have hmem : a.node ∈ l.map (·.node) := by
          rw [Place.node.inj heq]
          exact List.mem_map_of_mem he
        exact (List.nodup_cons.mp hnodup).1 hmem
      by_cases heq : ops.equal a.key k = true
      · refine ⟨place, by simp [seek, hnext, hstored.1, heq], .inl rfl, ?_⟩
        have hfind : (a :: l).find? (fun e => ops.equal e.key k) = some a := by simp [heq]
        have herase : (a :: l).eraseP (fun e => ops.equal e.key k) = l := by simp [heq]
        simp only [hfind, herase, next_setNext_self]
        refine ⟨hnext, hrest.frame fun e he => node_setNext_ne ?_⟩
        exact (hplace e (List.mem_cons_of_mem _ he)).symm
      · obtain ⟨stop, hseek, hwhere, hfound⟩ := ih (.node a.node) hrest ha (by simpa using hfuel)
        have hstop : place ≠ stop := by
          rintro rfl
          rcases hwhere with h | ⟨e, he, h⟩
          · exact hplace a (by simp) h
          · exact hplace e (by simp [he]) h
        refine ⟨stop, by simp [seek, hnext, hstored.1, heq, hseek], .inr ?_, ?_⟩
        · rcases hwhere with rfl | ⟨e, he, rfl⟩
          · exact ⟨a, by simp, rfl⟩
          · exact ⟨e, by simp [he], rfl⟩
        have hskip : (a :: l).find? (fun e => ops.equal e.key k) =
            l.find? fun e => ops.equal e.key k := by simp [heq]
        have herase : (a :: l).eraseP (fun e => ops.equal e.key k) =
            a :: l.eraseP fun e => ops.equal e.key k := by simp [heq]
        rw [hskip, herase]
        cases hfind : l.find? fun e => ops.equal e.key k with
        | none => simpa [hfind] using hfound
        | some e =>
            simp only [hfind] at hfound
            refine ⟨hfound.1, Chain.cons_iff.mpr ⟨?_, stored_setNext.mpr hstored, hfound.2⟩⟩
            rw [next_setNext_ne hstop, hnext]

/-- Nodes of different buckets are in different pages. -/
theorem Chains.node_ne (hc : Chains t h) (hwf : HashTable.WF ops h) {i j : Nat}
    (hi : i < hashTableSize) (hj : j < hashTableSize) (hij : i ≠ j) {a b : HashNode K Ptr}
    (ha : a ∈ h.buckets i) (hb : b ∈ h.buckets j) : a.node ≠ b.node := by
  intro heq
  have hnodup := (List.nodup_append'.mp hc.pages).1
  have hab : a = b := List.inj_on_of_nodup_map hnodup (HashTable.mem_entries.mpr ⟨i, hi, ha⟩)
    (HashTable.mem_entries.mpr ⟨j, hj, hb⟩) heq
  subst hab
  exact hij ((hwf.bucket i a ha).symm.trans (hwf.bucket j a hb))

theorem freePage_run (hp : InPool t p) :
    freePage p t = .ok ((), { t with freePages := p :: t.freePages }) := by
  have hne : ¬(p % pgSize ≠ 0 ∨ p < t.freeMemStart ∨ p ≥ t.freeMemEnd) := by
    rintro (h | h | h)
    · exact h hp.1
    · exact Nat.not_lt.mpr hp.2.1 h
    · exact Nat.not_lt.mpr h hp.2.2
  simp only [freePage, Exec.bind_of_ok (show Exec.get t = .ok (t, t) from rfl), if_neg hne]
  rfl

section

variable (law : ops.Lawful hashTableSize)

include law

theorem Chains.unlink {stop : Place} (hc : Chains t h) (hwf : HashTable.WF ops h)
    (hfind : h.find? ops k = some e)
    (hwhere : stop = .head (ops.hash k) ∨ ∃ a ∈ h.buckets (ops.hash k), stop = .node a.node)
    (hchain : Chain (t.setNext (t.node e.node).next stop)
      ((t.setNext (t.node e.node).next stop).next (.head (ops.hash k)))
      ((h.buckets (ops.hash k)).eraseP fun e => ops.equal e.key k)) :
    Chains { t.setNext (t.node e.node).next stop with freePages := e.node :: t.freePages }
      (h.remove ops k) := by
  have hlt := law.hash_lt k
  have hperm : (pagesOf hashTableSize t h).Perm
      (((h.remove ops k).entries hashTableSize).map (·.node) ++ e.node :: t.freePages) := by
    have hrem := (HashTable.entries_remove law hfind).map (·.node)
    exact (hrem.append_right t.freePages).trans List.perm_middle.symm
  have hpool : ∀ p, InPool
      { t.setNext (t.node e.node).next stop with freePages := e.node :: t.freePages } p ↔
      InPool t p := by
    intro p
    cases stop <;> rfl
  refine ⟨fun i hi => ?_, hperm.nodup_iff.mp hc.pages,
    fun q hq => (hpool q).mpr (hc.pool q (hperm.mem_iff.mpr hq))⟩
  by_cases hik : i = ops.hash k
  · subst hik
    simp only [HashTable.remove, if_true]
    exact hchain.frame fun _ _ => rfl
  · -- neither the sentinel nor a node of another bucket is written
    have hhead : (t.setNext (t.node e.node).next stop).head i = t.head i := by
      rcases hwhere with rfl | ⟨a, ha, rfl⟩
      · exact upd_ne hik
      · rfl
    simp only [HashTable.remove, if_neg hik, hhead]
    refine (hc.chain i hi).frame fun b hb => node_setNext_ne ?_
    rcases hwhere with rfl | ⟨a, ha, rfl⟩
    · rintro ⟨⟩
    · exact fun heq => hc.node_ne hwf hi hlt hik hb ha (Place.node.inj heq)

/-- The node-level erase is the removal from the list-level table. -/
theorem defaultErase_chains (hc : Chains t h) (hwf : HashTable.WF ops h)
    (hfuel : (h.entries hashTableSize).length < fuel) : Exec.Post (defaultErase ops fuel k) t
      (fun ret t' =>
        (h.find? ops k = none ∧ ret = -1 ∧ Chains t' h) ∨
        (∃ e, h.find? ops k = some e ∧ ret = 0 ∧ Chains t' (h.remove ops k)))
      (fun _ => False) := by
  have hlt := law.hash_lt k
  have hlen := (h.length_bucket_le hlt).trans_lt hfuel
  obtain ⟨stop, hseek, hwhere, hfound⟩ :=
    seek_chain ops k (.head (ops.hash k)) (hc.chain _ hlt) (fun _ _ => nofun) hlen
  unfold defaultErase
  refine .bindGet ?_
  rw [hseek]
  refine .step rfl ?_
  change match h.find? ops k with | none => _ | some e => _ at hfound
  cases hfind : h.find? ops k with
  | none =>
      simp only [hfind] at hfound
      rw [hfound]
      exact .pure (.inl ⟨rfl, rfl, hc⟩)
  | some e =>
      simp only [hfind] at hfound
      rw [hfound.1]
      have hmem : e.node ∈ pagesOf hashTableSize t h := List.mem_append_left _
        (List.mem_map_of_mem (HashTable.mem_entries_of_find? law hfind))
      have hpool : InPool (t.setNext (t.node e.node).next stop) e.node := by
        have := hc.pool _ hmem
        cases stop <;> exact this
      have hsame : (t.setNext (t.node e.node).next stop).freePages = t.freePages := by
        cases stop <;> rfl
      refine .bindModify (.step (freePage_run hpool) (.pure (.inr ⟨e, rfl, rfl, ?_⟩)))
      rw [hsame]
      exact hc.unlink law hwf hfind hwhere hfound.2

/-! ## Runs of calls and the finite map -/

/-- A call of one of the three functions of a table. -/
inductive Call (K : Type) where
  | put (k : K) (value : Ptr)
  | get (k : K)
  | erase (k : K)

/-- What a call returns. -/
inductive Result where
  | int (ret : Int)
  | ptr (value : Ptr)
deriving DecidableEq

/-- One call, with `fuel` for its loop. -/
def call (ops : HashOps K) (fuel : Nat) : Call K → TableM K Result
  | .put k v => do
      let ret ← defaultPut ops fuel k v
      pure (.int ret)
  | .get k => do
      let value ← defaultGet ops fuel k
      pure (.ptr value)
  | .erase k => do
      let ret ← defaultErase ops fuel k
      pure (.int ret)

def calls (ops : HashOps K) (fuel : Nat) : List (Call K) → TableM K (List Result)
  | [] => pure []
  | c :: cs => do
      let r ← call ops fuel c
      let rs ← calls ops fuel cs
      pure (r :: rs)

/-- What a call does to a finite map: its result and the map after it. A
binding is shared by all keys that are equal. -/
def mapCall (equal : K → K → Bool) (m : K → Option Ptr) : Call K → Result × (K → Option Ptr)
  | .put k v =>
      if (m k).isSome then (.int (-1), m)
      else (.int 0, fun k' => if equal k k' then some v else m k')
  | .get k => (.ptr ((m k).getD 0), m)
  | .erase k =>
      if (m k).isSome then (.int 0, fun k' => if equal k k' then none else m k')
      else (.int (-1), m)

def mapCalls (equal : K → K → Bool) :
    (K → Option Ptr) → List (Call K) → List Result × (K → Option Ptr)
  | m, [] => ([], m)
  | m, c :: cs =>
      let (r, m) := mapCall equal m c
      let (rs, m) := mapCalls equal m cs
      (r :: rs, m)

/-- The calls that store `NULL`. -/
def Call.NonNull : Call K → Prop
  | .put _ v => v ≠ 0
  | _ => True

/-- A list-level table stands for a map: it binds what the map binds, to
values other than `NULL`. -/
structure Stands (ops : HashOps K) (h : HashTable K Ptr) (m : K → Option Ptr) : Prop where
  wf : HashTable.WF ops h
  value : ∀ e ∈ h.entries hashTableSize, e.value ≠ 0
  find : ∀ k, (h.find? ops k).map (·.value) = m k

/-- The nodes in memory stand for a map, with at most `n` bindings. -/
def Refines (ops : HashOps K) (t : Store K) (m : K → Option Ptr) (n : Nat) : Prop :=
  ∃ h, Chains t h ∧ Stands ops h m ∧ (h.entries hashTableSize).length ≤ n

theorem Stands.insert {v : Ptr} (hs : Stands ops h m) (hnone : h.find? ops k = none) (hv : v ≠ 0) :
    Stands ops (h.insert ops ⟨p, k, v⟩) fun k' => if ops.equal k k' then some v else m k' := by
  refine ⟨HashTable.wf_insert law hs.wf hnone, fun e he => ?_, fun k' => ?_⟩
  · rcases List.mem_cons.mp ((HashTable.entries_insert law).mem_iff.mp he) with rfl | he
    · exact hv
    · exact hs.value e he
  · cases heq : ops.equal k k' with
    | true => rw [HashTable.find?_insert_self law heq]; rfl
    | false => rw [HashTable.find?_insert_ne heq, hs.find]; rfl

theorem Stands.remove (hs : Stands ops h m) :
    Stands ops (h.remove ops k) fun k' => if ops.equal k k' then none else m k' := by
  refine ⟨HashTable.wf_remove hs.wf, fun e he => ?_, fun k' => ?_⟩
  · exact hs.value e (HashTable.mem_entries_remove law hs.wf he).1
  · cases heq : ops.equal k k' with
    | true => rw [HashTable.find?_remove_self law hs.wf heq]; rfl
    | false => rw [HashTable.find?_remove_ne law hs.wf heq, hs.find]; rfl

/-- One call does to the nodes what it does to the map. -/
theorem call_refines {n : Nat} {c : Call K} (hr : Refines ops t m n) (hc : c.NonNull)
    (hfuel : n < fuel) : Exec.Post (call ops fuel c) t
      (fun r t' => r = (mapCall ops.equal m c).1 ∧
        Refines ops t' (mapCall ops.equal m c).2 (n + 1))
      (· = .nullPage) := by
  obtain ⟨h, hch, hs, hlen⟩ := hr
  cases c with
  | put k v =>
      refine (defaultPut_chains law hch hs.value (by omega)).bind fun ret t' hput => .pure ?_
      have hm := hs.find k
      rcases hput with ⟨e, hfind, rfl, hch'⟩ | ⟨p, hfind, rfl, hch'⟩
      · simp only [hfind, Option.map_some] at hm
        simp only [mapCall, ← hm, Option.isSome_some, if_true, true_and]
        exact ⟨h, hch', hs, by omega⟩
      · simp only [hfind, Option.map_none] at hm
        simp only [mapCall, ← hm, Option.isSome_none, Bool.false_eq_true, if_false, true_and]
        refine ⟨_, hch', hs.insert law hfind hc, ?_⟩
        rw [(HashTable.entries_insert law).length_eq, List.length_cons]
        omega
  | get k =>
      refine .step (defaultGet_chains law hch (by omega)) (.pure ⟨?_, h, hch, hs, by omega⟩)
      simp only [mapCall, ← hs.find k]
      cases h.find? ops k <;> rfl
  | erase k =>
      have herase := defaultErase_chains law hch hs.wf (by omega : _ < fuel) (k := k)
      refine (herase.monoFault nofun).bind fun ret t' herased => .pure ?_
      have hm := hs.find k
      rcases herased with ⟨hfind, rfl, hch'⟩ | ⟨e, hfind, rfl, hch'⟩
      · simp only [hfind, Option.map_none] at hm
        simp only [mapCall, ← hm, Option.isSome_none, Bool.false_eq_true, if_false, true_and]
        exact ⟨h, hch', hs, by omega⟩
      · simp only [hfind, Option.map_some] at hm
        simp only [mapCall, ← hm, Option.isSome_some, if_true, true_and]
        refine ⟨_, hch', hs.remove law, ?_⟩
        have := (HashTable.entries_remove law hfind).length_eq
        rw [List.length_cons] at this
        omega

/-- A run of calls does to the nodes what it does to the map. -/
theorem calls_refines {n : Nat} {cs : List (Call K)} (hr : Refines ops t m n)
    (hcs : ∀ c ∈ cs, c.NonNull) (hfuel : n + cs.length ≤ fuel) : Exec.Post (calls ops fuel cs) t
      (fun rs t' => rs = (mapCalls ops.equal m cs).1 ∧
        Refines ops t' (mapCalls ops.equal m cs).2 (n + cs.length))
      (· = .nullPage) := by
  induction cs generalizing t m n with
  | nil => exact .pure ⟨rfl, hr⟩
  | cons c cs ih =>
      rw [List.length_cons] at hfuel
      refine (call_refines law hr (hcs c (by simp)) (by omega)).bind fun r t' hcall => ?_
      obtain ⟨rfl, hr'⟩ := hcall
      have ih := ih hr' (fun c hc => hcs c (by simp [hc])) (by omega)
      refine ih.bind fun rs t'' hrest => .pure ?_
      obtain ⟨rfl, hr''⟩ := hrest
      refine ⟨rfl, ?_⟩
      rw [List.length_cons, show n + (cs.length + 1) = n + 1 + cs.length by omega]
      exact hr''

end

/-- A pool of pages each of which is on the free list once. -/
def Store.Pool (t : Store K) : Prop := t.freePages.Nodup ∧ ∀ p ∈ t.freePages, InPool t p

/-- A table without nodes stands for the empty map. -/
theorem refines_init (hpool : t.Pool) :
    Refines ops { t with head := fun i => if i < hashTableSize then none else t.head i }
      (fun _ => none) 0 := by
  have hempty : (HashTable.empty : HashTable K Ptr).entries hashTableSize = [] := by
    simp [HashTable.entries, HashTable.empty]
  refine ⟨.empty, ⟨fun i hi => ?_, ?_, fun p hp => ?_⟩, ⟨HashTable.wf_empty, ?_, fun k => rfl⟩, ?_⟩
  · simp only [if_pos hi]
    exact Chain.nil_iff.mpr rfl
  · simpa [pagesOf, hempty] using hpool.1
  · exact hpool.2 p (by simpa [pagesOf, hempty] using hp)
  · simp [hempty]
  · simp [hempty]

end

/-- `vinode_hash_func` on any `inum`: the remainder is an `int`, converted to
`size_t`. -/
def vinodeHashFunc (k : VinodeKey) : Nat := (k.inum.tmod hashTableSize % 2 ^ 64).toNat

theorem vinodeHashFunc_eq {k : VinodeKey} (h : 0 ≤ k.inum) :
    vinodeHashFunc k = vinodeHashOps.hash k := by
  have hmod : k.inum.tmod 128 = k.inum % 128 := Int.tmod_eq_emod_of_nonneg h
  show (k.inum.tmod 128 % 2 ^ 64).toNat = (k.inum % 128).toNat
  rw [hmod]
  omega

/-- `vinode_hash_equal` and `vinode_hash_func` on the keys the table is given. -/
def vinodeKeyOps : HashOps { k : VinodeKey // 0 ≤ k.inum } where
  equal k k' := vinodeHashOps.equal k k'
  hash k := vinodeHashFunc k

theorem vinodeKeyOps_lawful : vinodeKeyOps.Lawful hashTableSize where
  refl k := vinodeHashOps_lawful.refl k
  symm := vinodeHashOps_lawful.symm
  trans := vinodeHashOps_lawful.trans
  hash_eq := by
    intro k k' h
    simp only [vinodeKeyOps, vinodeHashFunc_eq k.2, vinodeHashFunc_eq k'.2]
    exact vinodeHashOps_lawful.hash_eq h
  hash_lt k := by
    simp only [vinodeKeyOps, vinodeHashFunc_eq k.2]
    exact vinodeHashOps_lawful.hash_lt k

/-- Two pages for a table that has not been set up. -/
def twoPages : Store DentryKey where
  head _ := some 4096
  node _ := ⟨some 4096, ⟨0, []⟩, 0⟩
  freePages := [4096, 8192]
  freeMemStart := 4096
  freeMemEnd := 12288

/-- Two names of one bucket (`"a"` under 33 and `"b"` under 0 hash alike), one
of them put twice. -/
def collidingCalls : List (Call DentryKey) :=
  [.put ⟨33, [97]⟩ 7, .put ⟨0, [98]⟩ 9, .erase ⟨33, [97]⟩, .put ⟨0, [98]⟩ 8, .get ⟨0, [98]⟩,
    .get ⟨33, [97]⟩]

example : ((calls dentryHashOps 7 collidingCalls
    { twoPages with head := fun _ => none }).toOption.map (·.1)) = some [.int 0, .int 0, .int 0, .int (-1), .ptr 9, .ptr 0] := by decide

end HashChains

end Pke
