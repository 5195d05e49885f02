import Mathlib.Data.List.Perm.Basic
import Mathlib.Data.List.Nodup
import Mathlib.Data.List.Count

/-!
# Chained hash tables

A table is an array of chains, indexed by the hash of the key. Insertion
links a new node at the head of its chain, removal unlinks the first
node with an equal key, lookup walks the chain. Everything is generic in
the key type, its equality test and its hash function; `Lawful` is what
the table relies on.

Two views of a table carry the proofs: `find?`, the finite map it
stands for, and `entries`, the nodes it holds, known up to permutation
(`entries_insert`, `entries_remove`), which is what counting arguments
use.
-/

namespace Pke

/-- A node of a chain: the page it lives in, its key and its value. -/
structure HashNode (K V : Type) where
  node : Nat
  key : K
  value : V

/-- The two functions a table is initialised with. -/
structure HashOps (K : Type) where
  equal : K → K → Bool
  hash : K → Nat

/-- Equality is an equivalence, and the hash is a bucket index that
respects it. -/
structure HashOps.Lawful {K : Type} (ops : HashOps K) (size : Nat) : Prop where
  refl : ∀ k, ops.equal k k = true
  symm : ∀ {k k'}, ops.equal k k' = true → ops.equal k' k = true
  trans : ∀ {k k' k''}, ops.equal k k' = true → ops.equal k' k'' = true →
    ops.equal k k'' = true
  hash_eq : ∀ {k k'}, ops.equal k k' = true → ops.hash k = ops.hash k'
  hash_lt : ∀ k, ops.hash k < size

/-- The chains, by bucket index. -/
structure HashTable (K V : Type) where
  buckets : Nat → List (HashNode K V)

namespace HashTable

variable {K V : Type} (ops : HashOps K)

def empty : HashTable K V := ⟨fun _ => []⟩

/-- The first node of the key's chain that carries an equal key. -/
def find? (t : HashTable K V) (k : K) : Option (HashNode K V) :=
  (t.buckets (ops.hash k)).find? fun e => ops.equal e.key k

/-- Link a node at the head of its chain. -/
def insert (t : HashTable K V) (e : HashNode K V) : HashTable K V :=
  ⟨fun i => if i = ops.hash e.key then e :: t.buckets i else t.buckets i⟩

/-- Unlink the first node of the key's chain that carries an equal key. -/
def remove (t : HashTable K V) (k : K) : HashTable K V :=
  ⟨fun i => if i = ops.hash k then (t.buckets i).eraseP fun e => ops.equal e.key k
    else t.buckets i⟩

/-- The nodes of a table with `size` buckets. -/
def entries (size : Nat) (t : HashTable K V) : List (HashNode K V) :=
  (List.range size).flatMap t.buckets

/-- Every node sits in the chain of its hash, and no chain holds two equal
keys. -/
structure WF (t : HashTable K V) : Prop where
  bucket : ∀ i, ∀ e ∈ t.buckets i, ops.hash e.key = i
  distinct : ∀ i, (t.buckets i).Pairwise fun a b => ops.equal a.key b.key = false

variable {ops} {size : Nat} {t : HashTable K V} {k k' : K} {e : HashNode K V}

theorem mem_entries : e ∈ t.entries size ↔ ∃ i < size, e ∈ t.buckets i := by
  simp [entries, List.mem_flatMap]

theorem wf_empty : WF ops (empty : HashTable K V) :=
  ⟨fun _ _ h => by simp [empty] at h, fun _ => by simp [empty]⟩

/-! ## The finite map -/

theorem mem_of_find? (h : t.find? ops k = some e) :
    e ∈ t.buckets (ops.hash k) ∧ ops.equal e.key k = true :=
  ⟨List.mem_of_find?_eq_some h, by simpa using List.find?_some h⟩

theorem mem_entries_of_find? (law : ops.Lawful size) (h : t.find? ops k = some e) :
    e ∈ t.entries size :=
  mem_entries.mpr ⟨_, law.hash_lt k, (mem_of_find? h).1⟩

/-- In a chain without equal keys the first match is the only one. -/
theorem find?_of_mem (law : ops.Lawful size) (wf : WF ops t) {i : Nat}
    (hmem : e ∈ t.buckets i) (heq : ops.equal e.key k = true) :
    t.find? ops k = some e := by
  have hi : ops.hash k = i := by rw [← law.hash_eq heq]; exact wf.bucket i e hmem
  have hgo : ∀ l : List (HashNode K V),
      l.Pairwise (fun a b => ops.equal a.key b.key = false) → e ∈ l →
      l.find? (fun e => ops.equal e.key k) = some e := by
    intro l hl hm
    induction l with
    | nil => cases hm
    | cons a rest ih =>
        rw [List.pairwise_cons] at hl
        rcases List.mem_cons.mp hm with rfl | hrest
        · simp [heq]
        · have hak : ops.equal a.key k = false := by
            cases hc : ops.equal a.key k with
            | false => rfl
            | true =>
                have := hl.1 e hrest
                rw [law.trans hc (law.symm heq)] at this
                cases this
          simpa [List.find?_cons, hak] using ih hl.2 hrest
  rw [find?, hi]
  exact hgo _ (wf.distinct i) hmem

theorem find?_insert_self (law : ops.Lawful size) (h : ops.equal e.key k = true) :
    (t.insert ops e).find? ops k = some e := by
  simp [find?, insert, law.hash_eq h, h]

theorem find?_insert_ne (h : ops.equal e.key k = false) :
    (t.insert ops e).find? ops k = t.find? ops k := by
  simp only [find?, insert]
  split
  · rw [List.find?_cons, h]
  · rfl

theorem wf_insert (law : ops.Lawful size) (wf : WF ops t)
    (hnew : t.find? ops e.key = none) : WF ops (t.insert ops e) := by
  refine ⟨fun i a ha => ?_, fun i => ?_⟩
  · simp only [insert] at ha
    split at ha
    · rcases List.mem_cons.mp ha with rfl | ha'
      · exact Eq.symm ‹_›
      · exact wf.bucket i a ha'
    · exact wf.bucket i a ha
  · simp only [insert]
    split
    · rename_i hi
      refine List.pairwise_cons.mpr ⟨fun a ha => ?_, wf.distinct i⟩
      cases hc : ops.equal e.key a.key with
      | false => rfl
      | true =>
          have := find?_of_mem law wf ha (law.symm hc)
          rw [hnew] at this
          cases this
    · exact wf.distinct i

theorem wf_remove (wf : WF ops t) : WF ops (t.remove ops k) := by
  refine ⟨fun i a ha => ?_, fun i => ?_⟩
  · simp only [remove] at ha
    split at ha
    · exact wf.bucket i a (List.mem_of_mem_eraseP ha)
    · exact wf.bucket i a ha
  · simp only [remove]
    split
    · exact (wf.distinct i).sublist List.eraseP_sublist
    · exact wf.distinct i

theorem mem_remove (law : ops.Lawful size) (wf : WF ops t) {i : Nat} :
    e ∈ (t.remove ops k).buckets i ↔ e ∈ t.buckets i ∧ ops.equal e.key k = false := by
  have hgo : ∀ l : List (HashNode K V),
      l.Pairwise (fun a b => ops.equal a.key b.key = false) →
      (e ∈ l.eraseP (fun e => ops.equal e.key k) ↔
        e ∈ l ∧ ops.equal e.key k = false) := by
    intro l hl
    induction l with
    | nil => simp
    | cons a rest ih =>
        rw [List.pairwise_cons] at hl
        cases hc : ops.equal a.key k with
        | true =>
            simp only [List.eraseP_cons, hc, cond_true, List.mem_cons]
            refine ⟨fun hm => ⟨Or.inr hm, ?_⟩, ?_⟩
            · cases hek : ops.equal e.key k with
              | false => rfl
              | true =>
                  have := hl.1 e hm
                  rw [law.trans hc (law.symm hek)] at this
                  cases this
            · rintro ⟨rfl | hm, hek⟩
              · rw [hc] at hek; cases hek
              · exact hm
        | false =>
            simp only [List.eraseP_cons, hc, cond_false, List.mem_cons, ih hl.2]
            constructor
            · rintro (rfl | ⟨hm, hek⟩)
              · exact ⟨Or.inl rfl, hc⟩
              · exact ⟨Or.inr hm, hek⟩
            · rintro ⟨rfl | hm, hek⟩
              · exact Or.inl rfl
              · exact Or.inr ⟨hm, hek⟩
  simp only [remove]
  split
  · exact hgo _ (wf.distinct i)
  · rename_i hi
    refine ⟨fun hm => ⟨hm, ?_⟩, And.left⟩
    cases hek : ops.equal e.key k with
    | false => rfl
    | true => exact absurd ((wf.bucket i e hm).symm.trans (law.hash_eq hek)) hi

theorem mem_entries_remove (law : ops.Lawful size) (wf : WF ops t)
    (h : e ∈ (t.remove ops k).entries size) :
    e ∈ t.entries size ∧ ops.equal e.key k = false := by
  obtain ⟨i, hi, hmem⟩ := mem_entries.mp h
  obtain ⟨hmem', hne⟩ := (mem_remove law wf).mp hmem
  exact ⟨mem_entries.mpr ⟨i, hi, hmem'⟩, hne⟩

theorem find?_remove_self (law : ops.Lawful size) (wf : WF ops t)
    (h : ops.equal k k' = true) : (t.remove ops k).find? ops k' = none := by
  rw [find?, List.find?_eq_none]
  intro e he
  have := ((mem_remove law wf).mp he).2
  intro hek
  rw [law.trans hek (law.symm h)] at this
  cases this

theorem find?_remove_ne (law : ops.Lawful size) (wf : WF ops t)
    (h : ops.equal k k' = false) : (t.remove ops k).find? ops k' = t.find? ops k' := by
  cases hf : t.find? ops k' with
  | none =>
      rw [find?, List.find?_eq_none] at hf ⊢
      exact fun e he => hf e ((mem_remove law wf).mp he).1
  | some e =>
      obtain ⟨hm, hek⟩ := mem_of_find? hf
      refine find?_of_mem law (wf_remove wf) ((mem_remove law wf).mpr ⟨hm, ?_⟩) hek
      cases hc : ops.equal e.key k with
      | false => rfl
      | true =>
          rw [law.trans (law.symm hc) hek] at h
          cases h

/-! ## The nodes -/

theorem length_bucket_le (t : HashTable K V) {i : Nat} (hi : i < size) :
    (t.buckets i).length ≤ (t.entries size).length := by
  obtain ⟨l₁, l₂, heq⟩ := List.append_of_mem (List.mem_range.mpr hi)
  simp only [entries, heq, List.flatMap_append, List.flatMap_cons, List.length_append]
  omega

/-- Adding one node to one chain adds it to the node list, up to order. -/
theorem flatMap_cons_perm {α : Type} (f g : Nat → List α) (i : Nat) (a : α)
    (hi : (g i).Perm (a :: f i)) (hne : ∀ j, j ≠ i → g j = f j) :
    ∀ {l : List Nat}, l.Nodup → i ∈ l → (l.flatMap g).Perm (a :: l.flatMap f)
  | [], _, h => by cases h
  | j :: rest, hnd, hmem => by
      rw [List.nodup_cons] at hnd
      rw [List.flatMap_cons, List.flatMap_cons]
      rcases List.mem_cons.mp hmem with rfl | hrest
      · have hsame : rest.flatMap g = rest.flatMap f :=
          List.flatMap_congr fun m hm => hne m fun h => hnd.1 (h ▸ hm)
        rw [hsame]
        exact hi.append_right _
      · have hji : j ≠ i := fun h => hnd.1 (h ▸ hrest)
        rw [hne j hji]
        exact ((flatMap_cons_perm f g i a hi hne hnd.2 hrest).append_left _).trans
          List.perm_middle

theorem entries_insert (law : ops.Lawful size) :
    ((t.insert ops e).entries size).Perm (e :: t.entries size) :=
  flatMap_cons_perm t.buckets _ (ops.hash e.key) e (by simp [insert])
    (fun j hj => by simp [insert, hj]) List.nodup_range
    (List.mem_range.mpr (law.hash_lt _))

/-- A chain is its first match and what unlinking it leaves, up to order. -/
theorem perm_cons_eraseP {α : Type} {p : α → Bool} {a : α} :
    ∀ {l : List α}, l.find? p = some a → l.Perm (a :: l.eraseP p)
  | [], h => by cases h
  | b :: rest, h => by
      cases hc : p b with
      | true =>
          obtain rfl : b = a := by simpa [List.find?_cons, hc] using h
          rw [List.eraseP_cons_of_pos hc]
      | false =>
          rw [List.find?_cons, hc] at h
          rw [List.eraseP_cons_of_neg (by simp [hc])]
          exact ((perm_cons_eraseP h).cons b).trans (.swap _ _ _)

theorem entries_remove (law : ops.Lawful size) (h : t.find? ops k = some e) :
    (t.entries size).Perm (e :: (t.remove ops k).entries size) :=
  flatMap_cons_perm _ t.buckets (ops.hash k) e
    (by simpa [remove] using perm_cons_eraseP h)
    (fun j hj => by simp [remove, hj]) List.nodup_range
    (List.mem_range.mpr (law.hash_lt k))

end HashTable

end Pke
