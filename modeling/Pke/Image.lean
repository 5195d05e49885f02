import Pke.Spawn

/-!
# What a process sees

The image of a page table: at each virtual address the flags of its entry
and the byte behind it (`Paging.byte`). As long as no data page is behind
two virtual pages (`Paging.Own`), mapping a new page and writing a mapped
one are updates of the image at the addresses one expects.
-/

namespace Pke

namespace Paging

/-- The flags and the byte at the virtual address `v`. -/
def byte (P : Paging) (d v : Nat) : Option (Nat × UInt8) :=
  (P.entries d (v / pgSize)).map fun e => (pteFlags e, P.bytes (pte2pa e + v % pgSize))

/-- The entries of the table `d` lead to data pages, each to its own. -/
structure Own (P : Paging) (d : Nat) : Prop where
  dir : d ∈ P.dirs
  data : ∀ n e, P.entries d n = some e → pte2pa e ∈ P.data
  inj : ∀ n n' e e', P.entries d n = some e → P.entries d n' = some e' →
    pte2pa e = pte2pa e' → n = n'

variable {P : Paging} {d m p e perm off len : Nat} {page src : Nat → UInt8}

theorem byte_none {v : Nat} (h : P.entries d (v / pgSize) = none) : P.byte d v = none := by
  rw [byte, h, Option.map_none]

theorem use_byte_ne {q i : Nat} (hp : p % pgSize = 0) (hq : q % pgSize = 0) (hne : q ≠ p)
    (hi : i < pgSize) : (P.use p page).bytes (q + i) = P.bytes (q + i) :=
  samePage_page hp hq hne i hi

theorem use_byte {i : Nat} (hi : i < pgSize) : (P.use p page).bytes (p + i) = page i :=
  memcpy_in hi

theorem copy_byte_ne {q i : Nat} (hp : p % pgSize = 0) (hq : q % pgSize = 0) (hne : q ≠ p)
    (hlen : off + len ≤ pgSize) (hi : i < pgSize) :
    (P.copy (p + off) len src).bytes (q + i) = P.bytes (q + i) :=
  samePage_memcpy hp hq hne hlen i hi

theorem copy_byte {i : Nat} : (P.copy (p + off) len src).bytes (p + i) =
    if off ≤ i ∧ i < off + len then src (i - off) else P.bytes (p + i) := by
  split
  · rename_i hin
    have hi : p + i = p + off + (i - off) := by omega
    rw [hi]
    exact memcpy_in (by omega)
  · exact memcpy_out (by omega)

theorem pte2pa_page (e : Nat) : pte2pa e % pgSize = 0 := pte2pa_mod e

theorem mod_pgSize_lt (v : Nat) : v % pgSize < pgSize := Nat.mod_lt v (by decide)

/-- A new page is mapped. -/
theorem Own.grow (h : P.Own d) (hp : Machine.Unused P p) (hperm : perm < 1024) :
    ((P.use p page).map d m (Phys.leafPte p perm)).Own d ∧
      ∀ v, ((P.use p page).map d m (Phys.leafPte p perm)).byte d v =
        if v / pgSize = m then some (perm ||| pteV, page (v % pgSize)) else P.byte d v := by
  have hpa : pte2pa (Phys.leafPte p perm) = p := Phys.pte2pa_leafPte hperm hp.page hp.lt
  have hold : ∀ n e, P.entries d n = some e → pte2pa e ≠ p :=
    fun n e he heq => hp.notMem (heq ▸ h.data n e he)
  have hcases : ∀ n e, ((P.use p page).map d m (Phys.leafPte p perm)).entries d n = some e →
      n = m ∧ e = Phys.leafPte p perm ∨ P.entries d n = some e := by
    intro n e he
    rw [map_entries] at he
    split at he
    · exact .inl ⟨‹_›, (Option.some.inj he).symm⟩
    · exact .inr he
  refine ⟨⟨h.dir, fun n e he => ?_, fun n n' e e' he he' heq => ?_⟩, fun v => ?_⟩
  · rcases hcases n e he with ⟨-, rfl⟩ | he
    · rw [hpa]
      exact Set.mem_insert _ _
    · exact Set.mem_insert_of_mem _ (h.data n e he)
  · rcases hcases n e he with ⟨hn, rfl⟩ | hf <;> rcases hcases n' e' he' with ⟨hn', rfl⟩ | hf'
    · rw [hn, hn']
    · exact absurd (heq.symm.trans hpa) (hold n' e' hf')
    · exact absurd (heq.trans hpa) (hold n e hf)
    · exact h.inj n n' e e' hf hf' heq
  · rw [byte, map_entries]
    split
    · rw [Option.map_some, hpa, Phys.pteFlags_leafPte hperm]
      exact congrArg (fun b => some (perm ||| pteV, b)) (use_byte (mod_pgSize_lt v))
    · cases he : P.entries d (v / pgSize) with
      | none => simp [byte, he]
      | some e =>
          rw [use_entries, he, byte, he, Option.map_some, Option.map_some]
          have hsame : (P.use p page).bytes (pte2pa e + v % pgSize) = P.bytes (pte2pa e + v % pgSize) :=
            use_byte_ne hp.page (pte2pa_page e) (hold _ e he) (mod_pgSize_lt v)
          rw [map_bytes, hsame]

/-- A page is unmapped. -/
theorem Own.unmap {n : Nat} (h : P.Own d) (he : P.entries d n = some e) :
    (P.unmap d n (pte2pa e)).Own d := by
  have hcases : ∀ n' f, (P.unmap d n (pte2pa e)).entries d n' = some f →
      n' ≠ n ∧ P.entries d n' = some f := by
    intro n' f hf
    rw [unmap_entries] at hf
    split at hf
    · cases hf
    · exact ⟨‹_›, hf⟩
  refine ⟨h.dir, fun n' f hf => ?_, fun n' m f g hf hg => ?_⟩
  · obtain ⟨hne, hf⟩ := hcases n' f hf
    exact ⟨h.data n' f hf, fun heq => hne (h.inj n' n f e hf he heq)⟩
  · exact h.inj n' m f g (hcases n' f hf).2 (hcases m g hg).2

/-- A mapped page is written. -/
theorem Own.copy (h : P.Own d) (he : P.entries d m = some e) (hlen : off + len ≤ pgSize) :
    (P.copy (pte2pa e + off) len src).Own d ∧
      ∀ v, (P.copy (pte2pa e + off) len src).byte d v =
        if v / pgSize = m ∧ off ≤ v % pgSize ∧ v % pgSize < off + len then
          some (pteFlags e, src (v % pgSize - off)) else P.byte d v := by
  refine ⟨⟨h.dir, h.data, h.inj⟩, fun v => ?_⟩
  by_cases hm : v / pgSize = m
  · simp only [byte, copy_entries, hm, he, Option.map_some, copy_byte, true_and]
    split <;> rfl
  · rw [if_neg (fun hin => hm hin.1), byte, byte, copy_entries]
    cases hv : P.entries d (v / pgSize) with
    | none => rfl
    | some f =>
        have hne : pte2pa f ≠ pte2pa e := fun heq => hm (h.inj _ _ f e hv he heq)
        rw [Option.map_some, Option.map_some,
          copy_byte_ne (pte2pa_page e) (pte2pa_page f) hne hlen (mod_pgSize_lt v)]

/-! ## The image of a new process -/

variable {pt us tf trap n : Nat} {stack frame : Nat → UInt8}

theorem spawn_entries : (P.spawn pt us tf trap stack frame).entries pt n =
    if n = trap / pgSize then some (trapPte trap) else if n = tf / pgSize then some (framePte tf)
    else if n = stackPage then some (stackPte us) else none := by
  rw [spawn, map_entries, map_entries, map_entries, use_entries, use_entries, newDir_entries]

theorem spawn_entries_ne {d : Nat} (hne : d ≠ pt) :
    (P.spawn pt us tf trap stack frame).entries d = P.entries d := by
  rw [spawn, map_entries_ne hne, map_entries_ne hne, map_entries_ne hne, use_entries, use_entries,
    newDir_entries_ne hne]

/-- The tables and the data there were are as before. -/
theorem spawn_lookup {d va : Nat} (hne : d ≠ pt) :
    (P.spawn pt us tf trap stack frame).lookup d va = P.lookup d va := by
  simp only [lookup, spawn_entries_ne hne]

theorem spawn_bytes (h : Machine.Spawned P pt us tf trap) {q : Nat} (hq : q ∈ P.data)
    (hpage : q % pgSize = 0) :
    Phys.SamePage P.bytes (P.spawn pt us tf trap stack frame).bytes q := by
  have hframe : Phys.SamePage P.bytes ((P.newDir pt).use tf frame).bytes q :=
    samePage_page h.frame.page hpage fun heq => h.frame.notMem (heq ▸ hq)
  exact hframe.trans (samePage_page h.stack.page hpage fun heq => h.stack.notMem (heq ▸ hq))

/-- The pages of a new process are its own. -/
theorem spawn_own (h : Machine.Spawned P pt us tf trap) (htrap : trap ∈ P.data)
    (hpage : trap % pgSize = 0) (h64 : trap < 2 ^ 64) :
    (P.spawn pt us tf trap stack frame).Own pt := by
  have hstack : pte2pa (stackPte us) = us :=
    Phys.pte2pa_leafPte (by decide) h.stack.page h.stack.lt
  have hframe : pte2pa (framePte tf) = tf :=
    Phys.pte2pa_leafPte (by decide) h.frame.page h.frame.lt
  have htrapPa : pte2pa (trapPte trap) = trap := Phys.pte2pa_leafPte (by decide) hpage h64
  have hcases : ∀ n e, (P.spawn pt us tf trap stack frame).entries pt n = some e →
      n = trap / pgSize ∧ pte2pa e = trap ∨ n = tf / pgSize ∧ pte2pa e = tf ∨
        n = stackPage ∧ pte2pa e = us := by
    intro n e he
    rw [spawn_entries] at he
    split_ifs at he with h1 h2 h3 <;> obtain rfl := Option.some.inj he
    · exact .inl ⟨h1, htrapPa⟩
    · exact .inr (.inl ⟨h2, hframe⟩)
    · exact .inr (.inr ⟨h3, hstack⟩)
  have hne : trap ≠ us := fun heq => h.stack.notMem (heq ▸ htrap)
  have hne' : trap ≠ tf := fun heq => h.frame.notMem (heq ▸ htrap)
  refine ⟨Set.mem_insert _ _, fun n e he => ?_, fun n n' e e' he he' heq => ?_⟩
  · rcases hcases n e he with ⟨-, hpa⟩ | ⟨-, hpa⟩ | ⟨-, hpa⟩ <;> rw [hpa]
    · exact Set.mem_insert_of_mem _ (Set.mem_insert_of_mem _ htrap)
    · exact Set.mem_insert_of_mem _ (Set.mem_insert _ _)
    · exact Set.mem_insert _ _
  · have hne2 := h.ne
    rcases hcases n e he with ⟨hn, hpa⟩ | ⟨hn, hpa⟩ | ⟨hn, hpa⟩ <;>
      rcases hcases n' e' he' with ⟨hn', hpa'⟩ | ⟨hn', hpa'⟩ | ⟨hn', hpa'⟩ <;>
      rw [hpa, hpa'] at heq <;> first | exact hn.trans hn'.symm | omega

/-- The image in memory. -/
theorem byte_eq {s : Phys} {l hs : List Nat} (h : s.Refines l P hs) (hown : P.Own d) {v : Nat}
    (hv : v < maxVA) : P.byte d v = (Pke.entry s.mem d v).map fun e =>
      (pteFlags e, s.mem (pte2pa e + v % pgSize)) := by
  rw [h.entry d hown.dir v hv, byte]
  cases he : P.entries d (v / pgSize) with
  | none => rfl
  | some e =>
      have hsame := (h.data _ (hown.data _ e he)).2 _ (mod_pgSize_lt v)
      rw [Option.map_some, Option.map_some, hsame]

end Paging

end Pke
