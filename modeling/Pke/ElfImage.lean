import Pke.Image
import Pke.Regions

/-!
# The image of a loaded program

`elf_load` gives a process for each loadable header fresh pages of zeros
(`Allocated`) and copies the bytes of the file into them (`Copied`), page
by page. Both leave what was mapped before as it was, so that at the end
the image of every header is there (`elf_image`).
-/

namespace Pke

variable {P P1 P' : Paging} {n : Nat} {f : HostFile} {ph : ProgHeader} {k : Machine} {l : List Nat}

namespace Machine

open Exec (Post get modify)

/-! ## Fresh pages -/

/-- The `n` pages from `a` on were not mapped and are pages of zeros now. -/
structure Allocated (P P' : Paging) (d perm a n : Nat) : Prop where
  fresh : ∀ m, a ≤ m → m < a + n → P.entries d m = none ∧ m * pgSize < maxVA
  old : ∀ m e, P.entries d m = some e → P'.entries d m = some e
  new : ∀ m e, P'.entries d m = some e → P.entries d m = some e ∨ a ≤ m ∧ m < a + n
  byte : ∀ v, P'.byte d v =
    if a ≤ v / pgSize ∧ v / pgSize < a + n then some (perm ||| pteV, 0) else P.byte d v

theorem Allocated.zero {d perm a : Nat} : Allocated P P d perm a 0 :=
  ⟨fun m h h' => by omega, fun _ _ he => he, fun _ _ he => .inl he,
    fun v => by rw [if_neg (by omega)]⟩

/-- One page more in front. -/
theorem Allocated.cons {d perm a e : Nat} (h : Allocated P1 P' d perm (a + 1) n)
    (hbelow : a * pgSize < maxVA) (hfresh : P.entries d a = none)
    (hent : ∀ m, P1.entries d m = if m = a then some e else P.entries d m)
    (hbyte : ∀ v, P1.byte d v = if v / pgSize = a then some (perm ||| pteV, 0) else P.byte d v) :
    Allocated P P' d perm a (n + 1) := by
  refine ⟨fun m hlo hhi => ?_, fun m f hf => h.old m f ?_, fun m f hf => ?_, fun v => ?_⟩
  · by_cases hm : m = a
    · rw [hm]
      exact ⟨hfresh, hbelow⟩
    · have hnext := h.fresh m (by omega) (by omega)
      rw [hent, if_neg hm] at hnext
      exact hnext
  · rw [hent, if_neg]
    · exact hf
    · rintro rfl
      rw [hfresh] at hf
      cases hf
  · rcases h.new m f hf with hold | hin
    · rw [hent] at hold
      split at hold
      · exact .inr (by omega)
      · exact .inl hold
    · exact .inr (by omega)
  · rw [h.byte, hbyte]
    split_ifs <;> first | rfl | omega

variable {F : Machine → Prop} {p : Pid} {d : Nat}

theorem pages_elfAllocFrom {start prot : Nat} (hstart : start % pgSize = 0) :
    ∀ {n i : Nat} {P : Paging} {F : Machine → Prop}, Stable F →
    (∀ k, F k → (k.procs p).pagetable = d) → start + (i + n) * pgSize ≤ 2 ^ 64 →
    Triple (Pages P [] fun k => F k ∧ P.Own d) (elfAllocFrom p start prot n i) fun _ k =>
      ∃ P', Pages P' [] (fun k => F k ∧ P'.Own d) k ∧
        Allocated P P' d (protToType prot true) (start / pgSize + i) n := by
  intro n
  induction n with
  | zero =>
      intro i P F hF hpt hend
      exact .pure fun k hk => ⟨P, hk, .zero⟩
  | succ n ih =>
      intro i P F hF hpt hend
      have hperm := Phys.protToType_lt prot true
      have hva : (start + i * pgSize) / pgSize = start / pgSize + i := by
        unfold pgSize
        omega
      have hlt : start + i * pgSize < 2 ^ 64 := by
        unfold pgSize at hend ⊢
        omega
      refine .bind ((pages_allocPage (hF.and _)).mono (fun _ h => h) fun _ _ h => h.1) fun pa => ?_
      refine .ite (fun _ => .fault) fun _ => .bind (pages_memset (hF.and _)) fun _ => ?_
      refine .bindGet fun k1 => ?_
      let c : Prop := P.Own d ∧ Unused P pa ∧ (k1.procs p).pagetable = d
      have hread : ∀ k, Pages (P.use pa fun _ => 0) [] (fun k => (F k ∧ P.Own d) ∧ Unused P pa) k ∧
          k = k1 → Pages (P.use pa fun _ => 0) [] (fun k => F k ∧ c) k := by
        rintro k ⟨hk, rfl⟩
        exact hk.imp fun h => ⟨h.1.1, h.1.2, h.2, hpt k h.1.1⟩
      refine Triple.mono ?_ hread fun _ _ h => h
      refine .bind (pages_map d (start + i * pgSize) pa (hF.and c) hperm fun k hk => ?_)
        fun _ => ?_
      · obtain ⟨-, -, hown, hp, hdir⟩ := hk
        refine ⟨hdir, rfl, rfl, hown.dir, ?_, hlt, hp.lt⟩
        rw [Nat.add_mul_mod_self_right, hstart]
      rw [hva]
      -- the other pages, with what is known of this one
      let c' : Prop := c ∧ start + i * pgSize < maxVA ∧ P.entries d (start / pgSize + i) = none
      refine (ih (P := (P.use pa fun _ => 0).map d (start / pgSize + i)
        (Phys.leafPte pa (protToType prot true))) (hF.and c') (fun k h => hpt k h.1) ?_).mono
        (fun k hk => ?_) fun _ k => ?_
      · rw [Nat.add_assoc, Nat.add_comm 1 n]
        exact hend
      · refine hk.imp fun h => ⟨⟨h.1.1, h.1.2, h.2⟩, ?_⟩
        exact (Paging.Own.grow h.1.2.1 h.1.2.2.1 hperm).1
      · rintro ⟨P', hk, halloc⟩
        obtain ⟨⟨-, ⟨hown, hp, -⟩, hbelow, hfresh⟩, -⟩ := hk.2
        refine ⟨P', hk.imp fun h => ⟨h.1.1, h.2⟩, ?_⟩
        rw [← Nat.add_assoc] at halloc
        refine halloc.cons ?_ hfresh (fun m => Paging.map_entries) (Paging.Own.grow hown hp hperm).2
        rw [Nat.add_mul]
        unfold pgSize at *
        omega

/-! ## The bytes of the file -/

/-- The bytes of the file for `ph` from `loaded` on are at their addresses. -/
structure Copied (f : HostFile) (ph : ProgHeader) (loaded : Nat) (P P' : Paging) (d : Nat) : Prop where
  entries : P'.entries = P.entries
  byte : ∀ v, P'.byte d v = if ph.vaddr + loaded ≤ v ∧ v < ph.vaddr + ph.filesz then
    (P.byte d v).map fun x => (x.1, f.bytes (ph.off + (v - ph.vaddr))) else P.byte d v

theorem Copied.refl {loaded : Nat} (h : ph.filesz ≤ loaded) : Copied f ph loaded P P d :=
  ⟨rfl, fun v => by rw [if_neg (by omega)]⟩

/-- One piece more in front. -/
theorem Copied.cons {loaded bytes e : Nat} (h : Copied f ph (loaded + bytes) P1 P' d)
    (hle : loaded + bytes ≤ ph.filesz) (hent : P1.entries = P.entries)
    (he : P.entries d ((ph.vaddr + loaded) / pgSize) = some e)
    (hin : (ph.vaddr + loaded) % pgSize + bytes ≤ pgSize)
    (hbyte : ∀ v, P1.byte d v = if v / pgSize = (ph.vaddr + loaded) / pgSize ∧
      (ph.vaddr + loaded) % pgSize ≤ v % pgSize ∧
      v % pgSize < (ph.vaddr + loaded) % pgSize + bytes then
        some (pteFlags e, f.bytes (ph.off + loaded + (v % pgSize - (ph.vaddr + loaded) % pgSize)))
      else P.byte d v) : Copied f ph loaded P P' d := by
  refine ⟨h.entries.trans hent, fun v => ?_⟩
  have hpiece : v / pgSize = (ph.vaddr + loaded) / pgSize ∧
      (ph.vaddr + loaded) % pgSize ≤ v % pgSize ∧
      v % pgSize < (ph.vaddr + loaded) % pgSize + bytes ↔
      ph.vaddr + loaded ≤ v ∧ v < ph.vaddr + (loaded + bytes) := by
    unfold pgSize at *
    omega
  rw [h.byte, hbyte]
  by_cases hp : ph.vaddr + loaded ≤ v ∧ v < ph.vaddr + (loaded + bytes)
  · have hpage := (hpiece.mpr hp).1
    have hoff : ph.off + loaded + (v % pgSize - (ph.vaddr + loaded) % pgSize) =
        ph.off + (v - ph.vaddr) := by
      have := hpiece.mpr hp
      unfold pgSize at *
      omega
    rw [if_neg (by omega), if_pos (hpiece.mpr hp), if_pos (by omega), Paging.byte, hpage, he, hoff]
    rfl
  · rw [if_neg (fun hc => hp (hpiece.mp hc))]
    by_cases hr : ph.vaddr + (loaded + bytes) ≤ v ∧ v < ph.vaddr + ph.filesz
    · rw [if_pos hr, if_pos (by omega)]
    · rw [if_neg hr, if_neg (by omega)]

theorem pages_elfCopyFrom (hsize : f.size < 2 ^ 64) :
    ∀ {fuel loaded : Nat} {P : Paging} {F : Machine → Prop}, Stable F →
    (∀ k, F k → (k.procs p).pagetable = d) → ph.off + loaded < 2 ^ 64 →
    Triple (Pages P [] fun k => F k ∧ P.Own d) (elfCopyFrom p f ph fuel loaded) fun st k =>
      ∃ P', Pages P' [] (fun k => F k ∧ P'.Own d) k ∧
        (st = .ok → Copied f ph loaded P P' d) := by
  intro fuel
  induction fuel with
  | zero =>
      intro loaded P F hF hpt hoff
      rw [elfCopyFrom]
      exact .ite (fun _ => .fault) fun hdone => .pure fun k hk =>
        ⟨P, hk, fun _ => .refl (Nat.le_of_not_lt hdone)⟩
  | succ fuel ih =>
      intro loaded P F hF hpt hoff
      rw [elfCopyFrom]
      refine .ite (fun hlt => .bindGet fun k1 => ?_) fun hdone => .pure fun k hk =>
        ⟨P, hk, fun _ => .refl (Nat.le_of_not_lt hdone)⟩
      have hround : roundDown (ph.vaddr + loaded) pgSize / pgSize = (ph.vaddr + loaded) / pgSize := by
        unfold roundDown pgSize
        omega
      have hpageOff : ph.vaddr + loaded - roundDown (ph.vaddr + loaded) pgSize =
          (ph.vaddr + loaded) % pgSize := by
        unfold roundDown pgSize
        omega
      dsimp only
      rw [hpageOff, Nat.mod_eq_of_lt hoff]
      generalize hbytes : min (ph.filesz - loaded) (pgSize - (ph.vaddr + loaded) % pgSize) = bytes
      have hmod := Paging.mod_pgSize_lt (ph.vaddr + loaded)
      have hin : (ph.vaddr + loaded) % pgSize + bytes ≤ pgSize := by omega
      have hlen : (ph.vaddr + loaded) % pgSize + f.pread bytes (ph.off + loaded) ≤ pgSize := by
        unfold HostFile.pread
        omega
      let c : Prop := (k1.procs p).pagetable = d ∧ P.Own d
      have hread : ∀ k, Pages P [] (fun k => F k ∧ P.Own d) k ∧ k = k1 →
          Pages P [] (fun k => F k ∧ c) k := by
        rintro k ⟨hk, rfl⟩
        exact hk.imp fun h => ⟨h.1, hpt k h.1, h.2⟩
      refine Triple.mono ?_ hread fun _ _ h => h
      refine .bind (pages_lookupPa d (roundDown (ph.vaddr + loaded) pgSize) fun k h =>
        ⟨h.2.1, rfl, h.2.2.dir⟩) fun pa => .ite (fun _ => .pure fun k hk => ?_) fun hpa => ?_
      · exact ⟨P, hk.imp fun h => ⟨h.1.1, h.1.2.2⟩, fun hst => by cases hst⟩
      -- the page of the address
      have hpage : pa = P.lookup d (roundDown (ph.vaddr + loaded) pgSize) →
          ∃ e, P.entries d ((ph.vaddr + loaded) / pgSize) = some e ∧ pa = pte2pa e := by
        intro h
        rw [← hround]
        exact (Paging.exists_of_lookup h.symm hpa).2
      refine .bind (pages_copy ((hF.and c).and _) hlen fun k h => ?_) fun _ => ?_
      · obtain ⟨e, he, rfl⟩ := hpage h.2
        exact h.1.2.2.data _ e he
      refine .ite (fun _ => .pure fun k hk => ?_) fun hfull => ?_
      · refine ⟨P.copy _ _ _, hk.imp fun h => ⟨h.1.1, ?_⟩, fun hst => by cases hst⟩
        obtain ⟨e, he, rfl⟩ := hpage h.2
        exact (h.1.2.2.copy he hlen).1
      have hfull : f.pread bytes (ph.off + loaded) = bytes := not_not.mp hfull
      have hoff' : ph.off + (loaded + bytes) < 2 ^ 64 := by
        unfold HostFile.pread at hfull
        omega
      rw [hfull]
      let c' : Prop := c ∧ pa = P.lookup d (roundDown (ph.vaddr + loaded) pgSize)
      refine (ih (hF.and c') (fun k h => hpt k h.1) hoff').mono (fun k hk => hk.imp fun h => ?_)
        fun st k => ?_
      · refine ⟨⟨h.1.1, h.1.2, h.2⟩, ?_⟩
        obtain ⟨e, he, rfl⟩ := hpage h.2
        exact (h.1.2.2.copy he hin).1
      · rintro ⟨P', hk, hcopied⟩
        obtain ⟨⟨-, ⟨-, hown⟩, hlookup⟩, -⟩ := hk.2
        refine ⟨P', hk.imp fun h => ⟨h.1.1, h.2⟩, fun hst => ?_⟩
        obtain ⟨e, he, rfl⟩ := hpage hlookup
        exact (hcopied hst).cons (by omega) rfl he hin (hown.copy he hin).2

/-! ## Segments -/

/-- The end of the segment, rounded up, is not taken for its beginning. -/
def EndsHigh (ph : ProgHeader) : Prop := ph.vaddr < pgSize → ph.vaddr + ph.memsz ≤ 2 ^ 64 - pgSize

instance (ph : ProgHeader) : Decidable (EndsHigh ph) := by unfold EndsHigh; infer_instance

theorem sub64_eq (a b : Nat) : sub64 a b = (a + 2 ^ 64 - b) % 2 ^ 64 := by unfold sub64; rfl

theorem segmentPages_zero : segmentPages 0 0 = 0 := by
  unfold segmentPages roundUp64
  rw [sub64_eq, sub64_eq]
  rfl

theorem segmentPages_eq {va size : Nat} (hpos : 0 < va + size) (hend : va + size < 2 ^ 64) :
    segmentPages va size =
      (((va + size - 1) / 4096 + 1) * 4096 % 2 ^ 64 + 2 ^ 64 - va / 4096 * 4096) % 2 ^ 64 / 4096 := by
  have hsub : sub64 (va + size) 1 = va + size - 1 := by
    rw [sub64_eq]
    omega
  rw [segmentPages, Nat.mod_eq_of_lt hend, roundUp64, hsub, sub64_eq]
  rfl

/-- The pages a segment takes end where the segment ends. -/
theorem segmentPages_end (hend : ph.vaddr + ph.memsz < 2 ^ 64) :
    roundDown ph.vaddr pgSize + segmentPages ph.vaddr ph.memsz * pgSize ≤ 2 ^ 64 ∧
      (EndsHigh ph → ph.memsz ≠ 0 →
        ph.vaddr + ph.memsz ≤ (ph.vaddr / pgSize + segmentPages ph.vaddr ph.memsz) * pgSize) := by
  unfold EndsHigh
  generalize ph.vaddr = va at *
  generalize ph.memsz = size at *
  by_cases hpos : 0 < va + size
  · rw [segmentPages_eq hpos hend]
    unfold roundDown pgSize
    -- the end is rounded up to the last page or to one before it
    generalize hq : (va + size - 1) / 4096 = q
    by_cases hlast : (q + 1) * 4096 < 2 ^ 64
    · rw [Nat.mod_eq_of_lt hlast]
      omega
    · have hwrap : (q + 1) * 4096 = 2 ^ 64 := by omega
      rw [hwrap, Nat.mod_self]
      omega
  · obtain ⟨rfl, rfl⟩ : va = 0 ∧ size = 0 := by omega
    rw [segmentPages_zero]
    exact ⟨by decide, fun _ h => absurd rfl h⟩

/-- The bytes of a segment are in its pages. -/
theorem segmentPages_covers (hend : ph.vaddr + ph.memsz < 2 ^ 64) (hhigh : EndsHigh ph) {j : Nat}
    (hj : j < ph.memsz) : ph.vaddr / pgSize ≤ (ph.vaddr + j) / pgSize ∧
      (ph.vaddr + j) / pgSize < ph.vaddr / pgSize + segmentPages ph.vaddr ph.memsz := by
  have hle := (segmentPages_end hend).2 hhigh (by omega)
  unfold pgSize at *
  omega

/-- The image of the header `ph` is in the table `d`. -/
def HasImage (f : HostFile) (ph : ProgHeader) (P : Paging) (d : Nat) : Prop :=
  ∀ j < ph.memsz, ph.vaddr + j < maxVA ∧ P.byte d (ph.vaddr + j) =
    some (protToType (segmentProt ph.flags) true ||| pteV,
      if j < ph.filesz then f.bytes (ph.off + j) else 0)

/-- What was in the image is still there. -/
structure Includes (P P' : Paging) (d : Nat) : Prop where
  entry : ∀ n e, P.entries d n = some e → P'.entries d n = some e
  byte : ∀ v x, P.byte d v = some x → P'.byte d v = some x

theorem Includes.refl (P : Paging) (d : Nat) : Includes P P d := ⟨fun _ _ h => h, fun _ _ h => h⟩

theorem Includes.trans {P'' : Paging} (h : Includes P P' d) (h' : Includes P' P'' d) :
    Includes P P'' d :=
  ⟨fun n e he => h'.entry n e (h.entry n e he), fun v x hx => h'.byte v x (h.byte v x hx)⟩

theorem HasImage.mono (h : HasImage f ph P d) (hinc : Includes P P' d) : HasImage f ph P' d :=
  fun j hj => ⟨(h j hj).1, hinc.byte _ _ (h j hj).2⟩

/-- Fresh pages with the bytes of the file are the image of a segment. -/
theorem image_of_copied (hend : ph.vaddr + ph.memsz < 2 ^ 64) (hhigh : EndsHigh ph)
    (hle : ph.filesz ≤ ph.memsz)
    (halloc : Allocated P P1 d (protToType (segmentProt ph.flags) true) (ph.vaddr / pgSize)
      (segmentPages ph.vaddr ph.memsz)) (hcopy : Copied f ph 0 P1 P' d) :
    Includes P P' d ∧ HasImage f ph P' d := by
  refine ⟨⟨fun n e he => ?_, fun v x hx => ?_⟩, ?_⟩
  · rw [hcopy.entries]
    exact halloc.old n e he
  · -- an address that was mapped is not in the new pages
    have hout : ¬(ph.vaddr / pgSize ≤ v / pgSize ∧
        v / pgSize < ph.vaddr / pgSize + segmentPages ph.vaddr ph.memsz) := by
      rintro ⟨hlo, hhi⟩
      rw [Paging.byte_none (halloc.fresh _ hlo hhi).1] at hx
      cases hx
    have hnot : ¬(ph.vaddr + 0 ≤ v ∧ v < ph.vaddr + ph.filesz) := by
      rintro ⟨hlo, hhi⟩
      have hcov := segmentPages_covers hend hhigh (show v - ph.vaddr < ph.memsz by omega)
      rw [show ph.vaddr + (v - ph.vaddr) = v by omega] at hcov
      exact hout hcov
    rw [hcopy.byte, if_neg hnot, halloc.byte, if_neg hout, hx]
  · intro j hj
    have hcov := segmentPages_covers hend hhigh hj
    have hbelow := (halloc.fresh _ hcov.1 hcov.2).2
    refine ⟨by unfold maxVA pgSize at *; omega, ?_⟩
    rw [hcopy.byte, halloc.byte, if_pos hcov]
    by_cases hfile : j < ph.filesz
    · rw [if_pos (by omega), if_pos hfile, Nat.add_sub_cancel_left]
      rfl
    · rw [if_neg (by omega), if_neg hfile]

/-- A page of the segment. -/
def InSegment (ph : ProgHeader) (n : Nat) : Prop :=
  ph.vaddr / pgSize ≤ n ∧ n < ph.vaddr / pgSize + segmentPages ph.vaddr ph.memsz

/-- What was mapped still is, and what is new are pages of the segments `Q`. -/
structure Adds (P P' : Paging) (d : Nat) (Q : ProgHeader → Prop) : Prop where
  old : ∀ n e, P.entries d n = some e → P'.entries d n = some e
  new : ∀ n e, P'.entries d n = some e → P.entries d n = some e ∨ ∃ ph, Q ph ∧ InSegment ph n

theorem Adds.refl {Q : ProgHeader → Prop} : Adds P P d Q := ⟨fun _ _ he => he, fun _ _ he => .inl he⟩

theorem Adds.trans {Q Q1 Q2 : ProgHeader → Prop} (h1 : Adds P P1 d Q1) (h2 : Adds P1 P' d Q2)
    (hQ1 : ∀ ph, Q1 ph → Q ph) (hQ2 : ∀ ph, Q2 ph → Q ph) : Adds P P' d Q := by
  refine ⟨fun n e he => h2.old n e (h1.old n e he), fun n e he => ?_⟩
  rcases h2.new n e he with hold | ⟨ph, hph, hin⟩
  · exact (h1.new n e hold).imp_right fun ⟨ph, hph, hin⟩ => ⟨ph, hQ1 ph hph, hin⟩
  · exact .inr ⟨ph, hQ2 ph hph, hin⟩

/-- The page table of process `p` is `d`. -/
def HasDir (p : Pid) (d : Nat) (k : Machine) : Prop := (k.procs p).pagetable = d

theorem stable_hasDir : Stable (HasDir p d) := fun _ _ _ h => h

theorem pages_keepDir {c : Prop} (f : Process → Process) (hf : ∀ q, (f q).pagetable = q.pagetable) :
    Triple (Pages P [] fun k => HasDir p d k ∧ c) (modifyProc p f) fun _ =>
      Pages P [] fun k => HasDir p d k ∧ c := by
  refine pages_record fun k h => ⟨?_, h.2⟩
  have hd : (k.procs p).pagetable = d := h.1
  simp [HasDir, setProc, hf, hd]

theorem pages_recordRegion {c : Prop} {npages : Nat} :
    Triple (Pages P [] fun k => HasDir p d k ∧ c) (recordRegion p ph npages) fun _ =>
      Pages P [] fun k => HasDir p d k ∧ c := by
  refine .bindGet fun k1 => .mono ?_ (fun _ h => h.1) fun _ _ h => h
  cases freeRegion (k1.procs p).regions with
  | none => exact .fault
  | some j =>
      refine .bind (pages_keepDir _ fun _ => rfl) fun _ => ?_
      cases segmentType ph.flags with
      | none => exact .fault
      | some type => exact .bind (pages_keepDir _ fun _ => rfl) fun _ => pages_keepDir _ fun _ => rfl

theorem pages_elfAllocMb (hend : ph.vaddr + ph.memsz < 2 ^ 64) :
    Triple (Pages P [] fun k => HasDir p d k ∧ P.Own d) (elfAllocMb p ph.vaddr ph.memsz ph.flags)
      fun _ k => ∃ P1, Pages P1 [] (fun k => (HasDir p d k ∧ Allocated P P1 d
        (protToType (segmentProt ph.flags) true) (ph.vaddr / pgSize)
        (segmentPages ph.vaddr ph.memsz)) ∧ P1.Own d) k := by
  have hstart : roundDown ph.vaddr pgSize % pgSize = 0 := Nat.mul_mod_left _ _
  have hfirst : roundDown ph.vaddr pgSize / pgSize = ph.vaddr / pgSize :=
    Nat.mul_div_cancel _ (by decide)
  refine .bind (pages_elfAllocFrom hstart stable_hasDir (fun _ h => h) ?_) fun _ => .pure ?_
  · rw [Nat.zero_add]
    exact (segmentPages_end hend).1
  · rintro k ⟨P1, hk, halloc⟩
    rw [hfirst, Nat.add_zero] at halloc
    exact ⟨P1, hk.imp fun h => ⟨⟨h.1, halloc⟩, h.2⟩⟩

theorem pages_elfLoadSegment (hsize : f.size < 2 ^ 64) (hva : ph.vaddr < 2 ^ 64)
    (hmem : ph.memsz < 2 ^ 64) (hoff : ph.off < 2 ^ 64) :
    Triple (Pages P [] fun k => HasDir p d k ∧ P.Own d) (elfLoadSegment p f ph) fun st k =>
      ∃ P', Pages P' [] (fun k => HasDir p d k ∧ P'.Own d) k ∧
        (st = .ok → Adds P P' d (fun ph' => ph.type = elfProgLoad ∧ ph' = ph) ∧
          ((ph.type = elfProgLoad → EndsHigh ph) →
            Includes P P' d ∧ (ph.type = elfProgLoad → HasImage f ph P' d))) := by
  refine .ite (fun hother => .pure fun k hk => ?_) fun hload => ?_
  · exact ⟨P, hk, fun _ => ⟨.refl, fun _ => ⟨.refl P d, fun h => absurd h hother⟩⟩⟩
  refine .ite (fun _ => .pure fun k hk => ⟨P, hk, nofun⟩) fun hle => ?_
  refine .ite (fun _ => .pure fun k hk => ⟨P, hk, nofun⟩) fun hwrap => ?_
  have hend : ph.vaddr + ph.memsz < 2 ^ 64 := by omega
  refine .bind (pages_elfAllocMb hend) fun npages => .exists_ fun P1 => ?_
  refine .bind (pages_elfCopyFrom hsize (stable_hasDir.and _) (fun _ h => h.1) hoff) fun st =>
    .exists_ fun P' => ?_
  -- `Copied` holds if the copy has succeeded, and is kept beside the records
  have hsplit : ∀ k, (Pages P' [] (fun k => (HasDir p d k ∧ Allocated P P1 d
      (protToType (segmentProt ph.flags) true) (ph.vaddr / pgSize)
      (segmentPages ph.vaddr ph.memsz)) ∧ P'.Own d) k ∧ (st = .ok → Copied f ph 0 P1 P' d)) →
      Pages P' [] (fun k => HasDir p d k ∧ P'.Own d ∧ (st = .ok →
        Adds P P' d (fun ph' => ph.type = elfProgLoad ∧ ph' = ph) ∧
        (EndsHigh ph → Includes P P' d ∧ HasImage f ph P' d))) k := by
    rintro k ⟨hk, hcopy⟩
    refine hk.imp fun h => ⟨h.1.1, h.2, fun hst => ⟨⟨fun n e he => ?_, fun n e he => ?_⟩,
      fun hhigh => ?_⟩⟩
    · rw [(hcopy hst).entries]
      exact h.1.2.old n e he
    · rw [(hcopy hst).entries] at he
      exact (h.1.2.new n e he).imp_right fun hin => ⟨ph, ⟨not_not.mp hload, rfl⟩, hin⟩
    · exact image_of_copied hend hhigh (Nat.le_of_not_lt hle) h.1.2 (hcopy hst)
  refine Triple.mono ?_ hsplit fun _ _ h => h
  cases st with
  | ok =>
      refine .bind pages_recordRegion fun _ => .pure fun k hk => ?_
      obtain ⟨hold, himage⟩ := hk.2.2.2 rfl
      refine ⟨P', hk.imp fun h => ⟨h.1, h.2.1⟩, fun _ => ⟨hold, fun hhigh => ?_⟩⟩
      obtain ⟨hinc, himage⟩ := himage (hhigh (not_not.mp hload))
      exact ⟨hinc, fun _ => himage⟩
  | _ => exact .pure fun k hk => ⟨P', hk.imp fun h => ⟨h.1, h.2.1⟩, nofun⟩

theorem progHeader_lt (m : Mem) (a : Nat) : (progHeader m a).vaddr < 2 ^ 64 ∧
    (progHeader m a).memsz < 2 ^ 64 ∧ (progHeader m a).off < 2 ^ 64 :=
  ⟨load64_lt _ _, load64_lt _ _, load64_lt _ _⟩

/-- The loop of `elf_load` adds the images of the loadable headers. -/
theorem pages_elfLoadFrom (hsize : f.size < 2 ^ 64) : ∀ {m : Nat} {off : Int}
    {P : Paging}, Triple (Pages P [] fun k => HasDir p d k ∧ P.Own d) (elfLoadFrom p f m off)
      fun st k => ∃ P', Pages P' [] (fun k => HasDir p d k ∧ P'.Own d) k ∧
        (st = .ok → Adds P P' d (· ∈ loadableFrom f m off) ∧
          ((∀ ph ∈ loadableFrom f m off, EndsHigh ph) →
            Includes P P' d ∧ ∀ ph ∈ loadableFrom f m off, HasImage f ph P' d)) := by
  intro m
  induction m with
  | zero =>
      exact .pure fun k hk => ⟨_, hk, fun _ => ⟨.refl, fun _ =>
        ⟨.refl _ _, fun _ hph => by cases hph⟩⟩⟩
  | succ m ih =>
      intro off P
      obtain ⟨hva, hmem, hoff⟩ := progHeader_lt f.bytes (fileOffset off)
      rw [elfLoadFrom]
      refine .ite (fun _ => .pure fun k hk => ⟨P, hk, fun hst => by cases hst⟩) fun _ => ?_
      refine .bind (pages_elfLoadSegment hsize hva hmem hoff) fun st => .exists_ fun P1 => ?_
      cases st with
      | ok =>
          refine (ih.frame _).mono (fun _ h => h) fun st k => ?_
          rintro ⟨⟨P', hk, hrest⟩, hfirst⟩
          refine ⟨P', hk, fun hst => ⟨(hfirst rfl).1.trans (hrest hst).1 ?_ ?_, fun hhigh => ?_⟩⟩
          · rintro _ ⟨hload, rfl⟩
            simp only [loadableFrom, if_pos hload, List.mem_cons_self]
          · intro ph hph
            simp only [loadableFrom]
            split
            · exact List.mem_cons_of_mem _ hph
            · exact hph
          obtain ⟨-, hfirst⟩ := hfirst rfl
          obtain ⟨-, hrest⟩ := hrest hst
          -- the header that was read comes first if it is loadable
          by_cases hload : (progHeader f.bytes (fileOffset off)).type = elfProgLoad
          · simp only [loadableFrom, if_pos hload, List.forall_mem_cons] at hhigh ⊢
            obtain ⟨hinc, himage⟩ := hfirst fun _ => hhigh.1
            obtain ⟨hinc', himages⟩ := hrest hhigh.2
            exact ⟨hinc.trans hinc', (himage hload).mono hinc', himages⟩
          · simp only [loadableFrom, if_neg hload] at hhigh ⊢
            obtain ⟨hinc, -⟩ := hfirst fun h => absurd h hload
            obtain ⟨hinc', himages⟩ := hrest hhigh
            exact ⟨hinc.trans hinc', himages⟩
      | _ => exact .pure fun k hk => ⟨P1, hk.1, fun hst => by cases hst⟩

/-! ## The whole file -/

/-- Program header `i` of a file. -/
def header (f : HostFile) (i : Nat) : ProgHeader :=
  progHeader f.bytes ((elfHeader f.bytes).phoff + i * progHeaderSize)

theorem mem_loadableFrom : ∀ {m a : Nat},
    a + m * progHeaderSize < 2 ^ 31 → (ph ∈ loadableFrom f m a ↔
      ∃ i < m, ph = progHeader f.bytes (a + i * progHeaderSize) ∧ ph.type = elfProgLoad) := by
  intro m
  induction m with
  | zero => simp [loadableFrom]
  | succ m ih =>
      intro a hlt
      unfold progHeaderSize at hlt
      have hoff : fileOffset a = a := by
        unfold fileOffset
        omega
      have hnext : wrap32 ((a : Int) + progHeaderSize) = ((a + progHeaderSize : Nat) : Int) :=
        wrap32_of_isInt32 (by unfold IsInt32 progHeaderSize; omega)
      have hrest := ih (a := a + progHeaderSize) (by unfold progHeaderSize; omega)
      have hsucc : ∀ i, a + (i + 1) * progHeaderSize = a + progHeaderSize + i * progHeaderSize := by
        intro i
        rw [Nat.add_mul, Nat.one_mul]
        omega
      rw [loadableFrom, hoff, hnext]
      -- the first header, or one of the others
      have hsplit : (∃ i < m + 1, ph = progHeader f.bytes (a + i * progHeaderSize) ∧
          ph.type = elfProgLoad) ↔ (ph = progHeader f.bytes a ∧ ph.type = elfProgLoad) ∨
          ∃ i < m, ph = progHeader f.bytes (a + progHeaderSize + i * progHeaderSize) ∧
            ph.type = elfProgLoad := by
        constructor
        · rintro ⟨i, hi, hph⟩
          cases i with
          | zero => exact .inl (by simpa using hph)
          | succ i =>
              rw [hsucc] at hph
              exact .inr ⟨i, by omega, hph⟩
        · rintro (hph | ⟨i, hi, hph⟩)
          · exact ⟨0, by omega, by simpa using hph⟩
          · refine ⟨i + 1, by omega, ?_⟩
            rw [hsucc]
            exact hph
      rw [hsplit, ← hrest]
      split
      · rename_i hload
        rw [List.mem_cons]
        refine or_congr_left ⟨fun h => ⟨h, h ▸ hload⟩, fun h => h.1⟩
      · rename_i hload
        refine ⟨.inr, fun h => h.resolve_left ?_⟩
        rintro ⟨rfl, h⟩
        exact hload h

/-- The image of a process is what the file describes, and the rest is as it was. -/
structure LoadedExactly (p : Pid) (f : HostFile) (k k' : Machine) : Prop where
  image : ∀ i < (elfHeader f.bytes).phnum, (header f i).type = elfProgLoad →
    ∀ j < (header f i).memsz, (header f i).vaddr + j < maxVA ∧
      ∃ e, entry k'.phys.mem (k.procs p).pagetable ((header f i).vaddr + j) = some e ∧
        pteFlags e = protToType (segmentProt (header f i).flags) true ||| pteV ∧
        k'.phys.mem (pte2pa e + ((header f i).vaddr + j) % pgSize) =
          if j < (header f i).filesz then f.bytes ((header f i).off + j) else 0
  kept : ∀ v < maxVA, ∀ e, entry k.phys.mem (k.procs p).pagetable v = some e →
    entry k'.phys.mem (k.procs p).pagetable v = some e ∧
      k'.phys.mem (pte2pa e + v % pgSize) = k.phys.mem (pte2pa e + v % pgSize)

theorem forall_loadable {Q : ProgHeader → Prop}
    (hph : (elfHeader f.bytes).phoff + (elfHeader f.bytes).phnum * progHeaderSize < 2 ^ 31) :
    (∀ ph ∈ loadable f, Q ph) ↔
      ∀ i < (elfHeader f.bytes).phnum, (header f i).type = elfProgLoad → Q (header f i) := by
  have hoff : wrap32 ((elfHeader f.bytes).phoff : Int) = ((elfHeader f.bytes).phoff : Int) :=
    wrap32_of_isInt32 (by unfold IsInt32; omega)
  simp only [loadable, hoff, mem_loadableFrom hph]
  constructor
  · exact fun h i hi hload => h _ ⟨i, hi, rfl, hload⟩
  · rintro h ph ⟨i, hi, rfl, hload⟩
    exact h i hi hload

/-- What `elf_load` has made of memory. -/
theorem loadedExactly_of_images {k' : Machine} {l' hs : List Nat} (hdir : (k.procs p).pagetable = d)
    (h : k.phys.Refines l P hs) (hown : P.Own d) (h' : k'.phys.Refines l' P' hs) (hown' : P'.Own d)
    (hinc : Includes P P' d)
    (himage : ∀ i < (elfHeader f.bytes).phnum, (header f i).type = elfProgLoad →
      HasImage f (header f i) P' d) : LoadedExactly p f k k' := by
  subst hdir
  refine ⟨fun i hi hload j hj => ?_, fun v hv e he => ?_⟩
  · obtain ⟨hlt, hbyte⟩ := himage i hi hload j hj
    rw [Paging.byte_eq h' hown' hlt, Option.map_eq_some_iff] at hbyte
    obtain ⟨e, he, hx⟩ := hbyte
    simp only [Prod.mk.injEq] at hx
    exact ⟨hlt, e, he, hx.1, hx.2⟩
  · have hent := h.entry _ hown.dir v hv
    have hnew := h'.entry _ hown'.dir v hv
    have hkept := hinc.entry _ e (hent.symm.trans he)
    have hbyte := Paging.byte_eq h hown hv
    rw [he, Option.map_some] at hbyte
    have hbyte' := hinc.byte v _ hbyte
    rw [Paging.byte_eq h' hown' hv, hnew, hkept, Option.map_some] at hbyte'
    simp only [Option.some.injEq, Prod.mk.injEq, true_and] at hbyte'
    exact ⟨hnew.trans hkept, hbyte'⟩

/-- A machine that has free pages, none of which is the page of the trap section. -/
structure CanSpawn (k : Machine) (l : List Nat) : Prop where
  pool : k.phys.Pool l
  page : k.trapSecStart % pgSize = 0
  lt : k.trapSecStart < 2 ^ 64
  notFree : k.trapSecStart ∉ l

/-- The stack and the trap section are mapped for process `p`. -/
structure HasStart (P : Paging) (d trap : Nat) : Prop where
  own : P.Own d
  stack : ∃ us, us % pgSize = 0 ∧ us < 2 ^ 64 ∧ P.entries d stackPage = some (stackPte us)
  trap : P.entries d (trap / pgSize) = some (trapPte trap)

theorem leafPte_rights (pa : Nat) {perm : Nat} (h : perm < 1024) :
    Phys.leafPte pa perm &&& pteR = perm &&& pteR ∧ Phys.leafPte pa perm &&& pteW = perm &&& pteW ∧
      Phys.leafPte pa perm &&& pteX = perm &&& pteX ∧ Phys.leafPte pa perm &&& pteU = perm &&& pteU :=
  ⟨Phys.leafPte_bit (i := 1) h (by decide) (by decide),
    Phys.leafPte_bit (i := 2) h (by decide) (by decide),
    Phys.leafPte_bit (i := 3) h (by decide) (by decide),
    Phys.leafPte_bit (i := 4) h (by decide) (by decide)⟩

theorem framePte_user (tf : Nat) : framePte tf &&& pteU = 0 := by
  rw [framePte, (leafPte_rights _ (Phys.protToType_lt protRW false)).2.2.2]
  decide

theorem trapPte_user (trap : Nat) : trapPte trap &&& pteU = 0 := by
  rw [trapPte, (leafPte_rights _ (Phys.protToType_lt protRX false)).2.2.2]
  decide

/-- The pages that the program can use are its stack and those of its segments. -/
def UserPages (f : HostFile) (P : Paging) (d : Nat) : Prop :=
  ∀ n e, P.entries d n = some e → e &&& pteU ≠ 0 → n = stackPage ∨ ∃ ph ∈ loadable f, InSegment ph n

/-- Memory after `alloc_process`, with the image of the new process. -/
theorem CanSpawn.image {k0 : Machine} (h : CanSpawn k0 l) (hnew : allocProcess k0 = .ok (p, k))
    (hoom : k.oom = false) :
    ∃ P l', k.phys.Refines l' P [] ∧ HasStart P (k.procs p).pagetable k0.trapSecStart ∧
      ∀ n e, P.entries (k.procs p).pagetable n = some e → e &&& pteU ≠ 0 → n = stackPage := by
  have hstart : Pages _ [] (· = k0) k0 := ⟨⟨l, h.pool.refines h.page h.notFree⟩, rfl⟩
  obtain ⟨pt, us, tf, ks, mi, pfiles, stack, frame, ⟨l', hrefines⟩, hrec, hspawned⟩ :=
    ((pages_allocProcess h.page h.lt).of_ok hnew hoom).2 hstart
  have hplaces := hspawned.places
  simp only [List.nodup_cons, List.mem_cons, List.not_mem_nil, or_false, not_or] at hplaces
  refine ⟨_, l', hrefines.forget rfl, ?_⟩
  rw [hrec.self]
  refine ⟨⟨Paging.spawn_own hspawned rfl h.page h.lt,
    ⟨us, hspawned.stack.page, hspawned.stack.lt, ?_⟩, ?_⟩, fun n e he hU => ?_⟩
  · show (Paging.spawn _ _ _ _ _ _ _).entries pt stackPage = _
    rw [Paging.spawn_entries, if_neg hplaces.1.2, if_neg hplaces.1.1, if_pos rfl]
  · show (Paging.spawn _ _ _ _ _ _ _).entries pt _ = _
    rw [Paging.spawn_entries, if_pos rfl]
  · change (Paging.spawn _ _ _ _ _ _ _).entries pt n = _ at he
    rw [Paging.spawn_entries] at he
    split at he
    · cases he
      exact absurd (trapPte_user _) hU
    · split at he
      · cases he
        exact absurd (framePte_user _) hU
      · split at he
        · assumption
        · cases he

/-- Memory before and after `elf_load` of a new process. -/
theorem CanSpawn.load {k0 k' : Machine} (h : CanSpawn k0 l) (hnew : allocProcess k0 = .ok (p, k))
    (hsize : f.size < 2 ^ 64) (hload : elfLoad p f k = .ok (.ok, k')) (hoom : k'.oom = false) :
    ∃ P l1 P' l2, k.phys.Refines l1 P [] ∧ P.Own (k.procs p).pagetable ∧ k'.phys.Refines l2 P' [] ∧
      HasStart P' (k.procs p).pagetable k0.trapSecStart ∧ UserPages f P' (k.procs p).pagetable ∧
      (k'.procs p).pagetable = (k.procs p).pagetable ∧
      ((∀ ph ∈ loadable f, EndsHigh ph) → Includes P P' (k.procs p).pagetable ∧
        ∀ ph ∈ loadable f, HasImage f ph P' (k.procs p).pagetable) := by
  have hrun : ∀ P : Paging, k.oom = false ∧ (Pages P [] (fun k1 => HasDir p (k.procs p).pagetable k1 ∧
      P.Own (k.procs p).pagetable) k → _) :=
    fun P => (pages_elfLoadFrom hsize).of_ok hload hoom
  obtain ⟨P0⟩ := (inferInstance : Nonempty Paging)
  obtain ⟨P, l1, hrefines, ⟨hown, ⟨us, hus, hus64, hstack⟩, htrap⟩, honly⟩ :=
    h.image hnew (hrun P0).1
  obtain ⟨P', ⟨⟨l2, hrefines'⟩, hdir, hown'⟩, hloaded⟩ := (hrun P).2 ⟨⟨l1, hrefines⟩, rfl, hown⟩
  obtain ⟨hadds, himages⟩ := hloaded rfl
  refine ⟨P, l1, P', l2, hrefines, hown, hrefines', ⟨hown', ⟨us, hus, hus64, hadds.old _ _ hstack⟩,
    hadds.old _ _ htrap⟩, fun n e he hU => ?_, hdir, himages⟩
  exact (hadds.new n e he).imp_left fun hold => honly n e hold hU

/-- `elf_load` returns, and has built what the file describes. -/
def LoadsExactly (p : Pid) (f : HostFile) (k : Machine) : Prop :=
  ∃ k', elfLoad p f k = .ok (.ok, k') ∧ LoadedExactly p f k k'

/-- `elf_load` builds what the file describes unless it leaves `mapped_info`, or the end of a
segment, rounded up, is taken for its beginning. -/
theorem elf_load_exact_iff {k0 k : Machine} {l : List Nat} {f : HostFile} (hk0 : CanSpawn k0 l)
    (htrap : k0.trapSecStart ≠ 0) (hnew : allocProcess k0 = .ok (p, k)) (hsize : f.size < 2 ^ 64)
    (hph : (elfHeader f.bytes).phoff + (elfHeader f.bytes).phnum * progHeaderSize < 2 ^ 31)
    (hloads : LoadsAll p f k) (hoom : ∀ k', elfLoad p f k = .ok (.ok, k') → k'.oom = false) :
    LoadsExactly p f k ↔ RoomFor f ∧ ∀ i < (elfHeader f.bytes).phnum,
      (header f i).type = elfProgLoad → EndsHigh (header f i) := by
  rw [← loads_iff_room htrap hnew hloads]
  constructor
  · rintro ⟨k', hload, hexact⟩
    refine ⟨⟨k', hload⟩, fun i hi htype hlow => ?_⟩
    by_contra hwrap
    have himage := hexact.image i hi htype (2 ^ 38) (by unfold pgSize at *; omega)
    have hlt := himage.1
    unfold maxVA at hlt
    omega
  · rintro ⟨⟨k', hload⟩, hhigh⟩
    obtain ⟨P, l1, P', l2, hrefines, hown, hrefines', hstart, -, -, himages⟩ :=
      hk0.load hnew hsize hload (hoom k' hload)
    obtain ⟨hinc, himages⟩ := himages ((forall_loadable hph).mpr hhigh)
    exact ⟨k', hload, loadedExactly_of_images rfl hrefines hown hrefines' hstart.own hinc
      ((forall_loadable (Q := fun ph => HasImage f ph P' _) hph).mp himages)⟩

/-- The page a page of the free list of `smallPhys` leads to. -/
theorem load64_smallPhys {j : Nat} (hj : j < 2 ^ 32) :
    load64 (smallPhys n).mem (kernBase + pgSize + j * pgSize) =
      if j = 0 then 0 else kernBase + j * pgSize := by
  have hin : ∀ i < 8, (kernBase + pgSize + j * pgSize + i) % pgSize = i ∧
      roundDown (kernBase + pgSize + j * pgSize + i) pgSize = kernBase + pgSize + j * pgSize := by
    intro i hi
    unfold roundDown kernBase pgSize
    omega
  rcases Nat.eq_zero_or_pos j with rfl | hpos
  · rw [if_pos rfl, load64, leNat_congr (g := fun _ => 0) fun i hi => ?_, leNat_zero]
    have hdown : roundDown (kernBase + pgSize + 0 * pgSize + i) pgSize = kernBase + pgSize :=
      (hin i hi).2.trans (by rw [Nat.zero_mul, Nat.add_zero])
    exact if_neg fun h => h.2 hdown
  · rw [if_neg hpos.ne', load64, leNat_congr (g := natByte (kernBase + j * pgSize)) fun i hi => ?_,
      leNat_natByte]
    · unfold kernBase pgSize
      omega
    · obtain ⟨hmod, hdown⟩ := hin i hi
      have hne : kernBase + pgSize + j * pgSize ≠ kernBase + pgSize := by
        unfold pgSize
        omega
      refine (if_pos ⟨hmod.trans_lt hi, hdown.trans_ne hne⟩).trans ?_
      rw [hmod, hdown, Nat.add_right_comm, Nat.add_sub_cancel]

/-- Its free list. The induction is on the pages below the first one. -/
theorem smallPhys_linked {n : Nat} : ∀ {j : Nat}, j < 2 ^ 32 →
    Linked (Phys.nextPage (smallPhys n).mem) (some (kernBase + pgSize + j * pgSize))
      (Phys.pagesFrom (kernBase + pgSize) (j + 1))
  | 0, hj => ⟨rfl, by rw [Phys.nextPage_eq, load64_smallPhys hj]; rfl⟩
  | j + 1, hj => by
      have hnext : Phys.nextPage (smallPhys n).mem (kernBase + pgSize + (j + 1) * pgSize) =
          some (kernBase + pgSize + j * pgSize) := by
        have hne : kernBase + (j + 1) * pgSize ≠ 0 := by
          unfold kernBase
          omega
        rw [Phys.nextPage_eq, load64_smallPhys hj, if_neg (Nat.succ_ne_zero j), Phys.ptr?_of_ne hne,
          Nat.succ_mul]
        congr 1
        omega
      refine ⟨rfl, ?_⟩
      rw [hnext]
      exact smallPhys_linked (Nat.lt_of_succ_lt hj)

theorem smallMachine_canSpawn (hpos : 0 < n) (hn : n < 2 ^ 32) :
    CanSpawn (smallMachine n) (Phys.pagesFrom (kernBase + pgSize) n) := by
  have hlist : Linked (Phys.nextPage (smallPhys n).mem) (Phys.ptr? (smallPhys n).gFreeMemList)
      (Phys.pagesFrom (kernBase + pgSize) n) := by
    obtain ⟨j, rfl⟩ : ∃ j, n = j + 1 := ⟨n - 1, by omega⟩
    have hhead : (smallPhys (j + 1)).gFreeMemList = kernBase + pgSize + j * pgSize := by
      show kernBase + (j + 1) * pgSize = _
      rw [Nat.succ_mul]
      omega
    rw [hhead, Phys.ptr?_of_ne (by unfold kernBase; omega)]
    exact smallPhys_linked (by omega)
  refine ⟨⟨hlist, fun p hp => ?_, show 0 < kernBase + pgSize by decide, ?_⟩,
    show kernBase % pgSize = 0 by decide, show kernBase < 2 ^ 64 by decide, ?_⟩
  · obtain ⟨j, hj, rfl⟩ := Phys.mem_pagesFrom.mp hp
    show (kernBase + pgSize + j * pgSize) % pgSize = 0 ∧
      kernBase + pgSize ≤ kernBase + pgSize + j * pgSize ∧
      kernBase + pgSize + j * pgSize < kernBase + (n + 1) * pgSize
    unfold kernBase pgSize
    omega
  · show kernBase + (n + 1) * pgSize ≤ 2 ^ 64
    unfold kernBase pgSize
    omega
  · intro hmem
    obtain ⟨j, -, heq⟩ := Phys.mem_pagesFrom.mp hmem
    have heq : kernBase = kernBase + pgSize + j * pgSize := heq
    unfold kernBase pgSize at heq
    omega

theorem canSpawn_twenty : CanSpawn (smallMachine 20) (Phys.pagesFrom (kernBase + pgSize) 20) :=
  smallMachine_canSpawn (by decide) (by decide)

/-- A program whose bytes begin in the middle of a page and end in the next one. -/
def textFile : HostFile := headerFile [⟨elfProgLoad, 5, 0, 65546, 64, pgSize⟩]

theorem elf_load_exact_iff_text : ∃ k0 l p k, CanSpawn k0 l ∧ k0.trapSecStart ≠ 0 ∧
    allocProcess k0 = .ok (p, k) ∧ LoadsAll p textFile k ∧ LoadsExactly p textFile k := by
  have hrun : valueOf (loadNew (fun _ k => k.oom) textFile) (smallMachine 20) =
      some (.ok, false) := by decide +kernel
  obtain ⟨p, k, k', hnew, hload, hoom⟩ := loadNew_run hrun
  have hnum : (elfHeader textFile.bytes).phnum = 1 := by decide
  refine ⟨_, _, p, k, canSpawn_twenty, by decide, hnew, .inl ⟨k', hload⟩, ?_⟩
  refine (elf_load_exact_iff canSpawn_twenty (by decide) hnew (by decide) (by decide)
    (.inl ⟨k', hload⟩) fun k2 hload2 => ?_).mpr ⟨by decide, fun i hi => ?_⟩
  · rw [hload] at hload2
    obtain rfl : k' = k2 := by simpa using hload2
    exact hoom
  · rw [hnum] at hi
    obtain rfl : i = 0 := by omega
    exact fun _ => by decide

/-- A segment of all the memory there can be. -/
def hugeFile : HostFile := headerFile [⟨elfProgLoad, 5, 0, 0, 0, 2 ^ 64 - 1⟩]

/-- The segment takes no page, and `elf_load` returns `EL_OK`. -/
theorem elf_load_maps_nothing : ∃ k0 l p k k', CanSpawn k0 l ∧ allocProcess k0 = .ok (p, k) ∧
    (elfHeader hugeFile.bytes).phoff + (elfHeader hugeFile.bytes).phnum * progHeaderSize < 2 ^ 31 ∧
    elfLoad p hugeFile k = .ok (.ok, k') ∧ k'.oom = false ∧
    (k'.procs p).regions 4 = ⟨0, 0, .code⟩ ∧ ¬LoadsExactly p hugeFile k := by
  have hrun : valueOf (loadNew (fun p k => (k.oom, (k.procs p).regions 4)) hugeFile)
      (smallMachine 20) = some (.ok, false, ⟨0, 0, .code⟩) := by decide +kernel
  obtain ⟨p, k, k', hnew, hload, hseen⟩ := loadNew_run hrun
  obtain ⟨hoom, hregion⟩ := Prod.mk.inj hseen
  refine ⟨_, _, p, k, k', canSpawn_twenty, hnew, by decide, hload, hoom, hregion, ?_⟩
  rintro ⟨k2, hload2, hexact⟩
  have himage := hexact.image 0 (by decide) (by decide) (2 ^ 38) (by decide)
  exact absurd himage.1 (by decide)

end Machine

end Pke
