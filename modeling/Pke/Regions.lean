import Pke.Records
import Pke.Elf

/-!
# The regions of a loaded program

`elf_load` keeps two things in step only if the file lets it: the number
of regions, which it counts, and the entries of `mapped_info`, where it
takes the first whose address is `0`. An entry whose own address is `0`
is taken again by the next segment, so that only the others and the last one
are left (`kept`); and when 252 have another address, no entry is free
(`loads_iff_room`).
-/

namespace Pke

variable {rs : List MappedRegion} {r : MappedRegion} {j : Fin 256} {f : HostFile}

namespace Machine

open Exec (Post get modify)

/-! ## The program headers that are read -/

/-- The loadable headers among `n` headers from offset `off` on. -/
def loadableFrom (f : HostFile) : Nat → Int → List ProgHeader
  | 0, _ => []
  | n + 1, off =>
      let ph := progHeader f.bytes (fileOffset off)
      let rest := loadableFrom f n (wrap32 (off + progHeaderSize))
      if ph.type = elfProgLoad then ph :: rest else rest

/-- The loadable headers of a file. -/
def loadable (f : HostFile) : List ProgHeader :=
  loadableFrom f (elfHeader f.bytes).phnum (wrap32 (elfHeader f.bytes).phoff)

/-- The region a header asks for. -/
def regionOf (ph : ProgHeader) : MappedRegion :=
  ⟨ph.vaddr, segmentPages ph.vaddr ph.memsz, (segmentType ph.flags).getD .stack⟩

/-! ## The entries of `mapped_info` -/

def Used (r : MappedRegion) : Prop := r.va ≠ 0

instance (r : MappedRegion) : Decidable (Used r) := by unfold Used; infer_instance

/-- The entries when `rs` has been recorded after the first four. -/
def entries (base : Fin 256 → MappedRegion) (rs : List MappedRegion) : Fin 256 → MappedRegion :=
  fun j => if j.val < 4 then base j else rs.getD (j - 4) .zero

/-- The regions whose entries are not taken again. -/
def used (rs : List MappedRegion) : List MappedRegion := rs.filter fun r => decide (Used r)

/-- The entries after the regions `rs`: each takes the first place that is not in use. -/
def kept (rs : List MappedRegion) : List MappedRegion := used rs.dropLast ++ rs.getLast?.toList

theorem kept_concat (rs : List MappedRegion) (r : MappedRegion) : kept (rs ++ [r]) = used rs ++ [r] := by
  simp [kept]

/-- Those in use, and perhaps one that is not. -/
theorem kept_split (rs : List MappedRegion) : ∃ rest, kept rs = used rs ++ rest ∧
    rest.length ≤ 1 ∧ ∀ r ∈ rest, ¬Used r := by
  rcases List.eq_nil_or_concat rs with rfl | ⟨init, z, rfl⟩
  · exact ⟨[], rfl, by simp, nofun⟩
  · rw [List.concat_eq_append, kept_concat, used, used, List.filter_append]
    by_cases hz : Used z
    · exact ⟨[], by simp [hz], by simp, nofun⟩
    · exact ⟨[z], by simp [hz], by simp, by simpa using hz⟩

/-- Regions are recorded in order if only the last can have the address `0`. -/
theorem kept_of_used (h : ∀ r ∈ rs.dropLast, Used r) : kept rs = rs := by
  rw [kept, used, List.filter_eq_self.mpr fun r hr => decide_eq_true (h r hr)]
  rcases List.eq_nil_or_concat rs with rfl | ⟨init, z, rfl⟩
  · rfl
  · simp

/-- Otherwise a region is lost. -/
theorem used_of_kept (h : rs.length ≤ (kept rs).length) : ∀ r ∈ rs.dropLast, Used r := by
  rcases List.eq_nil_or_concat rs with rfl | ⟨init, z, rfl⟩
  · exact nofun
  · rw [List.concat_eq_append, kept_concat, List.length_append, List.length_append,
      List.length_singleton] at h
    have hlen : (used init).length = init.length :=
      Nat.le_antisymm (List.length_filter_le ..) (by omega)
    rw [List.concat_eq_append, List.dropLast_concat]
    exact fun r hr => of_decide_eq_true (List.length_filter_eq_length_iff.mp hlen r hr)

section

variable {base : Fin 256 → MappedRegion} {rs : List MappedRegion}

theorem entries_low (hj : j.val < 4) : entries base rs j = base j := if_pos hj

theorem entries_get {i : Nat} (hi : 4 + i < 256) (hr : rs[i]? = some r) :
    entries base rs ⟨4 + i, hi⟩ = r := by
  simp [entries, List.getD, hr]

theorem entries_rest (hj : 4 + rs.length ≤ j.val) : entries base rs j = .zero := by
  have hlen : rs.length ≤ j.val - 4 := by omega
  rw [entries, if_neg (by omega), List.getD_eq_default _ _ hlen]

section

variable {us rest : List MappedRegion}

theorem entries_used (hbase : ∀ j : Fin 256, j.val < 4 → Used (base j)) (hused : ∀ r ∈ us, Used r)
    (hj : j.val < 4 + us.length) : Used (entries base (us ++ rest) j) := by
  by_cases hlow : j.val < 4
  · rw [entries_low hlow]
    exact hbase j hlow
  · have hi : j.val - 4 < us.length := by omega
    have hget : entries base (us ++ rest) j = us.get ⟨j.val - 4, hi⟩ := by
      simp [entries, hlow, List.getD, List.getElem?_append_left hi, hi]
    rw [hget]
    exact hused _ (List.get_mem us _)

theorem entries_unused (hrest : ∀ r ∈ rest, ¬Used r) (hj : 4 + us.length ≤ j.val) :
    ¬Used (entries base (us ++ rest) j) := by
  have hget : entries base (us ++ rest) j = rest.getD (j.val - 4 - us.length) .zero := by
    rw [entries, if_neg (by omega), List.getD_append_right _ _ _ _ (by omega)]
  rw [hget, List.getD]
  cases hr : rest[j.val - 4 - us.length]? with
  | none => simp [Used, MappedRegion.zero]
  | some r => exact hrest r (List.mem_of_getElem? hr)

/-- The first entry that is not in use. -/
theorem freeRegion_entries (hbase : ∀ j : Fin 256, j.val < 4 → Used (base j))
    (hused : ∀ r ∈ us, Used r) (hrest : ∀ r ∈ rest, ¬Used r) (hj : 4 + us.length < 256) :
    freeRegion (entries base (us ++ rest)) = some ⟨_, hj⟩ := by
  refine List.find?_eq_some_iff_getElem.mpr ⟨?_, _, by simpa using hj, by simp, fun i hi => ?_⟩
  · have hfree : ¬Used (entries base (us ++ rest) ⟨_, hj⟩) := entries_unused hrest (Nat.le_refl _)
    simpa [Used] using hfree
  · have hin : Used (entries base (us ++ rest) ⟨i, by omega⟩) := entries_used hbase hused hi
    simpa [Used] using hin

/-- There is none when 252 are in use. -/
theorem room_of_freeRegion (hbase : ∀ j : Fin 256, j.val < 4 → Used (base j))
    (hused : ∀ r ∈ us, Used r) (h : freeRegion (entries base (us ++ rest)) = some j) :
    4 + us.length < 256 := by
  by_contra hfull
  have hj := List.find?_some h
  have hin : Used (entries base (us ++ rest) j) := entries_used hbase hused (by omega)
  exact hin (by simpa using hj)

theorem entries_upd (hlen : rest.length ≤ 1) (hj : 4 + us.length < 256) (r : MappedRegion) :
    upd (entries base (us ++ rest)) ⟨_, hj⟩ r = entries base (us ++ [r]) := by
  funext j
  by_cases hlow : j.val < 4
  · have hne : j ≠ ⟨4 + us.length, hj⟩ := fun h => by rw [h] at hlow; simp at hlow
    rw [upd_ne hne, entries_low hlow, entries_low hlow]
  · rcases Nat.lt_trichotomy j.val (4 + us.length) with hlt | heq | hgt
    · have hne : j ≠ ⟨4 + us.length, hj⟩ := fun h => by rw [h] at hlt; simp at hlt
      have hi : j.val - 4 < us.length := by omega
      simp [upd_ne hne, entries, hlow, List.getD, List.getElem?_append_left hi]
    · have hj' : j = ⟨4 + us.length, hj⟩ := Fin.ext heq
      simp [hj', entries, List.getD]
    · have hne : j ≠ ⟨4 + us.length, hj⟩ := fun h => by rw [h] at hgt; simp at hgt
      rw [upd_ne hne, entries_rest, entries_rest] <;>
        simp only [List.length_append, List.length_singleton] <;> omega

end

end

/-! ## Loading -/

/-- What the record of process `p` says after the regions `rs`. -/
structure Recorded (base : Fin 256 → MappedRegion) (k : Machine) (p : Pid)
    (rs : List MappedRegion) : Prop where
  regions : (k.procs p).regions = entries base (kept rs)
  total : (k.procs p).totalMappedRegion = 4 + rs.length
  fits : (kept rs).length ≤ 252

section

variable {base : Fin 256 → MappedRegion} {k k' : Machine} {p : Pid} {rs : List MappedRegion}

theorem Recorded.same (h : Recorded base k p rs) (hs : SameRec k k') : Recorded base k' p rs := by
  refine ⟨?_, ?_, h.fits⟩
  · rw [hs.procs, h.regions]
  · rw [hs.procs, h.total]

theorem elfAllocMb_rec {va size flags : Nat} : Post (elfAllocMb p va size flags) k
    (fun npages k' => npages = segmentPages va size ∧ SameRec k k') NoUb :=
  .bind (Exec.Along.elfAllocFrom (R := SameRec) k) fun _ _ h => .pure ⟨rfl, h⟩

/-- A region is recorded, unless all the entries are in use. -/
theorem recordRegion_post (hbase : ∀ j : Fin 256, j.val < 4 → Used (base j))
    (h : Recorded base k p rs) {ph : ProgHeader} :
    Post (recordRegion p ph (segmentPages ph.vaddr ph.memsz)) k
      (fun _ k' => Recorded base k' p (rs ++ [regionOf ph]) ∧ (segmentType ph.flags).isSome)
      (fun e => NoUb e ∨ 252 ≤ (used rs).length) := by
  obtain ⟨rest, hrs, hlen, hrest⟩ := kept_split rs
  have hused : ∀ r ∈ used rs, Used r := fun r hr => of_decide_eq_true (List.mem_filter.mp hr).2
  refine .bindGet ?_
  rw [h.regions, hrs]
  cases hfree : freeRegion (entries base (used rs ++ rest)) with
  | none =>
      refine .fault (.inr ?_)
      by_contra hroom
      rw [freeRegion_entries hbase hused hrest (by omega)] at hfree
      cases hfree
  | some j =>
      have hj := room_of_freeRegion hbase hused hfree
      rw [freeRegion_entries hbase hused hrest hj] at hfree
      obtain rfl := Option.some.inj hfree
      refine .bindModify ?_
      cases htype : segmentType ph.flags with
      | none => exact .fault (.inl noUb_panic)
      | some type =>
          refine .bindModify (.modify ⟨⟨?_, ?_, ?_⟩, rfl⟩)
          · simp only [setProc, setRegion, upd_self, upd_upd, h.regions]
            rw [kept_concat, hrs, entries_upd hlen hj, regionOf, htype, Option.getD_some]
          · simp only [setProc, setRegion, upd_self, h.total, List.length_append,
              List.length_singleton]
            omega
          · rw [kept_concat, List.length_append, List.length_singleton]
            omega

theorem elfLoadSegment_post (hbase : ∀ j : Fin 256, j.val < 4 → Used (base j)) {ph : ProgHeader}
    (hload : ph.type = elfProgLoad) (h : Recorded base k p rs) : Post (elfLoadSegment p f ph) k
      (fun st k' => st = .ok → Recorded base k' p (rs ++ [regionOf ph]) ∧
        (segmentType ph.flags).isSome)
      (fun e => NoUb e ∨ 252 ≤ (used rs).length) := by
  refine .ite (fun hne => absurd hload hne) fun _ => ?_
  refine .ite (fun _ => .pure nofun) fun _ => .ite (fun _ => .pure nofun) fun _ => ?_
  refine .bind (elfAllocMb_rec.monoFault fun _ he => .inl he) fun npages k1 ⟨hnp, h1⟩ => ?_
  have hcopy : OffRecord (elfCopyFrom p f ph (ph.filesz / pgSize + 2) 0) := .elfCopy
  refine .bind ((hcopy k1).monoFault fun _ he => .inl he) fun st k2 h2 => ?_
  cases st with
  | ok =>
      rw [hnp]
      exact .bind (recordRegion_post hbase (h.same (h1.trans h2))) fun _ k3 h3 => .pure fun _ => h3
  | _ => exact .pure nofun

/-- The loop of `elf_load` records the regions of the loadable headers one after the other. -/
theorem elfLoadFrom_post (hbase : ∀ j : Fin 256, j.val < 4 → Used (base j)) :
    ∀ {m : Nat} {off : Int} {k : Machine} {rs : List MappedRegion},
    Recorded base k p rs → Post (elfLoadFrom p f m off) k
      (fun st k' => st = .ok →
        Recorded base k' p (rs ++ (loadableFrom f m off).map regionOf) ∧
        ∀ ph ∈ loadableFrom f m off, (segmentType ph.flags).isSome)
      (fun e => NoUb e ∨
        252 ≤ (used (rs ++ (loadableFrom f m off).map regionOf).dropLast).length) := by
  intro m
  induction m with
  | zero =>
      intro off k rs h
      rw [loadableFrom, List.map_nil, List.append_nil]
      exact .pure fun _ => ⟨h, fun _ hmem => absurd hmem List.not_mem_nil⟩
  | succ m ih =>
      intro off k rs h
      rw [elfLoadFrom]
      refine .ite (fun _ => .pure fun hst => by cases hst) fun _ => ?_
      by_cases hload : (progHeader f.bytes (fileOffset off)).type = elfProgLoad
      · -- the region of this header first, then those of the others
        simp only [loadableFrom, if_pos hload, List.map_cons]
        refine .bind ((elfLoadSegment_post hbase hload h).monoFault fun _ he => ?_) fun st k1 h1 => ?_
        · refine he.imp id fun hfull => ?_
          rw [List.dropLast_append_cons, used, List.filter_append, List.length_append]
          exact Nat.le_add_right_of_le hfull
        cases st with
        | ok =>
            obtain ⟨h1, htype⟩ := h1 rfl
            have hrest : Post (elfLoadFrom p f m (wrap32 (off + progHeaderSize))) k1 _ _ := ih h1
            rw [List.append_assoc, List.singleton_append] at hrest
            refine hrest.mono fun st k2 h2 hst => ?_
            exact ⟨(h2 hst).1, List.forall_mem_cons.mpr ⟨htype, (h2 hst).2⟩⟩
        | _ => exact .pure fun hst => by cases hst
      · simp only [loadableFrom, if_neg hload]
        rw [elfLoadSegment, if_pos hload]
        exact ih h

end

/-- `elf_load` returns, with the regions of the loadable headers recorded in order after the
four regions there were. -/
def MappedExactly (p : Pid) (f : HostFile) (k : Machine) : Prop :=
  ∃ k', elfLoad p f k = .ok (.ok, k') ∧
    (k'.procs p).totalMappedRegion = 4 + (loadable f).length ∧
    (k'.procs p).totalMappedRegion ≤ 256 ∧
    (∀ j : Fin 256, j.val < 4 → (k'.procs p).regions j = (k.procs p).regions j) ∧
    ∀ i ph, (loadable f)[i]? = some ph → ∀ hi : 4 + i < 256,
      ∃ type, segmentType ph.flags = some type ∧
        (k'.procs p).regions ⟨4 + i, hi⟩ = ⟨ph.vaddr, segmentPages ph.vaddr ph.memsz, type⟩

/-- `elf_load` returns `EL_OK`, or goes on with an entry that is not in `mapped_info`. -/
def LoadsAll (p : Pid) (f : HostFile) (k : Machine) : Prop :=
  (∃ k', elfLoad p f k = .ok (.ok, k')) ∨ elfLoad p f k = .error (.fault (.ub "mapped_info"))

theorem newRegions_used {tf trap : Nat} (htf : tf ≠ 0) (htrap : trap ≠ 0) (hj : j.val < 4) :
    Used (newRegions tf trap j) := by
  have hcases : j = 0 ∨ j = 1 ∨ j = 2 ∨ j = 3 := by
    simp only [Fin.ext_iff]
    change j.val = 0 ∨ j.val = 1 ∨ j.val = 2 ∨ j.val = 3
    omega
  rcases hcases with rfl | rfl | rfl | rfl
  · simp [newRegions, upd, Used, userStackTop, pgSize]
  · simpa [newRegions, upd, Used] using htf
  · simpa [newRegions, upd, Used] using htrap
  · simp [newRegions, upd, Used, userFreeAddressStart]

theorem newRegions_rest {tf trap : Nat} (hj : 4 ≤ j.val) : newRegions tf trap j = .zero := by
  have h0 : j ≠ 0 := fun h => by rw [h] at hj; simp at hj
  have h1 : j ≠ 1 := fun h => by rw [h] at hj; simp at hj
  have h2 : j ≠ 2 := fun h => by rw [h] at hj; simp at hj
  have h3 : j ≠ 3 := fun h => by rw [h] at hj; simp at hj
  simp [newRegions, upd, h0, h1, h2, h3]

/-- A new process has recorded nothing but its own four regions. -/
theorem recorded_new {k0 k : Machine} {p : Pid} (htrap : k0.trapSecStart ≠ 0)
    (hnew : allocProcess k0 = .ok (p, k)) :
    (∀ j : Fin 256, j.val < 4 → Used ((k.procs p).regions j)) ∧
      Recorded (k.procs p).regions k p [] := by
  obtain ⟨tf, pt, ks, mi, pfiles, htf, -, hrec⟩ := (allocProcess_rec k0).of_ok hnew
  have hself := hrec.self
  refine ⟨fun j hj => ?_, ⟨funext fun j => ?_, ?_, Nat.zero_le _⟩⟩
  · rw [hself]
    exact newRegions_used htf htrap hj
  · by_cases hj : j.val < 4
    · exact (entries_low hj).symm
    · rw [entries_rest (by simp [kept, used]; omega), hself]
      exact newRegions_rest (by omega)
  · rw [hself]
    rfl

theorem segmentType_ne_stack {flags : Nat} {type : SegmentType} (h : segmentType flags = some type) :
    type ≠ .stack := by
  rintro rfl
  unfold segmentType at h
  split at h
  · cases h
  · split at h <;> cases h

theorem used_loadable {phs : List ProgHeader} :
    (∀ r ∈ (phs.map regionOf).dropLast, Used r) ↔ ∀ ph ∈ phs.dropLast, ph.vaddr ≠ 0 := by
  simp [← List.map_dropLast, Used, regionOf]

/-- `mapped_info` has room for the loadable headers. -/
def RoomFor (f : HostFile) : Prop :=
  ((loadable f).dropLast.filter fun ph => decide (ph.vaddr ≠ 0)).length < 252

instance (f : HostFile) : Decidable (RoomFor f) := inferInstanceAs (Decidable (_ < _))

theorem length_used_regions (f : HostFile) : (used ((loadable f).map regionOf).dropLast).length =
    ((loadable f).dropLast.filter fun ph => decide (ph.vaddr ≠ 0)).length := by
  rw [← List.map_dropLast, used, List.filter_map, List.length_map]
  rfl

section

variable {k0 k : Machine} {p : Pid} {f : HostFile} (htrap : k0.trapSecStart ≠ 0)
  (hnew : allocProcess k0 = .ok (p, k))

include htrap hnew

/-- `elf_load` stays inside `mapped_info` if there is room. -/
theorem loads_iff_room (hloads : LoadsAll p f k) :
    (∃ k', elfLoad p f k = .ok (.ok, k')) ↔ RoomFor f := by
  obtain ⟨hbase, h0⟩ := recorded_new htrap hnew
  have hpost : Post (elfLoad p f) k _ _ := elfLoadFrom_post hbase h0
  rw [RoomFor, ← length_used_regions]
  constructor
  · rintro ⟨k', hrun⟩
    have hfits : (kept ((loadable f).map regionOf)).length ≤ 252 := (hpost.of_ok hrun rfl).1.fits
    rcases List.eq_nil_or_concat ((loadable f).map regionOf) with hnil | ⟨init, z, hlast⟩
    · rw [hnil]
      decide
    · rw [hlast, List.concat_eq_append, kept_concat, List.length_append,
        List.length_singleton] at hfits
      rw [hlast, List.concat_eq_append, List.dropLast_concat]
      omega
  · intro hroom
    refine hloads.resolve_right fun hstop => ?_
    rcases hpost.of_error hstop with hub | hfull
    · exact absurd rfl (hub "mapped_info")
    · exact absurd hroom (Nat.not_lt.mpr hfull)

/-- `mapped_info` describes the loaded program exactly if there are at most 252 loadable headers
and only the last can be at address `0`. -/
theorem mapped_info_exact_iff (hloads : LoadsAll p f k) :
    MappedExactly p f k ↔
      (loadable f).length ≤ 252 ∧ ∀ ph ∈ (loadable f).dropLast, ph.vaddr ≠ 0 := by
  obtain ⟨hbase, h0⟩ := recorded_new htrap hnew
  have hpost : Post (elfLoad p f) k _ _ := elfLoadFrom_post hbase h0
  rw [← used_loadable]
  constructor
  · rintro ⟨k', hrun, htotal, hfits, -, hentries⟩
    refine ⟨by omega, used_of_kept ?_⟩
    have hregions : (k'.procs p).regions =
        entries (k.procs p).regions (kept ((loadable f).map regionOf)) :=
      (hpost.of_ok hrun rfl).1.regions
    -- if a region were lost, the last entry would be one no segment has been recorded in
    by_contra hlost
    rw [List.length_map] at hlost
    have hpos : (loadable f).length - 1 < (loadable f).length := by omega
    have hi : 4 + ((loadable f).length - 1) < 256 := by omega
    obtain ⟨type, htype, hlast⟩ := hentries _ _ (List.getElem?_eq_getElem hpos) hi
    rw [hregions, entries_rest (by simp only; omega)] at hlast
    exact segmentType_ne_stack htype (congrArg MappedRegion.segType hlast).symm
  · rintro ⟨hlen, hused⟩
    have hroom : RoomFor f := by
      have hle : (used ((loadable f).map regionOf).dropLast).length ≤ (loadable f).length - 1 := by
        refine (List.length_filter_le ..).trans ?_
        rw [List.length_dropLast, List.length_map]
      rw [RoomFor, ← length_used_regions]
      omega
    obtain ⟨k', hrun⟩ := (loads_iff_room htrap hnew hloads).mpr hroom
    obtain ⟨hrec, htypes⟩ := hpost.of_ok hrun rfl
    have hregions : (k'.procs p).regions =
        entries (k.procs p).regions (kept ((loadable f).map regionOf)) := hrec.regions
    have htotal : (k'.procs p).totalMappedRegion = 4 + ((loadable f).map regionOf).length :=
      hrec.total
    rw [List.length_map] at htotal
    rw [kept_of_used hused] at hregions
    refine ⟨k', hrun, htotal, by omega, fun j hj => ?_, fun i ph hph hi => ?_⟩
    · rw [hregions, entries_low hj]
    · obtain ⟨type, htype⟩ := Option.isSome_iff_exists.mp (htypes ph (List.mem_of_getElem? hph))
      refine ⟨type, htype, ?_⟩
      have hget : ((loadable f).map regionOf)[i]? = some (regionOf ph) := by
        rw [List.getElem?_map, hph, Option.map_some]
      rw [hregions, entries_get hi hget, regionOf, htype, Option.getD_some]

end

/-! ## Files of headers -/

def headerByte (ph : ProgHeader) (b : Nat) : UInt8 :=
  if b < 4 then natByte ph.type b
  else if b < 8 then natByte ph.flags (b - 4)
  else if b < 16 then natByte ph.off (b - 8)
  else if b < 24 then natByte ph.vaddr (b - 16)
  else if b < 32 then 0
  else if b < 40 then natByte ph.filesz (b - 32)
  else if b < 48 then natByte ph.memsz (b - 40)
  else 0

/-- A file with the program headers `phs` and nothing else. -/
def headerFile (phs : List ProgHeader) : HostFile where
  bytes a :=
    if a < 4 then natByte elfMagic a
    else if a < 32 then 0
    else if a < 40 then natByte elfHeaderSize (a - 32)
    else if a < 56 then 0
    else if a < 58 then natByte phs.length (a - 56)
    else if a < elfHeaderSize then 0
    else match phs[(a - elfHeaderSize) / progHeaderSize]? with
      | some ph => headerByte ph ((a - elfHeaderSize) % progHeaderSize)
      | none => 0
  size := elfHeaderSize + phs.length * progHeaderSize

/-- A segment of code without bytes in the file. -/
def codeAt (vaddr : Nat) : ProgHeader := ⟨elfProgLoad, 5, 0, vaddr, 0, pgSize⟩

/-- A segment of two pages of data without bytes in the file. -/
def dataAt (vaddr : Nat) : ProgHeader := ⟨elfProgLoad, 6, 0, vaddr, 0, 2 * pgSize⟩

/-- What `elf_load` returns for a new process, and what `g` sees of the process then. -/
def loadNew {β : Type} (g : Pid → Machine → β) (f : HostFile) : ProcM (ElfStatus × β) := do
  let p ← allocProcess
  let st ← elfLoad p f
  let k ← get
  pure (st, g p k)

/-- A run of `loadNew` is a new process and a run of `elf_load`. -/
theorem loadNew_run {β : Type} {g : Pid → Machine → β} {k0 : Machine} {st : ElfStatus} {b : β}
    (h : valueOf (loadNew g f) k0 = some (st, b)) :
    ∃ p k k', allocProcess k0 = .ok (p, k) ∧ elfLoad p f k = .ok (st, k') ∧ g p k' = b := by
  obtain ⟨k2, h⟩ := ok_of_valueOf h
  obtain ⟨p, k, hnew, h⟩ := Exec.bind_ok h
  obtain ⟨st', k', hload, h⟩ := Exec.bind_ok h
  cases h
  exact ⟨p, k, k2, hnew, hload, rfl⟩

/-- The first two regions of the program. -/
def programRegions (p : Pid) (k : Machine) : MappedRegion × MappedRegion :=
  ((k.procs p).regions 4, (k.procs p).regions 5)

/-- A program with a page of code and two of data. -/
theorem mapped_info_exact_iff_two : ∃ k0 k p, k0.trapSecStart ≠ 0 ∧
    allocProcess k0 = .ok (p, k) ∧ LoadsAll p (headerFile [codeAt 65536, dataAt 131072]) k ∧
    MappedExactly p (headerFile [codeAt 65536, dataAt 131072]) k := by
  have hrun : valueOf (loadNew programRegions (headerFile [codeAt 65536, dataAt 131072]))
      (smallMachine 20) = some (.ok, ⟨65536, 1, .code⟩, ⟨131072, 2, .data⟩) := by decide +kernel
  obtain ⟨p, k, k', hnew, hload, -⟩ := loadNew_run hrun
  refine ⟨smallMachine 20, k, p, by decide, hnew, .inl ⟨k', hload⟩, ?_⟩
  exact (mapped_info_exact_iff (by decide) hnew (.inl ⟨k', hload⟩)).mpr
    ⟨by decide, by decide⟩

/-- A segment at address `0` is forgotten when the next one is loaded. -/
theorem mapped_info_forgets_zero : ∃ k0 k k' p, k0.trapSecStart ≠ 0 ∧
    allocProcess k0 = .ok (p, k) ∧
    elfLoad p (headerFile [codeAt 0, codeAt 65536]) k = .ok (.ok, k') ∧
    (k'.procs p).regions 4 = ⟨65536, 1, .code⟩ ∧ (k'.procs p).regions 5 = .zero ∧
    ¬MappedExactly p (headerFile [codeAt 0, codeAt 65536]) k := by
  have hrun : valueOf (loadNew programRegions (headerFile [codeAt 0, codeAt 65536]))
      (smallMachine 20) = some (.ok, ⟨65536, 1, .code⟩, .zero) := by decide +kernel
  obtain ⟨p, k, k', hnew, hload, hregions⟩ := loadNew_run hrun
  obtain ⟨hfour, hfive⟩ := Prod.mk.inj hregions
  refine ⟨smallMachine 20, k, k', p, by decide, hnew, hload, hfour, hfive, ?_⟩
  rintro ⟨k2, hload2, -, -, -, hentries⟩
  rw [hload] at hload2
  obtain rfl : k' = k2 := by simpa using hload2
  have hph : (loadable (headerFile [codeAt 0, codeAt 65536]))[0]? = some (codeAt 0) := by
    decide
  obtain ⟨type, -, hregion⟩ := hentries 0 _ hph (by decide)
  have hva := congrArg MappedRegion.va (hfour.symm.trans hregion)
  cases hva

end Machine

end Pke
