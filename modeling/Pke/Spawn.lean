import Pke.Paging
import Pke.Records

/-!
# A new process

What `alloc_process` makes of memory and of the process table: an empty
page table with three pages mapped (`Paging.spawn`), and a record
(`newRecord`). The pages it takes for the kernel stack, the regions and the
open files are kept aside.
-/

namespace Pke

/-- The virtual page of the user stack. -/
def stackPage : Nat := (userStackTop - pgSize) / pgSize

/-- The entries of the stack, of the trap frame and of the trap section. -/
def stackPte (us : Nat) : Nat := Phys.leafPte us (protToType Machine.protRW true)
def framePte (tf : Nat) : Nat := Phys.leafPte tf (protToType Machine.protRW false)
def trapPte (trap : Nat) : Nat := Phys.leafPte trap (protToType Machine.protRX false)

/-- Memory with a table `pt` for a new process, whose stack is the page `us` and whose
trap frame is the page `tf`. -/
def Paging.spawn (P : Paging) (pt us tf trap : Nat) (stack frame : Nat → UInt8) : Paging :=
  (((((P.newDir pt).use tf frame).use us stack).map pt stackPage (stackPte us)).map pt (tf / pgSize)
    (framePte tf)).map pt (trap / pgSize) (trapPte trap)

namespace Machine

open Exec (Post get modify)

variable {P : Paging} {hs : List Nat} {F : Machine → Prop} {p : Nat}

theorem Pages.perm {k : Machine} {hs' : List Nat} (h : Pages P hs F k) (hp : hs.Perm hs') :
    Pages P hs' F k := by
  obtain ⟨⟨l, h⟩, hF⟩ := h
  refine ⟨⟨l, h.spaces, h.entry, h.data, hp.nodup_iff.mp h.nodup, fun x hx => ?_, fun x hx => ?_,
    fun x hx => h.source x (hx.imp id hp.mem_iff.mpr)⟩, hF⟩
  · exact h.held x (hp.mem_iff.mpr hx)
  · exact (h.all x hx).imp id fun hx' => hx'.imp hp.mem_iff.mp id

/-- A page that has been taken is used as it is. -/
theorem Pages.use {k : Machine} (h : Pages P (p :: hs) F k) :
    ∃ page, Pages (P.use p page) hs F k := by
  obtain ⟨⟨l, h⟩, hF⟩ := h
  exact ⟨fun i => k.phys.mem (p + i), ⟨l, h.use fun _ _ => rfl⟩, hF⟩

/-- The directory is cleared. -/
theorem pages_clearDir (hF : Stable F) :
    Triple (Pages P (p :: hs) F) (memset p 0 pgSize) fun _ =>
      Pages (P.newDir p) hs fun k => F k ∧ p ∉ P.dirs := by
  refine .bind triple_access fun _ => .inPhys fun k hk => .modify ?_
  obtain ⟨⟨⟨l, h⟩, hFk⟩, hne⟩ := hk
  have hpage := (h.held p (by simp)).1.page
  have hwrite := h.write (m := Pke.memset k.phys.mem p 0 pgSize) (by simp)
    fun q hq hne => samePage_memset hpage hq hne
  refine ⟨⟨l, hwrite.newDir hne fun n => ?_⟩, hF k _ k.oom hFk, fun hmem => ?_⟩
  · have := ix_bound n
    exact load64_memset_zero (by omega) (by omega)
  · exact (h.held p (by simp)).1.data p hmem ⟨.root, rfl⟩

section

variable {k0 : Machine} {i : Pid} {q : Process} {c : Prop}

/-- The record of process `i` is `q`, and the others are as in `k0`. -/
def Rec (k0 : Machine) (i : Pid) (q : Process) (c : Prop) (k : Machine) : Prop :=
  OneRec k0 k i q ∧ c

theorem stable_rec : Stable (Rec k0 i q c) :=
  fun _ _ _ h => ⟨h.1.same ⟨rfl, rfl, rfl, rfl⟩, h.2⟩

theorem pages_setRec (f : Process → Process) :
    Triple (Pages P hs (Rec k0 i q c)) (modifyProc i f) fun _ => Pages P hs (Rec k0 i (f q) c) :=
  pages_record fun _ h => ⟨h.1.set f, h.2⟩

theorem pages_alloc : Triple (Pages P hs (Rec k0 i q c)) allocPage fun p =>
    Pages P (p :: hs) (Rec k0 i q c) :=
  (pages_allocPage stable_rec).mono (fun _ h => h) fun _ _ h => h.1

theorem pages_access : Triple (Pages P hs F) (access p) fun _ => Pages P hs F :=
  triple_access.mono (fun _ h => h) fun _ _ h => h.1

theorem pages_initProcFileManagement :
    Triple (Pages P hs (Rec k0 i q c)) initProcFileManagement fun p => Pages P (p :: hs) (Rec k0 i q c) := by
  unfold initProcFileManagement
  generalize clearTable = clear
  refine .bind pages_alloc fun p => .bind pages_access fun _ => ?_
  refine .bind (.inFiles (Q := fun _ => Pages P (p :: hs) (Rec k0 i q c)) fun k _ _ hk => ?_)
    fun _ => .pure fun _ h => h
  exact ⟨hk.1, hk.2.1.same ⟨rfl, rfl, rfl, rfl⟩, hk.2.2⟩

theorem pages_allocPages :
    Triple (Pages P [] (Rec k0 i (k0.procs i) c)) (allocPages i) fun us k =>
      ∃ tf pt ks mi, Pages (P.newDir pt) [mi, us, ks, tf]
        (Rec k0 i (pagesRecord (k0.procs i) tf pt ks mi) (c ∧ pt ∉ P.dirs)) k := by
  unfold allocPages
  refine .bind pages_alloc fun tf => .bind (pages_setRec _) fun _ => ?_
  refine .bind pages_access fun _ => .bind (pages_setRec _) fun _ => ?_
  refine .bind pages_alloc fun pt => .bind (pages_setRec _) fun _ => ?_
  refine .bind ((pages_clearDir stable_rec).mono (fun _ h => h) fun _ k hk =>
    hk.imp (G := Rec k0 i _ (c ∧ pt ∉ P.dirs)) fun h => ⟨h.1.1, h.1.2, h.2⟩) fun _ => ?_
  refine .bind pages_alloc fun ks => .bind (pages_setRec _) fun _ => ?_
  refine .bind pages_alloc fun us => .bind (pages_setRec _) fun _ => ?_
  refine .bind pages_alloc fun mi => .bind (pages_setRec _) fun _ => ?_
  refine .bind pages_access fun _ => .bind (pages_setRec _) fun _ => .pure fun k hk => ?_
  exact ⟨tf, pt, ks, mi, hk⟩

theorem pages_mapRec (d0 va0 pa0 : Nat) {d va pa perm : Nat} (hd : d0 ∈ P.dirs)
    (hperm : perm < 1024) (hargs : c → d = d0 ∧ va = va0 ∧ pa = pa0)
    (hpage : ∀ k, Pages P hs (Rec k0 i q c) k → va0 % pgSize = 0 ∧ va0 < 2 ^ 64 ∧ pa0 < 2 ^ 64) :
    Triple (Pages P hs (Rec k0 i q c)) (inPhys (Phys.userVmMap d va pgSize pa perm)) fun _ =>
      Pages (P.map d0 (va0 / pgSize) (Phys.leafPte pa0 perm)) hs
        (Rec k0 i q (c ∧ P.entries d0 (va0 / pgSize) = none)) := by
  refine (pages_map d0 va0 pa0 stable_rec hperm fun k h => ?_).mono (fun _ h => h) fun _ k h => ?_
  · obtain ⟨rfl, rfl, rfl⟩ := hargs h.2.2
    exact ⟨rfl, rfl, rfl, hd, hpage k h⟩
  · exact h.imp fun hF => ⟨hF.1.1, hF.1.2, hF.2.2⟩

/-- The three pages of a new process are mapped. -/
theorem pages_mapSegments {us : Nat} (htrap : k0.trapSecStart % pgSize = 0)
    (htrap64 : k0.trapSecStart < 2 ^ 64) (hd : q.pagetable ∈ P.dirs) (hus : us ∈ hs)
    (htf : q.trapframe ∈ hs) :
    Triple (Pages P hs (Rec k0 i q c)) (mapSegments i us) fun _ =>
      Pages (((P.map q.pagetable stackPage (stackPte us)).map q.pagetable (q.trapframe / pgSize)
          (framePte q.trapframe)).map q.pagetable (k0.trapSecStart / pgSize)
          (trapPte k0.trapSecStart)) hs
        (Rec k0 i (setRegion (setRegion (setRegion q 0 ⟨userStackTop - pgSize, 1, .stack⟩)
          1 ⟨q.trapframe, 1, .context⟩) 2 ⟨k0.trapSecStart, 1, .system⟩)
          (c ∧ [stackPage, q.trapframe / pgSize, k0.trapSecStart / pgSize].Nodup)) := by
  refine .bindGet fun k1 => ?_
  -- what has been read is what the record says
  let c1 : Prop := c ∧ k1.procs i = q ∧ k1.trapSecStart = k0.trapSecStart
  have hus' : ∀ {P : Paging} {F : Machine → Prop} k, Pages P hs F k → us < 2 ^ 64 :=
    fun k h => (h.held hus).2.1
  have htf' : ∀ {P : Paging} {F : Machine → Prop} k, Pages P hs F k →
      q.trapframe % pgSize = 0 ∧ q.trapframe < 2 ^ 64 ∧ q.trapframe < 2 ^ 64 :=
    fun k h => ⟨(h.held htf).1, (h.held htf).2.1, (h.held htf).2.1⟩
  have hstart : ∀ k, Pages P hs (Rec k0 i q c) k ∧ k = k1 → Pages P hs (Rec k0 i q c1) k := by
    rintro k ⟨h, rfl⟩
    exact h.imp fun hrec => ⟨hrec.1, hrec.2, hrec.1.self, hrec.1.trap⟩
  refine Triple.mono ?_ hstart fun _ _ h => h
  refine .bind (pages_mapRec q.pagetable (userStackTop - pgSize) us hd (by decide) ?_ ?_)
    fun _ => .bind (pages_setRec _) fun _ => ?_
  · exact fun hc => ⟨by rw [hc.2.1], rfl, rfl⟩
  · exact fun k h => ⟨by decide, by decide, hus' k h⟩
  refine .bind (pages_mapRec q.pagetable q.trapframe q.trapframe hd (by decide) ?_ htf')
    fun _ => .bind (pages_setRec _) fun _ => ?_
  · exact fun hc => ⟨by rw [hc.1.2.1], by rw [hc.1.2.1], by rw [hc.1.2.1]⟩
  refine .bind (pages_mapRec q.pagetable k0.trapSecStart k0.trapSecStart hd (by decide) ?_ ?_)
    fun _ => (pages_setRec _).mono (fun _ h => h) fun _ k hk => hk.imp ?_
  · exact fun hc => ⟨by rw [hc.1.1.2.1], hc.1.1.2.2, hc.1.1.2.2⟩
  · exact fun k h => ⟨htrap, htrap64, htrap64⟩
  -- the three pages are different, since each was not mapped before
  rintro ⟨hrec, ⟨⟨⟨hc, hq, htrapEq⟩, -⟩, hframe⟩, htrapPage⟩
  rw [hq, htrapEq] at hrec
  refine ⟨hrec, hc, ?_⟩
  have hne := Paging.ne_of_map_none hframe
  have hne' := Paging.ne_of_map_none htrapPage
  have hne2 := Paging.ne_of_map_none (Paging.none_of_map_none htrapPage)
  simp only [List.nodup_cons, List.mem_cons, List.not_mem_nil, or_false, not_or,
    List.nodup_nil, and_true, not_false_eq_true]
  exact ⟨⟨Ne.symm hne, Ne.symm hne2⟩, Ne.symm hne'⟩

/-- The pages of a new process are new and at different places. -/
structure Spawned (P : Paging) (pt us tf trap : Nat) : Prop where
  dir : pt ∉ P.dirs
  stack : Unused P us
  frame : Unused P tf
  ne : us ≠ tf
  places : [stackPage, tf / pgSize, trap / pgSize].Nodup

/-- What is in memory after `alloc_process`. -/
theorem pages_allocProcess (htrap : k0.trapSecStart % pgSize = 0)
    (htrap64 : k0.trapSecStart < 2 ^ 64) :
    Triple (Pages P [] (· = k0)) allocProcess fun i k =>
      ∃ pt us tf ks mi pfiles stack frame,
        Pages (P.spawn pt us tf k0.trapSecStart stack frame) [pfiles, mi, ks]
          (Rec k0 i (newRecord (k0.procs i) tf pt ks mi pfiles k0.trapSecStart)
            (Spawned P pt us tf k0.trapSecStart)) k := by
  refine .bindGet fun k1 => ?_
  cases firstFree k1 with
  | none => exact .fault
  | some i =>
      have hstart : ∀ k, Pages P [] (· = k0) k ∧ k = k1 →
          Pages P [] (Rec k0 i (k0.procs i) True) k := by
        rintro k ⟨h, rfl⟩
        exact h.imp fun heq => ⟨heq ▸ OneRec.refl k i, trivial⟩
      refine Triple.mono ?_ hstart fun _ _ h => h
      refine .bind pages_allocPages fun us => ?_
      refine .exists_ fun tf => .exists_ fun pt => .exists_ fun ks => .exists_ fun mi => ?_
      refine .bind (pages_mapSegments htrap htrap64 (Set.mem_insert _ _) (by simp)
        (by simp [pagesRecord])) fun _ => ?_
      refine .bind (pages_setRec _) fun _ => .bind (pages_setRec _) fun _ =>
        .bind (pages_setRec _) fun _ => ?_
      refine .bind pages_initProcFileManagement fun pf => ?_
      refine .bind (pages_setRec _) fun _ => .pure fun k hk => ?_
      -- the pages of the stack and of the trap frame are used from now on
      have hperm : [pf, mi, us, ks, tf].Perm [tf, us, pf, mi, ks] := by
        refine List.perm_iff_count.mpr fun a => ?_
        simp only [List.count_cons, List.count_nil]
        ac_rfl
      have hk := hk.perm hperm
      obtain ⟨⟨l, href⟩, hone, ⟨-, hdir⟩, hplaces⟩ := hk
      have hspawned : Spawned P pt us tf k0.trapSecStart := by
        have hpages : Pages _ [tf, us, pf, mi, ks] (fun _ => True) k := ⟨⟨l, href⟩, trivial⟩
        have hus := hpages.held (p := us) (by simp)
        have htf := hpages.held (p := tf) (by simp)
        refine ⟨hdir, ⟨hus.1, hus.2.1, (href.held us (by simp)).2.1, href.source us (.inr (by simp))⟩,
          ⟨htf.1, htf.2.1, (href.held tf (by simp)).2.1, href.source tf (.inr (by simp))⟩, ?_, hplaces⟩
        have hnodup := href.nodup
        simp only [List.nodup_cons, List.mem_cons, not_or] at hnodup
        exact Ne.symm hnodup.1.1
      have hk : Pages _ [tf, us, pf, mi, ks] (Rec k0 i _ (Spawned P pt us tf k0.trapSecStart)) k :=
        ⟨⟨l, href⟩, hone, hspawned⟩
      obtain ⟨frame, hk⟩ := hk.use
      obtain ⟨stack, hk⟩ := hk.use
      exact ⟨pt, us, tf, ks, mi, pf, stack, frame, hk⟩

end

end Machine

end Pke
