import Pke.DirListing
import Pke.HostSpec

/-!
# What a lookup leaves alone

`lookup_final_dentry` runs in any state of the kernel, whatever is in its
cache. What it changes are pages that were free and the references of vinodes
that get another name; the disk, the freemaps, the files of the host and
everything else in memory stay, and no vinode leaves the cache (`Walked`).

`Fetched` is the part of it up to the point where the file system has answered:
nothing that was in use has changed, and the tables are the same. Each function
of a lookup has one lemma, from the state `s0` the lookup of the component
started in, which also says what the function has found.
-/

namespace Pke

open Exec (Post)

/-- The page has the same contents, apart from the references of a vinode. -/
inductive Page.SameButRef (c : Page) : Page → Prop
  | same : SameButRef c c
  | ref {v : Vinode} (h : c = .vinode v) (n : Int) : SameButRef c (.vinode { v with ref := n })

/-- The page of a table of open files, or a file. -/
def Page.isTable : Page → Bool
  | .file _ | .procFiles _ => true
  | _ => false

/-- What the allocator has to give are pages. -/
def State.FreeAligned (s : State) : Prop := ∀ p ∈ s.freePages, p % pgSize = 0

/-- The allocator does not give out `NULL`. -/
def State.Nonnull (s : State) : Prop := 0 ∉ s.freePages ∧ 0 < s.freeMemStart

variable {s : State} {p parent sb this : Ptr} {v : Vinode}

/-- `free_page` gives back a page. -/
theorem State.FreeAligned.cons {a b : Ptr} (hok : ¬(p % pgSize ≠ 0 ∨ p < a ∨ p ≥ b))
    (h : s.FreeAligned) : ∀ q ∈ p :: s.freePages, q % pgSize = 0 := by
  intro q hq
  rcases List.mem_cons.mp hq with rfl | hmem
  · exact not_not.mp fun hmod => hok (.inl hmod)
  · exact h q hmem

/-- From `s0` to `s` the pages that were in use have changed as `R` allows, and the pages that
were free hold no super block and no file. -/
structure Frame (R : Page → Page → Prop) (s0 s : State) : Prop where
  disk : s.disk = s0.disk
  tree : s.spike.host.tree = s0.spike.host.tree
  root : s.vfsRootDentry = s0.vfsRootDentry
  used : ∀ p, s0.pages p ≠ .free → R (s0.pages p) (s.pages p)
  super : ∀ p B, s.pages p = .superBlock B → s0.pages p = .superBlock B
  table : ∀ p, (s.pages p).isTable = true → s0.pages p = s.pages p
  start : s.freeMemStart = s0.freeMemStart
  pool : ∀ p ∈ s.freePages, p ∈ s0.freePages ∨ p % pgSize = 0 ∧ s0.freeMemStart ≤ p

structure Walked (s0 s : State) : Prop extends Frame Page.SameButRef s0 s where
  cached : ∀ k e, s0.vinodeHash.find? vinodeHashOps k = some e →
    s.vinodeHash.find? vinodeHashOps k = some e

/-- Nothing has been stored but in pages that were free. -/
abbrev Kept (s0 s : State) : Prop := Frame Eq s0 s

/-- Nor in the tables, those of the handles included. -/
structure Fetched (s0 s : State) : Prop extends Frame Eq s0 s where
  vinodes : s.vinodeHash = s0.vinodeHash
  names : s.dentryHash = s0.dentryHash
  spike : s.spike = s0.spike

namespace Frame

variable {R : Page → Page → Prop} {s0 s s1 : State} {c : Page}

theorem trans {R' R'' : Page → Page → Prop} (h : Frame R s0 s) (h' : Frame R' s s1)
    (hR : ∀ {c c'}, c ≠ .free → R c c' → c' ≠ .free ∧ ∀ c'', R' c' c'' → R'' c c'') :
    Frame R'' s0 s1 where
  disk := h'.disk.trans h.disk
  tree := h'.tree.trans h.tree
  root := h'.root.trans h.root
  used p hp := by
    have hstep := h.used p hp
    exact (hR hp hstep).2 _ (h'.used p (hR hp hstep).1)
  super p B hB := h.super p B (h'.super p B hB)
  table p hp := by
    have hsame := h'.table p hp
    rw [← hsame] at hp ⊢
    exact h.table p hp
  start := h'.start.trans h.start
  pool p hp := by
    rcases h'.pool p hp with hmem | hnew
    · exact h.pool p hmem
    · exact .inr (h.start ▸ hnew)

theorem aligned (h : Frame R s0 s) (h0 : s0.FreeAligned) : s.FreeAligned := by
  intro p hp
  rcases h.pool p hp with hmem | hnew
  · exact h0 p hmem
  · exact hnew.1

theorem nonnull (h : Frame R s0 s) (h0 : s0.Nonnull) : s.Nonnull := by
  refine ⟨fun hmem => ?_, h.start ▸ h0.2⟩
  rcases h.pool 0 hmem with hold | ⟨-, hle⟩
  · exact h0.1 hold
  · exact absurd hle (Nat.not_le.mpr h0.2)

/-- What is stored in a page that was free does not count. -/
theorem fill (h : Frame R s0 s) (hp : s0.pages p = .free) (hc : ∀ B, c ≠ .superBlock B)
    (ht : c.isTable = false) : Frame R s0 (s.setPage p c) where
  disk := h.disk
  tree := h.tree
  root := h.root
  used q hq := by
    have hne : q ≠ p := by
      rintro rfl
      exact hq hp
    rw [State.setPage_ne hne]
    exact h.used q hq
  super q B hB := by
    rcases eq_or_ne q p with rfl | hne
    · rw [State.setPage_self] at hB
      exact absurd hB (hc B)
    · rw [State.setPage_ne hne] at hB
      exact h.super q B hB
  table q hq := by
    rcases eq_or_ne q p with rfl | hne
    · rw [State.setPage_self, ht] at hq
      cases hq
    · rw [State.setPage_ne hne] at hq ⊢
      exact h.table q hq
  start := h.start
  pool := h.pool

/-- Another list of free pages, with what was on it and pages of the allocator. -/
theorem freeList (h : Frame R s0 s) {l : List Ptr}
    (hl : ∀ p ∈ l, p ∈ s.freePages ∨ p % pgSize = 0 ∧ s.freeMemStart ≤ p) :
    Frame R s0 { s with freePages := l } := by
  refine ⟨h.disk, h.tree, h.root, h.used, h.super, h.table, h.start, fun p hp => ?_⟩
  rcases hl p hp with hmem | hnew
  · exact h.pool p hmem
  · exact .inr (h.start ▸ hnew)

/-- The state after `free_page` has passed its test. -/
theorem push (h : Frame R s0 s) {a : Ptr} (hp : s0.pages p = .free)
    (hok : ¬(p % pgSize ≠ 0 ∨ p < s.freeMemStart ∨ p ≥ a)) :
    Frame R s0 { s.setPage p .free with freePages := p :: s.freePages } := by
  refine (h.fill (c := .free) hp nofun rfl).freeList fun q hq => ?_
  rcases List.mem_cons.mp hq with rfl | hmem
  · exact .inr ⟨not_not.mp fun hmod => hok (.inl hmod), Nat.not_lt.mp fun hlt => hok (.inr (.inl hlt))⟩
  · exact .inl hmem

end Frame


namespace Page.SameButRef

variable {c c' c'' : Page}

theorem trans (h : c.SameButRef c') (h' : c'.SameButRef c'') : c.SameButRef c'' := by
  cases h with
  | same => exact h'
  | @ref v hc n =>
      cases h' with
      | same => exact .ref hc n
      | @ref u hu m =>
          cases hu
          exact .ref (v := v) hc m

theorem eq_of_vinode (h : (Page.vinode v).SameButRef c') :
    ∃ n, c' = .vinode { v with ref := n } := by
  cases h with
  | same => exact ⟨v.ref, rfl⟩
  | ref hc n =>
      cases hc
      exact ⟨n, rfl⟩

theorem eq_of_other (h : c.SameButRef c') (hc : ∀ v, c ≠ .vinode v) : c' = c := by
  cases h with
  | same => rfl
  | ref hv n => exact absurd hv (hc _)

theorem free (h : c.SameButRef .free) : c = .free := by
  cases h
  rfl

end Page.SameButRef

namespace Walked

variable {s s1 s2 : State}

theorem used_ne (h : Walked s s1) (hp : s.pages p ≠ .free) : s1.pages p ≠ .free :=
  fun hfree => hp (hfree ▸ h.used p hp).free

theorem trans (h : Walked s s1) (h' : Walked s1 s2) : Walked s s2 where
  toFrame := h.toFrame.trans h'.toFrame fun hc hstep =>
    ⟨fun hfree => hc (hfree ▸ hstep).free, fun _ => hstep.trans⟩
  cached k e he := h'.cached k e (h.cached k e he)

theorem dentry (h : Walked s s1) {x : Dentry} (hx : s.dentry p = some x) :
    s1.dentry p = some x := by
  have hp : s.pages p = .dentry x := dentryKind.eq_inj hx
  have hsame := h.used p (dentryKind.used hp)
  rw [hp] at hsame
  exact congrArg Page.asDentry (hsame.eq_of_other fun _ => by simp)

theorem vinode (h : Walked s s1) (hv : s.vinode p = some v) :
    ∃ n, s1.vinode p = some { v with ref := n } := by
  have hp : s.pages p = .vinode v := vinodeKind.eq_inj hv
  have hsame := h.used p (vinodeKind.used hp)
  rw [hp] at hsame
  obtain ⟨n, hn⟩ := hsame.eq_of_vinode
  exact ⟨n, congrArg Page.asVinode hn⟩

theorem superBlock (h : Walked s s1) (p : Ptr) : s1.superBlock p = s.superBlock p := by
  cases hB : s.superBlock p with
  | some B =>
      have hp : s.pages p = .superBlock B := superBlockKind.eq_inj hB
      have hsame := h.used p (superBlockKind.used hp)
      rw [hp] at hsame
      exact congrArg Page.asSuperBlock (hsame.eq_of_other fun _ => by simp)
  | none =>
      by_contra hne
      obtain ⟨B, hB1⟩ := Option.ne_none_iff_exists'.mp hne
      have hp : s.pages p = .superBlock B := h.super p B (superBlockKind.eq_inj hB1)
      rw [State.superBlock, hp] at hB
      cases hB

end Walked

/-! ## What was in use -/

section

variable {s0 s : State} {p : Ptr}

theorem Kept.walked (h : Kept s0 s) (hcached : ∀ k e, s0.vinodeHash.find? vinodeHashOps k = some e →
    s.vinodeHash.find? vinodeHashOps k = some e) : Walked s0 s :=
  ⟨⟨h.disk, h.tree, h.root, fun p hp => by rw [← h.used p hp]; exact .same, h.super, h.table,
    h.start, h.pool⟩, hcached⟩

theorem Kept.trans {s' : State} (h : Kept s0 s) (h' : Kept s s') : Kept s0 s' :=
  Frame.trans h h' fun hc hstep => ⟨hstep ▸ hc, fun _ => hstep.trans⟩

theorem Kept.dentry (h : Kept s0 s) {x : Dentry} (hx : s0.dentry p = some x) :
    s.dentry p = some x := by
  rw [State.dentry, ← h.used p (dentryKind.used (dentryKind.eq_inj hx))]
  exact hx

theorem Kept.vinode (h : Kept s0 s) (hv : s0.vinode p = some v) : s.vinode p = some v := by
  rw [State.vinode, ← h.used p (vinodeKind.used (vinodeKind.eq_inj hv))]
  exact hv

theorem Kept.fresh (h : Kept s0 s) (hp : s.pages p = .free) : s0.pages p = .free := by
  by_contra hne
  exact hne (h.used p hne ▸ hp)

theorem Fetched.refl (s : State) : Fetched s s :=
  ⟨⟨rfl, rfl, rfl, fun _ _ => rfl, fun _ _ h => h, fun _ _ => rfl, rfl, fun _ => .inl⟩, rfl, rfl, rfl⟩

theorem Fetched.toWalked (h : Fetched s0 s) : Walked s0 s :=
  Kept.walked h.toFrame fun _ _ he => h.vinodes ▸ he

theorem Walked.refl (s : State) : Walked s s := (Fetched.refl s).toWalked

section

variable (h : Fetched s0 s)

include h

theorem Fetched.trans {s' : State} (h' : Fetched s s') : Fetched s0 s' :=
  ⟨Kept.trans h.toFrame h'.toFrame, h'.vinodes.trans h.vinodes, h'.names.trans h.names,
    h'.spike.trans h.spike⟩

theorem Fetched.fresh (hp : s.pages p = .free) : s0.pages p = .free := Kept.fresh h.toFrame hp

theorem Fetched.fill (hp : s0.pages p = .free) (c : Page) (hc : ∀ B, c ≠ .superBlock B)
    (ht : c.isTable = false) : Fetched s0 (s.setPage p c) :=
  ⟨h.toFrame.fill hp hc ht, h.vinodes, h.names, h.spike⟩

theorem Fetched.fillDentry (hp : s0.pages p = .free) (x : Dentry) :
    Fetched s0 (s.setPage p (.dentry x)) := h.fill hp _ nofun rfl

theorem Fetched.fillVinode (hp : s0.pages p = .free) (v : Vinode) :
    Fetched s0 (s.setPage p (.vinode v)) := h.fill hp _ nofun rfl

theorem Fetched.io (b : Block) : Fetched s0 { s with iobuffer := b } :=
  ⟨⟨h.disk, h.tree, h.root, h.used, h.super, h.table, h.start, h.pool⟩, h.vinodes, h.names,
    h.spike⟩

theorem Fetched.allocPage : Post Pke.allocPage s (fun p s' => s.pages p = .free ∧
    p ∈ s.freePages ∧ (∃ l, s' = { s.setPage p .raw with freePages := l }) ∧ Fetched s0 s')
    fun _ => True := by
  unfold Pke.allocPage
  refine .bindGet ?_
  split
  · exact .fault trivial
  · rename_i p rest hfree
    refine .ite (fun hp => .bindModify (.pure ?_)) fun _ => .fault trivial
    have hpage : s.pages p = .free := Page.eq_free hp
    refine ⟨hpage, hfree ▸ List.mem_cons_self .., ⟨rest, rfl⟩, ?_⟩
    have h1 := h.fill (h.fresh hpage) .raw nofun rfl
    refine ⟨h1.toFrame.freeList fun q hq => .inl ?_, h1.vinodes, h1.names, h1.spike⟩
    exact (hfree ▸ List.mem_cons_of_mem p hq : q ∈ s.freePages)

theorem Fetched.freePage (hp : s0.pages p = .free) : Post (Pke.freePage p) s
    (fun _ s' => s' = { s.setPage p .free with freePages := p :: s.freePages } ∧ Fetched s0 s')
    fun _ => True := by
  unfold Pke.freePage
  exact .bindGet (.ite (fun _ => .fault trivial) fun hok => .modify ⟨rfl, h.toFrame.push hp hok,
    h.vinodes, h.names, h.spike⟩)

theorem Fetched.allocVfsDentry {name : Name} : Post (Pke.allocVfsDentry name 0 parent) s
      (fun t s' => s.pages t = .free ∧ t ∈ s.freePages ∧ s'.dentry t = some ⟨name, 0, 0, parent⟩ ∧
        Fetched s0 s') fun _ => True := by
  refine .bind h.allocPage ?_
  rintro t s1 ⟨ht, hmem, -, h1⟩
  refine .bindModify ?_
  rw [if_neg (by simp)]
  exact .pure ⟨ht, hmem, congrArg Page.asDentry (State.setPage_self ..), h1.fillDentry (h.fresh ht) _⟩

/-! ### Loading vinodes -/

theorem Fetched.rfsR1block {n : Int} : Post (Pke.rfsR1block n) s
    (fun _ s' => s' = { s with iobuffer := s.disk n.toNat } ∧ Fetched s0 s') fun _ => True :=
  rfsR1block_reads.mono fun _ _ hs => ⟨hs, hs ▸ h.io _⟩

end

/-- What `rfs_read_dinode` reads for any number. -/
def dinodeAt (d : Nat → Block) (n : Int) : Dinode :=
  getDinode (d (n.tdiv 32 + rfsBlkOffsetInode).toNat) (n.tmod 32 * rfsInodesize).toNat

section

variable (h : Fetched s0 s)

include h

theorem Fetched.rfsReadDinode {n : Int} : Post (Pke.rfsReadDinode n) s
    (fun r s' => Fetched s0 s' ∧ ∀ q, r = some q → s.pages q.1 = .free ∧
      s'.pages = upd s.pages q.1 .raw ∧ q.2 = dinodeAt s0.disk n) fun _ => True := by
  refine .bind h.rfsR1block ?_
  rintro _ s1 ⟨rfl, h1⟩
  refine .ite (fun _ => .pure ⟨h1, nofun⟩) fun _ => ?_
  refine .bind h1.allocPage ?_
  rintro page s2 ⟨hpage, -, ⟨l, rfl⟩, h2⟩
  refine .ite (fun _ => .fault trivial) fun _ => .bindGet (.pure ⟨h2, ?_⟩)
  rintro _ ⟨⟩
  exact ⟨hpage, rfl, by rw [← h.disk]; rfl⟩

/-- A vinode is filled from the disk. -/
theorem Fetched.rfsUpdateVinode (hp : s0.pages p = .free) (hv : s.vinode p = some v) :
    Post (Pke.rfsUpdateVinode p) s (fun ret s' => Fetched s0 s' ∧
      (ret = 0 → s'.vinode p = some (v.load (dinodeAt s0.disk v.inum)))) fun _ => True := by
  refine .step (getVinode_run hv) (.bind h.rfsReadDinode ?_)
  rintro r s1 ⟨h1, hread⟩
  cases r with
  | none => exact .pure ⟨h1, nofun⟩
  | some q =>
      obtain ⟨hpage, -, hq⟩ := hread q rfl
      have hne : p ≠ q.1 := by
        rintro rfl
        rw [State.vinode, hpage] at hv
        cases hv
      refine .bindModify (.bind ((h1.fillVinode hp _).freePage (h.fresh hpage)) ?_)
      rintro _ s2 ⟨rfl, h2⟩
      refine .pure ⟨h2, fun _ => ?_⟩
      rw [← hq]
      exact congrArg Page.asVinode ((upd_ne hne).trans (State.setPage_self ..))

theorem Fetched.defaultAllocVinode {iOps : FsType} : Post (Pke.defaultAllocVinode sb iOps) s
    (fun w s' => s.pages w = .free ∧ s'.vinode w = some
      { inum := 0, ref := 0, size := 0, type := 0, nlinks := 0, blocks := 0, addrs := fun _ => 0,
        iFsInfo := 0, sb := sb, iOps := iOps } ∧ Fetched s0 s') fun _ => True := by
  refine .bind h.allocPage ?_
  rintro w s1 ⟨hw, -, ⟨l, rfl⟩, h1⟩
  exact .bindModify (.pure ⟨hw, congrArg Page.asVinode (State.setPage_self ..),
    h1.fillVinode (h.fresh hw) _⟩)

theorem Fetched.rfsLoadVinode {inum : Int} : Post (Pke.rfsLoadVinode sb inum) s
    (fun r s' => s.pages r.1 = .free ∧ Fetched s0 s' ∧
      (r.2 = 0 → s'.vinode r.1 = some (loadedVinode sb inum (dinodeAt s0.disk inum))))
    fun _ => True := by
  refine .bind h.defaultAllocVinode ?_
  rintro w s1 ⟨hw, hv, h1⟩
  refine .step (getVinode_run hv) (.bindModify ?_)
  refine .bind ((h1.fillVinode (h.fresh hw) _).rfsUpdateVinode (h.fresh hw)
    (congrArg Page.asVinode (State.setPage_self ..))) ?_
  rintro ret s2 ⟨h2, hload⟩
  exact .pure ⟨hw, h2, hload⟩

end

/-! ### Directory entries -/

/-- What the scan of `rfs_lookup` ends with: the first entry from `i` on that carries the name,
with its block in the I/O buffer, or the end. -/
def Browsed (d : Nat → Block) (addrs : Fin directBlknum → Int) (name : Name) (i last : Nat)
    (r : Nat × Option Nat) (b : Block) : Prop :=
  (r.1 = last ∧ ∀ j, i ≤ j → j < last → nameAt d addrs name j = false) ∨
    (i ≤ r.1 ∧ r.1 < last ∧ nameAt d addrs name r.1 = true ∧
      (∀ j, i ≤ j → j < r.1 → nameAt d addrs name j = false) ∧
      r.2 = some (32 * (r.1 % 128)) ∧ b = d (addrOf addrs (r.1 / 128)).toNat)

theorem Browsed.later {d : Nat → Block} {addrs : Fin directBlknum → Int} {name : Name} {i last : Nat}
    {r : Nat × Option Nat} {b : Block} (h : Browsed d addrs name (i + 1) last r b)
    (hi : nameAt d addrs name i = false) : Browsed d addrs name i last r b := by
  have hlater : ∀ {k : Nat}, (∀ j, i + 1 ≤ j → j < k → nameAt d addrs name j = false) →
      ∀ j, i ≤ j → j < k → nameAt d addrs name j = false := by
    intro k hk j hj1 hj2
    rcases Nat.eq_or_lt_of_le hj1 with rfl | hlt
    · exact hi
    · exact hk j hlt hj2
  rcases h with ⟨hend, hnone⟩ | ⟨hge, hlt, htrue, hbefore, hrest⟩
  · exact .inl ⟨hend, hlater hnone⟩
  · exact .inr ⟨by omega, hlt, htrue, hlater hbefore, hrest⟩

/-- The induction is on the entries left; `q` points to the next one unless it is the first of
a block, which is then read. -/
theorem Fetched.rfsBrowse {addrs : Fin directBlknum → Int} {name : Name} : ∀ {n i : Nat}
    {q : Option Nat} {s : State}, Fetched s0 s →
      (i % 128 ≠ 0 → q = some (32 * (i % 128)) ∧
        s.iobuffer = s0.disk (addrOf addrs (i / 128)).toNat) →
      Post (Pke.rfsBrowse addrs name n i q) s (fun r s' => Fetched s0 s' ∧ s'.pages = s.pages ∧
        Browsed s0.disk addrs name i (i + n) r s'.iobuffer) fun _ => True
  | 0, i, _, _, h, _ => .pure ⟨h, rfl, .inl ⟨rfl, fun j h1 h2 => by omega⟩⟩
  | n + 1, i, q, s, h, hq => by
      refine .bind (R := fun q1 s1 => q1 = some (32 * (i % 128)) ∧ Fetched s0 s1 ∧
        s1.pages = s.pages ∧ s1.iobuffer = s0.disk (addrOf addrs (i / 128)).toNat) ?_ ?_
      · refine .ite (fun hc => ?_) fun hc => ?_
        · refine .bind (addrAt_addrOf (n := i / 128)) ?_
          rintro _ _ ⟨rfl, rfl⟩
          refine .bind h.rfsR1block ?_
          rintro _ s1 ⟨rfl, h1⟩
          exact .pure ⟨by rw [hc], h1, rfl, by rw [← h.disk]⟩
        · obtain ⟨rfl, hio⟩ := hq hc
          exact .pure ⟨rfl, h, rfl, hio⟩
      · rintro _ s1 ⟨rfl, h1, hpages, hio⟩
        refine .bindOption (fun _ => trivial) fun off hoff => .bindGet ?_
        obtain rfl : 32 * (i % 128) = off := Option.some.inj hoff
        rw [hio]
        refine .ite (fun hc => .pure ⟨h1, hpages, .inr ⟨Nat.le_refl _, by omega, hc, ?_, rfl, hio⟩⟩)
          fun hc => ?_
        · intro j h1 h2
          omega
        · refine (Fetched.rfsBrowse (n := n) (i := i + 1) h1 ?_).mono ?_
          · intro hne
            rw [show (i + 1) % 128 = i % 128 + 1 by omega, show (i + 1) / 128 = i / 128 by omega]
            exact ⟨rfl, hio⟩
          · rintro r s2 ⟨h2, hpages2, hb⟩
            rw [show i + 1 + n = i + (n + 1) by omega] at hb
            exact ⟨h2, hpages2.trans hpages, hb.later (by simpa [nameAt] using hc)⟩

/-- The number in the first entry of a directory that carries the name. -/
def entryFor (d : Nat → Block) (v : Vinode) (name : Name) : Option Int :=
  ((List.range (totalDirentrys v.size)).find? (nameAt d v.addrs name)).map fun i =>
    getInt (d (addrOf v.addrs (i / 128)).toNat) (32 * (i % 128))

theorem Fetched.rfsLookup (h : Fetched s0 s) {sub : Ptr} {x : Dentry} (hv : s.vinode parent = some v)
    (hx : s.dentry sub = some x) : Post (Pke.rfsLookup parent sub) s (fun r s' => Fetched s0 s' ∧
      ((entryFor s0.disk v x.name = none ∧ r = none) ∨ ∃ n w, entryFor s0.disk v x.name = some n ∧
        r = some w ∧ s.pages w = .free ∧
        s'.vinode w = some (loadedVinode v.sb n (dinodeAt s0.disk n)))) fun _ => True := by
  refine .step (getVinode_run hv) (.step (getDentry_run hx) ?_)
  refine .bind (Fetched.rfsBrowse h fun h0 => absurd rfl h0) ?_
  rintro ⟨i, q⟩ s1 ⟨h1, hpages, hb⟩
  dsimp only
  simp only [Browsed, Nat.zero_add, Nat.zero_le, true_implies] at hb
  rcases hb with ⟨hend, hnone⟩ | ⟨-, hlt, htrue, hbefore, rfl, hio⟩
  · rw [if_pos hend]
    refine .pure ⟨h1, .inl ⟨?_, rfl⟩⟩
    rw [entryFor, Option.map_eq_none_iff, List.find?_range_eq_none]
    simpa using hnone
  · rw [if_neg (Nat.ne_of_lt hlt)]
    have hentry : entryFor s0.disk v x.name =
        some (getInt (s0.disk (addrOf v.addrs (i / 128)).toNat) (32 * (i % 128))) := by
      rw [entryFor, List.find?_range_eq_some.mpr ⟨htrue, List.mem_range.mpr hlt, by simpa using hbefore⟩]
      rfl
    refine .bindOption (fun _ => trivial) fun off hoff => .bindGet ?_
    obtain rfl : 32 * (i % 128) = off := Option.some.inj hoff
    rw [hio]
    refine .bind h1.rfsLoadVinode ?_
    rintro ⟨w, ret⟩ s2 ⟨hw, h2, hload⟩
    refine .ite (fun _ => .fault trivial) fun hret => ?_
    exact .pure ⟨h2, .inr ⟨_, w, hentry, rfl, hpages ▸ hw, hload (not_not.mp hret)⟩⟩

/-! ### Files of the host -/

theorem pathBacktrack_same : ∀ {depth : Nat} {t : Ptr},
    Post (pathBacktrack depth t) s (fun _ s' => s' = s) fun _ => True
  | 0, _ => .fault trivial
  | depth + 1, t => by
      refine .bindRead trivial fun x hx => .ite (fun _ => .pure rfl) fun _ => ?_
      refine .bind pathBacktrack_same ?_
      rintro _ _ rfl
      exact .pure rfl

theorem getPathString_same {t : Ptr} :
    Post (getPathString t) s (fun _ s' => s' = s) fun _ => True := by
  refine .bind pathBacktrack_same ?_
  rintro _ _ rfl
  exact .ite (fun _ => .pure rfl) fun _ => .fault trivial

/-- The pointer that `spike_file_open` returns. -/
def handleOrError : Except Int (Fin maxFiles) → Ptr
  | .ok f => handlePtr f
  | .error e => errPtr e

theorem spikeFileOpen_tree (sp : Spike) (path : List UInt8) :
    (sp.spikeFileOpen path false).2.host.tree = sp.host.tree := by
  rcases spikeFileOpen_found sp 0 path with ⟨e, -, -, hf⟩ | ⟨f, fd, -, -, hf⟩
  · exact hf.tree
  · exact hf.tree

/-- Other handles. -/
theorem Fetched.withSpike (h : Fetched s0 s) (sp : Spike) :
    Fetched { s0 with spike := sp } { s with spike := sp } :=
  ⟨⟨h.disk, rfl, h.root, h.used, h.super, h.table, h.start, h.pool⟩, h.vinodes, h.names, rfl⟩

theorem Walked.withSpike {sp : Spike} (h : sp.host.tree = s.spike.host.tree) :
    Walked s { s with spike := sp } :=
  ⟨⟨rfl, h, rfl, fun _ _ => .same, fun _ _ hB => hB, fun _ _ => rfl, rfl, fun _ => .inl⟩,
    fun _ _ he => he⟩

/-- A vinode without its references and what the file system keeps in it. -/
def Vinode.plain (v : Vinode) : Vinode := { v with ref := 0, iFsInfo := 0 }

/-- The vinode made from what the host says about a file. -/
def statVinode (sb : Ptr) (stat : Stat) : Vinode where
  inum := wrap32 stat.ino
  ref := 0
  size := wrap32 stat.size
  type := match stat.mode with
    | .dir => dirI
    | .reg | .other => fileI
  nlinks := wrap32 stat.nlink
  blocks := wrap32 stat.blocks
  addrs := fun _ => 0
  iFsInfo := 0
  sb := sb
  iOps := .hostfs

/-- What a vinode holds after `hostfs_update_vinode` has filled it through the handle. -/
def handleVinode (sp : Spike) (sb : Ptr) : Except Int (Fin maxFiles) → Option Vinode
  | .ok f => (sp.spikeFileStat f).map (statVinode sb)
  | .error e => some (dirVinode sb e).plain

/-- What the host has at a path, as a vinode. -/
def hostFinds (sp : Spike) (sb : Ptr) (path : List UInt8) : Option Vinode :=
  handleVinode (sp.spikeFileOpen path false).2 sb (sp.spikeFileOpen path false).1

theorem hostFinds_kind {sp : Spike} {path : List UInt8} {w : Vinode}
    (h : hostFinds sp sb path = some w.plain) : w.sb = sb ∧ w.iOps = .hostfs := by
  unfold hostFinds handleVinode at h
  split at h
  · obtain ⟨stat, -, heq⟩ := Option.map_eq_some_iff.mp h
    exact ⟨(congrArg Vinode.sb heq).symm, (congrArg Vinode.iOps heq).symm⟩
  · have heq := Option.some.inj h
    exact ⟨(congrArg Vinode.sb heq).symm, (congrArg Vinode.iOps heq).symm⟩

theorem Fetched.hostfsUpdateVinode (h : Fetched s0 s) {w : Ptr} {a : Except Int (Fin maxFiles)}
    (hw : s0.pages w = .free) (herr : ∀ e, a = .error e → isErrPtr (errPtr e) = true)
    (hv : s.vinode w = some
      { inum := -1, ref := 0, size := 0, type := 0, nlinks := 0, blocks := 0, addrs := fun _ => 0,
        iFsInfo := handleOrError a, sb := sb, iOps := .hostfs }) :
    Post (Pke.hostfsUpdateVinode w) s (fun _ s' => Fetched s0 s' ∧
      ∃ u, s'.vinode w = some u ∧ handleVinode s.spike sb a = some u.plain) fun _ => True := by
  have hset : ∀ (u : Vinode), (s.setPage w (.vinode u)).vinode w = some u :=
    fun u => congrArg Page.asVinode (State.setPage_self ..)
  refine .step (getVinode_run hv) ?_
  cases a with
  | error e =>
      rw [show handleOrError (.error e) = errPtr e from rfl, if_pos (herr e rfl)]
      exact .bindModify (.pure ⟨h.fillVinode hw _, _, hset _, rfl⟩)
  | ok f =>
      have hno : isErrPtr (handlePtr f) = false := isErrPtr_handlePtr f
      rw [show handleOrError (.ok f) = handlePtr f from rfl, if_neg (by simp [hno])]
      refine .bindOption (fun _ => trivial) fun g hg => .bindGet ?_
      obtain rfl := Option.some.inj ((handleAt_handlePtr f).symm.trans hg)
      refine .bindOption (fun _ => trivial) fun stat hstat => ?_
      dsimp only
      cases hmode : stat.mode
      all_goals
        refine .bindModify (.pure ⟨h.fillVinode hw _, _, hset _, ?_⟩)
        simp [handleVinode, hstat, statVinode, hmode, Vinode.plain]

theorem Fetched.hostfsLoadVinode (h : Fetched s0 s) {a : Except Int (Fin maxFiles)}
    (herr : ∀ e, a = .error e → isErrPtr (errPtr e) = true) :
    Post (Pke.hostfsLoadVinode sb (handleOrError a)) s (fun r s' => s.pages r.1 = .free ∧
      Fetched s0 s' ∧ ∃ u, s'.vinode r.1 = some u ∧ handleVinode s.spike sb a = some u.plain)
      fun _ => True := by
  refine .bind (R := fun w s1 => s.pages w = .free ∧ s1.vinode w = some
    { inum := -1, ref := 0, size := 0, type := 0, nlinks := 0, blocks := 0, addrs := fun _ => 0,
      iFsInfo := 0, sb := sb, iOps := .hostfs } ∧ Fetched s0 s1) ?_ ?_
  · refine .bind h.defaultAllocVinode ?_
    rintro w s1 ⟨hw, hv, h1⟩
    refine .step (getVinode_run hv) (.bindModify (.pure ⟨hw, ?_, h1.fillVinode (h.fresh hw) _⟩))
    exact congrArg Page.asVinode (State.setPage_self ..)
  · rintro w s1 ⟨hw, hv, h1⟩
    refine .step (getVinode_run hv) (.bindModify ?_)
    refine .bind ((h1.fillVinode (h.fresh hw) _).hostfsUpdateVinode (h.fresh hw) herr
      (congrArg Page.asVinode (State.setPage_self ..))) ?_
    rintro _ s2 ⟨h2, hu⟩
    have hspike : s1.spike = s.spike := h1.spike.trans h.spike.symm
    exact .pure ⟨hw, h2, hspike ▸ hu⟩

/-- `hostfs_lookup` finds every name. -/
theorem hostfsLookup_fetched {sub : Ptr} (hv : s.vinode parent = some v) :
    Post (hostfsLookup parent sub) s (fun r s' => ∃ w path u, r = some w ∧ s.pages w = .free ∧
      getPathString sub s = .ok (path, s) ∧
      Fetched { s with spike := (s.spike.spikeFileOpen path false).2 } s' ∧ s'.vinode w = some u ∧
      hostFinds s.spike v.sb path = some u.plain) fun _ => True := by
  refine .bind (R := fun path s1 => s1 = s ∧ getPathString sub s = .ok (path, s)) ?_ ?_
  · refine .intro (fun path s1 hpath => ?_) fun _ _ => trivial
    obtain rfl := getPathString_same.of_ok hpath
    exact ⟨rfl, hpath⟩
  rintro path s1 ⟨hs, hpath⟩
  obtain rfl : s = s1 := hs.symm
  refine .bind (R := fun q s1 => q = handleOrError (s.spike.spikeFileOpen path false).1 ∧
    s1 = { s with spike := (s.spike.spikeFileOpen path false).2 }) ?_ ?_
  · refine .bindGet (.bindModify ?_)
    cases hopen : (s.spike.spikeFileOpen path false).1 with
    | ok f => exact .pure ⟨rfl, rfl⟩
    | error e => exact .pure ⟨rfl, rfl⟩
  rintro _ _ ⟨rfl, rfl⟩
  refine .step (getVinode_run (s := { s with spike := _ }) hv) ?_
  refine .bind ((Fetched.refl _).hostfsLoadVinode fun e he => ?_) ?_
  · rcases spikeFileOpen_found s.spike 0 path with ⟨e', he', herr, -⟩ | ⟨f, fd, hf, -⟩
    · obtain rfl : e' = e := by simpa using he'.symm.trans he
      exact herr
    · cases hf.symm.trans he
  rintro ⟨w, ret⟩ s2 ⟨hw, h2, u, hu, hfinds⟩
  exact .step (getVinode_run hu) (.bindModify (.pure ⟨w, path, { u with ref := 0 }, rfl, hw, hpath,
    h2.fillVinode hw _, congrArg Page.asVinode (State.setPage_self ..), hfinds⟩))

/-! ### The tables -/

/-- `hash_get_vinode`, as a function of the state. -/
def State.cachedAt (s : State) (k : VinodeKey) : Option Ptr :=
  if k.inum < 0 then none else (s.vinodeHash.find? vinodeHashOps k).map (·.value)

/-- `hash_get_vinode` reads. -/
theorem hashGetVinode_same {inum : Int} {E : Fault → Prop} :
    Post (hashGetVinode sb inum) s (fun q s' => s' = s ∧ q = s.cachedAt ⟨inum, sb⟩) E :=
  .ite (fun hneg => .pure ⟨rfl, by rw [State.cachedAt, if_pos hneg]⟩) fun hneg =>
    .bindGet (.pure ⟨rfl, by rw [State.cachedAt, if_neg hneg]; rfl⟩)

/-- An object is entered into a table, unless its key is taken. -/
theorem hashPut_fetched {K : Type} {T : Table K} {k : K} {w : Ptr}
    (hread : ∀ {s' : State}, Fetched s s' → T.read s' = T.read s) :
    Post (hashPut T k w) s (fun _ s' =>
      (Fetched s s' ∧ (T.read s).find? T.ops k ≠ none) ∨
      ∃ s1 node, Fetched s s1 ∧ (T.read s).find? T.ops k = none ∧
        s' = T.write ((T.read s).insert T.ops ⟨node, k, w⟩) s1) fun _ => True := by
  refine .bind (Fetched.refl s).allocPage ?_
  rintro key s1 ⟨hkey, -, ⟨l, rfl⟩, h1⟩
  refine .bind (R := fun ret s2 =>
    (ret ≠ 0 ∧ Fetched s s2 ∧ (T.read s).find? T.ops k ≠ none) ∨
    (ret = 0 ∧ ∃ s3 node, Fetched s s3 ∧ (T.read s).find? T.ops k = none ∧
      s2 = T.write ((T.read s).insert T.ops ⟨node, k, w⟩) s3)) ?_ ?_
  · refine .bind h1.allocPage ?_
    rintro node s2 ⟨hnode, -, ⟨l2, rfl⟩, h2⟩
    refine .bindGet ?_
    rw [hread h2]
    cases hfind : (T.read s).find? T.ops k with
    | some e => exact .pure (.inl ⟨by decide, h2, nofun⟩)
    | none =>
        have h3 := h2.fill (h1.fresh hnode) (.hashNode (T.tag k)) nofun rfl
        refine .bindModify (.pure (.inr ⟨rfl, _, node, h3, rfl, ?_⟩))
        rw [hread h2]
  · rintro ret s2 (⟨hret, h2, hsome⟩ | ⟨rfl, hput⟩)
    · rw [if_pos hret]
      refine .bind (h2.freePage hkey) ?_
      rintro _ s3 ⟨rfl, h3⟩
      exact .pure (.inl ⟨h3, hsome⟩)
    · rw [if_neg (by decide)]
      exact .pure (.inr hput)

/-- The tables are no pages. -/
theorem Fetched.withTables (h : Fetched s0 s) (a : HashTable VinodeKey Ptr)
    (b : HashTable DentryKey Ptr) : Kept s0 { s with vinodeHash := a, dentryHash := b } :=
  ⟨h.disk, h.tree, h.root, h.used, h.super, h.table, h.start, h.pool⟩

/-- The vinode cache with a vinode more. -/
theorem hashPutVinode_kept {w : Ptr} (hv : s.vinode w = some v) :
    Post (hashPutVinode w) s (fun _ s' => Kept s s' ∧ s'.spike = s.spike ∧
      s'.dentryHash = s.dentryHash ∧ ∀ k, s'.cachedAt k = (s.cachedAt k).or
        (if k = v.key ∧ 0 ≤ v.inum then some w else none)) fun _ => True := by
  have hsame : ∀ {t : State}, t.vinodeHash = s.vinodeHash → ¬0 ≤ v.inum ∨ s.cachedAt v.key ≠ none →
      ∀ k, t.cachedAt k = (s.cachedAt k).or (if k = v.key ∧ 0 ≤ v.inum then some w else none) := by
    intro t ht hno k
    rw [State.cachedAt, ht, ← State.cachedAt]
    by_cases hk : k = v.key ∧ 0 ≤ v.inum
    · obtain ⟨rfl, hpos⟩ := hk
      obtain ⟨q, hq⟩ := Option.ne_none_iff_exists'.mp (hno.resolve_left (not_not.mpr hpos))
      rw [hq]
      rfl
    · rw [if_neg hk, Option.or_none]
  refine .step (getVinode_run hv) (.ite (fun hneg => .pure ?_) fun hpos => ?_)
  · exact ⟨(Fetched.refl s).toFrame, rfl, rfl, hsame rfl (.inl (Int.not_le.mpr hneg))⟩
  have hfinds : ∀ t : State, t.cachedAt v.key =
      (t.vinodeHash.find? vinodeHashOps v.key).map (·.value) := fun t => if_neg hpos
  refine (hashPut_fetched fun h => h.vinodes).mono ?_
  rintro _ s' (⟨h, hsome⟩ | ⟨s1, node, h, hnone, rfl⟩)
  · refine ⟨h.toFrame, h.spike, h.names, hsame h.vinodes (.inr ?_)⟩
    rw [hfinds]
    exact fun hnone => hsome (Option.map_eq_none_iff.mp hnone)
  · refine ⟨h.withTables _ _, h.spike, h.names, fun k => ?_⟩
    by_cases hk : v.key = k
    · subst hk
      have hnone' : s.cachedAt v.key = none :=
        (hfinds s).trans (congrArg (Option.map (·.value)) hnone)
      rw [if_pos ⟨rfl, Int.not_lt.mp hpos⟩, hnone', hfinds]
      exact congrArg (Option.map (·.value)) (HashTable.find?_insert_self
        (e := ⟨node, v.key, w⟩) vinodeHashOps_lawful (vinodeHashOps_equal.mpr rfl))
    · rw [if_neg fun hc => hk hc.1.symm, Option.or_none, State.cachedAt, State.cachedAt]
      exact if_congr Iff.rfl rfl (congrArg (Option.map (·.value))
        (HashTable.find?_insert_ne (vinodeHashOps_ne hk)))

theorem hashPutVinode_walked {w : Ptr} :
    Post (hashPutVinode w) s (fun _ s' => Walked s s') fun _ => True := by
  refine .bindRead trivial fun v hv => .ite (fun _ => .pure (.refl s)) fun _ => ?_
  refine (hashPut_fetched fun h => h.vinodes).mono ?_
  rintro _ s' (⟨h, -⟩ | ⟨s1, node, h, hnone, rfl⟩)
  · exact h.toWalked
  · refine Kept.walked (h.withTables _ _) fun k e he => ?_
    have hne : v.key ≠ k := by
      rintro rfl
      exact nomatch he.symm.trans hnone
    exact (HashTable.find?_insert_ne (vinodeHashOps_ne hne)).trans he

/-- The table of dentries with a dentry more. -/
theorem hashPutDentry_kept {t : Ptr} {x : Dentry} (hx : s.dentry t = some x) :
    Post (hashPutDentry t) s (fun _ s' => Kept s s' ∧ s'.spike = s.spike ∧
      s'.vinodeHash = s.vinodeHash ∧ ∀ k e, s'.dentryHash.find? dentryHashOps k = some e →
        s.dentryHash.find? dentryHashOps k = some e ∨ k = x.key ∧ e.value = t) fun _ => True := by
  refine .step (getDentry_run hx) ((hashPut_fetched fun h => h.names).mono ?_)
  rintro _ s' (⟨h, -⟩ | ⟨s1, node, h, -, rfl⟩)
  · exact ⟨h.toFrame, h.spike, h.vinodes, fun k e he => .inl (h.names ▸ he)⟩
  · refine ⟨h.withTables _ _, h.spike, h.vinodes, fun k e he => ?_⟩
    by_cases hk : x.key = k
    · have hself := HashTable.find?_insert_self (t := s.dentryHash)
        (e := ⟨node, x.key, t⟩) dentryHashOps_lawful (dentryHashOps_equal.mpr hk)
      exact .inr ⟨hk.symm, Option.some.inj (he.symm.trans hself) ▸ rfl⟩
    · exact .inl ((HashTable.find?_insert_ne (dentryHashOps_ne hk)).symm.trans he)

theorem hashPutDentry_walked {t : Ptr} :
    Post (hashPutDentry t) s (fun _ s' => Walked s s') fun _ => True := by
  refine .bindRead trivial fun x hx => (hashPut_fetched fun h => h.names).mono ?_
  rintro _ s' (⟨h, -⟩ | ⟨s1, node, h, -, rfl⟩)
  · exact h.toWalked
  · exact Kept.walked (h.withTables _ _) fun k e he => h.vinodes ▸ he

end

/-! ## The lookup of a component -/

section

variable {s0 : State}

theorem Walked.fill (h : Walked s0 s) (hp : s0.pages p = .free) (c : Page)
    (hc : ∀ B, c ≠ .superBlock B) (ht : c.isTable = false) : Walked s0 (s.setPage p c) :=
  ⟨h.toFrame.fill hp hc ht, h.cached⟩

theorem Walked.freePage (h : Walked s0 s) (hp : s0.pages p = .free) :
    Post (Pke.freePage p) s (fun _ s' => Walked s0 s') fun _ => True :=
  .bindGet (.ite (fun _ => .fault trivial) fun hok => .modify ⟨h.toFrame.push hp hok, h.cached⟩)

/-- A vinode gets another number of references. -/
theorem Walked.setRef (h : Walked s0 s) (hv : s.vinode p = some v) (n : Int) :
    Walked s0 (s.setPage p (.vinode { v with ref := n })) := by
  have hpage : s.pages p = .vinode v := vinodeKind.eq_inj hv
  by_cases hp : s0.pages p = .free
  · exact h.fill hp _ nofun rfl
  · refine ⟨⟨h.disk, h.tree, h.root, fun q hq => ?_, fun q B hB => ?_, fun q hq => ?_, h.start,
      h.pool⟩, h.cached⟩
    · rcases eq_or_ne q p with rfl | hne
      · rw [State.setPage_self]
        exact (h.used q hq).trans (.ref hpage n)
      · rw [State.setPage_ne hne]
        exact h.used q hq
    · rcases eq_or_ne q p with rfl | hne
      · rw [State.setPage_self] at hB
        cases hB
      · rw [State.setPage_ne hne] at hB
        exact h.super q B hB
    · rcases eq_or_ne q p with rfl | hne
      · rw [State.setPage_self] at hq
        cases hq
      · rw [State.setPage_ne hne] at hq ⊢
        exact h.table q hq

theorem Walked.addRef (h : Walked s0 s) (n : Int) :
    Post (Pke.addRef p n) s (fun _ s' => Walked s0 s') fun _ => True :=
  .bindRead trivial fun _ hv => .modify (h.setRef hv _)

theorem Walked.bindFound (h : Walked s0 s) {found : Ptr} (hthis : s0.pages this = .free)
    (hfound : s0.pages found = .free) :
    Post (Pke.bindFound this found) s (fun _ s' => Walked s0 s') fun _ => True := by
  refine .bindRead trivial fun f hf => .bindRead trivial fun x hx => ?_
  refine .bind hashGetVinode_same ?_
  rintro q _ ⟨rfl, -⟩
  cases q with
  | some same =>
      refine .bindModify (.bind ((h.fill hthis (.dentry _) nofun rfl).addRef 1) fun _ s2 h2 => ?_)
      exact h2.freePage hfound
  | none =>
      refine .bindModify (.bind ((h.fill hthis (.dentry _) nofun rfl).addRef 1) fun _ s2 h2 => ?_)
      exact .bind hashPutVinode_walked fun _ s3 h3 => .pure (h2.trans h3)

theorem opsOf_reads {host : VinodeOps} {w : Ptr} {E : Fault → Prop} (hE : E (.ub "vinode")) :
    Post (opsOf host w) s (fun ops s' => s' = s ∧
      ∃ v, s.vinode w = some v ∧ ops = iOps host v.iOps) E :=
  .bindRead hE fun v hv => .pure ⟨rfl, v, hv, rfl⟩

theorem cacheFound_walked {found : Ptr} (h : Walked s0 s) (hthis : s0.pages this = .free)
    (hfound : s0.pages found = .free) :
    Post (cacheFound this found) s (fun _ s' => Walked s0 s') fun _ => True := by
  refine .bind (h.bindFound hthis hfound) fun _ s1 h1 => ?_
  exact .bind hashPutDentry_walked fun _ s2 h2 => .pure (h1.trans h2)

end

theorem lookupToken_walked {token : Name} :
    Post (lookupToken hostfsIOps parent token) s (fun _ s' => Walked s s') fun _ => True := by
  refine .bind (R := fun _ s' => s' = s) (.bindGet (.pure rfl)) ?_
  rintro q _ rfl
  cases q with
  | some t => exact .pure (.refl _)
  | none =>
      refine .bind (Fetched.refl _).allocVfsDentry ?_
      rintro this s1 ⟨hthis, -, hdentry, h1⟩
      refine .bindRead trivial fun x hx => .bind (opsOf_reads trivial) ?_
      rintro _ s1 ⟨rfl, v, hv, rfl⟩
      cases hops : v.iOps with
      | rfs =>
          refine .bind ((Fetched.refl s1).rfsLookup hv hdentry) ?_
          rintro q s2 ⟨h2, ⟨-, rfl⟩ | ⟨n, w, -, rfl, hw, -⟩⟩
          · exact .bind ((h1.trans h2).freePage hthis) fun _ s3 h3 => .pure h3.2.toWalked
          · exact .bind (cacheFound_walked (h1.trans h2).toWalked hthis (h1.fresh hw))
              fun _ s3 h3 => .pure h3
      | hostfs =>
          refine .bind (hostfsLookup_fetched hv) ?_
          rintro _ s2 ⟨w, path, u, rfl, hw, -, h2, -⟩
          have hw2 := h1.toWalked.trans ((Walked.withSpike (spikeFileOpen_tree ..)).trans h2.toWalked)
          exact .bind (cacheFound_walked hw2 hthis (h1.fresh hw)) fun _ s3 h3 => .pure h3

/-- The induction is on the components left. -/
theorem lookupTokens_walked : ∀ {tokens : List Name} {this parent : Ptr} {s : State},
    Post (lookupTokens hostfsIOps tokens this parent) s (fun _ s' => Walked s s') fun _ => True
  | [], _, _, s => .pure (.refl s)
  | token :: rest, this, parent, s => by
      refine .bind lookupToken_walked fun q s1 h1 => ?_
      cases q with
      | none => exact .pure h1
      | some next => exact lookupTokens_walked.mono fun _ s2 h2 => h1.trans h2

theorem copyPath_same {path : Path} :
    Post (copyPath path) s (fun _ s' => s' = s) fun _ => True :=
  .ite (fun _ => .pure rfl) fun _ => .fault trivial

theorem lookupFinalDentry_walked {path : Path} :
    Post (lookupFinalDentry hostfsIOps path) s (fun _ s' => Walked s s') fun _ => True := by
  refine .bind copyPath_same ?_
  rintro _ s rfl
  exact .bindGet lookupTokens_walked

end Pke
