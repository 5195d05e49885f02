import Pke.FailedCreation
import Pke.ProcFile

/-!
# What the file system leaves of the open files

The functions of the VFS run in any state of the kernel. A file that is not
the one they are called with stays as it is, and so does the page of a table:
what they write is a page that was free, or one they have found an object of
another kind in. `KeepsFiles s s'` says this of the files and tables at the
addresses `A`.

What they free is, in some functions, a page whose number they have from
another page (`default_erase`, `rfs_hook_closedir`), and nothing is known of
that page here. `free_page` refuses an address inside a page, so the entries
of a table are safe from it.
-/

namespace Pke

open Exec (Post get modify fault)

/-- The tables and files are the same, there is no new table, and inside a page no file that
was not there. -/
structure KeepsFiles (s s' : State) : Prop where
  same : ∀ p, (s.pages p).isTable = true → s'.pages p = s.pages p
  inside : ∀ p f, p % pgSize ≠ 0 → s'.pages p = .file f → (s.pages p).isTable = true
  tables : ∀ p m, s'.pages p = .procFiles m → s.pages p = .procFiles m
  aligned : s'.FreeAligned

/-- There is no table and no file at `p`. -/
def Off (s : State) (p : Ptr) : Prop := (s.pages p).isTable = false

/-- The function leaves the tables and files of `s0` as they are. -/
abbrev Keeps {α : Type} (s0 : State) (x : Kern α) (s : State) : Prop :=
  Post x s (fun _ s' => KeepsFiles s0 s') fun _ => True

variable {n : Int} {t dentry inode : Ptr} {path : Path}

section

variable {s0 s s' : State} {p : Ptr}

namespace KeepsFiles

theorem refl (h : s.FreeAligned) : KeepsFiles s s :=
  ⟨fun _ _ => rfl, fun _ _ _ hf => by rw [hf]; rfl, fun _ _ hm => hm, h⟩

section

variable (h : KeepsFiles s0 s)

include h

theorem trans (h' : KeepsFiles s s') : KeepsFiles s0 s' := by
  refine ⟨fun p htable => ?_, fun p f hmod hf => ?_, fun p m hm => ?_, h'.aligned⟩
  · have hsame := h.same p htable
    exact (h'.same p (by rw [hsame]; exact htable)).trans hsame
  · have htable := h'.inside p f hmod hf
    rw [h'.same p htable] at hf
    exact h.inside p f hmod hf
  · exact h.tables p m (h'.tables p m hm)

/-- What is no file now was none at the start. -/
theorem off (hp : (s.pages p).isTable = false) : Off s0 p := by
  by_contra htable
  rw [h.same p (Bool.of_not_eq_false htable)] at hp
  exact htable hp

theorem off_dentry {x : Dentry} (hx : s.dentry p = some x) : Off s0 p :=
  h.off (by rw [show s.pages p = .dentry x from dentryKind.eq_inj hx]; rfl)

theorem off_vinode {v : Vinode} (hv : s.vinode p = some v) : Off s0 p :=
  h.off (by rw [show s.pages p = .vinode v from vinodeKind.eq_inj hv]; rfl)

theorem off_superBlock {B : SuperBlock} (hB : s.superBlock p = some B) : Off s0 p :=
  h.off (by rw [show s.pages p = .superBlock B from superBlockKind.eq_inj hB]; rfl)

theorem store (hp : Off s0 p) (c : Page)
    (hfile : ∀ f, c = .file f → p % pgSize = 0 ∨ (s0.pages p).isTable = true)
    (htable : ∀ m, c ≠ .procFiles m) : KeepsFiles s0 (s.setPage p c) := by
  refine ⟨fun q hq => ?_, fun q f hmod hf => ?_, fun q m hm => ?_, h.aligned⟩
  · have hne : q ≠ p := by
      rintro rfl
      rw [hp] at hq
      cases hq
    rw [State.setPage_ne hne]
    exact h.same q hq
  · rcases eq_or_ne q p with rfl | hne
    · rw [State.setPage_self] at hf
      exact (hfile f hf).resolve_left hmod
    · rw [State.setPage_ne hne] at hf
      exact h.inside q f hmod hf
  · rcases eq_or_ne q p with rfl | hne
    · rw [State.setPage_self] at hm
      exact absurd hm (htable m)
    · rw [State.setPage_ne hne] at hm
      exact h.tables q m hm

theorem set (hp : Off s0 p) (c : Page) (hc : c.isTable = false) :
    KeepsFiles s0 (s.setPage p c) := by
  refine h.store hp c ?_ ?_
  · rintro f rfl
    cases hc
  · rintro m rfl
    cases hc

/-- A file is stored in a page that is its own, or where one was. -/
theorem setFile (hp : Off s0 p) (f : File) (hown : p % pgSize = 0 ∨ (s0.pages p).isTable = true) :
    KeepsFiles s0 (s.setPage p (.file f)) :=
  h.store hp _ (fun _ _ => hown) fun _ hm => by cases hm

/-- Everything but the pages may change. -/
theorem pages (hpages : s'.pages = s.pages) (hfree : s'.freePages = s.freePages) :
    KeepsFiles s0 s' := by
  refine ⟨fun q hq => ?_, fun q f hmod hf => ?_, fun q m hm => ?_, ?_⟩
  · rw [hpages]
    exact h.same q hq
  · rw [hpages] at hf
    exact h.inside q f hmod hf
  · rw [hpages] at hm
    exact h.tables q m hm
  · unfold State.FreeAligned
    rw [hfree]
    exact h.aligned

theorem walked (hw : Walked s s') : KeepsFiles s0 s' := by
  refine ⟨fun q hq => ?_, fun q f hmod hf => ?_, fun q m hm => ?_, hw.aligned h.aligned⟩
  · have hsame := h.same q hq
    rw [← hsame] at hq ⊢
    have hused : s.pages q ≠ .free := by
      intro hfree
      rw [hfree] at hq
      cases hq
    refine (hw.used q hused).eq_of_other fun v hv => ?_
    rw [hv] at hq
    cases hq
  · exact h.inside q f hmod ((hw.table q (by rw [hf]; rfl)).trans hf)
  · exact h.tables q m ((hw.table q (by rw [hm]; rfl)).trans hm)

/-! ## Pages -/

theorem allocPage : Post Pke.allocPage s
    (fun p s' => p % pgSize = 0 ∧ Off s0 p ∧ KeepsFiles s0 s') fun _ => True := by
  unfold Pke.allocPage
  refine .bindGet ?_
  split
  · exact .fault trivial
  · rename_i p rest hfree
    refine .ite (fun hp => .bindModify (.pure ?_)) fun _ => .fault trivial
    have hlisted : ∀ q ∈ p :: rest, q % pgSize = 0 := hfree ▸ h.aligned
    have hoff : Off s0 p := h.off (by rw [Page.eq_free hp]; rfl)
    have hset := h.set hoff .raw rfl
    exact ⟨hlisted p List.mem_cons_self, hoff, hset.same, hset.inside, hset.tables,
      fun q hq => hlisted q (List.mem_cons_of_mem p hq)⟩

theorem freePage (hp : Off s0 p) : Keeps s0 (Pke.freePage p) s := by
  refine .bindGet (.ite (fun _ => .fault trivial) fun hok => .modify ?_)
  have hset := h.set hp .free rfl
  exact ⟨hset.same, hset.inside, hset.tables, State.FreeAligned.cons hok h.aligned⟩

theorem addRef (n : Int) : Keeps s0 (Pke.addRef p n) s :=
  .bindRead trivial fun _ hv => .modify (h.set (h.off_vinode hv) _ rfl)

/-! ## Blocks of the disk -/

theorem rfsR1block : Keeps s0 (Pke.rfsR1block n) s :=
  rfsR1block_reads.mono fun _ _ hs => h.pages (hs ▸ rfl) (hs ▸ rfl)

theorem rfsW1block : Keeps s0 (Pke.rfsW1block n) s :=
  .ite (fun _ => .fault trivial) fun _ => .bindModify (.pure (h.pages rfl rfl))

theorem addrAt {addrs : Fin directBlknum → Int} {i : Int} : Keeps s0 (Pke.addrAt addrs i) s := by
  unfold Pke.addrAt
  split
  · exact .pure h
  · exact .fault trivial

theorem rfsWriteDinode {di : Dinode} : Keeps s0 (Pke.rfsWriteDinode di n) s := by
  refine .bind h.rfsR1block fun _ s1 h1 => ?_
  refine .ite (fun _ => .fault trivial) fun _ => .bindModify ?_
  exact .ite (fun _ => .fault trivial) fun _ => .bindModify (.pure (h1.pages rfl rfl))

theorem rfsWriteBackVinode : Keeps s0 (Pke.rfsWriteBackVinode p) s := by
  refine .bindRead trivial fun v hv => .bind h.rfsWriteDinode fun _ s1 h1 => ?_
  exact .ite (fun _ => .pure h1) fun _ => .pure h1

/-! ## Creating a file -/

theorem rfsNewInode {sb : Ptr} {type : Int} : Keeps s0 (Pke.rfsNewInode sb type) s := by
  refine .bind (Fetched.refl s).rfsFindFreeInode ?_
  rintro ⟨n, page, di⟩ s1 ⟨h1, hpage⟩
  have hoff : Off s0 page := h.off (by rw [hpage]; rfl)
  refine .bind rfsAllocBlock_takes ?_
  rintro _ _ ⟨B, k, hB, -, rfl⟩
  have hk1 := h.walked h1.toWalked
  refine .bind setAddr_same ?_
  rintro _ _ rfl
  refine .bind (hk1.set (hk1.off_superBlock hB) _ rfl).rfsWriteDinode fun _ s3 h3 => ?_
  exact .bind (h3.freePage hoff) fun _ s4 h4 => .pure h4

theorem rfsAddDirentry {dir : Ptr} {name : Name} {inum : Int} :
    Keeps s0 (Pke.rfsAddDirentry dir name inum) s := by
  refine .bindRead trivial fun v hv => .ite (fun _ => .pure h) fun _ => ?_
  have hoff := h.off_vinode hv
  refine .bind h.addrAt fun _ s1 h1 => .bind h1.rfsR1block fun _ s2 h2 => ?_
  refine .ite (fun _ => .pure h2) fun _ => .ite (fun _ => .fault trivial) fun _ => ?_
  refine .bindModify (.bind (R := fun _ s' => KeepsFiles s0 s') (KeepsFiles.rfsW1block ?_) ?_)
  · exact h2.pages rfl rfl
  intro _ s3 h3
  refine .ite (fun _ => .pure h3) fun _ => .bindModify ?_
  refine .bind (h3.set hoff _ rfl).rfsWriteBackVinode fun _ s4 h4 => ?_
  exact .ite (fun _ => .pure h4) fun _ => .pure h4

theorem rfsCreate {parent sub : Ptr} : Keeps s0 (Pke.rfsCreate parent sub) s := by
  refine .bindRead trivial fun v hv => .bind h.rfsNewInode fun n s1 h1 => ?_
  refine .bind (Fetched.refl s1).rfsLoadVinode ?_
  rintro ⟨w, ret⟩ s2 ⟨-, h2, -⟩
  refine .bindRead trivial fun x hx => ?_
  refine .bind (h1.walked h2.toWalked).rfsAddDirentry fun _ s3 h3 => ?_
  exact .ite (fun _ => .pure h3) fun _ => .pure h3

theorem getPathString : Keeps s0 (Pke.getPathString t) s := by
  refine .bind pathBacktrack_same ?_
  rintro _ _ rfl
  exact .ite (fun _ => .pure h) fun _ => .fault trivial

theorem openHandle {path : List UInt8} {creat : Bool} : Keeps s0 (Pke.openHandle path creat) s := by
  refine .bindGet (.bindModify ?_)
  split
  · exact .pure (h.pages rfl rfl)
  · exact .pure (h.pages rfl rfl)

theorem hostfsAllocVinode {sb : Ptr} : Keeps s0 (Pke.hostfsAllocVinode sb) s := by
  refine .bind (Fetched.refl s).defaultAllocVinode ?_
  rintro w s1 ⟨-, -, h1⟩
  have hk1 := h.walked h1.toWalked
  exact .bindRead trivial fun v hv => .bindModify (.pure (hk1.set (hk1.off_vinode hv) _ rfl))

theorem hostfsUpdateVinode : Keeps s0 (Pke.hostfsUpdateVinode p) s := by
  refine .bindRead trivial fun v hv => ?_
  have hset : ∀ u, KeepsFiles s0 (s.setPage p (.vinode u)) :=
    fun u => h.set (h.off_vinode hv) _ rfl
  refine .ite (fun _ => .bindModify (.pure (hset _))) fun _ => ?_
  refine .bindOption (fun _ => trivial) fun f _ => .bindGet ?_
  refine .bindOption (fun _ => trivial) fun stat _ => ?_
  dsimp only
  split <;> exact .bindModify (.pure (hset _))

theorem hostfsLoadVinode {sb f : Ptr} : Keeps s0 (Pke.hostfsLoadVinode sb f) s := by
  refine .bind h.hostfsAllocVinode fun w s1 h1 => .bindRead trivial fun v hv => .bindModify ?_
  exact .bind (h1.set (h1.off_vinode hv) _ rfl).hostfsUpdateVinode fun _ s2 h2 => .pure h2

theorem hostfsCreate {parent sub : Ptr} : Keeps s0 (Pke.hostfsCreate parent sub) s := by
  refine .bind h.getPathString fun path s1 h1 => .bind h1.openHandle fun f s2 h2 => ?_
  refine .ite (fun _ => .pure h2) fun _ => .bindRead trivial fun v hv => ?_
  refine .bind h2.hostfsLoadVinode ?_
  rintro ⟨w, ret⟩ s3 hk3
  refine .ite (fun _ => .pure hk3) fun _ => .bindRead trivial fun u hu => ?_
  exact .bindModify (.pure (hk3.set (hk3.off_vinode hu) _ rfl))

theorem cacheCreated : Keeps s0 (Pke.cacheCreated dentry inode) s := by
  refine .bindRead trivial fun x hx => .bindModify ?_
  refine .bind ((h.set (h.off_dentry hx) _ rfl).addRef 1) fun _ s1 h1 => ?_
  refine .bind hashPutDentry_walked fun _ s2 h2 => ?_
  refine .bind hashPutVinode_walked fun _ s3 h3 => ?_
  exact .pure ((h1.walked h2).walked h3)

theorem openCreate {r : LookupResult} : Keeps s0 (Pke.openCreate hostfsIOps path r) s := by
  refine .bind getBaseName_reads ?_
  rintro name s ⟨rfl, -⟩
  refine .ite (fun _ => .pure h) fun _ => ?_
  refine .bind (Fetched.refl _).allocVfsDentry ?_
  rintro t s1 ⟨-, -, -, h1⟩
  refine .bindRead trivial fun x hx => .bind (opsOf_reads trivial) ?_
  rintro _ s2 ⟨rfl, v, hv, rfl⟩
  have hk1 := h.walked h1.toWalked
  have hcreate : Keeps s0 ((iOps hostfsIOps v.iOps).viopCreate x.dentryInode t) s2 := by
    cases v.iOps with
    | rfs => exact hk1.rfsCreate
    | hostfs => exact hk1.hostfsCreate
  refine .bind hcreate fun q s3 h3 => ?_
  cases q with
  | none => exact .fault trivial
  | some inode => exact .bind h3.cacheCreated fun _ s4 h4 => .pure h4

/-! ## Opening -/

/-- The file at `p` is open and not one of those there were before. -/
def NewFile (s0 s : State) (p : Ptr) : Prop :=
  p % pgSize = 0 ∧ Off s0 p ∧ ∃ f, s.pages p = .file f ∧ f.status = .opened

theorem allocVfsFile {readable writable : Bool} :
    Post (Pke.allocVfsFile t readable writable) s (fun p s' => KeepsFiles s0 s' ∧
      NewFile s0 s' p) fun _ => True := by
  refine .bind h.allocPage ?_
  rintro p s1 ⟨hmod, hp, h1⟩
  refine .bindRead trivial fun x hx => .bindModify (.bindModify (.pure ⟨?_, hmod, hp, ?_⟩))
  · exact (h1.set (h1.off_dentry hx) _ rfl).setFile hp _ (.inl hmod)
  · exact ⟨_, State.setPage_self .., rfl⟩

theorem hostfsHookOpen : Keeps s0 (Pke.hostfsHookOpen inode dentry) s := by
  refine .bindRead trivial fun v hv => .ite (fun _ => .pure h) fun _ => ?_
  refine .bind h.getPathString fun path s1 h1 => .bind h1.openHandle fun f s2 h2 => ?_
  refine .ite (fun _ => .pure h2) fun _ => .bindRead trivial fun u hu => ?_
  exact .bindModify (.pure (h2.set (h2.off_vinode hu) _ rfl))

end

theorem rfsCacheBlocks {addrs : Fin directBlknum → Int} : ∀ {n : Nat} {pdire : Ptr} {s : State},
    KeepsFiles s0 s → Keeps s0 (Pke.rfsCacheBlocks addrs n pdire) s
  | 0, _, _, h => .pure h
  | n + 1, previous, s, h => by
      refine .bind h.allocPage ?_
      rintro p s1 ⟨-, hp, h1⟩
      refine .ite (fun _ => .fault trivial) fun _ => ?_
      refine .bind h1.addrAt fun _ s2 h2 => .bind h2.rfsR1block fun _ s3 h3 => ?_
      exact .bindModify (h3.set hp _ rfl).rfsCacheBlocks

theorem rfsHookOpendir (h : KeepsFiles s0 s) {w : Ptr} : Keeps s0 (Pke.rfsHookOpendir w) s := by
  refine .bindRead trivial fun v hv => .bind h.rfsCacheBlocks fun _ s1 h1 => ?_
  refine .bind h1.allocPage ?_
  rintro p s2 ⟨-, hp, h2⟩
  exact .bindModify (.bindModify (.pure ((h2.set hp _ rfl).set (h.off_vinode hv) _ rfl)))

/-- The hook runs after the file has been made. -/
theorem runHook {hook : Option (Ptr → Ptr → Kern Int)} (h : KeepsFiles s0 s)
    (hhook : ∀ g, hook = some g → Keeps s0 (g inode dentry) s) :
    Keeps s0 (Pke.runHook hook inode dentry) s := by
  cases hook with
  | none => exact .pure h
  | some g => exact .bind (hhook g rfl) fun _ _ h1 => .pure h1

/-- The answer is a new open file, if it is one. -/
def Opened (s0 : State) (r : Option Ptr) (s : State) : Prop :=
  KeepsFiles s0 s ∧ ∀ p, r = some p → NewFile s0 s p

theorem opened_none (h : KeepsFiles s0 s) : Opened s0 none s := ⟨h, fun _ hp => by cases hp⟩

/-- What runs after the file has been made leaves it as it is. -/
theorem opened_some (h : KeepsFiles s0 s) (hp : NewFile s0 s p) (h' : KeepsFiles s s') :
    Opened s0 (some p) s' := by
  refine ⟨h.trans h', fun _ hq => ?_⟩
  cases hq
  obtain ⟨hmod, hoff, f, hf, hopen⟩ := hp
  exact ⟨hmod, hoff, f, (h'.same p (by rw [hf]; rfl)).trans hf, hopen⟩

theorem openDentry (h : KeepsFiles s0 s) {flags : Nat} :
    Post (Pke.openDentry hostfsIOps t flags) s (Opened s0) fun _ => True := by
  refine .bindRead trivial fun x hx => .bindRead trivial fun v hv => ?_
  refine .ite (fun _ => .pure h.opened_none) fun _ => .ite (fun _ => .fault trivial) fun _ => ?_
  refine .bind h.allocVfsFile ?_
  rintro p s1 ⟨h1, hp⟩
  refine .bind ((refl h1.aligned).runHook fun g hg => ?_) fun _ s2 h2 =>
    .pure (h1.opened_some hp h2)
  cases hops : v.iOps with
  | rfs =>
      rw [hops] at hg
      cases hg
  | hostfs =>
      rw [hops] at hg
      cases hg
      exact (refl h1.aligned).hostfsHookOpen

theorem vfsOpen (h : KeepsFiles s0 s) {flags : Nat} :
    Post (Pke.vfsOpen hostfsIOps path flags) s (Opened s0) fun _ => True := by
  refine .bind lookupFinalDentry_walked fun r s1 h1 => ?_
  have hk1 := h.walked h1
  cases r.dentry with
  | some t => exact hk1.openDentry
  | none =>
      refine .ite (fun _ => .pure hk1.opened_none) fun _ => ?_
      refine .bind hk1.openCreate fun q s2 h2 => ?_
      cases q with
      | none => exact .pure h2.opened_none
      | some t => exact h2.openDentry

theorem vfsOpendir (h : KeepsFiles s0 s) :
    Post (Pke.vfsOpendir hostfsIOps path) s (Opened s0) fun _ => True := by
  refine .bind lookupFinalDentry_walked fun r s1 h1 => ?_
  have hk1 := h.walked h1
  cases r.dentry with
  | none => exact .pure hk1.opened_none
  | some t =>
      refine .bindRead trivial fun x hx => .bindRead trivial fun v hv => ?_
      refine .ite (fun _ => .pure hk1.opened_none) fun _ => .bind hk1.allocVfsFile ?_
      rintro p s2 ⟨h2, hp⟩
      refine .bind ((refl h2.aligned).runHook fun g hg => ?_) fun _ s3 h3 =>
        .pure (h2.opened_some hp h3)
      cases hops : v.iOps with
      | rfs =>
          rw [hops] at hg
          cases hg
          exact (refl h2.aligned).rfsHookOpendir
      | hostfs =>
          rw [hops] at hg
          cases hg

end KeepsFiles

end

end Pke
