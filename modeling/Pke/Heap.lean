import Pke.Kernel

/-!
# The objects in memory

`Objs` is memory with the pages abstracted away: one map per kind of
object, from pointers to the objects that live there, and the two hash
tables. `Holds s o d b R` says that state `s` holds the objects `o`, the
disk `d` and the I/O buffer `b`, that the page allocator is in order
(`MemInv`: no page is on the free list twice, and none that is in use),
and that the running code owns the pages `R`, allocated but not used for
anything yet.

The rules are one per primitive of `Kernel`, for all kinds of objects at
once (`Kind`). What they say of `alloc_page` is what every proof about
the cache rests on: the page it returns is nobody else's (`Objs.Fresh`).
-/

namespace Pke

open Exec

/-! ## Objects -/

/-- The objects in memory. -/
structure Objs where
  dentry : Ptr → Option Dentry
  vinode : Ptr → Option Vinode
  file : Ptr → Option File
  superBlock : Ptr → Option SuperBlock
  hashNode : Ptr → Option HashKey
  dirBlock : Ptr → Option Block
  dirCache : Ptr → Option DirCache
  dentryHash : HashTable DentryKey Ptr
  vinodeHash : HashTable VinodeKey Ptr
  root : Ptr
  sbList : List Ptr
  devList : List Device
  spike : Spike

def State.objs (s : State) : Objs where
  dentry := s.dentry
  vinode := s.vinode
  file := s.file
  superBlock := s.superBlock
  hashNode := s.hashNode
  dirBlock := s.dirBlock
  dirCache := s.dirCache
  dentryHash := s.dentryHash
  vinodeHash := s.vinodeHash
  root := s.vfsRootDentry
  sbList := s.vfsSbList
  devList := s.vfsDevList
  spike := s.spike

/-- No object lives at `p`. -/
structure Objs.Fresh (o : Objs) (p : Ptr) : Prop where
  dentry : o.dentry p = none
  vinode : o.vinode p = none
  file : o.file p = none
  superBlock : o.superBlock p = none
  hashNode : o.hashNode p = none
  dirBlock : o.dirBlock p = none
  dirCache : o.dirCache p = none

variable {s : State} {p : Ptr} {α : Type}

theorem State.fresh_objs (h : s.pages p = .free ∨ s.pages p = .raw) : s.objs.Fresh p := by
  rcases h with h | h <;>
  constructor <;> simp [State.objs, State.dentry, State.vinode, State.file, State.superBlock,
    State.hashNode, State.dirBlock, State.dirCache, h, Page.asDentry, Page.asVinode,
    Page.asFile, Page.asSuperBlock, Page.asHashNode, Page.asDirBlock, Page.asDirCache]

/-- One map of the objects after the contents `c` of a page have become `c'`. -/
def Page.store {α : Type} (view : Page → Option α) (c c' : Page) (p : Ptr)
    (m : Ptr → Option α) : Ptr → Option α :=
  if (view c).isNone && (view c').isNone then m else upd m p (view c')

theorem State.objs_setPage {c : Page} (h : s.pages p = c) (c' : Page) :
    (s.setPage p c').objs = { s.objs with
      dentry := Page.store Page.asDentry c c' p s.dentry
      vinode := Page.store Page.asVinode c c' p s.vinode
      file := Page.store Page.asFile c c' p s.file
      superBlock := Page.store Page.asSuperBlock c c' p s.superBlock
      hashNode := Page.store Page.asHashNode c c' p s.hashNode
      dirBlock := Page.store Page.asDirBlock c c' p s.dirBlock
      dirCache := Page.store Page.asDirCache c c' p s.dirCache } := by
  have hview : ∀ {α : Type} (view : Page → Option α),
      (fun q => view (upd s.pages p c' q)) =
        Page.store view c c' p fun q => view (s.pages q) := by
    intro α view
    have hupd : (fun q => view (upd s.pages p c' q)) =
        upd (fun q => view (s.pages q)) p (view c') := by
      funext q
      simp only [upd]
      split <;> rfl
    rw [hupd, Page.store]
    split
    · rename_i hn
      simp only [Bool.and_eq_true, Option.isNone_iff_eq_none] at hn
      exact upd_eq_self (by rw [h, hn.1, hn.2])
    · rfl
  simp only [State.objs, Objs.mk.injEq]
  exact ⟨hview _, hview _, hview _, hview _, hview _, hview _, hview _,
    rfl, rfl, rfl, rfl, rfl, rfl⟩

/-- A kind of object: how it is stored in a page, and its map among the
objects. `objs_inj` and `objs_free` say that a page holds one object: storing
one in a page that held nothing or one of the same kind does not touch the
other maps. All but `eq_inj` are shown for every kind in the same way. -/
structure Kind (α : Type) where
  inj : α → Page
  view : Page → Option α
  get : Objs → Ptr → Option α
  set : (Ptr → Option α) → Objs → Objs
  eq_inj : ∀ {c a}, view c = some a → c = inj a
  view_inj : ∀ a, view (inj a) = some a := by exact fun _ => rfl
  inj_used : ∀ a, inj a ≠ .free ∧ inj a ≠ .raw := by simp
  get_objs : ∀ (s : State) p, get s.objs p = view (s.pages p) := by exact fun _ _ => rfl
  objs_inj : ∀ {s : State} {p c} a, (s.pages p = .raw ∨ s.pages p = inj c) →
      (s.setPage p (inj a)).objs = set (upd (get s.objs) p (some a)) s.objs := by
    exact fun _ h => h.elim (State.objs_setPage · _) (State.objs_setPage · _)
  objs_free : ∀ {s : State} {p c}, s.pages p = inj c →
      (s.setPage p .free).objs = set (upd (get s.objs) p none) s.objs := by
    exact fun h => State.objs_setPage h _
  isFile : (∀ a f, inj a ≠ .file f) ∨ ∀ a, ∃ f, inj a = .file f := by simp

abbrev dentryKind : Kind Dentry where
  inj := .dentry
  view := Page.asDentry
  get := Objs.dentry
  set m o := { o with dentry := m }
  eq_inj {c a} h := by cases c <;> simp_all [Page.asDentry]

abbrev vinodeKind : Kind Vinode where
  inj := .vinode
  view := Page.asVinode
  get := Objs.vinode
  set m o := { o with vinode := m }
  eq_inj {c a} h := by cases c <;> simp_all [Page.asVinode]

abbrev fileKind : Kind File where
  inj := .file
  view := Page.asFile
  get := Objs.file
  set m o := { o with file := m }
  eq_inj {c a} h := by cases c <;> simp_all [Page.asFile]

abbrev superBlockKind : Kind SuperBlock where
  inj := .superBlock
  view := Page.asSuperBlock
  get := Objs.superBlock
  set m o := { o with superBlock := m }
  eq_inj {c a} h := by cases c <;> simp_all [Page.asSuperBlock]

abbrev hashNodeKind : Kind HashKey where
  inj := .hashNode
  view := Page.asHashNode
  get := Objs.hashNode
  set m o := { o with hashNode := m }
  eq_inj {c a} h := by cases c <;> simp_all [Page.asHashNode]

abbrev dirBlockKind : Kind Block where
  inj := .dirBlock
  view := Page.asDirBlock
  get := Objs.dirBlock
  set m o := { o with dirBlock := m }
  eq_inj {c a} h := by cases c <;> simp_all [Page.asDirBlock]

abbrev dirCacheKind : Kind DirCache where
  inj := .dirCache
  view := Page.asDirCache
  get := Objs.dirCache
  set m o := { o with dirCache := m }
  eq_inj {c a} h := by cases c <;> simp_all [Page.asDirCache]

theorem Kind.used (K : Kind α) {a : α} (h : s.pages p = K.inj a) : s.pages p ≠ .free := by
  rw [h]
  exact (K.inj_used a).1

/-! ## Order in memory -/

/-- What `free_page` accepts. -/
def PageOk (s : State) (p : Ptr) : Prop :=
  p % pgSize = 0 ∧ s.freeMemStart ≤ p ∧ p < s.freeMemEnd

/-- Every object has a page of its own, apart from the files in the table of
a process. -/
structure MemInv (s : State) : Prop where
  nodup : s.freePages.Nodup
  free : ∀ p ∈ s.freePages, s.pages p = .free
  listed : ∀ p ∈ s.freePages, PageOk s p
  used : ∀ p, s.pages p ≠ .free → PageOk s p ∨ p % pgSize ≠ 0 ∧ ∃ f, s.pages p = .file f
  start : 0 < s.freeMemStart

theorem MemInv.ok (hm : MemInv s) (hp : s.pages p ≠ .free) (hown : ∀ f, s.pages p ≠ .file f) :
    PageOk s p :=
  (hm.used p hp).resolve_right fun h => h.2.elim hown

/-- A page that is in use is not on the free list, so what is stored in it
does not matter to the allocator. -/
theorem MemInv.setPage (hm : MemInv s) (hp : s.pages p ≠ .free) {c : Page}
    (hc : ∀ f, s.pages p = .file f → ∃ g, c = .file g) : MemInv (s.setPage p c) where
  nodup := hm.nodup
  free q hq := by
    have hqp : q ≠ p := fun h => hp (h ▸ hm.free q hq)
    exact (upd_ne hqp).trans (hm.free q hq)
  listed := hm.listed
  used q hq := by
    rcases eq_or_ne q p with rfl | hqp
    · refine (hm.used q hp).imp_right fun ⟨hmod, f, hf⟩ => ⟨hmod, ?_⟩
      obtain ⟨g, rfl⟩ := hc f hf
      exact ⟨g, upd_self _ _ _⟩
    · have hsame : (s.setPage p c).pages q = s.pages q := upd_ne hqp
      rw [hsame] at hq ⊢
      exact hm.used q hq
  start := hm.start

theorem freePage_ok (hm : MemInv s) (hp : s.pages p ≠ .free) (hown : ∀ f, s.pages p ≠ .file f) :
    freePage p s =
        .ok ((), { s.setPage p .free with freePages := p :: s.freePages }) ∧
      MemInv { s.setPage p .free with freePages := p :: s.freePages } := by
  have hok := hm.ok hp hown
  have hnot : p ∉ s.freePages := fun hmem => hp (hm.free p hmem)
  refine ⟨?_, ⟨List.nodup_cons.mpr ⟨hnot, hm.nodup⟩, ?_, ?_, ?_, hm.start⟩⟩
  · obtain ⟨hmod, hlo, hhi⟩ := hok
    have hcond : ¬(p % pgSize ≠ 0 ∨ p < s.freeMemStart ∨ p ≥ s.freeMemEnd) := by
      rintro (h | h | h)
      · exact h hmod
      · exact absurd hlo (Nat.not_le.mpr h)
      · exact absurd hhi (Nat.not_lt.mpr h)
    have hget : (Exec.get : Kern State) s = .ok (s, s) := rfl
    unfold freePage
    rw [Exec.bind_of_ok hget, if_neg hcond]
    rfl
  · intro q hq
    rcases eq_or_ne q p with rfl | hqp
    · exact upd_self _ _ _
    · refine (upd_ne hqp).trans (hm.free q ?_)
      exact (List.mem_cons.mp hq).resolve_left hqp
  · intro q hq
    rcases List.mem_cons.mp hq with rfl | hq
    · exact hok
    · exact hm.listed q hq
  · intro q hq
    rcases eq_or_ne q p with rfl | hqp
    · exact .inl hok
    · have hsame : (s.setPage p .free).pages q = s.pages q := upd_ne hqp
      change (s.setPage p .free).pages q ≠ .free at hq
      refine (hm.used q (hsame ▸ hq)).imp_right fun ⟨hmod, f, hf⟩ => ⟨hmod, f, hsame.trans hf⟩

/-! ## What a state holds -/

structure Holds (s : State) (o : Objs) (d : Nat → Block) (b : Block) (R : List Ptr) : Prop where
  objs : s.objs = o
  disk : s.disk = d
  io : s.iobuffer = b
  mem : MemInv s
  raw : ∀ p ∈ R, s.pages p = .raw

namespace Holds

variable {s : State} {o : Objs} {d : Nat → Block} {b : Block} {R : List Ptr} {p : Ptr}

section

variable (h : Holds s o d b R)

include h

/-- Pages the code owns can be forgotten, as the source forgets those it
leaks. -/
theorem leak {R' : List Ptr} (hsub : R' ⊆ R) : Holds s o d b R' :=
  { h with raw := fun q hq => h.raw q (hsub hq) }

theorem cast {o' : Objs} (heq : o = o') : Holds s o' d b R := heq ▸ h

theorem view {K : Kind α} {a : α} (hp : K.get o p = some a) : K.view (s.pages p) = some a := by
  rw [← K.get_objs, h.objs]
  exact hp

theorem page {K : Kind α} {a : α} (hp : K.get o p = some a) : s.pages p = K.inj a :=
  K.eq_inj (h.view hp)

theorem ne_zero {K : Kind α} {a : α} (hp : K.get o p = some a) : p ≠ 0 := by
  rcases h.mem.used p (by rw [h.page hp]; exact (K.inj_used a).1) with hok | ⟨hmod, -⟩
  · exact Nat.pos_iff_ne_zero.mp (Nat.lt_of_lt_of_le h.mem.start hok.2.1)
  · rintro rfl
    exact hmod (Nat.zero_mod _)

/-! ## Changing the disk and the tables -/

theorem withIo (b' : Block) : Holds { s with iobuffer := b' } o d b' R :=
  ⟨h.objs, h.disk, rfl, ⟨h.mem.nodup, h.mem.free, h.mem.listed, h.mem.used, h.mem.start⟩, h.raw⟩

theorem withDisk (d' : Nat → Block) : Holds { s with disk := d' } o d' b R :=
  ⟨h.objs, rfl, h.io, ⟨h.mem.nodup, h.mem.free, h.mem.listed, h.mem.used, h.mem.start⟩, h.raw⟩

theorem withDentryHash (t : HashTable DentryKey Ptr) :
    Holds { s with dentryHash := t } { o with dentryHash := t } d b R :=
  ⟨by rw [← h.objs]; rfl, h.disk, h.io,
    ⟨h.mem.nodup, h.mem.free, h.mem.listed, h.mem.used, h.mem.start⟩, h.raw⟩

theorem withVinodeHash (t : HashTable VinodeKey Ptr) :
    Holds { s with vinodeHash := t } { o with vinodeHash := t } d b R :=
  ⟨by rw [← h.objs]; rfl, h.disk, h.io,
    ⟨h.mem.nodup, h.mem.free, h.mem.listed, h.mem.used, h.mem.start⟩, h.raw⟩

theorem withSbList (l : List Ptr) : Holds { s with vfsSbList := l } { o with sbList := l } d b R :=
  ⟨by rw [← h.objs]; rfl, h.disk, h.io,
    ⟨h.mem.nodup, h.mem.free, h.mem.listed, h.mem.used, h.mem.start⟩, h.raw⟩

theorem withRoot (p : Ptr) : Holds { s with vfsRootDentry := p } { o with root := p } d b R :=
  ⟨by rw [← h.objs]; rfl, h.disk, h.io,
    ⟨h.mem.nodup, h.mem.free, h.mem.listed, h.mem.used, h.mem.start⟩, h.raw⟩

theorem withSpike (sp : Spike) : Holds { s with spike := sp } { o with spike := sp } d b R :=
  ⟨by rw [← h.objs]; rfl, h.disk, h.io,
    ⟨h.mem.nodup, h.mem.free, h.mem.listed, h.mem.used, h.mem.start⟩, h.raw⟩

/-! ## Changing a page -/

theorem set {K : Kind α} {c : α} (hp : K.get o p = some c) (a : α) :
    Holds (s.setPage p (K.inj a)) (K.set (upd (K.get o) p (some a)) o) d b R := by
  have hpage := h.page hp
  refine ⟨?_, h.disk, h.io, h.mem.setPage (by rw [hpage]; exact (K.inj_used c).1) fun f hf => ?_,
    fun q hq => ?_⟩
  · rw [K.objs_inj a (.inr hpage), h.objs]
  · rcases K.isFile with hno | hfile
    · exact absurd (hpage.symm.trans hf) (hno c f)
    · exact hfile a
  · have hqp : q ≠ p := by
      rintro rfl
      rw [h.raw q hq] at hpage
      exact (K.inj_used c).2 hpage.symm
    exact (upd_ne hqp).trans (h.raw q hq)

end

/-- Using a page the code owns. -/
theorem setNew {K : Kind α} (h : Holds s o d b (p :: R)) (hp : p ∉ R) (a : α) :
    Holds (s.setPage p (K.inj a)) (K.set (upd (K.get o) p (some a)) o) d b R := by
  have hraw := h.raw p (List.mem_cons_self ..)
  refine ⟨?_, h.disk, h.io, h.mem.setPage (by rw [hraw]; nofun) fun f hf => ?_,
    fun q hq => ?_⟩
  · rw [K.objs_inj (c := a) a (.inl hraw), h.objs]
  · rw [hraw] at hf
    cases hf
  · have hqp : q ≠ p := fun hqp => hp (hqp ▸ hq)
    exact (upd_ne hqp).trans (h.raw q (List.mem_cons_of_mem _ hq))

end Holds

/-! ## Allocating and freeing -/

section

variable {s : State} {o : Objs} {d : Nat → Block} {b : Block} {R : List Ptr} {p : Ptr}
  {E : Fault → Prop}

theorem allocPage_post (h : Holds s o d b R) (hE : E .nullPage) :
    Post allocPage s
      (fun p s' => Holds s' o d b (p :: R) ∧ o.Fresh p ∧ p ≠ 0 ∧ p ∉ R) E := by
  unfold allocPage
  refine .bindGet ?_
  split
  · exact .fault hE
  · rename_i q rest hfree
    have hmem := h.mem
    have hq : _ ∈ q :: rest := List.mem_cons_self ..
    have hqfree := hmem.free q (hfree ▸ hq)
    rw [if_pos (by rw [hqfree]; rfl)]
    have hnd := hmem.nodup
    rw [hfree, List.nodup_cons] at hnd
    have hqR : q ∉ R := fun hR => by
      have := h.raw q hR
      rw [hqfree] at this
      cases this
    have hok := hmem.listed q (hfree ▸ hq)
    refine .bindModify (.pure ⟨⟨?_, h.disk, h.io, ⟨hnd.2, ?_, ?_, ?_, hmem.start⟩, ?_⟩,
      h.objs ▸ State.fresh_objs (.inl hqfree),
      Nat.pos_iff_ne_zero.mp (Nat.lt_of_lt_of_le hmem.start hok.2.1), hqR⟩)
    · exact (State.objs_setPage hqfree .raw).trans h.objs
    · intro r hr
      have hrq : r ≠ q := fun h => hnd.1 (h ▸ hr)
      exact (upd_ne hrq).trans (hmem.free r (hfree ▸ List.mem_cons_of_mem _ hr))
    · exact fun r hr => hmem.listed r (hfree ▸ List.mem_cons_of_mem _ hr)
    · intro r hr
      rcases eq_or_ne r q with rfl | hrq
      · exact .inl hok
      · have hsame : (s.setPage q .raw).pages r = s.pages r := upd_ne hrq
        change (s.setPage q .raw).pages r ≠ .free at hr
        refine (hmem.used r (hsame ▸ hr)).imp_right fun ⟨hmod, f, hf⟩ => ⟨hmod, f, hsame.trans hf⟩
    · intro r hr
      rcases List.mem_cons.mp hr with rfl | hr
      · exact upd_self _ _ _
      · have hrq : r ≠ q := fun h => hqR (h ▸ hr)
        exact (upd_ne hrq).trans (h.raw r hr)

theorem freePage_post {K : Kind α} {c : α} (h : Holds s o d b R) (hp : K.get o p = some c)
    (hown : ∀ f, K.inj c ≠ .file f) :
    Post (freePage p) s (fun _ s' => Holds s' (K.set (upd (K.get o) p none) o) d b R) E := by
  have hpage := h.page hp
  obtain ⟨hrun, hmem⟩ := freePage_ok h.mem (p := p) (by rw [hpage]; exact (K.inj_used c).1)
    (by rw [hpage]; exact hown)
  unfold Post
  rw [hrun]
  refine ⟨?_, h.disk, h.io, hmem, fun q hq => ?_⟩
  · rw [← h.objs]
    exact K.objs_free hpage
  · have hqp : q ≠ p := by
      rintro rfl
      rw [h.raw q hq] at hpage
      exact (K.inj_used c).2 hpage.symm
    exact (upd_ne hqp).trans (h.raw q hq)

/-- Freeing a page the code owns. -/
theorem freePage_raw (h : Holds s o d b (p :: R)) (hp : p ∉ R) :
    Post (freePage p) s (fun _ s' => Holds s' o d b R) E := by
  have hraw := h.raw p (List.mem_cons_self ..)
  obtain ⟨hrun, hmem⟩ := freePage_ok h.mem (p := p) (by rw [hraw]; nofun) (by rw [hraw]; nofun)
  unfold Post
  rw [hrun]
  refine ⟨(State.objs_setPage hraw .free).trans h.objs, h.disk, h.io, hmem, fun q hq => ?_⟩
  have hqp : q ≠ p := fun hqp => hp (hqp ▸ hq)
  exact (upd_ne hqp).trans (h.raw q (List.mem_cons_of_mem _ hq))

/-! ## Following a pointer and storing through one -/

section

variable {α β : Type} {Q : β → State → Prop}

theorem post_follow (K : Kind α) {e : Fault} {f : α → Kern β} (h : Holds s o d b R)
    (hnone : K.get o p = none → E e) (hf : ∀ x, K.get o p = some x → Post (f x) s Q E) :
    Post ((Exec.get >>= fun s => Exec.ofOption e (K.view (s.pages p))) >>= f) s Q E := by
  have hview : K.view (s.pages p) = K.get o p := by rw [← K.get_objs, h.objs]
  refine .bind (R := fun x s' => K.get o p = some x ∧ s' = s) ?_ ?_
  · exact .bindGet (.ofOption (fun hn => hnone (hview ▸ hn)) fun x hx => ⟨hview ▸ hx, rfl⟩)
  · rintro x _ ⟨hx, rfl⟩
    exact hf x hx

/-- Following a descriptor to its vinode. -/
theorem post_file {file : Ptr} {g : File → Dentry → Vinode → Kern β} (h : Holds s o d b R)
    (hub : ∀ what, E (.ub what))
    (hg : ∀ f x v, o.file file = some f → o.dentry f.fDentry = some x →
      o.vinode x.dentryInode = some v → Post (g f x v) s Q E) :
    Post (getFile file >>= fun f => getDentry f.fDentry >>= fun x =>
      getVinode x.dentryInode >>= g f x) s Q E := by
  refine post_follow fileKind h (fun _ => hub _) fun f hf => ?_
  refine post_follow dentryKind h (fun _ => hub _) fun x hx => ?_
  exact post_follow vinodeKind h (fun _ => hub _) fun v hv => hg f x v hf hx hv

/-- Following a pointer that is known to be good. -/
theorem post_known (K : Kind α) {e : Fault} {x : α} {f : α → Kern β} (h : Holds s o d b R)
    (hx : K.get o p = some x) (hf : Post (f x) s Q E) :
    Post ((Exec.get >>= fun s => Exec.ofOption e (K.view (s.pages p))) >>= f) s Q E := by
  refine post_follow K h (fun hnone => ?_) fun x' hx' => ?_
  · rw [hx] at hnone
    cases hnone
  · rw [hx] at hx'
    rwa [← Option.some.inj hx']

theorem post_set (K : Kind α) {c a : α} {f : Unit → Kern β} (h : Holds s o d b R)
    (hp : K.get o p = some c)
    (hf : ∀ s', Holds s' (K.set (upd (K.get o) p (some a)) o) d b R → Post (f ()) s' Q E) :
    Post (Exec.modify (fun s => s.setPage p (K.inj a)) >>= f) s Q E :=
  .bindModify (hf _ (h.set hp a))

/-- Storing into a page the code owns. -/
theorem post_setNew (K : Kind α) {a : α} {f : Unit → Kern β} (h : Holds s o d b (p :: R))
    (hp : p ∉ R)
    (hf : ∀ s', Holds s' (K.set (upd (K.get o) p (some a)) o) d b R → Post (f ()) s' Q E) :
    Post (Exec.modify (fun s => s.setPage p (K.inj a)) >>= f) s Q E :=
  .bindModify (hf _ (h.setNew hp a))

end

end

/-! ## The hash tables -/

theorem dentryHashOps_lawful : dentryHashOps.Lawful hashTableSize where
  refl k := by simp [dentryHashOps]
  symm {k k'} h := by
    simp only [dentryHashOps, Bool.and_eq_true, beq_iff_eq] at h ⊢
    exact ⟨h.1.symm, h.2.symm⟩
  trans {k k' k''} h h' := by
    simp only [dentryHashOps, Bool.and_eq_true, beq_iff_eq] at h h' ⊢
    exact ⟨h.1.trans h'.1, h.2.trans h'.2⟩
  hash_eq {k k'} h := by
    simp only [dentryHashOps, Bool.and_eq_true, beq_iff_eq] at h ⊢
    rw [h.1, h.2]
  hash_lt k := Nat.mod_lt _ (by decide)

theorem vinodeHashOps_lawful : vinodeHashOps.Lawful hashTableSize where
  refl k := by simp [vinodeHashOps]
  symm {k k'} h := by
    simp only [vinodeHashOps, Bool.and_eq_true, beq_iff_eq] at h ⊢
    exact ⟨h.1.symm, h.2.symm⟩
  trans {k k' k''} h h' := by
    simp only [vinodeHashOps, Bool.and_eq_true, beq_iff_eq] at h h' ⊢
    exact ⟨h.1.trans h'.1, h.2.trans h'.2⟩
  hash_eq {k k'} h := by
    simp only [vinodeHashOps, Bool.and_eq_true, beq_iff_eq] at h ⊢
    rw [h.1]
  hash_lt k := by
    show (k.inum % 128).toNat < 128
    omega

/-- The keys of both tables are compared field by field, all of them. -/
theorem dentryHashOps_equal {k k' : DentryKey} : dentryHashOps.equal k k' = true ↔ k = k' := by
  cases k
  cases k'
  simp [dentryHashOps, and_comm]

theorem vinodeHashOps_equal {k k' : VinodeKey} : vinodeHashOps.equal k k' = true ↔ k = k' := by
  cases k
  cases k'
  simp [vinodeHashOps]

/-- Where a table is kept among the objects. -/
structure Table.View {K : Type} (T : Table K) where
  look : Objs → HashTable K Ptr
  store : HashTable K Ptr → Objs → Objs
  look_eq : ∀ s, T.read s = look s.objs
  hashNode_store : ∀ t o, (store t o).hashNode = o.hashNode
  holds : ∀ {s o d b R} t, Holds s o d b R → Holds (T.write t s) (store t o) d b R

abbrev dentryView : dentryTable.View where
  look := Objs.dentryHash
  store t o := { o with dentryHash := t }
  look_eq _ := rfl
  hashNode_store _ _ := rfl
  holds t h := h.withDentryHash t

abbrev vinodeView : vinodeTable.View where
  look := Objs.vinodeHash
  store t o := { o with vinodeHash := t }
  look_eq _ := rfl
  hashNode_store _ _ := rfl
  holds t h := h.withVinodeHash t

section

variable {K : Type} {T : Table K} (V : T.View) {s : State} {o : Objs} {d : Nat → Block}
  {b : Block} {R : List Ptr} {E : Fault → Prop}

theorem defaultGet_ok (h : Holds s o d b R) (k : K) :
    defaultGet T k s = .ok (((V.look o).find? T.ops k).map (·.value), s) := by
  rw [← h.objs, ← V.look_eq]
  rfl

theorem defaultPut_post (h : Holds s o d b R) (hE : E .nullPage) {k : K} {value : Ptr}
    (hnew : (V.look o).find? T.ops k = none) :
    Post (defaultPut T k value) s (fun ret s' => ret = 0 ∧ ∃ node, o.Fresh node ∧ node ∉ R ∧
      Holds s' (V.store ((V.look o).insert T.ops ⟨node, k, value⟩)
        { o with hashNode := upd o.hashNode node (some (T.tag k)) }) d b R) E := by
  refine .bind (allocPage_post h hE) ?_
  rintro node s1 ⟨h1, hfree, -, hR⟩
  refine .step (defaultGet_ok V h1 k) ?_
  rw [hnew]
  refine .bindModify (.pure ⟨rfl, node, hfree, hR, ?_⟩)
  have hread : T.read s1 = V.look o := by rw [V.look_eq, h1.objs]
  have h2 := h1.setNew (K := hashNodeKind) hR (T.tag k)
  rw [← hread]
  exact V.holds _ h2

theorem hashPut_new (h : Holds s o d b R) (hE : E .nullPage) {k : K} {value : Ptr}
    (hnew : (V.look o).find? T.ops k = none) :
    Post (hashPut T k value) s (fun ret s' => ret = 0 ∧ ∃ node, o.Fresh node ∧ node ∉ R ∧
      Holds s' (V.store ((V.look o).insert T.ops ⟨node, k, value⟩)
        { o with hashNode := upd o.hashNode node (some (T.tag k)) }) d b R) E := by
  refine .bind (allocPage_post h hE) ?_
  rintro key s1 ⟨h1, -, -, -⟩
  refine .bind (defaultPut_post V h1 hE hnew) ?_
  rintro ret s2 ⟨rfl, node, hfree, hnode, h2⟩
  rw [if_neg (by decide)]
  refine .pure ⟨rfl, node, hfree, fun hR => hnode (List.mem_cons_of_mem _ hR), ?_⟩
  exact h2.leak (List.subset_cons_self ..)

theorem defaultErase_post (h : Holds s o d b R) {k : K} {e : HashNode K Ptr} {tag : HashKey}
    (hfind : (V.look o).find? T.ops k = some e) (hnode : o.hashNode e.node = some tag) :
    Post (defaultErase T k) s (fun ret s' => ret = 0 ∧
      Holds s' (hashNodeKind.set (upd o.hashNode e.node none)
        (V.store ((V.look o).remove T.ops k) o)) d b R) E := by
  refine .bindGet ?_
  have hread : T.read s = V.look o := by rw [V.look_eq, h.objs]
  rw [hread, hfind]
  refine .bindModify ?_
  rw [hread]
  have hget : hashNodeKind.get (V.store ((V.look o).remove T.ops k) o) e.node = some tag := by
    show (V.store _ o).hashNode e.node = some tag
    rw [V.hashNode_store, hnode]
  refine .bind (freePage_post (V.holds _ h) hget nofun) fun _ s1 h1 => .pure ⟨rfl, ?_⟩
  rw [← V.hashNode_store ((V.look o).remove T.ops k) o]
  exact h1

end

end Pke
