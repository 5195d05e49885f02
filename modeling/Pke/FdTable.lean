import Pke.FdFrame
import Pke.HostNames

/-!
# The table of open files

A process opens files and directories and gets the numbers of the entries.
`nfiles` of the table goes up with each of them. It never goes down:
`vfs_close` and `vfs_closedir` set the status of the entry and know nothing of
the table. As long as nothing is closed `nfiles` is the number of the open
entries (`FdTable`), and `do_open` and `do_opendir` find an entry as long as
there is one.
-/

namespace Pke

open Exec (Post get fault)

/-- The number of entries whose status is `FD_OPENED`. -/
def State.nOpen (s : State) (pfiles : Ptr) : Nat :=
  ((Finset.range maxFiles).filter fun i => s.entryOpen pfiles i = true).card

/-- The vinode of the file a descriptor stands for. -/
def State.fdVinode (s : State) (pfiles : Ptr) (fd : Int) : Option Vinode := do
  let f ← s.file (fdAddr pfiles (fdIndex fd))
  let x ← s.dentry f.fDentry
  s.vinode x.dentryInode

variable {s : State} {pfiles : Ptr} {make : Kern (Option Ptr)} {msg : String}

theorem State.procFiles_iff {p : Ptr} {m : ProcFiles} :
    s.procFiles p = some m ↔ s.pages p = .procFiles m := by
  unfold State.procFiles
  cases s.pages p <;> simp [Page.asProcFiles]

/-! ## Counting the entries -/

section

variable {pfiles i : Nat} {s t : State}

theorem nOpen_congr (h : ∀ i < maxFiles, t.entryOpen pfiles i = s.entryOpen pfiles i) :
    t.nOpen pfiles = s.nOpen pfiles := by
  unfold State.nOpen
  refine congrArg Finset.card (Finset.filter_congr fun i hi => ?_)
  rw [h i (Finset.mem_range.mp hi)]

/-- One more entry is open. -/
theorem nOpen_insert (hi : i < maxFiles) (hfree : s.entryOpen pfiles i = false)
    (hopen : t.entryOpen pfiles i = true)
    (hother : ∀ j < maxFiles, j ≠ i → t.entryOpen pfiles j = s.entryOpen pfiles j) :
    t.nOpen pfiles = s.nOpen pfiles + 1 := by
  have hset : (Finset.range maxFiles).filter (fun j => t.entryOpen pfiles j = true) =
      insert i ((Finset.range maxFiles).filter fun j => s.entryOpen pfiles j = true) := by
    ext j
    rw [Finset.mem_insert, Finset.mem_filter, Finset.mem_filter]
    rcases eq_or_ne j i with rfl | hne
    · simp [hopen, hi]
    · by_cases hj : j < maxFiles
      · simp [hne, hother j hj hne]
      · simp [hne, hj]
  unfold State.nOpen
  rw [hset, Finset.card_insert_of_notMem]
  rw [Finset.mem_filter, hfree]
  rintro ⟨-, h⟩
  cases h

theorem nOpen_full : s.nOpen pfiles = maxFiles ↔ ∀ i < maxFiles, s.entryOpen pfiles i = true := by
  have hcard : s.nOpen pfiles = (Finset.range maxFiles).card ↔
      ∀ i ∈ Finset.range maxFiles, s.entryOpen pfiles i = true :=
    Finset.card_filter_eq_iff
  rw [Finset.card_range] at hcard
  simpa only [Finset.mem_range] using hcard

theorem nOpen_le : s.nOpen pfiles ≤ maxFiles :=
  (Finset.card_filter_le _ _).trans (Finset.card_range _).le

theorem entryOpen_of_pages (h : t.pages (fdAddr pfiles i) = s.pages (fdAddr pfiles i)) :
    t.entryOpen pfiles i = s.entryOpen pfiles i := by
  rw [State.entryOpen, State.file, h, State.entryOpen, State.file]

/-- What is in an entry stays, and nothing comes to an entry that is empty. -/
theorem KeepsFiles.entry (h : KeepsFiles s t) (hp : pfiles % pgSize = 0) (hi : i < maxFiles) :
    t.file (fdAddr pfiles i) = s.file (fdAddr pfiles i) := by
  have hmod := fdAddr_inside hp hi
  by_cases htable : (s.pages (fdAddr pfiles i)).isTable = true
  · rw [State.file, h.same _ htable, State.file]
  · have hnone : ∀ f, s.file (fdAddr pfiles i) ≠ some f := by
      intro f hf
      rw [show s.pages _ = .file f from fileKind.eq_inj hf] at htable
      exact htable rfl
    have hnone' : ∀ f, t.file (fdAddr pfiles i) ≠ some f := fun f hf =>
      htable (h.inside _ f hmod (fileKind.eq_inj hf))
    rw [Option.eq_none_iff_forall_ne_some.mpr hnone, Option.eq_none_iff_forall_ne_some.mpr hnone']

theorem KeepsFiles.entryOpen (h : KeepsFiles s t) (hp : pfiles % pgSize = 0)
    (hi : i < maxFiles) : t.entryOpen pfiles i = s.entryOpen pfiles i := by
  rw [State.entryOpen, h.entry hp hi, State.entryOpen]

end

/-! ## The entry that is taken -/

/-- The loop stops at the first entry that is not open. -/
theorem freeEntry_finds {pfiles : Ptr} {s : State} {E : Fault → Prop} : ∀ {n fd : Nat},
    Post (freeEntry pfiles n fd) s (fun r s' => s' = s ∧ r ≤ fd + n ∧
      (r < fd + n → s.entryOpen pfiles r = false) ∧
      ∀ i, fd ≤ i → i < r → s.entryOpen pfiles i = true) E
  | 0, fd => .pure ⟨rfl, Nat.le_refl _, fun h => absurd h (Nat.lt_irrefl _),
      fun i hle hlt => absurd hlt (Nat.not_lt.mpr hle)⟩
  | n + 1, fd => by
      refine .bindGet (.ite (fun hfree => ?_) fun hopen => freeEntry_finds.mono ?_)
      · exact .pure ⟨rfl, Nat.le_add_right _ _, fun _ => hfree,
          fun i hle hlt => absurd hlt (Nat.not_lt.mpr hle)⟩
      · rintro r _ ⟨rfl, hle, hfree, hbefore⟩
        refine ⟨rfl, by omega, fun hlt => hfree (by omega), fun i hi hlt => ?_⟩
        rcases Nat.eq_or_lt_of_le hi with rfl | hgt
        · exact Bool.of_not_eq_false hopen
        · exact hbefore i hgt hlt

/-- There is one when not all of them are open. -/
theorem freeEntry_below {E : Fault → Prop} (h : s.nOpen pfiles ≠ maxFiles) :
    Post (freeEntry pfiles maxFiles 0) s
      (fun r s' => s' = s ∧ r < maxFiles ∧ s.entryOpen pfiles r = false) E := by
  refine freeEntry_finds.mono ?_
  rintro r _ ⟨rfl, hle, hfree, hbefore⟩
  have hlt : r < maxFiles := by
    refine Nat.lt_of_le_of_ne (by omega) fun heq => h (nOpen_full.mpr fun i hi => ?_)
    exact hbefore i (Nat.zero_le i) (by omega)
  exact ⟨rfl, hlt, hfree (by omega)⟩

/-! ## A new descriptor -/

/-- The file at `file` has gone to entry `i`. -/
def State.installed (t : State) (pfiles file : Ptr) (i : Nat) (f : File) (m : ProcFiles) : State :=
  ((t.setPage file .raw).setPage (fdAddr pfiles i) (.file f)).setPage pfiles
    (.procFiles { m with nfiles := m.nfiles + 1 })

/-- `make` has made a file, which is in entry `i` now. -/
structure Makes (pfiles : Ptr) (make : Kern (Option Ptr)) (s : State) (i : Nat) (s' : State)
    (file : Ptr) (t : State) (f : File) (m : ProcFiles) : Prop where
  made : make s = .ok (some file, t)
  keeps : KeepsFiles s t
  page : pfiles % pgSize = 0
  own : file % pgSize = 0
  filled : t.pages file = .file f
  opened : f.status = .opened
  table : s.pages pfiles = .procFiles m
  index : i < maxFiles
  free : s.entryOpen pfiles i = false
  state : s' = t.installed pfiles file i f m

namespace Makes

variable {pfiles file : Ptr} {make : Kern (Option Ptr)} {s s' t : State} {i j : Nat} {f : File}
  {m : ProcFiles}

/-- The entries of the table and the page of the file are apart. -/
theorem entry_ne (h : Makes pfiles make s i s' file t f m) (hj : j < maxFiles) :
    fdAddr pfiles j ≠ file := by
  intro heq
  exact fdAddr_inside h.page hj (heq ▸ h.own)

theorem entry_self (h : Makes pfiles make s i s' file t f m) :
    s'.pages (fdAddr pfiles i) = .file f := by
  rw [h.state, State.installed, State.setPage_ne (fdAddr_ne pfiles i), State.setPage_self]

theorem entry_other (h : Makes pfiles make s i s' file t f m) (hj : j < maxFiles) (hji : j ≠ i) :
    s'.pages (fdAddr pfiles j) = t.pages (fdAddr pfiles j) := by
  rw [h.state, State.installed, State.setPage_ne (fdAddr_ne pfiles j),
    State.setPage_ne fun heq => hji (fdAddr_inj heq), State.setPage_ne (h.entry_ne hj)]

theorem nOpen (h : Makes pfiles make s i s' file t f m) :
    s'.nOpen pfiles = s.nOpen pfiles + 1 := by
  refine nOpen_insert h.index h.free ?_ fun j hj hji => ?_
  · rw [State.entryOpen, State.file, h.entry_self]
    simpa [Page.asFile] using h.opened
  · rw [entryOpen_of_pages (h.entry_other hj hji)]
    exact h.keeps.entryOpen h.page hj

theorem nfiles (h : Makes pfiles make s i s' file t f m) :
    s'.pages pfiles = .procFiles { m with nfiles := m.nfiles + 1 } := by
  rw [h.state, State.installed, State.setPage_self]

theorem aligned (h : Makes pfiles make s i s' file t f m) : s'.FreeAligned := by
  rw [h.state]
  exact h.keeps.aligned

end Makes

/-- No more entries are open than `nfiles` says. -/
structure Room (pfiles : Ptr) (s : State) : Prop where
  page : pfiles % pgSize = 0
  aligned : s.FreeAligned
  room : ∀ m, s.pages pfiles = .procFiles m → (s.nOpen pfiles : Int) ≤ m.nfiles

/-- The call gives the descriptor of the file `make` makes, or none. -/
def Opens (pfiles : Ptr) (make : Kern (Option Ptr)) (s : State) (fd : Int) (s' : State) : Prop :=
  fd = -1 ∧ KeepsFiles s s' ∨
    ∃ (i : Nat) (file : Ptr) (t : State) (f : File) (m : ProcFiles), fd = i ∧
      Makes pfiles make s i s' file t f m

/-- After `make` the call fails with `msg`, when `nfiles` is at its limit. -/
def FailsAtLimit (pfiles : Ptr) (make : Kern (Option Ptr)) (s : State) (msg : String) (e : Fault) :
    Prop :=
  ∀ file t m, make s = .ok (some file, t) → s.pages pfiles = .procFiles m →
    e = .panic msg ∧ (maxFiles : Int) ≤ m.nfiles

namespace Room

variable {pfiles : Ptr} {s t : State}

theorem keeps_nOpen (h : Room pfiles s) (hk : KeepsFiles s t) :
    t.nOpen pfiles = s.nOpen pfiles :=
  nOpen_congr fun _ hi => hk.entryOpen h.page hi

/-- Both calls begin with the VFS. -/
theorem bindMade {rest : Option Ptr → Kern Int} {Q : Int → State → Prop}
    (hrest : ∀ q t, make s = .ok (q, t) → Post (rest q) t Q (FailsAtLimit pfiles make s msg)) :
    Post (make >>= rest) s Q (FailsAtLimit pfiles make s msg) := by
  refine .bind (R := fun q t => make s = .ok (q, t)) (.intro (fun _ _ hr => hr) ?_) hrest
  intro e he file t m hmade
  rw [he] at hmade
  cases hmade

/-- The table is read after the VFS, and it is the one there was. -/
theorem bindTable {rest : ProcFiles → Kern Int} {Q : Int → State → Prop} (hk : KeepsFiles s t)
    (hrest : ∀ m, s.pages pfiles = .procFiles m →
      Post (rest m) t Q (FailsAtLimit pfiles make s msg)) :
    Post (getProcFiles pfiles >>= rest) t Q (FailsAtLimit pfiles make s msg) := by
  refine .bind (R := fun m t' => t' = t ∧ t.procFiles pfiles = some m)
    (.bindGet (.ofOption (fun hnone => ?_) fun m hm => ⟨rfl, hm⟩)) ?_
  · rintro file t' m - hm
    have hsame := hk.same pfiles (by rw [hm]; rfl)
    rw [State.procFiles_iff.mpr (hsame.trans hm)] at hnone
    cases hnone
  · rintro m t' ⟨rfl, hm⟩
    exact hrest m (hk.tables pfiles m (State.procFiles_iff.mp hm))

/-- The end of both calls. -/
theorem place (h : Room pfiles s) {file : Ptr} {i : Nat} {m : ProcFiles}
    (hmade : make s = .ok (some file, t)) (ho : KeepsFiles.Opened s (some file) t)
    (hm : s.pages pfiles = .procFiles m) (hi : i < maxFiles) (hfree : t.entryOpen pfiles i = false)
    {E : Fault → Prop} : Post (installFile pfiles file i) t (Opens pfiles make s) E := by
  obtain ⟨hk, hnew⟩ := ho
  obtain ⟨hmod, hoff, f, hf, hopen⟩ := hnew file rfl
  have htable : (s.pages pfiles).isTable = true := by
    rw [hm]
    rfl
  have hmakes : Makes pfiles make s i (t.installed pfiles file i f m) file t f m :=
    ⟨hmade, hk, h.page, hmod, hf, hopen, hm, hi, (hk.entryOpen h.page hi).symm.trans hfree, rfl⟩
  have hne : pfiles ≠ file := by
    rintro rfl
    rw [hoff] at htable
    cases htable
  have hfile : t.file file = some f := by
    rw [State.file, hf]
    rfl
  have hmove : moveFile (fdAddr pfiles i) file t =
      .ok ((), (t.setPage file .raw).setPage (fdAddr pfiles i) (.file f)) :=
    (Exec.bind_of_ok (getFile_run hfile)).trans rfl
  have hproc : ((t.setPage file .raw).setPage (fdAddr pfiles i) (.file f)).procFiles pfiles =
      some m := by
    refine State.procFiles_iff.mpr ?_
    rw [State.setPage_ne (fdAddr_ne pfiles i).symm, State.setPage_ne hne,
      hk.same pfiles htable, hm]
  have hmin : min i (maxFiles - 1) = i := by
    unfold maxFiles at *
    omega
  unfold installFile
  rw [hmin]
  refine .step hmove (.step (Exec.get_ofOption hproc) (.bindModify (.pure ?_)))
  exact .inr ⟨i, file, t, f, m, rfl, hmakes⟩

theorem doOpen (h : Room pfiles s) {path : Path} {flags : Nat} :
    Post (Pke.doOpen hostfsIOps pfiles path flags) s
      (Opens pfiles (vfsOpen hostfsIOps path flags) s)
      (FailsAtLimit pfiles (vfsOpen hostfsIOps path flags) s
        "do_open: no file entry for current process!") := by
  refine bindMade fun q t hmade => ?_
  have ho := (KeepsFiles.refl h.aligned).vfsOpen.of_ok hmade
  cases q with
  | none => exact .pure (.inl ⟨rfl, ho.1⟩)
  | some file =>
      refine bindTable ho.1 fun m hm => ?_
      have hle := h.room m hm
      refine .ite (fun hfull => .fault fun _ _ m' _ hm' => ⟨rfl, ?_⟩) fun hroom => ?_
      · rw [hm] at hm'
        cases hm'
        exact hfull
      · refine .bind (freeEntry_below (by rw [h.keeps_nOpen ho.1]; omega)) ?_
        rintro i _ ⟨rfl, hi, hfree⟩
        exact h.place hmade ho hm hi hfree

theorem doOpendir (h : Room pfiles s) {path : Path} :
    Post (Pke.doOpendir hostfsIOps pfiles path) s (Opens pfiles (vfsOpendir hostfsIOps path) s)
      (FailsAtLimit pfiles (vfsOpendir hostfsIOps path) s
        "do_opendir: no file entry for current process!") := by
  refine bindMade fun q t hmade => ?_
  have ho := (KeepsFiles.refl h.aligned).vfsOpendir.of_ok hmade
  cases q with
  | none => exact .pure (.inl ⟨rfl, ho.1⟩)
  | some file =>
      refine bindTable ho.1 fun m hm => ?_
      by_cases hfull : s.nOpen pfiles = maxFiles
      · refine .bind freeEntry_finds ?_
        rintro i _ ⟨rfl, -, -, -⟩
        have hall := nOpen_full.mp ((h.keeps_nOpen ho.1).trans hfull)
        have hlast : min i (maxFiles - 1) < maxFiles := by
          unfold maxFiles
          omega
        refine .bindGet (.ite (fun _ => .fault fun _ _ m' _ hm' => ⟨rfl, ?_⟩) fun hnot =>
          absurd (hall _ hlast) hnot)
        have hle := h.room m' hm'
        omega
      · refine .bind (freeEntry_below (by rw [h.keeps_nOpen ho.1]; exact hfull)) ?_
        rintro i _ ⟨rfl, hi, hfree⟩
        have hmin : min i (maxFiles - 1) = i := by
          unfold maxFiles at *
          omega
        rw [hmin]
        refine .bindGet (.ite (fun hopen => ?_) fun _ => h.place hmade ho hm hi hfree)
        rw [hfree] at hopen
        cases hopen

end Room

/-! ## The table of a process that closes nothing -/

structure FdTable (pfiles : Ptr) (s : State) : Prop where
  page : pfiles % pgSize = 0
  count : ∃ m, s.pages pfiles = .procFiles m ∧ m.nfiles = s.nOpen pfiles
  aligned : s.FreeAligned

/-- The descriptor is that of an entry that was not open. -/
def Placed (pfiles : Ptr) (s : State) (fd : Int) : Prop :=
  ∃ i : Nat, fd = i ∧ i < maxFiles ∧ s.entryOpen pfiles i = false

/-- After `make` the call fails with the panic `msg`, and only when all entries are open. -/
def FailsFull (pfiles : Ptr) (make : Kern (Option Ptr)) (s : State) (msg : String) (e : Fault) :
    Prop :=
  ∀ file t, make s = .ok (some file, t) → e = .panic msg ∧ s.nOpen pfiles = maxFiles

namespace FdTable

variable {pfiles : Ptr} {s t s' : State} {make : Kern (Option Ptr)} {fd : Int}

theorem room (h : FdTable pfiles s) : Room pfiles s := by
  obtain ⟨m, hm, hcount⟩ := h.count
  refine ⟨h.page, h.aligned, fun m' hm' => ?_⟩
  rw [hm] at hm'
  cases hm'
  exact hcount.ge

theorem procFiles (h : FdTable pfiles s) :
    ∃ m, s.procFiles pfiles = some m ∧ m.nfiles = s.nOpen pfiles := by
  obtain ⟨m, hm, hcount⟩ := h.count
  exact ⟨m, State.procFiles_iff.mpr hm, hcount⟩

theorem opens (h : FdTable pfiles s) (ho : Opens pfiles make s fd s') :
    FdTable pfiles s' ∧ (fd ≠ -1 → Placed pfiles s fd) := by
  obtain ⟨m, hm, hcount⟩ := h.count
  rcases ho with ⟨rfl, hk⟩ | ⟨i, file, t, f, m', rfl, hmakes⟩
  · refine ⟨⟨h.page, ⟨m, ?_, ?_⟩, hk.aligned⟩, fun hne => absurd rfl hne⟩
    · rw [hk.same pfiles (by rw [hm]; rfl), hm]
    · rw [hcount, h.room.keeps_nOpen hk]
  · have htable := hmakes.table
    rw [hm] at htable
    cases htable
    refine ⟨⟨h.page, ⟨_, hmakes.nfiles, ?_⟩, hmakes.aligned⟩, fun _ =>
      ⟨i, rfl, hmakes.index, hmakes.free⟩⟩
    rw [hmakes.nOpen, hcount]
    push_cast
    rfl

theorem fails (h : FdTable pfiles s) {e : Fault} (he : FailsAtLimit pfiles make s msg e) :
    FailsFull pfiles make s msg e := by
  intro file t hmade
  obtain ⟨m, hm, hcount⟩ := h.count
  obtain ⟨hmsg, hlimit⟩ := he file t m hmade hm
  have hle : s.nOpen pfiles ≤ maxFiles := nOpen_le
  exact ⟨hmsg, by omega⟩

end FdTable

/-! ## Runs -/

/-- The calls that change the table. -/
inductive TableCall
  | open (pathname : Path) (flags : Nat)
  | opendir (pathname : Path)
  | close (fd : Int)
  | closedir (fd : Int)

namespace TableCall

def exec (pfiles : Ptr) : TableCall → Kern Int
  | .open pathname flags => doOpen hostfsIOps pfiles pathname flags
  | .opendir pathname => doOpendir hostfsIOps pfiles pathname
  | .close fd => doClose hostfsIOps pfiles fd
  | .closedir fd => doClosedir hostfsIOps pfiles fd

/-- No descriptor is closed: `do_close` gets a directory and `do_closedir` a file, and they
refuse it. -/
def ClosesNone (pfiles : Ptr) (s : State) : TableCall → Prop
  | .open _ _ | .opendir _ => True
  | .close fd => ∃ v, s.fdVinode pfiles fd = some v ∧ v.type ≠ fileI
  | .closedir fd => ∃ v, s.fdVinode pfiles fd = some v ∧ v.type ≠ dirI

end TableCall

/-- The states the process reaches by calls under the condition `ok`. -/
def TableRun (pfiles : Ptr) (ok : State → TableCall → Prop) : State → State → Prop :=
  Reaches fun s s' => ∃ call r, ok s call ∧ call.exec pfiles s = .ok (r, s')

theorem State.fdVinode_some {fd : Int} {v : Vinode} (h : s.fdVinode pfiles fd = some v) :
    ∃ f x, s.file (fdAddr pfiles (fdIndex fd)) = some f ∧
      s.dentry f.fDentry = some x ∧ s.vinode x.dentryInode = some v := by
  obtain ⟨f, hf, hrest⟩ := Option.bind_eq_some_iff.mp h
  obtain ⟨x, hx, hv⟩ := Option.bind_eq_some_iff.mp hrest
  exact ⟨f, x, hf, hx, hv⟩

section

variable {pfiles : Ptr} {s : State} {fd : Int} {v : Vinode} {m : ProcFiles}

/-- A directory is not closed. -/
theorem doClose_refuses (hm : s.procFiles pfiles = some m)
    (hv : s.fdVinode pfiles fd = some v) (htype : v.type ≠ fileI) :
    doClose hostfsIOps pfiles fd s = .ok (-1, s) := by
  obtain ⟨f, x, hf, hx, hv⟩ := State.fdVinode_some hv
  rw [doClose, Exec.bind_of_ok (getOpenedFile_run hm fd), vfsClose, Exec.bind_of_ok (getFile_run hf),
    Exec.bind_of_ok (getDentry_run hx), Exec.bind_of_ok (getVinode_run hv), if_pos htype]
  rfl

theorem doClosedir_refuses (hm : s.procFiles pfiles = some m)
    (hv : s.fdVinode pfiles fd = some v) (htype : v.type ≠ dirI) :
    doClosedir hostfsIOps pfiles fd s = .ok (-1, s) := by
  obtain ⟨f, x, hf, hx, hv⟩ := State.fdVinode_some hv
  rw [doClosedir, Exec.bind_of_ok (getOpenedFile_run hm fd), vfsClosedir,
    Exec.bind_of_ok (getFile_run hf), Exec.bind_of_ok (getDentry_run hx),
    Exec.bind_of_ok (getVinode_run hv), if_pos htype]
  rfl

end

theorem FdTable.step {s' : State} (h : FdTable pfiles s) {call : TableCall}
    (hok : call.ClosesNone pfiles s) {r : Int} (hrun : call.exec pfiles s = .ok (r, s')) :
    FdTable pfiles s' := by
  obtain ⟨m, hm, -⟩ := h.procFiles
  cases call with
  | «open» pathname flags => exact (h.opens (h.room.doOpen.of_ok hrun)).1
  | opendir pathname => exact (h.opens (h.room.doOpendir.of_ok hrun)).1
  | close fd =>
      obtain ⟨v, hv, htype⟩ := hok
      cases (doClose_refuses hm hv htype).symm.trans hrun
      exact h
  | closedir fd =>
      obtain ⟨v, hv, htype⟩ := hok
      cases (doClosedir_refuses hm hv htype).symm.trans hrun
      exact h

/-! ## The table at the start -/

theorem clearEntry_page (s : State) {pfiles i : Nat} {q : Ptr} (h : q ≠ fdAddr pfiles i) :
    (s.clearEntry pfiles i).pages q = s.pages q := by
  unfold State.clearEntry
  split
  · exact State.setPage_ne h
  · rfl

theorem clearEntry_closed (s : State) (pfiles i : Nat) :
    (s.clearEntry pfiles i).entryOpen pfiles i = false := by
  unfold State.clearEntry
  split
  · simp [State.entryOpen, State.file, Page.asFile, State.setPage_self]
  · rename_i hnone
    simp [State.entryOpen, hnone]

theorem clearEntry_freePages (s : State) (pfiles i : Nat) :
    (s.clearEntry pfiles i).freePages = s.freePages := by
  unfold State.clearEntry
  split <;> rfl

/-- The loop leaves no entry open. -/
theorem clearEntries_clears {pfiles : Nat} {E : Fault → Prop} : ∀ {n : Nat} {s : State},
    Post (clearEntries pfiles n) s (fun _ s' => s'.pages pfiles = s.pages pfiles ∧
      s'.freePages = s.freePages ∧ ∀ i < n, s'.entryOpen pfiles i = false) E
  | 0, _ => .pure ⟨rfl, rfl, fun i hi => absurd hi (Nat.not_lt_zero i)⟩
  | n + 1, s => by
      refine .bind clearEntries_clears fun _ s1 h1 => .modify ⟨?_, ?_, fun i hi => ?_⟩
      · rw [clearEntry_page s1 (fdAddr_ne pfiles n).symm, h1.1]
      · rw [clearEntry_freePages, h1.2.1]
      · rcases Nat.eq_or_lt_of_le (Nat.le_of_lt_succ hi) with rfl | hlt
        · exact clearEntry_closed s1 pfiles i
        · have hne : fdAddr pfiles i ≠ fdAddr pfiles n := fun heq => by
            have := fdAddr_inj heq
            omega
          rw [entryOpen_of_pages (clearEntry_page s1 hne)]
          exact h1.2.2 i hlt

theorem initProcFileManagement_clears (h : s.FreeAligned) :
    Post initProcFileManagement s (fun pfiles s' => FdTable pfiles s' ∧
      ∀ i < maxFiles, s'.entryOpen pfiles i = false) fun _ => True := by
  unfold initProcFileManagement clearTable
  -- the loop is not to be unrolled
  generalize hn : maxFiles = n
  refine .bind (KeepsFiles.refl h).allocPage ?_
  rintro pfiles s1 ⟨hmod, -, h1⟩
  refine .bind (.bindGet (.bindModify clearEntries_clears)) ?_
  rintro _ s2 ⟨hpage, hfree, hclear⟩
  refine .pure ⟨⟨hmod, ⟨_, hpage.trans (State.setPage_self ..), ?_⟩, ?_⟩, fun i hi =>
    hclear i (hn ▸ hi)⟩
  · have hnone : s2.nOpen pfiles = 0 := by
      refine Finset.card_eq_zero.mpr (Finset.filter_eq_empty_iff.mpr fun i hi => ?_)
      rw [hclear i (hn ▸ Finset.mem_range.mp hi)]
      exact Bool.false_ne_true
    rw [hnone]
    rfl
  · unfold State.FreeAligned
    rw [hfree]
    exact h1.aligned

theorem initProcFileManagement_table (h : s.FreeAligned) :
    Post initProcFileManagement s (fun pfiles s' => FdTable pfiles s') fun _ => True :=
  (initProcFileManagement_clears h).mono fun _ _ hs => hs.1

/-! ## What holds while nothing is closed -/

/-- `nfiles` counts the open entries, `do_open` and `do_opendir` find an entry unless all of
them are open, and the entry they take was not open. -/
structure TableExact (pfiles : Ptr) (s : State) : Prop where
  nfiles : ∃ m, s.procFiles pfiles = some m ∧ m.nfiles = s.nOpen pfiles
  openFull : ∀ path flags e, doOpen hostfsIOps pfiles path flags s = .error e →
    FailsFull pfiles (vfsOpen hostfsIOps path flags) s
      "do_open: no file entry for current process!" e
  openPlaced : ∀ path flags fd s', doOpen hostfsIOps pfiles path flags s = .ok (fd, s') →
    fd ≠ -1 → Placed pfiles s fd
  opendirFull : ∀ path e, doOpendir hostfsIOps pfiles path s = .error e →
    FailsFull pfiles (vfsOpendir hostfsIOps path) s
      "do_opendir: no file entry for current process!" e
  opendirPlaced : ∀ path fd s', doOpendir hostfsIOps pfiles path s = .ok (fd, s') →
    fd ≠ -1 → Placed pfiles s fd

/-- A process that closes nothing, from the table it is made with: the table is exact in every
state it reaches. -/
theorem nfiles_exact {s0 s1 s : State} {pfiles : Ptr} (haligned : s0.FreeAligned)
    (hinit : initProcFileManagement s0 = .ok (pfiles, s1))
    (hrun : TableRun pfiles (fun s call => call.ClosesNone pfiles s) s1 s) :
    TableExact pfiles s := by
  have h : FdTable pfiles s := by
    refine Reaches.invariant ((initProcFileManagement_table haligned).of_ok hinit) ?_ hrun
    rintro s s' hs ⟨call, r, hok, hcall⟩
    exact hs.step hok hcall
  refine ⟨h.procFiles, ?_, ?_, ?_, ?_⟩
  · exact fun path flags e he => h.fails (h.room.doOpen.of_error he)
  · exact fun path flags fd s' hfd => (h.opens (h.room.doOpen.of_ok hfd)).2
  · exact fun path e he => h.fails (h.room.doOpendir.of_error he)
  · exact fun path fd s' hfd => (h.opens (h.room.doOpendir.of_ok hfd)).2

/-! ## Runs of a new process -/

instance (pfiles : Ptr) (s : State) : (call : TableCall) → Decidable (call.ClosesNone pfiles s)
  | .open _ _ | .opendir _ => .isTrue trivial
  | .close fd =>
      decidable_of_iff ((s.fdVinode pfiles fd).any fun v => decide (v.type ≠ fileI)) (by
        simp [Option.any_eq_true, TableCall.ClosesNone])
  | .closedir fd =>
      decidable_of_iff ((s.fdVinode pfiles fd).any fun v => decide (v.type ≠ dirI)) (by
        simp [Option.any_eq_true, TableCall.ClosesNone])

/-- The steps one after the other. -/
def replayWith {σ C : Type} (next : C → σ → Option σ) : List C → σ → Option σ
  | [], s => some s
  | c :: rest, s =>
      match next c s with
      | some s' => replayWith next rest s'
      | none => none

theorem reaches_of_replay {σ C : Type} {next : C → σ → Option σ} {step : σ → σ → Prop}
    (hnext : ∀ c s s', next c s = some s' → step s s') {s0 : σ} : ∀ {cs : List C} {s s' : σ},
    Reaches step s0 s → replayWith next cs s = some s' → Reaches step s0 s'
  | [], _, _, hrun, h => Option.some.inj h ▸ hrun
  | c :: rest, s, s', hrun, h => by
      rw [replayWith] at h
      split at h
      · rename_i s1 hs1
        exact reaches_of_replay hnext (hrun.tail (hnext c s s1 hs1)) h
      · cases h

/-- The state after a call that meets the condition. -/
def TableCall.next (pfiles : Ptr) (ok : State → TableCall → Prop)
    [∀ s call, Decidable (ok s call)] (call : TableCall) (s : State) : Option State :=
  if ok s call then (call.exec pfiles s).toOption.map (·.2) else none

theorem TableCall.next_some {ok : State → TableCall → Prop} [∀ s call, Decidable (ok s call)]
    {call : TableCall} {s' : State} (h : call.next pfiles ok s = some s') :
    ok s call ∧ ∃ r, call.exec pfiles s = .ok (r, s') := by
  unfold TableCall.next at h
  split at h
  · rename_i hok
    refine ⟨hok, ?_⟩
    cases hrun : call.exec pfiles s with
    | error e =>
        rw [hrun] at h
        cases h
    | ok q =>
        rw [hrun] at h
        cases h
        exact ⟨q.1, rfl⟩
  · cases h

/-- A process that is made in `s0` makes the calls. -/
theorem tableRun_with (ok : Ptr → State → TableCall → Prop)
    [∀ pfiles s call, Decidable (ok pfiles s call)] (calls : List TableCall) (s0 : State)
    (P : Ptr → State → Bool)
    (h : endsWith initProcFileManagement s0 (fun pfiles s1 =>
      (replayWith (TableCall.next pfiles (ok pfiles)) calls s1).any (P pfiles)) = true) :
    ∃ pfiles s1 s, initProcFileManagement s0 = .ok (pfiles, s1) ∧
      TableRun pfiles (ok pfiles) s1 s ∧ P pfiles s = true := by
  unfold endsWith at h
  split at h
  · rename_i pfiles s1 hinit
    obtain ⟨s, hs, hP⟩ := (Option.any_eq_true _ _).mp h
    refine ⟨pfiles, s1, s, hinit, reaches_of_replay (fun call s s' hnext => ?_) .refl hs, hP⟩
    obtain ⟨hok, r, hrun⟩ := TableCall.next_some hnext
    exact ⟨call, r, hok, hrun⟩
  · cases h

theorem smallBoot_aligned : smallBoot.state.FreeAligned := by
  unfold State.FreeAligned
  decide +kernel

/-- Two files are open, and a directory. -/
theorem nfiles_exact_three : ∃ pfiles s1 s,
    initProcFileManagement smallBoot.state = .ok (pfiles, s1) ∧
      TableRun pfiles (fun s call => call.ClosesNone pfiles s) s1 s ∧ s.nOpen pfiles = 3 ∧
      TableExact pfiles s := by
  obtain ⟨pfiles, s1, s, hinit, hrun, hopen⟩ := tableRun_with
    (fun pfiles s call => call.ClosesNone pfiles s)
    [.open pathA rdwrCreat, .open pathA rdwrCreat, .opendir pathRoot, .closedir 0]
    smallBoot.state (fun pfiles s => s.nOpen pfiles == 3) (by decide +kernel)
  exact ⟨pfiles, s1, s, hinit, hrun, beq_iff_eq.mp hopen,
    nfiles_exact smallBoot_aligned hinit hrun⟩

/-- A file is opened and closed: `nfiles` is one, and no entry is open. -/
theorem nfiles_drifts : ∃ pfiles s1 s,
    initProcFileManagement smallBoot.state = .ok (pfiles, s1) ∧
      TableRun pfiles (fun _ _ => True) s1 s ∧ ¬TableExact pfiles s := by
  obtain ⟨pfiles, s1, s, hinit, hrun, hcount⟩ := tableRun_with (fun _ _ _ => True)
    [.open pathA rdwrCreat, .close 0] smallBoot.state
    (fun pfiles s => (s.procFiles pfiles).any (·.nfiles == 1) && s.nOpen pfiles == 0)
    (by decide +kernel)
  refine ⟨pfiles, s1, s, hinit, hrun, fun hexact => ?_⟩
  obtain ⟨m, hm, hnfiles⟩ := hexact.nfiles
  simp only [hm, Option.any_some, Bool.and_eq_true, beq_iff_eq] at hcount
  rw [hcount.1, hcount.2] at hnfiles
  cases hnfiles

end Pke
