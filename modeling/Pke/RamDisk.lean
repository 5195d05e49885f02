import Pke.KernelVm
import Pke.Replay

/-!
# Setting up the RAM disk (`init_rfs_device`)

The RAM disk is 128 pages that `alloc_page` hands out one after the other,
used as one region from the last of them on. That they are neighbours is
checked only against a panic. It follows from the order of the free list:
`pmm_init` frees the pages upwards, so the list runs downwards without a gap,
and up to `init_rfs_device` boot takes pages from its front and gives none
back. The two places that could give one back are the error paths of
`hash_put_dentry` and `hash_put_vinode`; the tables are empty at boot.

`Took s0 s ps` says that `ps` have been taken from the front of the list since
`s0`. The registration of the file systems and devices is modelled here, with
`fs_list` and `rfs_device_list` beside the state of the file system. As for
the other arrays of pointers, a list stands for the entries that are not
`NULL`.
-/

namespace Pke

open Exec (Post get modify fault onSnd)
open Phys (pagesFrom mem_pagesFrom)

/-! ## Registration -/

/-- `MAX_SUPPORTED_FS`. -/
abbrev maxSupportedFs : Nat := 10

/-- `MAX_VFS_DEV`. -/
abbrev maxVfsDev : Nat := 10

/-- `MAX_RAMDISK_COUNT`. -/
abbrev maxRamdiskCount : Nat := 10

/-- `RAMDISK_BLOCK_SIZE`. -/
abbrev ramdiskBlockSize : Nat := pgSize

/-- `struct rfs_device`. -/
structure RfsDevice where
  dBlocks : Nat
  dBlocksize : Nat
  dAddress : Ptr
  iobuffer : Ptr

/-- `fs_list` and `rfs_device_list`. -/
structure Drivers where
  fsList : List FsType
  rfsDeviceList : List RfsDevice

/-- Boot code. -/
abbrev BootM := Exec (Drivers × State) Fault

/-- `vfs_init`. -/
def vfsInit : Kern Unit :=
  modify fun s => { s with dentryHash := .empty, vinodeHash := .empty }

/-- The device is added to `vfs_dev_list` where there is room. -/
def addDevice (dev : Device) : Kern Unit :=
  modify fun s =>
    if s.vfsDevList.length < maxVfsDev then { s with vfsDevList := s.vfsDevList ++ [dev] } else s

/-- `register_hostfs` and `register_rfs`. -/
def registerFs (type : FsType) : BootM Int := do
  let _ ← onSnd allocPage
  let w ← get
  if w.1.fsList.length < maxSupportedFs then do
    modify fun w => ({ w.1 with fsList := w.1.fsList ++ [type] }, w.2)
    pure 0
  else pure (-1)

def registerHostfs : BootM Int := registerFs .hostfs

def registerRfs : BootM Int := registerFs .rfs

/-- `init_host_device`. -/
def initHostDevice (name : Name) : BootM Ptr := do
  let w ← get
  if FsType.hostfs ∈ w.1.fsList then do
    let device ← onSnd allocPage
    onSnd (addDevice ⟨name, .hostfs⟩)
    pure device
  else fault (.panic "init_host_device: No HOSTFS file system found!")

/-- `alloc_page` where its result is not looked into: `0` for `NULL`. -/
def allocPageOrNull : Kern Ptr := do
  let s ← get
  if s.freePages = [] then pure 0 else allocPage

/-- The loop of `init_rfs_device`: `n` more pages, each below the last one. -/
def allocDisk : (n currAddr : Nat) → Kern Ptr
  | 0, currAddr => pure currAddr
  | n + 1, lastAddr => do
      let currAddr ← allocPageOrNull
      if lastAddr ≠ 0 ∧ (lastAddr : Int) - currAddr ≠ pgSize then
        fault (.panic "RAM Disk0: address is discontinuous!")
      else allocDisk n currAddr

/-- `init_rfs_device`. -/
def initRfsDevice (devName : Name) : BootM Ptr := do
  let w ← get
  if FsType.rfs ∈ w.1.fsList then do
    let ramdiskAddr ← onSnd (allocDisk ramdiskBlockCount.toNat 0)
    let w ← get
    if w.1.rfsDeviceList.length < maxRamdiskCount then do
      let _ ← onSnd allocPage
      let iobuffer ← onSnd allocPage
      modify fun w => ({ w.1 with
        rfsDeviceList := w.1.rfsDeviceList ++
          [⟨ramdiskBlockCount.toNat, ramdiskBlockSize, ramdiskAddr, iobuffer⟩] }, w.2)
      let device ← onSnd allocPage
      onSnd (addDevice ⟨devName, .rfs⟩)
      pure device
    else fault (.panic "RAM Disk0: no free device!")
  else fault (.panic "No RFS file system found!")

/-- `fs_init` up to the RAM disk. -/
def fsInitHost : BootM Unit := do
  onSnd vfsInit
  if (← registerHostfs) < 0 then fault (.panic "fs_init: cannot register hostfs.")
  else do
    let _ ← initHostDevice hostdevName
    let _ ← onSnd (vfsMount hostdevName .asRoot)
    if (← registerRfs) < 0 then fault (.panic "fs_init: cannot register rfs.")
    else pure ()

/-- `fs_init` as far as the RAM disk exists. -/
def fsInitDevices : BootM Ptr := do
  fsInitHost
  initRfsDevice ramdiskName

/-! ## Pages taken from the front of the list -/

/-- The free pages are free, and none is on the list twice. -/
structure FreshPages (s : State) : Prop where
  nodup : s.freePages.Nodup
  free : ∀ p ∈ s.freePages, s.pages p = .free

/-- The pages `ps` have been taken since `s0`, and no other has been written. -/
structure Took (s0 s : State) (ps : List Ptr) : Prop where
  list : s0.freePages = ps ++ s.freePages
  keep : ∀ q ∉ ps, s.pages q = s0.pages q

section

variable {s0 s : State} {ps : List Ptr}

theorem Took.refl (s : State) : Took s s [] := ⟨rfl, fun _ _ => rfl⟩

theorem Took.set (h : Took s0 s ps) {p : Ptr} (hp : p ∈ ps) (c : Page) :
    Took s0 (s.setPage p c) ps := by
  refine ⟨h.list, fun q hq => ?_⟩
  have hne : q ≠ p := fun heq => hq (heq ▸ hp)
  exact (upd_ne hne).trans (h.keep q hq)

/-- What a mount leaves of the globals it reads. -/
structure SameTables (s s' : State) : Prop where
  dentries : s'.dentryHash = s.dentryHash
  devices : s'.vfsDevList = s.vfsDevList
  mounts : s'.vfsSbList = s.vfsSbList

theorem SameTables.trans {s s' s'' : State} (h : SameTables s s') (h' : SameTables s' s'') :
    SameTables s s'' :=
  ⟨h'.dentries.trans h.dentries, h'.devices.trans h.devices, h'.mounts.trans h.mounts⟩

section

variable (h0 : FreshPages s0) (h : Took s0 s ps)

include h0 h

/-- A page taken is one that was free, and not one of those taken before. -/
theorem allocPage_took (hlen : ps.length < s0.freePages.length) :
    Post allocPage s (fun p s' => Took s0 s' (ps ++ [p]) ∧ p ∉ ps ∧
      s'.pages = upd s.pages p .raw ∧ SameTables s s') fun _ => False := by
  unfold allocPage
  refine .bindGet ?_
  have hlist := h.list
  cases hfree : s.freePages with
  | nil =>
      rw [hfree, List.append_nil] at hlist
      rw [hlist] at hlen
      exact absurd hlen (Nat.lt_irrefl _)
  | cons p rest =>
      rw [hfree] at hlist
      have hnodup := h0.nodup
      rw [hlist] at hnodup
      have hnew : p ∉ ps := fun hp =>
        (List.nodup_append.mp hnodup).2.2 p hp p (List.mem_cons_self ..) rfl
      have hpage : s.pages p = .free := by
        rw [h.keep p hnew]
        exact h0.free p (by rw [hlist]; simp)
      dsimp only
      rw [if_pos (by rw [hpage]; rfl)]
      refine .bindModify (.pure ⟨⟨by simpa using hlist, fun q hq => ?_⟩, hnew, rfl, rfl, rfl, rfl⟩)
      simp only [List.mem_append, List.mem_singleton, not_or] at hq
      exact (upd_ne hq.2).trans (h.keep q hq.1)

theorem defaultAllocVinode_took (hlen : ps.length < s0.freePages.length) (sb : Ptr) (type : FsType) :
    Post (defaultAllocVinode sb type) s (fun w s' => Took s0 s' (ps ++ [w]) ∧ w ∉ ps ∧
      (∃ v, s'.pages w = .vinode v) ∧ SameTables s s') fun _ => False := by
  refine .bind (allocPage_took h0 h hlen) ?_
  rintro w s1 ⟨h1, hw, -, hsame⟩
  refine .bindModify (.pure ⟨h1.set (by simp) _, hw, ⟨_, State.setPage_self ..⟩, ?_⟩)
  exact ⟨hsame.dentries, hsame.devices, hsame.mounts⟩

theorem allocVfsDentry_took (hlen : ps.length < s0.freePages.length) (name : Name) (parent : Ptr)
    {w : Ptr} {v : Vinode} (hw : w ∈ ps) (hv : s.pages w = .vinode v) :
    Post (allocVfsDentry name w parent) s (fun t s' => Took s0 s' (ps ++ [t]) ∧ t ∉ ps ∧
      s'.pages t = .dentry ⟨name, 0, w, parent⟩ ∧
      (∃ v', s'.pages w = .vinode v' ∧ v'.inum = v.inum) ∧ SameTables s s') fun _ => False := by
  refine .bind (allocPage_took h0 h hlen) ?_
  rintro t s1 ⟨h1, ht, hpages, hsame⟩
  refine .bindModify ?_
  have hwt : w ≠ t := fun heq => ht (heq ▸ hw)
  have h2 := h1.set (p := t) (by simp) (.dentry ⟨name, 0, w, parent⟩)
  have hdentry := State.setPage_self s1 t (.dentry ⟨name, 0, w, parent⟩)
  have hvinode : (s1.setPage t (.dentry ⟨name, 0, w, parent⟩)).pages w = .vinode v := by
    rw [State.setPage_ne hwt, hpages, upd_ne hwt, hv]
  have hsame2 : SameTables s (s1.setPage t (.dentry ⟨name, 0, w, parent⟩)) :=
    ⟨hsame.dentries, hsame.devices, hsame.mounts⟩
  refine .ite (fun _ => ?_) fun _ => .pure ⟨h2, ht, hdentry, ⟨v, hvinode, rfl⟩, hsame2⟩
  -- the new dentry counts as a reference to its vinode
  generalize s1.setPage t (.dentry ⟨name, 0, w, parent⟩) = s2 at *
  have hadd : addRef w 1 s2 = .ok ((), s2.setPage w (.vinode { v with ref := v.ref + 1 })) :=
    Exec.bind_of_ok (Exec.get_ofOption (congrArg Page.asVinode hvinode))
  refine .step hadd (.pure ⟨h2.set (by simp [hw]) _, ht, ?_, ⟨_, State.setPage_self .., rfl⟩, ?_⟩)
  · rw [State.setPage_ne hwt.symm, hdentry]
  · exact ⟨hsame2.dentries, hsame2.devices, hsame2.mounts⟩

/-- The super block of the host, its root vinode and its root dentry. -/
structure HostMounted (s : State) (sb w t : Ptr) : Prop where
  superBlock : ∃ B, s.pages sb = .superBlock B ∧ B.sRoot = t
  dentry : ∃ x, s.pages t = .dentry x ∧ x.dentryInode = w
  vinode : ∃ v, s.pages w = .vinode v ∧ v.inum = -1

theorem hostfsGetSuperblock_took (hlen : ps.length + 3 ≤ s0.freePages.length) :
    Post hostfsGetSuperblock s (fun sb s' => ∃ w t, Took s0 s' (ps ++ [sb, w, t]) ∧
      HostMounted s' sb w t ∧ SameTables s s') fun _ => False := by
  unfold hostfsGetSuperblock
  refine .bind (allocPage_took h0 h (by omega)) ?_
  rintro sb s1 ⟨h1, -, -, hsame1⟩
  refine .bind (defaultAllocVinode_took h0 h1 (by simp; omega) _ _) ?_
  rintro w s2 ⟨h2, hw, ⟨v, hv⟩, hsame2⟩
  refine .step (Exec.get_ofOption (congrArg Page.asVinode hv)) (.bindModify ?_)
  have h3 := h2.set (p := w) (by simp) (.vinode { v with inum := -1, type := dirI })
  refine .bind (allocVfsDentry_took h0 h3 (by simp; omega) _ _ (by simp)
    (State.setPage_self ..)) ?_
  rintro t s4 ⟨h4, ht, hx, ⟨v', hv', hinum⟩, hsame4⟩
  refine .bindModify (.pure ⟨w, t, ?_, ⟨⟨_, State.setPage_self .., rfl⟩,
    ⟨⟨rootName, 0, w, 0⟩, ?_, rfl⟩, ⟨v', ?_, hinum⟩⟩, ?_⟩)
  · simpa using h4.set (p := sb) (by simp) _
  · rw [State.setPage_ne (fun heq => ht (by simp [heq])), hx]
  · rw [State.setPage_ne (fun heq => hw (by simp [heq])), hv']
  · exact (hsame1.trans hsame2).trans ⟨hsame4.dentries, hsame4.devices, hsame4.mounts⟩

/-- The key goes into an empty table, so its page is not given back. -/
theorem hashPutDentry_took (hlen : ps.length + 2 ≤ s0.freePages.length)
    (hempty : s.dentryHash = .empty) {t : Ptr} {x : Dentry} (hx : s.pages t = .dentry x) :
    Post (hashPutDentry t) s (fun _ s' => (∃ key node, Took s0 s' (ps ++ [key, node])) ∧
      s'.vfsDevList = s.vfsDevList) fun _ => False := by
  refine .step (Exec.get_ofOption (congrArg Page.asDentry hx)) ?_
  refine .bind (allocPage_took h0 h (by omega)) ?_
  rintro key s1 ⟨h1, -, -, hsame1⟩
  refine .bind (R := fun ret s' => ret = 0 ∧ (∃ node, Took s0 s' (ps ++ [key] ++ [node])) ∧
    s'.vfsDevList = s.vfsDevList) ?_ ?_
  · refine .bind (allocPage_took h0 h1 (by simp; omega)) ?_
    rintro node s2 ⟨h2, -, -, hsame2⟩
    have hnone : defaultGet dentryTable ⟨x.parent, x.name⟩ s2 = .ok (none, s2) := by
      have hread : s2.dentryHash = .empty := hsame2.dentries.trans (hsame1.dentries.trans hempty)
      unfold defaultGet
      rw [Exec.bind_get, show dentryTable.read s2 = .empty from hread]
      rfl
    refine .step hnone (.bindModify (.pure ⟨rfl, ⟨node, ?_⟩, ?_⟩))
    · have h3 := h2.set (p := node) (by simp) (.hashNode (dentryTable.tag ⟨x.parent, x.name⟩))
      exact ⟨h3.list, h3.keep⟩
    · exact hsame2.devices.trans hsame1.devices
  · rintro _ s2 ⟨rfl, ⟨node, h2⟩, hdevs⟩
    rw [if_neg (by decide)]
    exact .pure ⟨⟨key, node, by simpa using h2⟩, hdevs⟩

/-- The mount of the host file system takes five pages. -/
theorem mountHost_took (hlen : ps.length + 5 ≤ s0.freePages.length) (hempty : s.dentryHash = .empty)
    (hmounts : s.vfsSbList.length < maxMounts) {name : Name} {dev : Device}
    (hdev : s.vfsDevList.find? (·.devName == name) = some dev) (hhost : dev.fsType = .hostfs) :
    Post (vfsMount name .asRoot) s (fun _ s' => (∃ qs, qs.length = 5 ∧ Took s0 s' (ps ++ qs)) ∧
      s'.vfsDevList = s.vfsDevList) fun _ => False := by
  unfold vfsMount
  refine .bindGet ?_
  rw [hdev]
  dsimp only
  rw [hhost]
  refine .bind (hostfsGetSuperblock_took h0 h (by omega)) ?_
  rintro sb s1 ⟨w, t, h1, ⟨⟨B, hB, hroot⟩, ⟨x, hx, hinode⟩, ⟨v, hv, hinum⟩⟩, hsame⟩
  subst hroot hinode
  refine .step (Exec.get_ofOption (congrArg Page.asSuperBlock hB)) ?_
  refine .step (Exec.get_ofOption (congrArg Page.asDentry hx)) ?_
  -- the root vinode of the host has no number, and is not put into the table
  have hput : hashPutVinode x.dentryInode s1 = .ok (-1, s1) := by
    have hget : getVinode x.dentryInode s1 = .ok (v, s1) :=
      Exec.get_ofOption (congrArg Page.asVinode hv)
    unfold hashPutVinode
    rw [Exec.bind_of_ok hget, if_pos (by rw [hinum]; decide)]
    rfl
  refine .step hput (.bindGet ?_)
  rw [if_neg (by rw [hsame.mounts]; omega)]
  refine .bindModify (.bindModify ?_)
  refine .bind (hashPutDentry_took h0 (?_ : Took s0 _ (ps ++ [sb, x.dentryInode, B.sRoot]))
    (by simp; omega) ?_ (x := x) ?_) ?_
  · exact ⟨h1.list, h1.keep⟩
  · exact hsame.dentries.trans hempty
  · exact hx
  · rintro _ s2 ⟨⟨key, node, h2⟩, hdevs⟩
    refine .pure ⟨⟨[sb, x.dentryInode, B.sRoot, key, node], rfl, by simpa using h2⟩, ?_⟩
    exact hdevs.trans hsame.devices

theorem Took.fresh : FreshPages s := by
  have hnodup := h0.nodup
  rw [h.list] at hnodup
  obtain ⟨-, hrest, hapart⟩ := List.nodup_append.mp hnodup
  refine ⟨hrest, fun p hp => ?_⟩
  rw [h.keep p fun hmem => hapart p hmem p hp rfl]
  exact h0.free p (by rw [h.list]; simp [hp])

end

theorem Took.trans {s' : State} {qs : List Ptr} (h : Took s0 s ps) (h' : Took s s' qs) :
    Took s0 s' (ps ++ qs) := by
  refine ⟨by rw [h.list, h'.list, List.append_assoc], fun q hq => ?_⟩
  rw [List.mem_append, not_or] at hq
  exact (h'.keep q hq.2).trans (h.keep q hq.1)

/-! ## The loop of `init_rfs_device` -/

/-- From a list that runs downwards without a gap the loop takes neighbours. -/
theorem allocDisk_took {start m : Nat} : ∀ {n lastAddr : Nat} {s : State}, FreshPages s →
    s.freePages = pagesFrom start (m + n) →
    (lastAddr = 0 ∨ lastAddr = start + (m + n) * pgSize) →
    Post (allocDisk n lastAddr) s (fun a s' => Took s s' (pagesFrom (start + m * pgSize) n) ∧
      (a = start + m * pgSize ∨ n = 0 ∧ a = lastAddr) ∧
      (∀ p ∈ pagesFrom (start + m * pgSize) n, s'.pages p = .raw) ∧ SameTables s s')
      fun _ => False := by
  intro n
  induction n with
  | zero =>
      intro lastAddr s hfresh hlist hlast
      exact .pure ⟨.refl s, .inr ⟨rfl, rfl⟩, fun p hp => by simp [pagesFrom] at hp, rfl, rfl, rfl⟩
  | succ n ih =>
      intro lastAddr s hfresh hlist hlast
      have hcons : s.freePages = (start + (m + n) * pgSize) :: pagesFrom start (m + n) := hlist
      unfold allocDisk allocPageOrNull
      refine .bind (R := fun p s1 => p = start + (m + n) * pgSize ∧ Took s s1 [p] ∧
        s1.pages p = .raw ∧ SameTables s s1) (.bindGet ?_) ?_
      · rw [if_neg (by rw [hcons]; simp)]
        refine .mono (allocPage_took hfresh (.refl s) (by simp [hcons])) ?_
        rintro p s1 ⟨h1, -, hpages, hsame⟩
        have hp : start + (m + n) * pgSize = p := by
          have hlist1 := h1.list
          rw [hcons] at hlist1
          exact (List.cons.inj hlist1).1
        exact ⟨hp.symm, h1, by rw [hpages, upd_self], hsame⟩
      · rintro _ s1 ⟨rfl, h1, hraw, hsame⟩
        -- the page before was the next one up
        rw [if_neg (by unfold pgSize at *; omega)]
        have hlist1 : s1.freePages = pagesFrom start (m + n) := by
          have hlist1 := h1.list
          rw [hcons] at hlist1
          exact (List.cons.inj hlist1).2.symm
        refine .mono (ih (h1.fresh hfresh) hlist1 (.inr rfl)) ?_
        rintro a s2 ⟨h2, ha, hraw2, hsame2⟩
        have hstep : pagesFrom (start + m * pgSize) (n + 1) =
            [start + (m + n) * pgSize] ++ pagesFrom (start + m * pgSize) n := by
          rw [pagesFrom, Nat.add_assoc, ← Nat.add_mul]
          rfl
        have hnew : start + (m + n) * pgSize ∉ pagesFrom (start + m * pgSize) n := by
          rw [mem_pagesFrom]
          rintro ⟨k, hk, heq⟩
          unfold pgSize at heq
          omega
        rw [hstep]
        refine ⟨h1.trans h2, .inl ?_, fun p hp => ?_, hsame.trans hsame2⟩
        · rcases ha with ha | ⟨rfl, ha⟩
          · exact ha
          · exact ha
        · rcases List.mem_append.mp hp with hp | hp
          · obtain rfl := List.mem_singleton.mp hp
            rw [h2.keep _ hnew, hraw]
          · exact hraw2 p hp

/-! ## `fs_init` -/

theorem registerFs_took (h0 : FreshPages s0) (h : Took s0 s ps)
    (hlen : ps.length < s0.freePages.length) {drv : Drivers}
    (hroom : drv.fsList.length < maxSupportedFs) (type : FsType) :
    Post (registerFs type) (drv, s) (fun ret w => ret = 0 ∧
      w.1 = { drv with fsList := drv.fsList ++ [type] } ∧ (∃ p, Took s0 w.2 (ps ++ [p])) ∧
      SameTables s w.2) fun _ => False := by
  refine .bindOnSnd (allocPage_took h0 h hlen) ?_
  rintro p s1 ⟨h1, -, -, hsame⟩
  refine .bindGet ?_
  rw [if_pos hroom]
  exact .bindModify (.pure ⟨rfl, rfl, ⟨p, h1⟩, hsame⟩)

theorem initHostDevice_took (h0 : FreshPages s0) (h : Took s0 s ps)
    (hlen : ps.length < s0.freePages.length) {drv : Drivers} (hreg : FsType.hostfs ∈ drv.fsList)
    (hnone : s.vfsDevList = []) (name : Name) :
    Post (initHostDevice name) (drv, s) (fun _ w => w.1 = drv ∧ (∃ p, Took s0 w.2 (ps ++ [p])) ∧
      w.2.dentryHash = s.dentryHash ∧ w.2.vfsSbList = s.vfsSbList ∧
      w.2.vfsDevList = [⟨name, .hostfs⟩]) fun _ => False := by
  refine .bindGet ?_
  rw [if_pos hreg]
  refine .bindOnSnd (allocPage_took h0 h hlen) ?_
  rintro p s1 ⟨h1, -, -, hsame⟩
  have hdevs : s1.vfsDevList = [] := hsame.devices.trans hnone
  refine .bindOnSnd (R := fun _ s2 => s2 = { s1 with vfsDevList := [⟨name, .hostfs⟩] }) ?_ ?_
  · refine .modify ?_
    rw [hdevs]
    rfl
  · rintro _ _ rfl
    exact .pure ⟨rfl, ⟨p, h1.list, h1.keep⟩, hsame.dentries, hsame.mounts, rfl⟩

/-- The file system before `fs_init`: the free pages are those of `l`, and the
arrays of devices and mounts are as the loader leaves them. -/
structure BeforeFsInit (l : List Ptr) (s : State) : Prop where
  list : s.freePages = l
  free : ∀ p ∈ l, s.pages p = .free
  devices : s.vfsDevList = []
  mounts : s.vfsSbList = []

/-- Nothing registered. -/
def Drivers.none : Drivers := ⟨[], []⟩

/-- Up to the RAM disk `fs_init` takes eight pages and gives none back. -/
theorem fsInitHost_took {l : List Ptr} (h : BeforeFsInit l s) (hl : l.Nodup)
    (hlen : 8 ≤ l.length) :
    Post fsInitHost (.none, s) (fun _ w => w.1 = ⟨[.hostfs, .rfs], []⟩ ∧
      ∃ ps, ps.length = 8 ∧ Took s w.2 ps) fun _ => False := by
  obtain ⟨rfl, hfree, hdevs, hmounts⟩ := h
  have h0 : FreshPages s := ⟨hl, hfree⟩
  refine .bindOnSnd (R := fun _ s1 => s1 = { s with dentryHash := .empty, vinodeHash := .empty })
    (.modify rfl) ?_
  rintro _ s1 hs1
  have h1 : Took s s1 [] := by
    subst hs1
    exact ⟨rfl, fun _ _ => rfl⟩
  refine .bind (registerFs_took h0 h1 (by simp; omega) (by decide) .hostfs) ?_
  rintro _ ⟨_, s2⟩ ⟨rfl, rfl, ⟨p2, h2⟩, hsame2⟩
  dsimp only at h2 hsame2
  rw [if_neg (by decide)]
  refine .bind (initHostDevice_took h0 h2 (by simp; omega) (by simp) ?_ hostdevName) ?_
  · rw [hsame2.devices, hs1]
    exact hdevs
  rintro _ ⟨_, s3⟩ ⟨rfl, ⟨p3, h3⟩, hdentries3, hmounts3, hdevs3⟩
  dsimp only at h3 hdentries3 hmounts3 hdevs3
  refine .bindOnSnd (mountHost_took h0 h3 (by simp; omega) ?_ ?_
    (?_ : _ = some ⟨hostdevName, .hostfs⟩) rfl) ?_
  · rw [hdentries3, hsame2.dentries, hs1]
  · rw [hmounts3, hsame2.mounts, hs1]
    show s.vfsSbList.length < maxMounts
    rw [hmounts]
    decide
  · rw [hdevs3]
    decide
  rintro _ s4 ⟨⟨qs, hqs, h4⟩, -⟩
  refine .bind (registerFs_took h0 h4 (by simp [hqs]; omega) (by decide) .rfs) ?_
  rintro _ ⟨_, s5⟩ ⟨rfl, rfl, ⟨p5, h5⟩, -⟩
  rw [if_neg (by decide)]
  exact .pure ⟨rfl, _, by simp [hqs], h5⟩

/-- The pages of the disk, and the three taken after them. -/
theorem initRfsDevice_took (hfresh : FreshPages s) {start m : Nat}
    (hlist : s.freePages = pagesFrom start (m + 128)) (hm : 3 ≤ m) {drv : Drivers}
    (hreg : FsType.rfs ∈ drv.fsList) (hnone : drv.rfsDeviceList = []) (name : Name) :
    Post (initRfsDevice name) (drv, s) (fun _ w => ∃ s1 p q r,
      allocDisk 128 0 s = .ok (start + m * pgSize, s1) ∧
      Took s s1 (pagesFrom (start + m * pgSize) 128) ∧ Took s1 w.2 [p, q, r] ∧
      (∀ p ∈ pagesFrom (start + m * pgSize) 128, s1.pages p = .raw) ∧
      w.1.rfsDeviceList = [⟨128, pgSize, start + m * pgSize, q⟩]) fun _ => False := by
  have hdisk := allocDisk_took (n := 128) hfresh hlist (.inl rfl)
  cases hrun : allocDisk 128 0 s with
  | error e => exact (hdisk.of_error hrun).elim
  | ok res =>
      obtain ⟨a, s1⟩ := res
      obtain ⟨h1, ha, hraw, -⟩ := hdisk.of_ok hrun
      obtain rfl : a = start + m * pgSize := ha.resolve_right fun hzero => absurd hzero.1 (by decide)
      have hlen : 3 ≤ s1.freePages.length := by
        have hcount := congrArg List.length h1.list
        rw [hlist] at hcount
        simp at hcount
        omega
      have hfresh1 := h1.fresh hfresh
      refine .bindGet ?_
      rw [if_pos hreg]
      refine .step (Exec.onSnd_ok drv hrun) (.bindGet ?_)
      rw [if_pos (by rw [hnone]; decide)]
      refine .bindOnSnd (allocPage_took hfresh1 (.refl s1) (by simp; omega)) ?_
      rintro p s2 ⟨h2, -⟩
      refine .bindOnSnd (allocPage_took hfresh1 h2 (by simp; omega)) ?_
      rintro q s3 ⟨h3, -⟩
      refine .bindModify (.bindOnSnd (allocPage_took hfresh1 h3 (by simp; omega)) ?_)
      rintro r s4 ⟨h4, -⟩
      refine .bindOnSnd (R := fun _ s5 => Took s1 s5 [p, q, r]) (.modify ?_) ?_
      · split
        · exact ⟨h4.list, h4.keep⟩
        · exact h4
      · intro _ s5 h5
        refine .pure ⟨s1, p, q, r, rfl, h1, h5, hraw, ?_⟩
        show drv.rfsDeviceList ++ _ = _
        rw [hnone]
        rfl

end

/-! ## The disk of the running system -/

namespace RfsDevice

/-- The address of block `b`. -/
def block (d : RfsDevice) (b : Nat) : Nat := d.dAddress + b * d.dBlocksize

end RfsDevice

/-- The disk that boot leaves, from the page table `dir` in `m` and the state `s`
before `fs_init`. -/
structure PrivateDisk (m : Mem) (dir : Nat) (s s' : State) (d : RfsDevice) : Prop where
  size : d.dBlocks = ramdiskBlockCount ∧ d.dBlocksize = ramdiskBlockSize
  -- `pages` are those the loop of `init_rfs_device` takes, in the state it starts in
  taken : ∃ drv s1 s2 pages, fsInitHost (.none, s) = .ok ((), (drv, s1)) ∧
    allocDisk ramdiskBlockCount.toNat 0 s1 = .ok (d.dAddress, s2) ∧
    s1.freePages = pages ++ s2.freePages ∧ ∀ b < d.dBlocks, d.block b ∈ pages
  disjoint : ∀ b < d.dBlocks, ∀ b' < d.dBlocks, b ≠ b' →
    d.block b + pgSize ≤ d.block b' ∨ d.block b' + pgSize ≤ d.block b
  notFree : ∀ b < d.dBlocks, d.block b ∉ s'.freePages
  notTable : ∀ b < d.dBlocks, d.block b ∉ tables m dir
  notBuffer : ∀ b < d.dBlocks, d.block b ≠ d.iobuffer
  -- nothing has been put into the page
  notObject : ∀ b < d.dBlocks, s'.pages (d.block b) = .raw

theorem suffix_pagesFrom {start n : Nat} {l : List Nat} (h : l <:+ pagesFrom start n) :
    l = pagesFrom start l.length := by
  induction n with
  | zero =>
      obtain rfl := List.suffix_nil.mp h
      rfl
  | succ n ih =>
      rcases List.suffix_cons_iff.mp h with rfl | h
      · rw [← pagesFrom, Phys.length_pagesFrom]
      · exact ih h

/-- From a list that runs downwards `fs_init` gets its disk. -/
theorem fsInitDevices_disk {s : State} {l : List Ptr} {start : Nat} (h : BeforeFsInit l s)
    (hl : l = pagesFrom start l.length) (hlen : 139 ≤ l.length) {m : Mem} {dir : Nat}
    (htables : ∀ p ∈ l, p ∉ tables m dir) :
    Post fsInitDevices (.none, s) (fun _ w => ∃ d, w.1.rfsDeviceList = [d] ∧
      PrivateDisk m dir s w.2 d) fun _ => False := by
  have hnodup : l.Nodup := by
    rw [hl]
    exact (Phys.pairwise_pagesFrom ..).imp Nat.ne_of_gt
  have hfresh : FreshPages s := ⟨h.list ▸ hnodup, h.list ▸ h.free⟩
  have hhost := fsInitHost_took h hnodup (by omega)
  cases hrun : fsInitHost (.none, s) with
  | error e => exact (hhost.of_error hrun).elim
  | ok res =>
      obtain ⟨⟨⟩, drv, s1⟩ := res
      obtain ⟨hdrv, ps, hps, h1⟩ := hhost.of_ok hrun
      dsimp only at hdrv h1
      have hsplit : l = ps ++ s1.freePages := h.list.symm.trans h1.list
      have hcount : l.length = 8 + s1.freePages.length := by
        rw [hsplit, List.length_append, hps]
      -- what is left of the list still runs downwards
      have hsuffix : s1.freePages <:+ pagesFrom start l.length := ⟨ps, by rw [← hl, ← hsplit]⟩
      obtain ⟨n, hn⟩ : ∃ n, s1.freePages.length = n + 128 := ⟨l.length - 136, by omega⟩
      have hlist1 : s1.freePages = pagesFrom start (n + 128) := hn ▸ suffix_pagesFrom hsuffix
      have hfresh1 := h1.fresh hfresh
      refine .step hrun (.mono (initRfsDevice_took hfresh1 hlist1 (by omega) (by simp [hdrv])
        (by rw [hdrv]) ramdiskName) ?_)
      rintro _ w ⟨s2, p, q, r, hloop, h2, h3, hraw, hdev⟩
      refine ⟨_, hdev, ?_⟩
      have hmem : ∀ b < 128, start + n * pgSize + b * pgSize ∈ pagesFrom (start + n * pgSize) 128 :=
        fun b hb => mem_pagesFrom.mpr ⟨b, hb, rfl⟩
      -- the list after the loop has none of the pages of the disk
      have hgone : ∀ x ∈ pagesFrom (start + n * pgSize) 128, x ∉ s2.freePages := by
        intro x hx hx2
        have hnodup1 := hfresh1.nodup
        rw [h2.list] at hnodup1
        exact (List.nodup_append.mp hnodup1).2.2 x hx x hx2 rfl
      have hafter : ∀ x ∈ pagesFrom (start + n * pgSize) 128, x ∉ [p, q, r] := fun x hx hx' =>
        hgone x hx (by rw [h3.list]; exact List.mem_append_left _ hx')
      refine ⟨⟨rfl, rfl⟩, ⟨drv, s1, s2, _, hrun, hloop, h2.list, hmem⟩, ?_, fun b hb hfree => ?_,
        fun b hb => ?_, fun b hb heq => ?_, fun b hb => ?_⟩
      · intro b hb b' hb' hne
        simp only [RfsDevice.block, pgSize]
        omega
      · exact hgone _ (hmem b hb) (by rw [h3.list]; exact List.mem_append_right _ hfree)
      · refine htables _ ?_
        rw [hsplit, h2.list]
        exact List.mem_append_right _ (List.mem_append_left _ (hmem b hb))
      · refine hafter _ (hmem b hb) ?_
        rw [show start + n * pgSize + b * pgSize = q from heq]
        simp
      · exact (h3.keep _ (hafter _ (hmem b hb))).trans (hraw _ (hmem b hb))

/-- The pages boot takes: the directory and 65 tables of the kernel, eight before the
disk, the disk, and three after it. -/
def bootPages : Nat := 66 + 8 + 128 + 3

theorem ramDisk_private {kernelEnd memSize etext : Nat} {s s0 : Phys}
    (htext : etext % pgSize = 0 ∧ kernBase ≤ etext ∧ etext ≤ kernelEnd)
    (hinit : Phys.pmmInit kernelEnd memSize s = .ok ((), s0))
    (hlen : bootPages ≤ s0.managed.length) :
    ∃ dir s1 l, Phys.kernVmInit etext s0 = .ok (dir, s1) ∧ s1.Pool l ∧
      ∀ k, BeforeFsInit l k → ∃ device w d, fsInitDevices (.none, k) = .ok (device, w) ∧
        w.1.rfsDeviceList = [d] ∧ PrivateDisk s1.mem dir k w.2 d := by
  obtain ⟨hstart, hend, hpool⟩ := (Phys.pmmInit_post kernelEnd memSize s).of_ok hinit
  have hpages : 205 ≤ Phys.pageCount s0.freeMemStart s0.freeMemEnd := by
    rw [Phys.managed, Phys.length_pagesFrom] at hlen
    exact hlen
  have hhi : etext ≤ physTop := by
    have hle : kernelEnd ≤ roundUp kernelEnd pgSize := by
      unfold roundUp pgSize
      omega
    have := Nat.min_le_left pkeMaxAllowableRam memSize
    unfold Phys.pageCount physTop pgSize at *
    omega
  have hvm := Phys.kernVmInit_post hpool (by rw [Phys.length_pagesFrom]; omega) htext.1 htext.2.1 hhi
  cases hrun : Phys.kernVmInit etext s0 with
  | error e => exact (hvm.of_error hrun).elim
  | ok res =>
      obtain ⟨dir, s1⟩ := res
      obtain ⟨l, hspace, hsuffix, hcount, -⟩ := hvm.of_ok hrun
      rw [Phys.length_pagesFrom] at hcount
      refine ⟨dir, s1, l, rfl, hspace.pool, fun k hk => ?_⟩
      have hdisk := fsInitDevices_disk hk (suffix_pagesFrom hsuffix) (by omega) hspace.apart
      cases hfs : fsInitDevices (.none, k) with
      | error e => exact (hdisk.of_error hfs).elim
      | ok out =>
          obtain ⟨d, hd, hprivate⟩ := hdisk.of_ok hfs
          exact ⟨out.1, out.2, d, rfl, hd, hprivate⟩

/-- 128 MiB of memory, and a kernel of 64 KiB. -/
theorem ramDisk_private_default : ∃ s0 dir s1 k device w d,
    Phys.pmmInit 2147549184 134217728 ⟨fun _ => 0, 0, 0, 0⟩ = .ok ((), s0) ∧
    Phys.kernVmInit 2147516416 s0 = .ok (dir, s1) ∧
    fsInitDevices (.none, k) = .ok (device, w) ∧ w.1.rfsDeviceList = [d] ∧
    PrivateDisk s1.mem dir k w.2 d := by
  have hpost := Phys.pmmInit_post 2147549184 134217728 ⟨fun _ => 0, 0, 0, 0⟩
  cases hinit : Phys.pmmInit 2147549184 134217728 ⟨fun _ => 0, 0, 0, 0⟩ with
  | error e => exact absurd (hpost.of_error hinit).1 (by unfold pkeMaxAllowableRam sub64 kernBase; decide)
  | ok r =>
      obtain ⟨⟨⟩, s0⟩ := r
      obtain ⟨hstart, hend, -⟩ := hpost.of_ok hinit
      have hlen : bootPages ≤ s0.managed.length := by
        rw [Phys.managed, Phys.length_pagesFrom, hstart, hend]
        decide
      have htext : 2147516416 % pgSize = 0 ∧ kernBase ≤ 2147516416 ∧ 2147516416 ≤ 2147549184 := by
        decide
      obtain ⟨dir, s1, l, hvm, -, hfs⟩ := ramDisk_private htext hinit hlen
      obtain ⟨device, w, d, hrun, hd, hprivate⟩ :=
        hfs { smallBoot.init with freePages := l, vfsDevList := [] }
          ⟨rfl, fun _ _ => rfl, rfl, rfl⟩
      exact ⟨s0, dir, s1, _, device, w, d, rfl, hvm, hrun, hd, hprivate⟩

end Pke
