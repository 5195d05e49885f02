import Pke.Durability

/-!
# Mounting the disk again

`rfs_alloc_block` and `rfs_free_block` change the freemap in memory, and
nothing writes it to the disk: block 11 stays as `rfs_format_dev` left it
(`Change.sameMeta`), with the block of the root directory marked and no
other. So the super block that `rfs_get_superblock` reads from the disk
later knows the blocks that are in use exactly as long as the root is the
only inode (`remount_safe_iff`).
-/

namespace Pke

open Exec (Post)

/-! ## The super block and the bitmap on disk -/

/-- The blocks of the super block and of the bitmap are the same. -/
structure SameMeta (d d' : Nat → Block) : Prop where
  super : d' 0 = d 0
  bitmap : d' 11 = d 11

variable {n : Int} {M : Mount} {o : Objs} {d : Nat → Block}

namespace SameMeta

variable {d d' d'' : Nat → Block}

theorem refl : SameMeta d d := ⟨rfl, rfl⟩

theorem trans (h : SameMeta d d') (h' : SameMeta d' d'') : SameMeta d d'' :=
  ⟨h'.super.trans h.super, h'.bitmap.trans h.bitmap⟩

theorem inode (h : SameMeta d d') (di : Dinode) (hn : InodeNum n) :
    SameMeta d (writeInode d' di n) := by
  have hrange := inodeBlock_range hn
  exact h.trans ⟨upd_ne (by omega), upd_ne (by omega)⟩

theorem data (h : SameMeta d d') {k : Int} (b : Block) (hk : 12 ≤ k) :
    SameMeta d (upd d' k.toNat b) :=
  h.trans ⟨upd_ne (by omega), upd_ne (by omega)⟩

end SameMeta

theorem Change.sameMeta {care : Care} {o' : Objs} {d' : Nat → Block} (hc : Change M care o d o' d')
    (hi : Inv M o d) : SameMeta d d' := by
  -- the block of a directory
  have hdirBlock : ∀ {w v}, o.vinode w = some v → v.iOps = .rfs → v.type = dirI →
      12 ≤ addrOf v.addrs 0 := by
    intro w v hw hrfs hdir
    have hone := ((hi.shape hw hrfs).dir hdir).1
    exact (hi.file_addr hw hrfs (i := 0) (by show (0 : Int) < v.toDinode.blocks; omega)).1
  cases hc with
  | create pw w node pv B n k type name hpv hprfs hdir hroom hname hnew htype hn =>
      exact ((SameMeta.refl.inode _ hn).data _ (hdirBlock hpv hprfs hdir)).inode _
        (hi.num hpv hprfs)
  | orphan B n k hloose hn => exact SameMeta.refl.inode _ hn
  | link pw lw pv lv name hpv hprfs hdir hroom hname hnew hlv hlrfs =>
      exact ((SameMeta.refl.data _ (hdirBlock hpv hprfs hdir)).inode _ (hi.num hpv hprfs)).inode _
        (hi.num hlv hlrfs)
  | unlink pw lw pv lv k name hpv hprfs hdir hlv hlrfs =>
      exact ((SameMeta.refl.inode _ (hi.num hlv hlrfs)).data _ (hdirBlock hpv hprfs hdir)).inode _
        (hi.num hpv hprfs)
  | unlinkLast pw lw pv lv B k name e hpv hprfs hdir hlv hlrfs =>
      exact ((SameMeta.refl.inode _ (hi.num hlv hlrfs)).data _ (hdirBlock hpv hprfs hdir)).inode _
        (hi.num hpv hprfs)
  | evict w v e hw hrfs => exact SameMeta.refl.inode _ (hi.num hw hrfs)
  | data w v i b hw hrfs hfile hlt => exact SameMeta.refl.data _ (hi.file_addr hw hrfs hlt).1
  | load | bind | drop | grow | size | opened | moved | copied | closed | dirOpened | dirFreed
  | hostMount => exact .refl

/-! ## The root directory -/

/-- A directory stays one, with the blocks it has. -/
theorem Vol.Step.dir_kept {named held : Prop} {used : Int → Prop} {v v' : Vol}
    (hs : v.Step named held used v') (h : v.Inv) (hn : (v.ino n).type = rDir) :
    (v'.ino n).type = rDir ∧ (v'.ino n).blocks = (v.ino n).blocks ∧
      (v'.ino n).addrs = (v.ino n).addrs := by
  -- the new version of the directory `p`, and of another inode that is no directory
  have hdir : ∀ {p : Int} {c : Dinode} {sz : Int} {ino : Int → Dinode}, v.mem p = some c →
      c.type = rDir → ((ino n).type = rDir ∧ (ino n).blocks = (v.ino n).blocks ∧
        (ino n).addrs = (v.ino n).addrs) →
      (upd ino p { c with size := sz } n).type = rDir ∧
        (upd ino p { c with size := sz } n).blocks = (v.ino n).blocks ∧
        (upd ino p { c with size := sz } n).addrs = (v.ino n).addrs := by
    intro p c sz ino hp hc hsame
    rcases eq_or_ne n p with rfl | hne
    · rw [upd_self, h.dir_eq hp hc]
      exact ⟨hc, rfl, rfl⟩
    · rw [upd_ne hne]
      exact hsame
  have hother : ∀ {m : Int} {di : Dinode} {ino : Int → Dinode}, (v.ino m).type ≠ rDir →
      ((ino n).type = rDir ∧ (ino n).blocks = (v.ino n).blocks ∧
        (ino n).addrs = (v.ino n).addrs) →
      (upd ino m di n).type = rDir ∧ (upd ino m di n).blocks = (v.ino n).blocks ∧
        (upd ino m di n).addrs = (v.ino n).addrs := by
    intro m di ino hm hsame
    have hne : n ≠ m := fun heq => hm (heq ▸ hn)
    rw [upd_ne hne]
    exact hsame
  have hself : (v.ino n).type = rDir ∧ (v.ino n).blocks = (v.ino n).blocks ∧
      (v.ino n).addrs = (v.ino n).addrs := ⟨hn, rfl, rfl⟩
  have hfree : ∀ {m}, (v.ino m).type = rFree → (v.ino m).type ≠ rDir := fun hm => by
    rw [hm]
    decide
  have hfile : ∀ {m b}, v.mem m = some b → b.type = rFile → (v.ino m).type ≠ rDir :=
    fun hm hb => by
      rw [h.type_eq hm, hb]
      decide
  cases hs with
  | load | grow | size => exact hself
  | create m p k type name c hm hf haddrs htype hk hzero hp hd =>
      exact hdir hp hd (hother (hfree hf) hself)
  | orphan m k hloose hm hf => exact hother (hfree hf) hself
  | link m p name b c hb hf hp hd => exact hother (hfile hb hf) (hdir hp hd hself)
  | unlink m p k name b c hb hf hp hd => exact hdir hp hd (hother (hfile hb hf) hself)
  | unlinkLast m p k name b c hb hf hp hd => exact hdir hp hd (hother (hfile hb hf) hself)
  | evict m c hm hf => exact hother (hfile hm hf) hself

theorem Vol.dir_of_reflGen {named held : Prop} {used : Int → Prop} {v v' : Vol}
    (hs : Relation.ReflGen (Vol.Step named held used) v v') (h : v.Inv) (hn : (v.ino n).type = rDir) :
    (v'.ino n).type = rDir ∧ (v'.ino n).blocks = (v.ino n).blocks ∧
      (v'.ino n).addrs = (v.ino n).addrs := by
  cases hs with
  | refl => exact ⟨hn, rfl, rfl⟩
  | single hs => exact hs.dir_kept h hn

/-- The disk as `rfs_format_dev` left it, apart from the inodes and their blocks. -/
structure FormatKept (d : Nat → Block) : Prop where
  magic : getInt (d 0) 0 = rfsMagic
  bitmap : getInt (d 11) 0 = 1 ∧ ∀ k, 0 < k → k < 1024 → getInt (d 11) (4 * k) = 0
  rootDir : (diskInode d 0).type = rDir
  rootBlocks : (diskInode d 0).blocks = 1
  rootAddr : addrOf (diskInode d 0).addrs 0 = 12

theorem Formatted.kept (h : Formatted d) : FormatKept d := by
  obtain ⟨addrs, hroot, haddr⟩ := h.root
  refine ⟨h.magic, h.bitmap, ?_, ?_, ?_⟩
  · rw [hroot]
  · rw [hroot]
  · rw [hroot]
    exact haddr

theorem Change.formatKept {care : Care} {o' : Objs} {d' : Nat → Block}
    (hc : Change M care o d o' d') (hi : Inv M o d) (h : FormatKept d) : FormatKept d' := by
  have hmeta := hc.sameMeta hi
  obtain ⟨htype, hblocks, haddrs⟩ := Vol.dir_of_reflGen (n := 0) (hc.vol hi) hi.vol h.rootDir
  refine ⟨by rw [hmeta.super]; exact h.magic, by rw [hmeta.bitmap]; exact h.bitmap, htype,
    hblocks.trans h.rootBlocks, ?_⟩
  exact (congrArg (fun a => addrOf a 0) haddrs).trans h.rootAddr

/-! ## The freemap that is read from the disk -/

/-- Every block of every inode on disk is marked in the super block at `sb`. -/
def RemountSafe (s : State) (sb : Ptr) : Prop :=
  ∃ B, s.objs.superBlock sb = some B ∧ ∀ n, InodeNum n → (diskInode s.disk n).type ≠ rFree →
    ∀ i : Nat, (i : Int) < (diskInode s.disk n).blocks →
      B.freemap (addrOf (diskInode s.disk n).addrs i - rfsBlkOffsetFree).toNat ≠ 0

theorem FormatKept.marked_iff (h : FormatKept d) (hi : Inv M o d) (t : Ptr) :
    (∀ n, InodeNum n → (diskInode d n).type ≠ rFree → ∀ i : Nat, (i : Int) < (diskInode d n).blocks →
      (superBlockOf d t).freemap (addrOf (diskInode d n).addrs i - rfsBlkOffsetFree).toNat ≠ 0) ↔
    ∀ n, InodeNum n → n ≠ 0 → (diskInode d n).type = rFree := by
  rw [freemap_superBlockOf]
  -- the first block of a live inode, on disk and in memory
  have hfirst : ∀ {n}, Live (diskInode d) n → 0 < (diskInode d n).blocks ∧
      0 < (curInode (diskInode d) (o.mem M) n).blocks ∧
      addrOf (curInode (diskInode d) (o.mem M) n).addrs 0 = addrOf (diskInode d n).addrs 0 := by
    intro n hn
    have hpos := (hi.blocks.ok n hn).shape.blocks.1
    obtain ⟨hle, -⟩ := hi.blockSet_disk hn
    refine ⟨by omega, by omega, ?_⟩
    unfold curInode
    cases hc : o.mem M n with
    | none => rfl
    | some c => exact (((hi.blocks.ok n hn).ahead c hc).2 0 (by omega)).symm
  have hroot : Live (diskInode d) 0 := by
    rw [Live, h.rootDir]
    decide
  constructor
  · intro hall n hn hne
    by_contra hlive
    obtain ⟨hpos, hcur, haddr⟩ := hfirst hlive
    obtain ⟨-, hcur0, haddr0⟩ := hfirst hroot
    obtain ⟨hlo, hhi, -⟩ := hi.blocks.owned n 0 hlive hcur
    rw [haddr] at hlo hhi
    -- block 12 belongs to the root
    have hother : addrOf (diskInode d n).addrs 0 ≠ 12 := by
      intro heq
      refine hne (hi.blocks.excl n 0 0 0 hlive hroot hcur hcur0 ?_).1
      rw [haddr, haddr0, heq, h.rootAddr]
    refine hall n hn hlive 0 hpos (h.bitmap.2 _ ?_ ?_)
    · show 0 < (addrOf (diskInode d n).addrs 0 - 12).toNat
      omega
    · show (addrOf (diskInode d n).addrs 0 - 12).toNat < 1024
      omega
  · intro hall n hn hlive i hlt
    have hzero : n = 0 := by
      by_contra hne
      exact hlive (hall n hn hne)
    subst hzero
    rw [h.rootBlocks] at hlt
    obtain rfl : i = 0 := by omega
    rw [h.rootAddr]
    show getInt (d 11) 0 ≠ 0
    rw [h.bitmap.1]
    decide

theorem remount_safe_iff {b : Boot} {host : VinodeOps} {s0 s s' : State} {sb : Ptr}
    (h0 : b.Starts s0) (hrun : Run host (CountedCalls s0.mount) s0 s)
    (hget : rfsGetSuperblock s = .ok (sb, s')) :
    RemountSafe s' sb ↔ ∀ n, InodeNum n → n ≠ 0 → (diskInode s.disk n).type = rFree := by
  obtain ⟨hs, hkept, -⟩ := hrun.keeps (P := fun q => FormatKept q.2) (fun _ _ _ _ hop => hop)
    (fun hi hP hc => hc.formatKept hi hP) h0.sound h0.booted.2.disk.kept
  obtain ⟨bio, h⟩ := hs.holds
  have hpost : Post rfsGetSuperblock s _ fun _ => True :=
    rfsGetSuperblock_post h hkept.magic trivial
  obtain ⟨w, t, -, -, -, -, -, hend⟩ := hpost.of_ok hget
  obtain ⟨hobjs, hdisk, -⟩ := hend.here
  have hsb : s'.objs.superBlock sb = some (superBlockOf s.disk t) := by
    rw [hobjs]
    exact upd_self _ _ _
  rw [← hkept.marked_iff hs.inv t, RemountSafe, hdisk, hsb]
  constructor
  · rintro ⟨B, hB, hall⟩
    rw [Option.some.inj hB]
    exact hall
  · intro hall
    exact ⟨_, rfl, hall⟩

/-- The super block is read from the disk again, and `P` holds of it. -/
def remountPasses (P : State → Ptr → Bool) (s : State) : Bool :=
  match rfsGetSuperblock s with
  | .ok (sb, s') => P s' sb
  | .error _ => false

theorem of_remountPasses {P : State → Ptr → Bool} {s : State} (h : remountPasses P s = true) :
    ∃ sb s', rfsGetSuperblock s = .ok (sb, s') ∧ P s' sb = true := by
  unfold remountPasses at h
  split at h
  · rename_i sb s' hget
    exact ⟨sb, s', hget, h⟩
  · cases h

/-- A file is created, written, closed and unlinked: there is nothing to lose. -/
theorem remount_safe_unlinked : ∃ s sb s', Run noHost FileCalls smallBoot.state s ∧
    rfsGetSuperblock s = .ok (sb, s') ∧ RemountSafe s' sb := by
  obtain ⟨s, hrun, hpass⟩ := run_with noHost FileCalls
    [.open pathA rdwrCreat, .write 81920 (List.replicate 5000 7), .close 81920, .unlink pathA]
    smallBoot.state
    (fun s => (List.range 320).all (fun n => n == 0 || (diskInode s.disk n).type == rFree) &&
      remountPasses (fun _ _ => true) s) (by decide +kernel)
  obtain ⟨hfree, hpass⟩ := (Bool.and_eq_true _ _).mp hpass
  obtain ⟨sb, s', hget, -⟩ := of_remountPasses hpass
  have h0 := Boot.starts smallBoot_boots
  refine ⟨s, sb, s', hrun, hget, (remount_safe_iff h0 (counted_of_files _ hrun) hget).mpr ?_⟩
  rintro n ⟨hlo, hhi⟩ hne
  have hn := List.all_eq_true.mp hfree n.toNat (List.mem_range.mpr (by omega))
  rw [Int.toNat_of_nonneg hlo, Bool.or_eq_true, beq_iff_eq, beq_iff_eq] at hn
  exact hn.resolve_left (by omega)

/-- The block of a file that is created and closed is free again after mounting. -/
theorem remount_unsafe : ∃ s sb s', Run noHost OpenFileCalls smallBoot.state s ∧
    (∀ n, ¬s.objs.OpenNum n) ∧ rfsGetSuperblock s = .ok (sb, s') ∧ ¬RemountSafe s' sb := by
  obtain ⟨s, hrun, hpass⟩ := run_with noHost OpenFileCalls
    [.open pathA rdwrCreat, .close 81920] smallBoot.state
    (fun s => decide (∀ e ∈ s.objs.dentries, ∀ x ∈ s.objs.dentry e.value, x.dRef = 0) &&
      remountPasses (fun s' sb => (diskInode s'.disk 1).type == rFile &&
        (diskInode s'.disk 1).blocks == 1 && (s'.objs.superBlock sb).any fun B =>
          B.freemap (addrOf (diskInode s'.disk 1).addrs 0 - rfsBlkOffsetFree).toNat == 0) s)
    (by decide +kernel)
  obtain ⟨hidle, hpass⟩ := (Bool.and_eq_true _ _).mp hpass
  obtain ⟨sb, s', hget, hpass⟩ := of_remountPasses hpass
  obtain ⟨hpass, hmap⟩ := (Bool.and_eq_true _ _).mp hpass
  obtain ⟨htype, hblocks⟩ := (Bool.and_eq_true _ _).mp hpass
  obtain ⟨B, hB, hzero⟩ := (Option.any_eq_true _ _).mp hmap
  obtain ⟨hs, hopen⟩ := OpenFileCalls.openInv (Boot.starts smallBoot_boots) hrun
  refine ⟨s, sb, s', hrun, hopen.idle_all hs.inv.cache (of_decide_eq_true hidle), hget, ?_⟩
  rintro ⟨B', hB', hall⟩
  obtain rfl := Option.some.inj (hB.symm.trans hB')
  refine hall 1 (by decide) ?_ 0 ?_ (beq_iff_eq.mp hzero)
  · rw [beq_iff_eq.mp htype]
    decide
  · rw [beq_iff_eq.mp hblocks]
    decide

end Pke
