import Pke.Inv
import Pke.VfsSpec

/-!
# Path lookup

`walk` resolves the components of a path through the entries on disk,
one after the other. `lookup_final_dentry` gives the same answer through
the two caches (`lookupTokens_post`), and what it does to them is a
sequence of the changes `load` and `bind`.
-/

namespace Pke

open Exec (Post)

/-! ## Tokens -/

variable {token name : Name} {l : List (Int × Name)} {n : Int} {o : Objs} {w t this : Ptr}
  {v : Vinode} {x : Dentry}

theorem strtok_some {cur : Option (List UInt8)} {rest : Option (List UInt8)}
    (h : strtok cur = some (token, rest)) : ∃ l, cur = some l ∧
      (∀ c ∈ token, c ∈ l) ∧ (∀ c ∈ rest.getD [], c ∈ l) ∧
      token.length + (rest.getD []).length ≤ l.length := by
  cases cur with
  | none => cases h
  | some l =>
      simp only [strtok] at h
      split at h
      · cases h
      · obtain ⟨rfl, rfl⟩ := Prod.mk.injEq .. |>.mp (Option.some.inj h)
        have hsub : ∀ c ∈ l.dropWhile (· == slash), c ∈ l := fun c hc =>
          (List.dropWhile_suffix _).subset hc
        have hlen : (l.dropWhile (· == slash)).length ≤ l.length :=
          (List.dropWhile_suffix _).length_le
        have hsplit := congrArg List.length
          (List.takeWhile_append_dropWhile (p := (· != slash)) (l := l.dropWhile (· == slash)))
        rw [List.length_append] at hsplit
        refine ⟨l, rfl, fun c hc => hsub c ((List.takeWhile_prefix _).subset hc), fun c hc => ?_, ?_⟩
        · split at hc
          · simp at hc
          · exact hsub c ((List.dropWhile_suffix _).subset (List.mem_of_mem_tail hc))
        · split
          · simp only [Option.getD_none, List.length_nil]
            omega
          · simp only [Option.getD_some, List.length_tail]
            omega

/-- A token is followed by a slash or by the end of the string. -/
theorem strtok_split {l : List UInt8} {rest : Option (List UInt8)}
    (h : strtok (some l) = some (token, rest)) : token ≠ [] ∧ slash ∉ token ∧
      l.dropWhile (· == slash) = token ++ rest.elim [] (slash :: ·) := by
  simp only [strtok] at h
  split at h
  · cases h
  · rename_i hne
    obtain ⟨rfl, rfl⟩ := Prod.mk.injEq .. |>.mp (Option.some.inj h)
    have hhead := List.head_dropWhile_not (· == slash) hne
    refine ⟨?_, fun hmem => ?_, ?_⟩
    · obtain ⟨c, st, hst⟩ := List.exists_cons_of_ne_nil hne
      simp only [hst, List.head_cons] at hhead ⊢
      rw [List.takeWhile_cons, if_pos (by simpa using hhead)]
      exact List.cons_ne_nil _ _
    · simpa using List.all_eq_true.mp List.all_takeWhile _ hmem
    · conv_lhs => rw [← List.takeWhile_append_dropWhile (p := (· != slash))
        (l := l.dropWhile (· == slash))]
      congr 1
      split
      · assumption
      · rename_i hrest
        have hslash := List.head_dropWhile_not (· != slash) hrest
        obtain ⟨c, st, hst⟩ := List.exists_cons_of_ne_nil hrest
        simp only [hst, List.head_cons, bne_eq_false_iff_eq] at hslash
        rw [hst, hslash]
        rfl

theorem strtokAll_mem : ∀ {n : Nat} {cur : Option (List UInt8)} {token : Name},
    token ∈ strtokAll n cur → ∀ c ∈ token, c ∈ cur.getD []
  | 0, _, _, h => by cases h
  | n + 1, cur, token, h => by
      unfold strtokAll at h
      split at h
      · cases h
      · rename_i first rest heq
        obtain ⟨l, rfl, hfirst, hrest, -⟩ := strtok_some heq
        rcases List.mem_cons.mp h with rfl | h
        · exact hfirst
        · exact fun c hc => hrest c (strtokAll_mem h c hc)

theorem strtokAll_length : ∀ {n : Nat} {cur : Option (List UInt8)},
    ((strtokAll n cur).map List.length).sum ≤ (cur.getD []).length
  | 0, _ => Nat.zero_le _
  | n + 1, cur => by
      unfold strtokAll
      split
      · exact Nat.zero_le _
      · rename_i first rest heq
        obtain ⟨l, rfl, -, -, hlen⟩ := strtok_some heq
        have ih : ((strtokAll n rest).map List.length).sum ≤ (rest.getD []).length :=
          strtokAll_length
        simp only [List.map_cons, List.sum_cons, Option.getD_some]
        omega

/-- A path below the mount point is short enough for its names to fit into
directory entries. -/
theorem nameOk_of_path {p : Path} {rest : List Name} (hp : p.tokens = ramdiskName :: rest)
    (hlen : p.bytes.length < maxPathLen) : ∀ t ∈ rest, NameOk t := by
  intro t ht
  have hmem : t ∈ p.tokens := by
    rw [hp]
    exact List.mem_cons_of_mem _ ht
  have hsum : (p.tokens.map List.length).sum ≤ p.bytes.length := strtokAll_length
  rw [hp, List.map_cons, List.sum_cons] at hsum
  have hle := List.single_le_sum (fun _ _ => Nat.zero_le _) _ (List.mem_map_of_mem (f := List.length) ht)
  have h8 : ramdiskName.length = 8 := rfl
  refine ⟨fun h0 => p.nulFree (strtokAll_mem hmem 0 h0), ?_⟩
  simp only [maxPathLen] at hlen
  simp only [rfsMaxFileNameLen]
  omega

/-! ## Walks over the entries -/

/-- The inode a name stands for in a directory. -/
def entryOf (l : List (Int × Name)) (name : Name) : Option Int :=
  (l.find? fun e => e.2 = name).map Prod.fst

theorem entryOf_some (h : entryOf l name = some n) : (n, name) ∈ l := by
  obtain ⟨e, he, rfl⟩ := Option.map_eq_some_iff.mp h
  have hname := List.find?_some he
  simp only [decide_eq_true_eq] at hname
  exact hname ▸ List.mem_of_find?_eq_some he

theorem entryOf_none : entryOf l name = none ↔ ∀ e ∈ l, e.2 ≠ name := by
  simp [entryOf]

theorem entryOf_of_mem (hnodup : (l.map Prod.snd).Nodup) (h : (n, name) ∈ l) :
    entryOf l name = some n := by
  cases hf : entryOf l name with
  | none => exact absurd rfl (entryOf_none.mp hf _ h)
  | some m =>
      have hm := entryOf_some hf
      rw [(Prod.mk.injEq .. |>.mp (List.inj_on_of_nodup_map hnodup hm h rfl)).1]

/-- Resolve names one after the other: the inode reached, and the names left
when one is missing. -/
def walk (ents : Int → List (Int × Name)) : Int → List Name → Int × List Name
  | n, [] => (n, [])
  | n, token :: rest =>
      match entryOf (ents n) token with
      | none => (n, token :: rest)
      | some m => walk ents m rest

theorem walk_missing {ents : Int → List (Int × Name)} : ∀ {tokens : List Name} {n m : Int}
    {token : Name} {rest : List Name}, walk ents n tokens = (m, token :: rest) →
      entryOf (ents m) token = none ∧ token ∈ tokens
  | [], _, _, _, _, h => nomatch (Prod.mk.injEq .. |>.mp h).2
  | first :: tokens, n, m, token, rest, h => by
      unfold walk at h
      split at h
      · rename_i hent
        obtain ⟨rfl, heq⟩ := Prod.mk.injEq .. |>.mp h
        obtain ⟨rfl, -⟩ := List.cons.injEq .. |>.mp heq
        exact ⟨hent, List.mem_cons_self ..⟩
      · obtain ⟨hent, hmem⟩ := walk_missing h
        exact ⟨hent, List.mem_cons_of_mem _ hmem⟩

/-! ## Sequences of changes -/

/-- The objects and the disk. -/
abbrev Sys := Objs × (Nat → Block)

def Steps (M : Mount) (care : Care) : Sys → Sys → Prop :=
  Relation.ReflTransGen fun a b => Change M care a.1 a.2 b.1 b.2

theorem Steps.inv {M : Mount} {care : Care} {a b : Sys} (h : Steps M care a b)
    (ha : Inv M a.1 a.2) : Inv M b.1 b.2 := by
  induction h with
  | refl => exact ha
  | tail _ hc ih => exact hc.inv ih

/-- What every change keeps, given the invariant, a sequence of them keeps. -/
theorem Steps.keeps {M : Mount} {care : Care} {P : Sys → Prop} {a c : Sys} (h : Steps M care a c)
    (hi : Inv M a.1 a.2) (ha : P a)
    (hstep : ∀ {o d o' d'}, Inv M o d → P (o, d) → Change M care o d o' d' → P (o', d')) :
    P c := by
  induction h with
  | refl => exact ha
  | tail hab hs ih => exact hstep (Steps.inv hab hi) ih hs

/-- `o'` has what `o` has, with other counts of references, and maybe more
names and vinodes. -/
structure Grown (o o' : Objs) : Prop where
  dentry : ∀ t x, o.dentry t = some x → o'.dentry t = some x
  vinode : ∀ w v, o.vinode w = some v → ∃ r, o'.vinode w = some { v with ref := r }
  file : o'.file = o.file
  superBlock : o'.superBlock = o.superBlock
  dirBlock : o'.dirBlock = o.dirBlock
  dirCache : o'.dirCache = o.dirCache
  root : o'.root = o.root
  lists : o'.sbList = o.sbList ∧ o'.devList = o.devList

namespace Grown

theorem refl (o : Objs) : Grown o o :=
  ⟨fun _ _ h => h, fun _ v h => ⟨v.ref, h⟩, rfl, rfl, rfl, rfl, rfl, rfl, rfl⟩

theorem trans {o' o'' : Objs} (h : Grown o o') (h' : Grown o' o'') : Grown o o'' := by
  refine ⟨fun t x hx => h'.dentry t x (h.dentry t x hx), fun w v hv => ?_, h'.file.trans h.file,
    h'.superBlock.trans h.superBlock, h'.dirBlock.trans h.dirBlock, h'.dirCache.trans h.dirCache,
    h'.root.trans h.root, h'.lists.1.trans h.lists.1, h'.lists.2.trans h.lists.2⟩
  obtain ⟨r, hr⟩ := h.vinode w v hv
  obtain ⟨r', hr'⟩ := h'.vinode w _ hr
  exact ⟨r', hr'⟩

theorem load {node : Ptr} (hw : o.vinode w = none) : Grown o (o.addV node w v) := by
  refine ⟨fun _ _ h => h, fun q u hq => ⟨u.ref, ?_⟩, rfl, rfl, rfl, rfl, rfl, rfl, rfl⟩
  exact (upd_ne (ne_of_none hw hq)).trans hq

theorem bind {node : Ptr} {r : Int} (ht : o.dentry t = none) (hv : o.vinode w = some v) :
    Grown o ((o.setV w { v with ref := r }).addD node t x) := by
  refine ⟨fun q y hq => ?_, fun q u hq => ?_, rfl, rfl, rfl, rfl, rfl, rfl, rfl⟩
  · exact (upd_ne (ne_of_none ht hq)).trans hq
  · by_cases hqw : q = w
    · subst hqw
      rw [hv] at hq
      obtain rfl := Option.some.inj hq
      exact ⟨r, upd_self _ _ _⟩
    · exact ⟨u.ref, (upd_ne hqw).trans hq⟩

end Grown

/-! ## Directories and their entries -/

/-- The names the file system finds in a file when it takes it for a directory. -/
def FileMiss (M : Mount) (o : Objs) (d : Nat → Block) (n : Int) (name : Name) : Prop :=
  ∀ i < totalDirentrys (curInode (diskInode d) (o.mem M) n).size,
    nameAt d (curInode (diskInode d) (o.mem M) n).addrs name i = false

section

variable {M : Mount} {o : Objs} {d : Nat → Block}

section

variable (h : Inv M o d) (hw : o.vinode w = some v) (hrfs : v.iOps = .rfs)

include h hw hrfs

/-- The blocks of an inode in memory can be browsed. -/
theorem Inv.browsable : Browsable v.addrs (totalDirentrys v.size) := by
  have hsh := h.shape hw hrfs
  have hb : v.blocks ≤ 10 := hsh.blocks.2
  have hs0 : 0 ≤ v.size := hsh.size.1
  have hs1 : v.size ≤ v.blocks * 4096 := hsh.size.2
  have hcur := h.cur_eq hw hrfs
  rw [totalDirentrys_eq hs0 (by omega)]
  intro i hi
  unfold direntryCount at hi
  have hlt : ((i / 128 : Nat) : Int) < v.blocks := by omega
  obtain ⟨hlo, hhi, -⟩ := h.blocks.owned v.inum (i / 128) (h.live hw hrfs) (by rw [hcur]; exact hlt)
  rw [hcur] at hlo hhi
  change 12 ≤ addrOf v.addrs (i / 128) at hlo
  change addrOf v.addrs (i / 128) < 112 at hhi
  exact ⟨by omega, by omega, by omega⟩

/-- A directory in memory, as it is browsed. -/
theorem Inv.dir_browse (hdir : v.type = dirI) (hname : NameOk name) :
    totalDirentrys v.size = (dirEnts d v.inum).length ∧
      ∀ i < totalDirentrys v.size, ∃ n a, (dirEnts d v.inum)[i]? = some (n, a) ∧
        getInt (d (addrOf v.addrs (i / 128)).toNat) (32 * (i % 128)) = n ∧
        (nameAt d v.addrs name i = true ↔ a = name) := by
  obtain ⟨-, ⟨hs0, hs1⟩, -, -, -⟩ := h.dir_bounds hw hrfs hdir
  have hdisk := h.dir_eq hw hrfs hdir
  have hents : dirEnts d v.inum =
      direntries (d (addrOf v.addrs 0).toNat) (direntryCount v.size) := by
    rw [dirEnts_dir ((h.type_eq hw hrfs).trans hdir), hdisk]
    rfl
  have htotal : totalDirentrys v.size = direntryCount v.size := totalDirentrys_eq hs0 (by omega)
  rw [htotal, hents]
  refine ⟨by simp [direntries], fun i hi => ?_⟩
  have hi128 : i < 128 := by
    unfold direntryCount at hi
    omega
  refine ⟨(direntry (d (addrOf v.addrs 0).toNat) i).1, (direntry (d (addrOf v.addrs 0).toNat) i).2,
    ?_, ?_, ?_⟩
  · rw [direntries, List.getElem?_map, List.getElem?_range hi, Option.map_some, Prod.mk.eta]
  · rw [Nat.div_eq_of_lt hi128, Nat.mod_eq_of_lt hi128, direntry]
  · unfold nameAt
    rw [Nat.div_eq_of_lt hi128, Nat.mod_eq_of_lt hi128]
    exact strcmpEq_iff hname.1 hname.2

/-- Looking for a name that is not there. -/
theorem Inv.browse_miss (hname : NameOk name) (hmiss : entryOf (dirEnts d v.inum) name = none)
    (hfile : v.type ≠ dirI → FileMiss M o d v.inum name) :
    ∀ i < totalDirentrys v.size, nameAt d v.addrs name i = false := by
  intro i hi
  by_cases hdir : v.type = dirI
  · obtain ⟨n, a, hget, -, hiff⟩ := (h.dir_browse hw hrfs hdir hname).2 i hi
    rw [← Bool.not_eq_true, hiff]
    exact entryOf_none.mp hmiss _ (List.mem_of_getElem? hget)
  · have := hfile hdir i
    rw [h.cur_eq hw hrfs] at this
    exact this hi

/-- Looking for a name that is there. -/
theorem Inv.browse_found (hname : NameOk name) (hent : entryOf (dirEnts d v.inum) name = some n) :
    v.type = dirI ∧ ∃ i < totalDirentrys v.size, (dirEnts d v.inum)[i]? = some (n, name) ∧
      nameAt d v.addrs name i = true ∧ (∀ j < i, nameAt d v.addrs name j = false) ∧
      getInt (d (addrOf v.addrs (i / 128)).toNat) (32 * (i % 128)) = n := by
  have hmem := entryOf_some hent
  have hdir : v.type = dirI := by
    rw [← h.type_eq hw hrfs]
    exact (h.links.holder _ _ hmem).1
  obtain ⟨htotal, hbrowse⟩ := h.dir_browse hw hrfs hdir hname
  obtain ⟨i, hi, heq⟩ := List.mem_iff_getElem.mp hmem
  have hget : (dirEnts d v.inum)[i]? = some (n, name) := by
    rw [List.getElem?_eq_getElem hi, heq]
  rw [← htotal] at hi
  obtain ⟨n', a, hget', hint, hiff⟩ := hbrowse i hi
  rw [hget] at hget'
  obtain ⟨rfl, rfl⟩ := Prod.mk.injEq .. |>.mp (Option.some.inj hget')
  refine ⟨hdir, i, hi, hget, hiff.mpr rfl, fun j hj => ?_, hint⟩
  obtain ⟨m, a', hget'', -, hiff'⟩ := hbrowse j (by omega)
  rw [← Bool.not_eq_true, hiff']
  rintro rfl
  -- no two entries of a directory have one name
  have hlen : j < ((dirEnts d v.inum).map Prod.snd).length := by
    rw [List.length_map, ← htotal]
    omega
  have hji : j = i := (List.getElem?_inj hlen (h.links.names v.inum)).mp (by
    rw [List.getElem?_map, List.getElem?_map, hget'', hget]
    rfl)
  omega

end

/-- A dentry below an RFS dentry stands for an entry of that directory. -/
theorem Inv.cached_kid (h : Inv M o d) {p : Dentry} {pv : Vinode} (ht : o.dentry t = some x)
    (hp : o.dentry x.parent = some p) (hpv : o.vinode p.dentryInode = some pv)
    (hprfs : pv.iOps = .rfs) : ∃ v, o.vinode x.dentryInode = some v ∧ v.iOps = .rfs ∧
      entryOf (dirEnts d pv.inum) x.name = some v.inum := by
  obtain ⟨v, hv⟩ := h.cache.inode t x ht
  have hroot : x.parent ≠ M.root := by
    intro heq
    obtain ⟨rx, rv, hrx, hrv, hrhost, -⟩ := h.tree.rootD
    rw [← heq, hp] at hrx
    obtain rfl := Option.some.inj hrx
    rw [hpv] at hrv
    obtain rfl := Option.some.inj hrv
    rw [hprfs] at hrhost
    cases hrhost
  cases hops : v.iOps with
  | hostfs =>
      rcases h.tree.hostKid t x v ht hv hops with h0 | hr
      · rw [h0, h.tree.zero.1] at hp
        cases hp
      · exact absurd hr hroot
  | rfs =>
      have hne : t ≠ M.rfsRoot := by
        rintro rfl
        obtain ⟨fx, -, hfx, -, -, -, hkey⟩ := h.tree.rfsD
        rw [ht] at hfx
        obtain rfl := Option.some.inj hfx
        exact hroot (congrArg DentryKey.parent hkey)
      obtain ⟨p', pv', hp', hpv', -, hmem⟩ := h.tree.kid t x v ht hv hops hne
      rw [hp] at hp'
      obtain rfl := Option.some.inj hp'
      rw [hpv] at hpv'
      obtain rfl := Option.some.inj hpv'
      exact ⟨v, hv, hops, entryOf_of_mem (h.links.names _) hmem⟩

/-- A name that is not on disk is not cached. -/
theorem Inv.findD_none (h : Inv M o d) (hx : o.dentry this = some x)
    (hv : o.vinode x.dentryInode = some v) (hrfs : v.iOps = .rfs)
    (hmiss : entryOf (dirEnts d v.inum) token = none) : o.findD ⟨this, token⟩ = none := by
  cases hf : o.findD ⟨this, token⟩ with
  | none => rfl
  | some e =>
      obtain ⟨y, hy, hkey⟩ := h.cache.findD_some hf
      obtain rfl : y.parent = this := congrArg DentryKey.parent hkey
      obtain rfl : y.name = token := congrArg DentryKey.name hkey
      obtain ⟨w, -, -, hent⟩ := h.cached_kid hy hx hv hrfs
      rw [hmiss] at hent
      cases hent

/-- Only RFS has files in memory. -/
theorem Inv.rfs_of_file (h : Inv M o d) (hw : o.vinode w = some v) (hfile : v.type = fileI) :
    v.iOps = .rfs := by
  cases hops : v.iOps with
  | rfs => rfl
  | hostfs =>
      have hdir := (h.tree.hostV w v hw hops).2.1
      exact absurd (hfile.symm.trans hdir) (by decide)

end

/-! ## One component -/

section

variable {M : Mount} {s : State} {o : Objs} {d : Nat → Block} {b : Block} {E : Fault → Prop}
  {host : VinodeOps}

theorem lookupToken_miss (h : Holds s o d b []) (hi : Inv M o d) (hx : o.dentry this = some x)
    (hv : o.vinode x.dentryInode = some v) (hrfs : v.iOps = .rfs) (hname : NameOk token)
    (hmiss : entryOf (dirEnts d v.inum) token = none)
    (hfile : v.type ≠ dirI → FileMiss M o d v.inum token) (hE : E .nullPage) :
    Post (lookupToken host this token) s (fun r s' => r = none ∧ Ends s' o d []) E := by
  have hnone := hi.findD_none hx hv hrfs hmiss
  refine .step (defaultGet_ok dentryView h _) ?_
  rw [show (dentryView.look o).find? dentryTable.ops ⟨this, token⟩ = none from hnone]
  refine .bind (allocVfsDentry_null h hE) ?_
  rintro t s1 ⟨hfresh, ht0, -, h1⟩
  have hne : this ≠ t := ne_of_none hfresh.dentry hx
  have hx1 : (o.setD t ⟨token, 0, 0, this⟩).dentry this = some x := (upd_ne hne).trans hx
  refine post_known dentryKind h1 hx1 ?_
  refine post_opsOf h1 hv hrfs ?_
  refine .bind (rfsLookup_miss h1 hv (upd_self _ _ _) (hi.browsable hv hrfs)
    (hi.browse_miss hv hrfs hname hmiss hfile)) ?_
  rintro _ s2 ⟨rfl, b2, h2⟩
  refine .bind (freePage_post (K := dentryKind) h2 (upd_self _ _ _) nofun) fun _ s3 h3 => ?_
  refine .pure ⟨rfl, b2, ?_⟩
  have hback : upd (upd o.dentry t (some ⟨token, 0, 0, this⟩)) t none = o.dentry := by
    rw [upd_upd, upd_eq_self hfresh.dentry]
  change Holds s3 { o with dentry := upd (upd o.dentry t _) t none } d b2 [] at h3
  rwa [hback] at h3

/-- What a lookup leaves for a name it has found. -/
structure Found (M : Mount) (care : Care) (o : Objs) (d : Nat → Block) (t : Ptr) (k : DentryKey)
    (n : Int) (o' : Objs) : Prop where
  steps : Steps M care (o, d) (o', d)
  grown : Grown o o'
  cur : curInode (diskInode d) (o'.mem M) = curInode (diskInode d) (o.mem M)
  bound : ∃ y u, o'.dentry t = some y ∧ y.key = k ∧ o'.vinode y.dentryInode = some u ∧
    u.iOps = .rfs ∧ u.inum = n

/-- The new dentry `x` at `t` and the vinode the file system has loaded at `w`
enter the cache. -/
theorem cacheFound_post (care : Care) {p : Dentry} {pv : Vinode}
    (h : Holds s ((o.setD t x).setV w (loadedVinode M.sb n (diskInode d n))) d b [])
    (hi : Inv M o d) (ht : o.dentry t = none) (ht0 : t ≠ 0) (hw : o.vinode w = none)
    (hidle : x.dRef = 0) (hnew : o.findD x.key = none) (hp : o.dentry x.parent = some p)
    (hpv : o.vinode p.dentryInode = some pv) (hprfs : pv.iOps = .rfs)
    (hent : (n, x.name) ∈ dirEnts d pv.inum) (hE : E .nullPage) :
    Post (cacheFound t w) s (fun _ s' => ∃ o', Ends s' o' d [] ∧
      Found M care o d t x.key n o') E := by
  have hlive : Live (diskInode d) n := (hi.links.target _ _ hent).2
  have hnum : 0 ≤ n := (hi.blocks.num n hlive).1
  refine (cacheFound_entered h hi.cache hw hnew hE).mono ?_
  rintro _ s' ⟨q, u, o1, node, hin, hnode, h'⟩
  -- the vinode of the name is the one of the table, or it has just been loaded
  have hload : Steps M care (o, d) (o1, d) ∧ Grown o o1 ∧
      curInode (diskInode d) (o1.mem M) = curInode (diskInode d) (o.mem M) ∧ u.iOps = .rfs ∧
      u.inum = n := by
    cases hin with
    | cached e u _ he hu =>
        obtain ⟨u', hu', hkey, -⟩ := hi.cache.findV_some he
        obtain rfl := Option.some.inj (hu.symm.trans hu')
        have hun : u.inum = n := congrArg VinodeKey.inum hkey
        refine ⟨.refl, .refl o, rfl, ?_, hun⟩
        cases hops : u.iOps with
        | rfs => rfl
        | hostfs =>
            have := (hi.tree.hostV _ _ hu hops).1
            omega
    | numbered w nv hw hnv _ hf =>
        refine ⟨.single (.load n q nv hlive hf hw ?_ hnv), .load hw, ?_, rfl, rfl⟩
        · rintro rfl
          exact (h'.ne_zero (K := vinodeKind) (upd_self _ _ _)) rfl
        · rw [mem_addV hi.cache hw rfl]
          exact curInode_load (Inv.mem_none hf)
    | unnumbered w _ hneg => exact absurd hneg (not_lt.mpr hnum)
  obtain ⟨hsteps, hgrown, hcur, hrfs, hun⟩ := hload
  have hq : o1.vinode q = some u := hin.vinode
  have ht' : o1.dentry t = none := by rw [hin.dentry, ht]
  have hnew' : o1.findD x.key = none := (hin.findD _).trans hnew
  obtain ⟨r, hpv'⟩ := hgrown.vinode _ _ hpv
  have hchange : Change M care o1 d
      ((o1.setV q { u with ref := u.ref + 1 }).addD node t { x with dentryInode := q }) d :=
    .bind node t { x with dentryInode := q } p u { pv with ref := r } ht' ht0 hnode hnew' hidle hq
      hrfs (hgrown.dentry _ _ hp) hpv' hprfs (by rw [hun]; exact hent)
  have hi1 : Inv M o1 d := hsteps.inv hi
  have hmem : ((o1.setV q { u with ref := u.ref + 1 }).addD node t
      { x with dentryInode := q }).mem M = o1.mem M :=
    mem_setV_same hi1.cache { u with ref := u.ref + 1 } hq (hi1.sb_eq hq hrfs)
      (hi1.inum_nonneg hq hrfs) rfl
  exact ⟨_, ⟨b, h'⟩, hsteps.tail hchange, hgrown.trans (.bind ht' hq),
    (congrArg _ hmem).trans hcur, _, _, upd_self _ _ _, rfl, upd_self _ _ _, hrfs, hun⟩

theorem lookupToken_found (care : Care) (h : Holds s o d b []) (hi : Inv M o d)
    (hx : o.dentry this = some x) (hv : o.vinode x.dentryInode = some v) (hrfs : v.iOps = .rfs)
    (hname : NameOk token) (hent : entryOf (dirEnts d v.inum) token = some n) (hE : E .nullPage) :
    Post (lookupToken host this token) s (fun r s' => ∃ t o', r = some t ∧ Ends s' o' d [] ∧
      Found M care o d t ⟨this, token⟩ n o') E := by
  refine .step (defaultGet_ok dentryView h _) ?_
  rw [show (dentryView.look o).find? dentryTable.ops ⟨this, token⟩ = o.findD ⟨this, token⟩ from rfl]
  cases hf : o.findD ⟨this, token⟩ with
  | some e =>
      obtain ⟨y, hy, hkey⟩ := hi.cache.findD_some hf
      obtain rfl : y.parent = this := congrArg DentryKey.parent hkey
      obtain rfl : y.name = token := congrArg DentryKey.name hkey
      obtain ⟨u, hu, hurfs, hent'⟩ := hi.cached_kid hy hx hv hrfs
      rw [hent] at hent'
      exact .pure ⟨e.value, o, rfl, ⟨b, h⟩, .refl, .refl o, rfl, y, u, hy, rfl, hu, hurfs,
        (Option.some.inj hent').symm⟩
  | none =>
      obtain ⟨hdir, i, hlt, hget, htrue, hbefore, hint⟩ := hi.browse_found hv hrfs hname hent
      have hmem : (n, token) ∈ dirEnts d v.inum := entryOf_some hent
      have hnum : InodeNum n := hi.blocks.num n (hi.links.target _ _ hmem).2
      refine .bind (allocVfsDentry_null h hE) ?_
      rintro t s1 ⟨hfresh, ht0, -, h1⟩
      have hne : this ≠ t := ne_of_none hfresh.dentry hx
      have hx1 : (o.setD t ⟨token, 0, 0, this⟩).dentry this = some x := (upd_ne hne).trans hx
      refine post_known dentryKind h1 hx1 ?_
      refine post_opsOf h1 hv hrfs ?_
      refine .bind (rfsLookup_found h1 hv (upd_self _ _ _) (hi.browsable hv hrfs) hlt htrue hbefore
        (by rw [hint]; exact hnum) hE) ?_
      rintro _ s2 ⟨w, rfl, hwfresh, -, -, m, hm, b2, h2⟩
      rw [hint] at hm
      subst hm
      rw [hi.sb_eq hv hrfs] at h2
      refine .bind (cacheFound_post care h2 hi hfresh.dentry ht0 hwfresh.vinode rfl hf hx hv hrfs
        hmem hE) ?_
      rintro _ s3 ⟨o', h3, hfound⟩
      exact .pure ⟨t, o', rfl, h3, hfound⟩

/-! ## Whole paths -/

/-- What a lookup of `tokens` below inode `n` returns: the dentry of the inode
that the entries lead to, or where a name is missing. -/
structure Resolved (M : Mount) (care : Care) (o : Objs) (d : Nat → Block) (n : Int)
    (tokens : List Name) (r : LookupResult) (o' : Objs) : Prop where
  steps : Steps M care (o, d) (o', d)
  grown : Grown o o'
  cur : curInode (diskInode d) (o'.mem M) = curInode (diskInode d) (o.mem M)
  found : ∀ m, walk (dirEnts d) n tokens = (m, []) → ∃ t y u, r.dentry = some t ∧
    o'.dentry t = some y ∧ o'.vinode y.dentryInode = some u ∧ u.iOps = .rfs ∧ u.inum = m ∧
    y.parent = r.parent ∧ NameOk y.name
  missing : ∀ m token rest, walk (dirEnts d) n tokens = (m, token :: rest) → r.dentry = none ∧
    r.missName = token ∧ ∃ y u, o'.dentry r.parent = some y ∧
      o'.vinode y.dentryInode = some u ∧ u.iOps = .rfs ∧ u.inum = m

/-- Where a lookup stops: in a directory, or in a file in which it does not
find what it looks for. -/
def StopOk (M : Mount) (o : Objs) (d : Nat → Block) (n : Int) (tokens : List Name) : Prop :=
  ∀ m token rest, walk (dirEnts d) n tokens = (m, token :: rest) →
    (diskInode d m).type ≠ rDir → FileMiss M o d m token

theorem lookupTokens_post (care : Care) (hE : E .nullPage) : ∀ {tokens : List Name}
    {this parent : Ptr} {s : State} {o : Objs} {b : Block} {x : Dentry} {v : Vinode},
    Holds s o d b [] → Inv M o d → o.dentry this = some x → x.parent = parent → NameOk x.name →
    o.vinode x.dentryInode = some v → v.iOps = .rfs → (∀ t ∈ tokens, NameOk t) →
    StopOk M o d v.inum tokens →
    Post (lookupTokens host tokens this parent) s (fun r s' => ∃ o', Ends s' o' d [] ∧
      Resolved M care o d v.inum tokens r o') E
  | [], this, parent, s, o, b, x, v, h, hi, hx, hpar, hok, hv, hrfs, _, _ => by
      refine .pure ⟨o, ⟨b, h⟩, .refl, .refl o, rfl, ?_, ?_⟩
      · rintro m hwalk
        obtain ⟨rfl, -⟩ := Prod.mk.injEq .. |>.mp hwalk
        exact ⟨this, x, v, rfl, hx, hv, hrfs, rfl, hpar, hok⟩
      · rintro m token rest hwalk
        exact nomatch (Prod.mk.injEq .. |>.mp hwalk).2
  | token :: rest, this, parent, s, o, b, x, v, h, hi, hx, _, _, hv, hrfs, hnames, hstop => by
      have hname := hnames token (List.mem_cons_self ..)
      unfold lookupTokens
      cases hent : entryOf (dirEnts d v.inum) token with
      | none =>
          have hwalk : walk (dirEnts d) v.inum (token :: rest) = (v.inum, token :: rest) := by
            rw [walk, hent]
          have hfile : v.type ≠ dirI → FileMiss M o d v.inum token := fun hne =>
            hstop v.inum token rest hwalk (by rw [hi.type_eq hv hrfs]; exact hne)
          refine .bind (lookupToken_miss h hi hx hv hrfs hname hent hfile hE) ?_
          rintro _ s1 ⟨rfl, b1, h1⟩
          refine .pure ⟨o, ⟨b1, h1⟩, .refl, .refl o, rfl, ?_, ?_⟩
          · intro m hm
            rw [hwalk] at hm
            exact nomatch (Prod.mk.injEq .. |>.mp hm).2
          · intro m token' rest' hm
            rw [hwalk] at hm
            obtain ⟨rfl, heq⟩ := Prod.mk.injEq .. |>.mp hm
            obtain ⟨rfl, -⟩ := List.cons.injEq .. |>.mp heq
            exact ⟨rfl, rfl, x, v, hx, hv, hrfs, rfl⟩
      | some n =>
          have hwalk : walk (dirEnts d) v.inum (token :: rest) = walk (dirEnts d) n rest := by
            rw [walk, hent]
          refine .bind (lookupToken_found care h hi hx hv hrfs hname hent hE) ?_
          rintro _ s1 ⟨t, o1, rfl, ⟨b1, h1⟩, hfound⟩
          obtain ⟨y, u, hy, hkey, hu, hurfs, rfl⟩ := hfound.bound
          have hstop' : StopOk M o1 d u.inum rest := by
            intro m token' rest' hm hne
            unfold FileMiss
            rw [hfound.cur]
            exact hstop m token' rest' (hwalk.trans hm) hne
          have hyname : y.name = token := congrArg DentryKey.name hkey
          refine (lookupTokens_post care hE h1 (hfound.steps.inv hi) hy
            (congrArg DentryKey.parent hkey) (by rw [hyname]; exact hname) hu hurfs
            (fun t ht => hnames t (List.mem_cons_of_mem _ ht)) hstop').mono ?_
          rintro r s2 ⟨o2, h2, hr⟩
          exact ⟨o2, h2, hfound.steps.trans hr.steps, hfound.grown.trans hr.grown,
            hr.cur.trans hfound.cur, fun m hm => hr.found m (hwalk ▸ hm),
            fun m token' rest' hm => hr.missing m token' rest' (hwalk ▸ hm)⟩

/-- The tokens of a path below the mount point. -/
def RfsPath (p : Path) (tokens : List Name) : Prop := p.tokens = ramdiskName :: tokens

/-- The lookup of the names below the mount point. -/
theorem lookupMount_post (care : Care) {tokens : List Name} (h : Holds s o d b []) (hi : Inv M o d)
    (hnames : ∀ t ∈ tokens, NameOk t) (hstop : StopOk M o d 0 tokens) (hE : E .nullPage) :
    Post (lookupTokens host (ramdiskName :: tokens) s.vfsRootDentry s.vfsRootDentry) s
      (fun r s' => ∃ o', Ends s' o' d [] ∧ Resolved M care o d 0 tokens r o') E := by
  have hroot : s.vfsRootDentry = M.root := (congrArg Objs.root h.objs).trans hi.tree.root
  obtain ⟨x, v, hx, hv, hrfs, hzero, hkey⟩ := hi.tree.rfsD
  have hfind : ∃ e, o.findD ⟨M.root, ramdiskName⟩ = some e ∧ e.value = M.rfsRoot := by
    obtain ⟨e, he, hval⟩ := hi.cache.dhashed _ x hx
    exact ⟨e, hkey ▸ he, hval⟩
  obtain ⟨e, he, hval⟩ := hfind
  rw [hroot, lookupTokens]
  -- the mount point is in the cache
  have htoken : lookupToken host M.root ramdiskName s = .ok (some M.rfsRoot, s) := by
    unfold lookupToken hashGetDentry
    rw [Exec.bind_of_ok (defaultGet_ok dentryView h _),
      show (dentryView.look o).find? dentryTable.ops ⟨M.root, ramdiskName⟩ = some e from he,
      Option.map_some, hval]
    rfl
  refine .step htoken ?_
  have hpar : x.parent = M.root := congrArg DentryKey.parent hkey
  have hok : NameOk x.name := by
    rw [show x.name = ramdiskName from congrArg DentryKey.name hkey, NameOk]
    decide
  refine (lookupTokens_post care hE h hi hx hpar hok hv hrfs hnames
    (by rw [hzero]; exact hstop)).mono ?_
  rintro r s' ⟨o', h', hr⟩
  rw [hzero] at hr
  exact ⟨o', h', hr⟩

/-- `lookup_final_dentry` of a path below the mount point. -/
theorem lookupFinalDentry_post (care : Care) {p : Path} {tokens : List Name}
    (h : Holds s o d b []) (hi : Inv M o d) (hp : RfsPath p tokens)
    (hstop : StopOk M o d 0 tokens) (hE : E .nullPage)
    (hlong : ¬p.bytes.length < maxPathLen → E (.ub "path_copy")) :
    Post (lookupFinalDentry host p) s (fun r s' => p.bytes.length < maxPathLen ∧
      ∃ o', Ends s' o' d [] ∧ Resolved M care o d 0 tokens r o') E := by
  unfold lookupFinalDentry copyPath
  by_cases hlen : p.bytes.length < maxPathLen
  · rw [if_pos hlen]
    refine .step rfl (.bindGet ?_)
    rw [hp]
    exact (lookupMount_post care h hi (nameOk_of_path hp hlen) hstop hE).mono
      fun _ _ hr => ⟨hlen, hr⟩
  · rw [if_neg hlen]
    exact .bind (R := fun _ _ => False) (.fault (hlong hlen)) nofun

end

end Pke
