import Pke.Heap

/-!
# The dentry and vinode caches

`CacheInv` ties the two hash tables to the objects in memory: a table
holds exactly the dentries (the vinodes with an inode number) that exist,
each under its own key, and the `ref` of a vinode is the number of
dentries of the table that point to it. Entering an object into a table
and taking it out again keep it, and so does any change to an object
that leaves its key, its inode and its count alone.
-/

namespace Pke

def Dentry.key (x : Dentry) : DentryKey := ⟨x.parent, x.name⟩

def Vinode.key (v : Vinode) : VinodeKey := ⟨v.inum, v.sb⟩

namespace Objs

def findD (o : Objs) (k : DentryKey) : Option (HashNode DentryKey Ptr) :=
  o.dentryHash.find? dentryHashOps k

def findV (o : Objs) (k : VinodeKey) : Option (HashNode VinodeKey Ptr) :=
  o.vinodeHash.find? vinodeHashOps k

/-- The nodes of the dentry table. -/
def dentries (o : Objs) : List (HashNode DentryKey Ptr) := o.dentryHash.entries hashTableSize

def vinodes (o : Objs) : List (HashNode VinodeKey Ptr) := o.vinodeHash.entries hashTableSize

/-- The dentry at `t` points to the vinode at `w`. -/
def pointsTo (o : Objs) (w t : Ptr) : Bool := (o.dentry t).any fun x => x.dentryInode == w

/-- The number of dentries in the table that point to the vinode at `w`. -/
def refCount (o : Objs) (w : Ptr) : Nat := o.dentries.countP fun e => o.pointsTo w e.value

def setV (o : Objs) (w : Ptr) (v : Vinode) : Objs := { o with vinode := upd o.vinode w (some v) }

def setD (o : Objs) (t : Ptr) (x : Dentry) : Objs := { o with dentry := upd o.dentry t (some x) }

def addD (o : Objs) (node t : Ptr) (x : Dentry) : Objs :=
  { o with
    dentry := upd o.dentry t (some x)
    hashNode := upd o.hashNode node (some (.dentry x.key))
    dentryHash := o.dentryHash.insert dentryHashOps ⟨node, x.key, t⟩ }

def addV (o : Objs) (node w : Ptr) (v : Vinode) : Objs :=
  { o with
    vinode := upd o.vinode w (some v)
    hashNode := upd o.hashNode node (some (.vinode v.key))
    vinodeHash := o.vinodeHash.insert vinodeHashOps ⟨node, v.key, w⟩ }

def dropD (o : Objs) (node t : Ptr) (x : Dentry) : Objs :=
  { o with
    dentry := upd o.dentry t none
    hashNode := upd o.hashNode node none
    dentryHash := o.dentryHash.remove dentryHashOps x.key }

def dropV (o : Objs) (node w : Ptr) (v : Vinode) : Objs :=
  { o with
    vinode := upd o.vinode w none
    hashNode := upd o.hashNode node none
    vinodeHash := o.vinodeHash.remove vinodeHashOps v.key }

/-- A host file system is mounted: its super block and its root vinode, which
has no inode number and is in no table. -/
def addHost (o : Objs) (sb : Ptr) (B : SuperBlock) (w : Ptr) (v : Vinode) (l : List Ptr) : Objs :=
  { o with
    superBlock := upd o.superBlock sb (some B)
    vinode := upd o.vinode w (some v)
    sbList := l }

end Objs

structure CacheInv (o : Objs) : Prop where
  dwf : o.dentryHash.WF dentryHashOps
  vwf : o.vinodeHash.WF vinodeHashOps
  dentries : ∀ e ∈ o.dentries, o.hashNode e.node = some (.dentry e.key) ∧
    ∃ x, o.dentry e.value = some x ∧ x.key = e.key
  vinodes : ∀ e ∈ o.vinodes, o.hashNode e.node = some (.vinode e.key) ∧
    ∃ v, o.vinode e.value = some v ∧ v.key = e.key ∧ 0 ≤ v.inum
  dhashed : ∀ t x, o.dentry t = some x → ∃ e, o.findD x.key = some e ∧ e.value = t
  vhashed : ∀ w v, o.vinode w = some v → 0 ≤ v.inum → ∃ e, o.findV v.key = some e ∧ e.value = w
  inode : ∀ t x, o.dentry t = some x → ∃ v, o.vinode x.dentryInode = some v
  ref : ∀ w v, o.vinode w = some v → v.ref = o.refCount w

/-! ## A table and its objects -/

/-- The nodes of a table are the objects that are `live`, each under its key, and the
page of a node holds the key. -/
structure Indexed {K α : Type} (ops : HashOps K) (tag : K → HashKey) (key : α → K) (live : α → Prop)
    (t : HashTable K Ptr) (nodes : Ptr → Option HashKey) (obj : Ptr → Option α) : Prop where
  wf : t.WF ops
  entries : ∀ e ∈ t.entries hashTableSize, nodes e.node = some (tag e.key) ∧
    ∃ x, obj e.value = some x ∧ key x = e.key ∧ live x
  hashed : ∀ p x, obj p = some x → live x → ∃ e, t.find? ops (key x) = some e ∧ e.value = p

namespace Indexed

variable {K α : Type} {ops : HashOps K} {tag : K → HashKey} {key : α → K} {live : α → Prop}
  {t : HashTable K Ptr} {nodes : Ptr → Option HashKey} {obj : Ptr → Option α} {p q node : Ptr}
  {x y : α} {e : HashNode K Ptr}

section

variable (h : Indexed ops tag key live t nodes obj)

include h

theorem eq_of_key (hp : obj p = some x) (hx : live x) (hq : obj q = some y) (hy : live y)
    (hkey : key x = key y) : p = q := by
  obtain ⟨e, he, rfl⟩ := h.hashed p x hp hx
  obtain ⟨e', he', rfl⟩ := h.hashed q y hq hy
  rw [hkey, he'] at he
  rw [Option.some.inj he]

/-- The objects that are live keep their keys, and the nodes their pages. -/
theorem frame {nodes' : Ptr → Option HashKey} {obj' : Ptr → Option α}
    (hnodes : ∀ p k, nodes p = some (tag k) → nodes' p = some (tag k))
    (hkeep : ∀ p x, obj p = some x → live x → ∃ y, obj' p = some y ∧ key y = key x ∧ live y)
    (hback : ∀ p y, obj' p = some y → live y → ∃ x, obj p = some x ∧ key x = key y ∧ live x) :
    Indexed ops tag key live t nodes' obj' where
  wf := h.wf
  entries e he := by
    obtain ⟨hn, x, hx, hk, hl⟩ := h.entries e he
    obtain ⟨y, hy, hky, hly⟩ := hkeep _ x hx hl
    exact ⟨hnodes _ _ hn, y, hy, hky.trans hk, hly⟩
  hashed p y hy hl := by
    obtain ⟨x, hx, hk, hlx⟩ := hback p y hy hl
    rw [← hk]
    exact h.hashed p x hx hlx

theorem nodes_frame {nodes' : Ptr → Option HashKey}
    (hnodes : ∀ p k, nodes p = some (tag k) → nodes' p = some (tag k)) :
    Indexed ops tag key live t nodes' obj :=
  h.frame hnodes (fun _ x hx hl => ⟨x, hx, rfl, hl⟩) fun _ x hx hl => ⟨x, hx, rfl, hl⟩

theorem set (hp : obj p = some x) (hkey : key y = key x) (hl : live y ↔ live x) :
    Indexed ops tag key live t nodes (upd obj p (some y)) := by
  refine h.frame (fun _ _ hn => hn) (fun q z hq hz => ?_) fun q z hq hz => ?_
  · rcases eq_or_ne q p with rfl | hqp
    · obtain rfl := Option.some.inj (hp.symm.trans hq)
      exact ⟨y, upd_self _ _ _, hkey, hl.mpr hz⟩
    · exact ⟨z, (upd_ne hqp).trans hq, rfl, hz⟩
  · rcases upd_some hq with ⟨rfl, rfl⟩ | ⟨-, hq'⟩
    · exact ⟨x, hp, hkey.symm, hl.mp hz⟩
    · exact ⟨z, hq', rfl, hz⟩

/-- An object that is not live comes or goes. -/
theorem unlisted {a : Option α} (hp : ∀ x, obj p = some x → ¬live x)
    (ha : ∀ y, a = some y → ¬live y) : Indexed ops tag key live t nodes (upd obj p a) := by
  refine h.frame (fun _ _ hn => hn) (fun q z hq hz => ?_) fun q z hq hz => ?_
  · have hqp : q ≠ p := fun hqp => hp z (hqp ▸ hq) hz
    exact ⟨z, (upd_ne hqp).trans hq, rfl, hz⟩
  · rcases eq_or_ne q p with rfl | hqp
    · exact absurd hz (ha z ((upd_self obj q a).symm.trans hq))
    · exact ⟨z, (upd_ne hqp).symm.trans hq, rfl, hz⟩

variable (law : ops.Lawful hashTableSize) (hequal : ∀ {k k'}, ops.equal k k' = true ↔ k = k')

include law hequal

theorem insert (hp : obj p = none) (hnode : nodes node = none)
    (hnew : t.find? ops (key x) = none) (hl : live x) :
    Indexed ops tag key live (t.insert ops ⟨node, key x, p⟩) (upd nodes node (some (tag (key x))))
      (upd obj p (some x)) where
  wf := HashTable.wf_insert law h.wf hnew
  entries e he := by
    rcases List.mem_cons.mp ((HashTable.entries_insert law).mem_iff.mp he) with rfl | he
    · exact ⟨upd_self _ _ _, x, upd_self _ _ _, rfl, hl⟩
    · obtain ⟨hn, y, hy, hk⟩ := h.entries e he
      exact ⟨upd_fresh hnode hn, y, upd_fresh hp hy, hk⟩
  hashed q y hq hy := by
    rcases upd_some hq with ⟨rfl, rfl⟩ | ⟨-, hq'⟩
    · exact ⟨_, HashTable.find?_insert_self law (law.refl _), rfl⟩
    · obtain ⟨e, he, hval⟩ := h.hashed q y hq' hy
      refine ⟨e, ?_, hval⟩
      rw [HashTable.find?_insert_ne, he]
      refine Bool.eq_false_iff.mpr fun hk => ?_
      have hkey : key x = key y := hequal.mp hk
      rw [hkey, he] at hnew
      cases hnew

theorem mem_remove {k : K} (he : e ∈ (t.remove ops k).entries hashTableSize) :
    e ∈ t.entries hashTableSize ∧ e.key ≠ k := by
  obtain ⟨hmem, hne⟩ := HashTable.mem_entries_remove law h.wf he
  refine ⟨hmem, fun heq => ?_⟩
  rw [hequal.mpr heq] at hne
  cases hne

theorem remove (htag : Function.Injective tag) (hp : obj p = some x) (hl : live x)
    (he : t.find? ops (key x) = some e) :
    Indexed ops tag key live (t.remove ops (key x)) (upd nodes e.node none) (upd obj p none) where
  wf := HashTable.wf_remove h.wf
  entries e' he' := by
    obtain ⟨hmem, hne⟩ := h.mem_remove law hequal he'
    obtain ⟨hn, y, hy, hk, hly⟩ := h.entries e' hmem
    have hnode := (h.entries e (HashTable.mem_entries_of_find? law he)).1
    rw [hequal.mp (HashTable.mem_of_find? he).2] at hnode
    refine ⟨(upd_ne fun heq => hne ?_).trans hn, y, (upd_ne fun heq => hne ?_).trans hy, hk, hly⟩
    · rw [heq, hnode] at hn
      exact (htag (Option.some.inj hn)).symm
    · rw [heq, hp] at hy
      rw [← hk, Option.some.inj hy]
  hashed q y hq hy := by
    obtain ⟨hqp, hq'⟩ := upd_none hq
    rw [HashTable.find?_remove_ne law h.wf]
    · exact h.hashed q y hq' hy
    · exact Bool.eq_false_iff.mpr fun hk => hqp (h.eq_of_key hq' hy hp hl (hequal.mp hk).symm)

end

end Indexed

/-! ## The tables as maps -/

variable {e : HashNode DentryKey Ptr} {node t w : Ptr} {x : Dentry} {v : Vinode}

section

variable {o : Objs} {k k' : DentryKey} {l l' : VinodeKey}

theorem dentryHashOps_ne (h : k ≠ k') : dentryHashOps.equal k k' = false := by
  rw [← Bool.not_eq_true, dentryHashOps_equal]
  exact h

theorem vinodeHashOps_ne (h : l ≠ l') : vinodeHashOps.equal l l' = false := by
  rw [← Bool.not_eq_true, vinodeHashOps_equal]
  exact h

theorem findD_mem (h : o.findD k = some e) : e ∈ o.dentries ∧ e.key = k :=
  ⟨HashTable.mem_entries_of_find? dentryHashOps_lawful h,
    dentryHashOps_equal.mp (HashTable.mem_of_find? h).2⟩

theorem findV_mem {e : HashNode VinodeKey Ptr} (h : o.findV l = some e) :
    e ∈ o.vinodes ∧ e.key = l :=
  ⟨HashTable.mem_entries_of_find? vinodeHashOps_lawful h,
    vinodeHashOps_equal.mp (HashTable.mem_of_find? h).2⟩

theorem findV_addV :
    (o.addV node w v).findV l = if v.key = l then some ⟨node, v.key, w⟩ else o.findV l := by
  split
  · rename_i h
    exact HashTable.find?_insert_self vinodeHashOps_lawful (vinodeHashOps_equal.mpr h)
  · rename_i h
    exact HashTable.find?_insert_ne (vinodeHashOps_ne h)

theorem findV_dropV (hwf : o.vinodeHash.WF vinodeHashOps) :
    (o.dropV node w v).findV l = if v.key = l then none else o.findV l := by
  split
  · rename_i h
    exact HashTable.find?_remove_self vinodeHashOps_lawful hwf (vinodeHashOps_equal.mpr h)
  · rename_i h
    exact HashTable.find?_remove_ne vinodeHashOps_lawful hwf (vinodeHashOps_ne h)

end

/-! ## Consequences -/

namespace CacheInv

variable {o : Objs}

theorem dtable (h : CacheInv o) : Indexed dentryHashOps .dentry Dentry.key (fun _ => True)
    o.dentryHash o.hashNode o.dentry where
  wf := h.dwf
  entries e he := by
    obtain ⟨hn, x, hx, hk⟩ := h.dentries e he
    exact ⟨hn, x, hx, hk, trivial⟩
  hashed t x hx _ := h.dhashed t x hx

theorem vtable (h : CacheInv o) : Indexed vinodeHashOps .vinode Vinode.key (fun v => 0 ≤ v.inum)
    o.vinodeHash o.hashNode o.vinode :=
  ⟨h.vwf, h.vinodes, h.vhashed⟩

theorem of_tables (hd : Indexed dentryHashOps .dentry Dentry.key (fun _ => True) o.dentryHash
      o.hashNode o.dentry)
    (hv : Indexed vinodeHashOps .vinode Vinode.key (fun v => 0 ≤ v.inum) o.vinodeHash o.hashNode
      o.vinode)
    (hinode : ∀ t x, o.dentry t = some x → ∃ v, o.vinode x.dentryInode = some v)
    (href : ∀ w v, o.vinode w = some v → v.ref = o.refCount w) : CacheInv o := by
  refine ⟨hd.wf, hv.wf, fun e he => ?_, hv.entries, fun t x hx => hd.hashed t x hx trivial,
    hv.hashed, hinode, href⟩
  obtain ⟨hn, x, hx, hk, -⟩ := hd.entries e he
  exact ⟨hn, x, hx, hk⟩

theorem dentry_eq (h : CacheInv o) {t' : Ptr} {x' : Dentry} (ht : o.dentry t = some x)
    (ht' : o.dentry t' = some x') (hkey : x.key = x'.key) : t = t' :=
  h.dtable.eq_of_key ht trivial ht' trivial hkey

theorem vinode_eq (h : CacheInv o) {w' : Ptr} {v' : Vinode} (hw : o.vinode w = some v)
    (hw' : o.vinode w' = some v') (hnum : 0 ≤ v.inum) (hkey : v.key = v'.key) : w = w' := by
  have hinum : v.inum = v'.inum := congrArg VinodeKey.inum hkey
  exact h.vtable.eq_of_key hw hnum hw' (by omega) hkey

/-- What a lookup in the dentry table returns. -/
theorem findD_some (h : CacheInv o) {k : DentryKey} (he : o.findD k = some e) :
    ∃ x, o.dentry e.value = some x ∧ x.key = k := by
  obtain ⟨hmem, hkey⟩ := findD_mem he
  obtain ⟨-, x, hx, hxk⟩ := h.dentries e hmem
  exact ⟨x, hx, hxk.trans hkey⟩

theorem findV_some (h : CacheInv o) {k : VinodeKey} {e : HashNode VinodeKey Ptr}
    (he : o.findV k = some e) : ∃ v, o.vinode e.value = some v ∧ v.key = k ∧ 0 ≤ v.inum := by
  obtain ⟨hmem, hkey⟩ := findV_mem he
  obtain ⟨-, v, hv, hvk, hnum⟩ := h.vinodes e hmem
  exact ⟨v, hv, hvk.trans hkey, hnum⟩

theorem pointsTo_iff (ht : o.dentry t = some x) : o.pointsTo w t = true ↔ x.dentryInode = w := by
  simp [Objs.pointsTo, ht]

theorem refCount_pos (h : CacheInv o) (ht : o.dentry t = some x) :
    0 < o.refCount x.dentryInode := by
  obtain ⟨e, he, rfl⟩ := h.dhashed t x ht
  exact List.countP_pos_iff.mpr ⟨e, (findD_mem he).1, (pointsTo_iff ht).mpr rfl⟩

theorem refCount_zero (h : CacheInv o) (hno : ∀ t x, o.dentry t = some x → x.dentryInode ≠ w) :
    o.refCount w = 0 := by
  by_contra hne
  obtain ⟨e, he, hp⟩ := List.countP_pos_iff.mp (Nat.pos_iff_ne_zero.mpr hne)
  obtain ⟨-, x, hx, -⟩ := h.dentries e he
  exact hno _ x hx ((pointsTo_iff hx).mp hp)

/-- No dentry points to a page that is no vinode. -/
theorem refCount_none (h : CacheInv o) (hw : o.vinode w = none) : o.refCount w = 0 := by
  refine h.refCount_zero fun t x hx heq => ?_
  obtain ⟨u, hu⟩ := h.inode t x hx
  rw [heq, hw] at hu
  cases hu

/-- Two tables with the same nodes, whose dentries point to the same vinodes. -/
theorem refCount_congr {o' : Objs} (hd : o'.dentries = o.dentries)
    (hp : ∀ e ∈ o.dentries, o'.pointsTo w e.value = o.pointsTo w e.value) :
    o'.refCount w = o.refCount w := by
  unfold Objs.refCount
  rw [hd]
  exact List.countP_congr fun e he => by rw [hp e he]

/-- The node of an object is not the page of another key. -/
theorem node_ne {k k' : HashKey} {p : Ptr} (hnode : o.hashNode node = some k) (hk : k' ≠ k)
    (hp : o.hashNode p = some k') : upd o.hashNode node none p = some k' := by
  refine (upd_ne ?_).trans hp
  rintro rfl
  exact hk (Option.some.inj (hp.symm.trans hnode))

section

variable (h : CacheInv o)

include h

/-- Only the dentries, the vinodes and the tables matter. -/
theorem congr {o' : Objs} (hd : o'.dentry = o.dentry) (hv : o'.vinode = o.vinode)
    (hn : o'.hashNode = o.hashNode) (hdh : o'.dentryHash = o.dentryHash)
    (hvh : o'.vinodeHash = o.vinodeHash) : CacheInv o' := by
  obtain ⟨d, v, f, s, n, db, dc, dh, vh, r, sl, dl⟩ := o'
  obtain rfl : d = o.dentry := hd
  obtain rfl : v = o.vinode := hv
  obtain rfl : n = o.hashNode := hn
  obtain rfl : dh = o.dentryHash := hdh
  obtain rfl : vh = o.vinodeHash := hvh
  exact ⟨h.dwf, h.vwf, h.dentries, h.vinodes, h.dhashed, h.vhashed, h.inode, h.ref⟩

/-! ## Changing an object -/

theorem setV (v' : Vinode) (hw : o.vinode w = some v) (hkey : v'.key = v.key)
    (href : v'.ref = v.ref) : CacheInv (o.setV w v') := by
  have hinum : v'.inum = v.inum := congrArg VinodeKey.inum hkey
  refine .of_tables h.dtable (h.vtable.set hw hkey (by rw [hinum])) (fun t x ht => ?_)
    fun q u hq => ?_
  · obtain ⟨u, hu⟩ := h.inode t x ht
    exact upd_exists hu
  · rcases upd_some hq with ⟨rfl, rfl⟩ | ⟨-, hq'⟩
    · exact href.trans (h.ref q v hw)
    · exact h.ref q u hq'

theorem setD (x' : Dentry) (ht : o.dentry t = some x) (hkey : x'.key = x.key)
    (hino : x'.dentryInode = x.dentryInode) : CacheInv (o.setD t x') := by
  have hback : ∀ {q y}, (o.setD t x').dentry q = some y →
      ∃ y', o.dentry q = some y' ∧ y.dentryInode = y'.dentryInode := by
    intro q y hq
    rcases upd_some hq with ⟨rfl, rfl⟩ | ⟨-, heq⟩
    · exact ⟨x, ht, hino⟩
    · exact ⟨y, heq, rfl⟩
  refine .of_tables (h.dtable.set ht hkey Iff.rfl) h.vtable (fun q y hq => ?_) fun w v hw => ?_
  · obtain ⟨y', hy', hi'⟩ := hback hq
    rw [hi']
    exact h.inode q y' hy'
  · have hsame : (o.setD t x').refCount w = o.refCount w := by
      refine refCount_congr rfl fun e he => ?_
      obtain ⟨-, y, hy, -⟩ := h.dentries e he
      obtain ⟨y', hy'⟩ : ∃ y', (o.setD t x').dentry e.value = some y' := upd_exists hy
      obtain ⟨z, hz, hi'⟩ := hback hy'
      obtain rfl := Option.some.inj (hy.symm.trans hz)
      rw [Bool.eq_iff_iff, pointsTo_iff hy', pointsTo_iff hy, hi']
    rw [hsame]
    exact h.ref w v hw

/-! ## Entering an object and taking it out -/

/-- A new vinode without references. -/
theorem ref_new (hw : o.vinode w = none) (href : v.ref = 0) {q : Ptr} {u : Vinode}
    (hq : upd o.vinode w (some v) q = some u) : u.ref = o.refCount q := by
  rcases upd_some hq with ⟨rfl, rfl⟩ | ⟨-, hq'⟩
  · rw [href, h.refCount_none hw]
    rfl
  · exact h.ref q u hq'

/-- A vinode without references goes. -/
theorem inode_gone (hw : o.vinode w = some v) (href : v.ref = 0) (ht : o.dentry t = some x) :
    ∃ u, upd o.vinode w none x.dentryInode = some u := by
  have hne : x.dentryInode ≠ w := by
    rintro rfl
    have hpos := h.refCount_pos ht
    have := h.ref _ v hw
    omega
  obtain ⟨u, hu⟩ := h.inode t x ht
  exact ⟨u, (upd_ne hne).trans hu⟩

theorem addV (hw : o.vinode w = none) (hnode : o.hashNode node = none) (hnew : o.findV v.key = none)
    (hnum : 0 ≤ v.inum) (href : v.ref = 0) : CacheInv (o.addV node w v) := by
  refine .of_tables (h.dtable.nodes_frame fun _ _ hn => upd_fresh hnode hn)
    (h.vtable.insert vinodeHashOps_lawful vinodeHashOps_equal hw hnode hnew hnum) (fun t x ht => ?_)
    fun q u hq => h.ref_new hw href hq
  obtain ⟨u, hu⟩ := h.inode t x ht
  exact upd_exists hu

/-- A vinode without a number is in no table. -/
theorem addUnnumbered (hw : o.vinode w = none) (hnum : v.inum < 0) (href : v.ref = 0) :
    CacheInv (o.setV w v) := by
  refine .of_tables h.dtable (h.vtable.unlisted (fun u hu => ?_) fun u hu => ?_) (fun t x ht => ?_)
    fun q u hq => h.ref_new hw href hq
  · rw [hw] at hu
    cases hu
  · obtain rfl := Option.some.inj hu
    omega
  · obtain ⟨u, hu⟩ := h.inode t x ht
    exact upd_exists hu

theorem dropUnnumbered (hw : o.vinode w = some v) (hnum : v.inum < 0) (href : v.ref = 0) :
    CacheInv { o with vinode := upd o.vinode w none } := by
  refine .of_tables h.dtable (h.vtable.unlisted (fun u hu => ?_) fun u hu => ?_)
    (fun t x ht => h.inode_gone hw href ht) fun q u hq => h.ref q u (upd_none hq).2
  · obtain rfl := Option.some.inj (hw.symm.trans hu)
    omega
  · cases hu

theorem addHost {sb : Ptr} {B : SuperBlock} {l : List Ptr} (hw : o.vinode w = none)
    (hnum : v.inum < 0) (href : v.ref = 0) : CacheInv (o.addHost sb B w v l) :=
  (h.addUnnumbered hw hnum href).congr rfl rfl rfl rfl rfl

/-- One more dentry for a vinode. -/
theorem addD (ht : o.dentry t = none) (hnode : o.hashNode node = none) (hnew : o.findD x.key = none)
    (hv : o.vinode x.dentryInode = some v) :
    CacheInv ((o.setV x.dentryInode { v with ref := v.ref + 1 }).addD node t x) := by
  -- the new node is counted for its vinode, and the others as before
  have hcount : ∀ w, ((o.setV x.dentryInode { v with ref := v.ref + 1 }).addD node t x).refCount w =
      o.refCount w + if x.dentryInode = w then 1 else 0 := by
    intro w
    generalize ho' : (o.setV x.dentryInode { v with ref := v.ref + 1 }).addD node t x = o'
    have hd : o'.dentry = upd o.dentry t (some x) := by rw [← ho']; rfl
    have hold : ∀ e ∈ o.dentries, o'.pointsTo w e.value = o.pointsTo w e.value := by
      intro e he
      obtain ⟨-, y, hy, -⟩ := h.dentries e he
      rw [Bool.eq_iff_iff, pointsTo_iff (hd ▸ upd_fresh ht hy), pointsTo_iff hy]
    have hperm := (HashTable.entries_insert (t := o.dentryHash) (e := ⟨node, x.key, t⟩)
      dentryHashOps_lawful).countP_eq fun e => o'.pointsTo w e.value
    have hsame : (o.dentryHash.entries hashTableSize).countP (fun e => o'.pointsTo w e.value) =
        o.refCount w := List.countP_congr fun e he => by rw [hold e he]
    rw [List.countP_cons, hsame] at hperm
    simp only [pointsTo_iff (w := w) (show o'.dentry t = some x by rw [hd, upd_self])] at hperm
    rw [← hperm, Objs.refCount, ← ho']
    rfl
  have hset := h.vtable.set (y := { v with ref := v.ref + 1 }) hv rfl Iff.rfl
  refine .of_tables
    (h.dtable.insert dentryHashOps_lawful dentryHashOps_equal ht hnode hnew trivial)
    (hset.nodes_frame fun _ _ hn => upd_fresh hnode hn) (fun q y hq => ?_) fun q u hq => ?_
  · rcases upd_some hq with ⟨rfl, rfl⟩ | ⟨-, hq'⟩
    · exact ⟨_, upd_self _ _ _⟩
    · obtain ⟨u, hu⟩ := h.inode q y hq'
      exact upd_exists hu
  · rw [hcount q]
    rcases upd_some hq with ⟨rfl, rfl⟩ | ⟨hne, hq'⟩
    · rw [if_pos rfl]
      show v.ref + 1 = _
      rw [h.ref _ v hv]
      rfl
    · rw [if_neg (Ne.symm hne), Nat.add_zero]
      exact h.ref q u hq'

/-- One dentry less for a vinode. -/
theorem dropD (ht : o.dentry t = some x) (he : o.findD x.key = some e)
    (hv : o.vinode x.dentryInode = some v) :
    CacheInv ((o.setV x.dentryInode { v with ref := v.ref - 1 }).dropD e.node t x) := by
  have hnode := (h.dentries e (findD_mem he).1).1
  have hdrop := h.dtable.remove dentryHashOps_lawful dentryHashOps_equal
    (fun _ _ heq => HashKey.dentry.inj heq) ht trivial he
  have hval : e.value = t := by
    obtain ⟨e', he', hval⟩ := h.dhashed t x ht
    rw [he] at he'
    rwa [Option.some.inj he']
  have hcount : ∀ w,
      ((o.setV x.dentryInode { v with ref := v.ref - 1 }).dropD e.node t x).refCount w +
        (if x.dentryInode = w then 1 else 0) = o.refCount w := by
    intro w
    have hperm := (HashTable.entries_remove (k := x.key) dentryHashOps_lawful he).countP_eq
      fun e => o.pointsTo w e.value
    rw [List.countP_cons, hval] at hperm
    simp only [pointsTo_iff ht] at hperm
    refine (congrArg (· + _) (List.countP_congr fun e' he' => ?_)).trans hperm.symm
    obtain ⟨-, y, hy, -⟩ := hdrop.entries e' he'
    exact (pointsTo_iff hy).trans (pointsTo_iff (upd_none hy).2).symm
  have hset := h.vtable.set (y := { v with ref := v.ref - 1 }) hv rfl Iff.rfl
  refine .of_tables hdrop (hset.nodes_frame fun _ _ hn => node_ne hnode nofun hn)
    (fun q y hq => ?_) fun q u hq => ?_
  · obtain ⟨u, hu⟩ := h.inode q y (upd_none hq).2
    exact upd_exists hu
  · have hc := hcount q
    rcases upd_some hq with ⟨rfl, rfl⟩ | ⟨hne, hq'⟩
    · rw [if_pos rfl] at hc
      have := h.ref _ v hv
      show v.ref - 1 = _
      omega
    · rw [if_neg (Ne.symm hne)] at hc
      have := h.ref q u hq'
      omega

/-- A vinode no dentry points to. -/
theorem dropV {e : HashNode VinodeKey Ptr} (hw : o.vinode w = some v) (he : o.findV v.key = some e)
    (href : v.ref = 0) : CacheInv (o.dropV e.node w v) := by
  obtain ⟨hemem, hekey⟩ := findV_mem he
  obtain ⟨hnode, u, hu, huk, hnum⟩ := h.vinodes e hemem
  have hinum : u.inum = v.inum := congrArg VinodeKey.inum (huk.trans hekey)
  exact .of_tables (h.dtable.nodes_frame fun _ _ hn => node_ne hnode nofun hn)
    (h.vtable.remove vinodeHashOps_lawful vinodeHashOps_equal
      (fun _ _ heq => HashKey.vinode.inj heq) hw (by omega) he)
    (fun t x ht => h.inode_gone hw href ht) fun q u hq => h.ref q u (upd_none hq).2

end

end CacheInv

end Pke
