import Pke.Volume

/-!
# A volume as a transition system

What RFS does, without pages, dentries and bytes: a volume is its disk
inodes, its freemap, the inodes memory has, and the entries of its
directories. `Vol.Step` has one constructor for each thing that can
happen to it, and `Vol.Inv`, the ownership of blocks and the exactness
of link counts together, is kept by all of them.
-/

namespace Pke

/-- The types of the inodes. -/
def inodeTypes (ino : Int → Dinode) (n : Int) : Int := (ino n).type

def inodeLinks (ino : Int → Dinode) (n : Int) : Int := (ino n).nlinks

variable {ino : Int → Dinode} {n p s : Int} {c b : Dinode} {k : Nat} {name : Name}

theorem inodeTypes_upd {di : Dinode} :
    inodeTypes (upd ino n di) = upd (inodeTypes ino) n di.type := by
  funext m
  unfold inodeTypes
  rcases eq_or_ne m n with rfl | hm
  · rw [upd_self, upd_self]
  · rw [upd_ne hm, upd_ne hm]

theorem inodeLinks_upd {di : Dinode} :
    inodeLinks (upd ino n di) = upd (inodeLinks ino) n di.nlinks := by
  funext m
  unfold inodeLinks
  rcases eq_or_ne m n with rfl | hm
  · rw [upd_self, upd_self]
  · rw [upd_ne hm, upd_ne hm]

structure Vol where
  ino : Int → Dinode
  map : Nat → Int
  mem : Int → Option Dinode
  ents : Int → List (Int × Name)

namespace Vol

/-- A new inode `n` with block `k`, and an entry for it in `p`. -/
abbrev withNew (v : Vol) (n p : Int) (k : Nat) (type : Int) (name : Name) (c : Dinode) : Vol :=
  { ino := upd (upd v.ino n (freshInode type (12 + k) (v.ino n).addrs)) p
      { c with size := c.size + 32 }
    map := upd v.map k 1
    mem := upd (upd v.mem n (some (freshInode type (12 + k) (v.ino n).addrs))) p
      (some { c with size := c.size + 32 })
    ents := upd v.ents p (v.ents p ++ [(n, name)]) }

/-- One more entry for `n`, in `p`. -/
abbrev withLink (v : Vol) (n p : Int) (name : Name) (b c : Dinode) : Vol :=
  { v with
    ino := upd (upd v.ino p { c with size := c.size + 32 }) n
      { b with nlinks := b.nlinks + 1 }
    mem := upd (upd v.mem p (some { c with size := c.size + 32 })) n
      (some { b with nlinks := b.nlinks + 1 })
    ents := upd v.ents p (v.ents p ++ [(n, name)]) }

/-- One entry less for `n`, the one at `k` in `p`. -/
abbrev dropLink (v : Vol) (n p : Int) (k : Nat) (b c : Dinode) : Vol :=
  { v with
    ino := upd (upd v.ino n { v.ino n with nlinks := b.nlinks - 1 }) p
      { c with size := c.size - 32 }
    mem := upd (upd v.mem n (some { b with nlinks := b.nlinks - 1 })) p
      (some { c with size := c.size - 32 })
    ents := upd v.ents p ((v.ents p).eraseIdx k) }

/-- The last entry for `n` is gone, and `n` with it. -/
abbrev dropLast (v : Vol) (n p : Int) (k : Nat) (c : Dinode) : Vol :=
  { ino := upd (upd v.ino n (dropInode (v.ino n) 0)) p { c with size := c.size - 32 }
    map := clearBlocks (v.ino n).addrs (v.ino n).blocks.toNat 0 v.map
    mem := upd (upd v.mem n none) p (some { c with size := c.size - 32 })
    ents := upd v.ents p ((v.ents p).eraseIdx k) }

/-- The steps. `named` says that no inode is left without a name, `held` that no
live inode leaves memory, and `used` which inodes may grow. -/
inductive Step (named held : Prop) (used : Int → Prop) (v : Vol) : Vol → Prop
  | load (n : Int) (hlive : Live v.ino n) (hmem : v.mem n = none) :
      Step named held used v { v with mem := upd v.mem n (some (v.ino n)) }
  | create (n p : Int) (k : Nat) (type : Int) (name : Name) (c : Dinode) (hn : InodeNum n)
      (hfree : (v.ino n).type = rFree) (haddrs : ∀ i, IsInt32 ((v.ino n).addrs i))
      (htype : type = rFile ∨ type = rDir) (hk : k < 100) (hzero : v.map k = 0)
      (hp : v.mem p = some c) (hdir : c.type = rDir) (hroom : c.size < 4096)
      (hnew : ∀ e ∈ v.ents p, e.2 ≠ name) :
      Step named held used v (v.withNew n p k type name c)
  | orphan (n : Int) (k : Nat) (hloose : ¬named) (hn : InodeNum n) (hfree : (v.ino n).type = rFree)
      (haddrs : ∀ i, IsInt32 ((v.ino n).addrs i)) (hk : k < 100) (hzero : v.map k = 0) :
      Step named held used v
        { v with
          ino := upd v.ino n (freshInode rDir (12 + k) (v.ino n).addrs)
          map := upd v.map k 1 }
  | link (n p : Int) (name : Name) (b c : Dinode) (hn : v.mem n = some b) (hfile : b.type = rFile)
      (hp : v.mem p = some c) (hdir : c.type = rDir) (hroom : c.size < 4096)
      (hnew : ∀ e ∈ v.ents p, e.2 ≠ name) :
      Step named held used v (v.withLink n p name b c)
  | unlink (n p : Int) (k : Nat) (name : Name) (b c : Dinode) (hn : v.mem n = some b)
      (hfile : b.type = rFile) (hp : v.mem p = some c) (hdir : c.type = rDir)
      (hk : (v.ents p)[k]? = some (n, name)) (hmore : b.nlinks - 1 ≠ 0) :
      Step named held used v (v.dropLink n p k b c)
  | unlinkLast (n p : Int) (k : Nat) (name : Name) (b c : Dinode) (hn : v.mem n = some b)
      (hfile : b.type = rFile) (hp : v.mem p = some c) (hdir : c.type = rDir)
      (hk : (v.ents p)[k]? = some (n, name)) (hlast : b.nlinks - 1 = 0) :
      Step named held used v (v.dropLast n p k c)
  | evict (n : Int) (c : Dinode) (hm : v.mem n = some c) (hfile : c.type = rFile)
      (hmay : ¬held) :
      Step named held used v { v with ino := upd v.ino n c, mem := upd v.mem n none }
  | grow (n : Int) (c : Dinode) (k : Nat) (hm : v.mem n = some c) (hfile : c.type = rFile)
      (h10 : c.blocks < 10) (hk : k < 100) (hzero : v.map k = 0) (huse : used n) :
      Step named held used v
        { v with
          map := upd v.map k 1
          mem := upd v.mem n (some (BlockInv.growInode c k)) }
  | size (n : Int) (c : Dinode) (sz : Int) (hm : v.mem n = some c) (hfile : c.type = rFile)
      (h0 : 0 ≤ sz) (h1 : sz ≤ c.blocks * 4096) (huse : used n) :
      Step named held used v { v with mem := upd v.mem n (some { c with size := sz }) }

structure Inv (v : Vol) : Prop where
  blocks : BlockInv v.ino v.map v.mem
  links : LinkInv (inodeTypes v.ino) (inodeLinks v.ino) v.ents
  count : ∀ p, (v.ino p).type = rDir → (v.ents p).length = direntryCount (v.ino p).size

namespace Inv

theorem of_parts {map : Nat → Int} {mem : Int → Option Dinode} {ents : Int → List (Int × Name)}
    (hblocks : BlockInv ino map mem) (hlinks : LinkInv (inodeTypes ino) (inodeLinks ino) ents)
    (hcount : ∀ p, (ino p).type = rDir → (ents p).length = direntryCount (ino p).size) :
    Inv ⟨ino, map, mem, ents⟩ :=
  ⟨hblocks, hlinks, hcount⟩

variable {v : Vol}

/-! ## An inode in memory -/

section

variable (h : v.Inv) {n : Int} {c : Dinode} (hm : v.mem n = some c)

include h hm

theorem live : Live v.ino n := h.blocks.live_of_mem hm

theorem shape : c.Shape := ((h.blocks.ok n (h.live hm)).cached c hm).1

theorem type_eq : (v.ino n).type = c.type := ((h.blocks.ok n (h.live hm)).cached c hm).2.1.symm

theorem nlinks_eq : (v.ino n).nlinks = c.nlinks :=
  ((h.blocks.ok n (h.live hm)).cached c hm).2.2.symm

theorem dir_eq (hdir : c.type = rDir) : v.ino n = c :=
  ((h.blocks.ok n (h.live hm)).dir c hm hdir).symm

theorem dir_size (hdir : c.type = rDir) : 0 ≤ c.size ∧ c.size ≤ 4096 ∧ 32 ∣ c.size := by
  have hsh := h.shape hm
  obtain ⟨hone, hdvd⟩ := hsh.dir hdir
  have hsize := hsh.size
  exact ⟨hsize.1, by omega, hdvd⟩

end

/-- The size of a directory counts its entries. -/
theorem dir_count (h : v.Inv) (hm : v.mem p = some c) (hdir : c.type = rDir) :
    c.size = 32 * (v.ents p).length := by
  obtain ⟨h0, -, hdvd⟩ := h.dir_size hm hdir
  have hcount := h.count p ((h.type_eq hm).trans hdir)
  rw [h.dir_eq hm hdir] at hcount
  unfold direntryCount at hcount
  omega

theorem dir_ne_file (hn : v.mem n = some b) (hfile : b.type = rFile) (hp : v.mem p = some c)
    (hdir : c.type = rDir) : p ≠ n := by
  rintro rfl
  rw [hn] at hp
  obtain rfl := Option.some.inj hp
  exact absurd (hfile.symm.trans hdir) (by decide)

theorem no_ents (h : v.Inv) (hn : (v.ino n).type ≠ rDir) : v.ents n = [] :=
  List.eq_nil_iff_forall_not_mem.mpr fun e he => hn (h.links.holder n e he).1

/-- There are as many links to a file as fit into the directories. -/
theorem nlinks_bound (h : v.Inv) (hfile : (v.ino n).type = rFile) :
    1 ≤ (v.ino n).nlinks ∧ (v.ino n).nlinks ≤ 40960 := by
  obtain ⟨heq, hone⟩ := h.links.file n hfile
  have hlen : ∀ p ∈ inodeNums, (v.ents p).length ≤ 128 := by
    intro p _
    cases hents : v.ents p with
    | nil => exact Nat.zero_le _
    | cons e rest =>
        have hdir : (v.ino p).type = rDir := (h.links.holder p e (by rw [hents]; simp)).1
        have hsh := (h.blocks.ok p (live_of_dir hdir)).shape
        have hsize := hsh.size.2
        rw [(hsh.dir hdir).1] at hsize
        rw [← hents, h.count p hdir]
        unfold direntryCount
        omega
  have hle := links_le (n := n) hlen
  have hcard : inodeNums.card = 320 := by simp [inodeNums]
  rw [hcard] at hle
  have heq' : (v.ino n).nlinks = Pke.links inodeNums v.ents n := heq
  exact ⟨hone, by omega⟩

/-- Types and link counts do not change with the size of a directory. -/
theorem types_dir (h : (ino p).type = c.type) :
    inodeTypes (upd ino p { c with size := s }) = inodeTypes ino := by
  rw [inodeTypes_upd]
  exact upd_eq_self h

theorem links_dir (h : (ino p).nlinks = c.nlinks) :
    inodeLinks (upd ino p { c with size := s }) = inodeLinks ino := by
  rw [inodeLinks_upd]
  exact upd_eq_self h

/-- The types and the link counts when one inode changes, and the size of a
directory. -/
theorem kinds_two (h : v.Inv) (f : Dinode) (hp : v.mem p = some c) (hpn : p ≠ n) :
    inodeTypes (upd (upd v.ino n f) p { c with size := s }) = upd (inodeTypes v.ino) n f.type ∧
      inodeLinks (upd (upd v.ino n f) p { c with size := s }) =
        upd (inodeLinks v.ino) n f.nlinks := by
  rw [types_dir (by rw [upd_ne hpn, h.type_eq hp]), links_dir (by rw [upd_ne hpn, h.nlinks_eq hp]),
    inodeTypes_upd, inodeLinks_upd]
  exact ⟨rfl, rfl⟩

/-- The counts after the entries and the size of one directory have changed. -/
theorem count_upd {ents : Int → List (Int × Name)} {l : List (Int × Name)}
    (hl : l.length = direntryCount c.size)
    (h : ∀ q, q ≠ p → (ino q).type = rDir → (ents q).length = direntryCount (ino q).size) (q : Int)
    (hq : (upd ino p c q).type = rDir) :
    (upd ents p l q).length = direntryCount (upd ino p c q).size := by
  rcases eq_or_ne q p with rfl | hqp
  · rw [upd_self, upd_self, hl]
  · rw [upd_ne hqp] at hq
    rw [upd_ne hqp, upd_ne hqp]
    exact h q hqp hq

/-- The count of a directory after it has got an entry. -/
theorem count_append (h : v.Inv) (hp : v.mem p = some c) (hdir : c.type = rDir) (e : Int × Name) :
    (v.ents p ++ [e]).length = direntryCount (c.size + 32) := by
  have := h.dir_count hp hdir
  rw [List.length_append, List.length_singleton]
  unfold direntryCount
  omega

/-- The counts after another inode has changed, which has no entries and is no
directory with some. -/
theorem count_ino (h : v.Inv) {f : Dinode} (hf : f.type = rDir → direntryCount f.size = 0)
    (hn : (v.ino n).type ≠ rDir) (q : Int) (hq : (upd v.ino n f q).type = rDir) :
    (v.ents q).length = direntryCount (upd v.ino n f q).size := by
  rcases eq_or_ne q n with rfl | hqn
  · rw [upd_self] at hq ⊢
    rw [h.no_ents hn, hf hq, List.length_nil]
  · rw [upd_ne hqn] at hq ⊢
    exact h.count q hq

/-! ## The steps -/

theorem load (h : v.Inv) (hlive : Live v.ino n) (hmem : v.mem n = none) :
    Inv { v with mem := upd v.mem n (some (v.ino n)) } :=
  ⟨h.blocks.load hlive hmem, h.links, h.count⟩

theorem create (h : v.Inv) {type : Int} (hn : InodeNum n) (hfree : (v.ino n).type = rFree)
    (haddrs : ∀ i, IsInt32 ((v.ino n).addrs i)) (htype : type = rFile ∨ type = rDir) (hk : k < 100)
    (hzero : v.map k = 0) (hp : v.mem p = some c) (hdir : c.type = rDir) (hroom : c.size < 4096)
    (hnew : ∀ e ∈ v.ents p, e.2 ≠ name) :
    (v.withNew n p k type name c).Inv := by
  have hlive : ¬Live v.ino n := fun hl => hl hfree
  have hpn : p ≠ n := fun heq => hlive (heq ▸ h.live hp)
  obtain ⟨h0, h1, hdvd⟩ := h.dir_size hp hdir
  have hpnum := h.blocks.num p (h.live hp)
  have hnewb := h.blocks.newInode hlive hn htype hk hzero haddrs
  have hload := hnewb.load (n := n) (by unfold Live; rw [upd_self]; exact
    (BlockInv.shape_freshInode htype hk haddrs).live) (h.blocks.dead n hlive)
  rw [upd_self] at hload
  refine ⟨?_, ?_, ?_⟩
  · exact hload.setDirSize _ (c := c) (by rw [upd_ne hpn, hp]) hdir (by omega) (by omega) (by omega)
  · obtain ⟨ht, hl⟩ := h.kinds_two (freshInode type (12 + k) (v.ino n).addrs) hp hpn
    show LinkInv (inodeTypes _) (inodeLinks _) _
    rw [ht, hl]
    exact h.links.create hfree hn ((h.type_eq hp).trans hdir) hpnum htype hnew
  · exact count_upd (h.count_append hp hdir _) fun q _ =>
      h.count_ino (fun _ => rfl) (by rw [hfree]; decide) q

theorem orphan (h : v.Inv) (hn : InodeNum n) (hfree : (v.ino n).type = rFree)
    (haddrs : ∀ i, IsInt32 ((v.ino n).addrs i)) (hk : k < 100) (hzero : v.map k = 0) : Inv
      { v with
        ino := upd v.ino n (freshInode rDir (12 + k) (v.ino n).addrs)
        map := upd v.map k 1 } := by
  have hlive : ¬Live v.ino n := fun hl => hl hfree
  refine ⟨h.blocks.newInode hlive hn (.inr rfl) hk hzero haddrs, ?_,
    h.count_ino (fun _ => rfl) (by rw [hfree]; decide)⟩
  show LinkInv (inodeTypes _) (inodeLinks _) _
  rw [inodeTypes_upd, inodeLinks_upd]
  exact h.links.orphan hfree hn

theorem link (h : v.Inv) (hn : v.mem n = some b) (hfile : b.type = rFile) (hp : v.mem p = some c)
    (hdir : c.type = rDir) (hroom : c.size < 4096) (hnew : ∀ e ∈ v.ents p, e.2 ≠ name) :
    (v.withLink n p name b c).Inv := by
  obtain ⟨h0, h1, hdvd⟩ := h.dir_size hp hdir
  have hnp := (dir_ne_file hn hfile hp hdir).symm
  have hpnum := h.blocks.num p (h.live hp)
  have hnfile : (v.ino n).type = rFile := (h.type_eq hn).trans hfile
  have hbound := h.nlinks_bound hnfile
  rw [h.nlinks_eq hn] at hbound
  have hpos : 0 < n := by
    rcases Int.lt_or_eq_of_le (h.blocks.num n (h.live hn)).1 with hlt | rfl
    · exact hlt
    · exact absurd (hnfile.symm.trans h.links.root) (by decide)
  have hset := h.blocks.setDirSize (c.size + 32) hp hdir (by omega) (by omega) (by omega)
  have hn' : upd v.mem p (some { c with size := c.size + 32 }) n = some b := by
    rw [upd_ne hnp, hn]
  have hsync := (hset.sync hn').setLinks (b.nlinks + 1) hn' hfile (by unfold IsInt32; omega)
  rw [upd_self, upd_upd] at hsync
  have hcounts := count_upd (p := p) (c := { c with size := c.size + 32 })
    (h.count_append hp hdir (n, name)) fun q _ hq => h.count q hq
  refine ⟨hsync, ?_, fun q hq => ?_⟩
  · show LinkInv (inodeTypes _) (inodeLinks _) _
    rw [inodeTypes_upd, inodeLinks_upd, types_dir (h.type_eq hp), links_dir (h.nlinks_eq hp),
      upd_eq_self (f := inodeTypes v.ino) (h.type_eq hn)]
    have hlink := h.links.link hnfile hpos ((h.type_eq hp).trans hdir) hpnum hnew
    rw [show inodeLinks v.ino n = b.nlinks from h.nlinks_eq hn] at hlink
    exact hlink
  · have hqn : q ≠ n := by
      rintro rfl
      change (upd (upd v.ino p _) q _ q).type = rDir at hq
      rw [upd_self] at hq
      exact absurd (hfile.symm.trans hq) (by decide)
    change (upd (upd v.ino p _) n _ q).type = rDir at hq
    show _ = direntryCount (upd (upd v.ino p _) n _ q).size
    rw [upd_ne hqn] at hq ⊢
    exact hcounts q hq

/-- The count of a directory after one of its entries has gone. -/
theorem count_erase (h : v.Inv) {e : Int × Name} (hp : v.mem p = some c) (hdir : c.type = rDir)
    (hk : (v.ents p)[k]? = some e) :
    32 ≤ c.size ∧ ((v.ents p).eraseIdx k).length = direntryCount (c.size - 32) := by
  have hcount := h.dir_count hp hdir
  obtain ⟨hlt, -⟩ := List.getElem?_eq_some_iff.mp hk
  rw [List.length_eraseIdx_of_lt hlt]
  unfold direntryCount
  omega

theorem unlink (h : v.Inv) (hn : v.mem n = some b) (hfile : b.type = rFile) (hp : v.mem p = some c)
    (hdir : c.type = rDir) (hk : (v.ents p)[k]? = some (n, name)) (hmore : b.nlinks - 1 ≠ 0) :
    (v.dropLink n p k b c).Inv := by
  obtain ⟨h0, h1, hdvd⟩ := h.dir_size hp hdir
  obtain ⟨h32, hlen⟩ := h.count_erase hp hdir hk
  have hpn := dir_ne_file hn hfile hp hdir
  have hnfile : (v.ino n).type = rFile := (h.type_eq hn).trans hfile
  have hbound := h.nlinks_bound hnfile
  rw [h.nlinks_eq hn] at hbound
  have hset := h.blocks.setLinks (b.nlinks - 1) hn hfile (by unfold IsInt32; omega)
  have hp' : upd v.mem n (some { b with nlinks := b.nlinks - 1 }) p = some c := by
    rw [upd_ne hpn, hp]
  refine ⟨hset.setDirSize _ hp' hdir (by omega) (by omega) (by omega), ?_, ?_⟩
  · obtain ⟨ht, hl⟩ := h.kinds_two { v.ino n with nlinks := b.nlinks - 1 } hp hpn
    show LinkInv (inodeTypes _) (inodeLinks _) _
    rw [ht, hl]
    show LinkInv (upd (inodeTypes v.ino) n (inodeTypes v.ino n)) _ _
    rw [upd_eq_self rfl]
    have hnl : inodeLinks v.ino n = b.nlinks := h.nlinks_eq hn
    have hlink := h.links.unlinkKeep hk hnfile (by rw [hnl]; exact hmore)
    rw [hnl] at hlink
    exact hlink
  · exact count_upd hlen fun q _ => h.count_ino (f := { v.ino n with nlinks := b.nlinks - 1 })
      (fun hdir => absurd (hnfile.symm.trans hdir) (by decide)) (by rw [hnfile]; decide) q

theorem unlinkLast (h : v.Inv) (hn : v.mem n = some b) (hfile : b.type = rFile)
    (hp : v.mem p = some c) (hdir : c.type = rDir) (hk : (v.ents p)[k]? = some (n, name))
    (hlast : b.nlinks - 1 = 0) :
    (v.dropLast n p k c).Inv := by
  obtain ⟨h0, h1, hdvd⟩ := h.dir_size hp hdir
  obtain ⟨h32, hlen⟩ := h.count_erase hp hdir hk
  have hpn := dir_ne_file hn hfile hp hdir
  have hnfile : (v.ino n).type = rFile := (h.type_eq hn).trans hfile
  have hp' : upd v.mem n none p = some c := by rw [upd_ne hpn, hp]
  refine ⟨(h.blocks.free (h.live hn)).setDirSize _ hp' hdir (by omega) (by omega) (by omega), ?_, ?_⟩
  · obtain ⟨ht, hl⟩ := h.kinds_two (dropInode (v.ino n) 0) hp hpn
    show LinkInv (inodeTypes _) (inodeLinks _) _
    rw [ht, hl]
    have hnl : inodeLinks v.ino n = b.nlinks := h.nlinks_eq hn
    exact h.links.unlinkLast hk hnfile (by rw [hnl]; exact hlast)
  · exact count_upd hlen fun q _ => h.count_ino
      (fun hdir => absurd hdir (show ¬rFree = rDir by decide)) (by rw [hnfile]; decide) q

theorem evict (h : v.Inv) (hm : v.mem n = some c) (hfile : c.type = rFile) :
    Inv { v with ino := upd v.ino n c, mem := upd v.mem n none } := by
  refine ⟨(h.blocks.sync hm).evict (by rw [upd_self, hm]), ?_, h.count_ino
    (fun hdir => absurd (hfile.symm.trans hdir) (by decide)) (by rw [h.type_eq hm, hfile]; decide)⟩
  show LinkInv (inodeTypes _) (inodeLinks _) _
  rw [inodeTypes_upd, inodeLinks_upd, upd_eq_self (f := inodeTypes v.ino) (h.type_eq hm),
    upd_eq_self (f := inodeLinks v.ino) (h.nlinks_eq hm)]
  exact h.links

end Inv

/-- Every step keeps the invariant. -/
theorem Step.inv {named held : Prop} {used : Int → Prop} {v v' : Vol}
    (hs : Step named held used v v') (h : v.Inv) : v'.Inv := by
  cases hs with
  | load n hlive hmem => exact h.load hlive hmem
  | create n p k type name c hn hfree haddrs htype hk hzero hp hdir hroom hnew =>
      exact h.create hn hfree haddrs htype hk hzero hp hdir hroom hnew
  | orphan n k hloose hn hfree haddrs hk hzero => exact h.orphan hn hfree haddrs hk hzero
  | link n p name b c hn hfile hp hdir hroom hnew => exact h.link hn hfile hp hdir hroom hnew
  | unlink n p k name b c hn hfile hp hdir hk hmore => exact h.unlink hn hfile hp hdir hk hmore
  | unlinkLast n p k name b c hn hfile hp hdir hk hlast =>
      exact h.unlinkLast hn hfile hp hdir hk hlast
  | evict n c hm hfile => exact h.evict hm hfile
  | grow n c k hm hfile h10 hk hzero =>
      exact ⟨h.blocks.grow hm hfile h10 hk hzero, h.links, h.count⟩
  | size n c sz hm hfile h0 h1 => exact ⟨h.blocks.setSize hm hfile h0 h1, h.links, h.count⟩

theorem inv_of_reflGen {named held : Prop} {used : Int → Prop} {v v' : Vol}
    (hs : Relation.ReflGen (Step named held used) v v') (h : v.Inv) : v'.Inv := by
  cases hs with
  | refl => exact h
  | single hs => exact hs.inv h

end Vol

end Pke
