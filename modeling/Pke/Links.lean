import Pke.Exec
import Mathlib.Algebra.BigOperators.Group.Finset.Basic
import Mathlib.Algebra.BigOperators.Group.Finset.Piecewise
import Mathlib.Algebra.Order.BigOperators.Group.Finset

/-!
# Counting references in a family of lists

Every member `p` of a finite set carries a list of references `(n, a)`
to a target `n` under a label `a`: a directory and its entries, a table
and its rows. `links` is the number of references to a target over the
whole family. The lemmas give it after a reference has been added to one
list or removed from it, and say what can be concluded when it is
positive or at most one.
-/

namespace Pke

variable {N A : Type} [DecidableEq N] {dirs : Finset N} {E : N → List (N × A)}

def links (dirs : Finset N) (E : N → List (N × A)) (n : N) : Nat :=
  ∑ p ∈ dirs, (E p).countP fun e => e.1 = n

variable {p n : N}

theorem links_upd (hp : p ∈ dirs) (l : List (N × A)) (n : N) :
    links dirs (upd E p l) n + (E p).countP (fun e => e.1 = n) =
      links dirs E n + l.countP fun e => e.1 = n := by
  unfold links
  rw [← Finset.add_sum_erase _ (fun q => (E q).countP fun e => e.1 = n) hp,
    ← Finset.add_sum_erase _ (fun q => (upd E p l q).countP fun e => e.1 = n) hp]
  have hrest : ∑ q ∈ dirs.erase p, (upd E p l q).countP (fun e => e.1 = n) =
      ∑ q ∈ dirs.erase p, (E q).countP fun e => e.1 = n := by
    refine Finset.sum_congr rfl fun q hq => ?_
    rw [upd_ne (Finset.mem_erase.mp hq).1]
  rw [hrest, upd_self]
  omega

theorem links_append (hp : p ∈ dirs) (m : N) (a : A) (n : N) :
    links dirs (upd E p (E p ++ [(m, a)])) n =
      links dirs E n + if m = n then 1 else 0 := by
  have h := links_upd (E := E) hp (E p ++ [(m, a)]) n
  rw [List.countP_append, List.countP_singleton] at h
  simp only [decide_eq_true_eq] at h
  omega

theorem links_eraseIdx (hp : p ∈ dirs) {k : Nat} {m : N} {a : A} (hk : (E p)[k]? = some (m, a))
    (n : N) : links dirs (upd E p ((E p).eraseIdx k)) n + (if m = n then 1 else 0) =
      links dirs E n := by
  have h := links_upd (E := E) hp ((E p).eraseIdx k) n
  obtain ⟨hlt, hget⟩ := List.getElem?_eq_some_iff.mp hk
  have hperm := (List.getElem_cons_eraseIdx_perm hlt).countP_eq fun e => decide (e.1 = n)
  rw [hget, List.countP_cons] at hperm
  simp only [decide_eq_true_eq] at hperm
  omega

theorem links_pos (hp : p ∈ dirs) {a : A} (h : (n, a) ∈ E p) : 0 < links dirs E n :=
  Finset.sum_pos' (fun _ _ => Nat.zero_le _)
    ⟨p, hp, List.countP_pos_iff.mpr ⟨_, h, by simp⟩⟩

theorem exists_of_links_pos (h : 0 < links dirs E n) : ∃ p ∈ dirs, ∃ a, (n, a) ∈ E p := by
  obtain ⟨p, hp, hpos⟩ := Finset.exists_ne_zero_of_sum_ne_zero (Nat.pos_iff_ne_zero.mp h)
  obtain ⟨⟨m, a⟩, hmem, hm⟩ := List.countP_pos_iff.mp (Nat.pos_iff_ne_zero.mpr hpos)
  simp only [decide_eq_true_eq] at hm
  exact ⟨p, hp, a, hm ▸ hmem⟩

/-- A target with one reference is referred to from one place only. -/
theorem eq_of_links_le_one (h : links dirs E n ≤ 1) {q : N} {a b : A} (hp : p ∈ dirs)
    (hq : q ∈ dirs) (ha : (n, a) ∈ E p) (hb : (n, b) ∈ E q) : p = q ∧ a = b := by
  have hpos : ∀ {r : N} {c : A}, (n, c) ∈ E r → 0 < (E r).countP fun e => e.1 = n :=
    fun hc => List.countP_pos_iff.mpr ⟨_, hc, by simp⟩
  have hpq : p = q := by
    by_contra hne
    have hsum : (E p).countP (fun e => e.1 = n) + (E q).countP (fun e => e.1 = n) ≤
        links dirs E n := by
      unfold links
      rw [← Finset.sum_pair (f := fun r => (E r).countP fun e => e.1 = n) hne]
      exact Finset.sum_le_sum_of_subset (by
        intro r hr
        rcases Finset.mem_insert.mp hr with rfl | hr
        · exact hp
        · rwa [Finset.mem_singleton.mp hr])
    have := hpos ha
    have := hpos hb
    omega
  subst hpq
  refine ⟨rfl, ?_⟩
  have hle : (E p).countP (fun e => e.1 = n) ≤ 1 :=
    (Finset.single_le_sum (f := fun r => (E r).countP fun e => e.1 = n)
      (fun _ _ => Nat.zero_le _) hp).trans h
  rw [List.countP_eq_length_filter] at hle
  have hma : (n, a) ∈ (E p).filter fun e => e.1 = n := List.mem_filter.mpr ⟨ha, by simp⟩
  have hmb : (n, b) ∈ (E p).filter fun e => e.1 = n := List.mem_filter.mpr ⟨hb, by simp⟩
  obtain ⟨e, he⟩ : ∃ e, (E p).filter (fun e => e.1 = n) = [e] := by
    rw [← List.length_eq_one_iff]
    have := List.length_pos_of_mem hma
    omega
  rw [he] at hma hmb
  have h1 := List.mem_singleton.mp hma
  have h2 := List.mem_singleton.mp hmb
  exact congrArg Prod.snd (h1.trans h2.symm)

theorem links_le {bound : Nat} (h : ∀ p ∈ dirs, (E p).length ≤ bound) :
    links dirs E n ≤ dirs.card * bound := by
  have hsum := Finset.sum_le_card_nsmul dirs (fun p => (E p).countP fun e => e.1 = n) bound
    fun p hp => List.countP_le_length.trans (h p hp)
  simpa [links] using hsum

end Pke
