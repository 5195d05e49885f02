import Mathlib.Data.List.Basic
import Mathlib.Data.List.Nodup

/-!
# Singly linked lists

A list that is threaded through its own elements: each element knows the
next one, and whoever has the first element has the list. `Linked next h
l` says that from `h` on one meets exactly the elements of `l`. The list
is determined by its head (`Linked.unique`), so it cannot come back to an
element (`Linked.nodup`), and it does not notice changes of links
elsewhere (`Linked.frame`).
-/

namespace Pke

variable {α : Type}

/-- Following `next` from `h` gives the elements of `l` and then ends. -/
def Linked (next : α → Option α) : Option α → List α → Prop
  | h, [] => h = none
  | h, a :: l => h = some a ∧ Linked next (next a) l

namespace Linked

variable {next next' : α → Option α} {h : Option α} {a : α} {l l' : List α}

@[simp] theorem nil_iff : Linked next h [] ↔ h = none := Iff.rfl

@[simp] theorem cons_iff : Linked next h (a :: l) ↔ h = some a ∧ Linked next (next a) l := Iff.rfl

theorem unique (hl : Linked next h l) (hl' : Linked next h l') : l = l' := by
  induction l generalizing h l' with
  | nil =>
      cases l' with
      | nil => rfl
      | cons b l' => simp_all
  | cons a l ih =>
      cases l' with
      | nil => simp_all
      | cons b l' =>
          simp only [cons_iff] at hl hl'
          obtain ⟨rfl, hrest⟩ := hl
          obtain ⟨heq, hrest'⟩ := hl'
          obtain rfl := Option.some.inj heq
          rw [ih hrest hrest']

theorem frame (hl : Linked next h l) (hsame : ∀ a ∈ l, next' a = next a) : Linked next' h l := by
  induction l generalizing h with
  | nil => exact hl
  | cons a l ih =>
      refine ⟨hl.1, ?_⟩
      rw [hsame a (by simp)]
      exact ih hl.2 fun b hb => hsame b (by simp [hb])

/-- Only the end of the list is no link. -/
theorem eq_nil_iff (hl : Linked next h l) : l = [] ↔ h = none := by
  cases l with
  | nil => simpa using hl
  | cons a l => simp [hl.1]

/-- What follows an element of the list is the rest of the list. -/
theorem suffix {l₁ l₂ : List α} (hl : Linked next h (l₁ ++ a :: l₂)) : Linked next (next a) l₂ := by
  induction l₁ generalizing h with
  | nil => exact hl.2
  | cons b l₁ ih => exact ih hl.2

theorem nodup (hl : Linked next h l) : l.Nodup := by
  induction l generalizing h with
  | nil => simp
  | cons a l ih =>
      refine List.nodup_cons.mpr ⟨fun ha => ?_, ih hl.2⟩
      -- the list after the second `a` would be the list after the first
      obtain ⟨l₁, l₂, rfl⟩ := List.append_of_mem ha
      have heq := unique hl.2 (suffix hl.2)
      have hlen := congrArg List.length heq
      simp at hlen
      omega

/-- A new first element. -/
theorem push (hl : Linked next h l) (ha : next' a = h) (hsame : ∀ b ∈ l, next' b = next b) :
    Linked next' (some a) (a :: l) :=
  ⟨rfl, by rw [ha]; exact frame hl hsame⟩

theorem pop (hl : Linked next (some a) l) : ∃ l', l = a :: l' ∧ Linked next (next a) l' := by
  cases l with
  | nil => simp at hl
  | cons b l =>
      obtain ⟨heq, hrest⟩ := hl
      obtain rfl := Option.some.inj heq
      exact ⟨l, rfl, hrest⟩

/-- A new last element, after the element `b` that was the last. -/
theorem snoc {b : α} (hl : Linked next h (l ++ [b])) (hb : next' b = some a) (ha : next' a = none)
    (hsame : ∀ c ∈ l, next' c = next c) : Linked next' h (l ++ [b] ++ [a]) := by
  induction l generalizing h with
  | nil => exact ⟨hl.1, hb, ha⟩
  | cons c l ih =>
      refine ⟨hl.1, ?_⟩
      rw [hsame c (by simp)]
      exact ih hl.2 fun d hd => hsame d (by simp [hd])

end Linked

end Pke
