import Pke.Process

/-!
# Pre- and postconditions where no allocation fails

The functions that build a process take pages as they go. `Triple P x Q`
is a rule of pre- and postconditions for them that assumes that no
allocation has failed until the end; that is why it also says that a
failure is not forgotten.
-/

namespace Pke

namespace Machine

open Exec (Post get modify)

/-- If `P` holds before a run of `x` in which every allocation succeeds, then `Q`
holds after it. -/
def Triple {α : Type} (P : Machine → Prop) (x : ProcM α) (Q : α → Machine → Prop) : Prop :=
  ∀ k, Post x k (fun a k' => (k.oom = true → k'.oom = true) ∧ (k'.oom = false → P k → Q a k'))
    fun _ => True

namespace Triple

variable {α β : Type} {P P' : Machine → Prop} {x : ProcM α} {f : α → ProcM β}

theorem bind {R : α → Machine → Prop} {Q : β → Machine → Prop} (hx : Triple P x R)
    (hf : ∀ a, Triple (R a) (f a) Q) : Triple P (x >>= f) Q := by
  intro k
  refine .bind (hx k) fun a k1 h1 => (hf a k1).mono fun b k2 h2 => ?_
  refine ⟨fun hoom => h2.1 (h1.1 hoom), fun hoom hP => h2.2 hoom (h1.2 ?_ hP)⟩
  -- what has failed on the way has failed at the end
  cases h : k1.oom with
  | false => rfl
  | true =>
      rw [h2.1 h] at hoom
      cases hoom

theorem mono {Q Q' : α → Machine → Prop} (hx : Triple P x Q) (hP : ∀ k, P' k → P k)
    (hQ : ∀ a k, Q a k → Q' a k) : Triple P' x Q' :=
  fun k => (hx k).mono fun a k' h => ⟨h.1, fun hoom hk => hQ a k' (h.2 hoom (hP k hk))⟩

theorem pure {a : α} {Q : α → Machine → Prop} (h : ∀ k, P k → Q a k) :
    Triple P (pure a : ProcM α) Q :=
  fun k => .pure ⟨id, fun _ => h k⟩

/-- What a run tells. -/
theorem of_ok {Q : α → Machine → Prop} (hx : Triple P x Q) {k k' : Machine} {a : α}
    (h : x k = .ok (a, k')) (hoom : k'.oom = false) : k.oom = false ∧ (P k → Q a k') := by
  obtain ⟨hmono, hQ⟩ := (hx k).of_ok h
  refine ⟨?_, hQ hoom⟩
  cases ho : k.oom with
  | false => rfl
  | true =>
      rw [hmono ho] at hoom
      cases hoom

/-- A fact that does not depend on the state. -/
theorem frame {Q : α → Machine → Prop} (c : Prop) (hx : Triple P x Q) :
    Triple (fun k => P k ∧ c) x fun a k => Q a k ∧ c :=
  fun k => (hx k).mono fun _ _ h => ⟨h.1, fun hoom hk => ⟨h.2 hoom hk.1, hk.2⟩⟩

/-- What the state says exists. -/
theorem exists_ {ι : Type} [Nonempty ι] {P : ι → Machine → Prop} {Q : α → Machine → Prop}
    (h : ∀ i, Triple (P i) x Q) : Triple (fun k => ∃ i, P i k) x Q := by
  intro k
  obtain ⟨i0⟩ := ‹Nonempty ι›
  refine .intro (fun a k' hr => ⟨((h i0 k).of_ok hr).1, ?_⟩) fun _ _ => trivial
  rintro hoom ⟨i, hP⟩
  exact ((h i k).of_ok hr).2 hoom hP

theorem fault {g : Fault} {Q : α → Machine → Prop} : Triple P (fault g : ProcM α) Q :=
  fun _ => .fault trivial

theorem bindGet {f : Machine → ProcM β} {Q : β → Machine → Prop}
    (hf : ∀ k0, Triple (fun k => P k ∧ k = k0) (f k0) Q) : Triple P (get >>= f) Q :=
  fun k => .bindGet ((hf k k).mono fun _ _ h => ⟨h.1, fun hoom hP => h.2 hoom ⟨hP, rfl⟩⟩)

theorem modify {g : Machine → Machine} {Q : Unit → Machine → Prop} (hoom : ∀ k, (g k).oom = k.oom)
    (h : ∀ k, P k → Q () (g k)) : Triple P (modify g) Q :=
  fun k => .modify ⟨fun ho => (hoom k).trans ho, fun _ => h k⟩

theorem inFiles {x : Kern α} {Q : α → Machine → Prop}
    (h : ∀ k a files, P k → Q a { k with files := files }) : Triple P (inFiles x) Q :=
  fun k => post_inFiles (fun a files => ⟨id, fun _ => h k a files⟩) fun _ => trivial

theorem modifyProc {i : Pid} {g : Process → Process} {Q : Unit → Machine → Prop}
    (h : ∀ k, P k → Q () (k.setProc i g)) : Triple P (modifyProc i g) Q :=
  .modify (fun _ => rfl) h

theorem ite {c : Prop} [Decidable c] {y : ProcM α} {Q : α → Machine → Prop}
    (hx : c → Triple P x Q) (hy : ¬c → Triple P y Q) : Triple P (if c then x else y) Q :=
  fun k => .ite (fun hc => hx hc k) fun hc => hy hc k

theorem dite {c : Prop} [Decidable c] {x : c → ProcM α} {y : ¬c → ProcM α}
    {Q : α → Machine → Prop} (hx : ∀ hc, Triple P (x hc) Q) (hy : ∀ hc, Triple P (y hc) Q) :
    Triple P (if hc : c then x hc else y hc) Q := by
  split
  · exact hx _
  · exact hy _

/-- Code that only uses memory. -/
theorem inPhys {y : PhysM α} {Q : α → Machine → Prop}
    (h : ∀ k, P k → Post y k.phys (fun a s => Q a { k with phys := s }) fun _ => True) :
    Triple P (inPhys y) Q := by
  intro k
  cases hr : y k.phys with
  | ok res =>
      have hrun : Machine.inPhys y k = .ok (res.1, { k with phys := res.2 }) := by
        simp only [Machine.inPhys, hr]
      rw [Post, hrun]
      exact ⟨id, fun _ hP => (h k hP).of_ok hr⟩
  | error g =>
      have hrun : Machine.inPhys y k = .error (.fault g) := by simp only [Machine.inPhys, hr]
      rw [Post, hrun]
      trivial

end Triple

/-! ## Pages -/

/-- Facts that do not depend on memory. -/
def Stable (F : Machine → Prop) : Prop := ∀ k s o, F k → F { k with phys := s, oom := o }

/-- An allocation: what holds if it has not failed. -/
theorem triple_alloc {P : Machine → Prop} {Q : Nat → Machine → Prop}
    (h : ∀ k, P k → Post Phys.allocPage k.phys (fun p s => p ≠ 0 → Q p { k with phys := s })
      fun _ => True) : Triple P allocPage Q := by
  intro k
  have hflag : ∀ (k1 : Machine) (p : Nat), Post (do
      if p = 0 then modify fun k => { k with oom := true }
      pure p : ProcM Nat) k1 (fun q k' => q = p ∧ ((p = 0 ∧ k'.oom = true) ∨ (p ≠ 0 ∧ k' = k1)))
      fun _ => True := by
    intro k1 p
    dsimp only
    by_cases hp : p = 0
    · rw [if_pos hp]
      exact .bindModify (.pure ⟨rfl, .inl ⟨hp, rfl⟩⟩)
    · rw [if_neg hp]
      exact .pure ⟨rfl, .inr ⟨hp, rfl⟩⟩
  have hin : Triple P (Machine.inPhys Phys.allocPage) fun p k' => p ≠ 0 → Q p k' := .inPhys h
  refine .bind (hin k) fun p k1 h1 => (hflag k1 p).mono fun q k2 => ?_
  rintro ⟨rfl, ⟨hp, hoom⟩ | ⟨hp, rfl⟩⟩
  · exact ⟨fun _ => hoom, fun hfalse => absurd hoom (by rw [hfalse]; decide)⟩
  · exact ⟨h1.1, fun hoom hk => h1.2 hoom hk hp⟩

theorem triple_access {P : Machine → Prop} {p : Nat} :
    Triple P (access p) fun _ k => P k ∧ p ≠ 0 :=
  .ite (fun _ => .fault) fun hp => .pure fun _ hk => ⟨hk, hp⟩

end Machine

end Pke
