import Mathlib.Logic.Relation

/-!
# Computations that step a state and can fault

The embedding of imperative code used throughout: a computation reads a
state, and either returns a value with a new state or stops with a
fault. `Post x s Q E` says how a run of `x` from `s` ends: in a value
and a state that satisfy `Q`, or in a fault that satisfies `E`. With
`E` everything it is partial correctness, with `E` nothing it is the
absence of faults, and anything in between says which faults are left.

The rules are one per constructor of the monad, so that a proof about a
function walks its body and cites the postconditions of its callees.
`Reaches` is the run of a machine step by step, with its one induction
rule (`Reaches.invariant`).
-/

namespace Pke

/-! ## Point updates -/

section

variable {ι α : Type} [DecidableEq ι]

/-- The function `f` with its value at `a` replaced. -/
def upd (f : ι → α) (a : ι) (v : α) : ι → α := fun b => if b = a then v else f b

@[simp] theorem upd_self (f : ι → α) (a : ι) (v : α) : upd f a v a = v := by
  simp [upd]

theorem upd_ne {f : ι → α} {a b : ι} {v : α} (h : b ≠ a) : upd f a v b = f b := by
  simp [upd, h]

theorem upd_eq_self {f : ι → α} {a : ι} {v : α} (h : f a = v) : upd f a v = f := by
  funext b
  unfold upd
  split
  · rename_i hb
    rw [hb, h]
  · rfl

@[simp] theorem upd_upd (f : ι → α) (a : ι) (v w : α) :
    upd (upd f a v) a w = upd f a w := by
  funext b
  unfold upd
  split <;> rfl

theorem upd_comm {f : ι → α} {a b : ι} {v w : α} (h : a ≠ b) :
    upd (upd f a v) b w = upd (upd f b w) a v := by
  funext c
  unfold upd
  split <;> split <;> simp_all

/-- A value of an updated function is the new one or an old one elsewhere. -/
theorem upd_cases {f : ι → α} {a b : ι} {v w : α} (h : upd f a v b = w) :
    (b = a ∧ v = w) ∨ (b ≠ a ∧ f b = w) := by
  unfold upd at h
  split at h
  · exact Or.inl ⟨‹_›, h⟩
  · exact Or.inr ⟨‹_›, h⟩

theorem upd_some {f : ι → Option α} {a b : ι} {v w : α} (h : upd f a (some v) b = some w) :
    (b = a ∧ v = w) ∨ (b ≠ a ∧ f b = some w) :=
  (upd_cases h).imp_left fun hv => ⟨hv.1, Option.some.inj hv.2⟩

theorem upd_none {f : ι → Option α} {a b : ι} {w : α} (h : upd f a none b = some w) :
    b ≠ a ∧ f b = some w :=
  (upd_cases h).resolve_left fun hv => nomatch hv.2

omit [DecidableEq ι] in
theorem ne_of_none {f : ι → Option α} {a b : ι} {w : α} (ha : f a = none) (hb : f b = some w) :
    b ≠ a := by
  rintro rfl
  rw [ha] at hb
  cases hb

/-- A partial function keeps its values when it is defined somewhere else. -/
theorem upd_fresh {f : ι → Option α} {a b : ι} {c : Option α} {w : α} (ha : f a = none)
    (hb : f b = some w) : upd f a c b = some w :=
  (upd_ne (ne_of_none ha hb)).trans hb

theorem upd_exists {f : ι → Option α} {a b : ι} {v w : α} (hb : f b = some w) :
    ∃ w', upd f a (some v) b = some w' := by
  by_cases hba : b = a
  · exact ⟨v, hba ▸ upd_self _ _ _⟩
  · exact ⟨w, (upd_ne hba).trans hb⟩

/-- Where an updated partial function is undefined, it was before. -/
theorem upd_some_none {f : ι → Option α} {a b : ι} {v : α} (h : upd f a (some v) b = none) :
    b ≠ a ∧ f b = none := by
  rcases upd_cases h with ⟨-, hv⟩ | ⟨hne, hf⟩
  · cases hv
  · exact ⟨hne, hf⟩

end

/-! ## Computations -/

/-- A computation over states `σ` with faults `ε`. -/
def Exec (σ ε α : Type) : Type := σ → Except ε (α × σ)

variable {c : Prop} {σ : Type}

namespace Exec

variable {σ ε α β : Type}

protected def pure (a : α) : Exec σ ε α := fun s => .ok (a, s)

protected def bind (x : Exec σ ε α) (f : α → Exec σ ε β) : Exec σ ε β := fun s =>
  match x s with
  | .ok (a, s') => f a s'
  | .error e => .error e

instance : Monad (Exec σ ε) where
  pure := Exec.pure
  bind := Exec.bind

/-- The current state. -/
def get : Exec σ ε σ := fun s => .ok (s, s)

def modify (f : σ → σ) : Exec σ ε Unit := fun s => .ok ((), f s)

/-- Stop with a fault. -/
def fault (e : ε) : Exec σ ε α := fun _ => .error e

/-- The value of an option, or a fault. -/
def ofOption (e : ε) : Option α → Exec σ ε α
  | some a => Exec.pure a
  | none => fault e

/-! ## How a run ends -/

/-- A run of `x` from `s` returns into `Q` or faults into `E`. -/
def Post (x : Exec σ ε α) (s : σ) (Q : α → σ → Prop) (E : ε → Prop) : Prop :=
  match x s with
  | .ok (a, s') => Q a s'
  | .error e => E e

variable {x : Exec σ ε α} {f : α → Exec σ ε β} {s : σ} {E : ε → Prop}

theorem Post.of_ok {Q : α → σ → Prop} (h : Post x s Q E) {a : α} {s' : σ}
    (hr : x s = .ok (a, s')) : Q a s' := by
  simpa only [Post, hr] using h

theorem Post.of_error {Q : α → σ → Prop} (h : Post x s Q E) {e : ε}
    (hr : x s = .error e) : E e := by
  simpa only [Post, hr] using h

/-- A computation without a fault returns. -/
theorem Post.returns {Q : α → σ → Prop} (h : Post x s Q E) (hE : ∀ e, ¬E e) :
    ∃ a s', x s = .ok (a, s') ∧ Q a s' := by
  cases hr : x s with
  | ok r => exact ⟨r.1, r.2, rfl, h.of_ok hr⟩
  | error e => exact absurd (h.of_error hr) (hE e)

theorem Post.intro {Q : α → σ → Prop} (hok : ∀ a s', x s = .ok (a, s') → Q a s')
    (herr : ∀ e, x s = .error e → E e) : Post x s Q E := by
  unfold Post
  split
  · exact hok _ _ ‹_›
  · exact herr _ ‹_›

theorem Post.any : Post x s (fun _ _ => True) fun _ => True :=
  .intro (fun _ _ _ => trivial) fun _ _ => trivial

theorem Post.mono {Q Q' : α → σ → Prop} (h : Post x s Q E)
    (hQ : ∀ a s', Q a s' → Q' a s') : Post x s Q' E :=
  .intro (fun _ _ hr => hQ _ _ (h.of_ok hr)) fun _ hr => h.of_error hr

theorem Post.monoFault {Q : α → σ → Prop} {E' : ε → Prop} (h : Post x s Q E)
    (hE : ∀ e, E e → E' e) : Post x s Q E' :=
  .intro (fun _ _ hr => h.of_ok hr) fun _ hr => hE _ (h.of_error hr)

theorem Post.and {Q Q' : α → σ → Prop} {E' : ε → Prop} (h : Post x s Q E) (h' : Post x s Q' E') :
    Post x s (fun a s' => Q a s' ∧ Q' a s') fun e => E e ∧ E' e :=
  .intro (fun _ _ hr => ⟨h.of_ok hr, h'.of_ok hr⟩) fun _ hr => ⟨h.of_error hr, h'.of_error hr⟩

theorem Post.bind {Q : β → σ → Prop} {R : α → σ → Prop} (h : Post x s R E)
    (hf : ∀ a s', R a s' → Post (f a) s' Q E) : Post (x >>= f) s Q E := by
  show Post (Exec.bind x f) s Q E
  unfold Post Exec.bind
  cases hx : x s with
  | ok r =>
      obtain ⟨a, s'⟩ := r
      exact hf a s' (h.of_ok hx)
  | error e => exact h.of_error hx

theorem Post.pure {Q : α → σ → Prop} {a : α} (h : Q a s) :
    Post (Pure.pure a : Exec σ ε α) s Q E := h

theorem Post.modify {Q : Unit → σ → Prop} {g : σ → σ} (h : Q () (g s)) :
    Post (Exec.modify g : Exec σ ε Unit) s Q E := h

theorem Post.fault {Q : α → σ → Prop} {e : ε} (h : E e) :
    Post (Exec.fault e : Exec σ ε α) s Q E := h

theorem Post.ofOption {Q : α → σ → Prop} {e : ε} {o : Option α} (hn : o = none → E e)
    (hs : ∀ a, o = some a → Q a s) : Post (Exec.ofOption e o : Exec σ ε α) s Q E := by
  cases o with
  | none => exact hn rfl
  | some a => exact hs a rfl

theorem Post.ite [Decidable c] {y : Exec σ ε α} {Q : α → σ → Prop} (ht : c → Post x s Q E)
    (hf : ¬c → Post y s Q E) : Post (if c then x else y) s Q E := by
  split
  · exact ht ‹_›
  · exact hf ‹_›

theorem Post.step {Q : β → σ → Prop} {a : α} {s' : σ} (h : x s = .ok (a, s'))
    (hf : Post (f a) s' Q E) : Post (x >>= f) s Q E :=
  .bind (R := fun b t => b = a ∧ t = s') (by unfold Post; rw [h]; exact ⟨rfl, rfl⟩)
    fun _ _ hr => by rw [hr.1, hr.2]; exact hf

theorem Post.bindGet {f : σ → Exec σ ε β} {Q : β → σ → Prop} (hf : Post (f s) s Q E) :
    Post (Exec.get >>= f) s Q E :=
  .step rfl hf

theorem Post.bindModify {f : Unit → Exec σ ε β} {Q : β → σ → Prop} {g : σ → σ}
    (hf : Post (f ()) (g s) Q E) : Post (Exec.modify g >>= f) s Q E :=
  .step rfl hf

theorem Post.bindOption {Q : β → σ → Prop} {e : ε} {o : Option α} (hn : o = none → E e)
    (hs : ∀ a, o = some a → Post (f a) s Q E) : Post (Exec.ofOption e o >>= f) s Q E := by
  cases o with
  | none => exact hn rfl
  | some a => exact .step rfl (hs a rfl)

/-- A value the state has, or a fault. -/
theorem Post.bindRead {Q : β → σ → Prop} {g : σ → Option α} {e : ε} (he : E e)
    (hf : ∀ a, g s = some a → Post (f a) s Q E) :
    Post ((Exec.get >>= fun s => Exec.ofOption e (g s)) >>= f) s Q E :=
  .bind (R := fun a s' => s' = s ∧ g s = some a)
    (.bindGet (.ofOption (fun _ => he) fun _ ha => ⟨rfl, ha⟩)) fun a _ h => h.1 ▸ hf a h.2

/-- Every run of `x` moves along `R`, or faults into `E`. -/
def Along (R : σ → σ → Prop) (E : ε → Prop) (x : Exec σ ε α) : Prop :=
  ∀ s, Post x s (fun _ s' => R s s') E

section

variable {R : σ → σ → Prop}

theorem Along.bind [Trans R R R] (hx : Along R E x) (hf : ∀ a, Along R E (f a)) :
    Along R E (x >>= f) :=
  fun s => .bind (hx s) fun a s' h => (hf a s').mono fun _ _ h' => Trans.trans h h'

theorem Along.pure [Std.Refl R] {a : α} : Along R E (Pure.pure a : Exec σ ε α) :=
  fun s => .pure (Std.Refl.refl s)

theorem Along.bindGet {f : σ → Exec σ ε β} (hf : ∀ s, Along R E (f s)) : Along R E (Exec.get >>= f) :=
  fun s => .bindGet (hf s s)

theorem Along.ite [Decidable c] {y : Exec σ ε α} (hx : c → Along R E x) (hy : ¬c → Along R E y) :
    Along R E (if c then x else y) :=
  fun s => .ite (fun h => hx h s) fun h => hy h s

theorem Along.dite [Decidable c] {x : c → Exec σ ε α} {y : ¬c → Exec σ ε α}
    (hx : ∀ h, Along R E (x h)) (hy : ∀ h, Along R E (y h)) :
    Along R E (if h : c then x h else y h) := by
  split
  · exact hx _
  · exact hy _

theorem Along.fault {e : ε} (h : E e) : Along R E (Exec.fault e : Exec σ ε α) := fun _ => .fault h

end

/-- The value and the state a successful bind passed through. -/
theorem bind_ok {b : β} {s'' : σ} (h : (x >>= f) s = .ok (b, s'')) :
    ∃ a s', x s = .ok (a, s') ∧ f a s' = .ok (b, s'') := by
  have h' : Exec.bind x f s = .ok (b, s'') := h
  unfold Exec.bind at h'
  split at h'
  · exact ⟨_, _, ‹_›, h'⟩
  · cases h'

theorem bind_assoc {γ : Type} (x : Exec σ ε α) (f : α → Exec σ ε β) (g : β → Exec σ ε γ) :
    x >>= f >>= g = x >>= fun a => f a >>= g := by
  funext s
  show Exec.bind (Exec.bind x f) g s = Exec.bind x (fun a => Exec.bind (f a) g) s
  unfold Exec.bind
  cases x s <;> rfl

theorem bind_of_ok {a : α} {s' : σ} (h : x s = .ok (a, s')) :
    (x >>= f) s = f a s' := by
  show Exec.bind x f s = f a s'
  simp only [Exec.bind, h]

theorem bind_get {f : σ → Exec σ ε β} : (get >>= f) s = f s s :=
  bind_of_ok rfl

theorem get_ofOption {g : σ → Option α} {a : α} {e : ε} (h : g s = some a) :
    (get >>= fun s => ofOption e (g s) : Exec σ ε α) s = .ok (a, s) := by
  rw [bind_get, h]
  rfl

theorem bind_of_error {e : ε} (h : x s = .error e) : (x >>= f) s = .error e := by
  show Exec.bind x f s = .error e
  simp only [Exec.bind, h]

/-! ## Two states side by side -/

section

variable {τ : Type} {y : Exec τ ε α} {t : τ}

/-- A computation on the first of two states. -/
def onFst (x : Exec σ ε α) : Exec (σ × τ) ε α := fun w => (x w.1).map fun r => (r.1, (r.2, w.2))

/-- A computation on the second of two states. -/
def onSnd (y : Exec τ ε α) : Exec (σ × τ) ε α := fun w => (y w.2).map fun r => (r.1, (w.1, r.2))

theorem onFst_ok {a : α} {s' : σ} (t : τ) (h : x s = .ok (a, s')) :
    onFst x (s, t) = .ok (a, (s', t)) := by
  simp only [onFst, h, Except.map]

theorem onSnd_ok {a : α} {t' : τ} (s : σ) (h : y t = .ok (a, t')) :
    onSnd y (s, t) = .ok (a, (s, t')) := by
  simp only [onSnd, h, Except.map]

theorem onSnd_error {e : ε} (s : σ) (h : y t = .error e) : onSnd y (s, t) = .error e := by
  simp only [onSnd, h, Except.map]

/-- A computation on the second state does not change the first. -/
theorem Post.bindOnSnd {f : α → Exec (σ × τ) ε β} {R : α → τ → Prop} {Q : β → σ × τ → Prop}
    (h : Post y t R E) (hf : ∀ a t', R a t' → Post (f a) (s, t') Q E) :
    Post (onSnd y >>= f) (s, t) Q E := by
  cases hy : y t with
  | ok r => exact .step (onSnd_ok s hy) (hf r.1 r.2 (h.of_ok hy))
  | error e =>
      rw [Post, bind_of_error (onSnd_error s hy)]
      exact h.of_error hy

end

end Exec

/-! ## Runs -/

/-- The states a machine with guarded steps passes through. -/
inductive Reaches {σ : Type} (step : σ → σ → Prop) (s0 : σ) : σ → Prop
  | refl : Reaches step s0 s0
  | tail {s s' : σ} : Reaches step s0 s → step s s' → Reaches step s0 s'

/-- What holds at the start and is kept by every step holds in every state
of every run. -/
theorem Reaches.invariant {step : σ → σ → Prop} {s0 s : σ} {I : σ → Prop} (h0 : I s0)
    (hstep : ∀ s s', I s → step s s' → I s') (h : Reaches step s0 s) : I s := by
  induction h with
  | refl => exact h0
  | tail _ hs ih => exact hstep _ _ ih hs

theorem Reaches.head {step : σ → σ → Prop} {s0 s1 s : σ} (hs : step s0 s1) (h : Reaches step s1 s) :
    Reaches step s0 s := by
  induction h with
  | refl => exact .tail .refl hs
  | tail _ hstep ih => exact .tail ih hstep

theorem Reaches.trans {step : σ → σ → Prop} {s0 s1 s : σ} (h : Reaches step s0 s1)
    (h' : Reaches step s1 s) : Reaches step s0 s := by
  induction h' with
  | refl => exact h
  | tail _ hstep ih => exact .tail ih hstep

theorem Reaches.mono {step step' : σ → σ → Prop} {s0 s : σ} (himp : ∀ s s', step s s' → step' s s')
    (h : Reaches step s0 s) : Reaches step' s0 s := by
  induction h with
  | refl => exact .refl
  | tail _ hs ih => exact .tail ih (himp _ _ hs)

end Pke
