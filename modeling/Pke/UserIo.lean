import Pke.Pmm

/-!
# Transfers to and from user memory (`sys_user_read`, `sys_user_write`)

The two system calls have one body: the buffer of the user is cut at page
boundaries, and each piece is passed to `do_read` or `do_write` by its
physical address. `userIo` is that body, for any call and any page table.

The counter is an `int` and the length a `uint64`, so a negative result of
the call is compared as a large one and then taken off the counter. Where
the counter becomes negative the loop ends with `count`, as if everything
had been moved; where it does not, the loop goes on below the place it had
reached. `Settles` says this of the results alone, and the system call
reports what has happened exactly for the sequences that settle
(`userIo_reports_iff`).
-/

namespace Pke

open Exec (Post get modify fault)

/-- A signed value as `uint64`. -/
def u64 (x : Int) : Nat := (x % 2 ^ 64).toNat

/-- A `uint64` as `ssize_t`. -/
def i64 (n : Nat) : Int := if n < 2 ^ 63 then n else n - 2 ^ 64

theorem u64_natCast {n : Nat} (h : n < 2 ^ 64) : u64 n = n := by
  unfold u64
  omega

theorem u64_neg {x : Int} (h : IsInt32 x) (hneg : x < 0) : 2 ^ 63 ≤ u64 x := by
  unfold u64 IsInt32 at *
  omega

section

variable {σ ε : Type} (lookupPa : Nat → Exec σ ε Nat) (io : (pa off len : Nat) → Exec σ ε Int)

/-- The loop of `sys_user_read` and `sys_user_write`, with fuel. -/
def userIo (stuck : ε) (bufva count : Nat) : (fuel : Nat) → (i : Int) → Exec σ ε Int
  | 0, _ => fault stuck
  | fuel + 1, i =>
      if u64 i < count then do
        let addr := (bufva + u64 i) % 2 ^ 64
        let pa ← lookupPa addr
        let off := addr - roundDown addr pgSize
        let len := min (sub64 count (u64 i)) (pgSize - off)
        let r ← io pa off len
        let i := wrap32 (i + r)
        if u64 r < len then pure i else userIo stuck bufva count fuel i
      else pure (i64 count)

end

/-- The length of the piece at `n`. -/
def pieceLen (bufva count n : Nat) : Nat :=
  min (count - n) (pgSize - (bufva + n) % 2 ^ 64 % pgSize)

theorem pieceLen_le (bufva count n : Nat) : pieceLen bufva count n ≤ count - n := Nat.min_le_left ..

section

variable {σ ε : Type} {lookupPa : Nat → Exec σ ε Nat} {io : (pa off len : Nat) → Exec σ ε Int}
  {stuck : ε} {bufva count n fuel : Nat} {s : σ}

/-- One turn of the loop at a position in the buffer. -/
theorem userIo_step (hcount : count < 2 ^ 31) (hn : n < count) :
    userIo lookupPa io stuck bufva count (fuel + 1) n s = (do
      let pa ← lookupPa ((bufva + n) % 2 ^ 64)
      let r ← io pa ((bufva + n) % 2 ^ 64 % pgSize) (pieceLen bufva count n)
      if u64 r < pieceLen bufva count n then pure (wrap32 (n + r))
      else userIo lookupPa io stuck bufva count fuel (wrap32 (n + r))) s := by
  have hu : u64 (n : Int) = n := u64_natCast (by omega)
  have hoff : ∀ a, a - roundDown a pgSize = a % pgSize := by
    intro a
    unfold roundDown pgSize
    omega
  have hsub : sub64 count n = count - n := by
    unfold sub64
    omega
  rw [userIo, hu, if_pos hn, hoff, hsub]
  rfl

theorem userIo_done (hcount : count < 2 ^ 31) (hn : count ≤ n) (hn' : n < 2 ^ 31) :
    userIo lookupPa io stuck bufva count (fuel + 1) n s = .ok (count, s) := by
  have hu : u64 (n : Int) = n := u64_natCast (by omega)
  rw [userIo, hu, if_neg (by omega), i64, if_pos (by omega)]
  rfl

/-- Below the buffer the loop ends, and with the result of a complete transfer. -/
theorem userIo_below {i : Int} (hcount : count < 2 ^ 31) (hi : IsInt32 i) (hneg : i < 0) :
    userIo lookupPa io stuck bufva count (fuel + 1) i s = .ok (count, s) := by
  have hu := u64_neg hi hneg
  rw [userIo, if_neg (by omega), i64, if_pos (by omega)]
  rfl

end

/-! ## Any sequence of results -/

/-- The calls made so far, and the bytes they have moved. -/
structure Transfer where
  calls : Nat
  bytes : Nat

/-- A call whose result is given by its number and the length it is asked for. -/
def answered (answer : Nat → Nat → Int) (_pa _off len : Nat) : Exec Transfer Fault Int := do
  let t ← get
  modify fun t => ⟨t.calls + 1, t.bytes + (answer t.calls len).toNat⟩
  pure (answer t.calls len)

/-- The results `do_read` and `do_write` can give: an `int` that is not more than the length
they are asked for. -/
def Answers (answer : Nat → Nat → Int) : Prop := ∀ k len, -2 ^ 31 ≤ answer k len ∧ answer k len ≤ len

/-- The system call with those results. -/
def answeredIo (lookupPa : Nat → Nat) (answer : Nat → Nat → Int) (bufva count fuel : Nat) :
    Exec Transfer Fault Int :=
  userIo (fun va => pure (lookupPa va)) (answered answer) (.ub "fuel") bufva count fuel 0

/-- The call ends with a result that is not larger than the number of bytes moved,
and with a negative one when the first piece fails. -/
def Reports (lookupPa : Nat → Nat) (answer : Nat → Nat → Int) (bufva count : Nat) : Prop :=
  ∃ fuel r t, answeredIo lookupPa answer bufva count fuel ⟨0, 0⟩ = .ok (r, t) ∧ r ≤ t.bytes ∧
    (0 < count → answer 0 (pieceLen bufva count 0) < 0 → r < 0)

/-- The results from number `k` on, with `n` bytes of the buffer counted and `b` moved, come to
an end: all is counted, or a piece is short. A failure takes its result off the count. It
must leave a count, unless as many bytes as the buffer has were moved before. -/
inductive Settles (answer : Nat → Nat → Int) (bufva count : Nat) : (k n b : Nat) → Prop
  | all {k n b : Nat} (hn : count ≤ n) : Settles answer bufva count k n b
  | short {k n b : Nat} (hn : n < count) (hlow : 0 ≤ answer k (pieceLen bufva count n))
      (hshort : answer k (pieceLen bufva count n) < pieceLen bufva count n) :
      Settles answer bufva count k n b
  | full {k n b : Nat} (hn : n < count)
      (hfull : answer k (pieceLen bufva count n) = pieceLen bufva count n)
      (rest : Settles answer bufva count (k + 1) (n + pieceLen bufva count n)
        (b + pieceLen bufva count n)) : Settles answer bufva count k n b
  | back {k n b m : Nat} (hn : n < count) (hneg : answer k (pieceLen bufva count n) < 0)
      (hm : (m : Int) = n + answer k (pieceLen bufva count n))
      (rest : Settles answer bufva count (k + 1) m b) : Settles answer bufva count k n b
  | under {k n b : Nat} (hn : n < count) (hneg : n + answer k (pieceLen bufva count n) < 0)
      (hb : count ≤ b) : Settles answer bufva count k n b

section

variable {lookupPa : Nat → Nat} {answer : Nat → Nat → Int} {bufva count : Nat}

/-- A failure of the first call does not settle. -/
theorem Settles.first_nonneg (h : Settles answer bufva count 0 0 0) (hpos : 0 < count) :
    0 ≤ answer 0 (pieceLen bufva count 0) := by
  cases h with
  | all hn => omega
  | short _ hlow _ => exact hlow
  | full _ hfull _ => omega
  | back _ _ hm _ => omega
  | under _ _ hb => omega

theorem answered_run {pa off len : Nat} (t : Transfer) : answered answer pa off len t =
    .ok (answer t.calls len, ⟨t.calls + 1, t.bytes + (answer t.calls len).toNat⟩) := rfl

/-- One turn of the loop with the result `r`. -/
theorem answeredIo_step (hcount : count < 2 ^ 31) {fuel k n b : Nat} (hn : n < count)
    {r : Int} (hr : answer k (pieceLen bufva count n) = r) :
    userIo (fun va => pure (lookupPa va)) (answered answer) (.ub "fuel") bufva count (fuel + 1) n
      ⟨k, b⟩ = (if u64 r < pieceLen bufva count n then pure (wrap32 (n + r))
        else userIo (fun va => pure (lookupPa va)) (answered answer) (.ub "fuel") bufva count fuel
          (wrap32 (n + r))) ⟨k + 1, b + r.toNat⟩ := by
  rw [userIo_step hcount hn, Exec.bind_of_ok rfl, Exec.bind_of_ok (answered_run _), hr]

/-- A result that is not negative is added to the counter. -/
theorem wrap32_add {n r len : Nat} (hcount : count < 2 ^ 31) (hn : n + len ≤ count) (hr : r ≤ len) :
    u64 (r : Int) = r ∧ wrap32 ((n : Int) + r) = ((n + r : Nat) : Int) :=
  ⟨u64_natCast (by omega), wrap32_of_isInt32 (by unfold IsInt32; omega)⟩

/-- A negative one is never short, and is taken off. -/
theorem wrap32_sub {n : Nat} {r : Int} (len : Nat) (hcount : count < 2 ^ 31) (hn : n < count)
    (hlen : len ≤ count) (hlow : -2 ^ 31 ≤ r) (hneg : r < 0) :
    ¬u64 r < len ∧ IsInt32 (n + r) ∧ wrap32 (n + r) = n + r := by
  have hint : IsInt32 (n + r) := by
    unfold IsInt32
    omega
  have hu := u64_neg (x := r) (by unfold IsInt32; omega) hneg
  exact ⟨by omega, hint, wrap32_of_isInt32 hint⟩

/-- Results that settle end the loop, and it has not counted more than was moved. -/
theorem Settles.run (hcount : count < 2 ^ 31) (hanswer : Answers answer) {k n b : Nat}
    (h : Settles answer bufva count k n b) : n ≤ count → n ≤ b → ∃ fuel r t,
      userIo (fun va => pure (lookupPa va)) (answered answer) (.ub "fuel") bufva count fuel n ⟨k, b⟩ =
        .ok (r, t) ∧ r ≤ t.bytes := by
  induction h with
  | all hn =>
      intro hle hb
      exact ⟨1, count, _, userIo_done hcount hn (by omega), by dsimp only; omega⟩
  | @short k n b hn hlow hshort =>
      intro _ hb
      have hlen := pieceLen_le bufva count n
      obtain ⟨r, hr⟩ := Int.eq_ofNat_of_zero_le hlow
      rw [hr] at hshort
      obtain ⟨hu, hwrap⟩ := wrap32_add (r := r) hcount (show n + pieceLen bufva count n ≤ count by omega)
        (by omega)
      refine ⟨1, (n + r : Nat), ⟨k + 1, b + r⟩, ?_, ?_⟩
      · rw [answeredIo_step hcount hn hr, hu, if_pos (by omega), hwrap]
        rfl
      · dsimp only
        omega
  | @full k n b hn hfull _ ih =>
      intro _ hb
      have hlen := pieceLen_le bufva count n
      obtain ⟨hu, hwrap⟩ := wrap32_add (r := pieceLen bufva count n) hcount
        (show n + pieceLen bufva count n ≤ count by omega) le_rfl
      obtain ⟨fuel, r, t, hrun, hle⟩ := ih (by omega) (by omega)
      refine ⟨fuel + 1, r, t, ?_, hle⟩
      rw [answeredIo_step hcount hn hfull, hu, if_neg (Nat.lt_irrefl _), hwrap]
      exact hrun
  | @back k n b m hn hneg hm _ ih =>
      intro _ hb
      have hlen := pieceLen_le bufva count n
      obtain ⟨hu, -, hwrap⟩ := wrap32_sub (pieceLen bufva count n) hcount hn (by omega)
        (hanswer _ _).1 hneg
      obtain ⟨fuel, r, t, hrun, hle⟩ := ih (by omega) (by omega)
      refine ⟨fuel + 1, r, t, ?_, hle⟩
      rw [answeredIo_step hcount hn rfl, if_neg hu, hwrap, ← hm,
        show (answer k (pieceLen bufva count n)).toNat = 0 by omega]
      exact hrun
  | @under k n b hn hneg hmoved =>
      intro _ _
      have hlen := pieceLen_le bufva count n
      obtain ⟨hu, hint, hwrap⟩ := wrap32_sub (pieceLen bufva count n) hcount hn (by omega)
        (hanswer k (pieceLen bufva count n)).1 (by omega)
      refine ⟨2, count, ⟨k + 1, b + (answer k (pieceLen bufva count n)).toNat⟩, ?_, ?_⟩
      · rw [answeredIo_step hcount hn rfl, if_neg hu, hwrap]
        exact userIo_below hcount hint hneg
      · dsimp only
        omega

/-- A loop that ends and has not counted more than was moved had results that settle. -/
theorem settles_of_run (hcount : count < 2 ^ 31) (hanswer : Answers answer) :
    ∀ {fuel k n b : Nat} {t : Transfer} {r : Int}, n ≤ count →
      userIo (fun va => pure (lookupPa va)) (answered answer) (.ub "fuel") bufva count fuel n
        ⟨k, b⟩ = .ok (r, t) → r ≤ t.bytes → Settles answer bufva count k n b := by
  intro fuel
  induction fuel with
  | zero =>
      intro k n b t r _ hrun
      cases hrun
  | succ fuel ih =>
      intro k n b t r hle hrun hbytes
      by_cases hn : count ≤ n
      · exact .all hn
      have hmore : n < count := by omega
      have hlen := pieceLen_le bufva count n
      obtain ⟨hlow, hhigh⟩ := hanswer k (pieceLen bufva count n)
      rw [answeredIo_step hcount hmore rfl] at hrun
      by_cases hneg : answer k (pieceLen bufva count n) < 0
      · obtain ⟨hu, hint, hwrap⟩ := wrap32_sub (pieceLen bufva count n) hcount hmore (by omega)
          hlow hneg
        rw [if_neg hu, hwrap, show (answer k (pieceLen bufva count n)).toNat = 0 by omega] at hrun
        by_cases hbelow : n + answer k (pieceLen bufva count n) < 0
        · -- the loop ends at once, with `count`
          cases fuel with
          | zero => cases hrun
          | succ fuel =>
              rw [userIo_below hcount hint hbelow] at hrun
              cases hrun
              exact .under hmore hbelow (by dsimp only at hbytes; omega)
        · obtain ⟨m, hm⟩ := Int.eq_ofNat_of_zero_le (Int.not_lt.mp hbelow)
          rw [hm] at hrun
          exact .back hmore hneg hm.symm (ih (by omega) hrun hbytes)
      · obtain ⟨a, ha⟩ := Int.eq_ofNat_of_zero_le (Int.not_lt.mp hneg)
        rw [ha] at hrun hhigh
        obtain ⟨hu, hwrap⟩ := wrap32_add (r := a) hcount
          (show n + pieceLen bufva count n ≤ count by omega) (by omega)
        by_cases hshort : a < pieceLen bufva count n
        · exact .short hmore (by omega) (by omega)
        · obtain rfl : a = pieceLen bufva count n := by omega
          rw [hu, if_neg hshort, hwrap] at hrun
          exact .full hmore ha (ih (by omega) hrun hbytes)

end

/-- The system call reports what has happened exactly for the sequences of results that
settle. -/
theorem userIo_reports_iff (lookupPa : Nat → Nat) (answer : Nat → Nat → Int) (bufva count : Nat)
    (hcount : count < 2 ^ 31) (hanswer : Answers answer) :
    Reports lookupPa answer bufva count ↔ Settles answer bufva count 0 0 0 := by
  constructor
  · rintro ⟨fuel, r, t, hrun, hbytes, -⟩
    exact settles_of_run (n := 0) hcount hanswer (Nat.zero_le _) hrun hbytes
  · intro h
    obtain ⟨fuel, r, t, hrun, hbytes⟩ := h.run hcount hanswer (Nat.zero_le _) le_rfl
    refine ⟨fuel, r, t, hrun, hbytes, fun hpos hneg => ?_⟩
    have := h.first_nonneg hpos
    omega

/-- A buffer over two pages: the second piece fails once, is asked for again from the byte
before, and is then moved. -/
theorem userIo_reports_iff_retried :
    Reports (fun _ => 2147553280) (fun k len => if k = 1 then -1 else len) 4195000 5000 := by
  have hanswer : Answers fun k len => if k = 1 then -1 else len := by
    intro k len
    dsimp only
    split <;> omega
  refine (userIo_reports_iff _ _ _ _ (by decide) hanswer).mpr ?_
  refine .full (by decide) rfl (.back (m := 3399) (by decide) (by decide) (by decide) ?_)
  exact .full (by decide) rfl (.full (by decide) rfl (.all (by decide)))

/-- One byte is asked for, and the call fails. -/
theorem userIo_hides_failure : Answers (fun _ _ => -1) ∧
    ¬Reports (fun _ => 2147553280) (fun _ _ => -1) 4195000 1 := by
  have hanswer : Answers fun _ _ => -1 := by
    intro _ len
    dsimp only
    omega
  refine ⟨hanswer, ?_⟩
  rintro ⟨fuel, r, t, hrun, hbytes, -⟩
  have hsettles := settles_of_run (n := 0) (by decide) hanswer (Nat.zero_le _) hrun hbytes
  have := hsettles.first_nonneg (by decide)
  omega

end Pke
