import Pke.Process

/-!
# Printing (`snprintf.c`, `spike_utils.c`, `sys_user_print`)

`sys_user_print` passes the text of the user to `sprint` as a format. The
formatter is a state machine over the characters: outside of a format it
copies them, after a `%` it copies nothing until a conversion has taken an
argument. No argument is passed, so a conversion reads whatever is in the
registers and on the stack. A text is printed as it is exactly when it has
no `%` (`print_verbatim_iff`).
-/

namespace Pke

/-! ## `vsnprintf` -/

/-- The locals of `vsnprintf`, and the number of arguments taken from `vl`. -/
structure Formatter where
  format : Bool
  longarg : Bool
  pos : Nat
  out : Block
  taken : Nat

namespace Formatter

/-- `if (++pos < n) out[pos - 1] = ch`. -/
def put (n : Nat) (f : Formatter) (ch : UInt8) : Formatter :=
  { f with pos := f.pos + 1, out := if f.pos + 1 < n then upd f.out f.pos ch else f.out }

/-- The end of a conversion. -/
def done (f : Formatter) : Formatter := { f with longarg := false, format := false }

/-- `longarg ? va_arg(vl, long) : va_arg(vl, int)`. -/
def number (args : Nat → UInt64) (f : Formatter) : Int :=
  if f.longarg then (args f.taken).toInt64.toInt else (args f.taken).toUInt32.toInt32.toInt

def take (f : Formatter) : Formatter := { f with taken := f.taken + 1 }

def hexDigit (d : Nat) : UInt8 := if d < 10 then UInt8.ofNat (48 + d) else UInt8.ofNat (97 + d - 10)

/-- The loop of the case `'x'`, with the digits that are left. -/
def putHex (n : Nat) (num : Int) : Nat → Formatter → Formatter
  | 0, f => f
  | i + 1, f => putHex n num i (f.put n (hexDigit (num / 16 ^ i % 16).toNat))

/-- The case `'x'`. -/
def hex (n : Nat) (args : Nat → UInt64) (f : Formatter) : Formatter :=
  done (putHex n (f.number args) (2 * if f.longarg then 8 else 4) f.take)

/-- The number of decimal digits, with fuel for those of a `long`. -/
def digits : Nat → Nat → Nat
  | 0, _ => 1
  | fuel + 1, nn => if nn / 10 = 0 then 1 else digits fuel (nn / 10) + 1

/-- The loop of the case `'d'`, with the digits that are left. -/
def putDec (n : Nat) : Nat → Nat → Formatter → Formatter
  | 0, _, f => f
  | i + 1, num, f => putDec n i (num / 10) { f with
      out := if f.pos + i + 1 < n then upd f.out (f.pos + i) (UInt8.ofNat (48 + num % 10)) else f.out }

/-- The case `'d'`. The least `long` has no negation. -/
def dec (n : Nat) (args : Nat → UInt64) (f : Formatter) : Except Fault Formatter :=
  let num := f.number args
  if num = -2 ^ 63 then .error (.ub "num = -num")
  else
    let g := if num < 0 then f.take.put n 45 else f.take
    let k := digits 20 num.natAbs
    let g := putDec n k num.natAbs g
    .ok (done { g with pos := g.pos + k })

/-- The case `'s'`. -/
def str (m : Mem) (n : Nat) (args : Nat → UInt64) (f : Formatter) : Except Fault Formatter :=
  let s := (args f.taken).toNat
  if s = 0 then .error .nullPage
  else .ok (done ((cstr m s (2 ^ 64 - s)).foldl (put n) f.take))

/-- The case `'c'`: the argument is taken only when there is room for it. -/
def chr (n : Nat) (args : Nat → UInt64) (f : Formatter) : Formatter :=
  done ((if f.pos + 1 < n then f.take else f).put n (args f.taken).toUInt8)

/-- The body of the loop. -/
def step (m : Mem) (n : Nat) (args : Nat → UInt64) (f : Formatter) (ch : UInt8) :
    Except Fault Formatter :=
  if f.format then
    if ch = 108 then .ok { f with longarg := true }
    else if ch = 112 then .ok (hex n args ((({ f with longarg := true }).put n 48).put n 120))
    else if ch = 120 then .ok (hex n args f)
    else if ch = 100 then dec n args f
    else if ch = 115 then str m n args f
    else if ch = 99 then .ok (chr n args f)
    else .ok f
  else if ch = 37 then .ok { f with format := true }
  else .ok (f.put n ch)

end Formatter

open Formatter

/-- `vsnprintf`: the buffer and the result, with the number of arguments taken. -/
def vsnprintf (m : Mem) (out : Block) (n : Nat) (s : List UInt8) (args : Nat → UInt64) :
    Except Fault Formatter := do
  let f ← s.foldlM (step m n args) ⟨false, false, 0, out, 0⟩
  if f.pos < n then pure { f with out := upd f.out f.pos 0 }
  else if n ≠ 0 then pure { f with out := upd f.out (n - 1) 0 }
  else pure f

/-- What `spike_file_write` is given, and how many arguments have been read for it. -/
structure Printed where
  bytes : List UInt8
  taken : Nat
deriving DecidableEq

/-- `vprintk`, with what is in `out` before. -/
def vprintk (m : Mem) (s : List UInt8) (out : Block) (args : Nat → UInt64) : Except Fault Printed := do
  let f ← vsnprintf m out 256 s args
  let len := if f.pos < 256 then f.pos else 256
  pure ⟨(List.range len).map f.out, f.taken⟩

/-- `sprint` of the string at `pa`. -/
def sprint (m : Mem) (pa : Nat) (out : Block) (args : Nat → UInt64) : Except Fault Printed :=
  vprintk m (cstr m pa (2 ^ 64 - pa)) out args

namespace Machine

open Exec (get)

/-- `sys_user_print`, with what it prints. The registers and the stack hold `args` and `out`. -/
def sysUserPrint (buf _n : Nat) (out : Block) (args : Nat → UInt64) : ProcM Printed := do
  let i ← currentProc
  let k ← get
  let pa ← inPhys (Phys.userVaToPa (k.procs i).pagetable buf)
  access pa
  match sprint k.phys.mem pa out args with
  | .ok printed => pure printed
  | .error f => fault f

end Machine

/-! ## Text without formats -/

namespace Formatter

variable {m : Mem} {n : Nat} {args : Nat → UInt64} {f g : Formatter}

/-- A text without `%` is copied. -/
theorem foldlM_plain (args : Nat → UInt64) : ∀ {s : List UInt8} {f : Formatter},
    f.format = false → 37 ∉ s →
    f.pos + s.length < n → ∃ g, s.foldlM (step m n args) f = .ok g ∧ g.format = false ∧
      g.pos = f.pos + s.length ∧ g.taken = f.taken ∧ (∀ i < f.pos, g.out i = f.out i) ∧
      ∀ i (hi : i < s.length), g.out (f.pos + i) = s[i]
  | [], f, hf, _, _ => ⟨f, rfl, hf, rfl, rfl, fun _ _ => rfl, nofun⟩
  | ch :: s, f, hf, hs, hn => by
      rw [List.mem_cons, not_or] at hs
      rw [List.length_cons] at hn
      have hstep : step m n args f ch = .ok (f.put n ch) := by
        rw [step, hf, if_neg (by decide), if_neg (Ne.symm hs.1)]
      have hfirst : (f.put n ch).out f.pos = ch := by
        rw [put, if_pos (by omega)]
        exact upd_self _ _ _
      have hkept : ∀ i < f.pos, (f.put n ch).out i = f.out i := by
        intro i hi
        rw [put, if_pos (by omega)]
        exact upd_ne (by omega)
      obtain ⟨g, hrun, hformat, hpos, htaken, hbefore, hafter⟩ :=
        foldlM_plain args (f := f.put n ch) hf hs.2 (by show f.pos + 1 + s.length < n; omega)
      have hpos' : (f.put n ch).pos = f.pos + 1 := rfl
      rw [hpos'] at hpos hbefore hafter
      refine ⟨g, ?_, hformat, ?_, htaken, fun i hi => ?_, fun i hi => ?_⟩
      · rw [List.foldlM_cons, hstep]
        exact hrun
      · rw [hpos, List.length_cons]
        omega
      · rw [hbefore i (by omega), hkept i hi]
      · cases i with
        | zero =>
            rw [Nat.add_zero, hbefore f.pos (by omega), hfirst]
            rfl
        | succ i =>
            have := hafter i (by simpa using hi)
            rw [show f.pos + (i + 1) = f.pos + 1 + i by omega, this]
            rfl

/-! ## Formats -/

theorem putHex_keeps (num : Int) : ∀ {i : Nat} {f : Formatter},
    (putHex n num i f).taken = f.taken ∧ f.pos ≤ (putHex n num i f).pos
  | 0, _ => ⟨rfl, Nat.le_refl _⟩
  | i + 1, f => by
      rw [putHex]
      have hrest := putHex_keeps num (i := i)
        (f := f.put n (hexDigit (num / 16 ^ i % 16).toNat))
      exact ⟨hrest.1, (Nat.le_succ _).trans hrest.2⟩

theorem putDec_keeps : ∀ {i num : Nat} {f : Formatter},
    (putDec n i num f).taken = f.taken ∧ (putDec n i num f).pos = f.pos
  | 0, _, _ => ⟨rfl, rfl⟩
  | i + 1, num, f => by
      rw [putDec]
      exact putDec_keeps

theorem foldl_put_keeps : ∀ {s : List UInt8} {f : Formatter},
    (s.foldl (put n) f).taken = f.taken ∧ f.pos ≤ (s.foldl (put n) f).pos
  | [], _ => ⟨rfl, Nat.le_refl _⟩
  | ch :: s, f => by
      obtain ⟨htaken, hpos⟩ := foldl_put_keeps (s := s)
      exact ⟨htaken, (Nat.le_succ _).trans hpos⟩

/-- A conversion has taken its argument, or the buffer is full. -/
def Converted (n : Nat) (f g : Formatter) : Prop :=
  f.pos ≤ g.pos ∧ (g.taken = f.taken + 1 ∨ g.taken = f.taken ∧ n ≤ g.pos)

theorem hex_converted : Converted n f (hex n args f) := by
  have hdigits : _ ∧ _ ≤ (hex n args f).pos := putHex_keeps _
  exact ⟨hdigits.2, .inl hdigits.1⟩

theorem dec_converted (h : dec n args f = .ok g) : Converted n f g := by
  simp only [dec] at h
  split at h
  · cases h
  · cases h
    simp only [Converted, done, putDec_keeps]
    split
    · exact ⟨by simp only [put, take]; omega, .inl rfl⟩
    · exact ⟨Nat.le_add_right _ _, .inl rfl⟩

theorem str_converted (h : str m n args f = .ok g) : Converted n f g := by
  simp only [str] at h
  split at h
  · cases h
  · cases h
    obtain ⟨htaken, hpos⟩ := foldl_put_keeps (n := n) (f := f.take)
      (s := cstr m (args f.taken).toNat (2 ^ 64 - (args f.taken).toNat))
    exact ⟨hpos, .inl htaken⟩

theorem chr_converted : Converted n f (chr n args f) := by
  unfold chr
  split
  · exact ⟨Nat.le_succ _, .inl rfl⟩
  · exact ⟨Nat.le_succ _, .inr ⟨rfl, by simp only [done, put]; omega⟩⟩

/-- In a format, a character is a conversion or leaves the formatter where it is. -/
theorem step_format {ch : UInt8} (hf : f.format = true) (h : step m n args f ch = .ok g) :
    Converted n f g ∨ g.format = true ∧ g.pos = f.pos ∧ g.taken = f.taken := by
  rw [step, hf, if_pos rfl] at h
  split at h
  · cases h
    exact .inr ⟨rfl, rfl, rfl⟩
  split at h
  · cases h
    -- `0x` is put before the digits
    have hhex : Converted n _ (hex n args ((({ f with longarg := true }).put n 48).put n 120)) :=
      hex_converted
    exact .inl ⟨(Nat.le_add_right _ 2).trans hhex.1, hhex.2⟩
  split at h
  · cases h
    exact .inl hex_converted
  split at h
  · exact .inl (dec_converted h)
  split at h
  · exact .inl (str_converted h)
  split at h
  · cases h
    exact .inl chr_converted
  · cases h
    exact .inr ⟨hf, rfl, rfl⟩

theorem step_grows {ch : UInt8} (h : step m n args f ch = .ok g) :
    f.taken ≤ g.taken ∧ f.pos ≤ g.pos := by
  cases hf : f.format with
  | true =>
      have := step_format hf h
      unfold Converted at this
      omega
  | false =>
      rw [step, hf, if_neg (by decide)] at h
      split at h
      · cases h
        exact ⟨Nat.le_refl _, Nat.le_refl _⟩
      · cases h
        exact ⟨Nat.le_refl _, Nat.le_succ _⟩

theorem foldlM_grows : ∀ {s : List UInt8} {f : Formatter},
    s.foldlM (step m n args) f = .ok g → f.taken ≤ g.taken ∧ f.pos ≤ g.pos
  | [], _, h => by
      cases h
      exact ⟨Nat.le_refl _, Nat.le_refl _⟩
  | ch :: s, f, h => by
      rw [List.foldlM_cons] at h
      cases hstep : step m n args f ch with
      | error e =>
          rw [hstep] at h
          cases h
      | ok f' =>
          rw [hstep] at h
          have hone := step_grows hstep
          have hrest := foldlM_grows h
          exact ⟨hone.1.trans hrest.1, hone.2.trans hrest.2⟩

/-- A format that is not finished prints nothing more. -/
theorem foldlM_format : ∀ {s : List UInt8} {f : Formatter}, f.format = true →
    s.foldlM (step m n args) f = .ok g → f.taken < g.taken ∨ n ≤ g.pos ∨ g.pos = f.pos
  | [], _, _, h => by
      cases h
      exact .inr (.inr rfl)
  | ch :: s, f, hf, h => by
      rw [List.foldlM_cons] at h
      cases hstep : step m n args f ch with
      | error e =>
          rw [hstep] at h
          cases h
      | ok f' =>
          rw [hstep] at h
          have hgrows := foldlM_grows h
          rcases step_format hf hstep with ⟨-, htaken | ⟨-, hfull⟩⟩ | ⟨hf', hpos, htaken⟩
          · exact .inl (by omega)
          · exact .inr (.inl (by omega))
          · have := foldlM_format hf' h
            omega

theorem step_error {ch : UInt8} {e : Fault} (h : step m n args f ch = .error e) :
    e = .ub "num = -num" ∨ e = .nullPage := by
  simp only [step, dec, str] at h
  grind

theorem foldlM_error {e : Fault} : ∀ {s : List UInt8} {f : Formatter},
    s.foldlM (step m n args) f = .error e → e = .ub "num = -num" ∨ e = .nullPage
  | [], _, h => by cases h
  | ch :: s, f, h => by
      rw [List.foldlM_cons] at h
      cases hstep : step m n args f ch with
      | error e' =>
          rw [hstep] at h
          cases h
          exact step_error hstep
      | ok f' =>
          rw [hstep] at h
          exact foldlM_error h

end Formatter

/-! ## `vprintk` -/

section

variable {m : Mem} {s : List UInt8} {out : Block} {args : Nat → UInt64}

/-- The formatter before the first character. -/
def Formatter.start (out : Block) : Formatter := ⟨false, false, 0, out, 0⟩

theorem vprintk_of_fold {g : Formatter}
    (h : s.foldlM (Formatter.step m 256 args) (.start out) = .ok g) (hpos : g.pos < 256) :
    vprintk m s out args = .ok ⟨(List.range g.pos).map (upd g.out g.pos 0), g.taken⟩ := by
  have hrun : vsnprintf m out 256 s args = .ok { g with out := upd g.out g.pos 0 } := by
    show (s.foldlM (Formatter.step m 256 args) (.start out) >>= _) = _
    rw [h]
    show (if g.pos < 256 then _ else _) = _
    rw [if_pos hpos]
    rfl
  rw [vprintk, hrun]
  show Except.ok (Printed.mk ((List.range (if g.pos < 256 then g.pos else 256)).map _) _) = _
  rw [if_pos hpos]

theorem vprintk_plain (hs : 37 ∉ s) (hlen : s.length ≤ 255) :
    vprintk m s out args = .ok ⟨s, 0⟩ := by
  obtain ⟨g, hrun, -, hpos, htaken, -, hout⟩ := Formatter.foldlM_plain (m := m) (n := 256) args
    (f := .start out) rfl hs (by show 0 + s.length < 256; omega)
  have hpos : g.pos = s.length := hpos.trans (Nat.zero_add _)
  rw [vprintk_of_fold hrun (by omega), htaken, hpos]
  congr 2
  refine List.ext_getElem (by simp) fun i hi hi' => ?_
  simp only [List.getElem_map, List.getElem_range]
  rw [upd_ne (by omega)]
  have := hout i hi'
  rwa [show (Formatter.start out).pos + i = i from Nat.zero_add i] at this

theorem fold_of_vprintk {p : Printed} (h : vprintk m s out args = .ok p) :
    ∃ g, s.foldlM (Formatter.step m 256 args) (.start out) = .ok g ∧ p.taken = g.taken ∧
      p.bytes.length = min g.pos 256 := by
  cases hfold : s.foldlM (Formatter.step m 256 args) (.start out) with
  | error e =>
      have herror : vsnprintf m out 256 s args = .error e := by
        show (s.foldlM (Formatter.step m 256 args) (.start out) >>= _) = _
        rw [hfold]
        rfl
      rw [vprintk, herror] at h
      cases h
  | ok g =>
      have hrun : ∃ o, vsnprintf m out 256 s args = .ok { g with out := o } := by
        show ∃ o, (s.foldlM (Formatter.step m 256 args) (.start out) >>= _) = _
        rw [hfold]
        show ∃ o, (if g.pos < 256 then _ else if 256 ≠ 0 then _ else _) = _
        split
        · exact ⟨_, rfl⟩
        · exact ⟨_, rfl⟩
      obtain ⟨o, hrun⟩ := hrun
      rw [vprintk, hrun] at h
      cases h
      refine ⟨g, rfl, rfl, ?_⟩
      simp only [List.length_map, List.length_range]
      split <;> omega

/-- How printing can fail: the least `long`, or a string at `NULL`. -/
theorem sprint_error {pa : Nat} {e : Fault} (h : sprint m pa out args = .error e) :
    e = .ub "num = -num" ∨ e = .nullPage := by
  unfold sprint vprintk vsnprintf at h
  generalize cstr m pa (2 ^ 64 - pa) = s at h
  cases hfold : s.foldlM (Formatter.step m 256 args) ⟨false, false, 0, out, 0⟩ with
  | error e' =>
      rw [hfold] at h
      cases h
      exact Formatter.foldlM_error hfold
  | ok g =>
      rw [hfold] at h
      simp only [bind, Except.bind, pure, Except.pure] at h
      grind

/-- A text with a `%` is not printed as it is, or an argument is read for it. -/
theorem vprintk_format (hs : 37 ∈ s) (hlen : s.length ≤ 255) :
    vprintk m s out args ≠ .ok ⟨s, 0⟩ := by
  intro h
  obtain ⟨a, b, rfl, ha⟩ := List.eq_append_cons_of_mem hs
  rw [List.length_append, List.length_cons] at hlen
  obtain ⟨g, hrun, hformat, hpos, htaken, -⟩ := Formatter.foldlM_plain (m := m) (n := 256) args
    (f := .start out) rfl ha (by show 0 + a.length < 256; omega)
  have hpos : g.pos = a.length := hpos.trans (Nat.zero_add _)
  have hstep : Formatter.step m 256 args g 37 = .ok { g with format := true } := by
    rw [Formatter.step, hformat, if_neg (by decide), if_pos rfl]
  obtain ⟨g', hfold, htaken', hlength⟩ := fold_of_vprintk h
  rw [List.foldlM_append, hrun] at hfold
  have hfold : (37 :: b).foldlM (Formatter.step m 256 args) g = .ok g' := hfold
  rw [List.foldlM_cons, hstep] at hfold
  rw [List.length_append, List.length_cons] at hlength
  -- the format takes an argument, fills the buffer, or the output ends before the `%`
  rcases Formatter.foldlM_format rfl hfold with htook | hfull | hstuck
  · have htook : g.taken < g'.taken := htook
    have hzero : 0 = g'.taken := htaken'
    omega
  · omega
  · have hstuck : g'.pos = g.pos := hstuck
    omega

end

/-! ## `sys_user_print` -/

namespace Machine

/-- The string `s` of process `i` is at `va`, in one page of its memory. -/
structure UserString (k : Machine) (i : Pid) (va : Nat) (s : List UInt8) : Prop where
  current : k.current = some i
  tree : Tree k.phys.mem (k.procs i).pagetable
  below : va < maxVA
  nul : 0 ∉ s
  inside : va % pgSize + s.length < pgSize
  mapped : ∃ e, entry k.phys.mem (k.procs i).pagetable va = some e ∧ pte2pa e ≠ 0 ∧
    ∀ j ≤ s.length, k.phys.mem (pte2pa e + va % pgSize + j) = strBytes s j

/-- The text is printed, and no argument is looked at. -/
def Verbatim (k : Machine) (va n : Nat) (out : Block) (args : Nat → UInt64) (s : List UInt8) : Prop :=
  sysUserPrint va n out args k = .ok (⟨s, 0⟩, k)

theorem sysUserPrint_eq {k : Machine} {i : Pid} {va n : Nat} {s : List UInt8} {out : Block}
    {args : Nat → UInt64} (h : UserString k i va s) :
    sysUserPrint va n out args k = match vprintk k.phys.mem s out args with
      | .ok printed => .ok (printed, k)
      | .error f => .error (.fault f) := by
  obtain ⟨e, he, hpage, hbytes⟩ := h.mapped
  have hpa : Phys.userVaToPa (k.procs i).pagetable va k.phys =
      .ok (pte2pa e + va % pgSize, k.phys) := by
    rw [Phys.userVaToPa_eq h.tree h.below, he]
    rfl
  have hcur : currentProc k = .ok (i, k) := by
    unfold currentProc
    rw [Exec.bind_of_ok (show (Exec.get : ProcM Machine) k = .ok (k, k) from rfl), h.current]
    rfl
  have hin : inPhys (Phys.userVaToPa (k.procs i).pagetable va) k =
      .ok (pte2pa e + va % pgSize, k) := by
    rw [inPhys, hpa]
  have haccess : access (pte2pa e + va % pgSize) k = .ok ((), k) := by
    rw [access, if_neg (by omega)]
    rfl
  have hstring : cstr k.phys.mem (pte2pa e + va % pgSize) (2 ^ 64 - (pte2pa e + va % pgSize)) = s := by
    refine cstr_of_bytes h.nul ?_ hbytes
    have hmod := pte2pa_mod e
    have hlt := pte2pa_lt e
    have hin := h.inside
    unfold pgSize at hin ⊢
    omega
  rw [sysUserPrint, Exec.bind_of_ok hcur,
    Exec.bind_of_ok (show (Exec.get : ProcM Machine) k = .ok (k, k) from rfl), Exec.bind_of_ok hin,
    Exec.bind_of_ok haccess, sprint, hstring]
  split
  · rename_i heq
    rw [heq]
    rfl
  · rename_i heq
    rw [heq]
    rfl

/-- Exactly the texts without `%` are printed as they are, whatever is in the registers
and on the stack. -/
theorem print_verbatim_iff {k : Machine} {i : Pid} {va n : Nat} {s : List UInt8} {out : Block}
    {args : Nat → UInt64} (h : UserString k i va s) (hlen : s.length ≤ 255) :
    Verbatim k va n out args s ↔ 37 ∉ s := by
  rw [Verbatim, sysUserPrint_eq h]
  constructor
  · intro hrun hmem
    split at hrun
    · rename_i heq
      cases hrun
      exact vprintk_format hmem hlen heq
    · cases hrun
  · intro hmem
    rw [vprintk_plain hmem hlen]

/-- A machine in which the first process has the page at `65536`, with `s` in it. -/
theorem exists_userString {s : List UInt8} (hnul : 0 ∉ s) (hlen : s.length < pgSize) :
    ∃ k, UserString k 0 65536 s := by
  obtain ⟨s1, l, hext, -, he, hnew⟩ := Phys.mapPages_emptyDir
  have hframe : ∀ q ∈ tables s1.mem 4096,
      Phys.SamePage s1.mem (Pke.memcpy s1.mem (16384 + 0) (s.length + 1) (strBytes s)) q := by
    intro q hq
    have hne : q ≠ 16384 := fun heq => hnew.1 (heq ▸ hq)
    exact samePage_memcpy (by decide) (hext.space.tree.page q hq).1 hne (by omega)
  refine ⟨⟨{ s1 with mem := Pke.memcpy s1.mem (16384 + 0) (s.length + 1) (strBytes s) }, .zero,
    fun i => { Process.zero i with pagetable := 4096 }, some 0, none, 0, 0, 0, false⟩, rfl, ?_, by decide, hnul, ?_, ?_⟩
  · exact hext.space.tree.congr (tableAt_frame hframe)
  · rw [show 65536 % pgSize = 0 from rfl]
    omega
  · refine ⟨_, (entry_frame hframe 65536).trans he, ?_, fun j hj => ?_⟩
    · rw [Phys.pte2pa_small]
      decide
    · rw [Phys.pte2pa_small]
      show Pke.memcpy s1.mem (16384 + 0) (s.length + 1) (strBytes s) (16384 + 65536 % pgSize + j) = _
      rw [show 16384 + 65536 % pgSize + j = 16384 + 0 + j from rfl, memcpy_in (by omega)]

/-- The text `hi`. -/
theorem print_verbatim_hi : ∃ k, UserString k 0 65536 [104, 105] ∧
    Verbatim k 65536 2 (fun _ => 0) (fun _ => 0) [104, 105] := by
  obtain ⟨k, hk⟩ := exists_userString (s := [104, 105]) (by decide) (by decide)
  exact ⟨k, hk, (print_verbatim_iff hk (by decide)).mpr (by decide)⟩

/-- The text `%x` prints a register. -/
theorem percent_reads_argument : ∃ k, UserString k 0 65536 [37, 120] ∧
    sysUserPrint 65536 2 (fun _ => 0) (fun _ => 10) k =
      .ok (⟨[48, 48, 48, 48, 48, 48, 48, 97], 1⟩, k) ∧
    ¬Verbatim k 65536 2 (fun _ => 0) (fun _ => 10) [37, 120] := by
  obtain ⟨k, hk⟩ := exists_userString (s := [37, 120]) (by decide) (by decide)
  have hprint : ∀ m : Mem, vprintk m [37, 120] (fun _ => 0) (fun _ => 10) =
      .ok ⟨[48, 48, 48, 48, 48, 48, 48, 97], 1⟩ := fun m => rfl
  have hrun : sysUserPrint 65536 2 (fun _ => 0) (fun _ => 10) k =
      .ok (⟨[48, 48, 48, 48, 48, 48, 48, 97], 1⟩, k) := by
    rw [sysUserPrint_eq hk, hprint]
  refine ⟨k, hk, hrun, ?_⟩
  rw [Verbatim, hrun]
  simp

end Machine

end Pke
