import Mathlib.Data.List.Basic
import Mathlib.Tactic.NormNum

/-!
# Bytes, 32-bit integers and C strings in a block

A block is its bytes by offset. `memcpy` and `memmove` are the two ways
code changes one; `getInt` and `intByte` are the two directions of the
little-endian `int` layout, inverse to each other on the 32-bit range
(`leInt_intByte`); `cstr` and `strcmpEq` are the two ways code looks at
a NUL-terminated string, equal on strings that fit (`strcmpEq_iff`).
-/

namespace Pke

abbrev Block := Nat → UInt8

/-! ## Copies -/

/-- `memcpy (dst + off, src, len)`. -/
def memcpy (dst : Block) (off len : Nat) (src : Nat → UInt8) : Block := fun j =>
  if off ≤ j ∧ j < off + len then src (j - off) else dst j

/-- `memmove (b + dst, b + src, len)`: the bytes are read before any is
overwritten. -/
def memmove (b : Block) (dst src len : Nat) : Block :=
  memcpy b dst len fun j => b (src + j)

variable {dst : Block} {off len j : Nat} {src : Nat → UInt8}

theorem memcpy_in (h : j < len) : memcpy dst off len src (off + j) = src j := by
  simp [memcpy, h]

theorem memcpy_zero (h : j < len) : memcpy dst 0 len src j = src j := by
  simp [memcpy, h]

theorem memcpy_out (h : j < off ∨ off + len ≤ j) : memcpy dst off len src j = dst j := by
  simp only [memcpy]
  rw [if_neg (by omega)]

/-- `'/'`. -/
def slash : UInt8 := 47

/-! ## 32-bit integers -/

/-- The values an `int` can hold. -/
def IsInt32 (v : Int) : Prop := -2147483648 ≤ v ∧ v < 2147483648

instance (v : Int) : Decidable (IsInt32 v) := inferInstanceAs (Decidable (_ ∧ _))

/-- Conversion to `int`: two's complement of the low 32 bits. -/
def wrap32 (v : Int) : Int :=
  if v % 4294967296 < 2147483648 then v % 4294967296 else v % 4294967296 - 4294967296

theorem wrap32_of_isInt32 {v : Int} (h : IsInt32 v) : wrap32 v = v := by
  unfold IsInt32 at h
  unfold wrap32
  split <;> omega

theorem isInt32_wrap32 (v : Int) : IsInt32 (wrap32 v) := by
  unfold IsInt32 wrap32
  split <;> omega

/-- Byte `k` of an `int`, least significant first. -/
def intByte (v : Int) (k : Nat) : UInt8 :=
  UInt8.ofNat ((v % 4294967296).toNat / 256 ^ k % 256)

/-- The `int` stored in four bytes. -/
def leInt (f : Nat → UInt8) : Int :=
  wrap32 (Int.ofNat
    ((f 0).toNat + 256 * ((f 1).toNat + 256 * ((f 2).toNat + 256 * (f 3).toNat))))

def getInt (b : Block) (off : Nat) : Int := leInt fun k => b (off + k)

theorem isInt32_getInt (b : Block) (off : Nat) : IsInt32 (getInt b off) := by
  unfold getInt leInt
  exact isInt32_wrap32 _

theorem toNat_intByte (v : Int) (k : Nat) :
    (intByte v k).toNat = (v % 4294967296).toNat / 256 ^ k % 256 := by
  simp [intByte]

theorem leInt_intByte {v : Int} (h : IsInt32 v) {f : Nat → UInt8}
    (hf : ∀ k < 4, f k = intByte v k) : leInt f = v := by
  have hsum : ∀ u : Nat, u < 4294967296 →
      u / 256 ^ 0 % 256 + 256 * (u / 256 ^ 1 % 256 + 256 * (u / 256 ^ 2 % 256
        + 256 * (u / 256 ^ 3 % 256))) = u := by
    intro u hu
    norm_num
    omega
  have hlt : (v % 4294967296).toNat < 4294967296 := by omega
  unfold leInt
  rw [hf 0 (by omega), hf 1 (by omega), hf 2 (by omega), hf 3 (by omega)]
  simp only [toNat_intByte]
  rw [hsum _ hlt, show Int.ofNat (v % 4294967296).toNat = v % 4294967296 by
    rw [Int.ofNat_eq_natCast]; omega]
  unfold IsInt32 at h
  unfold wrap32
  split <;> omega

theorem getInt_congr {b b' : Block} {off' : Nat} (h : ∀ k < 4, b (off + k) = b' (off' + k)) :
    getInt b off = getInt b' off' := by
  simp only [getInt, leInt]
  rw [h 0 (by omega), h 1 (by omega), h 2 (by omega), h 3 (by omega)]

/-! ## Strings -/

/-- The string that starts at `off` and is stopped by a NUL or after `n`
bytes. -/
def cstr (b : Block) (off : Nat) : Nat → List UInt8
  | 0 => []
  | n + 1 => if b off = 0 then [] else b off :: cstr b (off + 1) n

theorem notMem_cstr {b : Block} : ∀ {n off : Nat}, 0 ∉ cstr b off n
  | 0, _ => List.not_mem_nil
  | n + 1, off => by
      rw [cstr]
      split
      · exact List.not_mem_nil
      · rename_i h
        rw [List.mem_cons, not_or]
        exact ⟨Ne.symm h, notMem_cstr⟩

/-- `strcmp (b + off, name) == 0` for a `name` without NULs. -/
def strcmpEq (b : Block) : Nat → List UInt8 → Bool
  | off, [] => b off == 0
  | off, c :: rest => b off == c && strcmpEq b (off + 1) rest

/-- The bytes of a string with its terminator. -/
def strBytes (name : List UInt8) : Nat → UInt8 := fun i => name.getD i 0

theorem strcmpEq_iff {b : Block} : ∀ {name : List UInt8} {off n : Nat},
    0 ∉ name → name.length < n → (strcmpEq b off name = true ↔ cstr b off n = name)
  | [], off, n, _, hn => by
      obtain ⟨m, rfl⟩ : ∃ m, n = m + 1 := ⟨n - 1, by simp at hn; omega⟩
      simp only [strcmpEq, cstr, beq_iff_eq]
      split <;> simp_all
  | c :: rest, off, n, hnul, hn => by
      obtain ⟨m, rfl⟩ : ∃ m, n = m + 1 := ⟨n - 1, by simp at hn; omega⟩
      simp only [List.mem_cons, not_or] at hnul
      simp only [List.length_cons] at hn
      have ih : strcmpEq b (off + 1) rest = true ↔ cstr b (off + 1) m = rest :=
        strcmpEq_iff hnul.2 (by omega)
      simp only [strcmpEq, cstr, Bool.and_eq_true, beq_iff_eq, ih]
      split
      · rename_i h0
        simp only [h0, reduceCtorEq, iff_false, not_and]
        exact fun h => absurd h hnul.1
      · simp

/-- A stored string that has its terminator compares with any string. -/
theorem strcmpEq_iff_of_terminated {b : Block} : ∀ {name : List UInt8} {off n : Nat},
    0 ∉ name → (cstr b off n).length < n → (strcmpEq b off name = true ↔ cstr b off n = name)
  | _, _, 0, _, h => absurd h (by simp)
  | [], off, n + 1, _, h => by
      by_cases h0 : b off = 0 <;> simp [strcmpEq, cstr, h0]
  | c :: rest, off, n + 1, hnul, h => by
      simp only [List.mem_cons, not_or] at hnul
      by_cases h0 : b off = 0
      · simp [strcmpEq, cstr, h0, hnul.1]
      · simp only [cstr, if_neg h0, List.length_cons] at h
        simp [strcmpEq, cstr, h0, strcmpEq_iff_of_terminated hnul.2 (Nat.lt_of_succ_lt_succ h)]

theorem cstr_congr {b b' : Block} : ∀ {n off off' : Nat},
    (∀ k < n, b (off + k) = b' (off' + k)) → cstr b off n = cstr b' off' n
  | 0, _, _, _ => rfl
  | n + 1, off, off', h => by
      have h0 := h 0 (by omega)
      simp only [Nat.add_zero] at h0
      have hrest : cstr b (off + 1) n = cstr b' (off' + 1) n :=
        cstr_congr fun k hk => by
          have := h (k + 1) (by omega)
          rwa [show off + (k + 1) = off + 1 + k by omega,
            show off' + (k + 1) = off' + 1 + k by omega] at this
      simp only [cstr, h0, hrest]

/-- A string stored with its terminator reads back. -/
theorem cstr_of_bytes {b : Block} : ∀ {name : List UInt8} {off n : Nat}, 0 ∉ name →
    name.length < n → (∀ k ≤ name.length, b (off + k) = strBytes name k) →
    cstr b off n = name
  | [], off, n, _, hn, hb => by
      obtain ⟨m, rfl⟩ : ∃ m, n = m + 1 := ⟨n - 1, by simp at hn; omega⟩
      have := hb 0 (by simp)
      simp only [Nat.add_zero, strBytes, List.getD_nil] at this
      simp [cstr, this]
  | c :: rest, off, n, hnul, hn, hb => by
      obtain ⟨m, rfl⟩ : ∃ m, n = m + 1 := ⟨n - 1, by simp at hn; omega⟩
      simp only [List.mem_cons, not_or] at hnul
      simp only [List.length_cons] at hn
      have h0 := hb 0 (by simp)
      simp only [Nat.add_zero, strBytes, List.getD_cons_zero] at h0
      have hrest : cstr b (off + 1) m = rest :=
        cstr_of_bytes hnul.2 (by omega) fun k hk => by
          have := hb (k + 1) (by simpa using hk)
          rw [show off + (k + 1) = off + 1 + k by omega] at this
          simpa [strBytes] using this
      simp only [cstr, h0, hrest, if_neg (Ne.symm hnul.1)]

end Pke
