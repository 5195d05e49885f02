import Pke.Bytes

/-!
# 64-bit words in byte-addressed memory

Physical memory is its bytes by address. `load64` and `store64` are the
little-endian access to a `uint64`: a store is read back where it was made
(`load64_store64`) and nowhere else (`load64_store64_ne`). A change of
memory that leaves a range of addresses alone leaves the words in it alone
(`load64_congr`), which is all that the frame lemmas of the code above it
use.
-/

namespace Pke

abbrev Mem := Nat → UInt8

/-- The number in `n` bytes, the least significant first. -/
def leNat (f : Nat → UInt8) : Nat → Nat
  | 0 => 0
  | n + 1 => (f 0).toNat + 256 * leNat (fun i => f (i + 1)) n

@[simp] theorem leNat_none (f : Nat → UInt8) : leNat f 0 = 0 := rfl

theorem leNat_succ (f : Nat → UInt8) (n : Nat) :
    leNat f (n + 1) = (f 0).toNat + 256 * leNat (fun i => f (i + 1)) n := rfl

/-- Byte `i` of a number. -/
def natByte (v i : Nat) : UInt8 := UInt8.ofNat (v / 256 ^ i % 256)

theorem leNat_congr {f g : Nat → UInt8} {n : Nat} (h : ∀ i < n, f i = g i) :
    leNat f n = leNat g n := by
  induction n generalizing f g with
  | zero => rfl
  | succ n ih =>
      rw [leNat_succ, leNat_succ, h 0 (by omega), ih fun i hi => h (i + 1) (by omega)]

theorem leNat_natByte (v n : Nat) : leNat (natByte v) n = v % 256 ^ n := by
  induction n generalizing v with
  | zero => simp [Nat.mod_one]
  | succ n ih =>
      have hrest : (fun i => natByte v (i + 1)) = natByte (v / 256) := by
        funext i
        simp [natByte, Nat.pow_succ', Nat.div_div_eq_div_mul]
      have hfirst : (natByte v 0).toNat = v % 256 := by simp [natByte]
      rw [leNat_succ, hrest, ih, hfirst, Nat.pow_succ', Nat.mod_mul]

theorem leNat_lt (f : Nat → UInt8) (n : Nat) : leNat f n < 256 ^ n := by
  induction n generalizing f with
  | zero => simp
  | succ n ih =>
      have hb : (f 0).toNat < 256 := (f 0).toNat_lt
      have hrest := ih fun i => f (i + 1)
      rw [leNat_succ, Nat.pow_succ']
      omega

theorem leNat_zero (n : Nat) : leNat (fun _ => 0) n = 0 := by
  induction n with
  | zero => rfl
  | succ n ih => simp [leNat_succ, ih]

/-- Subtraction of `uint64`. -/
@[irreducible] def sub64 (a b : Nat) : Nat := (a + 2 ^ 64 - b) % 2 ^ 64

/-! ## Loads and stores -/

def load64 (m : Mem) (a : Nat) : Nat := leNat (fun i => m (a + i)) 8

def store64 (m : Mem) (a v : Nat) : Mem := memcpy m a 8 (natByte v)

/-- `memset (a, byte, len)`. -/
def memset (m : Mem) (a : Nat) (byte : UInt8) (len : Nat) : Mem := memcpy m a len fun _ => byte

theorem load64_lt (m : Mem) (a : Nat) : load64 m a < 2 ^ 64 := leNat_lt _ 8

theorem load64_congr {m m' : Mem} {a : Nat} (h : ∀ i < 8, m' (a + i) = m (a + i)) :
    load64 m' a = load64 m a := leNat_congr h

@[simp] theorem load64_store64 (m : Mem) (a v : Nat) : load64 (store64 m a v) a = v % 2 ^ 64 := by
  have hbytes : load64 (store64 m a v) a = leNat (natByte v) 8 :=
    leNat_congr fun i hi => memcpy_in hi
  rw [hbytes, leNat_natByte]
  norm_num

theorem load64_store64_ne {m : Mem} {a b v : Nat} (h : a + 8 ≤ b ∨ b + 8 ≤ a) :
    load64 (store64 m a v) b = load64 m b :=
  load64_congr fun i hi => memcpy_out (by omega)

theorem store64_out {m : Mem} {a b v : Nat} (h : b < a ∨ a + 8 ≤ b) : store64 m a v b = m b :=
  memcpy_out h

theorem load64_memset_zero {m : Mem} {a b len : Nat} (h : a ≤ b) (h' : b + 8 ≤ a + len) :
    load64 (memset m a 0 len) b = 0 := by
  have hbytes : load64 (memset m a 0 len) b = leNat (fun _ => 0) 8 := by
    refine leNat_congr fun i hi => ?_
    have hin : memset m a 0 len (a + (b - a + i)) = 0 := memcpy_in (by omega)
    rwa [show a + (b - a + i) = b + i by omega] at hin
  rw [hbytes, leNat_zero]

end Pke
