import Mathlib

/-!
# Host-order integers as bytes

The server copies integers into and out of its buffers with `memcpy`, so every multi-byte
integer on the wire and in the log is in host order. The model fixes the host to be
little-endian, as the wire protocol of the spec requires.

* `leBytes w n`: the `w` low-order bytes of `n`, least significant first;
* `leValue`: the number a list of bytes denotes, read back the same way;
* `u32Bytes`, `i64Bytes`, `dblBytes`: the bytes `append_u32`, `append_i64` and `append_dbl`
  copy for a `uint32_t`, an `int64_t` and a `double`.
-/

namespace KvServer

/-- The `w` low-order bytes of `n`, least significant first. -/
def leBytes : Nat → Nat → List UInt8
  | 0, _ => []
  | w + 1, n => UInt8.ofNat n :: leBytes w (n / 256)

/-- The bytes of an ASCII string literal such as `"get"`. -/
def ascii (s : String) : List UInt8 := s.toList.map Char.toUInt8

/-- The number denoted by little-endian bytes. -/
def leValue : List UInt8 → Nat
  | [] => 0
  | b :: bs => b.toNat + 256 * leValue bs

/-- An IEEE-754 binary64 value, kept as the bit pattern `memcpy` moves around. -/
structure F64 where
  bits : UInt64
  deriving DecidableEq, Repr

/-- The bytes of a `uint32_t`. -/
def u32Bytes (v : UInt32) : List UInt8 := leBytes 4 v.toNat

/-- The bytes of an `int64_t`, in two's complement. -/
def i64Bytes (v : Int) : List UInt8 := leBytes 8 (v % 2 ^ 64).toNat

/-- The bytes of a `double`. -/
def dblBytes (d : F64) : List UInt8 := leBytes 8 d.bits.toNat

/-- `memcpy(&out, cur, 4)` into a `uint32_t`. -/
def readU32Bytes (bs : List UInt8) : UInt32 := UInt32.ofNat (leValue bs)

@[simp] theorem leBytes_length (w n : Nat) : (leBytes w n).length = w := by
  induction w generalizing n with
  | zero => rfl
  | succ w ih => simp [leBytes, ih]

@[simp] theorem u32Bytes_length (v : UInt32) : (u32Bytes v).length = 4 := by
  simp [u32Bytes]

@[simp] theorem i64Bytes_length (v : Int) : (i64Bytes v).length = 8 := by
  simp [i64Bytes]

@[simp] theorem dblBytes_length (d : F64) : (dblBytes d).length = 8 := by
  simp [dblBytes]

@[simp] theorem UInt8.toNat_ofNat_mod (n : Nat) : (UInt8.ofNat n).toNat = n % 256 := rfl

theorem leValue_leBytes (w n : Nat) : leValue (leBytes w n) = n % 256 ^ w := by
  induction w generalizing n with
  | zero => simp [leBytes, leValue, Nat.mod_one]
  | succ w ih =>
    simp only [leBytes, leValue, ih, UInt8.toNat_ofNat_mod, Nat.pow_succ']
    exact Nat.mod_mul.symm

theorem leValue_lt (bs : List UInt8) : leValue bs < 256 ^ bs.length := by
  induction bs with
  | nil => simp [leValue]
  | cons b bs ih =>
    simp only [leValue, List.length_cons, Nat.pow_succ']
    have := UInt8.toNat_lt_size b
    have : 256 * leValue bs + 256 ≤ 256 * 256 ^ bs.length := by omega
    simp only [UInt8.size] at *
    omega

theorem leBytes_leValue (bs : List UInt8) : leBytes bs.length (leValue bs) = bs := by
  induction bs with
  | nil => rfl
  | cons b bs ih =>
    have hb : b.toNat < 256 := UInt8.toNat_lt_size b
    have hdiv : (b.toNat + 256 * leValue bs) / 256 = leValue bs := by omega
    have hmod : UInt8.ofNat (b.toNat + 256 * leValue bs) = b :=
      UInt8.toNat.inj (by simp only [UInt8.toNat_ofNat_mod]; omega)
    simp only [List.length_cons, leBytes, leValue, hdiv, ih, hmod]

/-- Reading back the bytes of a `uint32_t` gives the value. -/
@[simp] theorem readU32Bytes_u32Bytes (v : UInt32) : readU32Bytes (u32Bytes v) = v := by
  have hv : v.toNat < 256 ^ 4 := UInt32.toNat_lt_size v
  simp only [readU32Bytes, u32Bytes, leValue_leBytes, Nat.mod_eq_of_lt hv]
  exact UInt32.toNat.inj (UInt32.toNat_ofNat_of_lt (UInt32.toNat_lt_size v))

/-- Four bytes are the bytes of the `uint32_t` they denote. -/
theorem u32Bytes_readU32Bytes {bs : List UInt8} (h : bs.length = 4) :
    u32Bytes (readU32Bytes bs) = bs := by
  have hlt := leValue_lt bs
  rw [h] at hlt
  have hval : (readU32Bytes bs).toNat = leValue bs := UInt32.toNat_ofNat_of_lt hlt
  rw [u32Bytes, hval, ← h, leBytes_leValue]

end KvServer
