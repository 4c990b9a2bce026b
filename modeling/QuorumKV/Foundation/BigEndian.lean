import Mathlib.Algebra.Order.Ring.Nat
import Mathlib.Data.Nat.ModEq
import Mathlib.Tactic.Ring

/-!
# Big-endian integers

Fixed-width big-endian byte strings, as `encoding/binary` writes and reads them.
-/

namespace QuorumKV.Foundation

/-- The low `width` bytes of `n`, most significant first. -/
def toBigEndian : Nat → Nat → List UInt8
  | 0, _ => []
  | width + 1, n => UInt8.ofNat (n / 256 ^ width) :: toBigEndian width n

def fromBigEndian (bytes : List UInt8) : Nat :=
  bytes.foldl (fun value byte => value * 256 + byte.toNat) 0

@[simp] theorem toBigEndian_length (width n : Nat) : (toBigEndian width n).length = width := by
  induction width with
  | zero => rfl
  | succ width ih => simp [toBigEndian, ih]

private theorem foldl_toBigEndian (width n start : Nat) :
    (toBigEndian width n).foldl (fun value byte => value * 256 + byte.toNat) start =
      start * 256 ^ width + n % 256 ^ width := by
  induction width generalizing start with
  | zero => simp [toBigEndian, Nat.mod_one]
  | succ width ih =>
      rw [toBigEndian, List.foldl_cons, ih, Nat.mod_pow_succ]
      simp only [UInt8.toNat_ofNat']
      ring

theorem fromBigEndian_toBigEndian (width n : Nat) :
    fromBigEndian (toBigEndian width n) = n % 256 ^ width := by
  simp [fromBigEndian, foldl_toBigEndian]

private theorem foldl_start (bytes : List UInt8) (start : Nat) :
    bytes.foldl (fun value byte => value * 256 + byte.toNat) start =
      start * 256 ^ bytes.length + fromBigEndian bytes := by
  induction bytes generalizing start with
  | nil => simp [fromBigEndian]
  | cons byte bytes ih =>
      rw [fromBigEndian, List.foldl_cons, List.foldl_cons, ih, ih (0 * 256 + byte.toNat),
        List.length_cons]
      ring

theorem fromBigEndian_cons (byte : UInt8) (bytes : List UInt8) :
    fromBigEndian (byte :: bytes) = byte.toNat * 256 ^ bytes.length + fromBigEndian bytes := by
  rw [fromBigEndian, List.foldl_cons, foldl_start, Nat.zero_mul, Nat.zero_add]

theorem fromBigEndian_lt (bytes : List UInt8) : fromBigEndian bytes < 256 ^ bytes.length := by
  induction bytes with
  | nil => simp [fromBigEndian]
  | cons byte bytes ih =>
      have hbyte : byte.toNat + 1 ≤ 256 := byte.toNat_lt
      calc fromBigEndian (byte :: bytes)
          = byte.toNat * 256 ^ bytes.length + fromBigEndian bytes := fromBigEndian_cons byte bytes
        _ < (byte.toNat + 1) * 256 ^ bytes.length := by rw [Nat.succ_mul]; omega
        _ ≤ 256 * 256 ^ bytes.length := Nat.mul_le_mul_right _ hbyte
        _ = 256 ^ (byte :: bytes).length := by rw [List.length_cons, Nat.pow_succ]; ring

theorem toBigEndian_add_mul (width extra n high : Nat) :
    toBigEndian width (high * 256 ^ (width + extra) + n) = toBigEndian width n := by
  induction width generalizing extra with
  | zero => rfl
  | succ width ih =>
      have hsplit : high * 256 ^ (width + 1 + extra) + n =
          high * 256 ^ (extra + 1) * 256 ^ width + n := by ring
      rw [toBigEndian, toBigEndian]
      congr 1
      · rw [hsplit, Nat.add_comm, Nat.add_mul_div_right _ _ (Nat.pow_pos (by omega)),
          ← UInt8.toNat_inj, UInt8.toNat_ofNat', UInt8.toNat_ofNat']
        rw [Nat.pow_succ, ← Nat.mul_assoc, Nat.add_mul_mod_self_right]
      · have := ih (extra + 1)
        rwa [show width + (extra + 1) = width + 1 + extra by omega] at this

theorem toBigEndian_fromBigEndian (bytes : List UInt8) :
    toBigEndian bytes.length (fromBigEndian bytes) = bytes := by
  induction bytes with
  | nil => rfl
  | cons byte bytes ih =>
      rw [List.length_cons, toBigEndian, fromBigEndian_cons]
      have hdiv : (byte.toNat * 256 ^ bytes.length + fromBigEndian bytes) / 256 ^ bytes.length =
          byte.toNat := by
        rw [Nat.add_comm, Nat.add_mul_div_right _ _ (Nat.pow_pos (by omega)),
          Nat.div_eq_of_lt (fromBigEndian_lt bytes), Nat.zero_add]
      rw [hdiv, UInt8.ofNat_toNat]
      have := toBigEndian_add_mul bytes.length 0 (fromBigEndian bytes) byte.toNat
      rw [Nat.add_zero] at this
      rw [this, ih]

def putUint32 (n : UInt32) : List UInt8 := toBigEndian 4 n.toNat

def putUint64 (n : UInt64) : List UInt8 := toBigEndian 8 n.toNat

def uint32 (bytes : List UInt8) : UInt32 := UInt32.ofNat (fromBigEndian bytes)

def uint64 (bytes : List UInt8) : UInt64 := UInt64.ofNat (fromBigEndian bytes)

@[simp] theorem putUint32_length (n : UInt32) : (putUint32 n).length = 4 :=
  toBigEndian_length 4 _

@[simp] theorem putUint64_length (n : UInt64) : (putUint64 n).length = 8 :=
  toBigEndian_length 8 _

@[simp] theorem uint32_putUint32 (n : UInt32) : uint32 (putUint32 n) = n := by
  apply UInt32.toNat_inj.mp
  have hlt := n.toNat_lt
  rw [uint32, putUint32, fromBigEndian_toBigEndian, UInt32.toNat_ofNat']
  omega

@[simp] theorem uint64_putUint64 (n : UInt64) : uint64 (putUint64 n) = n := by
  apply UInt64.toNat_inj.mp
  have hlt := n.toNat_lt
  rw [uint64, putUint64, fromBigEndian_toBigEndian, UInt64.toNat_ofNat']
  omega

theorem putUint32_uint32 {bytes : List UInt8} (h : bytes.length = 4) :
    putUint32 (uint32 bytes) = bytes := by
  have hlt := fromBigEndian_lt bytes
  rw [h] at hlt
  rw [putUint32, uint32, UInt32.toNat_ofNat', Nat.mod_eq_of_lt (by omega), ← h,
    toBigEndian_fromBigEndian]

theorem putUint64_uint64 {bytes : List UInt8} (h : bytes.length = 8) :
    putUint64 (uint64 bytes) = bytes := by
  have hlt := fromBigEndian_lt bytes
  rw [h] at hlt
  rw [putUint64, uint64, UInt64.toNat_ofNat', Nat.mod_eq_of_lt (by omega), ← h,
    toBigEndian_fromBigEndian]

end QuorumKV.Foundation
