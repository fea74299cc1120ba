import Mathlib.Data.Int.Bitwise
import Mathlib.Tactic.Common

/- Two's-complement xor of a signed index with a byte. Indices that differ only
   by such a step lie in one block of 256; division and remainder are floored. -/
namespace ByteXor

def xorByte (i : Int) (c : UInt8) : Int := Int.xor i c.toNat

/-- The conversion of `i xor j` to a byte. -/
def lowXor (i j : Int) : UInt8 := UInt8.ofNat (Int.xor i j % 256).toNat

theorem nat_xor_block (m n : Nat) (small : n < 256) : (m ^^^ n) / 256 = m / 256 := by
  have split : (m ^^^ n) / 2 ^ 8 = m / 2 ^ 8 ^^^ n / 2 ^ 8 := Nat.xor_div_two_pow
  have zero : n / 2 ^ 8 = 0 := Nat.div_eq_of_lt small
  rw [zero, Nat.xor_zero] at split
  exact split

@[simp] theorem xorByte_zero (i : Int) : xorByte i 0 = i := by
  cases i <;> simp [xorByte, Int.xor]

@[simp] theorem xorByte_cancel (i : Int) (c : UInt8) : xorByte (xorByte i c) c = i := by
  cases i <;> simp [xorByte, Int.xor]

@[simp] theorem xorByte_block (i : Int) (c : UInt8) : xorByte i c / 256 = i / 256 := by
  have small : c.toNat < 256 := c.toNat_lt
  cases i with
  | ofNat m =>
    have same := nat_xor_block m c.toNat small
    simp only [xorByte, Int.xor, Int.ofNat_eq_natCast]
    omega
  | negSucc m =>
    have same := nat_xor_block m c.toNat small
    simp only [xorByte, Int.xor, Int.negSucc_eq]
    omega

theorem xorByte_injective (i : Int) (c d : UInt8) (same : xorByte i c = xorByte i d) : c = d := by
  apply UInt8.toNat_inj.mp
  cases i with
  | ofNat m =>
    have nat : m ^^^ c.toNat = m ^^^ d.toNat := by simpa [xorByte, Int.xor] using same
    exact Nat.xor_right_injective nat
  | negSucc m =>
    have nat : m ^^^ c.toNat = m ^^^ d.toNat := by simpa [xorByte, Int.xor] using same
    exact Nat.xor_right_injective nat

theorem xorByte_nonneg (i : Int) (c : UInt8) : 0 ≤ xorByte i c ↔ 0 ≤ i := by
  have := xorByte_block i c
  omega

theorem lowXor_step (i : Int) (c : UInt8) : lowXor i (xorByte i c) = c := by
  have small : c.toNat < 256 := c.toNat_lt
  have inner : Int.xor i (xorByte i c) = c.toNat := by
    cases i <;> simp [xorByte, Int.xor]
  have low : ((c.toNat : Int) % 256).toNat = c.toNat := by omega
  rw [lowXor, inner, low, UInt8.ofNat_toNat]

theorem same_block_step (i j : Int) (hi : 0 ≤ i) (block : i / 256 = j / 256) :
    ∃ c : UInt8, xorByte i c = j := by
  obtain ⟨m, rfl⟩ := Int.eq_ofNat_of_zero_le hi
  obtain ⟨n, rfl⟩ := Int.eq_ofNat_of_zero_le (show 0 ≤ j by omega)
  have high : m / 256 = n / 256 := by omega
  have small : m ^^^ n < 256 := by
    have split : (m ^^^ n) / 2 ^ 8 = m / 2 ^ 8 ^^^ n / 2 ^ 8 := Nat.xor_div_two_pow
    have same : m / 2 ^ 8 = n / 2 ^ 8 := high
    rw [same, Nat.xor_self] at split
    exact (Nat.div_eq_zero_iff_lt (by decide)).mp split
  refine ⟨UInt8.ofNat (m ^^^ n), ?_⟩
  have value : (UInt8.ofNat (m ^^^ n)).toNat = m ^^^ n := UInt8.toNat_ofNat_of_lt' small
  simp only [xorByte, value, Int.xor]
  rw [← Nat.xor_assoc, Nat.xor_self, Nat.zero_xor]

end ByteXor
