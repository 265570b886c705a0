import Mathlib.Tactic

/-!
# Counters that wrap around

A counter of `w` bits has the count modulo `2 ^ w`.  When its wraps are counted as well, the two
numbers together are a counter of more bits.

* `join lo hi`: the wider counter, with `join_ofNat`;
* `ofNat_sub_ofNat`: the difference of two values of a counter is the number of counts between them.
-/

namespace Counter

variable {w v : ℕ}

/-- A counter, with the number of its wraps in front of it. -/
def join (lo : BitVec w) (hi : BitVec v) : BitVec v := lo.setWidth v ||| (hi <<< w)

theorem join_ofNat (n : ℕ) :
    join (BitVec.ofNat w n) (BitVec.ofNat v (n / 2 ^ w)) = BitVec.ofNat v n := by
  refine BitVec.eq_of_getLsbD_eq fun i hi => ?_
  rw [join, ← Nat.shiftRight_eq_div_pow]
  simp only [BitVec.getLsbD_or, BitVec.getLsbD_setWidth, BitVec.getLsbD_ofNat,
    BitVec.getLsbD_shiftLeft, Nat.testBit_shiftRight]
  by_cases hlow : i < w
  · simp [hi, hlow]
  · have hhigh : w + (i - w) = i := by
      omega
    have hlt : i - w < v := by
      omega
    simp [hi, hlow, hhigh, hlt]

theorem ofNat_sub_ofNat {m n : ℕ} (h : m ≤ n) :
    BitVec.ofNat w n - BitVec.ofNat w m = BitVec.ofNat w (n - m) := by
  conv_lhs => rw [← Nat.sub_add_cancel h, BitVec.ofNat_add]
  exact BitVec.add_sub_cancel _ _

end Counter
