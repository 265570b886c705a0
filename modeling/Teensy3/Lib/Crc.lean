import Mathlib.Algebra.CharP.Two
import Mathlib.Algebra.Polynomial.Div
import Mathlib.Algebra.Polynomial.OfFn
import Mathlib.Data.ZMod.Basic
import Mathlib.Tactic

/-!
# Cyclic redundancy checks

A register of `w` bits divides a stream of bits by a polynomial of degree `w` over the field with two
elements, of which `poly` has the coefficients below the leading one.

* `feed poly r bits`: the register that shifts to the left, with the first bit of the stream first;
* `feedRight poly r bits`: the register that shifts to the right, with `feedRight_reverse`, which says
  that the two are mirror images of each other;
* `bits v`, `bitsMsb v`: the bits of a value as a stream, from either end;
* `toPoly`, `ofBits`, `generator`: registers, streams and `poly` as polynomials, and `remainder`, the
  remainder of the division;
* `toPoly_feed`: a register divides.
-/

namespace Crc

variable {w : ℕ}

/-! ### Registers -/

/-- One bit into a register that shifts to the left. -/
def shift (poly r : BitVec w) (b : Bool) : BitVec w :=
  (r <<< 1) ^^^ (if (r.msb ^^ b) = true then poly else 0#w)

/-- One bit into a register that shifts to the right. -/
def shiftRight (poly r : BitVec w) (b : Bool) : BitVec w :=
  (r >>> 1) ^^^ (if (r.getLsbD 0 ^^ b) = true then poly else 0#w)

/-- A stream of bits, the first one first. -/
def feed (poly r : BitVec w) (bits : List Bool) : BitVec w := bits.foldl (shift poly) r

def feedRight (poly r : BitVec w) (bits : List Bool) : BitVec w := bits.foldl (shiftRight poly) r

@[simp] theorem feed_nil (poly r : BitVec w) : feed poly r [] = r := rfl

@[simp] theorem feed_cons (poly r : BitVec w) (b : Bool) (bits : List Bool) :
    feed poly r (b :: bits) = feed poly (shift poly r b) bits := rfl

theorem feed_append (poly r : BitVec w) (bits bits' : List Bool) :
    feed poly r (bits ++ bits') = feed poly (feed poly r bits) bits' :=
  List.foldl_append

theorem feedRight_append (poly r : BitVec w) (bits bits' : List Bool) :
    feedRight poly r (bits ++ bits') = feedRight poly (feedRight poly r bits) bits' :=
  List.foldl_append

/-- The bits of a value from the least significant one on. -/
def bits (v : BitVec w) : List Bool := (List.range w).map v.getLsbD

/-- The bits of a value from the most significant one on. -/
def bitsMsb (v : BitVec w) : List Bool := (List.range w).map v.getMsbD

theorem bitsMsb_reverse (v : BitVec w) : bitsMsb v.reverse = bits v := by
  simp [bitsMsb, bits, BitVec.getMsbD_reverse]

/-- The bits of the low part of a value come first. -/
theorem bits_append {n : ℕ} (v : BitVec w) (v' : BitVec n) : bits (v ++ v') = bits v' ++ bits v := by
  have hrange : List.range (w + n) = List.range n ++ (List.range w).map (n + ·) := by
    rw [Nat.add_comm, List.range_add]
  rw [bits, hrange, List.map_append, List.map_map]
  congr 1
  · refine List.map_congr_left fun i hi => ?_
    rw [BitVec.getLsbD_append, if_pos (List.mem_range.1 hi)]
  · refine List.map_congr_left fun i _ => ?_
    simp [BitVec.getLsbD_append]

/-! ### Reflection -/

theorem reverse_xor (x y : BitVec w) : (x ^^^ y).reverse = x.reverse ^^^ y.reverse := by
  ext i hi
  simp [BitVec.getElem_reverse, BitVec.getMsbD_xor]

theorem reverse_shiftLeft_one (x : BitVec w) : (x <<< 1).reverse = x.reverse >>> 1 := by
  ext i hi
  simp [BitVec.getElem_reverse, BitVec.getLsbD_reverse, BitVec.getMsbD_shiftLeft, Nat.add_comm]

/-- A step of the one register is a step of the other one. -/
theorem reverse_shift (poly r : BitVec w) (b : Bool) :
    (shift poly r b).reverse = shiftRight poly.reverse r.reverse b := by
  have hmsb : r.reverse.getLsbD 0 = r.msb := by
    rw [BitVec.getLsbD_reverse, BitVec.msb]
  rw [shift, shiftRight, reverse_xor, reverse_shiftLeft_one, hmsb]
  split
  · rfl
  · rw [BitVec.reverse_eq_zero_iff.2 rfl]

/-- **Reflection.** -/
theorem feedRight_reverse (poly r : BitVec w) (bits : List Bool) :
    feedRight poly.reverse r.reverse bits = (feed poly r bits).reverse := by
  induction bits generalizing r with
  | nil => rfl
  | cons b bits ih =>
    rw [feed_cons, ← ih, reverse_shift]
    rfl

/-! ### Division of polynomials -/

noncomputable section Polynomials

open Polynomial

/-- A bit as a coefficient. -/
def coeffOf (b : Bool) : ZMod 2 := if b then 1 else 0

@[simp] theorem coeffOf_false : coeffOf false = 0 := rfl

@[simp] theorem coeffOf_true : coeffOf true = 1 := rfl

theorem coeffOf_xor (b b' : Bool) : coeffOf (b ^^ b') = coeffOf b + coeffOf b' := by
  cases b <;> cases b' <;> decide

/-- The bits of a register as coefficients. -/
def toPoly (r : BitVec w) : (ZMod 2)[X] := ofFn w fun i => coeffOf (r.getLsbD i)

/-- A stream as a polynomial, with the first bit as the leading coefficient. -/
def ofBits : List Bool → (ZMod 2)[X]
  | [] => 0
  | b :: bits => C (coeffOf b) * X ^ bits.length + ofBits bits

/-- The polynomial by which a register divides. -/
def generator (poly : BitVec w) : (ZMod 2)[X] := X ^ w + toPoly poly

/-- What is left of the start value `init` and the stream, with `w` zeros after it. -/
def remainder (poly init : BitVec w) (bits : List Bool) : (ZMod 2)[X] :=
  (toPoly init * X ^ bits.length + ofBits bits * X ^ w) %ₘ generator poly

theorem coeff_toPoly (r : BitVec w) (i : ℕ) : (toPoly r).coeff i = coeffOf (r.getLsbD i) := by
  by_cases hi : i < w
  · rw [toPoly, ofFn_coeff_eq_val_of_lt _ hi]
  · rw [toPoly, ofFn_coeff_eq_zero_of_ge _ (by omega), BitVec.getLsbD_of_ge _ _ (by omega)]
    rfl

theorem toPoly_injective : Function.Injective (toPoly : BitVec w → (ZMod 2)[X]) := by
  intro r r' h
  refine BitVec.eq_of_getLsbD_eq fun i _ => ?_
  have hcoeff : coeffOf (r.getLsbD i) = coeffOf (r'.getLsbD i) := by
    rw [← coeff_toPoly, ← coeff_toPoly, h]
  revert hcoeff
  cases r.getLsbD i <;> cases r'.getLsbD i <;> decide

theorem degree_toPoly_lt (r : BitVec w) : (toPoly r).degree < w := ofFn_degree_lt _

theorem toPoly_xor (r r' : BitVec w) : toPoly (r ^^^ r') = toPoly r + toPoly r' := by
  ext i
  rw [coeff_add, coeff_toPoly, coeff_toPoly, coeff_toPoly, BitVec.getLsbD_xor, coeffOf_xor]

theorem toPoly_zero : toPoly (0#w) = 0 := by
  ext i
  simp [coeff_toPoly]

/-- Shifting multiplies by `X`, except that the leading bit is lost. -/
theorem toPoly_shiftLeft (r : BitVec w) (hw : 0 < w) :
    toPoly (r <<< 1) = X * toPoly r + C (coeffOf r.msb) * X ^ w := by
  ext i
  rw [coeff_add, coeff_toPoly, coeff_C_mul_X_pow]
  cases i with
  | zero => simp [hw.ne]
  | succ i =>
    rw [coeff_X_mul, coeff_toPoly, BitVec.getLsbD_shiftLeft]
    by_cases hi : i + 1 < w
    · simp [hi, hi.ne]
    by_cases hi' : i + 1 = w
    · subst hi'
      have hmsb : r.msb = r.getLsbD i := by
        rw [BitVec.msb_eq_getLsbD_last]
        rfl
      simp [hmsb, CharTwo.add_self_eq_zero]
    · simp [hi, hi', BitVec.getLsbD_of_ge r i (by omega)]

/-- A step multiplies by `X`, adds the bit, and takes away the generator as often as needed. -/
theorem toPoly_shift (poly r : BitVec w) (hw : 0 < w) (b : Bool) :
    toPoly (shift poly r b) = X * toPoly r + C (coeffOf b) * X ^ w +
      C (coeffOf (r.msb ^^ b)) * generator poly := by
  have htwo : ∀ p : (ZMod 2)[X], p + p = 0 := CharTwo.add_self_eq_zero
  have hpoly : toPoly (if (r.msb ^^ b) = true then poly else 0#w) =
      C (coeffOf (r.msb ^^ b)) * toPoly poly := by
    cases r.msb ^^ b with
    | false => simp [toPoly_zero]
    | true => simp
  rw [shift, toPoly_xor, hpoly, toPoly_shiftLeft r hw, generator, coeffOf_xor, C_add]
  linear_combination -htwo (C (coeffOf b) * X ^ w)

theorem degree_generator (poly : BitVec w) : (generator poly).degree = w := by
  rw [generator, degree_add_eq_left_of_degree_lt, degree_X_pow]
  rw [degree_X_pow]
  exact degree_toPoly_lt poly

theorem monic_generator (poly : BitVec w) : (generator poly).Monic :=
  monic_X_pow_add (degree_toPoly_lt poly)

/-- What a register has divided off is a multiple of the generator. -/
theorem toPoly_feed_add (poly : BitVec w) (hw : 0 < w) (bits : List Bool) (r : BitVec w) :
    ∃ q, toPoly (feed poly r bits) + generator poly * q =
      toPoly r * X ^ bits.length + ofBits bits * X ^ w := by
  induction bits generalizing r with
  | nil => exact ⟨0, by simp [ofBits]⟩
  | cons b bits ih =>
    obtain ⟨q, hq⟩ := ih (shift poly r b)
    refine ⟨q - C (coeffOf (r.msb ^^ b)) * X ^ bits.length, ?_⟩
    rw [toPoly_shift poly r hw] at hq
    rw [feed_cons, ofBits, List.length_cons]
    linear_combination hq

/-- **Division.** A register has the remainder of what it has been fed. -/
theorem toPoly_feed (poly : BitVec w) (hw : 0 < w) (r : BitVec w) (bits : List Bool) :
    toPoly (feed poly r bits) = remainder poly r bits := by
  obtain ⟨q, hq⟩ := toPoly_feed_add poly hw bits r
  have hdegree : (toPoly (feed poly r bits)).degree < (generator poly).degree := by
    rw [degree_generator]
    exact degree_toPoly_lt _
  exact (div_modByMonic_unique q _ (monic_generator poly) ⟨hq, hdegree⟩).2.symm

end Polynomials

end Crc
