import Mathlib.Tactic
import Teensy3.Lib.ByteMem

/-!
# Ones' complement sums

The Internet checksum adds half-words with end-around carry.  Here the carries are kept in a
natural number and folded in at the end:

* `foldOnce x` adds the part above the low 16 bits to them, and `fold x` does so until nothing is
  left above;
* `fold_modEq`, `fold_lt` and `fold_pos` say which number that is: the one between `1` and `65535`
  that is congruent to `x` modulo `65535`, or `0` for `0`;
* `wordSum m a n` is the sum of `n` half-words of a memory, and `wordSum_store16` says how it
  changes when one of them does;
* `onesSum ws` is the sum with end-around carry at each addition, and `toNat_onesSum` says that the
  carries may as well be folded in at the end;
* `hostSum m a len` is the sum over any number of bytes as a little-endian machine forms it,
  `netSum bs` the sum in network order, and `netSum_read` says that they are the same up to the
  exchange of the two bytes.
-/

namespace OnesComplement

open ByteMem

/-! ### Folding -/

def foldOnce (x : ℕ) : ℕ := x / 65536 + x % 65536

theorem foldOnce_lt {x : ℕ} (h : 65536 ≤ x) : foldOnce x < x := by
  unfold foldOnce
  omega

theorem foldOnce_of_lt {x : ℕ} (h : x < 65536) : foldOnce x = x := by
  unfold foldOnce
  omega

theorem foldOnce_pos {x : ℕ} (h : 0 < x) : 0 < foldOnce x := by
  unfold foldOnce
  omega

theorem foldOnce_modEq (x : ℕ) : foldOnce x ≡ x [MOD 65535] := by
  have hx : x = 65535 * (x / 65536) + foldOnce x := by
    unfold foldOnce
    omega
  calc foldOnce x ≡ 65535 * (x / 65536) + foldOnce x [MOD 65535] := by
        simp [Nat.ModEq]
    _ = x := hx.symm

/-- Fold until only 16 bits are left. -/
def fold (x : ℕ) : ℕ := if x < 65536 then x else fold (foldOnce x)
termination_by x
decreasing_by exact foldOnce_lt (by omega)

theorem fold_of_lt {x : ℕ} (h : x < 65536) : fold x = x := by
  rw [fold, if_pos h]

theorem fold_of_ge {x : ℕ} (h : ¬ x < 65536) : fold x = fold (foldOnce x) := by
  rw [fold, if_neg h]

theorem fold_lt (x : ℕ) : fold x < 65536 := by
  induction x using Nat.strong_induction_on with
  | _ x ih =>
    by_cases h : x < 65536
    · rwa [fold_of_lt h]
    · rw [fold_of_ge h]
      exact ih _ (foldOnce_lt (by omega))

theorem fold_modEq (x : ℕ) : fold x ≡ x [MOD 65535] := by
  induction x using Nat.strong_induction_on with
  | _ x ih =>
    by_cases h : x < 65536
    · rw [fold_of_lt h]
    · rw [fold_of_ge h]
      exact (ih _ (foldOnce_lt (by omega))).trans (foldOnce_modEq x)

theorem fold_pos {x : ℕ} (h : 0 < x) : 0 < fold x := by
  induction x using Nat.strong_induction_on with
  | _ x ih =>
    by_cases hx : x < 65536
    · rwa [fold_of_lt hx]
    · rw [fold_of_ge hx]
      exact ih _ (foldOnce_lt (by omega)) (foldOnce_pos h)

/-- Folding once more, or once less, makes no difference. -/
theorem fold_foldOnce (x : ℕ) : fold (foldOnce x) = fold x := by
  by_cases h : x < 65536
  · rw [foldOnce_of_lt h]
  · rw [fold_of_ge h]

/-- What folds to all ones. -/
theorem fold_eq_ones_iff (x : ℕ) : fold x = 65535 ↔ 0 < x ∧ x ≡ 0 [MOD 65535] := by
  constructor
  · intro h
    refine ⟨Nat.pos_of_ne_zero ?_, ?_⟩
    · rintro rfl
      rw [fold_of_lt (by omega)] at h
      omega
    · have hmod := fold_modEq x
      rw [h] at hmod
      exact hmod.symm.trans (by decide)
  · rintro ⟨hpos, hmod⟩
    have hlt := fold_lt x
    have hfpos := fold_pos hpos
    obtain ⟨k, hk⟩ := (Nat.modEq_zero_iff_dvd).1 ((fold_modEq x).trans hmod)
    have hk1 : k = 1 := by
      have hk2 : k < 2 := by omega
      have hk0 : k ≠ 0 := by
        rintro rfl
        omega
      omega
    rw [hk, hk1]

/-- **The checksum rule.** A sum together with its complement folds to all ones. -/
theorem fold_add_complement (x : ℕ) : fold (x + (65535 - fold x)) = 65535 := by
  have hlt := fold_lt x
  refine (fold_eq_ones_iff _).2 ⟨?_, ?_⟩
  · rcases Nat.eq_zero_or_pos x with rfl | h
    · rw [fold_of_lt (by omega)]
      omega
    · omega
  · calc x + (65535 - fold x) ≡ fold x + (65535 - fold x) [MOD 65535] :=
          (fold_modEq x).symm.add_right _
      _ = 65535 := by omega
      _ ≡ 0 [MOD 65535] := by decide

/-- What `fold` depends on. -/
theorem fold_congr {x y : ℕ} (hmod : x ≡ y [MOD 65535]) (hzero : x = 0 ↔ y = 0) :
    fold x = fold y := by
  by_cases hx : x = 0
  · rw [hx, hzero.1 hx]
  · have hxpos := fold_pos (Nat.pos_of_ne_zero hx)
    have hypos := fold_pos (Nat.pos_of_ne_zero (mt hzero.2 hx))
    have hxlt := fold_lt x
    have hylt := fold_lt y
    have h : fold x ≡ fold y [MOD 65535] := (fold_modEq x).trans (hmod.trans (fold_modEq y).symm)
    rw [Nat.ModEq] at h
    omega

theorem fold_eq_zero_iff {x : ℕ} : fold x = 0 ↔ x = 0 := by
  constructor
  · intro h
    by_contra hx
    have := fold_pos (Nat.pos_of_ne_zero hx)
    omega
  · rintro rfl
    exact fold_of_lt (by omega)

/-- A part of a sum may be folded first. -/
theorem fold_fold_add (x y : ℕ) : fold (fold x + y) = fold (x + y) := by
  refine fold_congr ((fold_modEq x).add_right y) ?_
  rw [Nat.add_eq_zero_iff, Nat.add_eq_zero_iff, fold_eq_zero_iff]

/-! ### Sums of half-words -/

/-- The sum of `n` half-words from address `a` on. -/
def wordSum (m : ℕ → Byte) : (a n : ℕ) → ℕ
  | _, 0 => 0
  | a, n + 1 => (load16 m a).toNat + wordSum m (a + 2) n

theorem wordSum_congr {m m' : ℕ → Byte} {a n : ℕ} (h : ∀ i < 2 * n, m (a + i) = m' (a + i)) :
    wordSum m a n = wordSum m' a n := by
  induction n generalizing a with
  | zero => rfl
  | succ n ih =>
    have hword : load16 m a = load16 m' a := by
      rw [load16, load16, h 1 (by omega), show m a = m' a from h 0 (by omega)]
    rw [wordSum, wordSum, hword, ih]
    intro i hi
    have := h (2 + i) (by omega)
    rwa [← Nat.add_assoc] at this

/-- Replacing a half-word of the sum. -/
theorem wordSum_store16 {m : ℕ → Byte} {a k n : ℕ} (v : BitVec 16) (h : k < n) :
    wordSum (store16 m (a + 2 * k) v) a n + (load16 m (a + 2 * k)).toNat =
      wordSum m a n + v.toNat := by
  induction n generalizing a k with
  | zero => omega
  | succ n ih =>
    rw [wordSum, wordSum]
    cases k with
    | zero =>
      have hrest : wordSum (store16 m a v) (a + 2) n = wordSum m (a + 2) n :=
        wordSum_congr fun i _ => store16_of_ne (by omega)
      rw [Nat.mul_zero, Nat.add_zero, load16_store16, hrest]
      omega
    | succ k =>
      have hfirst : load16 (store16 m (a + 2 * (k + 1)) v) a = load16 m a := by
        rw [load16, load16, store16_of_ne (by omega), store16_of_ne (by omega)]
      have := ih (a := a + 2) (k := k) (by omega)
      rw [show a + 2 + 2 * k = a + 2 * (k + 1) by omega] at this
      rw [hfirst]
      omega

/-! ### Sums over bytes -/

/-- The sum of the half-words of `len` bytes from address `a` on; an odd byte at the end counts as
the low byte of a half-word. -/
def hostSum (m : ℕ → Byte) (a len : ℕ) : ℕ :=
  wordSum m a (len / 2) + if len % 2 = 1 then (m (a + (len - 1))).toNat else 0

theorem hostSum_add_two (m : ℕ → Byte) (a len : ℕ) :
    hostSum m a (len + 2) = (load16 m a).toNat + hostSum m (a + 2) len := by
  rw [hostSum, hostSum, show (len + 2) / 2 = len / 2 + 1 by omega, wordSum,
    show (len + 2) % 2 = len % 2 by omega, Nat.add_assoc]
  congr 2
  by_cases hodd : len % 2 = 1
  · rw [if_pos hodd, if_pos hodd, show a + (len + 2 - 1) = a + 2 + (len - 1) by omega]
  · rw [if_neg hodd, if_neg hodd]

theorem hostSum_congr {m m' : ℕ → Byte} {a len : ℕ} (h : ∀ i < len, m (a + i) = m' (a + i)) :
    hostSum m a len = hostSum m' a len := by
  rw [hostSum, hostSum, wordSum_congr fun i hi => h i (by omega)]
  by_cases hodd : len % 2 = 1
  · rw [if_pos hodd, if_pos hodd, h (len - 1) (by omega)]
  · rw [if_neg hodd, if_neg hodd]

/-- Replacing a half-word of the sum. -/
theorem hostSum_store16 {m : ℕ → Byte} {a k len : ℕ} (v : BitVec 16) (h : 2 * k + 2 ≤ len) :
    hostSum (store16 m (a + 2 * k) v) a len + (load16 m (a + 2 * k)).toNat =
      hostSum m a len + v.toNat := by
  have hwords := wordSum_store16 (m := m) (a := a) v (show k < len / 2 by omega)
  unfold hostSum
  by_cases hodd : len % 2 = 1
  · rw [if_pos hodd, if_pos hodd, store16_of_ne (by omega)]
    omega
  · rw [if_neg hodd, if_neg hodd]
    omega

/-- The sum of the half-words of a list of bytes in network order; an odd byte at the end counts
as the high byte of a half-word. -/
def netSum : List Byte → ℕ
  | hi :: lo :: bs => 256 * hi.toNat + lo.toNat + netSum bs
  | [hi] => 256 * hi.toNat
  | [] => 0

theorem netSum_append {bs cs : List Byte} (h : bs.length % 2 = 0) :
    netSum (bs ++ cs) = netSum bs + netSum cs := by
  induction bs using netSum.induct with
  | case1 hi lo bs ih =>
    have hbs : bs.length % 2 = 0 := by
      simp only [List.length_cons] at h
      omega
    rw [List.cons_append, List.cons_append, netSum, netSum, ih hbs, ← Nat.add_assoc]
  | case2 hi => simp at h
  | case3 => simp [netSum]

theorem read_add_two (m : ℕ → Byte) (a len : ℕ) :
    read m a (len + 2) = m a :: m (a + 1) :: read m (a + 2) len := by
  rw [Nat.add_comm, read_add]
  simp [ByteMem.read, List.range_succ]

/-- **Byte order.** Modulo `65535`, the sum in network order is the sum of the machine with its
bytes exchanged. -/
theorem netSum_read (m : ℕ → Byte) (a len : ℕ) :
    netSum (read m a len) ≡ 256 * hostSum m a len [MOD 65535] := by
  induction len using Nat.twoStepInduction generalizing a with
  | zero => rfl
  | one => simp [ByteMem.read, netSum, hostSum, wordSum, Nat.ModEq]
  | more len ih _ =>
    rw [read_add_two, netSum, hostSum_add_two, toNat_load16, Nat.mul_add]
    refine Nat.ModEq.add ?_ (ih (a + 2))
    -- `256 * 256` is `1`
    rw [Nat.ModEq]
    omega

/-- The exchange of the bytes loses nothing. -/
theorem mul_256_modEq_zero (x : ℕ) : 256 * x ≡ 0 [MOD 65535] ↔ x ≡ 0 [MOD 65535] := by
  simp only [Nat.ModEq]
  omega

/-! ### End-around carry -/

/-- Ones' complement addition: a carry out of the half-word is added to it. -/
def onesAdd (x y : BitVec 16) : BitVec 16 :=
  if x.toNat + y.toNat < 65536 then x + y else x + y + 1

/-- The ones' complement sum of some half-words. -/
def onesSum (ws : List (BitVec 16)) : BitVec 16 := ws.foldl onesAdd 0

theorem toNat_onesAdd (x y : BitVec 16) : (onesAdd x y).toNat = fold (x.toNat + y.toNat) := by
  have hx := x.isLt
  have hy := y.isLt
  unfold onesAdd
  split_ifs with h
  · rw [fold_of_lt h, BitVec.toNat_add, Nat.mod_eq_of_lt h]
  · rw [fold_of_ge h, foldOnce, fold_of_lt (by omega), BitVec.toNat_add, BitVec.toNat_add]
    have hone : (1 : BitVec 16).toNat = 1 := rfl
    omega

/-- The carries may as well be kept and folded in at the end. -/
theorem toNat_onesSum (ws : List (BitVec 16)) :
    (onesSum ws).toNat = fold ((ws.map BitVec.toNat).sum) := by
  have hfoldl : ∀ x : BitVec 16,
      (ws.foldl onesAdd x).toNat = fold (x.toNat + (ws.map BitVec.toNat).sum) := by
    induction ws with
    | nil =>
      intro x
      exact (fold_of_lt x.isLt).symm
    | cons w ws ih =>
      intro x
      rw [List.foldl_cons, ih, toNat_onesAdd, fold_fold_add, List.map_cons, List.sum_cons,
        Nat.add_assoc]
  exact (hfoldl 0).trans (congrArg fold (Nat.zero_add _))

/-- The half-words of a list of bytes, low byte first; an odd byte at the end is padded with zero. -/
def halfWords : List Byte → List (BitVec 16)
  | lo :: hi :: bs => (hi ++ lo) :: halfWords bs
  | [lo] => [lo.setWidth 16]
  | [] => []

theorem sum_halfWords_read (m : ℕ → Byte) (a len : ℕ) :
    ((halfWords (read m a len)).map BitVec.toNat).sum = hostSum m a len := by
  induction len using Nat.twoStepInduction generalizing a with
  | zero => rfl
  | one =>
    have hlt : (m a).toNat < 65536 := (m a).isLt.trans (by decide)
    simp [ByteMem.read, halfWords, hostSum, wordSum, Nat.mod_eq_of_lt hlt]
  | more len ih _ =>
    rw [read_add_two, halfWords, List.map_cons, List.sum_cons, ih, hostSum_add_two, load16]

end OnesComplement
