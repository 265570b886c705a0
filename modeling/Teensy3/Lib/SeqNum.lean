import Mathlib.Data.BitVec
import Mathlib.Tactic

/-!
# Sequence numbers

Protocols number the bytes of a stream without end by words of `w` bits, and compare two numbers by
the sign of their difference.  This is right as long as the positions they stand for are less than
`2 ^ (w - 1)` apart.

* `SeqNo σ`: what a protocol does with sequence numbers;
* the instances for `BitVec w`, as code has them, and for `ℤ`, the positions themselves;
* `near`: two numbers with a difference up to some bound;
* `embed w : ℤ → BitVec w`, with one lemma for each operation: `embed_add`, `lt_embed`, `leq_embed`,
  `gt_embed`, `geq_embed`, `within_embed`, `diff_embed`, `embed_inj`;
* `lift b n`: the position of the number `n` that is nearest to the position `b`, with `near_lift`.
-/

/-- The operations on sequence numbers: moving one, the difference as a signed number, the
comparisons by its sign, and, for the difference as an unsigned number, its value and the comparison
with a bound. -/
class SeqNo (σ : Type) where
  add : σ → ℤ → σ
  dist : σ → σ → ℤ
  lt : σ → σ → Bool
  leq : σ → σ → Bool
  gt : σ → σ → Bool
  geq : σ → σ → Bool
  diff : σ → σ → ℕ
  within : σ → σ → ℕ → Bool

namespace SeqNo

instance (w : ℕ) : SeqNo (BitVec w) where
  add a z := a + BitVec.ofInt w z
  dist a b := (a - b).toInt
  lt a b := decide ((a - b).toInt < 0)
  leq a b := decide ((a - b).toInt ≤ 0)
  gt a b := decide (0 < (a - b).toInt)
  geq a b := decide (0 ≤ (a - b).toInt)
  diff a b := (a - b).toNat
  within a b n := decide ((a - b).toNat ≤ n)

instance : SeqNo ℤ where
  add a z := a + z
  dist a b := a - b
  lt a b := decide (a < b)
  leq a b := decide (a ≤ b)
  gt a b := decide (b < a)
  geq a b := decide (b ≤ a)
  diff a b := (a - b).toNat
  within a b n := decide (b ≤ a ∧ a ≤ b + n)

/-- `b ≤ a ≤ c`. -/
def between {σ : Type} [SeqNo σ] (a b c : σ) : Bool := geq a b && leq a c

/-- The difference is at most `n`, one way or the other. -/
def near {σ : Type} [SeqNo σ] (a b : σ) (n : ℤ) : Prop := -n ≤ dist a b ∧ dist a b ≤ n

instance {σ : Type} [SeqNo σ] (a b : σ) (n : ℤ) : Decidable (near a b n) :=
  inferInstanceAs (Decidable (_ ∧ _))

section Int

variable {a b c z : ℤ} {n : ℕ}

@[simp] theorem add_int : add a z = a + z := rfl

@[simp] theorem dist_int : dist a b = a - b := rfl

theorem near_int {n : ℤ} : near a b n ↔ -n ≤ a - b ∧ a - b ≤ n := Iff.rfl

@[simp] theorem lt_int : lt a b = true ↔ a < b := decide_eq_true_iff

@[simp] theorem leq_int : leq a b = true ↔ a ≤ b := decide_eq_true_iff

@[simp] theorem gt_int : gt a b = true ↔ b < a := decide_eq_true_iff

@[simp] theorem geq_int : geq a b = true ↔ b ≤ a := decide_eq_true_iff

@[simp] theorem diff_int : diff a b = (a - b).toNat := rfl

@[simp] theorem within_int : within a b n = true ↔ b ≤ a ∧ a ≤ b + n := decide_eq_true_iff

@[simp] theorem between_int : between a b c = true ↔ b ≤ a ∧ a ≤ c := by
  simp [between]

end Int

/-- The sequence number of a position. -/
def embed (w : ℕ) (a : ℤ) : BitVec w := BitVec.ofInt w a

/-- Two positions that sequence numbers of `w` bits can be compared for. -/
def Near (w : ℕ) (a b : ℤ) : Prop := -2 ^ w ≤ 2 * (a - b) ∧ 2 * (a - b) < 2 ^ w

section Embed

variable {w : ℕ} {a b c : ℤ} {n : ℕ}

theorem embed_add (a z : ℤ) : embed w (a + z) = add (embed w a) z :=
  BitVec.ofInt_add a z

theorem embed_sub_embed (a b : ℤ) : embed w a - embed w b = BitVec.ofInt w (a - b) := by
  rw [embed, embed, sub_eq_add_neg a b, BitVec.ofInt_add, BitVec.ofInt_neg, BitVec.sub_eq_add_neg]

theorem cast_two_pow (w : ℕ) : ((2 ^ w : ℕ) : ℤ) = 2 ^ w := by
  push_cast
  rfl

theorem toInt_embed_sub (h : Near w a b) : (embed w a - embed w b).toInt = a - b := by
  rw [embed_sub_embed, BitVec.toInt_ofInt]
  obtain ⟨hlow, hhigh⟩ := h
  exact Int.bmod_eq_of_le_mul_two (by rw [cast_two_pow]; linarith) (by rw [cast_two_pow]; linarith)

theorem lt_embed (h : Near w a b) : lt (embed w a) (embed w b) = lt a b := by
  have hdiff := toInt_embed_sub h
  exact decide_eq_decide.2 (by rw [hdiff]; exact sub_neg)

theorem leq_embed (h : Near w a b) : leq (embed w a) (embed w b) = leq a b := by
  have hdiff := toInt_embed_sub h
  exact decide_eq_decide.2 (by rw [hdiff]; exact sub_nonpos)

theorem gt_embed (h : Near w a b) : gt (embed w a) (embed w b) = gt a b := by
  have hdiff := toInt_embed_sub h
  exact decide_eq_decide.2 (by rw [hdiff]; exact sub_pos)

theorem geq_embed (h : Near w a b) : geq (embed w a) (embed w b) = geq a b := by
  have hdiff := toInt_embed_sub h
  exact decide_eq_decide.2 (by rw [hdiff]; exact sub_nonneg)

theorem between_embed (hb : Near w a b) (hc : Near w a c) :
    between (embed w a) (embed w b) (embed w c) = between a b c := by
  rw [between, between, geq_embed hb, leq_embed hc]

theorem toNat_embed_sub (hle : b ≤ a) (hlt : a - b < 2 ^ w) :
    (embed w a - embed w b).toNat = (a - b).toNat := by
  rw [embed_sub_embed, BitVec.toNat_ofInt, cast_two_pow, Int.emod_eq_of_lt (sub_nonneg.2 hle) hlt]

theorem diff_embed (hle : b ≤ a) (hlt : a - b < 2 ^ w) : diff (embed w a) (embed w b) = diff a b :=
  toNat_embed_sub hle hlt

/-- A difference below zero is, as an unsigned number, above every bound below half the range. -/
theorem within_embed (h : Near w a b) (hn : 2 * (n : ℤ) < 2 ^ w) :
    within (embed w a) (embed w b) n = within a b n := by
  obtain ⟨hlow, hhigh⟩ := h
  refine decide_eq_decide.2 ?_
  by_cases hle : b ≤ a
  · rw [toNat_embed_sub hle (by linarith)]
    omega
  · have hmod : (a - b) % 2 ^ w = a - b + 2 ^ w := by
      rw [← Int.add_emod_right, Int.emod_eq_of_lt (by linarith) (by linarith)]
    rw [embed_sub_embed, BitVec.toNat_ofInt, cast_two_pow, hmod]
    omega

theorem embed_inj (h : Near w a b) : embed w a = embed w b ↔ a = b := by
  refine ⟨fun heq => ?_, fun heq => by rw [heq]⟩
  have hdiff := toInt_embed_sub h
  rw [heq, BitVec.sub_self, BitVec.toInt_zero] at hdiff
  linarith

/-! ### From numbers to positions -/

/-- The position of the number `n` that is nearest to the position `b`. -/
def lift (b : ℤ) (n : BitVec w) : ℤ := b + dist n (embed w b)

@[simp] theorem embed_lift (b : ℤ) (n : BitVec w) : embed w (lift b n) = n := by
  change BitVec.ofInt w (b + (n - embed w b).toInt) = n
  rw [BitVec.ofInt_add, BitVec.ofInt_toInt]
  exact add_sub_cancel (embed w b) n

theorem lift_sub (b : ℤ) (n : BitVec w) : lift b n - b = dist n (embed w b) :=
  add_sub_cancel_left b _

/-- A number and the position that is nearest to `b` are equally near to `b`. -/
theorem near_lift {b k : ℤ} {n : BitVec w} (h : near n (embed w b) k) : near (lift b n) b k := by
  rwa [near, dist_int, lift_sub]

end Embed

end SeqNo
