import Mathlib.Data.List.GetD
import Mathlib.Tactic

/-!
# Byte memories

A memory is a function from addresses to bytes.  Regions are read as lists (`read`) and copied
into (`blit`, the `memcpy` of a list of bytes); half-words and words are loaded and stored
little-endian (`load16`, `load32`, `store16`, `store32`), and the bytes of a computed word are found
byte by byte (`byteOf` and its lemmas).

Every store is stated byte by byte, so that a byte that is read back after any number of stores
through overlapping views is found by `simp`.
-/

abbrev Byte := BitVec 8

namespace ByteMem

/-! ### Regions -/

/-- The `n` bytes from address `a` on. -/
def read (m : ℕ → Byte) (a n : ℕ) : List Byte := (List.range n).map fun j => m (a + j)

/-- Copy the bytes `bs` to the addresses from `a` on. -/
def blit (m : ℕ → Byte) (a : ℕ) (bs : List Byte) : ℕ → Byte := fun i =>
  if a ≤ i ∧ i < a + bs.length then bs.getD (i - a) 0 else m i

@[simp] theorem length_read (m : ℕ → Byte) (a n : ℕ) : (read m a n).length = n := by
  simp [read]

@[simp] theorem read_zero (m : ℕ → Byte) (a : ℕ) : read m a 0 = [] := rfl

theorem getElem_read {m : ℕ → Byte} {a n i : ℕ} (h : i < (read m a n).length) :
    (read m a n)[i] = m (a + i) := by
  simp [read]

theorem getD_read {m : ℕ → Byte} {a n i : ℕ} (h : i < n) :
    (read m a n).getD i 0 = m (a + i) := by
  rw [List.getD_eq_getElem _ _ (by simpa using h), getElem_read]

theorem read_congr {m m' : ℕ → Byte} {a a' n : ℕ} (h : ∀ j < n, m (a + j) = m' (a' + j)) :
    read m a n = read m' a' n :=
  List.map_congr_left fun j hj => h j (List.mem_range.1 hj)

theorem apply_of_read_eq {m m' : ℕ → Byte} {a a' n : ℕ} (h : read m a n = read m' a' n) {j : ℕ}
    (hj : j < n) : m (a + j) = m' (a' + j) :=
  List.map_inj_left.1 h j (List.mem_range.2 hj)

theorem read_add (m : ℕ → Byte) (a n k : ℕ) :
    read m a (n + k) = read m a n ++ read m (a + n) k := by
  simp [read, List.range_add, Nat.add_assoc, Function.comp_def]

theorem blit_of_lt {m : ℕ → Byte} {a i : ℕ} {bs : List Byte} (h : i < a) : blit m a bs i = m i := by
  rw [blit, if_neg (by omega)]

theorem blit_of_ge {m : ℕ → Byte} {a i : ℕ} {bs : List Byte} (h : a + bs.length ≤ i) :
    blit m a bs i = m i := by
  rw [blit, if_neg (by omega)]

theorem blit_add {m : ℕ → Byte} {a j : ℕ} {bs : List Byte} (h : j < bs.length) :
    blit m a bs (a + j) = bs[j] := by
  rw [blit, if_pos (by omega), Nat.add_sub_cancel_left, List.getD_eq_getElem _ _ h]

/-- Reading back what was just copied. -/
theorem read_blit_self (m : ℕ → Byte) (a : ℕ) (bs : List Byte) :
    read (blit m a bs) a bs.length = bs := by
  apply List.ext_getElem (by simp)
  intro j _ hj
  rw [getElem_read, blit_add hj]

/-- A copy does not touch a region that lies outside it. -/
theorem read_blit_disjoint {m : ℕ → Byte} {a b n : ℕ} {bs : List Byte}
    (h : b + n ≤ a ∨ a + bs.length ≤ b) : read (blit m a bs) b n = read m b n := by
  apply read_congr
  intro j hj
  rcases h with h | h
  · exact blit_of_lt (by omega)
  · exact blit_of_ge (by omega)

/-! ### Half-words and words -/

/-- The byte of a word at little-endian position `k`. -/
def byteOf {w : ℕ} (v : BitVec w) (k : ℕ) : Byte := v.extractLsb' (8 * k) 8

/-- Little-endian half-word load. -/
def load16 (m : ℕ → Byte) (a : ℕ) : BitVec 16 := m (a + 1) ++ m a

/-- Little-endian word load. -/
def load32 (m : ℕ → Byte) (a : ℕ) : BitVec 32 := m (a + 3) ++ m (a + 2) ++ m (a + 1) ++ m a

/-- Byte store. -/
def store8 (m : ℕ → Byte) (a : ℕ) (v : Byte) : ℕ → Byte := fun i => if i = a then v else m i

/-- Little-endian half-word store. -/
def store16 (m : ℕ → Byte) (a : ℕ) (v : BitVec 16) : ℕ → Byte := fun i =>
  if i = a then byteOf v 0 else if i = a + 1 then byteOf v 1 else m i

/-- Little-endian word store. -/
def store32 (m : ℕ → Byte) (a : ℕ) (v : BitVec 32) : ℕ → Byte := fun i =>
  if i = a then byteOf v 0 else if i = a + 1 then byteOf v 1
  else if i = a + 2 then byteOf v 2 else if i = a + 3 then byteOf v 3 else m i

/-- The `__builtin_bswap16` of the compiler. -/
def bswap16 (v : BitVec 16) : BitVec 16 := byteOf v 0 ++ byteOf v 1

/-- The `__builtin_bswap32` of the compiler. -/
def bswap32 (v : BitVec 32) : BitVec 32 := byteOf v 0 ++ byteOf v 1 ++ byteOf v 2 ++ byteOf v 3

theorem store16_of_ne {m : ℕ → Byte} {a i : ℕ} {v : BitVec 16} (h : i < a ∨ a + 2 ≤ i) :
    store16 m a v i = m i := by
  rw [store16, if_neg (by omega), if_neg (by omega)]

theorem store32_of_ne {m : ℕ → Byte} {a i : ℕ} {v : BitVec 32} (h : i < a ∨ a + 4 ≤ i) :
    store32 m a v i = m i := by
  rw [store32, if_neg (by omega), if_neg (by omega), if_neg (by omega), if_neg (by omega)]

theorem toNat_load16 (m : ℕ → Byte) (a : ℕ) :
    (load16 m a).toNat = 256 * (m (a + 1)).toNat + (m a).toNat := by
  rw [load16, BitVec.toNat_append, ← Nat.shiftLeft_add_eq_or_of_lt (m a).isLt, Nat.shiftLeft_eq]
  omega

theorem load16_congr {m m' : ℕ → Byte} {a a' : ℕ} (h0 : m a = m' a')
    (h1 : m (a + 1) = m' (a' + 1)) : load16 m a = load16 m' a' := by
  rw [load16, load16, h0, h1]

theorem load32_congr {m m' : ℕ → Byte} {a a' : ℕ} (h : ∀ i < 4, m (a + i) = m' (a' + i)) :
    load32 m a = load32 m' a' := by
  rw [load32, load32, h 1 (by omega), h 2 (by omega), h 3 (by omega),
    show m a = m' a' from h 0 (by omega)]

theorem load16_store16_of_ne {m : ℕ → Byte} {a b : ℕ} {v : BitVec 16}
    (h : b + 2 ≤ a ∨ a + 2 ≤ b) : load16 (store16 m a v) b = load16 m b :=
  load16_congr (store16_of_ne (by omega)) (store16_of_ne (by omega))

theorem getLsbD_byteOf {w : ℕ} (v : BitVec w) (k i : ℕ) :
    (byteOf v k).getLsbD i = (decide (i < 8) && v.getLsbD (8 * k + i)) := by
  simp [byteOf, BitVec.getLsbD_extractLsb']

@[simp] theorem byteOf_self (b : Byte) : byteOf b 0 = b := by
  simp [byteOf]

@[simp] theorem byteOf_append_zero {w : ℕ} (v : BitVec w) (b : Byte) : byteOf (v ++ b) 0 = b := by
  apply BitVec.eq_of_getLsbD_eq
  intro i hi
  simp only [getLsbD_byteOf, BitVec.getLsbD_append, Nat.mul_zero, Nat.zero_add, hi, decide_true,
    Bool.true_and, ite_true]

@[simp] theorem byteOf_append_succ {w : ℕ} (v : BitVec w) (b : Byte) (k : ℕ) :
    byteOf (v ++ b) (k + 1) = byteOf v k := by
  apply BitVec.eq_of_getLsbD_eq
  intro i hi
  have h1 : ¬ 8 * (k + 1) + i < 8 := by omega
  have h2 : 8 * (k + 1) + i - 8 = 8 * k + i := by omega
  simp [getLsbD_byteOf, BitVec.getLsbD_append, h1, h2]

/-- Words with the same byte at position `k` have the same bits there. -/
theorem getLsbD_eq_of_byteOf {n : ℕ} {v w : BitVec n} {k i : ℕ} (h : byteOf v k = byteOf w k)
    (hle : 8 * k ≤ i) (hlt : i < 8 * k + 8) : v.getLsbD i = w.getLsbD i := by
  have hbit := congrArg (·.getLsbD (i - 8 * k)) h
  simp only [getLsbD_byteOf, show i - 8 * k < 8 by omega, decide_true, Bool.true_and,
    show 8 * k + (i - 8 * k) = i by omega] at hbit
  exact hbit

/-- A half-word is determined by its two bytes. -/
theorem eq_of_byteOf16 {v w : BitVec 16} (h0 : byteOf v 0 = byteOf w 0)
    (h1 : byteOf v 1 = byteOf w 1) : v = w := by
  apply BitVec.eq_of_getLsbD_eq
  intro i hi
  rcases Nat.lt_or_ge i 8 with h | h
  · exact getLsbD_eq_of_byteOf h0 (by omega) (by omega)
  · exact getLsbD_eq_of_byteOf h1 (by omega) (by omega)

/-- A word is determined by its four bytes. -/
theorem eq_of_byteOf32 {v w : BitVec 32} (h0 : byteOf v 0 = byteOf w 0)
    (h1 : byteOf v 1 = byteOf w 1) (h2 : byteOf v 2 = byteOf w 2) (h3 : byteOf v 3 = byteOf w 3) :
    v = w := by
  apply BitVec.eq_of_getLsbD_eq
  intro i hi
  rcases Nat.lt_or_ge i 8 with h | h
  · exact getLsbD_eq_of_byteOf h0 (by omega) (by omega)
  rcases Nat.lt_or_ge i 16 with h' | h'
  · exact getLsbD_eq_of_byteOf h1 (by omega) (by omega)
  rcases Nat.lt_or_ge i 24 with h'' | h''
  · exact getLsbD_eq_of_byteOf h2 (by omega) (by omega)
  · exact getLsbD_eq_of_byteOf h3 (by omega) (by omega)

@[simp] theorem load16_store16 (m : ℕ → Byte) (a : ℕ) (v : BitVec 16) :
    load16 (store16 m a v) a = v := by
  apply eq_of_byteOf16 <;> simp [load16, store16]

@[simp] theorem bswap16_bswap16 (v : BitVec 16) : bswap16 (bswap16 v) = v := by
  apply eq_of_byteOf16 <;> simp [bswap16]

/-! ### The bytes of computed words -/

section Bytes

variable {w : ℕ} (x y : BitVec w) (k : ℕ)

theorem byteOf_or : byteOf (x ||| y) k = byteOf x k ||| byteOf y k := by
  apply BitVec.eq_of_getLsbD_eq
  intro i hi
  simp only [getLsbD_byteOf, BitVec.getLsbD_or, hi, decide_true, Bool.true_and]

theorem byteOf_and : byteOf (x &&& y) k = byteOf x k &&& byteOf y k := by
  apply BitVec.eq_of_getLsbD_eq
  intro i hi
  simp only [getLsbD_byteOf, BitVec.getLsbD_and, hi, decide_true, Bool.true_and]

theorem byteOf_of_ge (h : w ≤ 8 * k) : byteOf x k = 0 := by
  apply BitVec.eq_of_getLsbD_eq
  intro i hi
  rw [getLsbD_byteOf, BitVec.getLsbD_of_ge x _ (by omega), Bool.and_false, BitVec.ofNat_eq_ofNat,
    BitVec.getLsbD_zero]

theorem byteOf_setWidth {n : ℕ} (h : 8 * k + 8 ≤ n) : byteOf (x.setWidth n) k = byteOf x k := by
  apply BitVec.eq_of_getLsbD_eq
  intro i hi
  simp only [getLsbD_byteOf, BitVec.getLsbD_setWidth, hi, show 8 * k + i < n by omega, decide_true,
    Bool.true_and]

/-- A shift to the right by whole bytes. -/
theorem byteOf_shiftRight {s : ℕ} (j : ℕ) (hs : s = 8 * j) :
    byteOf (x >>> s) k = byteOf x (j + k) := by
  apply BitVec.eq_of_getLsbD_eq
  intro i hi
  simp only [getLsbD_byteOf, BitVec.getLsbD_ushiftRight, hs, hi, decide_true, Bool.true_and]
  rw [show 8 * j + (8 * k + i) = 8 * (j + k) + i by omega]

/-- A shift to the left by whole bytes: the low ones are zero. -/
theorem byteOf_shiftLeft_of_lt {s : ℕ} (h : 8 * k + 8 ≤ s) : byteOf (x <<< s) k = 0 := by
  apply BitVec.eq_of_getLsbD_eq
  intro i hi
  simp only [getLsbD_byteOf, BitVec.getLsbD_shiftLeft, show 8 * k + i < s by omega, decide_true,
    Bool.not_true, Bool.and_false, Bool.false_and, BitVec.ofNat_eq_ofNat, BitVec.getLsbD_zero]

/-- The others are the bytes of the word. -/
theorem byteOf_shiftLeft {s : ℕ} (j : ℕ) (hs : s = 8 * j) (h : 8 * (j + k) + 8 ≤ w) :
    byteOf (x <<< s) (j + k) = byteOf x k := by
  apply BitVec.eq_of_getLsbD_eq
  intro i hi
  simp only [getLsbD_byteOf, BitVec.getLsbD_shiftLeft, hi, decide_true, Bool.true_and, hs,
    show 8 * (j + k) + i < w by omega, show ¬ 8 * (j + k) + i < 8 * j by omega, decide_false,
    Bool.not_false, show 8 * (j + k) + i - 8 * j = 8 * k + i by omega]

end Bytes

/-! ### Words as lists of bytes -/

/-- The bytes of a word, in the order in which they are stored. -/
def bytes32 (v : BitVec 32) : List Byte := [byteOf v 0, byteOf v 1, byteOf v 2, byteOf v 3]

theorem read_store32_self (m : ℕ → Byte) (a : ℕ) (v : BitVec 32) :
    read (store32 m a v) a 4 = bytes32 v := by
  simp [read, List.range_succ, store32, bytes32]

theorem read_store32_of_ne {m : ℕ → Byte} {a b n : ℕ} {v : BitVec 32}
    (h : b + n ≤ a ∨ a + 4 ≤ b) : read (store32 m a v) b n = read m b n :=
  read_congr fun _ _ => store32_of_ne (by omega)

theorem read_store8_self (m : ℕ → Byte) (a : ℕ) (v : Byte) : read (store8 m a v) a 1 = [v] := by
  simp [read, store8]

theorem read_store8_of_ne {m : ℕ → Byte} {a b n : ℕ} {v : Byte} (h : b + n ≤ a ∨ a + 1 ≤ b) :
    read (store8 m a v) b n = read m b n :=
  read_congr fun _ _ => if_neg (by omega)

/-- A word is loaded from where its bytes are. -/
theorem load32_of_read {m : ℕ → Byte} {a : ℕ} {v : BitVec 32} (h : read m a 4 = bytes32 v) :
    load32 m a = v := by
  have hbytes : m a = byteOf v 0 ∧ m (a + 1) = byteOf v 1 ∧ m (a + 2) = byteOf v 2 ∧
      m (a + 3) = byteOf v 3 := by
    simpa [read, List.range_succ, bytes32] using h
  obtain ⟨h0, h1, h2, h3⟩ := hbytes
  apply eq_of_byteOf32 <;> simp [load32, h0, h1, h2, h3]

/-- A word from its two half-words. -/
theorem load16_or_load16 (m : ℕ → Byte) (a : ℕ) :
    (load16 m (a + 2)).setWidth 32 <<< 16 ||| (load16 m a).setWidth 32 = load32 m a := by
  have hlow : byteOf ((load16 m (a + 2)).setWidth 32 <<< 16) 0 = 0 ∧
      byteOf ((load16 m (a + 2)).setWidth 32 <<< 16) 1 = 0 :=
    ⟨byteOf_shiftLeft_of_lt _ _ (by omega), byteOf_shiftLeft_of_lt _ _ (by omega)⟩
  have hhigh : ∀ k, 8 * (2 + k) + 8 ≤ 32 →
      byteOf ((load16 m (a + 2)).setWidth 32 <<< 16) (2 + k) = byteOf (load16 m (a + 2)) k := by
    intro k hk
    rw [byteOf_shiftLeft _ _ 2 rfl hk, byteOf_setWidth _ _ (by omega)]
  have hzero : ∀ k, 2 ≤ k → k < 4 → byteOf ((load16 m a).setWidth 32) k = 0 := by
    intro k hk hk'
    rw [byteOf_setWidth _ _ (by omega), byteOf_of_ge _ _ (by omega)]
  apply eq_of_byteOf32
  · rw [byteOf_or, hlow.1, byteOf_setWidth _ _ (by omega)]
    simp [load16, load32]
  · rw [byteOf_or, hlow.2, byteOf_setWidth _ _ (by omega)]
    simp [load16, load32]
  · rw [byteOf_or, show (2 : ℕ) = 2 + 0 from rfl, hhigh 0 (by omega), hzero 2 (by omega) (by omega)]
    simp [load16, load32]
  · rw [byteOf_or, show (3 : ℕ) = 2 + 1 from rfl, hhigh 1 (by omega), hzero 3 (by omega) (by omega)]
    simp [load16, load32]

/-! ### Copies through words -/

section Copies

variable {m m' : ℕ → Byte} {a b i : ℕ}

theorem byteOf_load32 {k : ℕ} (hk : k < 4) : byteOf (load32 m a) k = m (a + k) := by
  interval_cases k <;> simp [load32]

theorem byteOf_load16 {k : ℕ} (hk : k < 2) : byteOf (load16 m a) k = m (a + k) := by
  interval_cases k <;> simp [load16]

/-- A word that is loaded at `b` and stored at `a`. -/
theorem store32_load32 :
    store32 m a (load32 m' b) i = if a ≤ i ∧ i < a + 4 then m' (b + (i - a)) else m i := by
  by_cases h : a ≤ i ∧ i < a + 4
  · obtain ⟨k, rfl⟩ := Nat.exists_eq_add_of_le h.1
    have hk : k < 4 := by omega
    rw [if_pos h, Nat.add_sub_cancel_left, ← byteOf_load32 (m := m') (a := b) hk]
    interval_cases k <;> simp [store32]
  · rw [if_neg h, store32_of_ne (by omega)]

theorem store16_load16 :
    store16 m a (load16 m' b) i = if a ≤ i ∧ i < a + 2 then m' (b + (i - a)) else m i := by
  by_cases h : a ≤ i ∧ i < a + 2
  · obtain ⟨k, rfl⟩ := Nat.exists_eq_add_of_le h.1
    have hk : k < 2 := by omega
    rw [if_pos h, Nat.add_sub_cancel_left, ← byteOf_load16 (m := m') (a := b) hk]
    interval_cases k <;> simp [store16]
  · rw [if_neg h, store16_of_ne (by omega)]

theorem blit_read {n : ℕ} :
    blit m a (read m' b n) i = if a ≤ i ∧ i < a + n then m' (b + (i - a)) else m i := by
  by_cases h : a ≤ i ∧ i < a + n
  · obtain ⟨k, rfl⟩ := Nat.exists_eq_add_of_le h.1
    have hk : k < (read m' b n).length := by
      rw [length_read]
      omega
    rw [if_pos h, blit_add hk, getElem_read, Nat.add_sub_cancel_left]
  · rw [if_neg h, blit, if_neg (by rwa [length_read])]

end Copies

end ByteMem
