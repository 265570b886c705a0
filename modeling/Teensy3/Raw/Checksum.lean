import Mathlib.Tactic
import Teensy3.Lib.ByteMem
import Teensy3.Lib.OnesComplement

/-!
# The checksums of the raw sketch

`chksum`, `inet_chksum` and `inet_chksum_pseudo` of `etherraw.ino`.  An `unsigned long` has 32
bits, and half-words are read little-endian; the checksum comes out in the byte order in which
it is stored.
-/

namespace Raw

open ByteMem OnesComplement

/-- The loop of `chksum` from address `p` on, with `len` bytes to go, and the odd byte. -/
def chksumLoop (m : ℕ → Byte) : (p len acc : ℕ) → ℕ
  | p, len + 2, acc => chksumLoop m (p + 2) len ((acc + (load16 m p).toNat) % 2 ^ 32)
  | p, 1, acc => (acc + (m p).toNat) % 2 ^ 32
  | _, 0, acc => acc

def chksum (m : ℕ → Byte) (dataptr len : ℕ) : ℕ :=
  let acc := chksumLoop m dataptr len 0
  let acc := foldOnce acc
  if acc / 65536 ≠ 0 then foldOnce acc else acc

/-- The last two steps of both checksums: `while (acc >> 16) ...` and the complement. -/
def complement (acc : ℕ) : BitVec 16 := ~~~ BitVec.ofNat 16 (fold acc)

def inetChksum (m : ℕ → Byte) (dataptr len : ℕ) : BitVec 16 := complement (chksum m dataptr len)

/-- `((acc & 0xFF) << 8) | ((acc & 0xFF00) >> 8)`. -/
def swapBytes (acc : ℕ) : ℕ := ((acc &&& 0xFF) <<< 8) ||| ((acc &&& 0xFF00) >>> 8)

def inetChksumPseudo (m : ℕ → Byte) (p : ℕ) (srcaddr destaddr : BitVec 32) (proto : Byte)
    (protoLen : BitVec 16) : BitVec 16 :=
  let acc := fold (chksum m p protoLen.toNat)
  let odd := protoLen.toNat % 2 ≠ 0
  let acc := if odd then swapBytes acc else acc
  let acc := if odd then swapBytes acc else acc
  let acc := acc + srcaddr.toNat % 65536 + srcaddr.toNat / 65536
  let acc := acc + destaddr.toNat % 65536 + destaddr.toNat / 65536
  let acc := acc + (bswap16 (proto.setWidth 16)).toNat + (bswap16 protoLen).toNat
  complement acc

/-! ### What the loop computes -/

/-- The loop adds up the half-words and the odd byte, if there is one. -/
theorem chksumLoop_eq (m : ℕ → Byte) {p len acc : ℕ} (h : acc + 65535 * ((len + 1) / 2) < 2 ^ 32) :
    chksumLoop m p len acc = acc + hostSum m p len := by
  induction len using Nat.twoStepInduction generalizing p acc with
  | zero => rfl
  | one =>
    have hb : (m p).toNat < 256 := (m p).isLt
    rw [chksumLoop, Nat.mod_eq_of_lt (by omega)]
    simp [hostSum, wordSum]
  | more len ih _ =>
    have hw : (load16 m p).toNat < 65536 := (load16 m p).isLt
    rw [chksumLoop, Nat.mod_eq_of_lt (by omega), ih (by omega), hostSum_add_two, Nat.add_assoc]

theorem fold_chksum (m : ℕ → Byte) (dataptr len : ℕ) :
    fold (chksum m dataptr len) = fold (chksumLoop m dataptr len 0) := by
  unfold chksum
  dsimp only
  split_ifs <;> simp only [fold_foldOnce]

/-! ### The checksum -/

theorem inetChksum_eq (m : ℕ → Byte) {a len : ℕ} (h : len ≤ 131071) :
    inetChksum m a len = ~~~ BitVec.ofNat 16 (fold (hostSum m a len)) := by
  rw [inetChksum, complement, fold_chksum, chksumLoop_eq m (by omega), Nat.zero_add]

/-- The checksum depends on the bytes that it is taken of only. -/
theorem inetChksum_congr {m m' : ℕ → Byte} {a len : ℕ} (hlen : len ≤ 131071)
    (h : ∀ i < len, m (a + i) = m' (a + i)) : inetChksum m a len = inetChksum m' a len := by
  rw [inetChksum_eq m hlen, inetChksum_eq m' hlen, hostSum_congr h]

theorem toNat_inetChksum (m : ℕ → Byte) {a len : ℕ} (h : len ≤ 131071) :
    (inetChksum m a len).toNat = 65535 - fold (hostSum m a len) := by
  rw [inetChksum_eq m h, BitVec.toNat_not, BitVec.toNat_ofNat, Nat.mod_eq_of_lt (fold_lt _)]

/-- **A stored checksum verifies.** If the half-word for it was zero, then after the checksum is
stored the checksum is zero. -/
theorem inetChksum_store16 {m : ℕ → Byte} {a k len : ℕ} (hlen : len ≤ 131071) (hk : 2 * k + 2 ≤ len)
    (hzero : load16 m (a + 2 * k) = 0) :
    inetChksum (store16 m (a + 2 * k) (inetChksum m a len)) a len = 0 := by
  have hstore := hostSum_store16 (m := m) (a := a) (inetChksum m a len) hk
  rw [hzero, toNat_inetChksum m hlen] at hstore
  rw [inetChksum_eq _ hlen, show hostSum _ a len = _ from hstore, fold_add_complement]
  rfl

end Raw
