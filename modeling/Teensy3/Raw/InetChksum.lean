import Mathlib.Tactic
import Teensy3.Lib.ByteMem
import Teensy3.Lib.OnesComplement
import Teensy3.Raw.Checksum
import Teensy3.Raw.Udp
import Teensy3.Raw.UdpChecksum

/-!
# The checksums are the Internet checksum

`chksum` keeps its sum in 32 bits and folds it twice, and both of its callers fold again;
`inet_chksum_pseudo` folds before it adds the pseudo-header, and exchanges bytes twice if the length
is odd.  None of this makes a difference:

* `chksumSums`, `pseudoSums`: the values that `acc` takes, in exact arithmetic;
* `inetChksum_eq_onesSum`: the result is the complement of the sum with end-around carry;
* `inetChksumPseudo_eq`: a pseudo-header that is added is a pseudo-header that stands in front;
* `inet_chksum_exact`: all of this, and that a checksum that is stored verifies.
-/

namespace Raw

open ByteMem OnesComplement

/-! ### The values of `acc` -/

/-- The values of `acc` in the loop of `chksum`, and after the odd byte. -/
def loopSums (m : ℕ → Byte) : (p len acc : ℕ) → List ℕ
  | p, len + 2, acc =>
    (acc + (load16 m p).toNat) :: loopSums m (p + 2) len (acc + (load16 m p).toNat)
  | p, 1, acc => [acc + (m p).toNat]
  | _, 0, _ => []

/-- These, and the values after each of the two folding steps. -/
def chksumSums (m : ℕ → Byte) (dataptr len : ℕ) : List ℕ :=
  loopSums m dataptr len 0 ++
    [foldOnce (hostSum m dataptr len), foldOnce (foldOnce (hostSum m dataptr len))]

/-- The values of `acc` in `inet_chksum_pseudo` from the call of `chksum` on: what is added to it,
and the sums. -/
def pseudoSums (m : ℕ → Byte) (p : ℕ) (srcaddr destaddr : BitVec 32) (proto : Byte)
    (protoLen : BitVec 16) : List ℕ :=
  [srcaddr.toNat % 65536, srcaddr.toNat / 65536, destaddr.toNat % 65536, destaddr.toNat / 65536,
    (bswap16 (proto.setWidth 16)).toNat, (bswap16 protoLen).toNat].scanl (· + ·)
    (fold (chksum m p protoLen.toNat))

/-- A folding step loses no carry: it changes neither the residue nor whether there is anything. -/
def LosesNoCarry (x : ℕ) : Prop := foldOnce x ≡ x [MOD 65535] ∧ (foldOnce x = 0 ↔ x = 0)

theorem losesNoCarry (x : ℕ) : LosesNoCarry x := by
  refine ⟨foldOnce_modEq x, ?_⟩
  unfold foldOnce
  omega

theorem loopSums_le (m : ℕ → Byte) {p len acc x : ℕ} (h : x ∈ loopSums m p len acc) :
    x ≤ acc + 65535 * ((len + 1) / 2) := by
  induction len using Nat.twoStepInduction generalizing p acc with
  | zero => simp [loopSums] at h
  | one =>
    have hb : (m p).toNat < 256 := (m p).isLt
    rw [loopSums, List.mem_singleton] at h
    omega
  | more len ih _ =>
    have hw : (load16 m p).toNat < 65536 := (load16 m p).isLt
    rw [loopSums, List.mem_cons] at h
    rcases h with rfl | h
    · omega
    · have hle := ih h
      omega

theorem hostSum_le (m : ℕ → Byte) (a len : ℕ) : hostSum m a len ≤ 65535 * ((len + 1) / 2) := by
  induction len using Nat.twoStepInduction generalizing a with
  | zero => simp [hostSum, wordSum]
  | one =>
    have hb : (m a).toNat < 256 := (m a).isLt
    simp [hostSum, wordSum]
    omega
  | more len ih _ =>
    have hw : (load16 m a).toNat < 65536 := (load16 m a).isLt
    have hle := ih (a + 2)
    rw [hostSum_add_two]
    omega

/-- Nothing overflows. -/
theorem chksumSums_lt (m : ℕ → Byte) {a len x : ℕ} (hlen : len ≤ 65535) (h : x ∈ chksumSums m a len) :
    x < 2 ^ 32 := by
  rw [chksumSums, List.mem_append] at h
  rcases h with h | h
  · have hle := loopSums_le m h
    omega
  · have hle := hostSum_le m a len
    simp only [List.mem_cons, List.not_mem_nil, or_false] at h
    unfold foldOnce at h
    omega

/-- Two folding steps are enough. -/
theorem chksum_eq (m : ℕ → Byte) {a len : ℕ} (hlen : len ≤ 65535) :
    chksum m a len = fold (hostSum m a len) := by
  have hle := hostSum_le m a len
  have hloop : chksumLoop m a len 0 = hostSum m a len := by
    rw [chksumLoop_eq m (by omega), Nat.zero_add]
  have hlt : chksum m a len < 65536 := by
    unfold chksum
    simp only [hloop]
    split_ifs with h
    · unfold foldOnce at h ⊢
      omega
    · omega
  rw [← fold_of_lt hlt, fold_chksum, hloop]

theorem pseudoSums_lt (m : ℕ → Byte) (p : ℕ) (srcaddr destaddr : BitVec 32) (proto : Byte)
    (protoLen : BitVec 16) {x : ℕ} (h : x ∈ pseudoSums m p srcaddr destaddr proto protoLen) :
    x < 2 ^ 32 := by
  have hfold := fold_lt (chksum m p protoLen.toNat)
  have hsrc := srcaddr.isLt
  have hdest := destaddr.isLt
  have hproto := (bswap16 (proto.setWidth 16)).isLt
  have hlen := (bswap16 protoLen).isLt
  simp only [pseudoSums, List.scanl_cons, List.scanl_nil, List.mem_cons, List.not_mem_nil,
    or_false] at h
  omega

/-! ### The Internet checksum -/

/-- The sum that `chksum` returns is the ones' complement sum of the half-words. -/
theorem chksum_eq_onesSum (m : ℕ → Byte) {a len : ℕ} (hlen : len ≤ 65535) :
    chksum m a len = (onesSum (halfWords (read m a len))).toNat := by
  rw [chksum_eq m hlen, toNat_onesSum, sum_halfWords_read]

/-- **The checksum** is its complement. -/
theorem inetChksum_eq_onesSum (m : ℕ → Byte) {a len : ℕ} (hlen : len ≤ 65535) :
    inetChksum m a len = ~~~ onesSum (halfWords (read m a len)) := by
  rw [inetChksum, complement, chksum_eq_onesSum m hlen, fold_of_lt (BitVec.isLt _),
    BitVec.ofNat_toNat, BitVec.setWidth_eq]

/-- Source and destination address, zero, protocol and length. -/
def pseudoHeaderOf (srcaddr destaddr : BitVec 32) (proto : Byte) (protoLen : BitVec 16) : List Byte :=
  bytes32 srcaddr ++ bytes32 destaddr ++ [0, proto, byteOf protoLen 1, byteOf protoLen 0]

theorem toNat_byteOf {w : ℕ} (v : BitVec w) (k : ℕ) :
    (byteOf v k).toNat = v.toNat / 2 ^ (8 * k) % 256 := by
  rw [byteOf, BitVec.extractLsb'_toNat, Nat.shiftRight_eq_div_pow]

theorem toNat_append_byte (hi lo : Byte) : (hi ++ lo).toNat = 256 * hi.toNat + lo.toNat := by
  rw [BitVec.toNat_append, ← Nat.shiftLeft_add_eq_or_of_lt lo.isLt, Nat.shiftLeft_eq, Nat.mul_comm]

/-- The sum over a list of bytes. -/
theorem hostSum_mem (f : List Byte) :
    hostSum (mem f) 0 f.length = ((halfWords f).map BitVec.toNat).sum := by
  have hread : read (mem f) 0 f.length = f := (drop_eq_read (k := 0) (Nat.zero_le _)).symm
  rw [← sum_halfWords_read, hread]

/-- The sum over the pseudo-header, and bytes behind it. -/
theorem sum_pseudoHeaderOf (srcaddr destaddr : BitVec 32) (proto : Byte) (protoLen : BitVec 16)
    (bs : List Byte) :
    ((halfWords (pseudoHeaderOf srcaddr destaddr proto protoLen ++ bs)).map BitVec.toNat).sum =
      srcaddr.toNat % 65536 + srcaddr.toNat / 65536 + destaddr.toNat % 65536 +
        destaddr.toNat / 65536 + (bswap16 (proto.setWidth 16)).toNat + (bswap16 protoLen).toNat +
        ((halfWords bs).map BitVec.toNat).sum := by
  have hsrc := srcaddr.isLt
  have hdest := destaddr.isLt
  simp only [pseudoHeaderOf, bytes32, List.cons_append, List.nil_append, halfWords, List.map_cons,
    List.sum_cons, bswap16, toNat_append_byte, toNat_byteOf, BitVec.toNat_setWidth]
  have hproto := proto.isLt
  have hzero : (0 : Byte).toNat = 0 := rfl
  omega

/-- **The pseudo-header** may be added at the end, or stand in front of the bytes. -/
theorem inetChksumPseudo_eq (m : ℕ → Byte) (p : ℕ) (srcaddr destaddr : BitVec 32) (proto : Byte)
    (protoLen : BitVec 16) :
    inetChksumPseudo m p srcaddr destaddr proto protoLen =
      inetChksum (mem (pseudoHeaderOf srcaddr destaddr proto protoLen ++ read m p protoLen.toNat))
        0 (12 + protoLen.toNat) := by
  have hlen := protoLen.isLt
  have hlength : (pseudoHeaderOf srcaddr destaddr proto protoLen ++ read m p protoLen.toNat).length =
      12 + protoLen.toNat := by
    rw [List.length_append, length_read]
    rfl
  have hchksum : fold (chksum m p protoLen.toNat) = fold (hostSum m p protoLen.toNat) := by
    rw [fold_chksum, chksumLoop_eq m (by omega), Nat.zero_add]
  -- the two exchanges of bytes cancel
  have hswap : ∀ c : Prop, [Decidable c] → ∀ x < 65536,
      (if c then swapBytes (if c then swapBytes x else x) else if c then swapBytes x else x) = x := by
    intro c _ x hx
    split_ifs
    · exact swapBytes_swapBytes hx
    · rfl
  rw [inetChksum_eq _ (by omega), ← hlength, hostSum_mem, sum_pseudoHeaderOf, sum_halfWords_read]
  simp only [inetChksumPseudo, complement, hchksum]
  rw [hswap _ _ (fold_lt _)]
  simp only [Nat.add_assoc, fold_fold_add]
  rw [Nat.add_comm (hostSum m p protoLen.toNat)]
  simp only [Nat.add_assoc]

/-- **The checksums are exact.** For any bytes, 65535 at most: no sum overflows and no folding step
loses a carry; `chksum` is their ones' complement sum, and `inet_chksum` the complement of it;
`inet_chksum_pseudo` is `inet_chksum` with the pseudo-header in front; and the checksum verifies when
it is stored where the bytes have a half-word of zero. -/
theorem inet_chksum_exact (m : ℕ → Byte) (a : ℕ) {len : ℕ} (hlen : len ≤ 65535) :
    ((∀ x ∈ chksumSums m a len, x < 2 ^ 32 ∧ LosesNoCarry x) ∧
      chksum m a len = (onesSum (halfWords (read m a len))).toNat ∧
      inetChksum m a len = ~~~ onesSum (halfWords (read m a len))) ∧
    (∀ (srcaddr destaddr : BitVec 32) (proto : Byte),
      (∀ x ∈ pseudoSums m a srcaddr destaddr proto (.ofNat 16 len), x < 2 ^ 32 ∧ LosesNoCarry x) ∧
      inetChksumPseudo m a srcaddr destaddr proto (.ofNat 16 len) =
        inetChksum (mem (pseudoHeaderOf srcaddr destaddr proto (.ofNat 16 len) ++ read m a len)) 0
          (12 + len)) ∧
    ∀ k, 2 * k + 2 ≤ len → load16 m (a + 2 * k) = 0 →
      inetChksum (store16 m (a + 2 * k) (inetChksum m a len)) a len = 0 := by
  have htoNat : (BitVec.ofNat 16 len).toNat = len := by
    rw [BitVec.toNat_ofNat, Nat.mod_eq_of_lt (by omega)]
  refine ⟨⟨fun x hx => ⟨chksumSums_lt m hlen hx, losesNoCarry x⟩, chksum_eq_onesSum m hlen,
      inetChksum_eq_onesSum m hlen⟩,
    fun srcaddr destaddr proto => ⟨fun x hx => ⟨?_, losesNoCarry x⟩, ?_⟩, fun k hk hzero => ?_⟩
  · exact pseudoSums_lt m a srcaddr destaddr proto _ hx
  · rw [inetChksumPseudo_eq, htoNat]
  · exact inetChksum_store16 (by omega) hk hzero

/-- The IP header of the template, with no checksum. -/
def templateHeader : List Byte :=
  [0x45, 0x00, 0x00, 0x24, 0x3A, 0x0F, 0x40, 0x00, 0x40, 0x11, 0x00, 0x00,
   0xC0, 0xA8, 0x01, 0x11, 0xC0, 0xA8, 0x01, 0x04]

/-- Its checksum verifies. -/
theorem inet_chksum_exact_template :
    inetChksum (store16 (mem templateHeader) 10 (inetChksum (mem templateHeader) 0 20)) 0 20 = 0 :=
  (inet_chksum_exact (mem templateHeader) 0 (by decide)).2.2 5 (by decide) (by decide)

end Raw
