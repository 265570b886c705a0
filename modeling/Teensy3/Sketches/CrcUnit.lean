import Mathlib.Tactic
import Teensy3.Lib.ByteMem
import Teensy3.Lib.Crc

/-!
# The CRC unit and the bit-banged CRC

`crc.ino` computes the CRC-32 of a buffer in two ways: `crc` writes the bytes to the CRC unit of the
processor, a word at a time where the address allows it, and `crcbb` goes through the bits in a loop.
`mtalk.ino.tmp` has the loop once more as `crc32`.  The unit divides from the most significant bit on
and is told to reverse what is written and read; the loop shifts to the right.

* `CrcUnit`: the unit, with the transpositions and the complement of its control register;
* `crc`, with a loop for each of its phases, `crcbb` and `crc32`;
* `message`: the bits of a buffer in the order in which they are divided;
* `fed_crcRun`, `crcbb_eq`: both divide the message.

Addresses are natural numbers, so that `target - 4` does not wrap around for a buffer at the start of
the address space.
-/

namespace CrcSketch

open ByteMem Crc

abbrev Word := BitVec 32

/-! ### The unit -/

/-- `CRC_CTRL`, `CRC_GPOLY` and `CRC_CRC` -/
structure CrcUnit where
  ctrl : Word
  gpoly : Word
  crc : Word
  deriving DecidableEq, Repr

/-- `CRC_CTRL_TCRC(1)`, the mode with 32 bits, which is the only one that is modelled -/
def ctrlTcrc : Word := 0x1000000
/-- `CRC_CTRL_WAS(1)`: what is written is the start value -/
def ctrlWas : Word := 0x2000000
/-- `CRC_CTRL_FXOR(1)` -/
def ctrlFxor : Word := 0x4000000
def ctrlTotr (x : Word) : Word := (x <<< 28) &&& 0x30000000
def ctrlTot (x : Word) : Word := (x <<< 30) &&& 0xC0000000

/-- Each byte with its bits in reverse. -/
def reverseBits (v : Word) : Word :=
  (byteOf v 3).reverse ++ (byteOf v 2).reverse ++ (byteOf v 1).reverse ++ (byteOf v 0).reverse

/-- The types of transposition of a word: none, of the bits in each byte, of the bits and the bytes,
and of the bytes. -/
def transpose (type v : Word) : Word :=
  if type = 0 then v else if type = 1 then reverseBits v else if type = 2 then v.reverse else bswap32 v

/-- The same for a byte. -/
def transposeByte (type : Word) (v : Byte) : Byte :=
  if type = 1 ∨ type = 2 then v.reverse else v

namespace CrcUnit

variable (u : CrcUnit)

def tot : Word := u.ctrl >>> 30

def totr : Word := (u.ctrl >>> 28) &&& 3

/-- Data of any width, divided from its most significant bit on. -/
def divide {n : ℕ} (v : BitVec n) : CrcUnit := { u with crc := feed u.gpoly u.crc (bitsMsb v) }

/-- A write of 32 bits to `CRC_CRC`. -/
def write32 (v : Word) : CrcUnit :=
  if u.ctrl &&& ctrlWas ≠ 0 then { u with crc := transpose u.tot v }
  else u.divide (transpose u.tot v)

/-- A write of 8 bits to `CRC_CRC`. -/
def write8 (v : Byte) : CrcUnit :=
  if u.ctrl &&& ctrlWas ≠ 0 then
    { u with crc := (u.crc &&& ~~~0xFF) ||| (transposeByte u.tot v).setWidth 32 }
  else u.divide (transposeByte u.tot v)

/-- A read of 32 bits from `CRC_CRC`. -/
def read32 : Word :=
  let v := transpose u.totr u.crc
  if u.ctrl &&& ctrlFxor ≠ 0 then ~~~v else v

end CrcUnit

/-! ### `crc` -/

def poly : Word := 0x04c11db7

def seed : Word := 0xffffffff

/-- `FLAGS` -/
def flags : Word := ctrlFxor ||| ctrlTot 2 ||| ctrlTotr 2

/-- `while (((uintptr_t)src & 0x03) != 0 && (src < target)) { CRC8 = *src++; }` -/
def alignLoop (m : ℕ → Byte) (src target : ℕ) (u : CrcUnit) : ℕ × CrcUnit :=
  if src &&& 0x03 ≠ 0 ∧ src < target then alignLoop m (src + 1) target (u.write8 (m src)) else (src, u)
termination_by target - src

/-- `while (src <= target - 4) { CRC_CRC = *(uint32_t *)src; src += 4; }` -/
def wordLoop (m : ℕ → Byte) (src target : ℕ) (u : CrcUnit) : ℕ × CrcUnit :=
  if (src : ℤ) ≤ target - 4 then wordLoop m (src + 4) target (u.write32 (load32 m src)) else (src, u)
termination_by target - src

/-- `while (src < target) { CRC8 = *src++; }` -/
def byteLoop (m : ℕ → Byte) (src target : ℕ) (u : CrcUnit) : CrcUnit :=
  if src < target then byteLoop m (src + 1) target (u.write8 (m src)) else u
termination_by target - src

/-- The unit after the writes of `crc`. -/
def crcRun (m : ℕ → Byte) (data : ℕ) (datalen : BitVec 16) (u : CrcUnit) : CrcUnit :=
  let target := data + datalen.toNat
  let u := { u with ctrl := flags ||| ctrlTcrc ||| ctrlWas }
  let u := { u with gpoly := poly }
  let u := u.write32 seed
  let u := { u with ctrl := flags ||| ctrlTcrc }
  let (src, u) := alignLoop m data target u
  let (src, u) := wordLoop m src target u
  byteLoop m src target u

/-- `crc` -/
def crc (m : ℕ → Byte) (data : ℕ) (datalen : BitVec 16) (u : CrcUnit) : Word :=
  (crcRun m data datalen u).read32

/-! ### `crcbb` -/

/-- A round of the inner loop, with the variables `c` and `crc`. -/
def bitRound (s : Byte × Word) : Byte × Word :=
  if (s.1.setWidth 32 ^^^ s.2) &&& 1 ≠ 0 then (s.1 >>> 1, (s.2 >>> 1) ^^^ 0xEDB88320)
  else (s.1 >>> 1, s.2 >>> 1)

/-- A round of the outer loop. -/
def byteRound (crc : Word) (c : Byte) : Word := (bitRound^[8] (c, crc)).2

/-- The loop over the bytes. -/
def crcBytes (m : ℕ → Byte) (address : ℕ) (bytes : BitVec 32) : Word :=
  (List.range bytes.toNat).foldl (fun crc count1 => byteRound crc (m (address + count1))) 0xFFFFFFFF

/-- `crcbb` of `crc.ino` -/
def crcbb (m : ℕ → Byte) (address : ℕ) (bytes : BitVec 32) : Word := crcBytes m address bytes

/-- `crc32` of `mtalk.ino.tmp` -/
def crc32 (m : ℕ → Byte) (address : ℕ) (bytes : BitVec 32) : Word := crcBytes m address bytes

/-! ### The message -/

/-- The bits of some bytes, each from its least significant bit on. -/
def message (bs : List Byte) : List Bool := bs.flatMap bits

theorem message_append (bs bs' : List Byte) : message (bs ++ bs') = message bs ++ message bs' :=
  List.flatMap_append

theorem message_singleton (b : Byte) : message [b] = bits b := by
  simp [message]

/-- The bits of a word are those of its bytes. -/
theorem bits_load32 (m : ℕ → Byte) (a : ℕ) : bits (load32 m a) = message (read m a 4) := by
  have hread : read m a 4 = [m a, m (a + 1), m (a + 2), m (a + 3)] := rfl
  rw [load32, bits_append, bits_append, bits_append, hread]
  simp [message]

/-! ### The unit divides the message -/

/-- The unit after a message. -/
def CrcUnit.fed (u : CrcUnit) (bs : List Byte) : CrcUnit :=
  { u with crc := feed u.gpoly u.crc (message bs) }

theorem fed_append (u : CrcUnit) (bs bs' : List Byte) : (u.fed bs).fed bs' = u.fed (bs ++ bs') := by
  simp only [CrcUnit.fed, message_append, feed_append]

/-- The mode in which data are written. -/
def CrcUnit.Ready (u : CrcUnit) : Prop := u.ctrl = flags ||| ctrlTcrc

theorem CrcUnit.Ready.fed {u : CrcUnit} (h : u.Ready) (bs : List Byte) : (u.fed bs).Ready := h

theorem write8_of_ready {u : CrcUnit} (h : u.Ready) (b : Byte) : u.write8 b = u.fed [b] := by
  have hwas : u.ctrl &&& ctrlWas = 0 := by
    rw [h]
    decide
  have htot : u.tot = 2 := by
    rw [CrcUnit.tot, h]
    decide
  rw [CrcUnit.write8, if_neg (not_not.2 hwas), htot, CrcUnit.fed, message_singleton, ← bitsMsb_reverse]
  rfl

theorem write32_of_ready {u : CrcUnit} (h : u.Ready) (m : ℕ → Byte) (a : ℕ) :
    u.write32 (load32 m a) = u.fed (read m a 4) := by
  have hwas : u.ctrl &&& ctrlWas = 0 := by
    rw [h]
    decide
  have htot : u.tot = 2 := by
    rw [CrcUnit.tot, h]
    decide
  rw [CrcUnit.write32, if_neg (not_not.2 hwas), htot, CrcUnit.fed, ← bits_load32, ← bitsMsb_reverse]
  rfl

theorem read32_of_ready {u : CrcUnit} (h : u.Ready) : u.read32 = ~~~u.crc.reverse := by
  have hfxor : u.ctrl &&& ctrlFxor ≠ 0 := by
    rw [h]
    decide
  have htotr : u.totr = 2 := by
    rw [CrcUnit.totr, h]
    decide
  rw [CrcUnit.read32, if_pos hfxor, htotr]
  rfl

/-- What a loop has written: the bytes up to where it has come, which is not beyond the end. -/
def Written (m : ℕ → Byte) (src target : ℕ) (u : CrcUnit) (r : ℕ × CrcUnit) : Prop :=
  ∃ n, src + n ≤ target ∧ r = (src + n, u.fed (read m src n))

theorem Written.refl (m : ℕ → Byte) {src target : ℕ} (h : src ≤ target) (u : CrcUnit) :
    Written m src target u (src, u) :=
  ⟨0, h, rfl⟩

theorem Written.trans {m : ℕ → Byte} {src target : ℕ} {u : CrcUnit} {k : ℕ} {r : ℕ × CrcUnit}
    (h : Written m (src + k) target (u.fed (read m src k)) r) : Written m src target u r := by
  obtain ⟨n, hn, rfl⟩ := h
  refine ⟨k + n, by omega, ?_⟩
  rw [fed_append, ← read_add, Nat.add_assoc]

theorem written_alignLoop (m : ℕ → Byte) {src target : ℕ} (hle : src ≤ target) {u : CrcUnit}
    (hu : u.Ready) : Written m src target u (alignLoop m src target u) := by
  fun_induction alignLoop m src target u with
  | case1 src u h ih =>
    rw [write8_of_ready hu] at ih ⊢
    exact Written.trans (k := 1) (ih h.2 (hu.fed _))
  | case2 src u h => exact Written.refl m hle u

theorem written_wordLoop (m : ℕ → Byte) {src target : ℕ} (hle : src ≤ target) {u : CrcUnit}
    (hu : u.Ready) : Written m src target u (wordLoop m src target u) := by
  fun_induction wordLoop m src target u with
  | case1 src u h ih =>
    rw [write32_of_ready hu] at ih ⊢
    exact Written.trans (ih (by omega) (hu.fed _))
  | case2 src u h => exact Written.refl m hle u

theorem byteLoop_eq (m : ℕ → Byte) {src target : ℕ} (hle : src ≤ target) {u : CrcUnit}
    (hu : u.Ready) : byteLoop m src target u = u.fed (read m src (target - src)) := by
  fun_induction byteLoop m src target u with
  | case1 src u h ih =>
    have hlen : target - src = 1 + (target - (src + 1)) := by
      omega
    rw [write8_of_ready hu] at ih ⊢
    rw [ih h (hu.fed _), hlen, read_add, ← fed_append]
    rfl
  | case2 src u h =>
    obtain rfl : src = target := by
      omega
    rw [Nat.sub_self]
    rfl

/-- **The phases.** However the address splits the buffer into bytes and words, the unit is fed its
bytes in order. -/
theorem crcRun_eq (m : ℕ → Byte) (data : ℕ) (datalen : BitVec 16) (u : CrcUnit) :
    crcRun m data datalen u =
      (CrcUnit.mk (flags ||| ctrlTcrc) poly seed).fed (read m data datalen.toNat) := by
  have hready : (CrcUnit.mk (flags ||| ctrlTcrc) poly seed).Ready := rfl
  obtain ⟨n, hn, halign⟩ := written_alignLoop m (Nat.le_add_right data datalen.toNat) hready
  obtain ⟨k, hk, hword⟩ := written_wordLoop m hn (hready.fed (read m data n))
  have hseed : CrcUnit.write32 ⟨flags ||| ctrlTcrc ||| ctrlWas, poly, u.crc⟩ seed =
      ⟨flags ||| ctrlTcrc ||| ctrlWas, poly, seed⟩ := by
    have hwas : (flags ||| ctrlTcrc ||| ctrlWas) &&& ctrlWas ≠ 0 := by
      decide
    have hsame : transpose ((flags ||| ctrlTcrc ||| ctrlWas) >>> 30) seed = seed := by
      decide +kernel
    rw [CrcUnit.write32, if_pos hwas, CrcUnit.tot, hsame]
  have hlen : n + (k + (data + datalen.toNat - (data + n + k))) = datalen.toNat := by
    omega
  simp only [crcRun]
  rw [hseed]
  simp only [halign, hword]
  rw [byteLoop_eq m hk ((hready.fed _).fed _), fed_append, fed_append, ← read_add,
    Nat.add_assoc data n k, ← read_add, ← Nat.add_assoc data n k, hlen]

/-! ### The loop divides the message -/

theorem and_one_ne_zero (v : Word) : v &&& 1 ≠ 0 ↔ v.getLsbD 0 = true := by
  have hbit : v &&& 1 = (BitVec.ofBool (v.getLsbD 0)).setWidth 32 :=
    BitVec.and_one_eq_setWidth_ofBool_getLsbD
  rw [hbit]
  cases v.getLsbD 0 with
  | false => decide
  | true => decide

/-- A round is a step of the register that shifts to the right. -/
theorem bitRound_eq (c : Byte) (crc : Word) :
    bitRound (c, crc) = (c >>> 1, shiftRight 0xEDB88320 crc (c.getLsbD 0)) := by
  have hbit : (c.setWidth 32 ^^^ crc).getLsbD 0 = (crc.getLsbD 0 ^^ c.getLsbD 0) := by
    simp [Bool.xor_comm]
  rw [bitRound, shiftRight]
  simp only [and_one_ne_zero, hbit]
  split
  · rfl
  · rw [BitVec.xor_zero]

theorem bitRound_iterate (c : Byte) (crc : Word) (k : ℕ) :
    bitRound^[k] (c, crc) = (c >>> k, feedRight 0xEDB88320 crc ((List.range k).map c.getLsbD)) := by
  induction k with
  | zero => simp [feedRight]
  | succ k ih =>
    have hbit : (c >>> k).getLsbD 0 = c.getLsbD k := by
      rw [BitVec.getLsbD_ushiftRight, Nat.add_zero]
    rw [Function.iterate_succ_apply', ih, bitRound_eq, hbit, List.range_succ, List.map_append,
      feedRight_append, BitVec.shiftRight_add]
    rfl

theorem byteRound_eq (crc : Word) (c : Byte) :
    byteRound crc c = feedRight 0xEDB88320 crc (bits c) := by
  rw [byteRound, bitRound_iterate]
  rfl

theorem foldl_byteRound (crc : Word) (bs : List Byte) :
    bs.foldl byteRound crc = feedRight 0xEDB88320 crc (message bs) := by
  have hround : byteRound = fun crc c => feedRight 0xEDB88320 crc (bits c) := by
    funext crc c
    exact byteRound_eq crc c
  rw [message, feedRight, List.foldl_flatMap, hround]
  rfl

/-- **The loop** has the mirror image of the register of the unit. -/
theorem crcBytes_eq (m : ℕ → Byte) (address : ℕ) (bytes : BitVec 32) :
    crcBytes m address bytes = (feed poly seed (message (read m address bytes.toNat))).reverse := by
  have hpoly : (0xEDB88320 : Word) = poly.reverse := by
    decide +kernel
  have hseed : (0xFFFFFFFF : Word) = seed.reverse := by
    decide +kernel
  have hfold : crcBytes m address bytes = (read m address bytes.toNat).foldl byteRound 0xFFFFFFFF := by
    rw [crcBytes, ByteMem.read, List.foldl_map]
  rw [hfold, foldl_byteRound, hpoly, hseed, feedRight_reverse]

/-! ### CRC-32 -/

/-- `v` is the reflected CRC-32 of some bytes, without the complement at the end: it has, in reverse,
the remainder of the division by the polynomial `0x04c11db7` with the start value `0xffffffff`. -/
def IsCrc32 (bs : List Byte) (v : Word) : Prop :=
  toPoly v.reverse = remainder (0x04c11db7 : Word) 0xffffffff (message bs)

theorem isCrc32_iff (bs : List Byte) (v : Word) :
    IsCrc32 bs v ↔ v = (feed poly seed (message bs)).reverse := by
  have hfeed := toPoly_feed poly (by decide) seed (message bs)
  constructor
  · intro h
    rw [← BitVec.reverse_reverse_eq (x := v), toPoly_injective (h.trans hfeed.symm)]
  · rintro rfl
    rw [IsCrc32, BitVec.reverse_reverse_eq]
    exact hfeed

theorem crc_eq (m : ℕ → Byte) (data : ℕ) (datalen : BitVec 16) (u : CrcUnit) :
    crc m data datalen u = ~~~(feed poly seed (message (read m data datalen.toNat))).reverse := by
  have hready : (CrcUnit.mk (flags ||| ctrlTcrc) poly seed).Ready := rfl
  rw [crc, crcRun_eq, read32_of_ready (hready.fed _)]
  rfl

/-- **The two ways agree.** For every memory, address and length, the value that `crc` reads from the
unit is the complement of the one that `crcbb` computes, as `crc32` does, and both are the CRC-32 of
the buffer, with and without the complement at the end. -/
theorem crc_eq_not_crcbb (m : ℕ → Byte) (data : ℕ) (datalen : BitVec 16) (u : CrcUnit) :
    crc m data datalen u = ~~~crcbb m data (datalen.setWidth 32) ∧
      crc32 m data (datalen.setWidth 32) = crcbb m data (datalen.setWidth 32) ∧
      ∀ v, IsCrc32 (read m data datalen.toNat) v ↔
        v = crcbb m data (datalen.setWidth 32) ∧ ~~~v = crc m data datalen u := by
  have hlen : (datalen.setWidth 32).toNat = datalen.toNat := by
    rw [BitVec.toNat_setWidth]
    exact Nat.mod_eq_of_lt (datalen.isLt.trans (by norm_num))
  have hcrcbb := crcBytes_eq m data (datalen.setWidth 32)
  rw [hlen] at hcrcbb
  have hcrc : crc m data datalen u = ~~~crcbb m data (datalen.setWidth 32) := by
    rw [crc_eq, crcbb, hcrcbb]
  refine ⟨hcrc, rfl, fun v => ?_⟩
  rw [isCrc32_iff, ← hcrcbb]
  constructor
  · rintro rfl
    exact ⟨rfl, hcrc.symm⟩
  · exact fun h => h.1

/-- The check value of `crc.ino`. -/
example :
    crcbb (fun i => ([0x31, 0x32, 0x33, 0x34, 0x35, 0x36, 0x37, 0x38, 0x39] : List Byte).getD i 0) 0 9
      = ~~~0xcbf43926 := by
  decide +kernel

end CrcSketch
