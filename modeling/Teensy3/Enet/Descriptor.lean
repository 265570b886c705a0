import Teensy3.Lib.ByteMem
import Teensy3.Lib.SlotRing

/-!
# The buffer descriptors of the ENET controller

`enetbufferdesc_t` and the two descriptor rings as `etherk66_init` (`lwipk66.c`) and `setup`
(`etherraw.ino`) leave them.  Of a descriptor only `length`, `flags` and `buffer` are read by the
drivers or by the MAC as it is described here; the two sketches differ only in `moreflags`, the
interrupt enable, which no driver reads.

A descriptor's `buffer` is an offset in bytes into `rxbufs` (or `txbufs`), the one array that all
buffers of a ring are cut from.  In `flags`, bit 15 is `E` (receive: empty) or `R` (transmit:
ready), and bit 13 is `W` (wrap).
-/

namespace Enet

open ByteMem

/-- The fields of `enetbufferdesc_t` that the drivers and the MAC use. -/
structure Desc where
  length : BitVec 16
  flags : BitVec 16
  buffer : ℕ
  deriving DecidableEq

def rxSize : ℕ := 12
def txSize : ℕ := 10
/-- Words in a buffer. -/
def bwords : ℕ := 380
/-- Bytes in a buffer, the value of `ENET_MRBR`. -/
def bufBytes : ℕ := bwords * 4

/-- The test `(flags & 0x8000) == 0`. -/
def owner0 (flags : BitVec 16) : Bool := flags &&& 0x8000#16 == 0#16

/-- The wrap bit. -/
def wrap (flags : BitVec 16) : Bool := flags &&& 0x2000#16 != 0#16

theorem owner0_eq (flags : BitVec 16) : owner0 flags = !flags.getLsbD 15 := by
  rw [owner0, show (0x8000#16) = BitVec.twoPow 16 15 from rfl, BitVec.and_twoPow]
  cases flags.getLsbD 15 <;> decide

theorem wrap_eq (flags : BitVec 16) : wrap flags = flags.getLsbD 13 := by
  rw [wrap, show (0x2000#16) = BitVec.twoPow 16 13 from rfl, BitVec.and_twoPow]
  cases flags.getLsbD 13 <;> decide

/-- Change the flags of one descriptor. -/
def setFlags (ring : ℕ → Desc) (i : ℕ) (flags : BitVec 16) : ℕ → Desc :=
  Function.update ring i { ring i with flags }

@[simp] theorem setFlags_self (ring : ℕ → Desc) (i : ℕ) (flags : BitVec 16) :
    setFlags ring i flags i = { ring i with flags } := by
  simp [setFlags]

theorem setFlags_of_ne {ring : ℕ → Desc} {i j : ℕ} {flags : BitVec 16} (h : j ≠ i) :
    setFlags ring i flags j = ring j := by
  simp [setFlags, h]

@[simp] theorem setFlags_length (ring : ℕ → Desc) (i j : ℕ) (flags : BitVec 16) :
    (setFlags ring i flags j).length = (ring j).length := by
  rcases eq_or_ne j i with rfl | h <;> simp [setFlags_of_ne, *]

@[simp] theorem setFlags_buffer (ring : ℕ → Desc) (i j : ℕ) (flags : BitVec 16) :
    (setFlags ring i flags j).buffer = (ring j).buffer := by
  rcases eq_or_ne j i with rfl | h <;> simp [setFlags_of_ne, *]

/-- The bytes that a descriptor stands for. -/
def Desc.frame (d : Desc) (bufs : ℕ → Byte) : List Byte := read bufs d.buffer d.length.toNat

/-- What both rings keep: each descriptor owns its own buffer, says no more bytes than fit into
it, and the wrap bit marks the last entry. -/
structure RingOk (n : ℕ) (ring : ℕ → Desc) : Prop where
  buffer_eq : ∀ i < n, (ring i).buffer = i * bufBytes
  length_le : ∀ i < n, (ring i).length.toNat ≤ bufBytes
  wrap_iff : ∀ i < n, wrap (ring i).flags = true ↔ i = n - 1

/-- Where the MAC goes after the descriptor `i`: back to the first one after a descriptor with
the wrap bit, else to the next one. -/
def macNext (ring : ℕ → Desc) (i : ℕ) : ℕ := if wrap (ring i).flags then 0 else i + 1

/-- The MAC, which knows only the wrap bits, walks the ring as the driver does. -/
theorem RingOk.macNext_eq {n i : ℕ} {ring : ℕ → Desc} (h : RingOk n ring) (hi : i < n) :
    macNext ring i = SlotRing.next n i := by
  have hw := h.wrap_iff i hi
  unfold macNext SlotRing.next
  split_ifs with h1 h2 h2
  · have := hw.1 h1
    omega
  · rfl
  · rfl
  · exact absurd (hw.2 (by omega)) h1

/-- A descriptor may be replaced by one with the same buffer and wrap bit. -/
theorem RingOk.update {n i : ℕ} {ring : ℕ → Desc} {d : Desc} (h : RingOk n ring)
    (hbuf : d.buffer = i * bufBytes) (hlen : d.length.toNat ≤ bufBytes)
    (hw : wrap d.flags = true ↔ i = n - 1) : RingOk n (Function.update ring i d) := by
  refine ⟨fun j hj => ?_, fun j hj => ?_, fun j hj => ?_⟩ <;> rcases eq_or_ne j i with rfl | hne
  · rw [Function.update_self]
    exact hbuf
  · rw [Function.update_of_ne hne]
    exact h.buffer_eq j hj
  · rw [Function.update_self]
    exact hlen
  · rw [Function.update_of_ne hne]
    exact h.length_le j hj
  · rw [Function.update_self]
    exact hw
  · rw [Function.update_of_ne hne]
    exact h.wrap_iff j hj

theorem RingOk.setFlags {n i : ℕ} {ring : ℕ → Desc} {flags : BitVec 16} (h : RingOk n ring)
    (hi : i < n) (hw : wrap flags = true ↔ i = n - 1) : RingOk n (setFlags ring i flags) :=
  h.update (h.buffer_eq i hi) (h.length_le i hi) hw

/-- The `length` field holds every number of bytes that fits into a buffer. -/
theorem toNat_ofNat_length {n : ℕ} (h : n ≤ bufBytes) : (BitVec.ofNat 16 n).toNat = n := by
  rw [BitVec.toNat_ofNat, Nat.mod_eq_of_lt]
  have : bufBytes = 1520 := rfl
  omega

/-- A copy into one buffer does not reach another. -/
theorem read_other_buffer {i j k n : ℕ} (hij : j ≠ i) (bufs : ℕ → Byte) {bs : List Byte}
    (hbs : k + bs.length ≤ bufBytes) (hn : n ≤ bufBytes) :
    read (blit bufs (i * bufBytes + k) bs) (j * bufBytes) n = read bufs (j * bufBytes) n := by
  apply read_blit_disjoint
  rcases Nat.lt_or_gt_of_ne hij with hlt | hlt
  · left
    have : (j + 1) * bufBytes ≤ i * bufBytes := Nat.mul_le_mul_right _ hlt
    rw [Nat.add_mul] at this
    omega
  · right
    have : (i + 1) * bufBytes ≤ j * bufBytes := Nat.mul_le_mul_right _ hlt
    rw [Nat.add_mul] at this
    omega

/-- Copying into one buffer leaves the frames of the other descriptors alone. -/
theorem RingOk.frame_blit {n i j k : ℕ} {ring : ℕ → Desc} (h : RingOk n ring) (hj : j < n)
    (hij : j ≠ i) (bufs : ℕ → Byte) {bs : List Byte} (hbs : k + bs.length ≤ bufBytes) :
    (ring j).frame (blit bufs (i * bufBytes + k) bs) = (ring j).frame bufs := by
  unfold Desc.frame
  rw [h.buffer_eq j hj]
  exact read_other_buffer hij bufs hbs (h.length_le j hj)

end Enet
