import Mathlib.Tactic
import Teensy3.Lib.ByteMem
import Teensy3.Lib.Scatter

/-!
# The W5200 and its SPI transactions

The chip as its driver sees it: a memory with 16-bit addresses behind an SPI port.  A transaction
lasts from the assertion of chip select to its release.  Its first four bytes are a header (the
address, and 15 bits of length below a bit that says whether to write); from then on each byte that
is clocked writes or reads one byte of the memory, and the address goes up by one.  What comes after
the last of them, up to the release of chip select, is ignored.

* `Chip.shift`, `Chip.clock`, `Chip.release`: one byte, several bytes, the end of a transaction;
* `writeMosi`, `readMosi` and their one-byte siblings: the bytes that `W5100Class::write` and
  `W5100Class::read` of `w5100.cpp` clock out with `SPI.transfer`;
* `write_eq`, `read_eq`: what these transactions do.
-/

namespace W5200

open ByteMem Scatter

structure Chip where
  mem : BitVec 16 → Byte
  /-- The header of the transaction, as far as it has come in. -/
  header : List Byte
  /-- How many bytes have been written or read since. -/
  count : ℕ

/-- One byte goes in, and one comes out. -/
def Chip.shift (c : Chip) (b : Byte) : Byte × Chip :=
  match c.header with
  | [ah, al, lh, ll] =>
    if c.count < ((lh &&& 0x7F) ++ ll).toNat then
      let a := (ah ++ al) + BitVec.ofNat 16 c.count
      if lh.msb then (0, { c with mem := Function.update c.mem a b, count := c.count + 1 })
      else (c.mem a, { c with count := c.count + 1 })
    else (0, c)
  | h => (0, { c with header := h ++ [b] })

/-- Chip select is released. -/
def Chip.release (c : Chip) : Chip := { c with header := [], count := 0 }

/-- No transaction is under way. -/
def Chip.Released (c : Chip) : Prop := c.header = [] ∧ c.count = 0

/-- Several bytes, and what comes out. -/
def Chip.clock (c : Chip) : List Byte → List Byte × Chip
  | [] => ([], c)
  | b :: bs =>
    let r := c.shift b
    let rs := r.2.clock bs
    (r.1 :: rs.1, rs.2)

/-- The addresses of a burst. -/
def burst (a : BitVec 16) (i : ℕ) : BitVec 16 := a + BitVec.ofNat 16 i

/-! ### The driver -/

/-- The four header bytes; `op` is `0x80` to write and `0x00` to read. -/
def header (op : Byte) (addr len : BitVec 16) : List Byte :=
  [(addr >>> 8).setWidth 8, (addr &&& 0xFF).setWidth 8,
    op ||| ((len &&& 0x7F00) >>> 8).setWidth 8, (len &&& 0x00FF).setWidth 8]

/-- The bytes of `write(_addr, _buf, _len)`. -/
def writeMosi (addr : BitVec 16) (buf : List Byte) : List Byte :=
  header 0x80 addr (.ofNat 16 buf.length) ++ buf

/-- The bytes of `read(_addr, _buf, _len)`. -/
def readMosi (addr : BitVec 16) (len : ℕ) : List Byte :=
  header 0x00 addr (.ofNat 16 len) ++ List.replicate len 0

/-- The bytes of `write(_addr, _data)`. -/
def write8Mosi (addr : BitVec 16) (data : Byte) : List Byte :=
  [(addr >>> 8).setWidth 8, (addr &&& 0xFF).setWidth 8, 0x80, 0x01, data]

/-- The bytes of `read(_addr)`. -/
def read8Mosi (addr : BitVec 16) : List Byte :=
  [(addr >>> 8).setWidth 8, (addr &&& 0xFF).setWidth 8, 0x00, 0x01, 0]

/-- `write(_addr, _buf, _len)`. -/
def Chip.write (c : Chip) (addr : BitVec 16) (buf : List Byte) : Chip :=
  (c.clock (writeMosi addr buf)).2.release

/-- `read(_addr, _buf, _len)`: what is stored in `_buf`, and the chip after it. -/
def Chip.read (c : Chip) (addr : BitVec 16) (len : ℕ) : List Byte × Chip :=
  let r := c.clock (readMosi addr len)
  (r.1.drop 4, r.2.release)

/-- `write(_addr, _data)`. -/
def Chip.write8 (c : Chip) (addr : BitVec 16) (data : Byte) : Chip :=
  (c.clock (write8Mosi addr data)).2.release

/-- `read(_addr)`. -/
def Chip.read8 (c : Chip) (addr : BitVec 16) : Byte × Chip :=
  let r := c.clock (read8Mosi addr)
  (r.1.getD 4 0, r.2.release)

/-! ### One transaction -/

section Clock

variable {c : Chip} {ah al lh ll : Byte}

theorem clock_append (c : Chip) (bs cs : List Byte) :
    (c.clock (bs ++ cs)).1 = (c.clock bs).1 ++ ((c.clock bs).2.clock cs).1 ∧
      (c.clock (bs ++ cs)).2 = ((c.clock bs).2.clock cs).2 := by
  induction bs generalizing c with
  | nil => exact ⟨rfl, rfl⟩
  | cons b bs ih => exact ⟨congrArg ((c.shift b).1 :: ·) (ih _).1, (ih _).2⟩

@[simp] theorem length_clock (c : Chip) (bs : List Byte) : (c.clock bs).1.length = bs.length := by
  induction bs generalizing c with
  | nil => rfl
  | cons b bs ih => simp [Chip.clock, ih]

/-- The first four bytes are taken for the header. -/
theorem clock_header (h : c.Released) :
    c.clock [ah, al, lh, ll] =
      ([0, 0, 0, 0], { c with header := [ah, al, lh, ll] }) := by
  simp [Chip.clock, Chip.shift, h.1]

/-- Further bytes are written. -/
theorem clock_write (hc : c.header = [ah, al, lh, ll]) (hop : lh.msb = true) {bs : List Byte}
    (hlen : c.count + bs.length ≤ ((lh &&& 0x7F) ++ ll).toNat) :
    (c.clock bs).2 =
      { c with
        mem := put c.mem (fun i => burst (ah ++ al) (c.count + i)) bs
        count := c.count + bs.length } := by
  induction bs generalizing c with
  | nil => rfl
  | cons b bs ih =>
    rw [List.length_cons] at hlen
    have hlt : c.count < ((lh &&& 0x7F) ++ ll).toNat := by omega
    have hshift : (c.shift b).2 =
        { c with
          mem := Function.update c.mem (burst (ah ++ al) c.count) b
          count := c.count + 1 } := by
      simp only [Chip.shift, hc, hop, if_pos hlt, if_true, burst]
    have hrest := ih (c := (c.shift b).2) (by rw [hshift]; exact hc)
      (by rw [hshift]; simp only; omega)
    change ((c.shift b).2.clock bs).2 = _
    rw [hrest, hshift]
    simp only [put, List.length_cons, Nat.add_zero, Nat.add_assoc, Nat.add_comm 1]

/-- Or they are read. -/
theorem clock_read (hc : c.header = [ah, al, lh, ll]) (hop : lh.msb = false) {bs : List Byte}
    (hlen : c.count + bs.length ≤ ((lh &&& 0x7F) ++ ll).toNat) :
    c.clock bs =
      (get c.mem (fun i => burst (ah ++ al) (c.count + i)) bs.length,
        { c with count := c.count + bs.length }) := by
  induction bs generalizing c with
  | nil => rfl
  | cons b bs ih =>
    rw [List.length_cons] at hlen
    have hlt : c.count < ((lh &&& 0x7F) ++ ll).toNat := by omega
    have hshift : c.shift b =
        (c.mem (burst (ah ++ al) c.count), { c with count := c.count + 1 }) := by
      simp only [Chip.shift, hc, hop, if_pos hlt, Bool.false_eq_true, if_false, burst]
    have hrest := ih (c := (c.shift b).2) (by rw [hshift]; exact hc)
      (by rw [hshift]; simp only; omega)
    change ((c.shift b).1 :: ((c.shift b).2.clock bs).1, ((c.shift b).2.clock bs).2) = _
    rw [hrest, hshift, List.length_cons, get_succ]
    simp only [Nat.add_zero, Nat.add_assoc, Nat.add_comm 1]

end Clock

/-! ### Headers made of two words -/

/-- The bytes of a word in the order in which they are clocked. -/
def wordBytes (w : BitVec 16) : List Byte := [(w >>> 8).setWidth 8, w.setWidth 8]

theorem wordBytes_eq (w : BitVec 16) : wordBytes w = [byteOf w 1, byteOf w 0] := by
  have h1 : (w >>> 8).setWidth 8 = byteOf w 1 := by
    apply BitVec.eq_of_getLsbD_eq
    intro i hi
    rw [getLsbD_byteOf]
    simp [hi]
  have h0 : w.setWidth 8 = byteOf w 0 := by
    apply BitVec.eq_of_getLsbD_eq
    intro i hi
    rw [getLsbD_byteOf]
    simp [hi]
  rw [wordBytes, h1, h0]

theorem append_byteOf (w : BitVec 16) : byteOf w 1 ++ byteOf w 0 = w := by
  apply eq_of_byteOf16 <;> simp

theorem setWidth_and_ff (w : BitVec 16) : (w &&& 0xFF).setWidth 8 = w.setWidth 8 := by
  apply BitVec.eq_of_getLsbD_eq
  intro i hi
  interval_cases i <;> simp

theorem header_write (addr len : BitVec 16) :
    header 0x80 addr len = wordBytes addr ++ wordBytes (len ||| 0x8000) := by
  have hhigh : (0x80 : Byte) ||| ((len &&& 0x7F00) >>> 8).setWidth 8 =
      ((len ||| 0x8000) >>> 8).setWidth 8 := by
    apply BitVec.eq_of_getLsbD_eq
    intro i hi
    interval_cases i <;> simp
  have hlow : len.setWidth 8 = (len ||| 0x8000).setWidth 8 := by
    apply BitVec.eq_of_getLsbD_eq
    intro i hi
    interval_cases i <;> simp
  rw [header, setWidth_and_ff, setWidth_and_ff, hhigh, hlow]
  rfl

theorem header_read (addr len : BitVec 16) :
    header 0x00 addr len = wordBytes addr ++ wordBytes (len &&& 0x7FFF) := by
  have hhigh : (0x00 : Byte) ||| ((len &&& 0x7F00) >>> 8).setWidth 8 =
      ((len &&& 0x7FFF) >>> 8).setWidth 8 := by
    apply BitVec.eq_of_getLsbD_eq
    intro i hi
    interval_cases i <;> simp
  have hlow : len.setWidth 8 = (len &&& 0x7FFF).setWidth 8 := by
    apply BitVec.eq_of_getLsbD_eq
    intro i hi
    interval_cases i <;> simp
  rw [header, setWidth_and_ff, setWidth_and_ff, hhigh, hlow]
  rfl

/-- The header of the transaction under way is the words `a` and `l`. -/
def Chip.HeaderIs (c : Chip) (a l : BitVec 16) : Prop := c.header = wordBytes a ++ wordBytes l

section Words

variable {c : Chip} {a l : BitVec 16}

theorem clock_words (h : c.Released) (a l : BitVec 16) :
    c.clock (wordBytes a ++ wordBytes l) =
      ([0, 0, 0, 0], { c with header := wordBytes a ++ wordBytes l }) :=
  clock_header h

theorem byteOf_and_7f (l : BitVec 16) :
    ((byteOf l 1 &&& 0x7F) ++ byteOf l 0).toNat = (l &&& 0x7FFF).toNat := by
  congr 1
  apply eq_of_byteOf16
  · rw [byteOf_append_zero, byteOf_and,
      show byteOf (0x7FFF : BitVec 16) 0 = BitVec.allOnes 8 by decide, BitVec.and_allOnes]
  · rw [byteOf_append_succ, byteOf_self, byteOf_and,
      show byteOf (0x7FFF : BitVec 16) 1 = 0x7F by decide]

theorem msb_byteOf (l : BitVec 16) : (byteOf l 1).msb = l.msb := by
  rw [BitVec.msb_eq_getLsbD_last, BitVec.msb_eq_getLsbD_last, getLsbD_byteOf]
  rfl

theorem HeaderIs.clock_write (hc : c.HeaderIs a l) (hop : l.msb = true) (bs : List Byte)
    (hlen : c.count + bs.length ≤ (l &&& 0x7FFF).toNat) :
    (c.clock bs).2 =
      { c with
        mem := put c.mem (fun i => burst a (c.count + i)) bs
        count := c.count + bs.length } := by
  rw [Chip.HeaderIs, wordBytes_eq, wordBytes_eq] at hc
  rw [W5200.clock_write hc (by rw [msb_byteOf, hop]) (by rw [byteOf_and_7f]; exact hlen),
    append_byteOf]

theorem HeaderIs.clock_read (hc : c.HeaderIs a l) (hop : l.msb = false) (bs : List Byte)
    (hlen : c.count + bs.length ≤ (l &&& 0x7FFF).toNat) :
    c.clock bs =
      (get c.mem (fun i => burst a (c.count + i)) bs.length,
        { c with count := c.count + bs.length }) := by
  rw [Chip.HeaderIs, wordBytes_eq, wordBytes_eq] at hc
  rw [W5200.clock_read hc (by rw [msb_byteOf, hop]) (by rw [byteOf_and_7f]; exact hlen),
    append_byteOf]

end Words

/-! ### The length word -/

theorem toNat_and_7fff {len : ℕ} (h : len < 32768) :
    (BitVec.ofNat 16 len &&& 0x7FFF).toNat = len := by
  rw [BitVec.toNat_and, BitVec.toNat_ofNat, Nat.mod_eq_of_lt (by omega),
    show (0x7FFF : BitVec 16).toNat = 2 ^ 15 - 1 by decide, Nat.and_two_pow_sub_one_eq_mod,
    Nat.mod_eq_of_lt (by omega)]

/-- The length word of a transaction that writes. -/
theorem writeLength {len : ℕ} (h : len < 32768) :
    (BitVec.ofNat 16 len ||| 0x8000).msb = true ∧
      ((BitVec.ofNat 16 len ||| 0x8000) &&& 0x7FFF).toNat = len := by
  have hmask : ∀ w : BitVec 16, (w ||| 0x8000) &&& 0x7FFF = w &&& 0x7FFF := by
    intro w
    apply BitVec.eq_of_getLsbD_eq
    intro i hi
    interval_cases i <;> simp
  refine ⟨?_, ?_⟩
  · rw [BitVec.msb_or]
    exact Bool.or_true _
  · rw [hmask, toNat_and_7fff h]

/-- The length word of a transaction that reads. -/
theorem readLength {len : ℕ} (h : len < 32768) :
    (BitVec.ofNat 16 len &&& 0x7FFF).msb = false ∧
      ((BitVec.ofNat 16 len &&& 0x7FFF) &&& 0x7FFF).toNat = len := by
  refine ⟨?_, ?_⟩
  · rw [BitVec.msb_and]
    exact Bool.and_false _
  · rw [BitVec.and_assoc, BitVec.and_self, toNat_and_7fff h]

/-! ### The transactions of the driver -/

section Driver

variable {c : Chip}

theorem Chip.Released.setMem (h : c.Released) (mem : BitVec 16 → Byte) :
    Chip.Released { c with mem := mem } := h

theorem Chip.Released.release (h : c.Released) (mem : BitVec 16 → Byte) (hd : List Byte) (n : ℕ) :
    Chip.release ⟨mem, hd, n⟩ = { c with mem := mem } := by
  rw [Chip.release, ← h.1, ← h.2]

/-- A burst of writes. -/
theorem write_eq (h : c.Released) (addr : BitVec 16) (buf : List Byte) (hlen : buf.length < 32768) :
    c.write addr buf = { c with mem := put c.mem (burst addr) buf } := by
  obtain ⟨hop, hl⟩ := writeLength hlen
  have hdata := HeaderIs.clock_write
    (c := { c with header := wordBytes addr ++ wordBytes (.ofNat 16 buf.length ||| 0x8000) })
    rfl hop buf (by simp only [h.2, hl]; omega)
  rw [Chip.write, writeMosi, header_write, (clock_append _ _ _).2, clock_words h, hdata, h.release]
  simp only [h.2, Nat.zero_add]

/-- A burst of reads. -/
theorem read_eq (h : c.Released) (addr : BitVec 16) (len : ℕ) (hlen : len < 32768) :
    c.read addr len = (get c.mem (burst addr) len, c) := by
  obtain ⟨hop, hl⟩ := readLength hlen
  have hdata := HeaderIs.clock_read
    (c := { c with header := wordBytes addr ++ wordBytes (.ofNat 16 len &&& 0x7FFF) })
    rfl hop (List.replicate len 0) (by simp only [h.2, hl, List.length_replicate]; omega)
  have hparts := clock_append c (wordBytes addr ++ wordBytes (.ofNat 16 len &&& 0x7FFF))
    (List.replicate len 0)
  rw [clock_words h, hdata] at hparts
  simp only [Chip.read, readMosi, header_read]
  rw [hparts.1, hparts.2, h.release]
  refine Prod.ext ?_ rfl
  simp only [h.2, Nat.zero_add, List.length_replicate]
  rfl

/-- The one-byte functions clock out the bytes of their siblings for a buffer of one byte. -/
theorem write8Mosi_eq (addr : BitVec 16) (data : Byte) :
    write8Mosi addr data = writeMosi addr [data] := by
  simp [write8Mosi, writeMosi, header]

theorem read8Mosi_eq (addr : BitVec 16) : read8Mosi addr = readMosi addr 1 := rfl

theorem write8_eq (h : c.Released) (addr : BitVec 16) (data : Byte) :
    c.write8 addr data = { c with mem := Function.update c.mem addr data } := by
  rw [Chip.write8, write8Mosi_eq]
  have hwrite := write_eq h addr [data] (by simp)
  simpa [Chip.write, put, burst] using hwrite

theorem read8_eq (h : c.Released) (addr : BitVec 16) : c.read8 addr = (c.mem addr, c) := by
  have hread := read_eq h addr 1 (by omega)
  have hlen : (c.clock (readMosi addr 1)).1.length = 5 := by
    rw [length_clock]
    rfl
  simp only [Chip.read, Scatter.get, burst, Prod.mk.injEq] at hread
  obtain ⟨hbytes, hchip⟩ := hread
  rw [Chip.read8, read8Mosi_eq]
  simp only [hchip, Prod.mk.injEq, and_true]
  have hget : (c.clock (readMosi addr 1)).1.getD 4 0 =
      ((c.clock (readMosi addr 1)).1.drop 4).getD 0 0 := by
    simp [List.getD_eq_getElem?_getD]
  rw [hget, hbytes]
  simp

end Driver

end W5200
