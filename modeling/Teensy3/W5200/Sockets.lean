import Mathlib.Tactic
import Teensy3.Lib.ByteMem
import Teensy3.Lib.Scatter
import Teensy3.W5200.Chip

/-!
# The socket buffers of the W5200

Each of the 8 sockets has a transmit and a receive buffer of 2048 bytes in the memory of the chip,
used as rings: the pointers `TX_WR` and `RX_RD` run freely through 16 bits, and a byte of the stream
is where the pointer leads modulo the size of the ring.  `send_data_processing` and
`recv_data_processing` of `w5100.cpp` go through a ring in one burst, or in two if it ends in
between.

* `ring base p`: the walk round a ring, from the pointer `p` on;
* `put_bursts`, `get_bursts`: the bursts of the driver follow it;
* `send_eq`, `recv_eq`: what the two functions do to the memory of the chip;
* `socket_streams`: sockets are byte streams.
-/

namespace W5200

open ByteMem Scatter

/-! ### The driver -/

/-- `SBASE[s]` after `init`: `TXBUF_BASE + SSIZE * i`. -/
def sbase (s : ℕ) : BitVec 16 := .ofNat 16 (0x8000 + 2048 * s)

/-- `RBASE[s]` after `init`: `RXBUF_BASE + RSIZE * i`. -/
def rbase (s : ℕ) : BitVec 16 := .ofNat 16 (0xC000 + 2048 * s)

/-- The address of a socket register, `CH_BASE + _s * CH_SIZE + _addr`. -/
def snAddr (s : ℕ) (addr : BitVec 16) : BitVec 16 := .ofNat 16 (0x4000 + s * 0x0100) + addr

def snTxWr : BitVec 16 := 0x0024
def snRxRd : BitVec 16 := 0x0028

/-- `read##name(_s)` of `__SOCKET_REGISTER16(name, address)`. -/
def Chip.readSn16 (c : Chip) (s : ℕ) (addr : BitVec 16) : BitVec 16 × Chip :=
  let res := c.read8 (snAddr s addr)
  let res2 := res.2.read8 (snAddr s (addr + 1))
  (res.1.setWidth 16 <<< 8 ||| (res2.1.setWidth 16 &&& 0xFF), res2.2)

/-- `write##name(_s, _data)` of `__SOCKET_REGISTER16(name, address)`. -/
def Chip.writeSn16 (c : Chip) (s : ℕ) (addr data : BitVec 16) : Chip :=
  (c.write8 (snAddr s addr) ((data >>> 8).setWidth 8)).write8 (snAddr s (addr + 1))
    ((data &&& 0xFF).setWidth 8)

/-- The bursts, address and length, in which both functions go through `len` bytes of the ring at
`base`, from the pointer `ptr` on: `SMASK` and `RMASK` are `0x07FF`, `SSIZE` and `RSIZE` are 2048. -/
def bursts (base ptr : BitVec 16) (len : ℕ) : List (BitVec 16 × ℕ) :=
  let offset := ptr &&& 0x07FF
  if offset.toNat + len > 2048 then
    let size := 2048 - offset.toNat
    [(offset + base, size), (base, len - size)]
  else [(offset + base, len)]

/-- The calls of `write`, with `data` moving on. -/
def Chip.writeBursts (c : Chip) : List (BitVec 16 × ℕ) → List Byte → Chip
  | [], _ => c
  | (a, n) :: bs, data => (c.write a (data.take n)).writeBursts bs (data.drop n)

/-- The calls of `read`. -/
def Chip.readBursts (c : Chip) : List (BitVec 16 × ℕ) → List Byte × Chip
  | [] => ([], c)
  | (a, n) :: bs =>
    let r := c.read a n
    let rs := r.2.readBursts bs
    (r.1 ++ rs.1, rs.2)

def Chip.sendDataProcessingOffset (c : Chip) (s : ℕ) (dataOffset : BitVec 16) (data : List Byte) :
    Chip :=
  let r := c.readSn16 s snTxWr
  let ptr := r.1 + dataOffset
  let c := r.2.writeBursts (bursts (sbase s) ptr data.length) data
  c.writeSn16 s snTxWr (ptr + .ofNat 16 data.length)

def Chip.sendDataProcessing (c : Chip) (s : ℕ) (data : List Byte) : Chip :=
  c.sendDataProcessingOffset s 0 data

def Chip.readData (c : Chip) (s : ℕ) (src : BitVec 16) (len : ℕ) : List Byte × Chip :=
  c.readBursts (bursts (rbase s) src len)

def Chip.recvDataProcessing (c : Chip) (s : ℕ) (len : ℕ) (peek : Byte) : List Byte × Chip :=
  let r := c.readSn16 s snRxRd
  let d := r.2.readData s r.1 len
  (d.1, if peek = 0 then d.2.writeSn16 s snRxRd (r.1 + .ofNat 16 len) else d.2)

/-! ### Rings -/

/-- The walk round the ring of 2048 bytes at `base`, from the pointer `p` on. -/
def ring (base p : BitVec 16) (i : ℕ) : BitVec 16 := base + .ofNat 16 ((p.toNat + i) % 2048)

theorem toNat_and_07ff (p : BitVec 16) : (p &&& 0x07FF).toNat = p.toNat % 2048 := by
  rw [BitVec.toNat_and, show (0x07FF : BitVec 16).toNat = 2 ^ 11 - 1 by decide,
    Nat.and_two_pow_sub_one_eq_mod]

theorem toNat_ring {base p : BitVec 16} {i : ℕ} (h : base.toNat + 2048 ≤ 65536) :
    (ring base p i).toNat = base.toNat + (p.toNat + i) % 2048 := by
  rw [ring, BitVec.toNat_add, BitVec.toNat_ofNat]
  omega

/-- No byte of the ring is met twice in one turn. -/
theorem simple_ring (base p : BitVec 16) {n : ℕ} (h : n ≤ 2048) : Simple (ring base p) n := by
  intro i hi j hj hij
  have hofNat : BitVec.ofNat 16 ((p.toNat + i) % 2048) = .ofNat 16 ((p.toNat + j) % 2048) :=
    (BitVec.add_right_inj base).1 hij
  have hnat := congrArg BitVec.toNat hofNat
  simp only [BitVec.toNat_ofNat] at hnat
  omega

theorem burst_ring {base p : BitVec 16} {i : ℕ} (h : (p &&& 0x07FF).toNat + i < 2048) :
    burst ((p &&& 0x07FF) + base) i = ring base p i := by
  rw [toNat_and_07ff] at h
  apply BitVec.eq_of_toNat_eq
  rw [burst, ring, BitVec.toNat_add, BitVec.toNat_add, BitVec.toNat_add, toNat_and_07ff,
    BitVec.toNat_ofNat, BitVec.toNat_ofNat]
  omega

/-- Beyond the end of the ring its walk goes on from its start. -/
theorem burst_ring_wrapped {base p : BitVec 16} {i : ℕ} (h : i < 2048) :
    burst base i = ring base p (2048 - (p &&& 0x07FF).toNat + i) := by
  rw [toNat_and_07ff, burst, ring]
  congr 2
  omega

/-- The bursts stay inside the ring, so that no address wraps. -/
theorem bursts_inside {base p a : BitVec 16} {n len : ℕ} (hbase : base.toNat + 2048 ≤ 65536)
    (hlen : len ≤ 2048) (h : (a, n) ∈ bursts base p len) :
    base.toNat ≤ a.toNat ∧ a.toNat + n ≤ base.toNat + 2048 := by
  have hoff := toNat_and_07ff p
  have hfirst : ((p &&& 0x07FF) + base).toNat = p.toNat % 2048 + base.toNat := by
    rw [BitVec.toNat_add, hoff]
    omega
  unfold bursts at h
  simp only at h
  split_ifs at h with hwrap
  · simp only [List.mem_cons, Prod.mk.injEq, List.not_mem_nil, or_false] at h
    rcases h with ⟨rfl, rfl⟩ | ⟨rfl, rfl⟩ <;> omega
  · simp only [List.mem_singleton, Prod.mk.injEq] at h
    obtain ⟨rfl, rfl⟩ := h
    omega

section Bursts

variable {c : Chip}

/-- **The bursts of `send_data_processing`** store along the ring. -/
theorem put_bursts (h : c.Released) (base p : BitVec 16) (data : List Byte)
    (hlen : data.length ≤ 2048) :
    c.writeBursts (bursts base p data.length) data =
      { c with mem := put c.mem (ring base p) data } := by
  have hoff := toNat_and_07ff p
  unfold bursts
  simp only
  split_ifs with hwrap
  · -- two bursts, one up to the end of the ring and one from its start
    let size := 2048 - (p &&& 0x07FF).toNat
    have htake : (data.take size).length = size := by
      rw [List.length_take]
      omega
    have hsecond : ((data.drop size).take (data.length - size)) = data.drop size :=
      List.take_of_length_le (by rw [List.length_drop])
    have hfirst := write_eq h ((p &&& 0x07FF) + base) (data.take size) (by omega)
    have hmem : put (put c.mem (burst ((p &&& 0x07FF) + base)) (data.take size)) (burst base)
        (data.drop size) = put c.mem (ring base p) data := by
      conv_rhs => rw [← List.take_append_drop size data, put_append, htake]
      rw [put_congr
          fun i hi => burst_ring_wrapped (by rw [List.length_drop] at hi; omega),
        put_congr fun i hi => burst_ring (by omega)]
    simp only [Chip.writeBursts]
    rw [hsecond, hfirst,
      write_eq (h.setMem _) base (data.drop size) (by rw [List.length_drop]; omega), hmem]
  · simp only [Chip.writeBursts, List.take_length]
    rw [write_eq h _ data (by omega), put_congr fun i hi => burst_ring (by omega)]

/-- **The bursts of `read_data`** read along the ring. -/
theorem get_bursts (h : c.Released) (base p : BitVec 16) (len : ℕ) (hlen : len ≤ 2048) :
    c.readBursts (bursts base p len) = (get c.mem (ring base p) len, c) := by
  have hoff := toNat_and_07ff p
  unfold bursts
  simp only
  split_ifs with hwrap
  · let size := 2048 - (p &&& 0x07FF).toNat
    have hget : get c.mem (burst ((p &&& 0x07FF) + base)) size ++ get c.mem (burst base)
        (len - size) = get c.mem (ring base p) len := by
      conv_rhs => rw [show len = size + (len - size) by omega, get_add]
      congr 1
      · exact get_congr fun i hi => by rw [burst_ring (by omega)]
      · exact get_congr fun i hi => by rw [burst_ring_wrapped (by omega)]
    simp only [Chip.readBursts]
    rw [read_eq h _ (2048 - (p &&& 0x07FF).toNat) (by omega)]
    rw [read_eq h base (len - (2048 - (p &&& 0x07FF).toNat)) (by omega), List.append_nil, hget]
  · simp only [Chip.readBursts]
    rw [read_eq h _ len (by omega), List.append_nil]
    exact Prod.ext (get_congr fun i hi => by rw [burst_ring (by omega)]) rfl

end Bursts

/-! ### The pointer registers -/

/-- A register of two bytes, high byte first. -/
def reg16 (m : BitVec 16 → Byte) (a : BitVec 16) : BitVec 16 := m a ++ m (a + 1)

/-- The memory with such a register changed. -/
def setReg16 (m : BitVec 16 → Byte) (a v : BitVec 16) : BitVec 16 → Byte :=
  Function.update (Function.update m a (byteOf v 1)) (a + 1) (byteOf v 0)

theorem ne_add_one (a : BitVec 16) : a ≠ a + 1 := by
  intro h
  have h0 := (BitVec.add_right_inj a).1 ((BitVec.add_zero a).trans h)
  exact absurd h0 (by decide)

section SetReg

variable (m : BitVec 16 → Byte) (a v w : BitVec 16)

theorem setReg16_self : setReg16 m a v a = byteOf v 1 := by
  rw [setReg16, Function.update_of_ne (ne_add_one a), Function.update_self]

theorem setReg16_add_one : setReg16 m a v (a + 1) = byteOf v 0 := Function.update_self _ _ _

theorem reg16_setReg16 : reg16 (setReg16 m a v) a = v := by
  rw [reg16, setReg16_self, setReg16_add_one, append_byteOf]

theorem setReg16_of_ne {m : BitVec 16 → Byte} {a v x : BitVec 16} (h0 : x ≠ a) (h1 : x ≠ a + 1) :
    setReg16 m a v x = m x := by
  rw [setReg16, Function.update_of_ne h1, Function.update_of_ne h0]

theorem setReg16_setReg16 : setReg16 (setReg16 m a v) a w = setReg16 m a w := by
  funext x
  by_cases h0 : x = a
  · rw [h0, setReg16_self, setReg16_self]
  by_cases h1 : x = a + 1
  · rw [h1, setReg16_add_one, setReg16_add_one]
  · rw [setReg16_of_ne h0 h1, setReg16_of_ne h0 h1, setReg16_of_ne h0 h1]

theorem put_setReg16 {addr : ℕ → BitVec 16} {bs : List Byte} (h0 : ∀ i, addr i ≠ a)
    (h1 : ∀ i, addr i ≠ a + 1) : put (setReg16 m a v) addr bs = setReg16 (put m addr bs) a v := by
  unfold setReg16
  rw [put_update _ fun i _ => h1 i, put_update _ fun i _ => h0 i]

end SetReg

section Registers

variable {c : Chip} (s : ℕ) (a : BitVec 16)

theorem snAddr_add_one : snAddr s (a + 1) = snAddr s a + 1 := by
  rw [snAddr, snAddr, BitVec.add_assoc]

theorem readSn16_eq (h : c.Released) : c.readSn16 s a = (reg16 c.mem (snAddr s a), c) := by
  have hjoin : ∀ hi lo : Byte,
      hi.setWidth 16 <<< 8 ||| (lo.setWidth 16 &&& 0xFF) = hi ++ lo := by
    intro hi lo
    apply eq_of_byteOf16
    · rw [byteOf_append_zero, byteOf_or, byteOf_shiftLeft_of_lt _ _ (by omega), byteOf_and,
        byteOf_setWidth _ _ (by omega), byteOf_self,
        show byteOf (0xFF : BitVec 16) 0 = BitVec.allOnes 8 by decide, BitVec.and_allOnes]
      exact BitVec.zero_or
    · rw [byteOf_append_succ, byteOf_self, byteOf_or, byteOf_and,
        show byteOf (0xFF : BitVec 16) 1 = 0#8 by decide, BitVec.and_zero, BitVec.or_zero,
        show (1 : ℕ) = 1 + 0 from rfl, byteOf_shiftLeft _ _ 1 rfl (by omega),
        byteOf_setWidth _ _ (by omega), byteOf_self]
  simp only [Chip.readSn16, read8_eq h, hjoin, reg16, snAddr_add_one]

theorem writeSn16_eq (h : c.Released) (v : BitVec 16) :
    c.writeSn16 s a v = { c with mem := setReg16 c.mem (snAddr s a) v } := by
  have hbytes := wordBytes_eq v
  simp only [wordBytes, List.cons.injEq, and_true] at hbytes
  rw [Chip.writeSn16, write8_eq h, write8_eq (h.setMem _), setWidth_and_ff, hbytes.1, hbytes.2,
    snAddr_add_one]
  rfl

end Registers

/-! ### Sending and receiving -/

/-- A chip with no transaction under way. -/
def Chip.idle (mem : BitVec 16 → Byte) : Chip := ⟨mem, [], 0⟩

theorem released_idle (mem : BitVec 16 → Byte) : (Chip.idle mem).Released := ⟨rfl, rfl⟩

/-- The transmit write pointer of a socket. -/
def txWr (mem : BitVec 16 → Byte) (s : ℕ) : BitVec 16 := reg16 mem (snAddr s snTxWr)

/-- The receive read pointer of a socket. -/
def rxRd (mem : BitVec 16 → Byte) (s : ℕ) : BitVec 16 := reg16 mem (snAddr s snRxRd)

section Sockets

variable (mem : BitVec 16 → Byte) {s : ℕ}

/-- `send_data_processing` stores along the transmit ring and moves the pointer. -/
theorem send_eq (s : ℕ) (data : List Byte) (hlen : data.length ≤ 2048) :
    (Chip.idle mem).sendDataProcessing s data =
      Chip.idle (setReg16 (put mem (ring (sbase s) (txWr mem s)) data) (snAddr s snTxWr)
        (txWr mem s + .ofNat 16 data.length)) := by
  have h := released_idle mem
  have hbursts := put_bursts h (sbase s) (txWr mem s) data hlen
  simp only [Chip.sendDataProcessing, Chip.sendDataProcessingOffset, readSn16_eq s snTxWr h]
  rw [show reg16 (Chip.idle mem).mem (snAddr s snTxWr) + 0 = txWr mem s from BitVec.add_zero _,
    hbursts, writeSn16_eq _ _ (h.setMem _)]
  rfl

/-- `recv_data_processing` reads along the receive ring, and moves the pointer unless it peeks. -/
theorem recv_eq (s len : ℕ) (hlen : len ≤ 2048) (peek : Byte) :
    (Chip.idle mem).recvDataProcessing s len peek =
      (get mem (ring (rbase s) (rxRd mem s)) len,
        Chip.idle (if peek = 0 then
          setReg16 mem (snAddr s snRxRd) (rxRd mem s + .ofNat 16 len) else mem)) := by
  have h := released_idle mem
  have hbursts := get_bursts h (rbase s) (rxRd mem s) len hlen
  simp only [Chip.recvDataProcessing, readSn16_eq s snRxRd h, Chip.readData]
  rw [show reg16 (Chip.idle mem).mem (snAddr s snRxRd) = rxRd mem s from rfl, hbursts]
  by_cases hpeek : peek = 0
  · rw [if_pos hpeek, if_pos hpeek, writeSn16_eq _ _ h]
    rfl
  · rw [if_neg hpeek, if_neg hpeek]
    rfl

/-- Where the buffers and the registers lie. -/
theorem toNat_sbase (hs : s < 8) : (sbase s).toNat = 0x8000 + 2048 * s := by
  rw [sbase, BitVec.toNat_ofNat]
  omega

theorem toNat_rbase (hs : s < 8) : (rbase s).toNat = 0xC000 + 2048 * s := by
  rw [rbase, BitVec.toNat_ofNat]
  omega

theorem toNat_snAddr (hs : s < 8) {a : BitVec 16} (ha : a.toNat < 0x100) :
    (snAddr s a).toNat = 0x4000 + s * 0x100 + a.toNat := by
  rw [snAddr, BitVec.toNat_add, BitVec.toNat_ofNat]
  omega

/-- The rings are not where the registers are. -/
theorem ring_ne_snAddr (hs : s < 8) {base p a : BitVec 16} (ha : a.toNat < 0x100)
    (hbase : 0x8000 ≤ base.toNat ∧ base.toNat + 2048 ≤ 65536) (i : ℕ) :
    ring base p i ≠ snAddr s a := by
  intro h
  have hnat := congrArg BitVec.toNat h
  rw [toNat_ring hbase.2, toNat_snAddr hs ha] at hnat
  omega

end Sockets

/-! ### Byte streams -/

/-- Byte `i` of the stream that goes through the buffer at `base`, from the pointer `p` on. -/
def streamAddr (base : ℕ) (p : BitVec 16) (i : ℕ) : BitVec 16 :=
  .ofNat 16 (base + (p.toNat + i) % 2048)

theorem ring_eq_streamAddr {base : BitVec 16} {b : ℕ} (h : base.toNat = b) (p : BitVec 16) :
    ring base p = streamAddr b p := by
  funext i
  rw [ring, streamAddr, BitVec.ofNat_add, ← h, BitVec.ofNat_toNat, BitVec.setWidth_eq]

/-- What `send_data_processing(s, data, len)` has to do. -/
structure SendsStream (mem : BitVec 16 → Byte) (s : ℕ) (data : List Byte) (c' : Chip) : Prop where
  /-- The chip is ready for the next transaction. -/
  idle : c' = Chip.idle c'.mem
  stored : ∀ i, (hi : i < data.length) →
    c'.mem (streamAddr (0x8000 + 2048 * s) (txWr mem s) i) = data[i]
  /-- Besides the pointer, no other byte changes. -/
  frame : ∀ x, (∀ i < data.length, streamAddr (0x8000 + 2048 * s) (txWr mem s) i ≠ x) →
    x ≠ snAddr s snTxWr → x ≠ snAddr s snTxWr + 1 → c'.mem x = mem x
  /-- No burst leaves the buffer, and none wraps. -/
  inside : ∀ b ∈ bursts (sbase s) (txWr mem s) data.length,
    0x8000 + 2048 * s ≤ b.1.toNat ∧ b.1.toNat + b.2 ≤ 0x8000 + 2048 * (s + 1)
  pointer : txWr c'.mem s = txWr mem s + .ofNat 16 data.length

/-- What `recv_data_processing(s, data, len, peek)` has to do. -/
structure ReceivesStream (mem : BitVec 16 → Byte) (s len : ℕ) (peek : Byte)
    (r : List Byte × Chip) : Prop where
  data : r.1 = (List.range len).map fun i =>
    mem (streamAddr (0xC000 + 2048 * s) (rxRd mem s) i)
  /-- No burst leaves the buffer, and none wraps. -/
  inside : ∀ b ∈ bursts (rbase s) (rxRd mem s) len,
    0xC000 + 2048 * s ≤ b.1.toNat ∧ b.1.toNat + b.2 ≤ 0xC000 + 2048 * (s + 1)
  idle : r.2 = Chip.idle r.2.mem
  pointer : peek = 0 → rxRd r.2.mem s = rxRd mem s + .ofNat 16 len
  /-- Besides the pointer, no byte changes. -/
  frame : ∀ x, x ≠ snAddr s snRxRd → x ≠ snAddr s snRxRd + 1 → r.2.mem x = mem x
  peeked : peek ≠ 0 → r.2 = Chip.idle mem

section Streams

variable (mem : BitVec 16 → Byte) {s : ℕ} (hs : s < 8)

include hs

theorem sbase_bounds : 0x8000 ≤ (sbase s).toNat ∧ (sbase s).toNat + 2048 ≤ 65536 := by
  rw [toNat_sbase hs]
  omega

theorem sendsStream (data : List Byte) (hlen : data.length ≤ 2048) :
    SendsStream mem s data ((Chip.idle mem).sendDataProcessing s data) := by
  have hring := ring_eq_streamAddr (toNat_sbase hs) (txWr mem s)
  have hbase := sbase_bounds hs
  have htx : ∀ i, ring (sbase s) (txWr mem s) i ≠ snAddr s snTxWr := fun i =>
    ring_ne_snAddr hs (by decide) hbase i
  have htx1 : ∀ i, ring (sbase s) (txWr mem s) i ≠ snAddr s snTxWr + 1 := by
    intro i
    rw [← snAddr_add_one]
    exact ring_ne_snAddr hs (by decide) hbase i
  rw [send_eq mem s data hlen]
  refine ⟨rfl, fun i hi => ?_, fun x hx h0 h1 => ?_, fun b hb => ?_, ?_⟩
  · rw [← hring]
    exact (setReg16_of_ne (htx i) (htx1 i)).trans (put_apply (simple_ring _ _ hlen) hi)
  · rw [← hring] at hx
    exact (setReg16_of_ne h0 h1).trans (put_of_ne hx)
  · obtain ⟨a, n⟩ := b
    obtain ⟨hle, hlt⟩ := bursts_inside hbase.2 hlen hb
    rw [toNat_sbase hs] at hle hlt
    exact ⟨hle, by rw [Nat.mul_add, ← Nat.add_assoc]; exact hlt⟩
  · exact reg16_setReg16 _ _ _

theorem receivesStream (len : ℕ) (hlen : len ≤ 2048) (peek : Byte) :
    ReceivesStream mem s len peek ((Chip.idle mem).recvDataProcessing s len peek) := by
  have hring := ring_eq_streamAddr (toNat_rbase hs) (rxRd mem s)
  rw [recv_eq mem s len hlen peek, hring]
  refine ⟨rfl, fun b hb => ?_, rfl, fun hpeek => ?_, fun x h0 h1 => ?_, fun hpeek => ?_⟩
  · obtain ⟨a, n⟩ := b
    obtain ⟨hle, hlt⟩ := bursts_inside (by rw [toNat_rbase hs]; omega) hlen hb
    rw [toNat_rbase hs] at hle hlt
    exact ⟨hle, by rw [Nat.mul_add, ← Nat.add_assoc]; exact hlt⟩
  · rw [if_pos hpeek]
    exact reg16_setReg16 _ _ _
  · change (if peek = 0 then _ else mem) x = mem x
    split_ifs with hpeek
    · exact setReg16_of_ne h0 h1
    · rfl
  · rw [if_neg hpeek]

/-- Sending twice is sending once. -/
theorem send_append (a b : List Byte) (hlen : a.length + b.length ≤ 2048) :
    ((Chip.idle mem).sendDataProcessing s a).sendDataProcessing s b =
      (Chip.idle mem).sendDataProcessing s (a ++ b) := by
  have hbase := sbase_bounds hs
  let r := snAddr s snTxWr
  let p := txWr mem s
  have hmove : ∀ i, ring (sbase s) (p + .ofNat 16 a.length) i = ring (sbase s) p (a.length + i) := by
    intro i
    rw [ring, ring, BitVec.toNat_add, BitVec.toNat_ofNat]
    congr 2
    omega
  have hne : ∀ i, ring (sbase s) p i ≠ r := fun i => ring_ne_snAddr hs (by decide) hbase i
  have hne1 : ∀ i, ring (sbase s) p i ≠ r + 1 := by
    intro i
    rw [← snAddr_add_one]
    exact ring_ne_snAddr hs (by decide) hbase i
  have hwr : ∀ m v, txWr (setReg16 m r v) s = v := fun m v => reg16_setReg16 m r v
  rw [send_eq mem s a (by omega), send_eq _ s b (by omega), send_eq mem s (a ++ b) (by simpa),
    hwr, show ring (sbase s) (p + .ofNat 16 a.length) = _ from funext hmove]
  -- the pointer is written twice, after the data in the end
  rw [put_setReg16 _ _ _ (fun i => hne _) (fun i => hne1 _), setReg16_setReg16, ← put_append,
    List.length_append, BitVec.ofNat_add, BitVec.add_assoc]

end Streams

/-- **Sockets are byte streams.** For every socket, every value of the pointers and everything of
up to 2048 bytes: `send_data_processing` stores the bytes where they belong in the transmit ring of
the socket and nowhere else, and moves the pointer; to send twice is to send once; what it has
stored is what is read from the ring at the old pointer; `recv_data_processing` returns what is in
the receive ring, and moves the pointer unless it peeks; so it returns what was put there. -/
theorem socket_streams (mem : BitVec 16 → Byte) {s : ℕ} (hs : s < 8) (data : List Byte)
    (hlen : data.length ≤ 2048) (peek : Byte) :
    let c := Chip.idle mem
    let c' := c.sendDataProcessing s data
    SendsStream mem s data c' ∧
      (∀ data', data.length + data'.length ≤ 2048 →
        c'.sendDataProcessing s data' = c.sendDataProcessing s (data ++ data')) ∧
      (List.range data.length).map (fun i =>
        c'.mem (streamAddr (0x8000 + 2048 * s) (txWr mem s) i)) = data ∧
      (∀ len ≤ 2048, ReceivesStream mem s len peek (c.recvDataProcessing s len peek)) ∧
      ((Chip.idle (put mem (streamAddr (0xC000 + 2048 * s) (rxRd mem s)) data)).recvDataProcessing
        s data.length peek).1 = data := by
  intro c c'
  have hsend := sendsStream mem hs data hlen
  refine ⟨hsend, fun data' hlen' => send_append mem hs data data' hlen', ?_,
    fun len hl => receivesStream mem hs len hl peek, ?_⟩
  · apply List.ext_getElem (by simp)
    intro i _ hi
    rw [List.getElem_map, List.getElem_range]
    exact hsend.stored i hi
  · have hring := ring_eq_streamAddr (toNat_rbase hs) (rxRd mem s)
    have hbase : 0x8000 ≤ (rbase s).toNat ∧ (rbase s).toNat + 2048 ≤ 65536 := by
      rw [toNat_rbase hs]
      omega
    -- the pointer is not in the ring
    have hrd : rxRd (put mem (ring (rbase s) (rxRd mem s)) data) s = rxRd mem s := by
      unfold rxRd reg16
      rw [put_of_ne fun i _ => ring_ne_snAddr hs (by decide) hbase i, ← snAddr_add_one,
        put_of_ne fun i _ => ring_ne_snAddr hs (by decide) hbase i]
    rw [← hring, recv_eq _ s data.length hlen peek, hrd]
    exact get_put (simple_ring _ _ hlen)

/-- The last socket with its pointers about to overflow: two bytes from `0xFFFF` on go to the last
and to the first byte of the ring. -/
theorem socket_streams_wrap :
    let mem := setReg16 (fun _ => 0) (snAddr 7 snTxWr) 0xFFFF
    SendsStream mem 7 [0x55, 0xAA] ((Chip.idle mem).sendDataProcessing 7 [0x55, 0xAA]) :=
  (socket_streams (setReg16 (fun _ => 0) (snAddr 7 snTxWr) 0xFFFF) (by decide) [0x55, 0xAA]
    (by decide) 0).1

end W5200
