import Mathlib.Tactic
import Teensy3.Lib.Run
import Teensy3.W5200.Chip

/-!
# Transactions over `SPIFIFO`

`spiread` and `spiwrite` of `wizpaul.ino` reach the W5200 through the library `SPIFIFO`, which keeps
the SPI port busy: a frame of one or two bytes is written before the one received for the frame
before it is read.  Chip select is released after a frame that is written without `SPI_CONTINUE`, so
the last frame of each transaction, and no other, must be written so.

* `Spi`: the port with the chip behind it; `Spi.write`, `Spi.write16`, `Spi.read`, `Spi.clear`;
* `Spi.spiread`, `Spi.spiwrite`: the functions of the sketch;
* `Ok s t`: transaction `t`, begun in the state `s`, is complete and delimited;
* `transactions_ok_iff`: all transactions of a sequence are, exactly if none of them reads an even
  number of bytes above two: there `spiread` leaves chip select asserted.
-/

namespace W5200

open ByteMem Scatter Machine

/-! ### The port -/

/-- A frame, and whether it is written with `SPI_CONTINUE`. -/
structure Frame where
  bytes : List Byte
  cont : Bool
  deriving DecidableEq, Repr

/-- The port: the chip, the frames received and not yet read, and all frames written so far. -/
structure Spi where
  chip : Chip
  rx : List (BitVec 32)
  frames : List Frame
  /-- There was a `read` with nothing to come. -/
  hung : Bool

/-- The received bytes as a number. -/
def popr (bs : List Byte) : BitVec 32 := bs.foldl (fun v b => v <<< 8 ||| b.setWidth 32) 0

/-- A frame is shifted out, and one comes in. -/
def Spi.push (s : Spi) (f : Frame) : Spi :=
  let r := s.chip.clock f.bytes
  { s with
    chip := if f.cont then r.2 else r.2.release
    rx := s.rx ++ [popr r.1]
    frames := s.frames ++ [f] }

/-- `SPIFIFO.write`. -/
def Spi.write (s : Spi) (b : Byte) (cont : Bool) : Spi := s.push ⟨[b], cont⟩

/-- `SPIFIFO.write16`. -/
def Spi.write16 (s : Spi) (w : BitVec 16) (cont : Bool) : Spi := s.push ⟨wordBytes w, cont⟩

/-- `SPIFIFO.read`. -/
def Spi.read (s : Spi) : BitVec 32 × Spi :=
  match s.rx with
  | [] => (0, { s with hung := true })
  | v :: vs => (v, { s with rx := vs })

/-- `SPIFIFO.clear`. -/
def Spi.clear (s : Spi) : Spi := { s with rx := [] }

/-! ### The sketch -/

/-- `*buf++ = val >> 8; *buf++ = val;` -/
def valBytes (val : BitVec 32) : List Byte := [(val >>> 8).setWidth 8, val.setWidth 8]

/-- The `do … while (--count > 0)` loops of `spiread`, which are entered with a positive `count`;
`next` writes the next frame. -/
def Spi.readLoop (next : ℕ → Spi → Spi) : ℕ → Spi → List Byte × Spi
  | 0, s => ([], s)
  | count + 1, s =>
    let v := (next (count + 1) s).read
    let r := readLoop next count v.2
    (valBytes v.1 ++ r.1, r.2)

/-- The frame that the loop for odd lengths writes. -/
def Spi.oddNext (count : ℕ) (s : Spi) : Spi :=
  if count > 1 then s.write16 0 true else s.write 0 false

/-- The frame that the loop for even lengths writes. -/
def Spi.evenNext (count : ℕ) (s : Spi) : Spi := s.write16 0 (decide (count > 0))

/-- `spiread(addr, buf, len)`: what is stored at `buf`, and the port after it. -/
def Spi.spiread (s : Spi) (addr : BitVec 16) (len : ℕ) : List Byte × Spi :=
  let s := s.clear.write16 addr true
  let s := s.write16 (.ofNat 16 len &&& 0x7FFF) true
  let s := s.read.2
  if len = 1 then
    let v := (s.write 0 false).read.2.read
    ([v.1.setWidth 8], v.2)
  else if len = 2 then
    let v := (s.write16 0 false).read.2.read
    (valBytes v.1, v.2)
  else if len % 2 = 1 then
    let r := readLoop oddNext (len / 2) (s.write16 0 true).read.2
    let v := r.2.read
    (r.1 ++ [v.1.setWidth 8], v.2)
  else
    -- `count` is a `uint32_t`
    let r := readLoop evenNext (BitVec.ofNat 32 (len / 2) - 1).toNat (s.write16 0 true).read.2
    let v := r.2.read
    (r.1 ++ valBytes v.1, v.2)

/-- The loop of `spiwrite`, over what is left of the buffer. -/
def Spi.writeLoop : List Byte → Spi → Spi
  | [], s => s
  | b :: bs, s => writeLoop bs (s.write b (decide (bs ≠ []))).read.2

/-- `spiwrite(addr, buf, len)`. -/
def Spi.spiwrite (s : Spi) (addr : BitVec 16) (buf : List Byte) : Spi :=
  let s := s.clear.write16 addr true
  let s := s.write16 (.ofNat 16 buf.length ||| 0x8000) true
  (writeLoop buf s).read.2.read.2

/-! ### What a transaction should do -/

/-- A call of `spiread` or `spiwrite`. -/
inductive Transaction
  | read (addr : BitVec 16) (len : ℕ) (h : 1 ≤ len ∧ len < 32768)
  | write (addr : BitVec 16) (buf : List Byte) (h : 1 ≤ buf.length ∧ buf.length < 32768)

/-- The port after the call. -/
def exec (s : Spi) : Transaction → Spi
  | .read addr len _ => (s.spiread addr len).2
  | .write addr buf _ => s.spiwrite addr buf

/-- The bytes of the call: the two header words and the data. -/
def Transaction.mosi : Transaction → List Byte
  | .read addr len _ => wordBytes addr ++ wordBytes (.ofNat 16 len) ++ List.replicate len 0
  | .write addr buf _ => wordBytes addr ++ wordBytes (.ofNat 16 buf.length ||| 0x8000) ++ buf

/-- The bytes go out in frames of which the last one is written without `SPI_CONTINUE`, and no
other. -/
def Delimited (fs : List Frame) (mosi : List Byte) : Prop :=
  ∃ init last, fs = init ++ [last] ∧ (∀ f ∈ init, f.cont = true) ∧ last.cont = false ∧
    fs.flatMap Frame.bytes = mosi

/-- What becomes of the data: a read stores `len` bytes of the chip in order, and a write puts its
buffer there, so that the read after it finds it. -/
def Moved (s : Spi) : Transaction → Prop
  | .read addr len _ =>
    (s.spiread addr len).1 = get s.chip.mem (burst addr) len ∧
      (s.spiread addr len).2.chip.mem = s.chip.mem
  | .write addr buf _ =>
    (s.spiwrite addr buf).chip.mem = put s.chip.mem (burst addr) buf ∧
      ((s.spiwrite addr buf).spiread addr buf.length).1 = buf

/-- The call is complete and delimited: its frames are, each received frame is read, and the data
arrive. -/
def Ok (s : Spi) (t : Transaction) : Prop :=
  (∃ fs, (exec s t).frames = s.frames ++ fs ∧ Delimited fs t.mosi) ∧
    ((exec s t).rx = [] ∧ (exec s t).hung = false) ∧ Moved s t

/-- The calls for which `spiread` takes its last branch. -/
def Transaction.LongEven : Transaction → Prop
  | .read _ len _ => len % 2 = 0 ∧ 4 ≤ len
  | .write _ _ _ => False

/-- Nothing is under way. -/
structure Spi.Idle (s : Spi) : Prop where
  chip : s.chip.Released
  rx : s.rx = []
  hung : s.hung = false

/-! ### The port, step by step -/

theorem setWidth_popr_one (b : Byte) : (popr [b]).setWidth 8 = b := by
  apply BitVec.eq_of_getLsbD_eq
  intro i hi
  simp [popr, hi]

theorem valBytes_popr {bs : List Byte} (h : bs.length = 2) : valBytes (popr bs) = bs := by
  match bs, h with
  | [b, c], _ =>
    have hhigh : (popr [b, c] >>> 8).setWidth 8 = b := by
      apply BitVec.eq_of_getLsbD_eq
      intro i hi
      simp [popr, hi, show 8 + i < 32 by omega]
    have hlow : (popr [b, c]).setWidth 8 = c := by
      apply BitVec.eq_of_getLsbD_eq
      intro i hi
      simp [popr, hi]
    rw [valBytes, hhigh, hlow]

section Read

variable (m : BitVec 16 → Byte) (addr : BitVec 16) (len : ℕ)

/-- The chip after the header of a read and `j` bytes of data. -/
def reading (j : ℕ) : Chip := ⟨m, wordBytes addr ++ wordBytes (.ofNat 16 len &&& 0x7FFF), j⟩

variable {len}

theorem clock_reading (hlen : len < 32768) {j : ℕ} (bs : List Byte) (hj : j + bs.length ≤ len) :
    (reading m addr len j).clock bs =
      (get m (fun i => burst addr (j + i)) bs.length, reading m addr len (j + bs.length)) := by
  obtain ⟨hop, hl⟩ := readLength hlen
  exact HeaderIs.clock_read (c := reading m addr len j) rfl hop bs (by rw [hl]; exact hj)

variable (len)

/-- The port in the middle of a read: `j` bytes are stored, two more are received, and `fs` are the
frames so far. -/
def midRead (fs : List Frame) (j : ℕ) : Spi :=
  ⟨reading m addr len (j + 2), [popr (get m (fun i => burst addr (j + i)) 2)], fs, false⟩

/-- The frame for two more bytes. -/
def wordFrame : Frame := ⟨wordBytes 0, true⟩

variable {len}

/-- Two more bytes are clocked, and the two before them are read. -/
theorem midRead_step (hlen : len < 32768) (fs : List Frame) {j : ℕ} (hj : j + 4 ≤ len) :
    ((midRead m addr len fs j).write16 0 true).read =
      (popr (get m (fun i => burst addr (j + i)) 2),
        midRead m addr len (fs ++ [wordFrame]) (j + 2)) := by
  have hclock := clock_reading m addr hlen (j := j + 2) (wordBytes 0)
    (by simp only [wordBytes, List.length_cons, List.length_nil]; omega)
  simp only [Spi.write16, Spi.push, midRead, hclock]
  rfl

theorem readLoop_succ (next : ℕ → Spi → Spi) (count : ℕ) (s : Spi) :
    Spi.readLoop next (count + 1) s =
      (valBytes (next (count + 1) s).read.1 ++
          (Spi.readLoop next count (next (count + 1) s).read.2).1,
        (Spi.readLoop next count (next (count + 1) s).read.2).2) := rfl

/-- The iterations of a loop that do so. -/
theorem readLoop_words (next : ℕ → Spi → Spi) (hlen : len < 32768) {n : ℕ} (k : ℕ)
    (hnext : ∀ c, n < c → c ≤ n + k → ∀ s, next c s = s.write16 0 true) (fs : List Frame) {j : ℕ}
    (hj : j + 2 * k + 2 ≤ len) :
    let r := Spi.readLoop next n (midRead m addr len (fs ++ List.replicate k wordFrame) (j + 2 * k))
    Spi.readLoop next (n + k) (midRead m addr len fs j) =
      (get m (fun i => burst addr (j + i)) (2 * k) ++ r.1, r.2) := by
  induction k generalizing fs j with
  | zero => simp [Scatter.get]
  | succ k ih =>
    have hrest := ih (fun c hc hle => hnext c hc (by omega)) (fs ++ [wordFrame]) (j := j + 2)
      (by omega)
    rw [← Nat.add_assoc, readLoop_succ, hnext _ (by omega) (by omega),
      midRead_step m addr hlen fs (by omega)]
    simp only
    rw [hrest, valBytes_popr (by simp)]
    have hfs : fs ++ [wordFrame] ++ List.replicate k wordFrame =
        fs ++ List.replicate (k + 1) wordFrame := by
      rw [List.append_assoc, List.replicate_succ, List.singleton_append]
    have hget : get m (fun i => burst addr (j + i)) 2 ++
        get m (fun i => burst addr (j + 2 + i)) (2 * k) =
        get m (fun i => burst addr (j + i)) (2 * (k + 1)) := by
      rw [show 2 * (k + 1) = 2 + 2 * k by omega, get_add]
      simp only [Nat.add_assoc]
    rw [hfs, show j + 2 + 2 * k = j + 2 * (k + 1) by omega, ← hget, List.append_assoc]

end Read

/-- The two header words. -/
theorem header_eq {s : Spi} (h : s.Idle) (addr l : BitVec 16) :
    ∃ v w, (s.clear.write16 addr true).write16 l true =
      ⟨{ s.chip with header := wordBytes addr ++ wordBytes l }, [v, w],
        s.frames ++ [⟨wordBytes addr, true⟩, ⟨wordBytes l, true⟩], false⟩ := by
  have hboth := (clock_append s.chip (wordBytes addr) (wordBytes l)).2
  rw [clock_words h.chip] at hboth
  refine ⟨popr (s.chip.clock (wordBytes addr)).1,
    popr ((s.chip.clock (wordBytes addr)).2.clock (wordBytes l)).1, ?_⟩
  simp only [Spi.write16, Spi.push, Spi.clear, if_true, List.nil_append, List.append_assoc,
    List.cons_append, h.hung]
  rw [← hboth]

/-! ### `spiread` -/

/-- The frames of the header of a read. -/
def readHeader (addr : BitVec 16) (len : ℕ) : List Frame :=
  [⟨wordBytes addr, true⟩, ⟨wordBytes (.ofNat 16 len &&& 0x7FFF), true⟩]

section Spiread

variable {s : Spi} {len : ℕ}

/-- The port when the header is out and the first of its frames is read. -/
theorem readHeader_eq (h : s.Idle) (addr : BitVec 16) (len : ℕ) :
    ∃ w, ((s.clear.write16 addr true).write16 (.ofNat 16 len &&& 0x7FFF) true).read.2 =
      ⟨reading s.chip.mem addr len 0, [w], s.frames ++ readHeader addr len, false⟩ := by
  obtain ⟨v, w, heq⟩ := header_eq h addr (.ofNat 16 len &&& 0x7FFF)
  refine ⟨w, ?_⟩
  rw [heq]
  simp only [Spi.read, reading, h.chip.2]
  rfl

/-- The first two bytes of more. -/
theorem midRead_first (m : BitVec 16 → Byte) (addr : BitVec 16) (hlen : len < 32768) (h2 : 2 ≤ len)
    (w : BitVec 32) (fs : List Frame) :
    (Spi.write16 ⟨reading m addr len 0, [w], fs, false⟩ 0 true).read.2 =
      midRead m addr len (fs ++ [wordFrame]) 0 := by
  have hclock := clock_reading m addr hlen (j := 0) (wordBytes 0)
    (by simp only [wordBytes, List.length_cons, List.length_nil]; omega)
  simp only [Spi.write16, Spi.push, hclock]
  rfl

/-- The last frame, without `SPI_CONTINUE`: chip select is released. -/
theorem push_last (addr : BitVec 16) (hlen : len < 32768) (hs : s.chip.Released) {j : ℕ} (bs : List Byte)
    (hj : j + bs.length = len) (rx : List (BitVec 32)) (fs : List Frame) :
    Spi.push ⟨reading s.chip.mem addr len j, rx, fs, false⟩ ⟨bs, false⟩ =
      ⟨s.chip, rx ++ [popr (get s.chip.mem (fun i => burst addr (j + i)) bs.length)],
        fs ++ [⟨bs, false⟩], false⟩ := by
  simp only [Spi.push, clock_reading _ _ hlen bs hj.le, Bool.false_eq_true, if_false]
  rw [reading, hs.release]

/-- One byte, or any odd number. -/
theorem spiread_odd (addr : BitVec 16) (h : s.Idle) (hlen : len < 32768) {q : ℕ} (hq : len = 2 * q + 1) :
    s.spiread addr len =
      (get s.chip.mem (burst addr) len,
        ⟨s.chip, [],
          s.frames ++ (readHeader addr len ++ List.replicate q wordFrame ++ [⟨[0], false⟩]),
          false⟩) := by
  obtain ⟨w, hhead⟩ := readHeader_eq h addr len
  cases q with
  | zero =>
    have hlast := push_last addr hlen h.chip (j := 0) [0] (by simp [hq]) [w]
      (s.frames ++ readHeader addr len)
    simp only [Spi.spiread, hhead, Spi.write]
    rw [if_pos hq, hlast]
    subst hq
    simp [Spi.read, Scatter.get, setWidth_popr_one]
  | succ r =>
    have hwords := readLoop_words s.chip.mem addr Spi.oddNext hlen
      (n := 1) r (fun c hc _ s => by rw [Spi.oddNext, if_pos hc])
      (s.frames ++ readHeader addr len ++ [wordFrame]) (j := 0) (by omega)
    have hlast := push_last addr hlen h.chip (j := 0 + 2 * r + 2) [0]
      (by simp only [List.length_singleton]; omega)
      [popr (get s.chip.mem (fun i => burst addr (0 + 2 * r + i)) 2)]
      (s.frames ++ readHeader addr len ++ [wordFrame] ++ List.replicate r wordFrame)
    have hfinal : ∀ fs, Spi.oddNext (0 + 1) (midRead s.chip.mem addr len fs (0 + 2 * r)) =
        Spi.push (midRead s.chip.mem addr len fs (0 + 2 * r)) ⟨[0], false⟩ := fun fs => rfl
    have hget : get s.chip.mem (burst addr) len =
        get s.chip.mem (fun i => burst addr (0 + i)) (2 * r) ++
          (get s.chip.mem (fun i => burst addr (0 + 2 * r + i)) 2 ++
            get s.chip.mem (fun i => burst addr (0 + 2 * r + 2 + i)) 1) := by
      rw [show len = 2 * r + (2 + 1) by omega, get_add, get_add]
      simp only [Nat.zero_add, Nat.add_assoc]
    simp only [Spi.spiread, hhead]
    rw [if_neg (by omega), if_neg (by omega), if_pos (by omega),
      midRead_first _ _ hlen (by omega), show len / 2 = 1 + r by omega, hwords,
      readLoop_succ, hfinal, midRead, hlast, hget]
    simp only [Spi.read, Spi.readLoop, List.cons_append, List.nil_append, List.length_singleton,
      valBytes_popr (length_get _ _ _), List.append_nil, List.append_assoc]
    refine Prod.ext ?_ ?_
    · simp [Scatter.get, setWidth_popr_one]
    · simp only [List.replicate_succ, List.cons_append]

/-- Two bytes. -/
theorem spiread_two (addr : BitVec 16) (h : s.Idle) (h2 : len = 2) :
    s.spiread addr len =
      (get s.chip.mem (burst addr) len,
        ⟨s.chip, [], s.frames ++ (readHeader addr len ++ [⟨wordBytes 0, false⟩]), false⟩) := by
  obtain ⟨w, hhead⟩ := readHeader_eq h addr len
  have hlast := push_last addr (by omega) h.chip (j := 0) (wordBytes 0) h2.symm [w]
    (s.frames ++ readHeader addr len)
  simp only [Spi.spiread, hhead]
  rw [if_neg (by omega), if_pos h2, Spi.write16, hlast]
  simp only [Spi.read, List.cons_append, List.nil_append, Nat.zero_add]
  rw [valBytes_popr (by simp [wordBytes]), List.append_assoc, h2]
  rfl

/-- Any larger even number: all frames are written with `SPI_CONTINUE`, so that the chip waits for
more. -/
theorem spiread_even (addr : BitVec 16) (h : s.Idle) (hlen : len < 32768) {q : ℕ} (hq : len = 2 * q + 4) :
    s.spiread addr len =
      (get s.chip.mem (burst addr) len,
        ⟨reading s.chip.mem addr len len, [],
          s.frames ++ (readHeader addr len ++ List.replicate (q + 2) wordFrame), false⟩) := by
  obtain ⟨w, hhead⟩ := readHeader_eq h addr len
  have hwords := readLoop_words s.chip.mem addr Spi.evenNext hlen
    (n := 0) (q + 1) (fun c hc _ s => by rw [Spi.evenNext, decide_eq_true hc])
    (s.frames ++ readHeader addr len ++ [wordFrame]) (j := 0) (by omega)
  have hcount : (BitVec.ofNat 32 (len / 2) - 1).toNat = 0 + (q + 1) := by
    rw [show BitVec.ofNat 32 (len / 2) - 1 = BitVec.ofNat 32 (q + 1) by
      rw [show len / 2 = q + 1 + 1 by omega, BitVec.ofNat_add]
      exact BitVec.add_sub_cancel _ _, BitVec.toNat_ofNat]
    omega
  have hget : get s.chip.mem (burst addr) len =
      get s.chip.mem (fun i => burst addr (0 + i)) (2 * (q + 1)) ++
        get s.chip.mem (fun i => burst addr (0 + 2 * (q + 1) + i)) 2 := by
    rw [show len = 2 * (q + 1) + 2 by omega, get_add]
    simp only [Nat.zero_add]
  simp only [Spi.spiread, hhead]
  rw [if_neg (by omega), if_neg (by omega), if_neg (by omega),
    midRead_first _ _ hlen (by omega), hcount, hwords, hget]
  simp only [Spi.readLoop, midRead, Spi.read, valBytes_popr (length_get _ _ _), List.append_nil,
    List.append_assoc]
  rw [show 0 + 2 * (q + 1) + 2 = len by omega]
  refine Prod.ext rfl ?_
  simp only [List.replicate_succ, List.cons_append, List.nil_append]

end Spiread

/-! ### `spiwrite` -/

/-- The frames of a write. -/
def writeFrames (addr : BitVec 16) (init : List Byte) (last : Byte) : List Frame :=
  [⟨wordBytes addr, true⟩, ⟨wordBytes (.ofNat 16 (init ++ [last]).length ||| 0x8000), true⟩] ++
    init.map (fun b => ⟨[b], true⟩) ++ [⟨[last], false⟩]

section Spiwrite

variable {s : Spi} (addr : BitVec 16) {len : ℕ}

/-- The chip after the header of a write and `j` bytes of data. -/
def writing (m : BitVec 16 → Byte) (addr : BitVec 16) (len j : ℕ) : Chip :=
  ⟨m, wordBytes addr ++ wordBytes (.ofNat 16 len ||| 0x8000), j⟩

theorem clock_writing (hlen : len < 32768) (m : BitVec 16 → Byte) {j : ℕ} (b : Byte)
    (hj : j < len) :
    ((writing m addr len j).clock [b]).2 =
      writing (Function.update m (burst addr j) b) addr len (j + 1) := by
  obtain ⟨hop, hl⟩ := writeLength hlen
  exact HeaderIs.clock_write (c := writing m addr len j) rfl hop [b] (by rw [hl]; exact hj)

/-- The loop of `spiwrite`: after each byte there are the two frames of the header still to be
read, or two later ones. -/
theorem writeLoop_eq (hlen : len < 32768) (last : Byte) (init : List Byte) (m : BitVec 16 → Byte)
    (v w : BitVec 32) (fs : List Frame) {j : ℕ} (hj : j + init.length + 1 = len) :
    ∃ v' w', Spi.writeLoop (init ++ [last]) ⟨writing m addr len j, [v, w], fs, false⟩ =
      ⟨Chip.release (writing (put m (fun i => burst addr (j + i)) (init ++ [last])) addr len len),
        [v', w'], fs ++ init.map (fun b => ⟨[b], true⟩) ++ [⟨[last], false⟩], false⟩ := by
  induction init generalizing m v w fs j with
  | nil =>
    have hclock := clock_writing addr hlen m last (show j < len by simp at hj; omega)
    refine ⟨w, popr ((writing m addr len j).clock [last]).1, ?_⟩
    simp only [List.nil_append, Spi.writeLoop, Spi.write, Spi.push, hclock, ne_eq,
      not_true_eq_false, decide_false, Bool.false_eq_true, if_false, Spi.read, List.cons_append,
      List.map_nil, List.append_nil]
    rfl
  | cons b init ih =>
    rw [List.length_cons] at hj
    have hclock := clock_writing addr hlen m b (show j < len by omega)
    have hmore : decide (init ++ [last] ≠ []) = true := by simp
    obtain ⟨v', w', hrest⟩ := ih (Function.update m (burst addr j) b) w
      (popr ((writing m addr len j).clock [b]).1) (fs ++ [⟨[b], true⟩]) (j := j + 1) (by omega)
    refine ⟨v', w', ?_⟩
    simp only [List.cons_append, Spi.writeLoop, hmore, Spi.write, Spi.push, hclock, if_true,
      Spi.read, List.nil_append]
    have haddr : (fun i => burst addr (j + 1 + i)) = fun i => burst addr (j + (i + 1)) := by
      funext i
      rw [Nat.add_assoc, Nat.add_comm 1 i]
    rw [hrest, haddr]
    simp only [put, Nat.add_zero, List.map_cons, List.append_assoc, List.cons_append,
      List.nil_append]

theorem spiwrite_eq (h : s.Idle) (init : List Byte) (last : Byte)
    (hlen : (init ++ [last]).length < 32768) :
    s.spiwrite addr (init ++ [last]) =
      ⟨{ s.chip with mem := put s.chip.mem (burst addr) (init ++ [last]) }, [],
        s.frames ++ writeFrames addr init last, false⟩ := by
  obtain ⟨v, w, hhead⟩ := header_eq h addr (.ofNat 16 (init ++ [last]).length ||| 0x8000)
  have hwriting : { s.chip with
      header := wordBytes addr ++ wordBytes (.ofNat 16 (init ++ [last]).length ||| 0x8000) } =
      writing s.chip.mem addr (init ++ [last]).length 0 := by
    rw [writing, ← h.chip.2]
  rw [hwriting] at hhead
  obtain ⟨v', w', hloop⟩ := writeLoop_eq addr hlen last init s.chip.mem v w
    (s.frames ++ [⟨wordBytes addr, true⟩,
      ⟨wordBytes (.ofNat 16 (init ++ [last]).length ||| 0x8000), true⟩])
    (j := 0) (by simp)
  simp only [Spi.spiwrite]
  rw [hhead, hloop, writing, h.chip.release]
  simp only [Spi.read, Nat.zero_add, writeFrames, List.append_assoc]

end Spiwrite

/-! ### Sequences of transactions -/

/-- The addresses of a burst are different. -/
theorem simple_burst (addr : BitVec 16) {n : ℕ} (hn : n ≤ 65536) : Simple (burst addr) n := by
  intro i hi j hj hij
  have hij' : BitVec.ofNat 16 i = BitVec.ofNat 16 j := (BitVec.add_right_inj addr).1 hij
  have := congrArg BitVec.toNat hij'
  rw [BitVec.toNat_ofNat, BitVec.toNat_ofNat] at this
  omega

section Sequences

variable {s : Spi} (addr : BitVec 16) {len : ℕ}

theorem spiread_bytes (h : s.Idle) (hlen : 1 ≤ len ∧ len < 32768) :
    (s.spiread addr len).1 = get s.chip.mem (burst addr) len := by
  by_cases hodd : len % 2 = 1
  · rw [spiread_odd addr h hlen.2 (q := len / 2) (by omega)]
  by_cases h2 : len = 2
  · rw [spiread_two addr h h2]
  · rw [spiread_even addr h hlen.2 (q := (len - 4) / 2) (by omega)]

theorem readHeader_bytes (hlen : len < 32768) :
    (readHeader addr len).flatMap Frame.bytes = wordBytes addr ++ wordBytes (.ofNat 16 len) := by
  have hword : BitVec.ofNat 16 len &&& 0x7FFF = BitVec.ofNat 16 len := by
    apply BitVec.eq_of_toNat_eq
    rw [toNat_and_7fff hlen, BitVec.toNat_ofNat, Nat.mod_eq_of_lt (by omega)]
  rw [readHeader, hword]
  simp

theorem wordFrames_bytes (q : ℕ) :
    (List.replicate q wordFrame).flatMap Frame.bytes = List.replicate (2 * q) 0 := by
  induction q with
  | zero => rfl
  | succ q ih =>
    rw [List.replicate_succ, List.flatMap_cons, ih, show 2 * (q + 1) = 2 + 2 * q by omega,
      List.replicate_add]
    rfl

/-- A read whose frames are the header, `init` and a last one. -/
theorem ok_read_of_eq (h : s.Idle) (hlen : 1 ≤ len ∧ len < 32768) (init : List Frame) (last : Frame)
    (heq : s.spiread addr len = (get s.chip.mem (burst addr) len,
      ⟨s.chip, [], s.frames ++ (readHeader addr len ++ init ++ [last]), false⟩))
    (hinit : ∀ f ∈ init, f.cont = true) (hlast : last.cont = false)
    (hbytes : (init ++ [last]).flatMap Frame.bytes = List.replicate len 0) :
    Ok s (.read addr len hlen) ∧ (exec s (.read addr len hlen)).Idle := by
  have hexec : exec s (.read addr len hlen) =
      ⟨s.chip, [], s.frames ++ (readHeader addr len ++ init ++ [last]), false⟩ :=
    congrArg Prod.snd heq
  refine ⟨⟨⟨readHeader addr len ++ init ++ [last], by rw [hexec], readHeader addr len ++ init, last,
    rfl, ?_, hlast, ?_⟩, by rw [hexec]; exact ⟨rfl, rfl⟩, ?_⟩, ?_⟩
  · intro f hf
    rcases List.mem_append.1 hf with hf | hf
    · rcases List.mem_pair.1 hf with rfl | rfl <;> rfl
    · exact hinit f hf
  · rw [List.append_assoc, List.flatMap_append, readHeader_bytes addr hlen.2, hbytes]
    rfl
  · rw [Moved, heq]
    exact ⟨rfl, rfl⟩
  · rw [hexec]
    exact ⟨h.chip, rfl, rfl⟩

/-- Reading one, two, or an odd number of bytes. -/
theorem ok_read (h : s.Idle) (hlen : 1 ≤ len ∧ len < 32768) (hgood : len % 2 = 1 ∨ len = 2) :
    Ok s (.read addr len hlen) ∧ (exec s (.read addr len hlen)).Idle := by
  rcases hgood with hodd | h2
  · refine ok_read_of_eq addr h hlen _ _ (spiread_odd addr h hlen.2 (q := len / 2) (by omega)) ?_ rfl ?_
    · intro f hf
      rw [List.eq_of_mem_replicate hf]
      rfl
    · rw [List.flatMap_append, wordFrames_bytes]
      show List.replicate (2 * (len / 2)) 0 ++ List.replicate 1 0 = _
      rw [← List.replicate_add, show 2 * (len / 2) + 1 = len by omega]
  · refine ok_read_of_eq addr h hlen [] ⟨wordBytes 0, false⟩ ?_ (by simp) rfl ?_
    · rw [spiread_two addr h h2, List.append_nil]
    · subst h2
      rfl

/-- Reading any larger even number of bytes ends with a frame written with `SPI_CONTINUE`. -/
theorem not_ok_read (h : s.Idle) (hlen : 1 ≤ len ∧ len < 32768) (heven : len % 2 = 0 ∧ 4 ≤ len) :
    ¬ Ok s (.read addr len hlen) := by
  rintro ⟨⟨fs, hfs, init, last, rfl, -, hlast, -⟩, -⟩
  have heq := congrArg (·.2.frames)
    (spiread_even addr h hlen.2 (q := (len - 4) / 2) (by omega))
  rw [exec, heq] at hfs
  have hframes := List.append_cancel_left hfs
  rw [List.replicate_succ', ← List.append_assoc] at hframes
  have hsame : wordFrame = last := by
    have := (List.append_inj' hframes rfl).2
    simpa using this
  rw [← hsame] at hlast
  exact absurd hlast (by decide)

theorem ok_write (h : s.Idle) {buf : List Byte} (hlen : 1 ≤ buf.length ∧ buf.length < 32768) :
    Ok s (.write addr buf hlen) ∧ (exec s (.write addr buf hlen)).Idle := by
  obtain ⟨init, last, rfl⟩ : ∃ init last, buf = init ++ [last] :=
    ⟨buf.dropLast, buf.getLast (by rintro rfl; simp at hlen), (List.dropLast_append_getLast _).symm⟩
  have hexec := spiwrite_eq addr h init last hlen.2
  have hidle : (s.spiwrite addr (init ++ [last])).Idle := by
    rw [hexec]
    exact ⟨h.chip.setMem _, rfl, rfl⟩
  refine ⟨⟨⟨writeFrames addr init last, congrArg Spi.frames hexec, _, _, rfl, ?_, rfl, ?_⟩,
    ⟨congrArg Spi.rx hexec, congrArg Spi.hung hexec⟩, congrArg (·.chip.mem) hexec, ?_⟩, hidle⟩
  · intro f hf
    rcases List.mem_append.1 hf with hf | hf
    · rcases List.mem_pair.1 hf with rfl | rfl <;> rfl
    · obtain ⟨b, -, rfl⟩ := List.mem_map.1 hf
      rfl
  · have hone : ∀ bs : List Byte, bs.flatMap (fun b => [b]) = bs := fun bs => by simp
    simp only [writeFrames, List.flatMap_append, List.flatMap_map, hone, Transaction.mosi,
      List.append_assoc]
    rfl
  · rw [spiread_bytes addr hidle hlen, hexec, get_put (simple_burst addr (by omega))]

end Sequences

/-- **When the transactions are complete and delimited.** In any sequence of calls of `spiread` and
`spiwrite`, each call is, if and only if none of them reads an even number of bytes above two. -/
theorem transactions_ok_iff (mem : BitVec 16 → Byte) (ts : List Transaction) :
    Along exec Ok ⟨⟨mem, [], 0⟩, [], [], false⟩ ts ↔ ∀ t ∈ ts, ¬ t.LongEven := by
  have hstep : ∀ s t, s.Idle → (Ok s t ↔ ¬ t.LongEven) ∧ (¬ t.LongEven → (exec s t).Idle) := by
    intro s t hs
    cases t with
    | write addr buf hlen =>
      obtain ⟨hok, hidle⟩ := ok_write addr hs hlen
      exact ⟨iff_of_true hok not_false, fun _ => hidle⟩
    | read addr len hlen =>
      by_cases heven : len % 2 = 0 ∧ 4 ≤ len
      · exact ⟨iff_of_false (not_ok_read addr hs hlen heven) (not_not_intro heven),
          fun hgood => absurd heven hgood⟩
      · obtain ⟨hok, hidle⟩ := ok_read addr hs hlen (by omega)
        exact ⟨iff_of_true hok heven, fun _ => hidle⟩
  exact along_iff_forall (fun s t hs => (hstep s t hs).1) (fun s t hs => (hstep s t hs).2)
    ⟨⟨rfl, rfl⟩, rfl, rfl⟩ ts

/-- A read of four bytes is not delimited, and the write after it is lost. -/
theorem long_even_read_corrupts :
    let s₀ : Spi := ⟨⟨fun _ => 0, [], 0⟩, [], [], false⟩
    let t₁ : Transaction := .read 0x8000 4 (by decide)
    let t₂ : Transaction := .write 0x8000 [0xA5] (by decide)
    ¬ Ok s₀ t₁ ∧ (run exec s₀ [t₁, t₂]).chip.mem 0x8000 = 0 := by
  intro s₀ t₁ t₂
  exact ⟨not_ok_read _ ⟨⟨rfl, rfl⟩, rfl, rfl⟩ _ (by decide), by decide⟩

end W5200
