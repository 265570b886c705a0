import Mathlib.Tactic
import Teensy3.Lib.Run
import Teensy3.W5200.Wizpaul

/-!
# The SPI port with its queues

`w5100.cpp.fat` drives the W5200 through the DSPI module of the processor with the functions of
SdFat.  A frame that is written to `PUSHR` is shifted out in its turn; when it is complete, an entry
is added to a receive queue of four, unless that is full, and the flag `TCF` is set.  The driver
learns that a frame is complete only from the flag, or from the number of entries.

What the driver does with the registers depends on the length of the buffer and on its bytes, but
not on what comes in, except that it waits; so a function of the driver is the list of its register
accesses, and the machine takes the next one of these, or completes a frame, in any order.

* `Access`, `spiSend`, `spiRec`: the register accesses of the driver;
* `Dspi`, `step`: the module together with the rest of the driver's accesses;
* `Drains`, `exact_step`: a check of lists of accesses, under which the driver waits for each frame
  and never has more than four outstanding;
* `Suffices`, `returns_of_fair`: a check under which the driver never waits for ever.
-/

namespace W5200

open ByteMem Scatter Machine

/-! ### The driver -/

/-- A write to `PUSHR`: `SPI_PUSHR_CONT`, `SPI_PUSHR_CTAS(1)`, and the data. -/
structure Pushr where
  cont : Bool
  ctas : Bool
  data : BitVec 16
  deriving DecidableEq, Repr

/-- The bytes of a frame, most significant byte first: `CTAR0` has frames of 8 bits and `CTAR1` has
frames of 16. -/
def Pushr.bytes (f : Pushr) : List Byte := if f.ctas then wordBytes f.data else [f.data.setWidth 8]

/-- `SPI0_PUSHR = b`. -/
def Pushr.byte (b : Byte) : Pushr := ⟨false, false, b.setWidth 16⟩

/-- `SPI0_PUSHR = SPI_PUSHR_CONT | SPI_PUSHR_CTAS(1) | w`. -/
def Pushr.word (w : BitVec 16) : Pushr := ⟨true, true, w⟩

/-- What is stored in the buffer when an entry is read. -/
inductive Keep
  | nothing
  | byte
  | word
  deriving DecidableEq, Repr

def Keep.bytes (v : BitVec 32) : Keep → List Byte
  | .nothing => []
  | .byte => [v.setWidth 8]
  | .word => valBytes v

/-- The register accesses of the driver. -/
inductive Access
  /-- `SPI0_MCR = SPI_MCR_MSTR | SPI_MCR_CLR_RXF` -/
  | clearRxf
  /-- `SPI0_SR = SPI_SR_TCF` -/
  | clearTcf
  /-- `SPI0_PUSHR = …` -/
  | push (f : Pushr)
  /-- `while (!(SPI0_SR & SPI_SR_TCF)) {}` -/
  | awaitTcf
  /-- `while (!(SPI0_SR & SPI_SR_RXCTR)) {}` -/
  | awaitRx
  /-- `SPI0_POPR` -/
  | pop (keep : Keep)
  deriving DecidableEq, Repr

/-- The three loops that `spiSend` and `spiRec` have in common: at most
`SPI_INITIAL_FIFO_DEPTH` frames are written at once, each further one when there is an entry to be
read, and in the end the rest of the entries is read. -/
def pipeline (keep : Keep) (fs : List Pushr) : List Access :=
  let nf := if fs.length < 3 then fs.length else 3
  (fs.take nf).map .push ++
    ((fs.drop nf).flatMap fun f => [.awaitRx, .push f, .pop keep]) ++
    (List.replicate nf [.awaitRx, .pop keep]).flatten

/-- `w = *output++ << 8; w |= *output++;`, up to the limit. -/
def sendWords : List Byte → List Pushr
  | b :: c :: bs => .word (b.setWidth 16 <<< 8 ||| c.setWidth 16) :: sendWords bs
  | _ => []

/-- `spiSend(b)`. -/
def spiSendByte (b : Byte) : List Access := [.clearRxf, .clearTcf, .push (.byte b), .awaitTcf]

/-- `spiSend(output, len)`. -/
def spiSend (output : List Byte) : List Access :=
  .clearRxf ::
    if output.length % 2 = 1 then
      spiSendByte (output.headD 0) ++ pipeline .nothing (sendWords output.tail)
    else pipeline .nothing (sendWords output)

/-- `spiRec()`. -/
def spiRecByte : List Access :=
  [.clearRxf, .clearTcf, .push (.byte 0xFF), .awaitTcf, .pop .byte]

/-- `spiRec(buf, len)`. -/
def spiRec (len : ℕ) : List Access :=
  .clearRxf ::
    ((if len % 2 = 1 then spiRecByte else []) ++
      pipeline .word (List.replicate (len / 2) (.word 0xFFFF)))

/-- Of the frames, `nf` are written at once: at most three, and some if there are any. -/
theorem exists_pipeline_eq (keep : Keep) (fs : List Pushr) :
    ∃ nf, nf ≤ 3 ∧ nf ≤ fs.length ∧ (fs ≠ [] → 0 < nf) ∧
      pipeline keep fs = (fs.take nf).map .push ++
        (((fs.drop nf).flatMap fun f => [.awaitRx, .push f, .pop keep]) ++
          (List.replicate nf [.awaitRx, .pop keep]).flatten) := by
  refine ⟨if fs.length < 3 then fs.length else 3, ?_, ?_, fun hfs => ?_, ?_⟩
  · split_ifs <;> omega
  · split_ifs <;> omega
  · have hpos := List.length_pos_iff_ne_nil.2 hfs
    split_ifs <;> omega
  · rw [pipeline, List.append_assoc]

/-! ### The machine -/

/-- The module and the driver. -/
structure Dspi where
  /-- Frames written and not yet complete, the oldest first. -/
  inFlight : List Pushr
  /-- The receive queue. -/
  rx : List (BitVec 32)
  tcf : Bool
  /-- How many bytes have been clocked. -/
  clocked : ℕ
  /-- All frames written so far. -/
  pushed : List Pushr
  /-- What the driver has yet to do, and what it has stored. -/
  prog : List Access
  buf : List Byte

/-- How the machine moves: the driver makes its next access, or the module completes a frame. -/
inductive DspiEvent
  | cpu
  | complete
  deriving DecidableEq, Repr

/-- The entry for a frame, when the byte that comes in for byte `i` that is clocked is `miso i`. -/
def entry (miso : ℕ → Byte) (clocked : ℕ) (f : Pushr) : BitVec 32 :=
  popr (get miso (fun i => clocked + i) f.bytes.length)

/-- The driver's next access. -/
def Dspi.cpu (s : Dspi) : Dspi :=
  match s.prog with
  | [] => s
  | .clearRxf :: p => { s with rx := [], prog := p }
  | .clearTcf :: p => { s with tcf := false, prog := p }
  | .push f :: p => { s with inFlight := s.inFlight ++ [f], pushed := s.pushed ++ [f], prog := p }
  | .awaitTcf :: p => if s.tcf then { s with prog := p } else s
  | .awaitRx :: p => if s.rx = [] then s else { s with prog := p }
  | .pop keep :: p => { s with rx := s.rx.tail, buf := s.buf ++ keep.bytes (s.rx.headD 0), prog := p }

/-- The oldest frame is complete. -/
def Dspi.complete (miso : ℕ → Byte) (s : Dspi) : Dspi :=
  match s.inFlight with
  | [] => s
  | f :: fs =>
    { s with
      inFlight := fs
      rx := if s.rx.length < 4 then s.rx ++ [entry miso s.clocked f] else s.rx
      tcf := true
      clocked := s.clocked + f.bytes.length }

def step (miso : ℕ → Byte) (s : Dspi) : DspiEvent → Dspi
  | .cpu => s.cpu
  | .complete => s.complete miso

/-- The frames that have been written and not yet read. -/
def Dspi.outstanding (s : Dspi) : ℕ := s.inFlight.length + s.rx.length

/-- A call begins: nothing is on its way, whatever may still lie in the queue. -/
structure Dspi.Begins (s : Dspi) (prog : List Access) : Prop where
  inFlight : s.inFlight = []
  rx : s.rx.length ≤ 4
  pushed : s.pushed = []
  clocked : s.clocked = 0
  prog : s.prog = prog
  buf : s.buf = []

/-! ### Drivers that wait for each frame -/

/-- What the driver can know of the module. -/
inductive Known
  | nothing
  /-- There is an entry to be read. -/
  | received
  /-- No frame is on its way. -/
  | quiet
  /-- Nor is `TCF` set. -/
  | cleared
  /-- At most one frame is on its way, and none when `TCF` is set. -/
  | one
  deriving DecidableEq

def Known.Holds (s : Dspi) : Known → Prop
  | .nothing => True
  | .received => s.rx ≠ []
  | .quiet => s.inFlight = []
  | .cleared => s.inFlight = [] ∧ s.tcf = false
  | .one => s.inFlight.length ≤ 1 ∧ (s.tcf = true → s.inFlight = [])

/-- What it knows when it has written one more frame. -/
def Known.push : Known → Known
  | .cleared => .one
  | .received => .received
  | _ => .nothing

/-- The accesses, begun with `n` frames outstanding, never have more than four outstanding, read an
entry only when there is one, clear a queue or the flag only when no frame is on its way, and leave
none on its way in the end. -/
def Drains : ℕ → Known → List Access → Prop
  | n, k, [] => n = 0 ∨ k = .quiet
  | n, k, .clearRxf :: p => (n = 0 ∨ k = .quiet) ∧ Drains 0 .quiet p
  | n, k, .clearTcf :: p => (n = 0 ∨ k = .quiet) ∧ Drains n .cleared p
  | n, k, .push _ :: p => n < 4 ∧ Drains (n + 1) k.push p
  | n, k, .awaitTcf :: p => k = .one ∧ Drains n .quiet p
  | n, _, .awaitRx :: p => Drains n .received p
  | n, k, .pop _ :: p => (k = .received ∨ 0 < n ∧ k = .quiet) ∧ Drains (n - 1) .nothing p

/-- The driver is at a point from which it drains the module. -/
def Exact (s : Dspi) : Prop :=
  s.outstanding ≤ 4 ∧ ∃ k : Known, k.Holds s ∧ Drains s.outstanding k s.prog

section Exact

variable {s : Dspi} {miso : ℕ → Byte} {k : Known} {p : List Access}

theorem quiet_of_known (hk : k.Holds s) (h : s.outstanding = 0 ∨ k = .quiet) : s.inFlight = [] := by
  rcases h with h | rfl
  · rw [← List.length_eq_zero_iff]
    rw [Dspi.outstanding] at h
    omega
  · exact hk

theorem rx_ne_nil_of_known (hk : k.Holds s) (h : k = .received ∨ 0 < s.outstanding ∧ k = .quiet) :
    s.rx ≠ [] := by
  rcases h with rfl | ⟨hpos, rfl⟩
  · exact hk
  · have hquiet : s.inFlight = [] := hk
    rw [← List.length_pos_iff_ne_nil]
    rw [Dspi.outstanding, hquiet, List.length_nil] at hpos
    omega

theorem exact_cpu (h : Exact s) : Exact s.cpu := by
  obtain ⟨hmax, k, hk, hprog⟩ := h
  unfold Dspi.cpu
  split
  case h_1 heq => exact ⟨hmax, k, hk, hprog⟩
  case h_2 p heq =>
    rw [heq] at hprog
    have hquiet := quiet_of_known hk hprog.1
    refine ⟨by simp [Dspi.outstanding, hquiet], .quiet, hquiet, ?_⟩
    simpa [Dspi.outstanding, hquiet] using hprog.2
  case h_3 p heq =>
    rw [heq] at hprog
    have hquiet := quiet_of_known hk hprog.1
    exact ⟨hmax, .cleared, ⟨hquiet, rfl⟩, hprog.2⟩
  case h_4 f p heq =>
    rw [heq] at hprog
    obtain ⟨hroom, hprog⟩ := hprog
    have hout : s.inFlight.length + 1 + s.rx.length = s.outstanding + 1 := by
      rw [Dspi.outstanding]
      omega
    refine ⟨?_, k.push, ?_, ?_⟩
    · simp only [Dspi.outstanding, List.length_append, List.length_singleton]
      omega
    · cases k with
      | cleared =>
        obtain ⟨hquiet, htcf⟩ := hk
        refine ⟨by simp [hquiet], fun hset => ?_⟩
        exact absurd (htcf.symm.trans hset) (by decide)
      | received => exact hk
      | _ => trivial
    · simp only [Dspi.outstanding, List.length_append, List.length_singleton]
      rw [hout]
      exact hprog
  case h_5 p heq =>
    rw [heq] at hprog
    by_cases htcf : s.tcf = true
    · rw [if_pos htcf]
      obtain ⟨rfl, hprog⟩ := hprog
      exact ⟨hmax, .quiet, hk.2 htcf, hprog⟩
    · rw [if_neg htcf]
      exact ⟨hmax, k, hk, by rw [heq]; exact hprog⟩
  case h_6 p heq =>
    rw [heq] at hprog
    by_cases hrx : s.rx = []
    · rw [if_pos hrx]
      exact ⟨hmax, k, hk, by rw [heq]; exact hprog⟩
    · rw [if_neg hrx]
      exact ⟨hmax, .received, hrx, hprog⟩
  case h_7 keep p heq =>
    rw [heq] at hprog
    have hrx := List.length_pos_iff_ne_nil.2 (rx_ne_nil_of_known hk hprog.1)
    have hout : s.inFlight.length + (s.rx.length - 1) = s.outstanding - 1 := by
      rw [Dspi.outstanding]
      omega
    refine ⟨?_, .nothing, trivial, ?_⟩
    · simp only [Dspi.outstanding, List.length_tail]
      omega
    · simp only [Dspi.outstanding, List.length_tail]
      rw [hout]
      exact hprog.2

theorem exact_complete (h : Exact s) : Exact (s.complete miso) := by
  obtain ⟨hmax, k, hk, hprog⟩ := h
  unfold Dspi.complete
  split
  case h_1 => exact ⟨hmax, k, hk, hprog⟩
  case h_2 f fs heq =>
    -- there is room in the queue for the frame
    rw [Dspi.outstanding, heq, List.length_cons] at hmax
    rw [if_pos (by omega)]
    have hout : fs.length + (s.rx.length + 1) = s.outstanding := by
      rw [Dspi.outstanding, heq, List.length_cons]
      omega
    refine ⟨?_, k, ?_, ?_⟩
    · simp only [Dspi.outstanding, List.length_append, List.length_singleton]
      omega
    · cases k with
      | nothing => trivial
      | received => exact List.append_ne_nil_of_left_ne_nil hk _
      | quiet => exact absurd (hk.symm.trans heq) (by simp)
      | cleared => exact absurd (hk.1.symm.trans heq) (by simp)
      | one =>
        have hlen := hk.1
        rw [heq, List.length_cons] at hlen
        have hfs : fs = [] := List.length_eq_zero_iff.1 (by omega)
        exact ⟨by simp [hfs], fun _ => hfs⟩
    · simp only [Dspi.outstanding, List.length_append, List.length_singleton]
      rw [hout]
      exact hprog

/-- **One step.** A driver that drains the module goes on to do so, whatever happens next. -/
theorem exact_step (s : Dspi) (e : DspiEvent) (h : Exact s) : Exact (step miso s e) := by
  cases e with
  | cpu => exact exact_cpu h
  | complete => exact exact_complete h

theorem exact_of_begins (h : s.Begins p) (hp : ∀ n, Drains n .quiet p) : Exact s := by
  refine ⟨?_, .quiet, h.inFlight, ?_⟩
  · rw [Dspi.outstanding, h.inFlight, List.length_nil, Nat.zero_add]
    exact h.rx
  · rw [h.prog]
    exact hp _

theorem Exact.inFlight (h : Exact s) (hp : s.prog = []) : s.inFlight = [] := by
  obtain ⟨-, k, hk, hprog⟩ := h
  rw [hp] at hprog
  exact quiet_of_known hk hprog

end Exact

/-! ### The checks of the driver's functions -/

section Checks

variable {k : Known} {rest : List Access}

theorem drains_drain (keep : Keep) (nf : ℕ) (h : ∀ k, Drains 0 k rest) :
    Drains nf k ((List.replicate nf [.awaitRx, .pop keep]).flatten ++ rest) := by
  induction nf generalizing k with
  | zero => exact h k
  | succ nf ih =>
    rw [List.replicate_succ, List.flatten_cons]
    exact ⟨.inl rfl, ih⟩

theorem drains_loop (keep : Keep) {nf : ℕ} (hnf : nf ≤ 3) (fs : List Pushr)
    (h : ∀ k, Drains nf k rest) :
    Drains nf k ((fs.flatMap fun f => [.awaitRx, .push f, .pop keep]) ++ rest) := by
  induction fs generalizing k with
  | nil => exact h k
  | cons f fs ih =>
    rw [List.flatMap_cons]
    exact ⟨by omega, .inl rfl, ih⟩

theorem drains_fill (fs : List Pushr) {n : ℕ} (hn : n + fs.length ≤ 4)
    (h : ∀ k, Drains (n + fs.length) k rest) : Drains n k (fs.map .push ++ rest) := by
  induction fs generalizing n k with
  | nil => exact h k
  | cons f fs ih =>
    rw [List.length_cons] at hn
    refine ⟨by omega, ih (by omega) fun k => ?_⟩
    rw [Nat.add_right_comm, Nat.add_assoc]
    exact h k

/-- The loops read as many entries as they write frames. -/
theorem drains_pipeline (keep : Keep) (fs : List Pushr) (h : ∀ k, Drains 0 k rest) :
    Drains 0 k (pipeline keep fs ++ rest) := by
  obtain ⟨nf, h3, hle, -, heq⟩ := exists_pipeline_eq keep fs
  have hlen : (fs.take nf).length = nf := List.length_take_of_le hle
  rw [heq, List.append_assoc, List.append_assoc]
  refine drains_fill _ (by omega) fun k => ?_
  rw [hlen, Nat.zero_add]
  exact drains_loop keep h3 _ fun k => drains_drain keep nf h

/-- An even number of bytes. -/
theorem drains_spiSend {output : List Byte} (heven : output.length % 2 = 0) (h : ∀ k, Drains 0 k rest)
    (n : ℕ) : Drains n .quiet (spiSend output ++ rest) := by
  rw [spiSend, if_neg (by omega)]
  exact ⟨.inr rfl, drains_pipeline .nothing _ h⟩

theorem drains_spiRec (len : ℕ) {n : ℕ} (hk : n = 0 ∨ k = .quiet) (h : ∀ k, Drains 0 k rest) :
    Drains n k (spiRec len ++ rest) := by
  rw [spiRec, List.cons_append]
  refine ⟨hk, ?_⟩
  by_cases hodd : len % 2 = 1
  · rw [if_pos hodd, List.append_assoc]
    refine ⟨.inl rfl, .inl rfl, by omega, rfl, .inr ⟨by omega, rfl⟩, ?_⟩
    exact drains_pipeline .word _ h
  · rw [if_neg hodd, List.nil_append]
    exact drains_pipeline .word _ h

end Checks

/-! ### Drivers that return -/

/-- The accesses, begun with at least `n` frames outstanding, wait for an entry only if at least one
is, and for `TCF` only if a frame has been written since it was cleared (`live`).  The queue holds
four entries, so no more than four frames count. -/
def Suffices : ℕ → Bool → List Access → Prop
  | _, _, [] => True
  | _, live, .clearRxf :: p => Suffices 0 live p
  | n, _, .clearTcf :: p => Suffices n false p
  | n, _, .push _ :: p => Suffices (min (n + 1) 4) true p
  | n, live, .awaitTcf :: p => live = true ∧ Suffices n live p
  | n, live, .awaitRx :: p => 0 < n ∧ Suffices n live p
  | n, live, .pop _ :: p => Suffices (n - 1) live p

/-- The driver will not wait for ever. -/
def Progresses (s : Dspi) : Prop :=
  ∃ n live, n ≤ 4 ∧ n ≤ s.outstanding ∧ (live = true → s.tcf = true ∨ s.inFlight ≠ []) ∧
    Suffices n live s.prog

/-- The accesses and completions that are left. -/
def rank (s : Dspi) : ℕ := 2 * s.prog.length + s.inFlight.length

section Progress

variable {s : Dspi} {miso : ℕ → Byte}

theorem progresses_cpu (h : Progresses s) : Progresses s.cpu := by
  obtain ⟨n, live, hn, hle, hlive, hprog⟩ := h
  unfold Dspi.cpu
  split
  case h_1 => exact ⟨n, live, hn, hle, hlive, hprog⟩
  case h_2 p heq =>
    rw [heq] at hprog
    exact ⟨0, live, by omega, by omega, hlive, hprog⟩
  case h_3 p heq =>
    rw [heq] at hprog
    exact ⟨n, false, hn, hle, by simp, hprog⟩
  case h_4 f p heq =>
    rw [heq] at hprog
    refine ⟨min (n + 1) 4, true, by omega, ?_, by simp, hprog⟩
    simp only [Dspi.outstanding, List.length_append, List.length_singleton] at hle ⊢
    omega
  case h_5 p heq =>
    rw [heq] at hprog
    split_ifs
    · exact ⟨n, live, hn, hle, hlive, hprog.2⟩
    · exact ⟨n, live, hn, hle, hlive, by rw [heq]; exact hprog⟩
  case h_6 p heq =>
    rw [heq] at hprog
    split_ifs
    · exact ⟨n, live, hn, hle, hlive, by rw [heq]; exact hprog⟩
    · exact ⟨n, live, hn, hle, hlive, hprog.2⟩
  case h_7 keep p heq =>
    rw [heq] at hprog
    refine ⟨n - 1, live, by omega, ?_, hlive, hprog⟩
    simp only [Dspi.outstanding, List.length_tail] at hle ⊢
    omega

theorem progresses_complete (h : Progresses s) : Progresses (s.complete miso) := by
  obtain ⟨n, live, hn, hle, hlive, hprog⟩ := h
  unfold Dspi.complete
  split
  case h_1 => exact ⟨n, live, hn, hle, hlive, hprog⟩
  case h_2 f fs heq =>
    refine ⟨n, live, hn, ?_, fun _ => .inl rfl, hprog⟩
    rw [Dspi.outstanding, heq, List.length_cons] at hle
    simp only [Dspi.outstanding]
    split_ifs with hroom
    · rw [List.length_append, List.length_singleton]
      omega
    · -- the frame is lost, but there are four entries
      omega

theorem progresses_step (s : Dspi) (e : DspiEvent) (h : Progresses s) :
    Progresses (step miso s e) := by
  cases e with
  | cpu => exact progresses_cpu h
  | complete => exact progresses_complete h

/-- Each event changes nothing, or leaves less to be done. -/
theorem step_rank (miso : ℕ → Byte) (s : Dspi) (e : DspiEvent) :
    step miso s e = s ∨ rank (step miso s e) < rank s := by
  cases e with
  | cpu =>
    simp only [step, Dspi.cpu]
    split
    case h_1 => exact .inl rfl
    case h_5 p heq =>
      split_ifs
      · exact .inr (by simp [rank, heq])
      · exact .inl rfl
    case h_6 p heq =>
      split_ifs
      · exact .inl rfl
      · exact .inr (by simp [rank, heq])
    all_goals
      rename_i heq
      right
      simp only [rank, heq, List.length_cons, List.length_append, List.length_nil]
      omega
  | complete =>
    simp only [step, Dspi.complete]
    split
    case h_1 => exact .inl rfl
    case h_2 f fs heq => exact .inr (by simp [rank, heq])

/-- As long as the driver has not returned, one of the events does. -/
theorem exists_rank_lt (miso : ℕ → Byte) (h : Progresses s) (hp : s.prog ≠ []) :
    ∃ e, rank (step miso s e) < rank s := by
  obtain ⟨n, live, -, hle, hlive, hprog⟩ := h
  match hflight : s.inFlight with
  | f :: fs => exact ⟨.complete, by simp [step, Dspi.complete, hflight, rank]⟩
  | [] =>
    -- no frame is on its way, so the driver need not wait
    refine ⟨.cpu, (step_rank miso s .cpu).resolve_left fun hstay => ?_⟩
    have hlen := congrArg (fun s : Dspi => s.prog.length) hstay
    match heq : s.prog with
    | [] => exact hp heq
    | .awaitTcf :: p =>
      rw [heq] at hprog
      have htcf : s.tcf = true := (hlive hprog.1).resolve_right (not_not_intro hflight)
      simp [step, Dspi.cpu, heq, htcf] at hlen
    | .awaitRx :: p =>
      rw [heq] at hprog
      have hrx : s.rx ≠ [] := by
        have hpos := hprog.1
        rw [Dspi.outstanding, hflight, List.length_nil] at hle
        exact List.length_pos_iff_ne_nil.1 (by omega)
      simp [step, Dspi.cpu, heq, hrx] at hlen
    | .clearRxf :: p | .clearTcf :: p | .push f :: p | .pop keep :: p =>
      simp [step, Dspi.cpu, heq] at hlen

/-- **The driver returns**, if it goes on again and again, and so does the module. -/
theorem returns_of_fair (h : Progresses s) {inp : ℕ → DspiEvent}
    (hfair : ∀ e n, ∃ m, n ≤ m ∧ inp m = e) : ∃ n, (trace (step miso) s inp n).prog = [] := by
  have hprogress : ∀ n, Progresses (trace (step miso) s inp n) :=
    trace_induction (C := fun _ _ => True) (fun s e hs _ => progresses_step s e hs) h
      fun _ => trivial
  have hdown : ∀ n, 0 ≤ n → (trace (step miso) s inp n).prog ≠ [] →
      ∃ m, n < m ∧ ((trace (step miso) s inp m).prog = [] ∨
        rank (trace (step miso) s inp m) < rank (trace (step miso) s inp n)) := by
    intro n _ hn
    obtain ⟨e, hlt⟩ := exists_rank_lt miso (hprogress n) hn
    -- the state stays as it is until `e` happens, or something else that leaves less to be done
    obtain ⟨m, hm, hless⟩ := trace_until (E := fun _ e' => e' = e)
      (Q := fun s' => s' = trace (step miso) s inp n)
      (G := fun s' => rank s' < rank (trace (step miso) s inp n))
      (fun s' e' hs' => by subst hs'; exact step_rank miso _ e')
      (fun s' e' hs' he' => by subst hs' he'; exact hlt) rfl (hfair e n)
    exact ⟨m, hm, .inr hless⟩
  obtain ⟨n, -, hn⟩ := trace_reaches (G := fun s => s.prog = []) rank hdown
  exact ⟨n, hn⟩

end Progress

section SufficesChecks

variable {live : Bool} {rest : List Access}

/-- More frames do no harm. -/
theorem Suffices.mono {n m : ℕ} (hnm : n ≤ m) {p : List Access} (h : Suffices n live p) :
    Suffices m live p := by
  induction p generalizing n m live with
  | nil => trivial
  | cons a p ih =>
    cases a with
    | clearRxf => exact h
    | clearTcf => exact ih hnm h
    | push f => exact ih (by omega) h
    | awaitTcf => exact ⟨h.1, ih hnm h.2⟩
    | awaitRx => exact ⟨h.1.trans_le hnm, ih hnm h.2⟩
    | pop keep => exact ih (by omega) h

theorem suffices_drain (keep : Keep) (nf : ℕ) (h : Suffices 0 live rest) :
    Suffices nf live ((List.replicate nf [.awaitRx, .pop keep]).flatten ++ rest) := by
  induction nf with
  | zero => exact h
  | succ nf ih =>
    rw [List.replicate_succ, List.flatten_cons]
    exact ⟨by omega, ih⟩

theorem suffices_loop (keep : Keep) {nf : ℕ} (hnf : 0 < nf ∧ nf ≤ 3) (fs : List Pushr)
    (h : ∀ live, Suffices nf live rest) :
    Suffices nf live ((fs.flatMap fun f => [.awaitRx, .push f, .pop keep]) ++ rest) := by
  induction fs generalizing live with
  | nil => exact h live
  | cons f fs ih =>
    rw [List.flatMap_cons]
    refine ⟨hnf.1, ?_⟩
    show Suffices (min (nf + 1) 4 - 1) true _
    rw [show min (nf + 1) 4 - 1 = nf by omega]
    exact ih

theorem suffices_fill (fs : List Pushr) {n : ℕ} (hn : n + fs.length ≤ 4)
    (h : ∀ live, Suffices (n + fs.length) live rest) : Suffices n live (fs.map .push ++ rest) := by
  induction fs generalizing n live with
  | nil => exact h live
  | cons f fs ih =>
    rw [List.length_cons] at hn h
    show Suffices (min (n + 1) 4) true _
    rw [show min (n + 1) 4 = n + 1 by omega]
    refine ih (by omega) fun live => ?_
    rw [Nat.add_right_comm, Nat.add_assoc]
    exact h live

theorem suffices_pipeline (keep : Keep) (fs : List Pushr) (h : ∀ live, Suffices 0 live rest) :
    Suffices 0 live (pipeline keep fs ++ rest) := by
  by_cases hfs : fs = []
  · subst hfs
    exact h live
  obtain ⟨nf, h3, hle, hpos, heq⟩ := exists_pipeline_eq keep fs
  have hlen : (fs.take nf).length = nf := List.length_take_of_le hle
  rw [heq, List.append_assoc, List.append_assoc]
  refine suffices_fill _ (by omega) fun live => ?_
  rw [hlen, Nat.zero_add]
  exact suffices_loop keep ⟨hpos hfs, h3⟩ _ fun live => suffices_drain keep nf (h live)

theorem suffices_spiSend (output : List Byte) (n : ℕ) (h : ∀ live, Suffices 0 live rest) :
    Suffices n live (spiSend output ++ rest) := by
  rw [spiSend, List.cons_append]
  show Suffices 0 live _
  by_cases hodd : output.length % 2 = 1
  · rw [if_pos hodd, List.append_assoc]
    refine ⟨rfl, ?_⟩
    exact (suffices_pipeline .nothing _ h).mono (Nat.zero_le _)
  · rw [if_neg hodd]
    exact suffices_pipeline .nothing _ h

theorem suffices_spiRec (len n : ℕ) (h : ∀ live, Suffices 0 live rest) :
    Suffices n live (spiRec len ++ rest) := by
  rw [spiRec, List.cons_append]
  show Suffices 0 live _
  by_cases hodd : len % 2 = 1
  · rw [if_pos hodd, List.append_assoc]
    exact ⟨rfl, suffices_pipeline .word _ h⟩
  · rw [if_neg hodd, List.nil_append]
    exact suffices_pipeline .word _ h

theorem progresses_of_begins {s : Dspi} {p : List Access} (h : s.Begins p)
    (hp : Suffices 0 false p) : Progresses s :=
  ⟨0, false, by omega, by omega, by simp, by rw [h.prog]; exact hp⟩

end SufficesChecks

/-! ### When `spiSend` has waited for its frames -/

/-- However the accesses and the completions follow each other, there are never more than four
frames in the queue or on their way to it, and none is on its way when `spiSend` has returned. -/
def SendsDrained (miso : ℕ → Byte) (s : Dspi) : Prop :=
  ∀ es, let s' := run (step miso) s es
    s'.outstanding ≤ 4 ∧ (s'.prog = [] → s'.inFlight = [])

section SpiSend

variable {s : Dspi} {miso : ℕ → Byte}

theorem sendsDrained_of_drains {p : List Access} (h : s.Begins p) (hp : ∀ n, Drains n .quiet p) :
    SendsDrained miso s := by
  intro es
  have hexact : Exact (run (step miso) s es) :=
    run_induction exact_step (exact_of_begins h hp) es
  exact ⟨hexact.1, hexact.inFlight⟩

/-- A single byte is waited for with `TCF`. -/
theorem drains_spiSend_one (b : Byte) (n : ℕ) : Drains n .quiet (spiSend [b]) :=
  ⟨.inr rfl, .inl rfl, .inl rfl, by omega, rfl, .inr rfl⟩

/-- The driver can return with a frame on its way. -/
def Lags (miso : ℕ → Byte) (s : Dspi) : Prop :=
  ∃ es, (run (step miso) s es).prog = [] ∧ (run (step miso) s es).inFlight ≠ []

theorem Lags.of_run (es : List DspiEvent) (h : Lags miso (run (step miso) s es)) : Lags miso s := by
  obtain ⟨fs, hfs⟩ := h
  exact ⟨es ++ fs, by rwa [run_append]⟩

/-- With one entry too many in the queue, each frame is taken for complete while it is still on its
way: here in the last loop, -/
theorem lags_drain (keep : Keep) {k : ℕ} {v : BitVec 32}
    (hprog : s.prog = (List.replicate (k + 1) [.awaitRx, .pop keep]).flatten) (hrx : s.rx = [v])
    (hlen : s.inFlight.length = k + 1) : Lags miso s := by
  induction k generalizing s v with
  | zero =>
    have hne : s.inFlight ≠ [] := List.length_pos_iff_ne_nil.1 (by omega)
    exact ⟨[.cpu, .cpu], by simp [step, Dspi.cpu, hprog, hrx], by simpa [step, Dspi.cpu, hprog, hrx]⟩
  | succ k ih =>
    match hflight : s.inFlight with
    | [] => simp [hflight] at hlen
    | f :: fs =>
      rw [hflight, List.length_cons] at hlen
      refine Lags.of_run [.cpu, .cpu, .complete] (ih (v := entry miso s.clocked f) ?_ ?_ ?_)
      · simp [step, Dspi.cpu, Dspi.complete, hprog, hrx, hflight, List.replicate_succ]
      · simp [step, Dspi.cpu, Dspi.complete, hprog, hrx, hflight, List.replicate_succ]
      · simpa [step, Dspi.cpu, Dspi.complete, hprog, hrx, hflight, List.replicate_succ] using hlen

/-- and here in the loop before it. -/
theorem lags_loop (keep : Keep) {k : ℕ} (fs : List Pushr) {v : BitVec 32}
    (hprog : s.prog = (fs.flatMap fun f => [.awaitRx, .push f, .pop keep]) ++
      (List.replicate (k + 1) [.awaitRx, .pop keep]).flatten)
    (hrx : s.rx = [v]) (hlen : s.inFlight.length = k + 1) : Lags miso s := by
  induction fs generalizing s v with
  | nil => exact lags_drain keep hprog hrx hlen
  | cons f fs ih =>
    match hflight : s.inFlight with
    | [] => simp [hflight] at hlen
    | g :: gs =>
      rw [hflight, List.length_cons] at hlen
      refine Lags.of_run [.cpu, .cpu, .cpu, .complete] (ih (v := entry miso s.clocked g) ?_ ?_ ?_)
      · simp [step, Dspi.cpu, Dspi.complete, hprog, hrx, hflight]
      · simp [step, Dspi.cpu, Dspi.complete, hprog, hrx, hflight]
      · simpa [step, Dspi.cpu, Dspi.complete, hprog, hrx, hflight] using hlen

theorem run_fill (fs : List Pushr) {rest : List Access} (hprog : s.prog = fs.map .push ++ rest) :
    run (step miso) s (List.replicate fs.length .cpu) =
      { s with inFlight := s.inFlight ++ fs, pushed := s.pushed ++ fs, prog := rest } := by
  induction fs generalizing s with
  | nil => simp [← show s.prog = rest from hprog]
  | cons f fs ih =>
    have hpush : step miso s .cpu =
        { s with
          inFlight := s.inFlight ++ [f]
          pushed := s.pushed ++ [f]
          prog := fs.map .push ++ rest } := by
      simp [step, Dspi.cpu, hprog]
    rw [List.length_cons, List.replicate_succ, run_cons, hpush, ih rfl]
    simp

theorem lags_pipeline (keep : Keep) (fs : List Pushr) (hfs : fs ≠ []) {v : BitVec 32}
    (hprog : s.prog = pipeline keep fs) (hrx : s.rx = [v]) (hflight : s.inFlight = []) :
    Lags miso s := by
  obtain ⟨nf, -, hle, hpos, heq⟩ := exists_pipeline_eq keep fs
  obtain ⟨k, hk⟩ := Nat.exists_eq_add_of_lt (hpos hfs)
  rw [Nat.zero_add] at hk
  rw [heq] at hprog
  refine Lags.of_run (List.replicate (fs.take nf).length .cpu) ?_
  rw [run_fill _ hprog]
  refine lags_loop keep (fs.drop nf) (k := k) (v := v) (by rw [hk]) hrx ?_
  rw [hflight, List.nil_append, List.length_take_of_le hle, hk]

/-- An odd number of bytes above one. -/
theorem lags_spiSend (miso : ℕ → Byte) {output : List Byte} (h : s.Begins (spiSend output))
    (hodd : output.length % 2 = 1) (h3 : 3 ≤ output.length) : Lags miso s := by
  have hprog := h.prog
  rw [spiSend, if_pos hodd] at hprog
  match output, h3 with
  | b :: c :: d :: bs, _ =>
    refine Lags.of_run [.cpu, .cpu, .cpu, .cpu, .complete, .cpu]
      (lags_pipeline .nothing (sendWords (c :: d :: bs)) (by simp [sendWords])
        (v := entry miso s.clocked (.byte b)) ?_ ?_ ?_)
    all_goals
      simp [step, Dspi.cpu, Dspi.complete, hprog, h.inFlight, spiSendByte]

end SpiSend

/-- **When `spiSend` has waited for its frames.** For any buffer, when no frame is on its way at the
call, whatever lies in the receive queue: exactly if the number of bytes is even, or one.  Otherwise
the entry of the first byte is left in the queue and taken for that of the next frame. -/
theorem spiSend_drained_iff (miso : ℕ → Byte) (output : List Byte) :
    (∀ s : Dspi, s.Begins (spiSend output) → SendsDrained miso s) ↔
      output.length % 2 = 0 ∨ output.length = 1 := by
  constructor
  · intro h
    by_contra hodd
    push Not at hodd
    have hbegins : Dspi.Begins ⟨[], [], false, 0, [], spiSend output, []⟩ (spiSend output) :=
      ⟨rfl, by simp, rfl, rfl, rfl, rfl⟩
    obtain ⟨es, hreturn, hflight⟩ := lags_spiSend miso hbegins (by omega) (by omega)
    exact hflight ((h _ hbegins es).2 hreturn)
  · rintro (heven | hone) s hs
    · refine sendsDrained_of_drains hs fun n => ?_
      have hnil : ∀ k, Drains 0 k [] := fun k => Or.inl rfl
      rw [← List.append_nil (spiSend output)]
      exact drains_spiSend heven hnil n
    · obtain ⟨b, rfl⟩ := List.length_eq_one_iff.1 hone
      exact sendsDrained_of_drains hs (drains_spiSend_one b)

/-- Three bytes: `spiSend` returns with the second frame on its way.  Nine bytes: there are five
frames in the queue or on their way to it. -/
theorem spiSend_returns_early :
    let begun := fun output => (⟨[], [], false, 0, [], spiSend output, []⟩ : Dspi)
    ¬ SendsDrained (fun _ => 0) (begun [1, 2, 3]) ∧
      ¬ SendsDrained (fun _ => 0) (begun [1, 2, 3, 4, 5, 6, 7, 8, 9]) := by
  intro begun
  constructor
  · intro h
    have hreturn := (h [.cpu, .cpu, .cpu, .cpu, .complete, .cpu, .cpu, .cpu, .cpu]).2 (by decide)
    exact absurd hreturn (by decide)
  · intro h
    have hmax := (h [.cpu, .cpu, .cpu, .cpu, .complete, .cpu, .cpu, .cpu, .cpu, .cpu, .cpu]).1
    exact absurd hmax (by decide)

end W5200
