import Mathlib.Tactic
import Teensy3.Lib.Run
import Teensy3.W5200.Dspi

/-!
# The two ports of the W5200 driver

`W5100Class::write` and `W5100Class::read` exist twice: `w5100.cpp` clocks byte after byte with
`SPI.transfer` (`writeMosi`, `readMosi`), and `w5100.cpp.fat` uses the queues of the SPI module and
frames of two sizes.  Both put the same bytes on the wire, and both store the same bytes, however the
completions of the frames fall between the accesses of the driver.

* `fatWrite`, `fatRead`: the accesses of the functions of `w5100.cpp.fat`;
* `pushes`, `outcome`: the frames that a list of accesses writes, and the bytes that it stores if
  every frame is complete as soon as it is written;
* `pushes_step`, `foreseen_step`: neither depends on the completions;
* `ports_agree`: the two ports agree.
-/

namespace W5200

open ByteMem Scatter Machine

/-! ### The functions of `w5100.cpp.fat` -/

/-- `write(_addr, _buf, _len)`. -/
def fatWrite (addr : BitVec 16) (buf : List Byte) : List Access :=
  spiSend (header 0x80 addr (.ofNat 16 buf.length)) ++ spiSend buf

/-- `write(_addr, _data)`. -/
def fatWrite8 (addr : BitVec 16) (data : Byte) : List Access := fatWrite addr [data]

/-- `read(_addr, _buf, _len)`. -/
def fatRead (addr : BitVec 16) (len : ℕ) : List Access :=
  spiSend (header 0x00 addr (.ofNat 16 len)) ++ spiRec len

/-- `read(_addr)`. -/
def fatRead8 (addr : BitVec 16) : List Access := fatRead addr 1

/-! ### What goes out -/

/-- The frames of a list of accesses. -/
def pushes : List Access → List Pushr
  | [] => []
  | .push f :: p => f :: pushes p
  | _ :: p => pushes p

@[simp] theorem pushes_append (p q : List Access) : pushes (p ++ q) = pushes p ++ pushes q := by
  induction p with
  | nil => rfl
  | cons a p ih => cases a <;> simp [pushes, ih]

/-- What has been written and what is yet to be written stay the same together. -/
theorem pushes_step (miso : ℕ → Byte) (s : Dspi) (e : DspiEvent) :
    (step miso s e).pushed ++ pushes (step miso s e).prog = s.pushed ++ pushes s.prog := by
  cases e with
  | cpu =>
    simp only [step, Dspi.cpu]
    split
    case h_1 => rfl
    case h_5 p heq => split_ifs <;> simp [heq, pushes]
    case h_6 p heq => split_ifs <;> simp [heq, pushes]
    all_goals
      rename_i heq
      simp [heq, pushes]
  | complete =>
    simp only [step, Dspi.complete]
    split <;> rfl

theorem pushes_run (miso : ℕ → Byte) (s : Dspi) (es : List DspiEvent) :
    (run (step miso) s es).pushed ++ pushes (run (step miso) s es).prog =
      s.pushed ++ pushes s.prog := by
  induction es generalizing s with
  | nil => rfl
  | cons e es ih => rw [run_cons, ih, pushes_step]

theorem pushes_pipeline (keep : Keep) (fs : List Pushr) : pushes (pipeline keep fs) = fs := by
  have hfill : ∀ gs : List Pushr, pushes (gs.map .push) = gs := by
    intro gs
    induction gs with
    | nil => rfl
    | cons g gs ih => rw [List.map_cons, pushes, ih]
  have hloop : ∀ gs : List Pushr,
      pushes (gs.flatMap fun f => [.awaitRx, .push f, .pop keep]) = gs := by
    intro gs
    induction gs with
    | nil => rfl
    | cons g gs ih => rw [List.flatMap_cons, pushes_append, ih]; rfl
  have hdrain : ∀ n, pushes (List.replicate n [.awaitRx, .pop keep]).flatten = [] := by
    intro n
    induction n with
    | zero => rfl
    | succ n ih => rw [List.replicate_succ, List.flatten_cons, pushes_append, ih]; rfl
  obtain ⟨nf, -, -, -, heq⟩ := exists_pipeline_eq keep fs
  rw [heq, pushes_append, pushes_append, hfill, hloop, hdrain, List.append_nil,
    List.take_append_drop]

theorem bytes_word (b c : Byte) :
    (Pushr.word (b.setWidth 16 <<< 8 ||| c.setWidth 16)).bytes = [b, c] := by
  have hhigh : ((b.setWidth 16 <<< 8 ||| c.setWidth 16) >>> 8).setWidth 8 = b := by
    apply BitVec.eq_of_getLsbD_eq
    intro i hi
    simp [hi, show 8 + i < 16 by omega]
  have hlow : (b.setWidth 16 <<< 8 ||| c.setWidth 16).setWidth 8 = c := by
    apply BitVec.eq_of_getLsbD_eq
    intro i hi
    simp [hi]
  simp only [Pushr.bytes, Pushr.word, if_true, wordBytes]
  rw [hhigh, hlow]

theorem bytes_sendWords {bs : List Byte} (h : bs.length % 2 = 0) :
    (sendWords bs).flatMap Pushr.bytes = bs := by
  fun_induction sendWords bs with
  | case1 b c bs ih =>
    rw [List.length_cons, List.length_cons] at h
    rw [List.flatMap_cons, bytes_word, ih (by omega)]
    rfl
  | case2 bs hshort =>
    match bs with
    | [] => rfl
    | [b] => simp at h
    | b :: c :: bs => exact absurd rfl (hshort b c bs)

/-- The frames of `spiSend`, expanded, are its buffer. -/
theorem bytes_spiSend (output : List Byte) :
    (pushes (spiSend output)).flatMap Pushr.bytes = output := by
  simp only [spiSend, pushes]
  by_cases hodd : output.length % 2 = 1
  · cases output with
    | nil => simp at hodd
    | cons b bs =>
      have heven : bs.length % 2 = 0 := by
        rw [List.length_cons] at hodd
        omega
      rw [if_pos hodd, pushes_append, pushes_pipeline, List.flatMap_append, List.tail_cons,
        bytes_sendWords heven]
      simp [spiSendByte, pushes, Pushr.bytes, Pushr.byte]
  · rw [if_neg hodd, pushes_pipeline, bytes_sendWords (by omega)]

theorem bytes_fatWrite (addr : BitVec 16) (buf : List Byte) :
    (pushes (fatWrite addr buf)).flatMap Pushr.bytes = writeMosi addr buf := by
  rw [fatWrite, pushes_append, List.flatMap_append, bytes_spiSend, bytes_spiSend, writeMosi]

/-! ### What comes in -/

section Outcome

variable (miso : ℕ → Byte)

/-- What the accesses store, when `c` bytes have been clocked, `q` is the receive queue, and each
frame is complete at once. -/
def outcome : ℕ → List (BitVec 32) → List Access → List Byte
  | _, _, [] => []
  | c, _, .clearRxf :: p => outcome c [] p
  | c, q, .push f :: p => outcome (c + f.bytes.length) (q ++ [entry miso c f]) p
  | c, q, .pop keep :: p => keep.bytes (q.headD 0) ++ outcome c q.tail p
  | c, q, .clearTcf :: p => outcome c q p
  | c, q, .awaitTcf :: p => outcome c q p
  | c, q, .awaitRx :: p => outcome c q p

/-- The entries of several frames. -/
def entries : ℕ → List Pushr → List (BitVec 32)
  | _, [] => []
  | c, f :: fs => entry miso c f :: entries (c + f.bytes.length) fs

/-- What the driver will have stored in the end, as far as can be seen now. -/
def foreseen (s : Dspi) : List Byte :=
  s.buf ++ outcome miso (s.clocked + (s.inFlight.flatMap Pushr.bytes).length)
    (s.rx ++ entries miso s.clocked s.inFlight) s.prog

theorem entries_append (c : ℕ) (fs gs : List Pushr) :
    entries miso c (fs ++ gs) =
      entries miso c fs ++ entries miso (c + (fs.flatMap Pushr.bytes).length) gs := by
  induction fs generalizing c with
  | nil => rfl
  | cons f fs ih =>
    rw [List.cons_append, entries, ih, entries, List.flatMap_cons, List.length_append,
      Nat.add_assoc, List.cons_append]

variable {miso} {s : Dspi}

theorem foreseen_cpu (h : Exact s) : foreseen miso s.cpu = foreseen miso s := by
  obtain ⟨-, k, hk, hprog⟩ := h
  unfold Dspi.cpu
  split
  case h_1 => rfl
  case h_2 p heq =>
    rw [heq] at hprog
    have hquiet := quiet_of_known hk hprog.1
    simp [foreseen, heq, outcome, hquiet, entries]
  case h_3 p heq => simp [foreseen, heq, outcome]
  case h_4 f p heq =>
    simp [foreseen, heq, outcome, entries_append, entries, Nat.add_assoc]
  case h_5 p heq => split_ifs <;> simp [foreseen, heq, outcome]
  case h_6 p heq => split_ifs <;> simp [foreseen, heq, outcome]
  case h_7 keep p heq =>
    rw [heq] at hprog
    -- the entry that is read has come in
    match hrx : s.rx with
    | [] => exact absurd hrx (rx_ne_nil_of_known hk hprog.1)
    | v :: q => simp [foreseen, heq, outcome, hrx]

theorem foreseen_complete (h : Exact s) : foreseen miso (s.complete miso) = foreseen miso s := by
  have hmax := h.1
  unfold Dspi.complete
  split
  case h_1 => rfl
  case h_2 f fs heq =>
    rw [Dspi.outstanding, heq, List.length_cons] at hmax
    rw [if_pos (by omega)]
    simp [foreseen, heq, entries, Nat.add_assoc]

/-- **Completions do not matter.** -/
theorem foreseen_step (e : DspiEvent) (h : Exact s) :
    foreseen miso (step miso s e) = foreseen miso s := by
  cases e with
  | cpu => exact foreseen_cpu h
  | complete => exact foreseen_complete h

theorem foreseen_run (h : Exact s) (es : List DspiEvent) :
    foreseen miso (run (step miso) s es) = foreseen miso s := by
  induction es generalizing s with
  | nil => rfl
  | cons e es ih => rw [run_cons, ih (exact_step s e h), foreseen_step e h]

end Outcome

/-! ### The bytes that `spiRec` stores -/

section SpiRec

variable (miso : ℕ → Byte)

/-- The frames that `spiRec` writes to receive two bytes each. -/
def dummy : Pushr := .word 0xFFFF

/-- The entries of `n` of them. -/
def dummies (c n : ℕ) : List (BitVec 32) := entries miso c (List.replicate n dummy)

theorem valBytes_entry (c : ℕ) :
    valBytes (entry miso c dummy) = get miso (fun i => c + i) 2 :=
  valBytes_popr (length_get _ _ _)

theorem dummies_succ (c n : ℕ) :
    dummies miso c (n + 1) = entry miso c dummy :: dummies miso (c + 2) n := rfl

theorem dummies_succ' (c n : ℕ) :
    dummies miso c (n + 1) = dummies miso c n ++ [entry miso (c + 2 * n) dummy] := by
  have hlen : ((List.replicate n dummy).flatMap Pushr.bytes).length = 2 * n := by
    simp [List.length_flatMap, dummy, Pushr.bytes, Pushr.word, wordBytes, Nat.mul_comm]
  rw [dummies, List.replicate_succ', entries_append, hlen]
  rfl

theorem outcome_fill (n c : ℕ) (rest : List Access) :
    outcome miso c [] ((List.replicate n dummy).map .push ++ rest) =
      outcome miso (c + 2 * n) (dummies miso c n) rest := by
  have hmore : ∀ k, outcome miso (c + 2 * k) (dummies miso c k)
      ((List.replicate n dummy).map .push ++ rest) =
      outcome miso (c + 2 * (k + n)) (dummies miso c (k + n)) rest := by
    induction n with
    | zero => exact fun k => rfl
    | succ n ih =>
      intro k
      have hstep : outcome miso (c + 2 * k) (dummies miso c k)
          ((List.replicate (n + 1) dummy).map .push ++ rest) =
          outcome miso (c + 2 * (k + 1)) (dummies miso c (k + 1))
            ((List.replicate n dummy).map .push ++ rest) := by
        rw [dummies_succ']
        rfl
      rw [hstep, ih, Nat.add_assoc, Nat.add_comm 1 n]
  simpa [dummies, entries] using hmore 0

theorem outcome_loop (k n b : ℕ) (rest : List Access) :
    outcome miso (b + 2 * n) (dummies miso b n)
        (((List.replicate k dummy).flatMap fun f => [.awaitRx, .push f, .pop .word]) ++ rest) =
      get miso (fun i => b + i) (2 * k) ++
        outcome miso (b + 2 * k + 2 * n) (dummies miso (b + 2 * k) n) rest := by
  induction k generalizing b with
  | zero => rfl
  | succ k ih =>
    have hstep : outcome miso (b + 2 * n) (dummies miso b n)
        (((List.replicate (k + 1) dummy).flatMap fun f => [.awaitRx, .push f, .pop .word]) ++
          rest) =
        get miso (fun i => b + i) 2 ++ outcome miso (b + 2 + 2 * n) (dummies miso (b + 2) n)
          (((List.replicate k dummy).flatMap fun f => [.awaitRx, .push f, .pop .word]) ++ rest) := by
      rw [List.replicate_succ, List.flatMap_cons]
      simp only [List.cons_append, List.nil_append, outcome]
      rw [← dummies_succ', dummies_succ, ← valBytes_entry, Nat.add_right_comm b 2]
      rfl
    have hget : get miso (fun i => b + i) (2 * (k + 1)) =
        get miso (fun i => b + i) 2 ++ get miso (fun i => b + 2 + i) (2 * k) := by
      rw [show 2 * (k + 1) = 2 + 2 * k by omega, get_add]
      simp only [Nat.add_assoc]
    rw [hstep, ih, hget, List.append_assoc, show b + 2 + 2 * k = b + 2 * (k + 1) by omega]

theorem outcome_drain (n b c : ℕ) :
    outcome miso c (dummies miso b n) (List.replicate n [.awaitRx, .pop .word]).flatten =
      get miso (fun i => b + i) (2 * n) := by
  induction n generalizing b with
  | zero => rfl
  | succ n ih =>
    have hget : get miso (fun i => b + i) (2 * (n + 1)) =
        get miso (fun i => b + i) 2 ++ get miso (fun i => b + 2 + i) (2 * n) := by
      rw [show 2 * (n + 1) = 2 + 2 * n by omega, get_add]
      simp only [Nat.add_assoc]
    rw [hget, ← ih, ← valBytes_entry, dummies_succ]
    rfl

theorem outcome_pipeline (n c : ℕ) :
    outcome miso c [] (pipeline .word (List.replicate n dummy)) =
      get miso (fun i => c + i) (2 * n) := by
  obtain ⟨nf, -, hnf, -, heq⟩ := exists_pipeline_eq .word (List.replicate n dummy)
  rw [List.length_replicate] at hnf
  rw [heq, List.take_replicate, Nat.min_eq_left hnf, List.drop_replicate, outcome_fill,
    outcome_loop, outcome_drain, show 2 * n = 2 * (n - nf) + 2 * nf by omega, get_add]
  simp only [Nat.add_assoc]

theorem outcome_spiRec (len c : ℕ) (q : List (BitVec 32)) :
    outcome miso c q (spiRec len) = get miso (fun i => c + i) len := by
  simp only [spiRec, outcome]
  by_cases hodd : len % 2 = 1
  · rw [if_pos hodd]
    have hone : outcome miso c []
        (spiRecByte ++ pipeline .word (List.replicate (len / 2) dummy)) =
        [miso c] ++ outcome miso (c + 1) [] (pipeline .word (List.replicate (len / 2) dummy)) := by
      have hbyte : (entry miso c (.byte 0xFF)).setWidth 8 = miso c := setWidth_popr_one (miso c)
      rw [← hbyte]
      rfl
    have hget : get miso (fun i => c + i) len =
        get miso (fun i => c + i) 1 ++ get miso (fun i => c + 1 + i) (2 * (len / 2)) := by
      have hlen : get miso (fun i => c + i) len =
          get miso (fun i => c + i) (1 + 2 * (len / 2)) := by
        rw [show 1 + 2 * (len / 2) = len by omega]
      rw [hlen, get_add]
      simp only [Nat.add_assoc]
    exact hone.trans (by rw [outcome_pipeline, hget]; rfl)
  · rw [if_neg hodd, List.nil_append]
    have hpipe := outcome_pipeline miso (len / 2) c
    rwa [show 2 * (len / 2) = len by omega] at hpipe

/-- What the driver of `w5100.cpp.fat` stores if frames are complete at once. -/
theorem outcome_fatRead (addr : BitVec 16) (len : ℕ) (q : List (BitVec 32)) :
    outcome miso 0 q (fatRead addr len) = get miso (fun i => 4 + i) len := by
  have hcmd : ∀ a b c d, spiSend [a, b, c, d] =
      [.clearRxf, .push (.word (a.setWidth 16 <<< 8 ||| b.setWidth 16)),
        .push (.word (c.setWidth 16 <<< 8 ||| d.setWidth 16)), .awaitRx, .pop .nothing, .awaitRx,
        .pop .nothing] := by
    simp [spiSend, pipeline, sendWords, List.replicate_succ]
  rw [fatRead, header, hcmd]
  simp only [List.cons_append, List.nil_append, outcome, List.tail_cons, Keep.bytes]
  exact outcome_spiRec miso len 4 []

end SpiRec

/-! ### The two ports -/

/-- What comes in for the bytes that `w5100.cpp` clocks out. -/
def transfer (miso : ℕ → Byte) (mosi : List Byte) : List Byte := get miso id mosi.length

/-- The call returns, if neither the driver nor the module stops, and with the result `P`, whatever
the order of their steps. -/
def Returns (miso : ℕ → Byte) (s : Dspi) (P : Dspi → Prop) : Prop :=
  (∀ inp : ℕ → DspiEvent, (∀ e n, ∃ m, n ≤ m ∧ inp m = e) →
      ∃ n, (trace (step miso) s inp n).prog = []) ∧
    ∀ es, (run (step miso) s es).prog = [] → P (run (step miso) s es)

section Ports

variable (miso : ℕ → Byte) (addr : BitVec 16) {s : Dspi}

theorem fatWrite_returns (buf : List Byte) (h : s.Begins (fatWrite addr buf)) :
    Returns miso s fun s' => s'.pushed.flatMap Pushr.bytes = writeMosi addr buf := by
  refine ⟨fun inp hfair => returns_of_fair (progresses_of_begins h ?_) hfair, ?_⟩
  · refine suffices_spiSend _ 0 fun live => ?_
    rw [← List.append_nil (spiSend buf)]
    exact suffices_spiSend _ 0 fun _ => trivial
  · intro es hreturn
    have hpushes := pushes_run miso s es
    rw [hreturn, h.pushed, h.prog, List.nil_append] at hpushes
    rw [← bytes_fatWrite, ← hpushes, pushes, List.append_nil]

theorem fatRead_returns (len : ℕ) (h : s.Begins (fatRead addr len)) :
    Returns miso s fun s' => s'.buf = (transfer miso (readMosi addr len)).drop 4 := by
  refine ⟨fun inp hfair => returns_of_fair (progresses_of_begins h ?_) hfair, ?_⟩
  · refine suffices_spiSend _ 0 fun live => ?_
    rw [← List.append_nil (spiRec len)]
    exact suffices_spiRec _ 0 fun _ => trivial
  · intro es hreturn
    have hrec : ∀ k, Drains 0 k (spiRec len) := by
      intro k
      have hnil : ∀ k, Drains 0 k [] := fun k => Or.inl rfl
      rw [← List.append_nil (spiRec len)]
      exact drains_spiRec len (.inl rfl) hnil
    have hcmd : (header 0x00 addr (.ofNat 16 len)).length % 2 = 0 := by simp [header]
    have hforeseen : foreseen miso (run (step miso) s es) = foreseen miso s :=
      foreseen_run (exact_of_begins h (drains_spiSend hcmd hrec)) es
    rw [foreseen, hreturn, outcome, List.append_nil] at hforeseen
    rw [hforeseen, foreseen, h.buf, h.prog, h.inFlight, h.clocked, List.flatMap_nil,
      List.length_nil, Nat.add_zero, outcome_fatRead, transfer, List.nil_append, readMosi,
      List.length_append, List.length_replicate]
    show get miso (fun i => 4 + i) len = (get miso id (4 + len)).drop 4
    rw [get_add, List.drop_left' (length_get _ _ _)]
    rfl

/-- **The two ports agree.** For every address, every buffer and every length, and every sequence
of bytes that the chip returns, when no frame is on its way at the call: `write` of `w5100.cpp.fat`
writes frames that are, expanded, the bytes that `write` of `w5100.cpp` clocks out, `read` of both
files store the same bytes, and the same goes for the functions for one byte. -/
theorem ports_agree :
    (∀ buf, ∀ s : Dspi, s.Begins (fatWrite addr buf) →
      Returns miso s fun s' => s'.pushed.flatMap Pushr.bytes = writeMosi addr buf) ∧
    (∀ data, ∀ s : Dspi, s.Begins (fatWrite8 addr data) →
      Returns miso s fun s' => s'.pushed.flatMap Pushr.bytes = write8Mosi addr data) ∧
    (∀ len, ∀ s : Dspi, s.Begins (fatRead addr len) →
      Returns miso s fun s' => s'.buf = (transfer miso (readMosi addr len)).drop 4) ∧
    (∀ s : Dspi, s.Begins (fatRead8 addr) →
      Returns miso s fun s' => s'.buf = [(transfer miso (read8Mosi addr)).getD 4 0]) := by
  refine ⟨fun buf s h => fatWrite_returns miso addr buf h, fun data s h => ?_,
    fun len s h => fatRead_returns miso addr len h, fun s h => ?_⟩
  · rw [write8Mosi_eq]
    exact fatWrite_returns miso addr [data] h
  · exact fatRead_returns miso addr 1 h

end Ports

end W5200
