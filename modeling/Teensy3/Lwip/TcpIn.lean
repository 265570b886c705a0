import Teensy3.Lwip.TcpOut

/-!
# Receiving on a TCP connection (`tcp_in.c`)

A segment acknowledges what this side has sent, and brings data of the other side.  Data that is
not the next in sequence is dropped and acknowledged at once; what is in front of the next byte or
behind the window is cut off.

* `InSeg`: an incoming segment, its data as the payloads of a chain of pbufs;
* `tcpParseopt`: the options of a segment, any of which may set the MSS;
* `receiveAck`, `receiveData`: the two halves of `tcp_receive`;
* `tcpProcess`: the transitions from the state `ESTABLISHED` on;
* `tcpTimewaitInput`, `tcpFasttmr`: acknowledging again, and late;
* `tcpRecved`, `tcpCloseShutdown`, `tcpClose`: the calls of an application besides `tcp_write`.
-/

namespace Lwip
namespace Tcp

open SeqNo

/-- An incoming segment with its TCP header and the options behind it; `p` has the payloads of its
pbufs, behind the header. -/
structure InSeg (σ : Type) where
  seqno : σ
  ackno : σ
  wnd : BitVec 16
  ack : Bool
  syn : Bool
  rst : Bool
  fin : Bool
  opts : List Byte
  p : List (List Byte)
  deriving DecidableEq

/-! ### Chains of pbufs -/

/-- Move the payload pointers of a chain past `off` bytes. -/
def trimFront : ℕ → List (List Byte) → List (List Byte)
  | _, [] => []
  | off, b :: q => if b.length < off then [] :: trimFront (off - b.length) q else b.drop off :: q

/-- The loop of `pbuf_realloc`, for a length below that of the chain. -/
def cutChain : ℕ → List (List Byte) → List (List Byte)
  | _, [] => []
  | remLen, b :: q => if b.length < remLen then b :: cutChain (remLen - b.length) q else [b.take remLen]

def pbufRealloc (p : List (List Byte)) (newLen : ℕ) : List (List Byte) :=
  if p.flatten.length ≤ newLen then p else cutChain newLen p

theorem flatten_trimFront (off : ℕ) (p : List (List Byte)) :
    (trimFront off p).flatten = p.flatten.drop off := by
  induction p generalizing off with
  | nil => simp [trimFront]
  | cons b q ih =>
    rw [trimFront, List.flatten_cons, List.drop_append]
    split
    · rename_i hlt
      rw [List.flatten_cons, ih, List.nil_append, List.drop_eq_nil_of_le hlt.le, List.nil_append]
    · rename_i hle
      rw [List.flatten_cons, Nat.sub_eq_zero_of_le (not_lt.1 hle), List.drop_zero]

theorem flatten_cutChain (n : ℕ) (p : List (List Byte)) :
    (cutChain n p).flatten = p.flatten.take n := by
  induction p generalizing n with
  | nil => simp [cutChain]
  | cons b q ih =>
    rw [cutChain, List.flatten_cons, List.take_append]
    split
    · rename_i hlt
      rw [List.flatten_cons, ih, List.take_of_length_le hlt.le]
    · rename_i hle
      rw [Nat.sub_eq_zero_of_le (not_lt.1 hle), List.take_zero, List.append_nil]
      simp

theorem flatten_pbufRealloc (p : List (List Byte)) (n : ℕ) :
    (pbufRealloc p n).flatten = p.flatten.take n := by
  rw [pbufRealloc]
  split
  · rename_i hle
    rw [List.take_of_length_le hle]
  · exact flatten_cutChain n p

/-! ### Options -/

/-- The value of an MSS option: not above `TCP_MSS`, and not zero. -/
def clampMss (mss : ℕ) : ℕ := if maxMss < mss ∨ mss = 0 then maxMss else mss

/-- The loop of `tcp_parseopt`, over the options that are left, for a connection with the MSS `mss`.
The first argument counts the bytes to skip of an option that is not known. -/
def parseMss : ℕ → List Byte → ℕ → ℕ
  | _, [], mss => mss
  | skip + 1, _ :: opts, mss => parseMss skip opts mss
  | 0, kind :: opts, mss =>
    if kind = 0 then mss
    else if kind = 1 then parseMss 0 opts mss
    else if kind = 2 then
      match opts with
      | len :: hi :: lo :: rest =>
        if len = 4 then parseMss 0 rest (clampMss (hi.toNat * 2 ^ 8 + lo.toNat)) else mss
      | _ => mss
    else
      match opts with
      | [] => mss
      | len :: rest => if len = 0 then mss else parseMss (len.toNat - 1) (len :: rest) mss

/-- An MSS of 536 behind a `NOP` and an option of three bytes; then the end of the options. -/
example : parseMss 0 [1, 3, 3, 7, 2, 4, 2, 24, 0, 2, 4, 0, 1] 1460 = 536 := by decide

theorem clampMss_range (mss : ℕ) : 0 < clampMss mss ∧ clampMss mss ≤ maxMss := by
  have hmax : maxMss = 1460 := rfl
  rw [clampMss]
  split <;> omega

/-- Whatever the options are, the MSS stays in its range. -/
theorem parseMss_range (skip : ℕ) (opts : List Byte) {mss : ℕ} (h : 0 < mss ∧ mss ≤ maxMss) :
    0 < parseMss skip opts mss ∧ parseMss skip opts mss ≤ maxMss := by
  fun_induction parseMss skip opts mss <;> simp_all [clampMss_range]

section

variable {σ : Type} [SeqNo σ] [DecidableEq σ]

namespace Pcb

/-- `tcp_parseopt`. -/
def tcpParseopt (pcb : Pcb σ) (opts : List Byte) : Pcb σ :=
  { pcb with mss := parseMss 0 opts pcb.mss }

/-! ### Acknowledgements -/

/-- Whether the segment changes the send window. -/
def updatesWindow (pcb : Pcb σ) (seg : InSeg σ) : Bool :=
  lt pcb.sndWl1 seg.seqno ||
    (decide (pcb.sndWl1 = seg.seqno) && lt pcb.sndWl2 seg.ackno) ||
    (decide (pcb.sndWl2 = seg.ackno) && decide (pcb.sndWnd < seg.wnd.toNat))

def updateWindow (pcb : Pcb σ) (seg : InSeg σ) : Pcb σ :=
  if pcb.updatesWindow seg then
    { pcb with
      sndWnd := seg.wnd.toNat
      sndWl1 := seg.seqno
      sndWl2 := seg.ackno
      persistBackoff := if 0 < seg.wnd.toNat then 0 else pcb.persistBackoff }
  else pcb

/-- A larger congestion window, unless the addition overflows. -/
def growCwnd (pcb : Pcb σ) : Pcb σ :=
  let cwnd := (pcb.cwnd + pcb.mss) % 2 ^ 16
  { pcb with cwnd := if pcb.cwnd < cwnd then cwnd else pcb.cwnd }

/-- Nothing is acknowledged. -/
def noAck (pcb : Pcb σ) : Pcb σ := { pcb with acked := 0 }

/-- One more duplicate acknowledgement. -/
def countDupAck (pcb : Pcb σ) : Pcb σ := { pcb with dupacks := (pcb.dupacks + 1) % 2 ^ 8 }

/-- The third duplicate acknowledgement starts a fast retransmission. -/
def onDupAck (pcb : Pcb σ) : Pcb σ :=
  if 3 < pcb.dupacks then pcb.growCwnd
  else if pcb.dupacks = 3 then pcb.tcpRexmitFast
  else pcb

/-- An acknowledgement of nothing new; `edge` is the window's edge before it was updated. -/
def dupAck (pcb : Pcb σ) (edge : σ) (ackno : σ) (tcplen : ℕ) : Pcb σ :=
  if tcplen = 0 ∧ add pcb.sndWl2 pcb.sndWnd = edge ∧ 0 ≤ pcb.rtime ∧ pcb.lastack = ackno then
    pcb.noAck.countDupAck.onDupAck
  else { pcb.noAck with dupacks := 0 }

/-- Subtraction of `u16_t`. -/
def sub16 (a b : ℕ) : ℕ := (a + 2 ^ 16 - b) % 2 ^ 16

/-- Drop the acknowledged segments at the head of a queue.  A `FIN` among them does not count as
acknowledged data, and the second result is the number of pbufs freed. -/
def dropAcked (done : Seg σ → Bool) : List (Seg σ) → ℕ → List (Seg σ) × ℕ × ℕ
  | [], acked => ([], acked, 0)
  | seg :: queue, acked =>
    if done seg then
      let out := dropAcked done queue (if acked ≠ 0 ∧ seg.fin = true then acked - 1 else acked)
      (out.1, out.2.1, seg.clen + out.2.2)
    else (seg :: queue, acked, 0)

def dropUnacked (pcb : Pcb σ) (ackno : σ) : Pcb σ :=
  let out := dropAcked (fun seg => leq seg.seqEnd ackno) pcb.unacked pcb.acked
  { pcb with unacked := out.1, acked := out.2.1, sndQueuelen := sub16 pcb.sndQueuelen out.2.2 }

def dropUnsent (pcb : Pcb σ) (ackno : σ) : Pcb σ :=
  let out := dropAcked (fun seg => between ackno seg.seqEnd pcb.sndNxt) pcb.unsent pcb.acked
  { pcb with unsent := out.1, acked := out.2.1, sndQueuelen := sub16 pcb.sndQueuelen out.2.2 }

/-- The congestion window after new data has been acknowledged. -/
def openCwnd (pcb : Pcb σ) : Pcb σ :=
  { pcb with
    cwnd :=
      if pcb.cwnd < pcb.ssthresh then pcb.growCwnd.cwnd
      else
        let cwnd := (pcb.cwnd + pcb.mss * pcb.mss / pcb.cwnd) % 2 ^ 16
        if pcb.cwnd < cwnd then cwnd else pcb.cwnd }

/-- The end of fast recovery, and what is acknowledged. -/
def countAck (pcb : Pcb σ) (ackno : σ) : Pcb σ :=
  let acked := diff ackno pcb.lastack % 2 ^ 16
  { pcb with
    cwnd := if pcb.inFr then pcb.ssthresh else pcb.cwnd
    inFr := false
    nrtx := 0
    acked := acked
    sndBuf := (pcb.sndBuf + acked) % 2 ^ 16
    dupacks := 0
    lastack := ackno }

/-- The retransmission timer starts again, or stops. -/
def restartRtime (pcb : Pcb σ) : Pcb σ := { pcb with rtime := if pcb.unacked = [] then -1 else 0 }

/-- An acknowledgement of new data. -/
def newAck (pcb : Pcb σ) (ackno : σ) : Pcb σ :=
  ((pcb.countAck ackno).openCwnd.dropUnacked ackno).restartRtime

/-- Whether anything new is acknowledged. -/
def takeAck (pcb : Pcb σ) (edge : σ) (ackno : σ) (tcplen : ℕ) : Pcb σ :=
  if leq ackno pcb.lastack then pcb.dupAck edge ackno tcplen
  else if between ackno (add pcb.lastack 1) pcb.sndNxt then pcb.newAck ackno
  else pcb.noAck

/-- The first half of `tcp_receive`, for a segment of length `tcplen` with `TCP_ACK`.  The estimate
of the round-trip time is left out. -/
def receiveAck (pcb : Pcb σ) (seg : InSeg σ) (tcplen : ℕ) : Pcb σ :=
  ((pcb.updateWindow seg).takeAck (add pcb.sndWl2 pcb.sndWnd) seg.ackno tcplen).dropUnsent seg.ackno

/-! ### Data -/

/-- `tcp_update_rcv_ann_wnd`, with the extra window that could be announced. -/
def tcpUpdateRcvAnnWnd (pcb : Pcb σ) : Pcb σ × ℕ :=
  let edge := add pcb.rcvNxt pcb.rcvWnd
  if geq edge (add pcb.rcvAnnRightEdge (min (wndSize / 2) pcb.mss : ℕ)) then
    ({ pcb with rcvAnnWnd := pcb.rcvWnd }, diff edge pcb.rcvAnnRightEdge)
  else if gt pcb.rcvNxt pcb.rcvAnnRightEdge then ({ pcb with rcvAnnWnd := 0 }, 0)
  else ({ pcb with rcvAnnWnd := diff pcb.rcvAnnRightEdge pcb.rcvNxt % 2 ^ 16 }, 0)

/-- The macro `tcp_ack`. -/
def tcpAck (pcb : Pcb σ) : Pcb σ :=
  if pcb.ackDelay then { pcb with ackDelay := false, ackNow := true } else { pcb with ackDelay := true }

/-- What `tcp_receive` leaves in `recv_data` and `recv_flags`, and what it sends. -/
structure Received (σ : Type) where
  pcb : Pcb σ
  data : List Byte
  gotFin : Bool
  out : List (Packet σ)

/-- What of the data and of a `FIN` behind it fits into the window. -/
def fitting (pcb : Pcb σ) (p : List (List Byte)) (fin : Bool) : List (List Byte) × Bool :=
  if pcb.rcvWnd < p.flatten.length + (if fin then 1 else 0) then (pbufRealloc p pcb.rcvWnd, false)
  else (p, fin)

/-- `tcplen` more numbers are received. -/
def advance (pcb : Pcb σ) (tcplen : ℕ) : Pcb σ :=
  { pcb with rcvNxt := add pcb.rcvNxt tcplen, rcvWnd := pcb.rcvWnd - tcplen }

/-- The next segment in sequence, with its first edge trimmed. -/
def accept (pcb : Pcb σ) (p : List (List Byte)) (fin : Bool) : Received σ :=
  let q := pcb.fitting p fin
  let tcplen := q.1.flatten.length + if q.2 then 1 else 0
  ⟨(pcb.advance tcplen).tcpUpdateRcvAnnWnd.1.tcpAck, q.1.flatten, q.2, []⟩

/-- What has been received before is acknowledged at once. -/
def ackOld (pcb : Pcb σ) (seqno : σ) : Pcb σ :=
  { pcb with ackNow := if lt seqno pcb.rcvNxt then true else pcb.ackNow }

/-- The second half of `tcp_receive`.  `alloc` is whether a pbuf for an empty acknowledgement can be
had. -/
def receiveData (pcb : Pcb σ) (seg : InSeg σ) (tcplen : ℕ) (alloc : Bool) : Received σ :=
  if 0 < tcplen then
    if between pcb.rcvNxt (add seg.seqno 1) (add seg.seqno (tcplen - 1)) then
      let p := trimFront (diff pcb.rcvNxt seg.seqno) seg.p
      if between pcb.rcvNxt pcb.rcvNxt (add pcb.rcvNxt (pcb.rcvWnd - 1)) then pcb.accept p seg.fin
      else
        let out := pcb.tcpSendEmptyAck alloc
        ⟨out.1, [], false, out.2⟩
    else
      let pcb := pcb.ackOld seg.seqno
      if between seg.seqno pcb.rcvNxt (add pcb.rcvNxt (pcb.rcvWnd - 1)) ∧ pcb.rcvNxt = seg.seqno then
        pcb.accept seg.p seg.fin
      else
        let out := pcb.tcpSendEmptyAck alloc
        ⟨out.1, [], false, out.2⟩
  else if between seg.seqno pcb.rcvNxt (add pcb.rcvNxt (pcb.rcvWnd - 1)) then ⟨pcb, [], false, []⟩
  else ⟨{ pcb with ackNow := true }, [], false, []⟩

end Pcb

/-- The length of an incoming segment, `tcplen`. -/
def InSeg.tcplen (seg : InSeg σ) : ℕ :=
  seg.p.flatten.length + if seg.fin || seg.syn then 1 else 0

namespace Pcb

def tcpReceive (pcb : Pcb σ) (seg : InSeg σ) (alloc : Bool) : Received σ :=
  (if seg.ack then pcb.receiveAck seg seg.tcplen else pcb).receiveData seg seg.tcplen alloc

/-! ### The states -/

def tcpPcbPurge (pcb : Pcb σ) : Pcb σ :=
  if pcb.state = .timeWait then pcb
  else { pcb with rtime := -1, unsent := [], unacked := [], refusedData := [] }

/-- `TIME_WAIT` is entered with empty queues. -/
def timeWait (pcb : Pcb σ) : Pcb σ := { pcb.tcpPcbPurge with state := .timeWait }

/-- What becomes of the connection: it goes on, was reset by the other side, is closed, or was
aborted by this side. -/
inductive Fate
  | alive
  | reset
  | closed
  | aborted
  deriving DecidableEq

/-- The transition after `tcp_receive`. -/
def transition (r : Received σ) (seg : InSeg σ) : Received σ × Fate :=
  let pcb := r.pcb
  let allAcked := seg.ack && decide (seg.ackno = pcb.sndNxt)
  match pcb.state with
  | .established | .closeWait =>
    if r.gotFin then ({ r with pcb := { pcb with ackNow := true, state := .closeWait } }, .alive)
    else (r, .alive)
  | .finWait1 =>
    if r.gotFin then
      if allAcked then ({ r with pcb := { pcb with ackNow := true }.timeWait }, .alive)
      else ({ r with pcb := { pcb with ackNow := true, state := .closing } }, .alive)
    else if allAcked then ({ r with pcb := { pcb with state := .finWait2 } }, .alive)
    else (r, .alive)
  | .finWait2 =>
    if r.gotFin then ({ r with pcb := { pcb with ackNow := true }.timeWait }, .alive)
    else (r, .alive)
  | .closing => if allAcked then ({ r with pcb := pcb.timeWait }, .alive) else (r, .alive)
  | .lastAck => if allAcked then (r, .closed) else (r, .alive)
  | .timeWait => (r, .alive)

/-- `tcp_process`.  A connection is in `TIME_WAIT` here if a callback has just closed it, and then
nothing is received. -/
def tcpProcess (pcb : Pcb σ) (seg : InSeg σ) (alloc : Bool) : Received σ × Fate :=
  if seg.rst then
    if between seg.seqno pcb.rcvNxt (add pcb.rcvNxt pcb.rcvWnd) then
      (⟨{ pcb with ackDelay := false }, [], false, []⟩, .reset)
    else (⟨pcb, [], false, []⟩, .alive)
  else if seg.syn then (⟨{ pcb with ackNow := true }, [], false, []⟩, .alive)
  else if pcb.state = .timeWait then (⟨pcb.tcpParseopt seg.opts, [], false, []⟩, .alive)
  else transition ((pcb.tcpParseopt seg.opts).tcpReceive seg alloc) seg

end Pcb

namespace Pcb

/-- `tcp_timewait_input`: data, a `FIN` or a late `SYN` is acknowledged again. -/
def tcpTimewaitInput (pcb : Pcb σ) (seg : InSeg σ) (alloc : Bool) : Pcb σ × List (Packet σ) :=
  if seg.rst then (pcb, [])
  else if seg.syn && between seg.seqno pcb.rcvNxt (add pcb.rcvNxt pcb.rcvWnd) then
    (pcb, tcpRst seg.ackno (add seg.seqno seg.tcplen) alloc)
  else if 0 < seg.tcplen then { pcb with ackNow := true }.tcpOutput alloc
  else (pcb, [])

/-- `tcp_recved`, up to the output that its second result asks for.  The window is a `u16_t`, and is
limited after the addition. -/
def tcpRecved (pcb : Pcb σ) (len : ℕ) : Pcb σ × Bool :=
  let out := { pcb with
    rcvWnd := min ((pcb.rcvWnd + len) % 2 ^ 16) wndSize }.tcpUpdateRcvAnnWnd
  if wndSize / 4 ≤ out.2 then ({ out.1 with ackNow := true }, true) else (out.1, false)

/-- A `FIN` is queued and, if this succeeds, the state entered that comes after it. -/
def sendFinAndEnter (pcb : Pcb σ) (next : TcpState) (alloc : Bool) : Pcb σ × Bool :=
  match pcb.tcpSendFin alloc with
  | (.ok, pcb) => ({ pcb with state := next }, true)
  | (_, pcb) => (pcb, false)

/-- `tcp_close_shutdown`, up to the output that its last result asks for.  With
`rstOnUnackedData`, data that was not taken resets the connection. -/
def tcpCloseShutdown (pcb : Pcb σ) (rstOnUnackedData : Bool) (alloc : Bool) :
    (Pcb σ × List (Packet σ)) × Bool :=
  if rstOnUnackedData = true ∧ (pcb.refusedData ≠ [] ∨ pcb.rcvWnd ≠ wndSize) then
    ((pcb.timeWait, tcpRst pcb.sndNxt pcb.rcvNxt alloc), false)
  else
    match pcb.state with
    | .established =>
      let out := pcb.sendFinAndEnter .finWait1 alloc
      ((out.1, []), out.2)
    | .closeWait =>
      let out := pcb.sendFinAndEnter .lastAck alloc
      ((out.1, []), out.2)
    | _ => ((pcb, []), false)

def tcpClose (pcb : Pcb σ) (alloc : Bool) : (Pcb σ × List (Packet σ)) × Bool :=
  { pcb with rxClosed := true }.tcpCloseShutdown true alloc

/-- The receive side is shut down, and what was refused is freed. -/
def shutRxSide (pcb : Pcb σ) (shutRx : Bool) : Pcb σ :=
  if shutRx then { pcb with refusedData := [], rxClosed := true } else pcb

/-- `tcp_shutdown`, of the receive side or of the send side. -/
def tcpShutdown (pcb : Pcb σ) (shutRx shutTx : Bool) (alloc : Bool) :
    (Pcb σ × List (Packet σ)) × Bool :=
  let pcb := pcb.shutRxSide shutRx
  if shutTx = true ∧ (pcb.state = .established ∨ pcb.state = .closeWait) then
    pcb.tcpCloseShutdown false alloc
  else ((pcb, []), false)

/-- `tcp_pcb_remove`: what is queued is given up, and an outstanding acknowledgement sent. -/
def tcpPcbRemove (pcb : Pcb σ) (alloc : Bool) : Pcb σ × List (Packet σ) :=
  if pcb.state ≠ .timeWait ∧ pcb.ackDelay = true then
    { pcb.tcpPcbPurge with ackNow := true }.tcpOutput alloc
  else (pcb.tcpPcbPurge, [])

/-- The second half of `tcp_fasttmr`, for one connection: a delayed acknowledgement is sent now. -/
def tcpFasttmr (pcb : Pcb σ) (alloc : Bool) : Pcb σ × List (Packet σ) :=
  if pcb.ackDelay then
    let out := { pcb with ackNow := true }.tcpOutput alloc
    ({ out.1 with ackDelay := false, ackNow := false }, out.2)
  else (pcb, [])

end Pcb

end

end Tcp
end Lwip
