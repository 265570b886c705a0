import Teensy3.Lib.ByteMem
import Teensy3.Lib.SeqNum

/-!
# Sending on a TCP connection (`tcp_out.c`)

A connection keeps what was written and not yet acknowledged in two queues of segments: `unacked`
has been transmitted, `unsent` is still to be, for the first time or again.  The model has the
states from `ESTABLISHED` on, as `lwipopts.h` configures the stack: no timestamps, no oversized
buffers, no queue of segments that came out of order.  Sequence numbers have any type with the
operations of `SeqNo`; the code has `BitVec 32`.

* `Seg`, `Pcb`, `Packet`: `struct tcp_seg`, `struct tcp_pcb`, and what goes to `ip_output`;
* `tcpWrite`, `tcpEnqueueFin`, `tcpSendFin`: filling `unsent`;
* `tcpOutput`, `tcpSendEmptyAck`, `tcpZeroWindowProbe`, `tcpKeepalive`, `tcpRst`: transmitting;
* `tcpRexmitRto`, `tcpRexmit`, `tcpRexmitFast`: moving segments back to `unsent`;
* `tcpSlowtmr`: the timers for retransmissions and for probing a closed window.
-/

namespace Lwip
namespace Tcp

/-- `TCP_MSS`, `TCP_SND_BUF`, `TCP_WND` and `TCP_SND_QUEUELEN` of `lwipopts.h`. -/
def maxMss : ℕ := 1460
def sndBufSize : ℕ := 4 * maxMss
def wndSize : ℕ := 4 * maxMss
def sndQueuelenMax : ℕ := 4 * sndBufSize / maxMss

/-- The states of `enum tcp_state` in which data can be exchanged, and those after them. -/
inductive TcpState
  | established
  | finWait1
  | finWait2
  | closeWait
  | closing
  | lastAck
  | timeWait
  deriving DecidableEq

/-- The values of `err_t` that occur. -/
inductive Err
  | ok
  | mem
  | buf
  | conn
  deriving DecidableEq

/-- `struct tcp_seg`, with the data of its pbufs and their number.  Once a segment was transmitted,
the headers of the lower layers are in front of it, and the payload of its first pbuf has `moved` to
them. -/
structure Seg (σ : Type) where
  seqno : σ
  data : List Byte
  clen : ℕ
  fin : Bool
  psh : Bool
  moved : Bool
  deriving DecidableEq

/-- What `tcp_output_segment` and the other senders pass to `ip_output`. -/
structure Packet (σ : Type) where
  seqno : σ
  ackno : σ
  wnd : ℕ
  data : List Byte
  fin : Bool
  psh : Bool
  rst : Bool
  deriving DecidableEq

/-- `struct tcp_pcb`; the flags `TF_…` are fields. -/
structure Pcb (σ : Type) where
  state : TcpState
  ackDelay : Bool
  ackNow : Bool
  inFr : Bool
  rxClosed : Bool
  finFlag : Bool
  nodelay : Bool
  nagleMemErr : Bool
  rcvNxt : σ
  rcvWnd : ℕ
  rcvAnnWnd : ℕ
  rcvAnnRightEdge : σ
  rtime : ℤ
  mss : ℕ
  nrtx : ℕ
  lastack : σ
  dupacks : ℕ
  cwnd : ℕ
  ssthresh : ℕ
  sndNxt : σ
  sndWnd : ℕ
  sndWl1 : σ
  sndWl2 : σ
  sndLbb : σ
  acked : ℕ
  sndBuf : ℕ
  sndQueuelen : ℕ
  unsent : List (Seg σ)
  unacked : List (Seg σ)
  persistCnt : ℕ
  persistBackoff : ℕ
  refusedData : List Byte
  deriving DecidableEq

section

variable {σ : Type} [SeqNo σ]

open SeqNo

namespace Seg

/-- The field `len`. -/
def len (seg : Seg σ) : ℕ := seg.data.length

/-- `TCP_TCPLEN`. -/
def tcplen (seg : Seg σ) : ℕ := seg.len + if seg.fin then 1 else 0

/-- The sequence number behind the data, without a `FIN`. -/
def dataEnd (seg : Seg σ) : σ := add seg.seqno seg.len

/-- The sequence number behind the segment. -/
def seqEnd (seg : Seg σ) : σ := add seg.seqno seg.tcplen

end Seg

/-! ### Writing -/

/-- Change the last element of a list. -/
def mapLast {α : Type} (f : α → α) : List α → List α
  | [] => []
  | [x] => [f x]
  | x :: y :: l => x :: mapLast f (y :: l)

namespace Pcb

def tcpWriteChecks (pcb : Pcb σ) (len : ℕ) : Err × Pcb σ :=
  if pcb.state ≠ .established ∧ pcb.state ≠ .closeWait then (.conn, pcb)
  else if len = 0 then (.ok, pcb)
  else if pcb.sndBuf < len then (.mem, { pcb with nagleMemErr := true })
  else if sndQueuelenMax ≤ pcb.sndQueuelen then (.mem, { pcb with nagleMemErr := true })
  else (.ok, pcb)

/-- Phase 2 of `tcp_write`: how many bytes go to the last segment of `unsent`.  `space` is a
`u16_t`. -/
def concatLen (pcb : Pcb σ) (len : ℕ) : ℕ :=
  match pcb.unsent.getLast? with
  | none => 0
  | some lastUnsent =>
    let space := (pcb.mss + 2 ^ 16 - lastUnsent.len) % 2 ^ 16
    if 0 < len ∧ 0 < space ∧ 0 < lastUnsent.len then min space len else 0

end Pcb

/-- The pbufs of a new segment: one for header and copied data, or one for each. -/
def newClen (copy : Bool) : ℕ := if copy then 1 else 2

/-- Phase 3 of `tcp_write`: the data that is left goes to new segments.  `alloc` says which
allocations succeed, and the result is `none` for `goto memerr`.  Each turn makes the queue longer,
so that the turns allowed for are never too few. -/
def newSegs (mss : ℕ) (copy : Bool) (alloc : ℕ → Bool) :
    ℕ → σ → List Byte → ℕ → Option (List (Seg σ) × ℕ)
  | _, _, [], queuelen => some ([], queuelen)
  | 0, _, _ :: _, _ => none
  | turns + 1, seqno, b :: data, queuelen =>
    if alloc turns = true ∧ queuelen + newClen copy ≤ sndQueuelenMax then
      let seglen := min mss (b :: data).length
      let seg := ⟨seqno, (b :: data).take seglen, newClen copy, false, false, false⟩
      match newSegs mss copy alloc turns (add seqno seglen) ((b :: data).drop seglen)
        (queuelen + newClen copy) with
      | none => none
      | some (segs, queuelen) => some (seg :: segs, queuelen)
    else none

namespace Pcb

/-- `tcp_write`.  The flags are `TCP_WRITE_FLAG_COPY` and `TCP_WRITE_FLAG_MORE`; `alloc` says which
allocations succeed. -/
def tcpWrite (pcb : Pcb σ) (data : List Byte) (copy more : Bool) (alloc : ℕ → Bool) :
    Err × Pcb σ :=
  match pcb.tcpWriteChecks data.length with
  | (.ok, pcb) =>
    let k := pcb.concatLen data.length
    let concatClen := if k = 0 then 0 else 1
    if k ≠ 0 ∧ alloc (sndQueuelenMax + 1) = false then (.mem, { pcb with nagleMemErr := true })
    else
      match newSegs pcb.mss copy alloc (sndQueuelenMax + 1) (add pcb.sndLbb k) (data.drop k)
        (pcb.sndQueuelen + concatClen) with
      | none => (.mem, { pcb with nagleMemErr := true })
      | some (queue, queuelen) =>
        let unsent :=
          if k = 0 then pcb.unsent
          else mapLast (fun s => { s with data := s.data ++ data.take k, clen := s.clen + 1 }) pcb.unsent
        let unsent := unsent ++ queue
        (.ok, { pcb with
          unsent :=
            if data = [] ∨ more = true then unsent
            else mapLast (fun s => { s with psh := true }) unsent
          sndLbb := add pcb.sndLbb data.length
          sndBuf := pcb.sndBuf - data.length
          sndQueuelen := queuelen })
  | (err, pcb) => (err, pcb)

/-- `tcp_enqueue_flags(pcb, TCP_FIN)`. -/
def tcpEnqueueFin (pcb : Pcb σ) (alloc : Bool) : Err × Pcb σ :=
  if sndQueuelenMax ≤ pcb.sndQueuelen then (.mem, { pcb with nagleMemErr := true })
  else if pcb.sndBuf = 0 then (.mem, pcb)
  else if alloc = false then (.mem, { pcb with nagleMemErr := true })
  else
    (.ok, { pcb with
      unsent := pcb.unsent ++ [⟨pcb.sndLbb, [], 1, true, false, false⟩]
      sndLbb := add pcb.sndLbb 1
      sndBuf := pcb.sndBuf - 1
      finFlag := true
      sndQueuelen := pcb.sndQueuelen + 1 })

/-- `tcp_send_fin`: the last unsent segment gets the flag, if it has none yet. -/
def tcpSendFin (pcb : Pcb σ) (alloc : Bool) : Err × Pcb σ :=
  match pcb.unsent.getLast? with
  | some lastUnsent =>
    if lastUnsent.fin then pcb.tcpEnqueueFin alloc
    else (.ok, { pcb with unsent := mapLast (fun s => { s with fin := true }) pcb.unsent })
  | none => pcb.tcpEnqueueFin alloc

/-! ### Transmitting -/

/-- `tcp_do_output_nagle`, for the queue `unsent`. -/
def tcpDoOutputNagle (pcb : Pcb σ) (unsent : List (Seg σ)) : Bool :=
  pcb.unacked.isEmpty || pcb.nodelay || pcb.inFr ||
    match unsent with
    | [] => false
    | [seg] => decide (pcb.mss ≤ seg.len)
    | _ :: _ :: _ => true

/-- A header as `tcp_output_alloc_header` and `tcp_output_segment` fill it in. -/
def packet (pcb : Pcb σ) (seqno : σ) (data : List Byte) (fin psh : Bool) : Packet σ :=
  ⟨seqno, pcb.rcvNxt, pcb.rcvAnnWnd, data, fin, psh, false⟩

/-- The announced edge of the window moves with every header. -/
def announced (pcb : Pcb σ) : Pcb σ :=
  { pcb with rcvAnnRightEdge := add pcb.rcvNxt pcb.rcvAnnWnd }

def tcpSendEmptyAck (pcb : Pcb σ) (alloc : Bool) : Pcb σ × List (Packet σ) :=
  if alloc then
    ({ pcb.announced with ackDelay := false, ackNow := false },
      [pcb.packet pcb.sndNxt [] false false])
  else (pcb, [])

end Pcb

/-- Before the first segment that does not come before `seg`. -/
def insertSeg (seg : Seg σ) : List (Seg σ) → List (Seg σ)
  | [] => [seg]
  | cur :: queue => if lt cur.seqno seg.seqno then cur :: insertSeg seg queue else seg :: cur :: queue

/-- Where `tcp_output` puts a transmitted segment: at the end, but before the end if it has a lower
sequence number than the last one there. -/
def queueUnacked (seg : Seg σ) (unacked : List (Seg σ)) : List (Seg σ) :=
  match unacked.getLast? with
  | none => [seg]
  | some useg => if lt seg.seqno useg.seqno then insertSeg seg unacked else unacked ++ [seg]

namespace Pcb

/-- `tcp_output_segment`, and what `tcp_output` does with the segment afterwards. -/
def sendSeg (pcb : Pcb σ) (seg : Seg σ) : Pcb σ :=
  { pcb.announced with
    ackDelay := false
    ackNow := false
    rtime := if pcb.rtime = -1 then 0 else pcb.rtime
    sndNxt := if lt pcb.sndNxt seg.seqEnd then seg.seqEnd else pcb.sndNxt
    unacked :=
      if 0 < seg.tcplen then queueUnacked { seg with moved := true } pcb.unacked else pcb.unacked }

/-- The loop of `tcp_output`, over the queue `unsent`. -/
def outputLoop (wnd : ℕ) : List (Seg σ) → Pcb σ → Pcb σ × List (Packet σ)
  | [], pcb => ({ pcb with unsent := [] }, [])
  | seg :: unsent, pcb =>
    if within seg.dataEnd pcb.lastack wnd then
      if pcb.tcpDoOutputNagle (seg :: unsent) || pcb.nagleMemErr || pcb.finFlag then
        let out := outputLoop wnd unsent (pcb.sendSeg seg)
        (out.1, pcb.packet seg.seqno seg.data seg.fin seg.psh :: out.2)
      else ({ pcb with unsent := seg :: unsent }, [])
    else ({ pcb with unsent := seg :: unsent }, [])

/-- The end of `tcp_output`: the persist timer is prepared if the window is too small. -/
def outputDone (pcb : Pcb σ) : Pcb σ :=
  match pcb.unsent with
  | [] => { pcb with nagleMemErr := false }
  | seg :: _ =>
    if pcb.persistBackoff = 0 ∧ within seg.dataEnd pcb.lastack pcb.sndWnd = false then
      { pcb with persistCnt := 0, persistBackoff := 1, nagleMemErr := false }
    else { pcb with nagleMemErr := false }

/-- Whether the first unsent segment does not fit into the window, or there is none. -/
def nothingFits (pcb : Pcb σ) (wnd : ℕ) : Bool :=
  match pcb.unsent with
  | [] => true
  | seg :: _ => !within seg.dataEnd pcb.lastack wnd

/-- `tcp_output`, outside of input processing for the same connection. -/
def tcpOutput (pcb : Pcb σ) (alloc : Bool) : Pcb σ × List (Packet σ) :=
  let wnd := min pcb.sndWnd pcb.cwnd
  if pcb.ackNow && pcb.nothingFits wnd then pcb.tcpSendEmptyAck alloc
  else
    let out := outputLoop wnd pcb.unsent pcb
    (out.1.outputDone, out.2)

/-- What `tcp_zero_window_probe` copies out of a segment.  The place is counted from the payload of
the first pbuf as if it were the TCP header.  In a segment that was transmitted it is the Ethernet
header, and the byte found, `stray`, depends on the address in it: as a rule it is in one of the
headers. -/
def probeByte (seg : Seg σ) (stray : Byte) : List Byte :=
  if seg.moved then [stray] else seg.data.take 1

/-- `tcp_zero_window_probe`: one byte for the first segment, or its `FIN`. -/
def tcpZeroWindowProbe (pcb : Pcb σ) (stray : Byte) (alloc : Bool) : Pcb σ × List (Packet σ) :=
  match pcb.unacked ++ pcb.unsent with
  | [] => (pcb, [])
  | seg :: _ =>
    if alloc then
      let isFin := seg.fin && decide (seg.len = 0)
      (pcb.announced,
        [pcb.packet seg.seqno (if isFin then [] else probeByte seg stray) isFin false])
    else (pcb, [])

def tcpKeepalive (pcb : Pcb σ) (alloc : Bool) : Pcb σ × List (Packet σ) :=
  if alloc then (pcb.announced, [pcb.packet (add pcb.sndNxt (-1)) [] false false]) else (pcb, [])

end Pcb

/-- `tcp_rst`. -/
def tcpRst (seqno ackno : σ) (alloc : Bool) : List (Packet σ) :=
  if alloc then [⟨seqno, ackno, wndSize, [], false, false, true⟩] else []

/-! ### Retransmitting -/

namespace Pcb

/-- `tcp_rexmit_rto`: all of `unacked` goes before `unsent`. -/
def tcpRexmitRto (pcb : Pcb σ) (alloc : Bool) : Pcb σ × List (Packet σ) :=
  if pcb.unacked = [] then (pcb, [])
  else
    { pcb with
      unsent := pcb.unacked ++ pcb.unsent
      unacked := []
      nrtx := (pcb.nrtx + 1) % 2 ^ 8 }.tcpOutput alloc

/-- `tcp_rexmit`: the first segment of `unacked` goes to `unsent`. -/
def tcpRexmit (pcb : Pcb σ) : Pcb σ :=
  match pcb.unacked with
  | [] => pcb
  | seg :: unacked =>
    { pcb with
      unacked := unacked
      unsent := insertSeg seg pcb.unsent
      nrtx := (pcb.nrtx + 1) % 2 ^ 8 }

def tcpRexmitFast (pcb : Pcb σ) : Pcb σ :=
  if pcb.unacked ≠ [] ∧ pcb.inFr = false then
    let half := min pcb.cwnd pcb.sndWnd / 2
    let ssthresh := if half < 2 * pcb.mss then 2 * pcb.mss else half
    { pcb.tcpRexmit with
      ssthresh := ssthresh
      cwnd := (ssthresh + 3 * pcb.mss) % 2 ^ 16
      inFr := true }
  else pcb

/-- After a timeout the congestion window is one segment. -/
def slowStart (pcb : Pcb σ) : Pcb σ :=
  let half := min pcb.cwnd pcb.sndWnd / 2
  { pcb with
    rtime := 0
    ssthresh := if half < 2 * pcb.mss then 2 * pcb.mss else half
    cwnd := pcb.mss }

/-- The branch of `tcp_slowtmr` for a retransmission. -/
def retransmit (pcb : Pcb σ) (alloc : Bool) : Pcb σ × List (Packet σ) :=
  pcb.slowStart.tcpRexmitRto alloc

end Pcb

/-- `TCP_MAXRTX`. -/
def maxRtx : ℕ := 12

/-- `tcp_persist_backoff`. -/
def tcpPersistBackoff : List ℕ := [3, 6, 12, 24, 48, 96, 120]

/-- The increment of an `s16_t`. -/
def incS16 (n : ℤ) : ℤ := if n = 2 ^ 15 - 1 then -2 ^ 15 else n + 1

namespace Pcb

/-- One more turn of the retransmission timer, if it is running. -/
def countRtime (pcb : Pcb σ) : Pcb σ :=
  { pcb with rtime := if 0 ≤ pcb.rtime then incS16 pcb.rtime else pcb.rtime }

/-- Whether the persist timer, which is running, runs out with this turn. -/
def persistDue (pcb : Pcb σ) : Bool :=
  decide (tcpPersistBackoff.getD (pcb.persistBackoff - 1) 0 ≤ pcb.persistCnt + 1)

/-- What `tcp_slowtmr` does for a connection with `nrtx` not at `TCP_MAXRTX`: the persist timer, or
the retransmission timer with the timeout `rto`. -/
def tcpSlowtmr (pcb : Pcb σ) (rto : ℤ) (stray : Byte) (alloc : Bool) : Pcb σ × List (Packet σ) :=
  if 0 < pcb.persistBackoff then
    if pcb.persistDue then
      { pcb with
        persistCnt := 0
        persistBackoff :=
          if pcb.persistBackoff < tcpPersistBackoff.length then pcb.persistBackoff + 1
          else pcb.persistBackoff }.tcpZeroWindowProbe stray alloc
    else ({ pcb with persistCnt := pcb.persistCnt + 1 }, [])
  else if pcb.unacked ≠ [] ∧ rto ≤ pcb.countRtime.rtime then pcb.countRtime.retransmit alloc
  else (pcb.countRtime, [])

end Pcb

end

end Tcp
end Lwip
