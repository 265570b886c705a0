import Teensy3.Lib.Run
import Teensy3.Lwip.TcpIn

/-!
# Two ends of a TCP connection

An endpoint is a control block with a record of what its application has written, what it has sent
and what was passed to the application.  Two of them are joined by a network that may lose,
duplicate and reorder packets: whatever one end has sent may reach the other one at any time, any
number of times or never, cut into pbufs in any way.

An application may refuse the data that it is passed.  Then it is kept as `refused_data` and passed
again, before the next segment is looked at or by the fast timer, until it is taken or given up.

* `AppCall`, `Callback`: what an application does, by itself or in its callbacks;
* `Endpoint.retry`: passing on again what was refused;
* `Endpoint.input`: `tcp_input`, from the control block on;
* `LocalEvent`, `Endpoint.localStep`: calls and timers;
* `EndEvent`, `Endpoint.step`: one end, with any segments coming in;
* `System`, `SysEvent`, `System.step`: both ends and the network.
-/

namespace Lwip
namespace Tcp

open SeqNo

/-- A call of an application; `alloc` says which allocations succeed. -/
inductive AppCall
  | write (data : List Byte) (copy more : Bool) (alloc : ℕ → Bool)
  | output
  | recved (len : ℕ)
  | nagle (disable : Bool)
  | close (alloc : Bool)
  | shutdown (shutRx shutTx : Bool) (alloc : Bool)

/-- What a callback returns: `ERR_OK`, an error, or `ERR_ABRT`, which it returns if it has called
`tcp_abort` and only then.  With `abrt` goes whether there is a pbuf for the acknowledgement and for
the reset that this sends. -/
inductive CallbackErr
  | ok
  | err
  | abrt (allocAck alloc : Bool)
  deriving DecidableEq

/-- What a callback does: calls, each with whether there is a pbuf for what it sends, and then its
result. -/
structure Callback where
  calls : List (AppCall × Bool)
  result : CallbackErr

/-- The callbacks while a segment comes in: `recv` for data that was refused before, `sent`, `recv`
for the data of the segment, and `recv` for its `FIN`. -/
structure Callbacks where
  again : Callback
  sent : Callback
  recv : Callback
  closed : Callback

/-- A callback that does nothing, and takes what it is passed. -/
def Callback.quiet : Callback := ⟨[], .ok⟩

def Callbacks.quiet : Callbacks := ⟨.quiet, .quiet, .quiet, .quiet⟩

/-- One end of a connection.  `received` is what the application has taken, and `discarded` says that
something which it had refused was freed. -/
structure Endpoint (σ : Type) where
  pcb : Pcb σ
  written : List Byte
  sent : List (Packet σ)
  received : List Byte
  gotFin : Bool
  discarded : Bool
  fate : Pcb.Fate

section

variable {σ : Type} [SeqNo σ] [DecidableEq σ]

namespace Endpoint

/-- Another control block, which may have given up what was refused. -/
def setPcb (e : Endpoint σ) (pcb : Pcb σ) : Endpoint σ :=
  { e with
    pcb := pcb
    discarded := e.discarded || (!e.pcb.refusedData.isEmpty && pcb.refusedData.isEmpty) }

def emit (e : Endpoint σ) (out : Pcb σ × List (Packet σ)) : Endpoint σ :=
  { e.setPcb out.1 with sent := e.sent ++ out.2 }

/-! ### Calls -/

/-- A call, up to the output that the second result asks for. -/
def call (e : Endpoint σ) : AppCall → Endpoint σ × Bool
  | .write data copy more alloc =>
    match e.pcb.tcpWrite data copy more alloc with
    | (.ok, pcb) => ({ e with pcb := pcb, written := e.written ++ data }, false)
    | (_, pcb) => ({ e with pcb := pcb }, false)
  | .output => (e, true)
  | .recved len => ({ e with pcb := (e.pcb.tcpRecved len).1 }, (e.pcb.tcpRecved len).2)
  | .nagle disable => ({ e with pcb := { e.pcb with nodelay := disable } }, false)
  | .close alloc => (e.emit (e.pcb.tcpClose alloc).1, (e.pcb.tcpClose alloc).2)
  | .shutdown shutRx shutTx alloc =>
    (e.emit (e.pcb.tcpShutdown shutRx shutTx alloc).1, (e.pcb.tcpShutdown shutRx shutTx alloc).2)

/-- A call outside of input processing for the connection. -/
def callNow (e : Endpoint σ) (c : AppCall) (alloc : Bool) : Endpoint σ :=
  if (e.call c).2 then (e.call c).1.emit ((e.call c).1.pcb.tcpOutput alloc) else (e.call c).1

/-- The calls of a callback while a segment is processed, when `tcp_output` for its connection does
nothing. -/
def calls (e : Endpoint σ) (cs : List (AppCall × Bool)) : Endpoint σ :=
  cs.foldl (fun e c => (e.call c.1).1) e

/-- The calls of a callback at other times. -/
def callsNow (e : Endpoint σ) (cs : List (AppCall × Bool)) : Endpoint σ :=
  cs.foldl (fun e c => e.callNow c.1 c.2) e

/-- `tcp_abandon`, with whether there is a pbuf for an outstanding acknowledgement and for the reset.
A connection in `TIME_WAIT` is dropped in silence. -/
def tcpAbandon (e : Endpoint σ) (reset : Bool) (allocAck alloc : Bool) : Endpoint σ :=
  if e.pcb.state = .timeWait then { e with fate := .aborted }
  else
    let rst := if reset then tcpRst e.pcb.sndNxt e.pcb.rcvNxt alloc else []
    { e.emit ((e.pcb.tcpPcbRemove allocAck).1, (e.pcb.tcpPcbRemove allocAck).2 ++ rst) with
      fate := .aborted }

/-- What comes next, unless the connection has ended. -/
def andThen (e : Endpoint σ) (next : Endpoint σ → Endpoint σ) : Endpoint σ :=
  if e.fate = .alive then next e else e

/-! ### Data that was refused -/

/-- The application takes what it had refused. -/
def takeRefused (e : Endpoint σ) (data : List Byte) : Endpoint σ :=
  { e with received := e.received ++ data, pcb := { e.pcb with refusedData := [] } }

/-- What was refused is passed to the application again. -/
def redeliver (e : Endpoint σ) (cb : Callback) : Endpoint σ :=
  match cb.result with
  | .ok => (e.callsNow cb.calls).takeRefused e.pcb.refusedData
  | .err => e.callsNow cb.calls
  | .abrt allocAck alloc =>
    ((e.callsNow cb.calls).takeRefused e.pcb.refusedData).tcpAbandon true allocAck alloc

def retry (e : Endpoint σ) (cb : Callback) : Endpoint σ :=
  if e.pcb.refusedData = [] then e else e.redeliver cb

/-! ### Input -/

/-- The byte of a `FIN` does not count against the window. -/
def finTaken (e : Endpoint σ) : Endpoint σ :=
  { e with
    gotFin := true
    pcb := { e.pcb with
      rcvWnd := if e.pcb.rcvWnd = wndSize then e.pcb.rcvWnd else e.pcb.rcvWnd + 1 } }

/-- A callback of `tcp_input` with a result that matters only if it is `ERR_ABRT`.  What is aborted
here sends no acknowledgement first. -/
def callback (e : Endpoint σ) (cb : Callback) : Endpoint σ :=
  match cb.result with
  | .abrt _ alloc => (e.calls cb.calls).tcpAbandon true false alloc
  | _ => e.calls cb.calls

def onSent (e : Endpoint σ) (cb : Callback) : Endpoint σ :=
  if 0 < e.pcb.acked then e.callback cb else e

/-- The data goes to the application, which may refuse it; if it has closed its side, the connection
is aborted. -/
def onRecv (e : Endpoint σ) (data : List Byte) (cb : Callback) (alloc : Bool) : Endpoint σ :=
  if data = [] then e
  else if e.pcb.rxClosed then e.tcpAbandon true false alloc
  else
    let e := e.calls cb.calls
    match cb.result with
    | .ok => { e with received := e.received ++ data }
    | .err => { e with pcb := { e.pcb with refusedData := data } }
    | .abrt _ alloc => { e with received := e.received ++ data }.tcpAbandon true false alloc

def onFin (e : Endpoint σ) (gotFin : Bool) (cb : Callback) : Endpoint σ :=
  if gotFin then e.finTaken.callback cb else e

/-- What `tcp_input` does after `tcp_process`: the callbacks, and the output. -/
def afterProcess (e : Endpoint σ) (data : List Byte) (gotFin : Bool) (cbs : Callbacks)
    (alloc : Bool) : Endpoint σ :=
  (((e.onSent cbs.sent).andThen fun e => e.onRecv data cbs.recv alloc).andThen
    fun e => e.onFin gotFin cbs.closed).andThen fun e => e.emit (e.pcb.tcpOutput alloc)

/-- `tcp_input` from `tcp_process` on. -/
def process (e : Endpoint σ) (seg : InSeg σ) (cbs : Callbacks) (alloc : Bool) : Endpoint σ :=
  let r := e.pcb.tcpProcess seg alloc
  let e := e.emit (r.1.pcb, r.1.out)
  if r.2 = .alive then e.afterProcess r.1.data r.1.gotFin cbs alloc
  else { e.setPcb e.pcb.tcpPcbPurge with fate := r.2 }

/-- A segment of some length is dropped if the application still refuses what came before it. -/
def drops (e : Endpoint σ) (cb : Callback) (seg : InSeg σ) : Bool :=
  decide (e.pcb.refusedData ≠ [] ∧ cb.result = .err ∧ 0 < seg.tcplen)

/-- `tcp_input`, for a segment that belongs to this connection. -/
def input (e : Endpoint σ) (seg : InSeg σ) (cbs : Callbacks) (alloc : Bool) : Endpoint σ :=
  if e.pcb.state = .timeWait then e.emit (e.pcb.tcpTimewaitInput seg alloc)
  else if e.drops cbs.again seg then e.retry cbs.again
  else (e.retry cbs.again).andThen fun e => e.process seg cbs alloc

end Endpoint

/-! ### One end -/

/-- A call from outside of input processing, or a timer; with `fasttmr` goes the callback `recv` for
data that was refused.  `abandon` is `tcp_abort`, or the end of a connection that has waited too
long. -/
inductive LocalEvent
  | call (c : AppCall) (alloc : Bool)
  | abandon (reset : Bool) (allocAck alloc : Bool)
  | slowtmr (rto : ℤ) (stray : Byte) (alloc : Bool)
  | keepalive (alloc : Bool)
  | fasttmr (cb : Callback) (alloc : Bool)

namespace Endpoint

def localStep (e : Endpoint σ) : LocalEvent → Endpoint σ
  | .call c alloc => e.callNow c alloc
  | .abandon reset allocAck alloc => e.tcpAbandon reset allocAck alloc
  | .slowtmr rto stray alloc =>
    if e.pcb.state = .timeWait then e
    else if e.pcb.nrtx = maxRtx then e.tcpAbandon false false alloc
    else e.emit (e.pcb.tcpSlowtmr rto stray alloc)
  | .keepalive alloc =>
    if e.pcb.state = .established ∨ e.pcb.state = .closeWait then
      e.emit (e.pcb.tcpKeepalive alloc)
    else e
  | .fasttmr cb alloc =>
    if e.pcb.state = .timeWait then e
    else (e.retry cb).andThen fun e => e.emit (e.pcb.tcpFasttmr alloc)

end Endpoint

/-- What can happen to one end: an event of its own, or any segment from the network. -/
inductive EndEvent (σ : Type)
  | own (ev : LocalEvent)
  | segment (seg : InSeg σ) (cbs : Callbacks) (alloc : Bool)

namespace Endpoint

/-- An event at one end, while there is a control block. -/
def step (e : Endpoint σ) : EndEvent σ → Endpoint σ
  | .own ev => e.andThen fun e => e.localStep ev
  | .segment seg cbs alloc => e.andThen fun e => e.input seg cbs alloc

end Endpoint

/-! ### The network -/

/-- Data as a chain of pbufs of the given sizes, and a last one for the rest. -/
def chain : List ℕ → List Byte → List (List Byte)
  | [], data => [data]
  | n :: sizes, data => data.take n :: chain sizes (data.drop n)

theorem flatten_chain (sizes : List ℕ) (data : List Byte) : (chain sizes data).flatten = data := by
  induction sizes generalizing data with
  | nil => simp [chain]
  | cons n sizes ih => rw [chain, List.flatten_cons, ih, List.take_append_drop]

/-- A packet as it arrives.  The headers of a connection that is established have no options. -/
def Packet.arrive (p : Packet σ) (sizes : List ℕ) : InSeg σ :=
  ⟨p.seqno, p.ackno, BitVec.ofNat 16 p.wnd, true, false, p.rst, p.fin, [],
    chain sizes p.data⟩

structure System (σ : Type) where
  left : Endpoint σ
  right : Endpoint σ

/-- An event at one end, or the arrival of packet number `i` of those that the other end has sent;
`listens` says whether there is a control block that listens on the port. -/
inductive SysEvent
  | left (ev : LocalEvent)
  | right (ev : LocalEvent)
  | toLeft (i : ℕ) (sizes : List ℕ) (cbs : Callbacks) (listens alloc : Bool)
  | toRight (i : ℕ) (sizes : List ℕ) (cbs : Callbacks) (listens alloc : Bool)

/-- The answer of `tcp_input` to a packet of length `tcplen` without a control block for it, or that
of `tcp_listen_input`.  Only the first one looks at whether the packet is a reset itself. -/
def Packet.answer (p : Packet σ) (tcplen : ℕ) (listens alloc : Bool) : List (Packet σ) :=
  if listens then tcpRst (add p.ackno 1) (add p.seqno tcplen) alloc
  else if p.rst then []
  else tcpRst p.ackno (add p.seqno tcplen) alloc

/-- The arrival of a packet at `e`, if it has been sent. -/
def Endpoint.arrival (e : Endpoint σ) (sent : List (Packet σ)) (i : ℕ) (sizes : List ℕ)
    (cbs : Callbacks) (listens alloc : Bool) : Endpoint σ :=
  match sent[i]? with
  | none => e
  | some p =>
    if e.fate = .alive then e.step (.segment (p.arrive sizes) cbs alloc)
    else e.emit (e.pcb, p.answer (p.arrive sizes).tcplen listens alloc)

namespace System

def step (s : System σ) : SysEvent → System σ
  | .left ev => { s with left := s.left.step (.own ev) }
  | .right ev => { s with right := s.right.step (.own ev) }
  | .toLeft i sizes cbs listens alloc =>
    { s with left := s.left.arrival s.right.sent i sizes cbs listens alloc }
  | .toRight i sizes cbs listens alloc =>
    { s with right := s.right.arrival s.left.sent i sizes cbs listens alloc }

end System

/-- What was agreed on, and how the connection stands, when it is established.  With `iss` and `irs`
as below, `snd_wl1` is `irs + wl1` and `snd_wl2` is `iss + wl2`: after a passive open both are zero,
after an active one `wl1` is `-2`, and `snd_wl2` is an older initial number.  An active open also
keeps count in `nrtx` of how often its `SYN` was sent again, and with `ackNow` it has still to
acknowledge the other one's. -/
structure Params where
  mss : ℕ
  cwnd : ℕ
  ssthresh : ℕ
  sndWnd : ℕ
  wl1 : ℤ
  wl2 : ℤ
  nrtx : ℕ
  ackNow : Bool
  mss_pos : 0 < mss
  mss_le : mss ≤ maxMss
  cwnd_lt : cwnd < 2 ^ 16
  ssthresh_lt : ssthresh < 2 ^ 16
  sndWnd_lt : sndWnd < 2 ^ 16

/-- A control block in the state `ESTABLISHED` with nothing queued: `iss` is the next number to
send, `irs` the next one to receive. -/
def Pcb.fresh (iss irs : σ) (params : Params) : Pcb σ where
  state := .established
  ackDelay := false
  ackNow := params.ackNow
  inFr := false
  rxClosed := false
  finFlag := false
  nodelay := false
  nagleMemErr := false
  rcvNxt := irs
  rcvWnd := wndSize
  rcvAnnWnd := wndSize
  rcvAnnRightEdge := if params.ackNow then irs else add irs wndSize
  rtime := -1
  mss := params.mss
  nrtx := params.nrtx
  lastack := iss
  dupacks := 0
  cwnd := params.cwnd
  ssthresh := params.ssthresh
  sndNxt := iss
  sndWnd := params.sndWnd
  sndWl1 := add irs params.wl1
  sndWl2 := add iss params.wl2
  sndLbb := iss
  acked := 0
  sndBuf := sndBufSize
  sndQueuelen := 0
  unsent := []
  unacked := []
  persistCnt := 0
  persistBackoff := 0
  refusedData := []

/-- One end of a connection that was just established. -/
def Endpoint.fresh (iss irs : σ) (params : Params) : Endpoint σ :=
  ⟨Pcb.fresh iss irs params, [], [], [], false, false, .alive⟩

/-- Both ends: the stream of the left one starts at `a`, that of the right one at `b`. -/
def System.fresh (a b : σ) (left right : Params) : System σ :=
  ⟨Endpoint.fresh a b left, Endpoint.fresh b a right⟩

end

end Tcp
end Lwip
