import Teensy3.Lib.Run
import Teensy3.Lwip.Pbuf

/-!
# The TCP echo server

`recv_callback` of `echosrv.ino.tmp` writes the data of each chain of pbufs back to its
connection, tells lwIP with `tcp_recved` that the data was taken, and frees the chain.  It does
the last two whatever `tcp_write` returned, and it writes `tot_len` bytes from the payload of the
first pbuf on.

The state of one connection has, besides what the callback changes, the stream of bytes that were
delivered to it.  `tcp_write` enqueues all or nothing; which of the two is the environment's
choice.
-/

namespace Lwip
namespace EchoServer

open Machine

structure Conn where
  /-- `recv_callback` is registered. -/
  recvCb : Bool
  /-- The bytes delivered to `recv_callback`. -/
  received : List Byte
  /-- The bytes that `tcp_write` has enqueued. -/
  enqueued : List Byte
  /-- How many of the received bytes `tcp_recved` has been called for. -/
  recved : ℕ
  /-- How many of the received bytes were in chains that have been freed. -/
  freed : ℕ
  deriving DecidableEq

/-- A connection after `accept_callback`. -/
def accepted : Conn := ⟨true, [], [], 0, 0⟩

/-- What lwIP may do: deliver a chain, which `tcp_write` has room for or not, or report that the
other end has closed. -/
inductive Delivery
  | data (mem : ℕ → Byte) (p : Pbuf) (writeOk : Bool)
  | closed

/-- `tcp_write(tpcb, p->payload, p->tot_len, TCP_WRITE_FLAG_COPY)`. -/
def tcpWrite (c : Conn) (bytes : List Byte) (writeOk : Bool) : Conn :=
  if writeOk then { c with enqueued := c.enqueued ++ bytes } else c

def tcpRecved (c : Conn) (len : ℕ) : Conn := { c with recved := c.recved + len }

def pbufFree (c : Conn) (p : Pbuf) : Conn := { c with freed := c.freed + p.totLen }

/-- `tcp_recv(tpcb, NULL)`, `tcp_err(tpcb, NULL)` and `tcp_close(tpcb)`. -/
def echoClose (c : Conn) : Conn := { c with recvCb := false }

/-- `recv_callback`; the result of `tcp_write` is not looked at. -/
def recvCallback (c : Conn) : Delivery → Conn
  | .closed => echoClose c
  | .data mem p writeOk =>
    let c := tcpWrite c (p.payloadBytes mem) writeOk
    let c := tcpRecved c p.totLen
    pbufFree c p

/-- Deliver to `recv_callback`, as long as it is registered. -/
def deliver (c : Conn) (d : Delivery) : Conn :=
  if c.recvCb then
    match d with
    | .closed => recvCallback c .closed
    | .data mem p writeOk =>
      recvCallback { c with received := c.received ++ p.data mem } (.data mem p writeOk)
  else c

/-- The bytes enqueued are a beginning of those received, and byte `i` of the stream has been
enqueued if `tcp_recved` has been called for it and its chain has been freed. -/
def LosesNothing (c : Conn) : Prop :=
  c.enqueued <+: c.received ∧ ∀ i, i < c.recved → i < c.freed → i < c.enqueued.length

/-- The chain is empty, or there is room for it and it can be read through its first pbuf. -/
def Echoed (c : Conn) : Delivery → Prop
  | .closed => True
  | .data mem p writeOk =>
    c.recvCb = true → p.totLen = 0 ∨ (writeOk = true ∧ p.Contiguous mem)

/-! ### One delivery -/

/-- `recv_callback` takes all that it is given. -/
def TakesAll (c : Conn) : Prop := c.recved = c.received.length ∧ c.freed = c.received.length

theorem takesAll_deliver (c : Conn) (d : Delivery) (h : TakesAll c) : TakesAll (deliver c d) := by
  unfold deliver
  split_ifs with hcb
  · cases d with
    | closed => exact h
    | data mem p writeOk =>
      obtain ⟨hr, hf⟩ := h
      cases writeOk <;>
        simp [TakesAll, recvCallback, tcpWrite, tcpRecved, pbufFree, hr, hf]
  · exact h

/-- Nothing is lost exactly as long as everything received is enqueued. -/
theorem losesNothing_iff {c : Conn} (h : TakesAll c) :
    LosesNothing c ↔ c.enqueued = c.received := by
  obtain ⟨hr, hf⟩ := h
  constructor
  · rintro ⟨hpre, hall⟩
    refine hpre.eq_of_length_le ?_
    by_contra hlt
    have := hall c.enqueued.length (by omega) (by omega)
    omega
  · intro he
    refine ⟨he ▸ List.prefix_rfl, fun i hi _ => ?_⟩
    rw [he, ← hr]
    exact hi

/-- The stream stays echoed exactly when the delivery is one that the callback can handle. -/
theorem losesNothing_deliver (c : Conn) (d : Delivery) (h : TakesAll c) (hc : LosesNothing c) :
    LosesNothing (deliver c d) ↔ Echoed c d := by
  rw [losesNothing_iff (takesAll_deliver c d h)]
  rw [losesNothing_iff h] at hc
  unfold deliver
  split_ifs with hcb
  · cases d with
    | closed => simpa [recvCallback, echoClose, Echoed] using hc
    | data mem p writeOk =>
      cases writeOk with
      | true =>
        have hempty : p.totLen = 0 → p.Contiguous mem := fun h0 => Pbuf.contiguous_of_totLen h0 mem
        simpa [recvCallback, tcpWrite, tcpRecved, pbufFree, Echoed, hc, hcb,
          Pbuf.payloadBytes_eq_data_iff] using hempty
      | false =>
        -- nothing is enqueued, so nothing may have been received
        have hnil : p.data mem = [] ↔ p.totLen = 0 := by
          rw [← List.length_eq_zero_iff, Pbuf.length_data]
        simp [recvCallback, tcpWrite, tcpRecved, pbufFree, Echoed, hc, hcb, hnil]
  · cases d <;> simp [hc, hcb, Echoed]

/-! ### A whole connection -/

theorem takesAll_accepted : TakesAll accepted := ⟨rfl, rfl⟩

theorem losesNothing_accepted : LosesNothing accepted := (losesNothing_iff takesAll_accepted).2 rfl

/-- **When the echo server loses nothing.** For every sequence of deliveries to a connection and
of results of `tcp_write`, the server never loses a byte that it has acknowledged, if and only if
every chain with data finds room in the send buffer and lies contiguously in memory. -/
theorem loses_nothing_iff (ds : List Delivery) :
    Always deliver LosesNothing accepted ds ↔ Along deliver Echoed accepted ds :=
  always_iff_along takesAll_deliver losesNothing_deliver takesAll_accepted losesNothing_accepted ds

/-- A memory with an `a` at address 0 and a `b` at address 8. -/
def twoBytes : ℕ → Byte := fun i => if i = 0 then 0x61 else if i = 8 then 0x62 else 0

/-- The chain of the `a` and the `b`. -/
def twoPbufs : Pbuf := ⟨⟨0, 1⟩, [⟨8, 1⟩], by decide⟩

/-- A byte is lost if the send buffer is full, and a wrong one is sent if the chain has two
pbufs. -/
theorem echo_fails :
    ¬ Always deliver LosesNothing accepted [.data twoBytes (.single 0 1 (by decide)) false] ∧
      ¬ Always deliver LosesNothing accepted [.data twoBytes twoPbufs true] := by
  refine ⟨fun h => ?_, fun h => ?_⟩
  · exact absurd (h.2.2 0 (by decide) (by decide)) (by decide)
  · exact absurd h.2.1 (by decide)

end EchoServer
end Lwip
