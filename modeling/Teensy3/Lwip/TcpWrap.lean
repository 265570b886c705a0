import Teensy3.Lwip.TcpDelivery

/-!
# Sequence numbers of 32 bits: sending

The code has sequence numbers of 32 bits, which start again from zero.  The queues of a connection
are never far from what is acknowledged.  So whatever it sends is what it would send with unbounded
numbers, modulo `2 ^ 32`.

* `Pcb.wrap`, `Endpoint.wrap`, `System.wrap`: the numbers modulo `2 ^ 32`;
* `Pcb.Nearby`: what is queued is not far from what is acknowledged;
* one lemma for each operation that fills the queues, transmits, or is called by a timer.
-/

namespace Lwip
namespace Tcp

open SeqNo

section Wrap

@[simps]
def Seg.wrap (seg : Seg ℤ) : Seg (BitVec 32) :=
  ⟨embed 32 seg.seqno, seg.data, seg.clen, seg.fin, seg.psh, seg.moved⟩

@[simps]
def Packet.wrap (p : Packet ℤ) : Packet (BitVec 32) :=
  ⟨embed 32 p.seqno, embed 32 p.ackno, p.wnd, p.data, p.fin, p.psh, p.rst⟩

@[simps]
def InSeg.wrap (seg : InSeg ℤ) : InSeg (BitVec 32) :=
  ⟨embed 32 seg.seqno, embed 32 seg.ackno, seg.wnd, seg.ack, seg.syn, seg.rst, seg.fin, seg.opts,
    seg.p⟩

@[simps]
def Pcb.wrap (pcb : Pcb ℤ) : Pcb (BitVec 32) where
  state := pcb.state
  ackDelay := pcb.ackDelay
  ackNow := pcb.ackNow
  inFr := pcb.inFr
  rxClosed := pcb.rxClosed
  finFlag := pcb.finFlag
  nodelay := pcb.nodelay
  nagleMemErr := pcb.nagleMemErr
  rcvNxt := embed 32 pcb.rcvNxt
  rcvWnd := pcb.rcvWnd
  rcvAnnWnd := pcb.rcvAnnWnd
  rcvAnnRightEdge := embed 32 pcb.rcvAnnRightEdge
  rtime := pcb.rtime
  mss := pcb.mss
  nrtx := pcb.nrtx
  lastack := embed 32 pcb.lastack
  dupacks := pcb.dupacks
  cwnd := pcb.cwnd
  ssthresh := pcb.ssthresh
  sndNxt := embed 32 pcb.sndNxt
  sndWnd := pcb.sndWnd
  sndWl1 := embed 32 pcb.sndWl1
  sndWl2 := embed 32 pcb.sndWl2
  sndLbb := embed 32 pcb.sndLbb
  acked := pcb.acked
  sndBuf := pcb.sndBuf
  sndQueuelen := pcb.sndQueuelen
  unsent := pcb.unsent.map Seg.wrap
  unacked := pcb.unacked.map Seg.wrap
  persistCnt := pcb.persistCnt
  persistBackoff := pcb.persistBackoff
  refusedData := pcb.refusedData

def Pcb.Received.wrap (r : Pcb.Received ℤ) : Pcb.Received (BitVec 32) :=
  ⟨r.pcb.wrap, r.data, r.gotFin, r.out.map Packet.wrap⟩

/-- A control block with the packets that it sends. -/
def wrapOut (out : Pcb ℤ × List (Packet ℤ)) : Pcb (BitVec 32) × List (Packet (BitVec 32)) :=
  (out.1.wrap, out.2.map Packet.wrap)

def Endpoint.wrap (e : Endpoint ℤ) : Endpoint (BitVec 32) :=
  ⟨e.pcb.wrap, e.written, e.sent.map Packet.wrap, e.received, e.gotFin, e.discarded, e.fate⟩

def System.wrap (s : System ℤ) : System (BitVec 32) := ⟨s.left.wrap, s.right.wrap⟩

end Wrap

/-! ### Operations that compare nothing -/

@[simp] theorem add_embed (a z : ℤ) : add (embed 32 a) z = embed 32 (a + z) := (embed_add a z).symm

@[simp] theorem Seg.seqEnd_wrap (seg : Seg ℤ) : seg.wrap.seqEnd = embed 32 seg.seqEnd := by
  rw [seqEnd, seqEnd, add_int, ← add_embed]
  rfl

@[simp] theorem Seg.dataEnd_wrap (seg : Seg ℤ) : seg.wrap.dataEnd = embed 32 seg.dataEnd := by
  rw [dataEnd, dataEnd, add_int, ← add_embed]
  rfl

theorem mapLast_map {α β : Type} {f : α → α} {g : β → β} {w : α → β} (h : ∀ x, g (w x) = w (f x))
    (l : List α) : mapLast g (l.map w) = (mapLast f l).map w := by
  induction l with
  | nil => rfl
  | cons x l ih =>
    cases l with
    | nil => simp [mapLast, h]
    | cons y l => simpa [mapLast] using ih

theorem newSegs_wrap (mss : ℕ) (copy : Bool) (alloc : ℕ → Bool) (turns : ℕ) (s : ℤ)
    (data : List Byte) (queuelen : ℕ) :
    newSegs mss copy alloc turns (embed 32 s) data queuelen =
      (newSegs mss copy alloc turns s data queuelen).map fun out => (out.1.map Seg.wrap, out.2) := by
  induction turns generalizing s data queuelen with
  | zero => cases data <;> rfl
  | succ turns ih =>
    cases data with
    | nil => rfl
    | cons b data =>
      rw [newSegs, newSegs]
      split
      · dsimp only
        rw [add_embed, ih, add_int]
        cases newSegs mss copy alloc turns (s + (min mss (b :: data).length : ℕ))
          ((b :: data).drop (min mss (b :: data).length)) (queuelen + newClen copy) <;> rfl
      · rfl

namespace Pcb

variable (pcb : Pcb ℤ)

theorem tcpWriteChecks_wrap (n : ℕ) :
    pcb.wrap.tcpWriteChecks n = ((pcb.tcpWriteChecks n).1, (pcb.tcpWriteChecks n).2.wrap) := by
  simp only [tcpWriteChecks, wrap_state, wrap_sndBuf, wrap_sndQueuelen]
  split_ifs <;> rfl

theorem concatLen_wrap (n : ℕ) : pcb.wrap.concatLen n = pcb.concatLen n := by
  simp only [concatLen, wrap_unsent, List.getLast?_map]
  cases pcb.unsent.getLast? <;> rfl

theorem tcpWrite_wrap (data : List Byte) (copy more : Bool) (alloc : ℕ → Bool) :
    pcb.wrap.tcpWrite data copy more alloc =
      ((pcb.tcpWrite data copy more alloc).1, (pcb.tcpWrite data copy more alloc).2.wrap) := by
  simp only [tcpWrite, tcpWriteChecks_wrap]
  rcases pcb.tcpWriteChecks data.length with ⟨err, x⟩
  cases err with
  | ok =>
    have hconcat := mapLast_map (w := Seg.wrap)
      (f := fun s => { s with data := s.data ++ data.take (x.concatLen data.length), clen := s.clen + 1 })
      (g := fun s => { s with data := s.data ++ data.take (x.concatLen data.length), clen := s.clen + 1 })
      fun _ => rfl
    have hpsh := mapLast_map (w := Seg.wrap) (f := fun s => { s with psh := true })
      (g := fun s => { s with psh := true }) fun _ => rfl
    simp only [concatLen_wrap, wrap_mss, wrap_sndLbb, wrap_sndQueuelen, wrap_unsent, add_embed,
      newSegs_wrap, add_int]
    split_ifs
    · rfl
    all_goals
      cases newSegs x.mss copy alloc (sndQueuelenMax + 1) (x.sndLbb + (x.concatLen data.length : ℤ))
        (data.drop (x.concatLen data.length)) (x.sndQueuelen + _) with
      | none => rfl
      | some out => simp [hconcat, ← hpsh, wrap]
  | mem => rfl
  | buf => rfl
  | conn => rfl

theorem tcpEnqueueFin_wrap (alloc : Bool) :
    pcb.wrap.tcpEnqueueFin alloc = ((pcb.tcpEnqueueFin alloc).1, (pcb.tcpEnqueueFin alloc).2.wrap) := by
  simp only [tcpEnqueueFin, wrap_sndBuf, wrap_sndQueuelen]
  split_ifs
  · rfl
  · rfl
  · rfl
  · simp [wrap, Seg.wrap]

theorem tcpSendFin_wrap (alloc : Bool) :
    pcb.wrap.tcpSendFin alloc = ((pcb.tcpSendFin alloc).1, (pcb.tcpSendFin alloc).2.wrap) := by
  have hfin := mapLast_map (w := Seg.wrap) (f := fun s => { s with fin := true })
    (g := fun s => { s with fin := true }) fun _ => rfl
  simp only [tcpSendFin, wrap_unsent, List.getLast?_map, tcpEnqueueFin_wrap]
  cases pcb.unsent.getLast? with
  | none => rfl
  | some seg =>
    simp only [Option.map_some, Seg.wrap_fin]
    split_ifs
    · rfl
    · simp [wrap, hfin]

theorem sendFinAndEnter_wrap (next : TcpState) (alloc : Bool) :
    pcb.wrap.sendFinAndEnter next alloc =
      ((pcb.sendFinAndEnter next alloc).1.wrap, (pcb.sendFinAndEnter next alloc).2) := by
  simp only [sendFinAndEnter, tcpSendFin_wrap]
  rcases pcb.tcpSendFin alloc with ⟨err, x⟩
  cases err <;> rfl

theorem tcpPcbPurge_wrap : pcb.wrap.tcpPcbPurge = pcb.tcpPcbPurge.wrap := by
  simp only [tcpPcbPurge, wrap_state]
  split_ifs <;> rfl

theorem timeWait_wrap : pcb.wrap.timeWait = pcb.timeWait.wrap := by
  rw [timeWait, tcpPcbPurge_wrap]
  rfl

theorem tcpRst_wrap (seqno ackno : ℤ) (alloc : Bool) :
    tcpRst (embed 32 seqno) (embed 32 ackno) alloc = (tcpRst seqno ackno alloc).map Packet.wrap := by
  cases alloc <;> rfl

theorem tcpCloseShutdown_wrap (rstOnUnackedData alloc : Bool) :
    pcb.wrap.tcpCloseShutdown rstOnUnackedData alloc =
      (wrapOut (pcb.tcpCloseShutdown rstOnUnackedData alloc).1,
        (pcb.tcpCloseShutdown rstOnUnackedData alloc).2) := by
  simp only [tcpCloseShutdown, wrap_refusedData, wrap_rcvWnd, wrap_state, wrap_sndNxt, wrap_rcvNxt,
    timeWait_wrap, tcpRst_wrap, sendFinAndEnter_wrap]
  split_ifs
  · rfl
  · cases pcb.state <;> rfl

theorem tcpClose_wrap (alloc : Bool) :
    pcb.wrap.tcpClose alloc = (wrapOut (pcb.tcpClose alloc).1, (pcb.tcpClose alloc).2) :=
  tcpCloseShutdown_wrap { pcb with rxClosed := true } true alloc

theorem tcpShutdown_wrap (shutRx shutTx alloc : Bool) :
    pcb.wrap.tcpShutdown shutRx shutTx alloc =
      (wrapOut (pcb.tcpShutdown shutRx shutTx alloc).1, (pcb.tcpShutdown shutRx shutTx alloc).2) := by
  have hclose := tcpCloseShutdown_wrap (pcb.shutRxSide shutRx) false alloc
  have hrx : pcb.wrap.shutRxSide shutRx = (pcb.shutRxSide shutRx).wrap := by cases shutRx <;> rfl
  simp only [tcpShutdown, hrx, wrap_state]
  split_ifs
  · exact hclose
  · rfl

theorem tcpSendEmptyAck_wrap (alloc : Bool) :
    pcb.wrap.tcpSendEmptyAck alloc = wrapOut (pcb.tcpSendEmptyAck alloc) := by
  cases alloc with
  | false => rfl
  | true => simp [tcpSendEmptyAck, announced, packet, wrapOut, wrap, Packet.wrap]

theorem tcpKeepalive_wrap (alloc : Bool) :
    pcb.wrap.tcpKeepalive alloc = wrapOut (pcb.tcpKeepalive alloc) := by
  cases alloc with
  | false => rfl
  | true => simp [tcpKeepalive, announced, packet, wrapOut, wrap, Packet.wrap]

theorem tcpZeroWindowProbe_wrap (stray : Byte) (alloc : Bool) :
    pcb.wrap.tcpZeroWindowProbe stray alloc = wrapOut (pcb.tcpZeroWindowProbe stray alloc) := by
  simp only [tcpZeroWindowProbe, wrap_unacked, wrap_unsent, ← List.map_append]
  cases pcb.unacked ++ pcb.unsent with
  | nil => rfl
  | cons seg q =>
    cases alloc with
    | false => rfl
    | true => simp [announced, packet, probeByte, wrapOut, wrap, Packet.wrap, Seg.wrap, Seg.len]

end Pcb

/-! ### Transmitting -/

/-- A segment whose numbers are not far from `a`. -/
def Seg.Nearby (a : ℤ) (seg : Seg ℤ) : Prop :=
  -2 ^ 20 ≤ seg.seqno - a ∧ seg.seqno - a ≤ 2 ^ 20 ∧ seg.tcplen ≤ 2 ^ 20

theorem near_of_le {a b : ℤ} (hlow : -2 ^ 31 ≤ a - b) (hhigh : a - b < 2 ^ 31) : Near 32 a b := by
  constructor <;> omega

theorem Seg.Nearby.near {a : ℤ} {x y : Seg ℤ} (hx : x.Nearby a) (hy : y.Nearby a) :
    Near 32 x.seqno y.seqno := by
  obtain ⟨hx₁, hx₂, -⟩ := hx
  obtain ⟨hy₁, hy₂, -⟩ := hy
  exact near_of_le (by omega) (by omega)

theorem insertSeg_wrap {a : ℤ} {seg : Seg ℤ} (hseg : seg.Nearby a) {q : List (Seg ℤ)}
    (hq : ∀ x ∈ q, x.Nearby a) :
    insertSeg seg.wrap (q.map Seg.wrap) = (insertSeg seg q).map Seg.wrap := by
  induction q with
  | nil => rfl
  | cons x q ih =>
    have hlt : lt x.wrap.seqno seg.wrap.seqno = lt x.seqno seg.seqno :=
      lt_embed ((hq x List.mem_cons_self).near hseg)
    rw [List.map_cons, insertSeg, insertSeg, hlt, ih fun y hy => hq y (List.mem_cons_of_mem _ hy)]
    split <;> rfl

theorem queueUnacked_wrap {a : ℤ} {seg : Seg ℤ} (hseg : seg.Nearby a) {q : List (Seg ℤ)}
    (hq : ∀ x ∈ q, x.Nearby a) :
    queueUnacked seg.wrap (q.map Seg.wrap) = (queueUnacked seg q).map Seg.wrap := by
  rw [queueUnacked, queueUnacked, List.getLast?_map, insertSeg_wrap hseg hq]
  cases hlast : q.getLast? with
  | none => rfl
  | some useg =>
    have hlt : lt seg.wrap.seqno useg.wrap.seqno = lt seg.seqno useg.seqno :=
      lt_embed (hseg.near (hq useg (List.mem_of_getLast? hlast)))
    simp only [Option.map_some, hlt]
    split
    · rfl
    · rw [List.map_append, List.map_singleton]

namespace Pcb

variable {pcb : Pcb ℤ}

/-- What is sent for the first time, or again, is not far from what is acknowledged. -/
structure Nearby (pcb : Pcb ℤ) (q : List (Seg ℤ)) : Prop where
  each : ∀ seg ∈ q, seg.Nearby pcb.lastack
  sndNxt : -2 ^ 21 ≤ pcb.sndNxt - pcb.lastack ∧ pcb.sndNxt - pcb.lastack ≤ 2 ^ 21

theorem sendSeg_wrap {seg : Seg ℤ} (h : pcb.Nearby pcb.unacked) (hseg : seg.Nearby pcb.lastack) :
    pcb.wrap.sendSeg seg.wrap = (pcb.sendSeg seg).wrap := by
  have hlt : lt pcb.wrap.sndNxt seg.wrap.seqEnd = lt pcb.sndNxt seg.seqEnd := by
    obtain ⟨hlow, hhigh, hlen⟩ := hseg
    have hnxt := h.sndNxt
    rw [Seg.seqEnd_wrap]
    refine lt_embed (near_of_le ?_ ?_) <;>
    · rw [Seg.seqEnd, add_int]
      omega
  have hmoved : { seg with moved := true }.Nearby pcb.lastack := hseg
  have hunacked : queueUnacked ⟨embed 32 seg.seqno, seg.data, seg.clen, seg.fin, seg.psh, true⟩
      (pcb.unacked.map Seg.wrap) = (queueUnacked { seg with moved := true } pcb.unacked).map Seg.wrap :=
    queueUnacked_wrap hmoved h.each
  simp only [sendSeg, hlt]
  simp only [announced, wrap, Seg.tcplen, Seg.len, Seg.wrap_seqno, Seg.wrap_data, Seg.wrap_clen,
    Seg.wrap_fin, Seg.wrap_psh, Seg.seqEnd_wrap, hunacked, add_embed, add_int, apply_ite (embed 32)]
  congr 1
  exact (apply_ite (List.map Seg.wrap) _ _ _).symm

theorem Nearby.sendSeg {seg : Seg ℤ} (h : pcb.Nearby pcb.unacked) (hseg : seg.Nearby pcb.lastack) :
    (pcb.sendSeg seg).Nearby (pcb.sendSeg seg).unacked := by
  obtain ⟨hlow, hhigh, hlen⟩ := hseg
  refine ⟨fun x hx => ?_, ?_⟩
  · simp only [Pcb.sendSeg] at hx
    split at hx
    · rcases mem_queueUnacked.1 hx with rfl | hx
      · exact ⟨hlow, hhigh, hlen⟩
      · exact h.each x hx
    · exact h.each x hx
  · have hnxt := h.sndNxt
    simp only [Pcb.sendSeg, announced]
    split
    · rw [Seg.seqEnd, add_int]
      omega
    · exact hnxt

theorem tcpDoOutputNagle_wrap (pcb : Pcb ℤ) (unsent : List (Seg ℤ)) :
    pcb.wrap.tcpDoOutputNagle (unsent.map Seg.wrap) = pcb.tcpDoOutputNagle unsent := by
  have hempty : pcb.wrap.unacked.isEmpty = pcb.unacked.isEmpty := List.isEmpty_map ..
  match unsent with
  | [] => simp only [tcpDoOutputNagle, hempty]; rfl
  | [seg] => simp only [tcpDoOutputNagle, hempty]; rfl
  | x :: y :: q => simp only [tcpDoOutputNagle, hempty]; rfl

theorem within_wrap {seg : Seg ℤ} {wnd : ℕ} (hseg : seg.Nearby pcb.lastack) (hwnd : wnd < 2 ^ 16) :
    within seg.wrap.dataEnd pcb.wrap.lastack wnd = within seg.dataEnd pcb.lastack wnd := by
  obtain ⟨hlow, hhigh, hlen⟩ := hseg
  have hle : seg.len ≤ seg.tcplen := Nat.le_add_right _ _
  rw [Seg.dataEnd_wrap]
  refine within_embed (near_of_le ?_ ?_) (by omega) <;>
  · rw [Seg.dataEnd, add_int]
    omega

theorem outputLoop_wrap {wnd : ℕ} (hwnd : wnd < 2 ^ 16) (unsent : List (Seg ℤ)) (pcb : Pcb ℤ)
    (h : pcb.Nearby pcb.unacked) (hunsent : ∀ seg ∈ unsent, seg.Nearby pcb.lastack) :
    outputLoop wnd (unsent.map Seg.wrap) pcb.wrap = wrapOut (outputLoop wnd unsent pcb) := by
  induction unsent generalizing pcb with
  | nil => rfl
  | cons seg unsent ih =>
    have hseg := hunsent seg List.mem_cons_self
    have hrest := ih (pcb.sendSeg seg) (h.sendSeg hseg)
      fun x hx => hunsent x (List.mem_cons_of_mem _ hx)
    have hnagle := tcpDoOutputNagle_wrap pcb (seg :: unsent)
    rw [List.map_cons] at hnagle ⊢
    rw [outputLoop, outputLoop, within_wrap hseg hwnd, hnagle, sendSeg_wrap h hseg, hrest]
    simp only [wrap_nagleMemErr, wrap_finFlag]
    split_ifs <;> rfl

theorem outputDone_wrap (h : ∀ seg ∈ pcb.unsent, seg.Nearby pcb.lastack)
    (hwnd : pcb.sndWnd < 2 ^ 16) : pcb.wrap.outputDone = pcb.outputDone.wrap := by
  simp only [outputDone, wrap_unsent, wrap_persistBackoff, wrap_sndWnd]
  cases hunsent : pcb.unsent with
  | nil => simp [wrap, hunsent]
  | cons seg q =>
    have hwithin := within_wrap (h seg (by rw [hunsent]; exact List.mem_cons_self)) hwnd
    simp only [List.map_cons, hwithin]
    split_ifs <;> simp [wrap, hunsent]

theorem nothingFits_wrap {wnd : ℕ} (h : ∀ seg ∈ pcb.unsent, seg.Nearby pcb.lastack)
    (hwnd : wnd < 2 ^ 16) : pcb.wrap.nothingFits wnd = pcb.nothingFits wnd := by
  simp only [nothingFits, wrap_unsent]
  cases hunsent : pcb.unsent with
  | nil => rfl
  | cons seg q =>
    have hwithin := within_wrap (h seg (by rw [hunsent]; exact List.mem_cons_self)) hwnd
    simp only [List.map_cons, hwithin]

theorem outputLoop_fields (wnd : ℕ) (unsent : List (Seg ℤ)) (pcb : Pcb ℤ) :
    (outputLoop wnd unsent pcb).1.lastack = pcb.lastack ∧
      (outputLoop wnd unsent pcb).1.sndWnd = pcb.sndWnd ∧
      ∀ seg ∈ (outputLoop wnd unsent pcb).1.unsent, seg ∈ unsent := by
  induction unsent generalizing pcb with
  | nil => exact ⟨rfl, rfl, by simp [outputLoop]⟩
  | cons seg unsent ih =>
    rw [outputLoop]
    split
    · split
      · obtain ⟨hlastack, hwnd, hsub⟩ := ih (pcb.sendSeg seg)
        exact ⟨hlastack, hwnd, fun x hx => List.mem_cons_of_mem _ (hsub x hx)⟩
      · exact ⟨rfl, rfl, fun _ h => h⟩
    · exact ⟨rfl, rfl, fun _ h => h⟩

/-- `tcp_output` compares the queue with what is acknowledged. -/
theorem tcpOutput_wrap (h : pcb.Nearby pcb.queue) (hwnd : pcb.sndWnd < 2 ^ 16) (alloc : Bool) :
    pcb.wrap.tcpOutput alloc = wrapOut (pcb.tcpOutput alloc) := by
  have hmin : min pcb.sndWnd pcb.cwnd < 2 ^ 16 := (min_le_left _ _).trans_lt hwnd
  have hunsent : ∀ seg ∈ pcb.unsent, seg.Nearby pcb.lastack :=
    fun seg hseg => h.each seg (List.mem_append_right _ hseg)
  have hunacked : pcb.Nearby pcb.unacked :=
    ⟨fun seg hseg => h.each seg (List.mem_append_left _ hseg), h.sndNxt⟩
  have hloop := outputLoop_wrap hmin pcb.unsent pcb hunacked hunsent
  obtain ⟨hlastack, hwnd', hsub⟩ := outputLoop_fields (min pcb.sndWnd pcb.cwnd) pcb.unsent pcb
  have hdone : (outputLoop (min pcb.sndWnd pcb.cwnd) pcb.unsent pcb).1.wrap.outputDone = _ :=
    outputDone_wrap (fun seg hseg => hlastack ▸ hunsent seg (hsub seg hseg)) (by rw [hwnd']; exact hwnd)
  simp only [tcpOutput, wrap_sndWnd, wrap_cwnd, wrap_ackNow, nothingFits_wrap hunsent hmin,
    tcpSendEmptyAck_wrap]
  split_ifs
  · rfl
  · rw [wrap_unsent, hloop]
    exact Prod.ext hdone rfl

theorem tcpOutput_wrap_of_nil (h : pcb.unsent = []) (alloc : Bool) :
    pcb.wrap.tcpOutput alloc = wrapOut (pcb.tcpOutput alloc) := by
  simp only [tcpOutput, nothingFits, wrap_unsent, wrap_ackNow, h, List.map_nil,
    tcpSendEmptyAck_wrap]
  split_ifs <;> rfl

/-! ### The queues are not far from what is acknowledged -/

theorem Holds.nearby {s top : ℤ} {q : List (Seg ℤ)} (h : pcb.Holds s top q) : pcb.Nearby q := by
  have hmss : pcb.mss ≤ 1460 := h.mss.2
  have hbuf := h.buf
  have hsize : (sndBufSize : ℤ) = 5840 := rfl
  have htop : top ≤ pcb.sndLbb + 1 := by
    rcases h.top_eq with heq | ⟨-, heq⟩ <;> omega
  have hnxt := h.sndNxt_le
  have hlastack := h.lastack_le
  refine ⟨fun seg hseg => ?_, by omega, by omega⟩
  obtain ⟨hpos, hlen, hend⟩ := h.each seg hseg
  have hle := h.tiles.seqEnd_le seg hseg
  have htcplen : seg.tcplen ≤ seg.len + 1 := by
    rw [Seg.tcplen]
    split <;> omega
  rw [Seg.seqEnd, add_int] at hend hle
  exact ⟨by omega, by omega, by omega⟩

theorem Good.nearby (h : pcb.Good) : pcb.Nearby pcb.queue ∧ pcb.sndWnd < 2 ^ 16 := by
  obtain ⟨s, top, hq, -⟩ := h
  exact ⟨hq.nearby, hq.sndWnd⟩

theorem OneOut.nearby (h : pcb.OneOut) : pcb.Nearby pcb.queue ∧ pcb.sndWnd < 2 ^ 16 := by
  obtain ⟨s, top, seg, us, hunsent, hq, -⟩ := h
  have hnear := hq.nearby
  refine ⟨⟨fun x hx => hnear.each x ?_, hnear.sndNxt⟩, hq.sndWnd⟩
  rw [queue, hunsent] at hx
  simp only [List.mem_append, List.mem_cons, List.cons_append] at hx ⊢
  tauto

theorem Sound.tcpOutput_wrap (h : pcb.Sound) (alloc : Bool) :
    pcb.wrap.tcpOutput alloc = wrapOut (pcb.tcpOutput alloc) := by
  rcases h with hgood | hwaits
  · exact Pcb.tcpOutput_wrap hgood.nearby.1 hgood.nearby.2 alloc
  · exact tcpOutput_wrap_of_nil hwaits.2.2 alloc

/-! ### Timers -/

theorem Good.tcpRexmitRto_wrap (h : pcb.Good) (alloc : Bool) :
    pcb.wrap.tcpRexmitRto alloc = wrapOut (pcb.tcpRexmitRto alloc) := by
  obtain ⟨hnear, hwnd⟩ := h.nearby
  simp only [Pcb.tcpRexmitRto, wrap_unacked, List.map_eq_nil_iff]
  split_ifs
  · rfl
  · have hmoved : { pcb with
        unsent := pcb.unacked ++ pcb.unsent
        unacked := []
        nrtx := (pcb.nrtx + 1) % 2 ^ 8 }.Nearby (pcb.unacked ++ pcb.unsent) :=
      ⟨hnear.each, hnear.sndNxt⟩
    rw [← Pcb.tcpOutput_wrap hmoved hwnd alloc]
    simp [wrap]

theorem Good.tcpSlowtmr_wrap (h : pcb.Good) (rto : ℤ) (stray : Byte) (alloc : Bool) :
    pcb.wrap.tcpSlowtmr rto stray alloc = wrapOut (pcb.tcpSlowtmr rto stray alloc) := by
  have hcount : pcb.countRtime.Good := h.same ⟨⟨rfl, id⟩, rfl, rfl⟩
  have hrexmit := hcount.slowStart.tcpRexmitRto_wrap alloc
  have hrtime : pcb.wrap.countRtime.rtime = pcb.countRtime.rtime := rfl
  have hdue : pcb.wrap.persistDue = pcb.persistDue := rfl
  simp only [Pcb.tcpSlowtmr, wrap_persistBackoff, wrap_persistCnt, wrap_unacked, ne_eq,
    List.map_eq_nil_iff, hrtime, hdue]
  split_ifs
  · exact tcpZeroWindowProbe_wrap { pcb with
      persistCnt := 0
      persistBackoff := pcb.persistBackoff + 1 } stray alloc
  · exact tcpZeroWindowProbe_wrap { pcb with
      persistCnt := 0
      persistBackoff := pcb.persistBackoff } stray alloc
  · rfl
  · exact hrexmit
  · rfl

theorem Sound.tcpFasttmr_wrap (h : pcb.Sound) (alloc : Bool) :
    pcb.wrap.tcpFasttmr alloc = wrapOut (pcb.tcpFasttmr alloc) := by
  have hnow : { pcb with ackNow := true }.Sound := h.of_same ⟨⟨rfl, id⟩, rfl, rfl⟩ rfl
  have hout : ({ pcb.wrap with ackNow := true } : Pcb (BitVec 32)).tcpOutput alloc = _ :=
    hnow.tcpOutput_wrap alloc
  rw [Pcb.tcpFasttmr, Pcb.tcpFasttmr]
  change (if pcb.ackDelay = true then _ else _) = _
  split
  · exact congrArg (fun out => ({ out.1 with ackDelay := false, ackNow := false }, out.2)) hout
  · rfl

/-- A control block that is removed has empty queues. -/
theorem tcpPcbRemove_wrap (pcb : Pcb ℤ) (alloc : Bool) :
    pcb.wrap.tcpPcbRemove alloc = wrapOut (pcb.tcpPcbRemove alloc) := by
  simp only [tcpPcbRemove, wrap_state, wrap_ackDelay, tcpPcbPurge_wrap]
  split
  · rename_i hdelay
    have hnil : { pcb.tcpPcbPurge with ackNow := true }.unsent = [] := by
      rw [tcpPcbPurge, if_neg hdelay.1]
    exact tcpOutput_wrap_of_nil hnil alloc
  · rfl

end Pcb

end Tcp
end Lwip
