import Teensy3.Lwip.TcpContent

/-!
# What the steps of a connection cannot undo

Nothing is accepted of a segment but what starts at the byte that was expected.  Calls and output
receive nothing, what an application has written stays written, and after it has closed nothing is
added.

* `Takes`: what `tcp_receive` passes on of an incoming segment, with `takes_tcpProcess`;
* `Grown`: the stream that is written only grows;
* `Quiet`: nothing is received, and what was refused is kept or discarded, with one lemma for each
  operation;
* `grown_localStep`, `grown_input`: every step of one end.
-/

namespace Lwip
namespace Tcp

open SeqNo

/-! ### What is accepted of a segment -/

/-- Nothing is accepted of the segment `seqno`, `d`, `fin`, or a part of it that starts at the byte
that was expected. -/
def Takes (rcvNxt seqno : ℤ) (d : List Byte) (fin : Bool) (r : Pcb.Received ℤ) : Prop :=
  (r.data = [] ∧ r.gotFin = false ∧ r.pcb.rcvNxt = rcvNxt) ∨
    ∃ m : ℕ, m ≤ d.length ∧ seqno + m = rcvNxt ∧ r.data <+: d.drop m ∧
      (r.gotFin = true → fin = true ∧ r.data = d.drop m) ∧
      r.pcb.rcvNxt = rcvNxt + r.data.length + if r.gotFin then 1 else 0

section

variable (pcb : Pcb ℤ)

/-- The data is cut off at the end of the window, and then its `FIN` does not count. -/
theorem fitting_spec (p : List (List Byte)) (fin : Bool) :
    (pcb.fitting p fin).1.flatten <+: p.flatten ∧
      ((pcb.fitting p fin).2 = true → fin = true ∧ (pcb.fitting p fin).1.flatten = p.flatten) ∧
      (pcb.fitting p fin).1.flatten.length + (if (pcb.fitting p fin).2 then 1 else 0) ≤ pcb.rcvWnd := by
  by_cases hover : pcb.rcvWnd < p.flatten.length + (if fin then 1 else 0)
  · rw [Pcb.fitting, if_pos hover, flatten_pbufRealloc]
    refine ⟨List.take_prefix _ _, fun h => absurd h (by simp), ?_⟩
    simp
  · rw [Pcb.fitting, if_neg hover]
    exact ⟨List.prefix_refl _, fun h => ⟨h, rfl⟩, not_lt.1 hover⟩

/-- The next segment is accepted up to the end of the window. -/
theorem accept_spec (p : List (List Byte)) (fin : Bool) :
    (pcb.accept p fin).data <+: p.flatten ∧
      ((pcb.accept p fin).gotFin = true → fin = true ∧ (pcb.accept p fin).data = p.flatten) ∧
      (pcb.accept p fin).pcb.rcvNxt = pcb.rcvNxt + (pcb.accept p fin).data.length +
        if (pcb.accept p fin).gotFin then 1 else 0 := by
  obtain ⟨hpre, hfin, -⟩ := fitting_spec pcb p fin
  refine ⟨hpre, hfin, ?_⟩
  obtain ⟨wnd, ann, delay, now, heq⟩ := pcb.accept_eq p fin
  rw [heq, add_int]
  push_cast
  omega

/-- The second half of `tcp_receive`. -/
theorem takes_receiveData (seg : InSeg ℤ) (hsyn : seg.syn = false) (alloc : Bool) :
    Takes pcb.rcvNxt seg.seqno seg.p.flatten seg.fin (pcb.receiveData seg seg.tcplen alloc) := by
  have hempty : ∀ x : Pcb ℤ, x.rcvNxt = pcb.rcvNxt → (x.tcpSendEmptyAck alloc).1.rcvNxt = pcb.rcvNxt := by
    intro x hx
    rw [Pcb.tcpSendEmptyAck]
    split <;> exact hx
  have htcplen : seg.tcplen = seg.p.flatten.length + if seg.fin then 1 else 0 := by
    rw [InSeg.tcplen, hsyn, Bool.or_false]
  rw [Pcb.receiveData]
  split
  · split
    · rename_i hbetween
      -- the segment starts before the expected byte and goes beyond it
      have hrange := between_int.1 hbetween
      simp only [add_int] at hrange
      have hm : ((pcb.rcvNxt - seg.seqno).toNat : ℤ) = pcb.rcvNxt - seg.seqno :=
        Int.toNat_of_nonneg (by omega)
      dsimp only
      split
      · obtain ⟨hdata, hfin, hnxt⟩ := accept_spec pcb
          (trimFront (diff pcb.rcvNxt seg.seqno) seg.p) seg.fin
        rw [flatten_trimFront, diff_int] at hdata hfin
        refine .inr ⟨(pcb.rcvNxt - seg.seqno).toNat, ?_, by omega, hdata, hfin, hnxt⟩
        rw [htcplen] at hrange
        split at hrange <;> omega
      · exact .inl ⟨rfl, rfl, hempty _ rfl⟩
    · dsimp only
      split
      · rename_i hnext
        obtain ⟨hdata, hfin, hnxt⟩ := accept_spec (pcb.ackOld seg.seqno) seg.p seg.fin
        have heq : pcb.rcvNxt = seg.seqno := hnext.2
        refine .inr ⟨0, Nat.zero_le _, by simp [heq], ?_, ?_, hnxt⟩
        · rwa [List.drop_zero]
        · rwa [List.drop_zero]
      · exact .inl ⟨rfl, rfl, hempty _ rfl⟩
  · split <;> exact .inl ⟨rfl, rfl, rfl⟩

/-- The first half of `tcp_receive`, and the transitions, do not touch what is accepted. -/
theorem takes_tcpProcess (seg : InSeg ℤ) (hsyn : seg.syn = false) (alloc : Bool) :
    Takes pcb.rcvNxt seg.seqno seg.p.flatten seg.fin (pcb.tcpProcess seg alloc).1 := by
  rcases Pcb.tcpProcess_cases pcb seg alloc with
    ⟨delay, now, fate, heq⟩ | ⟨-, -, -, heq⟩ | ⟨-, -, -, heq⟩ <;> rw [heq]
  · exact .inl ⟨rfl, rfl, rfl⟩
  · exact .inl ⟨rfl, rfl, rfl⟩
  · have hnxt := (weaker_beforeData pcb seg).rcvNxt
    set x := pcb.beforeData seg with hx
    have htakes := takes_receiveData x seg hsyn alloc
    obtain ⟨-, hdata, hfin⟩ := Pcb.transition_cases (x.receiveData seg seg.tcplen alloc) seg
    have htrans := (weaker_transition (x.receiveData seg seg.tcplen alloc) seg).1.rcvNxt
    rw [hnxt] at htakes
    rwa [Takes, hdata, hfin, htrans]

/-- A segment without data and flags, or one for a connection in `TIME_WAIT`, passes nothing on. -/
theorem tcpProcess_of_empty (seg : InSeg ℤ) (alloc : Bool)
    (h : seg.tcplen = 0 ∨ pcb.state = .timeWait) :
    (pcb.tcpProcess seg alloc).1.data = [] ∧ (pcb.tcpProcess seg alloc).1.gotFin = false := by
  rcases Pcb.tcpProcess_cases pcb seg alloc with
    ⟨delay, now, fate, heq⟩ | ⟨-, -, -, heq⟩ | ⟨-, -, hstate, heq⟩ <;> rw [heq]
  · exact ⟨rfl, rfl⟩
  · exact ⟨rfl, rfl⟩
  · set x := pcb.beforeData seg with hx
    obtain ⟨-, hdata, hfin⟩ := Pcb.transition_cases (x.receiveData seg seg.tcplen alloc) seg
    rw [hdata, hfin, h.resolve_right hstate]
    exact Pcb.receiveData_of_empty x seg alloc

end

/-! ### Steps that receive nothing -/

/-- The stream only grows, and not after it was closed. -/
structure Grown (e e' : Endpoint ℤ) : Prop where
  written : e.written <+: e'.written
  closed : e.pcb.isOpen = false → e'.pcb.isOpen = false ∧ e'.written = e.written

/-- What was refused is still there, or it is gone, and this is on record. -/
def Refused (e e' : Endpoint ℤ) : Prop :=
  e'.pcb.refusedData = e.pcb.refusedData ∧ e'.discarded = e.discarded ∨
    e.pcb.refusedData ≠ [] ∧ e'.pcb.refusedData = [] ∧ e'.discarded = true

/-- Nothing is received, either. -/
structure Quiet (e e' : Endpoint ℤ) : Prop extends Grown e e' where
  calm : Calm e.pcb e'.pcb
  refused : Refused e e'
  rcvNxt : e'.pcb.rcvNxt = e.pcb.rcvNxt
  received : e'.received = e.received
  gotFin : e'.gotFin = e.gotFin
  fate : e'.fate = e.fate

theorem Grown.refl (e : Endpoint ℤ) : Grown e e := ⟨List.prefix_refl _, fun h => ⟨h, rfl⟩⟩

theorem Grown.trans {x y z : Endpoint ℤ} (hxy : Grown x y) (hyz : Grown y z) : Grown x z := by
  refine ⟨hxy.written.trans hyz.written, fun h => ?_⟩
  obtain ⟨hy, hwy⟩ := hxy.closed h
  obtain ⟨hz, hwz⟩ := hyz.closed hy
  exact ⟨hz, hwz.trans hwy⟩

theorem Grown.andThen {x e : Endpoint ℤ} {next : Endpoint ℤ → Endpoint ℤ} (h : Grown x e)
    (hnext : ∀ y : Endpoint ℤ, Grown y (next y)) : Grown x (e.andThen next) := by
  rw [Endpoint.andThen]
  split
  · exact h.trans (hnext e)
  · exact h

/-- The same stream. -/
theorem grown_of_eq {e e' : Endpoint ℤ} (hwritten : e'.written = e.written)
    (hopen : e'.pcb.isOpen = true → e.pcb.isOpen = true) : Grown e e' := by
  refine ⟨hwritten ▸ List.prefix_refl _, fun h => ⟨?_, hwritten⟩⟩
  by_contra hne
  rw [hopen (by simpa using hne)] at h
  simp at h

theorem Refused.trans {x y z : Endpoint ℤ} (hxy : Refused x y) (hyz : Refused y z) : Refused x z := by
  rcases hxy with ⟨hrefused, hdiscarded⟩ | ⟨hne, hnil, hgone⟩
  · rwa [Refused, ← hrefused, ← hdiscarded]
  · rcases hyz with ⟨hrefused, hdiscarded⟩ | ⟨hne', -⟩
    · exact .inr ⟨hne, hrefused.trans hnil, hdiscarded.trans hgone⟩
    · exact absurd hnil hne'

theorem refused_setPcb {e : Endpoint ℤ} {pcb : Pcb ℤ}
    (h : pcb.refusedData = e.pcb.refusedData ∨ pcb.refusedData = []) : Refused e (e.setPcb pcb) := by
  by_cases hnil : e.pcb.refusedData = []
  · refine .inl ⟨?_, ?_⟩
    · exact h.elim id fun h => h.trans hnil.symm
    · simp [Endpoint.setPcb, hnil]
  · rcases h with h | h
    · refine .inl ⟨h, ?_⟩
      simp [Endpoint.setPcb, h]
    · refine .inr ⟨hnil, h, ?_⟩
      have hsome : e.pcb.refusedData.isEmpty = false := by simpa using hnil
      simp [Endpoint.setPcb, h, hsome]

theorem Quiet.refl (e : Endpoint ℤ) : Quiet e e :=
  ⟨Grown.refl e, .of_eq rfl rfl rfl, .inl ⟨rfl, rfl⟩, rfl, rfl, rfl, rfl⟩

theorem Quiet.trans {x y z : Endpoint ℤ} (hxy : Quiet x y) (hyz : Quiet y z) : Quiet x z where
  toGrown := hxy.toGrown.trans hyz.toGrown
  calm := hxy.calm.trans hyz.calm
  refused := hxy.refused.trans hyz.refused
  rcvNxt := hyz.rcvNxt.trans hxy.rcvNxt
  received := hyz.received.trans hxy.received
  gotFin := hyz.gotFin.trans hxy.gotFin
  fate := hyz.fate.trans hxy.fate

/-- Another control block, and packets that are sent. -/
theorem quiet_emit_of_calm {e : Endpoint ℤ} {out : Pcb ℤ × List (Packet ℤ)}
    (hopen : out.1.isOpen = true → e.pcb.isOpen = true) (hcalm : Calm e.pcb out.1)
    (hnxt : out.1.rcvNxt = e.pcb.rcvNxt) : Quiet e (e.emit out) where
  toGrown := grown_of_eq rfl hopen
  calm := hcalm
  refused := refused_setPcb (hcalm.refusedData.imp id And.left)
  rcvNxt := hnxt
  received := rfl
  gotFin := rfl
  fate := rfl

theorem quiet_emit {e : Endpoint ℤ} {out : Pcb ℤ × List (Packet ℤ)} (h : Sends e.pcb out) :
    Quiet e (e.emit out) :=
  quiet_emit_of_calm h.1.isOpen h.1.toCalm h.1.rcvNxt

/-- Changes that have nothing to do with what is received. -/
theorem quiet_of_eq {e : Endpoint ℤ} {pcb : Pcb ℤ} (hstate : pcb.state = e.pcb.state)
    (hrx : pcb.rxClosed = e.pcb.rxClosed) (hrefused : pcb.refusedData = e.pcb.refusedData)
    (hnxt : pcb.rcvNxt = e.pcb.rcvNxt) : Quiet e { e with pcb := pcb } where
  toGrown := grown_of_eq rfl fun h => by rwa [Pcb.isOpen, hstate] at h
  calm := .of_eq hstate hrx hrefused
  refused := .inl ⟨hrefused, rfl⟩
  rcvNxt := hnxt
  received := rfl
  gotFin := rfl
  fate := rfl

/-- Closing keeps what was received, unless it resets the connection. -/
theorem calm_tcpCloseShutdown (pcb : Pcb ℤ) (rstOnUnackedData alloc : Bool) :
    ((pcb.tcpCloseShutdown rstOnUnackedData alloc).1.1.isOpen = true → pcb.isOpen = true) ∧
      Calm pcb (pcb.tcpCloseShutdown rstOnUnackedData alloc).1.1 ∧
      (pcb.tcpCloseShutdown rstOnUnackedData alloc).1.1.rcvNxt = pcb.rcvNxt := by
  have hkeep : ∀ x : Pcb ℤ, pcb.isOpen = true → x.rxClosed = pcb.rxClosed →
      x.refusedData = pcb.refusedData → x.rcvNxt = pcb.rcvNxt →
      (x.isOpen = true → pcb.isOpen = true) ∧ Calm pcb x ∧ x.rcvNxt = pcb.rcvNxt := by
    intro x hopen hrx hrefused hnxt
    refine ⟨fun _ => hopen, ⟨fun h => hrx.trans h, fun h => ?_, .inl hrefused⟩, hnxt⟩
    simp [Pcb.isOpen, h] at hopen
  rcases Pcb.tcpCloseShutdown_cases pcb rstOnUnackedData alloc with
    heq | ⟨next, hopen, -, heq⟩ | heq <;> rw [heq]
  · have hwait := weaker_timeWait pcb
    exact ⟨hwait.isOpen, hwait.toCalm, hwait.rcvNxt⟩
  · dsimp only
    rcases Pcb.sendFinAndEnter_cases pcb next alloc with
      (heq | heq) | ⟨-, heq⟩ | ⟨-, -, -, heq⟩ <;> rw [heq] <;> exact hkeep _ hopen rfl rfl rfl
  · exact ⟨id, .of_eq rfl rfl rfl, rfl⟩

theorem calm_shutRxSide (pcb : Pcb ℤ) (shutRx : Bool) : Calm pcb (pcb.shutRxSide shutRx) := by
  cases shutRx with
  | true => exact ⟨fun _ => rfl, fun h => h, .inr ⟨rfl, .inl rfl⟩⟩
  | false => exact .of_eq rfl rfl rfl

theorem calm_tcpShutdown (pcb : Pcb ℤ) (shutRx shutTx alloc : Bool) :
    ((pcb.tcpShutdown shutRx shutTx alloc).1.1.isOpen = true → pcb.isOpen = true) ∧
      Calm pcb (pcb.tcpShutdown shutRx shutTx alloc).1.1 ∧
      (pcb.tcpShutdown shutRx shutTx alloc).1.1.rcvNxt = pcb.rcvNxt := by
  have hrx := calm_shutRxSide pcb shutRx
  have hopen : (pcb.shutRxSide shutRx).isOpen = pcb.isOpen := by cases shutRx <;> rfl
  have hnxt : (pcb.shutRxSide shutRx).rcvNxt = pcb.rcvNxt := by cases shutRx <;> rfl
  rw [Pcb.tcpShutdown]
  split
  · obtain ⟨hopen', hcalm, hnxt'⟩ := calm_tcpCloseShutdown (pcb.shutRxSide shutRx) false alloc
    exact ⟨fun h => hopen ▸ hopen' h, hrx.trans hcalm, hnxt'.trans hnxt⟩
  · exact ⟨fun h => hopen ▸ h, hrx, hnxt⟩

theorem quiet_call (e : Endpoint ℤ) (c : AppCall) : Quiet e (e.call c).1 := by
  cases c with
  | write data copy more alloc =>
    rw [Endpoint.call]
    rcases Pcb.tcpWrite_cases e.pcb data copy more alloc with
      ⟨hne, hpcb⟩ | ⟨segs, queuelen, hopen, -, -, -, heq⟩
    · have hquiet : Quiet e { e with pcb := (e.pcb.tcpWrite data copy more alloc).2 } := by
        rcases hpcb with hpcb | hpcb <;> (rw [hpcb]; exact quiet_of_eq rfl rfl rfl rfl)
      split
      · rename_i pcb heq
        rw [heq] at hne
        exact absurd rfl hne
      · rename_i err pcb _ heq
        rw [heq] at hquiet
        exact hquiet
    · rw [heq]
      refine ⟨⟨List.prefix_append _ _, fun hclosed => ?_⟩, .of_eq rfl rfl rfl, .inl ⟨rfl, rfl⟩,
        rfl, rfl, rfl, rfl⟩
      simp [hopen] at hclosed
  | output => exact Quiet.refl e
  | recved len =>
    obtain ⟨wnd, ann, now, heq⟩ := e.pcb.tcpRecved_eq len
    rw [Endpoint.call, heq]
    exact quiet_of_eq rfl rfl rfl rfl
  | nagle disable => exact quiet_of_eq rfl rfl rfl rfl
  | close alloc =>
    obtain ⟨hopen, hcalm, hnxt⟩ :=
      calm_tcpCloseShutdown { e.pcb with rxClosed := true } true alloc
    refine quiet_emit_of_calm hopen (Calm.trans ?_ hcalm) hnxt
    exact ⟨fun _ => rfl, fun h => h, .inl rfl⟩
  | shutdown shutRx shutTx alloc =>
    obtain ⟨hopen, hcalm, hnxt⟩ := calm_tcpShutdown e.pcb shutRx shutTx alloc
    exact quiet_emit_of_calm hopen hcalm hnxt

theorem quiet_callNow (e : Endpoint ℤ) (c : AppCall) (alloc : Bool) : Quiet e (e.callNow c alloc) := by
  rw [Endpoint.callNow]
  split
  · exact (quiet_call e c).trans (quiet_emit (sends_tcpOutput _ alloc))
  · exact quiet_call e c

theorem quiet_calls (e : Endpoint ℤ) (cs : List (AppCall × Bool)) : Quiet e (e.calls cs) := by
  induction cs generalizing e with
  | nil => exact Quiet.refl e
  | cons c cs ih => exact (quiet_call e c.1).trans (ih _)

theorem quiet_callsNow (e : Endpoint ℤ) (cs : List (AppCall × Bool)) : Quiet e (e.callsNow cs) := by
  induction cs generalizing e with
  | nil => exact Quiet.refl e
  | cons c cs ih => exact (quiet_callNow e c.1 c.2).trans (ih _)

/-! ### Every step -/

section

variable (e : Endpoint ℤ)

theorem grown_tcpAbandon (reset allocAck alloc : Bool) :
    Grown e (e.tcpAbandon reset allocAck alloc) := by
  rw [Endpoint.tcpAbandon]
  split
  · exact grown_of_eq rfl id
  · exact grown_of_eq rfl (fewer_tcpPcbRemove e.pcb allocAck).1.isOpen

theorem grown_retry (cb : Callback) : Grown e (e.retry cb) := by
  have hcalls := (quiet_callsNow e cb.calls).toGrown
  have htaken : Grown e ((e.callsNow cb.calls).takeRefused e.pcb.refusedData) :=
    hcalls.trans (grown_of_eq rfl id)
  rw [Endpoint.retry, Endpoint.redeliver]
  split
  · exact Grown.refl e
  · cases cb.result with
    | ok => exact htaken
    | err => exact hcalls
    | abrt allocAck alloc => exact htaken.trans (grown_tcpAbandon _ true allocAck alloc)

theorem grown_callback (cb : Callback) : Grown e (e.callback cb) := by
  have hcalls := (quiet_calls e cb.calls).toGrown
  rw [Endpoint.callback]
  split
  · exact hcalls.trans (grown_tcpAbandon _ true false _)
  · exact hcalls

theorem grown_onSent (cb : Callback) : Grown e (e.onSent cb) := by
  rw [Endpoint.onSent]
  split
  · exact grown_callback e cb
  · exact Grown.refl e

theorem grown_onRecv (data : List Byte) (cb : Callback) (alloc : Bool) :
    Grown e (e.onRecv data cb alloc) := by
  have hcalls := (quiet_calls e cb.calls).toGrown
  have htaken : Grown e
      { e.calls cb.calls with received := (e.calls cb.calls).received ++ data } :=
    hcalls.trans (grown_of_eq rfl id)
  rw [Endpoint.onRecv]
  split
  · exact Grown.refl e
  · split
    · exact grown_tcpAbandon e true false alloc
    · dsimp only
      split
      · exact htaken
      · exact hcalls.trans (grown_of_eq rfl id)
      · exact htaken.trans (grown_tcpAbandon _ true false _)

theorem grown_onFin (gotFin : Bool) (cb : Callback) : Grown e (e.onFin gotFin cb) := by
  rw [Endpoint.onFin]
  split
  · have htaken : Grown e e.finTaken := grown_of_eq rfl id
    exact htaken.trans (grown_callback _ cb)
  · exact Grown.refl e

theorem grown_afterProcess (data : List Byte) (gotFin : Bool) (cbs : Callbacks) (alloc : Bool) :
    Grown e (e.afterProcess data gotFin cbs alloc) := by
  have hsent := grown_onSent e cbs.sent
  have hrecv := hsent.andThen fun x => grown_onRecv x data cbs.recv alloc
  have hfin := hrecv.andThen fun x => grown_onFin x gotFin cbs.closed
  exact hfin.andThen fun x => (quiet_emit (sends_tcpOutput x.pcb alloc)).toGrown

theorem grown_process (seg : InSeg ℤ) (cbs : Callbacks) (alloc : Bool) :
    Grown e (e.process seg cbs alloc) := by
  have hprocess : Grown e (e.emit ((e.pcb.tcpProcess seg alloc).1.pcb,
      (e.pcb.tcpProcess seg alloc).1.out)) :=
    grown_of_eq rfl (fewer_tcpProcess e.pcb seg alloc).1.isOpen
  rw [Endpoint.process]
  dsimp only
  split
  · exact hprocess.trans (grown_afterProcess _ _ _ cbs alloc)
  · exact hprocess.trans (grown_of_eq rfl (fewer_tcpPcbPurge _).isOpen)

theorem grown_input (seg : InSeg ℤ) (cbs : Callbacks) (alloc : Bool) :
    Grown e (e.input seg cbs alloc) := by
  have hretry := grown_retry e cbs.again
  rw [Endpoint.input]
  split
  · exact (quiet_emit (sends_tcpTimewaitInput _ seg alloc)).toGrown
  · split
    · exact hretry
    · exact hretry.andThen fun x => grown_process x seg cbs alloc

theorem grown_localStep {ev : LocalEvent} (hprobe : e.ProbesRight ev) :
    Grown e (e.localStep ev) := by
  cases ev with
  | call c alloc => exact (quiet_callNow e c alloc).toGrown
  | abandon reset allocAck alloc => exact grown_tcpAbandon e reset allocAck alloc
  | slowtmr rto stray alloc =>
    rw [Endpoint.localStep]
    split
    · exact Grown.refl e
    · split
      · exact grown_tcpAbandon e false false alloc
      · exact (quiet_emit (sends_tcpSlowtmr _ rto hprobe alloc)).toGrown
  | keepalive alloc =>
    rw [Endpoint.localStep]
    split
    · exact (quiet_emit (sends_tcpKeepalive _ alloc)).toGrown
    · exact Grown.refl e
  | fasttmr cb alloc =>
    rw [Endpoint.localStep]
    split
    · exact Grown.refl e
    · exact (grown_retry e cb).andThen fun x => (quiet_emit (sends_tcpFasttmr x.pcb alloc)).toGrown

end

end Tcp
end Lwip
