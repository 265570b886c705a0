import Teensy3.Lwip.TcpAck

/-!
# The queues in every step of one end

Whatever an application does in its calls and callbacks, whichever timers run and whatever segments
come in, the queues of a connection stay in order, as long as no segment takes back window that was
granted and none sets an MSS that is smaller than what is queued.

* `Pcb.Sound`: the invariant of a connection, which has empty queues in `TIME_WAIT`;
* `Pcb.Admits`: the condition on a segment that comes in;
* `Sound.tcpProcess`: the queues after `tcp_process`;
* `sound_retry`, `sound_afterProcess`: the callbacks;
* `sound_input`, `sound_localStep`: a segment that comes in, and everything else.
-/

namespace Lwip
namespace Tcp

open SeqNo

namespace Pcb

/-! ### Incoming data -/

theorem tcpUpdateRcvAnnWnd_eq (pcb : Pcb ℤ) :
    ∃ ann, pcb.tcpUpdateRcvAnnWnd.1 = { pcb with rcvAnnWnd := ann } := by
  rw [tcpUpdateRcvAnnWnd]
  split
  · exact ⟨_, rfl⟩
  · split <;> exact ⟨_, rfl⟩

theorem tcpAck_eq (pcb : Pcb ℤ) :
    ∃ delay now, pcb.tcpAck = { pcb with ackDelay := delay, ackNow := now } := by
  rw [tcpAck]
  split
  · exact ⟨_, _, rfl⟩
  · exact ⟨_, pcb.ackNow, rfl⟩

/-- Accepting data moves the window, and changes what is announced and acknowledged. -/
theorem accept_eq (pcb : Pcb ℤ) (p : List (List Byte)) (fin : Bool) :
    ∃ wnd ann delay now, (pcb.accept p fin).pcb = { pcb with
      rcvNxt := add pcb.rcvNxt
        ((pcb.accept p fin).data.length + if (pcb.accept p fin).gotFin then 1 else 0 : ℕ)
      rcvWnd := wnd
      rcvAnnWnd := ann
      ackDelay := delay
      ackNow := now } := by
  set n := (pcb.accept p fin).data.length + if (pcb.accept p fin).gotFin then 1 else 0 with hn
  obtain ⟨ann, hupdate⟩ := (pcb.advance n).tcpUpdateRcvAnnWnd_eq
  obtain ⟨delay, now, hack⟩ := (pcb.advance n).tcpUpdateRcvAnnWnd.1.tcpAck_eq
  refine ⟨pcb.rcvWnd - n, ann, delay, now, hack.trans ?_⟩
  rw [hupdate]
  rfl

theorem tcpRecved_eq (pcb : Pcb ℤ) (len : ℕ) :
    ∃ wnd ann now, (pcb.tcpRecved len).1 =
      { pcb with rcvWnd := wnd, rcvAnnWnd := ann, ackNow := now } := by
  obtain ⟨ann, hupdate⟩ := { pcb with
    rcvWnd := min ((pcb.rcvWnd + len) % 2 ^ 16) wndSize }.tcpUpdateRcvAnnWnd_eq
  rw [tcpRecved]
  dsimp only
  rw [hupdate]
  split
  · exact ⟨_, ann, true, rfl⟩
  · exact ⟨_, ann, pcb.ackNow, rfl⟩

theorem sameSend_accept (pcb : Pcb ℤ) (p : List (List Byte)) (fin : Bool) :
    SameSend pcb (pcb.accept p fin).pcb := by
  obtain ⟨wnd, ann, delay, now, heq⟩ := pcb.accept_eq p fin
  rw [heq]
  exact ⟨⟨rfl, id⟩, rfl, rfl⟩

theorem sameSend_tcpRecved (pcb : Pcb ℤ) (len : ℕ) : SameSend pcb (pcb.tcpRecved len).1 := by
  obtain ⟨wnd, ann, now, heq⟩ := pcb.tcpRecved_eq len
  rw [heq]
  exact ⟨⟨rfl, id⟩, rfl, rfl⟩

theorem sameSend_receiveData (pcb : Pcb ℤ) (seg : InSeg ℤ) (tcplen : ℕ) (alloc : Bool) :
    SameSend pcb (pcb.receiveData seg tcplen alloc).pcb := by
  rw [receiveData]
  split
  · split
    · dsimp only
      split
      · exact sameSend_accept _ _ _
      · exact sameSend_tcpSendEmptyAck _ _
    · have hnow : SameSend pcb (pcb.ackOld seg.seqno) := ⟨⟨rfl, id⟩, rfl, rfl⟩
      dsimp only
      split
      · exact hnow.trans (sameSend_accept _ _ _)
      · exact hnow.trans (sameSend_tcpSendEmptyAck _ _)
  · split
    · exact SameSend.refl pcb
    · exact ⟨⟨rfl, id⟩, rfl, rfl⟩

theorem receiveData_of_empty (pcb : Pcb ℤ) (seg : InSeg ℤ) (alloc : Bool) :
    (pcb.receiveData seg 0 alloc).data = [] ∧ (pcb.receiveData seg 0 alloc).gotFin = false := by
  rw [receiveData, if_neg (lt_irrefl 0)]
  split <;> exact ⟨rfl, rfl⟩

/-! ### The states -/

/-- In `TIME_WAIT` nothing is queued. -/
def Waits (pcb : Pcb ℤ) : Prop := pcb.state = .timeWait ∧ pcb.unacked = [] ∧ pcb.unsent = []

/-- The invariant of a connection. -/
def Sound (pcb : Pcb ℤ) : Prop := pcb.Good ∨ pcb.Waits

theorem Waits.of_eq {pcb pcb' : Pcb ℤ} (h : pcb.Waits) (hstate : pcb'.state = pcb.state)
    (hunacked : pcb'.unacked = pcb.unacked) (hunsent : pcb'.unsent = pcb.unsent) : pcb'.Waits :=
  ⟨hstate.trans h.1, hunacked.trans h.2.1, hunsent.trans h.2.2⟩

theorem waits_timeWait {pcb : Pcb ℤ} (h : pcb.state ≠ .timeWait) : pcb.timeWait.Waits := by
  rw [timeWait, tcpPcbPurge, if_neg h]
  exact ⟨rfl, rfl, rfl⟩

/-- A transition keeps the queues, or gives them up. -/
theorem transition_cases (r : Received ℤ) (seg : InSeg ℤ) :
    (SameSend r.pcb (transition r seg).1.pcb ∨ (transition r seg).1.pcb.Waits) ∧
      (transition r seg).1.data = r.data ∧ (transition r seg).1.gotFin = r.gotFin := by
  have hsame : ∀ next ackNow, (next = .established ∨ next = .closeWait → r.pcb.isOpen = true) →
      SameSend r.pcb { r.pcb with ackNow := ackNow, state := next } := by
    intro next ackNow hopen
    exact ⟨⟨rfl, fun h => hopen (of_decide_eq_true h)⟩, rfl, rfl⟩
  rw [transition]
  cases hstate : r.pcb.state with
  | established =>
    dsimp only
    split
    · exact ⟨.inl (hsame _ _ fun _ => by simp [isOpen, hstate]), rfl, rfl⟩
    · exact ⟨.inl (SameSend.refl _), rfl, rfl⟩
  | closeWait =>
    dsimp only
    split
    · exact ⟨.inl (hsame _ _ fun _ => by simp [isOpen, hstate]), rfl, rfl⟩
    · exact ⟨.inl (SameSend.refl _), rfl, rfl⟩
  | finWait1 =>
    dsimp only
    split
    · split
      · exact ⟨.inr (waits_timeWait (by simp)), rfl, rfl⟩
      · exact ⟨.inl (hsame _ _ (by simp)), rfl, rfl⟩
    · split
      · exact ⟨.inl (hsame .finWait2 r.pcb.ackNow (by simp)), rfl, rfl⟩
      · exact ⟨.inl (SameSend.refl _), rfl, rfl⟩
  | finWait2 =>
    dsimp only
    split
    · exact ⟨.inr (waits_timeWait (by simp)), rfl, rfl⟩
    · exact ⟨.inl (SameSend.refl _), rfl, rfl⟩
  | closing =>
    dsimp only
    split
    · exact ⟨.inr (waits_timeWait (by simp [hstate])), rfl, rfl⟩
    · exact ⟨.inl (SameSend.refl _), rfl, rfl⟩
  | lastAck =>
    dsimp only
    split <;> exact ⟨.inl (SameSend.refl _), rfl, rfl⟩
  | timeWait => exact ⟨.inl (SameSend.refl _), rfl, rfl⟩

section

variable {σ : Type} [SeqNo σ] [DecidableEq σ]

/-- The control block when the data of a segment is looked at. -/
def beforeData (pcb : Pcb σ) (seg : InSeg σ) : Pcb σ :=
  if seg.ack then (pcb.tcpParseopt seg.opts).receiveAck seg seg.tcplen else pcb.tcpParseopt seg.opts

theorem tcpReceive_tcpParseopt (pcb : Pcb σ) (seg : InSeg σ) (alloc : Bool) :
    (pcb.tcpParseopt seg.opts).tcpReceive seg alloc =
      (pcb.beforeData seg).receiveData seg seg.tcplen alloc := rfl

/-- The options of the segment, if they are looked at, do not set an MSS that is too small for what
is queued. -/
def KeepsMss (pcb : Pcb σ) (seg : InSeg σ) : Prop :=
  seg.rst = false → seg.syn = false → ∀ x ∈ pcb.queue, x.len ≤ parseMss 0 seg.opts pcb.mss

instance (pcb : Pcb σ) (seg : InSeg σ) : Decidable (pcb.KeepsMss seg) :=
  inferInstanceAs (Decidable (_ → _ → ∀ x ∈ _, _))

/-- The segment does not take back window, if it acknowledges anything. -/
def KeepsWindow (pcb : Pcb σ) (seg : InSeg σ) : Prop :=
  pcb.state ≠ .timeWait → seg.ack = true → seg.rst = false → seg.syn = false → pcb.NotShrunk seg

instance (pcb : Pcb σ) (seg : InSeg σ) : Decidable (pcb.KeepsWindow seg) :=
  inferInstanceAs (Decidable (_ → _ → _ → _ → _))

/-- What must be known of a segment that is processed. -/
def Admits (pcb : Pcb σ) (seg : InSeg σ) : Prop := pcb.KeepsMss seg ∧ pcb.KeepsWindow seg

instance (pcb : Pcb σ) (seg : InSeg σ) : Decidable (pcb.Admits seg) :=
  inferInstanceAs (Decidable (_ ∧ _))

end

/-- What `tcp_process` does: it looks at the flags only, or at the options in `TIME_WAIT`, or at the
whole segment. -/
theorem tcpProcess_cases (pcb : Pcb ℤ) (seg : InSeg ℤ) (alloc : Bool) :
    (∃ delay now fate, pcb.tcpProcess seg alloc =
      (⟨{ pcb with ackDelay := delay, ackNow := now }, [], false, []⟩, fate)) ∨
    (seg.rst = false ∧ seg.syn = false ∧ pcb.state = .timeWait ∧
      pcb.tcpProcess seg alloc = (⟨pcb.tcpParseopt seg.opts, [], false, []⟩, .alive)) ∨
    (seg.rst = false ∧ seg.syn = false ∧ pcb.state ≠ .timeWait ∧
      pcb.tcpProcess seg alloc =
        transition ((pcb.beforeData seg).receiveData seg seg.tcplen alloc) seg) := by
  rw [Pcb.tcpProcess]
  split
  · split
    · exact .inl ⟨false, pcb.ackNow, .reset, rfl⟩
    · exact .inl ⟨pcb.ackDelay, pcb.ackNow, .alive, rfl⟩
  · rename_i hrst
    split
    · exact .inl ⟨pcb.ackDelay, true, .alive, rfl⟩
    · rename_i hsyn
      have hflags : seg.rst = false ∧ seg.syn = false := by simpa using And.intro hrst hsyn
      split
      · rename_i hwait
        exact .inr (.inl ⟨hflags.1, hflags.2, hwait, rfl⟩)
      · rename_i hstate
        exact .inr (.inr ⟨hflags.1, hflags.2, hstate, by rw [tcpReceive_tcpParseopt]⟩)

theorem Good.tcpParseopt {pcb : Pcb ℤ} (h : pcb.Good) {seg : InSeg ℤ}
    (hmss : ∀ x ∈ pcb.queue, x.len ≤ parseMss 0 seg.opts pcb.mss) :
    (pcb.tcpParseopt seg.opts).Good := by
  obtain ⟨s, top, hq, hw⟩ := h
  refine ⟨s, top, { hq with each := fun x hx => ?_, mss := parseMss_range 0 _ hq.mss }, hw⟩
  obtain ⟨hpos, -, hend⟩ := hq.each x hx
  exact ⟨hpos, hmss x hx, hend⟩

/-- The queues when the data of a segment is looked at. -/
theorem Good.beforeData {pcb : Pcb ℤ} (h : pcb.Good) {seg : InSeg ℤ} (hadmits : pcb.Admits seg)
    (hrst : seg.rst = false) (hsyn : seg.syn = false) (hstate : pcb.state ≠ .timeWait) :
    (pcb.beforeData seg).Good ∨ (pcb.beforeData seg).OneOut ∧ seg.tcplen = 0 := by
  have hopts := h.tcpParseopt (hadmits.1 hrst hsyn)
  rw [Pcb.beforeData]
  split
  · rename_i hack
    exact hopts.receiveAck (hadmits.2 hstate hack hrst hsyn) _
  · exact .inl hopts

/-- The queues after `tcp_process`; a segment waits to be transmitted again only if there is nothing
to be told to the application. -/
theorem Good.tcpProcess {pcb : Pcb ℤ} (h : pcb.Good) {seg : InSeg ℤ} (hadmits : pcb.Admits seg)
    (alloc : Bool) :
    (pcb.tcpProcess seg alloc).1.pcb.Sound ∨
      (pcb.tcpProcess seg alloc).1.pcb.OneOut ∧ (pcb.tcpProcess seg alloc).1.data = [] ∧
        (pcb.tcpProcess seg alloc).1.gotFin = false := by
  rcases tcpProcess_cases pcb seg alloc with
    ⟨delay, now, fate, heq⟩ | ⟨hrst, hsyn, -, heq⟩ | ⟨hrst, hsyn, hstate, heq⟩ <;> rw [heq]
  · exact .inl (.inl (h.same ⟨⟨rfl, id⟩, rfl, rfl⟩))
  · exact .inl (.inl (h.tcpParseopt (hadmits.1 hrst hsyn)))
  · set x := pcb.beforeData seg with hx
    have hsame := sameSend_receiveData x seg seg.tcplen alloc
    obtain ⟨hcases, hdata, hfin⟩ := transition_cases (x.receiveData seg seg.tcplen alloc) seg
    rcases hcases with htrans | hwaits
    · rcases h.beforeData hadmits hrst hsyn hstate with hgood | ⟨hout, hempty⟩
      · exact .inl (.inl (hgood.same (hsame.trans htrans)))
      · obtain ⟨hdata', hfin'⟩ := receiveData_of_empty x seg alloc
        rw [hempty] at hsame htrans hdata hfin ⊢
        exact .inr ⟨hout.same (hsame.trans htrans), hdata.trans hdata', hfin.trans hfin'⟩
    · exact .inl (.inr hwaits)

/-- In `TIME_WAIT` nothing is received. -/
theorem Waits.tcpProcess {pcb : Pcb ℤ} (h : pcb.Waits) (seg : InSeg ℤ) (alloc : Bool) :
    (pcb.tcpProcess seg alloc).1.pcb.Waits := by
  rcases tcpProcess_cases pcb seg alloc with
    ⟨delay, now, fate, heq⟩ | ⟨-, -, -, heq⟩ | ⟨-, -, hstate, -⟩
  · rw [heq]
    exact h
  · rw [heq]
    exact h
  · exact absurd h.1 hstate

theorem Sound.tcpProcess {pcb : Pcb ℤ} (h : pcb.Sound) {seg : InSeg ℤ} (hadmits : pcb.Admits seg)
    (alloc : Bool) :
    (pcb.tcpProcess seg alloc).1.pcb.Sound ∨
      (pcb.tcpProcess seg alloc).1.pcb.OneOut ∧ (pcb.tcpProcess seg alloc).1.data = [] ∧
        (pcb.tcpProcess seg alloc).1.gotFin = false := by
  rcases h with hgood | hwaits
  · exact hgood.tcpProcess hadmits alloc
  · exact .inl (.inr (hwaits.tcpProcess seg alloc))

theorem Sound.of_same {pcb pcb' : Pcb ℤ} (h : pcb.Sound) (hs : SameSend pcb pcb')
    (hstate : pcb'.state = pcb.state) : pcb'.Sound :=
  h.imp (fun hgood => hgood.same hs) fun hwaits => hwaits.of_eq hstate hs.unacked hs.unsent

theorem Waits.tcpOutput {pcb : Pcb ℤ} (h : pcb.Waits) (alloc : Bool) :
    (pcb.tcpOutput alloc).1.Waits := by
  have hempty : (pcb.tcpSendEmptyAck alloc).1.Waits := by
    rw [tcpSendEmptyAck]
    split <;> exact h
  obtain ⟨hstate, hunacked, hunsent⟩ := h
  rw [Pcb.tcpOutput]
  split
  · exact hempty
  · rw [hunsent]
    exact ⟨hstate, hunacked, rfl⟩

theorem Sound.tcpOutput {pcb : Pcb ℤ} (h : pcb.Sound) (alloc : Bool) :
    (pcb.tcpOutput alloc).1.Sound :=
  h.imp (fun hgood => hgood.tcpOutput alloc) fun hwaits => hwaits.tcpOutput alloc

/-- All that closing does: the connection is reset, or the send side closed if it is open. -/
theorem tcpCloseShutdown_cases (pcb : Pcb ℤ) (rstOnUnackedData alloc : Bool) :
    pcb.tcpCloseShutdown rstOnUnackedData alloc =
        ((pcb.timeWait, tcpRst pcb.sndNxt pcb.rcvNxt alloc), false) ∨
    (∃ next, pcb.isOpen = true ∧ (next ≠ .established ∧ next ≠ .closeWait) ∧
      pcb.tcpCloseShutdown rstOnUnackedData alloc =
        (((pcb.sendFinAndEnter next alloc).1, []), (pcb.sendFinAndEnter next alloc).2)) ∨
    pcb.tcpCloseShutdown rstOnUnackedData alloc = ((pcb, []), false) := by
  rw [Pcb.tcpCloseShutdown]
  split
  · exact .inl rfl
  · cases hstate : pcb.state with
    | established => exact .inr (.inl ⟨.finWait1, by simp [isOpen, hstate], by simp, rfl⟩)
    | closeWait => exact .inr (.inl ⟨.lastAck, by simp [isOpen, hstate], by simp, rfl⟩)
    | finWait1 => exact .inr (.inr rfl)
    | finWait2 => exact .inr (.inr rfl)
    | closing => exact .inr (.inr rfl)
    | lastAck => exact .inr (.inr rfl)
    | timeWait => exact .inr (.inr rfl)

theorem Sound.good {pcb : Pcb ℤ} (h : pcb.Sound) (hopen : pcb.isOpen = true) : pcb.Good := by
  refine h.resolve_right fun hwaits => ?_
  simp [isOpen, hwaits.1] at hopen

theorem Sound.tcpCloseShutdown {pcb : Pcb ℤ} (h : pcb.Sound) (rstOnUnackedData alloc : Bool) :
    (pcb.tcpCloseShutdown rstOnUnackedData alloc).1.1.Sound := by
  rcases tcpCloseShutdown_cases pcb rstOnUnackedData alloc with
    heq | ⟨next, hopen, hnext, heq⟩ | heq <;> rw [heq]
  · by_cases hstate : pcb.state = .timeWait
    · dsimp only
      rw [timeWait, tcpPcbPurge, if_pos hstate]
      exact h.of_same ⟨⟨rfl, fun hopen => by simp [isOpen] at hopen⟩, rfl, rfl⟩ hstate.symm
    · exact .inr (waits_timeWait hstate)
  · exact .inl ((h.good hopen).sendFinAndEnter hopen hnext alloc)
  · exact h

theorem Sound.tcpWrite {pcb : Pcb ℤ} (h : pcb.Sound) (data : List Byte) (copy more : Bool)
    (alloc : ℕ → Bool) : (pcb.tcpWrite data copy more alloc).2.Sound := by
  rcases tcpWrite_cases pcb data copy more alloc with ⟨-, heq | heq⟩ | ⟨_, _, hopen, -⟩
  · rw [heq]
    exact h
  · rw [heq]
    exact h.of_same ⟨⟨rfl, id⟩, rfl, rfl⟩ rfl
  · exact .inl ((h.good hopen).tcpWrite data copy more alloc)

theorem Sound.tcpRecved {pcb : Pcb ℤ} (h : pcb.Sound) (len : ℕ) : (pcb.tcpRecved len).1.Sound := by
  refine h.of_same (sameSend_tcpRecved pcb len) ?_
  obtain ⟨wnd, ann, now, heq⟩ := pcb.tcpRecved_eq len
  rw [heq]

theorem Sound.shutRxSide {pcb : Pcb ℤ} (h : pcb.Sound) (shutRx : Bool) :
    (pcb.shutRxSide shutRx).Sound := by
  cases shutRx with
  | true => exact h.of_same ⟨⟨rfl, id⟩, rfl, rfl⟩ rfl
  | false => exact h

theorem Sound.tcpShutdown {pcb : Pcb ℤ} (h : pcb.Sound) (shutRx shutTx alloc : Bool) :
    (pcb.tcpShutdown shutRx shutTx alloc).1.1.Sound := by
  rw [Pcb.tcpShutdown]
  split
  · exact (h.shutRxSide shutRx).tcpCloseShutdown false alloc
  · exact h.shutRxSide shutRx

theorem Sound.tcpTimewaitInput {pcb : Pcb ℤ} (h : pcb.Sound) (seg : InSeg ℤ) (alloc : Bool) :
    (pcb.tcpTimewaitInput seg alloc).1.Sound := by
  rw [Pcb.tcpTimewaitInput]
  split
  · exact h
  · split
    · exact h
    · split
      · refine Sound.tcpOutput ?_ alloc
        exact h.of_same ⟨⟨rfl, id⟩, rfl, rfl⟩ rfl
      · exact h

theorem Sound.tcpKeepalive {pcb : Pcb ℤ} (h : pcb.Sound) (alloc : Bool) :
    (pcb.tcpKeepalive alloc).1.Sound := by
  rw [Pcb.tcpKeepalive]
  split
  · exact h.of_same ⟨⟨rfl, id⟩, rfl, rfl⟩ rfl
  · exact h

theorem Sound.tcpFasttmr {pcb : Pcb ℤ} (h : pcb.Sound) (alloc : Bool) :
    (pcb.tcpFasttmr alloc).1.Sound := by
  rw [Pcb.tcpFasttmr]
  split
  · have hnow : { pcb with ackNow := true }.Sound := h.of_same ⟨⟨rfl, id⟩, rfl, rfl⟩ rfl
    exact (hnow.tcpOutput alloc).of_same ⟨⟨rfl, id⟩, rfl, rfl⟩ rfl
  · exact h

end Pcb

/-! ### Calls and callbacks -/

namespace Endpoint

/-- A connection that has not ended has sound queues. -/
def Sound (e : Endpoint ℤ) : Prop := e.fate = .alive → e.pcb.Sound

theorem sound_of_pcb {e : Endpoint ℤ} (h : e.pcb.Sound) : e.Sound := fun _ => h

theorem Sound.andThen {e : Endpoint ℤ} {next : Endpoint ℤ → Endpoint ℤ} (h : e.Sound)
    (hnext : ∀ x : Endpoint ℤ, x.pcb.Sound → (next x).Sound) : (e.andThen next).Sound := by
  rw [Endpoint.andThen]
  split
  · rename_i halive
    exact hnext e (h halive)
  · exact h

theorem fate_tcpAbandon {σ : Type} [SeqNo σ] (e : Endpoint σ) (reset allocAck alloc : Bool) :
    (e.tcpAbandon reset allocAck alloc).fate = .aborted := by
  rw [tcpAbandon]
  split <;> rfl

theorem sound_tcpAbandon (e : Endpoint ℤ) (reset allocAck alloc : Bool) :
    (e.tcpAbandon reset allocAck alloc).Sound := by
  intro halive
  rw [fate_tcpAbandon] at halive
  simp at halive

/-- A call of the application keeps the queues sound. -/
theorem sound_call {e : Endpoint ℤ} (h : e.pcb.Sound) (c : AppCall) : (e.call c).1.pcb.Sound := by
  cases c with
  | write data copy more alloc =>
    have hwrite := h.tcpWrite data copy more alloc
    rw [call]
    split
    · rename_i pcb heq
      rw [heq] at hwrite
      exact hwrite
    · rename_i err pcb hne heq
      rw [heq] at hwrite
      exact hwrite
  | output => exact h
  | recved len => exact h.tcpRecved len
  | nagle disable => exact h.of_same ⟨⟨rfl, id⟩, rfl, rfl⟩ rfl
  | close alloc =>
    refine Pcb.Sound.tcpCloseShutdown ?_ true alloc
    exact h.of_same ⟨⟨rfl, id⟩, rfl, rfl⟩ rfl
  | shutdown shutRx shutTx alloc => exact h.tcpShutdown shutRx shutTx alloc

theorem sound_callNow {e : Endpoint ℤ} (h : e.pcb.Sound) (c : AppCall) (alloc : Bool) :
    (e.callNow c alloc).pcb.Sound := by
  have hcall := sound_call h c
  rw [callNow]
  split
  · exact hcall.tcpOutput alloc
  · exact hcall

theorem sound_calls {e : Endpoint ℤ} (h : e.pcb.Sound) (cs : List (AppCall × Bool)) :
    (e.calls cs).pcb.Sound := by
  induction cs generalizing e with
  | nil => exact h
  | cons c cs ih => exact ih (sound_call h c.1)

theorem sound_callsNow {e : Endpoint ℤ} (h : e.pcb.Sound) (cs : List (AppCall × Bool)) :
    (e.callsNow cs).pcb.Sound := by
  induction cs generalizing e with
  | nil => exact h
  | cons c cs ih => exact ih (sound_callNow h c.1 c.2)

/-- Passing on what was refused keeps the queues sound. -/
theorem sound_retry {e : Endpoint ℤ} (h : e.pcb.Sound) (cb : Callback) : (e.retry cb).Sound := by
  have hcalls := sound_callsNow h cb.calls
  rw [retry, redeliver]
  split
  · exact sound_of_pcb h
  · cases cb.result with
    | ok => exact sound_of_pcb (hcalls.of_same ⟨⟨rfl, id⟩, rfl, rfl⟩ rfl)
    | err => exact sound_of_pcb hcalls
    | abrt allocAck alloc => exact sound_tcpAbandon _ true allocAck alloc

theorem sound_callback {e : Endpoint ℤ} (h : e.pcb.Sound) (cb : Callback) : (e.callback cb).Sound := by
  have hcalls := sound_of_pcb (sound_calls h cb.calls)
  rw [callback]
  split
  · exact sound_tcpAbandon _ true false _
  · exact hcalls

theorem sound_onSent {e : Endpoint ℤ} (h : e.pcb.Sound) (cb : Callback) : (e.onSent cb).Sound := by
  rw [onSent]
  split
  · exact sound_callback h cb
  · exact sound_of_pcb h

theorem sound_onRecv {e : Endpoint ℤ} (h : e.pcb.Sound) (data : List Byte) (cb : Callback)
    (alloc : Bool) : (e.onRecv data cb alloc).Sound := by
  have hcalls := sound_calls h cb.calls
  rw [onRecv]
  split
  · exact sound_of_pcb h
  · split
    · exact sound_tcpAbandon _ true false alloc
    · dsimp only
      split
      · exact sound_of_pcb hcalls
      · exact sound_of_pcb (hcalls.of_same ⟨⟨rfl, id⟩, rfl, rfl⟩ rfl)
      · exact sound_tcpAbandon _ true false _

theorem sound_onFin {e : Endpoint ℤ} (h : e.pcb.Sound) (gotFin : Bool) (cb : Callback) :
    (e.onFin gotFin cb).Sound := by
  rw [onFin]
  split
  · refine sound_callback ?_ cb
    exact h.of_same ⟨⟨rfl, id⟩, rfl, rfl⟩ rfl
  · exact sound_of_pcb h

/-- Without data and with nothing acknowledged, `tcp_input` only calls `tcp_output`. -/
theorem afterProcess_of_empty {σ : Type} [SeqNo σ] {e : Endpoint σ} (hacked : e.pcb.acked = 0)
    (cbs : Callbacks) (alloc : Bool) :
    e.afterProcess [] false cbs alloc = e.andThen fun e => e.emit (e.pcb.tcpOutput alloc) := by
  have hsent : e.onSent cbs.sent = e := by rw [onSent, hacked, if_neg (lt_irrefl 0)]
  have hrecv : ∀ x : Endpoint σ, x.onRecv [] cbs.recv alloc = x := fun x => if_pos rfl
  have hfin : ∀ x : Endpoint σ, x.onFin false cbs.closed = x := fun x => if_neg (by simp)
  have hsame : ∀ x : Endpoint σ, (x.andThen fun x => x) = x := fun x => ite_self x
  rw [afterProcess, hsent]
  simp only [hrecv, hfin, hsame]

/-- What `tcp_input` does after `tcp_process`. -/
theorem sound_afterProcess {e : Endpoint ℤ} {data : List Byte} {gotFin : Bool}
    (h : e.pcb.Sound ∨ e.pcb.OneOut ∧ data = [] ∧ gotFin = false) (cbs : Callbacks) (alloc : Bool)
    (halive : e.fate = .alive) : (e.afterProcess data gotFin cbs alloc).Sound := by
  rcases h with hsound | ⟨hout, rfl, rfl⟩
  · have hsent := sound_onSent hsound cbs.sent
    have hrecv := hsent.andThen fun _ h => sound_onRecv h data cbs.recv alloc
    have hfin := hrecv.andThen fun _ h => sound_onFin h gotFin cbs.closed
    exact hfin.andThen fun _ h => sound_of_pcb (h.tcpOutput alloc)
  · -- nothing is told to the application, and the segment goes out again
    rw [afterProcess_of_empty hout.acked, andThen, if_pos halive]
    exact sound_of_pcb (.inl (Pcb.Ready.tcpOutput (.inr hout) alloc))

theorem sound_process {e : Endpoint ℤ} (h : e.pcb.Sound) {seg : InSeg ℤ}
    (hadmits : e.pcb.Admits seg) (cbs : Callbacks) (alloc : Bool) (halive : e.fate = .alive) :
    (e.process seg cbs alloc).Sound := by
  have hprocess := h.tcpProcess hadmits alloc
  rw [process]
  dsimp only
  split
  · exact sound_afterProcess (e := e.emit ((e.pcb.tcpProcess seg alloc).1.pcb,
      (e.pcb.tcpProcess seg alloc).1.out)) hprocess cbs alloc halive
  · rename_i hended
    exact fun halive => absurd halive hended

/-! ### Runs of one end -/

section

variable {σ : Type} [SeqNo σ] [DecidableEq σ]

/-- The state in which a segment is processed: what was refused has been passed on again. -/
def retried (e : Endpoint σ) (cbs : Callbacks) : Endpoint σ :=
  if e.pcb.state = .timeWait then e else e.retry cbs.again

/-- The condition on an event: a segment that is processed takes no window back, and sets no MSS
that is too small. -/
def Admits (e : Endpoint σ) : EndEvent σ → Prop
  | .own _ => True
  | .segment seg cbs _ => (e.retried cbs).fate = .alive → (e.retried cbs).pcb.Admits seg

instance (e : Endpoint σ) : (ev : EndEvent σ) → Decidable (e.Admits ev)
  | .own _ => .isTrue trivial
  | .segment seg cbs _ => inferInstanceAs (Decidable (_ → (e.retried cbs).pcb.Admits seg))

end

theorem sound_input {e : Endpoint ℤ} (h : e.pcb.Sound) {seg : InSeg ℤ} {cbs : Callbacks}
    (hadmits : (e.retried cbs).fate = .alive → (e.retried cbs).pcb.Admits seg) (alloc : Bool) :
    (e.input seg cbs alloc).Sound := by
  have hretry := sound_retry h cbs.again
  rw [input]
  split
  · exact sound_of_pcb (h.tcpTimewaitInput seg alloc)
  · rename_i hstate
    rw [retried, if_neg hstate] at hadmits
    split
    · exact hretry
    · rw [andThen]
      split
      · rename_i halive
        exact sound_process (hretry halive) (hadmits halive) cbs alloc halive
      · exact hretry

theorem sound_localStep {e : Endpoint ℤ} (h : e.pcb.Sound) (ev : LocalEvent) :
    (e.localStep ev).Sound := by
  cases ev with
  | call c alloc => exact sound_of_pcb (sound_callNow h c alloc)
  | abandon reset allocAck alloc => exact sound_tcpAbandon e reset allocAck alloc
  | slowtmr rto stray alloc =>
    rw [localStep]
    split
    · exact sound_of_pcb h
    · rename_i hstate
      have hgood : e.pcb.Good := h.resolve_right fun hwaits => hstate hwaits.1
      split
      · exact sound_tcpAbandon e false false alloc
      · exact sound_of_pcb (.inl (hgood.tcpSlowtmr rto stray alloc))
  | keepalive alloc =>
    rw [localStep]
    split
    · exact sound_of_pcb (h.tcpKeepalive alloc)
    · exact sound_of_pcb h
  | fasttmr cb alloc =>
    rw [localStep]
    split
    · exact sound_of_pcb h
    · exact (sound_retry h cb).andThen fun _ h => sound_of_pcb (h.tcpFasttmr alloc)

end Endpoint

theorem sound_fresh (iss irs : ℤ) (params : Params) : (Endpoint.fresh iss irs params).Sound := by
  refine fun _ => .inl ⟨iss, iss, ?_, by simp [Pcb.Windowed, Endpoint.fresh, Pcb.fresh]⟩
  exact {
    tiles := rfl
    start := le_refl _
    each := by simp [Endpoint.fresh, Pcb.fresh, Pcb.queue]
    lastack_le := le_refl _
    sndNxt_le := le_refl _
    top_eq := .inl rfl
    fin := by simp [Endpoint.fresh, Pcb.fresh, Pcb.queue]
    buf := rfl
    queuelen := rfl
    queuelen_le := Nat.zero_le _
    mss := ⟨params.mss_pos, params.mss_le⟩
    cwnd := params.cwnd_lt
    ssthresh := params.ssthresh_lt
    sndWnd := params.sndWnd_lt }

end Tcp
end Lwip
