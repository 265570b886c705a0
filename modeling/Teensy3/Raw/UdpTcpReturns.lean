import Mathlib.Tactic
import Teensy3.Lib.Run
import Teensy3.Enet.RxRing
import Teensy3.Raw.UdpTcp

/-!
# `udp_tcp` returns

If the sketch goes on, and the peer does not leave an answer out for ever, `udp_tcp` returns,
however many other frames come in.  While it polls, there is a datagram in the receive ring at some
time, and every call of `check_rx` brings it one place nearer to its head.

* `work`: what is left to be done apart from polling;
* `distance`: how far `UDP_buff` is from the next datagram;
* `udpTcp_returns`: the termination of `udp_tcp`;
* `takingTurns`: a peer that answers at once, which is fair;
* `udp_tcp_window`: the window protocol.
-/

namespace Raw

open ByteMem Machine Enet

/-! ### The frames that wait -/

section Waiting

variable {r : RxState}

theorem waiting_of_order {r' : RxState} (hr : RxInv r) (hr' : RxInv r')
    (hhanded : r'.handed = r.handed) (hstored : r'.stored = r.stored) : r'.waiting = r.waiting := by
  have horder := hr'.order
  rw [hhanded, hstored, ← hr.order] at horder
  exact List.append_cancel_left horder

theorem waiting_store (hr : RxInv r) (f : List Byte) (status : BitVec 16) :
    ∃ fs, (r.store f status).waiting = r.waiting ++ fs := by
  obtain ⟨-, hhanded, hstored⟩ := store_keeps r f status
  have hr' := rxInv_store f status hr
  rcases hstored with hstored | hstored
  · exact ⟨[], by rw [waiting_of_order hr hr' hhanded hstored, List.append_nil]⟩
  · refine ⟨[f], ?_⟩
    have horder := hr'.order
    rw [hhanded, hstored, ← hr.order, List.append_assoc] at horder
    exact List.append_cancel_left horder

theorem waiting_hand {hd : Handler} (hr : RxInv r) (hpc : r.pc = .full hd) :
    r.waiting = (r.ring r.rxnum).frame r.bufs :: (r.hand hd).waiting := by
  have horder : _ = r.stored := (rxInv_hand hd hr hpc).order
  have hhanded : (r.hand hd).handed.map Handed.frame =
      r.handed.map Handed.frame ++ [(r.ring r.rxnum).frame r.bufs] := by
    simp [RxState.hand]
  rw [hhanded, ← hr.order, List.append_assoc] at horder
  exact (List.append_cancel_left horder).symm

/-- If a frame waits, `check_rx` finds it. -/
theorem poll_of_waiting (hr : RxInv r) (hidle : r.pc = .idle) (hne : r.waiting ≠ []) (hd : Handler) :
    (r.poll hd).pc = .full hd := by
  have hheld : r.slots.held ≠ [] := by
    simpa [RxState.waiting, hidle, RxState.full] using hne
  have hfull : owner0 (r.ring r.rxnum).flags = true := SlotRing.head_full_of_held hr.slots hheld
  rw [RxState.poll, if_pos hfull]

end Waiting

/-! ### What is left to be done -/

/-- The steps that are left, apart from polling. -/
def work (reps : ℕ) (s : UdpTcp) : ℕ :=
  match s.pc with
  | .entry => 9 * reps + 8
  | .blast => 9 * reps + 3 + (3 - s.i)
  | .loop => 5 * (reps - s.i) + 4 * (reps - s.acks) + 2
  | .poll true => 5 * (reps - s.i) + 4 * (reps - s.acks) + 1
  | .receive true => 5 * (reps - s.i) + 4 * (reps - s.acks)
  | .stamp true => 5 * (reps - s.i) + 4 * (reps - s.acks) - 1
  | .send => 5 * (reps - s.i) + 4 * (reps - s.acks) + 2
  | .drain => 4 * (reps - s.acks) + 1
  | .poll false => 4 * (reps - s.acks)
  | .receive false => 4 * (reps - s.acks) - 1
  | .stamp false => 4 * (reps - s.acks) - 2
  | .done => 0

section Work

variable (swUdpChksum : Bool) {reps : ℕ} {s : UdpTcp}

/-- The sketch is at the same point as in `s₀`. -/
def SamePoint (s₀ s : UdpTcp) : Prop := s.pc = s₀.pc ∧ s.i = s₀.i ∧ s.acks = s₀.acks

theorem work_of_samePoint {s₀ : UdpTcp} (h : SamePoint s₀ s) : work reps s = work reps s₀ := by
  obtain ⟨hpc, hi, hacks⟩ := h
  unfold work
  rw [hpc, hi, hacks]

/-- A step of the sketch leaves less to be done, unless it polls. -/
theorem work_sketch (h : UdpTcpInv reps s) (now : BitVec 32) (hdone : s.pc ≠ .done)
    (hpoll : ∀ inLoop, s.pc ≠ .poll inLoop) :
    work reps (s.sketch swUdpChksum reps now) < work reps s := by
  have hcounts := h.counts
  unfold UdpTcp.sketch
  split
  case h_1 hpc => simp [work, hpc]
  case h_2 hpc =>
    rw [hpc] at hcounts
    have hi := hcounts.1
    rw [wpkts] at hi
    split_ifs with hlt
    · rw [wpkts] at hlt
      simp only [work, UdpTcp.sendCount, hpc]
      omega
    · simp only [work, hpc]
      omega
  case h_3 hpc => split_ifs <;> simp [work, hpc]
  case h_4 inLoop hpc => exact absurd hpc (hpoll inLoop)
  case h_5 inLoop hpc =>
    rw [hpc] at hcounts
    cases inLoop with
    | true =>
      have hi := hcounts.1
      simp only [work, hpc]
      omega
    | false =>
      have hlt := hcounts.2.1
      simp only [work, hpc]
      omega
  case h_6 inLoop hpc =>
    rw [hpc] at hcounts
    cases inLoop with
    | true =>
      obtain ⟨hi, -, hacks, -⟩ := hcounts
      simp only [work, hpc, if_true]
      omega
    | false =>
      have hlt := hcounts.2.1
      simp only [work, hpc, Bool.false_eq_true, if_false]
      omega
  case h_7 hpc =>
    rw [hpc] at hcounts
    have hi := hcounts.1
    simp only [work, UdpTcp.sendCount, hpc]
    omega
  case h_8 hpc => split_ifs <;> simp [work, hpc]
  case h_9 hpc => exact absurd hpc hdone

/-- A step of the sketch in a polling loop. -/
theorem sketch_poll (reps : ℕ) {inLoop : Bool} (hpc : s.pc = .poll inLoop) (now : BitVec 32) :
    SamePoint s (s.sketch swUdpChksum reps now) ∨
      (s.rx.pc = .idle ∧ s.node.udpLth ≠ 0) ∧
        s.sketch swUdpChksum reps now = { s with pc := .receive inLoop } := by
  simp only [UdpTcp.sketch, hpc]
  split_ifs with hidle hroom
  · left
    unfold UdpTcp.checkRx
    split <;> exact ⟨rfl, rfl, rfl⟩
  · exact .inl ⟨hpc.symm, rfl, rfl⟩
  · exact .inr ⟨⟨by simpa using hidle, hroom⟩, rfl⟩

/-- Any step leaves less to be done, or the sketch is where it was. -/
theorem work_step (h : UdpTcpInv reps s) (e : UdpTcpEvent) :
    SamePoint s (s.step swUdpChksum reps e) ∨
      work reps (s.step swUdpChksum reps e) < work reps s := by
  cases e with
  | other f status =>
    simp only [UdpTcp.step]
    split_ifs <;> exact .inl ⟨rfl, rfl, rfl⟩
  | answer f status =>
    simp only [UdpTcp.step]
    split_ifs <;> exact .inl ⟨rfl, rfl, rfl⟩
  | sketch now =>
    by_cases hdone : s.pc = .done
    · left
      simp only [UdpTcp.step, UdpTcp.sketch, hdone]
      exact ⟨rfl, rfl, rfl⟩
    by_cases hpoll : ∀ inLoop, s.pc ≠ .poll inLoop
    · exact .inr (work_sketch swUdpChksum h now hdone hpoll)
    push Not at hpoll
    obtain ⟨inLoop, hpc⟩ := hpoll
    rcases sketch_poll swUdpChksum reps hpc now with hsame | ⟨-, heq⟩
    · exact .inl hsame
    · right
      have hcounts := h.counts
      rw [hpc] at hcounts
      simp only [UdpTcp.step, heq]
      cases inLoop with
      | true => simp [work, hpc]
      | false =>
        have hlt := hcounts.2.1
        simp only [work, hpc]
        omega

end Work

/-! ### Polling -/

/-- A datagram to `s` waits in the ring. -/
def isMail (s : UdpTcp) (f : List Byte) : Bool := IsUdp s.node.myaddress (mem f)

/-- The steps of `check_rx` until there is a datagram in `UDP_buff`, and until it returns then. -/
def distance (s : UdpTcp) : ℕ :=
  if s.node.udpLth = 0 then
    2 + 3 * s.rx.waiting.findIdx (isMail s) +
      match s.rx.pc with
      | .full _ => 0
      | .idle => 1
      | .giveBack => 2
  else if s.rx.pc = .idle then 0 else 1

section Distance

variable (swUdpChksum : Bool) {reps : ℕ} {s : UdpTcp}

theorem arrived_eq (h : RxInv s.rx) : s.arrived = s.taken ++ s.rx.waiting.filter (isMail s) := by
  rw [UdpTcp.arrived, ← h.order, List.filter_append]
  rfl

/-- More datagrams have arrived than were returned, exactly if there is one in `UDP_buff` or in
the ring. -/
theorem mail_iff (h : UdpTcpInv reps s) :
    s.returned.length < s.arrived.length ↔
      s.node.udpLth ≠ 0 ∨ ∃ f ∈ s.rx.waiting, isMail s f = true := by
  have htaken := congrArg List.length h.taken
  rw [List.length_map, List.length_append] at htaken
  rw [arrived_eq h.rx, List.length_append, htaken]
  by_cases hbox : s.node.udpLth = 0
  · rw [UdpTcp.mailbox, if_pos hbox]
    simp [hbox, List.length_pos_iff_exists_mem]
  · rw [UdpTcp.mailbox, if_neg hbox]
    simp [hbox]
    omega

/-- A store brings no datagram nearer, nor further away. -/
theorem distance_store (h : UdpTcpInv reps s) (hmail : s.returned.length < s.arrived.length)
    (f : List Byte) (status : BitVec 16) :
    distance { s with rx := s.rx.store f status } = distance s := by
  obtain ⟨fs, hwaiting⟩ := waiting_store h.rx f status
  have hpc := (store_keeps s.rx f status).1
  unfold distance
  by_cases hbox : s.node.udpLth = 0
  · have hmem := ((mail_iff h).1 hmail).resolve_left (not_not_intro hbox)
    have hidx : (s.rx.waiting ++ fs).findIdx (isMail s) = s.rx.waiting.findIdx (isMail s) := by
      rw [List.findIdx_append, if_pos (List.findIdx_lt_length.2 (by simpa using hmem))]
    have hsame : isMail { s with rx := s.rx.store f status } = isMail s := rfl
    simp only [hwaiting, hpc, hsame, hidx]
  · simp only [if_neg hbox, hpc]

theorem distance_hand {hd : Handler} (h : UdpTcpInv reps s) (hpc : s.rx.pc = .full hd) :
    distance s.checkRx < distance s := by
  have hroom := h.room hd hpc
  obtain ⟨hmin, hf⟩ := h.frames _ (frame_mem_stored h.rx hpc)
  have hsame : isMail { s with node := s.handled, rx := s.rx.hand hd } = isMail s := by
    funext f
    simp only [isMail, UdpTcp.handled, (handleFrame_keeps _ _ _).2]
  have hpc' : (s.rx.hand hd).pc = .giveBack := rfl
  rw [checkRx_hand hpc]
  unfold distance
  rw [if_pos hroom, waiting_hand h.rx hpc, hpc, hsame]
  by_cases hu : IsUdp s.node.myaddress (mem s.frame)
  · have hlth : s.handled.udpLth ≠ 0 := by
      have heq := (handleFrame_udp (s.rx.ring s.rx.rxnum).length.toNat
        ((isUdp_packet hmin _).2 hu)).2.1
      rw [UdpTcp.handled, heq, ← length_frame]
      omega
    rw [if_neg hlth, if_neg (by simp [hpc'])]
    omega
  · have hlth : s.handled.udpLth = 0 := by
      have hother := handleFrame_other (s.rx.ring s.rx.rxnum).length.toNat
        fun hp => hu ((isUdp_packet hmin _).1 hp)
      rw [UdpTcp.handled, hother.2.1, hroom]
    have hnot : isMail s ((s.rx.ring s.rx.rxnum).frame s.rx.bufs) = false := decide_eq_false hu
    rw [if_pos hlth, hpc', List.findIdx_cons, hnot]
    simp only [cond_false]
    omega

/-- A step of `check_rx` brings it nearer. -/
theorem distance_checkRx (h : UdpTcpInv reps s) (hne : s.rx.pc ≠ .idle) :
    distance s.checkRx < distance s := by
  cases hpc : s.rx.pc with
  | idle => exact absurd hpc hne
  | full hd => exact distance_hand h hpc
  | giveBack =>
    have hidle := giveBack_keeps s.rx
    have hwaiting := waiting_of_order h.rx (rxInv_giveBack h.rx hpc) hidle.2.2 hidle.2.1
    have hsame : isMail { s with rx := s.rx.giveBack } = isMail s := rfl
    rw [checkRx_giveBack hpc]
    unfold distance
    simp only [hidle.1, hwaiting, hsame, hpc]
    by_cases hbox : s.node.udpLth = 0
    · rw [if_pos hbox, if_pos hbox]
      omega
    · rw [if_neg hbox, if_neg hbox]
      simp

theorem distance_call (h : UdpTcpInv reps s) (hmail : s.returned.length < s.arrived.length)
    (hidle : s.rx.pc = .idle) (hroom : s.node.udpLth = 0) :
    distance { s with rx := rxStep s.rx (.call .checkRx) } < distance s := by
  have hmem := ((mail_iff h).1 hmail).resolve_left (not_not_intro hroom)
  have hne : s.rx.waiting ≠ [] := by
    obtain ⟨f, hf, -⟩ := hmem
    exact List.ne_nil_of_mem hf
  have hstep : rxStep s.rx (.call .checkRx) = s.rx.poll Poller.checkRx.handler := by
    simp only [rxStep, if_pos hidle]
  have hfull := poll_of_waiting h.rx hidle hne Poller.checkRx.handler
  have hkeep := poll_keeps s.rx Poller.checkRx.handler
  have hwaiting := waiting_of_order h.rx (rxInv_poll _ h.rx hidle) hkeep.2 hkeep.1
  have hsame : isMail { s with rx := s.rx.poll Poller.checkRx.handler } = isMail s := rfl
  rw [hstep]
  unfold distance
  rw [if_pos hroom, if_pos hroom]
  simp only [hfull, hwaiting, hidle, hsame]
  omega

end Distance

/-! ### Endless runs -/

section Returns

variable (swUdpChksum : Bool) {reps : ℕ} {s : UdpTcp}

/-- While the sketch polls and there is a datagram, any event brings it nearer or leaves it where it
is, and a step of the sketch brings it nearer or ends the polling. -/
theorem distance_step (h : UdpTcpInv reps s) (hmail : s.returned.length < s.arrived.length)
    {inLoop : Bool} (hpc : s.pc = .poll inLoop) (e : UdpTcpEvent) :
    (s.step swUdpChksum reps e).pc ≠ .poll inLoop ∨
      distance (s.step swUdpChksum reps e) < distance s ∨
      (∀ now, e ≠ .sketch now) ∧ distance (s.step swUdpChksum reps e) = distance s := by
  cases e with
  | other f status =>
    refine .inr (.inr ⟨by simp, ?_⟩)
    simp only [UdpTcp.step]
    split_ifs
    · exact distance_store h hmail f status
    · rfl
  | answer f status =>
    refine .inr (.inr ⟨by simp, ?_⟩)
    simp only [UdpTcp.step]
    split_ifs
    · exact distance_store h hmail f status
    · rfl
  | sketch now =>
    simp only [UdpTcp.step, UdpTcp.sketch, hpc]
    by_cases hidle : s.rx.pc = .idle
    · rw [if_neg (not_not_intro hidle)]
      split_ifs with hroom
      · exact .inr (.inl (distance_call h hmail hidle hroom))
      · exact .inl (by simp)
    · rw [if_pos hidle]
      exact .inr (.inl (distance_checkRx h hidle))

/-- The sketch changes neither the stored frames nor the address. -/
theorem stored_sketch (reps : ℕ) (now : BitVec 32) (s : UdpTcp) :
    (s.sketch swUdpChksum reps now).node.myaddress = s.node.myaddress ∧
      (s.sketch swUdpChksum reps now).rx.stored = s.rx.stored := by
  unfold UdpTcp.sketch
  split
  case h_4 inLoop hpc =>
    split_ifs with hidle hroom
    · cases hrx : s.rx.pc with
      | idle => exact absurd hrx hidle
      | full hd =>
        rw [checkRx_hand hrx]
        exact ⟨(handleFrame_keeps _ _ _).2, rfl⟩
      | giveBack =>
        rw [checkRx_giveBack hrx]
        exact ⟨rfl, (giveBack_keeps s.rx).2.1⟩
    · refine ⟨rfl, ?_⟩
      simp only [rxStep]
      split_ifs
      · exact (poll_keeps s.rx _).1
      · rfl
    · exact ⟨rfl, rfl⟩
  all_goals
    try split_ifs
    all_goals exact ⟨rfl, rfl⟩

/-- No step takes a stored frame back, or changes the address. -/
theorem stored_step (reps : ℕ) (s : UdpTcp) (e : UdpTcpEvent) :
    (s.step swUdpChksum reps e).node.myaddress = s.node.myaddress ∧
      ∃ fs, (s.step swUdpChksum reps e).rx.stored = s.rx.stored ++ fs := by
  have hstore : ∀ f status, ∃ fs, (s.rx.store f status).stored = s.rx.stored ++ fs := by
    intro f status
    rcases (store_keeps s.rx f status).2.2 with heq | heq
    · exact ⟨[], by rw [heq, List.append_nil]⟩
    · exact ⟨[f], heq⟩
  have hsame : ∀ r : RxState, r.stored = s.rx.stored → ∃ fs, r.stored = s.rx.stored ++ fs :=
    fun r hr => ⟨[], by rw [hr, List.append_nil]⟩
  cases e with
  | other f status =>
    simp only [UdpTcp.step]
    split_ifs
    · exact ⟨rfl, hstore f status⟩
    · exact ⟨rfl, hsame _ rfl⟩
  | answer f status =>
    simp only [UdpTcp.step]
    split_ifs
    · exact ⟨rfl, hstore f status⟩
    · exact ⟨rfl, hsame _ rfl⟩
  | sketch now =>
    obtain ⟨haddress, hstored⟩ := stored_sketch swUdpChksum reps now s
    exact ⟨haddress, hsame _ hstored⟩

theorem arrived_step (reps : ℕ) (s : UdpTcp) (e : UdpTcpEvent) :
    s.arrived.length ≤ (s.step swUdpChksum reps e).arrived.length := by
  obtain ⟨haddress, fs, hstored⟩ := stored_step swUdpChksum reps s e
  simp only [UdpTcp.arrived, haddress, hstored, List.filter_append, List.length_append]
  exact Nat.le_add_right _ _

theorem returned_le_arrived (h : UdpTcpInv reps s) : s.returned.length ≤ s.arrived.length := by
  have htaken := congrArg List.length h.taken
  rw [List.length_map, List.length_append] at htaken
  rw [arrived_eq h.rx, List.length_append]
  omega

/-- While the sketch polls, an answer is missing. -/
theorem counts_poll {inLoop : Bool} (h : UdpTcpInv reps s) (hpc : s.pc = .poll inLoop) :
    s.returned.length = s.acks ∧ s.acks < s.sent.length := by
  have hcounts := h.counts
  rw [hpc] at hcounts
  cases inLoop with
  | true =>
    obtain ⟨-, hsent, hacks, hret⟩ := hcounts
    rw [wpkts] at hacks
    exact ⟨hret, by omega⟩
  | false =>
    obtain ⟨hsent, hlt, -, hret⟩ := hcounts
    exact ⟨hret, by omega⟩

/-- The sketch goes on, and no answer of the peer is left out for ever. -/
structure Fair (reps : ℕ) (s : UdpTcp) (inp : ℕ → UdpTcpEvent) : Prop where
  sketch : ∀ n, ∃ m, n ≤ m ∧ ∃ now, inp m = .sketch now
  peer : ∀ n, (trace (UdpTcp.step swUdpChksum reps) s inp n).Owed → ∃ m, n ≤ m ∧
    (trace (UdpTcp.step swUdpChksum reps) s inp n).arrived.length <
      (trace (UdpTcp.step swUdpChksum reps) s inp m).arrived.length

variable {swUdpChksum} {inp : ℕ → UdpTcpEvent}

/-- While the sketch polls, an answer that it has not taken arrives at some time. -/
theorem answer_arrives (hinv : ∀ n, UdpTcpInv reps (trace (UdpTcp.step swUdpChksum reps) s inp n))
    (hfair : Fair swUdpChksum reps s inp) {n : ℕ} {inLoop : Bool}
    (hpc : (trace (UdpTcp.step swUdpChksum reps) s inp n).pc = .poll inLoop) :
    ∃ m, n ≤ m ∧ (trace (UdpTcp.step swUdpChksum reps) s inp n).acks <
      (trace (UdpTcp.step swUdpChksum reps) s inp m).arrived.length := by
  obtain ⟨hret, hlt⟩ := counts_poll (hinv n) hpc
  by_cases howed : (trace (UdpTcp.step swUdpChksum reps) s inp n).Owed
  · obtain ⟨m, hm, hmore⟩ := hfair.peer n howed
    have hle := returned_le_arrived (hinv n)
    exact ⟨m, hm, by omega⟩
  · rw [UdpTcp.Owed] at howed
    exact ⟨n, le_rfl, by omega⟩

/-- Polling ends. -/
theorem polling_ends
    (hinv : ∀ n, UdpTcpInv reps (trace (UdpTcp.step swUdpChksum reps) s inp n))
    (hfair : Fair swUdpChksum reps s inp) {n : ℕ} {inLoop : Bool}
    (hpc : (trace (UdpTcp.step swUdpChksum reps) s inp n).pc = .poll inLoop) :
    ∃ m, n < m ∧ work reps (trace (UdpTcp.step swUdpChksum reps) s inp m) <
      work reps (trace (UdpTcp.step swUdpChksum reps) s inp n) := by
  obtain ⟨m₀, hm₀, hmail₀⟩ := answer_arrives hinv hfair hpc
  set t := trace (UdpTcp.step swUdpChksum reps) s inp with ht
  by_contra hnone
  push Not at hnone
  -- then the sketch stays where it is,
  have hsame : ∀ m, n ≤ m → SamePoint (t n) (t m) := by
    intro m hm
    induction m, hm using Nat.le_induction with
    | base => exact ⟨rfl, rfl, rfl⟩
    | succ m hm ih =>
      rcases work_step swUdpChksum (hinv m) (inp m) with hpoint | hless
      · exact ⟨hpoint.1.trans ih.1, hpoint.2.1.trans ih.2.1, hpoint.2.2.trans ih.2.2⟩
      · have hle := hnone (m + 1) (by omega)
        rw [work_of_samePoint ih] at hless
        exact absurd hless (by simpa [ht, trace_succ] using hle)
  have hreturned : ∀ m, n ≤ m → (t m).returned.length = (t n).acks := by
    intro m hm
    obtain ⟨hpc', -, hacks⟩ := hsame m hm
    rw [(counts_poll (hinv m) (hpc'.trans hpc)).1, hacks]
  -- and the answer is there,
  have hmail : ∀ m, m₀ ≤ m → (t m).returned.length < (t m).arrived.length := by
    intro m hm
    have hmono : Monotone fun m => (t m).arrived.length :=
      monotone_nat_of_le_succ fun k => arrived_step swUdpChksum reps (t k) (inp k)
    have hle : (t m₀).arrived.length ≤ (t m).arrived.length := hmono hm
    rw [hreturned m (by omega)]
    omega
  -- and comes nearer with every step of the sketch
  have hnear : ∀ m, m₀ ≤ m → distance (t (m + 1)) < distance (t m) ∨
      (¬ ∃ now, inp m = .sketch now) ∧ distance (t (m + 1)) = distance (t m) := by
    intro m hm
    have hpc' := (hsame m (hm₀.trans hm)).1.trans hpc
    have hstay : (t (m + 1)).pc = .poll inLoop := (hsame (m + 1) (by omega)).1.trans hpc
    rcases distance_step swUdpChksum (hinv m) (hmail m hm) hpc' (inp m) with hleft | hlt | ⟨hno, heq⟩
    · exact absurd hstay hleft
    · exact .inl hlt
    · exact .inr ⟨fun ⟨now, hnow⟩ => hno now hnow, heq⟩
  exact trace_not_falling (E := fun e : UdpTcpEvent => ∃ now, e = .sketch now) distance hfair.sketch
    hnear

/-- Elsewhere the next step of the sketch leaves less to be done. -/
theorem sketch_goes_on (hreps : wpkts ≤ reps)
    (hinv : ∀ n, UdpTcpInv reps (trace (UdpTcp.step swUdpChksum reps) s inp n))
    (hfair : Fair swUdpChksum reps s inp) {n : ℕ}
    (hdone : (trace (UdpTcp.step swUdpChksum reps) s inp n).pc ≠ .done)
    (hpoll : ∀ inLoop, (trace (UdpTcp.step swUdpChksum reps) s inp n).pc ≠ .poll inLoop) :
    ∃ m, n < m ∧ work reps (trace (UdpTcp.step swUdpChksum reps) s inp m) <
      work reps (trace (UdpTcp.step swUdpChksum reps) s inp n) := by
  have hn := hinv n
  generalize hs₀ : trace (UdpTcp.step swUdpChksum reps) s inp n = s₀ at hdone hpoll hn ⊢
  refine trace_until (E := fun _ e => ∃ now, e = .sketch now)
    (Q := fun s' => UdpTcpInv reps s' ∧ SamePoint s₀ s')
    (G := fun s' => work reps s' < work reps s₀) ?_ ?_ ?_ (hfair.sketch n)
  · rintro s' e ⟨hs', hpoint⟩
    rcases work_step swUdpChksum hs' e with hsame | hless
    · left
      exact ⟨udpTcpInv_step swUdpChksum hreps s' e hs', hsame.1.trans hpoint.1,
        hsame.2.1.trans hpoint.2.1, hsame.2.2.trans hpoint.2.2⟩
    · exact .inr (hless.trans_eq (work_of_samePoint hpoint))
  · rintro s' e ⟨hs', hpoint⟩ ⟨now, rfl⟩
    rw [← work_of_samePoint hpoint]
    exact work_sketch swUdpChksum hs' now (by rwa [hpoint.1]) (by rwa [hpoint.1])
  · rw [hs₀]
    exact ⟨hn, rfl, rfl, rfl⟩

/-- **The termination of `udp_tcp`.** -/
theorem udpTcp_returns (hreps : wpkts ≤ reps) (h : UdpTcpInv reps s)
    (hfair : Fair swUdpChksum reps s inp) :
    ∃ n, (trace (UdpTcp.step swUdpChksum reps) s inp n).pc = .done := by
  have hinv : ∀ n, UdpTcpInv reps (trace (UdpTcp.step swUdpChksum reps) s inp n) :=
    trace_induction (C := fun _ _ => True) (fun s e hs _ => udpTcpInv_step _ hreps s e hs) h
      fun _ => trivial
  have hdown : ∀ n, 0 ≤ n → (trace (UdpTcp.step swUdpChksum reps) s inp n).pc ≠ .done →
      ∃ m, n < m ∧ ((trace (UdpTcp.step swUdpChksum reps) s inp m).pc = .done ∨
        work reps (trace (UdpTcp.step swUdpChksum reps) s inp m) <
          work reps (trace (UdpTcp.step swUdpChksum reps) s inp n)) := by
    intro n _ hdone
    by_cases hpoll : ∀ inLoop,
        (trace (UdpTcp.step swUdpChksum reps) s inp n).pc ≠ .poll inLoop
    · obtain ⟨m, hm, hless⟩ := sketch_goes_on hreps hinv hfair hdone hpoll
      exact ⟨m, hm, .inr hless⟩
    · push Not at hpoll
      obtain ⟨inLoop, hpc⟩ := hpoll
      obtain ⟨m, hm, hless⟩ := polling_ends hinv hfair hpc
      exact ⟨m, hm, .inr hless⟩
  obtain ⟨n, -, hn⟩ := trace_reaches (G := fun s => s.pc = .done) (work reps) hdown
  exact ⟨n, hn⟩

end Returns

/-! ### A peer that answers at once -/

theorem UdpTcpInv.bounds {reps : ℕ} {s : UdpTcp} (h : UdpTcpInv reps s) (hreps : 2 ≤ reps) :
    s.sent.length ≤ reps ∧ s.sent.length ≤ s.acks + 2 ∧ s.acks ≤ reps := by
  have hcounts := h.counts
  generalize s.pc = pc at hcounts
  generalize s.sent.length = sent at hcounts ⊢
  cases pc with
  | poll inLoop | receive inLoop | stamp inLoop =>
    cases inLoop <;> simp only [Counts, wpkts] at hcounts <;> omega
  | _ =>
    simp only [Counts, wpkts] at hcounts
    omega

theorem UdpTcpInv.acks_le_returned {reps : ℕ} {s : UdpTcp} (h : UdpTcpInv reps s) :
    s.acks ≤ s.returned.length := by
  have hcounts := h.counts
  generalize s.pc = pc at hcounts
  cases pc with
  | poll inLoop | receive inLoop | stamp inLoop =>
    cases inLoop <;> simp only [Counts] at hcounts <;> omega
  | _ =>
    simp only [Counts] at hcounts
    omega

/-- The sketch and the peer take turns; if an answer is owed, it is the frame `f`. -/
def takingTurns (f : List Byte) (n : ℕ) : UdpTcpEvent :=
  if n % 2 = 0 then .sketch 0 else .answer f 0x0800

/-- Nothing but answers has come in, and no more than are owed. -/
structure OnlyAnswers (s : UdpTcp) : Prop where
  udp : ∀ f ∈ s.rx.stored, IsUdp s.node.myaddress (mem f)
  owed : s.arrived.length ≤ s.sent.length

section TakingTurns

variable (swUdpChksum : Bool) {reps : ℕ} {s : UdpTcp} {f : List Byte}

theorem sent_sketch (h : UdpTcpInv reps s) (now : BitVec 32) :
    s.sent.length ≤ (s.sketch swUdpChksum reps now).sent.length := by
  have hsend := (bookkeeping_sent swUdpChksum now h.toBookkeeping).1
  unfold UdpTcp.sketch
  split
  case h_2 =>
    split_ifs
    · omega
    · exact le_rfl
  case h_4 =>
    split_ifs with hidle
    · cases hrx : s.rx.pc with
      | idle => exact absurd hrx hidle
      | full hd =>
        rw [checkRx_hand hrx]
        exact (congrArg List.length handled_sent).ge
      | giveBack =>
        rw [checkRx_giveBack hrx]
        exact le_rfl
    · exact le_rfl
    · exact le_rfl
  case h_7 => exact (Nat.le_succ _).trans hsend.ge
  all_goals
    try split_ifs
    all_goals exact le_rfl

/-- No more than two answers wait, so that there is room for the next one. -/
theorem OnlyAnswers.room (h : UdpTcpInv reps s) (hreps : 2 ≤ reps) (ho : OnlyAnswers s) :
    owner0 (s.rx.ring s.rx.mac).flags = false := by
  have hmail : s.rx.waiting.filter (isMail s) = s.rx.waiting := by
    apply List.filter_eq_self.2
    intro g hg
    have hstored : g ∈ s.rx.stored := h.rx.order ▸ List.mem_append_right _ hg
    exact decide_eq_true (ho.udp g hstored)
  have htaken := congrArg List.length h.taken
  have harrived := congrArg List.length (arrived_eq h.rx)
  rw [List.length_map, List.length_append] at htaken
  rw [hmail, List.length_append, htaken] at harrived
  have hwindow := (h.bounds hreps).2.1
  have hacks := h.acks_le_returned
  have howed := ho.owed
  have hwaiting : s.rx.full.length ≤ s.rx.waiting.length + 1 := by
    unfold RxState.waiting
    split
    · rw [List.length_tail]
      omega
    · exact Nat.le_succ _
  by_contra hfull
  have htail : s.rx.slots.full s.rx.slots.tail = true := Bool.eq_true_of_not_eq_false hfull
  have hall := ((SlotRing.tail_full_iff h.rx.slots).1 htail).2
  have hheld : s.rx.full.length = rxSize := by
    unfold RxState.full SlotRing.held
    rw [List.length_map, List.filter_eq_self.2, List.length_range]
    intro j _
    exact hall _ (Nat.mod_lt _ (by decide))
  rw [rxSize] at hheld
  omega

/-- An answer that is owed arrives. -/
theorem arrived_answer (h : UdpTcpInv reps s) (hreps : 2 ≤ reps) (ho : OnlyAnswers s)
    (howed : s.Owed) (hf : IsDatagram s.node.myaddress f) (hmin : 60 ≤ f.length)
    (hmax : f.length ≤ bufBytes) (status : BitVec 16) :
    (s.step swUdpChksum reps (.answer f status)).rx.stored = s.rx.stored ++ [f] ∧
      (s.step swUdpChksum reps (.answer f status)).arrived.length = s.arrived.length + 1 := by
  have hstep : s.step swUdpChksum reps (.answer f status) =
      { s with rx := s.rx.store f status } := by
    simp only [UdpTcp.step, hmin, hf, howed, and_self, if_true]
  have hstored : (s.rx.store f status).stored = s.rx.stored ++ [f] := by
    simp only [RxState.store, ho.room h hreps, hmax, and_self, if_true]
  rw [hstep]
  refine ⟨hstored, ?_⟩
  unfold UdpTcp.arrived
  rw [hstored, List.filter_append, List.length_append, List.filter_singleton,
    decide_eq_true hf.udp]
  rfl

theorem onlyAnswers_step (h : UdpTcpInv reps s) (hreps : 2 ≤ reps) (ho : OnlyAnswers s)
    (hf : IsDatagram s.node.myaddress f) (hmin : 60 ≤ f.length) (hmax : f.length ≤ bufBytes)
    (n : ℕ) : OnlyAnswers (s.step swUdpChksum reps (takingTurns f n)) := by
  unfold takingTurns
  split_ifs
  · obtain ⟨haddress, hstored⟩ := stored_sketch swUdpChksum reps 0 s
    have hsent := sent_sketch swUdpChksum h 0
    constructor
    · intro g hg
      rw [UdpTcp.step, hstored] at hg
      rw [UdpTcp.step, haddress]
      exact ho.udp g hg
    · have howed := ho.owed
      simp only [UdpTcp.arrived, UdpTcp.step, haddress, hstored] at howed ⊢
      exact howed.trans hsent
  · by_cases howed : s.Owed
    · obtain ⟨hstored, harrived⟩ :=
        arrived_answer swUdpChksum h hreps ho howed hf hmin hmax 0x0800
      have haddress := (stored_step swUdpChksum reps s (.answer f 0x0800)).1
      have hsent : (s.step swUdpChksum reps (.answer f 0x0800)).sent = s.sent := by
        simp only [UdpTcp.step, hmin, hf, howed, and_self, if_true]
        rfl
      constructor
      · intro g hg
        rw [hstored] at hg
        rw [haddress]
        rcases List.mem_append.1 hg with hg | hg
        · exact ho.udp g hg
        · exact List.mem_singleton.1 hg ▸ hf.udp
      · rw [harrived, hsent]
        exact howed
    · simpa only [UdpTcp.step, howed, and_false, if_false] using ho

/-- **Taking turns is fair.** -/
theorem fair_takingTurns (hreps : 2 ≤ reps) (h : UdpTcpInv reps s) (ho : OnlyAnswers s)
    (hf : IsDatagram s.node.myaddress f) (hmin : 60 ≤ f.length) (hmax : f.length ≤ bufBytes) :
    Fair swUdpChksum reps s (takingTurns f) := by
  have hall : ∀ n, let t := trace (UdpTcp.step swUdpChksum reps) s (takingTurns f) n
      UdpTcpInv reps t ∧ OnlyAnswers t ∧ t.node.myaddress = s.node.myaddress := by
    intro n
    induction n with
    | zero => exact ⟨h, ho, rfl⟩
    | succ n ih =>
      obtain ⟨hinv, honly, haddress⟩ := ih
      refine ⟨udpTcpInv_step swUdpChksum hreps _ _ hinv, ?_, ?_⟩
      · exact onlyAnswers_step swUdpChksum hinv hreps honly (haddress ▸ hf) hmin hmax n
      · exact (stored_step swUdpChksum reps _ _).1.trans haddress
  constructor
  · intro n
    refine ⟨2 * n, by omega, 0, ?_⟩
    rw [takingTurns, if_pos (by omega)]
  · intro n howed
    -- the turn of the peer
    obtain ⟨m, hnm, hodd, hsent, harrived⟩ : ∃ m, n ≤ m ∧ m % 2 = 1 ∧
        (trace (UdpTcp.step swUdpChksum reps) s (takingTurns f) n).sent.length ≤
          (trace (UdpTcp.step swUdpChksum reps) s (takingTurns f) m).sent.length ∧
        (trace (UdpTcp.step swUdpChksum reps) s (takingTurns f) n).arrived.length =
          (trace (UdpTcp.step swUdpChksum reps) s (takingTurns f) m).arrived.length := by
      rcases Nat.mod_two_eq_zero_or_one n with hn | hn
      · have hturn : takingTurns f n = .sketch 0 := if_pos hn
        refine ⟨n + 1, by omega, by omega, ?_, ?_⟩
        · rw [trace_succ, hturn]
          exact sent_sketch swUdpChksum (hall n).1 0
        · obtain ⟨haddress, hstored⟩ := stored_sketch swUdpChksum reps 0
            (trace (UdpTcp.step swUdpChksum reps) s (takingTurns f) n)
          rw [trace_succ, hturn]
          simp only [UdpTcp.arrived, UdpTcp.step, haddress, hstored]
      · exact ⟨n, le_rfl, hn, le_rfl, rfl⟩
    obtain ⟨hinv, honly, haddress⟩ := hall m
    have howed' : (trace (UdpTcp.step swUdpChksum reps) s (takingTurns f) m).Owed := by
      unfold UdpTcp.Owed at howed ⊢
      omega
    have hturn : takingTurns f m = .answer f 0x0800 := if_neg (by omega)
    refine ⟨m + 1, by omega, ?_⟩
    rw [trace_succ, hturn,
      (arrived_answer swUdpChksum hinv hreps honly howed' (haddress ▸ hf) hmin hmax 0x0800).2]
    omega

end TakingTurns

/-! ### The window protocol -/

/-- **The window protocol of `udp_tcp`.** Whatever the order in which answers and other frames come
in: the packets carry the numbers `0`, `1`, … in order, no more than two are sent before the next
answer is acknowledged, and what `recvfrom` has returned, what is in `UDP_buff` and what waits in the
ring are the datagrams that arrived, in order; `handle_frame` is called only with `UDP_buff` empty,
and `rtt` is written inside its bounds.  When `udp_tcp` returns, `reps` packets have been sent and each
entry of `rtt` has been written once; and it does return, if the sketch goes on and no answer is left
out for ever. -/
theorem udp_tcp_window (swUdpChksum : Bool) {reps : ℕ} (hreps : 2 ≤ reps) (myaddress : BitVec 32)
    (macaddr1 macaddr2 : BitVec 24) (bufs buff : ℕ → Byte) :
    let s₀ := udpTcpInit myaddress macaddr1 macaddr2 bufs buff
    (∀ es, let s := run (UdpTcp.step swUdpChksum reps) s₀ es
      s.sent.map packetCount = (List.range s.sent.length).map (BitVec.ofNat 32) ∧
      s.sent.length ≤ reps ∧ s.sent.length ≤ s.acks + 2 ∧
      s.returned ++ s.mailbox ++ (s.rx.waiting.filter (isMail s)).map datagram =
        s.arrived.map datagram ∧
      (∀ h, s.rx.pc = .full h → s.node.udpLth = 0) ∧
      (∀ w ∈ s.rtt, w.1 < reps) ∧
      (s.pc = .done → s.sent.length = reps ∧ s.rtt.map Prod.fst = List.range reps)) ∧
    ∀ inp, Fair swUdpChksum reps s₀ inp →
      ∃ n, (trace (UdpTcp.step swUdpChksum reps) s₀ inp n).pc = .done := by
  intro s₀
  have hinit : UdpTcpInv reps s₀ := udpTcpInv_init reps myaddress macaddr1 macaddr2 bufs buff
  refine ⟨fun es => ?_, fun inp hfair => udpTcp_returns hreps hinit hfair⟩
  intro s
  have h : UdpTcpInv reps s := udpTcpInv_run swUdpChksum hreps hinit es
  obtain ⟨hsent, hwindow, hacks⟩ := h.bounds hreps
  refine ⟨h.sent, hsent, hwindow, ?_, h.room, ?_, fun hdone => ?_⟩
  · rw [← h.taken, arrived_eq h.rx, List.map_append]
  · intro w hw
    have hmem : w.1 ∈ s.rtt.map Prod.fst := List.mem_map_of_mem hw
    rw [h.rtt, List.mem_range] at hmem
    omega
  · have hcounts := h.counts
    rw [hdone] at hcounts
    obtain ⟨hlen, hall, -⟩ := hcounts
    exact ⟨hlen, by rw [h.rtt, hall]⟩

/-- An answer of `192.168.1.4` to `192.168.1.17`, with eight bytes. -/
def shortAnswer : List Byte :=
  [0, 0, 0x04, 0xE9, 0xE5, 0x00, 0x00, 0x01, 0x00, 0x13, 0x20, 0x2E, 0x53, 0x90, 0x08, 0x00,
   0x45, 0x00, 0x00, 0x24, 0x00, 0x01, 0x00, 0x00, 0x40, 0x11, 0xF7, 0x62,
   0xC0, 0xA8, 0x01, 0x04, 0xC0, 0xA8, 0x01, 0x11, 0x1D, 0xE6, 0xCB, 0x83, 0x00, 0x10, 0x00, 0x00,
   0, 0, 0, 0, 0, 0, 0, 0, 0, 0, 0, 0, 0, 0, 0, 0]

/-- The call that stands at the end of `setup`, as a comment, is `udp_tcp(1000)`.  It sends no more
than 1000 packets, and if the peer answers whenever it is its turn, the call returns. -/
theorem udp_tcp_window_thousand :
    let s₀ := udpTcpInit 0x1101A8C0 0x04E9E5 0x000001 (fun _ => 0) fun _ => 0
    2 ≤ 1000 ∧ (∀ es, (run (UdpTcp.step false 1000) s₀ es).sent.length ≤ 1000) ∧
      Fair false 1000 s₀ (takingTurns shortAnswer) ∧
      ∃ n, (trace (UdpTcp.step false 1000) s₀ (takingTurns shortAnswer) n).pc = .done := by
  intro s₀
  have hinv : UdpTcpInv 1000 s₀ := udpTcpInv_init 1000 _ _ _ _ _
  have honly : OnlyAnswers s₀ :=
    ⟨fun f hf => absurd hf (by simp [s₀, udpTcpInit, rxInit]), Nat.le_refl 0⟩
  have hfair : Fair false 1000 s₀ (takingTurns shortAnswer) :=
    fair_takingTurns false (by decide) hinv honly (by decide) (by decide) (by decide)
  have htwo : 2 ≤ 1000 := by decide
  obtain ⟨hsafe, hreturns⟩ := udp_tcp_window false htwo 0x1101A8C0 0x04E9E5 0x000001 (fun _ => 0)
    fun _ => 0
  exact ⟨htwo, fun es => (hsafe es).2.1, hfair, hreturns _ hfair⟩

end Raw
