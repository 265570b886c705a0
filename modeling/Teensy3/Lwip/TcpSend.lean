import Teensy3.Lwip.TcpQueue

/-!
# Transmitting keeps the queues in order

`tcp_output` moves segments from `unsent` to `unacked`, and a timeout moves them back.  A fast
retransmission takes the first segment out of `unacked` alone; the order is restored when
`tcp_input` calls `tcp_output` at its end, provided that the segment still fits into the window of
the other side.

* `good_outputLoop`: the loop of `tcp_output`;
* `Pcb.OneOut`, `Pcb.Ready`: what `tcp_input` may leave to `tcp_output`;
* `Ready.tcpOutput`: the queues after it;
* `Good.retransmit`, `Good.tcpSlowtmr`: the timers.
-/

namespace Lwip
namespace Tcp

open SeqNo

namespace Pcb

/-! ### Transmitting -/

theorem Holds.sendSeg {s top : ℤ} {pcb : Pcb ℤ} {q : List (Seg ℤ)} {seg : Seg ℤ}
    (h : pcb.Holds s top q) (hend : seg.seqEnd ≤ top) : (pcb.sendSeg seg).Holds s top q := by
  have hle := h.sndNxt_le
  have hlastack := h.lastack_le
  have hnxt : (pcb.sendSeg seg).sndNxt = max pcb.sndNxt seg.seqEnd := by
    simp only [Pcb.sendSeg, lt_int, max_def]
    split <;> split <;> omega
  exact { h with
    lastack_le := by
      rw [hnxt]
      exact hlastack.trans (le_max_left _ _)
    sndNxt_le := by
      rw [hnxt]
      exact max_le hle hend }

/-- A segment behind all of `unacked` goes to its end. -/
theorem queueUnacked_last {s e : ℤ} {seg : Seg ℤ} {unacked us : List (Seg ℤ)}
    (h : Tiles s (unacked ++ seg :: us) e) : queueUnacked seg unacked = unacked ++ [seg] := by
  rw [queueUnacked]
  split
  · rename_i hnone
    rw [List.getLast?_eq_none_iff.1 hnone]
    rfl
  · rename_i useg hlast
    obtain ⟨m, hun, hm⟩ := tiles_append.1 h
    have hend := hun.last hlast
    have hlt : ¬ lt seg.seqno useg.seqno = true := by
      rw [lt_int]
      have hm1 := hm.1
      rw [Seg.seqEnd, add_int] at hend
      omega
    rw [if_neg hlt]

/-- A segment in front of all of `unacked` goes to its head. -/
theorem queueUnacked_first {s e : ℤ} {seg : Seg ℤ} {unacked us : List (Seg ℤ)}
    (h : Tiles s (seg :: unacked ++ us) e) (hpos : 0 < seg.tcplen) :
    queueUnacked seg unacked = seg :: unacked := by
  have hlow : ∀ x ∈ unacked, seg.seqno < x.seqno := by
    intro x hx
    have hle := h.2.le_seqno x (List.mem_append_left _ hx)
    rw [Seg.seqEnd, add_int] at hle
    omega
  rw [queueUnacked]
  split
  · rename_i hnone
    rw [List.getLast?_eq_none_iff.1 hnone]
  · rename_i useg hlast
    rw [if_pos (lt_int.2 (hlow useg (List.mem_of_getLast? hlast)))]
    cases unacked with
    | nil => rfl
    | cons x unacked =>
      have hx := hlow x List.mem_cons_self
      have hnot : ¬ lt x.seqno seg.seqno = true := by
        rw [lt_int]
        omega
      rw [insertSeg, if_neg hnot]

/-- The loop of `tcp_output`, with the queues in order. -/
theorem good_outputLoop {s top : ℤ} {wnd : ℕ} (unsent : List (Seg ℤ)) (pcb : Pcb ℤ)
    (h : pcb.Holds s top (pcb.unacked ++ unsent)) (hw : pcb.Windowed) (hwnd : wnd ≤ pcb.sndWnd) :
    (outputLoop wnd unsent pcb).1.Good := by
  induction unsent generalizing pcb with
  | nil => exact ⟨s, top, h.same ⟨rfl, id⟩, hw⟩
  | cons seg unsent ih =>
    have hstop : { pcb with unsent := seg :: unsent }.Good := ⟨s, top, h.same ⟨rfl, id⟩, hw⟩
    rw [outputLoop]
    split
    · rename_i hfits
      split
      · have hseg : seg ∈ pcb.unacked ++ seg :: unsent := by simp
        have hmoved := h.setMoved true
        have hunacked : (pcb.sendSeg seg).unacked = pcb.unacked ++ [{ seg with moved := true }] := by
          rw [Pcb.sendSeg]
          simp only [(h.each seg hseg).1, if_true]
          exact queueUnacked_last hmoved.tiles
        have hqueue : (pcb.sendSeg seg).unacked ++ unsent =
            pcb.unacked ++ { seg with moved := true } :: unsent := by
          rw [hunacked, List.append_assoc, List.singleton_append]
        refine ih (pcb.sendSeg seg) ?_ ?_ hwnd
        · rw [hqueue]
          exact hmoved.sendSeg (h.tiles.seqEnd_le seg hseg)
        · intro x hx
          rw [hunacked] at hx
          rcases List.mem_append.1 hx with hx | hx
          · exact hw x hx
          · rw [List.mem_singleton.1 hx]
            have hwithin := (within_int.1 hfits).2
            change seg.dataEnd ≤ pcb.lastack + pcb.sndWnd
            omega
      · exact hstop
    · exact hstop

/-- The first segment waits in `unsent` to be transmitted again, and will be: nothing was
acknowledged, and it fits into the windows. -/
def OneOut (pcb : Pcb ℤ) : Prop :=
  ∃ s top seg us, pcb.unsent = seg :: us ∧ pcb.Holds s top (seg :: pcb.unacked ++ us) ∧
    pcb.Windowed ∧ seg.dataEnd ≤ pcb.lastack + pcb.sndWnd ∧ pcb.mss ≤ pcb.cwnd ∧
    pcb.inFr = true ∧ pcb.acked = 0

theorem OneOut.acked {pcb : Pcb ℤ} (h : pcb.OneOut) : pcb.acked = 0 := by
  obtain ⟨_, _, _, _, -, -, -, -, -, -, hacked⟩ := h
  exact hacked

/-- What `tcp_input` leaves to `tcp_output`. -/
def Ready (pcb : Pcb ℤ) : Prop := pcb.Good ∨ pcb.OneOut

theorem OneOut.same {pcb pcb' : Pcb ℤ} (h : pcb.OneOut) (hs : SameSend pcb pcb') : pcb'.OneOut := by
  obtain ⟨s, top, seg, us, hunsent, hq, hw, hfits, hcwnd, hfr, hacked⟩ := h
  refine ⟨s, top, seg, us, hs.unsent.trans hunsent, ?_, hw.same hs, ?_, ?_, hs.inFr.trans hfr,
    hs.acked.trans hacked⟩
  · rw [hs.unacked]
    exact hq.same hs.toSameCount
  · rw [hs.lastack, hs.sndWnd]
    exact hfits
  · rw [hs.mss, hs.cwnd]
    exact hcwnd

theorem Ready.same {pcb pcb' : Pcb ℤ} (h : pcb.Ready) (hs : SameSend pcb pcb') : pcb'.Ready :=
  h.imp (fun hgood => hgood.same hs) fun hout => hout.same hs

theorem sameSend_tcpSendEmptyAck (pcb : Pcb ℤ) (alloc : Bool) :
    SameSend pcb (pcb.tcpSendEmptyAck alloc).1 := by
  rw [tcpSendEmptyAck]
  split
  · exact ⟨⟨rfl, id⟩, rfl, rfl⟩
  · exact SameSend.refl pcb

theorem sameSend_outputDone (pcb : Pcb ℤ) : SameSend pcb pcb.outputDone := by
  rw [outputDone]
  split
  · exact ⟨⟨rfl, id⟩, rfl, rfl⟩
  · split <;> exact ⟨⟨rfl, id⟩, rfl, rfl⟩

/-- The segment that waits to be transmitted again fits into both windows. -/
theorem OneOut.fits {pcb : Pcb ℤ} {s top : ℤ} {seg : Seg ℤ} {us : List (Seg ℤ)}
    (hq : pcb.Holds s top (seg :: pcb.unacked ++ us))
    (hfits : seg.dataEnd ≤ pcb.lastack + pcb.sndWnd) (hcwnd : pcb.mss ≤ pcb.cwnd) :
    within seg.dataEnd pcb.lastack (min pcb.sndWnd pcb.cwnd) = true := by
  obtain ⟨-, hlen, hend⟩ := hq.each seg (by simp)
  have hstart := hq.start
  have hseqno := hq.tiles.1
  have htcplen : seg.tcplen ≤ seg.len + 1 := by
    rw [Seg.tcplen]
    split <;> omega
  rw [within_int]
  simp only [Seg.dataEnd, Seg.seqEnd, add_int] at *
  omega

theorem OneOut.outputLoop {pcb : Pcb ℤ} {s top : ℤ} {seg : Seg ℤ} {us : List (Seg ℤ)}
    (hq : pcb.Holds s top (seg :: pcb.unacked ++ us)) (hw : pcb.Windowed)
    (hfits : seg.dataEnd ≤ pcb.lastack + pcb.sndWnd) (hcwnd : pcb.mss ≤ pcb.cwnd)
    (hfr : pcb.inFr = true) :
    (Pcb.outputLoop (min pcb.sndWnd pcb.cwnd) (seg :: us) pcb).1.Good := by
  have hnagle : pcb.tcpDoOutputNagle (seg :: us) = true := by simp [tcpDoOutputNagle, hfr]
  have hmoved : pcb.Holds s top ([] ++ { seg with moved := true } :: (pcb.unacked ++ us)) :=
    Holds.setMoved hq true
  have hunacked : (pcb.sendSeg seg).unacked = { seg with moved := true } :: pcb.unacked := by
    have hpos := (hq.each seg (by simp)).1
    rw [Pcb.sendSeg]
    simp only [hpos, if_true]
    exact queueUnacked_first hmoved.tiles hpos
  rw [Pcb.outputLoop, if_pos (OneOut.fits hq hfits hcwnd), if_pos (by rw [hnagle]; rfl)]
  have hrest : (pcb.sendSeg seg).Holds s top ((pcb.sendSeg seg).unacked ++ us) := by
    rw [hunacked]
    exact hmoved.sendSeg (hq.tiles.seqEnd_le seg (by simp))
  refine good_outputLoop us (pcb.sendSeg seg) hrest ?_ (min_le_left _ _)
  · intro x hx
    rw [hunacked] at hx
    rcases List.mem_cons.1 hx with rfl | hx
    · exact hfits
    · exact hw x hx

/-- `tcp_output` puts the queues in order. -/
theorem Ready.tcpOutput {pcb : Pcb ℤ} (h : pcb.Ready) (alloc : Bool) :
    (pcb.tcpOutput alloc).1.Good := by
  rcases h with hgood | ⟨s, top, seg, us, hunsent, hq, hw, hfits, hcwnd, hfr, -⟩
  · rw [Pcb.tcpOutput]
    split
    · exact hgood.same (sameSend_tcpSendEmptyAck pcb alloc)
    · obtain ⟨s, top, hq, hw⟩ := hgood
      have hloop := good_outputLoop pcb.unsent pcb hq hw (min_le_left pcb.sndWnd pcb.cwnd)
      exact hloop.same (sameSend_outputDone _)
  · have hnothing : pcb.nothingFits (min pcb.sndWnd pcb.cwnd) = false := by
      simp [nothingFits, hunsent, OneOut.fits hq hfits hcwnd]
    rw [Pcb.tcpOutput, hnothing, Bool.and_false, if_neg (by simp), hunsent]
    exact (OneOut.outputLoop hq hw hfits hcwnd hfr).same (sameSend_outputDone _)

theorem Good.tcpOutput {pcb : Pcb ℤ} (h : pcb.Good) (alloc : Bool) : (pcb.tcpOutput alloc).1.Good :=
  Ready.tcpOutput (.inl h) alloc

theorem Good.tcpRexmitRto {pcb : Pcb ℤ} (h : pcb.Good) (alloc : Bool) :
    (pcb.tcpRexmitRto alloc).1.Good := by
  rw [Pcb.tcpRexmitRto]
  split
  · exact h
  · refine Good.tcpOutput ?_ alloc
    obtain ⟨s, top, hq, -⟩ := h
    exact ⟨s, top, hq.same ⟨rfl, id⟩, by simp [Windowed]⟩

theorem Good.slowStart {pcb : Pcb ℤ} (h : pcb.Good) : pcb.slowStart.Good := by
  obtain ⟨s, top, hq, hw⟩ := h
  have hmss : pcb.mss ≤ 1460 := hq.mss.2
  have hcwnd := hq.cwnd
  refine ⟨s, top, { hq with cwnd := ?_, ssthresh := ?_ }, hw⟩
  · change pcb.mss < 2 ^ 16
    omega
  · simp only [Pcb.slowStart]
    split <;> omega

theorem Good.retransmit {pcb : Pcb ℤ} (h : pcb.Good) (alloc : Bool) :
    (pcb.retransmit alloc).1.Good :=
  h.slowStart.tcpRexmitRto alloc

theorem Good.tcpSlowtmr {pcb : Pcb ℤ} (h : pcb.Good) (rto : ℤ) (stray : Byte) (alloc : Bool) :
    (pcb.tcpSlowtmr rto stray alloc).1.Good := by
  have hprobe : ∀ x : Pcb ℤ, SameSend x (x.tcpZeroWindowProbe stray alloc).1 := by
    intro x
    rw [tcpZeroWindowProbe]
    split
    · exact SameSend.refl x
    · split
      · exact ⟨⟨rfl, id⟩, rfl, rfl⟩
      · exact SameSend.refl x
  rw [Pcb.tcpSlowtmr]
  split
  · split
    · refine Good.same ?_ (hprobe _)
      exact h.same ⟨⟨rfl, id⟩, rfl, rfl⟩
    · exact h.same ⟨⟨rfl, id⟩, rfl, rfl⟩
  · have hcount : pcb.countRtime.Good := h.same ⟨⟨rfl, id⟩, rfl, rfl⟩
    split
    · exact hcount.retransmit alloc
    · exact hcount

end Pcb

end Tcp
end Lwip
