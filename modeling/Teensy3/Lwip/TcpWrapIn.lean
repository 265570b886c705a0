import Teensy3.Lwip.TcpWrap

/-!
# Sequence numbers of 32 bits: receiving

What comes in is compared with what was received, with what is acknowledged, and with the last
segment that set the send window.  As long as none of these is almost half the range away, a
connection does what it does with unbounded numbers.

* `Pcb.Close`: the condition on a segment that comes in;
* `Pcb.EdgeNear`: what was last announced is not far from what was received;
* `receiveAck_wrap`, `receiveData_wrap`, `transition_wrap`: the parts of `tcp_process`;
* `Sound.tcpProcess_wrap`, `admits_wrap`: the whole of it, and its condition.
-/

namespace Lwip
namespace Tcp

open SeqNo

/-- Half the range of the numbers, less what the windows and the queues can add to a difference. -/
def reach : ℤ := 2 ^ 31 - 2 ^ 22

namespace Pcb

section

variable {σ : Type} [SeqNo σ]

/-- The segment is not far from what is expected, in both directions, and short enough for the
`s16_t` by which its front is trimmed. -/
structure Close (pcb : Pcb σ) (seg : InSeg σ) : Prop where
  rcvNxt : near seg.seqno pcb.rcvNxt reach
  len : seg.p.flatten.length < 2 ^ 15
  sndWl1 : seg.ack = true → near pcb.sndWl1 seg.seqno reach
  lastack : seg.ack = true → near seg.ackno pcb.lastack reach
  sndWl2 : seg.ack = true → near pcb.sndWl2 seg.ackno reach

instance (pcb : Pcb σ) (seg : InSeg σ) : Decidable (pcb.Close seg) :=
  decidable_of_iff
    (near seg.seqno pcb.rcvNxt reach ∧ seg.p.flatten.length < 2 ^ 15 ∧
      (seg.ack = true → near pcb.sndWl1 seg.seqno reach) ∧
      (seg.ack = true → near seg.ackno pcb.lastack reach) ∧
      (seg.ack = true → near pcb.sndWl2 seg.ackno reach))
    ⟨fun ⟨h1, h2, h3, h4, h5⟩ => ⟨h1, h2, h3, h4, h5⟩,
      fun h => ⟨h.rcvNxt, h.len, h.sndWl1, h.lastack, h.sndWl2⟩⟩

end

variable {pcb : Pcb ℤ}

/-- Numbers in reach of each other can be compared. -/
theorem near_of_reach {a b : ℤ} (h : near a b reach) : Near 32 a b ∧ Near 32 b a := by
  have hreach : reach = 2 ^ 31 - 2 ^ 22 := rfl
  obtain ⟨hlow, hhigh⟩ := near_int.1 h
  exact ⟨near_of_le (by omega) (by omega), near_of_le (by omega) (by omega)⟩

/-- They can still be compared if something is added. -/
theorem near_add_of_reach {a b x : ℤ} (h : near a b reach) (hlow : -2 ^ 22 < x) (hhigh : x < 2 ^ 22) :
    Near 32 a (b + x) ∧ Near 32 (b + x) a := by
  have hreach : reach = 2 ^ 31 - 2 ^ 22 := rfl
  obtain ⟨hle, hge⟩ := near_int.1 h
  exact ⟨near_of_le (by omega) (by omega), near_of_le (by omega) (by omega)⟩

/-! ### Acknowledgements -/

theorem updatesWindow_wrap {seg : InSeg ℤ} (hc : pcb.Close seg) (hack : seg.ack = true) :
    pcb.wrap.updatesWindow seg.wrap = pcb.updatesWindow seg := by
  have h1 := (near_of_reach (hc.sndWl1 hack)).1
  have h2 := (near_of_reach (hc.sndWl2 hack)).1
  simp only [updatesWindow, wrap_sndWl1, wrap_sndWl2, wrap_sndWnd, InSeg.wrap_seqno,
    InSeg.wrap_ackno, InSeg.wrap_wnd, lt_embed h1, lt_embed h2, embed_inj h1, embed_inj h2]

theorem updateWindow_wrap {seg : InSeg ℤ} (hc : pcb.Close seg) (hack : seg.ack = true) :
    pcb.wrap.updateWindow seg.wrap = (pcb.updateWindow seg).wrap := by
  simp only [updateWindow, updatesWindow_wrap hc hack]
  split <;> rfl

theorem dropAcked_wrap (done : Seg ℤ → Bool) (done' : Seg (BitVec 32) → Bool) {q : List (Seg ℤ)}
    (h : ∀ seg ∈ q, done' seg.wrap = done seg) (acked : ℕ) :
    dropAcked done' (q.map Seg.wrap) acked =
      ((dropAcked done q acked).1.map Seg.wrap, (dropAcked done q acked).2) := by
  induction q generalizing acked with
  | nil => rfl
  | cons seg q ih =>
    have hrest := ih (fun x hx => h x (List.mem_cons_of_mem _ hx))
      (if acked ≠ 0 ∧ seg.fin = true then acked - 1 else acked)
    rw [List.map_cons, dropAcked, dropAcked, h seg List.mem_cons_self]
    simp only [Seg.wrap_fin, Seg.wrap_clen, hrest]
    split_ifs <;> rfl

theorem dropUnacked_wrap {ackno : ℤ} (h : ∀ seg ∈ pcb.unacked, Near 32 seg.seqEnd ackno) :
    pcb.wrap.dropUnacked (embed 32 ackno) = (pcb.dropUnacked ackno).wrap := by
  have hdrop := dropAcked_wrap (fun seg => leq seg.seqEnd ackno)
    (fun seg => leq seg.seqEnd (embed 32 ackno)) (q := pcb.unacked)
    (fun seg hseg => by rw [Seg.seqEnd_wrap, leq_embed (h seg hseg)]) pcb.acked
  simp only [dropUnacked, wrap_unacked, wrap_acked, wrap_sndQueuelen, hdrop]
  rfl

theorem dropUnsent_wrap {ackno : ℤ} (h : ∀ seg ∈ pcb.unsent, Near 32 ackno seg.seqEnd)
    (hnxt : Near 32 ackno pcb.sndNxt) :
    pcb.wrap.dropUnsent (embed 32 ackno) = (pcb.dropUnsent ackno).wrap := by
  have hdrop := dropAcked_wrap (fun seg => between ackno seg.seqEnd pcb.sndNxt)
    (fun seg => between (embed 32 ackno) seg.seqEnd (embed 32 pcb.sndNxt)) (q := pcb.unsent)
    (fun seg hseg => by rw [Seg.seqEnd_wrap, between_embed (h seg hseg) hnxt]) pcb.acked
  simp only [dropUnsent, wrap_unsent, wrap_sndNxt, wrap_acked, wrap_sndQueuelen, hdrop]
  rfl

theorem newAck_wrap {ackno : ℤ} (hlow : pcb.lastack ≤ ackno) (hhigh : ackno - pcb.lastack < 2 ^ 31)
    (h : ∀ seg ∈ pcb.unacked, Near 32 seg.seqEnd ackno) :
    pcb.wrap.newAck (embed 32 ackno) = (pcb.newAck ackno).wrap := by
  have hdiff : diff (embed 32 ackno) (embed 32 pcb.lastack) = diff ackno pcb.lastack :=
    diff_embed hlow (by omega)
  have hcount : pcb.wrap.countAck (embed 32 ackno) = (pcb.countAck ackno).wrap := by
    simp only [countAck, wrap_lastack, hdiff]
    rfl
  have hdrop : (pcb.countAck ackno).openCwnd.wrap.dropUnacked (embed 32 ackno) = _ :=
    dropUnacked_wrap h
  have hopen : (pcb.countAck ackno).wrap.openCwnd = (pcb.countAck ackno).openCwnd.wrap := rfl
  rw [newAck, newAck, hcount, hopen, hdrop]
  simp only [restartRtime, wrap_unacked, List.map_eq_nil_iff]
  rfl

theorem tcpRexmitFast_wrap (h : pcb.Nearby pcb.queue) :
    pcb.wrap.tcpRexmitFast = pcb.tcpRexmitFast.wrap := by
  have hrexmit : pcb.wrap.tcpRexmit = pcb.tcpRexmit.wrap := by
    cases hunacked : pcb.unacked with
    | nil => simp [tcpRexmit, wrap, hunacked]
    | cons seg rest =>
      have hseg := h.each seg (by simp [queue, hunacked])
      have hins := insertSeg_wrap hseg (q := pcb.unsent)
        fun x hx => h.each x (List.mem_append_right _ hx)
      rw [tcpRexmit_of_cons hunacked]
      simp only [tcpRexmit, wrap_unacked, hunacked, List.map_cons, wrap_unsent, hins]
      rfl
  simp only [tcpRexmitFast, wrap_unacked, ne_eq, List.map_eq_nil_iff, wrap_inFr, hrexmit]
  split <;> rfl

theorem onDupAck_wrap (h : pcb.Nearby pcb.queue) : pcb.wrap.onDupAck = pcb.onDupAck.wrap := by
  simp only [onDupAck, wrap_dupacks, tcpRexmitFast_wrap h]
  split_ifs <;> rfl

theorem dupAck_wrap (h : pcb.Nearby pcb.queue) {edge ackno : ℤ}
    (hedge : Near 32 (pcb.sndWl2 + pcb.sndWnd) edge) (hack : Near 32 pcb.lastack ackno) (tcplen : ℕ) :
    pcb.wrap.dupAck (embed 32 edge) (embed 32 ackno) tcplen =
      (pcb.dupAck edge ackno tcplen).wrap := by
  have hon : pcb.wrap.noAck.countDupAck.onDupAck = pcb.noAck.countDupAck.onDupAck.wrap :=
    onDupAck_wrap (⟨h.each, h.sndNxt⟩ : pcb.noAck.countDupAck.Nearby pcb.noAck.countDupAck.queue)
  simp only [dupAck, wrap_sndWl2, wrap_sndWnd, wrap_rtime, wrap_lastack, add_embed, add_int,
    embed_inj hedge, embed_inj hack, hon]
  split <;> rfl

/-- The end of a segment in the queue and an acknowledgement that is not far. -/
theorem Nearby.near_seqEnd {q : List (Seg ℤ)} (h : pcb.Nearby q) {seg : Seg ℤ} (hseg : seg ∈ q)
    {ackno : ℤ} (hack : near ackno pcb.lastack reach) :
    Near 32 ackno seg.seqEnd ∧ Near 32 seg.seqEnd ackno := by
  obtain ⟨hlow, hhigh, hlen⟩ := h.each seg hseg
  have hend : seg.seqEnd = pcb.lastack + (seg.seqno - pcb.lastack + seg.tcplen) := by
    rw [Seg.seqEnd, add_int]
    ring
  rw [hend]
  exact near_add_of_reach hack (by omega) (by omega)

theorem Nearby.near_sndNxt {q : List (Seg ℤ)} (h : pcb.Nearby q) {ackno : ℤ}
    (hack : near ackno pcb.lastack reach) : Near 32 ackno pcb.sndNxt := by
  have hbound := h.sndNxt
  have hnxt : pcb.sndNxt = pcb.lastack + (pcb.sndNxt - pcb.lastack) := (add_sub_cancel _ _).symm
  rw [hnxt]
  exact (near_add_of_reach hack (by omega) (by omega)).1

theorem takeAck_wrap (h : pcb.Nearby pcb.queue) {edge ackno : ℤ}
    (hedge : Near 32 (pcb.sndWl2 + pcb.sndWnd) edge) (hack : near ackno pcb.lastack reach)
    (tcplen : ℕ) :
    pcb.wrap.takeAck (embed 32 edge) (embed 32 ackno) tcplen =
      (pcb.takeAck edge ackno tcplen).wrap := by
  have hnxt := h.sndNxt
  obtain ⟨hnear, hsymm⟩ := near_of_reach hack
  have hlow : Near 32 ackno (pcb.lastack + 1) := (near_add_of_reach hack (by norm_num) (by norm_num)).1
  have hhigh := h.near_sndNxt hack
  simp only [takeAck, wrap_lastack, wrap_sndNxt, add_embed, add_int, leq_embed hnear,
    between_embed hlow hhigh, dupAck_wrap h hedge hsymm]
  split
  · rfl
  · split
    · rename_i hbetween
      have hle := (between_int.1 hbetween).1
      have hreach : reach = 2 ^ 31 - 2 ^ 22 := rfl
      have hmax := (near_int.1 hack).2
      refine newAck_wrap (by omega) (by omega) fun seg hseg => ?_
      exact (h.near_seqEnd (List.mem_append_left _ hseg) hack).2
    · rfl

theorem sndNxt_takeAck (edge ackno : ℤ) (tcplen : ℕ) :
    (pcb.takeAck edge ackno tcplen).sndNxt = pcb.sndNxt := by
  have hfast : ∀ x : Pcb ℤ, x.tcpRexmitFast.sndNxt = x.sndNxt := by
    intro x
    rw [tcpRexmitFast, tcpRexmit]
    split
    · dsimp only
      split <;> rfl
    · rfl
  rw [takeAck]
  split
  · rw [dupAck]
    split
    · rw [onDupAck]
      split
      · rfl
      · split
        · exact hfast _
        · rfl
    · rfl
  · split <;> rfl

theorem receiveAck_wrap (h : pcb.Nearby pcb.queue) (hwnd : pcb.sndWnd < 2 ^ 16) {seg : InSeg ℤ}
    (hc : pcb.Close seg) (hack : seg.ack = true) (tcplen : ℕ) :
    pcb.wrap.receiveAck seg.wrap tcplen = (pcb.receiveAck seg tcplen).wrap := by
  set x := pcb.updateWindow seg with hx
  have hlastack : x.lastack = pcb.lastack := lastack_updateWindow pcb seg
  have hnxt : x.sndNxt = pcb.sndNxt := sndNxt_updateWindow pcb seg
  have hqueue : x.queue = pcb.queue := queue_updateWindow pcb seg
  have hnear : x.Nearby x.queue := by
    refine ⟨?_, ?_⟩
    · rw [hqueue, hlastack]
      exact h.each
    · rw [hnxt, hlastack]
      exact h.sndNxt
  have hclose : near seg.ackno x.lastack reach := by
    rw [hlastack]
    exact hc.lastack hack
  have hedge : Near 32 (x.sndWl2 + x.sndWnd) (pcb.sndWl2 + pcb.sndWnd) := by
    have hlt := seg.wnd.isLt
    rw [hx, updateWindow]
    split
    · have hreach : reach = 2 ^ 31 - 2 ^ 22 := rfl
      obtain ⟨hle, hge⟩ := near_int.1 (hc.sndWl2 hack)
      exact near_of_le (by dsimp only; omega) (by dsimp only; omega)
    · exact near_of_le (by omega) (by omega)
  have htake := takeAck_wrap hnear hedge hclose tcplen
  have hunsent : ∀ y ∈ (x.takeAck (pcb.sndWl2 + pcb.sndWnd) seg.ackno tcplen).unsent,
      Near 32 seg.ackno y.seqEnd := by
    intro y hy
    obtain ⟨m, hm⟩ := (weaker_takeAck x _ _ _).queue y (List.mem_append_right _ hy)
    exact (hnear.near_seqEnd hm hclose).1
  have hsndNxt : Near 32 seg.ackno
      (x.takeAck (pcb.sndWl2 + pcb.sndWnd) seg.ackno tcplen).sndNxt := by
    rw [sndNxt_takeAck]
    exact hnear.near_sndNxt hclose
  have hdrop : (x.takeAck (pcb.sndWl2 + pcb.sndWnd) seg.ackno tcplen).wrap.dropUnsent
      (embed 32 seg.ackno) = _ := dropUnsent_wrap hunsent hsndNxt
  simp only [receiveAck, updateWindow_wrap hc hack, wrap_sndWl2, wrap_sndWnd, add_embed, add_int,
    InSeg.wrap_ackno]
  rw [← hx, htake, hdrop]

/-! ### Data -/

/-- The announced edge is in reach of what was received, or at most `k` farther away. -/
structure EdgeNear (k : ℤ) (pcb : Pcb ℤ) : Prop where
  edge : near pcb.rcvAnnRightEdge pcb.rcvNxt (reach + k)
  rcvWnd : pcb.rcvWnd ≤ wndSize
  rcvAnnWnd : pcb.rcvAnnWnd < 2 ^ 16

theorem tcpUpdateRcvAnnWnd_wrap {k : ℤ} (h : pcb.EdgeNear k) (hk : k ≤ 2 ^ 16) :
    pcb.wrap.tcpUpdateRcvAnnWnd = (pcb.tcpUpdateRcvAnnWnd.1.wrap, pcb.tcpUpdateRcvAnnWnd.2) := by
  have hwnd : pcb.rcvWnd ≤ 5840 := h.rcvWnd
  have hreach : reach = 2 ^ 31 - 2 ^ 22 := rfl
  obtain ⟨hlow, hhigh⟩ := near_int.1 h.edge
  have hmin : min (wndSize / 2) pcb.mss ≤ 2920 := min_le_left _ _
  have h1 : Near 32 (pcb.rcvNxt + pcb.rcvWnd) (pcb.rcvAnnRightEdge + (min (wndSize / 2) pcb.mss : ℕ)) :=
    near_of_le (by omega) (by omega)
  have h2 : Near 32 pcb.rcvNxt pcb.rcvAnnRightEdge := near_of_le (by omega) (by omega)
  simp only [tcpUpdateRcvAnnWnd, wrap_rcvNxt, wrap_rcvWnd, wrap_rcvAnnRightEdge, wrap_mss, add_embed,
    add_int, geq_embed h1, gt_embed h2]
  split
  · rename_i hge
    have hle := geq_int.1 hge
    rw [diff_embed (by omega) (by omega)]
    rfl
  · split
    · rfl
    · rename_i hgt
      have hle : pcb.rcvNxt ≤ pcb.rcvAnnRightEdge := not_lt.1 fun h => hgt (gt_int.2 h)
      rw [diff_embed hle (by omega)]
      rfl

theorem tcpAck_wrap : pcb.wrap.tcpAck = pcb.tcpAck.wrap := by
  simp only [tcpAck, wrap_ackDelay]
  split <;> rfl

/-- What is accepted is not more than the window. -/
theorem EdgeNear.advance (h : pcb.EdgeNear 0) {n : ℕ} (hn : n ≤ pcb.rcvWnd) :
    (pcb.advance n).EdgeNear (2 ^ 16) := by
  have hwnd : pcb.rcvWnd ≤ 5840 := h.rcvWnd
  obtain ⟨hlow, hhigh⟩ := near_int.1 h.edge
  refine ⟨near_int.2 ⟨?_, ?_⟩, (Nat.sub_le _ _).trans h.rcvWnd, h.rcvAnnWnd⟩ <;>
  · simp only [Pcb.advance, add_int]
    omega

theorem accept_wrap (h : pcb.EdgeNear 0) (p : List (List Byte)) (fin : Bool) :
    pcb.wrap.accept p fin = (pcb.accept p fin).wrap := by
  have hle := (fitting_spec pcb p fin).2.2
  have hupdate := tcpUpdateRcvAnnWnd_wrap (h.advance hle) le_rfl
  have hfit : pcb.wrap.fitting p fin = pcb.fitting p fin := rfl
  have hadvance : ∀ n, pcb.wrap.advance n = (pcb.advance n).wrap := by
    intro n
    simp only [Pcb.advance, wrap_rcvNxt, add_embed]
    rfl
  rw [accept, hfit, hadvance, hupdate, tcpAck_wrap]
  rfl

theorem receiveData_wrap (h : pcb.EdgeNear 0) {seg : InSeg ℤ}
    (hnear : near seg.seqno pcb.rcvNxt reach) (hlt : seg.p.flatten.length < 2 ^ 15) (alloc : Bool) :
    pcb.wrap.receiveData seg.wrap seg.tcplen alloc = (pcb.receiveData seg seg.tcplen alloc).wrap := by
  have hwnd : pcb.rcvWnd ≤ 5840 := h.rcvWnd
  have hlen : seg.tcplen ≤ 2 ^ 16 := by
    rw [InSeg.tcplen]
    split <;> omega
  have hreach : reach = 2 ^ 31 - 2 ^ 22 := rfl
  obtain ⟨hlow, hhigh⟩ := near_int.1 hnear
  have h1 : Near 32 pcb.rcvNxt (seg.seqno + 1) := near_of_le (by omega) (by omega)
  have h2 : Near 32 pcb.rcvNxt (seg.seqno + ((seg.tcplen : ℤ) - 1)) := near_of_le (by omega) (by omega)
  have h3 : Near 32 pcb.rcvNxt pcb.rcvNxt := near_of_le (by omega) (by omega)
  have h4 : Near 32 pcb.rcvNxt (pcb.rcvNxt + ((pcb.rcvWnd : ℤ) - 1)) := near_of_le (by omega) (by omega)
  have h5 : Near 32 seg.seqno pcb.rcvNxt := near_of_le (by omega) (by omega)
  have h6 : Near 32 seg.seqno (pcb.rcvNxt + ((pcb.rcvWnd : ℤ) - 1)) := near_of_le (by omega) (by omega)
  have h7 : Near 32 pcb.rcvNxt seg.seqno := near_of_le (by omega) (by omega)
  have hold : pcb.wrap.ackOld (embed 32 seg.seqno) = (pcb.ackOld seg.seqno).wrap := by
    simp only [ackOld, wrap_rcvNxt, lt_embed h5]
    rfl
  have hnxt : (pcb.ackOld seg.seqno).rcvNxt = pcb.rcvNxt := rfl
  have hwnd' : (pcb.ackOld seg.seqno).rcvWnd = pcb.rcvWnd := rfl
  have hnearOld : (pcb.ackOld seg.seqno).EdgeNear 0 := ⟨h.edge, h.rcvWnd, h.rcvAnnWnd⟩
  have hacceptOld := accept_wrap hnearOld seg.p seg.fin
  have haccept := accept_wrap h (trimFront (diff pcb.rcvNxt seg.seqno) seg.p) seg.fin
  simp only [receiveData, hold, wrap_rcvNxt, wrap_rcvWnd, InSeg.wrap_seqno, InSeg.wrap_p,
    InSeg.wrap_fin, add_embed, add_int, between_embed h1 h2, between_embed h3 h4, hnxt, hwnd',
    between_embed h5 h6, embed_inj h7, tcpSendEmptyAck_wrap, hacceptOld]
  split
  · split
    · rename_i hbetween
      have hle := (between_int.1 hbetween).1
      rw [diff_embed (by omega) (by omega), haccept]
      split <;> rfl
    · split <;> rfl
  · split <;> rfl

/-! ### The states -/

theorem transition_wrap (r : Received ℤ) (seg : InSeg ℤ)
    (h : seg.ack = true → Near 32 seg.ackno r.pcb.sndNxt) :
    transition r.wrap seg.wrap = ((transition r seg).1.wrap, (transition r seg).2) := by
  have hwait : ∀ x : Pcb ℤ, (Received.mk x.wrap.timeWait r.data r.gotFin (r.out.map Packet.wrap),
      Fate.alive) = (Received.wrap ⟨x.timeWait, r.data, r.gotFin, r.out⟩, Fate.alive) := by
    intro x
    rw [timeWait_wrap]
    rfl
  have hall : (seg.ack && decide (embed 32 seg.ackno = embed 32 r.pcb.sndNxt)) =
      (seg.ack && decide (seg.ackno = r.pcb.sndNxt)) := by
    cases hack : seg.ack with
    | true => simp only [embed_inj (h hack)]
    | false => rfl
  simp only [transition, Received.wrap, wrap_state, wrap_sndNxt, InSeg.wrap_ack, InSeg.wrap_ackno, hall]
  cases r.pcb.state with
  | established => dsimp only; split <;> rfl
  | closeWait => dsimp only; split <;> rfl
  | finWait1 =>
    dsimp only
    split
    · split
      · exact hwait { r.pcb with ackNow := true, state := .finWait1 }
      · rfl
    · split <;> rfl
  | finWait2 =>
    dsimp only
    split
    · exact hwait { r.pcb with ackNow := true, state := .finWait2 }
    · rfl
  | closing =>
    dsimp only
    split
    · exact hwait r.pcb
    · rfl
  | lastAck => dsimp only; split <;> rfl
  | timeWait => rfl

theorem EdgeNear.weaker {k : ℤ} (h : pcb.EdgeNear k) (hk : 0 ≤ k) {pcb' : Pcb ℤ}
    (hw : Weaker pcb pcb') : pcb'.EdgeNear k := by
  have hreach : reach = 2 ^ 31 - 2 ^ 22 := rfl
  obtain ⟨hlow, hhigh⟩ := near_int.1 h.edge
  have hann := h.rcvAnnWnd
  refine ⟨?_, hw.rcvWnd ▸ h.rcvWnd, hw.rcvAnnWnd ▸ h.rcvAnnWnd⟩
  rw [near_int, hw.rcvNxt]
  rcases hw.edge with hedge | hedge
  · rw [hedge]
    exact ⟨hlow, hhigh⟩
  · rw [hedge]
    constructor <;> omega

theorem EdgeNear.mono {k l : ℤ} (h : pcb.EdgeNear k) (hkl : k ≤ l) : pcb.EdgeNear l := by
  obtain ⟨hlow, hhigh⟩ := near_int.1 h.edge
  exact ⟨near_int.2 ⟨by omega, by omega⟩, h.rcvWnd, h.rcvAnnWnd⟩

theorem EdgeNear.of_eq {k : ℤ} (h : pcb.EdgeNear k) {pcb' : Pcb ℤ} (hnxt : pcb'.rcvNxt = pcb.rcvNxt)
    (hedge : pcb'.rcvAnnRightEdge = pcb.rcvAnnRightEdge) (hwnd : pcb'.rcvWnd = pcb.rcvWnd)
    (hann : pcb'.rcvAnnWnd = pcb.rcvAnnWnd) : pcb'.EdgeNear k := by
  refine ⟨?_, hwnd ▸ h.rcvWnd, hann ▸ h.rcvAnnWnd⟩
  rw [hnxt, hedge]
  exact h.edge

theorem EdgeNear.tcpUpdateRcvAnnWnd {k : ℤ} (h : pcb.EdgeNear k) :
    pcb.tcpUpdateRcvAnnWnd.1.EdgeNear k := by
  have hwnd : pcb.rcvWnd ≤ 5840 := h.rcvWnd
  rw [Pcb.tcpUpdateRcvAnnWnd]
  split
  · exact ⟨h.edge, h.rcvWnd, by dsimp only; omega⟩
  · split
    · exact ⟨h.edge, h.rcvWnd, Nat.two_pow_pos 16⟩
    · exact ⟨h.edge, h.rcvWnd, Nat.mod_lt _ (by decide)⟩

theorem EdgeNear.tcpAck {k : ℤ} (h : pcb.EdgeNear k) : pcb.tcpAck.EdgeNear k := by
  rw [Pcb.tcpAck]
  split <;> exact h.of_eq rfl rfl rfl rfl

theorem EdgeNear.accept (h : pcb.EdgeNear 0) (p : List (List Byte)) (fin : Bool) :
    (pcb.accept p fin).pcb.EdgeNear (2 ^ 16) := by
  have hle := (fitting_spec pcb p fin).2.2
  exact (h.advance hle).tcpUpdateRcvAnnWnd.tcpAck

theorem EdgeNear.receiveData (h : pcb.EdgeNear 0) (seg : InSeg ℤ) (tcplen : ℕ) (alloc : Bool) :
    (pcb.receiveData seg tcplen alloc).pcb.EdgeNear (2 ^ 16) := by
  have hmono : ∀ x : Pcb ℤ, x.EdgeNear 0 → x.EdgeNear (2 ^ 16) := fun x hx => hx.mono (by norm_num)
  have hempty : ∀ x : Pcb ℤ, x.EdgeNear 0 → (x.tcpSendEmptyAck alloc).1.EdgeNear (2 ^ 16) :=
    fun x hx => hmono _ (hx.weaker le_rfl (sends_tcpSendEmptyAck x alloc).1)
  have hold : (pcb.ackOld seg.seqno).EdgeNear 0 := ⟨h.edge, h.rcvWnd, h.rcvAnnWnd⟩
  rw [Pcb.receiveData]
  split
  · split
    · dsimp only
      split
      · exact h.accept _ _
      · exact hempty _ h
    · dsimp only
      split
      · exact hold.accept _ _
      · exact hempty _ hold
  · split
    · exact hmono _ h
    · exact hmono _ ⟨h.edge, h.rcvWnd, h.rcvAnnWnd⟩

/-- What comes before the data of a segment is looked at. -/
theorem beforeData_wrap (h : pcb.Good) {seg : InSeg ℤ} (hc : pcb.Close seg) :
    pcb.wrap.beforeData seg.wrap = (pcb.beforeData seg).wrap := by
  obtain ⟨hnear, hwnd⟩ := h.nearby
  have hopts : pcb.wrap.tcpParseopt seg.wrap.opts = (pcb.tcpParseopt seg.opts).wrap := rfl
  have htcplen : seg.wrap.tcplen = seg.tcplen := rfl
  rw [Pcb.beforeData, Pcb.beforeData, InSeg.wrap_ack, hopts, htcplen]
  by_cases hack : seg.ack = true
  · rw [if_pos hack, if_pos hack]
    have hnear' : (pcb.tcpParseopt seg.opts).Nearby (pcb.tcpParseopt seg.opts).queue :=
      ⟨hnear.each, hnear.sndNxt⟩
    have hc' : (pcb.tcpParseopt seg.opts).Close seg :=
      ⟨hc.rcvNxt, hc.len, hc.sndWl1, hc.lastack, hc.sndWl2⟩
    exact receiveAck_wrap hnear' hwnd hc' hack _
  · rw [if_neg hack, if_neg hack]

theorem sndNxt_beforeData (pcb : Pcb ℤ) (seg : InSeg ℤ) :
    (pcb.beforeData seg).sndNxt = pcb.sndNxt := by
  rw [Pcb.beforeData]
  split
  · exact (sndNxt_takeAck _ _ _).trans (sndNxt_updateWindow _ seg)
  · rfl

/-- `tcp_process` compares with the queue, with what was received, and with the last segments. -/
theorem Sound.tcpProcess_wrap (h : pcb.Sound) (hedge : pcb.EdgeNear 0) {seg : InSeg ℤ}
    (hc : pcb.Close seg) (alloc : Bool) :
    pcb.wrap.tcpProcess seg.wrap alloc =
        ((pcb.tcpProcess seg alloc).1.wrap, (pcb.tcpProcess seg alloc).2) ∧
      (pcb.tcpProcess seg alloc).1.pcb.EdgeNear (2 ^ 16) := by
  have hrcv : pcb.rcvWnd ≤ 5840 := hedge.rcvWnd
  have h1 := (near_of_reach hc.rcvNxt).1
  have h2 : Near 32 seg.seqno (pcb.rcvNxt + pcb.rcvWnd) :=
    (near_add_of_reach hc.rcvNxt (by omega) (by omega)).1
  have hmono : pcb.EdgeNear (2 ^ 16) := hedge.mono (by norm_num)
  simp only [Pcb.tcpProcess, InSeg.wrap_rst, InSeg.wrap_syn, InSeg.wrap_seqno, wrap_rcvNxt, wrap_rcvWnd,
    wrap_state, add_embed, add_int, between_embed h1 h2]
  split
  · split
    · exact ⟨rfl, hmono.of_eq rfl rfl rfl rfl⟩
    · exact ⟨rfl, hmono⟩
  · split
    · exact ⟨rfl, hmono.of_eq rfl rfl rfl rfl⟩
    · split
      · exact ⟨rfl, hmono.of_eq rfl rfl rfl rfl⟩
      · rename_i hstate
        have hgood : pcb.Good := h.resolve_right fun hwaits => hstate hwaits.1
        have hwrap := beforeData_wrap hgood hc
        have hweaker := weaker_beforeData pcb seg
        have hnxt := sndNxt_beforeData pcb seg
        rw [tcpReceive_tcpParseopt, tcpReceive_tcpParseopt, hwrap]
        set x := pcb.beforeData seg with hx
        have hedgeX := hedge.weaker le_rfl hweaker
        have hdata := receiveData_wrap hedgeX (by rw [hweaker.rcvNxt]; exact hc.rcvNxt) hc.len alloc
        have hsame := sameSend_receiveData x seg seg.tcplen alloc
        have hack : seg.ack = true →
            Near 32 seg.ackno (x.receiveData seg seg.tcplen alloc).pcb.sndNxt := by
          intro hack
          rw [hsame.sndNxt, hnxt]
          exact hgood.nearby.1.near_sndNxt (hc.lastack hack)
        have htcplen : seg.wrap.tcplen = seg.tcplen := rfl
        rw [htcplen, hdata, transition_wrap _ seg hack]
        refine ⟨rfl, ?_⟩
        exact (hedgeX.receiveData seg _ alloc).weaker (by norm_num) (weaker_transition _ seg).1

theorem Sound.tcpTimewaitInput_wrap (h : pcb.Sound) (hedge : pcb.EdgeNear 0) {seg : InSeg ℤ}
    (hc : pcb.Close seg) (alloc : Bool) :
    pcb.wrap.tcpTimewaitInput seg.wrap alloc = wrapOut (pcb.tcpTimewaitInput seg alloc) := by
  have hrcv : pcb.rcvWnd ≤ 5840 := hedge.rcvWnd
  have h1 := (near_of_reach hc.rcvNxt).1
  have h2 : Near 32 seg.seqno (pcb.rcvNxt + pcb.rcvWnd) :=
    (near_add_of_reach hc.rcvNxt (by omega) (by omega)).1
  have hnow : { pcb with ackNow := true }.Sound := h.of_same ⟨⟨rfl, id⟩, rfl, rfl⟩ rfl
  have hout := hnow.tcpOutput_wrap alloc
  have htcplen : seg.wrap.tcplen = seg.tcplen := rfl
  simp only [Pcb.tcpTimewaitInput, InSeg.wrap_rst, InSeg.wrap_syn, InSeg.wrap_seqno, InSeg.wrap_ackno,
    wrap_rcvNxt, wrap_rcvWnd, add_embed, add_int, between_embed h1 h2, htcplen, tcpRst_wrap]
  split
  · rfl
  · split
    · rfl
    · split
      · exact hout
      · rfl

/-! ### The calls of an application -/

theorem EdgeNear.tcpWrite {k : ℤ} (h : pcb.EdgeNear k) (data : List Byte) (copy more : Bool)
    (alloc : ℕ → Bool) : (pcb.tcpWrite data copy more alloc).2.EdgeNear k := by
  rcases Pcb.tcpWrite_cases pcb data copy more alloc with
    ⟨-, heq | heq⟩ | ⟨segs, queuelen, -, -, -, -, heq⟩
  · rw [heq]
    exact h
  · rw [heq]
    exact h.of_eq rfl rfl rfl rfl
  · rw [heq]
    exact h.of_eq rfl rfl rfl rfl

theorem EdgeNear.sendFinAndEnter {k : ℤ} (h : pcb.EdgeNear k) (next : TcpState) (alloc : Bool) :
    (pcb.sendFinAndEnter next alloc).1.EdgeNear k := by
  rcases Pcb.sendFinAndEnter_cases pcb next alloc with (heq | heq) | ⟨-, heq⟩ | ⟨-, -, -, heq⟩
  · rw [heq]
    exact h
  · rw [heq]
    exact h.of_eq rfl rfl rfl rfl
  · rw [heq]
    exact h.of_eq rfl rfl rfl rfl
  · rw [heq]
    exact h.of_eq rfl rfl rfl rfl

theorem EdgeNear.tcpCloseShutdown {k : ℤ} (h : pcb.EdgeNear k) (hk : 0 ≤ k)
    (rstOnUnackedData alloc : Bool) :
    (pcb.tcpCloseShutdown rstOnUnackedData alloc).1.1.EdgeNear k := by
  rcases tcpCloseShutdown_cases pcb rstOnUnackedData alloc with
    heq | ⟨next, -, -, heq⟩ | heq <;> rw [heq]
  · exact h.weaker hk (weaker_timeWait pcb)
  · exact h.sendFinAndEnter next alloc
  · exact h

theorem EdgeNear.tcpShutdown {k : ℤ} (h : pcb.EdgeNear k) (hk : 0 ≤ k) (shutRx shutTx alloc : Bool) :
    (pcb.tcpShutdown shutRx shutTx alloc).1.1.EdgeNear k := by
  have hclosed : (pcb.shutRxSide shutRx).EdgeNear k := by
    cases shutRx <;> exact h.of_eq rfl rfl rfl rfl
  rw [Pcb.tcpShutdown]
  split
  · exact hclosed.tcpCloseShutdown hk false alloc
  · exact hclosed

theorem tcpRecved_wrap {k : ℤ} (h : pcb.EdgeNear k) (hk : k ≤ 2 ^ 16) (len : ℕ) :
    pcb.wrap.tcpRecved len = ((pcb.tcpRecved len).1.wrap, (pcb.tcpRecved len).2) ∧
      (pcb.tcpRecved len).1.EdgeNear k := by
  set opened : Pcb ℤ :=
    { pcb with rcvWnd := min ((pcb.rcvWnd + len) % 2 ^ 16) wndSize } with hdef
  have hopened : opened.EdgeNear k := ⟨h.edge, min_le_right _ _, h.rcvAnnWnd⟩
  have hwrap : ({ pcb.wrap with rcvWnd := min ((pcb.rcvWnd + len) % 2 ^ 16) wndSize } :
      Pcb (BitVec 32)) = opened.wrap := rfl
  have hnear := hopened.tcpUpdateRcvAnnWnd
  rw [tcpRecved, tcpRecved, wrap_rcvWnd, hwrap, tcpUpdateRcvAnnWnd_wrap hopened hk, ← hdef]
  dsimp only
  split
  · exact ⟨rfl, hnear.of_eq rfl rfl rfl rfl⟩
  · exact ⟨rfl, hnear⟩

end Pcb

end Tcp
end Lwip
