import Teensy3.Lwip.TcpSend

/-!
# Acknowledgements keep the queues in order

An acknowledgement of new data drops segments from the front of both queues.  The third one of
nothing new starts a fast retransmission, and leaves the queues to be put in order by `tcp_output`.
What was transmitted stays inside the window as long as a segment does not take window back.

* `Holds.newAck`, `Good.dupAck`: the two kinds of acknowledgements;
* `Pcb.NotShrunk`: a segment that does not take back window that was granted;
* `Good.receiveAck`: the first half of `tcp_receive`.
-/

namespace Lwip
namespace Tcp

open SeqNo

namespace Pcb

/-! ### Acknowledgements -/

theorem dropAcked_fst (done : Seg ℤ → Bool) (q : List (Seg ℤ)) (acked : ℕ) :
    (dropAcked done q acked).1 = q.dropWhile done := by
  induction q generalizing acked with
  | nil => rfl
  | cons seg q ih =>
    rw [dropAcked]
    split
    · rename_i hdone
      rw [List.dropWhile_cons_of_pos hdone]
      exact ih _
    · rename_i hdone
      rw [List.dropWhile_cons_of_neg hdone]

theorem dropAcked_clens (done : Seg ℤ → Bool) (q : List (Seg ℤ)) (acked : ℕ) :
    clens (q.dropWhile done) + (dropAcked done q acked).2.2 = clens q := by
  induction q generalizing acked with
  | nil => rfl
  | cons seg q ih =>
    rw [dropAcked]
    split
    · rename_i hdone
      rw [List.dropWhile_cons_of_pos hdone, clens_cons]
      have hq := ih (if acked ≠ 0 ∧ seg.fin = true then acked - 1 else acked)
      dsimp only
      omega
    · rename_i hdone
      rw [List.dropWhile_cons_of_neg hdone]
      rfl

theorem dropAcked_of_not {done : Seg ℤ → Bool} {q : List (Seg ℤ)} (h : ∀ seg ∈ q, done seg = false)
    (acked : ℕ) : dropAcked done q acked = (q, acked, 0) := by
  cases q with
  | nil => rfl
  | cons seg q =>
    rw [dropAcked, if_neg]
    simp [h seg List.mem_cons_self]

theorem sub16_eq {a b : ℕ} (hle : b ≤ a) (hlt : a < 2 ^ 16) : sub16 a b = a - b := by
  rw [sub16]
  omega

/-- An acknowledgement of nothing, or of what was never sent, drops nothing. -/
theorem dropUnsent_of_not {pcb : Pcb ℤ} {ackno : ℤ} (hlen : pcb.sndQueuelen < 2 ^ 16)
    (h : ∀ seg ∈ pcb.unsent, between ackno seg.seqEnd pcb.sndNxt = false) :
    pcb.dropUnsent ackno = pcb := by
  rw [dropUnsent, dropAcked_of_not h]
  simp only [sub16_eq (Nat.zero_le _) hlen, Nat.sub_zero]

/-- The window of the other side does not enter into the accounts. -/
theorem Holds.updateWindow {s top : ℤ} {pcb : Pcb ℤ} {q : List (Seg ℤ)} (h : pcb.Holds s top q)
    (seg : InSeg ℤ) : (pcb.updateWindow seg).Holds s top q := by
  rw [Pcb.updateWindow]
  split
  · exact { h with sndWnd := seg.wnd.isLt }
  · exact h

theorem growCwnd_lt {pcb : Pcb ℤ} (h : pcb.cwnd < 2 ^ 16) : pcb.growCwnd.cwnd < 2 ^ 16 := by
  simp only [growCwnd]
  split <;> omega

theorem openCwnd_lt {pcb : Pcb ℤ} (h : pcb.cwnd < 2 ^ 16) : pcb.openCwnd.cwnd < 2 ^ 16 := by
  simp only [openCwnd]
  split
  · exact growCwnd_lt h
  · split <;> omega

/-- What an acknowledgement of new data does, with the part of it in `unsent`. -/
theorem Holds.newAck {s top : ℤ} {pcb : Pcb ℤ} (h : pcb.Holds s top pcb.queue) {ackno : ℤ}
    (hlow : pcb.lastack < ackno) (hhigh : ackno ≤ pcb.sndNxt)
    (hw : ∀ seg ∈ pcb.unacked, seg.dataEnd ≤ ackno + pcb.sndWnd) :
    ((pcb.newAck ackno).dropUnsent ackno).Good := by
  have hbetween : (fun seg : Seg ℤ => between ackno seg.seqEnd pcb.sndNxt) = Seg.ackedBy ackno := by
    funext seg
    rw [between, leq_int.2 hhigh, Bool.and_true]
    rfl
  set pcb' := (pcb.newAck ackno).dropUnsent ackno with hpcb
  have hunacked : pcb'.unacked = pcb.unacked.dropWhile (Seg.ackedBy ackno) := dropAcked_fst _ _ _
  have hunsent : pcb'.unsent = pcb.unsent.dropWhile (Seg.ackedBy ackno) := by
    rw [← hbetween]
    exact dropAcked_fst _ _ _
  have hqueue : pcb'.queue = pcb.queue.dropWhile (Seg.ackedBy ackno) := by
    rw [queue, queue, h.tiles.dropWhile_append, hunacked, hunsent]
  obtain ⟨⟨s', hs', htiles⟩, hbeyond⟩ := h.tiles.dropWhile (h.start.trans hlow.le)
  have hsub : ∀ seg ∈ pcb'.queue, seg ∈ pcb.queue := fun seg hseg =>
    (List.dropWhile_sublist _).subset (hqueue ▸ hseg)
  have hbuf : (pcb'.sndBuf : ℤ) = pcb.sndBuf + (ackno - pcb.lastack) := by
    change (((pcb.sndBuf + (ackno - pcb.lastack).toNat % 2 ^ 16) % 2 ^ 16 : ℕ) : ℤ) = _
    have hsum := h.buf
    have htop : top ≤ pcb.sndLbb + 1 := by
      rcases h.top_eq with heq | ⟨-, heq⟩ <;> omega
    have hle := h.sndNxt_le
    have hsize : (sndBufSize : ℤ) = 5840 := rfl
    omega
  have hqueuelen : pcb'.sndQueuelen = clens pcb'.queue := by
    have h1 := dropAcked_clens (Seg.ackedBy ackno) pcb.unacked (pcb.countAck ackno).acked
    have h2 := dropAcked_clens (Seg.ackedBy ackno) pcb.unsent (pcb.newAck ackno).acked
    have hlen := h.queuelen
    have hmax : pcb.sndQueuelen ≤ 16 := h.queuelen_le
    rw [queue, clens_append] at hlen
    rw [queue, clens_append, hunacked, hunsent]
    change sub16 (sub16 pcb.sndQueuelen (dropAcked (Seg.ackedBy ackno) pcb.unacked
      (pcb.countAck ackno).acked).2.2) (dropAcked (fun seg => between ackno seg.seqEnd pcb.sndNxt)
      pcb.unsent (pcb.newAck ackno).acked).2.2 = _
    rw [hbetween, sub16_eq (a := pcb.sndQueuelen) (by omega) (by omega),
      sub16_eq (by omega) (by omega)]
    omega
  refine ⟨s', top, ?_, ?_⟩
  · exact {
      tiles := hqueue ▸ htiles
      start := hs'
      each := fun seg hseg =>
        ⟨(h.each seg (hsub seg hseg)).1, (h.each seg (hsub seg hseg)).2.1,
          hbeyond seg (hqueue ▸ hseg)⟩
      lastack_le := hhigh
      sndNxt_le := h.sndNxt_le
      top_eq := h.top_eq
      fin := fun hopen seg hseg => h.fin hopen seg (hsub seg hseg)
      buf := by
        have hsum := h.buf
        change (pcb'.sndBuf : ℤ) + pcb.sndLbb = sndBufSize + ackno
        rw [hbuf]
        omega
      queuelen := hqueuelen
      queuelen_le := by
        have hsublist : (pcb'.queue).Sublist pcb.queue := hqueue ▸ List.dropWhile_sublist _
        have hle : clens pcb'.queue ≤ clens pcb.queue :=
          List.Sublist.sum_le_sum (hsublist.map _) fun _ _ => Nat.zero_le _
        rw [hqueuelen]
        exact hle.trans (h.queuelen ▸ h.queuelen_le)
      mss := h.mss
      cwnd := by
        refine openCwnd_lt (?_ : (pcb.countAck ackno).cwnd < 2 ^ 16)
        simp only [countAck]
        split
        · exact h.ssthresh
        · exact h.cwnd
      ssthresh := h.ssthresh
      sndWnd := h.sndWnd }
  · intro seg hseg
    rw [hunacked] at hseg
    exact hw seg ((List.dropWhile_sublist _).subset hseg)

theorem tcpRexmit_of_cons {pcb : Pcb ℤ} {seg : Seg ℤ} {rest : List (Seg ℤ)}
    (h : pcb.unacked = seg :: rest) :
    pcb.tcpRexmit = { pcb with
      unacked := rest
      unsent := insertSeg seg pcb.unsent
      nrtx := (pcb.nrtx + 1) % 2 ^ 8 } := by
  rw [tcpRexmit, h]

/-- In front of all that is unsent. -/
theorem insertSeg_first {s e : ℤ} {seg : Seg ℤ} {rest us : List (Seg ℤ)}
    (h : Tiles s (seg :: rest ++ us) e) : insertSeg seg us = seg :: us := by
  cases us with
  | nil => rfl
  | cons x us =>
    have hle := h.2.le_seqno x (by simp)
    have hnot : ¬ lt x.seqno seg.seqno = true := by
      rw [lt_int]
      rw [Seg.seqEnd, add_int] at hle
      omega
    rw [insertSeg, if_neg hnot]

/-- A fast retransmission takes the first segment out of `unacked`, unless one is under way. -/
theorem Good.tcpRexmitFast {pcb : Pcb ℤ} (h : pcb.Good) (hacked : pcb.acked = 0) :
    pcb.tcpRexmitFast.Ready := by
  rw [Pcb.tcpRexmitFast]
  split
  · rename_i hcond
    obtain ⟨seg, rest, hunacked⟩ := List.exists_cons_of_ne_nil hcond.1
    obtain ⟨s, top, hq, hw⟩ := h
    have hmss : pcb.mss ≤ 1460 := hq.mss.2
    have hcwnd := hq.cwnd
    rw [queue, hunacked] at hq
    have hins := insertSeg_first hq.tiles
    rw [tcpRexmit_of_cons hunacked]
    dsimp only
    set half := min pcb.cwnd pcb.sndWnd / 2 with hhalf
    have hssthresh : (if half < 2 * pcb.mss then 2 * pcb.mss else half) < 2 ^ 15 := by
      split <;> omega
    have hopened :
        pcb.mss ≤ ((if half < 2 * pcb.mss then 2 * pcb.mss else half) + 3 * pcb.mss) % 2 ^ 16 := by
      rw [Nat.mod_eq_of_lt (by omega)]
      omega
    refine .inr ⟨s, top, seg, pcb.unsent, hins, ?_, ?_, hw seg (by simp [hunacked]), hopened, rfl, hacked⟩
    · exact { hq with
        cwnd := Nat.mod_lt _ (by decide)
        ssthresh := hssthresh.trans (by decide) }
    · intro x hx
      exact hw x (by rw [hunacked]; exact List.mem_cons_of_mem _ hx)
  · exact .inl h

theorem Good.onDupAck {pcb : Pcb ℤ} (h : pcb.Good) (hacked : pcb.acked = 0) :
    pcb.onDupAck.Ready := by
  rw [Pcb.onDupAck]
  split
  · obtain ⟨s, top, hq, hw⟩ := h
    exact .inl ⟨s, top, { hq with cwnd := growCwnd_lt hq.cwnd }, hw⟩
  · split
    · exact h.tcpRexmitFast hacked
    · exact .inl h

/-- A duplicate acknowledgement. -/
theorem Good.dupAck {pcb : Pcb ℤ} (h : pcb.Good) (edge ackno : ℤ) (tcplen : ℕ) :
    (pcb.dupAck edge ackno tcplen).Good ∨
      (pcb.dupAck edge ackno tcplen).OneOut ∧ tcplen = 0 := by
  obtain ⟨s, top, hq, hw⟩ := h
  rw [Pcb.dupAck]
  split
  · rename_i hdup
    have hcounted : pcb.noAck.countDupAck.Good := ⟨s, top, { hq with }, hw⟩
    exact (hcounted.onDupAck rfl).imp id fun hout => ⟨hout, hdup.1⟩
  · exact .inl ⟨s, top, { hq with }, hw⟩

/-! ### Windows that are not taken back -/

section

variable {σ : Type} [SeqNo σ] [DecidableEq σ]

/-- What `lastack` becomes. -/
def ackedUpTo (pcb : Pcb σ) (ackno : σ) : σ :=
  if lt pcb.lastack ackno && leq ackno pcb.sndNxt then ackno else pcb.lastack

/-- The segment does not take back window that was granted before. -/
def NotShrunk (pcb : Pcb σ) (seg : InSeg σ) : Prop :=
  pcb.updatesWindow seg = true →
    geq (add (pcb.ackedUpTo seg.ackno) seg.wnd.toNat) (add pcb.lastack pcb.sndWnd) = true

instance (pcb : Pcb σ) (seg : InSeg σ) : Decidable (pcb.NotShrunk seg) :=
  inferInstanceAs (Decidable (_ → _))

end

theorem ackedUpTo_int (pcb : Pcb ℤ) (ackno : ℤ) :
    pcb.ackedUpTo ackno =
      if pcb.lastack < ackno ∧ ackno ≤ pcb.sndNxt then ackno else pcb.lastack := by
  simp [ackedUpTo]

section

variable (pcb : Pcb ℤ) (seg : InSeg ℤ)

@[simp] theorem lastack_updateWindow : (pcb.updateWindow seg).lastack = pcb.lastack := by
  rw [updateWindow]
  split <;> rfl

@[simp] theorem sndNxt_updateWindow : (pcb.updateWindow seg).sndNxt = pcb.sndNxt := by
  rw [updateWindow]
  split <;> rfl

@[simp] theorem unacked_updateWindow : (pcb.updateWindow seg).unacked = pcb.unacked := by
  rw [updateWindow]
  split <;> rfl

@[simp] theorem queue_updateWindow : (pcb.updateWindow seg).queue = pcb.queue := by
  rw [updateWindow]
  split <;> rfl

theorem sndWnd_updateWindow :
    (pcb.updateWindow seg).sndWnd = if pcb.updatesWindow seg then seg.wnd.toNat else pcb.sndWnd := by
  rw [updateWindow]
  split <;> rfl

theorem lastack_dupAck (edge ackno : ℤ) (tcplen : ℕ) :
    (pcb.dupAck edge ackno tcplen).lastack = pcb.lastack := by
  have hfast : ∀ x : Pcb ℤ, x.tcpRexmitFast.lastack = x.lastack := by
    intro x
    rw [Pcb.tcpRexmitFast, tcpRexmit]
    split
    · dsimp only
      split <;> rfl
    · rfl
  rw [dupAck]
  split
  · rw [onDupAck]
    split
    · rfl
    · split
      · exact hfast _
      · rfl
  · rfl

end

theorem NotShrunk.edge {pcb : Pcb ℤ} {seg : InSeg ℤ} (h : pcb.NotShrunk seg) :
    pcb.lastack + pcb.sndWnd ≤ pcb.ackedUpTo seg.ackno + (pcb.updateWindow seg).sndWnd := by
  rw [sndWnd_updateWindow]
  split
  · rename_i hupdates
    have hedge := geq_int.1 (h hupdates)
    simpa using hedge
  · rw [ackedUpTo_int]
    split <;> omega

/-- The queues after the first half of `tcp_receive`.  Only a segment without data leaves one to be
transmitted again. -/
theorem Good.receiveAck {pcb : Pcb ℤ} (h : pcb.Good) {seg : InSeg ℤ} (hns : pcb.NotShrunk seg)
    (tcplen : ℕ) :
    (pcb.receiveAck seg tcplen).Good ∨ (pcb.receiveAck seg tcplen).OneOut ∧ tcplen = 0 := by
  obtain ⟨s, top, hq, hw⟩ := h
  have hedge := hns.edge
  have hq' := hq.updateWindow seg
  rw [Pcb.receiveAck, takeAck, lastack_updateWindow, sndNxt_updateWindow]
  split
  · rename_i hle
    -- nothing new: the edge has not moved, and nothing is dropped from `unsent`
    have hack : pcb.ackedUpTo seg.ackno = pcb.lastack := by
      rw [ackedUpTo_int]
      exact if_neg fun hnew => absurd (leq_int.1 hle) (not_le.2 hnew.1)
    have hgood : (pcb.updateWindow seg).Good := by
      refine ⟨s, top, by rwa [queue_updateWindow], fun x hx => ?_⟩
      have hx' := hw x (by simpa using hx)
      rw [lastack_updateWindow]
      omega
    have hdup := hgood.dupAck (add pcb.sndWl2 pcb.sndWnd) seg.ackno tcplen
    set x := (pcb.updateWindow seg).dupAck (add pcb.sndWl2 pcb.sndWnd) seg.ackno tcplen with hx
    have hlastack : x.lastack = pcb.lastack := by
      rw [hx, lastack_dupAck, lastack_updateWindow]
    have hkeep : x.dropUnsent seg.ackno = x := by
      have hfacts : x.sndQueuelen ≤ 16 ∧ ∀ y ∈ x.unsent, x.lastack < y.seqEnd := by
        rcases hdup with ⟨_, _, hh, -⟩ | ⟨⟨_, _, y, us, hunsent, hh, -⟩, -⟩
        · exact ⟨hh.queuelen_le, fun y hy => (hh.each y (List.mem_append_right _ hy)).2.2⟩
        · refine ⟨hh.queuelen_le, fun z hz => (hh.each z ?_).2.2⟩
          rw [hunsent] at hz
          simp only [List.cons_append, List.mem_cons, List.mem_append] at hz ⊢
          tauto
      refine dropUnsent_of_not (by omega) fun y hy => ?_
      have hlt := hfacts.2 y hy
      have hle' := leq_int.1 hle
      by_contra hne
      have hbetween := (between_int.1 (Bool.eq_true_of_not_eq_false hne)).1
      omega
    rw [hkeep]
    exact hdup
  · rename_i hnot
    have hlow : pcb.lastack < seg.ackno := by
      by_contra hle
      exact hnot (leq_int.2 (not_lt.1 hle))
    split
    · rename_i hbetween
      have hhigh := (between_int.1 hbetween).2
      have hack : pcb.ackedUpTo seg.ackno = seg.ackno := by
        rw [ackedUpTo_int]
        exact if_pos ⟨hlow, hhigh⟩
      have hq' : (pcb.updateWindow seg).Holds s top (pcb.updateWindow seg).queue := by
        rwa [queue_updateWindow]
      refine .inl (hq'.newAck
        (by rwa [lastack_updateWindow]) (by rwa [sndNxt_updateWindow]) fun x hx => ?_)
      have hx' := hw x (by simpa using hx)
      omega
    · rename_i hbetween
      -- what was never sent is not acknowledged
      have hhigh : pcb.sndNxt < seg.ackno := by
        by_contra hle
        refine hbetween (between_int.2 ⟨?_, not_lt.1 hle⟩)
        rw [add_int]
        omega
      have hack : pcb.ackedUpTo seg.ackno = pcb.lastack := by
        rw [ackedUpTo_int]
        exact if_neg (by omega)
      have hgood : (pcb.updateWindow seg).noAck.Good := by
        refine ⟨s, top, { (queue_updateWindow pcb seg ▸ hq') with }, fun x hx => ?_⟩
        have hx' := hw x (unacked_updateWindow pcb seg ▸ hx)
        change x.dataEnd ≤ (pcb.updateWindow seg).lastack + (pcb.updateWindow seg).sndWnd
        rw [lastack_updateWindow]
        omega
      have hkeep : (pcb.updateWindow seg).noAck.dropUnsent seg.ackno = (pcb.updateWindow seg).noAck := by
        have hmax : (pcb.updateWindow seg).sndQueuelen ≤ 16 := hq'.queuelen_le
        refine dropUnsent_of_not (by change (pcb.updateWindow seg).sndQueuelen < _; omega) fun x _ => ?_
        by_contra hne
        have hle : seg.ackno ≤ (pcb.updateWindow seg).sndNxt :=
          (between_int.1 (Bool.eq_true_of_not_eq_false hne)).2
        rw [sndNxt_updateWindow] at hle
        omega
      rw [hkeep]
      exact .inl hgood

end Pcb

end Tcp
end Lwip
