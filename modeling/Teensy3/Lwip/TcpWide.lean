import Teensy3.Lwip.TcpWrapRun

/-!
# The queues of a connection, with sequence numbers of 32 bits

One end alone sees only numbers of 32 bits, and any segments may come in.  Its queues are in order
for the positions that the numbers stand for.  These are found on the way: each event is taken at
the positions that are nearest to what is expected when it happens.

* `Endpoint.liftEdge`, `Pcb.liftSeg`, `Pcb.liftWl`: numbers at their nearest positions;
* `Pcb.admits_of_wrap`: the condition on a segment is the same for the positions;
* `Endpoint.Comparable`: the numbers that an event compares are not too far apart;
* `sound_run`: the queues over every run.
-/

namespace Lwip
namespace Tcp

open SeqNo

namespace Pcb

variable {pcb : Pcb ℤ}

/-! ### The condition on a segment -/

theorem ackedUpTo_wrap (h : pcb.Nearby pcb.queue) {ackno : ℤ} (hack : near ackno pcb.lastack reach) :
    pcb.wrap.ackedUpTo (embed 32 ackno) = embed 32 (pcb.ackedUpTo ackno) := by
  have hlt := lt_embed (near_of_reach hack).2
  have hle := leq_embed (h.near_sndNxt hack)
  rw [ackedUpTo, ackedUpTo, wrap_lastack, wrap_sndNxt, hlt, hle]
  exact (apply_ite (embed 32) _ _ _).symm

theorem notShrunk_of_wrap (h : pcb.Nearby pcb.queue) (hwnd : pcb.sndWnd < 2 ^ 16) {seg : InSeg ℤ}
    (hc : pcb.Close seg) (hack : seg.ack = true) (hns : pcb.wrap.NotShrunk seg.wrap) :
    pcb.NotShrunk seg := by
  intro hupdates
  have hedge := hns ((updatesWindow_wrap hc hack).trans hupdates)
  have hnear : Near 32 (pcb.ackedUpTo seg.ackno + seg.wnd.toNat) (pcb.lastack + pcb.sndWnd) := by
    have hlt := seg.wnd.isLt
    have hnxt := h.sndNxt
    rw [ackedUpTo_int]
    split
    · exact near_of_le (by omega) (by omega)
    · exact near_of_le (by omega) (by omega)
  rwa [InSeg.wrap_ackno, ackedUpTo_wrap h (hc.lastack hack), wrap_lastack, wrap_sndWnd,
    InSeg.wrap_wnd, add_embed, add_embed, geq_embed hnear] at hedge

/-- What must be known of a segment can be told from the numbers. -/
theorem admits_of_wrap (h : pcb.Sound) {seg : InSeg ℤ} (hc : pcb.Close seg)
    (hadmits : pcb.wrap.Admits seg.wrap) : pcb.Admits seg := by
  obtain ⟨hmss, hwindow⟩ := hadmits
  refine ⟨fun hrst hsyn x hx => ?_, fun hstate hack hrst hsyn => ?_⟩
  · have hx' : x.wrap ∈ pcb.wrap.queue := by
      rw [queue, wrap_unacked, wrap_unsent, ← List.map_append]
      exact List.mem_map_of_mem hx
    exact hmss hrst hsyn x.wrap hx'
  · have hgood : pcb.Good := h.resolve_right fun hwaits => hstate hwaits.1
    obtain ⟨hnear, hwnd⟩ := hgood.nearby
    exact notShrunk_of_wrap hnear hwnd hc hack (hwindow hstate hack hrst hsyn)

/-! ### The nearest positions -/

/-- A segment at the positions that are nearest to what is expected. -/
def liftSeg (pcb : Pcb ℤ) (seg : InSeg (BitVec 32)) : InSeg ℤ :=
  ⟨lift pcb.rcvNxt seg.seqno, lift pcb.lastack seg.ackno, seg.wnd, seg.ack, seg.syn, seg.rst, seg.fin,
    seg.opts, seg.p⟩

/-- The last segment that set the window, at the positions that are nearest to this one. -/
def liftWl (pcb : Pcb ℤ) (seg : InSeg ℤ) : Pcb ℤ :=
  { pcb with
    sndWl1 := lift seg.seqno (embed 32 pcb.sndWl1)
    sndWl2 := lift seg.ackno (embed 32 pcb.sndWl2) }

theorem wrap_liftSeg (pcb : Pcb ℤ) (seg : InSeg (BitVec 32)) : (pcb.liftSeg seg).wrap = seg := by
  simp [liftSeg, InSeg.wrap]

theorem wrap_liftWl (pcb : Pcb ℤ) (seg : InSeg ℤ) : (pcb.liftWl seg).wrap = pcb.wrap := by
  simp [liftWl, wrap]

theorem close_lift {seg : InSeg (BitVec 32)} (hc : pcb.wrap.Close seg) :
    (pcb.liftWl (pcb.liftSeg seg)).Close (pcb.liftSeg seg) where
  rcvNxt := near_lift hc.rcvNxt
  len := hc.len
  sndWl1 := fun hack => by
    refine near_lift ?_
    change near (embed 32 pcb.sndWl1) (embed 32 (lift pcb.rcvNxt seg.seqno)) reach
    rw [embed_lift]
    exact hc.sndWl1 hack
  lastack := fun hack => near_lift (hc.lastack hack)
  sndWl2 := fun hack => by
    refine near_lift ?_
    change near (embed 32 pcb.sndWl2) (embed 32 (lift pcb.lastack seg.ackno)) reach
    rw [embed_lift]
    exact hc.sndWl2 hack

theorem Steady.liftWl {k : ℤ} (h : pcb.Steady k) (seg : InSeg ℤ) : (pcb.liftWl seg).Steady k :=
  h.of_same ⟨⟨rfl, id⟩, rfl, rfl⟩ rfl (h.edge.of_eq rfl rfl rfl rfl)

end Pcb

namespace Endpoint

variable {e : Endpoint ℤ}

/-- The announced edge at the position that is nearest to what was received. -/
def liftEdge (e : Endpoint ℤ) : Endpoint ℤ :=
  { e with
    pcb := { e.pcb with rcvAnnRightEdge := lift e.pcb.rcvNxt (embed 32 e.pcb.rcvAnnRightEdge) } }

theorem wrap_liftEdge (e : Endpoint ℤ) : e.liftEdge.wrap = e.wrap := by
  simp [liftEdge, wrap, Pcb.wrap]

theorem Resting.liftEdge (h : e.Resting) : e.liftEdge.Resting :=
  ⟨fun halive => (h.sound halive).of_same ⟨⟨rfl, id⟩, rfl, rfl⟩ rfl, h.bounded⟩

theorem edgeClose_liftEdge (h : e.wrap.EdgeClose) : e.liftEdge.EdgeClose :=
  fun halive => near_lift (h halive)

/-! ### Runs of one end -/

section

variable {σ : Type} [SeqNo σ] [DecidableEq σ]

/-- The numbers that an event compares are not too far apart. -/
def Comparable (e : Endpoint σ) : EndEvent σ → Prop
  | .own _ => e.EdgeClose
  | .segment seg cbs _ => e.EdgeClose ∧ e.CloseTo seg cbs

instance (e : Endpoint σ) : (ev : EndEvent σ) → Decidable (e.Comparable ev)
  | .own _ => inferInstanceAs (Decidable e.EdgeClose)
  | .segment seg cbs _ => inferInstanceAs (Decidable (e.EdgeClose ∧ e.CloseTo seg cbs))

end

/-- The positions of a segment, and what becomes of the connection with them. -/
theorem exists_follows_process (h : e.pcb.Steady 0) {seg : InSeg (BitVec 32)}
    (hadmits : e.wrap.pcb.Admits seg) (hc : e.wrap.pcb.Close seg) (cbs : Callbacks) (alloc : Bool) :
    ∃ e' : Endpoint ℤ, Follows (2 ^ 16) (e.wrap.process seg cbs alloc) e' := by
  set seg' := e.pcb.liftSeg seg with hseg
  set lifted : Endpoint ℤ := { e with pcb := e.pcb.liftWl seg' } with hlifted
  have hwrapSeg : seg'.wrap = seg := Pcb.wrap_liftSeg e.pcb seg
  have hwrapPcb : lifted.pcb.wrap = e.wrap.pcb := Pcb.wrap_liftWl e.pcb seg'
  have hwrap : lifted.wrap = e.wrap := by
    rw [wrap, hwrapPcb]
    rfl
  have hsteady : lifted.pcb.Steady 0 := h.liftWl seg'
  have hclose : lifted.pcb.Close seg' := Pcb.close_lift hc
  have hadmits' : lifted.pcb.Admits seg' := by
    refine Pcb.admits_of_wrap hsteady.sound hclose ?_
    rwa [hwrapPcb, hwrapSeg]
  have hprocess := follows_process hsteady hadmits' hclose cbs alloc
  rw [hwrap, hwrapSeg] at hprocess
  exact ⟨_, hprocess⟩

theorem exists_follows_input (h : e.pcb.Steady 0) (halive : e.fate = .alive)
    {seg : InSeg (BitVec 32)} {cbs : Callbacks}
    (hadmits : (e.wrap.retried cbs).fate = .alive → (e.wrap.retried cbs).pcb.Admits seg)
    (hc : e.wrap.CloseTo seg cbs) (alloc : Bool) :
    ∃ e' : Endpoint ℤ, Follows (2 ^ 16) (e.wrap.input seg cbs alloc) e' := by
  have hretry := follows_retry h slack_zero cbs.again
  rw [CloseTo] at hc
  by_cases hwait : e.wrap.pcb.state = .timeWait
  · -- the segment alone is at its positions, and nothing is passed on
    rw [retried, if_pos hwait] at hc
    have hclose := Pcb.close_lift (hc halive)
    have hsteady := h.liftWl (e.pcb.liftSeg seg)
    have hinput := hsteady.sound.tcpTimewaitInput_wrap hsteady.edge hclose alloc
    rw [Pcb.wrap_liftSeg, Pcb.wrap_liftWl] at hinput
    have hpcb : e.wrap.pcb = e.pcb.wrap := rfl
    rw [input, if_pos hwait, hpcb, hinput]
    set out := (e.pcb.liftWl (e.pcb.liftSeg seg)).tcpTimewaitInput (e.pcb.liftSeg seg) alloc with hout
    have hsends : Sends _ out := sends_tcpTimewaitInput _ _ alloc
    have hedge := (hsteady.edge.weaker le_rfl hsends.1).mono slack_segment.1
    rw [emit_wrap]
    exact ⟨_, follows_of_steady ⟨hedge, hsteady.sound.tcpTimewaitInput _ alloc⟩⟩
  · rw [retried, if_neg hwait] at hc hadmits
    rw [input, if_neg hwait]
    split
    · exact ⟨_, hretry.mono slack_segment.1⟩
    · rw [hretry.wrap] at hc hadmits ⊢
      rw [Endpoint.andThen]
      split
      · rename_i halive'
        have hsteady := hretry.steady halive'
        exact exists_follows_process hsteady (hadmits halive') (hc halive') cbs alloc
      · rename_i hended
        exact ⟨_, rfl, fun halive => absurd halive hended⟩

/-- One event, at the positions that are nearest to what is expected. -/
theorem exists_resting_step {x : Endpoint (BitVec 32)}
    (h : ∃ e : Endpoint ℤ, x = e.wrap ∧ e.Resting) {ev : EndEvent (BitVec 32)}
    (hev : x.Admits ev ∧ x.Comparable ev) :
    ∃ e' : Endpoint ℤ, x.step ev = e'.wrap ∧ e'.Resting := by
  obtain ⟨e, rfl, hresting⟩ := h
  obtain ⟨hadmits, hc⟩ := hev
  have hlifted := hresting.liftEdge
  have hwrap := wrap_liftEdge e
  cases ev with
  | own ev =>
    obtain ⟨hstep, hrest⟩ := resting_own hlifted (edgeClose_liftEdge hc) ev
    rw [hwrap] at hstep
    exact ⟨_, hstep, hrest⟩
  | segment seg cbs alloc =>
    rw [step, Endpoint.andThen]
    split
    · rename_i halive
      have hsteady := hlifted.steady (edgeClose_liftEdge hc.1) halive
      rw [← hwrap] at hadmits hc ⊢
      obtain ⟨e', hfollows⟩ := exists_follows_input hsteady halive hadmits hc.2 alloc
      exact ⟨e', hfollows.wrap, hfollows.resting⟩
    · exact ⟨e, rfl, hresting⟩

end Endpoint

end Tcp
end Lwip
