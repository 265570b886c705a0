import Teensy3.Lwip.TcpSound

/-!
# What a connection queues and sends

All operations but writing and closing queue nothing that was not queued, and what they send comes
from the queues.  The exception is the probe of a closed window for a segment that was transmitted:
its byte is the first one of the segment only by chance.

* `Fewer`, `Calm`, `Weaker`: an operation that queues nothing new, one that keeps what was refused,
  and one that does both and expects the same of the other side;
* `FromQueue`, `Sends`: packets that come from the queues;
* `Pcb.ProbesRight`: the condition on a probe;
* one lemma for each operation, up to `sends_tcpSlowtmr` and `fewer_tcpProcess`.
-/

namespace Lwip
namespace Tcp

open SeqNo

/-- No more data is passed to the application. -/
def Pcb.Shut {σ : Type} (pcb : Pcb σ) : Prop := pcb.rxClosed = true ∨ pcb.state = .timeWait

/-- `pcb'` queues nothing that `pcb` does not; but it may have been transmitted. -/
structure Fewer (pcb pcb' : Pcb ℤ) : Prop where
  queue : ∀ seg ∈ pcb'.queue, ∃ m, { seg with moved := m } ∈ pcb.queue
  sndLbb : pcb'.sndLbb = pcb.sndLbb
  isOpen : pcb'.isOpen = true → pcb.isOpen = true

/-- What was refused is given up only if no more data is passed on, and this cannot be undone. -/
structure Calm (pcb pcb' : Pcb ℤ) : Prop where
  rxClosed : pcb.rxClosed = true → pcb'.rxClosed = true
  timeWait : pcb.state = .timeWait → pcb'.state = .timeWait
  refusedData : pcb'.refusedData = pcb.refusedData ∨ pcb'.refusedData = [] ∧ pcb'.Shut

/-- `pcb'` also expects the same of the other side.  The announced edge may be brought up to date. -/
structure Weaker (pcb pcb' : Pcb ℤ) : Prop extends Fewer pcb pcb', Calm pcb pcb' where
  rcvNxt : pcb'.rcvNxt = pcb.rcvNxt
  rcvWnd : pcb'.rcvWnd = pcb.rcvWnd
  rcvAnnWnd : pcb'.rcvAnnWnd = pcb.rcvAnnWnd
  edge : pcb'.rcvAnnRightEdge = pcb.rcvAnnRightEdge ∨
    pcb'.rcvAnnRightEdge = pcb.rcvNxt + pcb.rcvAnnWnd

theorem Fewer.trans {x y z : Pcb ℤ} (hxy : Fewer x y) (hyz : Fewer y z) : Fewer x z := by
  refine ⟨fun seg h => ?_, hyz.sndLbb.trans hxy.sndLbb, fun h => hxy.isOpen (hyz.isOpen h)⟩
  obtain ⟨m, hm⟩ := hyz.queue seg h
  obtain ⟨m', hm'⟩ := hxy.queue _ hm
  exact ⟨m', hm'⟩

theorem Calm.shut {pcb pcb' : Pcb ℤ} (h : Calm pcb pcb') (hshut : pcb.Shut) : pcb'.Shut :=
  hshut.imp h.rxClosed h.timeWait

theorem Calm.trans {x y z : Pcb ℤ} (hxy : Calm x y) (hyz : Calm y z) : Calm x z where
  rxClosed := fun h => hyz.rxClosed (hxy.rxClosed h)
  timeWait := fun h => hyz.timeWait (hxy.timeWait h)
  refusedData := by
    rcases hyz.refusedData with h | h
    · rw [h]
      exact hxy.refusedData.imp id fun ⟨hnil, hshut⟩ => ⟨hnil, hyz.shut hshut⟩
    · exact .inr h

theorem Calm.of_eq {pcb pcb' : Pcb ℤ} (hstate : pcb'.state = pcb.state)
    (hrx : pcb'.rxClosed = pcb.rxClosed) (hrefused : pcb'.refusedData = pcb.refusedData) :
    Calm pcb pcb' where
  rxClosed := fun h => hrx.trans h
  timeWait := fun h => hstate.trans h
  refusedData := .inl hrefused

theorem Weaker.trans {x y z : Pcb ℤ} (hxy : Weaker x y) (hyz : Weaker y z) : Weaker x z where
  toFewer := hxy.toFewer.trans hyz.toFewer
  toCalm := hxy.toCalm.trans hyz.toCalm
  rcvNxt := hyz.rcvNxt.trans hxy.rcvNxt
  rcvWnd := hyz.rcvWnd.trans hxy.rcvWnd
  rcvAnnWnd := hyz.rcvAnnWnd.trans hxy.rcvAnnWnd
  edge := by
    rcases hyz.edge with h | h
    · rw [h]
      exact hxy.edge
    · rw [h, hxy.rcvNxt, hxy.rcvAnnWnd]
      exact .inr rfl

/-- What `Weaker` compares, without the queues. -/
structure Kept where
  sndLbb : ℤ
  state : TcpState
  rxClosed : Bool
  rcvNxt : ℤ
  rcvWnd : ℕ
  rcvAnnWnd : ℕ
  rcvAnnRightEdge : ℤ
  refusedData : List Byte

def Pcb.kept (pcb : Pcb ℤ) : Kept :=
  ⟨pcb.sndLbb, pcb.state, pcb.rxClosed, pcb.rcvNxt, pcb.rcvWnd, pcb.rcvAnnWnd, pcb.rcvAnnRightEdge,
    pcb.refusedData⟩

theorem weaker_of_kept {pcb pcb' : Pcb ℤ}
    (hqueue : ∀ seg ∈ pcb'.queue, ∃ m, { seg with moved := m } ∈ pcb.queue)
    (h : pcb'.kept = pcb.kept) : Weaker pcb pcb' := by
  have hstate : pcb'.state = pcb.state := congrArg Kept.state h
  exact {
    toCalm := .of_eq hstate (congrArg Kept.rxClosed h) (congrArg Kept.refusedData h)
    queue := hqueue
    sndLbb := congrArg Kept.sndLbb h
    isOpen := fun hopen => by rwa [Pcb.isOpen, hstate] at hopen
    rcvNxt := congrArg Kept.rcvNxt h
    rcvWnd := congrArg Kept.rcvWnd h
    rcvAnnWnd := congrArg Kept.rcvAnnWnd h
    edge := .inl (congrArg Kept.rcvAnnRightEdge h) }

theorem Weaker.of_same {pcb pcb' : Pcb ℤ} (hqueue : pcb'.queue = pcb.queue)
    (h : pcb'.kept = pcb.kept) : Weaker pcb pcb' :=
  weaker_of_kept (fun seg hseg => ⟨seg.moved, hqueue ▸ hseg⟩) h

theorem Weaker.refl (pcb : Pcb ℤ) : Weaker pcb pcb := .of_same rfl rfl

theorem weaker_announced (pcb : Pcb ℤ) : Weaker pcb pcb.announced :=
  { Weaker.refl pcb with edge := .inr rfl }

theorem Pcb.SameSend.fewer {pcb pcb' : Pcb ℤ} (h : Pcb.SameSend pcb pcb') : Fewer pcb pcb' :=
  ⟨fun seg hseg => ⟨seg.moved, h.queue ▸ hseg⟩, h.sndLbb, h.isOpen⟩

/-- A packet without contents, or with those of a queued segment, or of its first byte. -/
def FromQueue (pcb : Pcb ℤ) (p : Packet ℤ) : Prop :=
  p.data = [] ∧ p.fin = false ∨
    ∃ seg ∈ pcb.queue, p.seqno = seg.seqno ∧
      (p.data = seg.data ∧ p.fin = seg.fin ∨ p.data = seg.data.take 1 ∧ p.fin = false)

theorem FromQueue.fewer {x y : Pcb ℤ} (hxy : Fewer x y) {p : Packet ℤ} (h : FromQueue y p) :
    FromQueue x p := by
  rcases h with h | ⟨seg, hseg, h⟩
  · exact .inl h
  · obtain ⟨m, hm⟩ := hxy.queue seg hseg
    exact .inr ⟨_, hm, h⟩

/-- What an operation that may transmit does. -/
def Sends (pcb : Pcb ℤ) (out : Pcb ℤ × List (Packet ℤ)) : Prop :=
  Weaker pcb out.1 ∧ ∀ p ∈ out.2, FromQueue pcb p

theorem Sends.of_weaker {x y : Pcb ℤ} {out : Pcb ℤ × List (Packet ℤ)} (hxy : Weaker x y)
    (h : Sends y out) : Sends x out :=
  ⟨hxy.trans h.1, fun p hp => (h.2 p hp).fewer hxy.toFewer⟩

theorem sends_nil (pcb : Pcb ℤ) : Sends pcb (pcb, []) := ⟨Weaker.refl pcb, by simp⟩

/-- A packet without contents. -/
theorem Sends.empty {pcb : Pcb ℤ} {out : Pcb ℤ} (h : Weaker pcb out) {p : Packet ℤ}
    (hp : p.data = [] ∧ p.fin = false) : Sends pcb (out, [p]) := by
  refine ⟨h, fun x hx => ?_⟩
  rw [List.mem_singleton.1 hx]
  exact .inl hp

theorem mem_insertSeg {x seg : Seg ℤ} {q : List (Seg ℤ)} : x ∈ insertSeg seg q ↔ x = seg ∨ x ∈ q := by
  induction q with
  | nil => simp [insertSeg]
  | cons cur q ih =>
    rw [insertSeg]
    split
    · rw [List.mem_cons, ih, List.mem_cons]
      tauto
    · rw [List.mem_cons]

theorem mem_queueUnacked {x seg : Seg ℤ} {q : List (Seg ℤ)} :
    x ∈ queueUnacked seg q ↔ x = seg ∨ x ∈ q := by
  rw [queueUnacked]
  split
  · rename_i hnil
    rw [List.getLast?_eq_none_iff.1 hnil]
    simp
  · split
    · exact mem_insertSeg
    · rw [List.mem_append, List.mem_singleton, or_comm]

/-- If a probe is due, the byte that it sends is the first one of the segment, or it sends a `FIN`. -/
def Pcb.ProbesRight {σ : Type} (pcb : Pcb σ) (stray : Byte) : Prop :=
  0 < pcb.persistBackoff → pcb.persistDue = true → ∀ seg ∈ pcb.queue.head?,
    seg.fin = true ∧ seg.len = 0 ∨ Pcb.probeByte seg stray = seg.data.take 1

instance {σ : Type} (pcb : Pcb σ) (stray : Byte) : Decidable (pcb.ProbesRight stray) :=
  inferInstanceAs (Decidable (_ → _ → ∀ seg ∈ _, _))

section Operations

variable (pcb : Pcb ℤ)

/-! ### Transmitting -/

theorem sends_tcpSendEmptyAck (alloc : Bool) : Sends pcb (pcb.tcpSendEmptyAck alloc) := by
  rw [Pcb.tcpSendEmptyAck]
  split
  · refine Sends.empty (Weaker.trans (weaker_announced pcb) ?_) ?_
    · exact .of_same rfl rfl
    · exact ⟨rfl, rfl⟩
  · exact sends_nil pcb

theorem sends_tcpZeroWindowProbe {stray : Byte} (alloc : Bool)
    (hprobe : ∀ seg ∈ pcb.queue.head?,
      seg.fin = true ∧ seg.len = 0 ∨ Pcb.probeByte seg stray = seg.data.take 1) :
    Sends pcb (pcb.tcpZeroWindowProbe stray alloc) := by
  rw [Pcb.tcpZeroWindowProbe]
  split
  · exact sends_nil pcb
  · rename_i seg queue hqueue
    have hhead : pcb.queue.head? = some seg := by
      rw [Pcb.queue, hqueue]
      rfl
    split
    · refine ⟨weaker_announced pcb, fun p hp => ?_⟩
      rw [List.mem_singleton.1 hp]
      refine .inr ⟨seg, List.mem_of_head? hhead, rfl, ?_⟩
      by_cases hfin : seg.fin = true ∧ seg.len = 0
      · have hnil : seg.data = [] := List.eq_nil_of_length_eq_zero hfin.2
        exact .inl ⟨by simp [Pcb.packet, hfin, hnil], by simp [Pcb.packet, hfin]⟩
      · have hboth : (seg.fin && decide (seg.len = 0)) = false := by
          by_contra hne
          exact hfin (by simpa using hne)
        have hbyte := (hprobe seg hhead).resolve_left hfin
        exact .inr ⟨by simp [Pcb.packet, hboth, hbyte], by simp [Pcb.packet, hboth]⟩
    · exact sends_nil pcb

theorem sends_outputLoop (wnd : ℕ) (unsent : List (Seg ℤ)) :
    Sends { pcb with unsent := unsent } (Pcb.outputLoop wnd unsent pcb) := by
  induction unsent generalizing pcb with
  | nil => exact sends_nil _
  | cons seg unsent ih =>
    rw [Pcb.outputLoop]
    split
    · split
      · have hsent : Weaker { pcb with unsent := seg :: unsent }
            { pcb.sendSeg seg with unsent := unsent } := by
          refine (weaker_announced _).trans (weaker_of_kept (fun x hx => ?_) rfl)
          simp only [Pcb.queue, Pcb.sendSeg, Pcb.announced, List.mem_append, List.mem_cons] at hx ⊢
          rcases hx with hx | hx
          · split at hx
            · rcases mem_queueUnacked.1 hx with rfl | hx
              · exact ⟨seg.moved, .inr (.inl rfl)⟩
              · exact ⟨x.moved, .inl hx⟩
            · exact ⟨x.moved, .inl hx⟩
          · exact ⟨x.moved, .inr (.inr hx)⟩
        have hrest := (ih (pcb.sendSeg seg)).of_weaker hsent
        refine ⟨hrest.1, fun p hp => ?_⟩
        rcases List.mem_cons.1 hp with rfl | hp
        · refine .inr ⟨seg, ?_, rfl, .inl ⟨rfl, rfl⟩⟩
          simp [Pcb.queue]
        · exact hrest.2 p hp
      · exact sends_nil _
    · exact sends_nil _

theorem weaker_outputDone : Weaker pcb pcb.outputDone := by
  rw [Pcb.outputDone]
  split
  · exact .of_same rfl rfl
  · split <;> exact .of_same rfl rfl

theorem sends_tcpOutput (alloc : Bool) : Sends pcb (pcb.tcpOutput alloc) := by
  rw [Pcb.tcpOutput]
  split
  · exact sends_tcpSendEmptyAck pcb alloc
  · have hloop := sends_outputLoop pcb (min pcb.sndWnd pcb.cwnd) pcb.unsent
    exact ⟨hloop.1.trans (weaker_outputDone _), hloop.2⟩

theorem sends_tcpKeepalive (alloc : Bool) : Sends pcb (pcb.tcpKeepalive alloc) := by
  rw [Pcb.tcpKeepalive]
  split
  · refine Sends.empty (weaker_announced pcb) ?_
    exact ⟨rfl, rfl⟩
  · exact sends_nil pcb

theorem fromQueue_tcpRst {seqno ackno : ℤ} {alloc : Bool} :
    ∀ p ∈ tcpRst seqno ackno alloc, FromQueue pcb p := by
  intro p hp
  rw [tcpRst] at hp
  split at hp
  · rw [List.mem_singleton.1 hp]
    exact .inl ⟨rfl, rfl⟩
  · simp at hp

theorem sends_tcpRexmitRto (alloc : Bool) : Sends pcb (pcb.tcpRexmitRto alloc) := by
  rw [Pcb.tcpRexmitRto]
  split
  · exact sends_nil pcb
  · refine Sends.of_weaker ?_ (sends_tcpOutput _ alloc)
    exact weaker_of_kept (fun x hx => ⟨x.moved, by simpa [Pcb.queue] using hx⟩) rfl

theorem sends_retransmit (alloc : Bool) : Sends pcb (pcb.retransmit alloc) := by
  refine Sends.of_weaker ?_ (sends_tcpRexmitRto _ alloc)
  exact .of_same rfl rfl

theorem sends_tcpSlowtmr (rto : ℤ) {stray : Byte} (hprobe : pcb.ProbesRight stray) (alloc : Bool) :
    Sends pcb (pcb.tcpSlowtmr rto stray alloc) := by
  rw [Pcb.tcpSlowtmr]
  split
  · rename_i hbackoff
    split
    · rename_i hdue
      refine Sends.of_weaker ?_ (sends_tcpZeroWindowProbe _ alloc (hprobe hbackoff hdue))
      exact .of_same rfl rfl
    · exact ⟨.of_same rfl rfl, by simp⟩
  · split
    · refine Sends.of_weaker ?_ (sends_retransmit _ alloc)
      exact .of_same rfl rfl
    · exact ⟨.of_same rfl rfl, by simp⟩

/-- Whatever byte a probe sends, the connection does not change. -/
theorem weaker_tcpSlowtmr (rto : ℤ) (stray : Byte) (alloc : Bool) :
    Weaker pcb (pcb.tcpSlowtmr rto stray alloc).1 := by
  have hprobe : ∀ x : Pcb ℤ, Weaker x (x.tcpZeroWindowProbe stray alloc).1 := by
    intro x
    rw [Pcb.tcpZeroWindowProbe]
    split
    · exact Weaker.refl x
    · split
      · exact weaker_announced x
      · exact Weaker.refl x
  rw [Pcb.tcpSlowtmr]
  split
  · split
    · refine Weaker.trans ?_ (hprobe _)
      exact .of_same rfl rfl
    · exact .of_same rfl rfl
  · split
    · refine Weaker.trans ?_ (sends_retransmit _ alloc).1
      exact .of_same rfl rfl
    · exact .of_same rfl rfl

theorem sends_tcpFasttmr (alloc : Bool) : Sends pcb (pcb.tcpFasttmr alloc) := by
  rw [Pcb.tcpFasttmr]
  split
  · have hout : Sends pcb ({ pcb with ackNow := true }.tcpOutput alloc) := by
      refine Sends.of_weaker ?_ (sends_tcpOutput _ alloc)
      exact .of_same rfl rfl
    exact ⟨Weaker.trans hout.1 (.of_same rfl rfl), hout.2⟩
  · exact sends_nil pcb

theorem sends_tcpTimewaitInput (seg : InSeg ℤ) (alloc : Bool) :
    Sends pcb (pcb.tcpTimewaitInput seg alloc) := by
  rw [Pcb.tcpTimewaitInput]
  split
  · exact sends_nil pcb
  · split
    · exact ⟨Weaker.refl pcb, fromQueue_tcpRst pcb⟩
    · split
      · refine Sends.of_weaker ?_ (sends_tcpOutput _ alloc)
        exact .of_same rfl rfl
      · exact sends_nil pcb

/-- When a control block is removed, nothing is sent but an acknowledgement. -/
theorem fewer_tcpPcbPurge : Fewer pcb pcb.tcpPcbPurge := by
  rw [Pcb.tcpPcbPurge]
  split
  · exact (Weaker.refl pcb).toFewer
  · exact ⟨by simp [Pcb.queue], rfl, id⟩

theorem fewer_tcpPcbRemove (alloc : Bool) :
    Fewer pcb (pcb.tcpPcbRemove alloc).1 ∧ ∀ p ∈ (pcb.tcpPcbRemove alloc).2, FromQueue pcb p := by
  have hpurge := fewer_tcpPcbPurge pcb
  rw [Pcb.tcpPcbRemove]
  split
  · have hout : Sends pcb.tcpPcbPurge ({ pcb.tcpPcbPurge with ackNow := true }.tcpOutput alloc) := by
      refine Sends.of_weaker ?_ (sends_tcpOutput _ alloc)
      exact .of_same rfl rfl
    exact ⟨hpurge.trans hout.1.toFewer, fun p hp => (hout.2 p hp).fewer hpurge⟩
  · exact ⟨hpurge, by simp⟩

/-! ### Acknowledgements -/

theorem weaker_tcpRexmitFast : Weaker pcb pcb.tcpRexmitFast := by
  rw [Pcb.tcpRexmitFast]
  split
  · rw [Pcb.tcpRexmit]
    split
    · exact .of_same rfl rfl
    · rename_i seg unacked hunacked
      refine weaker_of_kept (fun x hx => ⟨x.moved, ?_⟩) rfl
      simp only [Pcb.queue, List.mem_append, mem_insertSeg] at hx
      simp only [Pcb.queue, hunacked, List.mem_append, List.mem_cons]
      tauto
  · exact Weaker.refl pcb

theorem mem_dropAcked {done : Seg ℤ → Bool} {q : List (Seg ℤ)} {acked : ℕ} {x : Seg ℤ}
    (hx : x ∈ (Pcb.dropAcked done q acked).1) : x ∈ q := by
  induction q generalizing acked with
  | nil => exact hx
  | cons seg q ih =>
    rw [Pcb.dropAcked] at hx
    split at hx
    · exact List.mem_cons_of_mem _ (ih hx)
    · exact hx

theorem weaker_dropUnacked (ackno : ℤ) : Weaker pcb (pcb.dropUnacked ackno) := by
  refine weaker_of_kept (fun x hx => ⟨x.moved, ?_⟩) rfl
  rcases List.mem_append.1 hx with hx | hx
  · exact List.mem_append_left _ (mem_dropAcked hx)
  · exact List.mem_append_right _ hx

theorem weaker_dropUnsent (ackno : ℤ) : Weaker pcb (pcb.dropUnsent ackno) := by
  refine weaker_of_kept (fun x hx => ⟨x.moved, ?_⟩) rfl
  rcases List.mem_append.1 hx with hx | hx
  · exact List.mem_append_left _ hx
  · exact List.mem_append_right _ (mem_dropAcked hx)

theorem weaker_updateWindow (seg : InSeg ℤ) : Weaker pcb (pcb.updateWindow seg) := by
  rw [Pcb.updateWindow]
  split <;> exact .of_same rfl rfl

theorem weaker_onDupAck : Weaker pcb pcb.onDupAck := by
  rw [Pcb.onDupAck]
  split
  · exact .of_same rfl rfl
  · split
    · exact weaker_tcpRexmitFast pcb
    · exact Weaker.refl pcb

theorem weaker_dupAck (edge ackno : ℤ) (tcplen : ℕ) : Weaker pcb (pcb.dupAck edge ackno tcplen) := by
  rw [Pcb.dupAck]
  split
  · refine Weaker.trans ?_ (weaker_onDupAck _)
    exact .of_same rfl rfl
  · exact .of_same rfl rfl

theorem weaker_newAck (ackno : ℤ) : Weaker pcb (pcb.newAck ackno) := by
  have hcount : Weaker pcb (pcb.countAck ackno).openCwnd := .of_same rfl rfl
  exact (hcount.trans (weaker_dropUnacked _ ackno)).trans (.of_same rfl rfl)

theorem weaker_takeAck (edge ackno : ℤ) (tcplen : ℕ) : Weaker pcb (pcb.takeAck edge ackno tcplen) := by
  rw [Pcb.takeAck]
  split
  · exact weaker_dupAck pcb edge ackno tcplen
  · split
    · exact weaker_newAck pcb ackno
    · exact .of_same rfl rfl

theorem weaker_receiveAck (seg : InSeg ℤ) (tcplen : ℕ) : Weaker pcb (pcb.receiveAck seg tcplen) :=
  ((weaker_updateWindow pcb seg).trans (weaker_takeAck _ _ _ _)).trans (weaker_dropUnsent _ _)

/-- What comes before the data of a segment is looked at. -/
theorem weaker_beforeData (seg : InSeg ℤ) : Weaker pcb (pcb.beforeData seg) := by
  have hopts : Weaker pcb (pcb.tcpParseopt seg.opts) := .of_same rfl rfl
  rw [Pcb.beforeData]
  split
  · exact hopts.trans (weaker_receiveAck _ seg _)
  · exact hopts

/-! ### The states -/

theorem weaker_timeWait : Weaker pcb pcb.timeWait := by
  rw [Pcb.timeWait, Pcb.tcpPcbPurge]
  split
  · exact {
      Weaker.refl pcb with
      isOpen := fun h => by simp [Pcb.isOpen] at h
      refusedData := .inl rfl
      timeWait := fun _ => rfl }
  · exact {
      Weaker.refl pcb with
      queue := by simp [Pcb.queue]
      isOpen := fun h => by simp [Pcb.isOpen] at h
      refusedData := .inr ⟨rfl, .inr rfl⟩
      timeWait := fun _ => rfl }

/-- The transitions change nothing that matters here but the state, and drop queues. -/
theorem weaker_transition (r : Pcb.Received ℤ) (seg : InSeg ℤ) :
    Weaker r.pcb (Pcb.transition r seg).1.pcb ∧ (Pcb.transition r seg).1.out = r.out := by
  have hstate : ∀ next ackNow, r.pcb.state ≠ .timeWait →
      (next = .established ∨ next = .closeWait → r.pcb.isOpen = true) →
      Weaker r.pcb { r.pcb with ackNow := ackNow, state := next } := by
    intro next ackNow hwait hopen
    exact {
      Weaker.refl r.pcb with
      isOpen := fun h => hopen (of_decide_eq_true h)
      timeWait := fun h => absurd h hwait
      refusedData := .inl rfl }
  have hwait : Weaker r.pcb { r.pcb with ackNow := true }.timeWait := by
    refine Weaker.trans ?_ (weaker_timeWait _)
    exact .of_same rfl rfl
  have hrefl := Weaker.refl r.pcb
  rw [Pcb.transition]
  split
  · rename_i hopen
    split
    · exact ⟨hstate _ _ (by simp [hopen]) fun _ => by simp [Pcb.isOpen, hopen], rfl⟩
    · exact ⟨hrefl, rfl⟩
  · rename_i hopen
    split
    · exact ⟨hstate _ _ (by simp [hopen]) fun _ => by simp [Pcb.isOpen, hopen], rfl⟩
    · exact ⟨hrefl, rfl⟩
  · rename_i hfin
    split
    · split
      · exact ⟨hwait, rfl⟩
      · exact ⟨hstate _ _ (by simp [hfin]) (by simp), rfl⟩
    · split
      · exact ⟨hstate .finWait2 r.pcb.ackNow (by simp [hfin]) (by simp), rfl⟩
      · exact ⟨hrefl, rfl⟩
  · split
    · exact ⟨hwait, rfl⟩
    · exact ⟨hrefl, rfl⟩
  · split
    · exact ⟨weaker_timeWait _, rfl⟩
    · exact ⟨hrefl, rfl⟩
  · split <;> exact ⟨hrefl, rfl⟩
  · exact ⟨hrefl, rfl⟩

/-- While data is received, nothing but an empty acknowledgement is sent. -/
theorem out_receiveData (seg : InSeg ℤ) (tcplen : ℕ) (alloc : Bool) (x : Pcb ℤ) :
    ∀ p ∈ (x.receiveData seg tcplen alloc).out, FromQueue pcb p := by
  have hempty : ∀ y : Pcb ℤ, ∀ p ∈ (y.tcpSendEmptyAck alloc).2, FromQueue pcb p := by
    intro y p hp
    rw [Pcb.tcpSendEmptyAck] at hp
    split at hp
    · rw [List.mem_singleton.1 hp]
      exact .inl ⟨rfl, rfl⟩
    · simp at hp
  rw [Pcb.receiveData]
  split
  · split
    · dsimp only
      split
      · simp [Pcb.accept]
      · exact hempty _
    · dsimp only
      split
      · simp [Pcb.accept]
      · exact hempty _
  · split <;> simp

theorem calm_receiveData (seg : InSeg ℤ) (tcplen : ℕ) (alloc : Bool) :
    Calm pcb (pcb.receiveData seg tcplen alloc).pcb := by
  have haccept : ∀ (x : Pcb ℤ) p fin, Calm x (x.accept p fin).pcb := by
    intro x p fin
    obtain ⟨wnd, ann, delay, now, heq⟩ := x.accept_eq p fin
    rw [heq]
    exact .of_eq rfl rfl rfl
  have hempty := fun x : Pcb ℤ => (sends_tcpSendEmptyAck x alloc).1.toCalm
  have hold : Calm pcb (pcb.ackOld seg.seqno) := .of_eq rfl rfl rfl
  rw [Pcb.receiveData]
  split
  · split
    · dsimp only
      split
      · exact haccept _ _ _
      · exact hempty _
    · dsimp only
      split
      · exact hold.trans (haccept _ _ _)
      · exact hold.trans (hempty _)
  · split <;> exact .of_eq rfl rfl rfl

theorem fewer_tcpProcess (seg : InSeg ℤ) (alloc : Bool) :
    Fewer pcb (pcb.tcpProcess seg alloc).1.pcb ∧ Calm pcb (pcb.tcpProcess seg alloc).1.pcb ∧
      ∀ p ∈ (pcb.tcpProcess seg alloc).1.out, FromQueue pcb p := by
  have hsame : ∀ {x : Pcb ℤ}, x.queue = pcb.queue → x.kept = pcb.kept →
      Fewer pcb x ∧ Calm pcb x ∧ ∀ p ∈ ([] : List (Packet ℤ)), FromQueue pcb p := by
    intro x hqueue hkept
    have hweaker := Weaker.of_same hqueue hkept
    exact ⟨hweaker.toFewer, hweaker.toCalm, by simp⟩
  rcases Pcb.tcpProcess_cases pcb seg alloc with
    ⟨delay, now, fate, heq⟩ | ⟨-, -, -, heq⟩ | ⟨-, -, -, heq⟩ <;> rw [heq]
  · exact hsame rfl rfl
  · exact hsame rfl rfl
  · have hack := weaker_beforeData pcb seg
    set x := pcb.beforeData seg with hx
    obtain ⟨htrans, hout⟩ := weaker_transition (x.receiveData seg seg.tcplen alloc) seg
    have hdata := (Pcb.sameSend_receiveData x seg seg.tcplen alloc).fewer
    refine ⟨(hack.toFewer.trans hdata).trans htrans.toFewer,
      (hack.toCalm.trans (calm_receiveData x seg _ alloc)).trans htrans.toCalm, ?_⟩
    rw [hout]
    exact out_receiveData pcb seg seg.tcplen alloc x

end Operations

end Tcp
end Lwip
