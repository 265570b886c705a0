import Teensy3.Lwip.TcpSends

/-!
# What the segments of a connection carry

With unbounded sequence numbers (`ℤ`), a byte of the stream that an application writes has one
position.  Every segment in the queues, and every packet sent, carries the bytes of its positions.
Two things are needed for this.  Where `tcp_write` and `tcp_send_fin` add to the last segment of
`unsent`, this must be the last one of all, which is not so while an earlier segment waits there to
be transmitted again.  And a probe of a closed window must send the byte of its position.

* `Matches`: a segment carries the bytes of the stream at its position;
* `Content`: the invariant, with one lemma for each operation;
* `SoundContent`: with sound queues, through the callbacks.
-/

namespace Lwip
namespace Tcp

open SeqNo

/-- The segment with this number, data and `FIN` belongs to the stream `w`, whose first byte has
the position `a`; `done` says that nothing will be added to the stream. -/
def Matches (a : ℤ) (w : List Byte) (done : Bool) (seqno : ℤ) (data : List Byte) (fin : Bool) :
    Prop :=
  ∃ k : ℕ, seqno = a + k ∧ k + data.length ≤ w.length ∧ data = (w.drop k).take data.length ∧
    (fin = true → done = true ∧ k + data.length = w.length)

section Matches

variable {a seqno : ℤ} {w x data : List Byte} {done fin : Bool}

theorem Matches.append (h : Matches a w false seqno data fin) :
    Matches a (w ++ x) done seqno data fin := by
  obtain ⟨k, hseqno, hle, hdata, hfin⟩ := h
  refine ⟨k, hseqno, ?_, ?_, fun hf => absurd (hfin hf).1 (by simp)⟩
  · rw [List.length_append]
    omega
  · rw [List.drop_append_of_le_length (by omega), List.take_append_of_le_length]
    · exact hdata
    · rw [List.length_drop]
      omega

theorem Matches.mono (h : Matches a w done seqno data fin) {done' : Bool}
    (hdone : done = true → done' = true) : Matches a w done' seqno data fin := by
  obtain ⟨k, hseqno, hle, hdata, hfin⟩ := h
  exact ⟨k, hseqno, hle, hdata, fun hf => ⟨hdone (hfin hf).1, (hfin hf).2⟩⟩

theorem Matches.take (h : Matches a w done seqno data fin) (n : ℕ) :
    Matches a w done seqno (data.take n) false := by
  obtain ⟨k, hseqno, hle, hdata, -⟩ := h
  refine ⟨k, hseqno, ?_, ?_, fun hf => absurd hf (by simp)⟩
  · rw [List.length_take]
    omega
  · conv_lhs => rw [hdata, List.take_take]
    rw [List.length_take]

theorem Matches.fin_eq_false (h : Matches a w false seqno data fin) : fin = false := by
  obtain ⟨k, -, -, -, hfin⟩ := h
  by_contra hf
  exact absurd (hfin (by simpa using hf)).1 (by simp)

/-- Setting the flag on a segment at the end of the stream. -/
theorem Matches.setFin (h : Matches a w done seqno data fin)
    (hend : seqno + data.length = a + w.length) : Matches a w true seqno data true := by
  obtain ⟨k, hseqno, hle, hdata, -⟩ := h
  exact ⟨k, hseqno, hle, hdata, fun _ => ⟨rfl, by omega⟩⟩

/-- Adding to a segment at the end of the stream what is added to the stream. -/
theorem Matches.concat (h : Matches a w false seqno data fin)
    (hend : seqno + data.length = a + w.length) (n : ℕ) :
    Matches a (w ++ x) false seqno (data ++ x.take n) fin := by
  have hfalse := h.fin_eq_false
  obtain ⟨k, hseqno, hle, hdata, -⟩ := h
  have hk : k + data.length = w.length := by omega
  refine ⟨k, hseqno, ?_, ?_, fun hf => absurd hf (by simp [hfalse])⟩
  · rw [List.length_append, List.length_append, List.length_take]
    omega
  · have hall : w.drop k = data := by
      rw [hdata, List.take_of_length_le]
      rw [List.length_drop]
      omega
    rw [List.drop_append_of_le_length (by omega), hall, List.length_append, List.take_append,
      List.take_of_length_le (Nat.le_add_right _ _), Nat.add_sub_cancel_left, List.length_take,
      ← List.take_take, List.take_length]

end Matches

/-- New segments at the end of the stream carry what is added to it. -/
theorem NewSegs.matches {mss clen : ℕ} {s a : ℤ} {w data : List Byte} {segs : List (Seg ℤ)}
    (h : NewSegs mss clen s data segs) (hs : s = a + w.length) :
    ∀ seg ∈ segs, Matches a (w ++ data) false seg.seqno seg.data seg.fin := by
  obtain ⟨htiles, rfl, heach⟩ := h
  induction segs generalizing s w with
  | nil => simp
  | cons x segs ih =>
    have hx := heach x List.mem_cons_self
    intro seg hseg
    rcases List.mem_cons.1 hseg with rfl | hseg
    · refine ⟨w.length, htiles.1.trans hs, ?_, ?_, fun hf => absurd hf (by simp [hx.1])⟩
      · simp
      · simp
    · have hend : x.seqEnd = a + ((w ++ x.data).length : ℕ) := by
        have hseqno := htiles.1
        simp only [Seg.seqEnd, Seg.tcplen, Seg.len, hx.1, add_int, List.length_append]
        push_cast
        simp
        omega
      have hrest : Tiles x.seqEnd segs (x.seqEnd + (segs.flatMap Seg.data).length) := by
        have htl := htiles.2
        have heq : s + ((x :: segs).flatMap Seg.data).length =
            x.seqEnd + (segs.flatMap Seg.data).length := by
          rw [hend, List.flatMap_cons, List.length_append, List.length_append]
          push_cast
          omega
        rwa [heq] at htl
      have hih := ih hend (fun y hy => heach y (List.mem_cons_of_mem _ hy)) hrest seg hseg
      rwa [List.flatMap_cons, ← List.append_assoc]

/-! ### The invariant -/

/-- Whatever is queued or was sent belongs to the stream that the application has written, from
position `a` on. -/
structure Content (a : ℤ) (e : Endpoint ℤ) : Prop where
  queue : ∀ seg ∈ e.pcb.queue, Matches a e.written (!e.pcb.isOpen) seg.seqno seg.data seg.fin
  sndLbb : e.pcb.isOpen = true → e.pcb.sndLbb = a + e.written.length
  sent : ∀ p ∈ e.sent, p.data = [] ∧ p.fin = false ∨
    Matches a e.written (!e.pcb.isOpen) p.seqno p.data p.fin

section

variable {a : ℤ} {e : Endpoint ℤ}

theorem not_isOpen_imp {pcb pcb' : Pcb ℤ} (h : pcb'.isOpen = true → pcb.isOpen = true) :
    (!pcb.isOpen) = true → (!pcb'.isOpen) = true := by
  intro hnot
  by_contra hne
  simp [h (by simpa using hne)] at hnot

/-- A packet from the queue belongs to the stream. -/
theorem Content.fromQueue (h : Content a e) {p : Packet ℤ} (hp : FromQueue e.pcb p) :
    p.data = [] ∧ p.fin = false ∨ Matches a e.written (!e.pcb.isOpen) p.seqno p.data p.fin := by
  rcases hp with hempty | ⟨seg, hseg, hseqno, ⟨hdata, hfin⟩ | ⟨hdata, hfin⟩⟩
  · exact .inl hempty
  · rw [hseqno, hdata, hfin]
    exact .inr (h.queue seg hseg)
  · rw [hseqno, hdata, hfin]
    exact .inr ((h.queue seg hseg).take 1)

/-- Nothing is queued that was not, and packets come from the queue. -/
theorem Content.fewer (h : Content a e) {pcb : Pcb ℤ} (hpcb : Fewer e.pcb pcb)
    {out : List (Packet ℤ)} (hout : ∀ p ∈ out, FromQueue e.pcb p) {e' : Endpoint ℤ}
    (heq : e'.pcb = pcb ∧ e'.written = e.written ∧ e'.sent = e.sent ++ out) : Content a e' := by
  obtain ⟨hpcb', hwritten, hsent⟩ := heq
  have hdone := not_isOpen_imp hpcb.isOpen
  refine ⟨?_, ?_, ?_⟩ <;> rw [hpcb', hwritten]
  · intro seg hseg
    obtain ⟨m, hm⟩ := hpcb.queue seg hseg
    exact (h.queue _ hm).mono hdone
  · exact fun hopen => hpcb.sndLbb.trans (h.sndLbb (hpcb.isOpen hopen))
  · rw [hsent]
    intro p hp
    have hold : p.data = [] ∧ p.fin = false ∨
        Matches a e.written (!e.pcb.isOpen) p.seqno p.data p.fin := by
      rcases List.mem_append.1 hp with hp | hp
      · exact h.sent p hp
      · exact h.fromQueue (hout p hp)
    exact hold.imp id fun hm => hm.mono hdone

theorem Content.emit (h : Content a e) {out : Pcb ℤ × List (Packet ℤ)} (hout : Sends e.pcb out) :
    Content a (e.emit out) :=
  h.fewer hout.1.toFewer hout.2 ⟨rfl, rfl, rfl⟩

/-- Other changes to the control block. -/
theorem Content.setPcb (h : Content a e) {e' : Endpoint ℤ} (hpcb : Fewer e.pcb e'.pcb)
    (hwritten : e'.written = e.written) (hsent : e'.sent = e.sent) : Content a e' := by
  have hnone : ∀ p ∈ ([] : List (Packet ℤ)), FromQueue e.pcb p := by simp
  exact h.fewer hpcb hnone ⟨rfl, hwritten, by rw [hsent, List.append_nil]⟩

/-- What was queued before, with the data that went to the last segment. -/
theorem Content.concatenated (h : Content a e) (hopen : e.pcb.isOpen = true)
    (htail : e.pcb.TailAtEnd) (data : List Byte) :
    ∀ seg ∈ e.pcb.unacked ++ e.pcb.concatenated data,
      Matches a (e.written ++ data) false seg.seqno seg.data seg.fin := by
  have hold : ∀ seg ∈ e.pcb.queue, Matches a e.written false seg.seqno seg.data seg.fin := by
    intro seg hseg
    have hm := h.queue seg hseg
    rwa [hopen] at hm
  intro seg hseg
  rcases List.mem_append.1 hseg with hseg | hseg
  · exact (hold seg (List.mem_append_left _ hseg)).append
  · rw [Pcb.concatenated] at hseg
    split at hseg
    · exact (hold seg (List.mem_append_right _ hseg)).append
    · rcases mem_mapLast hseg with hseg | ⟨x, hx, rfl⟩
      · exact (hold seg (List.mem_append_right _ hseg)).append
      · refine (hold x (List.mem_append_right _ (List.mem_of_getLast? hx))).concat ?_ _
        have hend := htail x hx
        rw [h.sndLbb hopen] at hend
        exact hend

/-- Data is written at the end of the stream. -/
theorem Content.write (h : Content a e) (htail : e.pcb.isOpen = true → e.pcb.TailAtEnd)
    (data : List Byte) (copy more : Bool) (alloc : ℕ → Bool) :
    Content a (e.call (.write data copy more alloc)).1 := by
  rw [Endpoint.call]
  rcases Pcb.tcpWrite_cases e.pcb data copy more alloc with
    ⟨hne, hpcb⟩ | ⟨segs, queuelen, hopen, -, -, hnew, heq⟩
  · have hfewer : Fewer e.pcb (e.pcb.tcpWrite data copy more alloc).2 := by
      rcases hpcb with hpcb | hpcb <;> rw [hpcb] <;> exact Pcb.SameSend.fewer ⟨⟨rfl, id⟩, rfl, rfl⟩
    split
    · rename_i pcb heq
      rw [heq] at hne
      exact absurd rfl hne
    · rename_i err pcb _ heq
      rw [heq] at hfewer
      exact h.setPcb hfewer rfl rfl
  · rw [heq]
    dsimp only
    obtain ⟨hspec, -, -⟩ := newSegs_spec hnew
    have hlen := h.sndLbb hopen
    have hold := h.concatenated hopen (htail hopen) data
    have hsegs : ∀ seg ∈ segs, Matches a (e.written ++ data) false seg.seqno seg.data seg.fin := by
      have hk := e.pcb.concatLen_le data.length
      have hs : e.pcb.sndLbb + (e.pcb.concatLen data.length : ℤ) =
          a + ((e.written ++ data.take (e.pcb.concatLen data.length)).length : ℕ) := by
        rw [hlen, List.length_append, List.length_take]
        omega
      have hm := hspec.matches hs
      rwa [List.append_assoc, List.take_append_drop] at hm
    have hunsent : ∀ seg ∈ e.pcb.concatenated data ++ segs,
        Matches a (e.written ++ data) false seg.seqno seg.data seg.fin := by
      intro seg hseg
      rcases List.mem_append.1 hseg with hseg | hseg
      · exact hold seg (List.mem_append_right _ hseg)
      · exact hsegs seg hseg
    have hpsh : ∀ seg ∈ (if data = [] ∨ more = true then e.pcb.concatenated data ++ segs
        else mapLast (fun s => { s with psh := true }) (e.pcb.concatenated data ++ segs)),
        Matches a (e.written ++ data) false seg.seqno seg.data seg.fin := by
      intro seg hseg
      split at hseg
      · exact hunsent seg hseg
      · rcases mem_mapLast hseg with hseg | ⟨x, hx, rfl⟩
        · exact hunsent seg hseg
        · exact hunsent x (List.mem_of_getLast? hx)
    refine ⟨fun seg hseg => ?_, fun _ => ?_, fun p hp => ?_⟩
    · change Matches a (e.written ++ data) (!e.pcb.isOpen) seg.seqno seg.data seg.fin
      rw [hopen]
      rcases List.mem_append.1 hseg with hseg | hseg
      · exact hold seg (List.mem_append_left _ hseg)
      · exact hpsh seg hseg
    · rw [List.length_append, hlen]
      push_cast
      omega
    · change p.data = [] ∧ p.fin = false ∨
        Matches a (e.written ++ data) (!e.pcb.isOpen) p.seqno p.data p.fin
      have hm := h.sent p hp
      rw [hopen] at hm ⊢
      exact hm.imp id fun hm => hm.append

/-- Closing at the end of the stream. -/
theorem Content.sendFinAndEnter (h : Content a e) (hopen : e.pcb.isOpen = true)
    (htail : e.pcb.TailAtEnd) {next : TcpState} (hnext : next ≠ .established ∧ next ≠ .closeWait)
    (alloc : Bool) {e' : Endpoint ℤ} (hpcb : e'.pcb = (e.pcb.sendFinAndEnter next alloc).1)
    (hwritten : e'.written = e.written) (hsent : e'.sent = e.sent) : Content a e' := by
  have hlen := h.sndLbb hopen
  have hclosed : ∀ pcb : Pcb ℤ, pcb.state = next → pcb.isOpen = false := by
    intro pcb hstate
    simpa [Pcb.isOpen, hstate] using hnext
  have hqueue : ∀ seg ∈ e.pcb.queue, Matches a e.written true seg.seqno seg.data seg.fin :=
    fun seg hseg => (h.queue seg hseg).mono fun _ => rfl
  have hall : ∀ pcb : Pcb ℤ, e'.pcb = pcb → pcb.state = next →
      (∀ seg ∈ pcb.queue, Matches a e.written true seg.seqno seg.data seg.fin) → Content a e' := by
    intro pcb heq hstate hm
    refine ⟨?_, ?_, ?_⟩ <;> rw [heq, hclosed pcb hstate]
    · rw [hwritten]
      exact hm
    · simp
    · rw [hwritten, hsent]
      exact fun p hp => (h.sent p hp).imp id fun hm => hm.mono fun _ => rfl
  rcases Pcb.sendFinAndEnter_cases e.pcb next alloc with
    (heq | heq) | ⟨hne, heq⟩ | ⟨-, -, -, heq⟩
  · exact h.setPcb (by rw [hpcb, heq]; exact Pcb.SameSend.fewer ⟨⟨rfl, id⟩, rfl, rfl⟩) hwritten hsent
  · exact h.setPcb (by rw [hpcb, heq]; exact Pcb.SameSend.fewer ⟨⟨rfl, id⟩, rfl, rfl⟩) hwritten hsent
  · refine hall _ (hpcb.trans heq) rfl fun seg hseg => ?_
    rcases List.mem_append.1 hseg with hseg | hseg
    · exact hqueue seg (List.mem_append_left _ hseg)
    · rcases mem_mapLast hseg with hseg | ⟨x, hx, rfl⟩
      · exact hqueue seg (List.mem_append_right _ hseg)
      · refine (hqueue x (List.mem_append_right _ (List.mem_of_getLast? hx))).setFin ?_
        have hend := htail x hx
        rw [hlen] at hend
        exact hend
  · refine hall _ (hpcb.trans heq) rfl fun seg hseg => ?_
    rw [Pcb.queue, Pcb.withFin, ← List.append_assoc] at hseg
    rcases List.mem_append.1 hseg with hseg | hseg
    · exact hqueue seg hseg
    · rw [List.mem_singleton.1 hseg]
      exact ⟨e.written.length, hlen, by simp, by simp, fun _ => ⟨rfl, by simp⟩⟩

theorem tailAtEnd_of_sound {pcb : Pcb ℤ} (h : pcb.Sound) (hopen : pcb.isOpen = true) :
    pcb.TailAtEnd :=
  (h.good hopen).tailAtEnd hopen

theorem Content.tcpCloseShutdown (h : Content a e) (hsound : e.pcb.Sound)
    (rstOnUnackedData alloc : Bool) {e' : Endpoint ℤ}
    (heq : e'.pcb = (e.pcb.tcpCloseShutdown rstOnUnackedData alloc).1.1 ∧ e'.written = e.written ∧
      e'.sent = e.sent ++ (e.pcb.tcpCloseShutdown rstOnUnackedData alloc).1.2) : Content a e' := by
  obtain ⟨hpcb, hwritten, hsent⟩ := heq
  rcases Pcb.tcpCloseShutdown_cases e.pcb rstOnUnackedData alloc with
    heq | ⟨next, hopen, hnext, heq⟩ | heq <;> rw [heq] at hpcb hsent
  · exact h.fewer (weaker_timeWait e.pcb).toFewer (fromQueue_tcpRst e.pcb) ⟨hpcb, hwritten, hsent⟩
  · rw [List.append_nil] at hsent
    have htail := tailAtEnd_of_sound hsound hopen
    exact h.sendFinAndEnter hopen htail hnext alloc hpcb hwritten hsent
  · rw [List.append_nil] at hsent
    exact h.setPcb (hpcb ▸ (Weaker.refl e.pcb).toFewer) hwritten hsent

/-- Closing the receive side does not count. -/
theorem Content.setRx (h : Content a e) {pcb : Pcb ℤ} (hpcb : Pcb.SameSend e.pcb pcb) :
    Content a { e with pcb := pcb } :=
  h.setPcb hpcb.fewer rfl rfl

theorem sameSend_shutRxSide (pcb : Pcb ℤ) (shutRx : Bool) :
    Pcb.SameSend pcb (pcb.shutRxSide shutRx) := by
  cases shutRx with
  | true => exact ⟨⟨rfl, id⟩, rfl, rfl⟩
  | false => exact Pcb.SameSend.refl pcb

theorem Content.call (h : Content a e) (hsound : e.pcb.Sound) (c : AppCall) :
    Content a (e.call c).1 := by
  cases c with
  | write data copy more alloc => exact h.write (tailAtEnd_of_sound hsound) data copy more alloc
  | output => exact h
  | recved len => exact h.setRx (e.pcb.sameSend_tcpRecved len)
  | nagle disable => exact h.setRx ⟨⟨rfl, id⟩, rfl, rfl⟩
  | close alloc =>
    have hrx : Pcb.SameSend e.pcb { e.pcb with rxClosed := true } := ⟨⟨rfl, id⟩, rfl, rfl⟩
    have hclosed := h.setRx hrx
    refine hclosed.tcpCloseShutdown ?_ true alloc ⟨rfl, rfl, rfl⟩
    exact hsound.of_same ⟨⟨rfl, id⟩, rfl, rfl⟩ rfl
  | shutdown shutRx shutTx alloc =>
    have hclosed := h.setRx (sameSend_shutRxSide e.pcb shutRx)
    rw [Endpoint.call, Pcb.tcpShutdown]
    split
    · exact hclosed.tcpCloseShutdown (hsound.shutRxSide shutRx) false alloc ⟨rfl, rfl, rfl⟩
    · exact hclosed.setPcb (Weaker.refl _).toFewer rfl (List.append_nil _)

/-! ### Calls and callbacks -/

/-- Sound queues with the right contents. -/
structure SoundContent (a : ℤ) (e : Endpoint ℤ) : Prop where
  sound : e.Sound
  content : Content a e

theorem SoundContent.andThen {next : Endpoint ℤ → Endpoint ℤ} (h : SoundContent a e)
    (hnext : ∀ x : Endpoint ℤ, x.pcb.Sound → Content a x → SoundContent a (next x)) :
    SoundContent a (e.andThen next) := by
  rw [Endpoint.andThen]
  split
  · rename_i halive
    exact hnext e (h.sound halive) h.content
  · exact h

theorem Content.callNow (h : Content a e) (hsound : e.pcb.Sound) (c : AppCall) (alloc : Bool) :
    Content a (e.callNow c alloc) := by
  rw [Endpoint.callNow]
  split
  · exact (h.call hsound c).emit (sends_tcpOutput _ alloc)
  · exact h.call hsound c

theorem Content.calls (h : Content a e) (hsound : e.pcb.Sound) (cs : List (AppCall × Bool)) :
    Content a (e.calls cs) := by
  induction cs generalizing e with
  | nil => exact h
  | cons c cs ih => exact ih (h.call hsound c.1) (Endpoint.sound_call hsound c.1)

theorem Content.callsNow (h : Content a e) (hsound : e.pcb.Sound) (cs : List (AppCall × Bool)) :
    Content a (e.callsNow cs) := by
  induction cs generalizing e with
  | nil => exact h
  | cons c cs ih => exact ih (h.callNow hsound c.1 c.2) (Endpoint.sound_callNow hsound c.1 c.2)

theorem Content.tcpAbandon (h : Content a e) (reset allocAck alloc : Bool) :
    Content a (e.tcpAbandon reset allocAck alloc) := by
  rw [Endpoint.tcpAbandon]
  split
  · exact h.setPcb (Weaker.refl e.pcb).toFewer rfl rfl
  · obtain ⟨hfewer, hsends⟩ := fewer_tcpPcbRemove e.pcb allocAck
    refine h.fewer hfewer (fun p hp => ?_) ⟨rfl, rfl, rfl⟩
    rcases List.mem_append.1 hp with hp | hp
    · exact hsends p hp
    · split at hp
      · exact fromQueue_tcpRst e.pcb p hp
      · simp at hp

theorem Content.takeRefused (h : Content a e) (data : List Byte) : Content a (e.takeRefused data) := by
  refine h.setPcb ?_ rfl rfl
  exact Pcb.SameSend.fewer ⟨⟨rfl, id⟩, rfl, rfl⟩

theorem Content.retry (h : Content a e) (hsound : e.pcb.Sound) (cb : Callback) :
    Content a (e.retry cb) := by
  have hcalls := h.callsNow hsound cb.calls
  rw [Endpoint.retry, Endpoint.redeliver]
  split
  · exact h
  · cases cb.result with
    | ok => exact hcalls.takeRefused _
    | err => exact hcalls
    | abrt allocAck alloc => exact (hcalls.takeRefused _).tcpAbandon true allocAck alloc

theorem Content.callback (h : Content a e) (hsound : e.pcb.Sound) (cb : Callback) :
    Content a (e.callback cb) := by
  have hcalls := h.calls hsound cb.calls
  rw [Endpoint.callback]
  split
  · exact hcalls.tcpAbandon true false _
  · exact hcalls

theorem Content.onSent (h : Content a e) (hsound : e.pcb.Sound) (cb : Callback) :
    SoundContent a (e.onSent cb) := by
  refine ⟨Endpoint.sound_onSent hsound cb, ?_⟩
  rw [Endpoint.onSent]
  split
  · exact h.callback hsound cb
  · exact h

theorem Content.onRecv (h : Content a e) (hsound : e.pcb.Sound) (data : List Byte) (cb : Callback)
    (alloc : Bool) : SoundContent a (e.onRecv data cb alloc) := by
  refine ⟨Endpoint.sound_onRecv hsound data cb alloc, ?_⟩
  have hcalls := h.calls hsound cb.calls
  have htaken : Content a
      { e.calls cb.calls with received := (e.calls cb.calls).received ++ data } :=
    ⟨hcalls.queue, hcalls.sndLbb, hcalls.sent⟩
  rw [Endpoint.onRecv]
  split
  · exact h
  · split
    · exact h.tcpAbandon true false alloc
    · dsimp only
      split
      · exact htaken
      · exact hcalls.setRx ⟨⟨rfl, id⟩, rfl, rfl⟩
      · exact htaken.tcpAbandon true false _

theorem Content.onFin (h : Content a e) (hsound : e.pcb.Sound) (gotFin : Bool) (cb : Callback) :
    SoundContent a (e.onFin gotFin cb) := by
  refine ⟨Endpoint.sound_onFin hsound gotFin cb, ?_⟩
  rw [Endpoint.onFin]
  split
  · have htaken : Content a e.finTaken :=
      h.setPcb (Pcb.SameSend.fewer ⟨⟨rfl, id⟩, rfl, rfl⟩) rfl rfl
    refine htaken.callback ?_ cb
    exact hsound.of_same ⟨⟨rfl, id⟩, rfl, rfl⟩ rfl
  · exact h

theorem Content.afterProcess (h : Content a e) {data : List Byte} {gotFin : Bool}
    (hsound : e.pcb.Sound ∨ e.pcb.OneOut ∧ data = [] ∧ gotFin = false) (cbs : Callbacks)
    (alloc : Bool) : Content a (e.afterProcess data gotFin cbs alloc) := by
  rcases hsound with hsound | ⟨hout, rfl, rfl⟩
  · have hsent := h.onSent hsound cbs.sent
    have hrecv := hsent.andThen fun _ hs h => h.onRecv hs data cbs.recv alloc
    have hfin := hrecv.andThen fun _ hs h => h.onFin hs gotFin cbs.closed
    have hdone := hfin.andThen fun _ hs h =>
      ⟨Endpoint.sound_of_pcb (hs.tcpOutput alloc), h.emit (sends_tcpOutput _ alloc)⟩
    exact hdone.content
  · rw [Endpoint.afterProcess_of_empty hout.acked, Endpoint.andThen]
    split
    · exact h.emit (sends_tcpOutput _ alloc)
    · exact h

theorem Content.process (h : Content a e) (hsound : e.pcb.Sound) {seg : InSeg ℤ}
    (hadmits : e.pcb.Admits seg) (cbs : Callbacks) (alloc : Bool) :
    Content a (e.process seg cbs alloc) := by
  have hprocess := hsound.tcpProcess hadmits alloc
  obtain ⟨hfewer, -, hout⟩ := fewer_tcpProcess e.pcb seg alloc
  set r := e.pcb.tcpProcess seg alloc with hr
  have hprocessed : Content a (e.emit (r.1.pcb, r.1.out)) := h.fewer hfewer hout ⟨rfl, rfl, rfl⟩
  rw [Endpoint.process, ← hr]
  dsimp only
  split
  · exact hprocessed.afterProcess hprocess cbs alloc
  · exact hprocessed.setPcb (fewer_tcpPcbPurge _) rfl rfl

theorem Content.input (h : Content a e) (hsound : e.pcb.Sound) {seg : InSeg ℤ} {cbs : Callbacks}
    (hadmits : (e.retried cbs).fate = .alive → (e.retried cbs).pcb.Admits seg) (alloc : Bool) :
    Content a (e.input seg cbs alloc) := by
  have hretry := h.retry hsound cbs.again
  have hsoundRetry := Endpoint.sound_retry hsound cbs.again
  rw [Endpoint.input]
  split
  · exact h.emit (sends_tcpTimewaitInput _ seg alloc)
  · rename_i hstate
    rw [Endpoint.retried, if_neg hstate] at hadmits
    split
    · exact hretry
    · rw [Endpoint.andThen]
      split
      · rename_i halive
        exact hretry.process (hsoundRetry halive) (hadmits halive) cbs alloc
      · exact hretry

/-- The condition on an event of one end: a probe sends the right byte. -/
def Endpoint.ProbesRight {σ : Type} (e : Endpoint σ) : LocalEvent → Prop
  | .slowtmr _ stray _ => e.pcb.ProbesRight stray
  | _ => True

instance {σ : Type} (e : Endpoint σ) : (ev : LocalEvent) → Decidable (e.ProbesRight ev)
  | .call _ _ => .isTrue trivial
  | .abandon _ _ _ => .isTrue trivial
  | .slowtmr _ stray _ => inferInstanceAs (Decidable (e.pcb.ProbesRight stray))
  | .keepalive _ => .isTrue trivial
  | .fasttmr _ _ => .isTrue trivial

theorem Content.localStep (h : Content a e) (hsound : e.pcb.Sound) {ev : LocalEvent}
    (hprobe : e.ProbesRight ev) : Content a (e.localStep ev) := by
  cases ev with
  | call c alloc => exact h.callNow hsound c alloc
  | abandon reset allocAck alloc => exact h.tcpAbandon reset allocAck alloc
  | slowtmr rto stray alloc =>
    rw [Endpoint.localStep]
    split
    · exact h
    · split
      · exact h.tcpAbandon false false alloc
      · exact h.emit (sends_tcpSlowtmr _ rto hprobe alloc)
  | keepalive alloc =>
    rw [Endpoint.localStep]
    split
    · exact h.emit (sends_tcpKeepalive _ alloc)
    · exact h
  | fasttmr cb alloc =>
    have hretry : SoundContent a (e.retry cb) :=
      ⟨Endpoint.sound_retry hsound cb, h.retry hsound cb⟩
    rw [Endpoint.localStep]
    split
    · exact h
    · have hdone := hretry.andThen fun _ hs h =>
        ⟨Endpoint.sound_of_pcb (hs.tcpFasttmr alloc), h.emit (sends_tcpFasttmr _ alloc)⟩
      exact hdone.content

end

/-- Segments of at most four bytes, and windows that are large enough. -/
def Params.small : Params :=
  ⟨4, 100, 100, 100, 0, 0, 0, false, by decide, by decide, by decide, by decide, by decide⟩

/-- A pure acknowledgement. -/
def ackSeg {σ : Type} (seqno ackno : σ) (wnd : BitVec 16) : InSeg σ :=
  ⟨seqno, ackno, wnd, true, false, false, false, [], []⟩

/-- If the window is taken back before the third duplicate acknowledgement, the first segment stays
in `unsent`, and a write appends to it what belongs behind the second one. -/
example : ∃ p ∈ (Machine.run Endpoint.step (Endpoint.fresh (0 : ℤ) 0 Params.small)
    [.own (.call (.write [1, 2, 3] true false fun _ => true) true), .own (.call .output true),
      .own (.call (.write [4, 5, 6, 7] true false fun _ => true) true), .own (.call .output true),
      .segment (ackSeg 1 0 2) .quiet true, .segment (ackSeg 1 0 2) .quiet true,
      .segment (ackSeg 1 0 2) .quiet true, .segment (ackSeg 1 0 2) .quiet true,
      .own (.call (.write [8] true false fun _ => true) true),
      .segment (ackSeg 1 0 100) .quiet true]).sent, p.seqno = 0 ∧ p.data = [1, 2, 3, 8] := by
  decide

end Tcp
end Lwip
