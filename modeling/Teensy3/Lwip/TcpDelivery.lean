import Teensy3.Lwip.TcpQuiet

/-!
# What a connection delivers

Two ends are joined by a network that loses, duplicates, delays and reorders packets.  What each
application has taken, with what it has refused and can be passed again, is at every time a prefix
of what the other one has written, and all of it when the end of the stream was reported.  Data that
was refused may be lost: it is freed when the connection is closed or reset, or reaches `TIME_WAIT`.

* `Delivery`: the invariant of the receiving side, and `Arrived` during input;
* `Joined`: the invariant of one end and the stream of the other one;
* `System.inv_run`: both directions, in every run in which no window is taken back and no probe sends
  a wrong byte.
-/

namespace Lwip
namespace Tcp

open SeqNo

/-! ### What is passed to the application -/

/-- What was received and what was refused is a prefix of the stream `v`, and all of it when the end
was reported, unless something was discarded. -/
structure Prefixed (v : List Byte) (done : Bool) (e : Endpoint ℤ) : Prop where
  isPrefix : e.received ++ e.pcb.refusedData <+: v
  all : e.gotFin = true → e.discarded = false → done = true ∧ e.received ++ e.pcb.refusedData = v

/-- The invariant of the receiving side, for a stream that starts at `b`. -/
structure Delivery (b : ℤ) (v : List Byte) (done : Bool) (e : Endpoint ℤ) : Prop
    extends Prefixed v done e where
  rcvNxt : e.fate = .alive → e.discarded = false → e.pcb.rcvNxt =
    b + (e.received ++ e.pcb.refusedData).length + if e.gotFin then 1 else 0
  shut : e.fate = .alive → e.discarded = true → e.pcb.Shut

/-- The invariant while `data` and a `FIN` have been accepted, but are still to be passed on. -/
structure Arrived (b : ℤ) (v : List Byte) (done : Bool) (data : List Byte) (fin : Bool)
    (e : Endpoint ℤ) : Prop extends Prefixed v done e where
  free : data = [] ∨ e.pcb.refusedData = []
  pending : e.discarded = false → e.received ++ e.pcb.refusedData ++ data <+: v ∧
    ((e.gotFin || fin) = true → done = true ∧ e.received ++ e.pcb.refusedData ++ data = v) ∧
    e.pcb.rcvNxt = b + (e.received ++ e.pcb.refusedData ++ data).length +
      if e.gotFin || fin then 1 else 0
  shut : e.discarded = true → e.pcb.Shut ∧ (data = [] ∨ e.pcb.rxClosed = true)

section

variable {b : ℤ} {v data : List Byte} {done fin : Bool} {e e' : Endpoint ℤ}

theorem Prefixed.refused (h : Prefixed v done e) (hrefused : Refused e e')
    (hreceived : e'.received = e.received) (hgot : e'.gotFin = e.gotFin) : Prefixed v done e' := by
  rcases hrefused with ⟨hsame, hdiscarded⟩ | ⟨-, hnil, hgone⟩
  · refine ⟨?_, ?_⟩
    · rw [hreceived, hsame]
      exact h.isPrefix
    · rw [hreceived, hsame, hgot, hdiscarded]
      exact h.all
  · refine ⟨?_, fun _ hkept => ?_⟩
    · rw [hreceived, hnil, List.append_nil]
      exact (List.prefix_append _ _).trans h.isPrefix
    · simp [hgone] at hkept

/-- A connection that has ended receives nothing more. -/
theorem Prefixed.ended (h : Prefixed v done e) (hfate : e.fate ≠ .alive) : Delivery b v done e :=
  ⟨h, fun halive => absurd halive hfate, fun halive => absurd halive hfate⟩

theorem Delivery.quiet (h : Delivery b v done e) (hq : Quiet e e') : Delivery b v done e' := by
  refine ⟨h.toPrefixed.refused hq.refused hq.received hq.gotFin, ?_, ?_⟩ <;> rw [hq.fate] <;>
    intro halive hkept
  · rcases hq.refused with ⟨hsame, hdiscarded⟩ | ⟨-, -, hgone⟩
    · rw [hq.rcvNxt, hq.received, hq.gotFin, hsame]
      exact h.rcvNxt halive (hdiscarded ▸ hkept)
    · simp [hgone] at hkept
  · rcases hq.refused with ⟨hsame, hdiscarded⟩ | ⟨hne, hnil, -⟩
    · exact hq.calm.shut (h.shut halive (hdiscarded ▸ hkept))
    · rcases hq.calm.refusedData with heq | ⟨-, hshut⟩
      · exact absurd (heq.symm.trans hnil) hne
      · exact hshut

theorem Arrived.quiet (h : Arrived b v done data fin e) (hq : Quiet e e') :
    Arrived b v done data fin e' := by
  refine ⟨h.toPrefixed.refused hq.refused hq.received hq.gotFin, ?_, fun hkept => ?_,
    fun hgone => ?_⟩
  · rcases hq.refused with ⟨hsame, -⟩ | ⟨-, hnil, -⟩
    · rw [hsame]
      exact h.free
    · exact .inr hnil
  · rcases hq.refused with ⟨hsame, hdiscarded⟩ | ⟨-, -, hgone⟩
    · rw [hq.rcvNxt, hq.received, hq.gotFin, hsame]
      exact h.pending (hdiscarded ▸ hkept)
    · simp [hgone] at hkept
  · rcases hq.refused with ⟨hsame, hdiscarded⟩ | ⟨hne, hnil, -⟩
    · obtain ⟨hshut, hdata⟩ := h.shut (hdiscarded ▸ hgone)
      exact ⟨hq.calm.shut hshut, hdata.imp id hq.calm.rxClosed⟩
    · rcases hq.calm.refusedData with heq | ⟨-, hshut⟩
      · exact absurd (heq.symm.trans hnil) hne
      · exact ⟨hshut, .inl (h.free.resolve_right hne)⟩

/-- What is abandoned has been given up. -/
theorem refused_tcpAbandon (e : Endpoint ℤ) (reset allocAck alloc : Bool) :
    Refused e (e.tcpAbandon reset allocAck alloc) := by
  have hpurge : ∀ x : Pcb ℤ, x.tcpPcbPurge.refusedData = x.refusedData ∨
      x.tcpPcbPurge.refusedData = [] := by
    intro x
    rw [Pcb.tcpPcbPurge]
    split
    · exact .inl rfl
    · exact .inr rfl
  have hremove : (e.pcb.tcpPcbRemove allocAck).1.refusedData = e.pcb.refusedData ∨
      (e.pcb.tcpPcbRemove allocAck).1.refusedData = [] := by
    rw [Pcb.tcpPcbRemove]
    split
    · have hcalm := (sends_tcpOutput { e.pcb.tcpPcbPurge with ackNow := true } allocAck).1.toCalm
      rcases hcalm.refusedData with heq | ⟨hnil, -⟩
      · exact (hpurge e.pcb).imp heq.trans heq.trans
      · exact .inr hnil
    · exact hpurge e.pcb
  rw [Endpoint.tcpAbandon]
  split
  · exact .inl ⟨rfl, rfl⟩
  · exact refused_setPcb hremove

theorem tcpAbandon_keeps (e : Endpoint ℤ) (reset allocAck alloc : Bool) :
    (e.tcpAbandon reset allocAck alloc).received = e.received ∧
      (e.tcpAbandon reset allocAck alloc).gotFin = e.gotFin := by
  rw [Endpoint.tcpAbandon]
  split <;> exact ⟨rfl, rfl⟩

theorem Prefixed.tcpAbandon (h : Prefixed v done e) (reset allocAck alloc : Bool) :
    Prefixed v done (e.tcpAbandon reset allocAck alloc) ∧
      (e.tcpAbandon reset allocAck alloc).fate ≠ .alive := by
  obtain ⟨hreceived, hgot⟩ := tcpAbandon_keeps e reset allocAck alloc
  refine ⟨h.refused (refused_tcpAbandon e reset allocAck alloc) hreceived hgot, ?_⟩
  rw [Endpoint.fate_tcpAbandon]
  simp

/-- The other side goes on writing, or closes. -/
theorem Delivery.grow (h : Delivery b v done e) {v' : List Byte} {done' : Bool} (hv : v <+: v')
    (hdone : done = true → done' = true ∧ v' = v) : Delivery b v' done' e := by
  refine ⟨⟨h.isPrefix.trans hv, fun hfin hkept => ?_⟩, h.rcvNxt, h.shut⟩
  obtain ⟨hd, hall⟩ := h.all hfin hkept
  obtain ⟨hd', hv'⟩ := hdone hd
  exact ⟨hd', hall.trans hv'.symm⟩

/-! ### Data that was refused -/

/-- After some calls the application takes what it had refused. -/
theorem Delivery.takeRefused (h : Delivery b v done e) (hq : Quiet e e') :
    Delivery b v done (e'.takeRefused e.pcb.refusedData) := by
  have hsame : (e'.takeRefused e.pcb.refusedData).received ++
      (e'.takeRefused e.pcb.refusedData).pcb.refusedData = e.received ++ e.pcb.refusedData := by
    change e'.received ++ e.pcb.refusedData ++ [] = _
    rw [List.append_nil, hq.received]
  have hold : e'.discarded = false → e.discarded = false := by
    intro hkept
    rcases hq.refused with ⟨-, hdiscarded⟩ | ⟨-, -, hgone⟩
    · exact hdiscarded ▸ hkept
    · simp [hgone] at hkept
  have hquiet := h.quiet hq
  refine ⟨⟨?_, fun hgot hkept => ?_⟩, fun halive hkept => ?_, fun halive hgone => ?_⟩
  · rw [hsame]
    exact h.isPrefix
  · rw [hsame]
    exact h.all (hq.gotFin ▸ hgot) (hold hkept)
  · rw [hsame]
    change e'.pcb.rcvNxt = b + _ + if e'.gotFin then 1 else 0
    rw [hq.rcvNxt, hq.gotFin]
    exact h.rcvNxt (hq.fate ▸ halive) (hold hkept)
  · exact hquiet.shut halive hgone

theorem Delivery.retry (h : Delivery b v done e) (cb : Callback) : Delivery b v done (e.retry cb) := by
  have hq := quiet_callsNow e cb.calls
  have htaken := h.takeRefused hq
  rw [Endpoint.retry, Endpoint.redeliver]
  split
  · exact h
  · cases cb.result with
    | ok => exact htaken
    | err => exact h.quiet hq
    | abrt allocAck alloc =>
      obtain ⟨hpre, hfate⟩ := htaken.toPrefixed.tcpAbandon true allocAck alloc
      exact hpre.ended hfate

/-- After passing on what was refused, there is some left only if it was refused again. -/
theorem refusedData_retry (e : Endpoint ℤ) (cb : Callback) (halive : (e.retry cb).fate = .alive)
    (hne : (e.retry cb).pcb.refusedData ≠ []) : e.pcb.refusedData ≠ [] ∧ cb.result = .err := by
  rw [Endpoint.retry] at halive hne
  split at hne
  · rename_i hnil
    exact absurd hnil hne
  · rename_i hsome
    rw [if_neg hsome] at halive
    refine ⟨hsome, ?_⟩
    rw [Endpoint.redeliver] at halive hne
    cases hresult : cb.result with
    | ok =>
      rw [hresult] at hne
      exact absurd rfl hne
    | err => rfl
    | abrt allocAck alloc =>
      rw [hresult] at halive
      simp [Endpoint.fate_tcpAbandon] at halive

/-! ### Data that arrives -/

/-- The part of a matching segment that is accepted continues what was received. -/
theorem Delivery.takes (h : Delivery b v done e) (halive : e.fate = .alive)
    (hkept : e.discarded = false) {seqno : ℤ} {d : List Byte}
    (hm : d = [] ∧ fin = false ∨ Matches b v done seqno d fin) {r : Pcb.Received ℤ}
    (ht : Takes e.pcb.rcvNxt seqno d fin r) :
    e.received ++ e.pcb.refusedData ++ r.data <+: v ∧
      ((e.gotFin || r.gotFin) = true →
        done = true ∧ e.received ++ e.pcb.refusedData ++ r.data = v) ∧
      r.pcb.rcvNxt = b + (e.received ++ e.pcb.refusedData ++ r.data).length +
        if e.gotFin || r.gotFin then 1 else 0 := by
  have hnxt := h.rcvNxt halive hkept
  have hpre := h.isPrefix
  have hfull := fun hgot => h.all hgot hkept
  set s := e.received ++ e.pcb.refusedData
  have hnothing : r.data = [] → r.gotFin = false → r.pcb.rcvNxt = e.pcb.rcvNxt →
      s ++ r.data <+: v ∧ ((e.gotFin || r.gotFin) = true → done = true ∧ s ++ r.data = v) ∧
        r.pcb.rcvNxt = b + (s ++ r.data).length + if e.gotFin || r.gotFin then 1 else 0 := by
    intro hdata hfin hsame
    rw [hdata, hfin, hsame, List.append_nil, Bool.or_false]
    exact ⟨hpre, hfull, hnxt⟩
  rcases ht with ⟨hdata, hfin, hsame⟩ | ⟨m, hmle, hseqno, hdata, hfin, hsum⟩
  · exact hnothing hdata hfin hsame
  · rcases hm with ⟨rfl, rfl⟩ | ⟨k, hk, hle, hd, hdone⟩
    · have hnil : r.data = [] := by simpa using hdata
      have hno : r.gotFin = false := by
        by_contra hne
        exact absurd (hfin (by simpa using hne)).1 (by simp)
      exact hnothing hnil hno (by rw [hsum, hnil, hno]; simp)
    · -- the end of the stream is behind every segment
      have hopen : e.gotFin = false := by
        by_contra hne
        have hgot : e.gotFin = true := by simpa using hne
        rw [hgot, (hfull hgot).2] at hnxt
        simp only [if_true] at hnxt
        omega
      rw [hopen] at hnxt
      simp only [Bool.false_eq_true, if_false, add_zero] at hnxt
      have hlen : k + m = s.length := by omega
      obtain ⟨rest, hrest⟩ := hpre
      have hdrop : rest = v.drop (k + m) := by rw [hlen, ← hrest, List.drop_left]
      have hdm : d.drop m <+: rest := by
        rw [hd, hdrop, List.drop_take, List.drop_drop]
        exact List.take_prefix _ _
      refine ⟨?_, fun hgot => ?_, ?_⟩
      · rw [← hrest]
        exact (List.prefix_append_right_inj _).2 (hdata.trans hdm)
      · rw [hopen, Bool.false_or] at hgot
        obtain ⟨hf, hdata'⟩ := hfin hgot
        obtain ⟨hdone', hend⟩ := hdone hf
        refine ⟨hdone', ?_⟩
        have hall : d.drop m = rest := by
          rw [hd, hdrop, List.drop_take, List.drop_drop, List.take_of_length_le]
          rw [List.length_drop]
          omega
        rw [hdata', hall, hrest]
      · have hlong : (s ++ r.data).length = s.length + r.data.length := List.length_append
        rw [hsum, hnxt, hopen, Bool.false_or, hlong]
        push_cast
        omega

/-- After `tcp_process`.  If anything was refused and not taken since, the segment is empty. -/
theorem Delivery.arrived (h : Delivery b v done e) (halive : e.fate = .alive) {seg : InSeg ℤ}
    (hsyn : seg.syn = false)
    (hm : seg.p.flatten = [] ∧ seg.fin = false ∨
      Matches b v done seg.seqno seg.p.flatten seg.fin)
    (hempty : e.pcb.refusedData ≠ [] → seg.tcplen = 0) (alloc : Bool) :
    let r := (e.pcb.tcpProcess seg alloc).1
    Arrived b v done r.data r.gotFin (e.emit (r.pcb, r.out)) := by
  have htakes := takes_tcpProcess e.pcb seg hsyn alloc
  have hcalm := (fewer_tcpProcess e.pcb seg alloc).2.1
  have hnone := tcpProcess_of_empty e.pcb seg alloc
  intro r
  have hrefused : Refused e (e.emit (r.pcb, r.out)) :=
    refused_setPcb (hcalm.refusedData.imp id And.left)
  refine ⟨h.toPrefixed.refused hrefused rfl rfl, ?_, fun hkept => ?_, fun hgone => ?_⟩
  · by_cases hne : e.pcb.refusedData = []
    · exact .inr (hcalm.refusedData.elim (fun heq => heq.trans hne) And.left)
    · exact .inl (hnone (.inl (hempty hne))).1
  · rcases hrefused with ⟨hsame, hdiscarded⟩ | ⟨-, -, hgone⟩
    · rw [hsame]
      exact h.takes halive (hdiscarded ▸ hkept) hm htakes
    · simp [hgone] at hkept
  · rcases hrefused with ⟨hsame, hdiscarded⟩ | ⟨hne, hnil, -⟩
    · have hshut := h.shut halive (hdiscarded ▸ hgone)
      refine ⟨hcalm.shut hshut, ?_⟩
      rcases hshut with hrx | hwait
      · exact .inr (hcalm.rxClosed hrx)
      · exact .inl (hnone (.inr hwait)).1
    · refine ⟨?_, .inl (hnone (.inl (hempty hne))).1⟩
      rcases hcalm.refusedData with heq | ⟨-, hshut⟩
      · exact absurd (heq.symm.trans hnil) hne
      · exact hshut

/-- What a callback leaves: the connection goes on with the property `P`, or it has ended. -/
def Goes (v : List Byte) (done : Bool) (P : Endpoint ℤ → Prop) (e : Endpoint ℤ) : Prop :=
  e.fate = .alive ∧ P e ∨ e.fate ≠ .alive ∧ Prefixed v done e

theorem Goes.andThen {P Q : Endpoint ℤ → Prop} {next : Endpoint ℤ → Endpoint ℤ}
    (h : Goes v done P e)
    (hnext : ∀ x : Endpoint ℤ, x.fate = .alive → P x → Goes v done Q (next x)) :
    Goes v done Q (e.andThen next) := by
  rcases h with ⟨halive, hP⟩ | ⟨hfate, hpre⟩
  · rw [Endpoint.andThen, if_pos halive]
    exact hnext e halive hP
  · rw [Endpoint.andThen, if_neg hfate]
    exact .inr ⟨hfate, hpre⟩

theorem Prefixed.goes_tcpAbandon {P : Endpoint ℤ → Prop} (h : Prefixed v done e)
    (reset allocAck alloc : Bool) : Goes v done P (e.tcpAbandon reset allocAck alloc) := by
  obtain ⟨hpre, hfate⟩ := h.tcpAbandon reset allocAck alloc
  exact .inr ⟨hfate, hpre⟩

theorem Arrived.callback (h : Arrived b v done data fin e) (halive : e.fate = .alive)
    (cb : Callback) : Goes v done (Arrived b v done data fin) (e.callback cb) := by
  have hq := quiet_calls e cb.calls
  have hcalls := h.quiet hq
  rw [Endpoint.callback]
  split
  · exact hcalls.toPrefixed.goes_tcpAbandon true false _
  · exact .inl ⟨hq.fate.trans halive, hcalls⟩

theorem Arrived.onSent (h : Arrived b v done data fin e) (halive : e.fate = .alive)
    (cb : Callback) : Goes v done (Arrived b v done data fin) (e.onSent cb) := by
  rw [Endpoint.onSent]
  split
  · exact h.callback halive cb
  · exact .inl ⟨halive, h⟩

/-- The data is taken, or kept as refused. -/
theorem Arrived.passed (h : Arrived b v done data fin e) (hkept : e.discarded = false)
    (hnil : e.pcb.refusedData = [])
    (hdata : e'.received ++ e'.pcb.refusedData = e.received ++ data)
    (hsame : e'.pcb.rcvNxt = e.pcb.rcvNxt ∧ e'.gotFin = e.gotFin ∧ e'.discarded = e.discarded) :
    Arrived b v done [] fin e' := by
  obtain ⟨hnxt, hgot, hdiscarded⟩ := hsame
  obtain ⟨hpre, hall, hsum⟩ := h.pending hkept
  rw [hnil, List.append_nil] at hpre hall hsum
  refine ⟨⟨?_, fun hfin _ => ?_⟩, .inl rfl, fun _ => ?_, fun hgone => ?_⟩
  · rwa [hdata]
  · rw [hdata]
    exact hall (by rw [← hgot, hfin, Bool.true_or])
  · rw [List.append_nil, hdata, hgot, hnxt]
    exact ⟨hpre, hall, hsum⟩
  · rw [hdiscarded, hkept] at hgone
    simp at hgone

theorem Arrived.onRecv (h : Arrived b v done data fin e) (halive : e.fate = .alive)
    (cb : Callback) (alloc : Bool) :
    Goes v done (Arrived b v done [] fin) (e.onRecv data cb alloc) := by
  rw [Endpoint.onRecv]
  split
  · rename_i hdata
    exact .inl ⟨halive, hdata ▸ h⟩
  · rename_i hdata
    split
    · exact h.toPrefixed.goes_tcpAbandon true false alloc
    · rename_i hrx
      -- nothing was discarded before, and nothing is refused that could be
      have hnil : e.pcb.refusedData = [] := h.free.resolve_left hdata
      have hkept : e.discarded = false := by
        by_contra hne
        rcases (h.shut (by simpa using hne)).2 with hnone | hclosed
        · exact hdata hnone
        · exact hrx hclosed
      have hq := quiet_calls e cb.calls
      have hcalls := h.quiet hq
      obtain ⟨hnil', hkept'⟩ : (e.calls cb.calls).pcb.refusedData = [] ∧
          (e.calls cb.calls).discarded = false := by
        rcases hq.refused with ⟨hsame, hdiscarded⟩ | ⟨hne, -⟩
        · exact ⟨hsame.trans hnil, hdiscarded.trans hkept⟩
        · exact absurd hnil hne
      set e₁ := e.calls cb.calls
      have halive₁ : e₁.fate = .alive := hq.fate.trans halive
      have htaken : Arrived b v done [] fin { e₁ with received := e₁.received ++ data } :=
        hcalls.passed hkept' hnil' (by simp [hnil']) ⟨rfl, rfl, rfl⟩
      dsimp only
      split
      · exact .inl ⟨halive₁, htaken⟩
      · exact .inl ⟨halive₁, hcalls.passed hkept' hnil' rfl ⟨rfl, rfl, rfl⟩⟩
      · exact htaken.toPrefixed.goes_tcpAbandon true false _

/-- When the `FIN` has been reported, nothing is left to pass on. -/
theorem Arrived.onFin (h : Arrived b v done [] fin e) (halive : e.fate = .alive) (cb : Callback) :
    Goes v done (Delivery b v done) (e.onFin fin cb) := by
  have hdone : ∀ {x : Endpoint ℤ}, Arrived b v done [] fin x → (fin = true → x.gotFin = true) →
      Delivery b v done x := by
    intro x hx hgot
    refine ⟨hx.toPrefixed, fun _ hkept => ?_, fun _ hgone => (hx.shut hgone).1⟩
    have hboth : (x.gotFin || fin) = x.gotFin := by
      cases hfin : fin with
      | true => rw [hgot hfin, Bool.true_or]
      | false => exact Bool.or_false _
    obtain ⟨-, -, hsum⟩ := hx.pending hkept
    rwa [List.append_nil, hboth] at hsum
  rw [Endpoint.onFin]
  split
  · rename_i hfin
    have htaken : Arrived b v done [] fin e.finTaken := by
      refine ⟨⟨h.isPrefix, fun _ hkept => ?_⟩, .inl rfl, fun hkept => ?_, h.shut⟩
      · have hall := (h.pending hkept).2.1 (by simp [hfin])
        rwa [List.append_nil] at hall
      · have hpending := h.pending hkept
        rw [hfin, Bool.or_true] at hpending ⊢
        exact hpending
    have hcallback := htaken.callback halive cb
    have hq := quiet_calls e.finTaken cb.calls
    rw [Endpoint.callback] at hcallback ⊢
    split
    · exact htaken.quiet hq |>.toPrefixed.goes_tcpAbandon true false _
    · exact .inl ⟨hq.fate.trans halive, hdone (htaken.quiet hq) fun _ => hq.gotFin⟩
  · rename_i hfin
    exact .inl ⟨halive, hdone h fun hf => absurd hf hfin⟩

/-- All that was accepted is passed on, or kept for the application. -/
theorem Arrived.afterProcess (h : Arrived b v done data fin e) (halive : e.fate = .alive)
    (cbs : Callbacks) (alloc : Bool) : Delivery b v done (e.afterProcess data fin cbs alloc) := by
  have hsent := h.onSent halive cbs.sent
  have hrecv := hsent.andThen fun _ halive h => h.onRecv halive cbs.recv alloc
  have hfin := hrecv.andThen fun _ halive h => h.onFin halive cbs.closed
  have hdone : Goes v done (Delivery b v done) (e.afterProcess data fin cbs alloc) :=
    hfin.andThen fun x halive h => .inl ⟨halive, h.quiet (quiet_emit (sends_tcpOutput x.pcb alloc))⟩
  rcases hdone with ⟨-, hdelivery⟩ | ⟨hfate, hpre⟩
  · exact hdelivery
  · exact hpre.ended hfate

/-- A matching segment is processed. -/
theorem Delivery.process (h : Delivery b v done e) (halive : e.fate = .alive) {seg : InSeg ℤ}
    (hsyn : seg.syn = false)
    (hm : seg.p.flatten = [] ∧ seg.fin = false ∨
      Matches b v done seg.seqno seg.p.flatten seg.fin)
    (hempty : e.pcb.refusedData ≠ [] → seg.tcplen = 0) (cbs : Callbacks) (alloc : Bool) :
    Delivery b v done (e.process seg cbs alloc) := by
  have harrived := h.arrived halive hsyn hm hempty alloc
  rw [Endpoint.process]
  dsimp only at harrived ⊢
  split
  · exact harrived.afterProcess halive cbs alloc
  · rename_i hended
    refine Prefixed.ended (harrived.toPrefixed.refused (refused_setPcb ?_) rfl rfl) hended
    rw [Pcb.tcpPcbPurge]
    split
    · exact .inl rfl
    · exact .inr rfl

/-- A matching segment comes in. -/
theorem Delivery.input (h : Delivery b v done e) {seg : InSeg ℤ} (hsyn : seg.syn = false)
    (hm : seg.p.flatten = [] ∧ seg.fin = false ∨
      Matches b v done seg.seqno seg.p.flatten seg.fin)
    (cbs : Callbacks) (alloc : Bool) : Delivery b v done (e.input seg cbs alloc) := by
  have hretry := h.retry cbs.again
  rw [Endpoint.input]
  split
  · exact h.quiet (quiet_emit (sends_tcpTimewaitInput _ _ alloc))
  · split
    · exact hretry
    · rename_i hdrops
      rw [Endpoint.andThen]
      split
      · rename_i halive
        refine hretry.process halive hsyn hm (fun hne => ?_) cbs alloc
        obtain ⟨hsome, herr⟩ := refusedData_retry e cbs.again halive hne
        by_contra hpos
        refine hdrops ?_
        rw [Endpoint.drops, decide_eq_true_iff]
        exact ⟨hsome, herr, Nat.pos_of_ne_zero hpos⟩
      · exact hretry

theorem Delivery.localStep (h : Delivery b v done e) (ev : LocalEvent)
    (hprobe : e.ProbesRight ev) : Delivery b v done (e.localStep ev) := by
  have habandon : ∀ reset allocAck alloc, Delivery b v done (e.tcpAbandon reset allocAck alloc) := by
    intro reset allocAck alloc
    obtain ⟨hpre, hfate⟩ := h.toPrefixed.tcpAbandon reset allocAck alloc
    exact hpre.ended hfate
  cases ev with
  | call c alloc => exact h.quiet (quiet_callNow e c alloc)
  | abandon reset allocAck alloc => exact habandon reset allocAck alloc
  | slowtmr rto stray alloc =>
    rw [Endpoint.localStep]
    split
    · exact h
    · split
      · exact habandon false false alloc
      · exact h.quiet (quiet_emit (sends_tcpSlowtmr _ rto hprobe alloc))
  | keepalive alloc =>
    rw [Endpoint.localStep]
    split
    · exact h.quiet (quiet_emit (sends_tcpKeepalive _ alloc))
    · exact h
  | fasttmr cb alloc =>
    have hretry := h.retry cb
    rw [Endpoint.localStep]
    split
    · exact h
    · rw [Endpoint.andThen]
      split
      · exact hretry.quiet (quiet_emit (sends_tcpFasttmr _ alloc))
      · exact hretry

end

/-! ### Both ends -/

/-- What holds of one end `e` with the stream that starts at `a`, and of the other end `f` with that
at `b`. -/
structure Joined (a b : ℤ) (e f : Endpoint ℤ) : Prop where
  sound : e.Sound
  content : Content a e
  delivery : Delivery b f.written (!f.pcb.isOpen) e

/-- A step of the other end. -/
theorem Joined.grown {a b : ℤ} {e f f' : Endpoint ℤ} (h : Joined a b e f) (hf : Grown f f') :
    Joined a b e f' := by
  refine ⟨h.sound, h.content, h.delivery.grow hf.written fun hclosed => ?_⟩
  obtain ⟨hopen, hwritten⟩ := hf.closed (by simpa using hclosed)
  exact ⟨by simp [hopen], hwritten⟩

theorem Joined.own {a b : ℤ} {e f : Endpoint ℤ} (h : Joined a b e f) {ev : LocalEvent}
    (hprobe : e.fate = .alive → e.ProbesRight ev) :
    Joined a b (e.step (.own ev)) f ∧ Grown e (e.step (.own ev)) := by
  rw [Endpoint.step, Endpoint.andThen]
  split
  · rename_i halive
    have hsound := h.sound halive
    refine ⟨⟨Endpoint.sound_localStep hsound ev, ?_, ?_⟩, grown_localStep e (hprobe halive)⟩
    · exact h.content.localStep hsound (hprobe halive)
    · exact h.delivery.localStep ev (hprobe halive)
  · exact ⟨h, Grown.refl e⟩

/-- The condition on a packet that arrives: if it is processed, it takes no window back. -/
def Endpoint.AdmitsPacket {σ : Type} [SeqNo σ] [DecidableEq σ] (e : Endpoint σ)
    (sent : List (Packet σ)) (i : ℕ) (sizes : List ℕ) (cbs : Callbacks) : Prop :=
  ∀ p, sent[i]? = some p → (e.retried cbs).fate = .alive →
    (e.retried cbs).pcb.KeepsWindow (p.arrive sizes)

instance {σ : Type} [SeqNo σ] [DecidableEq σ] (e : Endpoint σ) (sent : List (Packet σ)) (i : ℕ)
    (sizes : List ℕ) (cbs : Callbacks) : Decidable (e.AdmitsPacket sent i sizes cbs) :=
  decidable_of_iff (∀ p ∈ sent[i]?, (e.retried cbs).fate = .alive →
    (e.retried cbs).pcb.KeepsWindow (p.arrive sizes)) Iff.rfl

/-- Without options the MSS does not change. -/
theorem Pcb.Sound.keepsMss {pcb : Pcb ℤ} (h : pcb.Sound) {seg : InSeg ℤ} (hopts : seg.opts = []) :
    pcb.KeepsMss seg := by
  intro _ _ x hx
  rw [hopts, parseMss]
  rcases h with ⟨s, top, hq, -⟩ | ⟨-, hunacked, hunsent⟩
  · exact (hq.each x hx).2.1
  · rw [Pcb.queue, hunacked, hunsent] at hx
    simp at hx

theorem Endpoint.admits_arrive {e : Endpoint ℤ} (hsound : e.pcb.Sound) {sent : List (Packet ℤ)}
    {i : ℕ} {sizes : List ℕ} {cbs : Callbacks} (hadmits : e.AdmitsPacket sent i sizes cbs)
    {p : Packet ℤ} (hp : sent[i]? = some p) (hretried : (e.retried cbs).fate = .alive) :
    (e.retried cbs).pcb.Admits (p.arrive sizes) := by
  refine ⟨Pcb.Sound.keepsMss ?_ rfl, hadmits p hp hretried⟩
  rw [Endpoint.retried] at hretried ⊢
  split at hretried
  · rename_i hwait
    rwa [if_pos hwait]
  · rename_i hstate
    rw [if_neg hstate]
    exact Endpoint.sound_retry hsound cbs.again hretried

theorem fromQueue_answer {pcb : Pcb ℤ} {p : Packet ℤ} {tcplen : ℕ} {listens alloc : Bool} :
    ∀ q ∈ p.answer tcplen listens alloc, FromQueue pcb q := by
  rw [Packet.answer]
  split
  · exact fromQueue_tcpRst pcb
  · split
    · simp
    · exact fromQueue_tcpRst pcb

theorem Joined.arrival {a b : ℤ} {e f : Endpoint ℤ} (h : Joined a b e f) (hf : Content b f) {i : ℕ}
    {sizes : List ℕ} {cbs : Callbacks} (hadmits : e.AdmitsPacket f.sent i sizes cbs)
    (listens alloc : Bool) :
    Joined a b (e.arrival f.sent i sizes cbs listens alloc) f ∧
      Grown e (e.arrival f.sent i sizes cbs listens alloc) := by
  rw [Endpoint.arrival]
  split
  · exact ⟨h, Grown.refl e⟩
  · rename_i p hp
    have hm := hf.sent p (List.mem_of_getElem? hp)
    split
    · rename_i halive
      have hsound := h.sound halive
      have hseg := Endpoint.admits_arrive hsound hadmits hp
      have hflat : (p.arrive sizes).p.flatten = p.data := flatten_chain sizes p.data
      have hstep : e.step (.segment (p.arrive sizes) cbs alloc) =
          e.input (p.arrive sizes) cbs alloc := if_pos halive
      rw [hstep]
      refine ⟨⟨Endpoint.sound_input hsound hseg alloc, h.content.input hsound hseg alloc, ?_⟩,
        grown_input e _ cbs alloc⟩
      refine h.delivery.input rfl ?_ cbs alloc
      rwa [hflat]
    · rename_i hended
      have hsends : Sends e.pcb (e.pcb, p.answer (p.arrive sizes).tcplen listens alloc) :=
        ⟨Weaker.refl _, fromQueue_answer⟩
      have hquiet := quiet_emit hsends
      exact ⟨⟨fun halive => absurd halive hended, h.content.emit hsends, h.delivery.quiet hquiet⟩,
        hquiet.toGrown⟩

namespace System

/-- The condition on an event: a probe sends the right byte, and a packet that arrives takes no
window back. -/
def Admits {σ : Type} [SeqNo σ] [DecidableEq σ] (s : System σ) : SysEvent → Prop
  | .left ev => s.left.fate = .alive → s.left.ProbesRight ev
  | .right ev => s.right.fate = .alive → s.right.ProbesRight ev
  | .toLeft i sizes cbs _ _ => s.left.AdmitsPacket s.right.sent i sizes cbs
  | .toRight i sizes cbs _ _ => s.right.AdmitsPacket s.left.sent i sizes cbs

instance {σ : Type} [SeqNo σ] [DecidableEq σ] (s : System σ) :
    (ev : SysEvent) → Decidable (s.Admits ev)
  | .left ev => inferInstanceAs (Decidable (_ → s.left.ProbesRight ev))
  | .right ev => inferInstanceAs (Decidable (_ → s.right.ProbesRight ev))
  | .toLeft i sizes cbs _ _ =>
    inferInstanceAs (Decidable (s.left.AdmitsPacket s.right.sent i sizes cbs))
  | .toRight i sizes cbs _ _ =>
    inferInstanceAs (Decidable (s.right.AdmitsPacket s.left.sent i sizes cbs))

/-- The invariant of both ends. -/
structure Inv (a b : ℤ) (s : System ℤ) : Prop where
  left : Joined a b s.left s.right
  right : Joined b a s.right s.left

theorem inv_step {a b : ℤ} {s : System ℤ} (h : s.Inv a b) {ev : SysEvent} (hadmits : s.Admits ev) :
    (s.step ev).Inv a b := by
  cases ev with
  | left ev =>
    obtain ⟨hleft, hgrown⟩ := h.left.own hadmits
    exact ⟨hleft, h.right.grown hgrown⟩
  | right ev =>
    obtain ⟨hright, hgrown⟩ := h.right.own hadmits
    exact ⟨h.left.grown hgrown, hright⟩
  | toLeft i sizes cbs listens alloc =>
    obtain ⟨hleft, hgrown⟩ := h.left.arrival h.right.content hadmits listens alloc
    exact ⟨hleft, h.right.grown hgrown⟩
  | toRight i sizes cbs listens alloc =>
    obtain ⟨hright, hgrown⟩ := h.right.arrival h.left.content hadmits listens alloc
    exact ⟨h.left.grown hgrown, hright⟩

theorem joined_fresh (a b : ℤ) (left right : Params) :
    Joined a b (Endpoint.fresh a b left) (Endpoint.fresh b a right) where
  sound := sound_fresh a b left
  content := ⟨by simp [Endpoint.fresh, Pcb.fresh, Pcb.queue], by simp [Endpoint.fresh, Pcb.fresh],
    by simp [Endpoint.fresh]⟩
  delivery := ⟨⟨List.nil_prefix, by simp [Endpoint.fresh]⟩, by simp [Endpoint.fresh, Pcb.fresh],
    by simp [Endpoint.fresh]⟩

/-- Both ends over every run, with unbounded sequence numbers. -/
theorem inv_run (a b : ℤ) (left right : Params) {es : List SysEvent}
    (hes : Machine.Along System.step System.Admits (System.fresh a b left right) es) :
    (Machine.run System.step (System.fresh a b left right) es).Inv a b :=
  Machine.along_induction (P := System.Inv a b) (fun _ _ h hadmits => inv_step h hadmits)
    ⟨joined_fresh a b left right, joined_fresh b a right left⟩ hes

/-- The second segment arrives before the first one, which is lost and then transmitted again.  What
it brings is refused at first, and passed on again with the next segment. -/
example :
    let s := Machine.run System.step (System.fresh (0 : ℤ) 50 Params.small Params.small)
      [.left (.call (.write [1, 2, 3] true false fun _ => true) true), .left (.call .output true),
        .left (.call (.write [4, 5, 6, 7] true false fun _ => true) true), .left (.call .output true),
        .left (.call (.close true) true), .toRight 1 [] .quiet false true, .left (.slowtmr 0 0 true),
        .toRight 3 [2] ⟨.quiet, .quiet, ⟨[], .err⟩, .quiet⟩ false true,
        .toRight 1 [1, 1] ⟨⟨[(.recved 3, true)], .ok⟩, .quiet, .quiet, .quiet⟩ false true]
    s.right.received = [1, 2, 3, 4, 5, 6, 7] := by
  decide

/-- A segment of three bytes fills the window and is lost.  The probe, when the persist timer runs
out, sends a byte of its headers, and this is passed to the other application as data. -/
example :
    let s := Machine.run System.step
      (System.fresh (0 : ℤ) 50 { Params.small with sndWnd := 3, sndWnd_lt := by decide } Params.small)
      [.left (.call (.write [1, 2, 3] true false fun _ => true) true), .left (.call .output true),
        .left (.call (.write [4, 5] true false fun _ => true) true), .left (.call .output true),
        .left (.slowtmr 9 69 true), .left (.slowtmr 9 69 true), .left (.slowtmr 9 69 true),
        .toRight 1 [] .quiet false true]
    s.right.received = [69] ∧ s.left.written = [1, 2, 3, 4, 5] := by
  decide

end System

end Tcp
end Lwip
