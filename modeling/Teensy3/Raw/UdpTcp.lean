import Mathlib.Tactic
import Teensy3.Lib.Run
import Teensy3.Enet.RxRing
import Teensy3.Raw.Udp
import Teensy3.Raw.UdpRecv

/-!
# The window protocol of `udp_tcp`

`udp_tcp` sends `reps` packets to a peer that answers each with a datagram, and keeps at most
`WPKTS` of them unanswered.  There is room for one datagram: `handle_frame` copies it to `UDP_buff`
without asking whether the one before has been read.  Between the calls of `recvfrom` the sketch
polls the receive ring, where the datagrams come in among other frames.

The machine is the sketch together with the receive ring of `Enet.RxRing`, whose `check_rx` is cut
where the MAC may come in between.

* `UdpTcp`, `UdpTcp.step`: the machine;
* `Bookkeeping`, `Mail`, `Sends`: its invariants;
* `udpTcpInv_run`: they hold in every run.
-/

namespace Raw

open ByteMem Machine Enet

def mss : ℕ := 1460

def wpkts : ℕ := 2

/-! ### Datagrams -/

/-- The payload of a UDP packet, by its length field. -/
def datagram (f : List Byte) : List Byte := read (mem f) 44 (udpLengthField (mem f) - 8)

/-- A frame with a UDP datagram to `myaddress` of 8 to 1460 bytes. -/
structure IsDatagram (myaddress : BitVec 32) (f : List Byte) : Prop where
  udp : IsUdp myaddress (mem f)
  min : 16 ≤ udpLengthField (mem f)
  max : udpLengthField (mem f) ≤ 8 + mss
  inside : 36 + udpLengthField (mem f) ≤ f.length

instance (myaddress : BitVec 32) (f : List Byte) : Decidable (IsDatagram myaddress f) :=
  decidable_of_iff (IsUdp myaddress (mem f) ∧ 16 ≤ udpLengthField (mem f) ∧
      udpLengthField (mem f) ≤ 8 + mss ∧ 36 + udpLengthField (mem f) ≤ f.length)
    ⟨fun ⟨h1, h2, h3, h4⟩ => ⟨h1, h2, h3, h4⟩, fun ⟨h1, h2, h3, h4⟩ => ⟨h1, h2, h3, h4⟩⟩

/-! ### The machine -/

/-- Where `udp_tcp` stands; `inLoop` tells its second loop from its third. -/
inductive UdpTcpPc
  | entry
  /-- At the test of `for (i=0;i<WPKTS; i++)`. -/
  | blast
  /-- At the test of `for (i=WPKTS;i<reps; i++)`. -/
  | loop
  /-- In `while(UDP_lth==0) check_rx();`. -/
  | poll (inLoop : Bool)
  | receive (inLoop : Bool)
  /-- At `rtt[acks] = micros() - *(int *)(buff+4); acks++;`. -/
  | stamp (inLoop : Bool)
  | send
  /-- At the test of `while(acks < reps)`. -/
  | drain
  | done
  deriving DecidableEq

structure UdpTcp where
  rx : RxState
  node : Node
  pc : UdpTcpPc
  i : ℕ
  acks : ℕ
  buff : ℕ → Byte
  /-- The writes to `rtt`, in order. -/
  rtt : List (ℕ × BitVec 32)
  /-- What the calls of `recvfrom` have returned. -/
  returned : List (List Byte)

/-- The UDP packets that have been sent. -/
def UdpTcp.sent (s : UdpTcp) : List (List Byte) := s.node.sent.filter (CarriesUdp ·)

/-- The datagrams that have come in. -/
def UdpTcp.arrived (s : UdpTcp) : List (List Byte) :=
  s.rx.stored.filter fun f => IsUdp s.node.myaddress (mem f)

/-- `*(int *)buff = i; *(int *)(buff+4) = micros(); sendto(buff,sizeof(buff),4444,manitou,7654);` -/
def UdpTcp.sendCount (swUdpChksum : Bool) (now : BitVec 32) (s : UdpTcp) : UdpTcp :=
  let buff := store32 (store32 s.buff 0 (.ofNat 32 s.i)) 4 now
  { s with
    buff := buff
    node := sendto swUdpChksum s.node (read buff 0 mss) 4444 0x0401A8C0 7654
    i := s.i + 1 }

/-- The call of `check_rx` that is under way takes its next step. -/
def UdpTcp.checkRx (s : UdpTcp) : UdpTcp :=
  match s.rx.pc with
  | .full _ =>
    let d := s.rx.ring s.rx.rxnum
    { s with
      node := handleFrame s.node (fun k => s.rx.bufs (d.buffer + k)) d.length.toNat
      rx := rxStep s.rx .driver }
  | _ => { s with rx := rxStep s.rx .driver }

/-- The next step of the sketch; `now` is what `micros()` returns, if it is called. -/
def UdpTcp.sketch (swUdpChksum : Bool) (reps : ℕ) (now : BitVec 32) (s : UdpTcp) : UdpTcp :=
  match s.pc with
  | .entry => { s with node := { s.node with udpLth := 0 }, i := 0, acks := 0, pc := .blast }
  | .blast => if s.i < wpkts then s.sendCount swUdpChksum now else { s with i := wpkts, pc := .loop }
  | .loop => if s.i < reps then { s with pc := .poll true } else { s with pc := .drain }
  | .poll inLoop =>
    if s.rx.pc ≠ .idle then s.checkRx
    else if s.node.udpLth = 0 then { s with rx := rxStep s.rx (.call .checkRx) }
    else { s with pc := .receive inLoop }
  | .receive inLoop =>
    let r := recvfrom s.node
    { s with
      node := r.2.2
      buff := blit s.buff 0 r.2.1
      returned := s.returned ++ [r.2.1]
      pc := .stamp inLoop }
  | .stamp inLoop =>
    { s with
      rtt := s.rtt ++ [(s.acks, now - load32 s.buff 4)]
      acks := s.acks + 1
      pc := if inLoop then .send else .drain }
  | .send => { s.sendCount swUdpChksum now with pc := .loop }
  | .drain => if s.acks < reps then { s with pc := .poll false } else { s with pc := .done }
  | .done => s

/-- What can happen next. -/
inductive UdpTcpEvent
  /-- The MAC stores a frame that is no UDP packet to this node. -/
  | other (frame : List Byte) (status : BitVec 16)
  /-- The MAC stores an answer of the peer. -/
  | answer (frame : List Byte) (status : BitVec 16)
  /-- The sketch takes a step. -/
  | sketch (now : BitVec 32)

/-- The peer owes an answer. -/
def UdpTcp.Owed (s : UdpTcp) : Prop := s.arrived.length < s.sent.length

instance : DecidablePred UdpTcp.Owed := fun _ => inferInstanceAs (Decidable (_ < _))

/-- One step.  The MAC passes no frame of less than 60 bytes on, and the peer sends one datagram for
each packet. -/
def UdpTcp.step (swUdpChksum : Bool) (reps : ℕ) (s : UdpTcp) : UdpTcpEvent → UdpTcp
  | .other f status =>
    if 60 ≤ f.length ∧ ¬ IsUdp s.node.myaddress (mem f) then { s with rx := s.rx.store f status }
    else s
  | .answer f status =>
    if 60 ≤ f.length ∧ IsDatagram s.node.myaddress f ∧ s.Owed then
      { s with rx := s.rx.store f status }
    else s
  | .sketch now => s.sketch swUdpChksum reps now

/-- `udp_tcp` is called, as in the line at the end of `setup` that is commented out: nothing has come
in yet. -/
def udpTcpInit (myaddress : BitVec 32) (macaddr1 macaddr2 : BitVec 24) (bufs buff : ℕ → Byte) :
    UdpTcp where
  rx := rxInit bufs
  node := nodeInit myaddress macaddr1 macaddr2
  pc := .entry
  i := 0
  acks := 0
  buff := buff
  rtt := []
  returned := []

/-! ### The invariants -/

/-- The datagrams that have been taken from the ring. -/
def UdpTcp.taken (s : UdpTcp) : List (List Byte) :=
  (s.rx.handed.map Handed.frame).filter fun f => IsUdp s.node.myaddress (mem f)

/-- The datagram in `UDP_buff`, if there is one. -/
def UdpTcp.mailbox (s : UdpTcp) : List (List Byte) :=
  if s.node.udpLth = 0 then [] else [(recvfrom s.node).2.1]

/-- The number that `udp_tcp` puts into a packet. -/
def packetCount (f : List Byte) : BitVec 32 := load32 (mem f) 44

/-- How many packets have been sent, acknowledged, and returned by `recvfrom`, at each point. -/
def Counts (reps i sent acks returned : ℕ) : UdpTcpPc → Prop
  | .entry => i = 0 ∧ sent = 0 ∧ acks = 0 ∧ returned = 0
  | .blast => i ≤ wpkts ∧ sent = i ∧ acks = 0 ∧ returned = 0
  | .loop => i ≤ reps ∧ sent = i ∧ acks + wpkts = i ∧ returned = acks
  | .poll true | .receive true => i < reps ∧ sent = i ∧ acks + wpkts = i ∧ returned = acks
  | .stamp true => i < reps ∧ sent = i ∧ acks + wpkts = i ∧ returned = acks + 1
  | .send => i < reps ∧ sent = i ∧ acks + 1 = i ∧ returned = acks
  | .drain => sent = reps ∧ acks ≤ reps ∧ reps ≤ acks + wpkts ∧ returned = acks
  | .poll false | .receive false =>
    sent = reps ∧ acks < reps ∧ reps ≤ acks + wpkts ∧ returned = acks
  | .stamp false => sent = reps ∧ acks < reps ∧ reps ≤ acks + wpkts ∧ returned = acks + 1
  | .done => sent = reps ∧ acks = reps ∧ returned = reps

/-- Where there is a datagram in `UDP_buff`, and where there is none. -/
def Box (udpLth : ℕ) : UdpTcpPc → Prop
  | .entry => udpLth = 0
  | .receive _ => udpLth ≠ 0
  | _ => True

/-- What the sketch has done. -/
structure Bookkeeping (reps : ℕ) (s : UdpTcp) : Prop where
  intact : Intact s.node.prefab
  sent : s.sent.map packetCount = (List.range s.sent.length).map (BitVec.ofNat 32)
  rtt : s.rtt.map Prod.fst = List.range s.acks
  counts : Counts reps s.i s.sent.length s.acks s.returned.length s.pc

/-- What has become of the datagrams. -/
structure Mail (s : UdpTcp) : Prop where
  rx : RxInv s.rx
  frames : ∀ f ∈ s.rx.stored, 60 ≤ f.length ∧
    (IsUdp s.node.myaddress (mem f) → IsDatagram s.node.myaddress f)
  /-- `check_rx` is called in the polling loops only, -/
  polling : s.rx.pc ≠ .idle → ∃ inLoop, s.pc = .poll inLoop
  /-- and only when there is room for a datagram. -/
  room : ∀ h, s.rx.pc = .full h → s.node.udpLth = 0
  box : Box s.node.udpLth s.pc
  taken : s.taken.map datagram = s.returned ++ s.mailbox

structure UdpTcpInv (reps : ℕ) (s : UdpTcp) : Prop extends Bookkeeping reps s, Mail s

/-! ### The MAC -/

section Mac

variable {reps : ℕ} {s : UdpTcp}

theorem udpTcpInv_store {f : List Byte} (status : BitVec 16) (h : UdpTcpInv reps s)
    (hf : 60 ≤ f.length ∧ (IsUdp s.node.myaddress (mem f) → IsDatagram s.node.myaddress f)) :
    UdpTcpInv reps { s with rx := s.rx.store f status } := by
  obtain ⟨hpc, hhanded, hstored⟩ := store_keeps s.rx f status
  refine { h with
    rx := rxInv_store f status h.rx
    frames := ?_
    polling := fun hne => h.polling (by rwa [← hpc])
    room := fun hd hfull => h.room hd (by rwa [← hpc])
    taken := ?_ }
  · intro g hg
    rcases hstored with heq | heq <;> simp only [heq] at hg
    · exact h.frames g hg
    · rcases List.mem_append.1 hg with hg | hg
      · exact h.frames g hg
      · rwa [List.mem_singleton.1 hg]
  · have htaken := h.taken
    simp only [UdpTcp.taken, UdpTcp.mailbox, hhanded] at htaken ⊢
    exact htaken

end Mac

/-! ### Sending -/

section Send

variable {s : UdpTcp} (swUdpChksum : Bool) (now : BitVec 32)

/-- A packet whose payload begins with the number `i`. -/
theorem packetCount_eq {f : List Byte} {buff : ℕ → Byte} {i : BitVec 32} (hlen : f.length = 44 + mss)
    (hpayload : payload f = read buff 0 mss) (hbuff : read buff 0 4 = bytes32 i) :
    packetCount f = i := by
  apply load32_of_read
  rw [payload_eq_read hlen, show mss = 4 + 1456 from rfl, read_add, read_add] at hpayload
  rw [(List.append_inj hpayload (by simp)).1, hbuff]

theorem sendCount_sent (h : Intact s.node.prefab) :
    Intact (s.sendCount swUdpChksum now).node.prefab ∧
      ∃ f, (s.sendCount swUdpChksum now).sent = s.sent ++ [f] ∧
        packetCount f = BitVec.ofNat 32 s.i := by
  let buff := store32 (store32 s.buff 0 (.ofNat 32 s.i)) 4 now
  have hlen : (read buff 0 mss).length = mss := length_read _ _ _
  have hok := sendOk_sendto swUdpChksum h (read buff 0 mss) 4444 0x0401A8C0 7654
    (by rw [hlen, mss]; omega)
  obtain ⟨fs, hsent, hone, hfs⟩ := hok.sent
  obtain ⟨f, rfl⟩ := List.length_eq_one_iff.1 hone
  obtain ⟨hframe, hcarries, -⟩ := hfs f (List.mem_singleton_self f)
  refine ⟨fun i hi hw => (hok.prefab i hi hw).trans (h i hi hw), f, ?_, ?_⟩
  · have hudp : CarriesUdp f := ⟨hframe.header.type, hframe.header.protocol⟩
    simp only [UdpTcp.sent, UdpTcp.sendCount]
    rw [hsent, List.filter_append, List.filter_singleton, decide_eq_true hudp]
    rfl
  · refine packetCount_eq ?_ hcarries.2.2 ?_
    · rw [hframe.length, SendCall.bytes, hlen]
    · rw [read_store32_of_ne (by omega), read_store32_self]

theorem bookkeeping_sent {reps : ℕ} (h : Bookkeeping reps s) :
    (s.sendCount swUdpChksum now).sent.length = s.sent.length + 1 ∧
      (s.sent.length = s.i → (s.sendCount swUdpChksum now).sent.map packetCount =
        (List.range (s.sendCount swUdpChksum now).sent.length).map (BitVec.ofNat 32)) := by
  obtain ⟨-, f, hsent, hcount⟩ := sendCount_sent swUdpChksum now h.intact
  rw [hsent, List.length_append, List.length_singleton]
  refine ⟨rfl, fun hi => ?_⟩
  rw [List.map_append, h.sent, List.range_succ, List.map_append, List.map_singleton, hcount, hi]
  rfl

/-- A packet is sent: `pc'` is where the sketch goes on. -/
theorem udpTcpInv_send {reps : ℕ} (pc' : UdpTcpPc) (h : UdpTcpInv reps s)
    (hpoll : ∀ inLoop, s.pc ≠ .poll inLoop) (hbox : Box s.node.udpLth pc')
    (hi : s.sent.length = s.i)
    (hcounts : Counts reps (s.i + 1) (s.sent.length + 1) s.acks s.returned.length pc') :
    UdpTcpInv reps { s.sendCount swUdpChksum now with pc := pc' } := by
  obtain ⟨hlen, hsent⟩ := bookkeeping_sent swUdpChksum now h.toBookkeeping
  have hidle : s.rx.pc = .idle := by
    by_contra hne
    obtain ⟨inLoop, hpc⟩ := h.polling hne
    exact hpoll inLoop hpc
  exact {
    intact := (sendCount_sent swUdpChksum now h.intact).1
    sent := hsent hi
    rtt := h.rtt
    counts := by
      have hsame : UdpTcp.sent { s.sendCount swUdpChksum now with pc := pc' } =
        (s.sendCount swUdpChksum now).sent := rfl
      rw [hsame, hlen]
      exact hcounts
    rx := h.rx
    frames := h.frames
    polling := fun hne => absurd hidle hne
    room := h.room
    box := hbox
    taken := h.taken }

end Send

/-! ### Polling -/

theorem isUdp_congr {a : BitVec 32} {p q : ℕ → Byte} (h : ∀ i < 36, p i = q i) :
    IsUdp a p ↔ IsUdp a q := by
  unfold IsUdp
  rw [load16_congr (h 14 (by omega)) (h 15 (by omega)), h 25 (by omega),
    load32_congr fun i hi => h (32 + i) (by omega)]

section Poll

variable {reps : ℕ} {s : UdpTcp}

/-- The buffer that is handed to `handle_frame`, and the frame that the MAC has stored there. -/
theorem mem_frame (d : Desc) (bufs : ℕ → Byte) {i : ℕ} (hi : i < d.length.toNat) :
    mem (d.frame bufs) i = bufs (d.buffer + i) := getD_read hi

/-- After a datagram has been handled, `recvfrom` will return it. -/
theorem recvfrom_datagram {n : Node} {packet : ℕ → Byte} {f : List Byte}
    (hf : IsDatagram n.myaddress f) (hpacket : ∀ i < f.length, mem f i = packet i) :
    (recvfrom (handleFrame n packet f.length)).2.1 = datagram f := by
  have hlen : 52 ≤ f.length := by
    have := hf.min
    have := hf.inside
    omega
  have hudp : IsUdp n.myaddress packet :=
    (isUdp_congr fun i hi => hpacket i (by omega)).1 hf.udp
  have hbuff : ∀ i < f.length, (handleFrame n packet f.length).udpBuff i = mem f i := fun i hi =>
    (udpBuff_handleFrame f.length hudp hi).trans (hpacket i hi).symm
  have hfield : udpLengthField (handleFrame n packet f.length).udpBuff = udpLengthField (mem f) := by
    unfold udpLengthField
    rw [load16_congr (hbuff 40 (by omega)) (hbuff 41 (by omega))]
  have hmin := hf.min
  have hinside := hf.inside
  have hcount := length_recvfrom_of_le (n := handleFrame n packet f.length) (by omega)
  have hread : (recvfrom (handleFrame n packet f.length)).2.1 =
      read (handleFrame n packet f.length).udpBuff 44 (udpLengthField (mem f) - 8) := by
    rw [length_recvfrom] at hcount
    rw [← hfield, ← hcount]
    rfl
  rw [hread, datagram]
  exact read_congr fun j hj => hbuff (44 + j) (by omega)

/-- The packet that `check_rx` hands to `handle_frame`, and the node after it. -/
def UdpTcp.packet (s : UdpTcp) : ℕ → Byte := fun k => s.rx.bufs ((s.rx.ring s.rx.rxnum).buffer + k)

def UdpTcp.handled (s : UdpTcp) : Node :=
  handleFrame s.node s.packet (s.rx.ring s.rx.rxnum).length.toNat

/-- The frame behind it. -/
def UdpTcp.frame (s : UdpTcp) : List Byte := (s.rx.ring s.rx.rxnum).frame s.rx.bufs

theorem checkRx_hand {hd : Handler} (hpc : s.rx.pc = .full hd) :
    s.checkRx = { s with node := s.handled, rx := s.rx.hand hd } := by
  simp only [UdpTcp.checkRx, rxStep, hpc]
  rfl

theorem handed_hand (hd : Handler) :
    (s.rx.hand hd).handed.map Handed.frame = s.rx.handed.map Handed.frame ++ [s.frame] := by
  simp [RxState.hand, UdpTcp.frame]

theorem frame_mem_stored {hd : Handler} (h : RxInv s.rx) (hpc : s.rx.pc = .full hd) :
    s.frame ∈ s.rx.stored := by
  have horder : _ = s.rx.stored := (rxInv_hand hd h hpc).order
  rw [← horder, handed_hand]
  simp

theorem length_frame : s.frame.length = (s.rx.ring s.rx.rxnum).length.toNat := length_read _ _ _

theorem mem_packet : ∀ i < s.frame.length, mem s.frame i = s.packet i := fun i hi =>
  mem_frame _ _ (by rwa [← length_frame])

/-- `handle_frame` takes the buffer for a UDP packet exactly if the frame is one. -/
theorem isUdp_packet (hmin : 60 ≤ s.frame.length) (a : BitVec 32) :
    IsUdp a s.packet ↔ IsUdp a (mem s.frame) :=
  (isUdp_congr fun i hi => mem_packet i (by omega)).symm

/-- The frames that are sent while a frame is handled are no UDP packets. -/
theorem handled_sent : s.handled.sent.filter (CarriesUdp ·) = s.node.sent.filter (CarriesUdp ·) := by
  by_cases hu : IsUdp s.node.myaddress s.packet
  · rw [UdpTcp.handled, (handleFrame_udp _ hu).2.2]
  · obtain ⟨fs, heq, hfs⟩ := (handleFrame_other (s.rx.ring s.rx.rxnum).length.toNat hu).2.2
    have hnone : fs.filter (CarriesUdp ·) = [] := List.filter_eq_nil_iff.2 (by simpa using hfs)
    rw [UdpTcp.handled, heq, List.filter_append, hnone, List.append_nil]

/-- A datagram is put where there was none. -/
theorem handled_mailbox (hroom : s.node.udpLth = 0) (hmin : 60 ≤ s.frame.length)
    (hf : IsUdp s.node.myaddress (mem s.frame) → IsDatagram s.node.myaddress s.frame) :
    UdpTcp.mailbox { s with node := s.handled } =
      if IsUdp s.node.myaddress (mem s.frame) then [datagram s.frame] else [] := by
  by_cases hu : IsUdp s.node.myaddress (mem s.frame)
  · have hlth := (handleFrame_udp (s.rx.ring s.rx.rxnum).length.toNat ((isUdp_packet hmin _).2 hu)).2.1
    have hmail := recvfrom_datagram (hf hu) mem_packet
    rw [length_frame] at hmail hmin
    simp only [UdpTcp.mailbox, UdpTcp.handled, hlth]
    rw [if_neg (by omega), if_pos hu, hmail]
  · have hother := handleFrame_other (s.rx.ring s.rx.rxnum).length.toNat
      fun hp => hu ((isUdp_packet hmin _).1 hp)
    simp only [UdpTcp.mailbox, UdpTcp.handled, hother.2.1]
    rw [if_pos hroom, if_neg hu]

/-- `handle_frame` is called, with room for a datagram. -/
theorem udpTcpInv_hand {hd : Handler} (h : UdpTcpInv reps s) (hpc : s.rx.pc = .full hd) :
    UdpTcpInv reps s.checkRx := by
  obtain ⟨hmin, hf⟩ := h.frames _ (frame_mem_stored h.rx hpc)
  obtain ⟨hprefab, haddress⟩ :=
    handleFrame_keeps s.node s.packet (s.rx.ring s.rx.rxnum).length.toNat
  have hroom := h.room hd hpc
  have hpoll := h.polling (by rw [hpc]; simp)
  have hsent : UdpTcp.sent { s with node := s.handled, rx := s.rx.hand hd } = s.sent := handled_sent
  have htaken : s.taken.map datagram = s.returned := by
    rw [h.taken, UdpTcp.mailbox, if_pos hroom, List.append_nil]
  rw [checkRx_hand hpc]
  exact {
    intact := by
      rw [UdpTcp.handled, hprefab]
      exact h.intact
    sent := by
      rw [hsent]
      exact h.sent
    rtt := h.rtt
    counts := by
      rw [hsent]
      exact h.counts
    rx := rxInv_hand hd h.rx hpc
    frames := by
      rw [UdpTcp.handled, haddress]
      exact h.frames
    polling := fun _ => hpoll
    room := fun hd' hfull => absurd hfull (by simp [RxState.hand])
    box := by
      obtain ⟨inLoop, hpoll⟩ := hpoll
      simp only [hpoll, Box]
    taken := by
      have hmail := handled_mailbox hroom hmin hf
      have hsplit : UdpTcp.taken { s with node := s.handled, rx := s.rx.hand hd } =
          s.taken ++ if IsUdp s.node.myaddress (mem s.frame) then [s.frame] else [] := by
        simp only [UdpTcp.taken, UdpTcp.handled, haddress, handed_hand, List.filter_append]
        congr 1
        split_ifs with hu <;> simp [hu]
      rw [hsplit, List.map_append, htaken]
      refine congrArg (s.returned ++ ·) (Eq.trans ?_ hmail.symm)
      split_ifs <;> rfl }

/-- A step of `check_rx` that hands nothing on. -/
theorem udpTcpInv_rx {r : RxState} (h : UdpTcpInv reps s) (hr : RxInv r)
    (hstored : r.stored = s.rx.stored) (hhanded : r.handed = s.rx.handed)
    (hpoll : r.pc ≠ .idle → ∃ inLoop, s.pc = .poll inLoop)
    (hroom : ∀ hd, r.pc = .full hd → s.node.udpLth = 0) : UdpTcpInv reps { s with rx := r } :=
  { h with
    rx := hr
    frames := by
      simp only [hstored]
      exact h.frames
    polling := hpoll
    room := hroom
    taken := by
      have htaken := h.taken
      simp only [UdpTcp.taken, UdpTcp.mailbox, hhanded] at htaken ⊢
      exact htaken }

theorem checkRx_giveBack (hpc : s.rx.pc = .giveBack) :
    s.checkRx = { s with rx := s.rx.giveBack } := by
  simp only [UdpTcp.checkRx, rxStep, hpc]

theorem udpTcpInv_checkRx (h : UdpTcpInv reps s) (hne : s.rx.pc ≠ .idle) :
    UdpTcpInv reps s.checkRx := by
  cases hpc : s.rx.pc with
  | idle => exact absurd hpc hne
  | full hd => exact udpTcpInv_hand h hpc
  | giveBack =>
    have hidle := giveBack_keeps s.rx
    rw [checkRx_giveBack hpc]
    refine udpTcpInv_rx h (rxInv_giveBack h.rx hpc) hidle.2.1 hidle.2.2 ?_ ?_
    · exact fun hne => absurd hidle.1 hne
    · exact fun hd hfull => absurd (hidle.1.symm.trans hfull) (by simp)

/-- `check_rx` is called, with `UDP_lth == 0`. -/
theorem udpTcpInv_call {inLoop : Bool} (h : UdpTcpInv reps s) (hpc : s.pc = .poll inLoop)
    (hidle : s.rx.pc = .idle) (hroom : s.node.udpLth = 0) :
    UdpTcpInv reps { s with rx := rxStep s.rx (.call .checkRx) } := by
  have hstep : rxStep s.rx (.call .checkRx) = s.rx.poll Poller.checkRx.handler := by
    simp only [rxStep, if_pos hidle]
  have hkeep := poll_keeps s.rx Poller.checkRx.handler
  rw [hstep]
  exact udpTcpInv_rx h (rxInv_poll _ h.rx hidle) hkeep.1 hkeep.2 (fun _ => ⟨inLoop, hpc⟩)
    fun _ _ => hroom

end Poll

/-! ### Steps and runs -/

section Run

variable (swUdpChksum : Bool) {reps : ℕ} {s : UdpTcp}

/-- The sketch goes on without touching the network: `pc'` is where it goes. -/
theorem udpTcpInv_goto {i : ℕ} {pc' : UdpTcpPc} (h : UdpTcpInv reps s) (hidle : s.rx.pc = .idle)
    (hbox : Box s.node.udpLth pc')
    (hcounts : Counts reps i s.sent.length s.acks s.returned.length pc') :
    UdpTcpInv reps { s with i := i, pc := pc' } :=
  { h with
    counts := hcounts
    polling := fun hne => absurd hidle hne
    box := hbox }

theorem idle_of_not_poll (h : UdpTcpInv reps s) (hpc : ∀ inLoop, s.pc ≠ .poll inLoop) :
    s.rx.pc = .idle := by
  by_contra hne
  obtain ⟨inLoop, heq⟩ := h.polling hne
  exact hpc inLoop heq

theorem udpTcpInv_entry (h : UdpTcpInv reps s) (hpc : s.pc = .entry) :
    UdpTcpInv reps
      { s with node := { s.node with udpLth := 0 }, i := 0, acks := 0, pc := .blast } := by
  have hidle := idle_of_not_poll h (by simp [hpc])
  have hbox : s.node.udpLth = 0 := by
    have hbox := h.box
    rwa [hpc] at hbox
  have hcounts := h.counts
  rw [hpc] at hcounts
  obtain ⟨-, hsent, hacks, hret⟩ := hcounts
  have hrtt := h.rtt
  have htaken := h.taken
  rw [hacks] at hrtt
  rw [UdpTcp.mailbox, if_pos hbox] at htaken
  exact { h with
    rtt := hrtt
    counts := ⟨Nat.zero_le _, hsent, rfl, hret⟩
    polling := fun hne => absurd hidle hne
    room := fun _ _ => rfl
    box := trivial
    taken := htaken }

/-- `recvfrom` empties `UDP_buff`. -/
theorem udpTcpInv_receive (h : UdpTcpInv reps s) {inLoop : Bool} (hpc : s.pc = .receive inLoop) :
    UdpTcpInv reps
      { s with
        node := (recvfrom s.node).2.2
        buff := blit s.buff 0 (recvfrom s.node).2.1
        returned := s.returned ++ [(recvfrom s.node).2.1]
        pc := .stamp inLoop } := by
  have hidle := idle_of_not_poll h (by simp [hpc])
  have hbox := h.box
  have hcounts := h.counts
  rw [hpc] at hbox hcounts
  have htaken := h.taken
  rw [UdpTcp.mailbox, if_neg hbox] at htaken
  exact { h with
    counts := by
      simp only [List.length_append, List.length_singleton]
      cases inLoop <;> exact ⟨hcounts.1, hcounts.2.1, hcounts.2.2.1, by rw [hcounts.2.2.2]⟩
    polling := fun hne => absurd hidle hne
    room := fun _ _ => rfl
    box := trivial
    taken := htaken.trans (List.append_nil _).symm }

theorem udpTcpInv_stamp (now : BitVec 32) (h : UdpTcpInv reps s) {inLoop : Bool}
    (hpc : s.pc = .stamp inLoop) :
    UdpTcpInv reps
      { s with
        rtt := s.rtt ++ [(s.acks, now - load32 s.buff 4)]
        acks := s.acks + 1
        pc := if inLoop then .send else .drain } := by
  have hidle := idle_of_not_poll h (by simp [hpc])
  have hcounts := h.counts
  rw [hpc] at hcounts
  exact { h with
    rtt := by rw [List.map_append, h.rtt, List.range_succ]; rfl
    counts := by
      cases inLoop with
      | true =>
        obtain ⟨hi, hsent, hacks, hret⟩ := hcounts
        exact ⟨hi, hsent, by rw [wpkts] at hacks; omega, hret⟩
      | false =>
        obtain ⟨hsent, hlt, hwin, hret⟩ := hcounts
        exact ⟨hsent, hlt, hwin.trans (by simp only; omega), hret⟩
    polling := fun hne => absurd hidle hne
    box := by cases inLoop <;> trivial }

theorem udpTcpInv_sketch (hreps : wpkts ≤ reps) (now : BitVec 32) (h : UdpTcpInv reps s) :
    UdpTcpInv reps (s.sketch swUdpChksum reps now) := by
  have hcounts := h.counts
  unfold UdpTcp.sketch
  split
  case h_1 hpc => exact udpTcpInv_entry h hpc
  case h_2 hpc =>
    rw [hpc] at hcounts
    obtain ⟨hi, hsent, hacks, hret⟩ := hcounts
    split_ifs with hlt
    · have hsend := udpTcpInv_send swUdpChksum now .blast h (by simp [hpc]) trivial hsent
        ⟨by omega, by omega, hacks, hret⟩
      rwa [← hpc] at hsend
    · exact udpTcpInv_goto h (idle_of_not_poll h (by simp [hpc])) trivial
        ⟨hreps, by omega, by omega, by omega⟩
  case h_3 hpc =>
    rw [hpc] at hcounts
    obtain ⟨hi, hsent, hacks, hret⟩ := hcounts
    have hidle := idle_of_not_poll h (by simp [hpc])
    split_ifs with hlt
    · exact udpTcpInv_goto h hidle trivial ⟨hlt, hsent, hacks, hret⟩
    · exact udpTcpInv_goto h hidle trivial ⟨by omega, by omega, by omega, hret⟩
  case h_4 inLoop hpc =>
    by_cases hidle : s.rx.pc = .idle
    · rw [if_neg (not_not_intro hidle)]
      split_ifs with hroom
      · exact udpTcpInv_call h hpc hidle hroom
      · rw [hpc] at hcounts
        refine udpTcpInv_goto h hidle hroom ?_
        cases inLoop <;> exact hcounts
    · rw [if_pos hidle]
      exact udpTcpInv_checkRx h hidle
  case h_5 inLoop hpc => exact udpTcpInv_receive h hpc
  case h_6 inLoop hpc => exact udpTcpInv_stamp now h hpc
  case h_7 hpc =>
    rw [hpc] at hcounts
    obtain ⟨hi, hsent, hacks, hret⟩ := hcounts
    exact udpTcpInv_send swUdpChksum now .loop h (by simp [hpc]) trivial hsent
      ⟨by omega, by omega, by rw [wpkts]; omega, hret⟩
  case h_8 hpc =>
    rw [hpc] at hcounts
    obtain ⟨hsent, hle, hwin, hret⟩ := hcounts
    have hidle := idle_of_not_poll h (by simp [hpc])
    split_ifs with hlt
    · exact udpTcpInv_goto h hidle trivial ⟨hsent, hlt, hwin, hret⟩
    · exact udpTcpInv_goto h hidle trivial ⟨hsent, by omega, by omega⟩
  case h_9 hpc => exact h

/-- **One step** keeps the invariants. -/
theorem udpTcpInv_step (hreps : wpkts ≤ reps) (s : UdpTcp) (e : UdpTcpEvent)
    (h : UdpTcpInv reps s) : UdpTcpInv reps (s.step swUdpChksum reps e) := by
  cases e with
  | other f status =>
    simp only [UdpTcp.step]
    split_ifs with hf
    · exact udpTcpInv_store status h ⟨hf.1, fun hudp => absurd hudp hf.2⟩
    · exact h
  | answer f status =>
    simp only [UdpTcp.step]
    split_ifs with hf
    · exact udpTcpInv_store status h ⟨hf.1, fun _ => hf.2.1⟩
    · exact h
  | sketch now => exact udpTcpInv_sketch swUdpChksum hreps now h

theorem udpTcpInv_init (reps : ℕ) (myaddress : BitVec 32) (macaddr1 macaddr2 : BitVec 24)
    (bufs buff : ℕ → Byte) : UdpTcpInv reps (udpTcpInit myaddress macaddr1 macaddr2 bufs buff) where
  intact := fun _ _ _ => rfl
  sent := rfl
  rtt := rfl
  counts := ⟨rfl, rfl, rfl, rfl⟩
  rx := rxInv_init bufs
  frames := by simp [udpTcpInit, rxInit]
  polling := fun hne => absurd rfl hne
  room := fun _ _ => rfl
  box := rfl
  taken := rfl

/-- **Every run** keeps them. -/
theorem udpTcpInv_run (hreps : wpkts ≤ reps) (h : UdpTcpInv reps s) (es : List UdpTcpEvent) :
    UdpTcpInv reps (run (UdpTcp.step swUdpChksum reps) s es) :=
  run_induction (udpTcpInv_step swUdpChksum hreps) h es

end Run

end Raw
