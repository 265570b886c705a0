import Mathlib.Tactic
import Teensy3.Lib.ByteMem
import Teensy3.Lib.OnesComplement
import Teensy3.Raw.Sketch
import Teensy3.Raw.Udp
import Teensy3.Raw.UdpChecksum
import Teensy3.Raw.UdpRecv

/-!
# Replies that are made from requests

`ping_reply` and `udp_reply` turn a packet around in place: they exchange the addresses, through
views of bytes, half-words and words, and send it back without computing a checksum (`else OK` says
the source).  An exchange of half-words does not change a sum.  The type of an ICMP message does.

* `turnAround`: what both functions do to the addresses, and `turnAround_apply`: where each byte of
  the result comes from;
* `SumOk bs`: the ones' complement sum over some bytes verifies;
* `udp_reply_valid`: the reply to a valid UDP packet is valid, and the reply to the reply is the
  packet;
* `ping_replies_never_valid`: the reply to a valid echo request never is.
-/

namespace Raw

open ByteMem OnesComplement

/-! ### Turning a packet around -/

/-- The edits that both functions begin with: the Ethernet address of the sender becomes that of the
receiver, and so does the IP address; the new sender is `myaddress`. -/
def turnAround (m : ℕ → Byte) (myaddress : BitVec 32) : ℕ → Byte :=
  let m := blit m 2 (read m 8 6)
  let m := store32 m 32 (load32 m 28)
  store32 m 28 myaddress

/-- `udp_reply`, which works in the receive buffer: the buffer and the node after it. -/
def udpReply (n : Node) (recv : ℕ → Byte) (len : ℕ) : (ℕ → Byte) × Node :=
  let m := turnAround recv n.myaddress
  let tmp := load16 m 36
  let m := store16 m 36 (load16 m 38)
  let m := store16 m 38 tmp
  (m, outgoing n m len)

/-- Where the bytes of a packet that was turned around come from. -/
def turnedFrom (i : ℕ) : ℕ :=
  if 2 ≤ i ∧ i < 8 then i + 6
  else if 28 ≤ i ∧ i < 32 then i + 4
  else if 32 ≤ i ∧ i < 36 then i - 4
  else i

theorem turnedFrom_cases (i : ℕ) :
    2 ≤ i ∧ i < 8 ∧ turnedFrom i = i + 6 ∨ 28 ≤ i ∧ i < 32 ∧ turnedFrom i = i + 4 ∨
      32 ≤ i ∧ i < 36 ∧ turnedFrom i = i - 4 ∨
      (i < 2 ∨ 8 ≤ i ∧ i < 28 ∨ 36 ≤ i) ∧ turnedFrom i = i := by
  unfold turnedFrom
  split_ifs <;> omega

/-- If it was sent to `myaddress`, nothing is lost but the Ethernet address of the receiver. -/
theorem turnAround_apply {m : ℕ → Byte} {myaddress : BitVec 32} (h : load32 m 32 = myaddress)
    (i : ℕ) : turnAround m myaddress i = m (turnedFrom i) := by
  subst h
  simp only [turnAround, store32_load32, turnedFrom]
  by_cases h28 : 28 ≤ i ∧ i < 32
  · rw [if_pos h28, if_neg (by omega), if_pos h28]
    congr 1
    omega
  rw [if_neg h28, if_neg h28]
  by_cases h32 : 32 ≤ i ∧ i < 36
  · rw [if_pos h32, if_pos h32, if_neg (by omega), blit_read, if_neg (by omega)]
    congr 1
    omega
  rw [if_neg h32, if_neg h32, blit_read]
  by_cases h2 : 2 ≤ i ∧ i < 8
  · rw [if_pos (by omega), if_pos h2]
    congr 1
    omega
  · rw [if_neg (by omega), if_neg h2]

/-- Where the bytes of the reply of `udp_reply` come from. -/
def repliedFrom (i : ℕ) : ℕ :=
  if 36 ≤ i ∧ i < 38 then i + 2 else if 38 ≤ i ∧ i < 40 then i - 2 else turnedFrom i

/-- Behind the Ethernet addresses, only the IP addresses and the ports change places. -/
theorem repliedFrom_cases {i : ℕ} (h : 8 ≤ i) :
    28 ≤ i ∧ i < 32 ∧ repliedFrom i = i + 4 ∨ 32 ≤ i ∧ i < 36 ∧ repliedFrom i = i - 4 ∨
      36 ≤ i ∧ i < 38 ∧ repliedFrom i = i + 2 ∨ 38 ≤ i ∧ i < 40 ∧ repliedFrom i = i - 2 ∨
      (i < 28 ∨ 40 ≤ i) ∧ repliedFrom i = i := by
  unfold repliedFrom turnedFrom
  split_ifs <;> omega

theorem udpReply_apply {n : Node} {m : ℕ → Byte} {len : ℕ} (h : load32 m 32 = n.myaddress) (i : ℕ) :
    (udpReply n m len).1 i = m (repliedFrom i) := by
  simp only [udpReply, store16_load16, turnAround_apply h, repliedFrom]
  by_cases h38 : 38 ≤ i ∧ i < 40
  · rw [if_pos h38, if_neg (by omega), if_pos h38]
    congr 1
    unfold turnedFrom
    split_ifs <;> omega
  rw [if_neg h38, if_neg h38]
  by_cases h36 : 36 ≤ i ∧ i < 38
  · rw [if_pos h36, if_pos h36]
    congr 1
    unfold turnedFrom
    split_ifs <;> omega
  · rw [if_neg h36, if_neg h36]

/-! ### UDP -/

/-- The ones' complement sum over some bytes, in network order, verifies. -/
def SumOk (bs : List Byte) : Prop := fold (netSum bs) = 65535

/-- The checksum of the IP header verifies. -/
def HeaderSumOk (m : ℕ → Byte) : Prop := SumOk (read m 16 20)

/-- The UDP checksum is zero, or it verifies over the pseudo-header and the datagram. -/
def UdpSumOk (m : ℕ → Byte) : Prop :=
  load16 m 42 = 0 ∨
    SumOk (read m 28 8 ++ ([0, 17] ++ (read m 40 2 ++ read m 36 (udpLengthField m))))

/-- A UDP packet to `myaddress` in a frame of `len` bytes, with checksums that are right. -/
structure UdpRequest (myaddress : BitVec 32) (packet : ℕ → Byte) (len : ℕ) : Prop where
  type : load16 packet 14 = 0x0008
  ihl : packet 16 &&& 0x0F = 5
  protocol : packet 25 = 17
  destination : load32 packet 32 = myaddress
  min : 8 ≤ udpLengthField packet
  fits : 36 + udpLengthField packet ≤ len
  headerSum : HeaderSumOk packet
  udpSum : UdpSumOk packet

/-- The frame `f` answers the packet: addresses and ports are exchanged, everything behind the ports is
the same, and the checksums are right. -/
structure UdpAnswer (packet : ℕ → Byte) (len : ℕ) (f : List Byte) : Prop where
  length : f.length = len
  mac : read (mem f) 2 6 = read packet 8 6
  header : ∀ i, 14 ≤ i → i < 28 → mem f i = packet i
  source : load32 (mem f) 28 = load32 packet 32
  destination : load32 (mem f) 32 = load32 packet 28
  sourcePort : srcPort f = bswap16 (load16 packet 38)
  destinationPort : dstPort f = bswap16 (load16 packet 36)
  payload : ∀ i, 40 ≤ i → i < len → mem f i = packet i
  headerSum : HeaderSumOk (mem f)
  udpSum : UdpSumOk (mem f)

section Exchange

variable {m m' : ℕ → Byte}

/-- An exchange of the addresses does not change the sum over the IP header. -/
theorem headerSumOk_of_exchange (hhead : read m' 16 12 = read m 16 12)
    (hsrc : read m' 28 4 = read m 32 4) (hdst : read m' 32 4 = read m 28 4) (h : HeaderSumOk m) :
    HeaderSumOk m' := by
  have hsplit : ∀ m : ℕ → Byte, netSum (read m 16 20) =
      netSum (read m 16 12) + (netSum (read m 28 4) + netSum (read m 32 4)) := by
    intro m
    rw [show (20 : ℕ) = 12 + (4 + 4) from rfl, read_add, read_add, netSum_append (by simp),
      netSum_append (by simp)]
  unfold HeaderSumOk SumOk at h ⊢
  rw [hsplit, hhead, hsrc, hdst, Nat.add_comm (netSum (read m 32 4)), ← hsplit]
  exact h

/-- Nor does an exchange of addresses and ports change the sum over pseudo-header and datagram. -/
theorem udpSumOk_of_exchange (hmin : 8 ≤ udpLengthField m) (hsrc : read m' 28 4 = read m 32 4)
    (hdst : read m' 32 4 = read m 28 4) (hsport : read m' 36 2 = read m 38 2)
    (hdport : read m' 38 2 = read m 36 2)
    (hrest : ∀ i, 40 ≤ i → i < 36 + udpLengthField m → m' i = m i) (h : UdpSumOk m) :
    UdpSumOk m' := by
  have hload : ∀ a, 40 ≤ a → a + 2 ≤ 36 + udpLengthField m → load16 m' a = load16 m a :=
    fun a h40 hle => load16_congr (hrest a h40 (by omega)) (hrest (a + 1) (by omega) (by omega))
  have hlen : udpLengthField m' = udpLengthField m := by
    rw [udpLengthField, hload 40 le_rfl (by omega), ← udpLengthField]
  obtain ⟨k, hk⟩ := Nat.exists_eq_add_of_le hmin
  have hlast : read m' 40 (4 + k) = read m 40 (4 + k) :=
    read_congr fun j hj => hrest (40 + j) (by omega) (by omega)
  have h40 : read m' 40 2 = read m 40 2 :=
    read_congr fun j hj => hrest (40 + j) (by omega) (by omega)
  have hsplit : ∀ m : ℕ → Byte,
      netSum (read m 28 8 ++ ([0, 17] ++ (read m 40 2 ++ read m 36 (8 + k)))) =
        netSum (read m 28 4) + netSum (read m 32 4) + (netSum [0, 17] + (netSum (read m 40 2) +
          (netSum (read m 36 2) + netSum (read m 38 2) + netSum (read m 40 (4 + k))))) := by
    intro m
    have haddresses : read m 28 8 = read m 28 4 ++ read m 32 4 := read_add m 28 4 4
    have hdatagram : read m 36 (8 + k) = read m 36 2 ++ (read m 38 2 ++ read m 40 (4 + k)) := by
      rw [show 8 + k = 2 + (2 + (4 + k)) by omega, read_add, read_add]
    rw [haddresses, hdatagram, netSum_append (by simp), netSum_append (by simp),
      netSum_append (by simp), netSum_append (by simp), netSum_append (by simp),
      netSum_append (by simp), Nat.add_assoc (netSum (read m 36 2))]
  refine h.imp (fun hzero => (hload 42 (by omega) (by omega)).trans hzero) fun hsum => ?_
  rw [hk] at hsum
  unfold SumOk at hsum ⊢
  rw [hlen, hk, hsplit, hsrc, hdst, hsport, hdport, h40, hlast,
    Nat.add_comm (netSum (read m 32 4)), Nat.add_comm (netSum (read m 38 2)), ← hsplit]
  exact hsum

end Exchange

theorem read_mem {m : ℕ → Byte} {len a k : ℕ} (h : a + k ≤ len) :
    read (mem (read m 0 len)) a k = read m a k :=
  read_congr fun _ _ => mem_read (by omega)

section Answer

variable {n : Node} {packet : ℕ → Byte} {len : ℕ}

/-- A frame whose bytes come from the packet as those of `udp_reply` do. -/
theorem udpAnswer_of_repliedFrom (h : UdpRequest n.myaddress packet len) {m : ℕ → Byte}
    (hm : ∀ i, m i = packet (repliedFrom i)) : UdpAnswer packet len (read m 0 len) := by
  have hmin := h.min
  have hfits := h.fits
  have hmem : ∀ i < len, mem (read m 0 len) i = packet (repliedFrom i) :=
    fun i hi => (mem_read hi).trans (hm i)
  have hread : ∀ a b k, a + k ≤ len → (∀ j < k, repliedFrom (a + j) = b + j) →
      read (mem (read m 0 len)) a k = read packet b k := by
    intro a b k hk hfrom
    rw [read_mem hk]
    exact read_congr fun j hj => by rw [hm, hfrom j hj]
  have hsame : ∀ i, 8 ≤ i → i < 28 ∨ 40 ≤ i → repliedFrom i = i := by
    intro i h8 hi
    have hcases := repliedFrom_cases h8
    omega
  have hsrc : read (mem (read m 0 len)) 28 4 = read packet 32 4 := by
    refine hread 28 32 4 (by omega) fun j hj => ?_
    have hcases := repliedFrom_cases (i := 28 + j) (by omega)
    omega
  have hdst : read (mem (read m 0 len)) 32 4 = read packet 28 4 := by
    refine hread 32 28 4 (by omega) fun j hj => ?_
    have hcases := repliedFrom_cases (i := 32 + j) (by omega)
    omega
  have hsport : read (mem (read m 0 len)) 36 2 = read packet 38 2 := by
    refine hread 36 38 2 (by omega) fun j hj => ?_
    have hcases := repliedFrom_cases (i := 36 + j) (by omega)
    omega
  have hdport : read (mem (read m 0 len)) 38 2 = read packet 36 2 := by
    refine hread 38 36 2 (by omega) fun j hj => ?_
    have hcases := repliedFrom_cases (i := 38 + j) (by omega)
    omega
  have hrest : ∀ i, 40 ≤ i → i < len → mem (read m 0 len) i = packet i := by
    intro i h40 hi
    rw [hmem i hi, hsame i (by omega) (.inr h40)]
  have hport : ∀ a b, read (mem (read m 0 len)) a 2 = read packet b 2 →
      load16 (mem (read m 0 len)) a = load16 packet b := fun a b heq =>
    load16_congr (apply_of_read_eq heq (j := 0) (by omega)) (apply_of_read_eq heq (by omega))
  refine ⟨length_read _ _ _, ?_, ?_, ?_, ?_, ?_, ?_, hrest, ?_, ?_⟩
  · refine hread 2 8 6 (by omega) fun j hj => ?_
    unfold repliedFrom turnedFrom
    split_ifs <;> omega
  · intro i h14 h28
    rw [hmem i (by omega), hsame i (by omega) (.inl h28)]
  · exact load32_congr fun i hi => apply_of_read_eq hsrc hi
  · exact load32_congr fun i hi => apply_of_read_eq hdst hi
  · rw [srcPort, hport 36 38 hsport]
  · rw [dstPort, hport 38 36 hdport]
  · refine headerSumOk_of_exchange ?_ hsrc hdst h.headerSum
    exact hread 16 16 12 (by omega) fun j hj => hsame _ (by omega) (.inl (by omega))
  · exact udpSumOk_of_exchange hmin hsrc hdst hsport hdport
      (fun i h40 hi => hrest i h40 (by omega)) h.udpSum

end Answer

/-- **UDP replies are valid.** `udp_reply` answers a UDP packet to this node with a frame that has
addresses and ports exchanged and checksums that are right; and when the other end, which has the
source address of the packet, applies `udp_reply` to the frame as it arrives there, the frame that
comes back is the packet from its IP header on. -/
theorem udp_reply_valid (n : Node) {packet : ℕ → Byte} {len : ℕ}
    (h : UdpRequest n.myaddress packet len) :
    ∃ f, (udpReply n packet len).2.sent = n.sent ++ [f] ∧ UdpAnswer packet len f ∧
      ∀ (peer : Node) (packet' : ℕ → Byte), peer.myaddress = load32 packet 28 →
        Delivered f packet' → ∃ g, (udpReply peer packet' len).2.sent = peer.sent ++ [g] ∧
          g.length = len ∧ g.drop 16 = (read packet 0 len).drop 16 := by
  have hfits := h.fits
  have hmin := h.min
  have hreply : ∀ i, (udpReply n packet len).1 i = packet (repliedFrom i) :=
    udpReply_apply h.destination
  have hanswer := udpAnswer_of_repliedFrom h hreply
  refine ⟨_, rfl, hanswer, fun peer packet' hpeer hdelivered => ⟨_, rfl, length_read _ _ _, ?_⟩⟩
  have hdelivered' : ∀ i, 14 ≤ i → i < len → packet' i = packet (repliedFrom i) := by
    intro i h14 hi
    rw [hdelivered i (by rwa [length_read]) (.inr h14), mem_read hi]
    exact hreply i
  have hdestination : load32 packet' 32 = peer.myaddress := by
    rw [hpeer, ← hanswer.destination]
    refine load32_congr fun i hi => hdelivered (32 + i) ?_ (.inr (by omega))
    rw [length_read]
    omega
  have hback : ∀ i, 16 ≤ i → i < len → (udpReply peer packet' len).1 i = packet i := by
    intro i h16 hi
    -- both exchanges together are none
    have hcases := repliedFrom_cases (i := i) (by omega)
    have hcases' := repliedFrom_cases (i := repliedFrom i) (by omega)
    rw [udpReply_apply hdestination, hdelivered' _ (by omega) (by omega)]
    congr 1
    omega
  rw [drop_eq_read (by rw [length_read]; omega), drop_eq_read (by rw [length_read]; omega),
    length_read, length_read, read_mem (by omega), read_mem (by omega)]
  exact read_congr fun j hj => hback (16 + j) (by omega) (by omega)

/-- The three bytes `abc` from port 7654 of `192.168.1.4` to port 52099 of `192.168.1.17`. -/
def abcDatagram : List Byte :=
  [0, 0, 0x04, 0xE9, 0xE5, 0x00, 0x00, 0x01, 0x00, 0x13, 0x20, 0x2E, 0x53, 0x90, 0x08, 0x00,
   0x45, 0x00, 0x00, 0x1F, 0x00, 0x01, 0x00, 0x00, 0x40, 0x11, 0xF7, 0x67,
   0xC0, 0xA8, 0x01, 0x04, 0xC0, 0xA8, 0x01, 0x11, 0x1D, 0xE6, 0xCB, 0x83, 0x00, 0x0B, 0xCE, 0xA5,
   0x61, 0x62, 0x63]

/-- The answer to an odd number of bytes, whose UDP checksum `CE A5` verifies, and what comes back
when `192.168.1.4` answers it. -/
theorem udp_reply_valid_abc :
    ∃ f g, (udpReply (nodeInit 0x1101A8C0 0x04E9E5 0x000001) (mem abcDatagram) 47).2.sent = [f] ∧
      UdpAnswer (mem abcDatagram) 47 f ∧
      (udpReply (nodeInit 0x0401A8C0 0x001320 0x2E5390) (mem f) 47).2.sent = [g] ∧
      g.drop 16 = abcDatagram.drop 16 := by
  have hrequest : UdpRequest 0x1101A8C0 (mem abcDatagram) 47 :=
    { type := by decide
      ihl := by decide
      protocol := by decide
      destination := by decide
      min := by decide
      fits := by decide
      headerSum := (fold_eq_ones_iff _).2 (by decide)
      udpSum := .inr ((fold_eq_ones_iff _).2 (by decide)) }
  obtain ⟨f, hsent, hanswer, hback⟩ :=
    udp_reply_valid (nodeInit 0x1101A8C0 0x04E9E5 0x000001) hrequest
  obtain ⟨g, hsent', -, hsame⟩ :=
    hback (nodeInit 0x0401A8C0 0x001320 0x2E5390) (mem f) (by decide) fun _ _ _ => rfl
  exact ⟨f, g, hsent, hanswer, hsent', hsame.trans (by decide)⟩

/-! ### Echo requests -/

/-- What `incoming` keeps besides. -/
structure Console extends Node where
  upkts : BitVec 32
  ulth : BitVec 32
  us : BitVec 32
  us0 : BitVec 32

/-- `incoming`, when `micros()` is `micros`. -/
def incoming (n : Console) (packet : ℕ → Byte) (len : ℕ) (micros : BitVec 32) : Console :=
  let type := load16 packet 14
  let n :=
    { n with
      inpkts := n.inpkts + 1
      bcast := if packet 2 = 0xff then n.bcast + 1 else n.bcast
      mcast := if packet 2 = 1 then n.mcast + 1 else n.mcast }
  if type = 0x0008 then
    let n := { n with ippkts := n.ippkts + 1 }
    let dst := load32 packet 32
    if packet 25 = 1 ∧ dst = n.myaddress then
      let n := { n with ipkts := n.ipkts + 1 }
      if packet 36 = 8 then { n with toNode := pingReply n.toNode packet len } else n
    else if packet 25 = 17 ∧ dst = n.myaddress then
      { n with
        us := micros
        us0 := if n.us0 = 0 then micros else n.us0
        upkts := n.upkts + 1
        ulth := n.ulth + (.ofNat 32 len - 44) }
    else if packet 25 = 6 ∧ dst = n.myaddress then { n with tpkts := n.tpkts + 1 }
    else n
  else if type = 0x0608 then { n with toNode := arpParse n.toNode packet }
  else n

/-- The total length of an IP packet. -/
def totalLength (packet : ℕ → Byte) : ℕ := (bswap16 (load16 packet 18)).toNat

/-- The ICMP checksum verifies. -/
def IcmpSumOk (m : ℕ → Byte) : Prop := SumOk (read m 36 (totalLength m - 20))

/-- An echo request to `myaddress` in a frame of `len` bytes, with checksums that are right. -/
structure EchoRequest (myaddress : BitVec 32) (packet : ℕ → Byte) (len : ℕ) : Prop where
  length : len ≤ 1024
  type : load16 packet 14 = 0x0008
  ihl : packet 16 &&& 0x0F = 5
  protocol : packet 25 = 1
  destination : load32 packet 32 = myaddress
  echo : packet 36 = 8
  min : 28 ≤ totalLength packet
  fits : 16 + totalLength packet ≤ len
  headerSum : HeaderSumOk packet
  icmpSum : IcmpSumOk packet

/-- The frame `f` answers the request, checksum of the ICMP message aside: it goes back to where the
request came from, and is the same message but for its type. -/
structure EchoAnswer (packet : ℕ → Byte) (len : ℕ) (f : List Byte) : Prop where
  length : f.length = len
  mac : read (mem f) 2 6 = read packet 8 6
  header : ∀ i, 14 ≤ i → i < 28 → mem f i = packet i
  source : load32 (mem f) 28 = load32 packet 32
  destination : load32 (mem f) 32 = load32 packet 28
  echoReply : mem f 36 = 0
  message : ∀ i, 37 ≤ i → i < len → mem f i = packet i
  headerSum : HeaderSumOk (mem f)

/-- Exactly one frame is sent, and it is a valid echo reply. -/
def RepliesValid (packet : ℕ → Byte) (len : ℕ) (sent sent' : List (List Byte)) : Prop :=
  ∃ f, sent' = sent ++ [f] ∧ EchoAnswer packet len f ∧ IcmpSumOk (mem f)

section Echo

variable {n : Node} {packet : ℕ → Byte} {len : ℕ}

/-- Both functions pass the request to `ping_reply`. -/
theorem sent_handleFrame (h : EchoRequest n.myaddress packet len) :
    (handleFrame n packet len).sent = (pingReply n packet len).sent := by
  have hlen : ¬ 1024 < len := by
    have := h.length
    omega
  simp only [handleFrame, h.type, h.protocol, h.destination, h.echo, pingReply, outgoing, hlen,
    and_self, if_true, if_false]

theorem sent_incoming {c : Console} (h : EchoRequest c.myaddress packet len) (micros : BitVec 32) :
    (incoming c packet len micros).sent = (pingReply c.toNode packet len).sent := by
  have hlen : ¬ 1024 < len := by
    have := h.length
    omega
  simp only [incoming, h.type, h.protocol, h.destination, h.echo, pingReply, outgoing, hlen,
    and_self, if_true, if_false]

/-- The frame that `ping_reply` sends. -/
theorem sent_pingReply (h : EchoRequest n.myaddress packet len) :
    ∃ m : ℕ → Byte, (pingReply n packet len).sent = n.sent ++ [read m 0 len] ∧
      ∀ i < len, m i = if i = 36 then 0 else packet (turnedFrom i) := by
  have hlength := h.length
  have hmin := h.min
  have hfits := h.fits
  -- the copy of the request
  let m := blit (fun _ => 0) 0 (read packet 0 len)
  have hm : ∀ i < len, m i = packet i := by
    intro i hi
    simp only [m, blit_read]
    rw [if_pos (by omega), Nat.zero_add, Nat.sub_zero]
  have hdestination : load32 m 32 = n.myaddress := by
    rw [← h.destination]
    exact load32_congr fun i hi => hm (32 + i) (by omega)
  refine ⟨store8 (turnAround m n.myaddress) 36 0, ?_, fun i hi => ?_⟩
  · rw [pingReply, if_neg (by omega)]
    rfl
  · have hfrom : turnedFrom i < len := by
      have hcases := turnedFrom_cases i
      omega
    rw [store8, turnAround_apply hdestination, hm _ hfrom]

theorem echoAnswer_of_turnedFrom (h : EchoRequest n.myaddress packet len) {m : ℕ → Byte}
    (hm : ∀ i < len, m i = if i = 36 then 0 else packet (turnedFrom i)) :
    EchoAnswer packet len (read m 0 len) := by
  have hmin := h.min
  have hfits := h.fits
  have hmem : ∀ i < len, i ≠ 36 → mem (read m 0 len) i = packet (turnedFrom i) := by
    intro i hi h36
    rw [mem_read hi, hm i hi, if_neg h36]
  have hread : ∀ a b k, a + k ≤ 36 → (∀ j < k, turnedFrom (a + j) = b + j) →
      read (mem (read m 0 len)) a k = read packet b k := by
    intro a b k hk hfrom
    exact read_congr fun j hj => by rw [hmem _ (by omega) (by omega), hfrom j hj]
  have hsrc : read (mem (read m 0 len)) 28 4 = read packet 32 4 := by
    refine hread 28 32 4 (by omega) fun j hj => ?_
    have hcases := turnedFrom_cases (28 + j)
    omega
  have hdst : read (mem (read m 0 len)) 32 4 = read packet 28 4 := by
    refine hread 32 28 4 (by omega) fun j hj => ?_
    have hcases := turnedFrom_cases (32 + j)
    omega
  have hsame : ∀ i < len, 8 ≤ i ∧ i < 28 ∨ 37 ≤ i → mem (read m 0 len) i = packet i := by
    intro i hi hrange
    have hcases := turnedFrom_cases i
    rw [hmem i hi (by omega)]
    congr 1
    omega
  refine ⟨length_read _ _ _, ?_, ?_, ?_, ?_, ?_, ?_, ?_⟩
  · refine hread 2 8 6 (by omega) fun j hj => ?_
    have hcases := turnedFrom_cases (2 + j)
    omega
  · exact fun i h14 h28 => hsame i (by omega) (.inl ⟨by omega, h28⟩)
  · exact load32_congr fun i hi => apply_of_read_eq hsrc hi
  · exact load32_congr fun i hi => apply_of_read_eq hdst hi
  · rw [mem_read (by omega), hm 36 (by omega), if_pos rfl]
  · exact fun i h37 hi => hsame i hi (.inr h37)
  · refine headerSumOk_of_exchange ?_ hsrc hdst h.headerSum
    exact read_congr fun j hj => hsame _ (by omega) (.inl (by omega))

/-- **The checksum of the reply.** The request verifies with a type of 8, so that the reply does not
with a type of 0. -/
theorem not_icmpSumOk (h : EchoRequest n.myaddress packet len) {f : List Byte}
    (hf : EchoAnswer packet len f) : ¬ IcmpSumOk (mem f) := by
  have hmin := h.min
  have hfits := h.fits
  have hlength : totalLength (mem f) = totalLength packet := by
    unfold totalLength
    rw [load16_congr (hf.header 18 (by omega) (by omega)) (hf.header 19 (by omega) (by omega))]
  obtain ⟨k, hk⟩ := Nat.exists_eq_add_of_le hmin
  have hsum : netSum (read packet 36 (totalLength packet - 20)) =
      netSum (read (mem f) 36 (totalLength packet - 20)) + 2048 := by
    have hcode : mem f (36 + 1) = packet (36 + 1) := hf.message 37 le_rfl (by omega)
    have hrest : read (mem f) (36 + 2) (k + 6) = read packet (36 + 2) (k + 6) :=
      read_congr fun j hj => hf.message (38 + j) (by omega) (by omega)
    rw [show totalLength packet - 20 = k + 6 + 2 by omega, read_add_two packet 36 (k + 6),
      read_add_two (mem f) 36 (k + 6), netSum, netSum, hcode, hrest, h.echo, hf.echoReply]
    have h8 : (8 : Byte).toNat = 8 := rfl
    have h0 : (0 : Byte).toNat = 0 := rfl
    omega
  intro hok
  have hrequest := ((fold_eq_ones_iff _).1 h.icmpSum).2
  have hreply := ((fold_eq_ones_iff _).1 hok).2
  rw [hsum, Nat.ModEq] at hrequest
  rw [hlength, Nat.ModEq] at hreply
  omega

end Echo

/-- **Ping replies are never valid.** For every echo request whose checksums are right, both functions
send one frame, which answers the request but for the checksum of its ICMP message; that one does
not verify. -/
theorem ping_replies_never_valid (c : Console) {packet : ℕ → Byte} {len : ℕ}
    (h : EchoRequest c.myaddress packet len) (micros : BitVec 32) :
    (¬ RepliesValid packet len c.sent (handleFrame c.toNode packet len).sent ∧
      ¬ RepliesValid packet len c.sent (incoming c packet len micros).sent) ∧
    ∃ f, (handleFrame c.toNode packet len).sent = c.sent ++ [f] ∧
      (incoming c packet len micros).sent = c.sent ++ [f] ∧ EchoAnswer packet len f ∧
      ¬ IcmpSumOk (mem f) := by
  obtain ⟨m, hsent, hm⟩ := sent_pingReply h
  have hanswer := echoAnswer_of_turnedFrom h hm
  have hnot : ∀ sent, ¬ RepliesValid packet len c.sent sent :=
    fun sent ⟨f, _, hf, hok⟩ => not_icmpSumOk h hf hok
  refine ⟨⟨hnot _, hnot _⟩, _, ?_, ?_, hanswer, not_icmpSumOk h hanswer⟩
  · rw [sent_handleFrame h, hsent]
  · rw [sent_incoming h, hsent]

/-- A ping without data from `192.168.1.4` to `192.168.1.17`. -/
def ping : List Byte :=
  [0, 0, 0x04, 0xE9, 0xE5, 0x00, 0x00, 0x01, 0x00, 0x13, 0x20, 0x2E, 0x53, 0x90, 0x08, 0x00,
   0x45, 0x00, 0x00, 0x1C, 0x00, 0x01, 0x00, 0x00, 0x40, 0x01, 0xF7, 0x7A,
   0xC0, 0xA8, 0x01, 0x04, 0xC0, 0xA8, 0x01, 0x11, 0x08, 0x00, 0xF7, 0xFD, 0x00, 0x01, 0x00, 0x01]

theorem echoRequest_ping : EchoRequest 0x1101A8C0 (mem ping) 44 where
  length := by decide
  type := by decide
  ihl := by decide
  protocol := by decide
  destination := by decide
  echo := by decide
  min := by decide
  fits := by decide
  headerSum := (fold_eq_ones_iff _).2 (by decide)
  icmpSum := (fold_eq_ones_iff _).2 (by decide)

/-- A node at its start. -/
def consoleInit : Console :=
  { toNode := nodeInit 0x1101A8C0 0x04E9E5 0x000001, upkts := 0, ulth := 0, us := 0, us0 := 0 }

/-- The node sends an answer to the ping, with a checksum that does not verify. -/
theorem ping_replies_never_valid_ping :
    ∃ f, (handleFrame consoleInit.toNode (mem ping) 44).sent = [f] ∧
      (incoming consoleInit (mem ping) 44 0).sent = [f] ∧ EchoAnswer (mem ping) 44 f ∧
      ¬ IcmpSumOk (mem f) :=
  (ping_replies_never_valid consoleInit echoRequest_ping 0).2

/-- So it is not true that every echo request gets a valid reply. -/
theorem ping_reply_spoils_checksum :
    ¬ (EchoRequest consoleInit.myaddress (mem ping) 44 →
      RepliesValid (mem ping) 44 consoleInit.sent (handleFrame consoleInit.toNode (mem ping) 44).sent ∧
      RepliesValid (mem ping) 44 consoleInit.sent (incoming consoleInit (mem ping) 44 0).sent) := by
  intro hvalid
  obtain ⟨f, -, hanswer, hok⟩ := (hvalid echoRequest_ping).1
  exact not_icmpSumOk (n := consoleInit.toNode) echoRequest_ping hanswer hok

end Raw
