import Mathlib.Tactic
import Teensy3.Lib.Run
import Teensy3.Lib.ByteMem
import Teensy3.Raw.Checksum
import Teensy3.Raw.Sketch

/-!
# UDP packets of the raw sketch

`sendto` and `udp_blast` fill in the fields of one template, `prefab`, which keeps whatever the
calls before have left in it.  The rest of the header must never change, and every field must be
right after every call.

* `HeaderOk bytes m`: the first 44 bytes of `m` are the headers of a packet with `bytes` bytes of
  payload;
* `headerOk_finishHeader`: the part that both functions share writes such headers into any
  template that is intact;
* `recvfrom_handleFrame`: the receiving side takes such a packet apart again;
* `udp_round_trip`: every frame of every sequence of calls.
-/

namespace Raw

open ByteMem Machine

/-! ### Headers -/

/-- The fields of `prefab` that depend on the packet: total length and checksum of the IP header,
ports and length of the UDP header. -/
def NamedField (i : ℕ) : Prop := 18 ≤ i ∧ i < 20 ∨ 26 ≤ i ∧ i < 28 ∨ 36 ≤ i ∧ i < 42

/-- These, and the UDP checksum. -/
def Writable (i : ℕ) : Prop := NamedField i ∨ i = 42 ∨ i = 43

instance : DecidablePred NamedField := fun i =>
  inferInstanceAs (Decidable (18 ≤ i ∧ i < 20 ∨ 26 ≤ i ∧ i < 28 ∨ 36 ≤ i ∧ i < 42))

instance : DecidablePred Writable := fun i =>
  inferInstanceAs (Decidable (NamedField i ∨ i = 42 ∨ i = 43))

/-- The header bytes that are not written are those of the template. -/
def Intact (m : ℕ → Byte) : Prop := ∀ i < 44, ¬ Writable i → m i = prefabInit i

/-- The headers of an IPv4 packet with a UDP datagram of `bytes` bytes. -/
structure HeaderOk (bytes : ℕ) (m : ℕ → Byte) : Prop where
  type : load16 m 14 = 0x0008
  versionIhl : m 16 = 0x45
  protocol : m 25 = 17
  totalLength : (bswap16 (load16 m 18)).toNat = 28 + bytes
  headerChecksum : inetChksum m 16 20 = 0
  udpLength : (bswap16 (load16 m 40)).toNat = 8 + bytes

theorem HeaderOk.congr {bytes : ℕ} {m m' : ℕ → Byte} (h : HeaderOk bytes m)
    (hm : ∀ i < 44, m' i = m i) : HeaderOk bytes m' where
  type := (load16_congr (hm 14 (by omega)) (hm 15 (by omega))).trans h.type
  versionIhl := (hm 16 (by decide)).trans h.versionIhl
  protocol := (hm 25 (by omega)).trans h.protocol
  totalLength := by
    rw [load16_congr (hm 18 (by omega)) (hm 19 (by omega))]
    exact h.totalLength
  headerChecksum :=
    (inetChksum_congr (by omega) fun i hi => hm (16 + i) (by omega)).trans
      h.headerChecksum
  udpLength := by
    rw [load16_congr (hm 40 (by omega)) (hm 41 (by omega))]
    exact h.udpLength

/-! ### Lengths and checksums -/

/-- The template with its lengths set and its checksums cleared. -/
def cleared (m : ℕ → Byte) (udplth : ℕ) : ℕ → Byte :=
  let m := store16 m 40 (bswap16 (.ofNat 16 udplth))
  let m := store16 m 18 (bswap16 (.ofNat 16 (20 + udplth)))
  let m := store16 m 26 0
  store16 m 42 0

section Finish

variable (swUdpChksum : Bool) (m : ℕ → Byte) (udplth : ℕ)

/-- Up to the UDP checksum, `finishHeader` stores the checksum of the cleared template. -/
theorem finishHeader_apply {i : ℕ} (hi : i < 42 ∨ 44 ≤ i) :
    finishHeader swUdpChksum m udplth i =
      store16 (cleared m udplth) 26 (inetChksum (cleared m udplth) 16 20) i := by
  simp only [finishHeader, cleared]
  split_ifs
  · rw [store16_of_ne (by omega), store16_of_ne (by omega)]
  · rw [store16_of_ne (by omega)]
  · rfl

theorem finishHeader_frame {i : ℕ}
    (hi : ¬ (18 ≤ i ∧ i < 20 ∨ 26 ≤ i ∧ i < 28 ∨ 40 ≤ i ∧ i < 44)) :
    finishHeader swUdpChksum m udplth i = m i := by
  rw [finishHeader_apply _ _ _ (by omega), store16_of_ne (by omega), cleared]
  rw [store16_of_ne (by omega), store16_of_ne (by omega), store16_of_ne (by omega),
    store16_of_ne (by omega)]

theorem finishHeader_of_not_writable {i : ℕ} (hi : ¬ Writable i) :
    finishHeader swUdpChksum m udplth i = m i := by
  unfold Writable NamedField at hi
  exact finishHeader_frame _ _ _ (by omega)

/-- The UDP checksum is zero exactly if it is not computed. -/
theorem finishHeader_udpChecksum :
    load16 (finishHeader swUdpChksum m udplth) 42 = 0 ↔ swUdpChksum = false := by
  cases swUdpChksum with
  | true =>
    simp only [finishHeader, ite_true, load16_store16]
    split_ifs with h
    · simp
    · simpa using h
  | false =>
    simp [finishHeader, load16, store16, byteOf]

end Finish

theorem cleared_of_lt {m : ℕ → Byte} {udplth i : ℕ} (hi : i < 18) : cleared m udplth i = m i := by
  rw [cleared, store16_of_ne (by omega), store16_of_ne (by omega), store16_of_ne (by omega),
    store16_of_ne (by omega)]

/-- What `finishHeader` writes into an intact template are headers. -/
theorem headerOk_finishHeader (swUdpChksum : Bool) {m : ℕ → Byte} (hm : Intact m) {bytes : ℕ}
    (hb : bytes ≤ 1472) : HeaderOk bytes (finishHeader swUdpChksum m (bytes + 8)) := by
  have hkeep : ∀ i < 44, ¬ Writable i →
      finishHeader swUdpChksum m (bytes + 8) i = prefabInit i := by
    intro i hi hw
    rw [finishHeader_of_not_writable _ _ _ hw]
    exact hm i hi hw
  have hload : ∀ a, a + 2 ≤ 26 ∨ 28 ≤ a → a + 2 ≤ 42 →
      load16 (finishHeader swUdpChksum m (bytes + 8)) a = load16 (cleared m (bytes + 8)) a := by
    intro a h26 h42
    rw [load16_congr (finishHeader_apply _ _ _ (by omega)) (finishHeader_apply _ _ _ (by omega))]
    exact load16_store16_of_ne (by omega)
  have h16 : cleared m (bytes + 8) 16 = 0x45 := by
    rw [cleared_of_lt (by decide), hm 16 (by decide) (by decide)]
    rfl
  refine ⟨?_, ?_, ?_, ?_, ?_, ?_⟩
  · rw [load16_congr (hkeep 14 (by decide) (by decide)) (hkeep 15 (by decide) (by decide))]
    decide
  · rw [hkeep 16 (by decide) (by decide)]
    rfl
  · rw [hkeep 25 (by decide) (by decide)]
    rfl
  · rw [hload 18 (by omega) (by omega), cleared, load16_store16_of_ne (by omega),
      load16_store16_of_ne (by omega), load16_store16, bswap16_bswap16, BitVec.toNat_ofNat,
      Nat.mod_eq_of_lt (by omega)]
    omega
  · -- the UDP checksum lies outside the IP header
    rw [inetChksum_congr (by omega) fun i hi => finishHeader_apply _ _ _ (by omega)]
    refine inetChksum_store16 (a := 16) (k := 5) (by omega) (by omega) ?_
    rw [cleared, load16_store16_of_ne (by omega), load16_store16]
  · rw [hload 40 (by omega) (by omega), cleared, load16_store16_of_ne (by omega),
      load16_store16_of_ne (by omega), load16_store16_of_ne (by omega), load16_store16,
      bswap16_bswap16, BitVec.toNat_ofNat, Nat.mod_eq_of_lt (by omega)]
    omega

/-! ### Frames -/

/-- A frame, as a memory. -/
def mem (f : List Byte) : ℕ → Byte := fun i => f.getD i 0

/-- A frame that is a UDP packet with `bytes` bytes of payload. -/
structure UdpFrame (bytes : ℕ) (f : List Byte) : Prop where
  length : f.length = 44 + bytes
  header : HeaderOk bytes (mem f)

def srcPort (f : List Byte) : BitVec 16 := bswap16 (load16 (mem f) 36)

def dstPort (f : List Byte) : BitVec 16 := bswap16 (load16 (mem f) 38)

def dstAddress (f : List Byte) : BitVec 32 := load32 (mem f) 32

def payload (f : List Byte) : List Byte := f.drop 44

theorem mem_read {m : ℕ → Byte} {n i : ℕ} (h : i < n) : mem (read m 0 n) i = m i := by
  rw [mem, getD_read h, Nat.zero_add]

theorem payload_read (m : ℕ → Byte) (bytes : ℕ) :
    payload (read m 0 (44 + bytes)) = read m 44 bytes := by
  rw [payload, read_add, List.drop_left' (length_read m 0 44), Nat.zero_add]

theorem payload_eq_read {f : List Byte} {bytes : ℕ} (h : f.length = 44 + bytes) :
    payload f = read (mem f) 44 bytes := by
  apply List.ext_getElem
  · rw [payload, List.length_drop, length_read, h]
    omega
  · intro j hj _
    have hlt : 44 + j < f.length := by
      rw [payload, List.length_drop] at hj
      omega
    rw [getElem_read, mem, List.getD_eq_getElem _ _ hlt]
    simp [payload]

theorem udpFrame_read {bytes : ℕ} {m : ℕ → Byte} (h : HeaderOk bytes m) :
    UdpFrame bytes (read m 0 (44 + bytes)) :=
  ⟨length_read _ _ _, h.congr fun _ hi => mem_read (by omega)⟩

/-! ### The receiving side -/

/-- The packet that a receiver finds in its buffer when the frame `f` was sent: the MAC of the
sender has put in the source address, and behind the frame there may be anything. -/
def Delivered (f : List Byte) (packet : ℕ → Byte) : Prop :=
  ∀ i < f.length, i < 8 ∨ 14 ≤ i → packet i = mem f i

/-- **The decoder inverts the encoder.** A node that has the destination address of a frame gets
its payload from the next `recvfrom`. -/
theorem recvfrom_handleFrame {bytes : ℕ} {f : List Byte} (hf : UdpFrame bytes f)
    {packet : ℕ → Byte} (hp : Delivered f packet) {r : Node} (hr : r.myaddress = dstAddress f) :
    (handleFrame r packet f.length).udpLth = f.length ∧
      (recvfrom (handleFrame r packet f.length)).1 = bytes ∧
      (recvfrom (handleFrame r packet f.length)).2.1 = payload f := by
  have hlen := hf.length
  have htype : load16 packet 14 = 0x0008 :=
    (load16_congr (hp 14 (by omega) (by omega)) (hp 15 (by omega) (by omega))).trans
      hf.header.type
  have hproto : packet 25 = 17 := (hp 25 (by omega) (by omega)).trans hf.header.protocol
  have hdst : load32 packet 32 = r.myaddress := by
    rw [hr, dstAddress]
    exact load32_congr fun i hi => hp (32 + i) (by omega) (by omega)
  have hstate : (handleFrame r packet f.length).udpBuff =
        blit r.udpBuff 0 (read packet 0 f.length) ∧
      (handleFrame r packet f.length).udpLth = f.length := by
    simp [handleFrame, htype, hproto, hdst]
  have hbuff : ∀ i < f.length, i < 8 ∨ 14 ≤ i →
      (handleFrame r packet f.length).udpBuff i = mem f i := by
    intro i hi hi'
    have hread : i < (read packet 0 f.length).length := by simpa using hi
    rw [hstate.1, ← Nat.zero_add i, blit_add hread, getElem_read, Nat.zero_add]
    exact hp i hi hi'
  have hudp : (bswap16 (load16 (handleFrame r packet f.length).udpBuff 40)).toNat = 8 + bytes := by
    rw [load16_congr (hbuff 40 (by omega) (by omega)) (hbuff 41 (by omega) (by omega))]
    exact hf.header.udpLength
  have hlth : (recvfrom (handleFrame r packet f.length)).1 = bytes := by
    simp only [recvfrom, hudp]
    omega
  refine ⟨hstate.2, hlth, ?_⟩
  have hlt : 8 + bytes < 2 ^ 16 := hudp ▸ BitVec.isLt _
  have hsize : (((recvfrom (handleFrame r packet f.length)).1) % 2 ^ 32).toNat = bytes := by
    rw [hlth]
    omega
  calc (recvfrom (handleFrame r packet f.length)).2.1
      = read (handleFrame r packet f.length).udpBuff 44 bytes :=
        congrArg (read (handleFrame r packet f.length).udpBuff 44) hsize
    _ = read (mem f) 44 bytes := read_congr fun j hj => hbuff (44 + j) (by omega) (by omega)
    _ = payload f := (payload_eq_read hlen).symm

/-! ### The sending side -/

/-- The calls, with no more bytes than fit into an Ethernet frame. -/
inductive SendCall
  | sendto (packet : List Byte) (sport dest dport : BitVec 32) (h : packet.length ≤ 1472)
  | udpBlast (pkts bytes : ℕ) (h : bytes ≤ 1472)

def SendCall.exec (swUdpChksum : Bool) (n : Node) : SendCall → Node
  | .sendto packet sport dest dport _ => Raw.sendto swUdpChksum n packet sport dest dport
  | .udpBlast pkts bytes _ => Raw.udpBlast swUdpChksum n pkts bytes

def SendCall.bytes : SendCall → ℕ
  | .sendto packet _ _ _ _ => packet.length
  | .udpBlast _ bytes _ => bytes

/-- How many frames a call sends. -/
def SendCall.frames : SendCall → ℕ
  | .sendto _ _ _ _ _ => 1
  | .udpBlast pkts _ _ => pkts

/-- What a frame takes from the arguments of the call, besides the number of bytes. -/
def SendCall.Carries : SendCall → List Byte → Prop
  | .sendto packet sport _ dport _, f =>
    srcPort f = sport.setWidth 16 ∧ dstPort f = dport.setWidth 16 ∧ payload f = packet
  | .udpBlast _ _ _, f => dstPort f = 2000

/-- What one call does: it leaves the other header bytes alone, and sends frames that are right. -/
structure SendOk (swUdpChksum : Bool) (c : SendCall) (n n' : Node) : Prop where
  prefab : ∀ i < 44, ¬ Writable i → n'.prefab i = n.prefab i
  sent : ∃ fs, n'.sent = n.sent ++ fs ∧ fs.length = c.frames ∧ ∀ f ∈ fs,
    UdpFrame c.bytes f ∧ c.Carries f ∧ (load16 (mem f) 42 = 0 ↔ swUdpChksum = false)

section Calls

variable (swUdpChksum : Bool)

/-- A frame whose header was finished in an intact template. -/
theorem frame_of_finishHeader {m m₁ : ℕ → Byte} (hm : Intact m) {bytes : ℕ} (hb : bytes ≤ 1472)
    (h₁ : ∀ i < 44, m₁ i = finishHeader swUdpChksum m (bytes + 8) i) :
    UdpFrame bytes (read m₁ 0 (44 + bytes)) ∧
      srcPort (read m₁ 0 (44 + bytes)) = bswap16 (load16 m 36) ∧
      dstPort (read m₁ 0 (44 + bytes)) = bswap16 (load16 m 38) ∧
      (load16 (mem (read m₁ 0 (44 + bytes))) 42 = 0 ↔ swUdpChksum = false) := by
  have hmem : ∀ i < 44, mem (read m₁ 0 (44 + bytes)) i =
      finishHeader swUdpChksum m (bytes + 8) i :=
    fun i hi => (mem_read (by omega)).trans (h₁ i hi)
  have hload : ∀ a, a + 2 ≤ 44 → load16 (mem (read m₁ 0 (44 + bytes))) a =
      load16 (finishHeader swUdpChksum m (bytes + 8)) a :=
    fun a ha => load16_congr (hmem a (by omega)) (hmem (a + 1) (by omega))
  have hport : ∀ a, 36 ≤ a → a + 2 ≤ 40 →
      load16 (finishHeader swUdpChksum m (bytes + 8)) a = load16 m a := fun a h36 h40 =>
    load16_congr (finishHeader_frame _ _ _ (by omega)) (finishHeader_frame _ _ _ (by omega))
  refine ⟨udpFrame_read ((headerOk_finishHeader swUdpChksum hm hb).congr h₁), ?_, ?_, ?_⟩
  · rw [srcPort, hload 36 (by omega), hport 36 (by omega) (by omega)]
  · rw [dstPort, hload 38 (by omega), hport 38 (by omega) (by omega)]
  · rw [hload 42 (by omega)]
    exact finishHeader_udpChecksum swUdpChksum m (bytes + 8)

theorem sendOk_sendto {n : Node} (hn : Intact n.prefab) (packet : List Byte)
    (sport dest dport : BitVec 32) (h : packet.length ≤ 1472) :
    SendOk swUdpChksum (.sendto packet sport dest dport h) n
      (sendto swUdpChksum n packet sport dest dport) := by
  -- the template with the payload and the ports
  let m := store16 (store16 (blit n.prefab 44 packet) 36 (bswap16 (sport.setWidth 16))) 38
    (bswap16 (dport.setWidth 16))
  let m' := finishHeader swUdpChksum m (packet.length + 8)
  have hm : ∀ i < 44, ¬ Writable i → m i = n.prefab i := by
    intro i hi hw
    unfold Writable NamedField at hw
    calc m i = store16 (blit n.prefab 44 packet) 36 (bswap16 (sport.setWidth 16)) i :=
          store16_of_ne (by omega)
      _ = blit n.prefab 44 packet i := store16_of_ne (by omega)
      _ = n.prefab i := blit_of_lt hi
  have hm44 : ∀ j, m' (44 + j) = blit n.prefab 44 packet (44 + j) := fun j =>
    calc m' (44 + j) = m (44 + j) := finishHeader_frame _ _ _ (by omega)
      _ = store16 (blit n.prefab 44 packet) 36 (bswap16 (sport.setWidth 16)) (44 + j) :=
          store16_of_ne (by omega)
      _ = blit n.prefab 44 packet (44 + j) := store16_of_ne (by omega)
  obtain ⟨hframe, hsrc, hdst, hchecksum⟩ := frame_of_finishHeader swUdpChksum
    (fun i hi hw => (hm i hi hw).trans (hn i hi hw)) h (fun i _ => show m' i = m' i from rfl)
  refine ⟨fun i hi hw => (finishHeader_of_not_writable _ _ _ hw).trans (hm i hi hw),
    [read m' 0 (44 + packet.length)], ?_, rfl, fun f hf => ?_⟩
  · simp only [sendto, outgoing]
    rw [show 14 + 2 + (20 + (packet.length + 8)) = 44 + packet.length by omega]
  · rw [List.mem_singleton.1 hf]
    refine ⟨hframe, ⟨?_, ?_, ?_⟩, hchecksum⟩
    · rw [hsrc, load16_store16_of_ne (by omega), load16_store16, bswap16_bswap16]
    · rw [hdst, load16_store16, bswap16_bswap16]
    · calc payload (read m' 0 (44 + packet.length)) = read m' 44 packet.length := payload_read m' _
        _ = read (blit n.prefab 44 packet) 44 packet.length := read_congr fun j _ => hm44 j
        _ = packet := read_blit_self _ _ _

/-- The loop of `udp_blast` sends frames with the header that it starts with. -/
theorem blastLoop_spec (pktlth i k : ℕ) (n : Node) :
    (∀ j < 44, (blastLoop pktlth i k n).prefab j = n.prefab j) ∧
      ∃ fs, (blastLoop pktlth i k n).sent = n.sent ++ fs ∧ fs.length = k ∧
        ∀ f ∈ fs, ∃ m, f = read m 0 pktlth ∧ ∀ j < 44, m j = n.prefab j := by
  induction k generalizing i n with
  | zero => exact ⟨fun _ _ => rfl, [], by simp [blastLoop], rfl, by simp⟩
  | succ k ih =>
    let m := store32 n.prefab 44 (bswap32 (.ofNat 32 i))
    have hm : ∀ j < 44, m j = n.prefab j := fun j hj => store32_of_ne (by omega)
    obtain ⟨hprefab, fs, hsent, hlen, hfs⟩ := ih (i + 1) (outgoing { n with prefab := m } m pktlth)
    refine ⟨fun j hj => (hprefab j hj).trans (hm j hj), read m 0 pktlth :: fs, ?_, ?_, ?_⟩
    · exact hsent.trans (List.append_assoc _ _ _)
    · rw [List.length_cons, hlen]
    · rintro f (_ | ⟨_, hf⟩)
      · exact ⟨m, rfl, hm⟩
      · obtain ⟨m', hm', hj'⟩ := hfs f hf
        exact ⟨m', hm', fun j hj => (hj' j hj).trans (hm j hj)⟩

theorem sendOk_udpBlast {n : Node} (hn : Intact n.prefab) (pkts bytes : ℕ) (h : bytes ≤ 1472) :
    SendOk swUdpChksum (.udpBlast pkts bytes h) n (udpBlast swUdpChksum n pkts bytes) := by
  let m := store16 n.prefab 38 (bswap16 2000)
  let m' := finishHeader swUdpChksum m (bytes + 8)
  have hm : ∀ i < 44, ¬ Writable i → m i = n.prefab i := by
    intro i _ hw
    unfold Writable NamedField at hw
    exact store16_of_ne (by omega)
  obtain ⟨hprefab, fs, hsent, hlen, hfs⟩ :=
    blastLoop_spec (14 + 2 + (20 + (bytes + 8))) 0 pkts { n with prefab := m' }
  refine ⟨fun i hi hw => ?_, fs, hsent, hlen, fun f hf => ?_⟩
  · calc (udpBlast swUdpChksum n pkts bytes).prefab i = m' i := hprefab i hi
      _ = m i := finishHeader_of_not_writable _ _ _ hw
      _ = n.prefab i := hm i hi hw
  · obtain ⟨m₁, rfl, hm₁⟩ := hfs f hf
    rw [show 14 + 2 + (20 + (bytes + 8)) = 44 + bytes by omega]
    obtain ⟨hframe, -, hdst, hchecksum⟩ := frame_of_finishHeader swUdpChksum
      (fun i hi hw => (hm i hi hw).trans (hn i hi hw)) h hm₁
    refine ⟨hframe, ?_, hchecksum⟩
    change dstPort _ = 2000
    rw [hdst, load16_store16, bswap16_bswap16]

theorem sendOk_exec {n : Node} (hn : Intact n.prefab) (c : SendCall) :
    SendOk swUdpChksum c n (c.exec swUdpChksum n) := by
  cases c with
  | sendto packet sport dest dport h => exact sendOk_sendto swUdpChksum hn packet sport dest dport h
  | udpBlast pkts bytes h => exact sendOk_udpBlast swUdpChksum hn pkts bytes h

theorem intact_exec (n : Node) (c : SendCall) (hn : Intact n.prefab) :
    Intact (c.exec swUdpChksum n).prefab :=
  fun i hi hw => ((sendOk_exec swUdpChksum hn c).prefab i hi hw).trans (hn i hi hw)

/-- The template is intact after any calls. -/
theorem intact_run {n : Node} (hn : Intact n.prefab) (cs : List SendCall) :
    Intact (run (SendCall.exec swUdpChksum) n cs).prefab :=
  run_induction (P := fun n : Node => Intact n.prefab) (intact_exec swUdpChksum) hn cs

end Calls

/-- **The encoder and the decoder agree.** After any calls of `sendto` and `udp_blast`, the next
call leaves alone every header byte of `prefab` except lengths, checksums and ports, and each
frame that it sends is a UDP packet with the right length, checksum, ports and payload, whose UDP
checksum is left zero exactly if the sketch does not compute it.  If such a frame is delivered to
a node with its destination address, the next `recvfrom` there returns the number of bytes and
writes the payload. -/
theorem udp_round_trip (swUdpChksum : Bool) (myaddress : BitVec 32) (macaddr1 macaddr2 : BitVec 24)
    (cs : List SendCall) (c : SendCall) :
    let n := run (SendCall.exec swUdpChksum) (nodeInit myaddress macaddr1 macaddr2) cs
    let n' := c.exec swUdpChksum n
    (∀ i < 44, ¬ Writable i → n'.prefab i = n.prefab i) ∧
      ∃ fs, n'.sent = n.sent ++ fs ∧ fs.length = c.frames ∧ ∀ f ∈ fs,
        UdpFrame c.bytes f ∧ c.Carries f ∧ (load16 (mem f) 42 = 0 ↔ swUdpChksum = false) ∧
        ∀ (r : Node) (packet : ℕ → Byte), Delivered f packet → r.myaddress = dstAddress f →
          (handleFrame r packet f.length).udpLth = f.length ∧
          (recvfrom (handleFrame r packet f.length)).1 = c.bytes ∧
          (recvfrom (handleFrame r packet f.length)).2.1 = payload f := by
  intro n n'
  have hn : Intact n.prefab := intact_run swUdpChksum (fun _ _ _ => rfl) cs
  obtain ⟨hprefab, fs, hsent, hlen, hfs⟩ := sendOk_exec swUdpChksum hn c
  refine ⟨hprefab, fs, hsent, hlen, fun f hf => ?_⟩
  obtain ⟨hframe, hcarries, hchecksum⟩ := hfs f hf
  exact ⟨hframe, hcarries, hchecksum, fun r packet hp hr => recvfrom_handleFrame hframe hp hr⟩

/-- The UDP checksum field of the template is no length, port or header checksum, and the first
`sendto` changes it. -/
theorem sendto_clears_udp_checksum :
    let n := nodeInit 0x1101A8C0 0x04E9E5 0x000001
    ¬ ∀ i < 44, ¬ NamedField i →
      (sendto false n [] 4444 0x0401A8C0 7654).prefab i = n.prefab i := by
  intro n h
  have h42 := h 42 (by decide) (by decide)
  have hzero : (sendto false n [] 4444 0x0401A8C0 7654).prefab 42 = 0 := by
    simp [sendto, outgoing, finishHeader, store16, byteOf]
  rw [hzero] at h42
  exact absurd h42 (by decide)

end Raw
