import Mathlib.Tactic
import Teensy3.Lib.ByteMem
import Teensy3.Raw.Sketch
import Teensy3.Raw.Udp

/-!
# Receiving UDP packets in the raw sketch

`handle_frame` copies a UDP packet to `UDP_buff`, and `recvfrom` copies its payload on to the
caller's buffer.  The number of bytes is taken from the length field of the packet, which is
compared neither with the size of the caller's buffer (`check lth vs len?` says the source) nor
with the number of bytes that were received.

* `IsUdp a packet`: `handle_frame` takes the packet for UDP to the address `a`;
* `handleFrame_udp`, `handleFrame_other`: what `handle_frame` does with it, and with any other;
* `NoOverrun`: `recvfrom` stays inside both buffers;
* `recvfrom_noOverrun_iff`: for which length fields it does.
-/

namespace Raw

open ByteMem

/-! ### What `handle_frame` does -/

/-- The tests of `handle_frame` that lead to its UDP branch. -/
def IsUdp (myaddress : BitVec 32) (packet : ℕ → Byte) : Prop :=
  load16 packet 14 = 0x0008 ∧ packet 25 = 17 ∧ load32 packet 32 = myaddress

instance (myaddress : BitVec 32) (packet : ℕ → Byte) : Decidable (IsUdp myaddress packet) :=
  inferInstanceAs (Decidable (_ ∧ _ ∧ _))

section HandleFrame

variable {n : Node} {packet : ℕ → Byte} (len : ℕ)

/-- A UDP packet goes to `UDP_buff`, and nothing is sent. -/
theorem handleFrame_udp (h : IsUdp n.myaddress packet) :
    (handleFrame n packet len).udpBuff = blit n.udpBuff 0 (read packet 0 len) ∧
      (handleFrame n packet len).udpLth = len ∧
      (handleFrame n packet len).sent = n.sent := by
  obtain ⟨htype, hproto, hdst⟩ := h
  simp [handleFrame, htype, hproto, hdst]

/-- In `UDP_buff` there are then the bytes of the packet. -/
theorem udpBuff_handleFrame (h : IsUdp n.myaddress packet) {i : ℕ} (hi : i < len) :
    (handleFrame n packet len).udpBuff i = packet i := by
  have hread : i < (read packet 0 len).length := by simpa using hi
  have hblit := blit_add (m := n.udpBuff) (a := 0) hread
  rw [Nat.zero_add, getElem_read, Nat.zero_add] at hblit
  rw [(handleFrame_udp len h).1, hblit]

/-- A frame that carries UDP over IP. -/
def CarriesUdp (f : List Byte) : Prop := load16 (mem f) 14 = 0x0008 ∧ mem f 25 = 17

instance : DecidablePred CarriesUdp := fun _ => inferInstanceAs (Decidable (_ ∧ _))

/-- The frames that a node sends when it handles a packet are none of these. -/
def Answers (n n' : Node) : Prop :=
  ∃ fs, n'.sent = n.sent ++ fs ∧ ∀ f ∈ fs, ¬ CarriesUdp f

theorem answers_of_sent {n' : Node} (h : n'.sent = n.sent) : Answers n n' :=
  ⟨[], by rw [h, List.append_nil], by simp⟩

theorem answers_outgoing {m : ℕ → Byte} (h : ¬ CarriesUdp (read m 0 len)) :
    Answers n (outgoing n m len) :=
  ⟨[read m 0 len], rfl, fun f hf => by rwa [List.mem_singleton.1 hf]⟩

/-- An echo reply has the protocol of the request. -/
theorem answers_pingReply (hproto : packet 25 = 1) : Answers n (pingReply n packet len) := by
  unfold pingReply
  split_ifs
  · exact answers_of_sent rfl
  · refine answers_outgoing len fun hudp => ?_
    have h25 := hudp.2
    by_cases hlen : 25 < len
    · have hread : 25 < (read packet 0 len).length := by simpa using hlen
      have hcopy : blit (fun _ => 0) 0 (read packet 0 len) 25 = packet 25 := by
        have hadd := blit_add (m := fun _ => (0 : Byte)) (a := 0) hread
        rwa [Nat.zero_add, getElem_read, Nat.zero_add] at hadd
      rw [mem_read hlen, store8, if_neg (by omega), store32_of_ne (by omega),
        store32_of_ne (by omega), blit_of_ge (by simp), hcopy, hproto] at h25
      exact absurd h25 (by decide)
    · rw [mem, List.getD_eq_default _ _ (by simpa using hlen)] at h25
      exact absurd h25 (by decide)

theorem not_carriesUdp_arpPacket (n : Node) (dst : List Byte) (w5 w8 w9 w10 : BitVec 32) :
    ¬ CarriesUdp (read (arpPacket n dst w5 w8 w9 w10) 0 44) := by
  rintro ⟨htype, -⟩
  rw [load16_congr (mem_read (by omega)) (mem_read (by omega))] at htype
  simp [arpPacket, load16, store32, store8] at htype

/-- An ARP packet has another type. -/
theorem answers_arpParse : Answers n (arpParse n packet) := by
  unfold arpParse
  extract_lets n₁ sender mac target n₂
  split_ifs
  · exact answers_outgoing (n := n₂) 44 (not_carriesUdp_arpPacket _ _ _ _ _ _)
  all_goals exact answers_of_sent rfl

theorem pingReply_udpBuff (n : Node) (packet : ℕ → Byte) (len : ℕ) :
    (pingReply n packet len).udpBuff = n.udpBuff ∧ (pingReply n packet len).udpLth = n.udpLth := by
  unfold pingReply
  split_ifs <;> exact ⟨rfl, rfl⟩

theorem arpParse_udpBuff (n : Node) (packet : ℕ → Byte) :
    (arpParse n packet).udpBuff = n.udpBuff ∧ (arpParse n packet).udpLth = n.udpLth := by
  unfold arpParse
  extract_lets n₁ sender mac target n₂
  split_ifs <;> exact ⟨rfl, rfl⟩

/-- Any other packet leaves `UDP_buff` alone, and what is sent is not UDP. -/
theorem handleFrame_other (h : ¬ IsUdp n.myaddress packet) :
    (handleFrame n packet len).udpBuff = n.udpBuff ∧
      (handleFrame n packet len).udpLth = n.udpLth ∧
      Answers n (handleFrame n packet len) := by
  unfold handleFrame
  extract_lets type n₁ n₂ dst n₃
  by_cases htype : type = 0x0008
  · rw [if_pos htype]
    by_cases hicmp : packet 25 = 1 ∧ dst = n₂.myaddress
    · rw [if_pos hicmp]
      split_ifs
      · obtain ⟨hbuff, hlth⟩ := pingReply_udpBuff n₃ packet len
        exact ⟨hbuff, hlth, answers_pingReply (n := n₃) len hicmp.1⟩
      · exact ⟨rfl, rfl, answers_of_sent rfl⟩
    · rw [if_neg hicmp, if_neg fun hudp => h ⟨htype, hudp.1, hudp.2⟩]
      split_ifs <;> exact ⟨rfl, rfl, answers_of_sent rfl⟩
  · rw [if_neg htype]
    split_ifs
    · obtain ⟨hbuff, hlth⟩ := arpParse_udpBuff n₁ packet
      exact ⟨hbuff, hlth, answers_arpParse (n := n₁)⟩
    · exact ⟨rfl, rfl, answers_of_sent rfl⟩

theorem handleFrame_keeps (n : Node) (packet : ℕ → Byte) (len : ℕ) :
    (handleFrame n packet len).prefab = n.prefab ∧
      (handleFrame n packet len).myaddress = n.myaddress := by
  simp only [handleFrame, pingReply, arpParse, arpReply, outgoing]
  split_ifs <;> exact ⟨rfl, rfl⟩

end HandleFrame

/-! ### The length field -/

/-- The length field of the UDP header, in host order. -/
def udpLengthField (packet : ℕ → Byte) : ℕ := (bswap16 (load16 packet 40)).toNat

/-- The addresses in `UDP_buff` that `recvfrom` reads: the length field, and as many bytes from the
payload on as it copies. -/
def recvfromReads (n : Node) : List ℕ :=
  [40, 41] ++ (List.range (recvfrom n).2.1.length).map (44 + ·)

/-- `recvfrom`, called with a buffer of `len` bytes when a packet of `l` bytes is in `UDP_buff`,
stays inside both, and returns how many bytes it has copied. -/
structure NoOverrun (l len : ℕ) (n : Node) : Prop where
  fits : (recvfrom n).2.1.length ≤ len
  inside : ∀ a ∈ recvfromReads n, a < l
  nonneg : 0 ≤ (recvfrom n).1
  le : (recvfrom n).1 ≤ len
  copied : (recvfrom n).1 = (recvfrom n).2.1.length

theorem recvfrom_result (n : Node) : (recvfrom n).1 = (udpLengthField n.udpBuff : ℤ) - 8 := rfl

theorem length_recvfrom (n : Node) :
    (recvfrom n).2.1.length = (((udpLengthField n.udpBuff : ℤ) - 8) % 2 ^ 32).toNat :=
  length_read _ _ _

/-- A length field of at least 8 is a number of bytes after the header. -/
theorem length_recvfrom_of_le {n : Node} (h : 8 ≤ udpLengthField n.udpBuff) :
    (recvfrom n).2.1.length = udpLengthField n.udpBuff - 8 := by
  have hlt : udpLengthField n.udpBuff < 2 ^ 16 := BitVec.isLt _
  rw [length_recvfrom]
  omega

theorem mem_recvfromReads {n : Node} {a : ℕ} :
    a ∈ recvfromReads n ↔ a = 40 ∨ a = 41 ∨ 44 ≤ a ∧ a < 44 + (recvfrom n).2.1.length := by
  simp only [recvfromReads, List.mem_append, List.mem_cons, List.not_mem_nil, or_false,
    List.mem_map, List.mem_range, or_assoc]
  refine or_congr_right (or_congr_right ⟨?_, ?_⟩)
  · rintro ⟨j, hj, rfl⟩
    omega
  · rintro ⟨hle, hlt⟩
    exact ⟨a - 44, by omega, by omega⟩

theorem noOverrun_iff {l len : ℕ} (hl : 44 ≤ l) (n : Node) :
    NoOverrun l len n ↔ 8 ≤ udpLengthField n.udpBuff ∧ udpLengthField n.udpBuff ≤ 8 + len ∧
      36 + udpLengthField n.udpBuff ≤ l := by
  constructor
  · intro h
    have hnonneg := h.nonneg
    have hle := h.le
    rw [recvfrom_result] at hnonneg hle
    have h8 : 8 ≤ udpLengthField n.udpBuff := by omega
    refine ⟨h8, by omega, ?_⟩
    by_cases h0 : udpLengthField n.udpBuff = 8
    · omega
    · -- the last byte that is copied lies inside
      have hlast := h.inside (36 + udpLengthField n.udpBuff - 1) (by
        rw [mem_recvfromReads, length_recvfrom_of_le h8]
        omega)
      omega
  · rintro ⟨h8, hle, hin⟩
    have hlen := length_recvfrom_of_le h8
    refine ⟨by omega, ?_, ?_, ?_, ?_⟩
    · intro a ha
      rw [mem_recvfromReads] at ha
      omega
    all_goals
      rw [recvfrom_result]
      omega

/-! ### Any frame, any buffer -/

/-- A frame of `l` bytes that `handle_frame` accepts as UDP for its address; the MAC stores no
shorter and no longer ones. -/
structure AcceptedUdp (n : Node) (packet : ℕ → Byte) (l : ℕ) : Prop where
  min : 60 ≤ l
  max : l ≤ 1520
  udp : IsUdp n.myaddress packet

/-- **When `recvfrom` overruns nothing.** After any frame that is accepted as UDP, and with a
buffer of any size, exactly if the length field counts at least the UDP header, and no more than
the header together with the buffer, or with what was received after the IP header. -/
theorem recvfrom_noOverrun_iff {n : Node} {packet : ℕ → Byte} {l : ℕ} (h : AcceptedUdp n packet l)
    (len : ℕ) :
    NoOverrun l len (handleFrame n packet l) ↔
      8 ≤ udpLengthField packet ∧ udpLengthField packet ≤ 8 + len ∧
        36 + udpLengthField packet ≤ l := by
  have hmin := h.min
  have hfield : udpLengthField (handleFrame n packet l).udpBuff = udpLengthField packet := by
    unfold udpLengthField
    rw [load16_congr (udpBuff_handleFrame l h.udp (by omega))
      (udpBuff_handleFrame l h.udp (by omega))]
  rw [noOverrun_iff (by omega), hfield]

/-- A UDP packet to `192.168.1.17`, all zeros but for the tests of `handle_frame` and for its
length field. -/
def packetWithLength (hi lo : Byte) : ℕ → Byte
  | 14 => 0x08
  | 25 => 17
  | 32 => 0xC0
  | 33 => 0xA8
  | 34 => 0x01
  | 35 => 0x11
  | 40 => hi
  | 41 => lo
  | _ => 0

theorem acceptedUdp_packetWithLength (hi lo : Byte) {l : ℕ} (h : 60 ≤ l ∧ l ≤ 1520) :
    AcceptedUdp (nodeInit 0x1101A8C0 0x04E9E5 0x000001) (packetWithLength hi lo) l := by
  have htype : 0x00#8 ++ 0x08#8 = 0x0008#16 := by decide
  have hdst : 0x11#8 ++ 0x01#8 ++ 0xA8#8 ++ 0xC0#8 = 0x1101A8C0#32 := by decide
  exact ⟨h.1, h.2, htype, rfl, hdst⟩

/-- A packet with 48 bytes of payload fits the buffer of `udp_ntp`. -/
theorem recvfrom_ntp_noOverrun :
    NoOverrun 92 48
      (handleFrame (nodeInit 0x1101A8C0 0x04E9E5 0x000001) (packetWithLength 0 56) 92) :=
  (recvfrom_noOverrun_iff (acceptedUdp_packetWithLength 0 56 (by omega)) 48).2 (by decide)

/-- A packet of 1472 bytes of payload overruns the same buffer; a length field of 0 gives a
negative length; and a frame of 60 bytes with a length field of 256 is read beyond its end. -/
theorem recvfrom_overruns :
    let n := nodeInit 0x1101A8C0 0x04E9E5 0x000001
    (recvfrom (handleFrame n (packetWithLength 0x05 0xC8) 1516)).1 = 1472 ∧
      ¬ NoOverrun 1516 48 (handleFrame n (packetWithLength 0x05 0xC8) 1516) ∧
      (recvfrom (handleFrame n (packetWithLength 0 0) 60)).1 = -8 ∧
      ¬ NoOverrun 60 1460 (handleFrame n (packetWithLength 0 0) 60) ∧
      ¬ NoOverrun 60 256 (handleFrame n (packetWithLength 1 0) 60) := by
  intro n
  have hfield : ∀ hi lo l, 60 ≤ l → l ≤ 1520 →
      udpLengthField (handleFrame n (packetWithLength hi lo) l).udpBuff =
        (bswap16 (lo ++ hi)).toNat := by
    intro hi lo l hl hl'
    have hudp := (acceptedUdp_packetWithLength hi lo ⟨hl, hl'⟩).udp
    unfold udpLengthField
    rw [load16_congr (udpBuff_handleFrame l hudp (by omega))
      (udpBuff_handleFrame l hudp (by omega))]
    rfl
  refine ⟨?_, ?_, ?_, ?_, ?_⟩
  · rw [recvfrom_result, hfield _ _ _ (by omega) (by omega)]
    decide
  · rw [noOverrun_iff (by omega), hfield _ _ _ (by omega) (by omega)]
    decide
  · rw [recvfrom_result, hfield _ _ _ (by omega) (by omega)]
    decide
  · rw [noOverrun_iff (by omega), hfield _ _ _ (by omega) (by omega)]
    decide
  · rw [noOverrun_iff (by omega), hfield _ _ _ (by omega) (by omega)]
    decide

end Raw
