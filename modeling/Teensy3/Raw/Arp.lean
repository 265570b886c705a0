import Mathlib.Tactic
import Teensy3.Lib.ByteMem
import Teensy3.Raw.Sketch

/-!
# ARP between two nodes

`arp_request` and `arp_reply` put MAC and IP addresses together from the macros `MACADDR1` and
`MACADDR2` and from words, across word boundaries; `arp_parse` reads them back through half-words
and words.  Both sides are compared with the message format of RFC 826, byte for byte:

* `arpMessage` is the format, and `macBytes` the 48-bit address of a node;
* `wire` is what the MAC makes of a frame: it drops the two bytes of padding and puts in the
  address from `ENET_PALR` and `ENET_PAUR`;
* `arpParse_request` and `arpParse_response` say what a node makes of a message;
* `arp_exchange` is the whole exchange.
-/

namespace Raw

open ByteMem

/-! ### The message format -/

/-- The 48-bit Ethernet address of a node, first byte first. -/
def macBytes (n : Node) : List Byte :=
  [byteOf n.macaddr1 2, byteOf n.macaddr1 1, byteOf n.macaddr1 0,
   byteOf n.macaddr2 2, byteOf n.macaddr2 1, byteOf n.macaddr2 0]

/-- The address that the MAC has in `ENET_PALR` and `ENET_PAUR`. -/
def programmedMac (n : Node) : List Byte :=
  [byteOf (enetPalr n) 3, byteOf (enetPalr n) 2, byteOf (enetPalr n) 1, byteOf (enetPalr n) 0,
   byteOf (enetPaur n) 3, byteOf (enetPaur n) 2]

/-- An ARP message for IPv4 over Ethernet, in an Ethernet frame. -/
def arpMessage (ethDst ethSrc : List Byte) (oper : Byte) (sha : List Byte) (spa : BitVec 32)
    (tha : List Byte) (tpa : BitVec 32) : List Byte :=
  ethDst ++ ethSrc ++ [0x08, 0x06, 0x00, 0x01, 0x08, 0x00, 0x06, 0x04, 0x00, oper] ++
    sha ++ bytes32 spa ++ tha ++ bytes32 tpa

/-- The bytes that leave the node for a frame: with `ENET_TCR_ADDINS` and `ENET_TACC_SHIFT16` the
MAC drops the padding and inserts its address. -/
def wire (n : Node) (f : List Byte) : List Byte :=
  (f.drop 2).take 6 ++ programmedMac n ++ f.drop 14

/-- The packet in the receive buffer holds these bytes behind two bytes of padding. -/
def Received (w : List Byte) (packet : ℕ → Byte) : Prop := read packet 2 w.length = w

/-! ### The programmed address -/

theorem byteOf_and_ones {w : ℕ} (x y : BitVec w) (k : ℕ) (h : byteOf y k = 0xff) :
    byteOf (x &&& y) k = byteOf x k := by
  rw [byteOf_and, h]
  exact BitVec.and_allOnes

theorem byteOf_and_zeros {w : ℕ} (x y : BitVec w) (k : ℕ) (h : byteOf y k = 0) :
    byteOf (x &&& y) k = 0 := by
  rw [byteOf_and, h]
  exact BitVec.and_zero

/-- The MAC inserts the address that the node announces. -/
theorem programmedMac_eq (n : Node) : programmedMac n = macBytes n := by
  have hp : ∀ k < 3, byteOf (enetPalr n) (1 + k) = byteOf n.macaddr1 k := by
    intro k hk
    rw [enetPalr, byteOf_or, byteOf_shiftLeft _ _ 1 rfl (by omega), byteOf_setWidth _ _ (by omega),
      byteOf_and_zeros _ _ _ (by interval_cases k <;> decide)]
    exact BitVec.or_zero
  have hp0 : byteOf (enetPalr n) 0 = byteOf n.macaddr2 2 := by
    rw [enetPalr, byteOf_or, byteOf_shiftLeft_of_lt _ _ (by omega),
      byteOf_and_ones _ _ _ (by decide), byteOf_shiftRight _ _ 2 rfl,
      byteOf_setWidth _ _ (by omega)]
    exact BitVec.zero_or
  have hu : ∀ k < 2, byteOf (enetPaur n) (2 + k) = byteOf n.macaddr2 k := by
    intro k hk
    rw [enetPaur, byteOf_or, byteOf_and_ones _ _ _ (by interval_cases k <;> decide),
      byteOf_shiftLeft _ _ 2 rfl (by omega), byteOf_setWidth _ _ (by omega)]
    have hzero : byteOf (0x8808 : BitVec 32) (2 + k) = 0 := by interval_cases k <;> decide
    rw [hzero]
    exact BitVec.or_zero
  rw [programmedMac, macBytes, hp0, ← hp 0 (by omega), ← hp 1 (by omega), ← hp 2 (by omega),
    ← hu 0 (by omega), ← hu 1 (by omega)]

/-! ### The words of a packet -/

/-- The two words with the hardware address of the sender and the first half of its IP address. -/
theorem bytes32_sender (n : Node) :
    bytes32 (bswap32 (n.macaddr1.setWidth 32) >>> 8 |||
        (n.macaddr2.setWidth 32 <<< 8 &&& 0xFF000000)) ++
      bytes32 ((bswap16 (n.macaddr2.setWidth 16)).setWidth 32 ||| n.myaddress <<< 16) =
    macBytes n ++ [byteOf n.myaddress 0, byteOf n.myaddress 1] := by
  have hswap : ∀ k < 3, byteOf (bswap32 (n.macaddr1.setWidth 32)) (1 + k) =
      byteOf n.macaddr1 (2 - k) := by
    intro k hk
    interval_cases k <;> simp [bswap32, byteOf_setWidth]
  have hfirst : ∀ k < 3, byteOf (bswap32 (n.macaddr1.setWidth 32) >>> 8 |||
      (n.macaddr2.setWidth 32 <<< 8 &&& 0xFF000000)) k = byteOf n.macaddr1 (2 - k) := by
    intro k hk
    rw [byteOf_or, byteOf_shiftRight _ _ 1 rfl, hswap k hk,
      byteOf_and_zeros _ _ _ (by interval_cases k <;> decide)]
    exact BitVec.or_zero
  have hthird : byteOf (bswap32 (n.macaddr1.setWidth 32) >>> 8 |||
      (n.macaddr2.setWidth 32 <<< 8 &&& 0xFF000000)) 3 = byteOf n.macaddr2 2 := by
    rw [byteOf_or, byteOf_shiftRight _ _ 1 rfl, byteOf_of_ge _ _ (by omega),
      byteOf_and_ones _ _ _ (by decide), show (3 : ℕ) = 1 + 2 from rfl,
      byteOf_shiftLeft _ _ 1 rfl (by omega), byteOf_setWidth _ _ (by omega)]
    exact BitVec.zero_or
  have hlow : ∀ k < 2, byteOf ((bswap16 (n.macaddr2.setWidth 16)).setWidth 32 |||
      n.myaddress <<< 16) k = byteOf n.macaddr2 (1 - k) := by
    intro k hk
    rw [byteOf_or, byteOf_shiftLeft_of_lt _ _ (by omega), byteOf_setWidth _ _ (by omega)]
    interval_cases k <;> simp [bswap16, byteOf_setWidth]
  have hhigh : ∀ k < 2, byteOf ((bswap16 (n.macaddr2.setWidth 16)).setWidth 32 |||
      n.myaddress <<< 16) (2 + k) = byteOf n.myaddress k := by
    intro k hk
    rw [byteOf_or, byteOf_setWidth _ _ (by omega), byteOf_of_ge _ _ (by omega),
      byteOf_shiftLeft _ _ 2 rfl (by omega)]
    exact BitVec.zero_or
  rw [bytes32, bytes32, macBytes, hfirst 0 (by omega), hfirst 1 (by omega), hfirst 2 (by omega),
    hthird, hlow 0 (by omega), hlow 1 (by omega), ← hhigh 0 (by omega), ← hhigh 1 (by omega)]
  rfl

/-- A byte that is shifted to position `j` of a word. -/
theorem byteOf_place (b : Byte) {s j k : ℕ} (hs : s = 8 * j) (hk : k < 4) :
    byteOf (b.setWidth 32 <<< s) k = if k = j then b else 0 := by
  by_cases hlt : k < j
  · rw [byteOf_shiftLeft_of_lt _ _ (by omega), if_neg (by omega)]
  · obtain ⟨l, rfl⟩ := Nat.exists_eq_add_of_le (not_lt.1 hlt)
    rw [byteOf_shiftLeft _ _ j hs (by omega), byteOf_setWidth _ _ (by omega)]
    cases l with
    | zero => simp
    | succ l => rw [byteOf_of_ge _ _ (by omega), if_neg (by omega)]

/-- The second half of an IP address, in the low half of a word. -/
theorem byteOf_high (ip : BitVec 32) {k : ℕ} (hk : k < 4) :
    byteOf ((ip &&& 0xFFFF0000) >>> 16) k = if k < 2 then byteOf ip (2 + k) else 0 := by
  rw [byteOf_shiftRight _ _ 2 rfl]
  split_ifs with h
  · exact byteOf_and_ones _ _ _ (by interval_cases k <;> decide)
  · exact byteOf_of_ge _ _ (by omega)

/-- The rest of the words of a request. -/
theorem bytes32_request (ip : BitVec 32) :
    bytes32 ((ip &&& 0xFFFF0000) >>> 16) ++ bytes32 0 =
      [byteOf ip 2, byteOf ip 3] ++ List.replicate 6 0 := by
  simp (disch := decide) only [bytes32, byteOf_high]
  rfl

/-- And of a reply. -/
theorem bytes32_reply (ip : BitVec 32) (m : ℕ → Byte) (mac : ℕ) :
    let b (i : ℕ) : BitVec 32 := (m (mac + i)).setWidth 32
    bytes32 ((ip &&& 0xFFFF0000) >>> 16 ||| b 0 <<< 16 ||| b 1 <<< 24) ++
        bytes32 (b 5 <<< 24 ||| b 4 <<< 16 ||| b 3 <<< 8 ||| b 2) =
      [byteOf ip 2, byteOf ip 3] ++ read m mac 6 := by
  intro b
  have hb : ∀ i k, k < 4 → byteOf (b i) k = if k = 0 then m (mac + i) else 0 := by
    intro i k hk
    have := byteOf_place (m (mac + i)) (s := 0) (j := 0) rfl hk
    rwa [BitVec.shiftLeft_zero] at this
  have h2 : ∀ i k, k < 4 → byteOf (b i <<< 16) k = if k = 2 then m (mac + i) else 0 :=
    fun i k hk => byteOf_place _ rfl hk
  have h3 : ∀ i k, k < 4 → byteOf (b i <<< 24) k = if k = 3 then m (mac + i) else 0 :=
    fun i k hk => byteOf_place _ rfl hk
  have h1 : ∀ i k, k < 4 → byteOf (b i <<< 8) k = if k = 1 then m (mac + i) else 0 :=
    fun i k hk => byteOf_place _ rfl hk
  have hread : read m mac 6 =
      [m mac, m (mac + 1), m (mac + 2), m (mac + 3), m (mac + 4), m (mac + 5)] := rfl
  simp (disch := decide) only [bytes32, byteOf_or, byteOf_high, hb, h1, h2, h3, hread]
  simp

/-! ### Packets on the wire -/

/-- The 44 bytes of a packet, store by store. -/
theorem read_arpPacket (n : Node) {dst : List Byte} (hdst : dst.length = 6)
    (w5 w8 w9 w10 : BitVec 32) :
    read (arpPacket n dst w5 w8 w9 w10) 0 44 =
      [0, 0] ++ dst ++ List.replicate 6 0 ++ ([0x08] ++ [0x06] ++ bytes32 0x00080100 ++
        bytes32 w5 ++ (macBytes n ++ [byteOf n.myaddress 0, byteOf n.myaddress 1]) ++
        (bytes32 w8 ++ bytes32 w9) ++ bytes32 w10) := by
  have hsplit : (44 : ℕ) = 2 + 6 + 6 + 1 + 1 + 4 + 4 + 4 + 4 + 4 + 4 + 4 := rfl
  have hpad : read (store32 (fun _ => 0) 0 0) 0 2 = [0, 0] := by decide
  have hself : ∀ m : ℕ → Byte, read (blit m 2 dst) 2 6 = dst := fun m => by
    rw [← hdst, read_blit_self]
  have hzeros : ∀ m : ℕ → Byte, read (blit m 8 (List.replicate 6 0)) 8 6 = List.replicate 6 0 :=
    fun m => read_blit_self m 8 (List.replicate 6 0)
  have hdisj : ∀ (m : ℕ → Byte) (b k : ℕ), b + k ≤ 2 ∨ 8 ≤ b →
      read (blit m 2 dst) b k = read m b k := fun m b k h =>
    read_blit_disjoint (by omega)
  have hdisj' : ∀ (m : ℕ → Byte) (b k : ℕ), b + k ≤ 8 ∨ 14 ≤ b →
      read (blit m 8 (List.replicate 6 0)) b k = read m b k := fun m b k h =>
    read_blit_disjoint (by simpa using h)
  rw [← bytes32_sender, hsplit, arpPacket]
  repeat rw [read_add]
  simp only [Nat.zero_add, Nat.reduceAdd]
  simp (disch := decide) only [read_store32_of_ne, read_store32_self, read_store8_of_ne,
    read_store8_self, hdisj, hdisj', hself, hzeros, hpad]
  simp only [List.append_assoc]

theorem wire_append (n : Node) {pad dst src rest : List Byte} (hpad : pad.length = 2)
    (hdst : dst.length = 6) (hsrc : src.length = 6) :
    wire n (pad ++ dst ++ src ++ rest) = dst ++ macBytes n ++ rest := by
  have hdrop : (pad ++ dst ++ src ++ rest).drop 2 = dst ++ (src ++ rest) := by
    rw [List.append_assoc, List.append_assoc, List.drop_left' hpad]
  have htake : (dst ++ (src ++ rest)).take 6 = dst := List.take_left' hdst
  have hrest : (pad ++ dst ++ src ++ rest).drop 14 = rest :=
    List.drop_left' (by simp [hpad, hdst, hsrc])
  rw [wire, hdrop, htake, hrest, programmedMac_eq]

/-- `IPv4 on ethernet`. -/
theorem bytes32_ipv4_on_ethernet : bytes32 0x00080100 = [0x00, 0x01, 0x08, 0x00] := by decide

theorem bytes32_oper_request : bytes32 0x01000406 = [0x06, 0x04, 0x00, 0x01] := by decide

theorem bytes32_oper_reply : bytes32 0x02000406 = [0x06, 0x04, 0x00, 0x02] := by decide

/-- What `arp_request` sends. -/
theorem wire_arpRequest (n : Node) (ip : BitVec 32) :
    ∃ f, (arpRequest n ip).sent = n.sent ++ [f] ∧
      wire n f = arpMessage (List.replicate 6 0xff) (macBytes n) 1 (macBytes n) n.myaddress
        (List.replicate 6 0) ip := by
  refine ⟨_, rfl, ?_⟩
  rw [read_arpPacket n (by rfl), bytes32_request, bytes32_ipv4_on_ethernet, bytes32_oper_request,
    wire_append n rfl rfl rfl]
  simp [arpMessage, bytes32]

/-- What `arp_reply` sends. -/
theorem wire_arpReply (n : Node) (m : ℕ → Byte) (mac : ℕ) (ip : BitVec 32) :
    ∃ f, (arpReply n m mac ip).sent = n.sent ++ [f] ∧
      wire n f = arpMessage (read m mac 6) (macBytes n) 2 (macBytes n) n.myaddress
        (read m mac 6) ip := by
  refine ⟨_, rfl, ?_⟩
  rw [read_arpPacket n (by simp), bytes32_reply, bytes32_ipv4_on_ethernet, bytes32_oper_reply,
    wire_append n rfl (by simp) rfl]
  simp [arpMessage, bytes32]

/-! ### Parsing -/

/-- A node that has counted an ARP packet and printed a line about it. -/
def Node.heard (n : Node) (line : ArpLine) : Node :=
  { n with apkts := n.apkts + 1, printed := n.printed ++ [line] }

section Parse

variable {ethDst ethSrc sha tha : List Byte} {spa tpa : BitVec 32} {packet : ℕ → Byte}

/-- Where a receiver finds the fields of a message. -/
theorem read_of_received {oper : Byte} (hdst : ethDst.length = 6) (hsrc : ethSrc.length = 6)
    (hsha : sha.length = 6) (htha : tha.length = 6)
    (h : Received (arpMessage ethDst ethSrc oper sha spa tha tpa) packet) :
    read packet 16 4 = [0x00, 0x01, 0x08, 0x00] ∧ read packet 20 4 = [0x06, 0x04, 0x00, oper] ∧
      read packet 24 6 = sha ∧ read packet 30 4 = bytes32 spa ∧ read packet 40 4 = bytes32 tpa := by
  have hlen : (arpMessage ethDst ethSrc oper sha spa tha tpa).length =
      6 + 6 + 10 + 6 + 4 + 6 + 4 := by
    simp [arpMessage, bytes32, hdst, hsrc, hsha, htha]
  rw [Received, hlen] at h
  repeat rw [read_add] at h
  -- take the message apart from its end
  obtain ⟨h, htpa⟩ := List.append_inj' h (by simp [bytes32])
  obtain ⟨h, -⟩ := List.append_inj' h (by simp [htha])
  obtain ⟨h, hspa⟩ := List.append_inj' h (by simp [bytes32])
  obtain ⟨h, hshaEq⟩ := List.append_inj' h (by simp [hsha])
  obtain ⟨-, hfixed⟩ := List.append_inj' h (by simp)
  have hfixed' : read packet 14 2 ++ read packet 16 4 ++ read packet 20 4 =
      [0x08, 0x06] ++ [0x00, 0x01, 0x08, 0x00] ++ [0x06, 0x04, 0x00, oper] := by
    rw [← read_add packet 14 2 4, ← read_add packet 14 6 4]
    exact hfixed
  obtain ⟨h, hoper⟩ := List.append_inj' hfixed' (by simp)
  obtain ⟨-, hproto⟩ := List.append_inj' h (by simp)
  exact ⟨hproto, hoper, hshaEq, hspa, htpa⟩

theorem arpParse_request (n : Node) (hdst : ethDst.length = 6) (hsrc : ethSrc.length = 6)
    (hsha : sha.length = 6) (htha : tha.length = 6)
    (h : Received (arpMessage ethDst ethSrc 1 sha spa tha tpa) packet) :
    arpParse n packet =
      if tpa = n.myaddress then arpReply (n.heard (.whoIs tpa spa sha)) packet 24 spa
      else n.heard (.whoIs tpa spa sha) := by
  obtain ⟨hproto, hoper, hmac, hspa, htpa⟩ := read_of_received hdst hsrc hsha htha h
  rw [← bytes32_ipv4_on_ethernet] at hproto
  rw [← bytes32_oper_request] at hoper
  have hsender := load16_or_load16 packet 30
  rw [load32_of_read hspa] at hsender
  simp only [arpParse, load32_of_read hproto, load32_of_read hoper, load32_of_read htpa, hmac,
    hsender, and_self, if_true, Node.heard]

theorem arpParse_response (n : Node) (hdst : ethDst.length = 6) (hsrc : ethSrc.length = 6)
    (hsha : sha.length = 6) (htha : tha.length = 6)
    (h : Received (arpMessage ethDst ethSrc 2 sha spa tha tpa) packet) :
    arpParse n packet = n.heard (.response spa sha) := by
  obtain ⟨hproto, hoper, hmac, hspa, -⟩ := read_of_received hdst hsrc hsha htha h
  rw [← bytes32_ipv4_on_ethernet] at hproto
  rw [← bytes32_oper_reply] at hoper
  have hsender := load16_or_load16 packet 30
  rw [load32_of_read hspa] at hsender
  have hne : ¬ (0x02000406 : BitVec 32) = 0x01000406 := by decide
  simp only [arpParse, load32_of_read hproto, load32_of_read hoper, hmac, hsender, hne, and_false,
    and_self, if_false, if_true, Node.heard]

end Parse

/-- **An ARP exchange.** The request of node `a` for the address `q` tells node `b` who asks for
what; `b` sends a frame exactly if `q` is its address, namely the 42 bytes of the reply of
RFC 826 to `a`; and from these `a` takes the IP address and the Ethernet address of `b`.  The
Ethernet addresses in both messages are those that the nodes have programmed into their MACs. -/
theorem arp_exchange (a b : Node) (q : BitVec 32) :
    ∃ f, (arpRequest a q).sent = a.sent ++ [f] ∧
      wire a f = arpMessage (List.replicate 6 0xff) (programmedMac a) 1 (programmedMac a)
        a.myaddress (List.replicate 6 0) q ∧
      macBytes a = programmedMac a ∧ macBytes b = programmedMac b ∧
      ∀ packet, Received (wire a f) packet →
        (arpParse b packet).printed = b.printed ++ [.whoIs q a.myaddress (macBytes a)] ∧
        ((arpParse b packet).sent ≠ b.sent ↔ q = b.myaddress) ∧
        (q = b.myaddress → ∃ g, (arpParse b packet).sent = b.sent ++ [g] ∧
          wire b g = arpMessage (macBytes a) (programmedMac b) 2 (macBytes b) b.myaddress
            (macBytes a) a.myaddress ∧
          (wire b g).length = 42 ∧
          ∀ packet', Received (wire b g) packet' →
            (arpParse (arpRequest a q) packet').printed =
              a.printed ++ [.response b.myaddress (macBytes b)]) := by
  obtain ⟨f, hsent, hwire⟩ := wire_arpRequest a q
  refine ⟨f, hsent, ?_, (programmedMac_eq a).symm, (programmedMac_eq b).symm, fun packet hp => ?_⟩
  · rw [hwire, programmedMac_eq]
  · rw [hwire] at hp
    have hparse := arpParse_request b rfl rfl rfl rfl hp
    have hmac : read packet 24 6 = macBytes a := (read_of_received rfl rfl rfl rfl hp).2.2.1
    by_cases hq : q = b.myaddress
    · rw [if_pos hq] at hparse
      obtain ⟨g, hg, hwg⟩ :=
        wire_arpReply (b.heard (.whoIs q a.myaddress (macBytes a))) packet 24 a.myaddress
      rw [hmac] at hwg
      refine ⟨by rw [hparse]; rfl, ⟨fun _ => hq, fun _ => ?_⟩, fun _ => ⟨g, ?_, ?_, ?_, ?_⟩⟩
      · rw [hparse, hg]
        simp [Node.heard]
      · rw [hparse, hg]
        rfl
      · rw [programmedMac_eq]
        exact hwg
      · rw [show wire b g = _ from hwg]
        rfl
      · intro packet' hp'
        rw [show wire b g = _ from hwg] at hp'
        rw [arpParse_response (arpRequest a q) rfl rfl rfl rfl hp']
        rfl
    · rw [if_neg hq] at hparse
      refine ⟨by rw [hparse]; rfl, ⟨fun hne => absurd ?_ hne, fun h => absurd h hq⟩,
        fun h => absurd h hq⟩
      rw [hparse]
      rfl

end Raw
