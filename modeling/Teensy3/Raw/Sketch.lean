import Mathlib.Tactic
import Teensy3.Lib.ByteMem
import Teensy3.Raw.Checksum

/-!
# The raw Ethernet sketch

`etherraw.ino` writes and reads whole frames by hand.  A packet is a memory with 2 bytes of
padding before the Ethernet header, so that in the source `p32[i]` is the word at address `4 * i`,
`p8[i]` the byte at `2 + i` and `p16[i]` the half-word at `2 + 2 * i`; words are little-endian, and
an `IPAddress` is the word that has the four bytes of the address in memory order.

The `Node` has the global variables of the sketch, the frames that it has passed to `outgoing`
(what becomes of them there is the subject of `Enet.TxRing`), and the ARP lines that it has
printed.
-/

namespace Raw

open ByteMem

/-- A line that `arp_parse` prints: who asks for which address, or who answered. -/
inductive ArpLine
  | whoIs (target sender : BitVec 32) (mac : List Byte)
  | response (sender : BitVec 32) (mac : List Byte)
  deriving DecidableEq

structure Node where
  myaddress : BitVec 32
  /-- The macros `MACADDR1` and `MACADDR2`. -/
  macaddr1 : BitVec 24
  macaddr2 : BitVec 24
  prefab : ℕ → Byte
  udpBuff : ℕ → Byte
  udpLth : ℕ
  inpkts : BitVec 32
  outpkts : BitVec 32
  apkts : BitVec 32
  tpkts : BitVec 32
  ipkts : BitVec 32
  ippkts : BitVec 32
  bcast : BitVec 32
  mcast : BitVec 32
  sent : List (List Byte)
  printed : List ArpLine

/-- The initial contents of `prefab`, up to its zeros. -/
def prefabTemplate : List Byte :=
  [0, 0,
   0x00, 0x13, 0x20, 0x2E, 0x53, 0x90, 0x00, 0x13, 0x20, 0x2E, 0x53, 0x90, 0x08, 0x00,
   0x45, 0x00, 0x00, 0x24, 0x3A, 0x0F, 0x40, 0x00, 0x40, 0x11, 0x7D, 0x54,
   0xC0, 0xA8, 0x01, 0x11, 0xC0, 0xA8, 0x01, 0x04,
   0x1D, 0xE6, 0xCB, 0x83, 0x00, 0x10, 0x97, 0x4D, 0x09, 0x00, 0x00, 0x00, 0x67, 0x45]

def prefabInit : ℕ → Byte := fun i => prefabTemplate.getD i 0

/-- A node at its start. -/
def nodeInit (myaddress : BitVec 32) (macaddr1 macaddr2 : BitVec 24) : Node where
  myaddress := myaddress
  macaddr1 := macaddr1
  macaddr2 := macaddr2
  prefab := prefabInit
  udpBuff := fun _ => 0
  udpLth := 0
  inpkts := 0
  outpkts := 0
  apkts := 0
  tpkts := 0
  ipkts := 0
  ippkts := 0
  bcast := 0
  mcast := 0
  sent := []
  printed := []

/-- Pass the first `len` bytes of a packet to the driver. -/
def outgoing (n : Node) (packet : ℕ → Byte) (len : ℕ) : Node :=
  { n with outpkts := n.outpkts + 1, sent := n.sent ++ [read packet 0 len] }

/-! ### ARP -/

/-- What `arp_request` and `arp_reply` have in common: an ARP packet to the Ethernet address
`dst`, with the words 5, 8, 9 and 10 given.  Every byte of the 44 is written. -/
def arpPacket (n : Node) (dst : List Byte) (w5 w8 w9 w10 : BitVec 32) : ℕ → Byte :=
  let m := store32 (fun _ => 0) 0 0
  let m := blit m 2 dst
  let m := blit m 8 (List.replicate 6 0)
  let m := store8 m 14 8
  let m := store8 m 15 6
  let m := store32 m 16 0x00080100
  let m := store32 m 20 w5
  let m := store32 m 24
    (bswap32 (n.macaddr1.setWidth 32) >>> 8 ||| (n.macaddr2.setWidth 32 <<< 8 &&& 0xFF000000))
  let m := store32 m 28
    ((bswap16 (n.macaddr2.setWidth 16)).setWidth 32 ||| n.myaddress <<< 16)
  let m := store32 m 32 w8
  let m := store32 m 36 w9
  store32 m 40 w10

def arpRequest (n : Node) (ip : BitVec 32) : Node :=
  outgoing n
    (arpPacket n (List.replicate 6 0xff) 0x01000406 ((n.myaddress &&& 0xFFFF0000) >>> 16) 0 ip) 44

/-- `arp_reply`, where `mac` is the address of 6 bytes of the memory `m`. -/
def arpReply (n : Node) (m : ℕ → Byte) (mac : ℕ) (ip : BitVec 32) : Node :=
  let b (i : ℕ) : BitVec 32 := (m (mac + i)).setWidth 32
  outgoing n
    (arpPacket n (read m mac 6) 0x02000406
      ((n.myaddress &&& 0xFFFF0000) >>> 16 ||| b 0 <<< 16 ||| b 1 <<< 24)
      (b 5 <<< 24 ||| b 4 <<< 16 ||| b 3 <<< 8 ||| b 2) ip) 44

def arpParse (n : Node) (packet : ℕ → Byte) : Node :=
  let n := { n with apkts := n.apkts + 1 }
  let sender := (load16 packet 32).setWidth 32 <<< 16 ||| (load16 packet 30).setWidth 32
  let mac := read packet 24 6
  if load32 packet 16 = 0x00080100 ∧ load32 packet 20 = 0x01000406 then
    let target := load32 packet 40
    let n := { n with printed := n.printed ++ [.whoIs target sender mac] }
    if target = n.myaddress then arpReply n packet 24 sender else n
  else if load32 packet 16 = 0x00080100 ∧ load32 packet 20 = 0x02000406 then
    { n with printed := n.printed ++ [.response sender mac] }
  else n

/-- The value that `setup` gives to `ENET_PALR`. -/
def enetPalr (n : Node) : BitVec 32 :=
  n.macaddr1.setWidth 32 <<< 8 ||| (n.macaddr2.setWidth 32 >>> 16 &&& 255)

/-- The value that `setup` gives to `ENET_PAUR`. -/
def enetPaur (n : Node) : BitVec 32 := (n.macaddr2.setWidth 32 <<< 16 &&& 0xFFFF0000) ||| 0x8808

/-! ### Incoming frames -/

def pingReply (n : Node) (recv : ℕ → Byte) (len : ℕ) : Node :=
  if 1024 < len then n
  else
    let m := blit (fun _ => 0) 0 (read recv 0 len)
    let m := blit m 2 (read m 8 6)
    let m := store32 m 32 (load32 m 28)
    let m := store32 m 28 n.myaddress
    let m := store8 m 36 0
    outgoing n m len

def handleFrame (n : Node) (packet : ℕ → Byte) (len : ℕ) : Node :=
  let type := load16 packet 14
  let n :=
    { n with
      inpkts := n.inpkts + 1
      bcast := if packet 2 = 0xff then n.bcast + 1 else n.bcast
      mcast := if packet 2 = 1 then n.mcast + 1 else n.mcast }
  if type = 0x0008 then
    let n := { n with ippkts := n.ippkts + 1 }
    let dst := load32 packet 32
    if packet 25 = 1 ∧ dst = n.myaddress then
      let n := { n with ipkts := n.ipkts + 1 }
      if packet 36 = 8 then pingReply n packet len else n
    else if packet 25 = 17 ∧ dst = n.myaddress then
      { n with udpBuff := blit n.udpBuff 0 (read packet 0 len), udpLth := len }
    else if packet 25 = 6 ∧ dst = n.myaddress then { n with tpkts := n.tpkts + 1 }
    else n
  else if type = 0x0608 then arpParse n packet
  else n

/-- `recvfrom`: its result, the bytes that it writes to `packet`, and the node after it.  The
length is an `int`, which `memcpy` takes for a `size_t`. -/
def recvfrom (n : Node) : ℤ × List Byte × Node :=
  let lth : ℤ := (bswap16 (load16 n.udpBuff 40)).toNat - 8
  (lth, read n.udpBuff 44 (lth % 2 ^ 32).toNat, { n with udpLth := 0 })

/-! ### Outgoing UDP packets -/

section Send

-- whether the sketch is compiled with `SW_UDP_CHKSUM`
variable (swUdpChksum : Bool)

/-- The part that `udp_blast` and `sendto` have in common: lengths and checksums. -/
def finishHeader (m : ℕ → Byte) (udplth : ℕ) : ℕ → Byte :=
  let iplth := 20 + udplth
  let m := store16 m 40 (bswap16 (.ofNat 16 udplth))
  let m := store16 m 18 (bswap16 (.ofNat 16 iplth))
  let m := store16 m 26 0
  let m := store16 m 42 0
  let m := store16 m 26 (inetChksum m 16 20)
  if swUdpChksum then
    let m := store16 m 42
      (inetChksumPseudo m 36 (load32 m 28) (load32 m 32) 17 (.ofNat 16 udplth))
    if load16 m 42 = 0 then store16 m 42 0xffff else m
  else m

/-- The `for` loop of `udp_blast` from packet `i` on, with `k` packets to go. -/
def blastLoop (pktlth : ℕ) : (i k : ℕ) → Node → Node
  | _, 0, n => n
  | i, k + 1, n =>
    let n := { n with prefab := store32 n.prefab 44 (bswap32 (.ofNat 32 i)) }
    blastLoop pktlth (i + 1) k (outgoing n n.prefab pktlth)

def udpBlast (n : Node) (pkts bytes : ℕ) : Node :=
  let udplth := bytes + 8
  let pktlth := 14 + 2 + (20 + udplth)
  let m := store16 n.prefab 38 (bswap16 2000)
  blastLoop pktlth 0 pkts { n with prefab := finishHeader swUdpChksum m udplth }

/-- `sendto(packet, bytes, sport, dest, dport)`, where `packet` has the `bytes` bytes; `dest` is
not used. -/
def sendto (n : Node) (packet : List Byte) (sport _dest dport : BitVec 32) : Node :=
  let m := blit n.prefab 44 packet
  let udplth := packet.length + 8
  let pktlth := 14 + 2 + (20 + udplth)
  let m := store16 m 36 (bswap16 (sport.setWidth 16))
  let m := store16 m 38 (bswap16 (dport.setWidth 16))
  let n := { n with prefab := finishHeader swUdpChksum m udplth }
  outgoing n n.prefab pktlth

end Send

end Raw
