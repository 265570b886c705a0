import Teensy3.Lib.ByteMem
import Teensy3.Lib.Run

/-!
# The ARP cache of lwIP

`etharp.c`, as `lwipopts.h` configures it: a table of ten entries with one waiting packet each, no
static entries, and one cached index for all connections.  Addresses are the words that the code
has, with their bytes in network order.

* `isBroadcast`, `isMulticast`, `isLinkLocal`, `netcmp`: the kinds of addresses;
* `EtharpHdr`: the ARP message and its bytes;
* `Host`: an interface with its table, and what went out, was freed and was passed up;
* `findEntry`, `updateArpEntry`, `etharpTmr`: the table;
* `etharpArpInput`, `ethernetInput`, `etharpQuery`, `etharpOutput`: the operations;
* `Event`, `Host.step`: a host and whatever happens to it.
-/

namespace Lwip
namespace Etharp

open ByteMem

/-- `ip_addr_t`. -/
abbrev IpAddr := BitVec 32

/-- `struct eth_addr`. -/
structure EthAddr where
  a0 : Byte
  a1 : Byte
  a2 : Byte
  a3 : Byte
  a4 : Byte
  a5 : Byte
  deriving DecidableEq

def EthAddr.bytes (e : EthAddr) : List Byte := [e.a0, e.a1, e.a2, e.a3, e.a4, e.a5]

def ethbroadcast : EthAddr := ⟨0xff, 0xff, 0xff, 0xff, 0xff, 0xff⟩

def ethzero : EthAddr := ⟨0, 0, 0, 0, 0, 0⟩

/-- What `etharp.c` reads of a `struct netif`; the flags are `NETIF_FLAG_BROADCAST` and
`NETIF_FLAG_ETHARP`. -/
structure Netif where
  ipAddr : IpAddr
  netmask : IpAddr
  gw : IpAddr
  hwaddr : EthAddr
  broadcast : Bool
  etharp : Bool

/-! ### Addresses -/

def isAny (a : IpAddr) : Bool := a == 0

def netcmp (a b mask : IpAddr) : Bool := a &&& mask == b &&& mask

def isMulticast (a : IpAddr) : Bool := a &&& bswap32 0xf0000000 == bswap32 0xe0000000

def isLinkLocal (a : IpAddr) : Bool := a &&& bswap32 0xffff0000 == bswap32 0xa9fe0000

/-- `ip4_addr_isbroadcast`. -/
def isBroadcast (a : IpAddr) (netif : Netif) : Bool :=
  if ~~~a = 0 ∨ a = 0 then true
  else if netif.broadcast = false then false
  else if a = netif.ipAddr then false
  else netcmp a netif.ipAddr netif.netmask &&
    a &&& ~~~netif.netmask == 0xffffffff &&& ~~~netif.netmask

/-- An address that can be in the table. -/
def isUnicast (a : IpAddr) (netif : Netif) : Bool :=
  !(isAny a || isBroadcast a netif || isMulticast a)

/-! ### Frames -/

/-- `struct eth_hdr`, with what follows it.  The type is as it stands in memory. -/
structure EthFrame where
  dest : EthAddr
  src : EthAddr
  type : BitVec 16
  payload : List Byte
  deriving DecidableEq

def ethtypeArp : BitVec 16 := bswap16 0x0806

def ethtypeIp : BitVec 16 := bswap16 0x0800

/-- `struct etharp_hdr`, with the numbers as they stand in memory. -/
structure EtharpHdr where
  hwtype : BitVec 16
  proto : BitVec 16
  hwlen : Byte
  protolen : Byte
  opcode : BitVec 16
  shwaddr : EthAddr
  sipaddr : IpAddr
  dhwaddr : EthAddr
  dipaddr : IpAddr
  deriving DecidableEq

def sizeofEtharpHdr : ℕ := 28

def hwtypeEthernet : BitVec 16 := bswap16 1

def arpRequest : BitVec 16 := bswap16 1

def arpReply : BitVec 16 := bswap16 2

def bytes16 (v : BitVec 16) : List Byte := [byteOf v 0, byteOf v 1]

def EtharpHdr.bytes (h : EtharpHdr) : List Byte :=
  bytes16 h.hwtype ++ bytes16 h.proto ++ [h.hwlen, h.protolen] ++ bytes16 h.opcode ++
    h.shwaddr.bytes ++ bytes32 h.sipaddr ++ h.dhwaddr.bytes ++ bytes32 h.dipaddr

def ethAt (m : ℕ → Byte) (a : ℕ) : EthAddr :=
  ⟨m a, m (a + 1), m (a + 2), m (a + 3), m (a + 4), m (a + 5)⟩

/-- The header at the beginning of a payload. -/
def EtharpHdr.ofBytes (p : List Byte) : EtharpHdr :=
  let m := fun i => p.getD i 0
  ⟨load16 m 0, load16 m 2, m 4, m 5, load16 m 6, ethAt m 8, load32 m 14, ethAt m 18, load32 m 24⟩

/-- The message is for an Ethernet and for IP. -/
def EtharpHdr.valid (hdr : EtharpHdr) : Bool :=
  hdr.hwtype == hwtypeEthernet && hdr.hwlen == 6 && hdr.protolen == 4 && hdr.proto == ethtypeIp

@[simp] theorem EtharpHdr.length_bytes (h : EtharpHdr) : h.bytes.length = sizeofEtharpHdr := rfl

/-- What is written is read back, whatever follows. -/
theorem EtharpHdr.ofBytes_bytes (h : EtharpHdr) (rest : List Byte) :
    EtharpHdr.ofBytes (h.bytes ++ rest) = h := by
  have h16 : ∀ v : BitVec 16, byteOf v 1 ++ byteOf v 0 = v := by
    intro v
    apply eq_of_byteOf16
    · exact byteOf_append_zero _ _
    · exact (byteOf_append_succ _ _ 0).trans (byteOf_self _)
  have h32 : ∀ v : BitVec 32, byteOf v 3 ++ byteOf v 2 ++ byteOf v 1 ++ byteOf v 0 = v := by
    intro v
    apply eq_of_byteOf32
    · exact byteOf_append_zero _ _
    · exact (byteOf_append_succ _ _ 0).trans (byteOf_append_zero _ _)
    · exact (byteOf_append_succ _ _ 1).trans ((byteOf_append_succ _ _ 0).trans (byteOf_append_zero _ _))
    · exact (byteOf_append_succ _ _ 2).trans ((byteOf_append_succ _ _ 1).trans
        ((byteOf_append_succ _ _ 0).trans (byteOf_self _)))
  rcases h with ⟨hwtype, proto, hwlen, protolen, opcode, shwaddr, sipaddr, dhwaddr, dipaddr⟩
  change EtharpHdr.mk _ _ _ _ _ _ _ _ _ = _
  congr 1
  · exact h16 hwtype
  · exact h16 proto
  · exact h16 opcode
  · exact h32 sipaddr
  · exact h32 dipaddr

/-! ### The host -/

inductive EntryState
  | empty
  | pending
  | stable
  deriving DecidableEq

/-- `struct etharp_entry`; `q` is the packet that waits on it. -/
structure Entry where
  q : Option (List Byte)
  ipaddr : IpAddr
  ethaddr : EthAddr
  state : EntryState
  ctime : ℕ

def arpTableSize : ℕ := 10

def arpMaxage : ℕ := 240

def arpMaxpending : ℕ := 2

/-- What is given to `linkoutput`: IP packets for a neighbour, which the table has the address of,
those for several hosts, and ARP messages. -/
inductive Sent
  | ip (ipaddr : IpAddr) (dest : EthAddr) (data : List Byte)
  | cast (dest : EthAddr) (data : List Byte)
  | arp (frame : EthFrame)
  deriving DecidableEq

/-- An interface with the table `arp_table` and `etharp_cached_entry`.  The rest records what went
out, which waiting packets were freed, with the address they waited for, and what was passed up. -/
structure Host where
  netif : Netif
  arpTable : Fin arpTableSize → Entry
  etharpCachedEntry : Fin arpTableSize
  sent : List Sent
  freed : List (IpAddr × List Byte)
  toIp : List (List Byte)

inductive Err
  | ok
  | mem
  | buf
  | rte
  | arg
  deriving DecidableEq

namespace Host

def setEntry (h : Host) (i : Fin arpTableSize) (e : Entry) : Host :=
  { h with arpTable := Function.update h.arpTable i e }

def emit (h : Host) (s : Sent) : Host := { h with sent := h.sent ++ [s] }

/-- `free_entry`.  The addresses stay where they are. -/
def freeEntry (h : Host) (i : Fin arpTableSize) : Host :=
  let e := h.arpTable i
  { h.setEntry i { e with q := none, state := .empty } with
    freed := h.freed ++ (e.q.map fun p => (e.ipaddr, p)).toList }

/-- One turn of the loop of `etharp_tmr`. -/
def tick (h : Host) (i : Fin arpTableSize) : Host :=
  if (h.arpTable i).state = .empty then h
  else
    let e := { h.arpTable i with ctime := ((h.arpTable i).ctime + 1) % 2 ^ 8 }
    let h := h.setEntry i e
    if arpMaxage ≤ e.ctime ∨ e.state = .pending ∧ arpMaxpending ≤ e.ctime then h.freeEntry i else h

def etharpTmr (h : Host) : Host := (List.finRange arpTableSize).foldl tick h

end Host

/-! ### `find_entry` -/

/-- The entries that a new one could be made of, with their ages. -/
structure Candidates where
  empty : Option (Fin arpTableSize)
  oldStable : Option (Fin arpTableSize)
  oldPending : Option (Fin arpTableSize)
  oldQueue : Option (Fin arpTableSize)
  ageStable : ℕ
  agePending : ℕ
  ageQueue : ℕ

def Candidates.none : Candidates := ⟨.none, .none, .none, .none, 0, 0, 0⟩

/-- What the loop remembers of an entry that does not match. -/
def Candidates.look (c : Candidates) (i : Fin arpTableSize) (e : Entry) : Candidates :=
  match e.state with
  | .empty => if c.empty = .none then { c with empty := some i } else c
  | .pending =>
    if e.q ≠ .none then
      if c.ageQueue ≤ e.ctime then { c with oldQueue := some i, ageQueue := e.ctime } else c
    else if c.agePending ≤ e.ctime then { c with oldPending := some i, agePending := e.ctime }
    else c
  | .stable =>
    if c.ageStable ≤ e.ctime then { c with oldStable := some i, ageStable := e.ctime } else c

/-- The loop: the entry with the address, or the candidates. -/
def sweep (table : Fin arpTableSize → Entry) (ipaddr : IpAddr) :
    List (Fin arpTableSize) → Candidates → Fin arpTableSize ⊕ Candidates
  | [], c => .inr c
  | i :: is, c =>
    if (table i).state ≠ .empty ∧ (table i).ipaddr = ipaddr then .inl i
    else sweep table ipaddr is (c.look i (table i))

/-- The entry to be recycled, if there is no empty one. -/
def Candidates.victim (c : Candidates) : Option (Fin arpTableSize) :=
  (c.oldStable.or c.oldPending).or c.oldQueue

namespace Host

/-- A new entry for the address. -/
def claim (h : Host) (ipaddr : IpAddr) (i : Fin arpTableSize) : Host :=
  h.setEntry i { h.arpTable i with ipaddr := ipaddr, ctime := 0 }

/-- `find_entry`, with the flags `ETHARP_FLAG_TRY_HARD` and `ETHARP_FLAG_FIND_ONLY`.  The callers
give an address. -/
def findEntry (h : Host) (ipaddr : IpAddr) (tryHard findOnly : Bool) :
    Option (Fin arpTableSize) × Host :=
  match sweep h.arpTable ipaddr (List.finRange arpTableSize) .none with
  | .inl i => (some i, h)
  | .inr c =>
    if findOnly = true ∨ c.empty = none ∧ tryHard = false then (none, h)
    else
      match c.empty with
      | some i => (some i, h.claim ipaddr i)
      | none =>
        match c.victim with
        | some i => (some i, (h.freeEntry i).claim ipaddr i)
        | none => (none, h)

/-! ### Messages that come in -/

/-- `update_arp_entry`, with `ETHARP_FLAG_TRY_HARD` or else `ETHARP_FLAG_FIND_ONLY`. -/
def updateArpEntry (h : Host) (ipaddr : IpAddr) (ethaddr : EthAddr) (tryHard : Bool) : Host :=
  if isAny ipaddr || isBroadcast ipaddr h.netif || isMulticast ipaddr then h
  else
    match h.findEntry ipaddr tryHard (!tryHard) with
    | (none, h) => h
    | (some i, h) =>
      let e := h.arpTable i
      let h := h.setEntry i { e with state := .stable, ethaddr := ethaddr, ctime := 0, q := none }
      match e.q with
      | none => h
      | some p => h.emit (.ip e.ipaddr ethaddr p)

/-- The message in place is made the reply. -/
def reply (h : Host) (frame : EthFrame) : EthFrame :=
  let hdr := EtharpHdr.ofBytes frame.payload
  let hdr := { hdr with
    opcode := arpReply
    dipaddr := hdr.sipaddr
    sipaddr := h.netif.ipAddr
    dhwaddr := hdr.shwaddr
    shwaddr := h.netif.hwaddr }
  { frame with
    dest := hdr.dhwaddr
    src := h.netif.hwaddr
    payload := hdr.bytes ++ frame.payload.drop sizeofEtharpHdr }

/-- `etharp_arp_input`. -/
def etharpArpInput (h : Host) (frame : EthFrame) : Host :=
  let hdr := EtharpHdr.ofBytes frame.payload
  if frame.payload.length < sizeofEtharpHdr then h
  else if hdr.valid = false then h
  else
    let forUs := !isAny h.netif.ipAddr && hdr.dipaddr == h.netif.ipAddr
    let h := h.updateArpEntry hdr.sipaddr hdr.shwaddr forUs
    if hdr.opcode = arpRequest ∧ forUs = true then h.emit (.arp (h.reply frame)) else h

/-- `ethernet_input`: a frame of one pbuf. -/
def ethernetInput (h : Host) (frame : EthFrame) : Host :=
  if frame.payload = [] then h
  else if frame.type = ethtypeIp then
    if h.netif.etharp then { h with toIp := h.toIp ++ [frame.payload] } else h
  else if frame.type = ethtypeArp then
    if h.netif.etharp then h.etharpArpInput frame else h
  else h

/-! ### Packets that go out -/

/-- `etharp_raw`, up to the header it sends; `alloc` says whether there is a pbuf for it. -/
def etharpRaw (h : Host) (ethdst : EthAddr) (hdr : EtharpHdr) (alloc : Bool) : Err × Host :=
  if alloc then (.ok, h.emit (.arp ⟨ethdst, h.netif.hwaddr, ethtypeArp, hdr.bytes⟩)) else (.mem, h)

/-- `etharp_request`. -/
def etharpRequest (h : Host) (ipaddr : IpAddr) (alloc : Bool) : Err × Host :=
  h.etharpRaw ethbroadcast
    ⟨hwtypeEthernet, ethtypeIp, 6, 4, arpRequest, h.netif.hwaddr, h.netif.ipAddr, ethzero, ipaddr⟩ alloc

end Host

/-- A pbuf of a packet: whether it is a `PBUF_ROM`, and its bytes. -/
structure Pbuf where
  rom : Bool
  data : List Byte

def chainBytes (q : List Pbuf) : List Byte := (q.map Pbuf.data).flatten

/-- The packet that is to wait.  If all of it is read-only it is referenced, else it is copied; the
copy is as long as the packet from its first writable pbuf on, and `pbuf_copy` fails if that is too
short. -/
def takeOver (q : List Pbuf) (alloc : Bool) : Option (List Byte) :=
  match q.dropWhile Pbuf.rom with
  | [] => some (chainBytes q)
  | rest =>
    if alloc = true ∧ (chainBytes q).length ≤ (chainBytes rest).length then some (chainBytes q)
    else none

/-- Which allocations succeed: that of a request, and that of a copy. -/
structure Alloc where
  request : Bool
  copy : Bool

namespace Host

/-- The end of `etharp_query`, for a packet and the entry `i`. -/
def queryPacket (h : Host) (i : Fin arpTableSize) (q : List Pbuf) (alloc : Bool) : Err × Host :=
  let e := h.arpTable i
  if e.state = .stable then
    (.ok, { h with etharpCachedEntry := i }.emit (.ip e.ipaddr e.ethaddr (chainBytes q)))
  else
    match takeOver q alloc with
    | some p =>
      (.ok, { h.setEntry i { e with q := some p } with
        freed := h.freed ++ (e.q.map fun p => (e.ipaddr, p)).toList })
    | none => (.mem, h)

/-- `etharp_query`. -/
def etharpQuery (h : Host) (ipaddr : IpAddr) (q : Option (List Pbuf)) (alloc : Alloc) : Err × Host :=
  if isBroadcast ipaddr h.netif || isMulticast ipaddr || isAny ipaddr then (.arg, h)
  else
    match h.findEntry ipaddr true false with
    | (none, h) => (.mem, h)
    | (some i, h) =>
      let e := h.arpTable i
      let h := if e.state = .empty then h.setEntry i { e with state := .pending } else h
      match q with
      | none => h.etharpRequest ipaddr alloc.request
      | some q =>
        let h := if (h.arpTable i).state = .pending then (h.etharpRequest ipaddr alloc.request).2 else h
        h.queryPacket i q alloc.copy

/-- The neighbour that a packet for a unicast address goes to. -/
def nextHop (netif : Netif) (ipaddr : IpAddr) : Option IpAddr :=
  if netcmp ipaddr netif.ipAddr netif.netmask = false ∧ isLinkLocal ipaddr = false then
    if isAny netif.gw then none else some netif.gw
  else some ipaddr

/-- The Ethernet address for a multicast address. -/
def multicastAddr (ipaddr : IpAddr) : EthAddr :=
  ⟨0x01, 0x00, 0x5e, byteOf ipaddr 1 &&& 0x7f, byteOf ipaddr 2, byteOf ipaddr 3⟩

/-- `etharp_output`; `room` says whether `pbuf_header` finds room for the header. -/
def etharpOutput (h : Host) (q : List Pbuf) (ipaddr : IpAddr) (room : Bool) (alloc : Alloc) :
    Err × Host :=
  if room = false then (.buf, h)
  else if isBroadcast ipaddr h.netif then (.ok, h.emit (.cast ethbroadcast (chainBytes q)))
  else if isMulticast ipaddr then (.ok, h.emit (.cast (multicastAddr ipaddr) (chainBytes q)))
  else
    match nextHop h.netif ipaddr with
    | none => (.rte, h)
    | some ipaddr =>
      let e := h.arpTable h.etharpCachedEntry
      if e.state = .stable ∧ ipaddr = e.ipaddr then
        (.ok, h.emit (.ip e.ipaddr e.ethaddr (chainBytes q)))
      else h.etharpQuery ipaddr (some q) alloc

end Host

/-! ### Runs -/

/-- What can happen to a host.  `configure` is a change of its addresses. -/
inductive Event
  | output (q : List Pbuf) (ipaddr : IpAddr) (room : Bool) (alloc : Alloc)
  | query (ipaddr : IpAddr) (q : Option (List Pbuf)) (alloc : Alloc)
  | request (ipaddr : IpAddr) (alloc : Bool)
  | tmr
  | input (frame : EthFrame)
  | configure (ipAddr netmask gw : IpAddr)

namespace Host

def step (h : Host) : Event → Host
  | .output q ipaddr room alloc => (h.etharpOutput q ipaddr room alloc).2
  | .query ipaddr q alloc => (h.etharpQuery ipaddr q alloc).2
  | .request ipaddr alloc => (h.etharpRequest ipaddr alloc).2
  | .tmr => h.etharpTmr
  | .input frame => h.ethernetInput frame
  | .configure ipAddr netmask gw =>
    { h with netif := { h.netif with ipAddr := ipAddr, netmask := netmask, gw := gw } }

/-- A host after power-up: the table is all zero. -/
def boot (netif : Netif) : Host :=
  ⟨netif, fun _ => ⟨none, 0, ethzero, .empty, 0⟩, ⟨0, by decide⟩, [], [], []⟩

end Host

end Etharp
end Lwip
