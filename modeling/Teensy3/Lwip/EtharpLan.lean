import Teensy3.Lwip.EtharpRun

/-!
# Hosts on one Ethernet

Any number of hosts with ARP caches, on a network that may lose, duplicate, delay and reorder frames
and may show every frame to every host.  Other stations may send what they like, as long as an ARP
message does not name a wrong hardware address.

* `Sent.frame`: what is on the wire;
* `Lan.step`: an event at a host, or the arrival of a frame;
* `lan_run`: no packet for a neighbour goes to another station;
* `answered`: a request and its answer resolve the address, and the packet that waited goes out.
-/

namespace Lwip
namespace Etharp

open ByteMem Function

/-- The frame on the wire. -/
def Sent.frame (netif : Netif) : Sent → EthFrame
  | .ip _ dest data => ⟨dest, netif.hwaddr, ethtypeIp, data⟩
  | .cast dest data => ⟨dest, netif.hwaddr, ethtypeIp, data⟩
  | .arp frame => frame

/-- All hosts. -/
abbrev Lan (ι : Type) := ι → Host

/-- An event at one host, or the arrival at `j` of frame number `k` that `i` has sent. -/
inductive LanEvent (ι : Type)
  | own (i : ι) (e : Event)
  | deliver (i : ι) (k : ℕ) (j : ι)

section Lan

variable {ι : Type} [DecidableEq ι]

def Lan.step (s : Lan ι) : LanEvent ι → Lan ι
  | .own i e => update s i ((s i).step e)
  | .deliver i k j =>
    match (s i).sent[k]? with
    | none => s
    | some x => update s j ((s j).step (.input (x.frame (s i).netif)))

/-- An ARP message that names the hardware address which its sender's address belongs to. -/
def Honest (owner : IpAddr → EthAddr) (frame : EthFrame) : Prop :=
  let hdr := EtharpHdr.ofBytes frame.payload
  frame.type = ethtypeArp → hdr.sipaddr ≠ 0 → hdr.shwaddr = owner hdr.sipaddr

/-- An interface with an address that belongs to it, or with none. -/
def Netif.Owns (owner : IpAddr → EthAddr) (netif : Netif) : Prop :=
  netif.ipAddr = 0 ∨ owner netif.ipAddr = netif.hwaddr

/-- The condition on an event: a host is given an address that belongs to it, and frames of other
stations are honest. -/
def Lan.Allows (owner : IpAddr → EthAddr) (s : Lan ι) : LanEvent ι → Prop
  | .own i (.configure ipAddr _ _) => ipAddr = 0 ∨ owner ipAddr = (s i).netif.hwaddr
  | .own _ (.input frame) => Honest owner frame
  | _ => True

/-- A host that has been told no wrong address, and has sent nothing to one. -/
structure Trusted (owner : IpAddr → EthAddr) (h : Host) : Prop where
  owns : h.netif.Owns owner
  heard : ∃ a, Follows h a ∧ ∀ ipaddr dest n, a.told ipaddr = some (dest, n) → dest = owner ipaddr
  sent : ∀ s ∈ h.sent, Honest owner (s.frame h.netif) ∧
    ∀ ipaddr dest data, s = .ip ipaddr dest data → dest = owner ipaddr

variable {owner : IpAddr → EthAddr}

/-- What is told by honest frames. -/
theorem told_step {a : Heard} (h : ∀ ipaddr dest n, a.told ipaddr = some (dest, n) → dest = owner ipaddr)
    {e : Event} (he : ∀ frame, e = .input frame → Honest owner frame) :
    ∀ ipaddr dest n, (a.step e).told ipaddr = some (dest, n) → dest = owner ipaddr := by
  intro ipaddr dest n htold
  cases e with
  | output q ip room alloc => exact h ipaddr dest n htold
  | query ip q alloc => exact h ipaddr dest n htold
  | request ip alloc => exact h ipaddr dest n htold
  | configure ip mask gw => exact h ipaddr dest n htold
  | tmr =>
    change (a.told ipaddr).map (fun x => (x.1, x.2 + 1)) = some (dest, n) at htold
    obtain ⟨⟨dest', n'⟩, hold, heq⟩ := Option.map_eq_some_iff.1 htold
    rw [← (Prod.mk.inj heq).1]
    exact h ipaddr dest' n' hold
  | input frame =>
    change hear a.netif a.told frame ipaddr = some (dest, n) at htold
    unfold hear at htold
    split at htold
    · rename_i hnames
      by_cases hip : ipaddr = (EtharpHdr.ofBytes frame.payload).sipaddr
      · rw [hip, update_self] at htold
        have hunicast := hnames.2.2.2.2
        have hne : (EtharpHdr.ofBytes frame.payload).sipaddr ≠ 0 := by
          intro hzero
          simp [isUnicast, isAny, hzero] at hunicast
        rw [← (Prod.mk.inj (Option.some.inj htold)).1, hip]
        exact he frame rfl hnames.1 hne
      · rw [update_of_ne hip] at htold
        exact h ipaddr dest n htold
    · exact h ipaddr dest n htold

theorem hwaddr_step (h : Host) (e : Event) {a : Heard} (f : Follows h a) :
    (h.step e).netif.hwaddr = h.netif.hwaddr := by
  have hnext := (f.step e).1.netif
  rw [hnext, f.netif]
  cases e <;> rfl

/-- One step of a host. -/
theorem Trusted.step {h : Host} (t : Trusted owner h) {e : Event}
    (hinput : ∀ frame, e = .input frame → Honest owner frame)
    (hconf : ∀ ipAddr netmask gw, e = .configure ipAddr netmask gw →
      ipAddr = 0 ∨ owner ipAddr = h.netif.hwaddr) : Trusted owner (h.step e) := by
  obtain ⟨a, f, htold⟩ := t.heard
  obtain ⟨f', new, hnew, hright⟩ := f.step e
  have htold' := told_step htold hinput
  have hhw := hwaddr_step h e f
  have howns : (h.step e).netif.Owns owner := by
    unfold Netif.Owns
    rw [hhw, f'.netif]
    have hsame : a.netif.ipAddr = 0 ∨ owner a.netif.ipAddr = h.netif.hwaddr := by
      rw [← f.netif]
      exact t.owns
    cases e with
    | configure ipAddr netmask gw => exact hconf ipAddr netmask gw rfl
    | output q ip room alloc => exact hsame
    | query ip q alloc => exact hsame
    | request ip alloc => exact hsame
    | tmr => exact hsame
    | input frame => exact hsame
  refine ⟨howns, ⟨_, f', htold'⟩, fun s hs => ?_⟩
  have hne : ethtypeIp ≠ ethtypeArp := by decide
  have hframe : ∀ s : Sent, s.frame (h.step e).netif = s.frame h.netif := by
    intro s
    cases s <;> simp [Sent.frame, hhw]
  rw [hnew] at hs
  rw [hframe]
  rcases List.mem_append.1 hs with hs | hs
  · exact t.sent s hs
  · have hs' := hright s hs
    cases s with
    | ip ipaddr dest data =>
      obtain ⟨n, -, hn⟩ := hs'
      refine ⟨fun htype => absurd htype hne, fun ip d x heq => ?_⟩
      obtain ⟨rfl, rfl, rfl⟩ := Sent.ip.inj heq
      exact htold' _ _ n hn
    | cast dest data =>
      exact ⟨fun htype => absurd htype hne, fun ip d x heq => by cases heq⟩
    | arp frame =>
      refine ⟨fun _ hzero => ?_, fun ip d x heq => by cases heq⟩
      obtain ⟨hshw, hsip⟩ := hs'
      change (EtharpHdr.ofBytes frame.payload).sipaddr ≠ 0 at hzero
      change (EtharpHdr.ofBytes frame.payload).shwaddr = owner (EtharpHdr.ofBytes frame.payload).sipaddr
      rw [hsip] at hzero
      rw [hshw, hsip]
      exact (t.owns.resolve_left hzero).symm

/-- **No packet goes to another station.**  However hosts ask and answer, and however the network
loses, duplicates, delays and reorders their frames: if every address belongs to one station and no
ARP message names a wrong one, each entry in use names the station that its address belongs to, and
so does every packet for a neighbour that was ever sent. -/
theorem lan_run (owner : IpAddr → EthAddr) (netifs : ι → Netif)
    (howns : ∀ i, (netifs i).Owns owner) (es : List (LanEvent ι))
    (hes : Machine.Along Lan.step (Lan.Allows owner) (fun i => Host.boot (netifs i)) es) (i : ι) :
    let h := Machine.run Lan.step (fun i => Host.boot (netifs i)) es i
    (∀ k, (h.arpTable k).state = .stable → (h.arpTable k).ethaddr = owner (h.arpTable k).ipaddr) ∧
      ∀ ipaddr dest data, Sent.ip ipaddr dest data ∈ h.sent → dest = owner ipaddr := by
  have hrun : ∀ i, Trusted owner (Machine.run Lan.step (fun i => Host.boot (netifs i)) es i) := by
    refine Machine.along_induction (P := fun s : Lan ι => ∀ i, Trusted owner (s i)) ?_ ?_ hes
    · intro s e ht hallows j
      cases e with
      | own i e =>
        change Trusted owner (update s i ((s i).step e) j)
        by_cases hj : j = i
        · subst hj
          rw [update_self]
          refine (ht j).step (fun frame he => ?_) fun ipAddr netmask gw he => ?_
          · subst he
            exact hallows
          · subst he
            exact hallows
        · rw [update_of_ne hj]
          exact ht j
      | deliver i k m =>
        change Trusted owner ((match (s i).sent[k]? with
          | none => s
          | some x => update s m ((s m).step (.input (x.frame (s i).netif)))) j)
        cases hk : (s i).sent[k]? with
        | none => exact ht j
        | some x =>
          dsimp only
          by_cases hj : j = m
          · subst hj
            rw [update_self]
            refine (ht j).step (fun frame he => ?_) fun ipAddr netmask gw he => by cases he
            rw [← Event.input.inj he]
            exact ((ht i).sent x (List.mem_of_getElem? hk)).1
          · rw [update_of_ne hj]
            exact ht j
    · intro i
      refine ⟨howns i, ⟨_, follows_boot (netifs i), fun ipaddr dest n h => by cases h⟩, fun s hs => ?_⟩
      cases hs
  obtain ⟨-, ⟨a, f, htold⟩, hsent⟩ := hrun i
  dsimp only
  refine ⟨fun k hstable => htold _ _ _ (f.knows.stable k hstable), fun ipaddr dest data hs => ?_⟩
  exact (hsent _ hs).2 ipaddr dest data rfl

end Lan

/-- Two stations on the network `192.168.1.0`, numbers 4 and 19. -/
def twoStations (i : Bool) : Netif where
  ipAddr := bswap32 (if i then 0xc0a80113 else 0xc0a80104)
  netmask := bswap32 0xffffff00
  gw := bswap32 0xc0a80101
  hwaddr := ⟨4, 233, 229, 0, 105, if i then 236 else 4⟩
  broadcast := true
  etharp := true

/-- The second station asks for the first one, whose answer comes twice. -/
theorem lan_run_resolved :
    let h := Machine.run Lan.step (fun i => Host.boot (twoStations i))
      [.own true (.output [⟨false, [69, 0, 0, 20]⟩] (twoStations false).ipAddr true ⟨true, true⟩),
        .deliver true 0 false, .own false .tmr, .deliver false 0 true, .deliver false 0 true] true
    (∀ k, (h.arpTable k).state = .stable →
      (h.arpTable k).ethaddr = (twoStations ((h.arpTable k).ipaddr == (twoStations true).ipAddr)).hwaddr) ∧
      ∀ ipaddr dest data, Sent.ip ipaddr dest data ∈ h.sent →
        dest = (twoStations (ipaddr == (twoStations true).ipAddr)).hwaddr :=
  lan_run (fun a => (twoStations (a == (twoStations true).ipAddr)).hwaddr) twoStations
    (by intro i; cases i <;> exact .inr (by decide)) _
    (by exact ⟨trivial, trivial, trivial, trivial, trivial, trivial⟩)
    true

/-! ### A request and its answer -/

section Answer

variable {h : Host} {t : Told}

/-- An address in the table is found. -/
theorem Knows.findEntry_of_mem (k : Knows h t) {i : Fin arpTableSize}
    (hstate : (h.arpTable i).state ≠ .empty) (tryHard findOnly : Bool) :
    h.findEntry (h.arpTable i).ipaddr tryHard findOnly = (some i, h) := by
  rcases Host.findEntry_cases h k.queue (h.arpTable i).ipaddr tryHard findOnly with
    ⟨j, hj, hip, heq⟩ | ⟨hnone, -⟩
  · rw [heq, k.distinct j i hj hstate hip]
  · exact absurd rfl (hnone i hstate)

/-- The message that asks for an address. -/
def request (netif : Netif) (ipaddr : IpAddr) : EthFrame :=
  ⟨ethbroadcast, netif.hwaddr, ethtypeArp,
    (EtharpHdr.mk hwtypeEthernet ethtypeIp 6 4 arpRequest netif.hwaddr netif.ipAddr ethzero
      ipaddr).bytes⟩

theorem queryPacket_pending {i : Fin arpTableSize} (hstate : (h.arpTable i).state = .pending)
    {q : List Pbuf} {alloc : Bool} {p : List Byte} (htake : takeOver q alloc = some p) :
    (h.queryPacket i q alloc).2.sent = h.sent ∧
      (h.queryPacket i q alloc).2.arpTable =
        update h.arpTable i { h.arpTable i with q := some p } := by
  unfold Host.queryPacket
  dsimp only
  rw [if_neg (by simp [hstate]), htake]
  exact ⟨rfl, rfl⟩

/-- A packet for an address that is not known waits, and the address is asked for. -/
theorem Knows.etharpQuery_unknown (k : Knows h t) {ipaddr : IpAddr}
    (hunicast : isUnicast ipaddr h.netif = true)
    (hunknown : ∀ i, (h.arpTable i).state = .stable → (h.arpTable i).ipaddr ≠ ipaddr) {q : List Pbuf}
    {alloc : Alloc} {p : List Byte} (htake : takeOver q alloc.copy = some p)
    (halloc : alloc.request = true) :
    ∃ i, let h' := (h.etharpQuery ipaddr (some q) alloc).2
      h'.sent = h.sent ++ [.arp (request h.netif ipaddr)] ∧ (h'.arpTable i).state = .pending ∧
        (h'.arpTable i).ipaddr = ipaddr ∧ (h'.arpTable i).q = some p := by
  have hcast : (isBroadcast ipaddr h.netif || isMulticast ipaddr || isAny ipaddr) = false := by
    unfold isUnicast at hunicast
    simp only [Bool.not_eq_true', Bool.or_eq_false_iff] at hunicast ⊢
    exact ⟨⟨hunicast.1.2, hunicast.2⟩, hunicast.1.1⟩
  have hpend : ∀ (x : Host) (i : Fin arpTableSize), SameNet h x →
      (x.arpTable i).state = .pending → (x.arpTable i).ipaddr = ipaddr →
      let y := ((x.etharpRequest ipaddr alloc.request).2.queryPacket i q alloc.copy).2
      y.sent = h.sent ++ [.arp (request h.netif ipaddr)] ∧ (y.arpTable i).state = .pending ∧
        (y.arpTable i).ipaddr = ipaddr ∧ (y.arpTable i).q = some p := by
    intro x i hsame hstate hip
    have hsent : (x.etharpRequest ipaddr alloc.request).2.sent =
        h.sent ++ [.arp (request h.netif ipaddr)] := by
      unfold Host.etharpRequest Host.etharpRaw
      rw [halloc, if_pos rfl]
      change x.sent ++ [_] = _
      rw [hsame.sent, hsame.netif]
      rfl
    have htable := etharpRequest_arpTable x ipaddr alloc.request
    set z := (x.etharpRequest ipaddr alloc.request).2
    rw [← htable] at hstate hip
    obtain ⟨hsent', htable'⟩ := queryPacket_pending hstate htake
    dsimp only
    rw [hsent', htable', update_self]
    exact ⟨hsent, hstate, hip, rfl⟩
  unfold Host.etharpQuery
  rw [hcast, if_neg (by decide)]
  rcases Host.findEntry_cases h k.queue ipaddr true false with
    ⟨i, hstate, hip, heq⟩ | ⟨-, ⟨hstop, -⟩ | ⟨-, i, -, heq⟩⟩
  · have hpending : (h.arpTable i).state = .pending := by
      cases hs : (h.arpTable i).state with
      | empty => exact absurd hs hstate
      | pending => rfl
      | stable => exact absurd hip (hunknown i hs)
    refine ⟨i, ?_⟩
    rw [heq]
    dsimp only
    rw [if_neg hstate, if_pos hpending]
    exact hpend h i ⟨rfl, rfl⟩ hpending hip
  · simp at hstop
  · refine ⟨i, ?_⟩
    rw [heq]
    set x := (h.freeEntry i).claim ipaddr i with hx
    have hempty : (x.arpTable i).state = .empty := by simp [hx]
    have hip : (x.arpTable i).ipaddr = ipaddr := by simp [hx]
    dsimp only
    rw [if_pos hempty]
    set y := x.setEntry i { x.arpTable i with state := .pending } with hy
    have hpending : (y.arpTable i).state = .pending := by simp [hy]
    rw [if_pos hpending]
    exact hpend y i ⟨rfl, rfl⟩ hpending (by simp [hy, hip])

theorem isAny_of_isUnicast {a : IpAddr} {netif : Netif} (hu : isUnicast a netif = true) :
    isAny a = false := by
  unfold isUnicast at hu
  simp only [Bool.not_eq_true', Bool.or_eq_false_iff] at hu
  exact hu.1.1

/-- A host answers requests for its address. -/
theorem Knows.ethernetInput_request {g : Host} (k : Knows g t) (hflag : g.netif.etharp = true)
    (hany : isAny g.netif.ipAddr = false) (netif : Netif) :
    ∃ reply, (g.ethernetInput (request netif g.netif.ipAddr)).sent.getLast? = some (.arp reply) ∧
      reply.type = ethtypeArp ∧ sizeofEtharpHdr ≤ reply.payload.length ∧
      EtharpHdr.ofBytes reply.payload = ⟨hwtypeEthernet, ethtypeIp, 6, 4, arpReply, g.netif.hwaddr,
        g.netif.ipAddr, netif.hwaddr, netif.ipAddr⟩ := by
  have hbytes : EtharpHdr.ofBytes (request netif g.netif.ipAddr).payload =
      ⟨hwtypeEthernet, ethtypeIp, 6, 4, arpRequest, netif.hwaddr, netif.ipAddr, ethzero,
        g.netif.ipAddr⟩ := by
    have hread := EtharpHdr.ofBytes_bytes ⟨hwtypeEthernet, ethtypeIp, 6, 4, arpRequest, netif.hwaddr,
      netif.ipAddr, ethzero, g.netif.ipAddr⟩ []
    rwa [List.append_nil] at hread
  have hlen : (request netif g.netif.ipAddr).payload.length = sizeofEtharpHdr :=
    EtharpHdr.length_bytes _
  have hupdated := (k.updateArpEntry netif.ipAddr netif.hwaddr true).netif
  have htype : (request netif g.netif.ipAddr).type = ethtypeArp := rfl
  have hne : ethtypeArp ≠ ethtypeIp := by decide
  unfold Host.ethernetInput
  rw [if_neg (by intro hnil; rw [hnil] at hlen; cases hlen), htype, if_neg hne, if_pos rfl,
    if_pos hflag]
  unfold Host.etharpArpInput
  dsimp only
  rw [if_neg (by rw [hlen]; exact lt_irrefl _), hbytes]
  have hvalid : (EtharpHdr.mk hwtypeEthernet ethtypeIp 6 4 arpRequest netif.hwaddr netif.ipAddr ethzero
      g.netif.ipAddr).valid = true := rfl
  dsimp only
  rw [hvalid, if_neg (by decide), hany]
  simp only [Bool.not_false, Bool.true_and, beq_self_eq_true, and_self, if_true]
  refine ⟨_, List.getLast?_concat .., rfl, ?_, ?_⟩
  · unfold Host.reply
    simp
  · unfold Host.reply
    dsimp only
    rw [EtharpHdr.ofBytes_bytes, hbytes, hupdated]

/-- When an address is named, the packet that waits for it goes out. -/
theorem Knows.input_named (k : Knows h t) {i : Fin arpTableSize} {p : List Byte}
    (hstate : (h.arpTable i).state = .pending) (hq : (h.arpTable i).q = some p) {frame : EthFrame}
    (hnames : Names h.netif frame)
    (hip : (EtharpHdr.ofBytes frame.payload).sipaddr = (h.arpTable i).ipaddr)
    (hreply : (EtharpHdr.ofBytes frame.payload).opcode ≠ arpRequest) :
    (h.ethernetInput frame).sent =
      h.sent ++ [.ip (h.arpTable i).ipaddr (EtharpHdr.ofBytes frame.payload).shwaddr p] := by
  obtain ⟨htype, hflag, hlen, hvalid, hunicast⟩ := hnames
  have hcast : (isAny (h.arpTable i).ipaddr || isBroadcast (h.arpTable i).ipaddr h.netif ||
      isMulticast (h.arpTable i).ipaddr) = false := by
    unfold isUnicast at hunicast
    rw [hip] at hunicast
    simpa using hunicast
  unfold Host.ethernetInput
  rw [if_neg (by intro hnil; rw [hnil] at hlen; cases hlen), if_neg (by rw [htype]; decide),
    if_pos htype, if_pos hflag]
  unfold Host.etharpArpInput
  dsimp only
  rw [if_neg (not_lt.2 hlen), if_neg (by simp [hvalid]), if_neg (fun hc => hreply hc.1), hip]
  unfold Host.updateArpEntry
  rw [hcast, if_neg (by decide), k.findEntry_of_mem (by simp [hstate])]
  dsimp only
  rw [hq]
  rfl

end Answer

/-- **An address is resolved.**  Between any two hosts with `NETIF_FLAG_ETHARP`, whatever either has
done before: if a packet is given to `etharp_query` for the address of the other one, which is that of
a single host under the netmask of the first and which the first does not know, then the request goes
out; the host that has the address answers it; and with the answer the packet goes out, to this host.
There is memory for the packet and for the request, and nothing comes in between. -/
theorem answered (n₁ n₂ : Netif) (es₁ es₂ : List Event) (q : List Pbuf) (alloc : Alloc) (p : List Byte)
    (htake : takeOver q alloc.copy = some p) (halloc : alloc.request = true)
    (hflag₁ : (Machine.run Host.step (Host.boot n₁) es₁).netif.etharp = true)
    (hflag₂ : (Machine.run Host.step (Host.boot n₂) es₂).netif.etharp = true)
    (hunicast : isUnicast (Machine.run Host.step (Host.boot n₂) es₂).netif.ipAddr
      (Machine.run Host.step (Host.boot n₁) es₁).netif = true)
    (hunknown : ∀ i, ((Machine.run Host.step (Host.boot n₁) es₁).arpTable i).state = .stable →
      ((Machine.run Host.step (Host.boot n₁) es₁).arpTable i).ipaddr ≠
        (Machine.run Host.step (Host.boot n₂) es₂).netif.ipAddr) :
    let h := Machine.run Host.step (Host.boot n₁) es₁
    let g := Machine.run Host.step (Host.boot n₂) es₂
    let asked := h.step (.query g.netif.ipAddr (some q) alloc)
    ∃ request reply, asked.sent.getLast? = some (.arp request) ∧
      (g.step (.input request)).sent.getLast? = some (.arp reply) ∧
      (asked.step (.input reply)).sent =
        asked.sent ++ [.ip g.netif.ipAddr g.netif.hwaddr (chainBytes q)] := by
  intro h g asked
  obtain ⟨f, -⟩ := (follows_run n₁ es₁).step (.query g.netif.ipAddr (some q) alloc)
  obtain ⟨i, hsent, hstate, hip, hq⟩ :=
    (follows_run n₁ es₁).knows.etharpQuery_unknown hunicast hunknown htake halloc
  obtain ⟨reply, hlast, htype, hlen, hhdr⟩ :=
    (follows_run n₂ es₂).knows.ethernetInput_request hflag₂ (isAny_of_isUnicast hunicast) h.netif
  have hnetif : asked.netif = h.netif := ((follows_run n₁ es₁).knows.etharpQuery _ _ _).netif
  have hnames : Names asked.netif reply := by
    rw [hnetif]
    refine ⟨htype, hflag₁, hlen, ?_, ?_⟩
    · rw [hhdr]
      rfl
    · rw [hhdr]
      exact hunicast
  refine ⟨request h.netif g.netif.ipAddr, reply, ?_, hlast, ?_⟩
  · change (h.etharpQuery g.netif.ipAddr (some q) alloc).2.sent.getLast? = _
    rw [hsent, List.getLast?_concat]
  · have hip' : (asked.arpTable i).ipaddr = g.netif.ipAddr := hip
    have hopcode : arpReply ≠ arpRequest := by decide
    have hout : (asked.ethernetInput reply).sent = asked.sent ++ [.ip (asked.arpTable i).ipaddr
        (EtharpHdr.ofBytes reply.payload).shwaddr p] :=
      f.knows.input_named hstate hq hnames (by rw [hhdr]; exact hip'.symm) (by rw [hhdr]; exact hopcode)
    rw [hip', hhdr, Host.takeOver_eq htake] at hout
    exact hout

/-- A station that has just started asks for one that has been asked before. -/
theorem answered_second_time :
    let h := Machine.run Host.step (Host.boot (twoStations true)) []
    let g := Machine.run Host.step (Host.boot (twoStations false))
      [.input (request (twoStations true) (twoStations false).ipAddr), .tmr]
    let asked := h.step (.query g.netif.ipAddr (some [⟨false, [69, 0, 0, 20]⟩]) ⟨true, true⟩)
    ∃ request reply, asked.sent.getLast? = some (.arp request) ∧
      (g.step (.input request)).sent.getLast? = some (.arp reply) ∧
      (asked.step (.input reply)).sent =
        asked.sent ++ [.ip g.netif.ipAddr g.netif.hwaddr (chainBytes [⟨false, [69, 0, 0, 20]⟩])] :=
  answered (twoStations true) (twoStations false) [] _ [⟨false, [69, 0, 0, 20]⟩] ⟨true, true⟩
    [69, 0, 0, 20] (by decide) rfl rfl (by decide) (by decide) (by decide)

end Etharp
end Lwip
