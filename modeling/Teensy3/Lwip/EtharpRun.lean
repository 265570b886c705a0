import Mathlib.Algebra.BigOperators.Fin
import Teensy3.Lwip.EtharpCache

/-!
# Runs of a host with an ARP cache

* `Host.books`, `books_run`: every packet that was taken for a neighbour was sent once, or freed, or
  waits;
* `Told`, `Knows`: what the ARP messages have said, and that the table agrees with it;
* `current_run`: a packet for a neighbour goes to the hardware address that the neighbour named last;
* `recycles_run`: what `find_entry` gives up, in every state.
-/

namespace Lwip
namespace Etharp

open Function

/-! ### The books -/

/-- The packet for a neighbour, if it is one. -/
def Sent.packet : Sent → Multiset (IpAddr × List Byte)
  | .ip ipaddr _ data => {(ipaddr, data)}
  | .cast _ _ => 0
  | .arp _ => 0

def Entry.waiting (e : Entry) : Multiset (IpAddr × List Byte) :=
  ((e.q.map fun p => (e.ipaddr, p)).toList : List (IpAddr × List Byte))

namespace Host

/-- The packets that wait for an answer. -/
def waiting (h : Host) : Multiset (IpAddr × List Byte) := ∑ i, (h.arpTable i).waiting

/-- All packets that were sent to neighbours, were freed, or wait. -/
def books (h : Host) : Multiset (IpAddr × List Byte) :=
  (h.sent.map Sent.packet).sum + h.freed + h.waiting

theorem waiting_setEntry (h : Host) (i : Fin arpTableSize) (e : Entry) :
    (h.setEntry i e).waiting + (h.arpTable i).waiting = h.waiting + e.waiting := by
  have hnew : (h.setEntry i e).waiting =
      e.waiting + ∑ j ∈ Finset.univ.erase i, (h.arpTable j).waiting := by
    unfold waiting
    rw [← Finset.add_sum_erase _ _ (Finset.mem_univ i)]
    congr 1
    · simp
    · refine Finset.sum_congr rfl fun j hj => ?_
      rw [setEntry_arpTable, update_of_ne (Finset.ne_of_mem_erase hj)]
  have hold : h.waiting =
      (h.arpTable i).waiting + ∑ j ∈ Finset.univ.erase i, (h.arpTable j).waiting :=
    (Finset.add_sum_erase _ _ (Finset.mem_univ i)).symm
  rw [hnew, hold]
  abel

theorem books_setEntry_add (h : Host) (i : Fin arpTableSize) (e : Entry) :
    (h.setEntry i e).books + (h.arpTable i).waiting = h.books + e.waiting := by
  have hwaiting := waiting_setEntry h i e
  have hsent : (h.setEntry i e).sent = h.sent := rfl
  have hfreed : (h.setEntry i e).freed = h.freed := rfl
  unfold books
  rw [hsent, hfreed, add_assoc, hwaiting, ← add_assoc]

/-- The same packets wait on the entry. -/
theorem books_setEntry {h : Host} {i : Fin arpTableSize} {e : Entry}
    (he : e.waiting = (h.arpTable i).waiting) : (h.setEntry i e).books = h.books := by
  have hadd := books_setEntry_add h i e
  rw [he] at hadd
  exact add_right_cancel hadd

theorem books_freed (h : Host) (l : List (IpAddr × List Byte)) :
    Host.books { h with freed := h.freed ++ l } = h.books + l := by
  have hwaiting : Host.waiting { h with freed := h.freed ++ l } = h.waiting := rfl
  unfold books
  rw [hwaiting, ← Multiset.coe_add]
  abel

theorem books_freeEntry (h : Host) (i : Fin arpTableSize) : (h.freeEntry i).books = h.books := by
  have hadd := books_setEntry_add h i { h.arpTable i with q := none, state := .empty }
  have hnone : ({ h.arpTable i with q := none, state := .empty } : Entry).waiting = 0 := rfl
  rw [hnone, add_zero] at hadd
  exact (books_freed _ _).trans hadd

theorem books_tick (h : Host) (i : Fin arpTableSize) : (h.tick i).books = h.books := by
  unfold tick
  split
  · rfl
  · dsimp only
    split
    · rw [books_freeEntry, books_setEntry]
      rfl
    · rw [books_setEntry]
      rfl

theorem books_etharpTmr (h : Host) : h.etharpTmr.books = h.books := by
  have hloop : ∀ (is : List (Fin arpTableSize)) (h : Host), (is.foldl tick h).books = h.books := by
    intro is
    induction is with
    | nil => exact fun h => rfl
    | cons i is ih => exact fun h => (ih (h.tick i)).trans (books_tick h i)
  exact hloop _ h

theorem books_claim {h : Host} {i : Fin arpTableSize} (hq : (h.arpTable i).q = none)
    (ipaddr : IpAddr) : (h.claim ipaddr i).books = h.books := by
  apply books_setEntry
  simp [Entry.waiting, hq]

theorem books_findEntry {h : Host} (hq : h.QueueOk) (ipaddr : IpAddr) (tryHard findOnly : Bool) :
    (h.findEntry ipaddr tryHard findOnly).2.books = h.books := by
  rcases findEntry_cases h hq ipaddr tryHard findOnly with
    ⟨i, -, -, heq⟩ | ⟨-, ⟨-, heq⟩ | ⟨-, i, -, heq⟩⟩
  · rw [heq]
  · rw [heq]
  · rw [heq, books_claim (by simp), books_freeEntry]

theorem books_emit (h : Host) (s : Sent) : (h.emit s).books = h.books + s.packet := by
  unfold books emit
  simp only [List.map_append, List.map_singleton, List.sum_append, List.sum_singleton]
  have hwaiting : Host.waiting { h with sent := h.sent ++ [s] } = h.waiting := rfl
  rw [hwaiting]
  abel

/-- A resolved entry sends the packet that waits on it. -/
theorem books_updateArpEntry {h : Host} (hq : h.QueueOk) (ipaddr : IpAddr) (ethaddr : EthAddr)
    (tryHard : Bool) : (h.updateArpEntry ipaddr ethaddr tryHard).books = h.books := by
  unfold updateArpEntry
  split
  · rfl
  · have hfind := books_findEntry hq ipaddr tryHard (!tryHard)
    rcases hout : h.findEntry ipaddr tryHard (!tryHard) with ⟨_ | i, h'⟩
    · rw [hout] at hfind
      exact hfind
    · rw [hout] at hfind
      dsimp only at hfind ⊢
      rw [← hfind]
      have hadd := books_setEntry_add h' i
        { h'.arpTable i with state := .stable, ethaddr := ethaddr, ctime := 0, q := none }
      have hnone : ({ h'.arpTable i with
          state := .stable, ethaddr := ethaddr, ctime := 0, q := none } : Entry).waiting = 0 := rfl
      rw [hnone, add_zero] at hadd
      cases hp : (h'.arpTable i).q with
      | none =>
        dsimp only
        apply books_setEntry
        simp [Entry.waiting, hp]
      | some p =>
        have hentry : (h'.arpTable i).waiting = {((h'.arpTable i).ipaddr, p)} := by
          simp [Entry.waiting, hp]
        rw [hentry] at hadd
        dsimp only
        rw [books_emit]
        exact hadd

theorem books_etharpRequest (h : Host) (ipaddr : IpAddr) (alloc : Bool) :
    (h.etharpRequest ipaddr alloc).2.books = h.books := by
  unfold etharpRequest etharpRaw
  split
  · exact (books_emit h _).trans (add_zero _)
  · rfl

/-- The packet that waits is the packet that was given. -/
theorem takeOver_eq {q : List Pbuf} {alloc : Bool} {p : List Byte} (h : takeOver q alloc = some p) :
    p = chainBytes q := by
  unfold takeOver at h
  split at h
  · exact (Option.some.inj h).symm
  · split at h
    · exact (Option.some.inj h).symm
    · cases h

/-- The packets that a call takes: the one it is given, if it reports success. -/
def takenBy (r : Err) (ipaddr : IpAddr) (q : List Pbuf) : Multiset (IpAddr × List Byte) :=
  if r = .ok then {(ipaddr, chainBytes q)} else 0

theorem books_queryPacket (h : Host) (i : Fin arpTableSize) (q : List Pbuf) (alloc : Bool) :
    (h.queryPacket i q alloc).2.books =
      h.books + takenBy (h.queryPacket i q alloc).1 (h.arpTable i).ipaddr q := by
  unfold queryPacket
  dsimp only
  split
  · exact books_emit { h with etharpCachedEntry := i } _
  · cases htake : takeOver q alloc with
    | none => exact (add_zero _).symm
    | some p =>
      have hp := takeOver_eq htake
      have hadd := books_setEntry_add h i { h.arpTable i with q := some p }
      have hnew : ({ h.arpTable i with q := some p } : Entry).waiting =
          {((h.arpTable i).ipaddr, chainBytes q)} := by
        rw [hp]
        rfl
      rw [hnew] at hadd
      exact (books_freed _ _).trans hadd

/-- The entry that is found is one for the address. -/
theorem findEntry_ipaddr {h : Host} (hq : h.QueueOk) {ipaddr : IpAddr} {tryHard findOnly : Bool}
    {i : Fin arpTableSize} {h' : Host} (hfind : h.findEntry ipaddr tryHard findOnly = (some i, h')) :
    (h'.arpTable i).ipaddr = ipaddr := by
  rcases findEntry_cases h hq ipaddr tryHard findOnly with
    ⟨j, -, hip, heq⟩ | ⟨-, ⟨-, heq⟩ | ⟨-, j, -, heq⟩⟩
  · rw [hfind] at heq
    obtain ⟨hi, rfl⟩ := Prod.mk.inj heq
    rw [Option.some.inj hi]
    exact hip
  · rw [hfind] at heq
    cases heq
  · rw [hfind] at heq
    obtain ⟨hi, rfl⟩ := Prod.mk.inj heq
    rw [Option.some.inj hi]
    simp

theorem books_etharpQuery {h : Host} (hq : h.QueueOk) (ipaddr : IpAddr) (q : List Pbuf)
    (alloc : Alloc) :
    (h.etharpQuery ipaddr (some q) alloc).2.books =
      h.books + takenBy (h.etharpQuery ipaddr (some q) alloc).1 ipaddr q := by
  unfold etharpQuery
  split
  · exact (add_zero _).symm
  · have hfind := books_findEntry hq ipaddr true false
    rcases hout : h.findEntry ipaddr true false with ⟨_ | i, h'⟩
    · rw [hout] at hfind
      exact hfind.trans (add_zero _).symm
    · have hip := findEntry_ipaddr hq hout
      rw [hout] at hfind
      dsimp only at hfind ⊢
      set h₁ := if (h'.arpTable i).state = .empty then
        h'.setEntry i { h'.arpTable i with state := .pending } else h' with hh₁
      have hbooks₁ : h₁.books = h'.books ∧ (h₁.arpTable i).ipaddr = ipaddr := by
        rw [hh₁]
        split
        · exact ⟨books_setEntry rfl, by simpa using hip⟩
        · exact ⟨rfl, hip⟩
      set h₂ := if (h₁.arpTable i).state = .pending then (h₁.etharpRequest ipaddr alloc.request).2 else h₁
        with hh₂
      have hbooks₂ : h₂.books = h₁.books ∧ h₂.arpTable = h₁.arpTable := by
        rw [hh₂]
        split
        · refine ⟨books_etharpRequest _ _ _, ?_⟩
          unfold etharpRequest etharpRaw
          split <;> rfl
        · exact ⟨rfl, rfl⟩
      rw [books_queryPacket, hbooks₂.1, hbooks₂.2, hbooks₁.1, hbooks₁.2, hfind]

/-- Without a packet, `etharp_query` takes nothing. -/
theorem books_etharpQuery_none {h : Host} (hq : h.QueueOk) (ipaddr : IpAddr) (alloc : Alloc) :
    (h.etharpQuery ipaddr none alloc).2.books = h.books := by
  unfold etharpQuery
  split
  · rfl
  · have hfind := books_findEntry hq ipaddr true false
    rcases hout : h.findEntry ipaddr true false with ⟨_ | i, h'⟩
    · rw [hout] at hfind
      exact hfind
    · rw [hout] at hfind
      dsimp only at hfind ⊢
      rw [books_etharpRequest, ← hfind]
      split
      · exact books_setEntry rfl
      · rfl

/-- The packets for neighbours that an event takes. -/
def taken (h : Host) : Event → Multiset (IpAddr × List Byte)
  | .output q ipaddr room alloc =>
    if isBroadcast ipaddr h.netif || isMulticast ipaddr then 0
    else
      match nextHop h.netif ipaddr with
      | none => 0
      | some hop => takenBy (h.etharpOutput q ipaddr room alloc).1 hop q
  | .query ipaddr (some q) alloc => takenBy (h.etharpQuery ipaddr (some q) alloc).1 ipaddr q
  | _ => 0

theorem books_etharpOutput {h : Host} (hq : h.QueueOk) (q : List Pbuf) (ipaddr : IpAddr) (room : Bool)
    (alloc : Alloc) :
    (h.etharpOutput q ipaddr room alloc).2.books = h.books + h.taken (.output q ipaddr room alloc) := by
  unfold taken
  dsimp only
  unfold etharpOutput
  split
  · split
    · exact (add_zero _).symm
    · split <;> exact (add_zero _).symm
  · by_cases hbroadcast : isBroadcast ipaddr h.netif = true
    · rw [if_pos hbroadcast, if_pos (by rw [hbroadcast]; rfl)]
      exact books_emit h _
    · rw [if_neg hbroadcast]
      by_cases hmulticast : isMulticast ipaddr = true
      · rw [if_pos hmulticast, if_pos (by rw [hmulticast, Bool.or_true])]
        exact books_emit h _
      · rw [if_neg hmulticast, if_neg (by simp [hbroadcast, hmulticast])]
        cases nextHop h.netif ipaddr with
        | none => exact (add_zero _).symm
        | some hop =>
          dsimp only
          by_cases hcached : (h.arpTable h.etharpCachedEntry).state = .stable ∧
              hop = (h.arpTable h.etharpCachedEntry).ipaddr
          · rw [if_pos hcached, ← hcached.2]
            exact books_emit h _
          · rw [if_neg hcached]
            exact books_etharpQuery hq hop q alloc

end Host

/-! ### What the host was told -/

/-- The hardware address that was last heard for an address, and how many ticks ago. -/
abbrev Told := IpAddr → Option (EthAddr × ℕ)

/-- The table agrees with what the host was told. -/
structure Knows (h : Host) (t : Told) : Prop where
  queue : h.QueueOk
  distinct : ∀ i j, (h.arpTable i).state ≠ .empty → (h.arpTable j).state ≠ .empty →
    (h.arpTable i).ipaddr = (h.arpTable j).ipaddr → i = j
  stable : ∀ i, (h.arpTable i).state = .stable →
    t (h.arpTable i).ipaddr = some ((h.arpTable i).ethaddr, (h.arpTable i).ctime)
  age : ∀ i, (h.arpTable i).state ≠ .empty → (h.arpTable i).ctime < arpMaxage
  pending : ∀ i, (h.arpTable i).state = .pending → (h.arpTable i).ctime < arpMaxpending

/-- What is asked of an entry alone. -/
structure Entry.Ok (e : Entry) (t : Told) : Prop where
  queue : e.q ≠ none → e.state = .pending
  stable : e.state = .stable → t e.ipaddr = some (e.ethaddr, e.ctime)
  age : e.state ≠ .empty → e.ctime < arpMaxage
  pending : e.state = .pending → e.ctime < arpMaxpending

section Knows

variable {h h' : Host} {t t' : Told}

theorem Knows.entry (k : Knows h t) (i : Fin arpTableSize) : (h.arpTable i).Ok t :=
  ⟨k.queue i, k.stable i, k.age i, k.pending i⟩

theorem knows_iff : Knows h t ↔ (∀ i, (h.arpTable i).Ok t) ∧
    ∀ i j, (h.arpTable i).state ≠ .empty → (h.arpTable j).state ≠ .empty →
      (h.arpTable i).ipaddr = (h.arpTable j).ipaddr → i = j := by
  constructor
  · exact fun k => ⟨k.entry, k.distinct⟩
  · rintro ⟨hok, hdistinct⟩
    exact ⟨fun i => (hok i).queue, hdistinct, fun i => (hok i).stable, fun i => (hok i).age,
      fun i => (hok i).pending⟩

theorem Knows.of_table (k : Knows h t) (htable : h'.arpTable = h.arpTable) : Knows h' t := by
  rw [knows_iff, htable]
  exact knows_iff.1 k

/-- One entry is changed; if it is in use, no other one has its address. -/
theorem Knows.setEntry (k : Knows h t) {i : Fin arpTableSize} {e : Entry} (hok : e.Ok t')
    (hother : ∀ j, j ≠ i → (h.arpTable j).Ok t')
    (hdistinct : e.state ≠ .empty → ∀ j, j ≠ i → (h.arpTable j).state ≠ .empty →
      (h.arpTable j).ipaddr ≠ e.ipaddr)
    (htable : h'.arpTable = update h.arpTable i e) : Knows h' t' := by
  rw [knows_iff, htable]
  constructor
  · intro j
    by_cases hj : j = i
    · subst hj
      simpa using hok
    · simpa [hj] using hother j hj
  · intro a b ha hb hab
    by_cases hai : a = i
    · by_cases hbi : b = i
      · rw [hai, hbi]
      · subst hai
        simp only [update_self, update_of_ne hbi] at ha hb hab
        exact absurd hab.symm (hdistinct ha b hbi hb)
    · by_cases hbi : b = i
      · subst hbi
        simp only [update_self, update_of_ne hai] at ha hb hab
        exact absurd hab (hdistinct hb a hai ha)
      · simp only [update_of_ne hai, update_of_ne hbi] at ha hb hab
        exact k.distinct a b ha hb hab

/-- An entry is given up. -/
theorem Knows.freeEntry (k : Knows h t) (i : Fin arpTableSize) : Knows (h.freeEntry i) t := by
  refine k.setEntry (e := { h.arpTable i with q := none, state := .empty }) ?_
    (fun j _ => k.entry j) (fun hne => absurd rfl hne) rfl
  exact ⟨fun hne => absurd rfl hne, fun hs => by simp at hs, fun hne => absurd rfl hne,
    fun hs => by simp at hs⟩

theorem Knows.claim (k : Knows h t) {i : Fin arpTableSize} (hempty : (h.arpTable i).state = .empty)
    (ipaddr : IpAddr) : Knows (h.claim ipaddr i) t := by
  refine k.setEntry (e := { h.arpTable i with ipaddr := ipaddr, ctime := 0 }) ?_
    (fun j _ => k.entry j) (fun hne => absurd hempty hne) rfl
  exact ⟨k.queue i, fun hs => by simp [hempty] at hs, fun hne => absurd hempty hne,
    fun hs => by simp [hempty] at hs⟩

/-- The entry `i` is the one for an address. -/
structure Located (h : Host) (t : Told) (i : Fin arpTableSize) (a : IpAddr) : Prop where
  knows : Knows h t
  ipaddr : (h.arpTable i).ipaddr = a
  alone : ∀ j, j ≠ i → (h.arpTable j).state ≠ .empty → (h.arpTable j).ipaddr ≠ a
  fresh : (h.arpTable i).state = .empty → (h.arpTable i).ctime = 0

/-- Nothing else than the table and what is freed is changed. -/
structure SameNet (h h' : Host) : Prop where
  netif : h'.netif = h.netif
  sent : h'.sent = h.sent

theorem Knows.findEntry (k : Knows h t) (ipaddr : IpAddr) (tryHard findOnly : Bool) :
    (h.findEntry ipaddr tryHard findOnly = (none, h) ∧
      ∀ j, (h.arpTable j).state ≠ .empty → (h.arpTable j).ipaddr ≠ ipaddr) ∨
    ∃ i h', h.findEntry ipaddr tryHard findOnly = (some i, h') ∧ Located h' t i ipaddr ∧
      SameNet h h' := by
  rcases Host.findEntry_cases h k.queue ipaddr tryHard findOnly with
    ⟨i, hstate, hip, heq⟩ | ⟨hnone, ⟨-, heq⟩ | ⟨-, i, -, heq⟩⟩
  · refine .inr ⟨i, h, heq, ⟨k, hip, fun j hj hne hjp => ?_, fun hempty => absurd hempty hstate⟩,
      rfl, rfl⟩
    exact hj (k.distinct j i hne hstate (hjp.trans hip.symm))
  · exact .inl ⟨heq, hnone⟩
  · have hempty : ((h.freeEntry i).arpTable i).state = .empty := by simp
    refine .inr ⟨i, _, heq, ⟨(k.freeEntry i).claim hempty ipaddr, by simp, fun j hj hne => ?_,
      fun _ => by simp⟩, rfl, rfl⟩
    simp only [Host.claim_arpTable, Host.freeEntry_arpTable, update_of_ne hj] at hne ⊢
    exact hnone j hne

/-- The address of an entry is heard. -/
theorem Located.resolve {i : Fin arpTableSize} {ipaddr : IpAddr} (l : Located h t i ipaddr)
    (ethaddr : EthAddr) :
    Knows (h.setEntry i
      { h.arpTable i with state := .stable, ethaddr := ethaddr, ctime := 0, q := none })
      (update t ipaddr (some (ethaddr, 0))) := by
  refine l.knows.setEntry ?_ (fun j hj => ?_) (fun _ j hj hne => ?_) rfl
  · have hzero : 0 < arpMaxage := by decide
    refine ⟨fun hne => absurd rfl hne, fun _ => ?_, fun _ => hzero, fun hs => by simp at hs⟩
    simp [l.ipaddr]
  · obtain ⟨hqueue, hstable, hage, hpending⟩ := l.knows.entry j
    refine ⟨hqueue, fun hs => ?_, hage, hpending⟩
    rw [update_of_ne (l.alone j hj (by simp [hs]))]
    exact hstable hs
  · rw [l.ipaddr]
    exact l.alone j hj hne

/-- A new entry waits for an answer. -/
theorem Located.pend {i : Fin arpTableSize} {ipaddr : IpAddr} (l : Located h t i ipaddr)
    (hempty : (h.arpTable i).state = .empty) :
    Located (h.setEntry i { h.arpTable i with state := .pending }) t i ipaddr := by
  have hctime := l.fresh hempty
  refine ⟨l.knows.setEntry (e := { h.arpTable i with state := .pending }) ?_
    (fun j _ => l.knows.entry j) (fun _ j hj hne => ?_) rfl, ?_, fun j hj hne => ?_, ?_⟩
  · refine ⟨fun _ => rfl, fun hs => by simp at hs, fun _ => ?_, fun _ => ?_⟩
    · rw [hctime]
      decide
    · rw [hctime]
      decide
  · rw [l.ipaddr]
    exact l.alone j hj hne
  · simpa using l.ipaddr
  · simp only [Host.setEntry_arpTable, update_of_ne hj] at hne ⊢
    exact l.alone j hj hne
  · simp

/-- A packet waits on an entry that waits for an answer. -/
theorem Located.enqueue {i : Fin arpTableSize} {ipaddr : IpAddr} (l : Located h t i ipaddr)
    (hpending : (h.arpTable i).state = .pending) (p : List Byte)
    (htable : h'.arpTable = update h.arpTable i { h.arpTable i with q := some p }) : Knows h' t := by
  refine l.knows.setEntry ?_ (fun j _ => l.knows.entry j) (fun _ j hj hne => ?_) htable
  · obtain ⟨-, hstable, hage, hage'⟩ := l.knows.entry i
    exact ⟨fun _ => hpending, hstable, hage, hage'⟩
  · rw [l.ipaddr]
    exact l.alone j hj hne

end Knows

/-! ### The timer -/

/-- An entry after a tick. -/
def Entry.ticked (e : Entry) : Entry :=
  if e.state = .empty then e
  else
    let e := { e with ctime := (e.ctime + 1) % 2 ^ 8 }
    if arpMaxage ≤ e.ctime ∨ e.state = .pending ∧ arpMaxpending ≤ e.ctime then
      { e with q := none, state := .empty }
    else e

theorem tick_arpTable (h : Host) (i : Fin arpTableSize) :
    (h.tick i).arpTable = update h.arpTable i (h.arpTable i).ticked := by
  unfold Host.tick Entry.ticked
  split
  · exact (update_eq_self i h.arpTable).symm
  · dsimp only
    split
    · simp
    · rfl

theorem etharpTmr_arpTable (h : Host) (i : Fin arpTableSize) :
    h.etharpTmr.arpTable i = (h.arpTable i).ticked := by
  have hloop : ∀ (is : List (Fin arpTableSize)), is.Nodup → ∀ h : Host,
      (is.foldl Host.tick h).arpTable i = if i ∈ is then (h.arpTable i).ticked else h.arpTable i := by
    intro is
    induction is with
    | nil => exact fun _ h => rfl
    | cons j is ih =>
      intro hnodup h
      obtain ⟨hj, hnodup⟩ := List.nodup_cons.1 hnodup
      rw [List.foldl_cons, ih hnodup, tick_arpTable]
      by_cases hij : i = j
      · subst hij
        rw [if_neg hj, if_pos List.mem_cons_self, update_self]
      · rw [update_of_ne hij]
        simp only [List.mem_cons, hij, false_or]
  unfold Host.etharpTmr
  rw [hloop _ (List.nodup_finRange _), if_pos (List.mem_finRange i)]

/-- All that was heard is one tick older. -/
def Told.tick (t : Told) : Told := fun ipaddr => (t ipaddr).map fun x => (x.1, x.2 + 1)

theorem Entry.Ok.ticked {e : Entry} {t : Told} (h : e.Ok t) : e.ticked.Ok t.tick := by
  unfold Entry.ticked
  by_cases hempty : e.state = .empty
  · rw [if_pos hempty]
    exact ⟨h.queue, fun hs => by simp [hempty] at hs, fun hne => absurd hempty hne,
      fun hs => by simp [hempty] at hs⟩
  · have hage := h.age hempty
    have hmod : (e.ctime + 1) % 2 ^ 8 = e.ctime + 1 := by
      apply Nat.mod_eq_of_lt
      unfold arpMaxage at hage
      omega
    rw [if_neg hempty]
    dsimp only
    rw [hmod]
    split
    · exact ⟨fun hne => absurd rfl hne, fun hs => by simp at hs, fun hne => absurd rfl hne,
        fun hs => by simp at hs⟩
    · rename_i hkeep
      rw [not_or, not_and, not_le] at hkeep
      refine ⟨h.queue, fun hs => ?_, fun _ => hkeep.1, fun hs => not_le.1 (hkeep.2 hs)⟩
      unfold Told.tick
      rw [h.stable hs]
      rfl

theorem Knows.tmr {h : Host} {t : Told} (k : Knows h t) : Knows h.etharpTmr t.tick := by
  have hkeeps : ∀ e : Entry, e.ticked.state ≠ .empty →
      e.state ≠ .empty ∧ e.ticked.ipaddr = e.ipaddr := by
    intro e hne
    unfold Entry.ticked at *
    split at hne
    · rename_i hempty
      exact absurd hempty hne
    · rename_i hempty
      rw [if_neg hempty]
      dsimp only at *
      split at hne
      · exact absurd rfl hne
      · rename_i hkeep
        rw [if_neg hkeep]
        exact ⟨hempty, rfl⟩
  rw [knows_iff]
  constructor
  · intro i
    rw [etharpTmr_arpTable]
    exact (k.entry i).ticked
  · intro i j hi hj hij
    rw [etharpTmr_arpTable] at hi hj hij
    rw [etharpTmr_arpTable] at hij
    obtain ⟨hi', hipi⟩ := hkeeps _ hi
    obtain ⟨hj', hipj⟩ := hkeeps _ hj
    rw [hipi, hipj] at hij
    exact k.distinct i j hi' hj' hij

/-! ### What is sent -/

/-- A packet for a neighbour goes where the neighbour was last heard of, one for several hosts to a
group, and an ARP message names its sender. -/
def Sent.Right (netif : Netif) (t : Told) : Sent → Prop
  | .ip ipaddr dest _ => ∃ n < arpMaxage, t ipaddr = some (dest, n)
  | .cast dest _ => dest = ethbroadcast ∨ ∃ a, isMulticast a = true ∧ dest = Host.multicastAddr a
  | .arp frame => (EtharpHdr.ofBytes frame.payload).shwaddr = netif.hwaddr ∧
      (EtharpHdr.ofBytes frame.payload).sipaddr = netif.ipAddr

/-- What an operation does for the table and on the network. -/
structure Does (h h' : Host) (t : Told) : Prop where
  knows : Knows h' t
  netif : h'.netif = h.netif
  sends : ∃ new, h'.sent = h.sent ++ new ∧ ∀ s ∈ new, s.Right h.netif t

section Does

variable {h h' : Host} {t : Told}

theorem Knows.does (k : Knows h t) : Does h h t := ⟨k, rfl, [], by simp, by simp⟩

theorem Does.of_sameNet (k : Knows h' t) (hs : SameNet h h') : Does h h' t :=
  ⟨k, hs.netif, [], by simp [hs.sent], by simp⟩

theorem Does.emit (d : Does h h' t) {s : Sent} (hs : s.Right h.netif t) : Does h (h'.emit s) t := by
  obtain ⟨new, hnew, hright⟩ := d.sends
  refine ⟨d.knows.of_table rfl, d.netif, new ++ [s], ?_, fun x hx => ?_⟩
  · rw [← List.append_assoc, ← hnew]
    rfl
  · rcases List.mem_append.1 hx with hx | hx
    · exact hright x hx
    · rw [List.mem_singleton.1 hx]
      exact hs

/-- The address was heard. -/
theorem Knows.updateArpEntry (k : Knows h t) (ipaddr : IpAddr) (ethaddr : EthAddr) (tryHard : Bool) :
    Does h (h.updateArpEntry ipaddr ethaddr tryHard)
      (if isUnicast ipaddr h.netif then update t ipaddr (some (ethaddr, 0)) else t) := by
  unfold Host.updateArpEntry isUnicast
  by_cases hcast : (isAny ipaddr || isBroadcast ipaddr h.netif || isMulticast ipaddr) = true
  · rw [if_pos hcast, if_neg (by simp [hcast])]
    exact k.does
  · rw [if_neg hcast, if_pos (by simpa using hcast)]
    rcases k.findEntry ipaddr tryHard (!tryHard) with ⟨heq, hnone⟩ | ⟨i, h', heq, hloc, hsame⟩
    · -- the host is not known, and the message is not for us
      rw [heq]
      refine Knows.does (knows_iff.2 ⟨fun j => ?_, k.distinct⟩)
      obtain ⟨hqueue, hstable, hage, hpending⟩ := k.entry j
      refine ⟨hqueue, fun hs => ?_, hage, hpending⟩
      rw [update_of_ne (hnone j (by simp [hs]))]
      exact hstable hs
    · rw [heq]
      have hresolved : Does h (h'.setEntry i { h'.arpTable i with
          state := .stable, ethaddr := ethaddr, ctime := 0, q := none })
          (update t ipaddr (some (ethaddr, 0))) :=
        Does.of_sameNet (hloc.resolve ethaddr) ⟨hsame.netif, hsame.sent⟩
      dsimp only
      cases (h'.arpTable i).q with
      | none => exact hresolved
      | some p =>
        refine hresolved.emit ⟨0, by decide, ?_⟩
        rw [hloc.ipaddr, update_self]

/-- A frame names the hardware address of its sender: it is an ARP message that the interface takes,
whose sender address is that of a single host under the address and netmask that the interface has
now.  A message with any other sender address tells the host nothing. -/
def Names (netif : Netif) (frame : EthFrame) : Prop :=
  frame.type = ethtypeArp ∧ netif.etharp = true ∧ sizeofEtharpHdr ≤ frame.payload.length ∧
    (EtharpHdr.ofBytes frame.payload).valid = true ∧
    isUnicast (EtharpHdr.ofBytes frame.payload).sipaddr netif = true

instance (netif : Netif) (frame : EthFrame) : Decidable (Names netif frame) :=
  inferInstanceAs (Decidable (_ ∧ _))

/-- What a frame tells the host. -/
def hear (netif : Netif) (t : Told) (frame : EthFrame) : Told :=
  if Names netif frame then
    update t (EtharpHdr.ofBytes frame.payload).sipaddr
      (some ((EtharpHdr.ofBytes frame.payload).shwaddr, 0))
  else t

theorem hear_of_not {netif : Netif} {frame : EthFrame} (t : Told) (hn : ¬ Names netif frame) :
    hear netif t frame = t := if_neg hn

theorem ofBytes_reply (h : Host) (frame : EthFrame) :
    (EtharpHdr.ofBytes (h.reply frame).payload).shwaddr = h.netif.hwaddr ∧
      (EtharpHdr.ofBytes (h.reply frame).payload).sipaddr = h.netif.ipAddr := by
  unfold Host.reply
  dsimp only
  rw [EtharpHdr.ofBytes_bytes]
  exact ⟨rfl, rfl⟩

theorem Knows.etharpArpInput (k : Knows h t) {frame : EthFrame} (harp : frame.type = ethtypeArp)
    (hflag : h.netif.etharp = true) : Does h (h.etharpArpInput frame) (hear h.netif t frame) := by
  unfold Host.etharpArpInput
  dsimp only
  by_cases hshort : frame.payload.length < sizeofEtharpHdr
  · rw [if_pos hshort, hear_of_not t fun hn => absurd hn.2.2.1 (not_le.2 hshort)]
    exact k.does
  · rw [if_neg hshort]
    by_cases hvalid : (EtharpHdr.ofBytes frame.payload).valid = true
    · have hhear : hear h.netif t frame =
          if isUnicast (EtharpHdr.ofBytes frame.payload).sipaddr h.netif then
            update t (EtharpHdr.ofBytes frame.payload).sipaddr
              (some ((EtharpHdr.ofBytes frame.payload).shwaddr, 0))
          else t := by
        unfold hear Names
        simp only [harp, hflag, hvalid, not_lt.1 hshort, true_and]
      have hdoes := k.updateArpEntry (EtharpHdr.ofBytes frame.payload).sipaddr
        (EtharpHdr.ofBytes frame.payload).shwaddr
        (!isAny h.netif.ipAddr && (EtharpHdr.ofBytes frame.payload).dipaddr == h.netif.ipAddr)
      rw [if_neg (by simp [hvalid]), hhear]
      split
      · have hreply := ofBytes_reply (h.updateArpEntry (EtharpHdr.ofBytes frame.payload).sipaddr
          (EtharpHdr.ofBytes frame.payload).shwaddr
          (!isAny h.netif.ipAddr && (EtharpHdr.ofBytes frame.payload).dipaddr == h.netif.ipAddr)) frame
        rw [hdoes.netif] at hreply
        exact hdoes.emit hreply
      · exact hdoes
    · rw [if_pos (by simpa using hvalid), hear_of_not t fun hn => hvalid hn.2.2.2.1]
      exact k.does

theorem Knows.ethernetInput (k : Knows h t) (frame : EthFrame) :
    Does h (h.ethernetInput frame) (hear h.netif t frame) := by
  unfold Host.ethernetInput
  by_cases hnil : frame.payload = []
  · rw [if_pos hnil, hear_of_not t fun hn => absurd hn.2.2.1 (by simp [hnil, sizeofEtharpHdr])]
    exact k.does
  · rw [if_neg hnil]
    by_cases hip : frame.type = ethtypeIp
    · have hne : frame.type ≠ ethtypeArp := by
        rw [hip]
        decide
      rw [if_pos hip, hear_of_not t fun hn => hne hn.1]
      split
      · exact Does.of_sameNet (k.of_table rfl) ⟨rfl, rfl⟩
      · exact k.does
    · rw [if_neg hip]
      by_cases harp : frame.type = ethtypeArp
      · rw [if_pos harp]
        by_cases hflag : h.netif.etharp = true
        · rw [if_pos hflag]
          exact k.etharpArpInput harp hflag
        · rw [if_neg hflag, hear_of_not t fun hn => hflag hn.2.1]
          exact k.does
      · rw [if_neg harp, hear_of_not t fun hn => harp hn.1]
        exact k.does

theorem Knows.etharpRequest (k : Knows h t) (ipaddr : IpAddr) (alloc : Bool) :
    Does h (h.etharpRequest ipaddr alloc).2 t := by
  unfold Host.etharpRequest Host.etharpRaw
  split
  · refine k.does.emit ?_
    have hbytes := EtharpHdr.ofBytes_bytes
      ⟨hwtypeEthernet, ethtypeIp, 6, 4, arpRequest, h.netif.hwaddr, h.netif.ipAddr, ethzero, ipaddr⟩ []
    rw [List.append_nil] at hbytes
    unfold Sent.Right
    dsimp only
    rw [hbytes]
    exact ⟨rfl, rfl⟩
  · exact k.does

theorem Does.trans {h₁ h₂ h₃ : Host} (d : Does h₁ h₂ t) (d' : Does h₂ h₃ t) : Does h₁ h₃ t := by
  obtain ⟨new, hnew, hright⟩ := d.sends
  obtain ⟨new', hnew', hright'⟩ := d'.sends
  refine ⟨d'.knows, d'.netif.trans d.netif, new ++ new', ?_, fun s hs => ?_⟩
  · rw [hnew', hnew, List.append_assoc]
  · rcases List.mem_append.1 hs with hs | hs
    · exact hright s hs
    · have hs' := hright' s hs
      rwa [d.netif] at hs'

theorem etharpRequest_arpTable (h : Host) (ipaddr : IpAddr) (alloc : Bool) :
    (h.etharpRequest ipaddr alloc).2.arpTable = h.arpTable := by
  unfold Host.etharpRequest Host.etharpRaw
  split <;> rfl

theorem Located.of_table {i : Fin arpTableSize} {a : IpAddr} (l : Located h t i a)
    (htable : h'.arpTable = h.arpTable) : Located h' t i a := by
  refine ⟨l.knows.of_table htable, ?_, ?_, ?_⟩
  · rw [htable]
    exact l.ipaddr
  · rw [htable]
    exact l.alone
  · rw [htable]
    exact l.fresh

/-- A packet is sent, or waits for an answer. -/
theorem Located.queryPacket {i : Fin arpTableSize} {a : IpAddr} (l : Located h t i a)
    (hstate : (h.arpTable i).state ≠ .empty) (q : List Pbuf) (alloc : Bool) :
    Does h (h.queryPacket i q alloc).2 t := by
  unfold Host.queryPacket
  dsimp only
  by_cases hstable : (h.arpTable i).state = .stable
  · rw [if_pos hstable]
    have hcached : Does h { h with etharpCachedEntry := i } t :=
      Does.of_sameNet (l.knows.of_table rfl) ⟨rfl, rfl⟩
    exact hcached.emit ⟨_, l.knows.age i hstate, l.knows.stable i hstable⟩
  · have hpending : (h.arpTable i).state = .pending := by
      cases hs : (h.arpTable i).state with
      | empty => exact absurd hs hstate
      | pending => rfl
      | stable => exact absurd hs hstable
    rw [if_neg hstable]
    cases takeOver q alloc with
    | none => exact l.knows.does
    | some p => exact Does.of_sameNet (l.enqueue hpending p rfl) ⟨rfl, rfl⟩

theorem Knows.etharpQuery (k : Knows h t) (ipaddr : IpAddr) (q : Option (List Pbuf)) (alloc : Alloc) :
    Does h (h.etharpQuery ipaddr q alloc).2 t := by
  unfold Host.etharpQuery
  split
  · exact k.does
  · rcases k.findEntry ipaddr true false with ⟨heq, -⟩ | ⟨i, h', heq, hloc, hsame⟩
    · rw [heq]
      exact k.does
    · rw [heq]
      dsimp only
      have hfound : Does h h' t := Does.of_sameNet hloc.knows hsame
      have hpend : ∃ h₁, (if (h'.arpTable i).state = .empty then
          h'.setEntry i { h'.arpTable i with state := .pending } else h') = h₁ ∧
          Located h₁ t i ipaddr ∧ (h₁.arpTable i).state ≠ .empty ∧ Does h h₁ t := by
        by_cases hempty : (h'.arpTable i).state = .empty
        · rw [if_pos hempty]
          exact ⟨_, rfl, hloc.pend hempty, by simp,
            hfound.trans (Does.of_sameNet (hloc.pend hempty).knows ⟨rfl, rfl⟩)⟩
        · rw [if_neg hempty]
          exact ⟨_, rfl, hloc, hempty, hfound⟩
      obtain ⟨h₁, hh₁, hloc₁, hstate₁, hdoes₁⟩ := hpend
      rw [hh₁]
      have hrequest := hdoes₁.trans (hloc₁.knows.etharpRequest ipaddr alloc.request)
      have htable := etharpRequest_arpTable h₁ ipaddr alloc.request
      cases q with
      | none => exact hrequest
      | some q =>
        dsimp only
        split
        · refine hrequest.trans ((hloc₁.of_table htable).queryPacket ?_ q alloc.copy)
          rw [htable]
          exact hstate₁
        · exact hdoes₁.trans (hloc₁.queryPacket hstate₁ q alloc.copy)

theorem Knows.etharpOutput (k : Knows h t) (q : List Pbuf) (ipaddr : IpAddr) (room : Bool)
    (alloc : Alloc) : Does h (h.etharpOutput q ipaddr room alloc).2 t := by
  unfold Host.etharpOutput
  split
  · exact k.does
  · split
    · exact k.does.emit (.inl rfl)
    · split
      · rename_i hmulticast
        exact k.does.emit (.inr ⟨ipaddr, hmulticast, rfl⟩)
      · cases Host.nextHop h.netif ipaddr with
        | none => exact k.does
        | some hop =>
          dsimp only
          split
          · rename_i hcached
            exact k.does.emit ⟨_, k.age _ (by simp [hcached.1]), k.stable _ hcached.1⟩
          · exact k.etharpQuery hop (some q) alloc

end Does

/-! ### Runs -/

/-- What a host was told, with the addresses of its interface. -/
structure Heard where
  netif : Netif
  told : Told

/-- What an event tells. -/
def Heard.step (a : Heard) : Event → Heard
  | .tmr => { a with told := a.told.tick }
  | .input frame => { a with told := hear a.netif a.told frame }
  | .configure ipAddr netmask gw =>
    { a with netif := { a.netif with ipAddr := ipAddr, netmask := netmask, gw := gw } }
  | _ => a

def Heard.boot (netif : Netif) : Heard := ⟨netif, fun _ => none⟩

/-- The host and what it was told, together. -/
structure Follows (h : Host) (a : Heard) : Prop where
  netif : h.netif = a.netif
  knows : Knows h a.told

/-- One step: the table goes on agreeing with what the host was told, and what is sent is right. -/
theorem Follows.step {h : Host} {a : Heard} (f : Follows h a) (e : Event) :
    Follows (h.step e) (a.step e) ∧
      ∃ new, (h.step e).sent = h.sent ++ new ∧ ∀ s ∈ new, s.Right h.netif (a.step e).told := by
  have hdoes : ∀ {h'}, Does h h' a.told → Follows h' a ∧
      ∃ new, h'.sent = h.sent ++ new ∧ ∀ s ∈ new, s.Right h.netif a.told :=
    fun d => ⟨⟨d.netif.trans f.netif, d.knows⟩, d.sends⟩
  cases e with
  | output q ipaddr room alloc => exact hdoes (f.knows.etharpOutput q ipaddr room alloc)
  | query ipaddr q alloc => exact hdoes (f.knows.etharpQuery ipaddr q alloc)
  | request ipaddr alloc => exact hdoes (f.knows.etharpRequest ipaddr alloc)
  | tmr =>
    have hloop : ∀ (is : List (Fin arpTableSize)) (x : Host),
        (is.foldl Host.tick x).netif = x.netif ∧ (is.foldl Host.tick x).sent = x.sent := by
      intro is
      induction is with
      | nil => exact fun x => ⟨rfl, rfl⟩
      | cons i is ih =>
        intro x
        have htick : (x.tick i).netif = x.netif ∧ (x.tick i).sent = x.sent := by
          unfold Host.tick
          split
          · exact ⟨rfl, rfl⟩
          · dsimp only
            split <;> exact ⟨rfl, rfl⟩
        obtain ⟨hnetif, hsent⟩ := ih (x.tick i)
        exact ⟨hnetif.trans htick.1, hsent.trans htick.2⟩
    obtain ⟨hnetif, hsent⟩ := hloop (List.finRange arpTableSize) h
    exact ⟨⟨hnetif.trans f.netif, f.knows.tmr⟩, [], by rw [List.append_nil]; exact hsent, by simp⟩
  | input frame =>
    have d := f.knows.ethernetInput frame
    have hnetif : (h.ethernetInput frame).netif = a.netif := d.netif.trans f.netif
    refine ⟨⟨hnetif, ?_⟩, ?_⟩
    · change Knows _ (hear a.netif a.told frame)
      rw [← f.netif]
      exact d.knows
    · change ∃ new : List Sent, _ ∧ ∀ s ∈ new, s.Right h.netif (hear a.netif a.told frame)
      rw [← f.netif]
      exact d.sends
  | configure ipAddr netmask gw =>
    refine ⟨⟨?_, f.knows.of_table rfl⟩, [], by simp [Host.step], by simp⟩
    change ({ h.netif with ipAddr := ipAddr, netmask := netmask, gw := gw } : Netif) = _
    rw [f.netif]
    rfl

theorem follows_boot (netif : Netif) : Follows (Host.boot netif) (Heard.boot netif) := by
  refine ⟨rfl, fun i hne => absurd rfl hne, fun i j hne => absurd rfl hne, fun i hs => ?_,
    fun i hne => absurd rfl hne, fun i hs => ?_⟩
  · cases hs
  · cases hs

theorem follows_run (netif : Netif) (es : List Event) :
    Follows (Machine.run Host.step (Host.boot netif) es)
      (Machine.run Heard.step (Heard.boot netif) es) := by
  have hrun : ∀ h a, Follows h a →
      Follows (Machine.run Host.step h es) (Machine.run Heard.step a es) := by
    induction es with
    | nil => exact fun h a f => f
    | cons e es ih => exact fun h a f => ih _ _ (f.step e).1
  exact hrun _ _ (follows_boot netif)

/-- **Packets go to the address that was heard last.**  Whatever goes in and out of a host, and
however its addresses change: every packet for a neighbour that an event sends, at once or after it
has waited, goes to the hardware address that the neighbour's last ARP message named, less than
`ARP_MAXAGE` ticks ago, and every ARP message names its sender.  Only those messages count whose
sender address was that of a single host for the interface when they came in (`Names`). -/
theorem current_run (netif : Netif) (es : List Event) (e : Event) :
    let h := Machine.run Host.step (Host.boot netif) es
    let told := (Machine.run Heard.step (Heard.boot netif) (es ++ [e])).told
    ∃ new, (h.step e).sent = h.sent ++ new ∧ ∀ s ∈ new, s.Right h.netif told := by
  have hstep := (follows_run netif es).step e
  dsimp only
  rw [Machine.run_append]
  exact hstep.2

/-- **What is given up for a new address**, in every state that a host can be in: an empty entry, else
the oldest stable one, else the oldest one that waits for an answer; and only if packets wait on all
of them the oldest of these, whose packet is freed.  There always is one. -/
theorem recycles_run (netif : Netif) (es : List Event) (ipaddr : IpAddr) :
    let h := Machine.run Host.step (Host.boot netif) es
    ∃ i h', h.findEntry ipaddr true false = (some i, h') ∧ (h'.arpTable i).ipaddr = ipaddr ∧
      (∀ j, j ≠ i → h'.arpTable j = h.arpTable j) ∧
      (((h.arpTable i).state ≠ .empty ∧ h' = h) ∨
        ((∀ j, (h.arpTable j).state ≠ .empty → (h.arpTable j).ipaddr ≠ ipaddr) ∧
          (h'.arpTable i).state = .empty ∧ h.Victim i ∧
          h'.freed = h.freed ++ ((h.arpTable i).q.map fun p => ((h.arpTable i).ipaddr, p)).toList)) :=
  Host.findEntry_recycles _ (follows_run netif es).knows.queue ipaddr

/-! ### The books of a run -/

namespace Host

theorem books_step {h : Host} (hq : h.QueueOk) (e : Event) : (h.step e).books = h.books + h.taken e := by
  cases e with
  | output q ipaddr room alloc => exact books_etharpOutput hq q ipaddr room alloc
  | query ipaddr q alloc =>
    cases q with
    | none => exact (books_etharpQuery_none hq ipaddr alloc).trans (add_zero _).symm
    | some q => exact books_etharpQuery hq ipaddr q alloc
  | request ipaddr alloc => exact (books_etharpRequest h ipaddr alloc).trans (add_zero _).symm
  | tmr => exact (books_etharpTmr h).trans (add_zero _).symm
  | input frame =>
    refine Eq.trans ?_ (add_zero _).symm
    change (h.ethernetInput frame).books = h.books
    unfold ethernetInput
    split
    · rfl
    · split
      · split <;> rfl
      · split
        · split
          · unfold etharpArpInput
            dsimp only
            split
            · rfl
            · split
              · rfl
              · split
                · rw [books_emit, books_updateArpEntry hq]
                  exact add_zero _
                · exact books_updateArpEntry hq _ _ _
          · rfl
        · rfl
  | configure ipAddr netmask gw => exact (add_zero _).symm

/-- All packets for neighbours that a run takes. -/
def takenAlong (h : Host) : List Event → Multiset (IpAddr × List Byte)
  | [] => 0
  | e :: es => h.taken e + (h.step e).takenAlong es

end Host

/-- **No packet is lost or doubled.**  Of all the packets for neighbours that `etharp_output` and
`etharp_query` have reported success for, each was sent once to the neighbour it was for, or freed
once, or waits for an answer, with all its bytes. -/
theorem books_run (netif : Netif) (es : List Event) :
    let h := Machine.run Host.step (Host.boot netif) es
    (h.sent.map Sent.packet).sum + h.freed + h.waiting = (Host.boot netif).takenAlong es := by
  have hrun : ∀ (es : List Event) (h : Host) (a : Heard), Follows h a →
      (Machine.run Host.step h es).books = h.books + h.takenAlong es := by
    intro es
    induction es with
    | nil => exact fun h a f => (add_zero _).symm
    | cons e es ih =>
      intro h a f
      rw [Machine.run_cons, ih _ _ (f.step e).1, Host.books_step f.knows.queue, Host.takenAlong,
        add_assoc]
  have hboot : (Host.boot netif).books = 0 := by
    unfold Host.books Host.waiting
    simp [Host.boot, Entry.waiting]
  have hbooks := hrun es _ _ (follows_boot netif)
  rw [hboot, zero_add] at hbooks
  exact hbooks

end Etharp
end Lwip
