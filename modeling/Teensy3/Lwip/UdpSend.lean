import Mathlib.Data.Finset.Basic
import Mathlib.Tactic

/-!
# What the UDP senders take and give back

`udp_echo`, `udp_ntp` and `udp_blast` of `lwiptst.ino` take a `udp_pcb`, take and free a pbuf for
each packet, and end with `pbuf_free(p); udp_remove(pcb);`.  `udp_chirp` of `mtalk.ino.tmp` sends
a single packet.

The `World` keeps a ledger of pbufs and pcbs: each one that is handed out gets a number of its
own, so that a pbuf is told apart from another that is later put at the same address.
`udp_sendto` leaves the reference count of its pbuf as it found it, so it changes nothing here.
A function that dereferences a null pointer, or that waits for a reply that never comes, does not
return: its result is `none`.
-/

namespace Lwip
namespace UdpSend

/-- The values of the variable `p`. -/
inductive PbufPtr
  /-- Not yet assigned to. -/
  | uninit
  | null
  | pbuf (id : ℕ)
  deriving DecidableEq

structure World where
  /-- How many pbufs `pbuf_alloc` has handed out. -/
  nextPbuf : ℕ
  /-- How many pcbs `udp_new` has handed out. -/
  nextPcb : ℕ
  /-- The live pbufs. -/
  pbufs : Finset ℕ
  /-- The live pcbs. -/
  pcbs : Finset ℕ
  /-- The arguments of `pbuf_free`, in order. -/
  frees : List PbufPtr
  /-- Those of them that were not live pbufs at the time. -/
  badFrees : List PbufPtr
  pbufs_lt : ∀ id ∈ pbufs, id < nextPbuf
  pcbs_lt : ∀ id ∈ pcbs, id < nextPcb

/-- What the environment decides: whether there is a free pcb, whether `pbuf_alloc` succeeds for
packet `i` of a given length, and whether a reply to packet `i` ever comes. -/
structure Env where
  pcbOk : Bool
  allocOk : (len i : ℕ) → Bool
  replied : ℕ → Bool

/-! ### lwIP -/

def pbufAlloc (w : World) (ok : Bool) : PbufPtr × World :=
  if ok then
    (.pbuf w.nextPbuf,
      { w with
        nextPbuf := w.nextPbuf + 1
        pbufs := insert w.nextPbuf w.pbufs
        pbufs_lt := by
          intro id hid
          rcases Finset.mem_insert.1 hid with rfl | h
          · exact Nat.lt_succ_self _
          · exact Nat.lt_succ_of_lt (w.pbufs_lt id h) })
  else (.null, w)

/-- The pointer points to a live pbuf. -/
def PbufPtr.Live (w : World) : PbufPtr → Prop
  | .pbuf id => id ∈ w.pbufs
  | _ => False

instance (w : World) : DecidablePred (PbufPtr.Live w)
  | .pbuf id => inferInstanceAs (Decidable (id ∈ w.pbufs))
  | .null => inferInstanceAs (Decidable False)
  | .uninit => inferInstanceAs (Decidable False)

/-- The live pbufs without the one at `p`. -/
def World.without (w : World) : PbufPtr → Finset ℕ
  | .pbuf id => w.pbufs.erase id
  | _ => w.pbufs

theorem World.without_subset (w : World) (p : PbufPtr) : w.without p ⊆ w.pbufs := by
  cases p with
  | pbuf id => exact Finset.erase_subset id w.pbufs
  | _ => exact Finset.Subset.refl _

/-- `pbuf_free`: the reference count of a live pbuf of these senders is 1, so it is released. -/
def pbufFree (w : World) (p : PbufPtr) : World :=
  { w with
    pbufs := w.without p
    frees := w.frees ++ [p]
    badFrees := if p.Live w then w.badFrees else w.badFrees ++ [p]
    pbufs_lt := fun id hid => w.pbufs_lt id (w.without_subset p hid) }

def udpNew (w : World) (ok : Bool) : Option ℕ × World :=
  if ok then
    (some w.nextPcb,
      { w with
        nextPcb := w.nextPcb + 1
        pcbs := insert w.nextPcb w.pcbs
        pcbs_lt := by
          intro id hid
          rcases Finset.mem_insert.1 hid with rfl | h
          · exact Nat.lt_succ_self _
          · exact Nat.lt_succ_of_lt (w.pcbs_lt id h) })
  else (none, w)

def udpRemove (w : World) (pcb : ℕ) : World :=
  { w with
    pcbs := w.pcbs.erase pcb
    pcbs_lt := fun id hid => w.pcbs_lt id (Finset.mem_of_mem_erase hid) }

/-! ### The senders -/

/-- One turn of a sender's loop: `pbuf_alloc`, `udp_sendto`, for `udp_echo` the wait for the
reply, and `pbuf_free`.  It leaves the variable `p` pointing to the pbuf. -/
def sendPacket (env : Env) (len : ℕ) (awaitsReply : Bool) (i : ℕ) (w : World) :
    Option (PbufPtr × World) :=
  match pbufAlloc w (env.allocOk len i) with
  | (.pbuf id, w) =>
    if awaitsReply && !env.replied i then none else some (.pbuf id, pbufFree w (.pbuf id))
  | _ => none

/-- The `for` loop from packet `i` on, with `k` packets to go. -/
def sendLoop (env : Env) (len : ℕ) (awaitsReply : Bool) :
    (i k : ℕ) → PbufPtr → World → Option (PbufPtr × World)
  | _, 0, p, w => some (p, w)
  | i, k + 1, _, w =>
    match sendPacket env len awaitsReply i w with
    | some (p, w) => sendLoop env len awaitsReply (i + 1) k p w
    | none => none

/-- What `udp_echo`, `udp_ntp` and `udp_blast` have in common. -/
def sendPackets (env : Env) (pkts len : ℕ) (awaitsReply : Bool) (w : World) : Option World :=
  match udpNew w env.pcbOk with
  | (some pcb, w) =>
    match sendLoop env len awaitsReply 0 pkts .uninit w with
    | some (p, w) => some (udpRemove (pbufFree w p) pcb)
    | none => none
  | (none, _) => none

def udpEcho (env : Env) (pkts bytes : ℕ) : World → Option World := sendPackets env pkts bytes true

def udpNtp (env : Env) (pkts : ℕ) : World → Option World := sendPackets env pkts 48 false

def udpBlast (env : Env) (pkts bytes : ℕ) : World → Option World :=
  sendPackets env pkts bytes false

/-- One packet, and no `udp_remove`. -/
def udpChirp (env : Env) (bytes : ℕ) (w : World) : Option World :=
  match udpNew w env.pcbOk with
  | (some _, w) =>
    match sendPacket env bytes false 0 w with
    | some (_, w) => some w
    | none => none
  | (none, _) => none

/-- A call of one of the four functions. -/
inductive Call
  | udpEcho (pkts bytes : ℕ)
  | udpNtp (pkts : ℕ)
  | udpBlast (pkts bytes : ℕ)
  | udpChirp (bytes : ℕ)
  deriving DecidableEq

def Call.exec (env : Env) : Call → World → Option World
  | .udpEcho pkts bytes => UdpSend.udpEcho env pkts bytes
  | .udpNtp pkts => UdpSend.udpNtp env pkts
  | .udpBlast pkts bytes => UdpSend.udpBlast env pkts bytes
  | .udpChirp bytes => UdpSend.udpChirp env bytes

/-- What a call has to do on its way from `w` to `w'`. -/
structure ReleasesOnce (w w' : World) : Prop where
  /-- Every pbuf that it obtained was passed to `pbuf_free` once. -/
  once : ∃ fs, w'.frees = w.frees ++ fs ∧
    ∀ id, w.nextPbuf ≤ id → id < w'.nextPbuf → fs.count (.pbuf id) = 1
  /-- Nothing else was passed to `pbuf_free`. -/
  noBadFrees : w'.badFrees = w.badFrees
  /-- Every pcb that it created was removed. -/
  removed : ∀ id, w.nextPcb ≤ id → id < w'.nextPcb → id ∉ w'.pcbs

/-! ### One packet -/

theorem not_live_uninit (w : World) : ¬ PbufPtr.Live w .uninit := fun h => h

theorem badFrees_pbufFree {w : World} {p : PbufPtr} (h : ¬ p.Live w) :
    (pbufFree w p).badFrees = w.badFrees ++ [p] :=
  if_neg h

/-- What a sender has done between `w` and `w'` when its loop has sent `k` packets. -/
structure Sent (k : ℕ) (w w' : World) : Prop where
  nextPbuf : w'.nextPbuf = w.nextPbuf + k
  nextPcb : w'.nextPcb = w.nextPcb
  pbufs : w'.pbufs = w.pbufs
  pcbs : w'.pcbs = w.pcbs
  frees : w'.frees = w.frees ++ (List.range' w.nextPbuf k).map .pbuf
  badFrees : w'.badFrees = w.badFrees

theorem Sent.refl (w : World) : Sent 0 w w := ⟨rfl, rfl, rfl, rfl, by simp, rfl⟩

theorem Sent.trans {k l : ℕ} {w w' w'' : World} (h : Sent k w w') (h' : Sent l w' w'') :
    Sent (k + l) w w'' where
  nextPbuf := by rw [h'.nextPbuf, h.nextPbuf, Nat.add_assoc]
  nextPcb := h'.nextPcb.trans h.nextPcb
  pbufs := h'.pbufs.trans h.pbufs
  pcbs := h'.pcbs.trans h.pcbs
  frees := by
    rw [h'.frees, h.frees, h.nextPbuf, List.append_assoc, ← List.map_append,
      List.range'_append_1]
  badFrees := h'.badFrees.trans h.badFrees

/-- The environment lets packet `i` through. -/
def Env.Passes (env : Env) (len : ℕ) (awaitsReply : Bool) (i : ℕ) : Prop :=
  env.allocOk len i = true ∧ (awaitsReply = true → env.replied i = true)

/-- A packet that is let through is sent, and its pbuf is released. -/
theorem sendPacket_passes {env : Env} {len : ℕ} {awaitsReply : Bool} {i : ℕ} {w : World}
    (h : env.Passes len awaitsReply i) :
    ∃ p w', sendPacket env len awaitsReply i w = some (p, w') ∧ Sent 1 w w' ∧ ¬ p.Live w' := by
  obtain ⟨hok, hreply⟩ := h
  have hwait : (awaitsReply && !env.replied i) = false := by
    cases awaitsReply with
    | false => rfl
    | true => simp [hreply rfl]
  have hfresh : w.nextPbuf ∉ w.pbufs := fun hmem => lt_irrefl _ (w.pbufs_lt _ hmem)
  refine ⟨.pbuf w.nextPbuf, pbufFree (pbufAlloc w true).2 (.pbuf w.nextPbuf), ?_, ?_, ?_⟩
  · simp [sendPacket, pbufAlloc, hok, hwait]
  · refine ⟨rfl, rfl, Finset.erase_insert hfresh, rfl, rfl, ?_⟩
    exact if_pos (Finset.mem_insert_self w.nextPbuf w.pbufs)
  · exact Finset.notMem_erase w.nextPbuf _

/-- A sender gets stuck at a packet that is not let through. -/
theorem sendPacket_stuck {env : Env} {len : ℕ} {awaitsReply : Bool} {i : ℕ} {w : World}
    (h : ¬ env.Passes len awaitsReply i) : sendPacket env len awaitsReply i w = none := by
  cases hok : env.allocOk len i with
  | false => simp [sendPacket, pbufAlloc, hok]
  | true =>
    have hwait : (awaitsReply && !env.replied i) = true := by
      cases awaitsReply <;> simp_all [Env.Passes]
    simp [sendPacket, pbufAlloc, hok, hwait]

/-! ### The loop -/

/-- The loop comes to its end if every packet is let through. -/
theorem sendLoop_passes {env : Env} {len : ℕ} {awaitsReply : Bool} {i k : ℕ} {p : PbufPtr}
    {w : World} (h : ∀ j, i ≤ j → j < i + k → env.Passes len awaitsReply j) (hp : ¬ p.Live w) :
    ∃ p' w', sendLoop env len awaitsReply i k p w = some (p', w') ∧ Sent k w w' ∧
      ¬ p'.Live w' := by
  induction k generalizing i p w with
  | zero => exact ⟨p, w, rfl, Sent.refl w, hp⟩
  | succ k ih =>
    obtain ⟨p₁, w₁, h₁, hsent, hp₁⟩ := sendPacket_passes (w := w) (h i le_rfl (by omega))
    obtain ⟨p', w', h', hsent', hp'⟩ :=
      ih (i := i + 1) (w := w₁) (fun j hij hj => h j (by omega) (by omega)) hp₁
    refine ⟨p', w', by rw [sendLoop, h₁]; exact h', ?_, hp'⟩
    rw [Nat.add_comm]
    exact hsent.trans hsent'

theorem sendLoop_stuck {env : Env} {len : ℕ} {awaitsReply : Bool} {i j k : ℕ} {p : PbufPtr}
    {w : World} (hij : i ≤ j) (hjk : j < i + k) (h : ¬ env.Passes len awaitsReply j) :
    sendLoop env len awaitsReply i k p w = none := by
  induction k generalizing i p w with
  | zero => omega
  | succ k ih =>
    rw [sendLoop]
    by_cases hi : i = j
    · rw [hi, sendPacket_stuck h]
    · cases sendPacket env len awaitsReply i w with
      | none => rfl
      | some r => exact ih (by omega) (by omega)

/-- When the loop returns, its pbufs are released and `p` points to no live one. -/
theorem sendLoop_some {env : Env} {len : ℕ} {awaitsReply : Bool} {i k : ℕ} {p p' : PbufPtr}
    {w w' : World} (hp : ¬ p.Live w)
    (h : sendLoop env len awaitsReply i k p w = some (p', w')) : Sent k w w' ∧ ¬ p'.Live w' := by
  by_cases hpass : ∀ j, i ≤ j → j < i + k → env.Passes len awaitsReply j
  · obtain ⟨p₁, w₁, h₁, hsent⟩ := sendLoop_passes hpass hp
    rw [h₁] at h
    obtain ⟨rfl, rfl⟩ := Prod.mk.inj (Option.some.inj h)
    exact hsent
  · push Not at hpass
    obtain ⟨j, hij, hjk, hj⟩ := hpass
    rw [sendLoop_stuck hij hjk hj] at h
    exact absurd h (by simp)

/-! ### The calls -/

/-- The world after a successful `udp_new`. -/
def World.newPcb (w : World) : World := (udpNew w true).2

theorem udpNew_true (w : World) : udpNew w true = (some w.nextPcb, w.newPcb) := rfl

theorem nextPcb_notMem (w : World) : w.nextPcb ∉ w.pcbs := fun h => lt_irrefl _ (w.pcbs_lt _ h)

/-- A sender that returns has released all its pbufs and its pcb, and has called `pbuf_free` once
more with `p`. -/
theorem sendPackets_some {env : Env} {pkts len : ℕ} {awaitsReply : Bool} {w w' : World}
    (h : sendPackets env pkts len awaitsReply w = some w') :
    w'.pbufs = w.pbufs ∧ w'.pcbs = w.pcbs ∧ ∃ p, w'.badFrees = w.badFrees ++ [p] := by
  cases hpcb : env.pcbOk with
  | false => simp [sendPackets, hpcb, udpNew] at h
  | true =>
    rw [sendPackets, hpcb, udpNew_true] at h
    cases hloop : sendLoop env len awaitsReply 0 pkts .uninit w.newPcb with
    | none => simp [hloop] at h
    | some r =>
      obtain ⟨p, w₁⟩ := r
      obtain ⟨hsent, hp⟩ := sendLoop_some (not_live_uninit _) hloop
      simp only [hloop, Option.some.injEq] at h
      subst h
      refine ⟨?_, ?_, p, ?_⟩
      · -- `p` is not live, so the last `pbuf_free` takes nothing from the ledger
        rw [← show w₁.pbufs = w.pbufs from hsent.pbufs]
        cases p with
        | pbuf id => exact Finset.erase_eq_of_notMem hp
        | _ => rfl
      · change w₁.pcbs.erase w.nextPcb = w.pcbs
        rw [hsent.pcbs]
        exact Finset.erase_insert (nextPcb_notMem w)
      · exact (badFrees_pbufFree hp).trans (congrArg (· ++ [p]) hsent.badFrees)

/-- With an environment that lets every packet through, a sender does return. -/
theorem sendPackets_returns {env : Env} {pkts len : ℕ} {awaitsReply : Bool} (w : World)
    (hpcb : env.pcbOk = true) (h : ∀ i < pkts, env.Passes len awaitsReply i) :
    ∃ w', sendPackets env pkts len awaitsReply w = some w' := by
  obtain ⟨p, w₁, hloop, -⟩ := sendLoop_passes (i := 0) (k := pkts) (w := w.newPcb)
    (fun j _ hj => h j (by omega)) (not_live_uninit _)
  refine ⟨udpRemove (pbufFree w₁ p) w.nextPcb, ?_⟩
  rw [sendPackets, hpcb, udpNew_true]
  simp only [hloop]

theorem udpChirp_returns {env : Env} {bytes : ℕ} (w : World) (hpcb : env.pcbOk = true)
    (h : env.Passes bytes false 0) : ∃ w', udpChirp env bytes w = some w' := by
  obtain ⟨p, w₁, hpkt, -⟩ := sendPacket_passes (w := w.newPcb) h
  refine ⟨w₁, ?_⟩
  rw [udpChirp, hpcb, udpNew_true]
  simp only [hpkt]

/-- `udp_chirp` has released its pbuf when it returns, and has left its pcb behind. -/
theorem udpChirp_some {env : Env} {bytes : ℕ} {w w' : World} (h : udpChirp env bytes w = some w') :
    Sent 1 w.newPcb w' := by
  cases hpcb : env.pcbOk with
  | false => simp [udpChirp, hpcb, udpNew] at h
  | true =>
    rw [udpChirp, hpcb, udpNew_true] at h
    by_cases hpass : env.Passes bytes false 0
    · obtain ⟨p, w₁, hpkt, hsent, -⟩ := sendPacket_passes (w := w.newPcb) hpass
      simp only [hpkt, Option.some.injEq] at h
      exact h ▸ hsent
    · simp [sendPacket_stuck hpass] at h

def Call.isChirp : Call → Bool
  | .udpChirp _ => true
  | _ => false

/-- The books after `chirps` calls of `udp_chirp` and `others` of the other functions: no pbuf is
left over, but a pcb by each `udp_chirp`, and a `pbuf_free` too many was made by each of the
others. -/
structure Books (chirps others : ℕ) (w w' : World) : Prop where
  pbufs : w'.pbufs = w.pbufs
  pcbs : w'.pcbs.card = w.pcbs.card + chirps
  badFrees : w'.badFrees.length = w.badFrees.length + others

theorem books_of_sendPackets {env : Env} {pkts len : ℕ} {awaitsReply : Bool} {w w' : World}
    (h : sendPackets env pkts len awaitsReply w = some w') : Books 0 1 w w' := by
  obtain ⟨hpbufs, hpcbs, p, hbad⟩ := sendPackets_some h
  exact ⟨hpbufs, by rw [hpcbs, Nat.add_zero], by simp [hbad]⟩

theorem books_exec {env : Env} {c : Call} {w w' : World} (h : c.exec env w = some w') :
    Books c.isChirp.toNat (!c.isChirp).toNat w w' := by
  cases c with
  | udpEcho pkts bytes => exact books_of_sendPackets h
  | udpNtp pkts => exact books_of_sendPackets h
  | udpBlast pkts bytes => exact books_of_sendPackets h
  | udpChirp bytes =>
    have hsent := udpChirp_some h
    refine ⟨hsent.pbufs, ?_, congrArg List.length hsent.badFrees⟩
    rw [hsent.pcbs]
    exact Finset.card_insert_of_notMem (nextPcb_notMem w)

/-- Calls one after another, each with an environment of its own. -/
def execAll : List (Env × Call) → World → Option World
  | [], w => some w
  | (env, c) :: cs, w => (c.exec env w).bind (execAll cs)

theorem books_execAll {cs : List (Env × Call)} {w w' : World} (h : execAll cs w = some w') :
    Books (cs.countP fun c => c.2.isChirp) (cs.countP fun c => !c.2.isChirp) w w' := by
  induction cs generalizing w with
  | nil =>
    obtain rfl := Option.some.inj h
    exact ⟨rfl, rfl, rfl⟩
  | cons c cs ih =>
    obtain ⟨w₁, h₁, h'⟩ := Option.bind_eq_some_iff.1 h
    obtain ⟨hpbufs, hpcbs, hbad⟩ := books_exec h₁
    obtain ⟨hpbufs', hpcbs', hbad'⟩ := ih h'
    refine ⟨hpbufs'.trans hpbufs, ?_, ?_⟩
    · rw [hpcbs', hpcbs, List.countP_cons]
      cases c.2.isChirp <;> simp
      omega
    · rw [hbad', hbad, List.countP_cons]
      cases c.2.isChirp <;> simp
      omega

/-- An environment that grants everything. -/
def generous : Env := ⟨true, fun _ _ => true, fun _ => true⟩

/-- There every call returns. -/
theorem exec_generous (c : Call) (w : World) : ∃ w', c.exec generous w = some w' := by
  have hpass : ∀ len awaitsReply i, generous.Passes len awaitsReply i :=
    fun _ _ _ => ⟨rfl, fun _ => rfl⟩
  cases c with
  | udpChirp bytes => exact udpChirp_returns w rfl (hpass bytes false 0)
  | _ => exact sendPackets_returns w rfl fun i _ => hpass _ _ i

/-- No call of a sender leaves everything released exactly once. -/
theorem not_releasesOnce_exec (env : Env) (c : Call) {w w' : World}
    (h : c.exec env w = some w') : ¬ ReleasesOnce w w' := by
  intro honce
  have hsender : ∀ {pkts len awaitsReply}, sendPackets env pkts len awaitsReply w ≠ some w' := by
    intro pkts len awaitsReply hsome
    obtain ⟨-, -, p, hbad⟩ := sendPackets_some hsome
    rw [honce.noBadFrees] at hbad
    simp at hbad
  cases c with
  | udpEcho pkts bytes => exact hsender h
  | udpNtp pkts => exact hsender h
  | udpBlast pkts bytes => exact hsender h
  | udpChirp bytes =>
    have hsent := udpChirp_some h
    refine honce.removed w.nextPcb le_rfl ?_ ?_
    · rw [hsent.nextPcb]
      exact Nat.lt_succ_self _
    · rw [hsent.pcbs]
      exact Finset.mem_insert_self _ _

/-- **The senders never balance.** No call of one of the four functions, whatever its arguments
and whatever the environment does, returns with everything released exactly once, and where
the environment grants everything every call does return.  After any number of calls there is
one more live pcb for each `udp_chirp`, and there has been one call of `pbuf_free` with something
that was no live pbuf for each of the others. -/
theorem senders_never_release_once (env : Env) (c : Call) (cs : List (Env × Call)) (w : World) :
    (¬ ∃ w', c.exec env w = some w' ∧ ReleasesOnce w w') ∧
    (∃ w', c.exec generous w = some w') ∧
    ∀ w', execAll cs w = some w' →
      w'.pbufs = w.pbufs ∧
      w'.pcbs.card = w.pcbs.card + cs.countP (fun c => c.2.isChirp) ∧
      w'.badFrees.length = w.badFrees.length + cs.countP fun c => !c.2.isChirp := by
  refine ⟨?_, exec_generous c w, ?_⟩
  · rintro ⟨w', hexec, honce⟩
    exact not_releasesOnce_exec env c hexec honce
  · intro w' h
    obtain ⟨hpbufs, hpcbs, hbad⟩ := books_execAll h
    exact ⟨hpbufs, hpcbs, hbad⟩

def noneTaken : World := ⟨0, 0, ∅, ∅, [], [], by simp, by simp⟩

/-- `udp_blast(1, 4)` frees its pbuf twice, `udp_ntp(0)` frees an uninitialised pointer, and
`udp_chirp` of one byte leaves its pcb. -/
theorem senders_unbalanced :
    (∃ w', Call.exec generous (.udpBlast 1 4) noneTaken = some w' ∧
      w'.badFrees = [.pbuf 0] ∧ ¬ ReleasesOnce noneTaken w') ∧
    (∃ w', Call.exec generous (.udpNtp 0) noneTaken = some w' ∧
      w'.badFrees = [.uninit] ∧ ¬ ReleasesOnce noneTaken w') ∧
    ∃ w', Call.exec generous (.udpChirp 1) noneTaken = some w' ∧
      w'.pcbs = {0} ∧ ¬ ReleasesOnce noneTaken w' :=
  ⟨⟨_, rfl, rfl, not_releasesOnce_exec generous (.udpBlast 1 4) rfl⟩,
    ⟨_, rfl, rfl, not_releasesOnce_exec generous (.udpNtp 0) rfl⟩,
    ⟨_, rfl, rfl, not_releasesOnce_exec generous (.udpChirp 1) rfl⟩⟩

end UdpSend
end Lwip
