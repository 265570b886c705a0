import Teensy3.Enet.RxRing

/-!
# Arming of the receiver

The MAC reads receive descriptors only while `ENET_RDAR` is set.  When a frame arrives and the
descriptor at the MAC's index is still full, the MAC clears `RDAR` and stores nothing more until
software writes `ENET_RDAR` again.  Both drivers write it once, at the end of `etherk66_init` and
of `setup`; neither `ether_poll` nor `loop` nor `check_rx` writes it when it gives a descriptor
back (the transmit side does write `ENET_TDAR` for every descriptor).

So reception depends on the ring never being full when a frame arrives, and `never_stalled_iff`
says that it depends on nothing else.
-/

namespace Enet

open Machine

/-- The receive side together with `ENET_RDAR`. -/
structure ArmState where
  rx : RxState
  rdar : Bool

def armInit (bufs : ℕ → Byte) : ArmState := ⟨rxInit bufs, true⟩

/-- A frame arrives from the wire, a polling function is called, or a running call takes one
step. -/
inductive ArmEvent
  | arrive (frame : List Byte) (status : BitVec 16)
  | call (p : Poller)
  | driver

/-- The steps of the driver. -/
def ArmEvent.isDriver : ArmEvent → Bool
  | .arrive _ _ => false
  | .call _ => true
  | .driver => true

/-- The MAC looks at its descriptor when a frame arrives, and at no other time: only an arrival that
finds the ring full clears `RDAR`. -/
def armStep (s : ArmState) : ArmEvent → ArmState
  | .arrive frame status =>
    if s.rdar then
      if owner0 (s.rx.ring s.rx.mac).flags then { s with rdar := false }
      else { s with rx := rxStep s.rx (.store frame status) }
    else s
  | .call p => { s with rx := rxStep s.rx (.call p) }
  | .driver => { s with rx := rxStep s.rx .driver }

/-- Reception has stopped for good: `RDAR` is clear although the MAC's descriptor is empty, and
no step that is still to come sets it again. -/
def Stalled (s : ArmState) : Prop :=
  s.rdar = false ∧ owner0 (s.rx.ring s.rx.mac).flags = false ∧
    ∀ es, (run armStep s es).rdar = false

/-- A frame arrives only while some descriptor is empty. -/
def Room (s : ArmState) : ArmEvent → Prop
  | .arrive _ _ => ∃ i < rxSize, owner0 (s.rx.ring i).flags = false
  | _ => True

instance (s : ArmState) (e : ArmEvent) : Decidable (Room s e) := by
  cases e <;> unfold Room <;> infer_instance

/-! ### What the steps do -/

theorem armStep_rxInv (s : ArmState) (e : ArmEvent) (hs : RxInv s.rx) : RxInv (armStep s e).rx := by
  cases e with
  | arrive frame status =>
    simp only [armStep]
    split_ifs
    · exact hs
    · exact rxInv_step s.rx (.store frame status) hs
    · exact hs
  | call p => exact rxInv_step s.rx (.call p) hs
  | driver => exact rxInv_step s.rx .driver hs

theorem arm_rxInv (bufs : ℕ → Byte) (es : List ArmEvent) :
    RxInv (run armStep (armInit bufs) es).rx :=
  run_induction (P := fun s : ArmState => RxInv s.rx) armStep_rxInv (rxInv_init bufs) es

/-- No step sets `RDAR`. -/
theorem rdar_step (s : ArmState) (e : ArmEvent) (h : s.rdar = false) :
    (armStep s e).rdar = false := by
  cases e with
  | arrive frame status => simp [armStep, h]
  | call p => exact h
  | driver => exact h

theorem rdar_run {s : ArmState} (h : s.rdar = false) (es : List ArmEvent) :
    (run armStep s es).rdar = false :=
  run_induction rdar_step h es

theorem rdar_driver {s : ArmState} {es : List ArmEvent} (hes : ∀ e ∈ es, e.isDriver = true) :
    (run armStep s es).rdar = s.rdar := by
  induction es generalizing s with
  | nil => rfl
  | cons e es ih =>
    rw [run_cons, ih fun e' he' => hes e' (List.mem_cons_of_mem _ he')]
    have he := hes e List.mem_cons_self
    cases e with
    | arrive frame status => simp [ArmEvent.isDriver] at he
    | call p => rfl
    | driver => rfl

/-- An empty descriptor anywhere means an empty descriptor at the MAC's index. -/
theorem mac_empty_iff {s : RxState} (hs : RxInv s) :
    owner0 (s.ring s.mac).flags = false ↔ ∃ i < rxSize, owner0 (s.ring i).flags = false := by
  constructor
  · intro h
    exact ⟨s.mac, hs.slots.tail_lt, h⟩
  · rintro ⟨i, hi, hempty⟩
    cases hfull : owner0 (s.ring s.mac).flags with
    | false => rfl
    | true =>
      have hi' : owner0 (s.ring i).flags = true :=
        ((SlotRing.tail_full_iff hs.slots).1 hfull).2 i hi
      rw [← hi', hempty]

/-- An arrival clears `RDAR` exactly when it finds no room. -/
theorem rdar_step_iff {s : ArmState} (hs : RxInv s.rx) (hrdar : s.rdar = true) (e : ArmEvent) :
    (armStep s e).rdar = true ↔ Room s e := by
  cases e with
  | arrive frame status =>
    simp only [Room, ← mac_empty_iff hs, armStep, hrdar, if_true]
    split_ifs with hfull
    · simp [hfull]
    · simp [hfull]
  | call p => simp [armStep, Room, hrdar]
  | driver => simp [armStep, Room, hrdar]

/-- `RDAR` is set at the end of a run exactly if every frame of it found room. -/
theorem rdar_run_iff {s : ArmState} (hs : RxInv s.rx) (hrdar : s.rdar = true)
    (es : List ArmEvent) : (run armStep s es).rdar = true ↔ Along armStep Room s es := by
  induction es generalizing s with
  | nil => simp [hrdar]
  | cons e es ih =>
    rw [run_cons, along_cons, ← rdar_step_iff hs hrdar]
    cases hstep : (armStep s e).rdar with
    | true => rw [ih (armStep_rxInv s e hs) hstep, eq_self, true_and]
    | false => simp [rdar_run hstep es]

/-! ### Once clear, always clear -/

/-- From a full ring the driver, whatever it was doing, can give back the descriptor that the MAC
waits for. -/
theorem exists_driver_empties {s : ArmState} (hs : RxInv s.rx)
    (hfull : owner0 (s.rx.ring s.rx.mac).flags = true) :
    ∃ es, (∀ e ∈ es, e.isDriver = true) ∧
      owner0 ((run armStep s es).rx.ring (run armStep s es).rx.mac).flags = false := by
  have hmac : s.rx.mac = s.rx.rxnum := ((SlotRing.tail_full_iff hs.slots).1 hfull).1
  have hback : ∀ t : RxState, t.mac = t.rxnum →
      owner0 (t.giveBack.ring t.giveBack.mac).flags = false := by
    intro t ht
    unfold RxState.giveBack
    split_ifs <;> simp [ht, owner0]
  rw [hmac] at hfull
  cases hpc : s.rx.pc with
  | idle =>
    refine ⟨[.call .etherPoll, .driver, .driver], by decide, ?_⟩
    have := hback (s.rx.hand Poller.etherPoll.handler) hmac
    simpa [armStep, rxStep, hpc, RxState.poll, RxState.hand, hfull] using this
  | full h =>
    refine ⟨[.driver, .driver], by decide, ?_⟩
    have := hback (s.rx.hand h) hmac
    simpa [armStep, rxStep, hpc, RxState.hand] using this
  | giveBack =>
    refine ⟨[.driver], by decide, ?_⟩
    simpa [armStep, rxStep, hpc] using hback _ hmac

/-- A clear `RDAR` cannot be repaired: the driver's own steps lead to a stalled state. -/
theorem exists_stalled {s : ArmState} (hs : RxInv s.rx) (hrdar : s.rdar = false) :
    ∃ es, (∀ e ∈ es, e.isDriver = true) ∧ Stalled (run armStep s es) := by
  cases hmac : owner0 (s.rx.ring s.rx.mac).flags with
  | false => exact ⟨[], by simp, hrdar, hmac, rdar_run hrdar⟩
  | true =>
    obtain ⟨es, hes, hempty⟩ := exists_driver_empties hs hmac
    exact ⟨es, hes, rdar_run hrdar es, hempty, rdar_run (rdar_run hrdar es)⟩

/-- **When reception can stall.** In a run of arrivals and driver steps no state reached, nor any
that the driver goes on to reach from there, is stalled, if and only if no frame of the run
arrives while all descriptors are full.  A ring that is full between two arrivals does no harm here,
since the MAC looks at its descriptor on an arrival only. -/
theorem never_stalled_iff (bufs : ℕ → Byte) (es : List ArmEvent) :
    (∀ fs, fs <+: es → ∀ ds, (∀ e ∈ ds, e.isDriver = true) →
        ¬ Stalled (run armStep (armInit bufs) (fs ++ ds))) ↔
      Along armStep Room (armInit bufs) es := by
  constructor
  · intro h
    rw [← rdar_run_iff (rxInv_init bufs) rfl es]
    by_contra hrdar
    obtain ⟨ds, hds, hst⟩ := exists_stalled (arm_rxInv bufs es) (by simpa using hrdar)
    exact h es List.prefix_rfl ds hds (by rwa [run_append])
  · rintro hroom fs ⟨gs, rfl⟩ ds hds hst
    have hrdar := (rdar_run_iff (rxInv_init bufs) rfl fs).2 hroom.of_append
    have hset := rdar_driver (s := run armStep (armInit bufs) fs) hds
    rw [hrdar, ← run_append, hst.1] at hset
    exact absurd hset (by decide)

/-- Thirteen frames between two polls: the thirteenth finds the ring full, and after the next
poll reception is stopped for good. -/
theorem burst_stalls :
    Stalled (run armStep (armInit fun _ => 0)
      (List.replicate 13 (.arrive [0x55] 0x0800) ++ [.call .etherPoll, .driver, .driver])) := by
  refine ⟨by decide, by decide, rdar_run (by decide)⟩

end Enet
