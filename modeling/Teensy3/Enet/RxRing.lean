import Teensy3.Lib.Run
import Teensy3.Enet.Descriptor

/-!
# The receive ring

The receive side of both Ethernet drivers: `ether_poll` of `lwipk66.c`, and `loop` and `check_rx`
of `etherraw.ino`, which share `rxnum`.  All three look at the descriptor `rx_ring[rxnum]`, hand a
full buffer to a handler, and give the descriptor back.

A driver call is not atomic.  It is cut at the three places where the MAC may come in between:
the test of the flags, the call of the handler, and the rewriting of the flags.  The MAC keeps an
index of its own; it stores a frame only into a descriptor whose `E` bit is set, then clears `E`,
keeps `W`, and sets the other status bits as it likes.

The history fields `stored` and `handed` record the frames that the MAC has stored and the ones
that the driver has handed on.
-/

namespace Enet

open ByteMem Machine

/-- The two functions that a received frame is handed to. -/
inductive Handler
  | handleFrame
  | incoming
  deriving DecidableEq

/-- The driver functions that poll the receive ring. -/
inductive Poller
  | etherPoll
  | loop
  | checkRx
  deriving DecidableEq

/-- The handler that a polling function calls. -/
def Poller.handler : Poller → Handler
  | .etherPoll => .handleFrame
  | .loop => .incoming
  | .checkRx => .handleFrame

/-- Where a driver call stands: between calls, after a test that found the buffer full, or after
the return of the handler. -/
inductive RxPc
  | idle
  | full (h : Handler)
  | giveBack
  deriving DecidableEq

/-- The arguments of one call of a handler: `(buf->buffer, buf->length, buf->flags)`. -/
structure Handed where
  handler : Handler
  frame : List Byte
  flags : BitVec 16
  deriving DecidableEq

structure RxState where
  ring : ℕ → Desc
  bufs : ℕ → Byte
  rxnum : ℕ
  /-- The MAC's own index. -/
  mac : ℕ
  pc : RxPc
  stored : List (List Byte)
  handed : List Handed

/-- The receive ring after `memset` and the loop of `etherk66_init` and of `setup`. -/
def rxRingInit : ℕ → Desc :=
  setFlags (fun i => { length := 0, flags := 0x8000, buffer := i * bwords * 4 }) (rxSize - 1) 0xA000

def rxInit (bufs : ℕ → Byte) : RxState where
  ring := rxRingInit
  bufs := bufs
  rxnum := 0
  mac := 0
  pc := .idle
  stored := []
  handed := []

namespace RxState

/-! ### The driver -/

/-- The test of a driver call, `(buf->flags & 0x8000) == 0`. -/
def poll (h : Handler) (s : RxState) : RxState :=
  if owner0 (s.ring s.rxnum).flags then { s with pc := .full h } else s

/-- The call of the handler. -/
def hand (h : Handler) (s : RxState) : RxState :=
  { s with
    pc := .giveBack
    handed := s.handed ++
      [⟨h, (s.ring s.rxnum).frame s.bufs, (s.ring s.rxnum).flags⟩] }

/-- The rewriting of the flags, with the wrap bit made by hand for the last entry. -/
def giveBack (s : RxState) : RxState :=
  if s.rxnum < rxSize - 1 then
    { s with ring := setFlags s.ring s.rxnum 0x8000, rxnum := s.rxnum + 1, pc := .idle }
  else
    { s with ring := setFlags s.ring s.rxnum 0xA000, rxnum := 0, pc := .idle }

/-- A driver call that nothing interrupts. -/
def pollRx (h : Handler) (s : RxState) : RxState :=
  if owner0 (s.ring s.rxnum).flags then (s.hand h).giveBack else s

def etherPoll : RxState → RxState := pollRx Poller.etherPoll.handler
def loop : RxState → RxState := pollRx Poller.loop.handler
def checkRx : RxState → RxState := pollRx Poller.checkRx.handler

/-! ### The MAC -/

/-- The flags after a store: `E` cleared, `W` as it was, the rest as the MAC sets them. -/
def storedFlags (flags status : BitVec 16) : BitVec 16 :=
  (status &&& 0x5FFF#16) ||| (flags &&& 0x2000#16)

/-- The MAC stores a frame into the descriptor it stands at, if that is empty and the frame fits
into one buffer. -/
def store (frame : List Byte) (status : BitVec 16) (s : RxState) : RxState :=
  let d := s.ring s.mac
  if owner0 d.flags = false ∧ frame.length ≤ bufBytes then
    { s with
      ring := Function.update s.ring s.mac
        { d with length := BitVec.ofNat 16 frame.length, flags := storedFlags d.flags status }
      bufs := blit s.bufs d.buffer frame
      mac := macNext s.ring s.mac
      stored := s.stored ++ [frame] }
  else s

end RxState

/-! ### Interleavings -/

/-- What can happen next: the MAC stores a frame, a polling function is called, or the running
call takes one step. -/
inductive RxEvent
  | store (frame : List Byte) (status : BitVec 16)
  | call (p : Poller)
  | driver

open RxState

def rxStep (s : RxState) : RxEvent → RxState
  | .store frame status => s.store frame status
  | .call p => if s.pc = .idle then s.poll p.handler else s
  | .driver =>
    match s.pc with
    | .idle => s
    | .full h => s.hand h
    | .giveBack => s.giveBack

/-- A call whose steps follow one another without a store in between is the whole function. -/
theorem run_call {s : RxState} (hpc : s.pc = .idle) (p : Poller) :
    run rxStep s [.call p, .driver, .driver] = s.pollRx p.handler := by
  by_cases h : owner0 (s.ring s.rxnum).flags = true
  · simp [rxStep, hpc, poll, pollRx, hand, h]
  · simp [rxStep, hpc, poll, pollRx, h]

/-- A store changes nothing that the driver keeps, and adds at most its frame. -/
theorem store_keeps (s : RxState) (frame : List Byte) (status : BitVec 16) :
    (s.store frame status).pc = s.pc ∧ (s.store frame status).handed = s.handed ∧
      ((s.store frame status).stored = s.stored ∨
        (s.store frame status).stored = s.stored ++ [frame]) := by
  unfold RxState.store
  extract_lets d
  split_ifs
  · exact ⟨rfl, rfl, .inr rfl⟩
  · exact ⟨rfl, rfl, .inl rfl⟩

theorem poll_keeps (s : RxState) (h : Handler) :
    (s.poll h).stored = s.stored ∧ (s.poll h).handed = s.handed := by
  unfold RxState.poll
  split_ifs <;> exact ⟨rfl, rfl⟩

theorem giveBack_keeps (s : RxState) :
    s.giveBack.pc = .idle ∧ s.giveBack.stored = s.stored ∧ s.giveBack.handed = s.handed := by
  unfold RxState.giveBack
  split_ifs <;> exact ⟨rfl, rfl, rfl⟩

/-! ### The ring of slots behind it -/

/-- The receive ring as a ring of slots: the MAC fills, the driver empties, and a slot is full
when its `E` bit is clear. -/
def RxState.slots (s : RxState) : SlotRing rxSize (List Byte) where
  full i := owner0 (s.ring i).flags
  data i := (s.ring i).frame s.bufs
  head := s.rxnum
  tail := s.mac

/-- The frames in the full descriptors, in ring order from `rxnum` on. -/
def RxState.full (s : RxState) : List (List Byte) := s.slots.held

/-- The frames in full descriptors that are still to be handed on: all of them, except for the
one whose handler has already returned. -/
def RxState.waiting (s : RxState) : List (List Byte) :=
  match s.pc with
  | .giveBack => s.full.tail
  | _ => s.full

/-- The invariant of the receive side. -/
structure RxInv (s : RxState) : Prop where
  ok : RingOk rxSize s.ring
  slots : s.slots.Inv
  /-- A call under way has a full descriptor in hand. -/
  busy : s.pc ≠ .idle → owner0 (s.ring s.rxnum).flags = true
  order : s.handed.map Handed.frame ++ s.waiting = s.stored

theorem owner0_storedFlags (flags status : BitVec 16) :
    owner0 (storedFlags flags status) = true := by
  simp [owner0_eq, storedFlags]

theorem wrap_storedFlags (flags status : BitVec 16) :
    wrap (storedFlags flags status) = wrap flags := by
  simp [wrap_eq, storedFlags]

/-! ### What each step does to the ring of slots -/

section Steps

variable {s : RxState}

/-- A store fills the slot at the MAC's index. -/
theorem pushes_store {frame : List Byte} (status : BitVec 16) (hs : RxInv s)
    (he : owner0 (s.ring s.mac).flags = false) (hlen : frame.length ≤ bufBytes) :
    s.slots.Pushes frame (s.store frame status).slots := by
  have hmac : s.mac < rxSize := hs.slots.tail_lt
  have hbuf := hs.ok.buffer_eq _ hmac
  simp only [RxState.store, he, hlen, and_self, if_true]
  refine ⟨he, ?_, ?_, ?_, rfl, ?_⟩
  · simp [RxState.slots, owner0_storedFlags]
  · simp only [RxState.slots, Function.update_self, Desc.frame, toNat_ofNat_length hlen]
    exact read_blit_self _ _ _
  · exact hs.ok.macNext_eq hmac
  · intro i hi hne
    have hne' : i ≠ s.mac := hne
    simp only [RxState.slots, Function.update_of_ne hne', hbuf, true_and]
    intro _
    have hframe := hs.ok.frame_blit hi hne' s.bufs (show 0 + frame.length ≤ bufBytes by omega)
    rwa [Nat.add_zero] at hframe

theorem rxInv_store (frame : List Byte) (status : BitVec 16) (hs : RxInv s) :
    RxInv (s.store frame status) := by
  by_cases h : owner0 (s.ring s.mac).flags = false ∧ frame.length ≤ bufBytes
  case neg =>
    have : s.store frame status = s := by
      unfold RxState.store
      exact if_neg h
    rwa [this]
  obtain ⟨he, hlen⟩ := h
  have hmac : s.mac < rxSize := hs.slots.tail_lt
  have hpush := pushes_store status hs he hlen
  have hfull : (s.store frame status).full = s.full ++ [frame] := SlotRing.held_push hs.slots hpush
  refine ⟨?_, SlotRing.inv_push hs.slots hpush, ?_, ?_⟩
  · -- the store keeps the buffer and the wrap bit of its descriptor
    simp only [RxState.store, he, hlen, and_self, if_true]
    refine hs.ok.update (hs.ok.buffer_eq _ hmac) ?_ ?_
    · simpa [toNat_ofNat_length hlen] using hlen
    · simpa [wrap_storedFlags] using hs.ok.wrap_iff _ hmac
  · intro hpc
    have hpc' : s.pc ≠ .idle := by
      simpa [RxState.store, he, hlen] using hpc
    have hne : s.rxnum ≠ s.mac := by
      intro heq
      have := hs.busy hpc'
      rw [heq, he] at this
      exact absurd this (by decide)
    have := hs.busy hpc'
    simpa [RxState.store, he, hlen, Function.update_of_ne hne] using this
  · have horder := hs.order
    have hhanded : (s.store frame status).handed = s.handed := by simp [RxState.store, he, hlen]
    have hstored : (s.store frame status).stored = s.stored ++ [frame] := by
      simp [RxState.store, he, hlen]
    have hpc : (s.store frame status).pc = s.pc := by simp [RxState.store, he, hlen]
    rw [hhanded, hstored, ← horder, List.append_assoc]
    congr 1
    unfold RxState.waiting
    rw [hpc, hfull]
    cases hs' : s.pc with
    | idle => rfl
    | full h => rfl
    | giveBack =>
      -- the descriptor in hand is full, so the new frame is not the one that is skipped
      obtain ⟨l, hl⟩ := SlotRing.held_eq_cons hs.slots (hs.busy (by simp [hs']))
      have : s.full = s.slots.data s.slots.head :: l := hl
      simp [this]

theorem rxInv_poll (h : Handler) (hs : RxInv s) (hpc : s.pc = .idle) : RxInv (s.poll h) := by
  unfold RxState.poll
  split_ifs with hf
  · have horder := hs.order
    simp only [RxState.waiting, hpc] at horder
    exact ⟨hs.ok, hs.slots, fun _ => hf, horder⟩
  · exact hs

theorem rxInv_hand (h : Handler) (hs : RxInv s) (hpc : s.pc = .full h) : RxInv (s.hand h) := by
  have hf := hs.busy (by simp [hpc])
  obtain ⟨l, hl⟩ := SlotRing.held_eq_cons hs.slots hf
  have hfull : s.full = (s.ring s.rxnum).frame s.bufs :: l := hl
  have horder := hs.order
  simp only [RxState.waiting, hpc] at horder
  refine ⟨hs.ok, hs.slots, fun _ => hf, ?_⟩
  change (s.handed ++ [_]).map Handed.frame ++ s.full.tail = s.stored
  rw [← horder, hfull]
  simp

/-- Giving the descriptor back empties the slot at `rxnum` and moves on. -/
theorem pops_giveBack (hf : owner0 (s.ring s.rxnum).flags = true) :
    s.slots.Pops ((s.ring s.rxnum).frame s.bufs) s.giveBack.slots := by
  have hflags : ∀ fl : BitVec 16, s.slots.SameBut s.rxnum
      { s.slots with full := fun i => owner0 (setFlags s.ring s.rxnum fl i).flags,
                     data := fun i => (setFlags s.ring s.rxnum fl i).frame s.bufs } := by
    intro fl i _ hne
    have hne' : i ≠ s.rxnum := hne
    simp only [setFlags_of_ne hne']
    exact ⟨rfl, fun _ => rfl⟩
  unfold RxState.giveBack
  split_ifs with hlt
  · refine ⟨hf, ?_, rfl, ?_, rfl, hflags 0x8000⟩
    · simp [RxState.slots, owner0]
    · simp [RxState.slots, SlotRing.next, hlt]
  · refine ⟨hf, ?_, rfl, ?_, rfl, hflags 0xA000⟩
    · simp [RxState.slots, owner0]
    · simp [RxState.slots, SlotRing.next, hlt]

theorem rxInv_giveBack (hs : RxInv s) (hpc : s.pc = .giveBack) : RxInv s.giveBack := by
  have hf := hs.busy (by simp [hpc])
  have hpop := pops_giveBack hf
  have hlt : s.rxnum < rxSize := hs.slots.head_lt
  have hfull : s.full = _ :: s.giveBack.full := SlotRing.held_pop hs.slots hpop
  obtain ⟨hidle, hstored, hhanded⟩ := giveBack_keeps s
  refine ⟨?_, SlotRing.inv_pop hs.slots hpop, fun h => absurd hidle h, ?_⟩
  · -- `0xA000` is written exactly at the last entry
    unfold RxState.giveBack
    split_ifs with h
    · exact hs.ok.setFlags hlt (by simp [wrap]; omega)
    · exact hs.ok.setFlags hlt (by simp [wrap]; omega)
  · have horder := hs.order
    simp only [RxState.waiting, hpc, hfull, List.tail_cons] at horder
    simpa [RxState.waiting, hidle, hhanded, hstored] using horder

end Steps

/-! ### Runs -/

theorem rxRingInit_ok : RingOk rxSize rxRingInit := ⟨by decide, by decide, by decide⟩

theorem rxInv_init (bufs : ℕ → Byte) : RxInv (rxInit bufs) := by
  have hcount : (rxInit bufs).slots.Count 0 :=
    SlotRing.count_zero (show 0 < rxSize by decide) rfl
      (show ∀ i < rxSize, owner0 (rxRingInit i).flags = false by decide)
  refine ⟨rxRingInit_ok, ⟨0, hcount⟩, fun h => absurd rfl h, ?_⟩
  change [] ++ (rxInit bufs).slots.held = []
  rw [hcount.held_eq]
  rfl

/-- Every step keeps the invariant. -/
theorem rxInv_step (s : RxState) (e : RxEvent) (hs : RxInv s) : RxInv (rxStep s e) := by
  cases e with
  | store frame status => exact rxInv_store frame status hs
  | call p =>
    simp only [rxStep]
    split_ifs with hpc
    · exact rxInv_poll _ hs hpc
    · exact hs
  | driver =>
    simp only [rxStep]
    cases hpc : s.pc with
    | idle => exact hs
    | full h => exact rxInv_hand h hs hpc
    | giveBack => exact rxInv_giveBack hs hpc

theorem rxInv_run (bufs : ℕ → Byte) (es : List RxEvent) : RxInv (run rxStep (rxInit bufs) es) :=
  run_induction rxInv_step (rxInv_init bufs) es

/-- **Exactly-once, in-order reception.** For every interleaving of the MAC's stores with the
steps of `ether_poll`, `loop` and `check_rx`, the frames handed to `handle_frame` and `incoming`,
followed by those that wait in full descriptors, are the frames the MAC stored, in order; `rxnum`
stays inside the ring, and `W` is set on the last entry and on no other. -/
theorem rx_exactly_once (bufs : ℕ → Byte) (es : List RxEvent) :
    let s := run rxStep (rxInit bufs) es
    s.handed.map Handed.frame ++ s.waiting = s.stored ∧
      s.rxnum < 12 ∧ ∀ i < 12, wrap (s.ring i).flags = true ↔ i = 11 := by
  have h := rxInv_run bufs es
  exact ⟨h.order, h.slots.head_lt, h.ok.wrap_iff⟩

end Enet
