import Teensy3.Lib.Run
import Teensy3.Enet.Descriptor

/-!
# The transmit ring

The transmit side of both drivers: `k66_low_level_output` of `lwipk66.c`, which gathers a chain of
pbufs into one buffer, and `outgoing` of `etherraw.ino`, which copies one packet.  Apart from the
copying the two are the same: spin on the descriptor `tx_ring[txnum]` until its `R` bit is clear,
write `length`, copy, or `0x8C00` into the flags that were read, write `ENET_TDAR`, and move on.

A call is cut wherever the MAC may come in between: at every reading of the flags in the spin
loop, before every `memcpy`, and before the flags are written.  The MAC keeps an index of its own;
it sends a descriptor whose `R` bit is set, then clears `R` and leaves the other flags alone.

The history fields `submitted` and `sent` record the byte strings that calls were made with and
the ones that the MAC has sent.
-/

namespace Enet

open ByteMem Machine

/-! ### What is sent -/

/-- A pbuf: `len` bytes at `payload` are in use. -/
structure Pbuf where
  payload : List Byte
  len : ℕ
  totLen : ℕ
  len_le : len ≤ payload.length

/-- The bytes that a pbuf carries. -/
def Pbuf.bytes (q : Pbuf) : List Byte := q.payload.take q.len

theorem Pbuf.length_bytes (q : Pbuf) : q.bytes.length = q.len := by
  simp [Pbuf.bytes, q.len_le]

/-- A chain of pbufs as `k66_low_level_output` is called with: `tot_len` of the first is the sum
of all `len` fields and fits into a buffer. -/
structure PbufChain where
  first : Pbuf
  next : List Pbuf
  totLen_eq : first.totLen = ((first :: next).map Pbuf.len).sum
  totLen_le : first.totLen ≤ bufBytes

/-- The arguments of `outgoing`. -/
structure RawPacket where
  packet : List Byte
  len : ℕ
  len_le : len ≤ packet.length
  len_le_buf : len ≤ bufBytes

inductive TxCall
  | k66LowLevelOutput (p : PbufChain)
  | outgoing (q : RawPacket)

/-- What a call writes into the `length` field. -/
def TxCall.length : TxCall → ℕ
  | .k66LowLevelOutput p => p.first.totLen
  | .outgoing q => q.len

/-- The pieces that a call copies, one `memcpy` each. -/
def TxCall.pieces : TxCall → List (List Byte)
  | .k66LowLevelOutput p => (p.first :: p.next).map Pbuf.bytes
  | .outgoing q => [q.packet.take q.len]

/-- The byte string that a call is to send. -/
def TxCall.bytes (c : TxCall) : List Byte := c.pieces.flatten

theorem TxCall.length_bytes (c : TxCall) : c.bytes.length = c.length := by
  cases c with
  | k66LowLevelOutput p =>
    have hlen : List.length ∘ Pbuf.bytes = Pbuf.len := funext Pbuf.length_bytes
    simp only [TxCall.bytes, TxCall.pieces, TxCall.length, List.length_flatten, List.map_map, hlen]
    exact p.totLen_eq.symm
  | outgoing q => simp [TxCall.bytes, TxCall.pieces, TxCall.length, q.len_le]

theorem TxCall.length_le (c : TxCall) : c.length ≤ bufBytes := by
  cases c with
  | k66LowLevelOutput p => exact p.totLen_le
  | outgoing q => exact q.len_le_buf

/-! ### The driver and the MAC -/

/-- Where a call stands: between calls, in the spin loop, or copying, with the flags it has read,
the pieces still to copy and the local `dst`. -/
inductive TxPc
  | idle
  | spin (c : TxCall)
  | copy (c : TxCall) (flags : BitVec 16) (rest : List (List Byte)) (dst : ℕ)

structure TxState where
  ring : ℕ → Desc
  bufs : ℕ → Byte
  txnum : ℕ
  /-- The MAC's own index. -/
  mac : ℕ
  pc : TxPc
  submitted : List (List Byte)
  sent : List (List Byte)

/-- The transmit ring after `memset` and the loop of `etherk66_init` and of `setup`. -/
def txRingInit : ℕ → Desc :=
  setFlags (fun i => { length := 0, flags := 0, buffer := i * bwords * 4 }) (txSize - 1) 0x2000

def txInit (bufs : ℕ → Byte) : TxState where
  ring := txRingInit
  bufs := bufs
  txnum := 0
  mac := 0
  pc := .idle
  submitted := []
  sent := []

namespace TxState

/-- Entry of a call. -/
def call (c : TxCall) (s : TxState) : TxState :=
  { s with pc := .spin c, submitted := s.submitted ++ [c.bytes] }

/-- One round of the spin loop: read the flags and, if `R` is clear, write `length` and set up
`dst`. -/
def spin (c : TxCall) (s : TxState) : TxState :=
  let d := s.ring s.txnum
  if owner0 d.flags then
    { s with
      ring := Function.update s.ring s.txnum { d with length := BitVec.ofNat 16 c.length }
      pc := .copy c d.flags c.pieces d.buffer }
  else s

/-- One `memcpy`. -/
def copyPiece (c : TxCall) (flags : BitVec 16) (q : List Byte) (rest : List (List Byte)) (dst : ℕ)
    (s : TxState) : TxState :=
  { s with bufs := blit s.bufs dst q, pc := .copy c flags rest (dst + q.length) }

/-- The hand-over to the MAC and the step of `txnum`. -/
def finish (flags : BitVec 16) (s : TxState) : TxState :=
  { s with
    ring := setFlags s.ring s.txnum (flags ||| 0x8C00#16)
    txnum := if s.txnum < txSize - 1 then s.txnum + 1 else 0
    pc := .idle }

/-- The MAC sends the descriptor it stands at, if that is ready. -/
def send (s : TxState) : TxState :=
  let d := s.ring s.mac
  if owner0 d.flags then s
  else
    { s with
      ring := setFlags s.ring s.mac (d.flags &&& 0x7FFF#16)
      mac := macNext s.ring s.mac
      sent := s.sent ++ [d.frame s.bufs] }

end TxState

/-- What can happen next: a call is made, the running call takes one step, or the MAC sends. -/
inductive TxEvent
  | call (c : TxCall)
  | driver
  | send

open TxState

def txStep (s : TxState) : TxEvent → TxState
  | .call c =>
    match s.pc with
    | .idle => s.call c
    | _ => s
  | .driver =>
    match s.pc with
    | .idle => s
    | .spin c => s.spin c
    | .copy _ flags [] _ => s.finish flags
    | .copy c flags (q :: rest) dst => s.copyPiece c flags q rest dst
  | .send => s.send

/-! ### The ring of slots behind it -/

/-- The transmit ring as a ring of slots: the driver fills, the MAC empties, and a slot is full
while its `R` bit is set. -/
def TxState.slots (s : TxState) : SlotRing txSize (List Byte) where
  full i := !owner0 (s.ring i).flags
  data i := (s.ring i).frame s.bufs
  head := s.mac
  tail := s.txnum

/-- The byte strings in the ready descriptors, in the order in which the MAC will send them. -/
def TxState.pending (s : TxState) : List (List Byte) := s.slots.held

/-- The byte string of the call under way. -/
def TxState.inProgress (s : TxState) : List (List Byte) :=
  match s.pc with
  | .idle => []
  | .spin c => [c.bytes]
  | .copy c _ _ _ => [c.bytes]

/-- A call that copies has a descriptor that is not ready, still with the flags it read; what it
has copied so far is the part of the byte string before the pieces that are left. -/
structure Copying (s : TxState) (c : TxCall) (flags : BitVec 16) (rest : List (List Byte))
    (dst : ℕ) : Prop where
  notReady : owner0 (s.ring s.txnum).flags = true
  flags_eq : (s.ring s.txnum).flags = flags
  length_eq : (s.ring s.txnum).length.toNat = c.length
  done : ∃ pre, c.bytes = pre ++ rest.flatten ∧ dst = (s.ring s.txnum).buffer + pre.length ∧
    read s.bufs (s.ring s.txnum).buffer pre.length = pre

/-- The invariant of the transmit side. -/
structure TxInv (s : TxState) : Prop where
  ok : RingOk txSize s.ring
  slots : s.slots.Inv
  copying : ∀ c flags rest dst, s.pc = .copy c flags rest dst → Copying s c flags rest dst
  order : s.sent ++ s.pending ++ s.inProgress = s.submitted

theorem owner0_ready (flags : BitVec 16) : owner0 (flags ||| 0x8C00#16) = false := by
  simp [owner0_eq]

theorem wrap_ready (flags : BitVec 16) : wrap (flags ||| 0x8C00#16) = wrap flags := by
  simp [wrap_eq]

theorem owner0_sent (flags : BitVec 16) : owner0 (flags &&& 0x7FFF#16) = true := by
  simp [owner0_eq]

theorem wrap_sent (flags : BitVec 16) : wrap (flags &&& 0x7FFF#16) = wrap flags := by
  simp [wrap_eq]

/-! ### What each step does -/

section Steps

variable {s : TxState} {c : TxCall} {flags : BitVec 16} {rest : List (List Byte)} {dst : ℕ}

theorem txInv_call (hs : TxInv s) (hpc : s.pc = .idle) (c : TxCall) : TxInv (s.call c) := by
  refine ⟨hs.ok, hs.slots, fun _ _ _ _ h => (by cases h), ?_⟩
  have horder := hs.order
  simp only [TxState.inProgress, hpc, List.append_nil] at horder
  change s.sent ++ s.pending ++ [c.bytes] = s.submitted ++ [c.bytes]
  rw [horder]

/-- Writing the `length` of a descriptor that is not ready changes no slot that either side
looks at. -/
theorem same_spin (hf : owner0 (s.ring s.txnum).flags = true) :
    s.slots.Same (s.spin c).slots := by
  simp only [TxState.spin, hf, if_true]
  refine ⟨rfl, rfl, fun i _ => ?_⟩
  by_cases hi : i = s.txnum
  · subst hi
    simp [TxState.slots, hf]
  · simp [TxState.slots, Function.update_of_ne hi]

theorem txInv_spin (hs : TxInv s) (hpc : s.pc = .spin c) : TxInv (s.spin c) := by
  by_cases hf : owner0 (s.ring s.txnum).flags = true
  case neg =>
    have : s.spin c = s := by simp [TxState.spin, hf]
    rwa [this]
  have hlt : s.txnum < txSize := hs.slots.tail_lt
  have hsame := same_spin (c := c) hf
  have horder := hs.order
  have hpending : (s.spin c).pending = s.pending := SlotRing.held_same hs.slots hsame
  have hlen := toNat_ofNat_length c.length_le
  refine ⟨?_, SlotRing.inv_same hs.slots hsame, ?_, ?_⟩
  · simp only [TxState.spin, hf, if_true]
    refine hs.ok.update (hs.ok.buffer_eq _ hlt) ?_ (hs.ok.wrap_iff _ hlt)
    rw [hlen]
    exact c.length_le
  · intro c' flags rest dst h
    simp only [TxState.spin, hf, if_true, TxPc.copy.injEq] at h
    obtain ⟨rfl, rfl, rfl, rfl⟩ := h
    simp only [TxState.spin, hf, if_true]
    refine ⟨?_, ?_, ?_, [], rfl, ?_, rfl⟩
    · simpa using hf
    · simp
    · simpa using hlen
    · simp
  · rw [hpending]
    simp only [TxState.inProgress, hpc] at horder
    simpa [TxState.spin, hf, TxState.inProgress] using horder

/-- A `memcpy` of the call under way stays inside the buffer of its own descriptor. -/
theorem copy_fits {q : List Byte} (h : Copying s c flags (q :: rest) dst) :
    ∃ k, dst = (s.ring s.txnum).buffer + k ∧ k + q.length ≤ bufBytes := by
  obtain ⟨pre, hbytes, hdst, -⟩ := h.done
  refine ⟨pre.length, hdst, ?_⟩
  have hlen := c.length_bytes
  have hle := c.length_le
  rw [hbytes] at hlen
  simp only [List.flatten_cons, List.length_append] at hlen
  omega

theorem same_copyPiece {q : List Byte} (hs : TxInv s) (h : Copying s c flags (q :: rest) dst) :
    s.slots.Same (s.copyPiece c flags q rest dst).slots := by
  have hlt : s.txnum < txSize := hs.slots.tail_lt
  obtain ⟨k, rfl, hk⟩ := copy_fits h
  refine ⟨rfl, rfl, fun i hi => ⟨rfl, fun hfull => ?_⟩⟩
  have hne : i ≠ s.txnum := by
    rintro rfl
    simp [TxState.slots, h.notReady] at hfull
  change (s.ring i).frame (blit s.bufs _ q) = (s.ring i).frame s.bufs
  rw [hs.ok.buffer_eq _ hlt]
  exact hs.ok.frame_blit hi hne s.bufs hk

theorem txInv_copyPiece {q : List Byte} (hs : TxInv s)
    (hpc : s.pc = .copy c flags (q :: rest) dst) :
    TxInv (s.copyPiece c flags q rest dst) := by
  have hcopy := hs.copying _ _ _ _ hpc
  have hsame := same_copyPiece hs hcopy
  have hpending : (s.copyPiece c flags q rest dst).pending = s.pending :=
    SlotRing.held_same hs.slots hsame
  refine ⟨hs.ok, SlotRing.inv_same hs.slots hsame, ?_, ?_⟩
  · intro c' flags' rest' dst' h
    obtain ⟨rfl, rfl, rfl, rfl⟩ := TxPc.copy.inj h
    obtain ⟨pre, hbytes, rfl, hread⟩ := hcopy.done
    refine ⟨hcopy.notReady, hcopy.flags_eq, hcopy.length_eq, pre ++ q, ?_, ?_, ?_⟩
    · rw [hbytes, List.flatten_cons, List.append_assoc]
    · rw [List.length_append, ← Nat.add_assoc]
      rfl
    · change read (blit s.bufs _ q) (s.ring s.txnum).buffer _ = _
      rw [List.length_append, read_add, read_blit_self, read_blit_disjoint (Or.inl le_rfl), hread]
  · rw [hpending]
    have horder := hs.order
    simp only [TxState.inProgress, hpc] at horder
    exact horder

/-- The hand-over fills the slot at `txnum` with the whole byte string of the call. -/
theorem pushes_finish (h : Copying s c flags [] dst) :
    s.slots.Pushes c.bytes (s.finish flags).slots := by
  obtain ⟨pre, hbytes, -, hread⟩ := h.done
  rw [List.flatten_nil, List.append_nil] at hbytes
  refine ⟨?_, ?_, ?_, rfl, rfl, fun i _ hne => ?_⟩
  · simp [TxState.slots, h.notReady]
  · simp [TxState.slots, TxState.finish, owner0_ready]
  · simp only [TxState.slots, TxState.finish, Desc.frame, setFlags_length, setFlags_buffer,
      h.length_eq, ← c.length_bytes]
    rw [hbytes, hread]
  · have hne' : i ≠ s.txnum := hne
    simp [TxState.slots, TxState.finish, setFlags_of_ne hne']

theorem txInv_finish (hs : TxInv s) (hpc : s.pc = .copy c flags [] dst) :
    TxInv (s.finish flags) := by
  have hcopy := hs.copying _ _ _ _ hpc
  have hpush := pushes_finish hcopy
  have hlt : s.txnum < txSize := hs.slots.tail_lt
  have hpending : (s.finish flags).pending = s.pending ++ [c.bytes] :=
    SlotRing.held_push hs.slots hpush
  refine ⟨?_, SlotRing.inv_push hs.slots hpush, fun _ _ _ _ h => (by cases h), ?_⟩
  · refine hs.ok.setFlags hlt ?_
    rw [wrap_ready, ← hcopy.flags_eq]
    exact hs.ok.wrap_iff _ hlt
  · have horder := hs.order
    simp only [TxState.inProgress, hpc] at horder
    change s.sent ++ (s.finish flags).pending ++ [] = s.submitted
    rw [hpending, List.append_nil, ← List.append_assoc, horder]

/-- A send empties the slot at the MAC's index. -/
theorem pops_send (hs : TxInv s) (hf : owner0 (s.ring s.mac).flags = false) :
    s.slots.Pops ((s.ring s.mac).frame s.bufs) s.send.slots := by
  have hlt : s.mac < txSize := hs.slots.head_lt
  simp only [TxState.send, hf, Bool.false_eq_true, if_false]
  refine ⟨?_, ?_, rfl, hs.ok.macNext_eq hlt, rfl, fun i _ hne => ?_⟩
  · simp [TxState.slots, hf]
  · simp [TxState.slots, owner0_sent]
  · have hne' : i ≠ s.mac := hne
    simp [TxState.slots, setFlags_of_ne hne']

theorem txInv_send (hs : TxInv s) : TxInv s.send := by
  cases hf : owner0 (s.ring s.mac).flags with
  | true =>
    have : s.send = s := by simp [TxState.send, hf]
    rwa [this]
  | false =>
    have hlt : s.mac < txSize := hs.slots.head_lt
    have hpop := pops_send hs hf
    have hpending : s.pending = _ :: s.send.pending := SlotRing.held_pop hs.slots hpop
    have hpc : s.send.pc = s.pc := by simp [TxState.send, hf]
    refine ⟨?_, SlotRing.inv_pop hs.slots hpop, ?_, ?_⟩
    · simp only [TxState.send, hf, Bool.false_eq_true, if_false]
      refine hs.ok.setFlags hlt ?_
      rw [wrap_sent]
      exact hs.ok.wrap_iff _ hlt
    · intro c flags rest dst h
      rw [hpc] at h
      have hcopy := hs.copying _ _ _ _ h
      -- the MAC is at a ready descriptor, the call at one that is not
      have hne : s.txnum ≠ s.mac := by
        intro heq
        have := hcopy.notReady
        rw [heq, hf] at this
        exact absurd this (by decide)
      simp only [TxState.send, hf, Bool.false_eq_true, if_false]
      refine ⟨?_, ?_, ?_, ?_⟩
      · simpa [setFlags_of_ne hne] using hcopy.notReady
      · simpa [setFlags_of_ne hne] using hcopy.flags_eq
      · simpa using hcopy.length_eq
      · simpa using hcopy.done
    · have horder := hs.order
      have hprog : s.send.inProgress = s.inProgress := by simp only [TxState.inProgress, hpc]
      have hsub : s.send.submitted = s.submitted := by simp [TxState.send, hf]
      have hsent : s.send.sent = s.sent ++ [(s.ring s.mac).frame s.bufs] := by
        simp [TxState.send, hf]
      rw [hprog, hsub, hsent, ← horder, hpending]
      simp

end Steps

/-! ### Runs -/

theorem txRingInit_ok : RingOk txSize txRingInit := ⟨by decide, by decide, by decide⟩

theorem txInv_init (bufs : ℕ → Byte) : TxInv (txInit bufs) := by
  have hcount : (txInit bufs).slots.Count 0 :=
    SlotRing.count_zero (show 0 < txSize by decide) rfl
      (show ∀ i < txSize, (!owner0 (txRingInit i).flags) = false by decide)
  refine ⟨txRingInit_ok, ⟨0, hcount⟩, fun _ _ _ _ h => (by cases h), ?_⟩
  change [] ++ (txInit bufs).slots.held ++ [] = []
  rw [hcount.held_eq]
  rfl

/-- Every step keeps the invariant. -/
theorem txInv_step (s : TxState) (e : TxEvent) (hs : TxInv s) : TxInv (txStep s e) := by
  cases e with
  | call c =>
    cases hpc : s.pc with
    | idle => simpa only [txStep, hpc] using txInv_call hs hpc c
    | spin c' => simpa only [txStep, hpc] using hs
    | copy c' flags rest dst => simpa only [txStep, hpc] using hs
  | driver =>
    cases hpc : s.pc with
    | idle => simpa only [txStep, hpc] using hs
    | spin c => simpa only [txStep, hpc] using txInv_spin hs hpc
    | copy c flags rest dst =>
      cases rest with
      | nil => simpa only [txStep, hpc] using txInv_finish hs hpc
      | cons q rest => simpa only [txStep, hpc] using txInv_copyPiece hs hpc
  | send => exact txInv_send hs

theorem txInv_run (bufs : ℕ → Byte) (es : List TxEvent) : TxInv (run txStep (txInit bufs) es) :=
  run_induction txInv_step (txInv_init bufs) es

/-- No step touches the buffer or the `length` of a ready descriptor. -/
theorem ready_untouched {s : TxState} (hs : TxInv s) (e : TxEvent) {i : ℕ} (hi : i < txSize)
    (hr : owner0 (s.ring i).flags = false) :
    read (txStep s e).bufs (s.ring i).buffer bufBytes = read s.bufs (s.ring i).buffer bufBytes ∧
      ((txStep s e).ring i).length = (s.ring i).length := by
  cases e with
  | call c => cases hpc : s.pc <;> simp [txStep, hpc, TxState.call]
  | send =>
    simp only [txStep, TxState.send]
    split_ifs <;> simp
  | driver =>
    cases hpc : s.pc with
    | idle => simp [txStep, hpc]
    | spin c =>
      simp only [txStep, hpc, TxState.spin]
      split_ifs with hf
      · have hne : i ≠ s.txnum := by
          rintro rfl
          rw [hr] at hf
          exact absurd hf (by decide)
        simp [Function.update_of_ne hne]
      · exact ⟨rfl, rfl⟩
    | copy c flags rest dst =>
      have hcopy := hs.copying _ _ _ _ hpc
      cases rest with
      | nil => simp [txStep, hpc, TxState.finish]
      | cons q rest =>
        have hne : i ≠ s.txnum := by
          rintro rfl
          rw [hcopy.notReady] at hr
          exact absurd hr (by decide)
        obtain ⟨k, rfl, hk⟩ := copy_fits hcopy
        simp only [txStep, hpc, TxState.copyPiece, and_true]
        have hlt : s.txnum < txSize := hs.slots.tail_lt
        rw [hs.ok.buffer_eq i hi, hs.ok.buffer_eq _ hlt]
        exact read_other_buffer hne s.bufs hk le_rfl

/-! ### The spin loop ends -/

/-- A call that has begun to copy returns after one step for each piece and one more. -/
theorem copy_returns {s : TxState} {c : TxCall} {flags : BitVec 16} {rest : List (List Byte)}
    {dst : ℕ} (hpc : s.pc = .copy c flags rest dst) :
    (run txStep s (List.replicate (rest.length + 1) .driver)).pc = .idle := by
  induction rest generalizing s dst with
  | nil => simp [txStep, hpc, TxState.finish]
  | cons q rest ih =>
    have hnext : (txStep s .driver).pc = .copy c flags rest (dst + q.length) := by
      simp [txStep, hpc, TxState.copyPiece]
    rw [List.length_cons, List.replicate_succ, run_cons]
    exact ih hnext

/-- One send of the MAC, and steps of its own, are all that a call needs to return: if its
descriptor is not free, the ring is full and the MAC stands at that very descriptor. -/
theorem call_returns {s : TxState} (hs : TxInv s) {c : TxCall} (hpc : s.pc = .spin c) :
    (run txStep s (.send :: List.replicate (c.pieces.length + 2) .driver)).pc = .idle := by
  have hfree : owner0 (s.send.ring s.send.txnum).flags = true ∧ s.send.pc = .spin c := by
    cases hf : owner0 (s.ring s.mac).flags with
    | true =>
      have hsend : s.send = s := by simp [TxState.send, hf]
      rw [hsend]
      refine ⟨?_, hpc⟩
      cases ht : owner0 (s.ring s.txnum).flags with
      | true => rfl
      | false =>
        have hfull : s.slots.full s.slots.tail = true := by simp [TxState.slots, ht]
        have := ((SlotRing.tail_full_iff hs.slots).1 hfull).2 s.mac hs.slots.head_lt
        simp [TxState.slots, hf] at this
    | false =>
      simp only [TxState.send, hf, Bool.false_eq_true, if_false, hpc, and_true]
      by_cases heq : s.txnum = s.mac
      · rw [heq, setFlags_self]
        exact owner0_sent _
      · rw [setFlags_of_ne heq]
        cases ht : owner0 (s.ring s.txnum).flags with
        | true => rfl
        | false =>
          have hfull : s.slots.full s.slots.tail = true := by simp [TxState.slots, ht]
          exact absurd ((SlotRing.tail_full_iff hs.slots).1 hfull).1 heq
  obtain ⟨hfree, hpc'⟩ := hfree
  rw [run_cons, List.replicate_succ, run_cons]
  apply copy_returns
  simp only [txStep, hpc', TxState.spin, hfree, if_true]
  rfl

/-! ### Exactly once, in order -/

/-- Between calls, the byte strings sent and those in ready descriptors are all that were
submitted. -/
theorem sent_pending_of_idle {s : TxState} (hs : TxInv s) (hpc : s.pc = .idle) :
    s.sent ++ s.pending = s.submitted := by
  have horder := hs.order
  simp only [TxState.inProgress, hpc, List.append_nil] at horder
  exact horder

end Enet
