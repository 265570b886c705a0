import Mathlib.Tactic
import Teensy3.Lib.Counter
import Teensy3.Lib.Run

/-!
# Input capture

`ftmcapture.ino` measures the time between rising edges with a counter of 16 bits.  At an edge the
timer stores the counter in `FTM0_C5V` and sets a flag, and it sets another one when the counter
wraps.  The interrupt handler counts the wraps in `ovf_count`, and it puts this count in front of the
stored value.  An edge and a wrap can be near each other, and then the count has the wrap or it does
not have it yet; the handler finds out which from the stored value and from `inc`.

* `State`, `step`: the timer, the handler and `loop()`, with the ticks that pass between accesses;
* `reconstruct`: the value that the handler computes;
* `Timely`: edges that are not too near each other, and a handler that is not late;
* `ReadsInTime`: no edge comes between the check of the flag and the read of `FTM0_C5V`;
* `Inv`: the invariant; `Exact`: what is recorded is exact.
-/

namespace FtmCapture

open Counter Machine

abbrev Word := BitVec 32

/-- Where the handler is, before the given access. -/
inductive Pc
  | idle
  /-- `if ( FTM0_SC & (1 << 7) )` -/
  | checkTof
  /-- `FTM0_SC &= ~(1 << 7)` -/
  | clearTof
  /-- `if ( FTM0_C5SC & (1 << 7) )` -/
  | checkChf
  /-- `FTM0_C5SC &= ~(1 << 7)` -/
  | clearChf
  /-- `if ( !ic_flag )` -/
  | checkFlag
  /-- `val = FTM0_C5V` -/
  | readC5v
  deriving DecidableEq, Repr

/-- What the handler has recorded, with the tick of the edge that `FTM0_C5V` comes from. -/
structure Record where
  edge : ℕ
  val : Word
  count : Word
  deriving DecidableEq, Repr

/-- The timer, the variables of the sketch, and what has been recorded, the last record first.  A flag
of the timer is there from the tick on at which it was set. -/
structure State where
  now : ℕ := 0
  tof : Option ℕ := none
  chf : Option ℕ := none
  c5v : BitVec 16 := 0
  /-- the tick of the last edge -/
  edge : Option ℕ := none
  pc : Pc := .idle
  /-- the oldest event that was pending when the handler was entered -/
  oldest : ℕ := 0
  inc : Bool := false
  ovfCount : Word := 0
  count : Word := 0
  prevVal : Word := 0
  icFlag : Bool := false
  log : List Record := []
  deriving DecidableEq, Repr

inductive Event
  | wait (ticks : ℕ)
  | edge
  | enter
  /-- the next access of the handler -/
  | isr
  /-- `loop()` resets `ic_flag` -/
  | clear
  deriving DecidableEq, Repr

/-- The counter runs; the first wrap sets `TOF`. -/
def wait (s : State) (ticks : ℕ) : State :=
  let wrap := (s.now / 65536 + 1) * 65536
  { s with
    now := s.now + ticks
    tof := if s.tof = none ∧ wrap ≤ s.now + ticks then some wrap else s.tof }

/-- A rising edge. -/
def capture (s : State) : State :=
  { s with
    c5v := BitVec.ofNat 16 s.now
    edge := some s.now
    chf := if s.chf = none then some s.now else s.chf }

/-- The oldest of the pending events. -/
def oldestPending (s : State) : ℕ :=
  match s.tof, s.chf with
  | some wrap, some edge => min wrap edge
  | some wrap, none => wrap
  | none, some edge => edge
  | none, none => s.now

/-- The handler is entered only while a flag is pending. -/
def enter (s : State) : State :=
  if s.pc = .idle ∧ (s.tof ≠ none ∨ s.chf ≠ none) then
    { s with pc := .checkTof, inc := false, oldest := oldestPending s }
  else s

/-- The value that the handler computes; `val |= ovf_count << 16` is `join`. -/
def reconstruct (c5v : BitVec 16) (inc : Bool) (ovfCount : Word) : Word :=
  if c5v.setWidth 32 ≤ (0xE000 : Word) ∨ inc = false then join c5v ovfCount
  else join c5v (ovfCount - 1)

/-- The next access of `ftm0_isr`. -/
def isr (s : State) : State :=
  match s.pc with
  | .idle => s
  | .checkTof => if s.tof = none then { s with pc := .checkChf } else { s with pc := .clearTof }
  | .clearTof => { s with tof := none, ovfCount := s.ovfCount + 1, inc := true, pc := .checkChf }
  | .checkChf => if s.chf = none then { s with pc := .idle } else { s with pc := .clearChf }
  | .clearChf => { s with chf := none, pc := .checkFlag }
  | .checkFlag => if s.icFlag then { s with pc := .idle } else { s with pc := .readC5v }
  | .readC5v =>
    let val := reconstruct s.c5v s.inc s.ovfCount
    { s with
      count := val - s.prevVal
      prevVal := val
      icFlag := true
      log := ⟨s.edge.getD 0, val, val - s.prevVal⟩ :: s.log
      pc := .idle }

/-- `loop()` runs only while the handler does not. -/
def clear (s : State) : State := if s.pc = .idle then { s with icFlag := false } else s

def step (s : State) : Event → State
  | .wait ticks => wait s ticks
  | .edge => capture s
  | .enter => enter s
  | .isr => isr s
  | .clear => clear s

/-! ### Conditions -/

/-- Edges are more than `0x2000` ticks apart, and the handler reaches its checks of the flags fewer
than `0x2000` ticks after the oldest pending event. -/
def Timely (s : State) : Event → Prop
  | .edge => ∀ e ∈ s.edge, e + 0x2000 < s.now
  | .isr => s.pc = .checkTof ∨ s.pc = .checkChf → s.now < s.oldest + 0x2000
  | _ => True

instance : DecidableRel Timely
  | s, .edge => inferInstanceAs (Decidable (∀ e ∈ s.edge, e + 0x2000 < s.now))
  | s, .isr =>
    inferInstanceAs (Decidable (s.pc = .checkTof ∨ s.pc = .checkChf → s.now < s.oldest + 0x2000))
  | _, .wait _ => .isTrue trivial
  | _, .enter => .isTrue trivial
  | _, .clear => .isTrue trivial

/-- No edge comes after the handler has found the flag of one and before it reads `FTM0_C5V`. -/
def ReadsInTime (s : State) : Event → Prop
  | .edge => s.icFlag = true ∨ s.pc ≠ .clearChf ∧ s.pc ≠ .checkFlag ∧ s.pc ≠ .readC5v
  | _ => True

instance : DecidableRel ReadsInTime
  | s, .edge => inferInstanceAs (Decidable (s.icFlag = true ∨ _ ∧ _ ∧ _))
  | _, .isr => .isTrue trivial
  | _, .wait _ => .isTrue trivial
  | _, .enter => .isTrue trivial
  | _, .clear => .isTrue trivial

/-! ### What is recorded -/

/-- The edge that was recorded last. -/
def lastEdge : List Record → ℕ
  | [] => 0
  | r :: _ => r.edge

/-- Each value is the tick of its edge, and each count the number of ticks since the edge before. -/
def Exact : List Record → Prop
  | [] => True
  | r :: rs => (r.val = BitVec.ofNat 32 r.edge ∧ lastEdge rs ≤ r.edge ∧
      r.count = BitVec.ofNat 32 (r.edge - lastEdge rs)) ∧ Exact rs

/-! ### The value -/

theorem le_threshold_iff (e : ℕ) :
    ((BitVec.ofNat 16 e).setWidth 32 : Word) ≤ 0xE000 ↔ e % 65536 ≤ 0xE000 := by
  have htoNat : ((BitVec.ofNat 16 e).setWidth 32 : Word).toNat = e % 65536 := by
    rw [BitVec.toNat_setWidth, BitVec.toNat_ofNat]
    omega
  rw [BitVec.le_def, htoNat]
  rfl

/-- An edge that is in the same round of the counter as the count. -/
theorem reconstruct_same {e n : ℕ} {inc : Bool} (hround : e / 65536 = n)
    (hnear : inc = true → e < n * 65536 + 0x2000) :
    reconstruct (BitVec.ofNat 16 e) inc (BitVec.ofNat 32 n) = BitVec.ofNat 32 e := by
  have hsmall : ((BitVec.ofNat 16 e).setWidth 32 : Word) ≤ 0xE000 ∨ inc = false := by
    cases inc with
    | false => exact .inr rfl
    | true =>
      left
      have hlow := hnear rfl
      rw [le_threshold_iff]
      omega
  rw [reconstruct, if_pos hsmall, ← hround]
  exact join_ofNat e

/-- An edge that was shortly before the last wrap that has been counted. -/
theorem reconstruct_before {e n : ℕ} (hbefore : e < n * 65536) (hnear : n * 65536 < e + 0x2000) :
    reconstruct (BitVec.ofNat 16 e) true (BitVec.ofNat 32 n) = BitVec.ofNat 32 e := by
  have hlarge : ¬ (((BitVec.ofNat 16 e).setWidth 32 : Word) ≤ 0xE000 ∨ true = false) := by
    rintro (hle | hfalse)
    · rw [le_threshold_iff] at hle
      omega
    · cases hfalse
  have hpred : BitVec.ofNat 32 n - 1 = BitVec.ofNat 32 (e / 65536) := by
    have hn : n = e / 65536 + 1 := by
      omega
    rw [hn, BitVec.ofNat_add]
    exact BitVec.add_sub_cancel _ _
  rw [reconstruct, if_neg hlarge, hpred]
  exact join_ofNat e

/-! ### The invariant -/

/-- What holds at all times of the edges and of what has been recorded. -/
structure Sound (s : State) : Prop where
  log : Exact s.log
  vars : ∀ r ∈ s.log.head?, s.prevVal = r.val ∧ s.count = r.count
  prevVal : s.prevVal = BitVec.ofNat 32 (lastEdge s.log)
  last : lastEdge s.log ≤ s.now
  oldest : s.oldest ≤ s.now
  edge : ∀ e ∈ s.edge, e ≤ s.now ∧ lastEdge s.log ≤ e ∧ s.c5v = BitVec.ofNat 16 e
  /-- a second edge while the flag of the first one is pending comes more than `0x2000` ticks later -/
  chf : ∀ e ∈ s.chf, ∃ e' ∈ s.edge, e' = e ∨ e + 0x2000 < e'

/-- `n` wraps have been counted, and there is at least one more if and only if `TOF` is set. -/
structure Counted (s : State) (n : ℕ) : Prop where
  ovf : s.ovfCount = BitVec.ofNat 32 n
  lower : n * 65536 ≤ s.now
  none : s.tof = none → s.now < (n + 1) * 65536
  some : ∀ wrap ∈ s.tof, wrap = (n + 1) * 65536 ∧ wrap ≤ s.now

/-- The handler is late for its next check of a flag. -/
def Late (s : State) : Prop :=
  (s.pc = .checkTof ∨ s.pc = .clearTof ∨ s.pc = .checkChf) ∧ s.oldest + 0x2000 ≤ s.now

/-- What the handler has found out, at the place where it is; `n` wraps have been counted. -/
def Knows (s : State) (n : ℕ) : Prop :=
  match s.pc with
  | .idle => ∀ e ∈ s.chf, n * 65536 ≤ e
  | .checkTof => (∀ e ∈ s.chf, n * 65536 ≤ e ∧ s.oldest ≤ e) ∧ (∀ w ∈ s.tof, s.oldest ≤ w) ∧
      s.inc = false ∧ (s.tof ≠ none ∨ s.chf ≠ none)
  | .clearTof => (∀ e ∈ s.chf, s.oldest ≤ e) ∧ ∃ w ∈ s.tof, s.oldest ≤ w
  | .checkChf => (∀ e ∈ s.chf, s.oldest ≤ e) ∧
      (s.inc = true ∧ s.oldest ≤ n * 65536 ∨
        s.inc = false ∧ ∃ e ∈ s.chf, n * 65536 ≤ e ∧ e < (n + 1) * 65536)
  | .clearChf => s.icFlag = false →
      ∃ e ∈ s.edge, reconstruct s.c5v s.inc s.ovfCount = BitVec.ofNat 32 e
  | .checkFlag => (∀ e ∈ s.chf, n * 65536 ≤ e) ∧ (s.icFlag = false →
      ∃ e ∈ s.edge, reconstruct s.c5v s.inc s.ovfCount = BitVec.ofNat 32 e)
  | .readC5v => (∀ e ∈ s.chf, n * 65536 ≤ e) ∧ s.icFlag = false ∧
      ∃ e ∈ s.edge, reconstruct s.c5v s.inc s.ovfCount = BitVec.ofNat 32 e

/-- **The invariant.** -/
def Inv (s : State) : Prop := Sound s ∧ (Late s ∨ ∃ n, Counted s n ∧ Knows s n)

/-- Where the handler is does not matter for the edges and for the count. -/
theorem Sound.goto {s : State} (h : Sound s) (pc : Pc) : Sound { s with pc } := { h with }

theorem Counted.goto {s : State} {n : ℕ} (h : Counted s n) (pc : Pc) : Counted { s with pc } n :=
  { h with }

theorem inv_start : Inv {} := by
  refine ⟨⟨trivial, ?_, rfl, le_rfl, le_rfl, ?_, ?_⟩, .inr ⟨0, ⟨rfl, by simp, ?_, ?_⟩, ?_⟩⟩
  · rintro r ⟨⟩
  · rintro e ⟨⟩
  · rintro e ⟨⟩
  · intro _
    change 0 < (0 + 1) * 65536
    norm_num
  · rintro w ⟨⟩
  · rintro e ⟨⟩

/-! ### The timer -/

theorem counted_wait {s : State} {n : ℕ} (h : Counted s n) (ticks : ℕ) : Counted (wait s ticks) n := by
  have hlower := h.lower
  refine ⟨h.ovf, ?_, ?_, ?_⟩
  · change n * 65536 ≤ s.now + ticks
    omega
  · simp only [wait]
    split
    · simp
    · next hwrap =>
      intro htof
      have hupper := h.none htof
      have hround : s.now / 65536 = n := by
        omega
      rw [hround] at hwrap
      by_contra hge
      exact hwrap ⟨htof, not_lt.1 hge⟩
  · simp only [wait]
    split
    · next hwrap =>
      have hupper := h.none hwrap.1
      have hround : s.now / 65536 = n := by
        omega
      rintro wrap hw
      obtain rfl := Option.some.inj hw
      exact ⟨by rw [hround], hwrap.2⟩
    · intro wrap hw
      obtain ⟨heq, hle⟩ := h.some wrap hw
      exact ⟨heq, by omega⟩

/-- A wrap that sets the flag is later than everything so far. -/
theorem le_of_mem_wait {s : State} {ticks t : ℕ} (ht : t ≤ s.now) (h : ∀ w ∈ s.tof, t ≤ w) :
    ∀ w ∈ (wait s ticks).tof, t ≤ w := by
  simp only [wait]
  split
  · intro w hw
    obtain rfl := Option.some.inj hw
    omega
  · exact h

theorem knows_wait {s : State} (hs : Sound s) {n : ℕ} (h : Knows s n) (ticks : ℕ) :
    Knows (wait s ticks) n := by
  have hpc : (wait s ticks).pc = s.pc := rfl
  unfold Knows at h ⊢
  rw [hpc]
  cases hp : s.pc with
  | checkTof =>
    rw [hp] at h
    obtain ⟨hchf, htof, hinc, hpending⟩ := h
    refine ⟨hchf, le_of_mem_wait hs.oldest htof, hinc, hpending.imp_left fun hne => ?_⟩
    simp only [wait, hne, false_and, if_false]
    exact hne
  | clearTof =>
    rw [hp] at h
    obtain ⟨hchf, w, hw, hle⟩ := h
    refine ⟨hchf, w, ?_, hle⟩
    have hne : s.tof ≠ none := by
      rw [Option.mem_def.1 hw]
      simp
    simp only [wait, hne, false_and, if_false]
    exact hw
  | _ =>
    rw [hp] at h
    exact h

theorem inv_wait {s : State} (h : Inv s) (ticks : ℕ) : Inv (wait s ticks) := by
  obtain ⟨hs, hcase⟩ := h
  have hsound : Sound (wait s ticks) := by
    refine { hs with
      last := Nat.le_add_right_of_le hs.last
      oldest := Nat.le_add_right_of_le hs.oldest
      edge := fun e he => ?_ }
    obtain ⟨hnow, hrest⟩ := hs.edge e he
    exact ⟨Nat.le_add_right_of_le hnow, hrest⟩
  obtain hlate | ⟨n, hcount, hknows⟩ := hcase
  · exact ⟨hsound, .inl ⟨hlate.1, Nat.le_add_right_of_le hlate.2⟩⟩
  · exact ⟨hsound, .inr ⟨n, counted_wait hcount ticks, knows_wait hs hknows ticks⟩⟩

theorem sound_capture {s : State} (hs : Sound s) (htimely : Timely s .edge) : Sound (capture s) := by
  refine { hs with edge := ?_, chf := ?_ }
  · intro e he
    obtain rfl := Option.some.inj he
    exact ⟨le_rfl, hs.last, rfl⟩
  · intro e he
    refine ⟨s.now, rfl, ?_⟩
    simp only [capture] at he
    split at he
    · exact .inl (Option.some.inj he)
    · obtain ⟨e', he', hor⟩ := hs.chf e he
      have hapart := htimely e' he'
      omega

/-- An edge sets the flag, if it is not set. -/
theorem le_of_mem_capture {s : State} {t : ℕ} (ht : t ≤ s.now) (h : ∀ e ∈ s.chf, t ≤ e) :
    ∀ e ∈ (capture s).chf, t ≤ e := by
  simp only [capture]
  split
  · intro e he
    obtain rfl := Option.some.inj he
    exact ht
  · exact h

/-- An edge comes between the check and the read only when the value is not recorded. -/
theorem icFlag_of_edge {s : State} (h : ReadsInTime s .edge)
    (hpc : s.pc = .clearChf ∨ s.pc = .checkFlag ∨ s.pc = .readC5v) : ¬ s.icFlag = false := by
  rcases h with hset | ⟨hclear, hcheck, hread⟩
  · rw [hset]
    decide
  · rcases hpc with hp | hp | hp
    · exact absurd hp hclear
    · exact absurd hp hcheck
    · exact absurd hp hread

theorem knows_capture {s : State} (hs : Sound s) {n : ℕ} (hn : n * 65536 ≤ s.now) (h : Knows s n)
    (hread : ReadsInTime s .edge) : Knows (capture s) n := by
  have hpc : (capture s).pc = s.pc := rfl
  unfold Knows at h ⊢
  rw [hpc]
  cases hp : s.pc with
  | idle =>
    rw [hp] at h
    exact le_of_mem_capture hn h
  | checkTof =>
    rw [hp] at h
    obtain ⟨hchf, htof, hinc, hpending⟩ := h
    refine ⟨fun e he => ⟨?_, ?_⟩, htof, hinc, .inr ?_⟩
    · exact le_of_mem_capture hn (fun e he => (hchf e he).1) e he
    · exact le_of_mem_capture hs.oldest (fun e he => (hchf e he).2) e he
    · simp only [capture]
      split
      · simp
      · assumption
  | clearTof =>
    rw [hp] at h
    exact ⟨le_of_mem_capture hs.oldest h.1, h.2⟩
  | checkChf =>
    rw [hp] at h
    refine ⟨le_of_mem_capture hs.oldest h.1, h.2.imp_right ?_⟩
    rintro ⟨hinc, e, he, hround⟩
    refine ⟨hinc, e, ?_, hround⟩
    have hne : s.chf ≠ none := by
      rw [Option.mem_def.1 he]
      simp
    simp only [capture, hne, if_false]
    exact he
  | clearChf =>
    exact fun hflag => absurd hflag (icFlag_of_edge hread (.inl hp))
  | checkFlag =>
    rw [hp] at h
    exact ⟨le_of_mem_capture hn h.1,
      fun hflag => absurd hflag (icFlag_of_edge hread (.inr (.inl hp)))⟩
  | readC5v =>
    rw [hp] at h
    exact absurd h.2.1 (icFlag_of_edge hread (.inr (.inr hp)))

theorem inv_capture {s : State} (h : Inv s) (htimely : Timely s .edge) (hread : ReadsInTime s .edge) :
    Inv (capture s) := by
  obtain ⟨hs, hlate | ⟨n, hcount, hknows⟩⟩ := h
  · exact ⟨sound_capture hs htimely, .inl hlate⟩
  · exact ⟨sound_capture hs htimely, .inr ⟨n, { hcount with },
      knows_capture hs hcount.lower hknows hread⟩⟩

/-! ### The handler -/

theorem inv_enter {s : State} (h : Inv s) : Inv (enter s) := by
  unfold enter
  split
  swap
  · exact h
  next hentry =>
  obtain ⟨hidle, hpending⟩ := hentry
  obtain ⟨hs, hlate | ⟨n, hcount, hknows⟩⟩ := h
  · simp [Late, hidle] at hlate
  simp only [Knows, hidle] at hknows
  have htof : ∀ w ∈ s.tof, oldestPending s ≤ w := by
    intro w hw
    rw [oldestPending, Option.mem_def.1 hw]
    cases s.chf with
    | none => exact le_rfl
    | some e => exact min_le_left _ _
  have hchf : ∀ e ∈ s.chf, oldestPending s ≤ e := by
    intro e he
    rw [oldestPending, Option.mem_def.1 he]
    cases s.tof with
    | none => exact le_rfl
    | some w => exact min_le_right _ _
  have hnow : oldestPending s ≤ s.now := by
    rcases hpending with hne | hne
    · obtain ⟨w, hw⟩ := Option.ne_none_iff_exists'.1 hne
      exact (htof w hw).trans (hcount.some w hw).2
    · obtain ⟨e, he⟩ := Option.ne_none_iff_exists'.1 hne
      obtain ⟨e', he', hor⟩ := hs.chf e he
      have hle := (hs.edge e' he').1
      have hold := hchf e he
      omega
  exact ⟨{ hs with oldest := hnow },
    .inr ⟨n, { hcount with },
      fun e he => ⟨hknows e he, hchf e he⟩, htof, rfl, hpending⟩⟩

theorem inv_clear {s : State} (h : Inv s) : Inv (clear s) := by
  unfold clear
  split
  swap
  · exact h
  next hidle =>
  obtain ⟨hs, hlate | ⟨n, hcount, hknows⟩⟩ := h
  · simp [Late, hidle] at hlate
  simp only [Knows, hidle] at hknows
  refine ⟨{ hs with }, .inr ⟨n, { hcount with }, ?_⟩⟩
  simp only [Knows, hidle]
  exact hknows

/-- The edge whose flag the handler has found in time is the one in `FTM0_C5V`, and the value that
the handler computes is its tick. -/
theorem reconstruct_of_found {s : State} (hs : Sound s) {n : ℕ} (hcount : Counted s n)
    (hpc : s.pc = .checkChf) (hknows : Knows s n) (hintime : s.now < s.oldest + 0x2000)
    (hfound : s.chf ≠ none) :
    ∃ e ∈ s.edge, reconstruct s.c5v s.inc s.ovfCount = BitVec.ofNat 32 e := by
  simp only [Knows, hpc] at hknows
  obtain ⟨hold, hcases⟩ := hknows
  obtain ⟨e, he⟩ := Option.ne_none_iff_exists'.1 hfound
  obtain ⟨e', he', hor⟩ := hs.chf e he
  obtain ⟨hnow, -, hc5v⟩ := hs.edge e' he'
  have holde := hold e he
  have hlower := hcount.lower
  obtain rfl : e' = e := by
    omega
  refine ⟨e', he', ?_⟩
  rw [hc5v, hcount.ovf]
  rcases hcases with ⟨hinc, hwrap⟩ | ⟨hinc, e₁, he₁, hfirst, hupper⟩
  · rw [hinc]
    by_cases hafter : n * 65536 ≤ e'
    · exact reconstruct_same (by omega) fun _ => by omega
    · exact reconstruct_before (by omega) (by omega)
  · rw [hinc]
    obtain rfl : e' = e₁ := Option.some.inj (he.symm.trans he₁)
    exact reconstruct_same (by omega) fun h => by cases h

theorem inv_checkTof {s : State} (h : Inv s) (hpc : s.pc = .checkTof)
    (hintime : s.now < s.oldest + 0x2000) : Inv (isr s) := by
  obtain ⟨hs, hlate | ⟨n, hcount, hknows⟩⟩ := h
  · exact absurd hlate.2 (not_le.2 hintime)
  simp only [Knows, hpc] at hknows
  obtain ⟨hchf, htof, hinc, hpending⟩ := hknows
  simp only [isr, hpc]
  split
  · next hnone =>
    -- the flag of an edge is pending since before this check, and all wraps have been counted
    obtain ⟨e, he⟩ := Option.ne_none_iff_exists'.1 (hpending.resolve_left (not_not.2 hnone))
    obtain ⟨e', he', hor⟩ := hs.chf e he
    have hnow := (hs.edge e' he').1
    have hupper := hcount.none hnone
    have hround : n * 65536 ≤ e ∧ e < (n + 1) * 65536 := ⟨(hchf e he).1, by omega⟩
    exact ⟨hs.goto _, .inr ⟨n, hcount.goto _, fun e he => (hchf e he).2,
      .inr ⟨hinc, e, he, hround⟩⟩⟩
  · next hsome =>
    obtain ⟨w, hw⟩ := Option.ne_none_iff_exists'.1 hsome
    exact ⟨hs.goto _, .inr ⟨n, hcount.goto _, fun e he => (hchf e he).2, w, hw, htof w hw⟩⟩

theorem inv_clearTof {s : State} (h : Inv s) (hpc : s.pc = .clearTof) : Inv (isr s) := by
  obtain ⟨hs, hcase⟩ := h
  have hsound : Sound (isr s) := by
    simp only [isr, hpc]
    exact { hs with }
  refine ⟨hsound, ?_⟩
  simp only [isr, hpc]
  by_cases hlate : s.oldest + 0x2000 ≤ s.now
  · exact .inl ⟨.inr (.inr rfl), hlate⟩
  obtain hl | ⟨n, hcount, hknows⟩ := hcase
  · exact absurd hl.2 hlate
  simp only [Knows, hpc] at hknows
  obtain ⟨hchf, w, hw, hold⟩ := hknows
  obtain ⟨rfl, hwrap⟩ := hcount.some w hw
  refine .inr ⟨n + 1, ⟨?_, hwrap, fun _ => ?_, ?_⟩, hchf, .inl ⟨rfl, hold⟩⟩
  · change s.ovfCount + 1 = _
    rw [hcount.ovf, BitVec.ofNat_add]
    rfl
  · change s.now < (n + 1 + 1) * 65536
    omega
  · rintro w ⟨⟩

theorem inv_checkChf {s : State} (h : Inv s) (hpc : s.pc = .checkChf)
    (hintime : s.now < s.oldest + 0x2000) : Inv (isr s) := by
  obtain ⟨hs, hlate | ⟨n, hcount, hknows⟩⟩ := h
  · exact absurd hlate.2 (not_le.2 hintime)
  have hfound := reconstruct_of_found hs hcount hpc hknows hintime
  simp only [isr, hpc]
  split
  · next hnone =>
    refine ⟨hs.goto _, .inr ⟨n, hcount.goto _, ?_⟩⟩
    intro e he
    exact absurd (hnone.symm.trans he) (by simp)
  · next hsome =>
    exact ⟨hs.goto _, .inr ⟨n, hcount.goto _, fun _ => hfound hsome⟩⟩

theorem inv_clearChf {s : State} (h : Inv s) (hpc : s.pc = .clearChf) : Inv (isr s) := by
  obtain ⟨hs, hlate | ⟨n, hcount, hknows⟩⟩ := h
  · simp [Late, hpc] at hlate
  simp only [Knows, hpc] at hknows
  simp only [isr, hpc]
  refine ⟨{ hs with chf := ?_ },
    .inr ⟨n, { hcount with }, ?_, hknows⟩⟩
  · rintro e ⟨⟩
  · rintro e ⟨⟩

theorem inv_checkFlag {s : State} (h : Inv s) (hpc : s.pc = .checkFlag) : Inv (isr s) := by
  obtain ⟨hs, hlate | ⟨n, hcount, hknows⟩⟩ := h
  · simp [Late, hpc] at hlate
  simp only [Knows, hpc] at hknows
  simp only [isr, hpc]
  split
  · exact ⟨hs.goto _, .inr ⟨n, hcount.goto _, hknows.1⟩⟩
  · next hflag =>
    rw [Bool.not_eq_true] at hflag
    exact ⟨hs.goto _, .inr ⟨n, hcount.goto _, hknows.1, hflag, hknows.2 hflag⟩⟩

theorem inv_readC5v {s : State} (h : Inv s) (hpc : s.pc = .readC5v) : Inv (isr s) := by
  obtain ⟨hs, hlate | ⟨n, hcount, hknows⟩⟩ := h
  · simp [Late, hpc] at hlate
  simp only [Knows, hpc] at hknows
  obtain ⟨hchf, -, e, he, hval⟩ := hknows
  obtain ⟨hnow, hlast, hc5v⟩ := hs.edge e he
  have hedge : s.edge.getD 0 = e := by
    rw [Option.mem_def.1 he]
    rfl
  have hcountEq : BitVec.ofNat 32 e - BitVec.ofNat 32 (lastEdge s.log) =
      BitVec.ofNat 32 (e - lastEdge s.log) :=
    ofNat_sub_ofNat hlast
  simp only [isr, hpc, hedge, hval, hs.prevVal, hcountEq]
  refine ⟨⟨⟨⟨rfl, hlast, rfl⟩, hs.log⟩, ?_, rfl, hnow, hs.oldest, ?_, hs.chf⟩,
    .inr ⟨n, { hcount with }, hchf⟩⟩
  · intro r hr
    obtain rfl := Option.some.inj hr
    exact ⟨rfl, rfl⟩
  · intro e' he'
    obtain rfl : e = e' := Option.some.inj (he.symm.trans he')
    exact ⟨hnow, le_rfl, hc5v⟩

/-- **One step** keeps the invariant. -/
theorem inv_step (s : State) (e : Event) (h : Inv s) (hok : Timely s e ∧ ReadsInTime s e) :
    Inv (step s e) := by
  obtain ⟨htimely, hread⟩ := hok
  cases e with
  | wait ticks => exact inv_wait h ticks
  | edge => exact inv_capture h htimely hread
  | enter => exact inv_enter h
  | clear => exact inv_clear h
  | isr =>
    change Inv (isr s)
    cases hpc : s.pc with
    | idle => simpa only [isr, hpc] using h
    | checkTof => exact inv_checkTof h hpc (htimely (.inl hpc))
    | clearTof => exact inv_clearTof h hpc
    | checkChf => exact inv_checkChf h hpc (htimely (.inr hpc))
    | clearChf => exact inv_clearChf h hpc
    | checkFlag => exact inv_checkFlag h hpc
    | readC5v => exact inv_readC5v h hpc

/-- **Exact timestamps.** In every run in which edges are far enough apart, the handler is in time
for its checks, and no edge comes before it has read `FTM0_C5V`, all records are exact, and the
variables are those of the last record. -/
theorem capture_exact (es : List Event)
    (h : Along step (fun s e => Timely s e ∧ ReadsInTime s e) {} es) :
    Exact (run step {} es).log ∧ ∀ r ∈ (run step {} es).log.head?,
      (run step {} es).prevVal = r.val ∧ (run step {} es).count = r.count :=
  have hinv := along_induction inv_step inv_start h
  ⟨hinv.1.log, hinv.1.vars⟩

/-- An edge shortly before a wrap, both found by the same run of the handler, and a second edge after
another wrap, which comes inside of the handler. -/
def twoEdges : List Event :=
  [.wait 0xFFF0, .edge, .wait 0x20, .enter, .isr, .isr, .isr, .isr, .isr, .isr, .clear,
    .wait 0xFFE5, .edge, .enter, .wait 0x10, .isr, .isr, .isr, .isr, .isr, .isr]

theorem capture_exact_twoEdges :
    (run step {} twoEdges).log = [⟨0x1FFF5, 0x1FFF5, 0x10005⟩, ⟨0xFFF0, 0xFFF0, 0xFFF0⟩] ∧
      Exact (run step {} twoEdges).log ∧ ∀ r ∈ (run step {} twoEdges).log.head?,
        (run step {} twoEdges).prevVal = r.val ∧ (run step {} twoEdges).count = r.count :=
  ⟨by decide +kernel, capture_exact twoEdges (by decide +kernel)⟩

/-- The handler is in time for its checks, but then a wrap and another edge come before it reads
`FTM0_C5V`. -/
def lateRead : List Event :=
  [.wait 0xFFF0, .edge, .enter, .isr, .isr, .wait 0x2010, .edge, .isr, .isr, .isr]

/-- What is recorded is then neither the tick of the first edge nor the one of the second. -/
theorem not_exact_of_lateRead :
    Along step Timely {} lateRead ∧ (run step {} lateRead).log = [⟨0x12000, 0x2000, 0x2000⟩] ∧
      ¬ Exact (run step {} lateRead).log := by
  have hlog : (run step {} lateRead).log = [⟨0x12000, 0x2000, 0x2000⟩] := by
    decide +kernel
  refine ⟨by decide +kernel, hlog, ?_⟩
  rw [hlog]
  rintro ⟨⟨hval, -, -⟩, -⟩
  exact absurd hval (by decide)

end FtmCapture
