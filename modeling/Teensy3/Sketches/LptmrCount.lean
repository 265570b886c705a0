import Mathlib.Tactic
import Teensy3.Lib.Counter
import Teensy3.Lib.Run

/-!
# Counting edges

`lptmrcnt.ino` counts the edges at a pin with the 16 bits of `LPTMR0`.  When the counter wraps it
requests `lptmr_isr`, which counts the wraps in `msw`, and `it1cb` puts the two together in `ticks`.
It does so without a lock (`? need atomic`), so that a wrap near its two reads can be in the one of
them and not in the other.

* `State`, `step`: the counter, the two handlers and `loop()`, all of whose accesses are interleaved
  in any order.  The counter is sampled when the first access of `it1cb` writes to it, if the timer
  keeps a copy then (`latches`), or when it is read; which of the two reads comes first is left open,
  as it is in C;
* `outstanding`: the wraps that have not been counted yet;
* `lag`: the wraps that were outstanding when the counter was sampled, without those that have been
  counted until `msw` was read;
* `Orderly`: what has to happen in order for the samples to be right;
* `Inv`: the invariant; `Faithful`: the samples and the numbers that are printed are right.
-/

namespace LptmrCount

open Counter Machine

abbrev Word := BitVec 32

/-- A value of `ticks`, with the edges at the start of the run of `it1cb`, when the counter was
sampled, and at the end of the run. -/
structure Sample where
  start : ℕ
  sampled : ℕ
  stop : ℕ
  ticks : Word
  deriving DecidableEq, Repr

/-- What `loop()` is about to do. -/
inductive Loop
  /-- `if (dataReady)` -/
  | check
  /-- `Serial.println(ticks - prev)` -/
  | print
  /-- `prev = ticks` -/
  | save
  /-- `dataReady = 0` -/
  | reset
  deriving DecidableEq, Repr

/-- A number that is printed, with the edges at the sample that is in `ticks` and at the one that is
in `prev`. -/
structure Print where
  last : ℕ
  before : ℕ
  value : Word
  deriving DecidableEq, Repr

structure State where
  /-- all edges so far -/
  total : ℕ := 0
  /-- `LPTMR_CSR_TCF` -/
  tcf : Bool := false
  /-- `lptmr_isr` has cleared the flag, and is before `msw++` -/
  isr : Bool := false
  msw : Word := 0
  /-- `it1cb` runs -/
  running : Bool := false
  /-- what the timer has kept for reading, once the run has written to `LPTMR0_CNR` -/
  temp : Option (BitVec 16) := none
  /-- what the run has read from `LPTMR0_CNR` and from `msw` -/
  cnr : Option (BitVec 16) := none
  hi : Option Word := none
  ticks : Word := 0
  dataReady : Bool := false
  loop : Loop := .check
  prev : Word := 0
  /-- the edges at the start of the run, and when the counter was sampled in it -/
  start : ℕ := 0
  sampled : Option ℕ := none
  lag : ℤ := 0
  /-- the edges at the samples in `ticks` and in `prev` -/
  ticksAt : ℕ := 0
  prevAt : ℕ := 0
  samples : List Sample := []
  prints : List Print := []
  deriving DecidableEq, Repr

inductive Event
  | edges (n : ℕ)
  /-- the next access of `lptmr_isr` -/
  | lptmr
  /-- the accesses of `it1cb` -/
  | enter
  | prime
  | readCnr
  | readMsw
  | store
  /-- the next access of `loop()` -/
  | loop
  deriving DecidableEq, Repr

/-- The wraps among the next `n` edges. -/
def wraps (s : State) (n : ℕ) : ℕ := (s.total + n) / 65536 - s.total / 65536

/-- The wraps that `msw` does not have yet, if none has been lost. -/
def outstanding (s : State) : ℕ := s.tcf.toNat + s.isr.toNat

/-- The counter. -/
def counter (s : State) : BitVec 16 := BitVec.ofNat 16 s.total

def edges (s : State) (n : ℕ) : State :=
  { s with total := s.total + n, tcf := s.tcf || decide (0 < wraps s n) }

/-- `msw++`, which brings the count nearer to the sample, or away from what has been read. -/
def countWrap (s : State) : State :=
  { s with
    isr := false
    msw := s.msw + 1
    lag :=
      match s.sampled, s.hi with
      | some _, none => s.lag - 1
      | none, some _ => s.lag + 1
      | _, _ => s.lag }

/-- `lptmr_isr` -/
def lptmr (s : State) : State :=
  if s.isr then countWrap s else if s.tcf then { s with tcf := false, isr := true } else s

/-- `it1cb` is called. -/
def enter (s : State) : State :=
  if s.running then s
  else
    { s with
      running := true, start := s.total, temp := none, cnr := none, hi := none, sampled := none
      lag := 0 }

/-- The counter is sampled. -/
def sample (s : State) : State := { s with sampled := some s.total, lag := s.lag + outstanding s }

/-- `LPTMR0_CNR = 1` -/
def prime (latches : Bool) (s : State) : State :=
  if s.running ∧ s.temp = none then
    let s := { s with temp := some (counter s) }
    if latches then sample s else s
  else s

/-- The read of `LPTMR0_CNR`. -/
def readCnr (latches : Bool) (s : State) : State :=
  if s.running ∧ s.cnr = none then
    match s.temp with
    | none => s
    | some temp =>
      if latches then { s with cnr := some temp } else sample { s with cnr := some (counter s) }
  else s

/-- The read of `msw`. -/
def readMsw (s : State) : State :=
  if s.running ∧ s.temp ≠ none ∧ s.hi = none then { s with hi := some s.msw } else s

/-- `ticks = …` and `dataReady = 1` -/
def store (s : State) : State :=
  match s.running, s.cnr, s.hi with
  | true, some lo, some hi =>
    let ticks := join lo hi
    let sampled := s.sampled.getD 0
    { s with
      ticks, dataReady := true, running := false, ticksAt := sampled
      samples := ⟨s.start, sampled, s.total, ticks⟩ :: s.samples }
  | _, _, _ => s

/-- `loop()`, which does not run while a handler does. -/
def loop (s : State) : State :=
  if s.running ∨ s.isr then s
  else
    match s.loop with
    | .check => if s.dataReady then { s with loop := .print } else s
    | .print =>
      { s with loop := .save, prints := ⟨s.ticksAt, s.prevAt, s.ticks - s.prev⟩ :: s.prints }
    | .save => { s with loop := .reset, prev := s.ticks, prevAt := s.ticksAt }
    | .reset => { s with loop := .check, dataReady := false }

def step (latches : Bool) (s : State) : Event → State
  | .edges n => edges s n
  | .lptmr => lptmr s
  | .enter => enter s
  | .prime => prime latches s
  | .readCnr => readCnr latches s
  | .readMsw => readMsw s
  | .store => store s
  | .loop => loop s

/-! ### Orderly schedules, and a right count -/

/-- No wrap is lost: the request of one has been taken when the next one comes; and when `it1cb` puts
its two reads together, the wraps that were outstanding at the sample, and no others, have been
counted between the sample and the read of `msw`. -/
def Orderly (s : State) : Event → Prop
  | .edges n => s.tcf.toNat + wraps s n ≤ 1
  | .store => s.lag = 0
  | _ => True

instance : DecidableRel Orderly
  | s, .edges n => inferInstanceAs (Decidable (s.tcf.toNat + wraps s n ≤ 1))
  | s, .store => inferInstanceAs (Decidable (s.lag = 0))
  | _, .lptmr => .isTrue trivial
  | _, .enter => .isTrue trivial
  | _, .prime => .isTrue trivial
  | _, .readCnr => .isTrue trivial
  | _, .readMsw => .isTrue trivial
  | _, .loop => .isTrue trivial

/-- The value is the number of edges at an instant of the run. -/
def Sample.Right (x : Sample) : Prop :=
  x.start ≤ x.sampled ∧ x.sampled ≤ x.stop ∧ x.ticks = BitVec.ofNat 32 x.sampled

/-- All samples are right, and none goes back behind the one before; the numbers that are printed are
the edges between two samples. -/
structure Faithful (s : State) : Prop where
  right : ∀ x ∈ s.samples, x.Right
  order : s.samples.Pairwise fun x earlier => earlier.sampled ≤ x.sampled
  prints : ∀ p ∈ s.prints, p.before ≤ p.last ∧ p.value = BitVec.ofNat 32 (p.last - p.before)

/-! ### The invariant -/

/-- What a run of `it1cb` has read so far, when `n` wraps are in `msw`: the wraps of the sample are
`lag` more than those that have been read, or are in `msw` now. -/
structure RunOk (latches : Bool) (s : State) (n : ℕ) : Prop where
  start : s.start ≤ s.total
  fresh : s.temp = none → s.sampled = none ∧ s.cnr = none ∧ s.hi = none
  temp : latches = true → ∀ t ∈ s.temp, ∃ k ∈ s.sampled, t = BitVec.ofNat 16 k
  cnr : ∀ c ∈ s.cnr, ∃ k ∈ s.sampled, c = BitVec.ofNat 16 k
  unread : latches = false → s.cnr = none → s.sampled = none
  within : ∀ k ∈ s.sampled, s.start ≤ k ∧ k ≤ s.total
  wraps : ∃ d : ℕ, (∀ hi ∈ s.hi, hi = BitVec.ofNat 32 d) ∧ (s.hi = none → d = n) ∧
    (∀ k ∈ s.sampled, (k / 65536 : ℕ) = d + s.lag) ∧ (s.sampled = none → (n : ℤ) = d + s.lag)

/-- The values that `loop()` works with. -/
structure LoopOk (s : State) : Prop where
  ticks : s.ticks = BitVec.ofNat 32 s.ticksAt
  prev : s.prev = BitVec.ofNat 32 s.prevAt
  le : s.prevAt ≤ s.ticksAt
  now : s.ticksAt ≤ s.total
  start : s.running = true → s.ticksAt ≤ s.start
  samples : ∀ x ∈ s.samples, x.sampled ≤ s.ticksAt

/-- **The invariant**; `n` wraps are in `msw`. -/
structure Inv (latches : Bool) (s : State) (n : ℕ) : Prop where
  msw : s.msw = BitVec.ofNat 32 n
  total : n + outstanding s = s.total / 65536
  run : s.running = true → RunOk latches s n
  loop : LoopOk s
  faithful : Faithful s

theorem inv_start (latches : Bool) : Inv latches {} 0 := by
  refine ⟨rfl, rfl, ?_, ⟨rfl, rfl, le_rfl, le_rfl, ?_, ?_⟩, ⟨?_, .nil, ?_⟩⟩
  · rintro ⟨⟩
  · rintro ⟨⟩
  · rintro x ⟨⟩
  · rintro x ⟨⟩
  · rintro x ⟨⟩

variable {latches : Bool} {s : State} {n : ℕ}

theorem inv_edges (h : Inv latches s n) {k : ℕ} (hk : s.tcf.toNat + wraps s k ≤ 1) :
    Inv latches (edges s k) n := by
  have htotal := h.total
  have hflag : (s.tcf || decide (0 < wraps s k)).toNat = s.tcf.toNat + wraps s k := by
    cases htcf : s.tcf with
    | true =>
      have hzero : wraps s k = 0 := by
        simpa [htcf] using hk
      rw [hzero]
      rfl
    | false =>
      have hle : wraps s k ≤ 1 := by
        simpa [htcf] using hk
      obtain hzero | hone := Nat.le_one_iff_eq_zero_or_eq_one.1 hle
      · rw [hzero]
        rfl
      · rw [hone]
        rfl
  refine ⟨h.msw, ?_, fun hrun => ?_, ?_, { h.faithful with }⟩
  · have hle : s.total / 65536 ≤ (s.total + k) / 65536 := Nat.div_le_div_right (Nat.le_add_right _ _)
    change n + ((s.tcf || decide (0 < wraps s k)).toNat + s.isr.toNat) = (s.total + k) / 65536
    rw [hflag, wraps]
    rw [outstanding] at htotal
    omega
  · have hr := h.run hrun
    refine { hr with start := Nat.le_add_right_of_le hr.start, within := ?_ }
    intro m hm
    obtain ⟨hfirst, hlast⟩ := hr.within m hm
    exact ⟨hfirst, Nat.le_add_right_of_le hlast⟩
  · have hl := h.loop
    exact { hl with now := Nat.le_add_right_of_le hl.now }

/-- Counting a wrap changes what is in `msw`, and the lag along with it. -/
theorem runOk_countWrap (h : RunOk latches s n) : RunOk latches (countWrap s) (n + 1) := by
  refine { h with wraps := ?_ }
  obtain ⟨d, hread, hunread, hsampled, hunsampled⟩ := h.wraps
  simp only [countWrap]
  cases hs : s.sampled with
  | none =>
    have hn := hunsampled hs
    cases hhi : s.hi with
    | none =>
      refine ⟨d + 1, ?_, ?_, ?_, ?_⟩
      · rintro _ ⟨⟩
      · intro _
        rw [hunread hhi]
      · rintro _ ⟨⟩
      · intro _
        push_cast
        omega
    | some hi =>
      refine ⟨d, ?_, ?_, ?_, ?_⟩
      · rw [← hhi]
        exact hread
      · rintro ⟨⟩
      · rintro _ ⟨⟩
      · intro _
        push_cast
        omega
  | some k =>
    have hk := hsampled k hs
    cases hhi : s.hi with
    | none =>
      refine ⟨d + 1, ?_, ?_, ?_, ?_⟩
      · rintro _ ⟨⟩
      · intro _
        rw [hunread hhi]
      · intro m hm
        obtain rfl := Option.some.inj hm
        push_cast
        omega
      · rintro ⟨⟩
    | some hi =>
      refine ⟨d, ?_, ?_, ?_, ?_⟩
      · rw [← hhi]
        exact hread
      · rintro ⟨⟩
      · intro m hm
        obtain rfl := Option.some.inj hm
        exact hk
      · rintro ⟨⟩

theorem inv_lptmr (h : Inv latches s n) : ∃ n', Inv latches (lptmr s) n' := by
  have htotal := h.total
  have hl := h.loop
  have hf : Faithful s := h.faithful
  unfold lptmr
  split
  · next hisr =>
    refine ⟨n + 1, ?_, ?_, fun hrun => runOk_countWrap (h.run hrun), { hl with }, { hf with }⟩
    · change s.msw + 1 = _
      rw [h.msw, BitVec.ofNat_add]
      rfl
    · rw [outstanding, hisr, Bool.toNat_true] at htotal
      change n + 1 + (s.tcf.toNat + 0) = s.total / 65536
      omega
  split
  · next hisr htcf =>
    refine ⟨n, h.msw, ?_, fun hrun => { h.run hrun with }, { hl with }, { hf with }⟩
    rw [Bool.not_eq_true] at hisr
    simp only [outstanding, hisr, htcf] at htotal
    exact htotal
  · exact ⟨n, h⟩

theorem inv_enter (h : Inv latches s n) : Inv latches (enter s) n := by
  have hl := h.loop
  have hf : Faithful s := h.faithful
  unfold enter
  split
  · exact h
  refine ⟨h.msw, h.total, fun _ => ⟨le_rfl, fun _ => ⟨rfl, rfl, rfl⟩, ?_, ?_, fun _ _ => rfl, ?_,
    n, ?_, fun _ => rfl, ?_, fun _ => (add_zero _).symm⟩,
    { hl with start := fun _ => hl.now }, { hf with }⟩
  · rintro _ _ ⟨⟩
  · rintro _ ⟨⟩
  · rintro _ ⟨⟩
  · rintro _ ⟨⟩
  · rintro _ ⟨⟩

/-- A sample has all wraps: those that are in `msw`, and those that are outstanding. -/
theorem wraps_sample (htotal : n + outstanding s = s.total / 65536) (h : RunOk latches s n)
    (hnone : s.sampled = none) :
    ∃ d : ℕ, (∀ hi ∈ s.hi, hi = BitVec.ofNat 32 d) ∧ (s.hi = none → d = n) ∧
      (∀ k ∈ some s.total, ((k / 65536 : ℕ) : ℤ) = d + (s.lag + outstanding s)) ∧
      (some s.total = none → (n : ℤ) = d + (s.lag + outstanding s)) := by
  obtain ⟨d, hread, hunread, -, hunsampled⟩ := h.wraps
  have hn := hunsampled hnone
  refine ⟨d, hread, hunread, ?_, ?_⟩
  · intro k hk
    obtain rfl := Option.some.inj hk
    omega
  · rintro ⟨⟩

theorem inv_prime (h : Inv latches s n) : Inv latches (prime latches s) n := by
  have hl := h.loop
  have hf : Faithful s := h.faithful
  unfold prime
  split
  swap
  · exact h
  next hnext =>
  obtain ⟨hrun, htemp⟩ := hnext
  have hr := h.run hrun
  obtain ⟨hsampled, hcnr, hhi⟩ := hr.fresh htemp
  cases latches with
  | true =>
    refine ⟨h.msw, h.total, fun _ => ⟨hr.start, ?_, ?_, ?_, ?_, ?_, wraps_sample h.total hr hsampled⟩,
      { hl with }, { hf with }⟩
    · rintro ⟨⟩
    · intro _ t ht
      obtain rfl := Option.some.inj ht
      exact ⟨s.total, rfl, rfl⟩
    · intro c hc
      exact absurd (hcnr.symm.trans hc) (by simp)
    · rintro ⟨⟩
    · intro k hk
      obtain rfl := Option.some.inj hk
      exact ⟨hr.start, le_rfl⟩
  | false =>
    refine ⟨h.msw, h.total, fun _ => { hr with fresh := ?_, temp := ?_ }, { hl with }, { hf with }⟩
    · rintro ⟨⟩
    · rintro ⟨⟩

theorem inv_readCnr (h : Inv latches s n) : Inv latches (readCnr latches s) n := by
  have hl := h.loop
  have hf : Faithful s := h.faithful
  unfold readCnr
  split
  swap
  · exact h
  next hnext =>
  obtain ⟨hrun, hcnr⟩ := hnext
  have hr := h.run hrun
  split
  · exact h
  next t htemp =>
  have hprimed : s.temp ≠ none := by
    rw [htemp]
    simp
  cases latches with
  | true =>
    refine ⟨h.msw, h.total, fun _ => { hr with
      fresh := fun hnone => absurd hnone hprimed, cnr := ?_, unread := ?_ }, { hl with }, { hf with }⟩
    · intro c hc
      obtain rfl := Option.some.inj hc
      exact hr.temp rfl t htemp
    · rintro ⟨⟩
  | false =>
    have hsampled := hr.unread rfl hcnr
    refine ⟨h.msw, h.total, fun _ => ⟨hr.start, fun hnone => absurd hnone hprimed, ?_, ?_, ?_, ?_,
      wraps_sample h.total hr hsampled⟩, { hl with }, { hf with }⟩
    · rintro ⟨⟩
    · intro c hc
      obtain rfl := Option.some.inj hc
      exact ⟨s.total, rfl, rfl⟩
    · rintro _ ⟨⟩
    · intro k hk
      obtain rfl := Option.some.inj hk
      exact ⟨hr.start, le_rfl⟩

theorem inv_readMsw (h : Inv latches s n) : Inv latches (readMsw s) n := by
  have hl := h.loop
  have hf : Faithful s := h.faithful
  unfold readMsw
  split
  swap
  · exact h
  next hnext =>
  obtain ⟨hrun, htemp, hhi⟩ := hnext
  have hr := h.run hrun
  obtain ⟨d, hread, hunread, hsampled, hunsampled⟩ := hr.wraps
  refine ⟨h.msw, h.total, fun _ => { hr with
    fresh := fun hnone => absurd hnone htemp
    wraps := ⟨d, ?_, ?_, hsampled, hunsampled⟩ }, { hl with }, { hf with }⟩
  · intro hi hhi'
    obtain rfl := Option.some.inj hhi'
    rw [h.msw, hunread hhi]
  · rintro ⟨⟩

/-- When there is no lag the two reads belong together. -/
theorem join_of_lag (h : RunOk latches s n) (hlag : s.lag = 0) {lo : BitVec 16} (hlo : s.cnr = some lo)
    {hi : Word} (hhi : s.hi = some hi) :
    ∃ k ∈ s.sampled, (s.start ≤ k ∧ k ≤ s.total) ∧ join lo hi = BitVec.ofNat 32 k := by
  obtain ⟨k, hk, hcnr⟩ := h.cnr lo hlo
  obtain ⟨d, hread, -, hsampled, -⟩ := h.wraps
  have hd : k / 65536 = d := by
    have hwraps := hsampled k hk
    omega
  refine ⟨k, hk, h.within k hk, ?_⟩
  rw [hcnr, hread hi hhi, ← hd]
  exact join_ofNat k

theorem inv_store (h : Inv latches s n) (hlag : s.lag = 0) : Inv latches (store s) n := by
  have hl := h.loop
  have hf : Faithful s := h.faithful
  unfold store
  split
  swap
  · exact h
  next lo hi hrun hlo hhi =>
  obtain ⟨k, hk, hwithin, hjoin⟩ := join_of_lag (h.run hrun) hlag hlo hhi
  have hsampled : s.sampled.getD 0 = k := by
    rw [Option.mem_def.1 hk]
    rfl
  have hlater : s.ticksAt ≤ k := (hl.start hrun).trans hwithin.1
  simp only [hsampled]
  refine ⟨h.msw, h.total, ?_, ⟨hjoin, hl.prev, hl.le.trans hlater, hwithin.2, ?_, ?_⟩,
    ⟨?_, ?_, hf.prints⟩⟩
  · rintro ⟨⟩
  · rintro ⟨⟩
  · rintro x hx
    rcases List.mem_cons.1 hx with rfl | hx
    · exact le_rfl
    · exact (hl.samples x hx).trans hlater
  · intro x hx
    rcases List.mem_cons.1 hx with rfl | hx
    · exact ⟨hwithin.1, hwithin.2, hjoin⟩
    · exact hf.right x hx
  · exact List.pairwise_cons.2 ⟨fun x hx => (hl.samples x hx).trans hlater, hf.order⟩

theorem inv_loop (h : Inv latches s n) : Inv latches (loop s) n := by
  have hl := h.loop
  have hf : Faithful s := h.faithful
  have hloop : ∀ next : Loop, Inv latches { s with loop := next } n := fun next =>
    ⟨h.msw, h.total, fun hrun => { h.run hrun with }, { hl with }, { hf with }⟩
  unfold loop
  split
  · exact h
  next hidle =>
  have hnot : ¬ s.running = true := fun hrun => hidle (.inl hrun)
  split
  · split
    · exact hloop .print
    · exact h
  · refine ⟨h.msw, h.total, fun hrun => absurd hrun hnot, { hl with }, { hf with prints := ?_ }⟩
    intro p hp
    rcases List.mem_cons.1 hp with rfl | hp
    · refine ⟨hl.le, ?_⟩
      change s.ticks - s.prev = _
      rw [hl.ticks, hl.prev, ofNat_sub_ofNat hl.le]
    · exact hf.prints p hp
  · exact ⟨h.msw, h.total, fun hrun => absurd hrun hnot,
      { hl with prev := hl.ticks, le := le_rfl }, { hf with }⟩
  · exact ⟨h.msw, h.total, fun hrun => absurd hrun hnot, { hl with }, { hf with }⟩

/-- **One step** keeps the invariant. -/
theorem inv_step (s : State) (e : Event) (h : ∃ n, Inv latches s n) (hok : Orderly s e) :
    ∃ n, Inv latches (step latches s e) n := by
  obtain ⟨n, h⟩ := h
  cases e with
  | edges k => exact ⟨n, inv_edges h hok⟩
  | lptmr => exact inv_lptmr h
  | enter => exact ⟨n, inv_enter h⟩
  | prime => exact ⟨n, inv_prime h⟩
  | readCnr => exact ⟨n, inv_readCnr h⟩
  | readMsw => exact ⟨n, inv_readMsw h⟩
  | store => exact ⟨n, inv_store h hok⟩
  | loop => exact ⟨n, inv_loop h⟩

/-- **Samples.** In every orderly run all samples are right, in the order of the edges, and the
numbers that are printed are the edges between two samples. -/
theorem samples_faithful (latches : Bool) (es : List Event) (h : Along (step latches) Orderly {} es) :
    Faithful (run (step latches) {} es) := by
  obtain ⟨n, hinv⟩ := along_induction inv_step ⟨0, inv_start latches⟩ h
  exact hinv.faithful

/-- Two samples, the second one while a wrap is counted between the reads: it was outstanding when
the counter was sampled. -/
def twoSamples : List Event :=
  [.edges 65535, .enter, .prime, .readCnr, .readMsw, .store, .loop, .loop, .loop, .loop,
    .edges 3, .enter, .prime, .lptmr, .lptmr, .readMsw, .readCnr, .store, .loop, .loop]

theorem samples_faithful_twoSamples :
    (run (step true) {} twoSamples).prints = [⟨65538, 65535, 3⟩, ⟨65535, 0, 65535⟩] ∧
      Faithful (run (step true) {} twoSamples) :=
  ⟨by decide +kernel, samples_faithful true twoSamples (by decide +kernel)⟩

/-- The counter wraps after `it1cb` has been called, and `lptmr_isr` has to wait for its end. -/
def wrapInside : List Event :=
  [.edges 65535, .enter, .edges 1, .prime, .readCnr, .readMsw, .store]

/-- The sample is then 0, which is not the number of edges at any instant of the run. -/
theorem wrapInside_goes_back :
    (run (step true) {} wrapInside).samples = [⟨65535, 65536, 65536, 0⟩] ∧
      (run (step false) {} wrapInside).samples = [⟨65535, 65536, 65536, 0⟩] ∧
      (¬ ∃ n, 65535 ≤ n ∧ n ≤ 65536 ∧ (0 : Word) = BitVec.ofNat 32 n) ∧
      ¬ Faithful (run (step true) {} wrapInside) := by
  have hsamples : (run (step true) {} wrapInside).samples = [⟨65535, 65536, 65536, 0⟩] := by
    decide +kernel
  refine ⟨hsamples, by decide +kernel, ?_, fun hfaithful => ?_⟩
  · rintro ⟨n, hfirst, hlast, hzero⟩
    obtain rfl | rfl : n = 65535 ∨ n = 65536 := by
      omega
    · exact absurd hzero (by decide)
    · exact absurd hzero (by decide)
  · have hright := hfaithful.right
    rw [hsamples] at hright
    exact absurd (hright _ List.mem_cons_self).2.2 (by decide)

end LptmrCount
